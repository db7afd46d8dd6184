import Ews.Heard
import Ews.Settled

/-!
# The read loop

`ws.Serve` : read a message, hand it to the handler, until a read fails or the handler returns an
error. The control handler is called on the way, inside `ReadMessage`. Both handlers belong to one
program, so what either answers may depend on all calls before, of both kinds. A `Responder` is
such a program, and `ReadLoop.trace` is the list of its calls.

`narrate` is what the loop is for : it goes through the turns of the stream, hands each to the
responder, and stops at the first that ends the connection. `serve_narrates` is the refinement : for every
stream of bytes, every way the transport cuts it, every configuration and every responder, the calls
of the loop and the error it returns are those of `narrate`.
-/

set_option linter.unusedSectionVars false

namespace Ews

open ReadSide

/-- A call of the program : of its control handler, or of `OnMessage`. -/
inductive Callback
  | control (ev : ControlEvent)
  | message (op : Opcode) (payload : List UInt8)
  deriving DecidableEq, Repr

/-- The call is one of `OnMessage`. -/
def Callback.isMessage : Callback → Bool
  | .message _ _ => true
  | .control _ => false

/-- The answer of the program to a call, given the calls before it. -/
abbrev Responder := List Callback → Callback → Option Err

/-! ## The loop -/

/-- The state of `Serve` : the connection, and the calls made so far. -/
structure ReadLoop (F : Flate) where
  conn : Conn F
  trace : List Callback := []

namespace ReadLoop

variable {F : Flate}

/-- The connection during the next call of `ReadMessage`, with the control handler of a program
that has seen the calls of the trace. -/
def hearing (h : Responder) (x : ReadLoop F) : Conn F :=
  { x.conn with
    side := { x.conn.side with
      settings := { x.conn.side.settings with
        handler := fun calls ev =>
          h (x.trace ++ (calls.drop x.conn.side.calls.length).map .control) (.control ev) } } }

/-- The state after a call of `ReadMessage` that left the connection `c`. -/
def heard (x : ReadLoop F) (c : Conn F) : ReadLoop F :=
  ⟨c, x.trace ++ (c.side.calls.drop x.conn.side.calls.length).map .control⟩

/-- One round of `Serve`. -/
def serveRound (h : Responder) (x : ReadLoop F) : ReadLoop F ⊕ Err × ReadLoop F :=
  match (x.hearing h).readMessage with
  | (.error e, c) => .inr (e, x.heard c)
  | (.ok (op, payload), c) =>
    let x := x.heard c
    let y := { x with trace := x.trace ++ [.message op payload] }
    match h x.trace (.message op payload) with
    | some e => .inr (e, y)
    | none => .inl y

/-- `Serve`. -/
def serve (h : Responder) (c : Conn F) : Err × ReadLoop F :=
  Loop.run (serveRound h) (c.side.effort + 1) (fun x => (.noProgress, x)) ⟨c, []⟩

end ReadLoop

/-! ## What the loop is for -/

/-- How a stream ends for the program : the transport ends, the program stops it, the peer closes,
the connection fails with a close code, or a message is not acceptable. -/
inductive Ending
  | ended
  | stopped (e : Err)
  | closed (code : ℕ) (reason : List UInt8)
  | failed (code : ℕ)
  | rejected
  deriving DecidableEq, Repr

/-- The error that reports an ending. At the end of the transport it depends on whether the stream is
settled. -/
def Ending.Reports (settled : Prop) : Ending → Err → Prop
  | .ended, e => settled ∧ e = .eof ∨ ¬settled ∧ e = .unexpectedEOF
  | .stopped e', e => e = e'
  | .closed code reason, e => e = .closed code reason
  | .failed code, e => ∃ cause, e = .failure code cause
  | .rejected, e => ∃ code cause, e = .failure code cause ∧ (code = 1007 ∨ code = 1009)

instance (s : Settings) (m : WireMessage) (out : List UInt8) : Decidable (Conn.Accepts s m out) :=
  decidable_of_iff (m.payload.length ≤ s.limit ∧ out.length ≤ s.limit ∧
    (s.validateUTF8 = true → m.opcode = .text → utf8Valid out = true))
    ⟨fun h => ⟨h.1, h.2.1, h.2.2⟩, fun h => ⟨h.wire, h.content, h.text⟩⟩

section Narrate

variable (F : Flate) (s : Settings) (h : Responder)

/-- The calls of the program for the turns of a stream, after those of `trace`, and how the stream
ends for it. -/
def narrate : History → List Callback → List Turn → List Callback × Ending
  | _, trace, [] => (trace, .ended)
  | hist, trace, .control ev :: ts =>
    match h trace (.control ev), ev with
    | some e, _ => (trace ++ [.control ev], .stopped e)
    | none, .close code reason => (trace ++ [.control ev], .closed code reason)
    | none, _ => narrate hist (trace ++ [.control ev]) ts
  | hist, trace, .message m :: ts =>
    match hist.content F m with
    | none => (trace, .rejected)
    | some out =>
      if Conn.Accepts s m out then
        match h trace (.message m.opcode out) with
        | some e => (trace ++ [.message m.opcode out], .stopped e)
        | none => narrate (hist.next m out) (trace ++ [.message m.opcode out]) ts
      else (trace, .rejected)
  | _, trace, .tooLarge :: _ => (trace, .failed 1009)
  | _, trace, .fail code :: _ => (trace, .failed code)

variable {F s h} {hist : History} {trace : List Callback} {ts : List Turn}

/-- A control frame other than a close that the program does not stop at. -/
theorem narrate_control {ev : ControlEvent} (mild : ∀ code reason, ev ≠ .close code reason)
    (answer : h trace (.control ev) = none) : narrate F s h hist trace (.control ev :: ts) =
      narrate F s h hist (trace ++ [.control ev]) ts := by
  cases ev with
  | ping p => simp [narrate, answer]
  | pong p => simp [narrate, answer]
  | close code reason => exact absurd rfl (mild code reason)

theorem narrate_stop {ev : ControlEvent} {e : Err} (answer : h trace (.control ev) = some e) :
    narrate F s h hist trace (.control ev :: ts) = (trace ++ [.control ev], .stopped e) := by
  simp [narrate, answer]

theorem narrate_close {code : ℕ} {reason : List UInt8}
    (answer : h trace (.control (.close code reason)) = none) :
    narrate F s h hist trace (.control (.close code reason) :: ts) =
      (trace ++ [.control (.close code reason)], .closed code reason) := by
  simp [narrate, answer]

section Message

variable {m : WireMessage} {out : List UInt8} (content : hist.content F m = some out)
  (accepts : Conn.Accepts s m out)
include content accepts

theorem narrate_message (answer : h trace (.message m.opcode out) = none) :
    narrate F s h hist trace (.message m :: ts) =
      narrate F s h (hist.next m out) (trace ++ [.message m.opcode out]) ts := by
  simp [narrate, content, accepts, answer]

theorem narrate_message_stop {e : Err} (answer : h trace (.message m.opcode out) = some e) :
    narrate F s h hist trace (.message m :: ts) =
      (trace ++ [.message m.opcode out], .stopped e) := by
  simp [narrate, content, accepts, answer]

end Message

theorem narrate_rejected {m : WireMessage}
    (unfit : ∀ out, hist.content F m = some out → ¬Conn.Accepts s m out) :
    narrate F s h hist trace (.message m :: ts) = (trace, .rejected) := by
  cases hc : hist.content F m with
  | none => simp [narrate, hc]
  | some out => simp [narrate, hc, unfit out hc]

/-- Calls the control handler consents to. -/
theorem narrate_consents {handler : List ControlEvent → ControlEvent → Option Err} :
    ∀ {evs calls : List ControlEvent} {trace : List Callback},
      (∀ evs' ev, handler (calls ++ evs') ev = h (trace ++ evs'.map .control) (.control ev)) →
      Consents handler calls evs → (∀ code reason, .close code reason ∉ evs) →
      narrate F s h hist trace (evs.map .control ++ ts) =
        narrate F s h hist (trace ++ evs.map .control) ts
  | [], calls, trace, _, _, _ => by simp
  | ev :: evs, calls, trace, same, consents, mild => by
    have hans := same [] ev
    rw [List.append_nil, List.map_nil, List.append_nil, consents.1] at hans
    have hsame : ∀ evs' ev', handler (calls ++ [ev] ++ evs') ev' =
        h (trace ++ [.control ev] ++ evs'.map .control) (.control ev') := fun evs' ev' => by
      simpa using same (ev :: evs') ev'
    rw [List.map_cons, List.cons_append,
      narrate_control (fun code reason he => mild code reason (he ▸ List.mem_cons_self)) hans.symm,
      narrate_consents hsame consents.2 fun code reason hmem =>
        mild code reason (List.mem_cons_of_mem _ hmem),
      List.append_assoc, List.singleton_append, List.map_cons]

end Narrate

namespace ReadLoop

variable {F : Flate} {h : Responder}

/-- A stage of reading `bytes` : some of them are behind, and the others with the transport. -/
structure Along (R : Rules) (bytes : List UInt8) (s : ReadSide) : Prop where
  rules : s.rx.rules = R
  input : ∃ bs es, bytes = bs ++ s.transport.bytes ∧
    ∀ fut, R.events false (bs ++ fut) = es ++ s.rx.expected fut

theorem Along.passed {R : Rules} {bytes : List UInt8} {s s' : ReadSide} {l : List Event}
    (h : Along R bytes s) (hp : Passed s l s') : Along R bytes s' := by
  obtain ⟨bs, es, hbytes, hevents⟩ := h.input
  obtain ⟨bs', hs, hb⟩ := hp.input
  refine ⟨hp.rules.trans h.rules, bs ++ bs', es ++ l, ?_, fun fut => ?_⟩
  · rw [hbytes, Transport.bytes_append hs, List.append_assoc]
  · rw [List.append_assoc, hevents, hb, List.append_assoc]

/-- At the end of the transport the receiver is idle if the stream is settled. -/
theorem Along.idle_iff {R : Rules} {bytes : List UInt8} {s : ReadSide} (h : Along R bytes s)
    (coupled : s.rx.Coupled) (live : s.rx.dead = false) (dry : s.rx.expected [] = [])
    (symbols : s.transport.symbols = []) : s.rx.idle = true ↔ R.Settled bytes := by
  obtain ⟨bs, es, hbytes, hevents⟩ := h.input
  rw [Transport.bytes, symbols, List.filterMap_nil, List.append_nil] at hbytes
  rw [hbytes]
  rw [← h.rules] at hevents ⊢
  exact Receiver.idle_iff_settled coupled live hevents dry

/-- The invariant of `Serve` : between messages, with the rest of `total` to be told. -/
structure Telling (F : Flate) (s : Settings) (h : Responder) (R : Rules) (bytes : List UInt8)
    (total : List Callback × Ending) (x : ReadLoop F) : Prop where
  rest : x.conn.Rest
  steady : x.conn.side.transport.Steady
  clean : x.conn.side.transport.Clean
  limit : x.conn.side.settings.limit = s.limit
  validate : x.conn.side.settings.validateUTF8 = s.validateUTF8
  along : Along R bytes x.conn.side
  tells : narrate F s h x.conn.history x.trace x.conn.turns = total

/-- The calls and the error of `Serve` are those of `total`. -/
def Told (settled : Prop) (total : List Callback × Ending) (out : Err × ReadLoop F) : Prop :=
  out.2.trace = total.1 ∧ total.2.Reports settled out.1

variable {R : Rules} {bytes : List UInt8}

theorem Telling.hearing {s : Settings} {total : List Callback × Ending} {x : ReadLoop F}
    (h' : Telling F s h R bytes total x) : (x.hearing h).Rest :=
  ⟨⟨h'.rest.between.coupled, h'.rest.between.live, h'.rest.between.drained⟩, h'.rest.shut,
    h'.rest.outside, h'.rest.fine, h'.rest.dec⟩

theorem Telling.hearing_along {s : Settings} {total : List Callback × Ending} {x : ReadLoop F}
    (h' : Telling F s h R bytes total x) : Along R bytes (x.hearing h).side :=
  ⟨h'.along.rules, h'.along.input⟩

theorem hearing_history (x : ReadLoop F) : (x.hearing h).history = x.conn.history := rfl

/-- The control handler of the next call, after some calls of it. -/
theorem hearing_handler (x : ReadLoop F) (evs : List ControlEvent) (ev : ControlEvent) :
    (x.hearing h).side.settings.handler ((x.hearing h).side.calls ++ evs) ev =
      h (x.trace ++ evs.map .control) (.control ev) := by
  show h (x.trace ++ ((x.conn.side.calls ++ evs).drop x.conn.side.calls.length).map .control) _ = _
  rw [List.drop_left]

theorem heard_trace (x : ReadLoop F) {c : Conn F} {evs : List ControlEvent}
    (calls : c.side.calls = x.conn.side.calls ++ evs) :
    (x.heard c).trace = x.trace ++ evs.map .control := by
  rw [heard, calls, List.drop_left]

section Round

variable {s : Settings} {total : List Callback × Ending} {x : ReadLoop F} {c : Conn F}
  {stop : Option Err} {evs : List ControlEvent} {ts : List Turn} (hx : Telling F s h R bytes total x)
  (consulted : Consulted (x.hearing h).side c.side stop)
  (turns : x.conn.turns = evs.map .control ++ ts) (mild : ∀ code reason, .close code reason ∉ evs)
include hx consulted turns mild

/-- The control frames of a call are told, or the last of them stopped it. -/
theorem Telling.tell (calls : c.side.calls = x.conn.side.calls ++ evs) :
    narrate F s h x.conn.history (x.trace ++ evs.map .control) ts = total ∨
      ∃ e, stop = some e ∧ total = (x.trace ++ evs.map .control, .stopped e) := by
  rcases consulted.split calls with hc | ⟨evs', ev, e, rfl, hstop, hc, answer⟩
  · left
    rw [← hx.tells, turns, narrate_consents (hearing_handler x) hc mild]
  · right
    rw [hearing_handler] at answer
    refine ⟨e, hstop, ?_⟩
    rw [← hx.tells, turns, List.map_append, List.append_assoc,
      narrate_consents (hearing_handler x) hc fun code reason hmem =>
        mild code reason (List.mem_append_left _ hmem),
      List.map_singleton, List.singleton_append, narrate_stop answer]
    simp

/-- The same in front of a control frame that ended the call. -/
theorem Telling.tell_last {ev : ControlEvent}
    (calls : c.side.calls = x.conn.side.calls ++ (evs ++ [ev])) :
    narrate F s h x.conn.history (x.trace ++ evs.map .control) ts = total := by
  rw [← hx.tells, turns, narrate_consents (hearing_handler x) (consulted.init calls) mild]

/-- A call that ended with the turn behind the control frames. -/
theorem Telling.told {e : Err} {ending : Ending} (hstop : stop = some e)
    (calls : c.side.calls = x.conn.side.calls ++ evs)
    (tells : narrate F s h x.conn.history (x.trace ++ evs.map .control) ts =
      (x.trace ++ evs.map .control, ending)) (reports : ending.Reports (R.Settled bytes) e) : Told (R.Settled bytes) total (e, x.heard c) := by
  rw [Told, x.heard_trace calls]
  rcases hx.tell consulted turns mild calls with htell | ⟨e', he, htotal⟩
  · rw [← htell, tells]
    exact ⟨rfl, reports⟩
  · obtain rfl := Option.some.inj (hstop.symm.trans he)
    rw [htotal]
    exact ⟨rfl, rfl⟩

end Round

theorem accepts_congr {s s' : Settings} {m : WireMessage} {out : List UInt8} (limit : s.limit = s'.limit)
    (validate : s.validateUTF8 = s'.validateUTF8) (h : Conn.Accepts s m out) : Conn.Accepts s' m out :=
  ⟨limit ▸ h.wire, limit ▸ h.content, validate ▸ h.text⟩

/-- One round of `Serve` tells the turns up to the next message, or ends as it should. -/
theorem serveRound_told {s : Settings} {total : List Callback × Ending} {x : ReadLoop F}
    (hx : Telling F s h R bytes total x) :
    Loop.Round (Telling F s h R bytes total) (fun x => x.conn.side.effort)
      (Told (R.Settled bytes) total) x (serveRound h x) := by
  have hheard := Conn.readMessage_heard hx.hearing hx.steady hx.clean
  have hcons := Conn.readMessage_consulted hx.hearing
  unfold serveRound
  generalize (x.hearing h).readMessage = out at hheard hcons
  cases hheard with
  | @message evs m out c' l turns calls content accepts rest history passed place less =>
    have haccepts := accepts_congr (s := (x.hearing h).side.settings) hx.limit hx.validate accepts
    have htrace := x.heard_trace calls
    rw [hearing_history] at content history
    rcases hx.tell hcons turns (mild_of_turns _ turns) calls with htell | ⟨e, he, -⟩
    swap
    · cases he
    dsimp only
    cases hans : h (x.heard c').trace (.message m.opcode out) with
    | some e =>
      rw [htrace] at hans
      rw [narrate_message_stop content haccepts hans] at htell
      refine ⟨?_, ?_⟩
      · rw [← htell, htrace]
      · rw [← htell]
        rfl
    | none =>
      rw [htrace] at hans
      rw [narrate_message content haccepts hans] at htell
      refine ⟨⟨rest, passed.steady hx.steady, passed.clean hx.clean, ?_, ?_,
        hx.hearing_along.passed passed, ?_⟩, less⟩
      · exact (congrArg Settings.limit passed.settings).trans hx.limit
      · exact (congrArg Settings.validateUTF8 passed.settings).trans hx.validate
      · rw [← htell, htrace]
        show narrate F s h c'.history _ c'.turns = _
        rw [history]
  | @rejected evs m code cause c' ts turns calls status unfit =>
    have hunfit : ∀ out, x.conn.history.content F m = some out → ¬Conn.Accepts s m out :=
      fun out hout hacc => unfit out hout (accepts_congr hx.limit.symm hx.validate.symm hacc)
    refine hx.told hcons turns (mild_of_turns _ turns) rfl calls (narrate_rejected hunfit) ?_
    exact ⟨code, cause, rfl, status⟩
  | tooLarge turns calls =>
    exact hx.told hcons turns (mild_of_turns _ turns) rfl calls rfl ⟨_, rfl⟩
  | failed turns calls =>
    exact hx.told hcons turns (mild_of_turns _ turns) rfl calls rfl ⟨_, rfl⟩
  | @ended evs l s' c' turns mild calls passed coupled live dry symbols place =>
    rw [← List.append_nil (evs.map Turn.control)] at turns
    have halong : Along R bytes s' := hx.hearing_along.passed passed
    have hidle := halong.idle_iff coupled live dry symbols
    refine hx.told hcons turns mild rfl calls rfl ?_
    by_cases hsettled : R.Settled bytes
    · rw [hidle.mpr hsettled]
      exact Or.inl ⟨hsettled, rfl⟩
    · rw [Bool.eq_false_iff.mpr fun h => hsettled (hidle.mp h)]
      exact Or.inr ⟨hsettled, rfl⟩
  | @refused evs ev ts e c' turns calls answer =>
    rw [hearing_handler] at answer
    have htell := hx.tell_last hcons turns (mild_of_turns _ turns) calls
    rw [narrate_stop answer] at htell
    refine ⟨?_, ?_⟩
    · rw [← htell, x.heard_trace calls]
      simp
    · rw [← htell]
      rfl
  | @closed evs code reason c' turns calls answer =>
    rw [hearing_handler] at answer
    have htell := hx.tell_last hcons turns (mild_of_turns _ turns) calls
    rw [narrate_close answer] at htell
    refine ⟨?_, ?_⟩
    · rw [← htell, x.heard_trace calls]
      simp
    · rw [← htell]
      rfl

/-- `Serve` between messages. -/
theorem serve_spec {c : Conn F} (rest : c.Rest) (steady : c.side.transport.Steady)
    (clean : c.side.transport.Clean) (along : Along R bytes c.side) (h : Responder) :
    Told (R.Settled bytes) (narrate F c.side.settings h c.history [] c.turns) (serve h c) :=
  Loop.run_spec _ (fun x => x.conn.side.effort) (fun _ hx => serveRound_told hx)
    ⟨rest, steady, clean, rfl, rfl, along, rfl⟩ (Nat.lt_succ_self _)

/-- A new connection is between messages, in front of the bytes of its transport. -/
theorem newConn_rest {cfg : Config} {pool : ℕ → Option { d : Decompressor F // d.Idle }}
    {t : Transport} {c : Conn F} (hc : newConn cfg t pool = .ok c) : c.Rest ∧ c.side.transport = t ∧
      Along ⟨cfg.role, cfg.compression.isSome⟩ t.bytes c.side ∧
      c.side.todo = Rules.events ⟨cfg.role, cfg.compression.isSome⟩ false t.bytes := by
  unfold newConn at hc
  split_ifs at hc with hv
  cases hc
  have hexp := Receiver.expected_init cfg.role cfg.compression.isSome
  exact ⟨⟨⟨Receiver.coupled_init _ _, rfl, rfl⟩, rfl, rfl, rfl, fun d hd => by cases hd⟩, rfl,
    ⟨rfl, [], [], rfl, fun fut => (hexp fut).symm⟩, hexp _⟩

/-- `Serve` hands the program what the stream brings it. Over any transport that neither fails nor
stalls, whatever bytes it brings and however it cuts them, the calls of the program, those of its
control handler and of `OnMessage` in one order, are those of `narrate` for the turns of the stream,
and the error `Serve` returns reports how the stream ended : at the end of the transport `io.EOF` if
the stream is settled there, and `io.ErrUnexpectedEOF` if it is not. -/
theorem serve_narrates (cfg : Config) (pool : ℕ → Option { d : Decompressor F // d.Idle })
    (t : Transport) {c : Conn F} (hc : newConn cfg t pool = .ok c) (steady : t.Steady)
    (clean : t.Clean) (h : Responder) {R : Rules} (hR : R = ⟨cfg.role, cfg.compression.isSome⟩)
    {told : List Callback × Ending} (htold : told = narrate F c.side.settings h c.history []
      (turnsFrom c.side.settings.limit none (R.events false t.bytes))) :
    (serve h c).2.trace = told.1 ∧ told.2.Reports (R.Settled t.bytes) (serve h c).1 := by
  obtain ⟨rest, htransport, along, htodo⟩ := newConn_rest hc
  have hspec := serve_spec rest (htransport ▸ steady) (htransport ▸ clean) along h
  rw [Conn.turns, htodo, ← hR, ← htold] at hspec
  exact hspec

/-- The turns of a legal stream of frames that a transport brings. -/
theorem turns_wire {R : Rules} (limit : ℕ) {t : Transport} {fs : List Frame}
    (legal : R.stream false fs = true) (hbytes : t.bytes = wire fs) :
    turnsFrom limit none (R.events false t.bytes) = frameTurns limit none fs := by
  rw [hbytes, R.events_wire fs legal]
  exact turnsFrom_events limit fs none legal

/-- A ping, a text in two fragments and a close, cut inside the headers. -/
def greeting : Transport :=
  [.data [0x89, 1, 7, 1], .data [1, 104, 0x80], .data [1, 105, 0x88, 0]]

theorem greeting_bytes : Transport.bytes greeting = wire [⟨true, false, .ping, none, [7]⟩,
    ⟨false, false, .text, none, [104]⟩, ⟨true, false, .continuation, none, [105]⟩,
    ⟨true, false, .close, none, []⟩] := by decide

theorem greeting_clean : Transport.Clean greeting := fun e he => by
  have hsymbols : Transport.symbols greeting = (Transport.bytes greeting).map .inl := by rfl
  rw [hsymbols] at he
  simp at he

theorem serve_narrates_greeting : ∃ c : Conn Flate.stored,
    newConn { role := .client } greeting (fun _ => none) = .ok c ∧
    (serve (fun _ _ => none) c).2.trace =
      [.control (.ping [7]), .message .text [104, 105], .control (.close 1005 [])] ∧
    (serve (fun _ _ => none) c).1 = .closed 1005 [] := by
  refine ⟨_, rfl, ?_⟩
  have htold : (([.control (.ping [7]), .message .text [104, 105], .control (.close 1005 [])],
      .closed 1005 []) : List Callback × Ending) =
      narrate Flate.stored (Config.settings { role := .client } rfl) (fun _ _ => none)
        ⟨windowSize, false, []⟩ [] (turnsFrom (8 * 2 ^ 20) none
          (Rules.events ⟨.client, false⟩ false (Transport.bytes greeting))) := by
    rw [turns_wire (8 * 2 ^ 20) (by decide) greeting_bytes]
    rfl
  exact serve_narrates { role := .client } (fun _ => none) greeting rfl (by decide) greeting_clean
    (fun _ _ => none) rfl htold

end ReadLoop

end Ews
