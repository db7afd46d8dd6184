import Ews.ReadLoop
import Ews.Encoding

/-!
# The default control handler

`DefaultControlHandler` answers on the connection it is called for, so `Serve` with it is a read
loop whose program writes. `call` is what the program does to the write side when it is called : a
ping is answered by a pong, a close by a close, and `OnMessage` may do anything. The connection has
no queue, and its transport accepts every write.

The calls depend on what the peer sent, the answers on what was sent to it before. `serve_answers`
takes them together : over every stream the handler answers each ping and the close, and never is
what ends the connection.
-/

set_option linter.unusedSectionVars false

namespace Ews

open Bytes ReadSide

/-- What a call of the program does to the write side : what it returns, and the frames it sent. -/
abbrev Written := Option Err × WriteSide × List Item

/-- The frame is written, if there is one. -/
def Written.ofFrame : Except Err Outgoing × WriteSide → Written
  | (.error e, c) => (some e, c, [])
  | (.ok out, c) => (none, c.finish out.after none, [out.item])

/-! ## The handler -/

namespace DefaultControlHandler

/-- `OnPing`. -/
def onPing (c : WriteSide) (payload : List UInt8) : Written :=
  .ofFrame (c.control .pong payload)

/-- `OnPong`. -/
def onPong (c : WriteSide) (_ : List UInt8) : Written :=
  (none, c, [])

/-- `OnClose`. -/
def onClose (c : WriteSide) (code : ℕ) (_ : List UInt8) : Written :=
  let code := if code = noStatus then 0 else code
  (none, (Written.ofFrame (c.close (.ofNat code) [])).2)

/-- The method `handleControl` calls. -/
def handle (c : WriteSide) : ControlEvent → Written
  | .ping payload => onPing c payload
  | .pong payload => onPong c payload
  | .close code reason => onClose c code reason

end DefaultControlHandler

/-- `OnMessage` of a program, which may write. What it does may depend on the calls before it, of
both handlers. -/
abbrev OnMessage := List Callback → WriteSide → Opcode → List UInt8 → Written

namespace OnMessage

variable (m : OnMessage)

/-- A call of the program with the default control handler, after those of `trace`. -/
def call (trace : List Callback) (c : WriteSide) : Callback → Written
  | .control ev => DefaultControlHandler.handle c ev
  | .message op payload => m trace c op payload

/-- The write side after further calls of the program. -/
def afterFrom (trace : List Callback) (c : WriteSide) : List Callback → WriteSide
  | [] => c
  | cb :: cbs => afterFrom (trace ++ [cb]) (m.call trace c cb).2.1 cbs

/-- The write side after calls of the program. -/
def after (c : WriteSide) (trace : List Callback) : WriteSide :=
  m.afterFrom [] c trace

/-- The program on a connection with the write side `c`. -/
def responder (c : WriteSide) : Responder :=
  fun trace cb => (m.call trace (m.after c trace) cb).1

theorem afterFrom_concat (cb : Callback) : ∀ (cbs trace : List Callback) (c : WriteSide),
    m.afterFrom trace c (cbs ++ [cb]) =
      (m.call (trace ++ cbs) (m.afterFrom trace c cbs) cb).2.1
  | [], trace, c => by rw [List.append_nil]; rfl
  | cb' :: cbs, trace, c => by
    rw [List.cons_append, afterFrom, afterFrom_concat cb cbs, List.append_assoc]
    rfl

end OnMessage

/-! ## What it is for -/

/-- What is to be sent for a control frame, if a close was sent before or not. -/
def ControlEvent.answer (closing : Bool) : ControlEvent → List (Opcode × List UInt8)
  | .ping payload => [(.pong, payload)]
  | .pong _ => []
  | .close code _ =>
    if closing then [] else [(.close, if code = noStatus then [] else beBytes 2 code)]

/-- The program without its control handler. -/
def Responder.messagesOnly (h : Responder) : Responder
  | _, .control _ => none
  | trace, .message op payload => h trace (.message op payload)

/-- What the receiver lets through : a payload that fits a control frame, and a close code that may
be sent. -/
def ControlEvent.Fair : ControlEvent → Prop
  | .ping payload => payload.length ≤ 125
  | .pong _ => True
  | .close code _ => code = noStatus ∨ validCloseCode code = true

theorem ControlEvent.fair_ofFrame {op : Opcode} {p : List UInt8} {ev : ControlEvent}
    (h : ControlEvent.ofFrame op p = some ev) (hlen : p.length ≤ 125)
    (hclose : op = .close → closeFault p = none) : ev.Fair := by
  unfold ControlEvent.ofFrame at h
  split_ifs at h with hping hpong hop
  · cases h
    exact hlen
  · cases h
    trivial
  · cases h
    have hfault := hclose hop
    unfold closeFault at hfault
    unfold parseClose
    split_ifs at hfault with hnil hvalid
    · simp [hnil, Fair]
    · rw [if_neg (by omega)]
      exact Or.inr hvalid.2.2

/-- Every control frame among the events is one that may be sent. -/
theorem Rules.control_mem_events (R : Rules) {op : Opcode} {p : List UInt8} :
    ∀ (openMsg : Bool) (bs : List UInt8), .control op p ∈ R.events openMsg bs →
      p.length ≤ 125 ∧ (op = .close → closeFault p = none) := by
  intro openMsg bs h
  induction hn : bs.length using Nat.strong_induction_on generalizing openMsg bs with
  | _ n ih =>
    cases hp : parseHead bs with
    | more => simp [R.events_more openMsg hp] at h
    | invalid => simp [R.events_invalid openMsg hp] at h
    | head hd rest =>
      have hlt := parseHead_length hp
      have hdrop : (rest.drop hd.length).length < n := by
        rw [List.length_drop]
        omega
      rw [R.events_head openMsg hp] at h
      split_ifs at h with hlegal hctl
      · have hlen := Receiver.length_of_control hlegal hctl
        have hpay : (maskWith hd.key 0 (rest.take hd.length)).length ≤ 125 := by
          rw [length_maskWith, List.length_take]
          omega
        unfold Rules.controlEvents at h
        simp only [List.nil_append] at h
        split_ifs at h with hshort hclose
        · cases h
        · cases hfault : closeFault (maskWith hd.key 0 (rest.take hd.length)) with
          | some code => simp [hfault] at h
          | none =>
            simp only [hfault, List.mem_singleton, Event.control.injEq] at h
            obtain ⟨-, rfl⟩ := h
            exact ⟨hpay, fun _ => hfault⟩
        · rcases List.mem_cons.mp h with heq | hmem
          · obtain ⟨rfl, rfl⟩ := Event.control.inj heq
            exact ⟨hpay, fun hop => absurd hop hclose⟩
          · exact ih _ hdrop _ _ hmem rfl
      · unfold Rules.dataEvents at h
        simp only [List.mem_cons, List.mem_append, List.mem_map, reduceCtorEq, and_false,
          exists_false, false_or] at h
        split_ifs at h with hshort
        · cases h
        · exact ih _ hdrop _ _ h rfl
      · simp at h

/-- The control frames among the turns are among the events. -/
theorem control_mem_turnsFrom (limit : ℕ) {ev : ControlEvent} :
    ∀ (es : List Event) (cur : Option OpenMessage), .control ev ∈ turnsFrom limit cur es →
      ∃ op p, .control op p ∈ es ∧ ControlEvent.ofFrame op p = some ev := by
  intro es cur h
  induction es generalizing cur with
  | nil => cases cur <;> simp [turnsFrom] at h
  | cons e es ih =>
    have later : ∀ {cur}, .control ev ∈ turnsFrom limit cur es →
        ∃ op p, .control op p ∈ e :: es ∧ ControlEvent.ofFrame op p = some ev := by
      intro cur hmem
      obtain ⟨op, p, hes, hev⟩ := ih cur hmem
      exact ⟨op, p, List.mem_cons_of_mem _ hes, hev⟩
    cases e with
    | control op p =>
      rw [show turnsFrom limit cur (.control op p :: es) = controlTurn op p ++
        if op = .close then [] else turnsFrom limit cur es by cases cur <;> rfl] at h
      rcases List.mem_append.mp h with hnow | hlater
      · simp only [controlTurn, List.mem_map, Option.mem_toList, Turn.control.injEq,
          exists_eq_right] at hnow
        exact ⟨op, p, List.mem_cons_self, hnow⟩
      · split_ifs at hlater
        · cases hlater
        · exact later hlater
    | byte b =>
      cases cur with
      | none => simp [turnsFrom] at h
      | some m =>
        simp only [turnsFrom] at h
        split_ifs at h
        · cases h
        · exact later (by simpa using h)
        · exact later h
    | data final rsv1 op length =>
      cases cur with
      | none =>
        simp only [turnsFrom] at h
        split_ifs at h
        · simp at h
        · exact later (by simpa using h)
        · exact later h
      | some m =>
        simp only [turnsFrom] at h
        split_ifs at h
        · cases h
        · simp at h
        · exact later (by simpa using h)
        · exact later h
    | fail code => cases cur <;> simp [turnsFrom] at h

theorem fair_turns {R : Rules} {limit : ℕ} {bs : List UInt8} {ev : ControlEvent}
    (h : .control ev ∈ turnsFrom limit none (R.events false bs)) : ev.Fair := by
  obtain ⟨op, p, hmem, hev⟩ := control_mem_turnsFrom limit _ _ h
  obtain ⟨hlen, hclose⟩ := R.control_mem_events false bs hmem
  exact ControlEvent.fair_ofFrame hev hlen hclose

/-! ## What the handler does -/

namespace DefaultControlHandler

/-- A code that may be received may be sent. -/
theorem validateClose_echo {code : ℕ} (h : validCloseCode code = true) :
    Sender.closePayload (.ofNat code) [] = beBytes 2 code ∧
      validateClose (beBytes 2 code) = .ok () := by
  have hrange : 1000 ≤ code ∧ code ≤ 4999 := by
    unfold validCloseCode at h
    split_ifs at h with hlow
    · simp only [Bool.or_eq_true, Bool.and_eq_true, decide_eq_true_eq] at hlow
      omega
    · simp only [Bool.and_eq_true, decide_eq_true_eq] at h
      omega
  have hnat : (UInt16.ofNat code).toNat = code := by
    rw [UInt16.toNat_ofNat']
    omega
  have hne : UInt16.ofNat code ≠ 0 := by
    intro hzero
    have hzeroNat : code = 0 := by rw [← hnat, hzero]; rfl
    omega
  have hbe : beNat (beBytes 2 code) = code := by
    rw [beNat_beBytes]
    omega
  have htake : (beBytes 2 code).take 2 = beBytes 2 code :=
    List.take_of_length_le (by rw [length_beBytes])
  have hdrop : (beBytes 2 code).drop 2 = [] :=
    List.drop_of_length_le (by rw [length_beBytes])
  refine ⟨by rw [Sender.closePayload, if_neg hne, hnat, List.append_nil], ?_⟩
  rw [validateClose, htake, hdrop, hbe, length_beBytes, h]
  rfl

theorem onPing_eq (c : WriteSide) {payload : List UInt8} (h : payload.length ≤ 125) :
    onPing c payload = (none, { c with tx := c.tx.drawKey },
      [{ frame := c.tx.frame .pong true payload false }]) := by
  have hpong : ¬(c.tx.closeSent = true ∧ Opcode.pong ≠ Opcode.pong) := fun hp => hp.2 rfl
  rw [onPing, WriteSide.control, Sender.encode_ping (Or.inr rfl), if_neg hpong,
    if_neg (Nat.not_lt.mpr h)]
  rfl

/-- An echo with a valid payload : it is sent unless a close was sent before. -/
theorem close_eq (c : WriteSide) {code : UInt16} {p : List UInt8}
    (hp : Sender.closePayload code [] = p) (hv : validateClose p = .ok ()) :
    (Written.ofFrame (c.close code [])).2 = if c.tx.closeSent = true then (c, [])
      else ({ c with tx := { c.tx.drawKey with closeSent := true } },
        [{ frame := c.tx.frame .close true p false }]) := by
  have hfits : Sender.closeFits code [] = true := by
    unfold Sender.closeFits
    split_ifs <;> rfl
  rw [WriteSide.close, Sender.encodeClose_eq, if_pos hfits, hp, Sender.encode_close, hv]
  split_ifs <;> rfl

theorem onClose_eq (c : WriteSide) {code : ℕ} (reason : List UInt8)
    (h : code = noStatus ∨ validCloseCode code = true) :
    onClose c code reason = (none, if c.tx.closeSent = true then (c, [])
      else ({ c with tx := { c.tx.drawKey with closeSent := true } },
        [{ frame := c.tx.frame .close true (if code = noStatus then [] else beBytes 2 code)
            false }])) := by
  unfold onClose
  dsimp only
  by_cases hno : code = noStatus
  · rw [if_pos hno, if_pos hno, close_eq c (p := []) rfl rfl]
  · obtain ⟨hp, hv⟩ := validateClose_echo (h.resolve_left hno)
    rw [if_neg hno, if_neg hno, close_eq c hp hv]

variable {ev : ControlEvent} (c : WriteSide)

/-- It never returns an error. -/
theorem handle_none (h : ev.Fair) : (handle c ev).1 = none := by
  cases ev with
  | ping payload => rw [handle, onPing_eq c h]
  | pong payload => rfl
  | close code reason => rfl

/-- It sends what is to be sent. -/
theorem handle_answer (h : ev.Fair) :
    ((handle c ev).2.2.map fun i => (i.frame.opcode, i.frame.payload)) =
      ev.answer c.tx.closeSent := by
  cases ev with
  | ping payload =>
    rw [handle, onPing_eq c h]
    rfl
  | pong payload => rfl
  | close code reason =>
    rw [handle, onClose_eq c reason h, ControlEvent.answer]
    split_ifs <;> rfl

theorem handle_closeSent {code : ℕ} {reason : List UInt8}
    (h : (ControlEvent.close code reason).Fair) :
    (handle c (.close code reason)).2.1.tx.closeSent = true := by
  rw [handle, onClose_eq c reason h]
  by_cases hsent : c.tx.closeSent = true
  · rw [if_pos hsent]
    exact hsent
  · rw [if_neg hsent]

end DefaultControlHandler

/-! ## The loop with the handler -/

section Narrate

variable {F : Flate} {s : Settings} {h : Responder}

/-- A control handler that never fails does not show in the calls. -/
theorem narrate_messagesOnly : ∀ (ts : List Turn) (hist : History) (trace : List Callback),
    (∀ ev, .control ev ∈ ts → ∀ trace, h trace (.control ev) = none) →
      narrate F s h hist trace ts = narrate F s h.messagesOnly hist trace ts
  | [], _, _, _ => rfl
  | t :: ts, hist, trace, hno => by
    have ih := fun hist trace =>
      narrate_messagesOnly ts hist trace fun ev hev => hno ev (List.mem_cons_of_mem t hev)
    cases t with
    | control ev =>
      have hnow := hno ev List.mem_cons_self trace
      cases ev <;> simp only [narrate, hnow, Responder.messagesOnly, ih]
    | message m =>
      simp only [narrate, Responder.messagesOnly, ih]
    | tooLarge => rfl
    | fail code => rfl

/-- The calls `told` go on from `trace` : their control frames are among the turns, and a close that
ends the stream is the last call. -/
structure Continues (ts : List Turn) (trace more : List Callback)
    (told : List Callback × Ending) : Prop where
  calls : told.1 = trace ++ more
  controls : ∀ ev, .control ev ∈ more → .control ev ∈ ts
  closed : ∀ code reason, told.2 = .closed code reason →
    more.getLast? = some (.control (.close code reason))

/-- Nothing more is called. -/
theorem Continues.stop {ts : List Turn} {trace : List Callback} {e : Ending}
    (he : ∀ code reason, e ≠ .closed code reason) : Continues ts trace [] (trace, e) :=
  ⟨by simp, fun _ h => absurd h (by simp), fun code reason h => absurd h (he code reason)⟩

/-- The call for the first turn. -/
theorem Continues.cons {t : Turn} {ts : List Turn} {trace more : List Callback} {cb : Callback}
    {told : List Callback × Ending} (h : Continues ts (trace ++ [cb]) more told)
    (hcb : ∀ ev, cb = .control ev → t = .control ev) :
    Continues (t :: ts) trace (cb :: more) told where
  calls := by rw [h.calls, List.append_assoc, List.singleton_append]
  controls := fun ev hev => by
    rcases List.mem_cons.mp hev with heq | hmem
    · exact hcb ev heq.symm ▸ List.mem_cons_self
    · exact List.mem_cons_of_mem t (h.controls ev hmem)
  closed := fun code reason hclosed => by
    rw [List.getLast?_cons, h.closed code reason hclosed, Option.getD_some]

/-- The call for the first turn is the last. -/
theorem Continues.last {t : Turn} {ts : List Turn} {trace : List Callback} {cb : Callback}
    {e : Ending} (hcb : ∀ ev, cb = .control ev → t = .control ev)
    (he : ∀ code reason, e = .closed code reason → cb = .control (.close code reason)) :
    Continues (t :: ts) trace [cb] (trace ++ [cb], e) where
  calls := rfl
  controls := fun ev hev => hcb ev (List.mem_singleton.mp hev).symm ▸ List.mem_cons_self
  closed := fun code reason hclosed => by rw [he code reason hclosed]; rfl

theorem narrate_continues : ∀ (ts : List Turn) (hist : History) (trace : List Callback),
    ∃ more, Continues ts trace more (narrate F s h hist trace ts)
  | [], _, _ => ⟨[], .stop fun _ _ => by simp⟩
  | .control ev :: ts, hist, trace => by
    have hcb : ∀ ev', Callback.control ev = .control ev' → Turn.control ev = .control ev' :=
      fun _ heq => by cases heq; rfl
    cases hans : h trace (.control ev) with
    | some e =>
      rw [narrate_stop hans]
      exact ⟨_, .last hcb fun _ _ he => by cases he⟩
    | none =>
      obtain ⟨more, hmore⟩ := narrate_continues ts hist (trace ++ [.control ev])
      cases ev with
      | ping p =>
        rw [narrate_control (by simp) hans]
        exact ⟨_, hmore.cons hcb⟩
      | pong p =>
        rw [narrate_control (by simp) hans]
        exact ⟨_, hmore.cons hcb⟩
      | close code reason =>
        rw [narrate_close hans]
        exact ⟨_, .last hcb fun _ _ he => by cases he; rfl⟩
  | .message m :: ts, hist, trace => by
    rw [narrate]
    split
    · exact ⟨[], .stop fun _ _ => by simp⟩
    · rename_i out hout
      split_ifs
      · split
        · exact ⟨_, .last (fun _ heq => by cases heq) fun _ _ he => by cases he⟩
        · obtain ⟨more, hmore⟩ :=
            narrate_continues ts (hist.next m out) (trace ++ [.message m.opcode out])
          exact ⟨_, hmore.cons fun _ heq => by cases heq⟩
      · exact ⟨[], .stop fun _ _ => by simp⟩
  | .tooLarge :: _, _, _ => ⟨[], .stop fun _ _ => by simp⟩
  | .fail _ :: _, _, _ => ⟨[], .stop fun _ _ => by simp⟩

end Narrate

namespace ReadLoop

variable {F : Flate}

/-- `Serve` with the default control handler on a connection without a queue, on any write side, with
any `OnMessage`, over any stream. The calls and the error are those of a program without a control
handler : the handler never ends the connection. Each ping is answered by a pong with its payload,
even after a close was sent, and the close by a close with its code unless one was sent before. When
the peer's close ends the loop, a close has been sent. -/
theorem serve_answers (cfg : Config) (pool : ℕ → Option { d : Decompressor F // d.Idle })
    (t : Transport) {c : Conn F} (hc : newConn cfg t pool = .ok c) (steady : t.Steady)
    (clean : t.Clean) (w : WriteSide) (m : OnMessage) {h : Responder} (hh : h = m.responder w)
    {R : Rules} (hR : R = ⟨cfg.role, cfg.compression.isSome⟩) {told : List Callback × Ending}
    (htold : told = narrate F c.side.settings h.messagesOnly c.history []
      (turnsFrom c.side.settings.limit none (R.events false t.bytes))) :
    (serve h c).2.trace = told.1 ∧ told.2.Reports (R.Settled t.bytes) (serve h c).1 ∧
    (∀ before ev later, told.1 = before ++ .control ev :: later →
      ((m.call before (m.after w before) (.control ev)).2.2.map fun i =>
        (i.frame.opcode, i.frame.payload)) = ev.answer (m.after w before).tx.closeSent) ∧
    ∀ code reason, told.2 = .closed code reason → (m.after w told.1).tx.closeSent = true := by
  obtain ⟨rest, htransport, along, htodo⟩ := newConn_rest hc
  have hspec := serve_spec rest (htransport ▸ steady) (htransport ▸ clean) along h
  have hquiet : ∀ ev,
      .control ev ∈ turnsFrom c.side.settings.limit none (R.events false t.bytes) →
        ∀ trace, h trace (.control ev) = none := by
    intro ev hev trace
    rw [hh]
    exact DefaultControlHandler.handle_none _ (fair_turns hev)
  rw [Conn.turns, htodo, ← hR, narrate_messagesOnly _ _ _ hquiet, ← htold] at hspec
  obtain ⟨more, hmore⟩ := narrate_continues (F := F) (s := c.side.settings) (h := h.messagesOnly)
    (turnsFrom c.side.settings.limit none (R.events false t.bytes)) c.history []
  rw [← htold] at hmore
  have hcalls : told.1 = more := hmore.calls
  refine ⟨hspec.1, hspec.2, fun before ev later heq => ?_, fun code reason hclosed => ?_⟩
  · have hmem : .control ev ∈ more := by simp [← hcalls, heq]
    exact DefaultControlHandler.handle_answer _ (fair_turns (hmore.controls ev hmem))
  · obtain ⟨init, hinit⟩ := List.getLast?_eq_some_iff.mp (hmore.closed code reason hclosed)
    have hmem : .control (.close code reason) ∈ more := by simp [hinit]
    rw [hcalls, hinit, OnMessage.after, OnMessage.afterFrom_concat]
    exact DefaultControlHandler.handle_closeSent _ (fair_turns (hmore.controls _ hmem))

/-- An `OnMessage` that answers its first message with a ping and fails at its second. -/
def pingOnce : OnMessage := fun trace w _ _ =>
  if trace.any Callback.isMessage then (some (.other 0), w, [])
  else .ofFrame (w.control .ping [])

/-- A ping, a text that is answered by a ping, and a close without a code. -/
theorem serve_answers_greeting : ∃ (c : Conn Flate.stored) (h : Responder),
    newConn { role := .client } greeting (fun _ => none) = .ok c ∧
    h = pingOnce.responder (.plain .client) ∧
    (serve h c).2.trace =
      [.control (.ping [7]), .message .text [104, 105], .control (.close 1005 [])] ∧
    (serve h c).1 = .closed 1005 [] ∧
    (pingOnce.after (.plain .client) (serve h c).2.trace).tx.closeSent = true := by
  refine ⟨_, _, rfl, rfl, ?_⟩
  have htold : (([.control (.ping [7]), .message .text [104, 105], .control (.close 1005 [])],
      .closed 1005 []) : List Callback × Ending) =
      narrate Flate.stored (Config.settings { role := .client } rfl)
        (Responder.messagesOnly (pingOnce.responder (.plain .client)))
        ⟨windowSize, false, []⟩ [] (turnsFrom (8 * 2 ^ 20) none
          (Rules.events ⟨.client, false⟩ false (Transport.bytes greeting))) := by
    rw [turns_wire (8 * 2 ^ 20) (by decide) greeting_bytes]
    rfl
  obtain ⟨htrace, herr, -, hsent⟩ := serve_answers { role := .client } (fun _ => none) greeting rfl
    (by decide) greeting_clean (.plain .client) pingOnce rfl rfl htold
  rw [htrace]
  exact ⟨rfl, herr, hsent 1005 [] rfl⟩

end ReadLoop

end Ews
