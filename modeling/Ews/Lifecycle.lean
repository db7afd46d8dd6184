import Ews.ReadLoop

/-!
# The events of a connection

`events/events.go` : a connection served through a `Handler`. `run` calls `OnOpen`, then the events of the
read loop, and at the end `OnClose` with the error that ended the connection. An event that panics
ends it too : the panic unwinds the read loop, as the error of an event does, and becomes a
`PanicError`. Pings and pongs go to the handler, a close frame does not : it keeps the default
echo, which never gives an error.

The script of a stream is what it brings a program that objects to nothing. `run_lifecycle` says
what `run` does for every handler and every stream : one `OnOpen`, the calls of the script up to the first
that fails, and one `OnClose` with its error, or with the end of the stream if none fails.
-/

set_option linter.unusedSectionVars false

namespace Ews

open ReadSide

/-! ## Scripts -/

section Script

variable (F : Flate) (s : Settings)

/-- What a stream brings a program that objects to nothing. -/
def script (hist : History) (ts : List Turn) : List Callback × Ending :=
  narrate F s (fun _ _ => none) hist [] ts

end Script

/-- The program answers the calls `cs`, made after `trace`, without an error. -/
def Agrees (h : Responder) (trace : List Callback) : List Callback → Prop
  | [] => True
  | cb :: cs => h trace cb = none ∧ Agrees h (trace ++ [cb]) cs

/-- What is told of a script after `trace` : all of it, or the calls up to one that fails. -/
inductive Recited (h : Responder) (trace : List Callback) (all : List Callback) (ending : Ending) :
    List Callback × Ending → Prop
  | whole (agrees : Agrees h trace all) : Recited h trace all ending (trace ++ all, ending)
  | stopped {a b : List Callback} {cb : Callback} {e : Err} (calls : all = a ++ cb :: b)
      (agrees : Agrees h trace a) (answer : h (trace ++ a) cb = some e) :
      Recited h trace all ending (trace ++ (a ++ [cb]), .stopped e)

section Recited

variable {F : Flate} {s : Settings} {h : Responder} {trace : List Callback}

theorem Recited.cons {all : List Callback} {ending : Ending} {cb : Callback}
    {out : List Callback × Ending} (answer : h trace cb = none)
    (hr : Recited h (trace ++ [cb]) all ending out) : Recited h trace (cb :: all) ending out := by
  cases hr with
  | whole agrees =>
    rw [List.append_assoc]
    exact .whole ⟨answer, agrees⟩
  | @stopped a b cb' e calls agrees answer' =>
    rw [List.append_assoc]
    rw [List.append_assoc] at answer'
    exact .stopped (a := cb :: a) (by rw [calls]; rfl) ⟨answer, agrees⟩ answer'

theorem Recited.head {all : List Callback} {ending : Ending} {cb : Callback} {e : Err}
    (answer : h trace cb = some e) :
    Recited h trace (cb :: all) ending (trace ++ [cb], .stopped e) := by
  have hnone : Agrees h trace [] := trivial
  rw [← List.append_nil trace] at answer
  exact .stopped rfl hnone answer

/-- The calls before do not matter to a script. -/
theorem script_shift : ∀ (ts : List Turn) (hist : History) (trace : List Callback),
    narrate F s (fun _ _ => none) hist trace ts =
      (trace ++ (script F s hist ts).1, (script F s hist ts).2)
  | [], hist, trace => by simp [script, narrate]
  | .control ev :: ts, hist, trace => by
    by_cases hclose : ∃ code reason, ev = .close code reason
    · obtain ⟨code, reason, rfl⟩ := hclose
      simp [script, narrate]
    · have mild : ∀ code reason, ev ≠ .close code reason := fun code reason h =>
        hclose ⟨code, reason, h⟩
      rw [script, narrate_control mild rfl, narrate_control mild rfl, List.nil_append,
        script_shift ts hist [Callback.control ev], script_shift ts]
      simp
  | .message m :: ts, hist, trace => by
    cases hc : hist.content F m with
    | none => simp [script, narrate, hc]
    | some out =>
      by_cases ha : Conn.Accepts s m out
      · rw [script, narrate_message hc ha rfl, narrate_message hc ha rfl, List.nil_append,
          script_shift ts (hist.next m out) [Callback.message m.opcode out], script_shift ts]
        simp
      · simp [script, narrate, hc, ha]
  | .tooLarge :: ts, hist, trace => by simp [script, narrate]
  | .fail code :: ts, hist, trace => by simp [script, narrate]

theorem script_control {ev : ControlEvent} (mild : ∀ code reason, ev ≠ .close code reason)
    (ts : List Turn) (hist : History) : script F s hist (.control ev :: ts) =
      (.control ev :: (script F s hist ts).1, (script F s hist ts).2) := by
  rw [script, narrate_control mild rfl, script_shift]
  rfl

theorem script_message {m : WireMessage} {out : List UInt8} {hist : History}
    (content : hist.content F m = some out) (accepts : Conn.Accepts s m out) (ts : List Turn) :
    script F s hist (.message m :: ts) =
      (.message m.opcode out :: (script F s (hist.next m out) ts).1,
        (script F s (hist.next m out) ts).2) := by
  rw [script, narrate_message content accepts rfl, script_shift]
  rfl

/-- A program is told the script, up to the first call that it fails. -/
theorem narrate_recited : ∀ (ts : List Turn) (hist : History) (trace : List Callback),
    Recited h trace (script F s hist ts).1 (script F s hist ts).2 (narrate F s h hist trace ts)
  | [], hist, trace => by
    have hwhole : Recited h trace [] .ended (trace ++ [], .ended) := .whole trivial
    rwa [List.append_nil] at hwhole
  | .control ev :: ts, hist, trace => by
    by_cases hclose : ∃ code reason, ev = .close code reason
    · obtain ⟨code, reason, rfl⟩ := hclose
      have hscript : script F s hist (.control (.close code reason) :: ts) =
          ([.control (.close code reason)], .closed code reason) := by simp [script, narrate]
      rw [hscript]
      cases hans : h trace (.control (.close code reason)) with
      | none =>
        rw [narrate_close hans]
        exact .whole ⟨hans, trivial⟩
      | some e =>
        rw [narrate_stop hans]
        exact .head hans
    · have mild : ∀ code reason, ev ≠ .close code reason := fun code reason h =>
        hclose ⟨code, reason, h⟩
      rw [script_control mild]
      cases hans : h trace (.control ev) with
      | none =>
        rw [narrate_control mild hans]
        exact .cons hans (narrate_recited ts hist _)
      | some e =>
        rw [narrate_stop hans]
        exact .head hans
  | .message m :: ts, hist, trace => by
    have hrejected : ∀ hr : ∀ out, hist.content F m = some out → ¬Conn.Accepts s m out,
        Recited h trace (script F s hist (.message m :: ts)).1
          (script F s hist (.message m :: ts)).2 (narrate F s h hist trace (.message m :: ts)) :=
      fun hr => by
        rw [script, narrate_rejected hr, narrate_rejected hr]
        have hwhole : Recited h trace [] .rejected (trace ++ [], .rejected) := .whole trivial
        rwa [List.append_nil] at hwhole
    cases hc : hist.content F m with
    | none => exact hrejected fun out hout => by rw [hc] at hout; cases hout
    | some out =>
      by_cases ha : Conn.Accepts s m out
      · rw [script_message hc ha]
        cases hans : h trace (.message m.opcode out) with
        | none =>
          rw [narrate_message hc ha hans]
          exact .cons hans (narrate_recited ts _ _)
        | some e =>
          rw [narrate_message_stop hc ha hans]
          exact .head hans
      · exact hrejected fun out' hout' => Option.some.inj (hc.symm.trans hout') ▸ ha
  | .tooLarge :: ts, hist, trace => by
    have hwhole : Recited h trace [] (.failed 1009) (trace ++ [], .failed 1009) := .whole trivial
    rwa [List.append_nil] at hwhole
  | .fail code :: ts, hist, trace => by
    have hwhole : Recited h trace [] (.failed code) (trace ++ [], .failed code) := .whole trivial
    rwa [List.append_nil] at hwhole

end Recited

/-! ## Handlers of events -/

namespace Events

/-- What a call of an event does : it returns, it returns an error, or it panics with a value. -/
inductive Answer
  | ok
  | error (e : Err)
  | panics (value : ℕ)
  deriving DecidableEq, Repr

/-- A `Handler`, as far as its answers go : what `OnOpen` and each later event do, given the events
before. `OnOpen` and `OnClose` return nothing. -/
structure Handler where
  onOpen : Option ℕ
  onEvent : List Callback → Callback → Answer

/-- The error that reaches `OnClose`. -/
inductive Failure
  | err (e : Err)
  | panicked (value : ℕ)
  deriving DecidableEq, Repr

/-- A call of the handler. -/
inductive Note
  | opened
  | event (cb : Callback)
  | closed (failure : Failure)
  deriving DecidableEq, Repr

/-- A close frame does not reach the handler. -/
def visible : Callback → Bool
  | .control (.close _ _) => false
  | _ => true

namespace Handler

/-- The handler to the read loop : `controls` with `OnMessage`. A panic stops the loop where an error
would. -/
def responder (h : Handler) : Responder := fun trace cb =>
  if visible cb then
    match h.onEvent (trace.filter visible) cb with
    | .ok => none
    | .error e => some e
    | .panics v => some (.other v)
  else none

/-- What `serve` makes of the end of the read loop : the recovered panic of the last event, or the
error. The calls are in reverse. -/
def recovered (h : Handler) (e : Err) : List Callback → Failure
  | [] => .err e
  | cb :: before =>
    if visible cb then
      match h.onEvent (before.reverse.filter visible) cb with
      | .panics v => .panicked v
      | _ => .err e
    else .err e

variable {F : Flate}

/-- `serve` : `OnOpen` and the read loop. -/
def serve (h : Handler) (c : Conn F) : Failure × List Callback :=
  match h.onOpen with
  | some v => (.panicked v, [])
  | none =>
    let (e, x) := ReadLoop.serve h.responder c
    (h.recovered e x.trace.reverse, x.trace)

/-- `run` : its result, and the calls of the handler. -/
def run (h : Handler) (cfg : Config) (role : Role) (compression : Option Compression) (t : Transport)
    (pool : ℕ → Option { d : Decompressor F // d.Idle }) : Failure × List Note :=
  match newConn { cfg with role := role, compression := compression } t pool with
  | .error e => (.err e, [])
  | .ok c =>
    let (failure, trace) := h.serve c
    (failure, .opened :: (trace.filter visible).map .event ++ [.closed failure])

end Handler

/-- The handler answers the events `cs`, made after `before`, without an error. -/
def Fine (h : Handler) (before : List Callback) : List Callback → Prop
  | [] => True
  | cb :: cs => h.onEvent before cb = .ok ∧ Fine h (before ++ [cb]) cs

/-- The events between `OnOpen` and `OnClose` and the error of `OnClose`, for a stream with the
events `all` that ends with `ending` : none if `OnOpen` panics, all of them if none fails, and else
those up to the first that does. -/
inductive Lived (h : Handler) (all : List Callback) (ending : Ending) (settled : Prop) :
    List Callback → Failure → Prop
  | stillborn {v : ℕ} (onOpen : h.onOpen = some v) : Lived h all ending settled [] (.panicked v)
  | whole {e : Err} (onOpen : h.onOpen = none) (fine : Fine h [] all)
      (reports : ending.Reports settled e) : Lived h all ending settled all (.err e)
  | failed {a b : List Callback} {cb : Callback} {e : Err} (onOpen : h.onOpen = none)
      (calls : all = a ++ cb :: b) (fine : Fine h [] a) (answer : h.onEvent a cb = .error e) :
      Lived h all ending settled (a ++ [cb]) (.err e)
  | panicked {a b : List Callback} {cb : Callback} {v : ℕ} (onOpen : h.onOpen = none)
      (calls : all = a ++ cb :: b) (fine : Fine h [] a) (answer : h.onEvent a cb = .panics v) :
      Lived h all ending settled (a ++ [cb]) (.panicked v)

section Lived

variable {h : Handler}

theorem fine_of_agrees : ∀ {cs trace : List Callback}, Agrees h.responder trace cs →
    Fine h (trace.filter visible) (cs.filter visible)
  | [], _, _ => trivial
  | cb :: cs, trace, hagrees => by
    have hrest := fine_of_agrees hagrees.2
    rw [List.filter_append] at hrest
    cases hv : visible cb with
    | false =>
      rw [List.filter_cons_of_neg (by simp [hv])]
      simpa [hv] using hrest
    | true =>
      rw [List.filter_cons_of_pos hv]
      have hans := hagrees.1
      rw [Handler.responder, if_pos hv] at hans
      refine ⟨?_, by simpa [hv] using hrest⟩
      cases hon : h.onEvent (trace.filter visible) cb with
      | ok => rfl
      | error e => simp [hon] at hans
      | panics v => simp [hon] at hans

theorem agrees_append {r : Responder} : ∀ {cs cs' trace : List Callback},
    Agrees r trace (cs ++ cs') ↔ Agrees r trace cs ∧ Agrees r (trace ++ cs) cs'
  | [], cs', trace => by simp [Agrees]
  | cb :: cs, cs', trace => by
    rw [List.cons_append, Agrees, Agrees, agrees_append, List.append_assoc, List.singleton_append,
      and_assoc]

/-- A read loop whose calls were all answered did not panic. -/
theorem recovered_of_agrees (e : Err) {cs : List Callback} (hagrees : Agrees h.responder [] cs) :
    h.recovered e cs.reverse = .err e := by
  rcases List.eq_nil_or_concat cs with rfl | ⟨a, cb, rfl⟩
  · rfl
  · rw [List.concat_eq_append] at hagrees ⊢
    have hans := (agrees_append.mp hagrees).2.1
    rw [List.nil_append, Handler.responder] at hans
    rw [List.reverse_append, List.reverse_singleton, List.singleton_append, Handler.recovered,
      List.reverse_reverse]
    split_ifs at hans ⊢ with hv
    · cases hon : h.onEvent (a.filter visible) cb with
      | ok => rfl
      | error e' => simp [hon] at hans
      | panics v => simp [hon] at hans
    · rfl

/-- The end of a read loop that told the script up to a call that failed. -/
theorem lived_of_recited {all trace : List Callback} {ending ending' : Ending} {settled : Prop} {e : Err}
    (onOpen : h.onOpen = none) (hr : Recited h.responder [] all ending (trace, ending'))
    (reports : ending'.Reports settled e) :
    Lived h (all.filter visible) ending settled (trace.filter visible)
      (h.recovered e trace.reverse) := by
  generalize hout : (trace, ending') = out at hr
  cases hr with
  | whole agrees =>
    obtain ⟨rfl, rfl⟩ := Prod.mk.inj hout
    rw [recovered_of_agrees e agrees]
    exact .whole onOpen (fine_of_agrees agrees) reports
  | @stopped a b cb e' calls agrees answer =>
    obtain ⟨rfl, rfl⟩ := Prod.mk.inj hout
    obtain rfl : e = e' := reports
    have hv : visible cb = true := by
      by_contra hv
      rw [Handler.responder, if_neg hv] at answer
      cases answer
    have hcalls : all.filter visible = a.filter visible ++ cb :: b.filter visible := by
      rw [calls, List.filter_append, List.filter_cons_of_pos hv]
    have hfine := fine_of_agrees agrees
    rw [List.nil_append, Handler.responder, if_pos hv] at answer
    rw [List.nil_append, List.filter_append, List.filter_cons_of_pos hv, List.filter_nil,
      List.reverse_append, List.reverse_singleton, List.singleton_append, Handler.recovered,
      if_pos hv, List.reverse_reverse]
    cases hon : h.onEvent (a.filter visible) cb with
    | ok => simp [hon] at answer
    | error e' =>
      obtain rfl : e' = e := by simpa [hon] using answer
      exact .failed onOpen hcalls hfine hon
    | panics v => exact .panicked onOpen hcalls hfine hon

variable {F : Flate}

/-- `run` calls `OnOpen` once and first, `OnClose` once and last, with the error it returns, and between
them the events of the stream in order : all of them if no event fails, and then `OnClose` gets
the error that ends the stream ; else those up to the first that returns an error or panics, and
`OnClose` gets that error or the panic. Of a close frame the handler hears by `OnClose` only. -/
theorem run_lifecycle (h : Handler) (cfg : Config) (role : Role) (compression : Option Compression)
    (t : Transport) (pool : ℕ → Option { d : Decompressor F // d.Idle }) {c : Conn F}
    (hc : newConn { cfg with role := role, compression := compression } t pool = .ok c)
    (steady : t.Steady) (clean : t.Clean) {R : Rules} (hR : R = ⟨role, compression.isSome⟩)
    {all : List Callback} {ending : Ending} (hscript : (all, ending) =
      script F c.side.settings c.history
        (turnsFrom c.side.settings.limit none (R.events false t.bytes))) :
    ∃ calls failure, h.run cfg role compression t pool =
        (failure, .opened :: calls.map .event ++ [.closed failure]) ∧
      Lived h (all.filter visible) ending (R.Settled t.bytes) calls failure := by
  subst hR
  obtain ⟨rest, htransport, along, htodo⟩ := ReadLoop.newConn_rest hc
  have hspec := ReadLoop.serve_spec rest (htransport ▸ steady) (htransport ▸ clean) along h.responder
  have hrecited := narrate_recited (F := F) (s := c.side.settings) (h := h.responder) c.turns
    c.history []
  dsimp only at htodo
  rw [← htodo] at hscript
  rw [Conn.turns, ← hscript] at hrecited
  rw [Conn.turns] at hspec
  simp only [Handler.run, hc, Handler.serve]
  cases hopen : h.onOpen with
  | some v => exact ⟨[], _, rfl, .stillborn hopen⟩
  | none =>
    refine ⟨_, _, rfl, ?_⟩
    generalize narrate F c.side.settings h.responder c.history []
      (turnsFrom c.side.settings.limit none c.side.todo) = told at hspec hrecited
    obtain ⟨trace, ending'⟩ := told
    obtain ⟨htrace, hreports⟩ := hspec
    rw [htrace]
    exact lived_of_recited hopen hrecited hreports

/-- A handler that panics at the first message. -/
def fragile : Handler where
  onOpen := none
  onEvent _ cb :=
    match cb with
    | .message _ _ => .panics 3
    | _ => .ok

/-- Between the pong and the close of the peer the handler panics. -/
theorem run_lifecycle_greeting : ∃ calls failure,
    fragile.run {} .client none ReadLoop.greeting (fun _ => none : ℕ → Option { d : Decompressor
      Flate.stored // d.Idle }) = (failure, .opened :: calls.map .event ++ [.closed failure]) ∧
      Lived fragile [.control (.ping [7]), .message .text [104, 105]] (.closed 1005 [])
        (Rules.Settled ⟨.client, false⟩ (Transport.bytes ReadLoop.greeting)) calls failure := by
  have hscript : (([.control (.ping [7]), .message .text [104, 105], .control (.close 1005 [])],
      .closed 1005 []) : List Callback × Ending) =
      script Flate.stored (Config.settings { role := .client } rfl) ⟨windowSize, false, []⟩
        (turnsFrom (8 * 2 ^ 20) none
          (Rules.events ⟨.client, false⟩ false (Transport.bytes ReadLoop.greeting))) := by
    rw [ReadLoop.turns_wire (8 * 2 ^ 20) (by decide) ReadLoop.greeting_bytes]
    rfl
  exact run_lifecycle fragile {} .client none ReadLoop.greeting (fun _ => none) rfl (by decide)
    ReadLoop.greeting_clean rfl hscript

end Lived

end Events

end Ews
