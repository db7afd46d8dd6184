import Ews.ReadSide
import Ews.Storage

/-!
# What the reading side does to the events to come

`Went c es c'` says that the reading side has gone from `c` to `c'` through the events
`es` : the bytes it took off the transport are those that give these events, the control
frames among them were shown to the handler, and everything it read past the read buffer
was payload of the frame it was in. `Stop c es e c'` says that after `es` it stopped with
the error `e` : the transport gave none of the bytes it needed, the stream broke a rule, the
handler refused, or the peer closed.

Every function of the reading side is described by these two. Between messages
`nextFrame_spec` is the whole story. Inside one, `Within` adds what `scan` makes of the
events, and each loop is `Loop.run_spec` with the invariant that it has gone there from
where it started.
-/

set_option linter.unusedSectionVars false

namespace Ews

/-! ## Feeding a receiver -/

namespace Receiver

variable (r : Receiver) (b : List UInt8)

theorem feed_eq : r.feed b = { r with dec := (r.feed b).dec } := by
  unfold feed
  split_ifs <;> rfl

@[simp] theorem feed_remaining : (r.feed b).remaining = r.remaining := by rw [feed_eq]
@[simp] theorem feed_messageOpcode : (r.feed b).messageOpcode = r.messageOpcode := by rw [feed_eq]
@[simp] theorem feed_header : (r.feed b).header = r.header := by rw [feed_eq]
@[simp] theorem feed_compressed : (r.feed b).compressed = r.compressed := by rw [feed_eq]
@[simp] theorem feed_role : (r.feed b).role = r.role := by rw [feed_eq]
@[simp] theorem feed_compression : (r.feed b).compression = r.compression := by rw [feed_eq]

@[simp] theorem feed_dead' : (r.feed b).dead = r.dead := by
  rw [feed_eq]
  rfl

@[simp] theorem feed_messageOpen : (r.feed b).messageOpen = r.messageOpen := by
  simp [messageOpen]

@[simp] theorem feed_rules : (r.feed b).rules = r.rules := by
  simp [rules]

theorem feed_pending_le : (r.feed b).dec.pending.length ≤ r.dec.pending.length + b.length := by
  unfold feed
  split_ifs <;> simp

theorem sameMessage_feed : r.SameMessage (r.feed b) :=
  ⟨by simp, by simp, by simp, by simp⟩

variable {r}

theorem SameMessage.trans {r' r'' : Receiver} (h : r.SameMessage r') (h' : r'.SameMessage r'') :
    r.SameMessage r'' :=
  ⟨h'.role.trans h.role, h'.compression.trans h.compression,
    h'.messageOpcode.trans h.messageOpcode, h'.compressed.trans h.compressed⟩

theorem SameMessage.messageOpen {r' : Receiver} (h : r.SameMessage r') :
    r'.messageOpen = r.messageOpen := by
  simp [Receiver.messageOpen, h.messageOpcode]

end Receiver

/-! ## One transport read -/

/-- Why a read gave no byte, and what is left of the transport : it is used up, it gave
an error, or a hundred reads in a row gave nothing. -/
inductive Transport.Blocked (t : Transport) (idle : Bool) : Err → Transport → Prop
  | ended (symbols : t.symbols = []) :
      Blocked t idle (if idle = false then .unexpectedEOF else .eof) []
  | err {e : Err} {t' : Transport} (symbols : t.symbols = .inr e :: t'.symbols)
      (weight : t'.weight < t.weight) (steady : t.Steady → t'.Steady) :
      Blocked t idle (if e = .eof ∧ idle = false then .unexpectedEOF else e) t'
  | stalled {t' : Transport} (symbols : t.symbols = t'.symbols) (weight : t'.weight < t.weight)
      (unsteady : ¬t.Steady) : Blocked t idle .noProgress t'

namespace ReadSide

/-- The outcomes of `read`. -/
inductive ReadOutcome (c : ReadSide) (room : ℕ) : Except Err (List UInt8) → ReadSide → Prop
  | bytes {bs : List UInt8} {t : Transport} (nonempty : bs ≠ []) (length : bs.length ≤ room)
      (symbols : c.transport.symbols = bs.map .inl ++ t.symbols)
      (weight : t.weight + bs.length ≤ c.transport.weight)
      (steady : c.transport.Steady → t.Steady) :
      ReadOutcome c room (.ok bs) { c with transport := t }
  | blocked {e : Err} {t : Transport} (blocked : c.transport.Blocked c.rx.idle e t) :
      ReadOutcome c room (.error e) { c with transport := t }

/-- An outcome after a read that gave nothing is an outcome before it. -/
theorem ReadOutcome.of_empty {c : ReadSide} {t : Transport} {room : ℕ}
    (hsym : c.transport.symbols = t.symbols) (hw : t.weight < c.transport.weight)
    (hidle : ¬c.transport.Steady) {res : Except Err (List UInt8)} {c' : ReadSide}
    (h : ReadOutcome { c with transport := t } room res c') : ReadOutcome c room res c' := by
  cases h with
  | bytes nonempty length symbols weight steady =>
    exact .bytes nonempty length (hsym.trans symbols) (weight.trans hw.le) fun h => absurd h hidle
  | blocked blocked =>
    refine .blocked ?_
    cases blocked with
    | ended symbols => exact .ended (hsym.trans symbols)
    | err symbols weight steady =>
      exact .err (hsym.trans symbols) (weight.trans hw) fun h => absurd h hidle
    | stalled symbols weight unsteady => exact .stalled (hsym.trans symbols) (weight.trans hw) hidle

theorem readTries_spec {room : ℕ} (hroom : 0 < room) : ∀ (k : ℕ) (c : ReadSide),
    ReadOutcome c room (c.readTries room (k + 1)).1 (c.readTries room (k + 1)).2
  | k, c => by
    obtain ⟨htook, hlen, hsteady⟩ := Transport.read_spec hroom c.transport
    unfold readTries
    generalize c.transport.read room = out at htook hlen hsteady
    obtain ⟨⟨bs, err⟩, t⟩ := out
    cases htook with
    | bytes nonempty symbols weight =>
      cases bs with
      | nil => exact absurd rfl nonempty
      | cons b bs => exact .bytes nonempty hlen symbols weight hsteady
    | err symbols weight => exact .blocked (.err symbols weight hsteady)
    | ended ended =>
      have hsym : c.transport.symbols = [] := by rw [ended]; rfl
      simp only [true_and]
      exact .blocked (.ended hsym)
    | empty symbols weight idle =>
      cases k with
      | zero => exact .blocked (.stalled symbols weight idle)
      | succ k => exact .of_empty symbols weight idle (readTries_spec hroom k _)

theorem read_spec {room : ℕ} (hroom : 0 < room) (c : ReadSide) :
    ReadOutcome c room (c.read room).1 (c.read room).2 :=
  readTries_spec hroom 99 c

/-! ## Going through events -/

/-- From `c` to `c'` through the events `es`. -/
structure Went (c : ReadSide) (es : List Event) (c' : ReadSide) : Prop where
  settings : c'.settings = c.settings
  coupled : c'.rx.Coupled
  rules : c'.rx.rules = c.rx.rules
  input : ∃ bs : List UInt8, c.transport.symbols = bs.map .inl ++ c'.transport.symbols ∧
    ∀ fut, c.rx.expected (bs ++ fut) = es ++ c'.rx.expected fut
  steady : c.transport.Steady → c'.transport.Steady
  calls : c'.calls = c.calls ++ controls es
  direct : ∀ d ∈ c'.direct, d ∈ c.direct ∨ d.pending = 0 ∧ d.got ≤ d.remaining
  effort : c'.effort ≤ c.effort
  inMessage : c'.inMessage = c.inMessage
  readErr : c'.readErr = c.readErr
  streaming : c'.streaming = c.streaming
  srcErr : c'.srcErr = c.srcErr
  closes : c'.closes = c.closes

theorem Went.refl {c : ReadSide} (h : c.rx.Coupled) : Went c [] c where
  settings := rfl
  coupled := h
  rules := rfl
  input := ⟨[], rfl, fun _ => rfl⟩
  steady := id
  calls := (List.append_nil _).symm
  direct := fun _ hd => Or.inl hd
  effort := le_rfl
  inMessage := rfl
  readErr := rfl
  streaming := rfl
  srcErr := rfl
  closes := rfl

theorem Went.trans {c c' c'' : ReadSide} {es es' : List Event} (h : Went c es c')
    (h' : Went c' es' c'') : Went c (es ++ es') c'' where
  settings := h'.settings.trans h.settings
  coupled := h'.coupled
  rules := h'.rules.trans h.rules
  input := by
    obtain ⟨bs, hs, hb⟩ := h.input
    obtain ⟨bs', hs', hb'⟩ := h'.input
    refine ⟨bs ++ bs', ?_, fun fut => ?_⟩
    · rw [hs, hs', List.map_append, List.append_assoc]
    · rw [List.append_assoc, hb, hb', List.append_assoc]
  steady := h'.steady ∘ h.steady
  calls := by rw [h'.calls, h.calls, controls_append, List.append_assoc]
  direct := fun d hd => (h'.direct d hd).elim (h.direct d) Or.inr
  effort := h'.effort.trans h.effort
  inMessage := h'.inMessage.trans h.inMessage
  readErr := h'.readErr.trans h.readErr
  streaming := h'.streaming.trans h.streaming
  srcErr := h'.srcErr.trans h.srcErr
  closes := h'.closes.trans h.closes

/-- The events still to come. -/
def todo (c : ReadSide) : List Event :=
  c.rx.expected c.transport.bytes

theorem Went.todo {c c' : ReadSide} {es : List Event} (h : Went c es c') :
    c.todo = es ++ c'.todo := by
  obtain ⟨bs, hs, hb⟩ := h.input
  rw [ReadSide.todo, Transport.bytes_append hs, hb]
  rfl

/-- A receiver step on the input at hand. -/
theorem Went.of_rx {c : ReadSide} {rx : Receiver} {es : List Event} (coupled : rx.Coupled)
    (rules : rx.rules = c.rx.rules) (events : ∀ fut, c.rx.expected fut = es ++ rx.expected fut)
    (none : controls es = []) (input : rx.dec.pending.length ≤ c.rx.dec.pending.length) :
    Went c es { c with rx := rx } where
  settings := rfl
  coupled := coupled
  rules := rules
  input := ⟨[], rfl, events⟩
  steady := id
  calls := by rw [none, List.append_nil]
  direct := fun _ hd => Or.inl hd
  effort := Nat.add_le_add_left input _
  inMessage := rfl
  readErr := rfl
  streaming := rfl
  srcErr := rfl
  closes := rfl

/-- A read of the transport, fed to the receiver. -/
theorem Went.of_read {c : ReadSide} {bs : List UInt8} {t : Transport} (h : c.rx.Coupled)
    (symbols : c.transport.symbols = bs.map .inl ++ t.symbols)
    (weight : t.weight + bs.length ≤ c.transport.weight)
    (steady : c.transport.Steady → t.Steady) :
    Went c [] { c with transport := t, rx := c.rx.feed bs } where
  settings := rfl
  coupled := Receiver.coupled_feed h bs
  rules := by simp
  input := ⟨bs, symbols, fun fut => (Receiver.expected_feed c.rx bs fut).symm⟩
  steady := steady
  calls := (List.append_nil _).symm
  direct := fun _ hd => Or.inl hd
  effort := by
    have := c.rx.feed_pending_le bs
    simp only [ReadSide.effort]
    omega
  inMessage := rfl
  readErr := rfl
  streaming := rfl
  srcErr := rfl
  closes := rfl

theorem effort_of_read {c : ReadSide} {bs : List UInt8} {t : Transport} (hne : bs ≠ [])
    (weight : t.weight + bs.length ≤ c.transport.weight) :
    ReadSide.effort { c with transport := t, rx := c.rx.feed bs } < c.effort := by
  have := c.rx.feed_pending_le bs
  have := List.length_pos_of_ne_nil hne
  simp only [effort]
  omega

/-- After `es` the reading side stood at `c₁` and stopped with the error `e`, in `c'`. -/
inductive Stop (c : ReadSide) : List Event → ReadSide → Err → ReadSide → Prop
  | blocked {l : List Event} {c₁ : ReadSide} {e : Err} {t : Transport} (went : Went c l c₁)
      (live : c₁.rx.dead = false) (dry : c₁.rx.expected [] = [])
      (blocked : c₁.transport.Blocked c₁.rx.idle e t) :
      Stop c l c₁ e { c₁ with transport := t }
  | failed {l : List Event} {c₁ : ReadSide} {code : ℕ} {cause : Err}
      (went : Went c (l ++ [.fail code]) c₁) (dead : c₁.rx.dead = true) :
      Stop c l c₁ (.failure code cause) (c₁.fail (.failure code cause))
  | refused {l : List Event} {c₁ : ReadSide} {op : Opcode} {p : List UInt8} {ev : ControlEvent}
      {e : Err} (went : Went c (l ++ [.control op p]) c₁)
      (call : ControlEvent.ofFrame op p = some ev)
      (answer : c.settings.handler (c.calls ++ controls l) ev = some e) :
      Stop c l c₁ e (c₁.terminate e)
  | closed {l : List Event} {c₁ : ReadSide} {p : List UInt8}
      (went : Went c (l ++ [.control .close p]) c₁) (dead : c₁.rx.dead = true)
      (answer : c.settings.handler (c.calls ++ controls l)
        (.close (parseClose p).1 (parseClose p).2) = none) :
      Stop c l c₁ (.closed (parseClose p).1 (parseClose p).2)
        (c₁.terminate (.closed (parseClose p).1 (parseClose p).2))

theorem Stop.after {c c₁ c₂ c' : ReadSide} {es es' : List Event} {e : Err} (h : Went c es c₁)
    (h' : Stop c₁ es' c₂ e c') : Stop c (es ++ es') c₂ e c' := by
  cases h' with
  | blocked went live dry blocked => exact .blocked (h.trans went) live dry blocked
  | failed went dead => exact .failed (by rw [List.append_assoc]; exact h.trans went) dead
  | refused went call answer =>
    refine .refused (by rw [List.append_assoc]; exact h.trans went) call ?_
    rwa [controls_append, ← List.append_assoc, ← h.calls, ← h.settings]
  | closed went dead answer =>
    refine .closed (by rw [List.append_assoc]; exact h.trans went) dead ?_
    rwa [controls_append, ← List.append_assoc, ← h.calls, ← h.settings]

/-- The outcomes of `fill`. -/
inductive FillOutcome (c : ReadSide) : Except Err Unit → ReadSide → Prop
  | fed {bs : List UInt8} {t : Transport}
      (went : Went c [] { c with transport := t, rx := c.rx.feed bs })
      (less : ReadSide.effort { c with transport := t, rx := c.rx.feed bs } < c.effort) :
      FillOutcome c (.ok ()) { c with transport := t, rx := c.rx.feed bs }
  | blocked {e : Err} {t : Transport} (blocked : c.transport.Blocked c.rx.idle e t) :
      FillOutcome c (.error e) { c with transport := t }

theorem fill_spec {c : ReadSide} (h : c.rx.Coupled) : FillOutcome c c.fill.1 c.fill.2 := by
  have hc : { c with rx := c.rx.preserve } = c := by rw [Receiver.preserve_eq]
  simp only [fill, hc]
  have hread := read_spec c.settings.bufSize_pos c
  generalize c.read c.settings.bufSize = out at hread
  obtain ⟨res, c'⟩ := out
  cases hread with
  | bytes nonempty length symbols weight steady =>
    exact .fed (.of_read h symbols weight steady) (effort_of_read nonempty weight)
  | blocked blocked => exact .blocked blocked

/-- `fill` on the storage of a decoder. The pending input may lie in the read buffer, so it is
preserved before the transport writes there, and then what was read is fed : whatever the transport
has written, by a read that fails too, the decoder holds what it held. -/
theorem fill_storage (grow : ℕ → ℕ) (junk : ℕ → UInt8) {c : ReadSide} (live : c.rx.dead = false)
    {d : SlicedDecoder} (hd : d.view = c.rx.dec) :
    (∀ {bs : List UInt8} {c' : ReadSide}, c.read c.settings.bufSize = (.ok bs, c') →
      c.fill = (.ok (), { c' with rx := { c.rx with
        dec := (((d.preserve grow).overwrite junk).feed grow bs).view } })) ∧
      ∀ {e : Err} {c' : ReadSide}, c.read c.settings.bufSize = (.error e, c') →
        c.fill = (.error e, { c' with rx := { c.rx with
          dec := ((d.preserve grow).overwrite junk).view } }) := by
  have hc : { c with rx := c.rx.preserve } = c := by rw [Receiver.preserve_eq]
  have hsame := read_spec c.settings.bufSize_pos c
  simp only [SlicedDecoder.feed_view, SlicedDecoder.overwrite_preserve_view, hd, fill, hc]
  refine ⟨fun {bs c'} hread => ?_, fun {e c'} hread => ?_⟩
  · rw [hread] at hsame ⊢
    cases hsame with
    | bytes =>
      obtain ⟨hf, hclose⟩ := Receiver.dead_eq_false.mp live
      simp [Receiver.feed, hf, hclose]
  · rw [hread] at hsame ⊢
    cases hsame with
    | blocked => rfl

/-! ## The next data frame -/

/-- The event of a data frame's header. -/
def headEvent (h : Header) : Event :=
  .data h.final h.rsv1 h.opcode h.payloadLen

/-- The receiver takes frames : it is live and its data frame is drained. -/
structure Between (c : ReadSide) : Prop where
  coupled : c.rx.Coupled
  live : c.rx.dead = false
  drained : c.rx.remaining = 0

/-- The outcomes of `nextFrame` : past control frames other than a close, it has opened a
data frame, or it has stopped. If the receiver still takes frames it is in the
same message. -/
inductive FrameOutcome (c : ReadSide) : Except Err Unit → ReadSide → Prop
  | data {l : List Event} {c' : ReadSide} (pings : ∀ e ∈ l, e.IsPing)
      (went : Went c (l ++ [headEvent c'.rx.header]) c') (opened : c.rx.Opened c'.rx)
      (less : c'.effort < c.effort) : FrameOutcome c (.ok ()) c'
  | stop {l : List Event} {c₁ c' : ReadSide} {e : Err} (pings : ∀ e ∈ l, e.IsPing)
      (between : c₁.rx.dead = false → c₁.Between ∧ c.rx.SameMessage c₁.rx)
      (stop : Stop c l c₁ e c') : FrameOutcome c (.error e) c'

/-- One round of `nextFrame` : an outcome, or past a control frame or a read. -/
inductive FrameStep (c : ReadSide) : ReadSide ⊕ Except Err Unit × ReadSide → Prop
  | again {l : List Event} {c' : ReadSide} (pings : ∀ e ∈ l, e.IsPing) (went : Went c l c')
      (between : c'.Between) (same : c.rx.SameMessage c'.rx)
      (less : c'.effort < c.effort) : FrameStep c (.inl c')
  | out {res : Except Err Unit} {c' : ReadSide} (outcome : FrameOutcome c res c') :
      FrameStep c (.inr (res, c'))

theorem ofFrame_isControl {op : Opcode} (h : op.isControl = true) (p : List UInt8) :
    ∃ ev, ControlEvent.ofFrame op p = some ev ∧
      (op = .close → ev = .close (parseClose p).1 (parseClose p).2) ∧
      (op ≠ .close → ∀ code reason, ev ≠ .close code reason) := by
  have hop : op = .close ∨ op = .ping ∨ op = .pong := by
    simpa [Opcode.isControl, or_assoc] using h
  rcases hop with rfl | rfl | rfl
  · exact ⟨.close (parseClose p).1 (parseClose p).2, rfl, fun _ => rfl, fun h => absurd rfl h⟩
  · exact ⟨.ping p, rfl, fun h => absurd h (by decide), fun _ _ _ => by simp⟩
  · exact ⟨.pong p, rfl, fun h => absurd h (by decide), fun _ _ _ => by simp⟩

/-- A control frame shown to the handler. -/
theorem Went.of_control {c : ReadSide} {rx : Receiver} {ev : ControlEvent} (coupled : rx.Coupled)
    (rules : rx.rules = c.rx.rules)
    (events : ∀ fut, c.rx.expected fut = .control rx.controlOpcode rx.control :: rx.expected fut)
    (call : ControlEvent.ofFrame rx.controlOpcode rx.control = some ev)
    (input : rx.dec.pending.length ≤ c.rx.dec.pending.length) :
    Went c [.control rx.controlOpcode rx.control]
      { c with rx := rx, calls := c.calls ++ [ev] } where
  settings := rfl
  coupled := coupled
  rules := rules
  input := ⟨[], rfl, events⟩
  steady := id
  calls := by simp [controls, Event.call, call]
  direct := fun _ hd => Or.inl hd
  effort := Nat.add_le_add_left input _
  inMessage := rfl
  readErr := rfl
  streaming := rfl
  srcErr := rfl
  closes := rfl

section Between

variable {c : ReadSide} (h : c.Between)
include h

/-- A control frame : the handler goes on, refuses, or has seen the close. -/
theorem handleControl_spec {rx : Receiver} (coupled : rx.Coupled) (rem : rx.remaining = 0)
    (same : c.rx.SameMessage rx) (isControl : rx.controlOpcode.isControl = true)
    (dead : rx.dead = decide (rx.controlOpcode = .close))
    (events : ∀ fut, c.rx.expected fut = .control rx.controlOpcode rx.control :: rx.expected fut)
    (input : rx.dec.pending.length < c.rx.dec.pending.length) :
    FrameStep c (match ReadSide.handleControl { c with rx := rx } with
      | (some e, c) => .inr (.error e, c)
      | (none, c) => .inl c) := by
  obtain ⟨ev, hev, hclose, hping⟩ := ofFrame_isControl isControl rx.control
  have went := Went.of_control coupled (Receiver.rules_of_same same) events hev input.le
  have hb : rx.dead = false →
      ReadSide.Between { c with rx := rx, calls := c.calls ++ [ev] } ∧ c.rx.SameMessage rx :=
    fun hl => ⟨⟨coupled, hl, rem⟩, same⟩
  simp only [handleControl, hev]
  cases hans : c.settings.handler c.calls ev with
  | some e =>
    exact .out (.stop (by simp) hb (.refused (l := []) went hev (by simpa using hans)))
  | none =>
    by_cases hop : rx.controlOpcode = .close
    · obtain rfl := hclose hop
      refine .out (.stop (by simp) hb (.closed (l := []) (hop ▸ went) ?_ (by simpa using hans)))
      exact dead.trans (decide_eq_true hop)
    · have hl : rx.dead = false := dead.trans (decide_eq_false hop)
      have hmatch : ∀ code reason, ev ≠ .close code reason := hping hop
      have hagain : FrameStep c (.inl { c with rx := rx, calls := c.calls ++ [ev] }) :=
        .again (by simpa [Event.IsPing] using hop) went (hb hl).1 same (Nat.add_lt_add_left input _)
      cases ev with
      | close code reason => exact absurd rfl (hmatch code reason)
      | ping p => exact hagain
      | pong p => exact hagain

theorem nextFrameRound_spec : FrameStep c c.nextFrameRound := by
  have hnext := Receiver.next_spec h.coupled h.live h.drained
  unfold nextFrameRound
  generalize c.rx.next = out at hnext
  obtain ⟨res, rx⟩ := out
  cases hnext with
  | need coupled live rem same events dry input =>
    have went : Went c [] { c with rx := rx } :=
      .of_rx coupled (Receiver.rules_of_same same) events rfl input
    have hfill := fill_spec (c := { c with rx := rx }) coupled
    dsimp only at went ⊢
    generalize ReadSide.fill { c with rx := rx } = out at hfill
    obtain ⟨res', c'⟩ := out
    cases hfill with
    | fed went' less =>
      refine .again (by simp) (went.trans went') ⟨went'.coupled, ?_, ?_⟩ ?_
        (less.trans_le went.effort)
      · simpa using live
      · simpa using rem
      · exact same.trans (rx.sameMessage_feed _)
    | blocked blocked =>
      exact .out (.stop (by simp) (fun _ => ⟨⟨coupled, live, rem⟩, same⟩)
        (.blocked went live dry blocked))
  | data coupled opened events input =>
    exact .out (.data (l := []) (by simp)
      (.of_rx coupled (Receiver.rules_of_opened opened) events rfl input.le) opened
      (Nat.add_lt_add_left input _))
  | control coupled rem same isControl unfailed dead ended events valid input =>
    exact handleControl_spec h coupled rem same isControl dead events input
  | @fail _ code cause coupled rules failed known events =>
    have hdead : rx.dead = true := by
      simp [Receiver.dead, show rx.failed = _ from failed]
    have hnil : rx.dec.pending = [] := by
      rw [show rx.dec = {} from (coupled.dead hdead).2.2]
    have went : Went c [.fail code] { c with rx := rx } := by
      refine .of_rx coupled rules (fun fut => ?_) rfl (by simp [hnil])
      rw [events, Receiver.expected_dead hdead]
      rfl
    have went : Went c [.fail code] { c with
        rx := rx, nextErrs := c.nextErrs ++ [.failure code cause] } := { went with }
    exact .out (.stop (by simp) (fun hl => absurd (hdead.symm.trans hl) (by decide))
      (.failed (l := []) went hdead))

omit h in
theorem FrameOutcome.after {c₁ : ReadSide} {l : List Event} (pings : ∀ e ∈ l, e.IsPing)
    (went : Went c l c₁) (same : c.rx.SameMessage c₁.rx)
    {res : Except Err Unit} {c' : ReadSide} (h' : FrameOutcome c₁ res c') :
    FrameOutcome c res c' := by
  have happ : ∀ {l' : List Event}, (∀ e ∈ l', e.IsPing) → ∀ e ∈ l ++ l', e.IsPing :=
    fun pings' e he => (List.mem_append.mp he).elim (pings e) (pings' e)
  cases h' with
  | data pings' went' opened less =>
    refine .data (happ pings') ?_ ?_ (less.trans_le went.effort)
    · rw [List.append_assoc]
      exact went.trans went'
    · refine ⟨opened.live, opened.between, opened.role.trans same.role,
        opened.compression.trans same.compression, opened.remaining, ?_, opened.opened,
        opened.finished⟩
      simpa only [same.messageOpen, same.compressed] using opened.starts
  | stop pings' between stop =>
    exact .stop (happ pings') (fun hl => ⟨(between hl).1, same.trans (between hl).2⟩)
      (Stop.after went stop)

/-- `nextFrame` on a receiver that takes frames. -/
theorem nextFrame_spec : FrameOutcome c c.nextFrame.1 c.nextFrame.2 := by
  -- The invariant : past control frames only, still between frames.
  refine Loop.run_spec (Q := fun out : Except Err Unit × ReadSide => FrameOutcome c out.1 out.2)
    (fun c' => ∃ l, (∀ e ∈ l, e.IsPing) ∧ Went c l c' ∧ c'.Between ∧ c.rx.SameMessage c'.rx)
    effort ?_
    ⟨[], by simp, .refl h.coupled, h, ⟨rfl, rfl, rfl, rfl⟩⟩ (Nat.lt_succ_self _)
  rintro c₁ ⟨l, pings, went, between, same⟩
  have hround := nextFrameRound_spec between
  generalize c₁.nextFrameRound = out at hround
  cases hround with
  | again pings' went' between' same' less =>
    refine ⟨⟨_, fun e he => ?_, went.trans went', between', same.trans same'⟩, less⟩
    exact (List.mem_append.mp he).elim (pings e) (pings' e)
  | out outcome => exact outcome.after pings went same

end Between

end ReadSide

end Ews
