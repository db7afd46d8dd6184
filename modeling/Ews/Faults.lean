import Ews.Closing

/-!
# Writes that fail

A write of the transport may accept a part of its bytes and fail. The connection goes on, so what
comes next can begin inside the frame that was cut, or begin a message inside the one whose
fragment was lost (`write_torn`). `Burst.harmful` says of which failures this is so. As long as
nobody writes after one of them, the bytes that were accepted are the beginning of a legal
sequence of frames (`writes_lawful`).
-/

set_option linter.unusedSectionVars false

namespace Ews

namespace Rules

variable {R : Rules} {o o' : Bool} {f : Frame}

/-- Frames each of which is legal where it stands. -/
def sequence (R : Rules) : Bool → List Frame → Bool
  | _, [] => true
  | o, f :: fs => R.admits o f && R.sequence (f.opens o) fs

theorem sequence_append : ∀ (fs : List Frame) {gs : List Frame} {o : Bool},
    R.sequence o (fs ++ gs) = (R.sequence o fs && R.sequence (fs.foldl Frame.opens o) gs)
  | [], _, _ => by simp [sequence]
  | f :: fs, gs, o => by
    simp only [List.cons_append, sequence, sequence_append fs, List.foldl_cons, Bool.and_assoc]

theorem sequence_prefix {fs gs : List Frame} (h : R.sequence o gs = true) (hp : fs <+: gs) :
    R.sequence o fs = true := by
  obtain ⟨more, rfl⟩ := hp
  rw [sequence_append, Bool.and_eq_true] at h
  exact h.1

theorem sequence_concat {fs : List Frame} : R.sequence o (fs ++ [f]) = true ↔
    R.sequence o fs = true ∧ R.admits (fs.foldl Frame.opens o) f = true := by
  simp [sequence_append, sequence]

/-- A control frame is legal anywhere, or nowhere. -/
theorem admits_anywhere (h : f.opcode.isControl = true) (ha : R.admits o f = true) (o' : Bool) :
    R.admits o' f = true := by
  have hc : f.opcode = .close ∨ f.opcode = .ping ∨ f.opcode = .pong := by
    simpa [Opcode.isControl, or_assoc] using h
  have hstart : f.opcode.startsMessage = false ∧ (f.opcode == .continuation) = false := by
    rcases hc with h | h | h <;> rw [h] <;> exact ⟨rfl, rfl⟩
  simp only [admits, legal, Frame.head, hstart, Bool.false_eq_true, if_false] at ha ⊢
  exact ha

theorem opens_control (h : f.opcode.isControl = true) (o : Bool) : f.opens o = o := by
  simp [Frame.opens, h]

/-- A control frame may stand earlier. -/
theorem sequence_ahead {fs gs : List Frame} (hc : f.opcode.isControl = true)
    (h : R.sequence o (fs ++ gs ++ [f]) = true) : R.sequence o (fs ++ [f] ++ gs) = true ∧
      (fs ++ [f] ++ gs).foldl Frame.opens o = (fs ++ gs ++ [f]).foldl Frame.opens o := by
  rw [sequence_concat, sequence_append, Bool.and_eq_true] at h
  refine ⟨?_, ?_⟩
  · rw [sequence_append, Bool.and_eq_true, sequence_concat]
    refine ⟨⟨h.1.1, admits_anywhere hc h.2 _⟩, ?_⟩
    simpa [opens_control hc] using h.1.2
  · simp [opens_control hc]

/-- A data frame that does not go on with a message is legal only if none is open. -/
theorem open_of_admits (ha : R.admits o f = true) (hdata : f.opcode.isControl = false)
    (hne : f.opcode ≠ .continuation) : o = false := by
  cases hs : f.opcode.startsMessage with
  | true =>
    simp only [admits, legal, Frame.head, hs, if_true, Bool.and_eq_true, Bool.not_eq_true'] at ha
    exact ha.1.1.2.1
  | false =>
    simp [admits, legal, Frame.head, hs, hne, hdata] at ha

/-! ## How much of a burst was accepted -/

end Rules

/-- The frames that lie wholly in the first `n` bytes. -/
def wholes : ℕ → List Item → List Item
  | _, [] => []
  | n, i :: is =>
    if i.frame.bytes.length ≤ n then i :: wholes (n - i.frame.bytes.length) is else []

theorem wholes_begin : ∀ (is : List Item) (n : ℕ), wholes n is <+: is
  | [], _ => List.nil_prefix
  | i :: is, n => by
    unfold wholes
    split_ifs
    · exact (List.prefix_cons_inj i).mpr (wholes_begin is _)
    · exact List.nil_prefix

theorem length_wholes_le : ∀ (is : List Item) (n : ℕ),
    (wire ((wholes n is).map Item.frame)).length ≤ n
  | [], _ => Nat.zero_le _
  | i :: is, n => by
    unfold wholes
    split_ifs with h
    · have := length_wholes_le is (n - i.frame.bytes.length)
      simp only [List.map_cons, wire_cons, List.length_append]
      omega
    · exact Nat.zero_le _

theorem wholes_all : ∀ (is : List Item), wholes (wire (is.map Item.frame)).length is = is
  | [] => rfl
  | i :: is => by
    simp only [List.map_cons, wire_cons, List.length_append]
    rw [wholes, if_pos (Nat.le_add_right _ _), Nat.add_sub_cancel_left, wholes_all is]

namespace Burst

variable {b : Burst}

/-- The frames of a burst that were accepted. -/
def done (b : Burst) : List Item :=
  wholes b.accepted.length b.items

/-- The burst has stopped inside a frame. -/
def torn (b : Burst) : Bool :=
  (wire (b.done.map Item.frame)).length != b.accepted.length

/-- A failure that leaves the peer inside a frame, or inside a message that its sender has given
up : the next frame of an open message was not sent, or a frame was that opens one. -/
def harmful (b : Burst) : Bool :=
  b.torn || !b.queued && b.err.isSome && b.items.any fun i => !i.frame.opcode.isControl &&
    if b.done.isEmpty then i.frame.opcode == .continuation else !i.frame.final

theorem done_prefix : b.done <+: b.items :=
  wholes_begin _ _

theorem accepted_of_not_torn {calls : List (List UInt8)} (h : b.Reached calls)
    (ht : b.torn = false) : b.accepted = wire (b.done.map Item.frame) := by
  have hlen : (wire (b.done.map Item.frame)).length = b.accepted.length := by
    simpa [torn] using ht
  have hp : wire (b.done.map Item.frame) <+: b.bytes := by
    obtain ⟨more, hmore⟩ := b.done_prefix
    refine ⟨wire (more.map Item.frame), ?_⟩
    rw [← wire_append, ← List.map_append, hmore, bytes]
  exact ((List.prefix_of_prefix_length_le hp h.accepted hlen.le).eq_of_length hlen).symm

/-- A burst without an error is accepted as a whole. -/
theorem Reached.done_eq (h : b.Reached []) (herr : b.err = none) : b.done = b.items := by
  rw [done, h.accepted_eq herr, bytes, wholes_all]

theorem Reached.not_harmful (h : b.Reached []) (herr : b.err = none) : b.harmful = false := by
  have hdone := h.done_eq herr
  simp [harmful, torn, hdone, h.accepted_eq herr, bytes, herr]

/-- The burst of a single frame was accepted as a whole, or not at all. -/
theorem done_single {i : Item} (h : b.items = [i]) :
    b.done = [] ∨ b.done = [i] := by
  have hp := b.done_prefix
  rw [h] at hp
  rcases List.prefix_cons_iff.mp hp with h0 | ⟨l, hl, hnil⟩
  · exact Or.inl h0
  · exact Or.inr (by rw [hl, List.prefix_nil.mp hnil])

end Burst

namespace Shared

variable {D : Deflater} {s s' : Shared} {a : Act} {R : Rules}

/-- The frames that the transport has accepted as a whole, in bursts that are over. -/
def sent (s : Shared) : List Item :=
  s.past.flatMap Burst.done

/-- The frames of the connection but for that of the holder of `wmu`. -/
def base (s : Shared) : List Item :=
  s.sent ++ (s.iomu.toList.filter Burst.queued).flatMap Burst.items ++ s.backlog

/-- The frame of the holder of `wmu`, begun or not. -/
def holding (s : Shared) : Option Outgoing :=
  s.wmu.map Held.out

/-- The frames of the connection. -/
def line (s : Shared) : List Item :=
  s.base ++ s.holding.toList.map Outgoing.item

/-- Whether a message will be open once the holder of `wmu` is done. -/
def expected (s : Shared) : Bool :=
  match s.holding with
  | none => s.conn.underway
  | some out => (s.conn.finish out.after none).underway

/-- Whether frames leave a message open. -/
def opened (is : List Item) : Bool :=
  (is.map Item.frame).foldl Frame.opens false

/-- Frames that are a legal sequence. -/
def lawful (R : Rules) (is : List Item) : Bool :=
  R.sequence false (is.map Item.frame)

theorem lawful_prefix {is js : List Item} (h : lawful R js = true) (hp : is <+: js) :
    lawful R is = true :=
  Rules.sequence_prefix h (hp.map Item.frame)

theorem lawful_concat {is : List Item} {i : Item} : lawful R (is ++ [i]) = true ↔
    lawful R is = true ∧ R.admits (opened is) i.frame = true := by
  rw [lawful, List.map_append, List.map_singleton, Rules.sequence_concat]
  rfl

theorem opened_concat (is : List Item) (i : Item) :
    opened (is ++ [i]) = i.frame.opens (opened is) := by
  simp [opened]

/-- The connection is fine : what is accepted, what waits and what is held is a legal sequence,
and its end is what the write side takes it for. -/
structure Live (R : Rules) (s : Shared) : Prop where
  queue : ∀ q, s.queue = some q → q.err = none
  flush : ∀ b, s.iomu = some b → b.queued = true → b.err = none
  writers : ∀ w ∈ s.writers, ∀ batch e, w ≠ .flushed batch (some e)
  sequence : lawful R s.line = true
  opened : opened s.line = s.expected ∨ s.conn.tx.closeSent = true
  failing : ∀ out, s.holding = some out → ∀ e, (s.conn.finish out.after (some e)).underway =
    (out.item.frame.opcode.isControl && Shared.opened s.base) ∨ s.conn.tx.closeSent = true

/-- A flush has failed, so nothing of the queue will be written any more. -/
inductive Doomed (s : Shared) : Prop
  | flushing {b : Burst} (iomu : s.iomu = some b) (queued : b.queued = true) (err : b.err ≠ none)
  | flushed {batch : List Item} {e : Err} (writers : s.writers = [.flushed batch (some e)])
  | failed {q : Queue} {e : Err} (queue : s.queue = some q) (err : q.err = some e)

theorem Doomed.queue (h : Doomed s) (hgood : Good s) : s.queue.isSome = true := by
  have hwriter : s.writers ≠ [] → s.queue.isSome = true := by
    intro hne
    cases hgood.tended with
    | bare _ writers => exact absurd writers hne
    | idle queue => rw [queue]; rfl
    | busy busy => rw [busy.queue]; rfl
  cases h with
  | flushing iomu queued =>
    cases hgood.owner with
    | free hi => cases hi.symm.trans iomu
    | direct hi _ _ _ kind =>
      cases hi.symm.trans iomu
      exact absurd (kind.symm.trans queued) Bool.false_ne_true
    | flush _ _ writers => exact hwriter (by rw [writers]; exact List.cons_ne_nil _ _)
  | flushed writers => exact hwriter (by rw [writers]; exact List.cons_ne_nil _ _)
  | failed queue => rw [queue]; rfl

/-- A doomed queue has no writer that could write. -/
theorem Doomed.writer (h : Doomed s) (hgood : Good s) {w : Writer} (hw : w ∈ s.writers) :
    (∃ batch, w = .flushing batch []) ∨ ∃ batch e, w = .flushed batch (some e) := by
  cases h with
  | flushing iomu queued err =>
    cases hgood.owner with
    | free hi => cases hi.symm.trans iomu
    | direct hi _ _ _ kind =>
      cases hi.symm.trans iomu
      exact absurd (kind.symm.trans queued) Bool.false_ne_true
    | @flush batch burst calls hi _ writers _ _ reached =>
      cases hi.symm.trans iomu
      rw [writers, reached.failed err, List.mem_singleton] at hw
      exact Or.inl ⟨batch, hw⟩
  | @flushed batch e writers =>
    rw [writers, List.mem_singleton] at hw
    exact Or.inr ⟨batch, e, hw⟩
  | failed queue err =>
    cases hgood.tended with
    | bare _ writers => simp [writers] at hw
    | idle _ writers => simp [writers] at hw
    | busy busy =>
      cases busy.queue.symm.trans queue
      cases busy.err.symm.trans err

/-- The holder of `wmu` that writes is no flush. -/
theorem Good.direct_burst (h : Good s) {g : Held} {burst : Burst} {calls : List (List UInt8)}
    (wmu : s.wmu = some g) (iomu : s.iomu = some burst) (hcalls : g.calls = some calls) :
    burst.queued = false ∧ burst.items = [g.out.item] ∧ burst.Reached calls ∧ g.queued = false := by
  cases h.owner with
  | free hi => cases hi.symm.trans iomu
  | direct hi hw hl queued kind items reached =>
    cases hi.symm.trans iomu
    cases hw.symm.trans wmu
    cases hl.symm.trans hcalls
    exact ⟨kind, items, reached, queued⟩
  | flush _ held => cases (held _ wmu).symm.trans hcalls

/-- The writer that flushes holds `iomu`. -/
theorem Good.flush_burst (h : Good s) {i : ℕ} {batch : List Item} {calls : List (List UInt8)}
    {burst : Burst} (writer : s.writers[i]? = some (.flushing batch calls))
    (iomu : s.iomu = some burst) :
    burst.queued = true ∧ burst.items = batch ∧ burst.Reached calls := by
  have hmem := List.mem_of_getElem? writer
  cases h.owner with
  | free hi => cases hi.symm.trans iomu
  | direct _ _ _ _ _ _ _ hw => cases hw _ hmem
  | flush hi _ hw kind items reached =>
    cases hi.symm.trans iomu
    rw [hw, List.mem_singleton] at hmem
    cases hmem
    exact ⟨kind, items, reached⟩

theorem Doomed.step (h : Doomed s) (hgood : Good s) (hstep : Step D s a s') : Doomed s' := by
  have hsome := h.queue hgood
  have hwriter : ∀ {i : ℕ} {w : Writer}, s.writers[i]? = some w → _ := fun hw =>
    h.writer hgood (List.mem_of_getElem? hw)
  cases hstep with
  | attach _ queue => simp [queue] at hsome
  | adjust _ queue =>
    cases h with
    | flushing iomu queued err => exact .flushing iomu queued err
    | flushed writers => exact .flushed writers
    | @failed q e hq err =>
      cases hq.symm.trans queue
      refine .failed rfl (e := e) ?_
      unfold Queue.adjust
      split_ifs <;> exact err
  | idle =>
    cases h with
    | flushing iomu queued err => exact .flushing iomu queued err
    | flushed writers => exact .flushed writers
    | failed hq err => exact .failed hq err
  | encode =>
    cases h with
    | flushing iomu queued err => exact .flushing iomu queued err
    | flushed writers => exact .flushed writers
    | failed hq err => exact .failed hq err
  | refuse _ _ _ err => exact .failed rfl err
  | @join g q wmu queue queued err =>
    cases h with
    | flushing iomu queued err => exact .flushing iomu queued err
    | flushed writers =>
      rcases hgood.tended.writers_running queue with ⟨hnil, -⟩ | ⟨w, -, hr⟩
      · cases hnil.symm.trans writers
      · exact .flushed ((if_pos hr).trans writers)
    | failed hq herr =>
      cases hq.symm.trans queue
      cases herr.symm.trans err
  | lock _ iomu =>
    cases h with
    | flushing hi => cases hi.symm.trans iomu
    | flushed writers => exact .flushed writers
    | failed hq err => exact .failed hq err
  | write wmu iomu left =>
    cases h with
    | flushing hi queued =>
      cases hi.symm.trans iomu
      exact absurd ((hgood.direct_burst wmu iomu left).1.symm.trans queued) Bool.false_ne_true
    | flushed writers => exact .flushed writers
    | failed hq err => exact .failed hq err
  | unlock wmu iomu left =>
    cases h with
    | flushing hi queued =>
      cases hi.symm.trans iomu
      exact absurd ((hgood.direct_burst wmu iomu left).1.symm.trans queued) Bool.false_ne_true
    | flushed writers => exact .flushed writers
    | failed hq err => exact .failed hq err
  | exit writer =>
    rcases hwriter writer with ⟨_, h⟩ | ⟨_, _, h⟩ <;> cases h
  | take writer =>
    rcases hwriter writer with ⟨_, h⟩ | ⟨_, _, h⟩ <;> cases h
  | lockFlush writer =>
    rcases hwriter writer with ⟨_, h⟩ | ⟨_, _, h⟩ <;> cases h
  | flush writer =>
    rcases hwriter writer with ⟨_, h⟩ | ⟨_, _, h⟩ <;> cases h
  | settle writer =>
    rcases hwriter writer with ⟨_, h⟩ | ⟨_, _, h⟩ <;> cases h
  | @unlockFlush i batch burst writer iomu =>
    obtain ⟨rfl, q, busy⟩ := hgood.busy writer
    cases h with
    | flushing hi _ err =>
      cases hi.symm.trans iomu
      obtain ⟨e, he⟩ := Option.ne_none_iff_exists'.mp err
      simp only [he]
      exact .flushed (busy.set (.flushed batch (some e)))
    | flushed writers => cases writers.symm.trans busy.writers
    | failed hq err =>
      cases busy.queue.symm.trans hq
      cases busy.err.symm.trans err
  | fail => exact .failed rfl rfl

theorem rules_step (hgood : Good s) (hstep : Step D s a s') :
    s'.conn.peerRules = s.conn.peerRules := by
  have hfinish : ∀ after err, (s.conn.finish after err).peerRules = s.conn.peerRules :=
    fun after err => (WriteSide.finish_spec hgood.sound after err).2.1.peerRules
  have hstart : ∀ {o : Op} {r : Except Err (Option Outgoing)} {c : WriteSide},
      s.conn.start D (fun n => s.queue.bind (·.reserve n)) o = (r, c) →
        c.peerRules = s.conn.peerRules := by
    intro o r c start
    have hspec := WriteSide.start_spec hgood.sound D (fun n => s.queue.bind (·.reserve n)) o
    rw [start] at hspec
    cases hspec with
    | refused fixed => exact fixed.peerRules
    | silent fixed => exact fixed.peerRules
    | frame encodes => exact encodes.fixed.peerRules
  cases hstep with
  | idle _ start => exact hstart start
  | encode _ start => exact hstart start
  | refuse => exact hfinish _ _
  | join => exact hfinish _ _
  | unlock => exact hfinish _ _
  | _ => rfl

theorem line_free (h : s.wmu = none) : s.line = s.base := by
  simp [line, holding, h]

theorem line_held {g : Held} (h : s.wmu = some g) : s.line = s.base ++ [g.out.item] := by
  simp [line, holding, h]

theorem expected_free (h : s.wmu = none) : s.expected = s.conn.underway := by
  simp [expected, holding, h]

theorem expected_held {g : Held} (h : s.wmu = some g) :
    s.expected = (s.conn.finish g.out.after none).underway := by
  simp [expected, holding, h]

/-- Nothing changes but where the frames are. -/
theorem Live.congr (h : Live R s) (hconn : s'.conn = s.conn) (hholding : s'.holding = s.holding)
    (hbase : s'.base = s.base) (hqueue : ∀ q, s'.queue = some q → q.err = none)
    (hflush : ∀ b, s'.iomu = some b → b.queued = true → b.err = none)
    (hwriters : ∀ w ∈ s'.writers, ∀ batch e, w ≠ .flushed batch (some e)) : Live R s' := by
  have hline : s'.line = s.line := by rw [line, line, hbase, hholding]
  have hexpected : s'.expected = s.expected := by rw [expected, expected, hconn, hholding]
  refine ⟨hqueue, hflush, hwriters, hline ▸ h.sequence, ?_, ?_⟩
  · rw [hline, hexpected, hconn]
    exact h.opened
  · rw [hholding, hbase, hconn]
    exact h.failing

/-- The holder of `wmu` is done. -/
theorem Live.release (hconn : s'.conn.tx.closeSent = s.conn.tx.closeSent) (hwmu : s'.wmu = none)
    (hqueue : ∀ q, s'.queue = some q → q.err = none)
    (hflush : ∀ b, s'.iomu = some b → b.queued = true → b.err = none)
    (hwriters : ∀ w ∈ s'.writers, ∀ batch e, w ≠ .flushed batch (some e))
    (hsequence : lawful R s'.base = true)
    (hopened : Shared.opened s'.base = s'.conn.underway ∨ s.conn.tx.closeSent = true) :
    Live R s' := by
  refine ⟨hqueue, hflush, hwriters, line_free hwmu ▸ hsequence, ?_, fun out hout => ?_⟩
  · rw [line_free hwmu, expected_free hwmu, hconn]
    exact hopened
  · simp [holding, hwmu] at hout

/-- A frame is encoded. -/
theorem Live.encode (h : Live R s) (hgood : Good s) (hrules : s.conn.peerRules = R) {o : Op}
    {out : Outgoing} {c : WriteSide} (wmu : s.wmu = none)
    (start : s.conn.start D (fun n => s.queue.bind (·.reserve n)) o = (.ok (some out), c))
    {queued : Bool} {encoded : List Item} : Live R { s with
      conn := c, wmu := some { out := out, queued := queued }, encoded := encoded } := by
  have hspec := WriteSide.start_spec hgood.sound D (fun n => s.queue.bind (·.reserve n)) o
  rw [start] at hspec
  cases hspec with
  | frame encodes =>
    have hsequence := h.sequence
    have hopened := h.opened
    rw [line_free wmu] at hsequence hopened
    rw [expected_free wmu] at hopened
    have hadmits := encodes.admits
    rw [hrules] at hadmits
    rcases Bool.eq_false_or_eq_true s.conn.tx.closeSent with hclosed | hclosed
    · -- After a close only pongs are encoded, and they are legal anywhere.
      have hctl : out.item.frame.opcode.isControl = true := by rw [encodes.closing hclosed]; rfl
      have hclosed' : c.tx.closeSent = true := by rw [encodes.closeSent, hclosed]; rfl
      refine ⟨h.queue, h.flush, h.writers, ?_, Or.inr hclosed', fun _ _ _ => Or.inr hclosed'⟩
      rw [line_held rfl]
      exact lawful_concat.mpr ⟨hsequence, Rules.admits_anywhere hctl hadmits _⟩
    · have hopened : Shared.opened s.base = s.conn.underway :=
        hopened.resolve_right (by simp [hclosed])
      refine ⟨h.queue, h.flush, h.writers, ?_, Or.inl ?_, ?_⟩
      · rw [line_held rfl]
        exact lawful_concat.mpr ⟨hsequence, hopened ▸ hadmits⟩
      · rw [line_held rfl, expected_held rfl, encodes.done, ← hopened]
        exact opened_concat _ _
      · rintro _ ⟨⟩ e
        refine Or.inl ((encodes.failed e).trans ?_)
        rw [← hopened]
        rfl

/-- A frame that went ahead of those that wait is a control frame, or nothing waits. -/
theorem lawful_ahead {is js : List Item} {i : Item}
    (hahead : i.frame.opcode.isControl = true ∨ js = [])
    (h : lawful R (is ++ js ++ [i]) = true) : lawful R (is ++ [i] ++ js) = true ∧
      opened (is ++ [i] ++ js) = opened (is ++ js ++ [i]) := by
  rcases hahead with hctl | rfl
  · rw [lawful, List.map_append, List.map_append] at h
    simpa [lawful, opened] using Rules.sequence_ahead hctl h
  · simpa using h

/-- What does not join the queue has nothing to overtake, or is a control frame. -/
theorem Good.ahead (h : Good s) {g : Held} (wmu : s.wmu = some g) (queued : g.queued = false) :
    g.out.item.frame.opcode.isControl = true ∨ s.backlog = [] := by
  cases hq : s.queue with
  | none => exact Or.inr (h.backlog_bare hq)
  | some q => exact Or.inl (h.direct g wmu queued (by rw [hq]; rfl)).opcode

/-- The direct writer gives its locks back after a write that was no harm. -/
theorem Live.unlock (h : Live R s) (hgood : Good s) {g : Held} {burst : Burst}
    (wmu : s.wmu = some g) (iomu : s.iomu = some burst) (hcalls : g.calls = some [])
    (hharm : burst.harmful = false) : Live R { s with
      conn := s.conn.finish g.out.after burst.err, wmu := none, iomu := none,
      past := s.past ++ [burst] } := by
  obtain ⟨kind, items, reached, queued⟩ := hgood.direct_burst wmu iomu hcalls
  have hahead := hgood.ahead wmu queued
  have hsent : (s.conn.finish g.out.after burst.err).tx.closeSent = s.conn.tx.closeSent :=
    congrArg Sender.closeSent (WriteSide.finish_spec hgood.sound g.out.after burst.err).2.2
  have hold : s.base = s.sent ++ s.backlog := by simp [base, iomu, kind]
  have hnew : base { s with
      conn := s.conn.finish g.out.after burst.err, wmu := none, iomu := none,
      past := s.past ++ [burst] } = s.sent ++ burst.done ++ s.backlog := by
    simp [base, sent, backlog]
  have hsequence := h.sequence
  have hopened := h.opened
  rw [line_held wmu] at hsequence hopened
  rw [expected_held wmu] at hopened
  have hwhole : lawful R (s.sent ++ [g.out.item] ++ s.backlog) = true ∧
      Shared.opened (s.sent ++ [g.out.item] ++ s.backlog) =
        Shared.opened (s.base ++ [g.out.item]) := by
    rw [hold] at hsequence ⊢
    exact lawful_ahead hahead hsequence
  refine Live.release hsent rfl h.queue (fun _ h => by cases h) h.writers ?_ ?_
  · rw [hnew]
    rcases Burst.done_single items with hdone | hdone
    · rw [hdone, List.append_nil, ← hold]
      exact (lawful_concat.mp hsequence).1
    · rw [hdone]
      exact hwhole.1
  · rw [hnew]
    cases herr : burst.err with
    | none =>
      rw [reached.done_eq herr, items, hwhole.2]
      exact hopened
    | some e =>
      refine (h.failing g.out (by simp [holding, wmu]) e).imp_left fun hfail => ?_
      dsimp only
      rw [hfail]
      simp only [Burst.harmful, kind, herr, items, Bool.not_false, Option.isSome_some,
        Bool.true_and, List.any_cons, List.any_nil, Bool.or_false, Bool.or_eq_false_iff,
        Bool.and_eq_false_iff, Bool.not_eq_false'] at hharm
      have hadmits := (lawful_concat.mp hsequence).2
      rcases Bool.eq_false_or_eq_true g.out.item.frame.opcode.isControl with hctl | hctl
      · -- A control frame does not change what is open.
        rw [hctl, Bool.true_and]
        rcases Burst.done_single items with hdone | hdone
        · rw [hdone, List.append_nil, hold]
        · rw [hdone, hwhole.2, opened_concat, Rules.opens_control hctl]
      · have hkind := hharm.2.resolve_left (by simp [hctl])
        rw [hctl, Bool.false_and]
        rcases Burst.done_single items with hdone | hdone
        · rw [hdone, List.append_nil, ← hold]
          refine Rules.open_of_admits hadmits hctl ?_
          simpa [hdone] using hkind
        · rw [hdone, hwhole.2, opened_concat, Frame.opens, hctl]
          simpa [hdone] using hkind

/-- A step from a state in which all is fine : all stays fine, a flush fails, or the burst that
comes to its end has done harm. -/
theorem Live.step (h : Live R s) (hgood : Good s) (hrules : s.conn.peerRules = R)
    (hstep : Step D s a s') :
    Live R s' ∨ Doomed s' ∨ ∃ b, s'.past = s.past ++ [b] ∧ b.harmful = true := by
  cases hstep with
  | attach =>
    exact Or.inl (h.congr rfl rfl rfl (fun q hq => Option.some.inj hq ▸ rfl) h.flush h.writers)
  | @adjust limit q _ queue =>
    refine Or.inl (h.congr rfl rfl rfl (fun q' hq => Option.some.inj hq ▸ ?_) h.flush h.writers)
    have herr := h.queue _ queue
    unfold Queue.adjust
    split_ifs <;> exact herr
  | @idle o r c wmu start silent =>
    left
    have hspec := WriteSide.start_spec hgood.sound D (fun n => s.queue.bind (·.reserve n)) o
    have hsequence := h.sequence
    have hopened := h.opened
    rw [line_free wmu] at hsequence hopened
    rw [expected_free wmu] at hopened
    refine Live.release (closeSent_idle hgood.sound start silent) wmu h.queue h.flush h.writers
      hsequence ?_
    rw [start] at hspec
    cases hspec with
    | refused _ _ _ underway =>
      rcases underway with hu | hclosed
      · exact hopened.imp_left fun ho => ho.trans hu.symm
      · exact Or.inr hclosed
    | silent _ _ _ underway => exact hopened.imp_left fun ho => ho.trans underway.symm
    | frame => exact absurd rfl (silent _)
  | encode wmu start => exact Or.inl (h.encode hgood hrules wmu start)
  | refuse _ queue _ err => cases (h.queue _ queue).symm.trans err
  | @join g q wmu queue queued err =>
    left
    have hsequence := h.sequence
    have hopened := h.opened
    rw [line_held wmu] at hsequence hopened
    rw [expected_held wmu] at hopened
    have hunsent : (if q.running then s.writers else s.writers ++ [.ready]).flatMap Writer.unsent =
        s.writers.flatMap Writer.unsent := by
      split_ifs <;> simp [Writer.unsent]
    have hbase : base { s with
        conn := s.conn.finish g.out.after none,
        queue := some (q.enqueue g.out).2,
        wmu := none,
        writers := if q.running then s.writers else s.writers ++ [.ready],
        waiting := s.waiting ++ [g.out.item],
        enqueued := s.enqueued ++ [g.out.item] } = s.base ++ [g.out.item] := by
      simp only [base, backlog, hunsent, sent, List.append_assoc]
    refine Live.release
      (congrArg Sender.closeSent (WriteSide.finish_spec hgood.sound g.out.after none).2.2) rfl
      (fun q hq => Option.some.inj hq ▸ (Queue.enqueue_spec err _).err) h.flush ?_ ?_ ?_
    · intro w hw
      dsimp only at hw
      split_ifs at hw
      · exact h.writers w hw
      · rcases List.mem_append.mp hw with hw | hw
        · exact h.writers w hw
        · rw [List.mem_singleton.mp hw]
          rintro _ _ ⟨⟩
    · rw [hbase]
      exact hsequence
    · rw [hbase]
      exact hopened
  | lock wmu iomu queued =>
    refine Or.inl (h.congr rfl ?_ ?_ h.queue ?_ h.writers)
    · simp [holding, wmu]
    · simp [base, iomu, sent, backlog]
    · rintro b ⟨⟩ hq
      cases hq
  | @write g burst b calls fault wmu iomu left =>
    have hkind := (hgood.direct_burst wmu iomu left).1
    refine Or.inl (h.congr rfl ?_ ?_ h.queue ?_ h.writers)
    · simp [holding, wmu]
    · simp [base, iomu, sent, backlog, hkind]
    · rintro b ⟨⟩ hq
      rw [Burst.queued_pass, hkind] at hq
      cases hq
  | @unlock g burst wmu iomu left =>
    rcases Bool.eq_false_or_eq_true burst.harmful with hharm | hharm
    · exact Or.inr (Or.inr ⟨burst, rfl, hharm⟩)
    · exact Or.inl (h.unlock hgood wmu iomu left hharm)
  | exit writer queue =>
    obtain ⟨rfl, q, busy⟩ := hgood.busy writer
    cases busy.queue.symm.trans queue
    refine Or.inl (h.congr rfl rfl ?_ (fun q hq => Option.some.inj hq ▸ busy.err) h.flush ?_)
    · simp [base, sent, backlog, busy.writers, Writer.unsent]
    · simp [busy.writers]
  | take writer queue take =>
    obtain ⟨rfl, q, busy⟩ := hgood.busy writer
    cases busy.queue.symm.trans queue
    obtain ⟨-, rfl⟩ := Queue.take_some take
    refine Or.inl (h.congr rfl rfl ?_ (fun q hq => Option.some.inj hq ▸ busy.err) h.flush ?_)
    · simp [base, sent, backlog, busy.writers, Writer.unsent]
    · simp [busy.writers]
  | lockFlush writer queue iomu =>
    obtain ⟨rfl, q, busy⟩ := hgood.busy writer
    refine Or.inl (h.congr rfl rfl ?_ h.queue ?_ ?_)
    · simp [base, sent, backlog, busy.writers, Writer.unsent, iomu]
    · rintro b ⟨⟩ -
      rfl
    · simp [busy.writers]
  | @flush i batch b calls burst fault writer iomu =>
    obtain ⟨rfl, q, busy⟩ := hgood.busy writer
    obtain ⟨kind, -, -⟩ := hgood.flush_burst writer iomu
    cases fault with
    | some f => exact Or.inr (Or.inl (.flushing rfl kind fun h => by cases h))
    | none =>
      refine Or.inl (h.congr rfl rfl ?_ h.queue ?_ ?_)
      · simp [base, sent, backlog, busy.writers, Writer.unsent, iomu, kind]
      · have herr := h.flush burst iomu kind
        rintro b ⟨⟩ -
        exact herr
      · simp [busy.writers]
  | @unlockFlush i batch burst writer iomu =>
    obtain ⟨rfl, q, busy⟩ := hgood.busy writer
    obtain ⟨kind, items, reached⟩ := hgood.flush_burst writer iomu
    have herr := h.flush burst iomu kind
    refine Or.inl (h.congr rfl rfl ?_ h.queue (fun _ h => by cases h) ?_)
    · simp [base, sent, backlog, busy.writers, Writer.unsent, iomu, kind, reached.done_eq herr]
    · simp [busy.writers, herr]
  | settle writer queue =>
    obtain ⟨rfl, q, busy⟩ := hgood.busy writer
    cases busy.queue.symm.trans queue
    refine Or.inl (h.congr rfl rfl ?_ (fun q hq => Option.some.inj hq ▸ busy.err) h.flush ?_)
    · simp [base, sent, backlog, busy.writers, Writer.unsent]
    · simp [busy.writers]
  | fail writer => exact absurd rfl (h.writers _ (List.mem_of_getElem? writer) _ _)

/-- No harm was done : the frames that were accepted and those that are being written are a
legal sequence. -/
structure Lawful (R : Rules) (s : Shared) : Prop where
  rules : s.conn.peerRules = R
  clean : ∀ b ∈ s.past, b.harmful = false
  sequence : lawful R (s.sent ++ s.iomu.toList.flatMap Burst.items) = true
  held : ∀ h, s.wmu = some h → ∃ o, R.admits o h.out.item.frame = true
  mode : Live R s ∨ Doomed s

/-- Harm was done, and nobody writes. -/
structure Frozen (R : Rules) (s : Shared) : Prop where
  harm : ∃ b ∈ s.past, b.harmful = true
  iomu : s.iomu = none
  accepted : ∃ fs, R.sequence false fs = true ∧ s.accepted <+: wire fs

/-- Nobody takes `iomu` after a failure that did harm. -/
def sober (s : Shared) : Act → Bool
  | .lock => !s.past.any Burst.harmful
  | .lockFlush _ => !s.past.any Burst.harmful
  | _ => true

theorem Lawful.accepted (h : Lawful R s) (hgood : Good s) :
    ∃ fs, R.sequence false fs = true ∧ s.accepted <+: wire fs := by
  refine ⟨_, h.sequence, ?_⟩
  have hpast : s.past.flatMap Burst.accepted = wire (s.sent.map Item.frame) := by
    rw [wire, sent, List.flatMap_map, List.flatMap_assoc]
    refine List.flatMap_congr fun b hb => ?_
    have hharm := h.clean b hb
    simp only [Burst.harmful, Bool.or_eq_false_iff] at hharm
    rw [Burst.accepted_of_not_torn (hgood.finished b hb) hharm.1, wire, List.flatMap_map]
  rw [Shared.accepted, bursts, List.flatMap_append, hpast, List.map_append, wire_append]
  refine (List.prefix_append_right_inj _).mpr ?_
  cases hgood.owner with
  | free iomu => simp [iomu]
  | direct iomu _ _ _ _ _ reached => simpa [iomu, Burst.bytes] using reached.accepted
  | flush iomu _ _ _ _ reached => simpa [iomu, Burst.bytes] using reached.accepted

theorem Lawful.step_held (h : Lawful R s) (hgood : Good s) (hstep : Step D s a s') :
    ∀ g, s'.wmu = some g → ∃ o, R.admits o g.out.item.frame = true := by
  have hheld := h.held
  cases hstep with
  | @encode o out c _ start =>
    have hspec := WriteSide.start_spec hgood.sound D (fun n => s.queue.bind (·.reserve n)) o
    rw [start] at hspec
    rintro g ⟨⟩
    cases hspec with
    | frame encodes => exact ⟨_, h.rules ▸ encodes.admits⟩
  | lock wmu =>
    have hadmits := hheld _ wmu
    rintro g ⟨⟩
    exact hadmits
  | write wmu =>
    have hadmits := hheld _ wmu
    rintro g ⟨⟩
    exact hadmits
  | refuse => rintro g ⟨⟩
  | join => rintro g ⟨⟩
  | unlock => rintro g ⟨⟩
  | _ => exact hheld

/-- The frame that is about to be written is legal after those that were. -/
theorem Lawful.lock (h : Lawful R s) (hgood : Good s) {g : Held} (wmu : s.wmu = some g)
    (iomu : s.iomu = none) (queued : g.queued = false) :
    lawful R (s.sent ++ [g.out.item]) = true := by
  have hsent : lawful R s.sent = true := lawful_prefix h.sequence (List.prefix_append _ _)
  obtain ⟨o, hadmits⟩ := h.held g wmu
  have hcontrol : g.out.item.frame.opcode.isControl = true →
      lawful R (s.sent ++ [g.out.item]) = true := fun hctl =>
    lawful_concat.mpr ⟨hsent, Rules.admits_anywhere hctl hadmits _⟩
  rcases h.mode with hlive | hdoomed
  · rcases hgood.ahead wmu queued with hctl | hempty
    · exact hcontrol hctl
    · have hline := hlive.sequence
      rw [line_held wmu] at hline
      simpa [base, iomu, hempty] using hline
  · exact hcontrol (hgood.direct g wmu queued (hdoomed.queue hgood)).opcode

theorem Lawful.step_sequence (h : Lawful R s) (hgood : Good s) (hstep : Step D s a s') :
    lawful R (s'.sent ++ s'.iomu.toList.flatMap Burst.items) = true := by
  have hsequence := h.sequence
  cases hstep with
  | lock wmu iomu queued => simpa [sent] using h.lock hgood wmu iomu queued
  | write _ iomu => simpa [sent, iomu] using hsequence
  | unlock _ iomu =>
    refine lawful_prefix hsequence ?_
    simpa [sent, iomu, List.prefix_append_right_inj] using Burst.done_prefix
  | lockFlush writer queue iomu =>
    obtain ⟨rfl, q, busy⟩ := hgood.busy writer
    rcases h.mode with hlive | hdoomed
    · refine lawful_prefix hlive.sequence ?_
      rw [line, base, backlog, busy.writers, iomu]
      simp only [sent, Option.toList_some, Option.toList_none, List.filter_nil, List.flatMap_cons,
        List.flatMap_nil, List.append_nil, Writer.unsent, List.append_assoc]
      exact (List.prefix_append_right_inj _).mpr (List.prefix_append _ _)
    · rcases hdoomed.writer hgood (List.mem_of_getElem? writer) with ⟨_, hw⟩ | ⟨_, _, hw⟩ <;> cases hw
  | flush _ iomu => simpa [sent, iomu] using hsequence
  | unlockFlush _ iomu =>
    refine lawful_prefix hsequence ?_
    simpa [sent, iomu, List.prefix_append_right_inj] using Burst.done_prefix
  | _ => exact hsequence

/-- What was recorded of the bursts changes only when one comes to its end. -/
theorem past_step (hstep : Step D s a s') : s'.past = s.past ∨
    ∃ b, s.iomu = some b ∧ s'.past = s.past ++ [b] ∧ s'.iomu = none := by
  cases hstep with
  | unlock _ iomu => exact Or.inr ⟨_, iomu, rfl, rfl⟩
  | unlockFlush _ iomu => exact Or.inr ⟨_, iomu, rfl, rfl⟩
  | _ => exact Or.inl rfl

theorem Lawful.step (h : Lawful R s) (hgood : Good s) (hstep : Step D s a s') :
    Lawful R s' ∨ Frozen R s' := by
  have hmode : (Live R s' ∨ Doomed s') ∨ ∃ b, s'.past = s.past ++ [b] ∧ b.harmful = true := by
    rcases h.mode with hlive | hdoomed
    · rcases hlive.step hgood h.rules hstep with hl | hd | hb
      · exact Or.inl (Or.inl hl)
      · exact Or.inl (Or.inr hd)
      · exact Or.inr hb
    · exact Or.inl (Or.inr (hdoomed.step hgood hstep))
  have hlawful : (∀ b ∈ s'.past, b.harmful = false) → Lawful R s' := fun hclean =>
    ⟨(rules_step hgood hstep).trans h.rules, hclean, h.step_sequence hgood hstep,
      h.step_held hgood hstep, hmode.resolve_right fun ⟨b, hpast, hharm⟩ => by
        rw [hclean b (by simp [hpast])] at hharm
        cases hharm⟩
  rcases past_step hstep with hpast | ⟨b, hb, hpast, hiomu⟩
  · exact Or.inl (hlawful (by rw [hpast]; exact h.clean))
  · rcases Bool.eq_false_or_eq_true b.harmful with hharm | hharm
    · -- The bytes are those of before.
      refine Or.inr ⟨⟨b, by simp [hpast], hharm⟩, hiomu, ?_⟩
      have haccepted : s'.accepted = s.accepted := by
        rw [Shared.accepted, Shared.accepted, bursts_free hiomu, hpast, bursts_held hb]
      rw [haccepted]
      exact h.accepted hgood
    · refine Or.inl (hlawful ?_)
      simp only [hpast, List.mem_append, List.mem_singleton]
      rintro b' (hb' | rfl)
      · exact h.clean b' hb'
      · exact hharm

theorem Frozen.step (h : Frozen R s) (hsober : s.sober a = true) (hstep : Step D s a s') :
    Frozen R s' := by
  obtain ⟨b, hb, hharm⟩ := h.harm
  have hany : s.past.any Burst.harmful = true := List.any_eq_true.mpr ⟨b, hb, hharm⟩
  have hiomu := h.iomu
  cases hstep with
  | lock => simp [sober, hany] at hsober
  | write _ iomu => cases hiomu.symm.trans iomu
  | unlock _ iomu => cases hiomu.symm.trans iomu
  | lockFlush => simp [sober, hany] at hsober
  | flush _ iomu => cases hiomu.symm.trans iomu
  | unlockFlush _ iomu => cases hiomu.symm.trans iomu
  | _ => exact ⟨h.harm, hiomu, h.accepted⟩

theorem Lawful.init {c : WriteSide} (h : c.underway = false) :
    Lawful c.peerRules { conn := c } where
  rules := rfl
  clean := fun _ h => by cases h
  sequence := rfl
  held := fun _ h => by cases h
  mode := Or.inl ⟨fun _ h => (by cases h), fun _ h => (by cases h), fun _ h => (by cases h), rfl,
    Or.inl h.symm, fun _ h => by cases h⟩

/-- Whatever the transport does, if nobody writes after a failure that did harm the bytes that
were accepted are the beginning of a sequence of whole frames that is legal for the peer. -/
theorem writes_lawful {cfg : Config} {vectored : Bool} {keys : ℕ → MaskKey}
    {pool : (kind : EncoderKind) → ℕ → Option { c : Compressor // c.Idle kind }} {c : WriteSide}
    (hc : WriteSide.ofConfig cfg vectored keys pool = .ok c) {acts : List Act}
    (hrun : Shared.run D { conn := c } acts = some s) (hsober : along D sober { conn := c } acts = true) :
    ∃ fs, c.peerRules.sequence false fs = true ∧ s.accepted <+: wire fs := by
  have hunder : c.underway = false := by
    unfold WriteSide.ofConfig at hc
    split_ifs at hc
    cases hc
    rfl
  obtain ⟨hgood, hlawful⟩ := run_induct
    (P := fun s => Good s ∧ (Lawful c.peerRules s ∨ Frozen c.peerRules s)) (p := sober)
    (fun s a s' h ha hstep => ⟨h.1.step hstep, h.2.elim (fun hl => hl.step h.1 hstep)
      fun hf => Or.inr (hf.step ha hstep)⟩)
    acts ⟨Good.init (sound_ofConfig hc), Or.inl (Lawful.init hunder)⟩ hrun hsober
  rcases hlawful with hlawful | hfrozen
  · exact hlawful.accepted hgood
  · exact hfrozen.accepted

/-- A text of which nothing is accepted, a ping, and a text. -/
theorem writes_lawful_lost :
    ∃ s, Shared.run .mute { conn := .plain .server }
        [.start (.write .text ⟨[104, 105], by decide⟩), .lock, .write (some (0, .other 0)), .unlock,
          .start (.ping ⟨[], by decide⟩), .lock, .write none, .unlock,
          .start (.write .text ⟨[106], by decide⟩), .lock, .write none, .unlock] = some s ∧
      s.accepted = [0x89, 0, 0x81, 1, 106] ∧
      ∃ fs, Rules.sequence ⟨.client, false⟩ false fs = true ∧ s.accepted <+: wire fs := by
  obtain ⟨s, hrun, haccepted⟩ : ∃ s, Shared.run .mute { conn := .plain .server }
        [.start (.write .text ⟨[104, 105], by decide⟩), .lock, .write (some (0, .other 0)), .unlock,
          .start (.ping ⟨[], by decide⟩), .lock, .write none, .unlock,
          .start (.write .text ⟨[106], by decide⟩), .lock, .write none, .unlock] = some s ∧
      s.accepted = [0x89, 0, 0x81, 1, 106] := ⟨_, rfl, rfl⟩
  exact ⟨s, hrun, haccepted, writes_lawful (WriteSide.ofConfig_plain .server) hrun rfl⟩

/-- The header of a frame from a server has no mask bit. -/
theorem secondByte_lt {R : Rules} {o : Bool} {f : Frame} (h : R.admits o f = true)
    (hrole : R.role = .client) : f.secondByte.toNat < 128 := by
  have hkey : f.key.isSome = false := by
    simp only [Rules.admits, Rules.legal, Frame.head, hrole, Bool.and_eq_true] at h
    exact beq_iff_eq.mp h.1.1.1.1.1
  rw [secondByte_toNat, hkey]
  simpa using lengthCode_lt f.payload.length

/-- One byte of a text is accepted and the write fails, then the peer is pinged : the ping begins
inside the header of the text. -/
theorem write_torn :
    ∃ s, Shared.run .mute { conn := .plain .server }
        [.start (.write .text ⟨[104, 105], by decide⟩), .lock, .write (some (1, .other 0)), .unlock,
          .start (.ping ⟨[], by decide⟩), .lock, .write none, .unlock] = some s ∧
      s.accepted = [0x81, 0x89, 0] ∧
      ∀ fs, Rules.sequence ⟨.client, false⟩ false fs = true → ¬s.accepted <+: wire fs := by
  refine ⟨_, rfl, rfl, fun fs hfs hp => ?_⟩
  have hp : [0x81, 0x89, 0] <+: wire fs := hp
  cases fs with
  | nil => exact absurd hp (by decide)
  | cons f fs =>
    simp only [Rules.sequence, Bool.and_eq_true] at hfs
    have hlt := secondByte_lt hfs.1 rfl
    simp only [wire_cons, Frame.bytes, Frame.header, List.cons_append, List.cons_prefix_cons] at hp
    rw [← hp.2.1] at hlt
    exact absurd hlt (by decide)

end Shared

end Ews
