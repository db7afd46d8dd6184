import Ews.Shared

/-!
# What the queue delivers

`Shared.Good` is the invariant of a shared connection, kept by every step whatever the transport
does (`Good.step`) : who holds `iomu` and how far its writes have come (`Owner`), who tends the
queue (`Tended`), and what was flushed.

Of it follow the bookkeeping of the queue, and for a transport that accepts every write that the
wire carries whole frames, those of the queue in the order in which they were enqueued.
-/

set_option linter.unusedSectionVars false

namespace Ews

/-- The bytes of the frames of a burst. -/
def Burst.bytes (burst : Burst) : List UInt8 :=
  wire (burst.items.map Item.frame)

/-- A burst with the writes `calls` left : what was accepted is the beginning of its frames, and
if no write has failed the rest is in the writes that are left. -/
structure Burst.Reached (burst : Burst) (calls : List (List UInt8)) : Prop where
  accepted : burst.accepted <+: burst.bytes
  whole : burst.err = none → burst.accepted ++ calls.flatten = burst.bytes
  failed : burst.err ≠ none → calls = []

namespace Burst

variable {burst : Burst} {b : List UInt8} {calls : List (List UInt8)}

theorem Reached.start {queued : Bool} {items : List Item}
    (h : calls.flatten = wire (items.map Item.frame)) :
    Reached { queued := queued, items := items } calls :=
  ⟨List.nil_prefix, fun _ => h, fun he => absurd rfl he⟩

theorem Reached.pass (h : burst.Reached (b :: calls)) (fault : Fault) :
    (burst.pass b fault).Reached (left calls fault) := by
  have herr : burst.err = none := by_contra fun he => List.cons_ne_nil _ _ (h.failed he)
  have hwhole : burst.accepted ++ b ++ calls.flatten = burst.bytes := by
    rw [List.append_assoc]
    exact h.whole herr
  cases fault with
  | none =>
    exact ⟨hwhole ▸ List.prefix_append _ _, fun _ => hwhole, fun he => absurd herr he⟩
  | some f =>
    refine ⟨?_, fun h => (by cases h), fun _ => rfl⟩
    refine List.IsPrefix.trans ?_ (hwhole ▸ List.prefix_append _ _ : burst.accepted ++ b <+: _)
    exact (List.prefix_append_right_inj _).mpr (List.take_prefix _ _)

theorem Reached.accepted_eq (h : burst.Reached []) (herr : burst.err = none) :
    burst.accepted = burst.bytes := by
  simpa using h.whole herr

@[simp] theorem items_pass (fault : Fault) : (burst.pass b fault).items = burst.items := by
  cases fault <;> rfl

@[simp] theorem queued_pass (fault : Fault) : (burst.pass b fault).queued = burst.queued := by
  cases fault <;> rfl

end Burst

/-- The writer is inside `flush` with `iomu`. -/
def Writer.flushes : Writer → Bool
  | .flushing _ _ => true
  | _ => false

/-- The writer has a batch. -/
def Writer.working : Writer → Bool
  | .ready => false
  | _ => true

/-- The frames of a writer whose flush has succeeded. -/
def Writer.sent : Writer → List Item
  | .flushed batch none => batch
  | _ => []

/-- The frames a writer is writing. -/
def Writer.going : Writer → List Item
  | .flushing batch _ => batch
  | _ => []

/-- The frames of the queue that were flushed with success. -/
def delivered (bursts : List Burst) : List Item :=
  (bursts.filter fun b => b.queued && b.err.isNone).flatMap Burst.items

/-- What a writer knows of the queue. -/
def Writer.Serves (q : Queue) : Writer → Prop
  | .ready => q.flushing = none
  | .taken batch => Queue.Holds q.flushing q.flushSegments (batch.map fun i => i.frame.bytes)
  | .flushing batch _ => q.flushSegments.length = batch.length
  | .flushed batch _ => q.flushSegments.length = batch.length

/-- A control frame. -/
structure Outgoing.Control (out : Outgoing) : Prop where
  opcode : out.item.frame.opcode.isControl = true
  plain : out.item.plain = none
  after : out.after = .nothing

theorem Outgoing.Control.of_close {c c' : WriteSide} {code : UInt16} {reason : List UInt8}
    {out : Outgoing} (h : c.close code reason = (.ok out, c')) : out.Control := by
  rw [WriteSide.close, Sender.encodeClose_eq] at h
  split_ifs at h
  · rw [Sender.encode_close] at h
    split_ifs at h
    · cases h
    · cases hv : validateClose (Sender.closePayload code reason) with
      | error e => simp [hv, WriteSide.framed] at h
      | ok u =>
        simp only [hv, WriteSide.framed] at h
        cases h
        exact ⟨rfl, rfl, rfl⟩
  · cases h

theorem Outgoing.Control.of_control {c c' : WriteSide} {op : Opcode} {payload : List UInt8}
    {out : Outgoing} (hop : op = .ping ∨ op = .pong) (h : c.control op payload = (.ok out, c')) :
    out.Control := by
  rw [WriteSide.control, Sender.encode_ping hop] at h
  split_ifs at h
  · cases h
  · cases h
  · cases h
    rcases hop with rfl | rfl <;> exact ⟨rfl, rfl, rfl⟩

/-- What does not join the queue is a control frame. -/
theorem Outgoing.Control.of_start {D : Deflater} {c c' : WriteSide} {reserve : ℕ → Option Err}
    {o : Op} {out : Outgoing} (h : c.start D reserve o = (.ok (some out), c'))
    (hjoins : o.joins = false) : out.Control := by
  have hmap : ∀ {r : Except Err Outgoing × WriteSide}, r.map (·.map some) id = (.ok (some out), c') →
      r = (.ok out, c') := by
    rintro ⟨_ | out', c''⟩ h
    · cases h
    · cases h
      rfl
  cases o with
  | ping payload => exact .of_control (Or.inl rfl) (hmap h)
  | pong payload => exact .of_control (Or.inr rfl) (hmap h)
  | sendClose code =>
    rw [WriteSide.start, WriteSide.sendClose] at h
    split_ifs at h
    · cases h
    · cases hclose : c.close code [] with
      | mk r c'' =>
        rw [hclose] at h
        cases r with
        | error e => cases h
        | ok out' =>
          cases h
          exact .of_close hclose
  | _ => cases hjoins

namespace Shared

/-- Who holds `iomu`, and how far it has come. -/
inductive Owner (s : Shared) : Prop
  | free (iomu : s.iomu = none) (held : ∀ h, s.wmu = some h → h.calls = none)
      (writers : ∀ w ∈ s.writers, w.flushes = false)
  | direct {h : Held} {burst : Burst} {calls : List (List UInt8)} (iomu : s.iomu = some burst)
      (wmu : s.wmu = some h) (left : h.calls = some calls) (queued : h.queued = false)
      (kind : burst.queued = false) (items : burst.items = [h.out.item])
      (reached : burst.Reached calls) (writers : ∀ w ∈ s.writers, w.flushes = false)
  | flush {batch : List Item} {burst : Burst} {calls : List (List UInt8)}
      (iomu : s.iomu = some burst) (held : ∀ h, s.wmu = some h → h.calls = none)
      (writers : s.writers = [.flushing batch calls]) (kind : burst.queued = true)
      (items : burst.items = batch) (reached : burst.Reached calls)

/-- The counters of a queue that has not failed, and its arena. -/
structure Counts (s : Shared) (q : Queue) : Prop where
  order : s.enqueued = s.settled ++ s.writers.flatMap Writer.batch ++ s.waiting
  enqueued : q.enqueued = s.enqueued.length
  written : q.written = s.settled.length
  cur : q.segments = [] → q.cur = none

/-- The writer `w` tends the queue. -/
structure Busy (s : Shared) (q : Queue) (w : Writer) : Prop where
  queue : s.queue = some q
  writers : s.writers = [w]
  running : q.running = true
  err : q.err = none
  serves : w.Serves q
  holds : Queue.Holds q.cur q.segments (s.waiting.map fun i => i.frame.bytes)
  counts : Counts s q

/-- Who tends the queue : nobody if there is none, or if it is empty or has failed ; otherwise
one writer. -/
inductive Tended (s : Shared) : Prop
  | bare (queue : s.queue = none) (writers : s.writers = []) (waiting : s.waiting = [])
      (enqueued : s.enqueued = []) (settled : s.settled = [])
  | idle {q : Queue} (queue : s.queue = some q) (writers : s.writers = [])
      (running : q.running = false) (waiting : s.waiting = []) (segments : q.segments = [])
      (counts : q.err = none → Counts s q ∧ q.flushing = none)
  | busy {q : Queue} {w : Writer} (busy : Busy s q w)

/-- The invariant of a shared connection. -/
structure Good (s : Shared) : Prop where
  sound : s.conn.Sound
  held : ∀ h, s.wmu = some h → h.out.bytes = h.out.item.frame.bytes
  joins : ∀ h, s.wmu = some h → h.queued = true → s.queue.isSome = true
  direct : ∀ h, s.wmu = some h → h.queued = false → s.queue.isSome = true → h.out.Control
  owner : Owner s
  tended : Tended s
  finished : ∀ b ∈ s.past, b.Reached []
  delivered : delivered s.past = s.settled ++ s.writers.flatMap Writer.sent

/-- A connection nobody has used. -/
theorem Good.init {c : WriteSide} (h : c.Sound) : Good { conn := c } where
  sound := h
  held := fun _ h => by cases h
  joins := fun _ h => by cases h
  direct := fun _ h => by cases h
  owner := .free rfl (fun _ h => by cases h) (fun _ h => by cases h)
  tended := .bare rfl rfl rfl rfl rfl
  finished := fun _ h => by cases h
  delivered := rfl

variable {D : Deflater} {s s' : Shared} {a : Act}

theorem Good.step_sound (h : Good s) (hstep : Step D s a s') : s'.conn.Sound := by
  cases hstep with
  | @idle o r c _ hstart _ =>
    have hspec := WriteSide.start_spec h.sound D (fun n => s.queue.bind (·.reserve n)) o
    rw [hstart] at hspec
    cases hspec with
    | refused _ sound _ _ => exact sound
    | silent _ sound _ _ => exact sound
    | frame encodes => exact encodes.sound
  | @encode o out c _ hstart =>
    have hspec := WriteSide.start_spec h.sound D (fun n => s.queue.bind (·.reserve n)) o
    rw [hstart] at hspec
    cases hspec with
    | frame encodes => exact encodes.sound
  | refuse => exact (WriteSide.finish_spec h.sound _ _).1
  | join => exact (WriteSide.finish_spec h.sound _ _).1
  | unlock => exact (WriteSide.finish_spec h.sound _ _).1
  | _ => exact h.sound

theorem Good.step_held (h : Good s) (hstep : Step D s a s') :
    ∀ g, s'.wmu = some g → g.out.bytes = g.out.item.frame.bytes := by
  cases hstep with
  | @encode o out c _ hstart =>
    have hspec := WriteSide.start_spec h.sound D (fun n => s.queue.bind (·.reserve n)) o
    rw [hstart] at hspec
    rintro g ⟨⟩
    cases hspec with
    | frame encodes => exact encodes.bytes
  | lock wmu _ _ =>
    rintro g ⟨⟩
    have hheld := h.held _ wmu
    exact hheld
  | write wmu _ _ =>
    rintro g ⟨⟩
    have hheld := h.held _ wmu
    exact hheld
  | refuse => rintro g ⟨⟩
  | join => rintro g ⟨⟩
  | unlock => rintro g ⟨⟩
  | _ => exact h.held

theorem Good.step_joins (h : Good s) (hstep : Step D s a s') :
    ∀ g, s'.wmu = some g → g.queued = true → s'.queue.isSome = true := by
  cases hstep with
  | encode =>
    rintro g ⟨⟩ hq
    exact (Bool.and_eq_true_iff.mp hq).2
  | lock wmu _ _ =>
    rintro g ⟨⟩
    have hjoins := h.joins _ wmu
    exact hjoins
  | write wmu _ _ =>
    rintro g ⟨⟩
    have hjoins := h.joins _ wmu
    exact hjoins
  | refuse => rintro g ⟨⟩
  | join => rintro g ⟨⟩
  | unlock => rintro g ⟨⟩
  | idle => exact h.joins
  | lockFlush => exact h.joins
  | flush => exact h.joins
  | unlockFlush => exact h.joins
  | _ => exact fun _ _ _ => rfl

theorem Good.step_direct (h : Good s) (hstep : Step D s a s') :
    ∀ g, s'.wmu = some g → g.queued = false → s'.queue.isSome = true → g.out.Control := by
  cases hstep with
  | encode _ start =>
    rintro g ⟨⟩ hqueued hq
    have hq : s.queue.isSome = true := hq
    exact .of_start start (by simpa [hq] using hqueued)
  | attach wmu => exact fun g hg => by cases wmu.symm.trans hg
  | adjust wmu => exact fun g hg => by cases wmu.symm.trans hg
  | refuse => rintro g ⟨⟩
  | join => rintro g ⟨⟩
  | lock wmu =>
    rintro g ⟨⟩
    have hdirect := h.direct _ wmu
    exact hdirect
  | write wmu =>
    rintro g ⟨⟩
    have hdirect := h.direct _ wmu
    exact hdirect
  | unlock => rintro g ⟨⟩
  | exit _ queue => exact fun g hg hd _ => h.direct g hg hd (by rw [queue]; rfl)
  | take _ queue => exact fun g hg hd _ => h.direct g hg hd (by rw [queue]; rfl)
  | settle _ queue => exact fun g hg hd _ => h.direct g hg hd (by rw [queue]; rfl)
  | fail _ queue => exact fun g hg hd _ => h.direct g hg hd (by rw [queue]; rfl)
  | _ => exact h.direct

theorem Good.step_finished (h : Good s) (hstep : Step D s a s') : ∀ b ∈ s'.past, b.Reached [] := by
  cases hstep with
  | unlock wmu iomu left =>
    intro b hb
    rcases List.mem_append.mp hb with hb | hb
    · exact h.finished b hb
    · rw [List.mem_singleton.mp hb]
      cases h.owner with
      | free hi => cases hi.symm.trans iomu
      | direct hi hw hl _ _ _ reached _ =>
        cases hi.symm.trans iomu
        cases hw.symm.trans wmu
        cases hl.symm.trans left
        exact reached
      | flush _ held => cases (held _ wmu).symm.trans left
  | unlockFlush writer iomu =>
    intro b hb
    rcases List.mem_append.mp hb with hb | hb
    · exact h.finished b hb
    · rw [List.mem_singleton.mp hb]
      have hflush := List.mem_of_getElem? writer
      cases h.owner with
      | free hi => cases hi.symm.trans iomu
      | direct _ _ _ _ _ _ _ hw => cases hw _ hflush
      | flush hi _ hw _ _ reached =>
        cases hi.symm.trans iomu
        rw [hw, List.mem_singleton] at hflush
        cases hflush
        exact reached
  | _ => exact h.finished

/-- A writer is the only one, and tends the queue. -/
theorem Good.busy (h : Good s) {i : ℕ} {w : Writer} (hw : s.writers[i]? = some w) :
    i = 0 ∧ ∃ q, Busy s q w := by
  cases h.tended with
  | bare _ writers => simp [writers] at hw
  | idle _ writers => simp [writers] at hw
  | @busy q w' busy =>
    rw [busy.writers, List.getElem?_singleton] at hw
    split_ifs at hw with hi
    cases hw
    exact ⟨hi, q, busy⟩

/-- A writer that is not in `flush` may be replaced by others that are not. -/
theorem Owner.replace (h : Owner s) {w : Writer} (hw : s.writers = [w]) (hno : w.flushes = false)
    (hiomu : s'.iomu = s.iomu) (hwmu : s'.wmu = s.wmu)
    (hnew : ∀ w ∈ s'.writers, w.flushes = false) : Owner s' := by
  cases h with
  | free iomu held => exact .free (hiomu.trans iomu) (hwmu ▸ held) hnew
  | direct iomu wmu left queued kind items reached =>
    exact .direct (hiomu.trans iomu) (hwmu.trans wmu) left queued kind items reached hnew
  | flush _ _ writers =>
    cases hw.symm.trans writers
    cases hno

theorem Owner.congr (h : Owner s) (hiomu : s'.iomu = s.iomu) (hwmu : s'.wmu = s.wmu)
    (hwriters : s'.writers = s.writers) : Owner s' := by
  cases h with
  | free iomu held writers => exact .free (hiomu.trans iomu) (hwmu ▸ held) (hwriters ▸ writers)
  | direct iomu wmu left queued kind items reached writers =>
    exact .direct (hiomu.trans iomu) (hwmu.trans wmu) left queued kind items reached
      (hwriters ▸ writers)
  | flush iomu held writers kind items reached =>
    exact .flush (hiomu.trans iomu) (hwmu ▸ held) (hwriters.trans writers) kind items reached

/-- While the holder of `wmu` has not taken `iomu` it can be any. -/
theorem Owner.rehold (h : Owner s) (hold : ∀ g, s.wmu = some g → g.calls = none)
    (hiomu : s'.iomu = s.iomu) (hnew : ∀ g, s'.wmu = some g → g.calls = none)
    (hwriters : s'.writers = s.writers ∨
      s.writers = [] ∧ ∀ w ∈ s'.writers, w.flushes = false) : Owner s' := by
  cases h with
  | free iomu held writers =>
    refine .free (hiomu.trans iomu) hnew ?_
    rcases hwriters with heq | ⟨-, hw⟩
    · rw [heq]
      exact writers
    · exact hw
  | direct _ wmu left => cases (hold _ wmu).symm.trans left
  | flush iomu held writers kind items reached =>
    refine .flush (hiomu.trans iomu) hnew ?_ kind items reached
    rcases hwriters with heq | ⟨hnil, -⟩
    · exact heq.trans writers
    · cases hnil.symm.trans writers

/-- Who is to join the queue does not write. -/
theorem Owner.calls_queued (h : Owner s) {g : Held} (hw : s.wmu = some g)
    (hq : g.queued = true) : ∀ g', s.wmu = some g' → g'.calls = none := by
  cases h with
  | free _ held => exact held
  | direct _ wmu _ queued =>
    cases wmu.symm.trans hw
    exact absurd (queued.symm.trans hq) Bool.false_ne_true
  | flush _ held => exact held

/-- The queue without a writer gets one, if it is not running. -/
theorem Tended.writers_running (h : Tended s) {q : Queue} (hq : s.queue = some q) :
    (s.writers = [] ∧ q.running = false) ∨ ∃ w, s.writers = [w] ∧ q.running = true := by
  cases h with
  | bare queue => cases queue.symm.trans hq
  | idle queue writers running =>
    cases queue.symm.trans hq
    exact Or.inl ⟨writers, running⟩
  | busy busy =>
    cases busy.queue.symm.trans hq
    exact Or.inr ⟨_, busy.writers, busy.running⟩

theorem Good.step_owner (h : Good s) (hstep : Step D s a s') : Owner s' := by
  cases hstep with
  | attach => exact h.owner.congr rfl rfl rfl
  | adjust => exact h.owner.congr rfl rfl rfl
  | idle => exact h.owner.congr rfl rfl rfl
  | encode wmu _ =>
    refine h.owner.rehold (fun g hg => by cases wmu.symm.trans hg) rfl ?_ (Or.inl rfl)
    rintro g ⟨⟩
    rfl
  | refuse wmu _ queued _ =>
    exact h.owner.rehold (h.owner.calls_queued wmu queued) rfl
      (fun _ h => by cases h) (Or.inl rfl)
  | join wmu queue queued _ =>
    refine h.owner.rehold (h.owner.calls_queued wmu queued) rfl (fun _ h => by cases h) ?_
    rcases h.tended.writers_running queue with ⟨hw, hr⟩ | ⟨w, -, hr⟩
    · refine Or.inr ⟨hw, ?_⟩
      simp [hr, hw, Writer.flushes]
    · exact Or.inl (if_pos hr)
  | lock wmu iomu queued =>
    cases h.owner with
    | free _ _ writers =>
      refine .direct rfl rfl rfl queued rfl rfl (.start ?_) writers
      rw [Outgoing.flatten_calls, h.held _ wmu]
      simp
    | direct hi => cases hi.symm.trans iomu
    | flush hi => cases hi.symm.trans iomu
  | @write g burst b calls fault wmu iomu left =>
    cases h.owner with
    | free hi => cases hi.symm.trans iomu
    | direct hi hw hl queued kind items reached writers =>
      cases hi.symm.trans iomu
      cases hw.symm.trans wmu
      cases hl.symm.trans left
      exact .direct rfl rfl rfl queued (by simp [kind]) (by simp [items]) (reached.pass fault) writers
    | flush _ held => cases (held _ wmu).symm.trans left
  | unlock wmu iomu left =>
    cases h.owner with
    | free hi => cases hi.symm.trans iomu
    | direct _ _ _ _ _ _ _ writers => exact .free rfl (fun _ h => by cases h) writers
    | flush _ held => cases (held _ wmu).symm.trans left
  | exit writer queue empty =>
    obtain ⟨rfl, q, busy⟩ := h.busy writer
    refine h.owner.replace busy.writers rfl rfl rfl ?_
    simp [busy.writers]
  | take writer queue take =>
    obtain ⟨rfl, q, busy⟩ := h.busy writer
    refine h.owner.replace busy.writers rfl rfl rfl ?_
    simp [busy.writers, Writer.flushes]
  | @lockFlush i batch q writer queue iomu =>
    obtain ⟨rfl, q', busy⟩ := h.busy writer
    cases busy.queue.symm.trans queue
    cases h.owner with
    | free _ held _ =>
      have hcalls : (q.flushCalls s.conn.vectored).flatten = wire (batch.map Item.frame) := by
        rw [Queue.flatten_flushCalls, busy.serves.1, wire, List.flatMap_map, ← List.flatMap_def]
      refine .flush rfl held ?_ rfl rfl (.start hcalls)
      rw [busy.writers, List.set_cons_zero]
    | direct hi => cases hi.symm.trans iomu
    | flush hi => cases hi.symm.trans iomu
  | @flush i batch b calls burst fault writer iomu =>
    obtain ⟨rfl, q, busy⟩ := h.busy writer
    cases h.owner with
    | free hi => cases hi.symm.trans iomu
    | direct _ _ _ _ _ _ _ hw => cases hw _ (List.mem_of_getElem? writer)
    | flush hi held hw kind items reached =>
      cases hi.symm.trans iomu
      cases hw.symm.trans busy.writers
      refine .flush rfl held ?_ (by simp [kind]) ((Burst.items_pass fault).trans items)
        (reached.pass fault)
      rw [busy.writers, List.set_cons_zero]
  | unlockFlush writer iomu =>
    obtain ⟨rfl, q, busy⟩ := h.busy writer
    cases h.owner with
    | free hi => cases hi.symm.trans iomu
    | direct _ _ _ _ _ _ _ hw => cases hw _ (List.mem_of_getElem? writer)
    | flush hi held hw kind items reached =>
      refine .free rfl held ?_
      simp [busy.writers, Writer.flushes]
  | settle writer queue =>
    obtain ⟨rfl, q, busy⟩ := h.busy writer
    refine h.owner.replace busy.writers rfl rfl rfl ?_
    simp [busy.writers, Writer.flushes]
  | fail writer queue =>
    obtain ⟨rfl, q, busy⟩ := h.busy writer
    refine h.owner.replace busy.writers rfl rfl rfl ?_
    simp [busy.writers]

theorem Counts.congr {q q' : Queue} (h : Counts s q)
    (horder : s'.enqueued = s'.settled ++ s'.writers.flatMap Writer.batch ++ s'.waiting)
    (henqueued : s'.enqueued = s.enqueued) (hsettled : s'.settled = s.settled)
    (hq : q'.enqueued = q.enqueued ∧ q'.written = q.written)
    (hcur : q'.segments = [] → q'.cur = none) : Counts s' q' :=
  ⟨horder, by rw [hq.1, h.enqueued, henqueued], by rw [hq.2, h.written, hsettled], hcur⟩

theorem Tended.congr (h : Tended s) (hqueue : s'.queue = s.queue)
    (hwriters : s'.writers = s.writers) (hwaiting : s'.waiting = s.waiting)
    (henqueued : s'.enqueued = s.enqueued) (hsettled : s'.settled = s.settled) : Tended s' := by
  have hcounts : ∀ {q}, Counts s q → Counts s' q := fun h =>
    h.congr (by rw [henqueued, hsettled, hwriters, hwaiting, h.order]) henqueued hsettled ⟨rfl, rfl⟩
      h.cur
  cases h with
  | bare queue writers waiting enqueued settled =>
    exact .bare (hqueue.trans queue) (hwriters.trans writers) (hwaiting.trans waiting)
      (henqueued.trans enqueued) (hsettled.trans settled)
  | idle queue writers running waiting segments counts =>
    exact .idle (hqueue.trans queue) (hwriters.trans writers) running (hwaiting.trans waiting)
      segments fun he => ⟨hcounts (counts he).1, (counts he).2⟩
  | busy busy =>
    exact .busy ⟨hqueue.trans busy.queue, hwriters.trans busy.writers, busy.running, busy.err,
      busy.serves, hwaiting ▸ busy.holds, hcounts busy.counts⟩

theorem Busy.set {q : Queue} {w : Writer} (h : Busy s q w) (w' : Writer) :
    s.writers.set 0 w' = [w'] := by
  rw [h.writers, List.set_cons_zero]

/-- The writer goes on with the batch it has. -/
theorem Busy.advance {q : Queue} {w w' : Writer} (h : Busy s q w) (hqueue : s'.queue = s.queue)
    (hwriters : s'.writers = [w']) (hwaiting : s'.waiting = s.waiting)
    (henqueued : s'.enqueued = s.enqueued) (hsettled : s'.settled = s.settled)
    (hbatch : w'.batch = w.batch) (hserves : w'.Serves q) : Tended s' := by
  refine .busy ⟨hqueue.trans h.queue, hwriters, h.running, h.err, hserves, hwaiting ▸ h.holds,
    h.counts.congr ?_ henqueued hsettled ⟨rfl, rfl⟩ h.counts.cur⟩
  rw [henqueued, hsettled, hwaiting, hwriters, h.counts.order, h.writers]
  simp [hbatch]

/-- A frame joins the queue. -/
theorem Good.tended_join (h : Good s) {g : Held} {q : Queue} (wmu : s.wmu = some g)
    (queue : s.queue = some q) (err : q.err = none) :
    Tended { s with
      queue := some (q.enqueue g.out).2,
      writers := if q.running then s.writers else s.writers ++ [.ready],
      waiting := s.waiting ++ [g.out.item],
      enqueued := s.enqueued ++ [g.out.item] } := by
  have hspec := Queue.enqueue_spec err g.out
  have hbytes := h.held g wmu
  cases h.tended with
  | bare hq => cases hq.symm.trans queue
  | idle hq writers running waiting segments counts =>
    cases hq.symm.trans queue
    obtain ⟨counts, flushing⟩ := counts err
    have hholds : Queue.Holds q.cur q.segments [] := by
      rw [segments]
      exact ⟨rfl, fun _ h => by cases h⟩
    refine .busy (w := .ready) ⟨rfl, by simp [running, writers], hspec.running, hspec.err,
      hspec.flushing.trans flushing, ?_, ?_⟩
    · have hnew := hspec.holds hholds
      rw [hbytes] at hnew
      simpa [waiting] using hnew
    · refine ⟨?_, ?_, hspec.written.trans counts.written, fun hnil => ?_⟩
      · simp [counts.order, writers, running, waiting, Writer.batch]
      · simp [hspec.enqueued, counts.enqueued]
      · have hlen := (hspec.holds hholds).length
        simp [hnil] at hlen
  | @busy q' w busy =>
    cases busy.queue.symm.trans queue
    have hwriters : (if q.running then s.writers else s.writers ++ [.ready]) = [w] := by
      rw [if_pos busy.running, busy.writers]
    refine .busy (w := w) ⟨rfl, hwriters, hspec.running, hspec.err, ?_, ?_, ?_⟩
    · have hserves := busy.serves
      cases w with
      | ready => exact hspec.flushing.trans hserves
      | taken batch =>
        show Queue.Holds _ _ _
        rw [hspec.flushing, hspec.flushSegments]
        exact hserves
      | flushing batch calls => exact (congrArg List.length hspec.flushSegments).trans hserves
      | flushed batch err => exact (congrArg List.length hspec.flushSegments).trans hserves
    · have hnew := hspec.holds busy.holds
      rw [hbytes] at hnew
      simpa using hnew
    · refine ⟨?_, ?_, hspec.written.trans busy.counts.written, fun hnil => ?_⟩
      · dsimp only
        rw [hwriters, busy.counts.order, busy.writers]
        simp
      · simp [hspec.enqueued, busy.counts.enqueued]
      · have hlen := (hspec.holds busy.holds).length
        simp [hnil] at hlen

/-- A new queue is empty, and a new limit changes nothing else. -/
theorem Tended.attach (h : Tended s) (queue : s.queue = none) (limit : ℤ) :
    Tended { s with queue := some (Ews.newQueue limit) } := by
  cases h with
  | bare _ writers waiting enqueued settled =>
    refine .idle rfl writers rfl waiting rfl fun _ => ⟨⟨?_, ?_, ?_, fun _ => rfl⟩, rfl⟩
    · simp [enqueued, settled, writers, waiting]
    · simp [Ews.newQueue, enqueued]
    · simp [Ews.newQueue, settled]
  | idle hq => cases hq.symm.trans queue
  | busy busy => cases busy.queue.symm.trans queue

theorem Tended.adjust (h : Tended s) {q : Queue} (queue : s.queue = some q) (limit : ℤ) :
    Tended { s with queue := some (q.adjust limit) } := by
  unfold Queue.adjust
  split_ifs
  · cases h with
    | bare hq => cases hq.symm.trans queue
    | idle hq writers running waiting segments counts =>
      cases hq.symm.trans queue
      exact .idle rfl writers running waiting segments fun he =>
        ⟨(counts he).1.congr (counts he).1.order rfl rfl ⟨rfl, rfl⟩ (counts he).1.cur, (counts he).2⟩
    | @busy q' w busy =>
      cases busy.queue.symm.trans queue
      have hserves : w.Serves { q with limit := limit } := by
        have hserves := busy.serves
        cases w <;> exact hserves
      exact .busy ⟨rfl, busy.writers, busy.running, busy.err, hserves, busy.holds,
        busy.counts.congr busy.counts.order rfl rfl ⟨rfl, rfl⟩ busy.counts.cur⟩
  · exact h.congr queue.symm rfl rfl rfl rfl

theorem Good.step_tended (h : Good s) (hstep : Step D s a s') : Tended s' := by
  cases hstep with
  | attach _ queue => exact h.tended.attach queue _
  | adjust _ queue => exact h.tended.adjust queue _
  | idle => exact h.tended.congr rfl rfl rfl rfl rfl
  | encode => exact h.tended.congr rfl rfl rfl rfl rfl
  | refuse _ queue => exact h.tended.congr queue.symm rfl rfl rfl rfl
  | join wmu queue _ err => exact (h.tended_join wmu queue err).congr rfl rfl rfl rfl rfl
  | lock => exact h.tended.congr rfl rfl rfl rfl rfl
  | write => exact h.tended.congr rfl rfl rfl rfl rfl
  | unlock => exact h.tended.congr rfl rfl rfl rfl rfl
  | exit writer queue empty =>
    obtain ⟨rfl, q, busy⟩ := h.busy writer
    cases busy.queue.symm.trans queue
    have hsegments := Queue.take_none busy.err empty
    have hwaiting : s.waiting = [] := by
      have hlen := busy.holds.length
      rw [hsegments, List.length_map] at hlen
      exact List.length_eq_zero_iff.mp hlen.symm
    refine .idle rfl (by simp [busy.writers]) rfl hwaiting hsegments fun _ =>
      ⟨busy.counts.congr ?_ rfl rfl ⟨rfl, rfl⟩ busy.counts.cur, busy.serves⟩
    simp [busy.counts.order, busy.writers, Writer.batch]
  | take writer queue take =>
    obtain ⟨rfl, q, busy⟩ := h.busy writer
    cases busy.queue.symm.trans queue
    obtain ⟨-, rfl⟩ := Queue.take_some take
    refine .busy ⟨rfl, busy.set _, busy.running, busy.err, busy.holds, ⟨rfl, fun _ h => by cases h⟩,
      busy.counts.congr ?_ rfl rfl ⟨rfl, rfl⟩ fun _ => rfl⟩
    simp [busy.counts.order, busy.writers, Writer.batch]
  | lockFlush writer queue iomu =>
    obtain ⟨rfl, q, busy⟩ := h.busy writer
    have hlen : q.flushSegments.length = _ := busy.serves.length
    rw [List.length_map] at hlen
    exact busy.advance rfl (busy.set _) rfl rfl rfl rfl hlen
  | flush writer iomu =>
    obtain ⟨rfl, q, busy⟩ := h.busy writer
    have hlen : q.flushSegments.length = _ := busy.serves
    exact busy.advance rfl (busy.set _) rfl rfl rfl rfl hlen
  | unlockFlush writer iomu =>
    obtain ⟨rfl, q, busy⟩ := h.busy writer
    have hlen : q.flushSegments.length = _ := busy.serves
    exact busy.advance rfl (busy.set _) rfl rfl rfl rfl hlen
  | @settle _ batch q writer queue =>
    obtain ⟨rfl, q', busy⟩ := h.busy writer
    cases busy.queue.symm.trans queue
    have hlen : q.flushSegments.length = batch.length := busy.serves
    refine .busy (w := .ready) ⟨rfl, busy.set _, busy.running, busy.err, rfl, busy.holds,
      ⟨?_, busy.counts.enqueued, ?_, busy.counts.cur⟩⟩
    · simp [busy.counts.order, busy.writers, Writer.batch]
    · simp [Queue.account, busy.counts.written, hlen]
  | @fail _ batch e _ writer queue =>
    obtain ⟨rfl, q, busy⟩ := h.busy writer
    exact .idle rfl (by simp [busy.writers]) rfl rfl rfl fun h => by cases h

/-- One more burst. -/
theorem delivered_append (bursts : List Burst) (b : Burst) : delivered (bursts ++ [b]) =
    delivered bursts ++ if b.queued && b.err.isNone then b.items else [] := by
  cases hb : b.queued && b.err.isNone <;> simp [delivered, List.filter_append, hb]

theorem Good.step_delivered (h : Good s) (hstep : Step D s a s') :
    Ews.delivered s'.past = s'.settled ++ s'.writers.flatMap Writer.sent := by
  have hd := h.delivered
  cases hstep with
  | join wmu queue =>
    refine hd.trans ?_
    dsimp only
    split_ifs <;> simp [Writer.sent]
  | unlock wmu iomu left =>
    cases h.owner with
    | free hi => cases hi.symm.trans iomu
    | direct hi _ _ _ kind =>
      cases hi.symm.trans iomu
      rw [delivered_append, hd, kind]
      simp
    | flush _ held => cases (held _ wmu).symm.trans left
  | exit writer queue empty =>
    obtain ⟨rfl, q, busy⟩ := h.busy writer
    simpa [busy.writers, Writer.sent] using hd
  | take writer queue take =>
    obtain ⟨rfl, q, busy⟩ := h.busy writer
    simpa [busy.writers, Writer.sent] using hd
  | lockFlush writer queue iomu =>
    obtain ⟨rfl, q, busy⟩ := h.busy writer
    simpa [busy.writers, Writer.sent] using hd
  | flush writer iomu =>
    obtain ⟨rfl, q, busy⟩ := h.busy writer
    simpa [busy.writers, Writer.sent] using hd
  | @unlockFlush i batch burst writer iomu =>
    obtain ⟨rfl, q, busy⟩ := h.busy writer
    cases h.owner with
    | free hi => cases hi.symm.trans iomu
    | direct _ _ _ _ _ _ _ hw => cases hw _ (List.mem_of_getElem? writer)
    | flush hi held hw kind items reached =>
      cases hi.symm.trans iomu
      cases hw.symm.trans busy.writers
      rw [delivered_append, hd, kind, items]
      cases he : burst.err <;> simp [busy.writers, Writer.sent]
  | settle writer queue =>
    obtain ⟨rfl, q, busy⟩ := h.busy writer
    simpa [busy.writers, Writer.sent] using hd
  | fail writer queue =>
    obtain ⟨rfl, q, busy⟩ := h.busy writer
    simpa [busy.writers, Writer.sent] using hd
  | _ => exact hd

/-- Every step keeps the invariant. -/
theorem Good.step (h : Good s) (hstep : Step D s a s') : Good s' where
  sound := h.step_sound hstep
  held := h.step_held hstep
  joins := h.step_joins hstep
  direct := h.step_direct hstep
  owner := h.step_owner hstep
  tended := h.step_tended hstep
  finished := h.step_finished hstep
  delivered := h.step_delivered hstep

theorem Good.run (h : Good s) {acts : List Act} (hrun : s.run D acts = some s') : Good s' :=
  run_keeps (fun _ _ _ hs hstep => hs.step hstep) h hrun

/-- The write side of a new connection has no message open. -/
theorem sound_ofConfig {cfg : Config} {vectored : Bool} {keys : ℕ → MaskKey}
    {pool : (kind : EncoderKind) → ℕ → Option { c : Compressor // c.Idle kind }} {c : WriteSide}
    (h : WriteSide.ofConfig cfg vectored keys pool = .ok c) : c.Sound := by
  unfold WriteSide.ofConfig at h
  split_ifs at h
  cases h
  exact ⟨Or.inl rfl, fun h0 => absurd rfl h0⟩

/-! ## The bookkeeping of the queue -/

/-- The frames in flight : those a writer has taken and not accounted for. -/
def inFlight (s : Shared) (q : Queue) : ℕ :=
  if s.writers.any Writer.working then q.flushSegments.length else 0

/-- The bursts of the queue. -/
def flushes (s : Shared) : List Burst :=
  s.bursts.filter Burst.queued

theorem Busy.inFlight {q : Queue} {w : Writer} (h : Busy s q w) : s.inFlight q = w.batch.length := by
  have hserves := h.serves
  rw [Shared.inFlight, h.writers]
  cases w with
  | ready => rfl
  | taken batch => simpa [Writer.working, Writer.batch] using hserves.length
  | flushing batch calls => exact hserves
  | flushed batch err => exact hserves

/-- What is enqueued and not written is queued or in flight. -/
theorem Good.enqueued_eq (h : Good s) {q : Queue} (hq : s.queue = some q) (herr : q.err = none) :
    q.enqueued = q.written + q.segments.length + s.inFlight q := by
  cases h.tended with
  | bare queue => cases queue.symm.trans hq
  | idle queue writers running waiting segments counts =>
    cases queue.symm.trans hq
    obtain ⟨counts, -⟩ := counts herr
    rw [counts.enqueued, counts.written, counts.order, segments, inFlight, writers, waiting]
    simp
  | @busy q' w busy =>
    cases busy.queue.symm.trans hq
    have hlen := busy.holds.length
    have horder := congrArg List.length busy.counts.order
    rw [List.length_map] at hlen
    simp only [busy.writers, List.flatMap_cons, List.flatMap_nil, List.append_nil,
      List.length_append] at horder
    rw [busy.counts.enqueued, busy.counts.written, busy.inFlight, hlen]
    omega

/-- A queue with frames has a writer, unless it has failed. -/
theorem Good.running (h : Good s) {q : Queue} (hq : s.queue = some q) (hne : q.segments ≠ []) :
    s.writers.length = 1 ∧ q.running = true := by
  cases h.tended with
  | bare queue => cases queue.symm.trans hq
  | idle queue _ _ _ segments =>
    cases queue.symm.trans hq
    exact absurd segments hne
  | busy busy =>
    cases busy.queue.symm.trans hq
    exact ⟨by rw [busy.writers]; rfl, busy.running⟩

/-- A queue without a writer has written everything and holds no arena, unless it has failed. -/
theorem Good.rest (h : Good s) {q : Queue} (hq : s.queue = some q) (herr : q.err = none)
    (hidle : q.running = false) :
    q.written = q.enqueued ∧ q.cur = none ∧ q.flushing = none ∧ s.writers = [] := by
  have heq := h.enqueued_eq hq herr
  cases h.tended with
  | bare queue => cases queue.symm.trans hq
  | idle queue writers running waiting segments counts =>
    cases queue.symm.trans hq
    obtain ⟨counts, flushing⟩ := counts herr
    rw [segments, inFlight, writers] at heq
    exact ⟨by simpa using heq.symm, counts.cur segments, flushing, writers⟩
  | busy busy =>
    cases busy.queue.symm.trans hq
    exact absurd (busy.running.symm.trans hidle) (by decide)

/-- What was waited for with success was flushed with success. -/
theorem Good.waited (h : Good s) {q : Queue} (hq : s.queue = some q) {seq : ℕ}
    (hw : q.waited seq = some none) : s.enqueued.take seq <+: Ews.delivered s.past := by
  unfold Queue.waited at hw
  split_ifs at hw with hmore
  have herr : q.err = none := Option.some.inj hw
  have hle : seq ≤ q.written := by
    by_contra hlt
    exact hmore ⟨by omega, herr⟩
  have hsettled : s.enqueued.take seq = s.settled.take seq := by
    cases h.tended with
    | bare queue => cases queue.symm.trans hq
    | idle queue _ _ _ _ counts =>
      cases queue.symm.trans hq
      rw [(counts herr).1.written] at hle
      rw [(counts herr).1.order, List.append_assoc, List.take_append_of_le_length hle]
    | busy busy =>
      cases busy.queue.symm.trans hq
      rw [busy.counts.written] at hle
      rw [busy.counts.order, List.append_assoc, List.take_append_of_le_length hle]
  rw [hsettled, h.delivered]
  exact (List.take_prefix _ _).trans (List.prefix_append _ _)

/-- A queue that has failed with `e`, after `n` frames and the bursts `bs`. -/
structure Failed (s : Shared) (e : Err) (n : ℕ) (items : List Item) (bs : List Burst) : Prop where
  good : Good s
  queue : ∃ q, s.queue = some q ∧ q.err = some e ∧ q.enqueued = n
  enqueued : s.enqueued = items
  flushes : s.flushes = bs

variable {e : Err} {n : ℕ} {items : List Item} {bs : List Burst}

theorem Failed.writers (h : Failed s e n items bs) : s.writers = [] := by
  obtain ⟨q, hq, herr, -⟩ := h.queue
  cases h.good.tended with
  | bare _ writers => exact writers
  | idle _ writers => exact writers
  | busy busy =>
    cases busy.queue.symm.trans hq
    cases busy.err.symm.trans herr

/-- A direct burst is no flush. -/
theorem flushes_direct {burst : Burst} (hiomu : s.iomu = some burst) (hkind : burst.queued = false) :
    s.flushes = s.past.filter Burst.queued := by
  simp [flushes, bursts, hiomu, hkind]

theorem flushes_free (hiomu : s.iomu = none) : s.flushes = s.past.filter Burst.queued := by
  simp [flushes, bursts, hiomu]

/-- A failed queue stays as it is. -/
theorem Failed.step (h : Failed s e n items bs) (hstep : Step D s a s') :
    Failed s' e n items bs := by
  have hgood := h.good.step hstep
  have hwriters := h.writers
  obtain ⟨q, hq, herr, hn⟩ := h.queue
  have hdirect : ∀ {burst : Burst}, s.iomu = some burst → burst.queued = false := by
    intro burst hi
    cases h.good.owner with
    | free hi' => cases hi'.symm.trans hi
    | direct hi' _ _ _ kind =>
      cases hi'.symm.trans hi
      exact kind
    | flush _ _ hw => cases hwriters.symm.trans hw
  cases hstep with
  | attach _ queue => cases queue.symm.trans hq
  | adjust _ queue =>
    cases queue.symm.trans hq
    refine ⟨hgood, ⟨_, rfl, ?_⟩, h.enqueued, h.flushes⟩
    unfold Queue.adjust
    split_ifs <;> exact ⟨herr, hn⟩
  | idle => exact ⟨hgood, h.queue, h.enqueued, h.flushes⟩
  | encode => exact ⟨hgood, h.queue, h.enqueued, h.flushes⟩
  | refuse _ queue =>
    cases queue.symm.trans hq
    exact ⟨hgood, ⟨q, rfl, herr, hn⟩, h.enqueued, h.flushes⟩
  | join _ queue _ err =>
    cases queue.symm.trans hq
    cases err.symm.trans herr
  | lock wmu iomu queued =>
    refine ⟨hgood, h.queue, h.enqueued, ?_⟩
    rw [flushes_direct rfl rfl, ← h.flushes, flushes_free iomu]
  | write wmu iomu left =>
    refine ⟨hgood, h.queue, h.enqueued, ?_⟩
    rw [flushes_direct rfl ((Burst.queued_pass _).trans (hdirect iomu)), ← h.flushes,
      flushes_direct iomu (hdirect iomu)]
  | unlock wmu iomu left =>
    refine ⟨hgood, h.queue, h.enqueued, ?_⟩
    rw [flushes_free rfl, ← h.flushes, flushes_direct iomu (hdirect iomu)]
    simp [hdirect iomu]
  | exit writer => simp [hwriters] at writer
  | take writer => simp [hwriters] at writer
  | lockFlush writer => simp [hwriters] at writer
  | flush writer => simp [hwriters] at writer
  | unlockFlush writer => simp [hwriters] at writer
  | settle writer => simp [hwriters] at writer
  | fail writer => simp [hwriters] at writer

theorem Failed.run (h : Failed s e n items bs) {acts : List Act} (hrun : s.run D acts = some s') :
    Failed s' e n items bs :=
  run_keeps (P := fun s => Failed s e n items bs) (fun _ _ _ hs hstep => hs.step hstep) h hrun

/-- The frame that waits to join the queue. -/
def joining (s : Shared) : List Item :=
  match s.wmu with
  | some h => if h.queued then [h.out.item] else []
  | none => []

/-- No write has failed. -/
structure Smooth (s : Shared) : Prop where
  queue : ∀ q, s.queue = some q → q.err = none
  bursts : ∀ b ∈ s.bursts, b.err = none
  writers : ∀ w ∈ s.writers, ∀ batch e, w ≠ .flushed batch (some e)
  encoded : s.encoded = s.enqueued ++ s.joining

theorem Smooth.init {c : WriteSide} : Smooth { conn := c } :=
  ⟨fun _ h => (by cases h), fun _ h => (by cases h), fun _ h => (by cases h), rfl⟩

theorem bursts_free (h : s.iomu = none) : s.bursts = s.past := by
  simp [bursts, h]

theorem bursts_held {burst : Burst} (h : s.iomu = some burst) : s.bursts = s.past ++ [burst] := by
  simp [bursts, h]

theorem joining_held {g : Held} (h : s.wmu = some g) :
    s.joining = if g.queued then [g.out.item] else [] := by
  simp [joining, h]

theorem joining_free (h : s.wmu = none) : s.joining = [] := by
  simp [joining, h]

/-- A write that meets no fault. -/
theorem Smooth.pass (h : Smooth s) {burst : Burst} (hi : s.iomu = some burst) (b : List UInt8)
    {fault : Fault} (hf : fault.isNone = true) :
    ∀ b' ∈ s.past ++ [burst.pass b fault], b'.err = none := by
  have hall := h.bursts
  rw [bursts_held hi] at hall
  intro b' hb
  rcases List.mem_append.mp hb with hb | hb
  · exact hall b' (List.mem_append_left _ hb)
  · rw [List.mem_singleton.mp hb, Option.isNone_iff_eq_none.mp hf]
    exact hall burst (by simp)

theorem Smooth.bursts_unlock (h : Smooth s) {burst : Burst} (hi : s.iomu = some burst) :
    ∀ b' ∈ s.past ++ [burst], b'.err = none := by
  rw [← bursts_held hi]
  exact h.bursts

/-- A step that meets no fault, in a run without any. -/
theorem Smooth.step (h : Smooth s) (hgood : Good s) (hcalm : a.calm = true)
    (hstep : Step D s a s') : Smooth s' := by
  obtain ⟨hqueue, hbursts, hwriters, hencoded⟩ := h
  have h : Smooth s := ⟨hqueue, hbursts, hwriters, hencoded⟩
  cases hstep with
  | attach => exact ⟨fun q hq => Option.some.inj hq ▸ rfl, hbursts, hwriters, hencoded⟩
  | @adjust limit q _ queue =>
    refine ⟨fun q' hq => Option.some.inj hq ▸ ?_, hbursts, hwriters, hencoded⟩
    have herr := hqueue _ queue
    unfold Queue.adjust
    split_ifs <;> exact herr
  | idle wmu =>
    exact ⟨hqueue, hbursts, hwriters, hencoded⟩
  | @encode o out c wmu =>
    refine ⟨hqueue, hbursts, hwriters, ?_⟩
    rw [joining_free wmu, List.append_nil] at hencoded
    rw [joining_held rfl]
    cases o.joins && s.queue.isSome <;> simp [hencoded]
  | refuse _ queue _ err => cases (hqueue _ queue).symm.trans err
  | join wmu queue queued err =>
    refine ⟨fun q hq => Option.some.inj hq ▸ (Queue.enqueue_spec err _).err, hbursts, ?_, ?_⟩
    · intro w hw
      dsimp only at hw
      split_ifs at hw
      · exact hwriters w hw
      · rcases List.mem_append.mp hw with hw | hw
        · exact hwriters w hw
        · rw [List.mem_singleton.mp hw]
          rintro _ _ ⟨⟩
    · rw [joining_free rfl, List.append_nil, hencoded, joining_held wmu, if_pos queued]
  | lock wmu iomu queued =>
    rw [joining_held wmu] at hencoded
    refine ⟨hqueue, ?_, hwriters, hencoded⟩
    rw [bursts_held rfl]
    rw [bursts_free iomu] at hbursts
    simp only [List.mem_append, List.mem_singleton]
    rintro b (hb | rfl)
    · exact hbursts b hb
    · rfl
  | write wmu iomu left =>
    rw [joining_held wmu] at hencoded
    exact ⟨hqueue, h.pass iomu _ hcalm, hwriters, hencoded⟩
  | unlock wmu iomu left =>
    refine ⟨hqueue, ?_, hwriters, ?_⟩
    · rw [bursts_free rfl]
      exact h.bursts_unlock iomu
    · rw [hencoded, joining_held wmu, joining_free rfl]
      cases hgood.owner with
      | free hi => cases hi.symm.trans iomu
      | direct _ hw _ queued =>
        cases hw.symm.trans wmu
        rw [queued]
        rfl
      | flush _ held => cases (held _ wmu).symm.trans left
  | exit writer queue empty =>
    obtain ⟨rfl, q, busy⟩ := hgood.busy writer
    cases busy.queue.symm.trans queue
    exact ⟨fun q hq => Option.some.inj hq ▸ busy.err, hbursts, by simp [busy.writers], hencoded⟩
  | take writer queue take =>
    obtain ⟨rfl, q, busy⟩ := hgood.busy writer
    cases busy.queue.symm.trans queue
    obtain ⟨-, rfl⟩ := Queue.take_some take
    exact ⟨fun q hq => Option.some.inj hq ▸ busy.err, hbursts, by simp [busy.writers], hencoded⟩
  | lockFlush writer queue iomu =>
    obtain ⟨rfl, q, busy⟩ := hgood.busy writer
    refine ⟨hqueue, ?_, by simp [busy.writers], hencoded⟩
    rw [bursts_held rfl]
    rw [bursts_free iomu] at hbursts
    simp only [List.mem_append, List.mem_singleton]
    rintro b (hb | rfl)
    · exact hbursts b hb
    · rfl
  | flush writer iomu =>
    obtain ⟨rfl, q, busy⟩ := hgood.busy writer
    exact ⟨hqueue, h.pass iomu _ hcalm, by simp [busy.writers], hencoded⟩
  | unlockFlush writer iomu =>
    obtain ⟨rfl, q, busy⟩ := hgood.busy writer
    have hall := h.bursts_unlock iomu
    refine ⟨hqueue, ?_, ?_, hencoded⟩
    · rw [bursts_free rfl]
      exact hall
    · simp [busy.writers, hall _ (List.mem_append_right _ (List.mem_singleton_self _))]
  | settle writer queue =>
    obtain ⟨rfl, q, busy⟩ := hgood.busy writer
    cases busy.queue.symm.trans queue
    exact ⟨fun q hq => Option.some.inj hq ▸ busy.err, hbursts, by simp [busy.writers], hencoded⟩
  | fail writer => exact absurd rfl (hwriters _ (List.mem_of_getElem? writer) _ _)

theorem Smooth.run {c : WriteSide} (hc : c.Sound) {acts : List Act}
    (hrun : Shared.run D { conn := c } acts = some s) (hcalm : ∀ a ∈ acts, a.calm = true) :
    Good s ∧ Smooth s :=
  run_induct (P := fun s => Good s ∧ Smooth s) (p := fun _ a => a.calm)
    (fun _ _ _ hs ha hstep => ⟨hs.1.step hstep, hs.2.step hs.1 ha hstep⟩) acts
    ⟨Good.init hc, Smooth.init⟩ hrun (along_of_forall _ fun a ha _ => hcalm a ha)

/-- The frames of the queue that were given to the transport : those of the flushes that are
over, and of the one under way. -/
theorem Owner.flushes_eq (h : Owner s) : s.flushes.flatMap Burst.items =
    (s.past.filter Burst.queued).flatMap Burst.items ++ s.writers.flatMap Writer.going := by
  have hgoing : (∀ w ∈ s.writers, w.flushes = false) → s.writers.flatMap Writer.going = [] := by
    intro hno
    refine List.flatMap_eq_nil_iff.mpr fun w hw => ?_
    have := hno w hw
    cases w <;> first | rfl | cases this
  cases h with
  | free iomu _ writers => rw [flushes_free iomu, hgoing writers, List.append_nil]
  | direct iomu _ _ _ kind _ _ writers =>
    rw [flushes_direct iomu kind, hgoing writers, List.append_nil]
  | flush iomu _ writers kind items =>
    simp [flushes, bursts, iomu, kind, writers, items, Writer.going]

theorem Tended.order (h : Tended s) (herr : ∀ q, s.queue = some q → q.err = none) :
    s.enqueued = s.settled ++ s.writers.flatMap Writer.batch ++ s.waiting ∧
      s.writers.length ≤ 1 := by
  cases h with
  | bare _ writers waiting enqueued settled => simp [writers, waiting, enqueued, settled]
  | idle queue writers _ _ _ counts =>
    exact ⟨(counts (herr _ queue)).1.order, by simp [writers]⟩
  | busy busy => exact ⟨busy.counts.order, by simp [busy.writers]⟩

/-- What is enqueued is written, in the order of the queue, or it waits. -/
theorem Smooth.enqueued_eq (h : Smooth s) (hgood : Good s) :
    s.enqueued = s.flushes.flatMap Burst.items ++ s.backlog := by
  have hdelivered : Ews.delivered s.past = (s.past.filter Burst.queued).flatMap Burst.items := by
    rw [Ews.delivered]
    congr 1
    exact List.filter_congr fun b hb => by simp [h.bursts b (List.mem_append_left _ hb)]
  have hbatch : ∀ w ∈ s.writers, w.batch = w.sent ++ w.going ++ w.unsent := by
    intro w hw
    have hno := h.writers w hw
    cases w with
    | flushed batch err =>
      cases err with
      | none => simp [Writer.batch, Writer.sent, Writer.going, Writer.unsent]
      | some e => exact absurd rfl (hno batch e)
    | _ => simp [Writer.batch, Writer.sent, Writer.going, Writer.unsent]
  obtain ⟨horder, hlen⟩ := hgood.tended.order h.queue
  rw [hgood.owner.flushes_eq, ← hdelivered, hgood.delivered, backlog, horder]
  match hw : s.writers, hlen with
  | [], _ => simp
  | [w], _ => simp [hbatch w (by simp [hw])]

/-- The bytes of bursts without an error, the last one under way. -/
theorem Smooth.accepted_eq (h : Smooth s) (hgood : Good s) : ∃ begun,
    s.accepted = wire ((s.past.flatMap Burst.items).map Item.frame) ++ begun ∧
      begun <+: wire ((s.iomu.toList.flatMap Burst.items).map Item.frame) := by
  refine ⟨s.iomu.toList.flatMap Burst.accepted, ?_, ?_⟩
  · rw [accepted, Shared.bursts, List.flatMap_append, wire, List.flatMap_map, List.flatMap_assoc]
    congr 1
    refine List.flatMap_congr fun b hb => ?_
    rw [(hgood.finished b hb).accepted_eq (h.bursts b (List.mem_append_left _ hb)), Burst.bytes, wire,
      List.flatMap_map]
  · cases hgood.owner with
    | free iomu => simp [iomu]
    | direct iomu _ _ _ _ _ reached => simpa [iomu, Burst.bytes] using reached.accepted
    | flush iomu _ _ _ _ reached => simpa [iomu, Burst.bytes] using reached.accepted

/-- Over a transport that accepts every write the wire carries whole frames, the last of them
perhaps begun. The frames encoded for the queue are those of its bursts in their order, then
those that wait, then the one that is about to join. There is at most one writer, and as long as
there is none nothing waits. -/
theorem run_delivers {cfg : Config} {vectored : Bool} {keys : ℕ → MaskKey}
    {pool : (kind : EncoderKind) → ℕ → Option { c : Compressor // c.Idle kind }} {c : WriteSide}
    (hc : WriteSide.ofConfig cfg vectored keys pool = .ok c) {acts : List Act}
    (hrun : Shared.run D { conn := c } acts = some s) (hcalm : ∀ a ∈ acts, a.calm = true) :
    (∃ begun, s.accepted = wire ((s.past.flatMap Burst.items).map Item.frame) ++ begun ∧
      begun <+: wire ((s.iomu.toList.flatMap Burst.items).map Item.frame)) ∧
    s.enqueued = s.flushes.flatMap Burst.items ++ s.backlog ∧
    s.encoded = s.enqueued ++ s.joining ∧
    s.writers.length ≤ 1 ∧ (s.writers = [] → s.backlog = []) := by
  obtain ⟨hgood, hs⟩ := Smooth.run (sound_ofConfig hc) hrun hcalm
  refine ⟨hs.accepted_eq hgood, hs.enqueued_eq hgood, hs.encoded, (hgood.tended.order hs.queue).2,
    fun hw => ?_⟩
  cases hgood.tended with
  | bare _ _ waiting => simp [backlog, hw, waiting]
  | idle _ _ _ waiting => simp [backlog, hw, waiting]
  | busy busy => cases hw.symm.trans busy.writers

/-- A text by reference, a ping that comes before its flush, and a text from the arena that comes
while it is flushed. -/
theorem run_delivers_mixed :
    ∃ s p, prepare .text ⟨[104, 105], by decide⟩ = .ok p ∧
      Shared.run .mute { conn := .plain .server }
        [.newQueue 0, .start (.sendPrepared p), .enqueue, .start (.ping ⟨[], by decide⟩), .take 0,
          .lock, .write none, .unlock, .lockFlush 0, .start (.write .binary ⟨[7], by decide⟩),
          .enqueue, .flush 0 none, .unlockFlush 0, .account 0, .take 0, .lockFlush 0, .flush 0 none,
          .unlockFlush 0, .account 0, .take 0] = some s ∧
      s.accepted = [0x89, 0, 0x81, 2, 104, 105, 0x82, 1, 7] ∧ s.writers = [] ∧ s.backlog = [] := by
  obtain ⟨s, p, hp, hrun, haccepted, hw⟩ : ∃ s p,
      prepare .text ⟨[104, 105], by decide⟩ = .ok p ∧
      Shared.run .mute { conn := .plain .server }
        [.newQueue 0, .start (.sendPrepared p), .enqueue, .start (.ping ⟨[], by decide⟩), .take 0,
          .lock, .write none, .unlock, .lockFlush 0, .start (.write .binary ⟨[7], by decide⟩),
          .enqueue, .flush 0 none, .unlockFlush 0, .account 0, .take 0, .lockFlush 0, .flush 0 none,
          .unlockFlush 0, .account 0, .take 0] = some s ∧
      s.accepted = [0x89, 0, 0x81, 2, 104, 105, 0x82, 1, 7] ∧ s.writers = [] :=
    ⟨_, _, rfl, rfl, rfl, rfl⟩
  exact ⟨s, p, hp, hrun, haccepted, hw,
    (run_delivers (WriteSide.ofConfig_plain .server) hrun (by simp [Act.calm])).2.2.2.2 hw⟩

end Shared

end Ews
