import Ews.Delivery

/-!
# What follows a close

Over a transport that accepts every write the frames of a connection have an order
(`Shared.order`) : those given to the transport, those that wait, and the one just encoded. Only
two things change it (`step_order`) : an operation encodes one more frame, or a frame that
does not join the queue goes ahead of those that wait.

An encoded close is followed by nothing but pongs. The close of `sendClose` does not join the
queue, so data that waits comes after it on the wire (`close_overtakes`) ; if nothing waits when
`sendClose` is called the close is the end (`close_ends`).
-/

set_option linter.unusedSectionVars false

namespace Ews

namespace Shared

variable {D : Deflater} {s s' : Shared} {a : Act}

/-- The frame of the holder of `wmu` that has not begun to write. -/
def pending (s : Shared) : List Item :=
  match s.wmu with
  | some h => if h.calls.isNone then [h.out.item] else []
  | none => []

/-- The frames of the connection, in the order in which they come to the wire unless some frame
goes ahead. -/
def order (s : Shared) : List Item :=
  s.bursts.flatMap Burst.items ++ s.backlog ++ s.pending

theorem pending_free (h : s.wmu = none) : s.pending = [] := by
  simp [pending, h]

theorem pending_held {g : Held} (h : s.wmu = some g) (hc : g.calls = none) :
    s.pending = [g.out.item] := by
  simp [pending, h, hc]

theorem pending_writing {g : Held} {calls : List (List UInt8)} (h : s.wmu = some g)
    (hc : g.calls = some calls) : s.pending = [] := by
  simp [pending, h, hc]

/-- What a step does to the order. -/
inductive Reorder (D : Deflater) (s : Shared) (a : Act) (s' : Shared) : Prop
  | same (order : s'.order = s.order) (closeSent : s'.conn.tx.closeSent = s.conn.tx.closeSent)
  | encode {o : Op} {out : Outgoing} {c : WriteSide} (act : a = .start o) (wmu : s.wmu = none)
      (start : s.conn.start D (fun n => s.queue.bind (·.reserve n)) o = (.ok (some out), c))
      (conn : s'.conn = c) (order : s'.order = s.order ++ [out.item])
  | ahead {h : Held} {before : List Item} (wmu : s.wmu = some h) (queued : h.queued = false)
      (calls : h.calls = none) (old : s.order = before ++ s.backlog ++ [h.out.item])
      (order : s'.order = before ++ [h.out.item] ++ s.backlog)
      (closeSent : s'.conn.tx.closeSent = s.conn.tx.closeSent)

/-- An operation that encodes nothing sends no close. -/
theorem closeSent_idle (h : s.conn.Sound) {o : Op} {r : Except Err (Option Outgoing)} {c : WriteSide}
    (start : s.conn.start D (fun n => s.queue.bind (·.reserve n)) o = (r, c))
    (silent : ∀ out, r ≠ .ok (some out)) : c.tx.closeSent = s.conn.tx.closeSent := by
  have hspec := WriteSide.start_spec h D (fun n => s.queue.bind (·.reserve n)) o
  rw [start] at hspec
  cases hspec with
  | refused _ _ closeSent _ => exact closeSent
  | silent _ _ closeSent _ => exact closeSent
  | frame => exact absurd rfl (silent _)

theorem step_order (h : Smooth s) (hgood : Good s) (hstep : Step D s a s') :
    Reorder D s a s' := by
  have hfinish : ∀ after err, (s.conn.finish after err).tx.closeSent = s.conn.tx.closeSent :=
    fun after err => congrArg Sender.closeSent (WriteSide.finish_spec hgood.sound after err).2.2
  cases hstep with
  | attach => exact .same rfl rfl
  | adjust => exact .same rfl rfl
  | idle wmu start silent => exact .same rfl (closeSent_idle hgood.sound start silent)
  | encode wmu start =>
    refine .encode rfl wmu start rfl ?_
    simp [order, pending_free wmu, pending_held, bursts, backlog]
  | refuse _ queue _ err => cases (h.queue _ queue).symm.trans err
  | @join g q wmu queue queued err =>
    refine .same ?_ (hfinish _ _)
    have hunsent : (if q.running then s.writers else s.writers ++ [.ready]).flatMap Writer.unsent =
        s.writers.flatMap Writer.unsent := by
      split_ifs <;> simp [Writer.unsent]
    rw [order, order, pending_held wmu (hgood.owner.calls_queued wmu queued g wmu), pending_free rfl,
      backlog, backlog, hunsent]
    simp [bursts]
  | @lock g wmu iomu queued =>
    have hcalls : g.calls = none := by
      cases hgood.owner with
      | free _ held => exact held g wmu
      | direct hi => cases hi.symm.trans iomu
      | flush hi => cases hi.symm.trans iomu
    have hold : s.order = s.bursts.flatMap Burst.items ++ s.backlog ++ [g.out.item] := by
      rw [order, pending_held wmu hcalls]
    refine .ahead wmu queued hcalls hold ?_ rfl
    · rw [order, pending_writing rfl rfl, bursts_held rfl, bursts_free iomu]
      simp [backlog]
  | write wmu iomu left =>
    refine .same ?_ rfl
    rw [order, order, pending_writing wmu left, pending_writing rfl rfl, bursts_held iomu,
      bursts_held rfl]
    simp [backlog]
  | unlock wmu iomu left =>
    refine .same ?_ (hfinish _ _)
    rw [order, order, pending_writing wmu left, pending_free rfl, bursts_held iomu, bursts_free rfl]
    rfl
  | exit writer =>
    obtain ⟨rfl, q, busy⟩ := hgood.busy writer
    refine .same ?_ rfl
    simp [order, bursts, backlog, pending, busy.writers, Writer.unsent]
  | take writer =>
    obtain ⟨rfl, q, busy⟩ := hgood.busy writer
    refine .same ?_ rfl
    simp [order, bursts, backlog, pending, busy.writers, Writer.unsent]
  | lockFlush writer queue iomu =>
    obtain ⟨rfl, q, busy⟩ := hgood.busy writer
    refine .same ?_ rfl
    simp [order, bursts, backlog, pending, busy.writers, Writer.unsent, iomu]
  | flush writer iomu =>
    obtain ⟨rfl, q, busy⟩ := hgood.busy writer
    refine .same ?_ rfl
    simp [order, bursts, backlog, pending, busy.writers, Writer.unsent, iomu]
  | unlockFlush writer iomu =>
    obtain ⟨rfl, q, busy⟩ := hgood.busy writer
    refine .same ?_ rfl
    simp [order, bursts, backlog, pending, busy.writers, Writer.unsent, iomu]
  | settle writer =>
    obtain ⟨rfl, q, busy⟩ := hgood.busy writer
    refine .same ?_ rfl
    simp [order, bursts, backlog, pending, busy.writers, Writer.unsent]
  | fail writer => exact absurd rfl (h.writers _ (List.mem_of_getElem? writer) _ _)

/-! ## At most one close -/

/-- The order holds a close only if one was sent, and then one. -/
def Once (s : Shared) : Prop :=
  s.order.countP (fun i => i.frame.opcode == .close) ≤ s.conn.tx.closeSent.toNat

theorem Once.step (h : Once s) (hgood : Good s) (hs : Smooth s) (hstep : Step D s a s') : Once s' := by
  cases step_order hs hgood hstep with
  | same order closeSent => rwa [Once, order, closeSent]
  | @encode o out c _ _ start conn order =>
    have hspec := WriteSide.start_spec hgood.sound D (fun n => s.queue.bind (·.reserve n)) o
    rw [start] at hspec
    cases hspec with
    | frame encodes =>
      rw [Once] at h ⊢
      rw [order, conn, encodes.closeSent, List.countP_append, List.countP_singleton]
      cases hc : out.item.frame.opcode == .close with
      | false => simpa using h
      | true =>
        have hopen : s.conn.tx.closeSent = false := by
          by_contra hsent
          rw [encodes.closing (by simpa using hsent)] at hc
          exact absurd hc (by decide)
        simpa [hopen] using h
  | ahead _ _ _ old order closeSent =>
    rw [Once] at h ⊢
    rw [order, closeSent]
    rw [old] at h
    simp only [List.countP_append] at h ⊢
    omega

theorem Once.none_of_open (h : Once s) (hopen : s.conn.tx.closeSent = false) :
    ∀ i ∈ s.order, i.frame.opcode ≠ .close := by
  rw [Once, hopen] at h
  intro i hi hclose
  exact List.countP_eq_zero.mp (Nat.le_zero.mp h) i hi (by simp [hclose])

/-! ## Nothing after it -/

/-- Nothing waits when `sendClose` is called to send a close. -/
def orderly (s : Shared) : Act → Bool
  | .start (.sendClose _) => s.conn.tx.closeSent || s.backlog.isEmpty
  | _ => true

/-- A close is followed by nothing but pongs, and one that will not join the queue has nothing
to overtake. -/
structure Ended (s : Shared) : Prop where
  order : s.order.Pairwise fun i j => i.frame.opcode = .close → j.frame.opcode = .pong
  direct : ∀ h, s.wmu = some h → h.queued = false → h.calls = none →
    h.out.item.frame.opcode = .close → s.backlog = []

/-- Only `sendClose` encodes a close that does not join the queue. -/
theorem opcode_direct {c c' : WriteSide} {reserve : ℕ → Option Err} {o : Op} {out : Outgoing}
    (start : c.start D reserve o = (.ok (some out), c')) (hjoins : o.joins = false)
    (hclose : out.item.frame.opcode = .close) :
    ∃ code, o = .sendClose code ∧ c.tx.closeSent = false := by
  have hcontrol : ∀ op payload, (op = .ping ∨ op = .pong) →
      (c.control op payload).map (·.map some) id ≠ (.ok (some out), c') := by
    intro op payload hop heq
    rw [WriteSide.control, Sender.encode_ping hop] at heq
    split_ifs at heq
    · cases heq
    · cases heq
    · cases heq
      have hne : op = .close := hclose
      rcases hop with rfl | rfl <;> exact absurd hne (by decide)
  cases o with
  | ping payload => exact absurd start (hcontrol _ _ (Or.inl rfl))
  | pong payload => exact absurd start (hcontrol _ _ (Or.inr rfl))
  | sendClose code =>
    refine ⟨code, rfl, ?_⟩
    by_contra hsent
    rw [WriteSide.start, WriteSide.sendClose, if_pos (by simpa using hsent)] at start
    cases start
  | _ => cases hjoins

/-- Without a queue nothing waits. -/
theorem Good.backlog_bare (h : Good s) (hq : s.queue = none) : s.backlog = [] := by
  cases h.tended with
  | bare _ writers waiting => simp [backlog, writers, waiting]
  | idle queue => cases queue.symm.trans hq
  | busy busy => cases busy.queue.symm.trans hq

theorem Ended.step_direct (h : Ended s) (hgood : Good s) (horderly : s.orderly a = true)
    (hstep : Step D s a s') : ∀ g, s'.wmu = some g → g.queued = false → g.calls = none →
      g.out.item.frame.opcode = .close → s'.backlog = [] := by
  have hdirect := h.direct
  cases hstep with
  | @encode o out c _ start =>
    rintro g ⟨⟩ hqueued - hclose
    rcases Bool.and_eq_false_iff.mp hqueued with hjoins | hqueue
    · obtain ⟨code, rfl, hopen⟩ := opcode_direct start hjoins hclose
      have hempty : s.backlog = [] := by simpa [orderly, hopen] using horderly
      exact hempty
    · exact hgood.backlog_bare (by simpa using hqueue)
  | refuse => rintro g ⟨⟩
  | join => rintro g ⟨⟩
  | lock =>
    rintro g ⟨⟩ - hcalls
    cases hcalls
  | write =>
    rintro g ⟨⟩ - hcalls
    cases hcalls
  | unlock => rintro g ⟨⟩
  | exit writer =>
    obtain ⟨rfl, q, busy⟩ := hgood.busy writer
    simpa [backlog, busy.writers, Writer.unsent] using hdirect
  | take writer =>
    obtain ⟨rfl, q, busy⟩ := hgood.busy writer
    simpa [backlog, busy.writers, Writer.unsent] using hdirect
  | lockFlush writer =>
    obtain ⟨rfl, q, busy⟩ := hgood.busy writer
    intro g hg hqueued hcalls hclose
    have hempty := hdirect g hg hqueued hcalls hclose
    simp only [backlog, busy.writers, List.append_eq_nil_iff] at hempty
    simp [backlog, busy.writers, Writer.unsent, hempty.2]
  | flush writer =>
    obtain ⟨rfl, q, busy⟩ := hgood.busy writer
    simpa [backlog, busy.writers, Writer.unsent] using hdirect
  | unlockFlush writer =>
    obtain ⟨rfl, q, busy⟩ := hgood.busy writer
    simpa [backlog, busy.writers, Writer.unsent] using hdirect
  | settle writer =>
    obtain ⟨rfl, q, busy⟩ := hgood.busy writer
    simpa [backlog, busy.writers, Writer.unsent] using hdirect
  | fail writer =>
    obtain ⟨rfl, q, busy⟩ := hgood.busy writer
    intros
    simp [backlog, busy.writers]
  | _ => exact hdirect

theorem Ended.step (h : Ended s) (hgood : Good s) (hs : Smooth s) (honce : Once s)
    (horderly : s.orderly a = true) (hstep : Step D s a s') : Ended s' := by
  refine ⟨?_, h.step_direct hgood horderly hstep⟩
  have horder := h.order
  cases step_order hs hgood hstep with
  | same order => rwa [order]
  | @encode o out c _ _ start conn order =>
    have hspec := WriteSide.start_spec hgood.sound D (fun n => s.queue.bind (·.reserve n)) o
    rw [start] at hspec
    cases hspec with
    | frame encodes =>
      rw [order, List.pairwise_append]
      refine ⟨horder, List.pairwise_singleton _ _, fun i hi j hj hclose => ?_⟩
      rw [List.mem_singleton.mp hj]
      refine encodes.closing ?_
      by_contra hopen
      exact honce.none_of_open (by simpa using hopen) i hi hclose
  | @ahead g before wmu queued calls old order =>
    rw [order]
    rw [old] at horder
    by_cases hclose : g.out.item.frame.opcode = .close
    · have hempty : s.backlog = [] := h.direct g wmu queued calls hclose
      simpa [hempty] using horder
    · simp only [List.pairwise_append, List.pairwise_singleton, List.mem_append, List.mem_singleton,
        true_and] at horder ⊢
      obtain ⟨⟨hbefore, hbacklog, hcross⟩, hlast⟩ := horder
      refine ⟨⟨hbefore, fun i hi j hj => hlast i (Or.inl hi) j hj⟩, hbacklog, ?_⟩
      rintro i (hi | rfl) j hj
      · exact hcross i hi j hj
      · exact fun hc => absurd hc hclose

/-- Over a transport that accepts every write the wire carries at most one close. If no data waits
whenever `sendClose` is called, no data and no second close follows it. -/
theorem close_ends {cfg : Config} {vectored : Bool} {keys : ℕ → MaskKey}
    {pool : (kind : EncoderKind) → ℕ → Option { c : Compressor // c.Idle kind }} {c : WriteSide}
    (hc : WriteSide.ofConfig cfg vectored keys pool = .ok c) {acts : List Act}
    (hrun : Shared.run D { conn := c } acts = some s) (hcalm : ∀ a ∈ acts, a.calm = true) :
    let fs := (s.bursts.flatMap Burst.items).map Item.frame
    s.accepted <+: wire fs ∧ fs.countP (fun f => f.opcode == .close) ≤ 1 ∧
    (along D orderly { conn := c } acts = true →
      ∀ pre f post, fs = pre ++ f :: post → f.opcode = .close →
        ∀ g ∈ post, g.opcode ≠ .text ∧ g.opcode ≠ .binary ∧ g.opcode ≠ .continuation) := by
  have hinit : Once { conn := c } := Nat.zero_le _
  have hall : along D (fun _ a => a.calm) { conn := c } acts = true :=
    along_of_forall _ fun a ha _ => hcalm a ha
  have hstart := Good.init (sound_ofConfig hc)
  obtain ⟨hgood, hs, honce⟩ := run_induct (P := fun s => Good s ∧ Smooth s ∧ Once s)
    (p := fun _ a => a.calm)
    (fun s a s' h ha hstep =>
      ⟨h.1.step hstep, h.2.1.step h.1 ha hstep, h.2.2.step h.1 h.2.1 hstep⟩)
    acts ⟨hstart, Smooth.init, hinit⟩ hrun hall
  refine ⟨?_, ?_, fun horderly pre f post hfs hclose g hg => ?_⟩
  · obtain ⟨begun, heq, hbegun⟩ := hs.accepted_eq hgood
    rw [heq, bursts, List.flatMap_append, List.map_append, wire_append]
    exact (List.prefix_append_right_inj _).mpr hbegun
  · have hle : s.order.countP (fun i => i.frame.opcode == .close) ≤ 1 :=
      honce.trans (Bool.toNat_le _)
    rw [order, List.countP_append, List.countP_append] at hle
    rw [List.countP_map]
    exact (Nat.le_add_right _ _).trans ((Nat.le_add_right _ _).trans hle)
  · obtain ⟨-, -, -, hended⟩ := run_induct
      (P := fun s => Good s ∧ Smooth s ∧ Once s ∧ Ended s)
      (p := fun s a => a.calm && s.orderly a)
      (fun s a s' h ha hstep => ⟨h.1.step hstep, h.2.1.step h.1 (Bool.and_eq_true_iff.mp ha).1 hstep,
        h.2.2.1.step h.1 h.2.1 hstep,
        h.2.2.2.step h.1 h.2.1 h.2.2.1 (Bool.and_eq_true_iff.mp ha).2 hstep⟩)
      acts ⟨hstart, Smooth.init, hinit, List.Pairwise.nil, fun _ h => by cases h⟩ hrun
      (along_and hall horderly)
    have hsent := (List.pairwise_append.mp (List.pairwise_append.mp hended.order).1).1
    have hframes : (pre ++ f :: post).Pairwise fun f g : Frame => f.opcode = .close →
        g.opcode = .pong := by
      rw [← hfs, List.pairwise_map]
      exact hsent
    rw [(List.pairwise_cons.mp (List.pairwise_append.mp hframes).2.1).1 g hg hclose]
    decide

/-- A text is flushed, then a protocol error of the peer is answered with a close. -/
theorem close_ends_flushed :
    ∃ s, Shared.run .mute { conn := .plain .server }
        [.newQueue 0, .start (.send .text ⟨[104, 105], by decide⟩), .enqueue, .take 0, .lockFlush 0,
          .start (.sendClose 1002), .flush 0 none, .unlockFlush 0, .lock, .write none, .unlock] =
        some s ∧
      s.accepted = [0x81, 2, 104, 105, 0x88, 2, 3, 0xEA] ∧
      ∀ pre f post, (s.bursts.flatMap Burst.items).map Item.frame = pre ++ f :: post →
        f.opcode = .close → ∀ g ∈ post, g.opcode ≠ .text ∧ g.opcode ≠ .binary ∧
          g.opcode ≠ .continuation := by
  obtain ⟨s, hrun, haccepted⟩ : ∃ s, Shared.run .mute { conn := .plain .server }
        [.newQueue 0, .start (.send .text ⟨[104, 105], by decide⟩), .enqueue, .take 0, .lockFlush 0,
          .start (.sendClose 1002), .flush 0 none, .unlockFlush 0, .lock, .write none, .unlock] =
        some s ∧
      s.accepted = [0x81, 2, 104, 105, 0x88, 2, 3, 0xEA] := ⟨_, rfl, rfl⟩
  exact ⟨s, hrun, haccepted,
    (close_ends (WriteSide.ofConfig_plain .server) hrun (by simp [Act.calm])).2.2 rfl⟩

/-- A text is queued and a protocol error of the peer is answered before the writer comes to
it : the text follows the close. -/
theorem close_overtakes :
    ∃ s, Shared.run .mute { conn := .plain .server }
        [.newQueue 0, .start (.send .text ⟨[104, 105], by decide⟩), .enqueue,
          .start (.sendClose 1002), .lock, .write none, .unlock, .take 0, .lockFlush 0,
          .flush 0 none] = some s ∧
      s.accepted = [0x88, 2, 3, 0xEA, 0x81, 2, 104, 105] ∧
      (s.bursts.flatMap Burst.items).map Item.frame =
        [⟨true, false, .close, none, [3, 0xEA]⟩, ⟨true, false, .text, none, [104, 105]⟩] :=
  ⟨_, rfl, rfl, rfl⟩

end Shared

end Ews
