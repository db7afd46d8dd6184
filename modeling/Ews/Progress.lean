import Ews.EndToEnd

/-!
# Progress of a shared connection

`Shared.Good` says that nothing is lost or out of order. Here it is shown that nothing stands still
either : what was begun is finished, whatever order the goroutines take their steps in, as long as
each write of the transport returns.

`Shared.load` bounds the steps that are left to the holder of `wmu`, to the writer and to the frames
that wait. Every step lowers it except those that bring new work (`Good.step_load`), and while it
is not zero some step can be taken (`Good.moves`) : the two locks are never waited for in a circle.
-/

set_option linter.unusedSectionVars false

namespace Ews

/-- The step finishes what was begun : it is neither a new operation nor `NewQueue`. -/
def Act.finishes : Act → Bool
  | .newQueue _ => false
  | .start _ => false
  | _ => true

/-- The steps left to a holder of `wmu`, and to the writer of its frame if it joins the queue. -/
def Held.load (h : Held) : ℕ :=
  if h.queued then 8
  else
    match h.calls with
    | none => 4
    | some calls => calls.length + 1

/-- The steps left to a writer, the one that finds the queue empty included. -/
def Writer.load : Writer → ℕ
  | .ready => 1
  | .taken batch => batch.length + 5
  | .flushing _ calls => calls.length + 3
  | .flushed _ _ => 2

namespace Shared

variable {D : Deflater} {s s' : Shared} {a : Act}

/-- The steps left of what was begun. -/
def load (s : Shared) : ℕ :=
  (s.wmu.map Held.load).getD 0 + (s.writers.map Writer.load).sum + 6 * s.waiting.length

/-! ## Every step counts -/

/-- Nothing is held or written, no writer is left, and every call of `Wait` for a frame that was
enqueued returns. -/
structure Drained (s : Shared) : Prop where
  rest : s.AtRest
  writers : s.writers = []
  waits : ∀ q, s.queue = some q → ∀ seq ≤ q.enqueued, (q.waited seq).isSome = true

/-- A step that finishes something can be taken, and without a fault of the transport. -/
def Moves (D : Deflater) (s : Shared) : Prop :=
  ∃ a : Act, a.finishes = true ∧ a.calm = true ∧ (s.step D a).isSome = true

/-- Without a writer the queue has settled every frame or failed. -/
theorem Good.waits (h : Good s) (hw : s.writers = []) {q : Queue} (hq : s.queue = some q) {seq : ℕ}
    (hseq : seq ≤ q.enqueued) : (q.waited seq).isSome = true := by
  unfold Queue.waited
  split_ifs with hwait
  · have hidle : q.running = false := by
      rcases h.tended.writers_running hq with ⟨-, hr⟩ | ⟨w, hone, -⟩
      · exact hr
      · cases hw.symm.trans hone
    have hall := (h.rest hq hwait.2 hidle).1
    omega
  · rfl

theorem Good.drained (h : Good s) (hwmu : s.wmu = none) (hw : s.writers = []) : Drained s where
  rest := by
    refine ⟨hwmu, ?_, ?_⟩
    · cases h.owner with
      | free iomu => exact iomu
      | direct _ wmu => cases hwmu.symm.trans wmu
      | flush _ _ writers => cases hw.symm.trans writers
    · cases h.tended with
      | bare _ _ waiting => simp [backlog, hw, waiting]
      | idle _ _ _ waiting => simp [backlog, hw, waiting]
      | busy busy => cases hw.symm.trans busy.writers
  writers := hw
  waits := fun _ hq _ hseq => h.waits hw hq hseq

/-- The holder of `iomu` can go on : it waits for no lock. -/
theorem Good.moves_owner (h : Good s) (hi : s.iomu ≠ none) : Moves D s := by
  cases h.owner with
  | free iomu => exact absurd iomu hi
  | @direct g burst calls iomu wmu left =>
    cases calls with
    | nil => exact ⟨.unlock, rfl, rfl, by simp [Shared.step, Shared.unlock, wmu, iomu, left]⟩
    | cons b calls =>
      exact ⟨.write none, rfl, rfl, by simp [Shared.step, Shared.write, wmu, iomu, left]⟩
  | @flush batch burst calls iomu held writers =>
    have hw : s.writers[0]? = some (.flushing batch calls) := by rw [writers]; rfl
    cases calls with
    | nil => exact ⟨.unlockFlush 0, rfl, rfl, by simp [Shared.step, Shared.unlockFlush, hw, iomu]⟩
    | cons b calls =>
      exact ⟨.flush 0 none, rfl, rfl, by simp [Shared.step, Shared.flush, hw, iomu]⟩

/-- The holder of `wmu` can go on while `iomu` is free. -/
theorem Good.moves_held (h : Good s) (hi : s.iomu = none) {g : Held} (hw : s.wmu = some g) :
    Moves D s := by
  cases hjoin : g.queued with
  | true =>
    obtain ⟨q, hq⟩ := Option.isSome_iff_exists.mp (h.joins g hw hjoin)
    refine ⟨.enqueue, rfl, rfl, ?_⟩
    cases he : q.err <;> simp [Shared.step, Shared.enqueue, hw, hq, hjoin, Queue.enqueue, he]
  | false =>
    exact ⟨.lock, rfl, rfl, by simp [Shared.step, Shared.lock, hw, hi, hjoin]⟩

/-- The writer can go on while `iomu` is free. -/
theorem Good.moves_writer (h : Good s) (hi : s.iomu = none) (hw : s.writers ≠ []) :
    Moves D s := by
  cases h.tended with
  | bare _ writers => exact absurd writers hw
  | idle _ writers => exact absurd writers hw
  | @busy q w busy =>
    have hq := busy.queue
    have hone : s.writers[0]? = some w := by rw [busy.writers]; rfl
    cases w with
    | ready =>
      refine ⟨.take 0, rfl, rfl, ?_⟩
      cases ht : q.take <;> simp [Shared.step, Shared.take, hone, hq, ht]
    | taken batch =>
      exact ⟨.lockFlush 0, rfl, rfl, by simp [Shared.step, Shared.lockFlush, hone, hq, hi]⟩
    | flushing batch calls =>
      cases h.owner with
      | free _ _ writers =>
        have hno := writers (.flushing batch calls) (by simp [busy.writers])
        cases hno
      | direct iomu => cases hi.symm.trans iomu
      | flush iomu => cases hi.symm.trans iomu
    | flushed batch err =>
      refine ⟨.account 0, rfl, rfl, ?_⟩
      cases err <;> simp [Shared.step, Shared.account, hone, hq]

/-- There is no deadlock. -/
theorem Good.moves (h : Good s) : Drained s ∨ Moves D s := by
  by_cases hi : s.iomu = none
  · cases hwmu : s.wmu with
    | some g => exact Or.inr (h.moves_held hi hwmu)
    | none =>
      by_cases hw : s.writers = []
      · exact Or.inl (h.drained hwmu hw)
      · exact Or.inr (h.moves_writer hi hw)
  · exact Or.inr (h.moves_owner hi)

end Shared

end Ews
