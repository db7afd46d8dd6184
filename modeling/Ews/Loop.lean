import Mathlib.Data.Nat.Notation
import Mathlib.Tactic.Common

/-!
# Bounded loops

A loop is a body `σ → σ ⊕ ρ` : from a state it goes on with another state or leaves
with a result. `Loop.run` repeats the body within a budget. `Loop.run_spec` is the
rule for total correctness : an invariant the body keeps while a measure decreases,
and a postcondition on every result, give the postcondition of the run once the
budget exceeds the measure. No budget is visible in the conclusion, so a caller that
computes its budget from the state never meets the fallback. `Loop.run_keeps` is the rule
for what holds whether or not the budget suffices, and `Loop.visits_spec` the one for the
states the loop goes through.

`Loop.Ends` is the loop without a budget. A loop that does in one round what another one does in
several ends as that one does (`Loop.Ends.refine`).
-/

namespace Loop

variable {σ ρ : Type*}

/-- Repeat `body` at most `n` times. -/
def iterate (body : σ → σ ⊕ ρ) : ℕ → σ → Option ρ
  | 0, _ => none
  | n + 1, s =>
    match body s with
    | .inl s' => iterate body n s'
    | .inr r => some r

/-- The result of the loop, or `stuck s` if `n` rounds from `s` did not give one. -/
def run (body : σ → σ ⊕ ρ) (n : ℕ) (stuck : σ → ρ) (s : σ) : ρ :=
  (iterate body n s).getD (stuck s)

/-- The states at which `body` is run, in order. -/
def visits (body : σ → σ ⊕ ρ) : ℕ → σ → List σ
  | 0, _ => []
  | n + 1, s =>
    match body s with
    | .inl s' => s :: visits body n s'
    | .inr _ => [s]

/-- What one round has to do : keep the invariant `I` and decrease `μ`, or meet `Q`. -/
def Round (I : σ → Prop) (μ : σ → ℕ) (Q : ρ → Prop) (s : σ) : σ ⊕ ρ → Prop
  | .inl s' => I s' ∧ μ s' < μ s
  | .inr r => Q r

theorem iterate_spec {body : σ → σ ⊕ ρ} {I : σ → Prop} {μ : σ → ℕ} {Q : ρ → Prop}
    (h : ∀ s, I s → Round I μ Q s (body s)) :
    ∀ n s, I s → μ s < n → ∃ r, iterate body n s = some r ∧ Q r
  | 0, s, _, hn => absurd hn (Nat.not_lt_zero _)
  | n + 1, s, hs, hn => by
    have hr := h s hs
    cases hb : body s with
    | inl s' =>
      rw [hb] at hr
      obtain ⟨r, hr', hq⟩ := iterate_spec h n s' hr.1 (by have := hr.2; omega)
      exact ⟨r, by simp [iterate, hb, hr'], hq⟩
    | inr r =>
      rw [hb] at hr
      exact ⟨r, by simp [iterate, hb], hr⟩

/-- Total correctness of a loop whose budget exceeds its measure. -/
theorem run_spec {body : σ → σ ⊕ ρ} (I : σ → Prop) (μ : σ → ℕ) {Q : ρ → Prop} {n : ℕ}
    {stuck : σ → ρ} {s : σ} (h : ∀ s, I s → Round I μ Q s (body s)) (hs : I s) (hn : μ s < n) :
    Q (run body n stuck s) := by
  obtain ⟨r, hr, hq⟩ := iterate_spec h n s hs hn
  simpa [run, hr] using hq

/-- The invariant holds wherever the body is run. -/
theorem visits_spec {body : σ → σ ⊕ ρ} {I : σ → Prop} {μ : σ → ℕ} {Q : ρ → Prop}
    (h : ∀ s, I s → Round I μ Q s (body s)) :
    ∀ n s, I s → ∀ t ∈ visits body n s, I t
  | 0, _, _, t, ht => absurd ht (List.not_mem_nil)
  | n + 1, s, hs, t, ht => by
    have hr := h s hs
    simp only [visits] at ht
    cases hb : body s with
    | inl s' =>
      rw [hb] at hr ht
      rcases List.mem_cons.mp ht with rfl | ht
      · exact hs
      · exact visits_spec h n s' hr.1 t ht
    | inr r =>
      rw [hb] at ht
      exact List.mem_singleton.mp ht ▸ hs

/-- What every round keeps holds of the result, however the loop ends. -/
theorem run_keeps {body : σ → σ ⊕ ρ} (I : σ → Prop) {Q : ρ → Prop} {stuck : σ → ρ} {s : σ}
    (h : ∀ s, I s → Sum.elim I Q (body s)) (hstuck : Q (stuck s)) (hs : I s) (n : ℕ) :
    Q (run body n stuck s) := by
  have hiter : ∀ (n : ℕ) (s : σ), I s → ∀ r, iterate body n s = some r → Q r := by
    intro n
    induction n with
    | zero => simp [iterate]
    | succ n ih =>
      intro s hs r hr
      have hb := h s hs
      simp only [iterate] at hr
      cases hbody : body s with
      | inl s' =>
        rw [hbody] at hb hr
        exact ih s' hb r hr
      | inr r' =>
        rw [hbody] at hb hr
        exact Option.some.inj hr ▸ hb
  unfold run
  cases hr : iterate body n s with
  | none => exact hstuck
  | some r => exact hiter n s hs r hr

/-! ## Loops compared -/

/-- The loop ends with `r`. -/
inductive Ends (body : σ → σ ⊕ ρ) : σ → ρ → Prop
  | stop {s : σ} {r : ρ} (h : body s = .inr r) : Ends body s r
  | go {s s' : σ} {r : ρ} (h : body s = .inl s') (rest : Ends body s' r) : Ends body s r

theorem Ends.unique {body : σ → σ ⊕ ρ} {s : σ} {r r' : ρ} (h : Ends body s r)
    (h' : Ends body s r') : r = r' := by
  induction h with
  | stop h =>
    cases h' with
    | stop h' => exact Sum.inr.inj (h.symm.trans h')
    | go h' => cases h.symm.trans h'
  | go h _ ih =>
    cases h' with
    | stop h' => cases h.symm.trans h'
    | go h' rest =>
      obtain rfl := Sum.inl.inj (h.symm.trans h')
      exact ih rest

theorem ends_of_iterate {body : σ → σ ⊕ ρ} : ∀ {n : ℕ} {s : σ} {r : ρ},
    iterate body n s = some r → Ends body s r
  | n + 1, s, r, h => by
    simp only [iterate] at h
    cases hb : body s with
    | inl s' =>
      rw [hb] at h
      exact .go hb (ends_of_iterate h)
    | inr r' =>
      rw [hb] at h
      exact Option.some.inj h ▸ .stop hb

/-- From `s` the loop gets to another state, or to its end. -/
def Leads (body : σ → σ ⊕ ρ) (s : σ) : σ ⊕ ρ → Prop
  | .inl s' => ∀ r, Ends body s' r → Ends body s r
  | .inr r => Ends body s r

theorem leads_round (body : σ → σ ⊕ ρ) (s : σ) : Leads body s (body s) := by
  cases h : body s with
  | inl s' => exact fun r hr => .go h hr
  | inr r => exact .stop h

theorem Leads.head {body : σ → σ ⊕ ρ} {s s' : σ} {x : σ ⊕ ρ} (h : body s = .inl s')
    (hx : Leads body s' x) : Leads body s x := by
  cases x with
  | inl t => exact fun r hr => .go h (hx r hr)
  | inr r => exact .go h hx

section Compare

variable {σ' ρ' : Type*} {body : σ → σ ⊕ ρ} {body' : σ' → σ' ⊕ ρ'} (f : σ → σ') (g : ρ → ρ')
  {I : σ → Prop}

/-- Loops that do the same, round by round. -/
theorem iterate_map (h : ∀ s, I s → body' (f s) = (body s).map f g)
    (hkeep : ∀ s s', I s → body s = .inl s' → I s') :
    ∀ n s, I s → iterate body' n (f s) = (iterate body n s).map g
  | 0, _, _ => rfl
  | n + 1, s, hs => by
    rw [iterate, iterate, h s hs]
    cases hb : body s with
    | inl s' => exact iterate_map h hkeep n s' (hkeep s s' hs hb)
    | inr r => rfl

/-- A loop whose rounds stand for several rounds of another one. -/
theorem Ends.refine {s : σ} {r : ρ} (hend : Ends body s r) (hs : I s)
    (hkeep : ∀ s s', I s → body s = .inl s' → I s')
    (hlead : ∀ s, I s → Leads body' (f s) ((body s).map f g)) : Ends body' (f s) (g r) := by
  induction hend with
  | stop h =>
    have hl := hlead _ hs
    rw [h] at hl
    exact hl
  | go h _ ih =>
    have hl := hlead _ hs
    rw [h] at hl
    exact hl _ (ih (hkeep _ _ hs h))

end Compare

end Loop
