import Mathlib.Data.Nat.Notation
import Mathlib.Tactic.Common

/-!
# Words in memory

A memory has a byte at every address. `load` and `store` move words of `w` bytes, the byte at the
lowest address being the least significant. `burst` replaces consecutive words by their sum with
a word `v` (exclusive or), one after the other.

`Xored` is what a memory looks like when a region has been combined with a sequence of bytes up to
some length. Words extend it as soon as their bytes are the next ones of the sequence
(`Xored.burst`), for a source that is the region itself or apart from it.
-/

/-- A byte at every address. -/
abbrev Memory := ℕ → UInt8

namespace Memory

/-- Byte `j` of a word. -/
def byteOf {n : ℕ} (v : BitVec n) (j : ℕ) : UInt8 :=
  ⟨v.extractLsb' (8 * j) 8⟩

/-- The word of `w` bytes at address `a`. -/
def load (m : Memory) : (w a : ℕ) → BitVec (8 * w)
  | 0, _ => 0#0
  | w + 1, a => load m w (a + 1) ++ (m a).toBitVec

/-- The memory with `w` bytes of the word `v` at address `a`. -/
def store {n : ℕ} (m : Memory) (w a : ℕ) (v : BitVec n) : Memory :=
  fun x => if a ≤ x ∧ x < a + w then byteOf v (x - a) else m x

/-- The word at `s` is combined with `v` and stored at `d`. -/
def xorWord (w : ℕ) (v : BitVec (8 * w)) (d s : ℕ) (m : Memory) : Memory :=
  m.store w d (m.load w s ^^^ v)

/-- `c` consecutive words. -/
def burst (w : ℕ) (v : BitVec (8 * w)) (c d s : ℕ) (m : Memory) : Memory :=
  (List.range c).foldl (fun m j => xorWord w v (d + w * j) (s + w * j) m) m

/-! ## Bytes of words -/

theorem byteOf_xor {n : ℕ} (v v' : BitVec n) (j : ℕ) :
    byteOf (v ^^^ v') j = byteOf v j ^^^ byteOf v' j := by
  rw [byteOf, BitVec.extractLsb'_xor]
  rfl

theorem byteOf_append_zero {n : ℕ} (v : BitVec n) (b : BitVec 8) : byteOf (v ++ b) 0 = ⟨b⟩ := by
  rw [byteOf, BitVec.extractLsb'_append_eq_of_add_le (by omega)]
  simp

theorem byteOf_append_succ {n : ℕ} (v : BitVec n) (b : BitVec 8) (j : ℕ) :
    byteOf (v ++ b) (j + 1) = byteOf v j := by
  rw [byteOf, BitVec.extractLsb'_append_eq_of_le (by omega), byteOf,
    show 8 * (j + 1) - 8 = 8 * j by omega]

theorem byteOf_load (m : Memory) : ∀ {w : ℕ} (a : ℕ) {j : ℕ}, j < w →
    byteOf (m.load w a) j = m (a + j)
  | w + 1, a, 0, _ => byteOf_append_zero _ _
  | w + 1, a, j + 1, h => by
    rw [load, byteOf_append_succ, byteOf_load m (a + 1) (by omega),
      show a + 1 + j = a + (j + 1) by omega]

theorem xorWord_at {w : ℕ} (v : BitVec (8 * w)) (d s : ℕ) (m : Memory) {j : ℕ} (hj : j < w) :
    xorWord w v d s m (d + j) = m (s + j) ^^^ byteOf v j := by
  rw [xorWord, store, if_pos (by omega), Nat.add_sub_cancel_left, byteOf_xor, byteOf_load m s hj]

theorem xorWord_elsewhere {w : ℕ} (v : BitVec (8 * w)) (d s : ℕ) (m : Memory) {x : ℕ}
    (hx : x < d ∨ d + w ≤ x) : xorWord w v d s m x = m x := by
  rw [xorWord, store, if_neg (by omega)]

/-! ## Regions combined with a sequence -/

/-- The region at `d` has, up to `i`, the bytes at `s` combined with those of `κ`, and nothing
else is different. -/
structure Xored (κ : ℕ → UInt8) (d s : ℕ) (m : Memory) (i : ℕ) (m' : Memory) : Prop where
  done : ∀ j < i, m' (d + j) = m (s + j) ^^^ κ j
  rest : ∀ x, x < d ∨ d + i ≤ x → m' x = m x

namespace Xored

variable {κ : ℕ → UInt8} {d s n i : ℕ} {m m' : Memory}

theorem zero : Xored κ d s m 0 m :=
  ⟨fun j hj => absurd hj (Nat.not_lt_zero j), fun _ _ => rfl⟩

-- The region and its source are the same or do not meet.
variable (apart : d = s ∨ d + n ≤ s ∨ s + n ≤ d)
include apart

/-- One word more. -/
theorem xorWord (h : Xored κ d s m i m') {w : ℕ} {v : BitVec (8 * w)}
    (hv : ∀ j < w, byteOf v j = κ (i + j)) (hn : i + w ≤ n) :
    Xored κ d s m (i + w) (Memory.xorWord w v (d + i) (s + i) m') := by
  refine ⟨fun j hj => ?_, fun x hx => ?_⟩
  · rcases Nat.lt_or_ge j i with hji | hij
    · rw [xorWord_elsewhere v _ _ _ (by omega), h.done j hji]
    · obtain ⟨t, rfl⟩ := Nat.exists_eq_add_of_le hij
      -- the bytes of the source not yet read are still the old ones
      rw [← Nat.add_assoc, xorWord_at v _ _ _ (by omega), h.rest _ (by omega), hv t (by omega),
        ← Nat.add_assoc]
  · rw [xorWord_elsewhere v _ _ _ (by omega), h.rest x (by omega)]

/-- Several words, for a sequence that repeats with the word. -/
theorem burst (h : Xored κ d s m i m') {w : ℕ} {v : BitVec (8 * w)}
    (hv : ∀ k j, j < w → byteOf v j = κ (i + w * k + j)) (c : ℕ) (hn : i + w * c ≤ n) :
    Xored κ d s m (i + w * c) (Memory.burst w v c (d + i) (s + i) m') := by
  induction c with
  | zero => exact h
  | succ c ih =>
    rw [Nat.mul_succ] at hn ⊢
    have hlast := (ih (by omega)).xorWord apart (hv c) (by omega)
    rw [Memory.burst, List.range_succ, List.foldl_append, List.foldl_cons, List.foldl_nil,
      ← Memory.burst, Nat.add_assoc, Nat.add_assoc]
    rwa [← Nat.add_assoc i]

end Xored

namespace Xored

variable {κ : ℕ → UInt8} {d s n i : ℕ} {m m₁ m₂ : Memory}

/-- The conditions determine the memory. -/
theorem unique (h₁ : Xored κ d s m i m₁) (h₂ : Xored κ d s m i m₂) : m₁ = m₂ := by
  funext x
  by_cases hx : x < d ∨ d + i ≤ x
  · rw [h₁.rest x hx, h₂.rest x hx]
  · obtain ⟨j, rfl⟩ := Nat.exists_eq_add_of_le (show d ≤ x by omega)
    rw [h₁.done j (by omega), h₂.done j (by omega)]

/-- In place, the rest of the region may follow later. -/
theorem append (h₁ : Xored κ d d m i m₁)
    (h₂ : Xored (fun j => κ (i + j)) (d + i) (d + i) m₁ n m₂) : Xored κ d d m (i + n) m₂ := by
  refine ⟨fun j hj => ?_, fun x hx => ?_⟩
  · rcases Nat.lt_or_ge j i with hji | hij
    · rw [h₂.rest _ (by omega), h₁.done j hji]
    · obtain ⟨t, rfl⟩ := Nat.exists_eq_add_of_le hij
      rw [← Nat.add_assoc, h₂.done t (by omega), h₁.rest _ (by omega)]
  · rw [h₂.rest x (by omega), h₁.rest x (by omega)]

/-- In place, doing it twice restores the memory. -/
theorem twice (h₁ : Xored κ d d m i m₁) (h₂ : Xored κ d d m₁ i m₂) : m₂ = m := by
  funext x
  by_cases hx : x < d ∨ d + i ≤ x
  · rw [h₂.rest x hx, h₁.rest x hx]
  · obtain ⟨j, rfl⟩ := Nat.exists_eq_add_of_le (show d ≤ x by omega)
    rw [h₂.done j (by omega), h₁.done j (by omega), UInt8.xor_assoc, UInt8.xor_self, UInt8.xor_zero]

end Xored

end Memory
