import Mathlib.Data.List.GetD
import Mathlib.Data.Nat.Notation
import Mathlib.Tactic.Common

/-!
# Vectors of bytes

The instructions of `archsimd` on vectors of bytes, as they are documented. A vector is made of
groups of sixteen bytes, one for 128 bits and two for 256 bits, and the instructions that move
bytes or look them up keep to each group (for two groups these are the `Grouped` forms).

Every instruction is given by what it leaves in a byte. `Lanes.load_at`, `Lanes.shift_load` and
`Lanes.high_nibble` say so for vectors that are read from one string at different places.
-/

/-- `g` groups of sixteen bytes. -/
abbrev Lanes (g : ℕ) := Fin g → Fin 16 → UInt8

namespace Lanes

variable {g : ℕ}

/-- `Broadcast`. -/
def broadcast (b : UInt8) : Lanes g :=
  fun _ _ => b

/-- `Load` and `LoadArray`, and `LoadPart`, which puts zeros where `src` has no byte. -/
def load (src : List UInt8) : Lanes g :=
  fun k i => src.getD (16 * k + i) 0

/-- `And`. -/
def and (x y : Lanes g) : Lanes g :=
  fun k i => x k i &&& y k i

/-- `Or`. -/
def or (x y : Lanes g) : Lanes g :=
  fun k i => x k i ||| y k i

/-- `Xor`. -/
def xor (x y : Lanes g) : Lanes g :=
  fun k i => x k i ^^^ y k i

/-- `IsZero`. -/
def isZero (x : Lanes g) : Bool :=
  decide (∀ k i, x k i = 0)

/-- `ConcatShiftBytesRight` : the bytes of `y` and behind them those of `x`, from the byte `n`
on. -/
def concatShiftBytesRight (x y : Lanes g) (n : ℕ) : Lanes g :=
  fun k i =>
    if h : i + n < 16 then y k ⟨i + n, h⟩
    else if h : i + n - 16 < 16 then x k ⟨i + n - 16, h⟩
    else 0

/-- `AsUint16` : the words, with the low byte first. -/
def asUint16 (x : Lanes g) : Fin g → Fin 8 → UInt16 :=
  fun k j => .ofNat ((x k ⟨2 * j, by omega⟩).toNat + 256 * (x k ⟨2 * j + 1, by omega⟩).toNat)

/-- `ShiftAllRight` of words. -/
def shiftAllRight (w : Fin g → Fin 8 → UInt16) (n : UInt16) : Fin g → Fin 8 → UInt16 :=
  fun k j => w k j >>> n

/-- `AsUint8` : the bytes of words. -/
def asUint8 (w : Fin g → Fin 8 → UInt16) : Lanes g :=
  fun k i =>
    let word := (w k ⟨i / 2, by omega⟩).toNat
    if i.val % 2 = 0 then .ofNat (word % 256) else .ofNat (word / 256)

/-- `PermuteOrZero` : the low four bits of an index choose a byte of `x` ; an index whose sign bit
is set gives zero. -/
def permuteOrZero (x indices : Lanes g) : Lanes g :=
  fun k i =>
    if 0x80 ≤ indices k i then 0
    else x k ⟨(indices k i).toNat % 16, Nat.mod_lt _ (by decide)⟩

/-- `SubSaturated`. -/
def subSaturated (x y : Lanes g) : Lanes g :=
  fun k i => if x k i ≤ y k i then 0 else x k i - y k i

/-- `Greater`, a mask. -/
def greater (x y : Lanes g) : Fin g → Fin 16 → Bool :=
  fun k i => decide (y k i < x k i)

/-- `Masked`. -/
def masked (x : Lanes g) (mask : Fin g → Fin 16 → Bool) : Lanes g :=
  fun k i => if mask k i then x k i else 0

/-- `GetLo` of 256 bits. -/
def getLo (x : Lanes 2) : Lanes 1 :=
  fun _ => x 0

/-- `GetHi` of 256 bits. -/
def getHi (x : Lanes 2) : Lanes 1 :=
  fun _ => x 1

/-- `SetLo` of 256 bits. -/
def setLo (x : Lanes 2) (y : Lanes 1) : Lanes 2 :=
  fun k => if k = 0 then y 0 else x k

/-- `SetHi` of 256 bits. -/
def setHi (x : Lanes 2) (y : Lanes 1) : Lanes 2 :=
  fun k => if k = 1 then y 0 else x k

theorem isZero_iff {x : Lanes g} : x.isZero = true ↔ ∀ k i, x k i = 0 :=
  decide_eq_true_iff

theorem xor_eq_zero_iff {x y : Lanes g} : (xor x y).isZero = true ↔ ∀ k i, x k i = y k i := by
  rw [isZero_iff]
  exact forall₂_congr fun k i => UInt8.xor_eq_zero_iff

/-- A vector that is read from the place `p` of a string. -/
theorem load_at (src : List UInt8) (p : ℕ) (k : Fin g) (i : Fin 16) :
    load (src.drop p) k i = src.getD (p + 16 * k + i) 0 := by
  rw [load, List.getD_eq_getElem?_getD, List.getElem?_drop, List.getD_eq_getElem?_getD,
    Nat.add_assoc]

/-- The bytes that stand `j` places before those of `x`, where `y` has the sixteen bytes before
each group of `x`. -/
theorem shift_load {src : List UInt8} {p j : ℕ} (hp : 16 ≤ p) (hj : 1 ≤ j) (hj' : j ≤ 16)
    {x y : Lanes g} (hx : ∀ k i, x k i = src.getD (p + 16 * k + i) 0)
    (hy : ∀ k i, y k i = src.getD (p - 16 + 16 * k + i) 0) (k : Fin g) (i : Fin 16) :
    concatShiftBytesRight x y (16 - j) k i = src.getD (p + 16 * k + i - j) 0 := by
  unfold concatShiftBytesRight
  split_ifs with hlow hhigh
  · rw [hy]
    congr 1
    dsimp only
    omega
  · rw [hx]
    congr 1
    dsimp only
    omega
  · omega

/-- The high half of every byte, by a shift of words. -/
theorem high_nibble (x : Lanes g) (k : Fin g) (i : Fin 16) :
    and (asUint8 (shiftAllRight (asUint16 x) 4)) (broadcast 0x0f) k i = x k i >>> 4 := by
  have hbyte : ∀ i, (x k i).toNat < 256 := fun i => (x k i).toNat_lt
  -- the four bits that come in from the other byte of the word are above the mask
  have hword : ∀ j, (shiftAllRight (asUint16 x) 4 k j).toNat =
      ((x k ⟨2 * j, by omega⟩).toNat + 256 * (x k ⟨2 * j + 1, by omega⟩).toNat) / 16 := by
    intro j
    have hlow := hbyte ⟨2 * j, by omega⟩
    have hhigh := hbyte ⟨2 * j + 1, by omega⟩
    rw [shiftAllRight, UInt16.toNat_shiftRight, asUint16, UInt16.toNat_ofNat',
      Nat.mod_eq_of_lt (by omega), show (4 : UInt16).toNat % 16 = 4 from rfl,
      Nat.shiftRight_eq_div_pow]
  have hmask : ∀ n : ℕ, (UInt8.ofNat n &&& 0x0f).toNat = n % 16 := by
    intro n
    rw [UInt8.toNat_and, UInt8.toNat_ofNat', show (0x0f : UInt8).toNat = 2 ^ 4 - 1 from rfl,
      Nat.and_two_pow_sub_one_eq_mod]
    omega
  apply UInt8.toNat_inj.mp
  rw [UInt8.toNat_shiftRight, show (4 : UInt8).toNat % 8 = 4 from rfl, Nat.shiftRight_eq_div_pow]
  simp only [and, broadcast, asUint8]
  have hi := hbyte i
  split_ifs with heven
  · have hself : (⟨2 * (i.val / 2), by omega⟩ : Fin 16) = i := Fin.ext (by dsimp only; omega)
    rw [hmask, hword, hself]
    omega
  · have hself : (⟨2 * (i.val / 2) + 1, by omega⟩ : Fin 16) = i := Fin.ext (by dsimp only; omega)
    have hlow := hbyte ⟨2 * (i.val / 2), by omega⟩
    rw [hmask, hword, hself]
    dsimp only
    omega

end Lanes
