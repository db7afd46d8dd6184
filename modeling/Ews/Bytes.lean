import Mathlib.Data.List.Basic
import Mathlib.Data.Nat.Notation
import Mathlib.Tactic.Common
import Mathlib.Tactic.Ring

/-!
# Byte strings

Big-endian fields (`beBytes`, `beNat`) with their round trips, and the recent part of
a history (`lastN`) : the last `n` entries of a list, all of them when it is shorter.
The rules for `lastN` are the ones a bounded history needs : appending in pieces is
appending at once (`lastN_append_lastN`), and what a long enough tail hides may be
anything (`lastN_append_of_le`).
-/

namespace Bytes

/-! ## Big-endian fields -/

/-- The `k` low bytes of `n`, most significant first. -/
def beBytes : ℕ → ℕ → List UInt8
  | 0, _ => []
  | k + 1, n => UInt8.ofNat (n / 256 ^ k) :: beBytes k n

/-- The number a big-endian byte string denotes. -/
def beNat (bs : List UInt8) : ℕ :=
  bs.foldl (fun n b => n * 256 + b.toNat) 0

@[simp] theorem length_beBytes : ∀ k n, (beBytes k n).length = k
  | 0, _ => rfl
  | k + 1, n => by simp [beBytes, length_beBytes k n]

theorem foldl_be (bs : List UInt8) : ∀ a : ℕ,
    bs.foldl (fun n b => n * 256 + b.toNat) a = a * 256 ^ bs.length + beNat bs := by
  induction bs with
  | nil => simp [beNat]
  | cons b bs ih =>
    intro a
    rw [beNat, List.foldl_cons, List.foldl_cons, ih, ih (0 * 256 + b.toNat), List.length_cons]
    ring

theorem beNat_cons (b : UInt8) (bs : List UInt8) :
    beNat (b :: bs) = b.toNat * 256 ^ bs.length + beNat bs := by
  rw [beNat, List.foldl_cons, foldl_be]
  simp

theorem beNat_lt (bs : List UInt8) : beNat bs < 256 ^ bs.length := by
  induction bs with
  | nil => simp [beNat]
  | cons b bs ih =>
    rw [beNat_cons, List.length_cons, pow_succ]
    have hb : b.toNat + 1 ≤ 256 := b.toNat_lt
    calc b.toNat * 256 ^ bs.length + beNat bs
        < b.toNat * 256 ^ bs.length + 256 ^ bs.length := by omega
      _ = (b.toNat + 1) * 256 ^ bs.length := by ring
      _ ≤ 256 * 256 ^ bs.length := Nat.mul_le_mul_right _ hb
      _ = 256 ^ bs.length * 256 := by ring

/-- Reading back a written field gives the number modulo the field's range. -/
theorem beNat_beBytes (n : ℕ) : ∀ k, beNat (beBytes k n) = n % 256 ^ k
  | 0 => by simp [beBytes, beNat, Nat.mod_one]
  | k + 1 => by
    have h : n % 256 ^ (k + 1) = n % 256 ^ k + 256 ^ k * (n / 256 ^ k % 256) := by
      rw [pow_succ, Nat.mod_mul]
    rw [beBytes, beNat_cons, length_beBytes, beNat_beBytes n k, UInt8.toNat_ofNat', h]
    ring

/-- The low bytes of a number do not depend on what is above them. -/
theorem beBytes_add (n : ℕ) : ∀ k a, beBytes k (a * 256 ^ k + n) = beBytes k n
  | 0, _ => rfl
  | k + 1, a => by
    have hsplit : a * 256 ^ (k + 1) + n = a * 256 * 256 ^ k + n := by ring
    have hdiv : (a * 256 * 256 ^ k + n) / 256 ^ k = a * 256 + n / 256 ^ k := by
      rw [Nat.add_comm, Nat.add_mul_div_right _ _ (Nat.pow_pos (by decide)), Nat.add_comm]
    have hbyte : UInt8.ofNat (a * 256 + n / 256 ^ k) = UInt8.ofNat (n / 256 ^ k) := by
      rw [← UInt8.toNat_inj, UInt8.toNat_ofNat', UInt8.toNat_ofNat']
      omega
    rw [beBytes, beBytes, hsplit, hdiv, hbyte, beBytes_add n k]

/-- Writing back what was read gives the bytes. -/
theorem beBytes_beNat : ∀ bs : List UInt8, beBytes bs.length (beNat bs) = bs
  | [] => rfl
  | b :: bs => by
    have hdiv : (b.toNat * 256 ^ bs.length + beNat bs) / 256 ^ bs.length = b.toNat := by
      rw [Nat.add_comm, Nat.add_mul_div_right _ _ (Nat.pow_pos (by decide)),
        Nat.div_eq_of_lt (beNat_lt bs), Nat.zero_add]
    rw [beNat_cons, List.length_cons, beBytes, hdiv, beBytes_add, beBytes_beNat bs,
      UInt8.ofNat_toNat]

/-! ## Recent history -/

variable {α : Type*}

/-- The last `n` entries of `l`, or all of `l` when it is shorter. -/
def lastN (n : ℕ) (l : List α) : List α :=
  l.drop (l.length - n)

@[simp] theorem length_lastN (n : ℕ) (l : List α) : (lastN n l).length = min n l.length := by
  simp [lastN]
  omega

theorem lastN_of_length_le {n : ℕ} {l : List α} (h : l.length ≤ n) : lastN n l = l := by
  simp [lastN, Nat.sub_eq_zero_of_le h]

@[simp] theorem lastN_nil (n : ℕ) : lastN n ([] : List α) = [] := by
  simp [lastN]

/-- A tail of at least `n` entries hides everything before it. -/
theorem lastN_append_of_le {n : ℕ} (a : List α) {b : List α} (h : n ≤ b.length) :
    lastN n (a ++ b) = lastN n b := by
  rw [lastN, lastN, List.length_append, List.drop_append, List.drop_eq_nil_of_le (by omega),
    List.nil_append]
  congr 1
  omega

/-- Only the last `n` entries before a tail matter to the last `n` after it. -/
theorem lastN_append_lastN (n : ℕ) (a b : List α) : lastN n (lastN n a ++ b) = lastN n (a ++ b) := by
  rcases Nat.le_total a.length n with h | h
  · rw [lastN_of_length_le h]
  · have hd : (lastN n a).length = n := by simp [h]
    have hl : (lastN n a ++ b).length - n = b.length := by simp only [List.length_append, hd]; omega
    have hr : (a ++ b).length - n = a.length - n + b.length := by simp only [List.length_append]; omega
    calc lastN n (lastN n a ++ b)
        = (a.drop (a.length - n) ++ b).drop b.length := by rw [lastN, hl, lastN]
      _ = ((a ++ b).drop (a.length - n)).drop b.length :=
          congrArg (List.drop b.length) (List.drop_append_of_le_length (Nat.sub_le _ _)).symm
      _ = lastN n (a ++ b) := by rw [lastN, hr, List.drop_drop]

@[simp] theorem lastN_lastN (n : ℕ) (a : List α) : lastN n (lastN n a) = lastN n a := by
  simpa using lastN_append_lastN n a []

/-- Two histories with the same recent part keep it the same under the same tail. -/
theorem lastN_append_congr {n : ℕ} {a a' : List α} (h : lastN n a = lastN n a') (b : List α) :
    lastN n (a ++ b) = lastN n (a' ++ b) := by
  rw [← lastN_append_lastN n a, h, lastN_append_lastN]

theorem lastN_suffix (n : ℕ) (l : List α) : lastN n l <:+ l :=
  List.drop_suffix _ _

theorem lastN_suffix_lastN {n : ℕ} {l l' : List α} (h : l <:+ l') : lastN n l <:+ lastN n l' := by
  obtain ⟨t, rfl⟩ := h
  rcases Nat.le_total n l.length with hn | hn
  · exact (lastN_append_of_le t hn).symm ▸ List.suffix_refl _
  · rw [lastN_of_length_le hn, lastN, List.length_append, List.drop_append_of_le_length (by omega)]
    exact List.suffix_append _ _

/-- A suffix of that length is the recent part. -/
theorem lastN_of_suffix {l l' : List α} (h : l <:+ l') : lastN l.length l' = l := by
  obtain ⟨t, rfl⟩ := h
  rw [lastN_append_of_le _ le_rfl, lastN_of_length_le le_rfl]

end Bytes
