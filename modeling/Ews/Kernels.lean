import Ews.Header
import Ews.Loop
import Ews.Memory

/-!
# The mask kernels

The three implementations of `mask` (`codec/mask_swar.go`, `codec/mask_swar_generic.go`,
`codec/mask_simd.go`) over a memory : words of eight and four bytes and vectors of sixteen are
loaded, combined with the repeated key and stored. `Mask` masks a payload in place.

All of them combine byte `i` with the key byte at `offset + i` and change nothing else
(`mask_xored`). So chunks masked one after the other with the offset carried over are the whole
masked at once, and the payload read afterwards is the one of `Ews.mask` (`maskInPlace_bytes`).
-/

set_option linter.unusedSectionVars false

namespace Ews

namespace Kernel

open Memory

/-- A slice of bytes. -/
structure Slice where
  ptr : ℕ
  len : ℕ
  cap : ℕ
  le : len ≤ cap

/-- `s[:n]`. -/
def Slice.upto (s : Slice) (n : ℕ) (h : n ≤ s.cap) : Slice :=
  ⟨s.ptr, n, s.cap, h⟩

/-- `s[n:]`. -/
def Slice.skip (s : Slice) (n : ℕ) : Slice :=
  ⟨s.ptr + n, s.len - n, s.cap - n, Nat.sub_le_sub_right s.le n⟩

/-- The builds of the package. -/
inductive Build
  | words
  | generic
  | simd
  deriving DecidableEq, Repr

section Kernels

variable (key : MaskKey)

/-- The key as a word, read from its four bytes. -/
def k32 : BitVec 32 :=
  load key.get 4 0

def k64 : BitVec 64 :=
  (k32 key).setWidth 64 ||| (k32 key).setWidth 64 <<< 32

/-- The vector read from two copies of `k64`. -/
def vkey : BitVec 128 :=
  k64 key ++ k64 key

/-- One round of a loop `for n-i >= 64` that takes `c` words of `w` bytes. -/
def round64 (w : ℕ) (v : BitVec (8 * w)) (c n d s : ℕ) : Memory × ℕ → Memory × ℕ ⊕ Memory × ℕ
  | (m, i) => if 64 ≤ n - i then .inl (burst w v c (d + i) (s + i) m, i + 64) else .inr (m, i)

/-- The loop. -/
def loop64 (w : ℕ) (v : BitVec (8 * w)) (c n d s : ℕ) (x : Memory × ℕ) : Memory × ℕ :=
  Loop.run (round64 w v c n d s) (n + 1) id x

/-- `if n-i >= w*c` : `c` words of `w` bytes. -/
def once (w : ℕ) (v : BitVec (8 * w)) (c n d s : ℕ) : Memory × ℕ → Memory × ℕ
  | (m, i) => if w * c ≤ n - i then (burst w v c (d + i) (s + i) m, i + w * c) else (m, i)

/-- What is left after the vectors : the loop over 64 bytes, and the parts below. -/
def finish (n d s : ℕ) (x : Memory × ℕ) : Memory :=
  let x := loop64 8 (k64 key) 8 n d s x
  let x := once 8 (k64 key) 4 n d s x
  let x := once 8 (k64 key) 2 n d s x
  let x := once 8 (k64 key) 1 n d s x
  let (m, i) := once 4 (k32 key) 1 n d s x
  (List.range' i (n - i)).foldl
    (fun m i => m.store 1 (d + i) (m (s + i) ^^^ key.get i).toBitVec) m

/-- `mask` over unsafe words. -/
def maskWords (n d s : ℕ) (m : Memory) : Memory :=
  finish key n d s (m, 0)

def simdMin : ℕ := 1024

/-- `mask` over vectors. -/
def maskSimd (n d s : ℕ) (m : Memory) : Memory :=
  finish key n d s (if simdMin ≤ n then loop64 16 (vkey key) 4 n d s (m, 0) else (m, 0))

/-- The slices of the generic kernel as they get shorter. -/
structure Cursor where
  m : Memory
  dst : Slice
  src : Slice

/-- The first `w*c` bytes of the slices, which are then cut off. -/
def Cursor.advance (w : ℕ) (v : BitVec (8 * w)) (c : ℕ) (x : Cursor) : Cursor :=
  ⟨burst w v c x.dst.ptr x.src.ptr x.m, x.dst.skip (w * c), x.src.skip (w * c)⟩

/-- `if len(src) >= w*c`. -/
def Cursor.once (w : ℕ) (v : BitVec (8 * w)) (c : ℕ) (x : Cursor) : Cursor :=
  if w * c ≤ x.src.len then x.advance w v c else x

/-- `for len(src) >= 64`. -/
def Cursor.round64 (x : Cursor) : Cursor ⊕ Cursor :=
  if 64 ≤ x.src.len then .inl (x.advance 8 (k64 key) 8) else .inr x

/-- `mask` in portable Go. The last loop reads `key[i]`, which must be one of the four bytes. -/
def maskGeneric (m : Memory) (dst src : Slice) : Option Memory :=
  let x : Cursor := Loop.run (Cursor.round64 key) (src.len + 1) id ⟨m, dst, src⟩
  let x := x.once 8 (k64 key) 4
  let x := x.once 8 (k64 key) 2
  let x := x.once 8 (k64 key) 1
  let x := x.once 4 (k32 key) 1
  (List.range x.src.len).foldlM
    (fun m i => (key.bytes[i]?).map fun k =>
      m.store 1 (x.dst.ptr + i) (m (x.src.ptr + i) ^^^ k).toBitVec) x.m

end Kernels

/-- `mask` of a build. Cutting `dst` to the length of `src` panics when its capacity is smaller. -/
def mask (b : Build) (m : Memory) (dst src : Slice) (key : MaskKey) (offset : UInt8) :
    Option Memory :=
  let key := rotateMaskKey key offset.toNat
  if h : src.len ≤ dst.cap then
    let dst := dst.upto src.len h
    match b with
    | .words => some (maskWords key src.len dst.ptr src.ptr m)
    | .generic => maskGeneric key m dst src
    | .simd => some (maskSimd key src.len dst.ptr src.ptr m)
  else none

/-- The offset after `n` bytes. -/
def nextOffset (offset : UInt8) (n : ℕ) : UInt8 :=
  (offset + UInt8.ofNat (n &&& 3)) &&& 3

/-- `Mask` : the payload in place, and the next offset. -/
def maskInPlace (b : Build) (m : Memory) (payload : Slice) (key : MaskKey) (offset : UInt8) :
    Option (Memory × UInt8) :=
  (mask b m payload payload key offset).map fun m => (m, nextOffset offset payload.len)

/-! ## The key as words -/

/-- The bytes of a word are those of the key, repeated. -/
structure Repeats (key : MaskKey) (w : ℕ) (v : BitVec (8 * w)) : Prop where
  dvd : w % 4 = 0
  bytes : ∀ j < w, byteOf v j = key.get j

/-- At a multiple of four the sequence starts again. -/
theorem Repeats.next {key : MaskKey} {w : ℕ} {v : BitVec (8 * w)} (h : Repeats key w v) {i : ℕ}
    (hi : i % 4 = 0) (k j : ℕ) (hj : j < w) : byteOf v j = key.get (i + w * k + j) := by
  have hdvd : (w * k) % 4 = 0 := by rw [Nat.mul_mod, h.dvd, Nat.zero_mul, Nat.zero_mod]
  rw [h.bytes j hj, ← key.get_mod j, ← key.get_mod (i + w * k + j)]
  congr 1
  omega

theorem byteOf_k32 (key : MaskKey) {j : ℕ} (hj : j < 4) : byteOf (k32 key) j = key.get j := by
  have h := byteOf_load key.get 0 hj
  rwa [Nat.zero_add] at h

theorem repeats_k32 (key : MaskKey) : Repeats key 4 (k32 key) :=
  ⟨rfl, fun _ hj => byteOf_k32 key hj⟩

/-- A bit of `k64` is the bit of `k32` in its half. -/
theorem getLsbD_k64 (key : MaskKey) {t : ℕ} (ht : t < 64) :
    (k64 key).getLsbD t = (k32 key).getLsbD (t % 32) := by
  simp only [k64, BitVec.getLsbD_or, BitVec.getLsbD_setWidth, BitVec.getLsbD_shiftLeft, ht,
    decide_true, Bool.true_and]
  rcases Nat.lt_or_ge t 32 with h | h
  · simp [h, Nat.mod_eq_of_lt h]
  · rw [BitVec.getLsbD_of_ge _ _ h, show t % 32 = t - 32 by omega]
    simp [Nat.not_lt.mpr h]
    omega

theorem byteOf_k64 (key : MaskKey) {j : ℕ} (hj : j < 8) : byteOf (k64 key) j = key.get j := by
  have hhalf : byteOf (k64 key) j = byteOf (k32 key) (j % 4) := by
    refine congrArg UInt8.ofBitVec (BitVec.eq_of_getLsbD_eq fun i hi => ?_)
    rw [BitVec.getLsbD_extractLsb', BitVec.getLsbD_extractLsb', getLsbD_k64 key (by omega)]
    congr 2
    omega
  rw [hhalf, byteOf_k32 key (Nat.mod_lt _ (by decide)), key.get_mod]

theorem repeats_k64 (key : MaskKey) : Repeats key 8 (k64 key) :=
  ⟨rfl, fun _ hj => byteOf_k64 key hj⟩

theorem repeats_vkey (key : MaskKey) : Repeats key 16 (vkey key) := by
  refine ⟨rfl, fun j hj => ?_⟩
  rcases Nat.lt_or_ge j 8 with h | h
  · rw [← byteOf_k64 key h, byteOf, byteOf, vkey,
      BitVec.extractLsb'_append_eq_of_add_le (by omega)]
  · have hget : key.get j = key.get (j - 8) := by
      rw [← key.get_mod j, ← key.get_mod (j - 8)]
      congr 1
      omega
    rw [hget, ← byteOf_k64 key (by omega), byteOf, byteOf, vkey,
      BitVec.extractLsb'_append_eq_of_le (by omega), show 8 * j - 64 = 8 * (j - 8) by omega]

/-! ## The kernels over pointers -/

section Pointers

variable {key : MaskKey} {n d s : ℕ} {m : Memory}

/-- How far a kernel is. -/
structure At (key : MaskKey) (n d s : ℕ) (m : Memory) (x : Memory × ℕ) : Prop where
  le : x.2 ≤ n
  phase : x.2 % 4 = 0
  xored : Xored key.get d s m x.2 x.1

theorem At.start : At key n d s m (m, 0) :=
  ⟨Nat.zero_le n, rfl, .zero⟩

variable (apart : d = s ∨ d + n ≤ s ∨ s + n ≤ d) {w : ℕ} {v : BitVec (8 * w)}
include apart

theorem At.burst {x : Memory × ℕ} (h : At key n d s m x) (hv : Repeats key w v) {c : ℕ}
    (hc : w * c ≤ n - x.2) :
    At key n d s m (burst w v c (d + x.2) (s + x.2) x.1, x.2 + w * c) := by
  have hle := h.le
  have hdvd : (w * c) % 4 = 0 := by rw [Nat.mul_mod, hv.dvd, Nat.zero_mul, Nat.zero_mod]
  have hphase := h.phase
  refine ⟨?_, ?_, h.xored.burst apart (hv.next h.phase) c ?_⟩
  · dsimp only
    omega
  · dsimp only
    omega
  · omega

theorem At.once {x : Memory × ℕ} (h : At key n d s m x) (hv : Repeats key w v) (c : ℕ) :
    At key n d s m (once w v c n d s x) := by
  rw [Kernel.once]
  split_ifs with hc
  · exact h.burst apart hv hc
  · exact h

theorem At.loop64 {x : Memory × ℕ} (h : At key n d s m x) (hv : Repeats key w v) {c : ℕ}
    (hc : w * c = 64) : At key n d s m (loop64 w v c n d s x) := by
  refine Loop.run_spec (At key n d s m) (fun x => n - x.2) ?_ h (by omega)
  intro x hx
  rw [round64]
  split_ifs with hn
  · have hnext := hx.burst apart hv (c := c) (by omega)
    rw [hc] at hnext
    exact ⟨hnext, by dsimp only; omega⟩
  · exact hx

/-- One byte more. -/
theorem Xored.byte {i : ℕ} {m' : Memory} (h : Xored key.get d s m i m') (hi : i < n) {k : UInt8}
    (hk : k = key.get i) :
    Xored key.get d s m (i + 1) (m'.store 1 (d + i) (m' (s + i) ^^^ k).toBitVec) := by
  have hword := h.xorWord apart (w := 1) (v := k.toBitVec) ?_ (by omega)
  · have hload : m'.load 1 (s + i) = (m' (s + i)).toBitVec := BitVec.zero_width_append _ _
    rwa [xorWord, hload] at hword
  · intro j hj
    obtain rfl : j = 0 := by omega
    rw [Nat.add_zero, ← hk, byteOf, Nat.mul_zero, BitVec.extractLsb'_eq_self]

/-- The bytes that are left. -/
theorem bytes_xored : ∀ (r : ℕ) {i : ℕ} {m' : Memory}, Xored key.get d s m i m' → i + r ≤ n →
    Xored key.get d s m (i + r) ((List.range' i r).foldl
      (fun m i => m.store 1 (d + i) (m (s + i) ^^^ key.get i).toBitVec) m')
  | 0, i, m', h, _ => h
  | r + 1, i, m', h, hr => by
    have hnext := bytes_xored r (Xored.byte apart h (by omega) rfl) (by omega)
    rwa [Nat.add_assoc, Nat.add_comm 1] at hnext

theorem At.finish {x : Memory × ℕ} (h : At key n d s m x) :
    Xored key.get d s m n (finish key n d s x) := by
  have h64 := repeats_k64 key
  have hloop := h.loop64 apart h64 (c := 8) rfl
  have hat := (((hloop.once apart h64 4).once apart h64 2).once apart h64 1).once apart
    (repeats_k32 key) 1
  rw [Kernel.finish]
  generalize Kernel.once 4 (k32 key) 1 n d s _ = y at hat ⊢
  have hle := hat.le
  have hbytes := bytes_xored apart (n - y.2) hat.xored (by omega)
  rwa [show y.2 + (n - y.2) = n by omega] at hbytes

theorem maskWords_xored : Xored key.get d s m n (maskWords key n d s m) :=
  At.start.finish apart

theorem maskSimd_xored : Xored key.get d s m n (maskSimd key n d s m) := by
  rw [maskSimd]
  split_ifs with h
  · exact (At.start.loop64 apart (repeats_vkey key) rfl).finish apart
  · exact At.start.finish apart

end Pointers

/-! ## The kernel over slices -/

section Slices

variable {key : MaskKey} {dst src : Slice} {m : Memory}

/-- How far the generic kernel is. -/
structure Cursor.At (key : MaskKey) (dst src : Slice) (m : Memory) (i : ℕ) (x : Cursor) : Prop where
  toDst : x.dst.ptr = dst.ptr + i
  toSrc : x.src.ptr = src.ptr + i
  len : x.src.len + i = src.len
  phase : i % 4 = 0
  xored : Xored key.get dst.ptr src.ptr m i x.m

variable (apart : dst.ptr = src.ptr ∨ dst.ptr + src.len ≤ src.ptr ∨ src.ptr + src.len ≤ dst.ptr)
  {w : ℕ} {v : BitVec (8 * w)}
include apart

theorem Cursor.At.advance {x : Cursor} {i : ℕ} (h : Cursor.At key dst src m i x)
    (hv : Repeats key w v) {c : ℕ} (hc : w * c ≤ x.src.len) :
    Cursor.At key dst src m (i + w * c) (x.advance w v c) := by
  have hdvd : (w * c) % 4 = 0 := by rw [Nat.mul_mod, hv.dvd, Nat.zero_mul, Nat.zero_mod]
  have hlen := h.len
  have hphase := h.phase
  have hxored := h.xored.burst apart (hv.next h.phase) c (by omega)
  rw [← h.toDst, ← h.toSrc] at hxored
  have hdst := h.toDst
  have hsrc := h.toSrc
  refine ⟨?_, ?_, ?_, by omega, hxored⟩ <;> dsimp only [Cursor.advance, Slice.skip] <;> omega

/-- What is not a multiple of the words is left. -/
theorem Cursor.At.once {x : Cursor} {i : ℕ} (h : Cursor.At key dst src m i x)
    (hv : Repeats key w v) (c : ℕ) (hlt : x.src.len < 2 * (w * c)) :
    ∃ i', Cursor.At key dst src m i' (x.once w v c) ∧ (x.once w v c).src.len < w * c := by
  rw [Cursor.once]
  split_ifs with hc
  · refine ⟨_, h.advance apart hv hc, ?_⟩
    dsimp only [Cursor.advance, Slice.skip]
    omega
  · exact ⟨i, h, by omega⟩

/-- The last bytes, at most four. -/
theorem Cursor.At.bytes {x : Cursor} {i : ℕ} (h : Cursor.At key dst src m i x) :
    ∀ r, r ≤ 4 → r ≤ x.src.len → ∃ m', (List.range r).foldlM
      (fun m i => (key.bytes[i]?).map fun k =>
        m.store 1 (x.dst.ptr + i) (m (x.src.ptr + i) ^^^ k).toBitVec) x.m = some m' ∧
      Xored key.get dst.ptr src.ptr m (i + r) m'
  | 0, _, _ => ⟨x.m, rfl, h.xored⟩
  | r + 1, hr, hlen => by
    obtain ⟨m', hm', hxored⟩ := Cursor.At.bytes h r (by omega) (by omega)
    have hkey : key.bytes[r]? = some (key.get (i + r)) := by
      rw [← key.get_mod, Nat.add_mod, h.phase, Nat.zero_add, Nat.mod_mod, key.get_mod]
      have hr4 : r < 4 := hr
      interval_cases r <;> rfl
    have hall := h.len
    refine ⟨_, ?_, Xored.byte apart hxored (by omega) rfl⟩
    rw [List.range_succ, List.foldlM_append, hm', h.toDst, h.toSrc]
    simp [hkey, Nat.add_assoc]

theorem maskGeneric_xored : ∃ m', maskGeneric key m dst src = some m' ∧
    Xored key.get dst.ptr src.ptr m src.len m' := by
  have hloop : ∃ i, Cursor.At key dst src m i
      (Loop.run (Cursor.round64 key) (src.len + 1) id ⟨m, dst, src⟩) ∧
      (Loop.run (Cursor.round64 key) (src.len + 1) id ⟨m, dst, src⟩).src.len < 64 := by
    refine Loop.run_spec (fun x => ∃ i, Cursor.At key dst src m i x) (fun x => x.src.len)
      (Q := fun x => ∃ i, Cursor.At key dst src m i x ∧ x.src.len < 64) ?_
      ⟨0, rfl, rfl, rfl, rfl, .zero⟩ (Nat.lt_succ_self _)
    rintro x ⟨i, hx⟩
    rw [Cursor.round64]
    split_ifs with h
    · refine ⟨⟨_, hx.advance apart (repeats_k64 key) h⟩, ?_⟩
      dsimp only [Cursor.advance, Slice.skip]
      omega
    · exact ⟨i, hx, by omega⟩
  rw [maskGeneric]
  generalize Loop.run (Cursor.round64 key) (src.len + 1) id ⟨m, dst, src⟩ = x at hloop ⊢
  obtain ⟨i, hx, hlt⟩ := hloop
  obtain ⟨i, hx, hlt⟩ := hx.once apart (repeats_k64 key) 4 hlt
  obtain ⟨i, hx, hlt⟩ := hx.once apart (repeats_k64 key) 2 hlt
  obtain ⟨i, hx, hlt⟩ := hx.once apart (repeats_k64 key) 1 hlt
  obtain ⟨i, hx, hlt⟩ := hx.once apart (repeats_k32 key) 1 hlt
  obtain ⟨m', hm', hxored⟩ := hx.bytes apart _ hlt.le le_rfl
  have hlen := hx.len
  refine ⟨m', hm', ?_⟩
  rwa [Nat.add_comm, hlen] at hxored

end Slices

/-! ## Masking -/

/-- The bytes of the key from an offset on. -/
def stream (key : MaskKey) (offset : UInt8) (i : ℕ) : UInt8 :=
  key.get (offset.toNat + i)

theorem mask_xored (b : Build) (m : Memory) {dst src : Slice} (key : MaskKey) (offset : UInt8)
    (hcap : src.len ≤ dst.cap)
    (apart : dst.ptr = src.ptr ∨ dst.ptr + src.len ≤ src.ptr ∨ src.ptr + src.len ≤ dst.ptr) :
    ∃ m', mask b m dst src key offset = some m' ∧
      Xored (stream key offset) dst.ptr src.ptr m src.len m' := by
  have hstream : (rotateMaskKey key offset.toNat).get = stream key offset :=
    funext fun i => get_rotateMaskKey key offset.toNat i
  rw [mask]
  dsimp only
  rw [dif_pos hcap, ← hstream]
  cases b with
  | words => exact ⟨_, rfl, maskWords_xored apart⟩
  | generic =>
    have hptr : (dst.upto src.len hcap).ptr = dst.ptr := rfl
    rw [← hptr] at apart ⊢
    exact maskGeneric_xored apart
  | simd => exact ⟨_, rfl, maskSimd_xored apart⟩

theorem toNat_nextOffset (offset : UInt8) (n : ℕ) :
    (nextOffset offset n).toNat = (offset.toNat + n) % 4 := by
  rw [nextOffset, UInt8.toNat_and, UInt8.toNat_add, UInt8.toNat_ofNat',
    show (3 : UInt8).toNat = 2 ^ 2 - 1 from rfl, Nat.and_two_pow_sub_one_eq_mod,
    show 3 = 2 ^ 2 - 1 from rfl, Nat.and_two_pow_sub_one_eq_mod]
  omega

theorem maskInPlace_xored (b : Build) (m : Memory) (payload : Slice) (key : MaskKey)
    (offset : UInt8) : ∃ m',
      maskInPlace b m payload key offset = some (m', nextOffset offset payload.len) ∧
      Xored (stream key offset) payload.ptr payload.ptr m payload.len m' := by
  obtain ⟨m', hm', hxored⟩ := mask_xored b m key offset payload.le (Or.inl rfl)
  exact ⟨m', by rw [maskInPlace, hm']; rfl, hxored⟩

/-- The payload after `Mask` is the one of the codec. -/
theorem maskInPlace_bytes (b : Build) (m : Memory) (payload : Slice) (key : MaskKey)
    (offset : UInt8) : ∃ m' o, maskInPlace b m payload key offset = some (m', o) ∧
      (List.range payload.len).map (fun i => m' (payload.ptr + i)) =
        Ews.mask key offset.toNat ((List.range payload.len).map fun i => m (payload.ptr + i)) ∧
      o.toNat = maskNext offset.toNat payload.len := by
  obtain ⟨m', hm', hxored⟩ := maskInPlace_xored b m payload key offset
  refine ⟨m', _, hm', ?_, ?_⟩
  · apply List.ext_getElem?
    intro i
    rw [getElem?_mask, List.getElem?_map, List.getElem?_map]
    rcases Nat.lt_or_ge i payload.len with hi | hi
    · rw [List.getElem?_range hi]
      exact congrArg some (hxored.done i hi)
    · rw [List.getElem?_eq_none (by simpa using hi)]
      rfl
  · rw [toNat_nextOffset, maskNext]
    omega

/-! ## Chunks -/

/-- `Mask` on one chunk after the other, the offset carried over. -/
def maskChunks (b : Build) (key : MaskKey) :
    List ℕ → Memory → Slice → UInt8 → Option (Memory × UInt8)
  | [], m, _, offset => some (m, offset)
  | n :: ns, m, payload, offset =>
    if h : n ≤ payload.len then
      (maskInPlace b m (payload.upto n (h.trans payload.le)) key offset).bind fun r =>
        maskChunks b key ns r.1 (payload.skip n) r.2
    else none

def total (ns : List ℕ) : ℕ :=
  ns.foldr (· + ·) 0

theorem stream_nextOffset (key : MaskKey) (offset : UInt8) (n : ℕ) :
    stream key (nextOffset offset n) = fun i => stream key offset (n + i) := by
  funext i
  rw [stream, stream, toNat_nextOffset, ← key.get_mod, ← key.get_mod (offset.toNat + (n + i))]
  congr 1
  omega

theorem maskChunks_xored (b : Build) (key : MaskKey) : ∀ (ns : List ℕ) (m : Memory)
    (payload : Slice) (offset : UInt8), total ns = payload.len → ∃ m' o,
      maskChunks b key ns m payload offset = some (m', o) ∧
      Xored (stream key offset) payload.ptr payload.ptr m payload.len m' ∧
      (ns ≠ [] → o = nextOffset offset payload.len)
  | [], m, payload, offset, h => by
    refine ⟨m, offset, rfl, ?_, fun hne => absurd rfl hne⟩
    rw [← h]
    exact .zero
  | n :: ns, m, payload, offset, h => by
    have htotal : n + total ns = payload.len := h
    have hn : n ≤ payload.len := by omega
    obtain ⟨m₁, hm₁, hx₁⟩ :=
      maskInPlace_xored b m (payload.upto n (hn.trans payload.le)) key offset
    obtain ⟨m₂, o, hm₂, hx₂, ho⟩ := maskChunks_xored b key ns m₁ (payload.skip n)
      (nextOffset offset n) (by dsimp only [Slice.skip]; omega)
    refine ⟨m₂, o, ?_, ?_, fun _ => ?_⟩
    · rw [maskChunks, dif_pos hn, hm₁]
      exact hm₂
    · rw [stream_nextOffset] at hx₂
      have hlen : (payload.upto n (hn.trans payload.le)).len + (payload.skip n).len =
          payload.len := by
        dsimp only [Slice.upto, Slice.skip]
        omega
      have hall := hx₁.append hx₂
      rwa [hlen] at hall
    · cases ns with
      | nil =>
        obtain ⟨-, rfl⟩ : m₁ = m₂ ∧ nextOffset offset n = o := by simpa [maskChunks] using hm₂
        rw [← htotal]
        rfl
      | cons n' ns =>
        rw [ho (by simp), ← UInt8.toNat_inj, toNat_nextOffset, toNat_nextOffset, toNat_nextOffset]
        dsimp only [Slice.skip]
        omega

/-- Every kernel combines the bytes of the source with those of the key from the offset on, in the
destination and nowhere else. So a payload masked in chunks is the payload masked at once, and
masking twice restores it. -/
theorem kernels_exact (b : Build) :
    (∀ m dst src key offset, src.len ≤ dst.cap →
      (dst.ptr = src.ptr ∨ dst.ptr + src.len ≤ src.ptr ∨ src.ptr + src.len ≤ dst.ptr) →
      ∃ m', mask b m dst src key offset = some m' ∧
        (∀ i < src.len, m' (dst.ptr + i) = m (src.ptr + i) ^^^ key.get ((offset.toNat + i) % 4)) ∧
        ∀ x, (∀ i < src.len, x ≠ dst.ptr + i) → m' x = m x) ∧
      (∀ m payload key offset ns, ns ≠ [] → total ns = payload.len →
        ∃ r, maskChunks b key ns m payload offset = some r ∧
          maskInPlace b m payload key offset = some r) ∧
      ∀ m payload key offset, ∃ m' o, maskInPlace b m payload key offset = some (m', o) ∧
        ∃ o', maskInPlace b m' payload key offset = some (m, o') := by
  refine ⟨?_, ?_, ?_⟩
  · intro m dst src key offset hcap apart
    obtain ⟨m', hm', hxored⟩ := mask_xored b m key offset hcap apart
    refine ⟨m', hm', fun i hi => ?_, fun x hx => hxored.rest x ?_⟩
    · rw [hxored.done i hi, key.get_mod, stream]
    · by_contra hin
      exact hx (x - dst.ptr) (by omega) (by omega)
  · intro m payload key offset ns hne htotal
    obtain ⟨m₁, o, hm₁, hx₁, ho⟩ := maskChunks_xored b key ns m payload offset htotal
    obtain ⟨m₂, hm₂, hx₂⟩ := maskInPlace_xored b m payload key offset
    exact ⟨_, hm₁, by rw [hm₂, ho hne, hx₁.unique hx₂]⟩
  · intro m payload key offset
    obtain ⟨m₁, hm₁, hx₁⟩ := maskInPlace_xored b m payload key offset
    obtain ⟨m₂, hm₂, hx₂⟩ := maskInPlace_xored b m₁ payload key offset
    exact ⟨m₁, _, hm₁, _, by rw [hm₂, hx₁.twice hx₂]⟩

/-- Seven bytes at address ten, masked in place from offset five, at once and in two chunks. -/
theorem kernels_exact_seven :
    (∃ m', mask .simd UInt8.ofNat ⟨10, 7, 7, le_rfl⟩ ⟨10, 7, 7, le_rfl⟩ ⟨1, 2, 3, 4⟩ 5 = some m' ∧
        m' 10 = 10 ^^^ 2 ∧ m' 17 = 17) ∧
      ∃ r, maskChunks .simd ⟨1, 2, 3, 4⟩ [3, 4] UInt8.ofNat ⟨10, 7, 7, le_rfl⟩ 5 = some r ∧
        maskInPlace .simd UInt8.ofNat ⟨10, 7, 7, le_rfl⟩ ⟨1, 2, 3, 4⟩ 5 = some r := by
  obtain ⟨hmask, hchunks, -⟩ := kernels_exact .simd
  obtain ⟨m', hm', hdone, hrest⟩ := hmask UInt8.ofNat ⟨10, 7, 7, le_rfl⟩ ⟨10, 7, 7, le_rfl⟩
    ⟨1, 2, 3, 4⟩ 5 le_rfl (Or.inl rfl)
  refine ⟨⟨m', hm', hdone 0 (by decide), hrest 17 ?_⟩,
    hchunks UInt8.ofNat ⟨10, 7, 7, le_rfl⟩ ⟨1, 2, 3, 4⟩ 5 [3, 4] (by decide) rfl⟩
  intro i hi
  dsimp only at hi ⊢
  omega

end Kernel

end Ews
