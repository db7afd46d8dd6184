import Ews.Codec

/-!
# The storage of a decoder

`codec.Decoder` as the source lays it out. Pending input is a slice, of the buffer the
caller fed or of the decoder's scratch array, where it may start anywhere ; the bytes
left of a frame are a `uint64`. `Scratch.append` is the append of Go : it writes in
place while the array has room, and otherwise into a new array whose size `grow`
decides.

`SlicedDecoder.view` forgets the storage. Each operation commutes with it
(`feed_view`, `preserve_view`, `nextHeaderInto_view`, `payloadN_view`), so the decoder
of `Ews.Codec` is what the storage amounts to. What `Preserve` is for shows when the caller writes
into the buffer it fed (`overwrite`) : the pending input is then no longer there
(`overwrite_preserve_view`).
-/

namespace Ews

open Bytes

/-! ## Slices -/

/-- The scratch slice : its backing array and how much of it is in use. -/
structure Scratch where
  cells : List UInt8 := []
  len : ℕ := 0
  len_le : len ≤ cells.length := by simp

namespace Scratch

def bytes (s : Scratch) : List UInt8 :=
  s.cells.take s.len

/-- `scratch[:0]`. -/
def clear (s : Scratch) : Scratch where
  cells := s.cells
  len := 0
  len_le := Nat.zero_le _

theorem append_le (s : Scratch) (b tail : List UInt8) :
    s.len + b.length ≤ (s.cells.take s.len ++ b ++ tail).length := by
  have := s.len_le
  simp only [List.length_append, List.length_take]
  omega

/-- `append(s, b...)`. The bytes of `b` are read before any cell is written, so `b` may
lie in the array itself. -/
def append (grow : ℕ → ℕ) (s : Scratch) (b : List UInt8) : Scratch :=
  let n := s.len + b.length
  if n ≤ s.cells.length then ⟨s.cells.take s.len ++ b ++ s.cells.drop n, n, s.append_le b _⟩
  else ⟨s.cells.take s.len ++ b ++ List.replicate (grow n - n) 0, n, s.append_le b _⟩

@[simp] theorem bytes_clear (s : Scratch) : s.clear.bytes = [] := rfl

theorem take_cells (s : Scratch) (b tail : List UInt8) :
    (s.cells.take s.len ++ b ++ tail).take (s.len + b.length) = s.bytes ++ b := by
  refine List.take_left' ?_
  rw [List.length_append, List.length_take, Nat.min_eq_left s.len_le]

@[simp] theorem bytes_append (grow : ℕ → ℕ) (s : Scratch) (b : List UInt8) :
    (s.append grow b).bytes = s.bytes ++ b := by
  unfold append
  dsimp only
  split_ifs <;> exact s.take_cells b _

end Scratch

/-- Where pending input lies : a slice of the buffer that was fed, or a range of the
scratch array. -/
inductive Region
  | fed (b : List UInt8)
  | own (start stop : ℕ)

namespace Region

/-- The bytes of the slice. -/
def bytes (cells : List UInt8) : Region → List UInt8
  | fed b => b
  | own start stop => (cells.take stop).drop start

/-- The slice expression `r[n:]`. -/
def tail (n : ℕ) : Region → Region
  | fed b => fed (b.drop n)
  | own start stop => own (start + n) stop

@[simp] theorem bytes_tail (cells : List UInt8) (n : ℕ) (r : Region) :
    (r.tail n).bytes cells = (r.bytes cells).drop n := by
  cases r with
  | fed b => rfl
  | own start stop => simp only [tail, bytes, List.drop_drop]

end Region

/-! ## The decoder -/

theorem Decoder.feed_eq (d : Decoder) (b : List UInt8) :
    d.feed b = ⟨d.pending ++ b, d.remaining⟩ := by
  rw [← feed_pending, ← feed_remaining d b]

/-- `codec.Decoder`. -/
structure SlicedDecoder where
  pending : Region := .fed []
  scratch : Scratch := {}
  remaining : UInt64 := 0

namespace SlicedDecoder

variable (grow : ℕ → ℕ)

/-- The contents of `d.pending`. -/
def bytes (d : SlicedDecoder) : List UInt8 :=
  d.pending.bytes d.scratch.cells

/-- `Reset`. -/
def reset (d : SlicedDecoder) : SlicedDecoder where
  scratch := d.scratch.clear

/-- `Feed`. -/
def feed (d : SlicedDecoder) (b : List UInt8) : SlicedDecoder :=
  if b.length = 0 then d
  else if d.bytes.length = 0 then { d with pending := .fed b }
  else
    let scratch := d.scratch.clear.append grow d.bytes
    let scratch := scratch.append grow b
    { d with scratch := scratch, pending := .own 0 scratch.len }

/-- `Preserve`. -/
def preserve (d : SlicedDecoder) : SlicedDecoder :=
  if d.bytes.length = 0 then d
  else
    let scratch := d.scratch.clear.append grow d.bytes
    { d with scratch := scratch, pending := .own 0 scratch.len }

/-- `NextHeaderInto`. -/
def nextHeaderInto (d : SlicedDecoder) (h : Header) : Except Err Bool × Header × SlicedDecoder :=
  if d.remaining ≠ 0 then (.error .payloadPending, h, d)
  else
    match d.bytes with
    | _ :: b1 :: _ =>
      let n := Decoder.headerSize b1
      if d.bytes.length < n then (.ok false, h, d)
      else
        let h' : Header := ⟨d.bytes.take n⟩
        let lengthCode := b1 &&& 0x7f
        let remaining := UInt64.ofNat h'.payloadLen
        if (lengthCode = 126 ∧ remaining < 126) ∨
            (lengthCode = 127 ∧ (remaining < 65536 ∨ remaining >>> 63 ≠ 0)) then
          (.error .invalidPayloadLength, {}, d)
        else (.ok true, h', { d with pending := d.pending.tail n, remaining := remaining })
    | _ => (.ok false, h, d)

/-- `NextHeader`. -/
def nextHeader (d : SlicedDecoder) : Except Err Bool × Header × SlicedDecoder :=
  d.nextHeaderInto {}

/-- `min` of two `uint64`. -/
def lesser (a b : UInt64) : UInt64 :=
  if a ≤ b then a else b

/-- `PayloadN`. The subtraction is that of `uint64`. -/
def payloadN (d : SlicedDecoder) (n : ℤ) : List UInt8 × Bool × SlicedDecoder :=
  if d.remaining = 0 then ([], true, d)
  else if n ≤ 0 ∨ d.bytes.length = 0 then ([], false, d)
  else
    let m := lesser (UInt64.ofNat (min n.toNat d.bytes.length)) d.remaining
    let d' : SlicedDecoder :=
      { d with pending := d.pending.tail m.toNat, remaining := d.remaining - m }
    (d.bytes.take m.toNat, d'.remaining = 0, d')

/-- `Payload`. -/
def payload (d : SlicedDecoder) : List UInt8 × Bool × SlicedDecoder :=
  d.payloadN d.bytes.length

/-! ## What the storage amounts to -/

/-- The decoder without its storage. -/
def view (d : SlicedDecoder) : Decoder :=
  ⟨d.bytes, d.remaining.toNat⟩

@[simp] theorem view_pending (d : SlicedDecoder) : d.view.pending = d.bytes := rfl

@[simp] theorem view_remaining (d : SlicedDecoder) : d.view.remaining = d.remaining.toNat := rfl

@[simp] theorem view_reset (d : SlicedDecoder) : d.reset.view = {} := rfl

/-- A scratch slice that starts over and takes `p` holds `p`. -/
theorem bytes_own (s : Scratch) : (Region.own 0 s.len).bytes s.cells = s.bytes := rfl

theorem feed_view (d : SlicedDecoder) (b : List UInt8) :
    (d.feed grow b).view = d.view.feed b := by
  have hp : (d.feed grow b).bytes = d.bytes ++ b := by
    unfold feed
    split_ifs with h1 h2
    · rw [List.eq_nil_of_length_eq_zero h1, List.append_nil]
    · rw [List.eq_nil_of_length_eq_zero h2]
      rfl
    · show (Region.own 0 _).bytes _ = _
      rw [bytes_own, Scratch.bytes_append, Scratch.bytes_append, Scratch.bytes_clear,
        List.nil_append]
  have hr : (d.feed grow b).remaining = d.remaining := by
    unfold feed
    split_ifs <;> rfl
  rw [Decoder.feed_eq, view, hp, hr, view_pending, view_remaining]

theorem preserve_view (d : SlicedDecoder) : (d.preserve grow).view = d.view := by
  unfold preserve
  split_ifs with h
  · rfl
  · show Decoder.mk ((Region.own 0 _).bytes _) _ = _
    rw [bytes_own, Scratch.bytes_append, Scratch.bytes_clear, List.nil_append]
    rfl

/-- A length field has at most eight bytes. -/
theorem payloadLen_lt (h : Header) : h.payloadLen < 2 ^ 64 := by
  have hbe : ∀ (bs : List UInt8) (n : ℕ), n ≤ 8 → beNat (bs.take n) < 2 ^ 64 := by
    intro bs n hn
    refine (beNat_lt _).trans_le ?_
    calc 256 ^ (bs.take n).length ≤ 256 ^ 8 :=
          Nat.pow_le_pow_right (by decide) (by simp only [List.length_take]; omega)
      _ = 2 ^ 64 := by norm_num
  unfold Header.payloadLen
  dsimp only
  split_ifs
  · exact hbe _ 2 (by decide)
  · exact hbe _ 8 (by decide)
  · exact (UInt8.toNat_lt _).trans (by norm_num)

/-- The check on a length, in `uint64` and in numbers. -/
theorem lengthCheck_iff {code : UInt8} {n : ℕ} (h : n < 2 ^ 64) :
    ((code = 126 ∧ UInt64.ofNat n < 126) ∨
      (code = 127 ∧ (UInt64.ofNat n < 65536 ∨ UInt64.ofNat n >>> 63 ≠ 0))) ↔
    ((code = 126 ∧ n < 126) ∨ (code = 127 ∧ (n < 65536 ∨ n >>> 63 ≠ 0))) := by
  have hn : (UInt64.ofNat n).toNat = n := UInt64.toNat_ofNat_of_lt' h
  have hshift : UInt64.ofNat n >>> 63 ≠ 0 ↔ n >>> 63 ≠ 0 := by
    rw [ne_eq, ne_eq, ← UInt64.toNat_inj, UInt64.toNat_shiftRight, hn]
    rfl
  rw [UInt64.lt_iff_toNat_lt, UInt64.lt_iff_toNat_lt, hn, hshift]
  rfl

theorem nextHeaderInto_view (d : SlicedDecoder) (h : Header) :
    d.view.nextHeaderInto h = ((d.nextHeaderInto h).1, (d.nextHeaderInto h).2.1,
      (d.nextHeaderInto h).2.2.view) := by
  have hr : d.view.remaining ≠ 0 ↔ d.remaining ≠ 0 := by
    rw [view_remaining, ne_eq, ne_eq, ← UInt64.toNat_inj]
    rfl
  unfold nextHeaderInto Decoder.nextHeaderInto
  by_cases h0 : d.remaining ≠ 0
  · rw [if_pos (hr.mpr h0), if_pos h0]
  rw [if_neg (mt hr.mp h0), if_neg h0]
  have htail : ∀ (n : ℕ) (r : UInt64),
      view { d with pending := d.pending.tail n, remaining := r } =
        ⟨d.view.pending.drop n, r.toNat⟩ := by
    intro n r
    simp only [view, bytes, Region.bytes_tail]
  have hv : d.view = ⟨d.bytes, d.remaining.toNat⟩ := rfl
  rw [hv] at htail ⊢
  dsimp only at htail ⊢
  generalize d.bytes = p at htail hv ⊢
  rcases p with _ | ⟨b0, _ | ⟨b1, bs⟩⟩
  · exact congrArg _ (congrArg _ hv.symm)
  · exact congrArg _ (congrArg _ hv.symm)
  · dsimp only
    have hlt := payloadLen_lt ⟨(b0 :: b1 :: bs).take (Decoder.headerSize b1)⟩
    simp only [lengthCheck_iff hlt]
    split_ifs
    · rw [hv]
    · rw [hv]
    · rw [htail, UInt64.toNat_ofNat_of_lt' hlt]

theorem toNat_lesser (a b : UInt64) : (lesser a b).toNat = min a.toNat b.toNat := by
  unfold lesser
  split_ifs with h
  · have := UInt64.le_iff_toNat_le.mp h
    omega
  · have := mt UInt64.le_iff_toNat_le.mpr h
    omega

/-- What `PayloadN` takes is at most what is left of the frame, so the subtraction is
that of numbers. The length of a slice is an `int`. -/
theorem payloadN_view (d : SlicedDecoder) (n : ℤ) (hlen : d.bytes.length < 2 ^ 63) :
    d.view.payloadN n = ((d.payloadN n).1, (d.payloadN n).2.1, (d.payloadN n).2.2.view) := by
  have hr : d.view.remaining = 0 ↔ d.remaining = 0 := by
    rw [view_remaining, ← UInt64.toNat_inj]
    rfl
  unfold payloadN Decoder.payloadN
  by_cases h0 : d.remaining = 0
  · rw [if_pos (hr.mpr h0), if_pos h0]
  rw [if_neg (mt hr.mp h0), if_neg h0]
  by_cases h1 : n ≤ 0 ∨ d.bytes.length = 0
  · rw [if_pos (show n ≤ 0 ∨ d.view.pending.length = 0 from h1), if_pos h1]
  rw [if_neg (show ¬(n ≤ 0 ∨ d.view.pending.length = 0) from h1), if_neg h1]
  generalize hm : lesser (UInt64.ofNat (min n.toNat d.bytes.length)) d.remaining = m
  have hk : m.toNat = min (min n.toNat d.bytes.length) d.remaining.toNat := by
    rw [← hm, toNat_lesser, UInt64.toNat_ofNat_of_lt' (lt_of_le_of_lt (min_le_right _ _)
      (hlen.trans (by decide)))]
  have hsub : (d.remaining - m).toNat = d.remaining.toNat - m.toNat :=
    UInt64.toNat_sub_of_le _ _ (UInt64.le_iff_toNat_le.mpr (by omega))
  have hzero : d.remaining - m = 0 ↔ d.remaining.toNat - m.toNat = 0 := by
    rw [← UInt64.toNat_inj, hsub]
    rfl
  simp only [view_pending, view_remaining, ← hk, hzero]
  simp only [view, bytes, Region.bytes_tail, hsub]

/-! ## The buffer of the caller -/

/-- The caller has written into the buffer that it fed. -/
def overwrite (junk : ℕ → UInt8) (d : SlicedDecoder) : SlicedDecoder :=
  match d.pending with
  | .fed b => { d with pending := .fed (b.mapIdx fun i _ => junk i) }
  | .own _ _ => d

/-- What is preserved does not lie in the buffer that was fed. -/
theorem overwrite_preserve_view (junk : ℕ → UInt8) (d : SlicedDecoder) :
    ((d.preserve grow).overwrite junk).view = d.view := by
  rw [← preserve_view grow d]
  unfold preserve
  split_ifs with h
  · unfold overwrite
    cases hp : d.pending with
    | own start stop => rfl
    | fed b =>
      have hb : b = [] := by
        rw [bytes, hp] at h
        exact List.eq_nil_of_length_eq_zero h
      simp [view, bytes, hp, hb, Region.bytes]
  · rfl

/-- Without `Preserve` the first byte of a header is lost. -/
example : (overwrite (fun _ => 0) (feed id {} [0x81])).view = ⟨[0], 0⟩ :=
  rfl

end SlicedDecoder

end Ews
