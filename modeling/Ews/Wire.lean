import Ews.Header

/-!
# The wire format

A `Frame` is what one WebSocket frame carries, and `Frame.bytes` its encoding : two
bytes, the extended length in its shortest form, the key of a masked frame, and the
masked payload. `parseHead` reads the head of a frame off a byte string. It waits
for a whole head (`more`), refuses a length that is not in its shortest form or
reaches `2 ^ 63` (`invalid`), and otherwise splits the string after the head.

`parseHead_header` is the round trip, and `parseHead_append` says that more input does
not change what has been decided.
-/

namespace Ews

open Bytes

/-! ## Bits of a byte -/

/-- A property of all 256 bytes, from the numbers. -/
theorem forall_byte {p : UInt8 → Prop} (h : ∀ i : Fin 256, p (UInt8.ofFin i)) (b : UInt8) : p b :=
  UInt8.ofFin_toFin b ▸ h b.toFin

/-- The masks of the head, each as a part of the number, for all bytes at once. -/
theorem byte_bits : ∀ b : UInt8, (b &&& 0x80 != 0) = decide (128 ≤ b.toNat) ∧
    (b &&& 0x40 != 0) = decide (b.toNat / 64 % 2 = 1) ∧
    (b &&& 0x20 != 0) = decide (b.toNat / 32 % 2 = 1) ∧
    (b &&& 0x10 != 0) = decide (b.toNat / 16 % 2 = 1) ∧
    b &&& 0x0f = UInt8.ofNat (b.toNat % 16) ∧ (b &&& 0x7f).toNat = b.toNat % 128 :=
  forall_byte (by decide +kernel)

theorem and_final (b : UInt8) : (b &&& 0x80 != 0) = decide (128 ≤ b.toNat) :=
  (byte_bits b).1

theorem and_rsv1 (b : UInt8) : (b &&& 0x40 != 0) = decide (b.toNat / 64 % 2 = 1) :=
  (byte_bits b).2.1

theorem and_rsv2 (b : UInt8) : (b &&& 0x20 != 0) = decide (b.toNat / 32 % 2 = 1) :=
  (byte_bits b).2.2.1

theorem and_rsv3 (b : UInt8) : (b &&& 0x10 != 0) = decide (b.toNat / 16 % 2 = 1) :=
  (byte_bits b).2.2.2.1

theorem and_opcode (b : UInt8) : b &&& 0x0f = UInt8.ofNat (b.toNat % 16) :=
  (byte_bits b).2.2.2.2.1

theorem toNat_and_length (b : UInt8) : (b &&& 0x7f).toNat = b.toNat % 128 :=
  (byte_bits b).2.2.2.2.2

/-! ## Frames and their encoding -/

/-- One frame : what its head says and the payload before masking. -/
structure Frame where
  final : Bool
  rsv1 : Bool
  opcode : Opcode
  key : Option MaskKey
  payload : List UInt8
  deriving DecidableEq, Repr

/-- Size of the extended length field that the shortest form of `n` uses. -/
def extSize (n : ℕ) : ℕ :=
  if n ≤ 125 then 0 else if n ≤ 65535 then 2 else 8

theorem extSize_eq_two {n : ℕ} : extSize n = 2 ↔ 125 < n ∧ n ≤ 65535 := by
  grind [extSize]

theorem extSize_eq_eight {n : ℕ} : extSize n = 8 ↔ 65535 < n := by
  grind [extSize]

/-- The seven-bit length field of `n`. -/
def lengthCode (n : ℕ) : ℕ :=
  if n ≤ 125 then n else if n ≤ 65535 then 126 else 127

/-- The payload as it travels. -/
def maskWith (key : Option MaskKey) (offset : ℕ) (p : List UInt8) : List UInt8 :=
  match key with
  | some k => mask k offset p
  | none => p

namespace Frame

def firstByte (f : Frame) : UInt8 :=
  f.opcode ||| (if f.final then 0x80 else 0) ||| (if f.rsv1 then 0x40 else 0)

def secondByte (f : Frame) : UInt8 :=
  UInt8.ofNat (lengthCode f.payload.length) ||| (if f.key.isSome then 0x80 else 0)

def keyBytes (f : Frame) : List UInt8 :=
  (f.key.map MaskKey.bytes).getD []

def header (f : Frame) : List UInt8 :=
  f.firstByte :: f.secondByte ::
    (beBytes (extSize f.payload.length) f.payload.length ++ f.keyBytes)

def body (f : Frame) : List UInt8 :=
  maskWith f.key 0 f.payload

/-- The frame on the wire. -/
def bytes (f : Frame) : List UInt8 :=
  f.header ++ f.body

end Frame

@[simp] theorem length_maskWith (key : Option MaskKey) (offset : ℕ) (p : List UInt8) :
    (maskWith key offset p).length = p.length := by
  cases key <;> simp [maskWith]

@[simp] theorem maskWith_nil (key : Option MaskKey) (offset : ℕ) : maskWith key offset [] = [] := by
  cases key <;> simp [maskWith]

theorem maskWith_maskWith (key : Option MaskKey) (offset : ℕ) (p : List UInt8) :
    maskWith key offset (maskWith key offset p) = p := by
  cases key <;> simp [maskWith, mask_mask]

theorem maskWith_append (key : Option MaskKey) (offset : ℕ) (a b : List UInt8) :
    maskWith key offset (a ++ b) =
      maskWith key offset a ++ maskWith key (maskNext offset a.length) b := by
  cases key <;> simp [maskWith, mask_append]

@[simp] theorem Frame.length_body (f : Frame) : f.body.length = f.payload.length :=
  length_maskWith _ _ _

/-! ## Reading a head -/

/-- What the head of a frame says. -/
structure FrameHead where
  final : Bool
  rsv1 : Bool
  rsv2 : Bool
  rsv3 : Bool
  opcode : Opcode
  key : Option MaskKey
  length : ℕ
  deriving DecidableEq, Repr

/-- The head of a byte string : not there yet, refused, or read. -/
inductive HeadParse
  | more
  | invalid
  | head (h : FrameHead) (rest : List UInt8)
  deriving DecidableEq, Repr

/-- Size of the extended length field after a second byte `b`. -/
def extOf (b : UInt8) : ℕ :=
  if b.toNat % 128 = 126 then 2 else if b.toNat % 128 = 127 then 8 else 0

/-- Size of the key after a second byte `b`. -/
def keySizeOf (b : UInt8) : ℕ :=
  if 128 ≤ b.toNat then 4 else 0

/-- The length a second byte and the bytes after it announce. -/
def lengthOf (b : UInt8) (bs : List UInt8) : ℕ :=
  if extOf b = 0 then b.toNat % 128 else beNat (bs.take (extOf b))

/-- The key after a second byte and the extended length. -/
def keyOf (b : UInt8) (bs : List UInt8) : Option MaskKey :=
  if 128 ≤ b.toNat then some (MaskKey.ofBytes ((bs.drop (extOf b)).take 4)) else none

/-- The head two bytes and the bytes after them say. -/
def headOf (b0 b1 : UInt8) (bs : List UInt8) : FrameHead where
  final := 128 ≤ b0.toNat
  rsv1 := b0.toNat / 64 % 2 = 1
  rsv2 := b0.toNat / 32 % 2 = 1
  rsv3 := b0.toNat / 16 % 2 = 1
  opcode := UInt8.ofNat (b0.toNat % 16)
  key := keyOf b1 bs
  length := lengthOf b1 bs

/-- The length is in its shortest form and below `2 ^ 63`. -/
def LengthOk (b : UInt8) (bs : List UInt8) : Prop :=
  extSize (lengthOf b bs) = extOf b ∧ lengthOf b bs < 2 ^ 63

instance (b : UInt8) (bs : List UInt8) : Decidable (LengthOk b bs) :=
  inferInstanceAs (Decidable (_ ∧ _))

/-- Read the head of a frame. -/
def parseHead : List UInt8 → HeadParse
  | b0 :: b1 :: bs =>
    if bs.length < extOf b1 + keySizeOf b1 then .more
    else if LengthOk b1 bs then .head (headOf b0 b1 bs) (bs.drop (extOf b1 + keySizeOf b1))
    else .invalid
  | _ => .more

/-- A head that was read : its bytes are there and its length is good. -/
theorem parseHead_eq_head {bs rest : List UInt8} {h : FrameHead}
    (hp : parseHead bs = .head h rest) : ∃ b0 b1 bs', bs = b0 :: b1 :: bs' ∧
      extOf b1 + keySizeOf b1 ≤ bs'.length ∧ LengthOk b1 bs' ∧ h = headOf b0 b1 bs' ∧
      rest = bs'.drop (extOf b1 + keySizeOf b1) := by
  match bs, hp with
  | b0 :: b1 :: bs', hp =>
    simp only [parseHead] at hp
    split_ifs at hp with hlen hok
    obtain ⟨rfl, rfl⟩ := HeadParse.head.inj hp
    exact ⟨b0, b1, bs', rfl, by omega, hok, rfl, rfl⟩

theorem parseHead_of_length_le {b0 b1 : UInt8} {bs : List UInt8}
    (hlen : extOf b1 + keySizeOf b1 ≤ bs.length) : parseHead (b0 :: b1 :: bs) =
      if LengthOk b1 bs then .head (headOf b0 b1 bs) (bs.drop (extOf b1 + keySizeOf b1))
      else .invalid := by
  rw [parseHead, if_neg (by omega)]

/-! ## More input -/

theorem lengthOf_append {b : UInt8} {bs : List UInt8} (h : extOf b ≤ bs.length)
    (fut : List UInt8) : lengthOf b (bs ++ fut) = lengthOf b bs := by
  rw [lengthOf, lengthOf, List.take_append_of_le_length h]

theorem keyOf_append {b : UInt8} {bs : List UInt8} (h : extOf b + keySizeOf b ≤ bs.length)
    (fut : List UInt8) : keyOf b (bs ++ fut) = keyOf b bs := by
  unfold keyOf
  split_ifs with hk
  · have hks : keySizeOf b = 4 := if_pos hk
    rw [List.drop_append_of_le_length (by omega),
      List.take_append_of_le_length (by simp only [List.length_drop]; omega)]
  · rfl

theorem headOf_append {b0 b1 : UInt8} {bs : List UInt8}
    (h : extOf b1 + keySizeOf b1 ≤ bs.length) (fut : List UInt8) :
    headOf b0 b1 (bs ++ fut) = headOf b0 b1 bs := by
  simp only [headOf, keyOf_append h, lengthOf_append (Nat.le_of_add_right_le h)]

/-- More input does not change a head that was read. -/
theorem parseHead_append_head {bs rest : List UInt8} {h : FrameHead}
    (hp : parseHead bs = .head h rest) (fut : List UInt8) :
    parseHead (bs ++ fut) = .head h (rest ++ fut) := by
  obtain ⟨b0, b1, bs', rfl, hlen, hok, rfl, rfl⟩ := parseHead_eq_head hp
  have hok' : LengthOk b1 (bs' ++ fut) := by
    rwa [LengthOk, lengthOf_append (by omega)]
  rw [List.cons_append, List.cons_append,
    parseHead_of_length_le (by rw [List.length_append]; omega), if_pos hok', headOf_append hlen,
    List.drop_append_of_le_length hlen]

/-- More input does not change a refusal. -/
theorem parseHead_append_invalid {bs : List UInt8} (hp : parseHead bs = .invalid)
    (fut : List UInt8) : parseHead (bs ++ fut) = .invalid := by
  match bs, hp with
  | b0 :: b1 :: bs', hp =>
    simp only [parseHead] at hp
    split_ifs at hp with hlen hok
    have hbad : ¬LengthOk b1 (bs' ++ fut) := by
      rwa [LengthOk, lengthOf_append (by omega)]
    rw [List.cons_append, List.cons_append,
      parseHead_of_length_le (by rw [List.length_append]; omega), if_neg hbad]

/-- A head takes at least two bytes. -/
theorem parseHead_length {bs rest : List UInt8} {h : FrameHead}
    (hp : parseHead bs = .head h rest) : rest.length + 2 ≤ bs.length := by
  obtain ⟨b0, b1, bs', rfl, -, -, -, rfl⟩ := parseHead_eq_head hp
  simp only [List.length_drop, List.length_cons]
  omega

/-! ## The round trip -/

/-- The opcodes that fit their four bits. -/
theorem firstByte_toNat (f : Frame) (h : f.opcode.toNat < 16) :
    f.firstByte.toNat = (if f.final then 128 else 0) + (if f.rsv1 then 64 else 0) +
      f.opcode.toNat := by
  have key : ∀ i : Fin 16, ∀ final rsv1 : Bool,
      (UInt8.ofNat i.1 ||| (if final then 0x80 else 0) ||| (if rsv1 then 0x40 else 0)).toNat =
        (if final then 128 else 0) + (if rsv1 then 64 else 0) + i.1 := by
    decide +kernel
  have := key ⟨f.opcode.toNat, h⟩ f.final f.rsv1
  rwa [UInt8.ofNat_toNat] at this

theorem lengthCode_lt (n : ℕ) : lengthCode n < 128 := by
  unfold lengthCode
  split_ifs <;> omega

theorem secondByte_toNat (f : Frame) : f.secondByte.toNat =
    (if f.key.isSome then 128 else 0) + lengthCode f.payload.length := by
  have key : ∀ i : Fin 128, ∀ masked : Bool,
      (UInt8.ofNat i.1 ||| (if masked then 0x80 else 0)).toNat =
        (if masked then 128 else 0) + i.1 := by
    decide +kernel
  exact key ⟨_, lengthCode_lt _⟩ f.key.isSome

theorem extOf_secondByte (f : Frame) : extOf f.secondByte = extSize f.payload.length := by
  unfold extOf
  rw [secondByte_toNat]
  unfold lengthCode extSize
  split_ifs <;> omega

theorem keySizeOf_secondByte (f : Frame) : keySizeOf f.secondByte = f.keyBytes.length := by
  have := lengthCode_lt f.payload.length
  unfold keySizeOf Frame.keyBytes
  rw [secondByte_toNat]
  cases f.key with
  | none => simp; omega
  | some k => simp

theorem lengthOf_secondByte (f : Frame) (h : f.payload.length < 2 ^ 63) (rest : List UInt8) :
    lengthOf f.secondByte (beBytes (extSize f.payload.length) f.payload.length ++ rest) =
      f.payload.length := by
  unfold lengthOf
  rw [extOf_secondByte, List.take_left' (length_beBytes _ _), beNat_beBytes, secondByte_toNat]
  by_cases h1 : f.payload.length ≤ 125
  · have hn : lengthCode f.payload.length = f.payload.length := if_pos h1
    rw [if_pos (show extSize f.payload.length = 0 from if_pos h1), hn]
    split_ifs <;> omega
  · by_cases h2 : f.payload.length ≤ 65535
    · rw [show extSize f.payload.length = 2 by rw [extSize, if_neg h1, if_pos h2]]
      norm_num
      omega
    · rw [show extSize f.payload.length = 8 by rw [extSize, if_neg h1, if_neg h2]]
      norm_num
      omega

theorem keyOf_secondByte (f : Frame) (rest : List UInt8) :
    keyOf f.secondByte (beBytes (extSize f.payload.length) f.payload.length ++
      (f.keyBytes ++ rest)) = f.key := by
  have := lengthCode_lt f.payload.length
  unfold keyOf
  rw [extOf_secondByte, List.drop_left' (length_beBytes _ _), secondByte_toNat]
  unfold Frame.keyBytes
  cases f.key with
  | none => simp; omega
  | some k => simp [List.take_left' (MaskKey.length_bytes k)]

/-- The head of an encoded frame. -/
def Frame.head (f : Frame) : FrameHead :=
  ⟨f.final, f.rsv1, false, false, f.opcode, f.key, f.payload.length⟩

/-- Reading the head of an encoded frame gives it back. -/
theorem parseHead_header (f : Frame) (hop : f.opcode.toNat < 16)
    (hlen : f.payload.length < 2 ^ 63) (rest : List UInt8) :
    parseHead (f.header ++ rest) = .head f.head rest := by
  have hext := extOf_secondByte f
  have hkey := keySizeOf_secondByte f
  have hl := lengthOf_secondByte f hlen (f.keyBytes ++ rest)
  have hok : LengthOk f.secondByte (beBytes (extSize f.payload.length) f.payload.length ++
      (f.keyBytes ++ rest)) := by
    rw [LengthOk, hl]
    exact ⟨hext.symm, hlen⟩
  rw [Frame.header, List.cons_append, List.cons_append, List.append_assoc,
    parseHead_of_length_le (by simp; omega), if_pos hok, hext, hkey]
  have hfirst := firstByte_toNat f hop
  have hdrop : List.drop (extSize f.payload.length + f.keyBytes.length)
      (beBytes (extSize f.payload.length) f.payload.length ++ (f.keyBytes ++ rest)) = rest := by
    rw [← List.append_assoc]
    exact List.drop_left' (by simp)
  have hhead : headOf f.firstByte f.secondByte (beBytes (extSize f.payload.length)
      f.payload.length ++ (f.keyBytes ++ rest)) = f.head := by
    rw [headOf, Frame.head, hl, keyOf_secondByte, hfirst]
    have hop' : UInt8.ofNat f.opcode.toNat = f.opcode := UInt8.ofNat_toNat
    cases f.final <;> cases f.rsv1 <;>
      simp [hop', Nat.mod_eq_of_lt hop, Nat.add_mod] <;> omega
  rw [hdrop, hhead]

end Ews
