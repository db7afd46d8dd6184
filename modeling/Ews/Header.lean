import Ews.Bytes
import Mathlib.Tactic.IntervalCases

/-!
# Opcodes, errors, masking and frame headers

The vocabulary of the codec (`codec/opcode.go`, `codec/mask.go`, `codec/header.go`)
and the errors the packages return. A header is its encoded bytes, read through the
accessors of `codec.Header` ; a byte past the encoded ones reads as zero, as in the
fixed array of the source.

`mask` rotates the key by the offset and then repeats it. `mask_append` is how chunks
compose when the offset is carried over (`maskNext`), and `mask_mask` that masking
twice is the identity.
-/

namespace Ews

open Bytes

/-! ## Opcodes and roles -/

/-- A frame's type. Any value of the byte can be asked for, and any nibble received. -/
abbrev Opcode := UInt8

namespace Opcode

def continuation : Opcode := 0x0
def text : Opcode := 0x1
def binary : Opcode := 0x2
def close : Opcode := 0x8
def ping : Opcode := 0x9
def pong : Opcode := 0xA

/-- The opcodes that start a message. -/
def startsMessage (op : Opcode) : Bool :=
  op == text || op == binary

/-- The opcodes of control frames. -/
def isControl (op : Opcode) : Bool :=
  op == close || op == ping || op == pong

end Opcode

/-- The local endpoint. A server reads masked frames and writes unmasked ones. -/
inductive Role
  | server
  | client
  deriving DecidableEq, Repr

/-- The other end. -/
def Role.peer : Role → Role
  | .server => .client
  | .client => .server

/-! ## Errors -/

/-- The error values of the packages. `failure` is `*ws.Error`, `closed` is
`*ws.CloseError`, and `other` stands for an error made outside : by a transport, a
reader, a writer or a handler. -/
inductive Err
  -- io
  | eof
  | unexpectedEOF
  | noProgress
  | shortWrite
  -- codec
  | payloadPending
  | invalidPayloadLength
  | invalidOpcode
  | invalidControlFrame
  | invalidCompressedFrame
  -- ws
  | closing
  | protocol
  | invalidUTF8
  | messageTooLarge
  | invalidData
  | messageOpen
  | noMessage
  | queueFull
  | unexpectedType
  | invalidConfig
  | failure (code : ℕ) (cause : Err)
  | closed (code : ℕ) (reason : List UInt8)
  -- deflate
  | inflateTooLarge
  | inflateNoMessage
  | invalidLimit
  | corruptInput
  | other (tag : ℕ)
  deriving DecidableEq, Repr

/-! ## Masking -/

/-- A masking key, `[4]byte`. -/
structure MaskKey where
  k0 : UInt8
  k1 : UInt8
  k2 : UInt8
  k3 : UInt8
  deriving DecidableEq, Repr

namespace MaskKey

/-- The byte at index `i & 3`. -/
def get (k : MaskKey) (i : ℕ) : UInt8 :=
  match i % 4 with
  | 0 => k.k0
  | 1 => k.k1
  | 2 => k.k2
  | _ => k.k3

def bytes (k : MaskKey) : List UInt8 :=
  [k.k0, k.k1, k.k2, k.k3]

/-- The key copied out of a header. -/
def ofBytes (bs : List UInt8) : MaskKey :=
  ⟨bs.getD 0 0, bs.getD 1 0, bs.getD 2 0, bs.getD 3 0⟩

@[simp] theorem length_bytes (k : MaskKey) : k.bytes.length = 4 := rfl

@[simp] theorem ofBytes_bytes (k : MaskKey) : ofBytes k.bytes = k := rfl

theorem bytes_ofBytes {bs : List UInt8} (h : bs.length = 4) : (ofBytes bs).bytes = bs := by
  match bs, h with
  | [_, _, _, _], _ => rfl

theorem get_mod (k : MaskKey) (i : ℕ) : k.get (i % 4) = k.get i := by
  simp [get]

end MaskKey

/-- The key as seen from `offset` bytes into the payload. -/
def rotateMaskKey (key : MaskKey) (offset : ℕ) : MaskKey :=
  if offset % 4 ≠ 0 then
    ⟨key.get offset, key.get (offset + 1), key.get (offset + 2), key.get (offset + 3)⟩
  else key

theorem get_rotateMaskKey (key : MaskKey) (offset i : ℕ) :
    (rotateMaskKey key offset).get i = key.get (offset + i) := by
  unfold rotateMaskKey
  split_ifs with h
  · have hi : i % 4 < 4 := Nat.mod_lt _ (by decide)
    rw [← MaskKey.get_mod key (offset + i), Nat.add_mod, ← MaskKey.get_mod _ i]
    generalize i % 4 = j at hi ⊢
    interval_cases j <;> simp [MaskKey.get]
  · have h0 : offset % 4 = 0 := not_not.mp h
    rw [← MaskKey.get_mod key (offset + i), Nat.add_mod, h0, Nat.zero_add, Nat.mod_mod,
      MaskKey.get_mod]

/-- `mask` : the payload with the key repeated over it, from `offset`. -/
def mask (key : MaskKey) (offset : ℕ) (src : List UInt8) : List UInt8 :=
  src.mapIdx fun i b => b ^^^ (rotateMaskKey key offset).get i

/-- The offset `Mask` returns after `n` bytes. -/
def maskNext (offset n : ℕ) : ℕ :=
  (offset + n % 4) % 4

@[simp] theorem length_mask (key : MaskKey) (offset : ℕ) (src : List UInt8) :
    (mask key offset src).length = src.length := by
  simp [mask]

@[simp] theorem mask_nil (key : MaskKey) (offset : ℕ) : mask key offset [] = [] := rfl

theorem getElem?_mask (key : MaskKey) (offset : ℕ) (src : List UInt8) (i : ℕ) :
    (mask key offset src)[i]? = (src[i]?).map (· ^^^ key.get (offset + i)) := by
  simp [mask, get_rotateMaskKey]

theorem mask_congr (key : MaskKey) {o o' : ℕ} (src : List UInt8) (h : o % 4 = o' % 4) :
    mask key o src = mask key o' src := by
  apply List.ext_getElem?
  intro i
  rw [getElem?_mask, getElem?_mask, ← MaskKey.get_mod key (o + i), ← MaskKey.get_mod key (o' + i),
    Nat.add_mod, h, ← Nat.add_mod]

/-- Chunks masked with the offset carried over are the whole masked at once. -/
theorem mask_append (key : MaskKey) (offset : ℕ) (a b : List UInt8) :
    mask key offset (a ++ b) = mask key offset a ++ mask key (maskNext offset a.length) b := by
  have hb : mask key (maskNext offset a.length) b = mask key (offset + a.length) b :=
    mask_congr key b (by simp [maskNext])
  rw [hb]
  apply List.ext_getElem?
  intro i
  rcases Nat.lt_or_ge i a.length with h | h
  · rw [getElem?_mask, List.getElem?_append_left h, List.getElem?_append_left (by simpa using h),
      getElem?_mask]
  · rw [getElem?_mask, List.getElem?_append_right h,
      List.getElem?_append_right (by simpa using h), getElem?_mask, length_mask,
      show offset + a.length + (i - a.length) = offset + i by omega]

/-- Masking twice from the same offset restores the payload. -/
theorem mask_mask (key : MaskKey) (offset : ℕ) (src : List UInt8) :
    mask key offset (mask key offset src) = src := by
  apply List.ext_getElem?
  intro i
  rw [getElem?_mask, getElem?_mask]
  cases src[i]? with
  | none => rfl
  | some b => simp only [Option.map_some, UInt8.xor_assoc, UInt8.xor_self, UInt8.xor_zero]

/-! ## Headers -/

/-- `codec.MaxHeaderSize`. -/
def maxHeaderSize : ℕ := 14

/-- A frame header, by its encoded bytes `raw[:len]`. -/
structure Header where
  raw : List UInt8 := []
  deriving DecidableEq, Repr

namespace Header

/-- Byte `i` of the array behind the header. -/
def byte (h : Header) (i : ℕ) : UInt8 :=
  h.raw.getD i 0

def len (h : Header) : ℕ :=
  h.raw.length

/-- The payload size the header announces. -/
def payloadLen (h : Header) : ℕ :=
  let n := h.byte 1 &&& 0x7f
  if n = 126 then beNat ((h.raw.drop 2).take 2)
  else if n = 127 then beNat ((h.raw.drop 2).take 8)
  else n.toNat

def final (h : Header) : Bool :=
  h.byte 0 &&& 0x80 != 0

def rsv1 (h : Header) : Bool :=
  h.byte 0 &&& 0x40 != 0

def rsv2 (h : Header) : Bool :=
  h.byte 0 &&& 0x20 != 0

def rsv3 (h : Header) : Bool :=
  h.byte 0 &&& 0x10 != 0

def opcode (h : Header) : Opcode :=
  h.byte 0 &&& 0x0f

def masked (h : Header) : Bool :=
  h.byte 1 &&& 0x80 != 0

/-- The last four bytes of the header, when it is masked. -/
def maskKey (h : Header) : List UInt8 :=
  if h.masked then h.raw.drop (h.len - 4) else []

end Header

end Ews
