import Ews.Codec

/-!
# Close payloads and the sender

`ws/close.go` and `ws/sender.go`. The sender draws a fresh key for each client frame ;
`keys` are the values `rand.Read` gives, in order, and any sequence is allowed.

`Sender.frame` is the frame a call encodes. `Sender.encodeFrame_data`, `Sender.encode_ping` and
`Sender.encode_close` say when it is encoded ; every other outcome leaves the sender without a
frame and, but for a key it may have drawn, as it was.
-/

namespace Ews

open Bytes

/-! ## Close payloads -/

/-- A UTF-8 continuation byte. -/
def isCont (b : UInt8) : Bool :=
  0x80 ≤ b && b ≤ 0xBF

/-- `unicode/utf8.Valid` : no overlong form, no surrogate, nothing above U+10FFFF, no
truncated sequence. -/
def utf8Valid : List UInt8 → Bool
  | [] => true
  | a :: l =>
    if a < 0x80 then utf8Valid l
    else
      match l with
      | [] => false
      | b :: l =>
        if 0xC2 ≤ a && a ≤ 0xDF then isCont b && utf8Valid l
        else
          match l with
          | [] => false
          | c :: l =>
            if 0xE0 ≤ a && a ≤ 0xEF then
              (if a = 0xE0 then 0xA0 ≤ b else 0x80 ≤ b) &&
                (if a = 0xED then b ≤ 0x9F else b ≤ 0xBF) && isCont c && utf8Valid l
            else
              match l with
              | [] => false
              | d :: l =>
                0xF0 ≤ a && a ≤ 0xF4 && (if a = 0xF0 then 0x90 ≤ b else 0x80 ≤ b) &&
                  (if a = 0xF4 then b ≤ 0x8F else b ≤ 0xBF) && isCont c && isCont d && utf8Valid l

/-- `NoStatus`. -/
def noStatus : ℕ := 1005

def validCloseCode (code : ℕ) : Bool :=
  if (code ≥ 1000 && code ≤ 1003) || (code ≥ 1007 && code ≤ 1014) then true
  else code ≥ 3000 && code ≤ 4999

/-- `validateClose`. -/
def validateClose (payload : List UInt8) : Except Err Unit :=
  if payload.length = 0 then .ok ()
  else if payload.length < 2 || payload.length > 125 ||
      !validCloseCode (beNat (payload.take 2)) then .error .protocol
  else if !utf8Valid (payload.drop 2) then .error .invalidUTF8
  else .ok ()

/-- `parseClose`. -/
def parseClose (payload : List UInt8) : ℕ × List UInt8 :=
  if payload.length < 2 then (noStatus, [])
  else (beNat (payload.take 2), payload.drop 2)

theorem validateClose_length {p : List UInt8} (h : validateClose p = .ok ()) :
    p.length ≤ 125 ∧ p.length ≠ 1 := by
  unfold validateClose at h
  split_ifs at h with h0 h1
  · omega
  · simp only [Bool.or_eq_true, decide_eq_true_eq, Bool.not_eq_true'] at h1
    omega

/-! ## Sender -/

/-- `ws.sender`. -/
structure Sender where
  role : Role
  /-- What `rand.Read` gives, call by call. -/
  keys : ℕ → MaskKey
  draws : ℕ := 0
  closeSent : Bool := false

namespace Sender

/-- The header and body of an encoded frame, borrowed from the encoder. -/
abbrev Output := List UInt8 × List UInt8

/-- The key of the next frame : a client's is fresh, a server has none. -/
def nextKey (s : Sender) : Option MaskKey :=
  if s.role = .client then some (s.keys s.draws) else none

def drawKey (s : Sender) : Sender :=
  if s.role = .client then { s with draws := s.draws + 1 } else s

/-- `encodeFrame`. -/
def encodeFrame (s : Sender) (op : Opcode) (final : Bool) (payload : List UInt8)
    (compressed : Bool) : Except Err Output × Sender :=
  if s.closeSent && op != .pong then (.error .closing, s)
  else
    let enc := if compressed then Encoder.encodeCompressed final op payload s.nextKey
      else Encoder.encode final op payload s.nextKey
    match enc with
    | .error e => (.error e, s.drawKey)
    | .ok e =>
      (.ok (e.h.raw, e.payload),
        if op == .close then { s.drawKey with closeSent := true } else s.drawKey)

/-- The opcode rules of `encode`. -/
def checkMessage (op : Opcode) (payload : List UInt8) : Except Err Unit :=
  if op == .text || op == .binary then .ok ()
  else if op == .ping || op == .pong then
    if payload.length > 125 then .error .protocol else .ok ()
  else if op == .close then validateClose payload
  else .error .protocol

/-- `encode`. -/
def encodeMessage (s : Sender) (op : Opcode) (payload : List UInt8) (compressed : Bool) :
    Except Err Output × Sender :=
  if s.closeSent && op != .pong then (.error .closing, s)
  else
    match checkMessage op payload with
    | .error e => (.error e, s)
    | .ok () => s.encodeFrame op true payload compressed

/-- `Encode`. -/
def encode (s : Sender) (op : Opcode) (payload : List UInt8) : Except Err Output × Sender :=
  s.encodeMessage op payload false

/-- `EncodeCompressed`. -/
def encodeCompressed (s : Sender) (op : Opcode) (payload : List UInt8) :
    Except Err Output × Sender :=
  if op != .text && op != .binary then (.error .protocol, s)
  else s.encodeMessage op payload true

/-- `EncodeFragment`. -/
def encodeFragment (s : Sender) (op : Opcode) (final : Bool) (payload : List UInt8)
    (compressed : Bool) : Except Err Output × Sender :=
  if op != .text && op != .binary && op != .continuation then (.error .protocol, s)
  else s.encodeFrame op final payload compressed

/-- `EncodeClose`. The payload is the code, big-endian, and the reason. -/
def encodeClose (s : Sender) (code : UInt16) (reason : List UInt8) :
    Except Err Output × Sender :=
  if code = 0 then
    if reason.length ≠ 0 then (.error .protocol, s) else s.encode .close []
  else if reason.length > 123 then (.error .protocol, s)
  else s.encode .close (beBytes 2 code.toNat ++ reason)

/-- The frame that is encoded. -/
def frame (s : Sender) (op : Opcode) (final : Bool) (payload : List UInt8) (compressed : Bool) :
    Frame :=
  ⟨final, compressed && op != .continuation, op, s.nextKey, payload⟩

@[simp] theorem role_drawKey (s : Sender) : s.drawKey.role = s.role := by
  unfold drawKey
  split_ifs <;> rfl

@[simp] theorem closeSent_drawKey (s : Sender) : s.drawKey.closeSent = s.closeSent := by
  unfold drawKey
  split_ifs <;> rfl

theorem isSome_nextKey (s : Sender) : s.nextKey.isSome = (s.role == .client) := by
  unfold nextKey
  cases s.role <;> rfl

/-- A data frame is encoded unless a close was. -/
theorem encodeFrame_data {op : Opcode} (h : op = .continuation ∨ op = .text ∨ op = .binary)
    (s : Sender) (final : Bool) (payload : List UInt8) (compressed : Bool) :
    s.encodeFrame op final payload compressed =
      if s.closeSent then (.error .closing, s)
      else (.ok ((s.frame op final payload compressed).header,
        (s.frame op final payload compressed).body), s.drawKey) := by
  have hpong : (op != .pong) = true := by rcases h with rfl | rfl | rfl <;> decide
  have hclose : (op == .close) = false := by rcases h with rfl | rfl | rfl <;> decide
  simp only [encodeFrame, hpong, Bool.and_true, hclose, Bool.false_eq_true, if_false]
  split_ifs with hc hz
  · rfl
  · rw [Encoder.encodeCompressed_eq h]
    simp [frame, hz]
  · rw [Encoder.encode_eq (Encoder.check_data h)]
    simp [frame, hz]

/-- The same for a whole message. -/
theorem encodeMessage_data {op : Opcode} (h : op = .text ∨ op = .binary) (s : Sender)
    (payload : List UInt8) (compressed : Bool) : s.encodeMessage op payload compressed =
      if s.closeSent then (.error .closing, s)
      else (.ok ((s.frame op true payload compressed).header,
        (s.frame op true payload compressed).body), s.drawKey) := by
  have hpong : (op != .pong) = true := by rcases h with rfl | rfl <;> decide
  have hcheck : checkMessage op payload = .ok () := by rcases h with rfl | rfl <;> rfl
  simp only [encodeMessage, hpong, Bool.and_true, hcheck, encodeFrame_data (Or.inr h)]
  split_ifs <;> rfl

/-- `EncodeCompressed` takes the opcodes of a message. -/
theorem encodeCompressed_data {op : Opcode} (h : op = .text ∨ op = .binary) (s : Sender)
    (payload : List UInt8) : s.encodeCompressed op payload =
      if s.closeSent then (.error .closing, s)
      else (.ok ((s.frame op true payload true).header, (s.frame op true payload true).body),
        s.drawKey) := by
  have hguard : (op != .text && op != .binary) = false := by rcases h with rfl | rfl <;> rfl
  rw [encodeCompressed, hguard, if_neg Bool.false_ne_true, encodeMessage_data h]

/-- `EncodeFragment` takes the opcodes of a data frame. -/
theorem encodeFragment_data {op : Opcode} (h : op = .continuation ∨ op = .text ∨ op = .binary)
    (s : Sender) (final : Bool) (payload : List UInt8) (compressed : Bool) :
    s.encodeFragment op final payload compressed =
      if s.closeSent then (.error .closing, s)
      else (.ok ((s.frame op final payload compressed).header,
        (s.frame op final payload compressed).body), s.drawKey) := by
  have hguard : (op != .text && op != .binary && op != .continuation) = false := by
    rcases h with rfl | rfl | rfl <;> rfl
  rw [encodeFragment, hguard, if_neg Bool.false_ne_true, encodeFrame_data h]

/-- A control frame that may be encoded is. -/
theorem encodeFrame_control {op : Opcode} (hop : op.isControl = true) {s : Sender}
    {payload : List UInt8} (hopen : s.closeSent = true → op = .pong)
    (hlen : payload.length ≤ 125) (hclose : op = .close → payload.length ≠ 1) :
    s.encodeFrame op true payload false =
      (.ok ((s.frame op true payload false).header, (s.frame op true payload false).body),
        if op == .close then { s.drawKey with closeSent := true } else s.drawKey) := by
  have hguard : (s.closeSent && op != .pong) = false := by
    cases hc : s.closeSent with
    | false => rfl
    | true => simp [hopen hc]
  simp only [encodeFrame, hguard, Bool.false_eq_true, if_false,
    Encoder.encode_eq (Encoder.check_control hop hlen hclose)]
  simp [frame]

/-- `Encode` of a ping or a pong. -/
theorem encode_ping {op : Opcode} (h : op = .ping ∨ op = .pong) (s : Sender)
    (payload : List UInt8) : s.encode op payload =
      if s.closeSent = true ∧ op ≠ .pong then (.error .closing, s)
      else if payload.length > 125 then (.error .protocol, s)
      else (.ok ((s.frame op true payload false).header, (s.frame op true payload false).body),
        s.drawKey) := by
  have hop : op.isControl = true := by rcases h with rfl | rfl <;> rfl
  have hclose : op ≠ .close := by rcases h with rfl | rfl <;> decide
  have hcheck : checkMessage op payload =
      if payload.length > 125 then .error .protocol else .ok () := by
    rcases h with rfl | rfl <;> rfl
  have hcond : (s.closeSent && op != .pong) = true ↔ s.closeSent = true ∧ op ≠ .pong := by simp
  unfold encode encodeMessage
  rw [hcheck]
  by_cases hc : s.closeSent = true ∧ op ≠ .pong
  · rw [if_pos (hcond.mpr hc), if_pos hc]
  · rw [if_neg (fun h => hc (hcond.mp h)), if_neg hc]
    split_ifs with hlen
    · rfl
    · dsimp only
      rw [encodeFrame_control hop (fun h => by_contra fun hp => hc ⟨h, hp⟩) (by omega)
        fun h => absurd h hclose]
      simp [hclose]

/-- `Encode` of a close. -/
theorem encode_close (s : Sender) (payload : List UInt8) : s.encode .close payload =
    if s.closeSent then (.error .closing, s)
    else match validateClose payload with
      | .error e => (.error e, s)
      | .ok () => (.ok ((s.frame .close true payload false).header,
          (s.frame .close true payload false).body), { s.drawKey with closeSent := true }) := by
  have hcheck : checkMessage .close payload = validateClose payload := rfl
  have hpong : (Opcode.close != Opcode.pong) = true := by decide
  simp only [encode, encodeMessage, hcheck, hpong, Bool.and_true]
  cases hc : s.closeSent with
  | true => rfl
  | false =>
    simp only [Bool.false_eq_true, if_false]
    cases hv : validateClose payload with
    | error e => rfl
    | ok u =>
      obtain ⟨hlen, h1⟩ := validateClose_length hv
      dsimp only
      rw [encodeFrame_control rfl (fun h => absurd (hc.symm.trans h) (by decide)) hlen fun _ => h1]
      rfl

/-- The payload of a close. -/
def closePayload (code : UInt16) (reason : List UInt8) : List UInt8 :=
  if code = 0 then [] else beBytes 2 code.toNat ++ reason

/-- The reasons `EncodeClose` refuses before it encodes. -/
def closeFits (code : UInt16) (reason : List UInt8) : Bool :=
  if code = 0 then reason.isEmpty else reason.length ≤ 123

theorem encodeClose_eq (s : Sender) (code : UInt16) (reason : List UInt8) :
    s.encodeClose code reason =
      if closeFits code reason then s.encode .close (closePayload code reason)
      else (.error .protocol, s) := by
  unfold encodeClose closeFits closePayload
  by_cases hc : code = 0
  · cases reason <;> simp [hc]
  · by_cases hr : reason.length ≤ 123
    · simp [hc, hr]
    · simp [hc, hr]

end Sender

end Ews
