import Ews.Wire

/-!
# The codec

`codec.Encoder` and `codec.Decoder`. Both are values : the encoder's scratch storage
and the decoder's are left out, since they only decide where bytes live.

`Encoder.encode_eq` identifies the encoder's output with `Frame.bytes`, and
`Decoder.nextHeaderInto_eq` the decoder's header step with `parseHead`. What the
decoder stores is the raw head ; `Header.Says` is what its accessors then read off.
-/

namespace Ews

open Bytes

/-! ## Encoder -/

/-- The frame an encoder holds : `HeaderBytes` and `PayloadBytes`. -/
structure Encoder where
  h : Header := {}
  payload : List UInt8 := []
  deriving DecidableEq, Repr

namespace Encoder

/-- The opcode and control rules `Encode` checks. -/
def check (final : Bool) (opcode : Opcode) (payload : List UInt8) : Except Err Unit :=
  if opcode == .continuation || opcode == .text || opcode == .binary then .ok ()
  else if opcode.isControl then
    if !final || payload.length > 125 || (opcode == .close && payload.length == 1) then
      .error .invalidControlFrame
    else .ok ()
  else .error .invalidOpcode

/-- `Encode`. An error leaves the frame unchanged. -/
def encode (final : Bool) (opcode : Opcode) (payload : List UInt8) (key : Option MaskKey) :
    Except Err Encoder :=
  match check final opcode payload with
  | .error e => .error e
  | .ok () =>
    let raw0 := if final then opcode ||| 0x80 else opcode
    let n := payload.length
    let (raw1, ext) : UInt8 × List UInt8 :=
      if n ≤ 125 then (UInt8.ofNat n, [])
      else if n ≤ 65535 then (126, beBytes 2 n)
      else (127, beBytes 8 n)
    match key with
    | none => .ok ⟨⟨raw0 :: raw1 :: ext⟩, payload⟩
    | some k => .ok ⟨⟨raw0 :: (raw1 ||| 0x80) :: (ext ++ k.bytes)⟩, mask k 0 payload⟩

/-- `EncodeCompressed` : RSV1 on the first frame of precompressed data. -/
def encodeCompressed (final : Bool) (opcode : Opcode) (payload : List UInt8)
    (key : Option MaskKey) : Except Err Encoder :=
  if opcode != .text && opcode != .binary && opcode != .continuation then
    .error .invalidCompressedFrame
  else
    match encode final opcode payload key with
    | .error e => .error e
    | .ok e =>
      if opcode != .continuation then .ok { e with h := ⟨e.h.raw.modifyHead (· ||| 0x40)⟩ }
      else .ok e

/-- The output of a successful encode is the frame's encoding. -/
theorem encode_eq {final : Bool} {opcode : Opcode} {payload : List UInt8} {key : Option MaskKey}
    (h : check final opcode payload = .ok ()) :
    encode final opcode payload key = .ok
      ⟨⟨(Frame.mk final false opcode key payload).header⟩,
        (Frame.mk final false opcode key payload).body⟩ := by
  have hfirst : (if final then opcode ||| 0x80 else opcode) =
      (Frame.mk final false opcode key payload).firstByte := by
    cases final <;> simp [Frame.firstByte]
  simp only [encode, h, hfirst]
  by_cases h1 : payload.length ≤ 125
  · cases key <;>
      simp [h1, Frame.header, Frame.secondByte, Frame.body, Frame.keyBytes, maskWith, lengthCode,
        extSize, beBytes]
  · by_cases h2 : payload.length ≤ 65535
    · cases key <;>
        simp [h1, h2, Frame.header, Frame.secondByte, Frame.body, Frame.keyBytes, maskWith,
          lengthCode, extSize]
    · cases key <;>
        simp [h1, h2, Frame.header, Frame.secondByte, Frame.body, Frame.keyBytes, maskWith,
          lengthCode, extSize]

/-- A data frame always encodes. -/
theorem check_data {final : Bool} {opcode : Opcode} {payload : List UInt8}
    (h : opcode = .continuation ∨ opcode = .text ∨ opcode = .binary) :
    check final opcode payload = .ok () := by
  rcases h with rfl | rfl | rfl <;> rfl

/-- A control frame that is final, short and not a one-byte close encodes. -/
theorem check_control {opcode : Opcode} {payload : List UInt8} (h : opcode.isControl = true)
    (hlen : payload.length ≤ 125) (hclose : opcode = .close → payload.length ≠ 1) :
    check true opcode payload = .ok () := by
  have hc : opcode = .close ∨ opcode = .ping ∨ opcode = .pong := by
    simpa [Opcode.isControl, or_assoc] using h
  have h1 : ¬payload.length > 125 := by omega
  rcases hc with rfl | rfl | rfl
  · have := hclose rfl
    simp [check, Opcode.isControl, Opcode.close, Opcode.continuation, Opcode.text, Opcode.binary,
      this, hlen]
  · simp [check, Opcode.isControl, Opcode.close, Opcode.ping, Opcode.continuation, Opcode.text,
      Opcode.binary, hlen]
  · simp [check, Opcode.isControl, Opcode.close, Opcode.ping, Opcode.pong, Opcode.continuation,
      Opcode.text, Opcode.binary, hlen]

theorem encodeCompressed_eq {final : Bool} {opcode : Opcode} {payload : List UInt8}
    {key : Option MaskKey} (h : opcode = .continuation ∨ opcode = .text ∨ opcode = .binary) :
    encodeCompressed final opcode payload key = .ok
      ⟨⟨(Frame.mk final (opcode != .continuation) opcode key payload).header⟩,
        (Frame.mk final (opcode != .continuation) opcode key payload).body⟩ := by
  unfold encodeCompressed
  rw [encode_eq (check_data h)]
  rcases h with rfl | rfl | rfl <;>
    simp [Opcode.continuation, Opcode.text, Opcode.binary, Frame.header, Frame.firstByte,
      Frame.secondByte, Frame.keyBytes, Frame.body]

end Encoder

/-! ## Decoder -/

/-- The decoder : input fed and not consumed, and the payload left of the open frame. -/
structure Decoder where
  pending : List UInt8 := []
  remaining : ℕ := 0
  deriving DecidableEq, Repr

namespace Decoder

def reset (_d : Decoder) : Decoder := {}

def buffered (d : Decoder) : ℕ :=
  d.pending.length

/-- `Feed`. -/
def feed (d : Decoder) (b : List UInt8) : Decoder :=
  if b.length = 0 then d
  else if d.pending.length = 0 then { d with pending := b }
  else { d with pending := d.pending ++ b }

/-- `Preserve` moves the pending input to storage of the decoder's own. -/
def preserve (d : Decoder) : Decoder :=
  if d.pending.length = 0 then d else { d with pending := d.pending }

/-- Bytes of the header whose second byte is `b1`. -/
def headerSize (b1 : UInt8) : ℕ :=
  let lengthCode := b1 &&& 0x7f
  2 + (if lengthCode = 126 then 2 else if lengthCode = 127 then 8 else 0) +
    (if b1 &&& 0x80 != 0 then 4 else 0)

/-- `NextHeaderInto` : whether a header was complete, the caller's header, and the
decoder. -/
def nextHeaderInto (d : Decoder) (h : Header) : Except Err Bool × Header × Decoder :=
  if d.remaining ≠ 0 then (.error .payloadPending, h, d)
  else
    match d.pending with
    | _ :: b1 :: _ =>
      let n := headerSize b1
      if d.pending.length < n then (.ok false, h, d)
      else
        let h' : Header := ⟨d.pending.take n⟩
        let lengthCode := b1 &&& 0x7f
        let remaining := h'.payloadLen
        if (lengthCode = 126 ∧ remaining < 126) ∨
            (lengthCode = 127 ∧ (remaining < 65536 ∨ remaining >>> 63 ≠ 0)) then
          (.error .invalidPayloadLength, {}, d)
        else (.ok true, h', ⟨d.pending.drop n, remaining⟩)
    | _ => (.ok false, h, d)

/-- `PayloadN` : at most `n` bytes of the open frame, and whether it is complete. -/
def payloadN (d : Decoder) (n : ℤ) : List UInt8 × Bool × Decoder :=
  if d.remaining = 0 then ([], true, d)
  else if n ≤ 0 ∨ d.pending.length = 0 then ([], false, d)
  else
    let k := min (min n.toNat d.pending.length) d.remaining
    let d' : Decoder := ⟨d.pending.drop k, d.remaining - k⟩
    (d.pending.take k, d'.remaining = 0, d')

/-- `Payload`. -/
def payload (d : Decoder) : List UInt8 × Bool × Decoder :=
  d.payloadN d.pending.length

@[simp] theorem feed_pending (d : Decoder) (b : List UInt8) :
    (d.feed b).pending = d.pending ++ b := by
  unfold feed
  split_ifs with h1 h2
  · simp [List.eq_nil_of_length_eq_zero h1]
  · simp [List.eq_nil_of_length_eq_zero h2]
  · rfl

@[simp] theorem feed_remaining (d : Decoder) (b : List UInt8) :
    (d.feed b).remaining = d.remaining := by
  unfold feed
  split_ifs <;> rfl

@[simp] theorem preserve_eq (d : Decoder) : d.preserve = d := by
  unfold preserve
  split_ifs <;> rfl

theorem and_length_eq_126 (b : UInt8) : b &&& 0x7f = 126 ↔ b.toNat % 128 = 126 := by
  rw [← UInt8.toNat_inj, toNat_and_length]
  rfl

theorem and_length_eq_127 (b : UInt8) : b &&& 0x7f = 127 ↔ b.toNat % 128 = 127 := by
  rw [← UInt8.toNat_inj, toNat_and_length]
  rfl

theorem headerSize_eq (b1 : UInt8) : headerSize b1 = 2 + extOf b1 + keySizeOf b1 := by
  simp only [headerSize, extOf, keySizeOf, and_length_eq_126, and_length_eq_127, and_final,
    decide_eq_true_eq]

end Decoder

/-! ## What a decoded header says -/

/-- The accessors of `h` read the head `fh`. -/
structure Header.Says (h : Header) (fh : FrameHead) : Prop where
  final : h.final = fh.final
  rsv1 : h.rsv1 = fh.rsv1
  rsv2 : h.rsv2 = fh.rsv2
  rsv3 : h.rsv3 = fh.rsv3
  opcode : h.opcode = fh.opcode
  masked : h.masked = fh.key.isSome
  maskKey : ∀ k, fh.key = some k → MaskKey.ofBytes h.maskKey = k
  payloadLen : h.payloadLen = fh.length

theorem Header.payloadLen_cons (b0 b1 : UInt8) (bs : List UInt8) :
    Header.payloadLen ⟨b0 :: b1 :: bs⟩ = lengthOf b1 bs := by
  simp only [Header.payloadLen, Header.byte, List.getD_cons_succ, List.getD_cons_zero,
    Decoder.and_length_eq_126, Decoder.and_length_eq_127, List.drop_succ_cons, List.drop_zero,
    toNat_and_length, lengthOf, extOf]
  by_cases h126 : b1.toNat % 128 = 126
  · simp [h126]
  · by_cases h127 : b1.toNat % 128 = 127 <;> simp [h126, h127]

theorem Header.says_headOf {b0 b1 : UInt8} {bs : List UInt8}
    (hlen : bs.length = extOf b1 + keySizeOf b1) :
    Header.Says ⟨b0 :: b1 :: bs⟩ (headOf b0 b1 bs) where
  final := and_final b0
  rsv1 := and_rsv1 b0
  rsv2 := and_rsv2 b0
  rsv3 := and_rsv3 b0
  opcode := and_opcode b0
  masked := by
    rw [headOf, keyOf, Header.masked, Header.byte]
    simp only [List.getD_cons_succ, List.getD_cons_zero, and_final]
    split_ifs with h <;> simp [h]
  maskKey := by
    intro k hk
    rw [headOf, keyOf] at hk
    split_ifs at hk with h128
    have hks : keySizeOf b1 = 4 := if_pos h128
    have hm : Header.masked ⟨b0 :: b1 :: bs⟩ = true := by
      simp [Header.masked, Header.byte, and_final, h128]
    rw [Header.maskKey, if_pos hm, ← Option.some.inj hk, Header.len]
    simp only [List.length_cons]
    rw [show bs.length + 1 + 1 - 4 = extOf b1 + 2 by omega, List.drop_succ_cons,
      List.drop_succ_cons, List.take_of_length_le (by simp only [List.length_drop]; omega)]
  payloadLen := Header.payloadLen_cons b0 b1 bs

namespace Decoder

/-- The check of the source on a length is the shortest-form rule. -/
theorem lengthOk_iff (b1 : UInt8) (bs : List UInt8) : LengthOk b1 bs ↔
    ¬((b1 &&& 0x7f = 126 ∧ lengthOf b1 bs < 126) ∨
      (b1 &&& 0x7f = 127 ∧ (lengthOf b1 bs < 65536 ∨ lengthOf b1 bs >>> 63 ≠ 0))) := by
  have hlt : beNat (bs.take 2) < 65536 := by
    refine (beNat_lt _).trans_le ?_
    calc 256 ^ (bs.take 2).length ≤ 256 ^ 2 := Nat.pow_le_pow_right (by decide) (by simp)
      _ = 65536 := by norm_num
  rw [and_length_eq_126, and_length_eq_127, LengthOk, Nat.shiftRight_eq_div_pow]
  rcases Nat.lt_or_ge (b1.toNat % 128) 126 with hlow | hhigh
  · have hext : extOf b1 = 0 := by
      rw [extOf, if_neg (by omega), if_neg (by omega)]
    have hl : lengthOf b1 bs = b1.toNat % 128 := if_pos hext
    rw [hext, hl, extSize]
    constructor
    · omega
    · intro _
      exact ⟨if_pos (by omega), by omega⟩
  · have hcase : b1.toNat % 128 = 126 ∨ b1.toNat % 128 = 127 := by omega
    rcases hcase with hc | hc
    · have hext : extOf b1 = 2 := if_pos hc
      have hl : lengthOf b1 bs < 65536 := by
        rw [lengthOf, hext]
        exact hlt
      rw [hext, extSize_eq_two]
      omega
    · have hext : extOf b1 = 8 := by
        rw [extOf, if_neg (by omega), if_pos hc]
      rw [hext, extSize_eq_eight]
      omega

/-- A header that is complete is cut off the input. -/
theorem nextHeaderInto_raw {d d' : Decoder} {h h' : Header}
    (heq : d.nextHeaderInto h = (.ok true, h', d')) : d.pending = h'.raw ++ d'.pending := by
  unfold nextHeaderInto at heq
  by_cases hr : d.remaining = 0
  · rw [if_neg (by simp [hr])] at heq
    split at heq
    · dsimp only at heq
      split_ifs at heq
      all_goals cases heq
      exact (List.take_append_drop _ _).symm
    · cases heq
  · rw [if_pos hr] at heq
    cases heq

/-- The header step reads the head of the pending input. -/
theorem nextHeaderInto_eq (d : Decoder) (h : Header) (hr : d.remaining = 0) :
    (parseHead d.pending = .more → d.nextHeaderInto h = (.ok false, h, d)) ∧
    (parseHead d.pending = .invalid →
      d.nextHeaderInto h = (.error .invalidPayloadLength, {}, d)) ∧
    ∀ fh rest, parseHead d.pending = .head fh rest →
      ∃ h', d.nextHeaderInto h = (.ok true, h', ⟨rest, fh.length⟩) ∧ h'.Says fh := by
  unfold nextHeaderInto
  rw [if_neg (by omega : ¬d.remaining ≠ 0)]
  match hd : d.pending with
  | [] => simp [parseHead]
  | [_] => simp [parseHead]
  | b0 :: b1 :: bs =>
    have hsize : (b0 :: b1 :: bs).length < headerSize b1 ↔
        bs.length < extOf b1 + keySizeOf b1 := by
      rw [headerSize_eq, List.length_cons, List.length_cons]
      omega
    simp only [hsize]
    rcases Nat.lt_or_ge bs.length (extOf b1 + keySizeOf b1) with hlt | hge
    · simp [parseHead, hlt]
    · have htake : (b0 :: b1 :: bs).take (headerSize b1) =
          b0 :: b1 :: bs.take (extOf b1 + keySizeOf b1) := by
        rw [headerSize_eq, show 2 + extOf b1 + keySizeOf b1 = extOf b1 + keySizeOf b1 + 1 + 1 by omega,
          List.take_succ_cons, List.take_succ_cons]
      have hdrop : (b0 :: b1 :: bs).drop (headerSize b1) =
          bs.drop (extOf b1 + keySizeOf b1) := by
        rw [headerSize_eq, show 2 + extOf b1 + keySizeOf b1 = extOf b1 + keySizeOf b1 + 1 + 1 by omega,
          List.drop_succ_cons, List.drop_succ_cons]
      -- The head is cut out of the input, so its length is read without what follows.
      have hbs : bs = bs.take (extOf b1 + keySizeOf b1) ++ bs.drop (extOf b1 + keySizeOf b1) :=
        (List.take_append_drop _ _).symm
      have hcut : (bs.take (extOf b1 + keySizeOf b1)).length = extOf b1 + keySizeOf b1 := by
        rw [List.length_take]
        omega
      have hl : lengthOf b1 (bs.take (extOf b1 + keySizeOf b1)) = lengthOf b1 bs := by
        conv_rhs => rw [hbs]
        exact (lengthOf_append (by omega) _).symm
      have hh : headOf b0 b1 (bs.take (extOf b1 + keySizeOf b1)) = headOf b0 b1 bs := by
        conv_rhs => rw [hbs]
        exact (headOf_append (by omega) _).symm
      rw [if_neg (by omega), parseHead_of_length_le hge, htake, hdrop, Header.payloadLen_cons, hl]
      by_cases hok : LengthOk b1 bs
      · rw [if_neg ((lengthOk_iff b1 bs).mp hok), if_pos hok]
        refine ⟨by simp, by simp, ?_⟩
        intro fh rest hp
        obtain ⟨rfl, rfl⟩ := HeadParse.head.inj hp
        exact ⟨_, rfl, hh ▸ Header.says_headOf hcut⟩
      · rw [if_pos (by_contra fun hn => hok ((lengthOk_iff b1 bs).mpr hn)), if_neg hok]
        simp

/-- What `PayloadN` takes, and what it leaves. -/
theorem payloadN_eq (d : Decoder) (n : ℤ) :
    d.payloadN n = (d.pending.take (min (min n.toNat d.pending.length) d.remaining),
      decide (d.remaining = min (min n.toNat d.pending.length) d.remaining),
      ⟨d.pending.drop (min (min n.toNat d.pending.length) d.remaining),
        d.remaining - min (min n.toNat d.pending.length) d.remaining⟩) := by
  unfold payloadN
  split_ifs with h1 h2
  · simp [h1]
    cases d
    simp_all
  · have hk : min (min n.toNat d.pending.length) d.remaining = 0 := by omega
    simp only [hk, List.take_zero, List.drop_zero, Nat.sub_zero, h1, decide_false]
  · simp only [Prod.mk.injEq, true_and, decide_eq_decide, and_true]
    omega

end Decoder

end Ews
