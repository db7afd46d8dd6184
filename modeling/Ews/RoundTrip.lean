import Ews.Arrival

/-!
# The codec round trip

What the encoder writes, the decoder reads back, and what the decoder reads as one
frame that could have been encoded is what the encoder writes.

An `EncodeCall` is one frame to write. The decoded header of a call that is `Valid` is
the encoder's own (`Frame.good_header`), so its accessors give the call's arguments
(`EncodeCall.Reads`). In the other direction `header_of_head` rebuilds the bytes of a
head from what they say ; this is where the shortest form of a length is needed.
-/

namespace Ews

open Bytes

/-! ## Reading back what was written -/

/-- The header of a frame is taken as it is, and says what the frame says. -/
theorem Frame.good_header (f : Frame) (hop : f.opcode.toNat < 16)
    (hlen : f.payload.length < 2 ^ 63) :
    Header.Good ⟨f.header⟩ ∧ Header.Says ⟨f.header⟩ f.head := by
  have hread : ∀ (rest : List UInt8) (h0 : Header), ∃ h : Header,
      Decoder.nextHeaderInto ⟨f.header ++ rest, 0⟩ h0 = (.ok true, h, ⟨rest, f.head.length⟩) ∧
        h.Says f.head ∧ h = ⟨f.header⟩ ∧ h.Good := by
    intro rest h0
    obtain ⟨h, he, hs⟩ := (Decoder.nextHeaderInto_eq ⟨f.header ++ rest, 0⟩ h0 rfl).2.2 _ _
      (parseHead_header f hop hlen rest)
    obtain ⟨-, hraw, -, hg⟩ := Decoder.nextHeaderInto_ok he
    have hh : f.header = h.raw := (List.append_inj_left' hraw rfl)
    exact ⟨h, he, hs, by rw [hh], hg⟩
  obtain ⟨h, -, hs, rfl, hg⟩ := hread [] {}
  exact ⟨hg, hs⟩

/-- The key a frame carries is the end of its header. -/
theorem Frame.maskKey_header (f : Frame) : Header.maskKey ⟨f.header⟩ = f.keyBytes := by
  have hm : Header.masked ⟨f.header⟩ = f.key.isSome := by
    have hlt := lengthCode_lt f.payload.length
    simp only [Header.masked, Header.byte, Frame.header, List.getD_cons_succ,
      List.getD_cons_zero, and_final, secondByte_toNat]
    cases f.key with
    | none => simp; omega
    | some k => simp
  unfold Header.maskKey
  rw [hm]
  cases hk : f.key with
  | none => simp [Frame.keyBytes, hk]
  | some k =>
    have hlen : f.keyBytes.length = 4 := by simp [Frame.keyBytes, hk]
    have hcut : f.header = (f.firstByte :: f.secondByte ::
        beBytes (extSize f.payload.length) f.payload.length) ++ f.keyBytes := rfl
    simp only [Option.isSome_some, if_true, Header.len, hcut]
    refine List.drop_left' ?_
    rw [List.length_append]
    omega

/-- One frame for the encoder : `Encode`, or `EncodeCompressed`. -/
structure EncodeCall where
  compressed : Bool
  final : Bool
  opcode : Opcode
  payload : List UInt8
  key : Option MaskKey
  deriving DecidableEq, Repr

namespace EncodeCall

def run (c : EncodeCall) : Except Err Encoder :=
  if c.compressed then Encoder.encodeCompressed c.final c.opcode c.payload c.key
  else Encoder.encode c.final c.opcode c.payload c.key

/-- A data frame, or a plain control frame within the control rules. -/
def Valid (c : EncodeCall) : Prop :=
  (c.opcode = .continuation ∨ c.opcode = .text ∨ c.opcode = .binary) ∨
    (c.opcode.isControl = true ∧ c.compressed = false ∧ c.final = true ∧
      c.payload.length ≤ 125 ∧ (c.opcode = .close → c.payload.length ≠ 1))

instance (c : EncodeCall) : Decidable c.Valid :=
  inferInstanceAs (Decidable (_ ∨ _))

/-- The frame the call writes. Compression is marked where a message starts. -/
def frame (c : EncodeCall) : Frame :=
  ⟨c.final, c.compressed && c.opcode != .continuation, c.opcode, c.key, c.payload⟩

/-- A valid call succeeds, with the encoding of its frame. -/
theorem run_eq {c : EncodeCall} (h : c.Valid) :
    c.run = .ok ⟨⟨c.frame.header⟩, c.frame.body⟩ := by
  obtain ⟨compressed, final, opcode, payload, key⟩ := c
  unfold run
  rcases h with hdata | ⟨hc, hplain, hfin, hlen, hclose⟩
  · cases compressed with
    | true => exact Encoder.encodeCompressed_eq hdata
    | false => exact Encoder.encode_eq (Encoder.check_data hdata)
  · dsimp only at hc hplain hfin hlen hclose
    subst hplain hfin
    exact Encoder.encode_eq (Encoder.check_control hc hlen hclose)

theorem opcode_lt {c : EncodeCall} (h : c.Valid) : c.opcode.toNat < 16 := by
  rcases h with (h | h | h) | ⟨hc, -⟩
  · rw [h]; decide
  · rw [h]; decide
  · rw [h]; decide
  · have : c.opcode = .close ∨ c.opcode = .ping ∨ c.opcode = .pong := by
      simpa [Opcode.isControl, or_assoc] using hc
    rcases this with h | h | h <;> rw [h] <;> decide

end EncodeCall

namespace Decoded

/-- The key of a decoded frame, as a caller copies it out. -/
def key (x : Decoded) : Option MaskKey :=
  if x.header.masked then some (MaskKey.ofBytes x.header.maskKey) else none

/-- The payload unmasked from offset zero. -/
def data (x : Decoded) : List UInt8 :=
  maskWith x.key 0 x.payload

end Decoded

/-- A decoded frame gives back the arguments of a call. -/
structure EncodeCall.Reads (c : EncodeCall) (x : Decoded) : Prop where
  final : x.header.final = c.final
  rsv1 : x.header.rsv1 = (c.compressed && c.opcode != .continuation)
  rsv2 : x.header.rsv2 = false
  rsv3 : x.header.rsv3 = false
  opcode : x.header.opcode = c.opcode
  masked : x.header.masked = c.key.isSome
  maskKey : x.header.maskKey = (c.key.map MaskKey.bytes).getD []
  payloadLen : x.header.payloadLen = c.payload.length
  data : x.data = c.payload

/-- What a call wrote, as a decoded frame. -/
def Encoder.decoded (e : Encoder) : Decoded :=
  ⟨e.h, e.payload⟩

theorem EncodeCall.reads_frame {c : EncodeCall} (h : c.Valid) (hlen : c.payload.length < 2 ^ 63) :
    c.Reads ⟨⟨c.frame.header⟩, c.frame.body⟩ := by
  have hs := (c.frame.good_header (opcode_lt h) hlen).2
  have hkey : Decoded.key ⟨⟨c.frame.header⟩, c.frame.body⟩ = c.key := by
    unfold Decoded.key
    rw [hs.masked, show c.frame.head.key = c.key from rfl]
    cases hk : c.key with
    | none => rfl
    | some k => rw [if_pos (by rfl), hs.maskKey k hk]
  exact
    { final := hs.final
      rsv1 := hs.rsv1
      rsv2 := hs.rsv2
      rsv3 := hs.rsv3
      opcode := hs.opcode
      masked := hs.masked
      maskKey := c.frame.maskKey_header
      payloadLen := hs.payloadLen
      data := by
        rw [Decoded.data, hkey]
        exact maskWith_maskWith c.key 0 c.payload }

/-- The bytes the encoders hold, one frame after the other. -/
def Encoder.wire (es : List Encoder) : List UInt8 :=
  (es.map fun e => e.h.raw ++ e.payload).flatten

/-- The calls of a list and the frames they leave in the encoder. -/
abbrev EncodeCall.Wrote (cs : List EncodeCall) (es : List Encoder) : Prop :=
  List.Forall₂ (fun c e => c.run = .ok e) cs es

theorem exists_wrote : ∀ {cs : List EncodeCall}, (∀ c ∈ cs, c.Valid) → ∃ es, EncodeCall.Wrote cs es
  | [], _ => ⟨[], .nil⟩
  | c :: cs, h => by
    obtain ⟨es, hes⟩ := exists_wrote fun c hc => h c (List.mem_cons_of_mem _ hc)
    exact ⟨_ :: es, .cons (EncodeCall.run_eq (h c List.mem_cons_self)) hes⟩

/-- What valid calls wrote can be taken apart into their frames, with nothing left. -/
theorem taken_wire {cs : List EncodeCall} {es : List Encoder} (hes : EncodeCall.Wrote cs es)
    (hv : ∀ c ∈ cs, c.Valid) (hlen : (Encoder.wire es).length < 2 ^ 63) :
    ({} : Decoder).Taken (es.map Encoder.decoded) (Encoder.wire es) ∧
      List.Forall₂ EncodeCall.Reads cs (es.map Encoder.decoded) := by
  induction hes with
  | nil => exact ⟨.rest rfl, .nil⟩
  | @cons c e cs es he _ ih =>
    have hc := hv c List.mem_cons_self
    have hwire : Encoder.wire (e :: es) = e.h.raw ++ (e.payload ++ Encoder.wire es) := by
      rw [Encoder.wire, List.map_cons, List.flatten_cons, List.append_assoc]
      rfl
    rw [hwire] at hlen ⊢
    rw [EncodeCall.run_eq hc] at he
    cases he
    simp only [List.length_append, Frame.length_body] at hlen
    have hfits : c.payload.length < 2 ^ 63 := by
      show c.frame.payload.length < 2 ^ 63
      omega
    have hgood := c.frame.good_header (EncodeCall.opcode_lt hc) hfits
    obtain ⟨htaken, hreads⟩ := ih (fun c' h => hv c' (List.mem_cons_of_mem _ h)) (by omega)
    refine ⟨.frame hgood.1 ?_ htaken, .cons (EncodeCall.reads_frame hc hfits) hreads⟩
    rw [hgood.2.payloadLen, Frame.length_body]
    rfl

/-! ## Writing back what was read -/

theorem firstByte_of_bits (b : UInt8) (h2 : ¬b.toNat / 32 % 2 = 1) (h3 : ¬b.toNat / 16 % 2 = 1) :
    UInt8.ofNat (b.toNat % 16) ||| (if 128 ≤ b.toNat then 0x80 else 0) |||
      (if b.toNat / 64 % 2 = 1 then 0x40 else 0) = b :=
  forall_byte (p := fun b => ¬b.toNat / 32 % 2 = 1 → ¬b.toNat / 16 % 2 = 1 →
    UInt8.ofNat (b.toNat % 16) ||| (if 128 ≤ b.toNat then 0x80 else 0) |||
      (if b.toNat / 64 % 2 = 1 then 0x40 else 0) = b) (by decide +kernel) b h2 h3

/-- A length in its shortest form has the length code it was read from. -/
theorem lengthCode_lengthOf {b : UInt8} {bs : List UInt8} (hok : LengthOk b bs) :
    lengthCode (lengthOf b bs) = b.toNat % 128 := by
  have hext := hok.1
  rcases Nat.lt_or_ge (b.toNat % 128) 126 with hlow | hhigh
  · have h0 : extOf b = 0 := by
      rw [extOf, if_neg (by omega), if_neg (by omega)]
    rw [lengthOf, if_pos h0, lengthCode, if_pos (by omega)]
  · rcases (by omega : b.toNat % 128 = 126 ∨ b.toNat % 128 = 127) with hc | hc
    · rw [show extOf b = 2 from if_pos hc] at hext
      obtain ⟨h1, h2⟩ := extSize_eq_two.mp hext
      rw [lengthCode, if_neg (by omega), if_pos h2, hc]
    · rw [show extOf b = 8 by rw [extOf, if_neg (by omega), if_pos hc]] at hext
      have h1 := extSize_eq_eight.mp hext
      rw [lengthCode, if_neg (by omega), if_neg (by omega), hc]

/-- A head that was read, written again. -/
theorem header_of_head {b0 b1 : UInt8} {bs : List UInt8} {f : Frame}
    (hlen : bs.length = extOf b1 + keySizeOf b1) (hok : LengthOk b1 bs)
    (hh : f.head = headOf b0 b1 bs) : f.header = b0 :: b1 :: bs := by
  have hkey : f.key = keyOf b1 bs := congrArg FrameHead.key hh
  have hsize : f.payload.length = lengthOf b1 bs := congrArg FrameHead.length hh
  have hfirst : f.firstByte = b0 := by
    have h2 : false = decide (b0.toNat / 32 % 2 = 1) := congrArg FrameHead.rsv2 hh
    have h3 : false = decide (b0.toNat / 16 % 2 = 1) := congrArg FrameHead.rsv3 hh
    have hbits := firstByte_of_bits b0 (of_decide_eq_false h2.symm) (of_decide_eq_false h3.symm)
    rw [Frame.firstByte, show f.opcode = _ from congrArg FrameHead.opcode hh,
      show f.final = _ from congrArg FrameHead.final hh,
      show f.rsv1 = _ from congrArg FrameHead.rsv1 hh]
    simpa only [headOf, decide_eq_true_eq] using hbits
  have hsecond : f.secondByte = b1 := by
    have hb := UInt8.toNat_lt b1
    rw [← UInt8.toNat_inj, secondByte_toNat, hsize, lengthCode_lengthOf hok, hkey, keyOf]
    split_ifs with hm hs hs
    · omega
    · simp at hs
    · simp at hs
    · omega
  have hcut : bs = bs.take (extOf b1) ++ bs.drop (extOf b1) := (List.take_append_drop _ _).symm
  have hext : beBytes (extSize f.payload.length) f.payload.length = bs.take (extOf b1) := by
    rw [hsize, hok.1]
    by_cases h0 : extOf b1 = 0
    · rw [h0]
      rfl
    · rw [lengthOf, if_neg h0]
      have htake : (bs.take (extOf b1)).length = extOf b1 := by
        rw [List.length_take]
        omega
      have hback := beBytes_beNat (bs.take (extOf b1))
      rwa [htake] at hback
  have hkeys : f.keyBytes = bs.drop (extOf b1) := by
    rw [Frame.keyBytes, hkey, keyOf]
    split_ifs with hm
    · have h4 : keySizeOf b1 = 4 := if_pos hm
      have hd : (bs.drop (extOf b1)).length = 4 := by
        rw [List.length_drop]
        omega
      rw [List.take_of_length_le hd.le]
      exact MaskKey.bytes_ofBytes hd
    · have h0 : keySizeOf b1 = 0 := if_neg hm
      rw [List.drop_of_length_le (by omega)]
      rfl
  rw [Frame.header, hfirst, hsecond, hext, hkeys, ← hcut]

/-- The bytes of a header, and what they say. -/
theorem Header.Good.split {h : Header} (hg : h.Good) : ∃ b0 b1 bs, h.raw = b0 :: b1 :: bs ∧
    bs.length = extOf b1 + keySizeOf b1 ∧ LengthOk b1 bs ∧ h.Says (headOf b0 b1 bs) := by
  have ho := hg [] {}
  rw [List.append_nil] at ho
  obtain ⟨hmore, hinvalid, hhead⟩ := Decoder.nextHeaderInto_eq ⟨h.raw, 0⟩ {} rfl
  cases hp : parseHead h.raw with
  | more => cases congrArg Prod.fst (ho.symm.trans (hmore hp))
  | invalid => cases congrArg Prod.fst (ho.symm.trans (hinvalid hp))
  | head fh rest =>
    obtain ⟨h', he, hs⟩ := hhead fh rest hp
    obtain ⟨b0, b1, bs, hraw, hlen, hok, rfl, hrest⟩ := parseHead_eq_head hp
    have heq := ho.symm.trans he
    have hh : h = h' := congrArg (fun x => x.2.1) heq
    have hnil : [] = rest := congrArg (fun x => x.2.2.pending) heq
    have hdrop := congrArg List.length (hnil.trans hrest)
    rw [List.length_drop, List.length_nil] at hdrop
    exact ⟨b0, b1, bs, hraw, by omega, hok, hh ▸ hs⟩

namespace Decoded

variable {x : Decoded}

/-- The call that writes a decoded frame again. -/
def call (x : Decoded) : EncodeCall :=
  ⟨x.header.rsv1, x.header.final, x.header.opcode, x.data, x.key⟩

/-- The encoder could have written the frame : RSV2 and RSV3 are clear, RSV1 marks the
start of a message, and the opcode and size are good. -/
structure Encodable (x : Decoded) : Prop where
  rsv2 : x.header.rsv2 = false
  rsv3 : x.header.rsv3 = false
  rsv1 : x.header.rsv1 = true → x.header.opcode ≠ .continuation
  valid : x.call.Valid

theorem key_eq {fh : FrameHead} (hs : x.header.Says fh) : x.key = fh.key := by
  rw [key, hs.masked]
  cases hk : fh.key with
  | none => rfl
  | some k => rw [if_pos (by rfl), hs.maskKey k hk]

/-- The frame written again has the head that was read. -/
theorem head_call (he : x.Encodable) (hlen : x.payload.length = x.header.payloadLen)
    {fh : FrameHead} (hs : x.header.Says fh) : x.call.frame.head = fh := by
  have hrsv1 : (x.header.rsv1 && x.header.opcode != .continuation) = x.header.rsv1 := by
    cases hr : x.header.rsv1 with
    | false => rfl
    | true => simp [he.rsv1 hr]
  have hsize : x.call.payload.length = fh.length := by
    rw [← hs.payloadLen, ← hlen]
    exact length_maskWith _ _ _
  obtain ⟨final, rsv1, rsv2, rsv3, opcode, key, length⟩ := fh
  rw [Frame.head, FrameHead.mk.injEq]
  exact ⟨hs.final, hrsv1.trans hs.rsv1, he.rsv2.symm.trans hs.rsv2, he.rsv3.symm.trans hs.rsv3,
    hs.opcode, key_eq hs, hsize⟩

/-- Writing a decoded frame again gives the bytes it was read from. -/
theorem call_run (he : x.Encodable) (hg : x.header.Good)
    (hlen : x.payload.length = x.header.payloadLen) :
    x.call.run = .ok ⟨x.header, x.payload⟩ := by
  obtain ⟨b0, b1, bs, hraw, hbs, hok, hs⟩ := hg.split
  have hheader : (⟨x.call.frame.header⟩ : Header) = x.header := by
    rw [header_of_head hbs hok (head_call he hlen hs), ← hraw]
  have hbody : x.call.frame.body = x.payload := maskWith_maskWith x.key 0 x.payload
  rw [EncodeCall.run_eq he.valid, hheader, hbody]

end Decoded

/-! ## The round trip -/

namespace SlicedDecoder

/-- Every list of valid frames is encoded, and a decoder fed the bytes in any pieces,
which can always be driven until it takes no more, then has exactly those frames and
no input left. Conversely a byte string that was taken as one frame which could have
been encoded is what the encoder writes for it. -/
theorem codec_round_trip (grow : ℕ → ℕ) (d : SlicedDecoder) :
    (∀ calls : List EncodeCall, (∀ c ∈ calls, c.Valid) → ∃ es, EncodeCall.Wrote calls es ∧
      ((Encoder.wire es).length < 2 ^ 63 → ∀ cs, fed cs = Encoder.wire es →
        (∃ more, fed more = [] ∧ (Reading.run grow ⟨d.reset, []⟩ (cs ++ more)).dec.Dry) ∧
        ((Reading.run grow ⟨d.reset, []⟩ cs).dec.Dry →
          List.Forall₂ EncodeCall.Reads calls (Reading.run grow ⟨d.reset, []⟩ cs).frames ∧
          (Reading.run grow ⟨d.reset, []⟩ cs).dec.bytes = [] ∧
          (Reading.run grow ⟨d.reset, []⟩ cs).dec.remaining = 0))) ∧
    (∀ cs x, (fed cs).length < 2 ^ 63 → (Reading.run grow ⟨d.reset, []⟩ cs).frames = [x] →
      (Reading.run grow ⟨d.reset, []⟩ cs).dec.bytes = [] →
      (Reading.run grow ⟨d.reset, []⟩ cs).dec.remaining = 0 → x.Encodable →
      ∃ e, x.call.run = .ok e ∧ e.h.raw ++ e.payload = fed cs) := by
  constructor
  · intro calls hv
    obtain ⟨es, hes⟩ := exists_wrote hv
    refine ⟨es, hes, ?_⟩
    intro hlen cs hfed
    have ht := Reading.took_run grow d (hfed ▸ hlen)
    rw [hfed] at ht
    constructor
    · obtain ⟨more, hmore, hdry⟩ := Reading.exists_dry grow _ ht hlen le_rfl
      exact ⟨more, hmore, by rwa [Reading.run_append]⟩
    · intro hdry
      obtain ⟨htaken, hreads⟩ := taken_wire hes hv hlen
      obtain ⟨hframes, hview⟩ := ht.unique (dry_view (ht.pending_le.trans_lt hlen) hdry) htaken
        ⟨by decide, rfl⟩
      refine ⟨hframes ▸ hreads, congrArg Decoder.pending hview, ?_⟩
      exact UInt64.toNat_inj.mp (congrArg Decoder.remaining hview)
  · intro cs x hlen hframes hbytes hrem he
    have ht : Decoder.Taken _ _ _ := Reading.took_run grow d hlen
    have hzero : (Reading.run grow ⟨d.reset, []⟩ cs).dec.view.remaining = 0 := by
      rw [view_remaining, hrem]
      rfl
    rw [hframes] at ht
    generalize fed cs = bs at ht
    cases ht with
    | inside _ hr _ => exact absurd hzero hr
    | @frame h p _ bs hg hlen' hrest =>
      refine ⟨_, Decoded.call_run he hg hlen', ?_⟩
      cases hrest
      rw [view_pending, hbytes, List.append_nil]

/-- A compressed fragment and a masked ping there and back, and a pong read and written
again. -/
theorem codec_round_trip_mixed :
    let calls : List EncodeCall :=
      [⟨true, false, .text, [1, 2], none⟩, ⟨false, true, .ping, [], some ⟨1, 2, 3, 4⟩⟩]
    let frames := (Reading.run id ⟨{}, []⟩ [.feed [0x41, 0x02, 1, 2, 0x89, 0x80, 1, 2, 3, 4],
      .nextHeader, .payload, .nextHeader, .payload]).frames
    List.Forall₂ EncodeCall.Reads calls frames ∧
      ∃ e, (Decoded.call ⟨⟨[0x8a, 0x00]⟩, []⟩).run = .ok e ∧ e.h.raw ++ e.payload = [0x8a, 0x00] := by
  intro calls frames
  constructor
  · obtain ⟨es, hes, hread⟩ := (codec_round_trip id {}).1 calls (by decide)
    have hwire : Encoder.wire es = [0x41, 0x02, 1, 2, 0x89, 0x80, 1, 2, 3, 4] := by
      dsimp only [calls] at hes
      rcases hes with _ | ⟨h1, _ | ⟨h2, _ | _⟩⟩
      cases h1
      cases h2
      rfl
    exact ((hread (by rw [hwire]; decide) _ (by rw [hwire]; rfl)).2 (by decide +kernel)).1
  · exact (codec_round_trip id {}).2 [.feed [0x8a, 0x00], .nextHeader] ⟨⟨[0x8a, 0x00]⟩, []⟩
      (by decide) (by decide +kernel) (by decide +kernel) (by decide +kernel)
      ⟨by decide, by decide, by decide, by decide⟩

end SlicedDecoder

end Ews
