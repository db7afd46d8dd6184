import Ews.Schedule

/-!
# Where a receiver stands in the stream

`Position bs h fh k` says that the bytes `bs` are whole frames, then the header `h`, which says
`fh`, then `k` bytes of its payload. A receiver that has been fed `wire` and is neither failed nor
closed stands at such a position (`Standing`) : what it has consumed ends inside the frame its
header is of, the decoder counts the rest of the frame, and the offset into the key counts the
bytes consumed. Every call keeps this (`Sound.feed`, `Sound.next`, `Sound.payloadN`).
-/

set_option linter.unusedSectionVars false

namespace Ews

open Bytes

/-! ## Positions -/

/-- The bytes end `k` bytes into the payload of a frame with the header `h`, which says `fh` ;
before it there are whole frames. -/
inductive Position : List UInt8 → Header → FrameHead → ℕ → Prop
  | here {h : Header} {fh : FrameHead} {p : List UInt8} (head : parseHead h.raw = .head fh [])
      (within : p.length ≤ fh.length) : Position (h.raw ++ p) h fh p.length
  | behind {raw p bs : List UInt8} {fh' : FrameHead} {h : Header} {fh : FrameHead} {k : ℕ}
      (head : parseHead raw = .head fh' []) (whole : p.length = fh'.length)
      (rest : Position bs h fh k) : Position (raw ++ p ++ bs) h fh k

namespace Position

variable {bs : List UInt8} {h : Header} {fh : FrameHead} {k : ℕ}

/-- More of the payload. -/
theorem more (pos : Position bs h fh k) {p : List UInt8} (hp : k + p.length ≤ fh.length) :
    Position (bs ++ p) h fh (k + p.length) := by
  induction pos with
  | here head within =>
    rw [List.append_assoc, ← List.length_append]
    exact .here head (by rwa [List.length_append])
  | behind head whole rest ih =>
    rw [List.append_assoc]
    exact .behind head whole (ih hp)

/-- The next header, once the payload is complete. -/
theorem next (pos : Position bs h fh k) (hk : k = fh.length) {h' : Header} {fh' : FrameHead}
    (head' : parseHead h'.raw = .head fh' []) : Position (bs ++ h'.raw) h' fh' 0 := by
  have hstart : Position h'.raw h' fh' 0 := by
    have hhere := Position.here (p := []) head' (Nat.zero_le _)
    rwa [List.append_nil, List.length_nil] at hhere
  induction pos with
  | here head within => exact .behind head hk hstart
  | behind head whole rest ih =>
    rw [List.append_assoc]
    exact .behind head whole (ih hk)

end Position

/-- A head says the same without what is behind it. -/
theorem parseHead_cut {raw rest : List UInt8} {fh : FrameHead}
    (h : parseHead (raw ++ rest) = .head fh rest) : parseHead raw = .head fh [] := by
  obtain ⟨b0, b1, bs, hbs, hlen, hok, rfl, hrest⟩ := parseHead_eq_head h
  have hraw : raw = b0 :: b1 :: bs.take (extOf b1 + keySizeOf b1) := by
    have hsplit : raw ++ rest = (b0 :: b1 :: bs.take (extOf b1 + keySizeOf b1)) ++ rest := by
      rw [hbs, hrest]
      simp
    exact List.append_cancel_right hsplit
  have hcut : (bs.take (extOf b1 + keySizeOf b1)).length = extOf b1 + keySizeOf b1 := by
    rw [List.length_take]
    omega
  have hwhole : bs = bs.take (extOf b1 + keySizeOf b1) ++ bs.drop (extOf b1 + keySizeOf b1) :=
    (List.take_append_drop _ _).symm
  have hl : lengthOf b1 (bs.take (extOf b1 + keySizeOf b1)) = lengthOf b1 bs := by
    conv_rhs => rw [hwhole]
    exact (lengthOf_append (by omega) _).symm
  have hh : headOf b0 b1 (bs.take (extOf b1 + keySizeOf b1)) = headOf b0 b1 bs := by
    conv_rhs => rw [hwhole]
    exact (headOf_append (by omega) _).symm
  rw [hraw, parseHead_of_length_le (by omega), if_pos (by rwa [LengthOk, hl]), hh]
  simp

/-! ## The receiver -/

namespace Receiver

/-- The receiver has consumed `k` payload bytes of the frame with the head `fh`, the last one
whose header it has read. A control frame is open until its last byte. -/
structure InFrame (wire : List UInt8) (r : Receiver) (fh : FrameHead) (k : ℕ) : Prop where
  position : ∃ before, wire = before ++ r.dec.pending ∧ Position before r.header fh k
  left : k + r.dec.remaining = fh.length
  key : r.key = fh.key
  offset : r.masked = true → r.maskOffset = k % 4
  data : fh.opcode.isControl = false → r.controlOpen = false ∧ r.remaining = r.dec.remaining
  control : fh.opcode.isControl = true → r.remaining = 0 ∧ fh.length ≤ 125 ∧
    r.control.length = k ∧ (r.controlOpen = true ↔ r.dec.remaining ≠ 0)

/-- Where a receiver that was fed `wire` stands : before its first frame, or in a frame. -/
inductive Standing (wire : List UInt8) (r : Receiver) : Prop
  | start (pending : r.dec.pending = wire) (remaining : r.remaining = 0)
      (left : r.dec.remaining = 0) (control : r.controlOpen = false) (masked : r.masked = false)
  | inside {fh : FrameHead} {k : ℕ} (frame : InFrame wire r fh k)

/-- The receiver stands where it was fed to, unless it is failed or closed. -/
structure Placed (wire : List UInt8) (r : Receiver) : Prop where
  failed : ∀ e, r.failed = some e → ∃ code cause, e = .failure code cause
  standing : r.dead = false → Standing wire r

variable {wire : List UInt8} {r : Receiver} {fh : FrameHead} {k : ℕ}

theorem placed_init (role : Role) (compression : Bool) : Placed [] (init role compression) where
  failed := fun e he => by cases he
  standing := fun _ => .start rfl rfl rfl rfl rfl

theorem Placed.feed (h : Placed wire r) (b : List UInt8) : Placed (wire ++ b) (r.feed b) := by
  cases hd : r.dead with
  | true =>
    rw [feed_dead hd]
    exact ⟨h.failed, fun hl => by cases hd.symm.trans hl⟩
  | false =>
    rw [feed_live hd]
    refine ⟨h.failed, fun _ => ?_⟩
    cases h.standing hd with
    | start pending remaining left control masked =>
      exact .start (by rw [Decoder.feed_pending, pending]) remaining
        (by rw [Decoder.feed_remaining, left]) control masked
    | inside frame =>
      obtain ⟨before, hwire, hpos⟩ := frame.position
      refine .inside ⟨⟨before, ?_, hpos⟩, ?_, frame.key, frame.offset, ?_, ?_⟩
      · rw [Decoder.feed_pending, hwire, List.append_assoc]
      · rw [Decoder.feed_remaining]
        exact frame.left
      · rw [Decoder.feed_remaining]
        exact frame.data
      · rw [Decoder.feed_remaining]
        exact frame.control

theorem maskNext_mod {n : ℕ} (k : ℕ) (h : n = k % 4) (m : ℕ) : maskNext n m = (k + m) % 4 := by
  rw [maskNext]
  omega

/-- More payload of an open data frame. -/
theorem InFrame.moved (h : InFrame wire r fh k) (kind : fh.opcode.isControl = false) {n : ℕ}
    (hn : n ≤ r.dec.pending.length) (hle : n ≤ r.remaining) :
    InFrame wire (r.moved n) fh (k + n) := by
  obtain ⟨before, hwire, hpos⟩ := h.position
  obtain ⟨hopen, hrem⟩ := h.data kind
  have hleft := h.left
  have hlen : (r.dec.pending.take n).length = n := by
    rw [List.length_take]
    omega
  have hpos' := hpos.more (p := r.dec.pending.take n) (by omega)
  rw [hlen] at hpos'
  rw [Receiver.moved, settled_eq]
  refine ⟨⟨before ++ r.dec.pending.take n, ?_, hpos'⟩, ?_, h.key, fun hm => ?_,
    fun _ => ⟨hopen, rfl⟩,
    fun hk => by cases kind.symm.trans hk⟩
  · rw [hwire, List.append_assoc, List.take_append_drop]
  · dsimp only
    omega
  · dsimp only at hm ⊢
    rw [if_pos hm, maskNext_mod k (h.offset hm)]

/-- More payload of an open control frame, which is closed with its last byte. -/
theorem InFrame.gathered (h : InFrame wire r fh k) (kind : fh.opcode.isControl = true) {n : ℕ}
    (hn : n ≤ r.dec.pending.length) (hle : n ≤ r.dec.remaining) {b : Bool}
    (hb : b = true ↔ r.dec.remaining ≠ n) :
    InFrame wire { r.gathered n with controlOpen := b } fh (k + n) := by
  obtain ⟨before, hwire, hpos⟩ := h.position
  obtain ⟨hrem, hshort, hlen, -⟩ := h.control kind
  have hleft := h.left
  have htake : (r.dec.pending.take n).length = n := by
    rw [List.length_take]
    omega
  have hpos' := hpos.more (p := r.dec.pending.take n) (by omega)
  rw [htake] at hpos'
  refine ⟨⟨before ++ r.dec.pending.take n, ?_, hpos'⟩, ?_, h.key, fun hm => ?_,
    fun hk => (by cases kind.symm.trans hk), fun _ => ⟨hrem, hshort, ?_, ?_⟩⟩
  · rw [hwire, List.append_assoc]
    exact congrArg _ (List.take_append_drop _ _).symm
  · simp only [Receiver.gathered]
    omega
  · have hm' : r.masked = true := hm
    simp only [Receiver.gathered, if_pos hm']
    exact maskNext_mod k (h.offset hm') n
  · simp only [Receiver.gathered, List.length_append, length_maskWith, htake, hlen]
  · simp only [Receiver.gathered, hb]
    omega

/-! ## The calls -/

theorem placed_fail (wire : List UInt8) (r : Receiver) (code : ℕ) (e : Err) :
    Placed wire (r.fail code e).2 where
  failed := fun e' he => ⟨code, e, (Option.some.inj he).symm⟩
  standing := fun hl => by simp [Receiver.fail, dead] at hl

theorem placed_of_standing (hf : r.failed = none) (h : Standing wire r) : Placed wire r where
  failed := fun e he => by cases hf.symm.trans he
  standing := fun _ => h

theorem placed_of_dead (hf : r.failed = none) (hd : r.dead = true) : Placed wire r where
  failed := fun e he => by cases hf.symm.trans he
  standing := fun hl => by cases hd.symm.trans hl

theorem placed_finishControl (hf : r.failed = none) (h : Standing wire r) :
    Placed wire r.finishControl.2 := by
  unfold finishControl
  split_ifs
  · cases validateClose r.control with
    | error e => exact placed_fail wire r _ e
    | ok _ => exact placed_of_dead hf (by simp [dead])
  · exact placed_of_standing hf h

/-- Gathering an open control frame. -/
theorem placed_gatherControl (hf : r.failed = none) (hc : r.controlOpen = true)
    (h : InFrame wire r fh k) : Placed wire r.gatherControl.2 := by
  have kind : fh.opcode.isControl = true := by
    cases hkind : fh.opcode.isControl with
    | true => rfl
    | false => cases hc.symm.trans (h.data hkind).1
  obtain ⟨hrem, hshort, hlen, hopen⟩ := h.control kind
  have hleft := h.left
  rw [gatherControl_eq (by omega) rfl]
  generalize hn : min r.dec.pending.length r.dec.remaining = n
  split_ifs with hdone
  · exact placed_finishControl hf (.inside (h.gathered kind (by omega) (by omega)
      (by simp [hdone])))
  · have hopen' : (r.gathered n).controlOpen = true ↔ r.dec.remaining ≠ n :=
      ⟨fun _ => hdone, fun _ => hc⟩
    exact placed_of_standing hf (.inside (h.gathered kind (by omega) (by omega) hopen'))

/-- A header behind a whole frame, or the first one. -/
theorem position_header (h : Standing wire r) (hdr : r.dec.remaining = 0) {hd : Header}
    {fh' : FrameHead} {rest : List UInt8} (raw : r.dec.pending = hd.raw ++ rest)
    (parse : parseHead r.dec.pending = .head fh' rest) :
    ∃ before, wire = before ++ rest ∧ Position before hd fh' 0 := by
  rw [raw] at parse
  have hhead := parseHead_cut parse
  cases h with
  | start pending =>
    refine ⟨hd.raw, by rw [← pending, raw], ?_⟩
    have hhere := Position.here (p := []) hhead (Nat.zero_le _)
    rwa [List.append_nil, List.length_nil] at hhere
  | inside frame =>
    obtain ⟨before, hwire, hpos⟩ := frame.position
    have hleft := frame.left
    refine ⟨before ++ hd.raw, by rw [hwire, raw, List.append_assoc], ?_⟩
    exact hpos.next (by omega) hhead

theorem placed_nextHeader (hl : r.dead = false) (hc : r.controlOpen = false)
    (hr : r.remaining = 0) (hdr : r.dec.remaining = 0) (h : Standing wire r) :
    Placed wire r.nextHeader.2 := by
  obtain ⟨hf, -⟩ := dead_eq_false.mp hl
  have hstep := nextHeader_step hdr
  generalize r.nextHeader = out at hstep
  cases hstep with
  | more => exact placed_of_standing hf h
  | invalid => exact placed_fail wire _ _ _
  | illegal => exact placed_fail wire _ _ _
  | @control hd fh rest meaning raw parse legal kind r₁ entered =>
    have hpos := position_header h hdr raw parse
    have hkey := key_entered (r := r) meaning ⟨rest, fh.length⟩
    rw [entered_eq] at entered hkey
    have hlen := length_of_control legal kind
    have hframe : ∀ b : Bool, (b = true ↔ fh.length ≠ 0) →
        InFrame wire { r₁ with controlOpen := b } fh 0 := by
      intro b hb
      subst entered
      exact ⟨hpos, Nat.zero_add _, hkey, fun _ => rfl, fun hk => (by cases kind.symm.trans hk),
        fun _ => ⟨hr, hlen, rfl, hb⟩⟩
    have hf₁ : r₁.failed = none := by
      rw [entered]
      exact hf
    split_ifs with h0
    · have hfalse := hframe false (by simp [h0])
      have hsame : { r₁ with controlOpen := false } = r₁ := by
        subst entered
        dsimp only
        rw [hc]
      rw [hsame] at hfalse
      exact placed_finishControl hf₁ (.inside hfalse)
    · exact placed_gatherControl hf₁ rfl (hframe true (by simp [h0]))
  | @data hd fh rest meaning raw parse legal kind =>
    have hpos := position_header h hdr raw parse
    have hkey := key_entered (r := r) meaning ⟨rest, fh.length⟩
    rw [settled_eq, entered_eq]
    rw [entered_eq] at hkey
    exact placed_of_standing hf (.inside ⟨hpos, Nat.zero_add _, hkey, fun _ => rfl,
      fun _ => ⟨hc, rfl⟩, fun hk => (by cases kind.symm.trans hk)⟩)

/-- The receiver's counters agree with the decoder's, and it stands where it was fed to. -/
structure Sound (wire : List UInt8) (r : Receiver) : Prop where
  coupled : r.Coupled
  placed : Placed wire r

theorem sound_init (role : Role) (compression : Bool) : Sound [] (init role compression) :=
  ⟨coupled_init role compression, placed_init role compression⟩

theorem Sound.feed (h : Sound wire r) (b : List UInt8) : Sound (wire ++ b) (r.feed b) :=
  ⟨coupled_feed h.coupled b, h.placed.feed b⟩

theorem Sound.next (h : Sound wire r) : Sound wire r.next.2 := by
  refine ⟨coupled_run h.coupled [.next], ?_⟩
  unfold Receiver.next
  cases hf : r.failed with
  | some e => exact h.placed
  | none =>
    dsimp only
    split_ifs with hrem hclosed hopen
    · exact h.placed
    · exact h.placed
    all_goals
      have hl : r.dead = false := dead_eq_false.mpr ⟨hf, by simpa using hclosed⟩
      have hstanding := h.placed.standing hl
      have hr : r.remaining = 0 := by simpa using hrem
    · cases hstanding with
      | start _ _ _ control => cases control.symm.trans hopen
      | inside frame => exact placed_gatherControl hf hopen frame
    · have hc : r.controlOpen = false := by simpa using hopen
      exact placed_nextHeader hl hc hr ((h.coupled.data hl hc).trans hr) hstanding

theorem Sound.payloadN (h : Sound wire r) (n : ℤ) : Sound wire (r.payloadN n).2 := by
  refine ⟨coupled_run h.coupled [.payloadN n], ?_⟩
  by_cases hr : r.remaining = 0
  · cases hf : r.failed with
    | some e =>
      rw [payloadN_failed hf]
      exact h.placed
    | none =>
      rw [payloadN_drained hf hr]
      exact h.placed
  · have hl := live_of_remaining h.coupled hr
    rw [payloadN_eq h.coupled hl hr rfl]
    split_ifs with hk
    · exact h.placed
    · have hf : (r.moved (min (min n.toNat r.dec.pending.length) r.remaining)).failed = none := by
        rw [moved, settled_eq]
        exact (dead_eq_false.mp hl).1
      refine placed_of_standing hf ?_
      cases h.placed.standing hl with
      | start _ remaining => exact absurd remaining hr
      | @inside fh k frame =>
        have kind : fh.opcode.isControl = false := by
          cases hkind : fh.opcode.isControl with
          | false => rfl
          | true => exact absurd (frame.control hkind).1 hr
        exact .inside (frame.moved kind (by omega) (by omega))

/-! ## What the counters say -/

/-- Of the input so far, the receiver has taken whole frames and `k` payload bytes of the current
one, whose header, the last it has read, says `fh`. -/
def Current (wire : List UInt8) (r : Receiver) (fh : FrameHead) (k : ℕ) : Prop :=
  ∃ before, wire = before ++ r.dec.pending ∧ Position before r.header fh k

/-- The counters of a receiver that was fed `wire` and those of its decoder. -/
structure InStep (wire : List UInt8) (r : Receiver) : Prop where
  data : r.controlOpen = false → r.remaining = r.dec.remaining
  control : r.controlOpen = true → r.remaining = 0 ∧ ∃ fh k, Current wire r fh k ∧
    fh.opcode.isControl = true ∧ r.control.length + r.dec.remaining = fh.length ∧ fh.length ≤ 125
  header : r.remaining ≠ 0 → ∃ fh k, Current wire r fh k ∧ fh.opcode.isControl = false ∧
    k + r.remaining = fh.length
  offset : r.masked = true → ∃ fh k, Current wire r fh k ∧ fh.key = some r.maskKey ∧
    r.maskOffset = k % 4

theorem Sound.inStep (h : Sound wire r) (hl : r.dead = false) : InStep wire r where
  data := fun hc => (h.coupled.data hl hc).symm
  control := fun hc => by
    refine ⟨(h.coupled.control hl hc).1, ?_⟩
    cases h.placed.standing hl with
    | start _ _ _ control => cases control.symm.trans hc
    | @inside fh k frame =>
      cases hkind : fh.opcode.isControl with
      | false => cases (frame.data hkind).1.symm.trans hc
      | true =>
        obtain ⟨-, hlen, hcontrol, -⟩ := frame.control hkind
        exact ⟨fh, k, frame.position, hkind, by rw [hcontrol, frame.left], hlen⟩
  header := fun hr => by
    cases h.placed.standing hl with
    | start _ remaining => exact absurd remaining hr
    | @inside fh k frame =>
      cases hkind : fh.opcode.isControl with
      | true => exact absurd (frame.control hkind).1 hr
      | false => exact ⟨fh, k, frame.position, hkind, by rw [(frame.data hkind).2, frame.left]⟩
  offset := fun hm => by
    cases h.placed.standing hl with
    | start _ _ _ _ masked => cases masked.symm.trans hm
    | @inside fh k frame =>
      refine ⟨fh, k, frame.position, ?_, frame.offset hm⟩
      rw [← frame.key, key, if_pos hm]

end Receiver

end Ews
