import Ews.Conn

/-!
# The storage for decompressed messages

`Decompress` reserves storage for its output before the first read, and asks for more whenever
the output has filled what it has. How much more is projected from how far the input has come :
the output so far, times the input unread, over the input consumed. The projection knows nothing
of the limit. A message that starts with a few bytes that inflate a lot, and goes on with bytes
that do not, is projected to be far longer than it is.

`Inflation.requests` are the sizes one call asks the pool for, and `Inflation.proportionate_iff`
says when they stay in proportion to the limit : at every growth the input left is small
compared to the input consumed.
-/

set_option linter.unusedSectionVars false

namespace Ews

namespace Inflation

variable {F : Flate} {τ : Type} (C : ChunkSource τ)

/-- `Decompress` up to its loop. -/
def opening (x : Inflation F τ) (payload : List UInt8) (maxSize : ℕ) : Inflation F τ :=
  let x := x.begin (some payload)
  reserve { x with dec := { x.dec with output := [] } } payload maxSize

/-- The states of the loop of `Decompress` at the head of its rounds. -/
def rounds (x : Inflation F τ) (payload : List UInt8) (maxSize : ℕ) : List (Inflation F τ) :=
  Loop.visits (decompressRound C maxSize) (maxSize + 2) (x.opening payload maxSize)

theorem decompress_eq (x : Inflation F τ) (payload : List UInt8) (maxSize : ℕ) :
    x.decompress C payload maxSize = Loop.run (decompressRound C maxSize) (maxSize + 2)
      (fun x => (.error .noProgress, x)) (x.opening payload maxSize) := by
  simp [decompress, opening]

/-- The output has filled its storage. -/
def full (x : Inflation F τ) : Bool :=
  x.dec.outCap = x.dec.output.length

/-- The size the head of a round asks the pool for, if it does. -/
def roundRequest (x : Inflation F τ) : Option ℕ :=
  if x.full then x.growRequest x.growth else none

/-- The sizes a `Decompress` asks the pool for, for its output. -/
def requests (x : Inflation F τ) (payload : List UInt8) (maxSize : ℕ) : List ℕ :=
  let y := x.begin (some payload)
  (reserveRequest { y with dec := { y.dec with output := [] } } payload maxSize).toList ++
    (x.rounds C payload maxSize).filterMap roundRequest

/-- A size in proportion to the limit. -/
def allowance (maxSize : ℕ) : ℕ :=
  2 * (maxSize + 1) + 32768

/-- The input the reader has drawn. -/
def consumed (x : Inflation F τ) : ℕ :=
  x.dec.inLen - x.dec.slice.length

/-- Every size is in proportion to the limit, and no projection overflows. -/
structure Proportionate (x : Inflation F τ) (payload : List UInt8) (maxSize : ℕ) : Prop where
  requests : ∀ n ∈ x.requests C payload maxSize, n ≤ allowance maxSize
  product : ∀ y ∈ x.rounds C payload maxSize, y.full = true →
    y.dec.output.length * y.dec.slice.length < 2 ^ 63

/-- The input left does not project the output past what is allowed. -/
structure Even (maxSize : ℕ) (x : Inflation F τ) : Prop where
  product : x.dec.output.length * x.dec.slice.length < 2 ^ 63
  ratio : 0 < x.consumed → x.dec.output.length * x.dec.slice.length <
    ((16 * (allowance maxSize - x.dec.output.length) + 15) / 17 + 1) * x.consumed

instance (maxSize : ℕ) (x : Inflation F τ) : Decidable (x.Even maxSize) :=
  decidable_of_iff (x.dec.output.length * x.dec.slice.length < 2 ^ 63 ∧
    (0 < x.consumed → x.dec.output.length * x.dec.slice.length <
      ((16 * (allowance maxSize - x.dec.output.length) + 15) / 17 + 1) * x.consumed))
    ⟨fun h => ⟨h.1, h.2⟩, fun h => ⟨h.1, h.2⟩⟩

/-! ## One growth -/

section Growth

variable {x : Inflation F τ}

theorem int64_of_lt {n : ℕ} (h : n < 2 ^ 63) : int64 n = n := by
  unfold int64
  rw [Int.bmod_eq_of_le] <;> omega

theorem projected_eq (hmode : x.dec.streaming = false)
    (h : x.dec.output.length * x.dec.slice.length < 2 ^ 63) :
    x.projected = (x.dec.output.length * x.dec.slice.length / x.consumed : ℕ) := by
  simp only [projected, hmode, Bool.false_eq_true, if_false]
  split_ifs with hnone
  · have hzero : x.consumed = 0 := by
      unfold consumed
      omega
    rw [hzero, Nat.div_zero]
    rfl
  · have hsub : (x.dec.inLen : ℤ) - x.dec.slice.length = x.consumed := by
      unfold consumed
      omega
    rw [hsub, ← Nat.cast_mul, int64_of_lt h]
    rfl

theorem growth_eq (hmode : x.dec.streaming = false)
    (h : x.dec.output.length * x.dec.slice.length < 2 ^ 63) :
    x.growth = max 32768 (max (x.dec.output.length / 2)
      (x.dec.output.length * x.dec.slice.length / x.consumed +
        x.dec.output.length * x.dec.slice.length / x.consumed / 16)) := by
  rw [growth, projected_eq hmode h]
  rfl

/-- With a sixteenth of slack. -/
theorem slack_le_iff (p n : ℕ) : p + p / 16 ≤ n ↔ p < (16 * n + 15) / 17 + 1 := by
  omega

theorem growth_le_iff (hmode : x.dec.streaming = false) {maxSize : ℕ}
    (hlen : x.dec.output.length ≤ maxSize)
    (h : x.dec.output.length * x.dec.slice.length < 2 ^ 63) :
    x.dec.output.length + x.growth ≤ allowance maxSize ↔ x.Even maxSize := by
  have hroom : x.dec.output.length + x.growth ≤ allowance maxSize ↔
      x.dec.output.length * x.dec.slice.length / x.consumed +
        x.dec.output.length * x.dec.slice.length / x.consumed / 16 ≤
          allowance maxSize - x.dec.output.length := by
    rw [growth_eq hmode h]
    generalize x.dec.output.length * x.dec.slice.length / x.consumed = p
    unfold allowance
    omega
  rw [hroom, slack_le_iff]
  constructor
  · intro hp
    exact ⟨h, fun hpos => (Nat.div_lt_iff_lt_mul hpos).mp hp⟩
  · intro heven
    rcases Nat.eq_zero_or_pos x.consumed with h0 | hpos
    · rw [h0, Nat.div_zero]
      exact Nat.succ_pos _
    · exact (Nat.div_lt_iff_lt_mul hpos).mpr (heven.ratio hpos)

theorem roundRequest_full (hfull : x.full = true) :
    x.roundRequest = some (x.dec.output.length + x.growth) := by
  have hcap : x.dec.outCap = x.dec.output.length := by simpa [full] using hfull
  have hpos : 32768 ≤ x.growth := le_max_left _ _
  rw [roundRequest, if_pos hfull, growRequest, if_neg (by omega)]

theorem roundRequest_isSome {n : ℕ} (h : x.roundRequest = some n) : x.full = true := by
  by_contra hfull
  simp [roundRequest, hfull] at h

/-- The reservation is within the limit. -/
theorem reserveRequest_le {payload : List UInt8} {maxSize n : ℕ}
    (h : x.reserveRequest payload maxSize = some n) : n ≤ maxSize + 1 := by
  unfold reserveRequest at h
  dsimp only at h
  split_ifs at h
  cases h
  have hwrap : (int64 (maxSize + 1)).toNat ≤ maxSize + 1 := by
    simp only [int64, Int.bmod_def]
    split_ifs <;> omega
  omega

end Growth

/-! ## The whole loop -/

/-- Wherever the loop stands, the output is within the limit. -/
theorem rounds_within {x : Inflation F τ} (h : x.dec.Idle) (payload : List UInt8) (maxSize : ℕ) :
    ∀ y ∈ x.rounds C payload maxSize,
      y.dec.streaming = false ∧ y.dec.output.length ≤ maxSize := by
  intro y hy
  have hfill := Loop.visits_spec (fun _ hf => decompressRound_spec hf) (maxSize + 2) _
    (filling_reserve (C := C) h payload maxSize) y hy
  exact ⟨hfill.mode, hfill.length⟩

/-- The sizes stay in proportion to the limit exactly if, wherever the output has filled its
storage, the input left does not project it past what is allowed. -/
theorem proportionate_iff {x : Inflation F τ} (h : x.dec.Idle) (payload : List UInt8)
    (maxSize : ℕ) : x.Proportionate C payload maxSize ↔
      ∀ y ∈ x.rounds C payload maxSize, y.full = true → y.Even maxSize := by
  have hwithin := rounds_within C h payload maxSize
  constructor
  · intro hp y hy hfull
    obtain ⟨hmode, hlen⟩ := hwithin y hy
    refine (growth_le_iff hmode hlen (hp.product y hy hfull)).mp (hp.requests _ ?_)
    exact List.mem_append_right _
      (List.mem_filterMap.mpr ⟨y, hy, roundRequest_full hfull⟩)
  · intro heven
    refine ⟨fun n hn => ?_, fun y hy hfull => (heven y hy hfull).product⟩
    rcases List.mem_append.mp hn with hn | hn
    · have := reserveRequest_le (Option.mem_toList.mp hn)
      unfold allowance
      omega
    · obtain ⟨y, hy, hreq⟩ := List.mem_filterMap.mp hn
      have hfull := roundRequest_isSome hreq
      obtain ⟨hmode, hlen⟩ := hwithin y hy
      rw [roundRequest_full hfull] at hreq
      cases hreq
      exact (growth_le_iff hmode hlen (heven y hy hfull).product).mpr (heven y hy hfull)

end Inflation

/-- An inflater that is told how much each byte decodes to, at most 1032 bytes. -/
def Flate.scripted (amounts : List ℕ) : Flate where
  State := List ℕ
  fresh _ := amounts
  step st _ := (st.tail, List.replicate (min (st.headD 0) 1032) 0)
  status st := if st.isEmpty then .ended else .running
  flush _ _ := true
  expansion := 1032
  step_length st b := by simp

namespace Inflation

/-- No source, for whole messages. -/
def noSource : ChunkSource Unit :=
  ⟨fun _ => (.error .eof, ()), fun _ => 0⟩

/-- A decompressor that has not been used. -/
def unused (amounts : List ℕ) : Inflation (Flate.scripted amounts) Unit :=
  ⟨{}, none, ()⟩

theorem unused_idle (amounts : List ℕ) : (unused amounts).dec.Idle :=
  ⟨rfl, rfl, rfl⟩

/-- A message that inflates evenly fills its first kilobyte and grows once. -/
theorem proportionate_uniform :
    let x := unused (List.replicate 8 128 ++ List.replicate 9 0)
    x.requests noSource (List.replicate 8 0) 2000 = [32, 33792] ∧
      x.Proportionate noSource (List.replicate 8 0) 2000 := by
  intro x
  refine ⟨by decide +kernel, (proportionate_iff noSource (unused_idle _) _ _).mpr ?_⟩
  decide +kernel

/-- A block of 2048 zeros in the fixed code, which ends in the sixteenth byte, and empty blocks
behind it. -/
def hollow : List UInt8 :=
  [0x62, 0x18, 0x05, 0xa3, 0x60, 0x14, 0x8c, 0x82, 0x51, 0x30, 0x0a, 0x46, 0xc1, 0x88, 0x03, 0x00,
    0x00] ++ (List.replicate 91 [0x00, 0x00, 0xff, 0xff, 0x00]).flatten

/-- What its bytes inflate to : a literal, seven matches of 258 bytes and one of 241. The message is
no larger than the limit, and more than thirty times the limit is asked for. -/
theorem disproportionate :
    let x := unused ([0, 1, 258, 0, 258, 0, 258, 258, 0, 258, 0, 258, 258, 0, 241] ++
      List.replicate 466 0)
    x.requests noSource hollow 2048 = [1888, 69648] ∧
      (x.decompress noSource hollow 2048).1 = .ok (List.replicate 2048 0) ∧
      ¬x.Proportionate noSource hollow 2048 := by
  intro x
  have hrun : x.requests noSource hollow 2048 = [1888, 69648] ∧
      (x.decompress noSource hollow 2048).1 = .ok (List.replicate 2048 0) := by
    decide +kernel
  refine ⟨hrun.1, hrun.2, fun h => ?_⟩
  have hle := h.requests 69648 (by rw [hrun.1]; simp)
  exact absurd hle (by decide)

end Inflation

end Ews
