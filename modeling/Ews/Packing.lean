import Ews.Compressor
import Ews.Inflate

/-!
# What an encoder and a decoder owe each other

A message is compressed chunk by chunk, each chunk with the history the chunks before it left, and
of the last chunk the end of the flush is cut off. `Codec` is what the library is trusted with : a
decoder whose history ends as that of the encoder did, as far back as the encoder can reach, gives
the chunks back. Nothing is assumed of how either works.

The encoder and the decoder of stored blocks are such a pair (`codec_stored`).
-/

set_option linter.unusedSectionVars false

namespace Ews

open Bytes

namespace Deflater

variable (D : Deflater) (kind : EncoderKind)

/-- What the encoder emits for chunks that are not the last of their message. -/
def chunks : (hist : List UInt8) → List (List UInt8) → List UInt8
  | _, [] => []
  | hist, p :: ps => D.out kind hist p ++ chunks (hist ++ p) ps

/-- What is left of its output for the last chunk. -/
def last (hist p : List UInt8) : List UInt8 :=
  (D.out kind hist p).take ((D.out kind hist p).length - 4)

/-- What it emits for a chunk. -/
def chunk (final : Bool) (hist p : List UInt8) : List UInt8 :=
  if final then D.last kind hist p else D.out kind hist p

theorem chunks_concat : ∀ (ps : List (List UInt8)) (hist p : List UInt8),
    D.chunks kind hist (ps ++ [p]) = D.chunks kind hist ps ++ D.out kind (hist ++ ps.flatten) p
  | [], hist, p => by simp [chunks]
  | q :: ps, hist, p => by
    rw [List.cons_append, chunks, chunks_concat ps, chunks, List.flatten_cons, List.append_assoc,
      List.append_assoc]

end Deflater

theorem EncoderKind.window_pos (kind : EncoderKind) : 0 < kind.window := by
  cases kind with
  | level level => exact Nat.zero_lt_succ _
  | reduced bits => exact Nat.two_pow_pos bits

/-- Messages of at most `n` bytes come back. -/
structure Codec (D : Deflater) (F : Flate) (n : ℕ) : Prop where
  inflate : ∀ {kind : EncoderKind} {size : ℕ} {hist dict : List UInt8} {ps : List (List UInt8)}
    {p : List UInt8}, kind.window ≤ size → lastN kind.window hist <:+ dict →
    (ps.flatten ++ p).length ≤ n →
    F.inflate size dict (D.chunks kind hist ps ++ D.last kind (hist ++ ps.flatten) p) =
      some (ps.flatten ++ p)

theorem Codec.mono {D : Deflater} {F : Flate} {n m : ℕ} (h : Codec D F n) (hm : m ≤ n) : Codec D F m :=
  ⟨fun hsize hdict hlen => h.inflate hsize hdict (hlen.trans hm)⟩

/-! ## Stored blocks -/

namespace Stored

/-- The block that holds `p`, if there is anything to hold. -/
def block (p : List UInt8) : List UInt8 :=
  if p = [] then []
  else
    let lo := UInt8.ofNat p.length
    let hi := UInt8.ofNat (p.length / 256)
    [0, lo, hi, ~~~lo, ~~~hi] ++ p

/-- The empty block of a flush. -/
def mark : List UInt8 :=
  [0, 0, 0, 0xff, 0xff]

theorem length_block (p : List UInt8) : (block p).length ≤ 5 + p.length := by
  unfold block
  split_ifs with h
  · simp
  · simp only [List.cons_append, List.nil_append, List.length_cons]
    omega

/-- The encoder of stored blocks, for writes that fit into one. -/
def deflater : Deflater where
  out _ _ p := if p.length < 65536 then block p ++ mark else []
  length_lt _ _ p := by
    have h := length_block p
    split_ifs with hp
    · rw [List.length_append]
      have : mark.length = 5 := rfl
      omega
    · decide

/-- The scan is at the beginning of a block. -/
def AtHead (x : Scan Flate.stored) : Prop :=
  x.state = none ∨ x.state = some .head

variable {size : ℕ}

/-- The bytes of a block. -/
theorem finish_body (rest : List UInt8) : ∀ (p hist : List UInt8), p ≠ [] →
    Scan.finish size (F := Flate.stored) ⟨some (.body false p.length), hist⟩ (p ++ rest) =
      (Scan.finish size (F := Flate.stored) ⟨some .head, hist ++ p⟩ rest).map (p ++ ·)
  | [], _, h => absurd rfl h
  | [b], hist, _ => rfl
  | b :: c :: p, hist, _ => by
    have hstep : Scan.step (F := Flate.stored) size
        ⟨some (.body false (b :: c :: p).length), hist⟩ b =
        some ([b], ⟨some (.body false (c :: p).length), hist ++ [b]⟩) := rfl
    rw [List.cons_append, Scan.finish, hstep]
    dsimp only
    rw [finish_body rest (c :: p) (hist ++ [b]) (List.cons_ne_nil _ _), List.append_assoc,
      List.singleton_append]
    cases Scan.finish size (F := Flate.stored) ⟨some .head, hist ++ b :: c :: p⟩ rest <;> rfl

/-- A byte that decodes to nothing. -/
theorem finish_quiet {x : Scan Flate.stored} {st st' : StoredState} {b : UInt8}
    (machine : x.machine size = st) (step : st.step b = (st', [])) (status : st'.status = .running)
    (rest : List UInt8) : x.finish size (b :: rest) = Scan.finish size (F := Flate.stored)
      ⟨some st', x.hist⟩ rest := by
  have hstep : x.step size b = some ([], ⟨some st', x.hist⟩) := by
    have hrun : Flate.stored.step (x.machine size) b = (st', []) := machine.symm ▸ step
    have hstatus : Flate.stored.status st' = .running := status
    simp only [Scan.step, hrun, Scan.after, hstatus, List.append_nil]
  simp [Scan.finish, hstep]

/-- The header of a block, up to the last byte of it. -/
theorem finish_header {x : Scan Flate.stored} (h : AtHead x) (l₀ l₁ n₀ : UInt8) (rest : List UInt8) :
    x.finish size (0 :: l₀ :: l₁ :: n₀ :: rest) = Scan.finish size (F := Flate.stored)
      ⟨some (.lengths false [l₀, l₁, n₀]), x.hist⟩ rest := by
  have hm : x.machine size = .head := by rcases h with h | h <;> simp [Scan.machine, h] <;> rfl
  rw [finish_quiet hm rfl rfl, finish_quiet rfl rfl rfl, finish_quiet rfl rfl rfl,
    finish_quiet rfl rfl rfl]
  rfl

/-- An empty block. -/
theorem finish_mark {x : Scan Flate.stored} (h : AtHead x) (rest : List UInt8) :
    x.finish size (mark ++ rest) = Scan.finish size (F := Flate.stored) ⟨some .head, x.hist⟩ rest := by
  rw [mark, List.cons_append, List.cons_append, List.cons_append, List.cons_append,
    List.singleton_append, finish_header h]
  exact finish_quiet rfl rfl rfl rest

theorem toNat_length {n : ℕ} (h : n < 65536) :
    (UInt8.ofNat n).toNat + 256 * (UInt8.ofNat (n / 256)).toNat = n := by
  simp only [UInt8.toNat_ofNat']
  omega

/-- A block and a flush. -/
theorem finish_block {x : Scan Flate.stored} (h : AtHead x) {p : List UInt8} (hp : p.length < 65536)
    (rest : List UInt8) : x.finish size (block p ++ (mark ++ rest)) =
      (Scan.finish size (F := Flate.stored) ⟨some .head, x.hist ++ p⟩ rest).map (p ++ ·) := by
  by_cases hnil : p = []
  · rw [block, if_pos hnil, List.nil_append, finish_mark h, hnil, List.append_nil]
    simp
  · have hlen := toNat_length hp
    have hpos := List.length_pos_of_ne_nil hnil
    have hstep : (StoredState.lengths false [UInt8.ofNat p.length, UInt8.ofNat (p.length / 256),
        ~~~UInt8.ofNat p.length]).step (~~~UInt8.ofNat (p.length / 256)) =
        (.body false p.length, []) := by
      have hne : ¬(UInt8.ofNat p.length = 0 ∧ UInt8.ofNat (p.length / 256) = 0) := by
        rintro ⟨h0, h1⟩
        rw [h0, h1] at hlen
        simp at hlen
        omega
      simp only [StoredState.step, and_self, if_true, if_neg hne, hlen]
    have hquiet := @finish_quiet size ⟨some _, x.hist⟩ _ _ _ rfl hstep rfl
      (p ++ (mark ++ rest))
    simp only [block, hnil, if_false, List.cons_append, List.nil_append]
    rw [finish_header h, hquiet, finish_body _ p _ hnil, finish_mark (Or.inr rfl)]

/-- The end of a message. -/
theorem finish_last {x : Scan Flate.stored} (h : AtHead x) {p : List UInt8} (hp : p.length < 65536) :
    x.finish size ((block p ++ [0]) ++ inflateTail) = some p := by
  have htail : (block p ++ [0]) ++ inflateTail = block p ++ (mark ++ [1, 0, 0, 0xff, 0xff]) := by
    rw [List.append_assoc]
    rfl
  have hempty : Scan.finish size (F := Flate.stored) ⟨some .head, x.hist ++ p⟩
      [1, 0, 0, 0xff, 0xff] = some [] := by rfl
  rw [htail, finish_block h hp, hempty, Option.map_some, List.append_nil]

theorem last_eq (kind : EncoderKind) (hist : List UInt8) {p : List UInt8} (hp : p.length < 65536) :
    deflater.last kind hist p = block p ++ [0] := by
  have hout : deflater.out kind hist p = (block p ++ [0]) ++ [0, 0, 0xff, 0xff] := by
    simp [deflater, hp, mark]
  rw [Deflater.last, hout, List.length_append]
  exact List.take_left' (Nat.add_sub_cancel _ _).symm

theorem finish_chunks (kind : EncoderKind) {p : List UInt8} :
    ∀ (ps : List (List UInt8)) {x : Scan Flate.stored} (hist : List UInt8), AtHead x →
      (ps.flatten ++ p).length < 65536 →
      x.finish size (deflater.chunks kind hist ps ++ ((block p ++ [0]) ++ inflateTail)) =
        some (ps.flatten ++ p)
  | [], x, hist, h, hp => finish_last h hp
  | q :: ps, x, hist, h, hlen => by
    rw [List.flatten_cons, List.append_assoc, List.length_append] at hlen
    have hq : q.length < 65536 := by omega
    have hout : deflater.out kind hist q = block q ++ mark := if_pos hq
    rw [Deflater.chunks, hout, List.append_assoc, List.append_assoc, finish_block h hq,
      finish_chunks kind ps _ (Or.inr rfl) (by omega), Option.map_some, List.flatten_cons,
      List.append_assoc]

/-- Stored blocks need no history. -/
theorem codec_stored : Codec deflater Flate.stored 65535 where
  inflate := by
    intro kind size hist dict ps p _ _ hlen
    have hp : p.length < 65536 := by
      rw [List.length_append] at hlen
      omega
    rw [Flate.inflate, last_eq kind _ hp, List.append_assoc]
    exact finish_chunks kind ps hist (Or.inl rfl) (by omega)

end Stored

end Ews
