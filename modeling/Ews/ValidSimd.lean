import Ews.Lanes
import Ews.Valid

/-!
# Validating UTF-8 with vectors

`internal/utf8/valid_simd.go` : the `Valid` of the amd64 build. Every byte is compared with the
three before it : three tables, by the halves of the byte before and the high half of the byte
itself, mark what is wrong with the two, and a byte that has to be a continuation, two places
after a lead of three or three after one of four, is marked by the tables as well. The check lags
behind : a lead that starts no sequence is found with the byte after it.

`Simd.Place` is the place of the machine of RFC 3629, as far as the last three bytes tell it, and
`Simd.Place.step` says that one check is one step. What the checks leave open at the end of the
vectors is left to `unicode/utf8.Valid`, from the last lead on.
-/

set_option linter.unusedSectionVars false

namespace Ews

open Utf8 (Range leads)

namespace Simd

/-! ## The tables -/

def utf8FirstHigh : List UInt8 :=
  [0x02, 0x02, 0x02, 0x02, 0x02, 0x02, 0x02, 0x02,
   0x80, 0x80, 0x80, 0x80, 0x21, 0x01, 0x15, 0x49]

def utf8FirstLow : List UInt8 :=
  [0xe7, 0xa3, 0x83, 0x83, 0x8b, 0xcb, 0xcb, 0xcb,
   0xcb, 0xcb, 0xcb, 0xcb, 0xcb, 0xdb, 0xcb, 0xcb]

def utf8SecondHigh : List UInt8 :=
  [0x01, 0x01, 0x01, 0x01, 0x01, 0x01, 0x01, 0x01,
   0xe6, 0xae, 0xba, 0xba, 0x01, 0x01, 0x01, 0x01]

def utf8FirstHighAVX2 : List UInt8 :=
  [0x02, 0x02, 0x02, 0x02, 0x02, 0x02, 0x02, 0x02,
   0x80, 0x80, 0x80, 0x80, 0x21, 0x01, 0x15, 0x49,
   0x02, 0x02, 0x02, 0x02, 0x02, 0x02, 0x02, 0x02,
   0x80, 0x80, 0x80, 0x80, 0x21, 0x01, 0x15, 0x49]

def utf8FirstLowAVX2 : List UInt8 :=
  [0xe7, 0xa3, 0x83, 0x83, 0x8b, 0xcb, 0xcb, 0xcb,
   0xcb, 0xcb, 0xcb, 0xcb, 0xcb, 0xdb, 0xcb, 0xcb,
   0xe7, 0xa3, 0x83, 0x83, 0x8b, 0xcb, 0xcb, 0xcb,
   0xcb, 0xcb, 0xcb, 0xcb, 0xcb, 0xdb, 0xcb, 0xcb]

def utf8SecondHighAVX2 : List UInt8 :=
  [0x01, 0x01, 0x01, 0x01, 0x01, 0x01, 0x01, 0x01,
   0xe6, 0xae, 0xba, 0xba, 0x01, 0x01, 0x01, 0x01,
   0x01, 0x01, 0x01, 0x01, 0x01, 0x01, 0x01, 0x01,
   0xe6, 0xae, 0xba, 0xba, 0x01, 0x01, 0x01, 0x01]

/-! ## The kernels -/

/-- The comparison of a vector, `required.Xor(special)`, where `prior` has the sixteen bytes before
each group of `input` : the same in the three loops and for the rest. -/
def mismatch {g : ℕ} (firstHighTable firstLowTable secondHighTable input prior : Lanes g) :
    Lanes g :=
  let lowNibble : Lanes g := .broadcast 0x0f
  let previous1 := input.concatShiftBytesRight prior 15
  let previous2 := input.concatShiftBytesRight prior 14
  let previous3 := input.concatShiftBytesRight prior 13
  let previous1High := (Lanes.asUint8 (Lanes.shiftAllRight previous1.asUint16 4)).and lowNibble
  let inputHigh := (Lanes.asUint8 (Lanes.shiftAllRight input.asUint16 4)).and lowNibble
  let special := ((firstHighTable.permuteOrZero previous1High).and
    (firstLowTable.permuteOrZero (previous1.and lowNibble))).and
      (secondHighTable.permuteOrZero inputHigh)
  let mustContinue := ((previous2.subSaturated (.broadcast 0xdf)).or
    (previous3.subSaturated (.broadcast 0xef))).greater (.broadcast 0)
  let required := Lanes.masked (.broadcast 0x80) mustContinue
  required.xor special

/-- A vector of `validNarrow`. -/
def narrow (input previous : Lanes 1) : Bool :=
  (mismatch (.load utf8FirstHigh) (.load utf8FirstLow) (.load utf8SecondHigh) input previous).isZero

/-- The loop of `validNarrow` over two vectors at a time. Nothing is left once a check fails. -/
def pairRound (s : Lanes 1 × List UInt8) :
    Lanes 1 × List UInt8 ⊕ Option (Lanes 1 × List UInt8) :=
  let (previous, src) := s
  if 2 * 16 ≤ src.length then
    let input0 := .load src
    if !narrow input0 previous then .inr none
    else
      let input1 := .load (src.drop 16)
      if !narrow input1 input0 then .inr none
      else .inl (input1, src.drop (2 * 16))
  else .inr (some s)

/-- The loop of `validNarrow` over one vector at a time. -/
def singleRound (s : Lanes 1 × List UInt8) :
    Lanes 1 × List UInt8 ⊕ Option (Lanes 1 × List UInt8) :=
  let (previous, src) := s
  if 16 ≤ src.length then
    let input := .load src
    if !narrow input previous then .inr none else .inl (input, src.drop 16)
  else .inr (some s)

/-- The loop back to the last byte that is no continuation. -/
def lastLead (original : List UInt8) : ℕ → ℕ
  | 0 => 0
  | last + 1 =>
    if original.getD (last + 1) 0 &&& 0xc0 = 0x80 then lastLead original last else last + 1

/-- `validNarrow`. -/
def validNarrow (original src : List UInt8) : Bool :=
  match Loop.run pairRound (src.length + 1) some (.broadcast 0, src) with
  | none => false
  | some s =>
    match Loop.run singleRound (src.length + 1) some s with
    | none => false
    | some (previous, src) =>
      if src.length ≠ 0 ∧ !narrow (.load src) previous then false
      else utf8Valid (original.drop (lastLead original (original.length - 1)))

/-- A vector of `validWide`. -/
def wide (input previous : Lanes 2) : Bool :=
  let prior := (input.setLo previous.getHi).setHi input.getLo
  (mismatch (.load utf8FirstHighAVX2) (.load utf8FirstLowAVX2) (.load utf8SecondHighAVX2) input
    prior).isZero

/-- The loop of `validWide`. -/
def wideRound (s : Lanes 2 × List UInt8 × ℕ) :
    Lanes 2 × List UInt8 × ℕ ⊕ Option (Lanes 2 × List UInt8 × ℕ) :=
  let (previous, src, processed) := s
  if 32 ≤ src.length then
    let input := .load src
    if !wide input previous then .inr none else .inl (input, src.drop 32, processed + 32)
  else .inr (some s)

/-- `validWide`. -/
def validWide (original src : List UInt8) (processed : ℕ) : Bool :=
  match Loop.run wideRound (src.length + 1) some (.broadcast 0, src, processed) with
  | none => false
  | some (_, _, processed) =>
    utf8Valid (original.drop (lastLead original (processed - 1)))

/-- `unicode/utf8.DecodeRune` : the width of the sequence at the start of `s`, or nothing where it
gives `RuneError` and the width one. -/
def decodeRune (s : List UInt8) : Option ℕ :=
  (Utf8.rows.find? fun row =>
    decide (row.length ≤ s.length) && (row.zip s).all fun p => p.1.has p.2).map List.length

def wideThreshold : ℕ := 384

/-- `Valid` of the amd64 build. `avx2` is what `archsimd.X86.AVX2` says. -/
def valid (avx2 : Bool) (src : List UInt8) : Bool :=
  let i := asciiPrefix src
  if i = src.length then true
  else
    let src := src.drop i
    if src.length < 32 then utf8Valid src
    else
      match decodeRune src with
      | none => false
      | some size =>
        if wideThreshold ≤ src.length ∧ avx2 then validWide src (src.drop size) size
        else validNarrow src (src.drop size)

/-! ## One byte -/

/-- What the tables mark of the byte before. -/
def mark (p1 : UInt8) : UInt8 :=
  utf8FirstHigh.getD (p1 >>> 4).toNat 0 &&& utf8FirstLow.getD (p1 &&& 0x0f).toNat 0

/-- What they mark of the byte itself. -/
def marks (c : UInt8) : UInt8 :=
  utf8SecondHigh.getD (c >>> 4).toNat 0

/-- The comparison, for the byte `c` after `p3`, `p2` and `p1`. -/
def ok (p3 p2 p1 c : UInt8) : Bool :=
  (if 0xdf < p2 ∨ 0xef < p3 then 0x80 else 0) = mark p1 &&& marks c

/-- The leads, by what is marked of them, and the bytes each is owed. -/
def leadMarks : List (UInt8 × Option (List Range)) :=
  [(0x21, none),
   (0x01, some [Utf8.tail]),
   (0x05, some [(0xA0, 0xBF), Utf8.tail]),
   (0x01, some [Utf8.tail, Utf8.tail]),
   (0x11, some [(0x80, 0x9F), Utf8.tail]),
   (0x41, some [(0x90, 0xBF), Utf8.tail, Utf8.tail]),
   (0x01, some [Utf8.tail, Utf8.tail, Utf8.tail]),
   (0x09, some [(0x80, 0x8F), Utf8.tail, Utf8.tail]),
   (0x49, none)]

/-- What the tables say of a byte, all of it checked by going through the bytes once. -/
theorem byte_marks : ∀ b : UInt8, (b < 0x80 → mark b = 0x02) ∧
    (isCont b = true → mark b = 0x80 ∧ Utf8.step Utf8.rows [] b = none) ∧
    (b < 0xC0 ∨ (mark b, Utf8.step Utf8.rows [] b) ∈ leadMarks) ∧
    0x02 &&& marks b = (if isCont b then 0x02 else 0) ∧
    0x80 &&& marks b = (if isCont b then 0x80 else 0) ∧
    (b &&& 0xc0 = 0x80 ↔ isCont b = true) :=
  Utf8.forall_byte (by decide +kernel)

theorem mark_ascii (b : UInt8) (h : b < 0x80) : mark b = 0x02 :=
  (byte_marks b).1 h

theorem mark_cont (b : UInt8) (h : isCont b = true) : mark b = 0x80 :=
  ((byte_marks b).2.1 h).1

theorem mark_lead (b : UInt8) : b < 0xC0 ∨ (mark b, Utf8.step Utf8.rows [] b) ∈ leadMarks :=
  (byte_marks b).2.2.1

/-- A continuation starts no sequence. -/
theorem step_cont (c : UInt8) (h : isCont c = true) : Utf8.step Utf8.rows [] c = none :=
  ((byte_marks c).2.1 h).2

/-- After a byte that is no lead the tables tell a continuation. -/
theorem marks_cont (c : UInt8) : 0x02 &&& marks c = (if isCont c then 0x02 else 0) ∧
    0x80 &&& marks c = (if isCont c then 0x80 else 0) :=
  ⟨(byte_marks c).2.2.2.1, (byte_marks c).2.2.2.2.1⟩

theorem isCont_iff_mask (b : UInt8) : b &&& 0xc0 = 0x80 ↔ isCont b = true :=
  (byte_marks b).2.2.2.2.2

/-- After a lead they tell whether the byte can stand there. -/
theorem marks_lead : ∀ c : UInt8, ∀ p ∈ leadMarks, p.1 &&& marks c ≠ 0x80 ∧
    (p.1 &&& marks c = 0 ↔ (p.2.bind (Utf8.step Utf8.rows · c)).isSome = true) :=
  Utf8.forall_byte (by decide +kernel)

/-! ## The place of the machine -/

/-- A byte that must be a continuation is one that a lead two or three places before owes. -/
theorem ok_owed {p3 p2 p1 c : UInt8} (h : 0xE0 ≤ p2 ∨ 0xF0 ≤ p3) :
    ok p3 p2 p1 c = decide (mark p1 &&& marks c = 0x80) := by
  have hneed : 0xdf < p2 ∨ 0xef < p3 := by
    simp only [UInt8.lt_iff_toNat_lt, UInt8.le_iff_toNat_le, UInt8.reduceToNat] at h ⊢
    omega
  rw [ok, if_pos hneed]
  exact decide_eq_decide.mpr eq_comm

theorem ok_free {p3 p2 p1 c : UInt8} (h2 : p2 < 0xE0) (h3 : p3 < 0xF0) :
    ok p3 p2 p1 c = decide (mark p1 &&& marks c = 0) := by
  have hneed : ¬ (0xdf < p2 ∨ 0xef < p3) := by
    simp only [UInt8.lt_iff_toNat_lt, UInt8.reduceToNat] at h2 h3 ⊢
    omega
  rw [ok, if_neg hneed]
  exact decide_eq_decide.mpr eq_comm

/-- A byte below the leads is ASCII or a continuation. -/
theorem lt_lead_iff {b : UInt8} : b < 0xC0 ↔ b < 0x80 ∨ isCont b = true := by
  simp only [isCont, Bool.and_eq_true, decide_eq_true_eq, UInt8.lt_iff_toNat_lt,
    UInt8.le_iff_toNat_le, UInt8.reduceToNat]
  omega

/-- A range of continuations. -/
theorem isCont_of_has {r : Range} (hr : 0x80 ≤ r.1 ∧ r.2 ≤ 0xBF) {c : UInt8}
    (hc : r.has c = true) : isCont c = true := by
  simp only [Range.has, isCont, Bool.and_eq_true, decide_eq_true_eq] at hc ⊢
  exact ⟨UInt8.le_trans hr.1 hc.1, UInt8.le_trans hc.2 hr.2⟩

/-- What a lead owes : a continuation, perhaps of fewer bytes, and then the rest. -/
theorem owed_lead {b : UInt8} {rs : List Range} (hb : 0xC0 ≤ b)
    (h : Utf8.step Utf8.rows [] b = some rs) : ∃ r rest, rs = r :: rest ∧
      (∀ c, r.has c = true → isCont c = true) ∧
      (b < 0xE0 ∧ rest = [] ∨ (0xE0 ≤ b ∧ b < 0xF0) ∧ rest = [Utf8.tail] ∨
        0xF0 ≤ b ∧ rest = [Utf8.tail, Utf8.tail]) := by
  have h0 : ¬ b < 0x80 := fun h0 => absurd (UInt8.lt_of_le_of_lt hb h0) (by decide)
  rw [step_lead, if_neg h0] at h
  by_cases h2 : (0xC2 ≤ b && b ≤ 0xDF) = true
  · rw [if_pos h2] at h
    cases h
    simp only [Bool.and_eq_true, decide_eq_true_eq] at h2
    exact ⟨_, _, rfl, fun c hc => isCont_of_has (by decide) hc,
      .inl ⟨UInt8.lt_of_le_of_lt h2.2 (by decide), rfl⟩⟩
  rw [if_neg h2] at h
  by_cases h3 : (0xE0 ≤ b && b ≤ 0xEF) = true
  · rw [if_pos h3] at h
    cases h
    simp only [Bool.and_eq_true, decide_eq_true_eq] at h3
    refine ⟨_, _, rfl, fun c hc => isCont_of_has ⟨?_, ?_⟩ hc,
      .inr (.inl ⟨⟨h3.1, UInt8.lt_of_le_of_lt h3.2 (by decide)⟩, rfl⟩)⟩
    · split_ifs <;> decide
    · split_ifs <;> decide
  rw [if_neg h3] at h
  by_cases h4 : (0xF0 ≤ b && b ≤ 0xF4) = true
  · rw [if_pos h4] at h
    cases h
    simp only [Bool.and_eq_true, decide_eq_true_eq] at h4
    refine ⟨_, _, rfl, fun c hc => isCont_of_has ⟨?_, ?_⟩ hc, .inr (.inr ⟨h4.1, rfl⟩)⟩
    · split_ifs <;> decide
    · split_ifs <;> decide
  rw [if_neg h4] at h
  cases h

/-- Where the machine stands after the bytes `p3`, `p2` and `p1`. -/
inductive Place (p3 p2 p1 : UInt8) : Option (List Range) → Prop
  | whole (h1 : p1 < 0xC0) (h2 : p2 < 0xE0) (h3 : p3 < 0xF0) : Place p3 p2 p1 (some [])
  | lead (h1 : 0xC0 ≤ p1) (h2 : p2 < 0xC0) (h3 : p3 < 0xF0) :
      Place p3 p2 p1 (Utf8.step Utf8.rows [] p1)
  | second (h1 : isCont p1 = true) (h2 : 0xE0 ≤ p2) {rest : List Range}
      (hrest : p2 < 0xF0 ∧ rest = [] ∨ 0xF0 ≤ p2 ∧ rest = [Utf8.tail]) :
      Place p3 p2 p1 (some (Utf8.tail :: rest))
  | third (h1 : isCont p1 = true) (h2 : isCont p2 = true) (h3 : 0xF0 ≤ p3) :
      Place p3 p2 p1 (some [Utf8.tail])

/-- What a check tells of the next byte. -/
inductive Checked (p3 p2 p1 c : UInt8) (st : Option (List Range)) : Prop
  | passed (check : ok p3 p2 p1 c = true)
      (place : Place p2 p1 c (st.bind (Utf8.step Utf8.rows · c)))
      (starts : isCont c = false → st = some [])
  | failed (check : ok p3 p2 p1 c = false) (lost : st.bind (Utf8.step Utf8.rows · c) = none)

variable {p3 p2 p1 c : UInt8} {st : Option (List Range)}

/-- After a byte that is no lead, and where nothing is owed. -/
theorem ok_whole (h1 : p1 < 0xC0) (h2 : p2 < 0xE0) (h3 : p3 < 0xF0) :
    ok p3 p2 p1 c = !isCont c := by
  rw [ok_free h2 h3]
  rcases lt_lead_iff.mp h1 with h1 | h1
  · rw [mark_ascii p1 h1, (marks_cont c).1]
    cases isCont c <;> rfl
  · rw [mark_cont p1 h1, (marks_cont c).2]
    cases isCont c <;> rfl

/-- After a continuation, and where another is owed. -/
theorem ok_cont (h1 : isCont p1 = true) (h : 0xE0 ≤ p2 ∨ 0xF0 ≤ p3) :
    ok p3 p2 p1 c = isCont c := by
  rw [ok_owed h, mark_cont p1 h1, (marks_cont c).2]
  cases isCont c <;> rfl

theorem isCont_lt_lead (h : isCont c = true) : c < 0xC0 :=
  lt_lead_iff.mpr (.inr h)

theorem step_tail (rest : List Range) (c : UInt8) :
    Utf8.step Utf8.rows (Utf8.tail :: rest) c = if isCont c then some rest else none := rfl

theorem Checked.whole (h1 : p1 < 0xC0) (h2 : p2 < 0xE0) (h3 : p3 < 0xF0) :
    Checked p3 p2 p1 c (some []) := by
  have h3' : p2 < 0xF0 := UInt8.lt_trans h2 (by decide)
  cases hc : isCont c with
  | true =>
    exact .failed (by rw [ok_whole h1 h2 h3, hc]; rfl) (step_cont c hc)
  | false =>
    refine .passed (by rw [ok_whole h1 h2 h3, hc]; rfl) ?_ fun _ => rfl
    by_cases hlead : c < 0xC0
    · have hascii : c < 0x80 := (lt_lead_iff.mp hlead).resolve_right (by simp [hc])
      rw [Option.bind_some, step_lead, if_pos hascii]
      exact .whole hlead (UInt8.lt_trans h1 (by decide)) h3'
    · exact .lead (UInt8.not_lt.mp hlead) h1 h3'

/-- The second byte of a sequence. -/
theorem Checked.lead (h1 : 0xC0 ≤ p1) (h2 : p2 < 0xC0) (h3 : p3 < 0xF0) :
    Checked p3 p2 p1 c (Utf8.step Utf8.rows [] p1) := by
  have hmark := (mark_lead p1).resolve_left (UInt8.not_lt.mpr h1)
  obtain ⟨-, hzero⟩ := marks_lead c _ hmark
  have hok : ok p3 p2 p1 c =
      ((Utf8.step Utf8.rows [] p1).bind (Utf8.step Utf8.rows · c)).isSome := by
    rw [ok_free (UInt8.lt_trans h2 (by decide)) h3]
    exact Bool.eq_iff_iff.mpr (decide_eq_true_iff.trans hzero)
  cases hnext : (Utf8.step Utf8.rows [] p1).bind (Utf8.step Utf8.rows · c) with
  | none => exact .failed (by rw [hok, hnext]; rfl) hnext
  | some owed =>
    obtain ⟨rs, hstep, hrs⟩ := Option.bind_eq_some_iff.mp hnext
    obtain ⟨r, rest, rfl, hcont, hrest⟩ := owed_lead h1 hstep
    have hhas : r.has c = true ∧ owed = rest := by
      cases hc : r.has c <;> simp_all [Utf8.step, Utf8.enter]
    obtain ⟨hc, rfl⟩ := hhas
    have hc := hcont c hc
    refine .passed (by rw [hok, hnext]; rfl) ?_ fun h => by simp [hc] at h
    rw [hnext]
    rcases hrest with ⟨hp1, rfl⟩ | ⟨⟨hge, hlt⟩, rfl⟩ | ⟨hge, rfl⟩
    · exact .whole (isCont_lt_lead hc) hp1 (UInt8.lt_trans h2 (by decide))
    · exact .second hc hge (.inl ⟨hlt, rfl⟩)
    · exact .second hc (UInt8.le_trans (by decide) hge) (.inr ⟨hge, rfl⟩)

/-- A later byte of a sequence. -/
theorem Checked.owed {rest : List Range} (h1 : isCont p1 = true) (h : 0xE0 ≤ p2 ∨ 0xF0 ≤ p3)
    (hplace : isCont c = true → Place p2 p1 c (some rest)) :
    Checked p3 p2 p1 c (some (Utf8.tail :: rest)) := by
  cases hc : isCont c with
  | true =>
    refine .passed (by rw [ok_cont h1 h, hc]) ?_ fun h => by cases hc.symm.trans h
    rw [Option.bind_some, step_tail, if_pos hc]
    exact hplace hc
  | false =>
    refine .failed (by rw [ok_cont h1 h, hc]) ?_
    rw [Option.bind_some, step_tail, hc]
    rfl

/-- One check is one step of the machine. -/
theorem Place.step (h : Place p3 p2 p1 st) (c : UInt8) : Checked p3 p2 p1 c st := by
  cases h with
  | whole h1 h2 h3 => exact .whole h1 h2 h3
  | lead h1 h2 h3 => exact .lead h1 h2 h3
  | second h1 h2 hrest =>
    refine .owed h1 (.inl h2) fun hc => ?_
    rcases hrest with ⟨hlt, rfl⟩ | ⟨hge, rfl⟩
    · exact .whole (isCont_lt_lead hc) (UInt8.lt_trans (isCont_lt_lead h1) (by decide)) hlt
    · exact .third hc h1 hge
  | third h1 h2 h3 =>
    refine .owed h1 (.inr h3) fun hc => ?_
    exact .whole (isCont_lt_lead hc) (UInt8.lt_trans (isCont_lt_lead h1) (by decide))
      (UInt8.lt_trans (isCont_lt_lead h2) (by decide))

/-! ## A string -/

/-- The check of the byte `j`. -/
def okAt (l : List UInt8) (j : ℕ) : Bool :=
  ok (l.getD (j - 3) 0) (l.getD (j - 2) 0) (l.getD (j - 1) 0) (l.getD j 0)

/-- The string behind sixteen zeros, for which the vectors have zeros as well. -/
def behind (src : List UInt8) : List UInt8 :=
  List.replicate 16 0 ++ src

theorem length_behind (src : List UInt8) : (behind src).length = 16 + src.length := by
  rw [behind, List.length_append, List.length_replicate]

theorem getD_behind (src : List UInt8) (n : ℕ) : (behind src).getD (16 + n) 0 = src.getD n 0 := by
  rw [behind, List.getD_append_right _ _ _ _ (by simp)]
  simp

theorem getD_behind_zero (src : List UInt8) {n : ℕ} (h : n < 16) : (behind src).getD n 0 = 0 := by
  rw [behind, List.getD_append _ _ _ _ (by simpa using h), List.getD_replicate _ h]

/-- The first `n` bytes : the checks pass and the last three tell the place of the machine, or one
fails and the machine is lost. -/
inductive Checks (src : List UInt8) (n : ℕ) : Prop
  | passed (checks : ∀ j < n, okAt (behind src) (16 + j) = true)
      (place : Place ((behind src).getD (16 + n - 3) 0) ((behind src).getD (16 + n - 2) 0)
        ((behind src).getD (16 + n - 1) 0) (leads (some []) (src.take n)))
  | failed (j : ℕ) (lt : j < n) (check : okAt (behind src) (16 + j) = false)
      (lost : leads (some []) (src.take n) = none)

/-- By induction on the bytes : one check is one step. -/
theorem checks (src : List UInt8) : ∀ n ≤ src.length, Checks src n
  | 0, _ => by
    refine .passed (fun j hj => absurd hj (Nat.not_lt_zero j)) ?_
    rw [getD_behind_zero _ (by decide), getD_behind_zero _ (by decide),
      getD_behind_zero _ (by decide)]
    exact .whole (by decide) (by decide) (by decide)
  | n + 1, h => by
    have hnext : leads (some []) (src.take (n + 1)) =
        (leads (some []) (src.take n)).bind
          (Utf8.step Utf8.rows · ((behind src).getD (16 + n) 0)) := by
      rw [List.take_add_one, leads_append, getD_behind, List.getElem?_eq_getElem (by omega),
        List.getD_eq_getElem _ _ (by omega)]
      rfl
    cases checks src n (by omega) with
    | passed hchecks place =>
      cases place.step ((behind src).getD (16 + n) 0) with
      | passed check place =>
        refine .passed (fun j hj => ?_) ?_
        · rcases Nat.lt_succ_iff_lt_or_eq.mp hj with hj | rfl
          · exact hchecks j hj
          · exact check
        · rw [hnext]
          exact place
      | failed check lost => exact .failed n (by omega) check (hnext.trans lost)
    | failed j lt check lost =>
      refine .failed j (by omega) check ?_
      rw [hnext, lost]
      rfl

/-- A check that fails rules the string out. -/
theorem lost_of_check {src : List UInt8} {j : ℕ} (hj : j < src.length)
    (h : okAt (behind src) (16 + j) = false) : leads (some []) src = none := by
  have hall := checks src src.length le_rfl
  rw [← List.take_length (l := src)]
  cases hall with
  | passed hchecks _ => cases (hchecks j hj).symm.trans h
  | failed _ _ _ lost => exact lost

/-- A byte that is no continuation stands where nothing is owed, if the checks pass up to it. -/
theorem starts_of_checks {src : List UInt8} {j : ℕ} (hj : j < src.length)
    (h : ∀ i ≤ j, okAt (behind src) (16 + i) = true) (hc : isCont (src.getD j 0) = false) :
    leads (some []) (src.take j) = some [] := by
  cases checks src j (by omega) with
  | passed _ place =>
    cases place.step ((behind src).getD (16 + j) 0) with
    | passed _ _ starts => exact starts (by rw [getD_behind, hc])
    | failed check _ => cases (h j le_rfl).symm.trans check
  | failed i lt check _ => cases (h i (by omega)).symm.trans check

/-! ## A vector -/

section Vector

variable {g : ℕ} {l : List UInt8} {p : ℕ}

/-- A look-up of half a byte. -/
theorem permuteOrZero_eq {table : List UInt8} {t indices : Lanes g} {k : Fin g} {i : Fin 16}
    {b : UInt8} (ht : ∀ i, t k i = table.getD i 0) (hb : indices k i = b) (hlt : b.toNat < 16) :
    t.permuteOrZero indices k i = table.getD b.toNat 0 := by
  subst hb
  have hsign : ¬ 0x80 ≤ indices k i := by
    simp only [UInt8.le_iff_toNat_le, UInt8.reduceToNat]
    omega
  rw [Lanes.permuteOrZero, if_neg hsign, ht]
  dsimp only
  rw [Nat.mod_eq_of_lt hlt]

theorem high_lt (b : UInt8) : (b >>> 4).toNat < 16 := by
  have := b.toNat_lt
  rw [UInt8.toNat_shiftRight, show (4 : UInt8).toNat % 8 = 4 from rfl, Nat.shiftRight_eq_div_pow]
  omega

theorem low_lt (b : UInt8) : (b &&& 0x0f).toNat < 16 := by
  rw [UInt8.toNat_and]
  exact Nat.lt_succ_of_le Nat.and_le_right

/-- A difference that is cut off at zero is above zero where there is one. -/
theorem mustContinue_iff {b c : UInt8} :
    0 < (if b ≤ 0xdf then 0 else b - 0xdf) ||| (if c ≤ 0xef then 0 else c - 0xef) ↔
      0xdf < b ∨ 0xef < c := by
  have hdiff : ∀ {b d : UInt8}, (if b ≤ d then 0 else b - d) = 0 ↔ b ≤ d := by
    intro b d
    split_ifs with h
    · simp [h]
    · refine iff_of_false (fun hsub => h ?_) h
      rw [UInt8.sub_eq_iff_eq_add, UInt8.zero_add] at hsub
      exact UInt8.le_of_eq hsub
  rw [UInt8.pos_iff_ne_zero, Ne, UInt8.or_eq_zero_iff, hdiff, hdiff, not_and_or, UInt8.not_le,
    UInt8.not_le]

/-- A vector passes if its bytes do. -/
theorem mismatch_isZero {t₁ t₂ t₃ input prior : Lanes g} (hp : 16 ≤ p)
    (h₁ : ∀ k i, t₁ k i = utf8FirstHigh.getD i 0) (h₂ : ∀ k i, t₂ k i = utf8FirstLow.getD i 0)
    (h₃ : ∀ k i, t₃ k i = utf8SecondHigh.getD i 0)
    (hinput : ∀ k i, input k i = l.getD (p + 16 * k + i) 0)
    (hprior : ∀ k i, prior k i = l.getD (p - 16 + 16 * k + i) 0) :
    (mismatch t₁ t₂ t₃ input prior).isZero = true ↔
      ∀ (k : Fin g) (i : Fin 16), okAt l (p + 16 * k + i) = true := by
  unfold mismatch
  rw [Lanes.xor_eq_zero_iff]
  refine forall₂_congr fun k i => ?_
  have hprev : ∀ j, 1 ≤ j → j ≤ 16 → input.concatShiftBytesRight prior (16 - j) k i =
      l.getD (p + 16 * k + i - j) 0 :=
    fun j hj hj' => Lanes.shift_load hp hj hj' hinput hprior k i
  have hp1 : input.concatShiftBytesRight prior 15 k i = _ := hprev 1 le_rfl (by decide)
  have hp2 : input.concatShiftBytesRight prior 14 k i = _ := hprev 2 (by decide) (by decide)
  have hp3 : input.concatShiftBytesRight prior 13 k i = _ := hprev 3 (by decide) (by decide)
  have hlow : (input.concatShiftBytesRight prior 15).and (.broadcast 0x0f) k i =
      l.getD (p + 16 * k + i - 1) 0 &&& 0x0f := by
    rw [← hp1]
    rfl
  have hfirst := Lanes.high_nibble (input.concatShiftBytesRight prior 15) k i
  have hsecond := Lanes.high_nibble input k i
  rw [hp1] at hfirst
  rw [hinput] at hsecond
  simp only [Lanes.masked, Lanes.greater, Lanes.or, Lanes.subSaturated, Lanes.broadcast, hp2, hp3,
    decide_eq_true_eq, mustContinue_iff]
  rw [Lanes.and, Lanes.and, permuteOrZero_eq (h₁ k) hfirst (high_lt _),
    permuteOrZero_eq (h₂ k) hlow (low_lt _), permuteOrZero_eq (h₃ k) hsecond (high_lt _)]
  exact decide_eq_true_iff.symm

/-- The checks of the bytes from `p` to `q`. -/
def Passes (l : List UInt8) (p q : ℕ) : Prop :=
  ∀ j, p ≤ j → j < q → okAt l j = true

theorem Passes.append {p q r : ℕ} (h : Passes l p q) (h' : Passes l q r) : Passes l p r := by
  intro j hp hr
  by_cases hq : j < q
  · exact h j hp hq
  · exact h' j (by omega) hr

/-- The bytes of a vector, one by one. -/
theorem passes_lanes :
    (∀ (k : Fin g) (i : Fin 16), okAt l (p + 16 * k + i) = true) ↔ Passes l p (p + 16 * g) := by
  constructor
  · intro h j hp hq
    have hlane := h ⟨(j - p) / 16, by omega⟩ ⟨(j - p) % 16, by omega⟩
    rwa [show p + 16 * ((j - p) / 16) + (j - p) % 16 = j by omega] at hlane
  · intro h k i
    exact h _ (by omega) (by omega)

theorem narrow_iff (hp : 16 ≤ p) : narrow (.load (l.drop p)) (.load (l.drop (p - 16))) = true ↔
    Passes l p (p + 16) := by
  rw [narrow, mismatch_isZero hp (fun k i => ?_) (fun k i => ?_) (fun k i => ?_)
    (Lanes.load_at l p) (Lanes.load_at l (p - 16))]
  · exact passes_lanes
  all_goals rw [Lanes.load, Fin.val_eq_zero k, Nat.mul_zero, Nat.zero_add]

/-- A table of 256 bits is one of 128 bits twice. -/
theorem load_twice {table twice : List UInt8} (h : table.length = 16)
    (htwice : twice = table ++ table) : ∀ (k : Fin 2) (i : Fin 16),
      Lanes.load twice k i = table.getD i 0
  | 0, i => by
    rw [Lanes.load, htwice, List.getD_append _ _ _ _ (by simp [h])]
    simp
  | 1, i => by
    rw [Lanes.load, htwice, List.getD_append_right _ _ _ _ (by simp [h]), h]
    simp

/-- `prior` : the high half of the vector before, and the low half of this one. -/
theorem prior_at (hp : 16 ≤ p) {previous : Lanes 2}
    (hprevious : ∀ i, previous 1 i = l.getD (p - 16 + i) 0) : ∀ (k : Fin 2) (i : Fin 16),
      (((Lanes.load (l.drop p)).setLo previous.getHi).setHi
        (Lanes.load (l.drop p) : Lanes 2).getLo) k i = l.getD (p - 16 + 16 * k + i) 0
  | 0, i => hprevious i
  | 1, i => by
    have hload := Lanes.load_at l p (0 : Fin 2) i
    rw [Fin.val_zero, Nat.mul_zero, Nat.add_zero] at hload
    rw [Fin.val_one, Nat.mul_one, Nat.sub_add_cancel hp, ← hload]
    rfl

theorem wide_iff (hp : 16 ≤ p) {previous : Lanes 2}
    (hprevious : ∀ i, previous 1 i = l.getD (p - 16 + i) 0) :
    wide (.load (l.drop p)) previous = true ↔ Passes l p (p + 32) := by
  refine Iff.trans (mismatch_isZero hp ?_ ?_ ?_ (Lanes.load_at l p) (prior_at hp hprevious))
    passes_lanes
  · exact load_twice rfl rfl
  · exact load_twice rfl rfl
  · exact load_twice rfl rfl

end Vector

/-! ## The loops -/

section Loops

variable {src : List UInt8}

/-- The loops of `validNarrow` have come to the byte `q` of the string behind zeros. -/
structure Reached (src : List UInt8) (s : Lanes 1 × List UInt8) (q : ℕ) : Prop where
  start : 16 ≤ q
  inside : q ≤ (behind src).length
  previous : s.1 = .load ((behind src).drop (q - 16))
  rest : s.2 = (behind src).drop q
  passes : Passes (behind src) 16 q

/-- A check that fails, of a byte of the string or of the zeros behind it. -/
def Fails (src : List UInt8) : Prop :=
  ∃ j, j < src.length + 16 ∧ okAt (behind src) (16 + j) = false

theorem fails_of_not {p : ℕ} (h : ¬ Passes (behind src) p (p + 16)) (hp : 16 ≤ p)
    (hp' : p ≤ (behind src).length) : Fails src := by
  unfold Passes at h
  push Not at h
  obtain ⟨j, hpj, hjq, hj⟩ := h
  rw [length_behind] at hp'
  refine ⟨j - 16, by omega, ?_⟩
  rw [Nat.add_sub_cancel' (by omega)]
  simpa using hj

/-- One vector. -/
theorem Reached.narrow {s : Lanes 1 × List UInt8} {q : ℕ} (h : Reached src s q)
    (hlen : 16 ≤ s.2.length) (hpass : Simd.narrow (.load s.2) s.1 = true) :
    Reached src (.load s.2, s.2.drop 16) (q + 16) := by
  have hrest := h.rest
  rw [h.previous, h.rest, narrow_iff h.start] at hpass
  rw [hrest, List.length_drop] at hlen
  refine ⟨by have := h.start; omega, by omega, ?_, ?_, h.passes.append hpass⟩
  · rw [hrest, Nat.add_sub_cancel]
  · rw [hrest, List.drop_drop]

theorem Reached.fails {s : Lanes 1 × List UInt8} {q : ℕ} (h : Reached src s q)
    (hfail : Simd.narrow (.load s.2) s.1 = false) : Fails src := by
  refine fails_of_not (fun hpass => ?_) h.start h.inside
  rw [← narrow_iff h.start, ← h.rest, ← h.previous, hfail] at hpass
  cases hpass

/-- What a loop of `validNarrow` ends with. -/
def Passed (src : List UInt8) (width : ℕ) : Option (Lanes 1 × List UInt8) → Prop
  | none => Fails src
  | some s => (∃ q, Reached src s q) ∧ s.2.length < width

theorem pairRound_spec (s : Lanes 1 × List UInt8) (h : ∃ q, Reached src s q) :
    Loop.Round (fun s => ∃ q, Reached src s q) (fun s => s.2.length) (Passed src 32) s
      (pairRound s) := by
  obtain ⟨q, h⟩ := h
  obtain ⟨previous, rest⟩ := s
  unfold pairRound
  dsimp only
  by_cases hlen : 2 * 16 ≤ rest.length
  · rw [if_pos hlen]
    cases h0 : Simd.narrow (.load rest) previous with
    | false => exact h.fails h0
    | true =>
      have hnext := h.narrow (by dsimp only; omega) h0
      cases h1 : Simd.narrow (.load (rest.drop 16)) (.load rest) with
      | false => exact hnext.fails h1
      | true =>
        have hlast := hnext.narrow (by simp; omega) h1
        dsimp only at hlast
        rw [List.drop_drop] at hlast
        exact ⟨⟨_, hlast⟩, by simp; omega⟩
  · rw [if_neg hlen]
    exact ⟨⟨q, h⟩, by dsimp only; omega⟩

theorem singleRound_spec (s : Lanes 1 × List UInt8) (h : ∃ q, Reached src s q) :
    Loop.Round (fun s => ∃ q, Reached src s q) (fun s => s.2.length) (Passed src 16) s
      (singleRound s) := by
  obtain ⟨q, h⟩ := h
  obtain ⟨previous, rest⟩ := s
  unfold singleRound
  dsimp only
  by_cases hlen : 16 ≤ rest.length
  · rw [if_pos hlen]
    cases h0 : Simd.narrow (.load rest) previous with
    | false => exact h.fails h0
    | true => exact ⟨⟨_, h.narrow hlen h0⟩, by simp; omega⟩
  · rw [if_neg hlen]
    exact ⟨⟨q, h⟩, by dsimp only; omega⟩

/-- The loop of `validWide` has come to the byte `q`. -/
structure ReachedWide (src : List UInt8) (size : ℕ) (s : Lanes 2 × List UInt8 × ℕ) (q : ℕ) :
    Prop where
  start : 16 ≤ q
  inside : q ≤ (behind src).length
  previous : ∀ i, s.1 1 i = (behind src).getD (q - 16 + i) 0
  rest : s.2.1 = (behind src).drop q
  processed : s.2.2 = size + (q - 16)
  passes : Passes (behind src) 16 q

/-- What the loop of `validWide` ends with. -/
def PassedWide (src : List UInt8) (size : ℕ) : Option (Lanes 2 × List UInt8 × ℕ) → Prop
  | none => Fails src
  | some s => ∃ q, ReachedWide src size s q

theorem wideRound_spec {size : ℕ} (s : Lanes 2 × List UInt8 × ℕ)
    (h : ∃ q, ReachedWide src size s q) :
    Loop.Round (fun s => ∃ q, ReachedWide src size s q) (fun s => s.2.1.length)
      (PassedWide src size) s (wideRound s) := by
  obtain ⟨q, h⟩ := h
  obtain ⟨previous, rest, processed⟩ := s
  have hrest : rest = (behind src).drop q := h.rest
  have hprocessed : processed = size + (q - 16) := h.processed
  have hstart := h.start
  have hwide := wide_iff hstart h.previous
  rw [← hrest] at hwide
  unfold wideRound
  dsimp only
  by_cases hlen : 32 ≤ rest.length
  · rw [if_pos hlen]
    have hin : q + 32 ≤ (behind src).length := by
      rw [hrest, List.length_drop] at hlen
      omega
    cases h0 : wide (.load rest) previous with
    | false =>
      -- one of the two halves has the byte
      refine Classical.byContradiction fun hnot => ?_
      have hlow : Passes (behind src) q (q + 16) := Classical.byContradiction fun hlow =>
        hnot (fails_of_not hlow hstart h.inside)
      have hhigh : Passes (behind src) (q + 16) (q + 32) := Classical.byContradiction fun hhigh =>
        hnot (fails_of_not hhigh (by omega) (by omega))
      rw [h0] at hwide
      cases hwide.mpr (hlow.append hhigh)
    | true =>
      refine ⟨⟨q + 32, by omega, hin, fun i => ?_, ?_, ?_, h.passes.append (hwide.mp h0)⟩, ?_⟩
      · dsimp only
        rw [hrest, Lanes.load_at, Fin.val_one]
        congr 1
      · rw [hrest, List.drop_drop]
      · dsimp only
        omega
      · simp
        omega
  · rw [if_neg hlen]
    exact ⟨q, h⟩

end Loops

/-! ## The whole string -/

section Whole

variable {rune src : List UInt8}

/-- A check that fails rules the string out, also one of the zeros behind it : they would be
sequences of their own. -/
theorem not_whole_of_fails (h : Fails src) : leads (some []) src ≠ some [] := by
  obtain ⟨j, hj, hfail⟩ := h
  intro hwhole
  have hzeros : leads (some []) (List.replicate 16 0) = some [] :=
    leads_ascii fun b hb => by rw [List.eq_of_mem_replicate hb]; decide
  have hbyte : ∀ i, (behind (src ++ List.replicate 16 0)).getD i 0 = (behind src).getD i 0 := by
    intro i
    rw [behind, ← List.append_assoc, ← behind]
    by_cases hi : i < (behind src).length
    · rw [List.getD_append _ _ _ _ hi]
    · rw [List.getD_append_right _ _ _ _ (Nat.not_lt.mp hi),
        List.getD_eq_default (behind src) _ (Nat.not_lt.mp hi), List.getD_eq_getElem?_getD,
        List.getElem?_replicate]
      split_ifs <;> rfl
  have hlost := @lost_of_check (src ++ List.replicate 16 0) j (by simpa using hj)
    (by simpa only [okAt, hbyte] using hfail)
  rw [leads_append, hwhole, hzeros] at hlost
  cases hlost

/-- One whole sequence. -/
structure Sequence (rune : List UInt8) : Prop where
  whole : leads (some []) rune = some []
  nonempty : 0 < rune.length
  conts : ∀ j, 0 < j → j < rune.length → isCont (rune.getD j 0) = true

theorem lastLead_spec (s : List UInt8) : ∀ n, lastLead s n ≤ n ∧
    (lastLead s n = 0 ∨ isCont (s.getD (lastLead s n) 0) = false)
  | 0 => ⟨le_rfl, .inl rfl⟩
  | n + 1 => by
    rw [lastLead]
    split_ifs with hc
    · obtain ⟨hle, hlead⟩ := lastLead_spec s n
      exact ⟨Nat.le_succ_of_le hle, hlead⟩
    · rw [isCont_iff_mask, Bool.not_eq_true] at hc
      exact ⟨le_rfl, .inr hc⟩

/-- Where the checks pass for `n` bytes after the first sequence, the string from the last lead
before them decides. -/
theorem utf8Valid_lastLead (hrune : Sequence rune) {n : ℕ} (hn : n ≤ src.length)
    (h : Passes (behind src) 16 (16 + n)) :
    utf8Valid ((rune ++ src).drop (lastLead (rune ++ src) (rune.length + n - 1))) =
      decide (leads (some []) (rune ++ src) = some []) := by
  obtain ⟨hle, hlead⟩ := lastLead_spec (rune ++ src) (rune.length + n - 1)
  generalize lastLead (rune ++ src) (rune.length + n - 1) = k at hle hlead ⊢
  rw [utf8Valid_eq]
  by_cases hzero : k = 0
  · rw [hzero, List.drop_zero]
  have hcont := hlead.resolve_left hzero
  have hrange : rune.length ≤ k := by
    by_contra hlt
    rw [List.getD_append _ _ _ _ (Nat.not_le.mp hlt),
      hrune.conts k (Nat.pos_of_ne_zero hzero) (Nat.not_le.mp hlt)] at hcont
    cases hcont
  have hpos := hrune.nonempty
  obtain ⟨j, rfl⟩ := Nat.exists_eq_add_of_le hrange
  rw [List.getD_append_right _ _ _ _ (by omega), Nat.add_sub_cancel_left] at hcont
  have hstart : leads (some []) (src.take j) = some [] :=
    starts_of_checks (by omega) (fun i hi => h _ (by omega) (by omega)) hcont
  have hdrop : (rune ++ src).drop (rune.length + j) = src.drop j := by
    rw [List.drop_append, List.drop_of_length_le (by omega), Nat.add_sub_cancel_left,
      List.nil_append]
  rw [hdrop, leads_append, hrune.whole]
  conv_rhs => rw [← List.take_append_drop j src, leads_append, hstart]

/-- The checks start behind zeros. -/
theorem reached_start (src : List UInt8) : Reached src (.broadcast 0, src) 16 := by
  refine ⟨le_rfl, by rw [length_behind]; omega, ?_, ?_, fun j hj hj' => by omega⟩
  · funext k i
    rw [Lanes.load_at, Fin.val_eq_zero k, getD_behind_zero _ (by omega)]
    rfl
  · rw [behind, List.drop_left' (by simp)]

theorem Reached.length {s : Lanes 1 × List UInt8} {q : ℕ} (h : Reached src s q) :
    q + s.2.length = 16 + src.length := by
  have hlen := congrArg List.length h.rest
  have hin := h.inside
  rw [List.length_drop] at hlen
  rw [length_behind] at hlen hin
  omega

/-- The end of `validNarrow` : less than a vector is left, and passes with zeros behind it. -/
theorem Reached.passes_rest {s : Lanes 1 × List UInt8} {q : ℕ} (h : Reached src s q)
    (hlt : s.2.length < 16) (hrest : s.2.length = 0 ∨ Simd.narrow (.load s.2) s.1 = true) :
    Passes (behind src) 16 (16 + src.length) := by
  have hlen := h.length
  intro j hj hj'
  rcases hrest with hzero | hpass
  · exact h.passes j hj (by omega)
  · rw [h.previous, h.rest, narrow_iff h.start] at hpass
    exact h.passes.append hpass j hj (by omega)

/-- `validNarrow`, after the first sequence. -/
theorem validNarrow_eq (hrune : Sequence rune) :
    validNarrow (rune ++ src) src = decide (leads (some []) (rune ++ src) = some []) := by
  have hfails : Fails src → false = decide (leads (some []) (rune ++ src) = some []) := by
    intro h
    rw [leads_append, hrune.whole]
    exact (decide_eq_false (not_whole_of_fails h)).symm
  have hpair : Passed src 32 (Loop.run pairRound (src.length + 1) some (.broadcast 0, src)) :=
    Loop.run_spec _ _ pairRound_spec ⟨16, reached_start src⟩ (Nat.lt_succ_self _)
  unfold validNarrow
  cases hp : Loop.run pairRound (src.length + 1) some (.broadcast 0, src) with
  | none => exact hfails (by rwa [hp] at hpair)
  | some s =>
    rw [hp] at hpair
    obtain ⟨⟨q, hreached⟩, hlt⟩ := hpair
    have hlen : s.2.length < src.length + 1 := by
      have := hreached.length
      have := hreached.start
      omega
    have hsingle : Passed src 16 (Loop.run singleRound (src.length + 1) some s) :=
      Loop.run_spec _ _ singleRound_spec ⟨q, hreached⟩ hlen
    dsimp only
    cases hs : Loop.run singleRound (src.length + 1) some s with
    | none => exact hfails (by rwa [hs] at hsingle)
    | some s' =>
      rw [hs] at hsingle
      obtain ⟨⟨q', hreached'⟩, hlt'⟩ := hsingle
      obtain ⟨previous, rest⟩ := s'
      dsimp only at hlt' ⊢
      by_cases hfail : rest.length ≠ 0 ∧ (!Simd.narrow (.load rest) previous) = true
      · rw [if_pos hfail]
        exact hfails (hreached'.fails (by simpa using hfail.2))
      · rw [if_neg hfail, List.length_append]
        refine utf8Valid_lastLead hrune le_rfl (hreached'.passes_rest hlt' ?_)
        by_cases hzero : rest.length = 0
        · exact .inl hzero
        · exact .inr (by simpa [hzero] using hfail)

/-- `validWide`, after the first sequence. -/
theorem validWide_eq (hrune : Sequence rune) :
    validWide (rune ++ src) src rune.length =
      decide (leads (some []) (rune ++ src) = some []) := by
  have hstart : ReachedWide src rune.length (.broadcast 0, src, rune.length) 16 :=
    ⟨le_rfl, (reached_start src).inside, fun i => (getD_behind_zero src (by omega)).symm,
      (reached_start src).rest, rfl, (reached_start src).passes⟩
  have hwide : PassedWide src rune.length
      (Loop.run wideRound (src.length + 1) some (.broadcast 0, src, rune.length)) :=
    Loop.run_spec _ _ wideRound_spec ⟨16, hstart⟩ (Nat.lt_succ_self _)
  unfold validWide
  cases hw : Loop.run wideRound (src.length + 1) some (.broadcast 0, src, rune.length) with
  | none =>
    rw [hw] at hwide
    rw [leads_append, hrune.whole]
    exact (decide_eq_false (not_whole_of_fails hwide)).symm
  | some s =>
    rw [hw] at hwide
    obtain ⟨q, hreached⟩ := hwide
    obtain ⟨previous, rest, processed⟩ := s
    have hprocessed : processed = rune.length + (q - 16) := hreached.processed
    have hin := hreached.inside
    have hpasses := hreached.passes
    have hq := hreached.start
    rw [length_behind] at hin
    rw [← Nat.add_sub_cancel' hq] at hpasses
    dsimp only
    rw [hprocessed]
    exact utf8Valid_lastLead hrune (by omega) hpasses

/-! ### The first sequence -/

theorem spells_of_zip : ∀ {row : List Range} {s : List UInt8}, row.length ≤ s.length →
    ((row.zip s).all fun p => p.1.has p.2) = true → Utf8.Spells row (s.take row.length)
  | [], s, _, _ => .nil
  | r :: row, b :: s, hlen, h => by
    rw [List.zip_cons_cons, List.all_cons, Bool.and_eq_true] at h
    exact .cons h.1 (spells_of_zip (by simpa using hlen) h.2)

theorem zip_of_spells : ∀ {row : List Range} {bs : List UInt8} (t : List UInt8),
    Utf8.Spells row bs → row.length ≤ (bs ++ t).length ∧
      ((row.zip (bs ++ t)).all fun p => p.1.has p.2) = true
  | [], [], t, _ => by simp
  | r :: row, b :: bs, t, h => by
    obtain ⟨hb, h⟩ := List.forall₂_cons.mp h
    obtain ⟨hlen, hall⟩ := zip_of_spells t h
    exact ⟨by simpa using hlen, by simp [hb, hall]⟩

/-- Past the first byte a row has continuations only. -/
theorem rows_conts {row : List Range} (h : row ∈ Utf8.rows) :
    ∀ r ∈ row.tail, 0x80 ≤ r.1 ∧ r.2 ≤ 0xBF := by
  have hall : (Utf8.rows.all fun row => row.tail.all fun r =>
      decide (0x80 ≤ r.1) && decide (r.2 ≤ 0xBF)) = true := by
    decide
  intro r hr
  have hrow := List.all_eq_true.mp (List.all_eq_true.mp hall row h) r hr
  simpa using hrow

theorem spells_conts : ∀ {rs : List Range} {bs : List UInt8}, Utf8.Spells rs bs →
    (∀ r ∈ rs, 0x80 ≤ r.1 ∧ r.2 ≤ 0xBF) → ∀ b ∈ bs, isCont b = true
  | _, _, .nil, _, b, hb => absurd hb List.not_mem_nil
  | r :: _, _, .cons hhas hspells, hrs, b, hb => by
    rcases List.mem_cons.mp hb with rfl | hb
    · exact isCont_of_has (hrs r List.mem_cons_self) hhas
    · exact spells_conts hspells (fun r hr => hrs r (List.mem_cons_of_mem _ hr)) b hb

theorem sequence_of_spells {row : List Range} {bs : List UInt8} (hrow : row ∈ Utf8.rows)
    (h : Utf8.Spells row bs) : Sequence bs := by
  have hwhole : Utf8.WellFormed bs := by
    rw [← List.append_nil bs]
    exact .append hrow h .nil
  cases h with
  | nil => exact absurd hrow Utf8.ordered_rows.nonempty
  | @cons r b rs bs hb hspells =>
    refine ⟨(Utf8.leads_iff _).mpr hwhole, by simp, fun j hj hlt => ?_⟩
    obtain ⟨i, rfl⟩ := Nat.exists_eq_add_of_lt hj
    rw [Nat.zero_add] at hlt ⊢
    rw [List.getD_cons_succ, List.getD_eq_getElem _ _ (by simpa using hlt)]
    exact spells_conts hspells (rows_conts hrow) _ (List.getElem_mem _)

theorem decodeRune_some {s : List UInt8} {size : ℕ} (h : decodeRune s = some size) :
    Sequence (s.take size) ∧ size ≤ s.length := by
  obtain ⟨row, hfind, rfl⟩ := Option.map_eq_some_iff.mp h
  have hfits := List.find?_some hfind
  rw [Bool.and_eq_true, decide_eq_true_eq] at hfits
  exact ⟨sequence_of_spells (List.mem_of_find?_eq_some hfind) (spells_of_zip hfits.1 hfits.2),
    hfits.1⟩

theorem decodeRune_none {s : List UInt8} (hs : s ≠ []) (h : decodeRune s = none) :
    leads (some []) s ≠ some [] := by
  intro hwhole
  obtain ⟨b, t, rfl⟩ := List.exists_cons_of_ne_nil hs
  obtain ⟨row, hrow, bs, rest, heq, hspells, -⟩ :=
    Utf8.concat_cons.mp ((Utf8.leads_iff _).mp hwhole)
  obtain ⟨hlen, hall⟩ := zip_of_spells rest hspells
  have hnone := List.find?_eq_none.mp (Option.map_eq_none_iff.mp h) row hrow
  rw [heq] at hnone
  exact hnone (by rw [hall, decide_eq_true hlen]; rfl)

/-- The vector `Valid` accepts well-formed UTF-8 and nothing else, as the portable one does. -/
theorem valid_simd_exact (avx2 : Bool) (src : List UInt8) :
    (valid avx2 src = true ↔ Utf8.WellFormed src) ∧ valid avx2 src = Swar.valid src := by
  have hskip := leads_asciiPrefix src
  have hvalid : valid avx2 src = decide (leads (some []) src = some []) := by
    unfold valid
    dsimp only
    by_cases hall : asciiPrefix src = src.length
    · rw [if_pos hall]
      rw [hall, List.drop_length] at hskip
      exact (decide_eq_true hskip.symm).symm
    rw [if_neg hall, ← hskip]
    generalize src.drop (asciiPrefix src) = rest
    by_cases hshort : rest.length < 32
    · rw [if_pos hshort, utf8Valid_eq]
    rw [if_neg hshort]
    have hne : rest ≠ [] := by
      rintro rfl
      exact hshort (by decide)
    cases hrune : decodeRune rest with
    | none => exact (decide_eq_false (decodeRune_none hne hrune)).symm
    | some size =>
      obtain ⟨hseq, hsize⟩ := decodeRune_some hrune
      have hnarrow := @validNarrow_eq _ (rest.drop size) hseq
      have hwide := @validWide_eq _ (rest.drop size) hseq
      rw [List.take_append_drop] at hnarrow hwide
      rw [List.length_take, Nat.min_eq_left hsize] at hwide
      dsimp only
      split_ifs
      · exact hwide
      · exact hnarrow
  rw [hvalid, decide_eq_true_eq, Swar.valid_eq]
  exact ⟨Utf8.leads_iff src, rfl⟩

end Whole

end Simd

end Ews
