import Mathlib.Data.Nat.Notation
import Mathlib.Tactic.Common

/-!
# Byte strings by rows of ranges

A grammar given by rows : a sequence of a row has one byte from each of its ranges, and a byte
string is well formed if it is a concatenation of sequences. `Utf8.rows` are those of RFC 3629.

If no byte starts two rows, a machine that keeps the ranges it is still owed decides the grammar
byte by byte. `Utf8.run_eq_nil_iff` says so for every such grammar ; the machine stands at `none`
once a byte has ruled the string out.
-/

namespace Utf8

/-- The bytes from the first to the second. -/
abbrev Range := UInt8 × UInt8

def Range.has (r : Range) (b : UInt8) : Bool :=
  r.1 ≤ b && b ≤ r.2

/-- What is to hold of every byte can be checked by going through the bytes. -/
theorem forall_byte {P : UInt8 → Prop} (h : ∀ n < 256, P (UInt8.ofNat n)) (b : UInt8) : P b := by
  simpa using h b.toNat b.toNat_lt

section Rows

variable (rows : List (List Range))

/-- One byte from each range. -/
def Spells (rs : List Range) (bs : List UInt8) : Prop :=
  List.Forall₂ (fun r b => r.has b = true) rs bs

/-- A concatenation of sequences. -/
inductive Concat : List UInt8 → Prop
  | nil : Concat []
  | append {rs : List Range} {bs s : List UInt8} (row : rs ∈ rows) (spells : Spells rs bs)
      (rest : Concat s) : Concat (bs ++ s)

/-- The first range of a row ends before that of another. -/
def before : List Range → List Range → Bool
  | r :: _, s :: _ => r.2 < s.1
  | _, _ => true

/-- The rows are not empty, and stand in the order of their first ranges, which do not meet. -/
structure Ordered : Prop where
  nonempty : [] ∉ rows
  apart : rows.Pairwise fun rs ss => before rs ss = true

/-- What a row still owes after its first byte. -/
def enter (b : UInt8) : List Range → Option (List Range)
  | [] => none
  | r :: rs => if r.has b then some rs else none

/-- One byte : of what is owed, or the first of a sequence. -/
def step (owed : List Range) (b : UInt8) : Option (List Range) :=
  match owed with
  | [] => rows.findSome? (enter b)
  | _ :: _ => enter b owed

def run (owed : Option (List Range)) (s : List UInt8) : Option (List Range) :=
  s.foldl (fun owed b => owed.bind (step rows · b)) owed

variable {rows}

@[simp] theorem run_nil (owed : Option (List Range)) : run rows owed [] = owed := rfl

@[simp] theorem run_cons (owed : Option (List Range)) (b : UInt8) (s : List UInt8) :
    run rows owed (b :: s) = run rows (owed.bind (step rows · b)) s := rfl

/-- A byte that is owed. -/
theorem run_owed (r : Range) (rs : List Range) (b : UInt8) (s : List UInt8) :
    run rows (some (r :: rs)) (b :: s) = run rows (if r.has b then some rs else none) s := rfl

theorem run_append (owed : Option (List Range)) (s t : List UInt8) :
    run rows owed (s ++ t) = run rows (run rows owed s) t :=
  List.foldl_append

@[simp] theorem run_none : ∀ s : List UInt8, run rows none s = none
  | [] => rfl
  | _ :: s => run_none s

/-- A string that ends before the ranges owed. -/
theorem run_short : ∀ {owed : List Range} {s : List UInt8}, s.length < owed.length →
    run rows (some owed) s ≠ some []
  | [], _, h => absurd h (Nat.not_lt_zero _)
  | _ :: _, [], _ => by simp
  | r :: rs, b :: s, h => by
    rw [run_owed]
    cases r.has b with
    | false => simp
    | true => exact run_short (by simpa using h)

/-- What may follow : the bytes owed, and then sequences. -/
def Follows (rows : List (List Range)) (owed : List Range) (s : List UInt8) : Prop :=
  ∃ bs t, s = bs ++ t ∧ Spells owed bs ∧ Concat rows t

theorem follows_nil {s : List UInt8} : Follows rows [] s ↔ Concat rows s := by
  constructor
  · rintro ⟨bs, t, rfl, hspell, ht⟩
    cases hspell
    exact ht
  · exact fun h => ⟨[], s, rfl, .nil, h⟩

theorem follows_cons {r : Range} {rs : List Range} {b : UInt8} {s : List UInt8} :
    Follows rows (r :: rs) (b :: s) ↔ r.has b = true ∧ Follows rows rs s := by
  constructor
  · rintro ⟨bs, t, heq, hspell, ht⟩
    cases hspell with
    | cons hb hrest =>
      obtain ⟨rfl, rfl⟩ := List.cons.inj heq
      exact ⟨hb, _, t, rfl, hrest, ht⟩
  · rintro ⟨hb, bs, t, rfl, hspell, ht⟩
    exact ⟨b :: bs, t, rfl, .cons hb hspell, ht⟩

/-- A string of sequences, taken apart at its first byte. -/
theorem concat_cons {b : UInt8} {s : List UInt8} :
    Concat rows (b :: s) ↔ ∃ rs ∈ rows, Follows rows rs (b :: s) := by
  constructor
  · intro h
    generalize hbs : b :: s = l at h
    cases h with
    | nil => cases hbs
    | append row spells rest => exact ⟨_, row, _, _, rfl, spells, rest⟩
  · rintro ⟨rs, hrow, bs, t, heq, hspell, ht⟩
    rw [heq]
    exact .append hrow hspell ht

theorem enter_eq_some {b : UInt8} {row rs : List Range} :
    enter b row = some rs ↔ ∃ r, row = r :: rs ∧ r.has b = true := by
  cases row with
  | nil => simp [enter]
  | cons r rs' =>
    simp only [enter, List.cons.injEq]
    split_ifs with h <;> simp [h]

/-- The rows a byte starts : at most one. -/
theorem findSome?_enter : ∀ {rows : List (List Range)},
    rows.Pairwise (fun rs ss => before rs ss = true) →
    ∀ {b : UInt8} {rs : List Range},
      rows.findSome? (enter b) = some rs ↔ ∃ r, r :: rs ∈ rows ∧ r.has b = true
  | [], _, b, rs => by simp
  | row :: rows, h, b, rs => by
    obtain ⟨hrow, hrows⟩ := List.pairwise_cons.mp h
    rw [List.findSome?_cons]
    cases hb : enter b row with
    | some rs' =>
      obtain ⟨r', rfl, hr'⟩ := enter_eq_some.mp hb
      constructor
      · rintro heq
        cases heq
        exact ⟨r', List.mem_cons_self, hr'⟩
      · rintro ⟨r, hr, hrb⟩
        rcases List.mem_cons.mp hr with heq | hmem
        · cases heq
          rfl
        · -- the byte would be in two first ranges, one after the other
          have hlt : r'.2 < r.1 := of_decide_eq_true (hrow _ hmem)
          simp only [Range.has, Bool.and_eq_true, decide_eq_true_eq] at hr' hrb
          exact absurd (UInt8.lt_of_lt_of_le hlt hrb.1) (UInt8.not_lt.mpr hr'.2)
    | none =>
      show rows.findSome? (enter b) = some rs ↔ _
      rw [findSome?_enter hrows]
      constructor
      · rintro ⟨r, hr, hrb⟩
        exact ⟨r, List.mem_cons_of_mem _ hr, hrb⟩
      · rintro ⟨r, hr, hrb⟩
        rcases List.mem_cons.mp hr with rfl | hmem
        · simp [enter, hrb] at hb
        · exact ⟨r, hmem, hrb⟩

/-- The machine ends with nothing owed exactly on what may follow. -/
theorem run_eq_nil_iff (h : Ordered rows) : ∀ (s : List UInt8) (owed : List Range),
    run rows (some owed) s = some [] ↔ Follows rows owed s
  | [], owed => by
    constructor
    · rintro heq
      cases heq
      exact ⟨[], [], rfl, .nil, .nil⟩
    · rintro ⟨bs, t, heq, hspell, -⟩
      obtain ⟨rfl, -⟩ := List.append_eq_nil_iff.mp heq.symm
      cases hspell
      rfl
  | b :: s, [] => by
    have hstep : run rows (some []) (b :: s) = run rows (rows.findSome? (enter b)) s := rfl
    rw [follows_nil, concat_cons, hstep]
    constructor
    · intro hrun
      cases hfind : rows.findSome? (enter b) with
      | none => simp [hfind] at hrun
      | some rs =>
        obtain ⟨r, hr, hrb⟩ := (findSome?_enter h.apart).mp hfind
        rw [hfind] at hrun
        exact ⟨_, hr, follows_cons.mpr ⟨hrb, (run_eq_nil_iff h s rs).mp hrun⟩⟩
    · rintro ⟨row, hrow, hfollows⟩
      cases row with
      | nil => exact absurd hrow h.nonempty
      | cons r rs =>
        obtain ⟨hrb, hrest⟩ := follows_cons.mp hfollows
        rw [(findSome?_enter h.apart).mpr ⟨r, hrow, hrb⟩]
        exact (run_eq_nil_iff h s rs).mpr hrest
  | b :: s, r :: rs => by
    rw [follows_cons, ← run_eq_nil_iff h s rs]
    cases hb : r.has b <;> simp [step, enter, hb]

/-- From the start, the machine ends with nothing owed exactly on concatenations. -/
theorem run_start_iff (h : Ordered rows) (s : List UInt8) :
    run rows (some []) s = some [] ↔ Concat rows s :=
  (run_eq_nil_iff h s []).trans follows_nil

end Rows

/-! ## UTF-8 -/

/-- A continuation byte. -/
def tail : Range :=
  (0x80, 0xBF)

/-- The sequences of RFC 3629 : no overlong form, no surrogate, nothing above U+10FFFF. -/
def rows : List (List Range) :=
  [[(0x00, 0x7F)],
   [(0xC2, 0xDF), tail],
   [(0xE0, 0xE0), (0xA0, 0xBF), tail],
   [(0xE1, 0xEC), tail, tail],
   [(0xED, 0xED), (0x80, 0x9F), tail],
   [(0xEE, 0xEF), tail, tail],
   [(0xF0, 0xF0), (0x90, 0xBF), tail, tail],
   [(0xF1, 0xF3), tail, tail, tail],
   [(0xF4, 0xF4), (0x80, 0x8F), tail, tail]]

/-- Well-formed UTF-8. -/
def WellFormed (s : List UInt8) : Prop :=
  Concat rows s

theorem ordered_rows : Ordered rows :=
  ⟨by decide, by decide⟩

/-- Where a string of bytes leads from a place in a sequence. -/
abbrev leads (owed : Option (List Range)) (s : List UInt8) : Option (List Range) :=
  run rows owed s

theorem leads_iff (s : List UInt8) : leads (some []) s = some [] ↔ WellFormed s :=
  run_start_iff ordered_rows s

end Utf8
