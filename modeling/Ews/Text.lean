import Mathlib.Data.List.DropRight
import Mathlib.Data.Nat.Notation
import Mathlib.Tactic.Common

/-!
# Header text

Strings are byte strings, as in Go. Splitting, cutting, trimming a set of bytes and the
decimal numbers of `strconv` are defined here. The functions that look at Unicode
(`TrimSpace`, `ToLower`, `EqualFold`) are parameters : a `Unicode` has any such
functions that do the expected thing on ASCII text.

A list of parameters written behind a name (`render`) is read back piece by piece : the
pieces contain no separator (`split_render`), and a piece is trimmed and cut into the
name and the value it was made of (`Writable.cut_piece`).
-/

namespace Text

/-- A string of Go. -/
abbrev Str := List UInt8

/-- The bytes of an ASCII literal. -/
def ascii (s : String) : Str :=
  s.toList.map fun c => UInt8.ofNat c.toNat

/-! ## Cutting and trimming -/

/-- `strings.Split` at one byte. -/
def split (sep : UInt8) (s : Str) : List Str :=
  s.splitOn sep

/-- `strings.Cut` at one byte : what is before it and what is after. -/
def cut (sep : UInt8) (s : Str) : Str × Str :=
  (s.takeWhile (· != sep), (s.dropWhile (· != sep)).tail)

/-- `s` without the bytes of `p` at its ends. -/
def trim (p : UInt8 → Bool) (s : Str) : Str :=
  (s.dropWhile p).rdropWhile p

/-- White space of ASCII. -/
def isSpace (b : UInt8) : Bool :=
  b == 0x20 || (0x09 ≤ b && b ≤ 0x0d)

def isQuote (b : UInt8) : Bool :=
  b == 0x22

def lower (b : UInt8) : UInt8 :=
  if 0x41 ≤ b ∧ b ≤ 0x5a then b + 0x20 else b

/-- All bytes are ASCII. -/
def IsAscii (s : Str) : Prop :=
  ∀ b ∈ s, b < 0x80

theorem isAscii_nil : IsAscii [] := fun _ hb => by cases hb

/-- Functions of the package `strings` that look at Unicode, and what they do on ASCII
text. -/
structure Unicode where
  trimSpace : Str → Str
  toLower : Str → Str
  equalFold : Str → Str → Bool
  trimSpace_ascii : ∀ s, IsAscii s → trimSpace s = trim isSpace s
  toLower_ascii : ∀ s, IsAscii s → toLower s = s.map lower
  equalFold_ascii : ∀ s t, IsAscii s → IsAscii t → equalFold s t = (s.map lower == t.map lower)

/-- The functions that treat other bytes as letters without case. -/
def asciiOnly : Unicode where
  trimSpace := trim isSpace
  toLower s := s.map lower
  equalFold s t := s.map lower == t.map lower
  trimSpace_ascii _ _ := rfl
  toLower_ascii _ _ := rfl
  equalFold_ascii _ _ _ _ := rfl

theorem trim_nil (p : UInt8 → Bool) : trim p [] = [] := rfl

theorem trim_cons {p : UInt8 → Bool} {b : UInt8} (h : p b = true) (s : Str) :
    trim p (b :: s) = trim p s := by
  rw [trim, List.dropWhile_cons_of_pos h, trim]

/-- Nothing to trim at either end. -/
theorem trim_eq_self {p : UInt8 → Bool} {s : Str} (hfirst : ∀ b ∈ s.head?, p b = false)
    (hlast : ∀ b ∈ s.getLast?, p b = false) : trim p s = s := by
  have hdrop : s.dropWhile p = s := by
    cases s with
    | nil => rfl
    | cons b s => exact List.dropWhile_cons_of_neg (by simp [hfirst b rfl])
  rw [trim, hdrop, List.rdropWhile_eq_self_iff]
  intro hne
  rw [hlast _ (List.getLast?_eq_some_getLast hne)]
  decide

/-- A string of other bytes stays as it is. -/
theorem trim_of_forall {p : UInt8 → Bool} {s : Str} (h : ∀ b ∈ s, p b = false) :
    trim p s = s :=
  trim_eq_self (fun b hb => h b (List.mem_of_mem_head? hb))
    fun b hb => h b (List.mem_of_mem_getLast? hb)

theorem trim_append_left {p : UInt8 → Bool} {a : Str} (ha : ∀ b ∈ a, p b = true) (s : Str) :
    trim p (a ++ s) = trim p s := by
  rw [trim, List.dropWhile_append_of_pos ha, trim]

theorem rdropWhile_append {p : UInt8 → Bool} {c : Str} (hc : ∀ b ∈ c, p b = true) (s : Str) :
    (s ++ c).rdropWhile p = s.rdropWhile p := by
  have hrev : ∀ b ∈ c.reverse, p b = true := fun b hb => hc b (List.mem_reverse.mp hb)
  rw [List.rdropWhile, List.rdropWhile, List.reverse_append, List.dropWhile_append_of_pos hrev]

theorem trim_append_right {p : UInt8 → Bool} {c : Str} (hc : ∀ b ∈ c, p b = true) (s : Str) :
    trim p (s ++ c) = trim p s := by
  rw [trim, trim, List.dropWhile_append]
  split_ifs with h
  · rw [List.dropWhile_eq_nil_iff.mpr hc, List.isEmpty_iff.mp h]
  · exact rdropWhile_append hc _

theorem cut_of_notMem {sep : UInt8} {s : Str} (h : sep ∉ s) : cut sep s = (s, []) := by
  have hall : ∀ b ∈ s, (b != sep) = true := fun b hb => by
    rw [bne_iff_ne]
    rintro rfl
    exact h hb
  rw [cut, List.takeWhile_eq_self_iff.mpr hall, List.dropWhile_eq_nil_iff.mpr hall]
  rfl

theorem cut_append {sep : UInt8} {s : Str} (h : sep ∉ s) (t : Str) :
    cut sep (s ++ sep :: t) = (s, t) := by
  have hall : ∀ b ∈ s, (b != sep) = true := fun b hb => by
    rw [bne_iff_ne]
    rintro rfl
    exact h hb
  rw [cut, List.takeWhile_append_of_pos hall, List.dropWhile_append_of_pos hall,
    List.takeWhile_cons_of_neg (by simp), List.dropWhile_cons_of_neg (by simp), List.append_nil]
  rfl

/-- The pieces of a split have no separator. -/
theorem notMem_split (sep : UInt8) : ∀ (s w : Str), w ∈ split sep s → sep ∉ w
  | [], w, hw => by
    rw [split, List.splitOn_nil, List.mem_singleton] at hw
    simp [hw]
  | b :: s, w, hw => by
    have ih := notMem_split sep s
    rw [split, List.splitOn_cons_eq_if_modifyHead] at hw
    split_ifs at hw with hb
    · rcases List.mem_cons.mp hw with rfl | hw
      · exact List.not_mem_nil
      · exact ih w hw
    · unfold split at ih
      cases hs : s.splitOn sep with
      | nil => exact absurd hs (List.splitOn_ne_nil _ _)
      | cons v vs =>
        rw [hs] at hw ih
        rcases List.mem_cons.mp hw with rfl | hw
        · intro hm
          rcases List.mem_cons.mp hm with rfl | hm
          · simp at hb
          · exact ih v List.mem_cons_self hm
        · exact ih w (List.mem_cons_of_mem _ hw)

/-! ## Numbers -/

def isDigit (b : UInt8) : Bool :=
  0x30 ≤ b && b ≤ 0x39

/-- The number decimal digits denote. -/
def decimal (s : Str) : ℕ :=
  s.foldl (fun n b => n * 10 + (b - 0x30).toNat) 0

/-- `strconv.Atoi` : an optional sign and digits, within an `int`. -/
def atoi (s : Str) : Option ℤ :=
  let neg := s.head? == some 0x2d
  let digits := if s.head? == some 0x2d || s.head? == some 0x2b then s.tail else s
  if digits.isEmpty || !digits.all isDigit then none
  else
    let n : ℤ := if neg then -(decimal digits : ℤ) else decimal digits
    if n < -0x8000000000000000 ∨ 0x7fffffffffffffff < n then none else some n

/-- `strconv.Itoa`. -/
def itoa (n : ℤ) : Str :=
  let digits := (Nat.toDigits 10 n.natAbs).map fun c => UInt8.ofNat c.toNat
  if n < 0 then 0x2d :: digits else digits

/-! ## Parameters behind a name -/

/-- A visible byte that is no separator and no quote. -/
def isToken (b : UInt8) : Bool :=
  0x20 < b && b < 0x7f && b != 0x2c && b != 0x3b && b != 0x3d && b != 0x22

/-- A nonempty string of such bytes. -/
def Token (s : Str) : Prop :=
  s ≠ [] ∧ ∀ b ∈ s, isToken b = true

instance (s : Str) : Decidable (Token s) :=
  @instDecidableAnd _ _ inferInstance (List.decidableBAll _ s)

/-- A parameter as it is written : the value is left out when empty. -/
def piece (kv : Str × Str) : Str :=
  if kv.2 = [] then kv.1 else kv.1 ++ 0x3d :: kv.2

/-- Parameters behind a name. -/
def render (name : Str) (kvs : List (Str × Str)) : Str :=
  name ++ (kvs.map fun kv => ascii "; " ++ piece kv).flatten

/-- The parameters that can be written : the name and a value that is there are tokens. -/
def Writable (kv : Str × Str) : Prop :=
  Token kv.1 ∧ (kv.2 ≠ [] → Token kv.2)

theorem isToken_spec {b : UInt8} (h : isToken b = true) : b < 0x80 ∧ isSpace b = false ∧
    b ≠ 0x2c ∧ b ≠ 0x3b ∧ b ≠ 0x3d ∧ isQuote b = false := by
  have key : ∀ i : Fin 256, isToken (UInt8.ofFin i) = true →
      UInt8.ofFin i < 0x80 ∧ isSpace (UInt8.ofFin i) = false ∧ UInt8.ofFin i ≠ 0x2c ∧
        UInt8.ofFin i ≠ 0x3b ∧ UInt8.ofFin i ≠ 0x3d ∧ isQuote (UInt8.ofFin i) = false := by
    decide +kernel
  have hb := key b.toFin
  rw [UInt8.ofFin_toFin] at hb
  exact hb h

namespace Token

variable {s : Str}

theorem isAscii (h : Token s) : IsAscii s := fun b hb => (isToken_spec (h.2 b hb)).1

theorem trim_space (h : Token s) : trim isSpace s = s :=
  trim_of_forall fun b hb => (isToken_spec (h.2 b hb)).2.1

theorem trim_quote (h : Token s) : trim isQuote s = s :=
  trim_of_forall fun b hb => (isToken_spec (h.2 b hb)).2.2.2.2.2

end Token

namespace Writable

variable {kv : Str × Str}

theorem piece_ne_nil (h : Writable kv) : piece kv ≠ [] := by
  unfold piece
  split_ifs
  · exact h.1.1
  · simp

/-- The bytes of a piece are token bytes and the equals sign. -/
theorem mem_piece (h : Writable kv) {b : UInt8} (hb : b ∈ piece kv) :
    isToken b = true ∨ b = 0x3d := by
  unfold piece at hb
  split_ifs at hb with hv
  · exact Or.inl (h.1.2 b hb)
  · rcases List.mem_append.mp hb with hb | hb
    · exact Or.inl (h.1.2 b hb)
    · rcases List.mem_cons.mp hb with rfl | hb
      · exact Or.inr rfl
      · exact Or.inl ((h.2 hv).2 b hb)

theorem not_mem_piece (h : Writable kv) {sep : UInt8} (hsep : isToken sep = false)
    (hne : sep ≠ 0x3d) : sep ∉ piece kv := by
  intro hb
  rcases h.mem_piece hb with ht | he
  · rw [hsep] at ht
    cases ht
  · exact hne he

theorem piece_ascii (h : Writable kv) : IsAscii (piece kv) := by
  intro b hb
  rcases h.mem_piece hb with ht | rfl
  · exact (isToken_spec ht).1
  · decide

theorem piece_space (h : Writable kv) {b : UInt8} (hb : b ∈ piece kv) : isSpace b = false := by
  rcases h.mem_piece hb with ht | rfl
  · exact (isToken_spec ht).2.1
  · decide

/-- A piece behind its blank is trimmed to itself, and cut into name and value. -/
theorem cut_piece (h : Writable kv) :
    trim isSpace (0x20 :: piece kv) = piece kv ∧ cut 0x3d (piece kv) = kv := by
  refine ⟨?_, ?_⟩
  · rw [trim_cons (by decide)]
    exact trim_of_forall fun b hb => h.piece_space hb
  · have hname : 0x3d ∉ kv.1 := fun hb => (isToken_spec (h.1.2 _ hb)).2.2.2.2.1 rfl
    unfold piece
    split_ifs with hv
    · rw [cut_of_notMem hname, ← hv]
    · exact cut_append hname kv.2

end Writable

section Render

variable {name : Str} {kvs : List (Str × Str)}

theorem render_cons (name : Str) (kv : Str × Str) (kvs : List (Str × Str)) :
    render name (kv :: kvs) = name ++ 0x3b :: render (0x20 :: piece kv) kvs := by
  rw [render, render, List.map_cons, List.flatten_cons, List.append_assoc]
  rfl

/-- The pieces of a rendering, split at the semicolons. -/
theorem split_render (hname : 0x3b ∉ name) (hkvs : ∀ kv ∈ kvs, Writable kv) :
    split 0x3b (render name kvs) = name :: kvs.map fun kv => 0x20 :: piece kv := by
  induction kvs generalizing name with
  | nil =>
    rw [render, List.map_nil, List.flatten_nil, List.append_nil, split,
      List.splitOn_eq_singleton hname]
    rfl
  | cons kv kvs ih =>
    have hkv := hkvs kv List.mem_cons_self
    have hpiece : 0x3b ∉ 0x20 :: piece kv := by
      rw [List.mem_cons, not_or]
      exact ⟨by decide, hkv.not_mem_piece (by decide) (by decide)⟩
    rw [render_cons, split, List.splitOn_append_cons_self_of_not_mem hname, ← split,
      ih hpiece fun kv' h => hkvs kv' (List.mem_cons_of_mem _ h), List.map_cons]

/-- The bytes of a rendering. -/
theorem mem_render (hkvs : ∀ kv ∈ kvs, Writable kv) {b : UInt8} (hb : b ∈ render name kvs) :
    b ∈ name ∨ isToken b = true ∨ b = 0x3d ∨ b = 0x3b ∨ b = 0x20 := by
  rw [render, List.mem_append, List.mem_flatten] at hb
  rcases hb with hb | ⟨l, hl, hb⟩
  · exact Or.inl hb
  · obtain ⟨kv, hkv, rfl⟩ := List.mem_map.mp hl
    rcases List.mem_append.mp hb with hb | hb
    · have : b = 0x3b ∨ b = 0x20 := by simpa [ascii] using hb
      tauto
    · have := (hkvs kv hkv).mem_piece hb
      tauto

theorem render_ascii (hname : Token name) (hkvs : ∀ kv ∈ kvs, Writable kv) :
    IsAscii (render name kvs) := by
  intro b hb
  rcases mem_render hkvs hb with h | h | rfl | rfl | rfl
  · exact hname.isAscii b h
  · exact (isToken_spec h).1
  · decide
  · decide
  · decide

/-- A rendering has no comma, so it is one element of a list. -/
theorem split_comma_render (hname : Token name) (hkvs : ∀ kv ∈ kvs, Writable kv) :
    split 0x2c (render name kvs) = [render name kvs] := by
  refine List.splitOn_eq_singleton ?_
  intro hb
  rcases mem_render hkvs hb with h | h | h | h | h
  · exact (isToken_spec (hname.2 _ h)).2.2.1 rfl
  · exact (isToken_spec h).2.2.1 rfl
  · cases h
  · cases h
  · cases h

/-- It starts with its name and ends with its last piece, so there is nothing to trim. -/
theorem trim_render (hname : Token name) (hkvs : ∀ kv ∈ kvs, Writable kv) :
    trim isSpace (render name kvs) = render name kvs := by
  refine trim_eq_self ?_ ?_
  · intro b hb
    rw [render, List.head?_append_of_ne_nil _ hname.1] at hb
    exact (isToken_spec (hname.2 b (List.mem_of_mem_head? hb))).2.1
  · intro b hb
    rcases List.eq_nil_or_concat' kvs with rfl | ⟨kvs, kv, rfl⟩
    · rw [render, List.map_nil, List.flatten_nil, List.append_nil] at hb
      exact (isToken_spec (hname.2 b (List.mem_of_mem_getLast? hb))).2.1
    · have hkv := hkvs kv (by simp)
      rw [render, List.map_append, List.map_singleton, List.flatten_append, List.flatten_singleton,
        ← List.append_assoc, ← List.append_assoc,
        List.getLast?_append_of_ne_nil _ hkv.piece_ne_nil] at hb
      exact hkv.piece_space (List.mem_of_mem_getLast? hb)

end Render

end Text
