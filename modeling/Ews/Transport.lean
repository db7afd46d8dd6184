import Ews.Header

/-!
# The transport a connection reads

A transport is the list of what its reads will give : bytes, or no byte and an error.
`Transport.read` takes from the first item, at most as many bytes as there is room
for ; once the list is used up every read gives `io.EOF`.

`Transport.symbols` forgets how the bytes are cut. A read takes a byte string off its
front (`Took.bytes`) or the error that stands there (`Took.err`).
-/

namespace Ews

/-- What a `Read` of the transport gives. -/
inductive ReadItem
  | data (bs : List UInt8)
  | err (e : Err)
  deriving DecidableEq, Repr

/-- The reads to come. -/
abbrev Transport := List ReadItem

namespace ReadItem

/-- The bytes of an item, or its error. -/
def symbols : ReadItem → List (UInt8 ⊕ Err)
  | .data bs => bs.map .inl
  | .err e => [.inr e]

/-- An upper bound on the reads the item serves and the bytes it gives. -/
def weight : ReadItem → ℕ
  | .data bs => 1 + bs.length
  | .err _ => 1

end ReadItem

namespace Transport

/-- One `Read` into a buffer of `room` bytes. -/
def read (room : ℕ) : Transport → (List UInt8 × Option Err) × Transport
  | [] => (([], some .eof), [])
  | .err e :: t => (([], some e), t)
  | .data bs :: t =>
    ((bs.take room, none), if bs.length ≤ room then t else .data (bs.drop room) :: t)

/-- The bytes and errors to come, in order. -/
def symbols (t : Transport) : List (UInt8 ⊕ Err) :=
  t.flatMap ReadItem.symbols

/-- The bytes to come. -/
def bytes (t : Transport) : List UInt8 :=
  t.symbols.filterMap Sum.getLeft?

def weight (t : Transport) : ℕ :=
  (t.map ReadItem.weight).sum

/-- No read gives no byte without an error. -/
def Steady (t : Transport) : Prop :=
  ∀ i ∈ t, i ≠ .data []

/-- No read gives an error. -/
def Clean (t : Transport) : Prop :=
  ∀ e, .inr e ∉ t.symbols

instance (t : Transport) : Decidable t.Steady :=
  inferInstanceAs (Decidable (∀ i ∈ t, i ≠ .data []))

@[simp] theorem symbols_nil : symbols [] = [] := rfl

@[simp] theorem symbols_cons (i : ReadItem) (t : Transport) :
    symbols (i :: t) = i.symbols ++ symbols t := rfl

@[simp] theorem weight_cons (i : ReadItem) (t : Transport) :
    weight (i :: t) = i.weight + weight t := by
  simp [weight]

theorem filterMap_inl (bs : List UInt8) (l : List (UInt8 ⊕ Err)) :
    (bs.map Sum.inl ++ l).filterMap Sum.getLeft? = bs ++ l.filterMap Sum.getLeft? := by
  rw [List.filterMap_append, List.filterMap_map]
  congr 1
  exact List.filterMap_some

/-- The bytes of a transport whose symbols start with bytes. -/
theorem bytes_append {t t' : Transport} {bs : List UInt8}
    (h : t.symbols = bs.map .inl ++ t'.symbols) : t.bytes = bs ++ t'.bytes := by
  rw [bytes, h, filterMap_inl]
  rfl

/-- The outcomes of a read that gives a byte or an error : `t'` is what is left of `t`. -/
inductive Took (t : Transport) : List UInt8 → Option Err → Transport → Prop
  | bytes {bs : List UInt8} {t' : Transport} (nonempty : bs ≠ [])
      (symbols : t.symbols = bs.map .inl ++ t'.symbols)
      (weight : t'.weight + bs.length ≤ t.weight) : Took t bs none t'
  | err {e : Err} {t' : Transport} (symbols : t.symbols = .inr e :: t'.symbols)
      (weight : t'.weight < t.weight) : Took t [] (some e) t'
  | ended (ended : t = []) : Took t [] (some .eof) []
  | empty {t' : Transport} (symbols : t.symbols = t'.symbols) (weight : t'.weight < t.weight)
      (idle : ¬t.Steady) : Took t [] none t'

theorem read_spec {room : ℕ} (hroom : 0 < room) (t : Transport) :
    t.Took (t.read room).1.1 (t.read room).1.2 (t.read room).2 ∧
      (t.read room).1.1.length ≤ room ∧
      (t.Steady → (t.read room).2.Steady) := by
  match t with
  | [] => exact ⟨.ended rfl, by simp [read], fun h => h⟩
  | .err e :: t =>
    refine ⟨.err rfl ?_, by simp [read], ?_⟩
    · simp [read, ReadItem.weight]
    · exact fun h i hi => h i (List.mem_cons_of_mem _ hi)
  | .data bs :: t =>
    have hlen : (bs.take room).length ≤ room := by simp
    simp only [read]
    by_cases hle : bs.length ≤ room
    · rw [if_pos hle, List.take_of_length_le hle]
      refine ⟨?_, hle, fun h i hi => h i (List.mem_cons_of_mem _ hi)⟩
      by_cases h0 : bs = []
      · subst h0
        exact .empty rfl (by simp [ReadItem.weight]) fun h => h _ List.mem_cons_self rfl
      · refine .bytes h0 rfl ?_
        simp only [weight_cons, ReadItem.weight]
        omega
    · have h0 : bs.take room ≠ [] := by
        intro h
        rw [List.take_eq_nil_iff] at h
        rcases h with h | h <;> simp_all
      have hdrop : bs.drop room ≠ [] := by
        simpa using hle
      rw [if_neg hle]
      refine ⟨.bytes h0 ?_ ?_, hlen, fun h i hi => ?_⟩
      · simp only [symbols_cons, ReadItem.symbols]
        rw [← List.append_assoc, ← List.map_append, List.take_append_drop]
      · simp only [weight_cons, ReadItem.weight, List.length_drop, List.length_take]
        omega
      · rcases List.mem_cons.mp hi with rfl | hi
        · simpa using hdrop
        · exact h i (List.mem_cons_of_mem _ hi)

end Transport

end Ews
