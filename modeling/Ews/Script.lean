import Ews.Loop

/-!
# Readers, and reading a buffer full

A `Script` is a reader that will end : the pieces its reads give without an error, the last
piece, which comes together with the error, and that error, which every later read gives again
with no data. A piece that does not fit the buffer is given in parts, so that any cut of the
content into short reads is a script of it ; empty pieces are reads that give nothing.

`Script.readFull` reads until the buffer is full or the reader ends, as `io.ReadFull` does : an
error that comes with the last byte of the buffer is dropped, and an end that comes after some
data but before the buffer is full is another error than the end itself.
`Script.readFull_spec` says what it reads in terms of the content alone.
-/

/-- A reader of `α`s that ends with an error. -/
structure Script (α ε : Type*) where
  pieces : List (List α) := []
  last : List α := []
  err : ε
  deriving DecidableEq, Repr

namespace Script

variable {α ε : Type*}

/-- What the reader gives before it ends. -/
def content (r : Script α ε) : List α :=
  r.pieces.flatten ++ r.last

/-- One read into a buffer with room for `room`. -/
def read (room : ℕ) (r : Script α ε) : (List α × Option ε) × Script α ε :=
  match r.pieces with
  | p :: ps =>
    ((p.take room, none), { r with pieces := if p.length ≤ room then ps else p.drop room :: ps })
  | [] =>
    if r.last.length ≤ room then ((r.last, some r.err), { r with last := [] })
    else ((r.last.take room, none), { r with last := r.last.drop room })

/-- An upper bound on the reads before the one that gives the error. -/
def weight (r : Script α ε) : ℕ :=
  r.pieces.length + r.content.length

/-- The outcomes of a read. -/
inductive Gave (r : Script α ε) (room : ℕ) : (List α × Option ε) × Script α ε → Prop
  | data {bs : List α} {r' : Script α ε} (content : r.content = bs ++ r'.content)
      (err : r'.err = r.err) (length : bs.length ≤ room) (weight : r'.weight < r.weight) :
      Gave r room ((bs, none), r')
  | ended (length : r.content.length ≤ room) :
      Gave r room ((r.content, some r.err), { err := r.err })

theorem read_spec {room : ℕ} (hroom : 0 < room) (r : Script α ε) :
    r.Gave room (r.read room) := by
  obtain ⟨pieces, last, err⟩ := r
  cases pieces with
  | cons p ps =>
    refine .data ?_ rfl (List.length_take_le _ _) ?_
    · by_cases h : p.length ≤ room
      · simp [content, h, List.take_of_length_le h]
      · simp [content, h, ← List.append_assoc, List.take_append_drop]
    · by_cases h : p.length ≤ room
      · simp only [weight, content, h, if_true, List.length_cons, List.flatten_cons,
          List.length_append]
        omega
      · simp only [weight, content, h, if_false, List.length_cons, List.flatten_cons,
          List.length_append, List.length_drop]
        omega
  | nil =>
    by_cases h : last.length ≤ room
    · simp only [read, if_pos h]
      exact .ended h
    · simp only [read, if_neg h]
      refine .data ?_ rfl (List.length_take_le _ _) ?_
      · simp [content]
      · simp only [weight, content, List.length_append, List.length_drop]
        omega

/-! ## Reading a buffer full -/

/-- What was read so far, the error of the last read, and the reader. -/
structure Fill (α ε : Type*) where
  got : List α
  err : Option ε
  src : Script α ε

/-- One round of `io.ReadAtLeast` : it goes on while the buffer has room and there was no
error. -/
def fillRound (room : ℕ) (s : Fill α ε) : Fill α ε ⊕ Fill α ε :=
  if s.got.length < room ∧ s.err.isNone then
    match s.src.read (room - s.got.length) with
    | ((bs, err), src) => .inl ⟨s.got ++ bs, err, src⟩
  else .inr s

/-- The error of `io.ReadAtLeast`, of how much was read and the error of the last read. -/
def fillErr [DecidableEq ε] (eof short : ε) (room : ℕ) (s : Fill α ε) : Option ε :=
  if room ≤ s.got.length then none
  else if 0 < s.got.length ∧ s.err = some eof then some short
  else s.err

/-- `io.ReadFull` into a buffer of `room`. -/
def readFull [DecidableEq ε] (eof short : ε) (room : ℕ) (r : Script α ε) :
    (List α × Option ε) × Script α ε :=
  let s := Loop.run (fillRound room) (r.weight + 3) id ⟨[], none, r⟩
  ((s.got, fillErr eof short room s), s.src)

/-- What is read so far is the start of the content, and after an error it is all of it. -/
structure Filling (r : Script α ε) (room : ℕ) (s : Fill α ε) : Prop where
  content : r.content = s.got ++ s.src.content
  length : s.got.length ≤ room
  err : s.src.err = r.err
  ended : ¬s.err.isNone = true → s.err = some r.err ∧ s.src.content = []

theorem fillRound_spec (r : Script α ε) (room : ℕ) (s : Fill α ε) (h : r.Filling room s) :
    Loop.Round (r.Filling room) (fun s => s.src.weight + if s.err.isNone then 1 else 0)
      (fun s => r.Filling room s ∧ (room ≤ s.got.length ∨ s.err = some r.err))
      s (fillRound room s) := by
  unfold fillRound
  split_ifs with hgo
  · obtain ⟨hlen, herr⟩ := hgo
    have hread : s.src.Gave _ (s.src.read (room - s.got.length)) := read_spec (by omega) s.src
    generalize s.src.read (room - s.got.length) = out at hread
    cases hread with
    | data content err length weight =>
      refine ⟨⟨?_, ?_, err.trans h.err, fun he => absurd rfl he⟩, ?_⟩
      · rw [h.content, content, List.append_assoc]
      · rw [List.length_append]
        omega
      · simp only [herr, if_true, Option.isNone_none]
        omega
    | ended length =>
      refine ⟨⟨?_, ?_, h.err, fun _ => ⟨congrArg some h.err, rfl⟩⟩, ?_⟩
      · rw [h.content]
        exact (List.append_nil _).symm
      · rw [List.length_append]
        omega
      · simp [herr, weight, Script.content]
  · refine ⟨h, ?_⟩
    by_cases hlen : s.got.length < room
    · exact Or.inr (h.ended fun he => hgo ⟨hlen, he⟩).1
    · exact Or.inl (by omega)

/-- What the content says about a buffer of `room` : whether it is filled, and if not, with which
error the reader ends. -/
def fullErr [DecidableEq ε] (eof short : ε) (room : ℕ) (r : Script α ε) : Option ε :=
  if room ≤ r.content.length then none
  else if 0 < r.content.length ∧ r.err = eof then some short
  else some r.err

/-- `readFull` takes the start of the content, and what is left is its rest. -/
theorem readFull_spec [DecidableEq ε] (eof short : ε) (room : ℕ) (r : Script α ε) :
    ∃ r', r.readFull eof short room = ((r.content.take room, r.fullErr eof short room), r') ∧
      r'.content = r.content.drop room ∧ r'.err = r.err := by
  have hstart : r.Filling room ⟨[], none, r⟩ := ⟨rfl, Nat.zero_le _, rfl, fun h => absurd rfl h⟩
  unfold readFull
  dsimp only
  generalize hs : Loop.run (fillRound room) (r.weight + 3) id ⟨[], none, r⟩ = s
  have hrun : r.Filling room s ∧ (room ≤ s.got.length ∨ s.err = some r.err) := by
    rw [← hs]
    exact Loop.run_spec (r.Filling room) _ (fillRound_spec r room) hstart (by simp)
  obtain ⟨⟨hcontent, hlen, herr, hended⟩, hdone⟩ := hrun
  by_cases hfull : room ≤ s.got.length
  · have hroom : s.got.length = room := by omega
    have hle : room ≤ r.content.length := by
      rw [hcontent, List.length_append]
      omega
    refine ⟨s.src, ?_, by rw [hcontent, List.drop_left' hroom], herr⟩
    rw [fillErr, if_pos hfull, fullErr, if_pos hle, hcontent, List.take_left' hroom]
  · have herr' := hdone.resolve_left hfull
    have hrest := (hended (by simp [herr'])).2
    rw [hrest, List.append_nil] at hcontent
    refine ⟨s.src, ?_, ?_, herr⟩
    · rw [fillErr, if_neg hfull, fullErr, hcontent, if_neg hfull, herr',
        List.take_of_length_le hlen]
      simp only [Option.some_inj]
    · rw [hrest, hcontent, List.drop_of_length_le hlen]

end Script
