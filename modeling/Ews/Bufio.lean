import Ews.Script
import Mathlib.Data.List.Infix

/-!
# Buffered readers

A `Bufio` reads a `Script` through a buffer of a fixed size, as `bufio.Reader` does : what is in
the buffer, the error the reader gave with or behind it, and the reader. The buffer never holds
more than its size.

`Bufio.readSlice` gives the data up to a delimiter if they fit the buffer together. What is
buffered and what the reader still brings are one stream, `Bufio.content` ; `readSlice_spec` says
what a call takes off it and when the buffer is too small, whatever the reads of the reader are.
A reader that gives nothing a hundred times in a row is given up ; `Bufio.Sound` excludes it.
-/

/-- A buffered reader. -/
structure Bufio (α ε : Type*) where
  size : ℕ
  buf : List α
  err : Option ε
  src : Script α ε
  fits : buf.length ≤ size

/-- The errors of `readSlice` : the buffer is full without a delimiter, or an error of the
reader. -/
inductive SliceErr (ε : Type*)
  | full
  | reader (e : ε)
  deriving DecidableEq, Repr

namespace Script

variable {α ε : Type*}

theorem length_read_le (r : Script α ε) (room : ℕ) : (r.read room).1.1.length ≤ room := by
  unfold read
  split
  · exact List.length_take_le _ _
  · split_ifs with h
    · exact h
    · exact List.length_take_le _ _

/-- The reader does not give nothing a hundred times in a row. -/
def Steady (r : Script α ε) : Prop :=
  ¬List.replicate 100 [] <:+: r.pieces

theorem Steady.suffix {r r' : Script α ε} (h : r.Steady) (hs : r'.pieces <:+ r.pieces) :
    r'.Steady :=
  fun hr => h (hr.trans hs.isInfix)

/-- A read leaves a steady reader. -/
theorem Steady.read {r : Script α ε} (h : r.Steady) (room : ℕ) : (r.read room).2.Steady := by
  obtain ⟨pieces, last, err⟩ := r
  cases pieces with
  | nil =>
    refine h.suffix ?_
    unfold Script.read
    split_ifs <;> exact List.suffix_refl _
  | cons p ps =>
    by_cases hp : p.length ≤ room
    · refine h.suffix ?_
      simp only [Script.read, if_pos hp]
      exact List.suffix_cons p ps
    · -- The rest of the piece is not empty, so no run of empty ones goes through it.
      intro hr
      simp only [Script.read, if_neg hp] at hr
      rcases List.infix_cons_iff.mp hr with hr | hr
      · obtain ⟨t, ht⟩ := hr
        have hdrop := (List.cons.inj ht).1
        have hlen := congrArg List.length hdrop
        rw [List.length_nil, List.length_drop] at hlen
        omega
      · exact h (hr.trans (List.suffix_cons p ps).isInfix)

/-- A read that gives nothing, not even an error, is an empty piece. -/
theorem pieces_of_read {r : Script α ε} {room : ℕ} (hroom : 0 < room)
    (h : (r.read room).1 = ([], none)) : r.pieces = [] :: (r.read room).2.pieces := by
  obtain ⟨pieces, last, err⟩ := r
  cases pieces with
  | nil =>
    by_cases hlast : last.length ≤ room
    · simp [Script.read, hlast] at h
    · simp only [Script.read, if_neg hlast, Prod.mk.injEq, List.take_eq_nil_iff] at h
      rcases h.1 with h | h
      · omega
      · rw [h] at hlast
        exact absurd (Nat.zero_le _) hlast
  | cons p ps =>
    simp only [Script.read, Prod.mk.injEq, List.take_eq_nil_iff] at h
    have hp : p = [] := h.1.resolve_left (by omega)
    simp [Script.read, hp]

end Script

namespace Bufio

variable {α ε : Type*} (noProgress : ε)

/-- `bufio.NewReaderSize` : the buffer has at least sixteen places. -/
def newReaderSize (src : Script α ε) (size : ℕ) : Bufio α ε :=
  { size := max size 16, buf := [], err := none, src, fits := Nat.zero_le _ }

/-- What is still to be read. -/
def content (b : Bufio α ε) : List α :=
  b.buf ++ b.src.content

/-- `Buffered`. -/
def buffered (b : Bufio α ε) : ℕ :=
  b.buf.length

theorem fits_drop (b : Bufio α ε) (n : ℕ) : (b.buf.drop n).length ≤ b.size := by
  rw [List.length_drop]
  exact (Nat.sub_le _ _).trans b.fits

/-- Take the first `n` off the buffer. -/
def advance (b : Bufio α ε) (n : ℕ) : Bufio α ε :=
  { b with buf := b.buf.drop n, fits := b.fits_drop n }

theorem fits_fetch (b : Bufio α ε) :
    (b.buf ++ (b.src.read (b.size - b.buf.length)).1.1).length ≤ b.size := by
  rw [List.length_append]
  have hread := b.src.length_read_le (b.size - b.buf.length)
  have hfits := b.fits
  omega

/-- One read of the reader into the room behind what is buffered. -/
def fetch (b : Bufio α ε) : Bufio α ε :=
  { b with
    buf := b.buf ++ (b.src.read (b.size - b.buf.length)).1.1
    err := (b.src.read (b.size - b.buf.length)).1.2
    src := (b.src.read (b.size - b.buf.length)).2
    fits := b.fits_fetch }

/-- The reads of `fill` : until one gives data or an error, at most `n`. -/
def fillWithin : ℕ → Bufio α ε → Bufio α ε
  | 0, b => { b with err := some noProgress }
  | n + 1, b =>
    if b.fetch.err.isSome then b.fetch
    else if b.buf.length < b.fetch.buf.length then b.fetch
    else fillWithin n b.fetch

/-- `fill`. -/
def fill (b : Bufio α ε) : Bufio α ε :=
  b.fillWithin noProgress 100

section ReadSlice

variable [DecidableEq α]

/-- One round of `ReadSlice` : search the buffer, report a pending error or a full buffer, or
fill. -/
def sliceRound (delim : α) (b : Bufio α ε) :
    Bufio α ε ⊕ (List α × Option (SliceErr ε)) × Bufio α ε :=
  if delim ∈ b.buf then
    .inr ((b.buf.take (b.buf.idxOf delim + 1), none), b.advance (b.buf.idxOf delim + 1))
  else
    match b.err with
    | some e => .inr ((b.buf, some (.reader e)), { b.advance b.buffered with err := none })
    | none =>
      if b.size ≤ b.buffered then .inr ((b.buf, some .full), b.advance b.buffered)
      else .inl (b.fill noProgress)

/-- `ReadSlice`. -/
def readSlice (delim : α) (b : Bufio α ε) : (List α × Option (SliceErr ε)) × Bufio α ε :=
  Loop.run (sliceRound noProgress delim) (b.src.weight + 2)
    (fun b => ((b.buf, some (.reader noProgress)), b)) b

end ReadSlice

theorem fits_read (b : Bufio α ε) (n : ℕ) :
    ((b.src.read b.size).1.1.drop n).length ≤ b.size := by
  rw [List.length_drop]
  exact (Nat.sub_le _ _).trans (b.src.length_read_le _)

/-- `Read` into a buffer of `n` : what is buffered, as far as it fits ; with nothing buffered, one
read of the reader, past the buffer if `n` is not smaller. -/
def read (n : ℕ) (b : Bufio α ε) : (List α × Option ε) × Bufio α ε :=
  if n = 0 then
    if b.buffered = 0 then (([], b.err), { b with err := none }) else (([], none), b)
  else if b.buffered = 0 then
    match b.err with
    | some e => (([], some e), { b with err := none })
    | none =>
      if b.size ≤ n then ((b.src.read n).1, { b with src := (b.src.read n).2 })
      else if (b.src.read b.size).1.1 = [] then
        (([], (b.src.read b.size).1.2), { b with src := (b.src.read b.size).2 })
      else
        (((b.src.read b.size).1.1.take n, none),
          { b with
            buf := (b.src.read b.size).1.1.drop n
            err := (b.src.read b.size).1.2
            src := (b.src.read b.size).2
            fits := b.fits_read n })
  else ((b.buf.take n, none), b.advance n)

/-! ## Filling the buffer -/

/-- The reader is steady, and after its error nothing is left of it. -/
structure Sound (b : Bufio α ε) : Prop where
  steady : b.src.Steady
  ended : b.err ≠ none → b.src.content = []

theorem sound_newReaderSize {src : Script α ε} (h : src.Steady) (size : ℕ) :
    (newReaderSize src size).Sound :=
  ⟨h, fun he => absurd rfl he⟩

/-- A bound on the fills to come. -/
def load (b : Bufio α ε) : ℕ :=
  b.src.weight + if b.err.isNone then 1 else 0

/-- From `b` to `b'` data went from the reader to the buffer. -/
structure Filled (b b' : Bufio α ε) : Prop where
  content : b'.content = b.content
  size : b'.size = b.size
  last : b'.src.err = b.src.err
  sound : b'.Sound
  load : b'.load < b.src.weight + 1

theorem fetch_spec {b : Bufio α ε} (hs : b.Sound) (hroom : b.buf.length < b.size) :
    b.Filled b.fetch := by
  have hgave : ∀ out, b.src.Gave (b.size - b.buf.length) out →
      b.buf ++ out.1.1 ++ out.2.content = b.content ∧ out.2.err = b.src.err ∧
        (out.1.2 ≠ none → out.2.content = []) ∧
        out.2.weight + (if out.1.2.isNone then 1 else 0) < b.src.weight + 1 := by
    intro out hout
    cases hout with
    | data content err length weight =>
      refine ⟨?_, err, fun h => absurd rfl h, Nat.succ_lt_succ weight⟩
      rw [Bufio.content, content, List.append_assoc]
    | ended length =>
      refine ⟨?_, rfl, fun _ => rfl, Nat.succ_pos _⟩
      simp [Bufio.content, Script.content]
  obtain ⟨hcontent, hlast, hended, hload⟩ :=
    hgave _ (Script.read_spec (Nat.sub_pos_of_lt hroom) b.src)
  exact ⟨hcontent, rfl, hlast, ⟨hs.steady.read _, hended⟩, hload⟩

theorem fillWithin_spec : ∀ (n : ℕ) {b : Bufio α ε}, b.Sound → b.buf.length < b.size →
    ¬List.replicate n [] <+: b.src.pieces → b.Filled (b.fillWithin noProgress n)
  | 0, _, _, _, hp => absurd (List.nil_prefix) hp
  | n + 1, b, hs, hroom, hp => by
    have hfetch := fetch_spec hs hroom
    unfold fillWithin
    split_ifs with herr hmore
    · exact hfetch
    · exact hfetch
    · have hnone : b.fetch.err = none := by simpa using herr
      have hgot : (b.src.read (b.size - b.buf.length)).1.1 = [] := by
        have hlen : b.fetch.buf.length =
            b.buf.length + (b.src.read (b.size - b.buf.length)).1.1.length := List.length_append
        exact List.length_eq_zero_iff.mp (by omega)
      have hbuf : b.fetch.buf = b.buf := by
        show b.buf ++ _ = _
        rw [hgot, List.append_nil]
      have hpieces := Script.pieces_of_read (Nat.sub_pos_of_lt hroom) (Prod.ext hgot hnone)
      have hrest := fillWithin_spec n hfetch.sound (by rw [hbuf, hfetch.size]; exact hroom) <| by
        intro h
        rw [hpieces] at hp
        exact hp ((List.prefix_cons_inj _).mpr h)
      refine ⟨hrest.content.trans hfetch.content, hrest.size.trans hfetch.size,
        hrest.last.trans hfetch.last, hrest.sound, hrest.load.trans_le ?_⟩
      have hload := hfetch.load
      rw [load, hnone] at hload
      exact Nat.le_of_lt hload

theorem fill_spec {b : Bufio α ε} (hs : b.Sound) (hroom : b.buf.length < b.size) :
    b.Filled (b.fill noProgress) :=
  fillWithin_spec noProgress 100 hs hroom fun h => hs.steady h.isInfix

/-! ## Reading up to a delimiter -/

section ReadSlice

variable [DecidableEq α]

/-- The outcomes of `readSlice` where the stream is `line`, which ends with the delimiter, and
then `rest`. -/
inductive Sliced (b : Bufio α ε) (line rest : List α) :
    (List α × Option (SliceErr ε)) × Bufio α ε → Prop
  | line {b' : Bufio α ε} (fits : line.length ≤ b.size) (content : b'.content = rest)
      (size : b'.size = b.size) (last : b'.src.err = b.src.err) (sound : b'.Sound) :
      Sliced b line rest ((line, none), b')
  | full {bs : List α} {b' : Bufio α ε} (large : b.size < line.length) :
      Sliced b line rest ((bs, some .full), b')

omit [DecidableEq α] in
/-- A list in front of a delimited stream either goes past the delimiter or ends before it. -/
theorem delim_cases {delim : α} {body rest buf more : List α} (hbody : delim ∉ body)
    (h : buf ++ more = body ++ delim :: rest) :
    (delim ∉ buf ∧ buf.length ≤ body.length ∧ more ≠ []) ∨
      ∃ t, buf = body ++ delim :: t ∧ rest = t ++ more := by
  rcases List.append_eq_append_iff.mp h with ⟨as, hbuf, hmore⟩ | ⟨bs, hbuf, hmore⟩
  · refine Or.inl ⟨fun hm => hbody ?_, ?_, ?_⟩
    · rw [hbuf]
      exact List.mem_append_left _ hm
    · rw [hbuf, List.length_append]
      exact Nat.le_add_right _ _
    · rw [hmore]
      simp
  · cases bs with
    | nil =>
      rw [List.append_nil] at hbuf
      refine Or.inl ⟨hbuf ▸ hbody, hbuf ▸ le_rfl, ?_⟩
      rw [List.nil_append] at hmore
      simp [← hmore]
    | cons d t =>
      obtain ⟨rfl, rfl⟩ := List.cons.inj hmore
      exact Or.inr ⟨t, hbuf, rfl⟩

theorem sliceRound_spec {delim : α} {body rest : List α} (hbody : delim ∉ body)
    (b₀ b : Bufio α ε) (h : b.Sound ∧ b.content = body ++ delim :: rest ∧ b.size = b₀.size ∧
      b.src.err = b₀.src.err) :
    Loop.Round (fun b => b.Sound ∧ b.content = body ++ delim :: rest ∧ b.size = b₀.size ∧
      b.src.err = b₀.src.err) load (b₀.Sliced (body ++ [delim]) rest)
      b (sliceRound noProgress delim b) := by
  obtain ⟨hs, hcontent, hsize, hlast⟩ := h
  rcases delim_cases hbody hcontent with ⟨hmem, hlen, hmore⟩ | ⟨t, hbuf, hrest⟩
  · have herr : b.err = none := by
      by_contra he
      exact hmore (hs.ended he)
    unfold sliceRound
    rw [if_neg hmem, herr]
    by_cases hfull : b.size ≤ b.buffered
    · simp only [if_pos hfull]
      refine .full ?_
      rw [List.length_append, ← hsize]
      exact Nat.lt_succ_of_le (hfull.trans hlen)
    · simp only [if_neg hfull]
      have hfill := fill_spec noProgress hs (Nat.lt_of_not_le hfull)
      refine ⟨⟨hfill.sound, hfill.content.trans hcontent, hfill.size.trans hsize,
        hfill.last.trans hlast⟩, ?_⟩
      have hload : b.load = b.src.weight + 1 := by rw [load, herr]; rfl
      rw [hload]
      exact hfill.load
  · have hidx : b.buf.idxOf delim + 1 = (body ++ [delim]).length := by
      rw [hbuf, List.idxOf_append_of_notMem hbody, List.idxOf_cons_self, List.length_append]
      rfl
    have hbuf' : b.buf = (body ++ [delim]) ++ t := by
      rw [hbuf, List.append_assoc, List.singleton_append]
    have hmem : delim ∈ b.buf := by
      rw [hbuf]
      simp
    have hdrop : b.buf.drop (b.buf.idxOf delim + 1) = t := by
      rw [hidx, hbuf', List.drop_left]
    have htake : b.buf.take (b.buf.idxOf delim + 1) = body ++ [delim] := by
      rw [hidx, hbuf', List.take_left]
    unfold sliceRound
    rw [if_pos hmem, htake]
    refine .line ?_ ?_ hsize hlast ⟨hs.steady, hs.ended⟩
    · have hfits := b.fits
      rw [hbuf', List.length_append] at hfits
      omega
    · show b.buf.drop _ ++ b.src.content = rest
      rw [hdrop, hrest]

/-- `readSlice` gives the line if the buffer has room for it, and only then. -/
theorem readSlice_spec {delim : α} {body rest : List α} {b : Bufio α ε} (hs : b.Sound)
    (hbody : delim ∉ body) (hcontent : b.content = body ++ delim :: rest) :
    b.Sliced (body ++ [delim]) rest (b.readSlice noProgress delim) := by
  refine Loop.run_spec _ load (sliceRound_spec noProgress hbody b) ⟨hs, hcontent, rfl, rfl⟩ ?_
  unfold load
  split_ifs <;> omega

end ReadSlice

/-! ## Reading what is buffered -/

/-- A read that asks for no more than what is buffered takes it from the buffer and leaves the
reader alone. -/
theorem read_buffered {b : Bufio α ε} {n : ℕ} (h : n ≤ b.buffered) (hb : b.buffered ≠ 0) :
    b.read n = ((b.buf.take n, none), b.advance n) := by
  unfold read
  split_ifs with hn
  · subst hn
    simp [advance]
  · rfl

end Bufio
