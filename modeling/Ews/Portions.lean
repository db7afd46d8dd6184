import Ews.Sizing

/-!
# Portions

`Decompress` reads into the storage it has, so the sizes of its reads depend on what the
decompressor was used for before. They do not show : a reader first gets ready, whatever the size
of the read (`ready_spec`), and then hands out of what is available. A large read is a small one
and the rest (`Steady.ends`), so a `Decompress` ends as one that reads byte by byte
(`decompress_ends`).
-/

set_option linter.unusedSectionVars false

namespace Ews

open Bytes

variable {F : Flate} {τ : Type}

namespace Inflater

variable {β : Type}

/-- A reader with nothing available decodes another byte. -/
def settleRound (S : ByteSource β) : Inflater F × β → (Inflater F × β) ⊕ (Inflater F × β)
  | (r, s) => if r.toRead = [] ∧ r.err = none then .inl (r.pull S s) else .inr (r, s)

/-- What a read of `n` bytes takes from a reader that is ready. -/
def hand (n : ℕ) : Inflater F × β → (List UInt8 × Option Err) × Inflater F × β
  | (r, s) =>
    if r.toRead ≠ [] then
      let rest := r.toRead.drop n
      ((r.toRead.take n, if rest = [] then r.err else none), { r with toRead := rest }, s)
    else (([], r.err), r, s)

theorem readRound_eq (S : ByteSource β) (n : ℕ) (x : Inflater F × β) :
    readRound S n x = (settleRound S x).map id (hand n) := by
  obtain ⟨r, s⟩ := x
  by_cases hne : r.toRead = []
  · cases herr : r.err with
    | none => simp [readRound, settleRound, hne, herr]
    | some e => simp [readRound, settleRound, hand, hne, herr]
  · simp [readRound, settleRound, hand, hne]

/-- A reader reports an error only after what is available. -/
def Ready (r : Inflater F) : Prop :=
  r.err ≠ none → r.toRead ≠ []

end Inflater

namespace Feed

/-- The feed of a whole message, further on. -/
structure Later (f f' : Feed τ) : Prop where
  eq : f' = { f with slice := f'.slice }
  length : f'.slice.length ≤ f.slice.length

theorem Later.refl (f : Feed τ) : Later f f :=
  ⟨rfl, le_rfl⟩

theorem Later.trans {f f' f'' : Feed τ} (h : Later f f') (h' : Later f' f'') : Later f f'' where
  eq := by rw [h'.eq, h.eq]
  length := h'.length.trans h.length

end Feed

section Settle

variable {C : ChunkSource τ} {r : Inflater F} {f : Feed τ}

/-- Decoding a byte of a whole message. -/
theorem pull_slice (hmode : f.streaming = false) :
    Feed.Later f (r.pull (Feed.source C) f).2 ∧
      ((r.pull (Feed.source C) f).1.err = none ∨ (r.pull (Feed.source C) f).1.err = some .eof →
        (r.pull (Feed.source C) f).2.slice.length < f.slice.length) := by
  cases hs : f.slice with
  | nil =>
    have hpull : r.pull (Feed.source C) f = (r.close .unexpectedEOF, f) := by
      simp [Inflater.pull, Feed.source, Feed.next, hmode, hs]
    rw [hpull]
    exact ⟨.refl f, fun h => by simp [Inflater.close] at h⟩
  | cons b bs =>
    have hpull : r.pull (Feed.source C) f = (r.take (F.step r.state b), { f with slice := bs }) := by
      simp [Inflater.pull, Feed.source, Feed.next, hmode, hs]
    rw [hpull]
    exact ⟨⟨rfl, by simp [hs]⟩, fun _ => by simp⟩

/-- A reader of a whole message gets ready. If that is at the end of a stream with nothing
available, it took a byte. -/
theorem settle_spec (hmode : f.streaming = false) (hready : r.Ready) :
    ∃ y, Loop.iterate (Inflater.settleRound (Feed.source C)) ((Feed.source C).left f + 2) (r, f) =
        some y ∧ Feed.Later f y.2 ∧ (y.1.toRead = [] → y.1.err ≠ none) ∧
      (y.1.toRead = [] → y.1.err = some .eof → y.2.slice.length < f.slice.length) := by
  have hleft : ∀ {f' : Feed τ}, Feed.Later f f' → (Feed.source C).left f' = f'.slice.length := by
    intro f' h
    have hmode' : f'.streaming = false := by
      rw [h.eq]
      exact hmode
    simp [Feed.source, Feed.left, hmode']
  refine Loop.iterate_spec (I := fun x => Feed.Later f x.2 ∧
      (x.1.toRead = [] → x.1.err = some .eof → x.2.slice.length < f.slice.length))
    (μ := fun x => if x.1.err = none then x.2.slice.length + 1 else 0) ?_ _ (r, f) ⟨.refl f, ?_⟩ ?_
  · rintro ⟨r₁, f₁⟩ ⟨hlater, hend⟩
    dsimp only at hlater hend
    have hmode₁ : f₁.streaming = false := by
      rw [hlater.eq]
      exact hmode
    simp only [Inflater.settleRound]
    split_ifs with h
    · obtain ⟨hnext, htook⟩ := pull_slice (C := C) (r := r₁) hmode₁
      refine ⟨⟨hlater.trans hnext, fun _ he => ?_⟩, ?_⟩
      · exact Nat.lt_of_lt_of_le (htook (Or.inr he)) hlater.length
      · dsimp only
        rw [if_pos h.2]
        split_ifs with he
        · have := htook (Or.inl he)
          omega
        · omega
    · exact ⟨hlater, fun hempty hnone => h ⟨hempty, hnone⟩, hend⟩
  · intro hempty he
    dsimp only at hempty he
    exact absurd hempty (hready (by simp [he]))
  · dsimp only
    rw [hleft (.refl f)]
    split_ifs <;> omega

end Settle

namespace Inflation

/-- The reader gets ready within its stream. -/
def settle (C : ChunkSource τ) (x : Inflation F τ) : Inflation F τ :=
  let y := (Loop.iterate (Inflater.settleRound (Feed.source C)) (x.feed.left C + 2)
    (x.dec.reader, x.feed)).getD (x.dec.reader, x.feed)
  x.withFeed y.1 y.2

/-- Past the end of a stream the next one starts. -/
def readyRound (C : ChunkSource τ) (x : Inflation F τ) : Inflation F τ ⊕ Inflation F τ :=
  let x := x.settle C
  if x.dec.reader.toRead = [] ∧ x.dec.reader.err = some .eof ∧ x.feed.exhausted = false then
    .inl ((x.dict []).2.restart (x.dict []).1)
  else .inr x

/-- What a `Read` of `n` bytes gives once the reader is ready. -/
def take (n : ℕ) (x : Inflation F τ) : (List UInt8 × Option Err) × Inflation F τ :=
  let y := Inflater.hand n (x.dec.reader, x.feed)
  ((x.withFeed y.2.1 y.2.2).readAfter y.1.1 y.1.2).elim (fun x => (([], none), x)) id

/-- Inside a whole message. -/
structure Inside (x : Inflation F τ) : Prop where
  mode : x.dec.streaming = false
  active : x.dec.active = true
  undone : x.dec.done = false

/-- Inside a whole message, with bytes available before an error. -/
structure Steady (x : Inflation F τ) : Prop extends Inside x where
  ready : x.dec.reader.Ready

variable {C : ChunkSource τ} {x : Inflation F τ}

/-- Getting ready takes part of the slice. -/
theorem Steady.settle (h : Steady x) :
    (∀ n, Loop.iterate (Inflater.readRound (Feed.source C) n) ((Feed.source C).left x.feed + 2)
      (x.dec.reader, x.feed) =
        some (Inflater.hand n ((x.settle C).dec.reader, (x.settle C).feed))) ∧
    (∃ r bs, x.settle C = { x with dec := { x.dec with reader := r, slice := bs } }) ∧
    (x.settle C).dec.slice.length ≤ x.dec.slice.length ∧
    ((x.settle C).dec.reader.toRead = [] → (x.settle C).dec.reader.err ≠ none) ∧
    ((x.settle C).dec.reader.toRead = [] → (x.settle C).dec.reader.err = some .eof →
      (x.settle C).dec.slice.length < x.dec.slice.length) := by
  obtain ⟨⟨r, f⟩, hy, hlater, herr, htook⟩ := settle_spec (C := C) (f := x.feed) h.mode h.ready
  dsimp only at hlater herr htook
  have hinput : f.input = x.dec.input := congrArg Feed.input hlater.eq
  have hsrc : f.src = x.src := congrArg Feed.src hlater.eq
  have hx : x.settle C = { x with dec := { x.dec with reader := r, slice := f.slice } } := by
    rw [Inflation.settle, show x.feed.left C + 2 = (Feed.source C).left x.feed + 2 from rfl, hy]
    simp only [Option.getD_some, withFeed, hinput, hsrc]
  have hfeed' : (x.settle C).feed = f := by
    rw [hx]
    exact hlater.eq.symm
  refine ⟨fun n => ?_, ⟨r, f.slice, hx⟩, ?_, ?_, ?_⟩
  · rw [hfeed']
    have hround : ∀ y : Inflater F × Feed τ, True → Inflater.readRound (Feed.source C) n (id y) =
        (Inflater.settleRound (Feed.source C) y).map id (Inflater.hand n) :=
      fun y _ => Inflater.readRound_eq _ n y
    have hmap := Loop.iterate_map id (Inflater.hand n) hround (fun _ _ _ _ => trivial)
      ((Feed.source C).left x.feed + 2) (x.dec.reader, x.feed) trivial
    rw [id, hy] at hmap
    rw [hmap, hx]
    rfl
  · rw [hx]
    exact hlater.length
  · rw [hx]
    exact herr
  · rw [hx]
    exact htook

/-- Ready to be read : something is available, or the message ends or fails here. -/
structure Poised (x : Inflation F τ) : Prop extends Inside x where
  err : x.dec.reader.toRead = [] → x.dec.reader.err ≠ none
  ended : x.dec.reader.toRead = [] → x.dec.reader.err = some .eof → x.feed.exhausted = true

/-- `dict` and `Reset` of the reader, for a whole message. -/
theorem restart_dict (h : Inside x) (p : List UInt8) :
    ∃ k, ((x.dict p).2.restart (x.dict p).1).dec =
        { x.dec with kept := k, reader := Inflater.reset F (x.dict p).1 } ∧
      ((x.dict p).2.restart (x.dict p).1).src = x.src := by
  unfold dict
  rw [h.mode]
  cases x.dec.window with
  | true => exact ⟨_, rfl, rfl⟩
  | false => exact ⟨x.dec.kept, rfl, rfl⟩

theorem Steady.readyRound (h : Steady x) : Sum.elim
    (fun x' : Inflation F τ => Steady x' ∧ x'.dec.output = x.dec.output ∧
      x'.dec.slice.length < x.dec.slice.length)
    (fun z => Poised z ∧ z.dec.output = x.dec.output) (x.readyRound C) := by
  obtain ⟨-, ⟨r, bs, hx⟩, -, herr, htook⟩ := h.settle (C := C)
  have hinside : Inside (x.settle C) := by
    rw [hx]
    exact ⟨h.mode, h.active, h.undone⟩
  have hout : (x.settle C).dec.output = x.dec.output := by rw [hx]
  unfold Inflation.readyRound
  dsimp only
  split_ifs with hend
  · obtain ⟨k, hdec, -⟩ := restart_dict hinside []
    refine ⟨⟨⟨?_, ?_, ?_⟩, ?_⟩, ?_, ?_⟩
    · rw [hdec]
      exact hinside.mode
    · rw [hdec]
      exact hinside.active
    · rw [hdec]
      exact hinside.undone
    · rw [hdec]
      exact fun hne => absurd rfl hne
    · rw [hdec]
      exact hout
    · rw [hdec]
      exact htook hend.1 hend.2.1
  · refine ⟨⟨hinside, herr, fun hempty heof => ?_⟩, hout⟩
    by_contra hmore
    exact hend ⟨hempty, heof, Bool.eq_false_of_not_eq_true hmore⟩

theorem Steady.readyRound_inl (h : Steady x) {x' : Inflation F τ}
    (hx' : x.readyRound C = .inl x') : Steady x' := by
  have hround := h.readyRound (C := C)
  rw [hx'] at hround
  exact hround.1

theorem readAfter_inr (p : List UInt8) (err : Option Err)
    (h : p ≠ [] ∨ err ≠ some .eof ∨ x.feed.exhausted = true) :
    x.readAfter p err =
      .inr ((x.readAfter p err).elim (fun x => (([], none), x)) id) := by
  cases err with
  | none =>
    simp only [readAfter]
    split_ifs <;> rfl
  | some e =>
    simp only [readAfter]
    split_ifs with heof hend hp hp
    · rfl
    · rfl
    · rfl
    · rcases h with h | h | h
      · exact absurd h hp
      · exact absurd (congrArg some heof) h
      · exact absurd h hend
    · rfl

/-- A round of `Read` gets ready, and then takes. -/
theorem Steady.readRound_eq (h : Steady x) (n : ℕ) :
    x.readRound C n = (x.readyRound C).map id (take n) := by
  obtain ⟨hread, ⟨r, bs, hx⟩, -, herr, -⟩ := h.settle (C := C)
  have hnote : ∀ (r : Inflater F) (f : Feed τ) (p : List UInt8),
      (x.withFeed r f).note p = (x.settle C).withFeed r f := by
    intro r f p
    have hmode : ¬(p ≠ [] ∧ (x.withFeed r f).dec.streaming = true) := fun hs => by
      cases h.mode.symm.trans hs.2
    rw [note, if_neg hmode, hx]
    rfl
  rw [Inflation.readRound, Inflater.read, Loop.run, hread n, Option.getD_some,
    Inflation.readyRound]
  generalize x.settle C = y at hnote herr
  dsimp only
  rw [hnote]
  by_cases hempty : y.dec.reader.toRead = []
  · have hhand : Inflater.hand n (y.dec.reader, y.feed) =
        (([], y.dec.reader.err), y.dec.reader, y.feed) := by simp [Inflater.hand, hempty]
    have hsame : y.withFeed y.dec.reader y.feed = y := rfl
    split_ifs with hend
    · rw [hhand, hsame, hend.2.1]
      simp [readAfter, hend.2.2]
    · rw [Sum.map_inr, Inflation.take, hhand, hsame]
      refine readAfter_inr _ _ (Or.inr ?_)
      by_contra hno
      rw [not_or, not_not] at hno
      exact hend ⟨hempty, hno.1, Bool.eq_false_of_not_eq_true hno.2⟩
  · rw [if_neg (fun hend => hempty hend.1), Sum.map_inr, Inflation.take]
    refine readAfter_inr _ _ ?_
    simp only [Inflater.hand, ne_eq, hempty, not_false_eq_true, if_true]
    -- a read of nothing leaves what is available
    cases n with
    | zero => exact Or.inr (Or.inl (by simp [hempty]))
    | succ n => exact Or.inl (by simp [hempty])

theorem Steady.readRound_inl (h : Steady x) {n : ℕ} {x' : Inflation F τ}
    (hx' : x.readRound C n = .inl x') :
    Steady x' ∧ x'.dec.slice.length < x.dec.slice.length := by
  have hround := h.readyRound (C := C)
  rw [h.readRound_eq] at hx'
  cases hr : Inflation.readyRound C x with
  | inl y =>
    rw [hr] at hx' hround
    exact Sum.inl.inj hx' ▸ ⟨hround.1, hround.2.2⟩
  | inr z =>
    rw [hr] at hx'
    cases hx'

/-- Every `Read` takes from the same place, whatever its size. -/
theorem Steady.ready_spec (h : Steady x) : ∃ z : Inflation F τ, Poised z ∧
    z.dec.output = x.dec.output ∧ (∀ n, Loop.iterate (Inflation.readRound C n)
      (x.feed.left C + 1) x = some (z.take n)) ∧ ∀ n, x.read C n = z.take n := by
  have hleft : ∀ {y : Inflation F τ}, Inside y → y.feed.left C = y.dec.slice.length := by
    intro y hy
    simp [feed, Feed.left, hy.mode]
  have hround : ∀ y : Inflation F τ, Steady y ∧ y.dec.output = x.dec.output →
      Loop.Round (fun y => Steady y ∧ y.dec.output = x.dec.output) (fun y => y.dec.slice.length)
        (fun z => Poised z ∧ z.dec.output = x.dec.output) y (y.readyRound C) := by
    rintro y ⟨hy, hout⟩
    have hready := hy.readyRound (C := C)
    cases hb : Inflation.readyRound C y with
    | inl y' =>
      rw [hb] at hready
      exact ⟨⟨hready.1, hready.2.1.trans hout⟩, hready.2.2⟩
    | inr z =>
      rw [hb] at hready
      exact ⟨hready.1, hready.2.trans hout⟩
  obtain ⟨z, hz, hpoised, hout⟩ := Loop.iterate_spec hround (x.feed.left C + 1) x ⟨h, rfl⟩
    (by rw [hleft h.toInside]; exact Nat.lt_succ_self _)
  have hiter : ∀ n, Loop.iterate (Inflation.readRound C n) (x.feed.left C + 1) x =
      some (z.take n) := by
    intro n
    have hbody : ∀ y : Inflation F τ, Steady y → Inflation.readRound C n (id y) =
        (Inflation.readyRound C y).map id (take n) := fun y hy => hy.readRound_eq n
    have hmap := Loop.iterate_map id (take n) hbody (fun y y' hy hb => hy.readyRound_inl hb)
      (x.feed.left C + 1) x h
    rw [id, hz] at hmap
    exact hmap
  refine ⟨z, hpoised, hout, hiter, fun n => ?_⟩
  rw [Inflation.read, h.active, h.undone, Loop.run, hiter n]
  rfl

/-! ## Large reads and small ones -/

/-- What `Decompress` does with what a `Read` gave it. -/
def store (maxSize : ℕ) (r : (List UInt8 × Option Err) × Inflation F τ) :
    Inflation F τ ⊕ Except Err (List UInt8) × Inflation F τ :=
  decompressAfter maxSize r.1.2 { r.2 with dec := { r.2.dec with output := r.2.dec.output ++ r.1.1 } }

theorem decompressRound_eq (maxSize : ℕ) : x.decompressRound C maxSize =
    store maxSize (x.growFull.read C (x.growFull.readSize maxSize)) :=
  rfl

/-- What a `Decompress` shows : its result and the window. -/
def shown (r : Except Err (List UInt8) × Inflation F τ) :
    Except Err (List UInt8) × Option Window :=
  (r.1, r.2.window)

/-- `Decompress` byte by byte. -/
def byteRound (C : ChunkSource τ) (maxSize : ℕ) (x : Inflation F τ) :
    Inflation F τ ⊕ Except Err (List UInt8) × Option Window :=
  (store maxSize (x.read C 1)).map id shown

/-- One more byte in the output. -/
def push (x : Inflation F τ) (b : UInt8) : Inflation F τ :=
  { x with dec := { x.dec with output := x.dec.output ++ [b] } }

theorem dict_push (h : Inside x) (b : UInt8) (p : List UInt8) :
    (x.push b).dict p = ((x.dict (b :: p)).1, (x.dict (b :: p)).2.push b) := by
  have happ : x.dec.output ++ [b] ++ p = x.dec.output ++ b :: p := by simp
  have hmode : (x.push b).dec.streaming = false := h.mode
  have hout : (x.push b).dec.output ++ p = x.dec.output ++ b :: p := happ
  rw [dict, dict, hmode, h.mode]
  simp only [hout, Bool.false_eq_true, if_false]
  by_cases hw : x.dec.window = true
  · have hw' : (x.push b).dec.window = true := hw
    rw [if_pos hw, if_pos hw']
    rfl
  · have hw' : ¬(x.push b).dec.window = true := hw
    rw [if_neg hw, if_neg hw']

/-- One byte less is available, and one more in the output. -/
def pop (x : Inflation F τ) (b : UInt8) (rest : List UInt8) : Inflation F τ :=
  (x.withFeed { x.dec.reader with toRead := rest } x.feed).push b

section Pop

variable {z : Inflation F τ} {b c : UInt8} {rest : List UInt8} {maxSize n : ℕ}

/-- With at most one byte available the size does not matter. -/
theorem take_succ_of_short (h : z.dec.reader.toRead.length ≤ 1) : z.take (n + 1) = z.take 1 := by
  have hhand : Inflater.hand (n + 1) (z.dec.reader, z.feed) =
      Inflater.hand 1 (z.dec.reader, z.feed) := by
    cases ht : z.dec.reader.toRead with
    | nil => simp [Inflater.hand, ht]
    | cons a l =>
      rw [ht] at h
      obtain rfl : l = [] := by simpa using h
      simp [Inflater.hand, ht]
  rw [take, take, hhand]

/-- The first of several bytes. -/
theorem store_take_one (hz : Inside z) (ht : z.dec.reader.toRead = b :: c :: rest)
    (hlen : z.dec.output.length + 1 ≤ maxSize) :
    store maxSize (z.take 1) = .inl (z.pop b (c :: rest)) := by
  have htake : z.take 1 = (([b], none), { z with dec := { z.dec with
      reader := { z.dec.reader with toRead := c :: rest } } }) := by
    simp [take, Inflater.hand, ht, readAfter]
    rfl
  rw [htake, store, decompressAfter]
  dsimp only
  have hle : ¬(z.dec.output ++ [b]).length > maxSize := by simp; omega
  rw [if_neg hle, if_neg (by simp [hz.undone])]
  rfl

/-- A byte handed out before the others, or together with them. -/
theorem store_readAfter (hz : Inside z) {p : List UInt8} (hp : p ≠ []) (err : Option Err)
    (hlen : z.dec.output.length + 1 ≤ maxSize) :
    (store maxSize ((z.readAfter (b :: p) err).elim (fun x => (([], none), x)) id)).map id shown =
      (store maxSize (((z.push b).readAfter p err).elim (fun x => (([], none), x)) id)).map id
        shown := by
  have hpush : ∀ (y : Inflation F τ), store maxSize ((p, none), y.push b) =
      store maxSize ((b :: p, none), y) := by
    intro y
    simp [store, push]
  have hfeed : (z.push b).feed.exhausted = z.feed.exhausted := rfl
  cases err with
  | none =>
    simp only [readAfter, reduceCtorEq, if_false, if_neg hp, Sum.elim_inr, id]
    rw [hpush]
  | some e =>
    by_cases he : e = .eof
    · subst he
      simp only [readAfter, hfeed, dict_push hz, if_true]
      by_cases hend : z.feed.exhausted = true
      · simp only [if_pos hend, reduceCtorEq, if_false, if_neg hp, Sum.elim_inr, id]
        exact congrArg (Sum.map id shown) (hpush { z with dec := { z.dec with done := true } }).symm
      · simp only [if_neg hend, ne_eq, reduceCtorEq, not_false_eq_true, if_true, hp, Sum.elim_inr, id]
        exact congrArg (Sum.map id shown) (hpush ((z.dict (b :: p)).2.restart (z.dict (b :: p)).1)).symm
    · have hfail : ∀ y : Inflation F τ, Inside y → y.dec.output.length ≤ maxSize →
          ∀ p, (store maxSize ((y.readAfter p (some e)).elim (fun x => (([], none), x)) id)).map id
            shown = .inr (.error e, (y.finish false).window) := by
        intro y hy hle p
        simp only [readAfter, if_neg he, Sum.elim_inr, id, store, List.append_nil]
        rw [decompressAfter, if_neg (by show ¬y.dec.output.length > maxSize; omega),
          if_neg (by simp [he, finish])]
        rfl
      rw [hfail z hz (by omega), hfail (z.push b) ⟨hz.mode, hz.active, hz.undone⟩
        (by simpa [push] using hlen)]
      rfl

/-- A large read is a read of one byte and the rest. -/
theorem store_take_succ (hz : Inside z) (ht : z.dec.reader.toRead = b :: c :: rest) (hn : 0 < n)
    (hlen : z.dec.output.length + 1 ≤ maxSize) :
    (store maxSize (z.take (n + 1))).map id shown =
      (store maxSize ((z.pop b (c :: rest)).take n)).map id shown := by
  have hp : (c :: rest).take n ≠ [] := by
    cases n with
    | zero => exact absurd hn (Nat.lt_irrefl 0)
    | succ n => simp
  have hz' : z.take (n + 1) = ((z.withFeed { z.dec.reader with toRead := (c :: rest).drop n }
      z.feed).readAfter (b :: (c :: rest).take n)
      (if (c :: rest).drop n = [] then z.dec.reader.err else none)).elim
        (fun x => (([], none), x)) id := by
    simp [take, Inflater.hand, ht]
  have hy' : (z.pop b (c :: rest)).take n = (((z.pop b (c :: rest)).withFeed
      { z.dec.reader with toRead := (c :: rest).drop n } z.feed).readAfter ((c :: rest).take n)
      (if (c :: rest).drop n = [] then z.dec.reader.err else none)).elim
        (fun x => (([], none), x)) id := by
    simp [take, Inflater.hand, pop, push, withFeed, feed]
  rw [hz', hy']
  exact store_readAfter (z := z.withFeed { z.dec.reader with toRead := (c :: rest).drop n } z.feed)
    ⟨hz.mode, hz.active, hz.undone⟩ hp _ hlen

end Pop

/-- A reader with something available is ready. -/
theorem Steady.read_of_available (h : Steady x) (hne : x.dec.reader.toRead ≠ []) (n : ℕ) :
    x.read C n = x.take n := by
  have hsettle : x.settle C = x := by
    have hround : Inflater.settleRound (Feed.source C) (x.dec.reader, x.feed) =
        .inr (x.dec.reader, x.feed) := by simp [Inflater.settleRound, hne]
    simp only [Inflation.settle, Loop.iterate, hround]
    rfl
  have hready : x.readyRound C = .inr x := by simp [Inflation.readyRound, hsettle, hne]
  have hround : x.readRound C n = .inr (x.take n) := by
    rw [h.readRound_eq n, hready]
    rfl
  rw [Inflation.read, h.active, h.undone]
  simp only [Loop.run, Loop.iterate, hround]
  rfl

/-- A read of any size leads where reads of one byte lead. -/
theorem Steady.leads {maxSize : ℕ} : ∀ {n : ℕ} {x : Inflation F τ}, Steady x → 0 < n →
    x.dec.output.length + n ≤ maxSize + 1 →
    Loop.Leads (byteRound C maxSize) x ((store maxSize (x.read C n)).map id shown)
  | 0, _, _, hn, _ => absurd hn (Nat.lt_irrefl 0)
  | n + 1, x, h, _, hlen => by
    obtain ⟨z, hz, hout, -, hread⟩ := h.ready_spec (C := C)
    have hone := Loop.leads_round (byteRound C maxSize) x
    rw [byteRound, hread 1] at hone
    rw [hread (n + 1)]
    cases ht : z.dec.reader.toRead with
    | nil => rwa [take_succ_of_short (by simp [ht])]
    | cons b l =>
      cases l with
      | nil => rwa [take_succ_of_short (by simp [ht])]
      | cons c rest =>
        rcases Nat.eq_zero_or_pos n with rfl | hn
        · exact hone
        · have hlen' : z.dec.output.length + 1 ≤ maxSize := by
            rw [hout]
            omega
          have hpop : Steady (z.pop b (c :: rest)) :=
            ⟨⟨hz.mode, hz.active, hz.undone⟩, fun _ => List.cons_ne_nil _ _⟩
          have hround : x.byteRound C maxSize = .inl (z.pop b (c :: rest)) := by
            rw [byteRound, hread 1, store_take_one hz.toInside ht hlen']
            rfl
          rw [store_take_succ hz.toInside ht hn hlen',
            ← hpop.read_of_available (C := C) (List.cons_ne_nil _ _) n]
          refine .head hround (Steady.leads hpop hn ?_)
          show (z.dec.output ++ [b]).length + n ≤ maxSize + 1
          rw [List.length_append, hout, List.length_singleton]
          omega

/-! ## Storage -/

/-- The decompressor without the storage it kept. -/
def plain (x : Inflation F τ) : Inflation F τ :=
  { x with dec := { x.dec with scratch := {}, outCap := 0 } }

theorem readAfter_plain (h : x.dec.streaming = false) (p : List UInt8) (err : Option Err) :
    x.plain.readAfter p err = (x.readAfter p err).map plain fun r => (r.1, r.2.plain) := by
  have hdict : x.plain.dict p = ((x.dict p).1, (x.dict p).2.plain) := by
    have hmode : x.plain.dec.streaming = false := h
    have hout : x.plain.dec.output ++ p = x.dec.output ++ p := rfl
    rw [dict, dict, hmode, h]
    simp only [hout, Bool.false_eq_true, if_false]
    by_cases hw : x.dec.window = true
    · have hw' : x.plain.dec.window = true := hw
      rw [if_pos hw, if_pos hw']
      rfl
    · have hw' : ¬x.plain.dec.window = true := hw
      rw [if_neg hw, if_neg hw']
  have hfeed : x.plain.feed.exhausted = x.feed.exhausted := rfl
  cases err with
  | none =>
    simp only [readAfter]
    split_ifs <;> rfl
  | some e =>
    simp only [readAfter, hfeed, hdict]
    split_ifs <;> rfl

theorem readRound_plain (h : x.dec.streaming = false) (n : ℕ) :
    x.plain.readRound C n = (x.readRound C n).map plain fun r => (r.1, r.2.plain) := by
  have hread : x.plain.dec.reader.read (Feed.source C) n x.plain.feed =
      x.dec.reader.read (Feed.source C) n x.feed := rfl
  rw [readRound, readRound, hread]
  generalize x.dec.reader.read (Feed.source C) n x.feed = out
  have hnote : ∀ {y : Inflation F τ}, y.dec.streaming = false → ∀ p, y.note p = y := by
    intro y hy p
    simp [note, hy]
  dsimp only
  rw [hnote (y := x.withFeed out.2.1 out.2.2) h, hnote (y := x.plain.withFeed out.2.1 out.2.2) h]
  exact readAfter_plain (x := x.withFeed out.2.1 out.2.2) h _ _

theorem Steady.read_plain (h : Steady x) (n : ℕ) :
    x.plain.read C n = ((x.read C n).1, (x.read C n).2.plain) := by
  have hsteady : Steady x.plain := ⟨⟨h.mode, h.active, h.undone⟩, h.ready⟩
  obtain ⟨z, -, -, hiter, hread⟩ := h.ready_spec (C := C)
  obtain ⟨z', -, -, hiter', hread'⟩ := hsteady.ready_spec (C := C)
  have hbody : ∀ y : Inflation F τ, Steady y → Inflation.readRound C n (plain y) =
      (Inflation.readRound C n y).map plain fun r => (r.1, r.2.plain) :=
    fun y hy => readRound_plain hy.mode n
  have hmap := Loop.iterate_map plain _ hbody (fun y y' hy hb => (hy.readRound_inl hb).1)
    (x.feed.left C + 1) x h
  rw [hiter n, show x.feed.left C + 1 = x.plain.feed.left C + 1 from rfl, hiter' n] at hmap
  rw [hread' n, hread n]
  exact Option.some.inj hmap

theorem store_plain (maxSize : ℕ) (r : (List UInt8 × Option Err) × Inflation F τ) :
    (store maxSize (r.1, r.2.plain)).map id shown = (store maxSize r).map plain shown := by
  have hlen : (r.2.plain.dec.output ++ r.1.1).length = (r.2.dec.output ++ r.1.1).length := rfl
  have hdone : r.2.plain.dec.done = r.2.dec.done := rfl
  simp only [store, decompressAfter, hlen, hdone]
  split_ifs
  · rfl
  · rfl
  · cases r.1.2 <;> rfl

/-! ## Whole messages -/

section Filling

variable {Q : τ → Prop} {hist : List UInt8} {goal : Option (List UInt8)} {maxSize size : ℕ}
  {isSome : Bool}

theorem Filling.next (h : Filling C Q hist goal maxSize size isSome x) {x' : Inflation F τ}
    (hx' : x.decompressRound C maxSize = .inl x') :
    Filling C Q hist goal maxSize size isSome x' := by
  have hround := decompressRound_spec h
  rw [hx'] at hround
  exact hround.1

theorem Filling.steady_growFull (h : Filling C Q hist goal maxSize size isSome x) :
    Steady x.growFull := by
  obtain ⟨cap, hgrow, -⟩ := growFull_spec h.cap
  rw [hgrow]
  exact ⟨⟨h.mode, h.busy.active, h.undone⟩, h.busy.ready h.undone⟩

/-- One round of `Decompress` leads where the same reads byte by byte lead. -/
theorem Filling.leads (h : Filling C Q hist goal maxSize size isSome x) :
    Loop.Leads (byteRound C maxSize) x.plain
      ((x.decompressRound C maxSize).map plain shown) := by
  obtain ⟨cap, hgrow, hcap⟩ := growFull_spec h.cap
  have hlen := h.length
  have hsteady := h.steady_growFull
  have hplain : x.growFull.plain = x.plain := by rw [hgrow]; rfl
  have hout : x.growFull.dec.output = x.dec.output := by rw [hgrow]
  have hcap' : x.growFull.dec.outCap = cap := by rw [hgrow]
  have hsize : 0 < x.growFull.readSize maxSize ∧
      x.dec.output.length + x.growFull.readSize maxSize ≤ maxSize + 1 := by
    simp only [readSize, hout, hcap']
    split_ifs <;> omega
  rw [decompressRound_eq, ← store_plain, ← hsteady.read_plain, ← hplain]
  refine Steady.leads ⟨⟨hsteady.mode, hsteady.active, hsteady.undone⟩, hsteady.ready⟩ hsize.1 ?_
  show x.growFull.dec.output.length + _ ≤ _
  rw [hout]
  exact hsize.2

end Filling

/-- `Decompress` comes to an end, and what it shows is what it would show byte by byte. -/
theorem decompress_ends (h : x.dec.Idle) (payload : List UInt8) {maxSize : ℤ} (hmax : 0 ≤ maxSize) :
    Loop.iterate (decompressRound C maxSize.toNat) (maxSize.toNat + 2)
        (x.opening payload maxSize.toNat) = some (x.decompress C payload maxSize) ∧
      Loop.Ends (byteRound C maxSize.toNat) (x.opening payload maxSize.toNat).plain
        (shown (x.decompress C payload maxSize)) := by
  have hstart := filling_reserve (C := C) h payload maxSize.toNat
  obtain ⟨r, hr, -⟩ := Loop.iterate_spec (fun _ hf => decompressRound_spec hf) (maxSize.toNat + 2) _
    hstart (by omega)
  have hdecompress : x.decompress C payload maxSize = r := by
    rw [decompress, if_neg (by omega), Loop.run]
    exact congrArg (Option.getD · _) hr
  rw [hdecompress]
  exact ⟨hr, (Loop.ends_of_iterate hr).refine plain shown hstart (fun _ _ hf hx' => hf.next hx')
    fun _ hf => hf.leads⟩

theorem plain_opening (h : x.dec.Idle) {y : Inflation F τ} (hy : y.dec.Idle)
    (hwindow : x.window = y.window) (hsrc : x.src = y.src) (hinput : x.dec.input = y.dec.input)
    (payload : List UInt8) (maxSize : ℕ) :
    (x.opening payload maxSize).plain = (y.opening payload maxSize).plain := by
  have hreserve : ∀ z : Inflation F τ, (z.reserve payload maxSize).plain = z.plain := by
    intro z
    unfold reserve
    cases reserveRequest z payload maxSize <;> rfl
  rw [opening, opening, hreserve, hreserve, begin_eq h, begin_eq hy]
  simp [plain, hwindow, hsrc, hinput]

/-- What a decompressor was used for before does not show. -/
theorem decompress_shown (h : x.dec.Idle) {y : Inflation F τ} (hy : y.dec.Idle)
    (hwindow : x.window = y.window) (hsrc : x.src = y.src) (hinput : x.dec.input = y.dec.input)
    (payload : List UInt8) (maxSize : ℤ) :
    shown (x.decompress C payload maxSize) = shown (y.decompress C payload maxSize) := by
  by_cases hmax : maxSize < 0
  · rw [decompress, decompress, if_pos hmax, if_pos hmax, shown, shown, hwindow]
  · have hx := (decompress_ends (C := C) h payload (Int.not_lt.mp hmax)).2
    rw [plain_opening h hy hwindow hsrc hinput] at hx
    exact hx.unique (decompress_ends hy payload (Int.not_lt.mp hmax)).2

/-! ## Termination -/

/-- The three loops of a `Decompress` come to an end : its own, the one of each `Read`, and the one
of the inflater's reader in each round of that. -/
structure Terminates (C : ChunkSource τ) (x : Inflation F τ) (payload : List UInt8)
    (maxSize : ℕ) : Prop where
  loop : ∃ r, Loop.iterate (decompressRound C maxSize) (maxSize + 2) (x.opening payload maxSize) =
    some r
  reads : ∀ y ∈ x.rounds C payload maxSize,
    ∃ r, Loop.iterate (readRound C (y.growFull.readSize maxSize)) (y.growFull.feed.left C + 1)
      y.growFull = some r
  inflater : ∀ y ∈ x.rounds C payload maxSize,
    ∀ z ∈ Loop.visits (readRound C (y.growFull.readSize maxSize)) (y.growFull.feed.left C + 1)
      y.growFull, ∃ r, Loop.iterate (Inflater.readRound (Feed.source C)
        (y.growFull.readSize maxSize)) ((Feed.source C).left z.feed + 2) (z.dec.reader, z.feed) =
      some r

theorem decompress_terminates (h : x.dec.Idle) (payload : List UInt8) (maxSize : ℕ) :
    Terminates C x payload maxSize := by
  have hfilling := Loop.visits_spec (fun _ hf => decompressRound_spec hf) (maxSize + 2) _
    (filling_reserve (C := C) h payload maxSize)
  refine ⟨⟨_, (decompress_ends (C := C) h payload (Int.natCast_nonneg maxSize)).1⟩, ?_, ?_⟩
  · intro y hy
    obtain ⟨z, -, -, hiter, -⟩ := (hfilling y hy).steady_growFull.ready_spec (C := C)
    exact ⟨_, hiter _⟩
  · intro y hy z hz
    have hround : ∀ z : Inflation F τ, Steady z → Loop.Round Steady (fun z => z.dec.slice.length)
        (fun _ => True) z (z.readRound C (y.growFull.readSize maxSize)) := by
      intro z hz
      cases hr : z.readRound C (y.growFull.readSize maxSize) with
      | inl z' => exact hz.readRound_inl hr
      | inr r => exact trivial
    have hsteady := Loop.visits_spec hround _ _ (hfilling y hy).steady_growFull z hz
    exact ⟨_, (hsteady.settle (C := C)).1 _⟩

end Inflation

end Ews
