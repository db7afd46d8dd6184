import Ews.Streaming

/-!
# Streaming and whole messages

`Begin` and `Decompress` start the same message (`busy_begin`). `Decompress` reads it to its
end within its limit (`decompress_spec`), a caller of `Read` in portions of its own
(`drain_spec`) ; both are decided by what the message means, so they agree.
-/

set_option linter.unusedSectionVars false

namespace Ews

open Bytes

variable {F : Flate} {τ : Type}

namespace Inflation

theorem Over.idle {x : Inflation F τ} {n : ℕ} {d : List UInt8} {b : Bool} (h : x.Over n d b) :
    x.dec.Idle :=
  ⟨h.active, h.flag, h.scratch⟩

/-- The history of a window is no longer than the window. -/
theorem lastN_dictOf (x : Inflation F τ) :
    lastN x.size (Window.dictOf x.window) = Window.dictOf x.window := by
  cases hw : x.window with
  | none => simp [Window.dictOf]
  | some w => rw [size_some hw, Window.dictOf, Window.dict_eq, lastN_lastN]

section Begin

variable {C : ChunkSource τ} {Q : τ → Prop} {x : Inflation F τ} (h : x.dec.Idle)
include h

/-- `begin` without a message to abandon. -/
theorem begin_eq (payload : Option (List UInt8)) : x.begin payload = { x with
    dec := { x.dec with
      reader := Inflater.reset F (Window.dictOf x.window)
      window := x.window.isSome
      scratch := x.dec.scratch.reset
      streaming := payload.isNone
      input := if payload.isNone then { tail := inflateTail } else x.dec.input
      slice := (payload.map (· ++ inflateTail)).getD x.dec.slice
      inLen := (payload.map fun p => (p ++ inflateTail).length).getD x.dec.inLen
      kept := 0
      active := true
      done := false } } := by
  unfold begin
  rw [h.active]
  rfl

theorem keeps_begin (payload : Option (List UInt8)) :
    Keeps (Window.dictOf x.window) [] (x.begin payload) := by
  rw [begin_eq h]
  refine ⟨rfl, h.scratch, fun hw => ?_, fun _ w hw => ?_, fun _ _ => ?_, fun _ => ⟨le_rfl, fun w hw => ?_⟩⟩
  · rw [show x.window = none from hw]
    rfl
  · have hw' : x.window = some w := hw
    rw [hw', List.append_nil, Window.dictOf, Window.dict_eq, lastN_lastN]
  · show x.dec.scratch.reset.dict = _
    simp
  · have hw' : x.window = some w := hw
    rw [hw', List.take_nil, List.append_nil, Window.dictOf, Window.dict_eq, lastN_lastN]

/-- The start of a message, once its bytes are supplied. -/
theorem busy_begin (payload : Option (List UInt8)) {p : List UInt8}
    (hs : (Feed.source C).Supplies (fun f => Q f.src) (p ++ inflateTail) (x.begin payload).feed) :
    Busy C Q (Window.dictOf x.window) (F.inflate x.size (Window.dictOf x.window) p) []
      (x.begin payload) := by
  refine ⟨by rw [begin_eq h], keeps_begin h payload, fun _ => ?_, fun _ he => ?_, fun hd => ?_⟩
  · have hsize : (x.begin payload).size = x.size := by
      rw [begin_eq h]
      rfl
    rw [hsize]
    refine .running (x := ⟨none, Window.dictOf x.window⟩) ?_ ?_ ?_ (fun _ => by simp [inflateTail]) ?_ hs
    · rw [begin_eq h]
      rfl
    · rw [begin_eq h, Scan.machine, Option.getD_none, lastN_dictOf]
      rfl
    · rw [begin_eq h]
      simp [Inflater.reset]
    · rw [begin_eq h]
      simp [Inflater.reset, Flate.inflate]
  · rw [begin_eq h] at he
    exact absurd rfl he
  · rw [begin_eq h] at hd
    exact absurd (show false = true from hd) (by decide)

/-- A streamed message. -/
theorem busy_start {p : List UInt8} (hg : C.Gives Q p x.src) :
    Busy C Q (Window.dictOf x.window) (F.inflate x.size (Window.dictOf x.window) p) [] x.start := by
  refine busy_begin h none ?_
  refine Feed.supplies_stream (t := 0) _ p [] rfl ?_ ?_ (by rw [begin_eq h]; exact hg)
  · rw [begin_eq h]
    rfl
  · rw [begin_eq h]
    rfl

/-- A whole message. -/
theorem busy_whole (p : List UInt8) (hq : Q x.src) :
    Busy C Q (Window.dictOf x.window) (F.inflate x.size (Window.dictOf x.window) p) []
      (x.begin (some p)) := by
  refine busy_begin h (some p) (Feed.supplies_slice _ ?_ ?_ ?_)
  · rw [begin_eq h]
    rfl
  · rw [begin_eq h]
    rfl
  · rw [begin_eq h]
    exact hq

end Begin

/-! ## Whole messages -/

theorem Over.finish {x : Inflation F τ} {n : ℕ} {d : List UInt8} {b : Bool} (h : x.Over n d b)
    (ok : Bool) : (x.finish ok).Over n d b := by
  have hw : (x.finish ok).window = x.window := by
    unfold Inflation.finish
    rw [h.flag]
    rfl
  have hsize : (x.finish ok).size = x.size := by rw [Inflation.size, Inflation.size, hw]
  exact ⟨rfl, rfl, rfl, h.scratch, by rw [hw, h.window], hsize.trans h.size,
    fun w hw' => h.dict w (hw ▸ hw')⟩

/-- What was handed out is the start of what the message means. -/
theorem Busy.prefix_goal {C : ChunkSource τ} {Q : τ → Prop} {hist sofar out : List UInt8}
    {goal : Option (List UInt8)} {x : Inflation F τ} (h : Busy C Q hist goal sofar x)
    (hgoal : goal = some out) : sofar <+: out := by
  cases hd : x.dec.done with
  | true =>
    obtain ⟨hlast, -⟩ := h.last hd
    exact Option.some.inj (hlast.symm.trans hgoal) ▸ List.prefix_rfl
  | false =>
    cases h.inside hd with
    | running err state history more meaning supplies =>
      obtain ⟨rest, -, hrest⟩ := Option.map_eq_some_iff.mp (meaning.symm.trans hgoal)
      exact ⟨_, (List.append_assoc _ _ _).symm.trans hrest⟩
    | ended err queue meaning supplies =>
      obtain ⟨rest, -, hrest⟩ := Option.map_eq_some_iff.mp (meaning.symm.trans hgoal)
      exact ⟨_, (List.append_assoc _ _ _).symm.trans hrest⟩
    | bad err fault queue meaning => exact absurd (meaning.symm.trans hgoal) (by simp)

/-- The outcomes of `Decompress` for a message that means `goal` after `hist`. -/
inductive Decompressed (hist : List UInt8) (goal : Option (List UInt8)) (maxSize size : ℕ)
    (isSome : Bool) : Except Err (List UInt8) × Inflation F τ → Prop
  | ok {out : List UInt8} {x' : Inflation F τ} (means : goal = some out)
      (length : out.length ≤ maxSize) (hover : x'.Over size (lastN size (hist ++ out)) isSome) :
      Decompressed hist goal maxSize size isSome (.ok out, x')
  | tooLarge {x' : Inflation F τ} (means : ∀ out, goal = some out → maxSize < out.length)
      (hover : x'.Over size [] isSome) :
      Decompressed hist goal maxSize size isSome (.error .inflateTooLarge, x')
  | fail {e : Err} {x' : Inflation F τ} (fault : e ≠ .eof) (means : goal = none)
      (hover : x'.Over size [] isSome) : Decompressed hist goal maxSize size isSome (.error e, x')

/-- After growing there is room, and nothing else has changed. -/
theorem growFull_spec {x : Inflation F τ} (h : x.dec.output.length ≤ x.dec.outCap) :
    ∃ cap, x.growFull = { x with dec := { x.dec with outCap := cap } } ∧
      x.dec.output.length < cap := by
  unfold growFull
  split_ifs with hfull
  · have hpos : 32768 ≤ x.growth := le_max_left _ _
    refine ⟨poolCap (x.dec.output.length + x.growth), ?_, ?_⟩
    · rw [grow, growRequest, if_neg (by omega)]
    · exact Nat.lt_of_lt_of_le (by omega) (le_poolCap _)
  · exact ⟨x.dec.outCap, rfl, by omega⟩

/-- Where the loop of `Decompress` stands : the output is what was handed out, within the limit
and its storage. -/
structure Filling (C : ChunkSource τ) (Q : τ → Prop) (hist : List UInt8)
    (goal : Option (List UInt8)) (maxSize size : ℕ) (isSome : Bool) (x : Inflation F τ) : Prop where
  busy : Busy C Q hist goal x.dec.output x
  undone : x.dec.done = false
  mode : x.dec.streaming = false
  length : x.dec.output.length ≤ maxSize
  cap : x.dec.output.length ≤ x.dec.outCap
  size : x.size = size
  isSome : x.window.isSome = isSome

section Filling

variable {C : ChunkSource τ} {Q : τ → Prop} {hist : List UInt8} {goal : Option (List UInt8)}
  {maxSize size : ℕ} {isSome : Bool} {x : Inflation F τ}

/-- The storage does not matter to the message. -/
theorem Busy.store {sofar : List UInt8} (h : Busy C Q hist goal sofar x) (output : List UInt8)
    (cap : ℕ) : Busy C Q hist goal sofar
      { x with dec := { x.dec with output := output, outCap := cap } } :=
  ⟨h.active, ⟨h.keeps.flag, h.keeps.scratch, h.keeps.alone, h.keeps.stream, h.keeps.streamAlone,
    h.keeps.slice⟩, h.inside, h.ready, h.last⟩

/-- A `Read` that handed out bytes. -/
theorem decompressAfter_chunk {y : Inflation F τ} (h : Busy C Q hist goal y.dec.output y)
    (hmode : y.dec.streaming = false) (hcap : y.dec.output.length ≤ y.dec.outCap)
    (hmore : x.dec.output.length < y.dec.output.length) (hlen : x.dec.output.length ≤ maxSize) :
    Loop.Round (Filling C Q hist goal maxSize y.size y.window.isSome)
      (fun x => maxSize + 1 - x.dec.output.length)
      (Decompressed hist goal maxSize y.size y.window.isSome) x
      (y.decompressAfter maxSize none) := by
  unfold decompressAfter
  by_cases hbig : y.dec.output.length > maxSize
  · rw [if_pos hbig]
    exact .tooLarge (fun o ho => Nat.lt_of_lt_of_le hbig (h.prefix_goal ho).length_le)
      (over_finish_false h.keeps)
  · rw [if_neg hbig]
    cases hd : y.dec.done with
    | true =>
      rw [if_pos (Or.inr rfl)]
      exact .ok (h.last hd).1 (by omega) (over_finish_true h.keeps fun _ => rfl)
    | false =>
      rw [if_neg (by simp)]
      exact ⟨⟨h, hd, hmode, by omega, hcap, rfl, rfl⟩, by dsimp only; omega⟩

theorem decompressRound_spec (h : Filling C Q hist goal maxSize size isSome x) :
    Loop.Round (Filling C Q hist goal maxSize size isSome)
      (fun x => maxSize + 1 - x.dec.output.length)
      (Decompressed hist goal maxSize size isSome) x (x.decompressRound C maxSize) := by
  obtain ⟨cap, hgrow, hcap⟩ := growFull_spec h.cap
  have hlen := h.length
  unfold decompressRound
  rw [hgrow]
  dsimp only
  have hbusy := h.busy.store x.dec.output cap
  generalize hn : Inflation.readSize { x with dec := { x.dec with outCap := cap } } maxSize = n
  have hnpos : 0 < n ∧ x.dec.output.length + n ≤ cap := by
    simp only [readSize] at hn
    split_ifs at hn <;> omega
  have hread := read_spec hnpos.1 hbusy fun _ => rfl
  generalize Inflation.read C n { x with dec := { x.dec with outCap := cap } } = out at hread ⊢
  cases hread with
  | @chunk p x' nonempty length busy same load =>
    have hout : x'.dec.output = x.dec.output := same.output
    have hcap' : x'.dec.outCap = cap := same.outCap
    have hpos := List.length_pos_of_ne_nil nonempty
    have hlength : (x.dec.output ++ p).length = x.dec.output.length + p.length :=
      List.length_append
    have hbusy' := busy.store (x.dec.output ++ p) x'.dec.outCap
    dsimp only
    rw [hout, ← same.size.trans h.size, ← same.isSome.trans h.isSome]
    refine decompressAfter_chunk hbusy' (same.streaming.trans h.mode) ?_ ?_ hlen
    · show (x.dec.output ++ p).length ≤ x'.dec.outCap
      omega
    · show x.dec.output.length < (x.dec.output ++ p).length
      omega
  | @eof x' hgoal hover output final =>
    have hout : x'.dec.output = x.dec.output := output
    dsimp only
    rw [List.append_nil, decompressAfter, hout, if_neg (by omega), if_pos (Or.inl rfl)]
    have hover : Over size (lastN size (hist ++ x.dec.output)) isSome
        { x' with dec := { x'.dec with output := x.dec.output } } :=
      ⟨hover.active, hover.done, hover.flag, hover.scratch, hover.window.trans h.isSome,
        hover.size.trans h.size, h.size ▸ hover.dict⟩
    exact .ok hgoal hlen (hover.finish true)
  | @fail e x' fault hgoal hover =>
    have hover : Over size [] isSome
        { x' with dec := { x'.dec with output := x'.dec.output ++ [] } } :=
      ⟨hover.active, hover.done, hover.flag, hover.scratch, hover.window.trans h.isSome,
        hover.size.trans h.size, hover.dict⟩
    dsimp only
    unfold decompressAfter
    split_ifs with hbig hend
    · exact .tooLarge (fun o ho => absurd (hgoal.symm.trans ho) (by simp)) (hover.finish false)
    · rcases hend with hend | hend
      · exact absurd (Option.some.inj hend) fault
      · exact absurd (hover.done.symm.trans hend) (by decide)
    · exact .fail fault hgoal hover

/-- The loop of `Decompress` starts with nothing handed out. -/
theorem filling_reserve (h : x.dec.Idle) (payload : List UInt8) (maxSize : ℕ) :
    Filling C (fun _ => True) (Window.dictOf x.window)
      (F.inflate x.size (Window.dictOf x.window) payload) maxSize x.size x.window.isSome
      (reserve { x.begin (some payload) with
        dec := { (x.begin (some payload)).dec with output := [] } } payload maxSize) := by
  have hbusy := (busy_whole (C := C) (Q := fun _ => True) h payload trivial).store []
  have hfill : ∀ cap, Filling C (fun _ => True) (Window.dictOf x.window)
      (F.inflate x.size (Window.dictOf x.window) payload) maxSize x.size x.window.isSome
      { x.begin (some payload) with
        dec := { (x.begin (some payload)).dec with output := [], outCap := cap } } := by
    intro cap
    refine ⟨hbusy cap, ?_, ?_, Nat.zero_le _, Nat.zero_le _, ?_, ?_⟩ <;> rw [begin_eq h] <;> rfl
  unfold reserve
  cases reserveRequest _ payload maxSize with
  | none => exact hfill _
  | some hint => exact hfill _

/-- `Decompress`. -/
theorem decompress_spec (h : x.dec.Idle) (payload : List UInt8) {maxSize : ℤ} (hmax : 0 ≤ maxSize) :
    Decompressed (Window.dictOf x.window) (F.inflate x.size (Window.dictOf x.window) payload)
      maxSize.toNat x.size x.window.isSome (x.decompress C payload maxSize) := by
  unfold decompress
  rw [if_neg (by omega)]
  exact Loop.run_spec (Filling C (fun _ => True) _ _ _ _ _)
    (fun x => maxSize.toNat + 1 - x.dec.output.length)
    (fun _ hf => decompressRound_spec hf) (filling_reserve h payload _) (by omega)

end Filling

/-! ## Streamed messages -/

/-- One `Read` of a caller that drains a message, the `i`th of size `sizes i`. -/
def drainRound (C : ChunkSource τ) (sizes : ℕ → ℕ) :
    ℕ × List UInt8 × Inflation F τ →
      (ℕ × List UInt8 × Inflation F τ) ⊕ Except Err (List UInt8) × Inflation F τ
  | (i, out, x) =>
    match x.read C (sizes i) with
    | ((p, none), x) => .inl (i + 1, out ++ p, x)
    | ((p, some e), x) => .inr (if e = .eof then .ok (out ++ p) else .error e, x)

/-- `Read` until `io.EOF` or an error. -/
def drain (C : ChunkSource τ) (sizes : ℕ → ℕ) (x : Inflation F τ) :
    Except Err (List UInt8) × Inflation F τ :=
  Loop.run (drainRound C sizes) (x.load C + 1) (fun y => (.error .noProgress, y.2.2)) (0, [], x)

/-- The outcomes of draining a message that means `goal` after `hist`. -/
inductive Drained (hist : List UInt8) (goal : Option (List UInt8)) (size : ℕ) (isSome : Bool) :
    Except Err (List UInt8) × Inflation F τ → Prop
  | ok {out : List UInt8} {x' : Inflation F τ} (means : goal = some out)
      (hover : x'.Over size (lastN size (hist ++ out)) isSome) :
      Drained hist goal size isSome (.ok out, x')
  | fail {e : Err} {x' : Inflation F τ} (means : goal = none) (hover : x'.Over size [] isSome) :
      Drained hist goal size isSome (.error e, x')

theorem drain_spec {C : ChunkSource τ} {Q : τ → Prop} {hist : List UInt8}
    {goal : Option (List UInt8)} {x : Inflation F τ} {sizes : ℕ → ℕ} (hpos : ∀ i, 0 < sizes i)
    (hx : x.dec.streaming = true) (h : Busy C Q hist goal [] x) :
    Drained hist goal x.size x.window.isSome (x.drain C sizes) := by
  refine Loop.run_spec (fun y => Busy C Q hist goal y.2.1 y.2.2 ∧ Same x y.2.2)
    (fun y => y.2.2.load C) ?_ ⟨h, .refl x⟩ (Nat.lt_succ_self _)
  rintro ⟨i, out, y⟩ ⟨hy, hsame⟩
  dsimp only at hy hsame
  have hread := read_spec (hpos i) hy fun hs =>
    absurd (hs.symm.trans (hsame.streaming.trans hx)) (by decide)
  simp only [drainRound]
  generalize y.read C (sizes i) = res at hread
  cases hread with
  | chunk nonempty length busy same load =>
    have hp := List.length_pos_of_ne_nil nonempty
    exact ⟨⟨busy, hsame.trans same⟩, by dsimp only; omega⟩
  | eof means hover output final =>
    dsimp only
    rw [if_pos rfl, List.append_nil]
    rw [hsame.size, hsame.isSome] at hover
    exact .ok means hover
  | fail fault means hover =>
    dsimp only
    rw [if_neg fault]
    rw [hsame.size, hsame.isSome] at hover
    exact .fail means hover

/-- No bytes come with `io.EOF`, whatever the state. -/
theorem read_eof (C : ChunkSource τ) (n : ℕ) (x : Inflation F τ)
    (h : (x.read C n).1.2 = some .eof) : (x.read C n).1.1 = [] := by
  suffices hs : (x.read C n).1.2 = some .eof → (x.read C n).1.1 = [] from hs h
  unfold read
  split_ifs
  · exact fun _ => rfl
  · exact fun _ => rfl
  · refine Loop.run_keeps (fun _ => True) 
      (Q := fun r : (List UInt8 × Option Err) × Inflation F τ => r.1.2 = some .eof → r.1.1 = [])
      (fun y _ => ?_) (fun _ => rfl) trivial _
    simp only [readRound, readAfter]
    split
    · split_ifs <;> simp
    · split_ifs <;> simp

/-! ## The source behind a message -/

theorem feed_note (x : Inflation F τ) (p : List UInt8) : (x.note p).feed = x.feed := by
  unfold note
  split_ifs <;> rfl

theorem feed_dict (x : Inflation F τ) (p : List UInt8) : (x.dict p).2.feed = x.feed := by
  unfold dict
  split_ifs <;> rfl

/-- What every chunk keeps, every draw from the feed keeps. -/
theorem next_keeps {C : ChunkSource τ} {P : τ → Prop} (h : ∀ s, P s → P (C.next s).2)
    {f : Feed τ} (hf : P f.src) : P ((Feed.source C).next f).2.src := by
  have hfill : P (f.input.fill C f.src).2.2 := by
    refine Loop.run_keeps (fun y : MessageReader × τ => P y.2)
      (Q := fun out : Except Err Bool × MessageReader × τ => P out.2.2) ?_ hf hf _
    rintro ⟨m, s⟩ hs
    have hnext := h s hs
    simp only [MessageReader.fillRound]
    generalize C.next s = out at hnext
    obtain ⟨res, s'⟩ := out
    split_ifs
    · cases res with
      | error e =>
        dsimp only
        split_ifs <;> exact hnext
      | ok chunk => exact hnext
    · exact hs
  have hbyte : P (f.input.readByte C f.src).2.2 := by
    unfold MessageReader.readByte
    generalize f.input.fill C f.src = out at hfill
    obtain ⟨res, m, s⟩ := out
    split
    · simp_all
    · split <;> simp_all
    · split <;> simp_all
  simp only [Feed.source, Feed.next]
  split_ifs
  · exact hbyte
  · split <;> exact hf

/-- After the reader has drawn from it, a round leaves the source alone. -/
theorem readAfter_src (x : Inflation F τ) (p : List UInt8) (err : Option Err) :
    Sum.elim (fun y => y.feed = x.feed)
      (fun out => out.2.src = x.src ∧
        (out.2.dec.streaming = x.dec.streaming ∨ out.2.dec.streaming = false))
      (x.readAfter p err) := by
  have hdict := x.feed_dict p
  cases err with
  | none =>
    simp only [readAfter]
    split_ifs
    · exact ⟨rfl, Or.inr rfl⟩
    · exact ⟨rfl, Or.inl rfl⟩
  | some e =>
    simp only [readAfter]
    split_ifs
    · exact ⟨rfl, Or.inr rfl⟩
    · exact ⟨rfl, Or.inl rfl⟩
    · exact ⟨congrArg Feed.src hdict, Or.inl (congrArg Feed.streaming hdict)⟩
    · exact hdict
    · exact ⟨rfl, Or.inr rfl⟩

/-- What every draw from the feed keeps, every `Read` keeps. -/
theorem read_keeps {C : ChunkSource τ} {P : Feed τ → Prop}
    (h : ∀ f, P f → P ((Feed.source C).next f).2) {x : Inflation F τ} (hx : P x.feed) (n : ℕ) :
    ∃ f, P f ∧ (x.read C n).2.src = f.src ∧
      ((x.read C n).2.dec.streaming = f.streaming ∨ (x.read C n).2.dec.streaming = false) := by
  unfold read
  split_ifs
  · exact ⟨x.feed, hx, rfl, Or.inl rfl⟩
  · exact ⟨x.feed, hx, rfl, Or.inr rfl⟩
  · refine Loop.run_keeps (fun y : Inflation F τ => P y.feed)
      (Q := fun out : (List UInt8 × Option Err) × Inflation F τ => ∃ f, P f ∧
        out.2.src = f.src ∧ (out.2.dec.streaming = f.streaming ∨ out.2.dec.streaming = false))
      (fun y hy => ?_) ⟨x.feed, hx, rfl, Or.inl rfl⟩ hx _
    have hread := Inflater.read_keeps h hy y.dec.reader n
    have hmode := streaming_read (C := C) y n
    simp only [readRound]
    generalize y.dec.reader.read (Feed.source C) n y.feed = out at hread hmode
    obtain ⟨⟨p, err⟩, r, f⟩ := out
    have hfeed : ((y.withFeed r f).note p).feed = f := by
      rw [feed_note, feed_withFeed hmode]
    have hafter := readAfter_src ((y.withFeed r f).note p) p err
    generalize ((y.withFeed r f).note p).readAfter p err = res at hafter ⊢
    cases res with
    | inl y' =>
      show P y'.feed
      rw [show y'.feed = _ from hafter, hfeed]
      exact hread
    | inr out =>
      refine ⟨f, hread, ?_, ?_⟩
      · exact hafter.1.trans (congrArg Feed.src hfeed)
      · have := hafter.2
        rwa [show ((y.withFeed r f).note p).dec.streaming = f.streaming from
          congrArg Feed.streaming hfeed] at this

/-- A whole message leaves the source of chunks alone. -/
theorem decompress_src (C : ChunkSource τ) (payload : List UInt8) (maxSize : ℤ)
    (x : Inflation F τ) : (x.decompress C payload maxSize).2.src = x.src := by
  have hslice : ∀ (y : Inflation F τ) (n : ℕ), y.dec.streaming = false →
      (y.read C n).2.src = y.src ∧ (y.read C n).2.dec.streaming = false := by
    intro y n hy
    obtain ⟨f, ⟨hf, hsrc⟩, hs, hmode⟩ := read_keeps (C := C)
      (P := fun f => f.streaming = false ∧ f.src = y.src) (fun f hf => by
        simp only [Feed.source, Feed.next, hf.1, Bool.false_eq_true, if_false]
        split
        · exact ⟨rfl, hf.2⟩
        · exact hf) (x := y) ⟨hy, rfl⟩ n
    exact ⟨hs.trans hsrc, hmode.elim (·.trans hf) id⟩
  unfold decompress
  split_ifs
  · rfl
  · have hbegin : (x.begin (some payload)).src = x.src := by
      unfold begin
      split_ifs <;> rfl
    have hreserve : ∀ y : Inflation F τ, (y.reserve payload maxSize.toNat).src = y.src ∧
        (y.reserve payload maxSize.toNat).dec.streaming = y.dec.streaming := by
      intro y
      unfold reserve
      cases y.reserveRequest payload maxSize.toNat <;> exact ⟨rfl, rfl⟩
    refine Loop.run_keeps (fun y : Inflation F τ => y.src = x.src ∧ y.dec.streaming = false)
      (Q := fun out : Except Err (List UInt8) × Inflation F τ => out.2.src = x.src)
      (fun y hy => ?_) ?_ ?_ _
    · have hgrow : y.growFull.src = y.src ∧ y.growFull.dec.streaming = y.dec.streaming := by
        unfold growFull grow
        split_ifs
        · cases y.growRequest y.growth <;> exact ⟨rfl, rfl⟩
        · exact ⟨rfl, rfl⟩
      have hread := hslice y.growFull (y.growFull.readSize maxSize.toNat) (hgrow.2.trans hy.2)
      rw [hgrow.1, hy.1] at hread
      simp only [decompressRound]
      generalize Inflation.read C (y.growFull.readSize maxSize.toNat) y.growFull = out at hread ⊢
      obtain ⟨⟨p, err⟩, y'⟩ := out
      simp only [decompressAfter]
      split_ifs
      · exact hread.1
      · exact hread.1
      · cases err with
        | none => exact hread
        | some e => exact hread.1
    · exact (hreserve _).1.trans hbegin
    · exact ⟨(hreserve _).1.trans hbegin, (hreserve _).2.trans rfl⟩

end Inflation

/-! ## Agreement -/

namespace ChunkSource

/-- A message cut into chunks. -/
def ofChunks : ChunkSource (List (List UInt8)) where
  next
    | [] => (.error .eof, [])
    | c :: cs => (.ok c, cs)
  left cs := cs.flatten.length + cs.length

theorem gives_ofChunks : ∀ cs : List (List UInt8),
    ofChunks.Gives (fun _ => True) cs.flatten cs
  | [] => .eof rfl trivial
  | c :: cs => by
    refine .chunk rfl ?_ ?_ (gives_ofChunks cs)
    · simp only [ofChunks, List.flatten_cons, List.length_append, List.length_cons]
      omega
    · intro hc
      simp [ofChunks, hc]

end ChunkSource

namespace Inflation

/-- What the two modes have in common for a message, when the limit of the whole mode is
`maxSize` : the bytes, or a failure, and the history left. -/
structure Agree (maxSize : ℤ) (streamed whole : Except Err (List UInt8) × Inflation F τ) :
    Prop where
  ok : ∀ out, streamed.1 = .ok out → out.length ≤ maxSize → whole.1 = .ok out ∧
    Window.dictOf streamed.2.window = Window.dictOf whole.2.window
  fail : ∀ e, streamed.1 = .error e → (∃ e', whole.1 = .error e') ∧
    Window.dictOf streamed.2.window = [] ∧ Window.dictOf whole.2.window = []

theorem Over.dictOf {x : Inflation F τ} {n : ℕ} {d : List UInt8} {b : Bool} (h : x.Over n d b) :
    Window.dictOf x.window = if b then d else [] := by
  cases hw : x.window with
  | none => simp [Window.dictOf, ← h.window, hw]
  | some w => simp [Window.dictOf, ← h.window, hw, h.dict w hw]

theorem agree_of_specs {hist : List UInt8} {goal : Option (List UInt8)} {size : ℕ} {b : Bool}
    {maxSize : ℤ} (hmax : 0 ≤ maxSize) {streamed whole : Except Err (List UInt8) × Inflation F τ}
    (hs : Drained hist goal size b streamed)
    (hw : Decompressed hist goal maxSize.toNat size b whole) : Agree maxSize streamed whole := by
  cases hs with
  | @ok out x means hover =>
    refine ⟨fun o ho hle => ?_, fun e he => by cases he⟩
    cases ho
    cases hw with
    | ok means' length' hover' =>
      cases means.symm.trans means'
      exact ⟨rfl, hover.dictOf.trans hover'.dictOf.symm⟩
    | tooLarge means' hover' =>
      have := means' out means
      omega
    | fail fault means' hover' => exact absurd (means.symm.trans means') (by simp)
  | fail means hover =>
    refine ⟨fun o ho => absurd ho (by simp), fun e _ => ?_⟩
    cases hw with
    | ok means' length' hover' => exact absurd (means.symm.trans means') (by simp)
    | tooLarge means' hover' =>
      exact ⟨⟨_, rfl⟩, hover.dictOf.trans (by simp), hover'.dictOf.trans (by simp)⟩
    | fail fault means' hover' =>
      exact ⟨⟨_, rfl⟩, hover.dictOf.trans (by simp), hover'.dictOf.trans (by simp)⟩

/-- A message drained through `Begin` and `Read`, however it is cut and however it is read,
and the same message given to `Decompress` agree, for every window ; and `Read` gives no
bytes together with `io.EOF`. -/
theorem drain_agrees_decompress (x : Inflation F (List (List UInt8))) (h : x.dec.Idle)
    (sizes : ℕ → ℕ) (hpos : ∀ i, 0 < sizes i) (maxSize : ℤ) (hmax : 0 ≤ maxSize) :
    Agree maxSize (x.start.drain .ofChunks sizes) (x.decompress .ofChunks x.src.flatten maxSize) ∧
      ∀ (y : Inflation F (List (List UInt8))) (n : ℕ),
        (y.read .ofChunks n).1.2 = some .eof → (y.read .ofChunks n).1.1 = [] := by
  refine ⟨?_, fun y n => read_eof _ n y⟩
  have hbusy := busy_start h (ChunkSource.gives_ofChunks x.src)
  have hdrain := drain_spec hpos (by rw [start, begin_eq h]; rfl) hbusy
  have hsize : x.start.size = x.size := by
    rw [start, begin_eq h]
    rfl
  have hsome : x.start.window = x.window := by rw [start, begin_eq h]
  rw [hsize, hsome] at hdrain
  exact agree_of_specs hmax hdrain (decompress_spec h x.src.flatten hmax)

/-- A stored block holding two bytes, cut into four chunks, one of them empty, and read in
portions of one byte. -/
theorem drain_agrees_decompress_stored :
    let x : Inflation Flate.stored (List (List UInt8)) :=
      ⟨{}, some {}, [[0, 2], [], [0, 0xfd, 0xff, 104], [105, 0]]⟩
    (x.start.drain .ofChunks fun _ => 1).1 = .ok [104, 105] ∧
      (x.decompress .ofChunks x.src.flatten 2).1 = .ok [104, 105] := by
  have hdrain : (Inflation.drain .ofChunks (fun _ => 1) (Inflation.start
      (⟨{}, some {}, [[0, 2], [], [0, 0xfd, 0xff, 104], [105, 0]]⟩ :
        Inflation Flate.stored (List (List UInt8))))).1 = .ok [104, 105] := by
    decide
  exact ⟨hdrain, ((drain_agrees_decompress _ ⟨rfl, rfl, rfl⟩ (fun _ => 1) (fun _ => Nat.one_pos) 2
    (by decide)).1.ok _ hdrain (by decide)).1⟩

end Inflation

end Ews
