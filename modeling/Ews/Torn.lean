import Ews.Limit

/-!
# A message that does not come to its end

`Torn` is a reading side inside a message that the rest of the stream does not complete, over a
transport that gives no errors of its own. `Read` and `nextChunk` give some of the message there,
or stop with an error other than `io.EOF` : `Idle` is false inside a message. The side is then torn
as before, or `Halted` for good.

A compressed message is read through a decompressor. It asks for the next chunk until it has
the end of the message, so it does not see its input exhausted (`Drawing`), and the end of one
deflate stream is the beginning of the next. `read_torn` says it of `Read` on either kind of
message, and `reads_torn` of any number of reads.
-/

set_option linter.unusedSectionVars false

namespace Ews

namespace ReadSide

/-! ## The reading side -/

/-- Stopped for good, with an error other than `io.EOF`. -/
def Halted (s : ReadSide) : Prop :=
  ∃ e, s.readErr = some e ∧ e ≠ .eof

/-- Inside a message that does not come to its end. -/
structure Torn (s : ReadSide) : Prop where
  inMessage : s.inMessage = true
  fine : s.readErr = none
  coupled : s.rx.Coupled
  live : s.rx.dead = false
  quiet : Quiet s
  missing : ∃ w, emit w s.cursor s.todo = []

theorem Torn.ne_eof {s : ReadSide} (h : Torn s ∨ Halted s) {e : Err} (he : s.readErr = some e) :
    e ≠ .eof := by
  rcases h with h | ⟨e', he', hne⟩
  · exact absurd (h.fine.symm.trans he) (by simp)
  · rwa [Option.some.inj (he.symm.trans he')]

theorem halted_fail (s : ReadSide) {e : Err} (he : e ≠ .eof) : Halted (s.fail e) := by
  refine ⟨e, ?_, he⟩
  cases e <;> rfl

section Torn

variable {s s' : ReadSide} (h : Torn s)
include h

theorem Torn.within {l : List Event} {p : List UInt8} (within : Within s l p s') : Torn s' := by
  have went := within.toWent
  obtain ⟨w, hw⟩ := h.missing
  rw [within.emit] at hw
  exact ⟨went.inMessage.trans h.inMessage, went.readErr.trans h.fine, went.coupled, within.live,
    h.quiet.passed went.passed, _, hw⟩

/-- The end of the message does not come. -/
theorem Torn.not_ended {l : List Event} {p : List UInt8} (within : Within s l p s') :
    s'.cursor.ended = false := by
  obtain ⟨w, hw⟩ := (h.within within).missing
  by_contra hended
  rw [emit_ended (by simpa using hended)] at hw
  cases hw

theorem Torn.flags (srcErr : Option Err) (streaming : Bool) :
    Torn { s with srcErr := srcErr, streaming := streaming } :=
  ⟨h.inMessage, h.fine, h.coupled, h.live, ⟨h.quiet.steady, h.quiet.clean, h.quiet.handler⟩,
    h.missing⟩

/-- At the end of the transport. -/
theorem Torn.dry (symbols : s.transport.symbols = []) : Torn { s with transport := [] } := by
  obtain ⟨w, hw⟩ := h.missing
  rw [todo, Transport.bytes, symbols] at hw
  exact ⟨h.inMessage, h.fine, h.coupled, h.live, ⟨fun i hi => absurd hi (by simp),
    fun e he => absurd he (by simp), h.quiet.handler⟩, w, hw⟩

/-- A stop inside the message is not its end. -/
theorem Torn.broke {p : List UInt8} {e : Err} (broke : Broke s p e s') :
    e ≠ .eof ∧ (Torn s' ∧ s'.streaming = s.streaming ∨ Halted s') := by
  obtain ⟨stop, hscan, incomplete, place⟩ := broke
  cases stop with
  | blocked went live dry blocked =>
    rename_i l k c₁ t
    obtain ⟨hcursor, hcomp⟩ := place live
    have htorn : Torn c₁ := h.within ⟨went, by rw [hscan, hcursor], live, hcomp⟩
    cases blocked with
    | ended symbols =>
      have hidle : c₁.rx.idle = false := by
        have hended : ¬c₁.cursor.ended = true := by simp [hcursor, incomplete]
        by_contra hidle
        simp only [Receiver.idle, Bool.and_eq_true, beq_iff_eq, Bool.not_eq_false] at hidle
        exact hended (cursor_ended.mpr ⟨hidle.1.1.1, by simp [Receiver.messageOpen, hidle.1.2]⟩)
      rw [hidle, if_pos rfl]
      exact ⟨by simp, Or.inl ⟨htorn.dry symbols, went.streaming⟩⟩
    | err symbols => exact absurd (by rw [symbols]; exact List.mem_cons_self) (htorn.quiet.clean _)
    | stalled symbols weight unsteady => exact absurd htorn.quiet.steady unsteady
  | failed went dead => exact ⟨by simp, Or.inr (halted_fail _ (by simp))⟩
  | refused went call answer => exact absurd (answer.symm.trans (h.quiet.handler _ _)) (by simp)
  | closed went dead answer => exact ⟨by simp, Or.inr ⟨_, rfl, by simp⟩⟩

/-- `Read` in a plain message. -/
theorem Torn.readPlain {n : ℕ} (hn : 0 < n) :
    (s.readPlain n).1 ≠ .error .eof ∧
      (Torn (s.readPlain n).2 ∧ (s.readPlain n).2.streaming = s.streaming ∨
        Halted (s.readPlain n).2) := by
  have hread := readPlain_spec h.coupled h.live hn
  generalize s.readPlain n = out at hread ⊢
  cases hread with
  | chunk nonempty length within =>
    exact ⟨by simp, Or.inl ⟨h.within within, within.toWent.streaming⟩⟩
  | ended within ended => exact absurd (h.not_ended within) (by simp [ended])
  | broke broke =>
    obtain ⟨he, hafter⟩ := h.broke broke
    exact ⟨fun heq => he (Except.error.inj heq), hafter⟩

/-- The next chunk of a compressed message. -/
theorem Torn.chunk : (∃ p s', chunkSource.next s = (.ok p, s') ∧ p ≠ [] ∧ Torn s') ∨
    ∃ e s', chunkSource.next s = (.error e, s') ∧ e ≠ .eof ∧ (Torn s' ∨ Halted s') := by
  have hread := nextChunk_spec h.coupled h.live
  simp only [chunkSource]
  generalize s.nextChunk = out at hread ⊢
  cases hread with
  | chunk nonempty within spent => exact Or.inl ⟨_, _, rfl, nonempty, h.within within⟩
  | ended within ended => exact absurd (h.not_ended within) (by simp [ended])
  | broke broke =>
    obtain ⟨he, hafter⟩ := h.broke broke
    refine Or.inr ⟨_, _, rfl, he, ?_⟩
    rw [if_neg he]
    exact hafter.imp (fun h => h.1.flags _ _) id

end Torn

end ReadSide

/-! ## The decompressor -/

section Feed

open ReadSide

/-- A reader that draws from a message that does not come to its end. -/
structure Drawing (f : Feed ReadSide) : Prop where
  streaming : f.streaming = true
  more : f.input.eof = false
  src : Torn f.src ∨ Halted f.src

theorem Drawing.not_exhausted {f : Feed ReadSide} (h : Drawing f) : f.exhausted = false := by
  simp [Feed.exhausted, h.streaming, MessageReader.exhausted, h.more]

/-- `fill` has payload to give, or stops with an error other than `io.EOF`. -/
inductive Filled : Except Err Bool × MessageReader × ReadSide → Prop
  | payload {m : MessageReader} {s : ReadSide} (nonempty : m.payload ≠ []) (more : m.eof = false)
      (torn : Torn s) : Filled (.ok true, m, s)
  | stop {e : Err} {m : MessageReader} {s : ReadSide} (error : e ≠ .eof) (more : m.eof = false)
      (src : Torn s ∨ Halted s) : Filled (.error e, m, s)

theorem fill_torn {m : MessageReader} {s : ReadSide} (more : m.eof = false) (torn : Torn s) :
    Filled (m.fill chunkSource s) := by
  refine Loop.run_keeps (fun x : MessageReader × ReadSide => x.1.eof = false ∧ Torn x.2) ?_
    (.stop (by simp) more (Or.inl torn)) ⟨more, torn⟩ _
  rintro ⟨m, s⟩ ⟨more, torn⟩
  simp only [MessageReader.fillRound]
  by_cases hempty : m.payload = []
  · rw [if_pos ⟨hempty, more⟩]
    rcases torn.chunk with ⟨p, s', heq, -, torn'⟩ | ⟨e, s', heq, he, hafter⟩
    · rw [heq]
      exact ⟨more, torn'⟩
    · rw [heq]
      dsimp only
      rw [if_neg he]
      exact .stop he more hafter
  · rw [if_neg fun h => hempty h.1]
    have htrue : (!m.payload.isEmpty) = true := by simp [hempty]
    rw [htrue]
    exact .payload hempty more torn

/-- The next byte of a message that does not come to its end. -/
theorem next_torn {f : Feed ReadSide} (streaming : f.streaming = true) (more : f.input.eof = false)
    (torn : Torn f.src) :
    (∃ b f', (Feed.source chunkSource).next f = (.ok b, f') ∧ Drawing f' ∧ Torn f'.src) ∨
      ∃ e f', (Feed.source chunkSource).next f = (.error e, f') ∧ e ≠ .eof ∧ Drawing f' := by
  have hfill := fill_torn more torn
  simp only [Feed.source, Feed.next, if_pos streaming, MessageReader.readByte]
  generalize f.input.fill chunkSource f.src = out at hfill ⊢
  cases hfill with
  | @payload m s nonempty more torn =>
    cases hp : m.payload with
    | nil => exact absurd hp nonempty
    | cons b bs =>
      dsimp only
      rw [hp]
      exact Or.inl ⟨_, _, rfl, ⟨streaming, more, Or.inl torn⟩, torn⟩
  | stop error more src => exact Or.inr ⟨_, _, rfl, error, streaming, more, src⟩

/-- Where a reader stands : it still draws from the message, or the source has stopped for good
and the reader knows. -/
def Inflater.Follows {F : Flate} (r : Inflater F) (f : Feed ReadSide) : Prop :=
  Drawing f ∧ (Torn f.src ∨ ∃ e, r.err = some e ∧ e ≠ .eof)

section Reader

variable {F : Flate} {r : Inflater F} {f : Feed ReadSide}

theorem follows_pull (drawing : Drawing f) (torn : Torn f.src) :
    (r.pull (Feed.source chunkSource) f).1.Follows (r.pull (Feed.source chunkSource) f).2 := by
  rcases next_torn drawing.streaming drawing.more torn with
    ⟨b, f', heq, drawing', torn'⟩ | ⟨e, f', heq, he, drawing'⟩
  · simp only [Inflater.pull, heq]
    exact ⟨drawing', Or.inl torn'⟩
  · simp only [Inflater.pull, heq, if_neg he]
    exact ⟨drawing', Or.inr ⟨e, rfl, he⟩⟩

/-- After a `Read` that says `io.EOF` the message goes on. -/
theorem follows_read (h : r.Follows f) (n : ℕ) :
    (r.read (Feed.source chunkSource) n f).2.1.Follows (r.read (Feed.source chunkSource) n f).2.2 ∧
      ((r.read (Feed.source chunkSource) n f).1.2 = some .eof →
        Torn (r.read (Feed.source chunkSource) n f).2.2.src) := by
  refine Loop.run_keeps (fun x : Inflater F × Feed ReadSide => x.1.Follows x.2)
    (Q := fun out : (List UInt8 × Option Err) × Inflater F × Feed ReadSide =>
      out.2.1.Follows out.2.2 ∧ (out.1.2 = some .eof → Torn out.2.2.src)) ?_
    ⟨h, by simp⟩ h _
  rintro ⟨r, f⟩ ⟨drawing, hsrc⟩
  have heof : r.err = some .eof → Torn f.src := fun heq => hsrc.elim id fun ⟨e, he, hne⟩ =>
    absurd (Option.some.inj (he.symm.trans heq)) hne
  simp only [Inflater.readRound]
  by_cases hne : r.toRead ≠ []
  · rw [if_pos hne]
    refine ⟨⟨drawing, hsrc⟩, fun heq => ?_⟩
    dsimp only at heq
    split_ifs at heq with hrest
    exact heof heq
  · rw [if_neg hne]
    cases herr : r.err with
    | some e => exact ⟨⟨drawing, hsrc⟩, fun heq => heof (herr.trans heq)⟩
    | none =>
      refine follows_pull drawing (hsrc.elim id fun ⟨e, he, _⟩ => ?_)
      exact absurd (herr.symm.trans he) (by simp)

end Reader

end Feed

/-- A decompressor in a message that does not come to its end. -/
structure Decompressor.Going {F : Flate} (d : Decompressor F) : Prop where
  active : d.active = true
  busy : d.done = false
  streaming : d.streaming = true
  more : d.input.eof = false

namespace Inflation

open ReadSide

variable {F : Flate}

/-- What a read of the decompressor gives : no end of the message, and unless it stops it goes
on. -/
def Draws (out : (List UInt8 × Option Err) × Inflation F ReadSide) : Prop :=
  out.1.2 ≠ some .eof ∧ (Torn out.2.src ∨ Halted out.2.src) ∧ (out.1.2 = none → out.2.dec.Going)

theorem note_torn {x : Inflation F ReadSide} (going : x.dec.Going) {r : Inflater F}
    {f : Feed ReadSide} (h : r.Follows f) (p : List UInt8) :
    ((x.withFeed r f).note p).dec.Going ∧ ((x.withFeed r f).note p).dec.reader = r ∧
      ((x.withFeed r f).note p).feed = f := by
  rw [note_eq]
  refine ⟨⟨going.active, going.busy, going.streaming, h.1.more⟩, rfl, ?_⟩
  exact feed_withFeed (r := r) (h.1.streaming.trans going.streaming.symm)

/-- The end of a deflate stream is not the end of the message. -/
theorem readAfter_torn {x : Inflation F ReadSide} (going : x.dec.Going)
    (h : x.dec.reader.Follows x.feed) (p : List UInt8) {err : Option Err}
    (heof : err = some .eof → Torn x.src) :
    Sum.elim (fun x' => x'.dec.Going ∧ x'.dec.reader.Follows x'.feed) Draws (x.readAfter p err) := by
  cases err with
  | none =>
    simp only [readAfter]
    split_ifs
    · exact ⟨by simp, h.1.src, by simp⟩
    · exact ⟨by simp, h.1.src, fun _ => going⟩
  | some e =>
    by_cases he : e = .eof
    · subst he
      simp only [readAfter, if_true, h.1.not_exhausted, Bool.false_eq_true, if_false, dict,
        going.streaming]
      have hgoing : ∀ d, (x.restart d).dec.Going := fun d =>
        ⟨going.active, going.busy, going.streaming, going.more⟩
      by_cases hp : p = []
      · rw [if_neg (by simp [hp])]
        exact ⟨hgoing _, ⟨going.streaming, going.more, h.1.src⟩, Or.inl (heof rfl)⟩
      · rw [if_pos hp]
        exact ⟨by simp, h.1.src, fun _ => hgoing _⟩
    · simp only [readAfter, if_neg he]
      exact ⟨by simpa using he, h.1.src, by simp⟩

theorem read_torn {x : Inflation F ReadSide} (going : x.dec.Going) (torn : Torn x.src) (n : ℕ) :
    Draws (x.read chunkSource n) := by
  have hfollows : x.dec.reader.Follows x.feed :=
    ⟨⟨going.streaming, going.more, Or.inl torn⟩, Or.inl torn⟩
  rw [read, going.active, going.busy, Bool.not_true, if_neg (by simp), if_neg (by simp)]
  refine Loop.run_keeps (fun x : Inflation F ReadSide => x.dec.Going ∧ x.dec.reader.Follows x.feed)
    ?_ ⟨by simp, Or.inl torn, by simp⟩ ⟨going, hfollows⟩ _
  rintro x ⟨going, hfollows⟩
  obtain ⟨hread, heof⟩ := follows_read hfollows n
  simp only [readRound]
  generalize x.dec.reader.read (Feed.source chunkSource) n x.feed = out at hread heof
  obtain ⟨⟨p, err⟩, r, f⟩ := out
  obtain ⟨hgoing, hr, hf⟩ := note_torn going hread p
  refine readAfter_torn hgoing (by rw [hr, hf]; exact hread) p fun h => ?_
  have hsrc : ((x.withFeed r f).note p).src = f.src := congrArg Feed.src hf
  rw [hsrc]
  exact heof h

end Inflation

namespace Conn

open ReadSide

variable {F : Flate}

/-! ## Reading -/

/-- Inside a message that does not come to its end, or stopped for good. -/
inductive Torn (c : Conn F) : Prop
  | halted (halted : Halted c.side)
  | inside (torn : c.side.Torn)
      (dec : c.side.streaming = true → ∃ d, c.dec = some d ∧ d.Going)

theorem opened_torn {c : Conn F} (torn : c.side.Torn)
    (dec : c.side.streaming = true → ∃ d, c.dec = some d ∧ d.Going) :
    c.opened.1.dec.Going ∧ c.opened.1.src.Torn := by
  unfold opened
  cases hs : c.side.streaming with
  | true =>
    obtain ⟨d, hd, going⟩ := dec hs
    simp only [acquireDecompressor, hd, hs, if_true]
    exact ⟨going, torn⟩
  | false =>
    have hside : c.acquireDecompressor.2.side = c.side := by
      unfold acquireDecompressor
      cases c.dec <;> rfl
    generalize c.acquireDecompressor = out at hside
    obtain ⟨d, c₁⟩ := out
    dsimp only at hside ⊢
    rw [hside, hs, if_neg (by simp)]
    have hsrc : ∀ x : Inflation F ReadSide, x.start.src = x.src := by
      intro x
      simp only [Inflation.start, Inflation.begin]
      split_ifs <;> rfl
    exact ⟨⟨rfl, rfl, rfl, rfl⟩, by rw [hsrc]; exact torn.flags _ true⟩

theorem inflate_torn {c : Conn F} (torn : c.side.Torn)
    (dec : c.side.streaming = true → ∃ d, c.dec = some d ∧ d.Going) (n : ℕ) :
    (c.inflate n).1 ≠ .error .eof ∧ (c.inflate n).2.Torn := by
  obtain ⟨going, hsrc⟩ := opened_torn torn dec
  obtain ⟨heof, hafter, hgoing⟩ := Inflation.read_torn going hsrc n
  simp only [inflate]
  generalize c.opened.1.read chunkSource n = out at heof hafter hgoing
  obtain ⟨⟨p, err⟩, x⟩ := out
  cases err with
  | none =>
    refine ⟨by simp, ?_⟩
    rcases hafter with h | h
    · exact .inside h fun _ => ⟨x.dec, rfl, hgoing rfl⟩
    · exact .halted h
  | some e =>
    have he : e ≠ .eof := fun h => heof (congrArg some h)
    dsimp only
    rw [if_neg he]
    cases hr : (c.opened.2.settle x).side.readErr with
    | some r =>
      have hne : r ≠ .eof := ReadSide.Torn.ne_eof hafter hr
      exact ⟨fun h => hne (Except.error.inj h), .halted ⟨r, hr, hne⟩⟩
    | none =>
      dsimp only
      by_cases hsame : (c.opened.2.settle x).side.srcErr = some e
      · rw [if_pos hsame]
        exact ⟨fun h => he (Except.error.inj h), .halted ⟨e, rfl, he⟩⟩
      · rw [if_neg hsame]
        exact ⟨by simp, .halted (halted_fail _ (by simp))⟩

/-- `Read` in a message that does not come to its end. -/
theorem read_torn {c : Conn F} (h : c.Torn) (n : ℕ) :
    (c.read n).1 ≠ .error .eof ∧ (c.read n).2.Torn := by
  cases h with
  | halted halted =>
    obtain ⟨e, he, hne⟩ := halted
    simp only [read, he]
    exact ⟨fun heq => hne (Except.error.inj heq), .halted ⟨e, he, hne⟩⟩
  | inside torn dec =>
    simp only [read, torn.fine, torn.inMessage, Bool.not_true, Bool.false_eq_true, if_false]
    by_cases hn : n = 0
    · rw [if_pos hn]
      exact ⟨by simp, .inside torn dec⟩
    rw [if_neg hn]
    cases c.side.rx.compressed with
    | true => exact inflate_torn torn dec n
    | false =>
      obtain ⟨heof, hafter⟩ := torn.readPlain (Nat.pos_of_ne_zero hn)
      refine ⟨heof, ?_⟩
      rcases hafter with ⟨htorn, hs⟩ | halted
      · exact .inside htorn fun h => dec (hs.symm.trans h)
      · exact .halted halted

/-- Calls of `Read` one after another. -/
def reads (c : Conn F) : List ℕ → List (Except Err (List UInt8)) × Conn F
  | [] => ([], c)
  | n :: ns => ((c.read n).1 :: ((c.read n).2.reads ns).1, ((c.read n).2.reads ns).2)

theorem reads_torn : ∀ (ns : List ℕ) {c : Conn F}, c.Torn →
    ∀ r ∈ (c.reads ns).1, r ≠ .error .eof
  | [], _, _, r, hr => absurd hr (by simp [reads])
  | n :: ns, c, h, r, hr => by
    obtain ⟨heof, hafter⟩ := read_torn h n
    rcases List.mem_cons.mp hr with rfl | hr
    · exact heof
    · exact reads_torn ns hafter r hr

end Conn

end Ews
