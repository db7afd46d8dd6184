import Ews.Coupling

/-!
# Runs of read operations

The inflater draws from the reading side, and takes its message for complete only where it is
(`Decompressor.Drawing`) ; with that, what the reading side keeps is kept by every call on a
connection (`Conn.Held`) and by whole runs (`Conn.readOps_coupled`). The exception is a handler that
returns `io.EOF` while `discard` inflates what it skips (`Conn.readOps_pending`).
-/

set_option linter.unusedSectionVars false

namespace Ews

namespace ReadSide

variable {o : Origin} {s s' s'' : ReadSide}

/-! ## The source of an inflater -/

/-- Inside a message, unless reading has ended. -/
structure Engaged (o : Origin) (s : ReadSide) : Prop where
  kept : Kept o s
  entered : s.inMessage = false → s.readErr ≠ none

theorem Engaged.called (h : Engaged o s) {α : Type} {out : Except Err α × ReadSide}
    (call : Called o s out) : Engaged o out.2 where
  kept := call.kept
  entered := by
    rcases call.stays with same | stopped
    · rw [same.inMessage, same.readErr]
      exact h.entered
    · exact fun _ => stopped.1

theorem Engaged.next (h : Engaged o s) : Engaged o (chunkSource.next s).2 ∧
    ((chunkSource.next s).1 = .error .eof → Finished (chunkSource.next s).2) := by
  have hcall := h.kept.nextChunk
  have hinside := h.called hcall
  simp only [chunkSource]
  generalize s.nextChunk = out at hcall hinside
  obtain ⟨res, s'⟩ := out
  cases res with
  | ok chunk => exact ⟨hinside, fun he => by cases he⟩
  | error e =>
    dsimp only
    split_ifs with he
    · exact ⟨hinside, hcall.eof⟩
    · exact ⟨⟨hinside.kept.congr rfl rfl rfl rfl rfl, hinside.entered⟩,
        fun heq => absurd (Except.error.inj heq) he⟩

/-- The message reader knows the end of the message only where it is. -/
structure Feeds (o : Origin) (f : Feed ReadSide) : Prop where
  streaming : f.streaming = true
  inside : Engaged o f.src
  ended : f.input.eof = true → Finished f.src

theorem fill_feeds {m : MessageReader} (h : Engaged o s) (ended : m.eof = true → Finished s) :
    Engaged o (m.fill chunkSource s).2.2 ∧
      ((m.fill chunkSource s).2.1.eof = true → Finished (m.fill chunkSource s).2.2) := by
  refine Loop.run_keeps
    (fun x : MessageReader × ReadSide => Engaged o x.2 ∧ (x.1.eof = true → Finished x.2))
    (Q := fun out : Except Err Bool × MessageReader × ReadSide =>
      Engaged o out.2.2 ∧ (out.2.1.eof = true → Finished out.2.2)) ?_ ⟨h, ended⟩ ⟨h, ended⟩ _
  rintro ⟨m, s⟩ ⟨h, ended⟩
  obtain ⟨hinside, heof⟩ := h.next
  simp only [MessageReader.fillRound]
  by_cases hmore : m.payload = [] ∧ m.eof = false
  · rw [if_pos hmore]
    generalize chunkSource.next s = out at hinside heof
    obtain ⟨res, s'⟩ := out
    have hnot : ¬ m.eof = true := by simp [hmore.2]
    cases res with
    | ok chunk => exact ⟨hinside, fun he => absurd he hnot⟩
    | error e =>
      dsimp only
      split_ifs with he
      · exact ⟨hinside, fun _ => heof (congrArg Except.error he)⟩
      · exact ⟨hinside, fun he => absurd he hnot⟩
  · rw [if_neg hmore]
    exact ⟨h, ended⟩

theorem Feeds.next {f : Feed ReadSide} (h : Feeds o f) :
    Feeds o ((Feed.source chunkSource).next f).2 := by
  obtain ⟨hinside, hended⟩ := fill_feeds h.inside h.ended
  simp only [Feed.source, Feed.next, if_pos h.streaming, MessageReader.readByte]
  generalize f.input.fill chunkSource f.src = out at hinside hended
  obtain ⟨res, m, s⟩ := out
  cases res with
  | error e => exact ⟨h.streaming, hinside, hended⟩
  | ok more =>
    cases more with
    | true =>
      dsimp only
      cases m.payload <;> exact ⟨h.streaming, hinside, hended⟩
    | false =>
      dsimp only
      cases m.tail <;> exact ⟨h.streaming, hinside, hended⟩

end ReadSide

open ReadSide

variable {F : Flate} {o : Origin}

/-- A decompressor whose message reader draws from `s`. -/
structure Decompressor.Drawing (d : Decompressor F) (s : ReadSide) : Prop where
  streaming : d.streaming = true
  eof : d.input.eof = true → Finished s
  done : d.done = true → Finished s

namespace Inflation

/-- After a read : at its end the message has ended, and a decompressor still at work draws from
the source. -/
structure Drawn (o : Origin) (out : (List UInt8 × Option Err) × Inflation F ReadSide) : Prop where
  inside : Engaged o out.2.src
  eof : out.1.2 = some .eof → Finished out.2.src
  drawing : out.2.dec.active = true → out.2.dec.Drawing out.2.src

theorem readAfter_drawn {x : Inflation F ReadSide} (inside : Engaged o x.src)
    (drawing : x.dec.Drawing x.src) (busy : x.dec.done = false) (p : List UInt8)
    (err : Option Err) :
    Sum.elim (fun y => Engaged o y.src ∧ y.dec.Drawing y.src ∧ y.dec.done = false) (Drawn o)
      (x.readAfter p err) := by
  have hdict : (x.dict p).2 = x := by simp [dict, drawing.streaming]
  have hexhausted : x.feed.exhausted = true → Finished x.src := by
    intro h
    simp only [Feed.exhausted, feed, drawing.streaming, if_true, MessageReader.exhausted,
      Bool.and_eq_true] at h
    exact drawing.eof h.1.1
  cases err with
  | none =>
    simp only [readAfter]
    split_ifs
    · exact ⟨inside, fun he => (by cases he), fun ha => by cases ha⟩
    · exact ⟨inside, fun he => (by cases he), fun _ => drawing⟩
  | some e =>
    simp only [readAfter, hdict]
    have hrestart : ∀ d, (x.restart d).dec.Drawing x.src := fun d =>
      ⟨drawing.streaming, drawing.eof, drawing.done⟩
    split_ifs with he hex
    · exact ⟨inside, fun _ => hexhausted hex, fun ha => by cases ha⟩
    · exact ⟨inside, fun he => (by cases he),
        fun _ => ⟨drawing.streaming, drawing.eof, fun _ => hexhausted hex⟩⟩
    · exact ⟨inside, fun he => (by cases he), fun _ => hrestart _⟩
    · exact ⟨inside, hrestart _, busy⟩
    · exact ⟨inside, fun heq => absurd (Option.some.inj heq) he, fun ha => by cases ha⟩

theorem read_drawn {x : Inflation F ReadSide} (inside : Engaged o x.src)
    (drawing : x.dec.active = true → x.dec.Drawing x.src) (n : ℕ) :
    Drawn o (x.read chunkSource n) := by
  unfold read
  split_ifs with hactive hdone
  · refine ⟨inside, fun he => (by cases he), drawing⟩
  · have hdraw := drawing (by simpa using hactive)
    exact ⟨inside, fun _ => hdraw.done hdone, fun ha => by cases ha⟩
  · have hdraw := drawing (by simpa using hactive)
    refine Loop.run_keeps
      (fun y : Inflation F ReadSide => Engaged o y.src ∧ y.dec.Drawing y.src ∧ y.dec.done = false)
      ?_ ⟨inside, fun he => (by cases he), drawing⟩ ⟨inside, hdraw, by simpa using hdone⟩ _
    rintro y ⟨inside, drawing, busy⟩
    have hfeeds : Feeds o y.feed := ⟨drawing.streaming, inside, drawing.eof⟩
    have hread := Inflater.read_keeps (fun f hf => hf.next) hfeeds y.dec.reader n
    simp only [readRound]
    generalize y.dec.reader.read (Feed.source chunkSource) n y.feed = out at hread
    obtain ⟨⟨p, err⟩, r, f⟩ := out
    have hsrc : ((y.withFeed r f).note p).src = f.src := by rw [note_eq]; rfl
    have hbusy : ((y.withFeed r f).note p).dec.done = false := by rw [note_eq]; exact busy
    refine readAfter_drawn (by rw [hsrc]; exact hread.inside) ?_ hbusy p err
    rw [hsrc]
    refine ⟨?_, ?_, fun hd => absurd (hbusy.symm.trans hd) (by decide)⟩
    · rw [note_eq]
      exact drawing.streaming
    · rw [note_eq]
      exact hread.ended

section Window

variable {τ : Type} {C : ChunkSource τ} {x : Inflation F τ}

theorem unwindowed_finish (h : x.window = none) (ok : Bool) : (x.finish ok).window = none := by
  simp [finish, h]

theorem unwindowed_begin (h : x.window = none) (payload : Option (List UInt8)) :
    (x.begin payload).window = none := by
  unfold begin
  dsimp only
  split_ifs
  · exact unwindowed_finish h false
  · exact h

theorem unwindowed_read (h : x.window = none) (n : ℕ) : (x.read C n).2.window = none := by
  unfold read
  split_ifs
  · exact h
  · exact unwindowed_finish h true
  · refine Loop.run_keeps (fun y : Inflation F τ => y.window = none)
      (Q := fun out : (List UInt8 × Option Err) × Inflation F τ => out.2.window = none)
      (fun y hy => ?_) h h _
    simp only [readRound]
    generalize y.dec.reader.read (Feed.source C) n y.feed = out
    obtain ⟨⟨p, err⟩, r, f⟩ := out
    have hnote : ((y.withFeed r f).note p).window = none := by
      unfold note withFeed
      split_ifs <;> simp [hy]
    have hdict : ((((y.withFeed r f).note p).dict p).2).window = none := by
      unfold dict
      split_ifs <;> simp [hnote]
    generalize (y.withFeed r f).note p = z at hnote hdict
    cases err with
    | none =>
      simp only [readAfter]
      split_ifs
      · exact unwindowed_finish hnote false
      · exact hnote
    | some e =>
      simp only [readAfter]
      split_ifs
      · exact unwindowed_finish hnote true
      · exact hnote
      · exact hdict
      · exact hdict
      · exact unwindowed_finish hnote false

theorem unwindowed_decompress (h : x.window = none) (payload : List UInt8) (maxSize : ℤ) :
    (x.decompress C payload maxSize).2.window = none := by
  have hreserve : ∀ y : Inflation F τ, (y.reserve payload maxSize.toNat).window = y.window := by
    intro y
    unfold reserve
    cases y.reserveRequest payload maxSize.toNat <;> rfl
  have hgrow : ∀ y : Inflation F τ, y.growFull.window = y.window := by
    intro y
    unfold growFull grow
    split_ifs
    · cases y.growRequest y.growth <;> rfl
    · rfl
  unfold decompress
  split_ifs
  · exact h
  · have hstart := (hreserve { x.begin (some payload) with
      dec := { (x.begin (some payload)).dec with output := [] } }).trans
        (unwindowed_begin h (some payload))
    refine Loop.run_keeps (fun y : Inflation F τ => y.window = none)
      (Q := fun out : Except Err (List UInt8) × Inflation F τ => out.2.window = none)
      (fun y hy => ?_) hstart hstart _
    have hread := unwindowed_read (C := C) ((hgrow y).trans hy) (y.growFull.readSize maxSize.toNat)
    simp only [decompressRound]
    generalize Inflation.read C (y.growFull.readSize maxSize.toNat) y.growFull = out at hread
    obtain ⟨⟨p, err⟩, z⟩ := out
    simp only [decompressAfter]
    split_ifs
    · exact unwindowed_finish
        (x := { z with dec := { z.dec with output := z.dec.output ++ p } }) hread _
    · exact unwindowed_finish
        (x := { z with dec := { z.dec with output := z.dec.output ++ p } }) hread _
    · cases err <;> exact hread

end Window

end Inflation

/-! ## The connection -/

namespace Conn

variable {c : Conn F} {s : ReadSide}

/-- What every call on a connection keeps, since it was new. -/
structure Held (o : Origin) (c : Conn F) : Prop where
  kept : Kept o c.side
  outside : c.side.inMessage = false → Clear c.side
  drawing : c.side.streaming = true → ∀ d, c.dec = some d → d.active = true → d.Drawing c.side
  window : o.takeover = false → c.window = none

/-- Without a message streamed through the inflater. -/
theorem held_of_quiet (kept : Kept o c.side) (outside : c.side.inMessage = false → Clear c.side)
    (quiet : c.side.streaming = false) (window : o.takeover = false → c.window = none) : Held o c :=
  ⟨kept, outside, fun hs => absurd (quiet.symm.trans hs) (by decide), window⟩

theorem held_of_stopped (kept : Kept o c.side) (stopped : Stopped c.side)
    (window : o.takeover = false → c.window = none) : Held o c :=
  held_of_quiet kept (fun _ => stopped.clear) stopped.2 window

/-- After a loop of the reading side, inside a message. -/
theorem Held.left (h : Held o c) (hin : c.side.inMessage = true) (left : Leaves o c.side s)
    (finished : Finished c.side → Finished s ∨ Stopped s) : Held o { c with side := s } where
  kept := left.kept
  outside := left.outside hin
  drawing := fun hstream d hd hactive => by
    have hnot : ¬ Stopped s := fun stopped => absurd (stopped.2.symm.trans hstream) (by decide)
    have hdraw := h.drawing (left.streaming hstream) d hd hactive
    exact ⟨hdraw.streaming, fun he => (finished (hdraw.eof he)).resolve_right hnot,
      fun he => (finished (hdraw.done he)).resolve_right hnot⟩
  window := h.window

theorem acquire_idle (h : c.dec = none) : c.acquireDecompressor.1.active = false := by
  simp only [acquireDecompressor, h]
  cases hp : c.pool c.gets with
  | none => rfl
  | some d => exact d.2.active

theorem acquire_rest (c : Conn F) : c.acquireDecompressor.2.side = c.side ∧
    c.acquireDecompressor.2.window = c.window := by
  unfold acquireDecompressor
  cases c.dec <;> exact ⟨rfl, rfl⟩

theorem Held.opened (h : Held o c) (entered : c.side.inMessage = false → c.side.readErr ≠ none) :
    Engaged o c.opened.1.src ∧
      (c.opened.1.dec.active = true → c.opened.1.dec.Drawing c.opened.1.src) ∧
      (o.takeover = false → c.opened.1.window = none) := by
  obtain ⟨hside, hwindow⟩ := acquire_rest c
  have hidle := acquire_idle (c := c)
  have hattached : ∀ d, c.dec = some d → c.acquireDecompressor.1 = d := by
    intro d hd
    simp [acquireDecompressor, hd]
  unfold Conn.opened
  generalize c.acquireDecompressor = out at hside hwindow hidle hattached
  obtain ⟨d, c'⟩ := out
  dsimp only at hside hwindow hidle hattached ⊢
  rw [hside]
  cases hstream : c.side.streaming with
  | true =>
    rw [if_pos rfl]
    refine ⟨?_, fun hactive => ?_, ?_⟩
    · rw [inflation, hside]
      exact ⟨h.kept, entered⟩
    · rw [inflation, hside]
      cases hd : c.dec with
      | none => exact absurd (hactive.symm.trans (hidle hd)) (by decide)
      | some d' =>
        cases hattached d' hd
        exact h.drawing hstream d hd hactive
    · rw [inflation, hwindow]
      exact h.window
  | false =>
    rw [if_neg (by simp)]
    have hsrc : ∀ x : Inflation F ReadSide, x.start.src = x.src := by
      intro x
      unfold Inflation.start Inflation.begin
      split_ifs <;> rfl
    refine ⟨?_, fun _ => ⟨rfl, fun he => (by cases he), fun he => by cases he⟩, ?_⟩
    · rw [hsrc]
      exact ⟨h.kept.flags _ true, entered⟩
    · exact fun htake => Inflation.unwindowed_begin (hwindow.trans (h.window htake)) none

theorem Held.inflate (h : Held o c) (entered : c.side.inMessage = false → c.side.readErr ≠ none)
    (n : ℕ) : Held o (c.inflate n).2 ∧
      (∀ p, (c.inflate n).1 = .ok p →
        (c.inflate n).2.side.inMessage = false → (c.inflate n).2.side.readErr ≠ none) ∧
      (o.NeverEof → (c.inflate n).1 = .error .eof → (c.inflate n).2.side.rx.remaining = 0) := by
  obtain ⟨hinside, hdrawing, hwin⟩ := h.opened entered
  have hread := Inflation.read_drawn hinside hdrawing n
  have hwin := fun htake => Inflation.unwindowed_read (C := chunkSource) (hwin htake) n
  unfold Conn.inflate
  dsimp only
  generalize c.opened = out at hread hwin
  obtain ⟨x, c'⟩ := out
  dsimp only at hread hwin ⊢
  generalize x.read chunkSource n = out at hread hwin
  obtain ⟨⟨p, err⟩, y⟩ := out
  have hsettle : Held o (c'.settle y) := by
    refine ⟨hread.inside.kept, fun hin hnone => absurd hnone (hread.inside.entered hin),
      fun _ d hd hactive => ?_, hwin⟩
    cases hd
    exact hread.drawing hactive
  cases err with
  | none => exact ⟨hsettle, fun _ _ => hread.inside.entered, fun _ he => by cases he⟩
  | some e =>
    dsimp only
    by_cases heof : e = .eof
    · subst heof
      rw [if_pos rfl]
      have hfinished : Finished y.src := hread.eof rfl
      have hkept := hread.inside.kept.flags false false
      exact ⟨held_of_quiet hkept (fun _ => hfinished.clear) rfl hwin, fun p hp => (by cases hp),
        fun _ _ => hfinished.1⟩
    · rw [if_neg heof]
      cases hreadErr : (c'.settle y).side.readErr with
      | some r =>
        refine ⟨hsettle, fun p hp => (by cases hp), fun never he => ?_⟩
        cases he
        exact absurd hreadErr (hsettle.kept.readErr never)
      | none =>
        dsimp only
        split_ifs
        · have hkept := hsettle.kept.terminate fun _ => heof
          refine ⟨held_of_stopped hkept (stopped_terminate _ e) hwin, fun p hp => (by cases hp),
            fun _ he => absurd (Except.error.inj he) heof⟩
        · refine ⟨held_of_stopped (hsettle.kept.fail (excused_of_failure ⟨_, _, rfl⟩))
            (stopped_fail _ _) hwin, fun p hp => (by cases hp), fun _ he => by cases he⟩

theorem Held.pour (h : Held o c) (entered : c.side.inMessage = false → c.side.readErr ≠ none) :
    Held o c.pour.2 ∧ (o.NeverEof → c.pour.1 = .ok () → c.pour.2.side.rx.remaining = 0) := by
  refine Loop.run_keeps
    (fun c : Conn F => Held o c ∧ (c.side.inMessage = false → c.side.readErr ≠ none))
    (Q := fun out : Except Err Unit × Conn F => Held o out.2 ∧
      (o.NeverEof → out.1 = .ok () → out.2.side.rx.remaining = 0)) (fun c hc => ?_)
    ⟨h, fun _ he => by cases he⟩ ⟨h, entered⟩ _
  obtain ⟨hheld, hentered, heof⟩ := hc.1.inflate hc.2 c.side.settings.fragmentSize
  unfold pourRound
  generalize c.inflate c.side.settings.fragmentSize = out at hheld hentered heof
  obtain ⟨res, c'⟩ := out
  cases res with
  | ok p => exact ⟨hheld, hentered p rfl⟩
  | error e =>
    refine ⟨hheld, fun never hok => heof never ?_⟩
    dsimp only at hok ⊢
    split_ifs at hok with he
    rw [he]

/-- `discard` leaves the message, with its frame drained. -/
theorem Held.discard (h : Held o c) (hnone : c.side.readErr = none) :
    Held o c.discard.2 ∧ (c.discard.1 = .ok () → c.discard.2.side.inMessage = false ∧
      c.discard.2.side.streaming = false ∧ (o.Plain → c.discard.2.side.rx.remaining = 0)) := by
  -- The inflater first, if it has to follow.
  have hfirst : ∀ out, (if c.side.inMessage && c.side.rx.compressed && c.window.isSome then
      c.staging.pour else (.ok (), c)) = out → Held o out.2 ∧
        (o.Plain → out.1 = .ok () → out.2.side.inMessage = false →
          out.2.side.rx.remaining = 0) := by
    rintro out rfl
    split_ifs with hpour
    · simp only [Bool.and_eq_true] at hpour
      obtain ⟨⟨hin, -⟩, hwindow⟩ := hpour
      have hstaging : Held o c.staging := ⟨h.kept, h.outside, h.drawing, h.window⟩
      obtain ⟨hheld, hok⟩ := hstaging.pour fun hout => absurd (hin.symm.trans hout) (by decide)
      refine ⟨hheld, fun hplain hpoured _ => ?_⟩
      rcases hplain with never | htake
      · exact hok never hpoured
      · simp [h.window htake] at hwindow
    · exact ⟨h, fun _ _ hout => (h.outside hout hnone).1⟩
  unfold Conn.discard
  generalize (if c.side.inMessage && c.side.rx.compressed && c.window.isSome then
    c.staging.pour else (.ok (), c)) = out at hfirst
  obtain ⟨res, c'⟩ := out
  obtain ⟨hheld, hok⟩ := hfirst _ rfl
  cases res with
  | error e => exact ⟨hheld, fun he => by cases he⟩
  | ok _ =>
    obtain ⟨hkept, hout, hquiet, hskip⟩ := skip_quiet (hheld.kept.flags c'.side.inMessage false)
      hheld.outside rfl
    exact ⟨held_of_quiet hkept hout hquiet hheld.window,
      fun he => ⟨(hskip he).1, hquiet, fun hplain => (hskip he).2 (hok hplain rfl)⟩⟩

/-- `nextFrame` inside a frame : `Next` refuses. -/
theorem nextFrame_pending (h : Kept o s) (hr : s.rx.remaining ≠ 0) : s.nextFrame =
    (.error .payloadPending,
      ReadSide.fail { s with nextErrs := s.nextErrs ++ [.payloadPending] } .payloadPending) := by
  obtain ⟨wire, -, hsound⟩ := h.taken
  have hlive := Receiver.dead_eq_false.mp (Receiver.live_of_remaining hsound.coupled hr)
  have hnext : s.rx.next = (.error .payloadPending, s.rx) := by
    simp [Receiver.next, hlive.1, hr]
  simp [ReadSide.nextFrame, Loop.run, Loop.iterate, ReadSide.nextFrameRound, hnext]

/-- The end of `NextMessage`. -/
theorem Held.enter (h : Held o c) (hin : c.side.inMessage = false)
    (quiet : c.side.streaming = false) (hr : o.Plain → c.side.rx.remaining = 0) :
    Held o c.enter.2 ∧ (∀ op, c.enter.1 = .ok op →
      c.enter.2.side.inMessage = true ∧ c.enter.2.side.streaming = false) := by
  unfold Conn.enter
  by_cases hdrained : c.side.rx.remaining = 0
  · obtain ⟨hcall, hwait⟩ := h.kept.nextFrame_waiting hdrained
    generalize c.side.nextFrame = out at hcall hwait
    obtain ⟨res, s⟩ := out
    cases res with
    | ok _ =>
      have hquiet : s.streaming = false := (hcall.ok () rfl).streaming.trans quiet
      have hkept := hcall.kept.flags true s.streaming
      exact ⟨held_of_quiet hkept (fun he => by cases he) hquiet h.window, fun _ _ => ⟨rfl, hquiet⟩⟩
    | error e =>
      refine ⟨?_, fun op hop => by cases hop⟩
      rcases hwait (by simp) with ⟨drained, messageOpen, same⟩ | stopped
      · refine held_of_quiet hcall.kept (fun _ hnone => ⟨drained, ?_⟩) (same.streaming.trans quiet)
          h.window
        exact messageOpen.trans (h.outside hin (same.readErr.symm.trans hnone)).2
      · exact held_of_stopped hcall.kept stopped h.window
  · rw [nextFrame_pending h.kept hdrained]
    refine ⟨?_, fun op hop => by cases hop⟩
    have hrefused : Kept o { c.side with nextErrs := c.side.nextErrs ++ [.payloadPending] } :=
      ⟨h.kept.settings, h.kept.taken, fun hplain => absurd (hr hplain) hdrained, h.kept.readErr⟩
    have hexcused : o.Excused .payloadPending := fun _ he => by cases he
    exact held_of_stopped (hrefused.fail hexcused) (stopped_fail _ _) h.window

theorem Held.nextMessage (h : Held o c) :
    Held o c.nextMessage.2 ∧ (∀ op, c.nextMessage.1 = .ok op →
      c.nextMessage.2.side.inMessage = true ∧ c.nextMessage.2.side.streaming = false) := by
  unfold Conn.nextMessage
  cases hnone : c.side.readErr with
  | some e => exact ⟨h, fun op hop => by cases hop⟩
  | none =>
    obtain ⟨hheld, hok⟩ := h.discard hnone
    dsimp only
    generalize c.discard = out at hheld hok
    obtain ⟨res, c'⟩ := out
    cases res with
    | error e => exact ⟨hheld, fun op hop => by cases hop⟩
    | ok _ =>
      obtain ⟨hin, hquiet, hr⟩ := hok rfl
      have hside : c'.releaseDecompressor.releaseMsg.side = c'.side := by
        unfold releaseDecompressor
        split <;> rfl
      have hwin : o.takeover = false → c'.releaseDecompressor.releaseMsg.window = none := by
        intro htake
        have hw := hheld.window htake
        unfold releaseDecompressor
        cases c'.dec with
        | none => exact hw
        | some d =>
          show (if c'.large then (c'.inflation d).releaseOutput
            else (c'.inflation d).reset).window = none
          split_ifs <;> exact Inflation.unwindowed_finish hw false
      refine Held.enter ?_ (by rw [hside]; exact hin) (by rw [hside]; exact hquiet)
        (by rw [hside]; exact hr)
      exact held_of_quiet (by rw [hside]; exact hheld.kept) (by rw [hside]; exact hheld.outside)
        (by rw [hside]; exact hquiet) hwin

theorem Held.read (h : Held o c) (n : ℕ) : Held o (c.read n).2 := by
  unfold Conn.read
  cases hnone : c.side.readErr with
  | some e => exact h
  | none =>
    dsimp only
    split_ifs with hin hn hcompressed
    · exact h
    · exact h
    all_goals have hin : c.side.inMessage = true := by simpa using hin
    · exact (h.inflate (fun hout => absurd (hin.symm.trans hout) (by decide)) n).1
    · exact h.left hin (h.kept.readPlain n) fun hfinished => hfinished.readPlain hnone n

theorem Held.relayRound {x : Relay (Conn F)} (h : Held o x.conn)
    (entered : x.conn.side.inMessage = false → x.conn.side.readErr ≠ none) :
    Sum.elim (fun y : Relay (Conn F) => Held o y.conn ∧
        (y.conn.side.inMessage = false → y.conn.side.readErr ≠ none))
      (fun out : Option Err × Relay (Conn F) => Held o out.2.conn) (Conn.relayRound x) := by
  obtain ⟨hheld, hentered, -⟩ := h.inflate entered x.conn.side.settings.fragmentSize
  unfold Conn.relayRound
  generalize x.conn.inflate x.conn.side.settings.fragmentSize = out at hheld hentered
  obtain ⟨res, c'⟩ := out
  cases res with
  | error e => exact hheld
  | ok p =>
    have hhand : (Relay.hand { x with conn := c' } p).2.conn = c' := by
      unfold Relay.hand
      dsimp only
      split <;> rfl
    dsimp only
    generalize Relay.hand { x with conn := c' } p = out at hhand
    obtain ⟨res, y⟩ := out
    obtain ⟨total, writer, conn, held⟩ := y
    obtain rfl : conn = c' := hhand
    cases res with
    | some e => exact hheld
    | none => exact ⟨hheld, hentered p rfl⟩

theorem Held.writeTo (h : Held o c) (w : ReadSide.Writer) : Held o (c.writeTo w).2.conn := by
  unfold Conn.writeTo
  cases hnone : c.side.readErr with
  | some e => exact h
  | none =>
    dsimp only
    split_ifs with hin hcompressed
    · exact h
    all_goals have hin : c.side.inMessage = true := by simpa using hin
    · have hstaging : Held o c.staging := ⟨h.kept, h.outside, h.drawing, h.window⟩
      have hentered : c.staging.side.inMessage = false → c.staging.side.readErr ≠ none :=
        fun hout => absurd (hin.symm.trans hout) (by decide)
      exact Loop.run_keeps (fun y : Relay (Conn F) => Held o y.conn ∧
          (y.conn.side.inMessage = false → y.conn.side.readErr ≠ none))
        (Q := fun out : Option Err × Relay (Conn F) => Held o out.2.conn)
        (fun y hy => hy.1.relayRound hy.2) hstaging ⟨hstaging, hentered⟩ _
    · have hleft := h.left hin (h.kept.relay w c.held) fun hfinished =>
        hfinished.relay hnone w c.held
      exact ⟨hleft.kept, hleft.outside, hleft.drawing, hleft.window⟩

theorem Held.fail (h : Held o c) {e : Err} (he : Receiver.IsFailure e) : Held o (c.fail e) :=
  held_of_stopped (h.kept.fail (excused_of_failure he)) (stopped_fail c.side e) h.window

/-- A whole message is inflated without reading on. -/
theorem Held.decompress (h : Held o c) (quiet : c.side.streaming = false) (payload : List UInt8) :
    Held o (c.decompress payload).2 := by
  obtain ⟨hside, hwindow⟩ := acquire_rest c
  unfold Conn.decompress
  generalize c.acquireDecompressor = out at hside hwindow
  obtain ⟨d, c'⟩ := out
  dsimp only at hside hwindow ⊢
  have hsrc := Inflation.decompress_src chunkSource payload c'.side.settings.limit (c'.inflation d)
  have hwin := fun htake => Inflation.unwindowed_decompress (C := chunkSource)
    (x := c'.inflation d) (hwindow.trans (h.window htake)) payload c'.side.settings.limit
  generalize (c'.inflation d).decompress chunkSource payload c'.side.settings.limit = out
    at hsrc hwin
  obtain ⟨res, x⟩ := out
  have hside' : x.src = c.side := hsrc.trans hside
  have hsettle : Held o (c'.settle x) := by
    refine held_of_quiet ?_ ?_ ?_ hwin
    · rw [settle, hside']
      exact h.kept
    · rw [settle, hside']
      exact h.outside
    · rw [settle, hside']
      exact quiet
  cases res with
  | error e =>
    refine hsettle.fail ?_
    split_ifs
    · exact ⟨_, _, rfl⟩
    · exact ⟨_, _, rfl⟩
  | ok out => exact ⟨hsettle.kept, hsettle.outside, hsettle.drawing, hsettle.window⟩

theorem Held.finishMessage (kept : Kept o c.side) (finished : Finished c.side)
    (quiet : c.side.streaming = false) (window : o.takeover = false → c.window = none) (op : Opcode)
    (payload : List UInt8) : Held o (c.finishMessage op payload).2 := by
  have hout : Held o { c with side := { c.side with inMessage := false } } :=
    held_of_quiet (kept.flags false c.side.streaming) (fun _ => finished.clear) quiet window
  have hwhole := hout.decompress quiet payload
  have hchecked : ∀ {c' : Conn F} {P : Prop} [Decidable P] {x : Opcode × List UInt8}, Held o c' →
      Held o (if P then ((.error (.failure 1007 .invalidUTF8) : Except Err (Opcode × List UInt8)),
        c'.fail (.failure 1007 .invalidUTF8)) else (.ok x, c')).2 := by
    intro c' P _ x hc
    split_ifs
    · exact hc.fail ⟨_, _, rfl⟩
    · exact hc
  unfold Conn.finishMessage
  dsimp only
  by_cases hcompressed : c.side.rx.compressed = true
  · rw [if_pos hcompressed]
    generalize Conn.decompress _ payload = out at hwhole
    obtain ⟨res, c'⟩ := out
    cases res with
    | error e => exact hwhole
    | ok payload => exact hchecked hwhole
  · rw [if_neg hcompressed]
    exact hchecked hout

theorem Held.readMessage (h : Held o c) : Held o c.readMessage.2 := by
  obtain ⟨hheld, hentered⟩ := h.nextMessage
  unfold Conn.readMessage
  generalize c.nextMessage = out at hheld hentered
  obtain ⟨res, c'⟩ := out
  cases res with
  | error e => exact hheld
  | ok op =>
    obtain ⟨hin, hquiet⟩ := hentered op rfl
    have hassemble := hheld.kept.assemble c'.held
    dsimp only at hin hquiet hassemble ⊢
    generalize c'.side.assemble c'.held = out at hassemble
    obtain ⟨res, msg, s⟩ := out
    have hquiet' : s.streaming = false :=
      hassemble.stays.elim (fun same => same.streaming.trans hquiet) fun stopped => stopped.2
    cases res with
    | error e =>
      rcases hassemble.stays with same | stopped
      · refine held_of_quiet hassemble.kept (fun hout => ?_) hquiet' hheld.window
        exact absurd (hin.symm.trans (same.inMessage.symm.trans hout)) (by decide)
      · exact held_of_stopped hassemble.kept stopped hheld.window
    | ok payload =>
      exact Held.finishMessage (c := { c' with side := s, held := msg.held }) hassemble.kept
        (hassemble.finished payload rfl) hquiet' hheld.window
        op payload

/-! ## Runs -/

/-- A call on the reading side of a connection. -/
inductive ReadOp
  | nextMessage
  | read (n : ℕ)
  | writeTo (w : ReadSide.Writer)
  | readMessage

/-- The connection after a call. -/
def readOp (c : Conn F) : ReadOp → Conn F
  | .nextMessage => c.nextMessage.2
  | .read n => (c.read n).2
  | .writeTo w => (c.writeTo w).2.conn
  | .readMessage => c.readMessage.2

/-- The connection after some calls. -/
def readOps (c : Conn F) : List ReadOp → Conn F
  | [] => c
  | op :: ops => (c.readOp op).readOps ops

theorem Held.readOp (h : Held o c) (op : ReadOp) : Held o (c.readOp op) := by
  cases op with
  | nextMessage => exact h.nextMessage.1
  | read n => exact h.read n
  | writeTo w => exact h.writeTo w
  | readMessage => exact h.readMessage

theorem Held.readOps (h : Held o c) (ops : List ReadOp) : Held o (c.readOps ops) := by
  induction ops generalizing c with
  | nil => exact h
  | cons op ops ih => exact ih (h.readOp op)

theorem held_newConn {cfg : Config} {transport : Transport}
    {pool : ℕ → Option { d : Decompressor F // d.Idle }} {c₀ : Conn F}
    (hnew : newConn cfg transport pool = .ok c₀) :
    Held ⟨c₀.side.settings, transport.bytes, c₀.window.isSome⟩ c₀ := by
  unfold newConn at hnew
  split_ifs at hnew
  cases hnew
  refine held_of_quiet ⟨rfl, ⟨[], rfl, Receiver.sound_init _ _⟩, fun _ => List.not_mem_nil,
    fun _ he => (by cases he)⟩ (fun _ _ => ⟨rfl, rfl⟩) rfl fun htake => ?_
  simpa using htake

/-- The receiver and its decoder stay coupled, whatever is read and however the calls end. Where
the handler does not return `io.EOF`, or the peer's history is not kept, `Next` never refuses
`nextFrame` because of payload left. -/
theorem readOps_coupled {cfg : Config} {transport : Transport}
    {pool : ℕ → Option { d : Decompressor F // d.Idle }} {c₀ : Conn F}
    (hnew : newConn cfg transport pool = .ok c₀) (ops : List ReadOp) :
    ((c₀.readOps ops).side.rx.dead = false →
      ∃ wire, transport.bytes = wire ++ (c₀.readOps ops).side.transport.bytes ∧
        (c₀.readOps ops).side.rx.InStep wire) ∧
    ((∀ calls ev, cfg.handler calls ev ≠ some .eof) ∨
      (∀ comp, cfg.compression = some comp → comp.receiveContextTakeover = false) →
        .payloadPending ∉ (c₀.readOps ops).side.nextErrs) := by
  have hheld := (held_newConn hnew).readOps ops
  refine ⟨fun hlive => ?_, fun hcond => hheld.kept.nextErrs ?_⟩
  · obtain ⟨wire, hbytes, hsound⟩ := hheld.kept.taken
    exact ⟨wire, hbytes, hsound.inStep hlive⟩
  · unfold newConn at hnew
    split_ifs at hnew
    cases hnew
    refine hcond.imp id fun htake => ?_
    cases hcomp : cfg.compression with
    | none => simp
    | some comp => simp [Config.window, htake comp hcomp]

/-- A masked text message of three bytes. -/
def maskedStream : Transport :=
  [.data [0x81, 0x83, 1, 2, 3, 4, 0x69, 0x6b, 0x22]]

theorem readOps_coupled_masked : ∃ c₀ : Conn .stored,
    newConn {} maskedStream (fun _ => none) = .ok c₀ ∧
      (c₀.readOps [.nextMessage, .read 2]).side.rx.maskOffset = 2 ∧
      (∃ wire, maskedStream.bytes =
        wire ++ (c₀.readOps [.nextMessage, .read 2]).side.transport.bytes ∧
        (c₀.readOps [.nextMessage, .read 2]).side.rx.InStep wire) ∧
      .payloadPending ∉ (c₀.readOps [.nextMessage, .read 2]).side.nextErrs := by
  have hcoupled := @readOps_coupled .stored {} maskedStream (fun _ => none) _ rfl
    [.nextMessage, .read 2]
  exact ⟨_, rfl, by decide +kernel, hcoupled.1 (by decide +kernel),
    hcoupled.2 (Or.inl fun _ _ he => by cases he)⟩

/-- A client that keeps the server's history, inflates byte by byte what it skips, and whose handler
answers every control frame with `io.EOF`. -/
def eofConfig : Config where
  role := .client
  fragmentSize := 1
  compression := some { receiveContextTakeover := true }
  handler := fun _ _ => some .eof

/-- A fragment of a compressed message, a ping, and the start of the next fragment. -/
def eofStream : Transport :=
  [.data [0x41, 5, 0, 9, 0, 0xf6, 0xff, 0x89, 0, 0x80, 3, 6]]

/-- The ping's `io.EOF` ends the message for the inflater, which starts again in the next fragment ;
what it cannot inflate there is reported as the `io.EOF` on record, and `discard` takes that for the
end of the message, with two bytes of the fragment left. -/
theorem readOps_pending :
    ((newConn (F := .stored) eofConfig eofStream fun _ => none).toOption.map fun c =>
      ((c.readOps [.nextMessage, .nextMessage]).side.nextErrs,
        (c.readOps [.nextMessage, .nextMessage]).side.rx.remaining)) =
    some ([.payloadPending], 2) := by
  decide +kernel

end Conn

end Ews
