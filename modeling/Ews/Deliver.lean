import Ews.Amid

/-!
# Messages through a connection

A connection between two messages (`Conn.Rest`) that `NextMessage` moves into the next one
(`nextMessage_spec`), and what `Read`, `WriteTo`, `ReadMessage` and the discarding in
`NextMessage` then make of it. However a message is left, the connection rests after it with
the messages that follow still to come and with the same history (`Advanced`).

The history of the receive direction is what a compressed message is inflated after.
`History.content` is what a message says, `History.next` the history after it.
-/

set_option linter.unusedSectionVars false

namespace Ews

open Bytes ReadSide

/-! ## Histories -/

/-- What the receive direction remembers : the size of its window, whether it takes the
history over, and the history. -/
structure History where
  size : ℕ
  takeover : Bool
  dict : List UInt8
  deriving DecidableEq, Repr

namespace History

variable (F : Flate)

/-- What a message says. -/
def content (h : History) (m : WireMessage) : Option (List UInt8) :=
  if m.compressed then F.inflate h.size h.dict m.payload else some m.payload

/-- The history after a message that says `out`. -/
def next (h : History) (m : WireMessage) (out : List UInt8) : History :=
  if m.compressed then { h with dict := if h.takeover then lastN h.size (h.dict ++ out) else [] }
  else h

/-- What the messages of a stream say, each after those before it. -/
def contents (h : History) : List WireMessage → Option (List (Opcode × List UInt8))
  | [] => some []
  | m :: ms => (h.content F m).bind fun out =>
      ((h.next m out).contents ms).map fun rest => (m.opcode, out) :: rest

end History

namespace Conn

variable {F : Flate}

/-- The history a connection is at. -/
def history (c : Conn F) : History :=
  ⟨(c.window.map Window.size).getD windowSize, c.window.isSome, Window.dictOf c.window⟩

/-- Between messages. What is left of a decompressor has nothing to do with the window. -/
structure Rest (c : Conn F) : Prop where
  between : c.side.Between
  shut : c.side.rx.messageOpen = false
  outside : c.side.inMessage = false
  fine : c.side.readErr = none
  dec : ∀ d, c.dec = some d → d.scratch.size = windowSize ∧ (d.window = true → c.window = none)

/-- The message `m` that says `out` lies between `c` and `c'`, and `ms` are to follow. -/
structure Advanced (c : Conn F) (m : WireMessage) (ms : List WireMessage) (out : List UInt8)
    (c' : Conn F) : Prop where
  rest : c'.Rest
  passed : ∃ l, Passed c.side l c'.side ∧ stand none l = none
  messages : messages c'.side.todo = ms
  history : c'.history = c.history.next m out

/-- A connection rests once the reader is at the end of its message. -/
theorem rest_of_amid {s₀ : ReadSide} {m : WireMessage} {ms : List WireMessage} {p : List UInt8}
    {c : Conn F} (h : Amid s₀ m ms p c.side) (ended : c.side.cursor.ended = true)
    (dec : ∀ d, c.dec = some d → d.scratch.size = windowSize ∧ (d.window = true → c.window = none))
    (streaming : Bool) :
    Rest { c with side := { c.side with inMessage := false, streaming := streaming } } where
  between := ⟨h.coupled, h.live, (cursor_ended.mp ended).1⟩
  shut := (cursor_ended.mp ended).2
  outside := rfl
  fine := h.fine
  dec := dec

/-! ## Decompressors -/

/-- A decompressor without a message, or none, is acquired without one. -/
theorem acquireDecompressor_spec {c : Conn F} (h : ∀ d, c.dec = some d → d.Idle) :
    ∃ d gets, c.acquireDecompressor = (d, { c with dec := some d, gets := gets }) ∧ d.Idle := by
  unfold acquireDecompressor
  cases hd : c.dec with
  | some d =>
    have hc : c = { c with dec := some d } := by rw [← hd]
    exact ⟨d, c.gets, congrArg (d, ·) hc, h d hd⟩
  | none =>
    refine ⟨_, _, rfl, ?_⟩
    cases c.pool c.gets with
    | none => exact ⟨rfl, rfl, rfl⟩
    | some d => exact d.2

/-- What goes back to the pool is idle. -/
theorem reset_idle {x : Inflation F ReadSide} (h : x.dec.scratch.size = windowSize) :
    x.reset.dec.Idle ∧ x.releaseOutput.dec.Idle :=
  ⟨⟨rfl, rfl, h⟩, ⟨rfl, rfl, h⟩⟩

/-- Releasing a decompressor that has nothing to do with the window. -/
theorem releaseDecompressor_spec {c : Conn F}
    (h : ∀ d, c.dec = some d → d.scratch.size = windowSize ∧ (d.window = true → c.window = none)) :
    ∃ large returned, c.releaseDecompressor =
      { c with dec := none, large := large, returned := c.returned ++ returned } ∧
      ∀ d ∈ returned, d.Idle := by
  unfold releaseDecompressor
  cases hd : c.dec with
  | none =>
    have hc : c = { c with dec := none, returned := c.returned ++ [] } := by
      rw [← hd, List.append_nil]
    exact ⟨c.large, [], hc, by simp⟩
  | some d =>
    obtain ⟨hscratch, hwindow⟩ := h d hd
    have hidle := reset_idle (x := c.inflation d) hscratch
    have hw : (c.inflation d).reset.window = c.window ∧
        (c.inflation d).releaseOutput.window = c.window := by
      cases hf : d.window with
      | false => simp [inflation, Inflation.reset, Inflation.releaseOutput, Inflation.finish, hf]
      | true =>
        have := hwindow hf
        simp [inflation, Inflation.reset, Inflation.releaseOutput, Inflation.finish, hf, this]
    cases c.large with
    | false =>
      refine ⟨false, [(c.inflation d).reset.dec], ?_, by simpa using hidle.1⟩
      simp only [Bool.false_eq_true, if_false, hw.1]
    | true =>
      refine ⟨false, [(c.inflation d).releaseOutput.dec], ?_, by simpa using hidle.2⟩
      simp only [if_true, hw.2]

/-- The history of a message that is over. -/
theorem history_of_over {x : Inflation F ReadSide} {n : ℕ} {dict : List UInt8} {b : Bool}
    (h : x.Over n dict b) : (⟨(x.window.map Window.size).getD windowSize, x.window.isSome,
      Window.dictOf x.window⟩ : History) = ⟨n, b, if b then dict else []⟩ := by
  rw [h.dictOf, h.window, ← h.size]
  rfl

/-! ## Inside a message -/

/-- Where a connection stands that left `c₀` for the message `m` and has handed out `sofar` :
in a plain message ; before a compressed one ; or in one, with its decompressor at work. -/
inductive Inside (c₀ : Conn F) (m : WireMessage) (ms : List WireMessage) (sofar : List UInt8)
    (c : Conn F) : Prop
  | plain (plain : m.compressed = false) (amid : Amid c₀.side m ms sofar c.side)
      (dec : c.dec = none) (window : c.window = c₀.window)
  | fresh (compressed : m.compressed = true) (first : sofar = [])
      (amid : Amid c₀.side m ms [] c.side) (dec : ∀ d, c.dec = some d → d.Idle)
      (streaming : c.side.streaming = false) (window : c.window = c₀.window)
  | going {p : List UInt8} {d : Decompressor F} (compressed : m.compressed = true)
      (amid : Amid c₀.side m ms p c.side) (streaming : c.side.streaming = true)
      (dec : c.dec = some d) (mode : d.streaming = true)
      (busy : Inflation.Busy chunkSource
        (fun s => Amid c₀.side m ms m.payload s ∧ s.cursor.ended = true) c₀.history.dict
        (F.inflate c₀.history.size c₀.history.dict m.payload) sofar (c.inflation d))
      (size : c.history.size = c₀.history.size) (takeover : c.history.takeover = c₀.history.takeover)

theorem Inside.amid {c₀ c : Conn F} {m : WireMessage} {ms : List WireMessage}
    {sofar : List UInt8} (h : Inside c₀ m ms sofar c) : ∃ p, Amid c₀.side m ms p c.side := by
  cases h with
  | plain _ amid => exact ⟨_, amid⟩
  | fresh _ _ amid => exact ⟨_, amid⟩
  | going _ amid => exact ⟨_, amid⟩

/-- A message can be taken up and put down again where it was. -/
theorem Inside.staging {c₀ c : Conn F} {m : WireMessage} {ms : List WireMessage}
    {sofar : List UInt8} (h : Inside c₀ m ms sofar c) : Inside c₀ m ms sofar c.staging := by
  cases h with
  | plain plain amid dec window => exact .plain plain amid dec window
  | fresh compressed first amid dec streaming window =>
    exact .fresh compressed first amid dec streaming window
  | going compressed amid streaming dec mode busy size takeover =>
    exact .going compressed amid streaming dec mode busy size takeover

section Inflate

variable {c₀ c : Conn F} {m : WireMessage} {ms : List WireMessage} {sofar out : List UInt8}
  (h : Inside c₀ m ms sofar c) (compressed : m.compressed = true)
include h compressed

/-- What `inflate` reads from is at work on the message. -/
theorem opened_spec : ∃ x c₁ gets, c.opened = (x, c₁) ∧
    (∀ y, c₁.settle y =
      { c with side := y.src, dec := some y.dec, window := y.window, gets := gets }) ∧
    Inflation.Busy chunkSource
      (fun s => Amid c₀.side m ms m.payload s ∧ s.cursor.ended = true) c₀.history.dict
      (F.inflate c₀.history.size c₀.history.dict m.payload) sofar x ∧
    x.dec.streaming = true ∧ ((∃ p, Amid c₀.side m ms p x.src) ∧ x.src.streaming = true) ∧
    x.size = c₀.history.size ∧ x.window.isSome = c₀.history.takeover := by
  cases h with
  | plain plain => exact absurd (plain.symm.trans compressed) (by decide)
  | fresh _ first amid dec streaming window =>
    obtain ⟨d, gets, hacq, hidle⟩ := acquireDecompressor_spec dec
    have hamid := amid.flag true
    have hopen : c.opened = (Inflation.start ⟨d, c.window, { c.side with streaming := true }⟩,
        { c with dec := some d, gets := gets }) := by
      simp only [opened, hacq, streaming, Bool.false_eq_true, if_false]
    have hbusy := Inflation.busy_start (C := chunkSource) (F := F)
      (x := ⟨d, c.window, { c.side with streaming := true }⟩) hidle
      (hamid.gives _ rfl (List.nil_append _).symm)
    have hbegin := Inflation.begin_eq
      (x := (⟨d, c.window, { c.side with streaming := true }⟩ : Inflation F ReadSide)) hidle none
    have hhist : c₀.history = c.history := by rw [history, history, window]
    rw [hhist, first]
    refine ⟨_, _, gets, hopen, fun y => rfl, hbusy, ?_, ?_, ?_, ?_⟩ <;>
      rw [Inflation.start, hbegin]
    · rfl
    · exact ⟨⟨_, hamid⟩, rfl⟩
    · rfl
    · rfl
  | @going p d _ amid streaming dec mode busy size takeover =>
    have hopen : c.opened = (c.inflation d, c) := by
      simp only [opened, acquireDecompressor, dec, streaming, if_true]
    exact ⟨_, _, c.gets, hopen, fun y => rfl, busy, mode, ⟨⟨_, amid⟩, streaming⟩, size, takeover⟩

/-- `inflate` in a message that says `out` : some of it, or its end after all of it. -/
theorem inflate_spec (content : F.inflate c₀.history.size c₀.history.dict m.payload = some out)
    {n : ℕ} (hn : 0 < n) :
    (∃ p c', c.inflate n = (.ok p, c') ∧ p ≠ [] ∧ Inside c₀ m ms (sofar ++ p) c' ∧
        p.length + c'.load ≤ c.load) ∨
      ∃ c', c.inflate n = (.error .eof, c') ∧ sofar = out ∧ Advanced c₀ m ms out c' := by
  obtain ⟨x, c₁, gets, hopen, hsettle, busy, mode, hsrc, size, takeover⟩ :=
    opened_spec h compressed
  have hread := Inflation.read_spec hn busy fun hs => absurd (mode.symm.trans hs) (by decide)
  obtain ⟨f, hf, hfsrc, -⟩ := Inflation.read_keeps (C := chunkSource)
    (P := fun f : Feed ReadSide => (∃ p, Amid c₀.side m ms p f.src) ∧ f.src.streaming = true)
    (fun f hf => Inflation.next_keeps
      (P := fun s => (∃ p, Amid c₀.side m ms p s) ∧ s.streaming = true)
      (fun s hs => Amid.next_keeps hs) hf) (x := x) hsrc n
  rw [← hfsrc] at hf
  have hload : c.load = x.load chunkSource := by rw [load, hopen]
  simp only [inflate, hopen]
  generalize x.read chunkSource n = res at hread hf
  cases hread with
  | @chunk p x' nonempty length busy' same load =>
    obtain ⟨⟨q, hamid⟩, hstream⟩ := hf
    have hgoing : Inside c₀ m ms (sofar ++ p) (c₁.settle x') := by
      rw [hsettle]
      exact .going compressed hamid hstream rfl (same.streaming.trans mode) busy'
        (same.size.trans size) (same.isSome.trans takeover)
    refine Or.inl ⟨p, _, rfl, nonempty, hgoing, ?_⟩
    have hopen' : (c₁.settle x').opened.1 = x' := by
      simp only [opened, acquireDecompressor, settle, show x'.src.streaming = true from hstream,
        if_true, inflation]
    rw [hload, Conn.load, hopen']
    exact load
  | @eof x' goal hover output final =>
    obtain ⟨hamid, ended⟩ := final
    have hout : sofar = out := Option.some.inj (goal.symm.trans content)
    refine Or.inr ⟨_, rfl, hout, ?_⟩
    obtain ⟨-, hms, l, passed, place⟩ := hamid.ended ended
    refine ⟨rest_of_amid (c := c₁.settle x') hamid ended ?_ false,
      ⟨l, passed.flags false false, place⟩, hms, ?_⟩
    · rintro d ⟨⟩
      exact ⟨hover.scratch, fun hw => absurd (hover.flag.symm.trans hw) (by decide)⟩
    · rw [History.next, if_pos compressed, ← hout, ← size, ← takeover]
      exact history_of_over hover
  | fail fault goal hover => exact absurd (goal.symm.trans content) (by simp)

end Inflate

/-! ## Leaving a message -/

theorem skip_outside {s : ReadSide} (h : s.inMessage = false) : s.skip = (.ok (), s) := by
  simp [ReadSide.skip, Loop.run, Loop.iterate, skipRound, h]

theorem Advanced.flag {c c' : Conn F} {m : WireMessage} {ms : List WireMessage}
    {out : List UInt8} (h : Advanced c m ms out c') (streaming : Bool) :
    Advanced c m ms out { c' with side := { c'.side with streaming := streaming } } where
  rest := ⟨⟨h.rest.between.coupled, h.rest.between.live, h.rest.between.drained⟩, h.rest.shut,
    h.rest.outside, h.rest.fine, h.rest.dec⟩
  passed := by
    obtain ⟨l, passed, place⟩ := h.passed
    exact ⟨l, passed.flags c'.side.inMessage streaming, place⟩
  messages := h.messages
  history := h.history

theorem history_none {c : Conn F} (h : c.window = none) : c.history = ⟨windowSize, false, []⟩ := by
  simp [history, h, Window.dictOf]

section Leave

variable {c₀ c : Conn F} {m : WireMessage} {ms : List WireMessage} {sofar out : List UInt8}
  (h : Inside c₀ m ms sofar c)
include h

/-- The loop that inflates what is skipped. -/
theorem pour_spec (compressed : m.compressed = true)
    (content : F.inflate c₀.history.size c₀.history.dict m.payload = some out) :
    ∃ c', c.pour = (.ok (), c') ∧ Advanced c₀ m ms out c' := by
  have hrun : ∃ c', (c.pour).1 = .ok () ∧ (c.pour).2 = c' ∧ Advanced c₀ m ms out c' := by
    refine Loop.run_spec (fun c => ∃ sofar, Inside c₀ m ms sofar c) load
      (Q := fun res : Except Err Unit × Conn F =>
        ∃ c', res.1 = .ok () ∧ res.2 = c' ∧ Advanced c₀ m ms out c') ?_ ⟨sofar, h⟩
      (Nat.lt_succ_self _)
    rintro c₁ ⟨sofar₁, h₁⟩
    simp only [pourRound]
    rcases inflate_spec h₁ compressed content c₁.side.settings.fragmentSize_pos with
      ⟨p, c', heq, hne, hin, hload⟩ | ⟨c', heq, -, hadv⟩
    · have := List.length_pos_of_ne_nil hne
      rw [heq]
      exact ⟨⟨_, hin⟩, by omega⟩
    · rw [heq]
      exact ⟨c', by simp, rfl, hadv⟩
  obtain ⟨c', h1, h2, hadv⟩ := hrun
  exact ⟨c', Prod.ext h1 h2, hadv⟩

/-- A message that is skipped without being inflated leaves no trace. -/
theorem Inside.skipped (out : List UInt8) (halone : m.compressed = true → c.window = none) :
    (∀ d, c.dec = some d → d.scratch.size = windowSize ∧ (d.window = true → c.window = none)) ∧
      c.history = c₀.history.next m out := by
  cases h with
  | plain plain amid dec window =>
    refine ⟨by simp [dec], ?_⟩
    rw [History.next, if_neg (by simp [plain]), history, history, window]
  | fresh compressed first amid dec streaming window =>
    have hw := halone compressed
    refine ⟨fun d hd => ⟨(dec d hd).scratch, fun _ => hw⟩, ?_⟩
    rw [History.next, if_pos compressed, history_none hw, history_none (window ▸ hw)]
    rfl
  | @going p d compressed amid streaming dec mode busy size takeover =>
    have hw := halone compressed
    refine ⟨fun d' hd => ⟨?_, fun _ => hw⟩, ?_⟩
    · cases dec.symm.trans hd
      exact busy.keeps.scratch
    · have hw₀ : c₀.window = none := by
        have : c₀.window.isSome = false := takeover.symm.trans (by simp [history, hw])
        simpa using this
      rw [History.next, if_pos compressed, history_none hw, history_none hw₀]
      rfl

/-- `discard` leaves the message behind, whatever was read of it. -/
theorem discard_spec (content : c₀.history.content F m = some out) :
    ∃ c', c.discard = (.ok (), c') ∧ Advanced c₀ m ms out c' ∧ c'.side.streaming = false := by
  obtain ⟨p, amid⟩ := h.amid
  have hcomp := amid.compressed
  by_cases hpour : (c.side.inMessage && c.side.rx.compressed && c.window.isSome) = true
  · simp only [Bool.and_eq_true] at hpour
    have compressed : m.compressed = true := hcomp ▸ hpour.1.2
    rw [History.content, if_pos compressed] at content
    obtain ⟨c', heq, hadv⟩ := pour_spec h.staging compressed content
    refine ⟨_, ?_, hadv.flag false, rfl⟩
    have hskip := skip_outside (s := { c'.side with streaming := false }) hadv.rest.outside
    simp only [discard, hpour, Bool.and_self, if_true, heq, hskip]
  · obtain ⟨s', heq, hamid, ended, hs⟩ := (amid.flag false).skip
    have halone : m.compressed = true → c.window = none := by
      intro hm
      simpa [amid.inMessage, hcomp, hm] using hpour
    obtain ⟨hdec, hhist⟩ := h.skipped out halone
    obtain ⟨-, hms, l, passed, place⟩ := hamid.ended ended
    refine ⟨{ c with side := { s' with inMessage := false } }, ?_, ⟨?_, ?_, hms, hhist⟩, hs⟩
    · simp only [discard, hpour, Bool.false_eq_true, if_false, heq]
    · exact rest_of_amid (c := { c with side := s' }) hamid ended hdec s'.streaming
    · exact ⟨l, passed.flags false s'.streaming, place⟩

end Leave

/-! ## Entering the next message -/

/-- `NextMessage` has left the message before, and what it still does is to look for the next
from `c'`. -/
structure Left (c c' : Conn F) : Prop where
  rest : c'.Rest
  dec : c'.dec = none
  streaming : c'.side.streaming = false
  nextMessage : c.nextMessage = c'.enter
  window : c'.window = c.discard.2.window

/-- After `discard`, `NextMessage` only gives up what it held. -/
theorem left_of_discard {c c₁ : Conn F} (hfine : c.side.readErr = none)
    (heq : c.discard = (.ok (), c₁)) (hrest : c₁.Rest) (hs : c₁.side.streaming = false) :
    ∃ c', Left c c' ∧ c'.side = c₁.side ∧ c'.window = c₁.window ∧
      ∃ returned, c'.returned = c₁.returned ++ returned ∧ ∀ d ∈ returned, d.Idle := by
  obtain ⟨large, returned, hrel, hidle⟩ := releaseDecompressor_spec hrest.dec
  refine ⟨c₁.releaseDecompressor.releaseMsg, ⟨?_, ?_, ?_, ?_, ?_⟩, ?_, ?_, returned, ?_, hidle⟩
  · rw [hrel]
    exact ⟨hrest.between, hrest.shut, hrest.outside, hrest.fine, fun d hd => by cases hd⟩
  · rw [hrel]
    rfl
  · rw [hrel]
    exact hs
  · simp only [Conn.nextMessage, hfine, heq]
  · rw [hrel, heq]
    rfl
  all_goals rw [hrel]; rfl

theorem Rest.left {c : Conn F} (h : c.Rest) : ∃ c', Left c c' ∧ Passed c.side [] c'.side ∧
    c'.history = c.history ∧ c'.side.effort = c.side.effort := by
  have hskip := skip_outside (s := { c.side with streaming := false }) h.outside
  have heq : c.discard = (.ok (), { c with side := { c.side with streaming := false } }) := by
    simp only [discard]
    rw [if_neg (by simp [h.outside])]
    dsimp only
    rw [hskip]
  obtain ⟨c', left, hside, hwindow, -⟩ := left_of_discard h.fine heq
    ⟨⟨h.between.coupled, h.between.live, h.between.drained⟩, h.shut, h.outside, h.fine, h.dec⟩ rfl
  refine ⟨c', left, ?_, ?_, ?_⟩
  · rw [hside]
    exact (Passed.refl c.side).flags c.side.inMessage false
  · rw [history, history, hwindow]
  · rw [hside]
    rfl

theorem Inside.left {c₀ c : Conn F} {m : WireMessage} {ms : List WireMessage}
    {sofar out : List UInt8} (h : Inside c₀ m ms sofar c)
    (content : c₀.history.content F m = some out) : ∃ c', Left c c' ∧ Advanced c₀ m ms out c' := by
  obtain ⟨p, amid⟩ := h.amid
  obtain ⟨c₁, heq, hadv, hs⟩ := discard_spec h content
  obtain ⟨c', left, hside, hwindow, -⟩ := left_of_discard amid.fine heq hadv.rest hs
  refine ⟨c', left, left.rest, ?_, ?_, ?_⟩
  · rw [hside]
    exact hadv.passed
  · rw [hside]
    exact hadv.messages
  · rw [← hadv.history, history, history, hwindow]

/-- Just inside the message `m`. -/
structure Entered (c₂ : Conn F) (m : WireMessage) (ms : List WireMessage) (c : Conn F) : Prop where
  amid : Amid c₂.side m ms [] c.side
  head : c.side.rx.remaining = c.side.rx.header.payloadLen
  dec : c.dec = none
  streaming : c.side.streaming = false
  window : c.window = c₂.window
  effort : c.side.effort < c₂.side.effort

theorem Entered.inside {c₂ c : Conn F} {m : WireMessage} {ms : List WireMessage}
    (h : Entered c₂ m ms c) : Inside c₂ m ms [] c := by
  cases hm : m.compressed with
  | false => exact .plain hm h.amid h.dec h.window
  | true =>
    exact .fresh hm rfl h.amid (fun d hd => absurd (h.dec.symm.trans hd) (by simp)) h.streaming
      h.window

/-- An error of the transport came between messages : `c'` is in front of the messages `ms` as
`c` was. -/
structure Interrupted (c : Conn F) (ms : List WireMessage) (c' : Conn F) : Prop where
  rest : c'.Rest
  calm : Calm c'.side none
  messages : messages c'.side.todo = ms
  todo : ∃ l, (∀ e ∈ l, e.IsPing) ∧ c.side.todo = l ++ c'.side.todo
  history : c'.history = c.history
  settings : c'.side.settings = c.side.settings
  closes : c'.side.closes = c.side.closes
  effort : c'.side.effort < c.side.effort
  error : ∃ e, .inr e ∈ c.side.transport.symbols

section Enter

variable {c c₂ : Conn F} (h : Left c c₂) (calm : Calm c₂.side none)
include h calm

/-- `NextMessage` when there is a message to come : it is in the message, or an error of the
transport came before. -/
theorem nextMessage_spec {m : WireMessage} {ms : List WireMessage}
    (hms : messages c₂.side.todo = m :: ms) :
    (∃ c', c.nextMessage = (.ok m.opcode, c') ∧ Entered c₂ m ms c') ∨
      ∃ e c', c.nextMessage = (.error e, c') ∧ Interrupted c₂ (m :: ms) c' := by
  have hframe := nextFrame_spec h.rest.between
  rw [h.nextMessage, enter]
  generalize c₂.side.nextFrame = out at hframe
  obtain ⟨res, s⟩ := out
  cases hframe with
  | @data l s pings went opened less =>
    left
    have hstart : s.rx.compressed = s.rx.header.rsv1 := by
      rcases opened.starts with hs | hs
      · exact absurd (hs.2.1.symm.trans h.rest.shut) (by decide)
      · exact hs.2.2
    have hcursor : s.cursor = ⟨s.rx.header.payloadLen, s.rx.header.final⟩ := cursor_opened opened
    have hemit : emit ⟨s.rx.header.opcode, s.rx.header.rsv1, []⟩ s.cursor s.todo = m :: ms := by
      rw [← hms, went.todo, List.append_assoc, messages_pings _ _ pings, List.singleton_append,
        headEvent, messages_data, hcursor]
    obtain ⟨hop, hcomp, -, -⟩ := emit_cons _ hemit
    dsimp only at hop hcomp
    have hplace : stand none (l ++ [headEvent s.rx.header]) = s.cursor.place := by
      rw [stand_append, stand_pings none l pings, hcursor]
      rfl
    have hcalm := calm.passed went.passed
    rw [hplace] at hcalm
    have amid : Amid c₂.side m ms [] { s with inMessage := true } := by
      refine ⟨rfl, went.readErr.trans h.rest.fine, went.coupled, opened.live, hstart.trans hcomp.symm,
        ⟨hcalm.steady, hcalm.handler, hcalm.clear⟩, ?_,
        ⟨_, went.passed.flags true s.streaming, hplace⟩⟩
      rw [← hop, ← hcomp] at hemit
      exact hemit
    exact ⟨{ c₂ with side := { s with inMessage := true } }, by rw [hop], amid, opened.remaining,
      h.dec, went.streaming.trans h.streaming, rfl, less⟩
  | @stop l c₁ s e pings between stop =>
    right
    cases stop with
    | blocked went live dry blocked =>
      obtain ⟨hbetween, same⟩ := between live
      have hcalm := calm.passed went.passed
      rw [stand_pings none l pings] at hcalm
      have htodo : messages c₁.todo = m :: ms := by
        rw [← hms, went.todo, messages_pings _ _ pings]
      cases blocked with
      | ended symbols =>
        rw [todo, Transport.bytes, symbols, List.filterMap_nil, dry] at htodo
        cases htodo
      | @err e' t symbols weight steady =>
        have hsame := todo_err symbols
        refine ⟨_, _, rfl, ⟨⟨hbetween.coupled, hbetween.live, hbetween.drained⟩,
          same.messageOpen.trans h.rest.shut, went.inMessage.trans h.rest.outside,
          went.readErr.trans h.rest.fine, h.rest.dec⟩, hcalm.err symbols steady,
          by rw [hsame]; exact htodo, ⟨l, pings, by rw [hsame]; exact went.todo⟩, rfl, went.settings,
          went.closes, ?_, e', ?_⟩
        · refine Nat.lt_of_lt_of_le ?_ went.effort
          simp only [effort]
          omega
        · obtain ⟨bs, hs, -⟩ := went.input
          rw [hs, symbols]
          simp
      | stalled symbols weight unsteady => exact absurd hcalm.steady unsteady
    | failed went dead =>
      rw [went.todo, List.append_assoc, messages_pings _ _ pings] at hms
      cases hms
    | refused went call answer => exact absurd (answer.symm.trans (calm.handler _ _)) (by simp)
    | closed went dead answer =>
      rw [went.todo, List.append_assoc, messages_pings _ _ pings] at hms
      cases hms

end Enter

/-! ## Reading a message -/

section Read

variable {c₀ c : Conn F} {m : WireMessage} {ms : List WireMessage} {sofar out : List UInt8}
  (h : Inside c₀ m ms sofar c) (content : c₀.history.content F m = some out)
include h content

/-- What was handed out is the start of what the message says. -/
theorem Inside.prefix_out : sofar <+: out := by
  cases h with
  | plain plain amid =>
    rw [History.content, if_neg (by simp [plain])] at content
    exact Option.some.inj content ▸ amid.prefix_payload
  | fresh _ first => exact first ▸ List.nil_prefix
  | going compressed _ _ _ _ busy =>
    rw [History.content, if_pos compressed] at content
    exact busy.prefix_goal content

/-- `Read` : some of the message, or its end after all of it. -/
theorem read_spec {n : ℕ} (hn : 0 < n) :
    (∃ p c', c.read n = (.ok p, c') ∧ p ≠ [] ∧ Inside c₀ m ms (sofar ++ p) c') ∨
      ∃ c', c.read n = (.error .eof, c') ∧ sofar = out ∧ Advanced c₀ m ms out c' := by
  obtain ⟨p, amid⟩ := h.amid
  have hread : c.read n = if c.side.rx.compressed then c.inflate n
      else ((c.side.readPlain n).1, { c with side := (c.side.readPlain n).2 }) := by
    simp only [read, amid.fine, amid.inMessage, Bool.not_true, Bool.false_eq_true, if_false,
      if_neg hn.ne']
  rw [hread, amid.compressed]
  cases hm : m.compressed with
  | true =>
    rw [History.content, if_pos hm] at content
    rcases inflate_spec h hm content hn with ⟨p, c', heq, hne, hin, -⟩ | ⟨c', heq, hout, hadv⟩
    · exact Or.inl ⟨p, c', heq, hne, hin⟩
    · exact Or.inr ⟨c', heq, hout, hadv⟩
  | false =>
    rw [History.content, if_neg (by simp [hm])] at content
    cases h with
    | fresh compressed => exact absurd (hm.symm.trans compressed) (by decide)
    | going compressed => exact absurd (hm.symm.trans compressed) (by decide)
    | plain plain amid dec window =>
      simp only [Bool.false_eq_true, if_false]
      rcases amid.plain hn with ⟨q, s', heq, hne, hamid⟩ | ⟨s', heq, hamid, ended⟩
      · rw [heq]
        exact Or.inl ⟨q, _, rfl, hne, .plain hm hamid dec window⟩
      · rw [heq]
        obtain ⟨hp, hms, l, passed, place⟩ := hamid.ended ended
        refine Or.inr ⟨_, rfl, hp.trans (Option.some.inj content), ?_, ?_, hms, ?_⟩
        · exact rest_of_amid (c := { c with side := s' }) hamid ended (by simp [dec]) s'.streaming
        · exact ⟨l, passed.flags false s'.streaming, place⟩
        · rw [History.next, if_neg (by simp [hm]), history, history, window]

end Read

/-- A writer after it has accepted `q`. -/
def accepted (w : Writer) (q : List UInt8) : Writer :=
  { w with written := w.written ++ q }

section WriteTo

variable {c₀ c : Conn F} {m : WireMessage} {ms : List WireMessage} {sofar out : List UInt8}
  (h : Inside c₀ m ms sofar c) (content : c₀.history.content F m = some out) (w : Writer)
include h content

/-- The loop of `WriteTo` in a compressed message. -/
theorem pourTo_spec (compressed : m.compressed = true) :
    (∃ q r, Loop.run relayRound (c.load + 1) (fun s => (some .noProgress, s)) ⟨0, w, c, c.held⟩ =
        (none, r) ∧ sofar ++ q = out ∧ r.writer = accepted w q ∧ Advanced c₀ m ms out r.conn) ∨
      ∃ e r sofar', Loop.run relayRound (c.load + 1) (fun s => (some .noProgress, s))
        ⟨0, w, c, c.held⟩ = (some e, r) ∧ Inside c₀ m ms sofar' r.conn ∧ ¬w.AcceptsAll := by
  rw [History.content, if_pos compressed] at content
  refine Loop.run_spec (fun s : Relay (Conn F) => ∃ q, Inside c₀ m ms (sofar ++ q) s.conn ∧
      s.writer = accepted w q) (fun s => s.conn.load)
    (Q := fun res : Option Err × Relay (Conn F) =>
      (∃ q r, res = (none, r) ∧ sofar ++ q = out ∧ r.writer = accepted w q ∧
        Advanced c₀ m ms out r.conn) ∨
      ∃ e r sofar', res = (some e, r) ∧ Inside c₀ m ms sofar' r.conn ∧ ¬w.AcceptsAll)
    ?_ ⟨[], by simpa using h, by simp [accepted]⟩ (Nat.lt_succ_self _)
  rintro s ⟨q, hin, hw⟩
  simp only [relayRound]
  rcases inflate_spec hin compressed content s.conn.side.settings.fragmentSize_pos with
    ⟨p, c', heq, hne, hin', hload⟩ | ⟨c', heq, hout, hadv⟩
  · rw [heq]
    dsimp only
    obtain ⟨err, s', hhand, hconn, hacc, hok, hbad⟩ := hand_spec { s with conn := c' } p
    rw [hhand]
    cases err with
    | some e =>
      refine Or.inr ⟨e, s', sofar ++ q ++ p, rfl, ?_, ?_⟩
      · rw [hconn]
        exact hin'
      · have := hbad (by simp)
        rwa [show (Relay.writer { s with conn := c' }) = accepted w q from hw] at this
    | none =>
      have hpos := List.length_pos_of_ne_nil hne
      refine ⟨⟨q ++ p, ?_, ?_⟩, ?_⟩
      · rw [hconn, ← List.append_assoc]
        exact hin'
      · have h1 := (hok rfl).1
        have h2 : s'.writer.accept = s.writer.accept := hacc
        obtain ⟨total, ⟨written, accept⟩, conn, held⟩ := s'
        simp only [hw, accepted] at h1 h2 ⊢
        rw [h1, h2, List.append_assoc]
      · dsimp only
        rw [hconn]
        dsimp only
        omega
  · rw [heq]
    exact Or.inl ⟨q, { s with conn := c' }, by simp, hout, hw, hadv⟩

/-- `WriteTo` : the writer has the rest of the message, or it does not accept everything. -/
theorem writeTo_spec :
    (∃ q r, c.writeTo w = (none, r) ∧ sofar ++ q = out ∧ r.writer = accepted w q ∧
        Advanced c₀ m ms out r.conn) ∨
      ∃ e r sofar', c.writeTo w = (some e, r) ∧ Inside c₀ m ms sofar' r.conn ∧ ¬w.AcceptsAll := by
  obtain ⟨p, amid⟩ := h.amid
  simp only [writeTo, amid.fine, amid.inMessage, Bool.not_true, Bool.false_eq_true, if_false,
    amid.compressed]
  cases hm : m.compressed with
  | true =>
    simp only [if_true]
    exact pourTo_spec h.staging content w hm
  | false =>
    rw [History.content, if_neg (by simp [hm])] at content
    simp only [Bool.false_eq_true, if_false]
    cases h with
    | fresh compressed => exact absurd (hm.symm.trans compressed) (by decide)
    | going compressed => exact absurd (hm.symm.trans compressed) (by decide)
    | plain plain amid dec window =>
      rcases amid.relay w c.held with ⟨q, s', held, heq, hamid, ended⟩ | ⟨e, r, q, heq, hamid, hbad⟩
      · rw [heq]
        obtain ⟨hp, hms, l, passed, place⟩ := hamid.ended ended
        refine Or.inl ⟨q, _, rfl, hp.trans (Option.some.inj content), rfl, ?_, ?_, hms, ?_⟩
        · exact rest_of_amid (c := { c with side := s', held := held }) hamid ended (by simp [dec])
            s'.streaming
        · exact ⟨l, passed.flags false s'.streaming, place⟩
        · rw [History.next, if_neg (by simp [hm]), history, history, window]
      · rw [heq]
        exact Or.inr ⟨e, _, _, rfl, .plain hm hamid dec window, hbad⟩

end WriteTo

/-! ## Whole messages -/

/-- A message `ReadMessage` accepts : within the limit before and after inflating, and, if that
is checked, valid text. -/
structure Accepts (s : Settings) (m : WireMessage) (out : List UInt8) : Prop where
  wire : m.payload.length ≤ s.limit
  content : out.length ≤ s.limit
  text : s.validateUTF8 = true → m.opcode = .text → utf8Valid out = true

/-- `decompress` of a whole message that says `out`. -/
theorem decompress_spec {c : Conn F} {payload out : List UInt8} (dec : ∀ d, c.dec = some d → d.Idle)
    (content : F.inflate c.history.size c.history.dict payload = some out)
    (limit : out.length ≤ c.side.settings.limit) :
    ∃ c', c.decompress payload = (.ok out, c') ∧ c'.side = c.side ∧
      (∀ d, c'.dec = some d → d.Idle) ∧ c'.history = { c.history with
        dict := if c.history.takeover then lastN c.history.size (c.history.dict ++ out) else [] } := by
  obtain ⟨d, gets, hacq, hidle⟩ := acquireDecompressor_spec dec
  have hspec := Inflation.decompress_spec (C := chunkSource)
    (x := inflation { c with dec := some d, gets := gets } d) hidle payload
    (Int.natCast_nonneg c.side.settings.limit)
  have hsrc := Inflation.decompress_src chunkSource payload c.side.settings.limit
    (inflation { c with dec := some d, gets := gets } d)
  simp only [decompress, hacq]
  generalize Inflation.decompress chunkSource payload c.side.settings.limit
    (inflation { c with dec := some d, gets := gets } d) = res at hspec hsrc
  rw [Int.toNat_natCast] at hspec
  cases hspec with
  | @ok out' x means length hover =>
    obtain rfl : out' = out := Option.some.inj (means.symm.trans content)
    refine ⟨_, rfl, hsrc, ?_, history_of_over hover⟩
    rintro d' ⟨⟩
    exact hover.idle
  | tooLarge means hover =>
    have := means out content
    omega
  | fail fault means hover => exact absurd (means.symm.trans content) (by simp)

section Whole

variable {c₂ c : Conn F} {m : WireMessage} {ms : List WireMessage} {out : List UInt8}

/-- `finishMessage` of an assembled message. -/
theorem finishMessage_spec (amid : Amid c₂.side m ms m.payload c.side)
    (ended : c.side.cursor.ended = true) (dec : ∀ d, c.dec = some d → d.Idle)
    (window : c.window = c₂.window) (content : c₂.history.content F m = some out)
    (accepts : Accepts c.side.settings m out) :
    ∃ c', c.finishMessage m.opcode m.payload = (.ok (m.opcode, out), c') ∧
      Advanced c₂ m ms out c' ∧ c'.side = { c.side with inMessage := false } := by
  obtain ⟨-, hms, l, passed, place⟩ := amid.ended ended
  have hhist : c₂.history = c.history := by rw [history, history, window]
  have hidle : ∀ d : Decompressor F, d.Idle →
      d.scratch.size = windowSize ∧ (d.window = true → (c.window : Option Window) = none) :=
    fun d hd => ⟨hd.scratch, fun hw => absurd (hd.flag.symm.trans hw) (by decide)⟩
  -- What is left to check is the text.
  have hcheck : ¬(m.opcode = .text ∧ c.side.settings.validateUTF8 = true ∧
      utf8Valid out = false) := fun ⟨hop, hv, hu⟩ =>
    absurd ((accepts.text hv hop).symm.trans hu) (by decide)
  have hpassed : ∃ l, Passed c₂.side l { c.side with inMessage := false } ∧ stand none l = none :=
    ⟨l, passed.flags false c.side.streaming, place⟩
  simp only [finishMessage, amid.compressed]
  cases hm : m.compressed with
  | false =>
    rw [History.content, if_neg (by simp [hm])] at content
    obtain rfl := Option.some.inj content
    simp only [Bool.false_eq_true, if_false, if_neg hcheck]
    refine ⟨_, rfl, ⟨?_, hpassed, hms, ?_⟩, rfl⟩
    · exact rest_of_amid amid ended (fun d hd => hidle d (dec d hd)) c.side.streaming
    · rw [History.next, if_neg (by simp [hm])]
      exact hhist.symm
  | true =>
    rw [History.content, if_pos hm, hhist] at content
    obtain ⟨c', heq, hside, hdec, hafter⟩ := decompress_spec
      (c := { c with side := { c.side with inMessage := false } }) dec content accepts.content
    simp only [if_true, heq]
    rw [if_neg (by rw [hside]; exact hcheck)]
    refine ⟨_, rfl, ⟨?_, by rw [hside]; exact hpassed, by rw [hside]; exact hms, ?_⟩, hside⟩
    · obtain ⟨hb, hs, ho, hf, -⟩ := rest_of_amid amid ended (fun d hd => hidle d (dec d hd))
        c.side.streaming
      refine ⟨?_, ?_, ?_, ?_, fun d hd => ?_⟩
      · rw [hside]
        exact hb
      · rw [hside]
        exact hs
      · rw [hside]
      · rw [hside]
        exact hf
      · exact ⟨(hdec d hd).scratch,
          fun hw => absurd ((hdec d hd).flag.symm.trans hw) (by decide)⟩
    · rw [History.next, if_pos hm, hhist]
      exact hafter

/-- `ReadMessage` in front of a message that it accepts : the message, or an error of the
transport that came before it. -/
theorem readMessage_spec (h : Left c c₂) (calm : Calm c₂.side none)
    (hms : messages c₂.side.todo = m :: ms) (content : c₂.history.content F m = some out)
    (accepts : Accepts c₂.side.settings m out) :
    (∃ c', c.readMessage = (.ok (m.opcode, out), c') ∧ Advanced c₂ m ms out c' ∧
        c'.side.effort < c₂.side.effort) ∨
      ∃ e c', c.readMessage = (.error e, c') ∧ Interrupted c₂ (m :: ms) c' := by
  rcases nextMessage_spec h calm hms with ⟨c₁, heq, entered⟩ | ⟨e, c', heq, herr⟩
  · left
    obtain ⟨l, passed, -⟩ := entered.amid.passed
    obtain ⟨msg, s, hass, hamid, ended, heff⟩ := entered.amid.assemble entered.head
      (by rw [passed.settings]; exact accepts.wire) c₁.held
    obtain ⟨l', passed', -⟩ := hamid.passed
    obtain ⟨c', hfin, hadv, hside⟩ := finishMessage_spec
      (c := { c₁ with side := s, held := msg.held }) hamid ended
      (fun d hd => absurd (entered.dec.symm.trans hd) (by simp)) entered.window content
      (by rw [passed'.settings]; exact accepts)
    refine ⟨c', by simp only [readMessage, heq, hass, hfin], hadv, ?_⟩
    rw [hside]
    exact Nat.lt_of_le_of_lt heff entered.effort
  · exact Or.inr ⟨e, c', by simp only [readMessage, heq], herr⟩

end Whole

end Conn

end Ews
