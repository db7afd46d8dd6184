import Ews.Conn
import Ews.Placement

/-!
# What a reading side keeps

Whatever the reading side reads and however its calls end, its receiver stands where the bytes
taken from the transport end (`Receiver.Sound`), and every loop calls `nextFrame` with the open data
frame drained, so that `Next` does not give `codec.ErrPayloadPending` (`Kept`). A call leaves the
flags as they were or ends reading (`Called`), or it ends the message (`Leaves`).
-/

set_option linter.unusedSectionVars false

namespace Ews

/-! ## One call of the receiver -/

namespace Receiver

variable {wire : List UInt8} {r : Receiver}

/-- The error is the failure of a receiver. -/
def IsFailure (e : Err) : Prop :=
  ∃ code cause, e = .failure code cause

/-- `Next` on a drained receiver fails for good or, unless it opens a frame, leaves it drained and
in the message or not as it was. -/
theorem Sound.next_drained (h : Sound wire r) (hr : r.remaining = 0) :
    (∀ e, r.next.1 = .error e → IsFailure e) ∧
      (∀ kind, r.next.1 = .ok kind → kind ≠ .dataFrame →
        r.next.2.remaining = 0 ∧ r.next.2.messageOpen = r.messageOpen) := by
  cases hf : r.failed with
  | some e =>
    rw [next_failed hf]
    refine ⟨fun e' he => ?_, fun kind hk => by cases hk⟩
    cases he
    exact h.placed.failed e hf
  | none =>
    cases hcr : r.closeReceived with
    | true =>
      rw [next_closed h.coupled hf hcr]
      exact ⟨fun e he => (by cases he), fun _ _ _ => ⟨hr, rfl⟩⟩
    | false =>
      have hstep := next_spec h.coupled (dead_eq_false.mpr ⟨hf, hcr⟩) hr
      generalize r.next = out at hstep
      obtain ⟨res, r'⟩ := out
      cases hstep with
      | need coupled live rem same =>
        exact ⟨fun e he => (by cases he), fun _ _ _ => ⟨rem, same.messageOpen⟩⟩
      | data =>
        refine ⟨fun e he => (by cases he), fun kind hk hne => ?_⟩
        cases hk
        exact absurd rfl hne
      | control coupled rem same =>
        exact ⟨fun e he => (by cases he), fun _ _ _ => ⟨rem, same.messageOpen⟩⟩
      | fail =>
        refine ⟨fun e he => ?_, fun kind hk => by cases hk⟩
        cases he
        exact ⟨_, _, rfl⟩

/-- `PayloadN` fails as the receiver has, or says whether the frame is drained. -/
theorem Sound.payloadN_drained (h : Sound wire r) (n : ℤ) :
    (∀ e, (r.payloadN n).1 = .error e → IsFailure e) ∧
      (∀ chunk, (r.payloadN n).1 = .ok (chunk, true) → (r.payloadN n).2.remaining = 0) := by
  cases hf : r.failed with
  | some e =>
    rw [payloadN_failed hf]
    refine ⟨fun e' he => ?_, fun chunk hc => by cases hc⟩
    cases he
    exact h.placed.failed e hf
  | none =>
    by_cases hr : r.remaining = 0
    · rw [Receiver.payloadN_drained hf hr]
      exact ⟨fun e he => (by cases he), fun _ _ => hr⟩
    · obtain ⟨chunk, r', heq, -⟩ := payloadN_spec h.coupled (live_of_remaining h.coupled hr) hr n
      rw [heq]
      refine ⟨fun e he => (by cases he), fun c hc => ?_⟩
      have hdone := (Prod.mk.inj (Except.ok.inj hc)).2
      exact of_decide_eq_true hdone

end Receiver

/-- A read that gave no byte took none, and `io.EOF` is for an idle receiver. -/
theorem Transport.Blocked.rest {t t' : Transport} {idle : Bool} {e : Err}
    (h : t.Blocked idle e t') : t.bytes = t'.bytes ∧ (e = .eof → idle = true) := by
  cases h with
  | ended symbols =>
    refine ⟨by rw [Transport.bytes, symbols]; rfl, fun he => ?_⟩
    split_ifs at he with hidle
    simpa using hidle
  | @err e t' symbols weight steady =>
    refine ⟨?_, fun he => ?_⟩
    · rw [Transport.bytes, symbols, Transport.bytes]
      rfl
    · split_ifs at he with hidle
      simpa [he] using hidle
  | stalled symbols weight unsteady =>
    exact ⟨by rw [Transport.bytes, symbols, Transport.bytes], fun he => by cases he⟩

/-! ## What is kept -/

/-- A new connection : its settings, the bytes to come, and whether it keeps the peer's history. -/
structure Origin where
  settings : Settings
  bytes : List UInt8
  takeover : Bool

/-- The handler never returns `io.EOF`. -/
def Origin.NeverEof (o : Origin) : Prop :=
  ∀ calls ev, o.settings.handler calls ev ≠ some .eof

/-- No handler's `io.EOF` is taken for the end of a message that `discard` inflates. -/
def Origin.Plain (o : Origin) : Prop :=
  o.NeverEof ∨ o.takeover = false

/-- The error is not `io.EOF`, unless the handler may return it. -/
def Origin.Excused (o : Origin) (e : Err) : Prop :=
  o.NeverEof → e ≠ .eof

namespace ReadSide

open Receiver

/-- What every call keeps, since the connection was new. -/
structure Kept (o : Origin) (s : ReadSide) : Prop where
  settings : s.settings = o.settings
  taken : ∃ wire, o.bytes = wire ++ s.transport.bytes ∧ s.rx.Sound wire
  nextErrs : o.Plain → .payloadPending ∉ s.nextErrs
  readErr : o.NeverEof → s.readErr ≠ some .eof

/-- Neither in nor out of a message by what was done. -/
structure SameFlags (s s' : ReadSide) : Prop where
  inMessage : s'.inMessage = s.inMessage
  readErr : s'.readErr = s.readErr
  streaming : s'.streaming = s.streaming

/-- Reading has ended with an error. -/
def Stopped (s : ReadSide) : Prop :=
  s.readErr ≠ none ∧ s.streaming = false

/-- The message has ended, or reading has, with no payload left. -/
def Finished (s : ReadSide) : Prop :=
  s.rx.remaining = 0 ∧ (s.rx.messageOpen = false ∨ s.readErr ≠ none)

/-- No message is in progress, unless reading has ended. -/
def Clear (s : ReadSide) : Prop :=
  s.readErr = none → s.rx.remaining = 0 ∧ s.rx.messageOpen = false

/-- A call on `s` : it keeps what every call keeps, changes the flags only to end reading, and says
`io.EOF` only at an end. -/
structure Called (o : Origin) (s : ReadSide) {α : Type} (out : Except Err α × ReadSide) : Prop where
  kept : Kept o out.2
  ok : ∀ a, out.1 = .ok a → SameFlags s out.2
  stays : SameFlags s out.2 ∨ Stopped out.2
  eof : out.1 = .error .eof → Finished out.2

/-- A call on `s` that may have ended the message. -/
structure Leaves (o : Origin) (s s' : ReadSide) : Prop where
  kept : Kept o s'
  flags : SameFlags s s' ∨ Stopped s' ∨ Finished s' ∧ s'.streaming = s.streaming

variable {o : Origin} {s s' s'' : ReadSide}

theorem SameFlags.refl (s : ReadSide) : SameFlags s s := ⟨rfl, rfl, rfl⟩

theorem SameFlags.trans (h : SameFlags s s') (h' : SameFlags s' s'') : SameFlags s s'' :=
  ⟨h'.inMessage.trans h.inMessage, h'.readErr.trans h.readErr, h'.streaming.trans h.streaming⟩

theorem Finished.clear (h : Finished s) : Clear s := fun hnone =>
  ⟨h.1, h.2.resolve_right fun hne => hne hnone⟩

theorem Stopped.clear (h : Stopped s) : Clear s := fun hnone => absurd hnone h.1

theorem stopped_terminate (s : ReadSide) (e : Err) : Stopped (s.terminate e) :=
  ⟨by simp [terminate], rfl⟩

theorem stopped_fail (s : ReadSide) (e : Err) : Stopped (s.fail e) := by
  unfold fail
  split <;> exact stopped_terminate _ _

theorem excused_of_failure {e : Err} (h : IsFailure e) : o.Excused e := by
  obtain ⟨code, cause, rfl⟩ := h
  intro _ he
  cases he

theorem called_ok {α : Type} (h : Kept o s') (same : SameFlags s s') (a : α) :
    Called o s (.ok a, s') :=
  ⟨h, fun _ _ => same, Or.inl same, fun he => by cases he⟩

theorem called_error {α : Type} (h : Kept o s') {e : Err} (stays : SameFlags s s' ∨ Stopped s')
    (eof : e = .eof → Finished s') : Called o s ((.error e : Except Err α), s') where
  kept := h
  ok := fun a ha => by cases ha
  stays := stays
  eof := fun he => eof (Except.error.inj he)

/-- A call after others that left the flags. -/
theorem Called.after {α : Type} {out : Except Err α × ReadSide} (h : Called o s' out)
    (same : SameFlags s s') : Called o s out :=
  ⟨h.kept, fun a ha => same.trans (h.ok a ha), h.stays.imp_left same.trans, h.eof⟩

theorem Called.left {α : Type} {out : Except Err α × ReadSide} (h : Called o s out) :
    Leaves o s out.2 :=
  ⟨h.kept, h.stays.imp_right Or.inl⟩

/-- Outside a message, after a loop that began inside one. -/
theorem Leaves.outside (h : Leaves o s s') (hin : s.inMessage = true) (hout : s'.inMessage = false) :
    Clear s' := by
  rcases h.flags with same | stopped | ⟨finished, -⟩
  · exact absurd (hin.symm.trans (same.inMessage.symm.trans hout)) (by decide)
  · exact stopped.clear
  · exact finished.clear

theorem Leaves.streaming (h : Leaves o s s') (hs : s'.streaming = true) : s.streaming = true := by
  rcases h.flags with same | stopped | ⟨-, same⟩
  · exact same.streaming.symm.trans hs
  · exact absurd (stopped.2.symm.trans hs) (by decide)
  · exact same.symm.trans hs

theorem Leaves.after (h : Leaves o s' s'') (same : SameFlags s s') : Leaves o s s'' :=
  ⟨h.kept, h.flags.imp same.trans (Or.imp_right (And.imp_right fun hs => hs.trans same.streaming))⟩

/-- The error of a call, passed on. -/
theorem Called.error {α β : Type} {e : Err} (h : Called o s ((.error e : Except Err α), s')) :
    Called o s ((.error e : Except Err β), s') :=
  called_error h.kept h.stays fun he => h.eof (by rw [he])

namespace Kept

/-- Nothing else of the reading side counts. -/
theorem congr (h : Kept o s) (settings : s'.settings = s.settings)
    (transport : s'.transport = s.transport) (rx : s'.rx = s.rx) (readErr : s'.readErr = s.readErr)
    (nextErrs : s'.nextErrs = s.nextErrs) : Kept o s' where
  settings := settings.trans h.settings
  taken := by rw [transport, rx]; exact h.taken
  nextErrs := by rw [nextErrs]; exact h.nextErrs
  readErr := by rw [readErr]; exact h.readErr

theorem flags (h : Kept o s) (inMessage streaming : Bool) :
    Kept o { s with inMessage := inMessage, streaming := streaming } :=
  h.congr rfl rfl rfl rfl rfl

/-- The end of a message. -/
theorem left_outside (h : Kept o s') (same : SameFlags s s') (finished : Finished s') :
    Leaves o s { s' with inMessage := false } :=
  ⟨h.flags false s'.streaming, Or.inr (Or.inr ⟨finished, same.streaming⟩)⟩

theorem record (h : Kept o s) (d : DirectRead) : Kept o (s.record d) :=
  h.congr rfl rfl rfl rfl rfl

/-- A step of the receiver that takes no input. -/
theorem step (h : Kept o s) {r : Receiver} (hr : ∀ wire, s.rx.Sound wire → r.Sound wire) :
    Kept o { s with rx := r } where
  settings := h.settings
  taken := by
    obtain ⟨wire, hbytes, hsound⟩ := h.taken
    exact ⟨wire, hbytes, hr wire hsound⟩
  nextErrs := h.nextErrs
  readErr := h.readErr

theorem terminate (h : Kept o s) {e : Err} (he : o.Excused e) : Kept o (s.terminate e) where
  settings := h.settings
  taken := h.taken
  nextErrs := h.nextErrs
  readErr := fun never heq => he never (Option.some.inj heq)

theorem fail (h : Kept o s) {e : Err} (he : o.Excused e) : Kept o (s.fail e) := by
  unfold ReadSide.fail
  split
  · exact (h.terminate he).congr rfl rfl rfl rfl rfl
  · exact h.terminate he

/-- The receiver's failure ends reading. -/
theorem called_fail (h : Kept o s') {e : Err} (he : IsFailure e) {α : Type} :
    Called o s ((.error e : Except Err α), s'.fail e) := by
  refine called_error (h.fail (excused_of_failure he)) (Or.inr (stopped_fail s' e)) fun heof => ?_
  obtain ⟨code, cause, rfl⟩ := he
  cases heof

/-- `handleControl` calls the handler and leaves the receiver. -/
theorem handleControl (h : Kept o s) : Kept o s.handleControl.2 ∧
    s.handleControl.2.rx = s.rx ∧ (s.handleControl.1 = none → SameFlags s s.handleControl.2) ∧
    (s.handleControl.1 ≠ none → Stopped s.handleControl.2) := by
  unfold ReadSide.handleControl
  cases ControlEvent.ofFrame s.rx.controlOpcode s.rx.control with
  | none => exact ⟨h, rfl, fun _ => .refl s, fun hne => absurd rfl hne⟩
  | some ev =>
    have hcall : Kept o { s with calls := s.calls ++ [ev] } := h.congr rfl rfl rfl rfl rfl
    dsimp only
    cases hh : s.settings.handler s.calls ev with
    | some e =>
      have hexcused : o.Excused e := fun never he => never s.calls ev (by rw [← h.settings, hh, he])
      exact ⟨hcall.terminate hexcused, rfl, fun he => (by cases he), fun _ => stopped_terminate _ e⟩
    | none =>
      cases ev with
      | close code reason =>
        have hexcused : o.Excused (.closed code reason) := fun _ he => by cases he
        exact ⟨hcall.terminate hexcused, rfl, fun he => (by cases he),
          fun _ => stopped_terminate _ _⟩
      | ping payload => exact ⟨hcall, rfl, fun _ => ⟨rfl, rfl, rfl⟩, fun hne => absurd rfl hne⟩
      | pong payload => exact ⟨hcall, rfl, fun _ => ⟨rfl, rfl, rfl⟩, fun hne => absurd rfl hne⟩

/-! ## Reading the transport -/

theorem finished_of_idle (h : s.rx.idle = true) : Finished s := by
  simp only [Receiver.idle, Bool.and_eq_true, beq_iff_eq] at h
  refine ⟨h.1.1.1, Or.inl ?_⟩
  simp [Receiver.messageOpen, h.1.2]

/-- After a read, the receiver is fed what it gave. -/
theorem read (h : Kept o s) {room : ℕ} (hroom : 0 < room) :
    (s.read room).2.rx = s.rx ∧ SameFlags s (s.read room).2 ∧
      (∀ bs, (s.read room).1 = .ok bs →
        Kept o { (s.read room).2 with rx := (s.read room).2.rx.feed bs }) ∧
      ∀ e, (s.read room).1 = .error e →
        Kept o (s.read room).2 ∧ (e = .eof → Finished (s.read room).2) := by
  obtain ⟨wire, hbytes, hsound⟩ := h.taken
  have hread := read_spec hroom s
  generalize s.read room = out at hread
  obtain ⟨res, s'⟩ := out
  cases hread with
  | @bytes bs t nonempty length symbols weight steady =>
    refine ⟨rfl, ⟨rfl, rfl, rfl⟩, fun bs' hbs => ?_, fun e he => by cases he⟩
    cases hbs
    refine ⟨h.settings, ⟨wire ++ bs, ?_, hsound.feed bs⟩, h.nextErrs, h.readErr⟩
    rw [hbytes, Transport.bytes_append symbols, List.append_assoc]
  | @blocked e t blocked =>
    obtain ⟨hsame, hidle⟩ := blocked.rest
    refine ⟨rfl, ⟨rfl, rfl, rfl⟩, fun bs hbs => (by cases hbs), fun e' he' => ?_⟩
    cases he'
    refine ⟨⟨h.settings, ⟨wire, ?_, hsound⟩, h.nextErrs, h.readErr⟩, fun he => ?_⟩
    · rw [hbytes, hsame]
    · exact finished_of_idle (s := { s with transport := t }) (hidle he)

theorem fill (h : Kept o s) : Called o s s.fill ∧ SameFlags s s.fill.2 ∧
    s.fill.2.rx.remaining = s.rx.remaining ∧ s.fill.2.rx.messageOpen = s.rx.messageOpen := by
  have hpreserve : { s with rx := s.rx.preserve } = s := by rw [Receiver.preserve_eq]
  obtain ⟨hrx, same, hok, herror⟩ := h.read s.settings.bufSize_pos
  simp only [ReadSide.fill, hpreserve]
  generalize s.read s.settings.bufSize = out at hrx same hok herror
  obtain ⟨res, s'⟩ := out
  cases res with
  | error e =>
    obtain ⟨hkept, heof⟩ := herror e rfl
    exact ⟨called_error hkept (Or.inl same) heof, same, congrArg Receiver.remaining hrx,
      congrArg Receiver.messageOpen hrx⟩
  | ok bs =>
    have hfeed : (s'.rx.feed bs).remaining = s'.rx.remaining ∧
        (s'.rx.feed bs).messageOpen = s'.rx.messageOpen := by
      rw [Receiver.feed]
      split_ifs <;> exact ⟨rfl, rfl⟩
    have same' : SameFlags s { s' with rx := s'.rx.feed bs } :=
      ⟨same.inMessage, same.readErr, same.streaming⟩
    exact ⟨called_ok (hok bs rfl) same' (), same',
      hfeed.1.trans (congrArg Receiver.remaining hrx),
      hfeed.2.trans (congrArg Receiver.messageOpen hrx)⟩

/-- Between frames still. -/
structure Waiting (s s' : ReadSide) : Prop where
  drained : s'.rx.remaining = 0
  messageOpen : s'.rx.messageOpen = s.rx.messageOpen
  same : SameFlags s s'

/-- One round of `nextFrame`, with the data frame drained. -/
theorem nextFrameRound (h : Kept o s) (hr : s.rx.remaining = 0) :
    Sum.elim (fun s' => Kept o s' ∧ Waiting s s')
      (fun out => Called o s out ∧ (out.1 ≠ .ok () → Waiting s out.2 ∨ Stopped out.2))
      s.nextFrameRound := by
  have hstep := h.step fun wire hs => hs.next
  obtain ⟨wire, -, hsound⟩ := h.taken
  obtain ⟨herror, hdrained⟩ := hsound.next_drained hr
  unfold ReadSide.nextFrameRound
  generalize s.rx.next = out at hstep herror hdrained
  obtain ⟨res, rx⟩ := out
  cases res with
  | error e =>
    have hrefused : Kept o { s with rx := rx, nextErrs := s.nextErrs ++ [e] } := by
      refine ⟨hstep.settings, hstep.taken, ?_, hstep.readErr⟩
      obtain ⟨code, cause, rfl⟩ := herror e rfl
      simpa using h.nextErrs
    exact ⟨hrefused.called_fail (herror e rfl), fun _ => Or.inr (stopped_fail _ e)⟩
  | ok kind =>
    cases kind with
    | dataFrame =>
      have same : SameFlags s { s with rx := rx } := ⟨rfl, rfl, rfl⟩
      exact ⟨called_ok hstep same (), fun hne => absurd rfl hne⟩
    | controlFrame =>
      obtain ⟨hkept, hrx, hsame, hstop⟩ := hstep.handleControl
      obtain ⟨hrem, hopen⟩ := hdrained _ rfl (by decide)
      dsimp only at hrem hopen ⊢
      generalize ReadSide.handleControl _ = out at hkept hrx hsame hstop
      obtain ⟨res, s'⟩ := out
      have hrem' : s'.rx.remaining = 0 := (congrArg Receiver.remaining hrx).trans hrem
      cases res with
      | some e =>
        have stopped : Stopped s' := hstop (by simp)
        exact ⟨called_error hkept (Or.inr stopped) fun _ => ⟨hrem', Or.inr stopped.1⟩,
          fun _ => Or.inr stopped⟩
      | none =>
        obtain ⟨hin, herr, hstream⟩ := hsame rfl
        exact ⟨hkept, hrem', (congrArg Receiver.messageOpen hrx).trans hopen, hin, herr, hstream⟩
    | needInput =>
      obtain ⟨hcall, same, hfillRem, hfillOpen⟩ := hstep.fill
      obtain ⟨hrem, hopen⟩ := hdrained _ rfl (by decide)
      dsimp only at hrem hopen ⊢
      generalize ReadSide.fill _ = out at hcall same hfillRem hfillOpen
      obtain ⟨res, s'⟩ := out
      have hwait : Waiting s s' := ⟨hfillRem.trans hrem, hfillOpen.trans hopen,
        same.inMessage, same.readErr, same.streaming⟩
      cases res with
      | error e =>
        exact ⟨called_error hcall.kept (Or.inl hwait.same) fun he => hcall.eof (by rw [he]),
          fun _ => Or.inl hwait⟩
      | ok _ => exact ⟨hcall.kept, hwait⟩

/-- `nextFrame` opens a frame, stops reading, or is still between frames. -/
theorem nextFrame_waiting (h : Kept o s) (hr : s.rx.remaining = 0) :
    Called o s s.nextFrame ∧
      (s.nextFrame.1 ≠ .ok () → Waiting s s.nextFrame.2 ∨ Stopped s.nextFrame.2) := by
  have hself : Waiting s s := ⟨hr, rfl, .refl s⟩
  refine Loop.run_keeps (fun s' => Kept o s' ∧ Waiting s s')
    (Q := fun out : Except Err Unit × ReadSide => Called o s out ∧
      (out.1 ≠ .ok () → Waiting s out.2 ∨ Stopped out.2)) (fun s' hs => ?_)
    ⟨called_error h (Or.inl (.refl s)) fun he => (by cases he), fun _ => Or.inl hself⟩ ⟨h, hself⟩ _
  obtain ⟨hkept, hwait⟩ := hs
  have hround := hkept.nextFrameRound hwait.drained
  have htrans : ∀ {s''}, Waiting s' s'' → Waiting s s'' := fun h' =>
    ⟨h'.drained, h'.messageOpen.trans hwait.messageOpen, hwait.same.trans h'.same⟩
  generalize s'.nextFrameRound = out at hround
  cases out with
  | inl s'' => exact ⟨hround.1, htrans hround.2⟩
  | inr out => exact ⟨hround.1.after hwait.same, fun hne => (hround.2 hne).imp_left htrans⟩

theorem nextFrame (h : Kept o s) (hr : s.rx.remaining = 0) : Called o s s.nextFrame :=
  (h.nextFrame_waiting hr).1

/-- `PayloadN` says whether the frame is drained. -/
theorem payloadN (h : Kept o s) (n : ℤ) : Kept o (s.payloadN n).2 ∧
    (∀ e, (s.payloadN n).1 = .error e → IsFailure e) ∧
    ∀ chunk, (s.payloadN n).1 = .ok (chunk, true) → (s.payloadN n).2.rx.remaining = 0 := by
  obtain ⟨wire, -, hsound⟩ := h.taken
  obtain ⟨herror, hdrained⟩ := hsound.payloadN_drained n
  exact ⟨h.step fun wire hs => hs.payloadN n, herror, hdrained⟩

/-! ## The loops -/

theorem thenFrame (h : Kept o s) (hr : s.rx.remaining = 0) {α : Type} :
    Sum.elim (fun s' => Kept o s' ∧ SameFlags s s') (Called o s)
      (s.thenFrame fun e s => ((.error e : Except Err α), s)) := by
  have hframe := h.nextFrame hr
  unfold ReadSide.thenFrame
  generalize s.nextFrame = out at hframe
  obtain ⟨res, s'⟩ := out
  cases res with
  | error e => exact hframe.error
  | ok _ => exact ⟨hframe.kept, hframe.ok () rfl⟩

theorem thenFill (h : Kept o s) {α : Type} :
    Sum.elim (fun s' => Kept o s' ∧ SameFlags s s') (Called o s)
      (s.thenFill fun e s => ((.error e : Except Err α), s)) := by
  obtain ⟨hfill, same, -⟩ := h.fill
  unfold ReadSide.thenFill
  generalize s.fill = out at hfill same
  obtain ⟨res, s'⟩ := out
  cases res with
  | error e => exact hfill.error
  | ok _ => exact ⟨hfill.kept, same⟩

/-- A round that goes on or leaves, after others that left the flags. -/
theorem round_after {α : Type} {out : ReadSide ⊕ Except Err α × ReadSide} (same : SameFlags s s')
    (h : Sum.elim (fun s'' => Kept o s'' ∧ SameFlags s' s'') (Called o s') out) :
    Sum.elim (fun s'' => Kept o s'' ∧ SameFlags s s'') (Called o s) out := by
  cases out with
  | inl s'' => exact ⟨h.1, same.trans h.2⟩
  | inr out => exact h.after same

theorem readPayload (h : Kept o s) {n : ℕ} (hn : 0 < n) : Called o s (s.readPayload n) := by
  obtain ⟨-, same, hok, herror⟩ := h.read hn
  unfold ReadSide.readPayload
  dsimp only
  generalize s.read n = out at same hok herror
  obtain ⟨res, s'⟩ := out
  cases res with
  | error e =>
    obtain ⟨hkept, heof⟩ := herror e rfl
    have same' : SameFlags s (s'.record ⟨s.rx.dec.buffered, s.rx.remaining, 0⟩) :=
      ⟨same.inMessage, same.readErr, same.streaming⟩
    exact called_error (hkept.record _) (Or.inl same') heof
  | ok bs =>
    have hfed := (hok bs rfl).record ⟨s.rx.dec.buffered, s.rx.remaining, bs.length⟩
    obtain ⟨hpay, hfailure, -⟩ := hfed.payloadN bs.length
    have same' : SameFlags s (ReadSide.payloadN ({ s' with rx := s'.rx.feed bs }.record
        ⟨s.rx.dec.buffered, s.rx.remaining, bs.length⟩) bs.length).2 :=
      ⟨same.inMessage, same.readErr, same.streaming⟩
    dsimp only at hpay same' ⊢
    generalize ReadSide.payloadN _ _ = out at hpay hfailure same'
    obtain ⟨res, s''⟩ := out
    cases res with
    | error e => exact hpay.called_fail (hfailure e rfl)
    | ok got => exact called_ok hpay same' _

theorem nextChunkRound (h : Kept o s) :
    Sum.elim (fun s' => Kept o s' ∧ SameFlags s s') (Called o s) s.nextChunkRound := by
  obtain ⟨hpay, hfailure, hdrained⟩ := h.payloadN s.rx.dec.buffered
  have same : SameFlags s (s.payloadN s.rx.dec.buffered).2 := ⟨rfl, rfl, rfl⟩
  unfold ReadSide.nextChunkRound ReadSide.payload
  generalize s.payloadN s.rx.dec.buffered = out at hpay hfailure hdrained same
  obtain ⟨res, s'⟩ := out
  cases res with
  | error e => exact hpay.called_fail (hfailure e rfl)
  | ok got =>
    obtain ⟨chunk, done⟩ := got
    dsimp only at same ⊢
    split_ifs with hchunk hdone hopen
    · exact called_ok hpay same chunk
    · exact round_after same hpay.thenFill
    all_goals
      have hd : done = true := by simpa using hdone
      subst hd
      have hr := hdrained chunk rfl
    · exact called_error hpay (Or.inl same) fun _ => ⟨hr, Or.inl (by simpa using hopen)⟩
    · exact round_after same (hpay.thenFrame hr)

theorem nextChunk (h : Kept o s) : Called o s s.nextChunk :=
  Loop.run_keeps (fun s' => Kept o s' ∧ SameFlags s s')
    (fun _ hs => round_after hs.2 hs.1.nextChunkRound)
    (called_error h (Or.inl (.refl s)) fun he => by cases he) ⟨h, .refl s⟩ _

/-- What a round of a loop that ends with the message does. -/
theorem left_after {out : ReadSide ⊕ Except Err (List UInt8) × ReadSide} (same : SameFlags s s')
    (h : Sum.elim (fun s'' => Kept o s'' ∧ SameFlags s' s'') (Called o s') out) :
    Sum.elim (fun s'' => Kept o s'' ∧ SameFlags s s'') (fun out => Leaves o s out.2) out := by
  cases out with
  | inl s'' => exact ⟨h.1, same.trans h.2⟩
  | inr out => exact (h.after same).left

/-- A loop over `f x` whose rounds leave the flags until it leaves. -/
theorem left_run {σ ρ : Type} {body : σ → σ ⊕ ρ} {f : σ → ReadSide} {g : ρ → ReadSide}
    {stuck : σ → ρ} (hbody : ∀ x, Kept o (f x) →
      Sum.elim (fun y => Kept o (f y) ∧ SameFlags (f x) (f y)) (fun out => Leaves o (f x) (g out))
        (body x)) {x : σ} (h : Kept o (f x)) (hstuck : g (stuck x) = f x) (n : ℕ) :
    Leaves o (f x) (g (Loop.run body n stuck x)) := by
  refine Loop.run_keeps (fun y => Kept o (f y) ∧ SameFlags (f x) (f y))
    (Q := fun out => Leaves o (f x) (g out)) (fun y hy => ?_) ?_ ⟨h, .refl _⟩ n
  · have hround := hbody y hy.1
    generalize body y = out at hround
    cases out with
    | inl z => exact ⟨hround.1, hy.2.trans hround.2⟩
    | inr out => exact hround.after hy.2
  · rw [hstuck]
    exact ⟨h, Or.inl (.refl _)⟩

theorem readRound (h : Kept o s) (n : ℕ) :
    Sum.elim (fun s' => Kept o s' ∧ SameFlags s s')
      (fun out : Except Err (List UInt8) × ReadSide => Leaves o s out.2) (s.readRound n) := by
  obtain ⟨hpay, hfailure, hdrained⟩ := h.payloadN n
  have same : SameFlags s (s.payloadN n).2 := ⟨rfl, rfl, rfl⟩
  unfold ReadSide.readRound
  generalize s.payloadN n = out at hpay hfailure hdrained same
  obtain ⟨res, s'⟩ := out
  have hbuf := s'.settings.bufSize_pos
  cases res with
  | error e =>
    have hcall : Called o s ((.error e : Except Err (List UInt8)), s'.fail e) :=
      hpay.called_fail (hfailure e rfl)
    exact hcall.left
  | ok got =>
    obtain ⟨chunk, done⟩ := got
    dsimp only at same ⊢
    split_ifs with hchunk hdone hbig hopen
    · exact ⟨hpay, Or.inl same⟩
    · exact ((hpay.readPayload (by omega)).after same).left
    · exact left_after same hpay.thenFill
    all_goals
      have hd : done = true := by simpa using hdone
      subst hd
      have hr := hdrained chunk rfl
    · exact left_outside hpay same ⟨hr, Or.inl (by simpa using hopen)⟩
    · exact left_after same (hpay.thenFrame hr)

theorem readPlain (h : Kept o s) (n : ℕ) : Leaves o s (s.readPlain n).2 :=
  left_run (f := id) (g := Prod.snd) (fun _ hs => hs.readRound n) h rfl _

/-- One round of the loop that ends `discard`, inside a message. -/
theorem skipRound (h : Kept o s) (hin : s.inMessage = true) :
    Sum.elim (fun s' => Kept o s' ∧ SameFlags s s')
      (fun out : Except Err Unit × ReadSide => Leaves o s out.2 ∧
        (out.1 = .ok () → out.2.inMessage = false ∧ out.2.rx.remaining = 0)) s.skipRound := by
  obtain ⟨hpay, hfailure, hdrained⟩ := h.payloadN s.rx.dec.buffered
  have same : SameFlags s (s.payloadN s.rx.dec.buffered).2 := ⟨rfl, rfl, rfl⟩
  unfold ReadSide.skipRound ReadSide.payload
  rw [hin, if_neg (by simp)]
  generalize s.payloadN s.rx.dec.buffered = out at hpay hfailure hdrained same
  obtain ⟨res, s'⟩ := out
  cases res with
  | error e =>
    have hcall : Called o s ((.error e : Except Err Unit), s'.fail e) :=
      hpay.called_fail (hfailure e rfl)
    exact ⟨hcall.left, fun he => by cases he⟩
  | ok got =>
    obtain ⟨chunk, done⟩ := got
    dsimp only at same ⊢
    split_ifs with hdone hchunk hopen
    · obtain ⟨hfill, same', -⟩ := hpay.fill
      unfold ReadSide.thenFill
      dsimp only at hfill same' ⊢
      generalize s'.fill = out at hfill same'
      obtain ⟨res, s''⟩ := out
      cases res with
      | error e => exact ⟨(hfill.after same).left, fun he => by cases he⟩
      | ok _ => exact ⟨hfill.kept, same.trans same'⟩
    · exact ⟨hpay, same⟩
    all_goals
      have hd : done = true := by simpa using hdone
      subst hd
      have hr := hdrained chunk rfl
    · exact ⟨left_outside hpay same ⟨hr, Or.inl (by simpa using hopen)⟩, fun _ => ⟨rfl, hr⟩⟩
    · have hframe := hpay.nextFrame hr
      unfold ReadSide.thenFrame
      dsimp only at hframe ⊢
      generalize s'.nextFrame = out at hframe
      obtain ⟨res, s''⟩ := out
      cases res with
      | error e => exact ⟨(hframe.after same).left, fun he => by cases he⟩
      | ok _ => exact ⟨hframe.kept, same.trans (hframe.ok () rfl)⟩

theorem skip (h : Kept o s) (hin : s.inMessage = true) :
    Leaves o s s.skip.2 ∧
      (s.skip.1 = .ok () → s.skip.2.inMessage = false ∧ s.skip.2.rx.remaining = 0) := by
  refine Loop.run_keeps (fun s' => Kept o s' ∧ SameFlags s s')
    (Q := fun out : Except Err Unit × ReadSide => Leaves o s out.2 ∧
      (out.1 = .ok () → out.2.inMessage = false ∧ out.2.rx.remaining = 0)) (fun s' hs => ?_)
    ⟨⟨h, Or.inl (.refl s)⟩, fun he => by cases he⟩ ⟨h, .refl s⟩ _
  have hround := hs.1.skipRound (hs.2.inMessage.trans hin)
  generalize s'.skipRound = out at hround
  cases out with
  | inl s'' => exact ⟨hround.1, hs.2.trans hround.2⟩
  | inr out => exact ⟨hround.1.after hs.2, hround.2⟩

/-! ## `WriteTo` -/

/-- The end of a round : where the frame is done it is drained. -/
theorem relayChunk {x : Relay ReadSide} (h : Kept o x.conn) (chunk : List UInt8) {done : Bool}
    (hdone : done = true → x.conn.rx.remaining = 0) :
    Sum.elim (fun y : Relay ReadSide => Kept o y.conn ∧ SameFlags x.conn y.conn)
      (fun out : Option Err × Relay ReadSide => Leaves o x.conn out.2.conn)
      (ReadSide.relayChunk x chunk done) := by
  have hhand : (if chunk ≠ [] then x.hand chunk else (none, x)).2.conn = x.conn := by
    split_ifs
    · unfold Relay.hand
      dsimp only
      split <;> rfl
    · rfl
  unfold ReadSide.relayChunk
  generalize (if chunk ≠ [] then x.hand chunk else (none, x)) = out at hhand
  obtain ⟨res, y⟩ := out
  obtain ⟨total, writer, conn, held⟩ := y
  obtain rfl : conn = x.conn := hhand
  cases res with
  | some e => exact ⟨h, Or.inl (.refl _)⟩
  | none =>
    dsimp only
    split_ifs with hd hopen
    · exact ⟨h, .refl _⟩
    all_goals have hr := hdone (by simpa using hd)
    · exact left_outside h (.refl _) ⟨hr, Or.inl (by simpa using hopen)⟩
    · have hframe := h.nextFrame hr
      generalize x.conn.nextFrame = out at hframe
      obtain ⟨res, s'⟩ := out
      cases res with
      | error e => exact hframe.left
      | ok _ => exact ⟨hframe.kept, hframe.ok () rfl⟩

theorem readInto (h : Kept o s) {n : ℕ} (hn : 0 < n) (msg : MsgBuf) :
    Called o s ((s.readInto msg n).1, (s.readInto msg n).2.2) := by
  have hpay := h.readPayload hn
  unfold ReadSide.readInto
  generalize s.readPayload n = out at hpay
  obtain ⟨res, s'⟩ := out
  cases res with
  | error e => exact hpay.error
  | ok chunk => exact called_ok hpay.kept (hpay.ok chunk rfl) ()

theorem relayRound {x : Relay ReadSide} (h : Kept o x.conn) :
    Sum.elim (fun y : Relay ReadSide => Kept o y.conn ∧ SameFlags x.conn y.conn)
      (fun out : Option Err × Relay ReadSide => Leaves o x.conn out.2.conn)
      (ReadSide.relayRound x) := by
  obtain ⟨hpay, hfailure, hdrained⟩ := h.payloadN x.conn.rx.dec.buffered
  have same : SameFlags x.conn (x.conn.payloadN x.conn.rx.dec.buffered).2 := ⟨rfl, rfl, rfl⟩
  -- A round that hands its chunk over after `s'`.
  have hround : ∀ {y : Relay ReadSide} (_ : Kept o y.conn) (_ : SameFlags x.conn y.conn)
      (chunk : List UInt8) {done : Bool} (_ : done = true → y.conn.rx.remaining = 0),
      Sum.elim (fun y : Relay ReadSide => Kept o y.conn ∧ SameFlags x.conn y.conn)
        (fun out : Option Err × Relay ReadSide => Leaves o x.conn out.2.conn)
        (ReadSide.relayChunk y chunk done) := by
    intro y hy hsame chunk done hdone
    have hrelay := relayChunk hy chunk hdone
    generalize ReadSide.relayChunk y chunk done = out at hrelay
    cases out with
    | inl z => exact ⟨hrelay.1, hsame.trans hrelay.2⟩
    | inr out => exact hrelay.after hsame
  unfold ReadSide.relayRound ReadSide.payload
  generalize x.conn.payloadN x.conn.rx.dec.buffered = out at hpay hfailure hdrained same
  obtain ⟨res, s'⟩ := out
  have hbuf := s'.settings.bufSize_pos
  have hfragment := s'.settings.fragmentSize_pos
  cases res with
  | error e =>
    have hcall : Called o x.conn ((.error e : Except Err Unit), s'.fail e) :=
      hpay.called_fail (hfailure e rfl)
    exact hcall.left
  | ok got =>
    obtain ⟨chunk, done⟩ := got
    dsimp only at same ⊢
    split_ifs with hempty hsmall
    · obtain ⟨hfill, same', -⟩ := hpay.fill
      dsimp only at hfill same'
      generalize s'.fill = out at hfill same'
      obtain ⟨res, s''⟩ := out
      cases res with
      | error e => exact (hfill.after same).left
      | ok _ => exact ⟨hfill.kept, same.trans same'⟩
    · have hinto := hpay.readInto (n := min s'.rx.remaining s'.settings.fragmentSize) (by omega)
        { held := x.held }
      dsimp only at hinto
      generalize s'.readInto { held := x.held } _ = out at hinto
      obtain ⟨res, msg, s''⟩ := out
      cases res with
      | error e => exact (hinto.after same).left
      | ok _ =>
        exact hround (y := { x with conn := s'', held := msg.held }) hinto.kept
          (same.trans (hinto.ok () rfl)) msg.bytes fun hd => beq_iff_eq.mp hd
    · refine hround (y := { x with conn := s' }) hpay same chunk fun hd => ?_
      subst hd
      exact hdrained chunk rfl

theorem relay (h : Kept o s) (w : Writer) (held : Bool) : Leaves o s (s.relay w held).2.conn :=
  left_run (f := Relay.conn) (g := fun out : Option Err × Relay ReadSide => out.2.conn)
    (fun _ hx => hx.relayRound) (x := ⟨0, w, s, held⟩) h rfl _

/-! ## `assemble` -/

/-- How the inner loop leaves : with the message, at the end of a frame, or with an error. -/
inductive Gathers (o : Origin) (s : ReadSide) : Gathered × MsgBuf × ReadSide → Prop
  | whole {p : List UInt8} {msg : MsgBuf} {s' : ReadSide} (kept : Kept o s')
      (same : SameFlags s s') (finished : Finished s') : Gathers o s (.whole p, msg, s')
  | frame {msg : MsgBuf} {s' : ReadSide} (kept : Kept o s') (same : SameFlags s s')
      (drained : s'.rx.remaining = 0) : Gathers o s (.frame, msg, s')
  | error {e : Err} {msg : MsgBuf} {s' : ReadSide} (kept : Kept o s')
      (stays : SameFlags s s' ∨ Stopped s') : Gathers o s (.error e, msg, s')

theorem Gathers.after {out : Gathered × MsgBuf × ReadSide} (h : Gathers o s' out)
    (same : SameFlags s s') : Gathers o s out := by
  cases h with
  | whole kept same' finished => exact .whole kept (same.trans same') finished
  | frame kept same' drained => exact .frame kept (same.trans same') drained
  | error kept stays => exact .error kept (stays.imp_left same.trans)

theorem gatherRound (h : Kept o s) (msg : MsgBuf) :
    Sum.elim (fun x : MsgBuf × ReadSide => Kept o x.2 ∧ SameFlags s x.2) (Gathers o s)
      (ReadSide.gatherRound (msg, s)) := by
  obtain ⟨hpay, hfailure, hdrained⟩ := h.payloadN s.rx.dec.buffered
  have same : SameFlags s (s.payloadN s.rx.dec.buffered).2 := ⟨rfl, rfl, rfl⟩
  unfold ReadSide.gatherRound ReadSide.payload
  dsimp only
  generalize s.payloadN s.rx.dec.buffered = out at hpay hfailure hdrained same
  obtain ⟨res, s'⟩ := out
  have hbuf := s'.settings.bufSize_pos
  cases res with
  | error e =>
    exact .error (hpay.fail (excused_of_failure (hfailure e rfl))) (Or.inr (stopped_fail s' e))
  | ok got =>
    obtain ⟨chunk, done⟩ := got
    dsimp only at same ⊢
    split_ifs with hwhole hchunk hdone hbig
    · simp only [Bool.and_eq_true, Bool.not_eq_true'] at hwhole
      obtain ⟨⟨rfl, -⟩, hopen⟩ := hwhole
      exact .whole hpay same ⟨hdrained chunk rfl, Or.inl hopen⟩
    · subst hdone
      exact .frame hpay same (hdrained chunk rfl)
    · exact ⟨hpay, same⟩
    · have hinto := hpay.readInto (n := s'.rx.remaining) (by omega) msg
      dsimp only at hinto
      generalize s'.readInto msg s'.rx.remaining = out at hinto
      obtain ⟨res, msg', s''⟩ := out
      cases res with
      | error e => exact .error hinto.kept (hinto.after same).stays
      | ok _ => exact ⟨hinto.kept, same.trans (hinto.ok () rfl)⟩
    · obtain ⟨hfill, same', -⟩ := hpay.fill
      dsimp only at hfill same'
      generalize s'.fill = out at hfill same'
      obtain ⟨res, s''⟩ := out
      cases res with
      | error e => exact .error hfill.kept (hfill.after same).stays
      | ok _ => exact ⟨hfill.kept, same.trans same'⟩

theorem gather (h : Kept o s) (msg : MsgBuf) : Gathers o s (s.gather msg) := by
  refine Loop.run_keeps (fun x : MsgBuf × ReadSide => Kept o x.2 ∧ SameFlags s x.2)
    (fun x hx => ?_) (.error h (Or.inl (.refl s))) ⟨h, .refl s⟩ _
  have hround := gatherRound hx.1 x.1
  generalize ReadSide.gatherRound (x.1, x.2) = out at hround
  cases out with
  | inl y => exact ⟨hround.1, hx.2.trans hround.2⟩
  | inr out => exact hround.after hx.2

/-- How `assemble` leaves : at the end of the message, or with an error. -/
structure Assembles (o : Origin) (s : ReadSide)
    (out : Except Err (List UInt8) × MsgBuf × ReadSide) : Prop where
  kept : Kept o out.2.2
  finished : ∀ p, out.1 = .ok p → Finished out.2.2
  stays : SameFlags s out.2.2 ∨ Stopped out.2.2

theorem assembleRound (h : Kept o s) (msg : MsgBuf) :
    Sum.elim (fun x : MsgBuf × ReadSide => Kept o x.2 ∧ SameFlags s x.2) (Assembles o s)
      (ReadSide.assembleRound (msg, s)) := by
  have hgather := h.gather msg
  unfold ReadSide.assembleRound
  dsimp only
  by_cases hlarge : s.rx.header.payloadLen > s.room msg.bytes
  · rw [if_pos hlarge]
    exact ⟨h.fail (excused_of_failure ⟨1009, .messageTooLarge, rfl⟩), fun p hp => (by cases hp),
      Or.inr (stopped_fail s _)⟩
  · rw [if_neg hlarge]
    generalize s.gather msg = out at hgather
    cases hgather with
    | error kept stays => exact ⟨kept, fun p hp => (by cases hp), stays⟩
    | whole kept same finished => exact ⟨kept, fun _ _ => finished, Or.inl same⟩
    | @frame msg' s' kept same drained =>
      have hframe := kept.nextFrame drained
      dsimp only
      split_ifs with hopen
      · exact ⟨kept, fun _ _ => ⟨drained, Or.inl (by simpa using hopen)⟩, Or.inl same⟩
      · generalize s'.nextFrame = out at hframe
        obtain ⟨res, s''⟩ := out
        cases res with
        | error e => exact ⟨hframe.kept, fun p hp => (by cases hp), (hframe.after same).stays⟩
        | ok _ => exact ⟨hframe.kept, same.trans (hframe.ok () rfl)⟩

theorem assemble (h : Kept o s) (held : Bool) : Assembles o s (s.assemble held) := by
  refine Loop.run_keeps (fun x : MsgBuf × ReadSide => Kept o x.2 ∧ SameFlags s x.2)
    (fun x hx => ?_) ⟨h, fun p hp => (by cases hp), Or.inl (.refl s)⟩ ⟨h, .refl s⟩ _
  have hround := assembleRound hx.1 x.1
  generalize ReadSide.assembleRound (x.1, x.2) = out at hround
  cases out with
  | inl y => exact ⟨hround.1, hx.2.trans hround.2⟩
  | inr out => exact ⟨hround.kept, hround.finished, hround.stays.imp_left hx.2.trans⟩

end Kept

/-! ## Where the message has ended -/

theorem payloadN_ended (hr : s.rx.remaining = 0) (n : ℤ) :
    s.payloadN n = (.ok ([], true), s) ∨ ∃ e, s.payloadN n = (.error e, s) := by
  unfold ReadSide.payloadN
  cases hf : s.rx.failed with
  | some e =>
    rw [Receiver.payloadN_failed hf]
    exact Or.inr ⟨e, rfl⟩
  | none =>
    rw [Receiver.payloadN_drained hf hr]
    exact Or.inl rfl

/-- The loop that ends `discard` leaves the message. -/
theorem skip_quiet (h : Kept o s) (outside : s.inMessage = false → Clear s)
    (quiet : s.streaming = false) : Kept o s.skip.2 ∧
      (s.skip.2.inMessage = false → Clear s.skip.2) ∧ s.skip.2.streaming = false ∧
      (s.skip.1 = .ok () → s.skip.2.inMessage = false ∧
        ((s.inMessage = false → s.rx.remaining = 0) → s.skip.2.rx.remaining = 0)) := by
  cases hin : s.inMessage with
  | false =>
    have hskip : s.skip = (.ok (), s) := by
      simp [ReadSide.skip, Loop.run, Loop.iterate, ReadSide.skipRound, hin]
    rw [hskip]
    exact ⟨h, outside, quiet, fun _ => ⟨hin, fun hr => hr rfl⟩⟩
  | true =>
    obtain ⟨hleft, hskip⟩ := h.skip hin
    refine ⟨hleft.kept, hleft.outside hin, Bool.eq_false_iff.mpr fun hs => ?_,
      fun hok => ⟨(hskip hok).1, fun _ => (hskip hok).2⟩⟩
    exact absurd (quiet.symm.trans (hleft.streaming hs)) (by decide)

theorem Finished.readPlain (h : Finished s) (hnone : s.readErr = none) (n : ℕ) :
    Finished (s.readPlain n).2 ∨ Stopped (s.readPlain n).2 := by
  obtain ⟨hr, hopen⟩ := h.clear hnone
  rcases payloadN_ended hr n with heq | ⟨e, heq⟩
  · have hplain : s.readPlain n = (.error .eof, { s with inMessage := false }) := by
      simp [ReadSide.readPlain, Loop.run, Loop.iterate, ReadSide.readRound, heq, hopen]
    rw [hplain]
    exact Or.inl ⟨hr, Or.inl hopen⟩
  · have hplain : s.readPlain n = (.error e, s.fail e) := by
      simp [ReadSide.readPlain, Loop.run, Loop.iterate, ReadSide.readRound, heq]
    rw [hplain]
    exact Or.inr (stopped_fail s e)

theorem Finished.relay (h : Finished s) (hnone : s.readErr = none) (w : Writer) (held : Bool) :
    Finished (s.relay w held).2.conn ∨ Stopped (s.relay w held).2.conn := by
  obtain ⟨hr, hopen⟩ := h.clear hnone
  rcases payloadN_ended hr s.rx.dec.buffered with heq | ⟨e, heq⟩
  · have hrelay : s.relay w held = (none, ⟨0, w, { s with inMessage := false }, held⟩) := by
      simp [ReadSide.relay, Loop.run, Loop.iterate, ReadSide.relayRound, ReadSide.payload, heq,
        ReadSide.relayChunk, hopen]
    rw [hrelay]
    exact Or.inl ⟨hr, Or.inl hopen⟩
  · have hrelay : s.relay w held = (some e, ⟨0, w, s.fail e, held⟩) := by
      simp [ReadSide.relay, Loop.run, Loop.iterate, ReadSide.relayRound, ReadSide.payload, heq]
    rw [hrelay]
    exact Or.inr (stopped_fail s e)

end ReadSide

end Ews
