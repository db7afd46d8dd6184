import Ews.Cuts

/-!
# Where a stream may end

A stream is settled if what comes next starts afresh : no frame is torn and no message is open.
`Receiver.idle`, which decides between `io.EOF` and `io.ErrUnexpectedEOF` when the transport ends, is
exactly this (`idle_iff_settled`), whatever the bytes were. Of whole frames it says that they leave no
message open (`settled_wire`).
-/

set_option linter.unusedSectionVars false

namespace Ews

namespace Rules

variable {R : Rules}

/-- What follows the bytes starts afresh. -/
def Settled (R : Rules) (bytes : List UInt8) : Prop :=
  ∀ fut, R.events false (bytes ++ fut) = R.events false bytes ++ R.events false fut

/-- Inside a message only a continuation gives data. -/
theorem opcode_of_events {bs : List UInt8} {final rsv1 : Bool} {op : Opcode} {n : ℕ}
    {es : List Event} (h : R.events true bs = .data final rsv1 op n :: es) : op = .continuation := by
  cases hp : parseHead bs with
  | more =>
    rw [events_more R true hp] at h
    cases h
  | invalid =>
    rw [events_invalid R true hp] at h
    cases h
  | head fh rest =>
    rw [events_head R true hp] at h
    split_ifs at h with hlegal hcontrol
    · unfold controlEvents at h
      split_ifs at h
      · split at h <;> cases h
      · cases h
    · cases h
      simp only [legal, Bool.and_eq_true] at hlegal
      have hop := hlegal.2
      split_ifs at hop with hs hc
      · simp at hop
      · simpa using hc
      · simp only [Bool.and_eq_true] at hop
        exact absurd hop.1.1.1 hcontrol
    · cases h

/-- A text without payload. -/
def emptyText (R : Rules) : Frame :=
  ⟨true, false, .text, if R.role = .server then some ⟨0, 0, 0, 0⟩ else none, []⟩

theorem events_emptyText (R : Rules) :
    R.events false R.emptyText.bytes = [.data true false .text 0] := by
  have hadm : R.admits false R.emptyText = true := by
    have hstart : Opcode.startsMessage .text = true ∧ Opcode.text ≠ Opcode.close := by decide
    obtain ⟨role, compression⟩ := R
    cases role <;> simp [admits, legal, emptyText, Frame.head, hstart]
  have hop : R.emptyText.opcode ≠ .close := fun h => absurd (show Opcode.text = .close from h)
    (by decide)
  have hnil : R.events (R.emptyText.opens false) [] = [] := events_more R _ rfl
  have hframe := events_frame hadm []
  rw [List.append_nil, if_neg hop, hnil, List.append_nil] at hframe
  exact hframe

/-- A message that is open shows in what may follow. -/
theorem shut_of_events {openMsg : Bool} {p : List UInt8}
    (h : ∀ fut, R.events openMsg (p ++ fut) = R.events false fut) : openMsg = false := by
  cases openMsg with
  | false => rfl
  | true =>
    have htext := (h R.emptyText.bytes).trans R.events_emptyText
    exact absurd (opcode_of_events htext) (by decide)

/-- Whole frames are settled unless they leave a message open. -/
theorem settled_wire {fs : List Frame} (legal : R.stream false fs = true)
    (noClose : ∀ f ∈ fs, f.opcode ≠ .close) :
    R.Settled (wire fs) ↔ fs.foldl Frame.opens false = false := by
  have hevents := fun fut => events_wire_append fut fs legal noClose
  have hwire := events_wire fs legal
  constructor
  · intro h
    refine shut_of_events (R := R) (p := []) fun fut => ?_
    have hfut := h fut
    rw [hevents, hwire] at hfut
    exact List.append_cancel_left hfut
  · intro hopen fut
    rw [hevents, hwire, hopen]

end Rules

namespace Receiver

variable {r : Receiver}

/-- A receiver that expects what a new one expects is between messages. -/
theorem rest_of_expected (coupled : r.Coupled) (live : r.dead = false)
    (h : ∀ fut, r.expected fut = r.rules.events false fut) :
    r.remaining = 0 ∧ r.messageOpen = false := by
  have hcontrol := controlOpen_of_expected coupled live h
  have rem : r.remaining = 0 := by
    by_contra hr
    have hone : r.rules.events false [0] = [] := Rules.events_more _ _ rfl
    have hbyte := h [0]
    rw [hone, expected_data live hcontrol hr, Rules.dataEvents] at hbyte
    have hnone := congrArg List.length (List.append_eq_nil_iff.mp hbyte).1
    rw [List.length_map, length_maskWith, List.length_take, List.length_append] at hnone
    simp only [List.length_singleton, List.length_nil] at hnone
    omega
  refine ⟨rem, Rules.shut_of_events (R := r.rules) (p := r.dec.pending) fun fut => ?_⟩
  rw [← expected_between live hcontrol rem, h]

/-- When the transport ends, the receiver is idle exactly if the stream is settled. -/
theorem idle_iff_settled {bytes : List UInt8} {es : List Event} (coupled : r.Coupled)
    (live : r.dead = false)
    (events : ∀ fut, r.rules.events false (bytes ++ fut) = es ++ r.expected fut)
    (dry : r.expected [] = []) : r.idle = true ↔ r.rules.Settled bytes := by
  have hes : r.rules.events false bytes = es := by
    have hnil := events []
    rwa [dry, List.append_nil, List.append_nil] at hnil
  constructor
  · intro hidle fut
    simp only [idle, Bool.and_eq_true, beq_iff_eq, Bool.not_eq_true'] at hidle
    obtain ⟨⟨⟨rem, control⟩, opcode⟩, buffered⟩ := hidle
    have hpending : r.dec.pending = [] := List.length_eq_zero_iff.mp buffered
    have shut : r.messageOpen = false := by simp [messageOpen, opcode]
    rw [events, hes, expected_between live control rem, shut, hpending, List.nil_append]
  · intro hsettled
    have hfresh : ∀ fut, r.expected fut = r.rules.events false fut := fun fut => by
      have hfut := hsettled fut
      rw [events, hes] at hfut
      exact List.append_cancel_left hfut
    obtain ⟨rem, shut⟩ := rest_of_expected coupled live hfresh
    exact idle_of_expected coupled live rem shut hfresh

end Receiver

end Ews
