import Ews.Messages

/-!
# Sequences of frames

`Rules.stream` says that frames form a legal sequence for a receiver : each is legal where
it stands, and nothing follows a close. `events_wire` gives the events of the bytes of such
a sequence, `messages_wire` its messages : those that `gather` finds by concatenating the
payloads of the frames of each message.
-/

namespace Ews

namespace Frame

/-- The events of a frame. -/
def events (f : Frame) : List Event :=
  if f.opcode.isControl then [.control f.opcode f.payload]
  else .data f.final f.rsv1 f.opcode f.payload.length :: f.payload.map .byte

/-- Whether a message is open after the frame. -/
def opens (openMsg : Bool) (f : Frame) : Bool :=
  if f.opcode.isControl then openMsg else !f.final

end Frame

/-- The bytes of frames. -/
def wire (fs : List Frame) : List UInt8 :=
  fs.flatMap Frame.bytes

@[simp] theorem wire_nil : wire [] = [] := rfl

@[simp] theorem wire_cons (f : Frame) (fs : List Frame) : wire (f :: fs) = f.bytes ++ wire fs := rfl

@[simp] theorem wire_append (fs gs : List Frame) : wire (fs ++ gs) = wire fs ++ wire gs :=
  List.flatMap_append

namespace Rules

/-- A frame that is legal with a message open or not. -/
def admits (R : Rules) (openMsg : Bool) (f : Frame) : Bool :=
  R.legal openMsg f.head && decide (f.payload.length < 2 ^ 63) &&
    (f.opcode != .close || (closeFault f.payload).isNone)

/-- A legal sequence of frames. -/
def stream (R : Rules) : Bool → List Frame → Bool
  | _, [] => true
  | openMsg, f :: fs => R.admits openMsg f &&
      if f.opcode = .close then fs.isEmpty else R.stream (f.opens openMsg) fs

variable {R : Rules} {openMsg : Bool}

theorem stream_cons {f : Frame} {fs : List Frame} : R.stream openMsg (f :: fs) = true ↔
    R.admits openMsg f = true ∧
      (if f.opcode = .close then fs = [] else R.stream (f.opens openMsg) fs = true) := by
  by_cases h : f.opcode = .close <;> simp [stream, h]

theorem opcode_lt_of_legal {fh : FrameHead} (h : R.legal openMsg fh = true) :
    fh.opcode.toNat < 16 := by
  simp only [legal, Bool.and_eq_true] at h
  have hop := h.2
  split_ifs at hop with hs hc
  · simp only [Opcode.startsMessage, Bool.or_eq_true, beq_iff_eq] at hs
    rcases hs with hs | hs <;> rw [hs] <;> decide
  · simp only [beq_iff_eq] at hc
    rw [hc]
    decide
  · simp only [Bool.and_eq_true, Opcode.isControl, Bool.or_eq_true, beq_iff_eq] at hop
    rcases hop.1.1.1 with (h | h) | h <;> rw [h] <;> decide

/-- The events of a legal frame and what follows it. -/
theorem events_frame {f : Frame} (h : R.admits openMsg f = true) (rest : List UInt8) :
    R.events openMsg (f.bytes ++ rest) = f.events ++
      if f.opcode = .close then [] else R.events (f.opens openMsg) rest := by
  simp only [admits, Bool.and_eq_true, decide_eq_true_eq, Bool.or_eq_true, bne_iff_ne, ne_eq] at h
  obtain ⟨⟨hlegal, hlen⟩, hclose⟩ := h
  have hp := parseHead_header f (opcode_lt_of_legal hlegal) hlen (f.body ++ rest)
  rw [← List.append_assoc] at hp
  rw [Frame.bytes, R.events_head openMsg hp, if_pos hlegal]
  have htake : (f.body ++ rest).take f.payload.length = f.body := by
    rw [← f.length_body, List.take_left]
  have hdrop : (f.body ++ rest).drop f.payload.length = rest := by
    rw [← f.length_body, List.drop_left]
  have hmask : maskWith f.key 0 f.body = f.payload := maskWith_maskWith _ _ _
  have hnot : ¬(f.body ++ rest).length < f.payload.length := by
    rw [List.length_append, f.length_body]
    omega
  cases hc : f.opcode.isControl with
  | true =>
    simp only [Frame.head, hc, if_true, controlEvents, if_neg hnot, htake, hmask, hdrop,
      List.nil_append, Frame.events, Frame.opens]
    by_cases hop : f.opcode = .close
    · have hfault : closeFault f.payload = none := by
        rcases hclose with h | h
        · exact absurd hop h
        · simpa using h
      simp [hop, hfault]
    · simp [hop]
  | false =>
    have hop : f.opcode ≠ .close := fun h => by
      rw [h] at hc
      exact absurd hc (by decide)
    simp only [Frame.head, hc, Bool.false_eq_true, if_false, dataEvents, if_neg hnot, htake, hmask,
      hdrop, Frame.events, Frame.opens, if_neg hop, List.cons_append]

/-- The events of a legal sequence. -/
theorem events_wire : ∀ (fs : List Frame) {openMsg : Bool}, R.stream openMsg fs = true →
    R.events openMsg (wire fs) = fs.flatMap Frame.events
  | [], openMsg, _ => R.events_more openMsg (by rfl)
  | f :: fs, openMsg, h => by
    obtain ⟨hadm, hrest⟩ := stream_cons.mp h
    rw [wire_cons, events_frame hadm, List.flatMap_cons]
    split_ifs at hrest with hop
    · simp [hop, hrest]
    · rw [if_neg hop, events_wire fs hrest]

end Rules

/-! ## Messages -/

/-- A message after one more of its data frames, or its first. -/
def WireMessage.join (cur : Option WireMessage) (f : Frame) : WireMessage :=
  match cur with
  | some w => { w with payload := w.payload ++ f.payload }
  | none => ⟨f.opcode, f.rsv1, f.payload⟩

/-- The complete messages of a sequence of frames, from inside a message or between two. -/
def gather : Option WireMessage → List Frame → List WireMessage
  | _, [] => []
  | cur, f :: fs =>
    if f.opcode.isControl then if f.opcode = .close then [] else gather cur fs
    else if f.final then .join cur f :: gather none fs else gather (some (.join cur f)) fs

/-- A message under way, between two of its frames. -/
def between (w : WireMessage) : OpenMessage :=
  ⟨w, ⟨0, false⟩⟩

/-- A whole data frame of the message `w`. -/
theorem emit_frame (w : WireMessage) (f : Frame) (es : List Event) :
    emit w ⟨f.payload.length, f.final⟩ (f.payload.map .byte ++ es) =
      let w' := { w with payload := w.payload ++ f.payload }
      if f.final then w' :: messages es else messagesFrom (some (between w')) es := by
  rw [emit_scan es _ w _ (scan_bytes f.payload _ le_rfl), Nat.sub_self]
  cases hf : f.final with
  | true => exact emit_ended rfl _ _
  | false => rfl

theorem messagesFrom_events {R : Rules} : ∀ (fs : List Frame) (cur : Option WireMessage),
    R.stream cur.isSome fs = true →
      messagesFrom (cur.map between) (fs.flatMap Frame.events) = gather cur fs
  | [], cur, _ => by cases cur <;> rfl
  | f :: fs, cur, h => by
    obtain ⟨hadm, hrest⟩ := Rules.stream_cons.mp h
    rw [List.flatMap_cons, gather]
    by_cases hc : f.opcode.isControl = true
    · have hev : f.events = [.control f.opcode f.payload] := by simp [Frame.events, hc]
      rw [if_pos hc, hev, List.singleton_append]
      by_cases hop : f.opcode = .close
      · rw [if_pos hop]
        cases cur <;> simp [messagesFrom, hop]
      · rw [if_neg hop] at hrest ⊢
        rw [Frame.opens, if_pos hc] at hrest
        rw [← messagesFrom_events fs cur hrest]
        cases cur <;> simp [messagesFrom, hop]
    · have hop : f.opcode ≠ .close := fun h => hc (by rw [h]; rfl)
      have hev : f.events =
          .data f.final f.rsv1 f.opcode f.payload.length :: f.payload.map .byte := by
        simp [Frame.events, hc]
      rw [if_neg hop, Frame.opens, if_neg hc] at hrest
      rw [if_neg hc, hev, List.cons_append]
      have hnone := fun hf : f.final = true =>
        messagesFrom_events fs none (by simpa [hf] using hrest)
      have hsome := fun (w : WireMessage) (hf : f.final = false) =>
        messagesFrom_events fs (some w) (by simpa [hf] using hrest)
      cases cur with
      | none =>
        show messages _ = _
        rw [messages_data, emit_frame]
        cases hf : f.final with
        | true => simp [← hnone hf, messages, WireMessage.join]
        | false => simp [← hsome _ hf, WireMessage.join]
      | some w =>
        have hdata : messagesFrom ((some w).map between)
            (.data f.final f.rsv1 f.opcode f.payload.length ::
              (f.payload.map .byte ++ fs.flatMap Frame.events)) =
            emit w ⟨f.payload.length, f.final⟩ (f.payload.map .byte ++ fs.flatMap Frame.events) := by
          simp [messagesFrom, between, emit]
        rw [hdata, emit_frame]
        cases hf : f.final with
        | true => simp [← hnone hf, messages, WireMessage.join]
        | false => simp [← hsome _ hf, WireMessage.join]

/-- The messages on the wire are those of the frames. -/
theorem messages_wire {R : Rules} {fs : List Frame} (h : R.stream false fs = true) :
    messages (R.events false (wire fs)) = gather none fs := by
  rw [R.events_wire fs h]
  exact messagesFrom_events fs none h

end Ews
