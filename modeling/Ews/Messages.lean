import Ews.Grammar

/-!
# Messages in a sequence of events

What the events of a stream mean to a reader of messages. `messages` lists the complete
messages, each with its opcode, its RSV1 bit and the concatenation of its frames'
payloads ; `controls` lists the control frames a handler sees.

A reader stands at a `Cursor` : the payload left in the current frame and whether that
frame ends the message. `scan` takes a cursor through events of the same message and
collects the payload. It takes nothing past the end of the message, so of two readers of
one stream neither leaves a message at another place than the other (`emit_scan`).
-/

namespace Ews

/-- A message as it is on the wire. -/
structure WireMessage where
  opcode : Opcode
  compressed : Bool
  payload : List UInt8
  deriving DecidableEq, Repr

/-- What a control frame says to a `ControlHandler`. -/
inductive ControlEvent
  | ping (payload : List UInt8)
  | pong (payload : List UInt8)
  | close (code : ℕ) (reason : List UInt8)
  deriving DecidableEq, Repr

/-- The call `handleControl` makes, if any. -/
def ControlEvent.ofFrame (op : Opcode) (payload : List UInt8) : Option ControlEvent :=
  if op = .ping then some (.ping payload)
  else if op = .pong then some (.pong payload)
  else if op = .close then some (.close (parseClose payload).1 (parseClose payload).2)
  else none

/-- The handler's call for an event. -/
def Event.call : Event → Option ControlEvent
  | .control op payload => ControlEvent.ofFrame op payload
  | _ => none

/-- The handler's calls for a sequence of events. -/
def controls (es : List Event) : List ControlEvent :=
  es.filterMap Event.call

@[simp] theorem controls_nil : controls [] = [] := rfl

@[simp] theorem controls_append (es es' : List Event) :
    controls (es ++ es') = controls es ++ controls es' :=
  List.filterMap_append

@[simp] theorem controls_bytes (bs : List UInt8) : controls (bs.map .byte) = [] := by
  simp [controls, List.filterMap_map, Function.comp_def, Event.call]

/-- A control frame other than a close. -/
def Event.IsPing : Event → Prop
  | .control op _ => op ≠ .close
  | _ => False

/-! ## Cursors -/

/-- The payload left in the current frame, and whether the frame is the message's last. -/
structure Cursor where
  left : ℕ
  final : Bool
  deriving DecidableEq, Repr

/-- The message is complete. -/
def Cursor.ended (k : Cursor) : Bool :=
  k.left = 0 && k.final

/-- Go through events of the current message, with the payload they carry. -/
def scan (k : Cursor) : List Event → Option (List UInt8 × Cursor)
  | [] => some ([], k)
  | .byte b :: es =>
    if k.left = 0 then none
    else (scan ⟨k.left - 1, k.final⟩ es).map fun x => (b :: x.1, x.2)
  | .control op _ :: es =>
    if k.left = 0 ∧ k.final = false ∧ op ≠ .close then scan k es else none
  | .data final _ op length :: es =>
    if k.left = 0 ∧ k.final = false ∧ op = .continuation then scan ⟨length, final⟩ es else none
  | .fail _ :: _ => none

theorem scan_append (k : Cursor) : ∀ es es' : List Event,
    scan k (es ++ es') = (scan k es).bind fun x => (scan x.2 es').map fun y => (x.1 ++ y.1, y.2)
  | [], es' => by simp [scan]
  | .byte b :: es, es' => by
    simp only [List.cons_append, scan]
    split_ifs
    · rfl
    · rw [scan_append ⟨k.left - 1, k.final⟩ es es']
      cases scan ⟨k.left - 1, k.final⟩ es with
      | none => rfl
      | some x => simp [Function.comp_def]
  | .control op p :: es, es' => by
    simp only [List.cons_append, scan]
    split_ifs
    · exact scan_append k es es'
    · rfl
  | .data final rsv1 op length :: es, es' => by
    simp only [List.cons_append, scan]
    split_ifs
    · exact scan_append ⟨length, final⟩ es es'
    · rfl
  | .fail code :: es, es' => rfl

/-- Payload within the frame. -/
theorem scan_bytes : ∀ (bs : List UInt8) (k : Cursor), bs.length ≤ k.left →
    scan k (bs.map .byte) = some (bs, ⟨k.left - bs.length, k.final⟩)
  | [], k, _ => by simp [scan]
  | b :: bs, k, h => by
    rw [List.length_cons] at h
    rw [List.map_cons, scan, if_neg (by omega), scan_bytes bs ⟨k.left - 1, k.final⟩ (by simp; omega)]
    simp only [Option.map_some, List.length_cons]
    congr 3
    omega

/-- Control frames between the frames of a message. -/
theorem scan_pings {k : Cursor} (h0 : k.left = 0) (hf : k.final = false) :
    ∀ es : List Event, (∀ e ∈ es, e.IsPing) → scan k es = some ([], k)
  | [], _ => rfl
  | e :: es, h => by
    have he := h e List.mem_cons_self
    cases e with
    | control op p =>
      rw [scan, if_pos ⟨h0, hf, he⟩]
      exact scan_pings h0 hf es fun e he => h e (List.mem_cons_of_mem _ he)
    | _ => exact he.elim

/-- Nothing is taken past the end of a message. -/
theorem scan_of_ended {k k' : Cursor} {es : List Event} {p : List UInt8} (hk : k.ended = true)
    (h : scan k es = some (p, k')) : es = [] := by
  simp only [Cursor.ended, Bool.and_eq_true, decide_eq_true_eq] at hk
  cases es with
  | nil => rfl
  | cons e es => cases e <;> simp [scan, hk.1, hk.2] at h

/-- What is left of a frame is taken or still left. -/
theorem scan_left : ∀ (es : List Event) {k k' : Cursor} {p : List UInt8},
    scan k es = some (p, k') → k.left ≤ p.length + k'.left
  | [], k, k', p, h => by
    obtain ⟨rfl, rfl⟩ := Prod.mk.inj (Option.some.inj h)
    exact Nat.le_add_left _ _
  | .byte b :: es, k, k', p, h => by
    simp only [scan] at h
    split_ifs at h with h0
    obtain ⟨x, hx, hxe⟩ := Option.map_eq_some_iff.mp h
    obtain ⟨rfl, rfl⟩ := Prod.mk.inj hxe
    have := scan_left es hx
    simp only [List.length_cons] at this ⊢
    omega
  | .control op q :: es, k, k', p, h => by
    simp only [scan] at h
    split_ifs at h with h0
    exact scan_left es h
  | .data final rsv1 op length :: es, k, k', p, h => by
    simp only [scan] at h
    split_ifs at h with h0
    omega
  | .fail code :: es, k, k', p, h => by simp [scan] at h

/-- At the head of the next frame the one before is taken. -/
theorem scan_head {k k' : Cursor} {es : List Event} {p : List UInt8} {final rsv1 : Bool}
    {op : Opcode} {length : ℕ} (h : scan k (es ++ [.data final rsv1 op length]) = some (p, k')) :
    k.left ≤ p.length := by
  rw [scan_append] at h
  obtain ⟨x, hx, hrest⟩ := Option.bind_eq_some_iff.mp h
  obtain ⟨y, hy, hxy⟩ := Option.map_eq_some_iff.mp hrest
  obtain ⟨rfl, -⟩ := Prod.mk.inj hxy
  have hleft := scan_left es hx
  simp only [scan] at hy
  split_ifs at hy with h0
  rw [List.length_append]
  omega

/-- Neither a failure nor a close is inside a message. -/
theorem scan_mem {e : Event} : ∀ {es : List Event} {k k' : Cursor} {p : List UInt8},
    scan k es = some (p, k') → e ∈ es →
      (∀ code, e ≠ .fail code) ∧ ∀ q, e ≠ .control .close q
  | .byte b :: es, k, k', p, h, he => by
    simp only [scan] at h
    split_ifs at h with h0
    obtain ⟨x, hx, -⟩ := Option.map_eq_some_iff.mp h
    rcases List.mem_cons.mp he with rfl | he
    · simp
    · exact scan_mem hx he
  | .control op q :: es, k, k', p, h, he => by
    simp only [scan] at h
    split_ifs at h with h0
    rcases List.mem_cons.mp he with rfl | he
    · simp [h0.2.2]
    · exact scan_mem h he
  | .data final rsv1 op length :: es, k, k', p, h, he => by
    simp only [scan] at h
    split_ifs at h with h0
    rcases List.mem_cons.mp he with rfl | he
    · simp
    · exact scan_mem h he
  | .fail code :: es, k, k', p, h, he => by simp [scan] at h

/-! ## The messages of a stream -/

/-- A message that is not complete : what it has so far and where its reader stands. -/
structure OpenMessage where
  message : WireMessage
  cursor : Cursor
  deriving DecidableEq, Repr

/-- The messages completed by events, from inside a message or between messages. -/
def messagesFrom : Option OpenMessage → List Event → List WireMessage
  | _, [] => []
  | cur, .control op _ :: es => if op = .close then [] else messagesFrom cur es
  | some m, .byte b :: es =>
    let w := { m.message with payload := m.message.payload ++ [b] }
    let k : Cursor := ⟨m.cursor.left - 1, m.cursor.final⟩
    if m.cursor.left = 0 then []
    else if k.ended then w :: messagesFrom none es else messagesFrom (some ⟨w, k⟩) es
  | some m, .data final _ _ length :: es =>
    let k : Cursor := ⟨length, final⟩
    if m.cursor.left ≠ 0 then []
    else if k.ended then m.message :: messagesFrom none es else messagesFrom (some ⟨m.message, k⟩) es
  | none, .data final rsv1 op length :: es =>
    let k : Cursor := ⟨length, final⟩
    if k.ended then ⟨op, rsv1, []⟩ :: messagesFrom none es
    else messagesFrom (some ⟨⟨op, rsv1, []⟩, k⟩) es
  | none, .byte _ :: _ => []
  | _, .fail _ :: _ => []

/-- The complete messages of a stream. -/
def messages (es : List Event) : List WireMessage :=
  messagesFrom none es

/-- The messages from `w` on, at the cursor `k` in it : `w` is the first if `k` is at its
end. -/
def emit (w : WireMessage) (k : Cursor) (es : List Event) : List WireMessage :=
  if k.ended then w :: messagesFrom none es else messagesFrom (some ⟨w, k⟩) es

theorem emit_ended {k : Cursor} (h : k.ended = true) (w : WireMessage) (es : List Event) :
    emit w k es = w :: messages es :=
  if_pos h

theorem emit_nil {k : Cursor} (h : k.ended = false) (w : WireMessage) : emit w k [] = [] := by
  simp [emit, h, messagesFrom]

/-- A message that runs into a failure or a close stays incomplete. -/
theorem emit_fail {k : Cursor} (h : k.ended = false) (w : WireMessage) (code : ℕ)
    (es : List Event) : emit w k (.fail code :: es) = [] := by
  simp [emit, h, messagesFrom]

theorem emit_close {k : Cursor} (h : k.ended = false) (w : WireMessage) (p : List UInt8)
    (es : List Event) : emit w k (.control .close p :: es) = [] := by
  simp [emit, h, messagesFrom]

/-- Going through events of the message keeps the messages still to come. -/
theorem emit_scan {k' : Cursor} {p : List UInt8} (rest : List Event) :
    ∀ (es : List Event) (w : WireMessage) (k : Cursor), scan k es = some (p, k') →
      emit w k (es ++ rest) = emit { w with payload := w.payload ++ p } k' rest := by
  intro es
  induction es generalizing p with
  | nil =>
    intro w k h
    simp only [scan, Option.some.injEq, Prod.mk.injEq] at h
    obtain ⟨rfl, rfl⟩ := h
    simp
  | cons e es ih =>
    intro w k h
    cases e with
    | byte b =>
      simp only [scan] at h
      split_ifs at h with h0
      obtain ⟨x, hx, hxe⟩ := Option.map_eq_some_iff.mp h
      obtain ⟨rfl, rfl⟩ := Prod.mk.inj hxe
      have hk : k.ended = false := by simp [Cursor.ended, h0]
      have hstep := ih { w with payload := w.payload ++ [b] } ⟨k.left - 1, k.final⟩ hx
      rw [emit, hk]
      simpa [messagesFrom, emit, h0] using hstep
    | control op q =>
      simp only [scan] at h
      split_ifs at h with h0
      have hk : k.ended = false := by simp [Cursor.ended, h0.2.1]
      rw [← ih w k h, emit, emit, hk]
      simp [messagesFrom, h0.2.2]
    | data final rsv1 op length =>
      simp only [scan] at h
      split_ifs at h with h0
      have hk : k.ended = false := by simp [Cursor.ended, h0.2.1]
      rw [← ih w ⟨length, final⟩ h, emit, hk]
      simp [messagesFrom, emit, h0.1]
    | fail code => simp [scan] at h

/-- The first message of those from `w` on is `w` with more payload, at least the rest of its
frame. -/
theorem emit_cons (es : List Event) {w m : WireMessage} {k : Cursor} {ms : List WireMessage}
    (h : emit w k es = m :: ms) : m.opcode = w.opcode ∧ m.compressed = w.compressed ∧
      w.payload <+: m.payload ∧ w.payload.length + k.left ≤ m.payload.length := by
  induction es generalizing w k with
  | nil =>
    by_cases hk : k.ended = true
    · obtain ⟨rfl, -⟩ := List.cons.inj ((emit_ended hk w []).symm.trans h)
      simp only [Cursor.ended, Bool.and_eq_true, decide_eq_true_eq] at hk
      exact ⟨rfl, rfl, List.prefix_rfl, by omega⟩
    · rw [emit_nil (by simpa using hk)] at h
      cases h
  | cons e es ih =>
    by_cases hk : k.ended = true
    · obtain ⟨rfl, -⟩ := List.cons.inj ((emit_ended hk w _).symm.trans h)
      simp only [Cursor.ended, Bool.and_eq_true, decide_eq_true_eq] at hk
      exact ⟨rfl, rfl, List.prefix_rfl, by omega⟩
    · rw [emit, if_neg hk] at h
      cases e with
      | byte b =>
        by_cases h0 : k.left = 0
        · simp [messagesFrom, h0] at h
        · obtain ⟨hop, hcomp, hpre, hlen⟩ := ih (w := { w with payload := w.payload ++ [b] })
            (k := ⟨k.left - 1, k.final⟩) (by simpa [emit, messagesFrom, h0] using h)
          simp only [List.length_append, List.length_singleton] at hlen
          exact ⟨hop, hcomp, (List.prefix_append _ _).trans hpre, by omega⟩
      | control op p =>
        by_cases hop : op = .close
        · simp [messagesFrom, hop] at h
        · exact ih (by simpa [emit, hk, messagesFrom, hop] using h)
      | data final rsv1 op length =>
        by_cases h0 : k.left = 0
        · obtain ⟨hop, hcomp, hpre, hlen⟩ := ih (w := w) (k := ⟨length, final⟩)
            (by simpa [emit, messagesFrom, h0] using h)
          exact ⟨hop, hcomp, hpre, by omega⟩
        · simp [messagesFrom, h0] at h
      | fail code => simp [messagesFrom] at h

/-- Control frames between messages. -/
theorem messages_pings : ∀ (es rest : List Event), (∀ e ∈ es, e.IsPing) →
    messages (es ++ rest) = messages rest
  | [], _, _ => rfl
  | e :: es, rest, h => by
    have he := h e List.mem_cons_self
    cases e with
    | control op p =>
      have hop : op ≠ .close := he
      rw [← messages_pings es rest fun e he => h e (List.mem_cons_of_mem _ he)]
      simp [messages, messagesFrom, hop]
    | _ => exact he.elim

/-- The head of a message. -/
theorem messages_data (final rsv1 : Bool) (op : Opcode) (length : ℕ) (es : List Event) :
    messages (.data final rsv1 op length :: es) = emit ⟨op, rsv1, []⟩ ⟨length, final⟩ es := by
  simp [messages, messagesFrom, emit]

end Ews
