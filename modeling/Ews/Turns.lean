import Ews.Limit

/-!
# The turns of a stream

What a stream of events brings a loop of `ReadMessage`, in the order in which the loop acts on it :
calls of the control handler and complete messages, and at the end a close, a frame that passes
the limit, or a failure. `turnsFrom` reads the turns off the events, `frameTurns` off the frames of
a legal stream, and `turnsFrom_events` says that they are the same. Unlike `messages` and `controls`,
which list the two kinds apart, the turns keep their order.
-/

set_option linter.unusedSectionVars false

namespace Ews

open ReadSide

/-- What a stream brings a reader of whole messages. -/
inductive Turn
  | control (ev : ControlEvent)
  | message (m : WireMessage)
  | tooLarge
  | fail (code : ℕ)
  deriving DecidableEq, Repr

/-- The turn of a control frame. -/
def controlTurn (op : Opcode) (payload : List UInt8) : List Turn :=
  (ControlEvent.ofFrame op payload).toList.map .control

/-- The turns of events, from inside a message or between messages, for a reader with the limit
`limit`. -/
def turnsFrom (limit : ℕ) : Option OpenMessage → List Event → List Turn
  | _, [] => []
  | cur, .control op p :: es =>
    controlTurn op p ++ if op = .close then [] else turnsFrom limit cur es
  | some m, .byte b :: es =>
    let w := { m.message with payload := m.message.payload ++ [b] }
    let k : Cursor := ⟨m.cursor.left - 1, m.cursor.final⟩
    if m.cursor.left = 0 then []
    else if k.ended then .message w :: turnsFrom limit none es
    else turnsFrom limit (some ⟨w, k⟩) es
  | some m, .data final _ _ length :: es =>
    let k : Cursor := ⟨length, final⟩
    if m.cursor.left ≠ 0 then []
    else if limit < m.message.payload.length + length then [.tooLarge]
    else if k.ended then .message m.message :: turnsFrom limit none es
    else turnsFrom limit (some ⟨m.message, k⟩) es
  | none, .data final rsv1 op length :: es =>
    let k : Cursor := ⟨length, final⟩
    if limit < length then [.tooLarge]
    else if k.ended then .message ⟨op, rsv1, []⟩ :: turnsFrom limit none es
    else turnsFrom limit (some ⟨⟨op, rsv1, []⟩, k⟩) es
  | none, .byte _ :: _ => []
  | _, .fail code :: _ => [.fail code]

/-- The turns from `w` on, at the cursor `k` in it. -/
def openTurns (limit : ℕ) (w : WireMessage) (k : Cursor) (es : List Event) : List Turn :=
  if k.ended then .message w :: turnsFrom limit none es else turnsFrom limit (some ⟨w, k⟩) es

/-- The turns from the head of a frame of `w` on. -/
def headTurns (limit : ℕ) (w : WireMessage) (k : Cursor) (es : List Event) : List Turn :=
  if limit < w.payload.length + k.left then [.tooLarge] else openTurns limit w k es

section Turns

variable (limit : ℕ)

theorem turns_nil (cur : Option OpenMessage) : turnsFrom limit cur [] = [] := by
  cases cur <;> rfl

theorem turns_control (cur : Option OpenMessage) (op : Opcode) (p : List UInt8) (es : List Event) :
    turnsFrom limit cur (.control op p :: es) =
      controlTurn op p ++ if op = .close then [] else turnsFrom limit cur es := by
  cases cur <;> rfl

theorem turns_fail (cur : Option OpenMessage) (code : ℕ) (es : List Event) :
    turnsFrom limit cur (.fail code :: es) = [.fail code] := by
  cases cur <;> rfl

theorem turns_head (final rsv1 : Bool) (op : Opcode) (length : ℕ) (es : List Event) :
    turnsFrom limit none (.data final rsv1 op length :: es) =
      headTurns limit ⟨op, rsv1, []⟩ ⟨length, final⟩ es := by
  simp [turnsFrom, headTurns, openTurns]

theorem turns_next {w : WireMessage} {k : Cursor} (h : k.left = 0) (final rsv1 : Bool) (op : Opcode)
    (length : ℕ) (es : List Event) :
    turnsFrom limit (some ⟨w, k⟩) (.data final rsv1 op length :: es) =
      headTurns limit w ⟨length, final⟩ es := by
  simp [turnsFrom, headTurns, openTurns, h]

theorem turns_byte {w : WireMessage} {k : Cursor} (h : k.left ≠ 0) (b : UInt8) (es : List Event) :
    turnsFrom limit (some ⟨w, k⟩) (.byte b :: es) =
      openTurns limit { w with payload := w.payload ++ [b] } ⟨k.left - 1, k.final⟩ es := by
  simp [turnsFrom, openTurns, h]

theorem openTurns_ended {k : Cursor} (h : k.ended = true) (w : WireMessage) (es : List Event) :
    openTurns limit w k es = .message w :: turnsFrom limit none es :=
  if_pos h

theorem openTurns_open {k : Cursor} (h : k.ended = false) (w : WireMessage) (es : List Event) :
    openTurns limit w k es = turnsFrom limit (some ⟨w, k⟩) es :=
  if_neg (by simp [h])

theorem headTurns_within {w : WireMessage} {k : Cursor} (h : w.payload.length + k.left ≤ limit)
    (es : List Event) : headTurns limit w k es = openTurns limit w k es :=
  if_neg (by omega)

theorem headTurns_over {w : WireMessage} {k : Cursor} (h : limit < w.payload.length + k.left)
    (es : List Event) : headTurns limit w k es = [.tooLarge] :=
  if_pos h

@[simp] theorem controls_byte (b : UInt8) (es : List Event) :
    controls (.byte b :: es) = controls es := rfl

@[simp] theorem controls_data (final rsv1 : Bool) (op : Opcode) (length : ℕ) (es : List Event) :
    controls (.data final rsv1 op length :: es) = controls es := rfl

/-- A control frame before other events, as `controls` counts it. -/
theorem controlTurn_append (op : Opcode) (p : List UInt8) (es : List Event) (ts : List Turn) :
    controlTurn op p ++ ((controls es).map .control ++ ts) =
      (controls (.control op p :: es)).map .control ++ ts := by
  cases h : ControlEvent.ofFrame op p <;> simp [controlTurn, controls, Event.call, h]

/-- Control frames other than a close. -/
theorem turns_pings (cur : Option OpenMessage) (rest : List Event) : ∀ es : List Event,
    (∀ e ∈ es, e.IsPing) →
      turnsFrom limit cur (es ++ rest) = (controls es).map .control ++ turnsFrom limit cur rest
  | [], _ => rfl
  | e :: es, h => by
    have he := h e List.mem_cons_self
    have ih := turns_pings cur rest es fun e he => h e (List.mem_cons_of_mem _ he)
    cases e with
    | control op p =>
      rw [List.cons_append, turns_control, if_neg he, ih, controlTurn_append]
    | _ => exact he.elim

/-- Going through events of a message that stays within the limit. -/
theorem openTurns_scan {k' : Cursor} (rest : List Event) : ∀ (es : List Event) {p : List UInt8}
    (w : WireMessage) (k : Cursor), scan k es = some (p, k') →
    w.payload.length + p.length + k'.left ≤ limit →
      openTurns limit w k (es ++ rest) = (controls es).map .control ++
        openTurns limit { w with payload := w.payload ++ p } k' rest
  | [], p, w, k, h, _ => by
    simp only [scan, Option.some.injEq, Prod.mk.injEq] at h
    obtain ⟨rfl, rfl⟩ := h
    simp
  | .byte b :: es, p, w, k, h, hle => by
    simp only [scan] at h
    split_ifs at h with h0
    obtain ⟨x, hx, hxe⟩ := Option.map_eq_some_iff.mp h
    obtain ⟨rfl, rfl⟩ := Prod.mk.inj hxe
    rw [List.length_cons] at hle
    rw [openTurns_open limit (by simp [Cursor.ended, h0]), List.cons_append, turns_byte limit h0,
      openTurns_scan rest es _ _ hx (by simp only [List.length_append, List.length_singleton]; omega)]
    simp
  | .control op q :: es, p, w, k, h, hle => by
    simp only [scan] at h
    split_ifs at h with h0
    have hk : k.ended = false := by simp [Cursor.ended, h0.2.1]
    rw [openTurns_open limit hk, List.cons_append, turns_control, if_neg h0.2.2,
      ← openTurns_open limit hk, openTurns_scan rest es w k h hle, controlTurn_append]
  | .data final rsv1 op length :: es, p, w, k, h, hle => by
    simp only [scan] at h
    split_ifs at h with h0
    have hleft := scan_left es h
    dsimp only at hleft
    rw [openTurns_open limit (by simp [Cursor.ended, h0.2.1]), List.cons_append,
      turns_next limit h0.1, headTurns_within limit (by dsimp only; omega),
      openTurns_scan rest es w _ h hle, controls_data]
  | .fail code :: es, p, w, k, h, _ => by simp [scan] at h

/-- A message that runs past the limit at the head of a frame. -/
theorem headTurns_scan {k k' : Cursor} {l : List Event} {p : List UInt8} (w : WireMessage)
    (rest : List Event) (hscan : scan k l = some (p, k')) (headed : Headed l)
    (hle : w.payload.length + p.length ≤ limit) (hover : limit < w.payload.length + p.length + k'.left) :
    headTurns limit w k (l ++ rest) = (controls l).map .control ++ [.tooLarge] := by
  rcases headed with rfl | ⟨l₀, final, rsv1, op, length, rfl⟩
  · simp only [scan, Option.some.injEq, Prod.mk.injEq] at hscan
    obtain ⟨rfl, rfl⟩ := hscan
    exact headTurns_over limit (by simpa using hover) rest
  · rw [scan_append] at hscan
    obtain ⟨⟨p₀, k₀⟩, hx, hrest⟩ := Option.bind_eq_some_iff.mp hscan
    obtain ⟨⟨p₁, k₁⟩, hy, hxy⟩ := Option.map_eq_some_iff.mp hrest
    simp only [scan] at hy
    split_ifs at hy with h0
    obtain ⟨rfl, rfl⟩ := Prod.mk.inj (Option.some.inj hy)
    obtain ⟨rfl, rfl⟩ := Prod.mk.inj hxy
    have hleft := scan_left l₀ hx
    simp only [List.append_nil] at hle hover
    rw [headTurns_within limit (by omega), List.append_assoc,
      openTurns_scan limit _ l₀ w k hx (by omega), List.singleton_append,
      openTurns_open limit (by simp [Cursor.ended, h0.2.1]), turns_next limit h0.1,
      headTurns_over limit (by simp only [List.length_append]; omega), controls_append,
      controls_data, controls_nil, List.append_nil]

/-- Nothing follows a close. -/
theorem turns_close {code : ℕ} {reason : List UInt8} : ∀ (es : List Event) (cur : Option OpenMessage)
    {a b : List Turn}, turnsFrom limit cur es = a ++ .control (.close code reason) :: b → b = []
  | [], cur, a, b, h => by
    rw [turns_nil] at h
    cases a <;> cases h
  | .control op p :: es, cur, a, b, h => by
    rw [turns_control, controlTurn] at h
    cases hcall : ControlEvent.ofFrame op p with
    | none =>
      rw [hcall] at h
      split_ifs at h
      · cases a <;> cases h
      · exact turns_close es cur h
    | some ev =>
      rw [hcall] at h
      cases a with
      | nil =>
        obtain ⟨hev, hb⟩ := List.cons.inj h
        cases hev
        have hop : op = .close := by
          by_contra hne
          unfold ControlEvent.ofFrame at hcall
          split_ifs at hcall <;> cases hcall
        rw [← hb, if_pos hop]
        rfl
      | cons t a =>
        have hrest : (if op = .close then [] else turnsFrom limit cur es) =
            a ++ .control (.close code reason) :: b := (List.cons.inj h).2
        split_ifs at hrest
        · cases a <;> cases hrest
        · exact turns_close es cur hrest
  | .byte c :: es, none, a, b, h => by cases a <;> cases h
  | .byte c :: es, some m, a, b, h => by
    simp only [turnsFrom] at h
    split_ifs at h
    · cases a <;> cases h
    · cases a with
      | nil => cases h
      | cons t a => exact turns_close es none (List.cons.inj h).2
    · exact turns_close es _ h
  | .data final rsv1 op length :: es, cur, a, b, h => by
    have hsplit : ∀ (w : WireMessage) (k : Cursor), headTurns limit w k es =
        a ++ .control (.close code reason) :: b → b = [] := fun w k h => by
      simp only [headTurns, openTurns] at h
      split_ifs at h
      · cases a with
        | nil => cases h
        | cons t a =>
          obtain ⟨-, hnil⟩ := List.cons.inj h
          cases a <;> cases hnil
      · cases a with
        | nil => cases h
        | cons t a => exact turns_close es none (List.cons.inj h).2
      · exact turns_close es _ h
    cases cur with
    | none => exact hsplit _ _ ((turns_head limit final rsv1 op length es).symm.trans h)
    | some m =>
      by_cases h0 : m.cursor.left = 0
      · exact hsplit _ _ ((turns_next limit h0 final rsv1 op length es).symm.trans h)
      · simp only [turnsFrom, ne_eq, h0, not_false_eq_true, if_true] at h
        cases a <;> cases h
  | .fail c :: es, cur, a, b, h => by
    rw [turns_fail] at h
    cases a with
    | nil => cases h
    | cons t a =>
      obtain ⟨-, hnil⟩ := List.cons.inj h
      cases a <;> cases hnil

/-- A close is not among the calls before another turn. -/
theorem mild_of_turns {cur : Option OpenMessage} {es : List Event} {evs : List ControlEvent} {t : Turn}
    {ts : List Turn} (h : turnsFrom limit cur es = evs.map .control ++ t :: ts) (code : ℕ)
    (reason : List UInt8) : .close code reason ∉ evs := by
  intro hmem
  obtain ⟨a, b, rfl⟩ := List.append_of_mem hmem
  rw [List.map_append, List.map_cons, List.append_assoc, List.cons_append] at h
  exact absurd (turns_close limit es cur h) (by simp)

end Turns

/-! ## The turns of frames -/

/-- The turns of a sequence of frames, from inside a message or between two. -/
def frameTurns (limit : ℕ) : Option WireMessage → List Frame → List Turn
  | _, [] => []
  | cur, f :: fs =>
    if f.opcode.isControl then
      controlTurn f.opcode f.payload ++ if f.opcode = .close then [] else frameTurns limit cur fs
    else if limit < (WireMessage.join cur f).payload.length then [.tooLarge]
    else if f.final then .message (.join cur f) :: frameTurns limit none fs
    else frameTurns limit (some (.join cur f)) fs

/-- A whole data frame of the message `w`. -/
theorem headTurns_frame (limit : ℕ) (w : WireMessage) (f : Frame) (es : List Event) :
    headTurns limit w ⟨f.payload.length, f.final⟩ (f.payload.map .byte ++ es) =
      let w' := { w with payload := w.payload ++ f.payload }
      if limit < w'.payload.length then [.tooLarge]
      else if f.final then .message w' :: turnsFrom limit none es
      else turnsFrom limit (some (between w')) es := by
  simp only [headTurns, List.length_append]
  split_ifs with hlim hf
  · rfl
  · rw [openTurns_scan limit es _ w _ (scan_bytes f.payload _ le_rfl) (by dsimp only; omega),
      controls_bytes, Nat.sub_self, hf, openTurns_ended limit rfl]
    rfl
  · rw [openTurns_scan limit es _ w _ (scan_bytes f.payload _ le_rfl) (by dsimp only; omega),
      controls_bytes, Nat.sub_self, openTurns_open limit (by simpa [Cursor.ended] using hf)]
    rw [Bool.not_eq_true] at hf
    rw [hf]
    rfl

/-- The turns of the events of a legal stream are those of its frames. -/
theorem turnsFrom_events (limit : ℕ) {R : Rules} : ∀ (fs : List Frame) (cur : Option WireMessage),
    R.stream cur.isSome fs = true →
      turnsFrom limit (cur.map between) (fs.flatMap Frame.events) = frameTurns limit cur fs
  | [], cur, _ => by cases cur <;> rfl
  | f :: fs, cur, h => by
    obtain ⟨-, hrest⟩ := Rules.stream_cons.mp h
    rw [List.flatMap_cons, frameTurns]
    by_cases hc : f.opcode.isControl = true
    · rw [if_pos hc, Frame.events_control hc, List.singleton_append, turns_control]
      by_cases hop : f.opcode = .close
      · rw [if_pos hop, if_pos hop]
      · rw [if_neg hop, Frame.opens, if_pos hc] at hrest
        rw [if_neg hop, if_neg hop, turnsFrom_events limit fs cur hrest]
    · have hop : f.opcode ≠ .close := fun h => hc (by rw [h]; rfl)
      rw [if_neg hop, Frame.opens, if_neg hc] at hrest
      rw [if_neg hc]
      rw [Bool.not_eq_true] at hc
      have hnone := fun hf : f.final = true =>
        turnsFrom_events limit fs none (by simpa [hf] using hrest)
      have hsome := fun (w : WireMessage) (hf : f.final = false) =>
        turnsFrom_events limit fs (some w) (by simpa [hf] using hrest)
      have hhead : turnsFrom limit (cur.map between) (f.events ++ fs.flatMap Frame.events) =
          headTurns limit (cur.getD ⟨f.opcode, f.rsv1, []⟩) ⟨f.payload.length, f.final⟩
            (f.payload.map .byte ++ fs.flatMap Frame.events) := by
        rw [Frame.events_data hc, List.cons_append, Frame.headEvent]
        cases cur with
        | none => exact turns_head limit _ _ _ _ _
        | some w => exact turns_next limit rfl _ _ _ _ _
      have hjoin : { cur.getD ⟨f.opcode, f.rsv1, []⟩ with
          payload := (cur.getD ⟨f.opcode, f.rsv1, []⟩).payload ++ f.payload } =
          WireMessage.join cur f := by
        cases cur <;> rfl
      rw [hhead, headTurns_frame, hjoin]
      dsimp only
      split_ifs with hlim hf
      · rfl
      · rw [← hnone hf]
        rfl
      · rw [← hsome _ (by simpa using hf)]
        rfl

end Ews
