import Ews.Limit

/-!
# Streams that are cut off

The first `n` bytes of a stream of frames are the frames that are wholly among them
(`framesBefore`) and the start of the frame the cut falls into (`tornBytes`). A cut is at rest if
it falls into no frame and leaves no message open.

`Receiver.idle` is computed from four pieces of the receiver's state. A receiver that has gone
through a cut stream is idle exactly if the cut is at rest (`idle_iff`) : what it still expects of
input to come is then what a new receiver expects, and a receiver that holds a part of a frame
expects something else of some input.
-/

set_option linter.unusedSectionVars false

namespace Ews

/-! ## The events of a part of a frame -/

namespace Rules

variable {R : Rules} {openMsg : Bool}

theorem stream_left : ∀ (gs : List Frame) {hs : List Frame} {openMsg : Bool},
    R.stream openMsg (gs ++ hs) = true → R.stream openMsg gs = true
  | [], _, _, _ => rfl
  | g :: gs, hs, openMsg, h => by
    obtain ⟨hadm, hrest⟩ := stream_cons.mp h
    refine stream_cons.mpr ⟨hadm, ?_⟩
    split_ifs at hrest ⊢ with hop
    · exact (List.append_eq_nil_iff.mp hrest).1
    · exact stream_left gs hrest

theorem stream_right : ∀ (gs : List Frame) {hs : List Frame} {openMsg : Bool},
    R.stream openMsg (gs ++ hs) = true → (∀ g ∈ gs, g.opcode ≠ .close) →
      R.stream (gs.foldl Frame.opens openMsg) hs = true
  | [], _, _, h, _ => h
  | g :: gs, hs, openMsg, h, hne => by
    obtain ⟨-, hrest⟩ := stream_cons.mp h
    rw [if_neg (hne g List.mem_cons_self)] at hrest
    exact stream_right gs hrest fun f hf => hne f (List.mem_cons_of_mem _ hf)

/-- The events of whole frames and what follows them. -/
theorem events_wire_append (bs : List UInt8) : ∀ (gs : List Frame) {openMsg : Bool},
    R.stream openMsg gs = true → (∀ g ∈ gs, g.opcode ≠ .close) →
      R.events openMsg (wire gs ++ bs) =
        gs.flatMap Frame.events ++ R.events (gs.foldl Frame.opens openMsg) bs
  | [], _, _, _ => rfl
  | g :: gs, openMsg, h, hne => by
    obtain ⟨hadm, hrest⟩ := stream_cons.mp h
    have hop := hne g List.mem_cons_self
    rw [if_neg hop] at hrest
    rw [wire_cons, List.append_assoc, events_frame hadm, if_neg hop,
      events_wire_append bs gs hrest fun f hf => hne f (List.mem_cons_of_mem _ hf),
      List.flatMap_cons, List.append_assoc, List.foldl_cons]

/-- A part of a frame gives no event, or the head of a data frame and a part of its payload. -/
theorem events_part {f : Frame} (h : R.admits openMsg f = true) {q r : List UInt8}
    (hq : q ++ r = f.bytes) (hr : r ≠ []) :
    R.events openMsg q = [] ∨ f.opcode.isControl = false ∧
      ∃ p : List UInt8, p.length < f.payload.length ∧
        R.events openMsg q = f.headEvent :: p.map .byte := by
  simp only [admits, Bool.and_eq_true, decide_eq_true_eq] at h
  obtain ⟨⟨hlegal, hlen⟩, -⟩ := h
  have hfull := parseHead_header f (opcode_lt_of_legal hlegal) hlen f.body
  rw [← Frame.bytes, ← hq] at hfull
  cases hp : parseHead q with
  | more => exact Or.inl (R.events_more openMsg hp)
  | invalid => cases (parseHead_append_invalid hp r).symm.trans hfull
  | head fh rest =>
    obtain ⟨rfl, hbody⟩ := HeadParse.head.inj ((parseHead_append_head hp r).symm.trans hfull)
    have hshort : rest.length < f.payload.length := by
      rw [← f.length_body, ← hbody, List.length_append]
      have := List.length_pos_of_ne_nil hr
      omega
    rw [R.events_head openMsg hp, if_pos hlegal]
    cases hc : f.opcode.isControl with
    | true => exact Or.inl (by simp [Frame.head, hc, controlEvents, hshort])
    | false =>
      refine Or.inr ⟨rfl, maskWith f.key 0 rest, by rwa [length_maskWith], ?_⟩
      have htake : rest.take f.payload.length = rest := List.take_of_length_le hshort.le
      simp [Frame.head, hc, dataEvents, hshort, htake, Frame.headEvent]

theorem head_size_le (b : UInt8) : extOf b + keySizeOf b ≤ 12 := by
  unfold extOf keySizeOf
  split_ifs <;> omega

theorem length_of_legal {fh : FrameHead} (h : R.legal openMsg fh = true)
    (hc : fh.opcode.isControl = true) : fh.length ≤ 125 := by
  have hop : fh.opcode = .close ∨ fh.opcode = .ping ∨ fh.opcode = .pong := by
    simpa [Opcode.isControl, or_assoc] using hc
  have hstart : fh.opcode.startsMessage = false ∧ (fh.opcode == .continuation) = false := by
    rcases hop with hop | hop | hop <;> rw [hop] <;> decide
  simp only [legal, hstart.1, hstart.2, Bool.false_eq_true, if_false, Bool.and_eq_true,
    decide_eq_true_eq] at h
  exact h.2.2

/-- A long string has an event : a head takes at most fourteen bytes, and a control frame has no
more than 125 behind it. -/
theorem events_ne_nil (openMsg : Bool) {bs : List UInt8} (h : 139 ≤ bs.length) :
    R.events openMsg bs ≠ [] := by
  cases hp : parseHead bs with
  | more =>
    obtain ⟨b0, b1, bs', rfl⟩ : ∃ b0 b1 bs', bs = b0 :: b1 :: bs' := by
      match bs, h with
      | b0 :: b1 :: bs', _ => exact ⟨b0, b1, bs', rfl⟩
    have hsize := head_size_le b1
    simp only [List.length_cons] at h
    rw [parseHead_of_length_le (by omega)] at hp
    split_ifs at hp
  | invalid => simp [R.events_invalid openMsg hp]
  | head fh rest =>
    rw [R.events_head openMsg hp]
    split_ifs with hlegal hc
    · obtain ⟨b0, b1, bs', rfl, -, -, -, rfl⟩ := parseHead_eq_head hp
      have hsize := head_size_le b1
      have hlen := length_of_legal hlegal hc
      simp only [List.length_cons] at h
      rw [controlEvents, if_neg (by rw [List.length_drop]; omega)]
      split_ifs
      · split <;> simp
      · simp
    · simp
    · simp

/-- Input that makes no difference is none. -/
theorem eq_nil_of_events {p : List UInt8}
    (h : ∀ fut, R.events openMsg (p ++ fut) = R.events openMsg fut) : p = [] := by
  by_contra hne
  have hpos := List.length_pos_of_ne_nil hne
  have hrep : ∀ n, R.events openMsg (List.replicate n p).flatten = [] ∧
      n ≤ (List.replicate n p).flatten.length := by
    intro n
    induction n with
    | zero => exact ⟨R.events_more openMsg rfl, le_rfl⟩
    | succ n ih =>
      rw [List.replicate_succ, List.flatten_cons, h, List.length_append]
      exact ⟨ih.1, by omega⟩
  exact events_ne_nil openMsg (hrep 139).2 (hrep 139).1

end Rules

/-! ## The place after whole frames -/

theorem stand_bytes (p : List UInt8) {length : ℕ} (final : Bool) (h : p.length ≤ length) :
    stand (Cursor.place ⟨length, final⟩) (p.map .byte) =
      Cursor.place ⟨length - p.length, final⟩ :=
  stand_scan _ (scan_bytes p ⟨length, final⟩ h)

theorem stand_frame (openMsg : Bool) (f : Frame) :
    stand (Cursor.place ⟨0, !openMsg⟩) f.events = Cursor.place ⟨0, !f.opens openMsg⟩ := by
  cases hc : f.opcode.isControl with
  | true =>
    rw [Frame.events_control hc, Frame.opens, if_pos hc]
    rfl
  | false =>
    rw [Frame.events_data hc, Frame.opens, hc, if_neg (by decide), Bool.not_not]
    have hbytes := stand_bytes f.payload f.final le_rfl
    rw [Nat.sub_self] at hbytes
    exact hbytes

theorem stand_frames : ∀ (gs : List Frame) (openMsg : Bool),
    stand (Cursor.place ⟨0, !openMsg⟩) (gs.flatMap Frame.events) =
      Cursor.place ⟨0, !gs.foldl Frame.opens openMsg⟩
  | [], _ => rfl
  | g :: gs, openMsg => by
    rw [List.flatMap_cons, stand_append, stand_frame, stand_frames gs, List.foldl_cons]

/-! ## Cuts -/

/-- The frames that are wholly among the first `n` bytes. -/
def framesBefore : ℕ → List Frame → List Frame
  | _, [] => []
  | n, f :: fs =>
    if f.bytes.length ≤ n then f :: framesBefore (n - f.bytes.length) fs else []

/-- The bytes of the frame that the cut after `n` bytes falls into. -/
def tornBytes : ℕ → List Frame → List UInt8
  | _, [] => []
  | n, f :: fs => if f.bytes.length ≤ n then tornBytes (n - f.bytes.length) fs else f.bytes.take n

/-- The cut falls into no frame and leaves no message open. -/
def AtRest (n : ℕ) (fs : List Frame) : Prop :=
  tornBytes n fs = [] ∧ (framesBefore n fs).foldl Frame.opens false = false

instance (n : ℕ) (fs : List Frame) : Decidable (AtRest n fs) :=
  inferInstanceAs (Decidable (_ ∧ _))

theorem take_wire : ∀ (n : ℕ) (fs : List Frame),
    (wire fs).take n = wire (framesBefore n fs) ++ tornBytes n fs
  | n, [] => by simp [framesBefore, tornBytes]
  | n, f :: fs => by
    rw [wire_cons, List.take_append, framesBefore, tornBytes]
    split_ifs with h
    · rw [take_wire, List.take_of_length_le h, wire_cons, List.append_assoc]
    · rw [Nat.sub_eq_zero_of_le (Nat.le_of_not_le h)]
      simp

/-- The frames of a stream, before the cut and from it on. -/
theorem framesBefore_append : ∀ (n : ℕ) (fs : List Frame), ∃ rest, fs = framesBefore n fs ++ rest ∧
    (tornBytes n fs = [] ∨ ∃ f fs' r, rest = f :: fs' ∧ tornBytes n fs ++ r = f.bytes ∧ r ≠ [])
  | n, [] => ⟨[], rfl, Or.inl rfl⟩
  | n, f :: fs => by
    rw [framesBefore, tornBytes]
    split_ifs with h
    · obtain ⟨rest, heq, htorn⟩ := framesBefore_append (n - f.bytes.length) fs
      exact ⟨rest, congrArg (f :: ·) heq, htorn⟩
    · refine ⟨f :: fs, rfl, Or.inr ⟨f, fs, f.bytes.drop n, rfl, List.take_append_drop _ _, ?_⟩⟩
      simpa using h

section Cut

variable {R : Rules} {fs : List Frame} (legal : R.stream false fs = true)
  (noClose : ∀ f ∈ fs, f.opcode ≠ .close) (n : ℕ)
include legal noClose

/-- What a cut stream says, whatever comes behind the cut. -/
theorem events_cut (fut : List UInt8) : R.events false ((wire fs).take n ++ fut) =
    (framesBefore n fs).flatMap Frame.events ++
      R.events ((framesBefore n fs).foldl Frame.opens false) (tornBytes n fs ++ fut) := by
  obtain ⟨rest, heq, -⟩ := framesBefore_append n fs
  rw [heq] at legal
  rw [take_wire, List.append_assoc]
  exact Rules.events_wire_append _ _ (Rules.stream_left _ legal) fun g hg =>
    noClose g (by rw [heq]; exact List.mem_append_left _ hg)

/-- The frame the cut falls into gives no event, or its head and a part of its payload. -/
theorem events_torn :
    R.events ((framesBefore n fs).foldl Frame.opens false) (tornBytes n fs) = [] ∨
      ∃ f ∈ fs, f.opcode.isControl = false ∧ ∃ p : List UInt8, p.length < f.payload.length ∧
        R.events ((framesBefore n fs).foldl Frame.opens false) (tornBytes n fs) =
          f.headEvent :: p.map .byte := by
  obtain ⟨rest, heq, htorn⟩ := framesBefore_append n fs
  rcases htorn with htorn | ⟨f, fs', r, rfl, hbytes, hr⟩
  · rw [htorn]
    exact Or.inl (R.events_more _ rfl)
  · have hstream := legal
    rw [heq] at hstream
    obtain ⟨hadm, -⟩ := Rules.stream_cons.mp (Rules.stream_right _ hstream fun g hg =>
      noClose g (by rw [heq]; exact List.mem_append_left _ hg))
    refine (Rules.events_part hadm hbytes hr).imp_right fun h => ⟨f, ?_, h⟩
    rw [heq]
    simp

/-- A reader at the end of a cut stream that stands between messages has passed whole frames
only. -/
theorem open_of_stand
    (h : stand none (R.events false ((wire fs).take n)) = none) :
    R.events false ((wire fs).take n) = (framesBefore n fs).flatMap Frame.events ∧
      (framesBefore n fs).foldl Frame.opens false = false := by
  have hcut := events_cut legal noClose n []
  have hplace := stand_frames (framesBefore n fs) false
  rw [List.append_nil, List.append_nil] at hcut
  rw [hcut, stand_append] at h
  rw [show Cursor.place ⟨0, !false⟩ = none from rfl] at hplace
  rcases events_torn legal noClose n with hnil | ⟨f, -, -, p, hp, hevents⟩
  · rw [hnil, stand_nil, hplace] at h
    refine ⟨by rw [hcut, hnil, List.append_nil], ?_⟩
    by_contra hopen
    rw [Bool.not_eq_false] at hopen
    rw [hopen] at h
    cases h
  · -- Inside a data frame there is payload left.
    have hstand : stand (stand none ((framesBefore n fs).flatMap Frame.events))
        (f.headEvent :: p.map .byte) = Cursor.place ⟨f.payload.length - p.length, f.final⟩ :=
      stand_bytes p f.final hp.le
    rw [hevents, hstand, Cursor.place_of_not_ended (by simp [Cursor.ended]; omega)] at h
    cases h

end Cut

/-- A ping of the largest size. -/
def largestPing (R : Rules) : Frame :=
  ⟨true, false, .ping, if R.role = .server then some ⟨0, 0, 0, 0⟩ else none,
    List.replicate 125 0⟩

theorem admits_largestPing (R : Rules) (openMsg : Bool) :
    R.admits openMsg (largestPing R) = true := by
  have hstart : Opcode.startsMessage .ping = false ∧ (Opcode.ping == Opcode.continuation) = false ∧
      Opcode.isControl .ping = true ∧ Opcode.ping ≠ Opcode.close := by decide
  obtain ⟨role, compression⟩ := R
  cases role <;> simp [Rules.admits, Rules.legal, largestPing, Frame.head, hstart]

theorem length_largestPing (R : Rules) : 125 < (largestPing R).bytes.length := by
  have hlen : (largestPing R).body.length = 125 := by
    rw [Frame.length_body]
    rfl
  rw [Frame.bytes, List.length_append, hlen, Frame.header]
  simp

/-- Part of the way into a ping there is no event. -/
theorem events_largestPing (R : Rules) (openMsg : Bool) {d : ℕ} (h : d ≤ 125) :
    R.events openMsg ((largestPing R).bytes.take d) = [] := by
  have hlen := length_largestPing R
  have hrest : (largestPing R).bytes.drop d ≠ [] := by
    intro hnil
    have hle := List.drop_eq_nil_iff.mp hnil
    omega
  rcases Rules.events_part (admits_largestPing R openMsg) (List.take_append_drop d _) hrest with
    h | ⟨h, -⟩
  · exact h
  · cases h

namespace Receiver

/-- A receiver that expects what a new one expects is in no control frame. -/
theorem controlOpen_of_expected {r : Receiver} (coupled : r.Coupled) (live : r.dead = false)
    (h : ∀ fut, r.expected fut = r.rules.events false fut) : r.controlOpen = false := by
  by_contra hopen
  rw [Bool.not_eq_false] at hopen
  obtain ⟨-, hpos, hle, -⟩ := coupled.control live hopen
  -- The bytes that complete the control frame are only a part of a large ping.
  have hlen := length_largestPing r.rules
  have hevents := h ((largestPing r.rules).bytes.take (r.dec.remaining - r.dec.pending.length))
  rw [events_largestPing _ _ (by omega), expected_control live hopen, Rules.controlEvents,
    if_neg] at hevents
  · split_ifs at hevents
    · split at hevents <;> cases hevents
  · rw [List.length_append, List.length_take]
    omega

/-- A receiver that expects what a new one expects holds nothing. -/
theorem idle_of_expected {r : Receiver} (coupled : r.Coupled) (live : r.dead = false)
    (rem : r.remaining = 0) (shut : r.messageOpen = false)
    (h : ∀ fut, r.expected fut = r.rules.events false fut) : r.idle = true := by
  have hcontrol := controlOpen_of_expected coupled live h
  have hpending : r.dec.pending = [] := by
    have hsame : ∀ fut, r.rules.events false (r.dec.pending ++ fut) = r.rules.events false fut := by
      intro fut
      rw [← shut, ← expected_between live hcontrol rem, h, shut]
    exact Rules.eq_nil_of_events hsame
  simp only [idle, rem, hcontrol, Decoder.buffered, hpending]
  simpa [messageOpen] using shut

end Receiver

/-- A receiver that has gone through a cut stream, with nothing to say before more input, is idle
exactly if the cut is at rest. -/
theorem idle_iff {R : Rules} {fs : List Frame} (legal : R.stream false fs = true)
    (noClose : ∀ f ∈ fs, f.opcode ≠ .close) (n : ℕ) {r : Receiver} (coupled : r.Coupled)
    (live : r.dead = false) (rules : r.rules = R) {es : List Event}
    (events : ∀ fut, R.events false ((wire fs).take n ++ fut) = es ++ r.expected fut)
    (dry : r.expected [] = [])
    (place : stand none es = none ↔ r.remaining = 0 ∧ r.messageOpen = false) :
    r.idle = true ↔ AtRest n fs := by
  have hes : R.events false ((wire fs).take n) = es := by
    have hnil := events []
    rwa [dry, List.append_nil, List.append_nil] at hnil
  constructor
  · intro hidle
    simp only [Receiver.idle, Bool.and_eq_true, beq_iff_eq, Bool.not_eq_true'] at hidle
    obtain ⟨⟨⟨rem, control⟩, opcode⟩, buffered⟩ := hidle
    have hpending : r.dec.pending = [] := List.length_eq_zero_iff.mp buffered
    have shut : r.messageOpen = false := by simp [Receiver.messageOpen, opcode]
    obtain ⟨hframes, hopen⟩ := open_of_stand legal noClose n (hes ▸ place.mpr ⟨rem, shut⟩)
    refine ⟨?_, hopen⟩
    have hsame : ∀ fut, R.events false (tornBytes n fs ++ fut) = R.events false fut := by
      intro fut
      have hcut := events_cut legal noClose n fut
      rw [events, ← hes, hframes, hopen, Receiver.expected_between live control rem, shut,
        hpending, rules, List.nil_append] at hcut
      exact (List.append_cancel_left hcut).symm
    exact Rules.eq_nil_of_events hsame
  · rintro ⟨htorn, hopen⟩
    have hcut : ∀ fut, es ++ r.expected fut =
        (framesBefore n fs).flatMap Frame.events ++ R.events false fut := by
      intro fut
      rw [← events, events_cut legal noClose n fut, htorn, hopen, List.nil_append]
    have hframes : es = (framesBefore n fs).flatMap Frame.events := by
      have hnil := hcut []
      rwa [dry, R.events_more false rfl, List.append_nil, List.append_nil] at hnil
    have hplace := stand_frames (framesBefore n fs) false
    rw [← hframes, hopen] at hplace
    obtain ⟨rem, shut⟩ := place.mp hplace
    refine Receiver.idle_of_expected coupled live rem shut fun fut => ?_
    have hfut := hcut fut
    rw [← hframes] at hfut
    rw [List.append_cancel_left hfut, rules]

/-! ## The messages before a cut -/

/-- More events complete more messages. -/
theorem messagesFrom_prefix (more : List Event) : ∀ (es : List Event) (cur : Option OpenMessage),
    messagesFrom cur es <+: messagesFrom cur (es ++ more)
  | [], cur => by cases cur <;> exact List.nil_prefix
  | .control op p :: es, cur => by
    cases cur <;> simp only [List.cons_append, messagesFrom] <;> split_ifs <;>
      first | exact List.prefix_rfl | exact messagesFrom_prefix more es _
  | .byte b :: es, none => List.prefix_rfl
  | .byte b :: es, some m => by
    simp only [List.cons_append, messagesFrom]
    split_ifs
    · exact List.prefix_rfl
    · exact List.cons_prefix_cons.mpr ⟨rfl, messagesFrom_prefix more es _⟩
    · exact messagesFrom_prefix more es _
  | .data final rsv1 op length :: es, none => by
    simp only [List.cons_append, messagesFrom]
    split_ifs
    · exact List.cons_prefix_cons.mpr ⟨rfl, messagesFrom_prefix more es _⟩
    · exact messagesFrom_prefix more es _
  | .data final rsv1 op length :: es, some m => by
    simp only [List.cons_append, messagesFrom]
    split_ifs
    · exact List.prefix_rfl
    · exact List.cons_prefix_cons.mpr ⟨rfl, messagesFrom_prefix more es _⟩
    · exact messagesFrom_prefix more es _
  | .fail code :: es, cur => by cases cur <;> exact List.prefix_rfl

/-- A frame that is cut off completes nothing. -/
theorem messagesFrom_torn {f : Frame} {p : List UInt8} (hp : p.length < f.payload.length) :
    ∀ (es : List Event) (cur : Option OpenMessage),
      messagesFrom cur (es ++ f.headEvent :: p.map .byte) = messagesFrom cur es
  | [], cur => by
    have hemit : ∀ w, emit w ⟨f.payload.length, f.final⟩ (p.map .byte) = [] := by
      intro w
      have hscan := emit_scan [] (p.map .byte) w ⟨f.payload.length, f.final⟩
        (scan_bytes p ⟨f.payload.length, f.final⟩ hp.le)
      rw [List.append_nil] at hscan
      rw [hscan, emit_nil (by simp [Cursor.ended]; omega)]
    cases cur with
    | none => exact hemit _
    | some m =>
      have hm := hemit m.message
      simp only [emit] at hm
      simp only [List.nil_append, Frame.headEvent, messagesFrom, hm]
      split_ifs <;> rfl
  | .control op q :: es, cur => by
    cases cur <;> simp only [List.cons_append, messagesFrom, messagesFrom_torn hp es]
  | .byte b :: es, none => rfl
  | .byte b :: es, some m => by
    simp only [List.cons_append, messagesFrom, messagesFrom_torn hp es]
  | .data final rsv1 op length :: es, none => by
    simp only [List.cons_append, messagesFrom, messagesFrom_torn hp es]
  | .data final rsv1 op length :: es, some m => by
    simp only [List.cons_append, messagesFrom, messagesFrom_torn hp es]
  | .fail code :: es, cur => by cases cur <;> rfl

/-- Behind a place between messages, the messages to come are the last ones. -/
theorem messages_suffix {more : List Event} (es : List Event) :
    (whole none (es ++ more) = true → stand none es = none →
      messages more <:+ messages (es ++ more)) ∧
    ∀ (w : WireMessage) (k : Cursor), k.ended = false → whole (some k) (es ++ more) = true →
      stand (some k) es = none → messages more <:+ emit w k (es ++ more) := by
  induction es with
  | nil => exact ⟨fun _ _ => List.suffix_rfl, fun w k _ _ h => by cases h⟩
  | cons e es ih =>
    -- From the head of a frame on, whether or not the frame ends the message.
    have hplace : ∀ (w : WireMessage) (k : Cursor), whole k.place (es ++ more) = true →
        stand k.place es = none → messages more <:+ emit w k (es ++ more) := by
      intro w k hwhole hstand
      cases hk : k.ended with
      | true =>
        rw [Cursor.place_of_ended hk] at hwhole hstand
        rw [emit_ended hk]
        exact (ih.1 hwhole hstand).trans (List.suffix_cons _ _)
      | false =>
        rw [Cursor.place_of_not_ended hk] at hwhole hstand
        exact ih.2 w k hk hwhole hstand
    constructor
    · intro hwhole hstand
      cases e with
      | control op p =>
        simp only [List.cons_append, whole] at hwhole
        split_ifs at hwhole with hop
        · -- Nothing follows a close.
          simp only [Bool.and_eq_true, List.isEmpty_iff, List.append_eq_nil_iff] at hwhole
          rw [hwhole.2.2]
          exact List.nil_suffix
        · have hrest := ih.1 hwhole hstand
          simpa [messages, messagesFrom, hop] using hrest
      | byte b => simp [whole] at hwhole
      | data final rsv1 op length =>
        rw [List.cons_append, messages_data]
        exact hplace _ _ (by simpa [whole] using hwhole) hstand
      | fail code => simp [whole] at hwhole
    · intro w k hk hwhole hstand
      rw [List.cons_append, emit, if_neg (by simp [hk])]
      cases e with
      | control op p =>
        simp only [List.cons_append, whole] at hwhole
        split_ifs at hwhole with hop
        · simp at hwhole
        · have hrest := ih.2 w k hk hwhole hstand
          simpa [emit, hk, messagesFrom, hop] using hrest
      | byte b =>
        simp only [List.cons_append, whole, Bool.and_eq_true, decide_eq_true_eq] at hwhole
        have hrest := hplace { w with payload := w.payload ++ [b] } ⟨k.left - 1, k.final⟩ hwhole.2
          hstand
        simpa [emit, messagesFrom, hwhole.1] using hrest
      | data final rsv1 op length =>
        simp only [List.cons_append, whole, Bool.and_eq_true, decide_eq_true_eq] at hwhole
        have hrest := hplace w ⟨length, final⟩ hwhole.2 hstand
        simpa [emit, messagesFrom, hwhole.1] using hrest
      | fail code => simp [whole] at hwhole

section Cut

variable {R : Rules} {fs : List Frame} (legal : R.stream false fs = true)
  (noClose : ∀ f ∈ fs, f.opcode ≠ .close) (n : ℕ)
include legal noClose

/-- The messages of a cut stream are those of its whole frames. -/
theorem messages_cut :
    messages (R.events false ((wire fs).take n)) = gather none (framesBefore n fs) := by
  obtain ⟨rest, heq, -⟩ := framesBefore_append n fs
  have hstream := legal
  rw [heq] at hstream
  have hcut := events_cut legal noClose n []
  have hframes := messagesFrom_events _ none (Rules.stream_left _ hstream)
  rw [List.append_nil, List.append_nil] at hcut
  rw [hcut, ← hframes]
  rcases events_torn legal noClose n with hnil | ⟨f, -, -, p, hp, hevents⟩
  · rw [hnil, List.append_nil]
    rfl
  · rw [hevents]
    exact messagesFrom_torn hp _ _

/-- Neither a failure nor a close is in a cut stream. -/
theorem events_cut_mem {e : Event} (he : e ∈ R.events false ((wire fs).take n)) :
    (∀ code, e ≠ .fail code) ∧ ∀ p, e ≠ .control .close p := by
  obtain ⟨rest, heq, -⟩ := framesBefore_append n fs
  have hdata : ∀ (f : Frame) (p : List UInt8), e ∈ f.headEvent :: p.map .byte →
      (∀ code, e ≠ .fail code) ∧ ∀ p, e ≠ .control .close p := by
    intro f p he
    rcases List.mem_cons.mp he with rfl | he
    · simp [Frame.headEvent]
    · obtain ⟨b, -, rfl⟩ := List.mem_map.mp he
      simp
  have hcut := events_cut legal noClose n []
  rw [List.append_nil, List.append_nil] at hcut
  rw [hcut] at he
  rcases List.mem_append.mp he with he | he
  · obtain ⟨f, hf, he⟩ := List.mem_flatMap.mp he
    have hop := noClose f (by rw [heq]; exact List.mem_append_left _ hf)
    cases hc : f.opcode.isControl with
    | true =>
      rw [Frame.events_control hc, List.mem_singleton] at he
      simp [he, hop]
    | false => exact hdata f f.payload (Frame.events_data hc ▸ he)
  · rcases events_torn legal noClose n with hnil | ⟨f, -, -, p, -, hevents⟩
    · rw [hnil] at he
      cases he
    · exact hdata f p (hevents ▸ he)

omit noClose in
/-- They are the first messages of the stream. -/
theorem gather_framesBefore : gather none (framesBefore n fs) <+: gather none fs := by
  obtain ⟨rest, heq, -⟩ := framesBefore_append n fs
  have hstream := legal
  rw [heq] at hstream
  have hfs := messagesFrom_events fs none legal
  have hframes := messagesFrom_events _ none (Rules.stream_left _ hstream)
  rw [← hfs, ← hframes]
  conv_rhs => rw [heq, List.flatMap_append]
  exact messagesFrom_prefix _ _ _

end Cut

end Ews
