import Ews.Retry

/-!
# The limit on the size of a message

`ReadMessage` compares the length in each frame's header with what `MaxMessageSize` leaves, so a
message past the limit fails at a header, however much its frames announce. `wireTo` is the part of
a message that is read then : up to the header of the first frame that passes the limit, or all of
it.

`readMessage_limit` is the result for a message at any place of a stream : it is returned if and
only if the lengths of its frames add up to no more than the limit, and refused at that header
otherwise, with nothing of the frame stored. `Bounded` is the invariant of `assemble` : what is
gathered and what is left of the frame are within the limit, so none of its conversions loses
anything.
-/

set_option linter.unusedSectionVars false

namespace Ews

open ReadSide

/-! ## The frames of one message -/

/-- What a frame adds to its message. -/
def Frame.content (f : Frame) : List UInt8 :=
  if f.opcode.isControl then [] else f.payload

/-- The event of the head of a data frame. -/
def Frame.headEvent (f : Frame) : Event :=
  .data f.final f.rsv1 f.opcode f.payload.length

theorem Frame.events_data {f : Frame} (h : f.opcode.isControl = false) :
    f.events = f.headEvent :: f.payload.map .byte := by
  simp [events, headEvent, h]

theorem Frame.events_control {f : Frame} (h : f.opcode.isControl = true) :
    f.events = [.control f.opcode f.payload] := by
  simp [events, h]

namespace Fragments

/-- The payload of a message in the frames `fs`. -/
def payload (fs : List Frame) : List UInt8 :=
  fs.flatMap Frame.content

/-- The opcode of a message in the frames `fs` : that of the first data frame. -/
def opcode : List Frame → Opcode
  | [] => .continuation
  | f :: fs => if f.opcode.isControl then opcode fs else f.opcode

/-- The frames of one message, and control frames before and between them. The last frame is the
final one. -/
def single : List Frame → Bool
  | [] => false
  | f :: fs =>
    if f.opcode.isControl then f.opcode != .close && single fs
    else if f.final then fs.isEmpty
    else single fs

/-- The bytes of the frames, up to the header of the first one that passes the limit. -/
def wireTo (limit : ℕ) : List Frame → List UInt8
  | [] => []
  | f :: fs =>
    if f.opcode.isControl then f.bytes ++ wireTo limit fs
    else if f.payload.length ≤ limit then f.bytes ++ wireTo (limit - f.payload.length) fs
    else f.header

/-- The events of `wireTo`. -/
def eventsTo (limit : ℕ) : List Frame → List Event
  | [] => []
  | f :: fs =>
    if f.opcode.isControl then f.events ++ eventsTo limit fs
    else if f.payload.length ≤ limit then f.events ++ eventsTo (limit - f.payload.length) fs
    else [f.headEvent]

/-- What a call of `ReadMessage` that returns the message gives. -/
def result (fs : List Frame) : Except Err (Opcode × List UInt8) :=
  .ok (opcode fs, payload fs)

/-- One uncompressed message that is legal for the receiver, with text that is valid if that is
checked. -/
structure Proper (R : Rules) (validateUTF8 : Bool) (fs : List Frame) : Prop where
  legal : R.stream false fs = true
  single : single fs = true
  plain : ∀ f ∈ fs, f.rsv1 = false
  text : validateUTF8 = true → opcode fs = .text → utf8Valid (payload fs) = true

theorem payload_data {f : Frame} (h : f.opcode.isControl = false) (fs : List Frame) :
    payload (f :: fs) = f.payload ++ payload fs := by
  simp [payload, Frame.content, h]

theorem payload_control {f : Frame} (h : f.opcode.isControl = true) (fs : List Frame) :
    payload (f :: fs) = payload fs := by
  simp [payload, Frame.content, h]

theorem length_split {f : Frame} (h : f.opcode.isControl = false) (before after : List Frame) :
    (payload before).length + f.payload.length ≤ (payload (before ++ f :: after)).length := by
  have hpayload : payload (before ++ f :: after) = payload before ++ (f.payload ++ payload after) := by
    rw [← payload_data h]
    exact List.flatMap_append
  rw [hpayload, List.length_append, List.length_append]
  omega

theorem ne_close {op : Opcode} (h : op.isControl = false) : op ≠ .close := fun hop => by
  rw [hop] at h
  exact absurd h (by decide)

/-- Within the limit all of the message is read. -/
theorem wireTo_eq : ∀ (fs : List Frame) {limit : ℕ}, (payload fs).length ≤ limit →
    wireTo limit fs = wire fs ∧ eventsTo limit fs = fs.flatMap Frame.events
  | [], _, _ => ⟨rfl, rfl⟩
  | f :: fs, limit, h => by
    cases hc : f.opcode.isControl with
    | true =>
      rw [payload_control hc] at h
      obtain ⟨hw, he⟩ := wireTo_eq fs h
      simp [wireTo, eventsTo, hc, hw, he]
    | false =>
      rw [payload_data hc, List.length_append] at h
      have hrest : (payload fs).length ≤ limit - f.payload.length := by omega
      obtain ⟨hw, he⟩ := wireTo_eq fs hrest
      have hle : f.payload.length ≤ limit := by omega
      simp [wireTo, eventsTo, hc, hw, he, hle]

/-- Past the limit only the header of the frame that passes it. -/
theorem eventsTo_passes {f : Frame} (hdata : f.opcode.isControl = false) (after : List Frame) :
    ∀ (before : List Frame) {limit : ℕ}, (payload before).length ≤ limit →
      limit < (payload before).length + f.payload.length →
        eventsTo limit (before ++ f :: after) = before.flatMap Frame.events ++ [f.headEvent]
  | [], limit, _, hover => by
    have hle : ¬f.payload.length ≤ limit := by simpa [payload] using hover
    simp [eventsTo, hdata, hle]
  | g :: before, limit, fits, hover => by
    cases hc : g.opcode.isControl with
    | true =>
      rw [payload_control hc] at fits hover
      simp [eventsTo, hc, eventsTo_passes hdata after before fits hover]
    | false =>
      rw [payload_data hc, List.length_append] at fits hover
      have hle : g.payload.length ≤ limit := by omega
      have hrest : (payload before).length ≤ limit - g.payload.length := by omega
      simp [eventsTo, hc, hle, eventsTo_passes hdata after before hrest (by omega)]

/-- The events of what is read. -/
theorem events_wireTo {R : Rules} (rest : List UInt8) : ∀ (fs : List Frame) {limit : ℕ}
    {openMsg : Bool}, R.stream openMsg fs = true →
      ∃ more, R.events openMsg (wireTo limit fs ++ rest) = eventsTo limit fs ++ more
  | [], _, openMsg, _ => ⟨_, rfl⟩
  | f :: fs, limit, openMsg, h => by
    obtain ⟨hadm, hrest⟩ := Rules.stream_cons.mp h
    have hframe : ∀ n : ℕ, ∃ more,
        R.events openMsg (f.bytes ++ wireTo n fs ++ rest) = f.events ++ eventsTo n fs ++ more := by
      intro n
      rw [List.append_assoc, Rules.events_frame hadm]
      split_ifs at hrest ⊢ with hop
      · exact ⟨[], by simp [hrest, eventsTo]⟩
      · obtain ⟨more, hmore⟩ := events_wireTo rest fs hrest
        exact ⟨more, by rw [hmore, List.append_assoc]⟩
    cases hc : f.opcode.isControl with
    | true =>
      simp only [wireTo, eventsTo, hc, if_true]
      exact hframe limit
    | false =>
      simp only [wireTo, eventsTo, hc, Bool.false_eq_true, if_false]
      split_ifs with hle
      · exact hframe _
      · simp only [Rules.admits, Bool.and_eq_true, decide_eq_true_eq] at hadm
        have hp := parseHead_header f (Rules.opcode_lt_of_legal hadm.1.1) hadm.1.2 rest
        have hcontrol : f.head.opcode.isControl = false := hc
        rw [R.events_head openMsg hp, if_pos hadm.1.1, hcontrol, if_neg Bool.false_ne_true]
        exact ⟨_, rfl⟩

/-- A whole message leaves the stream between messages. -/
theorem events_single {R : Rules} (rest : List UInt8) : ∀ (fs : List Frame) {openMsg : Bool},
    R.stream openMsg fs = true → single fs = true →
      R.events openMsg (wire fs ++ rest) = fs.flatMap Frame.events ++ R.events false rest
  | f :: fs, openMsg, h, hs => by
    obtain ⟨hadm, hrest⟩ := Rules.stream_cons.mp h
    rw [wire_cons, List.append_assoc, Rules.events_frame hadm, List.flatMap_cons,
      List.append_assoc]
    congr 1
    rw [single] at hs
    cases hc : f.opcode.isControl with
    | true =>
      simp only [hc, if_true, Bool.and_eq_true, bne_iff_ne, ne_eq] at hs
      rw [if_neg hs.1] at hrest ⊢
      exact events_single rest fs hrest hs.2
    | false =>
      rw [if_neg (ne_close hc)] at hrest ⊢
      simp only [hc, Bool.false_eq_true, if_false] at hs
      split_ifs at hs with hf
      · rw [List.isEmpty_iff.mp hs, Frame.opens, hc, hf]
        rfl
      · exact events_single rest fs hrest hs

/-! ## Where the reading of a message ends -/

/-- The events `l` of the message in `fs`, from the head of its first frame on, with the payload `p`
and the place behind them : the whole message, or up to the head of the first frame past the
limit. -/
inductive Ends (limit : ℕ) (fs : List Frame) (l : List Event) (p : List UInt8) (k : Cursor) : Prop
  | whole (fits : (payload fs).length ≤ limit) (all : p = payload fs) (ended : k.ended = true)
  | passes {before after : List Frame} {f : Frame} (split : fs = before ++ f :: after)
      (data : f.opcode.isControl = false) (sofar : p = payload before)
      (fits : p.length ≤ limit) (hover : limit < p.length + f.payload.length)
      (place : k = ⟨f.payload.length, f.final⟩) (headed : Headed l)

/-- Behind a data frame of the message that is within the limit. -/
theorem Ends.data {limit : ℕ} {f : Frame} {fs : List Frame} {l : List Event} {p : List UInt8}
    {k : Cursor} (hc : f.opcode.isControl = false) (hle : f.payload.length ≤ limit)
    (h : Ends (limit - f.payload.length) fs l p k) : Ends limit (f :: fs) l (f.payload ++ p) k := by
  cases h with
  | whole fits all ended =>
    refine .whole ?_ (by rw [payload_data hc, all]) ended
    rw [payload_data hc, List.length_append]
    omega
  | @passes before after g split data sofar fits hover place headed =>
    have hsplit : f :: fs = (f :: before) ++ g :: after := by rw [split]; rfl
    refine .passes hsplit data (by rw [payload_data hc, sofar]) ?_ ?_ place headed
    · rw [List.length_append]
      omega
    · rw [List.length_append]
      omega

/-- Behind a control frame. -/
theorem Ends.control {limit : ℕ} {f : Frame} {fs : List Frame} {l : List Event} {p : List UInt8}
    {k : Cursor} (hc : f.opcode.isControl = true) (h : Ends limit fs l p k) :
    Ends limit (f :: fs) l p k := by
  cases h with
  | whole fits all ended =>
    exact .whole (by rwa [payload_control hc]) (by rw [payload_control hc, all]) ended
  | @passes before after g split data sofar fits hover place headed =>
    have hsplit : f :: fs = (f :: before) ++ g :: after := by rw [split]; rfl
    exact .passes hsplit data (by rw [payload_control hc, sofar]) fits hover place headed

theorem Ends.headed {limit : ℕ} {fs : List Frame} {l l' : List Event} {p : List UInt8}
    {k : Cursor} (h : Ends limit fs l p k) (hl' : Headed l → Headed l') : Ends limit fs l' p k := by
  cases h with
  | whole fits all ended => exact .whole fits all ended
  | passes split data sofar fits hover place headed =>
    exact .passes split data sofar fits hover place (hl' headed)

/-- What follows the head of a data frame that starts or continues the message. -/
def roadFrom (limit : ℕ) (f : Frame) (fs : List Frame) : List Event :=
  if f.payload.length ≤ limit then f.payload.map .byte ++ eventsTo (limit - f.payload.length) fs
  else []

theorem eventsTo_data {f : Frame} (h : f.opcode.isControl = false) (limit : ℕ) (fs : List Frame) :
    eventsTo limit (f :: fs) = f.headEvent :: roadFrom limit f fs := by
  simp only [eventsTo, roadFrom, h, Bool.false_eq_true, if_false, Frame.events_data h]
  split_ifs <;> rfl

/-- Reading goes through the events `l` from the place `k₀` on. -/
def Goes (limit : ℕ) (fs : List Frame) (k₀ : Cursor) (l : List Event) : Prop :=
  ∃ p k, scan k₀ l = some (p, k) ∧ Ends limit fs l p k

/-- From the head of a data frame on. -/
theorem goes_road {limit : ℕ} {f : Frame} {fs : List Frame} (hdata : f.opcode.isControl = false)
    (hlast : f.final = true → fs = [])
    (hrest : f.final = false → eventsTo (limit - f.payload.length) fs ≠ [] ∧
      Goes (limit - f.payload.length) fs ⟨0, false⟩ (eventsTo (limit - f.payload.length) fs)) :
    Goes limit (f :: fs) ⟨f.payload.length, f.final⟩ (roadFrom limit f fs) := by
  have hcontent : f.content = f.payload := by simp [Frame.content, hdata]
  unfold roadFrom
  split_ifs with hle
  · have hbytes := scan_bytes f.payload ⟨f.payload.length, f.final⟩ le_rfl
    rw [Nat.sub_self] at hbytes
    cases hf : f.final with
    | true =>
      rw [hlast hf, eventsTo, List.append_nil, ← hf]
      exact ⟨_, _, hbytes, .whole (by simpa [payload, hcontent] using hle)
        (by simp [payload, hcontent]) (by simp [Cursor.ended, hf])⟩
    | false =>
      obtain ⟨hne, p, k, hscan, hends⟩ := hrest hf
      rw [hf] at hbytes
      refine ⟨f.payload ++ p, k, ?_, ?_⟩
      · rw [scan_append, hbytes, Option.bind_some, hscan, Option.map_some]
      · exact (hends.data hdata hle).headed fun hheaded => hheaded.append hne
  · have hsplit : f :: fs = [] ++ f :: fs := rfl
    exact ⟨_, _, rfl, .passes hsplit hdata rfl (Nat.zero_le _) (by simpa using hle) rfl
      (Or.inl rfl)⟩

/-- In an open message a data frame continues it. -/
theorem continuation_of_admits {R : Rules} {f : Frame} (hadm : R.admits true f = true)
    (hdata : f.opcode.isControl = false) : f.opcode = .continuation := by
  simp only [Rules.admits, Rules.legal, Frame.head, Bool.and_eq_true] at hadm
  have hlegal := hadm.1.1.2
  by_contra hop
  by_cases hstart : f.opcode.startsMessage = true
  · simp [hstart] at hlegal
  · simp [hstart, hop, hdata] at hlegal

/-- From between two frames of the message on. -/
theorem goes_inside {R : Rules} : ∀ (fs : List Frame) {limit : ℕ}, R.stream true fs = true →
    single fs = true → eventsTo limit fs ≠ [] ∧ Goes limit fs ⟨0, false⟩ (eventsTo limit fs)
  | f :: fs, limit, h, hs => by
    obtain ⟨hadm, hrest⟩ := Rules.stream_cons.mp h
    rw [single] at hs
    cases hc : f.opcode.isControl with
    | true =>
      simp only [hc, if_true, Bool.and_eq_true, bne_iff_ne, ne_eq] at hs
      rw [if_neg hs.1, Frame.opens, if_pos hc] at hrest
      obtain ⟨hne, p, k, hscan, hends⟩ := @goes_inside _ fs limit hrest hs.2
      simp only [eventsTo, hc, if_true, Frame.events_control hc]
      refine ⟨by simp, p, k, ?_, ?_⟩
      · rw [List.singleton_append, scan, if_pos ⟨rfl, rfl, hs.1⟩, hscan]
      · exact (hends.control hc).headed fun hheaded => hheaded.append hne
    | false =>
      have hroad : Goes limit (f :: fs) ⟨f.payload.length, f.final⟩ (roadFrom limit f fs) := by
        simp only [hc, Bool.false_eq_true, if_false] at hs
        refine goes_road hc (fun hf => ?_) fun hf => ?_
        · simpa [hf] using hs
        · rw [if_neg (ne_close hc), Frame.opens, hc, hf] at hrest
          exact goes_inside fs hrest (by simpa [hf] using hs)
      rw [eventsTo_data hc]
      refine ⟨by simp, ?_⟩
      obtain ⟨p, k, hscan, hends⟩ := hroad
      refine ⟨p, k, ?_, ?_⟩
      · rw [Frame.headEvent, scan, if_pos ⟨rfl, rfl, continuation_of_admits hadm hc⟩, hscan]
      · refine hends.headed fun hheaded => ?_
        rcases hheaded with hnil | ⟨l₀, final, rsv1, op, length, hl₀⟩
        · exact Or.inr ⟨[], _, _, _, _, by rw [hnil]; rfl⟩
        · exact Or.inr ⟨f.headEvent :: l₀, final, rsv1, op, length, by rw [hl₀]; rfl⟩

/-- From the start of the message on : control frames, the head of the first data frame, and what
follows it. -/
theorem goes_single {R : Rules} : ∀ (fs : List Frame) {limit : ℕ}, R.stream false fs = true →
    single fs = true → ∃ l f r, eventsTo limit fs = l ++ f.headEvent :: r ∧
      (∀ e ∈ l, e.IsPing) ∧ f ∈ fs ∧ f.opcode = opcode fs ∧
      Goes limit fs ⟨f.payload.length, f.final⟩ r
  | f :: fs, limit, h, hs => by
    obtain ⟨hadm, hrest⟩ := Rules.stream_cons.mp h
    rw [single] at hs
    cases hc : f.opcode.isControl with
    | true =>
      simp only [hc, if_true, Bool.and_eq_true, bne_iff_ne, ne_eq] at hs
      rw [if_neg hs.1, Frame.opens, if_pos hc] at hrest
      obtain ⟨l, g, r, heq, hpings, hmem, hop, p, k, hscan, hends⟩ :=
        @goes_single _ fs limit hrest hs.2
      refine ⟨.control f.opcode f.payload :: l, g, r, ?_, ?_, List.mem_cons_of_mem _ hmem, ?_, p, k,
        hscan, ?_⟩
      · simp only [eventsTo, hc, if_true, Frame.events_control hc, heq, List.cons_append,
          List.nil_append]
      · exact fun e he => (List.mem_cons.mp he).elim (fun he => he ▸ hs.1) (hpings e)
      · simpa [opcode, hc] using hop
      · exact hends.control hc
    | false =>
      refine ⟨[], f, roadFrom limit f fs, eventsTo_data hc limit fs, by simp, List.mem_cons_self,
        by simp [opcode, hc], goes_road hc (fun hf => ?_) fun hf => ?_⟩
      · simpa [hc, hf] using hs
      · rw [if_neg (ne_close hc), Frame.opens, hc, hf] at hrest
        exact goes_inside fs hrest (by simpa [hc, hf] using hs)

end Fragments

/-! ## Reading without a stop -/

namespace ReadSide

/-- Nothing but the stream can stop the reader : reads give bytes, and the handler goes on. -/
structure Quiet (c : ReadSide) : Prop where
  steady : c.transport.Steady
  clean : c.transport.Clean
  handler : ∀ calls ev, c.settings.handler calls ev = none

theorem Quiet.passed {c c' : ReadSide} {l : List Event} (h : Quiet c) (hp : Passed c l c') :
    Quiet c' :=
  ⟨hp.steady h.steady, hp.clean h.clean, by rw [hp.settings]; exact h.handler⟩

/-- The first event that is no ping. -/
theorem mem_of_pings {l es more rest : List Event} {e : Event} (hl : ∀ x ∈ l, x.IsPing)
    (hes : ∃ x ∈ es, ¬x.IsPing) (h : es ++ more = l ++ e :: rest) : e ∈ es := by
  obtain ⟨x, hx, hping⟩ := hes
  rcases List.append_eq_append_iff.mp h with ⟨m, rfl, -⟩ | ⟨m, rfl, hm⟩
  · exact absurd (hl x (List.mem_append_left _ hx)) hping
  · cases m with
    | nil => exact absurd (hl x (by simpa using hx)) hping
    | cons y m =>
      obtain ⟨rfl, -⟩ := List.cons.inj hm
      simp

/-- A quiet reader does not stop in front of the rest of a message. -/
theorem Stalled.not_quiet {c c' : ReadSide} {e : Err} (h : Stalled c e c') (quiet : Quiet c)
    {es more : List Event} (todo : c.todo = es ++ more)
    (inside : ∀ x ∈ es, (∀ code, x ≠ .fail code) ∧ ∀ q, x ≠ .control .close q)
    (some : ∃ x ∈ es, ¬x.IsPing) : False := by
  obtain ⟨pings, stop⟩ := h
  cases stop with
  | blocked went live dry blocked =>
    have hquiet := quiet.passed went.passed
    cases blocked with
    | ended symbols =>
      rw [went.todo, ReadSide.todo, Transport.bytes, symbols, List.filterMap_nil, dry,
        List.append_nil] at todo
      obtain ⟨x, hx, hping⟩ := some
      exact hping (pings x (by rw [todo]; exact List.mem_append_left _ hx))
    | @err e t symbols weight steady =>
      exact hquiet.clean e (by rw [symbols]; exact List.mem_cons_self)
    | stalled symbols weight unsteady => exact unsteady hquiet.steady
  | @failed code cause went dead =>
    rw [went.todo, List.append_assoc] at todo
    exact (inside _ (mem_of_pings pings some todo.symm)).1 code rfl
  | refused went call answer => exact absurd (answer.symm.trans (quiet.handler _ _)) (by simp)
  | @closed q went dead answer =>
    rw [went.todo, List.append_assoc] at todo
    exact (inside _ (mem_of_pings pings some todo.symm)).2 q rfl

/-- In a message that is not over, a quiet reader does not stop before a place where it has more
payload, or is at its end. -/
theorem Stalled.not_before {c c' : ReadSide} {e : Err} (h : Stalled c e c') (quiet : Quiet c)
    {es more : List Event} (todo : c.todo = es ++ more) {p : List UInt8} {k : Cursor}
    (scan : scan c.cursor es = some (p, k)) (moves : p ≠ [] ∨ k ≠ c.cursor) : False := by
  refine h.not_quiet quiet todo (fun x hx => scan_mem scan hx) ?_
  by_contra hall
  have hpings : ∀ x ∈ es, x.IsPing := fun x hx => by_contra fun hx' => hall ⟨x, hx, hx'⟩
  have hstay : Ews.scan c.cursor es = some ([], c.cursor) := by
    cases es with
    | nil => rfl
    | cons x es =>
      have hx := hpings x List.mem_cons_self
      cases x with
      | control op q =>
        have hk : c.cursor.left = 0 ∧ c.cursor.final = false := by
          simp only [Ews.scan] at scan
          split_ifs at scan with h0
          exact ⟨h0.1, h0.2.1⟩
        exact scan_pings hk.1 hk.2 _ hpings
      | _ => exact hx.elim
  obtain ⟨rfl, rfl⟩ := Prod.mk.inj (Option.some.inj (scan.symm.trans hstay))
  exact moves.elim (fun h => h rfl) fun h => h rfl

/-- A reader in a message, and a place in it : the reader is before the place or at it, or past
it. -/
theorem Within.meets {c c' : ReadSide} {l es more : List Event} {q p : List UInt8} {k : Cursor}
    (h : Within c l q c') (todo : c.todo = es ++ more)
    (hscan : Ews.scan c.cursor es = some (p, k)) :
    (∃ x r, es = l ++ x ∧ c'.todo = x ++ more ∧ Ews.scan c'.cursor x = some (r, k) ∧ p = q ++ r) ∨
      ∃ y r, y ≠ [] ∧ l = es ++ y ∧ Ews.scan k y = some (r, c'.cursor) ∧ q = p ++ r := by
  have hbehind : ∀ {l l' : List Event} {q p : List UInt8} {k k' : Cursor},
      Ews.scan c.cursor l = some (q, k) → Ews.scan c.cursor (l ++ l') = some (p, k') →
        ∃ r, Ews.scan k l' = some (r, k') ∧ p = q ++ r := by
    intro l l' q p k k' hq hp
    rw [scan_append, hq, Option.bind_some] at hp
    obtain ⟨⟨r, k₂⟩, hr, heq⟩ := Option.map_eq_some_iff.mp hp
    obtain ⟨rfl, rfl⟩ := Prod.mk.inj heq
    exact ⟨r, hr, rfl⟩
  rcases List.append_eq_append_iff.mp (h.todo.symm.trans todo) with ⟨x, rfl, hx⟩ | ⟨y, rfl, hy⟩
  · obtain ⟨r, hr, hp⟩ := hbehind h.scan hscan
    exact Or.inl ⟨x, r, rfl, hx, hr, hp⟩
  · obtain ⟨r, hr, hq⟩ := hbehind hscan h.scan
    by_cases hne : y = []
    · subst hne
      obtain ⟨rfl, hk⟩ := Prod.mk.inj (Option.some.inj hr)
      refine Or.inl ⟨[], [], by simp, by simpa using hy.symm, by rw [hk]; rfl, ?_⟩
      rw [hq, List.append_nil, List.append_nil]
    · exact Or.inr ⟨y, r, hne, rfl, hr, hq⟩

theorem Headed.tail {l x : List Event} (h : Headed (l ++ x)) (hne : x ≠ []) :
    ∃ x₀ final rsv1 op length, x = x₀ ++ [.data final rsv1 op length] := by
  rcases h with h | ⟨l₀, final, rsv1, op, length, h⟩
  · exact absurd (List.append_eq_nil_iff.mp h).2 hne
  · obtain ⟨x₀, y, rfl⟩ : ∃ x₀ y, x = x₀ ++ [y] :=
      ⟨x.dropLast, x.getLast hne, (List.dropLast_append_getLast hne).symm⟩
    rw [← List.append_assoc] at h
    obtain ⟨-, hy⟩ := List.append_inj' h rfl
    exact ⟨x₀, final, rsv1, op, length, by rw [hy]⟩

section Assemble

variable {c : ReadSide} (quiet : Quiet c) (h : c.rx.Coupled) (hl : c.rx.dead = false)
  (head : c.rx.remaining = c.rx.header.payloadLen) {es more : List Event}
  (todo : c.todo = es ++ more) {p : List UInt8} {k : Cursor}
  (hscan : Ews.scan c.cursor es = some (p, k))
include quiet h hl head todo hscan

/-- A message within the limit is assembled. -/
theorem assemble_whole (ended : k.ended = true) (fits : p.length ≤ c.settings.limit) (held : Bool) :
    ∃ msg c', c.assemble held = (.ok p, msg, c') ∧ Within c es p c' ∧ c'.cursor.ended = true := by
  have hass := assemble_spec h hl head held
  generalize c.assemble held = out at hass
  cases hass with
  | @whole l q msg c' within ended' length =>
    rcases within.meets todo hscan with ⟨x, r, rfl, -, hx, rfl⟩ | ⟨y, r, hy, -, hr, -⟩
    · obtain rfl := scan_of_ended ended' hx
      obtain ⟨rfl, rfl⟩ := Prod.mk.inj (Option.some.inj hx)
      exact ⟨msg, c', by rw [List.append_nil], by simpa using within, ended'⟩
    · exact absurd (scan_of_ended ended hr) hy
  | tooLarge within headed length hover =>
    rcases within.meets todo hscan with ⟨x, r, -, -, hx, rfl⟩ | ⟨y, r, hy, -, hr, -⟩
    · have hleft := scan_left x hx
      simp only [Cursor.ended, Bool.and_eq_true, decide_eq_true_eq] at ended
      rw [List.length_append] at fits
      omega
    · exact absurd (scan_of_ended ended hr) hy
  | @broke l q e msg c₁ c' within length broke stalled =>
    rcases within.meets todo hscan with ⟨x, r, -, hrest, hx, -⟩ | ⟨y, r, hy, -, hr, -⟩
    · refine (stalled.not_before (quiet.passed within.toWent.passed) hrest hx
        (Or.inr fun hk => ?_)).elim
      obtain ⟨-, hbroke, incomplete, -⟩ := broke
      rw [hk] at ended
      obtain rfl := scan_of_ended ended hbroke
      obtain ⟨-, rfl⟩ := Prod.mk.inj (Option.some.inj hbroke)
      exact absurd (ended.symm.trans incomplete) (by decide)
    · exact absurd (scan_of_ended ended hr) hy

/-- A message past the limit is refused at the head of the frame that passes it. -/
theorem assemble_tooLarge (headed : Headed es) (fits : p.length ≤ c.settings.limit)
    (hover : c.settings.limit < p.length + k.left) (held : Bool) :
    ∃ msg c', c.assemble held = (.error (.failure 1009 .messageTooLarge), msg,
      c'.fail (.failure 1009 .messageTooLarge)) ∧ Within c es p c' ∧ msg.bytes = p := by
  have hass := assemble_spec h hl head held
  generalize c.assemble held = out at hass
  cases hass with
  | whole within ended length =>
    simp only [Cursor.ended, Bool.and_eq_true, decide_eq_true_eq] at ended
    rcases within.meets todo hscan with ⟨x, r, -, -, hx, rfl⟩ | ⟨y, r, hy, -, hr, rfl⟩
    · obtain rfl := scan_of_ended (by simpa [Cursor.ended] using ended) hx
      obtain ⟨rfl, rfl⟩ := Prod.mk.inj (Option.some.inj hx)
      rw [List.append_nil] at hover
      omega
    · have hleft := scan_left y hr
      rw [List.length_append] at length
      omega
  | @tooLarge l msg c' within headed' length hover' =>
    rcases within.meets todo hscan with ⟨x, r, rfl, -, hx, rfl⟩ | ⟨y, r, hy, rfl, hr, hq⟩
    · by_cases hne : x = []
      · subst hne
        obtain ⟨rfl, rfl⟩ := Prod.mk.inj (Option.some.inj hx)
        exact ⟨msg, c', rfl, by simpa using within, by simp⟩
      · -- The frame at hand is one before the head at the end, and within the limit.
        obtain ⟨x₀, final, rsv1, op, length, rfl⟩ := headed.tail hne
        have hleft := scan_head hx
        rw [List.length_append] at fits
        omega
    · -- The frame that passes the limit is behind the reader.
      obtain ⟨y₀, final, rsv1, op, length', rfl⟩ := headed'.tail hy
      have hleft := scan_head hr
      rw [hq, List.length_append] at length
      omega
  | broke within length broke stalled =>
    rcases within.meets todo hscan with ⟨x, r, rfl, hrest, hx, rfl⟩ | ⟨y, r, hy, -, hr, rfl⟩
    · by_cases hne : x = []
      · subst hne
        obtain ⟨rfl, rfl⟩ := Prod.mk.inj (Option.some.inj hx)
        rw [List.append_nil] at hover
        omega
      · obtain ⟨x₀, final, rsv1, op, length, rfl⟩ := headed.tail hne
        exact (stalled.not_quiet (quiet.passed within.toWent.passed) hrest
          (fun e he => scan_mem hx he) ⟨.data final rsv1 op length, by simp, id⟩).elim
    · have hleft := scan_left y hr
      rw [List.length_append] at length
      omega

end Assemble

end ReadSide

/-! ## `ReadMessage` -/

/-- Behind control frames comes one event that is none. -/
theorem pings_split {l l' r r' : List Event} {e e' : Event} (hl : ∀ x ∈ l, x.IsPing)
    (hl' : ∀ x ∈ l', x.IsPing) (he : ¬e.IsPing) (he' : ¬e'.IsPing)
    (h : l ++ e :: r = l' ++ e' :: r') : l = l' ∧ e = e' ∧ r = r' := by
  induction l generalizing l' with
  | nil =>
    cases l' with
    | nil => exact ⟨rfl, List.cons.inj h⟩
    | cons x l' => exact absurd ((List.cons.inj h).1 ▸ hl' x List.mem_cons_self) he
  | cons y l ih =>
    cases l' with
    | nil => exact absurd ((List.cons.inj h).1 ▸ hl y List.mem_cons_self) he'
    | cons x l' =>
      obtain ⟨rfl, htail⟩ := List.cons.inj h
      obtain ⟨rfl, hrest⟩ := ih (fun x hx => hl x (List.mem_cons_of_mem _ hx))
        (fun x hx => hl' x (List.mem_cons_of_mem _ hx)) htail
      exact ⟨rfl, hrest⟩

namespace Conn

variable {F : Flate}

/-- `NextMessage` has gone from `c` to `c'`, past control frames and the head of the frame `f`. -/
structure Begun (c : Conn F) (l : List Event) (f : Frame) (c' : Conn F) : Prop where
  passed : Passed c.side (l ++ [f.headEvent]) c'.side
  coupled : c'.side.rx.Coupled
  live : c'.side.rx.dead = false
  head : c'.side.rx.remaining = c'.side.rx.header.payloadLen
  cursor : c'.side.cursor = ⟨f.payload.length, f.final⟩
  compressed : c'.side.rx.compressed = f.rsv1
  fine : c'.side.readErr = none
  dec : c'.dec = none

/-- A quiet connection in front of the head of a data frame. -/
theorem nextMessage_quiet {c : Conn F} (rest : c.Rest) (quiet : Quiet c.side) {l r : List Event}
    {f : Frame} (pings : ∀ e ∈ l, e.IsPing) (todo : c.side.todo = l ++ f.headEvent :: r) :
    ∃ c', c.nextMessage = (.ok f.opcode, c') ∧ Begun c l f c' := by
  obtain ⟨c₂, left, passed, -, -⟩ := rest.left
  have htodo : c₂.side.todo = l ++ f.headEvent :: r := by rw [← todo, passed.todo, List.nil_append]
  have hframe := nextFrame_spec left.rest.between
  rw [left.nextMessage, enter]
  generalize c₂.side.nextFrame = out at hframe
  obtain ⟨res, s⟩ := out
  cases hframe with
  | @data l' s pings' went opened less =>
    have hwent := went.todo
    rw [htodo, List.append_assoc, List.singleton_append] at hwent
    obtain ⟨rfl, hhead, -⟩ := pings_split pings pings' id id hwent
    have hstart : s.rx.compressed = s.rx.header.rsv1 := by
      rcases opened.starts with hs | hs
      · exact absurd (hs.2.1.symm.trans left.rest.shut) (by decide)
      · exact hs.2.2
    obtain ⟨hfinal, hrsv1, hop, hlen⟩ := Event.data.inj hhead
    have hcursor := cursor_opened opened
    rw [← hlen, ← hfinal] at hcursor
    have hpassed := passed.trans went.passed
    rw [List.nil_append, ← hhead] at hpassed
    exact ⟨{ c₂ with side := { s with inMessage := true } }, by rw [hop],
      hpassed.flags true s.streaming, went.coupled, opened.live, opened.remaining, hcursor,
      hstart.trans hrsv1.symm, went.readErr.trans left.rest.fine, left.dec⟩
  | stop pings' between stop =>
    have hstalled : Stalled c₂.side _ _ := ⟨pings', stop⟩
    have hrest : c₂.side.todo = (l ++ [f.headEvent]) ++ r := by
      rw [htodo, List.append_assoc, List.singleton_append]
    refine (hstalled.not_quiet (quiet.passed passed) hrest ?_ ⟨f.headEvent, by simp, id⟩).elim
    intro e he
    rcases List.mem_append.mp he with he | he
    · have hping := pings e he
      refine ⟨fun code h => ?_, fun q h => ?_⟩
      · rw [h] at hping
        exact hping
      · rw [h] at hping
        exact hping rfl
    · rw [List.mem_singleton.mp he]
      exact ⟨fun code h => (by cases h), fun q h => (by cases h)⟩

/-- `ReadMessage` refuses a message at the header of the frame `f`, behind the frames `before` : it
has gone through these and the header, gathered their payload, and sends the code. -/
structure Refuses (c : Conn F) (before : List Frame) (f : Frame) : Prop where
  result : ∃ c', c.readMessage = (.error (.failure 1009 .messageTooLarge), c') ∧
    c'.side.closes = c.side.closes ++ [1009]
  gathered : ∃ op c₁ msg s, c.nextMessage = (.ok op, c₁) ∧
    c₁.side.assemble c₁.held = (.error (.failure 1009 .messageTooLarge), msg,
      s.fail (.failure 1009 .messageTooLarge)) ∧
    msg.bytes = Fragments.payload before ∧ s.rx.remaining = f.payload.length ∧
    Passed c.side (before.flatMap Frame.events ++ [f.headEvent]) s

/-- A quiet connection between messages, in front of the message in `fs`. -/
structure Faces (c : Conn F) (fs : List Frame) (more : List Event) : Prop where
  rest : c.Rest
  quiet : Quiet c.side
  proper : Fragments.Proper c.side.rx.rules c.side.settings.validateUTF8 fs
  todo : c.side.todo = Fragments.eventsTo c.side.settings.limit fs ++ more

section Faces

variable {c : Conn F} {fs : List Frame} {more : List Event} (h : c.Faces fs more)
include h

/-- The message is begun. -/
theorem Faces.nextMessage : ∃ l f r c₁, c.nextMessage = (.ok (Fragments.opcode fs), c₁) ∧
    Begun c l f c₁ ∧ Fragments.eventsTo c.side.settings.limit fs = l ++ f.headEvent :: r ∧
    c₁.side.rx.compressed = false ∧ c₁.side.todo = r ++ more ∧
    Fragments.Goes c₁.side.settings.limit fs c₁.side.cursor r := by
  obtain ⟨l, f, r, heq, pings, hmem, hop, hgoes⟩ :=
    @Fragments.goes_single _ fs c.side.settings.limit h.proper.legal h.proper.single
  have htodo := h.todo
  rw [heq, List.append_assoc, List.cons_append] at htodo
  obtain ⟨c₁, hnext, begun⟩ := nextMessage_quiet h.rest h.quiet pings htodo
  have hrest := begun.passed.todo
  rw [htodo, List.append_assoc, List.singleton_append] at hrest
  refine ⟨l, f, r, c₁, by rw [hnext, hop], begun, heq, ?_, ?_, ?_⟩
  · rw [begun.compressed, h.proper.plain f hmem]
  · exact (List.cons.inj (List.append_cancel_left hrest)).2.symm
  · rw [begun.passed.settings, begun.cursor]
    exact hgoes

/-- A message within the limit is returned. -/
theorem Faces.returns (fits : (Fragments.payload fs).length ≤ c.side.settings.limit) :
    ∃ c', c.readMessage = (.ok (Fragments.opcode fs, Fragments.payload fs), c') ∧ c'.Rest ∧
      Quiet c'.side ∧ c'.side.todo = more ∧ c'.side.settings = c.side.settings ∧
      c'.side.rx.rules = c.side.rx.rules := by
  obtain ⟨l, f, r, c₁, hnext, begun, -, hplain, htodo, p, k, hscan, hends⟩ := h.nextMessage
  have hset := begun.passed.settings
  cases hends with
  | @passes before after g split data sofar hp hover place headed =>
    have hlen := Fragments.length_split data before after
    rw [split] at fits
    rw [sofar, hset] at hover
    omega
  | whole fits' all ended =>
    have hquiet := h.quiet.passed begun.passed
    obtain ⟨msg, s, hass, within, hlast⟩ := assemble_whole hquiet begun.coupled begun.live
      begun.head htodo hscan ended (by rw [all]; exact fits') c₁.held
    have hcheck : ¬(Fragments.opcode fs = .text ∧ s.settings.validateUTF8 = true ∧
        utf8Valid p = false) := by
      rintro ⟨hop, hv, hu⟩
      rw [within.settings, hset] at hv
      exact absurd ((h.proper.text hv hop).symm.trans (all ▸ hu)) (by decide)
    have hpassed := begun.passed.trans within.toWent.passed
    have hmore : s.todo = more :=
      (List.append_cancel_left (within.todo.symm.trans htodo))
    refine ⟨{ c₁ with side := { s with inMessage := false }, held := msg.held }, ?_,
      ⟨⟨within.coupled, within.live, (cursor_ended.mp hlast).1⟩, (cursor_ended.mp hlast).2, rfl,
        within.readErr.trans begun.fine, fun d hd => ?_⟩,
      h.quiet.passed (hpassed.flags false s.streaming), hmore, hpassed.settings, hpassed.rules⟩
    · simp only [readMessage, hnext, hass, finishMessage, within.compressed.trans hplain,
        Bool.false_eq_true, if_false, if_neg hcheck]
      rw [all]
    · exact absurd (begun.dec.symm.trans hd) (by simp)

/-- A message past the limit is refused at the header of the first frame that passes it. -/
theorem Faces.refuses (hlarge : c.side.settings.limit < (Fragments.payload fs).length) :
    ∃ before f after, fs = before ++ f :: after ∧ f.opcode.isControl = false ∧
      (Fragments.payload before).length ≤ c.side.settings.limit ∧
      c.side.settings.limit < (Fragments.payload before).length + f.payload.length ∧
      c.Refuses before f := by
  obtain ⟨l, f, r, c₁, hnext, begun, heq, hplain, htodo, p, k, hscan, hends⟩ := h.nextMessage
  have hset := begun.passed.settings
  cases hends with
  | whole fits' all ended =>
    rw [hset] at fits'
    omega
  | @passes before after g split data sofar fits hover place headed =>
    have hquiet := h.quiet.passed begun.passed
    obtain ⟨msg, s, hass, within, hmsg⟩ := assemble_tooLarge hquiet begun.coupled begun.live
      begun.head htodo hscan headed fits (by rw [place]; exact hover) c₁.held
    have hpassed := begun.passed.trans within.toWent.passed
    rw [sofar, hset] at fits hover
    have hevents := Fragments.eventsTo_passes data after before fits hover
    rw [← split, heq] at hevents
    rw [List.append_assoc, List.singleton_append, hevents] at hpassed
    have hrem : s.rx.remaining = g.payload.length := by
      have hplace := Prod.mk.inj (Option.some.inj (within.scan.symm.trans hscan))
      exact congrArg Cursor.left (hplace.2.trans place)
    refine ⟨before, g, after, split, data, fits, hover, ⟨_, by
      simp only [readMessage, hnext, hass]; rfl, ?_⟩, _, c₁, msg, s, hnext, hass,
      hmsg.trans sofar, hrem, hpassed⟩
    exact congrArg (· ++ [1009]) hpassed.closes

end Faces

end Conn

/-! ## No conversion loses anything -/

/-- What an `int` of `w` bits keeps of a number. -/
def intOf (w : ℕ) (n : ℤ) : ℤ :=
  n.bmod (2 ^ w)

theorem intOf_eq {w limit : ℕ} (hw : 0 < w) (hlimit : limit < 2 ^ (w - 1)) {n : ℤ} (h0 : 0 ≤ n)
    (hn : n ≤ limit) : intOf w n = n := by
  obtain ⟨v, rfl⟩ : ∃ v, w = v + 1 := ⟨w - 1, by omega⟩
  rw [Nat.add_sub_cancel] at hlimit
  refine Int.bmod_eq_of_le ?_ ?_
  · rw [Nat.pow_succ]
    omega
  · rw [Nat.pow_succ]
    omega

namespace ReadSide

/-- A round of the inner loop of `assemble`, with an `int` of `w` bits : what is gathered and what is
left of the frame are within the limit. `int(c.rx.Remaining())`, the length `appendMsg` and `readInto`
reserve, and the length they need in all are exact, and so is `r.remaining -= uint64(len(chunk))`. -/
structure StepFits (w : ℕ) (msg : MsgBuf) (c : ReadSide) : Prop where
  sum : msg.bytes.length + c.rx.remaining ≤ c.settings.limit
  remaining : intOf w c.rx.remaining = c.rx.remaining
  need : intOf w (msg.bytes.length + c.rx.remaining) = msg.bytes.length + c.rx.remaining
  payload : ∀ chunk done c', c.payload = (.ok (chunk, done), c') →
    chunk.length + c'.rx.remaining = c.rx.remaining ∧
    intOf w c'.rx.remaining = c'.rx.remaining ∧
    intOf w (chunk.length + c'.rx.remaining) = chunk.length + c'.rx.remaining ∧
    intOf w (msg.bytes.length + (chunk.length + c'.rx.remaining)) =
      msg.bytes.length + (chunk.length + c'.rx.remaining)

/-- `assemble`, with an `int` of `w` bits. At the head of a frame `c.limit-len(msg)` is not negative
and `uint64` keeps it ; wherever the frame is within that, every round of the inner loop fits. -/
structure Bounded (w : ℕ) (c : ReadSide) (held : Bool) : Prop where
  heads : ∀ x ∈ Loop.visits assembleRound (c.effort + 1) ({ held := held }, c),
    x.1.bytes.length ≤ x.2.settings.limit ∧
    intOf w (x.2.settings.limit - x.1.bytes.length) = x.2.settings.limit - x.1.bytes.length ∧
    x.2.room x.1.bytes = x.2.settings.limit - x.1.bytes.length
  rounds : ∀ x ∈ Loop.visits assembleRound (c.effort + 1) ({ held := held }, c),
    x.2.rx.header.payloadLen ≤ x.2.room x.1.bytes →
      ∀ y ∈ Loop.visits gatherRound (x.2.effort + 1) x, StepFits w y.1 y.2

theorem stepFits {w : ℕ} {msg : MsgBuf} {c : ReadSide} (hw : 0 < w)
    (hlimit : c.settings.limit < 2 ^ (w - 1)) (h : c.rx.Coupled) (hl : c.rx.dead = false)
    (sum : msg.bytes.length + c.rx.remaining ≤ c.settings.limit) : StepFits w msg c where
  sum := sum
  remaining := intOf_eq hw hlimit (by omega) (by omega)
  need := intOf_eq hw hlimit (by omega) (by omega)
  payload := by
    intro chunk done c' heq
    have hsum : chunk.length + c'.rx.remaining = c.rx.remaining := by
      have hpay := payload_spec h hl
      rw [heq] at hpay
      cases hpay with
      | drained rem => exact Nat.zero_add _
      | took nonempty length within rem spent less => exact rem
      | waiting within rem left starved pending => exact (Nat.zero_add _).trans rem
    exact ⟨hsum, intOf_eq hw hlimit (by omega) (by omega), intOf_eq hw hlimit (by omega) (by omega),
      intOf_eq hw hlimit (by omega) (by omega)⟩

/-- The invariant of the inner loop. -/
theorem gather_sum {msg : MsgBuf} {c : ReadSide} (h : c.rx.Coupled) (hl : c.rx.dead = false) (n : ℕ) :
    ∀ y ∈ Loop.visits gatherRound n (msg, c), y.2.rx.Coupled ∧ y.2.rx.dead = false ∧
      y.2.settings = c.settings ∧
      y.1.bytes.length + y.2.rx.remaining = msg.bytes.length + c.rx.remaining := by
  refine Loop.visits_spec (μ := fun y => y.2.effort) (Q := fun _ => True) ?_ n (msg, c)
    ⟨h, hl, rfl, rfl⟩
  rintro ⟨msg₁, c₁⟩ ⟨hcoupled, hlive, hset, hsum⟩
  have hround := gatherRound_spec hcoupled hlive msg₁
  cases hb : gatherRound (msg₁, c₁) with
  | inl y =>
    rw [hb] at hround
    obtain ⟨⟨l, p, within, hmsg, hrem⟩, less⟩ := hround
    refine ⟨⟨within.coupled, within.live, within.settings.trans hset, ?_⟩, less⟩
    rw [hmsg, List.length_append, Nat.add_assoc, hrem]
    exact hsum
  | inr out => exact trivial

/-- `assemble` at the head of a message, whatever the stream brings. -/
theorem bounded {w : ℕ} {c : ReadSide} (hw : 0 < w) (hlimit : c.settings.limit < 2 ^ (w - 1))
    (h : c.rx.Coupled) (hl : c.rx.dead = false) (head : c.rx.remaining = c.rx.header.payloadLen)
    (held : Bool) : Bounded w c held := by
  have hheads := Loop.visits_spec (fun _ hs => assembleRound_spec hs) (c.effort + 1)
    ({ held := held }, c) ⟨⟨[], .refl h hl, Or.inl rfl⟩, head, Nat.zero_le _⟩
  refine ⟨fun x hx => ?_, fun x hx hfits y hy => ?_⟩
  · obtain ⟨⟨l, within, -⟩, -, hlen⟩ := hheads x hx
    have hset : x.2.settings = c.settings := within.settings
    rw [← hset] at hlen hlimit
    exact ⟨hlen, intOf_eq hw hlimit (by omega) (by omega), room_eq hlen⟩
  · obtain ⟨⟨l, within, -⟩, hhead, hlen⟩ := hheads x hx
    have hset : x.2.settings = c.settings := within.settings
    rw [← hset] at hlen hlimit
    rw [room_eq hlen, ← hhead] at hfits
    obtain ⟨hcoupled, hlive, hset', hsum⟩ := gather_sum within.coupled within.live _ y hy
    rw [← hset'] at hlimit hlen hfits
    exact stepFits hw hlimit hcoupled hlive (by omega)

end ReadSide

/-! ## A message anywhere in a stream -/

namespace Conn

variable {F : Flate}

/-- A quiet connection between messages, in front of the bytes `bs`. -/
structure Before (c : Conn F) (bs : List UInt8) : Prop where
  rest : c.Rest
  quiet : Quiet c.side
  todo : c.side.todo = c.side.rx.rules.events false bs

/-- Past messages within the limit. -/
theorem calls_small : ∀ (ms : List (List Frame)) {c : Conn F} {bs : List UInt8},
    (∀ fs ∈ ms, Fragments.Proper c.side.rx.rules c.side.settings.validateUTF8 fs ∧
      (Fragments.payload fs).length ≤ c.side.settings.limit) →
    c.Before (wire ms.flatten ++ bs) →
      (c.calls ms.length).1 = ms.map Fragments.result ∧ (c.calls ms.length).2.Before bs ∧
        (c.calls ms.length).2.side.settings = c.side.settings ∧
        (c.calls ms.length).2.side.rx.rules = c.side.rx.rules
  | [], c, bs, _, h => ⟨rfl, h, rfl, rfl⟩
  | fs :: ms, c, bs, hms, h => by
    obtain ⟨proper, fits⟩ := hms fs List.mem_cons_self
    have htodo := h.todo
    rw [List.flatten_cons, wire_append, List.append_assoc,
      Fragments.events_single _ fs proper.legal proper.single,
      ← (Fragments.wireTo_eq fs fits).2] at htodo
    have hfaces : c.Faces fs (c.side.rx.rules.events false (wire ms.flatten ++ bs)) :=
      ⟨h.rest, h.quiet, proper, htodo⟩
    obtain ⟨c', heq, rest', quiet', todo', hset, hrules⟩ := hfaces.returns fits
    have before' : c'.Before (wire ms.flatten ++ bs) := ⟨rest', quiet', by rw [todo', hrules]⟩
    have hrest := calls_small ms (fun gs hgs => by
      rw [hrules, hset]
      exact hms gs (List.mem_cons_of_mem _ hgs)) before'
    rw [hset, hrules] at hrest
    simp only [List.length_cons, calls, heq, List.map_cons]
    exact ⟨congrArg (Fragments.result fs :: ·) hrest.1, hrest.2⟩

/-- A new connection is in front of what its transport brings. -/
theorem before_newConn {cfg : Config} {t : Transport}
    {pool : ℕ → Option { d : Decompressor F // d.Idle }} {c : Conn F}
    (h : newConn cfg t pool = .ok c) (handler : ∀ calls ev, cfg.handler calls ev = none)
    (steady : t.Steady) {bs : List UInt8} (input : t.symbols = bs.map .inl) :
    c.Before bs ∧ c.side.rx.rules = ⟨cfg.role, cfg.compression.isSome⟩ ∧
      c.side.settings.validateUTF8 = cfg.validateUTF8 := by
  have clean : t.Clean := fun e he => by simp [input] at he
  have hbytes : t.bytes = bs := by
    have := Transport.filterMap_inl bs []
    rw [List.append_nil] at this
    rw [Transport.bytes, input, this, List.filterMap_nil, List.append_nil]
  unfold newConn at h
  split_ifs at h with hv
  cases h
  refine ⟨⟨⟨⟨Receiver.coupled_init _ _, rfl, rfl⟩, rfl, rfl, rfl, fun d hd => by cases hd⟩,
    ⟨steady, clean, handler⟩, ?_⟩, rfl, rfl⟩
  simp only [todo, Receiver.expected_init, hbytes]
  rfl

/-- `MaxMessageSize` is enforced exactly, and none of the arithmetic of `assemble` wraps : behind any
messages within the limit, an uncompressed message is returned if and only if the lengths of its
frames add up to no more than the limit, and refused at the header of the first frame that passes it
otherwise. -/
theorem readMessage_limit (cfg : Config) (pool : ℕ → Option { d : Decompressor F // d.Idle })
    (t : Transport) {c : Conn F} (hc : newConn cfg t pool = .ok c)
    (handler : ∀ calls ev, cfg.handler calls ev = none) (earlier : List (List Frame))
    (fs : List Frame)
    (proper : ∀ gs ∈ fs :: earlier,
      Fragments.Proper ⟨cfg.role, cfg.compression.isSome⟩ cfg.validateUTF8 gs)
    (small : ∀ gs ∈ earlier, (Fragments.payload gs).length ≤ c.side.settings.limit)
    (steady : t.Steady) (rest : List UInt8)
    (input : t.symbols = (wire earlier.flatten ++
      (Fragments.wireTo c.side.settings.limit fs ++ rest)).map .inl) :
    (c.calls earlier.length).1 = earlier.map Fragments.result ∧
      ((c.calls earlier.length).2.readMessage.1 = Fragments.result fs ↔
        (Fragments.payload fs).length ≤ c.side.settings.limit) ∧
      (c.side.settings.limit < (Fragments.payload fs).length →
        ∃ before f after, fs = before ++ f :: after ∧ f.opcode.isControl = false ∧
          (Fragments.payload before).length ≤ c.side.settings.limit ∧
          c.side.settings.limit < (Fragments.payload before).length + f.payload.length ∧
          (c.calls earlier.length).2.Refuses before f) ∧
      ∀ op c₂, (c.calls earlier.length).2.nextMessage = (.ok op, c₂) →
        ∀ w, 0 < w → c.side.settings.limit < 2 ^ (w - 1) → Bounded w c₂.side c₂.held := by
  obtain ⟨before, hrules, hvalid⟩ := before_newConn hc handler steady input
  rw [← hrules, ← hvalid] at proper
  obtain ⟨hcalls, before', hset, hrules'⟩ := calls_small earlier (fun gs hgs =>
    ⟨proper gs (List.mem_cons_of_mem _ hgs), small gs hgs⟩) before
  have hproper := proper fs List.mem_cons_self
  obtain ⟨more, hmore⟩ := @Fragments.events_wireTo _ rest fs c.side.settings.limit _
    hproper.legal
  have hfaces : (c.calls earlier.length).2.Faces fs more := by
    refine ⟨before'.rest, before'.quiet, by rwa [hrules', hset], ?_⟩
    rw [before'.todo, hrules', hset, hmore]
  rw [← hset]
  refine ⟨hcalls, ⟨fun hok => ?_, fun hfits => ?_⟩, fun hlarge => hfaces.refuses hlarge,
    fun op c₂ hnext w hw hlimit => ?_⟩
  · by_contra hlarge
    obtain ⟨_, _, _, -, -, -, -, ⟨⟨c', heq, -⟩, -⟩⟩ := hfaces.refuses (Nat.lt_of_not_le hlarge)
    rw [heq] at hok
    cases hok
  · obtain ⟨c', heq, -⟩ := hfaces.returns hfits
    rw [heq]
    rfl
  · obtain ⟨l, f, r, c₁, hnext', begun, -⟩ := hfaces.nextMessage
    obtain ⟨-, rfl⟩ := Prod.mk.inj (hnext.symm.trans hnext')
    exact bounded hw (by rwa [begun.passed.settings]) begun.coupled begun.live begun.head _

/-- A binary message of one byte, and then a text of two fragments with two bytes each and a ping
between them, of which the transport brings no more than the header of the second : the limit is
three. -/
theorem readMessage_limit_three :
    ∃ c : Conn Flate.stored, newConn { role := .client, maxMessageSize := 3 }
        [.data [0x82, 1], .data [7, 1, 2, 104, 105, 0x89], .data [0, 0x80, 2]]
        (fun _ => none) = .ok c ∧
      (c.calls 1).1 = [.ok (.binary, [7])] ∧
      (c.calls 1).2.readMessage.1 ≠ .ok (.text, [104, 105, 106, 107]) ∧
      ∃ before f after, [⟨false, false, .text, none, [104, 105]⟩, ⟨true, false, .ping, none, []⟩,
          ⟨true, false, .continuation, none, [106, 107]⟩] = before ++ f :: after ∧
        f.opcode.isControl = false ∧ (Fragments.payload before).length ≤ 3 ∧
        3 < (Fragments.payload before).length + f.payload.length ∧
        (c.calls 1).2.Refuses before f := by
  obtain ⟨hcalls, hiff, hrefuses, -⟩ := readMessage_limit (F := Flate.stored)
    { role := .client, maxMessageSize := 3 } (fun _ => none)
    [.data [0x82, 1], .data [7, 1, 2, 104, 105, 0x89], .data [0, 0x80, 2]] rfl (fun _ _ => rfl)
    [[⟨true, false, .binary, none, [7]⟩]]
    [⟨false, false, .text, none, [104, 105]⟩, ⟨true, false, .ping, none, []⟩,
      ⟨true, false, .continuation, none, [106, 107]⟩]
    (by
      intro gs hgs
      have hvalid : ¬((false : Bool) = true) := by decide
      simp only [List.mem_cons, List.not_mem_nil, or_false] at hgs
      rcases hgs with rfl | rfl
      · exact ⟨by decide, by decide, by decide, fun h => absurd h hvalid⟩
      · exact ⟨by decide, by decide, by decide, fun h => absurd h hvalid⟩)
    (by decide) (by decide) [] (by decide)
  refine ⟨_, rfl, hcalls, fun hok => ?_, hrefuses (by decide)⟩
  exact absurd (hiff.mp hok) (by decide)

end Conn

end Ews
