import Ews.ReadPaths

/-!
# Calling `ReadMessage` again after an error

A caller of `ReadMessage` that calls again after every error of the transport (`calls`). As
long as no such error comes inside a message, its successful calls give the messages of the
stream (`calls_wire`). An error inside a message costs the caller that message : what
`assemble` had gathered is gone, and the next call discards the rest (`calls_torn`).
-/

set_option linter.unusedSectionVars false

namespace Ews

open ReadSide

/-! ## Streams of complete messages -/

/-- From the place `cur`, every message is complete and nothing fails. -/
def whole : Option Cursor → List Event → Bool
  | cur, [] => cur.isNone
  | cur, .control op _ :: es => if op = .close then cur.isNone && es.isEmpty else whole cur es
  | some k, .byte _ :: es => k.left ≠ 0 && whole (Cursor.place ⟨k.left - 1, k.final⟩) es
  | some k, .data final _ _ length :: es => k.left = 0 && whole (Cursor.place ⟨length, final⟩) es
  | none, .data final _ _ length :: es => whole (Cursor.place ⟨length, final⟩) es
  | none, .byte _ :: _ => false
  | _, .fail _ :: _ => false

theorem whole_pings (cur : Option Cursor) : ∀ (es rest : List Event), (∀ e ∈ es, e.IsPing) →
    whole cur (es ++ rest) = whole cur rest
  | [], _, _ => rfl
  | e :: es, rest, h => by
    have he := h e List.mem_cons_self
    cases e with
    | control op p =>
      have hop : op ≠ .close := he
      rw [← whole_pings cur es rest fun e he => h e (List.mem_cons_of_mem _ he)]
      simp [whole, hop]
    | _ => exact he.elim

theorem whole_bytes (final : Bool) (rest : List Event) : ∀ p : List UInt8,
    whole (Cursor.place ⟨p.length, final⟩) (p.map .byte ++ rest) =
      whole (Cursor.place ⟨0, final⟩) rest
  | [] => rfl
  | b :: p => by
    rw [← whole_bytes final rest p, Cursor.place_of_not_ended (by simp [Cursor.ended])]
    simp [whole]

/-- What follows a part of a stream of complete messages. -/
theorem whole_append : ∀ (es : List Event) {cur : Option Cursor} {rest : List Event},
    whole cur (es ++ rest) = true → whole (stand cur es) rest = true
  | [], cur, rest, h => h
  | .control op p :: es, cur, rest, h => by
    simp only [List.cons_append, whole] at h
    split_ifs at h with hop
    · simp only [Bool.and_eq_true, List.isEmpty_iff, List.append_eq_nil_iff] at h
      obtain ⟨hcur, rfl, rfl⟩ := h
      exact hcur
    · exact whole_append es h
  | .byte b :: es, some k, rest, h => by
    simp only [List.cons_append, whole, Bool.and_eq_true] at h
    exact whole_append es h.2
  | .data final rsv1 op length :: es, some k, rest, h => by
    simp only [List.cons_append, whole, Bool.and_eq_true] at h
    exact whole_append es h.2
  | .data final rsv1 op length :: es, none, rest, h => by
    simp only [List.cons_append, whole] at h
    exact whole_append es h
  | .byte b :: es, none, rest, h => by simp [whole] at h
  | .fail code :: es, cur, rest, h => by cases cur <;> simp [whole] at h

/-- A message of such a stream is completed. -/
theorem emit_whole (es : List Event) : ∀ (w : WireMessage) (k : Cursor),
    whole k.place es = true → emit w k es ≠ [] := by
  induction es with
  | nil =>
    intro w k h
    cases hk : k.ended with
    | true => simp [emit_ended hk]
    | false =>
      rw [Cursor.place_of_not_ended hk] at h
      simp [whole] at h
  | cons e es ih =>
    intro w k h
    cases hk : k.ended with
    | true => simp [emit_ended hk]
    | false =>
      rw [Cursor.place_of_not_ended hk] at h
      rw [emit, if_neg (by simp [hk])]
      cases e with
      | control op p =>
        by_cases hop : op = .close
        · simp [whole, hop] at h
        · have := ih w k (by simpa [whole, hop, Cursor.place_of_not_ended hk] using h)
          simpa [emit, hk, messagesFrom, hop] using this
      | byte b =>
        simp only [whole, Bool.and_eq_true, decide_eq_true_eq] at h
        have := ih { w with payload := w.payload ++ [b] } ⟨k.left - 1, k.final⟩ h.2
        simpa [emit, messagesFrom, h.1] using this
      | data final rsv1 op length =>
        simp only [whole, Bool.and_eq_true, decide_eq_true_eq] at h
        have := ih w ⟨length, final⟩ h.2
        simpa [emit, messagesFrom, h.1] using this
      | fail code => simp [whole] at h

/-- The frames of complete messages. -/
theorem whole_events {R : Rules} : ∀ (fs : List Frame) {openMsg : Bool},
    R.stream openMsg fs = true → fs.foldl Frame.opens openMsg = false →
      whole (Cursor.place ⟨0, !openMsg⟩) (fs.flatMap Frame.events) = true
  | [], openMsg, _, h => by
    rw [List.foldl_nil] at h
    rw [h]
    rfl
  | f :: fs, openMsg, h, hclosed => by
    obtain ⟨-, hrest⟩ := Rules.stream_cons.mp h
    rw [List.foldl_cons] at hclosed
    rw [List.flatMap_cons, Frame.events]
    by_cases hc : f.opcode.isControl = true
    · rw [if_pos hc, List.singleton_append]
      rw [Frame.opens, if_pos hc] at hclosed
      by_cases hop : f.opcode = .close
      · rw [if_pos hop] at hrest
        rw [hrest, List.foldl_nil] at hclosed
        rw [hclosed, hrest]
        simp [whole, hop, Cursor.place, Cursor.ended]
      · rw [if_neg hop, Frame.opens, if_pos hc] at hrest
        have := whole_events fs hrest hclosed
        simpa [whole, hop] using this
    · have hop : f.opcode ≠ .close := fun h => hc (by rw [h]; rfl)
      rw [if_neg hop] at hrest
      have := whole_events fs hrest hclosed
      rw [Frame.opens, if_neg hc, Bool.not_not] at this
      rw [if_neg hc, List.cons_append]
      rw [← whole_bytes f.final _ f.payload] at this
      cases openMsg with
      | false => exact this
      | true => exact this

/-! ## Calling again -/

namespace Conn

variable {F : Flate}

/-- The next `n` calls of `ReadMessage`, whatever each gives. -/
def calls (c : Conn F) : ℕ → List (Except Err (Opcode × List UInt8)) × Conn F
  | 0 => ([], c)
  | n + 1 => (c.readMessage.1 :: (c.readMessage.2.calls n).1, (c.readMessage.2.calls n).2)

theorem calls_add (k n : ℕ) (c : Conn F) :
    (c.calls (k + n)).1 = (c.calls k).1 ++ ((c.calls k).2.calls n).1 := by
  induction k generalizing c with
  | zero => rw [Nat.zero_add]; rfl
  | succ k ih =>
    rw [Nat.succ_add]
    exact congrArg (c.readMessage.1 :: ·) (ih c.readMessage.2)

/-- What the successful calls gave. -/
def received (rs : List (Except Err (Opcode × List UInt8))) : List (Opcode × List UInt8) :=
  rs.filterMap Except.toOption

/-- A connection that answers every call with the same error. -/
theorem calls_stuck {c : Conn F} {e : Err} (h : c.readMessage = (.error e, c)) :
    ∀ n, received (c.calls n).1 = []
  | 0 => rfl
  | n + 1 => by
    simp only [calls, h]
    exact calls_stuck h n

/-- In front of the complete messages `ms`. -/
structure Awaits (c : Conn F) (ms : List WireMessage) : Prop where
  rest : c.Rest
  calm : Calm c.side none
  messages : messages c.side.todo = ms
  whole : whole none c.side.todo = true

/-- What a call of `ReadMessage` leaves as it was, and what it uses up. -/
structure Called (c c' : Conn F) : Prop where
  settings : c'.side.settings = c.side.settings
  closes : c'.side.closes = c.side.closes
  effort : c'.side.effort < c.side.effort

section Call

variable {c : Conn F}

/-- `ReadMessage` in front of a message : the message, or an error that leaves it to the next
call. -/
theorem Awaits.readMessage {m : WireMessage} {ms : List WireMessage} {out : List UInt8}
    (h : c.Awaits (m :: ms)) (content : c.history.content F m = some out)
    (accepts : Accepts c.side.settings m out) :
    (∃ c', c.readMessage = (.ok (m.opcode, out), c') ∧ c'.Awaits ms ∧
        c'.history = c.history.next m out ∧ Called c c') ∨
      ∃ e c', c.readMessage = (.error e, c') ∧ c'.Awaits (m :: ms) ∧ c'.history = c.history ∧
        Called c c' := by
  obtain ⟨c₂, left, passed, hhist, heff⟩ := h.rest.left
  have htodo : c.side.todo = c₂.side.todo := by rw [passed.todo, List.nil_append]
  have hcalm : Calm c₂.side none := h.calm.passed passed
  rcases readMessage_spec left hcalm (htodo ▸ h.messages) (hhist ▸ content)
    (passed.settings ▸ accepts) with ⟨c', heq, hadv, hless⟩ | ⟨e, c', heq, stopped⟩
  · left
    obtain ⟨l, passed', place⟩ := hadv.passed
    have hwhole := h.whole
    rw [htodo, passed'.todo] at hwhole
    refine ⟨c', heq, ⟨hadv.rest, place ▸ hcalm.passed passed', hadv.messages, ?_⟩,
      hhist ▸ hadv.history, passed'.settings.trans passed.settings,
      passed'.closes.trans passed.closes, heff ▸ hless⟩
    have := whole_append l hwhole
    rwa [place] at this
  · right
    obtain ⟨l, pings, htodo'⟩ := stopped.todo
    have hwhole := h.whole
    rw [htodo, htodo', whole_pings none l _ pings] at hwhole
    exact ⟨e, c', heq, ⟨stopped.rest, stopped.calm, stopped.messages, hwhole⟩,
      stopped.history.trans hhist, stopped.settings.trans passed.settings,
      stopped.closes.trans passed.closes, heff ▸ stopped.effort⟩

/-- With no message to come `ReadMessage` fails, and nothing is sent for it. -/
theorem Awaits.readMessage_nil (h : c.Awaits []) : ∃ e c', c.readMessage = (.error e, c') ∧
    c'.side.closes = c.side.closes ∧ (c'.Awaits [] ∨ c'.side.readErr ≠ none) := by
  obtain ⟨c₂, left, passed, -, -⟩ := h.rest.left
  have htodo : c.side.todo = c₂.side.todo := by rw [passed.todo, List.nil_append]
  have hwhole := h.whole
  have hmessages := h.messages
  rw [htodo] at hwhole hmessages
  have calm : Calm c₂.side none := h.calm.passed passed
  have hframe := nextFrame_spec left.rest.between
  have hread : ∀ {e s}, c₂.side.nextFrame = (.error e, s) →
      c.readMessage = (.error e, { c₂ with side := s }) := fun heq => by
    simp only [Conn.readMessage, left.nextMessage, enter, heq]
  generalize hout : c₂.side.nextFrame = out at hframe
  obtain ⟨res, s⟩ := out
  cases hframe with
  | @data l s pings went opened less =>
    -- A message that is begun is completed.
    rw [went.todo, List.append_assoc] at hwhole hmessages
    rw [whole_pings none l _ pings] at hwhole
    rw [messages_pings _ _ pings, List.singleton_append, headEvent, messages_data] at hmessages
    exact absurd hmessages (emit_whole _ _ _ hwhole)
  | @stop l c₁ s e pings between stop =>
    cases stop with
    | blocked went live dry blocked =>
      obtain ⟨hbetween, same⟩ := between live
      have hcalm := calm.passed went.passed
      rw [stand_pings none l pings] at hcalm
      rw [went.todo, messages_pings _ _ pings] at hmessages
      rw [went.todo, whole_pings none l _ pings] at hwhole
      obtain ⟨hcalm', hsame⟩ := hcalm.blocked blocked
      refine ⟨_, _, hread hout, went.closes.trans passed.closes, Or.inl ⟨⟨⟨hbetween.coupled,
        hbetween.live, hbetween.drained⟩, same.messageOpen.trans left.rest.shut,
        went.inMessage.trans left.rest.outside, went.readErr.trans left.rest.fine,
        left.rest.dec⟩, hcalm', ?_, ?_⟩⟩
      · rw [hsame]
        exact hmessages
      · rw [hsame]
        exact hwhole
    | failed went dead =>
      rw [went.todo, List.append_assoc, whole_pings none l _ pings] at hwhole
      cases hwhole
    | refused went call answer => exact absurd (answer.symm.trans (calm.handler _ _)) (by simp)
    | closed went dead answer =>
      exact ⟨_, _, hread hout, went.closes.trans passed.closes, Or.inr (by simp)⟩

/-- From the end of the messages on no call succeeds. -/
theorem calls_over : ∀ (n : ℕ) {c : Conn F}, c.Awaits [] ∨ c.side.readErr ≠ none →
    received (c.calls n).1 = [] ∧ (c.calls n).2.side.closes = c.side.closes
  | 0, c, _ => ⟨rfl, rfl⟩
  | n + 1, c, h => by
    have hcall : ∃ e c', c.readMessage = (.error e, c') ∧ c'.side.closes = c.side.closes ∧
        (c'.Awaits [] ∨ c'.side.readErr ≠ none) := by
      rcases h with h | h
      · exact h.readMessage_nil
      · obtain ⟨e, he⟩ := Option.ne_none_iff_exists'.mp h
        exact ⟨e, c, by simp only [readMessage, nextMessage, he], rfl, Or.inr h⟩
    obtain ⟨e, c', heq, hcloses, hnext⟩ := hcall
    obtain ⟨hrec, hlast⟩ := calls_over n hnext
    simp only [calls, heq]
    exact ⟨hrec, hlast.trans hcloses⟩

/-- The successful calls give the messages in order, and given enough calls all of them. -/
theorem calls_spec : ∀ (n : ℕ) {c : Conn F} {ms : List WireMessage}
    {cs : List (Opcode × List UInt8)}, c.Awaits ms → c.history.contents F ms = some cs →
    (∀ x ∈ ms.zip cs, Accepts c.side.settings x.1 x.2.2) →
    received (c.calls n).1 <+: cs ∧ (c.side.effort < n → received (c.calls n).1 = cs) ∧
      (c.calls n).2.side.closes = c.side.closes
  | 0, c, ms, cs, _, _, _ => ⟨List.nil_prefix, fun h => absurd h (Nat.not_lt_zero _), rfl⟩
  | n + 1, c, [], cs, h, hcs, _ => by
    obtain ⟨hrec, hcloses⟩ := calls_over (n + 1) (Or.inl h)
    obtain rfl := Option.some.inj hcs
    exact ⟨hrec ▸ List.nil_prefix, fun _ => hrec, hcloses⟩
  | n + 1, c, m :: ms, cs, h, hcs, accepts => by
    obtain ⟨out, hout, hrest⟩ := Option.bind_eq_some_iff.mp hcs
    obtain ⟨cs', hcs', rfl⟩ := Option.map_eq_some_iff.mp hrest
    rcases h.readMessage hout (accepts (m, m.opcode, out) (by simp)) with
      ⟨c', heq, hawaits, hhist, called⟩ | ⟨e, c', heq, hawaits, hhist, called⟩
    · obtain ⟨hpre, hall, hcloses⟩ := calls_spec n hawaits (hhist ▸ hcs') fun x hx => by
        rw [called.settings]
        exact accepts x (by simp [hx])
      have hrec : received (c.calls (n + 1)).1 = (m.opcode, out) :: received (c'.calls n).1 := by
        simp only [calls, heq]
        rfl
      have hless := called.effort
      refine ⟨by rw [hrec]; exact List.cons_prefix_cons.mpr ⟨rfl, hpre⟩, fun hn => ?_, ?_⟩
      · rw [hrec, hall (by omega)]
      · simp only [calls, heq]
        exact hcloses.trans called.closes
    · obtain ⟨hpre, hall, hcloses⟩ := calls_spec n hawaits (hhist ▸ hcs) fun x hx => by
        rw [called.settings]
        exact accepts x hx
      have hrec : received (c.calls (n + 1)).1 = received (c'.calls n).1 := by
        simp only [calls, heq]
        rfl
      have hless := called.effort
      refine ⟨hrec ▸ hpre, fun hn => hrec.trans (hall (by omega)), ?_⟩
      simp only [calls, heq]
      exact hcloses.trans called.closes

end Call

/-- No error of the transport comes inside a message : the bytes before it leave none open. -/
def Untorn (R : Rules) (t : Transport) : Prop :=
  ∀ pre e post, t.symbols = pre ++ .inr e :: post →
    stand none (R.events false (pre.filterMap Sum.getLeft?)) = none

/-- A new connection over a transport that brings complete messages, with errors between them. -/
theorem awaits_newConn {cfg : Config} {t : Transport}
    {pool : ℕ → Option { d : Decompressor F // d.Idle }} {c : Conn F}
    (h : newConn cfg t pool = .ok c) (handler : ∀ calls ev, cfg.handler calls ev = none)
    {fs : List Frame}
    (legal : Rules.stream ⟨cfg.role, cfg.compression.isSome⟩ false fs = true)
    (complete : fs.foldl Frame.opens false = false) (steady : t.Steady)
    (bytes : t.bytes = wire fs) (untorn : Untorn ⟨cfg.role, cfg.compression.isSome⟩ t) :
    c.Awaits (gather none fs) ∧ c.side.closes = [] := by
  unfold newConn at h
  split_ifs at h with hv
  cases h
  refine ⟨⟨⟨⟨Receiver.coupled_init _ _, rfl, rfl⟩, rfl, rfl, rfl, fun d hd => by cases hd⟩,
    ⟨steady, handler, ?_⟩, ?_, ?_⟩, rfl⟩
  · simp only [Receiver.expected_init]
    exact untorn
  · simp only [todo, Receiver.expected_init, bytes]
    exact messages_wire legal
  · simp only [todo, Receiver.expected_init, bytes]
    rw [Rules.events_wire fs legal]
    exact whole_events fs legal complete

/-- A caller that calls `ReadMessage` again after every error of the transport, over a
transport that brings complete messages : as long as no error comes inside a message the
successful calls give the messages in order, after finitely many calls all of them, and the
connection fails none of them. -/
theorem calls_wire (cfg : Config) (pool : ℕ → Option { d : Decompressor F // d.Idle })
    (t : Transport) {c : Conn F} (hc : newConn cfg t pool = .ok c)
    (handler : ∀ calls ev, cfg.handler calls ev = none) (fs : List Frame)
    (legal : Rules.stream ⟨cfg.role, cfg.compression.isSome⟩ false fs = true)
    (complete : fs.foldl Frame.opens false = false) (steady : t.Steady)
    (bytes : t.bytes = wire fs) (cs : List (Opcode × List UInt8))
    (means : c.history.contents F (gather none fs) = some cs)
    (accepts : ∀ x ∈ (gather none fs).zip cs, Accepts c.side.settings x.1 x.2.2)
    (untorn : Untorn ⟨cfg.role, cfg.compression.isSome⟩ t) :
    (∀ n, received (c.calls n).1 <+: cs ∧ (c.calls n).2.side.closes = []) ∧
      ∃ N, ∀ n, N ≤ n → received (c.calls n).1 = cs := by
  obtain ⟨awaits, hcloses⟩ := awaits_newConn hc handler legal complete steady bytes untorn
  refine ⟨fun n => ?_, c.side.effort + 1, fun n hn => ?_⟩
  · obtain ⟨hpre, -, hlast⟩ := calls_spec n awaits means accepts
    exact ⟨hpre, hlast.trans hcloses⟩
  · exact (calls_spec n awaits means accepts).2.1 (by omega)

/-- Errors after the first byte of a text and between it and a binary message. -/
theorem calls_wire_between :
    ∃ c : Conn Flate.stored, newConn { role := .client }
        [.data [0x81], .err (.other 0), .data [2, 104, 105], .err (.other 0), .data [0x82, 1, 7]]
        (fun _ => none) = .ok c ∧
      ∃ N, ∀ n, N ≤ n → received (c.calls n).1 = [(.text, [104, 105]), (.binary, [7])] := by
  refine ⟨_, rfl, (calls_wire (F := Flate.stored) { role := .client } (fun _ => none)
    [.data [0x81], .err (.other 0), .data [2, 104, 105], .err (.other 0), .data [0x82, 1, 7]] rfl
    (fun _ _ => rfl) [⟨true, false, .text, none, [104, 105]⟩, ⟨true, false, .binary, none, [7]⟩]
    (by decide) (by decide) (by decide) (by decide) [(.text, [104, 105]), (.binary, [7])]
    (by decide) (fun x hx => ?_) ?_).2⟩
  · have hx : x = (⟨.text, false, [104, 105]⟩, .text, [104, 105]) ∨
        x = (⟨.binary, false, [7]⟩, .binary, [7]) := by
      simpa [WireMessage.join] using (show x ∈ [_, _] from hx)
    rcases hx with rfl | rfl
    · exact ⟨by decide, by decide, fun h => absurd h (by decide)⟩
    · exact ⟨by decide, by decide, fun h => absurd h (by decide)⟩
  · intro pre e post h
    have hlen : pre.length < 9 := by
      have := congrArg List.length h
      simp [Transport.symbols, ReadItem.symbols] at this
      omega
    have hget := congrArg (·[pre.length]?) h
    have hpre := congrArg (List.take pre.length) h
    simp only [List.getElem?_append_right le_rfl, Nat.sub_self, List.getElem?_cons_zero,
      List.take_left] at hget hpre
    rw [← hpre]
    clear hpre h
    generalize pre.length = k at hlen hget
    interval_cases k <;> try cases hget
    · show stand none (Rules.events ⟨.client, false⟩ false [0x81]) = none
      rw [Rules.events_more _ _ rfl]
      rfl
    · show stand none (Rules.events ⟨.client, false⟩ false
        (wire [⟨true, false, .text, none, [104, 105]⟩])) = none
      rw [Rules.events_wire _ (by decide)]
      rfl

/-- A text of two bytes, the transport failing between them, and a binary message : the text
is never received. -/
theorem calls_torn :
    ∃ c : Conn Flate.stored, newConn { role := .client }
        [.data [0x81, 2, 104], .err (.other 0), .data [105, 0x82, 1, 7]] (fun _ => none) = .ok c ∧
      Transport.bytes [.data [0x81, 2, 104], .err (.other 0), .data [105, 0x82, 1, 7]] =
        wire [⟨true, false, .text, none, [104, 105]⟩, ⟨true, false, .binary, none, [7]⟩] ∧
      Rules.stream ⟨.client, false⟩ false
        [⟨true, false, .text, none, [104, 105]⟩, ⟨true, false, .binary, none, [7]⟩] = true ∧
      gather none [⟨true, false, .text, none, [104, 105]⟩, ⟨true, false, .binary, none, [7]⟩] =
        [⟨.text, false, [104, 105]⟩, ⟨.binary, false, [7]⟩] ∧
      ∀ n, received (c.calls n).1 = if n < 2 then [] else [(.binary, [7])] := by
  refine ⟨_, rfl, by decide, by decide, by decide, fun n => ?_⟩
  match n with
  | 0 => rfl
  | 1 => rfl
  | 2 => rfl
  | n + 3 =>
    rw [if_neg (by omega), Nat.add_comm, calls_add, received, List.filterMap_append]
    refine congrArg ([(.binary, [7])] ++ ·) (calls_stuck (e := .eof) (c := (calls _ 3).2) ?_ n)
    rfl

end Conn

end Ews
