import Ews.Within

/-!
# Relaying and assembling a plain message

`WriteTo` hands every chunk to a writer as it comes ; `assemble` gathers the whole message
within the limit. `relay_spec` and `assemble_spec` say which payload they have taken
off the message when they return.
-/

set_option linter.unusedSectionVars false

namespace Ews

namespace ReadSide

/-! ## The message buffer -/

/-- A message that has bytes is in the connection's buffer, so growing keeps it. -/
@[simp] theorem MsgBuf.bytes_growMsg (msg : MsgBuf) : msg.growMsg.bytes = msg.bytes := by
  unfold growMsg
  split_ifs with h
  · rfl
  · by_contra hne
    exact h (msg.kept fun h0 => hne h0.symm)

@[simp] theorem MsgBuf.bytes_appendMsg (msg : MsgBuf) (chunk : List UInt8) :
    (msg.appendMsg chunk).bytes = msg.bytes ++ chunk := by
  simp [appendMsg]

/-- The outcomes of `readInto` inside a frame. -/
inductive IntoOutcome (c : ReadSide) (msg : MsgBuf) (n : ℕ) :
    Except Err Unit × MsgBuf × ReadSide → Prop
  | took {chunk : List UInt8} {c' : ReadSide} (nonempty : chunk ≠ []) (length : chunk.length ≤ n)
      (within : Within c (chunk.map .byte) chunk c')
      (rem : chunk.length + c'.rx.remaining = c.rx.remaining) (less : c'.effort < c.effort) :
      IntoOutcome c msg n (.ok (), msg.appendMsg chunk, c')
  | broke {msg' : MsgBuf} {e : Err} {c' : ReadSide} (broke : Broke c [] e c') :
      IntoOutcome c msg n (.error e, msg', c')

theorem readInto_spec {c : ReadSide} (h : c.rx.Coupled) (left : c.rx.remaining ≠ 0)
    (pending : c.rx.dec.pending = []) (msg : MsgBuf) {n : ℕ} (hn : 0 < n)
    (hle : n ≤ c.rx.remaining) : IntoOutcome c msg n (c.readInto msg n) := by
  have hdirect := readPayload_spec h left pending hn hle
  unfold readInto
  generalize c.readPayload n = out at hdirect
  obtain ⟨res, c'⟩ := out
  cases hdirect with
  | took nonempty length within rem less => exact .took nonempty length within rem less
  | broke broke => exact .broke broke

/-! ## `WriteTo` -/

/-- A writer that accepts everything. -/
def Writer.AcceptsAll (w : Writer) : Prop :=
  ∀ sofar chunk, w.accept sofar chunk = (chunk.length, none)

/-- The relay has gone from `s` to `s'` and the writer has the payload `p` in between. -/
structure Relaying (s : Relay ReadSide) (l : List Event) (p : List UInt8) (s' : Relay ReadSide) : Prop where
  within : Within s.conn l p s'.conn
  written : s'.writer.written = s.writer.written ++ p
  accept : s'.writer.accept = s.writer.accept
  total : s'.total = s.total + p.length

theorem Relaying.refl {s : Relay ReadSide} (h : s.conn.rx.Coupled) (hl : s.conn.rx.dead = false) :
    Relaying s [] [] s :=
  ⟨.refl h hl, (List.append_nil _).symm, rfl, rfl⟩

theorem Relaying.trans {s s' s'' : Relay ReadSide} {l l' : List Event} {p p' : List UInt8}
    (h : Relaying s l p s') (h' : Relaying s' l' p' s'') : Relaying s (l ++ l') (p ++ p') s'' where
  within := h.within.trans h'.within
  written := by rw [h'.written, h.written, List.append_assoc]
  accept := h'.accept.trans h.accept
  total := by rw [h'.total, h.total, List.length_append, Nat.add_assoc]

/-- The outcomes of `WriteTo` for a plain message : the writer has the rest of it ; the writer
refused some of what was taken off the message ; or a stop. -/
inductive Relayed (s : Relay ReadSide) : Option Err × Relay ReadSide → Prop
  | ended {l : List Event} {p : List UInt8} {s' : Relay ReadSide} (relaying : Relaying s l p s')
      (ended : s'.conn.cursor.ended = true) :
      Relayed s (none, { s' with conn := { s'.conn with inMessage := false } })
  | refused {l : List Event} {p : List UInt8} {e : Err} {s' : Relay ReadSide}
      (within : Within s.conn l p s'.conn) (faulty : ¬s.writer.AcceptsAll) :
      Relayed s (some e, s')
  | broke {l : List Event} {p : List UInt8} {e : Err} {s' : Relay ReadSide} {c' : ReadSide}
      (relaying : Relaying s l p s') (broke : Broke s'.conn [] e c') :
      Relayed s (some e, { s' with conn := c' })

theorem Relayed.after {s s₁ : Relay ReadSide} {l : List Event} {p : List UInt8} (h : Relaying s l p s₁)
    {out : Option Err × Relay ReadSide} (h' : Relayed s₁ out) : Relayed s out := by
  cases h' with
  | ended relaying ended => exact .ended (h.trans relaying) ended
  | refused within faulty =>
    refine .refused (h.within.trans within) ?_
    rwa [Writer.AcceptsAll, ← h.accept]
  | broke relaying broke => exact .broke (h.trans relaying) broke

/-- A stop before anything was handed over. -/
theorem Relayed.of_broke {s : Relay ReadSide} {c₁ c₂ : ReadSide} {e : Err} (held : Bool)
    (within : Within s.conn [] [] c₁) (broke : Broke c₁ [] e c₂) :
    Relayed s (some e, { s with conn := c₂, held := held }) := by
  have hrel : Relaying s [] [] { s with conn := c₁, held := held } :=
    ⟨within, (List.append_nil _).symm, rfl, rfl⟩
  have hstop := Relayed.broke hrel broke
  exact hstop

/-- A chunk handed to the writer : all of it, or the writer does not accept everything. -/
theorem hand_spec {κ : Type} (s : Relay κ) (chunk : List UInt8) : ∃ err s', s.hand chunk = (err, s') ∧
    s'.conn = s.conn ∧ s'.writer.accept = s.writer.accept ∧
    (err = none → s'.writer.written = s.writer.written ++ chunk ∧
      s'.total = s.total + chunk.length) ∧
    (err ≠ none → ¬s.writer.AcceptsAll) := by
  refine ⟨(s.hand chunk).1, (s.hand chunk).2, rfl, ?_⟩
  unfold Relay.hand Writer.write
  cases hacc : s.writer.accept s.writer.written chunk with
  | mk n err =>
    have hall : s.writer.AcceptsAll → n = chunk.length ∧ err = none :=
      fun h => Prod.mk.inj (hacc.symm.trans (h _ _))
    cases err with
    | some e => exact ⟨rfl, rfl, by simp, fun _ h => by simpa using (hall h).2⟩
    | none =>
      dsimp only
      refine ⟨rfl, rfl, fun h => ?_, fun h hw => ?_⟩
      · have hn : min n chunk.length = chunk.length := by simpa using h
        exact ⟨by rw [List.take_of_length_le (by omega)], by rw [hn]⟩
      · simp [(hall hw).1] at h

section Round

variable {s : Relay ReadSide}

/-- A round of `WriteTo`. -/
def RelayStep (s : Relay ReadSide) : Relay ReadSide ⊕ Option Err × Relay ReadSide → Prop
  | .inl s' => (∃ l p, Relaying s l p s') ∧ s'.conn.effort < s.conn.effort
  | .inr out => Relayed s out

/-- The end of a round, once the chunk is taken off the message. -/
theorem relayChunk_spec {c : ReadSide} {l : List Event} {chunk : List UInt8} (held : Bool)
    (within : Within s.conn l chunk c) (less : c.rx.remaining ≠ 0 → c.effort < s.conn.effort) :
    RelayStep s
      (relayChunk { s with conn := c, held := held } chunk (decide (c.rx.remaining = 0))) := by
  obtain ⟨err, s₁, heq, hconn, hacc, hok, hbad⟩ : ∃ err s₁,
      (if chunk ≠ [] then Relay.hand { s with conn := c, held := held } chunk
        else (none, { s with conn := c, held := held })) =
        (err, s₁) ∧ s₁.conn = c ∧ s₁.writer.accept = s.writer.accept ∧
      (err = none → s₁.writer.written = s.writer.written ++ chunk ∧
        s₁.total = s.total + chunk.length) ∧ (err ≠ none → ¬s.writer.AcceptsAll) := by
    split_ifs with hc
    · exact hand_spec { s with conn := c, held := held } chunk
    · simp only [ne_eq, not_not] at hc
      exact ⟨none, _, rfl, rfl, rfl, fun _ => by simp [hc], by simp⟩
  subst hconn
  simp only [relayChunk, heq]
  cases err with
  | some e => exact .refused within (hbad (by simp))
  | none =>
    have hrel : Relaying s l chunk s₁ := ⟨within, (hok rfl).1, hacc, (hok rfl).2⟩
    by_cases h0 : s₁.conn.rx.remaining = 0
    · simp only [h0, decide_true, Bool.not_true, Bool.false_eq_true, if_false, Bool.not_eq_true']
      split_ifs with hopen
      · exact .ended hrel (cursor_ended.mpr ⟨h0, hopen⟩)
      · have hframe := fragment_spec ⟨within.coupled, within.live, h0⟩ (by simpa using hopen)
        generalize s₁.conn.nextFrame = out at hframe
        obtain ⟨res, c'⟩ := out
        cases hframe with
        | next within' head less' =>
          refine ⟨⟨_, _, hrel.trans ⟨within', ?_, rfl, rfl⟩⟩, less'.trans_le within.effort⟩
          simp
        | broke broke stalled => exact .broke hrel broke
    · simp only [h0, decide_false, Bool.not_false, if_true]
      exact ⟨⟨_, _, hrel⟩, less h0⟩

theorem relayRound_spec (h : s.conn.rx.Coupled) (hl : s.conn.rx.dead = false) :
    RelayStep s (relayRound s) := by
  have hpay := payload_spec h hl
  unfold relayRound
  generalize s.conn.payload = out at hpay
  obtain ⟨res, c₁⟩ := out
  cases hpay with
  | took nonempty length within rem spent less =>
    simp only [nonempty, false_and, if_false]
    exact relayChunk_spec s.held within fun _ => less
  | drained rem =>
    simp only [Bool.true_eq_false, and_false, if_false]
    have := relayChunk_spec (s := s) s.held (.refl h hl) fun hne => absurd rem hne
    rwa [rem] at this
  | waiting within rem left starved pending =>
    simp only [and_self, if_true]
    split_ifs with hsmall
    · have hfill := refill_spec within.coupled left pending
      generalize c₁.fill = out at hfill
      obtain ⟨res, c₂⟩ := out
      cases hfill with
      | fed within' rem' less =>
        exact ⟨⟨_, _, ⟨within.trans within', by simp, rfl, rfl⟩⟩, less.trans_le within.effort⟩
      | broke broke => exact .of_broke s.held within broke
    · have hsize := c₁.settings.bufSize_pos
      have hfrag := c₁.settings.fragmentSize_pos
      have hinto := readInto_spec within.coupled left pending { held := s.held }
        (n := min c₁.rx.remaining c₁.settings.fragmentSize) (by omega) (by omega)
      generalize c₁.readInto { held := s.held } (min c₁.rx.remaining c₁.settings.fragmentSize) = out
        at hinto
      cases hinto with
      | took nonempty length within' rem' less =>
        simp only [MsgBuf.bytes_appendMsg, List.nil_append]
        exact relayChunk_spec _ (within.trans within') fun _ => less.trans_le within.effort
      | broke broke => exact .of_broke _ within broke

end Round

/-- `WriteTo` in a plain message. -/
theorem relay_spec {c : ReadSide} (h : c.rx.Coupled) (hl : c.rx.dead = false) (w : Writer)
    (held : Bool) : Relayed ⟨0, w, c, held⟩ (relay w c held) := by
  refine Loop.run_spec (fun s => ∃ l p, Relaying ⟨0, w, c, held⟩ l p s) (fun s => s.conn.effort) ?_
    ⟨[], [], .refl h hl⟩ (Nat.lt_succ_self _)
  rintro s ⟨l, p, relaying⟩
  have hround := relayRound_spec relaying.within.coupled relaying.within.live
  cases hb : relayRound s with
  | inl s' =>
    rw [hb] at hround
    obtain ⟨⟨l', p', relaying'⟩, less⟩ := hround
    exact ⟨⟨_, _, relaying.trans relaying'⟩, less⟩
  | inr out =>
    rw [hb] at hround
    exact .after relaying hround

/-! ## `assemble` -/

/-- The outcomes of the inner loop of `assemble` : the message in one chunk, the rest of the
frame after `msg`, or a stop. -/
inductive GatherOutcome (msg : MsgBuf) (c : ReadSide) : Gathered × MsgBuf × ReadSide → Prop
  | whole {l : List Event} {p : List UInt8} {msg' : MsgBuf} {c' : ReadSide}
      (first : msg.bytes = []) (within : Within c l p c') (ended : c'.cursor.ended = true)
      (length : p.length = c.rx.remaining) : GatherOutcome msg c (.whole p, msg', c')
  | frame {l : List Event} {p : List UInt8} {msg' : MsgBuf} {c' : ReadSide}
      (within : Within c l p c') (rem : c'.rx.remaining = 0) (length : p.length = c.rx.remaining)
      (bytes : msg'.bytes = msg.bytes ++ p) : GatherOutcome msg c (.frame, msg', c')
  | broke {l : List Event} {p : List UInt8} {e : Err} {msg' : MsgBuf} {c₁ c' : ReadSide}
      (within : Within c l p c₁) (length : p.length + c₁.rx.remaining = c.rx.remaining)
      (broke : Broke c₁ [] e c') (stalled : Stalled c₁ e c') :
      GatherOutcome msg c (.error e, msg', c')

theorem GatherOutcome.after {msg msg₁ : MsgBuf} {p : List UInt8} {c c₁ : ReadSide} {l : List Event}
    (h : Within c l p c₁) (hrem : p.length + c₁.rx.remaining = c.rx.remaining)
    (hmsg : msg₁.bytes = msg.bytes ++ p) {out : Gathered × MsgBuf × ReadSide}
    (h' : GatherOutcome msg₁ c₁ out) : GatherOutcome msg c out := by
  cases h' with
  | whole first within ended length =>
    obtain ⟨h0, rfl⟩ := List.append_eq_nil_iff.mp (hmsg.symm.trans first)
    exact .whole h0 (h.trans within) ended (by simpa [length] using hrem)
  | frame within rem length bytes =>
    refine .frame (h.trans within) rem ?_ ?_
    · rw [List.length_append, length, hrem]
    · rw [bytes, hmsg, List.append_assoc]
  | broke within length broke stalled =>
    refine .broke (h.trans within) ?_ broke stalled
    rw [List.length_append, Nat.add_assoc, length, hrem]

/-- A round of the inner loop. -/
def GatherStep (msg : MsgBuf) (c : ReadSide) :
    (MsgBuf × ReadSide) ⊕ Gathered × MsgBuf × ReadSide → Prop
  | .inl (msg', c') => (∃ l p, Within c l p c' ∧ msg'.bytes = msg.bytes ++ p ∧
      p.length + c'.rx.remaining = c.rx.remaining) ∧ c'.effort < c.effort
  | .inr out => GatherOutcome msg c out

section Gather

variable {c : ReadSide} (h : c.rx.Coupled) (hl : c.rx.dead = false) (msg : MsgBuf)
include h hl

/-- What a round makes of a chunk, which may end the frame. -/
theorem gather_chunk {c₁ : ReadSide} {l : List Event} {chunk : List UInt8} {done : Bool}
    (within : Within c l chunk c₁) (hrem : chunk.length + c₁.rx.remaining = c.rx.remaining)
    (hdone : done = decide (c₁.rx.remaining = 0))
    (less : done = false → c₁.effort < c.effort) : GatherStep msg c
      (if done && msg.bytes.isEmpty && !c₁.rx.messageOpen then .inr (.whole chunk, msg, c₁)
        else if done then .inr (.frame, msg.appendMsg chunk, c₁)
        else .inl (msg.appendMsg chunk, c₁)) := by
  cases done with
  | false =>
    simp only [Bool.false_and, Bool.false_eq_true, if_false]
    exact ⟨⟨_, _, within, msg.bytes_appendMsg chunk, hrem⟩, less rfl⟩
  | true =>
    have h0 : c₁.rx.remaining = 0 := of_decide_eq_true hdone.symm
    have hlen : chunk.length = c.rx.remaining := by omega
    simp only [Bool.true_and, if_true]
    split_ifs with hwhole
    · simp only [Bool.and_eq_true, List.isEmpty_iff, Bool.not_eq_true'] at hwhole
      exact .whole hwhole.1 within (cursor_ended.mpr ⟨h0, hwhole.2⟩) hlen
    · exact .frame within h0 hlen (msg.bytes_appendMsg chunk)

theorem gatherRound_spec : GatherStep msg c (gatherRound (msg, c)) := by
  have hpay := payload_spec h hl
  simp only [gatherRound]
  generalize c.payload = out at hpay
  obtain ⟨res, c₁⟩ := out
  cases hpay with
  | took nonempty length within rem spent less =>
    simp only [nonempty, ne_eq, not_false_eq_true, true_or, if_true]
    exact gather_chunk h hl msg within rem rfl fun _ => less
  | drained rem =>
    have hchunk := gather_chunk h hl msg (.refl h hl) (Nat.zero_add _)
      (decide_eq_true rem).symm (by simp)
    simp only [or_true, if_true]
    exact hchunk
  | waiting within rem left starved pending =>
    simp only [Bool.false_and, Bool.false_eq_true, if_false, ne_eq, not_true_eq_false, or_self]
    split_ifs with hbig
    · have hinto := readInto_spec within.coupled left pending msg (Nat.pos_of_ne_zero left) le_rfl
      generalize c₁.readInto msg c₁.rx.remaining = out at hinto
      cases hinto with
      | took nonempty length within' rem' less =>
        exact ⟨⟨_, _, within.trans within', msg.bytes_appendMsg _, rem'.trans rem⟩,
          less.trans_le within.effort⟩
      | broke broke => exact .broke within (by simpa using rem) broke (broke.stalled left)
    · have hfill := refill_spec within.coupled left pending
      generalize c₁.fill = out at hfill
      obtain ⟨res, c₂⟩ := out
      cases hfill with
      | fed within' rem' less =>
        exact ⟨⟨_, [], within.trans within', (List.append_nil _).symm, by simpa using rem'.trans rem⟩,
          less.trans_le within.effort⟩
      | broke broke => exact .broke within (by simpa using rem) broke (broke.stalled left)

/-- The inner loop of `assemble`. -/
theorem gather_spec : GatherOutcome msg c (c.gather msg) := by
  refine Loop.run_spec (fun s => ∃ l p, Within c l p s.2 ∧ s.1.bytes = msg.bytes ++ p ∧
    p.length + s.2.rx.remaining = c.rx.remaining) (fun s => s.2.effort) ?_
    ⟨[], [], .refl h hl, (List.append_nil _).symm, Nat.zero_add _⟩ (Nat.lt_succ_self _)
  rintro ⟨msg₁, c₁⟩ ⟨l, p, within, bytes, rem⟩
  have hround := gatherRound_spec within.coupled within.live msg₁
  cases hb : gatherRound (msg₁, c₁) with
  | inl s' =>
    rw [hb] at hround
    obtain ⟨⟨l', p', within', hmsg', rem'⟩, less⟩ := hround
    refine ⟨⟨_, _, within.trans within', ?_, ?_⟩, less⟩
    · rw [hmsg', bytes, List.append_assoc]
    · rw [List.length_append, Nat.add_assoc, rem', rem]
  | inr out =>
    rw [hb] at hround
    exact .after within rem bytes hround

end Gather

/-- The events end with the head of a frame, or there are none. -/
def Headed (l : List Event) : Prop :=
  l = [] ∨ ∃ l₀ final rsv1 op length, l = l₀ ++ [.data final rsv1 op length]

theorem Headed.append {l : List Event} (h : Headed l) {l₀ : List Event} (hne : l ≠ []) :
    Headed (l₀ ++ l) := by
  rcases h with h | ⟨l₁, final, rsv1, op, length, rfl⟩
  · exact absurd h hne
  · exact Or.inr ⟨l₀ ++ l₁, final, rsv1, op, length, (List.append_assoc _ _ _).symm⟩

/-- The outcomes of `assemble` : the rest of the message, a frame past the limit, at its head, or
a stop in a frame within the limit or behind it. -/
inductive Assembled (c : ReadSide) : Except Err (List UInt8) × MsgBuf × ReadSide → Prop
  | whole {l : List Event} {p : List UInt8} {msg : MsgBuf} {c' : ReadSide}
      (within : Within c l p c') (ended : c'.cursor.ended = true)
      (length : p.length ≤ c.settings.limit) : Assembled c (.ok p, msg, c')
  | tooLarge {l : List Event} {msg : MsgBuf} {c' : ReadSide} (within : Within c l msg.bytes c')
      (headed : Headed l) (length : msg.bytes.length ≤ c.settings.limit)
      (hover : c.settings.limit < msg.bytes.length + c'.cursor.left) :
      Assembled c (.error (.failure 1009 .messageTooLarge), msg,
        c'.fail (.failure 1009 .messageTooLarge))
  | broke {l : List Event} {p : List UInt8} {e : Err} {msg : MsgBuf} {c₁ c' : ReadSide}
      (within : Within c l p c₁) (length : p.length + c₁.cursor.left ≤ c.settings.limit)
      (broke : Broke c₁ [] e c') (stalled : Stalled c₁ e c') :
      Assembled c (.error e, msg, c')

/-- Within the limit `uint64(c.limit-len(msg))` does not wrap. -/
theorem room_eq {c : ReadSide} {msg : List UInt8} (h : msg.length ≤ c.settings.limit) :
    c.room msg = c.settings.limit - msg.length := by
  have hlt := c.settings.limit_lt
  unfold room
  rw [Int.emod_eq_of_lt (by omega) (by omega)]
  omega

/-- Where the outer loop of `assemble` stands : at the head of a frame, with the payload so far
within the limit. -/
structure AtHead (c : ReadSide) (s : MsgBuf × ReadSide) : Prop where
  within : ∃ l, Within c l s.1.bytes s.2 ∧ Headed l
  head : s.2.rx.remaining = s.2.rx.header.payloadLen
  length : s.1.bytes.length ≤ c.settings.limit

section Assemble

variable {c : ReadSide}

theorem assembleRound_spec {s : MsgBuf × ReadSide} (hs : AtHead c s) :
    Loop.Round (AtHead c) (fun s => s.2.effort) (Assembled c) s (assembleRound s) := by
  obtain ⟨msg, c₁⟩ := s
  obtain ⟨⟨l, within, headed⟩, head, length⟩ := hs
  dsimp only at within head length
  have hroom : c₁.room msg.bytes = c.settings.limit - msg.bytes.length := by
    rw [room_eq (by rwa [within.settings]), within.settings]
  simp only [assembleRound, hroom]
  split_ifs with hover
  · exact .tooLarge within headed length (by simp only [cursor, head]; omega)
  · have hgather := gather_spec within.coupled within.live msg
    generalize c₁.gather msg = out at hgather
    cases hgather with
    | whole first within' ended len =>
      rw [first] at within
      exact .whole (within.trans within') ended (by omega)
    | @frame l' p msg' c₂ within' rem len bytes =>
      have hlen : msg'.bytes.length ≤ c.settings.limit := by
        rw [bytes, List.length_append]
        omega
      have hwithin := within.trans within'
      rw [← bytes] at hwithin
      simp only [Bool.not_eq_true']
      split_ifs with hopen
      · exact .whole hwithin (cursor_ended.mpr ⟨rem, hopen⟩) hlen
      · have hframe := fragment_spec ⟨within'.coupled, within'.live, rem⟩ (by simpa using hopen)
        generalize c₂.nextFrame = out at hframe
        obtain ⟨res, c₃⟩ := out
        cases hframe with
        | @next l'' c₃ within'' head' less =>
          have happ := hwithin.trans within''
          rw [List.append_nil] at happ
          have hheaded : Headed (l ++ l' ++ (l'' ++ [headEvent c₃.rx.header])) :=
            Or.inr ⟨l ++ l' ++ l'', _, _, _, _, (List.append_assoc _ _ _).symm⟩
          exact ⟨⟨⟨_, happ, hheaded⟩, head', hlen⟩, less.trans_le within'.effort⟩
        | broke broke stalled =>
          exact .broke hwithin (by simp only [cursor, rem]; omega) broke stalled
    | broke within' len broke stalled =>
      refine .broke (within.trans within') ?_ broke stalled
      simp only [cursor, List.length_append]
      omega

/-- `assemble`, at the head of a message. -/
theorem assemble_spec (h : c.rx.Coupled) (hl : c.rx.dead = false)
    (head : c.rx.remaining = c.rx.header.payloadLen) (held : Bool) :
    Assembled c (c.assemble held) :=
  Loop.run_spec (AtHead c) (fun s => s.2.effort) (fun _ hs => assembleRound_spec hs)
    ⟨⟨[], .refl h hl, Or.inl rfl⟩, head, Nat.zero_le _⟩ (Nat.lt_succ_self _)

end Assemble

end ReadSide

end Ews
