import Ews.ReadSteps

/-!
# Reading inside a message

The receiver's state inside a message is a `Cursor`, and what a function of the reading
side does there is `Within` : it goes through events that `scan` takes from the one
cursor to the other, with the payload `scan` finds in them. `Broke` is a stop before the
message is complete.

`readPlain_spec`, `relay_spec`, `assemble_spec`, `nextChunk_spec` and `skip_spec` describe the
five loops that read a message. They take their payload in different ways, from the read
buffer or past it, and all are `Within`.
-/

set_option linter.unusedSectionVars false

namespace Ews

namespace ReadSide

/-- Where the receiver stands in the current message. -/
def cursor (c : ReadSide) : Cursor :=
  ⟨c.rx.remaining, if c.rx.remaining = 0 then !c.rx.messageOpen else c.rx.header.final⟩

theorem cursor_ended {c : ReadSide} :
    c.cursor.ended = true ↔ c.rx.remaining = 0 ∧ c.rx.messageOpen = false := by
  by_cases h : c.rx.remaining = 0 <;> simp [cursor, Cursor.ended, h]

/-- From `c` to `c'` within a message, through the events `l` with the payload `p`. -/
structure Within (c : ReadSide) (l : List Event) (p : List UInt8) (c' : ReadSide) : Prop
    extends Went c l c' where
  scan : scan c.cursor l = some (p, c'.cursor)
  live : c'.rx.dead = false
  compressed : c'.rx.compressed = c.rx.compressed

theorem Within.refl {c : ReadSide} (h : c.rx.Coupled) (hl : c.rx.dead = false) :
    Within c [] [] c where
  toWent := .refl h
  scan := rfl
  live := hl
  compressed := rfl

theorem Within.trans {c c' c'' : ReadSide} {l l' : List Event} {p p' : List UInt8}
    (h : Within c l p c') (h' : Within c' l' p' c'') : Within c (l ++ l') (p ++ p') c'' where
  toWent := h.toWent.trans h'.toWent
  scan := by rw [scan_append, h.scan, Option.bind_some, h'.scan, Option.map_some]
  live := h'.live
  compressed := h'.compressed.trans h.compressed

/-- A stop inside a message that is not complete, after the payload `p`. If the receiver
is still live it stands where `scan` ends. -/
inductive Broke (c : ReadSide) (p : List UInt8) (e : Err) (c' : ReadSide) : Prop
  | mk {l : List Event} {k : Cursor} {c₁ : ReadSide} (stop : Stop c l c₁ e c')
      (scan : scan c.cursor l = some (p, k)) (incomplete : k.ended = false)
      (place : c₁.rx.dead = false → c₁.cursor = k ∧ c₁.rx.compressed = c.rx.compressed) :
      Broke c p e c'

theorem Broke.after {c c₁ c' : ReadSide} {l : List Event} {p q : List UInt8} {e : Err}
    (h : Within c l p c₁) (h' : Broke c₁ q e c') : Broke c (p ++ q) e c' := by
  obtain ⟨stop, scan, incomplete, place⟩ := h'
  refine .mk (Stop.after h.toWent stop) ?_ incomplete fun hl => ?_
  · rw [scan_append, h.scan, Option.bind_some, scan, Option.map_some]
  · exact ⟨(place hl).1, (place hl).2.trans h.compressed⟩

/-- A stop past control frames only. -/
inductive Stalled (c : ReadSide) (e : Err) (c' : ReadSide) : Prop
  | mk {l : List Event} {c₁ : ReadSide} (pings : ∀ e ∈ l, e.IsPing) (stop : Stop c l c₁ e c') :
      Stalled c e c'

/-- Inside a frame a stop without payload is a stop on the spot. -/
theorem Broke.stalled {c c' : ReadSide} {e : Err} (left : c.rx.remaining ≠ 0)
    (h : Broke c [] e c') : Stalled c e c' := by
  obtain ⟨stop, hscan, -, -⟩ := h
  rename_i l k c₁
  have hk : c.cursor.left ≠ 0 := left
  cases l with
  | nil => exact ⟨by simp, stop⟩
  | cons x l => cases x <;> simp [Ews.scan, hk] at hscan

/-! ## One step -/

/-- Within a message `nextFrame` gives the next fragment. -/
inductive FragmentOutcome (c : ReadSide) : Except Err Unit → ReadSide → Prop
  | next {l : List Event} {c' : ReadSide} (within : Within c (l ++ [headEvent c'.rx.header]) [] c')
      (head : c'.rx.remaining = c'.rx.header.payloadLen)
      (less : c'.effort < c.effort) : FragmentOutcome c (.ok ()) c'
  | broke {e : Err} {c' : ReadSide} (broke : Broke c [] e c') (stalled : Stalled c e c') :
      FragmentOutcome c (.error e) c'

theorem cursor_opened {c c' : ReadSide} (h : c.rx.Opened c'.rx) :
    c'.cursor = ⟨c'.rx.header.payloadLen, c'.rx.header.final⟩ := by
  unfold cursor
  rw [← h.remaining]
  split_ifs with h0
  · rw [h.finished h0, Bool.not_not]
  · rfl

section Fragment

variable {c : ReadSide} (h : c.Between) (hopen : c.rx.messageOpen = true)
include h hopen

theorem fragment_spec : FragmentOutcome c c.nextFrame.1 c.nextFrame.2 := by
  have hk : c.cursor = ⟨0, false⟩ := by simp [cursor, h.drained, hopen]
  have hout := nextFrame_spec h
  generalize c.nextFrame = out at hout
  obtain ⟨res, c'⟩ := out
  cases hout with
  | @data l c' pings went opened less =>
    -- Inside a message only a continuation can follow.
    have hop : c'.rx.header.opcode = .continuation ∧ c'.rx.compressed = c.rx.compressed := by
      rcases opened.starts with h | h
      · exact ⟨h.1, h.2.2⟩
      · exact absurd (hopen.symm.trans h.2.1) (by decide)
    refine .next ⟨went, ?_, opened.live, hop.2⟩ opened.remaining less
    rw [scan_append, hk, scan_pings rfl rfl l pings, cursor_opened opened]
    simp [Ews.scan, headEvent, hop.1]
  | @stop l c₁ c' e pings between stop =>
    refine .broke (.mk (k := ⟨0, false⟩) stop ?_ rfl fun hl => ?_) ⟨pings, stop⟩
    · rw [hk, scan_pings rfl rfl l pings]
    · obtain ⟨hb, same⟩ := between hl
      refine ⟨?_, same.compressed⟩
      simp [cursor, hb.drained, same.messageOpen, hopen]

end Fragment

/-- The outcomes of `Payload` and `PayloadN` inside a message : the frame is drained, a chunk
of it, or nothing for want of input. -/
inductive PayloadOutcome (c : ReadSide) (n : ℤ) : Except Err (List UInt8 × Bool) × ReadSide → Prop
  | drained (rem : c.rx.remaining = 0) : PayloadOutcome c n (.ok ([], true), c)
  | took {chunk : List UInt8} {c' : ReadSide} (nonempty : chunk ≠ []) (length : chunk.length ≤ n)
      (within : Within c (chunk.map .byte) chunk c')
      (rem : chunk.length + c'.rx.remaining = c.rx.remaining)
      (spent : chunk.length + c'.effort ≤ c.effort) (less : c'.effort < c.effort) :
      PayloadOutcome c n (.ok (chunk, decide (c'.rx.remaining = 0)), c')
  | waiting {c' : ReadSide} (within : Within c [] [] c') (rem : c'.rx.remaining = c.rx.remaining)
      (left : c'.rx.remaining ≠ 0) (starved : c.rx.dec.pending = [])
      (pending : c'.rx.dec.pending = []) :
      PayloadOutcome c n (.ok ([], false), c')

/-- A chunk of the open frame is payload of the message. -/
theorem within_took {c : ReadSide} {rx : Receiver} {n : ℤ} {chunk : List UInt8}
    (hr : c.rx.remaining ≠ 0) (took : c.rx.Took n chunk rx) :
    Within c (chunk.map .byte) chunk { c with rx := rx } where
  toWent := by
    refine .of_rx took.coupled ?_ took.events (controls_bytes chunk) ?_
    · simp [Receiver.rules, took.role, took.compression]
    · rw [took.pending, List.length_drop]
      omega
  scan := by
    have hrem := took.remaining
    rw [scan_bytes chunk c.cursor (by simp [cursor]; omega)]
    simp only [cursor, if_neg hr, Option.some.injEq, Prod.mk.injEq, Cursor.mk.injEq, true_and]
    refine ⟨by omega, ?_⟩
    split_ifs with h0
    · rw [took.finished h0, Bool.not_not]
    · rw [took.header]
  live := took.live
  compressed := took.compressed

section Payload

variable {c : ReadSide} (h : c.rx.Coupled) (hl : c.rx.dead = false)
include h hl

theorem payloadN_spec {n : ℤ} (h0 : 0 ≤ n) (hn : n = 0 → c.rx.dec.pending.length = 0) :
    PayloadOutcome c n (c.payloadN n) := by
  have hf := (Receiver.dead_eq_false.mp hl).1
  unfold payloadN
  by_cases hr : c.rx.remaining = 0
  · rw [Receiver.payloadN_drained hf hr]
    exact .drained hr
  · obtain ⟨chunk, rx, heq, took⟩ := Receiver.payloadN_spec h hl hr n
    have within := within_took hr took
    have hrem := took.remaining
    have hlen := took.length
    rw [heq]
    by_cases hc : chunk = []
    · subst hc
      have hp := Receiver.took_empty took hr (by omega)
      rw [List.length_nil, add_zero] at hrem
      have hp' : rx.dec.pending = [] := by rw [took.pending, hp]; rfl
      have hne : rx.remaining ≠ 0 := by rwa [hrem]
      rw [decide_eq_false hne]
      exact .waiting within hrem hne hp hp'
    · have hpos := List.length_pos_of_ne_nil hc
      have hspent : chunk.length + ReadSide.effort { c with rx := rx } ≤ c.effort := by
        simp only [effort, took.pending, List.length_drop]
        omega
      exact .took hc (by omega) within (by simpa [add_comm] using hrem) hspent (by omega)

theorem payload_spec : PayloadOutcome c c.rx.dec.buffered c.payload :=
  payloadN_spec h hl (Int.natCast_nonneg _) fun h0 => by
    simpa [Decoder.buffered] using h0

end Payload

/-- The outcomes of `fill` inside a frame. -/
inductive RefillOutcome (c : ReadSide) : Except Err Unit → ReadSide → Prop
  | fed {c' : ReadSide} (within : Within c [] [] c') (rem : c'.rx.remaining = c.rx.remaining)
      (less : c'.effort < c.effort) : RefillOutcome c (.ok ()) c'
  | broke {e : Err} {c' : ReadSide} (broke : Broke c [] e c') : RefillOutcome c (.error e) c'

/-- The outcomes of `readPayload` inside a frame. -/
inductive DirectOutcome (c : ReadSide) (n : ℕ) : Except Err (List UInt8) → ReadSide → Prop
  | took {chunk : List UInt8} {c' : ReadSide} (nonempty : chunk ≠ []) (length : chunk.length ≤ n)
      (within : Within c (chunk.map .byte) chunk c')
      (rem : chunk.length + c'.rx.remaining = c.rx.remaining)
      (less : c'.effort < c.effort) : DirectOutcome c n (.ok chunk) c'
  | broke {e : Err} {c' : ReadSide} (broke : Broke c [] e c') : DirectOutcome c n (.error e) c'

/-- A read fed to the receiver leaves the message where it is. -/
theorem within_read {c : ReadSide} {bs : List UInt8} {t : Transport} (hl : c.rx.dead = false)
    (went : Went c [] { c with transport := t, rx := c.rx.feed bs }) :
    Within c [] [] { c with transport := t, rx := c.rx.feed bs } where
  toWent := went
  scan := by simp [Ews.scan, cursor]
  live := by simpa using hl
  compressed := by simp

/-- What a call past the read buffer leaves in the record. -/
theorem Within.record {c c' : ReadSide} {l : List Event} {p : List UInt8} {d : DirectRead}
    (h : Within c l p c') (hd : d.pending = 0 ∧ d.got ≤ d.remaining) : Within c l p (c'.record d) where
  settings := h.settings
  coupled := h.coupled
  rules := h.rules
  input := h.input
  steady := h.steady
  calls := h.calls
  direct := fun x hx => by
    rcases List.mem_append.mp hx with hx | hx
    · exact h.direct x hx
    · exact Or.inr (List.mem_singleton.mp hx ▸ hd)
  effort := h.effort
  inMessage := h.inMessage
  readErr := h.readErr
  streaming := h.streaming
  srcErr := h.srcErr
  closes := h.closes
  scan := h.scan
  live := h.live
  compressed := h.compressed

section Waiting

variable {c : ReadSide} (h : c.rx.Coupled) (left : c.rx.remaining ≠ 0)
  (pending : c.rx.dec.pending = [])
include h left pending

/-- Waiting for payload, a connection the transport gives nothing has broken off. -/
theorem broke_waiting {e : Err} {t : Transport} (blocked : c.transport.Blocked c.rx.idle e t) :
    Broke c [] e { c with transport := t } := by
  have hl := Receiver.live_of_remaining h left
  refine .mk (.blocked (.refl h) hl (Receiver.expected_of_pending h left pending) blocked) rfl ?_
    fun _ => ⟨rfl, rfl⟩
  simp [cursor, Cursor.ended, left]

theorem refill_spec : RefillOutcome c c.fill.1 c.fill.2 := by
  have hl := Receiver.live_of_remaining h left
  have hfill := fill_spec h
  generalize c.fill = out at hfill
  obtain ⟨res, c'⟩ := out
  cases hfill with
  | fed went less => exact .fed (within_read hl went) (by simp) less
  | blocked blocked => exact .broke (broke_waiting h left pending blocked)

theorem readPayload_spec {n : ℕ} (hn : 0 < n) (hle : n ≤ c.rx.remaining) :
    DirectOutcome c n (c.readPayload n).1 (c.readPayload n).2 := by
  have hl := Receiver.live_of_remaining h left
  have hpend : c.rx.dec.buffered = 0 := by simp [Decoder.buffered, pending]
  have hread := read_spec hn c
  unfold readPayload
  generalize c.read n = out at hread
  obtain ⟨res, c'⟩ := out
  cases hread with
  | @bytes bs t nonempty length symbols weight steady =>
    have hwent := Went.of_read h symbols weight steady
    have hless := effort_of_read nonempty weight
    have hpos := List.length_pos_of_ne_nil nonempty
    have within := (within_read hl hwent).record (d := ⟨c.rx.dec.buffered, c.rx.remaining, bs.length⟩)
      ⟨hpend, show bs.length ≤ c.rx.remaining by omega⟩
    dsimp only
    generalize hc₁ : ReadSide.record { c with transport := t, rx := c.rx.feed bs }
      ⟨c.rx.dec.buffered, c.rx.remaining, bs.length⟩ = c₁ at within
    have hrx : c₁.rx = c.rx.feed bs := by rw [← hc₁]; rfl
    have hdec : c₁.rx.dec.pending = bs := by
      rw [hrx, Receiver.feed_live hl]
      simp [pending]
    have heff : c₁.effort < c.effort := by rw [← hc₁]; exact hless
    have hpay := payloadN_spec within.coupled within.live (n := bs.length)
      (Int.natCast_nonneg _) (by omega)
    generalize c₁.payloadN bs.length = out at hpay
    obtain ⟨res, c₂⟩ := out
    cases hpay with
    | drained rem => exact absurd (by simpa [hrx] using rem) left
    | waiting _ _ _ starved _ => exact absurd (hdec.symm.trans starved) nonempty
    | took nonempty' length' within' rem spent less =>
      refine .took nonempty' (by omega) (within.trans within') ?_ (less.trans heff)
      rw [rem, hrx, Receiver.feed_remaining]
  | blocked blocked =>
    have hrec := (Within.refl h hl).record (d := ⟨c.rx.dec.buffered, c.rx.remaining, 0⟩)
      ⟨hpend, Nat.zero_le _⟩
    exact .broke (.after hrec (broke_waiting hrec.coupled left pending blocked))

end Waiting

/-! ## `Read` -/

/-- The outcomes of `Read` in a plain message : a chunk, the end of the message, or a stop. -/
inductive PlainRead (c : ReadSide) (n : ℕ) : Except Err (List UInt8) × ReadSide → Prop
  | chunk {l : List Event} {p : List UInt8} {c' : ReadSide} (nonempty : p ≠ [])
      (length : p.length ≤ n) (within : Within c l p c') : PlainRead c n (.ok p, c')
  | ended {l : List Event} {c' : ReadSide} (within : Within c l [] c')
      (ended : c'.cursor.ended = true) :
      PlainRead c n (.error .eof, { c' with inMessage := false })
  | broke {e : Err} {c' : ReadSide} (broke : Broke c [] e c') : PlainRead c n (.error e, c')

theorem PlainRead.after {c c₁ : ReadSide} {n : ℕ} {l : List Event} (h : Within c l [] c₁)
    {out : Except Err (List UInt8) × ReadSide} (h' : PlainRead c₁ n out) : PlainRead c n out := by
  cases h' with
  | chunk nonempty length within => exact .chunk nonempty length (h.trans within)
  | ended within ended => exact .ended (h.trans within) ended
  | broke broke => exact .broke (.after h broke)

/-- A round of a loop : it goes on within the message, with no payload, or ends as `Q` says. -/
def Goes {ρ : Type} (c : ReadSide) (Q : ρ → Prop) : ReadSide ⊕ ρ → Prop
  | .inl c' => (∃ l, Within c l [] c') ∧ c'.effort < c.effort
  | .inr out => Q out

theorem thenFill_goes {ρ : Type} {c : ReadSide} (h : c.rx.Coupled) (left : c.rx.remaining ≠ 0)
    (pending : c.rx.dec.pending = []) {Q : ρ → Prop} {leave : Err → ReadSide → ρ}
    (hQ : ∀ {e c'}, Broke c [] e c' → Q (leave e c')) : c.Goes Q (c.thenFill leave) := by
  have hfill := refill_spec h left pending
  unfold thenFill
  generalize c.fill = out at hfill
  obtain ⟨res, c'⟩ := out
  cases hfill with
  | fed within rem less => exact ⟨⟨_, within⟩, less⟩
  | broke broke => exact hQ broke

theorem thenFrame_goes {ρ : Type} {c : ReadSide} (h : c.Between) (hopen : c.rx.messageOpen = true)
    {Q : ρ → Prop} {leave : Err → ReadSide → ρ}
    (hQ : ∀ {e c'}, Broke c [] e c' → Q (leave e c')) : c.Goes Q (c.thenFrame leave) := by
  have hframe := fragment_spec h hopen
  unfold thenFrame
  generalize c.nextFrame = out at hframe
  obtain ⟨res, c'⟩ := out
  cases hframe with
  | next within head less => exact ⟨⟨_, within⟩, less⟩
  | broke broke stalled => exact hQ broke

theorem Goes.after {ρ : Type} {c c₁ : ReadSide} {l : List Event} (h : Within c l [] c₁)
    {Q : ρ → Prop} {out : ReadSide ⊕ ρ} (h' : c₁.Goes Q out) : c.Goes Q out := by
  cases out with
  | inl c' =>
    obtain ⟨⟨l', within⟩, less⟩ := h'
    exact ⟨⟨_, h.trans within⟩, less.trans_le h.effort⟩
  | inr out => exact h'

/-- A loop of rounds that each go on within the message. -/
theorem run_goes {ρ : Type} {c : ReadSide} (h : c.rx.Coupled) (hl : c.rx.dead = false)
    {body : ReadSide → ReadSide ⊕ ρ} {stuck : ReadSide → ρ} {Q : ReadSide → ρ → Prop}
    (hQ : ∀ {l c₁ out}, Within c l [] c₁ → Q c₁ out → Q c out)
    (hbody : ∀ {c₁ : ReadSide}, c₁.rx.Coupled → c₁.rx.dead = false → c₁.Goes (Q c₁) (body c₁)) :
    Q c (Loop.run body (c.effort + 1) stuck c) := by
  refine Loop.run_spec (fun c₁ => ∃ l, Within c l [] c₁) effort ?_ ⟨[], .refl h hl⟩
    (Nat.lt_succ_self _)
  rintro c₁ ⟨l, within⟩
  have hround := hbody within.coupled within.live
  cases hb : body c₁ with
  | inl c₂ =>
    rw [hb] at hround
    obtain ⟨⟨l', within'⟩, less⟩ := hround
    exact ⟨⟨_, within.trans within'⟩, less⟩
  | inr out =>
    rw [hb] at hround
    exact hQ within hround

section Plain

variable {c : ReadSide} (h : c.rx.Coupled) (hl : c.rx.dead = false)
include h hl

theorem readRound_goes {n : ℕ} (hn : 0 < n) : c.Goes (PlainRead c n) (readRound n c) := by
  have hpay := payloadN_spec h hl (n := n) (Int.natCast_nonneg _) (by omega)
  unfold readRound
  generalize c.payloadN n = out at hpay
  obtain ⟨res, c₁⟩ := out
  cases hpay with
  | took nonempty length within rem spent less =>
    simp only [if_pos nonempty]
    exact .chunk nonempty (by omega) within
  | waiting within rem left starved pending =>
    simp only [ne_eq, not_true_eq_false, if_false, Bool.not_false, if_true]
    split_ifs with hbig
    · have hsize := c₁.settings.bufSize_pos
      have hdirect := readPayload_spec within.coupled left pending (n := min n c₁.rx.remaining)
        (by omega) (by omega)
      unfold readDirect
      generalize c₁.readPayload (min n c₁.rx.remaining) = out at hdirect
      obtain ⟨res, c₂⟩ := out
      cases hdirect with
      | took nonempty length within' rem' less =>
        exact .chunk nonempty (by omega) (within.trans within')
      | broke broke => exact .broke (.after within broke)
    · exact Goes.after within (thenFill_goes within.coupled left pending fun broke =>
        .broke (.after within broke))
  | drained rem =>
    simp only [ne_eq, not_true_eq_false, if_false, Bool.not_true, Bool.false_eq_true,
      Bool.not_eq_true']
    split_ifs with hopen
    · exact .ended (.refl h hl) (cursor_ended.mpr ⟨rem, hopen⟩)
    · exact thenFrame_goes ⟨h, hl, rem⟩ (by simpa using hopen) .broke

/-- `Read` in a plain message. -/
theorem readPlain_spec {n : ℕ} (hn : 0 < n) : PlainRead c n (readPlain n c) :=
  run_goes (Q := fun c => PlainRead c n) h hl (fun within => .after within) fun h hl =>
    readRound_goes h hl hn

end Plain

/-! ## `nextChunk` -/

/-- The outcomes of `nextChunk` : a chunk, the end of the message, or a stop. -/
inductive ChunkRead (c : ReadSide) : Except Err (List UInt8) × ReadSide → Prop
  | chunk {l : List Event} {p : List UInt8} {c' : ReadSide} (nonempty : p ≠ [])
      (within : Within c l p c') (spent : p.length + c'.effort ≤ c.effort) :
      ChunkRead c (.ok p, c')
  | ended {l : List Event} {c' : ReadSide} (within : Within c l [] c')
      (ended : c'.cursor.ended = true) : ChunkRead c (.error .eof, c')
  | broke {e : Err} {c' : ReadSide} (broke : Broke c [] e c') : ChunkRead c (.error e, c')

theorem ChunkRead.after {c c₁ : ReadSide} {l : List Event} (h : Within c l [] c₁)
    {out : Except Err (List UInt8) × ReadSide} (h' : ChunkRead c₁ out) : ChunkRead c out := by
  cases h' with
  | chunk nonempty within spent => exact .chunk nonempty (h.trans within) (spent.trans h.effort)
  | ended within ended => exact .ended (h.trans within) ended
  | broke broke => exact .broke (.after h broke)

section Chunk

variable {c : ReadSide} (h : c.rx.Coupled) (hl : c.rx.dead = false)
include h hl

theorem nextChunkRound_goes : c.Goes (ChunkRead c) (nextChunkRound c) := by
  have hpay := payload_spec h hl
  unfold nextChunkRound
  generalize c.payload = out at hpay
  obtain ⟨res, c₁⟩ := out
  cases hpay with
  | took nonempty length within rem spent less =>
    simp only [if_pos nonempty]
    exact .chunk nonempty within spent
  | waiting within rem left starved pending =>
    simp only [ne_eq, not_true_eq_false, if_false, Bool.not_false, if_true]
    exact Goes.after within (thenFill_goes within.coupled left pending fun broke =>
      .broke (.after within broke))
  | drained rem =>
    simp only [ne_eq, not_true_eq_false, if_false, Bool.not_true, Bool.false_eq_true,
      Bool.not_eq_true']
    split_ifs with hopen
    · exact .ended (.refl h hl) (cursor_ended.mpr ⟨rem, hopen⟩)
    · exact thenFrame_goes ⟨h, hl, rem⟩ (by simpa using hopen) .broke

theorem nextChunk_spec : ChunkRead c c.nextChunk :=
  run_goes (Q := ChunkRead) h hl (fun within => .after within) fun h hl => nextChunkRound_goes h hl

end Chunk

/-! ## `discard` -/

/-- The outcomes of the loop that drains a plain message. -/
inductive Skipped (c : ReadSide) : Except Err Unit × ReadSide → Prop
  | ended {l : List Event} {p : List UInt8} {c' : ReadSide} (within : Within c l p c')
      (ended : c'.cursor.ended = true) : Skipped c (.ok (), { c' with inMessage := false })
  | broke {p : List UInt8} {e : Err} {c' : ReadSide} (broke : Broke c p e c') :
      Skipped c (.error e, c')

/-- A round that goes on within the message, perhaps past payload. -/
def Moves {ρ : Type} (c : ReadSide) (Q : ρ → Prop) : ReadSide ⊕ ρ → Prop
  | .inl c' => (∃ l p, Within c l p c') ∧ c'.effort < c.effort
  | .inr out => Q out

theorem Goes.moves {ρ : Type} {c c₁ : ReadSide} {l : List Event} {p : List UInt8}
    (h : Within c l p c₁) {Q : ρ → Prop} {out : ReadSide ⊕ ρ} (h' : c₁.Goes Q out) :
    c.Moves Q out := by
  cases out with
  | inl c' =>
    obtain ⟨⟨l', within⟩, less⟩ := h'
    exact ⟨⟨_, _, h.trans within⟩, less.trans_le h.effort⟩
  | inr out => exact h'

theorem Skipped.after {c c₁ : ReadSide} {l : List Event} {p : List UInt8} (h : Within c l p c₁)
    {out : Except Err Unit × ReadSide} (h' : Skipped c₁ out) : Skipped c out := by
  cases h' with
  | ended within ended => exact .ended (h.trans within) ended
  | broke broke => exact .broke (.after h broke)

section Skip

variable {c : ReadSide} (h : c.rx.Coupled) (hl : c.rx.dead = false)
include h hl

/-- The frame is drained : the message ends or goes on. -/
theorem skip_drained {c₁ : ReadSide} {l : List Event} {p : List UInt8} (within : Within c l p c₁)
    (rem : c₁.rx.remaining = 0) : c.Moves (Skipped c)
      (if !c₁.rx.messageOpen then .inr (.ok (), { c₁ with inMessage := false })
        else c₁.thenFrame fun e c => (.error e, c)) := by
  simp only [Bool.not_eq_true']
  split_ifs with hopen
  · exact .ended within (cursor_ended.mpr ⟨rem, hopen⟩)
  · exact Goes.moves within (thenFrame_goes ⟨within.coupled, within.live, rem⟩
      (by simpa using hopen) fun broke => .broke (.after within broke))

theorem skipRound_spec (hin : c.inMessage = true) : c.Moves (Skipped c) (skipRound c) := by
  have hpay := payload_spec h hl
  unfold skipRound
  rw [hin]
  generalize c.payload = out at hpay
  obtain ⟨res, c₁⟩ := out
  simp only [Bool.not_true, Bool.false_eq_true, if_false]
  cases hpay with
  | took nonempty length within rem spent less =>
    by_cases h0 : c₁.rx.remaining = 0
    · simp only [h0, decide_true, Bool.not_true, Bool.false_eq_true, if_false]
      exact skip_drained h hl within h0
    · simp only [h0, decide_false, Bool.not_false, if_true, if_neg nonempty]
      exact ⟨⟨_, _, within⟩, less⟩
  | waiting within rem left starved pending =>
    simp only [Bool.not_false, if_true]
    exact Goes.moves within (thenFill_goes within.coupled left pending fun broke =>
      .broke (.after within broke))
  | drained rem => exact skip_drained h hl (.refl h hl) rem

/-- The loop that ends `discard`, inside a message. -/
theorem skip_spec (hin : c.inMessage = true) : Skipped c c.skip := by
  refine Loop.run_spec (fun c₁ => ∃ l p, Within c l p c₁) effort ?_ ⟨[], [], .refl h hl⟩
    (Nat.lt_succ_self _)
  rintro c₁ ⟨l, p, within⟩
  have hround := skipRound_spec within.coupled within.live (within.inMessage.trans hin)
  cases hb : skipRound c₁ with
  | inl c₂ =>
    rw [hb] at hround
    obtain ⟨⟨l', p', within'⟩, less⟩ := hround
    exact ⟨⟨_, _, within.trans within'⟩, less⟩
  | inr out =>
    rw [hb] at hround
    exact .after within hround

end Skip

end ReadSide

end Ews
