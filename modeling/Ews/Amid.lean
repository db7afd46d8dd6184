import Ews.Conn
import Ews.Passage

/-!
# Inside a message that the stream completes

`Amid s₀ m ms p s` says where a calm reader stands that left `s₀` between two messages :
inside the message `m`, with the part `p` of its wire payload behind it and the messages `ms`
after it. Nothing can stop such a reader, so every loop of the reading side ends as it
should (`Amid.plain`, `Amid.relay`, `Amid.assemble`, `Amid.skip`), and `chunkSource` gives the
decompressor the rest of the payload (`Amid.gives`).
-/

set_option linter.unusedSectionVars false

namespace Ews

namespace ReadSide

/-- Inside the message `m` with `p` of its payload behind the reader, and `ms` to follow. -/
structure Amid (s₀ : ReadSide) (m : WireMessage) (ms : List WireMessage) (p : List UInt8)
    (s : ReadSide) : Prop where
  inMessage : s.inMessage = true
  fine : s.readErr = none
  coupled : s.rx.Coupled
  live : s.rx.dead = false
  compressed : s.rx.compressed = m.compressed
  calm : Calm s s.cursor.place
  emit : emit { m with payload := p } s.cursor s.todo = m :: ms
  passed : ∃ l, Passed s₀ l s ∧ stand none l = s.cursor.place

section Amid

variable {s₀ s s' : ReadSide} {m : WireMessage} {ms : List WireMessage} {p q : List UInt8}

theorem Amid.within (h : Amid s₀ m ms p s) {l : List Event} (within : Within s l q s') :
    Amid s₀ m ms (p ++ q) s' where
  inMessage := within.inMessage.trans h.inMessage
  fine := within.readErr.trans h.fine
  coupled := within.coupled
  live := within.live
  compressed := within.compressed.trans h.compressed
  calm := within.calm h.calm
  emit := (within.emit _).symm.trans h.emit
  passed := by
    obtain ⟨l₀, passed, place⟩ := h.passed
    exact ⟨l₀ ++ l, passed.trans within.toWent.passed, by
      rw [stand_append, place, stand_scan _ within.scan]⟩

/-- The flag that does not matter to the stream. -/
theorem Amid.flag (h : Amid s₀ m ms p s) (streaming : Bool) :
    Amid s₀ m ms p { s with streaming := streaming } where
  inMessage := h.inMessage
  fine := h.fine
  coupled := h.coupled
  live := h.live
  compressed := h.compressed
  calm := ⟨h.calm.steady, h.calm.handler, h.calm.clear⟩
  emit := h.emit
  passed := by
    obtain ⟨l, passed, place⟩ := h.passed
    exact ⟨l, ⟨passed.settings, passed.rules, passed.input, passed.steady, passed.calls,
      passed.direct, passed.closes⟩, place⟩

theorem Amid.prefix_payload (h : Amid s₀ m ms p s) : p <+: m.payload :=
  (emit_cons _ h.emit).2.2.1

theorem Amid.not_broke (h : Amid s₀ m ms p s) {e : Err} : ¬Broke s q e s' := fun broke =>
  absurd (h.emit.symm.trans (broke.emit_eq_nil h.calm _)) (by simp)

/-- At the end of the message. -/
theorem Amid.ended (h : Amid s₀ m ms p s) (hk : s.cursor.ended = true) :
    p = m.payload ∧ messages s.todo = ms ∧ ∃ l, Passed s₀ l s ∧ stand none l = none := by
  have hemit := h.emit
  rw [emit_ended hk] at hemit
  obtain ⟨hm, hms⟩ := List.cons.inj hemit
  obtain ⟨l, passed, place⟩ := h.passed
  refine ⟨?_, hms, l, passed, place.trans (Cursor.place_of_ended hk)⟩
  rw [← hm]

/-! ## The loops -/

/-- `Read` in a plain message : the next bytes, or the end. -/
theorem Amid.plain (h : Amid s₀ m ms p s) {n : ℕ} (hn : 0 < n) :
    (∃ q s', s.readPlain n = (.ok q, s') ∧ q ≠ [] ∧ Amid s₀ m ms (p ++ q) s') ∨
      ∃ s', s.readPlain n = (.error .eof, { s' with inMessage := false }) ∧
        Amid s₀ m ms p s' ∧ s'.cursor.ended = true := by
  have hread := readPlain_spec h.coupled h.live hn
  generalize s.readPlain n = out at hread
  cases hread with
  | chunk nonempty length within => exact Or.inl ⟨_, _, rfl, nonempty, h.within within⟩
  | ended within ended =>
    exact Or.inr ⟨_, rfl, by simpa using h.within within, ended⟩
  | broke broke => exact (h.not_broke broke).elim

/-- `WriteTo` in a plain message : the writer has the rest, or refused some of it. -/
theorem Amid.relay (h : Amid s₀ m ms p s) (w : Writer) (held : Bool) :
    (∃ q s' held', s.relay w held = (none, ⟨q.length, { w with written := w.written ++ q },
        { s' with inMessage := false }, held'⟩) ∧ Amid s₀ m ms (p ++ q) s' ∧
        s'.cursor.ended = true) ∨
      ∃ e r q, s.relay w held = (some e, r) ∧ Amid s₀ m ms (p ++ q) r.conn ∧ ¬w.AcceptsAll := by
  have hrelay := relay_spec h.coupled h.live w held
  generalize s.relay w held = out at hrelay
  cases hrelay with
  | @ended l q r relaying ended =>
    have hw : r.writer = { w with written := w.written ++ q } := by
      have h1 := relaying.written
      have h2 := relaying.accept
      obtain ⟨total, ⟨written, accept⟩, conn, held⟩ := r
      simp only at h1 h2
      rw [h1, h2]
    have htotal : r.total = q.length := relaying.total.trans (Nat.zero_add _)
    refine Or.inl ⟨q, r.conn, r.held, ?_, h.within relaying.within, ended⟩
    rw [← hw, ← htotal]
  | refused within faulty => exact Or.inr ⟨_, _, _, rfl, h.within within, faulty⟩
  | broke relaying broke => exact ((h.within relaying.within).not_broke broke).elim

/-- `assemble` gives a message within the limit. -/
theorem Amid.assemble (h : Amid s₀ m ms [] s) (head : s.rx.remaining = s.rx.header.payloadLen)
    (limit : m.payload.length ≤ s.settings.limit) (held : Bool) :
    ∃ msg s', s.assemble held = (.ok m.payload, msg, s') ∧
      Amid s₀ m ms m.payload s' ∧ s'.cursor.ended = true ∧ s'.effort ≤ s.effort := by
  have hass := assemble_spec h.coupled h.live head held
  generalize s.assemble held = out at hass
  cases hass with
  | whole within ended length =>
    have hamid := h.within within
    obtain ⟨hp, -, -⟩ := hamid.ended ended
    rw [List.nil_append] at hp hamid
    exact ⟨_, _, by rw [hp], hp ▸ hamid, ended, within.effort⟩
  | tooLarge within headed length hover =>
    have hlen := (emit_cons _ (h.within within).emit).2.2.2
    simp only [List.nil_append] at hlen
    omega
  | broke within length broke stalled => exact ((h.within within).not_broke broke).elim

/-- The loop that ends `discard`. -/
theorem Amid.skip (h : Amid s₀ m ms p s) : ∃ s', s.skip = (.ok (), { s' with inMessage := false }) ∧
    Amid s₀ m ms m.payload s' ∧ s'.cursor.ended = true ∧ s'.streaming = s.streaming := by
  have hskip := skip_spec h.coupled h.live h.inMessage
  generalize s.skip = out at hskip
  cases hskip with
  | ended within ended =>
    have hamid := h.within within
    exact ⟨_, rfl, (hamid.ended ended).1 ▸ hamid, ended, within.streaming⟩
  | broke broke => exact (h.not_broke broke).elim

/-! ## The source of the decompressor -/

/-- `NextChunk` : some of the payload, or the end. -/
theorem Amid.next (h : Amid s₀ m ms p s) :
    (∃ q s', chunkSource.next s = (.ok q, s') ∧ q ≠ [] ∧ q.length + s'.effort ≤ s.effort ∧
        Amid s₀ m ms (p ++ q) s' ∧ s'.streaming = s.streaming) ∨
      ∃ s', chunkSource.next s = (.error .eof, s') ∧ Amid s₀ m ms p s' ∧
        s'.cursor.ended = true ∧ s'.streaming = s.streaming := by
  have hnext := nextChunk_spec h.coupled h.live
  simp only [chunkSource]
  generalize s.nextChunk = out at hnext
  cases hnext with
  | chunk nonempty within spent =>
    exact Or.inl ⟨_, _, rfl, nonempty, spent, h.within within, within.streaming⟩
  | ended within ended =>
    exact Or.inr ⟨_, by simp, by simpa using h.within within, ended, by simpa using within.streaming⟩
  | broke broke => exact (h.not_broke broke).elim

/-- Whatever the decompressor draws, the reader stays inside the message. -/
theorem Amid.next_keeps {b : Bool} (h : (∃ p, Amid s₀ m ms p s) ∧ s.streaming = b) :
    (∃ p, Amid s₀ m ms p (chunkSource.next s).2) ∧ (chunkSource.next s).2.streaming = b := by
  obtain ⟨⟨p, h⟩, hb⟩ := h
  rcases h.next with ⟨q, s', heq, -, -, hamid, hs⟩ | ⟨s', heq, hamid, -, hs⟩
  · rw [heq]
    exact ⟨⟨p ++ q, hamid⟩, hs.trans hb⟩
  · rw [heq]
    exact ⟨⟨p, hamid⟩, hs.trans hb⟩

/-- The source gives the rest of the payload and ends at the end of the message. -/
theorem Amid.gives (n : ℕ) : ∀ {s : ReadSide} {p q : List UInt8}, s.effort = n →
    Amid s₀ m ms p s → m.payload = p ++ q →
      chunkSource.Gives (fun s => Amid s₀ m ms m.payload s ∧ s.cursor.ended = true) q s := by
  induction n using Nat.strong_induction_on with
  | _ n ih =>
    intro s p q hn h hq
    rcases h.next with ⟨c, s', heq, hc, spent, hamid, -⟩ | ⟨s', heq, hamid, ended, -⟩
    · have hpos := List.length_pos_of_ne_nil hc
      obtain ⟨rest, hrest⟩ := hamid.prefix_payload
      have hq' : q = c ++ rest := by
        rw [hq, List.append_assoc] at hrest
        exact (List.append_cancel_left hrest).symm
      rw [hq']
      exact .chunk heq spent (fun h0 => absurd h0 hc) (ih s'.effort (by omega) rfl hamid hrest.symm)
    · obtain ⟨hp, -, -⟩ := hamid.ended ended
      have hq' : q = [] := by
        rw [hp] at hq
        exact List.self_eq_append_right.mp hq
      rw [hq']
      exact .eof heq ⟨hp ▸ hamid, ended⟩

end Amid

end ReadSide

end Ews
