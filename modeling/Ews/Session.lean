import Ews.Faults
import Ews.Voice

/-!
# From the operations to the peer

A connection that any number of goroutines write to, with a queue or without one, and the peer that
reads what comes of it. The ledger of a run (`Shared.ledger`) is made from the operations alone : a
message for each that sends one or completes one, a call for each control frame, and nothing for an
operation that is refused.

`session_delivers` says that the peer is told the ledger, however the steps interleave, however the
transport cuts the bytes, and whether or not messages are compressed. Without a queue it is told
in the very order ; with one, pings and pongs may go ahead of messages that wait (`Overtakes`), and
nothing else changes places.
-/

set_option linter.unusedSectionVars false

namespace Ews

open Bytes ReadSide

/-! ## The account of the operations -/

namespace Ledger

/-- What a close is to the peer. -/
def closing (code : UInt16) (reason : List UInt8) : ControlEvent :=
  if code = 0 then .close noStatus [] else .close code.toNat reason

/-- An operation that was not refused. -/
def note (l : Ledger) (o : Op) : Ledger :=
  if l.ending ≠ .ended then l
  else
    match o with
    | .write op p => l.add op p true
    | .send op p => l.add op p true
    | .writePrepared p => l.add p.op p.payload true
    | .sendPrepared p => l.add p.op p.payload true
    | .beginMessage op => { l with draft := some (op, []) }
    | .fragment p final => l.add .continuation p final
    | .ping p => l.call (.ping p)
    | .pong p => l.call (.pong p)
    | .close code reason => l.call (closing code reason)
    | .sendClose code => l.call (closing code [])

theorem note_ended {l : Ledger} (h : l.ending ≠ .ended) (o : Op) : l.note o = l :=
  if_pos h

theorem note_whole {l : Ledger} (h : l.ending = .ended) {o : Op} {op : Opcode} {p : List UInt8}
    (whole : o.whole = some (op, p)) : l.note o = l.add op p true := by
  unfold note
  rw [if_neg (not_not.mpr h)]
  cases o <;> cases whole <;> rfl

theorem ofFrame_closing (code : UInt16) (reason : List UInt8) :
    ControlEvent.ofFrame .close (Sender.closePayload code reason) = some (closing code reason) := by
  have hclose : ∀ p, ControlEvent.ofFrame .close p =
      some (.close (parseClose p).1 (parseClose p).2) := fun p => rfl
  rw [hclose, closing, Sender.closePayload]
  split_ifs with h0
  · rfl
  · have hlen : ¬(beBytes 2 code.toNat ++ reason).length < 2 := by
      rw [List.length_append, length_beBytes]
      omega
    have hcode : code.toNat % 256 ^ 2 = code.toNat := Nat.mod_eq_of_lt code.toNat_lt
    rw [parseClose, if_neg hlen, List.take_left' (length_beBytes _ _),
      List.drop_left' (length_beBytes _ _), beNat_beBytes, hcode]

theorem note_control {l : Ledger} (h : l.ending = .ended) {o : Op} {op : Opcode} {p : List UInt8}
    (control : o.control = some (op, p)) :
    ∃ ev, ControlEvent.ofFrame op p = some ev ∧ l.note o = l.call ev := by
  unfold note
  rw [if_neg (not_not.mpr h)]
  cases o with
  | ping p => cases control; exact ⟨_, rfl, rfl⟩
  | pong p => cases control; exact ⟨_, rfl, rfl⟩
  | close code reason => cases control; exact ⟨_, ofFrame_closing code reason, rfl⟩
  | sendClose code => cases control; exact ⟨_, ofFrame_closing code [], rfl⟩
  | _ => cases control

end Ledger

/-! ## Control frames that go ahead -/

/-- A ping or a pong goes ahead of a message that was sent before it. -/
inductive Overtakes : List Callback → List Callback → Prop
  | mk (before after : List Callback) (op : Opcode) (text : List UInt8) {ev : ControlEvent}
      (mild : Ledger.endingOf ev = .ended) :
      Overtakes (before ++ .message op text :: .control ev :: after)
        (before ++ .control ev :: .message op text :: after)

theorem Overtakes.append {a b : List Callback} (h : Overtakes a b) (c : List Callback) :
    Overtakes (a ++ c) (b ++ c) := by
  obtain ⟨before, after, op, text, mild⟩ := h
  simp only [List.append_assoc, List.cons_append]
  exact .mk before (after ++ c) op text mild

/-- The messages stay in their order. -/
theorem Overtakes.messages {a b : List Callback} (h : Overtakes a b) :
    b.filter Callback.isMessage = a.filter Callback.isMessage := by
  obtain @⟨before, after, op, text, ev, mild⟩ := h
  have hmessage : Callback.isMessage (.message op text) = true := rfl
  have hcontrol : Callback.isMessage (.control ev) = false := rfl
  simp [hmessage, hcontrol]

/-- A control frame that goes ahead of several messages overtakes them one by one. -/
theorem overtakes_ahead {ev : ControlEvent} (mild : Ledger.endingOf ev = .ended) :
    ∀ (ms told : List Callback), (∀ m ∈ ms, m.isMessage = true) →
      Relation.ReflTransGen Overtakes (told ++ ms ++ [.control ev]) (told ++ [.control ev] ++ ms)
  | [], told, _ => by
    rw [List.append_nil, List.append_nil]
  | m :: ms, told, h => by
    have hrest := overtakes_ahead mild ms (told ++ [m]) fun m' hm => h m' (List.mem_cons_of_mem _ hm)
    have hm := h m List.mem_cons_self
    cases m with
    | control ev' => cases hm
    | message op text =>
      rw [List.append_assoc told, List.singleton_append] at hrest
      refine hrest.tail ?_
      simp only [List.append_assoc, List.singleton_append]
      exact .mk told ms op text mild

namespace Ledger

/-- Data frames lead to messages, and what was told before does not matter to them. -/
theorem hears_data : ∀ (is : List Item) (draft : Option (Opcode × List UInt8)),
    (∀ i ∈ is, i.frame.opcode.isControl = false) →
      ∃ ms draft', (∀ m ∈ ms, Callback.isMessage m = true) ∧ ∀ told,
        is.foldl hear ⟨told, draft, .ended⟩ = ⟨told ++ ms, draft', .ended⟩
  | [], draft, _ => ⟨[], draft, by simp, by simp⟩
  | i :: is, draft, h => by
    have hi := h i List.mem_cons_self
    have hrest := fun draft => hears_data is draft fun j hj => h j (List.mem_cons_of_mem _ hj)
    have hhear : ∀ told, hear ⟨told, draft, .ended⟩ i =
        add ⟨told, draft, .ended⟩ i.frame.opcode i.text i.frame.final := fun told => hear_data rfl hi
    generalize hm : draft.getD (i.frame.opcode, []) = m at hhear
    cases hf : i.frame.final with
    | true =>
      obtain ⟨ms, draft', hms, hall⟩ := hrest none
      refine ⟨.message m.1 (m.2 ++ i.text) :: ms, draft', ?_, fun told => ?_⟩
      · simpa [Callback.isMessage] using hms
      · rw [List.foldl_cons, hhear, hf, add]
        simp only [hm, if_true]
        rw [hall, List.append_assoc, List.singleton_append]
    | false =>
      obtain ⟨ms, draft', hms, hall⟩ := hrest (some (m.1, m.2 ++ i.text))
      refine ⟨ms, draft', hms, fun told => ?_⟩
      rw [List.foldl_cons, hhear, hf, add]
      simp only [hm, Bool.false_eq_true, if_false]
      exact hall told

/-- A control frame other than a close that goes ahead of data is told earlier, and that is all. -/
theorem hears_ahead {k : Ledger} (hend : k.ending = .ended) {i : Item} {ev : ControlEvent}
    (hi : i.frame.opcode.isControl = true)
    (hev : ControlEvent.ofFrame i.frame.opcode i.frame.payload = some ev)
    (mild : endingOf ev = .ended) {is : List Item}
    (hdata : ∀ j ∈ is, j.frame.opcode.isControl = false) :
    let late := (is.foldl hear k).hear i
    let early := is.foldl hear (k.hear i)
    early.draft = late.draft ∧ early.ending = late.ending ∧
      Relation.ReflTransGen Overtakes late.told early.told := by
  obtain ⟨told, draft, ending⟩ := k
  obtain rfl : ending = .ended := hend
  obtain ⟨ms, draft', hms, hall⟩ := hears_data is draft hdata
  rw [hall, hear_control rfl hi hev, hear_control rfl hi hev]
  have hcall : call ⟨told, draft, .ended⟩ ev = ⟨told ++ [.control ev], draft, .ended⟩ := by
    rw [call, mild]
  rw [hcall, hall, call, mild]
  exact ⟨rfl, rfl, overtakes_ahead mild ms told hms⟩

end Ledger

namespace Ledger

theorem not_close {op : Opcode} (h : op.isControl = false) : (op == .close) = false := by
  rw [beq_eq_false_iff_ne]
  rintro rfl
  cases h

/-- Only a close ends an account. -/
theorem ended_iff {op : Opcode} {p : List UInt8} {ev : ControlEvent} (h : op.isControl = true)
    (hev : ControlEvent.ofFrame op p = some ev) : endingOf ev = .ended ↔ op ≠ .close := by
  obtain ⟨ev', hev', hclose⟩ := ofFrame_control h p
  cases hev.symm.trans hev'
  rw [ne_eq, hclose]
  cases ev <;> simp [endingOf]

/-- The account of the frames keeps track of the message that is not complete. -/
theorem hear_wrote {D : Deflater} {reach : ℕ} {takeover : Bool} {k : Ledger} {σ σ' : Spoken} {i : Item}
    (hend : k.ending = .ended) (hdraft : k.draft = σ.draft.map fun d => (d.op, d.text))
    (wrote : Wrote D reach takeover σ i σ') :
    (k.hear i).ending = .ended ∧ (k.hear i).draft = σ'.draft.map fun d => (d.op, d.text) := by
  obtain ⟨takes, data, -⟩ := wrote
  rw [hear_data hend data, add, hdraft, takes.getD]
  cases i.frame.final with
  | true => exact ⟨hend, rfl⟩
  | false => exact ⟨hend, by simp [Spoken.after, Draft.add, Draft.text]⟩

end Ledger

/-! ## The account of a run -/

namespace Shared

variable {D : Deflater} {reach : ℕ} {takeover : Bool} {s s' : Shared} {a : Act} {l : Ledger}

/-- The account after a step that is taken. An operation that is refused, and a `sendClose` that sends
nothing, leave no trace. -/
def note (D : Deflater) (s : Shared) (l : Ledger) : Act → Ledger
  | .start o =>
    match (s.conn.start D (fun n => s.queue.bind (·.reserve n)) o).1, o with
    | .error _, _ => l
    | .ok none, .sendClose _ => l
    | .ok _, o => l.note o
  | _ => l

/-- The account of a run. -/
def ledger (D : Deflater) : Shared → Ledger → List Act → Ledger
  | _, l, [] => l
  | s, l, a :: acts => ((s.step D a).map fun s' => s'.ledger D (s.note D l a) acts).getD l

/-- Nobody closes a connection that has a queue, or gives a queue to one that is closed. -/
def civil (s : Shared) : Act → Bool
  | .newQueue _ => !s.conn.tx.closeSent
  | .start o => s.queue.isNone || o.sends
  | _ => true

/-- The write side once the holder of `wmu` is done. -/
def rested (s : Shared) : WriteSide :=
  match s.wmu with
  | some h => s.conn.finish h.out.after none
  | none => s.conn

/-- The account of the frames. -/
def heard (s : Shared) : Ledger :=
  s.order.foldl Ledger.hear {}

theorem rested_free (h : s.wmu = none) : s.rested = s.conn := by
  simp [rested, h]

theorem rested_held {g : Held} (h : s.wmu = some g) :
    s.rested = s.conn.finish g.out.after none := by
  simp [rested, h]

/-- Only the start of an operation changes where the connection will rest. -/
theorem rested_step (hs : Smooth s) (hstep : Step D s a s') (hact : ∀ o, a ≠ .start o) :
    s'.rested = s.rested := by
  cases hstep with
  | idle => exact absurd rfl (hact _)
  | encode => exact absurd rfl (hact _)
  | refuse _ queue _ err => cases (hs.queue _ queue).symm.trans err
  | join wmu => rw [rested_held wmu, rested_free rfl]
  | lock wmu => rw [rested_held wmu, rested_held rfl]
  | write wmu => rw [rested_held wmu, rested_held rfl]
  | unlock wmu iomu =>
    have herr := hs.bursts _ (by rw [bursts_held iomu]; exact List.mem_append_right _ List.mem_cons_self)
    rw [rested_held wmu, rested_free rfl, herr]
  | _ => rfl

/-- The frames encoded for the queue are added to by operations only. -/
theorem encoded_step (hstep : Step D s a s') (hact : ∀ o, a ≠ .start o) : s'.encoded = s.encoded := by
  cases hstep with
  | idle => rfl
  | encode => exact absurd rfl (hact _)
  | _ => rfl

/-- A step keeps the queue, but for `NewQueue`. -/
theorem queue_step (hstep : Step D s a s') :
    s'.queue.isSome = true → s.queue.isSome = true ∨ ∃ limit, a = .newQueue limit := by
  cases hstep with
  | attach => exact fun _ => Or.inr ⟨_, rfl⟩
  | adjust => exact fun _ => Or.inr ⟨_, rfl⟩
  | refuse _ queue => exact fun _ => Or.inl (by rw [queue]; rfl)
  | join _ queue => exact fun _ => Or.inl (by rw [queue]; rfl)
  | exit _ queue => exact fun _ => Or.inl (by rw [queue]; rfl)
  | take _ queue => exact fun _ => Or.inl (by rw [queue]; rfl)
  | settle _ queue => exact fun _ => Or.inl (by rw [queue]; rfl)
  | fail _ queue => exact fun _ => Or.inl (by rw [queue]; rfl)
  | _ => exact Or.inl

/-- The account of the frames agrees with the account of the operations, and the peer can follow. -/
structure Tally (D : Deflater) (reach : ℕ) (takeover : Bool) (s : Shared) (l : Ledger) : Prop where
  speech : ∃ σ, Speech D reach takeover {} s.order σ ∧ (s.conn.tx.closeSent = false →
    s.rested.Abreast reach takeover σ ∧ s.heard.draft = σ.draft.map fun d => (d.op, d.text))
  ending : s.heard.ending = l.ending
  closed : l.ending = .ended ↔ s.conn.tx.closeSent = false
  draft : s.conn.tx.closeSent = false → l.draft =
    if s.rested.frag.op = 0 then none else some (s.rested.frag.op, (s.heard.draft.map Prod.snd).getD [])
  told : Relation.ReflTransGen Overtakes l.told s.heard.told
  same : s.queue = none → s.heard.told = l.told
  data : ∀ i ∈ s.encoded, i.frame.opcode.isControl = false
  unclosed : s.queue.isSome = true → s.conn.tx.closeSent = false

/-- The queue holds no control frames. -/
theorem Tally.backlog (h : Tally D reach takeover s l) (hgood : Good s) (hs : Smooth s) :
    ∀ i ∈ s.backlog, i.frame.opcode.isControl = false := by
  intro i hi
  refine h.data i ?_
  rw [hs.encoded, hs.enqueued_eq hgood]
  simp [hi]

/-- A step that changes at most the order in which frames are heard. -/
theorem Tally.congr (h : Tally D reach takeover s l)
    (speech : ∀ σ, Speech D reach takeover {} s.order σ → Speech D reach takeover {} s'.order σ)
    (draft : s'.heard.draft = s.heard.draft) (ending : s'.heard.ending = s.heard.ending)
    (told : Relation.ReflTransGen Overtakes s.heard.told s'.heard.told)
    (same : s'.queue = none → s.queue = none ∧ s'.heard.told = s.heard.told)
    (closeSent : s'.conn.tx.closeSent = s.conn.tx.closeSent) (rested : s'.rested = s.rested)
    (encoded : s'.encoded = s.encoded)
    (unclosed : s'.queue.isSome = true → s.conn.tx.closeSent = false) :
    Tally D reach takeover s' l where
  speech := by
    obtain ⟨σ, hspeech, habreast⟩ := h.speech
    refine ⟨σ, speech σ hspeech, ?_⟩
    rw [closeSent, rested, draft]
    exact habreast
  ending := ending.trans h.ending
  closed := by
    rw [closeSent]
    exact h.closed
  draft := by
    rw [closeSent, rested, draft]
    exact h.draft
  told := h.told.trans told
  same hq := (same hq).2.trans (h.same (same hq).1)
  data := by
    rw [encoded]
    exact h.data
  unclosed hq := closeSent.trans (unclosed hq)

/-- A frame that goes ahead of the queue is a control frame, and no close. -/
theorem Tally.ahead (h : Tally D reach takeover s l) (hgood : Good s) (hs : Smooth s) {g : Held}
    {before : List Item} (wmu : s.wmu = some g) (queued : g.queued = false)
    (hq : s.queue.isSome = true) (old : s.order = before ++ s.backlog ++ [g.out.item])
    (order : s'.order = before ++ [g.out.item] ++ s.backlog) :
    (∀ σ, Speech D reach takeover {} s.order σ → Speech D reach takeover {} s'.order σ) ∧
      s'.heard.draft = s.heard.draft ∧ s'.heard.ending = s.heard.ending ∧
      Relation.ReflTransGen Overtakes s.heard.told s'.heard.told := by
  have hctl := (hgood.direct g wmu queued hq).opcode
  obtain ⟨ev, hev, -⟩ := ofFrame_control hctl g.out.item.frame.payload
  have hended : s.heard.ending = .ended := h.ending.trans (h.closed.mpr (h.unclosed hq))
  have hold : s.heard = ((s.backlog.foldl Ledger.hear (before.foldl Ledger.hear {})).hear g.out.item) := by
    rw [heard, old, List.foldl_append, List.foldl_append]
    rfl
  have hnew : s'.heard = s.backlog.foldl Ledger.hear ((before.foldl Ledger.hear {}).hear g.out.item) := by
    rw [heard, order, List.foldl_append, List.foldl_append]
    rfl
  have hmid : (s.backlog.foldl Ledger.hear (before.foldl Ledger.hear {})).ending = .ended := by
    by_contra hne
    rw [hold, Ledger.hear_ended hne] at hended
    exact hne hended
  have hfirst : (before.foldl Ledger.hear {}).ending = .ended := by
    by_contra hne
    rw [Ledger.hears_ended hne] at hmid
    exact hne hmid
  have hmild : Ledger.endingOf ev = .ended := by
    rw [hold, Ledger.hear_control hmid hctl hev] at hended
    exact hended
  refine ⟨fun σ hspeech => ?_, ?_⟩
  · rw [old] at hspeech
    rw [order]
    exact hspeech.ahead hctl
  · rw [hnew, hold]
    exact Ledger.hears_ahead hfirst hctl hev hmild (h.backlog hgood hs)

/-- Steps other than the start of an operation leave the account as it is. -/
theorem Tally.step_other (h : Tally D reach takeover s l) (hgood : Good s) (hs : Smooth s)
    (hcivil : s.civil a = true) (hstep : Step D s a s') (hact : ∀ o, a ≠ .start o) :
    Tally D reach takeover s' l := by
  have hrested := rested_step hs hstep hact
  have hencoded := encoded_step hstep hact
  have hunclosed : s'.queue.isSome = true → s.conn.tx.closeSent = false := fun hq => by
    rcases queue_step hstep hq with hq | ⟨limit, rfl⟩
    · exact h.unclosed hq
    · simpa [civil] using hcivil
  have hqueue : s'.queue = none → s.queue = none := by
    cases hstep with
    | idle => exact absurd rfl (hact _)
    | encode => exact absurd rfl (hact _)
    | lock => exact id
    | write => exact id
    | unlock => exact id
    | lockFlush _ queue => exact fun h => by cases queue.symm.trans h
    | flush => exact id
    | unlockFlush => exact id
    | _ => exact fun h => by cases h
  have hsame : s'.order = s.order → s'.conn.tx.closeSent = s.conn.tx.closeSent →
      Tally D reach takeover s' l := fun order closeSent => by
    have hheard : s'.heard = s.heard := by rw [heard, heard, order]
    refine h.congr (fun σ hσ => ?_) ?_ ?_ ?_ ?_ closeSent hrested hencoded hunclosed
    · rw [order]
      exact hσ
    all_goals rw [hheard]
    · exact fun hq => ⟨hqueue hq, rfl⟩
  cases step_order hs hgood hstep with
  | encode act => exact absurd act (hact _)
  | same order closeSent => exact hsame order closeSent
  | @ahead g before wmu queued calls old order closeSent =>
    cases hq : s.queue with
    | none =>
      -- Nothing waits, so nothing is overtaken.
      refine hsame ?_ closeSent
      rw [order, old, hgood.backlog_bare hq, List.append_nil, List.append_nil]
    | some q =>
      have hsome : s.queue.isSome = true := by rw [hq]; rfl
      obtain ⟨hspeech, hdraft, hending, htold⟩ := h.ahead hgood hs wmu queued hsome old order
      refine h.congr hspeech hdraft hending htold (fun hnone => ?_) closeSent hrested hencoded hunclosed
      cases hq.symm.trans (hqueue hnone)

/-! ## Operations -/

/-- The frame of an operation is the last of the order. -/
theorem order_encode (wmu : s.wmu = none) (c : WriteSide) (out : Outgoing) (queued : Bool)
    (encoded : List Item) :
    order { s with conn := c, wmu := some { out := out, queued := queued }, encoded := encoded } =
      s.order ++ [out.item] := by
  rw [order, order, pending_free wmu, pending_held rfl rfl, List.append_nil]
  rfl

theorem heard_encode (wmu : s.wmu = none) (c : WriteSide) (out : Outgoing) (queued : Bool)
    (encoded : List Item) :
    heard { s with conn := c, wmu := some { out := out, queued := queued }, encoded := encoded } =
      s.heard.hear out.item := by
  rw [heard, order_encode wmu, List.foldl_append]
  rfl

section Note

variable {o : Op} {c : WriteSide}

theorem note_refused {e : Err}
    (start : s.conn.start D (fun n => s.queue.bind (·.reserve n)) o = (.error e, c)) :
    s.note D l (.start o) = l := by
  simp [note, start]

theorem note_frame {out : Outgoing}
    (start : s.conn.start D (fun n => s.queue.bind (·.reserve n)) o = (.ok (some out), c)) :
    s.note D l (.start o) = l.note o := by
  cases o <;> simp [note, start]

end Note

/-- After a close the account stays as it is. -/
theorem Tally.step_closed (h : Tally D reach takeover s l) (hgood : Good s)
    (hclosed : s.conn.tx.closeSent = true) {o : Op} (hstep : Step D s (.start o) s') :
    Tally D reach takeover s' (s.note D l (.start o)) := by
  have hended : l.ending ≠ .ended := fun he => by cases (h.closed.mp he).symm.trans hclosed
  have hnote : s.note D l (.start o) = l := by
    have hno := Ledger.note_ended hended o
    cases hstart : s.conn.start D (fun n => s.queue.bind (·.reserve n)) o with
    | mk r c =>
      rcases r with e | ⟨_ | out⟩
      · exact note_refused hstart
      · cases o <;> simp [note, hstart, hno]
      · rw [note_frame hstart, hno]
  have hheard : s.heard.ending ≠ .ended := fun he => hended (h.ending.symm.trans he)
  have hbare : s.queue.isSome = false := by
    by_contra hq
    cases (h.unclosed (Bool.not_eq_false _ ▸ hq)).symm.trans hclosed
  obtain ⟨σ, hspeech, -⟩ := h.speech
  rw [hnote]
  cases hstep with
  | @idle _ r c wmu start silent =>
    have hsent := (closeSent_idle hgood.sound start silent).trans hclosed
    refine ⟨⟨σ, hspeech, fun h0 => ?_⟩, h.ending, ?_, fun h0 => ?_, h.told, h.same, h.data,
      fun hq => ?_⟩
    · cases hsent.symm.trans h0
    · exact ⟨fun he => absurd he hended, fun h0 => by cases hsent.symm.trans h0⟩
    · cases hsent.symm.trans h0
    · cases hbare.symm.trans hq
  | @encode _ out c wmu start =>
    have hspec := WriteSide.start_spec hgood.sound D (fun n => s.queue.bind (·.reserve n)) o
    rw [start] at hspec
    cases hspec with
    | frame encodes =>
      have hpong : out.item.frame.opcode.isControl = true := by
        rw [encodes.closing hclosed]
        rfl
      have hsent : c.tx.closeSent = true := by rw [encodes.closeSent, hclosed, Bool.true_or]
      have hsame := Ledger.hear_ended hheard out.item
      refine ⟨⟨σ, ?_, fun h0 => ?_⟩, ?_, ?_, fun h0 => ?_, ?_, ?_, ?_, fun hq => ?_⟩
      · rw [order_encode wmu]
        exact hspeech.append (.control hpong .nil)
      · cases hsent.symm.trans h0
      · rw [heard_encode wmu, hsame]
        exact h.ending
      · exact ⟨fun he => absurd he hended, fun h0 => by cases hsent.symm.trans h0⟩
      · cases hsent.symm.trans h0
      · rw [heard_encode wmu, hsame]
        exact h.told
      · rw [heard_encode wmu, hsame]
        exact h.same
      · simp only [hbare, Bool.and_false, Bool.false_eq_true, if_false]
        exact h.data
      · cases hbare.symm.trans hq

/-- An operation has encoded a frame that says what the account says of it. -/
theorem Tally.encode (h : Tally D reach takeover s l) (wmu : s.wmu = none) {o : Op} {out : Outgoing}
    {c : WriteSide} {σ σ' : Spoken} {l' : Ledger} (old : Speech D reach takeover {} s.order σ)
    (new : Speech D reach takeover σ [out.item] σ')
    (abreast : (c.finish out.after none).Abreast reach takeover σ')
    (tracks : (s.heard.hear out.item).draft = σ'.draft.map fun d => (d.op, d.text))
    (ending : (s.heard.hear out.item).ending = l'.ending)
    (closed : l'.ending = .ended ↔ c.tx.closeSent = false)
    (draft : c.tx.closeSent = false → l'.draft = if (c.finish out.after none).frag.op = 0 then none
      else some ((c.finish out.after none).frag.op,
        ((s.heard.hear out.item).draft.map Prod.snd).getD []))
    (told : ∃ cbs, (s.heard.hear out.item).told = s.heard.told ++ cbs ∧ l'.told = l.told ++ cbs)
    (data : (o.joins && s.queue.isSome) = true → out.item.frame.opcode.isControl = false)
    (unclosed : s.queue.isSome = true → c.tx.closeSent = false) :
    Tally D reach takeover { s with
      conn := c, wmu := some { out := out, queued := o.joins && s.queue.isSome },
      encoded := if o.joins && s.queue.isSome then s.encoded ++ [out.item] else s.encoded } l' := by
  obtain ⟨cbs, hheard, hl⟩ := told
  refine ⟨⟨σ', ?_, fun _ => ⟨abreast, ?_⟩⟩, ?_, closed, fun hc => ?_, ?_, fun hq => ?_, ?_, unclosed⟩
  · rw [order_encode wmu]
    exact old.append new
  · rw [heard_encode wmu]
    exact tracks
  · rw [heard_encode wmu]
    exact ending
  · rw [heard_encode wmu]
    exact draft hc
  · rw [heard_encode wmu, hheard, hl]
    exact h.told.lift (· ++ cbs) fun _ _ h => h.append cbs
  · rw [heard_encode wmu, hheard, hl, h.same hq]
  · intro i hi
    dsimp only at hi
    split_ifs at hi with hq
    · rcases List.mem_append.mp hi with hi | hi
      · exact h.data i hi
      · rw [List.mem_singleton.mp hi]
        exact data hq
    · exact h.data i hi

section Open

variable (h : Tally D reach takeover s l) (hopen : s.conn.tx.closeSent = false)
  (hlt : s.conn.comp.changes < 2 ^ 64) (wmu : s.wmu = none) {o : Op} {c : WriteSide}
include h hopen hlt wmu

/-- An operation that encodes nothing. -/
theorem Tally.idle (hsent : c.tx.closeSent = false) {r : Except Err (Option Outgoing)}
    (start : s.conn.start D (fun n => s.queue.bind (·.reserve n)) o = (r, c))
    (silent : ∀ out, r ≠ .ok (some out)) :
    Tally D reach takeover { s with conn := c } (s.note D l (.start o)) := by
  obtain ⟨σ, hspeech, habreast⟩ := h.speech
  obtain ⟨habreast, htracks⟩ := habreast hopen
  have hdraft := h.draft hopen
  have hl : l.ending = .ended := h.closed.mpr hopen
  rw [rested_free wmu] at habreast hdraft
  have hrested : rested { s with conn := c } = c := rested_free wmu
  -- What does not depend on the outcome.
  have hkeep : ∀ l' : Ledger, l'.told = l.told → l'.ending = l.ending → c.Abreast reach takeover σ →
      (l'.draft = if c.frag.op = 0 then none
        else some (c.frag.op, (s.heard.draft.map Prod.snd).getD [])) →
      Tally D reach takeover { s with conn := c } l' := fun l' htold hending hc hd =>
    ⟨⟨σ, hspeech, fun _ => ⟨hrested.symm ▸ hc, htracks⟩⟩, h.ending.trans hending.symm,
      ⟨fun _ => hsent, fun _ => hending.trans hl⟩, fun _ => by rw [hrested]; exact hd,
      htold.symm ▸ h.told, fun hq => (h.same hq).trans htold.symm, h.data, fun _ => hsent⟩
  have hvoices := WriteSide.start_voices (D := D) habreast hopen hlt
    (fun n => s.queue.bind (·.reserve n)) o
  rw [start] at hvoices
  cases hvoices with
  | refused abreast frag =>
    rw [note_refused start]
    exact hkeep l rfl rfl abreast (by rw [frag]; exact hdraft)
  | @dropped code _ abreast frag =>
    have hnote : s.note D l (.start (.sendClose code)) = l := by simp [note, start]
    rw [hnote]
    exact hkeep l rfl rfl abreast (by rw [frag]; exact hdraft)
  | @begun op _ abreast was op_eq op_ne =>
    have hnote : s.note D l (.start (.beginMessage op)) = { l with draft := some (op, []) } := by
      simp [note, start, Ledger.note, hl]
    have hnone : s.heard.draft = none := by rw [htracks, (habreast.idle was).1]; rfl
    rw [hnote]
    refine hkeep _ rfl rfl abreast ?_
    rw [op_eq, if_neg op_ne, hnone]
    rfl
  | message => exact absurd rfl (silent _)
  | chunk => exact absurd rfl (silent _)
  | control => exact absurd rfl (silent _)

/-- An operation that encodes a frame. -/
theorem Tally.frame (hgood : Good s) (hcivil : s.civil (.start o) = true) {out : Outgoing}
    (start : s.conn.start D (fun n => s.queue.bind (·.reserve n)) o = (.ok (some out), c)) :
    Tally D reach takeover { s with
      conn := c, wmu := some { out := out, queued := o.joins && s.queue.isSome },
      encoded := if o.joins && s.queue.isSome then s.encoded ++ [out.item] else s.encoded }
      (s.note D l (.start o)) := by
  obtain ⟨σ, hspeech, habreast⟩ := h.speech
  obtain ⟨habreast, htracks⟩ := habreast hopen
  have hdraft := h.draft hopen
  have hl : l.ending = .ended := h.closed.mpr hopen
  have hended : s.heard.ending = .ended := h.ending.trans hl
  rw [rested_free wmu] at habreast hdraft
  have hvoices := WriteSide.start_voices (D := D) habreast hopen hlt
    (fun n => s.queue.bind (·.reserve n)) o
  have hspec := WriteSide.start_spec hgood.sound D (fun n => s.queue.bind (·.reserve n)) o
  rw [start] at hvoices hspec
  rw [note_frame start]
  have hclose : c.tx.closeSent = (out.item.frame.opcode == .close) := by
    cases hspec with
    | frame encodes => rw [encodes.closeSent, hopen, Bool.false_or]
  cases hvoices with
  | @message _ op p _ _ σ' whole was wrote abreast frag opcode final text =>
    have hnone : s.heard.draft = none := by rw [htracks, (habreast.idle was).1]; rfl
    have hlnone : l.draft = none := by rw [hdraft, if_pos was]
    have data := wrote.data
    have hopen' : c.tx.closeSent = false := hclose.trans (Ledger.not_close data)
    have hadd : s.heard.hear out.item = s.heard.add op p true := by
      rw [Ledger.hear_data hended data, opcode, final, text]
    obtain ⟨hending, htrack⟩ := Ledger.hear_wrote hended htracks wrote
    rw [Ledger.note_whole hl whole]
    refine h.encode wmu hspeech (.data wrote .nil) abreast htrack (hending.trans hl.symm)
      ⟨fun _ => hopen', fun _ => hl⟩ (fun _ => ?_) ⟨[.message op p], ?_, ?_⟩ (fun _ => data)
      fun _ => hopen'
    · rw [if_pos frag]
      rfl
    · rw [hadd]
      simp [Ledger.add, hnone]
    · simp [Ledger.add, hlnone]
  | @chunk p final _ _ σ' was wrote abreast frag opcode last text =>
    have hm : s.heard.draft.getD (s.conn.fragmentOp, []) =
        (s.conn.frag.op, (s.heard.draft.map Prod.snd).getD []) := by
      rw [htracks]
      cases habreast.stands with
      | idle frag => exact absurd frag was
      | begun _ first draft => simp [draft, WriteSide.fragmentOp, first]
      | amid _ _ draft op => simp [draft, op]
    have hlm : l.draft.getD (.continuation, []) =
        (s.conn.frag.op, (s.heard.draft.map Prod.snd).getD []) := by
      rw [hdraft, if_neg was]
      rfl
    have data := wrote.data
    have hopen' : c.tx.closeSent = false := hclose.trans (Ledger.not_close data)
    have hadd : s.heard.hear out.item = s.heard.add s.conn.fragmentOp p final := by
      rw [Ledger.hear_data hended data, opcode, last, text]
    have hnote : l.note (.fragment p final) = l.add .continuation p final := by
      simp [Ledger.note, hl]
    obtain ⟨hending, htrack⟩ := Ledger.hear_wrote hended htracks wrote
    rw [hnote]
    cases final with
    | true =>
      refine h.encode wmu hspeech (.data wrote .nil) abreast htrack (hending.trans hl.symm)
        ⟨fun _ => hopen', fun _ => hl⟩ (fun _ => ?_)
        ⟨[.message s.conn.frag.op ((s.heard.draft.map Prod.snd).getD [] ++ p)], ?_, ?_⟩
        (fun _ => data) fun _ => hopen'
      · rw [frag]
        rfl
      · rw [hadd, Ledger.add, hm]
        rfl
      · rw [Ledger.add, hlm]
        rfl
    | false =>
      refine h.encode wmu hspeech (.data wrote .nil) abreast htrack (hending.trans hl.symm)
        ⟨fun _ => hopen', fun _ => hl⟩ (fun _ => ?_) ⟨[], ?_, ?_⟩ (fun _ => data) fun _ => hopen'
      · rw [frag, if_neg Bool.false_ne_true, if_neg was, hadd, Ledger.add, Ledger.add, hm, hlm]
        rfl
      · rw [hadd, Ledger.add, List.append_nil]
        rfl
      · rw [Ledger.add, List.append_nil]
        rfl
  | @control _ op p _ _ control isControl abreast frag opcode payload =>
    obtain ⟨ev, hev, hnote⟩ := Ledger.note_control hl control
    have hctl : out.item.frame.opcode.isControl = true := opcode.symm ▸ isControl
    have hcall : s.heard.hear out.item = s.heard.call ev :=
      Ledger.hear_control hended hctl (by rw [opcode, payload]; exact hev)
    have hending : Ledger.endingOf ev = .ended ↔ c.tx.closeSent = false := by
      rw [hclose, opcode, beq_eq_false_iff_ne]
      exact Ledger.ended_iff isControl hev
    have hfits : s.queue.isSome = true → o.sends = true := fun hq => by
      simpa [civil, Option.isNone_eq_false_iff.mpr hq] using hcivil
    have hmild : o.sends = true → o.joins = false ∧ op ≠ .close := fun hsends => by
      cases o with
      | ping => cases control; exact ⟨rfl, by decide⟩
      | pong => cases control; exact ⟨rfl, by decide⟩
      | close => cases hsends
      | sendClose => cases hsends
      | _ => cases control
    rw [hnote]
    refine h.encode wmu hspeech (.control hctl .nil) abreast ?_ ?_ hending (fun _ => ?_)
      ⟨[.control ev], ?_, rfl⟩ (fun hq => ?_) fun hq => ?_
    · rw [hcall]
      exact htracks
    · rw [hcall]
      rfl
    · rw [frag, hcall]
      exact hdraft
    · rw [hcall]
      rfl
    · obtain ⟨hjoins, hq⟩ := Bool.and_eq_true_iff.mp hq
      cases (hmild (hfits hq)).1.symm.trans hjoins
    · rw [hclose, opcode]
      exact beq_eq_false_iff_ne.mpr (hmild (hfits hq)).2

end Open

/-- Every step keeps the account. -/
theorem Tally.step (h : Tally D reach takeover s l) (hgood : Good s) (hs : Smooth s)
    (hpaced : Paced s) (hcount : s.packed < 2 ^ 64) (hcivil : s.civil a = true) (hstep : Step D s a s') :
    Tally D reach takeover s' (s.note D l a) := by
  cases a with
  | start o =>
    cases hc : s.conn.tx.closeSent with
    | true => exact h.step_closed hgood hc hstep
    | false =>
      have hlt := (hpaced hc).trans_lt hcount
      cases hstep with
      | idle wmu start silent =>
        exact h.idle hc hlt wmu ((closeSent_idle hgood.sound start silent).trans hc) start silent
      | encode wmu start => exact h.frame hc hlt wmu hgood hcivil start
  | _ => exact h.step_other hgood hs hcivil hstep fun o ho => by cases ho

/-- Every run keeps the account, as long as the generation of the window does not come round. -/
theorem Tally.run : ∀ (acts : List Act) {s : Shared} {l : Ledger}, Good s → Smooth s → Paced s →
    Tally D reach takeover s l → (∀ a ∈ acts, a.calm = true) → along D civil s acts = true →
    s.run D acts = some s' → s'.packed < 2 ^ 64 →
    Good s' ∧ Smooth s' ∧ Tally D reach takeover s' (s.ledger D l acts)
  | [], s, l, hgood, hs, _, h, _, _, hrun, _ => by
    cases hrun
    exact ⟨hgood, hs, h⟩
  | a :: acts, s, l, hgood, hs, hpaced, h, hcalm, hcivil, hrun, hcount => by
    have hlt := (packed_run hgood hs hcalm hrun).trans_lt hcount
    simp only [along, Bool.and_eq_true] at hcivil
    cases ht : s.step D a with
    | none => simp [Shared.run, ht] at hrun
    | some t =>
      have hstep := step_cases ht
      rw [ledger, ht, Option.map_some, Option.getD_some]
      exact Tally.run acts (hgood.step hstep) (hs.step hgood (hcalm a List.mem_cons_self) hstep)
        (hpaced.step hgood hs hstep) (h.step hgood hs hpaced hlt hcivil.1 hstep)
        (fun b hb => hcalm b (List.mem_cons_of_mem _ hb)) (by simpa [ht] using hcivil.2)
        (by simpa [Shared.run, ht] using hrun) hcount

end Shared

/-! ## Two ends that fit -/

namespace Config

/-- How far back the encoders of a connection can look. -/
def reach (cfg : Config) : ℕ :=
  (cfg.compression.map fun comp => (EncoderKind.ofConfig comp).window).getD 0

/-- The send direction takes its history over. -/
def takesOver (cfg : Config) : Bool :=
  cfg.compression.any fun comp => comp.sendContextTakeover

/-- How far back a receiver remembers. -/
def lookback (comp : Compression) : ℕ :=
  if comp.receiveContextTakeover then Window.size { bits := comp.receiveWindowBits } else windowSize

/-- The receiver of one end fits the sender of the other : it takes the other role, it expects compression
if the other compresses, and it remembers what the other looks back to. -/
structure Suits (cfg peer : Config) : Prop where
  role : peer.role = cfg.role.peer
  compression : peer.compression.isSome = cfg.compression.isSome
  takeover : ∀ a b, cfg.compression = some a → peer.compression = some b →
    a.sendContextTakeover = true → b.receiveContextTakeover = true
  lookback : ∀ a b, cfg.compression = some a → peer.compression = some b →
    (EncoderKind.ofConfig a).window ≤ lookback b

end Config

/-- A new connection has said nothing. -/
theorem WriteSide.abreast_ofConfig {cfg : Config} {vectored : Bool} {keys : ℕ → MaskKey}
    {pool : (kind : EncoderKind) → ℕ → Option { c : Compressor // c.Idle kind }} {c : WriteSide}
    (hc : WriteSide.ofConfig cfg vectored keys pool = .ok c) :
    c.Abreast cfg.reach cfg.takesOver {} ∧ c.tx.closeSent = false ∧ c.frag.op = 0 ∧
      c.peerRules = ⟨cfg.role.peer, cfg.compression.isSome⟩ := by
  have hsound := Shared.sound_ofConfig hc
  unfold WriteSide.ofConfig at hc
  split_ifs at hc with hvalid
  cases hcomp : cfg.compression with
  | none =>
    rw [hcomp] at hc
    cases hc
    refine ⟨⟨hsound, fun _ => rfl, fun h => (by cases h), .idle rfl rfl fun _ h => (by cases h)⟩, rfl,
      rfl, ?_⟩
    simp [WriteSide.peerRules]
  | some comp =>
    have hreach : cfg.reach = (EncoderKind.ofConfig comp).window := by simp [Config.reach, hcomp]
    have htakes : cfg.takesOver = comp.sendContextTakeover := by simp [Config.takesOver, hcomp]
    rw [hcomp] at hc
    cases hc
    refine ⟨⟨hsound, fun _ => rfl, fun _ => ?_, .idle rfl rfl fun _ h => by cases h⟩, rfl, rfl, ?_⟩
    · have hbits : validBits comp.sendWindowBits = true := by
        simp only [Config.valid, hcomp, Option.all_some, Bool.and_eq_true] at hvalid
        exact hvalid.2.1.2
      rw [hreach, htakes]
      cases htake : comp.sendContextTakeover with
      | false =>
        have hwindow : Config.window comp.sendContextTakeover comp.sendWindowBits = none := by
          simp [Config.window, htake]
        refine .alone rfl hwindow (fun c h => by cases h) ?_
        rintro comp' ⟨⟩
        rfl
      | true =>
        have hwindow : Config.window comp.sendContextTakeover comp.sendWindowBits =
            some { bits := comp.sendWindowBits } := by simp [Config.window, htake]
        refine .window rfl (Shared.window_ofConfig hbits).symm
          ⟨hwindow, rfl, Nat.zero_le _, rfl, fun _ h => (by cases h), fun _ h => (by cases h), ?_⟩
        rintro comp' ⟨⟩
        exact Shared.window_ofConfig hbits
    · simp [WriteSide.peerRules]

end Ews
