import Ews.Delivery

/-!
# What a queue holds

The bytes of the frames that `Send` has accepted and that are not written, in the queue or in the
batch that is being flushed, in any interleaving of `Send` with the steps of the writer.

`reserve` compares the limit with what is queued only : the writer takes the queue's count to zero
with the batch, long before the batch is written. A slow write therefore makes room for a second
queue behind the first (`unwritten_twice`). What holds is that each of the two keeps within the
limit and the header of its last frame (`unwritten_le`), since a batch is a queue that was taken.
-/

set_option linter.unusedSectionVars false

namespace Ews

/-- The bytes of frames. -/
def bytesOf (items : List Item) : ℕ :=
  (items.flatMap fun i => i.frame.bytes).length

@[simp] theorem bytesOf_nil : bytesOf [] = 0 := rfl

@[simp] theorem bytesOf_append (items items' : List Item) :
    bytesOf (items ++ items') = bytesOf items + bytesOf items' := by
  rw [bytesOf, List.flatMap_append, List.length_append]
  rfl

theorem bytesOf_singleton (i : Item) : bytesOf [i] = i.frame.bytes.length := by
  simp [bytesOf]

/-- The header of the last frame. -/
def lastHeader (items : List Item) : ℕ :=
  (items.getLast?.map fun i => i.frame.header.length).getD 0

/-- The frames keep within the limit, but for the header of the last. -/
def Fits (limit : ℕ) (items : List Item) : Prop :=
  bytesOf items ≤ limit + lastHeader items

theorem fits_nil (limit : ℕ) : Fits limit [] :=
  Nat.zero_le _

theorem Frame.length_header_le (f : Frame) : f.header.length ≤ maxHeaderSize := by
  have hkey : f.keyBytes.length ≤ 4 := by
    unfold Frame.keyBytes
    cases f.key <;> simp [MaskKey.bytes]
  have hext : extSize f.payload.length ≤ 8 := by
    unfold extSize
    split_ifs <;> omega
  rw [Frame.header, List.length_cons, List.length_cons, List.length_append,
    Bytes.length_beBytes, maxHeaderSize]
  omega

theorem lastHeader_le (items : List Item) : lastHeader items ≤ maxHeaderSize := by
  unfold lastHeader
  cases items.getLast? with
  | none => exact Nat.zero_le _
  | some i => exact i.frame.length_header_le

/-- The frames of a batch that is taken and not written. -/
def Writer.unwritten : Writer → List Item
  | .taken batch => batch
  | .flushing batch _ => batch
  | _ => []

/-- `encodeData` does not compress the payload. -/
def WriteSide.sendsPlain (c : WriteSide) (payload : List UInt8) : Bool :=
  c.comp.config.isNone || decide ((payload.length : ℤ) < c.comp.minSize)

namespace Shared

/-- The batch that is being flushed. -/
def inFlush (s : Shared) : List Item :=
  s.writers.flatMap Writer.unwritten

/-- The bytes that are accepted and not written. -/
def unwritten (s : Shared) : ℕ :=
  bytesOf s.inFlush + bytesOf s.waiting

/-- The step is one of a `Send` of a message that is not compressed, with a frame up to the limit,
or of the writer. -/
def sends (limit : ℕ) (s : Shared) : Act → Bool
  | .start (.send op payload) =>
    s.conn.sendsPlain payload &&
      decide ((s.conn.tx.frame op true payload false).bytes.length ≤ limit)
  | .enqueue => true
  | .take _ => true
  | .lockFlush _ => true
  | .flush _ _ => true
  | .unlockFlush _ => true
  | .account _ => true
  | _ => false

variable {D : Deflater} {s s' : Shared} {a : Act} {limit : ℕ}

/-- A `Send` that is not refused : the queue has room by its own count, and the frame carries the
payload as it is. -/
theorem start_send {op : Opcode} {payload : Slice} {out : Outgoing} {c : WriteSide}
    (h : s.conn.start D (fun n => s.queue.bind (·.reserve n)) (.send op payload) =
      (.ok (some out), c)) (plain : s.conn.sendsPlain payload = true) :
    s.queue.bind (·.reserve payload.val.length) = none ∧
      out.item.frame = s.conn.tx.frame op true payload false := by
  have hdata : s.conn.encodeData D op payload = s.conn.encodePlain op payload := by
    unfold WriteSide.encodeData
    cases hcomp : s.conn.comp.config with
    | none => rfl
    | some comp =>
      simp only [WriteSide.sendsPlain, hcomp, Option.isNone_some, Bool.false_or,
        decide_eq_true_eq] at plain
      dsimp only
      rw [if_pos plain]
  simp only [WriteSide.start, WriteSide.write, hdata] at h
  split_ifs at h
  · cases h
  · cases h
  · cases hreserve : s.queue.bind (·.reserve payload.val.length) with
    | some e =>
      rw [hreserve] at h
      cases h
    | none =>
      rw [hreserve] at h
      refine ⟨rfl, ?_⟩
      simp only [WriteSide.encodePlain, WriteSide.framed] at h
      cases henc : s.conn.tx.encode op payload with
      | mk r tx =>
        rw [henc] at h
        cases r with
        | error e => cases h
        | ok out' =>
          cases h
          rfl

theorem length_frame (f : Frame) : f.bytes.length = f.header.length + f.payload.length := by
  rw [Frame.bytes, List.length_append, Frame.length_body]

/-- The queue's own count and limit. -/
def Counted (limit : ℕ) (s : Shared) : Prop :=
  ∃ q, s.queue = some q ∧ q.limit = limit ∧ (q.err = none → q.size = bytesOf s.waiting)

/-- The invariant of such a run. `held` is what the frame that is about to join finds queued. -/
structure Bounded (limit : ℕ) (s : Shared) : Prop where
  good : Good s
  queue : Counted limit s
  held : ∀ g, s.wmu = some g →
    bytesOf s.waiting + bytesOf [g.out.item] ≤ limit + g.out.item.frame.header.length
  queued : Fits limit s.waiting
  flushed : Fits limit s.inFlush

/-- A step of the writer that leaves the queue alone. -/
theorem Bounded.less (h : Bounded limit s) (good : Good s') (queue : Counted limit s')
    (waiting : s'.waiting = s.waiting) (held : ∀ g, s'.wmu = some g → s.wmu = some g)
    (flushed : s'.inFlush = s.inFlush ∨ s'.inFlush = []) : Bounded limit s' := by
  refine ⟨good, queue, fun g hg => ?_, waiting ▸ h.queued, ?_⟩
  · rw [waiting]
    exact h.held g (held g hg)
  · rcases flushed with heq | heq
    · exact heq ▸ h.flushed
    · exact heq ▸ fits_nil limit

/-- A step of the writer `w`, which becomes `w'` : the batch before and after. -/
theorem Good.inFlush_set (h : Good s) {i : ℕ} {w : Writer} (hw : s.writers[i]? = some w)
    (w' : Writer) : s.inFlush = w.unwritten ∧
      (s.writers.set i w').flatMap Writer.unwritten = w'.unwritten := by
  obtain ⟨rfl, q, busy⟩ := h.busy hw
  rw [inFlush, busy.writers]
  simp

/-- A frame that `Send` encodes has room in the queue. -/
theorem Bounded.encode (h : Bounded limit s) {op : Opcode} {payload : Slice} {out : Outgoing}
    {c : WriteSide}
    (start : s.conn.start D (fun n => s.queue.bind (·.reserve n)) (.send op payload) =
      (.ok (some out), c)) (hsends : s.sends limit (.start (.send op payload)) = true) :
    bytesOf s.waiting + bytesOf [out.item] ≤ limit + out.item.frame.header.length := by
  obtain ⟨q, hq, hlimit, hsize⟩ := h.queue
  simp only [sends, Bool.and_eq_true, decide_eq_true_eq] at hsends
  obtain ⟨hplain, hfits⟩ := hsends
  obtain ⟨hreserve, hframe⟩ := start_send start hplain
  have hpayload : out.item.frame.payload = payload.val := by rw [hframe]; rfl
  have hlen := length_frame out.item.frame
  rw [hpayload] at hlen
  rw [← hframe] at hfits
  rw [bytesOf_singleton]
  rw [hq, Option.bind_some, Queue.reserve] at hreserve
  cases herr : q.err with
  | some e =>
    rw [herr] at hreserve
    cases hreserve
  | none =>
    rw [herr] at hreserve
    dsimp only at hreserve
    split_ifs at hreserve with hfull
    have hcount := hsize herr
    omega

/-- The frame joins the queue, with or without a new writer. -/
theorem Bounded.join (h : Bounded limit s) {g : Held} {q : Queue} (wmu : s.wmu = some g)
    (queue : s.queue = some q) (err : q.err = none) (good : Good s')
    (queue' : s'.queue = some (q.enqueue g.out).2) (wmu' : s'.wmu = none)
    (writers : s'.writers = s.writers ∨ s'.writers = s.writers ++ [.ready])
    (waiting : s'.waiting = s.waiting ++ [g.out.item]) : Bounded limit s' := by
  obtain ⟨q₀, hq, hlimit, hsize⟩ := h.queue
  cases hq.symm.trans queue
  have hbytes : g.out.bytes.length = bytesOf [g.out.item] := by
    rw [h.good.held g wmu, bytesOf_singleton]
  have hflush : s'.inFlush = s.inFlush := by
    rw [inFlush, inFlush]
    rcases writers with heq | heq <;> rw [heq]
    simp [Writer.unwritten]
  refine ⟨good, ⟨_, queue', ?_, fun _ => ?_⟩, fun g' hg => ?_, ?_, hflush ▸ h.flushed⟩
  · simp only [Queue.enqueue, err, Queue.store]
    cases g.out.ext <;> exact hlimit
  · simp only [Queue.enqueue, err]
    rw [hsize err, waiting, bytesOf_append, hbytes]
    push_cast
    ring
  · cases wmu'.symm.trans hg
  · have hheld := h.held g wmu
    rw [waiting, Fits, bytesOf_append, lastHeader, List.getLast?_concat]
    exact hheld

theorem Bounded.step (h : Bounded limit s) (hsends : s.sends limit a = true)
    (hstep : Step D s a s') : Bounded limit s' := by
  have good := h.good.step hstep
  obtain ⟨q₀, hq, hlimit, hsize⟩ := h.queue
  cases hstep with
  | attach => cases hsends
  | adjust => cases hsends
  | idle wmu => exact h.less good h.queue rfl (fun g hg => hg) (Or.inl rfl)
  | @encode o out c wmu start =>
    cases o with
    | send op payload =>
      refine ⟨good, h.queue, fun g hg => ?_, h.queued, h.flushed⟩
      cases hg
      exact h.encode start hsends
    | _ => cases hsends
  | refuse wmu queue =>
    cases hq.symm.trans queue
    exact h.less good ⟨q₀, rfl, hlimit, hsize⟩ rfl (fun g hg => by cases hg) (Or.inl rfl)
  | join wmu queue queued err =>
    refine h.join wmu queue err good rfl rfl ?_ rfl
    dsimp only
    split_ifs
    · exact Or.inl rfl
    · exact Or.inr rfl
  | lock => cases hsends
  | write => cases hsends
  | unlock => cases hsends
  | exit writer queue =>
    cases hq.symm.trans queue
    obtain ⟨rfl, q, busy⟩ := h.good.busy writer
    refine h.less good ⟨_, rfl, hlimit, hsize⟩ rfl (fun g hg => hg) (Or.inr ?_)
    simp [inFlush, busy.writers]
  | take writer queue take =>
    cases hq.symm.trans queue
    obtain ⟨-, hnew⟩ := h.good.inFlush_set writer (.taken s.waiting)
    obtain ⟨-, rfl⟩ := Queue.take_some take
    refine ⟨good, ⟨_, rfl, hlimit, fun _ => rfl⟩, fun g hg => ?_, fits_nil limit, ?_⟩
    · have hheld := h.held g hg
      rw [bytesOf_nil]
      omega
    · -- The batch is the queue that was taken.
      rw [inFlush, hnew]
      exact h.queued
  | @lockFlush i batch q writer queue iomu =>
    obtain ⟨hold, hnew⟩ :=
      h.good.inFlush_set writer (.flushing batch (q.flushCalls s.conn.vectored))
    exact h.less good h.queue rfl (fun g hg => hg) (Or.inl (hnew.trans hold.symm))
  | @flush i batch b calls burst fault writer iomu =>
    obtain ⟨hold, hnew⟩ := h.good.inFlush_set writer (.flushing batch (Ews.left calls fault))
    exact h.less good h.queue rfl (fun g hg => hg) (Or.inl (hnew.trans hold.symm))
  | @unlockFlush i batch burst writer iomu =>
    obtain ⟨-, hnew⟩ := h.good.inFlush_set writer (.flushed batch burst.err)
    exact h.less good h.queue rfl (fun g hg => hg) (Or.inr hnew)
  | settle writer queue =>
    cases hq.symm.trans queue
    obtain ⟨-, hnew⟩ := h.good.inFlush_set writer .ready
    exact h.less good ⟨_, rfl, hlimit, hsize⟩ rfl (fun g hg => hg) (Or.inr hnew)
  | fail writer queue =>
    cases hq.symm.trans queue
    obtain ⟨rfl, q, busy⟩ := h.good.busy writer
    refine ⟨good, ⟨_, rfl, hlimit, fun he => (by cases he)⟩, fun g hg => ?_, fits_nil limit, ?_⟩
    · have hheld := h.held g hg
      rw [bytesOf_nil]
      omega
    · simp [Fits, inFlush, busy.writers]

theorem Bounded.init {c : WriteSide} (hc : c.Sound) (hpos : 0 < limit) :
    Bounded limit { conn := c, queue := some (Ews.newQueue limit) } := by
  have hlimit : (Ews.newQueue limit).limit = limit := if_neg (by omega)
  exact ⟨(Good.init hc).step (D := .mute) (.attach rfl rfl), ⟨_, rfl, hlimit, fun _ => rfl⟩,
    fun g hg => (by cases hg), fits_nil limit, fits_nil limit⟩

/-- In every run of `Send` with messages that are not compressed and frames up to the limit, and of
the writer, the frames that are queued keep within the limit and the header of the last of them, and
so do the frames of the batch that is being flushed. Together they are at most two limits and two
headers. -/
theorem unwritten_le {cfg : Config} {vectored : Bool} {keys : ℕ → MaskKey}
    {pool : (kind : EncoderKind) → ℕ → Option { c : Compressor // c.Idle kind }} {c : WriteSide}
    (hc : WriteSide.ofConfig cfg vectored keys pool = .ok c) (hpos : 0 < limit) {acts : List Act}
    (hrun : Shared.run D { conn := c, queue := some (Ews.newQueue limit) } acts = some s)
    (hsends : along D (sends limit) { conn := c, queue := some (Ews.newQueue limit) } acts = true) :
    bytesOf s.waiting ≤ limit + lastHeader s.waiting ∧
      bytesOf s.inFlush ≤ limit + lastHeader s.inFlush ∧
      s.unwritten ≤ 2 * (limit + maxHeaderSize) := by
  have hbounded := run_induct (D := D) (P := Bounded limit)
    (fun s a s' h hp hstep => h.step hp hstep) acts (Bounded.init (sound_ofConfig hc) hpos) hrun
    hsends
  have hqueued : bytesOf s.waiting ≤ limit + lastHeader s.waiting := hbounded.queued
  have hflushed : bytesOf s.inFlush ≤ limit + lastHeader s.inFlush := hbounded.flushed
  refine ⟨hqueued, hflushed, ?_⟩
  have hlast := lastHeader_le s.waiting
  have hlast' := lastHeader_le s.inFlush
  rw [unwritten]
  omega

/-- Two texts of 18 bytes, with a limit of 20 : the second is sent while the first is being
flushed, and 40 bytes are unwritten. -/
theorem unwritten_twice :
    ∃ s, Shared.run .mute { conn := .plain .server, queue := some (Ews.newQueue 20) }
        [.start (.send .text ⟨List.replicate 18 97, by decide⟩), .enqueue, .take 0, .lockFlush 0,
          .start (.send .text ⟨List.replicate 18 98, by decide⟩), .enqueue] = some s ∧
      along .mute (sends 20) { conn := .plain .server, queue := some (Ews.newQueue 20) }
        [.start (.send .text ⟨List.replicate 18 97, by decide⟩), .enqueue, .take 0, .lockFlush 0,
          .start (.send .text ⟨List.replicate 18 98, by decide⟩), .enqueue] = true ∧
      s.unwritten = 40 ∧ s.unwritten > 20 + maxHeaderSize :=
  ⟨_, rfl, by decide, by decide, by decide⟩

/-- The same run : 20 bytes are queued and 20 are being flushed. -/
theorem unwritten_le_two :
    ∃ s, Shared.run .mute { conn := .plain .server, queue := some (Ews.newQueue 20) }
        [.start (.send .text ⟨List.replicate 18 97, by decide⟩), .enqueue, .take 0, .lockFlush 0,
          .start (.send .text ⟨List.replicate 18 98, by decide⟩), .enqueue] = some s ∧
      bytesOf s.waiting = 20 ∧ bytesOf s.inFlush = 20 ∧ s.unwritten ≤ 2 * (20 + maxHeaderSize) := by
  obtain ⟨s, hrun, hsends, hqueued, hflushed⟩ : ∃ s,
      Shared.run .mute { conn := .plain .server, queue := some (Ews.newQueue 20) }
        [.start (.send .text ⟨List.replicate 18 97, by decide⟩), .enqueue, .take 0, .lockFlush 0,
          .start (.send .text ⟨List.replicate 18 98, by decide⟩), .enqueue] = some s ∧
      along .mute (sends 20) { conn := .plain .server, queue := some (Ews.newQueue 20) }
        [.start (.send .text ⟨List.replicate 18 97, by decide⟩), .enqueue, .take 0, .lockFlush 0,
          .start (.send .text ⟨List.replicate 18 98, by decide⟩), .enqueue] = true ∧
      bytesOf s.waiting = 20 ∧ bytesOf s.inFlush = 20 :=
    ⟨_, rfl, by decide, by decide, by decide⟩
  exact ⟨s, hrun, hqueued, hflushed,
    (unwritten_le (WriteSide.ofConfig_plain .server) (by decide) hrun hsends).2.2⟩

end Shared

end Ews
