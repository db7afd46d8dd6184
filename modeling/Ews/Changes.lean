import Ews.Closing

/-!
# How often the send window changes

A window counts its changes, and a compressor tells by that count whether it may go on with its
stream. What the window counts are payloads : of the messages that are compressed, and of the
prepared ones once they are no longer pending. So the changes of the window of a connection, with
those that are pending, are no more than the frames with a compressed payload that it has sent
(`Shared.Paced`), as long as no close was sent.
-/

set_option linter.unusedSectionVars false

namespace Ews

/-- The payload of a compressed frame. -/
def Item.said (i : Item) : List UInt8 :=
  i.plain.getD []

/-- The frame says something compressed. -/
def Item.counts (i : Item) : Bool :=
  i.said != []

/-! ## The context -/

namespace CompressorContext

variable {x y : CompressorContext}

theorem changes_congr (hw : y.window = x.window) (hp : y.pending = x.pending) :
    y.changes = x.changes := by
  rw [changes, changes, applyPending, applyPending, hw, hp]

theorem changes_pending (hp : x.pending = []) : x.changes = (x.window.map Window.gen).getD 0 := by
  have hsame : x.applyPending.window = x.window := by
    rw [applyPending, hp]
    cases x.window <;> rfl
  rw [changes, hsame]

/-- What is pending goes into the window, and a payload after it. -/
theorem changes_remember {p : List UInt8}
    (hw : y.window = x.applyPending.window.map fun w => w.remember p) (hp : y.pending = []) :
    y.changes ≤ x.changes + if p = [] then 0 else 1 := by
  rw [changes_pending hp, hw, changes]
  cases x.applyPending.window with
  | none => exact Nat.zero_le _
  | some w =>
    simp only [Option.map_some, Option.getD_some, Window.gen_remember]
    split_ifs <;> omega

/-- What `compressorFor` leaves alone. -/
theorem compressorFor_same (x : CompressorContext) (comp : Compression) :
    (x.compressorFor comp).2.window = x.window ∧ (x.compressorFor comp).2.pending = x.pending := by
  unfold compressorFor
  cases x.attached with
  | some c => exact ⟨rfl, rfl⟩
  | none =>
    dsimp only [getCompressor]
    split_ifs <;> exact ⟨rfl, rfl⟩

theorem changes_compress (D : Deflater) (x : CompressorContext) (comp : Compression)
    (p : List UInt8) : (x.compress D comp p).2.changes ≤ x.changes + if p = [] then 0 else 1 := by
  obtain ⟨hwindow, hpending⟩ := x.applyPending.compressorFor_same comp
  simp only [compress]
  generalize x.applyPending.compressorFor comp = out at hwindow hpending
  obtain ⟨⟨c, shared⟩, z⟩ := out
  dsimp only at hwindow hpending ⊢
  have hnext : (c.compressChunk D p z.window true).2.2 =
      x.applyPending.window.map fun w => w.remember p := by
    rw [← hwindow]
    rfl
  cases shared with
  | true => exact changes_remember hnext hpending
  | false => exact changes_remember hnext hpending

theorem changes_compressFragment (D : Deflater) (x : CompressorContext) (p : List UInt8)
    (final : Bool) :
    (x.compressFragment D p final).2.changes ≤ x.changes + if p = [] then 0 else 1 := by
  unfold compressFragment
  dsimp only
  cases x.applyPending.attached with
  | none =>
    have hsame : x.applyPending.changes = x.changes := by
      rw [changes_pending rfl]
      rfl
    rw [hsame]
    exact Nat.le_add_right _ _
  | some c => exact changes_remember rfl rfl

theorem changes_hold (x : CompressorContext) (comp : Compression) :
    (x.hold comp).2.changes = x.changes := by
  unfold hold
  cases x.attached with
  | some c => rfl
  | none => exact changes_congr rfl rfl

theorem changes_releaseCompressor (x : CompressorContext) :
    x.releaseCompressor.changes = x.changes := by
  unfold releaseCompressor
  cases x.attached with
  | some c => exact changes_congr rfl rfl
  | none => rfl

/-- What is dropped are the oldest. -/
theorem dropCovered_suffix (size n : ℤ) : ∀ (ps : List (List UInt8)) (bytes : ℤ),
    (dropCovered size n ps bytes).1 <:+ ps
  | [], _ => List.suffix_refl _
  | p :: ps, bytes => by
    rw [dropCovered]
    split_ifs
    · exact (dropCovered_suffix size n ps _).trans (List.suffix_cons p ps)
    · exact List.suffix_refl _

theorem changes_eq {w : Window} (hw : x.window = some w) :
    x.changes = w.gen + x.pending.countP (· ≠ []) := by
  rw [changes, applyPending, hw, ← Window.gen_adds]
  rfl

theorem changes_notePrepared {w : Window} (hw : x.window = some w) (p : List UInt8) :
    (x.notePrepared w p).changes ≤ x.changes + if p = [] then 0 else 1 := by
  have hone : [p].countP (· ≠ []) = if p = [] then 0 else 1 := by
    by_cases hp : p = [] <;> simp [hp]
  rw [changes_eq hw, ← hone]
  unfold notePrepared
  dsimp only
  have hdrop := (dropCovered_suffix w.size p.length x.pending x.pendingBytes).sublist.countP_le
    (p := (· ≠ []))
  split_ifs
  · -- The payload alone covers the window.
    rw [changes_eq (w := w) (by exact hw)]
    dsimp only [List.nil_append]
    omega
  · rw [changes_eq (congrArg (Option.map fun w => List.foldl Window.add w _) hw)]
    simp only [applyPending, List.nil_append, Window.gen_adds]
    omega
  · rw [changes_eq (w := w) (by exact hw)]
    dsimp only
    rw [List.countP_append]
    omega

/-! ### Payloads of one byte -/

/-- The compressor `c` served the window at its first change, and `n` payloads `[b]` were recorded
since. -/
structure Fed (x : CompressorContext) (comp : Compression) (c : Compressor) (b : UInt8) (n : ℕ) :
    Prop where
  config : x.config = some comp
  minSize : x.minSize = 1
  attached : x.attached = some c
  count : x.pending.length ≤ pendingHistory
  bytes : x.pendingBytes = x.pending.length
  payloads : ∀ p ∈ x.pending, p = [b]
  window : ∃ w, x.window = some w ∧ w.size = 256 ∧ w.gen + x.pending.length = 1 + n

section Fed

variable {comp : Compression} {c : Compressor} {b : UInt8} {n : ℕ}

theorem Fed.countP_eq (h : x.Fed comp c b n) : x.pending.countP (· ≠ []) = x.pending.length :=
  List.countP_eq_length.mpr fun p hp => by simp [h.payloads p hp]

theorem Fed.changes_eq (h : x.Fed comp c b n) : x.changes = 1 + n := by
  obtain ⟨w, hw, -, hgen⟩ := h.window
  rw [CompressorContext.changes_eq hw, h.countP_eq, hgen]

/-- Eight bytes cover nothing, so each payload is counted. -/
theorem Fed.notePrepared (h : x.Fed comp c b n) {w : Window} (hw : x.window = some w) :
    (x.notePrepared w [b]).Fed comp c b (n + 1) := by
  obtain ⟨w', hw', hsize, hgen⟩ := h.window
  cases hw.symm.trans hw'
  have hcount : x.pending.length ≤ 8 := h.count
  have hdrop : dropCovered w.size ([b] : List UInt8).length x.pending x.pendingBytes =
      (x.pending, x.pendingBytes) := by
    cases hp : x.pending with
    | nil => rfl
    | cons p ps =>
      rw [dropCovered, if_neg]
      have hone := h.payloads p (by rw [hp]; exact List.mem_cons_self)
      rw [h.bytes, hone, hsize, List.length_singleton]
      omega
  have hsmall : ¬([b] : List UInt8).length ≥ w.size := by
    simp [hsize]
  have hnew : ∀ ps : List (List UInt8), (∀ p ∈ ps, p = [b]) → ∀ p ∈ ps ++ [[b]], p = [b] := by
    intro ps hps p hp
    rcases List.mem_append.mp hp with hp | hp
    · exact hps p hp
    · exact List.mem_singleton.mp hp
  simp only [CompressorContext.notePrepared, if_neg hsmall, hdrop]
  split_ifs with hfull
  · -- The eighth is followed by a ninth : the eight go into the window.
    have hfull : x.pending.length = 8 := hfull
    refine ⟨h.config, h.minSize, h.attached, Nat.le_add_left 1 7, rfl, hnew [] (by simp), _,
      congrArg (Option.map fun w => List.foldl Window.add w _) hw, ?_, ?_⟩
    · rw [Window.size_adds, hsize]
    · simp only [applyPending, Window.gen_adds, List.nil_append, List.length_singleton, h.countP_eq]
      omega
  · have hfull : x.pending.length ≠ 8 := hfull
    refine ⟨h.config, h.minSize, h.attached, ?_, ?_, hnew _ h.payloads, w, hw, hsize, ?_⟩
    · simp only [List.length_append, List.length_singleton, pendingHistory]
      omega
    · simp [h.bytes]
    · simp only [List.length_append, List.length_singleton]
      omega

/-- After `2 ^ 64` payloads the compressor goes on with its stream. -/
theorem Fed.startHistory (h : x.Fed comp c b n) (hc : c.attached = true) (hgen : c.gen = 1)
    (hn : n % 2 ^ 64 = 0) : x.startHistory comp = c.history := by
  obtain ⟨w, hw, -⟩ := h.window
  have hwindow : x.applyPending.window = some (x.pending.foldl Window.add w) := by
    rw [applyPending, hw]
    rfl
  have hround : (x.pending.foldl Window.add w).generation = 1 := by
    have hchanges := h.changes_eq
    rw [changes, hwindow, Option.map_some, Option.getD_some] at hchanges
    rw [Window.generation, hchanges, ← UInt64.toNat_inj, UInt64.toNat_ofNat', Nat.add_mod, hn]
    rfl
  have hattached : x.applyPending.attached = some c := h.attached
  simp [CompressorContext.startHistory, compressorFor, hattached, Compressor.prime, hwindow, hc,
    hgen, hround]

end Fed

end CompressorContext

/-! ## The operations -/

/-- The frame an operation has encoded. -/
def framesOf : Except Err (Option Outgoing) → List Item
  | .ok (some out) => [out.item]
  | _ => []

namespace WriteSide

/-- The operation has led to no more changes than its frame counts for. -/
def Paces (n : ℕ) (r : Except Err (Option Outgoing) × WriteSide) : Prop :=
  r.2.comp.changes ≤ n + (framesOf r.1).countP Item.counts

variable {c : WriteSide} {D : Deflater}

theorem paces_refused (e : Err) : Paces c.comp.changes (.error e, c) :=
  Nat.le_add_right _ _

theorem paces_frame {x : CompressorContext} {out : Outgoing} {p : List UInt8} (tx : Sender)
    (hplain : out.item.plain = some p)
    (h : x.changes ≤ c.comp.changes + if p = [] then 0 else 1) :
    Paces c.comp.changes (.ok (some out), { c with comp := x, tx := tx }) := by
  have hcount : (framesOf (.ok (some out))).countP Item.counts = if p = [] then 0 else 1 := by
    by_cases hp : p = [] <;> simp [framesOf, Item.counts, Item.said, hplain, hp]
  rw [Paces, hcount]
  exact h

theorem framed_paces (item : Item) (after : After) (r : Except Err Sender.Output × Sender) :
    Paces c.comp.changes ((c.framed item after r).map (·.map some) id) := by
  obtain ⟨res, tx⟩ := r
  cases res with
  | error e => exact Nat.le_add_right _ _
  | ok out => exact Nat.le_add_right _ _

section Open

variable (hopen : c.tx.closeSent = false)
include hopen

theorem write_paces (reserve : ℕ → Option Err) (op : Opcode) (payload : List UInt8) :
    Paces c.comp.changes ((c.write D reserve op payload).map (·.map some) id) := by
  unfold write
  split_ifs with hop hfrag
  · exact paces_refused _
  · exact paces_refused _
  · have hdata : op = .text ∨ op = .binary := by tauto
    cases reserve payload.length with
    | some e => exact paces_refused _
    | none =>
      unfold encodeData
      cases hcomp : c.comp.config with
      | none => exact framed_paces _ _ _
      | some comp =>
        dsimp only
        split_ifs
        · exact framed_paces _ _ _
        · simp only [encodePacked, Sender.encodeCompressed_data hdata, hopen]
          exact paces_frame _ rfl (c.comp.changes_compress D comp payload)

theorem fragment_paces (hsound : c.Sound) (payload : List UInt8) (final : Bool) :
    Paces c.comp.changes ((c.fragment D payload final).map (·.map some) id) := by
  by_cases hfrag : c.frag.op = 0
  · rw [fragment, if_pos hfrag]
    exact paces_refused _
  · have hdata := fragmentOp_data hsound hfrag
    rw [fragment, if_neg hfrag]
    cases hc : c.frag.compressed with
    | true =>
      simp only [packFragment, hc, if_true, Sender.encodeFragment_data hdata, hopen]
      exact paces_frame _ rfl (c.comp.changes_compressFragment D payload final)
    | false =>
      simp only [packFragment, hc, Sender.encodeFragment_data hdata, hopen]
      exact Nat.le_add_right _ _

omit hopen in
theorem preparedFrame_paces (p : Prepared) :
    Paces c.comp.changes ((c.preparedFrame D p).map (·.map some) id) := by
  unfold preparedFrame
  split_ifs
  · exact paces_refused _
  · exact paces_refused _
  · have hplain (out : Outgoing) :
        Paces c.comp.changes (.ok (some out), c.notePrepared p false) := by
      rw [notePrepared_false]
      exact Nat.le_add_right _ _
    unfold frameFor
    cases hcomp : c.comp.config with
    | none => exact hplain _
    | some comp =>
      dsimp only
      split_ifs
      · exact hplain _
      · unfold notePrepared
        cases hw : c.comp.window with
        | none => exact Nat.le_add_right _ _
        | some w => exact paces_frame c.tx rfl (c.comp.changes_notePrepared hw p.payload)

theorem writePrepared_paces (reserve : ℕ → Option Err) (p : Prepared) :
    Paces c.comp.changes ((c.writePrepared D reserve p).map (·.map some) id) := by
  unfold writePrepared
  split_ifs
  · exact write_paces hopen reserve p.op p.payload
  · cases reserve p.payload.val.length with
    | some e => exact paces_refused _
    | none => exact preparedFrame_paces p

omit hopen in
theorem beginMessage_paces (op : Opcode) :
    Paces c.comp.changes ((c.beginMessage op).map (·.map fun _ => none) id) := by
  unfold beginMessage
  split_ifs
  · exact paces_refused _
  · exact paces_refused _
  · exact paces_refused _
  · cases c.comp.config with
    | none => exact Nat.le_add_right _ _
    | some comp => exact (c.comp.changes_hold comp).le.trans (Nat.le_add_right _ _)

omit hopen in
theorem sendClose_paces (code : UInt16) :
    Paces c.comp.changes ((c.sendClose code).map .ok id) := by
  unfold sendClose
  split_ifs
  · exact Nat.le_add_right _ _
  · have hclose : Paces c.comp.changes ((c.close code []).map (·.map some) id) :=
      framed_paces _ _ _
    generalize c.close code [] = r at hclose
    obtain ⟨res, c'⟩ := r
    cases res with
    | error e => exact hclose
    | ok out => exact hclose

/-- The changes an operation leads to are counted by its frame. -/
theorem start_paces (hsound : c.Sound) (reserve : ℕ → Option Err) (o : Op) :
    Paces c.comp.changes (c.start D reserve o) := by
  cases o with
  | write op payload => exact write_paces hopen (fun _ => none) op payload
  | beginMessage op => exact beginMessage_paces op
  | fragment payload final => exact fragment_paces hopen hsound payload final
  | writePrepared p => exact writePrepared_paces hopen (fun _ => none) p
  | send op payload => exact write_paces hopen reserve op payload
  | sendPrepared p => exact writePrepared_paces hopen reserve p
  | ping payload => exact framed_paces _ _ _
  | pong payload => exact framed_paces _ _ _
  | close code reason => exact framed_paces _ _ _
  | sendClose code => exact sendClose_paces code

end Open

theorem changes_finish (after : After) (err : Option Err) :
    (c.finish after err).comp.changes = c.comp.changes := by
  have hend : ∀ c : WriteSide, c.endFragmented.comp.changes = c.comp.changes := fun c => by
    unfold endFragmented
    dsimp only
    split_ifs
    · exact c.comp.changes_releaseCompressor
    · rfl
    · rfl
  unfold finish
  cases after with
  | nothing => rfl
  | fragment final =>
    dsimp only
    split_ifs
    · exact hend c
    · exact hend { c with frag := { c.frag with first := false } }
    · rfl

end WriteSide

/-! ## Runs -/

namespace Shared

variable {D : Deflater} {s s' : Shared} {a : Act}

/-- The frames with a compressed payload that were sent. -/
def packed (s : Shared) : ℕ :=
  s.order.countP Item.counts

/-- The window has counted no more changes than frames with a compressed payload were sent. -/
def Paced (s : Shared) : Prop :=
  s.conn.tx.closeSent = false → s.conn.comp.changes ≤ s.packed

theorem packed_step (hgood : Good s) (hs : Smooth s) (hstep : Step D s a s') :
    s.packed ≤ s'.packed := by
  cases step_order hs hgood hstep with
  | same order => rw [packed, packed, order]
  | encode _ _ _ _ order =>
    rw [packed, packed, order, List.countP_append]
    exact Nat.le_add_right _ _
  | ahead _ _ _ old order =>
    rw [packed, packed, order, old]
    simp only [List.countP_append]
    omega

/-- Only operations change the window, and then their frame counts. -/
theorem Paced.step (h : Paced s) (hgood : Good s) (hs : Smooth s) (hstep : Step D s a s') :
    Paced s' := by
  have hmono := packed_step hgood hs hstep
  have hkeep : s'.conn.tx.closeSent = s.conn.tx.closeSent →
      s'.conn.comp.changes = s.conn.comp.changes → Paced s' := fun hclose hsame hopen => by
    have := h (hclose.symm.trans hopen)
    omega
  have hfinish : ∀ after err, (s.conn.finish after err).tx.closeSent = s.conn.tx.closeSent :=
    fun after err => congrArg Sender.closeSent (WriteSide.finish_spec hgood.sound after err).2.2
  cases hstep with
  | @idle o r c wmu start silent =>
    intro hopen
    have hwas : s.conn.tx.closeSent = false :=
      (closeSent_idle hgood.sound start silent).symm.trans hopen
    have hpaces := WriteSide.start_paces (D := D) hwas hgood.sound
      (fun n => s.queue.bind (·.reserve n)) o
    rw [start] at hpaces
    have hnone : framesOf r = [] := by
      rcases r with e | _ | out
      · rfl
      · rfl
      · exact absurd rfl (silent out)
    rw [WriteSide.Paces, hnone] at hpaces
    exact hpaces.trans (h hwas)
  | @encode o out c wmu start =>
    intro hopen
    have hspec := WriteSide.start_spec hgood.sound D (fun n => s.queue.bind (·.reserve n)) o
    rw [start] at hspec
    have hwas : s.conn.tx.closeSent = false := by
      cases hspec with
      | frame encodes =>
        have hsent := encodes.closeSent.symm.trans hopen
        exact (Bool.or_eq_false_iff.mp hsent).1
    have hpaces := WriteSide.start_paces (D := D) hwas hgood.sound
      (fun n => s.queue.bind (·.reserve n)) o
    rw [start] at hpaces
    have hold := h hwas
    have hnew : packed { s with
        conn := c,
        wmu := some { out := out, queued := o.joins && s.queue.isSome },
        encoded := if o.joins && s.queue.isSome then s.encoded ++ [out.item] else s.encoded } =
        s.packed + [out.item].countP Item.counts := by
      rw [packed, packed, ← List.countP_append]
      simp [order, bursts, backlog, pending, wmu]
    rw [hnew]
    exact hpaces.trans (Nat.add_le_add_right hold _)
  | refuse => exact hkeep (hfinish _ _) (WriteSide.changes_finish _ _)
  | join => exact hkeep (hfinish _ _) (WriteSide.changes_finish _ _)
  | unlock => exact hkeep (hfinish _ _) (WriteSide.changes_finish _ _)
  | _ => exact hkeep rfl rfl

theorem packed_run (hgood : Good s) (hs : Smooth s) {acts : List Act}
    (hcalm : ∀ a ∈ acts, a.calm = true) (hrun : s.run D acts = some s') : s.packed ≤ s'.packed := by
  obtain ⟨-, -, hle⟩ := run_induct
    (P := fun t => Good t ∧ Smooth t ∧ s.packed ≤ t.packed) (p := fun _ a => a.calm)
    (fun t a t' h ha hstep => ⟨h.1.step hstep, h.2.1.step h.1 ha hstep,
      h.2.2.trans (packed_step h.1 h.2.1 hstep)⟩)
    acts ⟨hgood, hs, le_rfl⟩ hrun (along_of_forall _ fun a ha _ => hcalm a ha)
  exact hle

/-- A new connection has sent nothing. -/
theorem Paced.init {cfg : Config} {vectored : Bool} {keys : ℕ → MaskKey}
    {pool : (kind : EncoderKind) → ℕ → Option { c : Compressor // c.Idle kind }} {c : WriteSide}
    (hc : WriteSide.ofConfig cfg vectored keys pool = .ok c) : Paced { conn := c } := by
  intro _
  unfold WriteSide.ofConfig at hc
  split_ifs at hc
  cases hc
  refine Nat.le_of_eq ?_
  cases cfg.compression with
  | none => rfl
  | some comp =>
    dsimp only [Config.window]
    split_ifs <;> rfl

end Shared

end Ews
