import Ews.WriteSide

/-!
# What the operations encode

`WriteSide.start_spec` says what an operation under the lock leads to : it is refused, it has
nothing to send, or it has encoded one frame. That frame is legal for the peer as long as the
frames before it are on the wire : `underway` says whether they leave a fragmented message
open. After a close nothing but pongs is encoded.
-/

set_option linter.unusedSectionVars false

namespace Ews

namespace Rules

variable {R : Rules} {openMsg : Bool} {f : Frame}

/-- The first frame of a message. -/
theorem admits_start (hop : f.opcode = .text ∨ f.opcode = .binary) (hopen : openMsg = false)
    (hkey : f.key.isSome = (R.role == .server)) (hrsv : f.rsv1 = true → R.compression = true)
    (hlen : f.payload.length < 2 ^ 63) : R.admits openMsg f = true := by
  have hstart : f.opcode.startsMessage = true := by rcases hop with h | h <;> rw [h] <;> rfl
  have hclose : (f.opcode != .close) = true := by rcases hop with h | h <;> rw [h] <;> rfl
  simp only [admits, legal, Frame.head, hkey, hstart, hopen, hclose, hlen, beq_self_eq_true,
    Bool.not_false, Bool.and_true, Bool.true_and, if_true, decide_true, Bool.true_or]
  cases hr : f.rsv1 with
  | false => rfl
  | true => exact hrsv hr

/-- A later frame of a message. -/
theorem admits_continuation (hop : f.opcode = .continuation) (hopen : openMsg = true)
    (hkey : f.key.isSome = (R.role == .server)) (hrsv : f.rsv1 = false)
    (hlen : f.payload.length < 2 ^ 63) : R.admits openMsg f = true := by
  simp only [admits, legal, Frame.head, hkey, hop, hopen, hrsv, hlen]
  simp [Opcode.startsMessage, Opcode.continuation, Opcode.text, Opcode.binary, Opcode.close]

/-- A control frame. -/
theorem admits_control (hop : f.opcode.isControl = true) (hfinal : f.final = true)
    (hkey : f.key.isSome = (R.role == .server)) (hrsv : f.rsv1 = false)
    (hlen : f.payload.length ≤ 125)
    (hclose : f.opcode = .close → closeFault f.payload = none) : R.admits openMsg f = true := by
  have hstart : f.opcode.startsMessage = false ∧ (f.opcode == .continuation) = false := by
    have hc : f.opcode = .close ∨ f.opcode = .ping ∨ f.opcode = .pong := by
      simpa [Opcode.isControl, or_assoc] using hop
    rcases hc with h | h | h <;> rw [h] <;> exact ⟨rfl, rfl⟩
  have hlt : f.payload.length < 2 ^ 63 := by omega
  have hfault : (f.opcode != .close || (closeFault f.payload).isNone) = true := by
    by_cases hc : f.opcode = .close
    · simp [hclose hc]
    · simp [hc]
  simp only [admits, legal, Frame.head, hkey, hstart, hop, hfinal, hrsv, hfault,
    decide_eq_true hlen, decide_eq_true hlt]
  simp

end Rules

/-- What `validateClose` accepts is no fault to a receiver. -/
theorem closeFault_of_validateClose {p : List UInt8} (h : validateClose p = .ok ()) :
    closeFault p = none := by
  unfold validateClose at h
  split_ifs at h with h0 hbad hutf
  · simp [closeFault, List.length_eq_zero_iff.mp h0]
  · simp only [Bool.or_eq_true, decide_eq_true_eq, Bool.not_eq_true', not_or,
      Bool.not_eq_false] at hbad
    have hne : p ≠ [] := fun h => h0 (by rw [h]; rfl)
    have hutf' : utf8Valid (p.drop 2) = true := by simpa using hutf
    rw [closeFault, if_neg hne, if_pos ⟨by omega, by omega, hbad.2⟩, if_pos hutf']

namespace CompressorContext

variable (x : CompressorContext)

theorem config_compressorFor (comp : Compression) : (x.compressorFor comp).2.config = x.config := by
  unfold compressorFor
  cases x.attached with
  | some c => rfl
  | none =>
    dsimp only [getCompressor]
    split_ifs <;> rfl

theorem config_compress (D : Deflater) (comp : Compression) (payload : List UInt8) :
    (x.compress D comp payload).2.config = x.config := by
  have h := x.applyPending.config_compressorFor comp
  simp only [compress]
  generalize x.applyPending.compressorFor comp = out at h
  obtain ⟨⟨c, shared⟩, y⟩ := out
  cases shared <;> exact h

theorem config_compressFragment (D : Deflater) (payload : List UInt8) (final : Bool) :
    (x.compressFragment D payload final).2.config = x.config := by
  simp only [compressFragment]
  cases x.applyPending.attached <;> rfl

theorem config_hold (comp : Compression) : (x.hold comp).2.config = x.config := by
  unfold hold
  cases x.attached <;> rfl

theorem config_releaseCompressor : x.releaseCompressor.config = x.config := by
  unfold releaseCompressor
  cases x.attached <;> rfl

theorem config_notePrepared (w : Window) (p : List UInt8) :
    (x.notePrepared w p).config = x.config := by
  unfold notePrepared
  split_ifs <;> first | rfl | (dsimp only; split_ifs <;> rfl)

end CompressorContext

namespace WriteSide

/-- A fragmented message is open of which a frame was handed over. -/
def underway (c : WriteSide) : Bool :=
  c.frag.op != 0 && !c.frag.first

/-- The rules of the other end. -/
def peerRules (c : WriteSide) : Rules :=
  ⟨c.tx.role.peer, c.comp.config.isSome⟩

/-- The open message is text or binary, and compressed only if that was negotiated. -/
structure Sound (c : WriteSide) : Prop where
  op : c.frag.op = 0 ∨ c.frag.op = .text ∨ c.frag.op = .binary
  compressed : c.frag.op ≠ 0 → c.frag.compressed = c.comp.config.isSome

/-- What no operation changes. -/
structure Fixed (c c' : WriteSide) : Prop where
  role : c'.tx.role = c.tx.role
  config : c'.comp.config = c.comp.config
  vectored : c'.vectored = c.vectored

theorem Fixed.refl (c : WriteSide) : Fixed c c :=
  ⟨rfl, rfl, rfl⟩

theorem Fixed.trans {c c' c'' : WriteSide} (h : Fixed c c') (h' : Fixed c' c'') : Fixed c c'' :=
  ⟨h'.role.trans h.role, h'.config.trans h.config, h'.vectored.trans h.vectored⟩

theorem Fixed.peerRules {c c' : WriteSide} (h : Fixed c c') : c'.peerRules = c.peerRules := by
  rw [WriteSide.peerRules, WriteSide.peerRules, h.role, h.config]

/-- An operation has encoded the frame of `out`. -/
structure Encodes (c : WriteSide) (out : Outgoing) (c' : WriteSide) : Prop where
  fixed : Fixed c c'
  bytes : out.bytes = out.item.frame.bytes
  admits : c.peerRules.admits c.underway out.item.frame = true
  closing : c.tx.closeSent = true → out.item.frame.opcode = .pong
  closeSent : c'.tx.closeSent = (c.tx.closeSent || out.item.frame.opcode == .close)
  sound : c'.Sound
  done : (c'.finish out.after none).underway = out.item.frame.opens c.underway
  failed : ∀ e, (c'.finish out.after (some e)).underway =
    (out.item.frame.opcode.isControl && c.underway)

/-- An operation under the lock is refused, or it has encoded a frame. If a fragment is refused
the message is given up, but then a close was sent. -/
inductive Attempt (c : WriteSide) : Except Err Outgoing × WriteSide → Prop
  | refused {e : Err} {c' : WriteSide} (fixed : Fixed c c') (sound : c'.Sound)
      (closeSent : c'.tx.closeSent = c.tx.closeSent)
      (underway : c'.underway = c.underway ∨ c.tx.closeSent = true) : Attempt c (.error e, c')
  | frame {out : Outgoing} {c' : WriteSide} (encodes : Encodes c out c') : Attempt c (.ok out, c')

/-- What an operation under the lock leads to. -/
inductive Started (c : WriteSide) : Except Err (Option Outgoing) × WriteSide → Prop
  | refused {e : Err} {c' : WriteSide} (fixed : Fixed c c') (sound : c'.Sound)
      (closeSent : c'.tx.closeSent = c.tx.closeSent)
      (underway : c'.underway = c.underway ∨ c.tx.closeSent = true) : Started c (.error e, c')
  | silent {c' : WriteSide} (fixed : Fixed c c') (sound : c'.Sound)
      (closeSent : c'.tx.closeSent = c.tx.closeSent) (underway : c'.underway = c.underway) :
      Started c (.ok none, c')
  | frame {out : Outgoing} {c' : WriteSide} (encodes : Encodes c out c') :
      Started c (.ok (some out), c')

theorem Attempt.started {c : WriteSide} {r : Except Err Outgoing × WriteSide} (h : c.Attempt r) :
    c.Started (r.map (·.map some) id) := by
  cases h with
  | refused fixed sound closeSent underway => exact .refused fixed sound closeSent underway
  | frame encodes => exact .frame encodes

section Attempt

variable {c : WriteSide} (h : c.Sound)
include h

/-- A refusal that changes nothing. -/
theorem Attempt.unchanged {e : Err} : c.Attempt (.error e, c) :=
  .refused (.refl c) h rfl (Or.inl rfl)

/-- A frame that leaves the state of fragmented messages alone. -/
theorem Encodes.of_single {out : Outgoing} {c' : WriteSide} (fixed : Fixed c c')
    (frag : c'.frag = c.frag) (after : out.after = .nothing)
    (bytes : out.bytes = out.item.frame.bytes)
    (admits : c.peerRules.admits c.underway out.item.frame = true)
    (closing : c.tx.closeSent = true → out.item.frame.opcode = .pong)
    (closeSent : c'.tx.closeSent = (c.tx.closeSent || out.item.frame.opcode == .close))
    (single : out.item.frame.opcode.isControl = true ∨
      out.item.frame.opcode.isControl = false ∧ c.underway = false ∧ out.item.frame.final = true) :
    Encodes c out c' := by
  have hunder : c'.underway = c.underway := by rw [WriteSide.underway, frag]; rfl
  have hfinish : ∀ err, c'.finish out.after err = c' := by simp [finish, after]
  refine ⟨fixed, bytes, admits, closing, closeSent,
    ⟨frag ▸ h.op, by rw [frag, fixed.config]; exact h.compressed⟩, ?_, fun e => ?_⟩
  · rw [hfinish, hunder, Frame.opens]
    rcases single with hctl | ⟨hctl, hno, hfinal⟩
    · simp [hctl]
    · simp [hctl, hno, hfinal]
  · rw [hfinish, hunder]
    rcases single with hctl | ⟨hctl, hno, -⟩
    · simp [hctl]
    · simp [hctl, hno]

omit h in
theorem isSome_key (c : WriteSide) : c.tx.nextKey.isSome = (c.peerRules.role == .server) := by
  rw [Sender.isSome_nextKey, peerRules]
  cases c.tx.role <;> rfl

/-- A whole message in one frame. -/
theorem Encodes.of_message {op : Opcode} {payload : List UInt8} {compressed : Bool}
    {plain : Option (List UInt8)} {x : CompressorContext} (hop : op = .text ∨ op = .binary)
    (hfrag : c.frag.op = 0) (hopen : c.tx.closeSent = false)
    (hcomp : compressed = true → c.comp.config.isSome = true) (hlen : payload.length < 2 ^ 63)
    (hx : x.config = c.comp.config) :
    Encodes c { item := ⟨c.tx.frame op true payload compressed, plain⟩,
                header := (c.tx.frame op true payload compressed).header,
                body := (c.tx.frame op true payload compressed).body }
      { c with comp := x, tx := c.tx.drawKey } := by
  have hunder : c.underway = false := by simp [underway, hfrag]
  have hne : (op == .close) = false := by rcases hop with rfl | rfl <;> rfl
  have hctl : op.isControl = false := by rcases hop with rfl | rfl <;> rfl
  refine .of_single h ⟨by simp, hx, rfl⟩ rfl rfl rfl ?_ (fun hc => ?_) ?_ ?_
  · refine Rules.admits_start hop hunder c.isSome_key (fun hr => hcomp ?_) hlen
    simp only [Sender.frame, Bool.and_eq_true] at hr
    exact hr.1
  · exact absurd (hopen.symm.trans hc) (by decide)
  · simp [Sender.frame, hne]
  · exact Or.inr ⟨hctl, hunder, rfl⟩

theorem encodePlain_attempt {op : Opcode} (payload : Slice) (hop : op = .text ∨ op = .binary)
    (hfrag : c.frag.op = 0) : c.Attempt (c.encodePlain op payload) := by
  rw [encodePlain, Sender.encode, Sender.encodeMessage_data hop]
  cases hc : c.tx.closeSent with
  | true => exact .unchanged h
  | false =>
    exact .frame (Encodes.of_message h hop hfrag hc (fun h => absurd h (by decide)) payload.2 rfl)

theorem encodePacked_attempt (D : Deflater) {comp : Compression} (hcomp : c.comp.config = some comp)
    {op : Opcode} (payload : List UInt8) (hop : op = .text ∨ op = .binary) (hfrag : c.frag.op = 0) :
    c.Attempt (c.encodePacked D comp op payload) := by
  have hconfig := c.comp.config_compress D comp payload
  have hlen : (c.comp.compress D comp payload).1.length < 2 ^ 63 :=
    Compressor.compressChunk_length D _ payload _ true
  simp only [encodePacked, Sender.encodeCompressed_data hop]
  generalize c.comp.compress D comp payload = res at hconfig hlen
  obtain ⟨packed, x⟩ := res
  cases hc : c.tx.closeSent with
  | true =>
    exact .refused ⟨rfl, hconfig, rfl⟩ ⟨h.op, fun h0 => absurd hfrag h0⟩ rfl (Or.inl rfl)
  | false =>
    exact .frame (Encodes.of_message h hop hfrag hc (fun _ => by rw [hcomp]; rfl) hlen hconfig)

theorem encodeData_attempt (D : Deflater) {op : Opcode} (payload : Slice)
    (hop : op = .text ∨ op = .binary) (hfrag : c.frag.op = 0) :
    c.Attempt (c.encodeData D op payload) := by
  unfold encodeData
  cases hcomp : c.comp.config with
  | none => exact encodePlain_attempt h payload hop hfrag
  | some comp =>
    dsimp only
    split_ifs with hmin
    · exact encodePlain_attempt h payload hop hfrag
    · exact encodePacked_attempt h D hcomp payload hop hfrag

theorem write_attempt (D : Deflater) (reserve : ℕ → Option Err) (op : Opcode) (payload : Slice) :
    c.Attempt (c.write D reserve op payload) := by
  unfold write
  split_ifs with hop hfrag
  · exact .unchanged h
  · exact .unchanged h
  · cases reserve payload.val.length with
    | some e => exact .unchanged h
    | none => exact encodeData_attempt h D payload (by tauto) (by simpa using hfrag)

omit h in
theorem endFragmented_spec (c : WriteSide) : c.endFragmented.frag.op = 0 ∧
    Fixed c c.endFragmented ∧ c.endFragmented.tx = c.tx := by
  unfold endFragmented
  dsimp only
  split_ifs
  · exact ⟨rfl, ⟨rfl, CompressorContext.config_releaseCompressor _, rfl⟩, rfl⟩
  · exact ⟨rfl, ⟨rfl, rfl, rfl⟩, rfl⟩
  · exact ⟨rfl, ⟨rfl, rfl, rfl⟩, rfl⟩

omit h in
theorem endFragmented_sound (c : WriteSide) : c.endFragmented.Sound ∧
    c.endFragmented.underway = false := by
  have hop := c.endFragmented_spec.1
  exact ⟨⟨Or.inl hop, fun h0 => absurd hop h0⟩, by simp [underway, hop]⟩

/-- The end of an operation changes at most the state of fragmented messages. -/
theorem finish_spec (after : After) (err : Option Err) : (c.finish after err).Sound ∧
    Fixed c (c.finish after err) ∧ (c.finish after err).tx = c.tx := by
  unfold finish
  cases after with
  | nothing => exact ⟨h, .refl c, rfl⟩
  | fragment final =>
    dsimp only
    split_ifs
    · exact ⟨c.endFragmented_sound.1, c.endFragmented_spec.2⟩
    · obtain ⟨-, hfixed, htx⟩ :=
        endFragmented_spec { c with frag := { c.frag with first := false } }
      exact ⟨(endFragmented_sound _).1, ⟨hfixed.role, hfixed.config, hfixed.vectored⟩, htx⟩
    · exact ⟨⟨h.op, h.compressed⟩, ⟨rfl, rfl, rfl⟩, rfl⟩

omit h in
theorem packFragment_spec (D : Deflater) (c : WriteSide) (payload : Slice) (final : Bool) :
    (c.packFragment D payload final).1.length < 2 ^ 63 ∧
      (c.packFragment D payload final).2.config = c.comp.config := by
  unfold packFragment
  split_ifs
  · refine ⟨?_, c.comp.config_compressFragment D payload final⟩
    simp only [CompressorContext.compressFragment]
    cases c.comp.applyPending.attached with
    | none => exact payload.2
    | some comp => exact Compressor.compressChunk_length D comp payload _ final
  · exact ⟨payload.2, rfl⟩

theorem fragmentOp_data (hfrag : c.frag.op ≠ 0) :
    c.fragmentOp = .continuation ∨ c.fragmentOp = .text ∨ c.fragmentOp = .binary := by
  unfold fragmentOp
  cases c.frag.first with
  | false => exact Or.inl rfl
  | true => exact Or.inr (h.op.resolve_left hfrag)

/-- A frame of a fragmented message. -/
theorem Encodes.of_fragment {payload : List UInt8} {plain : Option (List UInt8)}
    {x : CompressorContext} {final : Bool} (hfrag : c.frag.op ≠ 0)
    (hopen : c.tx.closeSent = false) (hlen : payload.length < 2 ^ 63)
    (hx : x.config = c.comp.config) :
    let f := c.tx.frame c.fragmentOp final payload c.frag.compressed
    Encodes c { item := ⟨f, plain⟩, header := f.header, body := f.body, after := .fragment final }
      { c with comp := x, tx := c.tx.drawKey } := by
  intro f
  have hne : (f.opcode == .close) = false ∧ f.opcode.isControl = false := by
    show (c.fragmentOp == .close) = false ∧ c.fragmentOp.isControl = false
    rcases fragmentOp_data h hfrag with h0 | h0 | h0 <;> rw [h0] <;> exact ⟨rfl, rfl⟩
  have hadmits : c.peerRules.admits c.underway f = true := by
    cases hfirst : c.frag.first with
    | true =>
      refine Rules.admits_start ?_ (by simp [underway, hfirst]) c.isSome_key (fun hr => ?_) hlen
      · simp only [f, Sender.frame, fragmentOp, hfirst, if_true]
        exact h.op.resolve_left hfrag
      · simp only [f, Sender.frame, Bool.and_eq_true] at hr
        exact (h.compressed hfrag).symm.trans hr.1
    | false =>
      refine Rules.admits_continuation ?_ (by simp [underway, hfirst, hfrag]) c.isSome_key ?_ hlen
      · simp [f, Sender.frame, fragmentOp, hfirst]
      · simp [f, Sender.frame, fragmentOp, hfirst]
  refine ⟨⟨by simp, hx, rfl⟩, rfl, hadmits, fun hc => absurd (hopen.symm.trans hc) (by decide),
    by simp [hne.1], ⟨h.op, fun _ => (h.compressed hfrag).trans (congrArg _ hx.symm)⟩, ?_,
    fun e => ?_⟩
  · rw [Frame.opens, hne.2]
    cases final with
    | true => exact (endFragmented_sound _).2
    | false => simp [finish, underway, f, Sender.frame, hfrag]
  · rw [hne.2]
    exact (endFragmented_sound _).2

theorem fragment_attempt (D : Deflater) (payload : Slice) (final : Bool) :
    c.Attempt (c.fragment D payload final) := by
  by_cases hfrag : c.frag.op = 0
  · rw [fragment, if_pos hfrag]
    exact .unchanged h
  · have hdata := fragmentOp_data h hfrag
    have hpacked := c.packFragment_spec D payload final
    rw [fragment, if_neg hfrag]
    generalize c.packFragment D payload final = res at hpacked
    obtain ⟨packed, x⟩ := res
    obtain ⟨hlen, hconfig⟩ := hpacked
    simp only [Sender.encodeFragment_data hdata]
    cases hc : c.tx.closeSent with
    | true =>
      obtain ⟨-, hfixed, htx⟩ := endFragmented_spec { c with comp := x }
      exact .refused ⟨hfixed.role, hfixed.config.trans hconfig, hfixed.vectored⟩
        (endFragmented_sound _).1 (congrArg Sender.closeSent htx) (Or.inr hc)
    | false => exact .frame (Encodes.of_fragment h hfrag hc hlen hconfig)

omit h in
theorem notePrepared_spec (c : WriteSide) (p : Prepared) (compressed : Bool) :
    Fixed c (c.notePrepared p compressed) ∧ (c.notePrepared p compressed).frag = c.frag ∧
      (c.notePrepared p compressed).tx = c.tx := by
  unfold notePrepared
  cases c.comp.window with
  | none => exact ⟨.refl c, rfl, rfl⟩
  | some w =>
    dsimp only
    split_ifs
    · exact ⟨⟨rfl, c.comp.config_notePrepared w _, rfl⟩, rfl, rfl⟩
    · exact ⟨.refl c, rfl, rfl⟩

/-- The frame of a prepared message, of either variant. -/
structure Prepares (c : WriteSide) (p : Prepared) (out : Outgoing) : Prop where
  after : out.after = .nothing
  bytes : out.bytes = out.item.frame.bytes
  opcode : out.item.frame.opcode = p.op
  final : out.item.frame.final = true
  key : out.item.frame.key = none
  rsv1 : out.item.frame.rsv1 = true → c.comp.config.isSome = true
  length : out.item.frame.payload.length < 2 ^ 63

omit h in
theorem frameFor_spec (D : Deflater) (c : WriteSide) (p : Prepared) :
    Prepares c p (c.frameFor D p).1 := by
  unfold frameFor
  dsimp only
  split
  · exact ⟨rfl, p.encoded, rfl, rfl, rfl, fun hr => (Bool.false_ne_true hr).elim, p.payload.2⟩
  · rename_i comp hcomp
    split_ifs
    · exact ⟨rfl, p.encoded, rfl, rfl, rfl, fun hr => (Bool.false_ne_true hr).elim, p.payload.2⟩
    · exact ⟨rfl, p.compressedFor_eq D comp, rfl, rfl, rfl, fun _ => by rw [hcomp]; rfl,
        Compressor.compressChunk_length D _ _ _ true⟩

theorem preparedFrame_attempt (D : Deflater) (hrole : c.tx.role ≠ .client) (p : Prepared) :
    c.Attempt (c.preparedFrame D p) := by
  unfold preparedFrame
  split_ifs with hfrag hclose
  · exact .unchanged h
  · exact .unchanged h
  · have hunder : c.underway = false := by simp [underway, not_not.mp hfrag]
    have hkey : (none : Option MaskKey).isSome = (c.peerRules.role == .server) := by
      rw [peerRules]
      cases hr : c.tx.role with
      | server => rfl
      | client => exact absurd hr hrole
    have hne : (p.op == .close) = false := by rcases p.data with h0 | h0 <;> rw [h0] <;> rfl
    have hctl : p.op.isControl = false := by rcases p.data with h0 | h0 <;> rw [h0] <;> rfl
    obtain ⟨hfixed, hsame, htx⟩ := c.notePrepared_spec p (c.frameFor D p).2
    have hp := c.frameFor_spec D p
    refine .frame (.of_single h hfixed hsame hp.after hp.bytes ?_ (fun hc => absurd hc hclose) ?_ ?_)
    · exact Rules.admits_start (hp.opcode ▸ p.data) hunder (by rw [hp.key]; exact hkey) hp.rsv1
        hp.length
    · rw [htx, hp.opcode, hne, Bool.or_false]
    · exact Or.inr ⟨hp.opcode ▸ hctl, hunder, hp.final⟩

theorem writePrepared_attempt (D : Deflater) (reserve : ℕ → Option Err) (p : Prepared) :
    c.Attempt (c.writePrepared D reserve p) := by
  unfold writePrepared
  split_ifs with hrole
  · exact write_attempt h D reserve p.op p.payload
  · cases reserve p.payload.val.length with
    | some e => exact .unchanged h
    | none => exact preparedFrame_attempt h D hrole p

/-- A control frame in one frame of its own. -/
theorem Encodes.of_control {op : Opcode} {payload : List UInt8} {tx : Sender}
    (hop : op.isControl = true) (hopen : c.tx.closeSent = true → op = .pong)
    (hlen : payload.length ≤ 125) (hclose : op = .close → closeFault payload = none)
    (hrole : tx.role = c.tx.role) (htx : tx.closeSent = (c.tx.closeSent || op == .close)) :
    Encodes c { item := { frame := c.tx.frame op true payload false },
                header := (c.tx.frame op true payload false).header,
                body := (c.tx.frame op true payload false).body } { c with tx := tx } :=
  .of_single h ⟨hrole, rfl, rfl⟩ rfl rfl rfl
    (Rules.admits_control hop rfl c.isSome_key rfl hlen hclose) hopen htx
    (Or.inl hop)

theorem control_attempt {op : Opcode} (hop : op = .ping ∨ op = .pong) (payload : List UInt8) :
    c.Attempt (c.control op payload) := by
  have hctl : op.isControl = true := by rcases hop with rfl | rfl <;> rfl
  have hne : op ≠ .close := by rcases hop with rfl | rfl <;> decide
  rw [control, Sender.encode_ping hop]
  split_ifs with hc hlen
  · exact .unchanged h
  · exact .unchanged h
  · exact .frame (Encodes.of_control h hctl (fun h0 => by_contra fun hp => hc ⟨h0, hp⟩) (by omega)
      (fun h0 => absurd h0 hne) (by simp) (by simp [hne]))

theorem close_attempt (code : UInt16) (reason : List UInt8) :
    c.Attempt (c.close code reason) := by
  rw [close, Sender.encodeClose_eq]
  split_ifs with hfits
  · rw [Sender.encode_close]
    split_ifs with hc
    · exact .unchanged h
    · cases hv : validateClose (Sender.closePayload code reason) with
      | error e => exact .unchanged h
      | ok u =>
        exact .frame (Encodes.of_control h rfl (fun h0 => absurd h0 hc) (validateClose_length hv).1
          (fun _ => closeFault_of_validateClose hv) (by simp) (by simp))
  · exact .unchanged h

theorem sendClose_started (code : UInt16) : c.Started ((c.sendClose code).map .ok id) := by
  unfold sendClose
  split_ifs with hc
  · exact .silent (.refl c) h rfl rfl
  · have hclose := close_attempt h code []
    generalize c.close code [] = r at hclose
    cases hclose with
    | refused fixed sound closeSent underway =>
      refine .silent fixed sound closeSent (underway.resolve_right hc)
    | frame encodes => exact .frame encodes

theorem beginMessage_started (op : Opcode) :
    c.Started ((c.beginMessage op).map (·.map fun _ => none) id) := by
  unfold beginMessage
  split_ifs with hop hfrag hc
  · exact .refused (.refl c) h rfl (Or.inl rfl)
  · exact .refused (.refl c) h rfl (Or.inl rfl)
  · exact .refused (.refl c) h rfl (Or.inl rfl)
  · have hdata : op = .text ∨ op = .binary := by tauto
    have hunder : c.underway = false := by simp [underway, not_not.mp hfrag]
    cases hcomp : c.comp.config with
    | none =>
      refine .silent ⟨rfl, rfl, rfl⟩ ⟨Or.inr hdata, fun _ => ?_⟩ rfl ?_
      · exact (congrArg Option.isSome hcomp).symm
      · rw [hunder]
        simp [underway]
    | some comp =>
      have hconfig := c.comp.config_hold comp
      refine .silent ⟨rfl, hconfig, rfl⟩ ⟨Or.inr hdata, fun _ => ?_⟩ rfl ?_
      · exact (congrArg Option.isSome (hconfig.trans hcomp)).symm
      · rw [hunder]
        simp [underway]

/-- What every operation under the lock leads to. -/
theorem start_spec (D : Deflater) (reserve : ℕ → Option Err) (o : Op) :
    c.Started (c.start D reserve o) := by
  cases o with
  | write op payload => exact (write_attempt h D (fun _ => none) op payload).started
  | beginMessage op => exact beginMessage_started h op
  | fragment payload final => exact (fragment_attempt h D payload final).started
  | writePrepared p => exact (writePrepared_attempt h D (fun _ => none) p).started
  | send op payload => exact (write_attempt h D reserve op payload).started
  | sendPrepared p => exact (writePrepared_attempt h D reserve p).started
  | ping payload => exact (control_attempt h (Or.inl rfl) payload).started
  | pong payload => exact (control_attempt h (Or.inr rfl) payload).started
  | close code reason => exact (close_attempt h code reason).started
  | sendClose code => exact sendClose_started h code

end Attempt

end WriteSide

end Ews
