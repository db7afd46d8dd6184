import Ews.History
import Ews.Spoken

/-!
# What a connection says

The sending half of `Ews.Spoken` : the frames a connection encodes are a speech, and its account is
that of the operations.

The encoder must not look back to anything the peer does not have. With takeover its history is, as
far back as it can reach, the end of what was sent (`Follows`), and a direction without takeover
starts every message with no history at all. Both are `Remembers`. `WriteSide.Abreast` says where a
connection stands in its speech, and `start_voices` that every operation keeps it there.
-/

set_option linter.unusedSectionVars false

namespace Ews

open Bytes

namespace Compressor

/-- In a message the encoder goes on. -/
theorem prime_mid {c : Compressor} (h : c.mid = true) (w : Option Window) : c.prime w = c := by
  simp [prime, h]

/-- Without a window a message starts with no history. -/
theorem prime_alone {c : Compressor} (h : c.mid = false) : (c.prime none).history = [] := by
  simp [prime, h, Window.dictOf]

end Compressor

namespace CompressorContext

/-- The context remembers what was sent, if the direction takes its history over, and otherwise has
no window. -/
inductive Remembers (reach : ℕ) (takeover : Bool) (x : CompressorContext) (sent : List UInt8) : Prop
  | window {w : Window} (on : takeover = true) (size : w.size = reach) (follows : x.Follows w sent)
  | alone (off : takeover = false) (window : x.window = none)
      (kinds : ∀ c, x.attached = some c → c.kind.window = reach)
      (config : ∀ comp, x.config = some comp → (EncoderKind.ofConfig comp).window = reach)

variable {reach : ℕ} {takeover : Bool} {x : CompressorContext} {w : Window} {sent : List UInt8}
  {comp : Compression}

/-- A compressor of the pool, or a new one. -/
theorem getCompressor_idle (x : CompressorContext) (comp : Compression) :
    (x.getCompressor comp).1.Idle (.ofConfig comp) := by
  simp only [getCompressor]
  cases x.pool (EncoderKind.ofConfig comp) x.gets with
  | none => exact ⟨rfl, rfl, rfl⟩
  | some c => exact c.2

/-- The compressor for a message is the one attached, or an idle one. -/
theorem compressorFor_cases (x : CompressorContext) (comp : Compression) :
    x.attached = some (x.compressorFor comp).1.1 ∨
      (x.compressorFor comp).1.1.Idle (.ofConfig comp) := by
  unfold compressorFor
  cases ha : x.attached with
  | some c => exact Or.inl rfl
  | none =>
    right
    have h := x.getCompressor_idle comp
    dsimp only
    split_ifs <;> exact h

/-! ### Whole messages -/

section Compress

variable (h : x.Remembers reach takeover sent) (hc : x.config = some comp)
  (hmid : ∀ c, x.attached = some c → c.mid = false)
include h hc hmid

/-- The encoder starts on a message with what the peer has. -/
theorem Remembers.start (hlt : x.changes < 2 ^ 64) :
    (x.applyPending.compressorFor comp).1.1.kind.window = reach ∧
      lastN reach (x.startHistory comp) <:+ if takeover then sent else [] := by
  rw [startHistory]
  have hcases := x.applyPending.compressorFor_cases comp
  cases h with
  | @window w on size follows =>
    have happ := follows.applyPending
    have hkeeps := (happ.compressorFor hc).1
    have hdict := happ.dict_eq rfl
    rw [Window.size_adds] at hdict
    rw [follows.changes_eq] at hlt
    have hlast := hkeeps.prime hlt
    rw [Window.size_adds, hdict, size] at hlast
    refine ⟨hkeeps.reach.trans ((Window.size_adds _ _).trans size), ?_⟩
    rw [happ.window, hlast, on, if_pos rfl]
    exact lastN_suffix _ _
  | alone off window kinds config =>
    have hwindow : x.applyPending.window = none := by simp [applyPending, window]
    have hidle : (x.applyPending.compressorFor comp).1.1.mid = false := by
      rcases hcases with ha | hidle
      · exact hmid _ ha
      · exact hidle.mid
    refine ⟨?_, ?_⟩
    · rcases hcases with ha | hidle
      · exact kinds _ ha
      · rw [hidle.kind]
        exact config comp hc
    · rw [hwindow, Compressor.prime_alone hidle, lastN_nil]
      exact List.nil_suffix

/-- A message that `encodeData` compresses is remembered. -/
theorem Remembers.compress (hlt : x.changes < 2 ^ 64) (D : Deflater) (p : List UInt8) :
    (x.compress D comp p).2.Remembers reach takeover (sent ++ p) := by
  have hcases := x.applyPending.compressorFor_cases comp
  have hlent := x.applyPending.compressorFor_lent comp
  have hwin := (x.applyPending.compressorFor_same comp).1
  cases h with
  | window on size follows =>
    obtain ⟨w', hsize, hfollows⟩ := follows.compress hc hlt D p
    exact .window on (hsize.trans size) hfollows
  | alone off window kinds config =>
    have hwindow : x.applyPending.window = none := by simp [applyPending, window]
    have hconfig := x.config_compress D comp p
    refine .alone off ?_ ?_ fun comp' hc' => config comp' (hconfig.symm.trans hc')
    all_goals
      have hkind : (x.applyPending.compressorFor comp).1.1.kind.window = reach := by
        rcases hcases with ha | hidle
        · exact kinds _ ha
        · rw [hidle.kind]
          exact config comp hc
      rw [hwindow] at hwin
      simp only [CompressorContext.compress]
      generalize x.applyPending.compressorFor comp = out at hkind hlent hwin
      obtain ⟨⟨c, shared⟩, y⟩ := out
      dsimp only at hkind hlent hwin ⊢
      rw [hwin]
    · cases shared <;> rfl
    · intro c' hc'
      cases shared with
      | true => cases (hlent rfl).symm.trans hc'
      | false =>
        cases hc'
        exact (congrArg EncoderKind.window (c.kind_prime none)).trans hkind

end Compress

/-! ### Chunks -/

/-- `BeginMessage` holds a compressor that is in no message. -/
theorem Remembers.hold (h : x.Remembers reach takeover sent) (hc : x.config = some comp)
    (hmid : ∀ c, x.attached = some c → c.mid = false) :
    (x.hold comp).2.Remembers reach takeover sent ∧
      ∃ c, (x.hold comp).2.attached = some c ∧ c.mid = false := by
  have hidle := x.getCompressor_idle comp
  have hattached : ∃ c, (x.hold comp).2.attached = some c ∧ c.mid = false ∧
      (x.attached = some c ∨ c.Idle (.ofConfig comp)) := by
    unfold CompressorContext.hold
    cases ha : x.attached with
    | some c => exact ⟨c, ha, hmid c ha, Or.inl rfl⟩
    | none => exact ⟨_, rfl, hidle.mid, Or.inr hidle⟩
  have hwindow : (x.hold comp).2.window = x.window := by
    unfold CompressorContext.hold
    cases x.attached <;> rfl
  obtain ⟨c, hc', hm, hcases⟩ := hattached
  refine ⟨?_, c, hc', hm⟩
  cases h with
  | window on size follows => exact .window on size (follows.hold hc).1
  | alone off window kinds config =>
    refine .alone off (hwindow.trans window) (fun c₁ h₁ => ?_) fun comp' hcomp =>
      config comp' ((x.config_hold comp).symm.trans hcomp)
    cases hc'.symm.trans h₁
    rcases hcases with ha | hidle
    · exact kinds c ha
    · rw [hidle.kind]
      exact config comp hc

/-- What `fragment` makes of a chunk : the encoder goes on in a message, and starts one with what the
peer has. -/
structure Chunked (reach : ℕ) (takeover : Bool) (sent : List UInt8) (c : Compressor) (D : Deflater)
    (p : List UInt8) (final : Bool) (hist : List UInt8) (out : List UInt8 × CompressorContext) :
    Prop where
  going : c.mid = true → hist = c.history
  opening : c.mid = false → lastN reach hist <:+ if takeover then sent else []
  kind : c.kind.window = reach
  output : out.1 = D.chunk c.kind final hist p
  attached : ∃ c', out.2.attached = some c' ∧ c'.kind = c.kind ∧ c'.history = hist ++ p ∧
    c'.mid = !final
  remembers : out.2.Remembers reach takeover (sent ++ p)

theorem Remembers.compressFragment (h : x.Remembers reach takeover sent) {c : Compressor}
    (ha : x.attached = some c) (hlt : x.changes < 2 ^ 64) (D : Deflater) (p : List UInt8)
    (final : Bool) :
    ∃ hist, Chunked reach takeover sent c D p final hist (x.compressFragment D p final) := by
  have hattached : x.applyPending.attached = some c := ha
  have hout : x.compressFragment D p final =
      ((c.compressChunk D p x.applyPending.window final).1, { x.applyPending with
        window := (c.compressChunk D p x.applyPending.window final).2.2,
        attached := some (c.compressChunk D p x.applyPending.window final).2.1 }) := by
    simp only [CompressorContext.compressFragment, hattached]
  refine ⟨(c.prime x.applyPending.window).history, fun hm => by rw [c.prime_mid hm], ?_, ?_, ?_, ?_, ?_⟩
  · intro hm
    cases h with
    | window on size follows =>
      have happ := follows.applyPending
      rw [follows.changes_eq] at hlt
      have hlast := (happ.keeps c ha).prime hlt
      rw [happ.dict_eq rfl, Window.size_adds, size] at hlast
      rw [happ.window, hlast, on, if_pos rfl]
      exact lastN_suffix _ _
    | alone off window kinds config =>
      have hwindow : x.applyPending.window = none := by simp [applyPending, window]
      rw [hwindow, Compressor.prime_alone hm, lastN_nil]
      exact List.nil_suffix
  · cases h with
    | window on size follows => exact (follows.keeps c ha).reach.trans size
    | alone off window kinds config => exact kinds c ha
  · rw [hout]
    simp only [Compressor.compressChunk, Compressor.kind_prime]
    rfl
  · rw [hout]
    exact ⟨_, rfl, c.kind_prime _, rfl, rfl⟩
  · cases h with
    | window on size follows =>
      obtain ⟨w', hsize, hfollows, -⟩ := follows.compressFragment ha hlt D p final
      exact .window on (hsize.trans size) hfollows
    | alone off window kinds config =>
      have hwindow : x.applyPending.window = none := by simp [applyPending, window]
      rw [hout, hwindow]
      refine .alone off rfl ?_ config
      rintro c₁ ⟨⟩
      exact (congrArg EncoderKind.window (c.kind_prime none)).trans (kinds c ha)

/-! ### Prepared messages, and the end of a message -/

theorem Remembers.notePrepared (h : x.Remembers reach takeover sent) (hw : x.window = some w)
    (hmid : ∀ c, x.attached = some c → c.mid = false) (p : List UInt8) :
    (x.notePrepared w p).Remembers reach takeover (sent ++ p) := by
  cases h with
  | window on size follows =>
    cases follows.window.symm.trans hw
    obtain ⟨w', hsize, hfollows⟩ := follows.notePrepared hmid p
    exact .window on (hsize.trans size) hfollows
  | alone off window => cases window.symm.trans hw

theorem Remembers.releaseCompressor (h : x.Remembers reach takeover sent) :
    x.releaseCompressor.Remembers reach takeover sent := by
  have hattached : x.releaseCompressor.attached = none := by
    unfold CompressorContext.releaseCompressor
    cases ha : x.attached <;> simp [ha]
  have hwindow : x.releaseCompressor.window = x.window := by
    unfold CompressorContext.releaseCompressor
    cases x.attached <;> rfl
  cases h with
  | window on size follows => exact .window on size follows.releaseCompressor
  | alone off window kinds config =>
    refine .alone off (hwindow.trans window) (fun c hc => ?_) fun comp hc =>
      config comp (x.config_releaseCompressor.symm.trans hc)
    cases hattached.symm.trans hc

end CompressorContext

namespace CompressorContext

variable {reach : ℕ} {takeover : Bool} {x : CompressorContext} {sent : List UInt8}

/-- The encoders of the connection have the reach of the direction. -/
theorem Remembers.kind_window (h : x.Remembers reach takeover sent) {comp : Compression}
    (hc : x.config = some comp) : (EncoderKind.ofConfig comp).window = reach := by
  cases h with
  | window on size follows => exact (follows.reach comp hc).trans size
  | alone off window kinds config => exact config comp hc

/-- Without a window it does not matter what was sent. -/
theorem Remembers.forget (h : x.Remembers reach takeover sent) (hw : x.window = none)
    (sent' : List UInt8) : x.Remembers reach takeover sent' := by
  cases h with
  | window on size follows => cases hw.symm.trans follows.window
  | alone off window kinds config => exact .alone off window kinds config

end CompressorContext

/-! ## The operations -/

theorem Draft.packed_add (d : Draft) (p : List UInt8) :
    (d.add p).packed = d.packed ++ if d.compressed then p else [] := by
  have hadd : (d.add p).compressed = d.compressed := rfl
  rw [Draft.packed, Draft.packed, hadd, Draft.text_add]
  cases d.compressed <;> simp

/-- What a chunk adds to what was said compressed. -/
theorem Spoken.Takes.total {reach : ℕ} {takeover : Bool} {σ : Spoken} {f : Frame} {d : Draft}
    (takes : σ.Takes reach takeover f d) (final : Bool) (p : List UInt8) :
    (σ.after d final p).total = σ.total ++ if d.compressed then p else [] := by
  have hafter : (σ.after d final p).total = σ.said ++ (d.add p).packed := by
    unfold Spoken.after Spoken.total
    cases final <;> simp
  have htotal : σ.total = σ.said ++ d.packed := by
    cases takes with
    | going draft => simp [Spoken.total, draft]
    | opening draft => simp [Spoken.total, draft, Draft.packed, Draft.text]
  rw [hafter, htotal, Draft.packed_add, List.append_assoc]

/-- The message an operation sends in one frame. -/
def Op.whole : Op → Option (Opcode × List UInt8)
  | .write op payload => some (op, payload)
  | .send op payload => some (op, payload)
  | .writePrepared p => some (p.op, p.payload)
  | .sendPrepared p => some (p.op, p.payload)
  | _ => none

/-- The control frame an operation sends. -/
def Op.control : Op → Option (Opcode × List UInt8)
  | .ping payload => some (.ping, payload)
  | .pong payload => some (.pong, payload)
  | .close code reason => some (.close, Sender.closePayload code reason)
  | .sendClose code => some (.close, Sender.closePayload code [])
  | _ => none

namespace WriteSide

/-- Where a connection stands in its speech : in no message, in one that is only begun, or in one
of which frames are written. -/
inductive Stands (c : WriteSide) (σ : Spoken) : Prop
  | idle (frag : c.frag.op = 0) (draft : σ.draft = none)
      (mid : ∀ x, c.comp.attached = some x → x.mid = false)
  | begun (frag : c.frag.op ≠ 0) (first : c.frag.first = true) (draft : σ.draft = none)
      (held : c.frag.compressed = true → ∃ x, c.comp.attached = some x ∧ x.mid = false)
  | amid {d : Draft} (frag : c.frag.op ≠ 0) (first : c.frag.first = false)
      (draft : σ.draft = some d) (op : d.op = c.frag.op) (compressed : d.compressed = c.frag.compressed)
      (held : c.frag.compressed = true → ∃ x, c.comp.attached = some x ∧ x.mid = true ∧
        x.kind = d.kind ∧ x.history = d.hist ++ d.text)

/-- The connection has said `σ`, and the peer can follow what it says next. -/
structure Abreast (reach : ℕ) (takeover : Bool) (c : WriteSide) (σ : Spoken) : Prop where
  sound : c.Sound
  bare : c.comp.config = none → c.comp.attached = none
  memory : c.comp.config.isSome = true → c.comp.Remembers reach takeover σ.total
  stands : c.Stands σ

/-- What an operation leads to, by what it says. -/
inductive Voices (D : Deflater) (reach : ℕ) (takeover : Bool) (c : WriteSide) (σ : Spoken) :
    Op → Except Err (Option Outgoing) × WriteSide → Prop
  | refused {o : Op} {e : Err} {c' : WriteSide} (abreast : c'.Abreast reach takeover σ)
      (frag : c'.frag = c.frag) : Voices D reach takeover c σ o (.error e, c')
  | dropped {code : UInt16} {c' : WriteSide} (abreast : c'.Abreast reach takeover σ)
      (frag : c'.frag = c.frag) : Voices D reach takeover c σ (.sendClose code) (.ok none, c')
  | begun {op : Opcode} {c' : WriteSide} (abreast : c'.Abreast reach takeover σ)
      (was : c.frag.op = 0) (op_eq : c'.frag.op = op) (op_ne : op ≠ 0) :
      Voices D reach takeover c σ (.beginMessage op) (.ok none, c')
  | message {o : Op} {op : Opcode} {p : List UInt8} {out : Outgoing} {c' : WriteSide} {σ' : Spoken}
      (whole : o.whole = some (op, p)) (was : c.frag.op = 0)
      (wrote : Wrote D reach takeover σ out.item σ')
      (abreast : (c'.finish out.after none).Abreast reach takeover σ')
      (frag : (c'.finish out.after none).frag.op = 0) (opcode : out.item.frame.opcode = op)
      (final : out.item.frame.final = true) (text : out.item.text = p) :
      Voices D reach takeover c σ o (.ok (some out), c')
  | chunk {p : Slice} {final : Bool} {out : Outgoing} {c' : WriteSide} {σ' : Spoken}
      (was : c.frag.op ≠ 0) (wrote : Wrote D reach takeover σ out.item σ')
      (abreast : (c'.finish out.after none).Abreast reach takeover σ')
      (frag : (c'.finish out.after none).frag.op = if final then 0 else c.frag.op)
      (opcode : out.item.frame.opcode = c.fragmentOp) (last : out.item.frame.final = final)
      (text : out.item.text = p) : Voices D reach takeover c σ (.fragment p final) (.ok (some out), c')
  | control {o : Op} {op : Opcode} {p : List UInt8} {out : Outgoing} {c' : WriteSide}
      (control : o.control = some (op, p)) (isControl : op.isControl = true)
      (abreast : (c'.finish out.after none).Abreast reach takeover σ)
      (frag : (c'.finish out.after none).frag = c.frag) (opcode : out.item.frame.opcode = op)
      (payload : out.item.frame.payload = p) : Voices D reach takeover c σ o (.ok (some out), c')

section Voices

variable {D : Deflater} {reach : ℕ} {takeover : Bool} {c : WriteSide} {σ : Spoken}

theorem Abreast.withTx (h : c.Abreast reach takeover σ) (tx : Sender) :
    Abreast reach takeover { c with tx := tx } σ where
  sound := ⟨h.sound.op, h.sound.compressed⟩
  bare := h.bare
  memory := h.memory
  stands := by
    cases h.stands with
    | idle frag draft mid => exact .idle frag draft mid
    | begun frag first draft held => exact .begun frag first draft held
    | amid frag first draft op compressed held => exact .amid frag first draft op compressed held

/-- In no message. -/
theorem Abreast.idle (h : c.Abreast reach takeover σ) (hfrag : c.frag.op = 0) : σ.draft = none ∧
    ∀ x, c.comp.attached = some x → x.mid = false := by
  cases h.stands with
  | idle _ draft mid => exact ⟨draft, mid⟩
  | begun frag => exact absurd hfrag frag
  | amid frag => exact absurd hfrag frag

/-- A message in one frame that is not compressed. -/
theorem wrote_plain (D : Deflater) (reach : ℕ) (takeover : Bool) (hdraft : σ.draft = none) {i : Item}
    (data : i.frame.opcode.isControl = false) (final : i.frame.final = true)
    (rsv1 : i.frame.rsv1 = false) (plain : i.plain = none) :
    ∃ σ', Wrote D reach takeover σ i σ' ∧ σ'.draft = none ∧ σ'.total = σ.total := by
  have takes : σ.Takes reach takeover i.frame ⟨i.frame.opcode, i.frame.rsv1, .level 0, [], []⟩ :=
    .opening hdraft fun h => absurd (rsv1.symm.trans h) Bool.false_ne_true
  refine ⟨_, ⟨takes, data, ?_⟩, ?_, ?_⟩
  · simp [Draft.payload, rsv1, Item.text, plain]
  · simp [Spoken.after, final]
  · rw [takes.total]
    simp [rsv1]

/-- A message in one frame that is compressed after `hist`. -/
theorem wrote_packed (hdraft : σ.draft = none) {i : Item} (data : i.frame.opcode.isControl = false)
    (final : i.frame.final = true) (rsv1 : i.frame.rsv1 = true) {p : List UInt8}
    (plain : i.plain = some p) {kind : EncoderKind} {hist : List UInt8} (hreach : kind.window = reach)
    (recent : lastN reach hist <:+ if takeover then σ.total else [])
    (payload : i.frame.payload = D.last kind hist p) :
    ∃ σ', Wrote D reach takeover σ i σ' ∧ σ'.draft = none ∧ σ'.total = σ.total ++ p := by
  have htotal : σ.total = σ.said := by simp [Spoken.total, hdraft]
  rw [htotal] at recent
  have takes : σ.Takes reach takeover i.frame ⟨i.frame.opcode, i.frame.rsv1, kind, hist, []⟩ :=
    .opening hdraft fun _ => ⟨hreach, recent⟩
  have htext : i.text = p := by simp [Item.text, plain]
  refine ⟨_, ⟨takes, data, ?_⟩, ?_, ?_⟩
  · simp [Draft.payload, rsv1, Deflater.chunk, final, htext, Draft.text, payload]
  · simp [Spoken.after, final]
  · rw [takes.total]
    simp [rsv1, htext]

/-- What `packFragment` makes of the next chunk of the message `d`. -/
structure Packs (D : Deflater) (reach : ℕ) (takeover : Bool) (c : WriteSide) (σ : Spoken)
    (p : List UInt8) (final : Bool) (d : Draft) (out : List UInt8 × CompressorContext) : Prop where
  takes : σ.Takes reach takeover (c.tx.frame c.fragmentOp final out.1 c.frag.compressed) d
  op : d.op = c.frag.op
  compressed : d.compressed = c.frag.compressed
  payload : out.1 = d.payload D final p
  config : out.2.config = c.comp.config
  memory : c.comp.config.isSome = true →
    out.2.Remembers reach takeover (σ.total ++ if d.compressed then p else [])
  held : c.frag.compressed = true → ∃ x, out.2.attached = some x ∧ x.mid = !final ∧
    x.kind = d.kind ∧ x.history = d.hist ++ (d.add p).text
  bare : c.frag.compressed = false → out.2.attached = none

/-- A chunk of a message that is not compressed. -/
theorem packFragment_plain (h : c.Abreast reach takeover σ) (hfrag : c.frag.op ≠ 0)
    (hcomp : c.frag.compressed = false) (p : List UInt8) (final : Bool) :
    ∃ d, Packs D reach takeover c σ p final d (c.packFragment D p final) := by
  have hconfig : c.comp.config = none := by
    have := (h.sound.compressed hfrag).symm.trans hcomp
    simpa using this
  have hsome : ¬c.comp.config.isSome = true := by simp [hconfig]
  have hpack : c.packFragment D p final = (p, c.comp) := if_neg (by rw [hcomp]; decide)
  rw [hpack]
  cases h.stands with
  | idle frag => exact absurd frag hfrag
  | begun frag first draft held =>
    have hop : c.fragmentOp = c.frag.op := if_pos first
    refine ⟨⟨c.fragmentOp, false, .level 0, [], []⟩, ?_, hop, hcomp.symm, rfl, rfl,
      fun h0 => absurd h0 hsome, fun h0 => ?_, fun _ => h.bare hconfig⟩
    · rw [Sender.frame, hcomp]
      exact .opening draft fun h0 => by cases h0
    · cases hcomp.symm.trans h0
  | @amid d frag first draft op compressed held =>
    refine ⟨d, .going draft, op, compressed, ?_, rfl, fun h0 => absurd h0 hsome, fun h0 => ?_,
      fun _ => h.bare hconfig⟩
    · simp [Draft.payload, compressed, hcomp]
    · cases hcomp.symm.trans h0

/-- A chunk of a compressed message. -/
theorem packFragment_packed (h : c.Abreast reach takeover σ) (hlt : c.comp.changes < 2 ^ 64)
    (hfrag : c.frag.op ≠ 0) (hcomp : c.frag.compressed = true) (p : List UInt8) (final : Bool) :
    ∃ d, Packs D reach takeover c σ p final d (c.packFragment D p final) := by
  have hmem := h.memory ((h.sound.compressed hfrag).symm.trans hcomp)
  have hpack : c.packFragment D p final = c.comp.compressFragment D p final := if_pos hcomp
  have hconfig := c.comp.config_compressFragment D p final
  rw [hpack]
  cases h.stands with
  | idle frag => exact absurd frag hfrag
  | begun frag first draft held =>
    obtain ⟨x, hx, hm⟩ := held hcomp
    obtain ⟨hist, hchunk⟩ := hmem.compressFragment hx hlt D p final
    obtain ⟨x', hx', hkind, hhist, hmid⟩ := hchunk.attached
    have hop : c.fragmentOp = c.frag.op := if_pos first
    have hrsv : (c.frag.op != Opcode.continuation) = true := by
      rcases h.sound.op.resolve_left hfrag with h0 | h0 <;> rw [h0] <;> rfl
    have htotal : σ.total = σ.said := by simp [Spoken.total, draft]
    refine ⟨⟨c.frag.op, true, x.kind, hist, []⟩, ?_, rfl, hcomp.symm, ?_, hconfig,
      fun _ => hchunk.remembers, fun _ => ⟨x', hx', hmid, hkind, ?_⟩, fun h0 => ?_⟩
    · rw [Sender.frame, hcomp, hop, hrsv]
      refine .opening draft fun _ => ⟨hchunk.kind, ?_⟩
      rw [← htotal]
      exact hchunk.opening hm
    · rw [hchunk.output]
      simp [Draft.payload, Draft.text]
    · rw [hhist]
      simp [Draft.text, Draft.add]
    · cases hcomp.symm.trans h0
  | @amid d frag first draft op compressed held =>
    obtain ⟨x, hx, hm, hk, hh⟩ := held hcomp
    obtain ⟨hist, hchunk⟩ := hmem.compressFragment hx hlt D p final
    obtain ⟨x', hx', hkind, hhist, hmid⟩ := hchunk.attached
    rw [hchunk.going hm, hh] at hhist
    refine ⟨d, .going draft, op, compressed, ?_, hconfig, fun _ => ?_,
      fun _ => ⟨x', hx', hmid, hkind.trans hk, ?_⟩, fun h0 => ?_⟩
    · rw [hchunk.output, hchunk.going hm, hh, hk, Draft.payload, if_pos (compressed.trans hcomp)]
    · rw [if_pos (compressed.trans hcomp)]
      exact hchunk.remembers
    · rw [hhist, Draft.text_add, List.append_assoc]
    · cases hcomp.symm.trans h0

/-- At the end of a message the compressor stays, or is released. -/
theorem endFragmented_comp (c : WriteSide) : c.endFragmented.comp = c.comp ∨
    c.endFragmented.comp = c.comp.releaseCompressor := by
  unfold endFragmented
  dsimp only
  split_ifs
  · exact Or.inr rfl
  · exact Or.inl rfl
  · exact Or.inl rfl

/-- The end of a message that no compressor is in any more. -/
theorem abreast_endFragmented (hbare : c.comp.config = none → c.comp.attached = none)
    (hmem : c.comp.config.isSome = true → c.comp.Remembers reach takeover σ.total)
    (hmid : ∀ x, c.comp.attached = some x → x.mid = false) (hdraft : σ.draft = none) :
    c.endFragmented.Abreast reach takeover σ := by
  have hop := c.endFragmented_spec.1
  have hreleased : c.comp.releaseCompressor.attached = none := by
    unfold CompressorContext.releaseCompressor
    cases ha : c.comp.attached <;> simp [ha]
  refine ⟨c.endFragmented_sound.1, ?_, ?_, .idle hop hdraft ?_⟩
  all_goals rcases c.endFragmented_comp with hsame | hsame <;> rw [hsame]
  · exact hbare
  · exact fun _ => hreleased
  · exact hmem
  · rw [c.comp.config_releaseCompressor]
    exact fun hc => (hmem hc).releaseCompressor
  · exact hmid
  · exact fun x hx => by cases hreleased.symm.trans hx

section Open

variable (h : c.Abreast reach takeover σ) (hopen : c.tx.closeSent = false)
include h hopen

theorem encodePlain_voices {o : Op} {op : Opcode} {p : List UInt8} (whole : o.whole = some (op, p))
    (hop : op = .text ∨ op = .binary) (hfrag : c.frag.op = 0) :
    Voices D reach takeover c σ o ((c.encodePlain op p).map (·.map some) id) := by
  obtain ⟨hdraft, hmid⟩ := h.idle hfrag
  have hdata : op.isControl = false := by rcases hop with rfl | rfl <;> rfl
  rw [encodePlain, Sender.encode, Sender.encodeMessage_data hop, hopen]
  obtain ⟨σ', wrote, hdraft', htotal⟩ := wrote_plain D reach takeover hdraft
    (i := { frame := c.tx.frame op true p false }) hdata rfl rfl rfl
  refine .message whole hfrag wrote ⟨⟨h.sound.op, h.sound.compressed⟩, h.bare, ?_, ?_⟩ hfrag rfl rfl rfl
  · rw [htotal]
    exact h.memory
  · exact .idle hfrag hdraft' hmid

theorem encodePacked_voices {o : Op} {op : Opcode} {p : List UInt8} (whole : o.whole = some (op, p))
    (hop : op = .text ∨ op = .binary) (hfrag : c.frag.op = 0) {comp : Compression}
    (hcomp : c.comp.config = some comp) (hlt : c.comp.changes < 2 ^ 64) :
    Voices D reach takeover c σ o ((c.encodePacked D comp op p).map (·.map some) id) := by
  obtain ⟨hdraft, hmid⟩ := h.idle hfrag
  have hmem := h.memory (by rw [hcomp]; rfl)
  have hdata : op.isControl = false := by rcases hop with rfl | rfl <;> rfl
  have hrsv : (op != Opcode.continuation) = true := by rcases hop with rfl | rfl <;> rfl
  obtain ⟨hreach, hrecent⟩ := hmem.start hcomp hmid hlt
  have hout := compress_out D c.comp comp p
  have hconfig := (c.comp.config_compress D comp p).trans hcomp
  simp only [encodePacked, Sender.encodeCompressed_data hop, hopen]
  obtain ⟨σ', wrote, hdraft', htotal⟩ := wrote_packed (D := D) hdraft
    (i := ⟨c.tx.frame op true (c.comp.compress D comp p).1 true, some p⟩) hdata rfl
    (by simp [Sender.frame, hrsv]) rfl hreach hrecent hout
  refine .message whole hfrag wrote ⟨⟨Or.inl hfrag, fun h0 => absurd hfrag h0⟩, ?_, fun _ => ?_, ?_⟩
    hfrag rfl rfl rfl
  · exact fun hnone => by cases hconfig.symm.trans hnone
  · rw [htotal]
    exact hmem.compress hcomp hmid hlt D p
  · exact .idle hfrag hdraft' (mid_compress D c.comp comp p)

theorem write_voices {o : Op} {op : Opcode} {p : List UInt8} (whole : o.whole = some (op, p))
    (hlt : c.comp.changes < 2 ^ 64) (reserve : ℕ → Option Err) :
    Voices D reach takeover c σ o ((c.write D reserve op p).map (·.map some) id) := by
  unfold write
  split_ifs with hop hfrag
  · exact .refused h rfl
  · exact .refused h rfl
  · have hdata : op = .text ∨ op = .binary := by tauto
    have hfrag : c.frag.op = 0 := by simpa using hfrag
    cases reserve p.length with
    | some e => exact .refused h rfl
    | none =>
      unfold encodeData
      cases hcomp : c.comp.config with
      | none => exact encodePlain_voices h hopen whole hdata hfrag
      | some comp =>
        dsimp only
        split_ifs
        · exact encodePlain_voices h hopen whole hdata hfrag
        · exact encodePacked_voices h hopen whole hdata hfrag hcomp hlt

omit hopen in
theorem preparedFrame_voices {o : Op} {p : Prepared} (whole : o.whole = some (p.op, p.payload.val)) :
    Voices D reach takeover c σ o ((c.preparedFrame D p).map (·.map some) id) := by
  have hdata : p.op.isControl = false := by rcases p.data with h0 | h0 <;> rw [h0] <;> rfl
  unfold preparedFrame
  split_ifs with hfrag hclose
  · exact .refused h rfl
  · exact .refused h rfl
  · have hfrag : c.frag.op = 0 := by simpa using hfrag
    obtain ⟨hdraft, hmid⟩ := h.idle hfrag
    -- The plain frame leaves the history alone.
    have hplain : Voices D reach takeover c σ o
        (.ok (some { item := { frame := ⟨true, false, p.op, none, p.payload⟩ }, ext := some p.frame }),
          c) := by
      obtain ⟨σ', wrote, hdraft', htotal⟩ := wrote_plain D reach takeover hdraft
        (i := { frame := ⟨true, false, p.op, none, p.payload⟩ }) hdata rfl rfl rfl
      refine .message whole hfrag wrote ⟨h.sound, h.bare, ?_, ?_⟩ hfrag rfl rfl rfl
      · rw [htotal]
        exact h.memory
      · exact .idle hfrag hdraft' hmid
    unfold frameFor
    cases hcomp : c.comp.config with
    | none =>
      simp only [notePrepared_false]
      exact hplain
    | some comp =>
      dsimp only
      split_ifs
      · simp only [notePrepared_false]
        exact hplain
      · have hmem := h.memory (by rw [hcomp]; rfl)
        have hrecent : lastN reach [] <:+ if takeover then σ.total else [] := by
          rw [lastN_nil]
          exact List.nil_suffix
        have hlast : p.compressed D comp = D.last (.ofConfig comp) [] p.payload := rfl
        obtain ⟨σ', wrote, hdraft', htotal⟩ := wrote_packed (D := D) hdraft
          (i := ⟨p.variant D comp, some p.payload⟩) hdata rfl rfl rfl (hmem.kind_window hcomp) hrecent hlast
        obtain ⟨hfixed, hsame, htx⟩ := c.notePrepared_spec p true
        have hattached : (c.notePrepared p true).comp.attached = c.comp.attached := by
          unfold notePrepared
          cases c.comp.window with
          | none => rfl
          | some w => exact c.comp.notePrepared_attached w p.payload
        have hfrag' : (c.notePrepared p true).frag.op = 0 := by rw [hsame, hfrag]
        refine .message whole hfrag wrote ⟨⟨Or.inl hfrag', fun h0 => absurd hfrag' h0⟩, ?_, fun _ => ?_,
          .idle hfrag' hdraft' ?_⟩ hfrag' rfl rfl rfl
        · exact fun hnone => by cases (hfixed.config.trans hcomp).symm.trans hnone
        · rw [htotal]
          show (c.notePrepared p true).comp.Remembers _ _ _
          unfold notePrepared
          cases hw : c.comp.window with
          | none => exact hmem.forget hw _
          | some w => exact hmem.notePrepared hw hmid p.payload
        · exact fun x hx => hmid x (hattached.symm.trans hx)

theorem writePrepared_voices {o : Op} {p : Prepared} (whole : o.whole = some (p.op, p.payload.val))
    (hlt : c.comp.changes < 2 ^ 64) (reserve : ℕ → Option Err) :
    Voices D reach takeover c σ o ((c.writePrepared D reserve p).map (·.map some) id) := by
  unfold writePrepared
  split_ifs
  · exact write_voices h hopen whole hlt reserve
  · cases reserve p.payload.val.length with
    | some e => exact .refused h rfl
    | none => exact preparedFrame_voices h whole

omit hopen in
theorem beginMessage_voices (op : Opcode) :
    Voices D reach takeover c σ (.beginMessage op) ((c.beginMessage op).map (·.map fun _ => none) id) := by
  unfold beginMessage
  split_ifs with hop hfrag
  · exact .refused h rfl
  · exact .refused h rfl
  · exact .refused h rfl
  · have hfrag : c.frag.op = 0 := by simpa using hfrag
    have hdata : op = .text ∨ op = .binary := by tauto
    have hne : op ≠ 0 := by rcases hdata with rfl | rfl <;> decide
    obtain ⟨hdraft, hmid⟩ := h.idle hfrag
    cases hcomp : c.comp.config with
    | none =>
      refine .begun ⟨⟨Or.inr hdata, fun _ => ?_⟩, h.bare, h.memory, .begun hne rfl hdraft ?_⟩ hfrag rfl hne
      · exact (congrArg Option.isSome hcomp).symm
      · exact fun hc => by cases hc
    | some comp =>
      obtain ⟨hmem, hheld⟩ := (h.memory (by rw [hcomp]; rfl)).hold hcomp hmid
      have hconfig := (c.comp.config_hold comp).trans hcomp
      refine .begun ⟨⟨Or.inr hdata, fun _ => ?_⟩, ?_, fun _ => hmem, .begun hne rfl hdraft fun _ => hheld⟩
        hfrag rfl hne
      · exact (congrArg Option.isSome hconfig).symm
      · exact fun hnone => by cases hconfig.symm.trans hnone

theorem fragment_voices (hlt : c.comp.changes < 2 ^ 64) (p : Slice) (final : Bool) :
    Voices D reach takeover c σ (.fragment p final) ((c.fragment D p final).map (·.map some) id) := by
  by_cases hfrag : c.frag.op = 0
  · rw [fragment, if_pos hfrag]
    exact .refused h rfl
  · have hdata := fragmentOp_data h.sound hfrag
    have hctl : c.fragmentOp.isControl = false := by
      rcases hdata with h0 | h0 | h0 <;> rw [h0] <;> rfl
    have hpacks : ∃ d, Packs D reach takeover c σ p final d (c.packFragment D p final) := by
      cases hc : c.frag.compressed with
      | false => exact packFragment_plain h hfrag hc p final
      | true => exact packFragment_packed h hlt hfrag hc p final
    obtain ⟨d, hpacks⟩ := hpacks
    have hsound := h.sound
    rw [fragment, if_neg hfrag]
    generalize c.packFragment D p final = res at hpacks
    obtain ⟨packed, x⟩ := res
    simp only [Sender.encodeFragment_data hdata, hopen]
    have htext : Item.text ⟨c.tx.frame c.fragmentOp final packed c.frag.compressed,
        if c.frag.compressed then some p.val else none⟩ = p.val := by
      have hpayload := hpacks.payload
      cases hc : c.frag.compressed with
      | false => simpa [Item.text, Sender.frame, Draft.payload, hpacks.compressed, hc] using hpayload
      | true => simp [Item.text]
    have wrote : Wrote D reach takeover σ ⟨c.tx.frame c.fragmentOp final packed c.frag.compressed,
        if c.frag.compressed then some p.val else none⟩ (σ.after d final p) := by
      have hmk := Wrote.mk (i := ⟨c.tx.frame c.fragmentOp final packed c.frag.compressed,
        if c.frag.compressed then some p.val else none⟩) hpacks.takes hctl
        (by rw [htext]; exact hpacks.payload)
      rw [htext] at hmk
      exact hmk
    have htotal := hpacks.takes.total final p.val
    have hbare : x.config = none → x.attached = none := fun hnone => hpacks.bare (by
      rw [hsound.compressed hfrag, ← hpacks.config, hnone]
      rfl)
    have hmem : x.config.isSome = true → x.Remembers reach takeover (σ.after d final p).total := by
      rw [hpacks.config, htotal]
      exact hpacks.memory
    cases final with
    | true =>
      refine .chunk hfrag wrote ?_ (endFragmented_spec _).1 rfl rfl htext
      refine abreast_endFragmented hbare hmem (fun y hy => ?_) rfl
      cases hc : c.frag.compressed with
      | false => cases (hpacks.bare hc).symm.trans hy
      | true =>
        obtain ⟨z, hz, hmid, -, -⟩ := hpacks.held hc
        cases hz.symm.trans hy
        exact hmid
    | false =>
      refine .chunk hfrag wrote ⟨⟨hsound.op, fun _ => ?_⟩, hbare, hmem, ?_⟩ rfl rfl rfl htext
      · exact (hsound.compressed hfrag).trans (congrArg Option.isSome hpacks.config.symm)
      · exact .amid hfrag rfl rfl hpacks.op hpacks.compressed hpacks.held

/-- A control frame of the connection. -/
theorem control_voices {o : Op} {op : Opcode} {p : List UInt8} (control : o.control = some (op, p))
    (hop : op = .ping ∨ op = .pong) :
    Voices D reach takeover c σ o ((c.control op p).map (·.map some) id) := by
  have hctl : op.isControl = true := by rcases hop with rfl | rfl <;> rfl
  rw [WriteSide.control, Sender.encode_ping hop]
  split_ifs
  · exact .refused h rfl
  · exact .refused h rfl
  · exact .control control hctl (h.withTx _) rfl rfl rfl

omit hopen in
theorem close_voices {o : Op} {code : UInt16} {reason : List UInt8}
    (control : o.control = some (.close, Sender.closePayload code reason)) :
    Voices D reach takeover c σ o ((c.close code reason).map (·.map some) id) := by
  rw [close, Sender.encodeClose_eq]
  split_ifs
  · rw [Sender.encode_close]
    split_ifs
    · exact .refused h rfl
    · cases validateClose (Sender.closePayload code reason) with
      | error e => exact .refused h rfl
      | ok u => exact .control control rfl (h.withTx _) rfl rfl rfl
  · exact .refused h rfl

omit hopen in
theorem sendClose_voices (code : UInt16) :
    Voices D reach takeover c σ (.sendClose code) ((c.sendClose code).map .ok id) := by
  unfold sendClose
  split_ifs
  · exact .dropped h rfl
  · have hcontrol : (Op.sendClose code).control = some (.close, Sender.closePayload code []) := rfl
    have hclose := close_voices (D := D) h hcontrol
    generalize c.close code [] = r at hclose
    obtain ⟨res, c'⟩ := r
    cases res with
    | error e =>
      cases hclose with
      | refused abreast frag => exact .dropped abreast frag
    | ok out => exact hclose

/-- Every operation keeps the connection in its speech. -/
theorem start_voices (hlt : c.comp.changes < 2 ^ 64) (reserve : ℕ → Option Err) (o : Op) :
    Voices D reach takeover c σ o (c.start D reserve o) := by
  cases o with
  | write op payload => exact write_voices h hopen (o := .write op payload) rfl hlt fun _ => none
  | beginMessage op => exact beginMessage_voices h op
  | fragment payload final => exact fragment_voices h hopen hlt payload final
  | writePrepared p => exact writePrepared_voices h hopen (o := .writePrepared p) rfl hlt fun _ => none
  | send op payload => exact write_voices h hopen rfl hlt reserve
  | sendPrepared p => exact writePrepared_voices h hopen rfl hlt reserve
  | ping payload => exact control_voices h hopen rfl (Or.inl rfl)
  | pong payload => exact control_voices h hopen rfl (Or.inr rfl)
  | close code reason => exact close_voices h rfl
  | sendClose code => exact sendClose_voices h code

end Open

end Voices

end WriteSide

end Ews
