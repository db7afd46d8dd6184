import Ews.Changes
import Ews.Packing

/-!
# The history of the send direction

On a connection with a send window the window and the payloads that are pending hold the end of
what was sent compressed, in the order in which it comes to the wire. `WriteSide.Tracks` says so
of the write side, `start_tracks` that an operation keeps it, and `send_history` that it holds
between the operations of every run that meets no fault.
-/

set_option linter.unusedSectionVars false

namespace Ews

open Bytes

/-- The operation sends messages or pings : it is no close. -/
def Op.sends : Op → Bool
  | .close _ _ => false
  | .sendClose _ => false
  | _ => true

/-- The step is no close. -/
def Act.sends : Act → Bool
  | .start o => o.sends
  | _ => true

namespace WriteSide

/-- The context holds the end of `sent`. A compressor is in a message only while one is open,
`closing` being the encoding of its last frame, and an open message has a compressor. -/
structure Tracks (c : WriteSide) (w : Window) (sent : List UInt8) (closing : Bool) : Prop where
  follows : c.comp.Follows w sent
  idle : c.frag.op = 0 ∨ closing = true → ∀ x, c.comp.attached = some x → x.mid = false
  held : c.frag.op ≠ 0 → c.comp.attached.isSome = true

/-- The history with which the encoder goes on in an open message. -/
def chunkHistory (c : WriteSide) : List UInt8 :=
  match c.comp.attached with
  | some x => (x.prime c.comp.applyPending.window).history
  | none => []

/-- A history that ends with what was sent, up to the size of the window. -/
theorem Tracks.chunk {c : WriteSide} {w : Window} {sent : List UInt8} {closing : Bool}
    (h : c.Tracks w sent closing) (hlt : c.comp.changes < 2 ^ 64) (hfrag : c.frag.op ≠ 0) :
    lastN w.size sent <:+ c.chunkHistory := by
  obtain ⟨x, hx⟩ := Option.isSome_iff_exists.mp (h.held hfrag)
  have happ := h.follows.applyPending
  have hdict := happ.dict_eq rfl
  rw [Window.size_adds] at hdict
  rw [h.follows.changes_eq] at hlt
  rw [chunkHistory, hx, ← hdict, happ.window]
  exact (happ.keeps x hx).suffix_prime hlt

/-- What the encoder emits for a message is determined by its kind, the history with which it
starts and the payload. -/
theorem compress_out (D : Deflater) (x : CompressorContext) (comp : Compression)
    (payload : List UInt8) :
    let output := D.out (x.applyPending.compressorFor comp).1.1.kind (x.startHistory comp) payload
    (x.compress D comp payload).1 = output.take (output.length - 4) := by
  have hwindow := (x.applyPending.compressorFor_same comp).1
  simp only [CompressorContext.compress, CompressorContext.startHistory, Compressor.compressChunk,
    if_true, hwindow, Compressor.kind_prime]

/-- What an operation leads to, by what it says compressed. -/
inductive Said (w : Window) (sent : List UInt8) : Except Err (Option Outgoing) × WriteSide → Prop
  | refused {e : Err} {c : WriteSide} (tracks : c.Tracks w sent false) : Said w sent (.error e, c)
  | silent {c : WriteSide} (tracks : c.Tracks w sent false) : Said w sent (.ok none, c)
  | frame {out : Outgoing} {c : WriteSide} {w' : Window} (size : w'.size = w.size)
      (unclosed : c.tx.closeSent = false)
      (tracks : c.Tracks w' (sent ++ out.item.said) (out.after == .fragment true)) :
      Said w sent (.ok (some out), c)

section Said

variable {c : WriteSide} {w : Window} {sent : List UInt8} (h : c.Tracks w sent false)
include h

/-- A frame that says nothing compressed. -/
theorem Tracks.plain {tx : Sender} {out : Outgoing} (hopen : tx.closeSent = false)
    (hplain : out.item.plain = none) (hafter : out.after = .nothing) :
    Said w sent (.ok (some out), { c with tx := tx }) := by
  refine .frame rfl hopen ?_
  rw [Item.said, hplain, hafter, Option.getD_none, List.append_nil]
  exact ⟨h.follows, fun ho => h.idle (ho.imp_right fun h => by cases h), h.held⟩

theorem encodePlain_said {op : Opcode} (payload : List UInt8) (hop : op = .text ∨ op = .binary)
    (hopen : c.tx.closeSent = false) :
    Said w sent ((c.encodePlain op payload).map (·.map some) id) := by
  rw [encodePlain, Sender.encode, Sender.encodeMessage_data hop, hopen]
  exact h.plain (by simpa using hopen) rfl rfl

omit h in
/-- A compressor that has finished a message is in none. -/
theorem mid_compress (D : Deflater) (x : CompressorContext) (comp : Compression)
    (payload : List UInt8) : ∀ y, (x.compress D comp payload).2.attached = some y → y.mid = false := by
  simp only [CompressorContext.compress]
  have hnone := x.applyPending.compressorFor_lent comp
  generalize x.applyPending.compressorFor comp = r at hnone
  obtain ⟨⟨c, shared⟩, y⟩ := r
  cases shared with
  | true => exact fun z hz => by cases (hnone rfl).symm.trans hz
  | false =>
    rintro z ⟨⟩
    rfl

theorem encodePacked_said (D : Deflater) {comp : Compression} (hcomp : c.comp.config = some comp)
    (hlt : c.comp.changes < 2 ^ 64) {op : Opcode} (payload : List UInt8)
    (hop : op = .text ∨ op = .binary) (hfrag : c.frag.op = 0) (hopen : c.tx.closeSent = false) :
    Said w sent ((c.encodePacked D comp op payload).map (·.map some) id) := by
  obtain ⟨w', hsize, hfollows⟩ := h.follows.compress hcomp hlt D payload
  have hmid := mid_compress D c.comp comp payload
  simp only [encodePacked, Sender.encodeCompressed_data hop, hopen]
  exact .frame hsize (by simpa using hopen) ⟨hfollows, fun _ => hmid, fun h0 => absurd hfrag h0⟩

theorem write_said (D : Deflater) {comp : Compression} (hcomp : c.comp.config = some comp)
    (hlt : c.comp.changes < 2 ^ 64) (reserve : ℕ → Option Err) (op : Opcode) (payload : List UInt8)
    (hopen : c.tx.closeSent = false) :
    Said w sent ((c.write D reserve op payload).map (·.map some) id) := by
  unfold write
  split_ifs with hop hfrag
  · exact .refused h
  · exact .refused h
  · have hdata : op = .text ∨ op = .binary := by tauto
    cases reserve payload.length with
    | some e => exact .refused h
    | none =>
      simp only [encodeData, hcomp]
      split_ifs
      · exact encodePlain_said h payload hdata hopen
      · exact encodePacked_said h D hcomp hlt payload hdata (by simpa using hfrag) hopen

theorem beginMessage_said {comp : Compression} (hcomp : c.comp.config = some comp) (op : Opcode) :
    Said w sent ((c.beginMessage op).map (·.map fun _ => none) id) := by
  unfold beginMessage
  split_ifs
  · exact .refused h
  · exact .refused h
  · exact .refused h
  · obtain ⟨hfollows, hsome⟩ := h.follows.hold hcomp
    simp only [hcomp]
    refine .silent ⟨hfollows, ?_, fun _ => hsome⟩
    rintro (h0 | h0)
    · have hop : op = .text ∨ op = .binary := by tauto
      have h0 : op = 0 := h0
      rcases hop with hop | hop <;> rw [hop] at h0 <;> exact absurd h0 (by decide)
    · cases h0

theorem fragment_said (D : Deflater) {comp : Compression} (hcomp : c.comp.config = some comp)
    (hlt : c.comp.changes < 2 ^ 64) (hsound : c.Sound) (payload : List UInt8) (final : Bool)
    (hopen : c.tx.closeSent = false) :
    Said w sent ((c.fragment D payload final).map (·.map some) id) := by
  by_cases hfrag : c.frag.op = 0
  · rw [fragment, if_pos hfrag]
    exact .refused h
  · have hdata := fragmentOp_data hsound hfrag
    have hpacked : c.frag.compressed = true := (hsound.compressed hfrag).trans (by rw [hcomp]; rfl)
    obtain ⟨x, hx⟩ := Option.isSome_iff_exists.mp (h.held hfrag)
    obtain ⟨w', hsize, hfollows, hsome⟩ := h.follows.compressFragment hx hlt D payload final
    have hmid : ∀ y, (c.comp.compressFragment D payload final).2.attached = some y →
        y.mid = !final := by
      have hattached : c.comp.applyPending.attached = some x := hx
      simp only [CompressorContext.compressFragment, hattached]
      rintro y ⟨⟩
      rfl
    rw [fragment, if_neg hfrag]
    simp only [packFragment, hpacked, if_true, Sender.encodeFragment_data hdata, hopen]
    refine .frame hsize (by simpa using hopen) ⟨hfollows, ?_, fun _ => hsome⟩
    rintro (h0 | h0) y hy
    · exact absurd h0 hfrag
    · have hfinal : final = true := by simpa using h0
      rw [hmid y hy, hfinal]
      rfl

/-- A prepared message is recorded if its compressed variant is sent. -/
theorem preparedFrame_said (D : Deflater) {comp : Compression} (hcomp : c.comp.config = some comp)
    (p : Prepared) : Said w sent ((c.preparedFrame D p).map (·.map some) id) := by
  unfold preparedFrame
  split_ifs with hfrag hopen
  · exact .refused h
  · exact .refused h
  · have hop : c.frag.op = 0 := by simpa using hfrag
    have hmid := h.idle (Or.inl hop)
    simp only [frameFor, hcomp]
    split_ifs
    · simp only [notePrepared_false]
      exact h.plain (by simpa using hopen) rfl rfl
    · obtain ⟨w', hsize, hfollows⟩ := h.follows.notePrepared hmid p.payload
      simp only [notePrepared, h.follows.window]
      refine .frame hsize (by simpa using hopen) ⟨hfollows, fun _ => ?_, fun h0 => absurd hop h0⟩
      exact fun y hy => hmid y ((c.comp.notePrepared_attached w p.payload).symm.trans hy)

theorem writePrepared_said (D : Deflater) {comp : Compression} (hcomp : c.comp.config = some comp)
    (hlt : c.comp.changes < 2 ^ 64) (reserve : ℕ → Option Err) (p : Prepared)
    (hopen : c.tx.closeSent = false) :
    Said w sent ((c.writePrepared D reserve p).map (·.map some) id) := by
  unfold writePrepared
  split_ifs
  · exact write_said h D hcomp hlt reserve p.op p.payload hopen
  · cases reserve p.payload.val.length with
    | some e => exact .refused h
    | none => exact preparedFrame_said h D hcomp p

theorem control_said {op : Opcode} (hop : op = .ping ∨ op = .pong) (payload : List UInt8)
    (hopen : c.tx.closeSent = false) :
    Said w sent ((c.control op payload).map (·.map some) id) := by
  rw [control, Sender.encode_ping hop]
  split_ifs
  · exact .refused h
  · exact .refused h
  · exact h.plain (by simpa using hopen) rfl rfl

/-- What an operation says compressed is added to the history. -/
theorem start_said (D : Deflater) {comp : Compression} (hcomp : c.comp.config = some comp)
    (hlt : c.comp.changes < 2 ^ 64) (hsound : c.Sound) (hopen : c.tx.closeSent = false)
    (reserve : ℕ → Option Err) {o : Op} (hsends : o.sends = true) :
    Said w sent (c.start D reserve o) := by
  cases o with
  | write op payload => exact write_said h D hcomp hlt (fun _ => none) op payload hopen
  | beginMessage op => exact beginMessage_said h hcomp op
  | fragment payload final => exact fragment_said h D hcomp hlt hsound payload final hopen
  | writePrepared p => exact writePrepared_said h D hcomp hlt (fun _ => none) p hopen
  | send op payload => exact write_said h D hcomp hlt reserve op payload hopen
  | sendPrepared p => exact writePrepared_said h D hcomp hlt reserve p hopen
  | ping payload => exact control_said h (Or.inl rfl) payload hopen
  | pong payload => exact control_said h (Or.inr rfl) payload hopen
  | close code reason => cases hsends
  | sendClose code => cases hsends

end Said

/-- The end of an operation, its frame being handed over. -/
theorem Tracks.finish {c : WriteSide} {w : Window} {sent : List UInt8} {after : After}
    (h : c.Tracks w sent (after == .fragment true)) : (c.finish after none).Tracks w sent false := by
  have hend : ∀ {c : WriteSide}, c.Tracks w sent true → c.endFragmented.Tracks w sent false := by
    intro c h
    have hop := c.endFragmented_spec.1
    refine ⟨?_, fun _ => ?_, fun h0 => absurd hop h0⟩
    · unfold endFragmented
      dsimp only
      split_ifs
      · exact h.follows.releaseCompressor
      · exact h.follows
      · exact h.follows
    · have hmid := h.idle (Or.inr rfl)
      unfold endFragmented
      dsimp only
      split_ifs
      · intro y hy
        dsimp only [CompressorContext.releaseCompressor] at hy
        cases ha : c.comp.attached with
        | none => simp [ha] at hy
        | some x => simp [ha] at hy
      · exact hmid
      · exact hmid
  cases after with
  | nothing => exact ⟨h.follows, fun ho => h.idle (ho.imp_right fun h => by cases h), h.held⟩
  | fragment final =>
    cases final with
    | true => exact hend ⟨h.follows, h.idle, h.held⟩
    | false => exact ⟨h.follows, fun ho => h.idle (ho.imp_right fun h => by cases h), h.held⟩

end WriteSide

namespace Shared

variable {D : Deflater} {s s' : Shared} {a : Act} {comp : Compression} {n : ℕ}

/-- What was sent compressed, in the order in which it comes to the wire. -/
def said (s : Shared) : List UInt8 :=
  s.order.flatMap Item.said

/-- The holder of `wmu` has encoded the last frame of a message. -/
def closing (s : Shared) : Bool :=
  s.wmu.any fun h => h.out.after == .fragment true

/-- The write side, with a window of size `n`, tracks what was said. -/
structure Historic (s : Shared) (comp : Compression) (n : ℕ) : Prop where
  config : s.conn.comp.config = some comp
  unclosed : s.conn.tx.closeSent = false
  tracks : ∃ w, w.size = n ∧ s.conn.Tracks w s.said s.closing

/-- Frames that go ahead say nothing. -/
theorem said_eq (hgood : Good s) (hs : Smooth s) (hstep : Step D s a s')
    (hact : ∀ o, a ≠ .start o) : s'.said = s.said := by
  cases step_order hs hgood hstep with
  | same order => rw [said, order, said]
  | encode act => exact absurd act (hact _)
  | @ahead g before wmu queued _ old order =>
    rw [said, said, order, old]
    cases hq : s.queue with
    | none => simp [hgood.backlog_bare hq]
    | some q =>
      have hcontrol := hgood.direct g wmu queued (by rw [hq]; rfl)
      simp [Item.said, hcontrol.plain]

theorem Historic.start (h : Historic s comp n) (hlt : s.conn.comp.changes < 2 ^ 64) (hgood : Good s)
    {o : Op} (hsends : o.sends = true) (hstep : Step D s (.start o) s') : Historic s' comp n := by
  obtain ⟨w, hsize, htracks⟩ := h.tracks
  have hfree : s.wmu = none → s.closing = false := fun hw => by simp [closing, hw]
  cases hstep with
  | @idle _ r c wmu start silent =>
    rw [hfree wmu] at htracks
    have hspec := WriteSide.start_spec hgood.sound D (fun n => s.queue.bind (·.reserve n)) o
    have hsaid := WriteSide.start_said htracks D h.config hlt hgood.sound h.unclosed
      (fun n => s.queue.bind (·.reserve n)) hsends
    have hclosing : closing { s with conn := c } = false := by simp [closing, wmu]
    rw [start] at hspec hsaid
    cases hspec with
    | refused fixed _ closeSent _ =>
      cases hsaid with
      | refused tracks =>
        exact ⟨fixed.config.trans h.config, closeSent.trans h.unclosed, w, hsize, hclosing ▸ tracks⟩
    | silent fixed _ closeSent _ =>
      cases hsaid with
      | silent tracks =>
        exact ⟨fixed.config.trans h.config, closeSent.trans h.unclosed, w, hsize, hclosing ▸ tracks⟩
    | frame => exact absurd rfl (silent _)
  | @encode _ out c wmu start =>
    rw [hfree wmu] at htracks
    have hspec := WriteSide.start_spec hgood.sound D (fun n => s.queue.bind (·.reserve n)) o
    have hsaid := WriteSide.start_said htracks D h.config hlt hgood.sound h.unclosed
      (fun n => s.queue.bind (·.reserve n)) hsends
    rw [start] at hspec hsaid
    cases hspec with
    | frame encodes =>
      cases hsaid with
      | @frame _ _ w' size unclosed tracks =>
        refine ⟨encodes.fixed.config.trans h.config, unclosed, w', size.trans hsize, ?_⟩
        have horder : said { s with
            conn := c,
            wmu := some { out := out, queued := o.joins && s.queue.isSome },
            encoded := if o.joins && s.queue.isSome then s.encoded ++ [out.item] else s.encoded } =
            s.said ++ out.item.said := by
          simp [said, order, bursts, backlog, pending, wmu]
        rw [horder]
        exact tracks

/-- The end of an operation. -/
theorem Historic.finish (h : Historic s comp n) (hgood : Good s) {g : Held} (hw : s.wmu = some g)
    (hconn : s'.conn = s.conn.finish g.out.after none) (hwmu : s'.wmu = none)
    (hsaid : s'.said = s.said) : Historic s' comp n := by
  obtain ⟨w, hsize, htracks⟩ := h.tracks
  obtain ⟨-, hfixed, htx⟩ := WriteSide.finish_spec hgood.sound g.out.after none
  have hclosing : s.closing = (g.out.after == .fragment true) := by simp [closing, hw]
  have hclosing' : s'.closing = false := by simp [closing, hwmu]
  refine ⟨?_, ?_, w, hsize, ?_⟩
  · rw [hconn]
    exact hfixed.config.trans h.config
  · rw [hconn, htx]
    exact h.unclosed
  · rw [hconn, hclosing', hsaid]
    rw [hclosing] at htracks
    exact htracks.finish

theorem Historic.congr (h : Historic s comp n) (hconn : s'.conn = s.conn)
    (hclosing : s'.closing = s.closing) (hsaid : s'.said = s.said) : Historic s' comp n :=
  ⟨hconn ▸ h.config, hconn ▸ h.unclosed, by rw [hconn, hclosing, hsaid]; exact h.tracks⟩

theorem Historic.step (h : Historic s comp n) (hlt : s.conn.comp.changes < 2 ^ 64) (hgood : Good s)
    (hs : Smooth s) (hsends : a.sends = true) (hstep : Step D s a s') : Historic s' comp n := by
  have hsaid := fun hact => said_eq hgood hs hstep hact
  cases hstep with
  | idle wmu start silent => exact h.start hlt hgood hsends (.idle wmu start silent)
  | encode wmu start => exact h.start hlt hgood hsends (.encode wmu start)
  | refuse _ queue _ err => cases (hs.queue _ queue).symm.trans err
  | join wmu => exact h.finish hgood wmu rfl rfl (hsaid fun _ h => by cases h)
  | unlock wmu iomu =>
    refine h.finish hgood wmu ?_ rfl (hsaid fun _ h => by cases h)
    rw [hs.bursts _ (by rw [bursts_held iomu]; exact List.mem_append_right _ List.mem_cons_self)]
  | lock wmu =>
    refine h.congr rfl ?_ (hsaid fun _ h => by cases h)
    simp [closing, wmu]
  | write wmu =>
    refine h.congr rfl ?_ (hsaid fun _ h => by cases h)
    simp [closing, wmu]
  | _ => exact h.congr rfl rfl (hsaid fun _ h => by cases h)

/-- The encoder reaches as far back as the window it serves. -/
theorem window_ofConfig {comp : Compression} (h : validBits comp.sendWindowBits = true) :
    (EncoderKind.ofConfig comp).window = Window.size { bits := comp.sendWindowBits } := by
  simp only [validBits, Bool.or_eq_true, decide_eq_true_eq, Bool.and_eq_true] at h
  rcases h with h | ⟨h8, h15⟩
  · simp [EncoderKind.ofConfig, Window.size, h, EncoderKind.window]
  · have hsize : Window.size { bits := comp.sendWindowBits } = 2 ^ comp.sendWindowBits.toNat :=
      if_pos ⟨h8, h15⟩
    rw [hsize, EncoderKind.ofConfig]
    split_ifs with hbits
    · rfl
    · have hmax : comp.sendWindowBits = 15 := by omega
      rw [hmax]
      rfl

theorem Historic.init {cfg : Config} {vectored : Bool} {keys : ℕ → MaskKey}
    {pool : (kind : EncoderKind) → ℕ → Option { c : Compressor // c.Idle kind }} {c : WriteSide}
    (hcomp : cfg.compression = some comp) (htake : comp.sendContextTakeover = true)
    (hc : WriteSide.ofConfig cfg vectored keys pool = .ok c) :
    Historic { conn := c } comp (Window.size { bits := comp.sendWindowBits }) := by
  unfold WriteSide.ofConfig at hc
  split_ifs at hc with hvalid
  cases hc
  have hbits : validBits comp.sendWindowBits = true := by
    simp only [Config.valid, hcomp, Option.all_some, Bool.and_eq_true] at hvalid
    exact hvalid.2.1.2
  have hwindow : Config.window comp.sendContextTakeover comp.sendWindowBits =
      some { bits := comp.sendWindowBits } := by
    simp [Config.window, htake]
  simp only [hcomp]
  refine ⟨rfl, rfl, { bits := comp.sendWindowBits }, rfl, ⟨⟨hwindow, rfl, Nat.zero_le _, rfl,
    fun _ h => (by cases h), fun _ h => (by cases h), ?_⟩, fun _ _ h => (by cases h),
    fun h0 => absurd rfl h0⟩⟩
  rintro comp' ⟨⟩
  exact window_ofConfig hbits

/-- As long as the generation has not come round the connection tracks what was said. -/
structure Recorded (s : Shared) (comp : Compression) (n : ℕ) : Prop where
  good : Good s
  smooth : Smooth s
  paced : Paced s
  historic : s.packed < 2 ^ 64 → Historic s comp n

theorem Recorded.changes_lt (h : Recorded s comp n) (hcount : s.packed < 2 ^ 64) :
    s.conn.comp.changes < 2 ^ 64 :=
  (h.paced (h.historic hcount).unclosed).trans_lt hcount

theorem Recorded.step (h : Recorded s comp n) (hcalm : a.calm = true) (hsends : a.sends = true)
    (hstep : Step D s a s') : Recorded s' comp n where
  good := h.good.step hstep
  smooth := h.smooth.step h.good hcalm hstep
  paced := h.paced.step h.good h.smooth hstep
  historic hcount := by
    have hlt := (packed_step h.good h.smooth hstep).trans_lt hcount
    exact (h.historic hlt).step (h.changes_lt hlt) h.good h.smooth hsends hstep

/-- In a run that meets no fault, sends no close and sends fewer than `2 ^ 64` frames with a
compressed payload the window and what is pending hold at all times the end of what was sent
compressed, and the encoder of the next message, or of the next chunk, starts with it. -/
theorem send_history {cfg : Config} {vectored : Bool} {keys : ℕ → MaskKey}
    {pool : (kind : EncoderKind) → ℕ → Option { c : Compressor // c.Idle kind }} {c : WriteSide}
    (hcomp : cfg.compression = some comp) (htake : comp.sendContextTakeover = true)
    (hc : WriteSide.ofConfig cfg vectored keys pool = .ok c) {acts : List Act}
    (hrun : Shared.run D { conn := c } acts = some s) (hcalm : ∀ a ∈ acts, a.calm = true)
    (hsends : ∀ a ∈ acts, a.sends = true) (hcount : s.packed < 2 ^ 64) :
    ∃ w, s.conn.comp.window = some w ∧ w.size = Window.size { bits := comp.sendWindowBits } ∧
      lastN w.size (w.dict ++ s.conn.comp.pending.flatten) = lastN w.size s.said ∧
      s.conn.comp.pending.length ≤ 8 ∧
      s.conn.comp.pendingBytes = (s.conn.comp.pending.map List.length).sum ∧
      lastN w.size s.said <:+ s.conn.comp.startHistory comp ∧
      (s.conn.frag.op ≠ 0 → lastN w.size s.said <:+ s.conn.chunkHistory) := by
  have hrec := run_induct
    (P := fun s => Recorded s comp (Window.size { bits := comp.sendWindowBits }))
    (p := fun _ a => a.calm && a.sends)
    (fun s a s' h ha hstep =>
      h.step (Bool.and_eq_true_iff.mp ha).1 (Bool.and_eq_true_iff.mp ha).2 hstep)
    acts ⟨Good.init (sound_ofConfig hc), Smooth.init, Paced.init hc, fun _ =>
      Historic.init hcomp htake hc⟩ hrun
    (along_of_forall _ fun a ha _ => by simp [hcalm a ha, hsends a ha])
  have hhist := hrec.historic hcount
  have hlt := hrec.changes_lt hcount
  obtain ⟨w, hsize, htracks⟩ := hhist.tracks
  have hfollows := htracks.follows
  refine ⟨w, hfollows.window, hsize, hfollows.recent, hfollows.count, ?_,
    hfollows.start hhist.config hlt, htracks.chunk hlt⟩
  rw [hfollows.bytes, List.length_flatten]

/-- Compression with a window of 256 bytes, for every message. -/
def narrow : Compression :=
  { minSize := 1, sendContextTakeover := true, sendWindowBits := 8 }

/-- A text is written and a prepared one is pending. -/
theorem send_history_prepared :
    ∃ c s p w, WriteSide.ofConfig { compression := some narrow } false (fun _ => ⟨0, 0, 0, 0⟩)
        (fun _ _ => none) = .ok c ∧
      prepare .text ⟨[99], by decide⟩ = .ok p ∧
      Shared.run Stored.deflater { conn := c }
        [.start (.write .text ⟨[97, 98], by decide⟩), .lock, .write none, .unlock,
          .start (.writePrepared p), .lock, .write none, .unlock] = some s ∧
      s.said = [97, 98, 99] ∧ s.conn.comp.pending = [[99]] ∧ s.conn.comp.window = some w ∧
      lastN w.size (w.dict ++ [99]) = lastN w.size [97, 98, 99] := by
  obtain ⟨c, s, p, hc, hp, hrun, hsaid, hpending, hpacked⟩ : ∃ c s p, WriteSide.ofConfig { compression := some narrow } false (fun _ => ⟨0, 0, 0, 0⟩)
        (fun _ _ => none) = .ok c ∧
      prepare .text ⟨[99], by decide⟩ = .ok p ∧
      Shared.run Stored.deflater { conn := c }
        [.start (.write .text ⟨[97, 98], by decide⟩), .lock, .write none, .unlock,
          .start (.writePrepared p), .lock, .write none, .unlock] = some s ∧
      s.said = [97, 98, 99] ∧ s.conn.comp.pending = [[99]] ∧ s.packed = 2 :=
    ⟨_, _, _, rfl, rfl, rfl, rfl, rfl, rfl⟩
  obtain ⟨w, hw, -, hlast, -⟩ := send_history rfl rfl hc hrun (by simp [Act.calm])
    (by simp [Act.sends, Op.sends]) (by rw [hpacked]; decide)
  rw [hpending, hsaid] at hlast
  exact ⟨c, s, p, w, hc, hp, hrun, hsaid, hpending, hw, hlast⟩

/-! ## A generation that comes round

A connection writes one byte, and then the same prepared byte again and again. After `2 ^ 64` of
them the window has the generation it had after the first byte, so the compressor goes on with its
stream, which knows of none of them. -/

theorem run_append (as bs : List Act) : ∀ {s : Shared},
    Shared.run D s (as ++ bs) = (Shared.run D s as).bind fun s => s.run D bs := by
  induction as with
  | nil => exact rfl
  | cons a as ih =>
    intro s
    rw [List.cons_append, run, run, Option.bind_assoc]
    exact congrArg _ (funext fun _ => ih)

/-- The steps of an operation that writes on its own. -/
def alone (o : Op) : List Act :=
  [.start o, .lock, .write none, .unlock]

theorem run_alone {o : Op} {out : Outgoing} {c : WriteSide} {b : List UInt8} (hwmu : s.wmu = none)
    (hiomu : s.iomu = none) (hqueue : s.queue = none) (ho : o.ofQueue = false)
    (hstart : s.conn.start D (fun _ => none) o = (.ok (some out), c))
    (hcalls : out.calls c.vectored = [b]) (hafter : out.after = .nothing) :
    Shared.run D s (alone o) = some { s with
      conn := c, past := s.past ++ [{ queued := false, items := [out.item], accepted := b }] } := by
  simp [alone, run, step, start, lock, write, unlock, left, Burst.pass, WriteSide.finish, hwmu, hiomu,
    hqueue, ho, hstart, hcalls, hafter]

/-- Nothing is under way on a connection of a server that has sent `n` prepared bytes `b` after what
the compressor `e` knows. -/
structure Repeats (s : Shared) (comp : Compression) (e : Compressor) (b : UInt8) (n : ℕ) : Prop where
  wmu : s.wmu = none
  iomu : s.iomu = none
  queue : s.queue = none
  backlog : s.backlog = []
  role : s.conn.tx.role = .server
  frag : s.conn.frag.op = 0
  unclosed : s.conn.tx.closeSent = false
  fed : s.conn.comp.Fed comp e b n
  said : s.said = e.history ++ List.replicate n b

section Repeats

variable {e : Compressor} {b : UInt8} {k : ℕ} {p : Prepared} (hp : p.payload.val = [b])
include hp

theorem Repeats.alone (h : Repeats s comp e b k) :
    ∃ s', Shared.run D s (Shared.alone (.writePrepared p)) = some s' ∧
      Repeats s' comp e b (k + 1) := by
  obtain ⟨w, hw, -⟩ := h.fed.window
  have hstart : s.conn.start D (fun _ => none) (.writePrepared p) =
      (.ok (some
        { item := ⟨p.variant D comp, some p.payload⟩, ext := some (p.compressedFor D comp) }),
        { s.conn with comp := s.conn.comp.notePrepared w [b] }) := by
    simp [WriteSide.start, WriteSide.writePrepared, WriteSide.preparedFrame, WriteSide.frameFor,
      WriteSide.notePrepared, h.role, h.frag, h.unclosed, h.fed.config, h.fed.minSize, hw, hp,
      Except.map]
  refine ⟨_, run_alone h.wmu h.iomu h.queue rfl hstart rfl rfl, h.wmu, h.iomu, h.queue, h.backlog,
    h.role, h.frag, h.unclosed, h.fed.notePrepared hw, ?_⟩
  have hsaid := h.said
  have hback := h.backlog
  simp only [Shared.backlog] at hback
  simp only [Shared.said, order, bursts, Shared.backlog, pending, h.wmu, h.iomu, hback,
    Option.toList_none, List.append_nil, List.flatMap_append] at hsaid ⊢
  rw [hsaid, List.replicate_succ', List.append_assoc]
  simp [Item.said, hp]

theorem Repeats.run : ∀ (n : ℕ) {s : Shared} {k : ℕ}, Repeats s comp e b k →
    ∃ s', Shared.run D s (List.replicate n (Shared.alone (.writePrepared p))).flatten = some s' ∧
      Repeats s' comp e b (k + n)
  | 0, s, k, h => ⟨s, rfl, h⟩
  | n + 1, s, k, h => by
    obtain ⟨t, ht, hnext⟩ := Repeats.alone (D := D) hp h
    obtain ⟨s', hs', hlast⟩ := Repeats.run n hnext
    refine ⟨s', ?_, by rwa [Nat.add_assoc, Nat.add_comm 1] at hlast⟩
    rw [List.replicate_succ, List.flatten_cons, run_append, ht]
    exact hs'

end Repeats

/-- One byte is written, and `n` times a prepared one. -/
def onceThen (p : Prepared) (n : ℕ) : List Act :=
  alone (.write .binary ⟨[1], by decide⟩) ++ (List.replicate n (alone (.writePrepared p))).flatten

theorem mem_onceThen {p : Prepared} {n : ℕ} (ha : a ∈ onceThen p n) :
    a.calm = true ∧ a.sends = true := by
  have halone : ∀ o : Op, o.sends = true → ∀ a ∈ alone o, a.calm = true ∧ a.sends = true := by
    intro o ho a ha
    simp only [alone, List.mem_cons, List.not_mem_nil, or_false] at ha
    rcases ha with rfl | rfl | rfl | rfl
    · exact ⟨rfl, ho⟩
    · exact ⟨rfl, rfl⟩
    · exact ⟨rfl, rfl⟩
    · exact ⟨rfl, rfl⟩
  rcases List.mem_append.mp ha with ha | ha
  · exact halone _ rfl a ha
  · obtain ⟨as, has, ha⟩ := List.mem_flatten.mp ha
    rw [List.eq_of_mem_replicate has] at ha
    exact halone _ rfl a ha

/-- When the generation has come round the encoder would start with the first byte only. -/
theorem stale_after {n : ℕ} (hn : n % 2 ^ 64 = 0) (hpos : 0 < n) :
    ∃ c s p, WriteSide.ofConfig { compression := some narrow } false (fun _ => ⟨0, 0, 0, 0⟩)
        (fun _ _ => none) = .ok c ∧
      prepare .binary ⟨[2], by decide⟩ = .ok p ∧
      Shared.run Stored.deflater { conn := c } (onceThen p n) = some s ∧
      s.said = 1 :: List.replicate n 2 ∧ s.conn.comp.startHistory narrow = [1] ∧
      ¬lastN (Window.size { bits := 8 }) s.said <:+ s.conn.comp.startHistory narrow := by
  obtain ⟨c, t, p, hc, hp, hpayload, hrun, hrepeats⟩ : ∃ c t p,
      WriteSide.ofConfig { compression := some narrow } false (fun _ => ⟨0, 0, 0, 0⟩)
        (fun _ _ => none) = .ok c ∧
      prepare .binary ⟨[2], by decide⟩ = .ok p ∧ p.payload.val = [2] ∧
      Shared.run Stored.deflater { conn := c } (alone (.write .binary ⟨[1], by decide⟩)) = some t ∧
      Repeats t narrow ⟨.reduced 8, [1], true, 1, false⟩ 2 0 :=
    ⟨_, _, _, rfl, rfl, rfl, rfl, rfl, rfl, rfl, rfl, rfl, rfl, rfl,
      ⟨rfl, rfl, rfl, Nat.zero_le _, rfl, fun _ h => (by cases h), _, rfl, rfl, rfl⟩, rfl⟩
  obtain ⟨s, hs, hlast⟩ := Repeats.run (D := Stored.deflater) hpayload n hrepeats
  rw [Nat.zero_add] at hlast
  have hhist := hlast.fed.startHistory rfl rfl hn
  refine ⟨c, s, p, hc, hp, ?_, hlast.said, hhist, fun h => ?_⟩
  · rw [onceThen, run_append, hrun]
    exact hs
  · have hlen := h.length_le
    have hsize : Window.size { bits := 8 } = 256 := rfl
    rw [hhist, hlast.said, length_lastN, hsize] at hlen
    simp only [List.length_append, List.length_singleton, List.length_replicate] at hlen
    omega

/-- After `2 ^ 64` prepared bytes the encoder would start with the byte from before them. -/
theorem send_history_stale :
    ∃ c s p, WriteSide.ofConfig { compression := some narrow } false (fun _ => ⟨0, 0, 0, 0⟩)
        (fun _ _ => none) = .ok c ∧
      prepare .binary ⟨[2], by decide⟩ = .ok p ∧
      Shared.run Stored.deflater { conn := c } (onceThen p (2 ^ 64)) = some s ∧
      (∀ a ∈ onceThen p (2 ^ 64), a.calm = true) ∧ (∀ a ∈ onceThen p (2 ^ 64), a.sends = true) ∧
      s.said = 1 :: List.replicate (2 ^ 64) 2 ∧ s.conn.comp.startHistory narrow = [1] ∧
      ¬lastN (Window.size { bits := 8 }) s.said <:+ s.conn.comp.startHistory narrow := by
  obtain ⟨c, s, p, hc, hp, hrun, hlast⟩ := stale_after (Nat.mod_self _) (Nat.two_pow_pos 64)
  exact ⟨c, s, p, hc, hp, hrun, fun a ha => (mem_onceThen ha).1, fun a ha => (mem_onceThen ha).2,
    hlast⟩

end Shared

end Ews
