import Ews.Encoding
import Ews.Script

/-!
# Writing to the transport, and from a reader

`Sending` is a connection without a queue together with the frames it has handed to its
transport. `Sending.hand` is the second half of an operation : the frame goes to the transport,
whose answer may depend on everything handed over before, and the state of a fragmented message
is settled.

`Sending.writeFrom` is `WriteFrom` of `ws/conn_write.go`. It reads one chunk ahead with
`io.ReadFull`, so that the last chunk can be final. `io.ReadFull` reports a reader that ends
within a chunk by the error `io.ErrUnexpectedEOF` ; a reader that fails with that very error is
not told apart from it, and its message is finished as if the reader had come to its end.
-/

set_option linter.unusedSectionVars false

namespace Ews

/-- An `io.Reader`. -/
abbrev Reader := Script UInt8 Err

/-- What the transport answers to a frame, after the frames handed over before. -/
abbrev Answer := List Outgoing → Outgoing → Option Err

/-- A transport that accepts every write. -/
def accepting : Answer := fun _ _ => none

/-- A connection without a queue, and the frames it has handed to the transport. -/
structure Sending where
  side : WriteSide
  sent : List Outgoing := []

/-- The state of the loop of `WriteFrom` : the chunk to send, the bytes sent, the reader. -/
structure Forward where
  cur : List UInt8
  total : ℕ
  src : Reader
  conn : Sending

/-- What `WriteFrom` returns, and the reader and the connection after it. -/
structure Forwarded where
  count : ℕ
  err : Option Err
  src : Reader
  conn : Sending

namespace Sending

variable (D : Deflater) (answer : Answer)

/-- The rest of an operation, once its frame is encoded. -/
def hand (s : Sending) : Except Err (Option Outgoing) × WriteSide → Option Err × Sending
  | (.error e, c) => (some e, { s with side := c })
  | (.ok none, c) => (none, { s with side := c })
  | (.ok (some out), c) =>
    (answer s.sent out, ⟨c.finish out.after (answer s.sent out), s.sent ++ [out]⟩)

/-- `Write`. -/
def write (s : Sending) (op : Opcode) (payload : List UInt8) : Option Err × Sending :=
  s.hand answer ((s.side.write D (fun _ => none) op payload).map (·.map some) id)

/-- `BeginMessage`. -/
def beginMessage (s : Sending) (op : Opcode) : Option Err × Sending :=
  s.hand answer ((s.side.beginMessage op).map (·.map fun _ => none) id)

/-- `writeFragment`. -/
def writeFragment (s : Sending) (payload : List UInt8) (final : Bool) : Option Err × Sending :=
  s.hand answer ((s.side.fragment D payload final).map (·.map some) id)

/-- One round of the loop of `WriteFrom`. -/
def writeFromRound (size : ℕ) (s : Forward) : Forward ⊕ Forwarded :=
  match s.src.readFull .eof .unexpectedEOF size with
  | ((next, err), src) =>
    if err ≠ none ∧ err ≠ some .eof ∧ err ≠ some .unexpectedEOF then
      .inr ⟨s.total, err, src, s.conn⟩
    else
      match s.conn.writeFragment D answer s.cur (err = some .eof) with
      | (some werr, conn) => .inr ⟨s.total, some werr, src, conn⟩
      | (none, conn) =>
        let total := s.total + s.cur.length
        if err = some .eof then .inr ⟨total, none, src, conn⟩
        else if err = some .unexpectedEOF then
          match conn.writeFragment D answer next true with
          | (some werr, conn) => .inr ⟨total, some werr, src, conn⟩
          | (none, conn) => .inr ⟨total + next.length, none, src, conn⟩
        else .inl ⟨next, total, src, conn⟩

/-- `WriteFrom`. The chunk buffers are as long as a fragment. -/
def writeFrom (s : Sending) (op : Opcode) (r : Reader) : Forwarded :=
  if op ≠ .text ∧ op ≠ .binary then ⟨0, some .protocol, r, s⟩
  else
    match r.readFull .eof .unexpectedEOF s.side.fragmentSize with
    | ((cur, err), src) =>
      if err = some .eof ∨ err = some .unexpectedEOF then
        let written := s.write D answer op cur
        ⟨cur.length, written.1, src, written.2⟩
      else if err.isSome then ⟨0, err, src, s⟩
      else
        match s.beginMessage answer op with
        | (some werr, conn) => ⟨0, some werr, src, conn⟩
        | (none, conn) =>
          Loop.run (writeFromRound D answer s.side.fragmentSize) (src.content.length + 1)
            (fun f => ⟨f.total, some .noProgress, f.src, f.conn⟩) ⟨cur, 0, src, conn⟩

end Sending

/-! ## A connection that compresses nothing -/

namespace WriteSide

/-- Nothing is compressed, no message is open and no close was sent. -/
structure Vacant (c : WriteSide) : Prop where
  op : c.frag.op = 0
  config : c.comp.config = none
  closeSent : c.tx.closeSent = false

/-- A message of `op` is open that is not compressed, and no close was sent. -/
structure Amidst (c : WriteSide) (op : Opcode) (first : Bool) : Prop where
  op : c.frag.op = op
  first : c.frag.first = first
  compressed : c.frag.compressed = false
  config : c.comp.config = none
  closeSent : c.tx.closeSent = false

variable {c : WriteSide} {op : Opcode}

/-- `NewConn` leaves no connection with a fragment size of zero. -/
theorem ofConfig_fragmentSize {cfg : Config} {vectored : Bool} {keys : ℕ → MaskKey}
    {pool : (kind : EncoderKind) → ℕ → Option { c : Compressor // c.Idle kind }}
    (h : ofConfig cfg vectored keys pool = .ok c) : 0 < c.fragmentSize := by
  unfold ofConfig at h
  split_ifs at h with hvalid
  cases h
  exact (cfg.settings hvalid).fragmentSize_pos

/-- The frame of `Write` or of a fragment, encoded. -/
def encoded (f : Frame) (after : After) : Outgoing :=
  { item := { frame := f }, header := f.header, body := f.body, after := after }

theorem write_vacant (D : Deflater) (h : c.Vacant) (hop : op = .text ∨ op = .binary)
    (payload : List UInt8) : c.write D (fun _ => none) op payload =
      (.ok (encoded (c.tx.frame op true payload false) .nothing),
        { c with tx := c.tx.drawKey }) := by
  have hdata : ¬(op ≠ .text ∧ op ≠ .binary) := by tauto
  simp only [write, if_neg hdata, h.op, ne_eq, not_true_eq_false, if_false, encodeData, h.config,
    encodePlain, Sender.encode, Sender.encodeMessage_data hop, h.closeSent, Bool.false_eq_true]
  rfl

theorem beginMessage_vacant (h : c.Vacant) (hop : op = .text ∨ op = .binary) :
    ∃ c', c.beginMessage op = (.ok (), c') ∧ c'.Amidst op true ∧
      c'.fragmentSize = c.fragmentSize := by
  have hdata : ¬(op ≠ .text ∧ op ≠ .binary) := by tauto
  simp only [beginMessage, if_neg hdata, h.op, ne_eq, not_true_eq_false, if_false, h.closeSent,
    Bool.false_eq_true, h.config]
  exact ⟨_, rfl, ⟨rfl, rfl, rfl, h.config, h.closeSent⟩, rfl⟩

theorem fragment_amidst (D : Deflater) {first : Bool} (h : c.Amidst op first)
    (hop : op = .text ∨ op = .binary) (payload : List UInt8) (final : Bool) :
    c.fragment D payload final =
      (.ok (encoded (c.tx.frame (if first then op else .continuation) final payload false)
        (.fragment final)), { c with tx := c.tx.drawKey }) := by
  have hne : c.frag.op ≠ 0 := by
    rw [h.op]
    rcases hop with rfl | rfl <;> decide
  have hfop : c.fragmentOp = if first then op else .continuation := by
    rw [fragmentOp, h.first, h.op]
  have hdata : c.fragmentOp = .continuation ∨ c.fragmentOp = .text ∨ c.fragmentOp = .binary := by
    rw [hfop]
    cases first with
    | false => exact Or.inl rfl
    | true => exact Or.inr hop
  rw [← hfop]
  simp only [fragment, if_neg hne, packFragment, h.compressed, Bool.false_eq_true, if_false,
    Sender.encodeFragment_data hdata, h.closeSent]
  rfl

end WriteSide

/-! ## One message -/

/-- The first frames of a message of `op`, none of them its last. -/
structure Begun (op : Opcode) (size : ℕ) (fs : List Frame) : Prop where
  opcodes : ∀ i (h : i < fs.length), fs[i].opcode = if i = 0 then op else .continuation
  finals : ∀ f ∈ fs, f.final = false
  sizes : ∀ f ∈ fs, f.payload.length = size

/-- The frames are one message of `op` with the given content, in fragments of `size`. -/
structure Whole (op : Opcode) (size : ℕ) (content : List UInt8) (fs : List Frame) : Prop where
  opcodes : ∀ i (h : i < fs.length), fs[i].opcode = if i = 0 then op else .continuation
  finals : ∀ i (h : i < fs.length), fs[i].final = decide (i + 1 = fs.length)
  sizes : ∀ f ∈ fs, f.final = false → f.payload.length = size
  nonempty : fs ≠ []
  content : (fs.map Frame.payload).flatten = content

section Frames

variable {op : Opcode} {size : ℕ} {fs : List Frame}

theorem Begun.nil : Begun op size [] :=
  ⟨fun _ h => absurd h (by simp), by simp, by simp⟩

theorem opcodes_append
    (h : ∀ i (h : i < fs.length), fs[i].opcode = if i = 0 then op else .continuation)
    {f : Frame} (hf : f.opcode = if fs.isEmpty then op else .continuation) :
    ∀ i (h : i < (fs ++ [f]).length),
      (fs ++ [f])[i].opcode = if i = 0 then op else .continuation := by
  intro i hi
  rw [List.getElem_append]
  split_ifs with hlt h0 h0
  · rw [h i hlt, if_pos h0]
  · rw [h i hlt, if_neg h0]
  · obtain rfl : fs = [] := List.length_eq_zero_iff.mp (by omega)
    simpa using hf
  · have hne : fs.isEmpty = false := by
      rw [List.isEmpty_eq_false_iff, ← List.length_pos_iff]
      rw [List.length_append, List.length_singleton] at hi
      omega
    simpa [hne] using hf

theorem Begun.push (h : Begun op size fs) {f : Frame}
    (hop : f.opcode = if fs.isEmpty then op else .continuation) (hfinal : f.final = false)
    (hsize : f.payload.length = size) : Begun op size (fs ++ [f]) := by
  refine ⟨opcodes_append h.opcodes hop, fun g hg => ?_, fun g hg => ?_⟩
  · rcases List.mem_append.mp hg with hg | hg
    · exact h.finals g hg
    · rwa [List.mem_singleton.mp hg]
  · rcases List.mem_append.mp hg with hg | hg
    · exact h.sizes g hg
    · rwa [List.mem_singleton.mp hg]

theorem Begun.length (h : Begun op size fs) :
    ((fs.map Frame.payload).flatten).length = fs.length * size := by
  have hlen : ∀ n ∈ (fs.map Frame.payload).map List.length, n = size := by
    simpa using h.sizes
  rw [List.length_flatten, List.eq_replicate_of_mem hlen, List.sum_replicate_nat]
  simp

theorem Begun.finish (h : Begun op size fs) {f : Frame}
    (hop : f.opcode = if fs.isEmpty then op else .continuation) (hfinal : f.final = true) :
    Whole op size ((fs.map Frame.payload).flatten ++ f.payload) (fs ++ [f]) := by
  refine ⟨opcodes_append h.opcodes hop, fun i hi => ?_, fun g hg hng => ?_, by simp, by simp⟩
  · rw [List.getElem_append]
    rw [List.length_append, List.length_singleton] at hi ⊢
    split_ifs with hlt
    · rw [h.finals _ (List.getElem_mem hlt), eq_comm, decide_eq_false_iff_not]
      omega
    · rw [List.getElem_singleton, hfinal, eq_comm, decide_eq_true_eq]
      omega
  · rcases List.mem_append.mp hg with hg | hg
    · exact h.sizes g hg
    · rw [List.mem_singleton.mp hg, hfinal] at hng
      exact absurd hng (by decide)

end Frames

namespace Sending

variable (D : Deflater)

/-- The frames `fs` were handed over between `s` and `s'`. -/
def Sends (s : Sending) (fs : List Frame) (s' : Sending) : Prop :=
  ∃ outs, s'.sent = s.sent ++ outs ∧ outs.map (·.item.frame) = fs ∧
    ∀ out ∈ outs, out.bytes = out.item.frame.bytes

variable {s s' s'' : Sending} {op : Opcode} {fs gs : List Frame}

theorem Sends.nil (h : s'.sent = s.sent) : s.Sends [] s' :=
  ⟨[], by simp [h], rfl, by simp⟩

theorem Sends.append (h : s.Sends fs s') (h' : s'.Sends gs s'') : s.Sends (fs ++ gs) s'' := by
  obtain ⟨outs, hsent, hframes, hbytes⟩ := h
  obtain ⟨outs', hsent', hframes', hbytes'⟩ := h'
  refine ⟨outs ++ outs', by rw [hsent', hsent, List.append_assoc], by simp [hframes, hframes'], ?_⟩
  intro out hout
  exact (List.mem_append.mp hout).elim (hbytes out) (hbytes' out)

theorem Sends.encoded {c : WriteSide} (f : Frame) (after : After) :
    s.Sends [f] ⟨c, s.sent ++ [WriteSide.encoded f after]⟩ := by
  refine ⟨_, rfl, rfl, fun out hout => ?_⟩
  rw [List.mem_singleton.mp hout]
  rfl

theorem write_sends (h : s.side.Vacant) (hop : op = .text ∨ op = .binary) (payload : List UInt8) :
    ∃ f s', s.write D accepting op payload = (none, s') ∧ s.Sends [f] s' ∧ f.opcode = op ∧
      f.final = true ∧ f.payload = payload := by
  rw [write, WriteSide.write_vacant D h hop]
  exact ⟨_, _, rfl, .encoded _ _, rfl, rfl, rfl⟩

theorem beginMessage_sends (h : s.side.Vacant) (hop : op = .text ∨ op = .binary) :
    ∃ s', s.beginMessage accepting op = (none, s') ∧ s'.sent = s.sent ∧ s'.side.Amidst op true := by
  obtain ⟨c', hbegin, hamidst, -⟩ := WriteSide.beginMessage_vacant h hop
  rw [beginMessage, hbegin]
  exact ⟨_, rfl, rfl, hamidst⟩

theorem writeFragment_sends {first : Bool} (h : s.side.Amidst op first)
    (hop : op = .text ∨ op = .binary) (payload : List UInt8) (final : Bool) :
    ∃ f s', s.writeFragment D accepting payload final = (none, s') ∧ s.Sends [f] s' ∧
      f.opcode = (if first then op else .continuation) ∧ f.final = final ∧ f.payload = payload ∧
      (final = false → s'.side.Amidst op false) := by
  rw [writeFragment, WriteSide.fragment_amidst D h hop]
  refine ⟨_, _, rfl, .encoded _ _, rfl, rfl, rfl, fun hfinal => ?_⟩
  subst hfinal
  exact ⟨h.op, rfl, h.compressed, h.config, (Sender.closeSent_drawKey _).trans h.closeSent⟩

/-! ## The loop -/

/-- Between two rounds of the loop of `WriteFrom` that began with `s₀` and the reader `r` : the
chunks before the current one are sent, none of them final. -/
structure Forwarding (s₀ : Sending) (op : Opcode) (size : ℕ) (r : Reader) (f : Forward)
    (fs : List Frame) : Prop where
  sends : s₀.Sends fs f.conn
  begun : Begun op size fs
  amidst : f.conn.side.Amidst op fs.isEmpty
  cur : f.cur.length = size
  total : f.total = ((fs.map Frame.payload).flatten).length
  content : r.content = (fs.map Frame.payload).flatten ++ f.cur ++ f.src.content
  err : f.src.err = r.err

/-- What `WriteFrom` leads to on a transport that accepts everything. -/
inductive Forwards (s₀ : Sending) (op : Opcode) (size : ℕ) (r : Reader) (f : Forwarded) : Prop
  | whole {fs : List Frame} (err : r.err = .eof ∨ r.err = .unexpectedEOF)
      (sends : s₀.Sends fs f.conn) (whole : Whole op size r.content fs)
      (single : r.err = .eof → r.content.length ≤ size → fs.length = 1)
      (count : f.count = r.content.length) (returned : f.err = none)
  | failed {fs : List Frame} (err : r.err ≠ .eof ∧ r.err ≠ .unexpectedEOF)
      (sends : s₀.Sends fs f.conn) (begun : Begun op size fs)
      (count : f.count = ((fs.map Frame.payload).flatten).length) (returned : f.err = some r.err)

/-- How `io.ReadFull` reports a chunk. -/
inductive Chunk (r : Reader) (size : ℕ) : Option Err → Prop
  | full (length : size ≤ r.content.length) : Chunk r size none
  | ended (content : r.content = []) (err : r.err = .eof) : Chunk r size (some .eof)
  | short (length : r.content.length < size) (err : r.err = .eof ∨ r.err = .unexpectedEOF)
      (content : r.err = .eof → r.content ≠ []) : Chunk r size (some .unexpectedEOF)
  | failed (length : r.content.length < size) (err : r.err ≠ .eof ∧ r.err ≠ .unexpectedEOF) :
      Chunk r size (some r.err)

theorem fullErr_chunk (size : ℕ) (r : Reader) :
    Chunk r size (r.fullErr .eof .unexpectedEOF size) := by
  unfold Script.fullErr
  split_ifs with hfull hshort
  · exact .full hfull
  · exact .short (by omega) (Or.inl hshort.2) fun _ => List.ne_nil_of_length_pos hshort.1
  · by_cases heof : r.err = .eof
    · have hnil : r.content = [] := by
        by_contra h
        exact hshort ⟨List.length_pos_of_ne_nil h, heof⟩
      rw [heof]
      exact .ended hnil heof
    · by_cases hunexpected : r.err = .unexpectedEOF
      · rw [hunexpected]
        exact .short (by omega) (Or.inr hunexpected) fun h => absurd h heof
      · exact .failed (by omega) ⟨heof, hunexpected⟩

theorem writeFromRound_spec {s₀ : Sending} {size : ℕ} (hsize : 0 < size) {r : Reader}
    (hop : op = .text ∨ op = .binary) (f : Forward) (h : ∃ fs, s₀.Forwarding op size r f fs) :
    Loop.Round (fun f => ∃ fs, s₀.Forwarding op size r f fs) (fun f => f.src.content.length)
      (s₀.Forwards op size r) f (writeFromRound D accepting size f) := by
  obtain ⟨fs, h⟩ := h
  obtain ⟨src, hread, hrest, herr⟩ := f.src.readFull_spec .eof .unexpectedEOF size
  have hchunk := fullErr_chunk size f.src
  rw [h.err] at herr
  simp only [writeFromRound, hread]
  generalize f.src.fullErr .eof .unexpectedEOF size = err at hchunk
  cases hchunk with
  | full length =>
    obtain ⟨g, conn, hwrite, hsends, hgop, hgfinal, hgpayload, hamidst⟩ :=
      writeFragment_sends D h.amidst hop f.cur false
    simp only [ne_eq, not_true_eq_false, false_and, if_false, reduceCtorEq, decide_false, hwrite]
    have hempty : (fs ++ [g]).isEmpty = false := by simp
    refine ⟨⟨fs ++ [g], h.sends.append hsends, h.begun.push hgop hgfinal (hgpayload ▸ h.cur),
      hempty ▸ hamidst rfl, by simp [length], ?_, ?_, herr⟩, ?_⟩
    · simp [h.total, hgpayload]
    · simp [h.content, hgpayload, hrest]
    · simp only [hrest, List.length_drop]
      omega
  | ended content err =>
    obtain ⟨g, conn, hwrite, hsends, hgop, hgfinal, hgpayload, -⟩ :=
      writeFragment_sends D h.amidst hop f.cur true
    simp only [ne_eq, reduceCtorEq, not_false_eq_true, not_true_eq_false, false_and, and_false,
      if_false, decide_true, hwrite, if_true]
    have hcontent : r.content = (fs.map Frame.payload).flatten ++ g.payload := by
      rw [h.content, content, hgpayload, List.append_nil]
    refine .whole (Or.inl (h.err.symm.trans err)) (h.sends.append hsends)
      (hcontent ▸ h.begun.finish hgop hgfinal) (fun _ hle => ?_) ?_ rfl
    · rw [hcontent, List.length_append, h.begun.length, hgpayload, h.cur] at hle
      have hzero : fs.length * size = 0 := by omega
      rcases Nat.mul_eq_zero.mp hzero with h0 | h0
      · simp [h0]
      · omega
    · simp [hcontent, h.total, hgpayload]
  | short length err content =>
    obtain ⟨g, conn, hwrite, hsends, hgop, hgfinal, hgpayload, hamidst⟩ :=
      writeFragment_sends D h.amidst hop f.cur false
    obtain ⟨g', conn', hwrite', hsends', hgop', hgfinal', hgpayload', -⟩ :=
      writeFragment_sends D (hamidst rfl) hop (f.src.content.take size) true
    simp only [ne_eq, reduceCtorEq, not_false_eq_true, not_true_eq_false, and_false,
      if_false, decide_false, hwrite, if_true, hwrite', Option.some_inj]
    have hempty : (fs ++ [g]).isEmpty = false := by simp
    have hbegun := h.begun.push hgop hgfinal (hgpayload ▸ h.cur)
    have hall : f.src.content.take size = f.src.content := List.take_of_length_le (by omega)
    have hcontent : r.content = ((fs ++ [g]).map Frame.payload).flatten ++ g'.payload := by
      simp [h.content, hgpayload, hgpayload', hall]
    refine .whole (h.err ▸ err) ((h.sends.append hsends).append hsends')
      (hcontent ▸ hbegun.finish (by rw [hempty]; exact hgop') hgfinal') (fun heof hle => ?_) ?_ rfl
    · have hpos := List.length_pos_of_ne_nil (content (h.err.trans heof))
      rw [h.content] at hle
      simp only [List.length_append, h.cur] at hle
      omega
    · rw [hcontent]
      simp [h.total, hgpayload, hgpayload', Nat.add_assoc]
  | failed length err =>
    rw [h.err] at err ⊢
    have hgive : (some r.err ≠ none ∧ some r.err ≠ some Err.eof ∧
      some r.err ≠ some Err.unexpectedEOF) := by simpa using err
    rw [if_pos hgive]
    exact .failed err h.sends h.begun h.total rfl

theorem writeFrom_spec (h : s.side.Vacant) (hsize : 0 < s.side.fragmentSize)
    (hop : op = .text ∨ op = .binary) (r : Reader) :
    s.Forwards op s.side.fragmentSize r (s.writeFrom D accepting op r) := by
  have hdata : ¬(op ≠ .text ∧ op ≠ .binary) := by tauto
  obtain ⟨src, hread, hrest, herr⟩ := r.readFull_spec .eof .unexpectedEOF s.side.fragmentSize
  have hchunk := fullErr_chunk s.side.fragmentSize r
  have hsingle : r.content.length < s.side.fragmentSize → (r.err = .eof ∨ r.err = .unexpectedEOF) →
      s.Forwards op s.side.fragmentSize r ⟨(r.content.take s.side.fragmentSize).length,
        (s.write D accepting op (r.content.take s.side.fragmentSize)).1, src,
        (s.write D accepting op (r.content.take s.side.fragmentSize)).2⟩ := by
    intro hlt herr
    rw [List.take_of_length_le (by omega)]
    obtain ⟨f, conn, hwrite, hsends, hfop, hfinal, hpayload⟩ := write_sends D h hop r.content
    rw [hwrite]
    have hwhole : Whole op s.side.fragmentSize ([] ++ f.payload) [f] :=
      Begun.nil.finish hfop hfinal
    rw [hpayload] at hwhole
    exact .whole herr hsends hwhole (fun _ _ => rfl) rfl rfl
  simp only [writeFrom, if_neg hdata, hread]
  generalize r.fullErr .eof .unexpectedEOF s.side.fragmentSize = err at hchunk
  cases hchunk with
  | full length =>
    obtain ⟨conn, hbegin, hsent, hamidst⟩ := beginMessage_sends h hop
    simp only [reduceCtorEq, or_self, if_false, Option.isSome_none, Bool.false_eq_true, hbegin]
    refine Loop.run_spec (fun f => ∃ fs, s.Forwarding op s.side.fragmentSize r f fs)
      (fun f => f.src.content.length) (writeFromRound_spec D hsize hop)
      ⟨[], .nil hsent, .nil, hamidst, by simp [length], rfl, ?_, herr⟩ (Nat.lt_succ_self _)
    simp [hrest]
  | ended content err =>
    simp only [true_or, if_true]
    exact hsingle (by simp [content, hsize]) (Or.inl err)
  | short length err content =>
    simp only [or_true, if_true]
    exact hsingle length err
  | failed length err =>
    have hgive : ¬(some r.err = some Err.eof ∨ some r.err = some Err.unexpectedEOF) := by
      simpa using err
    simp only [if_neg hgive, Option.isSome_some, if_true]
    exact .failed err (.nil rfl) .nil rfl rfl

/-! ## What a caller sees -/

/-- `WriteFrom` finishes a message exactly when the reader finished : the content of a reader
that comes to its end is sent as one message, and in a single frame if it fits ; any other error
of the reader is returned, with no final frame sent and the count of the bytes that were. -/
def Faithful (s : Sending) (op : Opcode) (r : Reader) : Prop :=
  ∃ fs, s.Sends fs (s.writeFrom D accepting op r).conn ∧
    if r.err = .eof then
      (s.writeFrom D accepting op r).count = r.content.length ∧
      (s.writeFrom D accepting op r).err = none ∧
      Whole op s.side.fragmentSize r.content fs ∧
      (r.content.length ≤ s.side.fragmentSize → fs.length = 1)
    else
      (s.writeFrom D accepting op r).err = some r.err ∧
      (∀ f ∈ fs, f.final = false) ∧
      (s.writeFrom D accepting op r).count = (fs.map fun f => f.payload.length).sum

/-- `WriteFrom` is faithful but for a reader that ends with `io.ErrUnexpectedEOF`. -/
theorem writeFrom_faithful (h : s.side.Vacant) (hsize : 0 < s.side.fragmentSize)
    (hop : op = .text ∨ op = .binary) (r : Reader) :
    s.Faithful D op r ↔ r.err ≠ .unexpectedEOF := by
  have hspec := writeFrom_spec D h hsize hop r
  unfold Faithful
  generalize s.writeFrom D accepting op r = res at hspec ⊢
  cases hspec with
  | whole err sends whole single count returned =>
    constructor
    · rintro ⟨gs, -, hres⟩ hunexpected
      rw [if_neg (by rw [hunexpected]; decide), returned] at hres
      exact absurd hres.1 (by simp)
    · intro hne
      have heof := err.resolve_right hne
      exact ⟨_, sends, by rw [if_pos heof]; exact ⟨count, returned, whole, single heof⟩⟩
  | failed err sends begun count returned =>
    refine ⟨fun _ => err.2, fun _ => ⟨_, sends, ?_⟩⟩
    rw [if_neg err.1, count, List.length_flatten, List.map_map]
    exact ⟨returned, begun.finals, rfl⟩

/-- A server with fragments of two bytes. -/
def pairs : Sending :=
  ⟨{ WriteSide.plain .server with fragmentSize := 2 }, []⟩

theorem ofConfig_pairs : WriteSide.ofConfig { role := .server, fragmentSize := 2 } false
    (fun _ => ⟨0, 0, 0, 0⟩) (fun _ _ => none) = .ok pairs.side :=
  rfl

/-- Five bytes in three reads, one of them empty ; the last comes with the end. -/
theorem writeFrom_faithful_pairs :
    pairs.side.Vacant ∧ pairs.Faithful .mute .text ⟨[[1], [], [2, 3, 4]], [5], .eof⟩ :=
  have hvacant : pairs.side.Vacant := ⟨rfl, rfl, rfl⟩
  ⟨hvacant, (writeFrom_faithful .mute hvacant (WriteSide.ofConfig_fragmentSize ofConfig_pairs)
    (Or.inl rfl) _).mpr (by decide)⟩

/-- A relayed connection that broke off after three bytes of its message : the message is sent
on with its last frame final, and no error is returned. -/
theorem writeFrom_hides_failure :
    let r : Reader := ⟨[[1, 2, 3]], [], .unexpectedEOF⟩
    ((pairs.writeFrom .mute accepting .text r).conn.sent.map fun out =>
      (out.item.frame.final, out.item.frame.payload)) = [(false, [1, 2]), (true, [3])] ∧
    (pairs.writeFrom .mute accepting .text r).err = none ∧ ¬pairs.Faithful .mute .text r := by
  intro r
  have herr : (pairs.writeFrom .mute accepting .text r).err = none := by decide
  refine ⟨by decide, herr, ?_⟩
  rintro ⟨fs, -, hres⟩
  rw [if_neg (by decide), herr] at hres
  exact absurd hres.1 (by simp)

end Sending

end Ews
