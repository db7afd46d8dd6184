import Ews.Compressor
import Ews.Frames

/-!
# A connection that writes

`ws/conn_write.go` and `ws/prepared.go`, up to the transport and the queue. Every operation
takes the lock `wmu`, encodes at most one frame (`WriteSide.start`), hands it to the transport
or to the queue, and settles the state of a fragmented message (`WriteSide.finish`) before it
gives the lock back.

Along with the bytes an operation produces goes the frame they encode and, if the payload was
compressed, the payload itself (`Item`). The code has neither ; the results about what is on
the wire are stated with them.
-/

set_option linter.unusedSectionVars false

namespace Ews

/-- A byte slice : its length is an `int`. -/
abbrev Slice := { p : List UInt8 // p.length < 2 ^ 63 }

/-! ## Prepared messages -/

/-- `ws.Prepared`. -/
structure Prepared where
  op : Opcode
  frame : List UInt8
  payload : Slice
  data : op = .text ∨ op = .binary
  encoded : frame = (Frame.mk true false op none payload).bytes

/-- `Prepare`. -/
def prepare (op : Opcode) (payload : Slice) : Except Err Prepared :=
  if data : op = .text ∨ op = .binary then
    match h : Encoder.encode true op payload none with
    | .error e => .error e
    | .ok enc => .ok ⟨op, enc.h.raw ++ payload, payload, data, by
        rw [Encoder.encode_eq (Encoder.check_data (Or.inr data))] at h
        cases h
        rfl⟩
  else .error .protocol

namespace Prepared

/-- The payload of the compressed variant : compressed on its own, by any compressor of the
kind. -/
def compressed (D : Deflater) (p : Prepared) (comp : Compression) : List UInt8 :=
  (Compressor.compressChunk D { kind := .ofConfig comp } p.payload none true).1

/-- The frame of the compressed variant. -/
def variant (D : Deflater) (p : Prepared) (comp : Compression) : Frame :=
  ⟨true, true, p.op, none, p.compressed D comp⟩

/-- `compressedFor`, which keeps what it has built. -/
def compressedFor (D : Deflater) (p : Prepared) (comp : Compression) : List UInt8 :=
  match Encoder.encodeCompressed true p.op (p.compressed D comp) none with
  | .error _ => p.frame
  | .ok enc => enc.h.raw ++ p.compressed D comp

theorem compressedFor_eq (D : Deflater) (p : Prepared) (comp : Compression) :
    p.compressedFor D comp = (p.variant D comp).bytes := by
  have hrsv : (p.op != Opcode.continuation) = true := by rcases p.data with h | h <;> rw [h] <;> rfl
  rw [compressedFor, Encoder.encodeCompressed_eq (Or.inr p.data), hrsv]
  rfl

end Prepared

/-! ## The state under the lock -/

/-- `fragmentState`. -/
structure FragmentState where
  op : Opcode := 0
  first : Bool := false
  compressed : Bool := false
  heldCompressor : Bool := false
  deriving DecidableEq, Repr

/-- The part of `ws.Conn` that `wmu` guards, and what it reads of the configuration. -/
structure WriteSide where
  vectored : Bool
  fragmentSize : ℕ
  tx : Sender
  comp : CompressorContext
  frag : FragmentState := {}

/-- A frame and, if it was compressed, the payload it says. -/
structure Item where
  frame : Frame
  plain : Option (List UInt8) := none
  deriving DecidableEq, Repr

/-- What `fragment` does after its frame was handed over. -/
inductive After
  | nothing
  | fragment (final : Bool)
  deriving DecidableEq, Repr

/-- An encoded frame : header and body, or the bytes of a prepared message. -/
structure Outgoing where
  item : Item
  header : List UInt8 := []
  body : List UInt8 := []
  ext : Option (List UInt8) := none
  after : After := .nothing
  deriving DecidableEq, Repr

/-- The bytes of an encoded frame. -/
def Outgoing.bytes (out : Outgoing) : List UInt8 :=
  out.ext.getD (out.header ++ out.body)

/-- `coalesceLimit`. -/
def coalesceLimit : ℕ := 2 ^ 14

/-- The writes of the transport that `write`, or `WritePrepared`, makes. -/
def Outgoing.calls (out : Outgoing) (vectored : Bool) : List (List UInt8) :=
  match out.ext with
  | some frame => [frame]
  | none =>
    if out.body.length = 0 then [out.header]
    else if vectored then [out.header, out.body]
    else if out.body.length ≤ coalesceLimit then [out.header ++ out.body]
    else [out.header, out.body]

theorem Outgoing.flatten_calls (out : Outgoing) (vectored : Bool) :
    (out.calls vectored).flatten = out.bytes := by
  unfold calls bytes
  cases out.ext with
  | some frame => simp
  | none =>
    dsimp only
    split_ifs with h0
    · simp [List.length_eq_zero_iff.mp h0]
    · simp
    · simp
    · simp

/-- One operation under the lock. `WriteChunk` and `EndMessage` are `fragment` ; `Send` and
`SendPrepared` are those of the queue ; `sendClose` goes with a failure of the reading side. -/
inductive Op
  | write (op : Opcode) (payload : Slice)
  | beginMessage (op : Opcode)
  | fragment (payload : Slice) (final : Bool)
  | writePrepared (p : Prepared)
  | send (op : Opcode) (payload : Slice)
  | sendPrepared (p : Prepared)
  | ping (payload : Slice)
  | pong (payload : Slice)
  | close (code : UInt16) (reason : Slice)
  | sendClose (code : UInt16)

namespace WriteSide

/-- The half of `NewConn` that sets up the write side. -/
def ofConfig (cfg : Config) (vectored : Bool) (keys : ℕ → MaskKey)
    (pool : (kind : EncoderKind) → ℕ → Option { c : Compressor // c.Idle kind }) :
    Except Err WriteSide :=
  if h : cfg.valid = true then
    .ok {
      vectored := vectored
      fragmentSize := (cfg.settings h).fragmentSize
      tx := { role := cfg.role, keys := keys }
      comp :=
        match cfg.compression with
        | none => { pool := pool }
        | some comp =>
          { config := some comp
            minSize := cmpOr comp.minSize 128
            shared := cfg.compressionShared
            window := Config.window comp.sendContextTakeover comp.sendWindowBits
            pool := pool } }
  else .error .invalidConfig

/-- A connection with the default settings that compresses nothing, and whose keys are zero. -/
def plain (role : Role) : WriteSide where
  vectored := false
  fragmentSize := 64 * 2 ^ 10
  tx := { role := role, keys := fun _ => ⟨0, 0, 0, 0⟩ }
  comp := { pool := fun _ _ => none }

theorem ofConfig_plain (role : Role) : ofConfig { role := role } false (fun _ => ⟨0, 0, 0, 0⟩)
    (fun _ _ => none) = .ok (plain role) :=
  rfl

/-- The output of the sender, with the frame it encodes. -/
def framed (c : WriteSide) (item : Item) (after : After) :
    Except Err Sender.Output × Sender → Except Err Outgoing × WriteSide
  | (.error e, tx) => (.error e, { c with tx := tx })
  | (.ok (header, body), tx) =>
    (.ok { item := item, header := header, body := body, after := after }, { c with tx := tx })

/-- A payload `encodeData` sends as it is. -/
def encodePlain (c : WriteSide) (op : Opcode) (payload : List UInt8) :
    Except Err Outgoing × WriteSide :=
  c.framed { frame := c.tx.frame op true payload false } .nothing (c.tx.encode op payload)

/-- A payload `encodeData` compresses. -/
def encodePacked (D : Deflater) (c : WriteSide) (comp : Compression) (op : Opcode)
    (payload : List UInt8) : Except Err Outgoing × WriteSide :=
  let (out, x) := c.comp.compress D comp payload
  framed { c with comp := x } { frame := c.tx.frame op true out true, plain := some payload }
    .nothing (c.tx.encodeCompressed op out)

/-- `encodeData`. -/
def encodeData (D : Deflater) (c : WriteSide) (op : Opcode) (payload : List UInt8) :
    Except Err Outgoing × WriteSide :=
  match c.comp.config with
  | none => c.encodePlain op payload
  | some comp =>
    if payload.length < c.comp.minSize then c.encodePlain op payload
    else c.encodePacked D comp op payload

/-- `Write` under the lock, and `Send` if `reserve` refuses nothing. -/
def write (D : Deflater) (c : WriteSide) (reserve : ℕ → Option Err) (op : Opcode)
    (payload : List UInt8) : Except Err Outgoing × WriteSide :=
  if op ≠ .text ∧ op ≠ .binary then (.error .protocol, c)
  else if c.frag.op ≠ 0 then (.error .messageOpen, c)
  else
    match reserve payload.length with
    | some e => (.error e, c)
    | none => c.encodeData D op payload

/-- `BeginMessage`. -/
def beginMessage (c : WriteSide) (op : Opcode) : Except Err Unit × WriteSide :=
  if op ≠ .text ∧ op ≠ .binary then (.error .protocol, c)
  else if c.frag.op ≠ 0 then (.error .messageOpen, c)
  else if c.tx.closeSent then (.error .closing, c)
  else
    match c.comp.config with
    | none => (.ok (), { c with frag := { c.frag with op := op, first := true, compressed := false } })
    | some comp =>
      let (held, x) := c.comp.hold comp
      (.ok (), { c with
        comp := x
        frag := ⟨op, true, true, c.frag.heldCompressor || held⟩ })

/-- `endFragmented`. -/
def endFragmented (c : WriteSide) : WriteSide :=
  let c := { c with frag := { c.frag with op := 0 } }
  if c.frag.heldCompressor then
    { c with
      frag := { c.frag with heldCompressor := false }
      comp := if c.comp.shared || c.comp.window.isNone then c.comp.releaseCompressor else c.comp }
  else c

/-- The opcode of the next fragment. -/
def fragmentOp (c : WriteSide) : Opcode :=
  if c.frag.first then c.frag.op else .continuation

/-- The payload of the next fragment, compressed if the message is. -/
def packFragment (D : Deflater) (c : WriteSide) (payload : List UInt8) (final : Bool) :
    List UInt8 × CompressorContext :=
  if c.frag.compressed then c.comp.compressFragment D payload final else (payload, c.comp)

/-- `fragment`, up to its frame. -/
def fragment (D : Deflater) (c : WriteSide) (payload : List UInt8) (final : Bool) :
    Except Err Outgoing × WriteSide :=
  if c.frag.op = 0 then (.error .noMessage, c)
  else
    let (out, x) := c.packFragment D payload final
    match framed { c with comp := x }
      { frame := c.tx.frame c.fragmentOp final out c.frag.compressed
        plain := if c.frag.compressed then some payload else none } (.fragment final)
      (c.tx.encodeFragment c.fragmentOp final out c.frag.compressed) with
    | (.error e, c) => (.error e, c.endFragmented)
    | (.ok out, c) => (.ok out, c)

/-- The end of an operation, its frame being handed over or not. -/
def finish (c : WriteSide) (after : After) (err : Option Err) : WriteSide :=
  match after with
  | .nothing => c
  | .fragment final =>
    if err.isSome then c.endFragmented
    else
      let c := { c with frag := { c.frag with first := false } }
      if final then c.endFragmented else c

/-- `frameFor` : the bytes to send, and whether they are the compressed variant. -/
def frameFor (D : Deflater) (c : WriteSide) (p : Prepared) : Outgoing × Bool :=
  let plain : Outgoing :=
    { item := { frame := ⟨true, false, p.op, none, p.payload⟩ }, ext := some p.frame }
  match c.comp.config with
  | none => (plain, false)
  | some comp =>
    if (p.payload.val.length : ℤ) < c.comp.minSize then (plain, false)
    else ({ item := ⟨p.variant D comp, some p.payload⟩, ext := some (p.compressedFor D comp) }, true)

/-- A compressed variant is recorded in the send window. -/
def notePrepared (c : WriteSide) (p : Prepared) (compressed : Bool) : WriteSide :=
  match c.comp.window with
  | none => c
  | some w => if compressed then { c with comp := c.comp.notePrepared w p.payload } else c

theorem notePrepared_false (c : WriteSide) (p : Prepared) : c.notePrepared p false = c := by
  unfold notePrepared
  cases c.comp.window <;> rfl

/-- `preparedFrame`. -/
def preparedFrame (D : Deflater) (c : WriteSide) (p : Prepared) : Except Err Outgoing × WriteSide :=
  if c.frag.op ≠ 0 then (.error .messageOpen, c)
  else if c.tx.closeSent then (.error .closing, c)
  else (.ok (c.frameFor D p).1, c.notePrepared p (c.frameFor D p).2)

/-- `WritePrepared` under the lock, and `SendPrepared` if `reserve` refuses nothing. -/
def writePrepared (D : Deflater) (c : WriteSide) (reserve : ℕ → Option Err) (p : Prepared) :
    Except Err Outgoing × WriteSide :=
  if c.tx.role = .client then c.write D reserve p.op p.payload
  else
    match reserve p.payload.val.length with
    | some e => (.error e, c)
    | none => c.preparedFrame D p

/-- `send`, for a ping or a pong. -/
def control (c : WriteSide) (op : Opcode) (payload : List UInt8) : Except Err Outgoing × WriteSide :=
  c.framed { frame := c.tx.frame op true payload false } .nothing (c.tx.encode op payload)

/-- `Close` under the lock. -/
def close (c : WriteSide) (code : UInt16) (reason : List UInt8) : Except Err Outgoing × WriteSide :=
  c.framed { frame := c.tx.frame .close true (Sender.closePayload code reason) false } .nothing
    (c.tx.encodeClose code reason)

/-- `sendClose` under the lock : what goes wrong is dropped. -/
def sendClose (c : WriteSide) (code : UInt16) : Option Outgoing × WriteSide :=
  if c.tx.closeSent then (none, c)
  else
    match c.close code [] with
    | (.error _, c) => (none, c)
    | (.ok out, c) => (some out, c)

/-- An operation under the lock up to its frame, if it has one. `reserve` is the limit of the
queue. -/
def start (D : Deflater) (c : WriteSide) (reserve : ℕ → Option Err) :
    Op → Except Err (Option Outgoing) × WriteSide
  | .write op payload => (c.write D (fun _ => none) op payload).map (·.map some) id
  | .beginMessage op => (c.beginMessage op).map (·.map fun _ => none) id
  | .fragment payload final => (c.fragment D payload final).map (·.map some) id
  | .writePrepared p => (c.writePrepared D (fun _ => none) p).map (·.map some) id
  | .send op payload => (c.write D reserve op payload).map (·.map some) id
  | .sendPrepared p => (c.writePrepared D reserve p).map (·.map some) id
  | .ping payload => (c.control .ping payload).map (·.map some) id
  | .pong payload => (c.control .pong payload).map (·.map some) id
  | .close code reason => (c.close code reason).map (·.map some) id
  | .sendClose code => (c.sendClose code).map .ok id

end WriteSide

end Ews
