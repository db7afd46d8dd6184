import Ews.Assemble
import Ews.Modes

/-!
# A connection that reads

`ws/conn_read.go`, `ws/conn_compress.go` and `NewConn`, as the goroutine that reads uses
them : the reading side together with the decompressor attached to it and the receive
window. The decompressor takes its input from the reading side (`chunkSource`), so while it
streams the two are one `Inflation`.

Decompressors come from a pool shared by all connections. What the pool gives at each
request is a parameter (`pool`) ; what the connection gives back is in `returned`, and both
are idle.
-/

set_option linter.unusedSectionVars false

namespace Ews

open ReadSide

/-! ## Configuration -/

/-- `handshake.Compression`. -/
structure Compression where
  level : ℤ := 0
  minSize : ℤ := 0
  sendContextTakeover : Bool := false
  receiveContextTakeover : Bool := false
  sendWindowBits : ℤ := 0
  receiveWindowBits : ℤ := 0
  deriving DecidableEq, Repr

/-- `Config`. The sizes are of type `int`. -/
structure Config where
  role : Role := .server
  readBufferSize : ℤ := 0
  maxMessageSize : ℤ := 0
  fragmentSize : ℤ := 0
  validateUTF8 : Bool := false
  compression : Option Compression := none
  compressionShared : Bool := false
  handler : List ControlEvent → ControlEvent → Option Err := fun _ _ => none
  maxMessageSize_lt : maxMessageSize < 2 ^ 63 := by decide

/-- `validBits`. -/
def validBits (b : ℤ) : Bool :=
  b = 0 || (8 ≤ b && b ≤ 15)

/-- `cmp.Or` of two integers. -/
def cmpOr (x y : ℤ) : ℤ :=
  if x ≠ 0 then x else y

namespace Config

/-- The checks of `NewConn`. -/
def valid (cfg : Config) : Bool :=
  0 ≤ cfg.readBufferSize && 0 ≤ cfg.maxMessageSize && 0 ≤ cfg.fragmentSize &&
    cfg.compression.all fun comp => -2 ≤ comp.level && comp.level ≤ 9 && 0 ≤ comp.minSize &&
      validBits comp.sendWindowBits && validBits comp.receiveWindowBits

theorem sizes_nonneg {cfg : Config} (h : cfg.valid = true) :
    0 ≤ cfg.readBufferSize ∧ 0 ≤ cfg.maxMessageSize ∧ 0 ≤ cfg.fragmentSize := by
  simp only [valid, Bool.and_eq_true, decide_eq_true_eq] at h
  exact ⟨h.1.1.1, h.1.1.2, h.1.2⟩

theorem cmpOr_pos {x y : ℤ} (hx : 0 ≤ x) (hy : 0 < y) : 0 < (cmpOr x y).toNat := by
  unfold cmpOr
  split_ifs <;> omega

/-- The settings of a valid configuration, with the defaults for zero. -/
def settings (cfg : Config) (h : cfg.valid = true) : Settings where
  bufSize := (cmpOr cfg.readBufferSize (4 * 2 ^ 10)).toNat
  limit := (cmpOr cfg.maxMessageSize (8 * 2 ^ 20)).toNat
  fragmentSize := (cmpOr cfg.fragmentSize (64 * 2 ^ 10)).toNat
  validateUTF8 := cfg.validateUTF8
  handler := cfg.handler
  bufSize_pos := cmpOr_pos (sizes_nonneg h).1 (by decide)
  fragmentSize_pos := cmpOr_pos (sizes_nonneg h).2.2 (by decide)
  limit_lt := by
    have := cfg.maxMessageSize_lt
    unfold cmpOr
    split_ifs <;> omega

/-- `window`. -/
def window (takeover : Bool) (bits : ℤ) : Option Window :=
  if takeover then some { bits := bits } else none

end Config

/-! ## The connection -/

/-- `poolKeep`. -/
def poolKeep : ℕ := 2 ^ 20

/-- `ws.Conn` and its `decompressorContext`. -/
structure Conn (F : Flate) where
  side : ReadSide
  /-- Whether `msg` is not nil. -/
  held : Bool := false
  dec : Option (Decompressor F) := none
  window : Option Window := none
  large : Bool := false
  /-- What `decompressorPool.Get` gives at the `n`th call. -/
  pool : ℕ → Option { d : Decompressor F // d.Idle }
  gets : ℕ := 0
  /-- What was put into `decompressorPool`. -/
  returned : List (Decompressor F) := []

/-- `NewConn`. -/
def newConn {F : Flate} (cfg : Config) (transport : Transport)
    (pool : ℕ → Option { d : Decompressor F // d.Idle }) : Except Err (Conn F) :=
  if h : cfg.valid = true then
    .ok {
      side := {
        settings := cfg.settings h
        transport := transport
        rx := .init cfg.role cfg.compression.isSome }
      window := cfg.compression.bind fun comp =>
        Config.window comp.receiveContextTakeover comp.receiveWindowBits
      pool := pool }
  else .error .invalidConfig

/-- `chunkSource` : an error of the transport is remembered. -/
def chunkSource : ChunkSource ReadSide where
  next c :=
    match c.nextChunk with
    | (.ok chunk, c) => (.ok chunk, c)
    | (.error e, c) => (.error e, if e = .eof then c else { c with srcErr := some e })
  left := ReadSide.effort

namespace Conn

variable {F : Flate}

/-- `fail`. -/
def fail (c : Conn F) (e : Err) : Conn F :=
  { c with side := c.side.fail e }

/-! ## Decompressors -/

/-- `acquireDecompressor`. -/
def acquireDecompressor (c : Conn F) : Decompressor F × Conn F :=
  match c.dec with
  | some d => (d, c)
  | none =>
    let d := ((c.pool c.gets).map Subtype.val).getD {}
    (d, { c with dec := some d, gets := c.gets + 1 })

/-- A decompressor at work for the connection. -/
def inflation (c : Conn F) (d : Decompressor F) : Inflation F ReadSide :=
  ⟨d, c.window, c.side⟩

/-- The connection after work of its decompressor. -/
def settle (c : Conn F) (x : Inflation F ReadSide) : Conn F :=
  { c with dec := some x.dec, window := x.window, side := x.src }

/-- `releaseDecompressor`. -/
def releaseDecompressor (c : Conn F) : Conn F :=
  match c.dec with
  | none => c
  | some d =>
    let x := if c.large then (c.inflation d).releaseOutput else (c.inflation d).reset
    { c with dec := none, large := false, window := x.window, returned := c.returned ++ [x.dec] }

/-- `decompress`. -/
def decompress (c : Conn F) (payload : List UInt8) : Except Err (List UInt8) × Conn F :=
  let (d, c) := c.acquireDecompressor
  match (c.inflation d).decompress chunkSource payload c.side.settings.limit with
  | (.error e, x) =>
    let e := if e = .inflateTooLarge then Err.failure 1009 .messageTooLarge
      else .failure 1007 .invalidData
    (.error e, (c.settle x).fail e)
  | (.ok out, x) => (.ok out, { c.settle x with large := out.length > poolKeep })

/-- What `inflate` reads from : the message in progress, or the one it begins. -/
def opened (c : Conn F) : Inflation F ReadSide × Conn F :=
  let (d, c) := c.acquireDecompressor
  if c.side.streaming then (c.inflation d, c)
  else (Inflation.start ⟨d, c.window, { c.side with streaming := true }⟩, c)

/-- `inflate`, into a buffer of `n` bytes. -/
def inflate (c : Conn F) (n : ℕ) : Except Err (List UInt8) × Conn F :=
  let (x, c) := c.opened
  match x.read chunkSource n with
  | ((p, none), x) => (.ok p, c.settle x)
  | ((_, some e), x) =>
    let c := c.settle x
    if e = .eof then
      (.error .eof, { c with side := { c.side with streaming := false, inMessage := false } })
    else
      match c.side.readErr with
      | some r => (.error r, c)
      | none =>
        if c.side.srcErr = some e then (.error e, { c with side := c.side.terminate e })
        else
          let e := Err.failure 1007 .invalidData
          (.error e, c.fail e)

/-- A bound on the calls of `inflate` that give something. -/
def load (c : Conn F) : ℕ :=
  c.opened.1.load chunkSource

/-! ## Reading -/

/-- `releaseMsg`. -/
def releaseMsg (c : Conn F) : Conn F :=
  { c with held := false }

/-- `staging`, which takes hold of the message buffer. -/
def staging (c : Conn F) : Conn F :=
  { c with held := (MsgBuf.growMsg { held := c.held }).held }

/-- One round of the loop that inflates what `discard` skips. -/
def pourRound (c : Conn F) : Conn F ⊕ Except Err Unit × Conn F :=
  match c.inflate c.side.settings.fragmentSize with
  | (.ok _, c) => .inl c
  | (.error e, c) => .inr (if e = .eof then .ok () else .error e, c)

/-- The loop that inflates what `discard` skips. -/
def pour (c : Conn F) : Except Err Unit × Conn F :=
  Loop.run pourRound (c.load + 1) (fun c => (.error .noProgress, c)) c

/-- `discard`. -/
def discard (c : Conn F) : Except Err Unit × Conn F :=
  match if c.side.inMessage && c.side.rx.compressed && c.window.isSome then c.staging.pour
    else (.ok (), c) with
  | (.error e, c) => (.error e, c)
  | (.ok (), c) =>
    let c := { c with side := { c.side with streaming := false } }
    (c.side.skip.1, { c with side := c.side.skip.2 })

/-- The end of `NextMessage` : the next data frame starts a message. -/
def enter (c : Conn F) : Except Err Opcode × Conn F :=
  match c.side.nextFrame with
  | (.error e, side) => (.error e, { c with side := side })
  | (.ok (), side) =>
    (.ok side.rx.header.opcode, { c with side := { side with inMessage := true } })

/-- `NextMessage`. -/
def nextMessage (c : Conn F) : Except Err Opcode × Conn F :=
  match c.side.readErr with
  | some e => (.error e, c)
  | none =>
    match c.discard with
    | (.error e, c) => (.error e, c)
    | (.ok (), c) => c.releaseDecompressor.releaseMsg.enter

/-- `Read` : the bytes put into a buffer of `n`, or the error. -/
def read (c : Conn F) (n : ℕ) : Except Err (List UInt8) × Conn F :=
  match c.side.readErr with
  | some e => (.error e, c)
  | none =>
    if !c.side.inMessage then (.error .eof, c)
    else if n = 0 then (.ok [], c)
    else if c.side.rx.compressed then c.inflate n
    else
      match c.side.readPlain n with
      | (res, side) => (res, { c with side := side })

/-- One round of the loop of `WriteTo` for a compressed message. -/
def relayRound (s : Relay (Conn F)) :
    Relay (Conn F) ⊕ Option Err × Relay (Conn F) :=
  match s.conn.inflate s.conn.side.settings.fragmentSize with
  | (.error e, c) => .inr (if e = .eof then none else some e, { s with conn := c })
  | (.ok p, c) =>
    match Relay.hand { s with conn := c } p with
    | (some e, s) => .inr (some e, s)
    | (none, s) => .inl s

/-- `WriteTo` : the error, the bytes written, the writer and the connection. -/
def writeTo (c : Conn F) (w : Writer) : Option Err × Relay (Conn F) :=
  match c.side.readErr with
  | some e => (some e, ⟨0, w, c, c.held⟩)
  | none =>
    if !c.side.inMessage then (none, ⟨0, w, c, c.held⟩)
    else if c.side.rx.compressed then
      let c := c.staging
      Loop.run relayRound (c.load + 1) (fun s => (some .noProgress, s)) ⟨0, w, c, c.held⟩
    else
      match c.side.relay w c.held with
      | (err, s) => (err, { s with conn := { c with side := s.conn, held := s.held } })

/-- `finishMessage`. -/
def finishMessage (c : Conn F) (op : Opcode) (payload : List UInt8) :
    Except Err (Opcode × List UInt8) × Conn F :=
  let c := { c with side := { c.side with inMessage := false } }
  match if c.side.rx.compressed then c.decompress payload else (.ok payload, c) with
  | (.error e, c) => (.error e, c)
  | (.ok payload, c) =>
    if op = .text ∧ c.side.settings.validateUTF8 = true ∧ utf8Valid payload = false then
      (.error (.failure 1007 .invalidUTF8), c.fail (.failure 1007 .invalidUTF8))
    else (.ok (op, payload), c)

/-- `ReadMessage`. -/
def readMessage (c : Conn F) : Except Err (Opcode × List UInt8) × Conn F :=
  match c.nextMessage with
  | (.error e, c) => (.error e, c)
  | (.ok op, c) =>
    match c.side.assemble c.held with
    | (.error e, msg, side) => (.error e, { c with side := side, held := msg.held })
    | (.ok payload, msg, side) =>
      { c with side := side, held := msg.held }.finishMessage op payload

end Conn

end Ews
