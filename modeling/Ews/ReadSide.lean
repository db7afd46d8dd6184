import Ews.Loop
import Ews.Messages
import Ews.Receiver
import Ews.Transport

/-!
# The reading side of a connection

`ws/conn_read.go`, the parts that do not inflate : reading the transport, advancing to
the next data frame, and the loops that take a plain message apart. Each loop of the
source is one round (`nextFrameRound`, `readRound`, ...) repeated by `Loop.run`, within
`ReadSide.effort`, which every round decreases : the bytes to come, counted twice, and
those the decoder holds.

Message buffers are lists. Their capacities and pools, `msgHint` among them, decide
where bytes are stored and not which, and are left out ; `MsgBuf.held` says whether the
connection holds a buffer, which `growMsg` asks before it appends.
-/

namespace Ews

/-- The configuration `NewConn` fixes, as far as reading goes. The sizes are positive
after the defaults for zero, and an `int`. -/
structure Settings where
  bufSize : ℕ
  limit : ℕ
  fragmentSize : ℕ
  validateUTF8 : Bool
  /-- The handler's answer to a call, given the calls before it. -/
  handler : List ControlEvent → ControlEvent → Option Err
  bufSize_pos : 0 < bufSize
  fragmentSize_pos : 0 < fragmentSize
  limit_lt : limit < 2 ^ 63

/-- A call of `readDirect` or `readInto` : the input the decoder held, the payload left in
the frame, and the bytes the transport gave. -/
structure DirectRead where
  pending : ℕ
  remaining : ℕ
  got : ℕ
  deriving DecidableEq, Repr

/-- The read side of `ws.Conn`, without the inflater. `calls`, `closes` and `direct` record
the calls of the handler, of `sendClose`, and of `readDirect` and `readInto` ; `nextErrs` the
errors that `Next` returned to `nextFrame`. -/
structure ReadSide where
  settings : Settings
  transport : Transport
  rx : Receiver
  inMessage : Bool := false
  readErr : Option Err := none
  streaming : Bool := false
  srcErr : Option Err := none
  calls : List ControlEvent := []
  closes : List ℕ := []
  direct : List DirectRead := []
  nextErrs : List Err := []

namespace ReadSide

/-- A bound on the rounds any loop can take. -/
def effort (c : ReadSide) : ℕ :=
  2 * c.transport.weight + c.rx.dec.pending.length

/-! ## Ending -/

/-- `c.readErr, c.inMessage, c.decomp.streaming = err, false, false`. -/
def terminate (c : ReadSide) (e : Err) : ReadSide :=
  { c with readErr := some e, inMessage := false, streaming := false }

/-- `fail` : a protocol failure also sends its close code. -/
def fail (c : ReadSide) (e : Err) : ReadSide :=
  match e with
  | .failure code _ => { c with closes := c.closes ++ [code] }.terminate e
  | _ => c.terminate e

/-- `handleControl`. -/
def handleControl (c : ReadSide) : Option Err × ReadSide :=
  match ControlEvent.ofFrame c.rx.controlOpcode c.rx.control with
  | none => (none, c)
  | some ev =>
    let c' := { c with calls := c.calls ++ [ev] }
    match c.settings.handler c.calls ev, ev with
    | some e, _ => (some e, c'.terminate e)
    | none, .close code reason => (some (.closed code reason), c'.terminate (.closed code reason))
    | none, _ => (none, c')

/-! ## Reading the transport -/

/-- `read`, with the tries it has left. -/
def readTries (c : ReadSide) (room : ℕ) : ℕ → Except Err (List UInt8) × ReadSide
  | 0 => (.error .noProgress, c)
  | k + 1 =>
    let (got, t) := c.transport.read room
    let c := { c with transport := t }
    match got with
    | ([], none) => c.readTries room k
    | ([], some e) =>
      (.error (if e = .eof ∧ c.rx.idle = false then .unexpectedEOF else e), c)
    | (bs, _) => (.ok bs, c)

/-- `read`. -/
def read (c : ReadSide) (room : ℕ) : Except Err (List UInt8) × ReadSide :=
  c.readTries room 100

/-- `fill`. -/
def fill (c : ReadSide) : Except Err Unit × ReadSide :=
  let c := { c with rx := c.rx.preserve }
  match c.read c.settings.bufSize with
  | (.error e, c) => (.error e, c)
  | (.ok bs, c) => (.ok (), { c with rx := c.rx.feed bs })

/-- One round of `nextFrame`. -/
def nextFrameRound (c : ReadSide) : ReadSide ⊕ Except Err Unit × ReadSide :=
  match c.rx.next with
  | (.error e, rx) => .inr (.error e, { c with rx := rx, nextErrs := c.nextErrs ++ [e] }.fail e)
  | (.ok .dataFrame, rx) => .inr (.ok (), { c with rx := rx })
  | (.ok .controlFrame, rx) =>
    match { c with rx := rx }.handleControl with
    | (some e, c) => .inr (.error e, c)
    | (none, c) => .inl c
  | (.ok .needInput, rx) =>
    match { c with rx := rx }.fill with
    | (.error e, c) => .inr (.error e, c)
    | (.ok (), c) => .inl c

/-- `nextFrame`. -/
def nextFrame (c : ReadSide) : Except Err Unit × ReadSide :=
  Loop.run nextFrameRound (c.effort + 1) (fun c => (.error .noProgress, c)) c

/-- `nextFrame` inside a loop : an error leaves the loop, a frame goes on with it. -/
def thenFrame {ρ : Type} (c : ReadSide) (leave : Err → ReadSide → ρ) : ReadSide ⊕ ρ :=
  match c.nextFrame with
  | (.error e, c) => .inr (leave e c)
  | (.ok (), c) => .inl c

/-- `fill` inside a loop. -/
def thenFill {ρ : Type} (c : ReadSide) (leave : Err → ReadSide → ρ) : ReadSide ⊕ ρ :=
  match c.fill with
  | (.error e, c) => .inr (leave e c)
  | (.ok (), c) => .inl c

/-- `Payload` and `PayloadN` of the receiver. -/
def payloadN (c : ReadSide) (n : ℤ) : Except Err (List UInt8 × Bool) × ReadSide :=
  ((c.rx.payloadN n).1, { c with rx := (c.rx.payloadN n).2 })

def payload (c : ReadSide) : Except Err (List UInt8 × Bool) × ReadSide :=
  c.payloadN c.rx.dec.buffered

def record (c : ReadSide) (d : DirectRead) : ReadSide :=
  { c with direct := c.direct ++ [d] }

/-- The read that `readDirect` and `readInto` share : up to `n` bytes of the open frame's
payload straight from the transport. -/
def readPayload (c : ReadSide) (n : ℕ) : Except Err (List UInt8) × ReadSide :=
  let pending := c.rx.dec.buffered
  let remaining := c.rx.remaining
  match c.read n with
  | (.error e, c) => (.error e, c.record ⟨pending, remaining, 0⟩)
  | (.ok bs, c) =>
    let c := { c with rx := c.rx.feed bs }.record ⟨pending, remaining, bs.length⟩
    match c.payloadN bs.length with
    | (.error e, c) => (.error e, c.fail e)
    | (.ok (chunk, _), c) => (.ok chunk, c)

/-- `readDirect`, into a buffer of `n` bytes. -/
def readDirect (c : ReadSide) (n : ℕ) : Except Err (List UInt8) × ReadSide :=
  c.readPayload n

/-- A message under assembly, and whether the connection holds the buffer it is in. -/
structure MsgBuf where
  held : Bool
  bytes : List UInt8 := []
  kept : bytes ≠ [] → held = true := by simp

namespace MsgBuf

/-- `growMsg`, as far as the contents go : a connection without a buffer takes an empty one. -/
def growMsg (msg : MsgBuf) : MsgBuf :=
  if msg.held then msg else { held := true }

/-- `appendMsg`. -/
def appendMsg (msg : MsgBuf) (chunk : List UInt8) : MsgBuf where
  held := true
  bytes := msg.growMsg.bytes ++ chunk
  kept _ := rfl

end MsgBuf

/-- `readInto`. -/
def readInto (c : ReadSide) (msg : MsgBuf) (n : ℕ) : Except Err Unit × MsgBuf × ReadSide :=
  match c.readPayload n with
  | (.error e, c) => (.error e, msg.growMsg, c)
  | (.ok chunk, c) => (.ok (), msg.appendMsg chunk, c)

/-! ## Plain messages -/

/-- One round of the loop in `Read`, for a buffer of `n` bytes. -/
def readRound (n : ℕ) (c : ReadSide) : ReadSide ⊕ Except Err (List UInt8) × ReadSide :=
  match c.payloadN n with
  | (.error e, c) => .inr (.error e, c.fail e)
  | (.ok (chunk, done), c) =>
    if chunk ≠ [] then .inr (.ok chunk, c)
    else if !done then
      if min n c.rx.remaining ≥ c.settings.bufSize then .inr (c.readDirect (min n c.rx.remaining))
      else c.thenFill fun e c => (.error e, c)
    else if !c.rx.messageOpen then .inr (.error .eof, { c with inMessage := false })
    else c.thenFrame fun e c => (.error e, c)

/-- The loop in `Read`. -/
def readPlain (n : ℕ) (c : ReadSide) : Except Err (List UInt8) × ReadSide :=
  Loop.run (readRound n) (c.effort + 1) (fun c => (.error .noProgress, c)) c

/-- An `io.Writer` : what it has accepted, and how many bytes of a chunk it accepts next,
with an error or without one. -/
structure Writer where
  written : List UInt8 := []
  accept : List UInt8 → List UInt8 → ℕ × Option Err

/-- `Write` : the bytes accepted and the error. -/
def Writer.write (w : Writer) (chunk : List UInt8) : (ℕ × Option Err) × Writer :=
  let (n, err) := w.accept w.written chunk
  ((min n chunk.length, err), { w with written := w.written ++ chunk.take n })

/-- The state of `WriteTo`, over a connection of type `κ` that holds a message buffer or not. -/
structure Relay (κ : Type) where
  total : ℕ
  writer : Writer
  conn : κ
  held : Bool

/-- Hand a chunk to the writer, as both loops of `WriteTo` do. -/
def Relay.hand {κ : Type} (s : Relay κ) (chunk : List UInt8) : Option Err × Relay κ :=
  let ((n, err), w) := s.writer.write chunk
  let s := { s with total := s.total + n, writer := w }
  match err with
  | some e => (some e, s)
  | none => (if n ≠ chunk.length then some .shortWrite else none, s)

/-- The end of a round of `WriteTo` : hand over the chunk, then go on in the message. -/
def relayChunk (s : Relay ReadSide) (chunk : List UInt8) (done : Bool) :
    Relay ReadSide ⊕ Option Err × Relay ReadSide :=
  match if chunk ≠ [] then s.hand chunk else (none, s) with
  | (some e, s) => .inr (some e, s)
  | (none, s) =>
    if !done then .inl s
    else if !s.conn.rx.messageOpen then
      .inr (none, { s with conn := { s.conn with inMessage := false } })
    else
      match s.conn.nextFrame with
      | (.error e, c) => .inr (some e, { s with conn := c })
      | (.ok (), c) => .inl { s with conn := c }

/-- One round of the loop of `WriteTo` for a plain message. -/
def relayRound (s : Relay ReadSide) : Relay ReadSide ⊕ Option Err × Relay ReadSide :=
  match s.conn.payload with
  | (.error e, c) => .inr (some e, { s with conn := c.fail e })
  | (.ok (chunk, done), c) =>
    if chunk = [] ∧ done = false then
      if c.rx.remaining < c.settings.bufSize then
        match c.fill with
        | (.error e, c) => .inr (some e, { s with conn := c })
        | (.ok (), c) => .inl { s with conn := c }
      else
        match c.readInto { held := s.held } (min c.rx.remaining c.settings.fragmentSize) with
        | (.error e, msg, c) => .inr (some e, { s with conn := c, held := msg.held })
        | (.ok (), msg, c) =>
          relayChunk { s with conn := c, held := msg.held } msg.bytes (c.rx.remaining == 0)
    else relayChunk { s with conn := c } chunk done

/-- The loop of `WriteTo` for a plain message. -/
def relay (w : Writer) (c : ReadSide) (held : Bool) : Option Err × Relay ReadSide :=
  Loop.run relayRound (c.effort + 1) (fun s => (some .noProgress, s)) ⟨0, w, c, held⟩

/-- `uint64(c.limit-len(msg))`. -/
def room (c : ReadSide) (msg : List UInt8) : ℕ :=
  (((c.settings.limit : ℤ) - msg.length) % 2 ^ 64).toNat

/-- How the inner loop of `assemble` leaves : the message is complete and borrowed, the frame
is complete, or an error. -/
inductive Gathered
  | whole (payload : List UInt8)
  | frame
  | error (e : Err)

/-- One round of the inner loop of `assemble`. -/
def gatherRound : MsgBuf × ReadSide → (MsgBuf × ReadSide) ⊕ Gathered × MsgBuf × ReadSide
  | (msg, c) =>
    match c.payload with
    | (.error e, c) => .inr (.error e, msg, c.fail e)
    | (.ok (chunk, done), c) =>
      if done && msg.bytes.isEmpty && !c.rx.messageOpen then .inr (.whole chunk, msg, c)
      else if chunk ≠ [] ∨ done then
        if done then .inr (.frame, msg.appendMsg chunk, c) else .inl (msg.appendMsg chunk, c)
      else if c.rx.remaining ≥ c.settings.bufSize then
        match c.readInto msg c.rx.remaining with
        | (.error e, msg, c) => .inr (.error e, msg, c)
        | (.ok (), msg, c) => .inl (msg, c)
      else
        match c.fill with
        | (.error e, c) => .inr (.error e, msg, c)
        | (.ok (), c) => .inl (msg, c)

/-- The inner loop of `assemble`. -/
def gather (msg : MsgBuf) (c : ReadSide) : Gathered × MsgBuf × ReadSide :=
  Loop.run gatherRound (c.effort + 1) (fun s => (.error .noProgress, s)) (msg, c)

/-- One round of the outer loop of `assemble` : a frame within the limit, gathered. -/
def assembleRound : MsgBuf × ReadSide →
    (MsgBuf × ReadSide) ⊕ Except Err (List UInt8) × MsgBuf × ReadSide
  | (msg, c) =>
    if c.rx.header.payloadLen > c.room msg.bytes then
      let e := Err.failure 1009 .messageTooLarge
      .inr (.error e, msg, c.fail e)
    else
      match c.gather msg with
      | (.error e, msg, c) => .inr (.error e, msg, c)
      | (.whole p, msg, c) => .inr (.ok p, msg, c)
      | (.frame, msg, c) =>
        if !c.rx.messageOpen then .inr (.ok msg.bytes, msg, c)
        else
          match c.nextFrame with
          | (.error e, c) => .inr (.error e, msg, c)
          | (.ok (), c) => .inl (msg, c)

/-- `assemble`. -/
def assemble (c : ReadSide) (held : Bool) : Except Err (List UInt8) × MsgBuf × ReadSide :=
  Loop.run assembleRound (c.effort + 1) (fun s => (.error .noProgress, s)) ({ held := held }, c)

/-- One round of `nextChunk`. -/
def nextChunkRound (c : ReadSide) : ReadSide ⊕ Except Err (List UInt8) × ReadSide :=
  match c.payload with
  | (.error e, c) => .inr (.error e, c.fail e)
  | (.ok (chunk, done), c) =>
    if chunk ≠ [] then .inr (.ok chunk, c)
    else if !done then c.thenFill fun e c => (.error e, c)
    else if !c.rx.messageOpen then .inr (.error .eof, c)
    else c.thenFrame fun e c => (.error e, c)

/-- `nextChunk`. -/
def nextChunk (c : ReadSide) : Except Err (List UInt8) × ReadSide :=
  Loop.run nextChunkRound (c.effort + 1) (fun c => (.error .noProgress, c)) c

/-- One round of the loop that ends `discard`. -/
def skipRound (c : ReadSide) : ReadSide ⊕ Except Err Unit × ReadSide :=
  if !c.inMessage then .inr (.ok (), c)
  else
    match c.payload with
    | (.error e, c) => .inr (.error e, c.fail e)
    | (.ok (chunk, done), c) =>
      if !done then
        if chunk = [] then c.thenFill fun e c => (.error e, c) else .inl c
      else if !c.rx.messageOpen then .inr (.ok (), { c with inMessage := false })
      else c.thenFrame fun e c => (.error e, c)

/-- The loop that ends `discard`. -/
def skip (c : ReadSide) : Except Err Unit × ReadSide :=
  Loop.run skipRound (c.effort + 1) (fun c => (.error .noProgress, c)) c

end ReadSide

end Ews
