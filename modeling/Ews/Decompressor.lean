import Ews.Inflate
import Ews.Window
import Mathlib.Data.Nat.Log

/-!
# The decompressor

`deflate/decompressor.go`. Whole messages are inflated from a slice that holds the
payload and the tail, streamed ones from a `ChunkSource` followed by the tail ; the reader
draws from either through `Feed`. The receive window a message uses is the connection's : an
`Inflation` is the decompressor together with that window and the source.

Storage is modelled by the capacity of the output, which sets the sizes of the reads in
`decompress`. A reader that is nil and one that is reset are the same machine.
-/

set_option linter.unusedSectionVars false

namespace Ews

open Bytes

/-- `ChunkSource`, with a bound on the chunks and bytes to come. -/
structure ChunkSource (τ : Type) where
  next : τ → Except Err (List UInt8) × τ
  left : τ → ℕ

/-- `messageReader`, whose source is passed along. -/
structure MessageReader where
  payload : List UInt8 := []
  tail : List UInt8 := []
  eof : Bool := false
  deriving DecidableEq, Repr

namespace MessageReader

variable {τ : Type}

/-- `exhausted`. -/
def exhausted (m : MessageReader) : Bool :=
  m.eof && m.payload.isEmpty && m.tail.isEmpty

/-- One round of `fill`. -/
def fillRound (C : ChunkSource τ) :
    MessageReader × τ → (MessageReader × τ) ⊕ Except Err Bool × MessageReader × τ
  | (m, s) =>
    if m.payload = [] ∧ m.eof = false then
      match C.next s with
      | (.error e, s) =>
        if e = .eof then .inr (.ok false, { m with eof := true }, s) else .inr (.error e, m, s)
      | (.ok chunk, s) => .inl ({ m with payload := chunk }, s)
    else .inr (.ok (!m.payload.isEmpty), m, s)

/-- `fill`. -/
def fill (C : ChunkSource τ) (m : MessageReader) (s : τ) : Except Err Bool × MessageReader × τ :=
  Loop.run (fillRound C) (C.left s + 2) (fun x => (.error .noProgress, x)) (m, s)

/-- `ReadByte`. -/
def readByte (C : ChunkSource τ) (m : MessageReader) (s : τ) : Except Err UInt8 × MessageReader × τ :=
  match m.fill C s with
  | (.error e, m, s) => (.error e, m, s)
  | (.ok true, m, s) =>
    match m.payload with
    | b :: bs => (.ok b, { m with payload := bs }, s)
    | [] => (.error .eof, m, s)
  | (.ok false, m, s) =>
    match m.tail with
    | b :: bs => (.ok b, { m with tail := bs }, s)
    | [] => (.error .eof, m, s)

end MessageReader

/-- What the reader draws from : the slice, or the message reader and its source. -/
structure Feed (τ : Type) where
  streaming : Bool
  slice : List UInt8
  input : MessageReader
  src : τ

namespace Feed

variable {τ : Type}

/-- The next byte in the current mode. -/
def next (C : ChunkSource τ) (f : Feed τ) : Except Err UInt8 × Feed τ :=
  if f.streaming then
    match f.input.readByte C f.src with
    | (res, m, s) => (res, { f with input := m, src := s })
  else
    match f.slice with
    | b :: bs => (.ok b, { f with slice := bs })
    | [] => (.error .eof, f)

/-- `exhausted` in the current mode. -/
def exhausted (f : Feed τ) : Bool :=
  if f.streaming then f.input.exhausted else f.slice.isEmpty

/-- A bound on the bytes to come. -/
def left (C : ChunkSource τ) (f : Feed τ) : ℕ :=
  if f.streaming then
    (if f.input.eof then 0 else C.left f.src) + f.input.payload.length + f.input.tail.length
  else f.slice.length

/-- The feed as a source of bytes. -/
def source (C : ChunkSource τ) : ByteSource (Feed τ) where
  next := next C
  exhausted := exhausted
  left := left C

end Feed

/-- `Decompressor`. `window` says whether the current message has a window. -/
structure Decompressor (F : Flate) where
  reader : Inflater F := Inflater.reset F []
  slice : List UInt8 := []
  inLen : ℕ := 0
  input : MessageReader := {}
  output : List UInt8 := []
  outCap : ℕ := 0
  window : Bool := false
  scratch : Window := {}
  kept : ℕ := 0
  streaming : Bool := false
  active : Bool := false
  done : Bool := false

/-- A decompressor with no message in progress. Its own window has the full size. -/
structure Decompressor.Idle {F : Flate} (d : Decompressor F) : Prop where
  active : d.active = false
  flag : d.window = false
  scratch : d.scratch.size = windowSize

/-- A decompressor at work : with the window of its direction and its source. -/
structure Inflation (F : Flate) (τ : Type) where
  dec : Decompressor F
  window : Option Window
  src : τ

/-- What an `int64` keeps of a number. -/
def int64 (n : ℤ) : ℤ :=
  n.bmod 0x10000000000000000

/-- The capacity `bufpool.Get` gives. -/
def poolCap (n : ℕ) : ℕ :=
  if n > 2 ^ 26 then n else 2 ^ max 10 (Nat.clog 2 n)

theorem le_poolCap (n : ℕ) : n ≤ poolCap n := by
  unfold poolCap
  split_ifs
  · exact le_rfl
  · calc n ≤ 2 ^ Nat.clog 2 n := Nat.le_pow_clog (by decide) n
      _ ≤ 2 ^ max 10 (Nat.clog 2 n) := Nat.pow_le_pow_right (by decide) (le_max_right _ _)

namespace Inflation

variable {F : Flate} {τ : Type}

/-- What the reader draws from. -/
def feed (x : Inflation F τ) : Feed τ :=
  ⟨x.dec.streaming, x.dec.slice, x.dec.input, x.src⟩

/-- After a read of the reader. -/
def withFeed (x : Inflation F τ) (r : Inflater F) (f : Feed τ) : Inflation F τ :=
  { x with dec := { x.dec with reader := r, slice := f.slice, input := f.input }, src := f.src }

/-- `finish`. -/
def finish (x : Inflation F τ) (ok : Bool) : Inflation F τ :=
  { x with
    window :=
      if x.dec.window then
        x.window.map fun w =>
          if !ok then w.reset
          else if !x.dec.streaming then w.remember (x.dec.output.drop x.dec.kept)
          else w
      else x.window
    dec :=
      { x.dec with
        window := false
        input := {}
        slice := []
        active := false
        done := false
        streaming := false } }

/-- `begin`, for a streamed message or for the payload of a whole one. -/
def begin (x : Inflation F τ) (payload : Option (List UInt8)) : Inflation F τ :=
  let x := if x.dec.active then x.finish false else x
  { x with
    dec :=
      { x.dec with
        reader := Inflater.reset F (Window.dictOf x.window)
        window := x.window.isSome
        scratch := x.dec.scratch.reset
        streaming := payload.isNone
        input := if payload.isNone then { tail := inflateTail } else x.dec.input
        slice := (payload.map (· ++ inflateTail)).getD x.dec.slice
        inLen := (payload.map fun p => (p ++ inflateTail).length).getD x.dec.inLen
        kept := 0
        active := true
        done := false } }

/-- `dict` for a reset within the message, after `p`. -/
def dict (x : Inflation F τ) (p : List UInt8) : List UInt8 × Inflation F τ :=
  if x.dec.streaming then
    (if x.dec.window then Window.dictOf x.window else x.dec.scratch.dict, x)
  else
    let out := x.dec.output ++ p
    if x.dec.window then
      let w := x.window.map fun w => w.remember (out.drop x.dec.kept)
      (Window.dictOf w, { x with window := w, dec := { x.dec with kept := out.length } })
    else (out.drop (out.length - windowSize), x)

/-- `Reset` of the reader. -/
def restart (x : Inflation F τ) (dict : List UInt8) : Inflation F τ :=
  { x with dec := { x.dec with reader := Inflater.reset F dict } }

/-- The history of streamed output. -/
def note (x : Inflation F τ) (p : List UInt8) : Inflation F τ :=
  if p ≠ [] ∧ x.dec.streaming = true then
    if x.dec.window then { x with window := x.window.map fun w => w.remember p }
    else { x with dec := { x.dec with scratch := x.dec.scratch.remember p } }
  else x

/-- The rest of a round of `Read`, once the reader has given `p` and `err`. -/
def readAfter (x : Inflation F τ) (p : List UInt8) (err : Option Err) :
    Inflation F τ ⊕ (List UInt8 × Option Err) × Inflation F τ :=
  match err with
  | some e =>
    if e = .eof then
      if x.feed.exhausted then
        if p = [] then .inr (([], some .eof), x.finish true)
        else .inr ((p, none), { x with dec := { x.dec with done := true } })
      else
        let (d, x) := x.dict p
        if p ≠ [] then .inr ((p, none), x.restart d) else .inl (x.restart d)
    else .inr (([], some e), x.finish false)
  | none =>
    if p = [] then .inr (([], some .noProgress), x.finish false) else .inr ((p, none), x)

/-- One round of `Read` into a buffer of `n` bytes. -/
def readRound (C : ChunkSource τ) (n : ℕ) (x : Inflation F τ) :
    Inflation F τ ⊕ (List UInt8 × Option Err) × Inflation F τ :=
  match x.dec.reader.read (Feed.source C) n x.feed with
  | ((p, err), r, f) => ((x.withFeed r f).note p).readAfter p err

/-- `Read` : the bytes put into a buffer of `n`, and the error. -/
def read (C : ChunkSource τ) (n : ℕ) (x : Inflation F τ) :
    (List UInt8 × Option Err) × Inflation F τ :=
  if !x.dec.active then (([], some .inflateNoMessage), x)
  else if x.dec.done then (([], some .eof), x.finish true)
  else Loop.run (readRound C n) (x.feed.left C + 1) (fun x => (([], some .noProgress), x)) x

/-- `Begin`. -/
def start (x : Inflation F τ) : Inflation F τ :=
  x.begin none

/-- `Reset`. -/
def reset (x : Inflation F τ) : Inflation F τ :=
  let x := x.finish false
  { x with dec := { x.dec with output := [] } }

/-- `ReleaseOutput`. -/
def releaseOutput (x : Inflation F τ) : Inflation F τ :=
  let x := x.reset
  { x with dec := { x.dec with output := [], outCap := 0, inLen := 0 } }

/-- `projected`. The product is one of `int64`s. -/
def projected (x : Inflation F τ) : ℤ :=
  if x.dec.streaming then 0
  else
    let remaining : ℤ := x.dec.slice.length
    let consumed := x.dec.inLen - remaining
    if consumed ≤ 0 then 0 else (int64 (x.dec.output.length * remaining)).tdiv consumed

/-- The size `grow` asks the pool for, if it does. -/
def growRequest (x : Inflation F τ) (n : ℕ) : Option ℕ :=
  if x.dec.outCap - x.dec.output.length ≥ n then none else some (x.dec.output.length + n)

/-- `grow`. -/
def grow (x : Inflation F τ) (n : ℕ) : Inflation F τ :=
  match x.growRequest n with
  | none => x
  | some size => { x with dec := { x.dec with outCap := poolCap size } }

/-- How much more a full output grows by. -/
def growth (x : Inflation F τ) : ℕ :=
  max 32768 (max (x.dec.output.length / 2) (x.projected + x.projected.tdiv 16).toNat)

/-- The growth at the head of a round of `Decompress`. -/
def growFull (x : Inflation F τ) : Inflation F τ :=
  if x.dec.outCap = x.dec.output.length then x.grow x.growth else x

/-- The size of the next read of `Decompress`. -/
def readSize (x : Inflation F τ) (maxSize : ℕ) : ℕ :=
  let size := x.dec.outCap - x.dec.output.length
  if (maxSize : ℤ) - x.dec.output.length < size then maxSize - x.dec.output.length + 1 else size

/-- What `Decompress` does with what a `Read` into the output gave it. -/
def decompressAfter (maxSize : ℕ) (err : Option Err) (x : Inflation F τ) :
    Inflation F τ ⊕ Except Err (List UInt8) × Inflation F τ :=
  if x.dec.output.length > maxSize then .inr (.error .inflateTooLarge, x.finish false)
  else if err = some .eof ∨ x.dec.done = true then .inr (.ok x.dec.output, x.finish true)
  else
    match err with
    | some e => .inr (.error e, x)
    | none => .inl x

/-- One round of the loop of `Decompress`. -/
def decompressRound (C : ChunkSource τ) (maxSize : ℕ) (x : Inflation F τ) :
    Inflation F τ ⊕ Except Err (List UInt8) × Inflation F τ :=
  let x := x.growFull
  match x.read C (x.readSize maxSize) with
  | ((p, err), x) =>
    decompressAfter maxSize err { x with dec := { x.dec with output := x.dec.output ++ p } }

/-- The size the reservation at the start of `Decompress` asks the pool for, if it does. -/
def reserveRequest (x : Inflation F τ) (payload : List UInt8) (maxSize : ℕ) : Option ℕ :=
  let hint := min (4 * payload.length) (int64 (maxSize + 1)).toNat
  if x.dec.outCap < hint then some hint else none

/-- The reservation at the start of `Decompress`. -/
def reserve (x : Inflation F τ) (payload : List UInt8) (maxSize : ℕ) : Inflation F τ :=
  match x.reserveRequest payload maxSize with
  | none => x
  | some hint => { x with dec := { x.dec with outCap := poolCap hint } }

/-- `Decompress`. -/
def decompress (C : ChunkSource τ) (payload : List UInt8) (maxSize : ℤ) (x : Inflation F τ) :
    Except Err (List UInt8) × Inflation F τ :=
  if maxSize < 0 then (.error .invalidLimit, x)
  else
    let x := x.begin (some payload)
    let x := { x with dec := { x.dec with output := [] } }
    let x := x.reserve payload maxSize.toNat
    Loop.run (decompressRound C maxSize.toNat) (maxSize.toNat + 2)
      (fun x => (.error .noProgress, x)) x

end Inflation

end Ews
