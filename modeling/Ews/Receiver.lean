import Ews.Grammar

/-!
# The receiver

`ws/receiver.go`. `Receiver.next` and `Receiver.payloadN` are the two ways input is
consumed ; `feed` and `preserve` only add to what the decoder holds.

`Receiver.expected r fut` is what `r` still has to deliver if the bytes `fut` are fed to
it : the grammar's events, taken up in the middle of a data frame, of a control frame
or between frames, wherever `r` stands. Feeding moves bytes from `fut` into the receiver
and leaves it (`expected_feed`). Each call hands out its first events and leaves the
rest (`next_spec`, `payloadN_spec`). `Coupled` is the invariant that ties the receiver's
counters to the decoder's.
-/

set_option linter.unusedSectionVars false

namespace Ews

open Bytes

/-- The result of `receiver.Next`. -/
inductive FrameKind
  | needInput
  | dataFrame
  | controlFrame
  deriving DecidableEq, Repr

/-- `ws.receiver`. `control` is `control[:controlLen]`. -/
structure Receiver where
  role : Role
  compression : Bool
  dec : Decoder := {}
  header : Header := {}
  remaining : ℕ := 0
  masked : Bool := false
  maskKey : MaskKey := ⟨0, 0, 0, 0⟩
  maskOffset : ℕ := 0
  messageOpcode : Opcode := 0
  compressed : Bool := false
  control : List UInt8 := []
  controlOpcode : Opcode := 0
  controlOpen : Bool := false
  closeReceived : Bool := false
  failed : Option Err := none
  deriving DecidableEq, Repr

namespace Receiver

/-- `Init`. -/
def init (role : Role) (compression : Bool) : Receiver :=
  { role, compression }

/-- `Feed` : nothing is fed after a close or failure. -/
def feed (r : Receiver) (b : List UInt8) : Receiver :=
  if r.failed = none ∧ r.closeReceived = false then { r with dec := r.dec.feed b } else r

def preserve (r : Receiver) : Receiver :=
  { r with dec := r.dec.preserve }

/-- `Idle` : no frame, message or partial input is in progress. -/
def idle (r : Receiver) : Bool :=
  r.remaining == 0 && !r.controlOpen && r.messageOpcode == 0 && r.dec.buffered == 0

def messageOpen (r : Receiver) : Bool :=
  r.messageOpcode != 0

/-- `fail`. -/
def fail (r : Receiver) (code : ℕ) (e : Err) : Except Err FrameKind × Receiver :=
  (.error (.failure code e),
    { r with
      failed := some (.failure code e)
      remaining := 0
      controlOpen := false
      messageOpcode := 0
      dec := r.dec.reset })

/-- `finishFrame`. -/
def finishFrame (r : Receiver) : Receiver :=
  if r.header.final then { r with messageOpcode := 0 } else r

/-- `finishControl`. -/
def finishControl (r : Receiver) : Except Err FrameKind × Receiver :=
  if r.controlOpcode = .close then
    match validateClose r.control with
    | .error e => r.fail (if e = .invalidUTF8 then 1007 else 1002) e
    | .ok () => (.ok .controlFrame, { r with closeReceived := true, dec := r.dec.reset })
  else (.ok .controlFrame, r)

/-- `accept` : the rules for a header, recording the message it starts. -/
def accept (r : Receiver) (h : Header) (length : ℕ) : Except Err Receiver :=
  if h.masked != (r.role == .server) || h.rsv2 || h.rsv3 then .error .protocol
  else if h.opcode == .text || h.opcode == .binary then
    if r.messageOpcode != 0 || h.rsv1 && !r.compression then .error .protocol
    else .ok { r with messageOpcode := h.opcode, compressed := h.rsv1 }
  else if h.opcode == .continuation then
    if r.messageOpcode == 0 || h.rsv1 then .error .protocol else .ok r
  else if h.opcode == .close || h.opcode == .ping || h.opcode == .pong then
    if !h.final || h.rsv1 || length > 125 then .error .protocol else .ok r
  else .error .protocol

/-- The part of `Next` that gathers an open control frame. -/
def gatherControl (r : Receiver) : Except Err FrameKind × Receiver :=
  let (chunk, done, dec) := r.dec.payload
  -- `copy` into the 125-byte buffer.
  let copied := chunk.take (125 - r.control.length)
  let r :=
    { r with
      dec := dec
      control := r.control ++ (if r.masked then mask r.maskKey r.maskOffset copied else copied)
      maskOffset := if r.masked then maskNext r.maskOffset copied.length else r.maskOffset }
  if done then finishControl { r with controlOpen := false } else (.ok .needInput, r)

/-- The part of `Next` that reads a header. -/
def nextHeader (r : Receiver) : Except Err FrameKind × Receiver :=
  let (ok, h, dec) := r.dec.nextHeaderInto r.header
  let r := { r with header := h, dec := dec }
  match ok with
  | .error e => r.fail 1002 e
  | .ok false => (.ok .needInput, r)
  | .ok true =>
    let length := h.payloadLen
    match r.accept h length with
    | .error e => r.fail 1002 e
    | .ok r =>
      let r :=
        { r with
          masked := h.masked
          maskOffset := 0
          maskKey := if h.masked then MaskKey.ofBytes h.maskKey else r.maskKey }
      if h.opcode ≥ Opcode.close then
        let r := { r with controlOpcode := h.opcode, control := [] }
        if length = 0 then r.finishControl else gatherControl { r with controlOpen := true }
      else
        let r := { r with remaining := length }
        (.ok .dataFrame, if length = 0 then r.finishFrame else r)

/-- `Next`. -/
def next (r : Receiver) : Except Err FrameKind × Receiver :=
  match r.failed with
  | some e => (.error e, r)
  | none =>
    if r.remaining ≠ 0 then (.error .payloadPending, r)
    else if r.closeReceived then (.ok .needInput, r)
    else if r.controlOpen then r.gatherControl
    else r.nextHeader

/-- `consumed`. -/
def consumed (r : Receiver) (chunk : List UInt8) (done : Bool) : List UInt8 × Receiver :=
  let plain := if r.masked then mask r.maskKey r.maskOffset chunk else chunk
  let r :=
    if chunk.length ≠ 0 then
      { r with
        maskOffset := if r.masked then maskNext r.maskOffset chunk.length else r.maskOffset
        remaining := r.remaining - chunk.length }
    else r
  (plain, if done then r.finishFrame else r)

/-- `PayloadN` : a chunk of the open data frame, and whether the frame is complete. -/
def payloadN (r : Receiver) (n : ℤ) : Except Err (List UInt8 × Bool) × Receiver :=
  match r.failed with
  | some e => (.error e, r)
  | none =>
    if r.remaining = 0 then (.ok ([], true), r)
    else
      let (chunk, done, dec) := r.dec.payloadN n
      let (plain, r) := { r with dec := dec }.consumed chunk done
      (.ok (plain, done), r)

/-- `Payload`. -/
def payload (r : Receiver) : Except Err (List UInt8 × Bool) × Receiver :=
  r.payloadN r.dec.buffered

/-! ## What is still to come -/

/-- The rules the receiver applies. -/
def rules (r : Receiver) : Rules :=
  ⟨r.role, r.compression⟩

/-- The key of the current frame. -/
def key (r : Receiver) : Option MaskKey :=
  if r.masked then some r.maskKey else none

/-- The receiver takes no more input. -/
def dead (r : Receiver) : Bool :=
  r.failed.isSome || r.closeReceived

/-- The events the receiver has still to deliver, if `fut` is fed to it. -/
def expected (r : Receiver) (fut : List UInt8) : List Event :=
  if r.dead then []
  else if r.controlOpen then
    r.rules.controlEvents r.messageOpen r.controlOpcode r.control r.key r.maskOffset
      r.dec.remaining (r.dec.pending ++ fut)
  else if r.remaining ≠ 0 then
    r.rules.dataEvents r.key r.maskOffset r.remaining r.header.final (r.dec.pending ++ fut)
  else r.rules.events r.messageOpen (r.dec.pending ++ fut)

/-- The receiver's counters agree with the decoder's. -/
structure Coupled (r : Receiver) : Prop where
  dead : r.dead = true → r.remaining = 0 ∧ r.controlOpen = false ∧ r.dec = {}
  control : r.dead = false → r.controlOpen = true → r.remaining = 0 ∧ 0 < r.dec.remaining ∧
    r.control.length + r.dec.remaining ≤ 125 ∧ r.controlOpcode.isControl = true
  data : r.dead = false → r.controlOpen = false → r.dec.remaining = r.remaining
  opened : r.remaining ≠ 0 → r.messageOpcode ≠ 0

theorem coupled_init (role : Role) (compression : Bool) : (init role compression).Coupled where
  dead := by simp [Receiver.dead, init]
  control := by simp [init]
  data := by simp [init]
  opened := by simp [init]

theorem expected_dead {r : Receiver} (h : r.dead = true) (fut : List UInt8) : r.expected fut = [] :=
  if_pos h

theorem expected_init (role : Role) (compression : Bool) (fut : List UInt8) :
    (init role compression).expected fut = Rules.events ⟨role, compression⟩ false fut := by
  simp [expected, init, dead, rules, messageOpen]

theorem expected_control {r : Receiver} (h : r.dead = false) (hc : r.controlOpen = true)
    (fut : List UInt8) : r.expected fut = r.rules.controlEvents r.messageOpen r.controlOpcode
      r.control r.key r.maskOffset r.dec.remaining (r.dec.pending ++ fut) := by
  simp [expected, h, hc]

/-- Outside a control frame. With nothing left of the data frame, what follows it. -/
theorem expected_data {r : Receiver} (h : r.dead = false) (hc : r.controlOpen = false)
    (hr : r.remaining ≠ 0) (fut : List UInt8) : r.expected fut =
      r.rules.dataEvents r.key r.maskOffset r.remaining r.header.final (r.dec.pending ++ fut) := by
  simp [expected, h, hc, hr]

theorem expected_between {r : Receiver} (h : r.dead = false) (hc : r.controlOpen = false)
    (hr : r.remaining = 0) (fut : List UInt8) : r.expected fut =
      r.rules.events r.messageOpen (r.dec.pending ++ fut) := by
  simp [expected, h, hc, hr]

/-! ## Feeding -/

theorem dead_eq_false {r : Receiver} :
    r.dead = false ↔ r.failed = none ∧ r.closeReceived = false := by
  simp [dead]

theorem feed_live {r : Receiver} (h : r.dead = false) (b : List UInt8) :
    r.feed b = { r with dec := r.dec.feed b } :=
  if_pos (dead_eq_false.mp h)

theorem feed_dead {r : Receiver} (h : r.dead = true) (b : List UInt8) : r.feed b = r := by
  apply if_neg
  rw [← dead_eq_false, h]
  decide

/-- Feeding moves bytes from what is to come into the receiver. -/
theorem expected_feed (r : Receiver) (b fut : List UInt8) :
    (r.feed b).expected fut = r.expected (b ++ fut) := by
  cases h : r.dead with
  | true => rw [feed_dead h, expected_dead h, expected_dead h]
  | false =>
    rw [feed_live h]
    simp only [expected, dead, rules, key, messageOpen, Decoder.feed_pending,
      Decoder.feed_remaining, List.append_assoc]
    rfl

theorem coupled_feed {r : Receiver} (h : r.Coupled) (b : List UInt8) : (r.feed b).Coupled := by
  cases hd : r.dead with
  | true => rwa [feed_dead hd]
  | false =>
    rw [feed_live hd]
    refine ⟨fun hd' => ?_, fun _ hc => ?_, fun _ hc => ?_, h.opened⟩
    · exact absurd (hd.symm.trans hd') (by decide)
    · simpa using h.control hd hc
    · simpa using h.data hd hc

@[simp] theorem preserve_eq (r : Receiver) : r.preserve = r := by
  simp [preserve]

/-! ## Taking payload -/

/-- `consumed` unmasks the chunk and moves past it. -/
theorem plain_eq (r : Receiver) (chunk : List UInt8) :
    (if r.masked then mask r.maskKey r.maskOffset chunk else chunk) =
      maskWith r.key r.maskOffset chunk := by
  unfold key
  cases r.masked <;> rfl

/-- The receiver once its data frame is known to have `remaining` bytes left : a frame
with none left is finished. -/
def settled (r : Receiver) : Receiver :=
  if r.remaining = 0 then r.finishFrame else r

theorem settled_eq (r : Receiver) : r.settled =
    { r with
      messageOpcode := if r.remaining = 0 ∧ r.header.final then 0 else r.messageOpcode } := by
  unfold settled finishFrame
  split_ifs <;> first | rfl | (exfalso; simp_all)

section Settled

variable {r : Receiver} (hl : r.dead = false) (hc : r.controlOpen = false)
  (hne : r.messageOpcode ≠ 0)
include hl hc hne

/-- After the last byte of a frame the message is open iff the frame was not final. -/
theorem messageOpen_settled (h0 : r.remaining = 0) : r.settled.messageOpen = !r.header.final := by
  rw [settled_eq]
  cases hf : r.header.final <;> simp [messageOpen, h0, hne]

theorem coupled_settled (hd : r.dec.remaining = r.remaining) : r.settled.Coupled := by
  rw [settled_eq]
  refine ⟨fun hdead => absurd (hl.symm.trans hdead) (by decide), fun _ hc' => ?_, fun _ _ => hd, ?_⟩
  · exact absurd (hc.symm.trans hc') (by decide)
  · intro (h0 : r.remaining ≠ 0)
    simpa [h0] using hne

theorem expected_settled (fut : List UInt8) : r.settled.expected fut =
    r.rules.dataEvents r.key r.maskOffset r.remaining r.header.final (r.dec.pending ++ fut) := by
  have hl' : r.settled.dead = false := by rw [settled_eq]; exact hl
  have hc' : r.settled.controlOpen = false := by rw [settled_eq]; exact hc
  have hr' : r.settled.remaining = r.remaining := by rw [settled_eq]
  by_cases h0 : r.remaining = 0
  · rw [expected_between hl' hc' (hr'.trans h0), messageOpen_settled hl hc hne h0, settled_eq, h0,
      Rules.dataEvents_zero]
    rfl
  · rw [expected_data hl' hc' (hr' ▸ h0), settled_eq]
    rfl

end Settled

/-- The receiver after `k` payload bytes of the open data frame, `k` at least one. -/
def moved (r : Receiver) (k : ℕ) : Receiver :=
  settled
    { r with
      dec := ⟨r.dec.pending.drop k, r.remaining - k⟩
      maskOffset := if r.masked then maskNext r.maskOffset k else r.maskOffset
      remaining := r.remaining - k }

/-- An unmasked payload has no offset to carry. -/
theorem dataEvents_moved (r : Receiver) (k n : ℕ) (bs : List UInt8) :
    r.rules.dataEvents r.key (if r.masked then maskNext r.maskOffset k else r.maskOffset) n
      r.header.final bs =
    r.rules.dataEvents r.key (maskNext r.maskOffset k) n r.header.final bs := by
  cases hm : r.masked <;> simp [key, hm, Rules.dataEvents, maskWith]

/-- `r'` is `r` after `PayloadN n` gave out `chunk` : the next payload bytes, unmasked,
and none only if `n` or the buffered input allows none. -/
structure Took (r : Receiver) (n : ℤ) (chunk : List UInt8) (r' : Receiver) : Prop where
  coupled : r'.Coupled
  live : r'.dead = false
  between : r'.controlOpen = false
  events : ∀ fut, r.expected fut = chunk.map .byte ++ r'.expected fut
  length : chunk.length = min (min n.toNat r.dec.pending.length) r.remaining
  remaining : r'.remaining + chunk.length = r.remaining
  pending : r'.dec.pending = r.dec.pending.drop chunk.length
  header : r'.header = r.header
  role : r'.role = r.role
  compression : r'.compression = r.compression
  compressed : r'.compressed = r.compressed
  opened : r'.remaining ≠ 0 → r'.messageOpcode = r.messageOpcode
  finished : r'.remaining = 0 → r'.messageOpen = !r.header.final

section Open

variable {r : Receiver} (h : r.Coupled) (hl : r.dead = false) (hr : r.remaining ≠ 0)
include h hl hr

/-- A data frame with payload left is not inside a control frame. -/
theorem controlOpen_of_remaining : r.controlOpen = false := by
  cases hc : r.controlOpen with
  | false => rfl
  | true => exact absurd (h.control hl hc).1 hr

theorem took_moved {k : ℕ} {n : ℤ} (hk : k = min (min n.toNat r.dec.pending.length) r.remaining) :
    r.Took n (maskWith r.key r.maskOffset (r.dec.pending.take k)) (r.moved k) := by
  have hc := controlOpen_of_remaining h hl hr
  have hop := h.opened hr
  have hchunk : (r.dec.pending.take k).length = k := by
    rw [List.length_take]
    omega
  have heq := settled_eq { r with
    dec := ⟨r.dec.pending.drop k, r.remaining - k⟩
    maskOffset := if r.masked then maskNext r.maskOffset k else r.maskOffset
    remaining := r.remaining - k }
  refine ⟨coupled_settled hl hc hop rfl, ?_, ?_, ?_, ?_, ?_, ?_, ?_, ?_, ?_, ?_, ?_, ?_⟩
  · rw [moved, heq]
    exact hl
  · rw [moved, heq]
    exact hc
  · intro fut
    rw [expected_data hl hc hr, Rules.dataEvents_take _ (by omega : k ≤ r.remaining)
      (by rw [List.length_append]; omega), List.take_append_of_le_length (by omega),
      List.drop_append_of_le_length (by omega), ← dataEvents_moved, moved,
      expected_settled (by exact hl) (by exact hc) (by exact hop)]
    rfl
  · rw [length_maskWith, hchunk, hk]
  · rw [length_maskWith, hchunk, moved, heq]
    show r.remaining - k + k = r.remaining
    omega
  · rw [length_maskWith, hchunk, moved, heq]
  · rw [moved, heq]
  · rw [moved, heq]
  · rw [moved, heq]
  · rw [moved, heq]
  · rw [moved, heq]
    intro hne
    simp [hne]
  · intro h0
    have h0' : r.remaining - k = 0 := by
      rw [moved, heq] at h0
      exact h0
    exact messageOpen_settled hl hc hop h0'

theorem took_nothing {n : ℤ} (hk : min (min n.toNat r.dec.pending.length) r.remaining = 0) :
    r.Took n [] r where
  coupled := h
  live := hl
  between := controlOpen_of_remaining h hl hr
  events := by simp
  length := by simp [hk]
  remaining := rfl
  pending := rfl
  header := rfl
  role := rfl
  compression := rfl
  compressed := rfl
  opened := fun _ => rfl
  finished := fun h0 => absurd h0 hr

theorem payloadN_live (n : ℤ) : r.payloadN n =
    (.ok (({ r with dec := (r.dec.payloadN n).2.2 }.consumed (r.dec.payloadN n).1
        (r.dec.payloadN n).2.1).1, (r.dec.payloadN n).2.1),
      ({ r with dec := (r.dec.payloadN n).2.2 }.consumed (r.dec.payloadN n).1
        (r.dec.payloadN n).2.1).2) := by
  obtain ⟨hf, -⟩ := dead_eq_false.mp hl
  unfold payloadN
  split
  · simp_all
  · rw [if_neg hr]

/-- `PayloadN` on an open data frame : the next `k` bytes, unmasked. -/
theorem payloadN_eq {k : ℕ} {n : ℤ} (hk : k = min (min n.toNat r.dec.pending.length) r.remaining) :
    r.payloadN n = (.ok (maskWith r.key r.maskOffset (r.dec.pending.take k),
      decide (r.remaining - k = 0)), if k = 0 then r else r.moved k) := by
  have hdr := h.data hl (controlOpen_of_remaining h hl hr)
  have hpay : r.dec.payloadN n = (r.dec.pending.take k, decide (r.remaining - k = 0),
      ⟨r.dec.pending.drop k, r.remaining - k⟩) := by
    rw [Decoder.payloadN_eq, hdr, ← hk]
    simp only [Prod.mk.injEq, true_and, decide_eq_decide, and_true]
    omega
  rw [payloadN_live h hl hr, hpay]
  by_cases hk0 : k = 0
  · have hdec : (⟨r.dec.pending, r.remaining⟩ : Decoder) = r.dec := by
      rw [← hdr]
    simp [hk0, hdec, consumed, hr]
  · have hlen : (r.dec.pending.take k).length = k := by
      rw [List.length_take]
      omega
    simp only [consumed, hlen, decide_eq_true_eq, ne_eq, hk0, not_false_eq_true, if_true, if_false]
    rw [← plain_eq]
    rfl

/-- `PayloadN` on an open data frame. -/
theorem payloadN_spec (n : ℤ) : ∃ chunk r',
    r.payloadN n = (.ok (chunk, decide (r'.remaining = 0)), r') ∧ r.Took n chunk r' := by
  generalize hk : min (min n.toNat r.dec.pending.length) r.remaining = k
  have heq := payloadN_eq h hl hr hk.symm
  by_cases hk0 : k = 0
  · refine ⟨[], r, ?_, took_nothing h hl hr (hk.trans hk0)⟩
    rw [heq]
    simp [hk0]
  · have hrem : (r.moved k).remaining = r.remaining - k := by
      rw [moved, settled_eq]
    refine ⟨_, _, ?_, took_moved h hl hr hk.symm⟩
    rw [heq, if_neg hk0, hrem]

end Open

/-- A receiver with payload left takes input. -/
theorem live_of_remaining {r : Receiver} (h : r.Coupled) (hr : r.remaining ≠ 0) :
    r.dead = false := by
  cases hd : r.dead with
  | false => rfl
  | true => exact absurd (h.dead hd).1 hr

/-- Inside a frame with no input there is no event. -/
theorem expected_of_pending {r : Receiver} (h : r.Coupled) (hr : r.remaining ≠ 0)
    (hp : r.dec.pending = []) : r.expected [] = [] := by
  have hl := live_of_remaining h hr
  rw [expected_data hl (controlOpen_of_remaining h hl hr) hr, hp]
  simp [Rules.dataEvents, Nat.pos_of_ne_zero hr, maskWith_nil]

/-- `PayloadN` gives nothing only for want of input. -/
theorem took_empty {r r' : Receiver} {n : ℤ} (took : r.Took n [] r') (hr : r.remaining ≠ 0)
    (hn : n.toNat = 0 → r.dec.pending.length = 0) : r.dec.pending = [] := by
  have hlen := took.length
  rw [List.length_nil] at hlen
  exact List.length_eq_zero_iff.mp (by omega)

/-! ## Taking frames -/

/-- `r'` is in the same message as `r`. -/
structure SameMessage (r r' : Receiver) : Prop where
  role : r'.role = r.role
  compression : r'.compression = r.compression
  messageOpcode : r'.messageOpcode = r.messageOpcode
  compressed : r'.compressed = r.compressed

/-- `r'` has opened the data frame whose header it holds, after `r`. -/
structure Opened (r r' : Receiver) : Prop where
  live : r'.dead = false
  between : r'.controlOpen = false
  role : r'.role = r.role
  compression : r'.compression = r.compression
  remaining : r'.remaining = r'.header.payloadLen
  starts : r'.header.opcode = .continuation ∧ r.messageOpen = true ∧
      r'.compressed = r.compressed ∨
    r'.header.opcode.startsMessage = true ∧ r.messageOpen = false ∧
      r'.compressed = r'.header.rsv1
  opened : r'.remaining ≠ 0 → r'.messageOpen = true
  finished : r'.remaining = 0 → r'.messageOpen = !r'.header.final

/-- The outcomes of `Next` where the events to come were `E` : it needs input and there
is no event without more ; it has opened a data frame ; it has a control frame, the
close being the last ; or it has failed for good. Each outcome hands out the first
event, and all but the first take input. -/
inductive Outcome (E : List UInt8 → List Event) (r : Receiver) :
    Except Err FrameKind → Receiver → Prop
  | need {r' : Receiver} (coupled : r'.Coupled) (live : r'.dead = false)
      (rem : r'.remaining = 0) (same : r.SameMessage r') (events : ∀ fut, E fut = r'.expected fut)
      (dry : r'.expected [] = []) (input : r'.dec.pending.length ≤ r.dec.pending.length) :
      Outcome E r (.ok .needInput) r'
  | data {r' : Receiver} (coupled : r'.Coupled) (opened : r.Opened r')
      (events : ∀ fut, E fut = .data r'.header.final r'.header.rsv1 r'.header.opcode
        r'.header.payloadLen :: r'.expected fut)
      (input : r'.dec.pending.length < r.dec.pending.length) : Outcome E r (.ok .dataFrame) r'
  | control {r' : Receiver} (coupled : r'.Coupled) (rem : r'.remaining = 0)
      (same : r.SameMessage r') (isControl : r'.controlOpcode.isControl = true)
      (unfailed : r'.failed = none) (dead : r'.dead = decide (r'.controlOpcode = .close))
      (ended : r'.controlOpen = false)
      (events : ∀ fut, E fut = .control r'.controlOpcode r'.control :: r'.expected fut)
      (valid : r'.controlOpcode = .close → validateClose r'.control = .ok ())
      (input : r'.dec.pending.length < r.dec.pending.length) : Outcome E r (.ok .controlFrame) r'
  | fail {r' : Receiver} {code : ℕ} {cause : Err} (coupled : r'.Coupled)
      (rules : r'.rules = r.rules) (failed : r'.failed = some (.failure code cause))
      (known : code = 1002 ∨ code = 1007) (events : ∀ fut, E fut = [.fail code]) :
      Outcome E r (.error (.failure code cause)) r'

theorem coupled_fail (r : Receiver) (code : ℕ) (e : Err) : (r.fail code e).2.Coupled where
  dead := by simp [fail, Decoder.reset]
  control := by simp [fail]
  data := by simp [fail, dead]
  opened := by simp [fail]

theorem outcome_fail {E : List UInt8 → List Event} {r : Receiver} (r₁ : Receiver) {code : ℕ}
    (e : Err) (hrules : r₁.rules = r.rules) (hcode : code = 1002 ∨ code = 1007)
    (h : ∀ fut, E fut = [.fail code]) : Outcome E r (r₁.fail code e).1 (r₁.fail code e).2 :=
  .fail (coupled_fail r₁ code e) hrules rfl hcode h

theorem rules_of_same {r r' : Receiver} (h : r.SameMessage r') : r'.rules = r.rules := by
  simp [rules, h.role, h.compression]

theorem rules_of_opened {r r' : Receiver} (h : r.Opened r') : r'.rules = r.rules := by
  simp [rules, h.role, h.compression]

theorem closeFault_eq (p : List UInt8) : closeFault p =
    match validateClose p with
    | .ok () => none
    | .error e => some (if e = .invalidUTF8 then 1007 else 1002) := by
  unfold closeFault validateClose
  by_cases h0 : p = []
  · simp [h0]
  · have hlen : p.length ≠ 0 := by simpa using h0
    rw [if_neg h0, if_neg hlen]
    by_cases h1 : 2 ≤ p.length ∧ p.length ≤ 125 ∧ validCloseCode (beNat (p.take 2)) = true
    · have h2 : (decide (p.length < 2) || decide (p.length > 125) ||
          !validCloseCode (beNat (p.take 2))) = false := by
        simp only [Bool.or_eq_false_iff, decide_eq_false_iff_not, Bool.not_eq_false']
        exact ⟨⟨by omega, by omega⟩, h1.2.2⟩
      rw [if_pos h1, h2]
      cases hu : utf8Valid (p.drop 2) <;> simp
    · have h2 : (decide (p.length < 2) || decide (p.length > 125) ||
          !validCloseCode (beNat (p.take 2))) = true := by
        simp only [Bool.or_eq_true, decide_eq_true_eq, Bool.not_eq_true']
        by_contra hn
        push Not at hn
        exact h1 ⟨by omega, by omega, by simpa using hn.2⟩
      rw [if_neg h1, h2]
      simp

/-- A whole control frame. -/
theorem finishControl_spec {q r : Receiver} (hl : r.dead = false) (hr : r.remaining = 0)
    (hc : r.controlOpen = false) (hdr : r.dec.remaining = 0)
    (hop : r.controlOpcode.isControl = true) (hsame : q.SameMessage r)
    (hin : r.dec.pending.length < q.dec.pending.length) (key : Option MaskKey) (offset : ℕ) :
    Outcome (fun fut => r.rules.controlEvents r.messageOpen r.controlOpcode r.control key offset 0
      (r.dec.pending ++ fut)) q r.finishControl.1 r.finishControl.2 := by
  obtain ⟨hf, hcr⟩ := dead_eq_false.mp hl
  unfold finishControl
  split_ifs with hclose
  · have hfault := closeFault_eq r.control
    cases hv : validateClose r.control with
    | error e =>
      refine outcome_fail r e (rules_of_same hsame) (ite_eq_or_eq _ _ _).symm fun fut => ?_
      rw [hv] at hfault
      simp [Rules.controlEvents, hclose, hfault]
    | ok u =>
      have hdead : Receiver.dead { r with closeReceived := true, dec := r.dec.reset } = true := by
        simp [dead]
      refine .control ⟨fun _ => ⟨hr, hc, rfl⟩, ?_, ?_, ?_⟩ hr ⟨hsame.1, hsame.2, hsame.3, hsame.4⟩
        hop hf ?_ hc (fun fut => ?_) (fun _ => hv) ?_
      · simp [hdead]
      · simp [hdead]
      · simp [hr]
      · exact hdead.trans (decide_eq_true hclose).symm
      · rw [hv] at hfault
        rw [expected_dead hdead]
        simp [Rules.controlEvents, hclose, hfault]
      · simp only [Decoder.reset, List.length_nil]
        omega
  · refine .control ⟨?_, ?_, ?_, ?_⟩ hr hsame hop hf ?_ hc (fun fut => ?_)
      (fun h => absurd h hclose) hin
    · simp [hl]
    · simp [hc]
    · intro _ _
      rw [hdr, hr]
    · simp [hr]
    · simp [hl, hclose]
    · rw [expected_between hl hc hr]
      simp [Rules.controlEvents, hclose]

theorem controlEvents_moved (r : Receiver) (k n : ℕ) (sofar bs : List UInt8) :
    r.rules.controlEvents r.messageOpen r.controlOpcode sofar r.key
      (if r.masked then maskNext r.maskOffset k else r.maskOffset) n bs =
    r.rules.controlEvents r.messageOpen r.controlOpcode sofar r.key (maskNext r.maskOffset k) n
      bs := by
  cases hm : r.masked <;> simp [key, hm, Rules.controlEvents, maskWith]

/-- The receiver with `k` more bytes of the open control frame gathered. -/
def gathered (r : Receiver) (k : ℕ) : Receiver :=
  { r with
    dec := ⟨r.dec.pending.drop k, r.dec.remaining - k⟩
    control := r.control ++ maskWith r.key r.maskOffset (r.dec.pending.take k)
    maskOffset := if r.masked then maskNext r.maskOffset k else r.maskOffset }

/-- The control buffer has room for the announced length, so `copy` cuts nothing. -/
theorem gatherControl_eq {r : Receiver} {k : ℕ} (hle : r.control.length + r.dec.remaining ≤ 125)
    (hk : k = min r.dec.pending.length r.dec.remaining) : r.gatherControl =
    if r.dec.remaining = k then finishControl { r.gathered k with controlOpen := false }
    else (.ok .needInput, r.gathered k) := by
  have hpay : r.dec.payload = (r.dec.pending.take k, decide (r.dec.remaining = k),
      ⟨r.dec.pending.drop k, r.dec.remaining - k⟩) := by
    rw [Decoder.payload, Decoder.payloadN_eq, Int.toNat_natCast, min_self, ← hk]
  have hlen : (r.dec.pending.take k).length = k := by
    rw [List.length_take]
    omega
  have hcopy : (r.dec.pending.take k).take (125 - r.control.length) = r.dec.pending.take k :=
    List.take_of_length_le (by omega)
  simp only [gatherControl, hpay, hcopy, hlen, decide_eq_true_eq, plain_eq, gathered]

section Gather

variable {r : Receiver} (h : r.Coupled) (hl : r.dead = false) (hc : r.controlOpen = true) {k : ℕ}
  (hk : k = min r.dec.pending.length r.dec.remaining)
include h hl hc hk

theorem expected_gathered (fut : List UInt8) : r.expected fut =
    (r.gathered k).rules.controlEvents (r.gathered k).messageOpen (r.gathered k).controlOpcode
      (r.gathered k).control (r.gathered k).key (r.gathered k).maskOffset
      (r.gathered k).dec.remaining ((r.gathered k).dec.pending ++ fut) := by
  rw [expected_control hl hc, Rules.controlEvents_take _ _ (by omega : k ≤ r.dec.remaining)
    (by rw [List.length_append]; omega), List.take_append_of_le_length (by omega),
    List.drop_append_of_le_length (by omega), ← controlEvents_moved]
  rfl

/-- Gathering an open control frame. -/
theorem gatherControl_spec {q : Receiver} (hsame : q.SameMessage r)
    (hin : r.dec.pending.length ≤ q.dec.pending.length) :
    Outcome r.expected q r.gatherControl.1 r.gatherControl.2 := by
  obtain ⟨hr, hpos, hle, hop⟩ := h.control hl hc
  have hev := expected_gathered h hl hc hk
  rw [gatherControl_eq hle hk]
  by_cases hdone : r.dec.remaining = k
  · have hdr : (r.gathered k).dec.remaining = 0 := by
      simp only [gathered]
      omega
    have hfin := @finishControl_spec q { r.gathered k with controlOpen := false } hl hr rfl hdr hop
      ⟨hsame.1, hsame.2, hsame.3, hsame.4⟩ (by simp only [gathered, List.length_drop]; omega)
      (r.gathered k).key (r.gathered k).maskOffset
    rw [if_pos hdone, show r.expected = _ from funext hev, hdr]
    exact hfin
  · have hall : k = r.dec.pending.length := by omega
    have hlen : (r.dec.pending.take k).length = k := by
      rw [List.length_take]
      omega
    rw [if_neg hdone]
    refine .need ⟨?_, ?_, ?_, ?_⟩ hl hr ⟨hsame.1, hsame.2, hsame.3, hsame.4⟩ (fun fut => ?_) ?_ ?_
    · intro hd
      exact absurd (hl.symm.trans hd) (by decide)
    · intro _ _
      refine ⟨hr, ?_, ?_, hop⟩
      · show 0 < r.dec.remaining - k
        omega
      · simp only [gathered, List.length_append, length_maskWith, hlen]
        omega
    · intro _ hc'
      exact absurd (hc.symm.trans hc') (by decide)
    · exact fun hne => absurd hr hne
    · rw [hev, expected_control (by exact hl) (by exact hc)]
    · rw [expected_control (by exact hl) (by exact hc)]
      apply if_pos
      simp only [gathered, List.append_nil, List.length_drop]
      omega
    · simp only [gathered, List.length_drop]
      omega

end Gather

/-- The receiver after accepting the header `hd`. -/
def accepted (r : Receiver) (hd : Header) : Receiver :=
  if hd.opcode.startsMessage then { r with messageOpcode := hd.opcode, compressed := hd.rsv1 }
  else r

/-- `accept` is the grammar's rule for a head. -/
theorem accept_eq {r : Receiver} {hd : Header} {fh : FrameHead} (hs : hd.Says fh) :
    r.accept hd fh.length = if r.rules.legal r.messageOpen fh then .ok (r.accepted hd)
      else .error .protocol := by
  unfold accept Rules.legal accepted rules messageOpen
  rw [hs.masked, hs.rsv2, hs.rsv3, hs.opcode, hs.rsv1, hs.final]
  by_cases hgen : (fh.key.isSome != (r.role == .server) || fh.rsv2 || fh.rsv3) = true
  · rw [if_pos hgen]
    cases hk : fh.key.isSome <;> cases hrole : (r.role == Role.server) <;> cases h2 : fh.rsv2 <;>
      cases h3 : fh.rsv3 <;> simp_all
  · have hgen' : (fh.key.isSome == (r.role == .server) && !fh.rsv2 && !fh.rsv3) = true := by
      cases hk : fh.key.isSome <;> cases hrole : (r.role == Role.server) <;>
        cases h2 : fh.rsv2 <;> cases h3 : fh.rsv3 <;> simp_all
    rw [if_neg hgen, hgen', Bool.true_and]
    by_cases hst : fh.opcode.startsMessage = true
    · have hst' : (fh.opcode == .text || fh.opcode == .binary) = true := hst
      rw [if_pos hst', if_pos hst, if_pos hst]
      cases (r.messageOpcode != 0) <;> cases fh.rsv1 <;> cases r.compression <;> simp
    · have hst' : ¬(fh.opcode == .text || fh.opcode == .binary) = true := hst
      rw [if_neg hst', if_neg hst, if_neg hst]
      by_cases hcont : (fh.opcode == .continuation) = true
      · rw [if_pos hcont, if_pos hcont]
        cases hm : (r.messageOpcode == 0) <;> cases fh.rsv1 <;> simp_all
      · rw [if_neg hcont, if_neg hcont]
        by_cases hctl : fh.opcode.isControl = true
        · have hctl' : (fh.opcode == .close || fh.opcode == .ping || fh.opcode == .pong) = true :=
            hctl
          rw [if_pos hctl', hctl]
          by_cases hlen : fh.length ≤ 125
          · have : ¬fh.length > 125 := by omega
            cases fh.final <;> cases fh.rsv1 <;> simp [hlen, this]
          · have : fh.length > 125 := by omega
            cases fh.final <;> cases fh.rsv1 <;> simp [hlen, this]
        · have hctl' : ¬(fh.opcode == .close || fh.opcode == .ping || fh.opcode == .pong) = true :=
            hctl
          rw [if_neg hctl', Bool.eq_false_of_not_eq_true hctl]
          simp

/-- The opcodes of legal heads. -/
theorem opcode_of_legal {R : Rules} {o : Bool} {fh : FrameHead} (h : R.legal o fh = true) :
    fh.opcode.startsMessage = true ∧ o = false ∨ fh.opcode = .continuation ∧ o = true ∨
      fh.opcode.isControl = true ∧ fh.length ≤ 125 := by
  unfold Rules.legal at h
  by_cases hst : fh.opcode.startsMessage = true
  · rw [if_pos hst] at h
    simp only [Bool.and_eq_true, Bool.not_eq_true'] at h
    exact Or.inl ⟨hst, h.2.1⟩
  · rw [if_neg hst] at h
    by_cases hcont : fh.opcode = .continuation
    · rw [if_pos (by simpa using hcont)] at h
      simp only [Bool.and_eq_true] at h
      exact Or.inr (Or.inl ⟨hcont, h.2.1⟩)
    · rw [if_neg (by simpa using hcont)] at h
      simp only [Bool.and_eq_true, decide_eq_true_eq] at h
      exact Or.inr (Or.inr ⟨h.2.1.1.1, h.2.2⟩)

/-- A legal control frame is short. -/
theorem length_of_control {R : Rules} {o : Bool} {fh : FrameHead} (h : R.legal o fh = true)
    (hctl : fh.opcode.isControl = true) : fh.length ≤ 125 := by
  rcases opcode_of_legal h with ⟨hst, -⟩ | ⟨hcont, -⟩ | hshort
  · simp only [Opcode.startsMessage, Bool.or_eq_true, beq_iff_eq] at hst
    rcases hst with hst | hst <;> rw [hst] at hctl <;> exact absurd hctl (by decide)
  · rw [hcont] at hctl
    exact absurd hctl (by decide)
  · exact hshort.2

theorem isControl_iff {op : Opcode} (h : op.startsMessage = true ∨ op = .continuation ∨
    op.isControl = true) : op ≥ Opcode.close ↔ op.isControl = true := by
  have hop : op = .text ∨ op = .binary ∨ op = .continuation ∨ op = .close ∨ op = .ping ∨
      op = .pong := by
    simp only [Opcode.startsMessage, Opcode.isControl, Bool.or_eq_true, beq_iff_eq] at h
    tauto
  rcases hop with rfl | rfl | rfl | rfl | rfl | rfl <;> decide

/-- The receiver that has read the header `hd` and stands at `dec`. -/
def entered (r : Receiver) (hd : Header) (dec : Decoder) : Receiver :=
  let r := ({ r with header := hd, dec := dec } : Receiver).accepted hd
  { r with
    masked := hd.masked
    maskOffset := 0
    maskKey := if hd.masked then MaskKey.ofBytes hd.maskKey else r.maskKey }

theorem entered_eq (r : Receiver) (hd : Header) (dec : Decoder) : r.entered hd dec =
    { r with
      header := hd
      dec := dec
      masked := hd.masked
      maskOffset := 0
      maskKey := if hd.masked then MaskKey.ofBytes hd.maskKey else r.maskKey
      messageOpcode := if hd.opcode.startsMessage then hd.opcode else r.messageOpcode
      compressed := if hd.opcode.startsMessage then hd.rsv1 else r.compressed } := by
  unfold entered accepted
  split_ifs <;> rfl

theorem key_entered {r : Receiver} {hd : Header} {fh : FrameHead} (hs : hd.Says fh)
    (dec : Decoder) : (r.entered hd dec).key = fh.key := by
  rw [entered_eq, key]
  simp only [hs.masked]
  cases hk : fh.key with
  | none => simp
  | some k => simp [hs.maskKey k hk]

theorem startsMessage_ne_zero {op : Opcode} (h : op.startsMessage = true) : op ≠ 0 := by
  rintro rfl
  exact absurd h (by decide)

section Header

variable {r : Receiver} (h : r.Coupled) (hl : r.dead = false) (hr : r.remaining = 0)
  (hc : r.controlOpen = false)
include h hl hr hc

/-- A legal data head opens its frame. -/
theorem nextHeader_data {hd : Header} {fh : FrameHead} {rest : List UInt8} (hs : hd.Says fh)
    (hp : parseHead r.dec.pending = .head fh rest)
    (hlegal : r.rules.legal r.messageOpen fh = true) (hctl : fh.opcode.isControl = false) :
    Outcome r.expected r (.ok .dataFrame)
      (settled { r.entered hd ⟨rest, fh.length⟩ with remaining := fh.length }) := by
  have hstart : fh.opcode.startsMessage = true ∧ r.messageOpen = false ∨
      fh.opcode = .continuation ∧ r.messageOpen = true := by
    rcases opcode_of_legal hlegal with h | h | h
    · exact Or.inl h
    · exact Or.inr h
    · simp [h.1] at hctl
  have hkey := key_entered (r := r) hs ⟨rest, fh.length⟩
  have hent := entered_eq r hd ⟨rest, fh.length⟩
  generalize r.entered hd ⟨rest, fh.length⟩ = r₁ at hkey hent ⊢
  have hne : r₁.messageOpcode ≠ 0 := by
    rw [hent]
    simp only [hs.opcode]
    rcases hstart with ⟨hst, -⟩ | ⟨hcont, hopen⟩
    · simpa [hst] using startsMessage_ne_zero hst
    · rw [if_neg (by rw [hcont]; decide)]
      simpa [messageOpen] using hopen
  have hlive : r₁.dead = false := by rw [hent]; exact hl
  have hctl₁ : r₁.controlOpen = false := by rw [hent]; exact hc
  have hhd : r₁.header = hd := by rw [hent]
  have heq := settled_eq { r₁ with remaining := fh.length }
  refine .data (coupled_settled hlive hctl₁ hne (by rw [hent])) ⟨?_, ?_, ?_, ?_, ?_, ?_, ?_, ?_⟩
    (fun fut => ?_) ?_
  · rw [heq]
    exact hlive
  · rw [heq]
    exact hctl₁
  · rw [heq, hent]
  · rw [heq, hent]
  · rw [heq, hent]
    exact hs.payloadLen.symm
  · rw [heq, hent]
    simp only [hs.opcode]
    rcases hstart with ⟨hst, hopen⟩ | ⟨hcont, hopen⟩
    · exact Or.inr ⟨hst, hopen, if_pos hst⟩
    · exact Or.inl ⟨hcont, hopen, if_neg (by rw [hcont]; decide)⟩
  · rw [heq]
    intro (h0 : fh.length ≠ 0)
    simpa [messageOpen, h0] using hne
  · intro h0
    rw [messageOpen_settled (by exact hlive) (by exact hctl₁) (by exact hne)
      (by rw [heq] at h0; exact h0), heq]
  · rw [expected_between hl hc hr, Rules.events_head _ _ (parseHead_append_head hp fut),
      if_pos hlegal, if_neg (by simp [hctl]),
      expected_settled (by exact hlive) (by exact hctl₁) (by exact hne), heq, ← hs.final,
      ← hs.rsv1, ← hs.opcode, ← hs.payloadLen, ← hkey]
    simp only [hhd]
    rw [hent]
    rfl
  · rw [heq, hent]
    have := parseHead_length hp
    show rest.length < r.dec.pending.length
    omega

/-- A legal control head, with its payload gathered as far as it is there. -/
theorem nextHeader_control {hd : Header} {fh : FrameHead} {rest : List UInt8} (hs : hd.Says fh)
    (hp : parseHead r.dec.pending = .head fh rest)
    (hlegal : r.rules.legal r.messageOpen fh = true) (hctl : fh.opcode.isControl = true)
    {r₁ : Receiver} (hr₁ : r₁ = { r.entered hd ⟨rest, fh.length⟩ with
      controlOpcode := hd.opcode
      control := [] }) :
    let res := if fh.length = 0 then r₁.finishControl
      else gatherControl { r₁ with controlOpen := true }
    Outcome r.expected r res.1 res.2 := by
  have hkey := key_entered (r := r) hs ⟨rest, fh.length⟩
  have hent := entered_eq r hd ⟨rest, fh.length⟩
  have hlen := length_of_control hlegal hctl
  have hnst : hd.opcode.startsMessage = false := by
    rw [hs.opcode]
    simp only [Opcode.isControl, Bool.or_eq_true, beq_iff_eq] at hctl
    rcases hctl with (h | h) | h <;> rw [h] <;> decide
  have hrest := parseHead_length hp
  rw [hent] at hr₁
  have hkey₁ : r₁.key = fh.key := by rw [hr₁, ← hkey, hent]; rfl
  have hsame : r.SameMessage r₁ := by
    rw [hr₁]
    exact ⟨rfl, rfl, if_neg (by simp [hnst]), if_neg (by simp [hnst])⟩
  have hlive : r₁.dead = false := by rw [hr₁]; exact hl
  have hop : r₁.controlOpcode = fh.opcode := by rw [hr₁]; exact hs.opcode
  have hctl₁ : r₁.controlOpcode.isControl = true := by rw [hop]; exact hctl
  have hrem : r₁.remaining = 0 := by rw [hr₁]; exact hr
  have hdec : r₁.dec = ⟨rest, fh.length⟩ := by rw [hr₁]
  have hev : ∀ fut, r.expected fut = r₁.rules.controlEvents r₁.messageOpen r₁.controlOpcode
      r₁.control r₁.key r₁.maskOffset fh.length (r₁.dec.pending ++ fut) := by
    intro fut
    rw [expected_between hl hc hr, Rules.events_head _ _ (parseHead_append_head hp fut),
      if_pos hlegal, if_pos hctl, hkey₁, hop, hdec]
    rw [show r₁.messageOpen = r.messageOpen by simp [messageOpen, hsame.messageOpcode],
      show r₁.rules = r.rules by simp [rules, hsame.role, hsame.compression], hr₁]
  intro res
  by_cases h0 : fh.length = 0
  · have hfin := finishControl_spec hlive hrem (by rw [hr₁]; exact hc) (by rw [hdec]; exact h0) hctl₁
      hsame (by rw [hdec]; show rest.length < _; omega) r₁.key r₁.maskOffset
    rw [show r.expected = _ from funext hev, show res = r₁.finishControl from if_pos h0, h0]
    exact hfin
  · have hco : Coupled { r₁ with controlOpen := true } := by
      refine ⟨fun hd => absurd (hlive.symm.trans hd) (by decide), fun _ _ => ?_, ?_, ?_⟩
      · refine ⟨hrem, ?_, ?_, hctl₁⟩
        · show 0 < r₁.dec.remaining
          rw [hdec]
          show 0 < fh.length
          omega
        · show r₁.control.length + r₁.dec.remaining ≤ 125
          rw [hdec, hr₁]
          simpa using hlen
      · simp
      · intro hne
        exact absurd hrem hne
    have hga := gatherControl_spec hco hlive rfl rfl (q := r)
      ⟨hsame.1, hsame.2, hsame.3, hsame.4⟩ (by show r₁.dec.pending.length ≤ _; rw [hdec]; show rest.length ≤ _; omega)
    rw [show res = gatherControl { r₁ with controlOpen := true } from if_neg h0]
    have hE : r.expected = Receiver.expected { r₁ with controlOpen := true } := by
      funext fut
      rw [hev, expected_control (by exact hlive) rfl]
      show _ = r₁.rules.controlEvents r₁.messageOpen r₁.controlOpcode r₁.control r₁.key
        r₁.maskOffset r₁.dec.remaining (r₁.dec.pending ++ fut)
      rw [hdec]
    rw [hE]
    exact hga

end Header

/-- What reading a header can do : wait for more input, fail, open a data frame, or start to
gather a control frame. -/
inductive HeaderStep (r : Receiver) : Except Err FrameKind × Receiver → Prop
  | more (parse : parseHead r.dec.pending = .more) : HeaderStep r (.ok .needInput, r)
  | invalid (parse : parseHead r.dec.pending = .invalid) :
      HeaderStep r (fail { r with header := {} } 1002 .invalidPayloadLength)
  | illegal {hd : Header} {fh : FrameHead} {rest : List UInt8}
      (parse : parseHead r.dec.pending = .head fh rest)
      (illegal : r.rules.legal r.messageOpen fh = false) :
      HeaderStep r (fail { r with header := hd, dec := ⟨rest, fh.length⟩ } 1002 .protocol)
  | control {hd : Header} {fh : FrameHead} {rest : List UInt8} (meaning : hd.Says fh)
      (raw : r.dec.pending = hd.raw ++ rest) (parse : parseHead r.dec.pending = .head fh rest)
      (legal : r.rules.legal r.messageOpen fh = true) (kind : fh.opcode.isControl = true)
      {r₁ : Receiver} (entered : r₁ = { r.entered hd ⟨rest, fh.length⟩ with
        controlOpcode := hd.opcode
        control := [] }) :
      HeaderStep r (if fh.length = 0 then r₁.finishControl
        else gatherControl { r₁ with controlOpen := true })
  | data {hd : Header} {fh : FrameHead} {rest : List UInt8} (meaning : hd.Says fh)
      (raw : r.dec.pending = hd.raw ++ rest) (parse : parseHead r.dec.pending = .head fh rest)
      (legal : r.rules.legal r.messageOpen fh = true) (kind : fh.opcode.isControl = false) :
      HeaderStep r (.ok .dataFrame,
        settled { r.entered hd ⟨rest, fh.length⟩ with remaining := fh.length })

theorem nextHeader_step {r : Receiver} (hdr : r.dec.remaining = 0) : HeaderStep r r.nextHeader := by
  obtain ⟨hmore, hinv, hhead⟩ := r.dec.nextHeaderInto_eq r.header hdr
  cases hp : parseHead r.dec.pending with
  | more =>
    unfold nextHeader
    rw [hmore hp]
    exact .more hp
  | invalid =>
    unfold nextHeader
    rw [hinv hp]
    exact .invalid hp
  | head fh rest =>
    obtain ⟨hd, hstep, hs⟩ := hhead fh rest hp
    have hraw := Decoder.nextHeaderInto_raw hstep
    have hacc := accept_eq (r := { r with header := hd, dec := ⟨rest, fh.length⟩ }) hs
    have hlegal : ({ r with header := hd, dec := ⟨rest, fh.length⟩ } : Receiver).rules.legal
        ({ r with header := hd, dec := ⟨rest, fh.length⟩ } : Receiver).messageOpen fh =
          r.rules.legal r.messageOpen fh := rfl
    rw [hlegal] at hacc
    unfold nextHeader
    rw [hstep]
    simp only [hs.payloadLen]
    cases hlg : r.rules.legal r.messageOpen fh with
    | false =>
      rw [hlg] at hacc
      rw [hacc]
      exact .illegal hp hlg
    | true =>
      rw [hlg, if_pos rfl] at hacc
      rw [hacc]
      have hop : fh.opcode.startsMessage = true ∨ fh.opcode = .continuation ∨
          fh.opcode.isControl = true := by
        rcases opcode_of_legal hlg with h | h | h
        · exact Or.inl h.1
        · exact Or.inr (Or.inl h.1)
        · exact Or.inr (Or.inr h.1)
      have hge : hd.opcode ≥ Opcode.close ↔ fh.opcode.isControl = true := by
        rw [hs.opcode]
        exact isControl_iff hop
      cases hctl : fh.opcode.isControl with
      | true =>
        simp only [if_pos (hge.mpr hctl)]
        exact .control hs hraw hp hlg hctl rfl
      | false =>
        simp only [if_neg (fun hn => absurd (hge.mp hn) (by simp [hctl]))]
        exact .data hs hraw hp hlg hctl

/-- Reading a header. -/
theorem nextHeader_spec {r : Receiver} (h : r.Coupled) (hl : r.dead = false)
    (hr : r.remaining = 0) (hc : r.controlOpen = false) :
    Outcome r.expected r r.nextHeader.1 r.nextHeader.2 := by
  have hstep := nextHeader_step (r := r) (by rw [h.data hl hc, hr])
  have hbetween := expected_between hl hc hr
  generalize r.nextHeader = out at hstep
  cases hstep with
  | more parse =>
    refine .need h hl hr ⟨rfl, rfl, rfl, rfl⟩ (fun _ => rfl) ?_ le_rfl
    rw [hbetween, List.append_nil, Rules.events_more _ _ parse]
  | invalid parse =>
    refine outcome_fail _ _ rfl (Or.inl rfl) fun fut => ?_
    rw [hbetween, Rules.events_invalid _ _ (parseHead_append_invalid parse fut)]
  | illegal parse illegal =>
    refine outcome_fail _ _ rfl (Or.inl rfl) fun fut => ?_
    rw [hbetween, Rules.events_head _ _ (parseHead_append_head parse fut), if_neg (by simp [illegal])]
  | control meaning raw parse legal kind entered =>
    exact nextHeader_control h hl hr hc meaning parse legal kind entered
  | data meaning raw parse legal kind => exact nextHeader_data h hl hr hc meaning parse legal kind

/-- `Next` on a live receiver whose data frame is drained. -/
theorem next_spec {r : Receiver} (h : r.Coupled) (hl : r.dead = false) (hr : r.remaining = 0) :
    Outcome r.expected r r.next.1 r.next.2 := by
  obtain ⟨hf, hcr⟩ := dead_eq_false.mp hl
  have hnext : r.next = if r.controlOpen then r.gatherControl else r.nextHeader := by
    unfold next
    split
    · simp_all
    · rw [if_neg (by omega), if_neg (by simp [hcr])]
  rw [hnext]
  cases hc : r.controlOpen with
  | true => exact gatherControl_spec h hl hc rfl ⟨rfl, rfl, rfl, rfl⟩ le_rfl
  | false => exact nextHeader_spec h hl hr hc

/-- A failed receiver repeats its error and stays as it is. -/
theorem next_failed {r : Receiver} {e : Err} (h : r.failed = some e) : r.next = (.error e, r) := by
  unfold next
  rw [h]

theorem payloadN_failed {r : Receiver} {e : Err} (h : r.failed = some e) (n : ℤ) :
    r.payloadN n = (.error e, r) := by
  unfold payloadN
  rw [h]

/-- A receiver that has read a close asks for input and gives nothing. -/
theorem next_closed {r : Receiver} (h : r.Coupled) (hf : r.failed = none)
    (hcr : r.closeReceived = true) : r.next = (.ok .needInput, r) := by
  obtain ⟨hr, -, -⟩ := h.dead (by simp [dead, hcr])
  unfold next
  rw [hf]
  simp [hr, hcr]

theorem payloadN_drained {r : Receiver} (hf : r.failed = none) (hr : r.remaining = 0) (n : ℤ) :
    r.payloadN n = (.ok ([], true), r) := by
  unfold payloadN
  rw [hf]
  simp [hr]

end Receiver

end Ews
