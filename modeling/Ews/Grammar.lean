import Ews.Codec
import Ews.Sender

/-!
# The frame grammar

The reference a receiver is compared with. It reads a whole byte string and gives the
events the protocol assigns to it : a data head, each payload byte unmasked, a whole
control frame, a failure with its close code. `Rules.events` stops at the first
violation and after a valid close. What is cut off by the end of the string gives no
event, so the events of a string extended by more input extend its events.

`Rules.legal` is the rule for one head : the mask bit says who sends, RSV2 and RSV3
are clear, RSV1 only marks the first frame of a message and only with compression,
text and binary start a message, continuation goes on with one, and a control frame
is final, plain and at most 125 bytes.
-/

namespace Ews

open Bytes

/-- What the protocol makes of a byte string, in order. -/
inductive Event
  | data (final rsv1 : Bool) (opcode : Opcode) (length : ℕ)
  | byte (b : UInt8)
  | control (opcode : Opcode) (payload : List UInt8)
  | fail (code : ℕ)
  deriving DecidableEq, Repr

/-- The close code of the failure a close payload causes. -/
def closeFault (p : List UInt8) : Option ℕ :=
  if p = [] then none
  else if 2 ≤ p.length ∧ p.length ≤ 125 ∧ validCloseCode (beNat (p.take 2)) = true then
    if utf8Valid (p.drop 2) then none else some 1007
  else some 1002

/-- The receiving role and whether compression was negotiated. -/
structure Rules where
  role : Role
  compression : Bool
  deriving DecidableEq, Repr

namespace Rules

/-- The rule for a head, with a message open or not. -/
def legal (R : Rules) (openMsg : Bool) (h : FrameHead) : Bool :=
  h.key.isSome == (R.role == .server) && !h.rsv2 && !h.rsv3 &&
    if h.opcode.startsMessage then !openMsg && (!h.rsv1 || R.compression)
    else if h.opcode == .continuation then openMsg && !h.rsv1
    else h.opcode.isControl && h.final && !h.rsv1 && decide (h.length ≤ 125)

/-- The events of a byte string. -/
def events (R : Rules) (openMsg : Bool) (bs : List UInt8) : List Event :=
  match hp : parseHead bs with
  | .more => []
  | .invalid => [.fail 1002]
  | .head h rest =>
    if R.legal openMsg h then
      if h.opcode.isControl then
        if rest.length < h.length then []
        else if h.opcode = .close then
          match closeFault (maskWith h.key 0 (rest.take h.length)) with
          | some code => [.fail code]
          | none => [.control .close (maskWith h.key 0 (rest.take h.length))]
        else
          .control h.opcode (maskWith h.key 0 (rest.take h.length)) ::
            R.events openMsg (rest.drop h.length)
      else
        .data h.final h.rsv1 h.opcode h.length ::
          ((maskWith h.key 0 (rest.take h.length)).map .byte ++
            if rest.length < h.length then [] else R.events (!h.final) (rest.drop h.length))
    else [.fail 1002]
termination_by bs.length
decreasing_by
  all_goals
    have := parseHead_length hp
    simp only [List.length_drop]
    omega

/-- The events from inside a data frame with `n` payload bytes left, the key applied
from `offset`. -/
def dataEvents (R : Rules) (key : Option MaskKey) (offset n : ℕ) (final : Bool)
    (bs : List UInt8) : List Event :=
  (maskWith key offset (bs.take n)).map .byte ++
    if bs.length < n then [] else R.events (!final) (bs.drop n)

/-- The events from inside a control frame with `n` bytes left, after `sofar`. -/
def controlEvents (R : Rules) (openMsg : Bool) (op : Opcode) (sofar : List UInt8)
    (key : Option MaskKey) (offset n : ℕ) (bs : List UInt8) : List Event :=
  if bs.length < n then []
  else if op = .close then
    match closeFault (sofar ++ maskWith key offset (bs.take n)) with
    | some code => [.fail code]
    | none => [.control .close (sofar ++ maskWith key offset (bs.take n))]
  else .control op (sofar ++ maskWith key offset (bs.take n)) :: R.events openMsg (bs.drop n)

variable (R : Rules) (openMsg : Bool)

theorem events_more {bs : List UInt8} (h : parseHead bs = .more) : R.events openMsg bs = [] := by
  rw [events]
  split <;> simp_all

theorem events_invalid {bs : List UInt8} (h : parseHead bs = .invalid) :
    R.events openMsg bs = [.fail 1002] := by
  rw [events]
  split <;> simp_all

/-- The events of a string that starts with a head. -/
theorem events_head {bs rest : List UInt8} {h : FrameHead} (hp : parseHead bs = .head h rest) :
    R.events openMsg bs =
      if R.legal openMsg h then
        if h.opcode.isControl then
          R.controlEvents openMsg h.opcode [] h.key 0 h.length rest
        else .data h.final h.rsv1 h.opcode h.length ::
          R.dataEvents h.key 0 h.length h.final rest
      else [.fail 1002] := by
  rw [events]
  split
  · simp_all
  · simp_all
  · rename_i h' rest' hp'
    obtain ⟨rfl, rfl⟩ := HeadParse.head.inj (hp'.symm.trans hp)
    simp only [controlEvents, dataEvents, List.nil_append]

/-- A frame with nothing left gives way to what follows it. -/
theorem dataEvents_zero (key : Option MaskKey) (offset : ℕ) (final : Bool) (bs : List UInt8) :
    R.dataEvents key offset 0 final bs = R.events (!final) bs := by
  simp [dataEvents]

/-- The events of a payload, taken `k` bytes at a time. -/
theorem dataEvents_take {key : Option MaskKey} {offset n k : ℕ} {final : Bool} {bs : List UInt8}
    (hk : k ≤ n) (hb : k ≤ bs.length) : R.dataEvents key offset n final bs =
      (maskWith key offset (bs.take k)).map .byte ++
        R.dataEvents key (maskNext offset k) (n - k) final (bs.drop k) := by
  have htake : bs.take n = bs.take k ++ (bs.drop k).take (n - k) := by
    rw [← List.take_add, Nat.add_sub_cancel' hk]
  have hlen : (bs.take k).length = k := by simp [hb]
  rw [dataEvents, htake, maskWith_append, hlen, List.map_append, List.append_assoc, dataEvents,
    List.drop_drop, Nat.add_sub_cancel' hk, List.length_drop]
  congr 3
  exact propext ⟨fun h => by omega, fun h => by omega⟩

/-- The same for a control payload. -/
theorem controlEvents_take {op : Opcode} {sofar : List UInt8} {key : Option MaskKey}
    {offset n k : ℕ} {bs : List UInt8} (hk : k ≤ n) (hb : k ≤ bs.length) :
    R.controlEvents openMsg op sofar key offset n bs =
      R.controlEvents openMsg op (sofar ++ maskWith key offset (bs.take k)) key
        (maskNext offset k) (n - k) (bs.drop k) := by
  have htake : bs.take n = bs.take k ++ (bs.drop k).take (n - k) := by
    rw [← List.take_add, Nat.add_sub_cancel' hk]
  have hlen : (bs.take k).length = k := by simp [hb]
  rw [controlEvents, htake, maskWith_append, hlen, controlEvents, List.drop_drop,
    Nat.add_sub_cancel' hk, List.length_drop, List.append_assoc]
  congr 1
  exact propext ⟨fun h => by omega, fun h => by omega⟩

end Rules

end Ews
