import Ews.Bytes
import Ews.Header
import Ews.Loop

/-!
# Inflating

`Flate` is the inflater of the compression library, as far as the code relies on it : a
machine that takes compressed bytes one at a time, gives out decoded bytes, and says
whether the stream has ended or is corrupt. Nothing is assumed of DEFLATE itself but that
one byte decodes to a bounded number of bytes. That the machine is a function of the
dictionary and the bytes, and takes no byte past the end of a stream, is in its type.

`Scan` is the meaning of a message : streams one after the other, each with the recent
history as its dictionary, the last one ending with the input. `Inflater` is the reader
around the machine. It decodes ahead of its caller, and hands out what it has decoded
in portions that depend on the machine's own buffer (`flush`) and on the caller's. What it
hands out over many reads does not (`Tracks`, `Inflater.read_spec`).
-/

set_option linter.unusedSectionVars false

namespace Ews

open Bytes

/-- The state of a DEFLATE stream after a byte of it. -/
inductive Status
  | running
  | ended
  | corrupt
  deriving DecidableEq, Repr

/-- The inflater of the compression library. -/
structure Flate where
  State : Type
  /-- `Reset` with a dictionary. -/
  fresh : List UInt8 → State
  step : State → UInt8 → State × List UInt8
  status : State → Status
  /-- Whether the decoded bytes held back are made available to `Read`. -/
  flush : State → List UInt8 → Bool
  expansion : ℕ
  step_length : ∀ st b, (step st b).2.length ≤ expansion

/-- `inflateTail`. -/
def inflateTail : List UInt8 :=
  [0, 0, 0xff, 0xff, 1, 0, 0, 0xff, 0xff]

variable {F : Flate}

/-! ## The meaning of a message -/

/-- A place in a message : inside a stream, or before one, with the history so far. -/
structure Scan (F : Flate) where
  state : Option F.State
  hist : List UInt8

namespace Scan

/-- The machine that takes the next byte. A stream starts with the recent history. -/
def machine (size : ℕ) (x : Scan F) : F.State :=
  x.state.getD (F.fresh (lastN size x.hist))

/-- The place after the machine has moved to `y.1` and given out `y.2`. -/
def after (x : Scan F) (y : F.State × List UInt8) : Option (List UInt8 × Scan F) :=
  match F.status y.1 with
  | .running => some (y.2, ⟨some y.1, x.hist ++ y.2⟩)
  | .ended => some (y.2, ⟨none, x.hist ++ y.2⟩)
  | .corrupt => none

/-- One byte of the message, with what it decodes to. -/
def step (size : ℕ) (x : Scan F) (b : UInt8) : Option (List UInt8 × Scan F) :=
  x.after (F.step (x.machine size) b)

/-- The rest of a message : all of it decodes, and it ends with a stream. -/
def finish (size : ℕ) (x : Scan F) : List UInt8 → Option (List UInt8)
  | [] => if x.state.isNone then some [] else none
  | b :: bs =>
    match x.step size b with
    | none => none
    | some (out, y) => (finish size y bs).map (out ++ ·)

/-- Only the recent history matters. -/
theorem finish_congr (size : ℕ) : ∀ (bs : List UInt8) {x y : Scan F}, x.state = y.state →
    lastN size x.hist = lastN size y.hist → x.finish size bs = y.finish size bs
  | [], x, y, hs, _ => by simp [finish, hs]
  | b :: bs, x, y, hs, hh => by
    have hm : x.machine size = y.machine size := by simp [machine, hs, hh]
    have happ := lastN_append_congr hh (F.step (y.machine size) b).2
    simp only [finish, step, hm, after]
    cases F.status (F.step (y.machine size) b).1 with
    | running => exact congrArg (Option.map _) (finish_congr size bs rfl happ)
    | ended => exact congrArg (Option.map _) (finish_congr size bs rfl happ)
    | corrupt => rfl

end Scan

/-- What a compressed message means after the history `hist`. -/
def Flate.inflate (F : Flate) (size : ℕ) (hist payload : List UInt8) : Option (List UInt8) :=
  Scan.finish (F := F) size ⟨none, hist⟩ (payload ++ inflateTail)

/-! ## Stored blocks -/

/-- Where a decoder of stored blocks stands : before a block, in the lengths of one, in its
bytes with so many left, or after the final one. -/
inductive StoredState
  | head
  | lengths (final : Bool) (bytes : List UInt8)
  | body (final : Bool) (left : ℕ)
  | ended
  | corrupt
  deriving DecidableEq, Repr

namespace StoredState

/-- The end of a block. -/
def close (final : Bool) : StoredState :=
  if final then ended else head

/-- One byte of a block. -/
def step : StoredState → UInt8 → StoredState × List UInt8
  | head, b => (if b &&& 6 = 0 then lengths (b &&& 1 = 1) [] else corrupt, [])
  | lengths final [l₀, l₁, n₀], n₁ =>
    (if n₀ = ~~~l₀ ∧ n₁ = ~~~l₁ then
      if l₀ = 0 ∧ l₁ = 0 then close final else body final (l₀.toNat + 256 * l₁.toNat)
    else corrupt, [])
  | lengths final bytes, b => (lengths final (bytes ++ [b]), [])
  | body final left, b => (if left ≤ 1 then close final else body final (left - 1), [b])
  | ended, _ => (ended, [])
  | corrupt, _ => (corrupt, [])

/-- Whether the blocks go on. -/
def status : StoredState → Status
  | ended => .ended
  | corrupt => .corrupt
  | _ => .running

theorem step_length (st : StoredState) (b : UInt8) : (st.step b).2.length ≤ 1 := by
  unfold step
  split <;> simp

end StoredState

/-- The inflater restricted to stored blocks, which need no history. -/
def Flate.stored : Flate where
  State := StoredState
  fresh _ := .head
  step := StoredState.step
  status := StoredState.status
  flush _ queue := 2 ≤ queue.length
  expansion := 1
  step_length := StoredState.step_length

/-! ## Sources of bytes -/

/-- Where an inflater draws its input : `ReadByte`, the test for the end, and a bound on
the bytes to come. -/
structure ByteSource (β : Type) where
  next : β → Except Err UInt8 × β
  exhausted : β → Bool
  left : β → ℕ

/-- The source gives the bytes and then `io.EOF`, ending in a state that satisfies `Q`. -/
def ByteSource.Supplies {β : Type} (S : ByteSource β) (Q : β → Prop) : List UInt8 → β → Prop
  | [], s => S.exhausted s = true ∧ Q s ∧
      ∃ s', S.next s = (.error .eof, s') ∧ S.left s' ≤ S.left s
  | b :: bs, s => S.exhausted s = false ∧
      ∃ s', S.next s = (.ok b, s') ∧ S.left s' < S.left s ∧ S.Supplies Q bs s'

theorem ByteSource.Supplies.exhausted {β : Type} {S : ByteSource β} {Q : β → Prop} {s : β} :
    ∀ {bs : List UInt8}, S.Supplies Q bs s → (S.exhausted s = true ↔ bs = [])
  | [], h => by simp [h.1]
  | b :: bs, h => by simp [h.1]

/-! ## The reader -/

/-- `flate`'s reader : the machine, decoded bytes it holds back, those available to `Read`,
and the error to report after them. -/
structure Inflater (F : Flate) where
  state : F.State
  queue : List UInt8 := []
  toRead : List UInt8 := []
  err : Option Err := none

namespace Inflater

/-- `Reset`. -/
def reset (F : Flate) (dict : List UInt8) : Inflater F :=
  { state := F.fresh dict }

/-- Everything decoded is made available, and `e` follows it. -/
def close (r : Inflater F) (e : Err) : Inflater F :=
  { r with toRead := r.queue, queue := [], err := some e }

/-- The machine has moved to `y.1` and given out `y.2`. -/
def take (r : Inflater F) (y : F.State × List UInt8) : Inflater F :=
  let r := { r with state := y.1, queue := r.queue ++ y.2 }
  match F.status y.1 with
  | .corrupt => r.close .corruptInput
  | .ended => r.close .eof
  | .running => if F.flush y.1 r.queue then { r with toRead := r.queue, queue := [] } else r

/-- Decode one more byte. The end of the input inside a stream is `io.ErrUnexpectedEOF`. -/
def pull {β : Type} (S : ByteSource β) (r : Inflater F) (s : β) : Inflater F × β :=
  match S.next s with
  | (.error e, s) => (r.close (if e = .eof then .unexpectedEOF else e), s)
  | (.ok b, s) => (r.take (F.step r.state b), s)

/-- One round of `Read` into a buffer of `n` bytes. -/
def readRound {β : Type} (S : ByteSource β) (n : ℕ) :
    Inflater F × β → (Inflater F × β) ⊕ (List UInt8 × Option Err) × Inflater F × β
  | (r, s) =>
    if r.toRead ≠ [] then
      let rest := r.toRead.drop n
      .inr ((r.toRead.take n, if rest = [] then r.err else none), { r with toRead := rest }, s)
    else
      match r.err with
      | some e => .inr (([], some e), r, s)
      | none => .inl (r.pull S s)

/-- `Read`. -/
def read {β : Type} (S : ByteSource β) (n : ℕ) (r : Inflater F) (s : β) :
    (List UInt8 × Option Err) × Inflater F × β :=
  Loop.run (readRound S n) (S.left s + 2) (fun x => (([], some .noProgress), x)) (r, s)

theorem length_take (r : Inflater F) (y : F.State × List UInt8) (h : r.toRead = []) :
    (r.take y).toRead.length + (r.take y).queue.length = r.queue.length + y.2.length := by
  unfold take
  cases F.status y.1 with
  | corrupt => simp [close]
  | ended => simp [close]
  | running =>
    dsimp only
    split_ifs <;> simp [h]

/-- A bound on what the reader can still hand out. -/
def load {β : Type} (S : ByteSource β) (r : Inflater F) (s : β) : ℕ :=
  (F.expansion + 1) * S.left s + (r.toRead.length + r.queue.length)

end Inflater

/-- What every read of the source keeps, every `Read` keeps. -/
theorem Inflater.read_keeps {β : Type} {S : ByteSource β} {P : β → Prop}
    (h : ∀ s, P s → P (S.next s).2) {s : β} (hs : P s) (r : Inflater F) (n : ℕ) :
    P (r.read S n s).2.2 := by
  refine Loop.run_keeps (fun x => P x.2) (Q := fun out : (List UInt8 × Option Err) × Inflater F × β =>
    P out.2.2) ?_ hs hs _
  rintro ⟨r₁, s₁⟩ hs₁
  have hnext := h s₁ hs₁
  simp only [Inflater.readRound]
  by_cases hne : r₁.toRead ≠ []
  · rw [if_pos hne]
    exact hs₁
  · rw [if_neg hne]
    generalize r₁.err = err
    cases err with
    | some e => exact hs₁
    | none =>
      show P (r₁.pull S s₁).2
      unfold Inflater.pull
      generalize S.next s₁ = out at hnext
      obtain ⟨res, s₂⟩ := out
      cases res <;> exact hnext

/-! ## Reading -/

section Tracks

variable {β : Type} (S : ByteSource β) (Q : β → Prop) (size : ℕ) (hist : List UInt8)
  (goal : Option (List UInt8))

/-- Where a reader stands in a message that means `goal` after the history `hist`, with
`sofar` handed out : inside it, at the end of one of its streams, or at an error the
message is to blame for. -/
inductive Tracks (sofar : List UInt8) : Inflater F → β → Prop
  | running {r : Inflater F} {s : β} {x : Scan F} {rest : List UInt8} (err : r.err = none)
      (state : r.state = x.machine size) (history : x.hist = hist ++ sofar ++ (r.toRead ++ r.queue))
      (more : x.state = none → rest ≠ [])
      (meaning : goal = (x.finish size rest).map (sofar ++ (r.toRead ++ r.queue) ++ ·))
      (supplies : S.Supplies Q rest s) : Tracks sofar r s
  | ended {r : Inflater F} {s : β} {rest : List UInt8} (err : r.err = some .eof)
      (queue : r.queue = [])
      (meaning : goal = (Scan.finish (F := F) size ⟨none, hist ++ sofar ++ r.toRead⟩ rest).map
        (sofar ++ r.toRead ++ ·)) (supplies : S.Supplies Q rest s) : Tracks sofar r s
  | bad {r : Inflater F} {s : β} {e : Err} (err : r.err = some e) (fault : e ≠ .eof)
      (queue : r.queue = []) (meaning : goal = none) : Tracks sofar r s

variable {S Q size hist goal} {sofar : List UInt8}

/-- What the machine gives out keeps track of the message. -/
theorem tracks_take {r : Inflater F} {s : β} {x : Scan F} {y : F.State × List UInt8}
    {rest : List UInt8} (herr : r.err = none) (hempty : r.toRead = [])
    (history : x.hist = hist ++ sofar ++ r.queue)
    (meaning : goal = (match x.after y with
      | none => none
      | some (out, z) => (z.finish size rest).map (out ++ ·)).map (sofar ++ r.queue ++ ·))
    (supplies : S.Supplies Q rest s) : Tracks S Q size hist goal sofar (r.take y) s := by
  unfold Scan.after at meaning
  unfold Inflater.take
  cases hst : F.status y.1 with
  | corrupt =>
    rw [hst] at meaning
    exact .bad (e := .corruptInput) rfl (by simp) rfl meaning
  | ended =>
    rw [hst, history] at meaning
    refine .ended rfl rfl ?_ supplies
    simpa [Inflater.close, Function.comp_def] using meaning
  | running =>
    rw [hst, history] at meaning
    dsimp only
    split_ifs with hflush
    · refine .running (x := ⟨some y.1, hist ++ sofar ++ r.queue ++ y.2⟩) herr rfl ?_ (by simp) ?_
        supplies
      · simp
      · simpa [Function.comp_def] using meaning
    · refine .running (x := ⟨some y.1, hist ++ sofar ++ r.queue ++ y.2⟩) herr rfl ?_ (by simp) ?_
        supplies
      · simp [hempty]
      · simpa [hempty, Function.comp_def] using meaning

/-- Decoding one more byte keeps track of the message. Unless it is at fault, that takes
a byte of the source. -/
theorem tracks_pull {r : Inflater F} {s : β} (h : Tracks S Q size hist goal sofar r s)
    (herr : r.err = none) (hempty : r.toRead = []) :
    Tracks S Q size hist goal sofar (r.pull S s).1 (r.pull S s).2 ∧
      (r.pull S s).1.load S (r.pull S s).2 ≤ r.load S s ∧
      ((r.pull S s).1.err = none ∨ (r.pull S s).1.err = some .eof →
        S.left (r.pull S s).2 < S.left s) := by
  cases h with
  | ended err => exact absurd (herr.symm.trans err) (by simp)
  | bad err => exact absurd (herr.symm.trans err) (by simp)
  | @running x rest err state history more meaning supplies =>
    rw [hempty, List.nil_append] at history meaning
    cases rest with
    | nil =>
      obtain ⟨-, -, s', hnext, hleft⟩ := supplies
      have hinside : x.state.isNone = false := by
        cases hx : x.state with
        | none => exact absurd rfl (more hx)
        | some st => rfl
      have hpull : r.pull S s = (r.close .unexpectedEOF, s') := by
        simp [Inflater.pull, hnext]
      rw [hpull]
      refine ⟨.bad rfl (by simp) rfl ?_, ?_, by simp [Inflater.close]⟩
      · rw [meaning]
        simp [Scan.finish, hinside]
      · have := Nat.mul_le_mul_left (F.expansion + 1) hleft
        simp only [Inflater.load, Inflater.close, hempty, List.length_nil]
        omega
    | cons b rest =>
      obtain ⟨-, s', hnext, hleft, supplies⟩ := supplies
      have hpull : r.pull S s = (r.take (F.step r.state b), s') := by
        simp [Inflater.pull, hnext]
      have hmul : (F.expansion + 1) * (S.left s' + 1) ≤ (F.expansion + 1) * S.left s :=
        Nat.mul_le_mul_left _ hleft
      rw [Nat.mul_add, Nat.mul_one] at hmul
      have hlen := F.step_length r.state b
      have hpend := r.length_take (F.step r.state b) hempty
      rw [hpull]
      refine ⟨tracks_take herr hempty history ?_ supplies, ?_, fun _ => hleft⟩
      · rw [meaning, Scan.finish, Scan.step, ← state]
      · simp only [Inflater.load, hpend, hempty, List.length_nil]
        omega

/-- The outcomes of `Read` : the next bytes of the message ; its last stream's end, or the end
of one before others, perhaps with bytes ; or an error that is the message's. -/
inductive InflateRead (S : ByteSource β) (Q : β → Prop) (size : ℕ) (hist : List UInt8)
    (goal : Option (List UInt8)) (sofar : List UInt8) (n : ℕ) (r : Inflater F) (s : β) :
    (List UInt8 × Option Err) × Inflater F × β → Prop
  | chunk {p : List UInt8} {r' : Inflater F} {s' : β} (nonempty : p ≠ []) (length : p.length ≤ n)
      (tracks : Tracks S Q size hist goal (sofar ++ p) r' s')
      (ready : r'.err ≠ none → r'.toRead ≠ []) (load : p.length + r'.load S s' ≤ r.load S s) :
      InflateRead S Q size hist goal sofar n r s ((p, none), r', s')
  | ended {p rest : List UInt8} {r' : Inflater F} {s' : β} (length : p.length ≤ n)
      (meaning : goal = (Scan.finish (F := F) size ⟨none, hist ++ (sofar ++ p)⟩ rest).map
        (sofar ++ p ++ ·)) (supplies : S.Supplies Q rest s')
      (load : p.length + (F.expansion + 1) * S.left s' ≤ r.load S s)
      (progress : p = [] → S.left s' < S.left s) :
      InflateRead S Q size hist goal sofar n r s ((p, some .eof), r', s')
  | bad {p : List UInt8} {e : Err} {r' : Inflater F} {s' : β} (fault : e ≠ .eof)
      (meaning : goal = none) : InflateRead S Q size hist goal sofar n r s ((p, some e), r', s')

/-- A reader that has gone on from `r` and `s`, within what they could still hand out. -/
structure Reaches (S : ByteSource β) (r : Inflater F) (s : β) (x : Inflater F × β) : Prop where
  load : x.1.load S x.2 ≤ r.load S s
  progress : x.1.err = some .eof → x.1.toRead = [] → S.left x.2 < S.left s
  left : x.1.err = none → S.left x.2 ≤ S.left s

/-- Handing out what is available. -/
theorem read_available {n : ℕ} (hn : 0 < n) {r r₁ : Inflater F} {s s₁ : β}
    (h : Tracks S Q size hist goal sofar r₁ s₁) (hr : Reaches S r s (r₁, s₁))
    (hne : r₁.toRead ≠ []) : InflateRead S Q size hist goal sofar n r s
      ((r₁.toRead.take n, if r₁.toRead.drop n = [] then r₁.err else none),
        { r₁ with toRead := r₁.toRead.drop n }, s₁) := by
  have hp : r₁.toRead.take n ≠ [] := by
    intro hnil
    rcases List.take_eq_nil_iff.mp hnil with h | h
    · omega
    · exact hne h
  have hsplit := List.take_append_drop n r₁.toRead
  have hlen : (r₁.toRead.take n).length ≤ n := by simp
  have hsum : (r₁.toRead.take n).length + (r₁.toRead.drop n).length = r₁.toRead.length := by
    rw [← List.length_append, hsplit]
  generalize r₁.toRead.take n = p at hp hsplit hlen hsum ⊢
  generalize r₁.toRead.drop n = q at hsplit hsum ⊢
  have hload : p.length + ((F.expansion + 1) * S.left s₁ + (q.length + r₁.queue.length)) ≤
      r.load S s := by
    have hle : (F.expansion + 1) * S.left s₁ + (r₁.toRead.length + r₁.queue.length) ≤ r.load S s :=
      hr.load
    omega
  cases h with
  | @running x rest err state history more meaning supplies =>
    rw [← hsplit] at history meaning
    have hnone : (if q = [] then r₁.err else none) = none := by rw [err]; exact ite_self _
    rw [hnone]
    refine .chunk hp hlen (.running err state ?_ more ?_ supplies) (fun h => absurd err h) hload
    · simpa [List.append_assoc] using history
    · simpa [List.append_assoc] using meaning
  | @ended rest err queue meaning supplies =>
    rw [← hsplit] at meaning
    by_cases hqe : q = []
    · subst hqe
      rw [if_pos rfl, err]
      refine .ended hlen ?_ supplies (by omega) fun h => absurd h hp
      simpa [List.append_assoc] using meaning
    · rw [if_neg hqe]
      refine .chunk hp hlen (.ended err queue ?_ supplies) (fun _ => hqe) hload
      simpa [List.append_assoc] using meaning
  | @bad e err fault queue meaning =>
    by_cases hqe : q = []
    · rw [if_pos hqe, err]
      exact .bad fault meaning
    · rw [if_neg hqe]
      exact .chunk hp hlen (.bad err fault queue meaning) (fun _ => hqe) hload

/-- `Read` on a reader that has bytes available before it reports an error. -/
theorem Inflater.read_spec {n : ℕ} (hn : 0 < n) {r : Inflater F} {s : β}
    (h : Tracks S Q size hist goal sofar r s) (ready : r.err ≠ none → r.toRead ≠ []) :
    InflateRead S Q size hist goal sofar n r s (r.read S n s) := by
  refine Loop.run_spec (fun x => Tracks S Q size hist goal sofar x.1 x.2 ∧ Reaches S r s x)
    (fun x => if x.1.err = none then S.left x.2 + 1 else 0) ?_ ⟨h, ?_⟩ ?_
  · rintro ⟨r₁, s₁⟩ ⟨htr, hre⟩
    dsimp only at htr
    simp only [Inflater.readRound]
    by_cases hne : r₁.toRead = []
    · rw [if_neg (by simpa using hne)]
      cases herr : r₁.err with
      | some e =>
        cases htr with
        | running err => exact absurd (herr.symm.trans err) (by simp)
        | @ended rest err queue meaning supplies =>
          obtain rfl : e = .eof := Option.some.inj (herr.symm.trans err)
          have hload := hre.load
          refine .ended (Nat.zero_le _) ?_ supplies ?_ fun _ => hre.progress err hne
          · simpa [show r₁.toRead = [] from hne] using meaning
          · simp only [Inflater.load] at hload ⊢
            simp only [List.length_nil]
            omega
        | @bad e' err fault queue meaning =>
          obtain rfl : e' = e := Option.some.inj (err.symm.trans herr)
          exact .bad fault meaning
      | none =>
        obtain ⟨htr', hload, hleft⟩ := tracks_pull htr herr hne
        refine ⟨⟨htr', hload.trans hre.load, fun he _ => ?_, fun he => ?_⟩, ?_⟩
        · exact (hleft (Or.inr he)).trans_le (hre.left herr)
        · exact ((hleft (Or.inl he)).trans_le (hre.left herr)).le
        · simp only [herr, if_true]
          split_ifs with he
          · have := hleft (Or.inl he)
            omega
          · omega
    · rw [if_pos hne]
      exact read_available hn htr hre hne
  · refine ⟨le_rfl, fun he hempty => absurd hempty (ready ?_), fun _ => le_rfl⟩
    exact fun hnone => absurd (hnone.symm.trans he) (by simp)
  · dsimp only
    split_ifs <;> omega

end Tracks

end Ews
