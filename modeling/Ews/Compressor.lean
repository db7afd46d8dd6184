import Ews.Conn

/-!
# The compressor and the send window

`deflate/compressor.go` and the sending half of `ws/conn_compress.go`. Of the compression
library's writer the code relies on this : what it emits for a write and a flush is a function
of its configuration, its history and the data, and the history is the dictionary of the last
`ResetDict` followed by everything written since. `Deflater` is that function, and a
`Compressor` carries the history.

Payloads of prepared messages reach the window late (`pending`). `Follows x w sent` says that the
window `w` and what is pending hold the end of `sent`, all that was sent compressed, and that an
encoder that may go on with its stream has that end in its history. The encoder tells by a word of
64 bits that the window has not changed, so it starts right as long as fewer than `2 ^ 64` changes
were counted (`Compressor.Keeps.prime`).
-/

set_option linter.unusedSectionVars false

namespace Ews

open Bytes

/-- What an encoder is made for : a level with the full window, or a reduced window. -/
inductive EncoderKind
  | level (level : ℤ)
  | reduced (bits : ℕ)
  deriving DecidableEq, Repr

namespace EncoderKind

/-- The encoder a configuration calls for, as `compressorPool` and `newCompressor` choose it. -/
def ofConfig (comp : Compression) : EncoderKind :=
  if comp.sendWindowBits ≠ 0 ∧ comp.sendWindowBits ≠ 15 then .reduced comp.sendWindowBits.toNat
  else .level comp.level

/-- How far back the encoder can reach. -/
def window : EncoderKind → ℕ
  | level _ => windowSize
  | reduced bits => 2 ^ bits

end EncoderKind

/-- The writer of the compression library : what a write and a flush emit. -/
structure Deflater where
  out : EncoderKind → (history payload : List UInt8) → List UInt8
  length_lt : ∀ kind history payload, (out kind history payload).length < 2 ^ 63

/-- The deflater with no output, for connections that compress nothing. -/
def Deflater.mute : Deflater :=
  ⟨fun _ _ _ => [], fun _ _ _ => by decide⟩

/-- `deflate.Compressor`. `attached` says whether the encoder goes on with the stream of the
window it is used with. -/
structure Compressor where
  kind : EncoderKind
  history : List UInt8 := []
  attached : Bool := false
  gen : UInt64 := 0
  mid : Bool := false
  deriving DecidableEq, Repr

namespace Compressor

/-- A compressor that belongs to no window and is in no message. -/
structure Idle (c : Compressor) (kind : EncoderKind) : Prop where
  kind : c.kind = kind
  attached : c.attached = false
  mid : c.mid = false

/-- The encoder goes on where it is, or starts from the window. -/
def prime (c : Compressor) (w : Option Window) : Compressor :=
  if !c.mid && (w.isNone || !c.attached || w.map Window.generation != some c.gen) then
    let dict := Window.dictOf w
    { c with
      history :=
        if dict.length > c.kind.window then dict.drop (dict.length - c.kind.window) else dict }
  else c

/-- `CompressChunk`. -/
def compressChunk (D : Deflater) (c : Compressor) (payload : List UInt8) (w : Option Window)
    (final : Bool) : List UInt8 × Compressor × Option Window :=
  let c := c.prime w
  let output := D.out c.kind c.history payload
  let w := w.map fun w => w.remember payload
  (if final then output.take (output.length - 4) else output,
    { c with
      history := c.history ++ payload
      attached := w.isSome
      gen := (w.map Window.generation).getD c.gen
      mid := !final },
    w)

/-- `Reset`. -/
def reset (c : Compressor) : Compressor :=
  { c with history := [], attached := false, mid := false }

theorem compressChunk_length (D : Deflater) (c : Compressor) (payload : List UInt8)
    (w : Option Window) (final : Bool) : (c.compressChunk D payload w final).1.length < 2 ^ 63 := by
  have h := D.length_lt (c.prime w).kind (c.prime w).history payload
  unfold compressChunk
  dsimp only
  split_ifs
  · exact Nat.lt_of_le_of_lt (by simp) h
  · exact h

@[simp] theorem kind_prime (c : Compressor) (w : Option Window) : (c.prime w).kind = c.kind := by
  unfold prime
  split_ifs <;> rfl

end Compressor

/-! ## The send side of a connection -/

/-- `pendingHistory`. -/
def pendingHistory : ℕ := 8

/-- `compressorContext`. -/
structure CompressorContext where
  config : Option Compression := none
  minSize : ℤ := 0
  shared : Bool := false
  window : Option Window := none
  attached : Option Compressor := none
  /-- The payloads of the pending messages, oldest first. -/
  pending : List (List UInt8) := []
  pendingBytes : ℤ := 0
  /-- What the pool for a kind of encoder gives at the `n`th call. -/
  pool : (kind : EncoderKind) → ℕ → Option { c : Compressor // c.Idle kind }
  gets : ℕ := 0
  /-- What was put into the pool. -/
  returned : List Compressor := []

namespace CompressorContext

/-- `getCompressor`. -/
def getCompressor (x : CompressorContext) (comp : Compression) : Compressor × CompressorContext :=
  let kind := EncoderKind.ofConfig comp
  (((x.pool kind x.gets).map Subtype.val).getD { kind := kind }, { x with gets := x.gets + 1 })

/-- `putCompressor`. -/
def putCompressor (x : CompressorContext) (c : Compressor) : CompressorContext :=
  { x with returned := x.returned ++ [c.reset] }

/-- `releaseCompressor`. -/
def releaseCompressor (x : CompressorContext) : CompressorContext :=
  match x.attached with
  | some c => { x.putCompressor c with attached := none }
  | none => x

/-- `compressorFor`. -/
def compressorFor (x : CompressorContext) (comp : Compression) :
    (Compressor × Bool) × CompressorContext :=
  match x.attached with
  | some c => ((c, false), x)
  | none =>
    let (c, x) := x.getCompressor comp
    if x.window.isNone || x.shared then ((c, true), x)
    else ((c, false), { x with attached := some c })

/-- `applyPending`. -/
def applyPending (x : CompressorContext) : CompressorContext :=
  { x with
    window := x.window.map fun w => x.pending.foldl Window.add w
    pending := []
    pendingBytes := 0 }

/-- The loop of `notePrepared` : the oldest go while the others cover the window. -/
def dropCovered (size n : ℤ) : List (List UInt8) → ℤ → List (List UInt8) × ℤ
  | [], bytes => ([], bytes)
  | p :: ps, bytes =>
    if bytes - p.length + n ≥ size then dropCovered size n ps (bytes - p.length)
    else (p :: ps, bytes)

/-- `notePrepared`, on a connection with the window `w`. -/
def notePrepared (x : CompressorContext) (w : Window) (p : List UInt8) : CompressorContext :=
  let x :=
    if p.length ≥ w.size then { x with pending := [], pendingBytes := 0 }
    else
      let (ps, bytes) := dropCovered w.size p.length x.pending x.pendingBytes
      let x := { x with pending := ps, pendingBytes := bytes }
      if x.pending.length = pendingHistory then x.applyPending else x
  { x with pending := x.pending ++ [p], pendingBytes := x.pendingBytes + p.length }

/-- The compression of a whole message in `encodeData`. -/
def compress (D : Deflater) (x : CompressorContext) (comp : Compression) (payload : List UInt8) :
    List UInt8 × CompressorContext :=
  let ((c, shared), x) := x.applyPending.compressorFor comp
  let (out, c, w) := c.compressChunk D payload x.window true
  let x := { x with window := w }
  (out, if shared then x.putCompressor c else { x with attached := some c })

/-- The compressor `BeginMessage` holds for the chunks of a message, and whether it took it. -/
def hold (x : CompressorContext) (comp : Compression) : Bool × CompressorContext :=
  match x.attached with
  | some _ => (false, x)
  | none =>
    let (c, x) := x.getCompressor comp
    (true, { x with attached := some c })

/-- The compression of a chunk in `fragment`, by the compressor `BeginMessage` saw attached. -/
def compressFragment (D : Deflater) (x : CompressorContext) (payload : List UInt8) (final : Bool) :
    List UInt8 × CompressorContext :=
  let x := x.applyPending
  match x.attached with
  | none => (payload, x)
  | some c =>
    let (out, c, w) := c.compressChunk D payload x.window final
    (out, { x with window := w, attached := some c })

end CompressorContext

/-! ## The history of the send direction -/

theorem Window.dict_length_le (w : Window) : w.dict.length ≤ w.size := by
  rw [dict_eq, length_lastN]
  exact Nat.min_le_left _ _

theorem Window.remember_nil (w : Window) : w.remember [] = w := by
  simp [remember]

theorem Window.size_adds : ∀ (ps : List (List UInt8)) (w : Window), (ps.foldl add w).size = w.size
  | [], _ => rfl
  | p :: ps, w => (size_adds ps _).trans (size_remember w p)

/-- The history after several payloads. -/
theorem Window.dict_adds : ∀ (ps : List (List UInt8)) (w : Window),
    (ps.foldl add w).dict = lastN w.size (w.dict ++ ps.flatten)
  | [], w => by
    rw [List.foldl_nil, List.flatten_nil, List.append_nil, lastN_of_length_le w.dict_length_le]
  | p :: ps, w => by
    have h := dict_adds ps (w.add p)
    rw [add, size_remember, dict_remember, lastN_append_lastN] at h
    rw [List.foldl_cons, List.flatten_cons, ← List.append_assoc]
    exact h

theorem Window.gen_adds : ∀ (ps : List (List UInt8)) (w : Window),
    (ps.foldl add w).gen = w.gen + ps.countP (· ≠ [])
  | [], _ => rfl
  | p :: ps, w => by
    rw [List.foldl_cons, gen_adds ps, add, gen_remember, List.countP_cons]
    by_cases hp : p = []
    · simp [hp]
    · simp only [hp, if_false, ne_eq, not_false_eq_true, decide_true, if_true]
      omega

/-- Payloads are counted, or they change nothing. -/
theorem Window.adds_cases : ∀ (ps : List (List UInt8)) (w : Window),
    ps.foldl add w = w ∨ w.gen < (ps.foldl add w).gen
  | [], _ => Or.inl rfl
  | p :: ps, w => by
    rw [List.foldl_cons]
    rcases adds_cases ps (w.add p) with h | h
    · by_cases hp : p = []
      · left
        rw [h, hp, add, remember_nil]
      · right
        rw [h, add, gen_remember, if_neg hp]
        exact Nat.lt_succ_self _
    · right
      refine Nat.lt_of_le_of_lt ?_ h
      rw [add, gen_remember]
      split_ifs <;> omega

namespace Compressor

/-- The compressor can go on with the stream of `w`. The window had counted `g` changes when the
compressor served it last ; if there was none since, or if a message is in progress, the compressor
knows what the window knows, and nothing else within its reach. -/
structure Keeps (c : Compressor) (w : Window) : Prop where
  reach : c.kind.window = w.size
  served : c.attached = true → ∃ g ≤ w.gen, c.gen = UInt64.ofNat g ∧
    (g = w.gen → lastN w.size c.history = w.dict)
  mid : c.mid = true → lastN w.size c.history = w.dict

theorem Idle.keeps {c : Compressor} {kind : EncoderKind} {w : Window} (h : c.Idle kind)
    (reach : kind.window = w.size) : c.Keeps w where
  reach := h.kind ▸ reach
  served := fun ha => absurd (h.attached.symm.trans ha) (by decide)
  mid := fun hm => absurd (h.mid.symm.trans hm) (by decide)

/-- Whether it goes on or is primed, the encoder starts with the history of the window, as long as
the generation has not come round. -/
theorem Keeps.prime {c : Compressor} {w : Window} (h : c.Keeps w) (hlt : w.gen < 2 ^ 64) :
    lastN w.size (c.prime (some w)).history = w.dict := by
  have hlen := w.dict_length_le
  unfold Compressor.prime
  split_ifs with hp
  · have hle : ¬w.dict.length > c.kind.window := by rw [h.reach]; omega
    rw [← lastN_of_length_le hlen]
    simp [Window.dictOf, hle]
  · simp only [Option.isNone_some, Bool.false_or, Option.map_some, Bool.and_eq_true,
      Bool.not_eq_true', Bool.or_eq_true, bne_iff_ne, ne_eq, Option.some.injEq, not_and, not_or,
      Bool.not_eq_false, Decidable.not_not] at hp
    cases hm : c.mid with
    | true => exact h.mid hm
    | false =>
      obtain ⟨g, hle, hgen, hhist⟩ := h.served (hp hm).1
      exact hhist (Window.generation_eq ((hp hm).2.trans hgen) hle hlt)

theorem Keeps.suffix_prime {c : Compressor} {w : Window} (h : c.Keeps w) (hlt : w.gen < 2 ^ 64) :
    w.dict <:+ (c.prime (some w)).history := by
  rw [← h.prime hlt]
  exact lastN_suffix _ _

/-- After a chunk the compressor can go on with the window that remembers it. -/
theorem Keeps.compressChunk {c : Compressor} {w : Window} (h : c.Keeps w) (hlt : w.gen < 2 ^ 64)
    (D : Deflater) (payload : List UInt8) (final : Bool) :
    (c.compressChunk D payload (some w) final).2.2 = some (w.remember payload) ∧
      (c.compressChunk D payload (some w) final).2.1.Keeps (w.remember payload) ∧
      (c.compressChunk D payload (some w) final).2.1.mid = !final := by
  have hhist : lastN (w.remember payload).size
      (c.compressChunk D payload (some w) final).2.1.history = (w.remember payload).dict := by
    rw [Window.dict_remember, Window.size_remember]
    refine lastN_append_congr ?_ payload
    rw [h.prime hlt, lastN_of_length_le w.dict_length_le]
  refine ⟨rfl, ⟨?_, fun _ => ⟨_, le_rfl, rfl, fun _ => hhist⟩, fun _ => hhist⟩, rfl⟩
  simp [Compressor.compressChunk, h.reach]

/-- A window may take further payloads while no message is in progress : an encoder from before
cannot know the new count. -/
theorem Keeps.adds {c : Compressor} {w : Window} (h : c.Keeps w) {ps : List (List UInt8)}
    (hmid : c.mid = true → ps = []) : c.Keeps (ps.foldl Window.add w) := by
  rcases Window.adds_cases ps w with heq | hlt
  · rw [heq]
    exact h
  · refine ⟨h.reach.trans (Window.size_adds _ _).symm, fun ha => ?_, fun hm => ?_⟩
    · obtain ⟨g, hle, hgen, -⟩ := h.served ha
      exact ⟨g, by omega, hgen, fun heq => by omega⟩
    · rw [hmid hm] at hlt
      exact absurd hlt (Nat.lt_irrefl _)

end Compressor

namespace CompressorContext

/-- The changes the window will have counted once what is pending is in it. -/
def changes (x : CompressorContext) : ℕ :=
  (x.applyPending.window.map Window.gen).getD 0

/-- The window `w` and what is pending hold the end of `sent`. -/
structure Follows (x : CompressorContext) (w : Window) (sent : List UInt8) : Prop where
  window : x.window = some w
  recent : lastN w.size (w.dict ++ x.pending.flatten) = lastN w.size sent
  count : x.pending.length ≤ pendingHistory
  bytes : x.pendingBytes = x.pending.flatten.length
  keeps : ∀ c, x.attached = some c → c.Keeps w
  held : ∀ c, x.attached = some c → c.mid = true → x.pending = []
  reach : ∀ comp, x.config = some comp → (EncoderKind.ofConfig comp).window = w.size

section Follows

variable {x : CompressorContext} {w : Window} {sent : List UInt8}

/-- With nothing pending the window is the end of what was sent. -/
theorem Follows.dict_eq (h : x.Follows w sent) (hp : x.pending = []) :
    w.dict = lastN w.size sent := by
  have := h.recent
  rwa [hp, List.flatten_nil, List.append_nil, lastN_of_length_le w.dict_length_le] at this

/-- `applyPending` changes nothing but where the history is. -/
theorem Follows.applyPending (h : x.Follows w sent) :
    x.applyPending.Follows (x.pending.foldl Window.add w) sent where
  window := by rw [CompressorContext.applyPending, h.window]; rfl
  recent := by
    rw [Window.size_adds, Window.dict_adds, lastN_append_lastN]
    simpa [CompressorContext.applyPending] using h.recent
  count := Nat.zero_le _
  bytes := rfl
  keeps := fun c hc => (h.keeps c hc).adds (h.held c hc)
  held := fun _ _ _ => rfl
  reach := fun comp hc => (h.reach comp hc).trans (Window.size_adds _ _).symm

theorem Follows.changes_eq (h : x.Follows w sent) :
    x.changes = (x.pending.foldl Window.add w).gen := by
  rw [changes, h.applyPending.window]
  rfl

theorem applyPending_pending (x : CompressorContext) : x.applyPending.pending = [] := rfl

/-- A compressor that was only lent is not attached. -/
theorem compressorFor_lent (x : CompressorContext) (comp : Compression)
    (h : (x.compressorFor comp).1.2 = true) : (x.compressorFor comp).2.attached = none := by
  unfold compressorFor at h ⊢
  cases ha : x.attached with
  | some c => simp [ha] at h
  | none =>
    simp only [ha, getCompressor] at h ⊢
    by_cases hlent : (x.window.isNone || x.shared) = true
    · rw [if_pos hlent]
    · rw [if_neg hlent] at h
      cases h

theorem Follows.getCompressor (h : x.Follows w sent) {comp : Compression}
    (hc : x.config = some comp) : (x.getCompressor comp).1.Keeps w ∧
      (x.getCompressor comp).1.mid = false := by
  have hreach := h.reach comp hc
  simp only [CompressorContext.getCompressor]
  cases x.pool (EncoderKind.ofConfig comp) x.gets with
  | none =>
    have hidle : Compressor.Idle { kind := EncoderKind.ofConfig comp } (.ofConfig comp) :=
      ⟨rfl, rfl, rfl⟩
    exact ⟨hidle.keeps hreach, rfl⟩
  | some c => exact ⟨c.2.keeps hreach, c.2.mid⟩

/-- The compressor for the next message, attached or not. -/
theorem Follows.compressorFor (h : x.Follows w sent) {comp : Compression}
    (hc : x.config = some comp) : (x.compressorFor comp).1.1.Keeps w ∧
      (x.compressorFor comp).2.Follows w sent ∧
      (x.compressorFor comp).2.pending = x.pending ∧
      ((x.compressorFor comp).1.2 = true → (x.compressorFor comp).2.attached = none) := by
  unfold CompressorContext.compressorFor
  cases ha : x.attached with
  | some c => exact ⟨h.keeps c ha, h, rfl, fun hf => by cases hf⟩
  | none =>
    obtain ⟨hkeeps, hmid⟩ := h.getCompressor hc
    dsimp only
    split_ifs with hs
    · exact ⟨hkeeps, ⟨h.window, h.recent, h.count, h.bytes, h.keeps, h.held, h.reach⟩, rfl,
        fun _ => ha⟩
    · refine ⟨hkeeps, ⟨h.window, h.recent, h.count, h.bytes, ?_, ?_, h.reach⟩, rfl,
        fun hf => absurd hf (by decide)⟩
      · rintro c ⟨⟩
        exact hkeeps
      · rintro c ⟨⟩ hm
        exact absurd (hmid.symm.trans hm) (by decide)

/-- The history with which the encoder starts on the next message. -/
def startHistory (x : CompressorContext) (comp : Compression) : List UInt8 :=
  ((x.applyPending.compressorFor comp).1.1.prime x.applyPending.window).history

/-- The encoder starts on a message with the end of what was sent. -/
theorem Follows.start (h : x.Follows w sent) {comp : Compression} (hc : x.config = some comp)
    (hlt : x.changes < 2 ^ 64) : lastN w.size sent <:+ x.startHistory comp := by
  have happ := h.applyPending
  rw [h.changes_eq] at hlt
  have hdict := happ.dict_eq rfl
  rw [Window.size_adds] at hdict
  rw [← hdict, startHistory, happ.window]
  exact (happ.compressorFor hc).1.suffix_prime hlt

/-- A payload that went through the encoder is in the window. -/
theorem Follows.remember (h : x.Follows w sent) (hp : x.pending = []) (payload : List UInt8)
    {c : Compressor} (hk : c.Keeps (w.remember payload)) :
    Follows { x with window := some (w.remember payload), attached := some c }
      (w.remember payload) (sent ++ payload) where
  window := rfl
  recent := by
    rw [hp, List.flatten_nil, List.append_nil, Window.size_remember,
      lastN_of_length_le (by simpa using (w.remember payload).dict_length_le),
      Window.dict_remember, h.dict_eq hp, lastN_append_lastN]
  count := h.count
  bytes := h.bytes
  keeps := by
    rintro c ⟨⟩
    exact hk
  held := fun _ _ _ => hp
  reach := fun comp hc => (h.reach comp hc).trans (Window.size_remember w payload).symm

theorem Follows.detach (h : x.Follows w sent) (returned : List Compressor) :
    Follows { x with attached := none, returned := returned } w sent where
  window := h.window
  recent := h.recent
  count := h.count
  bytes := h.bytes
  keeps := fun c hc => by cases hc
  held := fun c hc => by cases hc
  reach := h.reach

theorem Follows.releaseCompressor (h : x.Follows w sent) :
    x.releaseCompressor.Follows w sent := by
  unfold CompressorContext.releaseCompressor
  cases ha : x.attached with
  | some c => exact h.detach _
  | none => exact h

/-- A message that `encodeData` compresses. -/
theorem Follows.compress (h : x.Follows w sent) {comp : Compression} (hc : x.config = some comp)
    (hlt : x.changes < 2 ^ 64) (D : Deflater) (payload : List UInt8) : ∃ w', w'.size = w.size ∧
      (x.compress D comp payload).2.Follows w' (sent ++ payload) := by
  have happ := h.applyPending
  rw [h.changes_eq] at hlt
  obtain ⟨hkeeps, hfor, hpend, hnone⟩ := happ.compressorFor hc
  rw [applyPending_pending] at hpend
  refine ⟨(x.pending.foldl Window.add w).remember payload, ?_, ?_⟩
  · rw [Window.size_remember, Window.size_adds]
  · simp only [CompressorContext.compress]
    generalize x.applyPending.compressorFor comp = out at hkeeps hfor hpend hnone
    obtain ⟨⟨c, shared⟩, y⟩ := out
    dsimp only at hkeeps hfor hpend hnone ⊢
    rw [hfor.window]
    obtain ⟨hw, hk, -⟩ := hkeeps.compressChunk hlt D payload true
    rw [hw]
    have hfollows := hfor.remember hpend payload hk
    cases shared with
    | false => exact hfollows
    | true =>
      -- The compressor goes back, and nothing is attached.
      have hdetached := hfollows.detach
      simp only [← hnone rfl] at hdetached
      exact hdetached _

/-- `BeginMessage` holds a compressor. -/
theorem Follows.hold (h : x.Follows w sent) {comp : Compression} (hc : x.config = some comp) :
    (x.hold comp).2.Follows w sent ∧ (x.hold comp).2.attached.isSome = true := by
  unfold CompressorContext.hold
  cases ha : x.attached with
  | some c => exact ⟨h, by rw [ha]; rfl⟩
  | none =>
    obtain ⟨hkeeps, hmid⟩ := h.getCompressor hc
    refine ⟨⟨h.window, h.recent, h.count, h.bytes, ?_, ?_, h.reach⟩, rfl⟩
    · rintro c ⟨⟩
      exact hkeeps
    · rintro c ⟨⟩ hm
      exact absurd (hmid.symm.trans hm) (by decide)

/-- A chunk that `fragment` compresses. -/
theorem Follows.compressFragment (h : x.Follows w sent) {c : Compressor}
    (ha : x.attached = some c) (hlt : x.changes < 2 ^ 64) (D : Deflater) (payload : List UInt8)
    (final : Bool) :
    ∃ w', w'.size = w.size ∧ (x.compressFragment D payload final).2.Follows w' (sent ++ payload) ∧
      (x.compressFragment D payload final).2.attached.isSome = true := by
  have happ := h.applyPending
  have hattached : x.applyPending.attached = some c := ha
  rw [h.changes_eq] at hlt
  obtain ⟨hw, hk, -⟩ := (happ.keeps c ha).compressChunk hlt D payload final
  refine ⟨(x.pending.foldl Window.add w).remember payload, ?_, ?_⟩
  · rw [Window.size_remember, Window.size_adds]
  · simp only [CompressorContext.compressFragment, hattached, happ.window, hw]
    exact ⟨happ.remember rfl payload hk, rfl⟩

/-! ### Prepared messages -/

/-- What is dropped is covered by what stays and the new payload. -/
theorem dropCovered_spec {n : ℕ} {p : List UInt8} :
    ∀ (ps : List (List UInt8)) (bytes : ℤ), bytes = ps.flatten.length →
      (dropCovered n p.length ps bytes).2 = (dropCovered n p.length ps bytes).1.flatten.length ∧
      (dropCovered n p.length ps bytes).1.length ≤ ps.length ∧
      ∀ d : List UInt8, lastN n (d ++ (dropCovered n p.length ps bytes).1.flatten ++ p) =
        lastN n (d ++ ps.flatten ++ p)
  | [], bytes, h => ⟨h, le_rfl, fun _ => rfl⟩
  | q :: ps, bytes, h => by
    rw [dropCovered]
    rw [List.flatten_cons, List.length_append, Nat.cast_add] at h
    split_ifs with hcover
    · obtain ⟨hbytes, hlen, hlast⟩ := dropCovered_spec (n := n) (p := p) ps (bytes - q.length)
        (by omega)
      refine ⟨hbytes, hlen.trans (Nat.le_succ _), fun d => ?_⟩
      have hcover' : n ≤ (ps.flatten ++ p).length := by
        rw [List.length_append]
        omega
      rw [hlast, List.flatten_cons, List.append_assoc, List.append_assoc, List.append_assoc,
        lastN_append_of_le d hcover', ← List.append_assoc d, lastN_append_of_le _ hcover']
    · exact ⟨by rw [h, List.flatten_cons, List.length_append, Nat.cast_add], le_rfl, fun _ => rfl⟩

/-- Only the end of what was sent matters. -/
theorem Follows.congr (h : x.Follows w sent) {sent' : List UInt8}
    (hsent : lastN w.size sent = lastN w.size sent') : x.Follows w sent' :=
  ⟨h.window, h.recent.trans hsent, h.count, h.bytes, h.keeps, h.held, h.reach⟩

/-- Another list of payloads may be pending, with what the window then holds. -/
theorem Follows.withPending (h : x.Follows w sent) {ps : List (List UInt8)} {bytes : ℤ}
    (hmid : ∀ c, x.attached = some c → c.mid = false) (hcount : ps.length ≤ pendingHistory)
    (hbytes : bytes = ps.flatten.length) :
    Follows { x with pending := ps, pendingBytes := bytes } w (w.dict ++ ps.flatten) where
  window := h.window
  recent := rfl
  count := hcount
  bytes := hbytes
  keeps := h.keeps
  held := fun c hc hm => absurd ((hmid c hc).symm.trans hm) (by decide)
  reach := h.reach

/-- One more payload is pending. -/
theorem Follows.push (h : x.Follows w sent) (hmid : ∀ c, x.attached = some c → c.mid = false)
    (hroom : x.pending.length < pendingHistory) (p : List UInt8) :
    Follows { x with pending := x.pending ++ [p], pendingBytes := x.pendingBytes + p.length } w
      (sent ++ p) := by
  have hcount : (x.pending ++ [p]).length ≤ pendingHistory := by simp; omega
  refine (h.withPending hmid hcount ?_).congr ?_
  · rw [h.bytes]
    simp
  · rw [List.flatten_append, List.flatten_singleton, ← List.append_assoc]
    exact lastN_append_congr h.recent p

/-- What `notePrepared` leaves alone. -/
theorem notePrepared_attached (x : CompressorContext) (w : Window) (p : List UInt8) :
    (x.notePrepared w p).attached = x.attached := by
  unfold notePrepared
  split_ifs <;> first | rfl | (dsimp only; split_ifs <;> rfl)

/-- A compressed prepared message joins what is pending. -/
theorem Follows.notePrepared (h : x.Follows w sent)
    (hmid : ∀ c, x.attached = some c → c.mid = false) (p : List UInt8) :
    ∃ w', w'.size = w.size ∧ (x.notePrepared w p).Follows w' (sent ++ p) := by
  simp only [CompressorContext.notePrepared]
  by_cases hbig : p.length ≥ w.size
  · -- The payload alone covers the window.
    rw [if_pos hbig]
    have hnone : Follows { x with pending := [], pendingBytes := 0 } w (w.dict ++ [].flatten) :=
      h.withPending hmid (Nat.zero_le _) rfl
    refine ⟨w, rfl, (hnone.push hmid (Nat.zero_lt_succ 7) p).congr ?_⟩
    rw [lastN_append_of_le _ hbig, lastN_append_of_le _ hbig]
  · rw [if_neg hbig]
    obtain ⟨hbytes, hlen, hlast⟩ := dropCovered_spec (n := w.size) (p := p) x.pending x.pendingBytes
      h.bytes
    generalize dropCovered w.size p.length x.pending x.pendingBytes = out at hbytes hlen hlast
    obtain ⟨ps, bytes⟩ := out
    dsimp only at hbytes hlen hlast ⊢
    have hps := h.withPending hmid (hlen.trans h.count) hbytes
    have hsent : lastN w.size (w.dict ++ ps.flatten ++ p) = lastN w.size (sent ++ p) :=
      (hlast w.dict).trans (lastN_append_congr h.recent p)
    split_ifs with hfull
    · have happ := hps.applyPending
      refine ⟨_, Window.size_adds _ _, (happ.push hmid (Nat.zero_lt_succ 7) p).congr ?_⟩
      rw [Window.size_adds]
      exact hsent
    · refine ⟨w, rfl, (hps.push hmid ?_ p).congr hsent⟩
      exact lt_of_le_of_ne (hlen.trans h.count) hfull

end Follows

end CompressorContext

end Ews
