import Ews.Packing

/-!
# Compressors and windows in any order

Several compressors and several windows, used in any order. A compressor remembers which window
it served last and the generation it left it with. When both are still the same it goes on with
its stream, else it starts from the window. The generation is a word of 64 bits : `Window.gen`
counts the changes, and the code compares its low bits.

`Session` adds the chunked messages that are in progress. Nothing else may touch their compressor
or window (`Allowed`). As long as no window is changed `2 ^ 64` times, every message starts with the
history of its window (`messages_current`). After as many changes the word is the same again, and
a compressor goes on with a stream that is stale (`stale_stream`).
-/

set_option linter.unusedSectionVars false

namespace Ews

open Bytes

/-- `deflate.Compressor`, with the identity of the window it is attached to. -/
structure SharedCompressor where
  kind : EncoderKind
  history : List UInt8 := []
  attached : Option ℕ := none
  gen : UInt64 := 0
  mid : Bool := false
  deriving DecidableEq, Repr

structure Streams where
  windows : ℕ → Window
  compressors : ℕ → SharedCompressor

namespace SharedCompressor

/-- Whether the encoder starts from the window. -/
def primes (e : SharedCompressor) (windows : ℕ → Window) (w : Option ℕ) : Bool :=
  !e.mid && (w.isNone || w != e.attached || w.map (fun i => (windows i).generation) != some e.gen)

/-- The encoder goes on where it is, or starts from the end of the window it can reach. -/
def prime (e : SharedCompressor) (windows : ℕ → Window) (w : Option ℕ) : SharedCompressor :=
  if e.primes windows w then
    let dict := Window.dictOf (w.map windows)
    { e with
      history :=
        if dict.length > e.kind.window then dict.drop (dict.length - e.kind.window) else dict }
  else e

end SharedCompressor

namespace Streams

/-- `CompressChunk` of the compressor `c`. -/
def compressChunk (D : Deflater) (s : Streams) (c : ℕ) (payload : List UInt8) (w : Option ℕ)
    (final : Bool) : List UInt8 × Streams :=
  let e := (s.compressors c).prime s.windows w
  let output := D.out e.kind e.history payload
  let windows := w.elim s.windows fun i =>
    Function.update s.windows i ((s.windows i).remember payload)
  let e := { e with
    history := e.history ++ payload
    attached := w
    mid := !final
    gen := w.elim e.gen fun i => (windows i).generation }
  (if final then output.take (output.length - 4) else output,
    ⟨windows, Function.update s.compressors c e⟩)

/-- `Compressor.Reset`. -/
def reset (s : Streams) (c : ℕ) : Streams :=
  { s with
    compressors := Function.update s.compressors c
      { s.compressors c with history := [], attached := none, mid := false } }

/-- `Window.Add`. -/
def add (s : Streams) (i : ℕ) (payload : List UInt8) : Streams :=
  { s with windows := Function.update s.windows i ((s.windows i).add payload) }

/-- `Window.Reset`. -/
def clear (s : Streams) (i : ℕ) : Streams :=
  { s with windows := Function.update s.windows i (s.windows i).reset }

end Streams

/-! ## Sessions -/

namespace Streams

inductive Op
  | compressChunk (c : ℕ) (payload : List UInt8) (w : Option ℕ) (final : Bool)
  | reset (c : ℕ)
  | add (i : ℕ) (payload : List UInt8)
  | clear (i : ℕ)
  deriving DecidableEq, Repr

/-- `Compress` : a message in one chunk. -/
def Op.compress (c : ℕ) (payload : List UInt8) (w : Option ℕ) : Op :=
  .compressChunk c payload w true

/-- A change of the window `i`. -/
def Op.changes (i : ℕ) : Op → Bool
  | .compressChunk _ payload w _ => w == some i && payload != []
  | .reset _ => false
  | .add j payload => j == i && payload != []
  | .clear j => j == i

/-- A message in progress : its window, the history it started with and what was written. -/
structure Message where
  window : Option ℕ
  start : List UInt8
  written : List UInt8

structure Session where
  streams : Streams
  held : ℕ → Option Message

namespace Session

def start (s : Streams) : Session :=
  ⟨s, fun _ => none⟩

def after (D : Deflater) (x : Session) : Op → Session
  | .compressChunk c payload w final =>
    let e := (x.streams.compressors c).prime x.streams.windows w
    let msg := (x.held c).getD ⟨w, e.history, []⟩
    { streams := (x.streams.compressChunk D c payload w final).2
      held := Function.update x.held c
        (if final then none else some { msg with written := msg.written ++ payload }) }
  | .reset c => { x with streams := x.streams.reset c }
  | .add i payload => { x with streams := x.streams.add i payload }
  | .clear i => { x with streams := x.streams.clear i }

def run (D : Deflater) (x : Session) (ops : List Op) : Session :=
  ops.foldl (after D) x

/-- No message in progress uses the window. -/
def Free (x : Session) (i : ℕ) : Prop :=
  ∀ c msg, x.held c = some msg → msg.window ≠ some i

/-- Nothing else touches the compressor or the window of a message in progress. -/
def Allowed (x : Session) : Op → Prop
  | .compressChunk c _ w _ =>
    (∀ msg, x.held c = some msg → msg.window = w) ∧ (x.held c = none → ∀ i, w = some i → x.Free i)
  | .reset c => x.held c = none
  | .add i _ => x.Free i
  | .clear i => x.Free i

def Disciplined (D : Deflater) : Session → List Op → Prop
  | _, [] => True
  | x, op :: ops => x.Allowed op ∧ Disciplined D (x.after D op) ops

end Session

/-! ## What a message starts with -/

/-- New compressors, and windows with nothing in them. -/
structure Fresh (s : Streams) : Prop where
  windows : ∀ i, (s.windows i).buf = [] ∧ (s.windows i).gen = 0
  compressors : ∀ c, s.compressors c = { kind := (s.compressors c).kind }

/-- The message that starts has the history of its window : the part the encoder can reach agrees,
and if the encoder was primed there is nothing else. Without a window there is no history. -/
def Current (s : Streams) (c : ℕ) (w : Option ℕ) : Prop :=
  let e := s.compressors c
  let history := (e.prime s.windows w).history
  (w = none → history = []) ∧ ∀ i, w = some i →
    let dict := (s.windows i).dict
    let n := min e.kind.window dict.length
    lastN n history = lastN n dict ∧ (e.primes s.windows w = true → history = lastN n dict)

/-- A later chunk goes on with the stream of its message. -/
def Continues (s : Streams) (c : ℕ) (w : Option ℕ) (msg : Message) : Prop :=
  msg.window = w ∧ (s.compressors c).prime s.windows w = s.compressors c ∧
    (s.compressors c).history = msg.start ++ msg.written

/-! ## The history is kept -/

/-- What an encoder has when it writes on is what the window has when it remembers. -/
theorem lastN_remember_suffix {n size : ℕ} {dict h : List UInt8} (hdict : lastN n dict <:+ h)
    (p : List UInt8) : lastN n (lastN size (dict ++ p)) <:+ h ++ p := by
  have hrecent : lastN n (dict ++ p) <:+ lastN n dict ++ p := by
    rw [← lastN_append_lastN n dict p]
    exact lastN_suffix n _
  exact ((lastN_suffix_lastN (lastN_suffix size _)).trans hrecent).trans
    (List.suffix_append_self_iff.mpr hdict)

theorem remember_changes (w : Window) (p : List UInt8) :
    w.remember p = w ∨ w.gen < (w.remember p).gen := by
  by_cases hp : p = []
  · exact Or.inl (by rw [hp, Window.remember_nil])
  · exact Or.inr (by rw [Window.gen_remember, if_neg hp]; exact Nat.lt_succ_self _)

end Streams

namespace SharedCompressor

variable {e : SharedCompressor} {windows : ℕ → Window}

/-- `g` changes of the window were counted when the compressor served it last. If there was none
since, its history ends with that of the window. -/
def Sound (e : SharedCompressor) (windows : ℕ → Window) : Prop :=
  ∀ i, e.attached = some i → ∃ g ≤ (windows i).gen, e.gen = UInt64.ofNat g ∧
    (g = (windows i).gen → lastN e.kind.window (windows i).dict <:+ e.history)

/-- A window may change as long as it counts. -/
theorem Sound.update (h : e.Sound windows) {j : ℕ} {w : Window}
    (hw : w = windows j ∨ (windows j).gen < w.gen) : e.Sound (Function.update windows j w) := by
  intro i hi
  obtain ⟨g, hle, hgen, hrecent⟩ := h i hi
  by_cases hij : i = j
  · subst hij
    rw [Function.update_self]
    rcases hw with rfl | hlt
    · exact ⟨g, hle, hgen, hrecent⟩
    · exact ⟨g, by omega, hgen, fun heq => by omega⟩
  · rw [Function.update_of_ne hij]
    exact ⟨g, hle, hgen, hrecent⟩

theorem kind_prime (e : SharedCompressor) (windows : ℕ → Window) (w : Option ℕ) :
    (e.prime windows w).kind = e.kind := by
  unfold prime
  split_ifs <;> rfl

theorem prime_of_mid (h : e.mid = true) (w : Option ℕ) : e.prime windows w = e := by
  simp [prime, primes, h]

theorem prime_of_primes {w : Option ℕ} (h : e.primes windows w = true) :
    (e.prime windows w).history = lastN e.kind.window (Window.dictOf (w.map windows)) := by
  rw [prime, if_pos h]
  dsimp only
  split_ifs with hlen
  · rfl
  · rw [lastN_of_length_le (by omega)]

/-- Primed or not, a message starts with the history of its window. -/
theorem Sound.suffix_prime (h : e.Sound windows) (hmid : e.mid = false) {i : ℕ}
    (hlt : (windows i).gen < 2 ^ 64) :
    lastN e.kind.window (windows i).dict <:+ (e.prime windows (some i)).history := by
  by_cases hp : e.primes windows (some i) = true
  · rw [prime_of_primes hp]
    exact List.suffix_refl _
  · rw [prime, if_neg hp]
    simp only [primes, hmid, Option.isNone_some, Option.map_some, Bool.not_false, Bool.false_or,
      Bool.true_and, Bool.or_eq_true, bne_iff_ne, ne_eq, not_or, not_not, Option.some.injEq] at hp
    obtain ⟨g, hle, hgen, hrecent⟩ := h i hp.1.symm
    exact hrecent (Window.generation_eq (hp.2.trans hgen) hle hlt)

end SharedCompressor

namespace Streams

/-- What is known of a compressor in the middle of a message. -/
structure Holds (e : SharedCompressor) (windows : ℕ → Window) (msg : Message) : Prop where
  mid : e.mid = true
  history : e.history = msg.start ++ msg.written
  recent : ∀ i, msg.window = some i → lastN e.kind.window (windows i).dict <:+ e.history

theorem Holds.update {e : SharedCompressor} {windows : ℕ → Window} {msg : Message}
    (h : Holds e windows msg) {j : ℕ} (hj : msg.window ≠ some j) (w : Window) :
    Holds e (Function.update windows j w) msg where
  mid := h.mid
  history := h.history
  recent := fun i hi => by
    have hij : i ≠ j := by
      rintro rfl
      exact hj hi
    rw [Function.update_of_ne hij]
    exact h.recent i hi

namespace Session

variable {x : Session}

/-- What holds of the compressors `P`, and of the messages they are in. -/
structure GoodFor (P : ℕ → Prop) (x : Session) : Prop where
  sound : ∀ c, P c → (x.streams.compressors c).Sound x.streams.windows
  idle : ∀ c, P c → x.held c = none → (x.streams.compressors c).mid = false
  holds : ∀ c, P c → ∀ msg, x.held c = some msg →
    Holds (x.streams.compressors c) x.streams.windows msg
  apart : ∀ c c' msg msg' i, P c → P c' → x.held c = some msg → x.held c' = some msg' →
    msg.window = some i → msg'.window = some i → c = c'

/-- A change of a window that none of the messages uses. -/
theorem GoodFor.update {P : ℕ → Prop} (h : x.GoodFor P) {j : ℕ}
    (hfree : ∀ c, P c → ∀ msg, x.held c = some msg → msg.window ≠ some j) {w : Window}
    (hw : w = x.streams.windows j ∨ (x.streams.windows j).gen < w.gen) :
    GoodFor P ⟨⟨Function.update x.streams.windows j w, x.streams.compressors⟩, x.held⟩ where
  sound := fun c hP => (h.sound c hP).update hw
  idle := h.idle
  holds := fun c hP msg hc => (h.holds c hP msg hc).update (hfree c hP msg hc) w
  apart := h.apart

/-- One compressor gets another state, and another message or none. -/
theorem GoodFor.install {c : ℕ} (h : x.GoodFor (· ≠ c)) {e : SharedCompressor} {m : Option Message}
    (sound : e.Sound x.streams.windows) (idle : m = none → e.mid = false)
    (holds : ∀ msg, m = some msg → Holds e x.streams.windows msg)
    (apart : ∀ msg i, m = some msg → msg.window = some i →
      ∀ c' ≠ c, ∀ msg', x.held c' = some msg' → msg'.window ≠ some i) :
    GoodFor (fun _ => True) ⟨⟨x.streams.windows, Function.update x.streams.compressors c e⟩,
      Function.update x.held c m⟩ where
  sound := fun c' _ => by
    by_cases hc : c' = c
    · subst hc
      simpa using sound
    · simpa [hc] using h.sound c' hc
  idle := fun c' _ hm => by
    by_cases hc : c' = c
    · subst hc
      simpa using idle (by simpa using hm)
    · simpa [hc] using h.idle c' hc (by simpa [hc] using hm)
  holds := fun c' _ msg hm => by
    by_cases hc : c' = c
    · subst hc
      simpa using holds msg (by simpa using hm)
    · simpa [hc] using h.holds c' hc msg (by simpa [hc] using hm)
  apart := fun c₁ c₂ msg msg' i _ _ h₁ h₂ hw₁ hw₂ => by
    dsimp only at h₁ h₂
    by_cases hc₁ : c₁ = c
    · by_cases hc₂ : c₂ = c
      · rw [hc₁, hc₂]
      · rw [hc₁, Function.update_self] at h₁
        rw [Function.update_of_ne hc₂] at h₂
        exact absurd hw₂ (apart msg i h₁ hw₁ c₂ hc₂ msg' h₂)
    · rw [Function.update_of_ne hc₁] at h₁
      by_cases hc₂ : c₂ = c
      · rw [hc₂, Function.update_self] at h₂
        exact absurd hw₁ (apart msg' i h₂ hw₂ c₁ hc₁ msg h₁)
      · rw [Function.update_of_ne hc₂] at h₂
        exact h.apart c₁ c₂ msg msg' i hc₁ hc₂ h₁ h₂ hw₁ hw₂

/-- What holds along a disciplined session. -/
def Good (x : Session) : Prop :=
  x.GoodFor fun _ => True

theorem Good.except (h : x.Good) (c : ℕ) : x.GoodFor (· ≠ c) where
  sound := fun c' _ => h.sound c' trivial
  idle := fun c' _ => h.idle c' trivial
  holds := fun c' _ => h.holds c' trivial
  apart := fun c₁ c₂ msg msg' i _ _ => h.apart c₁ c₂ msg msg' i trivial trivial

theorem Good.reset (h : x.Good) {c : ℕ} (hc : x.held c = none) :
    Good { x with streams := x.streams.reset c } := by
  have hnew := (h.except c).install (e := { x.streams.compressors c with
    history := [], attached := none, mid := false }) (m := none) (fun i hi => by cases hi)
    (fun _ => rfl) (fun msg hm => by cases hm) (fun msg i hm => by cases hm)
  rw [← hc, Function.update_eq_self] at hnew
  exact hnew

/-- The history a chunk goes on with ends with that of the window. -/
theorem Good.recent (h : x.Good) {c : ℕ} {w : Option ℕ}
    (hsame : ∀ msg, x.held c = some msg → msg.window = w) {i : ℕ} (hi : w = some i)
    (hlt : (x.streams.windows i).gen < 2 ^ 64) :
    lastN (x.streams.compressors c).kind.window (x.streams.windows i).dict <:+
      ((x.streams.compressors c).prime x.streams.windows w).history := by
  subst hi
  cases hm : x.held c with
  | none => exact (h.sound c trivial).suffix_prime (h.idle c trivial hm) hlt
  | some msg =>
    have hholds := h.holds c trivial msg hm
    rw [SharedCompressor.prime_of_mid hholds.mid]
    exact hholds.recent i (hsame msg hm)

/-- The windows of other messages are not the one of a chunk. -/
theorem Good.others (h : x.Good) {c : ℕ} {p : List UInt8} {w : Option ℕ} {final : Bool}
    (hallowed : x.Allowed (.compressChunk c p w final)) {i : ℕ} (hi : w = some i) :
    ∀ c' ≠ c, ∀ msg', x.held c' = some msg' → msg'.window ≠ some i := by
  intro c' hc' msg' hm' hw'
  cases hm : x.held c with
  | none => exact hallowed.2 hm i hi c' msg' hm' hw'
  | some msg =>
    exact hc' (h.apart c' c msg' msg i trivial trivial hm' hm hw' ((hallowed.1 msg hm).trans hi))

/-- The message a chunk belongs to, as it is before the chunk. -/
theorem Good.message (h : x.Good) {c : ℕ} {w : Option ℕ}
    (hsame : ∀ msg, x.held c = some msg → msg.window = w) :
    let e := (x.streams.compressors c).prime x.streams.windows w
    let msg := (x.held c).getD ⟨w, e.history, []⟩
    msg.window = w ∧ e.history = msg.start ++ msg.written := by
  cases hm : x.held c with
  | none => exact ⟨rfl, (List.append_nil _).symm⟩
  | some msg =>
    have hholds := h.holds c trivial msg hm
    refine ⟨hsame msg hm, ?_⟩
    rw [SharedCompressor.prime_of_mid hholds.mid]
    exact hholds.history

theorem Good.compressChunk (h : x.Good) (D : Deflater) {c : ℕ} {p : List UInt8} {w : Option ℕ}
    {final : Bool} (hallowed : x.Allowed (.compressChunk c p w final))
    (hlt : ∀ i, w = some i → (x.streams.windows i).gen < 2 ^ 64) :
    (x.after D (.compressChunk c p w final)).Good := by
  have hothers : ∀ {i}, w = some i → _ := fun hi => h.others hallowed hi
  have hrecent : ∀ {i}, w = some i → _ := fun hi => h.recent hallowed.1 hi (hlt _ hi)
  obtain ⟨hwindow, hhistory⟩ := h.message hallowed.1
  rw [after]
  dsimp only [Streams.compressChunk]
  generalize (x.held c).getD _ = msg at hwindow hhistory ⊢
  have hkind := (x.streams.compressors c).kind_prime x.streams.windows w
  generalize (x.streams.compressors c).prime x.streams.windows w = e at hhistory hrecent hkind ⊢
  -- the windows first, as the other compressors see them
  have hbut : GoodFor (· ≠ c) ⟨⟨w.elim x.streams.windows fun i =>
      Function.update x.streams.windows i ((x.streams.windows i).remember p),
      x.streams.compressors⟩, x.held⟩ := by
    cases w with
    | none => exact h.except c
    | some i => exact (h.except c).update (hothers rfl) (remember_changes _ p)
  have hsuffix : ∀ i, w = some i → lastN e.kind.window ((w.elim x.streams.windows fun i =>
      Function.update x.streams.windows i ((x.streams.windows i).remember p)) i).dict <:+
      e.history ++ p := by
    rintro i rfl
    rw [Option.elim_some, Function.update_self, Window.dict_remember, hkind]
    exact lastN_remember_suffix (hrecent rfl) p
  refine hbut.install ?_ ?_ ?_ ?_
  · intro i hi
    refine ⟨_, le_rfl, ?_, fun _ => hsuffix i hi⟩
    dsimp only at hi ⊢
    rw [hi]
    rfl
  · intro hm
    cases final with
    | true => rfl
    | false => cases hm
  · intro msg' hm
    cases final with
    | true => cases hm
    | false =>
      obtain rfl : { msg with written := msg.written ++ p } = msg' := by simpa using hm
      refine ⟨rfl, ?_, fun i hi => hsuffix i (hwindow ▸ hi)⟩
      dsimp only
      rw [hhistory, List.append_assoc]
  · intro msg' i hm hi
    cases final with
    | true => cases hm
    | false =>
      obtain rfl : { msg with written := msg.written ++ p } = msg' := by simpa using hm
      exact hothers (hwindow ▸ hi)

/-- A step keeps what holds, as long as no generation comes round. -/
theorem Good.after (h : x.Good) (D : Deflater) {op : Op} (hallowed : x.Allowed op)
    (hlt : ∀ i, (x.streams.windows i).gen < 2 ^ 64) : (x.after D op).Good := by
  cases op with
  | compressChunk c p w final => exact h.compressChunk D hallowed fun i _ => hlt i
  | reset c => exact h.reset hallowed
  | add i p => exact GoodFor.update h (fun c _ => hallowed c) (remember_changes _ p)
  | clear i => exact GoodFor.update h (fun c _ => hallowed c) (Or.inr (Nat.lt_succ_self _))

/-- A window counts the changes made to it. -/
theorem gen_after (D : Deflater) (x : Session) (op : Op) (i : ℕ) :
    ((x.after D op).streams.windows i).gen =
      (x.streams.windows i).gen + if op.changes i then 1 else 0 := by
  have hremember : ∀ (j : ℕ) (p : List UInt8),
      (Function.update x.streams.windows j ((x.streams.windows j).remember p) i).gen =
        (x.streams.windows i).gen + if (j == i && p != []) = true then 1 else 0 := by
    intro j p
    by_cases hij : i = j
    · subst hij
      rw [Function.update_self, Window.gen_remember]
      by_cases hp : p = [] <;> simp [hp]
    · rw [Function.update_of_ne hij]
      simp [Ne.symm hij]
  cases op with
  | compressChunk c p w final =>
    cases w with
    | none => rfl
    | some j =>
      have h := hremember j p
      simp only [Op.changes, Option.some_beq_some]
      exact h
  | reset c => rfl
  | add j p => exact hremember j p
  | clear j =>
    by_cases hij : i = j
    · subst hij
      simp [Session.after, Streams.clear, Window.reset, Op.changes]
    · simp [Session.after, Streams.clear, Op.changes, hij, Ne.symm hij]

theorem good_run (D : Deflater) : ∀ {ops : List Op} {x : Session}, x.Good →
    (∀ i, (x.streams.windows i).gen + ops.countP (Op.changes i) < 2 ^ 64) →
    Disciplined D x ops → (x.run D ops).Good ∧
      ∀ i, ((x.run D ops).streams.windows i).gen < 2 ^ 64
  | [], x, h, hcount, _ => ⟨h, hcount⟩
  | op :: ops, x, h, hcount, hdisc => by
    have hgood : (x.after D op).Good :=
      h.after D hdisc.1 fun i => Nat.lt_of_le_of_lt (Nat.le_add_right _ _) (hcount i)
    have hrest : ∀ i, ((x.after D op).streams.windows i).gen + ops.countP (Op.changes i) <
        2 ^ 64 := by
      intro i
      have := hcount i
      rw [List.countP_cons] at this
      rw [gen_after]
      omega
    have hrun := good_run D hgood hrest hdisc.2
    exact hrun

theorem run_append (D : Deflater) (x : Session) (ops ops' : List Op) :
    x.run D (ops ++ ops') = (x.run D ops).run D ops' :=
  List.foldl_append

theorem disciplined_append (D : Deflater) : ∀ {ops : List Op} {x : Session} {ops' : List Op},
    Disciplined D x (ops ++ ops') ↔ Disciplined D x ops ∧ Disciplined D (x.run D ops) ops'
  | [], _, _ => by simp [Disciplined, run]
  | op :: ops, x, ops' => by
    rw [List.cons_append, Disciplined, Disciplined, disciplined_append D, and_assoc]
    rfl

theorem good_start {s : Streams} (h : s.Fresh) : (start s).Good where
  sound := fun c _ i hi => by
    rw [start, h.compressors c] at hi
    cases hi
  idle := fun c _ _ => by
    rw [start, h.compressors c]
  holds := fun c _ msg hm => by cases hm
  apart := fun c c' msg msg' i _ _ hm => by cases hm

end Session

theorem lastN_min (n : ℕ) (l : List UInt8) : lastN (min n l.length) l = lastN n l := by
  rw [← length_lastN, lastN_of_suffix (lastN_suffix n l)]

theorem Session.Good.current {x : Session} (h : x.Good) {c : ℕ} {w : Option ℕ}
    (hm : x.held c = none) (hlt : ∀ i, (x.streams.windows i).gen < 2 ^ 64) :
    Current x.streams c w := by
  refine ⟨?_, ?_⟩
  · rintro rfl
    have hprimes : (x.streams.compressors c).primes x.streams.windows none = true := by
      simp [SharedCompressor.primes, h.idle c trivial hm]
    rw [SharedCompressor.prime_of_primes hprimes]
    exact lastN_nil _
  · rintro i rfl
    dsimp only
    rw [lastN_min]
    refine ⟨?_, fun hprimes => SharedCompressor.prime_of_primes hprimes⟩
    rw [← length_lastN]
    exact lastN_of_suffix ((h.sound c trivial).suffix_prime (h.idle c trivial hm) (hlt i))

/-- When a message starts, its encoder has the history of the window, and every later chunk goes on
with the stream of its message. -/
theorem messages_current (D : Deflater) {s : Streams} (hs : s.Fresh) {ops : List Op} {c : ℕ}
    {p : List UInt8} {w : Option ℕ} {final : Bool}
    (hdisc : Session.Disciplined D (.start s) (ops ++ [.compressChunk c p w final]))
    (hcount : ∀ i, ops.countP (Op.changes i) < 2 ^ 64) :
    let x := (Session.start s).run D ops
    (x.held c = none → Current x.streams c w) ∧
      ∀ msg, x.held c = some msg → Continues x.streams c w msg := by
  obtain ⟨hops, hlast, -⟩ := (Session.disciplined_append D).mp hdisc
  have hgen : ∀ i, ((Session.start s).streams.windows i).gen + ops.countP (Op.changes i) < 2 ^ 64 := by
    intro i
    rw [show ((Session.start s).streams.windows i).gen = 0 from (hs.windows i).2, Nat.zero_add]
    exact hcount i
  obtain ⟨hgood, hlt⟩ := Session.good_run D (Session.good_start hs) hgen hops
  dsimp only
  generalize (Session.start s).run D ops = x at hgood hlt hlast ⊢
  refine ⟨fun hm => hgood.current hm hlt, fun msg hm => ?_⟩
  have hholds := hgood.holds c trivial msg hm
  exact ⟨hlast.1 msg hm, SharedCompressor.prime_of_mid hholds.mid w, hholds.history⟩

/-! ## Runs -/

/-- The operation leaves no message unfinished. -/
def Op.complete : Op → Bool
  | .compressChunk _ _ _ final => final
  | _ => true

namespace Session

variable {x : Session}

theorem allowed_of_idle (h : ∀ c, x.held c = none) (op : Op) : x.Allowed op := by
  have hno : ∀ {c msg}, x.held c ≠ some msg := fun {c msg} hm => by
    rw [h c] at hm
    cases hm
  have hfree : ∀ i, x.Free i := fun i c msg hm => absurd hm hno
  cases op with
  | compressChunk c p w final => exact ⟨fun msg hm => absurd hm hno, fun _ i _ => hfree i⟩
  | reset c => exact h c
  | add i p => exact hfree i
  | clear i => exact hfree i

theorem idle_after (D : Deflater) (h : ∀ c, x.held c = none) {op : Op} (hop : op.complete = true) :
    ∀ c, (x.after D op).held c = none := by
  intro c'
  cases op with
  | compressChunk c p w final =>
    obtain rfl : final = true := hop
    by_cases hc : c' = c
    · subst hc
      simp [Session.after]
    · simpa [Session.after, hc] using h c'
  | reset c => exact h c'
  | add i p => exact h c'
  | clear i => exact h c'

/-- Whole messages, and changes of windows, may come in any order. -/
theorem disciplined_of_complete (D : Deflater) : ∀ {ops : List Op} {x : Session},
    (∀ c, x.held c = none) → (∀ op ∈ ops, op.complete = true) →
    Disciplined D x ops ∧ ∀ c, (x.run D ops).held c = none
  | [], _, h, _ => ⟨trivial, h⟩
  | op :: ops, x, h, hops => by
    rw [List.forall_mem_cons] at hops
    obtain ⟨hdisc, hheld⟩ := disciplined_of_complete D (idle_after D h hops.1) hops.2
    exact ⟨⟨allowed_of_idle h op, hdisc⟩, hheld⟩

end Session

/-- One compressor and one window. -/
def single : Streams :=
  ⟨fun _ => {}, fun _ => { kind := .level 1 }⟩

theorem fresh_single : single.Fresh :=
  ⟨fun _ => ⟨rfl, rfl⟩, fun _ => rfl⟩

/-- A message after a change of its window, and a second chunk. -/
theorem messages_current_single :
    Current ((Session.start single).run Stored.deflater [.compress 0 [1] (some 0), .add 0 [2]]).streams 0
        (some 0) ∧
      Continues ((Session.start single).run Stored.deflater [.compressChunk 0 [1] (some 0) false]).streams 0
        (some 0) ⟨some 0, [], [1]⟩ := by
  have hsecond : Session.Disciplined Stored.deflater (.start single)
      ([.compressChunk 0 [1] (some 0) false] ++ [.compressChunk 0 [3] (some 0) true]) := by
    refine ⟨Session.allowed_of_idle (fun _ => rfl) _, ⟨fun msg hm => ?_, fun hm => ?_⟩, trivial⟩
    · obtain rfl : (⟨some 0, [], [1]⟩ : Message) = msg := Option.some.inj hm
      rfl
    · cases hm
  have hfirst : Session.Disciplined Stored.deflater (.start single)
      ([.compress 0 [1] (some 0), .add 0 [2]] ++ [.compressChunk 0 [3] (some 0) true]) :=
    (Session.disciplined_of_complete Stored.deflater (fun _ => rfl) (by decide)).1
  exact ⟨(messages_current Stored.deflater fresh_single hfirst
      fun i => Nat.lt_of_le_of_lt List.countP_le_length (by decide)).1 rfl,
    (messages_current Stored.deflater fresh_single hsecond
      fun i => Nat.lt_of_le_of_lt List.countP_le_length (by decide)).2 _ rfl⟩

theorem getLast?_lastN {n : ℕ} (hn : 0 < n) (l : List UInt8) :
    (lastN n l).getLast? = l.getLast? := by
  rcases l.eq_nil_or_concat' with rfl | ⟨l, b, rfl⟩
  · rw [lastN_nil]
  · rw [lastN, List.getLast?_drop, if_neg (by simp; omega)]

/-- Many changes of one window. -/
theorem run_adds (D : Deflater) (x : Session) (i : ℕ) (b : UInt8) : ∀ n : ℕ,
    let y := x.run D (List.replicate n (.add i [b]))
    y.streams.compressors = x.streams.compressors ∧
      (y.streams.windows i).gen = (x.streams.windows i).gen + n ∧
      (0 < n → (y.streams.windows i).dict.getLast? = some b)
  | 0 => ⟨rfl, rfl, fun h => absurd h (Nat.lt_irrefl 0)⟩
  | n + 1 => by
    obtain ⟨hcomp, hgen, -⟩ := run_adds D x i b n
    rw [List.replicate_succ', Session.run_append]
    generalize x.run D (List.replicate n (.add i [b])) = y at hcomp hgen ⊢
    have hrun : y.run D [.add i [b]] = y.after D (.add i [b]) := rfl
    rw [hrun]
    refine ⟨hcomp, ?_, fun _ => ?_⟩
    · rw [Session.gen_after, hgen]
      simp [Op.changes, Nat.add_assoc]
    · have hdict : ((y.after D (.add i [b])).streams.windows i).dict =
          lastN (y.streams.windows i).size ((y.streams.windows i).dict ++ [b]) := by
        rw [← Window.dict_remember]
        simp [Session.after, Streams.add, Window.add]
      rw [hdict, getLast?_lastN (y.streams.windows i).size_pos, List.getLast?_concat]

/-- A compressor that served the window once, and a multiple of `2 ^ 64` changes since. -/
theorem stale_after (D : Deflater) {n : ℕ} (hn : n % 2 ^ 64 = 0) (hpos : 0 < n) :
    ¬Current ((Session.start single).run D
      (.compress 0 [1] (some 0) :: List.replicate n (.add 0 [2]))).streams 0 (some 0) := by
  obtain ⟨hcomp, hgen, hlast⟩ :=
    run_adds D ((Session.start single).after D (.compress 0 [1] (some 0))) 0 2 n
  have hrun : (Session.start single).run D
      (.compress 0 [1] (some 0) :: List.replicate n (.add 0 [2])) =
      ((Session.start single).after D (.compress 0 [1] (some 0))).run D
        (List.replicate n (.add 0 [2])) := rfl
  rw [hrun]
  generalize ((Session.start single).after D (.compress 0 [1] (some 0))).run D
    (List.replicate n (.add 0 [2])) = y at hcomp hgen hlast ⊢
  have hgen' : (y.streams.windows 0).generation = 1 := by
    have hone : (((Session.start single).after D (.compress 0 [1] (some 0))).streams.windows 0).gen =
        1 := rfl
    rw [Window.generation, hgen, hone, ← UInt64.toNat_inj, UInt64.toNat_ofNat', Nat.add_mod, hn]
    rfl
  have hserved : y.streams.compressors 0 = ⟨.level 1, [1], some 0, 1, false⟩ := by
    rw [hcomp]
    rfl
  intro h
  have hagree := (h.2 0 rfl).1
  have hcontinues : (y.streams.compressors 0).prime y.streams.windows (some 0) =
      y.streams.compressors 0 := by
    rw [SharedCompressor.prime, if_neg]
    simp [SharedCompressor.primes, hserved, hgen']
  rw [hcontinues, hserved] at hagree
  have hdict := hlast hpos
  have hlen : 0 < (y.streams.windows 0).dict.length := by
    rw [List.length_pos_iff]
    intro hnil
    rw [hnil] at hdict
    cases hdict
  have hmin : 0 < min (EncoderKind.level 1).window (y.streams.windows 0).dict.length :=
    Nat.lt_min.mpr ⟨by decide, hlen⟩
  have hends := congrArg List.getLast? hagree
  rw [getLast?_lastN hmin, getLast?_lastN hmin, hdict] at hends
  cases hends

/-- The word that counts the changes comes round after `2 ^ 64` of them. A compressor that served
the window before then goes on with its stream, though the window has another history. -/
theorem stale_stream :
    let ops : List Op := .compress 0 [1] (some 0) :: List.replicate (2 ^ 64) (.add 0 [2])
    single.Fresh ∧ Session.Disciplined Stored.deflater (.start single) (ops ++ [.compress 0 [3] (some 0)]) ∧
      ((Session.start single).run Stored.deflater ops).held 0 = none ∧
      ¬Current ((Session.start single).run Stored.deflater ops).streams 0 (some 0) := by
  have hcomplete : ∀ op ∈ Op.compress 0 [1] (some 0) :: List.replicate (2 ^ 64) (.add 0 [2]),
      op.complete = true := by
    refine List.forall_mem_cons.mpr ⟨rfl, fun op hop => ?_⟩
    rw [List.eq_of_mem_replicate hop]
    rfl
  refine ⟨fresh_single, (Session.disciplined_of_complete Stored.deflater (fun _ => rfl) ?_).1,
    (Session.disciplined_of_complete Stored.deflater (fun _ => rfl) hcomplete).2 0,
    stale_after Stored.deflater (Nat.mod_self _) (Nat.two_pow_pos _)⟩
  intro op hop
  rcases List.mem_append.mp hop with hop | hop
  · exact hcomplete op hop
  · rw [List.mem_singleton.mp hop]
    rfl

end Streams

end Ews
