import Ews.Bytes
import Ews.Header

/-!
# The history window

`deflate/window.go`. A window keeps up to twice its size in storage and compacts when
that is full ; `Window.dict_remember` says that none of it shows : the history is the
last `size` bytes of what was remembered. `changes_history` says it of every sequence of calls.

`Window` carries that its contents fit its capacity. `alloc` is the capacity the runtime
gives an append that outgrows its storage. `gen` counts the changes without a bound ; what the code
keeps and compares is the word `generation`, which comes round.
-/

namespace Ews

open Bytes

/-- `windowSize`. -/
def windowSize : ℕ := 32768

theorem Window.le_id (n : ℕ) : n ≤ id n :=
  le_rfl

theorem Window.fits_nil : ([] : List UInt8).length ≤ 0 :=
  le_rfl

/-- `deflate.Window`. -/
structure Window where
  bits : ℤ := 0
  buf : List UInt8 := []
  cap : ℕ := 0
  gen : ℕ := 0
  alloc : ℕ → ℕ := id
  le_alloc : ∀ n, n ≤ alloc n := by exact Window.le_id
  fits : buf.length ≤ cap := by first | exact Window.fits_nil | simp

namespace Window

/-- `Size`. -/
def size (w : Window) : ℕ :=
  if 8 ≤ w.bits ∧ w.bits ≤ 15 then 2 ^ w.bits.toNat else windowSize

/-- `dict` of a window. -/
def dict (w : Window) : List UInt8 :=
  if w.buf.length > w.size then w.buf.drop (w.buf.length - w.size) else w.buf

/-- `dict`, nil for a nil window. -/
def dictOf : Option Window → List UInt8
  | none => []
  | some w => w.dict

/-- `Reset`. -/
def reset (w : Window) : Window :=
  { w with buf := [], gen := w.gen + 1, fits := Nat.zero_le _ }

/-- `gen`, a word of 64 bits. -/
def generation (w : Window) : UInt64 :=
  UInt64.ofNat w.gen

/-- `append(w.buf, p...)` : in place, or in new storage if it does not fit. -/
def append (w : Window) (p : List UInt8) : Window :=
  { w with
    buf := w.buf ++ p
    cap := if w.buf.length + p.length ≤ w.cap then w.cap else w.alloc (w.buf.length + p.length)
    fits := by
      rw [List.length_append]
      split_ifs with h
      · exact h
      · exact w.le_alloc _ }

/-- The storage of twice the window that `remember` moves to. -/
def reserve (w : Window) : Window :=
  if h : w.cap < 2 * w.size then
    { w with
      buf := w.dict
      cap := 2 * w.size
      fits := by
        unfold dict
        split_ifs with hb
        · rw [List.length_drop]
          omega
        · omega }
  else w

/-- The compaction in `remember` : the most recent `keep` bytes. -/
def compact (w : Window) (keep : ℕ) : Window :=
  { w with
    buf := w.buf.drop (w.buf.length - keep)
    fits := by
      have := w.fits
      rw [List.length_drop]
      omega }

/-- `remember` of at least a window : its tail replaces everything. -/
def replace (w : Window) (p : List UInt8) : Window :=
  append { w with buf := [], fits := Nat.zero_le _ } (p.drop (p.length - w.size))

/-- `remember` of less than a window. -/
def extend (w : Window) (p : List UInt8) : Window :=
  (if w.reserve.buf.length + p.length > w.reserve.cap then w.reserve.compact (w.size - p.length)
    else w.reserve).append p

/-- `remember`. -/
def remember (w : Window) (p : List UInt8) : Window :=
  if p.length = 0 then w
  else
    let w := { w with gen := w.gen + 1 }
    if p.length ≥ w.size then w.replace p else w.extend p

/-- `Add`. -/
def add (w : Window) (p : List UInt8) : Window :=
  w.remember p

theorem size_pos (w : Window) : 0 < w.size := by
  unfold size
  split_ifs
  · exact Nat.two_pow_pos _
  · decide

theorem size_le (w : Window) : w.size ≤ windowSize := by
  unfold size
  split_ifs with h
  · exact Nat.pow_le_pow_right (by decide) (show w.bits.toNat ≤ 15 by omega)
  · exact le_rfl

theorem dict_eq (w : Window) : w.dict = lastN w.size w.buf := by
  unfold dict lastN
  split_ifs with h
  · rfl
  · rw [Nat.sub_eq_zero_of_le (by omega), List.drop_zero]

@[simp] theorem dict_reset (w : Window) : w.reset.dict = [] := by
  simp [dict_eq, reset]

@[simp] theorem size_reset (w : Window) : w.reset.size = w.size := rfl

@[simp] theorem size_append (w : Window) (p : List UInt8) : (w.append p).size = w.size := rfl

@[simp] theorem buf_append (w : Window) (p : List UInt8) : (w.append p).buf = w.buf ++ p := rfl

@[simp] theorem size_reserve (w : Window) : w.reserve.size = w.size := by
  unfold reserve
  split_ifs <;> rfl

@[simp] theorem dict_reserve (w : Window) : lastN w.size w.reserve.buf = lastN w.size w.buf := by
  unfold reserve
  split_ifs
  · simp [dict_eq]
  · rfl

theorem cap_reserve (w : Window) : 2 * w.size ≤ w.reserve.cap := by
  unfold reserve
  split_ifs with h
  · exact le_rfl
  · omega

@[simp] theorem bits_reserve (w : Window) : w.reserve.bits = w.bits := by
  unfold reserve
  split_ifs <;> rfl

@[simp] theorem gen_reserve (w : Window) : w.reserve.gen = w.gen := by
  unfold reserve
  split_ifs <;> rfl

theorem bits_extend (w : Window) (p : List UInt8) : (w.extend p).bits = w.bits := by
  unfold extend append
  split_ifs <;> simp [compact]

theorem gen_extend (w : Window) (p : List UInt8) : (w.extend p).gen = w.gen := by
  unfold extend append
  split_ifs <;> simp [compact]

theorem bits_remember (w : Window) (p : List UInt8) : (w.remember p).bits = w.bits := by
  unfold remember
  dsimp only
  split_ifs
  · rfl
  · rfl
  · exact bits_extend _ p

/-- Every change but an empty one is counted. -/
theorem gen_remember (w : Window) (p : List UInt8) :
    (w.remember p).gen = if p = [] then w.gen else w.gen + 1 := by
  unfold remember
  dsimp only
  simp only [List.length_eq_zero_iff]
  split_ifs
  · rfl
  · rfl
  · exact gen_extend _ p

/-- Counts below `2 ^ 64` are told apart. -/
theorem generation_eq {w : Window} {g : ℕ} (hgen : w.generation = UInt64.ofNat g) (hle : g ≤ w.gen)
    (hlt : w.gen < 2 ^ 64) : g = w.gen := by
  have h := congrArg UInt64.toNat hgen
  rw [generation, UInt64.toNat_ofNat', UInt64.toNat_ofNat', Nat.mod_eq_of_lt hlt,
    Nat.mod_eq_of_lt (by omega)] at h
  exact h.symm

@[simp] theorem size_remember (w : Window) (p : List UInt8) : (w.remember p).size = w.size := by
  unfold size
  rw [bits_remember]

/-- Compaction keeps as much as the window needs together with `p`. -/
theorem lastN_compact (w : Window) {p : List UInt8} (hp : p.length < w.size)
    (hb : w.size ≤ w.buf.length) :
    lastN w.size (w.buf.drop (w.buf.length - (w.size - p.length)) ++ p) = lastN w.size (w.buf ++ p) := by
  have hlen : (w.buf.drop (w.buf.length - (w.size - p.length)) ++ p).length = w.size := by
    rw [List.length_append, List.length_drop]
    omega
  rw [lastN_of_length_le hlen.le, lastN, List.length_append, List.drop_append_of_le_length (by omega)]
  congr 2
  omega

theorem lastN_extend (w : Window) {p : List UInt8} (hp : p.length < w.size) :
    lastN w.size (w.extend p).buf = lastN w.size (w.buf ++ p) := by
  have hcap := w.cap_reserve
  have hres : lastN w.size (w.reserve.buf ++ p) = lastN w.size (w.buf ++ p) :=
    lastN_append_congr w.dict_reserve p
  unfold extend
  split_ifs with hfull
  · -- The storage holds two windows, so one is left once it is full.
    have := lastN_compact w.reserve (p := p) (by simpa using hp) (by rw [size_reserve]; omega)
    simp only [size_reserve] at this
    exact this.trans hres
  · exact hres

/-- The history after `remember` is the last `size` bytes of the history and `p`. -/
theorem dict_remember (w : Window) (p : List UInt8) :
    (w.remember p).dict = lastN w.size (w.dict ++ p) := by
  rw [dict_eq, size_remember, dict_eq, lastN_append_lastN]
  unfold remember
  dsimp only
  split_ifs with h0 hbig
  · rw [List.length_eq_zero_iff.mp h0, List.append_nil]
  · have hbig' : w.size ≤ p.length := hbig
    rw [lastN_append_of_le _ hbig']
    exact lastN_lastN w.size p
  · exact lastN_extend { w with gen := w.gen + 1 } (by simpa using hbig)

/-! ## Slices in range -/

/-- `xs[i:]` does not panic. -/
def InRange (i : ℤ) (xs : List UInt8) : Prop :=
  0 ≤ i ∧ i ≤ xs.length

instance (i : ℤ) (xs : List UInt8) : Decidable (InRange i xs) :=
  inferInstanceAs (Decidable (_ ∧ _))

/-- `dict` with the check of its slice, `none` for a panic. -/
def dictChecked (w : Window) : Option (List UInt8) :=
  if (w.buf.length : ℤ) - w.size > 0 then
    if InRange ((w.buf.length : ℤ) - w.size) w.buf then some w.dict else none
  else some w.dict

/-- `remember` with the checks of its slices, `none` for a panic. -/
def rememberChecked (w : Window) (p : List UInt8) : Option Window :=
  if p.length = 0 then some w
  else
    let w := { w with gen := w.gen + 1 }
    if p.length ≥ w.size then
      if InRange ((p.length : ℤ) - w.size) p then some (w.replace p) else none
    else if w.cap < 2 * w.size ∧ w.dictChecked = none then none
    else if w.reserve.buf.length + p.length > w.reserve.cap then
      if InRange (w.reserve.buf.length - ((w.size : ℤ) - p.length)) w.reserve.buf then
        some ((w.reserve.compact (w.size - p.length)).append p)
      else none
    else some (w.reserve.append p)

theorem dictChecked_eq (w : Window) : w.dictChecked = some w.dict := by
  unfold dictChecked
  split_ifs with hlong hin
  · rfl
  · exact absurd ⟨hlong.le, by omega⟩ hin
  · rfl

/-- No slice is out of range : what compaction keeps is in the storage, which is more than full
with less than a window to come. -/
theorem rememberChecked_eq (w : Window) (p : List UInt8) :
    w.rememberChecked p = some (w.remember p) := by
  unfold rememberChecked remember
  dsimp only
  split_ifs with h0 hbig hin hdict hfull hin
  · rfl
  · rfl
  · exact absurd ⟨by omega, by omega⟩ hin
  · exact absurd ((dictChecked_eq _).symm.trans hdict.2) (by simp)
  · rw [extend, if_pos hfull]
  · have hcap := cap_reserve { w with gen := w.gen + 1 }
    have hsize := Nat.lt_of_not_le hbig
    exact absurd ⟨by omega, by omega⟩ hin
  · rw [extend, if_neg hfull]

/-! ## Every sequence of calls -/

/-- The capacities that the runtime gives the appends of one call. -/
structure Growth where
  cap : ℕ → ℕ
  le_cap : ∀ n, n ≤ cap n

/-- A call that changes a window. -/
inductive Change
  | remember (p : List UInt8) (growth : Growth)
  | add (p : List UInt8) (growth : Growth)
  | reset

/-- A call of `remember` while the runtime allocates as `growth`. -/
def rememberGrowing (w : Window) (p : List UInt8) (growth : Growth) : Option Window :=
  rememberChecked { w with alloc := growth.cap, le_alloc := growth.le_cap } p

/-- One call. -/
def change (w : Window) : Change → Option Window
  | .remember p growth => w.rememberGrowing p growth
  | .add p growth => w.rememberGrowing p growth
  | .reset => some w.reset

/-- A sequence of calls. -/
def changes (w : Window) (cs : List Change) : Option Window :=
  cs.foldlM change w

/-- The history that a call leaves. -/
def Change.on (past : List UInt8) : Change → List UInt8
  | .remember p _ => past ++ p
  | .add p _ => past ++ p
  | .reset => []

/-- The payloads since the last `Reset`, one after another. -/
def history (cs : List Change) : List UInt8 :=
  cs.foldl Change.on []

theorem rememberGrowing_spec (w : Window) (p : List UInt8) (growth : Growth) :
    ∃ w', w.rememberGrowing p growth = some w' ∧ w'.bits = w.bits ∧
      w'.dict = lastN w.size (w.dict ++ p) ∧ w'.gen = if p = [] then w.gen else w.gen + 1 :=
  ⟨_, rememberChecked_eq _ p, bits_remember _ p, dict_remember _ p, gen_remember _ p⟩

/-- One call on a window whose history is the end of `past`. -/
theorem change_spec {w : Window} {past : List UInt8} (h : w.dict = lastN w.size past) (c : Change) :
    ∃ w', w.change c = some w' ∧ w'.bits = w.bits ∧ w'.dict = lastN w.size (c.on past) ∧
      (c.on past ≠ past → w'.gen = w.gen + 1) := by
  have hremember : ∀ p growth, ∃ w', w.rememberGrowing p growth = some w' ∧ w'.bits = w.bits ∧
      w'.dict = lastN w.size (past ++ p) ∧ (past ++ p ≠ past → w'.gen = w.gen + 1) := by
    intro p growth
    obtain ⟨w', heq, hbits, hdict, hgen⟩ := w.rememberGrowing_spec p growth
    refine ⟨w', heq, hbits, ?_, fun hne => ?_⟩
    · rw [hdict, h, lastN_append_lastN]
    · rw [hgen, if_neg fun hp => hne (by rw [hp, List.append_nil])]
  cases c with
  | remember p growth => exact hremember p growth
  | add p growth => exact hremember p growth
  | reset => exact ⟨w.reset, rfl, rfl, by simp [Change.on], fun _ => rfl⟩

theorem changes_spec (cs : List Change) : ∀ {w : Window} {past : List UInt8},
    w.dict = lastN w.size past → ∃ w', w.changes cs = some w' ∧ w'.bits = w.bits ∧
      w'.dict = lastN w.size (cs.foldl Change.on past) := by
  induction cs with
  | nil => exact fun {w past} h => ⟨w, rfl, rfl, h⟩
  | cons c cs ih =>
    intro w past h
    obtain ⟨w₁, heq, hbits, hdict, -⟩ := change_spec h c
    have hsize : w₁.size = w.size := by rw [size, hbits, size]
    obtain ⟨w', hrun, hbits', hdict'⟩ := @ih w₁ (c.on past) (by rw [hsize]; exact hdict)
    refine ⟨w', ?_, hbits'.trans hbits, by rw [← hsize]; exact hdict'⟩
    rw [changes, List.foldlM_cons, heq]
    exact hrun

/-- After any calls on a new window of any size, whatever the runtime allocates : no slice was out of
range, the history is the last bytes of the payloads since the last `Reset`, as many as the window
has room for, and a further call that changes those payloads changes `gen`, a counter of 64
bits. -/
theorem changes_history (bits : ℤ) (cs : List Change) :
    ∃ w, changes { bits := bits } cs = some w ∧
      w.dict = (history cs).drop ((history cs).length - size { bits := bits }) ∧
      ∀ c, history (cs ++ [c]) ≠ history cs → ∃ w', w.change c = some w' ∧
        w'.gen % 2 ^ 64 ≠ w.gen % 2 ^ 64 := by
  have hnew : dict { bits := bits } = lastN (size { bits := bits }) [] := by
    rw [dict_eq]
  obtain ⟨w, hrun, hbits, hdict⟩ := changes_spec cs hnew
  refine ⟨w, hrun, hdict, fun c hc => ?_⟩
  have hsize : w.size = size { bits := bits } := by rw [size, hbits, size]
  rw [← hsize] at hdict
  obtain ⟨w', heq, -, -, hgen⟩ := change_spec hdict c
  refine ⟨w', heq, ?_⟩
  rw [history, List.foldl_append] at hc
  rw [hgen hc]
  omega

/-- A window of 256 bytes after three payloads and a `Reset` between them. -/
theorem changes_history_reset :
    ∃ w, changes { bits := 8 } [.remember [1, 2] ⟨id, fun _ => le_rfl⟩, .reset,
        .add [3] ⟨id, fun _ => le_rfl⟩, .remember [4, 5] ⟨id, fun _ => le_rfl⟩] = some w ∧
      w.dict = [3, 4, 5] ∧ ∃ w', w.change .reset = some w' ∧ w'.gen % 2 ^ 64 ≠ w.gen % 2 ^ 64 := by
  obtain ⟨w, hrun, hdict, hgen⟩ := changes_history 8 [.remember [1, 2] ⟨id, fun _ => le_rfl⟩, .reset,
    .add [3] ⟨id, fun _ => le_rfl⟩, .remember [4, 5] ⟨id, fun _ => le_rfl⟩]
  exact ⟨w, hrun, hdict.trans (by decide), hgen .reset (by decide)⟩

end Window

end Ews
