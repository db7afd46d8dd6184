import Ews.Decompressor
import Mathlib.Data.Nat.Size

/-!
# The buffer pool

`internal/bufpool`. Buffers are kept by the power of two of their capacity. `Get` rounds a size up
to its class and `Put` takes the logarithm of a capacity ; `run_sound` says that the two meet : in
any sequence of calls a class holds the buffers of its own capacity only, and a buffer from `Get`
has room for what was asked.

A pool of the runtime gives back any buffer it holds, or none, and may forget some at any time :
`get` is told which one it is given, and `collect` forgets one. An index out of the range of
`classes` is a panic, here `none`.
-/

set_option linter.unusedSectionVars false

namespace Ews

namespace Bufpool

def minBits : ℕ := 10

def maxBits : ℕ := 26

/-- `Buffer` : the working slice and its capacity. -/
structure Buffer where
  b : List UInt8
  cap : ℕ
  fits : b.length ≤ cap

/-- `b.B[:0]`. -/
def Buffer.empty (buf : Buffer) : Buffer :=
  { buf with b := [], fits := Nat.zero_le _ }

/-- `make([]byte, 0, n)`. -/
def make (n : ℕ) : Buffer :=
  ⟨[], n, Nat.zero_le _⟩

/-- `classes`. -/
abbrev Classes := List (List Buffer)

def classes : Classes :=
  List.replicate (maxBits + 1) []

/-- `class`. -/
def classOf (n : ℕ) : ℕ :=
  max minBits (n - 1).size

/-- `Get`. The pool of the class gives its buffer `pick`, if it has so many. -/
def get (cs : Classes) (n : ℕ) (pick : Option ℕ) : Option (Buffer × Classes) :=
  if n > 2 ^ maxBits then some (make n, cs)
  else do
    let held ← cs[classOf n]?
    match pick.bind fun i => held[i]? with
    | some buf => some (buf.empty, cs.set (classOf n) (held.eraseIdx (pick.getD 0)))
    | none => some (make (2 ^ classOf n), cs)

/-- `Put`. -/
def put (cs : Classes) : Option Buffer → Option Classes
  | none => some cs
  | some buf =>
    if buf.cap < 2 ^ minBits ∨ buf.cap > 2 ^ maxBits ∨ buf.cap &&& (buf.cap - 1) ≠ 0 then some cs
    else do
      let held ← cs[buf.cap.size - 1]?
      some (cs.set (buf.cap.size - 1) (buf.empty :: held))

/-- A call, or the runtime forgetting a buffer. -/
inductive Op
  | get (n : ℕ) (pick : Option ℕ)
  | put (buf : Option Buffer)
  | collect (c i : ℕ)

/-- One step : the buffer `Get` returns, and the classes. -/
def step (cs : Classes) : Op → Option (Option Buffer × Classes)
  | .get n pick => (get cs n pick).map fun x => (some x.1, x.2)
  | .put buf => (put cs buf).map fun cs => (none, cs)
  | .collect c i => some (none, cs.modify c (·.eraseIdx i))

/-- A sequence of steps. -/
def run (cs : Classes) : List Op → Option (List (Option Buffer) × Classes)
  | [] => some ([], cs)
  | op :: ops => do
    let (out, cs) ← step cs op
    let (outs, cs) ← run cs ops
    some (out :: outs, cs)

/-! ## Classes and capacities -/

theorem classOf_le {n : ℕ} (h : n ≤ 2 ^ maxBits) : classOf n ≤ maxBits := by
  refine max_le (by decide) (Nat.size_le.mpr ?_)
  have : 0 < 2 ^ maxBits := by decide
  omega

/-- A number without a bit in common with the one before it is a power of two. -/
theorem eq_two_pow_of_land {c : ℕ} (hpos : 0 < c) (h : c &&& (c - 1) = 0) :
    c = 2 ^ (c.size - 1) := by
  have hsize : 0 < c.size := Nat.size_pos.mpr hpos
  have hle : 2 ^ (c.size - 1) ≤ c := Nat.lt_size.mp (by omega)
  have hlt : c < 2 ^ (c.size - 1 + 1) := by
    rw [Nat.sub_add_cancel hsize]
    exact Nat.lt_size_self c
  by_contra hne
  -- Both numbers then have the top bit of `c`.
  have hbit : (c &&& (c - 1)).testBit (c.size - 1) = true := by
    rw [Nat.testBit_and, Nat.testBit_of_two_pow_le_and_two_pow_add_one_gt hle hlt,
      Nat.testBit_of_two_pow_le_and_two_pow_add_one_gt (by omega) (by omega)]
    rfl
  rw [h, Nat.zero_testBit] at hbit
  cases hbit

/-- The capacity of a class is the one the rest of the model gives a pooled buffer. -/
theorem two_pow_classOf {n : ℕ} (hpos : 1 ≤ n) (h : n ≤ 2 ^ maxBits) :
    2 ^ classOf n = poolCap n := by
  have hclog : Nat.clog 2 n = (n - 1).size := by
    refine eq_of_forall_ge_iff fun k => ?_
    rw [Nat.size_le, Nat.clog_le_iff_le_pow (by decide)]
    omega
  have hcap : poolCap n = 2 ^ max 10 (Nat.clog 2 n) := if_neg (Nat.not_lt.mpr h)
  rw [hcap, hclog]
  rfl

/-! ## Every sequence of calls -/

/-- Every class is there and holds empty buffers of its own capacity. -/
structure Sound (cs : Classes) : Prop where
  length : cs.length = maxBits + 1
  held : ∀ c bufs, cs[c]? = some bufs → ∀ buf ∈ bufs,
    buf.b = [] ∧ buf.cap = 2 ^ c ∧ minBits ≤ c ∧ c ≤ maxBits

theorem sound_classes : Sound classes := by
  refine ⟨List.length_replicate, fun c bufs h buf hbuf => ?_⟩
  rw [classes, List.getElem?_replicate] at h
  split_ifs at h
  cases h
  cases hbuf

section Sound

variable {cs : Classes} (h : Sound cs)
include h

theorem Sound.class_mem {c : ℕ} (hc : c ≤ maxBits) : ∃ bufs, cs[c]? = some bufs :=
  ⟨_, List.getElem?_eq_getElem (by rw [h.length]; omega)⟩

/-- A class may change to anything that it can hold. -/
theorem Sound.set (c : ℕ) (bufs : List Buffer) (hheld : ∀ buf ∈ bufs,
    buf.b = [] ∧ buf.cap = 2 ^ c ∧ minBits ≤ c ∧ c ≤ maxBits) : Sound (cs.set c bufs) := by
  refine ⟨(List.length_set).trans h.length, fun c' bufs' heq => ?_⟩
  rw [List.getElem?_set] at heq
  split_ifs at heq with hcc hlt
  · subst hcc
    cases heq
    exact hheld
  · exact h.held c' bufs' heq

/-- `Get` of at least a byte : an empty buffer with room for it, of a power of two if it is
pooled. -/
theorem get_spec {n : ℕ} (hn : 1 ≤ n) (pick : Option ℕ) :
    ∃ buf cs', get cs n pick = some (buf, cs') ∧ Sound cs' ∧ buf.b = [] ∧ buf.cap = poolCap n := by
  unfold get
  by_cases hbig : n > 2 ^ maxBits
  · rw [if_pos hbig]
    exact ⟨_, _, rfl, h, rfl, (if_pos hbig).symm⟩
  have hle := Nat.le_of_not_lt hbig
  obtain ⟨bufs, hbufs⟩ := h.class_mem (classOf_le hle)
  rw [if_neg hbig, hbufs]
  dsimp only [bind, Option.bind_some]
  cases hpick : pick.bind fun i => bufs[i]? with
  | none => exact ⟨_, _, rfl, h, rfl, two_pow_classOf hn hle⟩
  | some buf =>
    obtain ⟨i, -, hi⟩ := Option.bind_eq_some_iff.mp hpick
    have hheld := h.held _ _ hbufs
    refine ⟨_, _, rfl, h.set _ _ fun b hb => hheld b (List.mem_of_mem_eraseIdx hb), rfl, ?_⟩
    rw [← two_pow_classOf hn hle]
    exact (hheld buf (List.mem_of_getElem? hi)).2.1

/-- `Put` of any buffer. -/
theorem put_spec (buf : Option Buffer) : ∃ cs', put cs buf = some cs' ∧ Sound cs' := by
  cases buf with
  | none => exact ⟨cs, rfl, h⟩
  | some buf =>
    simp only [put]
    by_cases hforeign : buf.cap < 2 ^ minBits ∨ buf.cap > 2 ^ maxBits ∨
        buf.cap &&& (buf.cap - 1) ≠ 0
    · rw [if_pos hforeign]
      exact ⟨cs, rfl, h⟩
    rw [if_neg hforeign]
    simp only [not_or, not_not, Nat.not_lt] at hforeign
    obtain ⟨hmin, hmax, hand⟩ := hforeign
    have hcap := eq_two_pow_of_land (Nat.lt_of_lt_of_le (by decide) hmin) hand
    have hge : minBits ≤ buf.cap.size - 1 :=
      (Nat.pow_le_pow_iff_right (by decide)).mp (hcap ▸ hmin)
    have hle : buf.cap.size - 1 ≤ maxBits :=
      (Nat.pow_le_pow_iff_right (by decide)).mp (hcap ▸ hmax)
    obtain ⟨bufs, hbufs⟩ := h.class_mem hle
    rw [hbufs]
    refine ⟨_, rfl, h.set _ _ fun b hb => ?_⟩
    rcases List.mem_cons.mp hb with rfl | hb
    · exact ⟨rfl, hcap, hge, hle⟩
    · exact h.held _ _ hbufs b hb

theorem collect_spec (c i : ℕ) : Sound (cs.modify c (·.eraseIdx i)) := by
  refine ⟨(List.length_modify _ _ _).trans h.length, fun c' bufs heq buf hbuf => ?_⟩
  rw [List.getElem?_modify] at heq
  obtain ⟨bufs', hbufs', rfl⟩ := Option.map_eq_some_iff.mp heq
  refine h.held c' bufs' hbufs' buf ?_
  split_ifs at hbuf
  · exact List.mem_of_mem_eraseIdx hbuf
  · exact hbuf

end Sound

/-- What a step returns : an empty buffer with room for the size that was asked, of a power of two
up to the largest class. -/
def Op.Gives : Op → Option Buffer → Prop
  | .get n _, some buf => buf.b = [] ∧ n ≤ buf.cap ∧ (n ≤ 2 ^ maxBits → ∃ k, buf.cap = 2 ^ k)
  | .get _ _, none => False
  | .put _, out => out = none
  | .collect _ _, out => out = none

theorem step_spec {cs : Classes} (h : Sound cs) {op : Op} (hop : ∀ n pick, op = .get n pick → 1 ≤ n) :
    ∃ out cs', step cs op = some (out, cs') ∧ op.Gives out ∧ Sound cs' := by
  cases op with
  | get n pick =>
    obtain ⟨buf, cs', heq, hsound, hempty, hcap⟩ := get_spec h (hop n pick rfl) pick
    refine ⟨some buf, cs', by rw [step, heq, Option.map_some], ⟨hempty, ?_, fun hle => ?_⟩, hsound⟩
    · rw [hcap]
      exact le_poolCap n
    · exact ⟨_, hcap.trans (two_pow_classOf (hop n pick rfl) hle).symm⟩
  | put buf =>
    obtain ⟨cs', heq, hsound⟩ := put_spec h buf
    exact ⟨none, cs', by rw [step, heq, Option.map_some], rfl, hsound⟩
  | collect c i => exact ⟨none, _, rfl, rfl, collect_spec h c i⟩

theorem run_spec : ∀ (ops : List Op) {cs : Classes}, Sound cs →
    (∀ n pick, .get n pick ∈ ops → 1 ≤ n) →
    ∃ outs cs', run cs ops = some (outs, cs') ∧ List.Forall₂ Op.Gives ops outs ∧ Sound cs'
  | [], cs, h, _ => ⟨[], cs, rfl, .nil, h⟩
  | op :: ops, cs, h, hops => by
    obtain ⟨out, cs₁, hstep, hgives, hsound⟩ := step_spec h fun n pick heq =>
      hops n pick (heq ▸ List.mem_cons_self)
    obtain ⟨outs, cs', hrun, houts, hsound'⟩ := run_spec ops hsound fun n pick hmem =>
      hops n pick (List.mem_cons_of_mem _ hmem)
    exact ⟨out :: outs, cs', by simp [run, hstep, hrun], .cons hgives houts, hsound'⟩

/-- Whatever sizes of at least one are asked for and whatever buffers are given back, from the
pool or not : no index is out of range, every buffer in class `c` has the capacity `2 ^ c` of one of
the classes in use, and `Get` returns an empty buffer with room for the size, of a power of two up
to the largest class. -/
theorem run_sound (ops : List Op) (hops : ∀ n pick, .get n pick ∈ ops → 1 ≤ n) :
    ∃ outs cs, run classes ops = some (outs, cs) ∧ List.Forall₂ Op.Gives ops outs ∧
      ∀ c bufs, cs[c]? = some bufs → ∀ buf ∈ bufs, buf.cap = 2 ^ c ∧ 10 ≤ c ∧ c ≤ 26 := by
  obtain ⟨outs, cs, hrun, houts, hsound⟩ := run_spec ops sound_classes hops
  refine ⟨outs, cs, hrun, houts, fun c bufs hbufs buf hbuf => ?_⟩
  obtain ⟨-, hcap, hmin, hmax⟩ := hsound.held c bufs hbufs buf hbuf
  exact ⟨hcap, hmin, hmax⟩

/-- A buffer is asked for, given back after use and given out again, and one that is not from the
pool is given. -/
theorem run_sound_reuse : ∃ outs cs,
    run classes [.get 1025 none, .put (some ⟨[1, 2, 3], 2048, by decide⟩), .get 2048 (some 0),
      .put (some (make 1000))] = some (outs, cs) ∧ outs.map (·.map (·.cap)) =
        [some 2048, none, some 2048, none] := by
  obtain ⟨outs, cs, hrun, -, -⟩ := run_sound [.get 1025 none,
    .put (some ⟨[1, 2, 3], 2048, by decide⟩), .get 2048 (some 0), .put (some (make 1000))] (by
      intro n pick h
      simp at h
      omega)
  refine ⟨outs, cs, hrun, ?_⟩
  have hcaps := congrArg (Option.map fun x => x.1.map (·.map (·.cap))) hrun
  exact (Option.some.inj (hcaps.symm.trans rfl))

end Bufpool

end Ews
