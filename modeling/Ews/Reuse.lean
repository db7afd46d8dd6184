import Ews.Portions

/-!
# One decompressor for many messages

A decompressor is used for one message after the other, with any windows, in any order and not
always to the end. `Hub` is the decompressor with the windows and the identity of the one its
message uses. A message that is still in progress when the next one begins is abandoned, and its
window is cleared.

Whatever the decompressor was used for before, `Decompress` is decided by the message, the limit and
the window (`decompress_exact`) : the window as it is once an unfinished message is abandoned.
-/

set_option linter.unusedSectionVars false

namespace Ews

open Bytes

variable {F : Flate} {τ : Type}

/-- A decompressor, the window of its message, and all windows. -/
structure Hub (F : Flate) (τ : Type) where
  dec : Decompressor F := {}
  window : Option ℕ := none
  windows : ℕ → Window
  src : τ

namespace Hub

/-- The decompressor with one of the windows. -/
def view (h : Hub F τ) (w : Option ℕ) : Inflation F τ :=
  ⟨h.dec, w.map h.windows, h.src⟩

/-- What an operation with the window `w` left behind. -/
def put (h : Hub F τ) (w : Option ℕ) (x : Inflation F τ) : Hub F τ where
  dec := x.dec
  window := if x.dec.window then w else none
  windows := w.elim h.windows fun i => Function.update h.windows i (x.window.getD (h.windows i))
  src := x.src

/-- A message in progress is abandoned. -/
def abandon (h : Hub F τ) : Hub F τ :=
  if h.dec.active then h.put h.window ((h.view h.window).finish false) else h

/-- `Begin` with a source. -/
def start (h : Hub F τ) (w : Option ℕ) (src : τ) : Hub F τ :=
  let h := { h.abandon with src := src }
  h.put w (h.view w).start

/-- `Read`. -/
def read (C : ChunkSource τ) (n : ℕ) (h : Hub F τ) : (List UInt8 × Option Err) × Hub F τ :=
  let r := (h.view h.window).read C n
  (r.1, h.put h.window r.2)

/-- `Decompress`. -/
def decompress (C : ChunkSource τ) (payload : List UInt8) (maxSize : ℤ) (w : Option ℕ)
    (h : Hub F τ) : Except Err (List UInt8) × Hub F τ :=
  if maxSize < 0 then (.error .invalidLimit, h)
  else
    let h := h.abandon
    let r := (h.view w).decompress C payload maxSize
    (r.1, h.put w r.2)

/-- `Reset`. -/
def reset (h : Hub F τ) : Hub F τ :=
  h.put h.window (h.view h.window).reset

/-- `ReleaseOutput`. -/
def releaseOutput (h : Hub F τ) : Hub F τ :=
  h.put h.window (h.view h.window).releaseOutput

/-- The uses of a decompressor, and changes of windows that are made elsewhere. -/
inductive Use (τ : Type)
  | start (w : Option ℕ) (src : τ)
  | read (n : ℕ)
  | decompress (payload : List UInt8) (maxSize : ℤ) (w : Option ℕ)
  | reset
  | releaseOutput
  | change (i : ℕ) (w : Window)

def after (C : ChunkSource τ) (h : Hub F τ) : Use τ → Hub F τ
  | .start w src => h.start w src
  | .read n => (h.read C n).2
  | .decompress payload maxSize w => (h.decompress C payload maxSize w).2
  | .reset => h.reset
  | .releaseOutput => h.releaseOutput
  | .change i w => { h with windows := Function.update h.windows i w }

/-- The decompressor after the uses. -/
def uses (C : ChunkSource τ) (h : Hub F τ) (us : List (Use τ)) : Hub F τ :=
  us.foldl (after C) h

end Hub

/-! ## What every use leaves in order -/

namespace Inflation

variable {C : ChunkSource τ} {b : Bool} {x : Inflation F τ}

/-- The decompressor is in order, with a window or without. -/
structure Neat (b : Bool) (x : Inflation F τ) : Prop where
  scratch : x.dec.scratch.size = windowSize
  isSome : x.window.isSome = b
  flag : x.dec.window = true → b = true
  idle : x.dec.active = false → x.dec.window = false ∧ x.dec.input = {}

theorem Neat.finish (h : x.Neat b) (ok : Bool) : (x.finish ok).Neat b where
  scratch := h.scratch
  isSome := by
    rw [← h.isSome, Inflation.finish]
    cases x.dec.window <;> simp
  flag := fun hw => by cases hw
  idle := fun _ => ⟨rfl, rfl⟩

theorem Neat.begin (h : x.Neat b) (payload : Option (List UInt8)) : (x.begin payload).Neat b := by
  have hneat : (if x.dec.active then x.finish false else x).Neat b := by
    split_ifs
    · exact h.finish false
    · exact h
  unfold Inflation.begin
  generalize (if x.dec.active then x.finish false else x) = y at hneat ⊢
  exact ⟨hneat.scratch, hneat.isSome, fun hw => hneat.isSome.symm.trans hw, fun ha => by cases ha⟩

theorem Neat.store (h : x.Neat b) (output : List UInt8) (cap len : ℕ) :
    Neat b { x with dec := { x.dec with output := output, outCap := cap, inLen := len } } :=
  ⟨h.scratch, h.isSome, h.flag, h.idle⟩

/-- Inside a message nothing is asked of the input. -/
theorem Neat.busy (h : x.Neat b) {y : Inflation F τ} (hscratch : y.dec.scratch.size = windowSize)
    (hsome : y.window.isSome = x.window.isSome) (hflag : y.dec.window = x.dec.window)
    (hactive : y.dec.active = true) : y.Neat b where
  scratch := hscratch
  isSome := hsome.trans h.isSome
  flag := fun hw => h.flag (hflag.symm.trans hw)
  idle := fun ha => by cases hactive.symm.trans ha

theorem Neat.note (h : x.Neat b) (ha : x.dec.active = true) (p : List UInt8) :
    (x.note p).Neat b ∧ (x.note p).dec.active = true := by
  unfold Inflation.note
  split_ifs
  · exact ⟨h.busy h.scratch (by simp) rfl ha, ha⟩
  · exact ⟨h.busy (by simpa using h.scratch) rfl rfl ha, ha⟩
  · exact ⟨h, ha⟩

theorem Neat.restart (h : x.Neat b) (ha : x.dec.active = true) (p : List UInt8) :
    ((x.dict p).2.restart (x.dict p).1).Neat b ∧
      ((x.dict p).2.restart (x.dict p).1).dec.active = true := by
  unfold dict
  split_ifs
  · exact ⟨h.busy h.scratch rfl rfl ha, ha⟩
  · exact ⟨h.busy h.scratch rfl rfl ha, ha⟩
  · exact ⟨h.busy h.scratch (by simp [Inflation.restart]) rfl ha, ha⟩
  · exact ⟨h.busy h.scratch rfl rfl ha, ha⟩

theorem Neat.readAfter (h : x.Neat b) (ha : x.dec.active = true) (p : List UInt8)
    (err : Option Err) : Sum.elim (fun y : Inflation F τ => y.Neat b ∧ y.dec.active = true)
      (fun r => r.2.Neat b) (x.readAfter p err) := by
  cases err with
  | none =>
    simp only [Inflation.readAfter]
    split_ifs
    · exact h.finish false
    · exact h
  | some e =>
    simp only [Inflation.readAfter]
    split_ifs
    · exact h.finish true
    · exact h.busy h.scratch rfl rfl ha
    · exact (h.restart ha p).1
    · exact h.restart ha p
    · exact h.finish false

theorem Neat.read (h : x.Neat b) (n : ℕ) : (x.read C n).2.Neat b := by
  unfold Inflation.read
  split_ifs with hactive
  · exact h
  · exact h.finish true
  · have ha : x.dec.active = true := by simpa using hactive
    refine Loop.run_keeps (Q := fun r : (List UInt8 × Option Err) × Inflation F τ =>
      r.2.Neat b) (fun y => y.Neat b ∧ y.dec.active = true) ?_ h ⟨h, ha⟩ _
    rintro y ⟨hy, hya⟩
    have hfeed := hy.busy (y := y.withFeed (y.dec.reader.read (Feed.source C) n y.feed).2.1
      (y.dec.reader.read (Feed.source C) n y.feed).2.2) hy.scratch rfl rfl hya
    obtain ⟨hnote, hnotea⟩ := hfeed.note hya (y.dec.reader.read (Feed.source C) n y.feed).1.1
    exact hnote.readAfter hnotea _ _

theorem Neat.reserve (h : x.Neat b) (payload : List UInt8) (maxSize : ℕ) :
    (x.reserve payload maxSize).Neat b := by
  unfold Inflation.reserve
  cases x.reserveRequest payload maxSize with
  | none => exact h
  | some hint => exact h.store _ _ _

theorem Neat.growFull (h : x.Neat b) : x.growFull.Neat b := by
  unfold Inflation.growFull grow
  split_ifs
  · cases x.growRequest x.growth with
    | none => exact h
    | some size => exact h.store _ _ _
  · exact h

theorem Neat.decompressAfter (h : x.Neat b) (maxSize : ℕ) (err : Option Err) :
    Sum.elim (fun y : Inflation F τ => y.Neat b) (fun r => r.2.Neat b)
      (decompressAfter maxSize err x) := by
  unfold Inflation.decompressAfter
  split_ifs
  · exact h.finish false
  · exact h.finish true
  · cases err with
    | none => exact h
    | some e => exact h

theorem Neat.decompress (h : x.Neat b) (payload : List UInt8) (maxSize : ℤ) :
    (x.decompress C payload maxSize).2.Neat b := by
  unfold Inflation.decompress
  split_ifs with hmax
  · exact h
  · have hopen := ((h.begin (some payload)).store [] (x.begin (some payload)).dec.outCap
      (x.begin (some payload)).dec.inLen).reserve payload maxSize.toNat
    refine Loop.run_keeps (Q := fun r : Except Err (List UInt8) × Inflation F τ => r.2.Neat b)
      (fun y => y.Neat b) ?_ hopen hopen _
    intro y hy
    have hread := hy.growFull.read (C := C) (y.growFull.readSize maxSize.toNat)
    exact (hread.store _ _ _).decompressAfter _ _

end Inflation

namespace Hub

variable {C : ChunkSource τ} {s : Hub F τ}

/-- A decompressor that was not used yet. -/
def fresh (windows : ℕ → Window) (src : τ) : Hub F τ where
  windows := windows
  src := src

/-- The decompressor is in order, and it knows whether its message has a window. -/
structure Tidy (s : Hub F τ) : Prop where
  scratch : s.dec.scratch.size = windowSize
  window : s.dec.window = s.window.isSome
  idle : s.dec.active = false → s.dec.window = false ∧ s.dec.input = {}

theorem tidy_fresh (windows : ℕ → Window) (src : τ) : (fresh windows src : Hub F τ).Tidy :=
  ⟨rfl, rfl, fun _ => ⟨rfl, rfl⟩⟩

theorem tidy_put (s : Hub F τ) {w : Option ℕ} {x : Inflation F τ} (h : x.Neat w.isSome) :
    (s.put w x).Tidy := by
  refine ⟨h.scratch, ?_, h.idle⟩
  unfold put
  cases hw : x.dec.window with
  | false => rfl
  | true => exact (h.flag hw).symm

/-- The message in progress has its own window. -/
theorem Tidy.own (h : s.Tidy) : (s.view s.window).Neat s.window.isSome :=
  ⟨h.scratch, Option.isSome_map, fun hw => h.window.symm.trans hw, h.idle⟩

/-- The next message may have any. -/
theorem Tidy.any (h : s.Tidy) (ha : s.dec.active = false) (w : Option ℕ) :
    (s.view w).Neat w.isSome :=
  ⟨h.scratch, Option.isSome_map, fun hw => absurd ((h.idle ha).1.symm.trans hw) (by decide), h.idle⟩

theorem Tidy.view_idle (h : s.Tidy) (ha : s.dec.active = false) (w : Option ℕ) :
    (s.view w).dec.Idle :=
  ⟨ha, (h.idle ha).1, h.scratch⟩

theorem abandon_of_idle (ha : s.dec.active = false) : s.abandon = s := by
  simp [abandon, ha]

theorem active_abandon (s : Hub F τ) : s.abandon.dec.active = false := by
  unfold abandon
  split_ifs with ha
  · rfl
  · simpa using ha

theorem Tidy.abandon (h : s.Tidy) : s.abandon.Tidy := by
  unfold Hub.abandon
  split_ifs
  · exact tidy_put s (h.own.finish false)
  · exact h

theorem Tidy.after (h : s.Tidy) (u : Use τ) : (s.after C u).Tidy := by
  have habandon := h.abandon
  cases u with
  | start w src =>
    have hsrc : ({ s.abandon with src := src } : Hub F τ).Tidy :=
      ⟨habandon.scratch, habandon.window, habandon.idle⟩
    exact tidy_put _ ((hsrc.any (active_abandon s) w).begin none)
  | read n => exact tidy_put _ (h.own.read n)
  | decompress payload maxSize w =>
    simp only [Hub.after, Hub.decompress]
    split_ifs
    · exact h
    · exact tidy_put _ ((habandon.any (active_abandon s) w).decompress payload maxSize)
  | reset => exact tidy_put _ ((h.own.finish false).store [] _ _)
  | releaseOutput => exact tidy_put _ ((h.own.finish false).store [] _ _)
  | change i w => exact ⟨h.scratch, h.window, h.idle⟩

theorem Tidy.uses (h : s.Tidy) (us : List (Use τ)) : (s.uses C us).Tidy := by
  induction us generalizing s with
  | nil => exact h
  | cons u us ih => exact ih (h.after u)

/-! ## The window of a message -/

/-- The history of a window, once a message that is in progress is abandoned. -/
def old (s : Hub F τ) (i : ℕ) : List UInt8 :=
  if s.dec.active = true ∧ s.window = some i then [] else (s.windows i).dict

/-- What the payload means to a message with the window `w`. -/
def message (s : Hub F τ) (payload : List UInt8) : Option ℕ → Option (List UInt8)
  | none => F.inflate windowSize [] payload
  | some i => F.inflate (s.windows i).size (s.old i) payload

theorem windows_put_some (s : Hub F τ) (i : ℕ) {x : Inflation F τ} {w : Window}
    (h : x.window = some w) : (s.put (some i) x).windows i = w := by
  simp [put, h]

theorem Tidy.windows_abandon (h : s.Tidy) (i : ℕ) :
    (s.abandon.windows i).dict = s.old i ∧ (s.abandon.windows i).size = (s.windows i).size := by
  unfold Hub.abandon old
  by_cases ha : s.dec.active = true
  · rw [if_pos ha]
    by_cases hw : s.window = some i
    · have hflag : s.dec.window = true := by rw [h.window, hw, Option.isSome_some]
      have hfinish : ((s.view (some i)).finish false).window = some (s.windows i).reset := by
        simp [Inflation.finish, view, hflag]
      rw [if_pos ⟨ha, hw⟩, hw, windows_put_some s i hfinish]
      exact ⟨Window.dict_reset _, Window.size_reset _⟩
    · rw [if_neg fun hc => hw hc.2]
      have hsame : (s.put s.window ((s.view s.window).finish false)).windows i = s.windows i := by
        unfold put
        cases hj : s.window with
        | none => rfl
        | some j =>
          have hij : i ≠ j := fun hij => hw (by rw [hj, hij])
          exact Function.update_of_ne hij _ _
      rw [hsame]
      exact ⟨rfl, rfl⟩
  · rw [if_neg ha, if_neg fun hc => ha hc.1]
    exact ⟨rfl, rfl⟩

/-! ## `Decompress` after any use -/

theorem decompress_eq (s : Hub F τ) (payload : List UInt8) (maxSize : ℕ) (w : Option ℕ) :
    s.decompress C payload maxSize w =
      (((s.abandon.view w).decompress C payload maxSize).1,
        s.abandon.put w ((s.abandon.view w).decompress C payload maxSize).2) := by
  rw [decompress, if_neg (by omega)]

/-- What the decompressor was used for before does not show. -/
theorem Tidy.decompress_fresh (h : s.Tidy) (ha : s.dec.active = false) (payload : List UInt8)
    (maxSize : ℤ) (w : Option ℕ) :
    (s.decompress C payload maxSize w).1 =
        ((fresh s.windows s.src : Hub F τ).decompress C payload maxSize w).1 ∧
      (s.decompress C payload maxSize w).2.windows =
        ((fresh s.windows s.src : Hub F τ).decompress C payload maxSize w).2.windows := by
  have hshown := Inflation.decompress_shown (C := C) (h.view_idle ha w)
    ((tidy_fresh s.windows s.src : (fresh s.windows s.src : Hub F τ).Tidy).view_idle rfl w)
    rfl rfl (h.idle ha).2 payload maxSize
  obtain ⟨hres, hwindow⟩ := Prod.mk.inj hshown
  unfold decompress
  rw [abandon_of_idle ha, abandon_of_idle (s := fresh s.windows s.src) rfl]
  split_ifs
  · exact ⟨rfl, rfl⟩
  · refine ⟨hres, ?_⟩
    simp only [put, hwindow]
    rfl

/-- `Decompress` of a message with the limit `maxSize` and the window `w`. -/
structure Exact (C : ChunkSource τ) (payload : List UInt8) (maxSize : ℕ) (w : Option ℕ)
    (s : Hub F τ) : Prop where
  terminates : Inflation.Terminates C (s.abandon.view w) payload maxSize
  full : ∀ out, (s.decompress C payload maxSize w).1 = .ok out ↔
    s.message payload w = some out ∧ out.length ≤ maxSize
  tooLarge : ∀ out, s.message payload w = some out → maxSize < out.length →
    (s.decompress C payload maxSize w).1 = .error .inflateTooLarge
  history : ∀ i out, w = some i → (s.decompress C payload maxSize w).1 = .ok out →
    ((s.decompress C payload maxSize w).2.windows i).dict =
      lastN (s.windows i).size (s.old i ++ out)
  cleared : ∀ i e, w = some i → (s.decompress C payload maxSize w).1 = .error e →
    ((s.decompress C payload maxSize w).2.windows i).dict = []
  next : ∀ (payload' : List UInt8) (maxSize' : ℤ) (w' : Option ℕ),
    ((s.decompress C payload maxSize w).2.decompress C payload' maxSize' w').1 =
        ((fresh (s.decompress C payload maxSize w).2.windows
          (s.decompress C payload maxSize w).2.src : Hub F τ).decompress C payload' maxSize' w').1 ∧
      ((s.decompress C payload maxSize w).2.decompress C payload' maxSize' w').2.windows =
        ((fresh (s.decompress C payload maxSize w).2.windows
          (s.decompress C payload maxSize w).2.src : Hub F τ).decompress C payload' maxSize'
            w').2.windows

theorem Tidy.message_abandon (h : s.Tidy) (payload : List UInt8) (w : Option ℕ) :
    F.inflate (s.abandon.view w).size (Window.dictOf (s.abandon.view w).window) payload =
      s.message payload w := by
  cases w with
  | none => rfl
  | some i =>
    obtain ⟨hdict, hsize⟩ := h.windows_abandon i
    rw [message, ← hdict, ← hsize]
    rfl

/-- The history that a message leaves in its window. -/
theorem over_put {i n : ℕ} {x : Inflation F τ} {dict : List UInt8} (s : Hub F τ)
    (h : x.Over n dict true) : ((s.put (some i) x).windows i).dict = dict := by
  obtain ⟨w, hw⟩ := Option.isSome_iff_exists.mp h.window
  rw [windows_put_some s i hw]
  exact h.dict w hw

theorem Tidy.decompressed (h : s.Tidy) (payload : List UInt8) (maxSize : ℕ) (w : Option ℕ) :
    ∃ r, s.decompress C payload maxSize w = (r.1, s.abandon.put w r.2) ∧
      Inflation.Decompressed (Window.dictOf (s.abandon.view w).window) (s.message payload w) maxSize
        (s.abandon.view w).size w.isSome r := by
  have hspec := Inflation.decompress_spec (C := C) (h.abandon.view_idle (active_abandon s) w) payload
    (Int.natCast_nonneg maxSize)
  have hsome : (s.abandon.view w).window.isSome = w.isSome := Option.isSome_map
  rw [h.message_abandon, Int.toNat_natCast, hsome] at hspec
  exact ⟨_, decompress_eq s payload maxSize w, hspec⟩

/-- After a `Decompress` no message is in progress. -/
theorem Tidy.active_decompress (h : s.Tidy) (payload : List UInt8) (maxSize : ℕ) (w : Option ℕ) :
    (s.decompress C payload maxSize w).2.dec.active = false := by
  obtain ⟨r, hr, hspec⟩ := h.decompressed (C := C) payload maxSize w
  rw [hr]
  cases hspec with
  | ok means length hover => exact hover.active
  | tooLarge means hover => exact hover.active
  | fail fault means hover => exact hover.active

theorem Tidy.exact (h : s.Tidy) (payload : List UInt8) (maxSize : ℕ) (w : Option ℕ) :
    s.Exact C payload maxSize w := by
  have hterm := Inflation.decompress_terminates (C := C)
    (h.abandon.view_idle (active_abandon s) w) payload maxSize
  have htidy : (s.decompress C payload maxSize w).2.Tidy := h.after (.decompress payload maxSize w)
  have hnext := htidy.decompress_fresh (C := C) (h.active_decompress payload maxSize w)
  obtain ⟨r, hr, hspec⟩ := h.decompressed (C := C) payload maxSize w
  cases hspec with
  | @ok out x means length hover =>
    refine ⟨hterm, fun out' => ?_, fun out' hout hlong => ?_, fun i out' hw hok => ?_,
      fun i e hw he => ?_, hnext⟩
    · rw [hr, means]
      constructor
      · rintro ⟨⟩
        exact ⟨rfl, length⟩
      · rintro ⟨⟨⟩, -⟩
        rfl
    · cases means.symm.trans hout
      omega
    · subst hw
      obtain ⟨hdict, hsize⟩ := h.windows_abandon i
      rw [hr] at hok ⊢
      cases hok
      rw [over_put s.abandon hover, ← hdict, ← hsize]
      rfl
    · rw [hr] at he
      cases he
  | @tooLarge x means hover =>
    refine ⟨hterm, fun out => ?_, fun out hout hlong => by rw [hr], fun i out hw hok => ?_,
      fun i e hw he => ?_, hnext⟩
    · rw [hr]
      refine ⟨fun hok => (by cases hok), fun hout => ?_⟩
      have := means out hout.1
      omega
    · rw [hr] at hok
      cases hok
    · subst hw
      rw [hr]
      exact over_put s.abandon hover
  | @fail e x fault means hover =>
    refine ⟨hterm, fun out => ?_, fun out hout hlong => ?_, fun i out hw hok => ?_,
      fun i e hw he => ?_, hnext⟩
    · rw [hr, means]
      exact ⟨fun hok => (by cases hok), fun hout => (by cases hout.1)⟩
    · cases means.symm.trans hout
    · rw [hr] at hok
      cases hok
    · subst hw
      rw [hr]
      exact over_put s.abandon hover

/-- `Decompress` enforces its limit exactly and fails cleanly, whatever the decompressor was used for
before. -/
theorem decompress_exact (windows : ℕ → Window) (src : τ) (us : List (Use τ))
    (payload : List UInt8) (maxSize : ℕ) (w : Option ℕ) :
    ((fresh windows src : Hub F τ).uses C us).Exact C payload maxSize w :=
  ((tidy_fresh windows src).uses us).exact payload maxSize w

/-- An unfinished message takes what its window held with it. -/
theorem Tidy.forgets (h : s.Tidy) (ha : s.dec.active = true) {i : ℕ} (hw : s.window = some i)
    {payload : List UInt8} (hout : s.message payload (some i) = some []) :
    (s.decompress C payload 0 (some i)).1 = .ok [] ∧
      ((s.decompress C payload 0 (some i)).2.windows i).dict = [] := by
  have hexact := h.exact (C := C) payload 0 (some i)
  have hok := (hexact.full []).mpr ⟨hout, le_rfl⟩
  have hdict := hexact.history i [] rfl hok
  rw [old, if_pos ⟨ha, hw⟩, List.append_nil, lastN_nil] at hdict
  exact ⟨hok, hdict⟩

/-- The window that holds `1`. -/
def one : Window where
  buf := [1]
  cap := 1

/-- A message with the window is left unfinished, and the next one has the same window : what the
window held is gone. -/
theorem decompress_abandons :
    let s := (fresh (fun _ => one) [] : Hub Flate.stored (List (List UInt8))).uses .ofChunks
      [.start (some 0) []]
    (s.windows 0).dict = [1] ∧ (s.decompress .ofChunks [0] 0 (some 0)).1 = .ok [] ∧
      ((s.decompress .ofChunks [0] 0 (some 0)).2.windows 0).dict = [] := by
  intro s
  have htidy : s.Tidy := (tidy_fresh (fun _ => one) []).uses [.start (some 0) []]
  exact ⟨by decide, htidy.forgets (by decide) (by decide) (by decide)⟩

end Hub

end Ews
