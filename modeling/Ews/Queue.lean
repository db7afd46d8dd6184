import Ews.WriteSide

/-!
# The queue

`ws/queue.go`, one definition for each section under the queue's lock and one for the writes
of a flush. Frames wait as segments, each a range of an arena or the bytes of a prepared
message. The writer takes the arena and the segments as they are, so a producer goes on with
new ones.

`Queue.Holds` ties the segments to the frames they stand for.
-/

set_option linter.unusedSectionVars false

namespace Ews

/-- `arena`. `cap` is the capacity of its storage, and `large` says whether that is of a size
class. -/
structure Arena where
  b : List UInt8 := []
  cap : ℕ := 0
  large : Bool := false
  deriving DecidableEq, Repr

/-- `segment`. -/
structure Segment where
  start : ℕ := 0
  stop : ℕ := 0
  ext : Option (List UInt8) := none
  deriving DecidableEq, Repr

/-- The bytes of a segment, those of the arena if it has none of its own. -/
def Segment.bytes (s : Segment) (a : Option Arena) : List UInt8 :=
  match s.ext with
  | some frame => frame
  | none => (((a.map Arena.b).getD []).take s.stop).drop s.start

/-- `Queue`. `fresh` is the capacity of the arenas of the pool, `alloc` the capacity the runtime
gives to an append that needs room. -/
structure Queue where
  limit : ℤ
  fresh : ℕ → ℕ := fun _ => 4096
  alloc : ℕ → ℕ := id
  arenas : ℕ := 0
  cur : Option Arena := none
  segments : List Segment := []
  size : ℤ := 0
  running : Bool := false
  err : Option Err := none
  /-- `enqueued` and `written` are words of 64 bits in the code, and these numbers as long as fewer
  than `2 ^ 64` frames were queued. -/
  enqueued : ℕ := 0
  written : ℕ := 0
  flushing : Option Arena := none
  flushSegments : List Segment := []

/-- `NewQueue` on a connection without a queue. -/
def newQueue (limit : ℤ) : Queue :=
  { limit := if limit ≤ 0 then 2 ^ 20 else limit }

namespace Queue

/-- `NewQueue` on a connection that has the queue. -/
def adjust (q : Queue) (limit : ℤ) : Queue :=
  if limit > 0 then { q with limit := limit } else q

/-- `reserve`. -/
def reserve (q : Queue) (n : ℕ) : Option Err :=
  match q.err with
  | some e => some e
  | none => if q.size ≠ 0 ∧ q.size + n > q.limit then some .queueFull else none

/-- The arena that frames are copied into. -/
def arena (q : Queue) : Arena :=
  q.cur.getD { cap := q.fresh q.arenas }

/-- The arena with room for `n` bytes more : past `poolKeep` in storage of a size class. -/
def room (q : Queue) (a : Arena) (n : ℕ) : Arena :=
  if a.b.length + n > a.cap ∧ a.b.length + n > poolKeep then
    { b := [] ++ a.b, cap := poolCap (a.b.length + n), large := true }
  else if a.b.length + n > a.cap then { a with cap := q.alloc (a.b.length + n) }
  else a

/-- The part of `enqueue` that stores the frame. -/
def store (q : Queue) (out : Outgoing) : Queue :=
  match out.ext with
  | some frame => { q with segments := q.segments ++ [{ ext := some frame }] }
  | none =>
    let a := q.room q.arena (out.header.length + out.body.length)
    let b := a.b ++ out.header ++ out.body
    { q with
      arenas := if q.cur.isNone then q.arenas + 1 else q.arenas
      cur := some { a with b := b }
      segments := q.segments ++ [{ start := q.arena.b.length, stop := b.length }] }

/-- `enqueue` : the sequence number of the frame, and whether a writer is started for it. -/
def enqueue (q : Queue) (out : Outgoing) : Except Err (ℕ × Bool) × Queue :=
  match q.err with
  | some e => (.error e, q)
  | none =>
    (.ok (q.enqueued + 1, !q.running), { q.store out with
      size := q.size + out.bytes.length
      enqueued := q.enqueued + 1
      running := true })

/-- The head of the loop of `run` : the writer takes what is queued, or it exits. -/
def take (q : Queue) : Option Queue :=
  if q.segments.length = 0 ∨ q.err ≠ none then none
  else
    some { q with
      cur := none
      flushing := q.cur
      segments := []
      flushSegments := q.segments
      size := 0 }

/-- The exit of `run`. -/
def exit (q : Queue) : Queue :=
  { q with running := false }

/-- The writes of the transport that `flush` makes. -/
def flushCalls (q : Queue) (vectored : Bool) : List (List UInt8) :=
  let frames := q.flushSegments.map fun s => s.bytes q.flushing
  if q.flushSegments.length = 1 then frames
  else if vectored then frames
  else [frames.flatten]

/-- The end of a round of `run`, after the flush gave `err`. -/
def account (q : Queue) (err : Option Err) : Queue :=
  let q := { q with
    flushSegments := q.flushSegments.map fun _ => {}
    written := q.written + q.flushSegments.length
    flushing := none }
  match err with
  | none => q
  | some e => { q with err := some e, segments := [], size := 0, running := false }

/-- The condition under which `waitLocked` returns, and what it returns. -/
def waited (q : Queue) (seq : ℕ) : Option (Option Err) :=
  if q.written < seq ∧ q.err = none then none else some q.err

/-! ## Segments and frames -/

theorem flatten_flushCalls (q : Queue) (vectored : Bool) : (q.flushCalls vectored).flatten =
    (q.flushSegments.map fun s => s.bytes q.flushing).flatten := by
  unfold flushCalls
  dsimp only
  split_ifs <;> simp

/-- The segments stand for the frames `fs` : each range lies in the arena and holds its
frame. -/
def Holds (a : Option Arena) (segments : List Segment) (fs : List (List UInt8)) : Prop :=
  segments.map (fun s => s.bytes a) = fs ∧
    ∀ s ∈ segments, s.ext = none → s.stop ≤ ((a.map Arena.b).getD []).length

theorem Holds.length {a : Option Arena} {segments : List Segment} {fs : List (List UInt8)}
    (h : Holds a segments fs) : segments.length = fs.length := by
  rw [← h.1, List.length_map]

/-- A longer arena holds the same frames. -/
theorem Holds.extend {a a' : Option Arena} {segments : List Segment} {fs : List (List UInt8)}
    (h : Holds a segments fs) {m : List UInt8}
    (ha : (a'.map Arena.b).getD [] = (a.map Arena.b).getD [] ++ m) :
    Holds a' segments fs := by
  refine ⟨h.1 ▸ List.map_congr_left fun s hs => ?_, fun s hs he => ?_⟩
  · unfold Segment.bytes
    cases he : s.ext with
    | some frame => rfl
    | none =>
      dsimp only
      rw [ha, List.take_append_of_le_length (h.2 s hs he)]
  · rw [ha, List.length_append]
    exact Nat.le_add_right_of_le (h.2 s hs he)

theorem Holds.append {a : Option Arena} {segments : List Segment} {fs : List (List UInt8)}
    (h : Holds a segments fs) {s : Segment} {f : List UInt8} (hf : s.bytes a = f)
    (hs : s.ext = none → s.stop ≤ ((a.map Arena.b).getD []).length) :
    Holds a (segments ++ [s]) (fs ++ [f]) := by
  refine ⟨by rw [List.map_append, h.1, List.map_singleton, hf], fun s' hs' => ?_⟩
  rcases List.mem_append.mp hs' with hm | hm
  · exact h.2 s' hm
  · rw [List.mem_singleton.mp hm]
    exact hs

theorem b_room (q : Queue) (a : Arena) (n : ℕ) : (q.room a n).b = a.b := by
  unfold room
  split_ifs <;> rfl

theorem b_arena (q : Queue) : q.arena.b = (q.cur.map Arena.b).getD [] := by
  unfold arena
  cases q.cur <;> rfl

/-- A stored frame is one more, and those before it are where they were. -/
theorem Holds.store {q : Queue} {fs : List (List UInt8)} (h : Holds q.cur q.segments fs)
    (out : Outgoing) :
    Holds (q.store out).cur (q.store out).segments (fs ++ [out.bytes]) := by
  unfold Queue.store
  cases hext : out.ext with
  | some frame =>
    refine h.append ?_ fun he => absurd he (by simp)
    simp [Segment.bytes, Outgoing.bytes, hext]
  | none =>
    have hb : (q.room q.arena (out.header.length + out.body.length)).b ++ out.header ++ out.body =
        (q.cur.map Arena.b).getD [] ++ out.bytes := by
      rw [b_room, b_arena, Outgoing.bytes, hext, List.append_assoc]
      rfl
    dsimp only
    refine (h.extend (m := out.bytes) ?_).append ?_ fun _ => ?_
    · simp only [Option.map_some, Option.getD_some]
      exact hb
    · simp only [Segment.bytes, Option.map_some, Option.getD_some, List.take_length]
      rw [hb, b_arena, List.drop_left]
    · simp

/-- What `enqueue` leaves alone, and what it counts. -/
structure Enqueues (q : Queue) (out : Outgoing) (q' : Queue) : Prop where
  err : q'.err = none
  running : q'.running = true
  enqueued : q'.enqueued = q.enqueued + 1
  written : q'.written = q.written
  flushing : q'.flushing = q.flushing
  flushSegments : q'.flushSegments = q.flushSegments
  holds : ∀ {fs : List (List UInt8)}, Holds q.cur q.segments fs →
    Holds q'.cur q'.segments (fs ++ [out.bytes])

theorem enqueue_spec {q : Queue} (h : q.err = none) (out : Outgoing) :
    Enqueues q out (q.enqueue out).2 := by
  have hfixed : (q.store out).err = q.err ∧ (q.store out).written = q.written ∧
      (q.store out).flushing = q.flushing ∧ (q.store out).flushSegments = q.flushSegments := by
    unfold store
    cases out.ext <;> exact ⟨rfl, rfl, rfl, rfl⟩
  obtain ⟨herr, hwritten, hflushing, hsegments⟩ := hfixed
  simp only [enqueue, h]
  exact ⟨herr.trans h, rfl, rfl, hwritten, hflushing, hsegments, fun hs => hs.store out⟩

theorem take_none {q : Queue} (herr : q.err = none) (h : q.take = none) : q.segments = [] := by
  unfold take at h
  split_ifs at h with hempty
  simpa [herr] using hempty

theorem take_some {q q' : Queue} (h : q.take = some q') :
    q.segments ≠ [] ∧ q' = { q with
      cur := none, flushing := q.cur, segments := [], flushSegments := q.segments, size := 0 } := by
  unfold take at h
  split_ifs at h with hempty
  exact ⟨fun hnil => hempty (Or.inl (by rw [hnil]; rfl)), (Option.some.inj h).symm⟩

end Queue

end Ews
