import Ews.Encoding
import Ews.Queue

/-!
# A connection shared by goroutines

The write side of `ws.Conn` and its queue as a system of steps. A step is what a goroutine does
between two points where another can come in : an operation under `wmu` up to its frame,
`enqueue`, the taking of `iomu`, one write of the transport, the giving back of the locks, and
the three parts of a round of `Queue.run`. `Shared.step` is executable ; `Shared.run` takes the
steps of a list, in any order they can be taken.

A write of the transport may accept only the first bytes of what it is given and fail.

The state carries a record of the run : who wrote what to the transport (`Burst`), what was
encoded for the queue, what was enqueued and what of it was accounted for.
-/

set_option linter.unusedSectionVars false

namespace Ews

/-- What one holder of `iomu` writes, and how far it has come. -/
structure Burst where
  queued : Bool
  items : List Item
  accepted : List UInt8 := []
  err : Option Err := none
  deriving DecidableEq

/-- A holder of `wmu` that has encoded a frame. `calls` are the writes left to it once it has
`iomu` too. -/
structure Held where
  out : Outgoing
  queued : Bool
  calls : Option (List (List UInt8)) := none

/-- Where a writer goroutine is in `run`. -/
inductive Writer
  | ready
  | taken (batch : List Item)
  | flushing (batch : List Item) (calls : List (List UInt8))
  | flushed (batch : List Item) (err : Option Err)

/-- The frames a writer has taken and not accounted for. -/
def Writer.batch : Writer → List Item
  | .ready => []
  | .taken batch => batch
  | .flushing batch _ => batch
  | .flushed batch _ => batch

/-- The frames a writer has taken and not begun to write. -/
def Writer.unsent : Writer → List Item
  | .taken batch => batch
  | _ => []

/-- The connection. `queue`, `wmu` and `iomu` are the code's, a lock that is held with what its
holder is about. -/
structure Shared where
  conn : WriteSide
  queue : Option Queue := none
  wmu : Option Held := none
  iomu : Option Burst := none
  writers : List Writer := []
  past : List Burst := []
  encoded : List Item := []
  waiting : List Item := []
  enqueued : List Item := []
  settled : List Item := []

/-- What a write of the transport does : `none` accepts, `some (n, e)` accepts at most `n`
bytes and fails with `e`. -/
abbrev Fault := Option (ℕ × Err)

/-- A step. The argument of the steps of a writer is its place among the writers. -/
inductive Act
  | newQueue (limit : ℤ)
  | start (o : Op)
  | enqueue
  | lock
  | write (fault : Fault)
  | unlock
  | take (i : ℕ)
  | lockFlush (i : ℕ)
  | flush (i : ℕ) (fault : Fault)
  | unlockFlush (i : ℕ)
  | account (i : ℕ)

/-- The step meets no fault of the transport. -/
def Act.calm : Act → Bool
  | .write fault => fault.isNone
  | .flush _ fault => fault.isNone
  | _ => true

/-- The operation is one of the queue. -/
def Op.ofQueue : Op → Bool
  | .send _ _ => true
  | .sendPrepared _ => true
  | _ => false

/-- The operation hands its frame to the queue, if there is one. -/
def Op.joins : Op → Bool
  | .ping _ => false
  | .pong _ => false
  | .sendClose _ => false
  | _ => true

/-- A write of `b`. -/
def Burst.pass (burst : Burst) (b : List UInt8) : Fault → Burst
  | none => { burst with accepted := burst.accepted ++ b }
  | some (n, e) => { burst with accepted := burst.accepted ++ b.take n, err := some e }

/-- The writes left after a write : none if it failed. -/
def left (calls : List (List UInt8)) : Fault → List (List UInt8)
  | none => calls
  | some _ => []

namespace Shared

/-- `NewQueue`. -/
def newQueue (s : Shared) (limit : ℤ) : Option Shared :=
  if s.wmu.isSome then none
  else
    match s.queue with
    | none => some { s with queue := some (Ews.newQueue limit) }
    | some q => some { s with queue := some (q.adjust limit) }

/-- An operation takes `wmu` and encodes. -/
def start (D : Deflater) (s : Shared) (o : Op) : Option Shared :=
  if s.wmu.isSome || (o.ofQueue && s.queue.isNone) then none
  else
    match s.conn.start D (fun n => s.queue.bind (·.reserve n)) o with
    | (.ok (some out), c) =>
      let queued := o.joins && s.queue.isSome
      some { s with
        conn := c
        wmu := some { out := out, queued := queued }
        encoded := if queued then s.encoded ++ [out.item] else s.encoded }
    | (_, c) => some { s with conn := c }

/-- The encoded frame joins the queue, which may start a writer, and `wmu` is given back. -/
def enqueue (s : Shared) : Option Shared :=
  match s.wmu, s.queue with
  | some h, some q =>
    if h.queued then
      match q.enqueue h.out with
      | (.error e, q) =>
        some { s with conn := s.conn.finish h.out.after (some e), queue := some q, wmu := none }
      | (.ok (_, started), q) =>
        some { s with
          conn := s.conn.finish h.out.after none
          queue := some q
          wmu := none
          writers := if started then s.writers ++ [.ready] else s.writers
          waiting := s.waiting ++ [h.out.item]
          enqueued := s.enqueued ++ [h.out.item] }
    else none
  | _, _ => none

/-- The holder of `wmu` that writes itself takes `iomu`. -/
def lock (s : Shared) : Option Shared :=
  match s.wmu, s.iomu with
  | some h, none =>
    if h.queued then none
    else
      some { s with
        wmu := some { h with calls := some (h.out.calls s.conn.vectored) }
        iomu := some { queued := false, items := [h.out.item] } }
  | _, _ => none

/-- It writes. -/
def write (s : Shared) (fault : Fault) : Option Shared :=
  match s.wmu, s.iomu with
  | some h, some burst =>
    match h.calls with
    | some (b :: calls) =>
      some { s with
        wmu := some { h with calls := some (left calls fault) }
        iomu := some (burst.pass b fault) }
    | _ => none
  | _, _ => none

/-- It gives both locks back. -/
def unlock (s : Shared) : Option Shared :=
  match s.wmu, s.iomu with
  | some h, some burst =>
    if h.calls = some [] then
      some { s with
        conn := s.conn.finish h.out.after burst.err
        wmu := none
        iomu := none
        past := s.past ++ [burst] }
    else none
  | _, _ => none

/-- A writer takes what is queued, or exits. -/
def take (s : Shared) (i : ℕ) : Option Shared :=
  match s.writers[i]?, s.queue with
  | some .ready, some q =>
    match q.take with
    | none => some { s with queue := some q.exit, writers := s.writers.eraseIdx i }
    | some q =>
      some { s with
        queue := some q
        writers := s.writers.set i (.taken s.waiting)
        waiting := [] }
  | _, _ => none

/-- `flush` takes `iomu`. -/
def lockFlush (s : Shared) (i : ℕ) : Option Shared :=
  match s.writers[i]?, s.queue, s.iomu with
  | some (.taken batch), some q, none =>
    some { s with
      writers := s.writers.set i (.flushing batch (q.flushCalls s.conn.vectored))
      iomu := some { queued := true, items := batch } }
  | _, _, _ => none

/-- `flush` writes. -/
def flush (s : Shared) (i : ℕ) (fault : Fault) : Option Shared :=
  match s.writers[i]?, s.iomu with
  | some (.flushing batch (b :: calls)), some burst =>
    some { s with
      writers := s.writers.set i (.flushing batch (left calls fault))
      iomu := some (burst.pass b fault) }
  | _, _ => none

/-- `flush` returns. -/
def unlockFlush (s : Shared) (i : ℕ) : Option Shared :=
  match s.writers[i]?, s.iomu with
  | some (.flushing batch []), some burst =>
    some { s with
      writers := s.writers.set i (.flushed batch burst.err)
      iomu := none
      past := s.past ++ [burst] }
  | _, _ => none

/-- The end of a round : after a failure the writer exits and what is queued is dropped. -/
def account (s : Shared) (i : ℕ) : Option Shared :=
  match s.writers[i]?, s.queue with
  | some (.flushed batch none), some q =>
    some { s with
      queue := some (q.account none)
      writers := s.writers.set i .ready
      settled := s.settled ++ batch }
  | some (.flushed _ (some e)), some q =>
    some { s with
      queue := some (q.account (some e))
      writers := s.writers.eraseIdx i
      waiting := [] }
  | _, _ => none

/-- One step, if it can be taken. -/
def step (D : Deflater) (s : Shared) : Act → Option Shared
  | .newQueue limit => s.newQueue limit
  | .start o => s.start D o
  | .enqueue => s.enqueue
  | .lock => s.lock
  | .write fault => s.write fault
  | .unlock => s.unlock
  | .take i => s.take i
  | .lockFlush i => s.lockFlush i
  | .flush i fault => s.flush i fault
  | .unlockFlush i => s.unlockFlush i
  | .account i => s.account i

/-- The steps of a run. -/
def run (D : Deflater) (s : Shared) : List Act → Option Shared
  | [] => some s
  | a :: acts => (s.step D a).bind fun s => s.run D acts

/-- The bursts of the run, the one under way last. -/
def bursts (s : Shared) : List Burst :=
  s.past ++ s.iomu.toList

/-- The bytes the transport has accepted. -/
def accepted (s : Shared) : List UInt8 :=
  s.bursts.flatMap Burst.accepted

/-- The frames taken by a writer or queued that nobody has begun to write. -/
def backlog (s : Shared) : List Item :=
  s.writers.flatMap Writer.unsent ++ s.waiting

/-! ## What a step can do -/

/-- The steps and their outcomes, with what they need. -/
inductive Step (D : Deflater) (s : Shared) : Act → Shared → Prop
  | attach {limit : ℤ} (wmu : s.wmu = none) (queue : s.queue = none) :
      Step D s (.newQueue limit) { s with queue := some (Ews.newQueue limit) }
  | adjust {limit : ℤ} {q : Queue} (wmu : s.wmu = none) (queue : s.queue = some q) :
      Step D s (.newQueue limit) { s with queue := some (q.adjust limit) }
  | idle {o : Op} {r : Except Err (Option Outgoing)} {c : WriteSide} (wmu : s.wmu = none)
      (start : s.conn.start D (fun n => s.queue.bind (·.reserve n)) o = (r, c))
      (silent : ∀ out, r ≠ .ok (some out)) : Step D s (.start o) { s with conn := c }
  | encode {o : Op} {out : Outgoing} {c : WriteSide} (wmu : s.wmu = none)
      (start : s.conn.start D (fun n => s.queue.bind (·.reserve n)) o = (.ok (some out), c)) :
      Step D s (.start o) { s with
        conn := c,
        wmu := some { out := out, queued := o.joins && s.queue.isSome },
        encoded := if o.joins && s.queue.isSome then s.encoded ++ [out.item] else s.encoded }
  | refuse {h : Held} {q : Queue} {e : Err} (wmu : s.wmu = some h) (queue : s.queue = some q)
      (queued : h.queued = true) (err : q.err = some e) :
      Step D s .enqueue { s with
        conn := s.conn.finish h.out.after (some e), queue := some q, wmu := none }
  | join {h : Held} {q : Queue} (wmu : s.wmu = some h) (queue : s.queue = some q)
      (queued : h.queued = true) (err : q.err = none) :
      Step D s .enqueue { s with
        conn := s.conn.finish h.out.after none,
        queue := some (q.enqueue h.out).2,
        wmu := none,
        writers := if q.running then s.writers else s.writers ++ [.ready],
        waiting := s.waiting ++ [h.out.item],
        enqueued := s.enqueued ++ [h.out.item] }
  | lock {h : Held} (wmu : s.wmu = some h) (iomu : s.iomu = none) (queued : h.queued = false) :
      Step D s .lock { s with
        wmu := some { h with calls := some (h.out.calls s.conn.vectored) },
        iomu := some { queued := false, items := [h.out.item] } }
  | write {h : Held} {burst : Burst} {b : List UInt8} {calls : List (List UInt8)} {fault : Fault}
      (wmu : s.wmu = some h) (iomu : s.iomu = some burst) (left : h.calls = some (b :: calls)) :
      Step D s (.write fault) { s with
        wmu := some { h with calls := some (Ews.left calls fault) },
        iomu := some (burst.pass b fault) }
  | unlock {h : Held} {burst : Burst} (wmu : s.wmu = some h) (iomu : s.iomu = some burst)
      (left : h.calls = some []) :
      Step D s .unlock { s with
        conn := s.conn.finish h.out.after burst.err, wmu := none, iomu := none,
        past := s.past ++ [burst] }
  | exit {i : ℕ} {q : Queue} (writer : s.writers[i]? = some .ready) (queue : s.queue = some q)
      (empty : q.take = none) :
      Step D s (.take i) { s with queue := some q.exit, writers := s.writers.eraseIdx i }
  | take {i : ℕ} {q q' : Queue} (writer : s.writers[i]? = some .ready) (queue : s.queue = some q)
      (take : q.take = some q') :
      Step D s (.take i) { s with
        queue := some q', writers := s.writers.set i (.taken s.waiting), waiting := [] }
  | lockFlush {i : ℕ} {batch : List Item} {q : Queue}
      (writer : s.writers[i]? = some (.taken batch)) (queue : s.queue = some q)
      (iomu : s.iomu = none) :
      Step D s (.lockFlush i) { s with
        writers := s.writers.set i (.flushing batch (q.flushCalls s.conn.vectored)),
        iomu := some { queued := true, items := batch } }
  | flush {i : ℕ} {batch : List Item} {b : List UInt8} {calls : List (List UInt8)} {burst : Burst}
      {fault : Fault} (writer : s.writers[i]? = some (.flushing batch (b :: calls)))
      (iomu : s.iomu = some burst) :
      Step D s (.flush i fault) { s with
        writers := s.writers.set i (.flushing batch (left calls fault)),
        iomu := some (burst.pass b fault) }
  | unlockFlush {i : ℕ} {batch : List Item} {burst : Burst}
      (writer : s.writers[i]? = some (.flushing batch [])) (iomu : s.iomu = some burst) :
      Step D s (.unlockFlush i) { s with
        writers := s.writers.set i (.flushed batch burst.err), iomu := none,
        past := s.past ++ [burst] }
  | settle {i : ℕ} {batch : List Item} {q : Queue}
      (writer : s.writers[i]? = some (.flushed batch none)) (queue : s.queue = some q) :
      Step D s (.account i) { s with
        queue := some (q.account none), writers := s.writers.set i .ready,
        settled := s.settled ++ batch }
  | fail {i : ℕ} {batch : List Item} {e : Err} {q : Queue}
      (writer : s.writers[i]? = some (.flushed batch (some e))) (queue : s.queue = some q) :
      Step D s (.account i) { s with
        queue := some (q.account (some e)), writers := s.writers.eraseIdx i, waiting := [] }

variable {D : Deflater} {s s' : Shared} {a : Act}

theorem newQueue_cases {limit : ℤ} (h : s.newQueue limit = some s') :
    Step D s (.newQueue limit) s' := by
  unfold newQueue at h
  split_ifs at h with hguard
  have hw : s.wmu = none := by simpa using hguard
  split at h
  · rename_i hq
    cases h
    exact .attach hw hq
  · rename_i q hq
    cases h
    exact .adjust hw hq

theorem start_cases {o : Op} (h : s.start D o = some s') : Step D s (.start o) s' := by
  unfold start at h
  split_ifs at h with hguard
  have hw : s.wmu = none := by
    cases hw : s.wmu with
    | none => rfl
    | some held => simp [hw] at hguard
  cases hstart : s.conn.start D (fun n => s.queue.bind (·.reserve n)) o with
  | mk r c =>
    rw [hstart] at h
    rcases r with e | _ | out <;> simp only [Option.some.injEq] at h
    · exact h ▸ .idle hw hstart fun _ h => by cases h
    · exact h ▸ .idle hw hstart fun _ h => by cases h
    · exact h ▸ .encode hw hstart

theorem enqueue_cases (h : s.enqueue = some s') : Step D s .enqueue s' := by
  unfold enqueue at h
  cases hw : s.wmu with
  | none => simp [hw] at h
  | some held =>
    cases hq : s.queue with
    | none => simp [hw, hq] at h
    | some q =>
      simp only [hw, hq] at h
      split_ifs at h with hjoin
      cases he : q.err with
      | some e =>
        simp only [Queue.enqueue, he, Option.some.injEq] at h
        exact h ▸ .refuse hw hq hjoin he
      | none =>
        have hs := Step.join (D := D) hw hq hjoin he
        simp only [Queue.enqueue, he] at h hs
        cases hr : q.running <;> simp [hr] at h hs <;> exact h ▸ hs

theorem lock_cases (h : s.lock = some s') : Step D s .lock s' := by
  unfold lock at h
  cases hw : s.wmu with
  | none => simp [hw] at h
  | some held =>
    cases hi : s.iomu with
    | some burst => simp [hw, hi] at h
    | none =>
      simp only [hw, hi] at h
      split_ifs at h with hjoin
      cases h
      exact .lock hw hi (by simpa using hjoin)

theorem write_cases {fault : Fault} (h : s.write fault = some s') : Step D s (.write fault) s' := by
  unfold write at h
  cases hw : s.wmu with
  | none => simp [hw] at h
  | some held =>
    cases hi : s.iomu with
    | none => simp [hw, hi] at h
    | some burst =>
      rcases hc : held.calls with _ | _ | ⟨b, calls⟩ <;> simp only [hw, hi, hc] at h
      · cases h
      · cases h
      · cases h
        exact .write hw hi hc

theorem unlock_cases (h : s.unlock = some s') : Step D s .unlock s' := by
  unfold unlock at h
  cases hw : s.wmu with
  | none => simp [hw] at h
  | some held =>
    cases hi : s.iomu with
    | none => simp [hw, hi] at h
    | some burst =>
      simp only [hw, hi] at h
      split_ifs at h with hc
      cases h
      exact .unlock hw hi hc

theorem take_cases {i : ℕ} (h : s.take i = some s') : Step D s (.take i) s' := by
  unfold take at h
  split at h
  · rename_i q hwriter hq
    cases ht : q.take with
    | none =>
      simp only [ht, Option.some.injEq] at h
      exact h ▸ .exit hwriter hq ht
    | some q' =>
      simp only [ht, Option.some.injEq] at h
      exact h ▸ .take hwriter hq ht
  · cases h

theorem lockFlush_cases {i : ℕ} (h : s.lockFlush i = some s') : Step D s (.lockFlush i) s' := by
  unfold lockFlush at h
  split at h
  · rename_i hwriter hq hi
    cases h
    exact .lockFlush hwriter hq hi
  · cases h

theorem flush_cases {i : ℕ} {fault : Fault} (h : s.flush i fault = some s') :
    Step D s (.flush i fault) s' := by
  unfold flush at h
  split at h
  · rename_i hwriter hi
    cases h
    exact .flush hwriter hi
  · cases h

theorem unlockFlush_cases {i : ℕ} (h : s.unlockFlush i = some s') :
    Step D s (.unlockFlush i) s' := by
  unfold unlockFlush at h
  split at h
  · rename_i hwriter hi
    cases h
    exact .unlockFlush hwriter hi
  · cases h

theorem account_cases {i : ℕ} (h : s.account i = some s') : Step D s (.account i) s' := by
  unfold account at h
  split at h
  · rename_i hwriter hq
    cases h
    exact .settle hwriter hq
  · rename_i hwriter hq
    cases h
    exact .fail hwriter hq
  · cases h

/-- Every step is one of those. -/
theorem step_cases (h : s.step D a = some s') : Step D s a s' := by
  cases a with
  | newQueue limit => exact newQueue_cases h
  | start o => exact start_cases h
  | enqueue => exact enqueue_cases h
  | lock => exact lock_cases h
  | write fault => exact write_cases h
  | unlock => exact unlock_cases h
  | take i => exact take_cases h
  | lockFlush i => exact lockFlush_cases h
  | flush i fault => exact flush_cases h
  | unlockFlush i => exact unlockFlush_cases h
  | account i => exact account_cases h

/-- Every step of the run satisfies `p` in the state in which it is taken. -/
def along (D : Deflater) (p : Shared → Act → Bool) : Shared → List Act → Bool
  | _, [] => true
  | s, a :: acts => p s a && (s.step D a).all fun s => along D p s acts

theorem along_of_forall {p : Shared → Act → Bool} :
    ∀ {acts : List Act} (s : Shared), (∀ a ∈ acts, ∀ s, p s a = true) → along D p s acts = true
  | [], _, _ => rfl
  | a :: acts, s, h => by
    have ih := fun s => along_of_forall s fun b hb => h b (List.mem_cons_of_mem a hb)
    simp only [along, h a List.mem_cons_self s, Bool.true_and]
    cases s.step D a with
    | none => rfl
    | some s' => exact ih s'

theorem along_and {p q : Shared → Act → Bool} : ∀ {acts : List Act} {s : Shared},
    along D p s acts = true → along D q s acts = true →
      along D (fun s a => p s a && q s a) s acts = true
  | [], _, _, _ => rfl
  | a :: acts, s, hp, hq => by
    simp only [along, Bool.and_eq_true] at hp hq ⊢
    refine ⟨⟨hp.1, hq.1⟩, ?_⟩
    cases hs : s.step D a with
    | none => rfl
    | some s' => exact along_and (by simpa [hs] using hp.2) (by simpa [hs] using hq.2)

/-- What holds at the start and is kept by the steps that satisfy `p` holds after a run of
such steps. -/
theorem run_induct {P : Shared → Prop} {p : Shared → Act → Bool}
    (hstep : ∀ s a s', P s → p s a = true → Step D s a s' → P s') :
    ∀ (acts : List Act) {s s' : Shared}, P s → s.run D acts = some s' →
      along D p s acts = true → P s'
  | [], s, s', hs, h, _ => Option.some.inj h ▸ hs
  | a :: acts, s, s', hs, h, hp => by
    simp only [along, Bool.and_eq_true] at hp
    cases ht : s.step D a with
    | none => simp [run, ht] at h
    | some t =>
      exact run_induct hstep acts (hstep s a t hs hp.1 (step_cases ht))
        (by simpa [run, ht] using h) (by simpa [ht] using hp.2)

/-- The same for what every step keeps. -/
theorem run_keeps {P : Shared → Prop} (hstep : ∀ s a s', P s → Step D s a s' → P s')
    {acts : List Act} (hs : P s) (hrun : s.run D acts = some s') : P s' :=
  run_induct (p := fun _ _ => true) (fun s a s' h _ => hstep s a s' h) acts hs hrun
    (along_of_forall s fun _ _ _ => rfl)

end Shared

end Ews
