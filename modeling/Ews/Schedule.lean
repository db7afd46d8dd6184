import Ews.Receiver

/-!
# Schedules of calls on a receiver

A schedule is any sequence of `Feed`, `Preserve`, `Next` and `PayloadN` calls. Its
replies carry events, its `feed` calls carry input, and the two are tied by the grammar :
the events observed so far, followed by those the receiver still holds, are the events
of the input (`Receiver.run_expected`). The receiver never runs ahead of the grammar, and
it has caught up whenever it asks for input (`Receiver.next_dry`, `Receiver.payloadN_dry`).
After a failure or a close the replies to any further calls are known
(`Receiver.run_failed`, `Receiver.run_closed`).
-/

namespace Ews

/-- A call on a receiver. -/
inductive Call
  | feed (b : List UInt8)
  | preserve
  | next
  | payloadN (n : ℤ)
  deriving DecidableEq, Repr

/-- What a call tells its caller. After a data frame that is its header, after a control
frame `Control`. -/
inductive Reply
  | silent
  | needInput
  | data (final rsv1 : Bool) (opcode : Opcode) (length : ℕ)
  | control (opcode : Opcode) (payload : List UInt8)
  | payload (chunk : List UInt8) (done : Bool)
  | error (e : Err)
  deriving DecidableEq, Repr

/-- The bytes a call feeds. -/
def Call.input : Call → List UInt8
  | .feed b => b
  | _ => []

/-- The bytes a schedule feeds. -/
def fed (cs : List Call) : List UInt8 :=
  cs.flatMap Call.input

/-- The events a reply hands out. -/
def Reply.events : Reply → List Event
  | .data final rsv1 opcode length => [.data final rsv1 opcode length]
  | .control opcode p => [.control opcode p]
  | .payload chunk _done => chunk.map .byte
  | .error (.failure code _cause) => [.fail code]
  | _ => []

/-- The events of a run's replies. The failure ends them ; the replies after it repeat it. -/
def observed : List Reply → List Event
  | [] => []
  | .error (.failure code _) :: _ => [.fail code]
  | x :: xs => x.events ++ observed xs

/-- The reply to a call once the receiver has failed with `e`. -/
def Call.afterFailure (e : Err) : Call → Reply
  | .feed _ => .silent
  | .preserve => .silent
  | .next => .error e
  | .payloadN _ => .error e

/-- The reply to a call once a close was read. -/
def Call.afterClose : Call → Reply
  | .feed _ => .silent
  | .preserve => .silent
  | .next => .needInput
  | .payloadN _ => .payload [] true

namespace Receiver

/-- The reply to `Next`, read off its result and the receiver it leaves. -/
def nextReply : Except Err FrameKind × Receiver → Reply
  | (.ok .needInput, _) => .needInput
  | (.ok .dataFrame, r) =>
    .data r.header.final r.header.rsv1 r.header.opcode r.header.payloadLen
  | (.ok .controlFrame, r) => .control r.controlOpcode r.control
  | (.error e, _) => .error e

/-- The reply to `PayloadN`. -/
def payloadReply : Except Err (List UInt8 × Bool) → Reply
  | .ok (chunk, done) => .payload chunk done
  | .error e => .error e

/-- One call. -/
def call (r : Receiver) : Call → Reply × Receiver
  | .feed b => (.silent, r.feed b)
  | .preserve => (.silent, r.preserve)
  | .next => (nextReply r.next, r.next.2)
  | .payloadN n => (payloadReply (r.payloadN n).1, (r.payloadN n).2)

/-- A schedule, with its replies. -/
def run (r : Receiver) : List Call → List Reply × Receiver
  | [] => ([], r)
  | c :: cs => ((r.call c).1 :: (run (r.call c).2 cs).1, (run (r.call c).2 cs).2)

theorem run_append (r : Receiver) : ∀ cs ds : List Call, r.run (cs ++ ds) =
    ((r.run cs).1 ++ ((r.run cs).2.run ds).1, ((r.run cs).2.run ds).2)
  | [], _ => rfl
  | c :: cs, ds => by
    simp only [List.cons_append, run, run_append (r.call c).2 cs ds]

theorem length_run (r : Receiver) : ∀ cs : List Call, (r.run cs).1.length = cs.length
  | [] => rfl
  | c :: cs => by simp only [run, List.length_cons, length_run (r.call c).2 cs]

/-! ## One call -/

/-- What a call that feeds `b` does to a receiver that has not failed : its reply hands
out the first events to come, or it is the failure they consist of. -/
inductive Answer (r : Receiver) (b : List UInt8) : Reply → Receiver → Prop
  | live {x : Reply} {r' : Receiver} (coupled : r'.Coupled) (unfailed : r'.failed = none)
      (plain : ∀ e, x = .error e → e = .payloadPending)
      (closed : ∀ p, x = .control .close p → r'.closeReceived = true)
      (events : ∀ fut, r.expected (b ++ fut) = x.events ++ r'.expected fut) : Answer r b x r'
  | failed {r' : Receiver} {code : ℕ} {cause : Err} (coupled : r'.Coupled)
      (failed : r'.failed = some (.failure code cause)) (known : code = 1002 ∨ code = 1007)
      (events : ∀ fut, r.expected (b ++ fut) = [.fail code]) :
      Answer r b (.error (.failure code cause)) r'

theorem next_pending {r : Receiver} (hf : r.failed = none) (hr : r.remaining ≠ 0) :
    r.next = (.error .payloadPending, r) := by
  unfold next
  rw [hf]
  simp [hr]

section Live

variable {r : Receiver} (h : r.Coupled) (hf : r.failed = none)
include h hf

theorem answer_next : Answer r [] (nextReply r.next) r.next.2 := by
  by_cases hr : r.remaining = 0
  · cases hcr : r.closeReceived with
    | true =>
      rw [next_closed h hf hcr]
      exact .live h hf (by simp [nextReply]) (by simp [nextReply]) fun _ => rfl
    | false =>
      have hstep := next_spec h (dead_eq_false.mpr ⟨hf, hcr⟩) hr
      generalize r.next = res at hstep ⊢
      obtain ⟨res, r'⟩ := res
      cases hstep with
      | need coupled live rem same events dry input =>
        exact .live coupled (dead_eq_false.mp live).1 (by simp [nextReply]) (by simp [nextReply])
          events
      | data coupled opened events input =>
        exact .live coupled (dead_eq_false.mp opened.live).1 (by simp [nextReply])
          (by simp [nextReply]) events
      | control coupled rem same isControl unfailed dead ended events valid input =>
        refine .live coupled unfailed (by simp [nextReply]) (fun p hp => ?_) events
        have hclose : r'.controlOpcode = .close := (Reply.control.inj hp).1
        have hdead : r'.dead = true := dead.trans (decide_eq_true hclose)
        have hnone : r'.failed = none := unfailed
        simpa [Receiver.dead, hnone] using hdead
      | fail coupled rules failed known events => exact .failed coupled failed known events
  · rw [next_pending hf hr]
    exact .live h hf (by simp [nextReply]) (by simp [nextReply]) fun _ => rfl

theorem answer_payloadN (n : ℤ) : Answer r [] (payloadReply (r.payloadN n).1) (r.payloadN n).2 := by
  by_cases hr : r.remaining = 0
  · rw [payloadN_drained hf hr]
    exact .live h hf (by simp [payloadReply]) (by simp [payloadReply]) fun _ => rfl
  · obtain ⟨chunk, r', heq, took⟩ := payloadN_spec h (live_of_remaining h hr) hr n
    rw [heq]
    exact .live took.coupled (dead_eq_false.mp took.live).1 (by simp [payloadReply])
      (by simp [payloadReply]) took.events

/-- Every call on a receiver that has not failed. -/
theorem call_spec (c : Call) : Answer r c.input (r.call c).1 (r.call c).2 := by
  cases c with
  | feed b =>
    have hf' : (r.feed b).failed = none := by
      unfold feed
      split_ifs <;> exact hf
    exact .live (coupled_feed h b) hf' (by simp [call]) (by simp [call])
      fun fut => (expected_feed r b fut).symm
  | preserve =>
    simp only [call, preserve_eq]
    exact .live h hf (by simp) (by simp) fun _ => rfl
  | next => exact answer_next h hf
  | payloadN n => exact answer_payloadN h hf n

end Live

/-! ## A whole schedule -/

/-- A failed receiver stays as it is, whatever is called. -/
theorem run_failed {r : Receiver} {e : Err} (h : r.failed = some e) :
    ∀ cs : List Call, r.run cs = (cs.map (Call.afterFailure e), r)
  | [] => rfl
  | c :: cs => by
    have hcall : r.call c = (c.afterFailure e, r) := by
      cases c with
      | feed b => simp [call, Call.afterFailure, feed_dead (r := r) (by simp [dead, h]) b]
      | preserve => simp [call, Call.afterFailure]
      | next => simp [call, Call.afterFailure, next_failed h, nextReply]
      | payloadN n => simp [call, Call.afterFailure, payloadN_failed h, payloadReply]
    simp only [run, hcall, run_failed h cs, List.map_cons]

/-- A receiver that has read a close ignores all further input. -/
theorem run_closed {r : Receiver} (h : r.Coupled) (hf : r.failed = none)
    (hc : r.closeReceived = true) :
    ∀ cs : List Call, r.run cs = (cs.map Call.afterClose, r)
  | [] => rfl
  | c :: cs => by
    have hd : r.dead = true := by simp [dead, hc]
    have hcall : r.call c = (c.afterClose, r) := by
      cases c with
      | feed b => simp [call, Call.afterClose, feed_dead hd b]
      | preserve => simp [call, Call.afterClose]
      | next => simp [call, Call.afterClose, next_closed h hf hc, nextReply]
      | payloadN n =>
        simp [call, Call.afterClose, payloadN_drained hf (h.dead hd).1, payloadReply]
    simp only [run, hcall, run_closed h hf hc cs, List.map_cons]

theorem coupled_run {r : Receiver} (h : r.Coupled) : ∀ cs : List Call, (r.run cs).2.Coupled
  | [] => h
  | c :: cs => by
    cases hf : r.failed with
    | some e => rwa [run_failed hf]
    | none =>
      refine coupled_run (r := (r.call c).2) ?_ cs
      generalize hx : r.call c = out
      obtain ⟨x, r'⟩ := out
      have hans := call_spec h hf c
      rw [hx] at hans
      cases hans with
      | live coupled _ _ _ _ => exact coupled
      | failed coupled _ _ _ => exact coupled

theorem observed_cons {x : Reply} (h : ∀ e, x = .error e → e = .payloadPending)
    (xs : List Reply) : observed (x :: xs) = x.events ++ observed xs := by
  rw [observed]
  intro code cause hx
  exact absurd (h _ hx) (by simp)

/-- What a run has handed out and what its receiver still holds are the events of what
was to come before it. -/
theorem run_expected {r : Receiver} (h : r.Coupled) (hf : r.failed = none) :
    ∀ (cs : List Call) (fut : List UInt8),
      r.expected (fed cs ++ fut) = observed (r.run cs).1 ++ (r.run cs).2.expected fut
  | [], fut => rfl
  | c :: cs, fut => by
    have hfed : fed (c :: cs) ++ fut = c.input ++ (fed cs ++ fut) := by
      simp [fed, List.append_assoc]
    have hans := call_spec h hf c
    simp only [hfed, run]
    generalize r.call c = out at hans
    obtain ⟨x, r'⟩ := out
    cases hans with
    | live coupled unfailed plain closed events =>
      rw [events, run_expected coupled unfailed cs fut, observed_cons plain, List.append_assoc]
    | failed coupled failed known events =>
      have hdead : r'.dead = true := by
        have : r'.failed = _ := failed
        simp [dead, this]
      rw [events, run_failed failed, expected_dead hdead]
      rfl

/-! ## Catching up -/

section Dry

variable {r : Receiver} (h : r.Coupled)
include h

/-- A receiver that asks for input holds no event. -/
theorem next_dry (hx : nextReply r.next = .needInput) : r.expected [] = [] := by
  cases hf : r.failed with
  | some e => simp [next_failed hf, nextReply] at hx
  | none =>
    cases hcr : r.closeReceived with
    | true => exact expected_dead (by simp [dead, hcr]) []
    | false =>
      by_cases hr : r.remaining = 0
      · have hstep := next_spec h (dead_eq_false.mpr ⟨hf, hcr⟩) hr
        generalize r.next = res at hstep hx
        obtain ⟨res, r'⟩ := res
        cases hstep with
        | need coupled live rem same events dry input => rw [events, dry]
        | _ => simp [nextReply] at hx
      · simp [next_pending hf hr, nextReply] at hx

/-- With payload left, `PayloadN` gives some of it or holds none. -/
theorem payloadN_dry (hr : r.remaining ≠ 0) {n : ℤ} (hn : 0 < n) :
    ∃ chunk done, payloadReply (r.payloadN n).1 = .payload chunk done ∧
      (chunk = [] → done = false ∧ r.expected [] = []) := by
  obtain ⟨chunk, r', heq, took⟩ := payloadN_spec h (live_of_remaining h hr) hr n
  refine ⟨chunk, _, by rw [heq]; rfl, ?_⟩
  rintro rfl
  have hrem := took.remaining
  simp only [List.length_nil, add_zero] at hrem
  exact ⟨decide_eq_false (by omega), expected_of_pending h hr (took_empty took hr (by omega))⟩

/-- `Next` refuses only if payload is left. -/
theorem remaining_of_pending (hf : r.failed ≠ some .payloadPending)
    (hx : nextReply r.next = .error .payloadPending) : r.remaining ≠ 0 := by
  intro hr
  cases hfail : r.failed with
  | some e =>
    rw [next_failed hfail] at hx
    exact hf (by rw [hfail, ← Reply.error.inj hx])
  | none =>
    cases hcr : r.closeReceived with
    | true => simp [next_closed h hfail hcr, nextReply] at hx
    | false =>
      have hstep := next_spec h (dead_eq_false.mpr ⟨hfail, hcr⟩) hr
      generalize r.next = res at hstep hx
      obtain ⟨res, r'⟩ := res
      cases hstep <;> simp [nextReply] at hx

end Dry

/-! ## After a failure or a close -/

/-- Along a run the receiver has not failed, or has failed with one of the two codes. -/
theorem failed_run {r : Receiver} (h : r.Coupled) (hf : r.failed = none) :
    ∀ cs : List Call, (r.run cs).2.failed = none ∨
      ∃ code cause, (r.run cs).2.failed = some (.failure code cause) ∧ (code = 1002 ∨ code = 1007)
  | [] => Or.inl hf
  | c :: cs => by
    have hans := call_spec h hf c
    simp only [run]
    generalize r.call c = out at hans
    obtain ⟨x, r'⟩ := out
    cases hans with
    | live coupled unfailed plain closed events => exact failed_run coupled unfailed cs
    | failed coupled failed known events =>
      rw [run_failed failed]
      exact Or.inr ⟨_, _, failed, known⟩

section Last

variable {r : Receiver} {cs : List Call} {ys : List Reply}

/-- The last reply of a run is that of its last call. -/
theorem run_last {x : Reply} (hx : (r.run cs).1 = ys ++ [x]) :
    ∃ cs' c, (r.run cs').2.call c = (x, (r.run cs).2) := by
  obtain rfl | ⟨cs', c, rfl⟩ := List.eq_nil_or_concat cs
  · simp [run] at hx
  · rw [List.concat_eq_append, run_append] at hx ⊢
    obtain ⟨-, hlast⟩ := List.append_inj' hx rfl
    exact ⟨cs', c, Prod.ext (List.cons.inj hlast).1 rfl⟩

variable (h : r.Coupled)
include h

/-- A run that ends in an error other than a refusal has failed with it. -/
theorem failed_of_error {e : Err} (hx : (r.run cs).1 = ys ++ [.error e])
    (he : e ≠ .payloadPending) : (r.run cs).2.failed = some e := by
  obtain ⟨cs', c, hcall⟩ := run_last hx
  cases hf : (r.run cs').2.failed with
  | some e' =>
    have hrun : [((r.run cs').2.call c).1] = [c.afterFailure e'] ∧
        ((r.run cs').2.call c).2 = (r.run cs').2 := Prod.mk.inj (run_failed hf [c])
    rw [hcall] at hrun
    rw [show (r.run cs).2 = _ from hrun.2, hf]
    cases c <;> simp_all [Call.afterFailure]
  | none =>
    have hans := call_spec (coupled_run h cs') hf c
    rw [hcall] at hans
    cases hans with
    | live coupled unfailed plain closed events => exact absurd (plain e rfl) he
    | failed coupled failed known events => exact failed

/-- A run that ends in a close has closed. -/
theorem closed_of_close {p : List UInt8} (hx : (r.run cs).1 = ys ++ [.control .close p]) :
    (r.run cs).2.failed = none ∧ (r.run cs).2.closeReceived = true := by
  obtain ⟨cs', c, hcall⟩ := run_last hx
  cases hf : (r.run cs').2.failed with
  | some e' =>
    have hrun : [((r.run cs').2.call c).1] = [c.afterFailure e'] ∧
        ((r.run cs').2.call c).2 = (r.run cs').2 := Prod.mk.inj (run_failed hf [c])
    rw [hcall] at hrun
    cases c <;> simp_all [Call.afterFailure]
  | none =>
    have hans := call_spec (coupled_run h cs') hf c
    rw [hcall] at hans
    cases hans with
    | live coupled unfailed plain closed events => exact ⟨unfailed, closed p rfl⟩

end Last

/-! ## The receiver and the grammar -/

/-- The replies `xs` and the receiver `r` that a schedule `cs` ends with are what the
grammar gives for the bytes it fed.

The events handed out are the first of the grammar's, and all of them once the
receiver asks for input, as it does if `Next` needs input or `PayloadN` of a positive
size has nothing to give. An error other than the refusal of `Next` with payload left
is a failure with one of the two codes, and is the reply to every later `Next`
and `PayloadN`. After a close these ask for input and give nothing. -/
structure FollowsGrammar (R : Rules) (cs : List Call) (xs : List Reply) (r : Receiver) : Prop where
  sound : observed xs <+: R.events false (fed cs)
  complete : (r.call .next).1 = .needInput → observed xs = R.events false (fed cs)
  completePayload : (r.call .next).1 = .error .payloadPending → ∀ n : ℤ, 0 < n →
    ∃ chunk done, (r.call (.payloadN n)).1 = .payload chunk done ∧
      (chunk = [] → done = false ∧ observed xs = R.events false (fed cs))
  failure : ∀ ys e, xs = ys ++ [.error e] → e ≠ .payloadPending →
    (∃ code cause, e = .failure code cause ∧ (code = 1002 ∨ code = 1007)) ∧
      ∀ cs', (r.run cs').1 = cs'.map (Call.afterFailure e)
  close : ∀ ys p, xs = ys ++ [.control .close p] →
    ∀ cs', (r.run cs').1 = cs'.map Call.afterClose

/-- Every schedule of calls, however the input is cut into `Feed` calls and whatever is
called in between, follows the grammar. -/
theorem run_followsGrammar (role : Role) (compression : Bool) (cs : List Call) :
    FollowsGrammar ⟨role, compression⟩ cs ((init role compression).run cs).1
      ((init role compression).run cs).2 := by
  have h := coupled_init role compression
  have hf : (init role compression).failed = none := rfl
  have hev : Rules.events ⟨role, compression⟩ false (fed cs) =
      observed ((init role compression).run cs).1 ++
        ((init role compression).run cs).2.expected [] := by
    rw [← run_expected h hf, List.append_nil, expected_init]
  refine ⟨⟨_, hev.symm⟩, fun hx => ?_, fun hx n hn => ?_, fun ys e hx he => ?_, fun ys p hx cs' => ?_⟩
  · rw [hev, next_dry (coupled_run h cs) hx, List.append_nil]
  · have hne : ((init role compression).run cs).2.failed ≠ some .payloadPending := by
      rcases failed_run h hf cs with hnone | ⟨code, cause, hsome, -⟩
      · simp [hnone]
      · simp [hsome]
    have hr := remaining_of_pending (coupled_run h cs) hne hx
    obtain ⟨chunk, done, hreply, hdry⟩ := payloadN_dry (coupled_run h cs) hr hn
    refine ⟨chunk, done, hreply, fun hc => ?_⟩
    rw [hev, (hdry hc).2, List.append_nil]
    exact ⟨(hdry hc).1, rfl⟩
  · have hfail := failed_of_error h hx he
    refine ⟨?_, fun cs' => by rw [run_failed hfail]⟩
    rcases failed_run h hf cs with hnone | ⟨code, cause, hsome, known⟩
    · exact absurd (hnone.symm.trans hfail) (by simp)
    · exact ⟨code, cause, Option.some.inj (hfail.symm.trans hsome), known⟩
  · obtain ⟨hnone, hclosed⟩ := closed_of_close h hx
    rw [run_closed (coupled_run h cs) hnone hclosed]

end Receiver

end Ews
