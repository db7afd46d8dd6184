import Ews.Turns

/-!
# One call of `ReadMessage`

`Heard c out` is what a call of `ReadMessage` between messages does with the turns that are to come.
It holds for every stream and every handler (`readMessage_heard`) : the call passes control frames, and
returns the next message, or it ends with the turn that ends the connection, or with the transport.
`Consulted` is what it does with the handler : it calls it for the control frames it passes, in
order, and goes on only past calls that the handler answers without an error.
-/

set_option linter.unusedSectionVars false

namespace Ews

open ReadSide

/-! ## The answers of the handler -/

/-- The handler answers the calls `evs`, made after `calls`, without an error. -/
def Consents (handler : List ControlEvent → ControlEvent → Option Err)
    (calls : List ControlEvent) : List ControlEvent → Prop
  | [] => True
  | ev :: evs => handler calls ev = none ∧ Consents handler (calls ++ [ev]) evs

theorem consents_append {handler : List ControlEvent → ControlEvent → Option Err} :
    ∀ {evs evs' calls : List ControlEvent}, Consents handler calls (evs ++ evs') ↔
      Consents handler calls evs ∧ Consents handler (calls ++ evs) evs'
  | [], evs', calls => by simp [Consents]
  | ev :: evs, evs', calls => by
    rw [List.cons_append, Consents, Consents, consents_append, List.append_assoc,
      List.singleton_append, and_assoc]

namespace ReadSide

/-- A call that makes no call of the handler. -/
structure Silent (s s' : ReadSide) : Prop where
  settings : s'.settings = s.settings
  calls : s'.calls = s.calls

theorem Silent.trans {s s' s'' : ReadSide} (h : Silent s s') (h' : Silent s' s'') : Silent s s'' :=
  ⟨h'.settings.trans h.settings, h'.calls.trans h.calls⟩

/-- The error of a result. -/
def error? {α : Type} : Except Err α → Option Err
  | .error e => some e
  | .ok _ => none

/-- From `s` to `s'` the handler was called and went on, or the last call gave the error `stop`
that is returned. -/
inductive Consulted (s s' : ReadSide) (stop : Option Err) : Prop
  | agreed {evs : List ControlEvent} (settings : s'.settings = s.settings)
      (calls : s'.calls = s.calls ++ evs) (consents : Consents s.settings.handler s.calls evs)
  | refused {evs : List ControlEvent} {ev : ControlEvent} {e : Err}
      (settings : s'.settings = s.settings) (calls : s'.calls = s.calls ++ (evs ++ [ev]))
      (consents : Consents s.settings.handler s.calls evs)
      (answer : s.settings.handler (s.calls ++ evs) ev = some e) (stop : stop = some e)

section Consulted

variable {s s' s'' : ReadSide} {stop : Option Err}

theorem Silent.consulted (h : Silent s s') : Consulted s s' stop :=
  .agreed h.settings (h.calls.trans (List.append_nil _).symm) trivial

theorem Consulted.after (h : Consulted s s' none) (h' : Consulted s' s'' stop) :
    Consulted s s'' stop := by
  cases h with
  | refused _ _ _ _ hstop => cases hstop
  | @agreed evs settings calls consents =>
    cases h' with
    | @agreed evs' settings' calls' consents' =>
      rw [settings, calls] at consents'
      exact .agreed (settings'.trans settings) (by rw [calls', calls, List.append_assoc])
        (consents_append.mpr ⟨consents, consents'⟩)
    | @refused evs' ev e settings' calls' consents' answer hstop =>
      rw [settings, calls] at consents' answer
      have hcalls : s''.calls = s.calls ++ (evs ++ evs' ++ [ev]) := by
        rw [calls', calls, List.append_assoc, List.append_assoc]
      rw [List.append_assoc] at answer
      exact .refused (settings'.trans settings) hcalls (consents_append.mpr ⟨consents, consents'⟩)
        answer hstop

theorem Consulted.then (h : Consulted s s' stop) (h' : Silent s' s'') : Consulted s s'' stop := by
  cases h with
  | agreed settings calls consents =>
    exact .agreed (h'.settings.trans settings) (h'.calls.trans calls) consents
  | refused settings calls consents answer hstop =>
    exact .refused (h'.settings.trans settings) (h'.calls.trans calls) consents answer hstop

/-- All calls but a last one were answered without an error. -/
theorem Consulted.split (h : Consulted s s' stop) {evs : List ControlEvent}
    (calls : s'.calls = s.calls ++ evs) : Consents s.settings.handler s.calls evs ∨
      ∃ evs' ev e, evs = evs' ++ [ev] ∧ stop = some e ∧ Consents s.settings.handler s.calls evs' ∧
        s.settings.handler (s.calls ++ evs') ev = some e := by
  cases h with
  | agreed settings calls' consents =>
    obtain rfl := List.append_cancel_left (calls.symm.trans calls')
    exact Or.inl consents
  | refused settings calls' consents answer hstop =>
    obtain rfl := List.append_cancel_left (calls.symm.trans calls')
    exact Or.inr ⟨_, _, _, rfl, hstop, consents, answer⟩

theorem Consulted.init (h : Consulted s s' stop) {evs : List ControlEvent} {ev : ControlEvent}
    (calls : s'.calls = s.calls ++ (evs ++ [ev])) : Consents s.settings.handler s.calls evs := by
  rcases h.split calls with hc | ⟨evs', ev', e, heq, -, hc, -⟩
  · exact (consents_append.mp hc).1
  · rw [(List.append_inj' heq rfl).1]
    exact hc

theorem silent_fail (s : ReadSide) (e : Err) : Silent s (s.fail e) := by
  unfold fail
  split <;> exact ⟨rfl, rfl⟩

theorem silent_rx (s : ReadSide) (rx : Receiver) (nextErrs : List Err) :
    Silent s { s with rx := rx, nextErrs := nextErrs } :=
  ⟨rfl, rfl⟩

theorem silent_readTries (room : ℕ) : ∀ (k : ℕ) (s : ReadSide), Silent s (s.readTries room k).2
  | 0, _ => ⟨rfl, rfl⟩
  | k + 1, s => by
    rw [readTries]
    generalize s.transport.read room = out
    obtain ⟨got, t⟩ := out
    dsimp only
    split
    · have hmore := silent_readTries room k { s with transport := t }
      exact ⟨hmore.settings, hmore.calls⟩
    · exact ⟨rfl, rfl⟩
    · exact ⟨rfl, rfl⟩

theorem silent_fill (s : ReadSide) : Silent s s.fill.2 := by
  have hread := silent_readTries s.settings.bufSize 100 { s with rx := s.rx.preserve }
  simp only [fill, read]
  generalize readTries { s with rx := s.rx.preserve } s.settings.bufSize 100 = out at hread
  obtain ⟨res, s'⟩ := out
  cases res <;> exact ⟨hread.settings, hread.calls⟩

theorem silent_payloadN (s : ReadSide) (n : ℤ) : Silent s (s.payloadN n).2 :=
  ⟨rfl, rfl⟩

theorem silent_readPayload (s : ReadSide) (n : ℕ) : Silent s (s.readPayload n).2 := by
  have hread := silent_readTries n 100 s
  simp only [readPayload, read]
  generalize s.readTries n 100 = out at hread
  obtain ⟨res, s'⟩ := out
  cases res with
  | error e => exact ⟨hread.settings, hread.calls⟩
  | ok bs =>
    dsimp only
    generalize hr : record { s' with rx := s'.rx.feed bs }
      ⟨s.rx.dec.buffered, s.rx.remaining, bs.length⟩ = s₁
    have hrec : Silent s' s₁ := by
      rw [← hr]
      exact ⟨rfl, rfl⟩
    have hpay := hread.trans (hrec.trans (silent_payloadN s₁ bs.length))
    generalize s₁.payloadN bs.length = out at hpay
    obtain ⟨res, s₂⟩ := out
    cases res with
    | error e => exact hpay.trans (silent_fail s₂ e)
    | ok x => exact hpay

theorem handleControl_consulted (s : ReadSide) :
    Consulted s s.handleControl.2 s.handleControl.1 := by
  unfold handleControl
  cases ControlEvent.ofFrame s.rx.controlOpcode s.rx.control with
  | none => exact Silent.consulted ⟨rfl, rfl⟩
  | some ev =>
    dsimp only
    cases hans : s.settings.handler s.calls ev with
    | some e =>
      have hnone : Consents s.settings.handler s.calls [] := trivial
      rw [← List.append_nil s.calls] at hans
      exact .refused rfl rfl hnone hans rfl
    | none => cases ev <;> exact .agreed rfl rfl ⟨hans, trivial⟩

theorem nextFrame_consulted (s : ReadSide) : Consulted s s.nextFrame.2 (error? s.nextFrame.1) := by
  refine Loop.run_keeps
    (Q := fun out : Except Err Unit × ReadSide => Consulted s out.2 (error? out.1))
    (fun s' => Consulted s s' none) ?_ (Silent.consulted ⟨rfl, rfl⟩) (Silent.consulted ⟨rfl, rfl⟩) _
  intro s₁ h
  unfold nextFrameRound
  obtain ⟨res, rx⟩ := s₁.rx.next
  cases res with
  | error e =>
    exact h.after ((silent_rx s₁ rx (s₁.nextErrs ++ [e])).trans (silent_fail _ e)).consulted
  | ok kind =>
    cases kind with
    | dataFrame => exact h.after (Silent.consulted ⟨rfl, rfl⟩)
    | controlFrame =>
      have hcall := h.after ((silent_rx s₁ rx s₁.nextErrs).consulted.after
        (handleControl_consulted { s₁ with rx := rx }))
      dsimp only
      generalize handleControl { s₁ with rx := rx } = out at hcall
      obtain ⟨err, s₂⟩ := out
      cases err <;> exact hcall
    | needInput =>
      have hfill := silent_fill { s₁ with rx := rx }
      dsimp only
      generalize fill { s₁ with rx := rx } = out at hfill
      obtain ⟨res, s₂⟩ := out
      cases res <;> exact h.after (Silent.consulted ⟨hfill.settings, hfill.calls⟩)

theorem silent_readInto (s : ReadSide) (msg : MsgBuf) (n : ℕ) : Silent s (s.readInto msg n).2.2 := by
  have hread := silent_readPayload s n
  unfold readInto
  generalize s.readPayload n = out at hread
  obtain ⟨res, s'⟩ := out
  cases res <;> exact hread

/-- The inner loop of `assemble` stays in a frame. -/
theorem silent_gather (s : ReadSide) (msg : MsgBuf) : Silent s (s.gather msg).2.2 := by
  refine Loop.run_keeps (Q := fun out : Gathered × MsgBuf × ReadSide => Silent s out.2.2)
    (fun x => Silent s x.2) ?_ ⟨rfl, rfl⟩ ⟨rfl, rfl⟩ _
  rintro ⟨msg₁, s₁⟩ h
  have hpay := Silent.trans h (silent_payloadN s₁ s₁.rx.dec.buffered)
  simp only [gatherRound, payload]
  generalize s₁.payloadN s₁.rx.dec.buffered = out at hpay
  obtain ⟨res, s₂⟩ := out
  cases res with
  | error e => exact hpay.trans (silent_fail s₂ e)
  | ok x =>
    obtain ⟨chunk, done⟩ := x
    dsimp only
    split_ifs
    · exact hpay
    · exact hpay
    · exact hpay
    · have hinto := hpay.trans (silent_readInto s₂ msg₁ s₂.rx.remaining)
      generalize s₂.readInto msg₁ s₂.rx.remaining = out at hinto
      obtain ⟨res, msg₂, s₃⟩ := out
      cases res <;> exact hinto
    · have hfill := hpay.trans (silent_fill s₂)
      generalize s₂.fill = out at hfill
      obtain ⟨res, s₃⟩ := out
      cases res <;> exact hfill

theorem assemble_consulted (s : ReadSide) (held : Bool) :
    Consulted s (s.assemble held).2.2 (error? (s.assemble held).1) := by
  refine Loop.run_keeps
    (Q := fun out : Except Err (List UInt8) × MsgBuf × ReadSide => Consulted s out.2.2 (error? out.1))
    (fun x => Consulted s x.2 none) ?_ (Silent.consulted ⟨rfl, rfl⟩) (Silent.consulted ⟨rfl, rfl⟩) _
  rintro ⟨msg₁, s₁⟩ h
  simp only [assembleRound]
  split_ifs
  · exact Consulted.after h (silent_fail s₁ (.failure 1009 .messageTooLarge)).consulted
  · have hgather := silent_gather s₁ msg₁
    generalize s₁.gather msg₁ = out at hgather
    obtain ⟨res, msg₂, s₂⟩ := out
    have hthere := Consulted.then h hgather
    cases res with
    | error e => exact Consulted.after h hgather.consulted
    | whole p => exact hthere
    | frame =>
      dsimp only at hthere ⊢
      split_ifs
      · exact hthere
      · have hframe := hthere.after (nextFrame_consulted s₂)
        generalize s₂.nextFrame = out at hframe
        obtain ⟨res, s₃⟩ := out
        cases res <;> exact hframe

end Consulted

end ReadSide

/-- A call that stopped inside a message for want of input stands inside it. -/
theorem ReadSide.Broke.inside {s s' : ReadSide} {p : List UInt8} {e : Err} (h : Broke s p e s')
    (fine : s'.readErr = none) : s'.cursor.ended = false := by
  obtain ⟨stop, -, incomplete, place⟩ := h
  cases stop with
  | blocked went live =>
    rw [← incomplete, ← (place live).1]
    rfl
  | failed => cases fine
  | refused => cases fine
  | closed => cases fine

namespace Conn

variable {F : Flate}

/-! ## The end of `ReadMessage` -/

/-- The outcomes of `decompress` : what the payload says, within the limit, or a failure. -/
inductive Decompresses (c : Conn F) (payload : List UInt8) :
    Except Err (List UInt8) × Conn F → Prop
  | ok {out : List UInt8} {c' : Conn F}
      (content : F.inflate c.history.size c.history.dict payload = some out)
      (length : out.length ≤ c.side.settings.limit) (side : c'.side = c.side)
      (dec : ∀ d, c'.dec = some d → d.Idle)
      (history : c'.history = { c.history with
        dict := if c.history.takeover then Bytes.lastN c.history.size (c.history.dict ++ out)
          else [] }) :
      Decompresses c payload (.ok out, c')
  | bad {code : ℕ} {cause : Err} {c' : Conn F} (status : code = 1007 ∨ code = 1009)
      (unfit : ∀ out, F.inflate c.history.size c.history.dict payload = some out →
        c.side.settings.limit < out.length)
      (silent : Silent c.side c'.side) : Decompresses c payload (.error (.failure code cause), c')

/-- A failure right after a call that left the reading side as it was. -/
theorem silent_failed {c c' : Conn F} (h : Silent c.side c'.side) (e : Err) :
    Silent c.side (c'.fail e).side :=
  h.trans (silent_fail c'.side e)

theorem decompress_cases {c : Conn F} (dec : ∀ d, c.dec = some d → d.Idle) (payload : List UInt8) :
    Decompresses c payload (c.decompress payload) := by
  obtain ⟨d, gets, hacq, hidle⟩ := acquireDecompressor_spec dec
  have hspec := Inflation.decompress_spec (C := chunkSource)
    (x := inflation { c with dec := some d, gets := gets } d) hidle payload
    (Int.natCast_nonneg c.side.settings.limit)
  have hsrc := Inflation.decompress_src chunkSource payload c.side.settings.limit
    (inflation { c with dec := some d, gets := gets } d)
  simp only [decompress, hacq]
  generalize Inflation.decompress chunkSource payload c.side.settings.limit
    (inflation { c with dec := some d, gets := gets } d) = res at hspec hsrc
  rw [Int.toNat_natCast] at hspec
  have hsilent : ∀ c' : Conn F, c'.side = c.side → Silent c.side c'.side := fun c' h =>
    ⟨congrArg _ h, congrArg _ h⟩
  cases hspec with
  | @ok out x means length hover =>
    refine .ok means length hsrc ?_ (history_of_over hover)
    rintro d' ⟨⟩
    exact hover.idle
  | @tooLarge x means hover => exact .bad (Or.inr rfl) means (silent_failed (hsilent _ hsrc) _)
  | @fail e x fault means hover =>
    have hunfit : ∀ out, F.inflate c.history.size c.history.dict payload = some out →
        c.side.settings.limit < out.length := fun out h => absurd (means.symm.trans h) (by simp)
    dsimp only
    split_ifs
    · exact .bad (Or.inr rfl) hunfit (silent_failed (hsilent _ hsrc) _)
    · exact .bad (Or.inl rfl) hunfit (silent_failed (hsilent _ hsrc) _)

/-- The outcomes of `finishMessage` : the message, or a failure because it is not acceptable. -/
inductive Finishes (c : Conn F) (m : WireMessage) :
    Except Err (Opcode × List UInt8) × Conn F → Prop
  | ok {out : List UInt8} {c' : Conn F} (content : c.history.content F m = some out)
      (accepts : Accepts c.side.settings m out) (side : c'.side = { c.side with inMessage := false })
      (dec : ∀ d, c'.dec = some d → d.Idle) (history : c'.history = c.history.next m out) :
      Finishes c m (.ok (m.opcode, out), c')
  | bad {code : ℕ} {cause : Err} {c' : Conn F} (status : code = 1007 ∨ code = 1009)
      (unfit : ∀ out, c.history.content F m = some out → ¬Accepts c.side.settings m out)
      (silent : Silent c.side c'.side) : Finishes c m (.error (.failure code cause), c')

theorem finishMessage_cases {c : Conn F} {m : WireMessage} (dec : ∀ d, c.dec = some d → d.Idle)
    (compressed : c.side.rx.compressed = m.compressed)
    (length : m.payload.length ≤ c.side.settings.limit) :
    Finishes c m (c.finishMessage m.opcode m.payload) := by
  have hstart : Silent c.side
      (Conn.side { c with side := { c.side with inMessage := false } }) := ⟨rfl, rfl⟩
  simp only [finishMessage, compressed]
  cases hm : m.compressed with
  | false =>
    have hcontent : c.history.content F m = some m.payload := by
      rw [History.content, if_neg (by simp [hm])]
    have hnext : c.history.next m m.payload = c.history := by
      rw [History.next, if_neg (by simp [hm])]
    simp only [Bool.false_eq_true, if_false]
    split_ifs with hcheck
    · refine .bad (Or.inl rfl) (fun out hout hacc => ?_) (silent_failed hstart _)
      obtain rfl := Option.some.inj (hcontent.symm.trans hout)
      exact absurd (hacc.text hcheck.2.1 hcheck.1) (by simp [hcheck.2.2])
    · refine .ok hcontent ⟨length, length, fun hv hop => ?_⟩ rfl dec hnext.symm
      by_contra hu
      exact hcheck ⟨hop, hv, by simpa using hu⟩
  | true =>
    have hcontent : ∀ out, c.history.content F m = some out →
        F.inflate c.history.size c.history.dict m.payload = some out := fun out hout => by
      rwa [History.content, if_pos hm] at hout
    have hcases := decompress_cases (c := { c with side := { c.side with inMessage := false } }) dec
      m.payload
    simp only [if_true]
    generalize decompress { c with side := { c.side with inMessage := false } } m.payload = res
      at hcases
    cases hcases with
    | bad status unfit silent =>
      refine .bad status (fun out hout hacc => ?_) (hstart.trans silent)
      exact absurd hacc.content (Nat.not_le_of_lt (unfit out (hcontent out hout)))
    | @ok out c' content hlen side hdec history =>
      have hout : c.history.content F m = some out := by
        rw [History.content, if_pos hm]
        exact content
      have hset : c'.side.settings = c.side.settings := by rw [side]
      dsimp only
      rw [hset]
      split_ifs with hcheck
      · refine .bad (Or.inl rfl) (fun out' hout' hacc => ?_) ?_
        · obtain rfl := Option.some.inj (hout.symm.trans hout')
          exact absurd (hacc.text hcheck.2.1 hcheck.1) (by simp [hcheck.2.2])
        · have hside : Silent c.side c'.side := by
            rw [side]
            exact hstart
          exact silent_failed hside _
      · refine .ok hout ⟨length, hlen, fun hv hop => ?_⟩ side hdec ?_
        · by_contra hu
          exact hcheck ⟨hop, hv, by simpa using hu⟩
        · rw [History.next, if_pos hm]
          exact history

theorem silent_finishMessage {c : Conn F} (dec : ∀ d, c.dec = some d → d.Idle) (op : Opcode)
    (payload : List UInt8) : Silent c.side (c.finishMessage op payload).2.side := by
  have hstart : Silent c.side
      (Conn.side { c with side := { c.side with inMessage := false } }) := ⟨rfl, rfl⟩
  simp only [finishMessage]
  cases c.side.rx.compressed with
  | false =>
    simp only [Bool.false_eq_true, if_false]
    split_ifs
    · exact silent_failed hstart _
    · exact hstart
  | true =>
    have hcases := decompress_cases (c := { c with side := { c.side with inMessage := false } }) dec
      payload
    simp only [if_true]
    generalize decompress { c with side := { c.side with inMessage := false } } payload = res
      at hcases
    cases hcases with
    | bad status unfit silent => exact hstart.trans silent
    | @ok out c' content length side =>
      have hside : Silent c.side c'.side := by
        rw [side]
        exact hstart
      dsimp only
      split_ifs
      · exact silent_failed hside _
      · exact hside

/-! ## One call of `ReadMessage` -/

/-- The turns that are to come. -/
def turns (c : Conn F) : List Turn :=
  turnsFrom c.side.settings.limit none c.side.todo

/-- What a call of `ReadMessage` hears : control frames, and then a message it returns or does not
accept, a frame past the limit, a failure, a control frame that ends the connection, or the end of
the transport. -/
inductive Heard (c : Conn F) : Except Err (Opcode × List UInt8) × Conn F → Prop
  | message {evs : List ControlEvent} {m : WireMessage} {out : List UInt8} {c' : Conn F}
      {l : List Event} (turns : c.turns = evs.map .control ++ .message m :: c'.turns)
      (calls : c'.side.calls = c.side.calls ++ evs) (content : c.history.content F m = some out)
      (accepts : Accepts c.side.settings m out) (rest : c'.Rest)
      (history : c'.history = c.history.next m out) (passed : Passed c.side l c'.side)
      (place : stand none l = none) (less : c'.side.effort < c.side.effort) :
      Heard c (.ok (m.opcode, out), c')
  | rejected {evs : List ControlEvent} {m : WireMessage} {code : ℕ} {cause : Err} {c' : Conn F}
      {ts : List Turn} (turns : c.turns = evs.map .control ++ .message m :: ts)
      (calls : c'.side.calls = c.side.calls ++ evs) (status : code = 1007 ∨ code = 1009)
      (unfit : ∀ out, c.history.content F m = some out → ¬Accepts c.side.settings m out) :
      Heard c (.error (.failure code cause), c')
  | tooLarge {evs : List ControlEvent} {c' : Conn F}
      (turns : c.turns = evs.map .control ++ [.tooLarge])
      (calls : c'.side.calls = c.side.calls ++ evs) :
      Heard c (.error (.failure 1009 .messageTooLarge), c')
  | failed {evs : List ControlEvent} {code : ℕ} {cause : Err} {c' : Conn F}
      (turns : c.turns = evs.map .control ++ [.fail code])
      (calls : c'.side.calls = c.side.calls ++ evs) : Heard c (.error (.failure code cause), c')
  | refused {evs : List ControlEvent} {ev : ControlEvent} {ts : List Turn} {e : Err} {c' : Conn F}
      (turns : c.turns = evs.map .control ++ .control ev :: ts)
      (calls : c'.side.calls = c.side.calls ++ (evs ++ [ev]))
      (answer : c.side.settings.handler (c.side.calls ++ evs) ev = some e) : Heard c (.error e, c')
  | closed {evs : List ControlEvent} {code : ℕ} {reason : List UInt8} {c' : Conn F}
      (turns : c.turns = evs.map .control ++ [.control (.close code reason)])
      (calls : c'.side.calls = c.side.calls ++ (evs ++ [.close code reason]))
      (answer : c.side.settings.handler (c.side.calls ++ evs) (.close code reason) = none) :
      Heard c (.error (.closed code reason), c')
  | ended {evs : List ControlEvent} {l : List Event} {s : ReadSide} {c' : Conn F}
      (turns : c.turns = evs.map .control) (mild : ∀ code reason, .close code reason ∉ evs)
      (calls : c'.side.calls = c.side.calls ++ evs) (passed : Passed c.side l s)
      (coupled : s.rx.Coupled) (live : s.rx.dead = false) (dry : s.rx.expected [] = []) (symbols : s.transport.symbols = [])
      (place : stand none l = none ↔ s.rx.remaining = 0 ∧ s.rx.messageOpen = false) :
      Heard c (.error (if s.rx.idle = false then .unexpectedEOF else .eof), c')

section Heard

variable {c : Conn F} {l₀ l : List Event} {cur : Option OpenMessage} {s₁ s₂ s' : ReadSide} {e : Err}

/-- A call that stops behind the events `l₀` and the control frames `l`. -/
theorem heard_stop (steady : c.side.transport.Steady) (clean : c.side.transport.Clean)
    (passed : Passed c.side l₀ s₁)
    (turns : ∀ rest, turnsFrom c.side.settings.limit none (l₀ ++ rest) =
      (controls l₀).map .control ++ turnsFrom c.side.settings.limit cur rest)
    (pings : ∀ e ∈ l, e.IsPing) (fine : s₁.readErr = none) (stop : Stop s₁ l s₂ e s')
    (place : s'.readErr = none →
      (stand none l₀ = none ↔ s'.rx.remaining = 0 ∧ s'.rx.messageOpen = false))
    {c' : Conn F} (side : c'.side = s') : Heard c (.error e, c') := by
  have hturns : ∀ (rest : List Event) {s : ReadSide}, Passed s₁ (l ++ rest) s → c.turns =
      (controls (l₀ ++ l)).map .control ++
        turnsFrom c.side.settings.limit cur (rest ++ s.todo) := fun rest s h => by
    rw [Conn.turns, (passed.trans h).todo, List.append_assoc, List.append_assoc, turns,
      turns_pings _ _ _ l pings, controls_append, List.map_append, List.append_assoc]
  have hcalls : ∀ (rest : List Event) {s : ReadSide}, Passed s₁ (l ++ rest) s →
      s.calls = c.side.calls ++ (controls (l₀ ++ l) ++ controls rest) := fun rest s h => by
    rw [(passed.trans h).calls, ← List.append_assoc, controls_append]
  cases stop with
  | blocked went live dry blocked =>
    have hpassed : Passed s₁ (l ++ []) s₂ := by
      rw [List.append_nil]
      exact went.passed
    have hall := passed.trans went.passed
    cases blocked with
    | ended symbols =>
      have hnil : s₂.todo = [] := by
        rw [todo, Transport.bytes, symbols, List.filterMap_nil, dry]
      have hstand := place (went.readErr.trans fine)
      have hheard : c.turns = (controls (l₀ ++ l)).map .control := by
        rw [hturns [] hpassed, hnil, List.append_nil, turns_nil, List.append_nil]
      have hmild : turnsFrom c.side.settings.limit none (l₀ ++ (l ++ [.fail 0])) =
          (controls (l₀ ++ l)).map .control ++ [.fail 0] := by
        rw [turns, turns_pings _ _ _ l pings, turns_fail, controls_append, List.map_append,
          List.append_assoc]
      refine .ended hheard (mild_of_turns _ hmild) ?_ hall went.coupled live dry symbols ?_
      · rw [side]
        exact hall.calls
      · rwa [stand_append, stand_pings _ l pings]
    | err symbols => exact absurd (by rw [symbols]; exact List.mem_cons_self) (hall.clean clean _)
    | stalled symbols weight unsteady => exact absurd (hall.steady steady) unsteady
  | @failed code cause went dead =>
    have hheard : c.turns = (controls (l₀ ++ l)).map .control ++ [.fail code] := by
      rw [hturns _ went.passed, List.singleton_append, turns_fail]
    refine .failed hheard ?_
    rw [side, (silent_fail s₂ _).calls, hcalls _ went.passed]
    simp [controls, Event.call]
  | @refused op p ev _ went call answer =>
    rw [passed.calls, passed.settings, List.append_assoc, ← controls_append] at answer
    have hheard := hturns _ went.passed
    rw [List.singleton_append, turns_control, controlTurn, call] at hheard
    refine .refused hheard ?_ answer
    rw [side]
    refine (hcalls _ went.passed).trans ?_
    simp [controls, Event.call, call]
  | @closed p went dead answer =>
    have hcall : ControlEvent.ofFrame .close p =
        some (.close (parseClose p).1 (parseClose p).2) := rfl
    rw [passed.calls, passed.settings, List.append_assoc, ← controls_append] at answer
    refine .closed ?_ ?_ answer
    · rw [hturns _ went.passed, List.singleton_append, turns_control, controlTurn, hcall, if_pos rfl]
      rfl
    · rw [side]
      refine (hcalls _ went.passed).trans ?_
      simp [controls, Event.call, hcall]

end Heard

/-- At the head of a message with the opcode `op`, behind the events `l`. -/
structure AtMessage (c : Conn F) (l : List Event) (op : Opcode) (s : ReadSide) : Prop where
  passed : Passed c.side l s
  turns : ∀ rest, turnsFrom c.side.settings.limit none (l ++ rest) = (controls l).map .control ++
    headTurns c.side.settings.limit ⟨op, s.rx.compressed, []⟩ s.cursor rest
  place : stand none l = s.cursor.place
  fine : s.readErr = none

section AtMessage

variable {c : Conn F} {l l' : List Event} {op : Opcode} {s s' : ReadSide} {p : List UInt8}
  (h : AtMessage c l op s) (within : Within s l' p s')
include h within

/-- The turns of a message that stays within the limit as far as it is read. -/
theorem AtMessage.openTurns (hle : p.length + s'.cursor.left ≤ c.side.settings.limit)
    (rest : List Event) : turnsFrom c.side.settings.limit none (l ++ l' ++ rest) =
      (controls (l ++ l')).map .control ++
        Ews.openTurns c.side.settings.limit ⟨op, s.rx.compressed, p⟩ s'.cursor rest := by
  have hleft := scan_left _ within.scan
  rw [List.append_assoc, h.turns, headTurns_within _ (by simp only [List.length_nil]; omega),
    openTurns_scan _ _ _ _ _ within.scan (by simp only [List.length_nil]; omega), controls_append,
    List.map_append, List.append_assoc, List.nil_append]

/-- The message is complete. -/
theorem AtMessage.whole (ended : s'.cursor.ended = true) (length : p.length ≤ c.side.settings.limit)
    {c₁ : Conn F} (hist : c₁.history = c.history) (dec : c₁.dec = none) (side : c₁.side = s')
    (less : s'.effort < c.side.effort) : Heard c (c₁.finishMessage op p) := by
  have hleft : s'.cursor.left = 0 := (cursor_ended.mp ended).1
  have hpassed := h.passed.trans within.toWent.passed
  have hset : c₁.side.settings = c.side.settings := by rw [side, hpassed.settings]
  have hturns : ∀ rest, turnsFrom c.side.settings.limit none (l ++ l' ++ rest) =
      (controls (l ++ l')).map .control ++
        .message ⟨op, s.rx.compressed, p⟩ :: turnsFrom c.side.settings.limit none rest := fun rest => by
    rw [h.openTurns within (by omega), openTurns_ended _ ended]
  have hfin := finishMessage_cases (c := c₁) (m := ⟨op, s.rx.compressed, p⟩)
    (fun d hd => absurd (dec.symm.trans hd) (by simp)) (by rw [side, within.compressed])
    (by rwa [hset])
  dsimp only at hfin
  generalize c₁.finishMessage op p = out at hfin
  cases hfin with
  | bad status unfit silent =>
    rw [hist, hset] at unfit
    have hheard := hturns s'.todo
    rw [← hpassed.todo] at hheard
    exact .rejected hheard (by rw [silent.calls, side, hpassed.calls]) status unfit
  | @ok out c' content accepts hside hdec history =>
    rw [hist] at content history
    rw [hset] at accepts
    have hside' : c'.side = { s' with inMessage := false } := by rw [hside, side]
    have hgone : Passed c.side (l ++ l') c'.side := by
      rw [hside']
      exact hpassed.flags false s'.streaming
    refine .message ?_ hgone.calls content accepts ⟨?_, ?_, ?_, ?_, fun d hd => ?_⟩ history hgone
      ?_ ?_
    · rw [Conn.turns, hgone.todo, hturns, Conn.turns, hgone.settings]
    · rw [hside']
      exact ⟨within.coupled, within.live, hleft⟩
    · rw [hside']
      exact (cursor_ended.mp ended).2
    · rw [hside']
    · rw [hside']
      exact within.readErr.trans h.fine
    · exact ⟨(hdec d hd).scratch, fun hw => absurd ((hdec d hd).flag.symm.trans hw) (by decide)⟩
    · rw [stand_append, h.place, stand_scan _ within.scan, Cursor.place_of_ended ended]
    · rw [hside']
      exact less

/-- The message is not complete. -/
theorem AtMessage.broke (hle : p.length + s'.cursor.left ≤ c.side.settings.limit)
    (steady : c.side.transport.Steady) (clean : c.side.transport.Clean) {e : Err} {s'' : ReadSide}
    (broke : Broke s' [] e s'') (stalled : Stalled s' e s'') {c' : Conn F} (side : c'.side = s'') :
    Heard c (.error e, c') := by
  have hopen : s'.cursor.ended = false := by
    obtain ⟨-, hscan, incomplete, -⟩ := broke
    by_contra hend
    rw [Bool.not_eq_false] at hend
    obtain rfl := scan_of_ended hend hscan
    obtain ⟨-, rfl⟩ := Prod.mk.inj (Option.some.inj hscan)
    exact absurd (incomplete.symm.trans hend) (by decide)
  have hturns : ∀ rest, turnsFrom c.side.settings.limit none (l ++ l' ++ rest) =
      (controls (l ++ l')).map .control ++
        turnsFrom c.side.settings.limit (some ⟨⟨op, s.rx.compressed, p⟩, s'.cursor⟩) rest :=
    fun rest => by rw [h.openTurns within hle, openTurns_open _ hopen]
  obtain ⟨pings, stop⟩ := stalled
  refine heard_stop steady clean (h.passed.trans within.toWent.passed) hturns pings
    (within.readErr.trans h.fine) stop (fun fine => ?_) side
  rw [stand_append, h.place, stand_scan _ within.scan, Cursor.place_of_not_ended hopen,
    ← cursor_ended, broke.inside fine]
  exact iff_of_false (by simp) (by simp)

end AtMessage

/-- `ReadMessage` between messages, over any stream and with any handler. -/
theorem readMessage_heard {c : Conn F} (rest : c.Rest) (steady : c.side.transport.Steady)
    (clean : c.side.transport.Clean) : Heard c c.readMessage := by
  obtain ⟨c₂, left, passed, hhist, heff⟩ := rest.left
  have hframe := nextFrame_spec left.rest.between
  rw [readMessage, left.nextMessage, enter]
  generalize c₂.side.nextFrame = out at hframe
  obtain ⟨res, s₁⟩ := out
  cases hframe with
  | @stop l s₂ _ e pings between stop =>
    have hturns : ∀ rest, turnsFrom c.side.settings.limit none ([] ++ rest) =
        (controls []).map .control ++ turnsFrom c.side.settings.limit none rest := fun _ => rfl
    refine heard_stop steady clean passed hturns pings left.rest.fine stop (fun fine => ?_) rfl
    cases stop with
    | blocked went live dry blocked =>
      obtain ⟨hbetween, same⟩ := between live
      exact iff_of_true rfl ⟨hbetween.drained, same.messageOpen.trans left.rest.shut⟩
    | failed => cases fine
    | refused => cases fine
    | closed => cases fine
  | @data l s₁ pings went opened less =>
    have hstart : s₁.rx.compressed = s₁.rx.header.rsv1 := by
      rcases opened.starts with hs | hs
      · exact absurd (hs.2.1.symm.trans left.rest.shut) (by decide)
      · exact hs.2.2
    have hcursor : s₁.cursor = ⟨s₁.rx.header.payloadLen, s₁.rx.header.final⟩ := cursor_opened opened
    have hat : AtMessage c (l ++ [headEvent s₁.rx.header]) s₁.rx.header.opcode
        { s₁ with inMessage := true } := by
      refine ⟨(passed.trans went.passed).flags true s₁.streaming, fun rest => ?_, ?_,
        went.readErr.trans left.rest.fine⟩
      · rw [List.append_assoc, turns_pings _ _ _ _ pings, List.singleton_append, headEvent,
          turns_head, controls_append, ← hstart]
        simp only [cursor] at hcursor ⊢
        rw [hcursor, controls_data, controls_nil, List.append_nil]
      · rw [stand_append, stand_pings none l pings]
        simp only [cursor] at hcursor ⊢
        rw [hcursor]
        rfl
    have hass := assemble_spec (c := { s₁ with inMessage := true }) went.coupled opened.live
      opened.remaining c₂.held
    have hset : s₁.settings = c.side.settings := went.settings.trans passed.settings
    dsimp only
    generalize ReadSide.assemble { s₁ with inMessage := true } c₂.held = out at hass ⊢
    cases hass with
    | @whole l' p msg s' within ended length =>
      refine hat.whole within ended (hset ▸ length) hhist left.dec rfl ?_
      rw [← heff]
      exact within.effort.trans_lt less
    | @tooLarge l' msg s' within headed length hover =>
      have hpassed := hat.passed.trans within.toWent.passed
      have hheard : c.turns =
          (controls (l ++ [headEvent s₁.rx.header] ++ l')).map .control ++ [.tooLarge] := by
        rw [hset] at length hover
        rw [turns, hpassed.todo, List.append_assoc, hat.turns,
          headTurns_scan _ _ _ within.scan headed (by simpa using length) (by simpa using hover),
          controls_append _ l', List.map_append, List.append_assoc]
      exact .tooLarge hheard ((silent_fail s' _).calls.trans hpassed.calls)
    | @broke l' p e msg s₂ s' within length broke stalled =>
      exact hat.broke within (hset ▸ length) steady clean broke stalled rfl

/-- `ReadMessage` goes on only past calls that the handler answers without an error. -/
theorem readMessage_consulted {c : Conn F} (rest : c.Rest) :
    Consulted c.side c.readMessage.2.side (error? c.readMessage.1) := by
  obtain ⟨c₂, left, passed, -, -⟩ := rest.left
  have hthere : Consulted c.side c₂.side none :=
    Silent.consulted ⟨passed.settings, passed.calls.trans (List.append_nil _)⟩
  have hframe := hthere.after (nextFrame_consulted c₂.side)
  rw [readMessage, left.nextMessage, enter]
  generalize c₂.side.nextFrame = out at hframe
  obtain ⟨res, s₁⟩ := out
  cases res with
  | error e => exact hframe
  | ok u =>
    have hin : Silent s₁ { s₁ with inMessage := true } := ⟨rfl, rfl⟩
    have hass := (Consulted.then hframe hin).after
      (assemble_consulted { s₁ with inMessage := true } c₂.held)
    dsimp only
    generalize ReadSide.assemble { s₁ with inMessage := true } c₂.held = out at hass
    obtain ⟨res, msg, s₂⟩ := out
    cases res with
    | error e => exact hass
    | ok payload =>
      have hfin := silent_finishMessage (c := { c₂ with side := s₂, held := msg.held })
        (fun d hd => absurd (left.dec.symm.trans hd) (by simp)) s₁.rx.header.opcode payload
      exact Consulted.after hass hfin.consulted

end Conn

end Ews
