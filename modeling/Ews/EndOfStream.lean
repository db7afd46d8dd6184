import Ews.Cuts
import Ews.Takeover
import Ews.Torn

/-!
# The end of the stream

A transport brings the first `n` bytes of a legal stream of frames without a close frame, in
pieces of any sizes, and then ends. `Cutoff` is a reading side in front of such a stream, and
`Cutoff.stop` says that whatever stops a reader there stops it with `io.EOF` at a cut
between messages and with `io.ErrUnexpectedEOF` at any other.

`calls_cut` is a loop of `ReadMessage` : the messages that are whole before the cut, then that
error. It says the same of `NextMessage` and `Read` behind the whole messages : in the message the
cut falls into, no read says `io.EOF`.
-/

set_option linter.unusedSectionVars false

namespace Ews

namespace ReadSide

/-! ## Where the reader stops -/

/-- In front of the first `n` bytes of the frames `fs`, with nothing but the end of the stream
to stop it. -/
structure Cutoff (s : ReadSide) (fs : List Frame) (n : ℕ) : Prop where
  legal : s.rx.rules.stream false fs = true
  noClose : ∀ f ∈ fs, f.opcode ≠ .close
  start : ∀ fut, s.rx.expected fut = s.rx.rules.events false fut
  bytes : s.transport.symbols = ((wire fs).take n).map .inl
  quiet : Quiet s

section Cutoff

variable {s c : ReadSide} {fs : List Frame} {n : ℕ} (cutoff : Cutoff s fs n) {es : List Event}
  (passed : Passed s es c)
include cutoff

theorem Cutoff.todo : s.todo = s.rx.rules.events false ((wire fs).take n) := by
  have hbytes := Transport.filterMap_inl ((wire fs).take n) []
  rw [List.append_nil] at hbytes
  rw [ReadSide.todo, Transport.bytes, cutoff.bytes, hbytes, List.filterMap_nil, List.append_nil,
    cutoff.start]

include passed

/-- At the end of the transport every byte before the cut is read. -/
theorem Cutoff.events (hend : c.transport.symbols = []) (fut : List UInt8) :
    s.rx.rules.events false ((wire fs).take n ++ fut) = es ++ c.rx.expected fut := by
  obtain ⟨bs, hs, hb⟩ := passed.input
  rw [hend, List.append_nil, cutoff.bytes] at hs
  rw [List.map_injective_iff.mpr Sum.inl_injective hs, ← hb, cutoff.start]

/-- The error of a reader that the cut stream stops. -/
theorem Cutoff.stop {l : List Event} {c₁ c' : ReadSide} {e : Err} (stop : Stop c l c₁ e c')
    (place : c₁.rx.dead = false →
      (stand none (es ++ l) = none ↔ c₁.rx.remaining = 0 ∧ c₁.rx.messageOpen = false)) :
    e = if AtRest n fs then .eof else .unexpectedEOF := by
  have hquiet := cutoff.quiet.passed passed
  have hmem : ∀ {x : Event} {c₁ : ReadSide}, Went c (l ++ [x]) c₁ →
      (∀ code, x ≠ .fail code) ∧ ∀ p, x ≠ .control .close p := fun {x c₁} went => by
    have htodo := (passed.trans went.passed).todo
    rw [cutoff.todo] at htodo
    exact events_cut_mem cutoff.legal cutoff.noClose n (by rw [htodo]; simp)
  cases stop with
  | blocked went live dry blocked =>
    have hpassed := passed.trans went.passed
    have hquiet' := hquiet.passed went.passed
    cases blocked with
    | ended symbols =>
      have hidle := idle_iff cutoff.legal cutoff.noClose n went.coupled live hpassed.rules
        (cutoff.events hpassed symbols) dry (place live)
      by_cases hrest : AtRest n fs
      · rw [if_pos hrest, hidle.mpr hrest, if_neg (by decide)]
      · rw [if_neg hrest, if_pos (Bool.not_eq_true _ ▸ fun h => hrest (hidle.mp h))]
    | err symbols => exact absurd (by rw [symbols]; exact List.mem_cons_self) (hquiet'.clean _)
    | stalled symbols weight unsteady => exact absurd hquiet'.steady unsteady
  | failed went dead => exact absurd rfl ((hmem went).1 _)
  | refused went call answer => exact absurd (answer.symm.trans (hquiet.handler _ _)) (by simp)
  | closed went dead answer => exact absurd rfl ((hmem went).2 _)

/-- The whole stream goes on where the cut stream stands. -/
theorem Cutoff.rest : ∃ more, fs.flatMap Frame.events = es ++ more := by
  obtain ⟨bs, hs, hb⟩ := passed.input
  have htake : (wire fs).take n = bs ++ c.transport.bytes := by
    have hbytes := Transport.filterMap_inl ((wire fs).take n) []
    rw [List.append_nil] at hbytes
    rw [← Transport.bytes_append hs, Transport.bytes, cutoff.bytes, hbytes, List.filterMap_nil,
      List.append_nil]
  refine ⟨c.rx.expected (c.transport.bytes ++ (wire fs).drop n), ?_⟩
  rw [← hb, ← List.append_assoc, ← htake, List.take_append_drop, cutoff.start]
  exact (Rules.events_wire _ cutoff.legal).symm

end Cutoff

/-- What is read of a message, and of the frame at hand, is not more than the whole stream has of
it. -/
theorem Cutoff.length_le {s c : ReadSide} {fs : List Frame} {n : ℕ} (cutoff : Cutoff s fs n)
    (complete : fs.foldl Frame.opens false = false) {es l l' : List Event}
    (place : stand none es = none) (pings : ∀ e ∈ l, e.IsPing) {h : Header} {p : List UInt8}
    {k : Cursor} (scan : scan ⟨h.payloadLen, h.final⟩ l' = some (p, k))
    (passed : Passed s (es ++ (l ++ headEvent h :: l')) c) :
    ∃ m ∈ Ews.gather none fs, p.length + k.left ≤ m.payload.length := by
  obtain ⟨more, hmore⟩ := cutoff.rest passed
  have hwhole := whole_events fs cutoff.legal complete
  have hmessages : messages (fs.flatMap Frame.events) = Ews.gather none fs :=
    messagesFrom_events fs none cutoff.legal
  rw [hmore] at hwhole hmessages
  -- The message goes on to its end, since the whole stream leaves none open.
  have hstand : stand none (es ++ (l ++ headEvent h :: l')) = k.place := by
    rw [stand_append, place, stand_append, stand_pings none l pings]
    exact stand_scan _ scan
  have hopen := whole_append _ hwhole
  rw [show Cursor.place ⟨0, !false⟩ = none from rfl, hstand] at hopen
  rw [List.append_assoc] at hwhole hmessages
  have hsuffix := (messages_suffix es).1 hwhole place
  have hemit : messages ((l ++ headEvent h :: l') ++ more) =
      emit ⟨h.opcode, h.rsv1, p⟩ k more := by
    rw [List.append_assoc, messages_pings _ _ pings, List.cons_append, headEvent, messages_data,
      emit_scan _ _ _ _ scan, List.nil_append]
  rw [hmessages, hemit] at hsuffix
  cases hm : emit ⟨h.opcode, h.rsv1, p⟩ k more with
  | nil => exact absurd hm (emit_whole _ _ _ hopen)
  | cons m ms =>
    rw [hm] at hsuffix
    exact ⟨m, hsuffix.subset List.mem_cons_self, (emit_cons _ hm).2.2.2⟩

end ReadSide

namespace Conn

open ReadSide

variable {F : Flate}

/-! ## A loop of `ReadMessage` -/

section Loop

variable {c : Conn F} {s : ReadSide} {fs : List Frame} {n : ℕ} (cutoff : Cutoff s fs n)
  (complete : fs.foldl Frame.opens false = false)
  (fits : ∀ m ∈ gather none fs, m.payload.length ≤ s.settings.limit)
include cutoff complete fits

/-- `ReadMessage` where no message is whole before the cut. -/
theorem readMessage_cut {es : List Event} (passed : Passed s es c.side)
    (place : stand none es = none) (ready : c.Ready []) :
    c.readMessage.1 = .error (if AtRest n fs then .eof else .unexpectedEOF) := by
  obtain ⟨c₂, left, hleft, -, -⟩ := ready.rest.left
  have hpassed := passed.trans hleft
  have hmessages : messages c₂.side.todo = [] := by
    rw [← ready.messages, hleft.todo, List.nil_append]
  rw [List.append_nil] at hpassed
  have hframe := nextFrame_spec left.rest.between
  rw [readMessage, left.nextMessage, enter]
  generalize c₂.side.nextFrame = out at hframe
  obtain ⟨res, s₁⟩ := out
  cases hframe with
  | stop pings between stop =>
    refine congrArg Except.error (cutoff.stop hpassed stop fun live => ?_)
    obtain ⟨hbetween, same⟩ := between live
    rw [stand_append, place, stand_pings none _ pings]
    exact iff_of_true rfl ⟨hbetween.drained, same.messageOpen.trans left.rest.shut⟩
  | @data l s₁ pings went opened less =>
    have hcursor : s₁.cursor = ⟨s₁.rx.header.payloadLen, s₁.rx.header.final⟩ :=
      cursor_opened opened
    have hhead := hpassed.trans (went.passed.flags true s₁.streaming)
    have hass := assemble_spec (c := { s₁ with inMessage := true }) went.coupled opened.live
      opened.remaining c₂.held
    dsimp only
    generalize ReadSide.assemble { s₁ with inMessage := true } c₂.held = out at hass ⊢
    cases hass with
    | whole within ended length =>
      -- A whole message would be one of the messages to come.
      rw [went.todo, List.append_assoc, messages_pings _ _ pings, List.singleton_append, headEvent,
        messages_data, ← hcursor] at hmessages
      have hemit := within.emit ⟨s₁.rx.header.opcode, s₁.rx.header.rsv1, []⟩
      rw [emit_ended ended] at hemit
      exact absurd (hemit.symm.trans hmessages) (by simp)
    | @tooLarge l' msg c' within headed length hover =>
      have hscan := within.scan
      rw [show ReadSide.cursor { s₁ with inMessage := true } = s₁.cursor from rfl, hcursor] at hscan
      have hgone := hhead.trans within.toWent.passed
      rw [List.append_assoc, List.append_assoc, List.singleton_append] at hgone
      obtain ⟨m, hm, hle⟩ := cutoff.length_le complete place pings hscan hgone
      have hlimit := fits m hm
      rw [← hhead.settings] at hlimit
      exact absurd (hle.trans hlimit) (Nat.not_le_of_lt hover)
    | @broke l' p e msg c₁ c' within length broke stalled =>
      obtain ⟨stop, hscan, incomplete, hplace⟩ := Broke.after within broke
      refine congrArg Except.error (cutoff.stop hhead stop fun live => ?_)
      have hstand : stand none (es ++ (l ++ [headEvent s₁.rx.header])) = s₁.cursor.place := by
        rw [stand_append, place, stand_append, stand_pings none l pings, hcursor]
        rfl
      have hstop := stand_scan _ hscan
      rw [Cursor.place_of_not_ended incomplete] at hstop
      rw [stand_append, hstand, ← cursor_ended, (hplace live).1, incomplete]
      exact iff_of_false (fun h => Option.some_ne_none _ (hstop.symm.trans h)) (by simp)

end Loop

/-- What the first messages say does not depend on those that follow. -/
theorem contents_take (k : ℕ) : ∀ (ms : List WireMessage) (h : History)
    {cs : List (Opcode × List UInt8)}, h.contents F ms = some cs →
    h.contents F (ms.take k) = some (cs.take k) := by
  induction k with
  | zero => exact fun ms h cs _ => rfl
  | succ k ih =>
    intro ms h cs hcs
    cases ms with
    | nil =>
      cases hcs
      rfl
    | cons m ms =>
      obtain ⟨out, hout, hrest⟩ := Option.bind_eq_some_iff.mp hcs
      obtain ⟨cs', hcs', rfl⟩ := Option.map_eq_some_iff.mp hrest
      rw [List.take_succ_cons, List.take_succ_cons, History.contents, hout, Option.bind_some,
        ih ms _ hcs', Option.map_some]

theorem length_contents : ∀ (ms : List WireMessage) (h : History)
    {cs : List (Opcode × List UInt8)}, h.contents F ms = some cs → cs.length = ms.length
  | [], h, cs, hcs => by
    cases hcs
    rfl
  | m :: ms, h, cs, hcs => by
    obtain ⟨out, hout, hrest⟩ := Option.bind_eq_some_iff.mp hcs
    obtain ⟨cs', hcs', rfl⟩ := Option.map_eq_some_iff.mp hrest
    rw [List.length_cons, List.length_cons, length_contents ms _ hcs']

/-- A loop of `ReadMessage` over the messages to come. -/
theorem calls_messages : ∀ (ms : List WireMessage) {c : Conn F} {cs : List (Opcode × List UInt8)},
    c.Ready ms → c.history.contents F ms = some cs →
    (∀ x ∈ ms.zip cs, Accepts c.side.settings x.1 x.2.2) →
    (c.calls ms.length).1 = cs.map .ok ∧ (c.calls ms.length).2.Ready [] ∧
      ∃ l, Passed c.side l (c.calls ms.length).2.side ∧ stand none l = none
  | [], c, cs, h, hcs, _ => by
    cases hcs
    exact ⟨rfl, h, [], Passed.refl _, rfl⟩
  | m :: ms, c, cs, h, hcs, accepts => by
    obtain ⟨out, hout, hrest⟩ := Option.bind_eq_some_iff.mp hcs
    obtain ⟨cs', hcs', rfl⟩ := Option.map_eq_some_iff.mp hrest
    obtain ⟨c₂, left, hleft, hhist, -⟩ := h.rest.left
    have hms : messages c₂.side.todo = m :: ms := by
      rw [← h.messages, hleft.todo, List.nil_append]
    rcases readMessage_spec left (h.calm.passed hleft) hms (by rw [hhist]; exact hout)
      (by rw [hleft.settings]; exact accepts (m, m.opcode, out) (by simp)) with
      ⟨c', heq, hadv, -⟩ | ⟨_, _, _, stopped⟩
    · obtain ⟨l, passed, hplace⟩ := hadv.passed
      obtain ⟨hcalls, hready, l', passed', hplace'⟩ := calls_messages ms
        (hadv.ready (h.calm.passed hleft) (hleft.clean h.clean))
        (by rw [hadv.history, hhist]; exact hcs') fun x hx => by
          rw [passed.settings, hleft.settings]
          exact accepts x (by simp [hx])
      simp only [List.length_cons, Conn.calls, heq]
      refine ⟨by rw [hcalls, List.map_cons], hready, l ++ l', ?_, ?_⟩
      · exact (hleft.trans passed).trans passed'
      · rw [stand_append, hplace, hplace']
    · exact absurd stopped.error (not_exists.mpr (hleft.clean h.clean))

/-! ## `NextMessage` and `Read` -/

/-- Where no message is whole before the end of the stream, `NextMessage` enters one that does not
come to its end. -/
theorem nextMessage_torn {c c₂ : Conn F} (left : Left c c₂) (ready : c₂.Ready []) {op : Opcode}
    {c₁ : Conn F} (heq : c.nextMessage = (.ok op, c₁)) : c₁.Torn := by
  have hframe := nextFrame_spec left.rest.between
  rw [left.nextMessage, enter] at heq
  generalize c₂.side.nextFrame = out at hframe heq
  obtain ⟨res, s⟩ := out
  cases hframe with
  | stop => cases heq
  | @data l s pings went opened less =>
    obtain ⟨-, rfl⟩ := Prod.mk.inj heq
    have hmessages := ready.messages
    rw [went.todo, List.append_assoc, messages_pings _ _ pings, List.singleton_append, headEvent,
      messages_data, ← cursor_opened opened] at hmessages
    have quiet : Quiet s := Quiet.passed ⟨ready.calm.steady, ready.clean, ready.calm.handler⟩
      went.passed
    refine .inside ⟨rfl, went.readErr.trans left.rest.fine, went.coupled, opened.live,
      ⟨quiet.steady, quiet.clean, quiet.handler⟩, _, hmessages⟩ fun hs => ?_
    exact absurd ((went.streaming.trans left.streaming).symm.trans hs) (by simp)

/-! ## Every cut -/

/-- A new connection in front of a cut stream. -/
theorem cutoff_newConn {cfg : Config} {t : Transport}
    {pool : ℕ → Option { d : Decompressor F // d.Idle }} {c : Conn F}
    (hc : newConn cfg t pool = .ok c) (handler : ∀ calls ev, cfg.handler calls ev = none)
    {fs : List Frame}
    (legal : Rules.stream ⟨cfg.role, cfg.compression.isSome⟩ false fs = true)
    (noClose : ∀ f ∈ fs, f.opcode ≠ .close) {n : ℕ} (steady : t.Steady)
    (cut : t.symbols = ((wire fs).take n).map .inl) :
    Cutoff c.side fs n ∧ c.Ready (gather none (framesBefore n fs)) := by
  have clean : t.Clean := fun e he => by
    rw [cut] at he
    obtain ⟨b, -, hb⟩ := List.mem_map.mp he
    cases hb
  have hready := (ready_newConn hc steady clean handler).1
  have hcutoff : Cutoff c.side fs n := by
    unfold newConn at hc
    split_ifs at hc with hv
    cases hc
    exact ⟨legal, noClose, fun fut => Receiver.expected_init _ _ fut, cut, steady, clean, handler⟩
  refine ⟨hcutoff, hready.rest, hready.calm, hready.clean, ?_⟩
  rw [hcutoff.todo]
  exact messages_cut hcutoff.legal noClose n

/-- The stream `fs` is cut after `n` bytes, which come in pieces of any sizes before the transport
ends. `ReadMessage` gives the messages that are whole before the cut, then `io.EOF` if the cut is
between messages and `io.ErrUnexpectedEOF` if it is not. Whatever use is made of the whole messages,
no read in the message after them says `io.EOF`. -/
theorem calls_cut (cfg : Config) (pool : ℕ → Option { d : Decompressor F // d.Idle })
    (t : Transport) {c : Conn F} (hc : newConn cfg t pool = .ok c)
    (handler : ∀ calls ev, cfg.handler calls ev = none) (fs : List Frame)
    (legal : Rules.stream ⟨cfg.role, cfg.compression.isSome⟩ false fs = true)
    (noClose : ∀ f ∈ fs, f.opcode ≠ .close) (complete : fs.foldl Frame.opens false = false)
    (cs : List (Opcode × List UInt8)) (means : c.history.contents F (gather none fs) = some cs)
    (accepts : ∀ x ∈ (gather none fs).zip cs, Accepts c.side.settings x.1 x.2.2) (n : ℕ)
    (steady : t.Steady) (cut : t.symbols = ((wire fs).take n).map .inl) :
    (c.calls ((gather none (framesBefore n fs)).length + 1)).1 =
        (cs.take (gather none (framesBefore n fs)).length).map .ok ++
          [.error (if AtRest n fs then .eof else .unexpectedEOF)] ∧
      ∀ us : List Use, us.length = (gather none (framesBefore n fs)).length →
        ∀ op c₁, (c.takeAll us).2.nextMessage = (.ok op, c₁) →
          ∀ ns : List ℕ, ∀ r ∈ (c₁.reads ns).1, r ≠ .error .eof := by
  obtain ⟨cutoff, ready⟩ := cutoff_newConn hc handler legal noClose steady cut
  obtain ⟨more, hmore⟩ := gather_framesBefore legal n
  generalize gather none (framesBefore n fs) = ms at *
  have hms : ms = (gather none fs).take ms.length := by rw [← hmore, List.take_left]
  have hcs : c.history.contents F ms = some (cs.take ms.length) := by
    have htake := contents_take ms.length _ _ means
    rwa [← hms] at htake
  have haccepts : ∀ x ∈ ms.zip (cs.take ms.length), Accepts c.side.settings x.1 x.2.2 := by
    intro x hx
    rw [hms, List.length_take_of_le (by rw [← hmore]; simp), List.zip, ← List.take_zipWith] at hx
    exact accepts x (List.mem_of_mem_take hx)
  refine ⟨?_, fun us hus op c₁ heq ns r hr => ?_⟩
  · obtain ⟨hcalls, hready, l, passed, place⟩ := calls_messages ms ready hcs haccepts
    have fits : ∀ m ∈ gather none fs, m.payload.length ≤ c.side.settings.limit := by
      intro m hm
      obtain ⟨i, hi, rfl⟩ := List.mem_iff_getElem.mp hm
      have hlen := length_contents _ _ means
      have hzip := List.getElem_mem (l := (gather none fs).zip cs) (n := i) (by simp; omega)
      rw [List.getElem_zip] at hzip
      exact (accepts _ hzip).wire
    have hlast := readMessage_cut cutoff complete fits passed place hready
    rw [calls_add, hcalls]
    exact congrArg (_ ++ [·]) hlast
  · obtain ⟨xs, -, -, poised⟩ := takeAll_spec us (.ready ready rfl) hus.le hcs fun x hx => by
      obtain ⟨u, y⟩ := x
      cases u with
      | readMessage => exact haccepts y (List.of_mem_zip hx).2
      | parts ps => trivial
    rw [hus, List.drop_length] at poised
    obtain ⟨c₂, left, hready, -⟩ := poised.left
    exact reads_torn ns (nextMessage_torn left hready heq) r hr

/-- A text, and a ping after the first fragment of another message, with nothing behind it. -/
theorem calls_cut_ping :
    ∃ c : Conn Flate.stored, newConn { role := .client }
        [.data [0x81, 2, 104], .data [105, 0x01, 1], .data [7, 0x89, 0]] (fun _ => none) = .ok c ∧
      (c.calls 2).1 = [.ok (.text, [104, 105]), .error .unexpectedEOF] := by
  refine ⟨_, rfl, (calls_cut (F := Flate.stored) { role := .client } (fun _ => none)
    [.data [0x81, 2, 104], .data [105, 0x01, 1], .data [7, 0x89, 0]] rfl (fun _ _ => rfl)
    [⟨true, false, .text, none, [104, 105]⟩, ⟨false, false, .text, none, [7]⟩,
      ⟨true, false, .ping, none, []⟩, ⟨true, false, .continuation, none, [8]⟩]
    (by decide) (by decide) (by decide) [(.text, [104, 105]), (.text, [7, 8])]
    (by decide) (fun x hx => ?_) 9 (by decide) (by decide)).1⟩
  have hx : x = (⟨.text, false, [104, 105]⟩, .text, [104, 105]) ∨
      x = (⟨.text, false, [7, 8]⟩, .text, [7, 8]) := by
    simpa [WireMessage.join] using (show x ∈ [_, _] from hx)
  rcases hx with rfl | rfl
  · exact ⟨by decide, by decide, fun h => absurd h (by decide)⟩
  · exact ⟨by decide, by decide, fun h => absurd h (by decide)⟩

end Conn

end Ews
