import Ews.Deliver
import Ews.Frames

/-!
# The ways to read a message

`NextMessage` and `Read` until `io.EOF`, `NextMessage` and `WriteTo`, or `ReadMessage` : a
caller may take each message of a stream in another of these ways (`Mode`). `deliver_spec`
is the step for one message, `deliverAll_spec` the run : whatever the plan, the buffer sizes
and the cuts of the transport, the caller has what the messages say.
-/

set_option linter.unusedSectionVars false

namespace Ews

open Bytes ReadSide

namespace Conn

variable {F : Flate}

/-- A way to read a message. -/
inductive Mode
  | read (sizes : ℕ → ℕ)
  | writeTo
  | readMessage

/-- A message a caller has got, and what each call of `Read` gave. -/
structure Delivery where
  opcode : Opcode
  payload : List UInt8
  reads : List (List UInt8) := []
  deriving DecidableEq, Repr

/-- One `Read` of a caller that reads until `io.EOF`, the `i`th of size `sizes i`. -/
def readAllRound (sizes : ℕ → ℕ) : ℕ × List (List UInt8) × Conn F →
    (ℕ × List (List UInt8) × Conn F) ⊕ Except Err (List (List UInt8)) × Conn F
  | (i, reads, c) =>
    match c.read (sizes i) with
    | (.ok p, c) => .inl (i + 1, reads ++ [p], c)
    | (.error e, c) => .inr (if e = .eof then .ok reads else .error e, c)

/-- `Read` until `io.EOF`, for at most `budget` calls. -/
def readAll (budget : ℕ) (sizes : ℕ → ℕ) (c : Conn F) :
    Except Err (List (List UInt8)) × Conn F :=
  Loop.run (readAllRound sizes) budget (fun s => (.error .noProgress, s.2.2)) (0, [], c)

/-- A writer that accepts everything and has nothing yet. -/
def sink : Writer where
  accept _ chunk := (chunk.length, none)

/-- Take the next message. -/
def deliver (budget : ℕ) (c : Conn F) : Mode → Except Err Delivery × Conn F
  | .read sizes =>
    match c.nextMessage with
    | (.error e, c) => (.error e, c)
    | (.ok op, c) =>
      match c.readAll budget sizes with
      | (.error e, c) => (.error e, c)
      | (.ok reads, c) => (.ok ⟨op, reads.flatten, reads⟩, c)
  | .writeTo =>
    match c.nextMessage with
    | (.error e, c) => (.error e, c)
    | (.ok op, c) =>
      match c.writeTo sink with
      | (some e, r) => (.error e, r.conn)
      | (none, r) => (.ok ⟨op, r.writer.written, []⟩, r.conn)
  | .readMessage =>
    match c.readMessage with
    | (.error e, c) => (.error e, c)
    | (.ok (op, payload), c) => (.ok ⟨op, payload, []⟩, c)

/-- Take the next messages, each in its way. -/
def deliverAll (budget : ℕ) (c : Conn F) : List Mode → List (Except Err Delivery) × Conn F
  | [] => ([], c)
  | mode :: plan =>
    ((c.deliver budget mode).1 :: ((c.deliver budget mode).2.deliverAll budget plan).1,
      ((c.deliver budget mode).2.deliverAll budget plan).2)

/-! ## One message -/

/-- Between messages, with nothing but the stream to come and `ms` in it. -/
structure Ready (c : Conn F) (ms : List WireMessage) : Prop where
  rest : c.Rest
  calm : Calm c.side none
  clean : c.side.transport.Clean
  messages : messages c.side.todo = ms

/-- Past a message the connection is ready for the next. -/
theorem Advanced.ready {c c' : Conn F} {m : WireMessage} {ms : List WireMessage}
    {out : List UInt8} (h : Advanced c m ms out c') (calm : Calm c.side none)
    (clean : c.side.transport.Clean) : c'.Ready ms := by
  obtain ⟨l, passed, place⟩ := h.passed
  have hcalm := calm.passed passed
  rw [place] at hcalm
  exact ⟨h.rest, hcalm, passed.clean clean, h.messages⟩

/-- What a mode asks of a message. -/
def Mode.Suits (mode : Mode) (s : Settings) (m : WireMessage) (out : List UInt8) : Prop :=
  match mode with
  | .read sizes => ∀ i, 0 < sizes i
  | .writeTo => True
  | .readMessage => Accepts s m out

section Deliver

variable {c₂ c : Conn F} {m : WireMessage} {ms : List WireMessage} {out : List UInt8}

theorem readAll_spec (h : Inside c₂ m ms [] c) (content : c₂.history.content F m = some out)
    {sizes : ℕ → ℕ} (hpos : ∀ i, 0 < sizes i) {budget : ℕ} (hb : out.length < budget) :
    ∃ reads c', c.readAll budget sizes = (.ok reads, c') ∧ reads.flatten = out ∧
      (∀ p ∈ reads, p ≠ []) ∧ Advanced c₂ m ms out c' := by
  refine Loop.run_spec (fun s : ℕ × List (List UInt8) × Conn F =>
      Inside c₂ m ms s.2.1.flatten s.2.2 ∧ ∀ p ∈ s.2.1, p ≠ [])
    (fun s => out.length - s.2.1.flatten.length)
    (Q := fun res : Except Err (List (List UInt8)) × Conn F => ∃ reads c', res = (.ok reads, c') ∧
      reads.flatten = out ∧ (∀ p ∈ reads, p ≠ []) ∧ Advanced c₂ m ms out c')
    ?_ ⟨h, by simp⟩ (by simpa using hb)
  rintro ⟨i, reads, c₁⟩ ⟨hin, hne⟩
  dsimp only at hin hne
  simp only [readAllRound]
  rcases read_spec hin content (hpos i) with ⟨p, c', heq, hp, hin'⟩ | ⟨c', heq, hout, hadv⟩
  · rw [heq]
    have hlen := (hin'.prefix_out content).length_le
    have hpos := List.length_pos_of_ne_nil hp
    rw [List.length_append] at hlen
    refine ⟨⟨by simpa using hin', fun q hq => ?_⟩, ?_⟩
    · rcases List.mem_append.mp hq with hq | hq
      · exact hne q hq
      · exact List.mem_singleton.mp hq ▸ hp
    · simp only [List.flatten_append, List.flatten_singleton, List.length_append]
      omega
  · rw [heq]
    exact ⟨reads, c', by simp, hout, hne, hadv⟩

/-- Whatever the way, the next message is what it says, and the connection is ready for the
messages after it. -/
theorem deliver_spec (h : c.Ready (m :: ms)) (content : c.history.content F m = some out)
    {mode : Mode} (suits : mode.Suits c.side.settings m out) {budget : ℕ}
    (hb : out.length < budget) :
    ∃ reads c', c.deliver budget mode = (.ok ⟨m.opcode, out, reads⟩, c') ∧ (∀ p ∈ reads, p ≠ []) ∧
      c'.Ready ms ∧ c'.history = c.history.next m out ∧ ∃ l, Passed c.side l c'.side := by
  obtain ⟨c₂, left, passed, hhist, -⟩ := h.rest.left
  have calm₂ : Calm c₂.side none := h.calm.passed passed
  have clean₂ := passed.clean h.clean
  have hms₂ : messages c₂.side.todo = m :: ms := by rw [← h.messages, passed.todo, List.nil_append]
  rw [← hhist] at content
  have hdone : ∀ {c'}, Advanced c₂ m ms out c' → c'.Ready ms ∧
      c'.history = c.history.next m out ∧ ∃ l, Passed c.side l c'.side := by
    intro c' hadv
    obtain ⟨l, passed', -⟩ := hadv.passed
    exact ⟨hadv.ready calm₂ clean₂, hhist ▸ hadv.history, ⟨_, passed.trans passed'⟩⟩
  -- Without errors of the transport nothing comes before the message.
  have hnext : ∃ c', c.nextMessage = (.ok m.opcode, c') ∧ Entered c₂ m ms c' := by
    rcases nextMessage_spec left calm₂ hms₂ with hin | ⟨_, _, _, stopped⟩
    · exact hin
    · exact absurd stopped.error (not_exists.mpr clean₂)
  cases mode with
  | read sizes =>
    obtain ⟨c₁, heq, entered⟩ := hnext
    obtain ⟨reads, c', hread, hflat, hne, hadv⟩ := readAll_spec entered.inside content suits hb
    exact ⟨reads, c', by simp only [deliver, heq, hread, hflat], hne, hdone hadv⟩
  | writeTo =>
    obtain ⟨c₁, heq, entered⟩ := hnext
    rcases writeTo_spec entered.inside content sink with ⟨q, r, hw, hq, hr, hadv⟩ | ⟨e, r, _, hw, -, hbad⟩
    · refine ⟨[], r.conn, ?_, by simp, hdone hadv⟩
      simp only [deliver, heq, hw]
      rw [hr, ← hq]
      rfl
    · exact absurd (fun _ _ => rfl) hbad
  | readMessage =>
    rcases readMessage_spec left calm₂ hms₂ content
      (by rw [passed.settings]; exact suits) with ⟨c', heq, hadv, -⟩ | ⟨_, _, _, stopped⟩
    · exact ⟨[], c', by simp only [deliver, heq], by simp, hdone hadv⟩
    · exact absurd stopped.error (not_exists.mpr clean₂)

end Deliver

/-! ## All messages -/

/-- Whatever the plan, the caller has what the messages say. -/
theorem deliverAll_spec {budget : ℕ} : ∀ (plan : List Mode) {c : Conn F} {ms : List WireMessage}
    {cs : List (Opcode × List UInt8)}, c.Ready ms → plan.length ≤ ms.length →
    c.history.contents F ms = some cs →
    (∀ x ∈ plan.zip (ms.zip cs), x.1.Suits c.side.settings x.2.1 x.2.2.2) →
    (∀ x ∈ cs, x.2.length < budget) →
    ∃ ds : List Delivery, (c.deliverAll budget plan).1 = ds.map .ok ∧
      ds.map (fun d => (d.opcode, d.payload)) = cs.take plan.length ∧
      (∀ d ∈ ds, ∀ p ∈ d.reads, p ≠ []) ∧ ∃ l, Passed c.side l (c.deliverAll budget plan).2.side
  | [], c, ms, cs, _, _, _, _, _ => ⟨[], rfl, rfl, by simp, [], Passed.refl _⟩
  | mode :: plan, c, ms, cs, h, hlen, hcs, suits, hb => by
    cases ms with
    | nil => simp at hlen
    | cons m ms =>
      obtain ⟨out, hout, hrest⟩ := Option.bind_eq_some_iff.mp hcs
      obtain ⟨cs', hcs', rfl⟩ := Option.map_eq_some_iff.mp hrest
      obtain ⟨reads, c', heq, hne, hready, hhist, l, passed⟩ := deliver_spec h hout
        (suits (mode, m, m.opcode, out) (by simp)) (hb _ List.mem_cons_self)
      rw [← hhist] at hcs'
      obtain ⟨ds, hds, hmap, hreads, l', passed'⟩ := deliverAll_spec plan hready
        (by simpa using hlen) hcs' (fun x hx => by
          rw [passed.settings]
          exact suits x (by simp [hx])) fun x hx => hb x (List.mem_cons_of_mem _ hx)
      refine ⟨⟨m.opcode, out, reads⟩ :: ds, ?_, ?_, ?_, l ++ l', ?_⟩
      · simp only [deliverAll, heq, hds, List.map_cons]
      · simp [hmap]
      · intro d hd
        rcases List.mem_cons.mp hd with rfl | hd
        · exact hne
        · exact hreads d hd
      · simp only [deliverAll, heq]
        exact passed.trans passed'

/-- A new connection is ready for what its transport brings. -/
theorem ready_newConn {cfg : Config} {t : Transport}
    {pool : ℕ → Option { d : Decompressor F // d.Idle }} {c : Conn F}
    (h : newConn cfg t pool = .ok c) (steady : t.Steady) (clean : t.Clean)
    (handler : ∀ calls ev, cfg.handler calls ev = none) :
    c.Ready (messages (Rules.events ⟨cfg.role, cfg.compression.isSome⟩ false t.bytes)) ∧
      c.side.direct = [] := by
  unfold newConn at h
  split_ifs at h with hv
  cases h
  refine ⟨⟨⟨⟨Receiver.coupled_init _ _, rfl, rfl⟩, rfl, rfl, rfl, fun d hd => by cases hd⟩,
    .of_clean _ steady clean handler, clean, ?_⟩, rfl⟩
  simp only [todo, Receiver.expected_init]

/-- A new connection over a transport that brings a legal stream of frames. -/
theorem ready_wire {cfg : Config} {t : Transport}
    {pool : ℕ → Option { d : Decompressor F // d.Idle }} {c : Conn F}
    (h : newConn cfg t pool = .ok c) (handler : ∀ calls ev, cfg.handler calls ev = none)
    {fs : List Frame}
    (legal : Rules.stream ⟨cfg.role, cfg.compression.isSome⟩ false fs = true) (steady : t.Steady)
    (cut : t.symbols = (wire fs).map .inl) : c.Ready (gather none fs) ∧ c.side.direct = [] := by
  have clean : t.Clean := fun e he => by simp [cut] at he
  have hbytes : t.bytes = wire fs := by
    have := Transport.filterMap_inl (wire fs) []
    rw [List.append_nil] at this
    rw [Transport.bytes, cut, this, List.filterMap_nil, List.append_nil]
  have hready := ready_newConn h steady clean handler
  rwa [hbytes, messages_wire legal] at hready

/-- A stream without compressed messages says its payloads. -/
theorem contents_plain (h : History) : ∀ ms : List WireMessage, (∀ m ∈ ms, m.compressed = false) →
    h.contents F ms = some (ms.map fun m => (m.opcode, m.payload))
  | [], _ => rfl
  | m :: ms, hm => by
    have hplain := hm m List.mem_cons_self
    have hrest := contents_plain h ms fun m hm' => hm m (List.mem_cons_of_mem _ hm')
    simp [History.contents, History.content, History.next, hplain, hrest]

end Conn

/-- The messages of frames without RSV1 are not compressed. -/
theorem plain_gather : ∀ (fs : List Frame) (cur : Option WireMessage), (∀ f ∈ fs, f.rsv1 = false) →
    (∀ w, cur = some w → w.compressed = false) → ∀ m ∈ gather cur fs, m.compressed = false
  | [], _, _, _, m, hm => by simp [gather] at hm
  | f :: fs, cur, hf, hcur, m, hm => by
    have hrest : ∀ f ∈ fs, f.rsv1 = false := fun f h => hf f (List.mem_cons_of_mem _ h)
    have hjoin : (WireMessage.join cur f).compressed = false := by
      cases cur with
      | none => exact hf f List.mem_cons_self
      | some w => exact hcur w rfl
    rw [gather] at hm
    split_ifs at hm
    · simp at hm
    · exact plain_gather fs cur hrest hcur m hm
    · rcases List.mem_cons.mp hm with rfl | hm
      · exact hjoin
      · exact plain_gather fs none hrest (by simp) m hm
    · exact plain_gather fs _ hrest (fun w hw => Option.some.inj hw ▸ hjoin) m hm

namespace Conn

variable {F : Flate}

/-- All ways to read deliver the messages of a legal stream of uncompressed frames : whatever
the sizes of the buffers, the cuts of the transport and the plan, each message comes with its
opcode and the concatenation of its frames' payloads ; no `Read` gives nothing ; and whenever
the read buffer is bypassed the decoder holds no input and no more than the rest of the frame
is read. -/
theorem deliverAll_wire (cfg : Config) (pool : ℕ → Option { d : Decompressor F // d.Idle })
    (t : Transport) {c : Conn F} (hc : newConn cfg t pool = .ok c)
    (handler : ∀ calls ev, cfg.handler calls ev = none) (fs : List Frame)
    (legal : Rules.stream ⟨cfg.role, cfg.compression.isSome⟩ false fs = true)
    (plain : ∀ f ∈ fs, f.rsv1 = false) (steady : t.Steady)
    (cut : t.symbols = (wire fs).map .inl) (plan : List Mode)
    (short : plan.length ≤ (gather none fs).length)
    (suits : ∀ x ∈ plan.zip (gather none fs), x.1.Suits c.side.settings x.2 x.2.payload)
    (budget : ℕ) (hb : ∀ m ∈ gather none fs, m.payload.length < budget) :
    ∃ ds : List Delivery, (c.deliverAll budget plan).1 = ds.map .ok ∧
      ds.map (fun d => (d.opcode, d.payload)) =
        ((gather none fs).take plan.length).map (fun m => (m.opcode, m.payload)) ∧
      (∀ d ∈ ds, ∀ p ∈ d.reads, p ≠ []) ∧
      ∀ d ∈ (c.deliverAll budget plan).2.side.direct, d.pending = 0 ∧ d.got ≤ d.remaining := by
  obtain ⟨ready, hdirect⟩ := ready_wire hc handler legal steady cut
  have hcs := contents_plain (F := F) c.history (gather none fs)
    (plain_gather fs none plain (by simp))
  have hsuits : ∀ x ∈ plan.zip ((gather none fs).zip
      ((gather none fs).map fun m => (m.opcode, m.payload))),
      x.1.Suits c.side.settings x.2.1 x.2.2.2 := by
    rw [← List.map_prod_left_eq_zip, List.zip_map_right]
    intro x hx
    obtain ⟨y, hy, rfl⟩ := List.mem_map.mp hx
    exact suits y hy
  obtain ⟨ds, hds, hmap, hreads, l, passed⟩ := deliverAll_spec plan ready short hcs hsuits
    fun x hx => by
      obtain ⟨m, hm, rfl⟩ := List.mem_map.mp hx
      exact hb m hm
  refine ⟨ds, hds, by rw [hmap, List.map_take], hreads, fun d hd => ?_⟩
  rcases passed.direct d hd with h | h
  · simp [hdirect] at h
  · exact h

/-- A text in two fragments with a ping between them, cut inside its headers, and a binary
message : the one read in portions of two bytes, the other whole. -/
theorem deliverAll_wire_two :
    ∃ c : Conn Flate.stored, newConn { role := .client }
        [.data [1], .data [1, 104, 0x89], .data [0, 0x80, 1, 105, 0x82, 1], .data [7]]
        (fun _ => none) = .ok c ∧
      ∃ ds : List Delivery, (c.deliverAll 3 [.read fun _ => 2, .readMessage]).1 = ds.map .ok ∧
        ds.map (fun d => (d.opcode, d.payload)) = [(.text, [104, 105]), (.binary, [7])] := by
  refine ⟨_, rfl, ?_⟩
  obtain ⟨ds, hds, hmap, -⟩ := deliverAll_wire (F := Flate.stored) { role := .client }
    (fun _ => none) [.data [1], .data [1, 104, 0x89], .data [0, 0x80, 1, 105, 0x82, 1], .data [7]]
    rfl (fun _ _ => rfl) [⟨false, false, .text, none, [104]⟩, ⟨true, false, .ping, none, []⟩,
      ⟨true, false, .continuation, none, [105]⟩, ⟨true, false, .binary, none, [7]⟩] (by decide)
    (by decide) (by decide) (by decide) [.read fun _ => 2, .readMessage] (by decide)
    (fun x hx => by
      have hzip : x = (.read fun _ => 2, ⟨.text, false, [104, 105]⟩) ∨
          x = (.readMessage, ⟨.binary, false, [7]⟩) := by
        simpa [WireMessage.join] using (show x ∈ [_, _] from hx)
      rcases hzip with rfl | rfl
      · exact fun _ => Nat.two_pos
      · exact ⟨by decide, by decide, fun _ h => absurd h (by decide)⟩) 3 (by decide)
  exact ⟨ds, hds, hmap⟩

end Conn

end Ews
