import Ews.ReadPaths

/-!
# The receive history under takeover

A caller may leave a message wherever it likes : after `ReadMessage`, after some calls of
`Read`, even up to the last byte without `io.EOF`, or after a `WriteTo` whose writer failed
(`Use`). `NextMessage` then discards the rest, and inflates it if later messages depend on
it. `takeAll_spec` is the run : once a message is left behind, the window holds the end of all
that the compressed messages said, and what was read whole is what the message says. Both
depend on the stream alone, so any two runs agree (`takeAll_agree`).
-/

set_option linter.unusedSectionVars false

namespace Ews

open Bytes ReadSide

namespace Conn

variable {F : Flate}

/-- One call inside a message. -/
inductive Part
  | read (n : ℕ)
  | writeTo (w : Writer)

/-- What a caller does with a message. -/
inductive Use
  | readMessage
  | parts (ps : List Part)

/-- What a caller has got of a message : the bytes, whether it has reached the end with all
of them, and whether a writer lost some. -/
structure Taken where
  opcode : Opcode
  payload : List UInt8 := []
  whole : Bool := false
  lost : Bool := false
  deriving DecidableEq, Repr

/-- One call inside a message. -/
def part : Taken × Conn F → Part → Taken × Conn F
  | (x, c), .read n =>
    match c.read n with
    | (.ok p, c) => ({ x with payload := x.payload ++ p }, c)
    | (.error e, c) => ({ x with whole := x.whole || (e = .eof && !x.lost) }, c)
  | (x, c), .writeTo w =>
    match c.writeTo w with
    | (none, r) =>
      ({ x with
          payload := x.payload ++ r.writer.written.drop w.written.length
          whole := x.whole || !x.lost }, r.conn)
    | (some _, r) => ({ x with lost := true }, r.conn)

/-- Take the next message and use it. -/
def take (c : Conn F) : Use → Except Err Taken × Conn F
  | .readMessage =>
    match c.readMessage with
    | (.error e, c) => (.error e, c)
    | (.ok (op, payload), c) => (.ok ⟨op, payload, true, false⟩, c)
  | .parts ps =>
    match c.nextMessage with
    | (.error e, c) => (.error e, c)
    | (.ok op, c) => (.ok (ps.foldl part ({ opcode := op }, c)).1, (ps.foldl part ({ opcode := op }, c)).2)

/-- Take the next messages and use them. -/
def takeAll (c : Conn F) : List Use → List (Except Err Taken) × Conn F
  | [] => ([], c)
  | u :: us => ((c.take u).1 :: ((c.take u).2.takeAll us).1, ((c.take u).2.takeAll us).2)

/-- The window once what is left of the message is discarded. -/
def windowAfter (c : Conn F) : Option Window :=
  c.discard.2.window

/-! ## One message -/

/-- In front of the messages `ms`, with the history `hist` : between messages, or inside one
that is to be discarded. -/
inductive Poised (ms : List WireMessage) (hist : History) (c : Conn F) : Prop
  | ready (ready : c.Ready ms) (history : c.history = hist)
  | inside {c₀ : Conn F} {m : WireMessage} {sofar out : List UInt8}
      (inside : Inside c₀ m ms sofar c) (content : c₀.history.content F m = some out)
      (calm : Calm c₀.side none) (clean : c₀.side.transport.Clean)
      (history : c₀.history.next m out = hist)

theorem Poised.left {ms : List WireMessage} {hist : History} {c : Conn F} (h : Poised ms hist c) :
    ∃ c₂, Left c c₂ ∧ c₂.Ready ms ∧ c₂.history = hist ∧ c₂.window = c.windowAfter ∧
      c₂.side.settings = c.side.settings := by
  cases h with
  | ready ready history =>
    obtain ⟨c₂, left, passed, hhist, -⟩ := ready.rest.left
    refine ⟨c₂, left, ⟨left.rest, ready.calm.passed passed, passed.clean ready.clean, ?_⟩,
      hhist.trans history, left.window, passed.settings⟩
    rw [← ready.messages, passed.todo, List.nil_append]
  | inside inside content calm clean history =>
    obtain ⟨c₂, left, hadv⟩ := inside.left content
    obtain ⟨p, amid⟩ := inside.amid
    obtain ⟨l, passed, -⟩ := amid.passed
    obtain ⟨l', passed', -⟩ := hadv.passed
    exact ⟨c₂, left, hadv.ready calm clean, hadv.history.trans history, left.window,
      passed'.settings.trans passed.settings.symm⟩

/-- What a use asks of a message. -/
def Use.Suits (u : Use) (s : Settings) (m : WireMessage) (out : List UInt8) : Prop :=
  match u with
  | .readMessage => Accepts s m out
  | .parts _ => True

/-- With a limit that no message exceeds, and text that is not checked, every use suits. -/
theorem suits_of_limit {s : Settings} {ms : List WireMessage} {cs : List (Opcode × List UInt8)}
    (text : s.validateUTF8 = false) (wire : ∀ m ∈ ms, m.payload.length ≤ s.limit)
    (content : ∀ y ∈ cs, y.2.length ≤ s.limit) (us : List Use) :
    ∀ x ∈ us.zip (ms.zip cs), x.1.Suits s x.2.1 x.2.2.2 := by
  rintro ⟨u, m, y⟩ hx
  obtain ⟨hm, hy⟩ := List.of_mem_zip (List.of_mem_zip hx).2
  cases u with
  | readMessage =>
    exact ⟨wire m hm, content y hy, fun hv => absurd (text.symm.trans hv) (by decide)⟩
  | parts ps => trivial

/-- Where a caller stands with the message `m` that says `out` : inside, with what it has got,
or past its end. -/
inductive Taking (c₂ : Conn F) (m : WireMessage) (ms : List WireMessage) (out : List UInt8) :
    Taken × Conn F → Prop
  | inside {x : Taken} {c : Conn F} {sofar : List UInt8} (opcode : x.opcode = m.opcode)
      (inside : Inside c₂ m ms sofar c) (unfinished : x.whole = false)
      (kept : x.lost = false → x.payload = sofar) : Taking c₂ m ms out (x, c)
  | past {x : Taken} {c : Conn F} (opcode : x.opcode = m.opcode) (advanced : Advanced c₂ m ms out c)
      (kept : x.lost = false → x.payload = out) (whole : x.whole = true → x.payload = out) :
      Taking c₂ m ms out (x, c)

section Take

variable {c₂ : Conn F} {m : WireMessage} {ms : List WireMessage} {out : List UInt8}

/-- Outside a message there is nothing to read. -/
theorem part_past {x : Taken} {c : Conn F} (opcode : x.opcode = m.opcode)
    (advanced : Advanced c₂ m ms out c) (kept : x.lost = false → x.payload = out)
    (whole : x.whole = true → x.payload = out) (p : Part) :
    Taking c₂ m ms out (part (x, c) p) := by
  have hfine := advanced.rest.fine
  have hout := advanced.rest.outside
  have hwhole : (x.whole || !x.lost) = true → x.payload = out := by
    intro hw
    rcases Bool.or_eq_true_iff.mp hw with hw | hw
    · exact whole hw
    · exact kept (by simpa using hw)
  cases p with
  | read n =>
    simp only [part, read, hfine, hout, Bool.not_false, if_true, decide_true, Bool.true_and]
    exact .past opcode advanced kept hwhole
  | writeTo w =>
    simp only [part, writeTo, hfine, hout, Bool.not_false, if_true, List.drop_length,
      List.append_nil]
    exact .past opcode advanced kept hwhole

theorem part_inside (content : c₂.history.content F m = some out) {x : Taken} {c : Conn F}
    {sofar : List UInt8} (opcode : x.opcode = m.opcode) (inside : Inside c₂ m ms sofar c)
    (unfinished : x.whole = false) (kept : x.lost = false → x.payload = sofar) (p : Part) :
    Taking c₂ m ms out (part (x, c) p) := by
  cases p with
  | read n =>
    by_cases hn : n = 0
    · obtain ⟨q, amid⟩ := inside.amid
      simp only [part, read, amid.fine, amid.inMessage, hn, Bool.not_true, Bool.false_eq_true,
        if_false, if_true, List.append_nil]
      exact .inside opcode inside unfinished kept
    · rcases read_spec inside content (Nat.pos_of_ne_zero hn) with
        ⟨q, c', heq, -, hin⟩ | ⟨c', heq, hout, hadv⟩
      · simp only [part, heq]
        exact .inside opcode hin unfinished fun hl => by rw [kept hl]
      · simp only [part, heq, unfinished, decide_true, Bool.true_and, Bool.false_or]
        exact .past opcode hadv (fun hl => (kept hl).trans hout) fun hw =>
          (kept (by simpa using hw)).trans hout
  | writeTo w =>
    rcases writeTo_spec inside content w with ⟨q, r, heq, hq, hr, hadv⟩ | ⟨e, r, sofar', heq, hin, -⟩
    · have hwritten : r.writer.written.drop w.written.length = q := by
        rw [hr, accepted, List.drop_left]
      simp only [part, heq, unfinished, Bool.false_or, hwritten]
      exact .past opcode hadv (fun hl => by rw [kept hl, hq]) fun hw => by
        rw [kept (by simpa using hw), hq]
    · simp only [part, heq]
      exact .inside opcode hin unfinished (by simp)

theorem parts_spec (content : c₂.history.content F m = some out) : ∀ (ps : List Part)
    {x : Taken × Conn F}, Taking c₂ m ms out x → Taking c₂ m ms out (ps.foldl part x)
  | [], _, h => h
  | p :: ps, x, h => by
    refine parts_spec content ps ?_
    cases h with
    | inside opcode inside unfinished kept =>
      exact part_inside content opcode inside unfinished kept p
    | past opcode advanced kept whole => exact part_past opcode advanced kept whole p

end Take

/-- However the next message is used, the connection is poised for the messages after it, and
what was read whole is what the message says. -/
theorem take_spec {c : Conn F} {m : WireMessage} {ms : List WireMessage} {hist : History}
    {out : List UInt8} (h : Poised (m :: ms) hist c) (content : hist.content F m = some out)
    {u : Use} (suits : u.Suits c.side.settings m out) :
    ∃ x c', c.take u = (.ok x, c') ∧ x.opcode = m.opcode ∧ (x.whole = true → x.payload = out) ∧
      Poised ms (hist.next m out) c' ∧ c'.side.settings = c.side.settings := by
  obtain ⟨c₂, left, ready, rfl, -, hset⟩ := h.left
  have hadv : ∀ {c'}, Advanced c₂ m ms out c' → Poised ms (c₂.history.next m out) c' ∧
      c'.side.settings = c.side.settings := by
    intro c' hadv
    obtain ⟨l, passed, -⟩ := hadv.passed
    exact ⟨.ready (hadv.ready ready.calm ready.clean) hadv.history, passed.settings.trans hset⟩
  cases u with
  | readMessage =>
    rcases readMessage_spec left ready.calm ready.messages content (by rw [hset]; exact suits) with
      ⟨c', heq, hadvd, -⟩ | ⟨_, _, _, stopped⟩
    · exact ⟨⟨m.opcode, out, true, false⟩, c', by simp only [take, heq], rfl, fun _ => rfl,
        hadv hadvd⟩
    · exact absurd stopped.error (not_exists.mpr ready.clean)
  | parts ps =>
    rcases nextMessage_spec left ready.calm ready.messages with
      ⟨c₁, heq, entered⟩ | ⟨_, _, _, stopped⟩
    · have hparts := parts_spec content ps (x := ({ opcode := m.opcode }, c₁))
        (.inside rfl entered.inside rfl fun _ => rfl)
      refine ⟨_, _, by simp only [take, heq]; rfl, ?_⟩
      generalize ps.foldl part ({ opcode := m.opcode }, c₁) = res at hparts
      cases hparts with
      | inside opcode inside unfinished kept =>
        obtain ⟨p, amid⟩ := inside.amid
        obtain ⟨l, passed, -⟩ := amid.passed
        exact ⟨opcode, fun hw => absurd (unfinished.symm.trans hw) (by decide),
          .inside inside content ready.calm ready.clean rfl, passed.settings.trans hset⟩
      | past opcode advanced kept whole => exact ⟨opcode, whole, hadv advanced⟩
    · exact absurd stopped.error (not_exists.mpr ready.clean)

/-! ## All messages -/

end Conn

/-- A message and what it says. -/
abbrev Saying := WireMessage × Opcode × List UInt8

/-- All that the compressed messages say. -/
def said (xs : List Saying) : List UInt8 :=
  xs.flatMap fun x => if x.1.compressed then x.2.2 else []

namespace History

/-- The history after messages. -/
def past (h : History) (xs : List Saying) : History :=
  xs.foldl (fun h x => h.next x.1 x.2.2) h

/-- Under takeover the history is the end of all that was said. -/
theorem past_eq : ∀ (xs : List Saying) (h : History), h.takeover = true →
    lastN h.size h.dict = h.dict →
    h.past xs = { h with dict := lastN h.size (h.dict ++ said xs) }
  | [], h, _, hd => by simp [past, said, hd]
  | x :: xs, h, ht, hd => by
    have hstep : h.past (x :: xs) = (h.next x.1 x.2.2).past xs := rfl
    cases hx : x.1.compressed with
    | true =>
      have hnext : h.next x.1 x.2.2 = { h with dict := lastN h.size (h.dict ++ x.2.2) } := by
        simp [next, hx, ht]
      have hsaid : said (x :: xs) = x.2.2 ++ said xs := by simp [said, hx]
      have hrest := past_eq xs { h with dict := lastN h.size (h.dict ++ x.2.2) } ht (lastN_lastN _ _)
      rw [hstep, hnext, hrest, hsaid]
      simp only [lastN_append_lastN, List.append_assoc]
    | false =>
      have hnext : h.next x.1 x.2.2 = h := by simp [next, hx]
      have hsaid : said (x :: xs) = said xs := by simp [said, hx]
      rw [hstep, hnext, past_eq xs h ht hd, hsaid]

end History

namespace Conn

variable {F : Flate}

/-- Whatever the uses, the caller is poised for the messages that follow, and what it read
whole is what the messages say. -/
theorem takeAll_spec : ∀ (us : List Use) {c : Conn F} {ms : List WireMessage} {hist : History}
    {cs : List (Opcode × List UInt8)}, Poised ms hist c → us.length ≤ ms.length →
    hist.contents F ms = some cs →
    (∀ x ∈ us.zip (ms.zip cs), x.1.Suits c.side.settings x.2.1 x.2.2.2) →
    ∃ xs : List Taken, (c.takeAll us).1 = xs.map .ok ∧
      (∀ (i : ℕ) (x : Taken), xs[i]? = some x → ∃ y, cs[i]? = some y ∧ x.opcode = y.1 ∧
        (x.whole = true → x.payload = y.2)) ∧
      Poised (ms.drop us.length) (hist.past ((ms.zip cs).take us.length)) (c.takeAll us).2
  | [], c, ms, hist, cs, h, _, _, _ => ⟨[], rfl, by simp, h⟩
  | u :: us, c, ms, hist, cs, h, hlen, hcs, suits => by
    cases ms with
    | nil => simp at hlen
    | cons m ms =>
      obtain ⟨out, hout, hrest⟩ := Option.bind_eq_some_iff.mp hcs
      obtain ⟨cs', hcs', rfl⟩ := Option.map_eq_some_iff.mp hrest
      obtain ⟨x, c', heq, hop, hwhole, hpoised, hset⟩ := take_spec h hout
        (suits (u, m, m.opcode, out) (by simp))
      obtain ⟨xs, hxs, hsay, hend⟩ := takeAll_spec us hpoised (by simpa using hlen) hcs'
        fun x hx => by
          rw [hset]
          exact suits x (by simp [hx])
      refine ⟨x :: xs, ?_, ?_, ?_⟩
      · simp only [takeAll, heq, hxs, List.map_cons]
      · rintro (_ | i) y hy
        · obtain rfl : x = y := by simpa using hy
          exact ⟨(m.opcode, out), rfl, hop, hwhole⟩
        · exact hsay i y (by simpa using hy)
      · simp only [takeAll, heq]
        exact hend

theorem Poised.dict {ms : List WireMessage} {hist : History} {c : Conn F}
    (h : Poised ms hist c) : Window.dictOf c.windowAfter = hist.dict := by
  obtain ⟨c₂, -, -, hhist, hwindow, -⟩ := h.left
  rw [← hwindow, ← hhist]
  rfl

/-- The history of a new connection with takeover. -/
theorem history_newConn {cfg : Config} {t : Transport}
    {pool : ℕ → Option { d : Decompressor F // d.Idle }} {c : Conn F}
    (h : newConn cfg t pool = .ok c) {comp : Compression} (hcomp : cfg.compression = some comp)
    (takeover : comp.receiveContextTakeover = true) :
    c.history = ⟨Window.size { bits := comp.receiveWindowBits }, true, []⟩ := by
  unfold newConn at h
  split_ifs at h with hv
  cases h
  simp [history, hcomp, Config.window, takeover, Window.dictOf, Window.dict]

/-- One run over a legal stream of frames. -/
theorem takeAll_wire {cfg : Config} {t : Transport}
    {pool : ℕ → Option { d : Decompressor F // d.Idle }} {c : Conn F}
    (hc : newConn cfg t pool = .ok c) (handler : ∀ calls ev, cfg.handler calls ev = none)
    {comp : Compression} (hcomp : cfg.compression = some comp)
    (takeover : comp.receiveContextTakeover = true) {fs : List Frame}
    (legal : Rules.stream ⟨cfg.role, true⟩ false fs = true) (steady : t.Steady)
    (cut : t.symbols = (wire fs).map .inl) {cs : List (Opcode × List UInt8)}
    (means : History.contents F ⟨Window.size { bits := comp.receiveWindowBits }, true, []⟩
      (gather none fs) = some cs) {us : List Use} (short : us.length ≤ (gather none fs).length)
    (suits : ∀ x ∈ us.zip ((gather none fs).zip cs), x.1.Suits c.side.settings x.2.1 x.2.2.2) :
    ∃ xs : List Taken, (c.takeAll us).1 = xs.map .ok ∧
      (∀ (i : ℕ) (x : Taken), xs[i]? = some x → ∃ y, cs[i]? = some y ∧ x.opcode = y.1 ∧
        (x.whole = true → x.payload = y.2)) ∧
      Window.dictOf (c.takeAll us).2.windowAfter =
        lastN (Window.size { bits := comp.receiveWindowBits })
          (said (((gather none fs).zip cs).take us.length)) := by
  have hlegal : Rules.stream ⟨cfg.role, cfg.compression.isSome⟩ false fs = true := by
    rwa [hcomp]
  obtain ⟨ready, -⟩ := ready_wire hc handler hlegal steady cut
  have hhist := history_newConn hc hcomp takeover
  obtain ⟨xs, hxs, hsay, hend⟩ := takeAll_spec us (.ready ready hhist) short means suits
  refine ⟨xs, hxs, hsay, ?_⟩
  rw [hend.dict, History.past_eq _ _ rfl (by simp)]
  rfl

/-- How a message is used does not matter to later ones : in any two runs over the same stream
of messages, each compressed after the history of those before it or plain, the window after
the same number of messages is the end of all that the compressed ones say, and a message
that both have read whole is the same in both. -/
theorem takeAll_agree (cfg cfg' : Config) (role : cfg'.role = cfg.role) (comp : Compression)
    (hcomp : cfg.compression = some comp) (hcomp' : cfg'.compression = some comp)
    (takeover : comp.receiveContextTakeover = true)
    (handler : ∀ calls ev, cfg.handler calls ev = none)
    (handler' : ∀ calls ev, cfg'.handler calls ev = none) (fs : List Frame)
    (legal : Rules.stream ⟨cfg.role, true⟩ false fs = true) (cs : List (Opcode × List UInt8))
    (means : History.contents F ⟨Window.size { bits := comp.receiveWindowBits }, true, []⟩
      (gather none fs) = some cs)
    (t t' : Transport) (steady : t.Steady) (steady' : t'.Steady)
    (cut : t.symbols = (wire fs).map .inl) (cut' : t'.symbols = (wire fs).map .inl)
    (pool pool' : ℕ → Option { d : Decompressor F // d.Idle }) {c c' : Conn F}
    (hc : newConn cfg t pool = .ok c) (hc' : newConn cfg' t' pool' = .ok c') (us us' : List Use)
    (same : us'.length = us.length) (short : us.length ≤ (gather none fs).length)
    (suits : ∀ x ∈ us.zip ((gather none fs).zip cs), x.1.Suits c.side.settings x.2.1 x.2.2.2)
    (suits' : ∀ x ∈ us'.zip ((gather none fs).zip cs),
      x.1.Suits c'.side.settings x.2.1 x.2.2.2) :
    Window.dictOf (c.takeAll us).2.windowAfter =
        lastN (Window.size { bits := comp.receiveWindowBits })
          (said (((gather none fs).zip cs).take us.length)) ∧
      Window.dictOf (c'.takeAll us').2.windowAfter =
        lastN (Window.size { bits := comp.receiveWindowBits })
          (said (((gather none fs).zip cs).take us.length)) ∧
      ∃ xs xs' : List Taken, (c.takeAll us).1 = xs.map .ok ∧ (c'.takeAll us').1 = xs'.map .ok ∧
        ∀ (i : ℕ) (x x' : Taken), xs[i]? = some x → xs'[i]? = some x' → x.whole = true →
          x'.whole = true → x'.opcode = x.opcode ∧ x'.payload = x.payload := by
  obtain ⟨xs, hxs, hsay, hdict⟩ := takeAll_wire hc handler hcomp takeover legal steady cut means
    short suits
  obtain ⟨xs', hxs', hsay', hdict'⟩ := takeAll_wire hc' handler' hcomp' takeover
    (by rwa [role]) steady' cut' means (by rwa [same]) suits'
  rw [same] at hdict'
  refine ⟨hdict, hdict', xs, xs', hxs, hxs', fun i x x' hx hx' hw hw' => ?_⟩
  obtain ⟨y, hy, hop, hp⟩ := hsay i x hx
  obtain ⟨y', hy', hop', hp'⟩ := hsay' i x' hx'
  obtain rfl : y' = y := Option.some.inj (hy'.symm.trans hy)
  exact ⟨hop'.trans hop.symm, (hp' hw').trans (hp hw).symm⟩

/-- Two compressed messages : one run reads both whole, the other takes a byte of the first and
moves on. -/
theorem takeAll_agree_stored :
    ∃ c c' : Conn Flate.stored,
      newConn { role := .client, compression := some { receiveContextTakeover := true } }
        [.data [0xc1, 8, 0, 2, 0, 0xfd, 0xff, 104, 105, 0],
          .data [0xc1, 7, 0, 1, 0, 0xfe, 0xff, 106, 0]] (fun _ => none) = .ok c ∧
      newConn { role := .client, compression := some { receiveContextTakeover := true } }
        [.data [0xc1, 8, 0, 2, 0, 0xfd], .data [0xff, 104, 105, 0, 0xc1],
          .data [7, 0, 1, 0, 0xfe, 0xff, 106, 0]] (fun _ => none) = .ok c' ∧
      Window.dictOf (c.takeAll [.readMessage, .readMessage]).2.windowAfter = [104, 105, 106] ∧
      Window.dictOf (c'.takeAll [.parts [.read 1], .readMessage]).2.windowAfter =
        [104, 105, 106] := by
  refine ⟨_, _, rfl, rfl, ?_⟩
  have h := takeAll_agree (F := Flate.stored)
    { role := .client, compression := some { receiveContextTakeover := true } }
    { role := .client, compression := some { receiveContextTakeover := true } } rfl
    { receiveContextTakeover := true } rfl rfl rfl (fun _ _ => rfl) (fun _ _ => rfl)
    [⟨true, true, .text, none, [0, 2, 0, 0xfd, 0xff, 104, 105, 0]⟩,
      ⟨true, true, .text, none, [0, 1, 0, 0xfe, 0xff, 106, 0]⟩] (by decide)
    [(.text, [104, 105]), (.text, [106])] (by decide)
    [.data [0xc1, 8, 0, 2, 0, 0xfd, 0xff, 104, 105, 0],
      .data [0xc1, 7, 0, 1, 0, 0xfe, 0xff, 106, 0]]
    [.data [0xc1, 8, 0, 2, 0, 0xfd], .data [0xff, 104, 105, 0, 0xc1],
      .data [7, 0, 1, 0, 0xfe, 0xff, 106, 0]]
    (by decide) (by decide) (by decide) (by decide) (fun _ => none) (fun _ => none) rfl rfl
    [.readMessage, .readMessage] [.parts [.read 1], .readMessage] rfl (by decide)
    (suits_of_limit rfl (by decide) (by decide) _) (suits_of_limit rfl (by decide) (by decide) _)
  exact ⟨h.1.trans (by decide), h.2.1.trans (by decide)⟩

end Conn

end Ews
