import Ews.Retry

/-!
# A connection as a tunnel

`ws/netconn.go`, the reading half of `NetConn` : `Read` delivers the payloads of messages of one
type in order, as a stream. A caller that calls `Read` again after every error of the transport
receives them all (`NetConn.reads_tunnel`), wherever the errors come, as long as none of them is an
`*Error` or a `*CloseError` itself (`NetConn.reads_closed`).
-/

set_option linter.unusedSectionVars false

namespace Ews

open ReadSide

/-- `errors.AsType[*CloseError]`, which looks inside an `*Error` : the code. -/
def Err.asClose : Err → Option ℕ
  | .closed code _ => some code
  | .failure _ cause => cause.asClose
  | _ => none

/-- `errors.AsType[*Error]`. -/
def Err.isError : Err → Bool
  | .failure _ _ => true
  | _ => false

/-- An error that `readErr` passes on and forgets. -/
def Err.passes (e : Err) : Bool :=
  e.asClose.isNone && !e.isError

/-- A close code that reads as `io.EOF`. -/
def normalClose (code : ℕ) : Prop :=
  code = 1000 ∨ code = 1001 ∨ code = noStatus

instance (code : ℕ) : Decidable (normalClose code) :=
  inferInstanceAs (Decidable (_ ∨ _ ∨ _))

/-! ## `NetConn` -/

/-- `netConn`. `closed` records the codes `Read` has called `Close` with. -/
structure NetConn (F : Flate) where
  conn : Conn F
  op : Opcode
  inMsg : Bool := false
  err : Option Err := none
  closed : List ℕ := []

namespace NetConn

variable {F : Flate}

/-- `readErr`. -/
def readErr (nc : NetConn F) (e : Err) : Err × NetConn F :=
  match e.asClose with
  | some code =>
    let e := if normalClose code then .eof else e
    (e, { nc with err := some e })
  | none => (e, if e.isError then { nc with err := some e } else nc)

/-- The end of a round of `Read` : a chunk of the message that is open. -/
def readChunk (n : ℕ) (nc : NetConn F) : NetConn F ⊕ Except Err (List UInt8) × NetConn F :=
  match nc.conn.read n with
  | (.ok p, c) => .inr (.ok p, { nc with conn := c })
  | (.error e, c) =>
    if e = .eof then .inl { nc with conn := c, inMsg := false }
    else
      let (e, nc) := { nc with conn := c }.readErr e
      .inr (.error e, nc)

/-- One round of `Read`. -/
def readRound (n : ℕ) (nc : NetConn F) : NetConn F ⊕ Except Err (List UInt8) × NetConn F :=
  if !nc.inMsg then
    match nc.conn.nextMessage with
    | (.error e, c) =>
      let (e, nc) := { nc with conn := c }.readErr e
      .inr (.error e, nc)
    | (.ok op, c) =>
      if op ≠ nc.op then
        .inr (.error .unexpectedType, { nc with
          conn := c, err := some .unexpectedType, closed := nc.closed ++ [1003] })
      else { nc with conn := c, inMsg := true }.readChunk n
  else nc.readChunk n

/-- `Read` : the bytes put into a buffer of `n`, or the error. -/
def read (nc : NetConn F) (n : ℕ) : Except Err (List UInt8) × NetConn F :=
  match nc.err with
  | some e => (.error e, nc)
  | none =>
    if n = 0 then (.ok [], nc)
    else
      Loop.run (readRound n) (2 * nc.conn.side.effort + 2) (fun nc => (.error .noProgress, nc)) nc

/-- The connection after `i` calls of `Read`, with buffers of the given sizes. -/
def after (nc : NetConn F) (sizes : ℕ → ℕ) : ℕ → NetConn F
  | 0 => nc
  | i + 1 => ((nc.after sizes i).read (sizes i)).2

/-- What the call `i` gives. -/
def result (nc : NetConn F) (sizes : ℕ → ℕ) (i : ℕ) : Except Err (List UInt8) :=
  ((nc.after sizes i).read (sizes i)).1

/-- The chunks that the first `i` calls give. -/
def received (nc : NetConn F) (sizes : ℕ → ℕ) (i : ℕ) : List (List UInt8) :=
  (List.range i).filterMap fun j => (nc.result sizes j).toOption

end NetConn

/-! ## Streams that end with a close -/

namespace ReadSide

/-- What comes to a reader at `cur` : complete messages, then a close that reads as `io.EOF`. An
error of the transport that comes before a byte is not `io.EOF`, and `readErr` passes it on. -/
structure Flows (s : ReadSide) (cur : Option Cursor) : Prop where
  handler : ∀ calls ev, s.settings.handler calls ev = none
  whole : whole cur s.todo = true
  close : ∃ es p, s.todo = es ++ [.control .close p] ∧ normalClose (parseClose p).1
  errors : ∀ pre e post, s.transport.symbols = pre ++ .inr e :: post → (∃ b, .inl b ∈ post) →
    e ≠ .eof ∧ e.passes = true

variable {s s' : ReadSide} {cur : Option Cursor} {l : List Event}

/-- Past events other than the close. -/
theorem Flows.passed (h : Flows s cur) (passed : Passed s l s')
    (hl : ∀ q, .control .close q ∉ l) : Flows s' (stand cur l) where
  handler := by rw [passed.settings]; exact h.handler
  whole := by
    have hwhole := h.whole
    rw [passed.todo] at hwhole
    exact whole_append l hwhole
  close := by
    obtain ⟨es, p, htodo, hcode⟩ := h.close
    rw [passed.todo] at htodo
    rcases List.eq_nil_or_concat s'.todo with hnil | ⟨es', e, hlast⟩
    · rw [hnil, List.append_nil] at htodo
      exact absurd (by rw [htodo]; simp) (hl p)
    · rw [List.concat_eq_append] at hlast
      rw [hlast, ← List.append_assoc] at htodo
      obtain ⟨-, heq⟩ := List.append_inj' htodo rfl
      exact ⟨es', p, by rw [hlast, heq], hcode⟩
  errors := by
    obtain ⟨bs, hs, -⟩ := passed.input
    intro pre e post hsym hbyte
    exact h.errors (bs.map .inl ++ pre) e post (by rw [hs, hsym, List.append_assoc]) hbyte

/-- Where the transport gives no byte, its error is passed on and the rest is still to come. -/
theorem Flows.blocked (h : Flows s cur) (dry : s.rx.expected [] = []) {e : Err} {t : Transport}
    (blocked : s.transport.Blocked s.rx.idle e t) :
    Flows { s with transport := t } cur ∧ ReadSide.todo { s with transport := t } = s.todo ∧
      ReadSide.effort { s with transport := t } < s.effort ∧ e ≠ .eof ∧ e.passes = true := by
  obtain ⟨es, p, htodo, hcode⟩ := h.close
  have hmore : s.transport.bytes ≠ [] := by
    intro hnil
    rw [todo, hnil, dry] at htodo
    exact absurd htodo (by simp)
  have hflows : ∀ pre : List (UInt8 ⊕ Err), s.transport.symbols = pre ++ t.symbols →
      ReadSide.todo { s with transport := t } = s.todo → Flows { s with transport := t } cur := by
    intro pre hsym hsame
    refine ⟨h.handler, by rw [hsame]; exact h.whole, by rw [hsame]; exact h.close, ?_⟩
    intro pre' e' post hsym' hbyte
    exact h.errors (pre ++ pre') e' post (by
      rw [hsym, show t.symbols = _ from hsym', List.append_assoc]) hbyte
  cases blocked with
  | ended symbols => exact absurd (by rw [Transport.bytes, symbols]; rfl) hmore
  | @err e t symbols weight steady =>
    have hsame := todo_err symbols
    have hbyte : ∃ b, .inl b ∈ t.symbols := by
      rw [Transport.bytes, symbols] at hmore
      obtain ⟨b, hb⟩ := List.exists_mem_of_ne_nil _ hmore
      obtain ⟨x, hx, hxb⟩ := List.mem_filterMap.mp hb
      cases x with
      | inl b' => exact ⟨b', by simpa using hx⟩
      | inr e' => cases hxb
    obtain ⟨heof, hpass⟩ := h.errors [] e t.symbols symbols hbyte
    refine ⟨hflows [.inr e] symbols hsame, hsame, ?_, ?_⟩
    · simp only [effort]
      omega
    · rw [if_neg fun he => heof he.1]
      exact ⟨heof, hpass⟩
  | stalled symbols weight unsteady =>
    have hsame : ReadSide.todo { s with transport := t } = s.todo := by
      rw [todo, todo, Transport.bytes, Transport.bytes, symbols]
    refine ⟨hflows [] symbols hsame, hsame, ?_, by simp, rfl⟩
    simp only [effort]
    omega

/-- What is still to be done : the reads, the input and the events to come. -/
def load (s : ReadSide) : ℕ :=
  s.effort + s.todo.length

/-- Inside the message `m` with `p` of its payload behind the reader, and `ms` to follow. -/
structure Midway (s : ReadSide) (m : WireMessage) (ms : List WireMessage) (p : List UInt8) : Prop
    where
  inMessage : s.inMessage = true
  fine : s.readErr = none
  coupled : s.rx.Coupled
  live : s.rx.dead = false
  compressed : s.rx.compressed = m.compressed
  flows : Flows s s.cursor.place
  emit : emit { m with payload := p } s.cursor s.todo = m :: ms

variable {m : WireMessage} {ms : List WireMessage} {p q : List UInt8}

theorem Midway.within (h : Midway s m ms p) (within : Within s l q s') :
    Midway s' m ms (p ++ q) where
  inMessage := within.inMessage.trans h.inMessage
  fine := within.readErr.trans h.fine
  coupled := within.coupled
  live := within.live
  compressed := within.compressed.trans h.compressed
  flows := by
    have hflows := h.flows.passed within.toWent.passed fun q hq =>
      (scan_mem within.scan hq).2 q rfl
    rwa [stand_scan _ within.scan] at hflows
  emit := (within.emit _).symm.trans h.emit

theorem scan_length : ∀ (es : List Event) {k k' : Cursor} {p : List UInt8},
    scan k es = some (p, k') → p.length ≤ es.length
  | [], k, k', p, h => by
    obtain ⟨rfl, -⟩ := Prod.mk.inj (Option.some.inj h)
    exact le_rfl
  | .byte b :: es, k, k', p, h => by
    simp only [scan] at h
    split_ifs at h
    obtain ⟨x, hx, hxe⟩ := Option.map_eq_some_iff.mp h
    obtain ⟨rfl, rfl⟩ := Prod.mk.inj hxe
    exact Nat.succ_le_succ (scan_length es hx)
  | .control op q :: es, k, k', p, h => by
    simp only [scan] at h
    split_ifs at h
    exact (scan_length es h).trans (Nat.le_succ _)
  | .data final rsv1 op length :: es, k, k', p, h => by
    simp only [scan] at h
    split_ifs at h
    exact (scan_length es h).trans (Nat.le_succ _)
  | .fail code :: es, k, k', p, h => by simp [scan] at h

theorem Within.load (within : Within s l q s') : s'.load + q.length ≤ s.load := by
  have hlength := scan_length l within.scan
  have heffort := within.effort
  rw [ReadSide.load, ReadSide.load, within.toWent.todo, List.length_append]
  omega

/-- A stop inside a message leaves the reader there. -/
theorem Midway.broke (h : Midway s m ms p) {e : Err} (broke : Broke s [] e s') :
    Midway s' m ms p ∧ s'.load < s.load ∧ e ≠ .eof ∧ e.passes = true := by
  obtain ⟨stop, hscan, incomplete, place⟩ := broke
  have hwhole := h.flows.whole
  cases stop with
  | blocked went live dry blocked =>
    obtain ⟨hcursor, hcompressed⟩ := place live
    have hflows := h.flows.passed went.passed fun q hq => (scan_mem hscan hq).2 q rfl
    rw [stand_scan _ hscan, ← hcursor] at hflows
    obtain ⟨hflows', hsame, heffort, hpass⟩ := hflows.blocked dry blocked
    refine ⟨⟨went.inMessage.trans h.inMessage, went.readErr.trans h.fine, went.coupled, live,
      hcompressed.trans h.compressed, hflows', ?_⟩, ?_, hpass⟩
    · rw [hsame]
      have hemit := h.emit
      rw [went.todo, emit_scan _ _ _ _ hscan, List.append_nil, ← hcursor] at hemit
      exact hemit
    · have := went.effort
      rw [ReadSide.load, ReadSide.load, hsame, went.todo, List.length_append]
      omega
  | failed went dead =>
    rw [went.todo, List.append_assoc] at hwhole
    have := whole_append _ hwhole
    generalize stand s.cursor.place _ = cur at this
    cases cur <;> simp [Ews.whole] at this
  | refused went call answer =>
    exact absurd (answer.symm.trans (h.flows.handler _ _)) (by simp)
  | closed went dead answer =>
    rw [went.todo, List.append_assoc] at hwhole
    have := whole_append _ hwhole
    rw [stand_scan _ hscan, Cursor.place_of_not_ended incomplete] at this
    simp [Ews.whole] at this

/-- The outcomes of `Read` in a message of such a stream. -/
inductive MidwayRead (s : ReadSide) (m : WireMessage) (ms : List WireMessage) (p : List UInt8)
    (n : ℕ) : Except Err (List UInt8) × ReadSide → Prop
  | chunk {q : List UInt8} {s' : ReadSide} (nonempty : q ≠ []) (length : q.length ≤ n)
      (midway : Midway s' m ms (p ++ q)) (effort : s'.effort ≤ s.effort) (less : s'.load < s.load) :
      MidwayRead s m ms p n (.ok q, s')
  | ended {s' : ReadSide} (midway : Midway s' m ms p) (ended : s'.cursor.ended = true)
      (effort : s'.effort ≤ s.effort) (load : s'.load ≤ s.load) :
      MidwayRead s m ms p n (.error .eof, { s' with inMessage := false })
  | passed {e : Err} {s' : ReadSide} (midway : Midway s' m ms p) (less : s'.load < s.load)
      (ne_eof : e ≠ .eof) (passes : e.passes = true) : MidwayRead s m ms p n (.error e, s')

theorem Midway.readPlain (h : Midway s m ms p) {n : ℕ} (hn : 0 < n) :
    MidwayRead s m ms p n (s.readPlain n) := by
  have hread := readPlain_spec h.coupled h.live hn
  generalize s.readPlain n = out at hread
  cases hread with
  | chunk nonempty length within =>
    have hload := within.load
    have hlen := List.length_pos_of_ne_nil nonempty
    exact .chunk nonempty length (h.within within) within.effort (by omega)
  | ended within ended =>
    have hmid := h.within within
    rw [List.append_nil] at hmid
    exact .ended hmid ended within.effort within.load
  | broke broke =>
    obtain ⟨hmid, hless, hne, hpass⟩ := h.broke broke
    exact .passed hmid hless hne hpass

end ReadSide

namespace NetConn

variable {F : Flate} {nc : NetConn F} {rs : List (List UInt8)}

/-! ## One call -/

/-- What the caller is still to receive : the rest of the message that is open and the messages
after it, or the messages to come. -/
inductive Stands (nc : NetConn F) : List (List UInt8) → Prop
  | between {ms : List WireMessage} (fine : nc.err = none) (out : nc.inMsg = false)
      (rest : nc.conn.Rest) (flows : nc.conn.side.Flows none)
      (messages : messages nc.conn.side.todo = ms)
      (kind : ∀ m ∈ ms, m.opcode = nc.op ∧ m.compressed = false) :
      Stands nc (ms.map WireMessage.payload)
  | inside {m : WireMessage} {ms : List WireMessage} {p r : List UInt8} (fine : nc.err = none)
      (inMsg : nc.inMsg = true) (midway : nc.conn.side.Midway m ms p)
      (payload : m.payload = p ++ r) (dec : nc.conn.dec = none) (plain : m.compressed = false)
      (kind : ∀ m ∈ ms, m.opcode = nc.op ∧ m.compressed = false) :
      Stands nc (r :: ms.map WireMessage.payload)

/-- The outcomes of a round that reads from the message that is open, with `r` of it to come : a
chunk, the end of the message, or an error of the transport. -/
inductive ChunkStep (nc : NetConn F) (r : List UInt8) (rs : List (List UInt8)) (n : ℕ) :
    NetConn F ⊕ Except Err (List UInt8) × NetConn F → Prop
  | chunk {p r' : List UInt8} {nc' : NetConn F} (nonempty : p ≠ []) (length : p.length ≤ n)
      (split : r = p ++ r') (stands : nc'.Stands (r' :: rs))
      (less : nc'.conn.side.load < nc.conn.side.load) : ChunkStep nc r rs n (.inr (.ok p, nc'))
  | ended {nc' : NetConn F} (empty : r = []) (stands : nc'.Stands rs) (out : nc'.inMsg = false)
      (effort : nc'.conn.side.effort ≤ nc.conn.side.effort)
      (load : nc'.conn.side.load ≤ nc.conn.side.load) : ChunkStep nc r rs n (.inl nc')
  | passed {e : Err} {nc' : NetConn F} (ne_eof : e ≠ .eof) (stands : nc'.Stands (r :: rs))
      (less : nc'.conn.side.load < nc.conn.side.load) : ChunkStep nc r rs n (.inr (.error e, nc'))

theorem readErr_passes {e : Err} (h : e.passes = true) (nc : NetConn F) :
    nc.readErr e = (e, nc) := by
  simp only [Err.passes, Bool.and_eq_true, Option.isNone_iff_eq_none, Bool.not_eq_true'] at h
  simp [readErr, h.1, h.2]

theorem Stands.readChunk {r : List UInt8} (h : nc.Stands (r :: rs)) (inMsg : nc.inMsg = true)
    {n : ℕ} (hn : 0 < n) : ChunkStep nc r rs n (nc.readChunk n) := by
  generalize hrs : r :: rs = rs' at h
  cases h with
  | between fine out => exact absurd (inMsg.symm.trans out) (by decide)
  | @inside m ms p r fine inMsg midway payload dec plain kind =>
    obtain ⟨rfl, rfl⟩ := List.cons.inj hrs
    have hcompressed : nc.conn.side.rx.compressed = false := midway.compressed.trans plain
    have hread : nc.conn.read n = ((nc.conn.side.readPlain n).1,
        { nc.conn with side := (nc.conn.side.readPlain n).2 }) := by
      simp [Conn.read, midway.fine, midway.inMessage, hcompressed, Nat.pos_iff_ne_zero.mp hn]
    have hplain := midway.readPlain hn
    rw [NetConn.readChunk, hread]
    generalize nc.conn.side.readPlain n = out at hplain
    cases hplain with
    | chunk nonempty length midway' effort less =>
      obtain ⟨-, -, ⟨r', hr'⟩, -⟩ := emit_cons _ midway'.emit
      have hsplit : m.payload = p ++ _ ++ r' := hr'.symm
      refine .chunk nonempty length ?_ (.inside fine inMsg midway' hsplit dec plain kind) less
      rw [payload, List.append_assoc] at hsplit
      exact List.append_cancel_left hsplit
    | @ended s midway' ended effort load =>
      have hemit := midway'.emit
      rw [emit_ended ended] at hemit
      obtain ⟨hm, hms⟩ := List.cons.inj hemit
      have hr : r = [] := by
        have hp : p = m.payload := congrArg WireMessage.payload hm
        rw [← hp] at payload
        simpa using payload
      have hflows := midway'.flows
      rw [Cursor.place_of_ended ended] at hflows
      obtain ⟨hdrained, hshut⟩ := cursor_ended.mp ended
      have hrest : Conn.Rest { nc.conn with side := { s with inMessage := false } } :=
        ⟨⟨midway'.coupled, midway'.live, hdrained⟩, hshut, rfl, midway'.fine, fun d hd =>
          absurd (dec.symm.trans hd) (by simp)⟩
      dsimp only
      rw [if_pos rfl]
      exact .ended hr (.between fine rfl hrest
        ⟨hflows.handler, hflows.whole, hflows.close, hflows.errors⟩ hms kind) rfl effort load
    | passed midway' less ne_eof passes =>
      dsimp only
      rw [if_neg ne_eof, readErr_passes passes]
      exact .passed ne_eof (.inside fine inMsg midway' payload dec plain kind) less

/-- The outcomes of `NextMessage` : it is in the next message, it gives an error of the transport,
or there is no message and the peer has closed. -/
inductive EnterStep (nc : NetConn F) (rs : List (List UInt8)) : Except Err Opcode × Conn F → Prop
  | entered {c : Conn F} {r : List UInt8} {rs' : List (List UInt8)} (split : rs = r :: rs')
      (stands : Stands { nc with conn := c, inMsg := true } rs)
      (effort : c.side.effort < nc.conn.side.effort) (load : c.side.load ≤ nc.conn.side.load) :
      EnterStep nc rs (.ok nc.op, c)
  | passed {e : Err} {c : Conn F} (ne_eof : e ≠ .eof) (passes : e.passes = true)
      (stands : Stands { nc with conn := c } rs) (less : c.side.load < nc.conn.side.load) :
      EnterStep nc rs (.error e, c)
  | closed {c : Conn F} {code : ℕ} {reason : List UInt8} (none : rs = [])
      (normal : normalClose code) : EnterStep nc rs (.error (.closed code reason), c)

theorem Stands.nextMessage (h : nc.Stands rs) (out : nc.inMsg = false) :
    EnterStep nc rs nc.conn.nextMessage := by
  cases h with
  | inside fine inMsg => exact absurd (inMsg.symm.trans out) (by decide)
  | @between ms fine _ rest flows messages kind =>
    obtain ⟨c₂, left, passed, -, heff⟩ := rest.left
    have htodo : nc.conn.side.todo = c₂.side.todo := by rw [passed.todo, List.nil_append]
    have hload : c₂.side.load = nc.conn.side.load := by rw [load, load, heff, htodo]
    have hflows : c₂.side.Flows none := flows.passed passed fun q hq => by cases hq
    have hwhole := hflows.whole
    have hframe := nextFrame_spec left.rest.between
    rw [htodo] at messages
    rw [left.nextMessage, Conn.enter]
    generalize c₂.side.nextFrame = out at hframe
    obtain ⟨res, s⟩ := out
    cases hframe with
    | @data l s pings went opened less =>
      have hcursor : s.cursor = ⟨s.rx.header.payloadLen, s.rx.header.final⟩ := cursor_opened opened
      have hplace : stand none (l ++ [headEvent s.rx.header]) = s.cursor.place := by
        rw [stand_append, stand_pings none l pings, hcursor]
        rfl
      have hflows' := hflows.passed went.passed fun q hq => by
        rcases List.mem_append.mp hq with hq | hq
        · exact pings _ hq rfl
        · cases List.mem_singleton.mp hq
      rw [hplace] at hflows'
      have hemit : emit ⟨s.rx.header.opcode, s.rx.header.rsv1, []⟩ s.cursor s.todo = ms := by
        rw [← messages, went.todo, List.append_assoc, messages_pings _ _ pings,
          List.singleton_append, headEvent, messages_data, hcursor]
      cases ms with
      | nil => exact absurd hemit (emit_whole _ _ _ hflows'.whole)
      | cons m ms =>
        obtain ⟨hop, hcomp, -, -⟩ := emit_cons _ hemit
        obtain ⟨hkind, hplain⟩ := kind m List.mem_cons_self
        have hcompressed : s.rx.compressed = m.compressed := by
          rcases opened.starts with hs | hs
          · exact absurd (hs.2.1.symm.trans left.rest.shut) (by decide)
          · exact hs.2.2.trans hcomp.symm
        have hmid : Midway { s with inMessage := true } m ms [] := by
          refine ⟨rfl, went.readErr.trans left.rest.fine, went.coupled, opened.live, hcompressed,
            ⟨hflows'.handler, hflows'.whole, hflows'.close, hflows'.errors⟩, ?_⟩
          dsimp only at hop hcomp
          rw [← hop, ← hcomp] at hemit
          exact hemit
        have hloads : s.load ≤ nc.conn.side.load := by
          have heffort : s.effort < c₂.side.effort := less
          rw [← hload, ReadSide.load, ReadSide.load, went.todo, List.length_append]
          dsimp only
          omega
        dsimp only at hop ⊢
        rw [← hop, hkind]
        exact .entered rfl (.inside fine rfl hmid rfl left.dec hplain fun m' hm' =>
          kind m' (List.mem_cons_of_mem _ hm')) (heff ▸ less) hloads
    | @stop l c₁ s e pings between stop =>
      cases stop with
      | @blocked _ t went live dry blocked =>
        obtain ⟨hbetween, same⟩ := between live
        have hflows' := hflows.passed went.passed fun q hq => pings _ hq rfl
        rw [stand_pings none l pings] at hflows'
        obtain ⟨hflows'', hsame, heffort, hne, hpass⟩ := hflows'.blocked dry blocked
        have hrest : Conn.Rest { c₂ with side := { c₁ with transport := t } } :=
          ⟨⟨hbetween.coupled, hbetween.live, hbetween.drained⟩,
            same.messageOpen.trans left.rest.shut, went.inMessage.trans left.rest.outside,
            went.readErr.trans left.rest.fine, left.rest.dec⟩
        have hms : Ews.messages (ReadSide.todo { c₁ with transport := t }) = ms := by
          rw [hsame, ← messages, went.todo, messages_pings _ _ pings]
        refine .passed hne hpass (.between fine out hrest hflows'' hms kind) ?_
        have := went.effort
        rw [← hload, ReadSide.load, ReadSide.load, hsame, went.todo, List.length_append]
        dsimp only
        omega
      | failed went dead =>
        rw [went.todo, List.append_assoc, whole_pings none l _ pings] at hwhole
        cases hwhole
      | refused went call answer => exact absurd (answer.symm.trans (hflows.handler _ _)) (by simp)
      | @closed p went dead answer =>
        rw [went.todo, List.append_assoc] at messages hwhole
        rw [messages_pings _ _ pings] at messages
        rw [whole_pings none l _ pings] at hwhole
        have hlast : c₁.todo = [] := by
          simpa [Ews.whole] using hwhole
        obtain ⟨es, p', htodo', hcode⟩ := hflows.close
        rw [went.todo, hlast, List.append_nil] at htodo'
        obtain ⟨-, heq⟩ := List.append_inj' htodo' rfl
        have hp : p = p' := by simpa using heq
        exact .closed (by rw [← messages]; rfl) (hp ▸ hcode)

/-- The outcomes of `Read` with `rs` to come : past messages that are empty or ended, a chunk of the
next, an error of the transport, or the end. -/
inductive NetRead (nc : NetConn F) (rs : List (List UInt8)) (n : ℕ) :
    Except Err (List UInt8) × NetConn F → Prop
  | chunk {k : ℕ} {p r : List UInt8} {rs' : List (List UInt8)} {nc' : NetConn F} (nonempty : p ≠ [])
      (length : p.length ≤ n) (split : rs = List.replicate k [] ++ (p ++ r) :: rs')
      (stands : nc'.Stands (r :: rs')) (less : nc'.conn.side.load < nc.conn.side.load) :
      NetRead nc rs n (.ok p, nc')
  | passed {k : ℕ} {e : Err} {rs' : List (List UInt8)} {nc' : NetConn F} (ne_eof : e ≠ .eof)
      (split : rs = List.replicate k [] ++ rs') (stands : nc'.Stands rs')
      (less : nc'.conn.side.load < nc.conn.side.load) : NetRead nc rs n (.error e, nc')
  | ended {k : ℕ} {nc' : NetConn F} (split : rs = List.replicate k []) (err : nc'.err = some .eof) :
      NetRead nc rs n (.error .eof, nc')

/-- A round that reads from an open message, in a call that began at `nc₀` with `rs₀` to come. -/
theorem Stands.chunkRound {nc₀ : NetConn F} {rs₀ : List (List UInt8)} {k n : ℕ} {r : List UInt8}
    (h : nc.Stands (r :: rs)) (inMsg : nc.inMsg = true) (hn : 0 < n)
    (split : rs₀ = List.replicate k [] ++ r :: rs)
    (load : nc.conn.side.load ≤ nc₀.conn.side.load) :
    Sum.elim (fun nc' => (∃ k rs', rs₀ = List.replicate k [] ++ rs' ∧ nc'.Stands rs' ∧
          nc'.conn.side.load ≤ nc₀.conn.side.load) ∧ nc'.inMsg = false ∧
        nc'.conn.side.effort ≤ nc.conn.side.effort)
      (NetRead nc₀ rs₀ n) (nc.readChunk n) := by
  have hstep := h.readChunk inMsg hn
  generalize nc.readChunk n = out at hstep
  cases hstep with
  | chunk nonempty length hr stands less =>
    exact .chunk nonempty length (by rw [split, hr]) stands (less.trans_le load)
  | ended empty stands out effort load' =>
    refine ⟨⟨k + 1, rs, ?_, stands, load'.trans load⟩, out, effort⟩
    rw [split, empty, List.replicate_succ', List.append_assoc]
    rfl
  | passed ne_eof stands less => exact .passed ne_eof split stands (less.trans_le load)

theorem readErr_closed {code : ℕ} (h : normalClose code) (reason : List UInt8) (nc : NetConn F) :
    nc.readErr (.closed code reason) = (.eof, { nc with err := some .eof }) := by
  simp [readErr, Err.asClose, h]

theorem Stands.fine (h : nc.Stands rs) : nc.err = none := by
  cases h with
  | between fine => exact fine
  | inside fine => exact fine

theorem Stands.current (h : nc.Stands rs) (inMsg : nc.inMsg = true) : ∃ r rs', rs = r :: rs' := by
  cases h with
  | between fine out => exact absurd (inMsg.symm.trans out) (by decide)
  | inside => exact ⟨_, _, rfl⟩

/-- `Read` with `rs` to come. -/
theorem Stands.read (h : nc.Stands rs) {n : ℕ} (hn : 0 < n) : NetRead nc rs n (nc.read n) := by
  rw [NetConn.read, h.fine]
  dsimp only
  rw [if_neg (Nat.pos_iff_ne_zero.mp hn)]
  -- A round leaves an open message at most once without a new header.
  refine Loop.run_spec
    (fun nc' : NetConn F => ∃ k rs', rs = List.replicate k [] ++ rs' ∧ nc'.Stands rs' ∧
      nc'.conn.side.load ≤ nc.conn.side.load)
    (fun nc' => 2 * nc'.conn.side.effort + nc'.inMsg.toNat) ?_ ⟨0, rs, rfl, h, le_rfl⟩ ?_
  · rintro nc' ⟨k, rs', split, stands, load⟩
    unfold readRound
    cases hin : nc'.inMsg with
    | true =>
      rw [if_neg (by simp)]
      obtain ⟨r, rs'', rfl⟩ := stands.current hin
      have hround := stands.chunkRound hin hn split load
      generalize nc'.readChunk n = out at hround
      cases out with
      | inl nc'' =>
        obtain ⟨hstands, hout, heffort⟩ := hround
        refine ⟨hstands, ?_⟩
        simp only [hout, hin, Bool.toNat_true, Bool.toNat_false]
        omega
      | inr out => exact hround
    | false =>
      rw [if_pos (by simp)]
      have hstep := stands.nextMessage hin
      generalize nc'.conn.nextMessage = out at hstep
      cases hstep with
      | @entered c r rs'' hrs stands' effort load' =>
        subst hrs
        have hround := stands'.chunkRound rfl hn split (load'.trans load)
        dsimp only
        rw [if_neg (by simp)]
        generalize NetConn.readChunk n _ = out at hround
        cases out with
        | inl nc'' =>
          obtain ⟨hstands, hout, heffort⟩ := hround
          refine ⟨hstands, ?_⟩
          dsimp only at heffort
          simp only [hout, hin, Bool.toNat_false]
          omega
        | inr out => exact hround
      | passed ne_eof passes stands' less =>
        rw [hin] at stands'
        dsimp only
        rw [readErr_passes passes]
        exact .passed ne_eof split stands' (less.trans_le load)
      | closed none normal =>
        dsimp only
        rw [readErr_closed normal]
        exact .ended (by rw [split, none, List.append_nil]) rfl
  · have := nc.inMsg.toNat_le
    omega

/-! ## Runs of calls -/

section Runs

variable (nc) (sizes : ℕ → ℕ)

theorem after_succ : ∀ i, nc.after sizes (i + 1) =
    (nc.read (sizes 0)).2.after (fun j => sizes (j + 1)) i
  | 0 => rfl
  | i + 1 => by
    rw [after, after_succ i]
    rfl

theorem result_succ (i : ℕ) : nc.result sizes (i + 1) =
    (nc.read (sizes 0)).2.result (fun j => sizes (j + 1)) i := by
  rw [result, after_succ]
  rfl

theorem received_succ (i : ℕ) : nc.received sizes (i + 1) = (nc.read (sizes 0)).1.toOption.toList ++
    (nc.read (sizes 0)).2.received (fun j => sizes (j + 1)) i := by
  rw [received, List.range_succ_eq_map, List.filterMap_cons, List.filterMap_map]
  simp only [Function.comp_def, Nat.succ_eq_add_one, result_succ]
  have hzero : nc.result sizes 0 = (nc.read (sizes 0)).1 := rfl
  rw [hzero]
  cases (nc.read (sizes 0)).1 <;> rfl

/-- After an error that is kept every call gives it. -/
theorem result_err {e : Err} (h : nc.err = some e) : ∀ i, nc.result sizes i = .error e := by
  have hread : ∀ n, nc.read n = (.error e, nc) := fun n => by simp [NetConn.read, h]
  have hafter : ∀ i, nc.after sizes i = nc := by
    intro i
    induction i with
    | zero => rfl
    | succ i ih => rw [after, ih, hread]
  intro i
  rw [result, hafter, hread]

end Runs

/-- The calls of `Read` give, up to the call `N`, chunks of the messages `rs` in order and errors,
and from there on `io.EOF`. No chunk spans two messages : `css` are the chunks of each. -/
structure Delivers (nc : NetConn F) (sizes : ℕ → ℕ) (rs : List (List UInt8)) (N : ℕ)
    (css : List (List (List UInt8))) : Prop where
  chunks : css.flatten = nc.received sizes N
  payloads : css.map List.flatten = rs
  fits : ∀ i p, nc.result sizes i = .ok p → p ≠ [] ∧ p.length ≤ sizes i
  early : ∀ i, i < N → nc.result sizes i ≠ .error .eof
  ended : ∀ i, N ≤ i → nc.result sizes i = .error .eof

/-- Messages that are empty need no chunk. -/
theorem Delivers.skip {sizes : ℕ → ℕ} {N : ℕ} {css : List (List (List UInt8))}
    (h : Delivers nc sizes rs N css) (k : ℕ) :
    Delivers nc sizes (List.replicate k [] ++ rs) N (List.replicate k [] ++ css) where
  chunks := by
    rw [List.flatten_append, List.flatten_replicate_nil, List.nil_append]
    exact h.chunks
  payloads := by
    rw [List.map_append, List.map_replicate, h.payloads]
    rfl
  fits := h.fits
  early := h.early
  ended := h.ended

/-- One call before others. -/
theorem Delivers.call {sizes : ℕ → ℕ} {res : Except Err (List UInt8)} {nc' : NetConn F}
    {rs' : List (List UInt8)} {N : ℕ} {css css' : List (List (List UInt8))}
    (hread : nc.read (sizes 0) = (res, nc'))
    (h : Delivers nc' (fun j => sizes (j + 1)) rs' N css') (ne_eof : res ≠ .error .eof)
    (fits : ∀ p, res = .ok p → p ≠ [] ∧ p.length ≤ sizes 0)
    (chunks : css.flatten = res.toOption.toList ++ css'.flatten)
    (payloads : css.map List.flatten = rs) : Delivers nc sizes rs (N + 1) css := by
  have hzero : nc.result sizes 0 = res := congrArg Prod.fst hread
  have hsucc : ∀ i, nc.result sizes (i + 1) = nc'.result (fun j => sizes (j + 1)) i := by
    intro i
    rw [result_succ, hread]
  refine ⟨?_, payloads, fun i p hp => ?_, fun i hi => ?_, fun i hi => ?_⟩
  · rw [chunks, received_succ, hread, h.chunks]
  · cases i with
    | zero => exact fits p (hzero.symm.trans hp)
    | succ i => exact h.fits i p ((hsucc i).symm.trans hp)
  · cases i with
    | zero => rwa [hzero]
    | succ i =>
      rw [hsucc]
      exact h.early i (by omega)
  · cases i with
    | zero => omega
    | succ i =>
      rw [hsucc]
      exact h.ended i (by omega)

/-- The caller receives what is to come, and then `io.EOF`. -/
theorem Stands.reads (k : ℕ) : ∀ {nc : NetConn F} {rs : List (List UInt8)}, nc.Stands rs →
    nc.conn.side.load = k → ∀ (sizes : ℕ → ℕ), (∀ i, 0 < sizes i) →
      ∃ N css, Delivers nc sizes rs N css := by
  induction k using Nat.strong_induction_on with
  | _ k ih =>
    intro nc rs h hk sizes pos
    have hread := h.read (pos 0)
    generalize hout : nc.read (sizes 0) = out at hread
    cases hread with
    | @chunk j p r rs' nc' nonempty length split stands less =>
      obtain ⟨N, css, hd⟩ := ih _ (hk ▸ less) stands rfl (fun j => sizes (j + 1)) fun i => pos _
      cases css with
      | nil => cases hd.payloads
      | cons cs css =>
        obtain ⟨hcs, hcss⟩ := List.cons.inj hd.payloads
        have hfits : ∀ q, (Except.ok p : Except Err (List UInt8)) = .ok q →
            q ≠ [] ∧ q.length ≤ sizes 0 := by
          intro q hq
          cases hq
          exact ⟨nonempty, length⟩
        have hcall : Delivers nc sizes ((p ++ r) :: rs') (N + 1) ((p :: cs) :: css) :=
          hd.call hout (by simp) hfits rfl (by rw [List.map_cons, hcss, List.flatten_cons, hcs])
        rw [split]
        exact ⟨N + 1, _, hcall.skip j⟩
    | @passed j e rs' nc' ne_eof split stands less =>
      obtain ⟨N, css, hd⟩ := ih _ (hk ▸ less) stands rfl (fun j => sizes (j + 1)) fun i => pos _
      have hcall : Delivers nc sizes rs' (N + 1) css :=
        hd.call hout (fun he => ne_eof (Except.error.inj he)) (fun q hq => by cases hq) rfl
          hd.payloads
      rw [split]
      exact ⟨N + 1, _, hcall.skip j⟩
    | @ended j nc' split err =>
      have hended : ∀ i, nc.result sizes i = .error .eof := by
        intro i
        cases i with
        | zero => exact congrArg Prod.fst hout
        | succ i =>
          rw [result_succ, hout]
          exact result_err _ _ err i
      have hnone : Delivers nc sizes [] 0 [] :=
        ⟨rfl, rfl, fun i p hp => (by cases (hended i).symm.trans hp), fun i hi => by omega,
          fun i _ => hended i⟩
      have hskip := hnone.skip j
      rw [split]
      rw [List.append_nil] at hskip
      exact ⟨0, _, hskip⟩

/-! ## A new connection -/

/-- Without compression no frame has RSV1. -/
theorem rsv1_of_stream {role : Role} : ∀ (fs : List Frame) {openMsg : Bool},
    Rules.stream ⟨role, false⟩ openMsg fs = true → ∀ f ∈ fs, f.rsv1 = false
  | f :: fs, openMsg, h, g, hg => by
    obtain ⟨hadmits, hrest⟩ := Rules.stream_cons.mp h
    rcases List.mem_cons.mp hg with rfl | hg
    · simp only [Rules.admits, Rules.legal, Bool.and_eq_true] at hadmits
      have hkind := hadmits.1.1.2
      split_ifs at hkind <;> simp only [Frame.head, Bool.and_eq_true, Bool.or_false,
        Bool.not_eq_true'] at hkind
      · exact hkind.2
      · exact hkind.2
      · exact hkind.1.2
    · split_ifs at hrest with hclose
      · rw [hrest] at hg
        cases hg
      · exact rsv1_of_stream fs hrest g hg

/-- A stream of complete messages of type `op`, ended by the close frame `f`. -/
structure Tunnelled (role : Role) (op : Opcode) (fs : List Frame) (f : Frame) : Prop where
  legal : Rules.stream ⟨role, false⟩ false (fs ++ [f]) = true
  complete : fs.foldl Frame.opens false = false
  kind : ∀ m ∈ gather none fs, m.opcode = op
  close : f.opcode = .close
  code : normalClose (parseClose f.payload).1

theorem gather_close {f : Frame} (hf : f.opcode = .close) : ∀ (fs : List Frame)
    (cur : Option WireMessage), gather cur (fs ++ [f]) = gather cur fs
  | [], cur => by
    have hcontrol : f.opcode.isControl = true := by rw [hf]; rfl
    simp [gather, hcontrol]
  | g :: fs, cur => by
    simp only [List.cons_append, gather, gather_close hf fs]

theorem stands_newConn {cfg : Config} {t : Transport}
    {pool : ℕ → Option { d : Decompressor F // d.Idle }} {c : Conn F}
    (hc : newConn cfg t pool = .ok c) (plain : cfg.compression = none)
    (handler : ∀ calls ev, cfg.handler calls ev = none) {op : Opcode} {fs : List Frame} {f : Frame}
    (tunnelled : Tunnelled cfg.role op fs f) (bytes : t.bytes = wire (fs ++ [f]))
    (errors : ∀ pre e post, t.symbols = pre ++ .inr e :: post → (∃ b, .inl b ∈ post) →
      e ≠ .eof ∧ e.passes = true) :
    Stands ⟨c, op, false, none, []⟩ ((gather none fs).map WireMessage.payload) := by
  have hlegal := tunnelled.legal
  have hfcontrol : f.opcode.isControl = true := by rw [tunnelled.close]; rfl
  have hgather := gather_close tunnelled.close fs none
  have hcomplete : (fs ++ [f]).foldl Frame.opens false = false := by
    rw [List.foldl_append, tunnelled.complete]
    simp [Frame.opens, hfcontrol]
  have hevents : (fs ++ [f]).flatMap Frame.events =
      fs.flatMap Frame.events ++ [.control .close f.payload] := by
    rw [List.flatMap_append, ← tunnelled.close]
    simp [Frame.events, hfcontrol]
  unfold newConn at hc
  split_ifs at hc with hv
  cases hc
  have htodo : ({
      settings := cfg.settings hv, transport := t, rx := .init cfg.role cfg.compression.isSome } :
        ReadSide).todo = (fs ++ [f]).flatMap Frame.events := by
    simp only [todo, Receiver.expected_init, bytes, plain]
    exact Rules.events_wire _ hlegal
  rw [← hgather]
  refine .between rfl rfl ⟨⟨Receiver.coupled_init _ _, rfl, rfl⟩, rfl, rfl, rfl, fun d hd => by
    cases hd⟩ ⟨handler, ?_, ?_, errors⟩ ?_ fun m hm => ⟨?_, ?_⟩
  · rw [htodo]
    exact whole_events _ hlegal hcomplete
  · exact ⟨_, _, htodo.trans hevents, tunnelled.code⟩
  · rw [htodo]
    exact messagesFrom_events _ none hlegal
  · exact tunnelled.kind m (hgather ▸ hm)
  · exact plain_gather _ none (rsv1_of_stream _ hlegal) (by simp) m hm

/-- A caller of `Read` that calls again after every error of the transport receives the payloads of
the messages, in order and with no chunk across two of them, and from then on `io.EOF` : unless an
error that comes before the end of the stream is an `*Error` or a `*CloseError`. -/
theorem reads_tunnel (cfg : Config) (pool : ℕ → Option { d : Decompressor F // d.Idle })
    (t : Transport) {c : Conn F} (hc : newConn cfg t pool = .ok c) (plain : cfg.compression = none)
    (handler : ∀ calls ev, cfg.handler calls ev = none) (op : Opcode) (fs : List Frame) (f : Frame)
    (tunnelled : Tunnelled cfg.role op fs f) (bytes : t.bytes = wire (fs ++ [f]))
    (errors : ∀ e, .inr e ∈ t.symbols → e ≠ .eof)
    (passes : ∀ pre e post, t.symbols = pre ++ .inr e :: post → (∃ b, .inl b ∈ post) →
      e.passes = true) (sizes : ℕ → ℕ) (pos : ∀ i, 0 < sizes i) :
    ∃ N css, Delivers ⟨c, op, false, none, []⟩ sizes ((gather none fs).map WireMessage.payload)
      N css := by
  refine (stands_newConn hc plain handler tunnelled bytes fun pre e post hsym hbyte => ?_).reads _
    rfl sizes pos
  exact ⟨errors e (by rw [hsym]; simp), passes pre e post hsym hbyte⟩

theorem reads_tunnel_torn :
    ∃ c : Conn Flate.stored, newConn { role := .client }
        [.data [0x01], .err (.other 0), .data [1, 104], .data [0x80, 1], .err (.other 0),
          .data [105], .data [0x88, 2, 3], .err (.other 1), .data [0xe8]] (fun _ => none) = .ok c ∧
      ∃ N css, Delivers ⟨c, .text, false, none, []⟩ (fun _ => 8) [[104, 105]] N css := by
  refine ⟨_, rfl, @reads_tunnel Flate.stored { role := .client } (fun _ => none) _ _ rfl rfl
    (fun _ _ => rfl) .text
    [⟨false, false, .text, none, [104]⟩, ⟨true, false, .continuation, none, [105]⟩]
    ⟨true, false, .close, none, [3, 0xe8]⟩ ⟨by decide, by decide, by decide, rfl, by decide⟩
    (by decide) ?_ ?_ (fun _ => 8) fun _ => by decide⟩
  · intro e he
    have he : e = .other 0 ∨ e = .other 1 := by
      simpa [Transport.symbols, ReadItem.symbols] using he
    rcases he with rfl | rfl <;> simp
  · intro pre e post hsym hbyte
    have he : .inr e ∈ pre ++ .inr e :: post := by simp
    rw [← hsym] at he
    have he : e = .other 0 ∨ e = .other 1 := by
      simpa [Transport.symbols, ReadItem.symbols] using he
    rcases he with rfl | rfl <;> rfl

/-- An error of the transport that is a `*CloseError` is taken for the peer's close, inside the
first message. -/
theorem reads_closed :
    ∃ c : Conn Flate.stored, newConn { role := .client }
        [.data [0x81, 2], .err (.closed 1000 []), .data [104, 105, 0x88, 2, 3, 0xe8]]
        (fun _ => none) = .ok c ∧
      Tunnelled .client .text [⟨true, false, .text, none, [104, 105]⟩]
        ⟨true, false, .close, none, [3, 0xe8]⟩ ∧
      (∀ i, (⟨c, .text, false, none, []⟩ : NetConn Flate.stored).result (fun _ => 8) i =
        .error .eof) ∧
      ¬ ∃ N css, Delivers ⟨c, .text, false, none, []⟩ (fun _ => 8) [[104, 105]] N css := by
  refine ⟨_, rfl, ⟨by decide, by decide, by decide, rfl, by decide⟩, ?_⟩
  generalize hnc : (⟨_, .text, false, none, []⟩ : NetConn Flate.stored) = nc
  have hfirst : (nc.read 8).1 = .error .eof := by
    rw [← hnc]
    rfl
  have herr : (nc.read 8).2.err = some .eof := by
    rw [← hnc]
    rfl
  have hall : ∀ i, nc.result (fun _ => 8) i = .error .eof
    | 0 => hfirst
    | i + 1 => by
      rw [result_succ]
      exact result_err _ _ herr i
  refine ⟨hall, ?_⟩
  rintro ⟨N, css, h⟩
  have hnone : css.flatten = [] := by
    rw [h.chunks, received]
    simp [hall, Except.toOption]
  have hflat : css.flatten.flatten = [104, 105] := by
    rw [List.flatten_flatten, h.payloads]
    rfl
  rw [hnone] at hflat
  cases hflat

end NetConn

end Ews
