import Ews.Negotiation
import Ews.RequestHead

/-!
# The bytes behind the request

The reads that look for the end of the head may bring bytes behind it. `Server.serve` hands on a
connection that gives these first and then goes on with the accepted one ; it reads exactly what
the client sent behind the blank line, whatever the reads were that brought the head
(`Server.serve_gives`).
-/

set_option linter.unusedSectionVars false

namespace Script

variable {α ε : Type*}

/-- What a read gives is off the content, also with no room. -/
theorem content_read (r : Script α ε) (room : ℕ) :
    r.content = (r.read room).1.1 ++ (r.read room).2.content := by
  obtain ⟨pieces, last, err⟩ := r
  cases pieces with
  | cons p ps =>
    by_cases h : p.length ≤ room
    · simp [read, content, h, List.take_of_length_le h]
    · simp [read, content, h, ← List.append_assoc, List.take_append_drop]
  | nil =>
    by_cases h : last.length ≤ room <;> simp [read, content, h]

theorem err_read (r : Script α ε) (room : ℕ) : (r.read room).2.err = r.err := by
  unfold read
  split
  · rfl
  · split_ifs <;> rfl

/-- A read that gives an error gives it with the end of the content. -/
theorem ended_read {r : Script α ε} {room : ℕ} {e : ε} (h : (r.read room).1.2 = some e) :
    e = r.err ∧ (r.read room).2.content = [] := by
  obtain ⟨pieces, last, err⟩ := r
  cases pieces with
  | cons p ps => cases h
  | nil =>
    by_cases hlast : last.length ≤ room
    · simp only [read, if_pos hlast, Option.some.injEq] at h ⊢
      exact ⟨h.symm, rfl⟩
    · simp [read, hlast] at h

end Script

namespace Ews

namespace Serve

open Text

namespace Handed

/-- What is buffered in front of the connection. -/
def held : Handed → Str
  | .direct _ => []
  | .buffered br => br.buf

/-- The connection itself. -/
def source : Handed → Source
  | .direct src => src
  | .buffered br => br.src

/-- Everything that is still to be read. -/
def content (c : Handed) : Str :=
  c.held ++ c.source.content

/-- Reads into buffers of the given sizes, one after the other. -/
def reads : List ℕ → Handed → List (Str × Option Err) × Handed
  | [], c => ([], c)
  | n :: ns, c => ((c.read n).1 :: (reads ns (c.read n).2).1, (reads ns (c.read n).2).2)

/-- The data of the reads, in their order. -/
def data (ns : List ℕ) (c : Handed) : Str :=
  ((c.reads ns).1.map Prod.fst).flatten

/-- Buffered bytes are read from the buffer alone. -/
theorem read_held {c : Handed} (n : ℕ) (h : c.held ≠ []) :
    (c.read n).1 = (c.held.take n, none) ∧ (c.read n).2.held = c.held.drop n ∧
      (c.read n).2.source = c.source := by
  cases c with
  | direct src => exact absurd rfl h
  | buffered br =>
    have hne : br.buffered ≠ 0 := fun hz => h (List.length_eq_zero_iff.mp hz)
    have hread := Bufio.read_buffered (Nat.min_le_right n br.buffered) hne
    have htake : br.buf.take (min n br.buffered) = br.buf.take n := List.take_eq_take_min.symm
    have hdrop : br.buf.drop (min n br.buffered) = br.buf.drop n := List.drop_eq_drop_min.symm
    rw [read, if_pos hne, hread, htake]
    exact ⟨rfl, hdrop, rfl⟩

/-- With nothing buffered a read is one of the connection. -/
theorem read_source {c : Handed} (n : ℕ) (h : c.held = []) :
    (c.read n).1 = (c.source.read n).1 ∧ (c.read n).2.held = [] ∧
      (c.read n).2.source = (c.source.read n).2 := by
  cases c with
  | direct src => exact ⟨rfl, rfl, rfl⟩
  | buffered br =>
    have hzero : br.buffered = 0 := List.length_eq_zero_iff.mpr h
    simp only [read, hzero, ne_eq, not_true_eq_false, if_false, held, source, and_self]

/-- What a read gives is off what is to be read. -/
theorem content_read (c : Handed) (n : ℕ) : c.content = (c.read n).1.1 ++ (c.read n).2.content := by
  unfold content
  by_cases h : c.held = []
  · obtain ⟨hread, hheld, hsource⟩ := read_source n h
    rw [hread, hheld, hsource, h]
    exact c.source.content_read n
  · obtain ⟨hread, hheld, hsource⟩ := read_held n h
    rw [hread, hheld, hsource, ← List.append_assoc, List.take_append_drop]

theorem err_read (c : Handed) (n : ℕ) : (c.read n).2.source.err = c.source.err := by
  by_cases h : c.held = []
  · rw [(read_source n h).2.2]
    exact c.source.err_read n
  · rw [(read_held n h).2.2]

theorem ended_read {c : Handed} {n : ℕ} {e : Err} (he : (c.read n).1.2 = some e) :
    e = c.source.err ∧ (c.read n).2.content = [] := by
  by_cases h : c.held = []
  · obtain ⟨hread, hheld, hsource⟩ := read_source n h
    rw [hread] at he
    rw [content, hheld, hsource]
    exact Script.ended_read he
  · rw [(read_held n h).1] at he
    cases he

/-- A bound on the reads before everything is read. -/
def weight (c : Handed) : ℕ :=
  c.held.length + c.source.weight

theorem weight_read {c : Handed} {n : ℕ} (hn : 0 < n) :
    (c.read n).2.content = [] ∨ (c.read n).2.weight < c.weight := by
  unfold weight
  by_cases h : c.held = []
  · obtain ⟨-, hheld, hsource⟩ := read_source n h
    rw [content, hheld, hsource, h]
    have hread := Script.read_spec hn c.source
    generalize c.source.read n = out at hread ⊢
    cases hread with
    | data content err length weight => exact Or.inr (Nat.add_lt_add_left weight 0)
    | ended length => exact Or.inl rfl
  · obtain ⟨-, hheld, hsource⟩ := read_held n h
    have hpos := List.length_pos_iff.mpr h
    rw [hheld, hsource, List.length_drop]
    exact Or.inr (by omega)

/-! ## Sequences of reads -/

theorem content_reads : ∀ (ns : List ℕ) (c : Handed),
    c.content = c.data ns ++ (c.reads ns).2.content
  | [], _ => rfl
  | n :: ns, c => by
    have hrest := content_reads ns (c.read n).2
    have hdata : c.data (n :: ns) = (c.read n).1.1 ++ (c.read n).2.data ns := rfl
    rw [c.content_read n, hrest, hdata, List.append_assoc]
    rfl

theorem err_reads : ∀ (ns : List ℕ) (c : Handed), (c.reads ns).2.source.err = c.source.err
  | [], _ => rfl
  | n :: ns, c => (err_reads ns (c.read n).2).trans (c.err_read n)

theorem weight_reads : ∀ (ns : List ℕ) (c : Handed), (∀ n ∈ ns, 0 < n) →
    (c.reads ns).2.content = [] ∨ (c.reads ns).2.weight + ns.length ≤ c.weight
  | [], c, _ => Or.inr le_rfl
  | n :: ns, c, h => by
    have hfirst := weight_read (c := c) (h n List.mem_cons_self)
    have hrest := weight_reads ns (c.read n).2 fun m hm => h m (List.mem_cons_of_mem _ hm)
    rcases hfirst with hend | hless
    · -- Nothing is left after the first read, so the others have nothing to give.
      have hcontent := content_reads ns (c.read n).2
      rw [hend] at hcontent
      exact Or.inl (List.append_eq_nil_iff.mp hcontent.symm).2
    · refine hrest.imp_right fun hle => ?_
      rw [List.length_cons]
      exact (Nat.succ_le_succ hle).trans hless

/-- The reads of a connection give `rest` and then the error `e`, first what is buffered and then
what the connection itself brings. -/
structure Gives (c : Handed) (rest : Str) (e : Err) : Prop where
  /-- What is read is the start of `rest`. -/
  data : ∀ ns, ∃ left, rest = c.data ns ++ left
  /-- Reads with room come to the end of it. -/
  all : ∀ ns, (∀ n ∈ ns, 0 < n) → c.weight < ns.length → c.data ns = rest
  /-- An error comes with the end, or behind it. -/
  error : ∀ ns n e', ((c.reads ns).2.read n).1.2 = some e' → e' = e ∧ c.data (ns ++ [n]) = rest
  /-- As long as something is buffered it is given, and the connection is not read. -/
  buffered : ∀ ns n, (c.reads ns).2.held ≠ [] →
    ((c.reads ns).2.read n).1 = ((c.reads ns).2.held.take n, none) ∧
      ((c.reads ns).2.read n).2.source = (c.reads ns).2.source
  /-- Then a read is a read of the connection. -/
  direct : ∀ ns n, (c.reads ns).2.held = [] →
    ((c.reads ns).2.read n).1 = ((c.reads ns).2.source.read n).1

theorem reads_append : ∀ (ns ms : List ℕ) (c : Handed),
    c.reads (ns ++ ms) =
      ((c.reads ns).1 ++ ((c.reads ns).2.reads ms).1, ((c.reads ns).2.reads ms).2)
  | [], _, _ => rfl
  | n :: ns, ms, c => by
    simp only [List.cons_append, reads, reads_append ns ms]

theorem gives_content (c : Handed) : c.Gives c.content c.source.err where
  data ns := ⟨_, content_reads ns c⟩
  all ns hns hlen := by
    have hcontent := content_reads ns c
    rcases weight_reads ns c hns with hend | hle
    · rw [hcontent, hend, List.append_nil]
    · omega
  error ns n e' he := by
    obtain ⟨herr, hend⟩ := ended_read he
    refine ⟨herr.trans (err_reads ns c), ?_⟩
    have hcontent := content_reads (ns ++ [n]) c
    have hlast : (c.reads (ns ++ [n])).2 = ((c.reads ns).2.read n).2 := by
      rw [reads_append]
      rfl
    rw [hlast, hend, List.append_nil] at hcontent
    exact hcontent.symm
  buffered ns n h := ⟨(read_held n h).1, (read_held n h).2.2⟩
  direct ns n h := (read_source n h).1

end Handed

/-! ## The upgrade -/

/-- The lines of a head that `serve` accepts : they are within the limit and the buffer, parsed to
a request, and neither the hook nor the handshake refuses it. -/
structure Acceptable (U : Unicode) (D : Handshake.Digest) (s : Server) (first : Str)
    (lines : List Str) (blank : Str) (req : Request) (resp : Handshake.Response)
    (res : Handshake.Result) : Prop where
  first_line : IsLine first
  line : ∀ line ∈ lines, IsLine line ∧ line.rdropWhile isLineEnd ≠ []
  blank_line : IsLine blank ∧ blank.rdropWhile isLineEnd = []
  fits : ∀ line ∈ first :: (lines ++ [blank]), line.length ≤ Server.bufferSize
  within : ((first :: (lines ++ [blank])).flatten.length : ℤ) ≤ s.headLimit
  parsed : parseHead U first lines = .ok req
  accepted : ∀ accept ∈ s.accept, accept req = 0
  negotiated : Handshake.negotiate U D req.handshake s.handshake = .ok (resp, res)

namespace Server

variable (U : Unicode) (D : Handshake.Digest)

/-- The connection behind a reader gives what the reader still has. -/
theorem gives_reader (br : Buffered) :
    (if br.buffered ≠ 0 then Handed.buffered br else .direct br.src).Gives
      br.content br.src.err := by
  split_ifs with hb
  · exact Handed.gives_content (.buffered br)
  · have hcontent : br.content = (Handed.direct br.src).content := by
      rw [Bufio.content, List.length_eq_zero_iff.mp (not_not.mp hb)]
      rfl
    rw [hcontent]
    exact Handed.gives_content _

/-- `serve` behind a head that it has read to its end, and that nobody refuses. -/
theorem serve_read {s : Server} {socket : Socket} (working : socket.broken = false)
    {lines : List Str} {rest : Str} {req : Request} {resp : Handshake.Response}
    {res : Handshake.Result}
    (hread : LinesRead (Bufio.newReaderSize socket.src bufferSize) s.headLimit lines rest (.ok req)
      (readRequest U (Bufio.newReaderSize socket.src bufferSize) s.headLimit))
    (fits : ∀ line ∈ lines, line.length ≤ bufferSize)
    (within : (lines.flatten.length : ℤ) ≤ s.headLimit)
    (accepted : ∀ accept ∈ s.accept, accept req = 0)
    (negotiated : Handshake.negotiate U D req.handshake s.handshake = .ok (resp, res)) :
    ∃ c, s.serve U D socket = .handed (responseBytes resp) c res req ∧
      c.Gives rest socket.src.err := by
  unfold serve
  generalize readRequest U (Bufio.newReaderSize socket.src bufferSize) s.headLimit = out at hread ⊢
  cases hread with
  | @ok req' br parsed _ _ content last =>
    cases parsed
    have hgives := gives_reader br
    rw [content, last] at hgives
    refine ⟨_, ?_, hgives⟩
    have hupgrade : s.upgrade U D socket req br = .handed (responseBytes resp)
        (if br.buffered ≠ 0 then .buffered br else .direct br.src) res req := by
      simp only [upgrade, negotiated, working, Bool.false_eq_true, if_false]
    cases haccept : s.accept with
    | none => exact hupgrade
    | some accept =>
      simp only [accepted accept haccept, ne_eq, not_true_eq_false, if_false]
      exact hupgrade
  | bad parsed => cases parsed
  | large large =>
    rcases large with ⟨line, hline, hlen⟩ | hover
    · exact absurd (fits line hline) (Nat.not_le.mpr hlen)
    · exact absurd within (not_le.mpr hover)

/-- The connection `serve` hands on reads exactly the bytes behind the head. -/
theorem serve_gives (s : Server) (socket : Socket) (working : socket.broken = false)
    (steady : socket.src.Steady) {first blank rest : Str} {lines : List Str} {req : Request}
    {resp : Handshake.Response} {res : Handshake.Result}
    (acceptable : Acceptable U D s first lines blank req resp res)
    (input : socket.src.content = (first :: (lines ++ [blank])).flatten ++ rest) :
    ∃ c, s.serve U D socket = .handed (responseBytes resp) c res req ∧
      c.Gives rest socket.src.err := by
  have hcontent : (Bufio.newReaderSize socket.src bufferSize).content =
      first ++ (lines.flatten ++ (blank ++ rest)) := by
    rw [show (Bufio.newReaderSize socket.src bufferSize).content = socket.src.content from rfl,
      input]
    simp
  have hread := readRequest_spec U s.headLimit (Bufio.sound_newReaderSize steady _)
    acceptable.first_line acceptable.line acceptable.blank_line.1 acceptable.blank_line.2 hcontent
  rw [acceptable.parsed] at hread
  exact serve_read U D working hread acceptable.fits acceptable.within acceptable.accepted
    acceptable.negotiated

end Server

/-- A field with a value of ASCII text. -/
def fieldOf (name value : String) (h : ascii name ≠ [] ∧
    (ascii name).all isNameByte = true ∧ (ascii value).all isTextByte = true) : Field :=
  ⟨ascii name, ascii value, true, h.1, h.2.1, h.2.2⟩

/-- An upgrade request. -/
def getUpgrade : Head :=
  getWith [
    fieldOf "Upgrade" " websocket" (by decide +kernel),
    fieldOf "connection" "Upgrade" (by decide +kernel),
    fieldOf "Sec-WebSocket-Version" "13 " (by decide +kernel),
    fieldOf "Sec-WebSocket-Key" " dGhlIHNhbXBsZSBub25jZQ==" (by decide +kernel)]

/-- The request, and a frame behind it of which a part comes with the request. -/
def glued : Source :=
  { pieces := [getUpgrade.bytes ++ [0x81, 0x81, 0x00]]
    last := [0x00, 0x00, 0x00, 0x61]
    err := .eof }

theorem serve_gives_glued : ∃ c res req wrote,
    ({} : Server).serve asciiOnly Handshake.standard { src := glued } =
      .handed wrote c res req ∧ c.Gives [0x81, 0x81, 0x00, 0x00, 0x00, 0x00, 0x61] .eof := by
  have hacceptable : ∃ resp res, Acceptable asciiOnly Handshake.standard {}
      (getUpgrade.body ++ lineEnd true) (getUpgrade.fields.map Field.line) (lineEnd true)
      (getUpgrade.request asciiOnly) resp res := by
    refine ⟨_, _, isLine_line getUpgrade.body_bytes true, isLine_fields getUpgrade,
      isLine_blank true, by decide +kernel, by decide +kernel, parseHead_head _ getUpgrade,
      fun accept h => (by cases h), rfl⟩
  obtain ⟨resp, res, hacceptable⟩ := hacceptable
  have hsteady : glued.Steady := fun h => by
    have hlen := h.length_le
    simp [glued] at hlen
  have hinput : glued.content = ((getUpgrade.body ++ lineEnd true) ::
      (getUpgrade.fields.map Field.line ++ [lineEnd true])).flatten ++
        [0x81, 0x81, 0x00, 0x00, 0x00, 0x00, 0x61] := by
    decide +kernel
  obtain ⟨c, hserve, hgives⟩ := Server.serve_gives asciiOnly Handshake.standard {}
    { src := glued } rfl hsteady hacceptable hinput
  exact ⟨c, res, _, _, hserve, hgives⟩

end Serve

end Ews
