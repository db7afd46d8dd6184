import Ews.Bufio
import Ews.Handshake
import Mathlib.Logic.Function.Basic

/-!
# Serving an upgrade without an HTTP server

`Server.serve` of `transport/serve.go` for one connection : the head of the request is read
through a buffered reader of 4096 bytes (`readRequest`), the hook `Accept` and the handshake may
refuse it, and the connection that is handed on first gives what the buffered reader holds behind
the head (`bufferedConn` of `transport/upgrade.go`).

A `Head` is a well-formed head as it is sent. Its total length is held against the configured
limit, and each of its lines against the buffer, with the same error (`readRequest_head`).
-/

set_option linter.unusedSectionVars false

namespace Ews

namespace Serve

open Text

/-- What a connection brings. -/
abbrev Source := Script UInt8 Err

/-- A buffered reader of a connection. -/
abbrev Buffered := Bufio UInt8 Err

/-! ## Reading the head -/

/-- `transport.Request`. `Header` maps canonical names to values. -/
@[ext]
structure Request where
  method : Str
  path : Str
  host : Str := []
  header : Str → Option Str := fun _ => none

/-- The errors of `readRequest` : `errHeadTooLarge`, the two errors of malformed lines, and an
error of the connection. -/
inductive HeadErr
  | tooLarge
  | badRequestLine
  | badHeaderLine
  | read (e : Err)
  deriving DecidableEq, Repr

def isLineEnd (b : UInt8) : Bool :=
  b == 0x0d || b == 0x0a

/-- `readLine` : one line without its end, charged against the limit. -/
def readLine (br : Buffered) (limit : ℤ) : Except HeadErr Str × Buffered × ℤ :=
  match br.readSlice .noProgress 0x0a with
  | ((_, some .full), br) => (.error .tooLarge, br, limit)
  | ((_, some (.reader e)), br) =>
    (.error (.read (if e = .eof then .unexpectedEOF else e)), br, limit)
  | ((line, none), br) =>
    if limit - line.length < 0 then (.error .tooLarge, br, limit - line.length)
    else (.ok (line.rdropWhile isLineEnd), br, limit - line.length)

/-- The loop of `canonicalHeader`. -/
def canonicalFrom (upper : Bool) : Str → Str
  | [] => []
  | c :: s =>
    (if upper ∧ 0x61 ≤ c ∧ c ≤ 0x7a then c - 0x61 + 0x41
      else if !upper ∧ 0x41 ≤ c ∧ c ≤ 0x5a then c - 0x41 + 0x61
      else c) :: canonicalFrom (c == 0x2d) s

/-- `canonicalHeader`. -/
def canonicalHeader (name : Str) : Str :=
  canonicalFrom true name

/-- The request line, as `readRequest` takes it apart. -/
def requestLine (line : Str) : Except HeadErr Request :=
  let (method, rest) := cut 0x20 line
  let (path, version) := cut 0x20 rest
  if 0x20 ∉ line ∨ 0x20 ∉ rest ∨ method = [] ∨ path = [] ∨ version ≠ ascii "HTTP/1.1" then
    .error .badRequestLine
  else .ok { method, path }

/-- A value in the request : `Host` has a field of its own, and a repeated header is joined. -/
def Request.add (req : Request) (name value : Str) : Request :=
  if name = ascii "Host" then { req with host := value }
  else
    match req.header name with
    | some prev =>
      { req with header := Function.update req.header name (some (prev ++ ascii ", " ++ value)) }
    | none => { req with header := Function.update req.header name (some value) }

section

variable (U : Unicode)

/-- A header line, as `readRequest` takes it apart. -/
def headerLine (req : Request) (line : Str) : Except HeadErr Request :=
  let (name, value) := cut 0x3a line
  if 0x3a ∉ line ∨ name = [] ∨ 0x20 ∈ name ∨ 0x09 ∈ name then .error .badHeaderLine
  else .ok (req.add (canonicalHeader name) (U.trimSpace value))

/-- The state of the loop of `readRequest`. -/
structure Reading where
  req : Request
  br : Buffered
  limit : ℤ

/-- One round of the loop of `readRequest`. -/
def headerRound (s : Reading) : Reading ⊕ Except HeadErr Request × Buffered :=
  match readLine s.br s.limit with
  | (.error e, br, _) => .inr (.error e, br)
  | (.ok line, br, limit) =>
    if line = [] then .inr (.ok s.req, br)
    else
      match headerLine U s.req line with
      | .error e => .inr (.error e, br)
      | .ok req => .inl ⟨req, br, limit⟩

/-- `readRequest`. A round of its loop takes a line off the stream, so there are no more rounds
than bytes to come. -/
def readRequest (br : Buffered) (limit : ℤ) : Except HeadErr Request × Buffered :=
  match readLine br limit with
  | (.error e, br, _) => (.error e, br)
  | (.ok line, br, limit) =>
    match requestLine line with
    | .error e => (.error e, br)
    | .ok req =>
      Loop.run (headerRound U) (br.content.length + 1) (fun s => (.error (.read .noProgress), s.br))
        ⟨req, br, limit⟩

end

/-! ## Serving -/

/-- `transport.Server`, as far as one connection sees it. -/
structure Server where
  handshake : Handshake.Options := {}
  maxHeaderBytes : ℤ := 0
  accept : Option (Request → ℤ) := none

/-- A connection as it is accepted : what it brings, whether writing to it fails, and which of
its errors are errors of the network. -/
structure Socket where
  src : Source
  broken : Bool := false
  netErr : Err → Bool := fun _ => true

/-- The connection the handler gets : the accepted one, or one in front of it that still has a
buffered reader. -/
inductive Handed
  | direct (src : Source)
  | buffered (br : Buffered)

/-- What `serve` does with a connection : close it, having written a text, or write the response
and hand it on. -/
inductive Served
  | closed (wrote : Str)
  | handed (wrote : Str) (conn : Handed) (res : Handshake.Result) (req : Request)

def statusText (status : ℤ) : Str :=
  if status = 400 then ascii "Bad Request"
  else if status = 403 then ascii "Forbidden"
  else if status = 404 then ascii "Not Found"
  else if status = 426 then ascii "Upgrade Required"
  else if status = 431 then ascii "Request Header Fields Too Large"
  else ascii "Error"

def crlf : Str := [0x0d, 0x0a]

/-- What `writeErrorWith` writes. -/
def errorPage (status : ℤ) (msg extra : Str) : Str :=
  let msg := if msg = [] then statusText status else msg
  ascii "HTTP/1.1 " ++ itoa status ++ ascii " " ++ statusText status ++ crlf ++ extra ++
    ascii "Content-Type: text/plain; charset=utf-8" ++ crlf ++ ascii "Content-Length: " ++
    itoa (msg.length + 1) ++ crlf ++ ascii "Connection: close" ++ crlf ++ crlf ++ msg ++ [0x0a]

def responseBytes (resp : Handshake.Response) : Str :=
  ascii "HTTP/1.1 101 Switching Protocols" ++ crlf ++ ascii "Upgrade: websocket" ++ crlf ++
    ascii "Connection: Upgrade" ++ crlf ++ ascii "Sec-WebSocket-Accept: " ++ resp.accept ++ crlf ++
    (if resp.extensions ≠ [] then ascii "Sec-WebSocket-Extensions: " ++ resp.extensions ++ crlf
      else []) ++
    (if resp.protocol ≠ [] then ascii "Sec-WebSocket-Protocol: " ++ resp.protocol ++ crlf
      else []) ++ crlf

/-- The texts of the errors of the handshake. -/
def errText : Handshake.Err → Str
  | .notWebSocket => ascii "ews/handshake: not a WebSocket upgrade"
  | .badVersion => ascii "ews/handshake: unsupported WebSocket version"
  | .badKey => ascii "ews/handshake: invalid Sec-WebSocket-Key"
  | .badExtension => ascii "ews/handshake: invalid Sec-WebSocket-Extensions"
  | .badAccept => ascii "ews/handshake: Sec-WebSocket-Accept mismatch"
  | .badStatus => ascii "ews/handshake: unexpected response status"
  | .badProtocol => ascii "ews/handshake: unexpected subprotocol"
  | .invalidOptions => ascii "ews/handshake: invalid options"

/-- `handshake.StatusCode`. -/
def statusCode : Handshake.Err → ℤ
  | .badVersion => 426
  | _ => 400

/-- `isNetErr` ; the errors of malformed lines are none. -/
def isNetErr (socket : Socket) : HeadErr → Bool
  | .read e => socket.netErr e || e == .eof || e == .unexpectedEOF
  | _ => false

/-- The handshake's view of the request. -/
def Request.handshake (req : Request) : Handshake.Request where
  method := req.method
  upgrade := (req.header (ascii "Upgrade")).getD []
  connection := (req.header (ascii "Connection")).getD []
  version := (req.header (ascii "Sec-Websocket-Version")).getD []
  key := (req.header (ascii "Sec-Websocket-Key")).getD []
  extensions := (req.header (ascii "Sec-Websocket-Extensions")).getD []
  protocols := (req.header (ascii "Sec-Websocket-Protocol")).getD []

namespace Server

/-- `maxHeaderBytes`. -/
def headLimit (s : Server) : ℤ :=
  if 0 < s.maxHeaderBytes then s.maxHeaderBytes else 8192

/-- The size of the buffered reader of `serve`. -/
def bufferSize : ℕ := 4096

variable (U : Unicode) (D : Handshake.Digest)

/-- The second half of `serve`, once the head is read and accepted. -/
def upgrade (s : Server) (socket : Socket) (req : Request) (br : Buffered) : Served :=
  match Handshake.negotiate U D req.handshake s.handshake with
  | .error e =>
    .closed (errorPage (statusCode e) (errText e)
      (if statusCode e = 426 then ascii "Sec-WebSocket-Version: " ++ Handshake.version ++ crlf
        else []))
  | .ok (resp, res) =>
    if socket.broken then .closed (responseBytes resp)
    else
      .handed (responseBytes resp)
        (if br.buffered ≠ 0 then .buffered br else .direct br.src) res req

/-- `serve`. -/
def serve (s : Server) (socket : Socket) : Served :=
  match readRequest U (Bufio.newReaderSize socket.src bufferSize) s.headLimit with
  | (.error e, _) =>
    if e = .tooLarge then .closed (errorPage 431 (ascii "request head too large") [])
    else if !isNetErr socket e then .closed (errorPage 400 (ascii "malformed request") [])
    else .closed []
  | (.ok req, br) =>
    match s.accept with
    | none => s.upgrade U D socket req br
    | some accept =>
      if accept req ≠ 0 then .closed (errorPage (accept req) [] [])
      else s.upgrade U D socket req br

end Server

/-- `Read` of the connection the handler gets, into a buffer of `n` : as long as the reader has
something buffered, no more than that is asked of it. -/
def Handed.read (n : ℕ) : Handed → (Str × Option Err) × Handed
  | .direct src => ((src.read n).1, .direct (src.read n).2)
  | .buffered br =>
    if br.buffered ≠ 0 then
      ((br.read (min n br.buffered)).1, .buffered (br.read (min n br.buffered)).2)
    else ((br.src.read n).1, .direct (br.src.read n).2)

/-! ## The lines of a head -/

/-- A line with its end. -/
def IsLine (line : Str) : Prop :=
  ∃ body, line = body ++ [0x0a] ∧ 0x0a ∉ body

theorem length_le_flatten : ∀ lines : List Str, (∀ line ∈ lines, IsLine line) →
    lines.length ≤ lines.flatten.length
  | [], _ => le_rfl
  | line :: lines, h => by
    obtain ⟨body, rfl, -⟩ := h line List.mem_cons_self
    have hrest := length_le_flatten lines fun l hl => h l (List.mem_cons_of_mem _ hl)
    simp only [List.length_cons, List.flatten_cons, List.length_append, List.length_nil]
    omega

/-- `readLine` in front of `line` and `rest`. -/
inductive LineRead (br : Buffered) (limit : ℤ) (line rest : Str) :
    Except HeadErr Str × Buffered × ℤ → Prop
  | ok {br' : Buffered} (fits : line.length ≤ br.size) (within : (line.length : ℤ) ≤ limit)
      (content : br'.content = rest) (size : br'.size = br.size)
      (last : br'.src.err = br.src.err) (sound : br'.Sound) :
      LineRead br limit line rest (.ok (line.rdropWhile isLineEnd), br', limit - line.length)
  | large {br' : Buffered} {n : ℤ} (large : br.size < line.length ∨ limit < line.length) :
      LineRead br limit line rest (.error .tooLarge, br', n)

theorem readLine_spec {br : Buffered} {line rest : Str} (limit : ℤ) (hs : br.Sound)
    (hline : IsLine line) (hcontent : br.content = line ++ rest) :
    LineRead br limit line rest (readLine br limit) := by
  obtain ⟨body, rfl, hbody⟩ := hline
  rw [List.append_assoc, List.singleton_append] at hcontent
  have hslice := Bufio.readSlice_spec Err.noProgress hs hbody hcontent
  unfold readLine
  generalize br.readSlice Err.noProgress 0x0a = out at hslice
  cases hslice with
  | full large => exact .large (Or.inl large)
  | line fits content size last sound =>
    by_cases hlimit : limit - (body ++ [0x0a]).length < 0
    · simp only [if_pos hlimit]
      exact .large (Or.inr (by omega))
    · simp only [if_neg hlimit]
      exact .ok fits (by omega) content size last sound

/-- What the header lines are parsed to. -/
def parseFields (U : Unicode) (req : Request) : List Str → Except HeadErr Request
  | [] => .ok req
  | line :: lines =>
    match headerLine U req (line.rdropWhile isLineEnd) with
    | .error e => .error e
    | .ok req => parseFields U req lines

/-- Reading `lines` in front of `rest`, which are parsed to `want` : the buffer and the limit
decide whether they are read at all. -/
inductive LinesRead (br : Buffered) (limit : ℤ) (lines : List Str) (rest : Str)
    (want : Except HeadErr Request) : Except HeadErr Request × Buffered → Prop
  | ok {req : Request} {br' : Buffered} (parsed : want = .ok req)
      (fits : ∀ line ∈ lines, line.length ≤ br.size)
      (within : (lines.flatten.length : ℤ) ≤ limit) (content : br'.content = rest)
      (last : br'.src.err = br.src.err) (sound : br'.Sound) :
      LinesRead br limit lines rest want (.ok req, br')
  | bad {e : HeadErr} {br' : Buffered} (parsed : want = .error e) :
      LinesRead br limit lines rest want (.error e, br')
  | large {br' : Buffered}
      (large : (∃ line ∈ lines, br.size < line.length) ∨ limit < lines.flatten.length) :
      LinesRead br limit lines rest want (.error .tooLarge, br')

/-- A line in front. -/
theorem LinesRead.cons {br br' : Buffered} {limit : ℤ} {line : Str} {lines : List Str}
    {rest : Str} {want : Except HeadErr Request} {out : Except HeadErr Request × Buffered}
    (fits : line.length ≤ br.size) (size : br'.size = br.size)
    (last : br'.src.err = br.src.err)
    (h : LinesRead br' (limit - line.length) lines rest want out) :
    LinesRead br limit (line :: lines) rest want out := by
  cases h with
  | ok parsed fits' within content last' sound =>
    refine .ok parsed (fun l hl => ?_) ?_ content (last'.trans last) sound
    · rcases List.mem_cons.mp hl with rfl | hl
      · exact fits
      · exact size ▸ fits' l hl
    · rw [List.flatten_cons, List.length_append]
      push_cast
      omega
  | bad parsed => exact .bad parsed
  | large large =>
    refine .large (large.imp
      (fun ⟨l, hl, hlen⟩ => ⟨l, List.mem_cons_of_mem _ hl, size ▸ hlen⟩) fun h => ?_)
    rw [List.flatten_cons, List.length_append]
    push_cast
    omega

theorem LinesRead.large_head {br br' : Buffered} {limit : ℤ} {line : Str} {lines : List Str}
    {rest : Str} {want : Except HeadErr Request}
    (h : br.size < line.length ∨ limit < line.length) :
    LinesRead br limit (line :: lines) rest want (.error .tooLarge, br') := by
  refine .large (h.imp (fun hlen => ⟨line, List.mem_cons_self, hlen⟩) fun hlen => ?_)
  rw [List.flatten_cons, List.length_append]
  push_cast
  omega

section

variable (U : Unicode)

/-- The loop of `readRequest` reads the header lines and the blank line behind them. -/
theorem headers_spec {blank rest : Str} (hblank : IsLine blank)
    (hempty : blank.rdropWhile isLineEnd = []) :
    ∀ (lines : List Str) {n : ℕ} (req : Request) {br : Buffered} (limit : ℤ),
    (∀ line ∈ lines, IsLine line ∧ line.rdropWhile isLineEnd ≠ []) → lines.length < n →
    br.Sound → br.content = lines.flatten ++ (blank ++ rest) →
    ∃ out, Loop.iterate (headerRound U) n ⟨req, br, limit⟩ = some out ∧
      LinesRead br limit (lines ++ [blank]) rest (parseFields U req lines) out
  | [], n + 1, req, br, limit, _, _, hs, hcontent => by
    have hread := readLine_spec limit hs hblank hcontent
    rw [Loop.iterate, headerRound]
    generalize readLine br limit = out at hread
    cases hread with
    | ok fits within content size last sound =>
      simp only [if_pos hempty]
      refine ⟨_, rfl, .ok rfl (fun l hl => ?_) (by simpa using within) content last sound⟩
      rw [List.nil_append, List.mem_singleton] at hl
      exact hl ▸ fits
    | large large => exact ⟨_, rfl, .large_head large⟩
  | line :: lines, n + 1, req, br, limit, hlines, hn, hs, hcontent => by
    obtain ⟨hline, hne⟩ := hlines line List.mem_cons_self
    rw [List.flatten_cons, List.append_assoc] at hcontent
    have hread := readLine_spec limit hs hline hcontent
    rw [Loop.iterate, headerRound, parseFields]
    generalize readLine br limit = out at hread
    cases hread with
    | ok fits within content size last sound =>
      simp only [if_neg hne]
      cases headerLine U req (line.rdropWhile isLineEnd) with
      | error e => exact ⟨_, rfl, .bad rfl⟩
      | ok req =>
        obtain ⟨out, hout, hrest⟩ := headers_spec hblank hempty lines req (limit - line.length)
          (fun l hl => hlines l (List.mem_cons_of_mem _ hl)) (Nat.lt_of_succ_lt_succ hn)
          sound content
        exact ⟨out, hout, hrest.cons fits size last⟩
    | large large => exact ⟨_, rfl, .large_head large⟩

/-- What the lines of a head are parsed to. -/
def parseHead (first : Str) (lines : List Str) : Except HeadErr Request :=
  match requestLine (first.rdropWhile isLineEnd) with
  | .error e => .error e
  | .ok req => parseFields U req lines

/-- `readRequest` reads the lines of a head up to the blank one. -/
theorem readRequest_spec {br : Buffered} {first blank rest : Str} {lines : List Str} (limit : ℤ)
    (hs : br.Sound) (hfirst : IsLine first)
    (hlines : ∀ line ∈ lines, IsLine line ∧ line.rdropWhile isLineEnd ≠ [])
    (hblank : IsLine blank) (hempty : blank.rdropWhile isLineEnd = [])
    (hcontent : br.content = first ++ (lines.flatten ++ (blank ++ rest))) :
    LinesRead br limit (first :: (lines ++ [blank])) rest (parseHead U first lines)
      (readRequest U br limit) := by
  have hread := readLine_spec limit hs hfirst hcontent
  rw [readRequest, parseHead]
  generalize readLine br limit = out at hread
  cases hread with
  | @ok br' fits within content size last sound =>
    simp only
    cases requestLine (first.rdropWhile isLineEnd) with
    | error e => exact .bad rfl
    | ok req =>
      have hn : lines.length < br'.content.length + 1 := by
        have hlen := length_le_flatten lines fun l hl => (hlines l hl).1
        rw [content, List.length_append]
        omega
      obtain ⟨out, hout, hrest⟩ := headers_spec U hblank hempty lines req (limit - first.length)
        hlines hn sound content
      simp only [Loop.run, hout, Option.getD_some]
      exact hrest.cons fits size last
  | large large => exact .large_head large

end

end Serve

end Ews
