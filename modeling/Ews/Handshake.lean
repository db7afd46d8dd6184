import Ews.Conn
import Ews.Digest
import Ews.Text

/-!
# The opening handshake

The package `handshake` : requests, responses, the parser of
`Sec-WebSocket-Extensions`, the parameters of `permessage-deflate`, and what the two
ends make of them (`newRequest`, `negotiate`, `confirm`). Header values are byte
strings.

What the package takes from outside is a parameter : the Unicode functions of
`strings` (`Text.Unicode`), and SHA-1 and base64 (`Digest`), of which only that
decoding inverts encoding is assumed.
-/

namespace Ews

namespace Handshake

open Text

/-! ## Values -/

/-- The errors of the package. -/
inductive Err
  | notWebSocket
  | badVersion
  | badKey
  | badExtension
  | badAccept
  | badStatus
  | badProtocol
  | invalidOptions
  deriving DecidableEq, Repr

/-- `handshake.Compress`. -/
structure Compress where
  level : ℤ := 0
  minSize : ℤ := 0
  contextTakeover : Bool := false
  deriving DecidableEq, Repr

structure Options where
  compression : Option Compress := none
  protocols : List Str := []
  deriving DecidableEq, Repr

structure Result where
  compression : Option Compression := none
  protocol : Str := []
  deriving DecidableEq, Repr

structure Request where
  method : Str := []
  upgrade : Str := []
  connection : Str := []
  version : Str := []
  key : Str := []
  extensions : Str := []
  protocols : Str := []
  deriving DecidableEq, Repr

structure Response where
  status : ℤ := 0
  upgrade : Str := []
  connection : Str := []
  accept : Str := []
  extensions : Str := []
  protocol : Str := []
  deriving DecidableEq, Repr

/-- `crypto/sha1` and `encoding/base64`. -/
structure Digest where
  sha1 : Str → Str
  encode : Str → Str
  decode : Str → Option Str
  decode_encode : ∀ b, decode (encode b) = some b

/-- The algorithms themselves. -/
def standard : Digest where
  sha1 := Sha1.sum
  encode := Base64.encode
  decode := Base64.decode
  decode_encode := Base64.decode_encode

variable (U : Unicode) (D : Digest)

def version : Str := ascii "13"

/-- `Accept`. -/
def accept (key : Str) : Str :=
  D.encode (D.sha1 (key ++ ascii "258EAFA5-E914-47DA-95CA-C5AB0DC85B11"))

example : accept standard (ascii "dGhlIHNhbXBsZSBub25jZQ==") =
    ascii "s3pPLMBiTxaQ9kYGzzhZRbK+xOo=" := by
  decide +kernel

/-- `NewKey`, for the random bytes it drew. -/
def newKey (nonce : Str) : Str :=
  D.encode nonce

def validKey (key : Str) : Bool :=
  match D.decode key with
  | none => false
  | some b => b.length == 16

/-- Whether a comma-separated header value has the token. -/
def hasToken (header token : Str) : Bool :=
  (split 0x2c header).any fun t => U.equalFold (U.trimSpace t) token

def validOptions (opts : Options) : Except Err Unit :=
  match opts.compression with
  | none => .ok ()
  | some c =>
    if c.level < -2 ∨ 9 < c.level ∨ c.minSize < 0 then .error .invalidOptions else .ok ()

/-! ## Extensions -/

def deflateName : Str := ascii "permessage-deflate"

structure Param where
  name : Str
  value : Str
  deriving DecidableEq, Repr

structure Extension where
  name : Str
  params : List Param := []
  deriving DecidableEq, Repr

/-- The parameters of an offer. -/
def parseParams : List Str → Except Err (List Param)
  | [] => .ok []
  | p :: ps =>
    let (name, value) := cut 0x3d (U.trimSpace p)
    let name := U.trimSpace name
    let value := trim isQuote (U.trimSpace value)
    if name = [] then .error .badExtension
    else
      match parseParams ps with
      | .error e => .error e
      | .ok kvs => .ok (⟨name, value⟩ :: kvs)

/-- One offer, trimmed and not empty. -/
def parseOffer (offer : Str) : Except Err Extension :=
  match split 0x3b offer with
  | [] => .error .badExtension
  | first :: ps =>
    let name := U.trimSpace first
    if name = [] then .error .badExtension
    else
      match parseParams U ps with
      | .error e => .error e
      | .ok kvs => .ok ⟨name, kvs⟩

/-- The offers of a header. -/
def parseOffers : List Str → Except Err (List Extension)
  | [] => .ok []
  | o :: os =>
    let offer := U.trimSpace o
    if offer = [] then parseOffers os
    else
      match parseOffer U offer with
      | .error e => .error e
      | .ok e =>
        match parseOffers os with
        | .error err => .error err
        | .ok es => .ok (e :: es)

/-- `parseExtensions`. -/
def parseExtensions (header : Str) : Except Err (List Extension) :=
  parseOffers U (split 0x2c header)

structure DeflateParams where
  serverNoContextTakeover : Bool := false
  clientNoContextTakeover : Bool := false
  serverMaxWindowBits : ℤ := 0
  clientMaxWindowBits : ℤ := 0
  deriving DecidableEq, Repr

/-- `windowBits` : zero means no value. -/
def windowBits (value : Str) : ℤ × Bool :=
  if value = [] then (0, true)
  else
    match atoi value with
    | none => (0, false)
    | some n => if n < 8 ∨ 15 < n then (0, false) else (n, true)

def serverNoContextTakeover : Str := ascii "server_no_context_takeover"
def clientNoContextTakeover : Str := ascii "client_no_context_takeover"
def serverMaxWindowBits : Str := ascii "server_max_window_bits"
def clientMaxWindowBits : Str := ascii "client_max_window_bits"

/-- One parameter of `parseDeflate`, its name in lower case. -/
def deflateParam (p : DeflateParams) (name value : Str) : DeflateParams × Bool :=
  if name = serverNoContextTakeover then
    if value ≠ [] then (p, false) else ({ p with serverNoContextTakeover := true }, true)
  else if name = clientNoContextTakeover then
    if value ≠ [] then (p, false) else ({ p with clientNoContextTakeover := true }, true)
  else if name = serverMaxWindowBits then
    let (bits, ok) := windowBits value
    if !ok || bits == 0 then (p, false) else ({ p with serverMaxWindowBits := bits }, true)
  else if name = clientMaxWindowBits then
    let (bits, ok) := windowBits value
    if !ok then (p, false)
    else ({ p with clientMaxWindowBits := if bits = 0 then 15 else bits }, true)
  else (p, false)

/-- The loop of `parseDeflate`, with the names seen. -/
def parseDeflateFrom (p : DeflateParams) (seen : List Str) : List Param → DeflateParams × Bool
  | [] => (p, true)
  | kv :: kvs =>
    let name := U.toLower kv.name
    if name ∈ seen then (p, false)
    else
      match deflateParam p name kv.value with
      | (p, false) => (p, false)
      | (p, true) => parseDeflateFrom p (name :: seen) kvs

/-- `parseDeflate`. -/
def parseDeflate (e : Extension) : DeflateParams × Bool :=
  parseDeflateFrom U {} [] e.params

/-- `formatDeflate`. -/
def formatDeflate (c : Compression) : Str :=
  let s := deflateName
  let s := if !c.sendContextTakeover then s ++ ascii "; server_no_context_takeover" else s
  let s := if !c.receiveContextTakeover then s ++ ascii "; client_no_context_takeover" else s
  if c.sendWindowBits ≠ 0 ∧ c.sendWindowBits ≠ 15 then
    s ++ ascii "; server_max_window_bits=" ++ itoa c.sendWindowBits
  else s

/-! ## The two ends -/

/-- `NewRequest`, for the random bytes of the key. -/
def newRequest (opts : Options) (nonce : Str) : Except Err Request :=
  match validOptions opts with
  | .error e => .error e
  | .ok () =>
    let req : Request :=
      { method := ascii "GET"
        upgrade := ascii "websocket"
        connection := ascii "Upgrade"
        version := version
        key := newKey D nonce
        protocols := List.intercalate (ascii ", ") opts.protocols }
    match opts.compression with
    | none => .ok req
    | some c =>
      let extensions := deflateName ++ ascii "; client_max_window_bits"
      .ok { req with
        extensions :=
          if !c.contextTakeover then
            extensions ++ ascii "; client_no_context_takeover; server_no_context_takeover"
          else extensions }

/-- `selectProtocol`. -/
def selectProtocol (requested : Str) : List Str → Str
  | [] => []
  | s :: supported => if hasToken U requested s then s else selectProtocol requested supported

/-- The loop of `Negotiate` over the offers : the first one it can honor. -/
def firstDeflate : List Extension → Option DeflateParams
  | [] => none
  | e :: es =>
    if !U.equalFold e.name deflateName then firstDeflate es
    else
      match parseDeflate U e with
      | (p, true) => some p
      | (_, false) => firstDeflate es

/-- What the server takes an offer to mean. -/
def serverCompression (c : Compress) (p : DeflateParams) : Compression where
  level := c.level
  minSize := c.minSize
  sendContextTakeover := c.contextTakeover && !p.serverNoContextTakeover
  receiveContextTakeover := c.contextTakeover && !p.clientNoContextTakeover
  sendWindowBits := p.serverMaxWindowBits
  receiveWindowBits := p.clientMaxWindowBits

/-- What the client takes an answer to mean. -/
def clientCompression (c : Compress) (p : DeflateParams) : Compression where
  level := c.level
  minSize := c.minSize
  sendContextTakeover := c.contextTakeover && !p.clientNoContextTakeover
  receiveContextTakeover := c.contextTakeover && !p.serverNoContextTakeover
  sendWindowBits := p.clientMaxWindowBits
  receiveWindowBits := p.serverMaxWindowBits

/-- The extension part of `Negotiate` : the negotiated compression. -/
def negotiateExtensions (req : Request) (opts : Options) : Except Err (Option Compression) :=
  match opts.compression with
  | none => .ok none
  | some c =>
    match parseExtensions U req.extensions with
    | .error e => .error e
    | .ok exts => .ok ((firstDeflate U exts).map (serverCompression c))

/-- `Negotiate`. -/
def negotiate (req : Request) (opts : Options) : Except Err (Response × Result) :=
  match validOptions opts with
  | .error e => .error e
  | .ok () =>
    if req.method ≠ ascii "GET" ∨ !hasToken U req.upgrade (ascii "websocket") ∨
        !hasToken U req.connection (ascii "Upgrade") then .error .notWebSocket
    else if req.version ≠ version then .error .badVersion
    else if !validKey D req.key then .error .badKey
    else
      match negotiateExtensions U req opts with
      | .error e => .error e
      | .ok comp =>
        let protocol := selectProtocol U req.protocols opts.protocols
        .ok ({ status := 101
               upgrade := ascii "websocket"
               connection := ascii "Upgrade"
               accept := accept D req.key
               extensions := (comp.map formatDeflate).getD []
               protocol := protocol },
          { compression := comp, protocol := protocol })

/-- The extension part of `Confirm`. -/
def confirmExtensions (resp : Response) (opts : Options) : Except Err (Option Compression) :=
  match parseExtensions U resp.extensions with
  | .error e => .error e
  | .ok [] => .ok none
  | .ok [e] =>
    match opts.compression with
    | none => .error .badExtension
    | some c =>
      if !U.equalFold e.name deflateName then .error .badExtension
      else
        match parseDeflate U e with
        | (_, false) => .error .badExtension
        | (p, true) => .ok (some (clientCompression c p))
  | .ok (_ :: _ :: _) => .error .badExtension

/-- `Confirm`. -/
def confirm (req : Request) (resp : Response) (opts : Options) : Except Err Result :=
  if resp.status ≠ 101 then .error .badStatus
  else if !hasToken U resp.upgrade (ascii "websocket") ∨
      !hasToken U resp.connection (ascii "Upgrade") then .error .notWebSocket
  else if resp.accept ≠ accept D req.key then .error .badAccept
  else if resp.protocol ≠ [] ∧ !hasToken U req.protocols resp.protocol then .error .badProtocol
  else
    match confirmExtensions U resp opts with
    | .error e => .error e
    | .ok comp => .ok { compression := comp, protocol := resp.protocol }

end Handshake

end Ews
