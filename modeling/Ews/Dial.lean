import Ews.ResponseHead
import Mathlib.Data.List.Sort

/-!
# Dialing

`Dial` of `transport/dial.go` once its transport is up : it builds a request from the options,
writes it, reads the response and confirms it. The connection it returns first gives what the
buffered reader holds behind the response.

Of `net/http` there is what `Request.Write` does to a header (`head`). `ReadResponse` is a
parameter, of which only is assumed that it reads what a server of this package writes (`Http`).
-/

set_option linter.unusedSectionVars false

namespace Ews

namespace Dial

open Text Serve Handshake Upgrade

/-! ## The header of the request -/

/-- A byte of an HTTP token. -/
def isTokenByte (b : UInt8) : Bool :=
  (0x30 ≤ b && b ≤ 0x39) || (0x41 ≤ b && b ≤ 0x5a) || (0x61 ≤ b && b ≤ 0x7a) ||
    [0x21, 0x23, 0x24, 0x25, 0x26, 0x27, 0x2a, 0x2b, 0x2d, 0x2e, 0x5e, 0x5f, 0x60, 0x7c, 0x7e].contains b

/-- `http.CanonicalHeaderKey` : a name that is no token stays as it is. -/
def canonicalKey (name : Str) : Str :=
  if name.all isTokenByte then canonical name else name

/-- `h[name] = values`. -/
def put (h : Extra) (name : Str) (values : List Str) : Extra :=
  h.filter (fun kv => kv.1 ≠ name) ++ [(name, values)]

/-- `Header.Set`. -/
def set (h : Extra) (name value : Str) : Extra :=
  put h (canonicalKey name) [value]

/-- `Header.Del`. -/
def del (h : Extra) (name : Str) : Extra :=
  h.filter fun kv => kv.1 ≠ canonicalKey name

/-- The header `Dial` sends : that of its options, in which the handshake's fields take
precedence. -/
def header (extra : Extra) (req : Handshake.Request) : Extra :=
  let h := extra.foldl (fun h kv => put h (canonicalKey kv.1) kv.2) []
  let h := set h (ascii "Upgrade") req.upgrade
  let h := set h (ascii "Connection") req.connection
  let h := set h (ascii "Sec-WebSocket-Version") req.version
  let h := set h (ascii "Sec-WebSocket-Key") req.key
  let h := del h (ascii "Sec-WebSocket-Extensions")
  let h := del h (ascii "Sec-WebSocket-Protocol")
  let h := if req.extensions ≠ [] then set h (ascii "Sec-WebSocket-Extensions") req.extensions else h
  if req.protocols ≠ [] then set h (ascii "Sec-WebSocket-Protocol") req.protocols else h

/-! ## Writing the request -/

/-- A value as it is written : line ends become blanks, and the blanks around it go. -/
def written (value : Str) : Str :=
  trim isBlank (value.map fun b => if isLineEnd b then 0x20 else b)

theorem isTextByte_trim {p : UInt8 → Bool} {s : Str} (h : s.all isTextByte = true) :
    (trim p s).all isTextByte = true := by
  rw [List.all_eq_true] at h ⊢
  intro b hb
  exact h b ((List.dropWhile_sublist p).mem ((List.rdropWhile_prefix p _).sublist.mem hb))

theorem isTextByte_written (value : Str) : (0x20 :: written value).all isTextByte = true := by
  have hmap : (value.map fun b => if isLineEnd b then 0x20 else b).all isTextByte = true := by
    rw [List.all_eq_true]
    intro b hb
    obtain ⟨c, -, rfl⟩ := List.mem_map.mp hb
    split_ifs with hc
    · rfl
    · simpa [isTextByte] using hc
  rw [List.all_cons, Bool.and_eq_true]
  exact ⟨rfl, isTextByte_trim hmap⟩

theorem isNameByte_of_token : ∀ {b : UInt8}, isTokenByte b = true → isNameByte b = true :=
  @Utf8.forall_byte (fun b => isTokenByte b = true → isNameByte b = true) (by decide +kernel)

theorem isNameByte_of_tokens {name : Str} (h : name.all isTokenByte = true) :
    name.all isNameByte = true := by
  rw [List.all_eq_true] at h ⊢
  exact fun b hb => isNameByte_of_token (h b hb)

/-- The fields of a name : there are none if it is no token. -/
def fieldsOf (kv : Str × List Str) : List Field :=
  if h : kv.1 ≠ [] ∧ kv.1.all isTokenByte = true then
    kv.2.map fun v =>
      ⟨kv.1, 0x20 :: written v, true, h.1, isNameByte_of_tokens h.2, isTextByte_written v⟩
  else []

/-- The order of names. -/
def precedes : Str → Str → Bool
  | [], _ => true
  | _ :: _, [] => false
  | a :: s, b :: t => a < b || (a == b && precedes s t)

/-- The names that are not written from the header. -/
def excluded : List Str :=
  [ascii "Host", ascii "User-Agent", ascii "Content-Length", ascii "Transfer-Encoding",
    ascii "Trailer"]

/-- The header in the order in which it is written. -/
def sorted (h : Extra) : Extra :=
  (h.filter fun kv => !excluded.contains kv.1).insertionSort fun a b => precedes a.1 b.1 = true

/-- The user agent : that of the header, or a default. -/
def agent (h : Extra) : Str :=
  match h.find? fun kv => kv.1 = ascii "User-Agent" with
  | some kv => kv.2.headD []
  | none => ascii "Go-http-client/1.1"

/-- Where a request goes, as `net/url` gives it. -/
structure Target where
  path : Str
  host : Str
  path_ne : path ≠ []
  path_bytes : path.all isPathByte = true
  host_bytes : host.all isTextByte = true

theorem get_ne_nil : ascii "GET" ≠ [] := by
  decide

theorem isPathByte_get : (ascii "GET").all isPathByte = true := by
  decide

/-- What `Request.Write` writes. -/
def head (t : Target) (h : Extra) : Head where
  method := ascii "GET"
  path := t.path
  cr := true
  fields := ⟨ascii "Host", 0x20 :: t.host, true, by decide, by decide +kernel, t.host_bytes⟩ ::
    ((if agent h = [] then [] else fieldsOf (ascii "User-Agent", [agent h])) ++
      (sorted h).flatMap fieldsOf)
  last := true
  method_ne := get_ne_nil
  path_ne := t.path_ne
  method_bytes := isPathByte_get
  path_bytes := t.path_bytes

/-! ## The response -/

/-- A byte that is printed. -/
def isPrintable (b : UInt8) : Bool :=
  0x20 ≤ b && b < 0x7f

/-- A response with values that can be printed. -/
structure Printable (resp : Handshake.Response) : Prop where
  accept : resp.accept.all isPrintable = true
  extensions : resp.extensions.all isPrintable = true
  protocol : resp.protocol.all isPrintable = true

/-- The header map of the fields of a response. -/
def answerMap (fs : List (Str × Str)) : HeaderMap := fun name =>
  (fs.filter fun f => canonical f.1 = name).map fun f => trim isBlank f.2

/-- `bufio.NewReader`. -/
def newReader (src : Source) : Buffered :=
  Bufio.newReaderSize src 4096

/-- `http.ReadResponse` : the status and the header of a response, and what is left of the
reader. -/
structure Http where
  readResponse : Buffered → Except Err (ℤ × HeaderMap) × Buffered
  reads : ∀ {resp : Handshake.Response} {src : Source} {rest : Str}, src.Steady → Printable resp →
    src.content = responseBytes resp ++ rest →
    ∃ br, readResponse (newReader src) = (.ok (101, answerMap (ownFields resp)), br) ∧
      br.content = rest ∧ br.src.err = src.err

/-- The handshake's view of a response of `net/http`. -/
def answer (status : ℤ) (header : HeaderMap) : Handshake.Response where
  status := status
  upgrade := header.get (ascii "Upgrade")
  connection := header.get (ascii "Connection")
  accept := header.get (ascii "Sec-WebSocket-Accept")
  extensions := header.get (ascii "Sec-WebSocket-Extensions")
  protocol := header.get (ascii "Sec-WebSocket-Protocol")

/-- Why `Dial` fails : the options, the transport, or the response, with its status. -/
inductive DialErr
  | options (e : Handshake.Err)
  | write
  | read (e : Err)
  | handshake (status : ℤ) (e : Handshake.Err)
  deriving DecidableEq, Repr

/-- What `Dial` does with a transport : close it, or return a connection. -/
inductive Dialed
  | failed (wrote : Str) (e : DialErr)
  | connected (wrote : Str) (conn : Handed) (res : Result)

/-- `Dial`, for the random bytes of the key and a transport that is up. -/
def dial (U : Unicode) (D : Digest) (http : Http) (opts : Options) (extra : Extra) (t : Target)
    (nonce : Str) (socket : Socket) : Dialed :=
  match newRequest D opts nonce with
  | .error e => .failed [] (.options e)
  | .ok req =>
    let wrote := (head t (header extra req)).bytes
    if socket.broken then .failed wrote .write
    else
      match http.readResponse (newReader socket.src) with
      | (.error e, _) => .failed wrote (.read e)
      | (.ok (status, fields), br) =>
        match confirm U D req (answer status fields) opts with
        | .error e => .failed wrote (.handshake status e)
        | .ok res =>
          .connected wrote (if br.buffered ≠ 0 then .buffered br else .direct br.src) res

/-! ## What a server reads in the request -/

/-- The values under a name. -/
def entries (h : Extra) (name : Str) : List (List Str) :=
  (h.filter fun kv => kv.1 = name).map Prod.snd

theorem entries_filter (h : Extra) (a name : Str) :
    entries (h.filter fun kv => kv.1 ≠ a) name = if a = name then [] else entries h name := by
  unfold entries
  rw [List.filter_filter]
  split_ifs with ha
  · subst ha
    simp
  · congr 1
    refine List.filter_congr fun kv _ => ?_
    by_cases hkv : kv.1 = name
    · simp [hkv, Ne.symm ha]
    · simp [hkv]

theorem entries_put (h : Extra) (a name : Str) (vs : List Str) :
    entries (put h a vs) name = if a = name then [vs] else entries h name := by
  have happend : entries (put h a vs) name =
      entries (h.filter fun kv => kv.1 ≠ a) name ++ entries [(a, vs)] name := by
    simp only [entries, put, List.filter_append, List.map_append]
  rw [happend, entries_filter]
  split_ifs with ha <;> simp [entries, ha]

theorem canonicalKey_own : canonicalKey (ascii "Upgrade") = ascii "Upgrade" ∧
    canonicalKey (ascii "Connection") = ascii "Connection" ∧
    canonicalKey (ascii "Sec-WebSocket-Version") = ascii "Sec-Websocket-Version" ∧
    canonicalKey (ascii "Sec-WebSocket-Key") = ascii "Sec-Websocket-Key" ∧
    canonicalKey (ascii "Sec-WebSocket-Extensions") = ascii "Sec-Websocket-Extensions" ∧
    canonicalKey (ascii "Sec-WebSocket-Protocol") = ascii "Sec-Websocket-Protocol" := by
  decide +kernel

/-- Whatever is in the options, the handshake's fields are the handshake's. -/
theorem entries_header (extra : Extra) (req : Handshake.Request) :
    entries (header extra req) (ascii "Upgrade") = [[req.upgrade]] ∧
    entries (header extra req) (ascii "Connection") = [[req.connection]] ∧
    entries (header extra req) (ascii "Sec-Websocket-Version") = [[req.version]] ∧
    entries (header extra req) (ascii "Sec-Websocket-Key") = [[req.key]] ∧
    entries (header extra req) (ascii "Sec-Websocket-Extensions") =
      (if req.extensions ≠ [] then [[req.extensions]] else []) ∧
    entries (header extra req) (ascii "Sec-Websocket-Protocol") =
      (if req.protocols ≠ [] then [[req.protocols]] else []) := by
  obtain ⟨hu, hc, hv, hk, he, hp⟩ := canonicalKey_own
  simp only [header, set, del, hu, hc, hv, hk, he, hp]
  split_ifs <;> simp +decide only [entries_put, entries_filter, if_true, if_false, and_self]

/-- A letter in the case of its place. -/
def recase (up : Bool) (c : UInt8) : UInt8 :=
  if up ∧ 0x61 ≤ c ∧ c ≤ 0x7a then c - 0x61 + 0x41
  else if !up ∧ 0x41 ≤ c ∧ c ≤ 0x5a then c - 0x41 + 0x61
  else c

theorem recase_recase (up : Bool) : ∀ c : UInt8, recase up (recase up c) = recase up c ∧
    (recase up c == 0x2d) = (c == 0x2d) := by
  cases up <;> exact Utf8.forall_byte (by decide +kernel)

theorem canonicalFrom_canonicalFrom : ∀ (up : Bool) (s : Str),
    canonicalFrom up (canonicalFrom up s) = canonicalFrom up s
  | _, [] => rfl
  | up, c :: s => by
    obtain ⟨hcase, hdash⟩ := recase_recase up c
    change recase up (recase up c) ::
        canonicalFrom (recase up c == 0x2d) (canonicalFrom (c == 0x2d) s) =
      recase up c :: canonicalFrom (c == 0x2d) s
    rw [hcase, hdash, canonicalFrom_canonicalFrom]

theorem canonical_canonical (name : Str) : canonical (canonical name) = canonical name := by
  rw [← canonicalHeader_eq, ← canonicalHeader_eq]
  exact canonicalFrom_canonicalFrom true name

/-- The names of a header are canonical, as far as they are tokens. -/
def Canonical (h : Extra) : Prop :=
  ∀ kv ∈ h, kv.1.all isTokenByte = true → canonical kv.1 = kv.1

theorem canonical_canonicalKey (name : Str) (h : (canonicalKey name).all isTokenByte = true) :
    canonical (canonicalKey name) = canonicalKey name := by
  unfold canonicalKey at h ⊢
  split_ifs at h ⊢ with hname
  · exact canonical_canonical name
  · exact absurd h hname

namespace Canonical

variable {h : Extra}

theorem filter (hh : Canonical h) (p : Str × List Str → Bool) : Canonical (h.filter p) :=
  fun kv hkv => hh kv (List.mem_of_mem_filter hkv)

theorem put (hh : Canonical h) (name : Str) (vs : List Str) :
    Canonical (put h (canonicalKey name) vs) := by
  intro kv hkv
  rcases List.mem_append.mp hkv with hkv | hkv
  · exact hh.filter _ kv hkv
  · rw [List.mem_singleton.mp hkv]
    exact canonical_canonicalKey name

theorem puts : ∀ (extra : Extra) {h : Extra}, Canonical h →
    Canonical (extra.foldl (fun h kv => Dial.put h (canonicalKey kv.1) kv.2) h)
  | [], _, hh => hh
  | kv :: extra, _, hh => puts extra (hh.put kv.1 kv.2)

end Canonical

theorem canonical_header (extra : Extra) (req : Handshake.Request) :
    Canonical (header extra req) := by
  have hextra := Canonical.puts extra (h := []) fun kv hkv => by cases hkv
  have hown := ((((((hextra.put (ascii "Upgrade") [req.upgrade]).put (ascii "Connection")
    [req.connection]).put (ascii "Sec-WebSocket-Version") [req.version]).put
    (ascii "Sec-WebSocket-Key") [req.key]).filter
      fun kv => kv.1 ≠ canonicalKey (ascii "Sec-WebSocket-Extensions")).filter
      fun kv => kv.1 ≠ canonicalKey (ascii "Sec-WebSocket-Protocol"))
  unfold header
  dsimp only
  split_ifs
  · exact (hown.put _ _).put _ _
  · exact hown.put _ _
  · exact hown.put _ _
  · exact hown

section

variable (U : Unicode) {name : Str}

/-- A value as it is read again. -/
def reread (value : Str) : Str :=
  U.trimSpace (0x20 :: written value)

theorem valuesOf_append (fs gs : List Field) (name : Str) :
    valuesOf U (fs ++ gs) name = valuesOf U fs name ++ valuesOf U gs name := by
  simp [valuesOf]

theorem valuesOf_fieldsOf (hne : name ≠ []) (htoken : name.all isTokenByte = true)
    {kv : Str × List Str} (hkv : kv.1.all isTokenByte = true → canonical kv.1 = kv.1) :
    valuesOf U (fieldsOf kv) name = if kv.1 = name then kv.2.map (reread U) else [] := by
  unfold fieldsOf
  by_cases hvalid : kv.1 ≠ [] ∧ kv.1.all isTokenByte = true
  · rw [dif_pos hvalid, valuesOf]
    split_ifs with heq
    · have hself : canonical name = name := heq ▸ hkv hvalid.2
      simp only [List.filter_map, Function.comp_def, heq, hself, decide_true, List.filter_true,
        List.map_map]
      rfl
    · simp [List.filter_map, Function.comp_def, hkv hvalid.2, heq]
  · rw [dif_neg hvalid, if_neg]
    · rfl
    · rintro rfl
      exact hvalid ⟨hne, htoken⟩

theorem valuesOf_flatMap (hne : name ≠ []) (htoken : name.all isTokenByte = true) :
    ∀ h : Extra, Canonical h →
      valuesOf U (h.flatMap fieldsOf) name = (entries h name).flatMap fun vs => vs.map (reread U)
  | [], _ => rfl
  | kv :: h, hh => by
    have hrest := valuesOf_flatMap hne htoken h fun kv hkv => hh kv (List.mem_cons_of_mem _ hkv)
    rw [List.flatMap_cons, valuesOf_append, hrest,
      valuesOf_fieldsOf U hne htoken (hh kv List.mem_cons_self)]
    by_cases heq : kv.1 = name <;> simp [entries, heq]

/-- The order in which a header is written does not matter to a name that is in it once. -/
theorem entries_sorted {h : Extra} (hname : name ∉ excluded) (hone : (entries h name).length ≤ 1) :
    entries (sorted h) name = entries h name := by
  have hperm : (entries (sorted h) name).Perm (entries h name) := by
    have hfilter : entries (h.filter fun kv => !excluded.contains kv.1) name = entries h name := by
      unfold entries
      rw [List.filter_filter]
      congr 1
      refine List.filter_congr fun kv _ => ?_
      by_cases hkv : kv.1 = name
      · simp [hkv, hname]
      · simp [hkv]
    rw [← hfilter]
    exact ((List.perm_insertionSort _ _).filter _).map _
  cases hentries : entries h name with
  | nil =>
    rw [hentries] at hperm
    exact hperm.eq_nil
  | cons vs more =>
    rw [hentries, List.length_cons] at hone
    have hmore : more = [] := List.length_eq_zero_iff.mp (by omega)
    rw [hentries, hmore] at hperm
    rw [hmore]
    exact hperm.eq_singleton

/-- What a server reads under a name. -/
theorem valuesOf_head (t : Target) {h : Extra} (hh : Canonical h) (hne : name ≠ [])
    (htoken : name.all isTokenByte = true) (hname : name ∉ excluded)
    (hone : (entries h name).length ≤ 1) :
    valuesOf U (head t h).fields name = (entries h name).flatMap fun vs => vs.map (reread U) := by
  have hsorted : Canonical (sorted h) := fun kv hkv =>
    hh.filter _ kv ((List.perm_insertionSort _ _).mem_iff.mp hkv)
  have hhost : ascii "Host" ≠ name := by
    rintro rfl
    exact hname (by decide)
  have hagent : ascii "User-Agent" ≠ name := by
    rintro rfl
    exact hname (by decide)
  have hagents : valuesOf U (if agent h = [] then [] else fieldsOf (ascii "User-Agent", [agent h]))
      name = [] := by
    split_ifs
    · rfl
    · have hself : canonical (ascii "User-Agent") = ascii "User-Agent" := by decide +kernel
      rw [valuesOf_fieldsOf U hne htoken fun _ => hself, if_neg hagent]
  have hfirst : ∀ f : Field, f.name = ascii "Host" → ∀ fs, valuesOf U (f :: fs) name =
      valuesOf U fs name := fun f hf fs => by
    have hcanonical : canonical (ascii "Host") = ascii "Host" := by decide +kernel
    simp [valuesOf, hf, hcanonical, hhost]
  rw [head, hfirst _ rfl, valuesOf_append, hagents, List.nil_append,
    valuesOf_flatMap U hne htoken _ hsorted, entries_sorted hname hone]

end

end Dial

end Ews
