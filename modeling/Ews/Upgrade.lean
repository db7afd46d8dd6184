import Ews.Handoff
import Ews.Offers

/-!
# Serving an upgrade behind an HTTP server

`Upgrade` of `transport/upgrade.go` : it takes the handshake's fields from the header map of
`net/http`, which has the values of each canonical name in their order, and writes the response
with the header fields the handler set.

`Server.serve` joins the values of every name, and so does `Upgrade` for the fields that are
lists. Of `Upgrade`, `Sec-WebSocket-Version` and `Sec-WebSocket-Key` it takes the first value only
(`request`). The two entry points come to the same outcome exactly if none of these three is
repeated where that counts (`negotiate_alike_iff`).
-/

set_option linter.unusedSectionVars false

namespace Ews

namespace Upgrade

open Text Serve Handshake

/-! ## The request -/

/-- The header map of `net/http` : the values of a canonical name. -/
abbrev HeaderMap := Str → List Str

namespace HeaderMap

/-- `Header.Values`. -/
def values (header : HeaderMap) (name : Str) : List Str :=
  header (canonical name)

/-- `Header.Get` : the first value. -/
def get (header : HeaderMap) (name : Str) : Str :=
  (header.values name).headD []

/-- The values of a name, joined. -/
def join (header : HeaderMap) (name : Str) : Str :=
  (ascii ", ").intercalate (header.values name)

end HeaderMap

/-- The handshake's view of a request of `net/http`. -/
def request (method : Str) (header : HeaderMap) : Handshake.Request where
  method := method
  upgrade := header.get (ascii "Upgrade")
  connection := header.join (ascii "Connection")
  version := header.get (ascii "Sec-WebSocket-Version")
  key := header.get (ascii "Sec-WebSocket-Key")
  extensions := header.join (ascii "Sec-WebSocket-Extensions")
  protocols := header.join (ascii "Sec-WebSocket-Protocol")

/-! ## Joined values -/

theorem join_of_length_le {vs : List Str} (h : vs.length ≤ 1) :
    (ascii ", ").intercalate vs = vs.headD [] := by
  cases vs with
  | nil => rfl
  | cons v vs =>
    cases vs with
    | nil => simp
    | cons w ws =>
      simp only [List.length_cons] at h
      omega

theorem join_cons_cons (v w : Str) (vs : List Str) :
    (ascii ", ").intercalate (v :: w :: vs) =
      v ++ 0x2c :: 0x20 :: (ascii ", ").intercalate (w :: vs) := by
  have hsep : ascii ", " = [0x2c, 0x20] := by decide
  rw [List.intercalate_cons_cons, hsep, List.append_assoc]
  rfl

theorem comma_mem_join {vs : List Str} (h : 1 < vs.length) :
    0x2c ∈ (ascii ", ").intercalate vs := by
  cases vs with
  | nil => simp at h
  | cons v vs =>
    cases vs with
    | nil => simp at h
    | cons w ws =>
      rw [join_cons_cons]
      exact List.mem_append_right _ List.mem_cons_self

/-- The pieces on both sides of a separator. -/
theorem split_append (sep : UInt8) (t : Str) : ∀ s : Str,
    split sep (s ++ sep :: t) = split sep s ++ split sep t
  | [] => by simp [split, List.splitOn_cons_eq_if_modifyHead]
  | b :: s => by
    have ih := split_append sep t s
    unfold split at ih ⊢
    rw [List.cons_append, List.splitOn_cons_eq_if_modifyHead, ih,
      List.splitOn_cons_eq_if_modifyHead]
    split_ifs with hb
    · rfl
    · cases hs : s.splitOn sep with
      | nil => exact absurd hs (List.splitOn_ne_nil _ _)
      | cons w ws => rfl

section

variable (U : Unicode) (D : Digest)

/-- A token of the first value is one of the joined values. -/
theorem hasToken_join {vs : List Str} {token : Str} (h : hasToken U (vs.headD []) token = true) :
    hasToken U ((ascii ", ").intercalate vs) token = true := by
  cases vs with
  | nil => exact h
  | cons v vs =>
    cases vs with
    | nil => simpa using h
    | cons w ws =>
      rw [join_cons_cons, hasToken, split_append, List.any_append]
      exact Bool.or_eq_true_iff.mpr (Or.inl h)

/-! ## What a request is refused for -/

/-- The first check of `negotiate` that the request itself fails. -/
def refusal (req : Handshake.Request) : Option Handshake.Err :=
  if req.method ≠ ascii "GET" ∨ !hasToken U req.upgrade (ascii "websocket") ∨
      !hasToken U req.connection (ascii "Upgrade") then some .notWebSocket
  else if req.version ≠ version then some .badVersion
  else if !validKey D req.key then some .badKey
  else none

/-- A request that is refused, for any valid options. -/
theorem negotiate_refusal {req : Handshake.Request} {e : Handshake.Err}
    (h : refusal U D req = some e) (opts : Options) :
    negotiate U D req opts =
      match validOptions opts with
      | .error e => .error e
      | .ok () => .error e := by
  unfold negotiate
  unfold refusal at h
  cases validOptions opts with
  | error _ => rfl
  | ok _ =>
    dsimp only
    split_ifs at h ⊢ <;> cases h <;> rfl

/-- A request that is not refused is accepted where nothing is offered. -/
theorem negotiate_plain {req : Handshake.Request} (h : refusal U D req = none) :
    ∃ out, negotiate U D req {} = .ok out := by
  unfold refusal at h
  unfold negotiate
  dsimp only [validOptions]
  split_ifs at h ⊢
  exact ⟨_, rfl⟩

theorem negotiate_refused {req : Handshake.Request} {e : Handshake.Err}
    (h : refusal U D req = some e) : negotiate U D req {} = .error e :=
  negotiate_refusal U D h {}

/-- Two requests with the same outcome are refused for the same reason. -/
theorem refusal_congr {req req' : Handshake.Request}
    (h : negotiate U D req {} = negotiate U D req' {}) : refusal U D req = refusal U D req' := by
  cases hreq : refusal U D req with
  | some e =>
    cases hreq' : refusal U D req' with
    | some e' =>
      rw [negotiate_refused U D hreq, negotiate_refused U D hreq'] at h
      cases h
      rfl
    | none =>
      obtain ⟨out, hout⟩ := negotiate_plain U D hreq'
      rw [negotiate_refused U D hreq, hout] at h
      cases h
  | none =>
    obtain ⟨out, hout⟩ := negotiate_plain U D hreq
    cases hreq' : refusal U D req' with
    | some e' =>
      rw [hout, negotiate_refused U D hreq'] at h
      cases h
    | none => rfl

/-- Two requests that are not refused have the same outcome if the rest of them is the same. -/
theorem negotiate_accepted {req req' : Handshake.Request} (h : refusal U D req = none)
    (h' : refusal U D req' = none) (hkey : req.key = req'.key)
    (hextensions : req.extensions = req'.extensions) (hprotocols : req.protocols = req'.protocols)
    (opts : Options) : negotiate U D req opts = negotiate U D req' opts := by
  unfold refusal at h h'
  unfold negotiate
  cases validOptions opts with
  | error _ => rfl
  | ok _ =>
    dsimp only
    split_ifs at h h' ⊢
    simp only [negotiateExtensions, hkey, hextensions, hprotocols]

/-! ## The two entry points -/

/-- The request `Server.serve` makes of the fields, one after the other. -/
def served (h : Head) : Serve.Request :=
  h.fields.foldl (fun r f => r.add (canonicalHeader f.name) (U.trimSpace f.text))
    { method := h.method, path := h.path }

/-- The header map `net/http` makes of them. -/
def mapped (h : Head) : HeaderMap :=
  valuesOf U h.fields

theorem served_eq (h : Head) : served U h = h.request U := by
  rw [← foldl_request, served]
  simp only [canonicalHeader_eq]

/-- The two read the same in a field whose values are joined. -/
theorem handshake_header (h : Head) {name : Str} (hname : canonical name ≠ ascii "Host") :
    ((h.request U).header (canonical name)).getD [] = (mapped U h).join name := by
  rw [Head.request, HeaderMap.join, HeaderMap.values, mapped]
  by_cases hnil : valuesOf U h.fields (canonical name) = []
  · simp [hnil]
  · simp [hnil, hname]

/-- What `Server.serve` makes of the request, in terms of the header map. -/
theorem served_handshake (h : Head) : (served U h).handshake =
    { request h.method (mapped U h) with
      upgrade := (mapped U h).join (ascii "Upgrade")
      version := (mapped U h).join (ascii "Sec-WebSocket-Version")
      key := (mapped U h).join (ascii "Sec-WebSocket-Key") } := by
  have hjoin : ∀ name out : Str, canonical name = out → out ≠ ascii "Host" →
      ((h.request U).header out).getD [] = (mapped U h).join name := by
    rintro name _ rfl hne
    exact handshake_header U h hne
  rw [served_eq, Request.handshake, request,
    hjoin (ascii "Upgrade") _ (by decide) (by decide),
    hjoin (ascii "Connection") _ (by decide) (by decide),
    hjoin (ascii "Sec-WebSocket-Version") _ (by decide) (by decide),
    hjoin (ascii "Sec-WebSocket-Key") _ (by decide) (by decide),
    hjoin (ascii "Sec-WebSocket-Extensions") _ (by decide) (by decide),
    hjoin (ascii "Sec-WebSocket-Protocol") _ (by decide) (by decide)]
  rfl

/-- No repeated field counts. In an upgrade request, the token of `Upgrade` is in its first value
if it is in any ; the version is given once if the first one is right ; and then the key is given
once if the first one is valid. -/
def Alike (header : HeaderMap) : Prop :=
  hasToken U (header.join (ascii "Connection")) (ascii "Upgrade") = true →
  hasToken U (header.join (ascii "Upgrade")) (ascii "websocket") = true →
    hasToken U (header.get (ascii "Upgrade")) (ascii "websocket") = true ∧
    (header.get (ascii "Sec-WebSocket-Version") = version →
      (header.values (ascii "Sec-WebSocket-Version")).length ≤ 1 ∧
      (validKey D (header.get (ascii "Sec-WebSocket-Key")) = true →
        (header.values (ascii "Sec-WebSocket-Key")).length ≤ 1))

variable (header : HeaderMap)

theorem join_eq_get {header : HeaderMap} {name : Str} (h : (header.values name).length ≤ 1) :
    header.join name = header.get name :=
  join_of_length_le h

/-- A joined version is right if it is given once and right. -/
theorem join_eq_version_iff {header : HeaderMap} {name : Str} :
    header.join name = version ↔ header.get name = version ∧ (header.values name).length ≤ 1 := by
  by_cases hlen : (header.values name).length ≤ 1
  · simp [join_eq_get hlen, hlen]
  · refine ⟨fun h => ?_, fun h => absurd h.2 hlen⟩
    have hcomma := comma_mem_join (Nat.lt_of_not_le hlen)
    rw [← HeaderMap.join, h] at hcomma
    exact absurd hcomma (by decide)

/-- A joined key is valid if it is given once and valid. -/
theorem validKey_join_iff {D : Digest} (commas : ∀ s, 0x2c ∈ s → D.decode s = none)
    {header : HeaderMap} {name : Str} : validKey D (header.join name) = true ↔
      validKey D (header.get name) = true ∧ (header.values name).length ≤ 1 := by
  by_cases hlen : (header.values name).length ≤ 1
  · simp [join_eq_get hlen, hlen]
  · refine ⟨fun h => ?_, fun h => absurd h.2 hlen⟩
    have hcomma := commas _ (comma_mem_join (Nat.lt_of_not_le hlen))
    rw [HeaderMap.join, validKey, hcomma] at h
    cases h

/-- The request with every field joined. -/
def joinedRequest : Handshake.Request :=
  { request (ascii "GET") header with
    upgrade := header.join (ascii "Upgrade")
    version := header.join (ascii "Sec-WebSocket-Version")
    key := header.join (ascii "Sec-WebSocket-Key") }

/-- The two requests are refused for the same reason, or both not, exactly if no repeated field
counts. -/
theorem refusal_joined_iff (commas : ∀ s, 0x2c ∈ s → D.decode s = none) :
    refusal U D (request (ascii "GET") header) = refusal U D (joinedRequest header) ↔
      Alike U D header := by
  have hup := @hasToken_join U (header.values (ascii "Upgrade")) (ascii "websocket")
  rw [← HeaderMap.join, ← HeaderMap.get] at hup
  have hversion := @join_eq_version_iff header (ascii "Sec-WebSocket-Version")
  have hkey := @validKey_join_iff D commas header (ascii "Sec-WebSocket-Key")
  simp only [refusal, joinedRequest, request, Alike, ne_eq, not_true_eq_false, false_or,
    Bool.not_eq_true']
  generalize hasToken U (header.get (ascii "Upgrade")) (ascii "websocket") = first at hup ⊢
  generalize hasToken U (header.join (ascii "Upgrade")) (ascii "websocket") = all at hup ⊢
  generalize hasToken U (header.join (ascii "Connection")) (ascii "Upgrade") = conn
  -- The checks in their order ; a check that the first value passes and the joined ones fail, or
  -- the other way round, makes the outcomes differ.
  cases conn with
  | false => simp
  | true =>
    cases all with
    | false =>
      have hfirst : first = false := by simpa using hup
      simp [hfirst]
    | true =>
      cases first with
      | false =>
        simp only [hversion]
        split_ifs <;> simp_all
      | true =>
        by_cases hv : header.get (ascii "Sec-WebSocket-Version") = version
        · by_cases hlen : (header.values (ascii "Sec-WebSocket-Version")).length ≤ 1
          · by_cases hk : validKey D (header.get (ascii "Sec-WebSocket-Key")) = true
            · simp [hversion, hv, hlen, hk, hkey]
            · simp [hversion, hv, hlen, hk, hkey]
          · simp [hversion, hv, hlen]
        · simp [hversion, hv]

/-- A valid key that is joined was given once. -/
theorem key_of_refusal {header : HeaderMap} (commas : ∀ s, 0x2c ∈ s → D.decode s = none)
    (h : refusal U D (joinedRequest header) = none) :
    header.join (ascii "Sec-WebSocket-Key") = header.get (ascii "Sec-WebSocket-Key") := by
  unfold refusal at h
  split_ifs at h with _ _ hkey
  have hvalid : validKey D (joinedRequest header).key = true := by simpa using hkey
  exact join_eq_get ((validKey_join_iff commas).mp hvalid).2

/-- The two entry points come to the same outcome of the handshake for every options exactly if
no repeated field counts, where a key with a comma is no base64. -/
theorem negotiate_alike_iff (commas : ∀ s, 0x2c ∈ s → D.decode s = none) (h : Head)
    (get : h.method = ascii "GET") :
    (∀ opts, negotiate U D (request h.method (mapped U h)) opts =
      negotiate U D (served U h).handshake opts) ↔ Alike U D (mapped U h) := by
  have hserved : (served U h).handshake = joinedRequest (mapped U h) := by
    rw [served_handshake, get, joinedRequest]
  rw [hserved, get, ← refusal_joined_iff U D (mapped U h) commas]
  refine ⟨fun hsame => refusal_congr U D (hsame {}), fun hsame opts => ?_⟩
  cases hjoined : refusal U D (joinedRequest (mapped U h)) with
  | some e =>
    rw [negotiate_refusal U D (hsame.trans hjoined), negotiate_refusal U D hjoined]
  | none =>
    exact negotiate_accepted U D (hsame.trans hjoined) hjoined
      (key_of_refusal U D commas hjoined).symm rfl rfl opts

end

theorem standard_commas (s : Str) (h : 0x2c ∈ s) : standard.decode s = none :=
  Base64.decode_eq_none ⟨by decide, by decide, by decide, by decide⟩ h

/-- A valid key. -/
def key : String := "dGhlIHNhbXBsZSBub25jZQ=="

/-- The version is repeated. -/
def twice : Head :=
  getWith [
    fieldOf "Upgrade" "websocket" (by decide +kernel),
    fieldOf "Connection" "Upgrade" (by decide +kernel),
    fieldOf "Sec-WebSocket-Version" "13" (by decide +kernel),
    fieldOf "sec-websocket-version" "13" (by decide +kernel),
    fieldOf "Sec-WebSocket-Key" key (by decide +kernel)]

/-- `Upgrade` accepts the request that `Server.serve` refuses. -/
theorem negotiate_twice :
    twice.method = ascii "GET" ∧
    (∃ out, negotiate asciiOnly standard (request twice.method (mapped asciiOnly twice)) {} =
      .ok out) ∧
    negotiate asciiOnly standard (served asciiOnly twice).handshake {} = .error .badVersion := by
  refine ⟨rfl, ⟨_, rfl⟩, by decide +kernel⟩

/-- The values of a list come in several fields. -/
def listed : Head :=
  getWith [
    fieldOf "upgrade" "websocket" (by decide +kernel),
    fieldOf "Upgrade" "h2c" (by decide +kernel),
    fieldOf "Connection" "keep-alive" (by decide +kernel),
    fieldOf "CONNECTION" "Upgrade" (by decide +kernel),
    fieldOf "Sec-WebSocket-Version" "13" (by decide +kernel),
    fieldOf "Sec-WebSocket-Key" key (by decide +kernel)]

theorem negotiate_alike_iff_listed : Alike asciiOnly standard (mapped asciiOnly listed) ∧
    ∀ opts, negotiate asciiOnly standard (request listed.method (mapped asciiOnly listed)) opts =
      negotiate asciiOnly standard (served asciiOnly listed).handshake opts := by
  have halike : Alike asciiOnly standard (mapped asciiOnly listed) := fun _ _ =>
    ⟨by decide +kernel, fun _ => ⟨by decide +kernel, fun _ => by decide +kernel⟩⟩
  exact ⟨halike, (negotiate_alike_iff asciiOnly standard standard_commas listed rfl).mpr halike⟩

end Upgrade

end Ews
