import Ews.Dial
import Ews.Session

/-!
# A client and a server meet

`Dial` and `Server.serve` over the bytes they exchange. What the server reads is the request of the
handshake, whatever else the options of the client add to it (`handshake_head`), what the client
reads is the response (`answer_own`), and the results of the two make configurations that fit each
other in both directions (`dial_meets_serve`).
-/

set_option linter.unusedSectionVars false

namespace Ews

namespace Dial

open Text Serve Handshake Upgrade

/-! ## Values that arrive as they are -/

/-- A value of printed text without a blank at either end. -/
structure Neat (v : Str) : Prop where
  printable : v.all isPrintable = true
  first : ∀ b ∈ v.head?, b ≠ 0x20
  last : ∀ b ∈ v.getLast?, b ≠ 0x20

theorem isPrintable_spec : ∀ {b : UInt8}, isPrintable b = true → b < 0x80 ∧ isLineEnd b = false ∧
    (b ≠ 0x20 → isSpace b = false ∧ isBlank b = false) :=
  @Utf8.forall_byte (fun b => isPrintable b = true → b < 0x80 ∧ isLineEnd b = false ∧
    (b ≠ 0x20 → isSpace b = false ∧ isBlank b = false)) (by decide +kernel)

namespace Neat

variable {v w : Str}

theorem byte (h : Neat v) {b : UInt8} (hb : b ∈ v) : isPrintable b = true :=
  List.all_eq_true.mp h.printable b hb

theorem trim_space (h : Neat v) : trim isSpace v = v :=
  trim_eq_self
    (fun b hb => ((isPrintable_spec (h.byte (List.mem_of_mem_head? hb))).2.2 (h.first b hb)).1)
    fun b hb => ((isPrintable_spec (h.byte (List.mem_of_mem_getLast? hb))).2.2 (h.last b hb)).1

theorem trim_blank (h : Neat v) : trim isBlank v = v :=
  trim_eq_self
    (fun b hb => ((isPrintable_spec (h.byte (List.mem_of_mem_head? hb))).2.2 (h.first b hb)).2)
    fun b hb => ((isPrintable_spec (h.byte (List.mem_of_mem_getLast? hb))).2.2 (h.last b hb)).2

theorem written_eq (h : Neat v) : written v = v := by
  have hmap : (v.map fun b => if isLineEnd b then 0x20 else b) = v := by
    conv_rhs => rw [← List.map_id v]
    refine List.map_congr_left fun b hb => ?_
    rw [(isPrintable_spec (h.byte hb)).2.1]
    rfl
  rw [written, hmap, h.trim_blank]

theorem reread_eq (U : Unicode) (h : Neat v) : reread U v = v := by
  have hascii : IsAscii (0x20 :: v) := by
    intro b hb
    rcases List.mem_cons.mp hb with rfl | hb
    · decide
    · exact (isPrintable_spec (h.byte hb)).1
  rw [reread, h.written_eq, U.trimSpace_ascii _ hascii, trim_cons (by rfl), h.trim_space]

/-- Visible bytes only. -/
theorem of_visible (h : ∀ b ∈ v, isPrintable b = true ∧ b ≠ 0x20) : Neat v where
  printable := List.all_eq_true.mpr fun b hb => (h b hb).1
  first b hb := (h b (List.mem_of_mem_head? hb)).2
  last b hb := (h b (List.mem_of_mem_getLast? hb)).2

theorem of_ends (h : v.all isPrintable = true ∧ v.head? ≠ some 0x20 ∧ v.getLast? ≠ some 0x20) :
    Neat v where
  printable := h.1
  first := fun _ hb heq => h.2.1 (heq ▸ hb)
  last := fun _ hb heq => h.2.2 (heq ▸ hb)

theorem nil : Neat [] :=
  of_visible fun _ hb => by cases hb

theorem of_token (h : Token v) : Neat v := by
  have hbyte : ∀ {b : UInt8}, isToken b = true → isPrintable b = true ∧ b ≠ 0x20 :=
    @Utf8.forall_byte (fun b => isToken b = true → isPrintable b = true ∧ b ≠ 0x20)
      (by decide +kernel)
  exact of_visible fun b hb => hbyte (h.2 b hb)

theorem append (h : Neat v) (hv : v ≠ []) (h' : Neat w) (hw : w ≠ []) :
    Neat (v ++ ascii ", " ++ w) where
  printable := by
    rw [List.all_append, List.all_append, h.printable, h'.printable]
    decide
  first := by
    rw [List.append_assoc, List.head?_append_of_ne_nil _ hv]
    exact h.first
  last := by
    rw [List.getLast?_append_of_ne_nil _ hw]
    exact h'.last

/-- Tokens in a list. -/
theorem of_tokens : ∀ {ws : List Str}, (∀ w ∈ ws, Token w) → Neat ((ascii ", ").intercalate ws)
  | [], _ => nil
  | [w], h => by
    rw [List.intercalate_singleton]
    exact of_token (h w List.mem_cons_self)
  | w :: v :: ws, h => by
    have hrest := of_tokens fun u hu => h u (List.mem_cons_of_mem w hu)
    have hne : (ascii ", ").intercalate (v :: ws) ≠ [] := fun hnil => by
      have hsub : v ⊆ (ascii ", ").intercalate (v :: ws) := subset_intercalate List.mem_cons_self
      rw [hnil] at hsub
      exact (h v (List.mem_cons_of_mem _ List.mem_cons_self)).1 (List.eq_nil_of_subset_nil hsub)
    rw [List.intercalate_cons_cons]
    exact (of_token (h w List.mem_cons_self)).append (h w List.mem_cons_self).1 hrest hne

end Neat

/-! ## The request arrives -/

/-- A request whose values arrive as they are. -/
structure Sendable (req : Handshake.Request) : Prop where
  method : req.method = ascii "GET"
  upgrade : Neat req.upgrade
  connection : Neat req.connection
  version : Neat req.version
  key : Neat req.key
  extensions : Neat req.extensions
  protocols : Neat req.protocols

section

variable (U : Unicode) (D : Digest)

/-- The names of the handshake's fields. -/
def ownKeys : List Str :=
  [ascii "Upgrade", ascii "Connection", ascii "Sec-Websocket-Version", ascii "Sec-Websocket-Key",
    ascii "Sec-Websocket-Extensions", ascii "Sec-Websocket-Protocol"]

theorem ownKeys_spec : ∀ key ∈ ownKeys,
    key ≠ [] ∧ key.all isTokenByte = true ∧ key ∉ excluded := by
  decide +kernel

/-- A field of the header that is there once, or not there and empty. -/
theorem join_head (t : Target) {h : Extra} (hh : Canonical h) {name key v : Str}
    (hkey : canonical name = key) (hne : key ≠ []) (htoken : key.all isTokenByte = true)
    (hname : key ∉ excluded) (hentries : entries h key = [[v]] ∨ entries h key = [] ∧ v = [])
    (hv : Neat v) : (mapped U (head t h)).join name = v := by
  have hone : (entries h key).length ≤ 1 := by
    rcases hentries with he | ⟨he, -⟩ <;> simp [he]
  rw [HeaderMap.join, HeaderMap.values, hkey, mapped, valuesOf_head U t hh hne htoken hname hone]
  rcases hentries with he | ⟨he, rfl⟩
  · simp [he, hv.reread_eq U]
  · simp [he]

/-- The handshake's request is what the server reads, whatever is in the options besides. -/
theorem handshake_head (t : Target) (extra : Extra) {req : Handshake.Request} (h : Sendable req) :
    ((head t (header extra req)).request U).handshake = req := by
  obtain ⟨hu, hc, hv, hk, he, hp⟩ := entries_header extra req
  have hh := canonical_header extra req
  have hif : ∀ {l : List (List Str)} {v : Str}, l = (if v ≠ [] then [[v]] else []) →
      l = [[v]] ∨ l = [] ∧ v = [] := by
    rintro l v rfl
    split_ifs with hne
    · exact Or.inl rfl
    · exact Or.inr ⟨rfl, not_not.mp hne⟩
  have hjoin : ∀ (name key v : Str), canonical name = key → key ∈ ownKeys →
      (entries (header extra req) key = [[v]] ∨ entries (header extra req) key = [] ∧ v = []) →
      Neat v → (mapped U (head t (header extra req))).join name = v :=
    fun _ key _ hkey hmem hentries hneat => by
      obtain ⟨hne, htoken, hname⟩ := ownKeys_spec key hmem
      exact join_head U t hh hkey hne htoken hname hentries hneat
  have hupgrade := hjoin (ascii "Upgrade") _ _ (by decide +kernel) (by decide) (Or.inl hu) h.upgrade
  have hconnection := hjoin (ascii "Connection") _ _ (by decide +kernel) (by decide) (Or.inl hc)
    h.connection
  have hversion := hjoin (ascii "Sec-WebSocket-Version") _ _ (by decide +kernel) (by decide)
    (Or.inl hv) h.version
  have hkey := hjoin (ascii "Sec-WebSocket-Key") _ _ (by decide +kernel) (by decide)
    (Or.inl hk) h.key
  have hextensions := hjoin (ascii "Sec-WebSocket-Extensions") _ _ (by decide +kernel) (by decide)
    (hif he) h.extensions
  have hprotocols := hjoin (ascii "Sec-WebSocket-Protocol") _ _ (by decide +kernel) (by decide)
    (hif hp) h.protocols
  have hmethod : (head t (header extra req)).method = req.method := h.method.symm
  rw [← served_eq, served_handshake, Upgrade.request, hupgrade, hconnection, hversion, hkey,
    hextensions, hprotocols, hmethod]

/-- A digest of visible bytes, as base64 is. -/
def Visible : Prop :=
  ∀ s, ∀ b ∈ D.encode s, isPrintable b = true ∧ b ≠ 0x20

variable {D}

/-- The request of a client whose protocols are tokens. -/
theorem sendable_request (visible : Visible D) {client : Options}
    (tokens : ∀ p ∈ client.protocols, Token p) (nonce : Str) :
    Sendable (Handshake.request D client nonce) where
  method := rfl
  upgrade := Neat.of_token (show Token (ascii "websocket") by decide)
  connection := Neat.of_token (show Token (ascii "Upgrade") by decide)
  version := Neat.of_token (show Token (Handshake.version) by decide)
  key := Neat.of_visible (visible nonce)
  extensions := by
    change Neat (requestExtensions client)
    unfold requestExtensions
    cases client.compression with
    | none => exact Neat.nil
    | some c =>
      rw [Option.map_some, Option.getD_some, ← offer_eq]
      split_ifs
      · exact Neat.of_ends (by decide +kernel)
      · exact Neat.of_ends (by decide +kernel)
  protocols := Neat.of_tokens tokens

/-! ## The response arrives -/

/-- A response whose values arrive as they are. -/
structure Arrives (resp : Handshake.Response) : Prop where
  status : resp.status = 101
  upgrade : resp.upgrade = ascii "websocket"
  connection : resp.connection = ascii "Upgrade"
  accept : Neat resp.accept
  extensions : Neat resp.extensions
  protocol : Neat resp.protocol

theorem Arrives.printable {resp : Handshake.Response} (h : Arrives resp) : Printable resp :=
  ⟨h.accept.printable, h.extensions.printable, h.protocol.printable⟩

/-- A response is read as it was written. -/
theorem answer_own {resp : Handshake.Response} (h : Arrives resp) :
    answer 101 (answerMap (ownFields resp)) = resp := by
  obtain ⟨hstatus, hupgrade, hconnection, haccept, hextensions, hprotocol⟩ := h
  obtain ⟨status, upgrade, connection, accept, extensions, protocol⟩ := resp
  dsimp only at hstatus hupgrade hconnection haccept hextensions hprotocol
  have hc : canonical (ascii "Upgrade") = ascii "Upgrade" ∧
      canonical (ascii "Connection") = ascii "Connection" ∧
      canonical (ascii "Sec-WebSocket-Accept") = ascii "Sec-Websocket-Accept" ∧
      canonical (ascii "Sec-WebSocket-Extensions") = ascii "Sec-Websocket-Extensions" ∧
      canonical (ascii "Sec-WebSocket-Protocol") = ascii "Sec-Websocket-Protocol" := by
    decide +kernel
  obtain ⟨hcu, hcc, hca, hce, hcp⟩ := hc
  have hblank : trim isBlank (ascii "websocket") = ascii "websocket" ∧
      trim isBlank (ascii "Upgrade") = ascii "Upgrade" := by decide
  subst hstatus hupgrade hconnection
  simp only [answer, answerMap, HeaderMap.get, HeaderMap.values, ownFields, hcu, hcc, hca, hce, hcp]
  by_cases he : extensions = [] <;> by_cases hp : protocol = [] <;>
    simp +decide [he, hp, hca, hce, hcp, hblank, haccept.trim_blank, hextensions.trim_blank,
      hprotocol.trim_blank]

theorem neat_formatDeflate {c : Compression} (h : c.sendWindowBits = 0) :
    Neat (formatDeflate c) := by
  have hbits : ¬(c.sendWindowBits ≠ 0 ∧ c.sendWindowBits ≠ 15) := fun hne => hne.1 h
  unfold formatDeflate
  dsimp only
  rw [if_neg hbits]
  split_ifs <;> exact Neat.of_ends (by decide +kernel)

theorem neat_selectProtocol {supported : List Str} (tokens : ∀ p ∈ supported, Token p)
    (requested : Str) : Neat (selectProtocol U requested supported) := by
  by_cases hnil : selectProtocol U requested supported = []
  · rw [hnil]
    exact Neat.nil
  · obtain ⟨before, after, hmem, -, -⟩ := selectProtocol_spec U requested supported hnil
    have hsel : selectProtocol U requested supported ∈
        before ++ selectProtocol U requested supported :: after :=
      List.mem_append_right _ List.mem_cons_self
    rw [← hmem] at hsel
    exact Neat.of_token (tokens _ hsel)

/-- The answer of a server whose protocols are tokens. -/
theorem arrives_reply (visible : Visible D) {comp : Option Compression}
    (hbits : ∀ c ∈ comp, c.sendWindowBits = 0) {protocol : Str} (hprotocol : Neat protocol)
    (req : Handshake.Request) : Arrives (reply D req comp protocol) where
  status := rfl
  upgrade := rfl
  connection := rfl
  accept := Neat.of_visible (visible _)
  extensions := by
    change Neat ((comp.map formatDeflate).getD [])
    cases comp with
    | none => exact Neat.nil
    | some c => exact neat_formatDeflate (hbits c rfl)
  protocol := hprotocol

/-- A server hands on the connection behind a head it accepts. -/
theorem serve_head {s : Server} {socket : Socket} (working : socket.broken = false)
    (steady : socket.src.Steady) {h : Head} {rest : Str} (input : socket.src.content = h.bytes ++ rest)
    (fits : ∀ line ∈ h.lines, line.length ≤ Server.bufferSize)
    (within : (h.bytes.length : ℤ) ≤ s.headLimit) (accepted : ∀ accept ∈ s.accept, accept (h.request U) = 0)
    {resp : Handshake.Response} {res : Result}
    (negotiated : negotiate U D (h.request U).handshake s.handshake = .ok (resp, res)) :
    ∃ c, s.serve U D socket = .handed (responseBytes resp) c res (h.request U) ∧
      c.Gives rest socket.src.err := by
  have hread := readRequest_head U h s.headLimit
    (Bufio.sound_newReaderSize steady Server.bufferSize) input
  exact Server.serve_read U D working hread fits within accepted negotiated

/-- A response that is confirmed makes a connection. -/
theorem dial_confirmed (http : Http) {opts : Options} (extra : Extra) (t : Target) {nonce : Str}
    {socket : Socket} {req : Handshake.Request} (hreq : newRequest D opts nonce = .ok req)
    (working : socket.broken = false) {status : ℤ} {fields : HeaderMap} {br : Buffered}
    (hread : http.readResponse (newReader socket.src) = (.ok (status, fields), br)) {res : Result}
    (hconfirm : confirm U D req (answer status fields) opts = .ok res) :
    dial U D http opts extra t nonce socket = .connected (head t (header extra req)).bytes
      (if br.buffered ≠ 0 then .buffered br else .direct br.src) res := by
  simp only [dial, hreq, working, Bool.false_eq_true, if_false, hread, hconfirm]

/-! ## Two ends that fit -/

theorem full_bounds {b : ℤ} (h : validBits b = true) : 8 ≤ full b ∧ full b ≤ 15 := by
  simp only [validBits, Bool.or_eq_true, Bool.and_eq_true, decide_eq_true_eq] at h
  unfold full
  split_ifs <;> omega

theorem window_full (a : Compression) :
    (EncoderKind.ofConfig a).window = 2 ^ (full a.sendWindowBits).toNat := by
  unfold EncoderKind.ofConfig full
  by_cases hzero : a.sendWindowBits = 0
  · simp [hzero, EncoderKind.window, windowSize]
  · by_cases hlast : a.sendWindowBits = 15
    · simp [hlast, EncoderKind.window, windowSize]
    · simp [hzero, hlast, EncoderKind.window]

/-- A window that was agreed on is no larger than what the receiver remembers. -/
theorem window_le_lookback {a b : Compression} (ha : validBits a.sendWindowBits = true)
    (hb : validBits b.receiveWindowBits = true)
    (h : full a.sendWindowBits ≤ full b.receiveWindowBits) :
    (EncoderKind.ofConfig a).window ≤ Config.lookback b := by
  have hbounds := full_bounds ha
  rw [window_full a, Config.lookback]
  split_ifs
  · rw [window_size hb]
    exact Nat.pow_le_pow_right (by decide) (by omega)
  · calc 2 ^ (full a.sendWindowBits).toNat ≤ 2 ^ 15 := Nat.pow_le_pow_right (by decide) (by omega)
      _ = windowSize := rfl

/-- The configurations of two ends with what they negotiated. -/
structure Ends (cres sres : Result) (ccfg scfg : Config) : Prop where
  client_role : ccfg.role = .client
  server_role : scfg.role = .server
  client : ccfg.compression = cres.compression
  server : scfg.compression = sres.compression

/-- Ends that agree fit each other in both directions. -/
theorem suits_of_agree {cres sres : Result} {ccfg scfg : Config} (ends : Ends cres sres ccfg scfg)
    {cc sc : Compress} {c s : Compression} (hc : cres.compression = some c)
    (hs : sres.compression = some s) (agree : Agree cc sc c s)
    (hcbits : validBits c.sendWindowBits = true ∧ validBits c.receiveWindowBits = true)
    (hsbits : validBits s.sendWindowBits = true ∧ validBits s.receiveWindowBits = true) :
    ccfg.Suits scfg ∧ scfg.Suits ccfg := by
  have hclient : ccfg.compression = some c := ends.client.trans hc
  have hserver : scfg.compression = some s := ends.server.trans hs
  refine ⟨⟨?_, ?_, ?_, ?_⟩, ⟨?_, ?_, ?_, ?_⟩⟩
  · rw [ends.client_role, ends.server_role]
    rfl
  · rw [hclient, hserver]
    rfl
  · rintro a b ha hb hsend
    cases hclient.symm.trans ha
    cases hserver.symm.trans hb
    exact agree.send.symm.trans hsend
  · rintro a b ha hb
    cases hclient.symm.trans ha
    cases hserver.symm.trans hb
    exact window_le_lookback hcbits.1 hsbits.2 agree.server_window
  · rw [ends.client_role, ends.server_role]
    rfl
  · rw [hclient, hserver]
    rfl
  · rintro a b ha hb hsend
    cases hserver.symm.trans ha
    cases hclient.symm.trans hb
    exact agree.receive.trans hsend
  · rintro a b ha hb
    cases hserver.symm.trans ha
    cases hclient.symm.trans hb
    exact window_le_lookback hsbits.1 hcbits.2 agree.client_window

theorem suits_of_none {cres sres : Result} {ccfg scfg : Config} (ends : Ends cres sres ccfg scfg)
    (hc : cres.compression = none) (hs : sres.compression = none) :
    ccfg.Suits scfg ∧ scfg.Suits ccfg := by
  have hclient : ccfg.compression = none := ends.client.trans hc
  have hserver : scfg.compression = none := ends.server.trans hs
  have hfits : ∀ {cfg peer : Config}, peer.role = cfg.role.peer → cfg.compression = none →
      peer.compression = none → cfg.Suits peer := fun hrole hcfg hpeer =>
    ⟨hrole, by rw [hcfg, hpeer], fun _ _ ha => (by cases hcfg.symm.trans ha),
      fun _ _ ha => (by cases hcfg.symm.trans ha)⟩
  exact ⟨hfits (by rw [ends.client_role, ends.server_role]; rfl) hclient hserver,
    hfits (by rw [ends.client_role, ends.server_role]; rfl) hserver hclient⟩

/-- What two ends negotiate fits, in both directions. -/
theorem suits_negotiated {client server : Options} {cres sres : Result}
    (hsres : sres.compression = client.compression.bind fun cc => server.compression.map fun sc =>
      serverCompression sc ⟨!cc.contextTakeover, !cc.contextTakeover, 0, 15⟩)
    (hcres : cres.compression = client.compression.bind fun cc => sres.compression.map fun c =>
      clientCompression cc ⟨!c.sendContextTakeover, !c.receiveContextTakeover, 0, 0⟩)
    {ccfg scfg : Config} (ends : Ends cres sres ccfg scfg) :
    (cres.compression.isSome = true ↔
      client.compression.isSome = true ∧ server.compression.isSome = true) ∧
      ccfg.Suits scfg ∧ scfg.Suits ccfg := by
  cases hcc : client.compression with
  | none =>
    rw [hcc] at hsres hcres
    exact ⟨by simp [hcres], suits_of_none ends hcres hsres⟩
  | some cc =>
    cases hsc : server.compression with
    | none =>
      rw [hcc, hsc] at hsres
      rw [hcc, hsres] at hcres
      exact ⟨by simp [hcres], suits_of_none ends hcres hsres⟩
    | some sc =>
      rw [hcc, hsc] at hsres
      rw [hcc, hsres] at hcres
      exact ⟨by simp [hcres], suits_of_agree ends hcres hsres (agree_compressions cc sc)
        ⟨rfl, rfl⟩ ⟨rfl, show validBits 15 = true by decide⟩⟩

theorem request_of_newRequest {opts : Options} {nonce : Str} {req : Handshake.Request}
    (h : newRequest D opts nonce = .ok req) : req = Handshake.request D opts nonce := by
  cases hv : validOptions opts with
  | error e =>
    unfold newRequest at h
    rw [hv] at h
    cases h
  | ok u =>
    rw [newRequest_eq D hv] at h
    cases h
    rfl

/-- A client and a server with valid options meet. The request arrives if it is within the limits of
the server, which then reads the very handshake fields that the client set, whatever header fields
the client adds ; the response arrives ; neither end loses or repeats a byte behind them ; and the
connections made of the results fit each other in both directions. -/
theorem dial_meets_serve (http : Http) (visible : Visible D) {client : Options} {s : Server}
    (hs : validOptions s.handshake = .ok ())
    (tokens : ∀ p ∈ client.protocols ++ s.handshake.protocols, Token p) {nonce : Str}
    (hnonce : nonce.length = 16) {req : Handshake.Request}
    (hreq : newRequest D client nonce = .ok req) (t : Target) (extra : Extra) {h : Head}
    (hh : h = head t (header extra req)) (fits : ∀ line ∈ h.lines, line.length ≤ Server.bufferSize)
    (within : (h.bytes.length : ℤ) ≤ s.headLimit)
    (accepted : ∀ accept ∈ s.accept, accept (h.request U) = 0) {up down : Socket}
    (working : up.broken = false ∧ down.broken = false) (steady : up.src.Steady ∧ down.src.Steady)
    {rest rest' : Str} (upward : up.src.content = h.bytes ++ rest)
    (downward : ∀ wrote conn res got, s.serve U D up = .handed wrote conn res got →
      down.src.content = wrote ++ rest') :
    ∃ wrote sconn sres cconn cres, s.serve U D up = .handed wrote sconn sres (h.request U) ∧
      (h.request U).handshake = req ∧
      dial U D http client extra t nonce down = .connected h.bytes cconn cres ∧
      sconn.Gives rest up.src.err ∧ cconn.Gives rest' down.src.err ∧
      cres.protocol = sres.protocol ∧
      ∀ ccfg scfg, Ends cres sres ccfg scfg →
        (cres.compression.isSome = true ↔
          client.compression.isSome = true ∧ s.handshake.compression.isSome = true) ∧
        ccfg.Suits scfg ∧ scfg.Suits ccfg := by
  obtain rfl := request_of_newRequest hreq
  have hcp : ∀ p ∈ client.protocols, Token p := fun p hp => tokens p (List.mem_append_left _ hp)
  have hsp : ∀ p ∈ s.handshake.protocols, Token p := fun p hp =>
    tokens p (List.mem_append_right _ hp)
  have hseen : (h.request U).handshake = Handshake.request D client nonce := by
    rw [hh, handshake_head U t extra (sendable_request visible hcp nonce)]
  -- The server's answer, and the bytes of it.
  have hext := negotiateExtensions_eq U client s.handshake
    (show (Handshake.request D client nonce).extensions = requestExtensions client from rfl)
  generalize hcomp : (client.compression.bind fun cc => s.handshake.compression.map fun sc =>
    serverCompression sc ⟨!cc.contextTakeover, !cc.contextTakeover, 0, 15⟩) = comp at hext
  have hbits : ∀ c ∈ comp, c.sendWindowBits = 0 := by
    rintro c hmem
    rw [← hcomp] at hmem
    obtain ⟨cc, -, hmap⟩ := Option.bind_eq_some_iff.mp hmem
    obtain ⟨sc, -, rfl⟩ := Option.map_eq_some_iff.mp hmap
    rfl
  have hnegotiate := negotiate_eq U D client hs hnonce hext
  rw [← hseen] at hnegotiate
  obtain ⟨sconn, hserve, hsgives⟩ := serve_head U working.1 steady.1 upward fits within accepted
    hnegotiate
  have hneat := arrives_reply visible hbits
    (neat_selectProtocol U hsp (Handshake.request D client nonce).protocols)
    (Handshake.request D client nonce)
  rw [hseen] at hserve
  generalize hresp : reply D (Handshake.request D client nonce) comp
    (selectProtocol U (Handshake.request D client nonce).protocols s.handshake.protocols) = resp
    at hserve hneat
  -- The client reads it.
  obtain ⟨br, hread, hcontent, herr⟩ := http.reads steady.2 hneat.printable
    (downward _ _ _ _ hserve)
  have hoff : client.compression = none → comp = none := by
    intro hnone
    rw [← hcomp, hnone]
    rfl
  have hconfirm := confirm_eq U D (Handshake.request D client nonce) client
    (selectProtocol_requested U _ s.handshake.protocols)
    (confirmExtensions_eq U client hoff hbits rfl)
  rw [hresp, ← answer_own hneat] at hconfirm
  have hdial := dial_confirmed U http extra t hreq working.2 hread hconfirm
  rw [← hh] at hdial
  have hcgives := Server.gives_reader br
  rw [hcontent, herr] at hcgives
  exact ⟨_, sconn, _, _, _, hserve, hseen, hdial, hsgives, hcgives, rfl, fun ccfg scfg ends =>
    suits_negotiated hcomp.symm rfl ends⟩

end

/-! ## A reader of responses -/

/-- The lines of fields that can be written, with something behind them. -/
theorem readFields_fieldBytes (rest : Str) : ∀ fs : List (Str × Str), (∀ f ∈ fs, CanWrite f) →
    readFields (split 0x0a (fieldBytes fs ++ rest)) = some (fs.map trimmed, rest)
  | [], _ => by
    have hline : fieldBytes [] ++ rest = [0x0d] ++ 0x0a :: rest := rfl
    have hjoin : [0x0a].intercalate (split 0x0a rest) = rest := List.intercalate_splitOn _
    rw [hline, split_append, split, List.splitOn_eq_singleton (by decide), List.singleton_append]
    cases hsplit : split 0x0a rest with
    | nil => exact absurd hsplit (List.splitOn_ne_nil _ _)
    | cons next more =>
      rw [hsplit] at hjoin
      rw [readFields, show lineText [0x0d] = some [] from rfl, hjoin]
      rfl
  | f :: fs, h => by
    have hrest := readFields_fieldBytes rest fs fun g hg => h g (List.mem_cons_of_mem _ hg)
    obtain ⟨hlf, hcr, hname⟩ := (canWrite_iff f).mp (h f List.mem_cons_self)
    have hline : fieldBytes (f :: fs) ++ rest =
        (fieldText f ++ [0x0d]) ++ 0x0a :: (fieldBytes fs ++ rest) := by
      simp [fieldBytes, fieldLine, fieldText, crlf]
    have hnotMem : 0x0a ∉ fieldText f ++ [0x0d] := by simpa using hlf
    have htext : lineText (fieldText f ++ [0x0d]) = some (fieldText f) := by
      rw [lineText_cr, if_neg hcr]
    rw [hline, split_append, split, List.splitOn_eq_singleton hnotMem, List.singleton_append, List.map_cons]
    exact (readFields_cons (List.splitOn_ne_nil _ _) htext (fieldText_ne_nil f) _ _ _).mpr
      ⟨(readField_fieldText f).mpr hname, hrest⟩

theorem responseBytes_eq (resp : Handshake.Response) :
    responseBytes resp = statusLine ++ crlf ++ fieldBytes (ownFields resp) := by
  have heq := upgradeBytes_eq asciiOnly resp []
  have hnone : extraFields asciiOnly [] = [] := rfl
  rw [hnone, List.append_nil] at heq
  rw [← heq]
  simp [responseBytes, upgradeBytes]

theorem canWrite_printable {resp : Handshake.Response} (h : Printable resp) :
    ∀ f ∈ ownFields resp, CanWrite f := by
  have htext : ∀ {v : Str}, v.all isPrintable = true → v.all isTextByte = true := fun hv => by
    rw [List.all_eq_true] at hv ⊢
    intro b hb
    rw [isTextByte, (isPrintable_spec (hv b hb)).2.1]
    rfl
  intro f hf
  simp only [ownFields, List.mem_append, List.mem_ite_nil_right, List.mem_cons, List.not_mem_nil,
    or_false] at hf
  rcases hf with ((rfl | rfl | rfl) | ⟨-, rfl⟩) | ⟨-, rfl⟩
  · decide
  · decide
  · exact canWrite_mk (by decide) (htext h.accept)
  · exact canWrite_mk (by decide) (htext h.extensions)
  · exact canWrite_mk (by decide) (htext h.protocol)

theorem readAnswer_responseBytes {resp : Handshake.Response} (h : Printable resp) (rest : Str) :
    readAnswer (responseBytes resp ++ rest) =
      some ⟨statusLine, (ownFields resp).map trimmed, rest⟩ := by
  have hline : responseBytes resp ++ rest =
      (statusLine ++ [0x0d]) ++ 0x0a :: (fieldBytes (ownFields resp) ++ rest) := by
    rw [responseBytes_eq]
    simp [crlf]
  have htext : lineText (statusLine ++ [0x0d]) = some statusLine := by decide
  rw [readAnswer, hline, split_append, split, List.splitOn_eq_singleton (by decide), List.singleton_append]
  simp only [htext, readFields_fieldBytes rest _ (canWrite_printable h)]

/-- The code in a status line. -/
def statusOf (line : Str) : ℤ :=
  decimal ((cut 0x20 line).2.take 3)

/-- A reader that looks at a response once everything has come. -/
def patient : Http where
  readResponse br :=
    match readAnswer br.content with
    | none => (.error .unexpectedEOF, br)
    | some a =>
      (.ok (statusOf a.status, fun name => (a.fields.filter fun f => canonical f.1 = name).map Prod.snd),
        newReader { pieces := [a.rest], err := br.src.err })
  reads := by
    intro resp src rest _ hprintable hcontent
    have hread : readAnswer (newReader src).content =
        some ⟨statusLine, (ownFields resp).map trimmed, rest⟩ := by
      rw [show (newReader src).content = src.content from rfl, hcontent,
        readAnswer_responseBytes hprintable]
    refine ⟨newReader { pieces := [rest], err := src.err }, ?_, ?_, rfl⟩
    · have hstatus : statusOf statusLine = 101 := by decide
      have hmap : (fun name => (((ownFields resp).map trimmed).filter fun f =>
          canonical f.1 = name).map Prod.snd) = answerMap (ownFields resp) := by
        funext name
        simp only [answerMap, List.filter_map, Function.comp_def, trimmed, List.map_map]
        rfl
      simp only [hread, hstatus, hmap]
      rfl
    · simp [newReader, Bufio.newReaderSize, Bufio.content, Script.content]

theorem visible_standard : Visible standard := by
  intro s b hb
  have hall : (standard.encode s).all (fun b => isPrintable b && b != 0x20) = true :=
    Base64.encode_all (by decide) (by decide) s
  have hboth := List.all_eq_true.mp hall b hb
  rw [Bool.and_eq_true, bne_iff_ne] at hboth
  exact hboth

/-- A client that offers compression and two protocols. -/
def chatClient : Options :=
  { compression := some ⟨1, 0, true⟩, protocols := [ascii "chat", ascii "log"] }

/-- A server that knows one of them. -/
def logServer : Server :=
  { handshake := { compression := some ⟨9, 0, true⟩, protocols := [ascii "Log"] } }

def home : Target where
  path := ascii "/chat"
  host := ascii "example"
  path_ne := by decide
  path_bytes := by decide
  host_bytes := by decide

/-- Header fields of a client that would ask for something else. -/
def meddling : Extra :=
  [(ascii "origin", [ascii "a"]), (ascii "upgrade", [ascii "h2c"]),
    (ascii "SEC-WEBSOCKET-EXTENSIONS", [ascii "x"]), (ascii "Upgrade ", [ascii "b"])]

/-- What a server wrote. -/
def wroteOf : Served → Str
  | .closed wrote => wrote
  | .handed wrote _ _ _ => wrote

theorem dial_meets_serve_chat : ∃ req h up down wrote sconn sres cconn cres,
    newRequest standard chatClient (List.replicate 16 7) = .ok req ∧
    h = head home (header meddling req) ∧
    logServer.serve asciiOnly standard up = .handed wrote sconn sres (h.request asciiOnly) ∧
    (h.request asciiOnly).handshake = req ∧
    dial asciiOnly standard patient chatClient meddling home (List.replicate 16 7) down =
      .connected h.bytes cconn cres ∧
    sconn.Gives [0x81] up.src.err ∧ cconn.Gives [0x82] down.src.err ∧
    cres.protocol = sres.protocol ∧ cres.compression.isSome = true := by
  obtain ⟨req, hreq, hfits, hwithin⟩ : ∃ req,
      newRequest standard chatClient (List.replicate 16 7) = .ok req ∧
      ((head home (header meddling req)).lines.all fun line => line.length ≤ Server.bufferSize) = true ∧
      ((head home (header meddling req)).bytes.length : ℤ) ≤ logServer.headLimit :=
    ⟨_, rfl, by decide +kernel, by decide +kernel⟩
  obtain ⟨h, hh⟩ : ∃ h, h = head home (header meddling req) := ⟨_, rfl⟩
  rw [← hh] at hfits hwithin
  obtain ⟨up, hup⟩ : ∃ up : Socket, up = { src := Serve.whole (h.bytes ++ [0x81]) } := ⟨_, rfl⟩
  obtain ⟨down, hdown⟩ : ∃ down : Socket, down =
      { src := Serve.whole (wroteOf (logServer.serve asciiOnly standard up) ++ [0x82]) } := ⟨_, rfl⟩
  obtain ⟨wrote, sconn, sres, cconn, cres, hserve, hseen, hdial, hsgives, hcgives, hprotocol, hends⟩ :=
    @dial_meets_serve asciiOnly standard patient visible_standard chatClient logServer rfl
      (by decide) _ rfl _ hreq home meddling _ hh
      (fun line hline => by simpa using List.all_eq_true.mp hfits line hline) hwithin
      (fun accept haccept => by cases haccept) up down
      ⟨by rw [hup], by rw [hdown]⟩
      ⟨by rw [hup]; exact steady_whole _, by rw [hdown]; exact steady_whole _⟩
      [0x81] [0x82] (by rw [hup]; exact content_whole _)
      (fun wrote conn res got hserve => by rw [hdown, hserve]; exact content_whole _)
  refine ⟨req, h, up, down, wrote, sconn, sres, cconn, cres, hreq, hh, hserve, hseen, hdial,
    hsgives, hcgives, hprotocol, ?_⟩
  exact (hends { role := .client, compression := cres.compression }
    { compression := sres.compression } ⟨rfl, rfl, rfl, rfl⟩).1.mpr ⟨rfl, rfl⟩

end Dial

end Ews
