import Ews.Handshake

/-!
# What the handshake agrees on

A server takes the first offer it can honor and answers with what it will do. The
answer is a rendering of parameters (`formatDeflate_eq`), which the parser reads back
(`parseExtensions_render`), so the client learns what the server does.

`Honors` compares an offer, the answer as the client parses it, and the server's
settings. `KeepsHistory` compares the answer with the client's settings : history the
server may refer to is kept, and the server is sent none it does not keep.
`handshake_agrees` puts the two ends together.
-/

set_option linter.unusedSectionVars false

namespace Ews

namespace Handshake

open Text

variable (U : Unicode) (D : Digest)

/-! ## Parsing what was rendered -/

/-- A parameter as it is rendered. -/
def Param.pair (kv : Param) : Str × Str :=
  (kv.name, kv.value)

theorem trimSpace_token {s : Str} (h : Token s) : U.trimSpace s = s := by
  rw [U.trimSpace_ascii s h.isAscii, h.trim_space]

theorem parseParams_pieces : ∀ {kvs : List Param}, (∀ kv ∈ kvs, Writable kv.pair) →
    parseParams U (kvs.map fun kv => 0x20 :: piece kv.pair) = .ok kvs
  | [], _ => rfl
  | kv :: kvs, h => by
    have hw := h kv List.mem_cons_self
    have hasc : IsAscii (0x20 :: piece kv.pair) := by
      intro b hb
      rcases List.mem_cons.mp hb with rfl | hb
      · decide
      · exact hw.piece_ascii b hb
    have hname : Token kv.name := hw.1
    have hvalue : trim isQuote (U.trimSpace kv.value) = kv.value := by
      by_cases hv : kv.value = []
      · rw [hv, U.trimSpace_ascii [] isAscii_nil]
        rfl
      · have ht : Token kv.value := hw.2 hv
        rw [trimSpace_token U ht, ht.trim_quote]
    rw [List.map_cons, parseParams, U.trimSpace_ascii _ hasc, hw.cut_piece.1, hw.cut_piece.2,
      parseParams_pieces fun kv' h' => h kv' (List.mem_cons_of_mem _ h')]
    simp only [Param.pair, trimSpace_token U hname, hvalue, if_neg hname.1]

/-- Reading parameters back that were rendered behind a name. -/
theorem parseExtensions_render {name : Str} {kvs : List Param} (hname : Token name)
    (hkvs : ∀ kv ∈ kvs, Writable kv.pair) :
    parseExtensions U (render name (kvs.map Param.pair)) = .ok [⟨name, kvs⟩] := by
  have hkvs' : ∀ kv ∈ kvs.map Param.pair, Writable kv := by
    intro kv hkv
    obtain ⟨p, hp, rfl⟩ := List.mem_map.mp hkv
    exact hkvs p hp
  have hsemi : 0x3b ∉ name := fun hb => (isToken_spec (hname.2 _ hb)).2.2.2.1 rfl
  have hne : render name (kvs.map Param.pair) ≠ [] := by
    rw [render]
    exact List.append_ne_nil_of_left_ne_nil hname.1 _
  have hoffer : parseOffer U (render name (kvs.map Param.pair)) = .ok ⟨name, kvs⟩ := by
    rw [parseOffer, split_render hsemi hkvs', List.map_map]
    simp only [trimSpace_token U hname, if_neg hname.1]
    rw [show (fun kv => 0x20 :: piece kv) ∘ Param.pair = fun kv => 0x20 :: piece kv.pair from rfl,
      parseParams_pieces U hkvs]
  rw [parseExtensions, split_comma_render hname hkvs', parseOffers,
    U.trimSpace_ascii _ (render_ascii hname hkvs'), trim_render hname hkvs', if_neg hne, hoffer,
    parseOffers]

/-! ## Parameters of `permessage-deflate` -/

/-- The parameters a server answers with. -/
def answer (c : Compression) : List Param :=
  (if !c.sendContextTakeover then [⟨serverNoContextTakeover, []⟩] else []) ++
    ((if !c.receiveContextTakeover then [⟨clientNoContextTakeover, []⟩] else []) ++
      if c.sendWindowBits ≠ 0 ∧ c.sendWindowBits ≠ 15 then
        [⟨serverMaxWindowBits, itoa c.sendWindowBits⟩]
      else [])

/-- The parameters a client offers. -/
def offer (c : Compress) : List Param :=
  ⟨clientMaxWindowBits, []⟩ ::
    if !c.contextTakeover then [⟨clientNoContextTakeover, []⟩, ⟨serverNoContextTakeover, []⟩]
    else []

/-- The names of the parameters. -/
def paramNames : List Str :=
  [serverNoContextTakeover, clientNoContextTakeover, serverMaxWindowBits, clientMaxWindowBits]

theorem paramNames_token : ∀ s ∈ deflateName :: paramNames, Token s ∧ s.map lower = s := by
  decide +kernel

theorem paramNames_ne : clientNoContextTakeover ≠ serverNoContextTakeover ∧
    serverMaxWindowBits ≠ serverNoContextTakeover ∧
    serverMaxWindowBits ≠ clientNoContextTakeover ∧
    clientMaxWindowBits ≠ serverNoContextTakeover ∧
    clientMaxWindowBits ≠ clientNoContextTakeover ∧
    clientMaxWindowBits ≠ serverMaxWindowBits := by
  decide +kernel

theorem token_deflateName : Token deflateName :=
  (paramNames_token _ List.mem_cons_self).1

theorem token_name {s : Str} (h : s ∈ paramNames) : Token s :=
  (paramNames_token s (List.mem_cons_of_mem _ h)).1

theorem toLower_name {s : Str} (h : s ∈ paramNames) : U.toLower s = s := by
  rw [U.toLower_ascii s (token_name h).isAscii,
    (paramNames_token s (List.mem_cons_of_mem _ h)).2]

theorem itoa_ne_nil (n : ℤ) : itoa n ≠ [] := by
  unfold itoa
  dsimp only
  split_ifs
  · exact List.cons_ne_nil _ _
  · exact fun h => Nat.toDigits_ne_nil (List.map_eq_nil_iff.mp h)

theorem formatDeflate_eq (c : Compression) :
    formatDeflate c = render deflateName ((answer c).map Param.pair) := by
  have hserver : ascii "; server_no_context_takeover" =
      ascii "; " ++ piece (Param.pair ⟨serverNoContextTakeover, []⟩) := by decide +kernel
  have hclient : ascii "; client_no_context_takeover" =
      ascii "; " ++ piece (Param.pair ⟨clientNoContextTakeover, []⟩) := by decide +kernel
  have hbits : ascii "; server_max_window_bits=" ++ itoa c.sendWindowBits =
      ascii "; " ++ piece (Param.pair ⟨serverMaxWindowBits, itoa c.sendWindowBits⟩) := by
    rw [piece, Param.pair, if_neg (itoa_ne_nil _),
      show ascii "; server_max_window_bits=" = ascii "; " ++ (serverMaxWindowBits ++ [0x3d]) by
        decide +kernel]
    simp only [List.append_assoc, List.cons_append, List.nil_append]
  unfold formatDeflate answer render
  dsimp only
  rw [hserver, hclient, List.append_assoc _ _ (itoa c.sendWindowBits), hbits]
  split_ifs <;> simp only [List.map_append, List.map_cons, List.map_nil, List.flatten_append,
    List.flatten_cons, List.flatten_nil, List.append_nil, List.nil_append, List.append_assoc]

/-- The window sizes a parameter can have. -/
theorem validBits_cases {b : ℤ} (h : validBits b = true) : b = 0 ∨ b = 8 ∨ b = 9 ∨ b = 10 ∨
    b = 11 ∨ b = 12 ∨ b = 13 ∨ b = 14 ∨ b = 15 := by
  simp only [validBits, Bool.or_eq_true, Bool.and_eq_true, decide_eq_true_eq] at h
  omega

/-- A window size that is written is read back. -/
theorem itoa_bits {b : ℤ} (h : validBits b = true) (h0 : b ≠ 0) :
    Token (itoa b) ∧ windowBits (itoa b) = (b, true) := by
  rcases validBits_cases h with rfl | rfl | rfl | rfl | rfl | rfl | rfl | rfl | rfl
  · exact absurd rfl h0
  all_goals decide +kernel

theorem writable_answer {c : Compression} (h : validBits c.sendWindowBits = true) :
    ∀ kv ∈ answer c, Writable kv.pair := by
  intro kv hkv
  simp only [answer, List.mem_append, List.mem_ite_nil_right, List.mem_singleton] at hkv
  rcases hkv with ⟨-, rfl⟩ | ⟨-, rfl⟩ | ⟨⟨h0, -⟩, rfl⟩
  · exact ⟨token_name (by simp [paramNames, Param.pair]), fun hv => absurd rfl hv⟩
  · exact ⟨token_name (by simp [paramNames, Param.pair]), fun hv => absurd rfl hv⟩
  · exact ⟨token_name (by simp [paramNames, Param.pair]), fun _ => (itoa_bits h h0).1⟩

theorem writable_offer (c : Compress) : ∀ kv ∈ offer c, Writable kv.pair := by
  intro kv hkv
  simp only [offer, List.mem_cons, List.mem_ite_nil_right, List.not_mem_nil, or_false] at hkv
  rcases hkv with rfl | ⟨-, rfl | rfl⟩
  all_goals exact ⟨token_name (by simp [paramNames, Param.pair]), fun hv => absurd rfl hv⟩

section Names

variable (p : DeflateParams)

@[simp] theorem deflateParam_serverNo : deflateParam p serverNoContextTakeover [] =
    ({ p with serverNoContextTakeover := true }, true) := by
  rw [deflateParam, if_pos rfl, if_neg (by simp)]

@[simp] theorem deflateParam_clientNo : deflateParam p clientNoContextTakeover [] =
    ({ p with clientNoContextTakeover := true }, true) := by
  rw [deflateParam, if_neg paramNames_ne.1, if_pos rfl, if_neg (by simp)]

@[simp] theorem deflateParam_clientBits : deflateParam p clientMaxWindowBits [] =
    ({ p with clientMaxWindowBits := 15 }, true) := by
  obtain ⟨-, -, -, h1, h2, h3⟩ := paramNames_ne
  rw [deflateParam, if_neg h1, if_neg h2, if_neg h3, if_pos rfl]
  rfl

theorem deflateParam_serverBits {b : ℤ} (h : validBits b = true) (h0 : b ≠ 0) :
    deflateParam p serverMaxWindowBits (itoa b) =
      ({ p with serverMaxWindowBits := b }, true) := by
  obtain ⟨-, h1, h2, -⟩ := paramNames_ne
  rw [deflateParam, if_neg h1, if_neg h2, if_pos rfl, (itoa_bits h h0).2]
  simp [h0]

@[simp] theorem toLower_serverNo : U.toLower serverNoContextTakeover = serverNoContextTakeover :=
  toLower_name U (by simp [paramNames])

@[simp] theorem toLower_clientNo : U.toLower clientNoContextTakeover = clientNoContextTakeover :=
  toLower_name U (by simp [paramNames])

@[simp] theorem toLower_serverBits : U.toLower serverMaxWindowBits = serverMaxWindowBits :=
  toLower_name U (by simp [paramNames])

@[simp] theorem toLower_clientBits : U.toLower clientMaxWindowBits = clientMaxWindowBits :=
  toLower_name U (by simp [paramNames])

end Names

/-- The server's window in an answer : absent for the full window. -/
def answerBits (c : Compression) : ℤ :=
  if c.sendWindowBits ≠ 0 ∧ c.sendWindowBits ≠ 15 then c.sendWindowBits else 0

theorem parseDeflate_answer {c : Compression} (h : validBits c.sendWindowBits = true)
    (name : Str) : parseDeflate U ⟨name, answer c⟩ =
      (⟨!c.sendContextTakeover, !c.receiveContextTakeover, answerBits c, 0⟩, true) := by
  obtain ⟨h1, h2, h3, -⟩ := paramNames_ne
  unfold parseDeflate answer answerBits
  by_cases hb : c.sendWindowBits ≠ 0 ∧ c.sendWindowBits ≠ 15
  · rw [if_pos hb, if_pos hb]
    cases c.sendContextTakeover <;> cases c.receiveContextTakeover <;>
      simp [parseDeflateFrom, deflateParam_serverBits _ h hb.1, h1, h2, h3]
  · rw [if_neg hb, if_neg hb]
    cases c.sendContextTakeover <;> cases c.receiveContextTakeover <;>
      simp [parseDeflateFrom, h1]

theorem parseDeflate_offer (c : Compress) (name : Str) : parseDeflate U ⟨name, offer c⟩ =
    (⟨!c.contextTakeover, !c.contextTakeover, 0, 15⟩, true) := by
  obtain ⟨h1, -, -, h2, h3, -⟩ := paramNames_ne
  unfold parseDeflate offer
  cases c.contextTakeover <;> simp [parseDeflateFrom, h1.symm, h2.symm, h3.symm]

/-- The parser reads an answer back. -/
theorem parse_answer {c : Compression} (h : validBits c.sendWindowBits = true) :
    parseExtensions U (formatDeflate c) = .ok [⟨deflateName, answer c⟩] := by
  rw [formatDeflate_eq]
  exact parseExtensions_render U token_deflateName (writable_answer h)

theorem equalFold_deflateName : U.equalFold deflateName deflateName = true := by
  rw [U.equalFold_ascii _ _ token_deflateName.isAscii token_deflateName.isAscii]
  exact beq_self_eq_true _

/-! ## Window sizes in what was parsed -/

/-- A window size, where zero stands for the full window. -/
def full (b : ℤ) : ℤ :=
  if b = 0 then 15 else b

/-- Both window sizes are ones `NewConn` takes. -/
def DeflateParams.Sized (p : DeflateParams) : Prop :=
  validBits p.serverMaxWindowBits = true ∧ validBits p.clientMaxWindowBits = true

theorem windowBits_valid {v : Str} {b : ℤ} (h : windowBits v = (b, true)) :
    validBits b = true := by
  unfold windowBits at h
  split_ifs at h with hv
  · cases h
    decide
  · cases ha : atoi v with
    | none =>
      rw [ha] at h
      cases h
    | some n =>
      rw [ha] at h
      dsimp only at h
      split_ifs at h with hn
      · cases h
      · cases h
        simp only [validBits, Bool.or_eq_true, Bool.and_eq_true, decide_eq_true_eq]
        omega

theorem deflateParam_sized {p p' : DeflateParams} (hp : p.Sized) {name value : Str}
    (h : deflateParam p name value = (p', true)) : p'.Sized := by
  unfold deflateParam at h
  split_ifs at h with h1 hv1 h2 hv2 h3 h4
  · cases h
  · cases h
    exact hp
  · cases h
  · cases h
    exact hp
  · generalize hw : windowBits value = out at h
    obtain ⟨bits, ok⟩ := out
    dsimp only at h
    split_ifs at h with hok
    · cases h
    · cases h
      cases ok with
      | false => exact absurd rfl hok
      | true => exact ⟨windowBits_valid hw, hp.2⟩
  · generalize hw : windowBits value = out at h
    obtain ⟨bits, ok⟩ := out
    cases ok with
    | false => cases h
    | true =>
      cases h
      refine ⟨hp.1, ?_⟩
      dsimp only
      split_ifs
      · decide
      · exact windowBits_valid hw
  · cases h

theorem parseDeflateFrom_sized : ∀ {kvs : List Param} {p p' : DeflateParams} {seen : List Str},
    p.Sized → parseDeflateFrom U p seen kvs = (p', true) → p'.Sized
  | [], p, p', seen, hp, h => by
    cases h
    exact hp
  | kv :: kvs, p, p', seen, hp, h => by
    unfold parseDeflateFrom at h
    dsimp only at h
    split_ifs at h with hs
    · cases h
    · generalize hd : deflateParam p (U.toLower kv.name) kv.value = out at h
      obtain ⟨q, ok⟩ := out
      cases ok with
      | false => cases h
      | true => exact parseDeflateFrom_sized (deflateParam_sized hp hd) h

theorem parseDeflate_sized {e : Extension} {p : DeflateParams}
    (h : parseDeflate U e = (p, true)) : p.Sized :=
  parseDeflateFrom_sized U ⟨rfl, rfl⟩ h

/-! ## The server's answer -/

/-- An offer the server can honor, with the parameters `o`. -/
def Acceptable (e : Extension) (o : DeflateParams) : Prop :=
  U.equalFold e.name deflateName = true ∧ parseDeflate U e = (o, true)

theorem firstDeflate_none : ∀ {es : List Extension}, firstDeflate U es = none →
    ∀ e ∈ es, ∀ o, ¬Acceptable U e o
  | e :: es, h, e', he' => by
    unfold firstDeflate at h
    split_ifs at h with hn
    · rcases List.mem_cons.mp he' with rfl | hmem
      · rintro o ⟨hname, -⟩
        rw [hname] at hn
        cases hn
      · exact firstDeflate_none h e' hmem
    · generalize hp : parseDeflate U e = out at h
      obtain ⟨p, ok⟩ := out
      cases ok with
      | true => cases h
      | false =>
        rcases List.mem_cons.mp he' with rfl | hmem
        · rintro o ⟨-, ho⟩
          cases hp.symm.trans ho
        · exact firstDeflate_none h e' hmem

/-- The loop stops at the first offer it can honor. -/
theorem firstDeflate_some {o : DeflateParams} : ∀ {es : List Extension},
    firstDeflate U es = some o → ∃ before e after, es = before ++ e :: after ∧
      (∀ e' ∈ before, ∀ o', ¬Acceptable U e' o') ∧ Acceptable U e o
  | e :: es, h => by
    -- An offer that was passed over goes to the front of those passed over later.
    have hskip : firstDeflate U es = some o → (∀ o', ¬Acceptable U e o') →
        ∃ before e' after, e :: es = before ++ e' :: after ∧
          (∀ e'' ∈ before, ∀ o', ¬Acceptable U e'' o') ∧ Acceptable U e' o := by
      intro hrest hno
      obtain ⟨before, e', after, rfl, hbefore, he'⟩ := firstDeflate_some hrest
      refine ⟨e :: before, e', after, rfl, ?_, he'⟩
      intro e'' hmem
      rcases List.mem_cons.mp hmem with rfl | hmem
      · exact hno
      · exact hbefore e'' hmem
    unfold firstDeflate at h
    split_ifs at h with hn
    · refine hskip h ?_
      rintro o' ⟨hname, -⟩
      rw [hname] at hn
      cases hn
    · generalize hp : parseDeflate U e = out at h
      obtain ⟨p, ok⟩ := out
      cases ok with
      | true =>
        cases h
        exact ⟨[], e, es, rfl, by simp, by simpa using hn, hp⟩
      | false =>
        refine hskip h ?_
        rintro o' ⟨-, ho⟩
        cases hp.symm.trans ho

/-- What the server does with an offer `o`, where the client parses its answer as `q`. -/
structure Honors (o q : DeflateParams) (c : Compression) : Prop where
  sendTakeover : q.serverNoContextTakeover = !c.sendContextTakeover
  receiveTakeover : q.clientNoContextTakeover = !c.receiveContextTakeover
  window : full q.serverMaxWindowBits = full c.sendWindowBits
  asked : o.serverNoContextTakeover = true → c.sendContextTakeover = false
  declared : o.clientNoContextTakeover = true → c.receiveContextTakeover = false
  send_le : full c.sendWindowBits ≤ full o.serverMaxWindowBits
  receive_ge : full o.clientMaxWindowBits ≤ full c.receiveWindowBits
  valid : validBits c.sendWindowBits = true ∧ validBits c.receiveWindowBits = true

theorem full_answerBits (c : Compression) : full (answerBits c) = full c.sendWindowBits := by
  unfold full answerBits
  split_ifs <;> omega

theorem honors_answer {o : DeflateParams} (hs : o.Sized) (c : Compress) :
    Honors o ⟨!(serverCompression c o).sendContextTakeover,
      !(serverCompression c o).receiveContextTakeover, answerBits (serverCompression c o), 0⟩
      (serverCompression c o) where
  sendTakeover := rfl
  receiveTakeover := rfl
  window := full_answerBits _
  asked h := by simp [serverCompression, h]
  declared h := by simp [serverCompression, h]
  send_le := le_rfl
  receive_ge := le_rfl
  valid := hs

/-- A negotiation that succeeded : what it made of the offers, and its answer. -/
theorem negotiate_ok {req : Request} {opts : Options} {resp : Response} {res : Result}
    (h : negotiate U D req opts = .ok (resp, res)) :
    negotiateExtensions U req opts = .ok res.compression ∧
      resp = { status := 101
               upgrade := ascii "websocket"
               connection := ascii "Upgrade"
               accept := accept D req.key
               extensions := (res.compression.map formatDeflate).getD []
               protocol := selectProtocol U req.protocols opts.protocols } := by
  unfold negotiate at h
  cases hv : validOptions opts with
  | error e =>
    rw [hv] at h
    cases h
  | ok u =>
    rw [hv] at h
    dsimp only at h
    split_ifs at h
    cases he : negotiateExtensions U req opts with
    | error e =>
      rw [he] at h
      cases h
    | ok comp =>
      rw [he] at h
      cases h
      exact ⟨rfl, rfl⟩

/-- The server's answer is what it will do. Either no offer can be honored, and there
is no compression, or the first one that can be is, and the answer read back says what
the server's settings are, which keep to the offer. -/
theorem negotiate_answer {req : Request} {opts : Options} {resp : Response} {res : Result}
    (hon : opts.compression.isSome = true) (h : negotiate U D req opts = .ok (resp, res)) :
    ∃ offers, parseExtensions U req.extensions = .ok offers ∧
      (((∀ e ∈ offers, ∀ o, ¬Acceptable U e o) ∧ resp.extensions = [] ∧
          res.compression = none) ∨
        ∃ before e after o x q c, offers = before ++ e :: after ∧
          (∀ e' ∈ before, ∀ o', ¬Acceptable U e' o') ∧ Acceptable U e o ∧
          res.compression = some c ∧ parseExtensions U resp.extensions = .ok [x] ∧
          Acceptable U x q ∧ Honors o q c) := by
  obtain ⟨hext, hresp⟩ := negotiate_ok U D h
  replace hresp := congrArg Response.extensions hresp
  obtain ⟨cfg, hcfg⟩ := Option.isSome_iff_exists.mp hon
  unfold negotiateExtensions at hext
  rw [hcfg] at hext
  dsimp only at hext
  cases hp : parseExtensions U req.extensions with
  | error e =>
    rw [hp] at hext
    cases hext
  | ok offers =>
    rw [hp] at hext
    have hcomp := Except.ok.inj hext
    refine ⟨offers, rfl, ?_⟩
    cases hf : firstDeflate U offers with
    | none =>
      rw [hf] at hcomp
      rw [← hcomp] at hresp ⊢
      exact Or.inl ⟨firstDeflate_none U hf, hresp, rfl⟩
    | some o =>
      rw [hf] at hcomp
      obtain ⟨before, e, after, hsplit, hbefore, he⟩ := firstDeflate_some U hf
      have hs := parseDeflate_sized U he.2
      rw [← hcomp] at hresp ⊢
      refine Or.inr ⟨before, e, after, o, _, _, _, hsplit, hbefore, he, rfl, ?_,
        ⟨equalFold_deflateName U, parseDeflate_answer U hs.1 deflateName⟩, honors_answer hs cfg⟩
      rw [hresp]
      exact parse_answer U hs.1

/-- Two offers, the first with a parameter the server does not know. -/
def twoOffers : Request where
  method := ascii "GET"
  upgrade := ascii "websocket"
  connection := ascii "keep-alive, Upgrade"
  version := version
  key := ascii "dGhlIHNhbXBsZSBub25jZQ=="
  extensions := ascii "permessage-deflate; foo, Permessage-Deflate ;server_max_window_bits=\"10\""

/-- The second offer is taken, and the smaller window with it. -/
theorem negotiate_answer_second : ∃ o q c x, Honors o q c ∧ c.sendWindowBits = 10 ∧
    parseExtensions asciiOnly (ascii "permessage-deflate; server_max_window_bits=10") = .ok [x] ∧
    Acceptable asciiOnly x q := by
  have hneg : negotiate asciiOnly standard twoOffers
      { compression := some { contextTakeover := true } } = .ok
        (⟨101, ascii "websocket", ascii "Upgrade", accept standard twoOffers.key,
          ascii "permessage-deflate; server_max_window_bits=10", []⟩,
          ⟨some ⟨0, 0, true, true, 10, 0⟩, []⟩) := by
    decide +kernel
  obtain ⟨offers, -, h | ⟨-, -, -, o, x, q, c, -, -, -, hc, hx, hq, hh⟩⟩ :=
    negotiate_answer asciiOnly standard rfl hneg
  · cases h.2.2
  · cases hc
    exact ⟨o, q, _, x, hh, rfl, hx, hq⟩

/-! ## The client's request -/

/-- The extensions of a request. -/
def requestExtensions (opts : Options) : Str :=
  (opts.compression.map fun c => render deflateName ((offer c).map Param.pair)).getD []

theorem offer_eq (c : Compress) :
    (if !c.contextTakeover then deflateName ++ ascii "; client_max_window_bits" ++
        ascii "; client_no_context_takeover; server_no_context_takeover"
      else deflateName ++ ascii "; client_max_window_bits") =
      render deflateName ((offer c).map Param.pair) := by
  unfold offer
  generalize c.contextTakeover = takeover
  cases takeover <;> decide +kernel

/-- What a client sends. -/
def request (opts : Options) (nonce : Str) : Request where
  method := ascii "GET"
  upgrade := ascii "websocket"
  connection := ascii "Upgrade"
  version := version
  key := newKey D nonce
  extensions := requestExtensions opts
  protocols := List.intercalate (ascii ", ") opts.protocols

theorem newRequest_eq {opts : Options} (h : validOptions opts = .ok ()) (nonce : Str) :
    newRequest D opts nonce = .ok (request D opts nonce) := by
  obtain ⟨comp, protocols⟩ := opts
  unfold newRequest request requestExtensions
  rw [h]
  cases comp with
  | none => rfl
  | some c =>
    dsimp only [Option.map_some, Option.getD_some]
    rw [offer_eq]

/-! ## The client's history -/

/-- The client's settings against the answer `p` : history the server may refer to is
kept, and the server is not sent references to history it does not keep. -/
structure KeepsHistory (p : DeflateParams) (c : Compression) : Prop where
  receive : p.serverNoContextTakeover = false → c.receiveContextTakeover = true
  receive_ge : full p.serverMaxWindowBits ≤ full c.receiveWindowBits
  send : p.clientNoContextTakeover = true → c.sendContextTakeover = false
  send_le : full c.sendWindowBits ≤ full p.clientMaxWindowBits

/-- The window of a valid size. -/
theorem window_size {b : ℤ} (h : validBits b = true) :
    Window.size { bits := b } = 2 ^ (full b).toNat := by
  simp only [validBits, Bool.or_eq_true, Bool.and_eq_true, decide_eq_true_eq] at h
  unfold Window.size full
  rcases h with rfl | h
  · rfl
  · rw [if_pos h, if_neg (by omega)]

/-- A connection with such settings has a window for all the history the server may
refer to. -/
theorem KeepsHistory.window {p : DeflateParams} {c : Compression} (h : KeepsHistory p c)
    (hv : validBits c.receiveWindowBits = true) (hp : p.serverNoContextTakeover = false) :
    ∃ w, Config.window c.receiveContextTakeover c.receiveWindowBits = some w ∧
      2 ^ (full p.serverMaxWindowBits).toNat ≤ w.size := by
  refine ⟨_, if_pos (h.receive hp), ?_⟩
  rw [window_size hv]
  exact Nat.pow_le_pow_right (by decide) (Int.toNat_le_toNat h.receive_ge)

/-- A confirmation with compression : the response has one extension, and the settings
are what the client takes it to mean. -/
theorem confirm_ok {req : Request} {resp : Response} {opts : Options} {res : Result}
    {c : Compression} (h : confirm U D req resp opts = .ok res) (hc : res.compression = some c) :
    ∃ cfg e p, opts.compression = some cfg ∧ parseExtensions U resp.extensions = .ok [e] ∧
      Acceptable U e p ∧ c = clientCompression cfg p := by
  unfold confirm at h
  split_ifs at h
  cases he : confirmExtensions U resp opts with
  | error err =>
    rw [he] at h
    cases h
  | ok comp =>
    rw [he] at h
    cases h
    dsimp only at hc
    subst hc
    unfold confirmExtensions at he
    generalize hp : parseExtensions U resp.extensions = out at he
    rcases out with err | ⟨_ | ⟨e, _ | ⟨e', es⟩⟩⟩
    · cases he
    · cases he
    · dsimp only at he
      cases hcfg : opts.compression with
      | none =>
        rw [hcfg] at he
        cases he
      | some cfg =>
        rw [hcfg] at he
        dsimp only at he
        split_ifs at he with hn
        generalize hd : parseDeflate U e = out at he
        obtain ⟨p, ok⟩ := out
        cases ok with
        | false => cases he
        | true =>
          cases he
          exact ⟨cfg, e, p, rfl, rfl, ⟨by simpa using hn, hd⟩, rfl⟩
    · cases he

/-- The settings of a client keep the history exactly when it has takeover on, or the
answer grants that the server does not use it. -/
theorem keepsHistory_iff (cfg : Compress) (p : DeflateParams) :
    KeepsHistory p (clientCompression cfg p) ↔
      cfg.contextTakeover = true ∨ p.serverNoContextTakeover = true := by
  constructor
  · intro h
    by_contra hno
    rw [not_or, Bool.not_eq_true, Bool.not_eq_true] at hno
    have hr := h.receive hno.2
    simp [clientCompression, hno.1] at hr
  · intro h
    refine ⟨?_, le_rfl, ?_, le_rfl⟩
    · intro hp
      rcases h with h | h
      · simp [clientCompression, h, hp]
      · rw [h] at hp
        cases hp
    · intro hp
      simp [clientCompression, hp]

/-- With compression agreed, the client keeps what the server may use, and sends only
what the server keeps, when it has context takeover on or the response carries
`server_no_context_takeover` ; and only then. -/
theorem confirm_keeps {opts : Options} {nonce : Str} {req : Request} {resp : Response}
    {res : Result} {c : Compression} (_ : newRequest D opts nonce = .ok req)
    (h : confirm U D req resp opts = .ok res) (hc : res.compression = some c) :
    ∃ cfg e p, opts.compression = some cfg ∧ parseExtensions U resp.extensions = .ok [e] ∧
      Acceptable U e p ∧ (KeepsHistory p c ↔
        cfg.contextTakeover = true ∨ p.serverNoContextTakeover = true) := by
  obtain ⟨cfg, e, p, hcfg, he, hp, rfl⟩ := confirm_ok U D h hc
  exact ⟨cfg, e, p, hcfg, he, hp, keepsHistory_iff cfg p⟩

/-- The answer is plain, the client asked the server to start every message afresh. -/
def silentResponse : Response where
  status := 101
  upgrade := ascii "websocket"
  connection := ascii "Upgrade"
  accept := accept standard (newKey standard (List.replicate 16 0x41))
  extensions := deflateName

/-- With context takeover on, the client keeps the history such a server uses. -/
theorem confirm_keeps_takeover : ∃ c p e, confirm asciiOnly standard
      (request standard { compression := some { contextTakeover := true } }
        (List.replicate 16 0x41)) silentResponse
      { compression := some { contextTakeover := true } } = .ok ⟨some c, []⟩ ∧
    parseExtensions asciiOnly silentResponse.extensions = .ok [e] ∧ Acceptable asciiOnly e p ∧
    KeepsHistory p c := by
  have hconf : confirm asciiOnly standard
      (request standard { compression := some { contextTakeover := true } }
        (List.replicate 16 0x41)) silentResponse
      { compression := some { contextTakeover := true } } =
        .ok ⟨some ⟨0, 0, true, true, 0, 0⟩, []⟩ := by
    decide +kernel
  obtain ⟨cfg, e, p, hcfg, he, hp, hiff⟩ := confirm_keeps asciiOnly standard
    (newRequest_eq standard rfl (List.replicate 16 0x41)) hconf rfl
  cases hcfg
  exact ⟨_, p, e, hconf, he, hp, hiff.mpr (Or.inl rfl)⟩

/-- The client turned context takeover off and asked the server not to use it. A server
that accepts the extension without granting that is not refused, though it may refer
to history the client does not keep. -/
theorem confirm_drops : ∃ req c e p,
    newRequest standard { compression := some {} } (List.replicate 16 0x41) = .ok req ∧
    confirm asciiOnly standard req silentResponse { compression := some {} } =
      .ok ⟨some c, []⟩ ∧
    parseExtensions asciiOnly silentResponse.extensions = .ok [e] ∧ Acceptable asciiOnly e p ∧
    p.serverNoContextTakeover = false ∧ c.receiveContextTakeover = false ∧ ¬KeepsHistory p c := by
  refine ⟨request standard { compression := some {} } (List.replicate 16 0x41), {},
    ⟨deflateName, []⟩, {}, newRequest_eq standard rfl _, by decide +kernel, by decide +kernel,
    ⟨by decide +kernel, rfl⟩, rfl, rfl, ?_⟩
  intro h
  cases h.receive rfl

/-! ## Both ends -/

theorem hasToken_self {s : Str} (h : Token s) : hasToken U s s = true := by
  have hcomma : (0x2c : UInt8) ∉ s := fun hb => (isToken_spec (h.2 _ hb)).2.2.1 rfl
  rw [hasToken, split, List.splitOn_eq_singleton hcomma, List.any_cons, trimSpace_token U h,
    U.equalFold_ascii s s h.isAscii h.isAscii, beq_self_eq_true, Bool.true_or]

/-- A protocol is selected because it was requested. -/
theorem selectProtocol_requested (requested : Str) : ∀ supported : List Str,
    selectProtocol U requested supported = [] ∨
      hasToken U requested (selectProtocol U requested supported) = true
  | [] => Or.inl rfl
  | s :: supported => by
    unfold selectProtocol
    split_ifs with h
    · exact Or.inr h
    · exact selectProtocol_requested requested supported

theorem parseExtensions_nil : parseExtensions U [] = .ok [] := by
  have hnil : U.trimSpace [] = [] := U.trimSpace_ascii [] isAscii_nil
  rw [parseExtensions, show split 0x2c [] = [[]] from rfl, parseOffers, hnil, if_pos rfl,
    parseOffers]

theorem parse_offer (c : Compress) :
    parseExtensions U (render deflateName ((offer c).map Param.pair)) =
      .ok [⟨deflateName, offer c⟩] :=
  parseExtensions_render U token_deflateName (writable_offer c)

/-- What a server makes of a client's offer. -/
theorem negotiateExtensions_eq (client server : Options) {req : Request}
    (h : req.extensions = requestExtensions client) :
    negotiateExtensions U req server = .ok (client.compression.bind fun cc =>
      server.compression.map fun sc =>
        serverCompression sc ⟨!cc.contextTakeover, !cc.contextTakeover, 0, 15⟩) := by
  unfold negotiateExtensions
  rw [h]
  cases hs : server.compression with
  | none => cases client.compression <;> rfl
  | some sc =>
    cases hc : client.compression with
    | none => simp only [requestExtensions, hc, Option.map_none, Option.getD_none,
        parseExtensions_nil]; rfl
    | some cc =>
      simp only [requestExtensions, hc, Option.map_some, Option.getD_some, parse_offer,
        firstDeflate, equalFold_deflateName, parseDeflate_offer]
      rfl

/-- What a client makes of the answer to its offer. -/
theorem confirmExtensions_eq (client : Options) {resp : Response} {comp : Option Compression}
    (hoff : client.compression = none → comp = none)
    (hbits : ∀ c ∈ comp, c.sendWindowBits = 0)
    (h : resp.extensions = (comp.map formatDeflate).getD []) :
    confirmExtensions U resp client = .ok (client.compression.bind fun cc =>
      comp.map fun c =>
        clientCompression cc ⟨!c.sendContextTakeover, !c.receiveContextTakeover, 0, 0⟩) := by
  unfold confirmExtensions
  rw [h]
  cases comp with
  | none =>
    rw [Option.map_none, Option.getD_none, parseExtensions_nil]
    cases client.compression <;> rfl
  | some c =>
    have hb := hbits c rfl
    have hv : validBits c.sendWindowBits = true := by rw [hb]; rfl
    have ha : answerBits c = 0 := by rw [answerBits, hb]; rfl
    cases hc : client.compression with
    | none => cases hoff hc
    | some cc =>
      simp only [Option.map_some, Option.getD_some, parse_answer U hv, equalFold_deflateName,
        parseDeflate_answer U hv, ha]
      rfl

/-- Both ends have compression on, and each one's settings fit the other's. -/
structure Agree (cc sc : Compress) (c s : Compression) : Prop where
  send : c.sendContextTakeover = s.receiveContextTakeover
  receive : c.receiveContextTakeover = s.sendContextTakeover
  client_window : full s.sendWindowBits ≤ full c.receiveWindowBits
  server_window : full c.sendWindowBits ≤ full s.receiveWindowBits
  client_own : c.level = cc.level ∧ c.minSize = cc.minSize
  server_own : s.level = sc.level ∧ s.minSize = sc.minSize

theorem validKey_newKey {nonce : Str} (h : nonce.length = 16) :
    validKey D (newKey D nonce) = true := by
  rw [validKey, newKey, D.decode_encode]
  simp [h]

/-- The upgrade a request or a response asks for. -/
theorem upgrade_tokens : hasToken U (ascii "websocket") (ascii "websocket") = true ∧
    hasToken U (ascii "Upgrade") (ascii "Upgrade") = true :=
  ⟨hasToken_self U (by decide +kernel), hasToken_self U (by decide +kernel)⟩

/-- What a server answers. -/
def reply (req : Request) (comp : Option Compression) (protocol : Str) : Response where
  status := 101
  upgrade := ascii "websocket"
  connection := ascii "Upgrade"
  accept := accept D req.key
  extensions := (comp.map formatDeflate).getD []
  protocol := protocol

theorem negotiate_eq (client : Options) {server : Options} (h : validOptions server = .ok ())
    {nonce : Str} (hn : nonce.length = 16) {comp : Option Compression}
    (he : negotiateExtensions U (request D client nonce) server = .ok comp) :
    let protocol := selectProtocol U (request D client nonce).protocols server.protocols
    negotiate U D (request D client nonce) server =
      .ok (reply D (request D client nonce) comp protocol, ⟨comp, protocol⟩) := by
  obtain ⟨hweb, hup⟩ := upgrade_tokens U
  rw [negotiate, h]
  dsimp only
  rw [he]
  simp only [request, reply, hweb, hup, validKey_newKey D hn, ne_eq, not_true_eq_false,
    Bool.not_true, Bool.false_eq_true, or_false, if_false]

theorem confirm_eq (req : Request) (opts : Options) {comp comp' : Option Compression}
    {protocol : Str} (hprotocol : protocol = [] ∨ hasToken U req.protocols protocol = true)
    (he : confirmExtensions U (reply D req comp protocol) opts = .ok comp') :
    confirm U D req (reply D req comp protocol) opts = .ok ⟨comp', protocol⟩ := by
  obtain ⟨hweb, hup⟩ := upgrade_tokens U
  have hp : ¬(protocol ≠ [] ∧ (!hasToken U req.protocols protocol) = true) := by
    rintro ⟨hne, hno⟩
    rw [hprotocol.resolve_left hne] at hno
    cases hno
  rw [confirm, he]
  simp only [reply, hweb, hup, not_true_eq_false, Bool.not_true, Bool.false_eq_true, ne_eq,
    or_false, if_false]
  exact if_neg hp

/-- The settings of the two ends, from their options. -/
theorem agree_compressions (cc sc : Compress) :
    let s := serverCompression sc ⟨!cc.contextTakeover, !cc.contextTakeover, 0, 15⟩
    Agree cc sc (clientCompression cc ⟨!s.sendContextTakeover, !s.receiveContextTakeover, 0, 0⟩)
      s := by
  intro s
  refine ⟨?_, ?_, le_rfl, le_rfl, ⟨rfl, rfl⟩, ⟨rfl, rfl⟩⟩
  · simp only [s, clientCompression, serverCompression]
    cases cc.contextTakeover <;> cases sc.contextTakeover <;> rfl
  · simp only [s, clientCompression, serverCompression]
    cases cc.contextTakeover <;> cases sc.contextTakeover <;> rfl

/-- Any valid client and server come to an agreement : the same protocol, and
compression at both ends or at neither, with settings that fit. -/
theorem handshake_agrees {client server : Options} (hc : validOptions client = .ok ())
    (hs : validOptions server = .ok ()) {nonce : Str} (hn : nonce.length = 16) :
    ∃ req resp sres cres, newRequest D client nonce = .ok req ∧
      negotiate U D req server = .ok (resp, sres) ∧ confirm U D req resp client = .ok cres ∧
      cres.protocol = sres.protocol ∧
      ((client.compression = none ∨ server.compression = none) ∧ cres.compression = none ∧
          sres.compression = none ∨
        ∃ cc sc c s, client.compression = some cc ∧ server.compression = some sc ∧
          cres.compression = some c ∧ sres.compression = some s ∧ Agree cc sc c s) := by
  have hext := negotiateExtensions_eq U client server (show (request D client nonce).extensions =
    requestExtensions client from rfl)
  generalize hcomp : (client.compression.bind fun cc => server.compression.map fun sc =>
    serverCompression sc ⟨!cc.contextTakeover, !cc.contextTakeover, 0, 15⟩) = comp at hext
  have hoff : client.compression = none → comp = none := by
    intro h
    rw [← hcomp, h]
    rfl
  have hbits : ∀ c ∈ comp, c.sendWindowBits = 0 := by
    rintro c hmem
    rw [← hcomp] at hmem
    obtain ⟨cc, -, hmap⟩ := Option.bind_eq_some_iff.mp hmem
    obtain ⟨sc, -, rfl⟩ := Option.map_eq_some_iff.mp hmap
    rfl
  refine ⟨_, _, _, _, newRequest_eq D hc nonce, negotiate_eq U D client hs hn hext,
    confirm_eq U D _ client (selectProtocol_requested U _ _)
      (confirmExtensions_eq U client hoff hbits rfl), rfl, ?_⟩
  cases hcc : client.compression with
  | none =>
    rw [hcc] at hcomp
    exact Or.inl ⟨Or.inl rfl, rfl, hcomp.symm⟩
  | some cc =>
    cases hsc : server.compression with
    | none =>
      rw [hcc, hsc] at hcomp
      subst hcomp
      exact Or.inl ⟨Or.inr rfl, rfl, rfl⟩
    | some sc =>
      rw [hcc, hsc] at hcomp
      subst hcomp
      exact Or.inr ⟨cc, sc, _, _, rfl, rfl, rfl, rfl, agree_compressions cc sc⟩

/-- A client without takeover and a server that prefers another protocol. -/
theorem handshake_agrees_chat : ∃ req resp sres cres,
    newRequest standard ⟨some ⟨1, 0, false⟩, [ascii "chat", ascii "log"]⟩
      (List.replicate 16 0x41) = .ok req ∧
    negotiate asciiOnly standard req ⟨some ⟨9, 0, true⟩, [ascii "Log"]⟩ = .ok (resp, sres) ∧
    confirm asciiOnly standard req resp ⟨some ⟨1, 0, false⟩, [ascii "chat", ascii "log"]⟩ =
      .ok cres ∧ cres.protocol = sres.protocol ∧
    ∃ c s, cres.compression = some c ∧ sres.compression = some s ∧
      Agree ⟨1, 0, false⟩ ⟨9, 0, true⟩ c s := by
  obtain ⟨req, resp, sres, cres, hreq, hneg, hconf, hproto, h | h⟩ :=
    handshake_agrees asciiOnly standard
      (show validOptions ⟨some ⟨1, 0, false⟩, [ascii "chat", ascii "log"]⟩ = .ok () from rfl)
      (show validOptions ⟨some ⟨9, 0, true⟩, [ascii "Log"]⟩ = .ok () from rfl)
      (show (List.replicate 16 (0x41 : UInt8)).length = 16 from rfl)
  · rcases h.1 with h | h <;> cases h
  · obtain ⟨cc, sc, c, s, hcc, hsc, hc, hs, ha⟩ := h
    cases hcc
    cases hsc
    exact ⟨req, resp, sres, cres, hreq, hneg, hconf, hproto, c, s, hc, hs, ha⟩

end Handshake

end Ews
