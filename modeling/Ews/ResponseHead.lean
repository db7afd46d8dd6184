import Ews.Upgrade

/-!
# The response of `Upgrade`

The handler's header fields are written behind those of the handshake, name and value as they
are. `readAnswer` reads a response head as `readRequest` reads a request head, and says what is
behind it ; a carriage return is accepted at the end of a line only.

The response is read as the handshake's fields, each once, and one field for each value of each
header that is not reserved, with nothing behind the blank line, exactly if each of these fields
can be written : its name is one and its value has no line end (`upgradeBytes_intact_iff`).
-/

set_option linter.unusedSectionVars false

namespace Ews

namespace Upgrade

open Text Serve Handshake

/-! ## What is written -/

/-- The headers a handler set : each name with its values, in the order they are ranged over. -/
abbrev Extra := List (Str × List Str)

section

variable (U : Unicode)

/-- `reserved`. -/
def reserved (name : Str) : Bool :=
  let name := U.toLower name
  name == ascii "upgrade" || name == ascii "connection" || name == ascii "content-length" ||
    name == ascii "transfer-encoding" || name == ascii "content-type" ||
      (ascii "sec-websocket-").isPrefixOf name

/-- The line of a field. -/
def fieldLine (name value : Str) : Str :=
  name ++ ascii ": " ++ value ++ crlf

/-- What `Upgrade` writes. -/
def upgradeBytes (resp : Handshake.Response) (extra : Extra) : Str :=
  ascii "HTTP/1.1 101 Switching Protocols" ++ crlf ++ ascii "Upgrade: websocket" ++ crlf ++
    ascii "Connection: Upgrade" ++ crlf ++ ascii "Sec-WebSocket-Accept: " ++ resp.accept ++ crlf ++
    (if resp.extensions ≠ [] then ascii "Sec-WebSocket-Extensions: " ++ resp.extensions ++ crlf
      else []) ++
    (if resp.protocol ≠ [] then ascii "Sec-WebSocket-Protocol: " ++ resp.protocol ++ crlf
      else []) ++
    (extra.flatMap fun header =>
      if reserved U header.1 then [] else header.2.flatMap fun v => fieldLine header.1 v) ++ crlf

end

/-! ## What is read -/

/-- The text of a line without its LF : there may be a CR at its end, and nowhere else. -/
def lineText (line : Str) : Option Str :=
  let text := if line.getLast? = some 0x0d then line.dropLast else line
  if 0x0d ∈ text then none else some text

/-- White space around a value. -/
def isBlank (b : UInt8) : Bool :=
  b == 0x20 || b == 0x09

/-- The name and the value of a field. -/
def readField (text : Str) : Option (Str × Str) :=
  let (name, value) := cut 0x3a text
  if 0x3a ∉ text ∨ name = [] ∨ 0x20 ∈ name ∨ 0x09 ∈ name then none
  else some (name, trim isBlank value)

/-- The fields up to the blank line, and the bytes behind it. The last piece has no line end. -/
def readFields : List Str → Option (List (Str × Str) × Str)
  | [] => none
  | [_] => none
  | line :: next :: more =>
    match lineText line with
    | none => none
    | some [] => some ([], [0x0a].intercalate (next :: more))
    | some text =>
      match readField text, readFields (next :: more) with
      | some field, some (fields, rest) => some (field :: fields, rest)
      | _, _ => none

/-- The head of a response. -/
structure Answer where
  status : Str
  fields : List (Str × Str)
  rest : Str
  deriving DecidableEq, Repr

def readAnswer (bs : Str) : Option Answer :=
  match split 0x0a bs with
  | [] => none
  | first :: lines =>
    match lineText first, readFields lines with
    | some status, some (fields, rest) => some ⟨status, fields, rest⟩
    | _, _ => none

/-! ## The fields -/

def statusLine : Str := ascii "HTTP/1.1 101 Switching Protocols"

/-- The handshake's own fields. -/
def ownFields (resp : Handshake.Response) : List (Str × Str) :=
  [(ascii "Upgrade", ascii "websocket"), (ascii "Connection", ascii "Upgrade"),
    (ascii "Sec-WebSocket-Accept", resp.accept)] ++
  (if resp.extensions ≠ [] then [(ascii "Sec-WebSocket-Extensions", resp.extensions)] else []) ++
  (if resp.protocol ≠ [] then [(ascii "Sec-WebSocket-Protocol", resp.protocol)] else [])

/-- One field for each value of each header that is not reserved. -/
def extraFields (U : Unicode) (extra : Extra) : List (Str × Str) :=
  extra.flatMap fun header =>
    if reserved U header.1 then [] else header.2.map fun v => (header.1, v)

/-- A field as it is read. -/
def trimmed (f : Str × Str) : Str × Str :=
  (f.1, trim isBlank f.2)

/-- The lines of fields, and the blank line. -/
def fieldBytes (fs : List (Str × Str)) : Str :=
  fs.flatMap (fun f => fieldLine f.1 f.2) ++ crlf

theorem upgradeBytes_eq (U : Unicode) (resp : Handshake.Response) (extra : Extra) :
    upgradeBytes U resp extra =
      statusLine ++ crlf ++ fieldBytes (ownFields resp ++ extraFields U extra) := by
  have hupgrade : ascii "Upgrade: websocket" = ascii "Upgrade" ++ ascii ": " ++ ascii "websocket" :=
    by decide
  have hconnection : ascii "Connection: Upgrade" =
      ascii "Connection" ++ ascii ": " ++ ascii "Upgrade" := by decide
  have haccept : ascii "Sec-WebSocket-Accept: " = ascii "Sec-WebSocket-Accept" ++ ascii ": " := by
    decide
  have hextensions : ascii "Sec-WebSocket-Extensions: " =
      ascii "Sec-WebSocket-Extensions" ++ ascii ": " := by decide
  have hprotocol : ascii "Sec-WebSocket-Protocol: " =
      ascii "Sec-WebSocket-Protocol" ++ ascii ": " := by decide
  have hextra : (extraFields U extra).flatMap (fun f => fieldLine f.1 f.2) =
      extra.flatMap fun header =>
        if reserved U header.1 then [] else header.2.flatMap fun v => fieldLine header.1 v := by
    rw [extraFields, List.flatMap_assoc]
    congr 1
    funext header
    split_ifs
    · rfl
    · exact List.flatMap_map _ _ _
  rw [upgradeBytes, fieldBytes, List.flatMap_append, hextra, ownFields, hupgrade, hconnection,
    haccept, hextensions, hprotocol, statusLine]
  split_ifs <;> simp [fieldLine]

/-! ## Reading a line -/

/-- A field that can be written : its name is one, and its value has no line end. -/
def CanWrite (f : Str × Str) : Prop :=
  f.1 ≠ [] ∧ f.1.all isNameByte = true ∧ f.2.all isTextByte = true

instance (f : Str × Str) : Decidable (CanWrite f) :=
  inferInstanceAs (Decidable (_ ∧ _))

/-- The text of the line of a field. -/
def fieldText (f : Str × Str) : Str :=
  f.1 ++ ascii ": " ++ f.2

theorem mem_fieldText {f : Str × Str} {b : UInt8} (hb : b ≠ 0x3a ∧ b ≠ 0x20) :
    b ∈ fieldText f ↔ b ∈ f.1 ∨ b ∈ f.2 := by
  have hsep : ascii ": " = [0x3a, 0x20] := by decide
  simp [fieldText, hsep, hb.1, hb.2]

/-- A string without the bytes of a list. -/
theorem all_iff_notMem {p : UInt8 → Bool} {l : List UInt8} (h : ∀ b, p b = true ↔ b ∉ l)
    (s : Str) : s.all p = true ↔ ∀ c ∈ l, c ∉ s := by
  simp only [List.all_eq_true, h]
  exact ⟨fun hs c hc hm => hs c hm hc, fun hs b hb hm => hs b hm hb⟩

theorem isLineEnd_eq_false_iff {b : UInt8} : isLineEnd b = false ↔ b ≠ 0x0d ∧ b ≠ 0x0a := by
  simp [isLineEnd]

theorem canWrite_iff (f : Str × Str) : CanWrite f ↔
    0x0a ∉ fieldText f ∧ 0x0d ∉ fieldText f ∧ f.1 ≠ [] ∧ 0x3a ∉ f.1 ∧ 0x20 ∉ f.1 ∧ 0x09 ∉ f.1 := by
  have hnames : ∀ b, isNameByte b = true ↔ b ∉ [0x0a, 0x0d, 0x3a, 0x20, 0x09] := fun b => by
    rw [isNameByte_iff, isLineEnd_eq_false_iff]
    simp only [List.mem_cons, List.not_mem_nil, or_false, not_or, ne_eq]
    grind
  have htexts : ∀ b, isTextByte b = true ↔ b ∉ [0x0a, 0x0d] := fun b => by
    rw [isTextByte_iff, isLineEnd_eq_false_iff]
    simp only [List.mem_cons, List.not_mem_nil, or_false, not_or, ne_eq]
    grind
  have hname := all_iff_notMem hnames f.1
  have htext := all_iff_notMem htexts f.2
  simp only [List.forall_mem_cons, List.not_mem_nil, false_imp_iff, imp_true_iff, and_true]
    at hname htext
  rw [CanWrite, hname, htext, mem_fieldText (by decide), mem_fieldText (by decide)]
  grind

theorem lineText_cr (l : Str) : lineText (l ++ [0x0d]) = if 0x0d ∈ l then none else some l := by
  simp [lineText]

/-- The name read in a field has no colon. -/
theorem readField_colon {text : Str} {f : Str × Str} (h : readField text = some f) :
    0x3a ∉ f.1 ∧ f.1 ≠ [] ∧ 0x20 ∉ f.1 ∧ 0x09 ∉ f.1 := by
  unfold readField at h
  dsimp only at h
  split_ifs at h with hbad
  cases h
  push Not at hbad
  refine ⟨fun hm => ?_, hbad.2⟩
  have hp := List.mem_takeWhile_imp hm
  simp at hp

/-- A line is read as the field it was written for exactly if the name is one. -/
theorem readField_fieldText (f : Str × Str) : readField (fieldText f) = some (trimmed f) ↔
    f.1 ≠ [] ∧ 0x3a ∉ f.1 ∧ 0x20 ∉ f.1 ∧ 0x09 ∉ f.1 := by
  constructor
  · intro h
    obtain ⟨hcolon, hne, hspace, htab⟩ := readField_colon h
    exact ⟨hne, hcolon, hspace, htab⟩
  · rintro ⟨hne, hcolon, hspace, htab⟩
    have htext : fieldText f = f.1 ++ 0x3a :: 0x20 :: f.2 := by
      have hsep : ascii ": " = [0x3a, 0x20] := by decide
      simp [fieldText, hsep]
    rw [htext, readField, cut_append hcolon]
    dsimp only
    rw [if_neg, trim_cons rfl, trimmed]
    simp [hne, hspace, htab]

theorem fieldText_ne_nil (f : Str × Str) : fieldText f ≠ [] := by
  have hsep : ascii ": " = [0x3a, 0x20] := by decide
  simp [fieldText, hsep]

/-- A line that is not blank, and what is behind it. -/
theorem readFields_cons {line text : Str} {lines : List Str} (hlines : lines ≠ [])
    (h : lineText line = some text) (hne : text ≠ []) (f : Str × Str) (fs : List (Str × Str))
    (rest : Str) : readFields (line :: lines) = some (f :: fs, rest) ↔
      readField text = some f ∧ readFields lines = some (fs, rest) := by
  cases lines with
  | nil => exact absurd rfl hlines
  | cons next more =>
    cases text with
    | nil => exact absurd rfl hne
    | cons b text =>
      rw [readFields, h]
      dsimp only
      cases readField (b :: text) with
      | none => simp
      | some g =>
        cases readFields (next :: more) with
        | none => simp
        | some out => simp [Prod.ext_iff, and_assoc]

/-! ## Reading the lines -/

/-- The pieces of the lines of fields, the blank one included. -/
def pieces (fs : List (Str × Str)) : List Str :=
  fs.map (fun f => fieldText f ++ [0x0d]) ++ [[0x0d], []]

theorem pieces_ne_nil (fs : List (Str × Str)) : pieces fs ≠ [] := by
  simp [pieces]

/-- Lines without a line end in them are read as the fields they were written for exactly if these
can be written. -/
theorem readFields_pieces : ∀ fs : List (Str × Str), (∀ f ∈ fs, 0x0a ∉ fieldText f) →
    (readFields (pieces fs) = some (fs.map trimmed, []) ↔ ∀ f ∈ fs, CanWrite f)
  | [], _ => by simp [pieces, readFields, lineText]
  | f :: fs, h => by
    have ih := readFields_pieces fs fun g hg => h g (List.mem_cons_of_mem _ hg)
    have hlf := h f List.mem_cons_self
    rw [List.forall_mem_cons, List.map_cons, canWrite_iff]
    change readFields ((fieldText f ++ [0x0d]) :: pieces fs) = _ ↔ _
    by_cases hcr : 0x0d ∈ fieldText f
    · have hnone : readFields ((fieldText f ++ [0x0d]) :: pieces fs) = none := by
        cases hp : pieces fs with
        | nil => rfl
        | cons next more => simp [readFields, lineText_cr, hcr]
      simp [hnone, hcr]
    · have htext : lineText (fieldText f ++ [0x0d]) = some (fieldText f) := by
        rw [lineText_cr, if_neg hcr]
      rw [readFields_cons (pieces_ne_nil fs) htext (fieldText_ne_nil f), ih, readField_fieldText]
      simp [hlf, hcr]

/-- The lines of fields without a line end in them, split. -/
theorem split_fieldBytes : ∀ fs : List (Str × Str), (∀ f ∈ fs, 0x0a ∉ fieldText f) →
    split 0x0a (fieldBytes fs) = pieces fs
  | [], _ => by decide
  | f :: fs, h => by
    have ih := split_fieldBytes fs fun g hg => h g (List.mem_cons_of_mem _ hg)
    have hline : fieldBytes (f :: fs) = (fieldText f ++ [0x0d]) ++ 0x0a :: fieldBytes fs := by
      simp [fieldBytes, fieldLine, fieldText, crlf]
    have hlf : 0x0a ∉ fieldText f ++ [0x0d] := by simpa using h f List.mem_cons_self
    rw [hline, split_append, split, List.splitOn_eq_singleton hlf, ih]
    rfl

/-! ## Counting lines -/

/-- There is one piece more than there are separators. -/
theorem length_split (sep : UInt8) : ∀ s : Str, (split sep s).length = s.count sep + 1
  | [] => rfl
  | b :: s => by
    have ih := length_split sep s
    unfold split at ih ⊢
    rw [List.splitOn_cons_eq_if_modifyHead, List.count_cons]
    split_ifs with hb <;> simp_all

/-- Lines read to their end : those of the fields, the blank one, and nothing. -/
theorem length_of_readFields : ∀ {lines : List Str} {fs : List (Str × Str)},
    readFields lines = some (fs, []) → lines.length = fs.length + 2
  | [], fs, h => by cases h
  | [_], fs, h => by cases h
  | line :: next :: more, fs, h => by
    rw [readFields] at h
    cases hl : lineText line with
    | none =>
      rw [hl] at h
      cases h
    | some text =>
      rw [hl] at h
      cases text with
      | nil =>
        obtain ⟨rfl, hrest⟩ : [] = fs ∧ [0x0a].intercalate (next :: more) = [] := by simpa using h
        cases more with
        | nil => rfl
        | cons last more => simp [List.intercalate_cons_cons] at hrest
      | cons b text =>
        dsimp only at h
        split at h
        · rename_i f fs' rest _ hmore
          cases h
          have ih := length_of_readFields hmore
          simp only [List.length_cons] at ih ⊢
          omega
        · cases h

/-- The line ends of fields : one for each, one for the blank line, and those in them. -/
theorem count_fieldBytes : ∀ fs : List (Str × Str), (fieldBytes fs).count 0x0a =
    fs.length + 1 + (fs.map fun f => (fieldText f).count 0x0a).sum
  | [] => by decide
  | f :: fs => by
    have ih := count_fieldBytes fs
    have hline : fieldBytes (f :: fs) = fieldText f ++ crlf ++ fieldBytes fs := by
      simp [fieldBytes, fieldLine, fieldText]
    have hcrlf : crlf.count 0x0a = 1 := by decide
    rw [hline, List.count_append, List.count_append, ih, hcrlf, List.map_cons, List.sum_cons,
      List.length_cons]
    omega

/-- Fields that are read as they were written for have no line end in them. -/
theorem notMem_of_readFields {fs : List (Str × Str)}
    (h : readFields (split 0x0a (fieldBytes fs)) = some (fs.map trimmed, [])) :
    ∀ f ∈ fs, 0x0a ∉ fieldText f := by
  have hlen := length_of_readFields h
  rw [length_split, count_fieldBytes, List.length_map] at hlen
  have hsum : (fs.map fun f => (fieldText f).count 0x0a).sum = 0 := by omega
  intro f hf
  have hzero := List.sum_eq_zero_iff_forall_eq_nat.mp hsum _ (List.mem_map_of_mem hf)
  exact List.count_eq_zero.mp hzero

/-- A head is read as it was written for exactly if its fields can be written. -/
theorem readAnswer_iff (fs : List (Str × Str)) :
    readAnswer (statusLine ++ crlf ++ fieldBytes fs) = some ⟨statusLine, fs.map trimmed, []⟩ ↔
      ∀ f ∈ fs, CanWrite f := by
  have hsplit : split 0x0a (statusLine ++ crlf ++ fieldBytes fs) =
      (statusLine ++ [0x0d]) :: split 0x0a (fieldBytes fs) := by
    have hhead : statusLine ++ crlf ++ fieldBytes fs =
        (statusLine ++ [0x0d]) ++ 0x0a :: fieldBytes fs := by
      simp [crlf]
    rw [hhead, split_append, split, List.splitOn_eq_singleton (by decide)]
    rfl
  have hstatus : lineText (statusLine ++ [0x0d]) = some statusLine := by decide
  have hread : readAnswer (statusLine ++ crlf ++ fieldBytes fs) =
      some ⟨statusLine, fs.map trimmed, []⟩ ↔
        readFields (split 0x0a (fieldBytes fs)) = some (fs.map trimmed, []) := by
    rw [readAnswer, hsplit]
    simp only [hstatus]
    cases readFields (split 0x0a (fieldBytes fs)) with
    | none => simp
    | some out => simp [Prod.ext_iff]
  rw [hread]
  constructor
  · intro h
    have hlf := notMem_of_readFields h
    rw [split_fieldBytes fs hlf] at h
    exact (readFields_pieces fs hlf).mp h
  · intro h
    have hlf : ∀ f ∈ fs, 0x0a ∉ fieldText f := fun f hf => ((canWrite_iff f).mp (h f hf)).1
    rw [split_fieldBytes fs hlf]
    exact (readFields_pieces fs hlf).mpr h

/-! ## The handshake's fields -/

/-- What the parameters do to line ends : base64 writes none, trimming brings none in, and a text
that folds to one without has none. -/
structure LineSafe (U : Unicode) (D : Digest) : Prop where
  encode : ∀ s, (D.encode s).all isTextByte = true
  trimSpace : ∀ s, s.all isTextByte = true → (U.trimSpace s).all isTextByte = true
  equalFold : ∀ s t, U.equalFold s t = true → s.all isTextByte = true → t.all isTextByte = true

theorem isTextByte_digit {c : Char} (h : c.isDigit = true) :
    isTextByte (UInt8.ofNat c.toNat) = true := by
  simp only [Char.isDigit, Bool.and_eq_true, decide_eq_true_eq] at h
  have hlo : 48 ≤ c.toNat := h.1
  have hhi : c.toNat ≤ 57 := h.2
  have hall : ∀ n < 58, 48 ≤ n → isTextByte (UInt8.ofNat n) = true := by decide
  exact hall _ (by omega) hlo

theorem isTextByte_itoa (n : ℤ) : (itoa n).all isTextByte = true := by
  have hdigits : ((Nat.toDigits 10 n.natAbs).map fun c => UInt8.ofNat c.toNat).all isTextByte =
      true := by
    rw [List.all_eq_true]
    intro b hb
    obtain ⟨c, hc, rfl⟩ := List.mem_map.mp hb
    exact isTextByte_digit (Nat.isDigit_of_mem_toDigits (by omega) le_rfl hc)
  rw [itoa]
  split_ifs
  · rw [List.all_cons, hdigits]
    rfl
  · exact hdigits

theorem isTextByte_formatDeflate (c : Compression) : (formatDeflate c).all isTextByte = true := by
  have hname : deflateName.all isTextByte = true := by decide
  have hserver : (ascii "; server_no_context_takeover").all isTextByte = true := by decide
  have hclient : (ascii "; client_no_context_takeover").all isTextByte = true := by decide
  have hbits : (ascii "; server_max_window_bits=").all isTextByte = true := by decide
  rw [formatDeflate]
  split_ifs <;> simp only [List.all_append, hname, hserver, hclient, hbits, isTextByte_itoa,
    Bool.and_self]

section

variable {U : Unicode} {D : Digest}

/-- The answer of a negotiation that succeeded. -/
theorem subset_intercalate {sep w : Str} : ∀ {ws : List Str}, w ∈ ws → w ⊆ sep.intercalate ws
  | [], hw => by cases hw
  | [v], hw => by
    rw [List.mem_singleton.mp hw, List.intercalate_singleton]
    exact List.Subset.refl v
  | v :: u :: ws, hw => by
    rw [List.intercalate_cons_cons]
    rcases List.mem_cons.mp hw with rfl | hw
    · exact List.subset_append_of_subset_left _ (List.subset_append_left w sep)
    · exact List.subset_append_of_subset_right _ (subset_intercalate hw)

theorem isTextByte_split {sep : UInt8} {s w : Str} (h : s.all isTextByte = true)
    (hw : w ∈ split sep s) : w.all isTextByte = true := by
  have hs : [sep].intercalate (split sep s) = s := List.intercalate_splitOn sep
  have hsub : w ⊆ [sep].intercalate (split sep s) := subset_intercalate hw
  rw [hs] at hsub
  rw [List.all_eq_true] at h ⊢
  exact fun b hb => h b (hsub hb)

/-- The protocol that was selected folds to one of the request. -/
theorem isTextByte_selectProtocol (safe : LineSafe U D) {requested : Str}
    (h : requested.all isTextByte = true) (supported : List Str) :
    (selectProtocol U requested supported).all isTextByte = true := by
  by_cases hnil : selectProtocol U requested supported = []
  · rw [hnil]
    rfl
  · obtain ⟨-, -, -, -, htoken⟩ := selectProtocol_spec U requested supported hnil
    rw [hasToken, List.any_eq_true] at htoken
    obtain ⟨t, ht, hfold⟩ := htoken
    exact safe.equalFold _ _ hfold (safe.trimSpace _ (isTextByte_split h ht))

theorem canWrite_mk {name value : Str} (hname : name ≠ [] ∧ name.all isNameByte = true)
    (hvalue : value.all isTextByte = true) : CanWrite (name, value) :=
  ⟨hname.1, hname.2, hvalue⟩

/-- The handshake's own fields can be written. -/
theorem canWrite_ownFields (safe : LineSafe U D) {req : Handshake.Request} {opts : Options}
    {resp : Handshake.Response} {res : Result} (h : negotiate U D req opts = .ok (resp, res))
    (hprotocols : req.protocols.all isTextByte = true) : ∀ f ∈ ownFields resp, CanWrite f := by
  have hresp := (negotiate_ok U D h).2
  have haccept : resp.accept.all isTextByte = true := by
    rw [hresp]
    exact safe.encode _
  have hextensions : resp.extensions.all isTextByte = true := by
    rw [hresp]
    cases res.compression with
    | none => rfl
    | some c => exact isTextByte_formatDeflate c
  have hprotocol : resp.protocol.all isTextByte = true := by
    rw [hresp]
    exact isTextByte_selectProtocol safe hprotocols _
  intro f hf
  simp only [ownFields, List.mem_append, List.mem_ite_nil_right, List.mem_cons, List.not_mem_nil,
    or_false] at hf
  rcases hf with ((rfl | rfl | rfl) | ⟨-, rfl⟩) | ⟨-, rfl⟩
  · decide
  · decide
  · exact canWrite_mk (by decide) haccept
  · exact canWrite_mk (by decide) hextensions
  · exact canWrite_mk (by decide) hprotocol

/-! ## The whole response -/

/-- A name in lower case, as names are compared. -/
def folded (f : Str × Str) : Str :=
  f.1.map lower

/-- The response is read as it is meant : the status line, the handshake's fields, each once, and
the fields of the handler, none of which has the name of one of the handshake's ; nothing is
behind the blank line. -/
structure Intact (U : Unicode) (resp : Handshake.Response) (extra : Extra) : Prop where
  read : readAnswer (upgradeBytes U resp extra) =
    some ⟨statusLine, (ownFields resp ++ extraFields U extra).map trimmed, []⟩
  once : ((ownFields resp).map folded).Nodup
  apart : ∀ f ∈ extraFields U extra, folded f ∉ (ownFields resp).map folded

/-- The names of the handshake's fields. -/
def ownNames : List Str :=
  [ascii "upgrade", ascii "connection", ascii "sec-websocket-accept",
    ascii "sec-websocket-extensions", ascii "sec-websocket-protocol"]

theorem ownNames_sublist (resp : Handshake.Response) :
    ((ownFields resp).map folded).Sublist ownNames := by
  have hupgrade : (ascii "Upgrade").map lower = ascii "upgrade" := by decide
  have hconnection : (ascii "Connection").map lower = ascii "connection" := by decide
  have haccept : (ascii "Sec-WebSocket-Accept").map lower = ascii "sec-websocket-accept" := by
    decide
  have hextensions : (ascii "Sec-WebSocket-Extensions").map lower =
      ascii "sec-websocket-extensions" := by decide
  have hprotocol : (ascii "Sec-WebSocket-Protocol").map lower = ascii "sec-websocket-protocol" := by
    decide
  rw [ownFields, ownNames]
  split_ifs <;> simp [folded, hupgrade, hconnection, haccept, hextensions, hprotocol]

theorem isAscii_of_lower {s t : Str} (ht : IsAscii t) (h : s.map lower = t) : IsAscii s := by
  have hlower : ∀ b : UInt8, lower b < 0x80 → b < 0x80 := Utf8.forall_byte (by decide +kernel)
  intro b hb
  exact hlower b (ht _ (h ▸ List.mem_map_of_mem hb))

/-- The names of the handshake's fields are reserved in any case. -/
theorem reserved_of_folded (U : Unicode) {f : Str × Str} (h : folded f ∈ ownNames) :
    reserved U f.1 = true := by
  have hascii : ∀ s ∈ ownNames, IsAscii s := by
    have hall : ownNames.all (fun s => s.all fun b => decide (b < 0x80)) = true := by decide
    intro s hs b hb
    exact of_decide_eq_true (List.all_eq_true.mp (List.all_eq_true.mp hall s hs) b hb)
  have hlower : U.toLower f.1 = folded f :=
    U.toLower_ascii _ (isAscii_of_lower (hascii _ h) rfl)
  rw [reserved, hlower]
  have hnames : ownNames.all (fun name => name == ascii "upgrade" || name == ascii "connection" ||
      name == ascii "content-length" || name == ascii "transfer-encoding" ||
        name == ascii "content-type" || (ascii "sec-websocket-").isPrefixOf name) = true := by
    decide
  exact List.all_eq_true.mp hnames _ h

theorem reserved_of_mem {U : Unicode} {extra : Extra} {f : Str × Str}
    (h : f ∈ extraFields U extra) : reserved U f.1 = false := by
  obtain ⟨header, -, hf⟩ := List.mem_flatMap.mp h
  split_ifs at hf with hr
  · cases hf
  · obtain ⟨v, -, rfl⟩ := List.mem_map.mp hf
    exact Bool.not_eq_true _ ▸ hr

/-- The response to a request that is accepted is read as it is meant exactly if every field of
the handler that is written can be. -/
theorem upgradeBytes_intact_iff (safe : LineSafe U D) {req : Handshake.Request} {opts : Options}
    {resp : Handshake.Response} {res : Result}
    (negotiated : negotiate U D req opts = .ok (resp, res))
    (received : req.protocols.all isTextByte = true) (extra : Extra) :
    Intact U resp extra ↔ ∀ f ∈ extraFields U extra, CanWrite f := by
  have hown := canWrite_ownFields safe negotiated received
  have hread := readAnswer_iff (ownFields resp ++ extraFields U extra)
  rw [← upgradeBytes_eq, List.forall_mem_append] at hread
  constructor
  · intro h
    exact (hread.mp h.read).2
  · intro h
    have hsub := ownNames_sublist resp
    refine ⟨hread.mpr ⟨hown, h⟩, hsub.nodup (by decide), fun f hf hm => ?_⟩
    have hreserved := reserved_of_folded U (hsub.subset hm)
    rw [reserved_of_mem hf] at hreserved
    cases hreserved

end

theorem lineSafe_standard : LineSafe asciiOnly standard where
  encode := Base64.encode_all (by decide) (by decide)
  trimSpace s hs := by
    rw [List.all_eq_true] at hs ⊢
    intro b hb
    have hsub : trim isSpace s ⊆ s :=
      ((List.rdropWhile_prefix _ _).sublist.trans (List.dropWhile_sublist _)).subset
    exact hs b (hsub hb)
  equalFold s t hfold hs := by
    have hlower : ∀ b : UInt8, isTextByte (lower b) = isTextByte b :=
      Utf8.forall_byte (by decide +kernel)
    have heq : s.map lower = t.map lower := beq_iff_eq.mp hfold
    have hall : ∀ s : Str, (s.map lower).all isTextByte = s.all isTextByte := by
      intro s
      rw [List.all_map]
      exact congrArg s.all (funext hlower)
    rw [← hall t, ← heq, hall s]
    exact hs

/-- A request for a protocol. -/
def chatted : Handshake.Request where
  method := ascii "GET"
  upgrade := ascii "websocket"
  connection := ascii "Upgrade"
  version := version
  key := ascii key
  protocols := ascii "chat"

/-- A value with a line end in it adds a field, here a second `Sec-WebSocket-Accept`. -/
theorem upgradeBytes_injected : ∃ resp res,
    negotiate asciiOnly standard chatted {} = .ok (resp, res) ∧
    (readAnswer (upgradeBytes asciiOnly resp
      [(ascii "X-Id", [ascii "1\r\nSec-WebSocket-Accept: x"])])).map Answer.fields =
        some (ownFields resp ++
          [(ascii "X-Id", ascii "1"), (ascii "Sec-WebSocket-Accept", ascii "x")]) ∧
    ¬Intact asciiOnly resp [(ascii "X-Id", [ascii "1\r\nSec-WebSocket-Accept: x"])] := by
  refine ⟨_, _, rfl, by decide +kernel, fun h => ?_⟩
  exact absurd h.read (by decide +kernel)

theorem upgradeBytes_intact_cookies : ∃ resp res,
    negotiate asciiOnly standard chatted { protocols := [ascii "chat"] } = .ok (resp, res) ∧
    Intact asciiOnly resp [(ascii "Set-Cookie", [ascii "a=1", ascii "b=2"]),
      (ascii "Content-Type", [ascii "x"])] := by
  obtain ⟨resp, res, hneg⟩ : ∃ resp res,
      negotiate asciiOnly standard chatted { protocols := [ascii "chat"] } = .ok (resp, res) :=
    ⟨_, _, rfl⟩
  refine ⟨resp, res, hneg, ?_⟩
  refine (upgradeBytes_intact_iff lineSafe_standard hneg (by decide) _).mpr ?_
  decide +kernel

end Upgrade

end Ews
