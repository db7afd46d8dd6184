import Ews.Negotiation
import Ews.Utf8

/-!
# Reading what other ends write

Other implementations write extension lists and subprotocol lists in their own ways. `Writes`
are the legal ways to write a list of extensions : white space around every separator, empty
elements between the commas, values bare or in quotes. All of them are read as the list
(`parseExtensions_writes`).

Subprotocols are compared with `hasToken`, which ignores case. What the server selects, and what
the client accepts, can differ from what was offered (`protocol_offered_iff`).
-/

set_option linter.unusedSectionVars false

namespace Ews

namespace Handshake

open Text

variable (U : Unicode) (D : Digest)

/-! ## Extension lists as they are written -/

/-- White space that may stand around a separator. -/
def Blank (s : Str) : Prop :=
  ∀ b ∈ s, isSpace b = true

instance (s : Str) : Decidable (Blank s) :=
  List.decidableBAll _ s

/-- A value behind its parameter : nothing, or an equals sign and a token, bare or in quotes. -/
inductive ValueText : Str → Str → Prop
  | absent : ValueText [] []
  | bare {v a c : Str} (token : Token v) (before : Blank a) (after : Blank c) :
      ValueText v (a ++ 0x3d :: (c ++ v))
  | quoted {v a c : Str} (token : Token v) (before : Blank a) (after : Blank c) :
      ValueText v (a ++ 0x3d :: (c ++ (0x22 :: v ++ [0x22])))

/-- A parameter between its semicolons. -/
inductive ParamText : Param → Str → Prop
  | mk {name value t a c : Str} (token : Token name) (text : ValueText value t) (before : Blank a)
      (after : Blank c) : ParamText ⟨name, value⟩ (a ++ (name ++ t) ++ c)

/-- An extension between its commas. -/
inductive ElementText : Extension → Str → Prop
  | mk {name a c : Str} {ps : List Param} {ts : List Str} (token : Token name) (before : Blank a)
      (after : Blank c) (params : List.Forall₂ ParamText ps ts) :
      ElementText ⟨name, ps⟩ (a ++ (name ++ c ++ (ts.map (0x3b :: ·)).flatten))

/-- The elements of a list of extensions, some of them empty. -/
inductive Writes : List Extension → List Str → Prop
  | nil : Writes [] []
  | blank {es : List Extension} {ts : List Str} {a : Str} (blank : Blank a) (rest : Writes es ts) :
      Writes es (a :: ts)
  | element {e : Extension} {es : List Extension} {t : Str} {ts : List Str}
      (element : ElementText e t) (rest : Writes es ts) : Writes (e :: es) (t :: ts)

/-! ## The bytes of such texts -/

/-- The bytes an element can have besides semicolons. -/
def isPlain (b : UInt8) : Bool :=
  isToken b || isSpace b || b == 0x3d || b == 0x22

theorem isPlain_spec (b : UInt8) (h : isPlain b = true) : b < 0x80 ∧ b ≠ 0x2c ∧ b ≠ 0x3b := by
  revert h
  revert b
  exact Utf8.forall_byte (by decide +kernel)

theorem Blank.plain {s : Str} (h : Blank s) : ∀ b ∈ s, isPlain b = true := by
  intro b hb
  rw [isPlain, h b hb]
  simp

theorem token_plain {s : Str} (h : Token s) : ∀ b ∈ s, isPlain b = true := by
  intro b hb
  rw [isPlain, h.2 b hb]
  simp

theorem plain_append {s t : Str} (hs : ∀ b ∈ s, isPlain b = true) (ht : ∀ b ∈ t, isPlain b = true) :
    ∀ b ∈ s ++ t, isPlain b = true := by
  intro b hb
  rcases List.mem_append.mp hb with hb | hb
  · exact hs b hb
  · exact ht b hb

theorem plain_cons {a : UInt8} {s : Str} (ha : isPlain a = true) (hs : ∀ b ∈ s, isPlain b = true) :
    ∀ b ∈ a :: s, isPlain b = true := by
  intro b hb
  rcases List.mem_cons.mp hb with rfl | hb
  · exact ha
  · exact hs b hb

theorem plain_nil : ∀ b ∈ ([] : Str), isPlain b = true := by
  intro b hb
  cases hb

theorem isAscii_of_plain {s : Str} (h : ∀ b ∈ s, isPlain b = true) : IsAscii s :=
  fun b hb => (isPlain_spec b (h b hb)).1

theorem ValueText.plain {v t : Str} (h : ValueText v t) : ∀ b ∈ t, isPlain b = true := by
  cases h with
  | absent => exact plain_nil
  | bare token before after =>
    exact plain_append before.plain
      (plain_cons (by decide) (plain_append after.plain (token_plain token)))
  | quoted token before after =>
    exact plain_append before.plain (plain_cons (by decide) (plain_append after.plain
      (plain_append (plain_cons (by decide) (token_plain token))
        (plain_cons (by decide) plain_nil))))

theorem ParamText.plain {kv : Param} {t : Str} (h : ParamText kv t) :
    ∀ b ∈ t, isPlain b = true := by
  cases h with
  | mk token text before after =>
    exact plain_append (plain_append before.plain (plain_append (token_plain token) text.plain))
      after.plain

/-! ## Reading a parameter -/

/-- A parameter without its white space does not end in white space. -/
theorem ValueText.last {name v t : Str} (hname : Token name) (h : ValueText v t) :
    ∀ b ∈ (name ++ t).getLast?, isSpace b = false := by
  intro b hb
  cases h with
  | absent =>
    rw [List.append_nil] at hb
    exact (isToken_spec (hname.2 b (List.mem_of_mem_getLast? hb))).2.1
  | @bare v a c token before after =>
    have hlast : name ++ (a ++ 0x3d :: (c ++ v)) = (name ++ a ++ 0x3d :: c) ++ v := by simp
    rw [hlast, List.getLast?_append_of_ne_nil _ token.1] at hb
    exact (isToken_spec (token.2 b (List.mem_of_mem_getLast? hb))).2.1
  | @quoted v a c token before after =>
    have hlast : name ++ (a ++ 0x3d :: (c ++ (0x22 :: v ++ [0x22]))) =
        (name ++ a ++ 0x3d :: (c ++ 0x22 :: v)) ++ [0x22] := by simp
    rw [hlast, List.getLast?_append_of_ne_nil _ (by simp)] at hb
    obtain rfl : 0x22 = b := by simpa using hb
    decide

/-- Nothing to trim behind a token that starts the text. -/
theorem trim_token {name s : Str} (hname : Token name)
    (hlast : ∀ b ∈ (name ++ s).getLast?, isSpace b = false) :
    trim isSpace (name ++ s) = name ++ s := by
  refine trim_eq_self ?_ hlast
  intro b hb
  rw [List.head?_append_of_ne_nil _ hname.1] at hb
  exact (isToken_spec (hname.2 b (List.mem_of_mem_head? hb))).2.1

/-- A name and its value, cut at the equals sign and trimmed. -/
theorem ValueText.cut {name v t : Str} (hname : Token name) (h : ValueText v t) :
    ∃ l r, Text.cut 0x3d (name ++ t) = (l, r) ∧ trim isSpace l = name ∧ IsAscii l ∧ IsAscii r ∧
      trim isQuote (trim isSpace r) = v := by
  have hno : 0x3d ∉ name := fun hb => (isToken_spec (hname.2 _ hb)).2.2.2.2.1 rfl
  have hcut : ∀ {a : Str}, Blank a → ∀ r,
      Text.cut 0x3d (name ++ (a ++ 0x3d :: r)) = (name ++ a, r) := by
    intro a ha r
    rw [← List.append_assoc]
    refine cut_append ?_ r
    intro hb
    rcases List.mem_append.mp hb with hb | hb
    · exact hno hb
    · cases ha _ hb
  have hleft : ∀ {a : Str}, Blank a → trim isSpace (name ++ a) = name := by
    intro a ha
    rw [trim_append_right ha, hname.trim_space]
  cases h with
  | absent =>
    exact ⟨name, [], by rw [List.append_nil, cut_of_notMem hno], hname.trim_space, hname.isAscii,
      isAscii_nil, rfl⟩
  | bare token before after =>
    refine ⟨_, _, hcut before _, hleft before,
      isAscii_of_plain (plain_append (token_plain hname) before.plain),
      isAscii_of_plain (plain_append after.plain (token_plain token)), ?_⟩
    rw [trim_append_left after, token.trim_space, token.trim_quote]
  | @quoted v a c token before after =>
    have hquotes : trim isSpace (0x22 :: v ++ [0x22]) = 0x22 :: v ++ [0x22] := by
      refine trim_eq_self ?_ ?_
      · intro b hb
        obtain rfl : 0x22 = b := by simpa using hb
        decide
      · intro b hb
        rw [List.getLast?_append_of_ne_nil _ (by simp)] at hb
        obtain rfl : 0x22 = b := by simpa using hb
        decide
    refine ⟨_, _, hcut before _, hleft before,
      isAscii_of_plain (plain_append (token_plain hname) before.plain),
      isAscii_of_plain (plain_append after.plain (plain_append
        (plain_cons (by decide) (token_plain token)) (plain_cons (by decide) plain_nil))), ?_⟩
    have hquote : ∀ b ∈ ([0x22] : Str), isQuote b = true := by simp [isQuote]
    rw [trim_append_left after, hquotes, trim_append_right hquote,
      trim_cons (by decide), token.trim_quote]

theorem parseParams_texts {ps : List Param} {ts : List Str} (h : List.Forall₂ ParamText ps ts) :
    parseParams U ts = .ok ps := by
  induction h with
  | nil => rfl
  | @cons p t ps ts htext _ ih =>
    obtain ⟨token, text, before, after⟩ := htext
    rename_i name value t a c
    obtain ⟨l, r, hcut, hl, hla, hra, hr⟩ := text.cut token
    have htrim : U.trimSpace (a ++ (name ++ t) ++ c) = name ++ t := by
      rw [U.trimSpace_ascii _ (isAscii_of_plain (ParamText.mk token text before after).plain),
        trim_append_right after, trim_append_left before, trim_token token (text.last token)]
    rw [parseParams, htrim, hcut]
    simp only [U.trimSpace_ascii l hla, U.trimSpace_ascii r hra, hl, hr, ih]
    rw [if_neg token.1]

/-! ## Reading an element -/

/-- Pieces behind a first one, each with its separator. -/
theorem split_flatten {sep : UInt8} {s : Str} (hs : sep ∉ s) {ts : List Str}
    (hts : ∀ t ∈ ts, sep ∉ t) : split sep (s ++ (ts.map (sep :: ·)).flatten) = s :: ts := by
  induction ts generalizing s with
  | nil =>
    rw [List.map_nil, List.flatten_nil, List.append_nil, split, List.splitOn_eq_singleton hs]
  | cons t ts ih =>
    rw [List.map_cons, List.flatten_cons, List.cons_append, split,
      List.splitOn_append_cons_self_of_not_mem hs, ← split,
      ih (hts t List.mem_cons_self) fun t' ht' => hts t' (List.mem_cons_of_mem _ ht')]

theorem params_plain {ps : List Param} {ts : List Str} (h : List.Forall₂ ParamText ps ts) :
    ∀ t ∈ ts, ∀ b ∈ t, isPlain b = true := by
  induction h with
  | nil =>
    intro t ht
    cases ht
  | cons htext _ ih =>
    intro t ht
    rcases List.mem_cons.mp ht with rfl | ht
    · exact htext.plain
    · exact ih t ht

theorem parseOffer_element {e : Extension} {t : Str} (h : ElementText e t) :
    parseOffer U t = .ok e := by
  obtain ⟨token, before, after, params⟩ := h
  rename_i name a c ps ts
  have hfirst := plain_append (plain_append before.plain (token_plain token)) after.plain
  have hno : ∀ {s : Str}, (∀ b ∈ s, isPlain b = true) → 0x3b ∉ s :=
    fun hs hb => (isPlain_spec _ (hs _ hb)).2.2 rfl
  have hsplit : split 0x3b (a ++ (name ++ c ++ (ts.map (0x3b :: ·)).flatten)) =
      (a ++ name ++ c) :: ts := by
    rw [← List.append_assoc, ← List.append_assoc]
    exact split_flatten (hno hfirst) fun t ht => hno (params_plain params t ht)
  have hname : U.trimSpace (a ++ name ++ c) = name := by
    rw [U.trimSpace_ascii _ (isAscii_of_plain hfirst), trim_append_right after,
      trim_append_left before, token.trim_space]
  rw [parseOffer, hsplit]
  simp only [hname, parseParams_texts U params]
  rw [if_neg token.1]

/-- The white space at the end of an element is that of its last part. -/
theorem params_end {ps : List Param} {ts : List Str} (h : List.Forall₂ ParamText ps ts) :
    ∀ {s c : Str}, (∀ b ∈ s.getLast?, isSpace b = false) → Blank c →
      ∃ c' ts' y, Blank c' ∧ List.Forall₂ ParamText ps ts' ∧ Blank y ∧
        s ++ c ++ (ts.map (0x3b :: ·)).flatten = s ++ c' ++ (ts'.map (0x3b :: ·)).flatten ++ y ∧
        ∀ b ∈ (s ++ c' ++ (ts'.map (0x3b :: ·)).flatten).getLast?, isSpace b = false := by
  induction h with
  | nil =>
    intro s c hs hc
    refine ⟨[], [], c, by simp [Blank], List.Forall₂.nil, hc, by simp, ?_⟩
    simpa using hs
  | cons htext _ ih =>
    intro s c hs hc
    obtain ⟨token, text, before, after⟩ := htext
    rename_i name v t x y
    have hlast : ∀ b ∈ ((s ++ c ++ 0x3b :: x) ++ (name ++ t)).getLast?, isSpace b = false := by
      rw [List.getLast?_append_of_ne_nil _ (by simp [token.1])]
      exact text.last token
    obtain ⟨c', ts', z, hc', hts', hz, heq, hend⟩ := ih hlast after
    refine ⟨c, (x ++ (name ++ t) ++ c') :: ts', z, hc, hts'.cons (.mk token text before hc'), hz,
      ?_, ?_⟩
    · simpa using heq
    · simpa using hend

/-- A trimmed element is still a way to write its extension. -/
theorem ElementText.trim {e : Extension} {t : Str} (h : ElementText e t) :
    ElementText e (trim isSpace t) ∧ trim isSpace t ≠ [] := by
  obtain ⟨token, before, after, params⟩ := h
  rename_i name a c ps ts
  have hname : ∀ b ∈ name.getLast?, isSpace b = false := fun b hb =>
    (isToken_spec (token.2 b (List.mem_of_mem_getLast? hb))).2.1
  obtain ⟨c', ts', y, hc', hts', hy, heq, hend⟩ := params_end params hname after
  have htrim : Text.trim isSpace (a ++ (name ++ c ++ (ts.map (0x3b :: ·)).flatten)) =
      [] ++ (name ++ c' ++ (ts'.map (0x3b :: ·)).flatten) := by
    rw [trim_append_left before, heq, trim_append_right hy, List.nil_append, List.append_assoc]
    rw [List.append_assoc] at hend
    exact trim_token token hend
  rw [htrim]
  exact ⟨.mk token (by simp [Blank]) hc' hts', by simp [token.1]⟩

theorem ElementText.mem {e : Extension} {t : Str} (h : ElementText e t) :
    ∀ b ∈ t, isPlain b = true ∨ b = 0x3b := by
  obtain ⟨token, before, after, params⟩ := h
  rename_i name a c ps ts
  intro b hb
  rw [List.mem_append, List.mem_append, List.mem_append, List.mem_flatten] at hb
  rcases hb with hb | (hb | hb) | ⟨l, hl, hb⟩
  · exact Or.inl (before.plain b hb)
  · exact Or.inl (token_plain token b hb)
  · exact Or.inl (after.plain b hb)
  · obtain ⟨t, ht, rfl⟩ := List.mem_map.mp hl
    rcases List.mem_cons.mp hb with rfl | hb
    · exact Or.inr rfl
    · exact Or.inl (params_plain params t ht b hb)

theorem ElementText.isAscii {e : Extension} {t : Str} (h : ElementText e t) : IsAscii t := by
  intro b hb
  rcases h.mem b hb with hb | rfl
  · exact (isPlain_spec b hb).1
  · decide

/-! ## Reading a list -/

/-- The elements have no commas. -/
theorem Writes.comma {es : List Extension} {ts : List Str} (h : Writes es ts) :
    ∀ t ∈ ts, 0x2c ∉ t := by
  have hplain : ∀ {s : Str}, (∀ b ∈ s, isPlain b = true ∨ b = 0x3b) → 0x2c ∉ s := by
    intro s hs hb
    rcases hs _ hb with h | h
    · exact (isPlain_spec _ h).2.1 rfl
    · cases h
  induction h with
  | nil =>
    intro t ht
    cases ht
  | blank blank _ ih =>
    exact List.forall_mem_cons.mpr ⟨hplain fun b hb => Or.inl (blank.plain b hb), ih⟩
  | element element _ ih => exact List.forall_mem_cons.mpr ⟨hplain element.mem, ih⟩

theorem parseOffers_writes {es : List Extension} {ts : List Str} (h : Writes es ts) :
    parseOffers U ts = .ok es := by
  induction h with
  | nil => rfl
  | blank blank _ ih =>
    have htrim := trim_append_right blank []
    rw [List.nil_append, trim_nil, ← U.trimSpace_ascii _ (isAscii_of_plain blank.plain)] at htrim
    rw [parseOffers, htrim]
    exact ih
  | element element _ ih =>
    rw [parseOffers, U.trimSpace_ascii _ element.isAscii]
    simp only [parseOffer_element U element.trim.1, ih]
    rw [if_neg element.trim.2]

theorem parseExtensions_intercalate {es : List Extension} {ts : List Str} (h : Writes es ts) :
    parseExtensions U (List.intercalate [0x2c] ts) = .ok es := by
  cases h with
  | nil => exact parseExtensions_nil U
  | blank blank rest =>
    have hts := Writes.blank blank rest
    rw [parseExtensions, split, List.splitOn_intercalate _ hts.comma (by simp)]
    exact parseOffers_writes U hts
  | element element rest =>
    have hts := Writes.element element rest
    rw [parseExtensions, split, List.splitOn_intercalate _ hts.comma (by simp)]
    exact parseOffers_writes U hts

/-! ## Lists that are refused -/

/-- The name in front of an element. -/
def elementName (t : Str) : Str :=
  U.trimSpace ((split 0x3b (U.trimSpace t)).headD [])

/-- The names of the parameters of an element. -/
def elementParams (t : Str) : List Str :=
  (split 0x3b (U.trimSpace t)).tail.map fun p => U.trimSpace (cut 0x3d (U.trimSpace p)).1

theorem parseParams_error : ∀ {ps : List Str} {err : Err}, parseParams U ps = .error err →
    err = .badExtension ∧ [] ∈ ps.map fun p => U.trimSpace (cut 0x3d (U.trimSpace p)).1
  | p :: ps, err, h => by
    rw [parseParams] at h
    dsimp only at h
    split_ifs at h with hname
    · cases h
      exact ⟨rfl, List.mem_cons.mpr (Or.inl hname.symm)⟩
    · cases hps : parseParams U ps with
      | error err' =>
        rw [hps] at h
        cases h
        exact ⟨(parseParams_error hps).1, List.mem_cons_of_mem _ (parseParams_error hps).2⟩
      | ok kvs =>
        rw [hps] at h
        cases h

theorem parseOffer_error {t : Str} {err : Err} (h : parseOffer U (U.trimSpace t) = .error err) :
    err = .badExtension ∧ (elementName U t = [] ∨ [] ∈ elementParams U t) := by
  rw [elementName, elementParams]
  rw [parseOffer] at h
  cases hs : split 0x3b (U.trimSpace t) with
  | nil => exact absurd hs (List.splitOn_ne_nil _ _)
  | cons first ps =>
    rw [hs] at h
    dsimp only at h
    split_ifs at h with hname
    · cases h
      exact ⟨rfl, Or.inl hname⟩
    · cases hps : parseParams U ps with
      | error err' =>
        rw [hps] at h
        cases h
        exact ⟨(parseParams_error U hps).1, Or.inr (parseParams_error U hps).2⟩
      | ok kvs =>
        rw [hps] at h
        cases h

theorem parseOffers_error : ∀ {ts : List Str} {err : Err}, parseOffers U ts = .error err →
    err = .badExtension ∧
      ∃ t ∈ ts, U.trimSpace t ≠ [] ∧ (elementName U t = [] ∨ [] ∈ elementParams U t)
  | t :: ts, err, h => by
    rw [parseOffers] at h
    have hlater : parseOffers U ts = .error err → err = .badExtension ∧ ∃ t' ∈ t :: ts,
        U.trimSpace t' ≠ [] ∧ (elementName U t' = [] ∨ [] ∈ elementParams U t') := by
      intro h
      obtain ⟨herr, t', ht', hbad⟩ := parseOffers_error h
      exact ⟨herr, t', List.mem_cons_of_mem _ ht', hbad⟩
    split_ifs at h with hempty
    · exact hlater h
    · cases ho : parseOffer U (U.trimSpace t) with
      | error err' =>
        rw [ho] at h
        cases h
        exact ⟨(parseOffer_error U ho).1, t, List.mem_cons_self, hempty, (parseOffer_error U ho).2⟩
      | ok e =>
        rw [ho] at h
        cases hos : parseOffers U ts with
        | error err' =>
          rw [hos] at h
          cases h
          exact hlater hos
        | ok es =>
          rw [hos] at h
          cases h

/-- Every way to write a list of extensions is read as that list. A header is refused only for
an element that is not empty and lacks its name or the name of a parameter. -/
theorem parseExtensions_writes :
    (∀ es ts, Writes es ts → parseExtensions U (List.intercalate [0x2c] ts) = .ok es) ∧
      ∀ header err, parseExtensions U header = .error err → err = .badExtension ∧
        ∃ t ∈ split 0x2c header,
          U.trimSpace t ≠ [] ∧ (elementName U t = [] ∨ [] ∈ elementParams U t) :=
  ⟨fun _ _ h => parseExtensions_intercalate U h, fun _ _ h => parseOffers_error U h⟩

/-- White space, an empty element and a quoted value. -/
theorem parseExtensions_writes_quoted :
    parseExtensions asciiOnly (ascii " x ; a = \"1\" , ,y") =
        .ok [⟨ascii "x", [⟨ascii "a", ascii "1"⟩]⟩, ⟨ascii "y", []⟩] ∧
      ∃ t ∈ split 0x2c (ascii "x, ;a"), asciiOnly.trimSpace t ≠ [] ∧
        (elementName asciiOnly t = [] ∨ [] ∈ elementParams asciiOnly t) := by
  have hblank : Blank [0x20] := by decide
  have hnil : Blank [] := by decide
  have hparam : ParamText ⟨ascii "a", ascii "1"⟩ (ascii " a = \"1\" ") :=
    .mk (a := [0x20]) (c := [0x20]) (by decide)
      (.quoted (a := [0x20]) (c := [0x20]) (by decide) hblank hblank) hblank hblank
  have hx := @ElementText.mk (ascii "x") [0x20] [0x20] _ _ (by decide) hblank hblank
    (.cons hparam .nil)
  have hy := @ElementText.mk (ascii "y") [] [] _ _ (by decide) hnil hnil .nil
  exact ⟨(parseExtensions_writes asciiOnly).1 _ _ (.element hx (.blank hblank (.element hy .nil))),
    ((parseExtensions_writes asciiOnly).2 _ .badExtension (by decide +kernel)).2⟩

/-! ## Subprotocols -/

/-- The values of a comma-separated header. -/
def offeredProtocols (requested : Str) : List Str :=
  (split 0x2c requested).map U.trimSpace

/-- `s` is the first entry that was offered. -/
def Earliest (requested : Str) (supported : List Str) (s : Str) : Prop :=
  s ∈ offeredProtocols U requested ∧ ∃ before after, supported = before ++ s :: after ∧
    ∀ t ∈ before, t ∉ offeredProtocols U requested

/-- Of the entries that are offered up to case, the first is offered as it is. -/
def CaseKept (requested : Str) (supported : List Str) : Prop :=
  ∀ before s after, supported = before ++ s :: after → s ≠ [] →
    (∀ t ∈ before, ∀ o ∈ offeredProtocols U requested, U.equalFold o t = false) →
    (∃ o ∈ offeredProtocols U requested, U.equalFold o s = true) →
    s ∈ offeredProtocols U requested

theorem hasToken_iff (requested s : Str) :
    hasToken U requested s = true ↔ ∃ o ∈ offeredProtocols U requested, U.equalFold o s = true := by
  rw [hasToken, List.any_eq_true, offeredProtocols]
  constructor
  · rintro ⟨t, ht, h⟩
    exact ⟨_, List.mem_map_of_mem ht, h⟩
  · rintro ⟨o, ho, h⟩
    obtain ⟨t, ht, rfl⟩ := List.mem_map.mp ho
    exact ⟨t, ht, h⟩

theorem hasToken_eq_false_iff (requested s : Str) :
    hasToken U requested s = false ↔
      ∀ o ∈ offeredProtocols U requested, U.equalFold o s = false := by
  rw [← Bool.not_eq_true, hasToken_iff]
  simp

/-- The selected entry is the first that is offered up to case. -/
theorem selectProtocol_spec (requested : Str) : ∀ supported : List Str,
    selectProtocol U requested supported ≠ [] → ∃ before after,
      supported = before ++ selectProtocol U requested supported :: after ∧
      (∀ t ∈ before, hasToken U requested t = false) ∧
      hasToken U requested (selectProtocol U requested supported) = true
  | [], h => absurd rfl h
  | s :: supported, h => by
    rw [selectProtocol] at h ⊢
    split_ifs at h ⊢ with hs
    · exact ⟨[], supported, rfl, by simp, hs⟩
    · obtain ⟨before, after, heq, hbefore, hfound⟩ := selectProtocol_spec requested supported h
      refine ⟨s :: before, after, ?_, ?_, hfound⟩
      · rw [List.cons_append, ← heq]
      · exact List.forall_mem_cons.mpr ⟨Bool.not_eq_true _ ▸ hs, hbefore⟩

theorem selectProtocol_append {requested s : Str} {before : List Str} (after : List Str)
    (hbefore : ∀ t ∈ before, hasToken U requested t = false) (hs : hasToken U requested s = true) :
    selectProtocol U requested (before ++ s :: after) = s := by
  induction before with
  | nil => rw [List.nil_append, selectProtocol, if_pos hs]
  | cons t before ih =>
    rw [List.forall_mem_cons] at hbefore
    rw [List.cons_append, selectProtocol, hbefore.1, if_neg Bool.false_ne_true, ih hbefore.2]

section EqualFold

-- `strings.EqualFold` is reflexive.
variable (hrefl : ∀ s, U.equalFold s s = true)
include hrefl

theorem not_offered {requested t : Str} (h : hasToken U requested t = false) :
    t ∉ offeredProtocols U requested := by
  intro ht
  have hfold := (hasToken_eq_false_iff U requested t).mp h t ht
  rw [hrefl t] at hfold
  cases hfold

/-- What is selected was offered as it is, exactly when the case is kept. -/
theorem selectProtocol_earliest_iff (requested : Str) (supported : List Str) :
    (selectProtocol U requested supported ≠ [] →
      Earliest U requested supported (selectProtocol U requested supported)) ↔
      CaseKept U requested supported := by
  constructor
  · rintro h before s after rfl hs hbefore hfold
    have hsel : selectProtocol U requested (before ++ s :: after) = s :=
      selectProtocol_append U after
        (fun t ht => (hasToken_eq_false_iff U requested t).mpr (hbefore t ht))
        ((hasToken_iff U requested s).mpr hfold)
    rw [hsel] at h
    exact (h hs).1
  · intro h hne
    obtain ⟨before, after, heq, hbefore, hfound⟩ := selectProtocol_spec U requested supported hne
    refine ⟨h before _ after heq hne ?_ ((hasToken_iff U _ _).mp hfound), before, after, heq, ?_⟩
    · exact fun t ht => (hasToken_eq_false_iff U requested t).mp (hbefore t ht)
    · exact fun t ht => not_offered U hrefl (hbefore t ht)

end EqualFold

theorem confirm_protocol {req : Request} {resp : Response} {opts : Options} {res : Result}
    (h : confirm U D req resp opts = .ok res) : res.protocol = resp.protocol ∧
      (resp.protocol ≠ [] → hasToken U req.protocols resp.protocol = true) := by
  unfold confirm at h
  split_ifs at h with hstatus htoken haccept hproto
  cases he : confirmExtensions U resp opts with
  | error e =>
    rw [he] at h
    cases h
  | ok comp =>
    rw [he] at h
    cases h
    exact ⟨rfl, fun hne => by simpa [hne] using hproto⟩

/-- The agreed subprotocol is one of the values the client sent, byte for byte, exactly when the
case is kept : on the server among the entries it supports, on the client in the entry of the
response. -/
theorem protocol_offered_iff (hrefl : ∀ s, U.equalFold s s = true) :
    (∀ req opts resp res, negotiate U D req opts = .ok (resp, res) →
      ((resp.protocol ≠ [] → Earliest U req.protocols opts.protocols resp.protocol) ↔
        CaseKept U req.protocols opts.protocols)) ∧
      ∀ req resp opts res, confirm U D req resp opts = .ok res →
        ((res.protocol ≠ [] → res.protocol ∈ offeredProtocols U req.protocols) ↔
          CaseKept U req.protocols [resp.protocol]) := by
  refine ⟨?_, ?_⟩
  · intro req opts resp res h
    rw [(negotiate_ok U D h).2]
    exact selectProtocol_earliest_iff U hrefl _ _
  · intro req resp opts res h
    obtain ⟨heq, hfound⟩ := confirm_protocol U D h
    rw [heq]
    constructor
    · rintro hoff before s after hsplit hs - -
      obtain ⟨rfl, rfl, rfl⟩ : before = [] ∧ resp.protocol = s ∧ after = [] := by
        cases before with
        | nil => simpa using hsplit
        | cons t before => simp at hsplit
      exact hoff hs
    · intro hkept hne
      exact hkept [] _ [] rfl hne (by simp) ((hasToken_iff U _ _).mp (hfound hne))

/-- A request for the subprotocol `chat`. -/
def chatRequest : Request where
  method := ascii "GET"
  upgrade := ascii "websocket"
  connection := ascii "Upgrade"
  version := version
  key := ascii "dGhlIHNhbXBsZSBub25jZQ=="
  protocols := ascii "superchat, chat"

/-- The answer of a server that names `protocol`. -/
def chatResponse (protocol : Str) : Response where
  status := 101
  upgrade := ascii "websocket"
  connection := ascii "Upgrade"
  accept := accept standard chatRequest.key
  protocol := protocol

theorem asciiOnly_refl (s : Str) : asciiOnly.equalFold s s = true :=
  beq_self_eq_true (s.map lower)

theorem negotiate_chat (protocol : Str)
    (h : hasToken asciiOnly chatRequest.protocols protocol = true) :
    negotiate asciiOnly standard chatRequest { protocols := [protocol] } =
      .ok (chatResponse protocol, { protocol := protocol }) := by
  have hsel : selectProtocol asciiOnly chatRequest.protocols [protocol] = protocol := by
    rw [selectProtocol, h, if_pos rfl]
  unfold negotiate
  dsimp only
  rw [hsel]
  rfl

/-- A server whose entry is written as it was offered. -/
theorem protocol_offered_same :
    ((chatResponse (ascii "chat")).protocol ≠ [] → Earliest asciiOnly chatRequest.protocols
        [ascii "chat"] (chatResponse (ascii "chat")).protocol) ∧
      ((ascii "chat") ≠ [] → ascii "chat" ∈ offeredProtocols asciiOnly chatRequest.protocols) := by
  have hoff : ascii "chat" ∈ offeredProtocols asciiOnly chatRequest.protocols := by decide +kernel
  have hkept : CaseKept asciiOnly chatRequest.protocols [ascii "chat"] := by
    intro before s after heq _ _ _
    have hs : s ∈ [ascii "chat"] := by simp [heq]
    rw [List.mem_singleton.mp hs]
    exact hoff
  have hboth := protocol_offered_iff asciiOnly standard asciiOnly_refl
  refine ⟨(hboth.1 chatRequest { protocols := [ascii "chat"] } _ _
      (negotiate_chat (ascii "chat") (by decide +kernel))).mpr hkept,
    (hboth.2 chatRequest (chatResponse (ascii "chat")) {} { protocol := ascii "chat" }
      (by decide +kernel)).mpr hkept⟩

/-- A server that supports `Chat` answers a request for `chat` with its own spelling, and the
client of this package accepts it. -/
theorem protocol_other_case :
    negotiate asciiOnly standard chatRequest { protocols := [ascii "Chat"] } =
        .ok (chatResponse (ascii "Chat"), { protocol := ascii "Chat" }) ∧
      confirm asciiOnly standard chatRequest (chatResponse (ascii "Chat")) {} =
        .ok { protocol := ascii "Chat" } ∧
      ascii "Chat" ∉ offeredProtocols asciiOnly chatRequest.protocols :=
  ⟨negotiate_chat (ascii "Chat") (by decide +kernel), by decide +kernel, by decide +kernel⟩

end Handshake

end Ews
