import Ews.Serve

/-!
# Well-formed request heads

A `Head` is the head of a request as a client sends it : the request line, header fields of any
length, and the blank line, each line with either end. `Head.request` is what it says : names in
canonical form, and the values of each name joined in their order.

`readRequest` returns that request where the head is within the limit, unless one of its lines is
longer than the buffer of the reader it reads through : such a line is refused with the error of
a head above the limit (`readRequest_iff`).
-/

set_option linter.unusedSectionVars false

namespace Ews

namespace Serve

open Text

/-! ## Canonical names -/

def upper (b : UInt8) : UInt8 :=
  if 0x61 ≤ b ∧ b ≤ 0x7a then b - 0x20 else b

/-- A word with its first letter in upper case and the others in lower case. -/
def capitalize : Str → Str
  | [] => []
  | c :: s => upper c :: s.map lower

/-- The canonical form of a name, word by word. -/
def canonical (name : Str) : Str :=
  [0x2d].intercalate ((split 0x2d name).map capitalize)

theorem canonicalFrom_dash (up : Bool) (rest : Str) :
    canonicalFrom up (0x2d :: rest) = 0x2d :: canonicalFrom true rest := by
  cases up <;> rfl

/-- The letters of a word behind the first. -/
theorem canonicalFrom_word : ∀ (word rest : Str), 0x2d ∉ word →
    canonicalFrom false (word ++ rest) = word.map lower ++ canonicalFrom false rest
  | [], _, _ => rfl
  | c :: word, rest, h => by
    have hc : c ≠ 0x2d := by
      rintro rfl
      exact h List.mem_cons_self
    have hlower : c - 0x41 + 0x61 = c + 0x20 := by grind
    rw [List.cons_append, canonicalFrom, beq_false_of_ne hc,
      canonicalFrom_word word rest fun hm => h (List.mem_cons_of_mem _ hm)]
    simp [lower, hlower]

/-- A word, and what is behind it : nothing or a dash. -/
theorem canonicalFrom_capitalize {word rest : Str} (h : 0x2d ∉ word)
    (hrest : rest = [] ∨ ∃ r, rest = 0x2d :: r) :
    canonicalFrom true (word ++ rest) = capitalize word ++ canonicalFrom true rest := by
  have hflag : canonicalFrom false rest = canonicalFrom true rest := by
    rcases hrest with rfl | ⟨r, rfl⟩
    · rfl
    · rw [canonicalFrom_dash, canonicalFrom_dash]
  cases word with
  | nil => rfl
  | cons c word =>
    have hc : c ≠ 0x2d := by
      rintro rfl
      exact h List.mem_cons_self
    have hupper : c - 0x61 + 0x41 = c - 0x20 := by grind
    rw [List.cons_append, canonicalFrom, beq_false_of_ne hc,
      canonicalFrom_word word rest fun hm => h (List.mem_cons_of_mem _ hm), hflag]
    simp [capitalize, upper, hupper]

/-- The words of a name, one after the other. -/
theorem canonicalFrom_words : ∀ (word : Str) (words : List Str),
    (∀ w ∈ word :: words, 0x2d ∉ w) →
    canonicalFrom true ([0x2d].intercalate (word :: words)) =
      [0x2d].intercalate ((word :: words).map capitalize)
  | word, [], h => by
    have hword := canonicalFrom_capitalize (h word List.mem_cons_self) (Or.inl rfl)
    simpa [canonicalFrom] using hword
  | word, w :: words, h => by
    have hrest := canonicalFrom_words w words fun v hv => h v (List.mem_cons_of_mem _ hv)
    rw [List.intercalate_cons_cons, List.append_assoc, List.singleton_append,
      canonicalFrom_capitalize (h word List.mem_cons_self) (Or.inr ⟨_, rfl⟩), canonicalFrom_dash,
      hrest]
    simp [List.intercalate_cons_cons]

/-- `canonicalHeader` is the canonical form. -/
theorem canonicalHeader_eq (name : Str) : canonicalHeader name = canonical name := by
  have hpieces := notMem_split 0x2d name
  have hname : [0x2d].intercalate (split 0x2d name) = name := List.intercalate_splitOn _
  rw [canonical]
  cases hsplit : split 0x2d name with
  | nil => exact absurd hsplit (List.splitOn_ne_nil _ _)
  | cons word words =>
    rw [hsplit] at hpieces hname
    rw [← canonicalFrom_words word words hpieces, hname, canonicalHeader]

/-! ## Heads -/

/-- The end of a line, either of the two. -/
def lineEnd (cr : Bool) : Str :=
  if cr then [0x0d, 0x0a] else [0x0a]

/-- A byte of the text of a line. -/
def isTextByte (b : UInt8) : Bool :=
  !isLineEnd b

/-- A byte of a method or a path. -/
def isPathByte (b : UInt8) : Bool :=
  !isLineEnd b && b != 0x20

/-- A byte of a name. -/
def isNameByte (b : UInt8) : Bool :=
  !isLineEnd b && b != 0x20 && b != 0x09 && b != 0x3a

/-- A header field : its name, the text behind the colon, and the end of its line. -/
structure Field where
  name : Str
  text : Str
  cr : Bool
  named : name ≠ []
  name_bytes : name.all isNameByte = true
  text_bytes : text.all isTextByte = true

namespace Field

/-- The field without the end of its line. -/
def body (f : Field) : Str :=
  f.name ++ 0x3a :: f.text

def line (f : Field) : Str :=
  f.body ++ lineEnd f.cr

end Field

/-- The values of a canonical name, in the order of their fields. -/
def valuesOf (U : Unicode) (fs : List Field) (name : Str) : List Str :=
  (fs.filter fun f => canonical f.name = name).map fun f => U.trimSpace f.text

/-- The head of a request. -/
structure Head where
  method : Str
  path : Str
  cr : Bool
  fields : List Field
  last : Bool
  method_ne : method ≠ []
  path_ne : path ≠ []
  method_bytes : method.all isPathByte = true
  path_bytes : path.all isPathByte = true

namespace Head

/-- The request line without its end. -/
def body (h : Head) : Str :=
  h.method ++ 0x20 :: (h.path ++ 0x20 :: ascii "HTTP/1.1")

/-- The lines, the blank one included. -/
def lines (h : Head) : List Str :=
  (h.body ++ lineEnd h.cr) :: (h.fields.map Field.line ++ [lineEnd h.last])

def bytes (h : Head) : Str :=
  h.lines.flatten

variable (U : Unicode)

/-- What the head says. -/
def request (h : Head) : Request where
  method := h.method
  path := h.path
  host := (valuesOf U h.fields (ascii "Host")).getLast?.getD []
  header name :=
    if name = ascii "Host" ∨ valuesOf U h.fields name = [] then none
    else some ((ascii ", ").intercalate (valuesOf U h.fields name))

end Head

/-! ## The lines of a head are read as it says -/

theorem isLineEnd_lineEnd (cr : Bool) : ∀ b ∈ lineEnd cr, isLineEnd b = true :=
  List.all_eq_true.mp (by cases cr <;> rfl)

theorem isTextByte_iff {b : UInt8} : isTextByte b = true ↔ isLineEnd b = false := by
  simp [isTextByte]

theorem isPathByte_iff {b : UInt8} : isPathByte b = true ↔ isLineEnd b = false ∧ b ≠ 0x20 := by
  simp [isPathByte]

theorem isNameByte_iff {b : UInt8} : isNameByte b = true ↔
    isLineEnd b = false ∧ b ≠ 0x20 ∧ b ≠ 0x09 ∧ b ≠ 0x3a := by
  simp [isNameByte, and_assoc]

/-- A line is its body, once its end is trimmed. -/
theorem rdropWhile_line {body : Str} (h : ∀ b ∈ body, isLineEnd b = false) (cr : Bool) :
    (body ++ lineEnd cr).rdropWhile isLineEnd = body := by
  rw [rdropWhile_append (isLineEnd_lineEnd cr), List.rdropWhile_eq_self_iff]
  intro hne
  rw [h _ (List.getLast_mem hne)]
  decide

theorem isLine_line {body : Str} (h : ∀ b ∈ body, isLineEnd b = false) (cr : Bool) :
    IsLine (body ++ lineEnd cr) := by
  have hbody : 0x0a ∉ body := fun hm => absurd (h _ hm) (by decide)
  cases cr with
  | false => exact ⟨body, rfl, hbody⟩
  | true =>
    refine ⟨body ++ [0x0d], by simp [lineEnd], ?_⟩
    simpa using hbody

namespace Field

theorem name_mem (f : Field) {b : UInt8} (hb : b ∈ f.name) :
    isLineEnd b = false ∧ b ≠ 0x20 ∧ b ≠ 0x09 ∧ b ≠ 0x3a :=
  isNameByte_iff.mp (List.all_eq_true.mp f.name_bytes b hb)

theorem body_bytes (f : Field) : ∀ b ∈ f.body, isLineEnd b = false := by
  intro b hb
  rcases List.mem_append.mp hb with hb | hb
  · exact (f.name_mem hb).1
  · rcases List.mem_cons.mp hb with rfl | hb
    · rfl
    · exact isTextByte_iff.mp (List.all_eq_true.mp f.text_bytes b hb)

end Field

namespace Head

theorem method_mem (h : Head) {b : UInt8} (hb : b ∈ h.method) : isLineEnd b = false ∧ b ≠ 0x20 :=
  isPathByte_iff.mp (List.all_eq_true.mp h.method_bytes b hb)

theorem path_mem (h : Head) {b : UInt8} (hb : b ∈ h.path) : isLineEnd b = false ∧ b ≠ 0x20 :=
  isPathByte_iff.mp (List.all_eq_true.mp h.path_bytes b hb)

theorem body_bytes (h : Head) : ∀ b ∈ h.body, isLineEnd b = false := by
  have hversion : (ascii "HTTP/1.1").all isTextByte = true := by decide
  intro b hb
  rcases List.mem_append.mp hb with hb | hb
  · exact (h.method_mem hb).1
  · rcases List.mem_cons.mp hb with rfl | hb
    · rfl
    · rcases List.mem_append.mp hb with hb | hb
      · exact (h.path_mem hb).1
      · rcases List.mem_cons.mp hb with rfl | hb
        · rfl
        · exact isTextByte_iff.mp (List.all_eq_true.mp hversion b hb)

end Head

theorem requestLine_body (h : Head) :
    requestLine h.body = .ok { method := h.method, path := h.path } := by
  have hmethod : 0x20 ∉ h.method := fun hm => (h.method_mem hm).2 rfl
  have hpath : 0x20 ∉ h.path := fun hm => (h.path_mem hm).2 rfl
  rw [requestLine, Head.body, cut_append hmethod]
  simp only [cut_append hpath]
  rw [if_neg]
  simp [h.method_ne, h.path_ne]

section

variable (U : Unicode)

theorem headerLine_body (req : Request) (f : Field) :
    headerLine U req f.body = .ok (req.add (canonical f.name) (U.trimSpace f.text)) := by
  have hcolon : 0x3a ∉ f.name := fun hm => (f.name_mem hm).2.2.2 rfl
  have hspace : 0x20 ∉ f.name := fun hm => (f.name_mem hm).2.1 rfl
  have htab : 0x09 ∉ f.name := fun hm => (f.name_mem hm).2.2.1 rfl
  rw [headerLine, Field.body, cut_append hcolon]
  simp only [canonicalHeader_eq]
  rw [if_neg]
  simp [f.named, hspace, htab]

theorem parseFields_fields : ∀ (fs : List Field) (req : Request),
    parseFields U req (fs.map Field.line) =
      .ok (fs.foldl (fun r f => r.add (canonical f.name) (U.trimSpace f.text)) req)
  | [], _ => rfl
  | f :: fs, req => by
    rw [List.map_cons, parseFields, Field.line, rdropWhile_line f.body_bytes, headerLine_body]
    exact parseFields_fields fs _

/-- Values that come to what a header has already. -/
def joined : Option Str → List Str → Option Str
  | acc, [] => acc
  | none, v :: vs => joined (some v) vs
  | some p, v :: vs => joined (some (p ++ ascii ", " ++ v)) vs

theorem joined_some : ∀ (vs : List Str) (p : Str),
    joined (some p) vs = some ((ascii ", ").intercalate (p :: vs))
  | [], p => by simp [joined]
  | v :: vs, p => by
    rw [joined, joined_some vs]
    cases vs <;> simp [List.intercalate_cons_cons]

theorem joined_none (vs : List Str) :
    joined none vs = if vs = [] then none else some ((ascii ", ").intercalate vs) := by
  cases vs with
  | nil => rfl
  | cons v vs => rw [joined, joined_some, if_neg (List.cons_ne_nil _ _)]

theorem joined_cons (acc : Option Str) (v : Str) (vs : List Str) :
    joined acc (v :: vs) = joined (joined acc [v]) vs := by
  cases acc <;> rfl

namespace Request

variable (req : Request) (name value : Str)

theorem add_method : (req.add name value).method = req.method := by
  unfold add
  split_ifs
  · rfl
  · split <;> rfl

theorem add_path : (req.add name value).path = req.path := by
  unfold add
  split_ifs
  · rfl
  · split <;> rfl

theorem add_host :
    (req.add name value).host = if name = ascii "Host" then value else req.host := by
  unfold add
  split_ifs
  · rfl
  · split <;> rfl

theorem add_header (n : Str) : (req.add name value).header n =
    if name = n ∧ n ≠ ascii "Host" then joined (req.header n) [value] else req.header n := by
  unfold add
  by_cases hhost : name = ascii "Host"
  · rw [if_pos hhost, if_neg]
    rintro ⟨rfl, hn⟩
    exact hn hhost
  · rw [if_neg hhost]
    by_cases hn : name = n
    · subst hn
      rw [if_pos ⟨rfl, hhost⟩]
      cases hprev : req.header name <;> simp [joined]
    · rw [if_neg fun h => hn h.1]
      cases req.header name <;> simp [Function.update_of_ne (Ne.symm hn)]

end Request

/-- The fields of a head, added to a request. -/
structure Added (fs : List Field) (req req' : Request) : Prop where
  method : req'.method = req.method
  path : req'.path = req.path
  host : req'.host = (valuesOf U fs (ascii "Host")).getLast?.getD req.host
  header : ∀ n, req'.header n =
    if n = ascii "Host" then req.header n else joined (req.header n) (valuesOf U fs n)

theorem added_foldl : ∀ (fs : List Field) (req : Request),
    Added U fs req (fs.foldl (fun r f => r.add (canonical f.name) (U.trimSpace f.text)) req)
  | [], req => ⟨rfl, rfl, rfl, fun n => by simp [valuesOf, joined]⟩
  | f :: fs, req => by
    have ih := added_foldl fs (req.add (canonical f.name) (U.trimSpace f.text))
    refine ⟨ih.method.trans (req.add_method _ _), ih.path.trans (req.add_path _ _), ?_,
      fun n => ?_⟩
    · rw [List.foldl_cons, ih.host, req.add_host]
      by_cases hf : canonical f.name = ascii "Host"
      · simp [valuesOf, hf, List.getLast?_cons]
      · simp [valuesOf, hf]
    · rw [List.foldl_cons, ih.header n, req.add_header]
      by_cases hn : n = ascii "Host"
      · simp [hn]
      · by_cases hf : canonical f.name = n
        · have hvalues : valuesOf U (f :: fs) n = U.trimSpace f.text :: valuesOf U fs n := by
            simp [valuesOf, hf]
          rw [if_neg hn, if_neg hn, if_pos ⟨hf, hn⟩, hvalues]
          exact (joined_cons _ _ _).symm
        · simp [valuesOf, hf, hn]

/-- The fields of a head give its request. -/
theorem foldl_request (h : Head) :
    h.fields.foldl (fun r f => r.add (canonical f.name) (U.trimSpace f.text))
      { method := h.method, path := h.path } = h.request U := by
  have hadded := added_foldl U h.fields { method := h.method, path := h.path }
  refine Request.ext hadded.method hadded.path hadded.host (funext fun n => ?_)
  rw [hadded.header, Head.request]
  by_cases hn : n = ascii "Host"
  · simp [hn]
  · simp [hn, joined_none]

/-- The lines of a head are parsed to what it says. -/
theorem parseHead_head (h : Head) :
    parseHead U (h.body ++ lineEnd h.cr) (h.fields.map Field.line) = .ok (h.request U) := by
  rw [parseHead, rdropWhile_line h.body_bytes, requestLine_body]
  simp only [parseFields_fields, foldl_request]

theorem isLine_fields (h : Head) : ∀ line ∈ h.fields.map Field.line,
    IsLine line ∧ line.rdropWhile isLineEnd ≠ [] := by
  intro line hline
  obtain ⟨f, -, rfl⟩ := List.mem_map.mp hline
  refine ⟨isLine_line f.body_bytes f.cr, ?_⟩
  rw [Field.line, rdropWhile_line f.body_bytes, Field.body]
  simp

theorem isLine_blank (cr : Bool) : IsLine (lineEnd cr) ∧ (lineEnd cr).rdropWhile isLineEnd = [] := by
  have hblank : ∀ b ∈ ([] : Str), isLineEnd b = false := fun b hb => (by cases hb)
  exact ⟨isLine_line hblank cr, rdropWhile_line hblank cr⟩

/-! ## The limit and the buffer -/

/-- A head is read to its end and parsed to what it says if it is within the limit and every line
of it fits the buffer ; otherwise it is too large. -/
theorem readRequest_head (h : Head) (limit : ℤ) {br : Buffered} {rest : Str} (hs : br.Sound)
    (hcontent : br.content = h.bytes ++ rest) :
    LinesRead br limit h.lines rest (.ok (h.request U)) (readRequest U br limit) := by
  have hsplit : br.content = (h.body ++ lineEnd h.cr) ++
      ((h.fields.map Field.line).flatten ++ (lineEnd h.last ++ rest)) := by
    rw [hcontent]
    simp [Head.bytes, Head.lines]
  obtain ⟨hblank, hempty⟩ := isLine_blank h.last
  have hread := readRequest_spec U limit hs (isLine_line h.body_bytes h.cr) (isLine_fields h)
    hblank hempty hsplit
  rw [parseHead_head] at hread
  exact hread

/-- The limit on a head is the configured one exactly if, within it, no line of the head is longer
than the buffer. -/
theorem readRequest_iff (h : Head) (limit size : ℕ) (src : Source) (steady : src.Steady)
    (rest : Str) (input : src.content = h.bytes ++ rest) :
    ((h.bytes.length ≤ limit → ∃ br,
        readRequest U (Bufio.newReaderSize src size) limit = (.ok (h.request U), br)) ∧
      (limit < h.bytes.length → ∃ br,
        readRequest U (Bufio.newReaderSize src size) limit = (.error .tooLarge, br))) ↔
    (h.bytes.length ≤ limit → ∀ line ∈ h.lines, line.length ≤ max size 16) := by
  have hread := readRequest_head U h limit (Bufio.sound_newReaderSize steady size) input
  have hbytes : h.lines.flatten.length = h.bytes.length := rfl
  generalize readRequest U (Bufio.newReaderSize src size) limit = out at hread
  cases hread with
  | ok parsed fits within =>
    cases parsed
    refine ⟨fun _ _ => fits, fun _ => ⟨fun _ => ⟨_, rfl⟩, fun hover => ?_⟩⟩
    omega
  | bad parsed => cases parsed
  | large large =>
    constructor
    · rintro ⟨hok, -⟩ hle
      obtain ⟨br, hbr⟩ := hok hle
      cases hbr
    · intro hfits
      refine ⟨fun hle => ?_, fun _ => ⟨_, rfl⟩⟩
      rcases large with ⟨line, hline, hlen⟩ | hover
      · exact absurd (hfits hle line hline) (Nat.not_le.mpr hlen)
      · omega

end

/-- A request with the given header fields. -/
def getWith (fields : List Field) : Head where
  method := ascii "GET"
  path := ascii "/"
  cr := true
  fields := fields
  last := true
  method_ne := by decide
  path_ne := by decide
  method_bytes := by decide
  path_bytes := by decide

/-- A reader that brings everything at once. -/
def whole (bs : Str) : Source :=
  { pieces := [bs], err := .eof }

theorem steady_whole (bs : Str) : (whole bs).Steady := fun h => by
  have hlen := h.length_le
  simp [whole] at hlen

theorem content_whole (bs : Str) : (whole bs).content = bs := by
  simp [whole, Script.content]

/-- A request for a host. -/
def getHost : Head :=
  getWith [⟨ascii "host", ascii " a", true, by decide, by decide, by decide⟩]

theorem readRequest_iff_getHost : ∃ br,
    readRequest asciiOnly (Bufio.newReaderSize (whole getHost.bytes) 4096) 8192 =
      (.ok (getHost.request asciiOnly), br) := by
  have hinput : (whole getHost.bytes).content = getHost.bytes ++ [] := by
    rw [content_whole, List.append_nil]
  have hlines : getHost.lines.all (fun line => line.length ≤ max 4096 16) = true := by decide
  exact ((readRequest_iff asciiOnly getHost 8192 4096 _ (steady_whole _) [] hinput).mpr
    fun _ line hline => of_decide_eq_true (List.all_eq_true.mp hlines line hline)).1 (by decide)

example : (getHost.request asciiOnly).host = ascii "a" := by decide

/-- A request with a long cookie. -/
def getCookie (n : ℕ) : Head :=
  getWith [⟨ascii "Cookie", List.replicate n 0x61, true, by decide, by decide,
    List.all_eq_true.mpr fun b hb => (List.eq_of_mem_replicate hb).symm ▸ rfl⟩]

theorem length_getCookie (n : ℕ) : (getCookie n).bytes.length = n + 27 := by
  have hmethod : (ascii "GET").length = 3 := by decide
  have hpath : (ascii "/").length = 1 := by decide
  have hversion : (ascii "HTTP/1.1").length = 8 := by decide
  have hname : (ascii "Cookie").length = 6 := by decide
  simp only [getCookie, getWith, Head.bytes, Head.lines, Head.body, Field.line, Field.body,
    List.map_cons, List.map_nil, List.flatten_cons, List.flatten_nil, List.length_append,
    List.length_cons, List.length_nil, List.length_replicate, List.cons_append, List.nil_append,
    lineEnd, if_true, hmethod, hpath, hversion, hname]
  omega

/-- The line of the cookie. -/
theorem long_line_getCookie (n : ℕ) : ∃ line ∈ (getCookie n).lines, n < line.length := by
  refine ⟨_, List.mem_cons_of_mem _ List.mem_cons_self, ?_⟩
  simp only [Field.line, Field.body, List.length_append, List.length_cons, List.length_replicate]
  omega

/-- A head of 5027 bytes, with a limit of 8192 bytes, is too large for the reader of `serve`. -/
theorem readRequest_long_line :
    ((getCookie 5000).bytes.length : ℤ) ≤ ({} : Server).headLimit ∧
      ∃ br, readRequest asciiOnly
        (Bufio.newReaderSize (whole (getCookie 5000).bytes) Server.bufferSize)
        ({} : Server).headLimit = (.error .tooLarge, br) := by
  refine ⟨by rw [length_getCookie]; decide, ?_⟩
  have hinput : (Bufio.newReaderSize (whole (getCookie 5000).bytes) Server.bufferSize).content =
      (getCookie 5000).bytes ++ [] := by
    rw [List.append_nil]
    exact content_whole _
  have hread := readRequest_head asciiOnly (getCookie 5000) ({} : Server).headLimit
    (Bufio.sound_newReaderSize (steady_whole _) _) hinput
  generalize readRequest asciiOnly _ _ = out at hread ⊢
  cases hread with
  | ok parsed fits =>
    obtain ⟨line, hline, hlen⟩ := long_line_getCookie 5000
    have hfits : line.length ≤ 4096 := fits line hline
    omega
  | bad parsed => cases parsed
  | large => exact ⟨_, rfl⟩

end Serve

end Ews
