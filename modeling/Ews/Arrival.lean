import Ews.Storage

/-!
# Input in pieces

A caller drives a decoder with any sequence of `Feed`, `Preserve`, `NextHeader`,
`PayloadN` and `Payload`, and collects the frames : each header and the payload taken
after it. `Decoder.Taken d xs bs` says how the input `bs` was taken apart : the frames
`xs` come first, the last one as far as it was taken, and `d` holds what is left. Each
call keeps it, whatever the pieces (`Reading.taken_run`).

Two decoders that took the same input apart, and can take no more, hold the same
frames and the same rest (`Decoder.Taken.unique`). So the frames and the outcome depend
on the bytes alone.
-/

namespace Ews

open Bytes

/-! ## One header -/

/-- The bytes of `h` are taken as the header `h`, whatever follows them. -/
def Header.Good (h : Header) : Prop :=
  ∀ (rest : List UInt8) (h0 : Header), Decoder.nextHeaderInto ⟨h.raw ++ rest, 0⟩ h0 =
    (.ok true, h, ⟨rest, h.payloadLen⟩)

namespace Decoder

/-- The header step on input that has the bytes of a header. -/
theorem nextHeaderInto_split {b0 b1 : UInt8} {bs : List UInt8}
    (hlen : (b0 :: b1 :: bs).length = headerSize b1) (rest : List UInt8) (h0 : Header) :
    nextHeaderInto ⟨b0 :: b1 :: bs ++ rest, 0⟩ h0 =
      if (b1 &&& 0x7f = 126 ∧ Header.payloadLen ⟨b0 :: b1 :: bs⟩ < 126) ∨
          (b1 &&& 0x7f = 127 ∧ (Header.payloadLen ⟨b0 :: b1 :: bs⟩ < 65536 ∨
            Header.payloadLen ⟨b0 :: b1 :: bs⟩ >>> 63 ≠ 0)) then
        (.error .invalidPayloadLength, {}, ⟨b0 :: b1 :: bs ++ rest, 0⟩)
      else (.ok true, ⟨b0 :: b1 :: bs⟩, ⟨rest, Header.payloadLen ⟨b0 :: b1 :: bs⟩⟩) := by
  have htake : (b0 :: b1 :: (bs ++ rest)).take (headerSize b1) = b0 :: b1 :: bs :=
    List.take_left' hlen
  have hdrop : (b0 :: b1 :: (bs ++ rest)).drop (headerSize b1) = rest := List.drop_left' hlen
  have hge : ¬(b0 :: b1 :: (bs ++ rest)).length < headerSize b1 := by
    rw [← hlen]
    simp only [List.length_cons, List.length_append]
    omega
  unfold nextHeaderInto
  simp only [ne_eq, not_true_eq_false, if_false, List.cons_append]
  rw [if_neg hge, htake, hdrop]

/-- A header that was taken : its bytes were in front, and they say how much follows. -/
theorem nextHeaderInto_ok {d d' : Decoder} {h0 h : Header}
    (ho : d.nextHeaderInto h0 = (.ok true, h, d')) :
    d.remaining = 0 ∧ d.pending = h.raw ++ d'.pending ∧ d'.remaining = h.payloadLen ∧
      h.Good := by
  have hr : d.remaining = 0 := by
    by_contra hr
    rw [nextHeaderInto, if_pos hr] at ho
    cases congrArg Prod.fst ho
  obtain ⟨pending, remaining⟩ := d
  dsimp only at hr ⊢
  subst hr
  rcases pending with _ | ⟨b0, _ | ⟨b1, bs⟩⟩
  · cases congrArg Prod.fst ho
  · cases congrArg Prod.fst ho
  · rcases Nat.lt_or_ge (b0 :: b1 :: bs).length (headerSize b1) with hlt | hge
    · rw [nextHeaderInto, if_neg (by simp)] at ho
      dsimp only at ho
      rw [if_pos hlt] at ho
      cases congrArg Prod.fst ho
    · have hsize : headerSize b1 = headerSize b1 - 2 + 1 + 1 := by
        rw [headerSize_eq]
        omega
      have hcut : bs = bs.take (headerSize b1 - 2) ++ bs.drop (headerSize b1 - 2) :=
        (List.take_append_drop _ _).symm
      have hlen : (b0 :: b1 :: bs.take (headerSize b1 - 2)).length = headerSize b1 := by
        simp only [List.length_cons, List.length_take] at hge ⊢
        omega
      have hin : b0 :: b1 :: bs =
          b0 :: b1 :: bs.take (headerSize b1 - 2) ++ bs.drop (headerSize b1 - 2) := by
        rw [List.cons_append, List.cons_append, ← hcut]
      rw [hin, nextHeaderInto_split hlen] at ho
      split_ifs at ho with hbad
      · cases congrArg Prod.fst ho
      · cases ho
        refine ⟨rfl, hin, rfl, ?_⟩
        intro rest h1
        rw [nextHeaderInto_split hlen, if_neg hbad]

/-- A header that was not taken leaves the decoder as it was. -/
theorem nextHeaderInto_not_ok {d : Decoder} {h0 : Header}
    (ho : (d.nextHeaderInto h0).1 ≠ .ok true) : (d.nextHeaderInto h0).2.2 = d := by
  unfold nextHeaderInto at ho ⊢
  split_ifs at ho ⊢ with hr
  · rfl
  · obtain ⟨pending, remaining⟩ := d
    dsimp only at ho ⊢
    rcases pending with _ | ⟨b0, _ | ⟨b1, bs⟩⟩
    · rfl
    · rfl
    · dsimp only at ho ⊢
      split_ifs at ho ⊢
      · rfl
      · rfl
      · exact absurd rfl ho

/-- An announced length is below `2 ^ 63`. -/
theorem remaining_lt {d d' : Decoder} {h0 h : Header}
    (ho : d.nextHeaderInto h0 = (.ok true, h, d')) : d'.remaining < 2 ^ 63 := by
  obtain ⟨hmore, hinvalid, hhead⟩ := nextHeaderInto_eq d h0 (nextHeaderInto_ok ho).1
  cases hp : parseHead d.pending with
  | more => cases congrArg Prod.fst (ho.symm.trans (hmore hp))
  | invalid => cases congrArg Prod.fst (ho.symm.trans (hinvalid hp))
  | head fh rest =>
    obtain ⟨h', he, -⟩ := hhead fh rest hp
    obtain ⟨b0, b1, bs, -, -, hok, rfl, -⟩ := parseHead_eq_head hp
    have hd : d' = ⟨rest, (headOf b0 b1 bs).length⟩ :=
      congrArg (fun x => x.2.2) (ho.symm.trans he)
    rw [hd]
    exact hok.2

/-- What `PayloadN` takes was in front, and counts against what is left of the frame. -/
theorem payloadN_took (d : Decoder) (n : ℤ) :
    d.pending = (d.payloadN n).1 ++ (d.payloadN n).2.2.pending ∧
      d.remaining = (d.payloadN n).1.length + (d.payloadN n).2.2.remaining := by
  rw [payloadN_eq]
  refine ⟨(List.take_append_drop _ _).symm, ?_⟩
  dsimp only
  rw [List.length_take]
  omega

/-! ## Input taken apart -/

/-- Neither call takes anything more. -/
def Dry (d : Decoder) : Prop :=
  (d.nextHeaderInto {}).1 ≠ .ok true ∧ d.payload.1 = []

/-- A frame that waits for payload has taken all the input. -/
theorem Dry.pending_nil {d : Decoder} (h : d.Dry) (hr : d.remaining ≠ 0) : d.pending = [] := by
  have hp := congrArg List.length h.2
  rw [payload, payloadN_eq] at hp
  simp only [List.length_take, List.length_nil] at hp
  exact List.eq_nil_of_length_eq_zero (by omega)

end Decoder

/-- A frame as far as it was taken. -/
structure Decoded where
  header : Header
  payload : List UInt8
  deriving DecidableEq, Repr

/-- More payload for the last frame. -/
def Decoded.extend (p : List UInt8) : List Decoded → List Decoded
  | [] => []
  | [x] => [{ x with payload := x.payload ++ p }]
  | x :: y :: xs => x :: extend p (y :: xs)

/-- The input `bs` was taken apart into the frames `xs`, which left `d`. -/
inductive Decoder.Taken (d : Decoder) : List Decoded → List UInt8 → Prop
  | rest (hr : d.remaining = 0) : Taken d [] d.pending
  | inside {h : Header} {p : List UInt8} (hg : h.Good) (hr : d.remaining ≠ 0)
      (hlen : p.length + d.remaining = h.payloadLen) :
      Taken d [⟨h, p⟩] (h.raw ++ (p ++ d.pending))
  | frame {h : Header} {p : List UInt8} {xs : List Decoded} {bs : List UInt8} (hg : h.Good)
      (hlen : p.length = h.payloadLen) (ht : Taken d xs bs) :
      Taken d (⟨h, p⟩ :: xs) (h.raw ++ (p ++ bs))

namespace Header.Good

variable {h h' : Header}

/-- A header is determined by the input it is in front of. -/
theorem inj (hg : h.Good) (hg' : h'.Good) {a b : List UInt8} (he : h.raw ++ a = h'.raw ++ b) :
    h = h' ∧ a = b := by
  have h1 := hg a {}
  rw [he, hg' b {}] at h1
  exact ⟨(congrArg (fun x => x.2.1) h1).symm, (congrArg (fun x => x.2.2.pending) h1).symm⟩

theorem payloadLen_lt (hg : h.Good) : h.payloadLen < 2 ^ 63 :=
  Decoder.remaining_lt (hg [] {})

/-- A decoder with a header in front is not dry. -/
theorem not_dry (hg : h.Good) {d : Decoder} (hr : d.remaining = 0) {a : List UInt8}
    (hd : d.pending = h.raw ++ a) : ¬d.Dry := by
  rintro ⟨hn, -⟩
  obtain ⟨pending, remaining⟩ := d
  dsimp only at hr hd
  rw [hr, hd, hg a {}] at hn
  exact hn rfl

end Header.Good

namespace Decoder.Taken

variable {d e : Decoder} {xs ys : List Decoded} {bs : List UInt8}

theorem ne_nil (ht : d.Taken xs bs) (hr : d.remaining ≠ 0) : xs ≠ [] := by
  cases ht with
  | rest hz => exact absurd hz hr
  | inside => exact List.cons_ne_nil _ _
  | frame => exact List.cons_ne_nil _ _

/-- More input waits behind what is left. -/
theorem feed (ht : d.Taken xs bs) (b : List UInt8) : (d.feed b).Taken xs (bs ++ b) := by
  rw [Decoder.feed_eq]
  induction ht with
  | rest hr => exact .rest hr
  | inside hg hr hlen =>
    rw [List.append_assoc, List.append_assoc]
    exact .inside hg hr hlen
  | frame hg hlen _ ih =>
    rw [List.append_assoc, List.append_assoc]
    exact .frame hg hlen ih

/-- A header that is taken starts a frame. -/
theorem header (ht : d.Taken xs bs) {h0 h : Header} {d' : Decoder}
    (ho : d.nextHeaderInto h0 = (.ok true, h, d')) : d'.Taken (xs ++ [⟨h, []⟩]) bs := by
  obtain ⟨hr, hp, hl, hg⟩ := nextHeaderInto_ok ho
  induction ht with
  | rest _ =>
    rw [hp]
    by_cases hz : d'.remaining = 0
    · exact .frame hg (by rw [← hl, hz]; rfl) (.rest hz)
    · exact .inside hg hz (by rw [hl, List.length_nil, Nat.zero_add])
  | inside _ hn _ => exact absurd hr hn
  | frame hg' hlen _ ih => exact .frame hg' hlen ih

/-- Payload that is taken belongs to the last frame. -/
theorem payload (ht : d.Taken xs bs) (n : ℤ) :
    (d.payloadN n).2.2.Taken (Decoded.extend (d.payloadN n).1 xs) bs := by
  obtain ⟨hp, hl⟩ := payloadN_took d n
  by_cases hr : d.remaining = 0
  · have hnil : (d.payloadN n).1 = [] := List.eq_nil_of_length_eq_zero (by omega)
    have hd : (d.payloadN n).2.2 = d := by
      rw [Decoder.payloadN, if_pos hr]
    have hx : ∀ zs : List Decoded, Decoded.extend [] zs = zs := by
      intro zs
      induction zs with
      | nil => rfl
      | cons z zs ih =>
        cases zs with
        | nil => simp [Decoded.extend]
        | cons w zs => rw [Decoded.extend, ih]
    rw [hnil, hd, hx]
    exact ht
  · generalize d.payloadN n = out at hp hl
    obtain ⟨p, done, d'⟩ := out
    dsimp only at hp hl ⊢
    induction ht with
    | rest hz => exact absurd hz hr
    | inside hg _ hlen =>
      rw [hp, ← List.append_assoc _ p]
      by_cases hz : d'.remaining = 0
      · exact .frame hg (by simp only [List.length_append]; omega) (.rest hz)
      · exact .inside hg hz (by simp only [List.length_append]; omega)
    | @frame h q zs cs hg hlen hzs ih =>
      obtain ⟨z, zs', rfl⟩ := List.exists_cons_of_ne_nil (hzs.ne_nil hr)
      exact .frame hg hlen ih

/-- No frame has more payload than its header announced. -/
theorem payload_le (ht : d.Taken xs bs) :
    ∀ x ∈ xs, x.payload.length ≤ x.header.payloadLen := by
  induction ht with
  | rest => simp
  | inside _ _ hlen =>
    intro x hx
    rw [List.mem_singleton.mp hx]
    dsimp only
    omega
  | frame _ hlen _ ih =>
    intro x hx
    rcases List.mem_cons.mp hx with rfl | hx
    · exact hlen.le
    · exact ih x hx

theorem remaining_lt (ht : d.Taken xs bs) : d.remaining < 2 ^ 63 := by
  induction ht with
  | rest hr => omega
  | inside hg _ hlen =>
    have := hg.payloadLen_lt
    omega
  | frame _ _ _ ih => exact ih

theorem pending_le (ht : d.Taken xs bs) : d.pending.length ≤ bs.length := by
  induction ht with
  | rest => exact le_rfl
  | inside =>
    simp only [List.length_append]
    omega
  | frame _ _ _ ih =>
    simp only [List.length_append]
    omega

/-- The same input taken apart as far as possible gives the same frames and the same
rest. -/
theorem unique (ht : d.Taken xs bs) (hd : d.Dry) (hu : e.Taken ys bs) (he : e.Dry) :
    xs = ys ∧ d = e := by
  generalize hcs : bs = cs at hu
  induction ht generalizing ys cs with
  | rest hr =>
    cases hu with
    | rest hr' =>
      obtain ⟨pd, rd⟩ := d
      obtain ⟨pe, re⟩ := e
      dsimp only at hr hr' hcs
      rw [hr, hr', hcs]
      exact ⟨rfl, rfl⟩
    | inside hg _ _ => exact absurd hd (hg.not_dry hr hcs)
    | frame hg _ _ => exact absurd hd (hg.not_dry hr hcs)
  | @inside h p hg hr hlen =>
    have hnil := hd.pending_nil hr
    cases hu with
    | rest hr' => exact absurd he (hg.not_dry hr' hcs.symm)
    | @inside h' p' hg' hr' hlen' =>
      obtain ⟨rfl, hp⟩ := hg.inj hg' hcs
      have hnil' := he.pending_nil hr'
      rw [hnil, hnil', List.append_nil, List.append_nil] at hp
      subst hp
      refine ⟨rfl, ?_⟩
      obtain ⟨pd, rd⟩ := d
      obtain ⟨pe, re⟩ := e
      dsimp only at hnil hnil' hlen hlen'
      rw [hnil, hnil', show rd = re by omega]
    | @frame h' p' zs cs hg' hlen' _ =>
      -- The other decoder has the whole payload, and this one still waits for some.
      obtain ⟨rfl, hp⟩ := hg.inj hg' hcs
      have hl := congrArg List.length hp
      rw [hnil, List.length_append, List.length_append, List.length_nil] at hl
      omega
  | @frame h p xs bs hg hlen _ ih =>
    cases hu with
    | rest hr' => exact absurd he (hg.not_dry hr' hcs.symm)
    | @inside h' p' hg' hr' hlen' =>
      obtain ⟨rfl, hp⟩ := hg.inj hg' hcs
      have hl := congrArg List.length hp
      rw [he.pending_nil hr', List.length_append, List.length_append, List.length_nil] at hl
      omega
    | @frame h' p' zs cs hg' hlen' hu =>
      obtain ⟨rfl, hp⟩ := hg.inj hg' hcs
      obtain ⟨rfl, hbs⟩ := List.append_inj hp (hlen.trans hlen'.symm)
      obtain ⟨rfl, hde⟩ := ih _ hbs hu
      exact ⟨rfl, hde⟩

end Decoder.Taken

/-! ## Schedules -/

namespace SlicedDecoder

/-- The calls on a decoder. -/
inductive Call
  | feed (b : List UInt8)
  | preserve
  | nextHeader
  | payloadN (n : ℤ)
  | payload
  deriving DecidableEq, Repr

/-- The input of a call. -/
def Call.input : Call → List UInt8
  | feed b => b
  | _ => []

/-- The input of a schedule. -/
def fed (cs : List Call) : List UInt8 :=
  (cs.map Call.input).flatten

/-- A decoder and the frames collected from it. -/
structure Reading where
  dec : SlicedDecoder
  frames : List Decoded := []

namespace Reading

variable (grow : ℕ → ℕ)

/-- Collect what `PayloadN` returns. -/
def collect (s : Reading) (out : List UInt8 × Bool × SlicedDecoder) : Reading where
  dec := out.2.2
  frames := Decoded.extend out.1 s.frames

/-- One call, and what the caller collects from it. -/
def call (s : Reading) : Call → Reading
  | .feed b => { s with dec := s.dec.feed grow b }
  | .preserve => { s with dec := s.dec.preserve grow }
  | .nextHeader =>
    match s.dec.nextHeader with
    | (.ok true, h, d) => ⟨d, s.frames ++ [⟨h, []⟩]⟩
    | (_, _, d) => { s with dec := d }
  | .payloadN n => s.collect (s.dec.payloadN n)
  | .payload => s.collect s.dec.payload

/-- The calls of a schedule. -/
def run (s : Reading) : List Call → Reading
  | [] => s
  | c :: cs => (s.call grow c).run cs

theorem run_append (s : Reading) : ∀ cs ds : List Call,
    s.run grow (cs ++ ds) = (s.run grow cs).run grow ds
  | [], _ => rfl
  | c :: cs, ds => run_append (s.call grow c) cs ds

/-- The input `bs` was taken apart into the frames that were collected. -/
def Took (s : Reading) (bs : List UInt8) : Prop :=
  s.dec.view.Taken s.frames bs

variable {s : Reading} {bs : List UInt8}

theorem Took.nextHeader (ht : s.Took bs) : (s.call grow .nextHeader).Took bs := by
  have hv := nextHeaderInto_view s.dec {}
  unfold call
  dsimp only
  unfold SlicedDecoder.nextHeader
  have hkeep : (s.dec.nextHeaderInto {}).1 ≠ .ok true →
      (s.dec.nextHeaderInto {}).2.2.view = s.dec.view := by
    intro hn
    have hn' : (s.dec.view.nextHeaderInto {}).1 ≠ .ok true := by
      rw [hv]
      exact hn
    have hsame := Decoder.nextHeaderInto_not_ok hn'
    rwa [hv] at hsame
  generalize s.dec.nextHeaderInto {} = out at hv hkeep
  obtain ⟨r, h, d⟩ := out
  have hold : r ≠ .ok true → Took { s with dec := d } bs := by
    intro hn
    show d.view.Taken s.frames bs
    rw [hkeep hn]
    exact ht
  cases r with
  | error e => exact hold (by simp)
  | ok b =>
    cases b with
    | false => exact hold (by simp)
    | true => exact Decoder.Taken.header ht hv

theorem Took.collect (ht : s.Took bs) (hlen : bs.length < 2 ^ 63) (n : ℤ) :
    (s.collect (s.dec.payloadN n)).Took bs := by
  have hsize : s.dec.bytes.length < 2 ^ 63 := ht.pending_le.trans_lt hlen
  have hp := Decoder.Taken.payload ht n
  rw [payloadN_view s.dec n hsize] at hp
  exact hp

/-- A call takes the input apart a bit more, or brings in more of it. -/
theorem Took.call (ht : s.Took bs) (c : Call) (hlen : bs.length < 2 ^ 63) :
    (s.call grow c).Took (bs ++ c.input) := by
  cases c with
  | feed b =>
    show (s.dec.feed grow b).view.Taken s.frames (bs ++ b)
    rw [feed_view]
    exact Decoder.Taken.feed ht b
  | preserve =>
    show (s.dec.preserve grow).view.Taken s.frames (bs ++ [])
    rw [preserve_view, List.append_nil]
    exact ht
  | nextHeader => exact (List.append_nil bs).symm ▸ ht.nextHeader grow
  | payloadN n => exact (List.append_nil bs).symm ▸ ht.collect hlen n
  | payload => exact (List.append_nil bs).symm ▸ ht.collect hlen _

/-- However a schedule cuts its input, it takes it apart. -/
theorem Took.run : ∀ (cs : List Call) {s : Reading} {bs : List UInt8}, s.Took bs →
    (bs ++ fed cs).length < 2 ^ 63 → (s.run grow cs).Took (bs ++ fed cs)
  | [], s, bs, ht, _ => by
    rw [fed, List.map_nil, List.flatten_nil, List.append_nil]
    exact ht
  | c :: cs, s, bs, ht, hlen => by
    have hfed : bs ++ fed (c :: cs) = bs ++ c.input ++ fed cs := by
      rw [List.append_assoc]
      rfl
    rw [hfed] at hlen ⊢
    refine Took.run cs (ht.call grow c ?_) hlen
    simp only [List.length_append] at hlen
    omega

/-- A decoder that was reset has taken nothing. -/
theorem took_reset (d : SlicedDecoder) : Took ⟨d.reset, []⟩ [] :=
  Decoder.Taken.rest rfl

theorem took_run (d : SlicedDecoder) {cs : List Call} (hlen : (fed cs).length < 2 ^ 63) :
    (Reading.run grow ⟨d.reset, []⟩ cs).Took (fed cs) :=
  (took_reset d).run grow cs hlen

end Reading

/-! ## Results -/

/-- Neither `NextHeader` nor `Payload` takes anything more. -/
def Dry (d : SlicedDecoder) : Prop :=
  d.nextHeader.1 ≠ .ok true ∧ d.payload.1 = []

instance (d : SlicedDecoder) : Decidable d.Dry :=
  inferInstanceAs (Decidable (_ ∧ _))

/-- What is left to say once nothing can be taken : `.ok false` waits for input. -/
def outcome (d : SlicedDecoder) : Except Err Bool :=
  if d.remaining ≠ 0 then .ok false else d.nextHeader.1

theorem dry_view {d : SlicedDecoder} (hlen : d.bytes.length < 2 ^ 63) (h : d.Dry) :
    d.view.Dry := by
  refine ⟨?_, ?_⟩
  · rw [nextHeaderInto_view]
    exact h.1
  · rw [Decoder.payload, payloadN_view d _ hlen]
    exact h.2

/-- The outcome is that of the decoder without its storage. -/
theorem outcome_view {d e : SlicedDecoder} (h : d.view = e.view) : d.outcome = e.outcome := by
  have hr : d.remaining = e.remaining :=
    UInt64.toNat_inj.mp (congrArg Decoder.remaining h)
  have hd := nextHeaderInto_view d {}
  rw [h, nextHeaderInto_view e {}] at hd
  rw [outcome, outcome, hr, nextHeader, nextHeader]
  exact congrArg (fun r => if e.remaining ≠ 0 then .ok false else r)
    (congrArg Prod.fst hd).symm

/-- A header that is not taken leaves the decoder as it was, its storage included. -/
theorem nextHeader_not_ok {d : SlicedDecoder} (h : d.nextHeader.1 ≠ .ok true) :
    d.nextHeader.2.2 = d := by
  unfold nextHeader nextHeaderInto at h ⊢
  split_ifs at h ⊢
  · rfl
  · generalize d.bytes = p at h ⊢
    rcases p with _ | ⟨b0, _ | ⟨b1, bs⟩⟩
    · rfl
    · rfl
    · dsimp only at h ⊢
      split_ifs at h ⊢
      · rfl
      · rfl
      · exact absurd rfl h

/-- `PayloadN` takes at most what is left of the frame, and counts it off exactly. -/
theorem payloadN_exact {d : SlicedDecoder} (hlen : d.bytes.length < 2 ^ 63) (n : ℤ) :
    (d.payloadN n).1.length ≤ d.remaining.toNat ∧
      (d.payloadN n).2.2.remaining.toNat + (d.payloadN n).1.length = d.remaining.toNat := by
  have h := (Decoder.payloadN_took d.view n).2
  rw [payloadN_view d n hlen] at h
  simp only [view_remaining] at h
  omega

variable (grow grow' : ℕ → ℕ)

/-- A call that takes something leaves less input. -/
theorem Reading.shrinks {s : Reading} {bs : List UInt8} (ht : s.Took bs)
    (hlen : bs.length < 2 ^ 63) (hd : ¬s.dec.Dry) : ∃ c : Call, c.input = [] ∧
      (s.call grow c).dec.bytes.length < s.dec.bytes.length := by
  by_cases hh : s.dec.nextHeader.1 = .ok true
  · refine ⟨.nextHeader, rfl, ?_⟩
    have hv : s.dec.view.nextHeaderInto {} =
        (.ok true, s.dec.nextHeader.2.1, s.dec.nextHeader.2.2.view) := by
      rw [nextHeaderInto_view, ← hh]
      rfl
    obtain ⟨-, hp, -, hg⟩ := Decoder.nextHeaderInto_ok hv
    have hcall : (s.call grow .nextHeader).dec = s.dec.nextHeader.2.2 := by
      unfold call
      generalize s.dec.nextHeader = out at hh
      obtain ⟨r, h, d⟩ := out
      dsimp only at hh
      rw [hh]
    have hraw : s.dec.nextHeader.2.1.raw ≠ [] := by
      intro hnil
      have hempty := hg [] {}
      rw [hnil] at hempty
      cases congrArg Prod.fst hempty
    have hl := congrArg List.length hp
    rw [hcall]
    simp only [view_pending, List.length_append] at hl
    have := List.length_pos_of_ne_nil hraw
    omega
  · refine ⟨.payload, rfl, ?_⟩
    have htook := (Decoder.payloadN_took s.dec.view s.dec.bytes.length).1
    rw [payloadN_view s.dec _ (ht.pending_le.trans_lt hlen)] at htook
    have hne : s.dec.payload.1 ≠ [] := fun hnil => hd ⟨hh, hnil⟩
    have hl := congrArg List.length htook
    simp only [view_pending, List.length_append] at hl
    have := List.length_pos_of_ne_nil hne
    show s.dec.payload.2.2.bytes.length < _
    rw [payload] at this ⊢
    omega

/-- From any point of a schedule, enough calls take all that can be taken. -/
theorem Reading.exists_dry : ∀ (k : ℕ) {s : Reading} {bs : List UInt8}, s.Took bs →
    bs.length < 2 ^ 63 → s.dec.bytes.length ≤ k →
      ∃ cs : List Call, fed cs = [] ∧ (s.run grow cs).dec.Dry := by
  intro k
  induction k with
  | zero =>
    intro s bs ht hlen hk
    by_cases hd : s.dec.Dry
    · exact ⟨[], rfl, hd⟩
    · obtain ⟨c, -, hlt⟩ := Reading.shrinks grow ht hlen hd
      omega
  | succ k ih =>
    intro s bs ht hlen hk
    by_cases hd : s.dec.Dry
    · exact ⟨[], rfl, hd⟩
    · obtain ⟨c, hc, hlt⟩ := Reading.shrinks grow ht hlen hd
      have ht' := ht.call grow c hlen
      rw [hc, List.append_nil] at ht'
      obtain ⟨cs, hcs, hdry⟩ := ih ht' hlen (by omega)
      exact ⟨c :: cs, by rw [fed, List.map_cons, hc]; exact hcs, hdry⟩

/-- Two schedules that feed the same bytes and take all they can collect the same
frames, and end waiting or with the same error. On the way, a header that is not taken
consumes nothing, no frame yields more than it announced, and what is left of a frame
is counted down without wrapping. -/
theorem arrival_agrees (d d' : SlicedDecoder) {cs cs' : List Call} (hfed : fed cs = fed cs')
    (hlen : (fed cs).length < 2 ^ 63) :
    let s := Reading.run grow ⟨d.reset, []⟩ cs
    let s' := Reading.run grow' ⟨d'.reset, []⟩ cs'
    (s.dec.Dry → s'.dec.Dry → s.frames = s'.frames ∧ s.dec.outcome = s'.dec.outcome) ∧
    (s.dec.nextHeader.1 ≠ .ok true → s.dec.nextHeader.2.2 = s.dec) ∧
    (∀ x ∈ s.frames, x.payload.length ≤ x.header.payloadLen) ∧
    s.dec.remaining.toNat < 2 ^ 63 ∧
    ∀ n, (s.dec.payloadN n).1.length ≤ s.dec.remaining.toNat ∧
      (s.dec.payloadN n).2.2.remaining.toNat + (s.dec.payloadN n).1.length =
        s.dec.remaining.toNat := by
  intro s s'
  have ht : s.Took (fed cs) := Reading.took_run grow d hlen
  have ht' : s'.Took (fed cs) := hfed ▸ Reading.took_run grow' d' (hfed ▸ hlen)
  have hsize : s.dec.bytes.length < 2 ^ 63 := ht.pending_le.trans_lt hlen
  have hsize' : s'.dec.bytes.length < 2 ^ 63 := ht'.pending_le.trans_lt hlen
  refine ⟨?_, nextHeader_not_ok, ht.payload_le, ht.remaining_lt, payloadN_exact hsize⟩
  intro hd hd'
  obtain ⟨hframes, hview⟩ := ht.unique (dry_view hsize hd) ht' (dry_view hsize' hd')
  exact ⟨hframes, outcome_view hview⟩

/-- A text frame and the start of another, fed at once and byte by byte. -/
theorem arrival_agrees_bytewise :
    let bytewise : List Call := [0x81, 0x02, 0x61, 0x62, 0x89].flatMap fun b =>
      [.feed [b], .nextHeader, .payloadN 1, .preserve]
    let whole : List Call := [.feed [0x81, 0x02, 0x61, 0x62, 0x89], .nextHeader, .payload]
    (Reading.run (2 * ·) ⟨{}, []⟩ bytewise).frames = (Reading.run id ⟨{}, []⟩ whole).frames ∧
    (Reading.run id ⟨{}, []⟩ whole).frames = [⟨⟨[0x81, 0x02]⟩, [0x61, 0x62]⟩] := by
  refine ⟨?_, by decide +kernel⟩
  exact ((arrival_agrees (2 * ·) id {} {} (by decide +kernel) (by decide +kernel)).1
    (by decide +kernel) (by decide +kernel)).1

end SlicedDecoder

end Ews
