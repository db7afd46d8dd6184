import Ews.Decompressor

/-!
# What the decompressor makes of a message

A decompressor at work on a message that means `goal` hands out a growing part of it,
and then its end, or fails if there is none (`Inflation.read_spec`). `Busy` is the
invariant between reads : the reader keeps track of the message, and the history it
will need is at hand, in the window and in the part of the output not yet added to it.

`Gives` is what is asked of a chunk source : however it cuts them, it gives the bytes of the
message and then `io.EOF`.
-/

set_option linter.unusedSectionVars false

namespace Ews

open Bytes

variable {F : Flate} {τ : Type}

/-! ## Sources -/

/-- The source gives the bytes `bs` in chunks and then `io.EOF`, ending in a state that
satisfies `Q`. -/
inductive ChunkSource.Gives (C : ChunkSource τ) (Q : τ → Prop) : List UInt8 → τ → Prop
  | eof {s s' : τ} (next : C.next s = (.error .eof, s')) (end_ : Q s') : Gives C Q [] s
  | chunk {s s' : τ} {c bs : List UInt8} (next : C.next s = (.ok c, s'))
      (left : c.length + C.left s' ≤ C.left s) (empty : c = [] → C.left s' < C.left s)
      (rest : Gives C Q bs s') : Gives C Q (c ++ bs) s

namespace MessageReader

variable {C : ChunkSource τ} {Q : τ → Prop}

/-- The outcomes of `fill` on a source that gives `bs` : a chunk of it, or its end. -/
inductive Filled (C : ChunkSource τ) (Q : τ → Prop) (bs tail : List UInt8) (s : τ) :
    Except Err Bool × MessageReader × τ → Prop
  | chunk {c rest : List UInt8} {s' : τ} (nonempty : c ≠ []) (split : bs = c ++ rest)
      (gives : C.Gives Q rest s') (left : c.length + C.left s' ≤ C.left s) :
      Filled C Q bs tail s (.ok true, ⟨c, tail, false⟩, s')
  | eof {s' : τ} (empty : bs = []) (end_ : Q s') :
      Filled C Q bs tail s (.ok false, ⟨[], tail, true⟩, s')

theorem fill_spec {bs : List UInt8} (tail : List UInt8) {s : τ} (h : C.Gives Q bs s) :
    Filled C Q bs tail s (fill C ⟨[], tail, false⟩ s) := by
  -- Either the payload is empty and the rest still to come, or it is the next chunk.
  refine Loop.run_spec (fun x => x.1.tail = tail ∧ x.1.eof = false ∧
    ∃ rest, bs = x.1.payload ++ rest ∧ C.Gives Q rest x.2 ∧
      x.1.payload.length + C.left x.2 ≤ C.left s)
    (fun x => if x.1.payload = [] then C.left x.2 + 1 else 0) ?_
    ⟨rfl, rfl, bs, rfl, h, by simp⟩ (by simp)
  rintro ⟨⟨payload, tl, eof⟩, s₁⟩ ⟨rfl, rfl, rest, hbs, hgives, hleft⟩
  dsimp only at hbs hleft hgives ⊢
  simp only [fillRound, and_true]
  by_cases hp : payload = []
  · subst hp
    rw [if_pos rfl]
    cases hgives with
    | eof next end_ =>
      rw [next]
      exact .eof hbs end_
    | @chunk _ s' c bs' next left empty gives =>
      rw [next]
      refine ⟨⟨rfl, rfl, bs', by simpa using hbs, gives, ?_⟩, ?_⟩
      · simp only [List.length_nil] at hleft
        dsimp only
        omega
      · dsimp only
        rw [if_pos rfl]
        split_ifs with hc
        · have := empty hc
          omega
        · omega
  · have htrue : (!payload.isEmpty) = true := by simpa using hp
    rw [if_neg hp, htrue]
    exact .chunk hp hbs hgives hleft

end MessageReader

namespace Feed

variable {C : ChunkSource τ} {Q : τ → Prop}

/-- The slice is a source of its bytes. -/
theorem supplies_slice : ∀ (bs : List UInt8) {f : Feed τ}, f.streaming = false → f.slice = bs →
    Q f.src → (source C).Supplies (fun f => Q f.src) bs f
  | [], f, hs, hb, hq => by
    refine ⟨by simp [source, exhausted, hs, hb], hq, f, ?_, le_rfl⟩
    simp [source, next, hs, hb]
  | b :: bs, f, hs, hb, hq => by
    refine ⟨by simp [source, exhausted, hs, hb], { f with slice := bs }, ?_, ?_,
      supplies_slice bs hs rfl hq⟩
    · simp [source, next, hs, hb]
    · simp [source, left, hs, hb]

theorem readByte_tail (C : ChunkSource τ) (s : τ) (tail : List UInt8) :
    MessageReader.readByte C ⟨[], tail, true⟩ s = match tail with
      | b :: tail => (.ok b, ⟨[], tail, true⟩, s)
      | [] => (.error .eof, ⟨[], [], true⟩, s) := by
  have hfill : MessageReader.fill C ⟨[], tail, true⟩ s = (.ok false, ⟨[], tail, true⟩, s) := by
    simp [MessageReader.fill, Loop.run, Loop.iterate, MessageReader.fillRound]
  unfold MessageReader.readByte
  rw [hfill]
  cases tail <;> rfl

/-- After the last chunk the tail is the source. -/
theorem supplies_tail : ∀ (tail : List UInt8) {f : Feed τ}, f.streaming = true →
    f.input = ⟨[], tail, true⟩ → Q f.src → (source C).Supplies (fun f => Q f.src) tail f
  | [], f, hs, hi, hq => by
    refine ⟨by simp [source, exhausted, hs, hi, MessageReader.exhausted], hq, f, ?_, le_rfl⟩
    have hread := readByte_tail C f.src []
    simp only [source, next, hs, hi, if_true, hread]
    rw [← hi, ← hs]
  | b :: tail, f, hs, hi, hq => by
    refine ⟨by simp [source, exhausted, hs, hi, MessageReader.exhausted],
      { f with input := ⟨[], tail, true⟩ }, ?_, ?_, supplies_tail tail hs rfl hq⟩
    · have hread := readByte_tail C f.src (b :: tail)
      simp only [source, next, hs, hi, if_true, hread]
    · simp [source, left, hs, hi]

theorem readByte_payload (C : ChunkSource τ) (s : τ) (b : UInt8) (payload tail : List UInt8) :
    MessageReader.readByte C ⟨b :: payload, tail, false⟩ s = (.ok b, ⟨payload, tail, false⟩, s) := by
  have hfill : MessageReader.fill C ⟨b :: payload, tail, false⟩ s =
      (.ok true, ⟨b :: payload, tail, false⟩, s) := by
    simp [MessageReader.fill, Loop.run, Loop.iterate, MessageReader.fillRound]
  unfold MessageReader.readByte
  rw [hfill]

/-- While chunks come, the payload at hand, the chunks and the tail are the source. The
induction is on the bytes before the tail. -/
theorem supplies_stream {t : UInt8} {tail : List UInt8} : ∀ (n : ℕ) (bs payload : List UInt8)
    {f : Feed τ}, payload.length + bs.length = n → f.streaming = true →
    f.input = ⟨payload, t :: tail, false⟩ → C.Gives Q bs f.src →
    (source C).Supplies (fun f => Q f.src) (payload ++ bs ++ t :: tail) f
  | n, bs, b :: payload, f, hn, hs, hi, hg => by
    rw [List.length_cons] at hn
    refine ⟨by simp [source, exhausted, hs, hi, MessageReader.exhausted],
      { f with input := ⟨payload, t :: tail, false⟩ }, ?_, ?_,
      supplies_stream (n - 1) bs payload (by omega) hs rfl hg⟩
    · simp only [source, next, hs, hi, if_true, readByte_payload]
    · simp [source, left, hs, hi]
  | n, bs, [], f, hn, hs, hi, hg => by
    have hfill := MessageReader.fill_spec (t :: tail) hg
    have hex : (source C).exhausted f = false := by
      simp [source, exhausted, hs, hi, MessageReader.exhausted]
    have hnext : (source C).next f =
        let r := MessageReader.readByte C ⟨[], t :: tail, false⟩ f.src
        (r.1, { f with input := r.2.1, src := r.2.2 }) := by
      simp [source, next, hs, hi]
    rw [MessageReader.readByte] at hnext
    generalize MessageReader.fill C ⟨[], t :: tail, false⟩ f.src = out at hfill hnext
    cases hfill with
    | @chunk c rest s' nonempty split gives hleft =>
      cases c with
      | nil => exact absurd rfl nonempty
      | cons b c =>
        subst split
        simp only [List.length_nil, List.length_append, List.length_cons] at hn hleft
        refine ⟨hex, { f with input := ⟨c, t :: tail, false⟩, src := s' }, hnext, ?_,
          supplies_stream (n - 1) rest c (by omega) hs rfl gives⟩
        simp only [source, left, hs, hi, if_true, Bool.false_eq_true, if_false, List.length_nil]
        omega
    | @eof s' empty end_ =>
      subst empty
      refine ⟨hex, { f with input := ⟨[], tail, true⟩, src := s' }, hnext, ?_,
        supplies_tail tail hs rfl end_⟩
      simp only [source, left, hs, hi, if_true, Bool.false_eq_true, if_false, List.length_nil,
        List.length_cons]
      omega
termination_by n => n

end Feed

/-! ## The history at hand -/

namespace Inflation

/-- The size of the history that matters. -/
def size (x : Inflation F τ) : ℕ :=
  (x.window.map Window.size).getD windowSize

theorem size_none {x : Inflation F τ} (h : x.window = none) : x.size = windowSize := by
  simp [size, h]

theorem size_some {x : Inflation F τ} {w : Window} (h : x.window = some w) : x.size = w.size := by
  simp [size, h]

/-- After the output `sofar` of a message that followed `hist`, the history is at hand :
streaming it is in the window, or in the scratch window of a message on its own ; in a slice
the window has it up to `kept`. -/
structure Keeps (hist sofar : List UInt8) (x : Inflation F τ) : Prop where
  flag : x.dec.window = x.window.isSome
  scratch : x.dec.scratch.size = windowSize
  alone : x.window = none → hist = []
  stream : x.dec.streaming = true → ∀ w, x.window = some w → w.dict = lastN w.size (hist ++ sofar)
  streamAlone : x.dec.streaming = true → x.window = none →
    x.dec.scratch.dict = lastN windowSize sofar
  slice : x.dec.streaming = false → x.dec.kept ≤ sofar.length ∧
    ∀ w, x.window = some w → w.dict = lastN w.size (hist ++ sofar.take x.dec.kept)

/-- A message that has ended : no message is in progress, and the window, if there is one, has
`dict` and the size it had. -/
structure Over (size : ℕ) (dict : List UInt8) (isSome : Bool) (x : Inflation F τ) : Prop where
  active : x.dec.active = false
  done : x.dec.done = false
  flag : x.dec.window = false
  scratch : x.dec.scratch.size = windowSize
  window : x.window.isSome = isSome
  size : x.size = size
  dict : ∀ w, x.window = some w → w.dict = dict

section Keeps

variable {hist sofar : List UInt8} {x : Inflation F τ} (h : Keeps hist sofar x)
include h

/-- A message's window is the connection's, so `finish` acts on that. -/
theorem window_finish (ok : Bool) : (x.finish ok).window = x.window.map fun w =>
    if !ok then w.reset
    else if !x.dec.streaming then w.remember (x.dec.output.drop x.dec.kept)
    else w := by
  have hflag := h.flag
  cases hx : x.window <;> simp [finish, hx, hflag]

theorem over_finish {ok : Bool} {d : List UInt8}
    (hd : ∀ w, x.window = some w → Window.dict (if !ok then w.reset
      else if !x.dec.streaming then w.remember (x.dec.output.drop x.dec.kept) else w) = d) :
    (x.finish ok).Over x.size d x.window.isSome := by
  have hw := window_finish h ok
  refine ⟨rfl, rfl, rfl, h.scratch, ?_, ?_, fun w hw' => ?_⟩
  · rw [hw, Option.isSome_map]
  · rw [size, hw, size]
    cases x.window with
    | none => rfl
    | some w =>
      simp only [Option.map_some, Option.getD_some]
      split_ifs <;> simp
  · rw [hw] at hw'
    obtain ⟨w', hx, rfl⟩ := Option.map_eq_some_iff.mp hw'
    exact hd w' hx

theorem over_finish_false : (x.finish false).Over x.size [] x.window.isSome :=
  over_finish h fun w _ => w.dict_reset

/-- A message that ends well leaves its output in the window, in either mode. -/
theorem over_finish_true (hout : x.dec.streaming = false → x.dec.output = sofar) :
    (x.finish true).Over x.size (lastN x.size (hist ++ sofar)) x.window.isSome := by
  refine over_finish h fun w hx => ?_
  rw [size_some hx]
  cases hs : x.dec.streaming with
  | true => exact h.stream hs w hx
  | false =>
    obtain ⟨hkept, hdict⟩ := h.slice hs
    show (w.remember _).dict = _
    rw [Window.dict_remember, hdict w hx, hout hs, lastN_append_lastN, List.append_assoc,
      List.take_append_drop]

theorem size_note (p : List UInt8) : (x.note p).size = x.size := by
  unfold note
  split_ifs
  · cases hx : x.window <;> simp [size, hx]
  · rfl
  · rfl

/-- Streamed output is added to the history as it is given out. -/
theorem keeps_note (p : List UInt8) : Keeps hist (sofar ++ p) (x.note p) := by
  have hflag := h.flag
  cases hs : x.dec.streaming with
  | false =>
    have hx : x.note p = x := by simp [note, hs]
    obtain ⟨hkept, hdict⟩ := h.slice hs
    rw [hx]
    refine ⟨h.flag, h.scratch, h.alone, fun h' => ?_, fun h' => ?_, fun _ => ⟨?_, fun w hw => ?_⟩⟩
    · exact absurd (hs.symm.trans h') (by decide)
    · exact absurd (hs.symm.trans h') (by decide)
    · rw [List.length_append]
      omega
    · rw [List.take_append_of_le_length hkept, hdict w hw]
  | true =>
    by_cases hp : p = []
    · have hx : x.note p = x := by simp [note, hp]
      rwa [hx, hp, List.append_nil]
    · cases hw : x.window with
      | none =>
        have hx : x.note p = { x with dec := { x.dec with scratch := x.dec.scratch.remember p } } := by
          simp [note, hs, hp, hflag, hw]
        rw [hx]
        refine ⟨hflag, by simpa using h.scratch, h.alone, fun _ w h' => ?_, fun _ _ => ?_,
          fun h' => ?_⟩
        · exact absurd (hw.symm.trans h') (by simp)
        · show (x.dec.scratch.remember p).dict = _
          rw [Window.dict_remember, h.streamAlone hs hw, h.scratch, lastN_append_lastN]
        · exact absurd (hs.symm.trans h') (by decide)
      | some w =>
        have hx : x.note p = { x with window := some (w.remember p) } := by
          simp [note, hs, hp, hflag, hw]
        rw [hx]
        refine ⟨by simp [hflag, hw], h.scratch, by simp, fun _ w' h' => ?_, by simp,
          fun h' => ?_⟩
        · obtain rfl := Option.some.inj h'
          rw [Window.dict_remember, h.stream hs w hw, Window.size_remember, lastN_append_lastN,
            List.append_assoc]
        · exact absurd (hs.symm.trans h') (by decide)

/-- The dictionary of a reset within the message is its recent history. -/
theorem dict_spec {p : List UInt8}
    (hout : x.dec.streaming = false → x.dec.output ++ p = sofar) :
    (x.dict p).1 = lastN x.size (hist ++ sofar) ∧ Keeps hist sofar (x.dict p).2 ∧
      (x.dict p).2.size = x.size ∧ (x.dict p).2.src = x.src ∧
      (x.dict p).2.window.isSome = x.window.isSome ∧
      ∃ k, (x.dict p).2.dec = { x.dec with kept := k } := by
  have hflag := h.flag
  cases hs : x.dec.streaming with
  | true =>
    cases hw : x.window with
    | none =>
      have hx : x.dict p = (x.dec.scratch.dict, x) := by simp [dict, hs, hflag, hw]
      rw [hx]
      refine ⟨?_, h, rfl, rfl, by rw [hw], x.dec.kept, rfl⟩
      rw [h.streamAlone hs hw, h.alone hw, size_none hw, List.nil_append]
    | some w =>
      have hx : x.dict p = (w.dict, x) := by simp [dict, hs, hflag, hw, Window.dictOf]
      rw [hx]
      refine ⟨?_, h, rfl, rfl, by rw [hw], x.dec.kept, rfl⟩
      rw [h.stream hs w hw, size_some hw]
  | false =>
    obtain ⟨hkept, hdict⟩ := h.slice hs
    cases hw : x.window with
    | none =>
      have hx : x.dict p = (lastN windowSize sofar, x) := by
        simp [dict, hs, hflag, hw, ← hout hs, lastN]
      rw [hx]
      refine ⟨?_, h, rfl, rfl, by rw [hw], x.dec.kept, rfl⟩
      rw [h.alone hw, size_none hw, List.nil_append]
    | some w =>
      have hdict' : (w.remember (sofar.drop x.dec.kept)).dict = lastN w.size (hist ++ sofar) := by
        rw [Window.dict_remember, hdict w hw, lastN_append_lastN, List.append_assoc,
          List.take_append_drop]
      have hx : x.dict p = ((w.remember (sofar.drop x.dec.kept)).dict,
          { x with
            window := some (w.remember (sofar.drop x.dec.kept))
            dec := { x.dec with kept := sofar.length } }) := by
        simp [dict, hs, hflag, hw, ← hout hs, Window.dictOf]
      rw [hx]
      refine ⟨?_, ⟨by simp [hflag, hw], h.scratch, by simp, fun h' => ?_, by simp, fun _ => ?_⟩, ?_,
        rfl, by simp, sofar.length, rfl⟩
      · rw [hdict', size_some hw]
      · exact absurd (hs.symm.trans h') (by decide)
      · refine ⟨le_rfl, fun w' hw' => ?_⟩
        obtain rfl := Option.some.inj hw'
        rw [hdict', Window.size_remember]
        simp
      · rw [size_some rfl, size_some hw, Window.size_remember]

end Keeps

/-! ## Reading -/

/-- What a read leaves alone. -/
structure Same (x x' : Inflation F τ) : Prop where
  output : x'.dec.output = x.dec.output
  outCap : x'.dec.outCap = x.dec.outCap
  streaming : x'.dec.streaming = x.dec.streaming
  isSome : x'.window.isSome = x.window.isSome
  size : x'.size = x.size

theorem Same.refl (x : Inflation F τ) : Same x x :=
  ⟨rfl, rfl, rfl, rfl, rfl⟩

theorem Same.trans {x x' x'' : Inflation F τ} (h : Same x x') (h' : Same x' x'') : Same x x'' :=
  ⟨h'.output.trans h.output, h'.outCap.trans h.outCap, h'.streaming.trans h.streaming,
    h'.isSome.trans h.isSome, h'.size.trans h.size⟩

/-- A bound on what is still to be handed out. -/
def load (C : ChunkSource τ) (x : Inflation F τ) : ℕ :=
  if x.dec.done then 0 else x.dec.reader.load (Feed.source C) x.feed

variable (C : ChunkSource τ) (Q : τ → Prop) (hist : List UInt8) (goal : Option (List UInt8))

/-- At work on a message that means `goal` after `hist`, with `sofar` handed out : inside
the message, or past its last byte with only its end to report. -/
structure Busy (sofar : List UInt8) (x : Inflation F τ) : Prop where
  active : x.dec.active = true
  keeps : Keeps hist sofar x
  inside : x.dec.done = false →
    Tracks (Feed.source C) (fun f => Q f.src) x.size hist goal sofar x.dec.reader x.feed
  ready : x.dec.done = false → x.dec.reader.err ≠ none → x.dec.reader.toRead ≠ []
  last : x.dec.done = true → goal = some sofar ∧ Q x.src

/-- The outcomes of `Read` : the next bytes of the message, its end once all of it was handed
out, or a failure if it has no meaning. -/
inductive ReadOutcome (sofar : List UInt8) (n : ℕ) (x : Inflation F τ) :
    (List UInt8 × Option Err) × Inflation F τ → Prop
  | chunk {p : List UInt8} {x' : Inflation F τ} (nonempty : p ≠ []) (length : p.length ≤ n)
      (busy : Busy C Q hist goal (sofar ++ p) x') (same : Same x x')
      (load : p.length + x'.load C ≤ x.load C) : ReadOutcome sofar n x ((p, none), x')
  | eof {x' : Inflation F τ} (goal : goal = some sofar)
      (hover : x'.Over x.size (lastN x.size (hist ++ sofar)) x.window.isSome)
      (output : x'.dec.output = x.dec.output) (final : Q x'.src) :
      ReadOutcome sofar n x (([], some .eof), x')
  | fail {e : Err} {x' : Inflation F τ} (fault : e ≠ .eof) (goal : goal = none)
      (hover : x'.Over x.size [] x.window.isSome) : ReadOutcome sofar n x (([], some e), x')

variable {C Q hist goal} {sofar : List UInt8} {n : ℕ} {x : Inflation F τ}

theorem feed_withFeed {r : Inflater F} {f : Feed τ} (h : f.streaming = x.dec.streaming) :
    (x.withFeed r f).feed = f := by
  simp [feed, withFeed, ← h]

theorem keeps_withFeed (h : Keeps hist sofar x) (r : Inflater F) (f : Feed τ) :
    Keeps hist sofar (x.withFeed r f) :=
  ⟨h.flag, h.scratch, h.alone, h.stream, h.streamAlone, h.slice⟩

theorem streaming_read (x : Inflation F τ) (n : ℕ) :
    (x.dec.reader.read (Feed.source C) n x.feed).2.2.streaming = x.dec.streaming := by
  refine Inflater.read_keeps (P := fun f : Feed τ => f.streaming = x.dec.streaming) (fun f hf => ?_)
    rfl _ _
  simp only [Feed.source, Feed.next]
  split_ifs with hs
  · exact hf
  · cases f.slice <;> exact hf

theorem note_eq (x : Inflation F τ) (p : List UInt8) : x.note p =
    { x with
      window := (x.note p).window
      dec := { x.dec with scratch := (x.note p).dec.scratch } } := by
  unfold note
  split_ifs <;> rfl

/-- What the reader gave, added to the history. -/
def noted (x : Inflation F τ) (r : Inflater F) (f : Feed τ) (p : List UInt8) : Inflation F τ :=
  (x.withFeed r f).note p

section Noted

variable (h : Keeps hist sofar x) {r : Inflater F} {f : Feed τ} (p : List UInt8)
  (hf : f.streaming = x.dec.streaming)
include h hf

theorem keeps_noted : Keeps hist (sofar ++ p) (x.noted r f p) :=
  keeps_note (keeps_withFeed h r f) p

theorem same_noted : Same x (x.noted r f p) := by
  have heq := note_eq (x.withFeed r f) p
  refine ⟨?_, ?_, ?_, ?_, size_note (keeps_withFeed h r f) p⟩
  · rw [noted, heq]
    rfl
  · rw [noted, heq]
    rfl
  · rw [noted, heq]
    rfl
  · rw [← (keeps_noted (r := r) h p hf).flag, ← h.flag, noted, heq]
    rfl

theorem reader_noted : (x.noted r f p).dec.reader = r ∧ (x.noted r f p).feed = f ∧
    (x.noted r f p).dec.done = x.dec.done ∧ (x.noted r f p).dec.active = x.dec.active ∧
    (x.noted r f p).src = f.src := by
  have heq := note_eq (x.withFeed r f) p
  refine ⟨?_, ?_, ?_, ?_, ?_⟩
  · rw [noted, heq]
    rfl
  · rw [noted, heq]
    exact feed_withFeed (x := x) (r := r) hf
  · rw [noted, heq]
    rfl
  · rw [noted, heq]
    rfl
  · rw [noted, heq]
    rfl

end Noted

/-- One round of `Read` : an outcome, or past the end of one stream into the next. -/
theorem readRound_spec (hn : 0 < n) (h : Busy C Q hist goal sofar x) (hdone : x.dec.done = false)
    (hout : x.dec.streaming = false → x.dec.output = sofar) :
    Sum.elim (fun x' => Busy C Q hist goal sofar x' ∧ x'.dec.done = false ∧ Same x x' ∧
        x'.load C ≤ x.load C ∧ x'.feed.left C < x.feed.left C)
      (ReadOutcome C Q hist goal sofar n x) (x.readRound C n) := by
  have hread := Inflater.read_spec hn (h.inside hdone) (h.ready hdone)
  have hstr := streaming_read (C := C) x n
  have hload : x.load C = x.dec.reader.load (Feed.source C) x.feed := by simp [load, hdone]
  unfold readRound
  generalize x.dec.reader.read (Feed.source C) n x.feed = out at hread hstr
  obtain ⟨⟨p, err⟩, r, f⟩ := out
  dsimp only at hstr
  have hkeep := keeps_noted (r := r) h.keeps p hstr
  have hsame := same_noted (r := r) h.keeps p hstr
  obtain ⟨hr, hf, hd, ha, hsrc⟩ := reader_noted (r := r) h.keeps p hstr
  show Sum.elim _ _ ((x.noted r f p).readAfter p err)
  generalize x.noted r f p = y at hkeep hsame hr hf hd ha hsrc
  cases hread with
  | chunk nonempty length tracks ready hle =>
    simp only [readAfter, if_neg nonempty]
    refine .chunk nonempty length ⟨ha.trans h.active, hkeep, fun _ => ?_, fun _ => ?_, fun h' => ?_⟩
      hsame ?_
    · rwa [hr, hf, hsame.size]
    · rwa [hr]
    · exact absurd (h'.symm.trans (hd.trans hdone)) (by decide)
    · rw [load, hd, hdone, hload, hr, hf]
      exact hle
  | @ended _ rest _ _ length meaning supplies hle progress =>
    have hout' : y.dec.streaming = false → y.dec.output ++ p = sofar ++ p := fun hs => by
      rw [hsame.output, hout (hsame.streaming.symm.trans hs)]
    have hex : y.feed.exhausted = true ↔ rest = [] := by
      rw [hf]
      exact supplies.exhausted
    simp only [readAfter, if_true]
    by_cases hrest : rest = []
    · -- The message ends here, with its last bytes or without.
      subst hrest
      have hgoal : goal = some (sofar ++ p) := by simpa [Scan.finish] using meaning
      have hfinal : Q f.src := supplies.2.1
      rw [if_pos (hex.mpr rfl)]
      by_cases hp : p = []
      · rw [if_pos hp]
        rw [hp, List.append_nil] at hgoal hkeep
        rw [hp, List.append_nil, List.append_nil] at hout'
        have hover := over_finish_true hkeep hout'
        rw [hsame.size, hsame.isSome] at hover
        exact .eof hgoal hover hsame.output (hsrc ▸ hfinal)
      · rw [if_neg hp]
        refine .chunk hp length ⟨ha.trans h.active, ?_, by simp, by simp, fun _ => ⟨hgoal, ?_⟩⟩
          ⟨hsame.output, hsame.outCap, hsame.streaming, hsame.isSome, hsame.size⟩ ?_
        · exact ⟨hkeep.flag, hkeep.scratch, hkeep.alone, hkeep.stream, hkeep.streamAlone, hkeep.slice⟩
        · exact hsrc ▸ hfinal
        · rw [hload]
          simp only [load, if_true]
          omega
    · -- Another stream follows, with the message so far as its dictionary.
      obtain ⟨hdict, hkeep', hsize', hsrc', hsome', k, hdec'⟩ := dict_spec hkeep hout'
      rw [if_neg (by rwa [hex])]
      generalize y.dict p = z at hdict hkeep' hsize' hsrc' hsome' hdec'
      obtain ⟨d, z⟩ := z
      dsimp only at hdict hkeep' hsize' hsrc' hsome' hdec' ⊢
      have hfeed : (z.restart d).feed = f := by
        rw [← hf, feed, feed, restart, hdec', hsrc']
      have hzdone : (z.restart d).dec.done = false := by
        rw [restart, hdec']
        exact hd.trans hdone
      have hbusy : Busy C Q hist goal (sofar ++ p) (z.restart d) := by
        refine ⟨?_, ⟨hkeep'.flag, hkeep'.scratch, hkeep'.alone, hkeep'.stream, hkeep'.streamAlone,
          hkeep'.slice⟩, fun _ => ?_, fun _ h' => absurd rfl h', fun h' => ?_⟩
        · rw [restart, hdec']
          exact ha.trans h.active
        · rw [hfeed, show (z.restart d).size = z.size from rfl, hsize', hsame.size]
          refine .running (x := ⟨none, hist ++ (sofar ++ p)⟩) rfl ?_ (by simp [restart, Inflater.reset])
            (fun _ => hrest) (by simpa [restart, Inflater.reset] using meaning) supplies
          rw [hdict, hsame.size]
          rfl
        · exact absurd (hzdone.symm.trans h') (by decide)
      have hsame' : Same x (z.restart d) := by
        refine ⟨?_, ?_, ?_, hsome'.trans hsame.isSome, hsize'.trans hsame.size⟩
        · rw [restart, hdec']
          exact hsame.output
        · rw [restart, hdec']
          exact hsame.outCap
        · rw [restart, hdec']
          exact hsame.streaming
      have hload' : p.length + (z.restart d).load C ≤ x.load C := by
        rw [hload, load, hzdone, hfeed]
        simpa [Inflater.load, restart, Inflater.reset] using hle
      by_cases hp : p = []
      · rw [if_neg (by simpa using hp)]
        rw [hp, List.append_nil] at hbusy
        refine ⟨hbusy, hzdone, hsame', by omega, ?_⟩
        rw [hfeed]
        exact progress hp
      · rw [if_pos hp]
        exact .chunk hp length hbusy hsame' hload'
  | bad fault meaning =>
    simp only [readAfter, if_neg fault]
    refine .fail fault meaning ?_
    have hover := over_finish_false hkeep
    rwa [hsame.size, hsame.isSome] at hover

/-- `Read` at work on a message. -/
theorem read_spec (hn : 0 < n) (h : Busy C Q hist goal sofar x)
    (hout : x.dec.streaming = false → x.dec.output = sofar) :
    ReadOutcome C Q hist goal sofar n x (x.read C n) := by
  unfold read
  rw [h.active]
  cases hdone : x.dec.done with
  | true =>
    obtain ⟨hgoal, hfinal⟩ := h.last hdone
    exact .eof hgoal (over_finish_true h.keeps hout) rfl hfinal
  | false =>
    simp only [Bool.not_true, Bool.false_eq_true, if_false]
    refine Loop.run_spec (fun x' => Busy C Q hist goal sofar x' ∧ x'.dec.done = false ∧ Same x x' ∧
      x'.load C ≤ x.load C) (fun x' => x'.feed.left C) ?_ ⟨h, hdone, .refl x, le_rfl⟩
      (Nat.lt_succ_self _)
    rintro x₁ ⟨hb, hd, hs, hle⟩
    have hround := readRound_spec hn hb hd fun h' => by
      rw [hs.output]
      exact hout (hs.streaming.symm.trans h')
    cases hr : x₁.readRound C n with
    | inl x₂ =>
      rw [hr] at hround
      obtain ⟨hb', hd', hs', hle', hleft⟩ := hround
      exact ⟨⟨hb', hd', hs.trans hs', hle'.trans hle⟩, hleft⟩
    | inr out =>
      rw [hr] at hround
      have hout₁ : ReadOutcome C Q hist goal sofar n x₁ out := hround
      cases hout₁ with
      | chunk nonempty length busy same load =>
        exact .chunk nonempty length busy (hs.trans same) (load.trans hle)
      | eof goal hover output final =>
        rw [hs.size, hs.isSome] at hover
        exact .eof goal hover (output.trans hs.output) final
      | fail fault goal hover =>
        rw [hs.size, hs.isSome] at hover
        exact .fail fault goal hover

end Inflation

end Ews
