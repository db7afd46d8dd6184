import Ews.Loop
import Ews.Sender
import Ews.Utf8

/-!
# Validating UTF-8

`internal/utf8` : the portable `Valid` (`valid_swar.go`) and the ASCII prefix it shares with the
vector one (`ascii.go`). ASCII is skipped eight bytes and more at a time ; the rest goes through
a table with one word per byte, which holds the next state for each of the nine states, six bits
a state.

Every state stands for the ranges that are owed (`Swar.places`), and one look-up is one step of
the machine of RFC 3629 (`Swar.next_step`).
-/

set_option linter.unusedSectionVars false

namespace Ews

open Utf8 (Range leads)

/-! ## `unicode/utf8` -/

/-- The start of a sequence. -/
theorem step_lead (a : UInt8) : Utf8.step Utf8.rows [] a =
    if a < 0x80 then some []
    else if 0xC2 ≤ a && a ≤ 0xDF then some [Utf8.tail]
    else if 0xE0 ≤ a && a ≤ 0xEF then
      some [(if a = 0xE0 then 0xA0 else 0x80, if a = 0xED then 0x9F else 0xBF), Utf8.tail]
    else if 0xF0 ≤ a && a ≤ 0xF4 then
      some [(if a = 0xF0 then 0x90 else 0x80, if a = 0xF4 then 0x8F else 0xBF), Utf8.tail, Utf8.tail]
    else none := by
  revert a
  exact Utf8.forall_byte (by decide +kernel)

theorem decide_leads_cons (r : Range) (rs : List Range) (b : UInt8) (s : List UInt8) :
    decide (leads (some (r :: rs)) (b :: s) = some []) =
      (r.has b && decide (leads (some rs) s = some [])) := by
  rw [leads, Utf8.run_owed]
  cases r.has b <;> simp

theorem decide_leads_lead (a : UInt8) (s : List UInt8) :
    decide (leads (some []) (a :: s) = some []) =
      decide (leads (Utf8.step Utf8.rows [] a) s = some []) := rfl

theorem isCont_eq (b : UInt8) : isCont b = Utf8.tail.has b := rfl

/-- A string that ends within its first sequence. -/
theorem decide_leads_short {owed : List Range} {s : List UInt8} (h : s.length < owed.length) :
    decide (leads (some owed) s = some []) = false :=
  decide_eq_false (Utf8.run_short h)

/-- `unicode/utf8.Valid` is the machine, run over the whole string. -/
theorem utf8Valid_eq (s : List UInt8) : utf8Valid s = decide (leads (some []) s = some []) := by
  fun_induction utf8Valid s with
  | case1 => rfl
  | case2 a l h ih => rw [decide_leads_lead, step_lead, if_pos h, ih]
  | case3 a h =>
    rw [decide_leads_lead, step_lead, if_neg h]
    split_ifs <;> rfl
  | case4 a h b l h2 ih =>
    rw [decide_leads_lead, step_lead, if_neg h, if_pos h2, decide_leads_cons, isCont_eq, ih]
  | case5 a h b h2 =>
    rw [decide_leads_lead, step_lead, if_neg h, if_neg h2]
    by_cases h3 : (0xE0 ≤ a && a ≤ 0xEF) = true
    · rw [if_pos h3, decide_leads_short (by simp)]
    · rw [if_neg h3]
      by_cases h4 : (0xF0 ≤ a && a ≤ 0xF4) = true
      · rw [if_pos h4, decide_leads_short (by simp)]
      · rw [if_neg h4]
        rfl
  | case6 a h b h2 c l h3 ih =>
    rw [decide_leads_lead, step_lead, if_neg h, if_neg h2, if_pos h3, decide_leads_cons,
      decide_leads_cons, isCont_eq, ih]
    split_ifs <;> simp [Range.has, Bool.and_assoc]
  | case7 a h b h2 c h3 =>
    rw [decide_leads_lead, step_lead, if_neg h, if_neg h2, if_neg h3]
    by_cases h4 : (0xF0 ≤ a && a ≤ 0xF4) = true
    · rw [if_pos h4, decide_leads_short (by simp)]
    · rw [if_neg h4]
      rfl
  | case8 a h b h2 c h3 d l ih =>
    rw [decide_leads_lead, step_lead, if_neg h, if_neg h2, if_neg h3]
    by_cases h4 : (0xF0 ≤ a && a ≤ 0xF4) = true
    · rw [if_pos h4, decide_leads_cons, decide_leads_cons, decide_leads_cons, h4, isCont_eq,
        isCont_eq, ih]
      split_ifs <;> simp [Range.has, Bool.and_assoc]
    · rw [if_neg h4, Bool.eq_false_of_not_eq_true h4]
      simp

theorem leads_append (owed : Option (List Range)) (s t : List UInt8) :
    leads owed (s ++ t) = leads (leads owed s) t :=
  Utf8.run_append owed s t

theorem leads_none (s : List UInt8) : leads none s = none :=
  Utf8.run_none s

/-- ASCII bytes are sequences of their own. -/
theorem leads_ascii : ∀ {s : List UInt8}, (∀ b ∈ s, b < 0x80) → leads (some []) s = some []
  | [], _ => rfl
  | a :: s, h => by
    have hstep : Utf8.step Utf8.rows [] a = some [] := by
      rw [step_lead, if_pos (h a List.mem_cons_self)]
    rw [leads, Utf8.run_cons, Option.bind_some, hstep]
    exact leads_ascii fun b hb => h b (List.mem_cons_of_mem _ hb)

/-! ## The ASCII prefix -/

/-- The high bit of each byte of a word. -/
def high : UInt64 :=
  0x8080808080808080

/-- `word` : the first eight bytes, little-endian. -/
def word (s : List UInt8) : UInt64 :=
  (List.range 8).foldl (fun w i => w ||| (s.getD i 0).toUInt64 <<< (8 * i).toUInt64) 0

/-- One step of the 32-byte loop of `asciiPrefix`. -/
def asciiRound (src : List UInt8) (i : ℕ) : ℕ ⊕ ℕ :=
  if i + 32 ≤ src.length then
    let words := word (src.drop i) ||| word (src.drop (i + 8)) ||| word (src.drop (i + 16)) |||
      word (src.drop (i + 24))
    if words &&& high ≠ 0 then .inr i else .inl (i + 32)
  else .inr i

/-- `asciiPrefix`. -/
def asciiPrefix (src : List UInt8) : ℕ :=
  let i := Loop.run (asciiRound src) (src.length + 1) id 0
  let i :=
    if i + 16 ≤ src.length ∧ (word (src.drop i) ||| word (src.drop (i + 8))) &&& high = 0 then i + 16
    else i
  let i := if i + 8 ≤ src.length ∧ word (src.drop i) &&& high = 0 then i + 8 else i
  i + ((src.drop i).takeWhile (· < 0x80)).length

theorem or_and_eq_zero {v w m : UInt64} : (v ||| w) &&& m = 0 ↔ v &&& m = 0 ∧ w &&& m = 0 := by
  have hdistrib : (v ||| w) &&& m = (v &&& m) ||| (w &&& m) :=
    UInt64.eq_of_toBitVec_eq BitVec.and_or_distrib_right
  rw [hdistrib, UInt64.or_eq_zero_iff]

/-- The high bit of a byte, wherever it stands in the word. -/
theorem byte_and_high : ∀ i < 8, ∀ b : UInt8,
    b.toUInt64 <<< (Nat.toUInt64 (8 * i)) &&& high = 0 ↔ b < 0x80 := by
  intro i hi
  refine Utf8.forall_byte ?_
  revert i
  decide +kernel

theorem word_and_high (s : List UInt8) :
    word s &&& high = 0 ↔ ∀ i < 8, s.getD i 0 < 0x80 := by
  have hfold : ∀ (is : List ℕ) (w : UInt64), (∀ i ∈ is, i < 8) →
      ((is.foldl (fun w i => w ||| (s.getD i 0).toUInt64 <<< (8 * i).toUInt64) w) &&& high = 0 ↔
        w &&& high = 0 ∧ ∀ i ∈ is, s.getD i 0 < 0x80) := by
    intro is
    induction is with
    | nil => simp
    | cons i is ih =>
      intro w his
      rw [List.foldl_cons, ih _ fun j hj => his j (List.mem_cons_of_mem _ hj), or_and_eq_zero,
        byte_and_high i (his i List.mem_cons_self), and_assoc, List.forall_mem_cons]
  rw [word, hfold _ _ (by simp)]
  simp

/-- The first `i` bytes are there, and ASCII. -/
structure AsciiTo (src : List UInt8) (i : ℕ) : Prop where
  le : i ≤ src.length
  ascii : ∀ b ∈ src.take i, b < 0x80

theorem AsciiTo.word {src : List UInt8} {i : ℕ} (h : AsciiTo src i) (hlen : i + 8 ≤ src.length)
    (hword : word (src.drop i) &&& high = 0) : AsciiTo src (i + 8) := by
  refine ⟨hlen, fun b hb => ?_⟩
  rw [List.take_add, List.mem_append] at hb
  rcases hb with hb | hb
  · exact h.ascii b hb
  · obtain ⟨j, hj, rfl⟩ := List.mem_iff_getElem.mp hb
    have hj8 : j < 8 := by
      rw [List.length_take] at hj
      omega
    have hbyte := (word_and_high _).mp hword j hj8
    rw [List.length_take] at hj
    rw [List.getD_eq_getElem?_getD, List.getElem?_eq_getElem (by omega), Option.getD_some] at hbyte
    rwa [List.getElem_take]

/-- The prefix is the leading run of ASCII bytes. -/
theorem AsciiTo.takeWhile {src : List UInt8} {i : ℕ} (h : AsciiTo src i) :
    i + ((src.drop i).takeWhile (· < 0x80)).length = (src.takeWhile (· < 0x80)).length := by
  have hall : ∀ b ∈ src.take i, decide (b < 0x80) = true :=
    fun b hb => decide_eq_true (h.ascii b hb)
  conv_rhs => rw [← List.take_append_drop i src, List.takeWhile_append_of_pos hall]
  rw [List.length_append, List.length_take, Nat.min_eq_left h.le]

theorem asciiRound_spec (src : List UInt8) (i : ℕ) (h : AsciiTo src i) :
    Loop.Round (AsciiTo src) (fun i => src.length - i) (AsciiTo src) i (asciiRound src i) := by
  unfold asciiRound
  dsimp only
  split_ifs with hlen hwords
  · exact h
  · rw [not_ne_iff, or_and_eq_zero, or_and_eq_zero, or_and_eq_zero] at hwords
    obtain ⟨⟨⟨h0, h8⟩, h16⟩, h24⟩ := hwords
    have := (((h.word (by omega) h0).word (by omega) h8).word (by omega) h16).word (by omega) h24
    exact ⟨this, by dsimp only; omega⟩
  · exact h

theorem asciiPrefix_eq (src : List UInt8) :
    asciiPrefix src = (src.takeWhile (· < 0x80)).length := by
  have hstart : AsciiTo src 0 := ⟨Nat.zero_le _, by simp⟩
  have h32 : AsciiTo src (Loop.run (asciiRound src) (src.length + 1) id 0) :=
    Loop.run_spec (AsciiTo src) _ (asciiRound_spec src) hstart (by omega)
  unfold asciiPrefix
  dsimp only
  generalize Loop.run (asciiRound src) (src.length + 1) id 0 = i at h32 ⊢
  have h16 : AsciiTo src (if i + 16 ≤ src.length ∧
      (word (src.drop i) ||| word (src.drop (i + 8))) &&& high = 0 then i + 16 else i) := by
    split_ifs with h
    · obtain ⟨h0, h8⟩ := or_and_eq_zero.mp h.2
      exact (h32.word (by omega) h0).word (by omega) h8
    · exact h32
  generalize (if i + 16 ≤ src.length ∧
    (word (src.drop i) ||| word (src.drop (i + 8))) &&& high = 0 then i + 16 else i) = j at h16 ⊢
  split_ifs with h
  · exact (h16.word h.1 h.2).takeWhile
  · exact h16.takeWhile

/-- What is skipped does not matter to the rest. -/
theorem leads_asciiPrefix (src : List UInt8) :
    leads (some []) (src.drop (asciiPrefix src)) = leads (some []) src := by
  have hsplit : src.takeWhile (· < 0x80) ++ src.dropWhile (· < 0x80) = src :=
    List.takeWhile_append_dropWhile
  have hdrop : src.drop (asciiPrefix src) = src.dropWhile (· < 0x80) := by
    conv_lhs => rw [asciiPrefix_eq, ← hsplit]
    exact List.drop_left' (by rw [hsplit])
  have hascii : ∀ b ∈ src.takeWhile (· < 0x80), b < 0x80 :=
    fun b hb => by simpa using List.all_eq_true.mp List.all_takeWhile b hb
  rw [hdrop, ← congrArg (leads (some [])) hsplit, leads_append, leads_ascii hascii]

/-! ## The table -/

namespace Swar

def accept : UInt64 := 0
def cont1 : UInt64 := 6
def cont2 : UInt64 := 12
def afterE0 : UInt64 := 18
def afterED : UInt64 := 24
def afterF0 : UInt64 := 30
def afterF1 : UInt64 := 36
def afterF4 : UInt64 := 42
def reject : UInt64 := 48

def states : List UInt64 :=
  [accept, cont1, cont2, afterE0, afterED, afterF0, afterF1, afterF4, reject]

/-- `transition`. -/
def transition (state : UInt64) (b : UInt8) : UInt64 :=
  let within (lo hi : UInt8) : Bool := b ≥ lo && b ≤ hi
  if state = accept then
    if b < 0x80 then accept
    else if within 0xc2 0xdf then cont1
    else if b = 0xe0 then afterE0
    else if b = 0xed then afterED
    else if within 0xe1 0xef then cont2
    else if b = 0xf0 then afterF0
    else if within 0xf1 0xf3 then afterF1
    else if b = 0xf4 then afterF4
    else reject
  else if state = cont1 then if within 0x80 0xbf then accept else reject
  else if state = cont2 then if within 0x80 0xbf then cont1 else reject
  else if state = afterE0 then if within 0xa0 0xbf then cont1 else reject
  else if state = afterED then if within 0x80 0x9f then cont1 else reject
  else if state = afterF0 then if within 0x90 0xbf then cont2 else reject
  else if state = afterF1 then if within 0x80 0xbf then cont2 else reject
  else if state = afterF4 then if within 0x80 0x8f then cont2 else reject
  else reject

/-- The entry of `dfa` for a byte. -/
def dfa (b : UInt8) : UInt64 :=
  states.foldl (fun entry s => entry ||| transition s b <<< s) 0

/-- One look-up. -/
def next (state : UInt64) (b : UInt8) : UInt64 :=
  dfa b >>> (state &&& 63)

/-- The loops of `Valid`, eight bytes at a time and then one by one. -/
def validWords (state : UInt64) : List UInt8 → Bool
  | s0 :: s1 :: s2 :: s3 :: s4 :: s5 :: s6 :: s7 :: rest =>
    -- back in the accepting state, ASCII is skipped in words again
    if state &&& 63 = accept ∧ word [s0, s1, s2, s3, s4, s5, s6, s7] &&& high = 0 then
      validWords state rest
    else
      let state := [s0, s1, s2, s3, s4, s5, s6, s7].foldl next state
      if state &&& 63 = reject then false else validWords state rest
  | rest => rest.foldl next state &&& 63 = accept

/-- The portable `Valid`. -/
def valid (src : List UInt8) : Bool :=
  let i := asciiPrefix src
  if i = src.length then true
  else if src.length - i < 16 then utf8Valid (src.drop i)
  else validWords 0 (src.drop i)

/-- The nine states, with the ranges each is owed. -/
def places : List (UInt64 × Option (List Range)) :=
  [(accept, some []),
   (cont1, some [Utf8.tail]),
   (cont2, some [Utf8.tail, Utf8.tail]),
   (afterE0, some [(0xA0, 0xBF), Utf8.tail]),
   (afterED, some [(0x80, 0x9F), Utf8.tail]),
   (afterF0, some [(0x90, 0xBF), Utf8.tail, Utf8.tail]),
   (afterF1, some [Utf8.tail, Utf8.tail, Utf8.tail]),
   (afterF4, some [(0x80, 0x8F), Utf8.tail, Utf8.tail]),
   (reject, none)]

/-- The word's low six bits stand for the ranges owed. -/
def Stands (state : UInt64) (owed : Option (List Range)) : Prop :=
  (state &&& 63, owed) ∈ places

/-! ## Six bits a state -/

theorem testBit_entry (f : UInt64 → UInt64) (k : ℕ) : ∀ (ss : List UInt64) (w : UInt64),
    (ss.foldl (fun e s => e ||| f s <<< s) w).toNat.testBit k =
      (w.toNat.testBit k || ss.any fun s => (f s <<< s).toNat.testBit k)
  | [], w => by simp
  | s :: ss, w => by
    rw [List.foldl_cons, testBit_entry f k ss, UInt64.toNat_or, Nat.testBit_or, List.any_cons,
      Bool.or_assoc]

theorem testBit_slot {t s : UInt64} (ht : t.toNat < 64) (hs : s.toNat ≤ 58) (k : ℕ) :
    (t <<< s).toNat.testBit k = (decide (s.toNat ≤ k) && t.toNat.testBit (k - s.toNat)) := by
  have hmod : s.toNat % 64 = s.toNat := Nat.mod_eq_of_lt (by omega)
  have hlt : t.toNat <<< s.toNat < 2 ^ 64 := by
    rw [Nat.shiftLeft_eq]
    calc t.toNat * 2 ^ s.toNat < 2 ^ 6 * 2 ^ s.toNat :=
          Nat.mul_lt_mul_of_pos_right ht (Nat.two_pow_pos _)
      _ = 2 ^ (6 + s.toNat) := (Nat.pow_add 2 6 _).symm
      _ ≤ 2 ^ 64 := Nat.pow_le_pow_right (by decide) (by omega)
  rw [UInt64.toNat_shiftLeft, hmod, Nat.mod_eq_of_lt hlt, Nat.testBit_shiftLeft]

/-- A number below 64 has no bit from the sixth on. -/
theorem testBit_high {t : UInt64} (ht : t.toNat < 64) {k : ℕ} (hk : 6 ≤ k) :
    t.toNat.testBit k = false := by
  have hpow : 2 ^ 6 ≤ 2 ^ k := Nat.pow_le_pow_right (by decide) hk
  exact Nat.testBit_lt_two_pow (by omega)

/-- Values below 64, packed at multiples of six, are read back by a shift. -/
theorem entry_shiftRight (f : UInt64 → UInt64) {ss : List UInt64}
    (hss : ∀ s ∈ ss, s.toNat ≤ 58 ∧ s.toNat % 6 = 0 ∧ (f s).toNat < 64) {s : UInt64} (hs : s ∈ ss) :
    (ss.foldl (fun e s => e ||| f s <<< s) 0) >>> s &&& 63 = f s := by
  obtain ⟨hle, hmod, hlt⟩ := hss s hs
  have hshift : s.toNat % 64 = s.toNat := Nat.mod_eq_of_lt (by omega)
  have h63 : (63 : UInt64).toNat = 2 ^ 6 - 1 := rfl
  apply UInt64.toNat_inj.mp
  apply Nat.eq_of_testBit_eq
  intro k
  rw [UInt64.toNat_and, UInt64.toNat_shiftRight, hshift, Nat.testBit_and, Nat.testBit_shiftRight,
    testBit_entry, h63, Nat.testBit_two_pow_sub_one]
  by_cases hk : k < 6
  · have hany : (ss.any fun s' => (f s' <<< s').toNat.testBit (s.toNat + k)) =
        (f s).toNat.testBit k := by
      rw [Bool.eq_iff_iff, List.any_eq_true]
      constructor
      · rintro ⟨s', hs', hbit⟩
        obtain ⟨hle', hmod', hlt'⟩ := hss s' hs'
        rw [testBit_slot hlt' hle', Bool.and_eq_true, decide_eq_true_eq] at hbit
        have hsix : s.toNat + k - s'.toNat < 6 := by
          by_contra hge
          rw [testBit_high hlt' (Nat.not_lt.mp hge)] at hbit
          exact absurd hbit.2 (by decide)
        -- two multiples of six less than six apart
        have heq : s' = s := UInt64.toNat_inj.mp (by omega)
        rw [heq, Nat.add_sub_cancel_left] at hbit
        exact hbit.2
      · intro hbit
        refine ⟨s, hs, ?_⟩
        rw [testBit_slot hlt hle, Nat.add_sub_cancel_left, hbit]
        simp
    rw [hany, decide_eq_true hk]
    simp
  · rw [testBit_high hlt (Nat.not_lt.mp hk), decide_eq_false hk, Bool.and_false]

/-- The first byte of a sequence. -/
theorem transition_accept : ∀ b : UInt8, (transition accept b, Utf8.step Utf8.rows [] b) ∈ places :=
  Utf8.forall_byte (by decide +kernel)

/-- A byte that is owed. -/
theorem transition_owed {state done : UInt64} {r : Range} {rs : List Range} {b : UInt8}
    (h : transition state b = if r.has b then done else reject) (hdone : (done, some rs) ∈ places) :
    (transition state b, Utf8.step Utf8.rows (r :: rs) b) ∈ places := by
  rw [h, Utf8.step, Utf8.enter]
  cases r.has b with
  | false => simp [places]
  | true => exact hdone

/-- One transition, from every state at every byte, is one step of the machine. -/
theorem transition_step (b : UInt8) : ∀ p ∈ places,
    (transition p.1 b, p.2.bind (Utf8.step Utf8.rows · b)) ∈ places := by
  have hlost : transition reject b = reject := rfl
  simp only [places, List.forall_mem_cons, Option.bind_some, Option.bind_none, hlost]
  refine ⟨transition_accept b, transition_owed rfl ?_, transition_owed rfl ?_,
    transition_owed rfl ?_, transition_owed rfl ?_, transition_owed rfl ?_, transition_owed rfl ?_,
    transition_owed rfl ?_, ?_, fun p hp => absurd hp List.not_mem_nil⟩
  all_goals simp [places]

/-- The states are multiples of six below sixty-four ; only the accepting one is owed nothing, and
only the rejecting one is lost. -/
theorem places_facts : ∀ p ∈ places, (p.1.toNat ≤ 58 ∧ p.1.toNat % 6 = 0) ∧
    (p.1 = accept ↔ p.2 = some []) ∧ (p.1 = reject ↔ p.2 = none) := by
  decide +kernel

theorem map_places : places.map Prod.fst = states := rfl

/-- One look-up is one step of the machine. -/
theorem next_step {state : UInt64} {owed : Option (List Range)} (h : Stands state owed)
    (b : UInt8) : Stands (next state b) (owed.bind (Utf8.step Utf8.rows · b)) := by
  have hfit : ∀ s ∈ states, s.toNat ≤ 58 ∧ s.toNat % 6 = 0 ∧ (transition s b).toNat < 64 := by
    intro s hs
    rw [← map_places] at hs
    obtain ⟨p, hp, rfl⟩ := List.mem_map.mp hs
    have hnext := (places_facts _ (transition_step b p hp)).1.1
    exact ⟨(places_facts p hp).1.1, (places_facts p hp).1.2, by dsimp only at hnext; omega⟩
  have hread : next state b &&& 63 = transition (state &&& 63) b :=
    entry_shiftRight (transition · b) hfit (map_places ▸ List.mem_map_of_mem h)
  rw [Stands, hread]
  exact transition_step b _ h

theorem foldl_next : ∀ (s : List UInt8) {state : UInt64} {owed : Option (List Range)},
    Stands state owed → Stands (s.foldl next state) (leads owed s)
  | [], _, _, h => h
  | b :: s, _, _, h => foldl_next s (next_step h b)

theorem Stands.accept_iff {state : UInt64} {owed : Option (List Range)} (h : Stands state owed) :
    state &&& 63 = accept ↔ owed = some [] :=
  (places_facts _ h).2.1

theorem Stands.reject_iff {state : UInt64} {owed : Option (List Range)} (h : Stands state owed) :
    state &&& 63 = reject ↔ owed = none :=
  (places_facts _ h).2.2

/-! ## The loops -/

theorem validWords_eq (state : UInt64) (s : List UInt8) : ∀ {owed : Option (List Range)},
    Stands state owed → validWords state s = decide (leads owed s = some []) := by
  fun_induction validWords state s with
  | case1 state s0 s1 s2 s3 s4 s5 s6 s7 rest hskip ih =>
    intro owed h
    have hascii : ∀ b ∈ [s0, s1, s2, s3, s4, s5, s6, s7], b < 0x80 := by
      intro b hb
      obtain ⟨i, hi, rfl⟩ := List.mem_iff_getElem.mp hb
      have hbyte := (word_and_high _).mp hskip.2 i hi
      rwa [List.getD_eq_getElem?_getD, List.getElem?_eq_getElem hi, Option.getD_some] at hbyte
    obtain rfl := h.accept_iff.mp hskip.1
    have hleads := leads_append (some []) [s0, s1, s2, s3, s4, s5, s6, s7] rest
    rw [leads_ascii hascii] at hleads
    rw [ih h]
    exact congrArg (fun o => decide (o = some [])) hleads.symm
  | case2 state s0 s1 s2 s3 s4 s5 s6 s7 rest hskip st =>
    rename_i hreject
    intro owed h
    have hleads := leads_append owed [s0, s1, s2, s3, s4, s5, s6, s7] rest
    rw [(foldl_next _ h).reject_iff.mp hreject, leads_none] at hleads
    exact congrArg (fun o => decide (o = some [])) hleads.symm
  | case3 state s0 s1 s2 s3 s4 s5 s6 s7 rest hskip st hgo =>
    rename_i ih
    intro owed h
    have hleads := leads_append owed [s0, s1, s2, s3, s4, s5, s6, s7] rest
    rw [ih (foldl_next _ h)]
    exact congrArg (fun o => decide (o = some [])) hleads.symm
  | case4 state rest hshort =>
    intro owed h
    exact decide_eq_decide.mpr (foldl_next rest h).accept_iff

/-- The portable `Valid` is the machine, run over the whole string. -/
theorem valid_eq (src : List UInt8) : valid src = decide (leads (some []) src = some []) := by
  have hskip := leads_asciiPrefix src
  unfold valid
  dsimp only
  split_ifs with hall hshort
  · rw [hall, List.drop_length] at hskip
    exact (decide_eq_true hskip.symm).symm
  · rw [utf8Valid_eq, hskip]
  · have hstart : Stands 0 (some []) := List.mem_cons_self
    rw [validWords_eq 0 _ hstart, hskip]

/-- The portable `Valid` is `unicode/utf8.Valid`, and accepts well-formed UTF-8 and nothing
else. -/
theorem valid_exact (src : List UInt8) :
    valid src = utf8Valid src ∧ (valid src = true ↔ Utf8.WellFormed src) := by
  rw [utf8Valid_eq, valid_eq, decide_eq_true_eq]
  exact ⟨rfl, Utf8.leads_iff src⟩

end Swar

end Ews
