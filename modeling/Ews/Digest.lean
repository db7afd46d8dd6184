import Ews.Bytes

/-!
# SHA-1 and base64

The two algorithms behind an opening handshake. `Base64.decode_encode` is the law the handshake
needs, and `Base64.encode_all` says what an encoded text is made of : a property of the letters and
of the padding holds of all of it. Decoding skips line ends and refuses every other byte that base64
does not write (`Base64.decode_eq_none`).
-/

open Bytes

/-! ## SHA-1 -/

namespace Sha1

/-- The chaining value. -/
structure State where
  a : UInt32
  b : UInt32
  c : UInt32
  d : UInt32
  e : UInt32

def init : State :=
  ⟨0x67452301, 0xEFCDAB89, 0x98BADCFE, 0x10325476, 0xC3D2E1F0⟩

def rotateLeft (x k : UInt32) : UInt32 :=
  (x <<< k) ||| (x >>> (32 - k))

/-- The function of round `t`, with its constant. -/
def mix (t : ℕ) (b c d : UInt32) : UInt32 :=
  if t < 20 then ((b &&& c) ||| (~~~b &&& d)) + 0x5A827999
  else if t < 40 then (b ^^^ c ^^^ d) + 0x6ED9EBA1
  else if t < 60 then ((b &&& c) ||| (b &&& d) ||| (c &&& d)) + 0x8F1BBCDC
  else (b ^^^ c ^^^ d) + 0xCA62C1D6

def round (t : ℕ) (w : UInt32) (s : State) : State :=
  ⟨rotateLeft s.a 5 + mix t s.b s.c s.d + s.e + w, s.a, rotateLeft s.b 30, s.c, s.d⟩

/-- The word of the schedule that follows sixteen words. -/
def next : List UInt32 → UInt32
  | [w₀, _, w₂, _, _, _, _, _, w₈, _, _, _, _, w₁₃, _, _] =>
    rotateLeft (w₁₃ ^^^ w₈ ^^^ w₂ ^^^ w₀) 1
  | _ => 0

/-- `n` rounds from round `t` on, with the sixteen words of the schedule from there. -/
def rounds : (n t : ℕ) → List UInt32 → State → State
  | n + 1, t, w :: ws, s => rounds n (t + 1) (ws ++ [next (w :: ws)]) (round t w s)
  | _, _, _, s => s

/-- A block of sixteen words. -/
def block (s : State) (ws : List UInt32) : State :=
  let r := rounds 80 0 ws s
  ⟨s.a + r.a, s.b + r.b, s.c + r.c, s.d + r.d, s.e + r.e⟩

def words : List UInt8 → List UInt32
  | a :: b :: c :: d :: bs => UInt32.ofNat (beNat [a, b, c, d]) :: words bs
  | _ => []

/-- The message with its padding, in blocks of 64 bytes. -/
def padded (msg : List UInt8) : List UInt8 :=
  msg ++ 0x80 :: List.replicate ((119 - msg.length % 64) % 64) 0 ++ beBytes 8 (8 * msg.length)

def blocks : ℕ → List UInt32 → State → State
  | 0, _, s => s
  | n + 1, ws, s => blocks n (ws.drop 16) (block s (ws.take 16))

/-- The digest of a message. -/
def sum (msg : List UInt8) : List UInt8 :=
  let ws := words (padded msg)
  let s := blocks (ws.length / 16) ws init
  [s.a, s.b, s.c, s.d, s.e].flatMap fun w => beBytes 4 w.toNat

end Sha1

/-! ## Base64 -/

namespace Base64

/-- The letter of a number below 64. -/
def letter (n : ℕ) : UInt8 :=
  UInt8.ofNat
    (if n < 26 then n + 65 else if n < 52 then n + 71 else if n < 62 then n - 4
      else if n = 62 then 43 else 47)

/-- The number of a letter. -/
def value (c : UInt8) : Option ℕ :=
  if 65 ≤ c ∧ c ≤ 90 then some (c.toNat - 65)
  else if 97 ≤ c ∧ c ≤ 122 then some (c.toNat - 71)
  else if 48 ≤ c ∧ c ≤ 57 then some (c.toNat + 4)
  else if c = 43 then some 62
  else if c = 47 then some 63
  else none

def pad : UInt8 := 61

/-- Three bytes become four letters, and the last group is padded. -/
def encode : List UInt8 → List UInt8
  | [] => []
  | [a] => [letter (a.toNat / 4), letter (a.toNat % 4 * 16), pad, pad]
  | [a, b] =>
    [letter (a.toNat / 4), letter (a.toNat % 4 * 16 + b.toNat / 16), letter (b.toNat % 16 * 4), pad]
  | a :: b :: c :: bs =>
    letter (a.toNat / 4) :: letter (a.toNat % 4 * 16 + b.toNat / 16) ::
      letter (b.toNat % 16 * 4 + c.toNat / 64) :: letter (c.toNat % 64) :: encode bs

/-- Only the last group may be padded. -/
def groups : List UInt8 → Option (List UInt8)
  | [] => some []
  | a :: b :: c :: d :: cs =>
    match value a, value b, value c, value d with
    | some x, some y, some z, some u =>
      (groups cs).map fun bs =>
        UInt8.ofNat (x * 4 + y / 16) :: UInt8.ofNat (y % 16 * 16 + z / 4) ::
          UInt8.ofNat (z % 4 * 64 + u) :: bs
    | some x, some y, some z, none =>
      if d = pad ∧ cs = [] then
        some [UInt8.ofNat (x * 4 + y / 16), UInt8.ofNat (y % 16 * 16 + z / 4)]
      else none
    | some x, some y, none, none =>
      if c = pad ∧ d = pad ∧ cs = [] then some [UInt8.ofNat (x * 4 + y / 16)] else none
    | _, _, _, _ => none
  | _ => none

/-- Line ends are skipped. -/
def decode (s : List UInt8) : Option (List UInt8) :=
  groups (s.filter fun c => c != 0x0a && c != 0x0d)

theorem value_letter : ∀ n < 64, value (letter n) = some n := by
  decide

theorem value_pad : value pad = none := by
  decide

/-- What holds of the letters and of the padding holds of an encoded text. -/
theorem encode_all {p : UInt8 → Bool} (letters : ∀ n < 64, p (letter n) = true)
    (padding : p pad = true) : ∀ bs : List UInt8, (encode bs).all p = true
  | [] => rfl
  | [a] => by
    have ha := a.toNat_lt
    simp [encode, letters (a.toNat / 4) (by omega), letters (a.toNat % 4 * 16) (by omega), padding]
  | [a, b] => by
    have ha := a.toNat_lt
    have hb := b.toNat_lt
    simp [encode, letters (a.toNat / 4) (by omega),
      letters (a.toNat % 4 * 16 + b.toNat / 16) (by omega),
      letters (b.toNat % 16 * 4) (by omega), padding]
  | a :: b :: c :: bs => by
    have ha := a.toNat_lt
    have hb := b.toNat_lt
    have hc := c.toNat_lt
    simp [encode, letters (a.toNat / 4) (by omega),
      letters (a.toNat % 4 * 16 + b.toNat / 16) (by omega),
      letters (b.toNat % 16 * 4 + c.toNat / 64) (by omega), letters (c.toNat % 64) (by omega),
      encode_all letters padding bs]

/-- The bits of a byte that two letters carry. -/
theorem ofNat_eq {a : UInt8} {n : ℕ} (h : n = a.toNat) : UInt8.ofNat n = a := by
  rw [h, UInt8.ofNat_toNat]

theorem groups_encode : ∀ bs : List UInt8, groups (encode bs) = some bs
  | [] => rfl
  | [a] => by
    have ha := a.toNat_lt
    have hx : a.toNat / 4 * 4 + a.toNat % 4 * 16 / 16 = a.toNat := by omega
    simp only [encode, groups, value_letter (a.toNat / 4) (by omega),
      value_letter (a.toNat % 4 * 16) (by omega), value_pad, ofNat_eq hx, and_self, if_true]
  | [a, b] => by
    have ha := a.toNat_lt
    have hb := b.toNat_lt
    have hx : a.toNat / 4 * 4 + (a.toNat % 4 * 16 + b.toNat / 16) / 16 = a.toNat := by omega
    have hy : (a.toNat % 4 * 16 + b.toNat / 16) % 16 * 16 + b.toNat % 16 * 4 / 4 = b.toNat := by omega
    simp only [encode, groups, value_letter (a.toNat / 4) (by omega),
      value_letter (a.toNat % 4 * 16 + b.toNat / 16) (by omega),
      value_letter (b.toNat % 16 * 4) (by omega), value_pad, ofNat_eq hx, ofNat_eq hy, and_self,
      if_true]
  | a :: b :: c :: bs => by
    have ha := a.toNat_lt
    have hb := b.toNat_lt
    have hc := c.toNat_lt
    have hx : a.toNat / 4 * 4 + (a.toNat % 4 * 16 + b.toNat / 16) / 16 = a.toNat := by omega
    have hy : (a.toNat % 4 * 16 + b.toNat / 16) % 16 * 16 + (b.toNat % 16 * 4 + c.toNat / 64) / 4 =
        b.toNat := by omega
    have hz : (b.toNat % 16 * 4 + c.toNat / 64) % 4 * 64 + c.toNat % 64 = c.toNat := by omega
    simp only [encode, groups, value_letter (a.toNat / 4) (by omega),
      value_letter (a.toNat % 4 * 16 + b.toNat / 16) (by omega),
      value_letter (b.toNat % 16 * 4 + c.toNat / 64) (by omega),
      value_letter (c.toNat % 64) (by omega), groups_encode bs, ofNat_eq hx, ofNat_eq hy,
      ofNat_eq hz, Option.map_some]

/-- What was encoded is decoded. -/
theorem decode_encode (bs : List UInt8) : decode (encode bs) = some bs := by
  have hall : (encode bs).all (fun c => c != 0x0a && c != 0x0d) = true :=
    encode_all (by decide) (by decide) bs
  rw [decode, List.filter_eq_self.mpr (List.all_eq_true.mp hall), groups_encode]

/-- A byte that base64 does not write, and that is no line end. -/
def Foreign (c : UInt8) : Prop :=
  value c = none ∧ c ≠ pad ∧ c ≠ 0x0a ∧ c ≠ 0x0d

theorem groups_eq_none {c : UInt8} (hc : Foreign c) : ∀ {s : List UInt8}, c ∈ s → groups s = none
  | [], h => by cases h
  | [_], _ => rfl
  | [_, _], _ => rfl
  | [_, _, _], _ => rfl
  | a :: b :: d :: e :: cs, h => by
    have hne : ∀ {x : UInt8} {n : ℕ}, value x = some n → c ≠ x := by
      rintro x n hx rfl
      cases hc.1.symm.trans hx
    simp only [List.mem_cons] at h
    rw [groups]
    split
    · rename_i ha hb hd he
      have hcs : c ∈ cs := by simpa [hne ha, hne hb, hne hd, hne he] using h
      rw [groups_eq_none hc hcs]
      rfl
    · rename_i ha hb hd _
      refine if_neg ?_
      rintro ⟨rfl, rfl⟩
      simp [hne ha, hne hb, hne hd, hc.2.1] at h
    · rename_i ha hb _ _
      refine if_neg ?_
      rintro ⟨rfl, rfl, rfl⟩
      simp [hne ha, hne hb, hc.2.1] at h
    · rfl

theorem decode_eq_none {c : UInt8} (hc : Foreign c) {s : List UInt8} (h : c ∈ s) :
    decode s = none :=
  groups_eq_none hc (List.mem_filter.mpr ⟨h, by simp [hc.2.2.1, hc.2.2.2]⟩)

end Base64
