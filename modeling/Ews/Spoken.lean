import Ews.Lifecycle
import Ews.Packing
import Ews.WriteSide

/-!
# What frames say

Between what a connection sends and what its peer is told stands the meaning of the frames. A
`Speech` is a sequence of frames that say something : each message plain, or compressed after a
history that the frames before it have said. A `Ledger` is the account of what they say : the calls
they lead to, the message that is not complete, and how it ends.

`script_hears` is the receiving half : a peer whose history covers the reach of the encoder is told
what the frames say. The sending half is that the frames of a connection are a speech.
-/

set_option linter.unusedSectionVars false

namespace Ews

open Bytes ReadSide

/-- What the frame of an item says. -/
def Item.text (i : Item) : List UInt8 :=
  i.plain.getD i.frame.payload

/-! ## Speech -/

/-- A message of which some frames are written : its chunks, and the encoder at its beginning. -/
structure Draft where
  op : Opcode
  compressed : Bool
  kind : EncoderKind
  hist : List UInt8
  chunks : List (List UInt8)

namespace Draft

variable (D : Deflater) (d : Draft)

def text : List UInt8 :=
  d.chunks.flatten

/-- What it adds to the history of the direction. -/
def packed : List UInt8 :=
  if d.compressed then d.text else []

/-- The payloads of its frames. -/
def wire : List UInt8 :=
  if d.compressed then D.chunks d.kind d.hist d.chunks else d.text

/-- The payload of the frame of the next chunk. -/
def payload (final : Bool) (p : List UInt8) : List UInt8 :=
  if d.compressed then D.chunk d.kind final (d.hist ++ d.text) p else p

def add (p : List UInt8) : Draft :=
  { d with chunks := d.chunks ++ [p] }

@[simp] theorem text_add (p : List UInt8) : (d.add p).text = d.text ++ p := by
  simp [text, add]

theorem wire_add (p : List UInt8) : (d.add p).wire D = d.wire D ++ d.payload D false p := by
  unfold wire payload
  cases hc : d.compressed with
  | false => simp [add, hc, text]
  | true => simp [add, hc, Deflater.chunk, Deflater.chunks_concat, text]

end Draft

/-- What was said : the compressed messages that are complete, and the message that is not. -/
structure Spoken where
  said : List UInt8 := []
  draft : Option Draft := none

namespace Spoken

/-- All that was said compressed. -/
def total (σ : Spoken) : List UInt8 :=
  σ.said ++ (σ.draft.map Draft.packed).getD []

/-- The encoder of `d` has not looked further back than `reach`, nor at anything but what was
said, and at nothing if the direction takes no history over. -/
def Recent (reach : ℕ) (takeover : Bool) (said : List UInt8) (d : Draft) : Prop :=
  d.compressed = true → d.kind.window = reach ∧
    lastN reach d.hist <:+ if takeover then said else []

/-- The message a data frame belongs to. -/
inductive Takes (reach : ℕ) (takeover : Bool) (σ : Spoken) (f : Frame) : Draft → Prop
  | going {d : Draft} (draft : σ.draft = some d) : Takes reach takeover σ f d
  | opening {kind : EncoderKind} {hist : List UInt8} (draft : σ.draft = none)
      (recent : Recent reach takeover σ.said ⟨f.opcode, f.rsv1, kind, hist, []⟩) :
      Takes reach takeover σ f ⟨f.opcode, f.rsv1, kind, hist, []⟩

/-- After a chunk of `d`. -/
def after (σ : Spoken) (d : Draft) (final : Bool) (p : List UInt8) : Spoken :=
  if final then ⟨σ.said ++ (d.add p).packed, none⟩ else ⟨σ.said, some (d.add p)⟩

end Spoken

section Speech

variable (D : Deflater) (reach : ℕ) (takeover : Bool)

/-- A data frame says what its item has. -/
inductive Wrote (σ : Spoken) (i : Item) : Spoken → Prop
  | mk {d : Draft} (takes : σ.Takes reach takeover i.frame d)
      (data : i.frame.opcode.isControl = false)
      (payload : i.frame.payload = d.payload D i.frame.final i.text) :
      Wrote σ i (σ.after d i.frame.final i.text)

theorem Wrote.data {σ σ' : Spoken} {i : Item} :
    Wrote D reach takeover σ i σ' → i.frame.opcode.isControl = false
  | ⟨_, data, _⟩ => data

/-- Frames that lead from `σ` to `σ'`. -/
inductive Speech : Spoken → List Item → Spoken → Prop
  | nil {σ : Spoken} : Speech σ [] σ
  | control {σ σ' : Spoken} {i : Item} {is : List Item} (control : i.frame.opcode.isControl = true)
      (rest : Speech σ is σ') : Speech σ (i :: is) σ'
  | data {σ σ' σ'' : Spoken} {i : Item} {is : List Item} (wrote : Wrote D reach takeover σ i σ')
      (rest : Speech σ' is σ'') : Speech σ (i :: is) σ''

variable {D reach takeover} {σ σ' σ'' : Spoken}

theorem Speech.append {is is' : List Item} (h : Speech D reach takeover σ is σ')
    (h' : Speech D reach takeover σ' is' σ'') : Speech D reach takeover σ (is ++ is') σ'' := by
  induction h with
  | nil => exact h'
  | control control _ ih => exact .control control (ih h')
  | data wrote _ ih => exact .data wrote (ih h')

theorem Speech.split : ∀ {is is' : List Item} {σ : Spoken}, Speech D reach takeover σ (is ++ is') σ'' →
    ∃ σ', Speech D reach takeover σ is σ' ∧ Speech D reach takeover σ' is' σ''
  | [], _, σ, h => ⟨σ, .nil, h⟩
  | i :: is, is', σ, h => by
    cases h with
    | control control rest =>
      obtain ⟨σ', h, h'⟩ := Speech.split rest
      exact ⟨σ', .control control h, h'⟩
    | data wrote rest =>
      obtain ⟨σ', h, h'⟩ := Speech.split rest
      exact ⟨σ', .data wrote h, h'⟩

/-- A control frame says nothing. -/
theorem Speech.control_eq {i : Item} (hi : i.frame.opcode.isControl = true)
    (h : Speech D reach takeover σ [i] σ') : σ' = σ := by
  cases h with
  | control _ rest =>
    cases rest
    rfl
  | data wrote rest => cases wrote.data.symm.trans hi

/-- A control frame may go ahead. -/
theorem Speech.ahead {a b : List Item} {i : Item} (hi : i.frame.opcode.isControl = true)
    (h : Speech D reach takeover σ (a ++ b ++ [i]) σ') :
    Speech D reach takeover σ (a ++ [i] ++ b) σ' := by
  obtain ⟨σ₂, hab, hlast⟩ := h.split
  obtain ⟨σ₁, ha, hb⟩ := hab.split
  rw [Speech.control_eq hi hlast]
  exact (ha.append (.control hi .nil)).append hb

end Speech

/-! ## Accounts -/

/-- An account of what was said : the calls, the message that is not complete, and how it ends. -/
structure Ledger where
  told : List Callback := []
  draft : Option (Opcode × List UInt8) := none
  ending : Ending := .ended
  deriving DecidableEq, Repr

namespace Ledger

/-- A chunk of a message, which opens one with the opcode `op` if none is open. -/
def add (l : Ledger) (op : Opcode) (text : List UInt8) (final : Bool) : Ledger :=
  let m := l.draft.getD (op, [])
  if final then { l with told := l.told ++ [.message m.1 (m.2 ++ text)], draft := none }
  else { l with draft := some (m.1, m.2 ++ text) }

/-- How a control frame ends an account, if it does. -/
def endingOf : ControlEvent → Ending
  | .close code reason => .closed code reason
  | _ => .ended

/-- A call of the control handler. -/
def call (l : Ledger) (ev : ControlEvent) : Ledger :=
  { l with told := l.told ++ [.control ev], ending := endingOf ev }

/-- A frame is heard, unless it comes after a close. -/
def hear (l : Ledger) (i : Item) : Ledger :=
  if l.ending ≠ .ended then l
  else if i.frame.opcode.isControl then
    (ControlEvent.ofFrame i.frame.opcode i.frame.payload).elim l l.call
  else l.add i.frame.opcode i.text i.frame.final

theorem hear_ended {l : Ledger} (h : l.ending ≠ .ended) (i : Item) : l.hear i = l :=
  if_pos h

/-- Nothing is heard after the end. -/
theorem hears_ended {l : Ledger} (h : l.ending ≠ .ended) (is : List Item) : is.foldl hear l = l := by
  induction is with
  | nil => rfl
  | cons i is ih => rw [List.foldl_cons, hear_ended h, ih]

theorem hear_control {l : Ledger} (h : l.ending = .ended) {i : Item} {ev : ControlEvent}
    (hi : i.frame.opcode.isControl = true)
    (hev : ControlEvent.ofFrame i.frame.opcode i.frame.payload = some ev) : l.hear i = l.call ev := by
  rw [hear, if_neg (not_not.mpr h), if_pos hi, hev]
  rfl

theorem hear_data {l : Ledger} (h : l.ending = .ended) {i : Item}
    (hi : i.frame.opcode.isControl = false) :
    l.hear i = l.add i.frame.opcode i.text i.frame.final := by
  rw [hear, if_neg (not_not.mpr h), if_neg (by rw [hi]; decide)]

/-- What is told stays told. -/
theorem told_grows : ∀ (is : List Item) (l : Ledger), l.told <+: (is.foldl hear l).told
  | [], l => List.prefix_refl _
  | i :: is, l => by
    refine List.IsPrefix.trans ?_ (told_grows is (l.hear i))
    unfold hear
    split_ifs
    · exact List.prefix_refl _
    · cases ControlEvent.ofFrame i.frame.opcode i.frame.payload with
      | none => exact List.prefix_refl _
      | some ev => exact List.prefix_append _ _
    · unfold add
      dsimp only
      split_ifs
      · exact List.prefix_append _ _
      · exact List.prefix_refl _

end Ledger

/-- Control frames are calls. -/
theorem ofFrame_control {op : Opcode} (h : op.isControl = true) (payload : List UInt8) :
    ∃ ev, ControlEvent.ofFrame op payload = some ev ∧
      (op = .close ↔ ∃ code reason, ev = .close code reason) := by
  have hop : op = .close ∨ op = .ping ∨ op = .pong := by
    simpa [Opcode.isControl, or_assoc] using h
  rcases hop with rfl | rfl | rfl
  · exact ⟨_, rfl, by simp⟩
  · exact ⟨.ping payload, rfl, by simp [Opcode.ping, Opcode.close]⟩
  · exact ⟨.pong payload, rfl, by simp [Opcode.pong, Opcode.close]⟩

/-! ## The receiving half -/

/-- The history of a receiver covers what an encoder with the given reach can look back to. -/
structure Synced (reach : ℕ) (takeover : Bool) (hist : History) (σ : Spoken) : Prop where
  size : reach ≤ hist.size
  keeps : takeover = true → hist.takeover = true
  dict : hist.takeover = true → hist.dict = lastN hist.size σ.said
  draft : ∀ d, σ.draft = some d → Spoken.Recent reach takeover σ.said d

section Receive

variable {D : Deflater} {F : Flate} {reach n : ℕ} {takeover : Bool} {hist : History} {σ : Spoken}

/-- The message on the wire so far. -/
def Spoken.onWire (D : Deflater) (σ : Spoken) : Option WireMessage :=
  σ.draft.map fun d => ⟨d.op, d.compressed, d.wire D⟩

theorem Spoken.Takes.recent {f : Frame} {d : Draft} (h : Synced reach takeover hist σ)
    (takes : σ.Takes reach takeover f d) : Spoken.Recent reach takeover σ.said d := by
  cases takes with
  | going draft => exact h.draft d draft
  | opening _ recent => exact recent

theorem Spoken.Takes.join {f : Frame} {d : Draft} (takes : σ.Takes reach takeover f d) :
    WireMessage.join (σ.onWire D) f = ⟨d.op, d.compressed, d.wire D ++ f.payload⟩ := by
  cases takes with
  | going draft => simp [Spoken.onWire, draft, WireMessage.join]
  | opening draft => simp [Spoken.onWire, draft, WireMessage.join, Draft.wire, Draft.text,
      Deflater.chunks]

theorem Spoken.Takes.getD {f : Frame} {d : Draft} (takes : σ.Takes reach takeover f d) :
    (σ.draft.map fun d => (d.op, d.text)).getD (f.opcode, []) = (d.op, d.text) := by
  cases takes with
  | going draft => simp [draft]
  | opening draft => simp [draft, Draft.text]

/-- The whole message is what its chunks said. -/
theorem content_of_recent (codec : 0 < reach → Codec D F n) (h : Synced reach takeover hist σ) {d : Draft}
    (recent : Spoken.Recent reach takeover σ.said d) {p : List UInt8}
    (hlen : (d.text ++ p).length ≤ n) :
    hist.content F ⟨d.op, d.compressed, d.wire D ++ d.payload D true p⟩ = some (d.text ++ p) := by
  rw [History.content, Draft.wire, Draft.payload]
  cases hc : d.compressed with
  | false => simp
  | true =>
    obtain ⟨hreach, hsuffix⟩ := recent hc
    have hdict : lastN d.kind.window d.hist <:+ hist.dict := by
      rw [hreach]
      cases takeover with
      | false =>
        rw [if_neg Bool.false_ne_true] at hsuffix
        rw [List.suffix_nil.mp hsuffix]
        exact List.nil_suffix
      | true =>
        rw [if_pos rfl] at hsuffix
        rw [h.dict (h.keeps rfl)]
        have hlast := lastN_suffix_lastN (n := hist.size) hsuffix
        rwa [lastN_of_length_le] at hlast
        rw [length_lastN]
        exact (Nat.min_le_left _ _).trans h.size
    exact (codec (hreach ▸ d.kind.window_pos)).inflate (hreach.trans_le h.size) hdict hlen

/-- The history after the message. -/
theorem Synced.after (h : Synced reach takeover hist σ) (d : Draft) (p wire : List UInt8) :
    Synced reach takeover (hist.next ⟨d.op, d.compressed, wire⟩ (d.text ++ p)) (σ.after d true p) := by
  rw [Spoken.after, if_pos rfl, History.next, Draft.packed, Draft.text_add]
  cases hc : d.compressed with
  | false =>
    have hadd : (d.add p).compressed = false := hc
    simp only [hadd, Bool.false_eq_true, if_false, List.append_nil]
    exact ⟨h.size, h.keeps, h.dict, fun d hd => by cases hd⟩
  | true =>
    have hadd : (d.add p).compressed = true := hc
    simp only [hadd, if_true]
    refine ⟨h.size, h.keeps, fun htake => ?_, fun d hd => by cases hd⟩
    have htake : hist.takeover = true := htake
    simp only [htake, if_true, h.dict htake, lastN_append_lastN]

theorem Synced.going (h : Synced reach takeover hist σ) {d : Draft} {f : Frame}
    (takes : σ.Takes reach takeover f d) (p : List UInt8) :
    Synced reach takeover hist (σ.after d false p) := by
  refine ⟨h.size, h.keeps, h.dict, fun d' hd => ?_⟩
  cases hd
  have recent : Spoken.Recent reach takeover σ.said d := takes.recent h
  exact recent

/-- What `frameTurns` makes of a data frame that keeps within the limit. -/
theorem frameTurns_data {limit : ℕ} {cur : Option WireMessage} {f : Frame} {fs : List Frame}
    (data : f.opcode.isControl = false) (fits : .tooLarge ∉ frameTurns limit cur (f :: fs)) :
    (WireMessage.join cur f).payload.length ≤ limit ∧
      frameTurns limit cur (f :: fs) =
        if f.final then .message (.join cur f) :: frameTurns limit none fs
        else frameTurns limit (some (.join cur f)) fs := by
  rw [frameTurns, if_neg (by rw [data]; decide)] at fits ⊢
  by_cases hlim : limit < (WireMessage.join cur f).payload.length
  · rw [if_pos hlim] at fits
    exact absurd List.mem_cons_self fits
  · rw [if_neg hlim]
    exact ⟨Nat.le_of_not_lt hlim, rfl⟩

/-- A receiver that has the history is told what the frames say, if they keep within its limits. -/
theorem script_hears {s : Settings} (codec : 0 < reach → Codec D F s.limit) {σ' : Spoken} :
    ∀ (is : List Item) {σ : Spoken} {hist : History} {l : Ledger},
      Speech D reach takeover σ is σ' → Synced reach takeover hist σ → l.ending = .ended →
      l.draft = σ.draft.map (fun d => (d.op, d.text)) →
      .tooLarge ∉ frameTurns s.limit (σ.onWire D) (is.map Item.frame) →
      (∀ op p, .message op p ∈ (is.foldl Ledger.hear l).told → p.length ≤ s.limit ∧
        (s.validateUTF8 = true → op = .text → utf8Valid p = true)) →
      let out := script F s hist (frameTurns s.limit (σ.onWire D) (is.map Item.frame))
      (is.foldl Ledger.hear l).told = l.told ++ out.1 ∧ (is.foldl Ledger.hear l).ending = out.2
  | [], σ, hist, l, _, _, hend, _, _, _ => by simp [frameTurns, script, narrate, hend]
  | i :: is, σ, hist, l, hspeech, hsync, hend, hdraft, hwire, hfits => by
    rw [List.foldl_cons] at hfits ⊢
    rw [List.map_cons] at hwire ⊢
    cases hspeech with
    | control hi rest =>
      obtain ⟨ev, hev, hclose⟩ := ofFrame_control hi i.frame.payload
      have hturn : frameTurns s.limit (σ.onWire D) (i.frame :: is.map Item.frame) =
          .control ev :: if i.frame.opcode = .close then []
            else frameTurns s.limit (σ.onWire D) (is.map Item.frame) := by
        rw [frameTurns, if_pos hi, controlTurn, hev]
        rfl
      rw [hturn] at hwire ⊢
      rw [Ledger.hear_control hend hi hev] at hfits ⊢
      by_cases hop : i.frame.opcode = .close
      · obtain ⟨code, reason, rfl⟩ := hclose.mp hop
        rw [if_pos hop, Ledger.hears_ended (by simp [Ledger.call, Ledger.endingOf])]
        simp [Ledger.call, Ledger.endingOf, script, narrate]
      · have mild : ∀ code reason, ev ≠ .close code reason := fun code reason h =>
          hop (hclose.mpr ⟨code, reason, h⟩)
        have hcall : (l.call ev).ending = .ended := by
          cases ev with
          | close code reason => exact absurd rfl (mild code reason)
          | _ => rfl
        rw [if_neg hop] at hwire ⊢
        obtain ⟨htold, hending⟩ := script_hears codec is (l := l.call ev) rest hsync hcall hdraft
          (fun h => hwire (List.mem_cons_of_mem _ h)) hfits
        rw [script_control mild, htold, hending]
        simp [Ledger.call]
    | data wrote rest =>
      obtain ⟨takes, data, payload⟩ := wrote
      rename_i d
      obtain ⟨hroom, hturns⟩ := frameTurns_data data hwire
      rw [hturns, takes.join] at hwire ⊢
      rw [takes.join] at hroom
      have hadd : l.hear i = l.add i.frame.opcode i.text i.frame.final := Ledger.hear_data hend data
      have hm : l.draft.getD (i.frame.opcode, []) = (d.op, d.text) := by
        rw [hdraft, takes.getD]
      rw [hadd, Ledger.add, hm] at hfits ⊢
      cases hf : i.frame.final with
      | true =>
        simp only [hf, if_true] at hwire hfits payload rest ⊢
        obtain ⟨hlen, hvalid⟩ := hfits d.op (d.text ++ i.text)
          ((Ledger.told_grows is _).subset (by simp))
        have hcontent := content_of_recent codec hsync (takes.recent hsync) hlen
        rw [← payload] at hcontent
        rw [script_message hcontent ⟨hroom, hlen, hvalid⟩]
        obtain ⟨htold, hending⟩ := script_hears codec is
          (l := { l with told := l.told ++ [.message d.op (d.text ++ i.text)], draft := none }) rest
          (hsync.after d i.text (d.wire D ++ i.frame.payload)) hend rfl (fun h => hwire (List.mem_cons_of_mem _ h)) hfits
        rw [htold, hending]
        simp [Spoken.onWire, Spoken.after]
      | false =>
        simp only [hf, Bool.false_eq_true, if_false] at hwire hfits payload rest ⊢
        have honwire : Spoken.onWire D (σ.after d false i.text) =
            some ⟨d.op, d.compressed, d.wire D ++ i.frame.payload⟩ := by
          rw [Spoken.onWire, Spoken.after, if_neg Bool.false_ne_true, Option.map_some, Draft.wire_add,
            ← payload]
          rfl
        rw [← honwire] at hwire ⊢
        refine script_hears codec is (l := { l with draft := some (d.op, d.text ++ i.text) }) rest
          (hsync.going takes i.text) hend ?_ hwire hfits
        simp [Spoken.after, Draft.add, Draft.text]

end Receive

end Ews
