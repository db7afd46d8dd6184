import Ews.Within

/-!
# Passing through a stream of messages

`Passed c l c'` is what remains of `Went` when the flags of a connection are set
between calls : the events `l` are behind it. `stand` follows the place in a message
through events. `Calm c k` says that nothing but the stream itself can stop a reader that
stands at `k` : reads give bytes or errors, the handler goes on, and no error of the
transport comes while a message is open. A calm reader that stops inside a message was in
one that the stream does not complete (`Broke.emit_eq_nil`).
-/

set_option linter.unusedSectionVars false

namespace Ews

/-! ## Places -/

/-- The place in a message, none at its end. -/
def Cursor.place (k : Cursor) : Option Cursor :=
  if k.ended then none else some k

theorem Cursor.place_of_ended {k : Cursor} (h : k.ended = true) : k.place = none := by
  simp [place, h]

theorem Cursor.place_of_not_ended {k : Cursor} (h : k.ended = false) : k.place = some k := by
  simp [place, h]

/-- The place after an event. -/
def Event.move (cur : Option Cursor) : Event → Option Cursor
  | .byte _ => cur.bind fun k => Cursor.place ⟨k.left - 1, k.final⟩
  | .data final _ _ length => Cursor.place ⟨length, final⟩
  | .control _ _ => cur
  | .fail _ => cur

/-- The place after a sequence of events. -/
def stand (cur : Option Cursor) (es : List Event) : Option Cursor :=
  es.foldl Event.move cur

@[simp] theorem stand_nil (cur : Option Cursor) : stand cur [] = cur := rfl

@[simp] theorem stand_append (cur : Option Cursor) (es es' : List Event) :
    stand cur (es ++ es') = stand (stand cur es) es' :=
  List.foldl_append

theorem stand_pings (cur : Option Cursor) : ∀ es : List Event, (∀ e ∈ es, e.IsPing) →
    stand cur es = cur
  | [], _ => rfl
  | e :: es, h => by
    have he := h e List.mem_cons_self
    cases e with
    | control op p => exact stand_pings cur es fun e he => h e (List.mem_cons_of_mem _ he)
    | _ => exact he.elim

/-- Going through events of a message keeps track of the place. -/
theorem stand_scan : ∀ (es : List Event) {k k' : Cursor} {p : List UInt8},
    scan k es = some (p, k') → stand k.place es = k'.place
  | [], k, k', p, h => by
    simp only [scan, Option.some.injEq, Prod.mk.injEq] at h
    rw [h.2, stand_nil]
  | .byte b :: es, k, k', p, h => by
    simp only [scan] at h
    split_ifs at h with h0
    obtain ⟨x, hx, hxe⟩ := Option.map_eq_some_iff.mp h
    obtain ⟨rfl, rfl⟩ := Prod.mk.inj hxe
    have hk : k.place = some k := Cursor.place_of_not_ended (by simp [Cursor.ended, h0])
    rw [hk]
    exact stand_scan es hx
  | .control op q :: es, k, k', p, h => by
    simp only [scan] at h
    split_ifs at h with h0
    exact stand_scan es h
  | .data final rsv1 op length :: es, k, k', p, h => by
    simp only [scan] at h
    split_ifs at h with h0
    exact stand_scan es h
  | .fail code :: es, k, k', p, h => by simp [scan] at h

/-! ## Passing -/

namespace ReadSide

/-- The events `l` lie between `c` and `c'`. -/
structure Passed (c : ReadSide) (l : List Event) (c' : ReadSide) : Prop where
  settings : c'.settings = c.settings
  rules : c'.rx.rules = c.rx.rules
  input : ∃ bs : List UInt8, c.transport.symbols = bs.map .inl ++ c'.transport.symbols ∧
    ∀ fut, c.rx.expected (bs ++ fut) = l ++ c'.rx.expected fut
  steady : c.transport.Steady → c'.transport.Steady
  calls : c'.calls = c.calls ++ controls l
  direct : ∀ d ∈ c'.direct, d ∈ c.direct ∨ d.pending = 0 ∧ d.got ≤ d.remaining
  closes : c'.closes = c.closes

theorem Went.passed {c c' : ReadSide} {l : List Event} (h : Went c l c') : Passed c l c' :=
  ⟨h.settings, h.rules, h.input, h.steady, h.calls, h.direct, h.closes⟩

theorem Passed.refl (c : ReadSide) : Passed c [] c :=
  ⟨rfl, rfl, ⟨[], rfl, fun _ => rfl⟩, id, (List.append_nil _).symm, fun _ hd => Or.inl hd, rfl⟩

theorem Passed.trans {c c' c'' : ReadSide} {l l' : List Event} (h : Passed c l c')
    (h' : Passed c' l' c'') : Passed c (l ++ l') c'' where
  settings := h'.settings.trans h.settings
  rules := h'.rules.trans h.rules
  input := by
    obtain ⟨bs, hs, hb⟩ := h.input
    obtain ⟨bs', hs', hb'⟩ := h'.input
    refine ⟨bs ++ bs', ?_, fun fut => ?_⟩
    · rw [hs, hs', List.map_append, List.append_assoc]
    · rw [List.append_assoc, hb, hb', List.append_assoc]
  steady := h'.steady ∘ h.steady
  calls := by rw [h'.calls, h.calls, controls_append, List.append_assoc]
  direct := fun d hd => (h'.direct d hd).elim (h.direct d) Or.inr
  closes := h'.closes.trans h.closes

/-- The flags of a connection do not matter to what it has passed. -/
theorem Passed.flags {c c' : ReadSide} {l : List Event} (h : Passed c l c')
    (inMessage streaming : Bool) :
    Passed c l { c' with inMessage := inMessage, streaming := streaming } :=
  ⟨h.settings, h.rules, h.input, h.steady, h.calls, h.direct, h.closes⟩

theorem Passed.todo {c c' : ReadSide} {l : List Event} (h : Passed c l c') :
    c.todo = l ++ c'.todo := by
  obtain ⟨bs, hs, hb⟩ := h.input
  rw [ReadSide.todo, Transport.bytes_append hs, hb]
  rfl

theorem Passed.clean {c c' : ReadSide} {l : List Event} (h : Passed c l c')
    (hc : c.transport.Clean) : c'.transport.Clean := by
  obtain ⟨bs, hs, -⟩ := h.input
  intro e he
  exact hc e (by rw [hs]; exact List.mem_append_right _ he)

/-! ## Calm readers -/

/-- Nothing but the stream can stop a reader at `k`. -/
structure Calm (c : ReadSide) (k : Option Cursor) : Prop where
  steady : c.transport.Steady
  handler : ∀ calls ev, c.settings.handler calls ev = none
  clear : ∀ pre e post, c.transport.symbols = pre ++ .inr e :: post →
    stand k (c.rx.expected (pre.filterMap Sum.getLeft?)) = none

/-- A transport without errors. -/
theorem Calm.of_clean {c : ReadSide} (k : Option Cursor) (steady : c.transport.Steady)
    (clean : c.transport.Clean) (handler : ∀ calls ev, c.settings.handler calls ev = none) :
    Calm c k :=
  ⟨steady, handler, fun pre e post h => absurd (by rw [h]; simp) (clean e)⟩

theorem Calm.passed {c c' : ReadSide} {k : Option Cursor} {l : List Event} (h : Calm c k)
    (hp : Passed c l c') : Calm c' (stand k l) where
  steady := hp.steady h.steady
  handler := by rw [hp.settings]; exact h.handler
  clear := by
    obtain ⟨bs, hs, hb⟩ := hp.input
    intro pre e post hsym
    have hclear := h.clear (bs.map .inl ++ pre) e post (by rw [hs, hsym, List.append_assoc])
    rwa [Transport.filterMap_inl, hb, stand_append] at hclear

/-- An error of the transport takes nothing from what is to come. -/
theorem todo_err {c : ReadSide} {e : Err} {t : Transport}
    (symbols : c.transport.symbols = .inr e :: t.symbols) :
    ReadSide.todo { c with transport := t } = c.todo := by
  rw [todo, todo, Transport.bytes, Transport.bytes, symbols]
  rfl

/-- Past an error of the transport. -/
theorem Calm.err {c : ReadSide} {k : Option Cursor} {e : Err} {t : Transport} (h : Calm c k)
    (symbols : c.transport.symbols = .inr e :: t.symbols)
    (steady : c.transport.Steady → t.Steady) : Calm { c with transport := t } k :=
  ⟨steady h.steady, h.handler, fun pre e' post hsym =>
    h.clear (.inr e :: pre) e' post (by
      rw [symbols, show t.symbols = _ from hsym, List.cons_append])⟩

/-- The transport has nothing to give, for good or for now. -/
theorem Calm.blocked {c : ReadSide} {k : Option Cursor} {e : Err} {t : Transport} (h : Calm c k)
    (blocked : c.transport.Blocked c.rx.idle e t) :
    Calm { c with transport := t } k ∧ ReadSide.todo { c with transport := t } = c.todo := by
  cases blocked with
  | ended symbols =>
    have hsteady : Transport.Steady [] := fun i hi => absurd hi (by simp)
    refine ⟨⟨hsteady, h.handler, fun pre e post hsym => absurd hsym (by simp)⟩, ?_⟩
    rw [todo, todo, Transport.bytes, Transport.bytes, symbols]
    rfl
  | err symbols weight steady => exact ⟨h.err symbols steady, todo_err symbols⟩
  | stalled symbols weight unsteady => exact absurd h.steady unsteady

/-- A calm reader that stops inside a message leaves one the stream does not complete. -/
theorem Broke.emit_eq_nil {c c' : ReadSide} {p : List UInt8} {e : Err} (h : Broke c p e c')
    (calm : Calm c c.cursor.place) (w : WireMessage) : emit w c.cursor c.todo = [] := by
  obtain ⟨stop, hscan, incomplete, place⟩ := h
  cases stop with
  | blocked went live dry blocked =>
    have hcalm := calm.passed went.passed
    rw [stand_scan _ hscan, Cursor.place_of_not_ended incomplete] at hcalm
    rw [went.todo, emit_scan _ _ _ _ hscan]
    cases blocked with
    | ended symbols =>
      rw [todo, Transport.bytes, symbols, List.filterMap_nil, dry, emit_nil incomplete]
    | err symbols weight steady =>
      have := hcalm.clear [] _ _ symbols
      rw [List.filterMap_nil, dry] at this
      exact absurd this (by simp)
    | stalled symbols weight unsteady => exact absurd hcalm.steady unsteady
  | failed went dead =>
    rw [went.todo, List.append_assoc, emit_scan _ _ _ _ hscan]
    exact emit_fail incomplete _ _ _
  | refused went call answer => exact absurd (answer.symm.trans (calm.handler _ _)) (by simp)
  | closed went dead answer =>
    rw [went.todo, List.append_assoc, emit_scan _ _ _ _ hscan]
    exact emit_close incomplete _ _ _

/-- Within a message the messages to come stay the same. -/
theorem Within.emit {c c' : ReadSide} {l : List Event} {p : List UInt8} (h : Within c l p c')
    (w : WireMessage) : Ews.emit w c.cursor c.todo =
      Ews.emit { w with payload := w.payload ++ p } c'.cursor c'.todo := by
  rw [h.toWent.todo, emit_scan _ _ _ _ h.scan]

theorem Within.calm {c c' : ReadSide} {l : List Event} {p : List UInt8} (h : Within c l p c')
    (calm : Calm c c.cursor.place) : Calm c' c'.cursor.place := by
  have := calm.passed h.toWent.passed
  rwa [stand_scan _ h.scan] at this

end ReadSide

end Ews
