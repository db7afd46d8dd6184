import Ews.Session

/-!
# From end to end

The two halves are put together. The frames of a run are legal for the peer, up to the close at
least (`upToClose`), so what the peer reads off their bytes is what they say, and what they say is the
ledger of the run.

`session_delivers` is stated for a run that has come to rest : nothing is held, being written or
waiting. The transport of the peer brings the bytes that the transport of the sender accepted, cut in
any way.
-/

set_option linter.unusedSectionVars false

namespace Ews

open Bytes ReadSide

/-! ## Frames after a close -/

/-- The frames up to the first close. -/
def upToClose : List Frame → List Frame
  | [] => []
  | f :: fs => if f.opcode = .close then [f] else f :: upToClose fs

theorem upToClose_eq : ∀ {fs : List Frame}, (∀ f ∈ fs, f.opcode ≠ .close) → upToClose fs = fs
  | [], _ => rfl
  | f :: fs, h => by
    rw [upToClose, if_neg (h f List.mem_cons_self),
      upToClose_eq fun g hg => h g (List.mem_cons_of_mem _ hg)]

theorem stream_upToClose {R : Rules} : ∀ (fs : List Frame) {o : Bool}, R.sequence o fs = true →
    R.stream o (upToClose fs) = true
  | [], _, _ => rfl
  | f :: fs, o, h => by
    obtain ⟨hadm, hrest⟩ := Bool.and_eq_true_iff.mp h
    rw [upToClose]
    split_ifs with hop
    · exact Rules.stream_cons.mpr ⟨hadm, by rw [if_pos hop]⟩
    · exact Rules.stream_cons.mpr ⟨hadm, by rw [if_neg hop]; exact stream_upToClose fs hrest⟩

/-- Nothing is read after a close. -/
theorem events_upToClose {R : Rules} : ∀ (fs : List Frame) {o : Bool}, R.sequence o fs = true →
    R.events o (wire fs) = R.events o (wire (upToClose fs))
  | [], _, _ => rfl
  | f :: fs, o, h => by
    obtain ⟨hadm, hrest⟩ := Bool.and_eq_true_iff.mp h
    rw [upToClose, wire_cons, Rules.events_frame hadm]
    split_ifs with hop
    · rw [wire_cons, Rules.events_frame hadm, if_pos hop]
    · rw [wire_cons, Rules.events_frame hadm, if_neg hop, events_upToClose fs hrest]

theorem frameTurns_upToClose (limit : ℕ) : ∀ (fs : List Frame) (cur : Option WireMessage),
    frameTurns limit cur (upToClose fs) = frameTurns limit cur fs
  | [], _ => rfl
  | f :: fs, cur => by
    rw [upToClose]
    split_ifs with hop
    · have hc : f.opcode.isControl = true := by rw [hop]; rfl
      simp only [frameTurns, if_pos hc, if_pos hop]
    · rw [frameTurns, frameTurns, frameTurns_upToClose limit fs, frameTurns_upToClose limit fs,
        frameTurns_upToClose limit fs]

/-- The turns of frames that are legal up to the close. -/
theorem turns_sequence {R : Rules} (limit : ℕ) {fs : List Frame} (h : R.sequence false fs = true) :
    turnsFrom limit none (R.events false (wire fs)) = frameTurns limit none fs := by
  have hstream := stream_upToClose fs h
  rw [events_upToClose fs h, R.events_wire _ hstream, ← frameTurns_upToClose]
  exact turnsFrom_events limit _ none hstream

/-! ## Frames and what they say -/

/-- A message is open on the wire if the speech is in one. -/
theorem Speech.opens {D : Deflater} {reach : ℕ} {takeover : Bool} {σ σ' : Spoken} {is : List Item}
    (h : Speech D reach takeover σ is σ') :
    (is.map Item.frame).foldl Frame.opens σ.draft.isSome = σ'.draft.isSome := by
  induction h with
  | nil => rfl
  | control control _ ih => rw [List.map_cons, List.foldl_cons, Rules.opens_control control, ih]
  | @data σ σ' _ i _ wrote _ ih =>
    have hopens : i.frame.opens σ.draft.isSome = σ'.draft.isSome := by
      obtain ⟨-, data, -⟩ := wrote
      rw [Frame.opens, if_neg (by rw [data]; decide), Spoken.after]
      cases i.frame.final <;> rfl
    rw [List.map_cons, List.foldl_cons, hopens, ih]

/-- As long as an account has not ended there was no close. -/
theorem Ledger.no_close : ∀ (is : List Item) {k : Ledger}, (is.foldl hear k).ending = .ended →
    ∀ i ∈ is, i.frame.opcode ≠ .close
  | [], _, _, _, hi => absurd hi (by simp)
  | i :: is, k, h, j, hj => by
    have hfirst : (k.hear i).ending = .ended := by
      by_contra hne
      rw [List.foldl_cons, hears_ended hne] at h
      exact hne h
    rcases List.mem_cons.mp hj with rfl | hj
    · intro hop
      have hctl : j.frame.opcode.isControl = true := by rw [hop]; rfl
      have hk : k.ending = .ended := by
        by_contra hne
        rw [hear_ended hne] at hfirst
        exact hne hfirst
      obtain ⟨ev, hev, -⟩ := ofFrame_control hctl j.frame.payload
      rw [hear_control hk hctl hev] at hfirst
      exact (ended_iff hctl hev).mp hfirst hop
    · exact no_close is h j hj

/-! ## The peer -/

/-- What the wire carries of a run that has come to rest. -/
structure Shared.AtRest (s : Shared) : Prop where
  wmu : s.wmu = none
  iomu : s.iomu = none
  backlog : s.backlog = []

namespace Shared

variable {D : Deflater} {s : Shared}

theorem AtRest.order (h : s.AtRest) : s.order = s.past.flatMap Burst.items := by
  rw [Shared.order, pending_free h.wmu, h.backlog, bursts_free h.iomu, List.append_nil, List.append_nil]

theorem AtRest.accepted (h : s.AtRest) (hgood : Good s) (hs : Smooth s) :
    s.accepted = wire (s.order.map Item.frame) := by
  obtain ⟨begun, heq, hbegun⟩ := hs.accepted_eq hgood
  rw [h.iomu] at hbegun
  rw [heq, List.prefix_nil.mp hbegun, List.append_nil, h.order]

/-- The frames of a run without faults are legal. -/
theorem AtRest.sequence (h : s.AtRest) {c : WriteSide} (hsound : c.Sound) (hfrag : c.frag.op = 0)
    {acts : List Act} (hrun : Shared.run D { conn := c } acts = some s)
    (hcalm : ∀ a ∈ acts, a.calm = true) :
    c.peerRules.sequence false (s.order.map Item.frame) = true := by
  have hunder : c.underway = false := by simp [WriteSide.underway, hfrag]
  have hno : ∀ s, Good s → Smooth s → ∀ b ∈ s.past, b.harmful = false := fun s hgood hs b hb =>
    (hgood.finished b hb).not_harmful (hs.bursts b (List.mem_append_left _ hb))
  obtain ⟨hgood, hs, hlawful⟩ := run_induct
    (P := fun s => Good s ∧ Smooth s ∧ Lawful c.peerRules s) (p := fun _ a => a.calm)
    (fun s a s' hp ha hstep => by
      obtain ⟨hgood, hs, hlawful⟩ := hp
      have hgood' := hgood.step hstep
      have hs' := hs.step hgood ha hstep
      refine ⟨hgood', hs', (hlawful.step hgood hstep).resolve_right fun hfrozen => ?_⟩
      obtain ⟨b, hb, hharm⟩ := hfrozen.harm
      cases (hno s' hgood' hs' b hb).symm.trans hharm)
    acts ⟨Good.init hsound, Smooth.init, Lawful.init hunder⟩ hrun
    (along_of_forall _ fun a ha _ => hcalm a ha)
  have hsent : s.sent = s.order := by
    rw [h.order, sent]
    refine List.flatMap_congr fun b hb => ?_
    exact (hgood.finished b hb).done_eq (hs.bursts b (List.mem_append_left _ hb))
  have hsequence := hlawful.sequence
  rw [h.iomu, hsent] at hsequence
  simpa [lawful] using hsequence

end Shared

/-- Only a script that runs to the end of the stream is told to the end of the stream. -/
theorem Recited.ended {h : Responder} {trace all calls : List Callback} {e : Ending}
    (hr : Recited h trace all e (calls, .ended)) : e = .ended := by
  cases hr
  rfl

/-- A program that objects to nothing is told everything. -/
theorem Recited.all {trace all : List Callback} {e : Ending} {out : List Callback × Ending}
    (hr : Recited (fun _ _ => none) trace all e out) : out = (trace ++ all, e) := by
  cases hr with
  | whole => rfl
  | stopped _ _ answer => cases answer

/-- A new connection remembers what a peer that suits it looks back to. -/
theorem synced_newConn {F : Flate} {cfg peer : Config} (suits : cfg.Suits peer) {t : Transport}
    {pool : ℕ → Option { d : Decompressor F // d.Idle }} {p : Conn F}
    (hp : newConn peer t pool = .ok p) : Synced cfg.reach cfg.takesOver p.history {} := by
  unfold newConn at hp
  split_ifs at hp
  cases hp
  have hcomp := suits.compression
  cases ha : cfg.compression with
  | none =>
    have hb : peer.compression = none := by simpa [ha] using hcomp
    refine ⟨?_, ?_, ?_, fun d hd => by cases hd⟩
    · simp [Config.reach, ha]
    · simp [Config.takesOver, ha]
    · simp [Conn.history, hb]
  | some a =>
    obtain ⟨b, hb⟩ := Option.isSome_iff_exists.mp (hcomp.trans (by rw [ha]; rfl))
    have htake := suits.takeover a b ha hb
    have hlookback := suits.lookback a b ha hb
    refine ⟨?_, ?_, fun _ => ?_, fun d hd => by cases hd⟩
    · rw [Config.lookback] at hlookback
      simp only [Config.reach, ha, Conn.history, hb, Option.map_some, Option.getD_some, Option.bind_some,
        Config.window]
      split_ifs at hlookback ⊢ <;> exact hlookback
    · simp only [Config.takesOver, ha, Option.any_some, Conn.history, hb, Option.bind_some]
      intro h
      simp [Config.window, htake h]
    · simp only [Conn.history, hb, Option.bind_some, Config.window, lastN_nil]
      split_ifs <;> rfl

/-! ## The session -/

namespace Shared

variable {D : Deflater} {F : Flate} {s : Shared}

/-- A message of the account keeps within the settings of the peer. -/
def Acceptable (settings : Settings) (l : Ledger) : Prop :=
  ∀ op text, .message op text ∈ l.told → text.length ≤ settings.limit ∧
    (settings.validateUTF8 = true → op = .text → utf8Valid text = true)

/-- What goes ahead is no message. -/
theorem Acceptable.overtaken {settings : Settings} {k l : Ledger} (h : Acceptable settings l)
    (hs : Relation.ReflTransGen Overtakes l.told k.told) : Acceptable settings k := by
  have hmessages : k.told.filter Callback.isMessage = l.told.filter Callback.isMessage := by
    generalize k.told = told at hs
    induction hs with
    | refl => rfl
    | tail _ hstep ih => exact hstep.messages.trans ih
  intro op text hmem
  refine h op text ?_
  have hfilter : Callback.message op text ∈ k.told.filter Callback.isMessage :=
    List.mem_filter.mpr ⟨hmem, rfl⟩
  rw [hmessages] at hfilter
  exact (List.mem_filter.mp hfilter).1

/-- The account of a new connection. -/
theorem Tally.init {cfg : Config} {c : WriteSide} (h : c.Abreast cfg.reach cfg.takesOver {})
    (hopen : c.tx.closeSent = false) (hfrag : c.frag.op = 0) :
    Tally D cfg.reach cfg.takesOver { conn := c } {} where
  speech := ⟨{}, .nil, fun _ => ⟨h, rfl⟩⟩
  ending := rfl
  closed := ⟨fun _ => hopen, fun _ => rfl⟩
  draft _ := (if_pos hfrag).symm
  told := .refl
  same _ := rfl
  data := fun _ hi => by cases hi
  unclosed := fun hq => by cases hq

/-- Without a close the bytes are settled unless a message is open. -/
theorem Tally.settled {reach : ℕ} {takeover : Bool} {l : Ledger} {R : Rules}
    (h : Tally D reach takeover s l) (rest : s.AtRest) (hended : l.ending = .ended)
    (hsequence : R.sequence false (s.order.map Item.frame) = true) :
    R.Settled (wire (s.order.map Item.frame)) ↔ s.conn.underway = false := by
  obtain ⟨σ, hspeech, hstands⟩ := h.speech
  obtain ⟨habreast, -⟩ := hstands (h.closed.mp hended)
  rw [rested_free rest.wmu] at habreast
  have hno : ∀ f ∈ s.order.map Item.frame, f.opcode ≠ .close := fun f hf => by
    obtain ⟨i, hi, rfl⟩ := List.mem_map.mp hf
    exact Ledger.no_close s.order (k := {}) (h.ending.trans hended) i hi
  have hstream := stream_upToClose _ hsequence
  rw [upToClose_eq hno] at hstream
  have hopens : (s.order.map Item.frame).foldl Frame.opens false = σ.draft.isSome := hspeech.opens
  rw [Rules.settled_wire hstream hno, hopens, WriteSide.underway]
  cases habreast.stands with
  | idle frag draft => simp [frag, draft]
  | begun frag first draft => simp [first, draft]
  | amid frag first draft => simp [frag, first, draft]

/-- Whatever the goroutines of a connection do, over a transport that accepts every write, once the
connection is at rest its peer is told what the operations that were not refused have said : as long
as nobody closes a connection with a queue (`civil`), fewer than `2 ^ 64` compressed payloads were
sent, and every message is within the limit of the peer, on the wire (`hwire`) and inflated, and
valid where the peer validates (`Acceptable`). The program of the peer is called with the messages
and control frames of the ledger, up to the first call that it fails, in their order but for pings
and pongs that went ahead of messages in the queue, whether messages are fragmented, prepared,
compressed or not, whatever the masks, and however the bytes are cut ; and the error `Serve` returns
reports the close that was sent, or the end of the transport, as a clean one unless a message was
left open. -/
theorem session_delivers {cfg peer : Config} {vectored : Bool} {keys : ℕ → MaskKey}
    {pool : (kind : EncoderKind) → ℕ → Option { c : Compressor // c.Idle kind }} {c : WriteSide}
    (hc : WriteSide.ofConfig cfg vectored keys pool = .ok c) {acts : List Act}
    (hrun : Shared.run D { conn := c } acts = some s) (hcalm : ∀ a ∈ acts, a.calm = true)
    (hcivil : along D civil { conn := c } acts = true) (hcount : s.packed < 2 ^ 64) (rest : s.AtRest)
    (suits : cfg.Suits peer)
    {t : Transport} {pool' : ℕ → Option { d : Decompressor F // d.Idle }} {p : Conn F}
    (hp : newConn peer t pool' = .ok p) (steady : t.Steady) (clean : t.Clean)
    (hbytes : t.bytes = s.accepted)
    (codec : cfg.compression.isSome = true → Codec D F p.side.settings.limit)
    {l : Ledger} (hl : l = Shared.ledger D { conn := c } {} acts)
    (hwire : .tooLarge ∉ frameTurns p.side.settings.limit none (s.order.map Item.frame))
    (hfits : Acceptable p.side.settings l) (h : Responder) :
    ∃ told ending, Relation.ReflTransGen Overtakes l.told told ∧
      (s.queue = none → told = l.told) ∧
      Recited h [] told l.ending ((ReadLoop.serve h p).2.trace, ending) ∧
      ending.Reports (s.conn.underway = false) (ReadLoop.serve h p).1 := by
  obtain ⟨habreast, hopen, hfrag, hrules⟩ := WriteSide.abreast_ofConfig hc
  have hsound := sound_ofConfig hc
  obtain ⟨hgood, hsmooth, htally⟩ := Tally.run acts (Good.init hsound) Smooth.init (Paced.init hc)
    (Tally.init (D := D) habreast hopen hfrag) hcalm hcivil hrun hcount
  rw [← hl] at htally
  -- What the peer reads is what the frames say.
  have hsequence := rest.sequence hsound hfrag hrun hcalm
  have hR : (⟨peer.role, peer.compression.isSome⟩ : Rules) = c.peerRules := by
    rw [hrules, suits.role, suits.compression]
  obtain ⟨hprest, htransport, halong, htodo⟩ := ReadLoop.newConn_rest hp
  have hwired : t.bytes = wire (s.order.map Item.frame) := hbytes.trans (rest.accepted hgood hsmooth)
  have hturns : p.turns = frameTurns p.side.settings.limit none (s.order.map Item.frame) := by
    rw [Conn.turns, htodo, hR, hwired, turns_sequence _ hsequence]
  obtain ⟨σ, hspeech, hstands⟩ := htally.speech
  have hcodec : 0 < cfg.reach → Codec D F p.side.settings.limit := fun hpos => codec (by
    cases hcomp : cfg.compression with
    | none => simp [Config.reach, hcomp] at hpos
    | some comp => rfl)
  obtain ⟨htold, hending⟩ := script_hears hcodec s.order (l := {}) hspeech (synced_newConn suits hp) rfl rfl
    hwire (hfits.overtaken htally.told)
  -- What the program is told is a recital of it.
  have hserve := ReadLoop.serve_spec hprest (htransport ▸ steady) (htransport ▸ clean) halong h
  have hrecited := narrate_recited (F := F) (s := p.side.settings) (h := h) p.turns p.history []
  rw [hturns] at hrecited hserve
  have htold' : s.heard.told = (script F p.side.settings p.history
      (frameTurns p.side.settings.limit none (s.order.map Item.frame))).1 := htold
  have hending' : l.ending = (script F p.side.settings p.history
      (frameTurns p.side.settings.limit none (s.order.map Item.frame))).2 :=
    htally.ending.symm.trans hending
  rw [← htold', ← hending'] at hrecited
  generalize narrate F p.side.settings h p.history []
    (frameTurns p.side.settings.limit none (s.order.map Item.frame)) = total at hrecited hserve
  obtain ⟨calls, ending⟩ := total
  obtain ⟨rfl, hreports⟩ := hserve
  refine ⟨s.heard.told, ending, htally.told, htally.same, hrecited, ?_⟩
  cases ending with
  | ended =>
    have hsettled := htally.settled rest hrecited.ended hsequence
    rw [← hwired, ← hR] at hsettled
    rw [← hsettled]
    exact hreports
  | _ => exact hreports

/-- A server that compresses, with a window of 256 bytes. -/
def talkConfig : Config :=
  { maxMessageSize := 1000
    compression := some { minSize := 1, sendContextTakeover := true, sendWindowBits := 8 } }

/-- A client that fits it. -/
def listenConfig : Config :=
  { role := .client
    maxMessageSize := 1000
    compression := some { receiveContextTakeover := true, receiveWindowBits := 8 } }

theorem suits_talk : talkConfig.Suits listenConfig where
  role := rfl
  compression := rfl
  takeover := by
    rintro a b ⟨⟩ ⟨⟩ _
    rfl
  lookback := by
    rintro a b ⟨⟩ ⟨⟩
    decide

/-- A text, a binary message in two fragments with a ping between them, a message that is refused while
it is open, and a close. -/
def talk : List Act :=
  [.start (.write .text ⟨[104, 105], by decide⟩), .lock, .write none, .unlock,
    .start (.beginMessage .binary), .start (.fragment ⟨[7], by decide⟩ false), .lock, .write none,
    .unlock,
    .start (.ping ⟨[9], by decide⟩), .lock, .write none, .unlock,
    .start (.write .text ⟨[104, 105], by decide⟩),
    .start (.fragment ⟨[8], by decide⟩ true), .lock, .write none, .unlock,
    .start (.close 1000 ⟨[], by decide⟩), .lock, .write none, .unlock]

/-- Its bytes, cut inside headers and payloads. -/
def talkTransport : Transport :=
  [.data [0xC1, 8, 0, 2, 0, 0xFD, 0xFF], .data [104, 105, 0, 0x42],
    .data [11, 0, 1, 0, 0xFE, 0xFF, 7, 0, 0, 0], .data [0xFF, 0xFF, 0x89, 1], .data [9, 0x80, 7, 0, 1, 0, 0xFE, 0xFF, 8, 0, 0x88, 2, 3, 0xE8]]

theorem talkTransport_clean : Transport.Clean talkTransport := fun e he => by
  have hsymbols : Transport.symbols talkTransport = (Transport.bytes talkTransport).map .inl := by rfl
  rw [hsymbols] at he
  simp at he

theorem session_delivers_talk : ∃ p : Conn Flate.stored,
    newConn listenConfig talkTransport (fun _ => none) = .ok p ∧
    (ReadLoop.serve (fun _ _ => none) p).2.trace = [.message .text [104, 105], .control (.ping [9]),
      .message .binary [7, 8], .control (.close 1000 [])] ∧
    (ReadLoop.serve (fun _ _ => none) p).1 = .closed 1000 [] := by
  obtain ⟨c, s, hc, hrun, hcivil, hw, hi, hb, hq, hacc, hl, hpacked, hwire⟩ : ∃ c s,
      WriteSide.ofConfig talkConfig false (fun _ => ⟨0, 0, 0, 0⟩) (fun _ _ => none) = .ok c ∧
      Shared.run Stored.deflater { conn := c } talk = some s ∧
      along Stored.deflater civil { conn := c } talk = true ∧
      s.wmu = none ∧ s.iomu = none ∧ s.backlog = [] ∧ s.queue = none ∧
      s.accepted = Transport.bytes talkTransport ∧
      Shared.ledger Stored.deflater { conn := c } {} talk = ⟨[.message .text [104, 105],
        .control (.ping [9]), .message .binary [7, 8], .control (.close 1000 [])], none,
        .closed 1000 []⟩ ∧
      s.packed = 3 ∧ frameTurns 1000 none (s.order.map Item.frame) =
        [.message ⟨.text, true, [0, 2, 0, 0xFD, 0xFF, 104, 105, 0]⟩, .control (.ping [9]),
          .message ⟨.binary, true, [0, 1, 0, 0xFE, 0xFF, 7, 0, 0, 0, 0xFF, 0xFF,
            0, 1, 0, 0xFE, 0xFF, 8, 0]⟩, .control (.close 1000 [])] :=
    ⟨_, _, rfl, rfl, rfl, rfl, rfl, rfl, rfl, rfl, rfl, rfl, rfl⟩
  refine ⟨_, rfl, ?_⟩
  have hlimit : (Config.settings listenConfig rfl).limit = 1000 := rfl
  obtain ⟨told, ending, -, hsame, hrecited, hreports⟩ := @session_delivers Stored.deflater Flate.stored s
    talkConfig listenConfig _ _ _ c hc talk hrun (by simp [talk, Act.calm]) hcivil
    (by rw [hpacked]; decide) ⟨hw, hi, hb⟩
    suits_talk talkTransport (fun _ => none) _ rfl (by decide) talkTransport_clean hacc.symm
    (fun _ => Stored.codec_stored.mono (by decide)) _ hl.symm (by rw [hlimit, hwire]; decide)
    (by
      intro op text hmem
      simp at hmem
      rcases hmem with ⟨-, rfl⟩ | ⟨-, rfl⟩ <;> exact ⟨by decide, fun h => by cases h⟩)
    (fun _ _ => none)
  obtain ⟨htrace, rfl⟩ := Prod.mk.inj hrecited.all
  rw [hsame hq] at htrace
  exact ⟨htrace, hreports⟩

end Shared

end Ews
