import Ember.Server.A2a.Books

/-!
# Which turn is running when a message is handed over

`Live.Turns` relates a session's agent, its pump, its stored events and its `awaiting` mark. It is
kept by every step but two, and those two are where `Hub.Quiet` puts its conditions: a user message
that enters while a flush is between reading the record and handing over, and a flush that goes by a
record that says nothing of a user message under way.
-/

namespace Ember.Server

/-- No turn end with a number above `b`. -/
def NoEndAfter (events : List StoredEvent) (b : ℕ) : Prop :=
  ∀ ev ∈ events, ev.event.isTurnEnded = true → ev.seq ≤ b

namespace Live

/-- A turn on delivered messages runs, or its end is not stored yet. -/
def Active (l : Live) : Prop := l.turn = some .a2a ∨ .a2a ∈ l.ends

/-- A user message is under way: its events are in the pump and the agent did not take it, its turn
runs or is to run, or the end of its turn is not stored yet. -/
def UserBusy (l : Live) : Prop :=
  l.underWay ≠ [] ∨ l.turn = some .user ∨ .user ∈ l.backlog ∨ .user ∈ l.ends

/-- What a session's turns have to do with its mark and its stored events. -/
structure Turns (l : Live) (mark : Option ℕ) (events : List StoredEvent) : Prop where
  /-- The turn on delivered messages is awaited, and did not end above the mark. -/
  awaited : l.Active → ∃ b, mark = some b ∧ NoEndAfter events b
  alone : l.turn = some .a2a → l.ends = []
  first : .a2a ∈ l.ends → ∃ rest, l.ends = .a2a :: rest ∧ .a2a ∉ rest
  backlog : .a2a ∉ l.backlog
  /-- A flush that read the record and has not handed over finds the agent at rest. -/
  atRest : ∀ b, l.phase.before = some b →
    l.turn = none ∧ l.backlog = [] ∧ l.underWay = [] ∧ l.ends = [] ∧ NoEndAfter events b
  marked : l.phase.marked = true → mark = l.phase.before
  settled : l.phase = .settled → ¬ l.Active

end Live

/-- The turns of every session. -/
structure Hub.Turns (h : Hub) : Prop where
  consistent : h.store.Consistent
  live : ∀ t, (h.sessions t).Turns (h.awaiting t) (h.store.stored t)

/-- The condition on a step: a message is not stored late; a user message does not enter while a
flush of the session is between reading the record and handing over; and a flush does not go by a
record between turns while a user message is under way. -/
def Hub.Quiet (h : Hub) : Action → Prop
  | .userQueue id _ _ => (h.sessions id).phase.before = none
  | .flush id .read => (h.sessions id).phase = .settled → ∀ record, h.store.session id = some record →
      isBusy record.status = false → ¬ (h.sessions id).UserBusy
  | a => h.InTime a

variable {source : Source} {b : ℕ} {ev : StoredEvent}

namespace Live.Turns

variable {l k : Live} {mark mark' : Option ℕ} {events events' : List StoredEvent}

section

variable (h : l.Turns mark events)
include h

/-- A step of the agent while no flush goes by it being at rest: the turns on delivered messages are
no more than they were. -/
theorem agent (hbefore : l.phase.before = none)
    (hphase : k.phase = l.phase) (hactive : k.Active → l.Active)
    (halone : k.turn = some .a2a → k.ends = [])
    (hfirst : .a2a ∈ k.ends → ∃ rest, k.ends = .a2a :: rest ∧ .a2a ∉ rest)
    (hbacklog : .a2a ∉ k.backlog) : k.Turns mark events where
  awaited hact := h.awaited (hactive hact)
  alone := halone
  first := hfirst
  backlog := hbacklog
  atRest b hb := by
    rw [hphase, hbefore] at hb
    cases hb
  marked hm := hphase ▸ h.marked (hphase ▸ hm)
  settled hs hact := h.settled (hphase ▸ hs) (hactive hact)

/-- Events that end no turn enter the pump. -/
theorem say (hturn : k.turn = l.turn) (hends : k.ends = l.ends)
    (hbacklog : k.backlog = l.backlog) (hphase : k.phase = l.phase)
    (hunder : ∀ b, l.phase.before = some b → k.underWay = []) : k.Turns mark events := by
  have hactive : k.Active ↔ l.Active := by rw [Active, hturn, hends, Active]
  refine ⟨fun hact ↦ h.awaited (hactive.1 hact), ?_, ?_, ?_, fun b hb ↦ ?_, ?_, ?_⟩
  · rw [hturn, hends]
    exact h.alone
  · rw [hends]
    exact h.first
  · rw [hbacklog]
    exact h.backlog
  · rw [hphase] at hb
    obtain ⟨h1, h2, -, h4, h5⟩ := h.atRest b hb
    exact ⟨hturn.trans h1, hbacklog.trans h2, hunder b hb, hends.trans h4, h5⟩
  · rw [hphase]
    exact h.marked
  · rw [hphase, hactive]
    exact h.settled

/-- The agent takes a user message. -/
theorem take (hbefore : l.phase.before = none) (text : String) (own : Bool) :
    (l.take text .user own).Turns mark events := by
  have hends : (l.take text .user own).ends = l.ends := by rw [ends, take_pump, ends]
  have hturn : (l.take text .user own).turn = some .a2a → l.turn = some .a2a := by
    simp only [Live.take]
    split
    · exact fun hu ↦ by cases hu
    · split <;> exact id
  refine h.agent hbefore (take_phase ..) ?_ ?_ ?_ ?_
  · rw [Active, hends]
    exact Or.imp_left hturn
  · rw [hends]
    exact fun hact ↦ h.alone (hturn hact)
  · rw [hends]
    exact h.first
  · have hback := h.backlog
    simp only [Live.take]
    split
    · exact hback
    · split
      · simpa using hback
      · exact hback

/-- A turn ends. -/
theorem turnEnd (hturn : l.turn = some source) (outcome : TurnOutcome) :
    { l with turn := none, pump := l.pump ++ [Queued.ended outcome source] }.Turns mark events := by
  have hbefore : l.phase.before = none := by
    refine Option.eq_none_iff_forall_ne_some.2 fun b hb ↦ ?_
    rw [(h.atRest b hb).1] at hturn
    cases hturn
  have hends : { l with turn := none, pump := l.pump ++ [Queued.ended outcome source] }.ends =
      l.ends ++ [source] := by
    simp [ends, Queued.ends]
  refine h.agent hbefore rfl ?_ (fun hnone ↦ by cases hnone) ?_ h.backlog
  · rintro (hnone | hmem)
    · cases hnone
    · rw [hends, List.mem_append, List.mem_singleton] at hmem
      exact hmem.symm.imp_left fun heq ↦ by rw [hturn, heq]
  · rw [hends]
    cases source with
    | user =>
      rw [List.mem_append, or_iff_left (by simp)]
      intro hmem
      obtain ⟨rest, hrest, hnot⟩ := h.first hmem
      exact ⟨rest ++ [.user], by rw [hrest]; rfl, by simpa using hnot⟩
    | a2a =>
      rw [h.alone hturn]
      exact fun _ ↦ ⟨[], rfl, List.not_mem_nil⟩

/-- The agent starts the next turn of its backlog. -/
theorem nextTurn {rest : List Source} (hback : l.backlog = source :: rest) :
    { l with turn := some source, backlog := rest }.Turns mark events := by
  have hbefore : l.phase.before = none := by
    refine Option.eq_none_iff_forall_ne_some.2 fun b hb ↦ ?_
    rw [(h.atRest b hb).2.1] at hback
    cases hback
  have hnot := h.backlog
  rw [hback, List.mem_cons, not_or] at hnot
  have hsource : some source ≠ some .a2a := fun heq ↦ hnot.1 (Option.some.inj heq).symm
  exact h.agent hbefore rfl (Or.imp_left fun heq ↦ absurd heq hsource)
    (fun heq ↦ absurd heq hsource) h.first hnot.2

/-- Events that end no turn are stored. -/
theorem stored (hevents : ∀ ev ∈ events', ev.event.isTurnEnded = true → ev ∈ events) :
    l.Turns mark events' := by
  have hno : ∀ {b}, NoEndAfter events b → NoEndAfter events' b := fun hb ev hev hend ↦
    hb ev (hevents ev hev hend) hend
  refine ⟨fun hact ↦ ?_, h.alone, h.first, h.backlog, fun b hb ↦ ?_, h.marked, h.settled⟩
  · obtain ⟨b, hmark, hb⟩ := h.awaited hact
    exact ⟨b, hmark, hno hb⟩
  · obtain ⟨h1, h2, h3, h4, h5⟩ := h.atRest b hb
    exact ⟨h1, h2, h3, h4, hno h5⟩

/-- The pump stores the end of a turn: no turn on delivered messages is left. -/
theorem pumpEnd {outcome : TurnOutcome} {pump : List Queued}
    (hpump : l.pump = .ended outcome source :: pump)
    (events' : List StoredEvent) : { l with pump }.Turns mark events' := by
  have hends : l.ends = source :: { l with pump }.ends := by
    rw [ends, hpump]
    rfl
  have hbefore : l.phase.before = none := by
    refine Option.eq_none_iff_forall_ne_some.2 fun b hb ↦ ?_
    rw [(h.atRest b hb).2.2.2.1] at hends
    cases hends
  have hturn : l.turn ≠ some .a2a := fun hact ↦ by
    rw [h.alone hact] at hends
    cases hends
  have hrest : .a2a ∉ { l with pump }.ends := fun hmem ↦ by
    obtain ⟨rest, hfirst, hnot⟩ := h.first (hends ▸ List.mem_cons_of_mem _ hmem)
    obtain ⟨-, rfl⟩ := List.cons.inj (hends.symm.trans hfirst)
    exact hnot hmem
  have hactive : ¬ { l with pump }.Active := not_or.2 ⟨hturn, hrest⟩
  exact ⟨fun hact ↦ absurd hact hactive, fun hact ↦ absurd hact hturn,
    fun hmem ↦ absurd hmem hrest, h.backlog,
    fun b hb ↦ absurd (hb.symm.trans hbefore) (Option.some_ne_none b), h.marked, fun _ ↦ hactive⟩

/-- `watch_turns` clears the mark: a turn ended above it. -/
theorem watch (hev : ev ∈ events) (hend : ev.event.isTurnEnded = true)
    (hmark : mark = some b) (hlt : b < ev.seq) :
    l.Turns none events := by
  have hactive : ¬ l.Active := fun hact ↦ by
    obtain ⟨b', hmark', hno⟩ := h.awaited hact
    obtain rfl := Option.some.inj (hmark.symm.trans hmark')
    exact absurd (hno ev hev hend) (by omega)
  refine ⟨fun hact ↦ absurd hact hactive, h.alone, h.first, h.backlog, h.atRest, fun hm ↦ ?_,
    h.settled⟩
  have hbefore := (h.marked hm).symm.trans hmark
  exact absurd ((h.atRest b hbefore).2.2.2.2 ev hev hend) (by omega)

/-- A flush moves on: what it goes by is to be shown. -/
theorem flush {phase : Phase} (hmark : l.Active → mark' = mark)
    (hatRest : ∀ b, phase.before = some b →
      l.turn = none ∧ l.backlog = [] ∧ l.underWay = [] ∧ l.ends = [] ∧ NoEndAfter events b)
    (hmarked : phase.marked = true → mark' = phase.before)
    (hsettled : phase = .settled → ¬ l.Active) : { l with phase }.Turns mark' events where
  awaited hact := hmark hact ▸ h.awaited hact
  alone := h.alone
  first := h.first
  backlog := h.backlog
  atRest := hatRest
  marked := hmarked
  settled := hsettled

/-- A flush lets go of the session. -/
theorem release : { l with phase := .idle }.Turns mark events :=
  h.flush (fun _ ↦ rfl) (fun _ hb ↦ by cases hb) (fun hm ↦ by cases hm) (fun hs ↦ by cases hs)

theorem not_active (hb : l.phase.before = some b) :
    ¬ l.Active := by
  obtain ⟨hturn, -, -, hends, -⟩ := h.atRest b hb
  rintro (hact | hact)
  · rw [hturn] at hact
    cases hact
  · rw [hends] at hact
    exact List.not_mem_nil hact

/-- A session that is settled and has no user message under way is at rest. -/
theorem atRest_of_not_userBusy (hphase : l.phase = .settled)
    (hquiet : ¬ l.UserBusy) : l.turn = none ∧ l.backlog = [] ∧ l.underWay = [] ∧ l.ends = [] := by
  obtain ⟨hunder, huturn, huback, huends⟩ : ¬ l.underWay ≠ [] ∧ l.turn ≠ some .user ∧
      .user ∉ l.backlog ∧ .user ∉ l.ends := by simpa [UserBusy, not_or] using hquiet
  obtain ⟨hturn, hends⟩ := not_or.1 (h.settled hphase)
  refine ⟨?_, ?_, not_not.1 hunder, ?_⟩
  · exact Option.eq_none_iff_forall_ne_some.2 fun source ↦ by cases source <;> assumption
  · refine List.eq_nil_iff_forall_not_mem.2 fun source ↦ ?_
    cases source with
    | user => exact huback
    | a2a => exact h.backlog
  · exact List.eq_nil_iff_forall_not_mem.2 fun source ↦ by cases source <;> assumption

/-- The agent, at rest, is handed a batch. -/
theorem handOver (hb : l.phase.before = some b)
    (hmarked : l.phase.marked = true) (text : String) (own : Bool) (taken batch : List MessageRow) :
    { l.take text .a2a own with taken, phase := .given batch }.Turns mark events := by
  obtain ⟨hturn, hback, -, hends, hno⟩ := h.atRest b hb
  have htake : l.take text .a2a own = { l with inbox := l.inbox ++ [text], turn := some .a2a } := by
    simp only [Live.take, hturn]
  rw [htake]
  refine ⟨fun _ ↦ ⟨b, (h.marked hmarked).trans hb, hno⟩, fun _ ↦ hends, h.first, h.backlog,
    fun _ hb ↦ (by cases hb), fun hm ↦ (by cases hm), fun hs ↦ (by cases hs)⟩

end

end Live.Turns

namespace Hub.Turns

variable {h g : Hub} {id : String} {l : Live}

/-- A step of one session. -/
theorem setLive (ht : h.Turns) (hconsistent : g.store.Consistent) (hsessions : g.sessions = h.sessions)
    (hmark : ∀ t, id ≠ t → g.awaiting t = h.awaiting t)
    (hstored : ∀ t, id ≠ t → ∀ ev ∈ g.store.stored t, ev ∈ h.store.stored t)
    (hl : l.Turns (g.awaiting id) (g.store.stored id)) : (g.setLive id l).Turns := by
  refine ⟨hconsistent, fun t ↦ ?_⟩
  by_cases hid : id = t
  · subst hid
    rw [setLive_sessions_self]
    exact hl
  · rw [setLive_sessions_of_ne _ hid, hsessions]
    have hother : (h.sessions t).Turns (g.awaiting t) (h.store.stored t) := hmark t hid ▸ ht.live t
    exact hother.stored fun ev hev _ ↦ hstored t hid ev hev

/-- A step of one session's agent or flush that the store has no part in. -/
theorem agent (ht : h.Turns) (hl : l.Turns (h.awaiting id) (h.store.stored id)) :
    (h.setLive id l).Turns :=
  ht.setLive ht.consistent rfl (fun _ _ ↦ rfl) (fun _ _ _ hev ↦ hev) hl

/-- A step of one session and its mark. -/
theorem mark (ht : h.Turns) {m : Option ℕ} (hl : l.Turns m (h.store.stored id)) :
    ((h.setAwaiting id m).setLive id l).Turns := by
  refine ht.setLive ht.consistent rfl (fun t hid ↦ Function.update_of_ne hid.symm _ _)
    (fun _ _ _ hev ↦ hev) ?_
  rwa [show (h.setAwaiting id m).awaiting id = m from Function.update_self ..]

/-- A mark is cleared. -/
theorem unmark (ht : h.Turns) (hl : (h.sessions id).Turns none (h.store.stored id)) :
    (h.setAwaiting id none).Turns := by
  have hsame : (h.setAwaiting id none).setLive id (h.sessions id) = h.setAwaiting id none := by
    rw [Hub.setLive, setAwaiting_sessions, Function.update_eq_self]
    rfl
  exact hsame ▸ ht.mark hl

/-- A call of the store that stores no turn end. -/
theorem store (ht : h.Turns) {op : StoreOp}
    (hop : ∀ id now e, op = .append id now e → e.isTurnEnded = false) :
    { h with store := h.store.step op }.Turns := by
  refine ⟨ht.consistent.step op, fun t ↦ (ht.live t).stored fun ev hev hend ↦ ?_⟩
  refine (Store.mem_stored_step hev).resolve_right fun ⟨now, heq⟩ ↦ ?_
  rw [hop t now ev.event heq] at hend
  cases hend

end Hub.Turns

/-- A turn end after the mark is a stored one with a higher number. -/
theorem Hub.endedAfter_iff {h : Hub} {id : String} : h.endedAfter id b = true ↔
    ∃ ev ∈ h.store.stored id, ev.event.isTurnEnded = true ∧ b < ev.seq := by
  simp only [Hub.endedAfter, Store.eventsAfter, List.any_eq_true, List.mem_insertionSort,
    List.mem_filter, Bool.and_eq_true, decide_eq_true_eq, Store.stored]
  constructor
  · rintro ⟨ev, ⟨hmem, hid, hseq⟩, hend⟩
    exact ⟨ev, ⟨hmem, hid⟩, hend, hseq⟩
  · rintro ⟨ev, ⟨hmem, hid⟩, hend, hseq⟩
    exact ⟨ev, ⟨hmem, hid, hseq⟩, hend⟩

/-- A record's `last_seq` is at or above every stored event. -/
theorem Store.Consistent.seq_le {s : Store} (h : s.Consistent) {id : String} {record : SessionRecord}
    (hget : s.session id = some record) (hev : ev ∈ s.stored id) :
    ev.seq ≤ record.lastSeq := by
  rw [(h.rows id record hget).lastSeq, Store.log, List.length_map]
  exact h.seq_le_length hev

/-- **A flush** that meets the condition keeps the turns of every session. -/
theorem Hub.Turns.flush {h : Hub} (ht : h.Turns) (id : String) (step : FlushStep)
    (hquiet : h.Quiet (.flush id step)) : (h.flush id step).Turns := by
  have hl := ht.live id
  simp only [Hub.flush]
  split
  case h_1 hphase =>
    have hsettle : ∀ {m : Option ℕ}, ¬ (h.sessions id).Active →
        { h.sessions id with phase := .settled }.Turns m (h.store.stored id) := fun hact ↦
      hl.flush (fun hact' ↦ absurd hact' hact) (fun _ hb ↦ by cases hb) (fun hm ↦ by cases hm)
        fun _ ↦ hact
    split
    case h_1 hmark =>
      refine ht.agent (hsettle fun hact ↦ ?_)
      obtain ⟨b, hb, -⟩ := hl.awaited hact
      rw [hmark] at hb
      cases hb
    case h_2 before hmark =>
      split
      case isTrue hended =>
        obtain ⟨ev, hev, hend, hlt⟩ := Hub.endedAfter_iff.1 hended
        refine ht.mark (hsettle fun hact ↦ ?_)
        obtain ⟨b, hb, hno⟩ := hl.awaited hact
        obtain rfl := Option.some.inj (hmark.symm.trans hb)
        exact absurd (hno ev hev hend) (by omega)
      case isFalse => exact ht
  case h_2 hphase =>
    split
    case h_1 => exact ht.agent hl.release
    case h_2 record hget =>
      refine ht.agent ?_
      split
      case isTrue => exact hl.release
      case isFalse hbusy =>
        -- the record is between turns and, by the condition, so is the agent
        have hrest := hl.atRest_of_not_userBusy hphase
          (hquiet hphase record hget (Bool.eq_false_iff.2 hbusy))
        refine hl.flush (fun _ ↦ rfl) (fun b hb ↦ ?_) (fun hm ↦ by cases hm) fun hs ↦ by cases hs
        obtain rfl := Option.some.inj hb
        exact ⟨hrest.1, hrest.2.1, hrest.2.2.1, hrest.2.2.2,
          fun ev hev _ ↦ ht.consistent.seq_le hget hev⟩
  case h_3 before hphase =>
    have hrest := hl.atRest before (by rw [hphase]; rfl)
    refine ht.agent ?_
    split
    · exact hl.release
    · refine hl.flush (fun _ ↦ rfl) (fun b hb ↦ ?_) (fun hm ↦ by cases hm) fun hs ↦ by cases hs
      obtain rfl := Option.some.inj hb
      exact hrest
  case h_4 before batch text hphase =>
    have hbefore : (h.sessions id).phase.before = some before := by rw [hphase]; rfl
    refine ht.mark (hl.flush (fun hact ↦ absurd hact (hl.not_active hbefore)) (fun b hb ↦ ?_)
      (fun _ ↦ rfl) fun hs ↦ by cases hs)
    obtain rfl := Option.some.inj hb
    exact hl.atRest before hbefore
  case h_5 notes before batch text hphase =>
    have hbefore : (h.sessions id).phase.before = some before := by rw [hphase]; rfl
    have hends : { h.sessions id with
        pump := (h.sessions id).pump ++ Queued.sent notes text }.ends = (h.sessions id).ends := by
      rw [Live.ends, List.filterMap_append, Queued.filterMap_ends_sent, List.append_nil, Live.ends]
    have hsaid := hl.say (k := { h.sessions id with
      pump := (h.sessions id).pump ++ Queued.sent notes text }) rfl hends rfl rfl
      fun b hb ↦ (hl.atRest b hb).2.2.1
    refine ht.agent (hsaid.flush (fun _ ↦ rfl) (fun b hb ↦ ?_) (fun _ ↦ ?_) fun hs ↦ by cases hs)
    · obtain rfl := Option.some.inj hb
      exact hsaid.atRest before hbefore
    · exact (hl.marked (by rw [hphase]; rfl)).trans hbefore
  case h_6 own before batch text hphase =>
    exact ht.agent (hl.handOver (by rw [hphase]; rfl) (by rw [hphase]; rfl) text own _ batch)
  case h_7 before batch text hphase =>
    have hact := hl.not_active (b := before) (by rw [hphase]; rfl)
    exact ht.mark (hl.flush (fun h ↦ absurd h hact) (fun _ hb ↦ by cases hb)
      (fun hm ↦ by cases hm) fun hs ↦ by cases hs)
  case h_8 before batch text hphase =>
    have hact := hl.not_active (b := before) (by rw [hphase]; rfl)
    exact ht.mark (hl.flush (fun h ↦ absurd h hact) (fun _ hb ↦ by cases hb)
      (fun hm ↦ by cases hm) fun hs ↦ by cases hs)
  case h_9 now batch hphase =>
    exact ht.setLive ht.consistent rfl (fun _ _ ↦ rfl) (fun _ _ _ hev ↦ hev) hl.release
  case h_10 => exact ht

/-- **The step lemma.** A step that meets the condition keeps the turns of every session. -/
theorem Hub.Turns.step {h : Hub} (ht : h.Turns) {a : Action} (henabled : h.Enabled a)
    (hquiet : h.Quiet a) : (h.step a).Turns := by
  cases a with
  | insert id now from_ target replyTo text =>
    simp only [Hub.step]
    split
    · exact ⟨ht.consistent, ht.live⟩
    · exact ht
  | create id now project agent cwd model title account =>
    exact ht.store fun _ _ _ heq ↦ by cases heq
  | updateMeta id patch => exact ht.store fun _ _ _ heq ↦ by cases heq
  | notice id now message => exact ht.store fun _ _ _ heq ↦ by cases heq; rfl
  | userQueue id notes text =>
    refine ht.agent ((ht.live id).say rfl ?_ rfl rfl fun b hb ↦ ?_)
    · rw [Live.ends, List.filterMap_append, Queued.filterMap_ends_sent, List.append_nil, Live.ends]
    · have hbefore : (h.sessions id).phase.before = none := hquiet
      exact absurd (hb.symm.trans hbefore) (Option.some_ne_none b)
  | userTaken id i own =>
    simp only [Hub.step]
    split
    case h_1 text hget =>
      have hbefore : (h.sessions id).phase.before = none := by
        refine Option.eq_none_iff_forall_ne_some.2 fun b hb ↦ ?_
        rw [((ht.live id).atRest b hb).2.2.1] at hget
        cases hget
      have hpop := (ht.live id).say (k := { h.sessions id with
        underWay := (h.sessions id).underWay.eraseIdx i }) rfl rfl rfl rfl fun b hb ↦
          absurd (hb.symm.trans hbefore) (Option.some_ne_none b)
      exact ht.agent (hpop.take hbefore text own)
    case h_2 => exact ht
  | userFailed id i =>
    refine ht.agent ((ht.live id).say rfl rfl rfl rfl fun b hb ↦ ?_)
    rw [((ht.live id).atRest b hb).2.2.1, List.eraseIdx_nil]
  | say id event hsaid =>
    refine ht.agent ((ht.live id).say rfl ?_ rfl rfl fun b hb ↦ ((ht.live id).atRest b hb).2.2.1)
    simp [Live.ends, Queued.ends]
  | turnEnd id outcome =>
    simp only [Hub.step]
    split
    case h_1 source hturn => exact ht.agent ((ht.live id).turnEnd hturn outcome)
    case h_2 => exact ht
  | nextTurn id =>
    simp only [Hub.step]
    split
    case h_1 source backlog hturn hback => exact ht.agent ((ht.live id).nextTurn hback)
    case h_2 => exact ht
  | pump id now =>
    simp only [Hub.step]
    split
    case h_1 q pump hpump =>
      cases q with
      | ended outcome source =>
        let op : StoreOp := .append id now (.turnEnded outcome)
        have hstored : ∀ t, id ≠ t → ∀ ev ∈ (h.store.step op).stored t, ev ∈ h.store.stored t :=
          fun t hid ev hev ↦ (Store.mem_stored_step hev).resolve_right <| by
            rintro ⟨_, heq⟩
            exact hid (StoreOp.append.inj heq).1
        exact ht.setLive (g := { h with store := h.store.step op }) (ht.consistent.step op) rfl
          (fun _ _ ↦ rfl) hstored ((ht.live id).pumpEnd hpump _)
      | said event hsaid =>
        have hends : (h.sessions id).ends = { h.sessions id with pump }.ends := by
          rw [Live.ends, hpump]
          rfl
        have hpop : (h.setLive id { h.sessions id with pump }).Turns :=
          ht.agent ((ht.live id).say rfl hends.symm rfl rfl fun b hb ↦
            ((ht.live id).atRest b hb).2.2.1)
        split
        · exact hpop
        · refine hpop.store fun _ _ _ heq ↦ ?_
          cases heq
          exact hsaid
    case h_2 => exact ht
  | watch ev =>
    simp only [Hub.step]
    split
    case isTrue hclear =>
      obtain ⟨hend, hlt⟩ := Bool.and_eq_true_iff.1 hclear
      cases hmark : h.awaiting ev.sessionId with
      | none =>
        rw [hmark] at hlt
        cases hlt
      | some b =>
        rw [hmark, Option.any_some, decide_eq_true_eq] at hlt
        exact ht.unmark ((ht.live ev.sessionId).watch henabled hend hmark hlt)
    case isFalse => exact ht
  | flush id step => exact ht.flush id step hquiet

/-- **Every run** whose steps meet the condition keeps the turns of every session. -/
theorem Hub.turns_of_reachable {h : Hub} (hr : (Hub.system.restrict Hub.Quiet).Reachable h) :
    h.Turns := by
  refine hr.invariant ?_ ?_
  · rintro h ⟨history, rfl⟩
    refine ⟨Store.consistent_ofHistory history, fun t ↦ ?_⟩
    refine ⟨?_, fun hnone ↦ (by cases hnone), fun hmem ↦ (by cases hmem), List.not_mem_nil,
      fun _ hb ↦ (by cases hb), fun hm ↦ (by cases hm), fun hs ↦ (by cases hs)⟩
    rintro (hnone | hmem)
    · cases hnone
    · cases hmem
  · rintro h a h' - ht ⟨hquiet, henabled, rfl⟩
    exact ht.step henabled hquiet

end Ember.Server
