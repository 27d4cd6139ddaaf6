import Ember.Server.A2a.Hub

/-!
# Every message is given once

What the steps do to the books of one session (the rows its agent took, the batch of its flush and
the marks in the queue) is said once, in `BooksStep`; the ledger follows from it in every run.
-/

namespace Ember.Server

/-- What one step can do to the books of the session `t`. -/
inductive BooksStep (t : String) (h : Hub) (a : Action) (h' : Hub) : Prop
  | kept (ha2a : h'.a2a = h.a2a) (htaken : (h'.sessions t).taken = (h.sessions t).taken)
      (hflight : (h'.sessions t).phase.inFlight = (h.sessions t).phase.inFlight)
      (hunmarked : (h'.sessions t).phase.unmarked = (h.sessions t).phase.unmarked)
  | inserted {id from_ target text : String} {now : ℕ} {replyTo : Option String} {msg : A2aMessage}
      (ha : a = .insert id now from_ target replyTo text)
      (hinsert : h.a2a.insertMessage id now from_ target replyTo text = some (h'.a2a, msg))
      (hlive : h'.sessions t = h.sessions t)
  | collected (ha2a : h'.a2a = h.a2a) (htaken : (h'.sessions t).taken = (h.sessions t).taken)
      (hflight : (h.sessions t).phase.inFlight = []) (hunmarked : (h.sessions t).phase.unmarked = [])
      (hflight' : (h'.sessions t).phase.inFlight = h.a2a.pendingFor t)
      (hunmarked' : (h'.sessions t).phase.unmarked = [])
  | dropped (ha2a : h'.a2a = h.a2a) (htaken : (h'.sessions t).taken = (h.sessions t).taken)
      (hunmarked : (h.sessions t).phase.unmarked = []) (hflight' : (h'.sessions t).phase.inFlight = [])
      (hunmarked' : (h'.sessions t).phase.unmarked = [])
  | given (ha2a : h'.a2a = h.a2a)
      (htaken : (h'.sessions t).taken = (h.sessions t).taken ++ (h.sessions t).phase.inFlight)
      (hunmarked : (h.sessions t).phase.unmarked = []) (hflight' : (h'.sessions t).phase.inFlight = [])
      (hunmarked' : (h'.sessions t).phase.unmarked = (h.sessions t).phase.inFlight)
  | marked (id : String) (now : ℕ)
      (ha2a : h'.a2a = h.a2a.markDelivered (A2aStore.idsOf (h.sessions id).phase.unmarked) now)
      (htaken : (h'.sessions t).taken = (h.sessions t).taken)
      (hflight : (h'.sessions t).phase.inFlight = (h.sessions t).phase.inFlight)
      (hunmarked : (h'.sessions t).phase.unmarked =
        if id = t then [] else (h.sessions t).phase.unmarked)

namespace BooksStep

variable {h g : Hub} {t id : String} {a : Action} {l : Live} {phase : Phase}

theorem refl : BooksStep t h a h := .kept rfl rfl rfl rfl

/-- A step of another session. -/
theorem other (ha2a : g.a2a = h.a2a) (hsessions : g.sessions = h.sessions) (hid : id ≠ t) :
    BooksStep t h a (g.setLive id l) := by
  have hsame : (g.setLive id l).sessions t = h.sessions t :=
    (g.setLive_sessions_of_ne hid l).trans (congrFun hsessions t)
  exact .kept ha2a (by rw [hsame]) (by rw [hsame]) (by rw [hsame])

/-- A step of some session that leaves the rows it holds alone. -/
theorem moved (ha2a : g.a2a = h.a2a) (hsessions : g.sessions = h.sessions)
    (htaken : l.taken = (h.sessions id).taken)
    (hflight : l.phase.inFlight = (h.sessions id).phase.inFlight)
    (hunmarked : l.phase.unmarked = (h.sessions id).phase.unmarked) :
    BooksStep t h a (g.setLive id l) := by
  by_cases hid : id = t
  · subst hid
    have hsame := g.setLive_sessions_self id l
    exact .kept ha2a (by rw [hsame, htaken]) (by rw [hsame, hflight]) (by rw [hsame, hunmarked])
  · exact other ha2a hsessions hid

/-- A step of some session that is not a step of its flush. -/
theorem live (htaken : l.taken = (h.sessions id).taken) (hphase : l.phase = (h.sessions id).phase) :
    BooksStep t h a (h.setLive id l) :=
  moved rfl rfl htaken (by rw [hphase]) (by rw [hphase])

/-- A flush that holds no rows moves on without any. -/
theorem empty (ha2a : g.a2a = h.a2a) (hsessions : g.sessions = h.sessions)
    (hbefore : (h.sessions id).phase.inFlight = [] ∧ (h.sessions id).phase.unmarked = [])
    (hafter : phase.inFlight = [] ∧ phase.unmarked = []) :
    BooksStep t h a (g.setPhase id phase) :=
  moved ha2a hsessions (by rw [hsessions]) (hafter.1.trans hbefore.1.symm)
    (hafter.2.trans hbefore.2.symm)

/-- A flush that has not handed over lets go of its rows. -/
theorem aborted (hunmarked : (h.sessions id).phase.unmarked = []) :
    BooksStep t h a ((h.setAwaiting id none).setPhase id .idle) := by
  by_cases hid : id = t
  · subst hid
    exact .dropped rfl (by simp) hunmarked (by simp [Phase.inFlight]) (by simp [Phase.unmarked])
  · exact other rfl rfl hid

end BooksStep

open BooksStep in
/-- **What a flush does** to the books. -/
theorem booksStep_flush (h : Hub) (t id : String) (a : Action) (step : FlushStep) :
    BooksStep t h a (h.flush id step) := by
  simp only [Hub.flush]
  split
  case h_1 hphase =>
    split
    · exact empty rfl rfl (by simp [hphase, Phase.inFlight, Phase.unmarked]) ⟨rfl, rfl⟩
    · split
      · exact empty rfl rfl (by simp [hphase, Phase.inFlight, Phase.unmarked]) ⟨rfl, rfl⟩
      · exact .refl
  case h_2 hphase =>
    split
    · exact empty rfl rfl (by simp [hphase, Phase.inFlight, Phase.unmarked]) ⟨rfl, rfl⟩
    · refine empty rfl rfl (by simp [hphase, Phase.inFlight, Phase.unmarked]) ?_
      split <;> exact ⟨rfl, rfl⟩
  case h_3 before hphase =>
    by_cases hid : id = t
    · subst hid
      refine .collected rfl (by simp) (by rw [hphase]; rfl) (by rw [hphase]; rfl) ?_ ?_
      · simp only [Hub.setPhase_sessions_self]
        split
        case isTrue hnone => exact (List.isEmpty_iff.1 hnone).symm
        case isFalse => rfl
      · simp only [Hub.setPhase_sessions_self]
        split <;> rfl
    · exact other rfl rfl hid
  case h_4 before batch text hphase =>
    exact moved rfl rfl rfl (by rw [hphase]; rfl) (by rw [hphase]; rfl)
  case h_5 notes before batch text hphase =>
    exact moved rfl rfl rfl (by rw [hphase]; rfl) (by rw [hphase]; rfl)
  case h_6 own before batch text hphase =>
    by_cases hid : id = t
    · subst hid
      exact .given rfl (by simp [hphase, Phase.inFlight]) (by rw [hphase]; rfl)
        (by simp [Phase.inFlight]) (by simp [hphase, Phase.inFlight, Phase.unmarked])
    · exact other rfl rfl hid
  case h_7 before batch text hphase => exact aborted (by rw [hphase]; rfl)
  case h_8 before batch text hphase => exact aborted (by rw [hphase]; rfl)
  case h_9 now batch hphase =>
    have hrows : (h.sessions id).phase.unmarked = batch := by rw [hphase]; rfl
    refine .marked id now (by rw [hrows]; rfl) ?_ ?_ ?_
    all_goals
      by_cases hid : id = t
      · subst hid
        simp [hphase, Phase.inFlight, Phase.unmarked]
      · simp [Hub.setPhase, Hub.setLive_sessions_of_ne _ hid, hid]
  case h_10 => exact .refl

open BooksStep in
/-- **What a step does** to the books. -/
theorem booksStep (h : Hub) (a : Action) (t : String) : BooksStep t h a (h.step a) := by
  cases a with simp only [Hub.step]
  | insert id now from_ target replyTo text =>
    split
    case h_1 a2a msg hinsert => exact .inserted rfl hinsert rfl
    case h_2 => exact .refl
  | create | updateMeta | notice => exact .kept rfl rfl rfl rfl
  | userQueue | userFailed | say => exact live rfl rfl
  | userTaken id i own =>
    split
    · exact live (Live.take_taken ..) (Live.take_phase ..)
    · exact .refl
  | turnEnd | nextTurn =>
    split
    · exact live rfl rfl
    · exact .refl
  | pump id now =>
    split
    case h_1 q pump hpump =>
      split
      · exact live rfl rfl
      · exact moved (g := { h with store := _ }) rfl rfl rfl rfl rfl
    case h_2 => exact .refl
  | watch ev =>
    split
    · exact .kept rfl rfl rfl rfl
    · exact .refl
  | flush id step => exact booksStep_flush h t id _ step

/-! ### The ledger -/

/-- What a session's agent took is what is marked delivered, but for the batch whose flush is
between handing over and marking; the rows of a flush are waiting, and none is there twice. -/
structure Live.Ledger (l : Live) (a2a : A2aStore) (t : String) : Prop where
  taken : ∀ r, r ∈ l.taken ↔ r ∈ a2a.delivered t ∨ r ∈ l.phase.unmarked
  waiting : ∀ r ∈ l.phase.inFlight ++ l.phase.unmarked, r ∈ a2a.waiting t
  once : l.gone.Nodup

/-- The books of every session are in order. -/
structure Hub.Ledger (h : Hub) : Prop where
  valid : h.a2a.Valid
  live : ∀ t, (h.sessions t).Ledger h.a2a t

/-- **The step lemma.** No step, whatever it is, leaves the books wrong. -/
theorem Hub.Ledger.step {h : Hub} (hl : h.Ledger) (a : Action) : (h.step a).Ledger where
  valid := by
    obtain ⟨ha2a⟩ | ⟨-, hinsert⟩ | ⟨ha2a⟩ | ⟨ha2a⟩ | ⟨ha2a⟩ | ⟨id, now, ha2a⟩ := booksStep h a ""
    · exact ha2a ▸ hl.valid
    · exact hl.valid.insertMessage hinsert
    · exact ha2a ▸ hl.valid
    · exact ha2a ▸ hl.valid
    · exact ha2a ▸ hl.valid
    · exact ha2a ▸ hl.valid.markDelivered _ now
  live t := by
    have hlive := hl.live t
    rcases booksStep h a t with ⟨ha2a, htaken, hflight, hunmarked⟩ | ⟨-, hinsert, hsame⟩ |
      ⟨ha2a, htaken, hflight, hunmarked, hflight', hunmarked'⟩ |
      ⟨ha2a, htaken, hunmarked, hflight', hunmarked'⟩ |
      ⟨ha2a, htaken, hunmarked, hflight', hunmarked'⟩ | ⟨id, now, ha2a, htaken, hflight, hunmarked⟩
    · refine ⟨fun r ↦ ?_, ?_, ?_⟩
      · rw [htaken, ha2a, hunmarked]
        exact hlive.taken r
      · rw [hflight, hunmarked, ha2a]
        exact hlive.waiting
      · rw [Live.gone, htaken, hflight]
        exact hlive.once
    · rw [hsame]
      refine ⟨fun r ↦ ?_, fun r hr ↦ ?_, hlive.once⟩
      · rw [A2aStore.mem_delivered_insertMessage hinsert]
        exact hlive.taken r
      · exact (A2aStore.mem_waiting_insertMessage hinsert).2 (.inl (hlive.waiting r hr))
    · have htaken' : ∀ r, r ∈ (h.sessions t).taken ↔ r ∈ h.a2a.delivered t := fun r ↦ by
        rw [hlive.taken, hunmarked, or_iff_left List.not_mem_nil]
      refine ⟨fun r ↦ ?_, fun r hr ↦ ?_, ?_⟩
      · rw [htaken, ha2a, hunmarked', htaken', or_iff_left List.not_mem_nil]
      · rw [hflight', hunmarked', List.append_nil, A2aStore.mem_pendingFor] at hr
        rwa [ha2a]
      · have honce := hlive.once
        rw [Live.gone, hflight, List.append_nil] at honce
        rw [Live.gone, htaken, hflight']
        refine honce.append ((hl.valid.pairwise_pendingFor t).imp fun hlt heq ↦ ?_) fun r hr hr' ↦ ?_
        · exact absurd hlt (heq ▸ lt_irrefl _)
        · exact hl.valid.not_mem_delivered (A2aStore.mem_pendingFor.1 hr') t ((htaken' r).1 hr)
    · refine ⟨fun r ↦ ?_, ?_, ?_⟩
      · rw [htaken, ha2a, hunmarked', hlive.taken, hunmarked]
      · simp [hflight', hunmarked']
      · rw [Live.gone, htaken, hflight', List.append_nil]
        exact (List.nodup_append.1 hlive.once).1
    · refine ⟨fun r ↦ ?_, ?_, ?_⟩
      · rw [htaken, ha2a, hunmarked', List.mem_append, hlive.taken, hunmarked,
          or_iff_left (b := r ∈ []) List.not_mem_nil]
      · rw [hflight', hunmarked', ha2a, List.nil_append]
        exact fun r hr ↦ hlive.waiting r (List.mem_append_left _ hr)
      · rw [Live.gone, htaken, hflight', List.append_nil]
        exact hlive.once
    · have hbatch : ∀ b ∈ (h.sessions id).phase.unmarked, b ∈ h.a2a.waiting id := fun b hb ↦
        (hl.live id).waiting b (List.mem_append_right _ hb)
      refine ⟨fun r ↦ ?_, fun r hr ↦ ?_, ?_⟩
      · rw [htaken, ha2a, hl.valid.mem_delivered_markDelivered hbatch, hunmarked, hlive.taken]
        by_cases hid : id = t
        · simp [hid]
        · simp [hid]
      · rw [ha2a, hl.valid.mem_waiting_markDelivered hbatch]
        rw [hflight, hunmarked] at hr
        by_cases hid : id = t
        · subst hid
          rw [if_pos rfl, List.append_nil] at hr
          refine ⟨hlive.waiting r (List.mem_append_left _ hr), fun hr' ↦ ?_⟩
          rcases (h.sessions id).phase.inFlight_or_unmarked with hnil | hnil
          · exact List.not_mem_nil (hnil ▸ hr)
          · exact List.not_mem_nil (hnil ▸ hr')
        · rw [if_neg hid] at hr
          have hwaiting := hlive.waiting r hr
          refine ⟨hwaiting, fun hr' ↦ hid ?_⟩
          exact (A2aStore.mem_waiting.1 (hbatch r hr')).2.1.symm.trans
            (A2aStore.mem_waiting.1 hwaiting).2.1
      · rw [Live.gone, htaken, hflight]
        exact hlive.once

/-- **Every run** keeps the books in order. -/
theorem Hub.ledger_of_reachable {h : Hub} (hr : Hub.system.Reachable h) : h.Ledger := by
  refine hr.invariant ?_ ?_
  · rintro h ⟨history, rfl⟩
    exact ⟨A2aStore.valid_empty, fun t ↦ ⟨by simp [start, Live.quiet, A2aStore.delivered, Phase.unmarked],
      by simp [start, Live.quiet, Phase.inFlight, Phase.unmarked],
      by simp [start, Live.quiet, Live.gone, Phase.inFlight]⟩⟩
  · rintro h a h' - hl ⟨-, rfl⟩
    exact hl.step a

variable {r : MessageRow}

/-- A row that went to an agent, or is about to, is a row of the queue, as it was inserted. -/
theorem Hub.Ledger.row {h : Hub} (hl : h.Ledger) {t : String} (hr : r ∈ (h.sessions t).gone) :
    ∃ r' ∈ h.a2a.messages, r'.message.toSession = t ∧ r'.undelivered = r := by
  have hwaits : r ∈ h.a2a.waiting t → ∃ r' ∈ h.a2a.messages, r'.message.toSession = t ∧
      r'.undelivered = r := fun hw ↦ by
    obtain ⟨hmem, hto, hno⟩ := A2aStore.mem_waiting.1 hw
    exact ⟨r, hmem, hto, MessageRow.undelivered_of_not_isDelivered hno⟩
  rcases List.mem_append.1 hr with htaken | hflight
  · rcases ((hl.live t).taken r).1 htaken with hdelivered | hunmarked
    · obtain ⟨r', hmem, hto, -, hsame⟩ := A2aStore.mem_delivered.1 hdelivered
      exact ⟨r', hmem, hto, hsame⟩
    · exact hwaits ((hl.live t).waiting r (List.mem_append_right _ hunmarked))
  · exact hwaits ((hl.live t).waiting r (List.mem_append_left _ hflight))

theorem Hub.Ledger.rowid_le {h : Hub} (hl : h.Ledger) {t : String}
    (hr : r ∈ (h.sessions t).gone) : r.rowid ≤ h.a2a.messages.length := by
  obtain ⟨r', hmem, -, rfl⟩ := hl.row hr
  obtain ⟨i, hi⟩ := List.mem_iff_getElem?.1 hmem
  have hlt : i < h.a2a.messages.length := (List.getElem?_eq_some_iff.1 hi).1
  have hrowid : r'.undelivered.rowid = i + 1 := hl.valid.rowids i r' hi
  omega

/-! ### The order -/

/-- What went to a session's agent, and what is about to, went by `(created_at, rowid)`, and before
everything that still waits. -/
structure Live.Ordered (l : Live) (a2a : A2aStore) (t : String) : Prop where
  sorted : l.gone.Pairwise fun a b ↦ a.key < b.key
  ahead : ∀ r ∈ l.gone, ∀ w ∈ a2a.waiting t, w ∉ l.gone → r.key < w.key

/-- A message is not stored with a time before that of a message its target's agent was given
already, or that is on its way there. -/
def Hub.InTime (h : Hub) : Action → Prop
  | .insert _ now _ target _ _ => ∀ r ∈ (h.sessions target).gone, r.message.createdAt ≤ now
  | _ => True

/-- **The step lemma** for the order. -/
theorem Live.Ordered.step {h : Hub} (hl : h.Ledger) {t : String}
    (ho : (h.sessions t).Ordered h.a2a t) {a : Action} (hin : h.InTime a) :
    ((h.step a).sessions t).Ordered (h.step a).a2a t := by
  have hlive := hl.live t
  rcases booksStep h a t with ⟨ha2a, htaken, hflight, hunmarked⟩ | ⟨rfl, hinsert, hsame⟩ |
    ⟨ha2a, htaken, hflight, hunmarked, hflight', hunmarked'⟩ |
    ⟨ha2a, htaken, hunmarked, hflight', hunmarked'⟩ |
    ⟨ha2a, htaken, hunmarked, hflight', hunmarked'⟩ | ⟨id, now, ha2a, htaken, hflight, hunmarked⟩
  · have hgone : ((h.step a).sessions t).gone = (h.sessions t).gone := by
      rw [Live.gone, htaken, hflight, Live.gone]
    exact ⟨hgone ▸ ho.sorted, by rw [hgone, ha2a]; exact ho.ahead⟩
  · rw [hsame]
    refine ⟨ho.sorted, fun r hr w hw hnot ↦ ?_⟩
    rcases (A2aStore.mem_waiting_insertMessage hinsert).1 hw with hw | ⟨rfl, rfl⟩
    · exact ho.ahead r hr w hw hnot
    · -- the new row has the latest time and the highest rowid
      obtain ⟨rfl, -, -⟩ := A2aStore.insertMessage_eq_some hinsert
      have htime : r.message.createdAt ≤ _ := hin r hr
      have hrow : r.rowid < h.a2a.messages.length + 1 := by
        have := hl.rowid_le hr
        omega
      rw [MessageRow.key, MessageRow.key, Prod.Lex.toLex_lt_toLex]
      rcases htime.lt_or_eq with hlt | heq
      · exact .inl hlt
      · exact .inr ⟨heq, hrow⟩
  · have hgone : (h.sessions t).gone = (h.sessions t).taken := by
      rw [Live.gone, hflight, List.append_nil]
    have hgone' : ((h.step a).sessions t).gone = (h.sessions t).taken ++ h.a2a.pendingFor t := by
      rw [Live.gone, htaken, hflight']
    rw [ha2a]
    refine ⟨hgone' ▸ List.pairwise_append.2 ⟨hgone ▸ ho.sorted, hl.valid.pairwise_pendingFor t, ?_⟩, ?_⟩
    · intro r hr w hw
      have hwaiting := A2aStore.mem_pendingFor.1 hw
      refine ho.ahead r (hgone ▸ hr) w hwaiting fun hin ↦ ?_
      have hdelivered := (hlive.taken w).1 (hgone ▸ hin)
      rw [hunmarked, or_iff_left List.not_mem_nil] at hdelivered
      exact hl.valid.not_mem_delivered hwaiting t hdelivered
    · rw [hgone']
      exact fun r _ w hw hnot ↦ absurd (List.mem_append_right _ (A2aStore.mem_pendingFor.2 hw)) hnot
  · have hgone : ((h.step a).sessions t).gone = (h.sessions t).taken := by
      rw [Live.gone, htaken, hflight', List.append_nil]
    have hsorted := List.pairwise_append.1 ho.sorted
    refine ⟨hgone ▸ hsorted.1, fun r hr w hw hnot ↦ ?_⟩
    rw [hgone] at hr hnot
    rw [ha2a] at hw
    by_cases hflight : w ∈ (h.sessions t).phase.inFlight
    · exact hsorted.2.2 r hr w hflight
    · exact ho.ahead r (List.mem_append_left _ hr) w hw fun hin ↦
        (List.mem_append.1 hin).elim hnot hflight
  · have hgone : ((h.step a).sessions t).gone = (h.sessions t).gone := by
      rw [Live.gone, htaken, hflight', List.append_nil, Live.gone]
    exact ⟨hgone ▸ ho.sorted, by rw [hgone, ha2a]; exact ho.ahead⟩
  · have hgone : ((h.step a).sessions t).gone = (h.sessions t).gone := by
      rw [Live.gone, htaken, hflight, Live.gone]
    refine ⟨hgone ▸ ho.sorted, fun r hr w hw hnot ↦ ?_⟩
    rw [hgone] at hr hnot
    have hbatch : ∀ b ∈ (h.sessions id).phase.unmarked, b ∈ h.a2a.waiting id := fun b hb ↦
      (hl.live id).waiting b (List.mem_append_right _ hb)
    rw [ha2a, hl.valid.mem_waiting_markDelivered hbatch] at hw
    exact ho.ahead r hr w hw.1 hnot

/-- **Every run** in which no message is stored late gives the messages of each target by
`(created_at, rowid)`. -/
theorem Hub.ordered_of_reachable {C : Hub → Action → Prop} (hC : ∀ h a, C h a → h.InTime a)
    {h : Hub} (hr : (Hub.system.restrict C).Reachable h) (t : String) :
    (h.sessions t).Ordered h.a2a t := by
  refine hr.invariant (I := fun h ↦ (h.sessions t).Ordered h.a2a t) ?_ ?_
  · rintro h ⟨history, rfl⟩
    exact ⟨.nil, fun r hr ↦ absurd hr List.not_mem_nil⟩
  · rintro h a h' hreach ho ⟨hc, -, rfl⟩
    exact ho.step (ledger_of_reachable hreach.of_restrict) (hC h a hc)

end Ember.Server
