import Ember.Basic
import Ember.Server.Events
import Mathlib.Data.List.Induction
import Mathlib.Data.List.Sort
import Mathlib.Order.Basic
import Std.Data.ExtTreeMap.Lemmas

/-!
# The session store of the server

The two tables the session API reads and writes: `sessions`, by id, and `events`, in the order they
were inserted. A call of the store is one transaction, so each is one function here; the clock and
the fresh id a call draws are arguments. A row is kept as the record it reads back as: the status
column is text, and `parseStatus_statusStr` says that reading it undoes writing it.

`Store.Consistent` is what every history of calls keeps: a session's row is a function of its log.
-/

namespace Ember.Server

/-- `AgentKind`. -/
inductive AgentKind
  | claudeCode
  | codex
  | antigravity
  | scripted
  /-- An agent driven through the Agent Client Protocol, by its configured name. -/
  | acp (name : String)
  deriving DecidableEq, Repr

/-- `AgentKind::as_str`. -/
def AgentKind.asStr : AgentKind → String
  | .claudeCode => "claude-code"
  | .codex => "codex"
  | .antigravity => "antigravity"
  | .scripted => "scripted"
  | .acp name => name

/-- `SessionRecord`. -/
structure SessionRecord where
  id : String
  project : String
  agent : AgentKind
  cwd : String
  model : Option String
  nativeId : Option String
  status : SessionStatus
  title : String
  createdAt : ℕ
  updatedAt : ℕ
  /-- Sequence number of the last stored event, 0 when there is none. -/
  lastSeq : ℕ
  accountId : Option String
  accountReason : Option String
  pinned : Bool
  archived : Bool
  deriving DecidableEq, Repr

/-- `SessionPatch`: a change to a session's user-editable metadata; `none` leaves a field alone. -/
structure SessionPatch where
  title : Option String
  pinned : Option Bool
  archived : Option Bool
  deriving DecidableEq, Repr

/-- The `sessions` and `events` tables. -/
structure Store where
  sessions : Std.ExtTreeMap String SessionRecord
  events : List StoredEvent

/-- A session's row after `Store::append`. -/
def SessionRecord.append (record : SessionRecord) (now : ℕ) (event : AgentEvent) : SessionRecord :=
  { record with
    lastSeq := record.lastSeq + 1
    status := (parseStatus (statusStr record.status)).after event
    updatedAt := now
    nativeId := match event with
      | .nativeSession nativeId => some nativeId
      | _ => record.nativeId }

/-- A session's row after `Store::update_session_meta`. -/
def SessionRecord.updateMeta (record : SessionRecord) (patch : SessionPatch) : SessionRecord :=
  { record with
    title := (patch.title.map trim).getD record.title
    pinned := patch.pinned.getD record.pinned
    archived := patch.archived.getD record.archived }

namespace Store

/-- An empty database. -/
def empty : Store := ⟨∅, []⟩

/-- `Store::create_session_with_account`, with the fresh id and the time it draws. An id that is
taken violates the primary key, and nothing is stored. -/
def createSession (s : Store) (id : String) (now : ℕ) (project : String) (agent : AgentKind)
    (cwd : String) (model : Option String) (title : String) (account : Option (String × String)) :
    Option (Store × SessionRecord) :=
  if id ∈ s.sessions then none
  else
    let record : SessionRecord :=
      { id, project, agent, cwd, model, nativeId := none, status := .idle, title, createdAt := now,
        updatedAt := now, lastSeq := 0, accountId := account.map Prod.fst,
        accountReason := account.map Prod.snd, pinned := false, archived := false }
    some ({ s with sessions := s.sessions.insert id record }, record)

/-- `Store::session`. -/
def session (s : Store) (id : String) : Option SessionRecord := s.sessions[id]?

/-- `Store::sessions`: most recently active first. -/
def list (s : Store) (project : Option String) : List SessionRecord :=
  ((s.sessions.toList.map Prod.snd).filter fun record ↦
    project.all (record.project == ·)).insertionSort fun a b ↦ a.updatedAt ≥ b.updatedAt

/-- `Store::append`: store the event under the next sequence number, with the status after it. A
session without a row is an error. -/
def append (s : Store) (sessionId : String) (now : ℕ) (event : AgentEvent) :
    Option (Store × StoredEvent × SessionStatus) :=
  match s.sessions[sessionId]? with
  | none => none
  | some record =>
    let stored : StoredEvent := ⟨sessionId, record.lastSeq + 1, now, event⟩
    let record := record.append now event
    some ({ sessions := s.sessions.insert sessionId record, events := s.events ++ [stored] },
      stored, record.status)

/-- `Store::events_after`: events with `seq > after`, oldest first. -/
def eventsAfter (s : Store) (sessionId : String) (after : ℕ) : List StoredEvent :=
  (s.events.filter fun ev ↦ ev.sessionId == sessionId && decide (ev.seq > after)).insertionSort
    fun a b ↦ a.seq ≤ b.seq

/-- `Store::update_session_meta`: an empty title is refused, an unknown session is `none`. -/
def updateSessionMeta (s : Store) (id : String) (patch : SessionPatch) :
    Except String (Option (Store × SessionRecord)) :=
  if patch.title.map trim = some "" then .error "title must not be empty"
  else
    match s.sessions[id]? with
    | none => .ok none
    | some record =>
      let record := record.updateMeta patch
      .ok (some ({ s with sessions := s.sessions.insert id record }, record))

end Store

/-- A call of the store that may write. -/
inductive StoreOp
  | createSession (id : String) (now : ℕ) (project : String) (agent : AgentKind) (cwd : String)
      (model : Option String) (title : String) (account : Option (String × String))
  | append (sessionId : String) (now : ℕ) (event : AgentEvent)
  | updateSessionMeta (id : String) (patch : SessionPatch)

namespace Store

/-- The tables after a call; a call that fails leaves them alone. -/
def step (s : Store) : StoreOp → Store
  | .createSession id now project agent cwd model title account =>
    ((s.createSession id now project agent cwd model title account).map Prod.fst).getD s
  | .append sessionId now event => ((s.append sessionId now event).map Prod.fst).getD s
  | .updateSessionMeta id patch =>
    match s.updateSessionMeta id patch with
    | .ok (some (s, _)) => s
    | _ => s

/-- The tables after a list of calls on an empty database. -/
def ofHistory (history : List StoreOp) : Store := history.foldl step empty

theorem ofHistory_concat (history : List StoreOp) (op : StoreOp) :
    ofHistory (history ++ [op]) = (ofHistory history).step op := by
  rw [ofHistory, List.foldl_append]
  rfl

/-! ### A session's row is a function of its log -/

/-- The stored events of a session. -/
def stored (s : Store) (id : String) : List StoredEvent :=
  s.events.filter fun ev ↦ ev.sessionId == id

/-- The events of a session. -/
def log (s : Store) (id : String) : List AgentEvent := (s.stored id).map StoredEvent.event

end Store

/-- The agent's own session id after an event, given the one before it. -/
def nativeAfter (native : Option String) : AgentEvent → Option String
  | .nativeSession nativeId => some nativeId
  | _ => native

/-- The agent's own session id after a log. -/
def nativeOf (log : List AgentEvent) : Option String := log.foldl nativeAfter none

@[simp] theorem SessionStatus.ofLog_concat (log : List AgentEvent) (e : AgentEvent) :
    SessionStatus.ofLog (log ++ [e]) = (SessionStatus.ofLog log).after e := by
  simp [SessionStatus.ofLog]

@[simp] theorem nativeOf_concat (log : List AgentEvent) (e : AgentEvent) :
    nativeOf (log ++ [e]) = nativeAfter (nativeOf log) e := by
  simp [nativeOf]

/-- A record that follows from a session's log: what `Store::append` writes besides the time. -/
structure SessionRecord.Follows (record : SessionRecord) (id : String) (log : List AgentEvent) :
    Prop where
  id : record.id = id
  lastSeq : record.lastSeq = log.length
  status : record.status = .ofLog log
  nativeId : record.nativeId = nativeOf log

variable {record : SessionRecord} {id : String}

theorem SessionRecord.Follows.append {log : List AgentEvent} (h : record.Follows id log) (now : ℕ)
    (event : AgentEvent) :
    (record.append now event).Follows id (log ++ [event]) where
  id := h.id
  lastSeq := by simp [SessionRecord.append, h.lastSeq]
  status := by simp [SessionRecord.append, h.status]
  nativeId := by
    rw [nativeOf_concat, ← h.nativeId]
    cases event <;> rfl

variable {ev : StoredEvent}

namespace Store

/-- `update_session_meta` writes the row of a session that is there, or nothing. -/
theorem updateSessionMeta_cases (s : Store) (id : String) (patch : SessionPatch) :
    (∃ row, s.sessions[id]? = some row ∧
      s.updateSessionMeta id patch = .ok (some
        ({ s with sessions := s.sessions.insert id (row.updateMeta patch) },
          row.updateMeta patch)) ∧
      s.step (.updateSessionMeta id patch) =
        { s with sessions := s.sessions.insert id (row.updateMeta patch) }) ∨
    (∀ r, s.updateSessionMeta id patch ≠ .ok (some r)) ∧
      s.step (.updateSessionMeta id patch) = s := by
  by_cases htitle : patch.title.map trim = some ""
  · exact .inr ⟨by simp [updateSessionMeta, htitle], by simp [step, updateSessionMeta, htitle]⟩
  · cases hget : s.sessions[id]? with
    | none => exact .inr ⟨by simp [updateSessionMeta, htitle, hget],
        by simp [step, updateSessionMeta, htitle, hget]⟩
    | some row => exact .inl ⟨row, rfl, by simp [updateSessionMeta, htitle, hget],
        by simp [step, updateSessionMeta, htitle, hget]⟩

/-- What every history of calls keeps: a row follows from its session's log, and a session's events
are numbered from 1. -/
structure Consistent (s : Store) : Prop where
  rows : ∀ id (record : SessionRecord), s.sessions[id]? = some record → record.Follows id (s.log id)
  fresh : ∀ id, s.sessions[id]? = none → s.log id = []
  numbered : ∀ id k ev, (s.stored id)[k]? = some ev → ev.seq = k + 1

variable {s : Store}

/-- An event of a session is numbered by its place. -/
theorem Consistent.seq_le_length (h : s.Consistent)
    (hev : ev ∈ s.stored id) : ev.seq ≤ (s.stored id).length := by
  obtain ⟨k, hk⟩ := List.mem_iff_getElem?.1 hev
  rw [h.numbered id k ev hk]
  exact (List.getElem?_eq_some_iff.1 hk).1

theorem consistent_empty : empty.Consistent :=
  ⟨fun _ _ h ↦ absurd h (by simp [empty]), fun _ _ ↦ rfl,
    fun _ _ _ h ↦ absurd h (by simp [empty, stored])⟩

/-- Writing one row. -/
theorem Consistent.insert (h : s.Consistent) (hrecord : record.Follows id (s.log id)) :
    { s with sessions := s.sessions.insert id record }.Consistent where
  rows id' r hget := by
    rw [Std.ExtTreeMap.getElem?_insert] at hget
    split at hget
    case isTrue heq =>
      obtain rfl := Option.some.inj hget
      rwa [← Std.LawfulEqCmp.compare_eq_iff_eq.1 heq]
    case isFalse => exact h.rows id' r hget
  fresh id' hnone := by
    rw [Std.ExtTreeMap.getElem?_insert] at hnone
    split at hnone
    case isTrue => cases hnone
    case isFalse => exact h.fresh id' hnone
  numbered := h.numbered

/-- An event is stored at the end of its session's events. -/
theorem stored_append (rows : Std.ExtTreeMap String SessionRecord) (s : Store) (ev : StoredEvent)
    (id : String) :
    stored ⟨rows, s.events ++ [ev]⟩ id =
      if ev.sessionId = id then s.stored id ++ [ev] else s.stored id := by
  rw [stored, stored, List.filter_append]
  by_cases hid : ev.sessionId = id <;> simp [hid]

/-- Storing an event and its session's row after it. -/
theorem Consistent.append (h : s.Consistent) {sessionId : String}
    (hget : s.sessions[sessionId]? = some record) (now : ℕ) (event : AgentEvent) :
    Consistent ⟨s.sessions.insert sessionId (record.append now event),
      s.events ++ [⟨sessionId, record.lastSeq + 1, now, event⟩]⟩ where
  rows id r hr := by
    rw [Std.ExtTreeMap.getElem?_insert] at hr
    by_cases hid : sessionId = id
    · subst hid
      obtain rfl : record.append now event = r := by simpa using hr
      rw [log, stored_append, if_pos rfl, List.map_append]
      exact (h.rows _ _ hget).append now event
    · rw [log, stored_append, if_neg hid]
      exact h.rows id r (by simpa [hid] using hr)
  fresh id hnone := by
    rw [Std.ExtTreeMap.getElem?_insert] at hnone
    by_cases hid : sessionId = id
    · simp [hid] at hnone
    · rw [log, stored_append, if_neg hid]
      exact h.fresh id (by simpa [hid] using hnone)
  numbered id k ev hev := by
    rw [stored_append] at hev
    split at hev
    case isTrue hid =>
      obtain rfl : sessionId = id := hid
      rcases Nat.lt_trichotomy k (s.stored sessionId).length with hlt | rfl | hgt
      · exact h.numbered sessionId k ev (by rwa [List.getElem?_append_left hlt] at hev)
      · obtain rfl : _ = ev := Option.some.inj (by simpa using hev)
        simpa [log] using (h.rows _ _ hget).lastSeq
      · rw [List.getElem?_eq_none (by simp; omega)] at hev
        cases hev
    case isFalse => exact h.numbered id k ev hev

/-- **One call** of the store keeps it consistent. -/
theorem Consistent.step (h : s.Consistent) (op : StoreOp) : (s.step op).Consistent := by
  cases op with
  | createSession id now project agent cwd model title account =>
    simp only [Store.step, createSession]
    split
    · exact h
    case isFalse hnew =>
      have hnone : s.sessions[id]? = none := Std.ExtTreeMap.getElem?_eq_none hnew
      exact h.insert ⟨rfl, by rw [h.fresh id hnone]; rfl, by rw [h.fresh id hnone]; rfl,
        by rw [h.fresh id hnone]; rfl⟩
  | append sessionId now event =>
    simp only [Store.step, Store.append]
    cases hget : s.sessions[sessionId]? with
    | none => exact h
    | some record => exact h.append hget now event
  | updateSessionMeta id patch =>
    rcases s.updateSessionMeta_cases id patch with ⟨row, hget, -, hstep⟩ | ⟨-, hstep⟩
    · have hrow := h.rows id row hget
      rw [hstep]
      exact h.insert ⟨hrow.id, hrow.lastSeq, hrow.status, hrow.nativeId⟩
    · rwa [hstep]

/-- **Every history** of calls leaves the store consistent. -/
theorem consistent_ofHistory (history : List StoreOp) : (ofHistory history).Consistent := by
  induction history using List.reverseRecOn with
  | nil => exact consistent_empty
  | append_singleton history op ih =>
    rw [ofHistory_concat]
    exact ih.step op

/-! ### A session's log only grows -/

theorem log_prefix_step (s : Store) (op : StoreOp) (id : String) :
    s.log id <+: (s.step op).log id := by
  cases op with
  | createSession id' now project agent cwd model title account =>
    simp only [Store.step, createSession]
    split <;> exact List.prefix_refl _
  | append sessionId now event =>
    simp only [Store.step, Store.append]
    cases hget : s.sessions[sessionId]? with
    | none => exact List.prefix_refl _
    | some record =>
      simp only [Option.map_some, Option.getD_some]
      rw [log, log, stored_append]
      split
      · rw [List.map_append]
        exact List.prefix_append ..
      · exact List.prefix_refl _
  | updateSessionMeta id' patch =>
    rcases s.updateSessionMeta_cases id' patch with ⟨row, -, -, hstep⟩ | ⟨-, hstep⟩ <;>
      rw [hstep] <;> exact List.prefix_refl _

/-- An event that a call stored is the one it was asked to append. -/
theorem mem_stored_step {s : Store} {op : StoreOp}
    (h : ev ∈ (s.step op).stored id) : ev ∈ s.stored id ∨ ∃ now, op = .append id now ev.event := by
  cases op with
  | createSession id' now project agent cwd model title account =>
    simp only [Store.step, createSession] at h
    split at h <;> exact .inl h
  | append sessionId now event =>
    simp only [Store.step, Store.append] at h
    cases hget : s.sessions[sessionId]? with
    | none => exact .inl (by simpa only [hget, Option.map_none, Option.getD_none] using h)
    | some record =>
      simp only [hget, Option.map_some, Option.getD_some] at h
      rw [stored_append] at h
      split at h
      case isTrue hid =>
        obtain rfl : sessionId = id := hid
        refine (List.mem_append.1 h).imp_right fun hev ↦ ?_
        obtain rfl := List.mem_singleton.1 hev
        exact ⟨now, rfl⟩
      case isFalse => exact .inl h
  | updateSessionMeta id' patch =>
    rcases s.updateSessionMeta_cases id' patch with ⟨row, -, -, hstep⟩ | ⟨-, hstep⟩ <;>
      rw [hstep] at h <;> exact .inl h

/-- A snapshot's log of a session is the beginning of every later one. -/
theorem log_prefix_of_prefix {history history' : List StoreOp} (h : history <+: history')
    (id : String) : (ofHistory history).log id <+: (ofHistory history').log id := by
  obtain ⟨ops, rfl⟩ := h
  induction ops using List.reverseRecOn with
  | nil => exact (List.append_nil history).symm ▸ List.prefix_refl _
  | append_singleton ops op ih =>
    rw [← List.append_assoc, ofHistory_concat]
    exact ih.trans (log_prefix_step ..)

/-- In a numbered list the entries above a number are the rest of the list. -/
theorem filter_gt_of_numbered {l : List StoredEvent} {n : ℕ}
    (h : ∀ k ev, l[k]? = some ev → ev.seq = n + k + 1) (after : ℕ) :
    l.filter (fun ev ↦ decide (ev.seq > after)) = l.drop (after - n) := by
  induction l generalizing n with
  | nil => simp
  | cons ev l ih =>
    have hev : ev.seq = n + 1 := h 0 ev rfl
    have hl := ih (n := n + 1) fun k ev' hk ↦ by rw [h (k + 1) ev' hk]; omega
    rw [List.filter_cons, hl, hev]
    rcases Nat.lt_or_ge n after with hlt | hge
    · rw [if_neg (by simp; omega), show after - n = after - (n + 1) + 1 by omega, List.drop_succ_cons]
    · rw [if_pos (by simp; omega), show after - n = 0 by omega, show after - (n + 1) = 0 by omega]
      rfl

/-- `events_after` answers with the session's events from the next number on. -/
theorem Consistent.eventsAfter_eq (h : s.Consistent) (id : String) (after : ℕ) :
    s.eventsAfter id after = (s.stored id).drop after := by
  have hfilter : (s.events.filter fun ev ↦ ev.sessionId == id && decide (ev.seq > after)) =
      (s.stored id).drop after := by
    rw [← Nat.sub_zero after, ← filter_gt_of_numbered (n := 0) fun k ev hk ↦ by
      rw [h.numbered id k ev hk, Nat.zero_add], stored, List.filter_filter, Nat.sub_zero]
    exact List.filter_congr fun ev _ ↦ Bool.and_comm ..
  rw [eventsAfter, hfilter]
  refine List.Pairwise.insertionSort_eq (List.pairwise_iff_getElem.2 fun i j hi hj hij ↦ ?_)
  have hseq : ∀ {k} (hk : k < ((s.stored id).drop after).length),
      ((s.stored id).drop after)[k].seq = after + k + 1 := fun {k} hk ↦
    h.numbered id _ _ (by rw [List.getElem_drop, List.getElem?_eq_getElem])
  rw [hseq, hseq]
  omega

/-- The list answers with rows of the table, those of the project asked for. -/
theorem mem_list_iff (project : Option String) (record : SessionRecord) :
    record ∈ s.list project ↔
      (∃ id : String, s.sessions[id]? = some record) ∧
        project.all (record.project == ·) = true := by
  rw [list, List.mem_insertionSort, List.mem_filter, List.mem_map]
  refine and_congr_left fun _ ↦ ⟨?_, fun ⟨id, hget⟩ ↦ ?_⟩
  · rintro ⟨⟨id, r⟩, hmem, rfl⟩
    exact ⟨id, Std.ExtTreeMap.mem_toList_iff_getElem?_eq_some.1 hmem⟩
  · exact ⟨(id, record), Std.ExtTreeMap.mem_toList_iff_getElem?_eq_some.2 hget, rfl⟩

end Store

end Ember.Server
