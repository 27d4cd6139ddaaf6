import Ember.Client.State

/-!
# What an input does to one session

Two views of the reducer at one session id. `apply_transcripts` says what an input does to the
session's transcript, `apply_sessions` what it does to its record; both are exact, so nothing proved
about runs of the client has to open the reducer again.
-/

namespace Ember.Client

/-- The events of a session that an input delivers, in the order it delivers them. -/
def Input.deliveries (id : String) : Input → List StoredEvent
  | .push (.event _ ev) => if ev.sessionId = id then [ev] else []
  | .eventsFetched sessionId events =>
    if sessionId = id then events.filter fun ev ↦ ev.sessionId == id else []
  | _ => []

/-- Whether an input opens a session's conversation. -/
def Input.opens (id : String) : Input → Bool
  | .opened id' => id' == id
  | _ => false

/-- What an input can do to a session's record. -/
inductive RecordStep
  /-- A whole record from the server. -/
  | offer (record : SessionRecord)
  | event (status : Option SessionStatus) (ev : StoredEvent)
  /-- The user-editable metadata of a record. -/
  | takeMeta (record : SessionRecord)

/-- The steps an input takes on the record of a session, in order. -/
def Input.recordSteps (id : String) : Input → List RecordStep
  | .sessionsLoaded list => (list.filter fun record ↦ record.id == id).map .offer
  | .sessionLoaded record | .push (.sessionCreated record) =>
    if record.id = id then [.offer record] else []
  | .push (.event status ev) => if ev.sessionId = id then [.event (some status) ev] else []
  | .push (.sessionUpdated record) => if record.id = id then [.takeMeta record] else []
  | .eventsFetched sessionId events =>
    if sessionId = id then (events.filter fun ev ↦ ev.sessionId == id).map (.event none) else []
  | _ => []

/-- One step on a session's record, if the client has one. -/
def stepRecord : Option SessionRecord → RecordStep → Option SessionRecord
  | none, .offer record => some record
  | some cur, .offer record => if cur.lastSeq > record.lastSeq then some cur else some record
  | some cur, .event status ev =>
    if ev.seq > cur.lastSeq then some (State.takeEvent cur status ev) else some cur
  | some cur, .takeMeta record => some (cur.takeMeta record).1
  | none, .event _ _ | none, .takeMeta _ => none

variable (s : State)

namespace State

/-! ### The transcript of a session -/

@[simp] theorem markSeen_transcripts (id : String) (ch : Changes) :
    (s.markSeen id ch).1.transcripts = s.transcripts := by
  simp only [markSeen]; split <;> (try split) <;> rfl

@[simp] theorem storeRecord_transcripts (record : SessionRecord) (ch : Changes) :
    (s.storeRecord record ch).1.transcripts = s.transcripts := by
  simp only [storeRecord]
  split
  · split <;> exact markSeen_transcripts ..
  · rfl

@[simp] theorem markKnown_transcripts (record : SessionRecord) :
    (s.markKnown record).transcripts = s.transcripts := by
  simp only [markKnown]; split <;> rfl

@[simp] theorem upsert_transcripts (record : SessionRecord) (ch : Changes) :
    (s.upsert record ch).1.transcripts = s.transcripts := by
  simp only [upsert]
  split
  · split
    · simp
    · split <;> simp
  · simp

@[simp] theorem recordEvent_transcripts (status : Option SessionStatus)
    (ev : StoredEvent) (ch : Changes) :
    (s.recordEvent status ev ch).1.transcripts = s.transcripts := by
  simp only [recordEvent]; split <;> (try split) <;> rfl

@[simp] theorem putTeam_transcripts (team : TeamView) (ch : Changes) :
    (s.putTeam team ch).1.transcripts = s.transcripts := by
  simp only [putTeam]; split <;> rfl

@[simp] theorem unlinkSession_transcripts (id : String) (ch : Changes) :
    (s.unlinkSession id ch).1.transcripts = s.transcripts := by
  simp only [unlinkSession]; split <;> rfl

@[simp] theorem deriveComputerProjects_transcripts :
    s.deriveComputerProjects.1.transcripts = s.transcripts := by
  simp only [deriveComputerProjects]; split <;> rfl

/-- An event reaches the transcript of its own session, when there is one. -/
theorem onEvent_transcripts (status : Option SessionStatus) (ev : StoredEvent)
    (ch : Changes) (id : String) :
    (s.onEvent status ev ch).1.transcripts[id]? =
      if ev.sessionId = id then s.transcripts[id]?.map fun t ↦ (t.apply ev).1
      else s.transcripts[id]? := by
  have htranscript : (s.onEvent status ev ch).1.transcripts =
      ((s.recordEvent status ev ch).1.transcriptEvent ev (s.recordEvent status ev ch).2).1.transcripts
      := by
    simp only [onEvent]; split <;> simp
  rw [htranscript, transcriptEvent, recordEvent_transcripts]
  by_cases hid : ev.sessionId = id
  · subst hid
    cases ht : s.transcripts[ev.sessionId]? with
    | none => simp [ht]
    | some t => simp
  · cases ht : s.transcripts[ev.sessionId]? <;>
      simp [hid, Std.ExtTreeMap.getElem?_insert]

/-- Several events, of whatever sessions, reach the transcript of one session in order. -/
theorem foldl_onEvent_transcripts (id : String) (events : List StoredEvent) (s : State)
    (ch : Changes) :
    (events.foldl (fun (s, ch) ev ↦ onEvent s none ev ch) (s, ch)).1.transcripts[id]? =
      s.transcripts[id]?.map fun t ↦
        (events.filter fun ev ↦ ev.sessionId == id).foldl (fun t ev ↦ (t.apply ev).1) t := by
  induction events generalizing s ch with
  | nil => simp
  | cons ev events ih =>
    rw [List.foldl_cons, ih, onEvent_transcripts]
    by_cases hid : ev.sessionId = id
    · simp [hid, Function.comp_def]
    · simp [hid]

theorem foldl_upsert_transcripts (list : List SessionRecord) (s : State) (ch : Changes) :
    (list.foldl (fun (s, ch) record ↦ upsert s record ch) (s, ch)).1.transcripts
      = s.transcripts := by
  induction list generalizing s ch with
  | nil => rfl
  | cons record list ih => rw [List.foldl_cons, ih, upsert_transcripts]

/-- Bumping the revision is all that `apply` adds to `handle`. -/
theorem apply_eq_handle (input : Input) :
    (s.apply input).1.transcripts = (s.handle .default input).1.transcripts ∧
      (s.apply input).1.sessions = (s.handle .default input).1.sessions := by
  simp only [apply]; split <;> exact ⟨rfl, rfl⟩

theorem filter_other (events : List StoredEvent) {id id' : String} (hid : id' ≠ id) :
    (events.filter fun ev ↦ ev.sessionId == id').filter (fun ev ↦ ev.sessionId == id) = [] := by
  refine List.filter_eq_nil_iff.2 ?_
  simp only [List.mem_filter, beq_iff_eq]
  rintro ev ⟨-, rfl⟩
  exact hid

/-- **What an input does to the transcript of a session.** Opening the conversation creates it, and
then the events delivered for the session are offered to it in order. -/
theorem apply_transcripts (input : Input) (id : String) :
    (s.apply input).1.transcripts[id]? =
      (if input.opens id then some (s.transcripts[id]?.getD .new) else s.transcripts[id]?).map
        fun t ↦ (input.deliveries id).foldl (fun t ev ↦ (t.apply ev).1) t := by
  rw [(apply_eq_handle s input).1]
  cases input with
  | sessionsLoaded list =>
    simp only [handle]
    split <;> simp [foldl_upsert_transcripts, Input.opens, Input.deliveries]
  | sessionLoaded record => simp [handle, Input.opens, Input.deliveries]
  | push push =>
    cases push with
    | sessionCreated session =>
      simp only [handle, upsert_transcripts]
      split <;> simp [Input.opens, Input.deliveries]
    | event status ev =>
      simp only [handle, onEvent_transcripts, Input.opens, Input.deliveries]
      split <;> simp
    | lagged | teamUpdated => simp [handle, Input.opens, Input.deliveries]
    | sessionUpdated | projectUpdated =>
      simp only [handle]
      split <;> simp [Input.opens, Input.deliveries]
  | eventsFetched sessionId events =>
    simp only [handle, foldl_onEvent_transcripts, Input.opens, Input.deliveries]
    by_cases hid : sessionId = id
    · simp [hid]
    · simp [hid, filter_other events hid]
  | opened id' =>
    simp only [handle, markSeen_transcripts, Input.opens, Input.deliveries,
      Std.ExtTreeMap.getElem?_insertIfNew]
    by_cases hid : id' = id
    · subst hid
      cases hget : s.transcripts[id']? with
      | none | some => simp [Std.ExtTreeMap.mem_iff_isSome_getElem?, hget]
    · simp [hid]
  | closed | connection | computersLoaded | projectsLoaded =>
    simp only [handle]
    split <;> simp [Input.opens, Input.deliveries]
  | teamLoaded sessionId team =>
    cases team with
    | none => simp [handle, Input.opens, Input.deliveries]
    | some team =>
      simp only [handle, putTeam_transcripts]
      split <;> simp [Input.opens, Input.deliveries]

/-! ### The record of a session -/

@[simp] theorem markSeen_sessions (id : String) (ch : Changes) :
    (s.markSeen id ch).1.sessions = s.sessions := by
  simp only [markSeen]; split <;> (try split) <;> rfl

@[simp] theorem storeRecord_sessions (record : SessionRecord) (ch : Changes) :
    (s.storeRecord record ch).1.sessions = s.sessions.insert record.id record := by
  simp only [storeRecord]
  split
  · split <;> exact markSeen_sessions ..
  · rfl

@[simp] theorem transcriptEvent_sessions (ev : StoredEvent) (ch : Changes) :
    (s.transcriptEvent ev ch).1.sessions = s.sessions := by
  simp only [transcriptEvent]; split <;> rfl

@[simp] theorem putTeam_sessions (team : TeamView) (ch : Changes) :
    (s.putTeam team ch).1.sessions = s.sessions := by
  simp only [putTeam]; split <;> rfl

@[simp] theorem unlinkSession_sessions (id : String) (ch : Changes) :
    (s.unlinkSession id ch).1.sessions = s.sessions := by
  simp only [unlinkSession]; split <;> rfl

@[simp] theorem deriveComputerProjects_sessions :
    s.deriveComputerProjects.1.sessions = s.sessions := by
  simp only [deriveComputerProjects]; split <;> rfl

@[simp] theorem markKnown_sessions (record : SessionRecord) :
    (s.markKnown record).sessions = s.sessions := by
  simp only [markKnown]; split <;> rfl

theorem upsert_sessions (record : SessionRecord) (ch : Changes) (id : String) :
    (s.upsert record ch).1.sessions[id]? =
      if record.id = id then stepRecord s.sessions[id]? (.offer record) else s.sessions[id]? := by
  simp only [upsert, markKnown_sessions]
  cases hcur : s.sessions[record.id]? with
  | none =>
    by_cases hid : record.id = id
    · subst hid
      simp [stepRecord, hcur]
    · simp [hid, Std.ExtTreeMap.getElem?_insert]
  | some cur =>
    by_cases hid : record.id = id
    · subst hid
      simp only [stepRecord, hcur, if_true]
      split
      · simp [hcur]
      · split
        case isTrue heq => simp [hcur, heq]
        case isFalse => simp
    · simp only [hid, if_false]
      split
      · simp
      · split <;> simp [hid, Std.ExtTreeMap.getElem?_insert]

/-- An event reaches the record of its own session. -/
theorem onEvent_sessions (status : Option SessionStatus) (ev : StoredEvent)
    (ch : Changes) (id : String) :
    (s.onEvent status ev ch).1.sessions[id]? =
      if ev.sessionId = id then stepRecord s.sessions[id]? (.event status ev)
      else s.sessions[id]? := by
  have hrecord : (s.onEvent status ev ch).1.sessions = (s.recordEvent status ev ch).1.sessions := by
    simp only [onEvent]; split <;> simp
  rw [hrecord, recordEvent]
  by_cases hid : ev.sessionId = id
  · subst hid
    cases hcur : s.sessions[ev.sessionId]? with
    | none => simp [stepRecord, hcur]
    | some cur =>
      simp only [stepRecord, if_true]
      split <;> simp [hcur]
  · cases hcur : s.sessions[ev.sessionId]? with
    | none => simp [hid]
    | some cur =>
      simp only [hid, if_false]
      split <;> simp [hid, Std.ExtTreeMap.getElem?_insert]

theorem foldl_upsert_sessions (id : String) (list : List SessionRecord) (s : State) (ch : Changes) :
    (list.foldl (fun (s, ch) record ↦ upsert s record ch) (s, ch)).1.sessions[id]? =
      ((list.filter fun record ↦ record.id == id).map .offer).foldl stepRecord s.sessions[id]? := by
  induction list generalizing s ch with
  | nil => simp
  | cons record list ih =>
    rw [List.foldl_cons, ih, upsert_sessions]
    by_cases hid : record.id = id <;> simp [hid]

theorem foldl_onEvent_sessions (id : String) (events : List StoredEvent) (s : State)
    (ch : Changes) :
    (events.foldl (fun (s, ch) ev ↦ onEvent s none ev ch) (s, ch)).1.sessions[id]? =
      ((events.filter fun ev ↦ ev.sessionId == id).map (.event none)).foldl stepRecord
        s.sessions[id]? := by
  induction events generalizing s ch with
  | nil => simp
  | cons ev events ih =>
    rw [List.foldl_cons, ih, onEvent_sessions]
    by_cases hid : ev.sessionId = id <;> simp [hid]

/-- **What an input does to the record of a session**: its steps on that record, in order. -/
theorem apply_sessions (input : Input) (id : String) :
    (s.apply input).1.sessions[id]? =
      (input.recordSteps id).foldl stepRecord s.sessions[id]? := by
  rw [(apply_eq_handle s input).2]
  cases input with
  | sessionsLoaded list =>
    simp only [handle]
    split <;> exact foldl_upsert_sessions ..
  | sessionLoaded record =>
    simp only [handle, upsert_sessions, Input.recordSteps]
    split <;> rfl
  | push push =>
    cases push with
    | sessionCreated session =>
      simp only [handle, upsert_sessions, Input.recordSteps]
      split <;> split <;> rfl
    | event status ev =>
      simp only [handle, onEvent_sessions, Input.recordSteps]
      split <;> rfl
    | lagged missed => rfl
    | sessionUpdated session =>
      simp only [handle, Input.recordSteps]
      by_cases hid : session.id = id
      · subst hid
        cases hcur : s.sessions[session.id]? <;> simp [stepRecord, hcur]
      · cases hcur : s.sessions[session.id]? <;>
          simp [hid, Std.ExtTreeMap.getElem?_insert]
    | projectUpdated project =>
      simp only [handle]
      split <;> simp [Input.recordSteps]
    | teamUpdated team => simp [handle, Input.recordSteps]
  | eventsFetched sessionId events =>
    simp only [handle, foldl_onEvent_sessions, Input.recordSteps]
    by_cases hid : sessionId = id
    · simp [hid]
    · simp [hid, filter_other events hid]
  | opened id' => simp [handle, Input.recordSteps]
  | closed | connection | computersLoaded | projectsLoaded =>
    simp only [handle]
    split <;> simp [Input.recordSteps]
  | teamLoaded sessionId team =>
    cases team with
    | none => simp [handle, Input.recordSteps]
    | some team =>
      simp only [handle, putTeam_sessions]
      split <;> simp [Input.recordSteps]

end State

end Ember.Client
