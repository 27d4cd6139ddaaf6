import Ember.Server.A2a.Team

/-!
# What the teams keep

A spawn checks the limits of its team on what it read, and inserts the teammate later; in between
anything can happen. `SpawnCall.Careful` asks that the check still holds where the row goes in, and
that a spawn does not fail in the places that have no clean-up of their own. In runs of such steps
the tables keep their limits, and a spawn that returned an error has left nothing behind.

The invariant is one statement for each state of a call, `SpawnCall.Tidy`, made of facts that no
write undoes (`Tables.Grows`); so only the call that takes the step has to be looked at.
-/

namespace Ember.Server

open TeamStore

/-! ### Facts that no write undoes -/

namespace TeamStore

variable {s s' : TeamStore} {teamId id : String}

/-- The team exists. -/
def Known (s : TeamStore) (teamId : String) : Prop := ∃ t ∈ s.teams, t.id = teamId

/-- The session has a row of a teammate in the team. -/
def Joined (s : TeamStore) (teamId id : String) : Prop :=
  ∃ m ∈ s.members, m.sessionId = id ∧ m.teamId = teamId ∧ m.role = .teammate

/-- The session has a row, and its membership has ended. -/
def Left (s : TeamStore) (id : String) : Prop := ∃ m ∈ s.members, m.sessionId = id ∧ m.active = false

theorem Grows.known (h : s.Grows s') (hk : s.Known teamId) : s'.Known teamId := by
  obtain ⟨t, ht, hid⟩ := hk
  exact ⟨t, h.teams t ht, hid⟩

theorem Grows.joined (h : s.Grows s') (hj : s.Joined teamId id) : s'.Joined teamId id := by
  obtain ⟨m, hm, hid, hteam, hrole⟩ := hj
  obtain hm | ⟨now, hm⟩ := h.members m hm
  · exact ⟨m, hm, hid, hteam, hrole⟩
  · exact ⟨m.ended now, hm, hid, hteam, hrole⟩

theorem Grows.left (h : s.Grows s') (hl : s.Left id) : s'.Left id := by
  obtain ⟨m, hm, hid, hended⟩ := hl
  obtain hm | ⟨now, hm⟩ := h.members m hm
  · exact ⟨m, hm, hid, hended⟩
  · exact ⟨m.ended now, hm, hid, rfl⟩

/-- Ending a teammate leaves it ended, also when it was ended before. -/
theorem Joined.left_endTeamMember (h : s.Joined teamId id) (now : ℕ) :
    (s.endTeamMember now id).1.Left id := by
  obtain ⟨m, hm, rfl, -, hrole⟩ := h
  refine ⟨_, List.mem_map.2 ⟨m, hm, rfl⟩, ?_⟩
  by_cases hactive : m.active = true
  · rw [if_pos ⟨rfl, by simp [MemberRow.isActiveTeammate, hrole, hactive]⟩]
    exact ⟨rfl, rfl⟩
  · have hended : m.active = false := Bool.eq_false_iff.2 hactive
    rw [if_neg fun hin ↦ hactive (Bool.and_eq_true_iff.1 hin.2).2]
    exact ⟨rfl, hended⟩

/-- A session that left has no active row. -/
theorem Limits.not_active (h : s.Limits) (hl : s.Left id) {m : MemberRow} (hm : m ∈ s.members)
    (hid : m.sessionId = id) : m.active = false := by
  obtain ⟨o, ho, hoid, hended⟩ := hl
  rwa [h.eq_of_sessionId hm ho (hid.trans hoid.symm)]

end TeamStore

namespace Store

/-- The later database still has the earlier one's sessions, and the archived ones archived. -/
def Keeps (s s' : Store) : Prop :=
  ∀ id r, s.session id = some r →
    ∃ r', s'.session id = some r' ∧ (r.archived = true → r'.archived = true)

/-- The session exists and is archived. -/
def Archived (s : Store) (id : String) : Prop := ∃ r, s.session id = some r ∧ r.archived = true

/-- The session exists. -/
def Present (s : Store) (id : String) : Prop := ∃ r, s.session id = some r

variable {s s' : Store} {id : String}

theorem Keeps.refl (s : Store) : s.Keeps s := fun _ r h ↦ ⟨r, h, fun h ↦ h⟩

theorem Keeps.present (h : s.Keeps s') (hp : s.Present id) : s'.Present id := by
  obtain ⟨r, hr⟩ := hp
  obtain ⟨r', hr', -⟩ := h id r hr
  exact ⟨r', hr'⟩

theorem Keeps.archived (h : s.Keeps s') (ha : s.Archived id) : s'.Archived id := by
  obtain ⟨r, hr, hyes⟩ := ha
  obtain ⟨r', hr', himp⟩ := h id r hr
  exact ⟨r', hr', himp hyes⟩

/-- A row is written that is new, or archived if the one before it was. -/
theorem keeps_insert (s : Store) (events : List StoredEvent) (id : String) (record : SessionRecord)
    (hold : ∀ r, s.session id = some r → r.archived = true → record.archived = true) :
    s.Keeps ⟨s.sessions.insert id record, events⟩ := by
  intro id' r hr
  rw [session, Std.ExtTreeMap.getElem?_insert]
  split
  case isTrue heq =>
    obtain rfl := Std.LawfulEqCmp.compare_eq_iff_eq.1 heq
    exact ⟨record, rfl, hold r hr⟩
  case isFalse => exact ⟨r, hr, fun h ↦ h⟩

theorem createSession_eq_some {now : ℕ} {project cwd title : String} {agent : AgentKind}
    {model : Option String} {account : Option (String × String)} {record : SessionRecord}
    (h : s.createSession id now project agent cwd model title account = some (s', record)) :
    s.Keeps s' ∧ s'.Present id := by
  rw [createSession] at h
  split at h
  case isTrue => cases h
  case isFalse hnew =>
    obtain ⟨rfl, rfl⟩ := Prod.mk.inj (Option.some.inj h)
    refine ⟨keeps_insert s _ id _ fun r hr ↦ ?_, _, Std.ExtTreeMap.getElem?_insert_self⟩
    have hnone : s.session id = none := Std.ExtTreeMap.getElem?_eq_none hnew
    cases hnone.symm.trans hr

theorem keeps_append (s : Store) (sessionId : String) (now : ℕ) (event : AgentEvent) :
    s.Keeps (s.step (.append sessionId now event)) := by
  simp only [step, append]
  cases hget : s.sessions[sessionId]? with
  | none => exact .refl s
  | some record =>
    refine keeps_insert s _ sessionId _ fun r hr harchived ↦ ?_
    obtain rfl := Option.some.inj (hget.symm.trans hr)
    exact harchived

/-- Archiving a session keeps every other as it is. -/
theorem keeps_archive (s : Store) (id : String) :
    s.Keeps (s.step (.updateSessionMeta id SpawnCall.archivePatch)) := by
  simp only [step, updateSessionMeta, SpawnCall.archivePatch, Option.map_none, reduceCtorEq,
    if_false]
  cases hget : s.sessions[id]? with
  | none => exact .refl s
  | some record => exact keeps_insert s _ id _ fun _ _ _ ↦ rfl

theorem Present.archived_archive (h : s.Present id) :
    (s.step (.updateSessionMeta id SpawnCall.archivePatch)).Archived id := by
  obtain ⟨record, hget⟩ := h
  have hget : s.sessions[id]? = some record := hget
  simp only [step, updateSessionMeta, SpawnCall.archivePatch, Option.map_none, reduceCtorEq,
    if_false, hget]
  exact ⟨_, Std.ExtTreeMap.getElem?_insert_self, rfl⟩

end Store

/-- What no write undoes. -/
structure Tables.Grows (t t' : Tables) : Prop where
  store : t.store.Keeps t'.store
  teams : t.teams.Grows t'.teams

/-! ### The condition, and what a call leaves -/

namespace SpawnCall

/-- Where the next store call of a spawn goes through: a team is made if one is to be made, a row
that goes in finds room, a team just made is not left without its teammate, and the message is
stored. -/
def Careful (c : SpawnCall) (t : Tables) (d : Draw) : Prop :=
  match c.phase with
  | .founding leader _ => (t.teams.createTeam d.id d.now c.caller leader.project).isSome = true
  | .joining teamId id =>
    let joined := t.teams.addTeamMember d.now teamId id c.name
    (joined.isNone = true → c.caller ∉ c.rows) ∧
      (joined.isSome = true → t.teams.Admits teamId c.name)
  | .placing .. => d.moved = some (.ok ()) ∨ c.caller ∉ c.rows
  | .greeting _ id =>
    (t.a2a.insertMessage d.id d.now c.caller id none (trim c.req.prompt)).isSome = true
  | _ => True

instance (c : SpawnCall) (t : Tables) (d : Draw) : Decidable (c.Careful t d) := by
  unfold Careful Admits
  split <;> infer_instance

/-- Where the next store call of a spawn may fail: before it has created anything, and at the
teammate's row if it did not make the team. -/
def MayFail (c : SpawnCall) : Prop :=
  match c.phase with
  | .joining .. => c.caller ∉ c.rows
  | .created .. | .founding .. | .ending .. | .archiving .. | .greeting .. | .delivering ..
  | .viewing .. => False
  | _ => True

instance (c : SpawnCall) : Decidable c.MayFail := by
  unfold MayFail
  split <;> infer_instance

/-- A spawn that returned an error has left no active row and no unarchived session that it
created. -/
def CleanedUp (c : SpawnCall) (t : Tables) : Prop :=
  ∀ error, c.phase = .returned (.error error) →
    (∀ id ∈ c.rows, ∀ m ∈ t.teams.members, m.sessionId = id → m.active = false) ∧
      ∀ id ∈ c.sessions, ∀ r, t.store.session id = some r → r.archived = true

end SpawnCall

/-- The answer will have the session. -/
def ViewAt.Has (view : ViewAt) (id : String) : Prop :=
  match view with
  | .team | .members => True
  | .records rows done =>
    (∃ m ∈ rows, m.sessionId = id) ∨ ∃ m ∈ done, m.row.sessionId = id

/-- Of a team that exists and that the session has joined, `team_view` answers with the session. -/
theorem ViewAt.Has.step {t : Tables} {teamId id : String} {view : ViewAt} (h : view.Has id)
    (hknown : t.teams.Known teamId) (hjoined : t.teams.Joined teamId id) :
    (∃ next, view.step t teamId = .inl next ∧ next.Has id) ∨
      ∃ done, view.step t teamId = .inr (some done) ∧ ∃ m ∈ done, m.row.sessionId = id := by
  cases view with
  | team =>
    obtain ⟨team, hteam, hid⟩ := hknown
    obtain ⟨found, hfound⟩ : ∃ found, t.teams.teamRow teamId = some found :=
      Option.isSome_iff_exists.1 (List.find?_isSome.2 ⟨team, hteam, beq_iff_eq.2 hid⟩)
    exact .inl ⟨.members, by simp only [ViewAt.step, hfound], trivial⟩
  | members =>
    obtain ⟨m, hm, hid, hteam, -⟩ := hjoined
    refine .inl ⟨_, rfl, .inl ⟨m, ?_, hid⟩⟩
    exact (List.mem_insertionSort _).2 (List.mem_filter.2 ⟨hm, beq_iff_eq.2 hteam⟩)
  | records rows done =>
    cases rows with
    | nil => exact .inr ⟨done, rfl, h.resolve_left fun ⟨_, hm, _⟩ ↦ absurd hm List.not_mem_nil⟩
    | cons r rows =>
      refine .inl ⟨_, rfl, ?_⟩
      rcases h with ⟨m, hm, hid⟩ | ⟨m, hm, hid⟩
      · rcases List.mem_cons.1 hm with rfl | hm
        · exact .inr ⟨_, List.mem_append_right _ List.mem_cons_self, hid⟩
        · exact .inl ⟨m, hm, hid⟩
      · exact .inr ⟨m, List.mem_append_left _ hm, hid⟩

/-! ### What one write does -/

/-- The writes of the calls, those of them that keep the limits. -/
inductive Tables.Write (t : Tables) : Tables → Prop
  | read : t.Write t
  | create {id : String} {now : ℕ} {project cwd title : String} {agent : AgentKind}
      {account : Option (String × String)} {store : Store} {record : SessionRecord}
      (h : t.store.createSession id now project agent cwd none title account =
        some (store, record)) : t.Write { t with store }
  | append (sessionId : String) (now : ℕ) (event : AgentEvent) :
      t.Write { t with store := t.store.step (.append sessionId now event) }
  | archive (id : String) :
      t.Write { t with store := t.store.step (.updateSessionMeta id SpawnCall.archivePatch) }
  | found {id leader project : String} {now : ℕ} {teams : TeamStore} {team : TeamRow}
      (h : t.teams.createTeam id now leader project = some (teams, team)) : t.Write { t with teams }
  | join {teamId id name : String} {now : ℕ} {teams : TeamStore} {m : MemberRow}
      (h : t.teams.addTeamMember now teamId id name = some (teams, m))
      (hknown : t.teams.Known teamId) (hroom : t.teams.Admits teamId name) : t.Write { t with teams }
  | leave (now : ℕ) (id : String) : t.Write { t with teams := (t.teams.endTeamMember now id).1 }
  | message (a2a : A2aStore) : t.Write { t with a2a }

namespace Tables

variable {t t' : Tables}

theorem Write.grows (h : t.Write t') : t.Grows t' := by
  cases h with
  | read | message => exact ⟨.refl _, .refl _⟩
  | create h => exact ⟨(Store.createSession_eq_some h).1, .refl _⟩
  | append sessionId now event => exact ⟨Store.keeps_append t.store sessionId now event, .refl _⟩
  | archive id => exact ⟨Store.keeps_archive t.store id, .refl _⟩
  | found h => exact ⟨.refl _, grows_createTeam h⟩
  | join h => exact ⟨.refl _, grows_addTeamMember h⟩
  | leave now id => exact ⟨.refl _, grows_endTeamMember ..⟩

theorem Write.limits (h : t.Write t') (hlimits : t.teams.Limits) (hfounded : t.teams.Founded) :
    t'.teams.Limits := by
  cases h with
  | found h => exact hlimits.createTeam hfounded h
  | join h _ hroom => exact hlimits.addTeamMember hroom h
  | leave now id => exact hlimits.endTeamMember now id
  | _ => exact hlimits

theorem Write.founded (h : t.Write t') (hfounded : t.teams.Founded) : t'.teams.Founded := by
  cases h with
  | found h => exact hfounded.createTeam h
  | join h hknown => exact hfounded.addTeamMember hknown h
  | leave now id => exact hfounded.endTeamMember now id
  | _ => exact hfounded

end Tables

/-! ### The state of a call -/

namespace SpawnCall

variable {c : SpawnCall} {t t' : Tables} {cfg : TeamConfig} {d : Draw}

/-- What a call has created and what is known of it, in each state the call can be in. -/
def Tidy (c : SpawnCall) (t : Tables) : Prop :=
  match c.phase with
  | .entered | .enabled | .checked | .located _ => c.sessions = [] ∧ c.rows = []
  | .leads _ teamId | .rated _ teamId =>
    (c.sessions = [] ∧ c.rows = []) ∧ t.teams.Known teamId
  | .admitted _ existing =>
    (c.sessions = [] ∧ c.rows = []) ∧ ∀ teamId ∈ existing, t.teams.Known teamId
  | .created _ existing id =>
    (c.sessions = [id] ∧ c.rows = []) ∧ t.store.Present id ∧ ∀ teamId ∈ existing, t.teams.Known teamId
  | .founding _ id => (c.sessions = [id] ∧ c.rows = []) ∧ t.store.Present id
  | .joining teamId id =>
    (c.sessions = [id] ∧ (c.rows = [] ∨ c.caller ∈ c.rows)) ∧ t.store.Present id ∧
      t.teams.Known teamId
  | .placing teamId id _ =>
    (c.sessions = [id] ∧ (c.rows = [id] ∨ c.caller ∈ c.rows)) ∧ t.store.Present id ∧
      t.teams.Known teamId ∧ t.teams.Joined teamId id
  | .ending id _ =>
    (c.sessions = [id] ∧ c.rows = [id]) ∧ t.store.Present id ∧ ∃ teamId, t.teams.Joined teamId id
  | .archiving id _ => (c.sessions = [id] ∧ ∀ id ∈ c.rows, t.teams.Left id) ∧ t.store.Present id
  | .greeting teamId id | .delivering teamId id _ =>
    t.teams.Known teamId ∧ t.teams.Joined teamId id
  | .viewing teamId id _ view => t.teams.Known teamId ∧ t.teams.Joined teamId id ∧ view.Has id
  | .returned (.ok _) => True
  | .returned (.error _) =>
    (∀ id ∈ c.sessions, t.store.Archived id) ∧ ∀ id ∈ c.rows, t.teams.Left id

/-- A write of somebody else leaves a call as tidy as it was. -/
theorem Tidy.grows (h : c.Tidy t) (hgrows : t.Grows t') : c.Tidy t' := by
  obtain ⟨hstore, hteams⟩ := hgrows
  simp only [Tidy] at h ⊢
  split <;> simp only [*] at h
  case h_5 | h_6 => exact ⟨h.1, hteams.known h.2⟩
  case h_7 => exact ⟨h.1, fun teamId hid ↦ hteams.known (h.2 teamId hid)⟩
  case h_8 => exact ⟨h.1, hstore.present h.2.1, fun teamId hid ↦ hteams.known (h.2.2 teamId hid)⟩
  case h_9 => exact ⟨h.1, hstore.present h.2⟩
  case h_10 => exact ⟨h.1, hstore.present h.2.1, hteams.known h.2.2⟩
  case h_11 => exact ⟨h.1, hstore.present h.2.1, hteams.known h.2.2.1, hteams.joined h.2.2.2⟩
  case h_12 =>
    obtain ⟨hmade, hpresent, teamId, hjoined⟩ := h
    exact ⟨hmade, hstore.present hpresent, teamId, hteams.joined hjoined⟩
  case h_13 => exact ⟨⟨h.1.1, fun id hid ↦ hteams.left (h.1.2 id hid)⟩, hstore.present h.2⟩
  case h_14 | h_15 => exact ⟨hteams.known h.1, hteams.joined h.2⟩
  case h_16 => exact ⟨hteams.known h.1, hteams.joined h.2.1, h.2.2⟩
  case h_18 =>
    exact ⟨fun id hid ↦ hstore.archived (h.1 id hid), fun id hid ↦ hteams.left (h.2 id hid)⟩
  all_goals exact h

/-- A call that has created nothing may return an error. -/
theorem tidy_refuse (h : c.sessions = [] ∧ c.rows = []) (error : TeamError) :
    (c.refuse error).Tidy t := by
  have hsessions : ∀ id ∈ c.sessions, t.store.Archived id := by
    rw [h.1]
    exact List.forall_mem_nil _
  have hrows : ∀ id ∈ c.rows, t.teams.Left id := by
    rw [h.2]
    exact List.forall_mem_nil _
  exact ⟨hsessions, hrows⟩

/-- The session of a teammate is created, or nothing is. -/
theorem Tidy.create (hnone : c.sessions = [] ∧ c.rows = []) {existing : Option String}
    (hknown : ∀ teamId ∈ existing, t.teams.Known teamId) (leader : SessionRecord) :
    t.Write (c.create cfg t d leader existing).1 ∧
      (c.create cfg t d leader existing).2.Tidy (c.create cfg t d leader existing).1 := by
  simp only [SpawnCall.create]
  split
  · exact ⟨.read, tidy_refuse hnone _⟩
  · split
    · exact ⟨.read, tidy_refuse hnone _⟩
    · split
      · exact ⟨.read, tidy_refuse hnone _⟩
      · split
        · exact ⟨.read, tidy_refuse hnone _⟩
        case h_2 store record hcreate =>
          refine ⟨.create hcreate, ⟨?_, hnone.2⟩, (Store.createSession_eq_some hcreate).2, hknown⟩
          show c.sessions ++ [d.id] = [d.id]
          rw [hnone.1, List.nil_append]

/-- The teammate's row goes in where there is room, or the spawn gives its session up. -/
theorem Tidy.join {teamId id : String} (hphase : c.phase = .joining teamId id)
    (hmade : c.sessions = [id] ∧ (c.rows = [] ∨ c.caller ∈ c.rows)) (hpresent : t.store.Present id)
    (hknown : t.teams.Known teamId) (hcareful : c.Careful t d) :
    t.Write (c.step cfg t d).1 ∧ (c.step cfg t d).2.Tidy (c.step cfg t d).1 := by
  simp only [Careful, hphase] at hcareful
  simp only [SpawnCall.step, hphase]
  cases hadd : t.teams.addTeamMember d.now teamId id c.name with
  | none =>
    have hfounded : c.caller ∉ c.rows := hcareful.1 (by rw [hadd]; rfl)
    have hleft : ∀ id ∈ c.rows, t.teams.Left id := by
      rw [hmade.2.resolve_right hfounded]
      exact List.forall_mem_nil _
    exact ⟨.read, ⟨hmade.1, hleft⟩, hpresent⟩
  | some added =>
    obtain ⟨teams, m⟩ := added
    have hroom : t.teams.Admits teamId c.name := hcareful.2 (by rw [hadd]; rfl)
    have hwrite : t.Write { t with teams } := .join hadd hknown hroom
    have hknown' := hwrite.grows.teams.known hknown
    have hjoined : teams.Joined teamId id := by
      obtain ⟨rfl, rfl, -⟩ := addTeamMember_eq_some hadd
      exact ⟨_, List.mem_append_right _ List.mem_cons_self, rfl, rfl, rfl⟩
    cases c.computer with
    | none => exact ⟨hwrite, hknown', hjoined⟩
    | some computer =>
      refine ⟨hwrite, ⟨hmade.1, ?_⟩, hpresent, hknown', hjoined⟩
      refine hmade.2.imp (fun hrows ↦ ?_) fun hfounded ↦ List.mem_append_left _ hfounded
      show c.rows ++ [id] = [id]
      rw [hrows, List.nil_append]

/-- **One step** of a spawn that meets the condition writes what keeps the limits, and leaves the
call tidy. -/
theorem Tidy.step (h : c.Tidy t) (hfounded : t.teams.Founded) (hcareful : c.Careful t d) :
    t.Write (c.step cfg t d).1 ∧ (c.step cfg t d).2.Tidy (c.step cfg t d).1 := by
  cases hphase : c.phase with simp only [Tidy, hphase] at h
  | entered =>
    simp only [SpawnCall.step, hphase]
    split
    · exact ⟨.read, h⟩
    · exact ⟨.read, tidy_refuse h _⟩
  | enabled =>
    simp only [SpawnCall.step, hphase]
    split
    · exact ⟨.read, tidy_refuse h _⟩
    · split
      · exact ⟨.read, tidy_refuse h _⟩
      · split
        · exact ⟨.read, tidy_refuse h _⟩
        · exact ⟨.read, h⟩
  | checked =>
    simp only [SpawnCall.step, hphase]
    split
    · exact ⟨.read, tidy_refuse h _⟩
    · exact ⟨.read, h⟩
  | located leader =>
    simp only [SpawnCall.step, hphase]
    split
    · exact ⟨.read, h, fun teamId hid ↦ by cases hid⟩
    case h_2 m hm =>
      have hmem : m ∈ t.teams.members := List.mem_of_find?_eq_some hm
      split
      · exact ⟨.read, h, hfounded m hmem⟩
      · split <;> exact ⟨.read, tidy_refuse h _⟩
  | leads leader teamId =>
    simp only [SpawnCall.step, hphase]
    split
    · exact ⟨.read, tidy_refuse h.1 _⟩
    · split
      · exact ⟨.read, tidy_refuse h.1 _⟩
      · exact ⟨.read, h⟩
  | rated leader teamId =>
    simp only [SpawnCall.step, hphase]
    split
    · exact ⟨.read, tidy_refuse h.1 _⟩
    · refine ⟨.read, h.1, fun other hid ↦ ?_⟩
      obtain rfl := Option.some.inj hid
      exact h.2
  | admitted leader existing =>
    simp only [SpawnCall.step, hphase]
    exact Tidy.create h.1 h.2 leader
  | created leader existing id =>
    simp only [SpawnCall.step, hphase]
    cases existing with
    | none => exact ⟨.read, h.1, h.2.1⟩
    | some teamId => exact ⟨.read, ⟨h.1.1, .inl h.1.2⟩, h.2.1, h.2.2 teamId rfl⟩
  | founding leader id =>
    simp only [Careful, hphase] at hcareful
    obtain ⟨⟨teams, team⟩, hcreate⟩ := Option.isSome_iff_exists.1 hcareful
    simp only [SpawnCall.step, hphase, hcreate]
    refine ⟨.found hcreate, ⟨h.1.1, .inr (List.mem_append_right _ List.mem_cons_self)⟩, h.2, ?_⟩
    obtain ⟨-, rfl, rfl, -⟩ := createTeam_eq_some hcreate
    exact ⟨_, List.mem_append_right _ List.mem_cons_self, rfl⟩
  | joining teamId id =>
    exact Tidy.join hphase h.1 h.2.1 h.2.2 hcareful
  | placing teamId id computer =>
    simp only [Careful, hphase] at hcareful
    obtain ⟨⟨hsessions, hrows⟩, hpresent, hknown, hjoined⟩ := h
    -- a computer that is refused is refused to a teammate of a team that was there
    have hending : d.moved ≠ some (.ok ()) → c.rows = [id] := fun hno ↦
      hrows.resolve_right (hcareful.resolve_left hno)
    simp only [SpawnCall.step, hphase]
    split
    · exact ⟨.read, hknown, hjoined⟩
    case h_2 why hmoved =>
      exact ⟨.read, ⟨hsessions, hending (by rw [hmoved]; nofun)⟩, hpresent, teamId, hjoined⟩
    case h_3 hmoved =>
      exact ⟨.read, ⟨hsessions, hending (by rw [hmoved]; nofun)⟩, hpresent, teamId, hjoined⟩
  | ending id error =>
    simp only [SpawnCall.step, hphase]
    obtain ⟨⟨hsessions, hrows⟩, hpresent, teamId, hjoined⟩ := h
    have hleft : ∀ other ∈ c.rows, (t.teams.endTeamMember d.now id).1.Left other := by
      rw [hrows]
      exact List.forall_mem_singleton.2 (hjoined.left_endTeamMember d.now)
    exact ⟨.leave d.now id, ⟨hsessions, hleft⟩, hpresent⟩
  | archiving id error =>
    simp only [SpawnCall.step, hphase]
    have harchived : ∀ other ∈ c.sessions,
        (t.store.step (.updateSessionMeta id archivePatch)).Archived other := by
      rw [h.1.1]
      exact List.forall_mem_singleton.2 h.2.archived_archive
    exact ⟨.archive id, harchived, h.1.2⟩
  | greeting teamId id =>
    simp only [Careful, hphase] at hcareful
    obtain ⟨⟨a2a, msg⟩, hinsert⟩ := Option.isSome_iff_exists.1 hcareful
    simp only [SpawnCall.step, hphase, hinsert]
    exact ⟨.message a2a, h⟩
  | delivering teamId id msg =>
    simp only [SpawnCall.step, hphase]
    exact ⟨.read, h.1, h.2, trivial⟩
  | viewing teamId id receipt view =>
    simp only [SpawnCall.step, hphase]
    obtain ⟨hknown, hjoined, hhas⟩ := h
    rcases hhas.step hknown hjoined with ⟨next, hnext, hhas⟩ | ⟨done, hdone, m, hm, hid⟩
    · simp only [hnext]
      exact ⟨.read, hknown, hjoined, hhas⟩
    · obtain ⟨member, hmember⟩ : ∃ member, done.find? (·.row.sessionId == id) = some member :=
        Option.isSome_iff_exists.1 (List.find?_isSome.2 ⟨m, hm, beq_iff_eq.2 hid⟩)
      simp only [hdone, Option.bind_some, hmember]
      exact ⟨.read, trivial⟩
  | returned result =>
    simp only [SpawnCall.step, hphase]
    exact ⟨.read, by rwa [Tidy, hphase]⟩

/-- A store call that fails where it may leaves the call tidy. -/
theorem Tidy.fails (h : c.Tidy t) (hmay : c.MayFail) : c.fails.Tidy t := by
  simp only [MayFail] at hmay
  simp only [SpawnCall.fails]
  split
  case h_1 teamId id hphase =>
    simp only [Tidy, hphase] at h
    simp only [hphase] at hmay
    have hleft : ∀ id ∈ c.rows, t.teams.Left id := by
      rw [h.1.2.resolve_right hmay]
      exact List.forall_mem_nil _
    exact ⟨⟨h.1.1, hleft⟩, h.2.1⟩
  case h_2 id error hphase => simp only [hphase] at hmay
  case h_3 => exact h
  case h_4 => exact h
  case h_5 =>
    cases hphase : c.phase <;> simp only [Tidy, hphase] at h <;> simp only [hphase] at hmay
    case entered | enabled | checked | located => exact tidy_refuse h _
    case leads | rated | admitted => exact tidy_refuse h.1 _
    all_goals simp_all

/-- A tidy call has cleaned up. -/
theorem Tidy.cleanedUp (h : c.Tidy t) (hlimits : t.teams.Limits) : c.CleanedUp t := by
  intro error hphase
  simp only [Tidy, hphase] at h
  refine ⟨fun id hid m hm hsession ↦ hlimits.not_active (h.2 id hid) hm hsession, fun id hid r hr ↦ ?_⟩
  obtain ⟨r', hr', harchived⟩ := h.1 id hid
  obtain rfl := Option.some.inj (hr'.symm.trans hr)
  exact harchived

end SpawnCall

/-- A step of the ending of a teammate writes what keeps the limits. -/
theorem EndAt.write_step (e : EndAt) (t : Tables) (now : ℕ) : t.Write (e.step t now).1 := by
  cases e with simp only [EndAt.step]
  | leads caller who =>
    split
    · exact .read
    · split
      · exact .read
      · split <;> exact .read
  | resolving | finding | viewing =>
    split
    · exact .read
    · split <;> exact .read
  | ending teamId target by_ =>
    split <;> exact .leave now target.sessionId
  | noticing teamId target by_ => exact .append ..
  | returned result => exact .read

/-! ### Every run -/

namespace Teams

/-- The condition on a step. -/
def Careful (w : Teams) : TeamAction → Prop
  | .spawnStep i d => ∀ c ∈ w.spawns i, c.Careful w.tables d
  | .spawnFails i => ∀ c ∈ w.spawns i, c.MayFail
  | _ => True

instance (w : Teams) : ∀ a, Decidable (w.Careful a)
  | .spawnStep i d => inferInstanceAs (Decidable (∀ c ∈ w.spawns i, c.Careful w.tables d))
  | .spawnFails i => inferInstanceAs (Decidable (∀ c ∈ w.spawns i, c.MayFail))
  | .spawnTeammate .. | .endTeammate .. | .endTeammateByUser .. | .endStep .. | .endFails ..
  | .append .. | .markDelivered .. => isTrue trivial

/-- What the teams keep. -/
structure Kept (w : Teams) : Prop where
  limits : w.tables.teams.Limits
  cleanedUp : ∀ i, ∀ c ∈ w.spawns i, c.CleanedUp w.tables

/-- The invariant: the limits, and every call tidy. -/
structure Sound (w : Teams) : Prop where
  limits : w.tables.teams.Limits
  founded : w.tables.teams.Founded
  tidy : ∀ i, ∀ c ∈ w.spawns i, c.Tidy w.tables

variable {w : Teams} {cfg : TeamConfig}

/-- A write that keeps the limits, and one spawn that is tidy after it. -/
theorem Sound.write (h : w.Sound) {t : Tables} (hwrite : w.tables.Write t) {i : ℕ} {c : SpawnCall}
    (hc : c.Tidy t) (ends : ℕ → Option EndAt) :
    Sound ⟨t, Function.update w.spawns i (some c), ends⟩ where
  limits := hwrite.limits h.limits h.founded
  founded := hwrite.founded h.founded
  tidy j o ho := by
    have hj : Function.update w.spawns i (some c) j = some o := ho
    by_cases hij : j = i
    · subst hij
      rw [Function.update_self] at hj
      obtain rfl := Option.some.inj hj
      exact hc
    · rw [Function.update_of_ne hij] at hj
      exact (h.tidy j o hj).grows hwrite.grows

/-- A write that keeps the limits while the spawns stand. -/
theorem Sound.writeOnly (h : w.Sound) {t : Tables} (hwrite : w.tables.Write t)
    (ends : ℕ → Option EndAt) : Sound ⟨t, w.spawns, ends⟩ where
  limits := hwrite.limits h.limits h.founded
  founded := hwrite.founded h.founded
  tidy j o ho := (h.tidy j o ho).grows hwrite.grows

/-- **The step lemma.** -/
theorem Sound.step (h : w.Sound) {a : TeamAction} (hcareful : w.Careful a) :
    (w.step cfg a).Sound := by
  cases a with simp only [Teams.step]
  | spawnTeammate i caller req =>
    split
    · exact h
    · exact h.write (c := .enter caller req) .read ⟨rfl, rfl⟩ w.ends
  | spawnStep i d =>
    cases hc : w.spawns i with
    | none => exact h
    | some c =>
      have hstep : w.tables.Write (c.step cfg w.tables d).1 ∧
          (c.step cfg w.tables d).2.Tidy (c.step cfg w.tables d).1 :=
        (h.tidy i c hc).step h.founded (hcareful c hc)
      obtain ⟨hwrite, htidy⟩ := hstep
      exact h.write hwrite htidy w.ends
  | spawnFails i =>
    cases hc : w.spawns i with
    | none =>
      rw [Option.map_none, ← hc, Function.update_eq_self]
      exact h
    | some c => exact h.write .read ((h.tidy i c hc).fails (hcareful c hc)) w.ends
  | endTeammate | endTeammateByUser =>
    split
    · exact h
    · exact h.writeOnly .read _
  | endStep i now =>
    cases hc : w.ends i with
    | none => exact h
    | some e => exact h.writeOnly (e.write_step w.tables now) _
  | endFails i => exact h.writeOnly .read _
  | append sessionId now event => exact h.writeOnly (.append sessionId now event) _
  | markDelivered ids now => exact h.writeOnly (.message _) _

/-- **What the teams keep.** In every run in which a teammate's row goes in only where there is room
for it, and no spawn fails in a place that has no clean-up, the tables keep their limits and a spawn
that returned an error has left nothing behind. -/
theorem kept_of_reachable {w : Teams} (hr : ((system cfg).restrict Careful).Reachable w) :
    w.Kept := by
  have hsound : w.Sound := by
    refine hr.invariant ?_ ?_
    · rintro w ⟨history, a2a, globalEnabled, sessionEnabled, rfl⟩
      refine ⟨⟨List.nodup_nil, fun _ ↦ Nat.zero_le _, List.Pairwise.nil⟩, fun m hm ↦ ?_, fun i c hc ↦ ?_⟩
      · exact absurd hm List.not_mem_nil
      · cases hc
    · rintro w a w' - h ⟨hcareful, rfl⟩
      exact h.step hcareful
  exact ⟨hsound.limits, fun i c hc ↦ (hsound.tidy i c hc).cleanedUp hsound.limits⟩

/-- A server with the session of one agent. -/
def alone : Teams :=
  .start [.createSession "L" 1 "p" .codex "/w" none "Lead" none] ⟨[]⟩ none fun _ ↦ true

/-- The agent of `alone` spawns a teammate, and its `n` first store calls go through. -/
def spawning (i : ℕ) (name id : String) (n : ℕ) : List TeamAction :=
  .spawnTeammate i "L" ⟨name, none, none, none, none, "hi"⟩ ::
    List.replicate n (.spawnStep i ⟨2, id, none, none⟩)

/-- One configured agent. -/
def codexOnly : TeamConfig := ⟨[.codex], [], true, 10, 1000⟩

/-- A first spawn, to its end. -/
theorem kept_of_reachable_spawn :
    ∃ w, ((system codexOnly).restrict Careful).Reachable w ∧
      (w.tables.teams.members.map fun m ↦ (m.teamId, m.name)) = [("id", "lead"), ("id", "bob")] ∧
      w.Kept := by
  have hstart : ((system codexOnly).restrict Careful).Reachable alone :=
    .start ⟨_, _, _, _, rfl⟩
  have hmeet : StepSystem.AllMeet (step codexOnly) Careful alone (spawning 0 "bob" "id" 15) := by
    decide +kernel
  have hrun := hstart.foldl_of_allMeet (fun _ _ ↦ rfl) hmeet
  exact ⟨_, hrun, by decide +kernel, kept_of_reachable hrun⟩

/-- The error that a spawn returned, if it returned one. -/
def failure (c : SpawnCall) : Option TeamError :=
  match c.phase with
  | .returned (.error error) => some error
  | _ => none

theorem phase_of_failure {c : SpawnCall} {error : TeamError} (h : failure c = some error) :
    c.phase = .returned (.error error) := by
  unfold failure at h
  split at h
  case h_1 error' hphase => exact hphase.trans (by rw [Option.some.inj h])
  case h_2 => cases h

/-- Two first spawns of one agent at a time: both find it in no team, both create a session, and
only one can make the team. The other returns an error and leaves its session behind. -/
theorem not_kept_of_two_first_spawns :
    ¬ ∀ cfg w, (system cfg).Reachable w → w.Kept := by
  intro hall
  have hrun := (StepSystem.Reachable.start (S := system codexOnly) (s := alone)
    ⟨_, _, _, _, rfl⟩).foldl (f := step codexOnly) (fun _ _ ↦ rfl)
    (spawning 0 "bob" "s" 6 ++ spawning 1 "eve" "s'" 6 ++
      [.spawnStep 0 ⟨2, "t", none, none⟩, .spawnStep 1 ⟨2, "t'", none, none⟩])
  set w := List.foldl _ _ _
  have hcall : ∃ c ∈ w.spawns 1, failure c = some .store ∧ c.sessions = ["s'"] := by
    decide +kernel
  have hsession : ∃ r ∈ w.tables.store.session "s'", r.archived = false := by decide +kernel
  obtain ⟨c, hc, hphase, hsessions⟩ := hcall
  obtain ⟨r, hr, harchived⟩ := hsession
  have hclean := ((hall _ w hrun).cleanedUp 1 c hc .store (phase_of_failure hphase)).2 "s'"
    (by simp [hsessions]) r hr
  exact Bool.false_ne_true (harchived.symm.trans hclean)

end Teams

end Ember.Server
