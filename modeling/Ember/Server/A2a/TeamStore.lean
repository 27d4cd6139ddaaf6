import Ember.Basic
import Mathlib.Data.List.Sort
import Mathlib.Data.Prod.Lex

/-!
# The team tables

`teams` and `team_members`. A member's session is the primary key of `team_members`, so a session
has at most one row for good, and ending a teammate only fills in `ended_at`. The index on names
compares them as they are written: it stops a second active `bob`, not a `Bob` beside a `bob`.

`TeamStore.Limits` says what the tables are meant to keep. Of its parts the schema itself enforces
only `once`; the others hold as long as every row is inserted with room for it, `TeamStore.Admits`.
-/

namespace Ember.Server

/-- `Role`. -/
inductive Role
  | leader
  | teammate
  deriving DecidableEq, Repr

/-- `MemberRow`. -/
structure MemberRow where
  sessionId : String
  teamId : String
  name : String
  role : Role
  joinedAt : ℕ
  endedAt : Option ℕ
  deriving DecidableEq, Repr

/-- `TeamRow`. -/
structure TeamRow where
  id : String
  leaderSession : String
  project : String
  createdAt : ℕ
  deriving DecidableEq, Repr

/-- `MAX_TEAMMATES`: active teammates per team, leader not counted. -/
def MAX_TEAMMATES : ℕ := 8

/-- `LEADER_NAME`. -/
def LEADER_NAME : String := "lead"

/-- `str::eq_ignore_ascii_case`. -/
def eqIgnoreAsciiCase (a b : String) : Bool :=
  a.toList.map Char.toLower == b.toList.map Char.toLower

namespace MemberRow

/-- `MemberRow::active`. -/
def active (m : MemberRow) : Bool := m.endedAt.isNone

/-- `MemberRow::is_active_teammate`. -/
def isActiveTeammate (m : MemberRow) : Bool := m.role == .teammate && m.active

/-- What `ORDER BY role = 'teammate', joined_at` compares; rows that tie keep the order in which
they were inserted. -/
def key (m : MemberRow) : ℕ ×ₗ ℕ := toLex (if m.role = .teammate then 1 else 0, m.joinedAt)

/-- The row once the membership is ended. -/
def ended (m : MemberRow) (now : ℕ) : MemberRow := { m with endedAt := some now }

end MemberRow

/-- The `teams` and `team_members` tables, each in the order of insertion. -/
structure TeamStore where
  teams : List TeamRow
  members : List MemberRow

namespace TeamStore

/-- `Store::team_member`. -/
def teamMember (s : TeamStore) (sessionId : String) : Option MemberRow :=
  s.members.find? (·.sessionId == sessionId)

/-- `Store::team_row`. -/
def teamRow (s : TeamStore) (teamId : String) : Option TeamRow := s.teams.find? (·.id == teamId)

/-- `Store::team_members`: leader first, then teammates in joining order. -/
def teamMembers (s : TeamStore) (teamId : String) : List MemberRow :=
  (s.members.filter (·.teamId == teamId)).insertionSort fun a b ↦ a.key ≤ b.key

/-- A row goes into `team_members` if the primary key and the index on active names allow it. -/
def insertMember (s : TeamStore) (m : MemberRow) : Option TeamStore :=
  if s.members.any fun o ↦
      o.sessionId == m.sessionId || (o.active && o.teamId == m.teamId && o.name == m.name) then none
  else some { s with members := s.members ++ [m] }

/-- `Store::create_team`, with the fresh id and the time it draws: the team and its leader's row go
in together or not at all. -/
def createTeam (s : TeamStore) (id : String) (now : ℕ) (leader project : String) :
    Option (TeamStore × TeamRow) :=
  if s.teams.any fun t ↦ t.id == id || t.leaderSession == leader then none
  else
    let team : TeamRow := ⟨id, leader, project, now⟩
    ({ s with teams := s.teams ++ [team] }.insertMember
      ⟨leader, id, LEADER_NAME, .leader, now, none⟩).map (·, team)

/-- `Store::add_team_member`. -/
def addTeamMember (s : TeamStore) (now : ℕ) (teamId sessionId name : String) :
    Option (TeamStore × MemberRow) :=
  let m : MemberRow := ⟨sessionId, teamId, name, .teammate, now, none⟩
  (s.insertMember m).map (·, m)

/-- `Store::end_team_member`: end an active teammate. Returns whether it was one. -/
def endTeamMember (s : TeamStore) (now : ℕ) (sessionId : String) : TeamStore × Bool :=
  ({ s with members := s.members.map fun m ↦
      if m.sessionId = sessionId ∧ m.isActiveTeammate then m.ended now else m },
    s.members.any fun m ↦ m.sessionId == sessionId && m.isActiveTeammate)

/-- `Store::team_joins_since`: teammates who joined in the last `window` milliseconds. -/
def teamJoinsSince (s : TeamStore) (teamId : String) (now window : ℕ) : ℕ :=
  s.members.countP fun m ↦
    m.teamId == teamId && m.role == .teammate && decide (now ≤ m.joinedAt + window)

/-- The active teammates of a team. -/
def activeTeammates (s : TeamStore) (teamId : String) : List MemberRow :=
  s.members.filter fun m ↦ m.teamId == teamId && m.isActiveTeammate

/-- What the tables are meant to keep. -/
structure Limits (s : TeamStore) : Prop where
  /-- A session is a member of at most one team. -/
  once : (s.members.map MemberRow.sessionId).Nodup
  /-- A team has at most `MAX_TEAMMATES` active teammates. -/
  max : ∀ teamId, (s.activeTeammates teamId).length ≤ MAX_TEAMMATES
  /-- No two active members of a team have names equal up to ASCII case. -/
  names : (s.members.filter MemberRow.active).Pairwise fun a b ↦
    a.teamId = b.teamId → eqIgnoreAsciiCase a.name b.name = false

/-- Every member is of a team that exists. -/
def Founded (s : TeamStore) : Prop := ∀ m ∈ s.members, ∃ t ∈ s.teams, t.id = m.teamId

/-- A team has room for a teammate of this name. -/
def Admits (s : TeamStore) (teamId name : String) : Prop :=
  (s.activeTeammates teamId).length < MAX_TEAMMATES ∧
    ∀ m ∈ s.members, m.active = true → m.teamId = teamId → eqIgnoreAsciiCase m.name name = false

variable {s s' : TeamStore} {m : MemberRow} {id teamId sessionId name leader project : String}
  {now : ℕ} {team : TeamRow}

theorem insertMember_eq_some (h : s.insertMember m = some s') :
    s' = { s with members := s.members ++ [m] } ∧ ∀ o ∈ s.members, o.sessionId ≠ m.sessionId := by
  rw [insertMember] at h
  split at h
  case isTrue => cases h
  case isFalse hfree =>
    refine ⟨(Option.some.inj h).symm, fun o ho hid ↦ hfree ?_⟩
    exact List.any_eq_true.2 ⟨o, ho, by simp [hid]⟩

/-- A team that was made has an id that was free, and its leader as the last row. -/
theorem createTeam_eq_some (h : s.createTeam id now leader project = some (s', team)) :
    (∀ t ∈ s.teams, t.id ≠ id) ∧ team = ⟨id, leader, project, now⟩ ∧
      s' = ⟨s.teams ++ [team], s.members ++ [⟨leader, id, LEADER_NAME, .leader, now, none⟩]⟩ ∧
      ∀ o ∈ s.members, o.sessionId ≠ leader := by
  rw [createTeam] at h
  split at h
  case isTrue => cases h
  case isFalse hfree =>
    obtain ⟨t, hinsert, heq⟩ := Option.map_eq_some_iff.1 h
    obtain ⟨rfl, rfl⟩ := Prod.mk.inj heq
    obtain ⟨rfl, hnew⟩ := insertMember_eq_some hinsert
    refine ⟨fun t ht hid ↦ hfree ?_, rfl, rfl, hnew⟩
    exact List.any_eq_true.2 ⟨t, ht, by simp [hid]⟩

theorem addTeamMember_eq_some (h : s.addTeamMember now teamId sessionId name = some (s', m)) :
    m = ⟨sessionId, teamId, name, .teammate, now, none⟩ ∧
      s' = { s with members := s.members ++ [m] } ∧ ∀ o ∈ s.members, o.sessionId ≠ sessionId := by
  obtain ⟨t, hinsert, heq⟩ := Option.map_eq_some_iff.1 h
  obtain ⟨rfl, rfl⟩ := Prod.mk.inj heq
  obtain ⟨rfl, hnew⟩ := insertMember_eq_some hinsert
  exact ⟨rfl, rfl, hnew⟩

/-- The row of a session is the only one it has. -/
theorem Limits.eq_of_sessionId (h : s.Limits) {a b : MemberRow} (ha : a ∈ s.members)
    (hb : b ∈ s.members) (hid : a.sessionId = b.sessionId) : a = b :=
  List.inj_on_of_nodup_map h.once ha hb hid

/-! ### The primary key -/

/-- Ending a membership leaves the sessions of the rows alone. -/
theorem sessionIds_endTeamMember (s : TeamStore) (now : ℕ) (sessionId : String) :
    (s.endTeamMember now sessionId).1.members.map MemberRow.sessionId =
      s.members.map MemberRow.sessionId := by
  rw [endTeamMember, List.map_map]
  refine List.map_congr_left fun m _ ↦ ?_
  simp only [Function.comp_apply]
  split <;> rfl

/-- A row of a session that has none keeps every session once. -/
theorem nodup_sessionIds_concat (h : (s.members.map MemberRow.sessionId).Nodup)
    (hnew : ∀ o ∈ s.members, o.sessionId ≠ m.sessionId) :
    ((s.members ++ [m]).map MemberRow.sessionId).Nodup := by
  rw [List.map_append]
  refine List.nodup_append.2 ⟨h, List.nodup_singleton _, fun a ha b hb ↦ ?_⟩
  obtain ⟨o, ho, rfl⟩ := List.mem_map.1 ha
  obtain rfl := List.mem_singleton.1 hb
  exact hnew o ho

/-! ### Which writes keep the limits -/

/-- A new row that is alone with its name in its team, and no active teammate too many. -/
theorem Limits.insert (h : s.Limits) (teams : List TeamRow)
    (hnew : ∀ o ∈ s.members, o.sessionId ≠ m.sessionId)
    (hroom : m.isActiveTeammate = true → (s.activeTeammates m.teamId).length < MAX_TEAMMATES)
    (hname : ∀ o ∈ s.members, o.active = true → o.teamId = m.teamId →
      eqIgnoreAsciiCase o.name m.name = false) : Limits ⟨teams, s.members ++ [m]⟩ where
  once := nodup_sessionIds_concat h.once hnew
  max teamId := by
    have hsplit : (activeTeammates ⟨teams, s.members ++ [m]⟩ teamId) =
        s.activeTeammates teamId ++ [m].filter fun o ↦ o.teamId == teamId && o.isActiveTeammate :=
      List.filter_append ..
    rw [hsplit, List.length_append]
    by_cases hm : (m.teamId == teamId && m.isActiveTeammate) = true
    · obtain ⟨hteam, hactive⟩ := Bool.and_eq_true_iff.1 hm
      have hlt := hroom hactive
      rw [beq_iff_eq.1 hteam] at hlt
      rw [List.filter_singleton, hm]
      exact hlt
    · rw [List.filter_singleton, Bool.eq_false_iff.2 hm]
      exact h.max teamId
  names := by
    rw [List.filter_append]
    refine List.pairwise_append.2 ⟨h.names, (List.pairwise_singleton _ m).filter _, fun a ha b hb ↦ ?_⟩
    obtain ⟨ha, hactive⟩ := List.mem_filter.1 ha
    obtain rfl := List.mem_singleton.1 (List.mem_filter.1 hb).1
    exact hname a ha hactive

/-- A new team has no members that could have the leader's name. -/
theorem Limits.createTeam (h : s.Limits) (hfounded : s.Founded)
    (hs : s.createTeam id now leader project = some (s', team)) : s'.Limits := by
  obtain ⟨hfree, rfl, rfl, hnew⟩ := createTeam_eq_some hs
  refine h.insert _ hnew (fun hno ↦ by cases hno) fun o ho _ hteam ↦ ?_
  obtain ⟨t, ht, hid⟩ := hfounded o ho
  exact absurd (hid.trans hteam) (hfree t ht)

theorem Limits.addTeamMember (h : s.Limits) (hadmits : s.Admits teamId name)
    (hs : s.addTeamMember now teamId sessionId name = some (s', m)) : s'.Limits := by
  obtain ⟨rfl, rfl, hnew⟩ := addTeamMember_eq_some hs
  exact h.insert _ hnew (fun _ ↦ hadmits.1) hadmits.2

/-- Ending a membership only takes active rows away. -/
theorem Limits.endTeamMember (h : s.Limits) (now : ℕ) (sessionId : String) :
    (s.endTeamMember now sessionId).1.Limits := by
  let f : MemberRow → MemberRow := fun m ↦
    if m.sessionId = sessionId ∧ m.isActiveTeammate then m.ended now else m
  -- a row that is still active was not touched
  have hsame : ∀ m, (f m).active = true → f m = m := fun m hm ↦ by
    by_cases hin : m.sessionId = sessionId ∧ m.isActiveTeammate
    · rw [show f m = m.ended now from if_pos hin] at hm
      cases hm
    · exact if_neg hin
  have hsub : ∀ p : MemberRow → Bool, (∀ m, p m = true → m.active = true) →
      ((s.members.map f).filter p).Sublist (s.members.filter p) := fun p hp ↦ by
    rw [List.filter_map]
    have hmap : ((s.members.filter (p ∘ f)).map f) = s.members.filter (p ∘ f) :=
      (List.map_congr_left fun m hm ↦ hsame m (hp _ (List.mem_filter.1 hm).2)).trans (List.map_id _)
    rw [hmap]
    refine List.monotone_filter_right _ fun m hm ↦ ?_
    exact hsame m (hp _ hm) ▸ hm
  refine ⟨?_, fun teamId ↦ ?_, h.names.sublist (hsub _ fun _ hm ↦ hm)⟩
  · exact sessionIds_endTeamMember s now sessionId ▸ h.once
  · refine (List.Sublist.length_le (hsub _ fun m hm ↦ ?_)).trans (h.max teamId)
    exact (Bool.and_eq_true_iff.1 (Bool.and_eq_true_iff.1 hm).2).2

/-! ### What stays -/

/-- The later tables still have the earlier ones' teams and rows; a row changes only by being ended.
-/
structure Grows (s s' : TeamStore) : Prop where
  teams : ∀ t ∈ s.teams, t ∈ s'.teams
  members : ∀ m ∈ s.members, m ∈ s'.members ∨ ∃ now, m.ended now ∈ s'.members

theorem Grows.refl (s : TeamStore) : s.Grows s := ⟨fun _ h ↦ h, fun _ h ↦ .inl h⟩

theorem grows_createTeam (hs : s.createTeam id now leader project = some (s', team)) :
    s.Grows s' := by
  obtain ⟨-, -, rfl, -⟩ := createTeam_eq_some hs
  exact ⟨fun _ ↦ List.mem_append_left _, fun _ h ↦ .inl (List.mem_append_left _ h)⟩

theorem grows_addTeamMember (hs : s.addTeamMember now teamId sessionId name = some (s', m)) :
    s.Grows s' := by
  obtain ⟨-, rfl, -⟩ := addTeamMember_eq_some hs
  exact ⟨fun _ h ↦ h, fun _ h ↦ .inl (List.mem_append_left _ h)⟩

theorem grows_endTeamMember (s : TeamStore) (now : ℕ) (sessionId : String) :
    s.Grows (s.endTeamMember now sessionId).1 := by
  refine ⟨fun _ h ↦ h, fun m hm ↦ ?_⟩
  by_cases hin : m.sessionId = sessionId ∧ m.isActiveTeammate
  · exact .inr ⟨now, List.mem_map.2 ⟨m, hm, if_pos hin⟩⟩
  · exact .inl (List.mem_map.2 ⟨m, hm, if_neg hin⟩)

theorem Founded.createTeam (h : s.Founded)
    (hs : s.createTeam id now leader project = some (s', team)) : s'.Founded := by
  obtain ⟨-, rfl, rfl, -⟩ := createTeam_eq_some hs
  intro m hm
  rcases List.mem_append.1 hm with hm | hm
  · obtain ⟨t, ht, hid⟩ := h m hm
    exact ⟨t, List.mem_append_left _ ht, hid⟩
  · obtain rfl := List.mem_singleton.1 hm
    exact ⟨_, List.mem_append_right _ List.mem_cons_self, rfl⟩

theorem Founded.addTeamMember (h : s.Founded) (hteam : ∃ t ∈ s.teams, t.id = teamId)
    (hs : s.addTeamMember now teamId sessionId name = some (s', m)) : s'.Founded := by
  obtain ⟨rfl, rfl, -⟩ := addTeamMember_eq_some hs
  intro m hm
  rcases List.mem_append.1 hm with hm | hm
  · exact h m hm
  · obtain rfl := List.mem_singleton.1 hm
    exact hteam

theorem Founded.endTeamMember (h : s.Founded) (now : ℕ) (sessionId : String) :
    (s.endTeamMember now sessionId).1.Founded := by
  intro m hm
  obtain ⟨o, ho, rfl⟩ := List.mem_map.1 hm
  obtain ⟨t, ht, hid⟩ := h o ho
  refine ⟨t, ht, ?_⟩
  split <;> exact hid

end TeamStore

end Ember.Server
