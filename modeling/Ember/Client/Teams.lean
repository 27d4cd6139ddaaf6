import Ember.Client.Session
import Ember.Foundation.Runs
import Mathlib.Logic.Function.Basic

/-!
# Teams and their index

The client keeps the views of teams, and beside them an index from sessions to teams. Both are fed by
`TeamUpdated` pushes, which arrive in the order the server sends them, and by answers about one
session, which arrive in any order and tell what the server said at some moment before.

A view carries no version, and an answer without a team unlinks its session whatever the views say.
So the index and the views agree as long as no such answer comes for a session that a view lists; and
a view that an answer brought up to date stays so as long as no older one comes after it.
-/

namespace Ember.Client

/-- Whether a team lists a session. -/
def TeamView.lists (v : TeamView) (sessionId : String) : Bool := (v.member sessionId).isSome

theorem TeamView.lists_iff {v : TeamView} {sessionId : String} :
    v.lists sessionId = true ↔ ∃ m ∈ v.members, m.sessionId = sessionId := by
  simp [TeamView.lists, TeamView.member]

/-- Whether an input is about teams. -/
def Input.isTeam : Input → Bool
  | .push (.teamUpdated _) => true
  | .teamLoaded _ _ => true
  | _ => false

namespace State

variable {s : State} {ch : Changes} {team : TeamView} {id sid : String}

/-! ### What changes them -/

/-- The views and the index. -/
def teamState (s : State) : Std.ExtTreeMap String TeamView × Std.ExtTreeMap String String :=
  (s.teams, s.teamOf)

@[simp] theorem markSeen_teamState (s : State) (id : String) (ch : Changes) :
    (s.markSeen id ch).1.teamState = s.teamState := by
  simp only [markSeen]
  split
  · rfl
  · split <;> rfl

@[simp] theorem storeRecord_teamState (s : State) (record : SessionRecord) (ch : Changes) :
    (s.storeRecord record ch).1.teamState = s.teamState := by
  simp only [storeRecord]
  split
  · split <;> exact markSeen_teamState ..
  · rfl

@[simp] theorem upsert_teamState (s : State) (record : SessionRecord) (ch : Changes) :
    (s.upsert record ch).1.teamState = s.teamState := by
  have hknown : (s.markKnown record).teamState = s.teamState := by
    simp only [markKnown]
    split <;> rfl
  simp only [upsert]
  split
  · split
    · exact hknown
    · split
      · exact hknown
      · rw [storeRecord_teamState, hknown]
  · rw [storeRecord_teamState, hknown]

@[simp] theorem onEvent_teamState (s : State) (status : Option SessionStatus) (ev : StoredEvent)
    (ch : Changes) : (s.onEvent status ev ch).1.teamState = s.teamState := by
  have hrecord : (s.recordEvent status ev ch).1.teamState = s.teamState := by
    simp only [recordEvent]
    split
    · split <;> rfl
    · rfl
  have htranscript (t : State) (ch : Changes) :
      (t.transcriptEvent ev ch).1.teamState = t.teamState := by
    simp only [transcriptEvent]
    split <;> rfl
  simp only [onEvent]
  split <;> simp only [markSeen_teamState, htranscript, hrecord]

@[simp] theorem deriveComputerProjects_teamState (s : State) :
    s.deriveComputerProjects.1.teamState = s.teamState := by
  simp only [deriveComputerProjects]
  split <;> rfl

theorem apply_eq (s : State) (input : Input) :
    (s.apply input).1.teamState = (s.handle .default input).1.teamState := by
  simp only [apply]
  split <;> rfl

/-- Only inputs about teams change the views and the index. -/
theorem apply_teamState (s : State) {input : Input} (h : input.isTeam = false) :
    (s.apply input).1.teamState = s.teamState := by
  rw [apply_eq]
  cases input with
  | sessionsLoaded list =>
    have hlist : ∀ (s : State) (ch : Changes),
        (list.foldl (fun p record ↦ upsert p.1 record p.2) (s, ch)).1.teamState =
          s.teamState := by
      clear h
      induction list with
      | nil => exact fun _ _ ↦ rfl
      | cons record list ih => exact fun s ch ↦ (ih _ _).trans (upsert_teamState s record ch)
    simp only [handle]
    split
    · exact hlist s .default
    · exact hlist s .default
  | sessionLoaded record => exact upsert_teamState s record .default
  | push push =>
    cases push with
    | sessionCreated session =>
      simp only [handle]
      split
      · exact upsert_teamState s session .default
      · exact upsert_teamState _ session .default
    | event status event => exact onEvent_teamState s (some status) event .default
    | lagged missed => rfl
    | sessionUpdated session =>
      simp only [handle]
      split <;> rfl
    | projectUpdated project =>
      simp only [handle]
      split
      · exact deriveComputerProjects_teamState _
      · rfl
    | teamUpdated team => cases h
  | eventsFetched sessionId events =>
    simp only [handle]
    generalize events.filter (fun ev ↦ ev.sessionId == sessionId) = l
    suffices hl : ∀ (s : State) (ch : Changes),
        (l.foldl (fun p ev ↦ onEvent p.1 none ev p.2) (s, ch)).1.teamState = s.teamState from
      hl s .default
    induction l with
    | nil => exact fun _ _ ↦ rfl
    | cons ev l ih => exact fun s ch ↦ (ih _ _).trans (onEvent_teamState s none ev ch)
  | opened id =>
    simp only [handle]
    exact markSeen_teamState _ _ _
  | closed id =>
    simp only [handle]
    split
    · exact markSeen_teamState _ _ _
    · rfl
  | connection c =>
    simp only [handle]
    split <;> rfl
  | computersLoaded list =>
    simp only [handle]
    split
    · exact deriveComputerProjects_teamState _
    · rfl
  | projectsLoaded list =>
    simp only [handle]
    split
    · exact deriveComputerProjects_teamState _
    · exact deriveComputerProjects_teamState _
  | teamLoaded sessionId team => cases h

/-! ### What a view does to the index -/

/-- The members of a view are pointed at its team. -/
theorem getElem?_foldl_pointMember (id : String) (members : List TeamMember)
    (teamOf : Std.ExtTreeMap String String) (ch : Changes) (sid : String) :
    (members.foldl (pointMember id) (teamOf, ch)).1[sid]? =
      if members.any (·.sessionId == sid) then some id else teamOf[sid]? := by
  induction members generalizing teamOf ch with
  | nil => rfl
  | cons m members ih =>
    rw [List.foldl_cons, pointMember, ih]
    by_cases hm : m.sessionId = sid
    · simp [hm]
    · simp [hm, Std.ExtTreeMap.getElem?_insert]

/-- A view that is new takes the place of the one before, and the index follows. -/
theorem putTeam_of_ne (ch : Changes) (h : s.teams[team.id]? ≠ some team) :
    (s.putTeam team ch).1.teams = s.teams.insert team.id team ∧ ∀ sid,
      (s.putTeam team ch).1.teamOf[sid]? =
        if team.lists sid then some team.id
        else s.teamOf[sid]?.filter (· != team.id) := by
  simp only [putTeam, if_neg h]
  refine ⟨trivial, fun sid ↦ ?_⟩
  rw [getElem?_foldl_pointMember]
  have hany : team.members.any (·.sessionId == sid) = team.lists sid := by
    rw [Bool.eq_iff_iff, TeamView.lists_iff, List.any_eq_true]
    simp
  rw [hany]
  by_cases hlists : team.lists sid = true
  · rw [if_pos hlists, if_pos hlists]
  · rw [if_neg hlists, if_neg hlists, Std.ExtTreeMap.getElem?_filter']
    have hnot : (team.member sid).isSome = false := Bool.eq_false_iff.2 hlists
    simp only [hnot, Bool.or_false]

/-! ### The index and the views -/

/-- **The index says what the views say**: a session is in a team exactly when the view of that team
lists it. -/
def Indexed (s : State) : Prop :=
  ∀ sid id, s.teamOf[sid]? = some id ↔ ∃ v : TeamView, s.teams[id]? = some v ∧ v.lists sid = true

/-- A view that shares no member with the others keeps index and views together. -/
theorem Indexed.putTeam (h : s.Indexed)
    (hapart : ∀ id (v : TeamView), id ≠ team.id → s.teams[id]? = some v → ∀ sid, team.lists sid = true →
      v.lists sid = false) : (s.putTeam team ch).1.Indexed := by
  by_cases hsame : s.teams[team.id]? = some team
  · rw [State.putTeam, if_pos hsame]
    exact h
  · obtain ⟨hteams, hindex⟩ := putTeam_of_ne ch hsame
    intro sid id
    rw [hteams, hindex, Std.ExtTreeMap.getElem?_insert]
    by_cases hid : team.id = id
    · subst hid
      by_cases hlists : team.lists sid = true
      · simp [hlists]
      · simp [hlists, Option.filter_eq_some_iff]
    · have hcompare : compare team.id id ≠ .eq := fun heq ↦
        hid (Std.LawfulEqCmp.compare_eq_iff_eq.1 heq)
      rw [if_neg hcompare, ← h sid id]
      by_cases hlists : team.lists sid = true
      · rw [if_pos hlists]
        refine iff_of_false (fun heq ↦ hid (Option.some.inj heq)) fun hold ↦ ?_
        obtain ⟨v, hv, hin⟩ := (h sid id).1 hold
        rw [hapart id v (Ne.symm hid) hv sid hlists] at hin
        cases hin
      · rw [if_neg hlists, Option.filter_eq_some_iff]
        exact ⟨fun hold ↦ hold.1, fun hold ↦ ⟨hold, by simpa using Ne.symm hid⟩⟩

/-- A session that no view lists is not in the index. -/
theorem Indexed.unlinkSession (h : s.Indexed)
    (hnone : ∀ (id : String) (v : TeamView), s.teams[id]? = some v → v.lists sid = false) :
    (s.unlinkSession sid ch).1 = s := by
  have hfree : s.teamOf[sid]? = none := by
    by_contra hsome
    obtain ⟨id, hid⟩ := Option.ne_none_iff_exists'.1 hsome
    obtain ⟨v, hv, hlists⟩ := (h sid id).1 hid
    rw [hnone id v hv] at hlists
    cases hlists
  simp only [State.unlinkSession, hfree]

theorem Indexed.of_eq {t : State} (h : s.Indexed) (heq : t.teamState = s.teamState) :
    t.Indexed := by
  obtain ⟨hteams, hindex⟩ := Prod.mk.inj heq
  intro sid id
  rw [hteams, hindex]
  exact h sid id

theorem apply_teamUpdated (s : State) (v : TeamView) :
    (s.apply (.push (.teamUpdated v))).1.teamState = (s.putTeam v .default).1.teamState :=
  apply_eq _ _

/-- An answer with a team that lists the session is a view like any other. -/
theorem apply_teamLoaded_some {v : TeamView} (h : v.lists sid = true) :
    (s.apply (.teamLoaded sid (some v))).1.teamState = (s.putTeam v .default).1.teamState := by
  have hin : (v.member sid).isNone = false := by
    rw [TeamView.lists] at h
    simpa using h
  rw [apply_eq, handle, hin]
  rfl

theorem apply_teamLoaded_none (s : State) (sid : String) :
    (s.apply (.teamLoaded sid none)).1.teamState = (s.unlinkSession sid .default).1.teamState :=
  apply_eq _ _

/-- The view is stored, whether it is new or not. -/
theorem getElem?_putTeam (s : State) (v : TeamView) (id : String) :
    (s.putTeam v ch).1.teams[id]? = if v.id = id then some v else s.teams[id]? := by
  by_cases hsame : s.teams[v.id]? = some v
  · rw [putTeam, if_pos hsame]
    split
    · next hid => rw [← hid, hsame]
    · rfl
  · rw [(putTeam_of_ne ch hsame).1, Std.ExtTreeMap.getElem?_insert]
    simp

end State

/-! ### The server, the client and what is on its way -/

/-- The teams of the server, by id. -/
abbrev TeamTable := Std.ExtTreeMap String TeamView

/-- `A2a::team_of`: the team that lists a session. -/
def TeamTable.teamFor (t : TeamTable) (sessionId : String) : Option TeamView :=
  (t.toList.find? fun p ↦ p.2.lists sessionId).map Prod.snd

/-- A change of one team. Rows of members are added and ended, never removed, and a session has one
row. -/
def TeamTable.MayChange (t : TeamTable) (view : TeamView) : Prop :=
  (∀ old : TeamView, t[view.id]? = some old → ∀ sid, old.lists sid = true → view.lists sid = true) ∧
  ∀ (id : String) (v : TeamView), id ≠ view.id → t[id]? = some v → ∀ sid,
    view.lists sid = true → v.lists sid = false

/-- Each team is under its id, and a session is listed by one team at most. -/
structure TeamTable.Apart (t : TeamTable) : Prop where
  id : ∀ (id : String) (v : TeamView), t[id]? = some v → v.id = id
  apart : ∀ (id id' : String) (v v' : TeamView), id ≠ id' → t[id]? = some v → t[id']? = some v' →
    ∀ sid, v.lists sid = true → v'.lists sid = false

/-- An answer about one session, and how often its team had changed when it was taken. -/
structure TeamAnswer where
  sessionId : String
  team : Option TeamView
  changes : ℕ

/-- The server, the client and what is on its way between them. -/
structure TeamWorld where
  client : State
  server : TeamTable
  /-- How often each team has changed. -/
  changes : String → ℕ
  /-- Pushes, in the order they were sent. -/
  pushes : List TeamView
  answers : List TeamAnswer
  /-- Whether an answer that was taken after the last change of a team has been applied. -/
  caughtUp : String → Bool

/-- What may happen next. -/
inductive TeamAction
  /-- A team of the server changes. -/
  | change (view : TeamView)
  /-- `publish_team`. -/
  | publish (id : String)
  /-- The server answers what the team of a session is. -/
  | ask (sessionId : String)
  /-- The next push reaches the client. -/
  | push
  /-- The next push is lost. -/
  | lose
  /-- An answer reaches the client. -/
  | answer (i : ℕ)
  /-- Something else happens to the client. -/
  | other (input : Input)

variable {client : State} {view : TeamView} {a : TeamAction}

namespace TeamWorld

/-- What may happen in a state. -/
def May (w : TeamWorld) : TeamAction → Prop
  | .change view => w.server.MayChange view
  | .other input => input.isTeam = false
  | _ => True

/-- An answer that is applied brings its team up to date if this has not changed since. -/
def catchUp (w : TeamWorld) (a : TeamAnswer) : String → Bool :=
  match a.team with
  | some v =>
    if a.changes = w.changes v.id then Function.update w.caughtUp v.id true else w.caughtUp
  | none => w.caughtUp

/-- The state after it. -/
def act (w : TeamWorld) : TeamAction → TeamWorld
  | .change view => { w with
      server := w.server.insert view.id view
      changes := Function.update w.changes view.id (w.changes view.id + 1)
      caughtUp := Function.update w.caughtUp view.id false }
  | .publish id =>
    match w.server[id]? with
    | some view => { w with pushes := w.pushes ++ [view] }
    | none => w
  | .ask sessionId =>
    let team := w.server.teamFor sessionId
    { w with answers := w.answers ++
        [⟨sessionId, team, (team.map fun v ↦ w.changes v.id).getD 0⟩] }
  | .push =>
    match w.pushes with
    | [] => w
    | view :: pushes =>
      { w with client := (w.client.apply (.push (.teamUpdated view))).1, pushes }
  | .lose => { w with pushes := w.pushes.tail }
  | .answer i =>
    match w.answers[i]? with
    | none => w
    | some a =>
      { w with
        client := (w.client.apply (.teamLoaded a.sessionId a.team)).1
        answers := w.answers.eraseIdx i
        caughtUp := w.catchUp a }
  | .other input => { w with client := (w.client.apply input).1 }

/-- A client that has just started, with a server that has some teams. -/
def Started (w : TeamWorld) : Prop :=
  w.client.Started ∧ w.server.Apart ∧ w.pushes = [] ∧ w.answers = [] ∧
    ∀ id, w.caughtUp id = false

/-- The runs of a server and a client. -/
def system : StepSystem TeamWorld TeamAction where
  init := Started
  step w a w' := w.May a ∧ w' = w.act a

/-- **What index and views come to**: they agree, and a view that was brought up to date is the
server's. -/
structure Good (w : TeamWorld) : Prop where
  indexed : w.client.Indexed
  current : ∀ id, w.caughtUp id = true → w.client.teams[id]? = w.server[id]?

/-- No answer without a team comes for a session that a view lists, and no older view comes for a
team that was brought up to date. -/
def Timely (w : TeamWorld) : TeamAction → Prop
  | .push => ∀ view ∈ w.pushes.head?, w.caughtUp view.id = true → w.server[view.id]? = some view
  | .answer i => ∀ a ∈ w.answers[i]?,
    match a.team with
    | some view => w.caughtUp view.id = true → w.server[view.id]? = some view
    | none => ∀ (id : String) (v : TeamView), w.client.teams[id]? = some v →
        v.lists a.sessionId = false
  | _ => True

/-- A view that the server has or had. -/
def Known (w : TeamWorld) (v : TeamView) : Prop :=
  ∃ cur : TeamView, w.server[v.id]? = some cur ∧ ∀ sid, v.lists sid = true → cur.lists sid = true

/-- All views around are the server's, of now or before. -/
structure Sound (w : TeamWorld) : Prop where
  server : w.server.Apart
  stored : ∀ (id : String) (v : TeamView), w.client.teams[id]? = some v → v.id = id ∧ w.Known v
  pushes : ∀ v ∈ w.pushes, w.Known v
  answers : ∀ a ∈ w.answers, ∀ v ∈ a.team, v.lists a.sessionId = true ∧ w.Known v ∧
    a.changes ≤ w.changes v.id ∧ (a.changes = w.changes v.id → w.server[v.id]? = some v)

variable {w : TeamWorld} {v v' : TeamView} {sid : String}

/-- Views of different teams share no member. -/
theorem Sound.apart (h : w.Sound) (hv : w.Known v) (hv' : w.Known v') (hne : v.id ≠ v'.id)
    (hlists : v.lists sid = true) : v'.lists sid = false := by
  obtain ⟨cur, hcur, hold⟩ := hv
  obtain ⟨cur', hcur', hold'⟩ := hv'
  have hnot := h.server.apart _ _ _ _ hne hcur hcur' sid (hold sid hlists)
  by_contra hin
  rw [hold' sid (by simpa using hin)] at hnot
  cases hnot

/-- What the server had it had before a change, too. -/
theorem Known.change (hmay : w.server.MayChange view) (h : w.Known v) :
    (w.act (.change view)).Known v := by
  obtain ⟨cur, hcur, hold⟩ := h
  by_cases hid : view.id = v.id
  · refine ⟨view, ?_, fun sid hin ↦ hmay.1 cur (hid ▸ hcur) sid (hold sid hin)⟩
    show (w.server.insert view.id view)[v.id]? = some view
    rw [hid, Std.ExtTreeMap.getElem?_insert_self]
  · refine ⟨cur, ?_, hold⟩
    show (w.server.insert view.id view)[v.id]? = some cur
    rw [Std.ExtTreeMap.getElem?_insert, if_neg (by simpa using hid)]
    exact hcur

/-- The server's teams stay apart. -/
theorem apart_change {t : TeamTable} (h : t.Apart) (hmay : t.MayChange view) :
    TeamTable.Apart (t.insert view.id view) where
  id id v hv := by
    rw [Std.ExtTreeMap.getElem?_insert] at hv
    split at hv
    · next heq =>
      obtain rfl := Option.some.inj hv
      exact Std.LawfulEqCmp.compare_eq_iff_eq.1 heq
    · exact h.id id v hv
  apart id id' v v' hne hv hv' sid hin := by
    rw [Std.ExtTreeMap.getElem?_insert] at hv hv'
    split at hv
    · next heq =>
      obtain rfl := Std.LawfulEqCmp.compare_eq_iff_eq.1 heq
      obtain rfl := Option.some.inj hv
      rw [if_neg (by simpa using hne)] at hv'
      exact hmay.2 id' v' (Ne.symm hne) hv' sid hin
    · split at hv'
      · next heq =>
        obtain rfl := Std.LawfulEqCmp.compare_eq_iff_eq.1 heq
        obtain rfl := Option.some.inj hv'
        by_contra hlists
        rw [hmay.2 id v hne hv sid (by simpa using hlists)] at hin
        cases hin
      · exact h.apart id id' v v' hne hv hv' sid hin

/-- A view that the server has or had is stored. -/
theorem Sound.put (h : w.Sound) (hv : w.Known v)
    (hclient : client.teamState = (w.client.putTeam v .default).1.teamState) :
    ∀ (id : String) (v' : TeamView), client.teams[id]? = some v' → v'.id = id ∧ w.Known v' := by
  intro id v' hv'
  obtain ⟨hteams, -⟩ := Prod.mk.inj hclient
  rw [hteams, State.getElem?_putTeam] at hv'
  split at hv'
  · next hid =>
    obtain rfl := Option.some.inj hv'
    exact ⟨hid, hv⟩
  · exact h.stored id v' hv'

/-- The views stay the server's. -/
theorem Sound.act (h : w.Sound) (hmay : w.May a) : (w.act a).Sound := by
  cases a with
  | change view =>
    refine ⟨apart_change h.server hmay, fun id v hv ↦ ?_, fun v hv ↦ (h.pushes v hv).change hmay,
      fun a ha v hv ↦ ?_⟩
    · obtain ⟨hid, hknown⟩ := h.stored id v hv
      exact ⟨hid, hknown.change hmay⟩
    · obtain ⟨hlists, hknown, hle, hcurrent⟩ := h.answers a ha v hv
      refine ⟨hlists, hknown.change hmay, ?_⟩
      show a.changes ≤ Function.update w.changes view.id (w.changes view.id + 1) v.id ∧
        (a.changes = Function.update w.changes view.id (w.changes view.id + 1) v.id →
          (w.server.insert view.id view)[v.id]? = some v)
      by_cases hid : v.id = view.id
      · rw [hid, Function.update_self]
        rw [hid] at hle
        exact ⟨hle.trans (Nat.le_succ _), fun heq ↦ absurd hle (by omega)⟩
      · rw [Function.update_of_ne hid, Std.ExtTreeMap.getElem?_insert,
          if_neg (by simpa using Ne.symm hid)]
        exact ⟨hle, hcurrent⟩
  | publish id =>
    simp only [TeamWorld.act]
    cases hview : w.server[id]? with
    | none => exact h
    | some view =>
      refine ⟨h.server, h.stored, fun v hv ↦ ?_, h.answers⟩
      rcases List.mem_append.1 hv with hv | hv
      · exact h.pushes v hv
      · obtain rfl := List.mem_singleton.1 hv
        obtain rfl := h.server.id id v hview
        exact ⟨v, hview, fun _ hin ↦ hin⟩
  | ask sessionId =>
    refine ⟨h.server, h.stored, h.pushes, fun a ha v hv ↦ ?_⟩
    rcases List.mem_append.1 ha with ha | ha
    · exact h.answers a ha v hv
    · obtain rfl := List.mem_singleton.1 ha
      have hfor : w.server.teamFor sessionId = some v := hv
      obtain ⟨⟨id, v'⟩, hfind, rfl⟩ := Option.map_eq_some_iff.1 hfor
      have hget := Std.ExtTreeMap.mem_toList_iff_getElem?_eq_some.1 (List.mem_of_find?_eq_some hfind)
      have hlists : v'.lists sessionId = true := by simpa using List.find?_some hfind
      obtain rfl := h.server.id id v' hget
      show v'.lists sessionId = true ∧ w.Known v' ∧
        ((w.server.teamFor sessionId).map fun v ↦ w.changes v.id).getD 0 ≤ w.changes v'.id ∧ _
      rw [hfor]
      exact ⟨hlists, ⟨v', hget, fun _ hin ↦ hin⟩, le_rfl, fun _ ↦ hget⟩
  | push =>
    simp only [TeamWorld.act]
    cases hpushes : w.pushes with
    | nil => exact h
    | cons view pushes =>
      have hin : view ∈ w.pushes := hpushes ▸ List.mem_cons_self
      exact ⟨h.server, h.put (h.pushes view hin) (State.apply_teamUpdated _ _),
        fun v hv ↦ h.pushes v (hpushes ▸ List.mem_cons_of_mem _ hv), h.answers⟩
  | lose => exact ⟨h.server, h.stored, fun v hv ↦ h.pushes v (List.mem_of_mem_tail hv), h.answers⟩
  | answer i =>
    simp only [TeamWorld.act]
    split
    · exact h
    · rename_i a ha
      have hin := List.mem_of_getElem? ha
      refine ⟨h.server, ?_, h.pushes, fun a' ha' ↦ h.answers a' (List.mem_of_mem_eraseIdx ha')⟩
      dsimp only
      cases hteam : a.team with
      | none =>
        obtain ⟨hteams, -⟩ := Prod.mk.inj (State.apply_teamLoaded_none w.client a.sessionId)
        intro id v hv
        rw [hteams] at hv
        refine h.stored id v ?_
        unfold State.unlinkSession at hv
        split at hv <;> exact hv
      | some v =>
        obtain ⟨hlists, hknown, -⟩ := h.answers a hin v hteam
        exact h.put hknown (State.apply_teamLoaded_some hlists)
  | other input =>
    obtain ⟨hteams, -⟩ := Prod.mk.inj (State.apply_teamState w.client hmay)
    refine ⟨h.server, fun id v hv ↦ h.stored id v ?_, h.pushes, h.answers⟩
    rw [← hteams]
    exact hv

/-- A view that the server has or had, once stored, keeps the index. -/
theorem Sound.indexed_put (h : w.Sound) (hg : w.client.Indexed) (hv : w.Known v)
    (hclient : client.teamState = (w.client.putTeam v .default).1.teamState) : client.Indexed :=
  (hg.putTeam fun _ v' hne hv' sid hlists ↦ by
    obtain ⟨rfl, hknown⟩ := h.stored _ v' hv'
    exact h.apart hv hknown hne.symm hlists).of_eq hclient

/-- A view that is stored is the server's where it has to be, if it is the server's itself. -/
theorem current_put_iff (hg : w.Good)
    (hclient : client.teamState = (w.client.putTeam v .default).1.teamState)
    {caughtUp : String → Bool} (hother : ∀ id, id ≠ v.id → caughtUp id = w.caughtUp id) :
    (∀ id, caughtUp id = true → client.teams[id]? = w.server[id]?) ↔
      (caughtUp v.id = true → w.server[v.id]? = some v) := by
  obtain ⟨hteams, -⟩ := Prod.mk.inj hclient
  have hget (id : String) : client.teams[id]? =
      if v.id = id then some v else w.client.teams[id]? := by
    rw [hteams]
    exact State.getElem?_putTeam _ _ _
  constructor
  · intro h hcaught
    rw [← h v.id hcaught, hget, if_pos rfl]
  · intro h id hcaught
    rw [hget]
    split
    · next hid =>
      subst hid
      exact (h hcaught).symm
    · next hid => exact hg.current id (hother id (Ne.symm hid) ▸ hcaught)

/-- A session may leave the index if no view lists it. -/
theorem unlinked_iff (hg : w.Good)
    (hclient : client.teamState = (w.client.unlinkSession sid .default).1.teamState) :
    (∀ (id : String) (v : TeamView), w.client.teams[id]? = some v → v.lists sid = false) ↔
      client.Indexed ∧ ∀ id, w.caughtUp id = true → client.teams[id]? = w.server[id]? := by
  constructor
  · intro hnone
    rw [hg.indexed.unlinkSession hnone] at hclient
    refine ⟨hg.indexed.of_eq hclient, fun id hcaught ↦ ?_⟩
    rw [(Prod.mk.inj hclient).1]
    exact hg.current id hcaught
  · rintro ⟨hindexed, -⟩ id v hv
    by_contra hlists
    obtain ⟨hteams, hindex⟩ := Prod.mk.inj hclient
    have hunlinked : (w.client.unlinkSession sid .default).1.teams = w.client.teams ∧
        (w.client.unlinkSession sid .default).1.teamOf[sid]? = none := by
      unfold State.unlinkSession
      split
      · exact ⟨rfl, Std.ExtTreeMap.getElem?_erase_self⟩
      · next hfree => exact ⟨rfl, hfree⟩
    -- the session left the index though a view lists it
    have hlinked := (hindexed sid id).2
      ⟨v, by rw [hteams, hunlinked.1]; exact hv, by simpa using hlists⟩
    rw [hindex, hunlinked.2] at hlinked
    cases hlinked

/-- An answer with a team is as good as the view before it made the team count as up to date: if it is
what brings it up to date, it is the server's. -/
theorem catchUp_iff {a : TeamAnswer} (hteam : a.team = some v)
    (hsame : a.changes = w.changes v.id → w.server[v.id]? = some v) :
    (w.catchUp a v.id = true → w.server[v.id]? = some v) ↔
      (w.caughtUp v.id = true → w.server[v.id]? = some v) := by
  rw [catchUp, hteam]
  dsimp only
  split
  · next heq => exact iff_of_true (fun _ ↦ hsame heq) fun _ ↦ hsame heq
  · rfl

/-- **One step keeps index and views right if and only if it is timely.** -/
theorem timely_iff (h : w.Sound) (hg : w.Good) (hmay : w.May a) :
    w.Timely a ↔ (w.act a).Good := by
  cases a with
  | change view =>
    refine iff_of_true trivial ⟨hg.indexed, fun id hcaught ↦ ?_⟩
    show w.client.teams[id]? = (w.server.insert view.id view)[id]?
    have hcaught' : Function.update w.caughtUp view.id false id = true := hcaught
    by_cases hid : id = view.id
    · rw [hid, Function.update_self] at hcaught'
      cases hcaught'
    · rw [Function.update_of_ne hid] at hcaught'
      rw [Std.ExtTreeMap.getElem?_insert, if_neg (by simpa using Ne.symm hid)]
      exact hg.current id hcaught'
  | publish id =>
    refine iff_of_true trivial ?_
    simp only [TeamWorld.act]
    split
    · exact ⟨hg.indexed, hg.current⟩
    · exact hg
  | ask | lose => exact iff_of_true trivial ⟨hg.indexed, hg.current⟩
  | push =>
    simp only [TeamWorld.act, Timely]
    split
    · next hnone =>
      rw [hnone]
      exact iff_of_true (fun _ hv ↦ by cases hv) hg
    · next view pushes hsome =>
      have hclient := State.apply_teamUpdated w.client view
      have hcurrent := current_put_iff hg hclient (fun id _ ↦ Eq.refl (w.caughtUp id))
      rw [hsome]
      constructor
      · intro htimely
        exact ⟨h.indexed_put hg.indexed (h.pushes view (hsome ▸ List.mem_cons_self)) hclient,
          hcurrent.2 (htimely view rfl)⟩
      · intro hgood v hv
        obtain rfl := Option.some.inj hv
        exact hcurrent.1 hgood.current
  | answer i =>
    simp only [TeamWorld.act, Timely]
    split
    · next hnone =>
      rw [hnone]
      exact iff_of_true (fun _ ha ↦ by cases ha) hg
    · next a ha =>
      obtain ⟨sid, team, changes⟩ := a
      rw [ha]
      have hone (p : TeamAnswer → Prop) : (∀ a' ∈ some (TeamAnswer.mk sid team changes), p a') ↔
          p ⟨sid, team, changes⟩ := by simp
      rw [hone]
      cases team with
      | none =>
        refine (unlinked_iff hg (State.apply_teamLoaded_none w.client sid)).trans ?_
        exact ⟨fun hall ↦ ⟨hall.1, hall.2⟩, fun hgood ↦ ⟨hgood.indexed, hgood.current⟩⟩
      | some v =>
        obtain ⟨hlists, hknown, -, hsame⟩ := h.answers _ (List.mem_of_getElem? ha) v rfl
        have hclient := State.apply_teamLoaded_some (s := w.client) hlists
        have hother : ∀ id, id ≠ v.id → w.catchUp ⟨sid, some v, changes⟩ id = w.caughtUp id := by
          intro id hne
          rw [catchUp]
          dsimp only
          split
          · exact Function.update_of_ne hne _ _
          · rfl
        refine (catchUp_iff rfl hsame).symm.trans ((current_put_iff hg hclient hother).symm.trans ?_)
        exact ⟨fun hall ↦ ⟨h.indexed_put hg.indexed hknown hclient, hall⟩,
          fun hgood ↦ hgood.current⟩
  | other input =>
    have hclient := State.apply_teamState w.client hmay
    refine iff_of_true trivial ⟨hg.indexed.of_eq hclient, fun id hcaught ↦ ?_⟩
    show (w.client.apply input).1.teams[id]? = w.server[id]?
    rw [(Prod.mk.inj hclient).1]
    exact hg.current id hcaught

/-- At the start nothing is known of any team. -/
theorem Started.good (h : w.Started) : w.Sound ∧ w.Good := by
  obtain ⟨hclient, hserver, hpushes, hanswers, hcaught⟩ := h
  have hempty : ∀ s : State, s.Started → s.teamState = (∅, ∅) := fun s hs ↦ by cases hs <;> rfl
  obtain ⟨hteams, hindex⟩ := Prod.mk.inj (hempty w.client hclient)
  have hnone (id : String) : w.client.teams[id]? = none := by
    rw [hteams, Std.ExtTreeMap.getElem?_empty]
  refine ⟨⟨hserver, fun id v hv ↦ ?_, fun v hv ↦ ?_, fun a ha ↦ ?_⟩, ⟨fun sid id ↦ ?_,
    fun id hid ↦ ?_⟩⟩
  · rw [hnone] at hv
    cases hv
  · rw [hpushes] at hv
    cases hv
  · rw [hanswers] at ha
    cases ha
  · rw [hindex, Std.ExtTreeMap.getElem?_empty]
    refine iff_of_false nofun ?_
    rintro ⟨v, hv, -⟩
    rw [hnone] at hv
    cases hv
  · rw [hcaught] at hid
    cases hid

/-- **Index and views agree**, and what was brought up to date stays so, in every run whose steps are
timely; and a step that is not timely ends that. -/
theorem good_of_timely (hw : (system.restrict Timely).Reachable w) :
    w.Good ∧ ∀ a, w.May a → (w.Timely a ↔ (w.act a).Good) := by
  have hboth : w.Sound ∧ w.Good := by
    refine hw.invariant (I := fun w ↦ w.Sound ∧ w.Good) (fun _ hstart ↦ Started.good hstart) ?_
    rintro w a _ - ⟨hsound, hgood⟩ ⟨htimely, hmay, rfl⟩
    exact ⟨hsound.act hmay, (timely_iff hsound hgood hmay).1 htimely⟩
  exact ⟨hboth.2, fun a hmay ↦ timely_iff hboth.1 hboth.2 hmay⟩

/-! ### Runs -/

/-- A client and a server without teams. -/
def fresh : TeamWorld := ⟨.new, ∅, fun _ ↦ 0, [], [], fun _ ↦ false⟩

theorem started_fresh : fresh.Started :=
  ⟨.new, ⟨fun _ _ h ↦ by simp [fresh] at h, fun _ _ _ _ _ h ↦ by simp [fresh] at h⟩, rfl, rfl,
    fun _ ↦ rfl⟩

/-- A team of one. -/
def aTeam (project : String) : TeamView :=
  ⟨"t", project, "lead", 0, [⟨"lead", "lead", .leader, 0, none, "", "", none⟩], []⟩

theorem may_first (project : String) : fresh.May (.change (aTeam project)) :=
  ⟨fun _ h ↦ by simp [fresh] at h, fun _ _ _ h ↦ by simp [fresh] at h⟩

/-- The state after some actions. -/
def after (actions : List TeamAction) : TeamWorld := actions.foldl act fresh

/-- The team appears, is pushed and is asked for. -/
def appearing : List TeamAction := [.change (aTeam "p"), .publish "t", .ask "lead"]

theorem good_of_timely_appearing :
    (after (appearing ++ [.push, .answer 0])).caughtUp "t" = true ∧
      (after (appearing ++ [.push, .answer 0])).Good := by
  have next : ∀ {w : TeamWorld} (a : TeamAction), (system.restrict Timely).Reachable w →
      w.Timely a → w.May a → (system.restrict Timely).Reachable (w.act a) :=
    fun a hw htimely hmay ↦ hw.next a ⟨htimely, hmay, rfl⟩
  have hchanged := next (.change (aTeam "p")) (.start started_fresh) trivial (may_first "p")
  have hasked := next (.ask "lead") (next (.publish "t") hchanged trivial trivial) trivial trivial
  have hpush : (after appearing).Timely .push := by
    unfold Timely
    decide +kernel
  have hpushed := next .push hasked hpush trivial
  have hanswer : (after (appearing ++ [.push])).Timely (.answer 0) := by
    intro a ha
    have hteam : ((after (appearing ++ [.push])).answers[0]?).map (·.team) =
        some (some (aTeam "p")) := by decide +kernel
    rw [ha] at hteam
    have hview : a.team = some (aTeam "p") := Option.some.inj hteam
    rw [hview]
    exact fun _ ↦ by decide +kernel
  have hanswered := next (.answer 0) hpushed hanswer trivial
  exact ⟨by decide +kernel, (good_of_timely hanswered).1⟩

/-- **Late answers break the index and bring back old views.** An answer that the session has no team
unlinks it after the push that lists it; and of two answers the older one comes last. -/
theorem not_good :
    (¬ ∀ w, system.Reachable w → w.client.Indexed) ∧
    ¬ ∀ w, system.Reachable w → ∀ id, w.caughtUp id = true →
      w.client.teams[id]? = w.server[id]? := by
  have hstart : system.Reachable fresh := .start started_fresh
  have next : ∀ {w : TeamWorld} (a : TeamAction), system.Reachable w → w.May a →
      system.Reachable (w.act a) := fun a hw hmay ↦ hw.next a ⟨hmay, rfl⟩
  constructor
  · intro h
    have hchanged := next (.change (aTeam "p")) (next (.ask "lead") hstart trivial) (may_first "p")
    have hpushed := next .push (next (.publish "t") hchanged trivial) trivial
    have hanswered := next (.answer 0) hpushed trivial
    have hview : (after [.ask "lead", .change (aTeam "p"), .publish "t", .push,
        .answer 0]).client.teams["t"]? = some (aTeam "p") := by decide +kernel
    have hindex := (h _ hanswered "lead" "t").2 ⟨_, hview, by decide +kernel⟩
    exact absurd hindex (by decide +kernel)
  · intro h
    have hasked := next (.ask "lead") (next (.change (aTeam "p")) hstart (may_first "p")) trivial
    have hmay : (after [.change (aTeam "p"), .ask "lead"]).May (.change (aTeam "q")) := by
      refine ⟨fun old hold sid hin ↦ ?_, fun id v hne hv ↦ ?_⟩
      · have hsame : (after [.change (aTeam "p"), .ask "lead"]).server["t"]? =
            some (aTeam "p") := by decide +kernel
        obtain rfl := Option.some.inj (hold.symm.trans hsame)
        exact hin
      · have hv' : ((∅ : TeamTable).insert "t" (aTeam "p"))[id]? = some v := hv
        have hother : "t" ≠ id := Ne.symm hne
        rw [Std.ExtTreeMap.getElem?_insert, if_neg (by simpa using hother)] at hv'
        simp at hv'
    have hagain := next (.ask "lead") (next (.change (aTeam "q")) hasked hmay) trivial
    have hlate := next (.answer 0) (next (.answer 1) hagain trivial) trivial
    have hviews := h _ hlate "t" (by decide +kernel)
    exact absurd hviews (by decide +kernel)

end TeamWorld

end Ember.Client
