import Ember.Foundation.Runs
import Ember.Server.A2a.Messages
import Ember.Server.A2a.TeamStore
import Ember.Server.Store
import Mathlib.Logic.Function.Basic

/-!
# Spawning and ending teammates

`spawn_teammate`, `end_teammate` and `end_teammate_by_user`. Each is a sequence of calls of the
store, and other calls run in between; so a call here is the state it has reached, and a step makes
one store call. What a step draws from outside (the clock, a fresh id, the account router, the
computer setter) is its `Draw`. Each of them can also stop at an error of the store itself, `fails`.

`SpawnCall.sessions` and `SpawnCall.rows` are bookkeeping: what the call has created so far. No step
reads them.
-/

namespace Ember.Server

/-- `AgentKind::parse`: a built-in agent, or an ACP agent configured on this server. -/
def AgentKind.parse (acpNames : List String) (s : String) : Option AgentKind :=
  if s = "claude-code" then some .claudeCode
  else if s = "codex" then some .codex
  else if s = "antigravity" then some .antigravity
  else if s = "scripted" then some .scripted
  else if acpNames.contains s then some (.acp s)
  else none

/-- What the calls read of the server's configuration. -/
structure TeamConfig where
  /-- The adapters there are. -/
  adapters : List AgentKind
  acpNames : List String
  enabledByDefault : Bool
  /-- `limits.per_session`. -/
  perSession : ℕ
  /-- `limits.window`. -/
  window : Duration

/-- `NAME_MAX`. -/
def NAME_MAX : ℕ := 32

/-- `computers::LOCAL`. -/
def LOCAL : String := "local"

/-- `SpawnRequest`. -/
structure SpawnRequest where
  name : String
  agent : Option String
  account : Option String
  computer : Option String
  title : Option String
  prompt : String

/-- The refusals of the calls, one for each place that makes one, with what their texts say. -/
inductive TeamError
  /-- A store call failed. -/
  | store
  | disabled
  | sessionDisabled (caller : String)
  | invalidName (name : String)
  | emptyPrompt
  | sessionNotFound (id : String)
  | notLeader (name teamId : String)
  | formerTeammate
  | full
  | nameTaken (name : String)
  | rateLimited (teamId : String) (perSession minutes : ℕ)
  | unknownAgent (agent : String)
  | agentUnavailable (agent : String)
  | account (why : String)
  /-- The teammate's row was refused. -/
  | adding (name : String)
  | notMoved (name computer why : String)
  | vanished (name : String)
  | endedFrom (teamId : String)
  | notInTeam
  | onlyLeader
  | noMember (who : String)
  | leaderItself
  | notTeammateOf (sessionId teamId : String)
  | notActive (name : String)
  | teamNotFound (teamId : String)
  deriving DecidableEq, Repr

/-- `valid_name`. -/
def validName (name : String) : Bool :=
  name ≠ "" && decide (name.utf8ByteSize ≤ NAME_MAX) &&
    name.toList.all (fun c ↦ c.isAlphanum || c == '-' || c == '_') &&
    !eqIgnoreAsciiCase name LEADER_NAME && !eqIgnoreAsciiCase name "all"

/-- An optional field of a request: trimmed, and nothing when that leaves nothing. -/
def given (field : Option String) : Option String := (field.map trim).filter (· ≠ "")

/-- `Member`: a row with what the session's record says. -/
structure Member where
  row : MemberRow
  title : String
  agent : String
  status : Option SessionStatus

/-- `Member`, as `A2a::team_view` fills it in. -/
def Member.of (m : MemberRow) (record : Option SessionRecord) : Member :=
  ⟨m, (record.map (·.title)).getD "", (record.map (·.agent.asStr)).getD "", record.map (·.status)⟩

/-- `Delivery`. -/
inductive Delivery
  | delivered
  | queued
  deriving DecidableEq, Repr

/-- `Receipt`. -/
structure Receipt where
  id : String
  target : String
  status : Delivery

/-- `SpawnOutcome`. -/
structure SpawnOutcome where
  teamId : String
  member : Member
  message : Receipt

/-- What a step draws from outside. -/
structure Draw where
  now : ℕ
  /-- A fresh id. -/
  id : String
  /-- What the account router answers, if there is one: an account and why. -/
  route : Option (Except String (Option (String × String)))
  /-- What the computer setter answers, if there is one. -/
  moved : Option (Except String Unit)

/-- What the calls share: the database, and the switches of agent-to-agent messaging. -/
structure Tables where
  store : Store
  teams : TeamStore
  a2a : A2aStore
  globalEnabled : Option Bool
  sessionEnabled : String → Bool

/-! ### `A2a::team_view` -/

/-- How far `team_view` is. -/
inductive ViewAt
  | team
  | members
  /-- The records of the members still to read, and the members done. -/
  | records (rows : List MemberRow) (done : List Member)

/-- One store call of `team_view`: the next state, or what it returns of the members. -/
def ViewAt.step (t : Tables) (teamId : String) : ViewAt → ViewAt ⊕ Option (List Member)
  | .team =>
    match t.teams.teamRow teamId with
    | none => .inr none
    | some _ => .inl .members
  | .members => .inl (.records (t.teams.teamMembers teamId) [])
  | .records (m :: rows) done =>
    .inl (.records rows (done ++ [.of m (t.store.session m.sessionId)]))
  | .records [] done => .inr (some done)

/-! ### `A2a::spawn_teammate` -/

/-- How far a `spawn_teammate` is: what it does next, and what it has read that it still needs. -/
inductive SpawnAt
  /-- `check_caller`: the server-wide switch. -/
  | entered
  /-- `check_caller`: the session's switch. -/
  | enabled
  /-- The caller's record. -/
  | checked
  /-- The caller's membership. -/
  | located (leader : SessionRecord)
  /-- The members of the team it leads. -/
  | leads (leader : SessionRecord) (teamId : String)
  /-- The spawn rate. -/
  | rated (leader : SessionRecord) (teamId : String)
  /-- The teammate's session. -/
  | admitted (leader : SessionRecord) (existing : Option String)
  /-- The new session's record is read back. -/
  | created (leader : SessionRecord) (existing : Option String) (id : String)
  /-- The caller's own team. -/
  | founding (leader : SessionRecord) (id : String)
  /-- The teammate's row. -/
  | joining (teamId id : String)
  /-- The computer setter. -/
  | placing (teamId id computer : String)
  /-- The teammate whose computer was refused is ended. -/
  | ending (id : String) (error : TeamError)
  /-- `archive`. -/
  | archiving (id : String) (error : TeamError)
  /-- The first prompt is stored. -/
  | greeting (teamId id : String)
  /-- The message was flushed, and is read again. -/
  | delivering (teamId id : String) (msg : A2aMessage)
  /-- The team is read for the answer. -/
  | viewing (teamId id : String) (receipt : Receipt) (view : ViewAt)
  | returned (result : Except TeamError SpawnOutcome)

/-- A `spawn_teammate` under way or returned. -/
structure SpawnCall where
  caller : String
  req : SpawnRequest
  phase : SpawnAt
  /-- The sessions it created. -/
  sessions : List String
  /-- The sessions of the member rows it created. -/
  rows : List String

namespace SpawnCall

variable (c : SpawnCall)

/-- The call goes on. -/
def goTo (phase : SpawnAt) : SpawnCall := { c with phase }

/-- The call returns an error. -/
def refuse (error : TeamError) : SpawnCall := { c with phase := .returned (.error error) }

/-- The teammate's name. -/
def name : String := trim c.req.name

/-- The agent of the new session. -/
def agent (cfg : TeamConfig) (leader : SessionRecord) : Except TeamError AgentKind :=
  match given c.req.agent with
  | some a =>
    match AgentKind.parse cfg.acpNames a with
    | some kind => .ok kind
    | none => .error (.unknownAgent a)
  | none => .ok leader.agent

/-- The title of the new session. -/
def title (leader : SessionRecord) : String :=
  (given c.req.title).getD (c.name ++ " \u00b7 " ++ leader.title)

/-- What the account router's answer comes to in `Sessions::create_with_account`. -/
def account (route : Option (Except String (Option (String × String)))) :
    Except TeamError (Option (String × String)) :=
  match route, given c.req.account with
  | some (.ok choice), _ => .ok choice
  | some (.error why), _ => .error (.account why)
  | none, some id => .error (.account ("account " ++ id ++ ": accounts are not enabled"))
  | none, none => .ok none

/-- The computer the teammate is to run on, when it is not this server. -/
def computer : Option String := (given c.req.computer).filter (· ≠ LOCAL)

/-- `archive`: the session of a failed teammate. -/
def archivePatch : SessionPatch := ⟨none, none, some true⟩

/-- `Sessions::create_with_account`, up to the session's row. -/
def create (cfg : TeamConfig) (t : Tables) (d : Draw) (leader : SessionRecord)
    (existing : Option String) : Tables × SpawnCall :=
  match c.agent cfg leader with
  | .error e => (t, c.refuse e)
  | .ok agent =>
    if agent ∉ cfg.adapters then (t, c.refuse (.agentUnavailable agent.asStr))
    else
      match c.account d.route with
      | .error e => (t, c.refuse e)
      | .ok account =>
        match t.store.createSession d.id d.now leader.project agent leader.cwd none (c.title leader)
            account with
        | none => (t, c.refuse .store)
        | some (store, _) =>
          ({ t with store },
            { c with phase := .created leader existing d.id, sessions := c.sessions ++ [d.id] })

/-- The next store call of a `spawn_teammate` that goes through, and what the call does up to the
one after it. -/
def step (cfg : TeamConfig) (t : Tables) (d : Draw) : Tables × SpawnCall :=
  match c.phase with
  | .entered =>
    if t.globalEnabled.getD cfg.enabledByDefault then (t, c.goTo .enabled)
    else (t, c.refuse .disabled)
  | .enabled =>
    if !t.sessionEnabled c.caller then (t, c.refuse (.sessionDisabled c.caller))
    else if !validName c.name then (t, c.refuse (.invalidName c.name))
    else if trim c.req.prompt = "" then (t, c.refuse .emptyPrompt)
    else (t, c.goTo .checked)
  | .checked =>
    match t.store.session c.caller with
    | none => (t, c.refuse (.sessionNotFound c.caller))
    | some leader => (t, c.goTo (.located leader))
  | .located leader =>
    match t.teams.teamMember c.caller with
    | none => (t, c.goTo (.admitted leader none))
    | some m =>
      if m.role = .leader then (t, c.goTo (.leads leader m.teamId))
      else if m.active then (t, c.refuse (.notLeader m.name m.teamId))
      else (t, c.refuse .formerTeammate)
  | .leads leader teamId =>
    let active := (t.teams.teamMembers teamId).filter MemberRow.isActiveTeammate
    if active.length ≥ MAX_TEAMMATES then (t, c.refuse .full)
    else if active.any (eqIgnoreAsciiCase ·.name c.name) then (t, c.refuse (.nameTaken c.name))
    else (t, c.goTo (.rated leader teamId))
  | .rated leader teamId =>
    if t.teams.teamJoinsSince teamId d.now cfg.window ≥ cfg.perSession then
      (t, c.refuse (.rateLimited teamId cfg.perSession ((cfg.window / 1000 + 59) / 60)))
    else (t, c.goTo (.admitted leader (some teamId)))
  | .admitted leader existing => c.create cfg t d leader existing
  | .created leader existing id =>
    match existing with
    | some teamId => (t, c.goTo (.joining teamId id))
    | none => (t, c.goTo (.founding leader id))
  | .founding leader id =>
    match t.teams.createTeam d.id d.now c.caller leader.project with
    | none => (t, c.refuse .store)
    | some (teams, team) =>
      ({ t with teams }, { c with phase := .joining team.id id, rows := c.rows ++ [c.caller] })
  | .joining teamId id =>
    match t.teams.addTeamMember d.now teamId id c.name with
    | none => (t, c.goTo (.archiving id (.adding c.name)))
    | some (teams, _) =>
      let joined := { c with rows := c.rows ++ [id] }
      match c.computer with
      | some computer => ({ t with teams }, joined.goTo (.placing teamId id computer))
      | none => ({ t with teams }, joined.goTo (.greeting teamId id))
  | .placing teamId id computer =>
    match d.moved with
    | some (.ok ()) => (t, c.goTo (.greeting teamId id))
    | some (.error why) => (t, c.goTo (.ending id (.notMoved c.name computer why)))
    | none => (t, c.goTo (.ending id
        (.notMoved c.name computer "this server cannot move sessions between computers")))
  | .ending id error =>
    ({ t with teams := (t.teams.endTeamMember d.now id).1 }, c.goTo (.archiving id error))
  | .archiving id error =>
    ({ t with store := t.store.step (.updateSessionMeta id archivePatch) }, c.refuse error)
  | .greeting teamId id =>
    match t.a2a.insertMessage d.id d.now c.caller id none (trim c.req.prompt) with
    | none => (t, c.refuse .store)
    | some (a2a, msg) => ({ t with a2a }, c.goTo (.delivering teamId id msg))
  | .delivering teamId id msg =>
    let delivered := (t.a2a.messages.find? (·.message.id == msg.id)).any MessageRow.isDelivered
    let receipt : Receipt := ⟨msg.id, msg.toSession, if delivered then .delivered else .queued⟩
    (t, c.goTo (.viewing teamId id receipt .team))
  | .viewing teamId id receipt view =>
    match view.step t teamId with
    | .inl view => (t, c.goTo (.viewing teamId id receipt view))
    | .inr view =>
      match view.bind (·.find? (·.row.sessionId == id)) with
      | some member => (t, c.goTo (.returned (.ok ⟨teamId, member, receipt⟩)))
      | none => (t, c.refuse (.vanished c.name))
  | .returned _ => (t, c)

/-- The next store call of a `spawn_teammate` fails: a refused row and a session that cannot be
archived have ways of their own, everything else returns the error. -/
def fails : SpawnCall :=
  match c.phase with
  | .joining _ id => c.goTo (.archiving id (.adding c.name))
  | .archiving _ error => c.refuse error
  | .placing .. => c
  | .returned _ => c
  | _ => c.refuse .store

end SpawnCall

/-- A `spawn_teammate` that has just been called. -/
def SpawnCall.enter (caller : String) (req : SpawnRequest) : SpawnCall :=
  ⟨caller, req, .entered, [], []⟩

/-! ### `A2a::end_teammate` and `A2a::end_teammate_by_user` -/

/-- How far the ending of a teammate is. -/
inductive EndAt
  /-- `require_leader`. -/
  | leads (caller who : String)
  /-- `resolve_member`. -/
  | resolving (teamId who : String)
  /-- `end_teammate_by_user` looks its target up. -/
  | finding (teamId sessionId : String)
  /-- `end_member`. -/
  | ending (teamId : String) (target : MemberRow) (by_ : String)
  /-- The notice in the teammate's session. -/
  | noticing (teamId : String) (target : MemberRow) (by_ : String)
  | viewing (teamId : String) (target : MemberRow) (view : ViewAt)
  | returned (result : Except TeamError Member)

/-- `A2a::resolve_member`, of the members it read. -/
def resolveMember (members : List MemberRow) (who : String) : Option MemberRow :=
  let who := trim who
  let active := members.filter MemberRow.active
  match active.find? fun m ↦ eqIgnoreAsciiCase m.name who || m.sessionId == who with
  | some m => some m
  | none =>
    if 4 ≤ who.utf8ByteSize then
      match active.filter fun m ↦ m.sessionId.startsWith who with
      | [m] => some m
      | _ => none
    else none

namespace EndAt

/-- The next store call of the ending of a teammate that goes through. -/
def step (t : Tables) (now : ℕ) : EndAt → Tables × EndAt
  | .leads caller who =>
    match t.teams.teamMember caller with
    | none => (t, .returned (.error .notInTeam))
    | some m =>
      if !m.active then (t, .returned (.error (.endedFrom m.teamId)))
      else if m.role ≠ .leader then (t, .returned (.error .onlyLeader))
      else (t, .resolving m.teamId who)
  | .resolving teamId who =>
    match resolveMember (t.teams.teamMembers teamId) who with
    | none => (t, .returned (.error (.noMember (trim who))))
    | some target =>
      if target.role = .leader then (t, .returned (.error .leaderItself))
      else (t, .ending teamId target "the team leader")
  | .finding teamId sessionId =>
    match t.teams.teamMember sessionId with
    | none => (t, .returned (.error (.notTeammateOf sessionId teamId)))
    | some m =>
      if m.teamId = teamId ∧ m.isActiveTeammate then (t, .ending teamId m "the user")
      else (t, .returned (.error (.notTeammateOf sessionId teamId)))
  | .ending teamId target by_ =>
    let (teams, ended) := t.teams.endTeamMember now target.sessionId
    if ended then ({ t with teams }, .noticing teamId target by_)
    else ({ t with teams }, .returned (.error (.notActive target.name)))
  | .noticing teamId target by_ =>
    let message := "Teammate " ++ target.name ++ " was ended by " ++ by_ ++ "; it has left team " ++
      teamId ++ "."
    ({ t with store := t.store.step (.append target.sessionId now (.notice message)) },
      .viewing teamId target .team)
  | .viewing teamId target view =>
    match view.step t teamId with
    | .inl view => (t, .viewing teamId target view)
    | .inr view =>
      match view.bind (·.find? (·.row.sessionId == target.sessionId)) with
      | some member => (t, .returned (.ok member))
      | none => (t, .returned (.error (.teamNotFound teamId)))
  | .returned result => (t, .returned result)

/-- The next store call fails; that the notice could not be stored is only logged. -/
def fails : EndAt → EndAt
  | .noticing teamId target _ => .viewing teamId target .team
  | .returned result => .returned result
  | _ => .returned (.error .store)

end EndAt

/-! ### Any number of calls at a time -/

/-- The server's teams with the calls that were made so far. -/
structure Teams where
  tables : Tables
  spawns : ℕ → Option SpawnCall
  ends : ℕ → Option EndAt

/-- What can happen. -/
inductive TeamAction
  | spawnTeammate (i : ℕ) (caller : String) (req : SpawnRequest)
  | spawnStep (i : ℕ) (d : Draw)
  | spawnFails (i : ℕ)
  | endTeammate (i : ℕ) (caller who : String)
  | endTeammateByUser (i : ℕ) (teamId sessionId : String)
  | endStep (i : ℕ) (now : ℕ)
  | endFails (i : ℕ)
  /-- An event of a session is stored. -/
  | append (sessionId : String) (now : ℕ) (event : AgentEvent)
  /-- A flush marks messages delivered. -/
  | markDelivered (ids : List String) (now : ℕ)

namespace Teams

/-- One step. A number stands for one call: one that is taken is not called again. -/
def step (cfg : TeamConfig) (w : Teams) : TeamAction → Teams
  | .spawnTeammate i caller req =>
    if (w.spawns i).isSome then w
    else { w with spawns := Function.update w.spawns i (some (.enter caller req)) }
  | .spawnStep i d =>
    match w.spawns i with
    | none => w
    | some c =>
      let (tables, c) := c.step cfg w.tables d
      { w with tables, spawns := Function.update w.spawns i (some c) }
  | .spawnFails i => { w with spawns := Function.update w.spawns i ((w.spawns i).map SpawnCall.fails) }
  | .endTeammate i caller who =>
    if (w.ends i).isSome then w
    else { w with ends := Function.update w.ends i (some (.leads caller who)) }
  | .endTeammateByUser i teamId sessionId =>
    if (w.ends i).isSome then w
    else { w with ends := Function.update w.ends i (some (.finding teamId sessionId)) }
  | .endStep i now =>
    match w.ends i with
    | none => w
    | some e =>
      let (tables, e) := e.step w.tables now
      { w with tables, ends := Function.update w.ends i (some e) }
  | .endFails i => { w with ends := Function.update w.ends i ((w.ends i).map EndAt.fails) }
  | .append sessionId now event =>
    { w with tables.store := w.tables.store.step (.append sessionId now event) }
  | .markDelivered ids now => { w with tables.a2a := w.tables.a2a.markDelivered ids now }

/-- A server without teams: some database, and nothing called yet. -/
def start (history : List StoreOp) (a2a : A2aStore) (globalEnabled : Option Bool)
    (sessionEnabled : String → Bool) : Teams :=
  ⟨⟨.ofHistory history, ⟨[], []⟩, a2a, globalEnabled, sessionEnabled⟩, fun _ ↦ none, fun _ ↦ none⟩

/-- The calls in any order, from any database without teams. -/
def system (cfg : TeamConfig) : StepSystem Teams TeamAction where
  init w := ∃ history a2a globalEnabled sessionEnabled,
    w = .start history a2a globalEnabled sessionEnabled
  step w a w' := w' = w.step cfg a

end Teams

end Ember.Server
