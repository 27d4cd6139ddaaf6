import Ember.Client.Transcript
import Std.Data.ExtTreeSet.Lemmas

/-!
# The client's view of the server, as a reducer

`State.apply` takes one input, something the network said or the user did, and returns the state
after it with the changes it caused. A hash map and an ordered map are both an `ExtTreeMap`: the
reducer reads them by key, and where it walks one (`deriveComputerProjects`) the source's map is
ordered too.

Two views say all that an input does to one session, and everything proved about runs of the client
reads them instead of the reducer: `apply_transcripts` for its transcript, `apply_sessions` for its
record.
-/

namespace Ember.Client

/-- `Reachability`. -/
inductive Reachability
  | unknown
  | online
  | offline
  deriving DecidableEq, Repr

/-- `Computer`, as listed in the launcher. -/
structure Computer where
  id : String
  name : String
  reachability : Reachability
  projects : List String
  deriving DecidableEq, Repr

/-- `ConnectionState`. -/
inductive ConnectionState
  | offline
  | connecting (attempt : ℕ)
  | connected
  | reconnecting (attempt retryInMs : ℕ) (error : String)
  | incompatible (server client : ℕ)
  deriving DecidableEq, Repr

/-- Something that happened, fed to `State.apply`. -/
inductive Input
  /-- `GET /sessions` answered. -/
  | sessionsLoaded (list : List SessionRecord)
  /-- `GET /sessions/{id}` or `POST /sessions` answered. -/
  | sessionLoaded (record : SessionRecord)
  | push (push : Push)
  /-- `GET /sessions/{id}/events?after=` answered. -/
  | eventsFetched (sessionId : String) (events : List StoredEvent)
  /-- The UI opened a conversation view. -/
  | opened (id : String)
  /-- The UI closed it. -/
  | closed (id : String)
  | connection (c : ConnectionState)
  | computersLoaded (list : List Computer)
  /-- `GET /projects` answered. -/
  | projectsLoaded (list : List Project)
  /-- `GET /sessions/{id}/team` answered. -/
  | teamLoaded (sessionId : String) (team : Option TeamView)
  deriving Repr

/-- What an input changed. -/
structure Changes where
  projects : Bool
  sessions : Std.ExtTreeSet String
  transcripts : Std.ExtTreeSet String
  computers : Bool
  connection : Bool
  teams : Std.ExtTreeSet String
  /-- Open sessions whose transcript has a gap. -/
  resync : Std.ExtTreeSet String
  /-- Reload the session list and resync every open session. -/
  resyncAll : Bool
  /-- Something persisted in the cache changed. -/
  persist : Bool

/-- `Changes::default`. -/
def Changes.default : Changes := ⟨false, ∅, ∅, false, false, ∅, ∅, false, false⟩

/-- `Changes::is_empty`. -/
def Changes.isEmpty (ch : Changes) : Bool :=
  !ch.projects && ch.sessions.isEmpty && ch.transcripts.isEmpty && !ch.computers &&
    !ch.connection && ch.teams.isEmpty && ch.resync.isEmpty && !ch.resyncAll && !ch.persist

/-- The client's whole view of the server. -/
structure State where
  sessions : Std.ExtTreeMap String SessionRecord
  transcripts : Std.ExtTreeMap String Transcript
  open_ : Std.ExtTreeSet String
  lastSeen : Std.ExtTreeMap String ℕ
  baselined : Bool
  computers : List Computer
  projectRecords : Std.ExtTreeMap String Project
  projectsKnown : Bool
  teams : Std.ExtTreeMap String TeamView
  teamOf : Std.ExtTreeMap String String
  connection : ConnectionState
  revision : ℕ

/-- What is cached on disk for an offline cold start. -/
structure CacheSnapshot where
  baselined : Bool
  sessions : List SessionRecord
  lastSeen : Std.ExtTreeMap String ℕ
  computers : List Computer
  projects : List Project

namespace State

/-- `State::new`. -/
def new : State := ⟨∅, ∅, ∅, ∅, false, [], ∅, false, ∅, ∅, .offline, 0⟩

/-- `State::from_cache`: the state as it was cached, before the network answers. -/
def fromCache (c : CacheSnapshot) : State :=
  { new with
    sessions := .ofList (c.sessions.map fun s ↦ (s.id, s))
    lastSeen := c.lastSeen
    baselined := c.baselined
    computers := c.computers
    projectsKnown := !c.projects.isEmpty
    projectRecords := .ofList (c.projects.map fun p ↦ (p.name, p)) }

/-- A client that has just started: from nothing, or from its cache. -/
inductive Started : State → Prop
  | new : Started .new
  | fromCache (c : CacheSnapshot) : Started (.fromCache c)

/-- `State::transcript`. -/
def transcript (s : State) (id : String) : Option Transcript := s.transcripts[id]?

/-- `State::mark_seen`. -/
def markSeen (s : State) (id : String) (ch : Changes) : State × Changes :=
  match s.sessions[id]? with
  | none => (s, ch)
  | some record =>
    let seen := s.lastSeen[id]?.getD 0
    if seen < record.lastSeq then
      ({ s with lastSeen := s.lastSeen.insert id record.lastSeq },
        { ch with sessions := ch.sessions.insert id, persist := true })
    else ({ s with lastSeen := s.lastSeen.insert id seen }, ch)

/-- The end of `State::upsert`: store the record and catch up with it. -/
def storeRecord (s : State) (record : SessionRecord) (ch : Changes) : State × Changes :=
  let s := { s with sessions := s.sessions.insert record.id record }
  let (s, ch) :=
    if record.id ∈ s.open_ then
      let (s, ch) := s.markSeen record.id ch
      -- the record may be ahead of the transcript
      match s.transcripts[record.id]? with
      | some t =>
        (s, if t.lastSeq < record.lastSeq then { ch with resync := ch.resync.insert record.id }
          else ch)
      | none => (s, ch)
    else (s, ch)
  (s, { ch with sessions := ch.sessions.insert record.id, persist := true })

/-- The start of `State::upsert`: before the first list load, existing history counts as read;
after it, a session never seen is entirely unread. -/
def markKnown (s : State) (record : SessionRecord) : State :=
  if record.id ∈ s.lastSeen then s
  else { s with lastSeen :=
    s.lastSeen.insert record.id (if s.baselined then 0 else record.lastSeq) }

/-- `State::upsert`: take a session record from the server unless a newer one is held. -/
def upsert (s : State) (record : SessionRecord) (ch : Changes) : State × Changes :=
  let s := s.markKnown record
  match s.sessions[record.id]? with
  | some cur =>
    if cur.lastSeq > record.lastSeq then (s, ch)
    else if cur = record then (s, ch)
    else
      s.storeRecord record
        (if cur.project ≠ record.project ∨ cur.updatedAt ≠ record.updatedAt then
          { ch with projects := true } else ch)
  | none => s.storeRecord record { ch with projects := true }

/-- A record after an event with a newer sequence number. -/
def takeEvent (record : SessionRecord) (status : Option SessionStatus) (ev : StoredEvent) :
    SessionRecord :=
  { record with
    lastSeq := ev.seq
    updatedAt := ev.at_
    status := status.getD record.status
    nativeId := match ev.event with
      | .nativeSession nativeId => some nativeId
      | _ => record.nativeId }

/-- What `State::on_event` does to the session's record. -/
def recordEvent (s : State) (status : Option SessionStatus) (ev : StoredEvent) (ch : Changes) :
    State × Changes :=
  match s.sessions[ev.sessionId]? with
  | some record =>
    if ev.seq > record.lastSeq then
      ({ s with sessions := s.sessions.insert ev.sessionId (takeEvent record status ev) },
        { ch with
          projects := ch.projects || record.updatedAt != ev.at_
          sessions := ch.sessions.insert ev.sessionId
          persist := true })
    else (s, ch)
  -- a session not heard of: its creation was missed
  | none => (s, { ch with resyncAll := true })

/-- What `State::on_event` does to the session's transcript. -/
def transcriptEvent (s : State) (ev : StoredEvent) (ch : Changes) : State × Changes :=
  match s.transcripts[ev.sessionId]? with
  | some t =>
    let (t, applied) := t.apply ev
    ({ s with transcripts := s.transcripts.insert ev.sessionId t },
      match applied with
      | .changed => { ch with transcripts := ch.transcripts.insert ev.sessionId }
      | .duplicate => ch
      -- closed sessions are caught up when reopened; only open ones fetch now
      | .gap _ =>
        if ev.sessionId ∈ s.open_ then { ch with resync := ch.resync.insert ev.sessionId } else ch)
  | none => (s, ch)

/-- `State::on_event`: one stored event, from push (`status` known) or a fetch. -/
def onEvent (s : State) (status : Option SessionStatus) (ev : StoredEvent) (ch : Changes) :
    State × Changes :=
  let (s, ch) := s.recordEvent status ev ch
  let (s, ch) := s.transcriptEvent ev ch
  if ev.sessionId ∈ s.open_ then s.markSeen ev.sessionId ch else (s, ch)

/-- One member of `State::put_team`: point it at the team. -/
def pointMember (teamId : String) (acc : Std.ExtTreeMap String String × Changes) (m : TeamMember) :
    Std.ExtTreeMap String String × Changes :=
  let (teamOf, ch) := acc
  (teamOf.insert m.sessionId teamId,
    match teamOf[m.sessionId]? with
    | some old => if old ≠ teamId then { ch with teams := ch.teams.insert old } else ch
    | none => ch)

/-- `State::put_team`: take a whole team and re-point its members at it. -/
def putTeam (s : State) (team : TeamView) (ch : Changes) : State × Changes :=
  if s.teams[team.id]? = some team then (s, ch)
  else
    -- members the new view no longer lists leave the index
    let teamOf := s.teamOf.filter fun sid tid ↦ tid != team.id || (team.member sid).isSome
    let (teamOf, ch) := team.members.foldl (pointMember team.id) (teamOf, ch)
    ({ s with teamOf := teamOf, teams := s.teams.insert team.id team },
      { ch with teams := ch.teams.insert team.id })

/-- `State::unlink_session`. -/
def unlinkSession (s : State) (sessionId : String) (ch : Changes) : State × Changes :=
  match s.teamOf[sessionId]? with
  | some old =>
    ({ s with teamOf := s.teamOf.erase sessionId }, { ch with teams := ch.teams.insert old })
  | none => (s, ch)

/-- The projects assigned to a computer. -/
def assignedProjects (s : State) (computerId : String) : List String :=
  (s.projectRecords.values.filter fun p ↦ p.computers.contains computerId).map Project.name

/-- `State::derive_computer_projects`: whether any computer changed. -/
def deriveComputerProjects (s : State) : State × Bool :=
  if s.projectsKnown then
    ({ s with computers := s.computers.map fun c ↦ { c with projects := s.assignedProjects c.id } },
      s.computers.any fun c ↦ c.projects != s.assignedProjects c.id)
  else (s, false)

/-- The body of `State::apply`. -/
def handle (s : State) (ch : Changes) : Input → State × Changes
  | .sessionsLoaded list =>
    let (s, ch) := list.foldl (fun (s, ch) record ↦ upsert s record ch) (s, ch)
    if s.baselined then (s, ch) else ({ s with baselined := true }, { ch with persist := true })
  | .sessionLoaded record => s.upsert record ch
  | .push (.sessionCreated session) =>
    -- created while watching: nothing in it has been seen yet
    let s :=
      if session.id ∈ s.sessions then s
      else { s with lastSeen := s.lastSeen.insertIfNew session.id 0 }
    s.upsert session ch
  | .push (.event status event) => s.onEvent (some status) event ch
  | .push (.lagged _) => (s, { ch with resyncAll := true })
  | .push (.sessionUpdated session) =>
    match s.sessions[session.id]? with
    | some cur =>
      let (cur, changed) := cur.takeMeta session
      ({ s with sessions := s.sessions.insert session.id cur },
        if changed then
          { ch with projects := true, sessions := ch.sessions.insert session.id, persist := true }
        else ch)
    -- missed its creation: reload the list
    | none => (s, { ch with resyncAll := true })
  | .push (.projectUpdated project) =>
    let s := { s with projectsKnown := true }
    if s.projectRecords[project.name]? ≠ some project then
      let s := { s with projectRecords := s.projectRecords.insert project.name project }
      let (s, changed) := s.deriveComputerProjects
      (s, { ch with projects := true, persist := true, computers := ch.computers || changed })
    else (s, ch)
  | .projectsLoaded list =>
    let fresh := Std.ExtTreeMap.ofList (list.map fun p ↦ (p.name, p))
    let s := { s with projectsKnown := true }
    let (s, ch) :=
      if fresh ≠ s.projectRecords then
        ({ s with projectRecords := fresh }, { ch with projects := true, persist := true })
      else (s, ch)
    let (s, changed) := s.deriveComputerProjects
    let ch := { ch with computers := ch.computers || changed }
    (s, { ch with persist := ch.persist || ch.computers })
  | .push (.teamUpdated team) => s.putTeam team ch
  | .teamLoaded sessionId (some team) =>
    -- an answer for a session the team no longer lists: only the team counts
    let (s, ch) := if (team.member sessionId).isNone then s.unlinkSession sessionId ch else (s, ch)
    s.putTeam team ch
  | .teamLoaded sessionId none => s.unlinkSession sessionId ch
  | .eventsFetched sessionId events =>
    (events.filter fun ev ↦ ev.sessionId == sessionId).foldl
      (fun (s, ch) ev ↦ onEvent s none ev ch) (s, ch)
  | .opened id =>
    let s := { s with open_ := s.open_.insert id, transcripts := s.transcripts.insertIfNew id .new }
    let (s, ch) := s.markSeen id ch
    (s, { ch with
      sessions := ch.sessions.insert id
      transcripts := ch.transcripts.insert id
      resync := ch.resync.insert id })
  | .closed id =>
    if id ∈ s.open_ then
      let (s, ch) := { s with open_ := s.open_.erase id }.markSeen id ch
      (s, { ch with sessions := ch.sessions.insert id })
    else (s, ch)
  | .connection c =>
    if c ≠ s.connection then ({ s with connection := c }, { ch with connection := true })
    else (s, ch)
  | .computersLoaded list =>
    if list ≠ s.computers then
      ({ s with computers := list }.deriveComputerProjects.1,
        { ch with computers := true, persist := true })
    else (s, ch)

/-- `State::apply`. -/
def apply (s : State) (input : Input) : State × Changes :=
  let (s, ch) := s.handle .default input
  if ch.isEmpty then (s, ch) else ({ s with revision := s.revision + 1 }, ch)

/-- The state after a list of inputs. -/
def run (s : State) (inputs : List Input) : State :=
  inputs.foldl (fun s input ↦ (s.apply input).1) s

end State

end Ember.Client
