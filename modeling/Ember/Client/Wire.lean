import Ember.Server.Events

/-!
# The wire types as the client sees them

The client mirrors the server's types. Event kinds it does not know decode to `unknown`, so an
additive change of the server never breaks it; `decode` is that reading of a server event.
-/

namespace Ember.Client

/-- `ApprovalDecision`. -/
inductive ApprovalDecision
  | allowOnce
  | allowAlways
  | deny
  deriving DecidableEq, Repr

/-- `TurnOutcome`. -/
inductive TurnOutcome
  | completed
  | interrupted
  | failed
  deriving DecidableEq, Repr

/-- `AgentEvent`, as decoded from the wire. -/
inductive AgentEvent
  | nativeSession (nativeId : String)
  | userMessage (text : String)
  | assistantDelta (text : String)
  | assistantMessage (text : String)
  | toolCall (callId name : String) (input : Value)
  | toolResult (callId output : String) (isError : Bool)
  | approvalRequested (approvalId tool : String) (input : Value)
  | approvalResolved (approvalId : String) (decision : ApprovalDecision)
  | usage (inputTokens outputTokens : ℕ)
  | turnEnded (outcome : TurnOutcome)
  | error (message : String)
  | notice (message : String)
  /-- An event kind this client does not know. -/
  | unknown
  deriving Repr

/-- `SessionStatus`, as decoded from the wire. -/
inductive SessionStatus
  | idle
  | running
  | waitingForApproval
  | finished
  | failed
  | unknown
  deriving DecidableEq, Repr

/-- A stored event as the client decodes it. -/
structure StoredEvent where
  sessionId : String
  seq : ℕ
  at_ : ℕ
  event : AgentEvent
  deriving Repr

/-- `SessionRecord`, a session as the server lists it. -/
structure SessionRecord where
  id : String
  project : String
  agent : String
  cwd : String
  model : Option String
  nativeId : Option String
  status : SessionStatus
  title : String
  createdAt : ℕ
  updatedAt : ℕ
  lastSeq : ℕ
  accountId : Option String
  accountReason : Option String
  pinned : Bool
  archived : Bool
  deriving DecidableEq, Repr

/-- `SessionRecord::take_meta`: take the user-editable metadata from `other` and keep this record's
activity fields; also whether anything changed. -/
def SessionRecord.takeMeta (self other : SessionRecord) : SessionRecord × Bool :=
  let changed := self.title != other.title || self.pinned != other.pinned ||
    self.archived != other.archived
  ({ self with title := other.title, pinned := other.pinned, archived := other.archived }, changed)

/-- A project and the computers assigned to it. -/
structure Project where
  name : String
  createdAt : ℕ
  computers : List String
  deriving DecidableEq, Repr

/-- `TeamRole`. -/
inductive TeamRole
  | leader
  | teammate
  | unknown
  deriving DecidableEq, Repr

/-- `TaskStatus`. -/
inductive TaskStatus
  | open_
  | inProgress
  | blocked
  | done
  | cancelled
  | unknown
  deriving DecidableEq, Repr

/-- A team member; `title`, `agent` and `status` are a snapshot from when the team last changed. -/
structure TeamMember where
  sessionId : String
  name : String
  role : TeamRole
  joinedAt : ℕ
  endedAt : Option ℕ
  title : String
  agent : String
  status : Option SessionStatus
  deriving DecidableEq, Repr

/-- A task of a team. -/
structure TeamTask where
  id : String
  teamId : String
  number : ℕ
  title : String
  detail : String
  status : TaskStatus
  assignee : Option String
  assigneeName : Option String
  createdBy : String
  createdAt : ℕ
  updatedAt : ℕ
  deriving DecidableEq, Repr

/-- A team: leader first among the members, then teammates. -/
structure TeamView where
  id : String
  project : String
  leader : String
  createdAt : ℕ
  members : List TeamMember
  tasks : List TeamTask
  deriving DecidableEq, Repr

/-- `TeamView::member`. -/
def TeamView.member (t : TeamView) (sessionId : String) : Option TeamMember :=
  t.members.find? fun m ↦ m.sessionId == sessionId

/-- A decoded push message. -/
inductive Push
  | sessionCreated (session : SessionRecord)
  | event (status : SessionStatus) (event : StoredEvent)
  /-- The server dropped messages for this client. -/
  | lagged (missed : ℕ)
  | sessionUpdated (session : SessionRecord)
  | projectUpdated (project : Project)
  | teamUpdated (team : TeamView)
  deriving Repr

/-! ### Reading what the server serialises -/

/-- The client's reading of an approval decision. -/
def ApprovalDecision.decode : Server.ApprovalDecision → ApprovalDecision
  | .allowOnce => .allowOnce
  | .allowAlways => .allowAlways
  | .deny => .deny

/-- The client's reading of a turn outcome. -/
def TurnOutcome.decode : Server.TurnOutcome → TurnOutcome
  | .completed => .completed
  | .interrupted => .interrupted
  | .failed => .failed

/-- The client's reading of a session status. -/
def SessionStatus.decode : Server.SessionStatus → SessionStatus
  | .idle => .idle
  | .running => .running
  | .waitingForApproval => .waitingForApproval
  | .finished => .finished
  | .failed => .failed

/-- The client's reading of an event: the kinds it does not know become `unknown`. -/
def AgentEvent.decode : Server.AgentEvent → AgentEvent
  | .nativeSession nativeId => .nativeSession nativeId
  | .userMessage text => .userMessage text
  | .systemNotice _ => .unknown
  | .assistantDelta text => .assistantDelta text
  | .assistantMessage text => .assistantMessage text
  | .toolCall callId name input => .toolCall callId name input
  | .toolResult callId output isError => .toolResult callId output isError
  | .approvalRequested approvalId tool input => .approvalRequested approvalId tool input
  | .approvalResolved approvalId decision => .approvalResolved approvalId (.decode decision)
  | .usage inputTokens outputTokens => .usage inputTokens outputTokens
  | .rateLimited _ _ => .unknown
  | .turnEnded outcome => .turnEnded (.decode outcome)
  | .error message => .error message
  | .notice message => .notice message

/-- The client's reading of a stored event. -/
def StoredEvent.decode (ev : Server.StoredEvent) : StoredEvent :=
  ⟨ev.sessionId, ev.seq, ev.at_, .decode ev.event⟩

/-- The log of a session as the client decodes it. -/
def decodeLog (log : List Server.AgentEvent) : List AgentEvent := log.map .decode

end Ember.Client
