import Ember.Foundation.Runs
import Ember.Server.A2a.Messages
import Ember.Server.Store
import Mathlib.Logic.Function.Basic

/-!
# Delivering agent-to-agent messages

The parties of a delivery: the store, the message queue, the `awaiting` marks, and for each session
its live run (the agent, its event pump and the turn it works on) together with the one flush that
may hold the session's lock. Every call of the store, of the queue and of the agent is one step;
anything may happen between two of them.

* A flush is where it stopped last: a `Phase`. Its two awaits inside `Sessions::send` are the steps
  `queue` (the notes and the user message enter the pump) and `handOver` (the run takes the text).
* An agent works on one turn at a time. A text it takes between turns starts a turn; one it takes
  during a turn either joins that turn or waits in the agent's own backlog for a turn of its own.
  Which of the two is the adapter's choice, so it is an argument of the step.
* The pump stores events in the order they entered it, at any later time. Notices are appended to
  the store directly (`Sessions::record_event`).

`Live.taken` is not in the source: the message rows the session's agent was given, in that order.
-/

namespace Ember.Server

/-- Who a text put into an agent comes from. -/
inductive Source
  | user
  | a2a
  deriving DecidableEq, Repr

/-- `matches!(event, AgentEvent::TurnEnded { .. })`. -/
def AgentEvent.isTurnEnded : AgentEvent → Bool
  | .turnEnded _ => true
  | _ => false

/-- An event in a session's pump: the end of a turn, with whose turn it was, or anything else. -/
inductive Queued
  | ended (outcome : TurnOutcome) (source : Source)
  | said (event : AgentEvent) (h : event.isTurnEnded = false)

namespace Queued

/-- The event the agent's channel carries. -/
def event : Queued → AgentEvent
  | ended outcome _ => .turnEnded outcome
  | said event _ => event

/-- Whose turn it ends, if it ends one. -/
def ends : Queued → Option Source
  | ended _ source => some source
  | said _ _ => none

/-- The note and user message events of `Sessions::send`. -/
def sent (notes : List String) (text : String) : List Queued :=
  notes.map (fun note ↦ said (.systemNotice note) rfl) ++ [said (.userMessage text) rfl]

@[simp] theorem filterMap_ends_sent (notes : List String) (text : String) :
    (sent notes text).filterMap ends = [] := by
  simp [sent, List.filterMap_append, List.filterMap_map, ends, Function.comp_def]

end Queued

/-- Where the flush that holds a session's lock stopped last. -/
inductive Phase
  /-- No flush holds the lock. -/
  | idle
  /-- `settle_awaiting` said the last delivered turn is over. -/
  | settled
  /-- The record was read between turns, with this `last_seq`. -/
  | read (before : ℕ)
  /-- The pending messages were read and rendered. -/
  | collected (before : ℕ) (batch : List MessageRow) (text : String)
  /-- The session is marked awaiting. -/
  | sending (before : ℕ) (batch : List MessageRow) (text : String)
  /-- The user message is in the pump; `text` is what the agent is to see. -/
  | queued (before : ℕ) (batch : List MessageRow) (text : String)
  /-- The agent took the text; the rows are not marked yet. -/
  | given (batch : List MessageRow)

namespace Phase

/-- The `last_seq` a flush that has not handed over yet goes by. -/
def before : Phase → Option ℕ
  | idle | settled | given _ => none
  | read b | collected b _ _ | sending b _ _ | queued b _ _ => some b

/-- The batch of a flush that has not handed over yet. -/
def inFlight : Phase → List MessageRow
  | collected _ batch _ | sending _ batch _ | queued _ batch _ => batch
  | _ => []

/-- The batch of a flush that has handed over and not marked. -/
def unmarked : Phase → List MessageRow
  | given batch => batch
  | _ => []

theorem inFlight_or_unmarked (p : Phase) : p.inFlight = [] ∨ p.unmarked = [] := by
  cases p with
  | given => exact .inl rfl
  | idle | settled | read | collected | sending | queued => exact .inr rfl

/-- Whether the flush has put its mark in `awaiting`. -/
def marked : Phase → Bool
  | sending _ _ _ | queued _ _ _ => true
  | _ => false

end Phase

/-- A session's live run and the flush of its messages. -/
structure Live where
  /-- The agent's event channel, oldest first. -/
  pump : List Queued
  /-- The turn the agent works on. -/
  turn : Option Source
  /-- Texts the agent took during a turn that get turns of their own. -/
  backlog : List Source
  /-- Texts of user messages whose events are in the pump and that the agent did not take yet. -/
  underWay : List String
  /-- The texts the agent took. -/
  inbox : List String
  phase : Phase
  /-- The message rows the agent took. -/
  taken : List MessageRow

namespace Live

/-- A session nothing happens in. -/
def quiet : Live := ⟨[], none, [], [], [], .idle, []⟩

/-- The agent takes a text; `own` says whether a text taken during a turn gets a turn of its own. -/
def take (l : Live) (text : String) (source : Source) (own : Bool) : Live :=
  let l := { l with inbox := l.inbox ++ [text] }
  match l.turn with
  | none => { l with turn := some source }
  | some _ => if own then { l with backlog := l.backlog ++ [source] } else l

/-- Whose turn ends are still in the pump. -/
def ends (l : Live) : List Source := l.pump.filterMap Queued.ends

/-- The rows the agent took and those a flush is about to hand it. -/
def gone (l : Live) : List MessageRow := l.taken ++ l.phase.inFlight

variable (l : Live) (text : String) (source : Source) (own : Bool)

@[simp] theorem take_pump : (l.take text source own).pump = l.pump := by
  simp only [take]; split <;> [rfl; (split <;> rfl)]

@[simp] theorem take_underWay : (l.take text source own).underWay = l.underWay := by
  simp only [take]; split <;> [rfl; (split <;> rfl)]

@[simp] theorem take_phase : (l.take text source own).phase = l.phase := by
  simp only [take]; split <;> [rfl; (split <;> rfl)]

@[simp] theorem take_taken : (l.take text source own).taken = l.taken := by
  simp only [take]; split <;> [rfl; (split <;> rfl)]

end Live

/-- The text the agent sees: the notes first, then the words of the message. -/
def agentText (notes : List String) (text : String) : String :=
  if notes.isEmpty then text else "\n\n".intercalate notes ++ "\n\n" ++ text

/-- `HEADER_TAG`. -/
def HEADER_TAG : String := "[ember a2a]"

/-- `CLI_NAME`. -/
def CLI_NAME : String := "ember-a2a"

/-- One message of `A2a::render`. -/
def renderOne (store : Store) (m : A2aMessage) : String :=
  let sender := match store.session m.fromSession with
    | some s => "\"" ++ s.title ++ "\" (project " ++ s.project ++ ", agent " ++ s.agent.asStr ++ ")"
    | none => "(deleted session)"
  let header := HEADER_TAG ++ " Message " ++ m.id ++ " from session " ++ m.fromSession ++ " " ++
    sender
  let reply := match m.replyTo with
    | some r => "\nIn reply to message " ++ r ++ "."
    | none => ""
  header ++ reply ++ "\nTo reply: " ++ CLI_NAME ++ " send " ++ m.fromSession ++ " --reply-to " ++
    m.id ++ " \"<your reply>\"" ++ "\n\n" ++ m.text

/-- `A2a::render`: the user-message text for a batch of messages to one target. -/
def render (store : Store) (batch : List MessageRow) : String :=
  "\n\n---\n\n".intercalate (batch.map fun r ↦ renderOne store r.message)

/-- The server as far as messages between sessions are concerned. -/
structure Hub where
  store : Store
  a2a : A2aStore
  /-- Sessions a delivered turn is awaited of, with the `last_seq` before it. -/
  awaiting : String → Option ℕ
  sessions : String → Live

/-- One call a flush makes. -/
inductive FlushStep
  | settle
  | read
  | collect
  | await
  /-- The events of `Sessions::send`, with the notes of the message hooks. -/
  | queue (notes : List String)
  | handOver (own : Bool)
  /-- `Sessions::send` fails, before or after the user message entered the pump. -/
  | fail
  | mark (now : ℕ)

/-- What can happen. -/
inductive Action
  /-- A message is stored for later delivery (`send`, team mail, mentions, notifications). -/
  | insert (id : String) (now : ℕ) (from_ target : String) (replyTo : Option String) (text : String)
  /-- A session is created. -/
  | create (id : String) (now : ℕ) (project : String) (agent : AgentKind) (cwd : String)
      (model : Option String) (title : String) (account : Option (String × String))
  | updateMeta (id : String) (patch : SessionPatch)
  /-- A notice is appended to the store directly. -/
  | notice (id : String) (now : ℕ) (message : String)
  /-- A user message enters the pump. -/
  | userQueue (id : String) (notes : List String) (text : String)
  /-- The agent takes the `i`-th user message under way. -/
  | userTaken (id : String) (i : ℕ) (own : Bool)
  /-- The agent does not take the `i`-th user message under way: `Sessions::send` fails. -/
  | userFailed (id : String) (i : ℕ)
  /-- An event that ends no turn enters the pump. -/
  | say (id : String) (event : AgentEvent) (h : event.isTurnEnded = false)
  | turnEnd (id : String) (outcome : TurnOutcome)
  /-- The agent starts the next turn of its backlog. -/
  | nextTurn (id : String)
  /-- The pump stores its oldest event. -/
  | pump (id : String) (now : ℕ)
  /-- `watch_turns` gets to a stored turn end. -/
  | watch (ev : StoredEvent)
  | flush (id : String) (step : FlushStep)

namespace Hub

/-- Change the live run of a session. -/
def setLive (h : Hub) (id : String) (l : Live) : Hub :=
  { h with sessions := Function.update h.sessions id l }

/-- Change where the flush of a session is. -/
def setPhase (h : Hub) (id : String) (phase : Phase) : Hub :=
  h.setLive id { h.sessions id with phase }

/-- Change the mark of a session. -/
def setAwaiting (h : Hub) (id : String) (mark : Option ℕ) : Hub :=
  { h with awaiting := Function.update h.awaiting id mark }

@[simp] theorem setLive_sessions_self (h : Hub) (id : String) (l : Live) :
    (h.setLive id l).sessions id = l := Function.update_self ..

@[simp] theorem setPhase_sessions_self (h : Hub) (id : String) (phase : Phase) :
    (h.setPhase id phase).sessions id = { h.sessions id with phase } := Function.update_self ..

@[simp] theorem setAwaiting_sessions (h : Hub) (id : String) (mark : Option ℕ) :
    (h.setAwaiting id mark).sessions = h.sessions := rfl

theorem setLive_sessions_of_ne (h : Hub) {id t : String} (hid : id ≠ t) (l : Live) :
    (h.setLive id l).sessions t = h.sessions t := Function.update_of_ne hid.symm _ _

/-- Whether a turn end of the session with a number above `before` is stored. -/
def endedAfter (h : Hub) (id : String) (before : ℕ) : Bool :=
  (h.store.eventsAfter id before).any fun ev ↦ ev.event.isTurnEnded

/-- What a flush that holds the lock does next. A call that does not come next is not made. -/
def flush (h : Hub) (id : String) (step : FlushStep) : Hub :=
  match step, (h.sessions id).phase with
  | .settle, .idle =>
    match h.awaiting id with
    | none => h.setPhase id .settled
    | some before =>
      if h.endedAfter id before then (h.setAwaiting id none).setPhase id .settled else h
  | .read, .settled =>
    match h.store.session id with
    | none => h.setPhase id .idle
    | some record =>
      h.setPhase id (if isBusy record.status then .idle else .read record.lastSeq)
  | .collect, .read before =>
    let pending := h.a2a.pendingFor id
    h.setPhase id (if pending.isEmpty then .idle
      else .collected before pending (render h.store pending))
  | .await, .collected before batch text =>
    (h.setAwaiting id (some before)).setPhase id (.sending before batch text)
  | .queue notes, .sending before batch text =>
    let l := h.sessions id
    h.setLive id { l with
      pump := l.pump ++ Queued.sent notes text
      phase := .queued before batch (agentText notes text) }
  | .handOver own, .queued _ batch text =>
    let l := (h.sessions id).take text .a2a own
    h.setLive id { l with taken := l.taken ++ batch, phase := .given batch }
  | .fail, .sending _ _ _ => (h.setAwaiting id none).setPhase id .idle
  | .fail, .queued _ _ _ => (h.setAwaiting id none).setPhase id .idle
  | .mark now, .given batch =>
    { h with a2a := h.a2a.markDelivered (A2aStore.idsOf batch) now }.setPhase id .idle
  | _, _ => h

/-- Whether the pump drops an event: a resumed agent announces the native id we already have. -/
def dropped (h : Hub) (id : String) : AgentEvent → Bool
  | .nativeSession nativeId => (h.store.session id).bind (·.nativeId) == some nativeId
  | _ => false

/-- One step. An action whose party is not in the state it needs does nothing. -/
def step (h : Hub) : Action → Hub
  | .insert id now from_ target replyTo text =>
    match h.a2a.insertMessage id now from_ target replyTo text with
    | some (a2a, _) => { h with a2a }
    | none => h
  | .create id now project agent cwd model title account =>
    { h with store := h.store.step (.createSession id now project agent cwd model title account) }
  | .updateMeta id patch => { h with store := h.store.step (.updateSessionMeta id patch) }
  | .notice id now message => { h with store := h.store.step (.append id now (.notice message)) }
  | .userQueue id notes text =>
    let l := h.sessions id
    h.setLive id { l with
      pump := l.pump ++ Queued.sent notes text
      underWay := l.underWay ++ [agentText notes text] }
  | .userTaken id i own =>
    let l := h.sessions id
    match l.underWay[i]? with
    | some text => h.setLive id ({ l with underWay := l.underWay.eraseIdx i }.take text .user own)
    | none => h
  | .userFailed id i =>
    let l := h.sessions id
    h.setLive id { l with underWay := l.underWay.eraseIdx i }
  | .say id event hsaid =>
    let l := h.sessions id
    h.setLive id { l with pump := l.pump ++ [.said event hsaid] }
  | .turnEnd id outcome =>
    let l := h.sessions id
    match l.turn with
    | some source =>
      h.setLive id { l with turn := none, pump := l.pump ++ [.ended outcome source] }
    | none => h
  | .nextTurn id =>
    let l := h.sessions id
    match l.turn, l.backlog with
    | none, source :: backlog => h.setLive id { l with turn := some source, backlog }
    | _, _ => h
  | .pump id now =>
    let l := h.sessions id
    match l.pump with
    | q :: pump =>
      let h := h.setLive id { l with pump }
      if h.dropped id q.event then h
      else { h with store := h.store.step (.append id now q.event) }
    | [] => h
  | .watch ev =>
    if ev.event.isTurnEnded && (h.awaiting ev.sessionId).any (ev.seq > ·) then
      h.setAwaiting ev.sessionId none
    else h
  | .flush id step => h.flush id step

end Hub

/-- A server that has just started: some database, nothing queued and nobody at work. -/
def Hub.start (history : List StoreOp) : Hub :=
  ⟨.ofHistory history, ⟨[]⟩, fun _ ↦ none, fun _ ↦ .quiet⟩

/-- An action the parties can take: `watch_turns` is pushed what is stored. -/
def Hub.Enabled (h : Hub) : Action → Prop
  | .watch ev => ev ∈ h.store.stored ev.sessionId
  | _ => True

/-- The server with its agents, from any database. -/
def Hub.system : StepSystem Hub Action where
  init h := ∃ history, h = .start history
  step h a h' := h.Enabled a ∧ h' = h.step a

end Ember.Server
