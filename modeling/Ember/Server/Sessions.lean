import Mathlib.Data.List.Infix
import Ember.Foundation.Runs
import Ember.Server.Events

/-!
# Messages and answers to a running agent

`Sessions::send` and `Sessions::answer` put their event in the channel of the session's pump before
they ask the agent to act, so the event is stored whether or not the agent does. Only some agents
make up for a failed message with the end of a turn, and none takes an answer back.

One process of a session is modelled, with the channel into its pump, which stores what it takes in
order. A call has looked the process up before it puts its event in the channel, and asks the agent
some time after that; what happens in between, an answer, a message or the end of the process, is
up to the run.
-/

namespace Ember.Server

/-! ### The agents -/

/-- What reading from and writing to an agent's process comes to. -/
structure Io where
  /-- A line to the standard input. -/
  write : Except String Unit
  /-- `turn/steer`. -/
  steer : Except String Unit
  /-- `turn/start`, and the id of the turn that was started. -/
  start : Except String (Option String)

/-- `ClaudeRun`, and the task that reads its standard output. -/
structure ClaudeRun where
  /-- The standard input is not closed. -/
  stdin : Bool
  /-- Pending approvals and their tools. -/
  pending : List (String × String)
  alwaysAllowed : List String
  turnActive : Bool
  interruptRequested : Bool
  shuttingDown : Bool
  /-- `read_stdout` has returned. -/
  readerDone : Bool

/-- `CodexRun`: the turn and the approvals of its mapper. -/
structure CodexRun where
  turnId : Option String
  lastFinishedTurn : Option String
  approvals : List String

/-- `AcpRun`. -/
structure AcpRun where
  prependInstructions : Option String
  /-- `prompt_loop` still takes prompts. -/
  promptLoop : Bool
  prompts : List String
  approvals : List String

/-- `AgyRun`: a turn's process runs, and the hook calls that wait for the user. -/
structure AgyRun where
  active : Bool
  pending : List String

/-- `ScriptedRun`. -/
structure ScriptedRun where
  /-- The approval that is asked for, and the message that waits on it. -/
  pending : Option (String × String)
  turn : ℕ

/-- The agents behind `AgentRun`. -/
inductive AgentRun
  | claude (s : ClaudeRun)
  | codex (s : CodexRun)
  | acp (s : AcpRun)
  | antigravity (s : AgyRun)
  | scripted (s : ScriptedRun)

/-- What a call of an agent returns, the events it puts in the channel before that, and the agent
after it. -/
structure Called (α : Type) where
  result : Except String Unit
  events : List AgentEvent
  run : α

/-- The agent after a call, seen as one of the agents. -/
def Called.map {α β : Type} (c : Called α) (f : α → β) : Called β := ⟨c.result, c.events, f c.run⟩

/-- `write_line`. -/
def ClaudeRun.writeLine (s : ClaudeRun) (io : Io) : Except String Unit :=
  if s.stdin then io.write else .error "claude stdin is closed"

/-- `ClaudeRun::send`. -/
def ClaudeRun.send (s : ClaudeRun) (io : Io) : Called ClaudeRun :=
  let s := { s with turnActive := true, interruptRequested := false }
  ⟨s.writeLine io, [], s⟩

/-- `ClaudeRun::answer`. -/
def ClaudeRun.answer (s : ClaudeRun) (io : Io) (approvalId : String) (decision : ApprovalDecision) :
    Called ClaudeRun :=
  match s.pending.find? (·.1 == approvalId) with
  | none => ⟨.error ("unknown approval " ++ approvalId), [], s⟩
  | some (_, tool) =>
    let s := { s with
      pending := s.pending.filter (·.1 != approvalId)
      alwaysAllowed := if decision = .allowAlways then tool :: s.alwaysAllowed
        else s.alwaysAllowed }
    ⟨s.writeLine io, [], s⟩

/-- `turn_accepted`. -/
def CodexRun.turnAccepted (s : CodexRun) (turnId : String) : CodexRun :=
  if s.turnId = none ∧ s.lastFinishedTurn ≠ some turnId then { s with turnId := some turnId } else s

/-- `CodexRun::send`. A turn that ended while it was to be steered is started anew. -/
def CodexRun.send (s : CodexRun) (io : Io) : Called CodexRun :=
  let started : Called CodexRun :=
    match io.start with
    | .ok (some turnId) => ⟨.ok (), [], s.turnAccepted turnId⟩
    | .ok none => ⟨.ok (), [], s⟩
    | .error e => ⟨.error e, [.error e, .turnEnded .failed], s⟩
  match s.turnId, io.steer with
  | some _, .ok _ => ⟨.ok (), [], s⟩
  | _, _ => started

/-- `CodexRun::answer`. -/
def CodexRun.answer (s : CodexRun) (io : Io) (approvalId : String) : Called CodexRun :=
  if approvalId ∈ s.approvals then
    ⟨io.write, [], { s with approvals := s.approvals.filter (· != approvalId) }⟩
  else ⟨.error ("unknown approval " ++ approvalId), [], s⟩

/-- `AcpRun::send`. -/
def AcpRun.send (s : AcpRun) (text : String) : Called AcpRun :=
  let text := match s.prependInstructions with
    | some instructions => instructions ++ "\n\n" ++ text
    | none => text
  let s := { s with prependInstructions := none }
  if s.promptLoop then ⟨.ok (), [], { s with prompts := s.prompts ++ [text] }⟩
  else ⟨.error "the ACP agent has exited", [], s⟩

/-- `AcpRun::answer`: an answer that cannot be written is not reported. -/
def AcpRun.answer (s : AcpRun) (approvalId : String) : Called AcpRun :=
  if approvalId ∈ s.approvals then
    ⟨.ok (), [], { s with approvals := s.approvals.filter (· != approvalId) }⟩
  else ⟨.error ("unknown approval " ++ approvalId), [], s⟩

/-- `AgyRun::send`, from the check that no turn runs: a turn that cannot start, `failed`, ends. -/
def AgyRun.send (s : AgyRun) (failed : Option String) : Called AgyRun :=
  if s.active then ⟨.error "a turn is already running", [], s⟩
  else
    match failed with
    | some message => ⟨.ok (), [.error message, .turnEnded .failed], s⟩
    | none => ⟨.ok (), [], { s with active := true }⟩

/-- `AgyRun::answer`. -/
def AgyRun.answer (s : AgyRun) (approvalId : String) : Called AgyRun :=
  if approvalId ∈ s.pending then
    ⟨.ok (), [], { s with pending := s.pending.filter (· != approvalId) }⟩
  else ⟨.error ("unknown approval " ++ approvalId), [], s⟩

/-- What a scripted turn runs. -/
def scriptedInput : Value := .obj [("command", .str "echo hi")]

/-- `ScriptedRun::send`. -/
def ScriptedRun.send (s : ScriptedRun) (text : String) : Called ScriptedRun :=
  let s := { s with turn := s.turn + 1 }
  if "slow".toList <:+: text.toList then ⟨.ok (), [], s⟩
  else
    let approvalId := "approval-" ++ toString s.turn
    ⟨.ok (), [.toolCall ("call-" ++ toString s.turn) "Bash" scriptedInput,
      .approvalRequested approvalId "Bash" scriptedInput],
      { s with pending := some (approvalId, text) }⟩

/-- `ScriptedRun::answer`: a wrong id takes the pending message with it. -/
def ScriptedRun.answer (s : ScriptedRun) (approvalId : String) (decision : ApprovalDecision) :
    Called ScriptedRun :=
  match s.pending with
  | none => ⟨.error "no pending approval", [], s⟩
  | some (id, text) =>
    let callId := "call-" ++ toString s.turn
    let s := { s with pending := none }
    if id = approvalId then
      ⟨.ok (), [.toolResult callId (if decision = .deny then "denied" else "hi")
        (decision = .deny), .assistantMessage ("echo: " ++ text), .usage 10 5,
        .turnEnded .completed], s⟩
    else ⟨.error ("unknown approval " ++ approvalId), [], s⟩

namespace AgentRun

/-- `AgentRun::send`. -/
def send (r : AgentRun) (io : Io) (text : String) : Called AgentRun :=
  match r with
  | .claude s => (s.send io).map .claude
  | .codex s => (s.send io).map .codex
  | .acp s => (s.send text).map .acp
  | .antigravity s =>
    (s.send (match io.write with
      | .ok _ => none
      | .error e => some e)).map .antigravity
  | .scripted s => (s.send text).map .scripted

/-- `AgentRun::answer`. -/
def answer (r : AgentRun) (io : Io) (approvalId : String) (decision : ApprovalDecision) :
    Called AgentRun :=
  match r with
  | .claude s => (s.answer io approvalId decision).map .claude
  | .codex s => (s.answer io approvalId).map .codex
  | .acp s => (s.answer approvalId).map .acp
  | .antigravity s => (s.answer approvalId).map .antigravity
  | .scripted s => (s.answer approvalId decision).map .scripted

/-- `AgentRun::interrupt`, as far as it changes what the reader of Claude Code says later. -/
def interrupt : AgentRun → AgentRun
  | .claude s => .claude (if s.turnActive then { s with interruptRequested := true } else s)
  | r => r

/-- `AgentRun::shutdown`. The loop of an ACP agent ends after the turn it is in. -/
def shutdown : AgentRun → AgentRun
  | .claude s => .claude { s with shuttingDown := true, stdin := false }
  | .acp s => .acp { s with promptLoop := false }
  | r => r

end AgentRun

/-! ### What an agent's own tasks do -/

/-- `Parsed`: a line that Claude Code printed. -/
inductive ClaudeLine
  | event (e : AgentEvent)
  | permissionRequest (requestId tool : String) (input : Value)
  | cancelRequest (requestId : String)
  | unsupportedRequest
  | turnEnd (error : Option String)

/-- One line in `read_stdout`. -/
def ClaudeRun.readLine (s : ClaudeRun) : ClaudeLine → List AgentEvent × ClaudeRun
  | .event e => ([e], s)
  | .permissionRequest requestId tool input =>
    if tool ∈ s.alwaysAllowed then ([], s)
    else ([.approvalRequested requestId tool input],
      { s with pending := (requestId, tool) :: s.pending.filter (·.1 != requestId) })
  | .cancelRequest requestId => ([], { s with pending := s.pending.filter (·.1 != requestId) })
  | .unsupportedRequest => ([], s)
  | .turnEnd error =>
    let ended := { s with interruptRequested := false, turnActive := false, pending := [] }
    if s.interruptRequested then ([.turnEnded .interrupted], ended)
    else
      match error with
      | some message => ([.error message, .turnEnded .failed], ended)
      | none => ([.turnEnded .completed], ended)

/-- The end of `read_stdout`: a turn cut short by anything but a shutdown is reported. -/
def ClaudeRun.eof (s : ClaudeRun) : List AgentEvent × ClaudeRun :=
  let ended := { s with readerDone := true }
  if s.turnActive && !s.shuttingDown then
    if s.interruptRequested then ([.turnEnded .interrupted], ended)
    else ([.error "claude exited during a turn", .turnEnded .failed], ended)
  else ([], ended)

/-! ### One process and the calls on it -/

/-- `LiveRun`, with the calls that have put their event in the channel and have yet to ask the
agent, and what is kept of those that failed. -/
structure LiveRun where
  run : AgentRun
  /-- What was put in the channel; the pump stores it in this order. -/
  log : List AgentEvent
  /-- Messages: where in the log they stand, and what the agent is to read. -/
  sends : List (ℕ × String)
  answers : List (String × ApprovalDecision)
  /-- Where the messages stand whose `send` returned an error. -/
  failedSends : List ℕ
  /-- The approvals whose `answer` returned an error. -/
  failedAnswers : List String

variable {r : AgentRun} {io : Io} {s : ClaudeRun}

namespace LiveRun

/-- A process that was just started. -/
def new (run : AgentRun) : LiveRun := ⟨run, [], [], [], [], []⟩

/-- The text for the agent: the notes, then the user's words. -/
def agentText (notes : List String) (text : String) : String :=
  if notes.isEmpty then text else "\n\n".intercalate notes ++ "\n\n" ++ text

/-- What can happen around a process. -/
inductive Op
  /-- A `send` that fails before the message is in the channel: there is no agent, or the channel is
  closed. Some of the notes may be in it. -/
  | sendRefused (notes : List String)
  /-- `send` puts the notes and the message in the channel. -/
  | queueMessage (notes : List String) (text : String)
  /-- The `send` in this place asks the agent. -/
  | callSend (i : ℕ) (io : Io)
  /-- `answer` puts the decision in the channel. -/
  | queueAnswer (approvalId : String) (decision : ApprovalDecision)
  /-- The `answer` in this place asks the agent. -/
  | callAnswer (i : ℕ) (io : Io)
  | interrupt
  /-- `release`. -/
  | shutdown
  /-- Claude Code prints a line. -/
  | claudeLine (line : ClaudeLine)
  /-- Claude Code closes its output. -/
  | claudeEof
  /-- Another agent's tasks put events in the channel and change the agent. -/
  | tasks (out : List AgentEvent) (next : AgentRun)

/-- The agent's own events. -/
def emit (w : LiveRun) (out : List AgentEvent) (run : AgentRun) : LiveRun :=
  { w with log := w.log ++ out, run := run }

/-- The agent of another state: one whose tasks are not modelled line by line. -/
def sameTasks : AgentRun → AgentRun → Bool
  | .codex _, .codex _ => true
  | .acp _, .acp _ => true
  | .antigravity _, .antigravity _ => true
  | .scripted _, .scripted _ => true
  | _, _ => false

/-- One operation. -/
def step (w : LiveRun) : Op → LiveRun
  | .sendRefused notes => w.emit (notes.map .systemNotice) w.run
  | .queueMessage notes text =>
    { w with
      log := w.log ++ notes.map .systemNotice ++ [.userMessage text]
      sends := w.sends ++ [(w.log.length + notes.length, agentText notes text)] }
  | .callSend i io =>
    match w.sends[i]? with
    | none => w
    | some (p, text) =>
      let called := w.run.send io text
      let w := { w.emit called.events called.run with sends := w.sends.eraseIdx i }
      match called.result with
      | .ok _ => w
      | .error _ => { w with failedSends := p :: w.failedSends }
  | .queueAnswer approvalId decision =>
    { w with
      log := w.log ++ [.approvalResolved approvalId decision]
      answers := w.answers ++ [(approvalId, decision)] }
  | .callAnswer i io =>
    match w.answers[i]? with
    | none => w
    | some (approvalId, decision) =>
      let called := w.run.answer io approvalId decision
      let w := { w.emit called.events called.run with answers := w.answers.eraseIdx i }
      match called.result with
      | .ok _ => w
      | .error _ => { w with failedAnswers := approvalId :: w.failedAnswers }
  | .interrupt => { w with run := w.run.interrupt }
  | .shutdown => { w with run := w.run.shutdown }
  | .claudeLine line =>
    match w.run with
    | .claude s =>
      if s.readerDone then w else w.emit (s.readLine line).1 (.claude (s.readLine line).2)
    | _ => w
  | .claudeEof =>
    match w.run with
    | .claude s => if s.readerDone then w else w.emit s.eof.1 (.claude s.eof.2)
    | _ => w
  | .tasks out next => if sameTasks w.run next then w.emit out next else w

/-- The runs of a process. -/
def system : StepSystem LiveRun Op where
  init w := ∃ run, w = new run
  step w op w' := w' = w.step op

/-- `TurnEnded`. -/
def isTurnEnded : AgentEvent → Bool
  | .turnEnded _ => true
  | _ => false

/-- The end of a turn is stored after the message in this place. -/
def Ended (log : List AgentEvent) (p : ℕ) : Prop := (log.drop (p + 1)).any isTurnEnded = true

instance (log : List AgentEvent) (p : ℕ) : Decidable (Ended log p) :=
  inferInstanceAs (Decidable (_ = true))

/-- The agent's tasks still have the end of a turn to report: Claude Code is in a turn, its output
is read, and it was not told to exit. -/
def Owes : AgentRun → Bool
  | .claude s => s.turnActive && !s.shuttingDown && !s.readerDone
  | _ => false

/-- A failed message is followed by the end of a turn, or will be by the agent's tasks, and a failed
answer leaves nothing behind. -/
structure MadeUp (w : LiveRun) : Prop where
  ended : ∀ p ∈ w.failedSends, Ended w.log p ∨ Owes w.run = true
  failedAnswers : w.failedAnswers = []

/-- The agent takes a message, or ends the turn if it does not. -/
def SendSafe (io : Io) : AgentRun → Prop
  | .claude s => s.stdin = true ∧ io.write = .ok () ∨ s.readerDone = false ∧ s.shuttingDown = false
  | .codex _ => True
  | .acp s => s.promptLoop = true
  | .antigravity s => s.active = false
  | .scripted _ => True

/-- The agent takes an answer: it waits for this approval, and can be written to. -/
def AnswerSafe (io : Io) (approvalId : String) : AgentRun → Prop
  | .claude s => approvalId ∈ s.pending.map Prod.fst ∧ s.stdin = true ∧ io.write = .ok ()
  | .codex s => approvalId ∈ s.approvals ∧ io.write = .ok ()
  | .acp s => approvalId ∈ s.approvals
  | .antigravity s => approvalId ∈ s.pending
  | .scripted s => s.pending.map Prod.fst = some approvalId

/-- Messages and answers reach agents that take them, and no agent is told to exit while it owes the
end of a turn to a message that failed. -/
def Kept (w : LiveRun) : Op → Prop
  | .callSend i io => i < w.sends.length → SendSafe io w.run
  | .callAnswer i io =>
    ∀ approvalId decision, w.answers[i]? = some (approvalId, decision) →
      AnswerSafe io approvalId w.run
  | .shutdown => ∀ p ∈ w.failedSends, Ended w.log p
  | _ => True

/-! ### What one operation preserves -/

theorem Ended.append {log : List AgentEvent} {p : ℕ} (h : Ended log p) (hp : p < log.length)
    (out : List AgentEvent) : Ended (log ++ out) p := by
  rw [Ended, List.drop_append_of_le_length hp, List.any_append, Bool.or_eq_true]
  exact .inl h

theorem ended_append {log out : List AgentEvent} {p : ℕ} (hp : p < log.length)
    (hout : out.any isTurnEnded = true) : Ended (log ++ out) p := by
  rw [Ended, List.drop_append_of_le_length hp, List.any_append, Bool.or_eq_true]
  exact .inr hout

/-- The events and the agent after them end the turn, or still owe its end. -/
def EndsOrOwes (out : List AgentEvent) (run : AgentRun) : Prop :=
  out.any isTurnEnded = true ∨ Owes run = true

theorem send_owes (h : Owes r = true) (io : Io) (text : String) :
    EndsOrOwes (r.send io text).events (r.send io text).run := by
  cases r with
  | claude s =>
    right
    simp only [Owes, Bool.and_eq_true] at h
    show (true && !s.shuttingDown && !s.readerDone) = true
    rw [h.1.2, h.2]
    rfl
  | codex | acp | antigravity | scripted => exact absurd h Bool.false_ne_true

/-- An agent that is safe to send to makes up for a message it does not take. -/
theorem send_error {text e : String} (hsafe : SendSafe io r)
    (h : (r.send io text).result = .error e) :
    EndsOrOwes (r.send io text).events (r.send io text).run := by
  cases r with
  | claude s =>
    rcases hsafe with ⟨hstdin, hwrite⟩ | ⟨hreader, hshut⟩
    · have hok : (AgentRun.send (.claude s) io text).result = .ok () := by
        show (if s.stdin = true then io.write else _) = _
        rw [if_pos hstdin, hwrite]
      rw [hok] at h
      cases h
    · right
      show (true && !s.shuttingDown && !s.readerDone) = true
      rw [hshut, hreader]
      rfl
  | codex s =>
    left
    have hstart : ∀ started : Called CodexRun, started = (match io.start with
        | .ok (some turnId) => ⟨.ok (), [], s.turnAccepted turnId⟩
        | .ok none => ⟨.ok (), [], s⟩
        | .error e => ⟨.error e, [.error e, .turnEnded .failed], s⟩) →
        started.result = .error e → started.events.any isTurnEnded = true := by
      rintro started rfl hres
      revert hres
      cases io.start with
      | error e => exact fun _ ↦ rfl
      | ok turnId => cases turnId <;> exact fun hres ↦ nomatch hres
    revert h
    show (s.send io).result = _ → (s.send io).events.any isTurnEnded = true
    unfold CodexRun.send
    dsimp only
    split
    · exact fun hres ↦ nomatch hres
    · exact hstart _ rfl
  | acp s =>
    have hloop : s.promptLoop = true := hsafe
    revert h
    show (s.send text).result = _ → _
    rw [AcpRun.send]
    dsimp only
    rw [if_pos hloop]
    exact fun hres ↦ nomatch hres
  | antigravity s =>
    have hok : ∀ failed, (s.send failed).result = .ok () := fun failed ↦ by
      unfold AgyRun.send
      rw [if_neg (by rw [show s.active = false from hsafe]; exact Bool.false_ne_true)]
      cases failed <;> rfl
    exact absurd ((hok _).symm.trans h) (fun hres ↦ nomatch hres)
  | scripted s =>
    revert h
    show (s.send text).result = _ → _
    rw [ScriptedRun.send]
    dsimp only
    split <;> exact fun hres ↦ nomatch hres

theorem answer_owes (h : Owes r = true) (io : Io) (approvalId : String)
    (decision : ApprovalDecision) : Owes (r.answer io approvalId decision).run = true := by
  cases r with
  | claude s =>
    show Owes (.claude (s.answer io approvalId decision).run) = true
    unfold ClaudeRun.answer
    split
    · exact h
    · exact h
  | codex | acp | antigravity | scripted => exact absurd h Bool.false_ne_true

/-- An agent that waits for the approval takes the answer. -/
theorem answer_ok {approvalId : String} (decision : ApprovalDecision)
    (hsafe : AnswerSafe io approvalId r) :
    (r.answer io approvalId decision).result = .ok () := by
  cases r with
  | claude s =>
    obtain ⟨hmem, hstdin, hwrite⟩ := hsafe
    show (s.answer io approvalId decision).result = _
    rw [ClaudeRun.answer]
    split
    · next hnone =>
      obtain ⟨e, he, heq⟩ := List.mem_map.1 hmem
      exact absurd (beq_iff_eq.2 heq) (List.find?_eq_none.1 hnone e he)
    · show (if s.stdin = true then io.write else _) = _
      rw [if_pos hstdin, hwrite]
  | codex s =>
    show (s.answer io approvalId).result = _
    rw [CodexRun.answer, if_pos hsafe.1]
    exact hsafe.2
  | acp s =>
    show (s.answer approvalId).result = _
    rw [AcpRun.answer, if_pos (show approvalId ∈ s.approvals from hsafe)]
  | antigravity s =>
    show (s.answer approvalId).result = _
    rw [AgyRun.answer, if_pos (show approvalId ∈ s.pending from hsafe)]
  | scripted s =>
    obtain ⟨⟨id, text⟩, hpending, rfl⟩ := Option.map_eq_some_iff.1 hsafe
    show (s.answer id decision).result = _
    rw [ScriptedRun.answer, hpending]
    dsimp only
    rw [if_pos rfl]

theorem interrupt_owes (h : Owes r = true) : Owes r.interrupt = true := by
  cases r with
  | claude s =>
    show Owes (.claude (if s.turnActive = true then _ else s)) = true
    split
    · exact h
    · exact h
  | codex | acp | antigravity | scripted => exact h

theorem owes_of_sameTasks {next : AgentRun} (h : sameTasks r next = true) : Owes r = false := by
  cases r with
  | claude s => exact absurd h Bool.false_ne_true
  | codex | acp | antigravity | scripted => rfl

theorem readLine_owes (h : Owes (.claude s) = true) (line : ClaudeLine) :
    EndsOrOwes (s.readLine line).1 (.claude (s.readLine line).2) := by
  cases line with
  | event | cancelRequest | unsupportedRequest => exact .inr h
  | permissionRequest requestId tool input =>
    rw [ClaudeRun.readLine]
    split
    · exact .inr h
    · exact .inr h
  | turnEnd error =>
    left
    unfold ClaudeRun.readLine
    dsimp only
    split
    · rfl
    · cases error <;> rfl

theorem eof_owes (h : Owes (.claude s) = true) :
    s.eof.1.any isTurnEnded = true := by
  rw [Owes, Bool.and_eq_true] at h
  rw [ClaudeRun.eof, if_pos h.1]
  split <;> rfl

/-- What every state of a run keeps. -/
structure Inv (w : LiveRun) : Prop where
  sends_lt : ∀ e ∈ w.sends, e.1 < w.log.length
  failed_lt : ∀ p ∈ w.failedSends, p < w.log.length
  madeUp : w.MadeUp

variable {w : LiveRun}

/-- The agent's own events, when they end the turn or leave it owed. -/
theorem Inv.emit (h : w.Inv) (out : List AgentEvent) {run : AgentRun}
    (howes : Owes w.run = true → EndsOrOwes out run) : (w.emit out run).Inv where
  sends_lt e he := by
    show e.1 < (w.log ++ out).length
    rw [List.length_append]
    exact Nat.lt_add_right _ (h.sends_lt e he)
  failed_lt p hp := by
    show p < (w.log ++ out).length
    rw [List.length_append]
    exact Nat.lt_add_right _ (h.failed_lt p hp)
  madeUp := by
    refine ⟨fun p hp ↦ ?_, h.madeUp.failedAnswers⟩
    rcases h.madeUp.ended p hp with hended | howed
    · exact .inl (hended.append (h.failed_lt p hp) out)
    · exact (howes howed).imp (ended_append (h.failed_lt p hp)) id

/-- Calls that go on, with what the channel takes. -/
theorem Inv.queue (h : w.Inv) (out : List AgentEvent) {sends : List (ℕ × String)}
    (answers : List (String × ApprovalDecision))
    (hsends : ∀ e ∈ sends, e ∈ w.sends ∨ e.1 < (w.log ++ out).length) :
    Inv { w with log := w.log ++ out, sends := sends, answers := answers } := by
  have hemit : Inv (w.emit out w.run) := h.emit out .inr
  exact ⟨fun e he ↦ (hsends e he).elim (hemit.sends_lt e) id, hemit.failed_lt,
    hemit.madeUp.ended, hemit.madeUp.failedAnswers⟩

theorem Inv.callSend (h : w.Inv) {i : ℕ} (hk : w.Kept (.callSend i io)) :
    (w.step (.callSend i io)).Inv := by
  rw [step]
  cases hi : w.sends[i]? with
  | none => exact h
  | some e =>
    obtain ⟨p, text⟩ := e
    obtain ⟨hlt, hget⟩ := List.getElem?_eq_some_iff.1 hi
    have hp : p < w.log.length := h.sends_lt (p, text) (hget ▸ List.getElem_mem hlt)
    have hemit := h.emit (w.run.send io text).events fun howes ↦ send_owes howes io text
    have hsends : ∀ e ∈ w.sends.eraseIdx i, e ∈ w.sends := fun e he ↦
      (List.eraseIdx_sublist ..).subset he
    dsimp only
    cases hres : (w.run.send io text).result with
    | ok _ =>
      exact ⟨fun e he ↦ hemit.sends_lt e (hsends e he), hemit.failed_lt, hemit.madeUp.ended,
        hemit.madeUp.failedAnswers⟩
    | error _ =>
      have hown := send_error (hk hlt) hres
      refine ⟨fun e he ↦ hemit.sends_lt e (hsends e he), ?_, ?_, hemit.madeUp.failedAnswers⟩
      · refine List.forall_mem_cons.2 ⟨?_, hemit.failed_lt⟩
        show p < (w.log ++ _).length
        rw [List.length_append]
        exact Nat.lt_add_right _ hp
      · exact List.forall_mem_cons.2 ⟨hown.imp (ended_append hp) id, hemit.madeUp.ended⟩

theorem Inv.callAnswer (h : w.Inv) {i : ℕ} (hk : w.Kept (.callAnswer i io)) :
    (w.step (.callAnswer i io)).Inv := by
  rw [step]
  cases hi : w.answers[i]? with
  | none => exact h
  | some e =>
    obtain ⟨approvalId, decision⟩ := e
    have hemit := h.emit (w.run.answer io approvalId decision).events fun howes ↦
      .inr (answer_owes howes io approvalId decision)
    dsimp only
    rw [answer_ok decision (hk approvalId decision hi)]
    exact ⟨hemit.sends_lt, hemit.failed_lt, hemit.madeUp.ended, hemit.madeUp.failedAnswers⟩

/-- **One operation** leaves every failed message made up for. -/
theorem Inv.step (h : w.Inv) {op : Op} (hk : w.Kept op) : (w.step op).Inv := by
  have hother : ∀ {out : List AgentEvent} {next : AgentRun}, Owes w.run = false →
      (w.emit out next).Inv := fun hnot ↦
    h.emit _ fun howes ↦ absurd (hnot.symm.trans howes) Bool.false_ne_true
  cases op with
  | sendRefused notes => exact h.emit _ .inr
  | queueMessage notes text =>
    rw [LiveRun.step, List.append_assoc]
    refine h.queue _ w.answers fun e he ↦ ?_
    rcases List.mem_append.1 he with he | he
    · exact .inl he
    · right
      rw [List.mem_singleton.1 he]
      simp only [List.length_append, List.length_map, List.length_singleton]
      omega
  | callSend i io => exact h.callSend hk
  | queueAnswer approvalId decision => exact h.queue _ _ fun e he ↦ .inl he
  | callAnswer i io => exact h.callAnswer hk
  | interrupt =>
    exact ⟨h.sends_lt, h.failed_lt, fun p hp ↦ (h.madeUp.ended p hp).imp id interrupt_owes,
      h.madeUp.failedAnswers⟩
  | shutdown =>
    exact ⟨h.sends_lt, h.failed_lt, fun p hp ↦ .inl (hk p hp), h.madeUp.failedAnswers⟩
  | claudeLine line =>
    rw [LiveRun.step]
    split
    · next s hs =>
      split
      · exact h
      · exact h.emit _ fun howes ↦ readLine_owes (hs ▸ howes) line
    · exact h
  | claudeEof =>
    rw [LiveRun.step]
    split
    · next s hs =>
      split
      · exact h
      · exact h.emit _ fun howes ↦ .inl (eof_owes (hs ▸ howes))
    · exact h
  | tasks out next =>
    rw [LiveRun.step]
    split
    · next hsame => exact hother (owes_of_sameTasks hsame)
    · exact h

/-- **Failed messages and answers.** In a run in which messages and answers reach agents that take
them, and no agent is told to exit that owes the end of a turn, a message whose `send` failed is
followed by the end of a turn, or Claude Code's reader still has it to report; and no failed answer
leaves its resolution behind. -/
theorem madeUp_of_kept (h : (system.restrict Kept).Reachable w) : w.MadeUp := by
  have hinv : w.Inv := by
    refine h.invariant (fun w hw ↦ ?_) fun w op w' _ hw hstep ↦ ?_
    · obtain ⟨run, rfl⟩ := hw
      exact ⟨fun e he ↦ absurd he List.not_mem_nil, fun p hp ↦ absurd hp List.not_mem_nil,
        fun p hp ↦ absurd hp List.not_mem_nil, rfl⟩
    · rw [show w' = w.step op from hstep.2]
      exact hw.step hstep.1
  exact hinv.madeUp

/-- Claude Code, just started. -/
def freshClaude : AgentRun := .claude ⟨true, [], [], false, false, false, false⟩

/-- A message that Claude Code cannot take while it exits: the reader ends the turn. -/
theorem madeUp_of_kept_exit :
    ((((new freshClaude).step (.queueMessage [] "hi")).step
      (.callSend 0 ⟨.error "Broken pipe", .ok (), .ok none⟩)).step .claudeEof).MadeUp :=
  madeUp_of_kept
    (.next .claudeEof
      (.next (.callSend 0 ⟨.error "Broken pipe", .ok (), .ok none⟩)
        (.next (.queueMessage [] "hi") (.start ⟨freshClaude, rfl⟩) ⟨trivial, rfl⟩)
        ⟨fun _ ↦ Or.inr ⟨rfl, rfl⟩, rfl⟩)
      ⟨trivial, rfl⟩)

/-- Claude Code exits between two turns. The next message fails, is stored, and nothing ends the
turn it began. -/
theorem not_madeUp : ¬ ∀ w, system.Reachable w → w.MadeUp := by
  intro h
  have hmade := h _ (.next (.callSend 0 ⟨.error "Broken pipe", .ok (), .ok none⟩)
    (.next (.queueMessage [] "hi") (.next .claudeEof (.start ⟨freshClaude, rfl⟩) rfl) rfl) rfl)
  rcases hmade.ended 0 List.mem_cons_self with hended | howes
  · exact absurd hended (by decide)
  · exact absurd howes (by decide)

end LiveRun

end Ember.Server
