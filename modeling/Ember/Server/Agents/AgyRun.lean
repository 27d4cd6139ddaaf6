import Ember.Server.Agents.Antigravity

/-!
# A second message to an Antigravity run

`server/src/agents/antigravity.rs`: every turn of a run is a process of its own, read by a task of
its own (`Turn::run`). `AgyRun::send` first waits for the task of the turn before, kills the process
when the grace period passes, and only then asks whether a turn is active. Whoever calls `send`,
`answer`, `interrupt` or `shutdown` holds the run's lock meanwhile (`session.rs`), unless the call
is dropped, as when the client that made the request goes away.

A `Label` is one step of the holder of the lock, of a turn's task, of a hook call or of a timer.
What agy prints, when its processes exit and how long anything takes is up to the labels.

## What is proved

* `undisturbed_iff` — in every run: a message to an active turn is refused at once, and nothing else
  is different from then on, exactly if `turn_task` is not kept or has returned. So the question
  whether a turn is active protects a turn only after an earlier `send` was dropped while it waited
  for it, or once nobody reads the events.
-/

namespace Ember.Server.Antigravity

/-- `Signal`. -/
inductive Signal
  | int
  | kill
  deriving DecidableEq

/-- `Parsed`: one translated stdout line. -/
inductive Parsed
  | event (e : AgentEvent)
  /-- `result`: the turn ended, with an error unless agy reported success. -/
  | turnEnd (error : Option String)

/-- `policy_for_version`. -/
def policyForVersion (version : Option String) : Policy :=
  if version = some pinnedVersion then .gated else .readOnly

/-- `AntigravityAdapter::turn_args`. -/
def turnArgs (prompt : String) (conversation model : Option String) (root : String)
    (policy : Policy) (sandbox : Bool) : List String :=
  let prompt := if prompt.startsWith "-" then " " ++ prompt else prompt
  ["-p", prompt, "--output-format", "stream-json", "--add-dir", root] ++
    (if sandbox then ["--sandbox"] else []) ++
    (if policy = .gated then ["--dangerously-skip-permissions"] else []) ++
    (conversation.toList.map ("--conversation=" ++ ·)) ++
    (model.toList.flatMap fun m ↦ ["--model", m])

/-- `TurnState`. -/
structure TurnState where
  /-- A turn's process is running and its end has not been sent. -/
  active : Bool
  /-- Bumped per turn. -/
  seq : ℕ
  pid : Option ℕ
  interrupted : Bool
  shuttingDown : Bool
  nativeId : Option String

/-- What the task of a turn has to do before it reads on. -/
inductive Act
  /-- Send what was parsed, and give up if nobody takes it. -/
  | event (e : AgentEvent)
  /-- `finish`, up to its first await. -/
  | finish (error : Option String)
  /-- `close`, first lock. -/
  | shut
  /-- The rest of `close`. -/
  | cancelAll
  /-- Send, whether anybody takes it or not. -/
  | tell (e : AgentEvent)

/-- What the task of a turn does about a parsed part of a line. -/
def Parsed.act : Parsed → Act
  | .event e => .event e
  | .turnEnd error => .finish error

/-- The line holds the turn's end. -/
def Parsed.isEnd : Parsed → Bool
  | .event _ => false
  | .turnEnd _ => true

/-- `Turn`: the task that reads a turn's process. -/
structure Turn where
  pid : ℕ
  todo : List Act
  /-- A `result` was read. -/
  ended : Bool
  /-- The process has exited. -/
  exited : Bool
  /-- The task has returned. -/
  returned : Bool

/-- Who holds the run's lock, and how far the call is. -/
inductive Op
  /-- `send` waits for the task of the turn before. -/
  | waiting (text : String) (prev : ℕ)
  /-- The same, after the grace period. -/
  | reaping (text : String) (prev : ℕ)
  /-- `check_version`. -/
  | versioning (text : String)
  /-- `check_hook`. -/
  | checking (text : String) (policy : Policy)
  /-- About to start the process. -/
  | launching (text : String) (policy : Policy)
  /-- The process did not start; between the locks of `close`. -/
  | unlaunched (message : String)
  /-- `fail`, with these events left to send. -/
  | failing (events : List AgentEvent)
  /-- `interrupt`, between the locks of `close`. -/
  | stopping (pid : Option ℕ) (seq : ℕ)
  /-- `shutdown` waits for the task. -/
  | ending (prev : ℕ) (pid : Option ℕ)
  /-- The same, after the grace period. -/
  | endingKilled (prev : ℕ)

/-- What `send` returned. -/
inductive Reply
  | ok
  | err (message : String)
  deriving DecidableEq

/-- `AgyRun`, with its turns and what it did so far. -/
structure AgyRun where
  bin : String
  root : String
  sandbox : Bool
  model : Option String
  /-- The conversation the run resumes. -/
  resume : Option String
  approvals : RunApprovals
  turn : TurnState
  turnTask : Option ℕ
  policy : Option Policy
  /-- The tasks, by the `seq` of their turns. -/
  tasks : ℕ → Option Turn
  /-- The timers of `kill_later`: process and turn. -/
  timers : List (ℕ × ℕ)
  op : Option Op
  /-- The arguments of the processes started. -/
  started : List (List String)
  signals : List (ℕ × Signal)
  replies : List Reply

variable {t : Turn} {k : ℕ}

namespace AgyRun

/-- The run as `start` makes it. -/
def new (bin root : String) (sandbox : Bool) (model resume : Option String)
    (roots : List String) : AgyRun where
  bin := bin
  root := root
  sandbox := sandbox
  model := model
  resume := resume
  approvals := .new roots .readOnly
  turn := ⟨false, 0, none, false, false, none⟩
  turnTask := none
  policy := none
  tasks := fun _ ↦ none
  timers := []
  op := none
  started := []
  signals := []
  replies := []

variable (g : AgyRun)

/-- The task of this turn has returned. -/
def isOver (k : ℕ) : Bool := ((g.tasks k).map Turn.returned).getD true

/-- `signal`, if there is a process. -/
def signal (pid : Option ℕ) (s : Signal) : AgyRun :=
  { g with signals := g.signals ++ pid.toList.map (·, s) }

/-- An operation on the approvals. -/
def approve (l : Label) : AgyRun := { g with approvals := g.approvals.step l }

/-- An event for the session, that the channel takes or not. -/
def tell (delivered : Bool) (e : AgentEvent) : AgyRun :=
  { g with approvals := g.approvals.tell delivered e }

/-- `send` returns. -/
def ret (r : Reply) : AgyRun := { g with op := none, replies := g.replies ++ [r] }

/-! ### Sending -/

/-- `send`, once the turn before is out of the way. -/
def check (text : String) : AgyRun :=
  if g.turn.active then g.ret (.err "a turn is already running")
  else
    match g.policy with
    | none => { g with op := some (.versioning text) }
    | some p => { g with op := some (.checking text p) }

/-- `AgyRun::send` is called. -/
def send (text : String) : AgyRun :=
  match g.turnTask with
  | none => g.check text
  | some prev =>
    let g' := { g with turnTask := none }
    if g.isOver prev then g'.check text else { g' with op := some (.waiting text prev) }

/-- What `fail` sends. -/
def failure (message : String) : List AgentEvent := [.error message, .turnEnded .failed]

/-- `check_version` found a version, and `delivered` whether its warning reaches the session. -/
def version (found : Option String) (delivered : Bool) : AgyRun :=
  match g.op with
  | some (.versioning text) =>
    let p := policyForVersion found
    let warned :=
      if p = .readOnly then
        g.tell delivered (.notice ("Antigravity " ++ found.getD "an unknown version" ++
          " is not the tested version " ++ pinnedVersion ++ ": this session runs read-only (tools "
          ++ "that change anything are denied) until Ember's hook tests pass on it."))
      else g
    { warned.approve (.setPolicy p) with policy := some p, op := some (.checking text p) }
  | _ => g

/-- `check_hook` returned, with an error or not. -/
def hook (error : Option String) : AgyRun :=
  match g.op with
  | some (.checking text p) =>
    match error with
    | none => { g.approve .openTurn with op := some (.launching text p) }
    | some message => { g with op := some (.failing (failure message)) }
  | _ => g

/-- The process was started, or could not be. -/
def launch (spawned : Except String ℕ) : AgyRun :=
  match g.op with
  | some (.launching text p) =>
    match spawned with
    | .ok pid =>
      let seq := g.turn.seq + 1
      let conversation := g.turn.nativeId.or g.resume
      { g with
        turn := { g.turn with active := true, seq, interrupted := false, pid := some pid }
        tasks := Function.update g.tasks seq (some ⟨pid, [], false, false, false⟩)
        turnTask := some seq
        started := g.started ++ [turnArgs text conversation g.model g.root p g.sandbox] }.ret .ok
    | .error e =>
      { g.approve .shut with op := some (.unlaunched ("failed to start " ++ g.bin ++ ": " ++ e)) }
  | _ => g

/-- The next event of `fail`. -/
def failNext (delivered : Bool) : AgyRun :=
  match g.op with
  | some (.failing []) => g.ret .ok
  | some (.failing (e :: events)) =>
    if delivered then { g.tell true e with op := some (.failing events) }
    else g.ret (.err "channel closed")
  | _ => g

/-- The grace period of `send` or `shutdown` passes. -/
def graceOver : AgyRun :=
  match g.op with
  | some (.waiting text prev) =>
    if g.isOver prev then g
    else { g.signal g.turn.pid .kill with op := some (.reaping text prev) }
  | some (.ending prev pid) =>
    if g.isOver prev then g else { g.signal pid .kill with op := some (.endingKilled prev) }
  | _ => g

/-- The task that `send` or `shutdown` waits for is seen to be over. -/
def joined : AgyRun :=
  match g.op with
  | some (.waiting text prev) | some (.reaping text prev) =>
    if g.isOver prev then g.check text else g
  | some (.ending prev _) | some (.endingKilled prev) =>
    if g.isOver prev then { g with op := none } else g
  | _ => g

/-- The rest of `close`, and what follows. -/
def cancel (accepted : String → Bool) : AgyRun :=
  match g.op with
  | some (.unlaunched message) =>
    { g.approve (.cancelAll accepted) with op := some (.failing (failure message)) }
  | some (.stopping pid seq) =>
    { (g.approve (.cancelAll accepted)).signal pid .int with
      timers := g.timers ++ pid.toList.map (·, seq), op := none }
  | _ => g

/-- A call that waits is dropped. -/
def dropped : AgyRun :=
  match g.op with
  | some (.waiting _ _) | some (.reaping _ _) | some (.versioning _) | some (.checking _ _)
  | some (.failing _) | some (.ending _ _) | some (.endingKilled _) => { g with op := none }
  | _ => g

/-! ### The other calls -/

/-- `AgyRun::interrupt`. -/
def interrupt : AgyRun :=
  if g.turn.active then
    { g.approve .shut with
      turn := { g.turn with interrupted := true }, op := some (.stopping g.turn.pid g.turn.seq) }
  else g

/-- `AgyRun::shutdown`. -/
def shutdown : AgyRun :=
  let g' := { g with turn := { g.turn with shuttingDown := true } }
  match g.turnTask with
  | none => g'
  | some prev =>
    { g'.signal g.turn.pid .int with turnTask := none, op := some (.ending prev g.turn.pid) }

/-- A timer of `kill_later` fires. -/
def timer (pid seq : ℕ) : AgyRun :=
  if (pid, seq) ∈ g.timers then
    let g' := { g with timers := g.timers.erase (pid, seq) }
    if g.turn.seq = seq ∧ g.turn.pid = some pid then g'.signal (some pid) .kill else g'
  else g

/-! ### The task of a turn -/

/-- The task `k` is changed. -/
def setTurn (k : ℕ) (t : Turn) : AgyRun := { g with tasks := Function.update g.tasks k (some t) }

/-- The task `k` reads a line. -/
def line (k : ℕ) (t : Turn) (parsed : List Parsed) : AgyRun :=
  g.setTurn k { t with
    todo := parsed.map Parsed.act, ended := t.ended || parsed.any Parsed.isEnd }

/-- The output ends and the process has exited, maybe at a rate limit. -/
def exit (k : ℕ) (t : Turn) (limit : Option (Option ℤ × String)) (reason : String) : AgyRun :=
  g.setTurn k { t with
    exited := true
    todo :=
      if t.ended then []
      else (limit.toList.map fun l ↦ .tell (.rateLimited l.1 l.2)) ++ [.finish (some reason)] }

/-- What `finish` sends. -/
def outcome (interrupted : Bool) : Option String → List Act
  | error =>
    if interrupted then [.tell (.turnEnded .interrupted)]
    else
      match error with
      | some message => [.tell (.error message), .tell (.turnEnded .failed)]
      | none => [.tell (.turnEnded .completed)]

/-- The conversation that agy announced is remembered. -/
def remember (e : AgentEvent) : AgyRun :=
  match e with
  | .nativeSession id => { g with turn := { g.turn with nativeId := some id } }
  | _ => g

/-- The task `k` does the next thing it has to do. -/
def act (k : ℕ) (t : Turn) (delivered : Bool) (accepted : String → Bool) : AgyRun :=
  match t.todo with
  | [] =>
    if t.exited then
      { g.setTurn k { t with returned := true } with
        turn := if g.turn.seq = k then { g.turn with pid := none } else g.turn }
    else g
  | .event e :: rest =>
    let g' := g.remember e
    -- A task that gives up drops the process, which is then killed.
    if delivered then (g'.tell true e).setTurn k { t with todo := rest }
    else (g'.signal (some t.pid) .kill).setTurn k { t with todo := [], returned := true }
  | .finish error :: rest =>
    if g.turn.active ∧ g.turn.seq = k then
      { g.setTurn k { t with
          todo := .shut :: .cancelAll ::
            (if g.turn.shuttingDown ∧ !g.turn.interrupted then []
              else outcome g.turn.interrupted error) ++ rest } with
        turn := { g.turn with active := false } }
    else g.setTurn k { t with todo := rest }
  | .shut :: rest => (g.approve .shut).setTurn k { t with todo := rest }
  | .cancelAll :: rest => (g.approve (.cancelAll accepted)).setTurn k { t with todo := rest }
  | .tell e :: rest => (g.tell delivered e).setTurn k { t with todo := rest }

/-! ### Runs -/

/-- One step. -/
inductive Label
  | send (text : String)
  | version (found : Option String) (delivered : Bool)
  | hook (error : Option String)
  | launch (spawned : Except String ℕ)
  | failNext (delivered : Bool)
  | graceOver
  | joined
  | cancel (accepted : String → Bool)
  | dropped
  | answer (id : String) (decision : ApprovalDecision)
  | interrupt
  | shutdown
  | timer (pid seq : ℕ)
  | line (k : ℕ) (parsed : List Parsed)
  | exit (k : ℕ) (limit : Option (Option ℤ × String)) (reason : String)
  | act (k : ℕ) (delivered : Bool) (accepted : String → Bool)
  /-- A hook call arrives. -/
  | arrive (n : ℕ) (payload : Value) (uuid : String)
  /-- A hook call goes on. -/
  | go (n : ℕ) (delivered late : Bool)

/-- The task `k`, if it is ready for more output. -/
def reading (k : ℕ) : Option Turn :=
  (g.tasks k).filter fun t ↦ !t.returned && !t.exited && t.todo.isEmpty

/-- One step. A call begins once the lock is free; until then its caller waits. -/
def step (g : AgyRun) : Label → AgyRun
  | .send text => if g.op.isNone then g.send text else g
  | .version found delivered => g.version found delivered
  | .hook error => g.hook error
  | .launch spawned => g.launch spawned
  | .failNext delivered => g.failNext delivered
  | .graceOver => g.graceOver
  | .joined => g.joined
  | .cancel accepted => g.cancel accepted
  | .dropped => g.dropped
  | .answer id decision => if g.op.isNone then g.approve (.answer id decision) else g
  | .interrupt => if g.op.isNone then g.interrupt else g
  | .shutdown => if g.op.isNone then g.shutdown else g
  | .timer pid seq => g.timer pid seq
  | .line k parsed =>
    match g.reading k with
    | some t => g.line k t parsed
    | none => g
  | .exit k limit reason =>
    match g.reading k with
    | some t => g.exit k t limit reason
    | none => g
  | .act k delivered accepted =>
    match (g.tasks k).filter fun t ↦ !t.returned with
    | some t => g.act k t delivered accepted
    | none => g
  | .arrive n payload uuid => g.approve (.arrive n payload uuid)
  | .go n delivered late => g.approve (.go n delivered late)

/-- The run after these steps. -/
def run (g : AgyRun) (labels : List Label) : AgyRun := labels.foldl step g

/-! ### A refused message -/

/-- A step of the turn, of its hook calls or of a call other than `send` and `shutdown`. -/
def Label.ofTurn : Label → Bool
  | .send _ | .shutdown | .dropped => false
  | _ => true

/-- A message is refused and nothing else is different from then on, whatever the turn, its hook
calls, the answers to them and an interrupt do meanwhile and later. -/
structure Undisturbed (g : AgyRun) : Prop where
  refused : ∀ text ls, (∀ l ∈ ls, Label.ofTurn l = true) → ∃ more message,
    (run (g.step (.send text)) (ls ++ more)).replies = g.replies ++ [.err message]
  signals : ∀ text ls, (∀ l ∈ ls, Label.ofTurn l = true) →
    (run (g.step (.send text)) ls).signals = (run g ls).signals
  approvals : ∀ text ls, (∀ l ∈ ls, Label.ofTurn l = true) →
    (run (g.step (.send text)) ls).approvals = (run g ls).approvals
  turn : ∀ text ls, (∀ l ∈ ls, Label.ofTurn l = true) →
    (run (g.step (.send text)) ls).turn = (run g ls).turn
  tasks : ∀ text ls, (∀ l ∈ ls, Label.ofTurn l = true) →
    (run (g.step (.send text)) ls).tasks = (run g ls).tasks

/-- Nobody holds the lock for a call that reads `turn_task` or replies. -/
def Free (g : AgyRun) : Prop := g.op = none ∨ ∃ pid seq, g.op = some (.stopping pid seq)

/-- The run, but for `turn_task` and the replies. -/
def aside (g : AgyRun) (turnTask : Option ℕ) (replies : List Reply) : AgyRun :=
  { g with turnTask, replies }

/-- `g'` is `g` but for what is put aside, and the lock is in the same hands as before. -/
def Follows (turnTask : Option ℕ) (replies : List Reply) (op : Option Op) (g g' : AgyRun) : Prop :=
  g' = g.aside turnTask replies ∧ g.op = op

variable {g g' h h' : AgyRun} {l : Label} {turnTask : Option ℕ} {replies : List Reply}
  {op : Option Op}

theorem Free.of_op (hfree : g.Free) (hop : g'.op = g.op) : g'.Free := by
  rwa [Free, hop]

theorem Follows.ite {c : Prop} [Decidable c] (hg : Follows turnTask replies op g g')
    (hh : Follows turnTask replies op h h') :
    Follows turnTask replies op (if c then g else h) (if c then g' else h') := by
  split <;> assumption

theorem follows_timer (pid seq : ℕ) :
    Follows turnTask replies g.op (g.timer pid seq) ((g.aside turnTask replies).timer pid seq) :=
  .ite (.ite ⟨rfl, rfl⟩ ⟨rfl, rfl⟩) ⟨rfl, rfl⟩

theorem follows_act (k : ℕ) (t : Turn) (delivered : Bool) (accepted : String → Bool) :
    Follows turnTask replies g.op (g.act k t delivered accepted)
      ((g.aside turnTask replies).act k t delivered accepted) := by
  obtain ⟨pid, todo, ended, exited, isOver⟩ := t
  cases todo with
  | nil => exact .ite ⟨rfl, rfl⟩ ⟨rfl, rfl⟩
  | cons a rest =>
    cases a with
    | event e => cases delivered <;> cases e <;> exact ⟨rfl, rfl⟩
    | finish error => exact .ite ⟨rfl, rfl⟩ ⟨rfl, rfl⟩
    | shut | cancelAll | tell => exact ⟨rfl, rfl⟩

/-- **One step**: what is put aside plays no part. -/
theorem Free.step_aside (hfree : g.Free) (hl : l.ofTurn = true) :
    (g.aside turnTask replies).step l = (g.step l).aside turnTask replies ∧ (g.step l).Free := by
  cases l with
  | send | shutdown | dropped => cases hl
  | arrive | go => exact ⟨rfl, hfree⟩
  | timer pid seq =>
    have hfollows : Follows turnTask replies g.op (g.timer pid seq) _ := follows_timer pid seq
    exact ⟨hfollows.1, hfree.of_op hfollows.2⟩
  | line k _ | exit k _ _ =>
    have hreading : (g.aside turnTask replies).reading k = g.reading k := rfl
    simp only [step, hreading]
    split <;> exact ⟨rfl, hfree⟩
  | act k delivered accepted =>
    have htasks : (g.aside turnTask replies).tasks = g.tasks := rfl
    simp only [step, htasks]
    split
    case h_1 t _ =>
      have hfollows : Follows turnTask replies g.op (g.act k t delivered accepted) _ :=
        follows_act k t delivered accepted
      exact ⟨hfollows.1, hfree.of_op hfollows.2⟩
    · exact ⟨rfl, hfree⟩
  | version | hook | launch | failNext | graceOver | joined | cancel =>
    obtain ⟨_, _, _, _, _, _, _, _, _, _, _, op, _, _, _⟩ := g
    rcases hfree with rfl | ⟨_, _, rfl⟩
    · exact ⟨rfl, .inl rfl⟩
    · first | exact ⟨rfl, .inl rfl⟩ | exact ⟨rfl, .inr ⟨_, _, rfl⟩⟩
  | answer =>
    obtain ⟨_, _, _, _, _, _, _, _, _, _, _, op, _, _, _⟩ := g
    rcases hfree with rfl | ⟨_, _, rfl⟩
    · exact ⟨rfl, .inl rfl⟩
    · exact ⟨rfl, .inr ⟨_, _, rfl⟩⟩
  | interrupt =>
    obtain ⟨_, _, _, _, _, _, turn, _, _, _, _, op, _, _, _⟩ := g
    rcases hfree with rfl | ⟨_, _, rfl⟩
    · obtain ⟨active, _, _, _, _, _⟩ := turn
      cases active
      · exact ⟨rfl, .inl rfl⟩
      · exact ⟨rfl, .inr ⟨_, _, rfl⟩⟩
    · exact ⟨rfl, .inr ⟨_, _, rfl⟩⟩

/-- **A run**: what is put aside plays no part. -/
theorem Free.run_aside {ls : List Label} (hfree : g.Free) (hls : ∀ l ∈ ls, l.ofTurn = true) :
    run (g.aside turnTask replies) ls = (run g ls).aside turnTask replies := by
  induction ls generalizing g with
  | nil => rfl
  | cons l ls ih =>
    obtain ⟨hstep, hfree'⟩ := hfree.step_aside (hls l List.mem_cons_self)
    exact (congrArg (run · ls) hstep).trans (ih hfree' fun l' hl' ↦ hls l' (.tail _ hl'))

/-- A turn is not kept, or its task has returned: the message is refused at once. -/
theorem send_refused (hfree : g.op = none) (hactive : g.turn.active = true)
    (hover : ∀ k, g.turnTask = some k → g.isOver k = true) (text : String) :
    g.step (.send text) = g.aside none (g.replies ++ [.err "a turn is already running"]) := by
  obtain ⟨_, _, _, _, _, _, turn, task, _, tasks, _, _, _, _, _⟩ := g
  obtain rfl := hfree
  cases task with
  | none => exact if_pos hactive
  | some k =>
    have hk := hover k rfl
    exact (if_pos hk).trans (if_pos hactive)

theorem undisturbed_of_over (hfree : g.op = none) (hactive : g.turn.active = true)
    (hover : ∀ k, g.turnTask = some k → g.isOver k = true) : Undisturbed g := by
  have hrun : ∀ text ls, (∀ l ∈ ls, Label.ofTurn l = true) → run (g.step (.send text)) ls =
      (run g ls).aside none (g.replies ++ [.err "a turn is already running"]) := by
    intro text ls hls
    rw [send_refused hfree hactive hover, Free.run_aside (.inl hfree) hls]
  refine ⟨fun text ls hls ↦ ⟨[], "a turn is already running", ?_⟩, fun text ls hls ↦ ?_,
    fun text ls hls ↦ ?_, fun text ls hls ↦ ?_, fun text ls hls ↦ ?_⟩
  · rw [List.append_nil, hrun text ls hls]
    rfl
  all_goals
    rw [hrun text ls hls]
    rfl

/-! ### A turn has a process -/

/-- The task will end its turn, if it goes on. -/
def Due (t : Turn) : Prop :=
  t.returned = false → (t.ended = true ∨ t.exited = true) → ∃ error, .finish error ∈ t.todo

/-- An active turn has a process, and its task will end it before it forgets the process. -/
structure Manned (g : AgyRun) : Prop where
  pid : g.turn.active = true → ∃ pid, g.turn.pid = some pid
  due : g.turn.active = true → ∀ t, g.tasks g.turn.seq = some t → Due t

/-- Nothing changes that matters for the process. -/
structure SameTurn (g g' : AgyRun) : Prop where
  active : g'.turn.active = g.turn.active
  seq : g'.turn.seq = g.turn.seq
  pid : g'.turn.pid = g.turn.pid
  tasks : g'.tasks = g.tasks

theorem Manned.of_same (hman : Manned g) (hsame : SameTurn g g') : Manned g' :=
  ⟨fun ha ↦ hsame.pid ▸ hman.pid (hsame.active ▸ ha), fun ha ↦ by
    rw [hsame.seq, hsame.tasks]
    exact hman.due (hsame.active ▸ ha)⟩

/-- A turn that is not active needs nothing. -/
theorem manned_of_idle (hidle : g.turn.active = false) : Manned g :=
  ⟨fun ha ↦ absurd (hidle.symm.trans ha) Bool.false_ne_true,
    fun ha ↦ absurd (hidle.symm.trans ha) Bool.false_ne_true⟩

/-- One task is changed. -/
theorem Manned.setTurn (hman : Manned g)
    (ht : g.turn.active = true → g.turn.seq = k → Due t) : Manned (g.setTurn k t) := by
  refine ⟨hman.pid, fun ha t' ht' ↦ ?_⟩
  by_cases hk : g.turn.seq = k
  · have hsame : t = t' := by simpa [AgyRun.setTurn, hk] using ht'
    exact hsame ▸ ht ha hk
  · exact hman.due ha t' (by simpa [AgyRun.setTurn, hk] using ht')

/-- What was due still is, once the task did something else. -/
theorem Due.tail {a : Act} {rest : List Act} (hdue : Due t) (htodo : t.todo = a :: rest)
    (ha : ∀ error, a ≠ .finish error) : Due { t with todo := rest } := by
  intro hover hend
  obtain ⟨error, hmem⟩ := hdue hover hend
  rw [htodo] at hmem
  exact ⟨error, (List.mem_cons.1 hmem).resolve_left fun heq ↦ ha error heq.symm⟩

theorem Manned.act (hman : Manned g) (ht : g.tasks k = some t) (hover : t.returned = false)
    (delivered : Bool) (accepted : String → Bool) :
    Manned (g.act k t delivered accepted) := by
  have hdue : g.turn.active = true → g.turn.seq = k → Due t := fun ha hk ↦
    hman.due ha t (hk ▸ ht)
  -- The task goes on with the rest, and the turn is as it was.
  have hrest : ∀ {a rest}, t.todo = a :: rest → (∀ error, a ≠ .finish error) → ∀ {g'},
      SameTurn g g' → Manned (g'.setTurn k { t with todo := rest }) := fun htodo ha _ hsame ↦
    (hman.of_same hsame).setTurn fun hactive hk ↦
      (hdue (hsame.active ▸ hactive) (hsame.seq ▸ hk)).tail htodo ha
  unfold AgyRun.act
  split
  case h_1 htodo =>
    split
    case isTrue hexited =>
      by_cases hk : g.turn.seq = k
      · -- The turn is over, since nothing is left to do.
        refine manned_of_idle ?_
        rw [if_pos hk]
        refine Bool.eq_false_iff.2 fun ha ↦ ?_
        obtain ⟨error, hmem⟩ := hdue ha hk hover (.inr hexited)
        rw [htodo] at hmem
        cases hmem
      · rw [if_neg hk]
        exact hman.setTurn fun _ hk' ↦ absurd hk' hk
    · exact hman
  case h_2 e rest htodo =>
    have hsame : SameTurn g (g.remember e) := by
      unfold remember
      split <;> exact ⟨rfl, rfl, rfl, rfl⟩
    dsimp only
    split
    · exact hrest htodo nofun ⟨hsame.active, hsame.seq, hsame.pid, hsame.tasks⟩
    · refine Manned.setTurn (hman.of_same ⟨hsame.active, hsame.seq, hsame.pid, hsame.tasks⟩) ?_
      exact fun _ _ hover ↦ absurd hover.symm Bool.false_ne_true
  case h_3 error rest htodo =>
    split
    case isTrue => exact manned_of_idle rfl
    case isFalse hnot => exact hman.setTurn fun ha hk ↦ absurd ⟨ha, hk⟩ hnot
  case h_4 htodo => exact hrest htodo nofun ⟨rfl, rfl, rfl, rfl⟩
  case h_5 htodo => exact hrest htodo nofun ⟨rfl, rfl, rfl, rfl⟩
  case h_6 htodo => exact hrest htodo nofun ⟨rfl, rfl, rfl, rfl⟩

theorem of_reading (h : g.reading k = some t) :
    g.tasks k = some t ∧ t.returned = false ∧ t.exited = false ∧ t.todo = [] := by
  obtain ⟨ht, hready⟩ := Option.filter_eq_some_iff.1 h
  simpa [and_assoc] using And.intro ht hready

theorem Manned.line (hman : Manned g) (ht : g.reading k = some t)
    (parsed : List Parsed) : Manned (g.line k t parsed) := by
  obtain ⟨htask, hover, hexited, htodo⟩ := of_reading ht
  refine hman.setTurn fun ha hk _ hend ↦ ?_
  have hdue := hman.due ha t (hk ▸ htask) hover
  rcases hend with hend | hexited'
  · rcases Bool.or_eq_true_iff.1 hend with hended | hparsed
    · obtain ⟨error, hmem⟩ := hdue (.inl hended)
      rw [htodo] at hmem
      cases hmem
    · obtain ⟨p, hp, hlast⟩ := List.any_eq_true.1 hparsed
      cases p with
      | event => cases hlast
      | turnEnd error => exact ⟨error, List.mem_map.2 ⟨_, hp, rfl⟩⟩
  · exact absurd (hexited.symm.trans hexited') Bool.false_ne_true

theorem Manned.exit (hman : Manned g) (ht : g.reading k = some t)
    (limit : Option (Option ℤ × String)) (reason : String) : Manned (g.exit k t limit reason) := by
  obtain ⟨htask, hover, -, htodo⟩ := of_reading ht
  refine hman.setTurn fun ha hk _ _ ↦ ?_
  have hdue := hman.due ha t (hk ▸ htask) hover
  dsimp only
  split
  case isTrue hended =>
    obtain ⟨error, hmem⟩ := hdue (.inl hended)
    rw [htodo] at hmem
    cases hmem
  · exact ⟨some reason, List.mem_append_right _ (List.mem_singleton.2 rfl)⟩

/-- **A new process** is that of the turn that it begins. -/
theorem Manned.launch (hman : Manned g) (spawned : Except String ℕ) :
    Manned (g.launch spawned) := by
  unfold AgyRun.launch
  split
  · split
    case h_1 pid =>
      refine ⟨fun _ ↦ ⟨pid, rfl⟩, fun _ t ht ↦ ?_⟩
      obtain rfl : ⟨pid, [], false, false, false⟩ = t := by simpa [ret] using ht
      exact fun _ hend ↦ by simp at hend
    · exact hman.of_same ⟨rfl, rfl, rfl, rfl⟩
  · exact hman

theorem sameTurn_check (text : String) : SameTurn g (g.check text) := by
  unfold check
  split
  · exact ⟨rfl, rfl, rfl, rfl⟩
  · split <;> exact ⟨rfl, rfl, rfl, rfl⟩

theorem SameTurn.ite {c : Prop} [Decidable c] {a b : AgyRun} (ha : SameTurn g a)
    (hb : SameTurn g b) : SameTurn g (if c then a else b) := by
  split <;> assumption

theorem sameTurn_send (text : String) : SameTurn g (g.send text) := by
  unfold send
  split
  · exact sameTurn_check text
  · have hcheck : SameTurn g ({ g with turnTask := none }.check text) :=
      have h := sameTurn_check (g := { g with turnTask := none }) text
      ⟨h.active, h.seq, h.pid, h.tasks⟩
    exact .ite hcheck ⟨rfl, rfl, rfl, rfl⟩

theorem sameTurn_version (found : Option String) (delivered : Bool) :
    SameTurn g (g.version found delivered) := by
  unfold version
  split
  · dsimp only
    split <;> exact ⟨rfl, rfl, rfl, rfl⟩
  · exact ⟨rfl, rfl, rfl, rfl⟩

theorem sameTurn_joined : SameTurn g g.joined := by
  unfold joined
  split
  · exact .ite (sameTurn_check _) ⟨rfl, rfl, rfl, rfl⟩
  · exact .ite (sameTurn_check _) ⟨rfl, rfl, rfl, rfl⟩
  · exact .ite ⟨rfl, rfl, rfl, rfl⟩ ⟨rfl, rfl, rfl, rfl⟩
  · exact .ite ⟨rfl, rfl, rfl, rfl⟩ ⟨rfl, rfl, rfl, rfl⟩
  · exact ⟨rfl, rfl, rfl, rfl⟩

/-- A process is started, or its task goes on. -/
def Label.ofProcess : Label → Bool
  | .launch _ | .line _ _ | .exit _ _ _ | .act _ _ _ => true
  | _ => false

/-- **The other steps** leave the turn and the tasks. -/
theorem sameTurn_step (hl : l.ofProcess = false) : SameTurn g (g.step l) := by
  have hsame : SameTurn g g := ⟨rfl, rfl, rfl, rfl⟩
  cases l with
  | launch | line | exit | act => cases hl
  | send text => exact .ite (sameTurn_send text) hsame
  | version found delivered => exact sameTurn_version found delivered
  | joined => exact sameTurn_joined
  | answer => exact .ite ⟨rfl, rfl, rfl, rfl⟩ hsame
  | interrupt => exact .ite (.ite ⟨rfl, rfl, rfl, rfl⟩ hsame) hsame
  | shutdown =>
    refine .ite ?_ hsame
    unfold shutdown
    split <;> exact ⟨rfl, rfl, rfl, rfl⟩
  | timer => exact .ite (.ite ⟨rfl, rfl, rfl, rfl⟩ ⟨rfl, rfl, rfl, rfl⟩) hsame
  | arrive | go => exact ⟨rfl, rfl, rfl, rfl⟩
  | hook | failNext | graceOver | cancel | dropped =>
    simp only [step, hook, failNext, graceOver, cancel, dropped]
    repeat' split
    all_goals exact ⟨rfl, rfl, rfl, rfl⟩

theorem Manned.step (hman : Manned g) (l : Label) : Manned (g.step l) := by
  cases l with
  | launch spawned => exact hman.launch spawned
  | line k parsed =>
    simp only [AgyRun.step]
    split
    case h_1 t ht => exact hman.line ht parsed
    · exact hman
  | exit k limit reason =>
    simp only [AgyRun.step]
    split
    case h_1 t ht => exact hman.exit ht limit reason
    · exact hman
  | act k delivered accepted =>
    simp only [AgyRun.step]
    split
    case h_1 t ht =>
      obtain ⟨htask, hover⟩ := Option.filter_eq_some_iff.1 ht
      exact hman.act htask (by simpa using hover) delivered accepted
    · exact hman
  | _ => exact hman.of_same (sameTurn_step rfl)

theorem Manned.run (hman : Manned g) (ls : List Label) : Manned (g.run ls) := by
  induction ls generalizing g with
  | nil => exact hman
  | cons l ls ih => exact ih (hman.step l)

/-! ### The main result -/

/-- A kept turn whose task goes on is killed when the grace period passes. -/
theorem not_undisturbed_of_kept (hman : Manned g) (hfree : g.op = none)
    (hactive : g.turn.active = true) (hkept : g.turnTask = some k)
    (hover : g.isOver k = false) : ¬ Undisturbed g := by
  intro h
  obtain ⟨pid, hpid⟩ := hman.pid hactive
  have hsend : g.step (.send "") = { g with turnTask := none, op := some (.waiting "" k) } := by
    show (if g.op.isNone then g.send "" else g) = _
    rw [hfree]
    simp only [send, hkept, hover]
    rfl
  have hkilled : (run (g.step (.send "")) [.graceOver]).signals = g.signals ++ [(pid, .kill)] := by
    rw [hsend]
    show (if g.isOver k then _ else _ : AgyRun).signals = _
    rw [if_neg (by rw [hover]; exact Bool.false_ne_true)]
    show g.signals ++ g.turn.pid.toList.map (·, Signal.kill) = _
    rw [hpid]
    rfl
  have hleft : (run g [.graceOver]).signals = g.signals := by
    show g.graceOver.signals = _
    rw [graceOver, hfree]
  have hsame := h.signals "" [.graceOver] fun l hl ↦ by rw [List.mem_singleton.1 hl]; rfl
  rw [hkilled, hleft] at hsame
  simpa using congrArg List.length hsame

/-- **When a message leaves an active turn alone.** In every run, while a turn is active and nobody
holds the lock: exactly if the task of the turn is not kept, or has returned. -/
theorem undisturbed_iff (bin root : String) (sandbox : Bool) (model resume : Option String)
    (roots : List String) (labels : List Label)
    (hfree : (run (new bin root sandbox model resume roots) labels).op = none)
    (hactive : (run (new bin root sandbox model resume roots) labels).turn.active = true) :
    let g := run (new bin root sandbox model resume roots) labels
    Undisturbed g ↔ ∀ k, g.turnTask = some k → g.isOver k = true := by
  intro g
  have hman : Manned g := (manned_of_idle rfl).run labels
  constructor
  · intro h k hkept
    by_contra hover
    exact not_undisturbed_of_kept hman hfree hactive hkept (Bool.eq_false_iff.2 hover) h
  · exact undisturbed_of_over hfree hactive

/-- A fresh run. -/
def fresh : AgyRun := new "agy" "/root" false none none ["/root"]

/-- The first message starts a process. -/
def starting : List Label :=
  [.send "hi", .version (some "1.2.16") true, .hook none, .launch (.ok 7)]

/-- A second message was dropped while it waited for the turn. A third is refused, and the turn is
left alone. -/
theorem undisturbed_dropped : Undisturbed (run fresh (starting ++ [.send "and", .dropped])) := by
  have hiff := undisturbed_iff "agy" "/root" false none none ["/root"]
    (starting ++ [.send "and", .dropped]) rfl rfl
  refine hiff.2 fun k hk ↦ ?_
  have hnone : (run fresh (starting ++ [.send "and", .dropped])).turnTask = none := rfl
  exact absurd (hnone.symm.trans hk) nofun

/-- A process asks the user about a command. -/
def commanding : Value :=
  .obj [("conversationId", .str "c"), ("stepIdx", .int 3),
    ("toolCall", .obj [("name", .str "run_command"), ("args", .obj [("CommandLine", .str "ls")])]),
    ("workspacePaths", .arr [.str "/work"])]

/-- The user is asked during the first turn. -/
def asking : List Label :=
  starting ++ [.arrive 0 commanding "", .go 0 true false, .go 0 true false, .go 0 true false]

/-- The end of a killed process is noticed. -/
def killed : List Label :=
  .exit 1 none "agy exited (signal: 9 (SIGKILL)) without a result" ::
    List.replicate 6 (.act 1 true fun _ ↦ true)

/-- **A second message kills the turn.** Without it the user's answer is taken. With it the answer
waits for the lock; after the grace period the process is killed, and the message starts the next
turn. -/
theorem not_undisturbed_asking :
    let g := run fresh asking
    g.op = none ∧ g.turn.active = true ∧
      (run g [.answer "c:3" .allowOnce]).approvals.pending.isEmpty = true ∧
      (run g [.send "and", .answer "c:3" .allowOnce]).approvals.pending.isEmpty = false ∧
      (run g [.send "and", .answer "c:3" .allowOnce, .graceOver]).signals = [(7, .kill)] ∧
      (run g ([.send "and", .graceOver] ++ killed ++
        [.joined, .hook none, .launch (.ok 8)])).replies = [.ok, .ok] ∧
      ¬ Undisturbed g := by
  refine ⟨rfl, rfl, by decide +kernel, by decide +kernel, by decide +kernel, by decide +kernel,
    fun h ↦ ?_⟩
  have hsame := h.signals "and" [.graceOver] (by decide)
  revert hsame
  decide +kernel

end AgyRun

end Ember.Server.Antigravity
