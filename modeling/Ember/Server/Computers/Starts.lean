import Ember.Foundation.FairLock
import Ember.Server.Computers.Mounts
import Ember.Server.Store
import Mathlib.Tactic.Simps.Basic

/-!
# Agent starts, switches and the two locks

Two locks of the server are held across awaits: the one around the live agents (`Sessions::live`)
and the one around the project mounts (`ProjectMounts::entries`). An agent start holds the first and
asks for the second, through the prepare hook of `Computers`; the periodic sweep of the mounts holds
the second and asks for the first, once for each session it looks up.

Every lock acquisition, store call and await of these operations is a step here. An operation under
way is a `Task`, which says where it stopped last; a `Draw` says what the calls of its next step come
to. Both locks are fair, as tokio's are. What an operation does to the table of mounts is
`ProjectMounts`'.

An agent is known by the generation of its run. `turns` counts the turns it has been given and not
ended, `pump` is its event channel, and the status is the status column of the store.
-/

namespace Ember.Server.Computers

open FileTree

/-- What the start of an agent reads of its session's record. -/
structure SessionInfo where
  agent : AgentKind
  cwd : Path String

/-- Whether `Computers::prepare_start` mounts the project of such an agent. -/
def mountsProject : AgentKind → Bool
  | .claudeCode | .acp _ => true
  | _ => false

/-- A running agent, or one that ran. -/
structure Agent where
  session : String
  /-- The computer it was started for; none for this server. -/
  computer : Option Computer
  /-- Its process runs. -/
  up : Bool
  /-- The turns it has been given and not ended. -/
  turns : ℕ
  /-- Its event channel, oldest first. -/
  pump : List AgentEvent

/-- Where a `Sessions::send` stopped last. -/
inductive SendAt
  /-- In `ensure_live`, for the live agents. -/
  | waitsLive
  /-- No agent is live; the record and the hooks of the start were read. -/
  | preparing
  /-- In the prepare hook, for the mounts, having read the session's computer. -/
  | waitsEntries (computer : Option Computer)
  /-- The prepare hook is through with the mounts, and whether it succeeded. -/
  | mounted (ok : Bool)
  | starting
  /-- In `adapter.start`, for the computer the start hook read. -/
  | spawning (computer : Option Computer)
  | failed
  /-- The live run is known. -/
  | running (generation : ℕ)
  /-- The user message is in the agent's channel. -/
  | told (generation : ℕ)
  deriving DecidableEq

/-- Where a `Computers::switch` stopped last. -/
inductive SwitchAt
  /-- The session was not busy. -/
  | checked
  /-- The new computer is recorded. -/
  | recorded
  | waitsLive
  /-- The live entry is taken out; its agent is to be shut down. -/
  | stopping (generation : Option ℕ)
  | stopped
  | waitsEntries
  /-- The session left its mount. -/
  | released
  deriving DecidableEq

/-- Where a sweep of the mounts stopped last, with the answers of `is_live` so far. -/
inductive SweepAt
  | waitsEntries
  | asking (asked : List (String × Bool))
  | waitsLive (asked : List (String × Bool)) (sessionId : String)
  | swept
  deriving DecidableEq

/-- An operation under way. -/
inductive Task
  | send (sessionId : String) (at_ : SendAt)
  | switch (sessionId : String) (target : Option Computer) (at_ : SwitchAt)
  /-- `Sessions::release`: waiting, or with the entry taken out. -/
  | release (sessionId : String) (stopping : Option (Option ℕ))
  /-- An operation that takes the lock of the live agents and changes none of them: `is_live`, the
  look-up of `answer`, an `interrupt`, the listing of `reap_idle`, the end of a pump (a run's channel
  closes only when its entry, which holds a sender, is gone). -/
  | look (granted : Bool)
  | sweep (at_ : SweepAt)
  /-- `ProjectMounts::shutdown`. -/
  | shutdown (done : Bool)
  deriving DecidableEq

/-- What the calls of a step come to. -/
structure Draw where
  /-- They succeed. -/
  ok : Bool
  o : Outside
  now : Instant
  text : String
  /-- A text taken during a turn gets a turn of its own. -/
  own : Bool

/-- The server, as far as starts and switches are concerned. -/
structure Fleet where
  live : String → Option ℕ
  agents : ℕ → Option Agent
  /-- The next generation. -/
  generation : ℕ
  liveLock : FairLock ℕ
  entriesLock : FairLock ℕ
  mounts : ProjectMounts
  /-- The sessions' computers, as the registry has them. -/
  computers : String → Option Computer
  status : String → SessionStatus
  tasks : ℕ → Option Task

/-- The session a sweep asks about next: the first user it did not ask about, of the first mount none
of whose users is known to be live. -/
def nextAsk (entries : List Entry) (asked : List (String × Bool)) : Option String :=
  (entries.filter fun e ↦ !e.users.any fun u ↦ asked.contains (u, true)).findSome? fun e ↦
    e.users.find? fun u ↦ !asked.contains (u, false)

namespace Fleet

variable (settings : MountSettings) (about : String → SessionInfo) (w : Fleet)

/-- A task is where it is now, or it has ended. -/
@[simps]
def setTask (i : ℕ) (t : Option Task) : Fleet := { w with tasks := Function.update w.tasks i t }

/-- A task asks for the lock of the live agents. -/
@[simps]
def askLive (i : ℕ) (t : Task) : Fleet :=
  { w.setTask i (some t) with liveLock := w.liveLock.ask i }

/-- A task lets go of the lock of the live agents. -/
@[simps]
def dropLive (i : ℕ) (t : Option Task) : Fleet :=
  { w.setTask i t with liveLock := w.liveLock.drop }

/-- A task asks for the lock of the mounts. -/
@[simps]
def askEntries (i : ℕ) (t : Task) : Fleet :=
  { w.setTask i (some t) with entriesLock := w.entriesLock.ask i }

/-- A task lets go of the lock of the mounts. -/
@[simps]
def dropEntries (i : ℕ) (t : Option Task) : Fleet :=
  { w.setTask i t with entriesLock := w.entriesLock.drop }

/-- Change an agent. -/
@[simps]
def setAgent (g : ℕ) (f : Agent → Agent) : Fleet :=
  { w with agents := Function.update w.agents g ((w.agents g).map f) }

/-- `AgentRun::shutdown`. -/
def shut : Option ℕ → Fleet
  | some g => w.setAgent g fun a ↦ { a with up := false, turns := 0 }
  | none => w

section

variable (g : Option ℕ)

@[simp] theorem shut_tasks : (w.shut g).tasks = w.tasks := by cases g <;> rfl

@[simp] theorem shut_mounts : (w.shut g).mounts = w.mounts := by cases g <;> rfl

end

/-- The agent takes a text. One that has exited does not. -/
def takes (g : ℕ) (own : Bool) : Fleet :=
  w.setAgent g fun a ↦
    if a.up then { a with turns := if a.turns = 0 then 1 else if own then a.turns + 1 else a.turns }
    else a

/-- `Sessions::send`, one step on. -/
def send (i : ℕ) (s : String) (d : Draw) : SendAt → Fleet
  | .waitsLive =>
    if w.liveLock.holder = some i then
      match w.live s with
      | some g => w.dropLive i (some (.send s (.running g)))
      | none => if d.ok then w.setTask i (some (.send s .preparing)) else w.dropLive i none
    else w
  | .preparing =>
    if mountsProject (about s).agent then
      if d.ok then w.askEntries i (.send s (.waitsEntries (w.computers s))) else w.dropLive i none
    else w.setTask i (some (.send s .starting))
  | .waitsEntries computer =>
    if w.entriesLock.holder = some i then
      match computer with
      | some c =>
        match w.mounts.acquire settings d.o s c (about s).cwd with
        | (mounts, .ok ()) => { w.setTask i (some (.send s (.mounted true))) with mounts }
        | (mounts, .error _) => { w.setTask i (some (.send s (.mounted false))) with mounts }
      | none =>
        { w.setTask i (some (.send s (.mounted true))) with mounts := w.mounts.release d.o s }
    else w
  | .mounted ok => w.dropEntries i (some (.send s (if ok then .starting else .failed)))
  | .starting =>
    if d.ok then w.setTask i (some (.send s (.spawning (w.computers s)))) else w.dropLive i none
  | .spawning computer =>
    if d.ok then
      { w.dropLive i (some (.send s (.running w.generation))) with
        live := Function.update w.live s (some w.generation)
        agents := Function.update w.agents w.generation (some ⟨s, computer, true, 0, []⟩)
        generation := w.generation + 1 }
    else w.dropLive i none
  | .failed => w.dropLive i none
  | .running g =>
    if d.ok then
      (w.setAgent g fun a ↦ { a with pump := a.pump ++ [.userMessage d.text] }).setTask i
        (some (.send s (.told g)))
    else w.setTask i none
  | .told g => if d.ok then (w.takes g d.own).setTask i none else w.setTask i none

/-- `Computers::switch`, one step on. -/
def switch (i : ℕ) (s : String) (target : Option Computer) (d : Draw) : SwitchAt → Fleet
  | .checked =>
    if d.ok then
      { w.setTask i (some (.switch s target .recorded)) with
        computers := Function.update w.computers s target }
    else w.setTask i none
  | .recorded => w.askLive i (.switch s target .waitsLive)
  | .waitsLive =>
    if w.liveLock.holder = some i then
      { w.setTask i (some (.switch s target (.stopping (w.live s)))) with
        live := Function.update w.live s none }
    else w
  | .stopping g =>
    (w.shut g).dropLive i (if d.ok then some (.switch s target .stopped) else none)
  | .stopped => w.askEntries i (.switch s target .waitsEntries)
  | .waitsEntries =>
    if w.entriesLock.holder = some i then
      { w.setTask i (some (.switch s target .released)) with mounts := w.mounts.release d.o s }
    else w
  | .released => w.dropEntries i none

/-- A sweep of the mounts, one step on. -/
def sweep (i : ℕ) (d : Draw) : SweepAt → Fleet
  | .waitsEntries =>
    if w.entriesLock.holder = some i then w.setTask i (some (.sweep (.asking []))) else w
  | .asking asked =>
    match nextAsk w.mounts.entries asked with
    | some u => w.askLive i (.sweep (.waitsLive asked u))
    | none =>
      { w.setTask i (some (.sweep .swept)) with
        mounts := w.mounts.sweep settings d.o (fun u ↦ asked.contains (u, true)) d.now }
  | .waitsLive asked u =>
    if w.liveLock.holder = some i then
      w.dropLive i (some (.sweep (.asking (asked ++ [(u, (w.live u).isSome)]))))
    else w
  | .swept => w.dropEntries i none

/-- A task, one step on. A task that waits for a lock that is not its own yet stays where it is. -/
def act (i : ℕ) (d : Draw) : Task → Fleet
  | .send s at_ => w.send settings about i s d at_
  | .switch s target at_ => w.switch i s target d at_
  | .release s none =>
    if w.liveLock.holder = some i then
      { w.setTask i (some (.release s (some (w.live s)))) with
        live := Function.update w.live s none }
    else w
  | .release _ (some g) => (w.shut g).dropLive i none
  | .look false => if w.liveLock.holder = some i then w.setTask i (some (.look true)) else w
  | .look true => w.dropLive i none
  | .sweep at_ => w.sweep settings i d at_
  | .shutdown false =>
    if w.entriesLock.holder = some i then
      { w.setTask i (some (.shutdown true)) with mounts := w.mounts.shutdown d.o }
    else w
  | .shutdown true => w.dropEntries i none

end Fleet

/-- What can happen. Tasks begin under a number nobody has. -/
inductive Event
  | send (i : ℕ) (sessionId : String)
  /-- A switch reads the record, and goes on unless the session is busy. -/
  | switch (i : ℕ) (sessionId : String) (target : Option Computer)
  | release (i : ℕ) (sessionId : String)
  | look (i : ℕ)
  | sweep (i : ℕ)
  | shutdown (i : ℕ)
  | act (i : ℕ) (d : Draw)
  /-- An agent ends a turn. -/
  | turnEnds (g : ℕ) (outcome : TurnOutcome)
  /-- An agent reports anything but the end of a turn. -/
  | reports (g : ℕ) (event : AgentEvent) (h : ∀ outcome, event ≠ .turnEnded outcome)
  /-- An agent's process ends on its own. -/
  | exits (g : ℕ)
  /-- The pump of an agent stores its oldest event. -/
  | pumps (g : ℕ)
  /-- The iteration order of the mounts' hash map changes. -/
  | rehash (entries : List Entry)
  /-- Somebody else changes the server's disk. -/
  | disk (disk : Disk)

namespace Fleet

variable (settings : MountSettings) (about : String → SessionInfo) (w : Fleet)

/-- One step. -/
def step (w : Fleet) : Event → Fleet
  | .send i s => if w.tasks i = none then w.askLive i (.send s .waitsLive) else w
  | .switch i s target =>
    if w.tasks i = none then
      if isBusy (w.status s) then w else w.setTask i (some (.switch s target .checked))
    else w
  | .release i s => if w.tasks i = none then w.askLive i (.release s none) else w
  | .look i => if w.tasks i = none then w.askLive i (.look false) else w
  | .sweep i => if w.tasks i = none then w.askEntries i (.sweep .waitsEntries) else w
  | .shutdown i => if w.tasks i = none then w.askEntries i (.shutdown false) else w
  | .act i d =>
    match w.tasks i with
    | some t => w.act settings about i d t
    | none => w
  | .turnEnds g outcome =>
    match w.agents g with
    | some a =>
      if a.turns = 0 then w
      else w.setAgent g fun a ↦
        { a with turns := a.turns - 1, pump := a.pump ++ [.turnEnded outcome] }
    | none => w
  | .reports g event _ => w.setAgent g fun a ↦ { a with pump := a.pump ++ [event] }
  | .exits g => w.setAgent g fun a ↦ { a with up := false, turns := 0 }
  | .pumps g =>
    match w.agents g with
    | some a =>
      match a.pump with
      | event :: pump =>
        { w.setAgent g fun a ↦ { a with pump } with
          status := Function.update w.status a.session ((w.status a.session).after event) }
      | [] => w
    | none => w
  | .rehash entries => { w with mounts := w.mounts.step settings (.rehash entries) }
  | .disk disk => { w with mounts := w.mounts.step settings (.disk disk) }

/-- A hash map iterates over its entries in any order, and any disk is one. -/
def Enabled (w : Fleet) : Event → Prop
  | .rehash entries => w.mounts.Enabled (.rehash entries)
  | .disk disk => w.mounts.Enabled (.disk disk)
  | _ => True

/-- A server that has just started: nothing is mounted and nobody at work. -/
def init (w : Fleet) : Prop :=
  (∀ s, w.live s = none) ∧ (∀ g, w.agents g = none) ∧ w.liveLock = .free ∧ w.entriesLock = .free ∧
    w.mounts.entries = [] ∧ w.mounts.index = [] ∧ w.mounts.disk.Closed ∧ ∀ i, w.tasks i = none

/-- The runs of the server. -/
def system : StepSystem Fleet Event where
  init := init
  step w e w' := w.Enabled e ∧ w' = w.step settings about e

end Fleet

end Ember.Server.Computers
