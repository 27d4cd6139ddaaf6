import Mathlib.Data.Int.Notation
import Mathlib.Data.Nat.Notation
import Mathlib.Data.List.Basic

/-!
# A persistent terminal session

`node/src/term/session.rs`: one PTY, one terminal model, the attached clients, and who of them has
control. Everything happens under one lock, so an operation is one step; what other threads do
meanwhile is take events out of the clients' queues, or drop them. Whether a queue takes an event is
therefore asked anew at every send: `Env` says, for each send of an operation and each client,
whether its queue is neither full nor closed at that moment.

`apply_size`, `broadcast` and `membership_changed` call each other: a broadcast may drop clients,
which changes the membership, which may change the size, which is broadcast. It ends because each
round drops a client.

The terminal model is a parameter (`ScreenModel`). Times, the record's fields that no operation
reads, and what happens outside the session (the PTY's own size, the files, the node's events) are
left out.

Four fields record what happened and are read by nothing: `outputs`, `ended`, `ops` and `gone`.
-/

namespace Ember.Node.Term

/-- `PtySize`. -/
structure PtySize where
  rows : ℕ
  cols : ℕ
  deriving DecidableEq

/-- `valid`. -/
def PtySize.valid (size : PtySize) : Bool := decide (0 < size.rows) && decide (0 < size.cols)

/-- Bytes of the PTY or of a snapshot. -/
abbrev Bytes := List UInt8

/-- The terminal model of `screen.rs`, as the session uses it. Taking a snapshot may change the
model: it ends a synchronized update. -/
structure ScreenModel (S : Type) where
  new : PtySize → S
  feed : S → Bytes → S
  resize : S → PtySize → S
  title : S → Option String
  takeReplies : S → Bytes × S
  snapshot : S → Bytes × S
  compact : S → S

/-- What was done to the terminal model. -/
inductive ScreenOp
  | feed (data : Bytes)
  | resize (size : PtySize)
  | takeReplies
  | snapshot
  | compact
  deriving DecidableEq

/-- The model after one operation. -/
def ScreenModel.apply {S : Type} (screens : ScreenModel S) (s : S) : ScreenOp → S
  | .feed data => screens.feed s data
  | .resize size => screens.resize s size
  | .takeReplies => (screens.takeReplies s).2
  | .snapshot => (screens.snapshot s).2
  | .compact => screens.compact s

/-- `TermState`. -/
inductive TermState
  | running
  | exited
  | lost
  deriving DecidableEq

/-- `TermClient`: a client as the others see it. -/
structure TermClient where
  client : ℕ
  device : String
  kind : Option String
  pid : Option ℕ
  readOnly : Bool
  size : Option PtySize
  deriving DecidableEq

/-- `TermInfo`: the session as a client sees it. -/
structure TermInfo where
  title : String
  argv : List String
  pid : Option ℕ
  state : TermState
  exitCode : Option ℤ
  signal : Option ℤ
  size : PtySize
  clients : List TermClient
  controller : Option TermClient
  hasScreen : Bool
  deriving DecidableEq

/-- `TermRefusal`. -/
inductive TermRefusal
  | notRunning
  | readOnly
  | controlled
  deriving DecidableEq

/-- `TermEvent`, but for the errors the connection adds. -/
inductive TermEvent
  | attached (client : ℕ) (term : TermInfo)
  | snapshot (size : PtySize) (data : Bytes)
  | output (data : Bytes)
  | resized (size : PtySize)
  | control (controller : Option TermClient)
  | refused (reason : TermRefusal) (controller : Option TermClient)
  | clients (clients : List TermClient)
  | title (title : Option String)
  | exit (code signal : Option ℤ)
  deriving DecidableEq

/-- `TermHello`. -/
structure TermHello where
  device : String
  kind : Option String
  pid : Option ℕ
  size : Option PtySize
  active : Bool
  readOnly : Bool
  snapshot : Bool

/-- `Client`, with every event its queue has taken. -/
structure Client where
  id : ℕ
  device : String
  kind : Option String
  pid : Option ℕ
  readOnly : Bool
  size : Option PtySize
  /-- False until its first events are queued, so that nothing precedes them. -/
  ready : Bool
  inbox : List TermEvent
  deriving DecidableEq

/-- `Client::public`. -/
def Client.public (c : Client) : TermClient :=
  ⟨c.id, c.device, c.kind, c.pid, c.readOnly, c.size⟩

/-- An event the client's queue took. -/
def Client.queue (c : Client) (ev : TermEvent) : Client := { c with inbox := c.inbox ++ [ev] }

/-- `TermRecord`, the fields the session reads. -/
structure TermRecord where
  title : Option String
  argv : List String
  pid : Option ℕ
  state : TermState
  exitCode : Option ℤ
  signal : Option ℤ
  size : PtySize
  deriving DecidableEq

/-- `Inner`. -/
structure Inner (S : Type) where
  record : TermRecord
  screen : Option S
  /-- What was written to the PTY; none once the writer is gone. -/
  written : Option (List Bytes)
  clients : List Client
  controller : Option ℕ
  /-- The most recently active client. -/
  active : Option ℕ
  compacted : Bool
  /-- The next client id. -/
  next : ℕ
  /-- How many times an event was offered to the clients. -/
  sends : ℕ
  /-- Whether the last client list that `membership_changed` sent in this operation was refused by
  some queue. -/
  untold : Bool
  /-- The PTY output processed. -/
  outputs : List Bytes
  /-- How much of it when the program exited. -/
  ended : ℕ
  /-- What was done to the terminal model. -/
  ops : List ScreenOp
  /-- The clients that were dropped, detached or sent the exit. -/
  gone : List Client

/-- Whether a client's queue takes an event: the number of the send, and the client. -/
abbrev Env := ℕ → ℕ → Bool

/-! ### Terminal answers -/

/-- The end of a string sequence: behind a BEL or an ESC backslash. -/
def stringEnd : Bytes → Option Bytes
  | [] => none
  | b :: rest =>
    if b = 0x07 then some rest
    else
      match b, rest with
      | 0x1b, 0x5c :: rest' => some rest'
      | _, _ => stringEnd rest

/-- Whether a control sequence with these parameters, intermediates and final byte is an answer. -/
def isReport (params intermediates : Bytes) (final : UInt8) : Bool :=
  match Char.ofUInt8 final, intermediates with
  | 'R', [] | 'n', [] | 't', [] => params ≠ []
  | 'c', [] => params.head? == some 0x3f || params.head? == some 0x3e || params.head? == some 0x3d
  | 'y', [0x24] => true
  | 'u', [] => params.head? == some 0x3f
  | 'I', [] | 'O', [] => params = []
  | _, _ => false

theorem length_stringEnd_lt {data rest : Bytes} (h : stringEnd data = some rest) :
    rest.length < data.length := by
  induction data with
  | nil => cases h
  | cons b data ih =>
    unfold stringEnd at h
    split at h
    · obtain rfl := Option.some.inj h
      simp
    · split at h
      · obtain rfl := Option.some.inj h
        simp only [List.length_cons]
        omega
      · have := ih h
        simp only [List.length_cons]
        omega

/-- The loop of `is_terminal_report`; `any` is whether an answer came before. -/
def onlyReports (any : Bool) : Bytes → Bool
  | [] => any
  | 0x1b :: 0x5b :: rest =>
    let params := rest.takeWhile fun b ↦ 0x30 ≤ b && b ≤ 0x3f
    let rest₁ := rest.dropWhile fun b ↦ 0x30 ≤ b && b ≤ 0x3f
    let intermediates := rest₁.takeWhile fun b ↦ 0x20 ≤ b && b ≤ 0x2f
    match _h : rest₁.dropWhile fun b ↦ 0x20 ≤ b && b ≤ 0x2f with
    | [] => false
    | final :: rest₂ => isReport params intermediates final && onlyReports true rest₂
  | 0x1b :: b :: rest =>
    if b = 0x5d ∨ b = 0x50 ∨ b = 0x5f then
      match _h : stringEnd rest with
      | some rest' => onlyReports true rest'
      | none => false
    else false
  | _ => false
termination_by data => data.length
decreasing_by
  · have h₁ := (List.dropWhile_suffix (l := rest) fun b ↦ 0x30 ≤ b && b ≤ 0x3f).length_le
    have h₂ := (List.dropWhile_suffix (l := rest.dropWhile fun b ↦ 0x30 ≤ b && b ≤ 0x3f)
      fun b ↦ 0x20 ≤ b && b ≤ 0x2f).length_le
    rw [_h] at h₂
    simp only [List.length_cons] at h₂ ⊢
    omega
  · have := length_stringEnd_lt _h
    simp only [List.length_cons]
    omega

/-- `is_terminal_report`: whether the input is made only of terminal answers. -/
def isTerminalReport (data : Bytes) : Bool := onlyReports false data

example : isTerminalReport [0x1b, 0x5b, 0x31, 0x32, 0x3b, 0x34, 0x30, 0x52] = true := by
  decide +kernel

/-! ### The session -/

namespace Inner

variable {S : Type} (screens : ScreenModel S) (env : Env) (g : Inner S)

/-- `Inner::public_clients`. -/
def publicClients : List TermClient := g.clients.map Client.public

/-- `Inner::controller_client`. -/
def controllerClient : Option TermClient :=
  g.controller.bind fun id ↦ (g.clients.find? fun c ↦ c.id = id).map Client.public

/-- Whether a client is attached. -/
def present (id : ℕ) : Bool := g.clients.any fun c ↦ c.id = id

/-- The title the program has set. -/
def screenTitle : Option String := g.screen.bind screens.title

/-- `Inner::info`. -/
def info : TermInfo where
  title :=
    match g.record.title with
    | some t => t
    | none =>
      match g.screenTitle screens with
      | some t => t
      | none =>
        match g.record.argv.head? with
        | some p => .ofList (p.toList.reverse.takeWhile (· ≠ '/')).reverse
        | none => "terminal"
  argv := g.record.argv
  pid := g.record.pid
  state := g.record.state
  exitCode := g.record.exitCode
  signal := g.record.signal
  size := g.record.size
  clients := g.publicClients
  controller := g.controllerClient
  hasScreen := g.screen.isSome

/-- `Inner::owner_id`: whose size the PTY follows. -/
def ownerId : Option ℕ :=
  (g.controller.filter g.present).orElse fun _ ↦
    (g.active.filter g.present).orElse fun _ ↦
      (g.clients.reverse.find? fun c ↦ c.size.isSome).map Client.id

/-- Whether a client stays when an event is offered to all: it is not ready yet, or its queue takes
the event. -/
def keeps (c : Client) : Bool := !c.ready || env g.sends c.id

/-- `Inner::send_all`: the event is queued for every ready client, and those whose queue refuses it
are dropped. -/
def sendAll (ev : TermEvent) : Inner S :=
  { g with
    clients := (g.clients.filter (g.keeps env)).map fun c ↦ if c.ready then c.queue ev else c
    gone := g.gone ++ g.clients.filter fun c ↦ !g.keeps env c
    sends := g.sends + 1 }

/-- Whether `send_all` drops a client. -/
def drops : Bool := g.clients.any fun c ↦ !g.keeps env c

/-- `Inner::membership_changed`, control: taken from a controller that is gone. -/
def settleControl : Inner S :=
  match g.controller with
  | some ctl => if g.present ctl then g else { g with controller := none }.sendAll env (.control none)
  | none => g

/-- `Inner::membership_changed`, activity: a client that is gone was not active. -/
def settleActive : Inner S :=
  match g.active with
  | some a => if g.present a then g else { g with active := none }
  | none => g

/-- `Inner::membership_changed` up to the size policy: control and activity are fixed and the rest
is told who is attached. -/
def settle : Inner S :=
  let g₁ := (g.settleControl env).settleActive
  { g₁.sendAll env (.clients g₁.publicClients) with untold := g₁.drops env }

/-- The size the PTY should have, when it is another than the record's. -/
def newSize : Option PtySize :=
  if g.record.state = .running then
    match g.ownerId with
    | none => none
    | some owner =>
      match (g.clients.find? fun c ↦ c.id = owner).bind Client.size with
      | none => none
      | some size => if size = g.record.size then none else some size
  else none

/-- The terminal model takes an operation. -/
def onScreen (op : ScreenOp) : Inner S :=
  { g with
    screen := g.screen.map fun s ↦ screens.apply s op
    ops := if g.screen.isSome then g.ops ++ [op] else g.ops }

/-- The PTY and the model are resized, and the record with them. -/
def resizeTo (size : PtySize) : Inner S :=
  let g' := g.onScreen screens (.resize size)
  { g' with record := { g'.record with size := size } }

/-! ### Each round drops a client -/

theorem length_sendAll_le (ev : TermEvent) :
    (g.sendAll env ev).clients.length ≤ g.clients.length := by
  rw [sendAll, List.length_map]
  exact List.length_filter_le _ _

variable {g env} in
theorem length_sendAll_lt (h : g.drops env = true) (ev : TermEvent) :
    (g.sendAll env ev).clients.length < g.clients.length := by
  obtain ⟨c, hc, hdrop⟩ := List.any_eq_true.1 h
  rw [sendAll, List.length_map]
  exact List.length_filter_lt_length_iff_exists.2 ⟨c, hc, by simpa using hdrop⟩

theorem clients_settleActive : g.settleActive.clients = g.clients := by
  unfold settleActive
  split
  · split <;> rfl
  · rfl

theorem length_settle_le : (g.settle env).clients.length ≤ g.clients.length := by
  have hcontrol : (g.settleControl env).clients.length ≤ g.clients.length := by
    unfold settleControl
    split
    · split
      · exact Nat.le_refl _
      · exact length_sendAll_le env _ _
    · exact Nat.le_refl _
  refine Nat.le_trans (length_sendAll_le env _ _) ?_
  rw [clients_settleActive]
  exact hcontrol

/-! ### Telling the clients -/

/-- `Inner::apply_size`: the PTY follows the size of its owner. A client that is dropped when it is
told changes the membership, so the owner may be another and the size change again. -/
def applySize (g : Inner S) : Inner S :=
  match g.newSize with
  | none => g
  | some size =>
    let g₁ := g.resizeTo screens size
    if _h : g₁.drops env then applySize ((g₁.sendAll env (.resized size)).settle env)
    else g₁.sendAll env (.resized size)
termination_by g.clients.length
decreasing_by exact Nat.lt_of_le_of_lt (length_settle_le env _) (length_sendAll_lt ‹_› _)

/-- `Inner::membership_changed`. -/
def membershipChanged : Inner S := applySize screens env (g.settle env)

/-- `Inner::broadcast`. -/
def broadcast (ev : TermEvent) : Inner S :=
  if g.drops env then (g.sendAll env ev).membershipChanged screens env else g.sendAll env ev

/-- `Inner::send_to`: an event for one client, lost when its queue refuses it. -/
def sendTo (client : ℕ) (ev : TermEvent) : Inner S :=
  { g with
    clients := g.clients.map fun c ↦
      if c.id = client ∧ env g.sends c.id then c.queue ev else c
    sends := g.sends + 1 }

/-! ### The operations -/

/-- `Session::on_output`, the model: it is fed, and while no interactive client is attached it
answers the program's queries. -/
def feedOutput (data : Bytes) : Inner S :=
  let replies : Bytes := match g.screen with
    | some s => (screens.takeReplies (screens.feed s data)).1
    | none => []
  let g₁ := (g.onScreen screens (.feed data)).onScreen screens .takeReplies
  { g₁ with
    compacted := false
    outputs := g.outputs ++ [data]
    written := if replies ≠ [] ∧ g.clients.all Client.readOnly then g.written.map (· ++ [replies])
      else g.written }

/-- `Session::on_output`. -/
def onOutput (data : Bytes) : Inner S :=
  let g₁ := g.feedOutput screens data
  let g₂ := g₁.broadcast screens env (.output data)
  if g.screen.isSome ∧ g.screenTitle screens ≠ g₁.screenTitle screens then
    g₂.broadcast screens env (.title (g₁.screenTitle screens))
  else g₂

/-- `Session::on_exit`: every client is told, and its stream ends. -/
def onExit (code signal : Option ℤ) : Inner S :=
  if g.record.state ≠ .running then g
  else
    let record := { g.record with state := .exited, pid := none, exitCode := code, signal := signal }
    let g₁ := { g with record := record }.sendAll env (.exit code signal)
    { g₁ with
      clients := []
      gone := g₁.gone ++ g₁.clients
      controller := none
      active := none
      written := none
      ended := g₁.outputs.length }

/-- The first events of a client: the session, and the screen when it asked for it. The queue is new
and nobody has its other end yet, so it takes them. -/
def welcome (id : ℕ) (snapshot : Bool) : Inner S × List TermEvent :=
  let attached := .attached id (g.info screens)
  match g.screen with
  | some s =>
    if snapshot then
      (g.onScreen screens .snapshot, [attached, .snapshot g.record.size (screens.snapshot s).1])
    else (g, [attached])
  | none => (g, [attached])

/-- The new client's queue takes its first events, and it is ready. -/
def makeReady (id : ℕ) (first : List TermEvent) : Inner S :=
  let control := match g.controllerClient with
    | some controller => [.control (some controller)]
    | none => []
  { g with
    clients := g.clients.map fun c ↦
      if c.id = id then { c with inbox := c.inbox ++ first ++ control, ready := true } else c }

/-- The client that says `hello` is registered under the id `id`, not ready yet. -/
def join (id : ℕ) (hello : TermHello) : Inner S :=
  let c : Client :=
    ⟨id, hello.device, hello.kind, hello.pid, hello.readOnly, hello.size.filter PtySize.valid,
      false, []⟩
  { g with
    clients := g.clients ++ [c]
    active := if hello.active && !hello.readOnly then some id else g.active
    next := id + 1 }

/-- `Session::attach` of a running session. The size policy comes before the screen is taken. -/
def attachRunning (id : ℕ) (hello : TermHello) : Inner S :=
  let w := ((g.join id hello).applySize screens env).welcome screens id hello.snapshot
  let g₁ := w.1.makeReady id w.2
  g₁.broadcast screens env (.clients g₁.publicClients)

/-- `Session::attach`. Ids are shared with the other sessions of the node, which may have taken
`skipped` of them. A session that is lost refuses; one that has ended only shows its screen, on a
queue of its own. -/
def attach (skipped : ℕ) (hello : TermHello) : Inner S :=
  match g.record.state with
  | .lost => g
  | .running => g.attachRunning screens env (g.next + skipped) hello
  | .exited =>
    { (g.welcome screens (g.next + skipped) hello.snapshot).1 with next := g.next + skipped + 1 }

/-- Why input of a client is refused, if it is; nothing when the client is not attached. -/
def refusal (client : ℕ) : Option (Option TermRefusal) :=
  if g.record.state ≠ .running then some (some .notRunning)
  else
    match g.clients.find? fun c ↦ c.id = client with
    | none => none
    | some c =>
      if c.readOnly then some (some .readOnly)
      else if g.controller.any (· ≠ client) then some (some .controlled)
      else some none

/-- Input of a client counts as activity. -/
def touch (client : ℕ) : Inner S := { g with active := some client, compacted := false }

/-- `Session::input`. -/
def input (client : ℕ) (data : Bytes) : Inner S :=
  match g.refusal client with
  | none => g
  | some (some reason) => g.sendTo env client (.refused reason g.controllerClient)
  | some none =>
    -- only the size owner's answers to queries reach the program
    if g.ownerId ≠ some client ∧ isTerminalReport data then g
    else
      let g₁ := (g.touch client).applySize screens env
      { g₁ with written := g₁.written.map (· ++ [data]) }

/-- A client reports its viewport. -/
def setSize (client : ℕ) (size : PtySize) : Inner S :=
  { g with
    clients := g.clients.map fun c ↦ if c.id = client then { c with size := some size } else c }

/-- `Session::resize`. -/
def resize (client : ℕ) (size : PtySize) : Inner S :=
  if !size.valid then g else (g.setSize client size).applySize screens env

/-- Control, and activity with it, goes to the client, or to nobody. -/
def passControl (client : ℕ) (take : Bool) : Inner S :=
  if take then { g with controller := some client, active := some client }
  else { g with controller := none }

/-- `Session::control`. -/
def control (client : ℕ) (take : Bool) : Inner S :=
  if g.record.state ≠ .running then g
  else
    match g.clients.find? fun c ↦ c.id = client with
    | none => g
    | some c =>
      if take && c.readOnly then g
      else if take || g.controller = some client then
        let g₁ := g.passControl client take
        (g₁.broadcast screens env (.control g₁.controllerClient)).applySize screens env
      else g

/-- A client leaves. -/
def leave (client : ℕ) : Inner S :=
  { g with
    clients := g.clients.filter fun c ↦ c.id ≠ client
    gone := g.gone ++ g.clients.filter fun c ↦ c.id = client }

/-- `Session::detach`. -/
def detach (client : ℕ) : Inner S :=
  if g.present client then (g.leave client).membershipChanged screens env else g

/-- `Session::tick`: an idle session's model is compacted once. -/
def tick (idle : Bool) : Inner S :=
  if g.record.state = .running ∧ !g.compacted ∧ idle then
    { g.onScreen screens .compact with compacted := true }
  else g

/-- `Session::drop_screen`. -/
def dropScreen : Inner S := if g.record.state ≠ .running then { g with screen := none } else g

end Inner

/-! ### Runs -/

/-- An operation on the session, by a client, by the program or by the node. -/
inductive Op
  | attach (skipped : ℕ) (hello : TermHello)
  | input (client : ℕ) (data : Bytes)
  | resize (client : ℕ) (size : PtySize)
  | control (client : ℕ) (take : Bool)
  | detach (client : ℕ)
  | output (data : Bytes)
  | exit (code signal : Option ℤ)
  /-- A snapshot is taken for another purpose: the text of the screen, or a shutdown. -/
  | snapshot
  | tick (idle : Bool)
  | dropScreen

namespace Inner

variable {S : Type} (screens : ScreenModel S)

/-- `Session::inert`: a session with no process. -/
def inert (record : TermRecord) : Inner S where
  record := record
  screen := none
  written := none
  clients := []
  controller := none
  active := none
  compacted := true
  next := 1
  sends := 0
  untold := false
  outputs := []
  ended := 0
  ops := []
  gone := []

/-- `Session::start`, with what a shutdown saved. -/
def start (record : TermRecord) (restore : Option Bytes) : Inner S where
  record := record
  screen := match restore with
    | some bytes => some (screens.takeReplies (screens.feed (screens.new record.size) bytes)).2
    | none => some (screens.new record.size)
  written := some []
  clients := []
  controller := none
  active := none
  compacted := false
  next := 1
  sends := 0
  untold := false
  outputs := []
  ended := 0
  ops := []
  gone := []

/-- Where a session comes from. -/
inductive Origin
  | start (record : TermRecord) (restore : Option Bytes)
  /-- A session that is finished, or was lost in a restart. -/
  | inert (record : TermRecord) (h : record.state ≠ .running)

/-- The session as it begins. -/
def Origin.initial : Origin → Inner S
  | .start record restore => Inner.start screens record restore
  | .inert record _ => Inner.inert record

/-- One operation, with what the queues do meanwhile. -/
def step (g : Inner S) : Op × Env → Inner S := fun (op, env) ↦
  let g₀ : Inner S := { g with untold := false }
  match op with
  | .attach skipped hello => g₀.attach screens env skipped hello
  | .input client data => g₀.input screens env client data
  | .resize client size => g₀.resize screens env client size
  | .control client take => g₀.control screens env client take
  | .detach client => g₀.detach screens env client
  | .output data => g₀.onOutput screens env data
  | .exit code signal => g₀.onExit env code signal
  | .snapshot => g₀.onScreen screens .snapshot
  | .tick idle => g₀.tick screens idle
  | .dropScreen => g₀.dropScreen

end Inner

end Ember.Node.Term
