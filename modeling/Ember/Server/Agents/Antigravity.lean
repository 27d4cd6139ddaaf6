import Ember.Server.Events
import Ember.StdPath
import Mathlib.Data.List.Infix
import Mathlib.Logic.Function.Basic
import Std.Data.ExtTreeMap.Lemmas

/-!
# The approval hook of the Antigravity adapter

`server/src/agents/antigravity.rs`: agy runs with its own permission prompts switched off and asks
Ember before every tool call, through an HTTP hook. `RunApprovals` answers: `decide` runs once for
each hook call, and any number of calls, user answers, deadlines and turn ends interleave with it.

`decide` takes the lock twice before it waits: once to read the state, and once, when it has to
ask, to register the approval. What it does between two lock acquisitions or awaits touches nothing
shared, so these are the steps: the calls are processes with a phase each, and a `Label` is one
step of one of them or one of the other operations. `close` takes the lock twice as well (the flag,
then the pending approvals), so it is two steps. How long a deadline is does not matter here, since
it may pass at any moment while a call waits.

The `log` records what happened, for the statements about runs; nothing reads it.
-/

namespace Ember.Server.Antigravity

open FileTree

/-- `PINNED_VERSION`. -/
def pinnedVersion : String := "1.2.16"

/-- `READ_ONLY_TOOLS`. -/
def readOnlyTools : List String :=
  ["view_file", "list_dir", "find_by_name", "grep_search", "command_status", "list_resources",
    "read_resource", "list_permissions", "list_browser_pages", "finish", "wait", "wait_5_seconds"]

/-- `Policy`: how a run's tool calls are gated. -/
inductive Policy
  | gated
  | readOnly
  deriving DecidableEq

/-! ### One hook call -/

/-- `HookCall`. -/
structure HookCall where
  approvalId : String
  tool : String
  input : Value

/-- `call_id`. -/
def callId (conversation : String) (step : ℕ) : String := conversation ++ ":" ++ toString step

/-- `HookCall::from_payload`; `uuid` is the fresh one a call without a step gets. -/
def HookCall.fromPayload (v : Value) (uuid : String) : HookCall where
  approvalId :=
    let conv := ((v.index "conversationId").asStr).getD ""
    match (v.index "stepIdx").asU64 with
    | some step => if conv ≠ "" then callId conv step else "agy-" ++ uuid
    | none => "agy-" ++ uuid
  tool := (((v.index "toolCall").index "name").asStr).getD ""
  input := (v.index "toolCall").index "args"

/-- `allow_reply`. -/
def allowReply : Value := .obj [("decision", .str "allow")]

/-- `deny_reply`. -/
def denyReply (reason : String) : Value := .obj [("decision", .str "deny"), ("reason", .str reason)]

/-- Whether a reply lets the call through. -/
def isAllow (reply : Value) : Bool := (reply.index "decision").asStr == some "allow"

@[simp] theorem isAllow_denyReply (reason : String) : isAllow (denyReply reason) = false := by
  simp [isAllow, denyReply, Value.index, Value.get, Value.asStr]

/-- `read_paths`: the paths a read-only tool reads; none for a tool without paths, the empty list
when the argument is missing. -/
def readPaths (tool : String) (args : Value) : Option (List String) :=
  let paths key := some ((args.index key).asStr).toList
  match tool with
  | "view_file" => paths "AbsolutePath"
  | "list_dir" => paths "DirectoryPath"
  | "find_by_name" => paths "SearchDirectory"
  | "grep_search" => paths "SearchPath"
  | _ => none

/-- `inside`: absolute, without parent steps, and under one of the bases. -/
def inside (path : String) (bases : List (Path String)) : Bool :=
  let p := Path.ofString path
  p.absolute && !p.components.contains .parentDir && bases.any fun b ↦ p.startsWith b

/-- `str::contains`. -/
def containsStr (s sub : String) : Bool := decide (sub.toList <:+: s.toList)

mutual

/-- `mentions`: whether a string in the value mentions a root. The keys of objects are not looked
at. -/
def mentions (roots : List String) : Value → Bool
  | .str s => roots.any fun r ↦ containsStr s r
  | .arr a => mentionsElems roots a
  | .obj o => mentionsFields roots o
  | _ => false

/-- `mentions` of some element of an array. -/
def mentionsElems (roots : List String) : List Value → Bool
  | [] => false
  | v :: vs => mentions roots v || mentionsElems roots vs

/-- `mentions` of some value of an object. -/
def mentionsFields (roots : List String) : List (String × Value) → Bool
  | [] => false
  | (_, v) :: vs => mentions roots v || mentionsFields roots vs

end

/-- The workspaces a payload names. -/
def workspaces (payload : Value) : List (Path String) :=
  ((payload.index "workspacePaths").asArray.getD []).filterMap fun p ↦ p.asStr.map Path.ofString

/-- The folder agy keeps its conversations in, as the payload names it. -/
def brain (payload : Value) : List (Path String) :=
  match (payload.index "artifactDirectoryPath").asStr with
  | some a => (Path.ofString a).parent.toList
  | none => []

/-- A read-only tool whose paths all lie under the bases. -/
def readsInside (bases : List (Path String)) (call : HookCall) : Bool :=
  readOnlyTools.contains call.tool &&
    match readPaths call.tool call.input with
    | none => true
    | some paths => !paths.isEmpty && paths.all fun p ↦ inside p bases

/-- What `decide` reads under its first lock. -/
structure Seen where
  isOpen : Bool
  policy : Policy
  always : Bool

/-- What `decide` makes of a call with what it read: a reply, or none when the user is to be
asked. -/
def verdict (roots : List String) (seen : Seen) (payload : Value) (call : HookCall) :
    Option Value :=
  if !seen.isOpen then
    some (denyReply "No Ember turn is running for this Antigravity session.")
  else if mentions roots call.input then
    some (denyReply (roots.headD "" ++ " is Ember's configuration folder for this conversation, not "
      ++ "the project. Work in the project's folder instead (use it as the working directory)."))
  else if readsInside (workspaces payload ++ brain payload) call then some allowReply
  else if seen.policy = .readOnly then
    some (denyReply ("Ember runs this Antigravity session read-only (agy is not the tested version "
      ++ pinnedVersion ++ "), so " ++ call.tool ++ " is not allowed."))
  else if seen.always then some allowReply
  else none

section Verdict

variable {roots : List String} {seen : Seen} {payload : Value} {call : HookCall}

theorem Policy.eq_gated {p : Policy} (h : p ≠ .readOnly) : p = .gated := by
  cases p <;> simp_all

/-- The user is asked only with a turn open, under the policy `Gated`. -/
theorem of_verdict_eq_none (h : verdict roots seen payload call = none) :
    seen.isOpen = true ∧ mentions roots call.input = false ∧ seen.policy = .gated := by
  unfold verdict at h
  split_ifs at h with hopen hment hreads hpolicy
  exact ⟨by simpa using hopen, by simpa using hment, Policy.eq_gated hpolicy⟩

/-- A call is let through without asking only with a turn open, as a read inside its folders or as a
tool allowed always. -/
theorem of_verdict_eq_allow {v : Value} (h : verdict roots seen payload call = some v)
    (hv : isAllow v = true) :
    seen.isOpen = true ∧ mentions roots call.input = false ∧
      (readsInside (workspaces payload ++ brain payload) call = true ∨
        seen.policy = .gated ∧ seen.always = true) := by
  unfold verdict at h
  split_ifs at h with hopen hment hreads hpolicy halways
  · simp [← Option.some.inj h] at hv
  · simp [← Option.some.inj h] at hv
  · exact ⟨by simpa using hopen, by simpa using hment, .inl hreads⟩
  · simp [← Option.some.inj h] at hv
  · exact ⟨by simpa using hopen, by simpa using hment, .inr ⟨Policy.eq_gated hpolicy, halways⟩⟩

end Verdict

/-! ### The run -/

/-- The answer channel of a call. -/
inductive Channel
  | empty
  | sent (decision : ApprovalDecision)
  /-- The sender is gone. -/
  | dropped
  deriving DecidableEq

/-- How far a hook call is. -/
inductive Phase
  /-- Before the first lock. -/
  | arrived
  /-- Told to ask the user, before the second lock. -/
  | asking
  /-- Registered; the request is being sent. -/
  | registered
  /-- The request could not be sent. -/
  | unasked
  /-- Waiting for the answer. -/
  | waiting
  /-- The deadline passed. -/
  | expired
  /-- Withdrawn after the deadline, with events left to send. -/
  | telling (events : List AgentEvent)
  /-- About to reply. -/
  | replying (reply : Value)
  | replied

/-- A hook call under way. -/
structure Call where
  call : HookCall
  payload : Value
  phase : Phase
  answer : Channel

/-- What happened in a run. -/
inductive Happening
  | policySet (p : Policy)
  | opened
  /-- `close` reset the flag. -/
  | shut
  /-- `close` returned. -/
  | closed
  | arrived (n : ℕ) (payload : Value) (uuid : String)
  | looked (n : ℕ)
  | registered (n : ℕ)
  /-- A user's answer to call `n`, about `tool`, was accepted. -/
  | answered (n : ℕ) (tool : String) (decision : ApprovalDecision)
  | replied (n : ℕ) (allow : Bool)

/-- `RunApprovals` with the calls under way and what happened so far. -/
structure RunApprovals where
  /-- The session root as given and canonicalized. -/
  roots : List String
  isOpen : Bool
  policy : Policy
  /-- Approval id to tool and the call that waits. -/
  pending : Std.ExtTreeMap String (String × ℕ)
  alwaysAllowed : List String
  /-- The events that reached the channel. -/
  sent : List AgentEvent
  /-- How many `close` calls are between their two locks. -/
  closing : ℕ
  calls : ℕ → Option Call
  log : List Happening

namespace RunApprovals

/-- `RunApprovals::new`. -/
def new (roots : List String) (policy : Policy) : RunApprovals where
  roots := roots
  isOpen := false
  policy := policy
  pending := ∅
  alwaysAllowed := []
  sent := []
  closing := 0
  calls := fun _ ↦ none
  log := []

variable (r : RunApprovals)

/-- Record what happened. -/
def note (h : Happening) : RunApprovals := { r with log := r.log ++ [h] }

/-- Change the call `n`, if there is one. -/
def modifyCall (n : ℕ) (f : Call → Call) : RunApprovals :=
  { r with calls := Function.update r.calls n ((r.calls n).map f) }

/-- Call `n` gets to a phase. -/
def setPhase (n : ℕ) (phase : Phase) : RunApprovals :=
  r.modifyCall n fun c ↦ { c with phase := phase }

variable {r} in
theorem calls_setPhase_self {n : ℕ} {c : Call} (h : r.calls n = some c) (phase : Phase) :
    (r.setPhase n phase).calls n = some { c with phase := phase } := by
  simp [setPhase, modifyCall, h]

variable {r} in
theorem exists_of_calls_setPhase {n : ℕ} {c : Call} {phase : Phase}
    (h : (r.setPhase n phase).calls n = some c) :
    ∃ c', r.calls n = some c' ∧ c = { c' with phase := phase } := by
  have h' : (r.calls n).map (fun c' ↦ { c' with phase := phase }) = some c := by
    simpa [setPhase, modifyCall] using h
  obtain ⟨c', hc', rfl⟩ := Option.map_eq_some_iff.1 h'
  exact ⟨c', hc', rfl⟩

theorem calls_setPhase_of_ne {n k : ℕ} (h : k ≠ n) (phase : Phase) :
    (r.setPhase n phase).calls k = r.calls k :=
  Function.update_of_ne h _ _

/-- The sender of the answer is gone; an answer already sent stays. -/
def Call.drop (c : Call) : Call :=
  { c with answer := match c.answer with | .empty => .dropped | a => a }

/-- Drop the senders of these calls. -/
def dropSenders (ns : List ℕ) : RunApprovals :=
  { r with calls := fun n ↦ (r.calls n).map fun c ↦ if ns.contains n then Call.drop c else c }

/-- `pending.remove(id)`, the entry being dropped with its sender. -/
def removePending (id : String) : RunApprovals :=
  match r.pending[id]? with
  | none => r
  | some (_, n) => { r with pending := r.pending.erase id }.dropSenders [n]

/-- An event that the channel takes or not. -/
def tell (delivered : Bool) (e : AgentEvent) : RunApprovals :=
  if delivered then { r with sent := r.sent ++ [e] } else r

/-! ### The operations -/

/-- `RunApprovals::set_policy`. -/
def setPolicy (p : Policy) : RunApprovals := { r with policy := p }.note (.policySet p)

/-- `RunApprovals::open`. -/
def openTurn : RunApprovals := { r with isOpen := true }.note .opened

/-- `RunApprovals::close`, first lock. -/
def shut : RunApprovals := { r with isOpen := false, closing := r.closing + 1 }.note .shut

/-- `RunApprovals::cancel_all`, the rest of `close`: every pending entry is dropped with its sender,
and its card resolved as denied, where the channel takes the event. -/
def cancelAll (accepted : String → Bool) : RunApprovals :=
  match r.closing with
  | 0 => r
  | k + 1 =>
    let resolved := (r.pending.keys.filter accepted).map fun id ↦
      AgentEvent.approvalResolved id .deny
    ({ r with closing := k, pending := ∅, sent := r.sent ++ resolved }.dropSenders
      (r.pending.values.map Prod.snd)).note .closed

/-- `RunApprovals::answer`. -/
def answer (id : String) (decision : ApprovalDecision) : RunApprovals :=
  match r.pending[id]? with
  | none => r
  | some (tool, n) =>
    let always := if decision = ApprovalDecision.allowAlways then [tool] else []
    let r' : RunApprovals :=
      { r with pending := r.pending.erase id, alwaysAllowed := always ++ r.alwaysAllowed }
    (r'.modifyCall n fun c ↦ { c with answer := .sent decision }).note (.answered n tool decision)

variable {r} in
/-- A call after an answer to call `n`: the same, but for the answer. -/
theorem exists_of_calls_answered {n k : ℕ} {c' : Call} {decision : ApprovalDecision}
    (h : (r.modifyCall n fun c ↦ { c with answer := .sent decision }).calls k = some c') :
    ∃ c, r.calls k = some c ∧ c'.payload = c.payload ∧ c'.call = c.call ∧ c'.phase = c.phase ∧
      (k = n ∧ c'.answer = .sent decision ∨ c'.answer = c.answer) := by
  by_cases hkn : k = n
  · subst hkn
    obtain ⟨c, hc, rfl⟩ : ∃ c, r.calls k = some c ∧ { c with answer := .sent decision } = c' := by
      simpa [modifyCall] using h
    exact ⟨c, hc, rfl, rfl, rfl, .inl ⟨rfl, rfl⟩⟩
  · exact ⟨c', by simpa [modifyCall, hkn] using h, rfl, rfl, rfl, .inr rfl⟩

/-! ### The steps of `decide` -/

/-- `decide` is called. -/
def arrive (n : ℕ) (payload : Value) (uuid : String) : RunApprovals :=
  match r.calls n with
  | some _ => r
  | none =>
    let c : Call := ⟨.fromPayload payload uuid, payload, .arrived, .empty⟩
    { r with calls := Function.update r.calls n (some c) }.note (.arrived n payload uuid)

/-- What `decide` reads under its first lock about a call. -/
def seen (call : HookCall) : Seen := ⟨r.isOpen, r.policy, r.alwaysAllowed.contains call.tool⟩

/-- The first lock, and what follows from what was read. -/
def look (n : ℕ) (c : Call) : RunApprovals :=
  let phase :=
    match verdict r.roots (r.seen c.call) c.payload c.call with
    | some reply => .replying reply
    | none => .asking
  (r.setPhase n phase).note (.looked n)

/-- The second lock: the approval is registered; an entry with the same id is replaced. -/
def register (n : ℕ) (c : Call) : RunApprovals :=
  let r' := r.removePending c.call.approvalId
  ({ r' with pending := r'.pending.insert c.call.approvalId (c.call.tool, n) }.setPhase n
    .registered).note (.registered n)

/-- The request is sent, or the session is gone. -/
def ask (n : ℕ) (c : Call) (delivered : Bool) : RunApprovals :=
  (r.tell delivered (.approvalRequested c.call.approvalId c.call.tool c.call.input)).setPhase n
    (if delivered then .waiting else .unasked)

/-- The reply to an answer, or to a withdrawn approval. -/
def replyTo (c : Call) : Channel → Option Value
  | .empty => none
  | .sent .deny => some (denyReply ("The user denied " ++ c.call.tool ++ " in Ember."))
  | .sent .allowOnce | .sent .allowAlways => some allowReply
  | .dropped => some (denyReply "The turn was stopped in Ember.")

/-- The answer, or its absence, reaches the waiting call. -/
def wake (n : ℕ) (c : Call) : RunApprovals :=
  match replyTo c c.answer with
  | some reply => r.setPhase n (.replying reply)
  | none => r

/-- The deadline passes before an answer. -/
def expire (n : ℕ) (c : Call) : RunApprovals :=
  if c.answer = .empty then r.setPhase n .expired else r

/-- The approval could not be sent, or its deadline passed: the entry with its id is removed. -/
def withdraw (n : ℕ) (c : Call) : RunApprovals :=
  match c.phase with
  | .unasked =>
    (r.removePending c.call.approvalId).setPhase n
      (.replying (denyReply "The Ember session is gone."))
  | .expired =>
    (r.removePending c.call.approvalId).setPhase n
      (.telling [.approvalResolved c.call.approvalId .deny,
        .notice ("Approval for " ++ c.call.tool ++ " timed out; retry.")])
  | _ => r

/-- One event after a deadline, and the reply after the last one. -/
def tellNext (n : ℕ) (c : Call) (delivered : Bool) : RunApprovals :=
  match c.phase with
  | .telling (e :: rest) => (r.tell delivered e).setPhase n (.telling rest)
  | .telling [] =>
    r.setPhase n (.replying (denyReply ("Approval timed out in Ember; the user did not answer in "
      ++ "time. Ask the user to retry if the call is still needed.")))
  | _ => r

/-- `decide` returns. -/
def reply (n : ℕ) (value : Value) : RunApprovals :=
  (r.setPhase n .replied).note (.replied n (isAllow value))

end RunApprovals

/-- One step of the run: an operation of the session, or one of a hook call. -/
inductive Label
  | setPolicy (p : Policy)
  | openTurn
  | shut
  | cancelAll (accepted : String → Bool)
  | answer (id : String) (decision : ApprovalDecision)
  | arrive (n : ℕ) (payload : Value) (uuid : String)
  /-- Call `n` goes on; `delivered` is whether the event it sends, if any, reaches the channel, and
  `late` whether the deadline has passed while it waits. -/
  | go (n : ℕ) (delivered late : Bool)

namespace RunApprovals

/-- Call `n` goes on from its phase. -/
def go (r : RunApprovals) (n : ℕ) (c : Call) (delivered late : Bool) : RunApprovals :=
  match c.phase with
  | .arrived => r.look n c
  | .asking => r.register n c
  | .registered => r.ask n c delivered
  | .waiting => if late then r.expire n c else r.wake n c
  | .unasked | .expired => r.withdraw n c
  | .telling _ => r.tellNext n c delivered
  | .replying value => r.reply n value
  | .replied => r

/-- One step of the run. -/
def step (r : RunApprovals) : Label → RunApprovals
  | .setPolicy p => r.setPolicy p
  | .openTurn => r.openTurn
  | .shut => r.shut
  | .cancelAll accepted => r.cancelAll accepted
  | .answer id decision => r.answer id decision
  | .arrive n payload uuid => r.arrive n payload uuid
  | .go n delivered late =>
    match r.calls n with
    | some c => r.go n c delivered late
    | none => r

/-- The run after these steps. -/
def runs (roots : List String) (policy : Policy) (labels : List Label) : RunApprovals :=
  labels.foldl step (new roots policy)

end RunApprovals

end Ember.Server.Antigravity
