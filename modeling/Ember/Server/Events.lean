import Ember.Json

/-!
# The event model of the server

What an agent adapter emits and the store keeps, and the session status that follows from it.
-/

namespace Ember.Server

/-- `ApprovalDecision`. -/
inductive ApprovalDecision
  | allowOnce
  | allowAlways
  | deny
  deriving DecidableEq, Repr

/-- `TurnOutcome`. -/
inductive TurnOutcome
  | completed
  | interrupted
  | failed
  deriving DecidableEq, Repr

/-- One thing that happened in a session, in the order it happened. -/
inductive AgentEvent
  | nativeSession (nativeId : String)
  | userMessage (text : String)
  /-- A note delivered to the agent in front of the next user message. -/
  | systemNotice (text : String)
  | assistantDelta (text : String)
  | assistantMessage (text : String)
  | toolCall (callId name : String) (input : Value)
  | toolResult (callId output : String) (isError : Bool)
  | approvalRequested (approvalId tool : String) (input : Value)
  | approvalResolved (approvalId : String) (decision : ApprovalDecision)
  | usage (inputTokens outputTokens : ℕ)
  | rateLimited (resetsAt : Option ℤ) (message : String)
  | turnEnded (outcome : TurnOutcome)
  | error (message : String)
  | notice (message : String)
  deriving Repr

/-- `SessionStatus`. -/
inductive SessionStatus
  | idle
  | running
  | waitingForApproval
  | finished
  | failed
  deriving DecidableEq, Repr

/-- `SessionStatus::after`: the status after `event`, given the status before it. -/
def SessionStatus.after (s : SessionStatus) : AgentEvent → SessionStatus
  | .userMessage _ => .running
  | .approvalRequested _ _ _ => .waitingForApproval
  | .approvalResolved _ _ => .running
  | .turnEnded .failed => .failed
  | .turnEnded _ => .finished
  | _ => s

/-- The status stored after a log: every append takes the stored status one event further. -/
def SessionStatus.ofLog (log : List AgentEvent) : SessionStatus := log.foldl .after .idle

/-- `is_busy`: a turn is running, or waits for the user. -/
def isBusy (status : SessionStatus) : Bool :=
  status == .running || status == .waitingForApproval

/-- `status_str`: the status as the `sessions` table stores it. -/
def statusStr : SessionStatus → String
  | .idle => "idle"
  | .running => "running"
  | .waitingForApproval => "waiting_for_approval"
  | .finished => "finished"
  | .failed => "failed"

/-- `parse_status`: anything unknown reads as idle. -/
def parseStatus (s : String) : SessionStatus :=
  if s = "running" then .running
  else if s = "waiting_for_approval" then .waitingForApproval
  else if s = "finished" then .finished
  else if s = "failed" then .failed
  else .idle

/-- The stored text of a status reads back as that status. -/
@[simp]
theorem parseStatus_statusStr (s : SessionStatus) : parseStatus (statusStr s) = s := by
  cases s <;> decide

/-- A stored event with its per-session sequence number. -/
structure StoredEvent where
  sessionId : String
  seq : ℕ
  at_ : ℕ
  event : AgentEvent
  deriving Repr

end Ember.Server
