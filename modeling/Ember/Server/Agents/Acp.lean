import Ember.Foundation.Endings
import Ember.Foundation.History
import Ember.Foundation.Runs
import Ember.Server.Events
import Mathlib.Logic.Function.Basic
import Std.Data.String.ToNat

/-!
# The events of an ACP agent

The `Mapper` of `server/src/agents/acp.rs` turns the `session/update` notifications and permission
requests of an agent into events: chunks become deltas, and a message that is complete is said once
more as a whole (`flush_message`); the first mention of a tool call announces it.

What a host says of a terminal, and how a value is written as text, are parameters of the events'
texts only.

`Proper` says of one event what it should be after the events before it. `step_proper` says of one
notification exactly when its events are, and `proper_iff` of a turn.
-/

namespace Ember.Server.Acp

open History Endings

/-! ### A tool call -/

/-- The values of a field that is there and not null. -/
def field (u : Value) (key : String) : Option Value :=
  match u.get key with
  | some .null => none
  | v => v

/-- A field that is a text. -/
def text (u : Value) (key : String) : Option String := (u.get key).bind Value.asStr

/-- `Host`, of what the mapper asks it. -/
structure Host where
  /-- `output_snapshot`: the output of a terminal. -/
  outputSnapshot : String → Option String

/-- `str::lines`. -/
def lines (s : String) : List String :=
  (keepLines '\n' s.toList).map fun l ↦
    if l.getLast? = some '\n' then
      .ofList (if l.dropLast.getLast? = some '\r' then l.dropLast.dropLast else l.dropLast)
    else .ofList l

/-- `render_diff`: a diff as removed and added lines. -/
def renderDiff (c : Value) : String :=
  let path := (text c "path").getD ""
  let old := text c "oldText"
  let new := (text c "newText").getD ""
  "--- " ++ (if old.isSome then path else "/dev/null") ++ "\n+++ " ++ path ++ "\n" ++
    .join ((lines (old.getD "")).map fun l ↦ "-" ++ l ++ "\n") ++
    .join ((lines new).map fun l ↦ "+" ++ l ++ "\n")

/-- `ToolState`. -/
structure ToolState where
  title : Option String
  kind : Option String
  name : Option String
  rawInput : Option Value
  locations : Option Value
  content : Option Value
  rawOutput : Option Value
  done : Bool

namespace ToolState

/-- `ToolState::default`. -/
def default : ToolState := ⟨none, none, none, none, none, none, none, false⟩

/-- `ToolState::apply`: the fields that are there; absent and null keep. -/
def apply (s : ToolState) (u : Value) : ToolState where
  title := text u "title" <|> s.title
  kind := text u "kind" <|> s.kind
  name := text u "name" <|> s.name
  rawInput := field u "rawInput" <|> s.rawInput
  locations := field u "locations" <|> s.locations
  content := field u "content" <|> s.content
  rawOutput := field u "rawOutput" <|> s.rawOutput
  done := s.done

/-- `ToolState::tool_name`: the agent's `name`, else its `kind`. -/
def toolName (s : ToolState) : String := (s.name <|> s.kind).getD "other"

/-- `ToolState::input`: nulls left out. -/
def input (s : ToolState) : Value :=
  .obj ((s.title.map fun t ↦ ("title", .str t)).toList ++
    (s.kind.map fun k ↦ ("kind", .str k)).toList ++
    (s.rawInput.map fun i ↦ ("input", i)).toList ++
    (s.locations.map fun l ↦ ("locations", l)).toList)

/-- `ToolState::output`. -/
def output (toJson : Value → String) (host : Host) (s : ToolState) : String :=
  let parts := ((s.content.bind Value.asArray).getD []).filterMap fun c ↦
    match text c "type" with
    | some "content" => (c.get "content").bind (text · "text")
    | some "diff" => some (renderDiff c)
    | some "terminal" =>
      let id := (text c "terminalId").getD ""
      some ((host.outputSnapshot id).getD ("[terminal " ++ id ++ "]"))
    | _ => none
  let parts := if parts = [] then
      match s.rawOutput with
      | some (.str s) => [s]
      | some v => [toJson v]
      | none => []
    else parts
  "\n".intercalate parts

end ToolState

/-! ### The mapper -/

/-- `Mapper`. -/
structure Mapper where
  /-- The assistant message being streamed. -/
  message : String
  messageId : Option String
  tools : String → Option ToolState
  plans : ℕ

/-- What comes from the agent during a turn. -/
inductive Incoming
  /-- A `session/update`, with what the host says of its terminals then. -/
  | update (u : Value) (host : Host)
  /-- A permission request, with the approval id Ember gives it. -/
  | permission (approvalId : String) (toolCall : Value)

/-- What an update is about. -/
inductive UpdateKind
  | chunk
  | tool
  | plan
  | other

/-- The kind an update says it has. -/
def updateKind (u : Value) : UpdateKind :=
  match text u "sessionUpdate" with
  | some "agent_message_chunk" => .chunk
  | some "tool_call" | some "tool_call_update" => .tool
  | some "plan" => .plan
  | _ => .other

/-- The id of a plan's card. -/
def planId (n : ℕ) : String := "acp-plan-" ++ toString n

/-- The id of the tool call that an update or a permission request is about. -/
def toolCallId (u : Value) : Option String := text u "toolCallId"

/-- What an update of a tool call says of its end: whether it failed. -/
def ending (u : Value) : Option Bool :=
  match text u "status" with
  | some "completed" => some false
  | some "failed" => some true
  | _ => none

/-- The text of a plan's card. -/
def planText (entries : Value) : String :=
  "\n".intercalate ((entries.asArray.getD []).map fun e ↦
    "[" ++ (text e "status").getD "pending" ++ "] " ++ (text e "content").getD "")

namespace Mapper

/-- `Mapper::default`. -/
def default : Mapper := ⟨"", none, fun _ ↦ none, 0⟩

/-- `Mapper::flush_message`. -/
def flushMessage (m : Mapper) : Mapper × List AgentEvent :=
  ({ m with message := "", messageId := none },
    if m.message = "" then [] else [.assistantMessage m.message])

/-- `Mapper::announce`: the fields of a tool call are recorded, and the first time its id is seen it
is announced, which also ends the message streamed before it. -/
def announce (m : Mapper) (id : String) (fields : Value) : Mapper × List AgentEvent :=
  match m.tools id with
  | some state => ({ m with tools := Function.update m.tools id (some (state.apply fields)) }, [])
  | none =>
    let state := ToolState.default.apply fields
    let (m, out) := m.flushMessage
    ({ m with tools := Function.update m.tools id (some state) },
      out ++ [.toolCall id state.toolName state.input])

/-- The message id of a chunk: another one ends the message streamed before it. -/
def chunkOf (m : Mapper) (id : Option String) : Mapper × List AgentEvent :=
  let (m, out) := if id.isSome ∧ m.messageId.isSome ∧ id ≠ m.messageId then m.flushMessage else (m, [])
  (if id.isSome then { m with messageId := id } else m, out)

/-- A chunk of the agent's message. -/
def onChunk (m : Mapper) (u : Value) : Mapper × List AgentEvent :=
  let (m, out) := m.chunkOf (text u "messageId")
  match (u.get "content").bind (text · "text") with
  | some t =>
    if t = "" then (m, out)
    else ({ m with message := m.message ++ t }, out ++ [.assistantDelta t])
  | none => (m, out)

/-- A new or changed tool call. -/
def onToolCall (toJson : Value → String) (host : Host) (m : Mapper) (u : Value) (id : String) :
    Mapper × List AgentEvent :=
  let (m, out) := m.announce id u
  match m.tools id, ending u with
  | some state, some isError =>
    if state.done then (m, out)
    else ({ m with tools := Function.update m.tools id (some { state with done := true }) },
      out ++ [.toolResult id (state.output toJson host) isError])
  | _, _ => (m, out)

/-- A plan, which gets a card of its own. -/
def onPlan (m : Mapper) (u : Value) : Mapper × List AgentEvent :=
  let (m, out) := m.flushMessage
  let m := { m with plans := m.plans + 1 }
  let entries := (u.get "entries").getD (.arr [])
  (m, out ++ [.toolCall (planId m.plans) "Plan" (.obj [("entries", entries)]),
    .toolResult (planId m.plans) (planText entries) false])

/-- `Mapper::on_update`. -/
def onUpdate (toJson : Value → String) (m : Mapper) (u : Value) (host : Host) :
    Mapper × List AgentEvent :=
  match updateKind u with
  | .chunk => m.onChunk u
  | .tool =>
    match toolCallId u with
    | some id => m.onToolCall toJson host u id
    | none => (m, [])
  | .plan => m.onPlan u
  | .other => (m, [])

/-- `Mapper::on_permission`. -/
def onPermission (m : Mapper) (approvalId : String) (toolCall : Value) :
    Mapper × List AgentEvent :=
  match toolCallId toolCall with
  | some id =>
    let (m, out) := m.announce id toolCall
    let state := (m.tools id).getD .default
    (m, out ++ [.approvalRequested approvalId state.toolName state.input])
  | none =>
    let state := ToolState.default.apply toolCall
    (m, [.approvalRequested approvalId state.toolName state.input])

/-- `Mapper::end_turn`. -/
def endTurn (m : Mapper) : Mapper × List AgentEvent :=
  let (m, out) := m.flushMessage
  ({ m with tools := fun _ ↦ none }, out)

/-- What the mapper does with one thing that comes from the agent. -/
def step (toJson : Value → String) (m : Mapper) : Incoming → Mapper × List AgentEvent
  | .update u host => m.onUpdate toJson u host
  | .permission approvalId toolCall => m.onPermission approvalId toolCall

/-- The events of a turn so far, and the mapper after them. -/
def run (toJson : Value → String) (m : Mapper) : List Incoming → Mapper × List AgentEvent
  | [] => (m, [])
  | i :: rest =>
    let (m, out) := m.step toJson i
    let (m, later) := run toJson m rest
    (m, out ++ later)

/-- The events of a whole turn. -/
def turn (toJson : Value → String) (m : Mapper) (incoming : List Incoming) : List AgentEvent :=
  (m.run toJson incoming).2 ++ (m.run toJson incoming).1.endTurn.2

end Mapper

/-! ### What the events should be -/

/-- The deltas since the last complete message, one event further. -/
def stream (s : String) : AgentEvent → String
  | .assistantDelta t => s ++ t
  | .assistantMessage _ => ""
  | _ => s

/-- The deltas since the last complete message. -/
def streamed (events : List AgentEvent) : String := events.foldl stream ""

/-- The deltas of an event, and the message it completes. -/
def deltaOf : AgentEvent → Option String
  | .assistantDelta t => some t
  | _ => none

def messageOf : AgentEvent → Option String
  | .assistantMessage t => some t
  | _ => none

/-- Whether the event announces this tool call. -/
def isCall (id : String) : AgentEvent → Bool
  | .toolCall callId _ _ => callId == id
  | _ => false

/-- Whether the event is a result of this tool call. -/
def isResult (id : String) : AgentEvent → Bool
  | .toolResult callId _ _ => callId == id
  | _ => false

/-- How often the tool call was announced. -/
def calls (id : String) (events : List AgentEvent) : ℕ := events.countP (isCall id)

/-- How many results it got. -/
def results (id : String) (events : List AgentEvent) : ℕ := events.countP (isResult id)

/-- What every event of the mapper is. -/
def Emitted (pre : List AgentEvent) : AgentEvent → Prop
  | .assistantDelta t => t ≠ ""
  | .assistantMessage t => t = streamed pre ∧ t ≠ ""
  | .toolCall .. => streamed pre = ""
  | .toolResult id .. => 0 < calls id pre
  | .approvalRequested .. => True
  | _ => False

/-- What an event should be besides: a result is the only one of the only tool call with its id, and
no message is being streamed when an approval is asked for. -/
def Proper (pre : List AgentEvent) : AgentEvent → Prop
  | .toolResult id .. => calls id pre = 1 ∧ results id pre = 0
  | .approvalRequested .. => streamed pre = ""
  | _ => True

section Counts

variable (id : String) (events : List AgentEvent) (e : AgentEvent)

@[simp] theorem streamed_concat : streamed (events ++ [e]) = stream (streamed events) e := by
  rw [streamed, List.foldl_append]
  rfl

@[simp] theorem calls_concat :
    calls id (events ++ [e]) = calls id events + if isCall id e then 1 else 0 := by
  rw [calls, List.countP_append, List.countP_singleton]
  rfl

@[simp] theorem results_concat :
    results id (events ++ [e]) = results id events + if isResult id e then 1 else 0 := by
  rw [results, List.countP_append, List.countP_singleton]
  rfl

end Counts

/-- **The messages are the deltas**, up to the message that is being streamed. -/
theorem join_messages {events : List AgentEvent} (h : Throughout Emitted events) :
    .join (events.filterMap messageOf) ++ streamed events = .join (events.filterMap deltaOf) := by
  induction events using List.reverseRecOn with
  | nil => rfl
  | append_singleton events e ih =>
    obtain ⟨hevents, he⟩ := throughout_concat_iff.1 h
    rw [List.filterMap_append, List.filterMap_append, String.join_append, String.join_append,
      ← ih hevents, streamed_concat]
    cases e with
    | assistantDelta t =>
      simp [List.filterMap_cons, messageOf, deltaOf, stream, String.append_assoc]
    | assistantMessage t => simp [List.filterMap_cons, messageOf, deltaOf, stream, he.1]
    | _ => simp [List.filterMap_cons, messageOf, deltaOf, stream]

/-- A plan of the turn has this id; there were `base` plans before the turn. -/
def Planned (base plans : ℕ) (id : String) : Prop := ∃ n ≤ plans, base < n ∧ planId n = id

instance (base plans : ℕ) (id : String) : Decidable (Planned base plans id) :=
  inferInstanceAs (Decidable (∃ n ≤ plans, base < n ∧ planId n = id))

theorem planId_injective : Function.Injective planId := fun _ _ h ↦
  Nat.repr_injective (String.append_right_inj _ |>.1 h)

theorem planned_succ {base plans : ℕ} (hle : base ≤ plans) (id : String) :
    Planned base (plans + 1) id ↔ Planned base plans id ∨ planId (plans + 1) = id := by
  constructor
  · rintro ⟨n, hn, hlt, rfl⟩
    rcases Nat.le_succ_iff.1 hn with hn | rfl
    · exact .inl ⟨n, hn, hlt, rfl⟩
    · exact .inr rfl
  · rintro (⟨n, hn, hlt, rfl⟩ | rfl)
    · exact ⟨n, Nat.le_succ_of_le hn, hlt, rfl⟩
    · exact ⟨plans + 1, le_rfl, Nat.lt_succ_of_le hle, rfl⟩

theorem not_planned_succ (base plans : ℕ) : ¬ Planned base plans (planId (plans + 1)) := by
  rintro ⟨n, hn, -, heq⟩
  have := planId_injective heq
  omega

/-- What the mapper knows of the events of the turn so far. -/
structure Follows (base : ℕ) (m : Mapper) (events : List AgentEvent) : Prop where
  plans : base ≤ m.plans
  message : m.message = streamed events
  calls : ∀ id, Acp.calls id events =
    (if (m.tools id).isSome then 1 else 0) + if Planned base m.plans id then 1 else 0
  results : ∀ id, Acp.results id events =
    (if (m.tools id).any (·.done) then 1 else 0) + if Planned base m.plans id then 1 else 0

/-- What an operation of the mapper keeps, where `Q` says when its events are proper. -/
structure Keeps (base : ℕ) (events : List AgentEvent) (r : Mapper × List AgentEvent) (Q : Prop) :
    Prop where
  follows : Follows base r.1 (events ++ r.2)
  emitted : Throughout Emitted events → Throughout Emitted (events ++ r.2)
  proper : Throughout Proper (events ++ r.2) ↔ Throughout Proper events ∧ Q

section Keeps

variable {base : ℕ} {m : Mapper} {events out : List AgentEvent} {r : Mapper × List AgentEvent}
  {e : AgentEvent} {Q Q' : Prop}

theorem Keeps.congr (h : Keeps base events r Q) (hQ : Q ↔ Q') : Keeps base events r Q' :=
  ⟨h.follows, h.emitted, h.proper.trans (and_congr_right fun _ ↦ hQ)⟩

theorem keeps_nil (h : Follows base m events) : Keeps base events (m, []) True := by
  refine ⟨?_, fun he ↦ ?_, ?_⟩ <;> simp only [List.append_nil, and_true] <;> assumption

theorem keeps_event (h : Follows base m (events ++ [e])) (he : Emitted events e) :
    Keeps base events (m, [e]) (Proper events e) :=
  ⟨h, fun hevents ↦ hevents.concat he, throughout_concat_iff⟩

/-- One operation after another. -/
theorem Keeps.append (h : Keeps base events (m, out) Q) (h' : Keeps base (events ++ out) r Q') :
    Keeps base events (r.1, out ++ r.2) (Q ∧ Q') := by
  obtain ⟨hfollows, hemitted, hproper⟩ := h'
  rw [List.append_assoc] at hfollows hemitted hproper
  exact ⟨hfollows, fun he ↦ hemitted (h.emitted he),
    hproper.trans ((and_congr_left' h.proper).trans and_assoc)⟩

end Keeps

namespace Mapper

variable {base : ℕ} {m : Mapper} {events : List AgentEvent} {id : String} {u : Value}

/-! ### One operation -/

theorem keeps_flush (h : Follows base m events) : Keeps base events m.flushMessage True := by
  simp only [flushMessage]
  split
  case isTrue hnone =>
    exact keeps_nil ⟨h.plans, hnone.symm.trans h.message, h.calls, h.results⟩
  case isFalse hne =>
    exact keeps_event ⟨h.plans, by simp [stream], fun id ↦ by simpa [isCall] using h.calls id,
      fun id ↦ by simpa [isResult] using h.results id⟩ ⟨h.message, hne⟩

theorem announce_of_some {state : ToolState} (hknown : m.tools id = some state) (u : Value) :
    m.announce id u =
      ({ m with tools := Function.update m.tools id (some (state.apply u)) }, []) := by
  simp only [announce, hknown]

theorem announce_of_none (hnew : m.tools id = none) (u : Value) :
    m.announce id u =
      ({ m.flushMessage.1 with
          tools := Function.update m.tools id (some (ToolState.default.apply u)) },
        m.flushMessage.2 ++ [.toolCall id (ToolState.default.apply u).toolName
          (ToolState.default.apply u).input]) := by
  simp only [announce, hnew]
  rfl

/-- Recording fields of a known tool call changes nothing that is known of the events. -/
theorem Follows.record {tool : ToolState} (h : Follows base m events)
    (hsome : (m.tools id).isSome = true) (hdone : (m.tools id).any (·.done) = tool.done) :
    Follows base { m with tools := Function.update m.tools id (some tool) } events := by
  refine ⟨h.plans, h.message, fun id' ↦ (h.calls id').trans ?_, fun id' ↦ (h.results id').trans ?_⟩
  · by_cases hid : id' = id
    · subst hid
      simp [hsome]
    · simp [Function.update_of_ne hid]
  · by_cases hid : id' = id
    · subst hid
      simp [hdone]
    · simp [Function.update_of_ne hid]

theorem keeps_announce (h : Follows base m events) (id : String) (u : Value) :
    Keeps base events (m.announce id u) True := by
  cases hknown : m.tools id with
  | some state =>
    rw [announce_of_some hknown]
    exact keeps_nil (Follows.record h (by rw [hknown]; rfl) (by rw [hknown]; rfl))
  | none =>
    have hflush : Keeps base events (m.flushMessage.1, m.flushMessage.2) True := keeps_flush h
    rw [announce_of_none hknown]
    refine (hflush.append (keeps_event (m := { m.flushMessage.1 with
      tools := Function.update m.tools id (some (ToolState.default.apply u)) })
      (e := .toolCall id _ _) ⟨h.plans, ?_, fun id' ↦ ?_, fun id' ↦ ?_⟩ hflush.follows.message.symm)).congr
        (iff_of_true ⟨trivial, trivial⟩ trivial)
    · rw [streamed_concat]
      exact hflush.follows.message
    · rw [calls_concat, hflush.follows.calls]
      show (if (m.tools id').isSome then 1 else 0) + (if Planned base m.plans id' then 1 else 0) + _ =
        (if (Function.update m.tools id _ id').isSome then 1 else 0) +
          if Planned base m.plans id' then 1 else 0
      by_cases hid : id' = id
      · subst hid
        simp [hknown, isCall, Nat.add_comm]
      · simp [Function.update_of_ne hid, isCall, Ne.symm hid]
    · rw [results_concat, hflush.follows.results]
      show (if (m.tools id').any (·.done) then 1 else 0) +
          (if Planned base m.plans id' then 1 else 0) + _ =
        (if (Function.update m.tools id _ id').any (·.done) then 1 else 0) +
          if Planned base m.plans id' then 1 else 0
      by_cases hid : id' = id
      · subst hid
        simp [hknown, isResult, ToolState.apply, ToolState.default]
      · simp [Function.update_of_ne hid, isResult]

/-- An announced tool call is known; whether it is done is as before. -/
theorem tools_announce (m : Mapper) (id : String) (u : Value) :
    ∃ state, (m.announce id u).1.tools id = some state ∧
      state.done = (m.tools id).any (·.done) := by
  cases hknown : m.tools id with
  | some state =>
    rw [announce_of_some hknown]
    exact ⟨_, Function.update_self _ _ _, rfl⟩
  | none =>
    rw [announce_of_none hknown]
    exact ⟨_, Function.update_self _ _ _, rfl⟩

/-- Nothing is being streamed after a tool call is announced; a known one is not announced again. -/
theorem message_announce (m : Mapper) (id : String) (u : Value) :
    (m.announce id u).1.message = "" ↔ m.message = "" ∨ m.tools id = none := by
  cases hknown : m.tools id with
  | some state =>
    rw [announce_of_some hknown]
    simp
  | none =>
    rw [announce_of_none hknown]
    simp [flushMessage]

theorem plans_announce (m : Mapper) (id : String) (u : Value) :
    (m.announce id u).1.plans = m.plans := by
  cases hknown : m.tools id with
  | some state => rw [announce_of_some hknown]
  | none => rw [announce_of_none hknown]; rfl

theorem keeps_chunkOf (h : Follows base m events) (id : Option String) :
    Keeps base events (m.chunkOf id) True := by
  have hset : ∀ r : Mapper × List AgentEvent, Keeps base events r True →
      Keeps base events (if id.isSome then { r.1 with messageId := id } else r.1, r.2) True := by
    intro r hr
    split
    · exact ⟨⟨hr.follows.plans, hr.follows.message, hr.follows.calls, hr.follows.results⟩,
        hr.emitted, hr.proper⟩
    · exact hr
  have hflush : Keeps base events
      (if id.isSome ∧ m.messageId.isSome ∧ id ≠ m.messageId then m.flushMessage else (m, []))
      True := by
    split
    · exact keeps_flush h
    · exact keeps_nil h
  exact hset _ hflush

theorem keeps_chunk (h : Follows base m events) (u : Value) :
    Keeps base events (m.onChunk u) True := by
  have hstart := keeps_chunkOf h (text u "messageId")
  simp only [onChunk]
  generalize m.chunkOf (text u "messageId") = r at hstart ⊢
  obtain ⟨m', out⟩ := r
  split
  case h_1 t _ =>
    split
    case isTrue => exact hstart
    case isFalse hne =>
      have hfollows := hstart.follows
      refine (hstart.append (keeps_event (m := { m' with message := m'.message ++ t })
        (e := .assistantDelta t) ⟨hfollows.plans, ?_, fun id ↦ ?_, fun id ↦ ?_⟩ hne)).congr
          (iff_of_true ⟨trivial, trivial⟩ trivial)
      · rw [streamed_concat, ← hfollows.message]
        rfl
      · rw [calls_concat, hfollows.calls]
        rfl
      · rw [results_concat, hfollows.results]
        rfl
  case h_2 => exact hstart

theorem keeps_toolCall {toJson : Value → String} {host : Host} (h : Follows base m events)
    (u : Value) (id : String) :
    Keeps base events (m.onToolCall toJson host u id)
      ((ending u).isSome = true → (m.tools id).any (·.done) = false →
        ¬ Planned base m.plans id) := by
  have hannounce := keeps_announce h id u
  have hplans := plans_announce m id u
  obtain ⟨state, hstate, hdone⟩ := tools_announce m id u
  simp only [onToolCall]
  generalize m.announce id u = r at hannounce hplans hstate ⊢
  obtain ⟨m', out⟩ := r
  replace hplans : m'.plans = m.plans := hplans
  replace hstate : m'.tools id = some state := hstate
  have hfollows : Follows base m' (events ++ out) := hannounce.follows
  rw [← hdone]
  simp only [hstate]
  cases hend : ending u with
  | none => exact hannounce.congr (iff_of_true trivial fun hsome ↦ nomatch hsome)
  | some isError =>
    dsimp only
    cases hd : state.done with
    | true =>
      rw [if_pos rfl]
      exact hannounce.congr (iff_of_true trivial fun _ hnot ↦ Bool.noConfusion hnot)
    | false =>
      rw [if_neg Bool.false_ne_true]
      have hcalls := hfollows.calls id
      have hresults := hfollows.results id
      rw [hstate, Option.isSome_some, if_pos rfl, hplans] at hcalls
      rw [hstate, Option.any_some, hd, hplans] at hresults
      refine (hannounce.append (keeps_event (m := { m' with
        tools := Function.update m'.tools id (some { state with done := true }) })
        (e := .toolResult id _ isError) ⟨hfollows.plans, ?_, fun id' ↦ ?_, fun id' ↦ ?_⟩ ?_)).congr ?_
      · rw [streamed_concat]
        exact hfollows.message
      · rw [calls_concat, hfollows.calls]
        by_cases hid : id' = id
        · subst hid
          simp [hstate, isCall]
        · simp [Function.update_of_ne hid, isCall]
      · rw [results_concat, hfollows.results]
        by_cases hid : id' = id
        · subst hid
          simp [hstate, hd, isResult, Nat.add_comm]
        · simp [Function.update_of_ne hid, isResult, Ne.symm hid]
      · show 0 < calls id (events ++ out)
        omega
      · show True ∧ calls id (events ++ out) = 1 ∧ results id (events ++ out) = 0 ↔ _
        rw [hcalls, hresults]
        by_cases hplanned : Planned base m.plans id <;> simp [hplanned]

theorem keeps_plan (h : Follows base m events) (u : Value) :
    Keeps base events (m.onPlan u) (m.tools (planId (m.plans + 1)) = none) := by
  have hflush : Keeps base events (m.flushMessage.1, m.flushMessage.2) True := keeps_flush h
  have hfollows : Follows base m.flushMessage.1 (events ++ m.flushMessage.2) := hflush.follows
  have hnew := not_planned_succ base m.plans
  have hcalls : calls (planId (m.plans + 1)) (events ++ m.flushMessage.2) =
      if (m.tools (planId (m.plans + 1))).isSome then 1 else 0 := by
    rw [hfollows.calls]
    exact (congrArg _ (if_neg hnew)).trans (Nat.add_zero _)
  have hresults : results (planId (m.plans + 1)) (events ++ m.flushMessage.2) =
      if (m.tools (planId (m.plans + 1))).any (·.done) then 1 else 0 := by
    rw [hfollows.results]
    exact (congrArg _ (if_neg hnew)).trans (Nat.add_zero _)
  have hplanned := planned_succ h.plans
  set id := planId (m.plans + 1) with hid
  set entries := (u.get "entries").getD (.arr [])
  -- The call and its result come together: between them the mapper does not follow the events.
  have hpair : Keeps base (events ++ m.flushMessage.2)
      ({ m.flushMessage.1 with plans := m.plans + 1 },
        [.toolCall id "Plan" (.obj [("entries", entries)]), .toolResult id (planText entries) false])
      (m.tools id = none) := by
    have hsplit : ∀ evs : List AgentEvent, evs ++ [.toolCall id "Plan" (.obj [("entries", entries)]),
        .toolResult id (planText entries) false] = (evs ++ [.toolCall id "Plan"
          (.obj [("entries", entries)])]) ++ [.toolResult id (planText entries) false] :=
      fun evs ↦ (List.append_assoc evs [_] [_]).symm
    refine ⟨⟨Nat.le_succ_of_le h.plans, ?_, fun id' ↦ ?_, fun id' ↦ ?_⟩, fun hevents ↦ ?_, ?_⟩ <;>
      dsimp only <;> rw [hsplit]
    · rw [streamed_concat, streamed_concat]
      exact hfollows.message
    · rw [calls_concat, calls_concat, hfollows.calls]
      show (if (m.tools id').isSome then 1 else 0) + (if Planned base m.plans id' then 1 else 0) +
          (if (id == id') = true then 1 else 0) + 0 =
        (if (m.tools id').isSome then 1 else 0) + if Planned base (m.plans + 1) id' then 1 else 0
      rw [if_congr (hplanned id') rfl rfl]
      by_cases heq : id = id'
      · subst heq
        simp [hnew]
      · simp [heq]
    · rw [results_concat, results_concat, hfollows.results]
      show (if (m.tools id').any (·.done) then 1 else 0) +
          (if Planned base m.plans id' then 1 else 0) + 0 + (if (id == id') = true then 1 else 0) =
        (if (m.tools id').any (·.done) then 1 else 0) + if Planned base (m.plans + 1) id' then 1 else 0
      rw [if_congr (hplanned id') rfl rfl]
      by_cases heq : id = id'
      · subst heq
        simp [hnew]
      · simp [heq]
    · have hcall : Emitted (events ++ m.flushMessage.2)
          (.toolCall id "Plan" (.obj [("entries", entries)])) := hfollows.message.symm
      refine (hevents.concat hcall).concat ?_
      show 0 < calls id _
      rw [calls_concat]
      simp [isCall]
    · rw [throughout_concat_iff, throughout_concat_iff, and_assoc]
      refine and_congr_right fun _ ↦ ?_
      show True ∧ calls id _ = 1 ∧ results id _ = 0 ↔ _
      rw [calls_concat, results_concat, hcalls, hresults]
      cases htool : m.tools id with
      | none => simp [isCall, isResult]
      | some state => simp [isCall]
  exact (hflush.append hpair).congr (iff_of_eq (true_and _))

theorem keeps_permission (h : Follows base m events) (approvalId : String) (toolCall : Value) :
    Keeps base events (m.onPermission approvalId toolCall)
      (m.message = "" ∨ ∃ id, toolCallId toolCall = some id ∧ m.tools id = none) := by
  simp only [onPermission]
  cases hid : toolCallId toolCall with
  | none =>
    refine (keeps_event (m := m) (e := .approvalRequested approvalId _ _) ⟨h.plans, ?_, fun id ↦ ?_,
      fun id ↦ ?_⟩ trivial).congr ?_
    · rw [streamed_concat]
      exact h.message
    · rw [calls_concat, h.calls]
      rfl
    · rw [results_concat, h.results]
      rfl
    · show streamed events = "" ↔ _
      simp [h.message]
  | some id =>
    have hannounce := keeps_announce h id toolCall
    have hmessage := message_announce m id toolCall
    dsimp only
    generalize m.announce id toolCall = r at hannounce hmessage ⊢
    obtain ⟨m', out⟩ := r
    have hfollows : Follows base m' (events ++ out) := hannounce.follows
    refine (hannounce.append (keeps_event (m := m') (e := .approvalRequested approvalId _ _)
      ⟨hfollows.plans, ?_, fun id ↦ ?_, fun id ↦ ?_⟩ trivial)).congr ?_
    · rw [streamed_concat]
      exact hfollows.message
    · rw [calls_concat, hfollows.calls]
      rfl
    · rw [results_concat, hfollows.results]
      rfl
    · show True ∧ streamed (events ++ out) = "" ↔ _
      rw [← hfollows.message, true_and]
      refine hmessage.trans (or_congr_right ⟨fun hnone ↦ ⟨id, rfl, hnone⟩, ?_⟩)
      rintro ⟨id', hid', hnone⟩
      exact Option.some.inj hid' ▸ hnone

/-! ### A turn -/

/-- Whether the events for what comes next are proper: no approval is asked for while a message is
being streamed, unless it announces its tool call first; and no tool call of the agent has the id of
a plan of this turn. -/
def Clean (base : ℕ) (m : Mapper) : Incoming → Prop
  | .permission _ toolCall =>
    m.message = "" ∨ ∃ id, toolCallId toolCall = some id ∧ m.tools id = none
  | .update u _ =>
    match updateKind u with
    | .tool => ∀ id, toolCallId u = some id → (ending u).isSome = true →
      (m.tools id).any (·.done) = false → ¬ Planned base m.plans id
    | .plan => m.tools (planId (m.plans + 1)) = none
    | .chunk | .other => True

variable (toJson : Value → String)

/-- **One thing from the agent**: what the mapper knows of the events, and when they are proper. -/
theorem keeps_step (h : Follows base m events) (i : Incoming) :
    Keeps base events (m.step toJson i) (Clean base m i) := by
  cases i with
  | permission approvalId toolCall => exact keeps_permission h approvalId toolCall
  | update u host =>
    simp only [step, onUpdate, Clean]
    cases updateKind u with
    | chunk => exact keeps_chunk h u
    | plan => exact keeps_plan h u
    | other => exact keeps_nil h
    | tool =>
      cases hid : toolCallId u with
      | none => exact (keeps_nil h).congr (iff_of_true trivial fun id hid ↦ nomatch hid)
      | some id =>
        refine (keeps_toolCall h u id).congr ⟨fun hq id' hid' ↦ ?_, fun hq ↦ hq id rfl⟩
        exact Option.some.inj hid' ▸ hq

/-- **The events of a turn so far**: they are proper if what came was clean at every step. -/
theorem keeps_run (h : Follows base m events) (incoming : List Incoming) :
    Keeps base events (m.run toJson incoming)
      (StepSystem.AllMeet (fun m i ↦ (m.step toJson i).1) (Clean base) m incoming) := by
  induction incoming generalizing m events with
  | nil => exact keeps_nil h
  | cons i rest ih =>
    have hstep := keeps_step toJson h i
    exact Keeps.append (r := (m.step toJson i).1.run toJson rest) hstep (ih hstep.follows)

/-- Between two turns no message is being streamed and no tool call is known. -/
theorem follows_endTurn (m : Mapper) : Follows m.plans m.endTurn.1 [] := by
  have hnone : ∀ id, ¬ Planned m.plans m.plans id := fun id ⟨n, hn, hlt, _⟩ ↦ absurd hn (not_le.2 hlt)
  refine ⟨le_rfl, rfl, fun id ↦ ?_, fun id ↦ ?_⟩
  · exact ((congrArg _ (if_neg (hnone id))).trans (Nat.add_zero _)).symm
  · exact ((congrArg _ (if_neg (hnone id))).trans (Nat.add_zero _)).symm

/-- **The events of a whole turn**: the last message is complete. -/
theorem keeps_turn (m : Mapper) (incoming : List Incoming) :
    Keeps m.plans [] ((m.endTurn.1.run toJson incoming).1.flushMessage.1,
        m.endTurn.1.turn toJson incoming)
      (StepSystem.AllMeet (fun m i ↦ (m.step toJson i).1) (Clean m.plans) m.endTurn.1 incoming) ∧
    streamed (m.endTurn.1.turn toJson incoming) = "" := by
  have hrun : Keeps m.plans [] ((m.endTurn.1.run toJson incoming).1,
      (m.endTurn.1.run toJson incoming).2) _ := keeps_run toJson (follows_endTurn m) incoming
  have hturn := hrun.append (keeps_flush hrun.follows)
  exact ⟨hturn.congr (and_iff_left trivial), hturn.follows.message.symm⟩

theorem run_append (m : Mapper) (before rest : List Incoming) :
    (m.run toJson (before ++ rest)).2 =
      (m.run toJson before).2 ++ ((m.run toJson before).1.run toJson rest).2 := by
  induction before generalizing m with
  | nil => rfl
  | cons i before ih =>
    show (m.step toJson i).2 ++ ((m.step toJson i).1.run toJson (before ++ rest)).2 = _
    rw [ih, ← List.append_assoc]
    rfl

/-- **An approval for a tool call comes after its announcement.** -/
theorem announced_of_permission (m : Mapper) (before : List Incoming) (approvalId : String)
    (toolCall : Value) {id : String} (hid : toolCallId toolCall = some id) :
    ∃ pre tool input, (m.endTurn.1.run toJson (before ++ [.permission approvalId toolCall])).2 =
      pre ++ [.approvalRequested approvalId tool input] ∧ 0 < calls id pre := by
  have hrun := keeps_run toJson (follows_endTurn m) before
  set m' := (m.endTurn.1.run toJson before).1
  have hannounce := (keeps_announce hrun.follows id toolCall).follows
  obtain ⟨state, hstate, -⟩ := tools_announce m' id toolCall
  refine ⟨(m.endTurn.1.run toJson before).2 ++ (m'.announce id toolCall).2, state.toolName,
    state.input, ?_, ?_⟩
  · rw [run_append, List.append_assoc]
    refine congrArg _ ?_
    show (m'.onPermission approvalId toolCall).2 ++ [] = _
    rw [List.append_nil]
    simp only [onPermission, hid, hstate, Option.getD_some]
  · have hcalls := hannounce.calls id
    rw [hstate, Option.isSome_some, if_pos rfl] at hcalls
    exact hcalls ▸ Nat.lt_of_lt_of_le Nat.zero_lt_one (Nat.le_add_right 1 _)

end Mapper

end Ember.Server.Acp
