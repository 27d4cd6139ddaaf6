import Ember.Client.Wire
import Ember.Foundation.HoldBack
import Mathlib.Data.List.Induction

/-!
# One session's conversation, reduced from its stored events

Events are applied strictly in sequence order: one at or below the last applied sequence number is
a duplicate, one beyond the next expected number is held back and reported as a gap.

Shape decisions. The vector of items is a list, and an indexed write is `List.set` or
`List.modify`, which leave the list alone at an index out of range, where the source would panic;
`Transcript.Valid` says that the one index the source uses unchecked, that of the streaming item,
never is. The loop that removes held events while the next expected one is among them runs with the
number of held events as fuel, and `Transcript.toHoldBack` shows that the whole of `applySeq` is the
general hold-back buffer `HoldBack.offer` over the reducer `Transcript.reduce`.
-/

namespace Ember.Client

/-- What a finished tool left. -/
structure ToolOutput where
  output : String
  isError : Bool
  deriving DecidableEq, Repr

/-- `ApprovalState`. -/
inductive ApprovalState
  | pending
  | resolved (decision : ApprovalDecision)
  /-- The turn ended without an answer; it can no longer be answered. -/
  | abandoned
  deriving DecidableEq, Repr

/-- A rendered entry of the conversation. -/
inductive TranscriptItem
  | user (seq : ℕ) (text : String)
  | assistant (seq : ℕ) (text : String) (streaming : Bool)
  | toolCall (seq : ℕ) (callId name : String) (input : Value) (result : Option ToolOutput)
  | approval (seq : ℕ) (approvalId tool : String) (input : Value) (state : ApprovalState)
  | turnEnded (seq : ℕ) (outcome : TurnOutcome)
  | error (seq : ℕ) (message : String)
  | notice (seq : ℕ) (text : String)
  deriving Repr

/-- Sum of the usage reports. -/
structure Usage where
  inputTokens : ℕ
  outputTokens : ℕ
  deriving DecidableEq, Repr

/-- Outcome of offering one event to a transcript. -/
inductive Applied
  | changed
  | duplicate
  | gap (expected : ℕ)
  deriving DecidableEq, Repr

/-- The transcript of a session. -/
structure Transcript where
  items : List TranscriptItem
  usage : Usage
  /-- Highest sequence number applied. -/
  lastSeq : ℕ
  held : Std.ExtTreeMap ℕ AgentEvent
  toolIndex : Std.ExtTreeMap String ℕ
  approvalIndex : Std.ExtTreeMap String ℕ
  /-- Index of the assistant item currently streaming, if any. -/
  streaming : Option ℕ

/-- Whether an item is an approval still waiting for an answer. -/
def TranscriptItem.isPending : TranscriptItem → Bool
  | .approval _ _ _ _ .pending => true
  | _ => false

/-- A streaming message keeps the text assembled so far. -/
def TranscriptItem.endStreaming : TranscriptItem → TranscriptItem
  | .assistant seq text _ => .assistant seq text false
  | item => item

/-- One more delta of a streaming message. -/
def TranscriptItem.pushText (delta : String) : TranscriptItem → TranscriptItem
  | .assistant seq text streaming => .assistant seq (text ++ delta) streaming
  | item => item

/-- The answer to an approval card. -/
def TranscriptItem.resolve (decision : ApprovalDecision) : TranscriptItem → TranscriptItem
  | .approval seq approvalId tool input _ =>
    .approval seq approvalId tool input (.resolved decision)
  | item => item

/-- The turn ended without an answer. -/
def TranscriptItem.abandon : TranscriptItem → TranscriptItem
  | .approval seq approvalId tool input .pending => .approval seq approvalId tool input .abandoned
  | item => item

variable {t t' : Transcript}

namespace Transcript

/-- `Transcript::new`. -/
def new : Transcript := ⟨[], ⟨0, 0⟩, 0, ∅, ∅, ∅, none⟩

/-- `Transcript::pending_approvals`. -/
def pendingApprovals (t : Transcript) : List TranscriptItem :=
  t.items.filter TranscriptItem.isPending

/-- `Transcript::has_gap`. -/
def hasGap (t : Transcript) : Bool := !t.held.isEmpty

/-- `Transcript::end_stream`: a streaming message without a final one stays as assembled. -/
def endStream (t : Transcript) : Transcript :=
  match t.streaming with
  | none => t
  | some i => { t with streaming := none, items := t.items.modify i .endStreaming }

/-- `self.items.push`. -/
def push (t : Transcript) (item : TranscriptItem) : Transcript :=
  { t with items := t.items ++ [item] }

/-- The body of `Transcript::reduce` once `last_seq` is set. -/
def reduceEvent (t : Transcript) (seq : ℕ) : AgentEvent → Transcript
  | .userMessage text => t.endStream.push (.user seq text)
  | .assistantDelta text =>
    match t.streaming with
    | some i => { t with items := t.items.modify i (.pushText text) }
    | none => { t with streaming := some t.items.length }.push (.assistant seq text true)
  | .assistantMessage text =>
    match t.streaming with
    -- the final message replaces the assembled deltas, in place
    | some i => { t with streaming := none, items := t.items.set i (.assistant seq text false) }
    | none => t.push (.assistant seq text false)
  | .toolCall callId name input =>
    let t := t.endStream
    { t with toolIndex := t.toolIndex.insert callId t.items.length }.push
      (.toolCall seq callId name input none)
  | .toolResult callId output isError =>
    match t.toolIndex[callId]?.bind fun i ↦ t.items[i]?.map fun item ↦ (i, item) with
    | some (i, .toolCall seq callId name input _) =>
      { t with items := t.items.set i (.toolCall seq callId name input (some ⟨output, isError⟩)) }
    | _ =>
      -- a result for a call never seen is shown as its own card
      { t with toolIndex := t.toolIndex.insert callId t.items.length }.push
        (.toolCall seq callId "" .null (some ⟨output, isError⟩))
  | .approvalRequested approvalId tool input =>
    let t := t.endStream
    { t with approvalIndex := t.approvalIndex.insert approvalId t.items.length }.push
      (.approval seq approvalId tool input .pending)
  | .approvalResolved approvalId decision =>
    match t.approvalIndex[approvalId]? with
    | some i => { t with items := t.items.modify i (.resolve decision) }
    | none => t
  | .usage inputTokens outputTokens =>
    { t with usage := ⟨t.usage.inputTokens + inputTokens, t.usage.outputTokens + outputTokens⟩ }
  | .turnEnded outcome =>
    let t := t.endStream
    { t with items := t.items.map .abandon }.push (.turnEnded seq outcome)
  | .error message => t.push (.error seq message)
  -- a notice can land mid-turn, so it does not end a streaming reply
  | .notice message => t.push (.notice seq message)
  | .nativeSession _ | .unknown => t

/-- `Transcript::reduce`. -/
def reduce (t : Transcript) (seq : ℕ) (event : AgentEvent) : Transcript :=
  { t with lastSeq := seq }.reduceEvent seq event

/-- The `while let` of `Transcript::apply_seq`. -/
def drain : ℕ → Transcript → Transcript
  | 0, t => t
  | fuel + 1, t =>
    match t.held[t.lastSeq + 1]? with
    | none => t
    | some next =>
      drain fuel ({ t with held := t.held.erase (t.lastSeq + 1) }.reduce (t.lastSeq + 1) next)

/-- `Transcript::apply_seq`. -/
def applySeq (t : Transcript) (seq : ℕ) (event : AgentEvent) : Transcript × Applied :=
  if seq ≤ t.lastSeq ∨ seq ∈ t.held then (t, .duplicate)
  else if seq ≠ t.lastSeq + 1 then
    ({ t with held := t.held.insert seq event }, .gap (t.lastSeq + 1))
  else
    let t := t.reduce seq event
    (t.drain t.held.size, .changed)

/-- `Transcript::apply`. -/
def apply (t : Transcript) (ev : StoredEvent) : Transcript × Applied :=
  t.applySeq ev.seq ev.event

/-- The reduction of a log, each event applied once, in order. -/
def ofLog (log : List AgentEvent) : Transcript := HoldBack.replay reduce new log

theorem ofLog_concat (log : List AgentEvent) (event : AgentEvent) :
    ofLog (log ++ [event]) = (ofLog log).reduce (log.length + 1) event :=
  HoldBack.replay_concat reduce new log event

/-! ### The reducer and the held events

Reducing one event neither reads nor writes `held`, and sets `lastSeq` to the event's number. -/

section

variable (t : Transcript)

@[simp] theorem endStream_lastSeq : t.endStream.lastSeq = t.lastSeq := by
  unfold endStream; split <;> rfl

@[simp] theorem endStream_approvalIndex :
    t.endStream.approvalIndex = t.approvalIndex := by
  unfold endStream; split <;> rfl

@[simp] theorem endStream_held : t.endStream.held = t.held := by
  unfold endStream; split <;> rfl

theorem endStream_withHeld (h : Std.ExtTreeMap ℕ AgentEvent) :
    { t with held := h }.endStream = { t.endStream with held := h } := by
  obtain ⟨items, usage, lastSeq, held, toolIndex, approvalIndex, streaming⟩ := t
  cases streaming <;> rfl

/-- What is held plays no part in the reduction of an event. -/
theorem reduceEvent_withHeld (h : Std.ExtTreeMap ℕ AgentEvent) (seq : ℕ) (event : AgentEvent) :
    { t with held := h }.reduceEvent seq event = { t.reduceEvent seq event with held := h } := by
  cases event with
  | toolResult callId output isError => simp only [reduceEvent, push]; split <;> rfl
  | _ => simp only [reduceEvent, endStream_withHeld, push] <;> split <;> rfl

@[simp] theorem reduceEvent_lastSeq (seq : ℕ) (event : AgentEvent) :
    (t.reduceEvent seq event).lastSeq = t.lastSeq := by
  cases event <;> simp only [reduceEvent, push] <;> (try split) <;> simp

@[simp] theorem reduceEvent_held (seq : ℕ) (event : AgentEvent) :
    (t.reduceEvent seq event).held = t.held := by
  cases event <;> simp only [reduceEvent, push] <;> (try split) <;> simp

@[simp] theorem reduce_lastSeq (seq : ℕ) (event : AgentEvent) :
    (t.reduce seq event).lastSeq = seq := by simp [reduce]

@[simp] theorem reduce_held (seq : ℕ) (event : AgentEvent) :
    (t.reduce seq event).held = t.held := by simp [reduce]

theorem reduce_withHeld (h : Std.ExtTreeMap ℕ AgentEvent) (seq : ℕ) (event : AgentEvent) :
    { t with held := h }.reduce seq event = { t.reduce seq event with held := h } :=
  reduceEvent_withHeld { t with lastSeq := seq } h seq event

end

/-! ### The transcript as a hold-back buffer -/

/-- The items and indices are the reduction so far, the held events are the buffer's. -/
def toHoldBack (t : Transcript) : HoldBack Transcript AgentEvent :=
  ⟨{ t with held := ∅ }, t.lastSeq, t.held⟩

theorem toHoldBack_injective (h : t.toHoldBack = t'.toHoldBack) : t = t' := by
  have hacc : { t with held := ∅ } = { t' with held := ∅ } := congrArg HoldBack.acc h
  have hheld : t.held = t'.held := congrArg HoldBack.held h
  calc t = { { t with held := ∅ } with held := t.held } := rfl
    _ = { { t' with held := ∅ } with held := t'.held } := by rw [hacc, hheld]
    _ = t' := rfl

theorem toHoldBack_reduce (t : Transcript) (event : AgentEvent) :
    (t.reduce (t.lastSeq + 1) event).toHoldBack = HoldBack.advance reduce t.toHoldBack event := by
  rw [toHoldBack, ← reduce_withHeld, reduce_lastSeq, reduce_held]
  rfl

theorem toHoldBack_drain (fuel : ℕ) (t : Transcript) :
    (t.drain fuel).toHoldBack = HoldBack.drain reduce fuel t.toHoldBack := by
  induction fuel generalizing t with
  | zero => rfl
  | succ fuel ih =>
    unfold drain HoldBack.drain
    rw [show t.toHoldBack.held[t.toHoldBack.last + 1]? = t.held[t.lastSeq + 1]? from rfl]
    cases t.held[t.lastSeq + 1]? with
    | none => rfl
    | some next => exact (ih _).trans (congrArg _ (toHoldBack_reduce { t with held := _ } next))

/-- **Offering an event to a transcript is offering it to the buffer.** -/
theorem toHoldBack_applySeq (t : Transcript) (seq : ℕ) (event : AgentEvent) :
    (t.applySeq seq event).1.toHoldBack = HoldBack.offer reduce t.toHoldBack seq event := by
  unfold applySeq HoldBack.offer
  split
  · exact (if_pos ‹_›).symm
  · refine Eq.trans ?_ (if_neg ‹_›).symm
    split
    · exact (if_pos ‹_›).symm
    case isFalse hnext =>
      obtain rfl : seq = t.lastSeq + 1 := not_not.1 hnext
      refine Eq.trans ?_ (if_neg hnext).symm
      rw [toHoldBack_drain, toHoldBack_reduce, reduce_held]
      rfl

/-! ### The indices point at what they are for -/

/-- What an item can be looked up as. -/
inductive Tag
  | assistant
  | tool (callId : String)
  | approval (approvalId : String)
  | other
  deriving DecidableEq

/-- The tag of an item. -/
def tag : TranscriptItem → Tag
  | .assistant _ _ _ => .assistant
  | .toolCall _ callId _ _ _ => .tool callId
  | .approval _ approvalId _ _ _ => .approval approvalId
  | _ => .other

/-- The tags of the items, in order. -/
def tags (t : Transcript) : List Tag := t.items.map tag

/-- Every index of the transcript points at an item of its kind and, where it has one, its id. -/
structure Valid (t : Transcript) : Prop where
  streaming : ∀ i, t.streaming = some i → t.tags[i]? = some Tag.assistant
  tools : ∀ callId i, t.toolIndex[callId]? = some i → t.tags[i]? = some (Tag.tool callId)
  approvals : ∀ approvalId i, t.approvalIndex[approvalId]? = some i →
    t.tags[i]? = some (Tag.approval approvalId)

theorem tag_endStreaming (item : TranscriptItem) : tag item.endStreaming = tag item := by
  cases item <;> rfl

theorem tag_pushText (delta : String) (item : TranscriptItem) :
    tag (item.pushText delta) = tag item := by
  cases item <;> rfl

theorem tag_resolve (decision : ApprovalDecision) (item : TranscriptItem) :
    tag (item.resolve decision) = tag item := by
  cases item <;> rfl

theorem tag_abandon (item : TranscriptItem) : tag item.abandon = tag item := by
  rcases item with _ | _ | _ | ⟨_, _, _, _, _ | _ | _⟩ | _ | _ | _ <;> rfl

/-- An update that keeps every item's tag keeps the tags. -/
theorem map_tag_modify {f : TranscriptItem → TranscriptItem} (hf : ∀ item, tag (f item) = tag item)
    (items : List TranscriptItem) (i : ℕ) : (items.modify i f).map tag = items.map tag := by
  refine List.ext_getElem? fun j ↦ ?_
  rw [List.getElem?_map, List.getElem?_map, List.getElem?_modify]
  cases items[j]? with
  | none => rfl
  | some item =>
    show some (tag (if i = j then f item else item)) = some (tag item)
    split
    · rw [hf]
    · rfl

/-- Replacing an item by one with its tag keeps the tags. -/
theorem map_tag_set {items : List TranscriptItem} {i : ℕ} {item : TranscriptItem}
    (h : (items.map tag)[i]? = some (tag item)) : (items.set i item).map tag = items.map tag := by
  rw [List.map_set]
  obtain ⟨hlt, hget⟩ := List.getElem?_eq_some_iff.1 h
  rw [← hget, List.set_getElem_self]

theorem Valid.endStream (h : t.Valid) : t.endStream.Valid := by
  unfold Transcript.endStream
  split
  · exact h
  · have htags : ∀ i, (t.items.modify i .endStreaming).map tag = t.tags :=
      map_tag_modify tag_endStreaming t.items
    refine ⟨fun i hi ↦ by simp at hi, fun callId i hi ↦ ?_, fun approvalId i hi ↦ ?_⟩
    · exact (congrArg (·[i]?) (htags _)).trans (h.tools callId i hi)
    · exact (congrArg (·[i]?) (htags _)).trans (h.approvals approvalId i hi)

theorem Valid.push (h : t.Valid) (item : TranscriptItem) : (t.push item).Valid := by
  have hmono : ∀ {i x}, t.tags[i]? = some x → (t.push item).tags[i]? = some x := fun {i x} hi ↦ by
    rw [tags, Transcript.push, List.map_append]
    exact (List.getElem?_append_left (List.getElem?_eq_some_iff.1 hi).1).trans hi
  exact ⟨fun i hi ↦ hmono (h.streaming i hi), fun callId i hi ↦ hmono (h.tools callId i hi),
    fun approvalId i hi ↦ hmono (h.approvals approvalId i hi)⟩

/-- A transcript with the indices and tags of a valid one is valid. -/
theorem Valid.congr (h : t.Valid) (htags : t'.tags = t.tags)
    (hstreaming : ∀ i, t'.streaming = some i → t.streaming = some i)
    (htools : t'.toolIndex = t.toolIndex) (happrovals : t'.approvalIndex = t.approvalIndex) :
    t'.Valid where
  streaming i hi := htags ▸ h.streaming i (hstreaming i hi)
  tools callId i hi := htags ▸ h.tools callId i (htools ▸ hi)
  approvals approvalId i hi := htags ▸ h.approvals approvalId i (happrovals ▸ hi)

/-- Registering one more item in an index that points at items of the right tag. -/
theorem insert_index {index : Std.ExtTreeMap String ℕ} {tags : List Tag} {mk : String → Tag}
    (h : ∀ id i, index[id]? = some i → tags[i]? = some (mk id)) {key : String} {n : ℕ}
    (hnew : tags[n]? = some (mk key)) :
    ∀ id i, (index.insert key n)[id]? = some i → tags[i]? = some (mk id) := by
  intro id i hi
  rw [Std.ExtTreeMap.getElem?_insert] at hi
  split at hi
  case isTrue heq =>
    obtain rfl : n = i := Option.some.inj hi
    rwa [← Std.LawfulEqCmp.compare_eq_iff_eq.1 heq]
  case isFalse => exact h id i hi

/-- The item pushed last is found at the old length. -/
theorem tags_push_length (t : Transcript) (item : TranscriptItem) :
    (t.push item).tags[t.items.length]? = some (tag item) := by
  rw [tags, push, List.map_append, List.getElem?_append_right (by simp)]
  simp

/-- **Reducing an event keeps every index valid.** -/
theorem Valid.reduceEvent (h : t.Valid) (seq : ℕ) (event : AgentEvent) :
    (t.reduceEvent seq event).Valid := by
  cases event with
  | userMessage text => exact h.endStream.push _
  | assistantDelta text =>
    simp only [Transcript.reduceEvent]
    split
    · exact h.congr (map_tag_modify (tag_pushText text) _ _) (fun _ hi ↦ hi) rfl rfl
    · have hp := h.push (.assistant seq text true)
      refine ⟨fun i hi ↦ ?_, hp.tools, hp.approvals⟩
      obtain rfl : t.items.length = i := Option.some.inj hi
      exact tags_push_length t _
  | assistantMessage text =>
    simp only [Transcript.reduceEvent]
    split
    case h_1 i hi =>
      exact h.congr (map_tag_set (h.streaming i hi)) (fun _ hi ↦ by simp at hi) rfl rfl
    case h_2 => exact h.push _
  | toolCall callId name input =>
    have hp := h.endStream.push (.toolCall seq callId name input none)
    exact ⟨hp.streaming, insert_index hp.tools (tags_push_length t.endStream _), hp.approvals⟩
  | toolResult callId output isError =>
    simp only [Transcript.reduceEvent]
    split
    case h_1 i seq' callId' name input result heq =>
      obtain ⟨j, hj, hitem⟩ := Option.bind_eq_some_iff.1 heq
      obtain ⟨item, hget, hpair⟩ := Option.map_eq_some_iff.1 hitem
      obtain ⟨rfl, rfl⟩ := Prod.mk.inj hpair
      refine h.congr (map_tag_set ?_) (fun _ hi ↦ hi) rfl rfl
      rw [List.getElem?_map, hget]
      rfl
    case h_2 =>
      have hp := h.push (.toolCall seq callId "" .null (some ⟨output, isError⟩))
      exact ⟨hp.streaming, insert_index hp.tools (tags_push_length t _), hp.approvals⟩
  | approvalRequested approvalId tool input =>
    have hp := h.endStream.push (.approval seq approvalId tool input .pending)
    exact ⟨hp.streaming, hp.tools, insert_index hp.approvals (tags_push_length t.endStream _)⟩
  | approvalResolved approvalId decision =>
    simp only [Transcript.reduceEvent]
    split
    · exact h.congr (map_tag_modify (tag_resolve decision) _ _) (fun _ hi ↦ hi) rfl rfl
    · exact h
  | usage inputTokens outputTokens => exact h.congr rfl (fun _ hi ↦ hi) rfl rfl
  | turnEnded outcome =>
    refine Valid.push ?_ _
    refine h.endStream.congr ?_ (fun _ hi ↦ hi) rfl rfl
    rw [tags, tags, List.map_map]
    exact List.map_congr_left fun item _ ↦ tag_abandon item
  | error | notice => exact h.push _
  | nativeSession | unknown => exact h

theorem Valid.reduce (h : t.Valid) (seq : ℕ) (event : AgentEvent) :
    (t.reduce seq event).Valid :=
  (h.congr rfl (fun _ hi ↦ hi) rfl rfl : { t with lastSeq := seq }.Valid).reduceEvent seq event

theorem valid_new : new.Valid := by
  refine ⟨fun i hi ↦ by simp [new] at hi, fun id i hi ↦ ?_, fun id i hi ↦ ?_⟩ <;>
    exact absurd hi (by simp [new])

theorem valid_ofLog (log : List AgentEvent) : (ofLog log).Valid := by
  induction log using List.reverseRecOn with
  | nil => exact valid_new
  | append_singleton log event ih =>
    rw [ofLog_concat]
    exact ih.reduce _ _

end Transcript

end Ember.Client
