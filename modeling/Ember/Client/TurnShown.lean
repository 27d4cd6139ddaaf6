import Ember.Client.Transcript
import Ember.Server.Agents.Acp

/-!
# What a turn of an ACP agent shows

The client reduces the events of a turn: a text that streams in, and its message once it is
complete, are one item. `Shown` is what an item is shown as, and what an event asks to be shown.

Where every event is proper (`Acp.Proper`) the items of the turn are those its events ask for, each
once and in order (`Reads`). An approval that is asked for while a message is being streamed ends
the item of the message; the message is then shown once more, and nothing takes that back
(`weight_read`). So a turn is shown right exactly if what came from the agent was clean
(`laws_iff`).
-/

namespace Ember.Client

open History Server.Acp

/-- What is shown, without the state it is shown in. -/
inductive Shown
  | text (s : String)
  | tool (callId : String)
  | approval (approvalId : String)
  deriving DecidableEq, Repr

/-- What an item is shown as. -/
def TranscriptItem.shown : TranscriptItem → Option Shown
  | .assistant _ text _ => some (.text text)
  | .toolCall _ callId _ _ _ => some (.tool callId)
  | .approval _ approvalId _ _ _ => some (.approval approvalId)
  | _ => none

/-- What an event of the agent asks to be shown. -/
def shownOf : Server.AgentEvent → Option Shown
  | .assistantMessage text => some (.text text)
  | .toolCall callId _ _ => some (.tool callId)
  | .approvalRequested approvalId _ _ => some (.approval approvalId)
  | _ => none

variable {s' : Transcript} {item : TranscriptItem}

namespace Transcript

/-- The events of the server, one after another. -/
def read (t : Transcript) (events : List Server.AgentEvent) : Transcript :=
  events.foldl (fun t e ↦ t.reduce (t.lastSeq + 1) (.decode e)) t

theorem read_concat (t : Transcript) (events : List Server.AgentEvent) (e : Server.AgentEvent) :
    t.read (events ++ [e]) = (t.read events).reduce ((t.read events).lastSeq + 1) (.decode e) := by
  rw [read, List.foldl_append]
  rfl

/-- The shown items. -/
def shown (t : Transcript) : List Shown := t.items.filterMap TranscriptItem.shown

variable {t s : Transcript} {events : List Server.AgentEvent} {e : Server.AgentEvent} {seq : ℕ}

/-- The transcript `s` after the events: what they ask for is shown, in order, and after it the text
that is being streamed. -/
structure Reads (t : Transcript) (events : List Server.AgentEvent) (s : Transcript) : Prop where
  valid : s.Valid
  indexed : ∀ id, 0 < calls id events → (s.toolIndex[id]?).isSome = true
  shows : (streamed events = "" ∧ s.streaming = none ∧
      s.shown = t.shown ++ events.filterMap shownOf) ∨
    ∃ items seq, streamed events ≠ "" ∧ s.streaming = some items.length ∧
      s.items = items ++ [.assistant seq (streamed events) true] ∧
      items.filterMap TranscriptItem.shown = t.shown ++ events.filterMap shownOf

/-- Replacing an item by one that is shown as the same shows the same. -/
theorem filterMap_shown_set {items : List TranscriptItem} {i : ℕ} {item' : TranscriptItem}
    (hget : items[i]? = some item) (hsame : item'.shown = item.shown) :
    (items.set i item').filterMap TranscriptItem.shown =
      items.filterMap TranscriptItem.shown := by
  induction items generalizing i with
  | nil => rfl
  | cons x rest ih =>
    cases i with
    | zero =>
      obtain rfl : x = item := Option.some.inj hget
      rw [List.set_cons_zero, List.filterMap_cons, List.filterMap_cons, hsame]
    | succ i => rw [List.set_cons_succ, List.filterMap_cons, List.filterMap_cons, ih hget]

/-- The card that a result of an announced tool call finds. -/
theorem card_of_indexed (h : s.Valid) {id : String} (hin : (s.toolIndex[id]?).isSome = true) :
    ∃ i seq name input result, s.toolIndex[id]? = some i ∧
      s.items[i]? = some (.toolCall seq id name input result) := by
  obtain ⟨i, hi⟩ := Option.isSome_iff_exists.1 hin
  have htag := h.tools id i hi
  rw [tags, List.getElem?_map] at htag
  obtain ⟨item, hitem, htag⟩ := Option.map_eq_some_iff.1 htag
  cases item with
  | toolCall seq callId name input result =>
    obtain rfl : callId = id := by simpa [tag] using htag
    exact ⟨i, seq, name, input, result, hi, hitem⟩
  | _ => simp [tag] at htag

theorem endStream_of_none (h : s.streaming = none) : s.endStream = s := by
  simp only [endStream, h]

theorem filterMap_shownOf_concat (events : List Server.AgentEvent) (e : Server.AgentEvent) :
    (events ++ [e]).filterMap shownOf = events.filterMap shownOf ++ (shownOf e).toList := by
  rw [List.filterMap_append, List.filterMap_cons, List.filterMap_nil]
  cases shownOf e <;> rfl

theorem filterMap_shownOf_of_none (events : List Server.AgentEvent) (he : shownOf e = none) :
    (events ++ [e]).filterMap shownOf = events.filterMap shownOf := by
  rw [filterMap_shownOf_concat, he, Option.toList_none, List.append_nil]

theorem modify_concat (items : List TranscriptItem) (item : TranscriptItem)
    (f : TranscriptItem → TranscriptItem) :
    (items ++ [item]).modify items.length f = items ++ [f item] := by
  induction items with
  | nil => rfl
  | cons x rest ih => exact congrArg (x :: ·) ih

section

variable (h : Reads t events s)
include h

/-- An event that announces no tool call leaves the announced ones indexed. -/
theorem Reads.indexed_concat (hcall : ∀ id, isCall id e = false)
    (hindex : s'.toolIndex = s.toolIndex) (id : String)
    (hid : 0 < calls id (events ++ [e])) : (s'.toolIndex[id]?).isSome = true := by
  rw [calls_concat, hcall, if_neg Bool.false_ne_true, Nat.add_zero] at hid
  rw [hindex]
  exact h.indexed id hid

/-- A delta starts an item, or goes to the one that is being streamed. -/
theorem Reads.delta {text : String} (hne : text ≠ "") (seq : ℕ) :
    Reads t (events ++ [.assistantDelta text]) (s.reduce seq (.assistantDelta text)) := by
  have hvalid := h.valid.reduce seq (.assistantDelta text)
  have hstreamed : streamed (events ++ [.assistantDelta text]) = streamed events ++ text :=
    streamed_concat events _
  have hfull : streamed events ++ text ≠ "" := fun heq ↦ hne (String.append_eq_empty_iff.1 heq).2
  rcases h.shows with ⟨hnone, hstream, hshown⟩ | ⟨items, seq', hsome, hstream, hitems, hshown⟩
  · have hreduce : s.reduce seq (.assistantDelta text) = { s with
        lastSeq := seq, streaming := some s.items.length
        items := s.items ++ [.assistant seq text true] } := by
      simp only [Transcript.reduce, reduceEvent, hstream, push]
    rw [hreduce] at hvalid ⊢
    refine ⟨hvalid, h.indexed_concat (fun _ ↦ rfl) rfl, .inr ⟨s.items, seq, ?_, rfl, ?_, ?_⟩⟩
    · rwa [hstreamed]
    · rw [hstreamed, hnone, String.empty_append]
    · rw [filterMap_shownOf_of_none events rfl]
      exact hshown
  · have hreduce : s.reduce seq (.assistantDelta text) = { s with
        lastSeq := seq
        items := items ++ [.assistant seq' (streamed events ++ text) true] } := by
      simp only [Transcript.reduce, reduceEvent, hstream, hitems]
      rw [modify_concat]
      rfl
    rw [hreduce] at hvalid ⊢
    refine ⟨hvalid, h.indexed_concat (fun _ ↦ rfl) rfl, .inr ⟨items, seq', ?_, hstream, ?_, ?_⟩⟩
    · rwa [hstreamed]
    · rw [hstreamed]
    · rw [filterMap_shownOf_of_none events rfl]
      exact hshown

/-- The complete message takes the place of the item that was streamed. -/
theorem Reads.message (hne : streamed events ≠ "") (seq : ℕ) :
    Reads t (events ++ [.assistantMessage (streamed events)])
      (s.reduce seq (.assistantMessage (streamed events))) := by
  have hvalid := h.valid.reduce seq (.assistantMessage (streamed events))
  rcases h.shows with ⟨hnone, -⟩ | ⟨items, seq', -, hstream, hitems, hshown⟩
  · exact absurd hnone hne
  · have hreduce : s.reduce seq (.assistantMessage (streamed events)) = { s with
        lastSeq := seq, streaming := none
        items := items ++ [.assistant seq (streamed events) false] } := by
      simp only [Transcript.reduce, reduceEvent, hstream, hitems]
      rw [List.set_append_right _ _ le_rfl, Nat.sub_self, List.set_cons_zero]
    rw [hreduce] at hvalid ⊢
    refine ⟨hvalid, h.indexed_concat (fun _ ↦ rfl) rfl, .inl ⟨streamed_concat events _, rfl, ?_⟩⟩
    rw [filterMap_shownOf_concat, ← List.append_assoc, ← hshown]
    exact List.filterMap_append

/-- A result goes to the card of its tool call. -/
theorem Reads.result {id : String} (hcall : 0 < calls id events)
    (output : String) (isError : Bool) (seq : ℕ) :
    Reads t (events ++ [.toolResult id output isError]) (s.reduce seq (.toolResult id output isError)) := by
  have hvalid := h.valid.reduce seq (.toolResult id output isError)
  have hstreamed : streamed (events ++ [.toolResult id output isError]) = streamed events :=
    streamed_concat events _
  obtain ⟨i, seq₀, name, input, result, hindex, hitem⟩ :=
    card_of_indexed h.valid (h.indexed id hcall)
  have hreduce : s.reduce seq (.toolResult id output isError) = { s with
      lastSeq := seq
      items := s.items.set i (.toolCall seq₀ id name input (some ⟨output, isError⟩)) } := by
    simp only [Transcript.reduce, reduceEvent, hindex, Option.bind_some, hitem, Option.map_some]
  rw [hreduce] at hvalid ⊢
  refine ⟨hvalid, h.indexed_concat (fun _ ↦ rfl) rfl, ?_⟩
  rw [hstreamed, filterMap_shownOf_of_none events rfl]
  have hsame : (TranscriptItem.toolCall seq₀ id name input (some ⟨output, isError⟩)).shown =
      (TranscriptItem.toolCall seq₀ id name input result).shown := rfl
  rcases h.shows with ⟨hnone, hstream, hshown⟩ | ⟨items, seq', hne, hstream, hitems, hshown⟩
  · refine .inl ⟨hnone, hstream, ?_⟩
    exact (filterMap_shown_set hitem hsame).trans hshown
  · -- The card is not the item that is being streamed.
    have hlt : i < items.length := by
      rw [hitems] at hitem
      rcases Nat.lt_trichotomy i items.length with hlt | rfl | hgt
      · exact hlt
      · simp at hitem
      · rw [List.getElem?_eq_none (by simp; omega)] at hitem
        cases hitem
    refine .inr ⟨items.set i (.toolCall seq₀ id name input (some ⟨output, isError⟩)), seq', hne,
      by rw [List.length_set]; exact hstream, ?_, ?_⟩
    · show s.items.set i _ = _
      rw [hitems, List.set_append_left _ _ hlt]
    · rw [hitems, List.getElem?_append_left hlt] at hitem
      exact (filterMap_shown_set hitem hsame).trans hshown

/-- A card goes to the end while nothing is being streamed. -/
theorem Reads.card (hnone : streamed events = "") (hvalid : s'.Valid)
    (hstreamed : stream "" e = "")
    (hindexed : ∀ id, 0 < calls id (events ++ [e]) → (s'.toolIndex[id]?).isSome = true)
    (hstream : s'.streaming = s.streaming) (hitems : s'.items = s.items ++ [item])
    (hitem : item.shown = shownOf e) : Reads t (events ++ [e]) s' := by
  rcases h.shows with ⟨-, hs, hshown⟩ | ⟨items, seq', hne, -⟩
  · refine ⟨hvalid, hindexed, .inl ⟨?_, hstream.trans hs, ?_⟩⟩
    · rw [streamed_concat, hnone, hstreamed]
    · rw [Transcript.shown, hitems, List.filterMap_append, filterMap_shownOf_concat,
        ← List.append_assoc, ← hshown, List.filterMap_cons, List.filterMap_nil, hitem]
      cases shownOf e <;> rfl
  · exact absurd hnone hne

/-- **One event of the mapper.** -/
theorem Reads.reduce (hemitted : Emitted events e) (hproper : Proper events e)
    (seq : ℕ) : Reads t (events ++ [e]) (s.reduce seq (.decode e)) := by
  have hnone : streamed events = "" → s.streaming = none := fun hempty ↦ by
    rcases h.shows with ⟨-, hs, -⟩ | ⟨_, _, hne, -⟩
    · exact hs
    · exact absurd hempty hne
  cases e with
  | assistantDelta text => exact h.delta hemitted seq
  | assistantMessage text =>
    obtain ⟨rfl, hne⟩ := hemitted
    exact h.message hne seq
  | toolCall callId name input =>
    have hend : ({ s with lastSeq := seq } : Transcript).endStream = { s with lastSeq := seq } :=
      endStream_of_none (hnone hemitted)
    have hreduce : s.reduce seq (.toolCall callId name input) = { s with
        lastSeq := seq, toolIndex := s.toolIndex.insert callId s.items.length
        items := s.items ++ [.toolCall seq callId name input none] } := by
      simp only [Transcript.reduce, reduceEvent, hend, push]
    have hvalid := h.valid.reduce seq (.toolCall callId name input)
    refine h.card hemitted hvalid rfl (fun id hid ↦ ?_) (by rw [AgentEvent.decode, hreduce])
      (by rw [AgentEvent.decode, hreduce]) rfl
    rw [AgentEvent.decode, hreduce]
    show ((s.toolIndex.insert callId s.items.length)[id]?).isSome = true
    rw [Std.ExtTreeMap.getElem?_insert]
    split
    · rfl
    case isFalse hne =>
      refine h.indexed id ?_
      have hother : isCall id (.toolCall callId name input) = false :=
        Bool.eq_false_iff.2 fun heq ↦ hne (Std.LawfulEqCmp.compare_eq_iff_eq.2 (beq_iff_eq.1 heq))
      rwa [calls_concat, hother, if_neg Bool.false_ne_true, Nat.add_zero] at hid
  | toolResult callId output isError => exact h.result hemitted output isError seq
  | approvalRequested approvalId tool input =>
    have hend : ({ s with lastSeq := seq } : Transcript).endStream = { s with lastSeq := seq } :=
      endStream_of_none (hnone hproper)
    have hreduce : s.reduce seq (.approvalRequested approvalId tool input) = { s with
        lastSeq := seq, approvalIndex := s.approvalIndex.insert approvalId s.items.length
        items := s.items ++ [.approval seq approvalId tool input .pending] } := by
      simp only [Transcript.reduce, reduceEvent, hend, push]
    have hvalid := h.valid.reduce seq (.approvalRequested approvalId tool input)
    exact h.card hproper hvalid rfl
      (h.indexed_concat (fun _ ↦ rfl) (by rw [AgentEvent.decode, hreduce]))
      (by rw [AgentEvent.decode, hreduce]) (by rw [AgentEvent.decode, hreduce]) rfl
  | _ => exact hemitted.elim

end

/-- **The events of the mapper**, one after another. -/
theorem reads_read (ht : t.Valid) (hstream : t.streaming = none)
    (hemitted : Throughout Emitted events) (hproper : Throughout Proper events) :
    Reads t events (t.read events) := by
  induction events using List.reverseRecOn with
  | nil =>
    exact ⟨ht, fun id hid ↦ absurd hid (lt_irrefl 0), .inl ⟨rfl, hstream, (List.append_nil _).symm⟩⟩
  | append_singleton events e ih =>
    obtain ⟨hemitted, he⟩ := throughout_concat_iff.1 hemitted
    obtain ⟨hproper, hp⟩ := throughout_concat_iff.1 hproper
    rw [read_concat]
    exact (ih hemitted hproper).reduce he hp _

/-! ### A message that is shown twice -/

/-- How many items are shown. -/
def weight (t : Transcript) : ℕ := t.tags.countP (· ≠ Tag.other)

theorem length_shown (t : Transcript) : t.shown.length = t.weight := by
  rw [shown, weight, tags, List.length_filterMap_eq_countP, List.countP_map]
  refine List.countP_congr fun item _ ↦ ?_
  cases item <;> simp [TranscriptItem.shown, tag]

theorem weight_congr (h : s.items.map tag = t.items.map tag) : s.weight = t.weight :=
  congrArg (List.countP fun tag ↦ decide (tag ≠ Tag.other)) h

theorem weight_endStream (t : Transcript) : t.endStream.weight = t.weight := by
  simp only [endStream]
  split
  · rfl
  · exact weight_congr (map_tag_modify tag_endStreaming _ _)

theorem weight_push (t : Transcript) (hitem : tag item ≠ .other) :
    (t.push item).weight = t.weight + 1 := by
  rw [weight, weight, tags, tags, push, List.map_append, List.countP_append, List.map_singleton,
    List.countP_singleton, if_pos (decide_eq_true hitem)]

theorem streaming_endStream (t : Transcript) : t.endStream.streaming = none := by
  simp only [endStream]
  split
  case h_1 hnone => exact hnone
  case h_2 => rfl

variable (seq : ℕ) (id text output : String) (input : Value) (isError : Bool)

/-- A delta starts an item unless one is being streamed. -/
theorem weight_delta (s : Transcript) :
    (s.reduce seq (.assistantDelta text)).streaming.isSome = true ∧
      (s.reduce seq (.assistantDelta text)).weight + s.streaming.isSome.toNat = s.weight + 1 := by
  cases hs : s.streaming with simp only [Transcript.reduce, reduceEvent, hs]
  | some i =>
    exact ⟨rfl, congrArg (· + 1) (weight_congr (map_tag_modify (tag_pushText text) _ _))⟩
  | none =>
    exact ⟨rfl, weight_push { s with lastSeq := seq, streaming := some s.items.length } (by simp [tag])⟩

/-- A complete message takes the place of the item that is being streamed. -/
theorem weight_message (hs : s.Valid) :
    (s.reduce seq (.assistantMessage text)).streaming = none ∧
      s.weight + 1 = (s.reduce seq (.assistantMessage text)).weight + s.streaming.isSome.toNat := by
  cases hstream : s.streaming with simp only [Transcript.reduce, reduceEvent, hstream]
  | some i =>
    have htag : (s.items.map tag)[i]? = some Tag.assistant := hs.streaming i hstream
    exact ⟨trivial, (congrArg (· + 1) (weight_congr (map_tag_set htag))).symm⟩
  | none =>
    exact ⟨rfl, (weight_push { s with lastSeq := seq, streaming := none } (by simp [tag])).symm⟩

/-- A card, before which the item that is being streamed is ended. -/
theorem weight_toolCall (s : Transcript) (name : String) :
    (s.reduce seq (.toolCall id name input)).streaming = none ∧
      (s.reduce seq (.toolCall id name input)).weight = s.weight + 1 := by
  refine ⟨streaming_endStream _, (weight_push _ (by simp [tag])).trans (congrArg (· + 1) ?_)⟩
  exact weight_endStream _

theorem weight_approvalRequested (s : Transcript) (tool : String) :
    (s.reduce seq (.approvalRequested id tool input)).streaming = none ∧
      (s.reduce seq (.approvalRequested id tool input)).weight = s.weight + 1 := by
  refine ⟨streaming_endStream _, (weight_push _ (by simp [tag])).trans (congrArg (· + 1) ?_)⟩
  exact weight_endStream _

/-- A result makes a card at most. -/
theorem weight_toolResult (s : Transcript) :
    (s.reduce seq (.toolResult id output isError)).streaming = s.streaming ∧
      s.weight ≤ (s.reduce seq (.toolResult id output isError)).weight := by
  simp only [Transcript.reduce, reduceEvent]
  split
  case h_1 i seq' callId name input result heq =>
    obtain ⟨j, hj, hitem⟩ := Option.bind_eq_some_iff.1 heq
    obtain ⟨item, hget, hpair⟩ := Option.map_eq_some_iff.1 hitem
    obtain ⟨rfl, rfl⟩ := Prod.mk.inj hpair
    refine ⟨rfl, (weight_congr (map_tag_set ?_)).ge⟩
    rw [List.getElem?_map, hget]
    rfl
  case h_2 => exact ⟨rfl, (Nat.le_succ _).trans (weight_push _ (by simp [tag])).ge⟩

/-- No message is being streamed when an approval is asked for. -/
def Asked (pre : List Server.AgentEvent) (e : Server.AgentEvent) : Prop :=
  ∀ approvalId tool input, e = .approvalRequested approvalId tool input → streamed pre = ""

/-- The transcript `s` after the events shows at least what they ask for, and what is being
streamed. Either it streams where the mapper does and no approval was asked for during a message, or
there is one item too many. -/
structure Weighs (t : Transcript) (events : List Server.AgentEvent) (s : Transcript) : Prop where
  valid : s.Valid
  enough : t.weight + (events.filterMap shownOf).length + s.streaming.isSome.toNat ≤ s.weight
  twice : ((s.streaming.isSome = true ↔ streamed events ≠ "") ∧ Throughout Asked events) ∨
    t.weight + (events.filterMap shownOf).length + 1 + s.streaming.isSome.toNat ≤ s.weight

theorem Weighs.next (h : Weighs t events s) (hvalid : s'.Valid)
    (hgrows : s.weight + (shownOf e).toList.length + s'.streaming.isSome.toNat ≤
      s'.weight + s.streaming.isSome.toNat)
    (htwice : (s.streaming.isSome = true ↔ streamed events ≠ "") →
      (s'.streaming.isSome = true ↔ stream (streamed events) e ≠ "") ∧ Asked events e ∨
        s.weight + (shownOf e).toList.length + 1 + s'.streaming.isSome.toNat ≤
          s'.weight + s.streaming.isSome.toNat) : Weighs t (events ++ [e]) s' := by
  have henough := h.enough
  have hshown : ((events ++ [e]).filterMap shownOf).length =
      (events.filterMap shownOf).length + (shownOf e).toList.length := by
    rw [filterMap_shownOf_concat, List.length_append]
  refine ⟨hvalid, by omega, ?_⟩
  rcases h.twice with ⟨hopen, hasked⟩ | htwo
  · rcases htwice hopen with ⟨hopen', hasked'⟩ | htwo
    · exact .inl ⟨by rw [streamed_concat]; exact hopen', hasked.concat hasked'⟩
    · exact .inr (by omega)
  · exact .inr (by omega)

/-- **One event of the mapper** takes back no item; an approval that ends the item of a message
leaves one too many. -/
theorem Weighs.reduce (h : Weighs t events s) (hemitted : Emitted events e) :
    Weighs t (events ++ [e]) (s.reduce seq (.decode e)) := by
  have hvalid := h.valid.reduce seq (.decode e)
  cases e with
  | assistantDelta text =>
    obtain ⟨hopen, hweight⟩ := weight_delta seq text s
    refine h.next hvalid ?_ fun _ ↦ .inl ⟨iff_of_true hopen ?_, fun _ _ _ h ↦ by cases h⟩
    · rw [AgentEvent.decode, hopen]
      exact hweight.ge
    · exact fun heq ↦ hemitted (String.append_eq_empty_iff.1 heq).2
  | assistantMessage text =>
    obtain ⟨hclosed, hweight⟩ := weight_message seq text h.valid
    refine h.next hvalid ?_ fun _ ↦ .inl ⟨?_, fun _ _ _ h ↦ by cases h⟩
    · rw [AgentEvent.decode, hclosed]
      exact hweight.le
    · rw [AgentEvent.decode, hclosed]
      simp [stream]
  | toolCall callId name input =>
    obtain ⟨hclosed, hweight⟩ := weight_toolCall seq callId input s name
    refine h.next hvalid ?_ fun _ ↦ .inl ⟨?_, fun _ _ _ h ↦ by cases h⟩
    · rw [AgentEvent.decode, hclosed, hweight]
      exact Nat.le_add_right _ _
    · show _ ↔ streamed events ≠ ""
      rw [AgentEvent.decode, hclosed, show streamed events = "" from hemitted]
      simp
  | toolResult callId output isError =>
    obtain ⟨hsame, hweight⟩ := weight_toolResult seq callId output isError s
    refine h.next hvalid ?_ fun hopen ↦ .inl ⟨?_, fun _ _ _ h ↦ by cases h⟩
    · rw [AgentEvent.decode, hsame]
      exact Nat.add_le_add_right hweight _
    · rw [AgentEvent.decode, hsame]
      exact hopen
  | approvalRequested approvalId tool input =>
    obtain ⟨hclosed, hweight⟩ := weight_approvalRequested seq approvalId input s tool
    refine h.next hvalid ?_ fun hopen ↦ ?_
    · rw [AgentEvent.decode, hclosed, hweight]
      exact Nat.le_add_right _ _
    · rw [AgentEvent.decode, hclosed, hweight]
      by_cases hnone : streamed events = ""
      · exact .inl ⟨by simp [stream, hnone], fun _ _ _ _ ↦ hnone⟩
      · -- The item of the message is ended, and counts beside the message's own.
        rw [hopen.2 hnone]
        exact .inr le_rfl
  | _ => exact hemitted.elim

theorem weighs_read (ht : t.Valid) (hstream : t.streaming = none)
    (hemitted : Throughout Emitted events) : Weighs t events (t.read events) := by
  induction events using List.reverseRecOn with
  | nil =>
    refine ⟨ht, ?_, .inl ⟨?_, throughout_nil⟩⟩
    · show t.weight + 0 + t.streaming.isSome.toNat ≤ t.weight
      rw [hstream]
      exact le_rfl
    · show t.streaming.isSome = true ↔ _
      rw [hstream]
      simp [streamed]
  | append_singleton events e ih =>
    obtain ⟨hemitted, he⟩ := throughout_concat_iff.1 hemitted
    rw [read_concat]
    exact (ih hemitted).reduce _ he

/-- The items are those the events ask for only if no message is being streamed when an approval is
asked for. -/
theorem asked_of_shown (ht : t.Valid) (hstream : t.streaming = none)
    (hemitted : Throughout Emitted events)
    (hshown : (t.read events).shown = t.shown ++ events.filterMap shownOf) :
    Throughout Asked events := by
  have h := weighs_read ht hstream hemitted
  refine (h.twice.resolve_right fun htwo ↦ ?_).2
  have hlength := congrArg List.length hshown
  rw [List.length_append, length_shown, length_shown] at hlength
  omega

/-! ### A turn -/

/-- What the events of a turn are to be. -/
structure TurnLaws (toJson : Value → String) (m : Mapper) (incoming : List Incoming) : Prop where
  /-- The messages are the deltas. -/
  complete : String.join ((m.turn toJson incoming).filterMap messageOf) =
    String.join ((m.turn toJson incoming).filterMap deltaOf)
  /-- Every message is the deltas since the one before. -/
  each : ∀ pre text post, m.turn toJson incoming = pre ++ .assistantMessage text :: post →
    text = streamed pre
  /-- A result comes after the one announcement of its tool call, and is the only one. -/
  results : ∀ pre id output isError post,
    m.turn toJson incoming = pre ++ .toolResult id output isError :: post →
      calls id pre = 1 ∧ results id (pre ++ post) = 0
  /-- An approval for a tool call comes after its announcement. -/
  approvals : ∀ before approvalId toolCall id rest,
    incoming = before ++ .permission approvalId toolCall :: rest → toolCallId toolCall = some id →
      ∃ pre tool input, (m.run toJson (before ++ [.permission approvalId toolCall])).2 =
        pre ++ [.approvalRequested approvalId tool input] ∧ 0 < calls id pre
  /-- The client shows every text once, in order with the cards. -/
  shown : ∀ t : Transcript, t.Valid → t.streaming = none →
    (t.read (m.turn toJson incoming)).streaming = none ∧
      (t.read (m.turn toJson incoming)).shown =
        t.shown ++ (m.turn toJson incoming).filterMap shownOf

/-- A result that comes later is not there before. -/
theorem results_append (h : Throughout Proper events) {pre post : List Server.AgentEvent} {id : String}
    {output : String} {isError : Bool} (heq : events = pre ++ .toolResult id output isError :: post) :
    results id (pre ++ post) = 0 := by
  have hpre : results id pre = 0 := (h pre _ post heq).2
  rw [results, List.countP_append, ← results, hpre, Nat.zero_add, List.countP_eq_zero]
  intro e he hresult
  obtain ⟨l, r, rfl⟩ := List.append_of_mem he
  cases e with
  | toolResult callId output' isError' =>
    obtain rfl : callId = id := beq_iff_eq.1 hresult
    have hlater : results callId (pre ++ .toolResult callId output isError :: l) = 0 :=
      (h (pre ++ .toolResult callId output isError :: l) (.toolResult callId output' isError') r
        (by simp [heq])).2
    rw [results, List.countP_append, List.countP_cons] at hlater
    simp [isResult] at hlater
  | _ => cases hresult

/-- **A turn is as it should be exactly if what came from the agent was clean.** -/
theorem laws_iff (toJson : Value → String) (m : Mapper) (incoming : List Incoming) :
    TurnLaws toJson m.endTurn.1 incoming ↔
      StepSystem.AllMeet (fun m i ↦ (m.step toJson i).1) (Mapper.Clean m.plans) m.endTurn.1
        incoming := by
  obtain ⟨hturn, hdone⟩ := m.keeps_turn toJson incoming
  have hemitted : Throughout Emitted (m.endTurn.1.turn toJson incoming) :=
    hturn.emitted throughout_nil
  have hproper : Throughout Proper (m.endTurn.1.turn toJson incoming) ↔ _ :=
    hturn.proper.trans (and_iff_right throughout_nil)
  rw [← hproper]
  constructor
  · intro h pre e post heq
    cases e with
    | toolResult id output isError =>
      obtain ⟨hcalls, hresults⟩ := h.results pre id output isError post heq
      rw [results, List.countP_append] at hresults
      exact ⟨hcalls, (Nat.add_eq_zero_iff.1 hresults).1⟩
    | approvalRequested approvalId tool input =>
      exact asked_of_shown valid_new rfl hemitted (h.shown new valid_new rfl).2 pre _ post heq
        approvalId tool input rfl
    | _ => trivial
  · intro h
    refine ⟨?_, fun pre text post heq ↦ (hemitted pre _ post heq).1,
      fun pre id output isError post heq ↦ ⟨(h pre _ post heq).1, results_append h heq⟩,
      fun before approvalId toolCall id rest _ hid ↦
        m.announced_of_permission toJson before approvalId toolCall hid, fun t ht hstream ↦ ?_⟩
    · rw [← join_messages hemitted, hdone, String.append_empty]
    · rcases (reads_read ht hstream hemitted h).shows with ⟨-, hnone, hshown⟩ | ⟨_, _, hne, -⟩
      · exact ⟨hnone, hshown⟩
      · exact absurd hdone hne

/-- A tool call, a chunk of a message, and a permission request for the tool call. -/
def askedDuringMessage : List Incoming :=
  [.update (.obj [("sessionUpdate", .str "tool_call"), ("toolCallId", .str "call-1")]) ⟨fun _ ↦ none⟩,
    .update (.obj [("sessionUpdate", .str "agent_message_chunk"),
      ("content", .obj [("text", .str "Let me look.")])]) ⟨fun _ ↦ none⟩,
    .permission "acp-1" (.obj [("toolCallId", .str "call-1")])]

/-- **The text before an approval is shown twice.** -/
theorem not_laws :
    ¬ ∀ (toJson : Value → String) (m : Mapper) (incoming : List Incoming),
      TurnLaws toJson m.endTurn.1 incoming := by
  intro hall
  have hshown := ((hall (fun _ ↦ "") .default askedDuringMessage).shown new valid_new rfl).2
  have htwice : (new.read (Mapper.default.endTurn.1.turn (fun _ ↦ "") askedDuringMessage)).shown =
      [.tool "call-1", .text "Let me look.", .approval "acp-1", .text "Let me look."] := by
    decide +kernel
  have hasked : (Mapper.default.endTurn.1.turn (fun _ ↦ "") askedDuringMessage).filterMap shownOf =
      [.tool "call-1", .approval "acp-1", .text "Let me look."] := by
    decide +kernel
  rw [htwice, hasked] at hshown
  exact absurd hshown (by decide)

end Transcript

end Ember.Client
