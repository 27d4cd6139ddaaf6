import Ember.Client.Session

/-!
# Transcripts depend only on what was received

A session's events reach its transcript through pushes and fetches, in any order and any number of
times. What the transcript is at any moment is determined by the set of sequence numbers received
since the conversation was first opened: it is the reduction of the longest complete prefix of the
log among them, and it holds the rest back.

The argument is the hold-back buffer's (`HoldBack.Inv`); this file only reads it at the client.
A transcript exists from the first opening of its conversation on, and an event that arrives before
that leaves no trace in it.
-/

namespace Ember.Client

/-- The events of the session that an input delivers are events of the log, under their numbers. -/
def Input.FromLog (id : String) (log : List Server.AgentEvent) (input : Input) : Prop :=
  ∀ ev ∈ input.deliveries id, 0 < ev.seq ∧ (decodeLog log)[ev.seq - 1]? = some ev.event

/-- The sequence numbers of a session that a list of inputs delivers. -/
def received (id : String) (inputs : List Input) : Set ℕ :=
  {k | ∃ input ∈ inputs, ∃ ev ∈ input.deliveries id, ev.seq = k}

/-- The inputs from the first opening of the conversation on. -/
def sinceOpened (id : String) (inputs : List Input) : List Input :=
  inputs.dropWhile fun input ↦ !input.opens id

variable {id : String} {log : List Server.AgentEvent}

variable {input : Input}

theorem Input.opens_iff : input.opens id = true ↔ input = .opened id := by
  cases input <;> simp [Input.opens]

theorem received_nil : received id [] = ∅ :=
  Set.eq_empty_iff_forall_notMem.2 fun _ ⟨_, hmem, _⟩ ↦ absurd hmem List.not_mem_nil

theorem received_cons (input : Input) (inputs : List Input) :
    received id (input :: inputs) =
      {k | ∃ ev ∈ input.deliveries id, ev.seq = k} ∪ received id inputs := by
  ext k
  simp [received]

/-- Offering events to a transcript is offering them to its buffer. -/
theorem toHoldBack_foldl (events : List StoredEvent) (t : Transcript) :
    (events.foldl (fun t ev ↦ (t.apply ev).1) t).toHoldBack =
      (events.map fun ev ↦ (ev.seq, ev.event)).foldl
        (fun b p ↦ HoldBack.offer Transcript.reduce b p.1 p.2) t.toHoldBack := by
  induction events generalizing t with
  | nil => rfl
  | cons ev events ih =>
    rw [List.foldl_cons, ih, Transcript.apply, Transcript.toHoldBack_applySeq, List.map_cons,
      List.foldl_cons]

/-- What the client's transcript of the session is after receiving a set of numbers. -/
def TranscriptAt (id : String) (log : List Server.AgentEvent) (S : Set ℕ) (s : State) : Prop :=
  ∃ t, s.transcript id = some t ∧
    HoldBack.Inv Transcript.reduce .new (decodeLog log) S t.toHoldBack

variable {s : State}

/-- **One input** adds the numbers it delivers to the set received. -/
theorem TranscriptAt.apply {S : Set ℕ} (h : TranscriptAt id log S s) (hlog : input.FromLog id log) :
    TranscriptAt id log (S ∪ {k | ∃ ev ∈ input.deliveries id, ev.seq = k}) (s.apply input).1 := by
  obtain ⟨t, ht, hinv⟩ := h
  refine ⟨(input.deliveries id).foldl (fun t ev ↦ (t.apply ev).1) t, ?_, ?_⟩
  · rw [State.transcript, State.apply_transcripts, show s.transcripts[id]? = some t from ht]
    split <;> rfl
  · have hset : {k | ∃ ev ∈ input.deliveries id, ev.seq = k} =
        {k | ∃ e, (k, e) ∈ (input.deliveries id).map fun ev ↦ (ev.seq, ev.event)} := by
      ext k
      simp only [Set.mem_ofPred_eq, List.mem_map, Prod.mk.injEq]
      exact ⟨fun ⟨ev, hev, hk⟩ ↦ ⟨ev.event, ev, hev, hk, rfl⟩,
        fun ⟨_, ev, hev, hk, _⟩ ↦ ⟨ev, hev, hk⟩⟩
    rw [toHoldBack_foldl, hset]
    refine hinv.offers _ fun p hp ↦ ?_
    obtain ⟨ev, hev, rfl⟩ := List.mem_map.1 hp
    exact hlog ev hev

variable {inputs : List Input}

/-- Any run from an open conversation adds the numbers it delivers. -/
theorem TranscriptAt.run {S : Set ℕ} (h : TranscriptAt id log S s)
    (hlog : ∀ input ∈ inputs, input.FromLog id log) :
    TranscriptAt id log (S ∪ received id inputs) (s.run inputs) := by
  induction inputs generalizing S s with
  | nil => rwa [received_nil, Set.union_empty]
  | cons input inputs ih =>
    rw [received_cons, ← Set.union_assoc]
    exact ih (h.apply (hlog input List.mem_cons_self))
      fun i hi ↦ hlog i (List.mem_cons_of_mem _ hi)

/-- Without a transcript, an input that does not open the conversation creates none. -/
theorem apply_transcript_none (h : s.transcript id = none)
    (hopens : input.opens id = false) : (s.apply input).1.transcript id = none := by
  rw [State.transcript, State.apply_transcripts, if_neg (by rw [hopens]; exact Bool.false_ne_true),
    show s.transcripts[id]? = none from h]
  rfl

/-- Opening a conversation for the first time starts its transcript with nothing received. -/
theorem transcriptAt_opened (h : s.transcript id = none) :
    TranscriptAt id log ∅ (s.apply (.opened id)).1 := by
  refine ⟨.new, ?_, HoldBack.inv_empty⟩
  rw [State.transcript, State.apply_transcripts, show s.transcripts[id]? = none from h]
  simp [Input.opens, Input.deliveries]

/-- **The run lemma.** After any run, either the conversation was never opened and has no
transcript, or its transcript is the one of the numbers received since it was. -/
theorem run_transcript (h : s.transcript id = none)
    (hlog : ∀ input ∈ inputs, input.FromLog id log) :
    (s.run inputs).transcript id = none ∨
      TranscriptAt id log (received id (sinceOpened id inputs)) (s.run inputs) := by
  induction inputs generalizing s with
  | nil => exact .inl h
  | cons input inputs ih =>
    have hrest : ∀ i ∈ inputs, i.FromLog id log := fun i hi ↦ hlog i (List.mem_cons_of_mem _ hi)
    cases hopens : input.opens id with
    | false =>
      rw [sinceOpened, List.dropWhile_cons_of_pos (by simp [hopens])]
      exact ih (apply_transcript_none h hopens) hrest
    | true =>
      rw [sinceOpened, List.dropWhile_cons_of_neg (by simp [hopens])]
      obtain rfl := Input.opens_iff.1 hopens
      refine .inr ?_
      have hempty : TranscriptAt id log ∅ (s.apply (.opened id)).1 := transcriptAt_opened h
      have hrun := hempty.run hrest
      rw [Set.empty_union] at hrun
      rw [received_cons, show {k | ∃ ev ∈ (Input.opened id).deliveries id, ev.seq = k} = ∅ from
        Set.eq_empty_iff_forall_notMem.2 fun _ ⟨_, hev, _⟩ ↦ absurd hev List.not_mem_nil,
        Set.empty_union]
      exact hrun

/-- A client that has just started has no transcript. -/
theorem State.Started.transcript (h : s.Started) (id : String) :
    s.transcript id = none := by
  cases h <;> simp [State.transcript, State.new, State.fromCache]

/-- Once its conversation was opened, a session has a transcript. -/
theorem transcript_ne_none_of_opened
    (hmem : Input.opened id ∈ inputs) : (s.run inputs).transcript id ≠ none := by
  -- once there is a transcript, every later input keeps one
  have hkeep : ∀ (inputs : List Input) (s : State), s.transcript id ≠ none →
      (s.run inputs).transcript id ≠ none := by
    intro inputs
    induction inputs with
    | nil => exact fun s hs ↦ hs
    | cons input inputs ih =>
      refine fun s hs ↦ ih _ ?_
      obtain ⟨t, ht⟩ := Option.ne_none_iff_exists'.1 hs
      rw [State.transcript, State.apply_transcripts, show s.transcripts[id]? = some t from ht]
      split <;> exact Option.some_ne_none _
  obtain ⟨pre, post, rfl⟩ := List.append_of_mem hmem
  rw [State.run, List.foldl_append, List.foldl_cons]
  refine hkeep post _ ?_
  rw [State.transcript, State.apply_transcripts]
  simp [Input.opens]

/-- **A transcript is the reduction of what was received.** After any run of a client in which the
conversation was opened, in whatever order, chunking and repetition the session's events came: the
transcript is the log reduced up to `lastSeq`, that is the largest number up to which everything was
received since the opening, and another client that received the same numbers since its own opening
holds the same transcript. -/
theorem transcript_eq_reduction_of_received {s : State} (hs : s.Started) {inputs : List Input}
    (hopened : Input.opened id ∈ inputs) (hlog : ∀ input ∈ inputs, input.FromLog id log) :
    ∃ t, (s.run inputs).transcript id = some t ∧
      { t with held := ∅ } = Transcript.ofLog ((decodeLog log).take t.lastSeq) ∧
      (∀ k, k ≤ t.lastSeq ↔
        ∀ j, 0 < j → j ≤ k → j ∈ received id (sinceOpened id inputs)) ∧
      ∀ {s' : State} {inputs' : List Input} {t' : Transcript}, s'.Started →
        (∀ input ∈ inputs', input.FromLog id log) → (s'.run inputs').transcript id = some t' →
        received id (sinceOpened id inputs') = received id (sinceOpened id inputs) → t' = t := by
  obtain ⟨t, ht, hinv⟩ := (run_transcript (hs.transcript id) hlog).resolve_left
    (transcript_ne_none_of_opened hopened)
  refine ⟨t, ht, hinv.acc, fun k ↦ hinv.le_last_iff k, fun {s' inputs' t'} hs' hlog' ht' hsame ↦ ?_⟩
  rcases run_transcript (hs'.transcript id) hlog' with hnone | ⟨t'', ht'', hinv'⟩
  · exact absurd (ht'.symm.trans hnone) (Option.some_ne_none _)
  · obtain rfl : t'' = t' := Option.some.inj (ht''.symm.trans ht')
    rw [hsame] at hinv'
    exact Transcript.toHoldBack_injective (hinv'.unique hinv)

/-- The two events of a small log come by push, the second one first and the first one twice. -/
theorem transcript_eq_reduction_of_received_reordered :
    let log : List Server.AgentEvent := [.userMessage "hi", .assistantMessage "hello"]
    let inputs : List Input :=
      [.opened "s", .push (.event .running ⟨"s", 2, 7, .assistantMessage "hello"⟩),
        .eventsFetched "s" [⟨"s", 1, 7, .userMessage "hi"⟩],
        .push (.event .running ⟨"s", 1, 7, .userMessage "hi"⟩)]
    ∃ t, (State.new.run inputs).transcript "s" = some t ∧
      { t with held := ∅ } = Transcript.ofLog ((decodeLog log).take t.lastSeq) := by
  intro log inputs
  have hopened : Input.opened "s" ∈ inputs := List.mem_cons_self
  have hlog : ∀ input ∈ inputs, input.FromLog "s" log := by
    simp [inputs, log, Input.FromLog, Input.deliveries, decodeLog, AgentEvent.decode]
  obtain ⟨t, ht, hred, -⟩ := transcript_eq_reduction_of_received .new hopened hlog
  exact ⟨t, ht, hred⟩

/-- Counting what was received before the conversation was opened, the reduction is not the whole
received prefix: an event pushed before the opening is not in the transcript. -/
theorem transcript_not_reduction_of_all_received :
    ¬ ∀ (id : String) (log : List Server.AgentEvent) (inputs : List Input) (t : Transcript),
      (∀ input ∈ inputs, input.FromLog id log) → (State.new.run inputs).transcript id = some t →
      ∀ k, k ≤ t.lastSeq ↔ ∀ j, 0 < j → j ≤ k → j ∈ received id inputs := by
  intro h
  have hpushed := h "s" [.userMessage "hi"]
    [.push (.event .running ⟨"s", 1, 7, .userMessage "hi"⟩), .opened "s"] .new
    (by simp [Input.FromLog, Input.deliveries, decodeLog, AgentEvent.decode]) rfl 1
  refine absurd (hpushed.2 fun j hj hle ↦ ?_) (by decide)
  obtain rfl : j = 1 := by omega
  exact ⟨_, List.mem_cons_self, _, List.mem_cons_self, rfl⟩

end Ember.Client
