import Ember.Client.Transcript

/-!
# Open approvals: the stored status and the transcript

The server folds a session's events into one status, the client keeps a card for every approval
request. `OpenAt` says of a request in the log that it is still open, in the terms in which the
transcript keeps its cards: no turn ended after it, and an answer to its id belongs to the newest
request with that id. `Reflects` ties the cards to it, event by event.

The status remembers no approvals: it is decided by the last event that moves it
(`status_ofLog`). That is why the two views part when that event is a user message or an answer while
some request is open, and only then (`statusAgrees_iff`).
-/

namespace Ember.Approvals

open Server (AgentEvent SessionStatus)
open Client (Transcript TranscriptItem decodeLog)

/-- A request for an approval with the given id. -/
def requests (id : String) : AgentEvent → Bool
  | .approvalRequested approvalId _ _ => approvalId == id
  | _ => false

/-- An answer to the approval with the given id. -/
def answers (id : String) : AgentEvent → Bool
  | .approvalResolved approvalId _ => approvalId == id
  | _ => false

/-- The end of a turn. -/
def endsTurn : AgentEvent → Bool
  | .turnEnded _ => true
  | _ => false

/-- An event that may change the stored status. -/
def movesStatus : AgentEvent → Bool
  | .userMessage _ | .approvalRequested _ _ _ | .approvalResolved _ _ | .turnEnded _ => true
  | _ => false

variable {log : List AgentEvent} {id : String}

/-- Entry `j` of the log requests an approval with the given id. -/
def RequestAt (log : List AgentEvent) (j : ℕ) (id : String) : Prop :=
  ∃ e, log[j]? = some e ∧ requests id e = true

/-- Entry `j` of the log is a request that is still open: no turn ended after it, and whatever
answered its id answered a newer request. -/
def OpenAt (log : List AgentEvent) (j : ℕ) (id : String) : Prop :=
  RequestAt log j id ∧ ∀ k e, j < k → log[k]? = some e →
    endsTurn e = false ∧ (answers id e = true → ∃ m, j < m ∧ m < k ∧ RequestAt log m id)

/-- Some approval request of the log is still open. -/
def CardOpen (log : List AgentEvent) : Prop := ∃ j id, OpenAt log j id

/-- Some approval request since the last end of a turn has no answer with its id after it. -/
def Unanswered (log : List AgentEvent) : Prop :=
  ∃ j id, RequestAt log j id ∧
    ∀ k e, j < k → log[k]? = some e → endsTurn e = false ∧ answers id e = false

/-- The stored status says that an approval is awaited exactly when one is, and exactly when the
client's transcript of the same events has one pending. -/
def StatusAgrees (log : List AgentEvent) : Prop :=
  (SessionStatus.ofLog log = .waitingForApproval ↔ Unanswered log) ∧
    (Unanswered log ↔ (Transcript.ofLog (decodeLog log)).pendingApprovals ≠ [])

/-- The last event of the log that may change the status. -/
def lastMove (log : List AgentEvent) : Option AgentEvent := log.reverse.find? movesStatus

/-- A user message or an answer to an approval. -/
def resumes : AgentEvent → Bool
  | .userMessage _ | .approvalResolved _ _ => true
  | _ => false

/-! ### The stored status -/

theorem after_of_not_moves {e : AgentEvent} (h : movesStatus e = false) (s : SessionStatus) :
    s.after e = s := by
  cases e <;> first | rfl | exact absurd h (by simp [movesStatus])

theorem after_of_moves {e : AgentEvent} (h : movesStatus e = true) (s s' : SessionStatus) :
    s.after e = s'.after e := by
  cases e with
  | turnEnded outcome => cases outcome <;> rfl
  | userMessage | approvalRequested | approvalResolved => rfl
  | _ => exact absurd h (by simp [movesStatus])

theorem lastMove_concat (log : List AgentEvent) (e : AgentEvent) :
    lastMove (log ++ [e]) = if movesStatus e then some e else lastMove log := by
  rw [lastMove, List.reverse_append, List.reverse_singleton, List.singleton_append,
    List.find?_cons]
  cases movesStatus e <;> rfl

/-- **The status is the last move's.** -/
theorem status_ofLog (log : List AgentEvent) :
    SessionStatus.ofLog log = ((lastMove log).map SessionStatus.idle.after).getD .idle := by
  induction log using List.reverseRecOn with
  | nil => rfl
  | append_singleton log e ih =>
    rw [lastMove_concat, SessionStatus.ofLog, List.foldl_append, ← SessionStatus.ofLog]
    show (SessionStatus.ofLog log).after e = _
    cases hmoves : movesStatus e with
    | true => exact after_of_moves hmoves _ _
    | false => rw [after_of_not_moves hmoves, ih]; rfl

/-- The last move stands in the log with no move after it. -/
theorem exists_of_lastMove {e : AgentEvent} (h : lastMove log = some e) :
    ∃ k : ℕ, log[k]? = some e ∧ movesStatus e = true ∧
      ∀ k' e', k < k' → log[k']? = some e' → movesStatus e' = false := by
  obtain ⟨hmoves, as, bs, hsplit, hnone⟩ := List.find?_eq_some_iff_append.1 h
  have hlog : log = bs.reverse ++ e :: as.reverse := by
    rw [← List.reverse_reverse log, hsplit]
    simp
  refine ⟨bs.length, by simp [hlog], hmoves, fun k' e' hlt hget ↦ ?_⟩
  rw [hlog, List.getElem?_append_right (by simp; omega), List.getElem?_cons] at hget
  rw [List.length_reverse, if_neg (by omega)] at hget
  have hmem := List.mem_reverse.1 (List.mem_of_getElem? hget)
  simpa using hnone e' hmem

/-! ### Open requests, one more event at a time -/

variable {j : ℕ}

theorem RequestAt.lt (h : RequestAt log j id) : j < log.length := by
  obtain ⟨e, he, -⟩ := h
  exact (List.getElem?_eq_some_iff.1 he).1

theorem requestAt_concat {e : AgentEvent} :
    RequestAt (log ++ [e]) j id ↔ RequestAt log j id ∨ j = log.length ∧ requests id e = true := by
  unfold RequestAt
  rcases Nat.lt_trichotomy j log.length with hlt | rfl | hgt
  · simp [List.getElem?_append_left hlt, hlt.ne]
  · simp
  · simp [List.getElem?_append_right hgt.le, Nat.sub_ne_zero_of_lt hgt, hgt.ne',
      List.getElem?_eq_none hgt.le]

/-- A request that was there stays open unless the new event ends the turn or answers it. -/
theorem openAt_concat {e : AgentEvent} (hj : RequestAt log j id) :
    OpenAt (log ++ [e]) j id ↔ OpenAt log j id ∧ endsTurn e = false ∧
      (answers id e = true → ∃ m, j < m ∧ RequestAt log m id) := by
  have hlen : (log ++ [e])[log.length]? = some e := by simp
  constructor
  · rintro ⟨-, hopen⟩
    refine ⟨⟨hj, fun k e' hlt hget ↦ ?_⟩, (hopen _ e hj.lt hlen).1, fun hans ↦ ?_⟩
    · have hk : k < log.length := (List.getElem?_eq_some_iff.1 hget).1
      have hk' := hopen k e' hlt (by rwa [List.getElem?_append_left hk])
      refine ⟨hk'.1, fun hans ↦ ?_⟩
      obtain ⟨m, hjm, hmk, hm⟩ := hk'.2 hans
      refine ⟨m, hjm, hmk, (requestAt_concat.1 hm).resolve_right ?_⟩
      rintro ⟨rfl, -⟩
      omega
    · obtain ⟨m, hjm, hmk, hm⟩ := (hopen _ e hj.lt hlen).2 hans
      exact ⟨m, hjm, (requestAt_concat.1 hm).resolve_right fun h ↦ absurd h.1 hmk.ne⟩
  · rintro ⟨⟨-, hopen⟩, hend, hans⟩
    refine ⟨requestAt_concat.2 (.inl hj), fun k e' hlt hget ↦ ?_⟩
    rcases Nat.lt_trichotomy k log.length with hk | rfl | hk
    · rw [List.getElem?_append_left hk] at hget
      refine ⟨(hopen k e' hlt hget).1, fun h ↦ ?_⟩
      obtain ⟨m, hjm, hmk, hm⟩ := (hopen k e' hlt hget).2 h
      exact ⟨m, hjm, hmk, requestAt_concat.2 (.inl hm)⟩
    · obtain rfl : e = e' := Option.some.inj (hlen.symm.trans hget)
      refine ⟨hend, fun h ↦ ?_⟩
      obtain ⟨m, hjm, hm⟩ := hans h
      exact ⟨m, hjm, hm.lt, requestAt_concat.2 (.inl hm)⟩
    · rw [List.getElem?_eq_none (by simp; omega)] at hget
      exact absurd hget (by simp)

/-- A request just made is open. -/
theorem openAt_new {e : AgentEvent} (h : requests id e = true) :
    OpenAt (log ++ [e]) log.length id := by
  refine ⟨requestAt_concat.2 (.inr ⟨rfl, h⟩), fun k e' hlt hget ↦ ?_⟩
  rw [List.getElem?_eq_none (by simp; omega)] at hget
  exact absurd hget (by simp)

/-! ### The cards of a transcript -/

/-- The number, the id and whether it is pending of an item that is an approval card. -/
def card : TranscriptItem → Option (ℕ × String × Bool)
  | .approval seq approvalId _ _ state => some (seq, approvalId, state == .pending)
  | _ => none

/-- The card at an index of the transcript. -/
def cardAt (t : Transcript) (i : ℕ) : Option (ℕ × String × Bool) := t.items[i]?.bind card

theorem cardAt_push (t : Transcript) (item : TranscriptItem) (i : ℕ) :
    cardAt (t.push item) i = if i = t.items.length then card item else cardAt t i := by
  rcases Nat.lt_trichotomy i t.items.length with hlt | rfl | hgt
  · simp [cardAt, Transcript.push, List.getElem?_append_left hlt, hlt.ne]
  · simp [cardAt, Transcript.push]
  · simp [cardAt, Transcript.push, List.getElem?_append_right hgt.le, Nat.sub_ne_zero_of_lt hgt,
      hgt.ne', List.getElem?_eq_none hgt.le]

variable {item : TranscriptItem}

/-- Pushing anything but a card changes no card. -/
theorem cardAt_push_of_none (h : card item = none) (t : Transcript) :
    cardAt (t.push item) = cardAt t := by
  funext i
  rw [cardAt_push, h]
  split
  case isTrue hi => simp [cardAt, hi]
  case isFalse => rfl

/-- An update of one item that keeps cards as they are changes no card. -/
theorem bind_card_modify {f : TranscriptItem → TranscriptItem} (hf : ∀ item, card (f item) = card item)
    (items : List TranscriptItem) (i j : ℕ) :
    (items.modify i f)[j]?.bind card = items[j]?.bind card := by
  rw [List.getElem?_modify]
  cases items[j]? with
  | none => rfl
  | some item =>
    show card (if i = j then f item else item) = card item
    split
    · exact hf item
    · rfl

theorem cardAt_endStream (t : Transcript) : cardAt t.endStream = cardAt t := by
  funext i
  unfold Transcript.endStream
  split
  · rfl
  · exact bind_card_modify (by rintro (_ | _ | _) <;> rfl) _ _ _

/-- The cards of a transcript are the requests of the log, pending when they are open, and the index
of an id is the card of its newest request. -/
structure Reflects (log : List AgentEvent) (t : Transcript) : Prop where
  cards : ∀ i q id b, cardAt t i = some (q, id, b) →
    0 < q ∧ RequestAt log (q - 1) id ∧ (b = true ↔ OpenAt log (q - 1) id)
  distinct : ∀ i i' q id b id' b', cardAt t i = some (q, id, b) →
    cardAt t i' = some (q, id', b') → i = i'
  complete : ∀ j id, RequestAt log j id → ∃ i b, cardAt t i = some (j + 1, id, b)
  newest : ∀ id i, t.approvalIndex[id]? = some i →
    ∃ q b, cardAt t i = some (q, id, b) ∧ ∀ j, RequestAt log j id → j < q
  indexed : ∀ id, t.approvalIndex[id]? = none → ∀ j, ¬ RequestAt log j id

variable {t t' : Transcript} {e : AgentEvent}

/-- An event that requests nothing adds no request. -/
theorem requestAt_concat_of_not_requests (h : ∀ id, requests id e = false) :
    RequestAt (log ++ [e]) j id ↔ RequestAt log j id := by
  rw [requestAt_concat]
  exact or_iff_left fun hj ↦ absurd hj.2 (by rw [h]; exact Bool.false_ne_true)

/-- The cards after an event that requests nothing: each is the card it was, pending when its
request still is open. -/
theorem Reflects.step (h : Reflects log t) (hrequests : ∀ id, requests id e = false)
    (hindex : t'.approvalIndex = t.approvalIndex)
    (hcards : ∀ i q id, (∃ b, cardAt t' i = some (q, id, b)) ↔ ∃ b, cardAt t i = some (q, id, b))
    (hopen : ∀ i q id b b', cardAt t i = some (q, id, b) → cardAt t' i = some (q, id, b') →
      (b' = true ↔ OpenAt (log ++ [e]) (q - 1) id)) : Reflects (log ++ [e]) t' where
  cards i q id b hcard := by
    obtain ⟨b₀, hcard₀⟩ := (hcards i q id).1 ⟨b, hcard⟩
    obtain ⟨hpos, hreq, -⟩ := h.cards i q id b₀ hcard₀
    exact ⟨hpos, (requestAt_concat_of_not_requests hrequests).2 hreq,
      hopen i q id b₀ b hcard₀ hcard⟩
  distinct i i' q id b id' b' hi hi' := by
    obtain ⟨b₀, hi₀⟩ := (hcards i q id).1 ⟨b, hi⟩
    obtain ⟨b₀', hi₀'⟩ := (hcards i' q id').1 ⟨b', hi'⟩
    exact h.distinct i i' q id b₀ id' b₀' hi₀ hi₀'
  complete j id hreq := by
    obtain ⟨i, b, hcard⟩ := h.complete j id ((requestAt_concat_of_not_requests hrequests).1 hreq)
    obtain ⟨b', hcard'⟩ := (hcards i (j + 1) id).2 ⟨b, hcard⟩
    exact ⟨i, b', hcard'⟩
  newest id i hi := by
    obtain ⟨q, b, hcard, hlt⟩ := h.newest id i (hindex ▸ hi)
    obtain ⟨b', hcard'⟩ := (hcards i q id).2 ⟨b, hcard⟩
    exact ⟨q, b', hcard', fun j hj ↦ hlt j ((requestAt_concat_of_not_requests hrequests).1 hj)⟩
  indexed id hnone j hj :=
    h.indexed id (hindex ▸ hnone) j ((requestAt_concat_of_not_requests hrequests).1 hj)

/-- An event that has nothing to do with approvals. -/
theorem Reflects.neutral (h : Reflects log t) (hrequests : ∀ id, requests id e = false)
    (hanswers : ∀ id, answers id e = false) (hend : endsTurn e = false)
    (hindex : t'.approvalIndex = t.approvalIndex) (hcards : cardAt t' = cardAt t) :
    Reflects (log ++ [e]) t' := by
  refine h.step hrequests hindex (fun i q id ↦ by rw [hcards]) fun i q id b b' hi hi' ↦ ?_
  obtain ⟨-, hreq, hopen⟩ := h.cards i q id b hi
  rw [hcards, hi] at hi'
  obtain ⟨-, -, rfl⟩ : q = q ∧ id = id ∧ b = b' := by simpa using hi'
  rw [hopen, openAt_concat hreq, hanswers]
  simp [hend]

/-- The end of a turn abandons every pending card. -/
theorem Reflects.turnEnded (h : Reflects log t) (hend : endsTurn e = true)
    (hrequests : ∀ id, requests id e = false) (hindex : t'.approvalIndex = t.approvalIndex)
    (hcards : ∀ i, cardAt t' i = (cardAt t i).map fun c ↦ (c.1, c.2.1, false)) :
    Reflects (log ++ [e]) t' := by
  refine h.step hrequests hindex (fun i q id ↦ ?_) fun i q id b b' hi hi' ↦ ?_
  · rw [hcards]
    cases cardAt t i with
    | none => simp
    | some c => simp [Prod.ext_iff]
  · obtain ⟨-, hreq, -⟩ := h.cards i q id b hi
    rw [hcards, hi] at hi'
    obtain rfl : false = b' := by simpa using hi'
    rw [openAt_concat hreq, hend]
    simp

/-- An answer resolves the card of the newest request with its id, if there is one. -/
theorem Reflects.answered (h : Reflects log t) {aid : String}
    (hanswers : ∀ id, answers id e = true ↔ aid = id) (hend : endsTurn e = false)
    (hrequests : ∀ id, requests id e = false) (hindex : t'.approvalIndex = t.approvalIndex)
    (hcards : ∀ i, cardAt t' i = if t.approvalIndex[aid]? = some i then
      (cardAt t i).map fun c ↦ (c.1, c.2.1, false) else cardAt t i) :
    Reflects (log ++ [e]) t' := by
  refine h.step hrequests hindex (fun i q id ↦ ?_) fun i q id b b' hi hi' ↦ ?_
  · rw [hcards]
    split
    · cases cardAt t i with
      | none => simp
      | some c => simp [Prod.ext_iff]
    · rfl
  · obtain ⟨hpos, hreq, hopen⟩ := h.cards i q id b hi
    rw [openAt_concat hreq, hend, ← hopen]
    rw [hcards, hi] at hi'
    split at hi'
    case isTrue hidx =>
      -- the newest card of this id: nothing newer takes the answer
      obtain rfl : false = b' := by simpa using hi'
      obtain ⟨q₀, b₀, hcard, hlt⟩ := h.newest aid i hidx
      obtain ⟨rfl, rfl, -⟩ : q = q₀ ∧ id = aid ∧ b = b₀ := by
        simpa using hi.symm.trans hcard
      refine ⟨fun hb ↦ absurd hb (by simp), fun hb ↦ ?_⟩
      obtain ⟨m, hm, hreqm⟩ := hb.2.2 ((hanswers id).2 rfl)
      exact absurd (hlt m hreqm) (by omega)
    case isFalse hidx =>
      obtain ⟨-, -, rfl⟩ : q = q ∧ id = id ∧ b = b' := by simpa using hi'
      refine ⟨fun hb ↦ ⟨hb, rfl, fun hans ↦ ?_⟩, fun hb ↦ hb.1⟩
      obtain rfl := (hanswers id).1 hans
      -- an older card of this id: the newest one was requested after it
      cases hget : t.approvalIndex[aid]? with
      | none => exact absurd hreq (h.indexed aid hget _)
      | some i₀ =>
        obtain ⟨q₀, b₀, hcard, hlt⟩ := h.newest aid i₀ hget
        have hne : q ≠ q₀ := by
          rintro rfl
          exact hidx (hget.trans (congrArg some (h.distinct _ _ _ _ _ _ _ hcard hi)))
        have hq := hlt _ hreq
        exact ⟨q₀ - 1, by omega, (h.cards _ _ _ _ hcard).2.1⟩

/-- A request adds a pending card, the newest of its id. -/
theorem Reflects.requested (h : Reflects log t) {aid : String} {n : ℕ}
    (hrequests : ∀ id, requests id e = true ↔ aid = id) (hanswers : ∀ id, answers id e = false)
    (hend : endsTurn e = false) (hindex : t'.approvalIndex = t.approvalIndex.insert aid n)
    (hfresh : cardAt t n = none)
    (hcards : ∀ i, cardAt t' i = if i = n then some (log.length + 1, aid, true) else cardAt t i) :
    Reflects (log ++ [e]) t' where
  cards i q id b hcard := by
    rw [hcards] at hcard
    split at hcard
    · obtain ⟨rfl, rfl, rfl⟩ : log.length + 1 = q ∧ aid = id ∧ true = b := by simpa using hcard
      have hreq := (hrequests aid).2 rfl
      exact ⟨Nat.succ_pos _, requestAt_concat.2 (.inr ⟨rfl, hreq⟩), by simpa using openAt_new hreq⟩
    · obtain ⟨hpos, hreq, hopen⟩ := h.cards i q id b hcard
      refine ⟨hpos, requestAt_concat.2 (.inl hreq), ?_⟩
      rw [hopen, openAt_concat hreq, hanswers]
      simp [hend]
  distinct i i' q id b id' b' hi hi' := by
    have hold : ∀ {i id b}, cardAt t i = some (log.length + 1, id, b) → False := fun hc ↦
      absurd (h.cards _ _ _ _ hc).2.1.lt (by simp)
    rw [hcards] at hi hi'
    split at hi <;> split at hi'
    · omega
    · obtain ⟨rfl, -⟩ : log.length + 1 = q ∧ _ := by simpa using hi
      exact absurd hi' hold
    · obtain ⟨rfl, -⟩ : log.length + 1 = q ∧ _ := by simpa using hi'
      exact absurd hi hold
    · exact h.distinct _ _ _ _ _ _ _ hi hi'
  complete j id hreq := by
    rcases requestAt_concat.1 hreq with hreq | ⟨rfl, hid⟩
    · obtain ⟨i, b, hcard⟩ := h.complete j id hreq
      refine ⟨i, b, ?_⟩
      rw [hcards, if_neg (fun hi ↦ by rw [hi, hfresh] at hcard; cases hcard), hcard]
    · obtain rfl := (hrequests id).1 hid
      exact ⟨n, true, by rw [hcards, if_pos rfl]⟩
  newest id i hi := by
    rw [hindex, Std.ExtTreeMap.getElem?_insert] at hi
    split at hi
    case isTrue heq =>
      obtain rfl := Std.LawfulEqCmp.compare_eq_iff_eq.1 heq
      obtain rfl : n = i := Option.some.inj hi
      refine ⟨log.length + 1, true, by rw [hcards, if_pos rfl], fun j hj ↦ ?_⟩
      simpa using hj.lt
    case isFalse hne =>
      obtain ⟨q, b, hcard, hlt⟩ := h.newest id i hi
      refine ⟨q, b, ?_, fun j hj ↦ ?_⟩
      · rw [hcards, if_neg (fun hi ↦ by rw [hi, hfresh] at hcard; cases hcard), hcard]
      · refine hlt j ((requestAt_concat.1 hj).resolve_right fun hj ↦ hne ?_)
        exact Std.LawfulEqCmp.compare_eq_iff_eq.2 ((hrequests id).1 hj.2)
  indexed id hnone j hj := by
    rw [hindex, Std.ExtTreeMap.getElem?_insert] at hnone
    split at hnone
    case isTrue => cases hnone
    case isFalse hne =>
      refine h.indexed id hnone j ((requestAt_concat.1 hj).resolve_right fun hj ↦ hne ?_)
      exact Std.LawfulEqCmp.compare_eq_iff_eq.2 ((hrequests id).1 hj.2)

/-! ### The transcript reflects the log -/

theorem bind_card_set {items : List TranscriptItem} {i : ℕ} (h : card item = none)
    (hi : items[i]?.bind card = none) (j : ℕ) :
    (items.set i item)[j]?.bind card = items[j]?.bind card := by
  rw [List.getElem?_set]
  split
  case isTrue hij =>
    subst hij
    rw [hi]
    split
    · exact h
    · rfl
  case isFalse => rfl

/-- An answered card is the card it was, no longer pending. -/
theorem card_resolve (decision : Client.ApprovalDecision) (item : TranscriptItem) :
    card (item.resolve decision) = (card item).map fun c ↦ (c.1, c.2.1, false) := by
  cases item <;> rfl

/-- A turn that ended leaves no card pending. -/
theorem card_abandon (item : TranscriptItem) :
    card item.abandon = (card item).map fun c ↦ (c.1, c.2.1, false) := by
  rcases item with _ | _ | _ | ⟨_, _, _, _, _ | _ | _⟩ | _ | _ | _ <;> rfl

theorem card_of_tag (h : Transcript.tag item = .assistant) :
    card item = none := by
  cases item <;> first | rfl | exact absurd h (by simp [Transcript.tag])

/-- **One event.** The cards of the transcript keep up with the log. -/
theorem Reflects.reduceEvent (h : Reflects log t) (hvalid : t.Valid) (e : AgentEvent) :
    Reflects (log ++ [e]) (t.reduceEvent (log.length + 1) (.decode e)) := by
  have hend : cardAt t.endStream = cardAt t := cardAt_endStream t
  cases e with
  | nativeSession | systemNotice | usage | rateLimited =>
    exact h.neutral (fun _ ↦ rfl) (fun _ ↦ rfl) rfl rfl rfl
  | error | notice =>
    exact h.neutral (fun _ ↦ rfl) (fun _ ↦ rfl) rfl rfl (cardAt_push_of_none rfl t)
  | userMessage text =>
    exact h.neutral (fun _ ↦ rfl) (fun _ ↦ rfl) rfl t.endStream_approvalIndex
      ((cardAt_push_of_none rfl _).trans hend)
  | assistantDelta text =>
    simp only [Client.AgentEvent.decode, Transcript.reduceEvent]
    split
    · exact h.neutral (fun _ ↦ rfl) (fun _ ↦ rfl) rfl rfl
        (funext fun i ↦ bind_card_modify (by rintro (_ | _ | _) <;> rfl) _ _ _)
    · exact h.neutral (fun _ ↦ rfl) (fun _ ↦ rfl) rfl rfl (cardAt_push_of_none rfl t)
  | assistantMessage text =>
    simp only [Client.AgentEvent.decode, Transcript.reduceEvent]
    split
    case h_1 i hi =>
      -- the item replaced is the streaming message, so no card is lost
      refine h.neutral (fun _ ↦ rfl) (fun _ ↦ rfl) rfl rfl (funext (bind_card_set rfl ?_))
      have htag := hvalid.streaming i hi
      rw [Transcript.tags, List.getElem?_map] at htag
      obtain ⟨item, hitem, htag⟩ := Option.map_eq_some_iff.1 htag
      rw [hitem]
      exact card_of_tag htag
    case h_2 => exact h.neutral (fun _ ↦ rfl) (fun _ ↦ rfl) rfl rfl (cardAt_push_of_none rfl t)
  | toolCall callId name input =>
    exact h.neutral (fun _ ↦ rfl) (fun _ ↦ rfl) rfl t.endStream_approvalIndex
      ((cardAt_push_of_none (t := { t.endStream with toolIndex := _ }) rfl).trans hend)
  | toolResult callId output isError =>
    simp only [Client.AgentEvent.decode, Transcript.reduceEvent]
    split
    case h_1 i seq callId' name input result heq =>
      obtain ⟨j, -, hitem⟩ := Option.bind_eq_some_iff.1 heq
      obtain ⟨item, hget, hpair⟩ := Option.map_eq_some_iff.1 hitem
      obtain ⟨rfl, rfl⟩ := Prod.mk.inj hpair
      exact h.neutral (fun _ ↦ rfl) (fun _ ↦ rfl) rfl rfl
        (funext (bind_card_set rfl (by rw [hget]; rfl)))
    case h_2 =>
      exact h.neutral (fun _ ↦ rfl) (fun _ ↦ rfl) rfl rfl
        (cardAt_push_of_none (t := { t with toolIndex := _ }) rfl)
  | approvalRequested approvalId tool input =>
    refine h.requested (n := t.endStream.items.length) (fun id ↦ beq_iff_eq) (fun _ ↦ rfl) rfl ?_ ?_
      fun i ↦ ?_
    · rw [← t.endStream_approvalIndex]
      rfl
    · rw [← hend]
      simp [cardAt]
    · rw [← hend]
      exact cardAt_push { t.endStream with approvalIndex := _ } _ i
  | approvalResolved approvalId decision =>
    refine h.answered (fun id ↦ beq_iff_eq) rfl (fun _ ↦ rfl) ?_ fun i ↦ ?_
    · simp only [Client.AgentEvent.decode, Transcript.reduceEvent]
      split <;> rfl
    · simp only [Client.AgentEvent.decode, Transcript.reduceEvent]
      split
      case h_1 j hj =>
        show (t.items.modify j _)[i]?.bind card = _
        rw [List.getElem?_modify]
        by_cases hij : j = i
        · subst hij
          rw [if_pos hj, cardAt]
          cases t.items[j]? with
          | none => rfl
          | some item => simpa using card_resolve (.decode decision) item
        · rw [if_neg (fun h ↦ hij (Option.some.inj (hj.symm.trans h))), cardAt]
          simp [hij]
      case h_2 hnone => rw [if_neg (by rw [hnone]; simp)]
  | turnEnded outcome =>
    refine h.turnEnded rfl (fun _ ↦ rfl) t.endStream_approvalIndex fun i ↦ ?_
    rw [← hend]
    refine (congrFun (cardAt_push_of_none (t := { t.endStream with items := _ }) rfl) i).trans ?_
    rw [cardAt, cardAt, List.getElem?_map]
    cases t.endStream.items[i]? with
    | none => rfl
    | some item => exact card_abandon item

/-- **The whole log**: the cards of the reduction of a log are its requests, pending when open. -/
theorem reflects_ofLog (log : List AgentEvent) :
    Reflects log (Transcript.ofLog (decodeLog log)) := by
  induction log using List.reverseRecOn with
  | nil =>
    refine ⟨fun i q id b h ↦ ?_, fun i _ q id b _ _ h ↦ ?_, fun j id h ↦ ?_, fun id i h ↦ ?_,
      fun id _ j h ↦ ?_⟩
    · exact absurd h (by simp [cardAt, Transcript.ofLog, decodeLog, Transcript.new])
    · exact absurd h (by simp [cardAt, Transcript.ofLog, decodeLog, Transcript.new])
    · exact absurd h.lt (Nat.not_lt_zero j)
    · exact absurd h (by simp [Transcript.ofLog, decodeLog, Transcript.new])
    · exact absurd h.lt (Nat.not_lt_zero j)
  | append_singleton log e ih =>
    have hvalid := Transcript.valid_ofLog (decodeLog log)
    rw [decodeLog, List.map_append, ← decodeLog, List.map_singleton, Transcript.ofLog_concat,
      decodeLog, List.length_map, ← decodeLog]
    have hstep : Reflects log { Transcript.ofLog (decodeLog log) with lastSeq := log.length + 1 } :=
      ⟨ih.cards, ih.distinct, ih.complete, ih.newest, ih.indexed⟩
    exact hstep.reduceEvent ⟨hvalid.streaming, hvalid.tools, hvalid.approvals⟩ e

/-- The transcript has a pending approval exactly when some request of the log is open. -/
theorem pendingApprovals_ne_nil_iff (log : List AgentEvent) :
    (Transcript.ofLog (decodeLog log)).pendingApprovals ≠ [] ↔ CardOpen log := by
  have h := reflects_ofLog log
  have hpending : ∀ item : TranscriptItem,
      item.isPending = true ↔ ∃ q id, card item = some (q, id, true) := by
    rintro (_ | _ | _ | ⟨_, _, _, _, _ | _ | _⟩ | _ | _ | _) <;>
      simp [TranscriptItem.isPending, card]
  rw [Transcript.pendingApprovals, ne_eq, List.filter_eq_nil_iff, not_forall]
  constructor
  · rintro ⟨item, hitem⟩
    obtain ⟨hmem, hpend⟩ := Classical.not_imp.1 hitem
    obtain ⟨q, id, hcard⟩ := (hpending item).1 (not_not.1 hpend)
    obtain ⟨i, hi⟩ := List.mem_iff_getElem?.1 hmem
    obtain ⟨-, -, hopen⟩ := h.cards i q id true (by rw [cardAt, hi]; exact hcard)
    exact ⟨q - 1, id, hopen.1 rfl⟩
  · rintro ⟨j, id, hopen⟩
    obtain ⟨i, b, hcard⟩ := h.complete j id hopen.1
    obtain rfl : b = true := (h.cards i _ id b hcard).2.2.2 hopen
    obtain ⟨item, hitem, hcard⟩ := Option.bind_eq_some_iff.1 hcard
    exact ⟨item, fun hall ↦ hall (List.mem_of_getElem? hitem) ((hpending item).2 ⟨_, _, hcard⟩)⟩

/-! ### When the two views agree -/

/-- An unanswered request is an open one. -/
theorem Unanswered.cardOpen (h : Unanswered log) : CardOpen log := by
  obtain ⟨j, id, hreq, hnone⟩ := h
  refine ⟨j, id, hreq, fun k e hlt hget ↦ ⟨(hnone k e hlt hget).1, fun hans ↦ ?_⟩⟩
  exact absurd hans (by rw [(hnone k e hlt hget).2]; exact Bool.false_ne_true)

/-- Requests, answers and ends of turns all move the status. -/
theorem moves_of_requests (h : requests id e = true) : movesStatus e = true := by
  cases e <;> first | rfl | exact absurd h (by simp [requests])

theorem not_endsTurn_of_not_moves (h : movesStatus e = false) :
    endsTurn e = false ∧ answers id e = false := by
  cases e <;> first | exact ⟨rfl, rfl⟩ | exact absurd h (by simp [movesStatus])

/-- When the last move is a request, that request is unanswered. -/
theorem unanswered_of_lastMove {tool : String} {input : Value}
    (h : lastMove log = some (.approvalRequested id tool input)) : Unanswered log := by
  obtain ⟨k, hget, -, hnone⟩ := exists_of_lastMove h
  exact ⟨k, id, ⟨_, hget, by simp [requests]⟩,
    fun k' e' hlt hget' ↦ not_endsTurn_of_not_moves (hnone k' e' hlt hget')⟩

/-- When there is no move, or the last one ends the turn, nothing is open. -/
theorem not_cardOpen_of_lastMove (h : ∀ e, lastMove log = some e → endsTurn e = true) :
    ¬ CardOpen log := by
  rintro ⟨j, id, ⟨e, hget, hreq⟩, hopen⟩
  cases hlast : lastMove log with
  | none =>
    have hmem : e ∈ log.reverse := List.mem_reverse.2 (List.mem_of_getElem? hget)
    exact List.find?_eq_none.1 hlast e hmem (moves_of_requests hreq)
  | some e' =>
    obtain ⟨k, hget', -, hnone⟩ := exists_of_lastMove hlast
    have hend := h e' hlast
    rcases Nat.lt_trichotomy j k with hlt | rfl | hgt
    · exact absurd hend (by rw [(hopen k e' hlt hget').1]; exact Bool.false_ne_true)
    · obtain rfl : e = e' := Option.some.inj (hget.symm.trans hget')
      cases e <;> first | exact absurd hend Bool.false_ne_true | exact absurd hreq Bool.false_ne_true
    · exact absurd (moves_of_requests hreq) (by rw [hnone j e hgt hget]; exact Bool.false_ne_true)

/-- After a user message or an answer the status is `running`: it agrees when nothing is open. -/
theorem agrees_iff_of_resumes (h : resumes e = true) :
    (SessionStatus.idle.after e = .waitingForApproval ↔ Unanswered log) ∧
      (Unanswered log ↔ CardOpen log) ↔ ¬ CardOpen log := by
  have hrunning : SessionStatus.idle.after e = .running := by
    cases e <;> first | rfl | exact absurd h Bool.false_ne_true
  rw [hrunning]
  constructor
  · rintro ⟨hstatus, hviews⟩ hopen
    exact absurd (hstatus.2 (hviews.2 hopen)) (by decide)
  · intro hclosed
    exact ⟨⟨fun h ↦ absurd h (by decide), fun hun ↦ absurd hun.cardOpen hclosed⟩,
      ⟨Unanswered.cardOpen, fun hopen ↦ absurd hopen hclosed⟩⟩

/-- **When the stored status agrees with the transcript**: unless the last event that moved the
status is a user message or an answer to an approval, and some request is still open. -/
theorem statusAgrees_iff (log : List AgentEvent) :
    StatusAgrees log ↔ ¬ (CardOpen log ∧ ∃ e, lastMove log = some e ∧ resumes e = true) := by
  rw [StatusAgrees, pendingApprovals_ne_nil_iff, status_ofLog]
  have hquiet : (∀ e, lastMove log = some e → endsTurn e = true) →
      ¬ Unanswered log ∧ ¬ CardOpen log := fun h ↦
    have hclosed := not_cardOpen_of_lastMove h
    ⟨fun hun ↦ hclosed hun.cardOpen, hclosed⟩
  cases hlast : lastMove log with
  | none =>
    obtain ⟨hun, hcard⟩ := hquiet (by simp [hlast])
    simp [hun, hcard]
  | some e =>
    cases e with
    | approvalRequested approvalId tool input =>
      have hun := unanswered_of_lastMove hlast
      simp [hun, hun.cardOpen, SessionStatus.after, resumes]
    | turnEnded outcome =>
      obtain ⟨hun, hcard⟩ := hquiet (by simp [hlast, endsTurn])
      cases outcome <;> simp [hun, hcard, SessionStatus.after]
    | userMessage text => simpa [resumes] using agrees_iff_of_resumes (e := .userMessage text) rfl
    | approvalResolved approvalId decision =>
      simpa [resumes] using agrees_iff_of_resumes (e := .approvalResolved approvalId decision) rfl
    | _ =>
      obtain ⟨k, -, hmoves, -⟩ := exists_of_lastMove hlast
      exact absurd hmoves (by simp [movesStatus])

/-- Two approvals are open and one is answered: the session shows as running. -/
theorem not_statusAgrees_parallel :
    ¬ StatusAgrees [.userMessage "hi", .approvalRequested "a" "Bash" .null,
      .approvalRequested "b" "Write" .null, .approvalResolved "a" .allowOnce] := by
  rintro ⟨hstatus, -⟩
  refine absurd (hstatus.2 ⟨2, "b", ⟨_, rfl, rfl⟩, fun k e hlt hget ↦ ?_⟩) (by decide)
  obtain rfl : k = 3 := by
    have hk := (List.getElem?_eq_some_iff.1 hget).1
    simp at hk
    omega
  obtain rfl := Option.some.inj hget
  exact ⟨rfl, rfl⟩

end Ember.Approvals
