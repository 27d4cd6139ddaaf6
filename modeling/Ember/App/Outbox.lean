import Ember.Foundation.Runs
import Ember.Server.Events
import Mathlib.Data.List.Range

/-!
# The message queue of a session

`model.rs` (`Outbox`) and `services.rs` (`drive_outbox`): messages typed while the agent is busy
wait, and go out one per turn. What the outbox knows of the turn is the session's status and last
sequence number, as the client sees them: a message counts as taken up when the session is seen
busy, or further than it was when the message was handed out.

The server appends one event at a time. Whatever others have it append (notices, messages of other
sessions, the events of the agent) is arbitrary here, and so is how far the client sees. A send ends
with its message appended, or fails; what the client hears of a send may also be wrong (`lost`).

A text is known by the number of its push.

## What is proved

* `sound_of_attentive` — where nothing is seen of the session between the handing out of a text and
  its message, and no failed send was taken, the texts go out in order, each once, and each after
  the turn of the one before.
* `not_sound_noticed` — a notice in the gap.
-/

namespace Ember.App

open Server StepSystem

/-- `Outbox`, of one session. -/
structure Outbox (τ : Type) where
  queue : List τ
  /-- `last_seq` when the message in flight was sent. -/
  inFlight : Option ℕ
  error : Option String

namespace Outbox

variable {τ : Type}

/-- `Outbox::push`. -/
def push (o : Outbox τ) (text : τ) : Outbox τ :=
  { o with queue := o.queue ++ [text], error := none }

/-- `Outbox::clear`. -/
def clear (o : Outbox τ) : Outbox τ := { o with queue := [] }

/-- The message at the front of the queue goes out. -/
def pop (o : Outbox τ) (lastSeq : ℕ) : Outbox τ × Option τ :=
  match o.queue with
  | [] => ({ o with inFlight := none }, none)
  | text :: queue => ({ o with queue := queue, inFlight := some lastSeq }, some text)

/-- `Outbox::next`: the message to send now, if any. -/
def next (o : Outbox τ) (busy : Bool) (lastSeq : ℕ) : Outbox τ × Option τ :=
  if busy then ({ o with inFlight := none }, none)
  else
    match o.inFlight with
    | some at_ => if lastSeq ≤ at_ then (o, none) else o.pop lastSeq
    | none => o.pop lastSeq

/-- `Outbox::failed`: the message goes back to the front. -/
def failed (o : Outbox τ) (text : τ) (error : String) : Outbox τ :=
  ⟨text :: o.queue, none, some error⟩

end Outbox

/-! ### The session -/

/-- What the server appends. -/
inductive Entry
  /-- The message of a text; what it says is left out. -/
  | mine (k : ℕ)
  | other (e : AgentEvent)

/-- The event that is appended. -/
def Entry.event : Entry → AgentEvent
  | .mine _ => .userMessage ""
  | .other e => e

/-- The text an entry is the message of. -/
def Entry.text : Entry → Option ℕ
  | .mine k => some k
  | .other _ => none

/-- The texts whose messages were appended. -/
def texts (log : List Entry) : List ℕ := log.filterMap Entry.text

/-- Whether the session is busy behind these entries. -/
def busyAfter (log : List Entry) : Bool := isBusy (.ofLog (log.map Entry.event))

/-- Whether the turn of a text has begun and not ended. -/
def turnOpen (log : List Entry) : Bool :=
  log.foldl (fun isOpen entry ↦
    match entry with
    | .mine _ => true
    | .other (.turnEnded _) => false
    | .other _ => isOpen) false

/-- The outbox of a session, the server's log of it, and the sends that are under way. -/
structure World where
  outbox : Outbox ℕ
  log : List Entry
  /-- How far the client has seen the log. -/
  seen : ℕ
  sends : List ℕ
  /-- How many texts were pushed. -/
  pushed : ℕ
  cleared : List ℕ
  /-- The texts that went out before the turn of the one before had ended. -/
  early : List ℕ

/-- What happens next. -/
inductive Label
  | push
  | clear
  /-- `drive_outbox`, where the client sees this much of the log. -/
  | drive (s : ℕ)
  /-- The server appends something else. -/
  | append (e : AgentEvent)
  /-- A send succeeds. -/
  | sent (k : ℕ)
  /-- A send fails. -/
  | fails (k : ℕ) (error : String)
  /-- A send fails for the client, but the server has taken it. -/
  | lost (k : ℕ) (error : String)

namespace World

def new : World := ⟨⟨[], none, none⟩, [], 0, [], 0, [], []⟩

/-- `drive_outbox`. -/
def drive (w : World) (s : ℕ) : World :=
  match w.outbox.next (busyAfter (w.log.take s)) s with
  | (outbox, none) => { w with outbox := outbox, seen := s }
  | (outbox, some k) =>
    { w with
      outbox := outbox, seen := s, sends := w.sends ++ [k],
      early := if w.sends.isEmpty && !turnOpen w.log then w.early else w.early ++ [k] }

/-- One step. What cannot happen changes nothing. -/
def step (w : World) : Label → World
  | .push => { w with outbox := w.outbox.push w.pushed, pushed := w.pushed + 1 }
  | .clear => { w with outbox := w.outbox.clear, cleared := w.cleared ++ w.outbox.queue }
  | .drive s => if w.seen ≤ s ∧ s ≤ w.log.length then w.drive s else w
  | .append e => { w with log := w.log ++ [.other e] }
  | .sent k =>
    if k ∈ w.sends then { w with log := w.log ++ [.mine k], sends := w.sends.erase k } else w
  | .fails k error =>
    if k ∈ w.sends then { w with outbox := w.outbox.failed k error, sends := w.sends.erase k }
    else w
  | .lost k error =>
    if k ∈ w.sends then
      { w with
        outbox := w.outbox.failed k error, log := w.log ++ [.mine k], sends := w.sends.erase k }
    else w

/-- The runs. -/
def system : StepSystem World Label := .ofFun new step

/-- **What the queue is for.** -/
structure Sound (w : World) : Prop where
  /-- The texts go out in the order in which they were pushed. -/
  ordered : (texts w.log).Pairwise (· < ·)
  /-- Each was taken once, or is being sent, or waits, or was cleared. -/
  once : (texts w.log ++ w.sends ++ w.outbox.queue ++ w.cleared).Perm (List.range w.pushed)
  /-- None went out before the turn of the one before had ended. -/
  early : w.early = []

/-- The client does not see the message of every text that was handed out. -/
def Unseen (w : World) (s : ℕ) : Prop := w.sends ≠ [] ∨ texts (w.log.drop s) ≠ []

/-- **Where nothing else is seen**: as long as the client does not see the message of a text that
was handed out, it sees the session idle, and no further than when that text was handed out; and no
send fails that the server has taken. -/
def Attentive (w : World) : Label → Prop
  | .drive s =>
    w.Unseen s → busyAfter (w.log.take s) = false ∧ ∀ at_ ∈ w.outbox.inFlight, s ≤ at_
  | .lost _ _ => False
  | _ => True

end World

/-! ### Turns -/

theorem texts_append (log log' : List Entry) : texts (log ++ log') = texts log ++ texts log' :=
  List.filterMap_append

theorem turnOpen_concat (log : List Entry) (entry : Entry) :
    turnOpen (log ++ [entry]) =
      match entry with
      | .mine _ => true
      | .other (.turnEnded _) => false
      | .other _ => turnOpen log := by
  rw [turnOpen, List.foldl_append]
  rfl

theorem busyAfter_concat (log : List Entry) (entry : Entry) :
    busyAfter (log ++ [entry]) =
      isBusy ((SessionStatus.ofLog (log.map Entry.event)).after entry.event) := by
  rw [busyAfter, List.map_append, SessionStatus.ofLog, List.foldl_append]
  rfl

/-- A session that is not busy is behind the end of every turn. -/
theorem turnOpen_of_busyAfter {log : List Entry} (h : busyAfter log = false) :
    turnOpen log = false := by
  induction log using List.reverseRecOn with
  | nil => rfl
  | append_singleton log entry ih =>
    rw [busyAfter_concat] at h
    rw [turnOpen_concat]
    cases entry with
    | mine k => cases h
    | other e =>
      cases e with
      | turnEnded outcome => rfl
      | userMessage | approvalRequested | approvalResolved => cases h
      | _ => exact ih h

/-- Entries of others begin no turn of a text. -/
theorem turnOpen_append {log log' : List Entry} (h : turnOpen log = false)
    (hnone : texts log' = []) : turnOpen (log ++ log') = false := by
  induction log' using List.reverseRecOn with
  | nil => rwa [List.append_nil]
  | append_singleton log' entry ih =>
    obtain ⟨hlog', hentry⟩ := List.append_eq_nil_iff.1 ((texts_append _ _).symm.trans hnone)
    rw [← List.append_assoc, turnOpen_concat]
    cases entry with
    | mine k => cases hentry
    | other e =>
      cases e with
      | turnEnded outcome => rfl
      | _ => exact ih hlog'

/-! ### What every step keeps -/

variable {s k : ℕ}

namespace World

/-- What holds in every run. -/
structure Kept (w : World) : Prop where
  ordered : (texts w.log ++ w.sends ++ w.outbox.queue).Pairwise (· < ·)
  once : (texts w.log ++ w.sends ++ w.outbox.queue ++ w.cleared).Perm (List.range w.pushed)
  early : w.early = []
  one : w.sends.length ≤ 1
  seen : w.seen ≤ w.log.length
  /-- While a text is being sent the client sees the messages of all others. -/
  gone : w.sends ≠ [] → texts (w.log.drop w.seen) = []
  marked : w.Unseen w.seen → w.outbox.inFlight.isSome = true

variable {w : World}

theorem Kept.sound (h : w.Kept) : w.Sound :=
  ⟨(List.pairwise_append.1 (List.pairwise_append.1 h.ordered).1).1, h.once, h.early⟩

/-- A text that is being sent is the only one. -/
theorem Kept.sends_eq (h : w.Kept) (hk : k ∈ w.sends) : w.sends = [k] := by
  have hone := h.one
  match hsends : w.sends with
  | [] => rw [hsends] at hk; cases hk
  | [j] =>
    rw [hsends] at hk
    rw [List.mem_singleton.1 hk]
  | j :: j' :: js => rw [hsends] at hone; exact absurd hone (by simp)

/-- A text that goes out where the client sees the messages of all before it goes out in time. -/
theorem Kept.pop (h : w.Kept) (hs : s ≤ w.log.length) (hunseen : ¬w.Unseen s)
    (hidle : busyAfter (w.log.take s) = false) {queue : List ℕ}
    (hqueue : w.outbox.queue = k :: queue) :
    Kept { w with
      outbox := { w.outbox with queue := queue, inFlight := some s }, seen := s,
      sends := w.sends ++ [k],
      early := if w.sends.isEmpty && !turnOpen w.log then w.early else w.early ++ [k] } := by
  obtain ⟨hsends, htexts⟩ := not_or.1 hunseen
  have hsends := not_not.1 hsends
  have htexts := not_not.1 htexts
  have hopen : turnOpen w.log = false := by
    have happ := turnOpen_append (turnOpen_of_busyAfter hidle) htexts
    rwa [List.take_append_drop] at happ
  have hordered := h.ordered
  have honce := h.once
  rw [hsends, hqueue] at hordered honce
  exact {
    ordered := by simpa [hsends] using hordered
    once := by simpa [hsends] using honce
    early := by simp [hsends, hopen, h.early]
    one := by simp [hsends]
    seen := hs
    gone := fun _ ↦ htexts
    marked := fun _ ↦ rfl }

/-- A state in which only the mark of the text in flight is gone, where nothing is unseen. -/
theorem Kept.look (h : w.Kept) (hs : s ≤ w.log.length) (hunseen : ¬w.Unseen s)
    (inFlight : Option ℕ) :
    Kept { w with outbox := { w.outbox with inFlight := inFlight }, seen := s } where
  ordered := h.ordered
  once := h.once
  early := h.early
  one := h.one
  seen := hs
  gone hsends := absurd (.inl hsends) hunseen
  marked hu := absurd hu hunseen

theorem Unseen.mono {s' : ℕ} (h : w.Unseen s') (hle : s ≤ s') : w.Unseen s := by
  refine h.imp id fun htexts hnil ↦ htexts ?_
  have hdrop : w.log.drop s = (w.log.drop s).take (s' - s) ++ w.log.drop s' := by
    rw [← Nat.add_sub_cancel' hle, ← List.drop_drop, Nat.add_sub_cancel_left,
      List.take_append_drop]
  rw [hdrop, texts_append] at hnil
  exact (List.append_eq_nil_iff.1 hnil).2

theorem Kept.drive (h : w.Kept) (hseen : w.seen ≤ s) (hs : s ≤ w.log.length)
    (hattentive : w.Attentive (.drive s)) : Kept (w.drive s) := by
  by_cases hunseen : w.Unseen s
  · -- the text in flight is not seen yet, and holds back the next one
    obtain ⟨hidle, hmark⟩ := hattentive hunseen
    obtain ⟨at_, hat⟩ := Option.isSome_iff_exists.1 (h.marked (hunseen.mono hseen))
    have hnext : w.outbox.next (busyAfter (w.log.take s)) s = (w.outbox, none) := by
      simp [Outbox.next, hidle, hat, hmark at_ hat]
    rw [World.drive, hnext]
    exact {
      ordered := h.ordered
      once := h.once
      early := h.early
      one := h.one
      seen := hs
      gone := fun hsends ↦ by
        by_contra hne
        exact (Unseen.mono (w := { w with sends := [] }) (.inr hne) hseen).elim
          (fun hnil ↦ hnil rfl) fun htexts ↦ htexts (h.gone hsends)
      marked := fun _ ↦ Option.isSome_iff_exists.2 ⟨at_, hat⟩ }
  · cases hbusy : busyAfter (w.log.take s) with
    | true =>
      have hnext : w.outbox.next true s = ({ w.outbox with inFlight := none }, none) := rfl
      rw [World.drive, hbusy, hnext]
      exact h.look hs hunseen none
    | false =>
      have hpop : ∀ o : Outbox ℕ × Option ℕ, o = w.outbox.pop s →
          w.outbox.next false s = o → Kept (w.drive s) := fun o ho hnext ↦ by
        subst ho
        cases hqueue : w.outbox.queue with
        | nil =>
          have hempty : w.outbox.pop s = ({ w.outbox with inFlight := none }, none) := by
            simp [Outbox.pop, hqueue]
          rw [World.drive, hbusy, hnext, hempty]
          exact h.look hs hunseen none
        | cons k queue =>
          have hfull : w.outbox.pop s =
              ({ w.outbox with queue := queue, inFlight := some s }, some k) := by
            simp [Outbox.pop, hqueue]
          rw [World.drive, hbusy, hnext, hfull]
          exact h.pop hs hunseen hbusy hqueue
      cases hmark : w.outbox.inFlight with
      | none => exact hpop _ rfl (by simp [Outbox.next, hmark])
      | some at_ =>
        by_cases hle : s ≤ at_
        · have hnext : w.outbox.next false s = (w.outbox, none) := by
            simp [Outbox.next, hmark, hle]
          rw [World.drive, hbusy, hnext]
          exact h.look hs hunseen w.outbox.inFlight
        · exact hpop _ rfl (by simp [Outbox.next, hmark, hle])

/-- **Every step keeps it.** -/
theorem Kept.step (h : w.Kept) {l : Label} (hl : w.Attentive l) : Kept (w.step l) := by
  cases l with
  | push =>
    have hlt : ∀ k ∈ texts w.log ++ w.sends ++ w.outbox.queue, k < w.pushed := fun k hk ↦
      List.mem_range.1 (h.once.subset (List.mem_append_left _ hk))
    exact {
      ordered := by
        show (texts w.log ++ w.sends ++ (w.outbox.queue ++ [w.pushed])).Pairwise (· < ·)
        rw [← List.append_assoc]
        exact List.pairwise_append.2 ⟨h.ordered, List.pairwise_singleton _ _,
          fun k hk j hj ↦ List.mem_singleton.1 hj ▸ hlt k hk⟩
      once := by
        show (texts w.log ++ w.sends ++ (w.outbox.queue ++ [w.pushed]) ++ w.cleared).Perm
          (List.range (w.pushed + 1))
        rw [← List.append_assoc _ w.outbox.queue, List.range_succ, List.append_assoc]
        refine (List.Perm.append_left _ List.perm_append_comm).trans ?_
        rw [← List.append_assoc]
        exact h.once.append_right _
      early := h.early
      one := h.one
      seen := h.seen
      gone := h.gone
      marked := h.marked }
  | clear =>
    exact {
      ordered := by
        show (texts w.log ++ w.sends ++ []).Pairwise (· < ·)
        rw [List.append_nil]
        exact (List.pairwise_append.1 h.ordered).1
      once := by
        show (texts w.log ++ w.sends ++ [] ++ (w.cleared ++ w.outbox.queue)).Perm _
        rw [List.append_nil]
        refine List.Perm.trans ?_ h.once
        rw [List.append_assoc _ w.outbox.queue]
        exact List.Perm.append_left _ List.perm_append_comm
      early := h.early
      one := h.one
      seen := h.seen
      gone := h.gone
      marked := h.marked }
  | drive s =>
    simp only [World.step]
    split_ifs with hs
    · exact h.drive hs.1 hs.2 hl
    · exact h
  | append e =>
    have htexts : ∀ n, texts ((w.log ++ [Entry.other e]).drop n) = texts (w.log.drop n) := by
      intro n
      rw [List.drop_append, texts_append]
      cases n - w.log.length <;> simp [texts, Entry.text]
    have hall := htexts 0
    rw [List.drop_zero, List.drop_zero] at hall
    exact {
      ordered := (congrArg (fun ts ↦ (ts ++ w.sends ++ w.outbox.queue).Pairwise (· < ·))
        hall).mpr h.ordered
      once := (congrArg (fun ts ↦ (ts ++ w.sends ++ w.outbox.queue ++ w.cleared).Perm
        (List.range w.pushed)) hall).mpr h.once
      early := h.early
      one := h.one
      seen := h.seen.trans (by simp [World.step])
      gone := fun hsends ↦ (htexts _).trans (h.gone hsends)
      marked := fun hu ↦ h.marked (hu.imp id fun hne hnil ↦ hne ((htexts _).trans hnil)) }
  | sent k =>
    simp only [World.step]
    split_ifs with hk
    · have hsends := h.sends_eq hk
      have hordered := h.ordered
      have honce := h.once
      rw [hsends] at hordered honce
      have hmark := h.marked (.inl (by rw [hsends]; exact List.cons_ne_nil _ _))
      have htexts : texts (w.log ++ [.mine k]) = texts w.log ++ [k] := texts_append _ _
      exact {
        ordered := by simpa [htexts, hsends] using hordered
        once := by simpa [htexts, hsends] using honce
        early := h.early
        one := by simp [hsends]
        seen := h.seen.trans (by simp)
        gone := fun hne ↦ absurd (by simp [hsends]) hne
        marked := fun _ ↦ hmark }
    · exact h
  | fails k error =>
    simp only [World.step]
    split_ifs with hk
    · have hsends := h.sends_eq hk
      have hordered := h.ordered
      have honce := h.once
      rw [hsends] at hordered honce
      have hgone := h.gone (by rw [hsends]; exact List.cons_ne_nil _ _)
      exact {
        ordered := by simpa [Outbox.failed, hsends] using hordered
        once := by simpa [Outbox.failed, hsends] using honce
        early := h.early
        one := by simp [hsends]
        seen := h.seen
        gone := fun hne ↦ absurd (by simp [hsends]) hne
        marked := fun hu ↦ hu.elim (fun hne ↦ absurd (by simp [hsends]) hne)
          fun hne ↦ absurd hgone hne }
    · exact h
  | lost k error => exact absurd hl id

/-- **One text a turn, in order.** In every run in which nothing else is seen of the session between
the handing out of a text and its message, and in which no send fails that the server has taken, the
texts go out in the order of their pushes, each exactly once unless it was cleared, and each after
the turn of the one before has ended. -/
theorem sound_of_attentive (w : World) (h : (system.restrict Attentive).Reachable w) : w.Sound := by
  refine Kept.sound (h.invariant (I := Kept) (fun w hw ↦ ?_) fun w l w' _ hkept hl ↦ ?_)
  · obtain rfl : w = new := hw
    exact ⟨.nil, .nil, rfl, Nat.zero_le _, Nat.zero_le _, fun _ ↦ rfl,
      fun hu ↦ hu.elim (fun hne ↦ absurd rfl hne) fun hne ↦ absurd rfl hne⟩
  · obtain ⟨hattentive, rfl⟩ := hl
    exact hkept.step hattentive

/-- Two texts, each after the turn of the one before; the first send fails once. -/
def twoTurns : List Label :=
  [.push, .drive 0, .fails 0 "offline", .push, .drive 0, .sent 0, .drive 1,
    .append (.turnEnded .completed), .drive 2, .sent 1]

theorem sound_twoTurns : Sound (twoTurns.foldl step new) := by
  refine sound_of_attentive _ (.foldl_of_allMeet (S := system) (fun _ _ ↦ rfl) (.start rfl)
    ⟨trivial, ?_, trivial, trivial, ?_, trivial, ?_, trivial, ?_, trivial, trivial⟩)
  · exact fun _ ↦ ⟨rfl, fun at_ hat ↦ (by cases hat)⟩
  · exact fun _ ↦ ⟨rfl, fun at_ hat ↦ (by cases hat)⟩
  · exact fun hu ↦ hu.elim (fun hne ↦ absurd rfl hne) fun hne ↦ absurd rfl hne
  · exact fun hu ↦ hu.elim (fun hne ↦ absurd rfl hne) fun hne ↦ absurd rfl hne

/-- A notice between the handing out of the first text and its message. -/
def noticed : List Label :=
  [.push, .push, .drive 0, .append (.notice "budget"), .drive 1, .sent 1, .sent 0]

/-- The second text goes out then, and is taken before the first. -/
theorem not_sound_noticed : ¬ ∀ w, system.Reachable w → w.Sound := by
  intro h
  have hsound := h _ (reachable_foldl noticed)
  have hearly : (noticed.foldl step new).early = [1] := rfl
  rw [hsound.early] at hearly
  cases hearly

end World

end Ember.App
