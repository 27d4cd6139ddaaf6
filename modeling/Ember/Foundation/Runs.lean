import Mathlib.Data.List.Induction

/-!
# Runs of a labelled transition system

A system here is a set of initial states and a labelled step relation; a run is any finite sequence
of steps from an initial state. Everything the development says "in every reachable state" is an
instance of `Reachable.invariant`, and everything it says "in every run whose steps all meet a
condition" is the same rule at `restrict`, which keeps exactly the steps that meet the condition.

Nothing in this file knows what the states are.
-/

/-- A labelled transition system: initial states and labelled steps. -/
structure StepSystem (σ ℓ : Type*) where
  /-- The states a run may start from. -/
  init : σ → Prop
  /-- `step s l t`: doing `l` in `s` may lead to `t`. -/
  step : σ → ℓ → σ → Prop

namespace StepSystem

variable {σ ℓ : Type*} (S : StepSystem σ ℓ)

/-- The system of a function: one initial state, one outcome for each label. -/
def ofFun (s₀ : σ) (f : σ → ℓ → σ) : StepSystem σ ℓ where
  init s := s = s₀
  step s l t := t = f s l

/-- Only the steps whose label meets the condition `G` in the state they start from. -/
def restrict (G : σ → ℓ → Prop) : StepSystem σ ℓ where
  init := S.init
  step s l t := G s l ∧ S.step s l t

/-- The states at the end of a run. -/
inductive Reachable : σ → Prop
  | start {s : σ} : S.init s → Reachable s
  | next {s t : σ} (l : ℓ) : Reachable s → S.step s l t → Reachable t

variable {S}

/-- **The invariant rule.** What holds initially and survives every step from a reachable state
holds in every reachable state. -/
theorem Reachable.invariant {I : σ → Prop} (hinit : ∀ s, S.init s → I s)
    (hstep : ∀ s l t, S.Reachable s → I s → S.step s l t → I t) {s : σ}
    (h : S.Reachable s) : I s := by
  induction h with
  | start h => exact hinit _ h
  | next l hs hl ih => exact hstep _ l _ hs ih hl

/-- A run whose steps all meet a condition is a run. -/
theorem Reachable.of_restrict {G : σ → ℓ → Prop} {s : σ} (h : (S.restrict G).Reachable s) :
    S.Reachable s := by
  induction h with
  | start h => exact .start h
  | next l _ hl ih => exact .next l ih hl.2

/-- A run is a run whose steps all meet a condition that every step meets. -/
theorem Reachable.restrict {G : σ → ℓ → Prop} (hG : ∀ s l, G s l) {s : σ} (h : S.Reachable s) :
    (S.restrict G).Reachable s := by
  induction h with
  | start h => exact .start h
  | next l _ hl ih => exact .next l ih ⟨hG _ l, hl⟩

/-- The state a function's system is in after a list of labels. -/
theorem reachable_foldl {s₀ : σ} {f : σ → ℓ → σ} (ls : List ℓ) :
    (ofFun s₀ f).Reachable (ls.foldl f s₀) := by
  suffices h : ∀ s, (ofFun s₀ f).Reachable s → (ofFun s₀ f).Reachable (ls.foldl f s) from
    h s₀ (.start rfl)
  induction ls with
  | nil => exact fun s hs ↦ hs
  | cons l ls ih => exact fun s hs ↦ ih _ (.next l hs rfl)

/-- A run of a function's system whose steps all meet a condition goes on with one more. -/
theorem reachable_foldl_concat {s₀ : σ} {f : σ → ℓ → σ} {G : σ → ℓ → Prop} {ls : List ℓ} {l : ℓ}
    (h : ((ofFun s₀ f).restrict G).Reachable (ls.foldl f s₀)) (hl : G (ls.foldl f s₀) l) :
    ((ofFun s₀ f).restrict G).Reachable ((ls ++ [l]).foldl f s₀) := by
  rw [List.foldl_append]
  exact .next l h ⟨hl, rfl⟩

/-- Steps that meet the condition in every state make a run whose steps all meet it. -/
theorem reachable_foldl_of_forall {s₀ : σ} {f : σ → ℓ → σ} {G : σ → ℓ → Prop} {ls : List ℓ}
    (h : ∀ l ∈ ls, ∀ s, G s l) : ((ofFun s₀ f).restrict G).Reachable (ls.foldl f s₀) := by
  induction ls using List.reverseRecOn with
  | nil => exact .start rfl
  | append_singleton ls l ih =>
    exact reachable_foldl_concat (ih fun l' hl' ↦ h l' (List.mem_append_left _ hl'))
      (h l (List.mem_append_right _ List.mem_cons_self) _)

/-! ### Runs given as lists of labels -/

/-- Every label of a list meets the condition in the state the ones before it lead to. -/
def AllMeet (f : σ → ℓ → σ) (G : σ → ℓ → Prop) : σ → List ℓ → Prop
  | _, [] => True
  | s, l :: ls => G s l ∧ AllMeet f G (f s l) ls

instance AllMeet.decidable (f : σ → ℓ → σ) (G : σ → ℓ → Prop) [∀ s l, Decidable (G s l)] :
    ∀ s ls, Decidable (AllMeet f G s ls)
  | _, [] => isTrue trivial
  | s, l :: ls =>
    have := AllMeet.decidable f G (f s l) ls
    inferInstanceAs (Decidable (G s l ∧ AllMeet f G (f s l) ls))

theorem AllMeet.mono {f : σ → ℓ → σ} {G G' : σ → ℓ → Prop} (hG : ∀ s l, G s l → G' s l) {s : σ}
    {ls : List ℓ} (h : AllMeet f G s ls) : AllMeet f G' s ls := by
  induction ls generalizing s with
  | nil => trivial
  | cons l ls ih => exact ⟨hG s l h.1, ih h.2⟩

/-- Where each step keeps a property exactly if it meets the condition, the property holds in every
state of a run exactly if every step does. -/
theorem allMeet_iff_forall_prefix {f : σ → ℓ → σ} {G : σ → ℓ → Prop} {I P : σ → Prop}
    (hI : ∀ s l, I s → I (f s l)) (hP : ∀ s l, I s → P s → (P (f s l) ↔ G s l)) {s : σ} (hs : I s)
    (hp : P s) (ls : List ℓ) :
    AllMeet f G s ls ↔ ∀ front, front <+: ls → P (front.foldl f s) := by
  induction ls generalizing s with
  | nil =>
    refine iff_of_true trivial fun front h ↦ ?_
    rw [List.prefix_nil.1 h]
    exact hp
  | cons l ls ih =>
    constructor
    · rintro ⟨hl, hrest⟩ front hfront
      cases front with
      | nil => exact hp
      | cons a front =>
        obtain ⟨rfl, htail⟩ := List.cons_prefix_cons.1 hfront
        exact (ih (hI s a hs) ((hP s a hs hp).2 hl)).1 hrest front htail
    · intro h
      have hfirst : P (f s l) := h [l] (List.prefix_append [l] ls)
      refine ⟨(hP s l hs hp).1 hfirst, (ih (hI s l hs) hfirst).2 fun front hfront ↦ ?_⟩
      exact h (l :: front) (List.cons_prefix_cons.2 ⟨rfl, hfront⟩)

/-- Where every step is a function's, a run goes on with any list of labels. -/
theorem Reachable.foldl {f : σ → ℓ → σ} (hf : ∀ s l, S.step s l (f s l)) {s : σ}
    (h : S.Reachable s) (ls : List ℓ) : S.Reachable (ls.foldl f s) := by
  induction ls generalizing s with
  | nil => exact h
  | cons l ls ih => exact ih (.next l h (hf s l))

/-- A run whose steps all meet a condition goes on with a list whose labels all meet it. -/
theorem Reachable.foldl_of_allMeet {f : σ → ℓ → σ} {G : σ → ℓ → Prop}
    (hf : ∀ s l, S.step s l (f s l)) {s : σ} (h : (S.restrict G).Reachable s) {ls : List ℓ}
    (hmeet : AllMeet f G s ls) : (S.restrict G).Reachable (ls.foldl f s) := by
  induction ls generalizing s with
  | nil => exact h
  | cons l ls ih => exact ih (.next l h ⟨hmeet.1, hf s l⟩) hmeet.2

end StepSystem
