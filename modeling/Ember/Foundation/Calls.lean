import Ember.Foundation.Runs
import Mathlib.Logic.Function.Basic

/-!
# Calls in progress

Calls over one shared state, each a sequence of atomic steps, in any interleaving: what is left of
each call in progress is part of the state, and a step does the next thing that is left of one of
them. A `Program` says what calls there are, what one step of a call does, and how the shared state
changes by itself.

`Calls.owed_of_run` is the rule for books that calls change one after the other: if whatever is
wrong is owed by a call in progress, then nothing is wrong when no call is in progress.

Nothing in this file knows what the calls do.
-/

/-- What calls do over a shared state `σ`: `ι` are the calls one can make, `π` what is left of a
call, `δ` what a step finds out (the time, or that a write fails), `ε` what else happens. -/
structure Program (σ ι π δ ε : Type*) where
  /-- What there is to do for a call. -/
  enter : ι → π
  /-- One atomic step, and what is left after it; `none` when the call has returned. -/
  step : σ → π → δ → σ × Option π
  /-- The shared state changes by itself. -/
  env : σ → ε → σ

/-- A shared state, and what is left of each call that has not returned. -/
structure Calls (σ π : Type*) where
  shared : σ
  call : ℕ → Option π

/-- What happens next. -/
inductive CallAct (ι δ ε : Type*)
  /-- Someone makes a call, under a number that is free. -/
  | start (i : ℕ) (c : ι)
  /-- A call takes a step. -/
  | step (i : ℕ) (d : δ)
  | env (e : ε)
  deriving DecidableEq

namespace Calls

variable {σ ι π δ ε κ : Type*} (P : Program σ ι π δ ε)

/-- No call is in progress. -/
def idle (s : σ) : Calls σ π := ⟨s, fun _ ↦ none⟩

/-- One act. -/
def act (w : Calls σ π) : CallAct ι δ ε → Calls σ π
  | .start i c =>
    match w.call i with
    | none => { w with call := Function.update w.call i (some (P.enter c)) }
    | some _ => w
  | .step i d =>
    match w.call i with
    | none => w
    | some p => ⟨(P.step w.shared p d).1, Function.update w.call i (P.step w.shared p d).2⟩
  | .env e => { w with shared := P.env w.shared e }

/-- The runs that begin with a shared state and no call. -/
def system (s : σ) : StepSystem (Calls σ π) (CallAct ι δ ε) := .ofFun (idle s) (act P)

/-- No call is in progress. -/
def Quiet (w : Calls σ π) : Prop := ∀ i, w.call i = none

/-- A call other than `i`, of which is left what meets `Q`. -/
def Another (w : Calls σ π) (i : ℕ) (Q : π → Prop) : Prop :=
  ∃ j, j ≠ i ∧ ∃ q, w.call j = some q ∧ Q q

variable {P} {w : Calls σ π} {s : σ} {i : ℕ} {p : π}

theorem act_step (hp : w.call i = some p) (d : δ) :
    act P w (.step i d) =
      ⟨(P.step w.shared p d).1, Function.update w.call i (P.step w.shared p d).2⟩ := by
  simp only [act, hp]

theorem act_step_of_none (hp : w.call i = none) (d : δ) : act P w (.step i d) = w := by
  simp only [act, hp]

/-- A start leaves the shared state alone, and every call that is in progress. -/
theorem shared_start (w : Calls σ π) (i : ℕ) (c : ι) :
    (act P w (.start i c : CallAct ι δ ε)).shared = w.shared := by
  simp only [act]
  split <;> rfl

theorem call_start {q : π} {j : ℕ} (hq : w.call j = some q) (c : ι) :
    (act P w (.start i c : CallAct ι δ ε)).call j = some q := by
  simp only [act]
  split
  case h_1 hnone =>
    have hne : j ≠ i := fun heq ↦ by rw [heq, hnone] at hq; cases hq
    exact (Function.update_of_ne hne _ _).trans hq
  case h_2 => exact hq

/-- A call that is in progress after a start is the new one, or was in progress before. -/
theorem of_call_start {q : π} {j : ℕ} {c : ι}
    (hq : (act P w (.start i c : CallAct ι δ ε)).call j = some q) :
    q = P.enter c ∨ w.call j = some q := by
  simp only [act] at hq
  split at hq
  case h_1 hnone =>
    by_cases hj : j = i
    · subst hj
      exact .inl (Option.some.inj ((Function.update_self (β := fun _ ↦ Option π) j _ w.call).symm.trans hq)).symm
    · exact .inr ((Function.update_of_ne hj _ _).symm.trans hq)
  case h_2 => exact .inr hq

/-- **What holds of the shared state, and of what is left of every call**, holds in every run whose
steps keep it: of the state, of the call that takes the step, and of the others. -/
theorem invariant_of_run {I : σ → Prop} {J : σ → π → Prop} {G : Calls σ π → CallAct ι δ ε → Prop}
    (h₀ : I s) (henter : ∀ s c, I s → J s (P.enter c))
    (henv : ∀ w e, G w (.env e) → I w.shared → (∀ j q, w.call j = some q → J w.shared q) →
      I (P.env w.shared e) ∧ ∀ j q, w.call j = some q → J (P.env w.shared e) q)
    (hstep : ∀ w i d p, ((system P s).restrict G).Reachable w → G w (.step i d) →
      w.call i = some p → I w.shared → (∀ j q, w.call j = some q → J w.shared q) →
      I (P.step w.shared p d).1 ∧ (∀ p' ∈ (P.step w.shared p d).2, J (P.step w.shared p d).1 p') ∧
      ∀ j q, j ≠ i → w.call j = some q → J (P.step w.shared p d).1 q)
    (h : ((system P s).restrict G).Reachable w) :
    I w.shared ∧ ∀ i p, w.call i = some p → J w.shared p := by
  induction h with
  | start h =>
    obtain rfl := h
    exact ⟨h₀, fun i p hp ↦ by cases hp⟩
  | @next w w' l hw hl ih =>
    obtain ⟨hG, rfl⟩ := hl
    cases l with
    | start i c =>
      rw [shared_start]
      refine ⟨ih.1, fun j q hq ↦ ?_⟩
      rcases of_call_start hq with rfl | hq
      · exact henter _ c ih.1
      · exact ih.2 j q hq
    | env e => exact henv w e hG ih.1 ih.2
    | step i d =>
      cases hp : w.call i with
      | none => rwa [act_step_of_none hp]
      | some p =>
        obtain ⟨hI, hself, hothers⟩ := hstep w i d p hw hG hp ih.1 ih.2
        rw [act_step hp]
        refine ⟨hI, fun j q hq ↦ ?_⟩
        by_cases hj : j = i
        · subst hj
          exact hself q ((Function.update_self j _ _).symm.trans hq)
        · exact hothers j q hj ((Function.update_of_ne hj _ _).symm.trans hq)

/-- The same, where nothing about the run matters for a step. -/
theorem invariant {I : σ → Prop} {J : σ → π → Prop} {G : Calls σ π → CallAct ι δ ε → Prop}
    (h₀ : I s) (henter : ∀ s c, I s → J s (P.enter c))
    (henv : ∀ w e, G w (.env e) → I w.shared → I (P.env w.shared e) ∧
      ∀ q, J w.shared q → J (P.env w.shared e) q)
    (hstep : ∀ w i d p, G w (.step i d) → w.call i = some p → I w.shared →
      (∀ j q, w.call j = some q → J w.shared q) →
      I (P.step w.shared p d).1 ∧ (∀ p' ∈ (P.step w.shared p d).2, J (P.step w.shared p d).1 p') ∧
      ∀ j q, j ≠ i → w.call j = some q → J (P.step w.shared p d).1 q)
    (h : ((system P s).restrict G).Reachable w) :
    I w.shared ∧ ∀ i p, w.call i = some p → J w.shared p :=
  invariant_of_run h₀ henter
    (fun w e hG hI hJ ↦ ⟨(henv w e hG hI).1, fun j q hq ↦ (henv w e hG hI).2 q (hJ j q hq)⟩)
    (fun w i d p _ hG hp hI hJ ↦ hstep w i d p hG hp hI hJ) h

/-! ### A lock -/

/-- How calls take and give back a lock of the shared state. -/
structure Guards (P : Program σ ι π δ ε) (held : σ → Prop) (holds : π → Prop) : Prop where
  enter : ∀ c, ¬ holds (P.enter c)
  env : ∀ s e, held s → held (P.env s e)
  /-- A call that does not hold the lock takes it only where it is free. -/
  take : ∀ s p d, ¬ holds p → ∀ p' ∈ (P.step s p d).2, holds p' → ¬ held s
  taken : ∀ s p d, (holds p → held s) → ∀ p' ∈ (P.step s p d).2, holds p' → held (P.step s p d).1
  /-- A call that does not hold the lock does not give it back. -/
  keep : ∀ s p d, ¬ holds p → held s → held (P.step s p d).1

/-- **At most one call holds the lock**, and the shared state says that it is held. -/
theorem Guards.exclusive {held : σ → Prop} {holds : π → Prop} (hguards : Guards P held holds)
    (h : (system P s).Reachable w) :
    (∀ i p, w.call i = some p → holds p → held w.shared) ∧
      ∀ i j p q, w.call i = some p → w.call j = some q → holds p → holds q → i = j := by
  induction h with
  | start h =>
    obtain rfl := h
    exact ⟨fun i p hp ↦ (by cases hp), fun i j p q hp ↦ (by cases hp)⟩
  | @next w w' l _ hl ih =>
    obtain rfl := hl
    cases l with
    | start i c =>
      rw [shared_start]
      have hold : ∀ {j q}, (act P w (.start i c : CallAct ι δ ε)).call j = some q → holds q →
          w.call j = some q := fun hq hh ↦
        (of_call_start hq).resolve_left fun heq ↦ hguards.enter c (heq ▸ hh)
      exact ⟨fun j q hq hh ↦ ih.1 j q (hold hq hh) hh,
        fun j k q r hq hr hhq hhr ↦ ih.2 j k q r (hold hq hhq) (hold hr hhr) hhq hhr⟩
    | env e => exact ⟨fun j q hq hh ↦ hguards.env _ e (ih.1 j q hq hh), ih.2⟩
    | step i d =>
      cases hp : w.call i with
      | none => rwa [act_step_of_none hp]
      | some p =>
        rw [act_step hp]
        -- After the step a call that holds the lock is `i`, or held it before beside `i` not holding.
        have hself : ∀ {q}, Function.update w.call i (P.step w.shared p d).2 i = some q →
            q ∈ (P.step w.shared p d).2 := fun hq ↦ (Function.update_self i _ _).symm.trans hq
        have hother : ∀ {j q}, j ≠ i → Function.update w.call i (P.step w.shared p d).2 j = some q →
            w.call j = some q := fun hj hq ↦ (Function.update_of_ne hj _ _).symm.trans hq
        have hfree : ∀ {j q}, j ≠ i → w.call j = some q → holds q → ¬ holds p :=
          fun hj hq hh hhp ↦ hj (ih.2 _ _ _ _ hq hp hh hhp)
        have hone : ∀ {j q r}, j ≠ i → w.call j = some q → holds q →
            r ∈ (P.step w.shared p d).2 → ¬ holds r := fun hj hq hh hr hhr ↦
          hguards.take _ p d (hfree hj hq hh) _ hr hhr (ih.1 _ _ hq hh)
        refine ⟨fun j q hq hh ↦ ?_, fun j k q r hq hr hhq hhr ↦ ?_⟩
        · by_cases hj : j = i
          · subst hj
            exact hguards.taken _ p d (ih.1 _ p hp) q (hself hq) hh
          · exact hguards.keep _ p d (hfree hj (hother hj hq) hh) (ih.1 j q (hother hj hq) hh)
        · by_cases hj : j = i <;> by_cases hk : k = i
          · exact hj.trans hk.symm
          · subst hj
            exact absurd hhq (hone hk (hother hk hr) hhr (hself hq))
          · subst hk
            exact absurd hhr (hone hj (hother hj hq) hhq (hself hr))
          · exact ih.2 j k q r (hother hj hq) (hother hk hr) hhq hhr

/-- **Whatever is wrong is owed by a call in progress**, if every step that makes something wrong
leaves it owed, and no step leaves wrong what it was the last to owe. -/
theorem owed_of_run {W : σ → κ → Prop} {O : π → κ → Prop}
    {G : Calls σ π → CallAct ι δ ε → Prop} (h₀ : ∀ k, ¬ W s k)
    (henv : ∀ w e k, G w (.env e) → W (P.env w.shared e) k → W w.shared k)
    (hstep : ∀ w i d p k, ((system P s).restrict G).Reachable w → G w (.step i d) →
      w.call i = some p → W (P.step w.shared p d).1 k →
      (W w.shared k ∧ ¬ O p k) ∨ (∃ p' ∈ (P.step w.shared p d).2, O p' k) ∨
        w.Another i (O · k))
    (h : ((system P s).restrict G).Reachable w) {k : κ} (hk : W w.shared k) :
    ∃ i p, w.call i = some p ∧ O p k := by
  induction h with
  | start h =>
    obtain rfl := h
    exact absurd hk (h₀ k)
  | @next w w' l hw hl ih =>
    obtain ⟨hG, rfl⟩ := hl
    cases l with
    | start i c =>
      rw [shared_start] at hk
      obtain ⟨j, q, hq, howes⟩ := ih hk
      exact ⟨j, q, call_start hq c, howes⟩
    | env e => exact ih (henv w e k hG hk)
    | step i d =>
      cases hp : w.call i with
      | none =>
        rw [act_step_of_none hp] at hk ⊢
        exact ih hk
      | some p =>
        rw [act_step hp] at hk ⊢
        -- A debt of another call is there after the step, too.
        have hkeep : ∀ {j q}, j ≠ i → w.call j = some q → O q k →
            ∃ j q, Function.update w.call i (P.step w.shared p d).2 j = some q ∧ O q k :=
          fun hj hq howes ↦ ⟨_, _, (Function.update_of_ne hj _ _).trans hq, howes⟩
        rcases hstep w i d p k hw hG hp hk with ⟨hwrong, hnot⟩ | ⟨p', hp', howes⟩ | ⟨j, hj, q, hq, howes⟩
        · obtain ⟨j, q, hq, howes⟩ := ih hwrong
          refine hkeep (fun hj ↦ hnot ?_) hq howes
          obtain rfl : p = q := Option.some.inj (hp.symm.trans (hj ▸ hq))
          exact howes
        · exact ⟨i, p', (Function.update_self i _ _).trans hp', howes⟩
        · exact hkeep hj hq howes

/-- When no call is in progress, nothing is owed. -/
theorem Quiet.not_owed (h : w.Quiet) {Q : π → Prop} : ¬ ∃ i p, w.call i = some p ∧ Q p := by
  rintro ⟨i, p, hp, -⟩
  rw [h i] at hp
  cases hp

/-! ### Runs given as lists -/

/-- Only calls with numbers below `n` are made. -/
def startsBelow (n : ℕ) : CallAct ι δ ε → Bool
  | .start i _ => i < n
  | _ => true

theorem call_act_of_startsBelow {n : ℕ} {l : CallAct ι δ ε} (hl : startsBelow n l)
    (hn : w.call i = none) (hi : n ≤ i) : (act P w l).call i = none := by
  cases l with
  | start j c =>
    have hne : i ≠ j := fun heq ↦ absurd (of_decide_eq_true hl) (heq ▸ Nat.not_lt.2 hi)
    simp only [act]
    split
    · exact (Function.update_of_ne hne _ _).trans hn
    · exact hn
  | step j d =>
    cases hp : w.call j with
    | none => rwa [act_step_of_none hp]
    | some p =>
      have hne : i ≠ j := fun heq ↦ by rw [← heq, hn] at hp; cases hp
      rw [act_step hp]
      exact (Function.update_of_ne hne _ _).trans hn
  | env e => exact hn

/-- After a run in which only calls below `n` are made, no other call is in progress. -/
theorem call_foldl_of_startsBelow {ls : List (CallAct ι δ ε)} {n : ℕ}
    (hls : ls.all (startsBelow n)) (hi : n ≤ i) : (ls.foldl (act P) (idle s)).call i = none := by
  suffices h : ∀ w : Calls σ π, w.call i = none → (ls.foldl (act P) w).call i = none from h _ rfl
  induction ls with
  | nil => exact fun w hw ↦ hw
  | cons l ls ih =>
    obtain ⟨hl, hls⟩ := Bool.and_eq_true_iff.1 hls
    exact fun w hw ↦ ih hls _ (call_act_of_startsBelow hl hw hi)

theorem quiet_foldl {ls : List (CallAct ι δ ε)} (n : ℕ) (hls : ls.all (startsBelow n))
    (hlt : ∀ i < n, (ls.foldl (act P) (idle s)).call i = none) :
    (ls.foldl (act P) (idle s)).Quiet :=
  fun i ↦ (Nat.lt_or_ge i n).elim (hlt i) (call_foldl_of_startsBelow hls)

end Calls
