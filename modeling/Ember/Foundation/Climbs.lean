import Mathlib.Data.List.Induction
import Mathlib.Data.List.Nodup

/-!
# Lists of numbers that climb by ones

A list climbs when every number that is new in it follows its predecessor: numbers may come again,
as in a stream that is resent, but none is skipped. A list that climbs and repeats nothing is a run
of consecutive numbers (`Climbs.eq_range'`).

Nothing in this file knows what the numbers count.
-/

/-- Every number after the first one was in the list before, or follows its predecessor. -/
def Climbs (l : List ℕ) : Prop :=
  ∀ pre x post, l = pre ++ x :: post → pre ≠ [] → x ∈ pre ∨ ∃ y ∈ pre, x = y + 1

namespace Climbs

variable {l l' : List ℕ} {x a n : ℕ}

theorem nil : Climbs [] := fun pre x post h ↦ absurd h (by simp)

theorem of_append (h : Climbs (l ++ l')) : Climbs l := fun pre x post hl ↦
  h pre x (post ++ l') (by rw [hl, List.append_assoc, List.cons_append])

/-- One more number. -/
theorem concat (h : Climbs l) (hx : l ≠ [] → x ∈ l ∨ ∃ y ∈ l, x = y + 1) : Climbs (l ++ [x]) := by
  intro pre y post heq
  rcases List.eq_nil_or_concat post with rfl | ⟨init, z, rfl⟩
  · obtain ⟨rfl, hxy⟩ := List.append_inj' heq rfl
    obtain rfl : x = y := by simpa using hxy
    exact hx
  · rw [List.concat_eq_append, ← List.cons_append, ← List.append_assoc] at heq
    exact h pre y init (List.append_inj' heq rfl).1

/-- Numbers that come again. -/
theorem append_of_subset (h : Climbs l) (hl' : ∀ x ∈ l', x ∈ l) : Climbs (l ++ l') := by
  induction l' generalizing l with
  | nil => rwa [List.append_nil]
  | cons x l' ih =>
    rw [← List.singleton_append, ← List.append_assoc]
    refine ih (h.concat fun _ ↦ .inl (hl' x List.mem_cons_self)) fun y hy ↦ ?_
    exact List.mem_append_left _ (hl' y (List.mem_cons_of_mem _ hy))

/-- Consecutive numbers climb. -/
theorem range' (a n : ℕ) : Climbs (List.range' a n) := by
  induction n with
  | zero => exact nil
  | succ n ih =>
    rw [List.range'_concat, Nat.one_mul]
    refine ih.concat fun hne ↦ .inr ⟨a + n - 1, ?_, ?_⟩
    all_goals
      have hpos : n ≠ 0 := fun h ↦ hne (by rw [h]; rfl)
    · rw [List.mem_range'_1]
      omega
    · omega

/-- **A list that climbs and repeats nothing is a run of consecutive numbers.** -/
theorem eq_range' (h : Climbs l) (hnd : l.Nodup) : ∃ a, l = List.range' a l.length := by
  induction l using List.reverseRecOn with
  | nil => exact ⟨0, rfl⟩
  | append_singleton l x ih =>
    obtain ⟨a, ha⟩ := ih h.of_append (List.nodup_append.1 hnd).1
    have hnew : x ∉ l := fun hx ↦ (List.nodup_append.1 hnd).2.2 x hx x List.mem_cons_self rfl
    generalize l.length = n at ha
    subst ha
    by_cases hne : n = 0
    · subst hne
      exact ⟨x, rfl⟩
    refine ⟨a, ?_⟩
    have hl : List.range' a n ≠ [] := by rwa [Ne, List.range'_eq_nil_iff]
    obtain hx | ⟨y, hy, rfl⟩ := h (List.range' a n) x [] rfl hl
    · exact absurd hx hnew
    · rw [List.mem_range'_1] at hy hnew
      rw [List.length_append, List.length_range', List.length_singleton, List.range'_concat,
        Nat.one_mul]
      congr 2
      omega

end Climbs
