import Mathlib.Data.List.Basic
import Mathlib.Data.List.Nodup

/-!
# Repeated elements told apart

Each element of a list is paired with the number of times it occurred before. The pairs are distinct
(`nodup_ordinals`), so a list of names becomes a list of distinct ones when a name is written with
its number such that both can be read back.
-/

namespace Ordinals

variable {α : Type*} [DecidableEq α]

/-- Each element with how often it occurred before, `seen` being what came earlier. -/
def ordinals (seen : List α) : List α → List (α × ℕ)
  | [] => []
  | a :: l => (a, seen.count a) :: ordinals (a :: seen) l

theorem count_le_of_mem {seen l : List α} {p : α × ℕ} (h : p ∈ ordinals seen l) :
    seen.count p.1 ≤ p.2 := by
  induction l generalizing seen with
  | nil => exact absurd h List.not_mem_nil
  | cons a l ih =>
    rcases List.mem_cons.1 h with rfl | h
    · exact Nat.le_refl _
    · exact Nat.le_trans List.count_le_count_cons (ih h)

/-- **An element and its number occur once.** -/
theorem nodup_ordinals (seen l : List α) : (ordinals seen l).Nodup := by
  induction l generalizing seen with
  | nil => exact List.nodup_nil
  | cons a l ih =>
    refine List.nodup_cons.2 ⟨fun h ↦ ?_, ih (a :: seen)⟩
    have hlt : (a :: seen).count a ≤ seen.count a := count_le_of_mem h
    rw [List.count_cons_self] at hlt
    omega

theorem ordinals_concat (seen l : List α) (a : α) :
    ordinals seen (l ++ [a]) = ordinals seen l ++ [(a, seen.count a + l.count a)] := by
  induction l generalizing seen with
  | nil => simp [ordinals]
  | cons b l ih =>
    rw [List.cons_append, ordinals, ih, ordinals, List.cons_append, List.count_cons,
      List.count_cons]
    congr 4
    omega

omit [DecidableEq α] in
/-- What stands before and behind the last separator. -/
theorem append_cons_inj {l l' d d' : List α} {c : α} (hd : c ∉ d) (hd' : c ∉ d')
    (h : l ++ c :: d = l' ++ c :: d') : l = l' ∧ d = d' := by
  have hmem : ∀ {m e e' : List α}, c ∉ e → c :: e = m ++ c :: e' → m = [] := by
    intro m e e' he heq
    match m with
    | [] => rfl
    | x :: m => exact absurd ((List.cons.inj heq).2 ▸ by simp) he
  rcases List.append_eq_append_iff.1 h with ⟨m, rfl, heq⟩ | ⟨m, rfl, heq⟩
  · obtain rfl := hmem hd heq
    exact ⟨(List.append_nil l).symm, (List.cons.inj heq).2⟩
  · obtain rfl := hmem hd' heq
    exact ⟨List.append_nil l', (List.cons.inj heq).2.symm⟩

end Ordinals
