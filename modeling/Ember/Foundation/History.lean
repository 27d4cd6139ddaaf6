import Mathlib.Data.List.Induction
import Mathlib.Data.List.Infix

/-!
# Histories

A history is the list of what happened so far, oldest first, and it only grows. Statements about
runs are statements about the entries of a history and what came before each of them:
`Throughout P h` says that every entry `e` of `h` satisfies `P pre e`, where `pre` is what had
happened before it. A step that records one entry keeps such a statement when the new entry
satisfies it; nothing has to be said again about the old ones.
-/

namespace History

variable {α : Type*} {P Q : List α → α → Prop} {h : List α} {e : α}

/-- Every entry satisfies `P` of what came before it. -/
def Throughout (P : List α → α → Prop) (h : List α) : Prop :=
  ∀ pre e post, h = pre ++ e :: post → P pre e

@[simp] theorem throughout_nil : Throughout P [] := by
  intro pre e post h
  simp at h

theorem Throughout.concat (hP : Throughout P h) (he : P h e) : Throughout P (h ++ [e]) := by
  intro pre e' post heq
  induction post using List.reverseRecOn with
  | nil =>
    obtain ⟨rfl, hee⟩ := List.append_inj' heq rfl
    obtain rfl : e = e' := by simpa using hee
    exact he
  | append_singleton post x _ =>
    have : h ++ [e] = (pre ++ e' :: post) ++ [x] := by simpa using heq
    exact hP pre e' post (List.append_inj' this rfl).1

theorem throughout_concat_iff : Throughout P (h ++ [e]) ↔ Throughout P h ∧ P h e := by
  refine ⟨fun hP ↦ ⟨fun pre e' post heq ↦ hP pre e' (post ++ [e]) (by simp [heq]), hP h e [] rfl⟩,
    fun ⟨hP, he⟩ ↦ hP.concat he⟩

theorem Throughout.mono (hP : Throughout P h) (hPQ : ∀ pre e, P pre e → Q pre e) :
    Throughout Q h := fun pre e post heq ↦ hPQ pre e (hP pre e post heq)

end History
