import Mathlib.Data.List.Basic
import Mathlib.Data.List.Infix

/-!
# Sequences cut into groups, of which the newest are kept

The elements of a sequence arrive one by one. A group is closed by the first element with which it
is complete; what follows the last closed group is the remainder. The division grows by what one
element does to the remainder (`Cuts.open_concat`, `Cuts.close_concat`), so it does not matter in
which portions the elements arrive.

A bounded store keeps the newest elements of a growing sequence: the longest end that fits. Where
an end that fits also fits without its last element, the newest of a sequence and one element more
are the newest of what was kept and that element (`IsNewest.concat`), so dropping as the sequence
grows loses nothing that would fit later.
-/

variable {α : Type*}

/-! ### Groups -/

/-- No beginning of the group is complete. -/
def Unfinished (closed : List α → Prop) (l : List α) : Prop := ∀ p, p <+: l → ¬ closed p

/-- The group is complete, and with its last element only. -/
def Finished (closed : List α → Prop) (l : List α) : Prop :=
  closed l ∧ Unfinished closed l.dropLast

/-- The sequence `l` is the groups `groups` and a remainder `rest`. -/
structure Cuts (closed : List α → Prop) (l : List α) (groups : List (List α)) (rest : List α) :
    Prop where
  flatten : l = groups.flatten ++ rest
  group : ∀ g ∈ groups, Finished closed g
  rest : Unfinished closed rest

namespace Cuts

variable {closed : List α → Prop} {l rest : List α} {groups : List (List α)}

theorem nil (h : ¬ closed []) : Cuts closed [] [] [] where
  flatten := rfl
  group := fun _ hg ↦ absurd hg List.not_mem_nil
  rest := fun _ hp ↦ List.prefix_nil.1 hp ▸ h

/-- An element that does not complete the remainder joins it. -/
theorem open_concat (h : Cuts closed l groups rest) {a : α} (ha : ¬ closed (rest ++ [a])) :
    Cuts closed (l ++ [a]) groups (rest ++ [a]) where
  flatten := by rw [h.flatten, List.append_assoc]
  group := h.group
  rest := fun _ hp ↦ (List.prefix_concat_iff.1 hp).elim (fun heq ↦ heq ▸ ha) (h.rest _)

/-- An element that completes the remainder makes a group of it. -/
theorem close_concat (h : Cuts closed l groups rest) (hnil : ¬ closed []) {a : α}
    (ha : closed (rest ++ [a])) : Cuts closed (l ++ [a]) (groups ++ [rest ++ [a]]) [] where
  flatten := by simp [h.flatten]
  group := fun g hg ↦ by
    rcases List.mem_append.1 hg with hg | hg
    · exact h.group g hg
    · rw [List.mem_singleton.1 hg]
      exact ⟨ha, by simpa using h.rest⟩
  rest := (nil hnil).rest

end Cuts

/-! ### The newest -/

/-- What is kept of `all`: its longest end that fits. -/
structure IsNewest (Fits : List α → Prop) (kept all : List α) : Prop where
  suffix : kept <:+ all
  fits : Fits kept
  longest : ∀ l, l <:+ all → Fits l → l <:+ kept

namespace IsNewest

variable {Fits : List α → Prop} {kept kept' all : List α}

theorem of_fits (h : Fits all) : IsNewest Fits all all :=
  ⟨List.suffix_rfl, h, fun _ hl _ ↦ hl⟩

/-- The oldest element goes when not all fit. -/
theorem cons (h : IsNewest Fits kept all) {a : α} (ha : ¬ Fits (a :: all)) :
    IsNewest Fits kept (a :: all) where
  suffix := h.suffix.trans (List.suffix_cons a all)
  fits := h.fits
  longest := fun l hl hfit ↦ (List.suffix_cons_iff.1 hl).elim
    (fun heq ↦ absurd (heq ▸ hfit) ha) fun hl ↦ h.longest l hl hfit

/-- **Keeping the newest of a growing sequence**: what was dropped would not fit later either. -/
theorem concat (hdrop : ∀ l a, Fits (l ++ [a]) → Fits l) (h : IsNewest Fits kept all) {a : α}
    (h' : IsNewest Fits kept' (kept ++ [a])) : IsNewest Fits kept' (all ++ [a]) where
  suffix := h'.suffix.trans (List.suffix_concat_iff.2 (.inr ⟨kept, rfl, h.suffix⟩))
  fits := h'.fits
  longest := fun l hl hfit ↦ by
    rcases List.suffix_concat_iff.1 hl with rfl | ⟨front, rfl, hfront⟩
    · exact List.nil_suffix
    · have hkept := h.longest front hfront (hdrop front a hfit)
      exact h'.longest _ (List.suffix_concat_iff.2 (.inr ⟨front, rfl, hkept⟩)) hfit

end IsNewest
