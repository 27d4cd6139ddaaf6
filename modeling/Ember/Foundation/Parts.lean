import Mathlib.Data.Finset.Basic

/-!
# What a step may change

A state that is made of named parts and keeps a list of the outputs it asked for. `Changes F s s'`
says that a step from `s` to `s'` leaves every part outside `F` as it was and appends only outputs
that are about parts in `F`. The frames of two steps add up, so a long function has the frame its
helpers have together, and an invariant over some parts survives every step whose frame avoids them.

Nothing here knows what the parts are. A part is kept in the sense of a preorder, so that "does not
decrease" is a way to be kept, too.
-/

/-- The parts of a state, and the part an output is about. -/
structure Parts (σ ε ι : Type*) where
  /-- The second state has this part as the first one has it. -/
  keeps : ι → σ → σ → Prop
  refl : ∀ i s, keeps i s s
  trans : ∀ i {s t u}, keeps i s t → keeps i t u → keeps i s u
  /-- The outputs asked for so far. -/
  out : σ → List ε
  /-- What an output is about, if it is about a part at all. -/
  about : ε → Option ι

namespace Parts

variable {σ ε ι : Type*} (P : Parts σ ε ι)

/-- A step that changes at most the parts `F`. -/
structure Changes (F : Finset ι) (s s' : σ) : Prop where
  keep : ∀ i ∉ F, P.keeps i s s'
  out : ∃ es, P.out s' = P.out s ++ es ∧ ∀ e ∈ es, ∀ i ∈ P.about e, i ∈ F

variable {P} {F G : Finset ι} {s t u : σ}

namespace Changes

theorem refl (s : σ) : P.Changes ∅ s s :=
  ⟨fun i _ ↦ P.refl i s, [], by simp, fun _ he ↦ absurd he List.not_mem_nil⟩

theorem mono (h : P.Changes F s t) (hsub : F ⊆ G) : P.Changes G s t := by
  obtain ⟨keep, es, hes, habout⟩ := h
  exact ⟨fun i hi ↦ keep i fun hmem ↦ hi (hsub hmem), es, hes,
    fun e he i hi ↦ hsub (habout e he i hi)⟩

/-- The frames of two steps add up. -/
theorem trans [DecidableEq ι] (h : P.Changes F s t) (h' : P.Changes G t u) :
    P.Changes (F ∪ G) s u := by
  have hl : P.Changes (F ∪ G) s t := h.mono Finset.subset_union_left
  have hr : P.Changes (F ∪ G) t u := h'.mono Finset.subset_union_right
  obtain ⟨keep, es, hes, habout⟩ := hl
  obtain ⟨keep', es', hes', habout'⟩ := hr
  refine ⟨fun i hi ↦ P.trans i (keep i hi) (keep' i hi), es ++ es', ?_, fun e he ↦ ?_⟩
  · rw [hes', hes, List.append_assoc]
  · exact (List.mem_append.1 he).elim (habout e) (habout' e)

/-- Two steps with the same frame. -/
theorem trans_same (h : P.Changes F s t) (h' : P.Changes F t u) : P.Changes F s u := by
  classical exact (h.trans h').mono (Finset.union_subset subset_rfl subset_rfl)

/-- A loop has the frame of its body. -/
theorem foldl {α : Type*} {f : σ → α → σ} {l : List α}
    (h : ∀ s, ∀ a ∈ l, P.Changes F s (f s a)) (s : σ) : P.Changes F s (l.foldl f s) := by
  induction l generalizing s with
  | nil => exact (refl s).mono (Finset.empty_subset F)
  | cons a l ih =>
    exact (h s a List.mem_cons_self).trans_same (ih (fun s b hb ↦ h s b (List.mem_cons_of_mem a hb)) _)

/-- What a reader of outputs collects is untouched by a step that asks for no output it reads. -/
theorem filterMap_out {β : Type*} {g : ε → Option β} (h : P.Changes F s t)
    (hg : ∀ e b, g e = some b → ∃ i ∉ F, P.about e = some i) :
    (P.out t).filterMap g = (P.out s).filterMap g := by
  obtain ⟨es, hes, habout⟩ := h.out
  have hnil : es.filterMap g = [] := by
    rw [List.filterMap_eq_nil_iff]
    intro e he
    rcases hge : g e with _ | b
    · rfl
    · obtain ⟨i, hi, hie⟩ := hg e b hge
      exact absurd (habout e he i hie) hi
  rw [hes, List.filterMap_append, hnil, List.append_nil]

end Changes

end Parts
