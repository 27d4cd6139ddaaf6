import Mathlib.Data.List.Infix

/-!
# Transducers

A transducer reads letters one by one, and each letter may give letters of another alphabet. Where
its input is cut does not matter (`transduce_append`), and what it gives for a part of an input is a
part of what it gives for the whole (`transduce_mono`).
-/

variable {σ τ α β γ : Type*}

/-- What a transducer gives for an input, and the state it is left in. -/
def transduce (f : σ → α → List β × σ) (s : σ) : List α → List β × σ
  | [] => ([], s)
  | a :: as => ((f s a).1 ++ (transduce f (f s a).2 as).1, (transduce f (f s a).2 as).2)

variable (f : σ → α → List β × σ) (s : σ)

theorem transduce_append (as as' : List α) :
    transduce f s (as ++ as') =
      ((transduce f s as).1 ++ (transduce f (transduce f s as).2 as').1,
        (transduce f (transduce f s as).2 as').2) := by
  induction as generalizing s with
  | nil => rfl
  | cons a as ih => simp only [List.cons_append, transduce, ih, List.append_assoc]

theorem transduce_concat (as : List α) (a : α) :
    transduce f s (as ++ [a]) =
      ((transduce f s as).1 ++ (f (transduce f s as).2 a).1, (f (transduce f s as).2 a).2) := by
  rw [transduce_append]
  simp only [transduce, List.append_nil]

/-- **A part of the input gives a part of the output.** -/
theorem transduce_mono {as as' : List α} (h : as <+: as') :
    (transduce f s as).1 <+: (transduce f s as').1 := by
  obtain ⟨rest, rfl⟩ := h
  rw [transduce_append]
  exact List.prefix_append _ _

/-- **Simulation**: related transducers give the same and stay related. -/
theorem transduce_simulates {R : σ → τ → Prop} {f : σ → α → List β × σ} {g : τ → α → List β × τ}
    (h : ∀ s t a, R s t → (f s a).1 = (g t a).1 ∧ R (f s a).2 (g t a).2) {s : σ} {t : τ}
    (hR : R s t) (as : List α) :
    (transduce f s as).1 = (transduce g t as).1 ∧ R (transduce f s as).2 (transduce g t as).2 := by
  induction as generalizing s t with
  | nil => exact ⟨rfl, hR⟩
  | cons a as ih =>
    obtain ⟨hout, hnext⟩ := h s t a hR
    obtain ⟨hrest, hlast⟩ := ih hnext
    exact ⟨by rw [transduce, transduce, hout, hrest], hlast⟩
