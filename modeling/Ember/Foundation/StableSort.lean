import Mathlib.Data.List.Sort

/-!
# Stable sorting by a key

Sorting by a key keeps the elements of one key in the order they had (`filter_insertionSort`), so what
a sort makes of a list depends only on which elements it has for each key, in which order
(`insertionSort_eq_iff`), and what holds of elements of one key in order holds of the sorted list when
it holds of the list (`pairwise_insertionSort_key`).

The key is of any linear order, and the order may be reversed.
-/

namespace StableSort

variable {α κ : Type*} [LinearOrder κ] (key : α → κ)

/-- The larger keys first. -/
abbrev Desc (a b : α) : Prop := key a ≥ key b

variable {key}

/-- Elements of one key stay in order. -/
theorem filter_insertionSort (l : List α) (k : κ) :
    (l.insertionSort (Desc key)).filter (key · = k) = l.filter (key · = k) := by
  have hsame : (l.filter (key · = k)).Pairwise (Desc key) := by
    refine List.pairwise_of_forall_mem_list fun a ha b hb ↦ ?_
    rw [List.mem_filter, decide_eq_true_eq] at ha hb
    exact (hb.2.trans ha.2.symm).le
  have hsub := (List.sublist_insertionSort hsame List.filter_sublist).filter (key · = k)
  rw [List.filter_filter] at hsub
  simp only [Bool.and_self] at hsub
  exact (hsub.eq_of_length ((List.perm_insertionSort _ l).filter _).length_eq.symm).symm

/-- Sorted lists with the same elements for each key, in the same order, are the same. -/
theorem eq_of_filter {l l' : List α} (h : l.Pairwise (Desc key)) (h' : l'.Pairwise (Desc key))
    (heq : ∀ k, l.filter (key · = k) = l'.filter (key · = k)) : l = l' := by
  induction l generalizing l' with
  | nil =>
    refine (List.eq_nil_iff_forall_not_mem.2 fun a ha ↦ ?_).symm
    have hmem : a ∈ l'.filter (key · = key a) := List.mem_filter.2 ⟨ha, by simp⟩
    rw [← heq] at hmem
    exact List.not_mem_nil hmem
  | cons a l ih =>
    have hle : ∀ {m m' : List α} {x : α}, (x :: m).Pairwise (Desc key) →
        (∀ k, m'.filter (key · = k) = (x :: m).filter (key · = k)) → ∀ y ∈ m', key y ≤ key x := by
      intro m m' x hsorted hsame y hy
      have hmem : y ∈ m'.filter (key · = key y) := List.mem_filter.2 ⟨hy, by simp⟩
      rw [hsame] at hmem
      rcases List.mem_cons.1 (List.mem_filter.1 hmem).1 with rfl | hmem
      · exact le_rfl
      · exact List.rel_of_pairwise_cons hsorted hmem
    cases l' with
    | nil => simpa using heq (key a)
    | cons b l' =>
      have hkey : key a = key b := le_antisymm
        (hle h' heq a List.mem_cons_self) (hle h (fun k ↦ (heq k).symm) b List.mem_cons_self)
      have hhead := heq (key a)
      rw [List.filter_cons_of_pos (by simp), List.filter_cons_of_pos (by simp [hkey])] at hhead
      obtain rfl := (List.cons.inj hhead).1
      rw [ih h.of_cons h'.of_cons fun k ↦ ?_]
      by_cases hk : key a = k
      · have htail := heq k
        rw [List.filter_cons_of_pos (by simp [hk]), List.filter_cons_of_pos (by simp [hk])] at htail
        exact (List.cons.inj htail).2
      · have htail := heq k
        rwa [List.filter_cons_of_neg (by simp [hk]), List.filter_cons_of_neg (by simp [hk])] at htail

/-- **A stable sort depends on the order within each key only.** -/
theorem insertionSort_eq_iff (key : α → κ) {l l' : List α} :
    l.insertionSort (Desc key) = l'.insertionSort (Desc key) ↔
      ∀ k, l.filter (key · = k) = l'.filter (key · = k) := by
  constructor
  · intro h k
    rw [← filter_insertionSort l, h, filter_insertionSort]
  · intro h
    refine eq_of_filter (List.pairwise_insertionSort _ l) (List.pairwise_insertionSort _ l')
      fun k ↦ ?_
    rw [filter_insertionSort, filter_insertionSort, h]

/-- What is asked of elements of one key may be asked key by key. -/
theorem pairwise_key_iff {P : α → α → Prop} {l : List α} :
    l.Pairwise (fun a b ↦ key a = key b → P a b) ↔ ∀ k, (l.filter (key · = k)).Pairwise P := by
  simp only [List.pairwise_filter, decide_eq_true_eq]
  constructor
  · exact fun h k ↦ h.imp fun hab ha hb ↦ hab (ha.trans hb.symm)
  · intro h
    induction l with
    | nil => exact List.Pairwise.nil
    | cons a l ih =>
      refine List.pairwise_cons.2 ⟨fun b hb heq ↦ ?_, ih fun k ↦ (h k).of_cons⟩
      exact List.rel_of_pairwise_cons (h (key b)) hb heq rfl

theorem pairwise_insertionSort_key (key : α → κ) {P : α → α → Prop} {l : List α} :
    (l.insertionSort (Desc key)).Pairwise (fun a b ↦ key a = key b → P a b) ↔
      l.Pairwise (fun a b ↦ key a = key b → P a b) := by
  simp only [pairwise_key_iff, filter_insertionSort]

end StableSort
