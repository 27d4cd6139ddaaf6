import Mathlib.Algebra.BigOperators.Group.List.Basic
import Mathlib.Algebra.Ring.Nat
import Mathlib.Data.List.Nodup

/-!
# Finite tables

A table is a list of keys with their values, each key once. Two tables are inverse to each other
when one has a value for a key exactly if the other has the key for the value. Putting a pair into
both, dropping the same pairs from both and giving some keys other names (`Inverse.rename`) keep
them inverse. The values of a table can be weighed together.
-/

namespace Table

variable {κ ν : Type*} {t : List (κ × ν)} {u : List (ν × κ)} {k : κ} {v : ν}

/-- Each key has one value. -/
def Keyed (t : List (κ × ν)) : Prop := t.Pairwise fun e e' ↦ e.1 ≠ e'.1

theorem Keyed.filter (h : Keyed t) (p : κ × ν → Bool) : Keyed (t.filter p) :=
  List.Pairwise.filter p h

variable [DecidableEq κ]

/-- The table without a key. -/
def erase (t : List (κ × ν)) (k : κ) : List (κ × ν) := t.filter (·.1 ≠ k)

/-- The table with a value for a key. -/
def put (t : List (κ × ν)) (e : κ × ν) : List (κ × ν) := e :: erase t e.1

theorem mem_erase {e : κ × ν} : e ∈ erase t k ↔ e ∈ t ∧ e.1 ≠ k := by
  rw [erase, List.mem_filter, decide_eq_true_eq]

theorem mem_put {e e' : κ × ν} : e ∈ put t e' ↔ e = e' ∨ e ∈ t ∧ e.1 ≠ e'.1 := by
  rw [put, List.mem_cons, mem_erase]

theorem Keyed.put (h : Keyed t) (e : κ × ν) : Keyed (put t e) :=
  List.pairwise_cons.2 ⟨fun _ he ↦ (mem_erase.1 he).2.symm, h.filter _⟩

theorem Keyed.lookup {_ : BEq κ} [LawfulBEq κ] (h : Keyed t) :
    t.lookup k = some v ↔ (k, v) ∈ t := by
  induction t with
  | nil => simp
  | cons e t ih =>
    obtain ⟨hfirst, hrest⟩ := List.pairwise_cons.1 h
    rw [List.lookup_cons, List.mem_cons]
    by_cases hk : k = e.1
    · subst hk
      rw [BEq.rfl, Option.some.injEq]
      exact ⟨fun hv ↦ .inl (hv ▸ rfl),
        fun hmem ↦ hmem.elim (fun he ↦ he ▸ rfl) fun he ↦ absurd rfl (hfirst (e.1, v) he)⟩
    · rw [beq_eq_false_iff_ne.2 hk, ih hrest]
      exact ⟨.inr, fun hmem ↦ hmem.elim (fun he ↦ absurd (congrArg Prod.fst he) hk) id⟩

theorem erase_of_lookup {_ : BEq κ} [LawfulBEq κ] (h : t.lookup k = none) : erase t k = t :=
  List.filter_eq_self.2 fun e he ↦
    decide_eq_true (bne_iff_ne.1 (List.lookup_eq_none_iff.1 h e he)).symm

/-! ### Several pairs put in -/

theorem Keyed.foldl_put (h : Keyed t) (l : List (κ × ν)) : Keyed (l.foldl Table.put t) := by
  induction l generalizing t with
  | nil => exact h
  | cons e l ih => exact ih (h.put e)

theorem mem_foldl_put {l : List (κ × ν)} (hl : Keyed l) {e : κ × ν} :
    e ∈ l.foldl put t ↔ e ∈ l ∨ e ∈ t ∧ ∀ x ∈ l, x.1 ≠ e.1 := by
  induction l generalizing t with
  | nil => simp
  | cons x l ih =>
    obtain ⟨hfirst, hrest⟩ := List.pairwise_cons.1 hl
    rw [List.foldl_cons, ih hrest, mem_put, List.mem_cons, List.forall_mem_cons]
    constructor
    · rintro (he | ⟨rfl | ⟨he, hne⟩, hall⟩)
      · exact .inl (.inr he)
      · exact .inl (.inl rfl)
      · exact .inr ⟨he, hne.symm, hall⟩
    · rintro ((rfl | he) | ⟨he, hne, hall⟩)
      · exact .inr ⟨.inl rfl, fun y hy ↦ (hfirst y hy).symm⟩
      · exact .inl he
      · exact .inr ⟨.inr ⟨he, hne.symm⟩, hall⟩

/-! ### Inverse tables -/

/-- Each table has a value for a key exactly if the other has the key for the value. -/
structure Inverse (t : List (κ × ν)) (u : List (ν × κ)) : Prop where
  keyed : Keyed t
  keyed' : Keyed u
  mem : ∀ k v, (k, v) ∈ t ↔ (v, k) ∈ u

theorem Keyed.value_inj (h : Keyed t) {v' : ν} (hv : (k, v) ∈ t) (hv' : (k, v') ∈ t) : v = v' := by
  have hlookup : t.lookup k = some v := h.lookup.2 hv
  exact Option.some.inj (hlookup.symm.trans (h.lookup.2 hv'))

variable [DecidableEq ν]

omit [DecidableEq κ] in
theorem Inverse.key_inj (h : Inverse t u) {k' : κ} (hk : (k, v) ∈ t) (hk' : (k', v) ∈ t) : k = k' :=
  h.keyed'.value_inj ((h.mem k v).1 hk) ((h.mem k' v).1 hk')

/-- A new pair is put into both. -/
theorem Inverse.put (h : Inverse t u) (hk : ∀ v', (k, v') ∉ t) (hv : ∀ k', (v, k') ∉ u) :
    Inverse (Table.put t (k, v)) (Table.put u (v, k)) where
  keyed := h.keyed.put _
  keyed' := h.keyed'.put _
  mem k' v' := by
    rw [mem_put, mem_put, h.mem k' v']
    simp only [Prod.mk.injEq, ne_eq, and_comm (a := v' = v)]
    refine or_congr Iff.rfl (and_congr_right fun hmem ↦ ?_)
    exact iff_of_true (fun he ↦ hk v' (he ▸ (h.mem k' v').2 hmem)) fun he ↦ hv k' (he ▸ hmem)

omit [DecidableEq κ] [DecidableEq ν] in
/-- The same pairs are dropped from both. -/
theorem Inverse.filter (h : Inverse t u) {p : κ × ν → Bool} {q : ν × κ → Bool}
    (hpq : ∀ k v, (k, v) ∈ t → p (k, v) = q (v, k)) : Inverse (t.filter p) (u.filter q) where
  keyed := h.keyed.filter p
  keyed' := h.keyed'.filter q
  mem k v := by
    rw [List.mem_filter, List.mem_filter, ← h.mem k v]
    exact and_congr_right fun hmem ↦ by rw [hpq k v hmem]

/-- **Some keys get other names**, different ones that no other key has. -/
theorem Inverse.rename (h : Inverse t u) (p : κ → Bool) (f : κ → κ)
    (hinj : ∀ k k', p k = true → p k' = true → f k = f k' → k = k')
    (hfree : ∀ k v k' v', (k, v) ∈ t → p k = true → (k', v') ∈ t → p k' = false → f k ≠ k') :
    let moved := (t.filter (p ·.1)).map fun e ↦ (f e.1, e.2)
    Inverse (moved.foldl Table.put (t.filter (! p ·.1))) ((moved.map Prod.swap).foldl Table.put u) ∧
      ∀ k v, (k, v) ∈ moved.foldl Table.put (t.filter (! p ·.1)) ↔
        (∃ k', (k', v) ∈ t ∧ p k' = true ∧ f k' = k) ∨ (k, v) ∈ t ∧ p k = false := by
  intro moved
  have hmoved (k v) : (k, v) ∈ moved ↔ ∃ k', (k', v) ∈ t ∧ p k' = true ∧ f k' = k := by
    simp only [moved, List.mem_map, List.mem_filter, Prod.mk.injEq, Prod.exists]
    exact ⟨fun ⟨k', v', ⟨hmem, hp⟩, hk, hv⟩ ↦ ⟨k', hv ▸ hmem, hp, hk⟩,
      fun ⟨k', hmem, hp, hk⟩ ↦ ⟨k', v, ⟨hmem, hp⟩, hk, rfl⟩⟩
  have hkeyed : Keyed moved := by
    refine List.pairwise_map.2 (List.Pairwise.imp_of_mem (fun {e e'} he he' hne heq ↦ ?_)
      (h.keyed.filter (p ·.1)))
    exact hne (hinj _ _ (List.mem_filter.1 he).2 (List.mem_filter.1 he').2 heq)
  have hvalues : Keyed (moved.map Prod.swap) := by
    refine List.pairwise_map.2 (List.pairwise_map.2 (List.Pairwise.imp_of_mem
      (fun {e e'} he he' hne heq ↦ ?_) (h.keyed.filter (p ·.1))))
    have hv : e.2 = e'.2 := heq
    exact hne (h.key_inj (List.mem_filter.1 he).1 (by rw [hv]; exact (List.mem_filter.1 he').1))
  have hmem (k v) : (k, v) ∈ moved.foldl Table.put (t.filter (! p ·.1)) ↔
      (∃ k', (k', v) ∈ t ∧ p k' = true ∧ f k' = k) ∨ (k, v) ∈ t ∧ p k = false := by
    rw [mem_foldl_put hkeyed, hmoved, List.mem_filter, Bool.not_eq_true']
    refine or_congr Iff.rfl (and_iff_left_of_imp fun hkept x hx ↦ ?_)
    obtain ⟨k', hk', hp, hx⟩ := (hmoved x.1 x.2).1 hx
    exact hx ▸ hfree k' x.2 k v hk' hp hkept.1 hkept.2
  refine ⟨⟨(h.keyed.filter _).foldl_put _, h.keyed'.foldl_put _, fun k v ↦ ?_⟩, hmem⟩
  rw [hmem, mem_foldl_put hvalues, ← h.mem k v, ← hmoved]
  have hswap : (v, k) ∈ moved.map Prod.swap ↔ (k, v) ∈ moved :=
    ⟨fun hs ↦ by
      obtain ⟨e, he, heq⟩ := List.mem_map.1 hs
      rwa [← Prod.swap_swap e, heq] at he, fun hs ↦ List.mem_map.2 ⟨_, hs, rfl⟩⟩
  rw [hswap]
  refine or_congr Iff.rfl (and_congr_right fun hkv ↦ ?_)
  constructor
  · intro hp x hx hv
    obtain ⟨e, he, rfl⟩ := List.mem_map.1 hx
    obtain ⟨k', hk', hp', -⟩ := (hmoved e.1 e.2).1 he
    have hv : e.2 = v := hv
    rw [h.key_inj hkv (hv ▸ hk'), hp'] at hp
    cases hp
  · intro hall
    by_contra hp
    exact hall (v, f k) (List.mem_map.2 ⟨_, (hmoved _ _).2 ⟨k, hkv, by simpa using hp, rfl⟩, rfl⟩)
      rfl

/-! ### Weights -/

/-- What the values weigh together. -/
def weigh (w : ν → ℕ) (t : List (κ × ν)) : ℕ := (t.map fun e ↦ w e.2).sum

omit [DecidableEq ν] in
theorem weigh_erase {_ : BEq κ} [LawfulBEq κ] {w : ν → ℕ} (h : Keyed t) (hk : t.lookup k = some v) :
    weigh w (erase t k) + w v = weigh w t := by
  induction t with
  | nil => cases hk
  | cons e t ih =>
    obtain ⟨hfirst, hrest⟩ := List.pairwise_cons.1 h
    rw [List.lookup_cons] at hk
    by_cases he : k = e.1
    · subst he
      rw [BEq.rfl, Option.some.injEq] at hk
      have hsame : t.filter (·.1 ≠ e.1) = t :=
        List.filter_eq_self.2 fun e' he' ↦ decide_eq_true (hfirst e' he').symm
      rw [erase, List.filter_cons_of_neg (by simp), hsame, weigh, weigh, List.map_cons,
        List.sum_cons, hk, Nat.add_comm]
    · rw [beq_eq_false_iff_ne.2 he] at hk
      rw [erase, List.filter_cons_of_pos (by simpa using Ne.symm he), weigh, weigh, List.map_cons,
        List.map_cons, List.sum_cons, List.sum_cons, Nat.add_assoc]
      exact congrArg _ (ih hrest hk)

end Table
