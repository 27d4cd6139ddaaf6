import Mathlib.Computability.Language

/-!
# Words none of which starts another

A language without the empty word in which no word is a beginning of another one. Such words are
read off the front of a text one after the other, and there is one way to do so: what follows some
of them is made of words exactly when all of it is (`append_mem_kstar_iff`).

`FindsWord` says of a function that it finds the length of the word a text begins with. A language that
has such a function has no word that starts another (`FindsWord.isPrefixCode`).
-/

open Computability

variable {α : Type*}

theorem mem_kstar_of_mem_mul_kstar {L : Language α} {a : List α} (h : a ∈ L * L∗) : a ∈ L∗ :=
  Set.mem_of_mem_of_subset h (mul_kstar_le_kstar (a := L))

/-- No word is empty or starts another. -/
structure IsPrefixCode (L : Language α) : Prop where
  nil_not_mem : [] ∉ L
  eq_of_le : ∀ a ∈ L, ∀ b ∈ L, a <+: b → a = b

namespace IsPrefixCode

variable {L : Language α} {a b r : List α}

theorem append_mem_kstar (h : IsPrefixCode L) (hr : r ∈ L) (hb : r ++ b ∈ L∗) : b ∈ L∗ := by
  obtain ⟨words, hwords, hL⟩ := Language.mem_kstar.1 hb
  cases words with
  | nil =>
    have hnil : r = [] := (List.append_eq_nil_iff.1 hwords).1
    exact absurd (hnil ▸ hr) h.nil_not_mem
  | cons word words =>
    rw [List.flatten_cons] at hwords
    have hword : word ∈ L := hL word List.mem_cons_self
    have hle : r <+: word ++ words.flatten := ⟨b, hwords⟩
    have heq : r = word :=
      (List.prefix_or_prefix_of_prefix hle (List.prefix_append _ _)).elim
        (h.eq_of_le r hr word hword) fun hle ↦ (h.eq_of_le word hword r hr hle).symm
    subst heq
    rw [List.append_cancel_left hwords]
    exact Language.join_mem_kstar fun y hy ↦ hL y (List.mem_cons_of_mem _ hy)

/-- **What follows words is made of words exactly when all is.** -/
theorem append_mem_kstar_iff (h : IsPrefixCode L) (ha : a ∈ L∗) : a ++ b ∈ L∗ ↔ b ∈ L∗ := by
  obtain ⟨words, rfl, hL⟩ := Language.mem_kstar.1 ha
  clear ha
  induction words with
  | nil => simp
  | cons word words ih =>
    have hword : word ∈ L := hL word List.mem_cons_self
    have hwords : ∀ y ∈ words, y ∈ L := fun y hy ↦ hL y (List.mem_cons_of_mem _ hy)
    have hrest := ih hwords
    rw [List.flatten_cons, List.append_assoc]
    constructor
    · exact fun hmem ↦ hrest.1 (h.append_mem_kstar hword hmem)
    · exact fun hb ↦ mem_kstar_of_mem_mul_kstar (Language.append_mem_mul hword (hrest.2 hb))

/-- Some words, one at least. -/
theorem mem_mul_kstar_iff (h : IsPrefixCode L) : a ∈ L * L∗ ↔ a ≠ [] ∧ a ∈ L∗ := by
  constructor
  · intro ha
    refine ⟨?_, mem_kstar_of_mem_mul_kstar ha⟩
    rintro rfl
    obtain ⟨word, hword, rest, -, hnil⟩ := Language.mem_mul.1 ha
    exact h.nil_not_mem ((List.append_eq_nil_iff.1 hnil).1 ▸ hword)
  · rintro ⟨hne, ha⟩
    rw [← Language.one_add_self_mul_kstar_eq_kstar, Language.mem_add] at ha
    exact ha.resolve_left fun hone ↦ hne (Language.mem_one _ |>.1 hone)

theorem append_mem_mul_kstar_iff (h : IsPrefixCode L) (ha : a ∈ L * L∗) (hb : b ≠ []) :
    a ++ b ∈ L * L∗ ↔ b ∈ L * L∗ := by
  have hstar : a ∈ L∗ := (h.mem_mul_kstar_iff.1 ha).2
  rw [h.mem_mul_kstar_iff, h.mem_mul_kstar_iff, h.append_mem_kstar_iff hstar]
  simp [hb]

end IsPrefixCode

/-! ### Reading a word -/

/-- `next` finds the length of the word a text begins with. -/
def FindsWord (next : List α → Option ℕ) (L : Language α) : Prop :=
  ∀ l n, next l = some n ↔ ∃ r ∈ L, r <+: l ∧ r.length = n

namespace FindsWord

variable {next : List α → Option ℕ} {L : Language α} {l : List α} {n : ℕ}

theorem isPrefixCode (h : FindsWord next L) (hnil : [] ∉ L) : IsPrefixCode L where
  nil_not_mem := hnil
  eq_of_le := fun a ha b hb hle ↦ by
    have hna := (h b a.length).2 ⟨a, ha, hle, rfl⟩
    have hnb := (h b b.length).2 ⟨b, hb, List.prefix_rfl, rfl⟩
    exact hle.eq_of_length (Option.some.inj (hna.symm.trans hnb))

/-- The words of a text, after the first. -/
theorem mem_kstar_iff (h : FindsWord next L) (hnil : [] ∉ L) (hn : next l = some n) :
    l ∈ L∗ ↔ l.drop n ∈ L∗ := by
  obtain ⟨r, hr, ⟨t, rfl⟩, rfl⟩ := (h l n).1 hn
  rw [List.drop_left]
  refine (h.isPrefixCode hnil).append_mem_kstar_iff (Language.mem_kstar.2 ⟨[r], ?_, ?_⟩)
  · simp
  · simpa using hr

theorem not_mem_kstar (h : FindsWord next L) (hl : l ≠ []) (hn : next l = none) : l ∉ L∗ := by
  intro hmem
  obtain ⟨words, rfl, hL⟩ := Language.mem_kstar.1 hmem
  cases words with
  | nil => exact hl rfl
  | cons word words =>
    have hsome : next (word :: words).flatten = some word.length :=
      (h _ _).2 ⟨word, hL word List.mem_cons_self, List.prefix_append word words.flatten, rfl⟩
    exact absurd (hn.symm.trans hsome) (by simp)

end FindsWord
