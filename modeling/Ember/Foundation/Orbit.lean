import Mathlib.Data.List.Chain
import Mathlib.Data.List.DropRight
import Mathlib.Data.Set.Card
import Mathlib.Logic.Relation

/-!
# Following a relation to its end

A list that starts at an element and goes by a relation from each of its elements to the next. When
every element has at most one successor and the last has none, the list is all that can be reached
from its first element; when the relation goes up in an order, it is sorted.

`List.pushKeep` is the other half of such a walk: a window of the newest elements, kept by dropping
the oldest when there is one too many.
-/

namespace List

variable {α : Type*} {r : α → α → Prop} {l : List α} {first last : α}

/-- The list goes by the relation from `first` to `last`. -/
structure Follows (r : α → α → Prop) (l : List α) (first last : α) : Prop where
  head : l.head? = some first
  getLast : l.getLast? = some last
  chain : l.IsChain r

namespace Follows

theorem singleton (a : α) : Follows r [a] a a := ⟨rfl, rfl, .singleton a⟩

/-- One more step at the end. -/
theorem concat (h : l.Follows r first last) {b : α} (hb : r last b) :
    (l ++ [b]).Follows r first b where
  head := by
    rw [List.head?_append, h.head]
    rfl
  getLast := List.getLast?_concat ..
  chain := List.isChain_append.2 ⟨h.chain, .singleton b, fun a ha c hc ↦ by
    obtain rfl := Option.some.inj (h.getLast.symm.trans ha)
    obtain rfl := Option.some.inj hc
    exact hb⟩

theorem last_mem (h : l.Follows r first last) : last ∈ l := List.mem_of_getLast? h.getLast

/-- Everything on the list is reached from its first element. -/
theorem reflTransGen (h : l.Follows r first last) {a : α} (ha : a ∈ l) :
    Relation.ReflTransGen r first a := by
  obtain ⟨hhead, -, hchain⟩ := h
  induction l generalizing first with
  | nil => cases ha
  | cons b l ih =>
    obtain rfl := Option.some.inj hhead
    cases l with
    | nil =>
      obtain rfl := List.mem_singleton.1 ha
      exact .refl
    | cons c l =>
      rcases List.mem_cons.1 ha with rfl | ha
      · exact .refl
      · obtain ⟨hbc, hchain⟩ := List.isChain_cons_cons.1 hchain
        exact .head hbc (ih ha rfl hchain)

/-- Where each element has one successor at most and the last has none, what is reached from the
first element is on the list. -/
theorem mem_of_reflTransGen (h : l.Follows r first last) (hfun : ∀ a b c, r a b → r a c → b = c)
    (hstop : ∀ b, ¬ r last b) {a : α} (ha : Relation.ReflTransGen r first a) : a ∈ l := by
  obtain ⟨hhead, hlast, hchain⟩ := h
  induction l generalizing first with
  | nil => cases hhead
  | cons b l ih =>
    obtain rfl := Option.some.inj hhead
    rcases Relation.ReflTransGen.cases_head ha with rfl | ⟨c, hbc, hca⟩
    · exact List.mem_cons_self
    · cases l with
      | nil =>
        obtain rfl := Option.some.inj hlast
        exact absurd hbc (hstop c)
      | cons d l =>
        obtain ⟨hbd, hchain⟩ := List.isChain_cons_cons.1 hchain
        obtain rfl := hfun b c d hbc hbd
        exact List.mem_cons_of_mem _ (ih hca rfl (by rwa [List.getLast?_cons_cons] at hlast) hchain)

variable [Preorder α]

/-- A walk that only goes up is sorted. -/
theorem pairwise (h : l.Follows r first last) (hlt : ∀ a b, r a b → a < b) :
    l.Pairwise (· < ·) := List.isChain_iff_pairwise.1 (h.chain.imp hlt)

/-- A walk that only goes up visits nothing twice. -/
theorem nodup (h : l.Follows r first last) (hlt : ∀ a b, r a b → a < b) : l.Nodup :=
  (h.pairwise hlt).imp fun hab ↦ ne_of_lt hab

/-- The last element of a walk that only goes up is above the others. -/
theorem le_last (h : l.Follows r first last) (hlt : ∀ a b, r a b → a < b) {a : α} (ha : a ∈ l) :
    a ≤ last := by
  obtain ⟨init, rfl⟩ := List.getLast?_eq_some_iff.1 h.getLast
  rcases List.mem_append.1 ha with ha | ha
  · exact ((List.pairwise_append.1 (h.pairwise hlt)).2.2 a ha last List.mem_cons_self).le
  · exact (List.mem_singleton.1 ha).le

end Follows

/-! ### The newest elements -/

/-- An element goes to the end of a window of `k`, and the oldest leaves when it is one too many. -/
def pushKeep (k : ℕ) (window : List α) (a : α) : List α :=
  if (window ++ [a]).length > max k 1 then (window ++ [a]).tail else window ++ [a]

/-- The window is always the newest `k` elements. -/
theorem pushKeep_rtake {k : ℕ} (hk : 0 < k) (l : List α) (a : α) :
    pushKeep k (l.rtake k) a = (l ++ [a]).rtake k := by
  obtain ⟨k, rfl⟩ : ∃ j, k = j + 1 := ⟨k - 1, by omega⟩
  rw [pushKeep, List.rtake_concat_succ, List.rtake, List.rtake]
  rcases Nat.lt_or_ge k l.length with hlt | hle
  · rw [if_pos (by simp; omega), List.tail_append_of_ne_nil (by simp; omega), List.tail_drop,
      show l.length - (k + 1) + 1 = l.length - k by omega]
  · rw [if_neg (by simp; omega), show l.length - (k + 1) = 0 by omega,
      show l.length - k = 0 by omega]

end List
