import Mathlib.Data.List.Infix
import Mathlib.Data.List.Nodup

/-!
# Arranging a list by moves

A list is brought into a wanted order by walking along that order: whatever is not yet where it
should be is taken out and put in at its place. `arrange` is this walk, with the moves it makes, and
`arrange_eq` says that it ends in the wanted order; `replay` makes the moves on another copy of the
list.

The first place is never moved to, so the two lists must begin alike.

Nothing in this file knows what is arranged.
-/

variable {α : Type*} [DecidableEq α]

namespace List

/-- Put in at a place, at the end if there is no such place. -/
def placeAt (l : List α) (pos : ℕ) (x : α) : List α := l.take pos ++ x :: l.drop pos

omit [DecidableEq α] in
theorem placeAt_length_append (done todo : List α) (x : α) :
    (done ++ todo).placeAt done.length x = done ++ x :: todo := by
  rw [placeAt, take_left, drop_left]

omit [DecidableEq α] in
theorem mem_placeAt {l : List α} {pos : ℕ} {x y : α} : y ∈ l.placeAt pos x ↔ y = x ∨ y ∈ l := by
  rw [placeAt, mem_append, mem_cons, ← or_assoc, or_comm (a := y ∈ l.take pos), or_assoc,
    ← mem_append, take_append_drop]

omit [DecidableEq α] in
theorem perm_placeAt (l : List α) (pos : ℕ) (x : α) : (l.placeAt pos x).Perm (x :: l) := by
  refine perm_middle.trans (Perm.cons x ?_)
  rw [take_append_drop]

omit [DecidableEq α] in
theorem map_placeAt {β : Type*} (f : α → β) (l : List α) (pos : ℕ) (x : α) :
    (l.placeAt pos x).map f = (l.map f).placeAt pos (f x) := by
  simp [placeAt]

/-- Take out and put in again at a place. -/
def moveTo (l : List α) (x : α) (pos : ℕ) : List α := (l.erase x).placeAt pos x

theorem perm_moveTo {l : List α} {x : α} (hx : x ∈ l) (pos : ℕ) : (l.moveTo x pos).Perm l :=
  (perm_placeAt ..).trans (perm_cons_erase hx).symm

/-- Make moves. -/
def replay (l : List α) (moves : List (α × ℕ)) : List α :=
  moves.foldl (fun l m ↦ l.moveTo m.1 m.2) l

/-- Walk along the wanted order from a place on: the list it leaves, and the moves. -/
def arrange (l : List α) (pos : ℕ) : List α → List α × List (α × ℕ)
  | [] => (l, [])
  | x :: rest =>
    if l.length ≤ pos then (l, [])
    else if l[pos]? = some x ∨ pos = 0 then l.arrange (pos + 1) rest
    else
      let r := (l.moveTo x pos).arrange (pos + 1) rest
      (r.1, (x, pos) :: r.2)

/-- The moves of the walk are what it does. -/
theorem replay_arrange (l : List α) (pos : ℕ) (target : List α) :
    l.replay (l.arrange pos target).2 = (l.arrange pos target).1 := by
  induction target generalizing l pos with
  | nil => rfl
  | cons x rest ih =>
    simp only [arrange]
    split
    · rfl
    · split
      · exact ih l (pos + 1)
      · exact ih (l.moveTo x pos) (pos + 1)

/-- Only what is wanted is moved. -/
theorem mem_of_mem_arrange {l : List α} {pos : ℕ} {target : List α} {m : α × ℕ}
    (hm : m ∈ (l.arrange pos target).2) : m.1 ∈ target := by
  induction target generalizing l pos with
  | nil => cases hm
  | cons x rest ih =>
    rw [arrange] at hm
    split at hm
    · cases hm
    · split at hm
      · exact mem_cons_of_mem x (ih hm)
      · rcases mem_cons.1 hm with rfl | hm
        · exact mem_cons_self
        · exact mem_cons_of_mem x (ih hm)

theorem moveTo_append {done todo : List α} {x : α} (hx : x ∉ done) :
    (done ++ todo).moveTo x done.length = done ++ x :: todo.erase x := by
  rw [moveTo, erase_append_right _ hx, placeAt_length_append]

/-- **The walk ends in the wanted order**: what lies behind it is in order already. -/
theorem arrange_eq (done : List α) {todo target : List α} (hnodup : (done ++ target).Nodup)
    (hperm : todo.Perm target) (hhead : done = [] → todo.head? = target.head?) :
    ((done ++ todo).arrange done.length target).1 = done ++ target := by
  induction target generalizing done todo with
  | nil =>
    obtain rfl := hperm.eq_nil
    rfl
  | cons x rest ih =>
    have hx : x ∉ done := fun hmem ↦
      (disjoint_of_nodup_append hnodup) hmem mem_cons_self
    have hdone : done ++ x :: rest = done ++ [x] ++ rest := by simp
    have hlen : done.length + 1 = (done ++ [x]).length := by simp
    have hne : todo ≠ [] := fun heq ↦ by
      rw [heq] at hperm
      exact absurd hperm.symm.eq_nil (cons_ne_nil x rest)
    have hlong : ¬ (done ++ todo).length ≤ done.length := by
      have := length_pos_iff.2 hne
      rw [length_append]
      omega
    rw [arrange, if_neg hlong, hdone]
    split
    case isTrue hplace =>
      -- it is where it should be: at a first place both lists begin alike
      have hfirst : todo.head? = some x := by
        rcases hplace with hplace | hzero
        · rwa [getElem?_append_right le_rfl, Nat.sub_self, ← head?_eq_getElem?] at hplace
        · exact hhead (length_eq_zero_iff.1 hzero)
      obtain ⟨todo', rfl⟩ := head?_eq_some_iff.1 hfirst
      rw [show done ++ x :: todo' = done ++ [x] ++ todo' by simp, hlen]
      exact ih (done ++ [x]) (hdone ▸ hnodup) (hperm.cons_inv) fun hnil ↦ by simp at hnil
    case isFalse =>
      rw [moveTo_append hx, show done ++ x :: todo.erase x = done ++ [x] ++ todo.erase x by simp,
        hlen]
      refine ih (done ++ [x]) (hdone ▸ hnodup) ?_ fun hnil ↦ by simp at hnil
      have herase := hperm.erase x
      rwa [erase_cons_head] at herase

/-- A list that is in order already needs no moves. -/
theorem arrange_self (done target : List α) :
    ((done ++ target).arrange done.length target).2 = [] := by
  induction target generalizing done with
  | nil => rfl
  | cons x rest ih =>
    rw [arrange, if_neg (by simp), if_pos (.inl (by simp))]
    have := ih (done ++ [x])
    rwa [show done ++ [x] ++ rest = done ++ x :: rest by simp, length_append] at this

end List
