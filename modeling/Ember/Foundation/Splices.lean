import Mathlib.Data.List.Basic
import Mathlib.Order.Basic
import Mathlib.Algebra.Order.Group.Nat

/-!
# Replacing parts of a list

A splice replaces some letters of a list by others. Several splices that do not overlap may be made
at once (`Splice.all`), each at its place in the list as it was; this is what comes out when they are
made one after the other from the end of the list to its start (`Splice.all_cons`), since what comes
before a place is not touched by what is done after it.

The letters are a parameter: a text is cut into characters in one place and into code units in
another.
-/

/-- `len` letters from `off` on are to become `new`. -/
structure Splice (α : Type*) where
  off : ℕ
  len : ℕ
  new : List α

namespace Splice

variable {α : Type*}

/-- The place after the letters replaced. -/
def stop (s : Splice α) : ℕ := s.off + s.len

/-- One splice. -/
def on (s : Splice α) (l : List α) : List α := l.take s.off ++ s.new ++ l.drop s.stop

/-- Several splices at once, from place `k` on, in the order of their places. -/
def allFrom (l : List α) : ℕ → List (Splice α) → List α
  | k, [] => l.drop k
  | k, s :: ss => (l.take s.off).drop k ++ s.new ++ allFrom l s.stop ss

/-- Several splices at once. -/
def all (ss : List (Splice α)) (l : List α) : List α := allFrom l 0 ss

/-- The splices are of places from `k` on, in order, and none overlaps another. -/
def InOrder (l : List α) : ℕ → List (Splice α) → Prop
  | k, [] => k ≤ l.length
  | k, s :: ss => k ≤ s.off ∧ InOrder l s.stop ss

theorem InOrder.le_length {l : List α} {k : ℕ} {ss : List (Splice α)} (h : InOrder l k ss) :
    k ≤ l.length := by
  induction ss generalizing k with
  | nil => exact h
  | cons s ss ih => exact h.1.trans ((Nat.le_add_right _ _).trans (ih h.2))

/-- A list from a place on, cut at a later one. -/
theorem drop_eq_append (l : List α) {j k : ℕ} (hjk : j ≤ k) :
    l.drop j = (l.take k).drop j ++ l.drop k := by
  have hdrop : l.drop k = (l.drop j).drop (k - j) := by rw [List.drop_drop, Nat.add_sub_cancel' hjk]
  rw [List.drop_take, hdrop, List.take_append_drop]

/-- What comes before all splices stays. -/
theorem allFrom_eq {l : List α} {j k : ℕ} {ss : List (Splice α)} (h : InOrder l k ss)
    (hjk : j ≤ k) : allFrom l j ss = (l.take k).drop j ++ allFrom l k ss := by
  cases ss with
  | nil => exact drop_eq_append l hjk
  | cons s ss =>
    have hcut := drop_eq_append (l.take s.off) hjk
    rw [List.take_take, min_eq_left h.1] at hcut
    rw [allFrom, allFrom, hcut]
    simp only [List.append_assoc]

/-- **The first splice may be made last.** -/
theorem all_cons {l : List α} {s : Splice α} {ss : List (Splice α)} (h : InOrder l 0 (s :: ss)) :
    all (s :: ss) l = s.on (all ss l) := by
  have hlen : (l.take s.stop).length = s.stop := by
    rw [List.length_take, min_eq_left h.2.le_length]
  have hall : all ss l = l.take s.stop ++ allFrom l s.stop ss := by
    rw [all, allFrom_eq h.2 (Nat.zero_le _), List.drop_zero]
  have hoff : s.off ≤ s.stop := Nat.le_add_right _ _
  have hbefore : (all ss l).take s.off = l.take s.off := by
    rw [hall, List.take_append_of_le_length (by omega), List.take_take, min_eq_left hoff]
  have hafter : (all ss l).drop s.stop = allFrom l s.stop ss := by
    rw [hall, List.drop_append_of_le_length hlen.ge, List.drop_of_length_le hlen.le, List.nil_append]
  rw [on, hbefore, hafter, all, allFrom, List.drop_zero]

end Splice
