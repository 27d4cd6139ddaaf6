import Ember.Server.Schedules.Kept
import Mathlib.Algebra.Order.Ring.Int
import Mathlib.Data.Finset.Sort
import Mathlib.Data.Int.Interval
import Mathlib.Order.Bounds.Basic

/-!
# The triggers of an interval

An interval fires whole periods after its anchor. `nextAfter` divides to find the first trigger after
an instant, and `occurrencesBetween` walks from one to the next; both are compared here with the set
of all triggers.

The comparison holds where the next trigger and its distance from the anchor can be written down in
an `i64`. A walk visits no more triggers than `MAX_WALK`, and takes its start for a trigger in the
window.
-/

namespace Ember.Server.Schedules

open Scheduler (noZones)

/-- Whole periods from the anchor. -/
def triggers (seconds : ℕ) (anchor : ℤ) : Set ℤ :=
  {t | ∃ k : ℕ, 1 ≤ k ∧ t = anchor + k * (seconds * 1000)}

/-- A trigger after the instant, and its distance from the anchor, is an `i64`. -/
def Fits (seconds : ℕ) (anchor after : ℤ) : Prop :=
  ∃ t ∈ triggers seconds anchor, after < t ∧ t ≤ I64_MAX ∧ t - anchor ≤ I64_MAX

/-- The triggers from one of them up to an instant. -/
def triggersBetween (seconds : ℕ) (anchor first until_ : ℤ) : Set ℤ :=
  {t | t ∈ triggers seconds anchor ∧ first ≤ t ∧ t ≤ until_}

variable {c : Chrono} {seconds keep : ℕ} {anchor after first last until_ t n : ℤ}

theorem Fits.mono (h : Fits seconds anchor until_) (hle : after ≤ until_) :
    Fits seconds anchor after := by
  obtain ⟨t, ht, hlt, hmax⟩ := h
  exact ⟨t, ht, hle.trans_lt hlt, hmax⟩

/-- The period of an interval whose triggers fit is as it is written. -/
theorem period_eq (hp : 0 < seconds) (hmax : (seconds : ℤ) * 1000 ≤ I64_MAX) :
    max (saturate (asI64 seconds * 1000)) 1 = seconds * 1000 := by
  have hsmall : 2 * seconds < 2 ^ 64 := by
    rw [I64_MAX] at hmax
    omega
  have hseconds : asI64 seconds = seconds := by
    rw [asI64, BitVec.toInt_ofNat', Int.bmod_eq_of_le (by omega) (by omega)]
  rw [hseconds, saturate_of_mem (by omega) hmax, max_eq_left (by omega)]

/-- **The next trigger of an interval** is the least one after the instant. -/
theorem nextAfter_interval (hp : 0 < seconds) (hanchor : -2 ^ 63 ≤ anchor)
    (hfits : Fits seconds anchor after) :
    ∃ n, nextAfter c (.interval seconds) anchor after = .ok (some n) ∧
      IsLeast {t | t ∈ triggers seconds anchor ∧ after < t} n := by
  obtain ⟨_, ⟨k, hk, rfl⟩, hlt, hmax, hdist⟩ := hfits
  set p : ℤ := seconds * 1000 with hpdef
  have hpos : 0 < p := by omega
  have hkp : p ≤ k * p := le_mul_of_one_le_left hpos.le (by exact_mod_cast hk)
  have hperiod := period_eq hp (show (seconds : ℤ) * 1000 ≤ I64_MAX by omega)
  simp only [nextAfter]
  rw [hperiod, ← hpdef, saturate_of_mem (a := anchor + p) (by omega) (by omega)]
  split
  · next hfirst =>
    refine ⟨_, rfl, ⟨⟨1, le_rfl, by omega⟩, hfirst⟩, ?_⟩
    rintro _ ⟨⟨j, hj, rfl⟩, -⟩
    rw [← hpdef]
    have hjp : p ≤ j * p := le_mul_of_one_le_left hpos.le (by exact_mod_cast hj)
    omega
  · next hfirst =>
    rw [wrapI64_of_mem (a := after - anchor) (by omega) (by omega),
      Int.tdiv_eq_ediv_of_nonneg (by omega)]
    set q := (after - anchor) / p with hq
    have hq0 : 0 ≤ q := Int.ediv_nonneg (by omega) hpos.le
    have hqk : q < k := Int.ediv_lt_of_lt_mul hpos (by omega)
    have hsucc : (q + 1) * p ≤ k * p := mul_le_mul_of_nonneg_right (by omega) hpos.le
    have hqp : q + 1 ≤ (q + 1) * p := le_mul_of_one_le_right (by omega) (by omega)
    rw [wrapI64_of_mem (a := q + 1) (by omega) (by omega),
      saturate_of_mem (a := (q + 1) * p) (by omega) (by omega),
      saturate_of_mem (a := anchor + (q + 1) * p) (by omega) (by omega)]
    refine ⟨_, rfl, ⟨⟨(q + 1).toNat, by omega, ?_⟩, ?_⟩, ?_⟩
    · rw [Int.toNat_of_nonneg (by omega)]
    · have := Int.lt_mul_of_ediv_lt hpos (show (after - anchor) / p < q + 1 by omega)
      omega
    · rintro _ ⟨⟨j, hj, rfl⟩, hafter⟩
      rw [← hpdef] at hafter ⊢
      -- fewer periods end no later than the instant
      have hqj : q < j := Int.ediv_lt_of_lt_mul hpos (by omega)
      have hle : (q + 1) * p ≤ j * p := mul_le_mul_of_nonneg_right (by omega) hpos.le
      omega

/-! ### The walk over an interval -/

variable {kind : ScheduleKind}

/-- A walk never finds more triggers than it may visit. -/
theorem walk_count_le {fuel : ℕ} {due due' : Due}
    (h : walk c kind anchor until_ keep fuel due = .ok due') : due'.count ≤ due.count + fuel := by
  induction fuel generalizing due with
  | zero =>
    obtain rfl := Except.ok.inj h
    exact le_rfl
  | succ fuel ih =>
    simp only [walk] at h
    split at h
    · cases h
    · obtain rfl := Except.ok.inj h
      exact Nat.le_add_right _ _
    · split at h
      · exact (ih h).trans (show due.count + 1 + fuel ≤ _ by omega)
      · obtain rfl := Except.ok.inj h
        exact Nat.le_add_right _ _

theorem occurrencesBetween_count_le {due : Due}
    (h : occurrencesBetween c kind anchor first until_ keep = .ok due) : due.count ≤ MAX_WALK :=
  (walk_count_le h).trans (show 1 + (MAX_WALK - 1) ≤ MAX_WALK by decide)

/-- A window of none is one of one. -/
theorem walk_max (fuel : ℕ) (due : Due) :
    walk c kind anchor until_ keep fuel due = walk c kind anchor until_ (max keep 1) fuel due := by
  have hpush (window : List ℤ) (n : ℤ) :
      window.pushKeep keep n = window.pushKeep (max keep 1) n := by
    rw [List.pushKeep, List.pushKeep, max_assoc, max_self]
  induction fuel generalizing due with
  | zero => rfl
  | succ fuel ih =>
    simp only [walk, hpush]
    split
    · rfl
    · rfl
    · split
      · exact ih _
      · rfl

/-- The search of an interval never fails, so neither does the walk. -/
theorem exists_walk (fuel : ℕ) (due : Due) :
    ∃ due', walk c (.interval seconds) anchor until_ keep fuel due = .ok due' := by
  induction fuel generalizing due with
  | zero => exact ⟨due, rfl⟩
  | succ fuel ih =>
    have hnext : ∃ n, nextAfter c (.interval seconds) anchor due.latest = .ok (some n) := by
      simp only [nextAfter]
      split <;> exact ⟨_, rfl⟩
    obtain ⟨n, hn⟩ := hnext
    simp only [walk, hn]
    split
    · exact ih _
    · exact ⟨due, rfl⟩

/-- A step of a walk is to the next trigger. -/
theorem isLeast_of_step (hp : 0 < seconds) (hanchor : -2 ^ 63 ≤ anchor)
    (hfits : Fits seconds anchor until_) (h : Step c (.interval seconds) anchor until_ t n) :
    IsLeast {t' | t' ∈ triggers seconds anchor ∧ t < t'} n := by
  obtain ⟨m, hm, hleast⟩ := nextAfter_interval (c := c) hp hanchor (hfits.mono h.1)
  obtain rfl := Option.some.inj (Except.ok.inj (hm.symm.trans h.2.2))
  exact hleast

/-- What a walk comes to are triggers of the window. -/
theorem mem_of_steps (hp : 0 < seconds) (hanchor : -2 ^ 63 ≤ anchor)
    (hfits : Fits seconds anchor until_) (hfirst : first ∈ triggers seconds anchor)
    (hle : first ≤ until_)
    (h : Relation.ReflTransGen (Step c (.interval seconds) anchor until_) first t) :
    t ∈ triggersBetween seconds anchor first until_ := by
  induction h with
  | refl => exact ⟨hfirst, le_rfl, hle⟩
  | tail _ hstep ih =>
    have hleast := isLeast_of_step hp hanchor hfits hstep
    exact ⟨hleast.1.1, ih.2.1.trans hleast.1.2.le, hstep.2.1⟩

/-- A walk that is not stopped comes to every trigger of the window. -/
theorem steps_of_mem (hp : 0 < seconds) (hanchor : -2 ^ 63 ≤ anchor)
    (hfits : Fits seconds anchor until_) (hfirst : first ∈ triggers seconds anchor)
    (ht : t ∈ triggersBetween seconds anchor first until_) :
    Relation.ReflTransGen (Step c (.interval seconds) anchor until_) first t := by
  obtain ⟨⟨k, hk, rfl⟩, hle, hmax⟩ := ht
  obtain ⟨j, hj, rfl⟩ := hfirst
  set p : ℤ := seconds * 1000 with hpdef
  have hpos : 0 < p := by omega
  have hjk : j ≤ k := by
    have := le_of_mul_le_mul_right (show (j : ℤ) * p ≤ k * p by omega) hpos
    exact_mod_cast this
  -- by the number of periods in between
  induction k, hjk using Nat.le_induction with
  | base => exact .refl
  | succ k hjk ih =>
    have hsucc : ((k + 1 : ℕ) : ℤ) * p = k * p + p := by push_cast; ring
    have hjp : (j : ℤ) * p ≤ k * p := mul_le_mul_of_nonneg_right (by exact_mod_cast hjk) hpos.le
    rw [hsucc] at hmax ⊢
    refine .tail (ih (by omega) (by omega) (by omega)) ⟨by omega, by omega, ?_⟩
    obtain ⟨n, hn, hleast⟩ := nextAfter_interval (c := c) hp hanchor
      (hfits.mono (show anchor + k * p ≤ until_ by omega))
    have hnext : IsLeast {t' | t' ∈ triggers seconds anchor ∧ anchor + k * p < t'}
        (anchor + (k * p + p)) := by
      refine ⟨⟨⟨k + 1, by omega, by rw [← hpdef, hsucc]⟩, by omega⟩, ?_⟩
      rintro _ ⟨⟨i, -, rfl⟩, hlt⟩
      rw [← hpdef] at hlt ⊢
      have hki : (k : ℤ) < i := lt_of_mul_lt_mul_right (show (k : ℤ) * p < i * p by omega) hpos.le
      have := mul_le_mul_of_nonneg_right (show ((k + 1 : ℕ) : ℤ) ≤ i by push_cast; omega) hpos.le
      omega
    rw [hn, hleast.unique hnext]

/-- The triggers of a window, in order. -/
theorem exists_enumeration (seconds : ℕ) (anchor first until_ : ℤ) : ∃ l : List ℤ,
    l.Pairwise (· < ·) ∧ ∀ t, t ∈ l ↔ t ∈ triggersBetween seconds anchor first until_ := by
  have hfin : (triggersBetween seconds anchor first until_).Finite :=
    (Set.finite_Icc first until_).subset fun t ht ↦ ⟨ht.2.1, ht.2.2⟩
  refine ⟨hfin.toFinset.sort (· ≤ ·), (Finset.sortedLT_sort _).pairwise, fun t ↦ ?_⟩
  rw [Finset.mem_sort, Set.Finite.mem_toFinset]

end Ember.Server.Schedules
