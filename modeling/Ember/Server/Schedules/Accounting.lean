import Ember.Server.Schedules.Scheduler
import Mathlib.Data.Set.Card
import Mathlib.Order.Bounds.Basic

/-!
# What a tick does with the triggers it passes

The triggers a schedule has passed are what `next_after` leads to from its planned one without going
past the present. `plan` runs the last of them or none, counts the others, and picks the newest of
these for rows: `accounts_of_plan`, as long as there are no more of them than the walk may visit.
-/

namespace Ember.Server.Schedules

/-- The triggers of a schedule from its planned one up to `now`. -/
def Schedule.passed (c : Chrono) (s : Schedule) (now : ℕ) : Set ℤ :=
  {t | ∃ first ∈ s.nextRunAt, Relation.ReflTransGen (Step c s.kind s.anchorAt now) first t}

/-- There are no more passed triggers than a walk may visit, and the clock is not at its end. -/
def Schedule.Walkable (c : Chrono) (s : Schedule) (now : ℕ) : Prop :=
  (now : ℤ) < I64_MAX ∧ (s.passed c now).encard ≤ MAX_WALK

/-- Each trigger a schedule has passed is accounted for exactly once. -/
structure Accounts (c : Chrono) (s : Schedule) (now : ℕ) (p : Plan) : Prop where
  /-- The last one is run when it is on time or `catch_up` is set, and otherwise none. -/
  latest : IsGreatest (s.passed c now) p.latest
  run : p.runAt = if now - p.latest ≤ GRACE_MS ∨ s.catchUp then some p.latest else none
  /-- Every other one is counted as missed. -/
  missed : (s.passed c now \ {t | t ∈ p.runAt}).ncard = p.missedCount
  /-- Rows are for missed ones, each once, oldest first. -/
  sorted : p.missedTimes.Pairwise (· < ·)
  rows : ∀ t ∈ p.missedTimes, t ∈ s.passed c now \ {t | t ∈ p.runAt}
  /-- A missed one without a row is older than every one with a row. -/
  newest : ∀ t ∈ s.passed c now \ {t | t ∈ p.runAt}, t ∉ p.missedTimes →
    ∀ r ∈ p.missedTimes, t < r
  /-- There are as many rows as there may be. -/
  length : p.missedTimes.length = min p.missedCount MAX_MISSED_ROWS
  /-- The next planned trigger is in the future. -/
  next : ∀ n ∈ p.next, (now : ℤ) < n

variable {c : Chrono} {s : Schedule} {now : ℕ} {p : Plan} {first : ℤ}

variable {l : List ℤ}

/-- A walk that stops short of the present although it could go on is longer than there are passed
triggers, if these are no more than it may visit. -/
theorem passed_eq_of_follows (hc : c.Later) (hwalk : s.Walkable c now)
    (hnext : s.nextRunAt = some first) {last : ℤ}
    (hl : l.Follows (Step c s.kind s.anchorAt now) first last)
    (hend : l.length = MAX_WALK ∨ ∀ n, ¬ Step c s.kind s.anchorAt now last n) :
    s.passed c now = {t | t ∈ l} := by
  have hlt : ∀ a b, Step c s.kind s.anchorAt now a b → a < b := fun a b h ↦ h.lt hc hwalk.1
  have hmem : ∀ {l : List ℤ} {last}, l.Follows (Step c s.kind s.anchorAt now) first last →
      ∀ t ∈ l, t ∈ s.passed c now := fun hl t ht ↦ ⟨first, hnext, hl.reflTransGen ht⟩
  have hstop : ∀ n, ¬ Step c s.kind s.anchorAt now last n := by
    refine hend.elim (fun hlen n hn ↦ ?_) fun h ↦ h
    -- one more step makes a list of more passed triggers than there may be
    have hmore := hl.concat hn
    have hsub : ((l ++ [n]).toFinset : Set ℤ) ⊆ s.passed c now := fun t ht ↦
      hmem hmore t (List.mem_toFinset.1 ht)
    have hcard := (Set.encard_le_encard hsub).trans hwalk.2
    rw [Set.encard_coe_eq_coe_finsetCard, List.toFinset_card_of_nodup (hmore.nodup hlt),
      List.length_append, hlen, List.length_singleton] at hcard
    exact absurd (Nat.cast_le.1 hcard) (Nat.not_succ_le_self _)
  refine Set.Subset.antisymm (fun t ht ↦ ?_) (hmem hl)
  obtain ⟨first', hfirst, ht⟩ := ht
  obtain rfl := Option.some.inj (hnext.symm.trans hfirst)
  exact hl.mem_of_reflTransGen (fun _ _ _ hab hac ↦ hab.unique hac) hstop ht

/-- The rows are the newest of the missed triggers. -/
theorem missedTimes_eq (l : List ℤ) (ran : Bool) :
    missedTimes (l.rtake (MAX_MISSED_ROWS + 1)) ran =
      (if ran then l.dropLast else l).rtake MAX_MISSED_ROWS := by
  cases ran with
  | true =>
    simp only [missedTimes, if_true, List.rtake, List.length_dropLast, List.length_drop]
    rw [if_neg (by omega), List.dropLast_drop_eq_drop_dropLast]
    congr 1
  | false =>
    simp only [missedTimes, Bool.false_eq_true, if_false, List.rtake, List.length_drop]
    split
    · rw [List.drop_drop]
      congr 1
      omega
    · congr 1
      omega

/-- The newest of a sorted list are its last ones. -/
theorem lt_of_not_mem_rtake (hl : l.Pairwise (· < ·)) {k : ℕ} {t r : ℤ} (ht : t ∈ l)
    (hnot : t ∉ l.rtake k) (hr : r ∈ l.rtake k) : t < r := by
  have hsplit : l = l.take (l.length - k) ++ l.rtake k := (List.take_append_drop ..).symm
  rw [hsplit] at hl ht
  exact (List.pairwise_append.1 hl).2.2 t ((List.mem_append.1 ht).resolve_right hnot) r hr

/-- What is not run of a sorted list, as a set and as a list. -/
theorem mem_others_iff {last : ℤ} (hl : l.Pairwise (· < ·)) (hlast : l.getLast? = some last)
    (ran : Bool) (t : ℤ) :
    t ∈ (if ran then l.dropLast else l) ↔
      t ∈ l ∧ t ∉ (if ran then some last else none : Option ℤ) := by
  obtain ⟨init, rfl⟩ := List.getLast?_eq_some_iff.1 hlast
  cases ran with
  | false => simp
  | true =>
    have hlt : ∀ t ∈ init, t < last := fun t ht ↦
      (List.pairwise_append.1 hl).2.2 t ht last List.mem_cons_self
    simp only [if_true, List.dropLast_concat, List.mem_append, List.mem_singleton, Option.mem_def,
      Option.some.injEq]
    constructor
    · exact fun ht ↦ ⟨.inl ht, fun heq ↦ absurd (hlt t ht) (by omega)⟩
    · rintro ⟨ht | rfl, hne⟩
      · exact ht
      · exact absurd rfl hne

/-- **What `plan` decides** accounts for every trigger passed. -/
theorem accounts_of_plan (hc : c.Later) (hwalk : s.Walkable c now)
    (hfirst : ∀ first ∈ s.nextRunAt, first ≤ now) (h : plan c s now = .ok p) :
    Accounts c s now p := by
  simp only [plan] at h
  split at h
  · cases h
  case h_2 first hnext =>
    split at h
    · cases h
    case h_2 due hdue =>
      split at h
      · cases h
      case h_2 next hafter =>
        obtain ⟨l, hof, -, hl, hend⟩ :=
          occurrencesBetween_spec (Nat.succ_pos _) (hfirst first hnext) hdue
        have hpassed := passed_eq_of_follows hc hwalk hnext hl hend
        have hlt : ∀ a b, Step c s.kind s.anchorAt now a b → a < b := fun a b h ↦ h.lt hc hwalk.1
        have hsorted := hl.pairwise hlt
        set ran := decide ((now : ℤ) - due.latest ≤ GRACE_MS) || s.catchUp with hran
        set others := if ran then l.dropLast else l with hothers
        have hrows : missedTimes due.recent ran = others.rtake MAX_MISSED_ROWS := by
          rw [hof.recent, missedTimes_eq]
        have hcount : due.count - ran.toNat = others.length := by
          rw [hof.count, hothers]
          cases ran
          · rfl
          · exact (List.length_dropLast ..).symm
        have htimes : (if due.count - ran.toNat = 0 then [] else missedTimes due.recent ran) =
            others.rtake MAX_MISSED_ROWS := by
          rw [hrows, hcount]
          split
          case isTrue hnone => rw [List.length_eq_zero_iff.1 hnone, List.rtake_nil]
          case isFalse => rfl
        have hsub : others.Sublist l := by
          rw [hothers]
          split
          · exact List.dropLast_sublist l
          · exact List.Sublist.refl l
        have hset : s.passed c now \ {t | t ∈ (if ran then some due.latest else none : Option ℤ)} =
            {t | t ∈ others} := by
          ext t
          rw [hpassed]
          exact (mem_others_iff hsorted hl.getLast ran t).symm
        obtain rfl := Except.ok.inj h
        refine ⟨⟨?_, ?_⟩, ?_, ?_, ?_, ?_, ?_, ?_, ?_⟩
        · rw [hpassed]
          exact hl.last_mem
        · intro t ht
          rw [hpassed] at ht
          exact hl.le_last hlt ht
        · simp only [hran, Bool.or_eq_true, decide_eq_true_eq]
        · rw [hset, hcount, ← List.toFinset_card_of_nodup ((hl.nodup hlt).sublist hsub),
            ← Set.ncard_coe_finset]
          congr 1
          ext t
          simp
        · rw [htimes]
          exact (hsorted.sublist hsub).sublist (List.drop_sublist ..)
        · intro t ht
          rw [htimes] at ht
          rw [hset]
          exact (List.drop_sublist ..).mem ht
        · intro t ht hnot r hr
          rw [htimes] at hnot hr
          rw [hset] at ht
          exact lt_of_not_mem_rtake (hsorted.sublist hsub) ht hnot hr
        · show _ = min (due.count - ran.toNat) MAX_MISSED_ROWS
          rw [htimes, hcount, List.rtake, List.length_drop]
          omega
        · intro n hn
          obtain rfl : next = some n := hn
          exact lt_of_nextAfter hc hwalk.1 hafter

end Ember.Server.Schedules
