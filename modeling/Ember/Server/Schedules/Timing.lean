import Ember.Basic
import Ember.Foundation.Orbit
import Mathlib.Data.Int.Notation
import Mathlib.Order.Basic
import Mathlib.Tactic.Ring

/-!
# When schedules fire

Cron expressions in a time zone, fixed intervals and one-off times, and the walk over the triggers
between two instants. Instants are `i64` milliseconds: arithmetic on them saturates where the source
saturates and wraps elsewhere. The anchor of a schedule is a reading of the clock. `croner` and
`chrono` are a parameter, `Chrono`; of them only `Chrono.Later` is used, that a search which does not
include its start finds a later instant.

`occurrencesBetween_spec` is what the walk comes to: it follows `nextAfter` from trigger to trigger,
counts them all and keeps the newest.
-/

namespace Ember.Server.Schedules

/-- `i64::MAX`. -/
def I64_MAX : ℤ := 2 ^ 63 - 1

/-- An `i64` result of saturating arithmetic. -/
def saturate (n : ℤ) : ℤ := max (-2 ^ 63) (min I64_MAX n)

/-- An `i64` result of plain arithmetic, which wraps in a release build. -/
def wrapI64 (n : ℤ) : ℤ := (BitVec.ofInt 64 n).toInt

/-- A `u64` as an `i64`. -/
def asI64 (n : ℕ) : ℤ := (BitVec.ofNat 64 n).toInt

/-- `MIN_INTERVAL_SECS`. -/
def MIN_INTERVAL_SECS : ℕ := 60

/-- `MAX_WALK`: upper bound on how many past triggers are walked. -/
def MAX_WALK : ℕ := 200000

/-- `ScheduleKind`. -/
inductive ScheduleKind
  | cron (expr tz : String)
  | interval (seconds : ℕ)
  | once (at_ : ℤ)
  deriving DecidableEq, Repr

/-- What `croner`, `chrono` and `chrono-tz` answer. -/
structure Chrono where
  /-- Whether there is a time zone of this name. -/
  zone : String → Bool
  /-- `Cron::new(expr).parse()`: the complaint, if there is one. -/
  complaint : String → Option String
  /-- Whether an instant is in the range of `DateTime`. -/
  inRange : ℤ → Bool
  /-- `find_next_occurrence`, not inclusive. -/
  findNext : (expr tz : String) → ℤ → Option ℤ
  /-- `naive_local`: the wall clock in a time zone. -/
  naiveLocal : (tz : String) → ℤ → ℤ
  /-- `timing::rfc3339`. -/
  rfc3339 : ℤ → String

/-- A search that does not include its start finds a later instant. -/
def Chrono.Later (c : Chrono) : Prop :=
  ∀ expr tz from_ next, c.findNext expr tz from_ = some next → from_ < next

/-- The complaints about a schedule kind, one for each place that makes one. -/
inductive TimingError
  | unknownZone (tz : String)
  | fields (expr : String)
  | invalid (expr why : String)
  | shortInterval
  | outOfRange (ms : ℤ)
  | notDue
  deriving DecidableEq, Repr

/-- `parse_tz`. -/
def parseTz (c : Chrono) (tz : String) : Except TimingError Unit :=
  if c.zone tz then .ok () else .error (.unknownZone tz)

/-- `str::split_whitespace().count()`. -/
def countFields (s : String) : ℕ := ((s.toList.splitOnP isWhitespace).filter (· ≠ [])).length

/-- `parse_cron`. -/
def parseCron (c : Chrono) (expr : String) : Except TimingError Unit :=
  let expr := trim expr
  if !expr.startsWith "@" && countFields expr ≠ 5 then .error (.fields expr)
  else
    match c.complaint expr with
    | some why => .error (.invalid expr why)
    | none => .ok ()

/-- `validate`. -/
def validate (c : Chrono) : ScheduleKind → Except TimingError Unit
  | .cron expr tz =>
    match parseTz c tz with
    | .error e => .error e
    | .ok () => parseCron c expr
  | .interval seconds => if seconds < MIN_INTERVAL_SECS then .error .shortInterval else .ok ()
  | .once _ => .ok ()

/-- The search of `next_after`: an occurrence with the wall-clock time it continues from is skipped,
at most `fuel` times. -/
def findOther (c : Chrono) (expr tz : String) (previousLocal : ℤ) : ℕ → ℤ → Option ℤ
  | 0, _ => none
  | fuel + 1, from_ =>
    match c.findNext expr tz from_ with
    | none => none
    | some next =>
      if c.naiveLocal tz next = previousLocal then findOther c expr tz previousLocal fuel next
      else some next

/-- `next_after`: the first trigger strictly after an instant. Intervals count from `anchor`. -/
def nextAfter (c : Chrono) (kind : ScheduleKind) (anchor after : ℤ) :
    Except TimingError (Option ℤ) :=
  match kind with
  | .once at_ => .ok (if after < at_ then some at_ else none)
  | .interval seconds =>
    let period := max (saturate (asI64 seconds * 1000)) 1
    let first := saturate (anchor + period)
    if after < first then .ok (some first)
    else
      let k := wrapI64 ((wrapI64 (after - anchor)).tdiv period + 1)
      .ok (some (saturate (anchor + saturate (k * period))))
  | .cron expr tz =>
    match parseTz c tz with
    | .error e => .error e
    | .ok () =>
      match parseCron c expr with
      | .error e => .error e
      | .ok () =>
        if c.inRange after then .ok (findOther c expr tz (c.naiveLocal tz after) 4 after)
        else .error (.outOfRange after)

/-- `Due`: the triggers walked, the earliest and the latest of them, and the newest. -/
structure Due where
  count : ℕ
  first : ℤ
  latest : ℤ
  recent : List ℤ
  deriving DecidableEq, Repr

/-- The loop of `occurrences_between`, with the triggers it may still walk. -/
def walk (c : Chrono) (kind : ScheduleKind) (anchor until_ : ℤ) (keep : ℕ) :
    ℕ → Due → Except TimingError Due
  | 0, due => .ok due
  | fuel + 1, due =>
    match nextAfter c kind anchor due.latest with
    | .error e => .error e
    | .ok none => .ok due
    | .ok (some n) =>
      if n ≤ until_ then
        walk c kind anchor until_ keep fuel
          ⟨due.count + 1, due.first, n, due.recent.pushKeep keep n⟩
      else .ok due

/-- `occurrences_between`: triggers in `[first, until]`, where `first` is a planned trigger. -/
def occurrencesBetween (c : Chrono) (kind : ScheduleKind) (anchor first until_ : ℤ)
    (keep : ℕ) : Except TimingError Due :=
  walk c kind anchor until_ keep (MAX_WALK - 1) ⟨1, first, first, [first]⟩

/-! ### The next trigger is later -/

variable {c : Chrono} {kind : ScheduleKind} {anchor after n first last until_ : ℤ}

theorem wrapI64_of_mem {a : ℤ} (hmin : -2 ^ 63 ≤ a) (hmax : a ≤ I64_MAX) : wrapI64 a = a := by
  rw [wrapI64, BitVec.toInt_ofInt]
  rw [I64_MAX] at hmax
  exact Int.bmod_eq_of_le (by omega) (by omega)

theorem saturate_of_mem {a : ℤ} (hmin : -2 ^ 63 ≤ a) (hmax : a ≤ I64_MAX) : saturate a = a := by
  rw [saturate, min_eq_right hmax, max_eq_right hmin]

theorem le_saturate_of_lt {a b : ℤ} (hmax : a < I64_MAX) (h : a < b) : a < saturate b :=
  lt_max_of_lt_right (lt_min hmax h)

theorem findOther_later (hc : c.Later) {expr tz : String} {previousLocal : ℤ} {fuel : ℕ} :
    ∀ {from_}, findOther c expr tz previousLocal fuel from_ = some n → from_ < n := by
  induction fuel with
  | zero => exact fun h ↦ by cases h
  | succ fuel ih =>
    intro from_ h
    simp only [findOther] at h
    split at h
    · cases h
    case h_2 next hnext =>
      split at h
      · exact (hc _ _ _ _ hnext).trans (ih h)
      · obtain rfl := Option.some.inj h
        exact hc _ _ _ _ hnext

/-- One period more than the whole periods that fit is too much. -/
theorem lt_tdiv_add_one_mul {a p : ℤ} (hp : 0 < p) : a < (a.tdiv p + 1) * p := by
  have hmod := Int.tmod_lt_of_pos a hp
  have hsum := Int.mul_tdiv_add_tmod a p
  have hcomm : (a.tdiv p + 1) * p = p * a.tdiv p + p := by ring
  omega

/-- **The next trigger is later**, as long as there is room for it. -/
theorem lt_of_nextAfter {anchor : ℕ} (hc : c.Later) (hmax : after < I64_MAX)
    (h : nextAfter c kind anchor after = .ok (some n)) : after < n := by
  cases kind with simp only [nextAfter] at h
  | once at_ =>
    split at h
    case isTrue hlt =>
      obtain rfl := Option.some.inj (Except.ok.inj h)
      exact hlt
    case isFalse => cases h
  | interval seconds =>
    split at h
    case isTrue hlt =>
      obtain rfl := Option.some.inj (Except.ok.inj h)
      exact hlt
    case isFalse =>
      obtain rfl := Option.some.inj (Except.ok.inj h)
      set period := max (saturate (asI64 seconds * 1000)) 1
      have hperiod : 0 < period := lt_of_lt_of_le Int.one_pos (le_max_right _ _)
      have hfirst : (anchor : ℤ) ≤ after := by
        have hsat : min I64_MAX (anchor + period) ≤ saturate (anchor + period) :=
          le_max_right _ _
        omega
      have helapsed : wrapI64 (after - anchor) = after - anchor :=
        wrapI64_of_mem (by omega) (by omega)
      have hquot := Int.tdiv_le_self period (show 0 ≤ after - anchor by omega)
      have hquot0 := Int.tdiv_nonneg (show 0 ≤ after - anchor by omega) hperiod.le
      have hlt := lt_tdiv_add_one_mul (a := after - anchor) hperiod
      rw [helapsed, wrapI64_of_mem (by omega) (by omega)]
      refine le_saturate_of_lt hmax ?_
      have hsat := le_saturate_of_lt (show after - anchor < I64_MAX by omega) hlt
      omega
  | cron expr tz =>
    split at h
    · cases h
    · split at h
      · cases h
      · split at h
        · exact findOther_later hc (Except.ok.inj h)
        · cases h

/-! ### The walk -/

/-- From one trigger up to `until_` to the next one up to `until_`. -/
def Step (c : Chrono) (kind : ScheduleKind) (anchor until_ t n : ℤ) : Prop :=
  t ≤ until_ ∧ n ≤ until_ ∧ nextAfter c kind anchor t = .ok (some n)

theorem Step.lt {anchor : ℕ} (hc : c.Later) (hmax : until_ < I64_MAX) {t : ℤ}
    (h : Step c kind anchor until_ t n) : t < n := lt_of_nextAfter hc (h.1.trans_lt hmax) h.2.2

theorem Step.unique {t m : ℤ} (h : Step c kind anchor until_ t n)
    (h' : Step c kind anchor until_ t m) : n = m :=
  Option.some.inj (Except.ok.inj (h.2.2.symm.trans h'.2.2))

/-- What a walk has found is the triggers of a list: how many, the first, the last, the newest. -/
structure Due.Of (due : Due) (keep : ℕ) (l : List ℤ) : Prop where
  count : due.count = l.length
  recent : due.recent = l.rtake keep

/-- The loop goes on along `nextAfter`, and stops where there is no next trigger or it has walked as
many as it may. -/
theorem walk_spec {keep fuel : ℕ} {due due' : Due} {l : List ℤ} (hkeep : 0 < keep)
    (hof : due.Of keep l) (hl : l.Follows (Step c kind anchor until_) due.first due.latest)
    (hle : due.latest ≤ until_) (h : walk c kind anchor until_ keep fuel due = .ok due') :
    ∃ l' : List ℤ, due'.Of keep l' ∧ due'.first = due.first ∧ due'.latest ≤ until_ ∧
      l'.Follows (Step c kind anchor until_) due.first due'.latest ∧
      (l'.length = l.length + fuel ∨ ∀ n, ¬ Step c kind anchor until_ due'.latest n) := by
  induction fuel generalizing due l with
  | zero =>
    obtain rfl := Except.ok.inj h
    exact ⟨l, hof, rfl, hle, hl, .inl rfl⟩
  | succ fuel ih =>
    simp only [walk] at h
    split at h
    · cases h
    case h_2 hnone =>
      obtain rfl := Except.ok.inj h
      exact ⟨l, hof, rfl, hle, hl, .inr fun n hn ↦ by cases hnone.symm.trans hn.2.2⟩
    case h_3 n hn =>
      split at h
      case isTrue hin =>
        obtain ⟨l', hof', hfirst, hle', hl', hend⟩ := ih (l := l ++ [n])
          ⟨by rw [List.length_append, ← hof.count]; rfl,
            by rw [← List.pushKeep_rtake hkeep, ← hof.recent]⟩
          (hl.concat ⟨hle, hin, hn⟩) hin h
        refine ⟨l', hof', hfirst, hle', hl', hend.imp_left fun hlen ↦ ?_⟩
        rw [hlen, List.length_append]
        simp only [List.length_singleton]
        omega
      case isFalse hout =>
        obtain rfl := Except.ok.inj h
        refine ⟨l, hof, rfl, hle, hl, .inr fun m hm ↦ hout ?_⟩
        obtain rfl := Option.some.inj (Except.ok.inj (hn.symm.trans hm.2.2))
        exact hm.2.1

/-- **What `occurrences_between` answers with**: the triggers one after the other, all of them or as
many as it may walk. -/
theorem occurrencesBetween_spec {keep : ℕ} {due : Due} (hkeep : 0 < keep) (hle : first ≤ until_)
    (h : occurrencesBetween c kind anchor first until_ keep = .ok due) :
    ∃ l : List ℤ, due.Of keep l ∧ due.first = first ∧
      l.Follows (Step c kind anchor until_) first due.latest ∧
      (l.length = MAX_WALK ∨ ∀ n, ¬ Step c kind anchor until_ due.latest n) := by
  have hone : ([first] : List ℤ).rtake keep = [first] := by
    rw [List.rtake, show [first].length - keep = 0 by simp; omega, List.drop_zero]
  obtain ⟨l, hof, hfirst, -, hl, hend⟩ := walk_spec (l := [first]) hkeep ⟨rfl, hone.symm⟩
    (.singleton first) hle h
  refine ⟨l, hof, hfirst, hl, hend.imp_left fun hlen ↦ ?_⟩
  rw [hlen, List.length_singleton, MAX_WALK]

end Ember.Server.Schedules
