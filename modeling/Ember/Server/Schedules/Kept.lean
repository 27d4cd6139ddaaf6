import Ember.Server.Schedules.Accounting

/-!
# What the scheduler keeps

A tick reads the due schedules, plans each, writes rows and starts runs; a call reads its schedule and
writes it later. `Scheduler.Careful` is the condition on the steps under which what was read is still
good where it is written: a tick or an update does not write a next trigger over a schedule that was
paused since, an update or a resume does not bring back a trigger that was accounted for, and a pause
does not return while a tick has the schedule in hand. In runs of such steps no trigger is recorded
twice, a paused schedule plans nothing and runs nothing, and every trigger passed is accounted for.

`Scheduler.entries` is the key of the invariant: the rows written together with those a tick has
decided to write. A trigger enters it once, when its schedule is planned, and only ever moves on.
-/

namespace Ember.Server.Schedules

/-- What tells two rows apart: the schedule and the trigger. -/
def Entry.key (e : Entry) : String × ℤ := (e.scheduleId, e.scheduledAt)

/-- The rows of planned runs. -/
def runsOf (toRun : List (Schedule × ℤ)) : List Entry := toRun.map fun r ↦ ⟨r.1.id, r.2, false⟩

/-- The run a plan asks for. -/
def Plan.run (p : Plan) (s : Schedule) : List (Schedule × ℤ) := p.runAt.toList.map (s, ·)

/-- The rows of a plan. -/
def Plan.entries (p : Plan) (s : Schedule) : List Entry :=
  p.missedTimes.map (⟨s.id, ·, true⟩) ++ runsOf (p.run s)

variable {s : Schedule} {id : String}

namespace TickAt

/-- The tick's reading of the clock. -/
def now : TickAt → ℕ
  | .listing now | .planning now _ _ | .recording now _ _ _ _ _ => now
  | .idle | .running .. => 0

/-- The schedules a tick has found due and not planned yet. -/
def todo : TickAt → List Schedule
  | .planning _ todo _ | .recording _ _ _ _ todo _ => todo
  | .idle | .listing _ | .running .. => []

/-- The runs a tick has planned and not started yet. -/
def toRun : TickAt → List (Schedule × ℤ)
  | .planning _ _ toRun | .running toRun _ => toRun
  | .recording _ s p _ _ toRun => toRun ++ p.run s
  | .idle | .listing _ => []

/-- The rows a tick has decided to write. -/
def pending : TickAt → List Entry
  | .recording _ s p rows _ toRun => rows.map (⟨s.id, ·, true⟩) ++ runsOf (toRun ++ p.run s)
  | tick => runsOf tick.toRun

/-- The schedules a tick has in hand: found due, and not run. -/
def inHand (tick : TickAt) : List String :=
  tick.todo.map Schedule.id ++ tick.toRun.map fun r ↦ r.1.id

/-- A tick that has no more in hand than another one. -/
structure Within (a b : TickAt) : Prop where
  todo : a.todo.Sublist b.todo
  now : a.todo = [] ∨ a.now = b.now
  toRun : ∀ r ∈ a.toRun, r ∈ b.toRun

theorem Within.mem_inHand {a b : TickAt} (h : a.Within b) (hid : id ∈ a.inHand) :
    id ∈ b.inHand := by
  rcases List.mem_append.1 hid with hid | hid
  · exact List.mem_append_left _ ((h.todo.map _).mem hid)
  · obtain ⟨r, hr, rfl⟩ := List.mem_map.1 hid
    exact List.mem_append_right _ (List.mem_map_of_mem (h.toRun r hr))

/-- The schedules still to plan, found due at the same reading of the clock. -/
theorem Within.due {a b : TickAt} (h : a.Within b) (hs : s ∈ a.todo) :
    s ∈ b.todo ∧ a.now = b.now := by
  refine ⟨h.todo.mem hs, h.now.resolve_left fun hnone ↦ ?_⟩
  rw [hnone] at hs
  cases hs

end TickAt

/-- The rows written, and those a tick has decided to write. -/
def Scheduler.entries (w : Scheduler) : List Entry :=
  w.recorded.map Recorded.entry ++ w.tick.pending

/-- What the scheduler keeps. -/
structure Scheduler.Kept (c : Chrono) (w : Scheduler) : Prop where
  /-- No trigger of a schedule was executed or recorded twice. -/
  once : (w.recorded.map (·.entry.key)).Nodup
  /-- The rows there are were recorded, each once. -/
  table : (w.tables.runs.map fun r ↦ (r.scheduleId, r.scheduledAt)).Sublist
    (w.recorded.map (·.entry.key))
  /-- A paused schedule has no next trigger. -/
  paused : ∀ s ∈ w.tables.schedules, s.paused = true → s.nextRunAt = none
  /-- Nothing was executed while a pause had returned and nobody had resumed. -/
  stopped : ∀ r ∈ w.recorded, r.entry.missed = false → r.stopped = false
  /-- What a tick decided about a schedule accounts for every trigger passed. -/
  accounts : ∀ a ∈ w.advances, Accounts c a.schedule a.now a.plan
  /-- When the tick is over, every row of its plans is written. -/
  written : w.tick = .idle → ∀ a ∈ w.advances, ∀ e ∈ a.plan.entries a.schedule,
    e ∈ w.recorded.map Recorded.entry

/-! ### The rows of the schedules -/

/-- What the rows of the schedules have to do with the triggers accounted for and the pauses. -/
structure RowsKept (t : Tables) (reached : String → Option ℤ) (stopped : String → Bool) : Prop where
  ids : (t.schedules.map Schedule.id).Nodup
  paused : ∀ s ∈ t.schedules, s.paused = true → s.nextRunAt = none
  reached : ∀ s ∈ t.schedules, ∀ r ∈ reached s.id, ∀ n ∈ s.nextRunAt, r < n
  stopped : ∀ s ∈ t.schedules, stopped s.id = true → s.paused = true

variable {stopped : String → Bool} {reached : String → Option ℤ} {t : Tables}

/-- A write of one row, with what it changes of the bookkeeping of its schedule. -/
theorem RowsKept.updateRow {reached' : String → Option ℤ} {stopped' : String → Bool}
    (h : RowsKept t reached stopped) {f : Schedule → Schedule} (hid : ∀ s, (f s).id = s.id)
    (hreached : ∀ o, o ≠ id → reached' o = reached o)
    (hstopped : ∀ o, o ≠ id → stopped' o = stopped o)
    (hrow : ∀ s ∈ t.schedules, s.id = id → ((f s).paused = true → (f s).nextRunAt = none) ∧
      (∀ r ∈ reached' id, ∀ n ∈ (f s).nextRunAt, r < n) ∧
      (stopped' id = true → (f s).paused = true)) :
    RowsKept (t.updateRow id f) reached' stopped' := by
  refine ⟨?_, fun s hs hp ↦ ?_, fun s hs r hr n hn ↦ ?_, fun s hs hstop ↦ ?_⟩
  · have hids : (t.updateRow id f).schedules.map Schedule.id = t.schedules.map Schedule.id := by
      rw [Tables.updateRow, List.map_map]
      refine List.map_congr_left fun s _ ↦ ?_
      simp only [Function.comp_apply]
      split
      · exact hid s
      · rfl
    rw [hids]
    exact h.ids
  all_goals obtain ⟨o, ho, rfl⟩ := List.mem_map.1 hs
  all_goals by_cases hoid : o.id = id
  · rw [if_pos hoid] at hp ⊢
    exact (hrow o ho hoid).1 hp
  · rw [if_neg hoid] at hp ⊢
    exact h.paused o ho hp
  · rw [if_pos hoid] at hr hn
    rw [hid, hoid] at hr
    exact (hrow o ho hoid).2.1 r hr n hn
  · rw [if_neg hoid] at hr hn
    rw [hreached _ hoid] at hr
    exact h.reached o ho r hr n hn
  · rw [if_pos hoid] at hstop ⊢
    rw [hid, hoid] at hstop
    exact (hrow o ho hoid).2.2 hstop
  · rw [if_neg hoid] at hstop ⊢
    rw [hstopped _ hoid] at hstop
    exact h.stopped o ho hstop

theorem RowsKept.delete (h : RowsKept t reached stopped)
    (id : String) : RowsKept (t.delete id) reached stopped := by
  have hsub : (t.delete id).schedules.Sublist t.schedules := List.filter_sublist
  exact ⟨h.ids.sublist (hsub.map _), fun s hs ↦ h.paused s (hsub.mem hs),
    fun s hs ↦ h.reached s (hsub.mem hs), fun s hs ↦ h.stopped s (hsub.mem hs)⟩

variable {now : ℕ}

theorem RowsKept.mem_due (h : RowsKept t reached stopped) (hs : s ∈ t.due now) :
    (∃ first, s.nextRunAt = some first ∧ first ≤ now ∧ ∀ r ∈ reached s.id, r < first) ∧
      stopped s.id = false := by
  obtain ⟨hmem, hdue⟩ := List.mem_filter.1 ((List.mem_insertionSort _).1 hs)
  obtain ⟨hactive, hnext⟩ := Bool.and_eq_true_iff.1 hdue
  obtain ⟨first, hfirst, hle⟩ := (Option.any_eq_true _ _).1 hnext
  replace hle := of_decide_eq_true hle
  refine ⟨⟨first, hfirst, hle, fun r hr ↦ h.reached s hmem r hr first hfirst⟩, ?_⟩
  refine Bool.eq_false_iff.2 fun hstop ↦ ?_
  rw [h.stopped s hmem hstop] at hactive
  cases hactive

variable {tick : TickAt} {p : Plan}

namespace Scheduler

/-! ### The condition and the invariant -/

/-- The next SQL statement of the tick, where it goes through. The present is not further away than a
walk may go; a next trigger is not written over a schedule that was paused since it was found due; and
the row of a missed trigger can be inserted. -/
def CarefulTick (c : Chrono) (w : Scheduler) (id : String) : Prop :=
  match w.tick with
  | .planning now (s :: _) _ =>
    ∀ p, plan c s now = .ok p → s.Walkable c now ∧
      ∀ row ∈ w.tables.schedules, row.id = s.id → row.paused = true → p.next = none
  | .recording _ _ _ (_ :: _) _ _ => ∀ r ∈ w.tables.runs, r.id ≠ id
  | _ => True

/-- Where an SQL statement of the tick may fail: while nothing is decided. -/
def MayFail (w : Scheduler) : Prop :=
  match w.tick with
  | .recording .. => False
  | _ => True

/-- The next SQL statement of a call, where it goes through. A next trigger is not written by an
update over a schedule that was paused since it was read, and not by an update or a resume where ticks
have come as far; and a pause does not return while a tick has the schedule in hand. -/
def CarefulCall (w : Scheduler) : CallAt → Prop
  | .writing id _ _ _ next _ => ∀ row ∈ w.tables.schedules, row.id = id → ∀ n ∈ next,
      row.paused = false ∧ ∀ r ∈ w.reached id, r < n
  | .releasing id _ next => ∀ row ∈ w.tables.schedules, row.id = id → ∀ n ∈ next,
      ∀ r ∈ w.reached id, r < n
  | .reporting id true => ∀ row ∈ w.tables.schedules, row.id = id → row.paused = true →
      id ∉ w.tick.inHand
  | _ => True

/-- The condition on a step. -/
def Careful (c : Chrono) (w : Scheduler) : ScheduleAction → Prop
  | .tickStep _ id => w.CarefulTick c id
  | .start _ _ id => ∀ r ∈ w.tables.runs, r.id ≠ id
  | .tickFails => w.MayFail
  | .startFails _ => False
  | .callStep i _ _ => ∀ call ∈ w.calls i, w.CarefulCall call
  | _ => True

/-- The invariant. -/
structure Sound (c : Chrono) (w : Scheduler) : Prop where
  rows : RowsKept w.tables w.reached w.stopped
  todoIds : (w.tick.todo.map Schedule.id).Nodup
  todo : ∀ s ∈ w.tick.todo, ∃ first, s.nextRunAt = some first ∧ first ≤ w.tick.now ∧
    ∀ r ∈ w.reached s.id, r < first
  inHand : ∀ id ∈ w.tick.inHand, w.stopped id = false
  once : (w.entries.map Entry.key).Nodup
  bounded : ∀ e ∈ w.entries, ∃ r ∈ w.reached e.scheduleId, e.scheduledAt ≤ r
  recorded : ∀ r ∈ w.recorded, r.entry.missed = false → r.stopped = false
  accounts : ∀ a ∈ w.advances, Accounts c a.schedule a.now a.plan
  written : ∀ a ∈ w.advances, ∀ e ∈ a.plan.entries a.schedule, e ∈ w.entries
  table : (w.tables.runs.map fun r ↦ (r.scheduleId, r.scheduledAt)).Sublist
    (w.recorded.map (·.entry.key))

variable {c : Chrono} {w : Scheduler}

/-- What the invariant says to a reader. -/
theorem Sound.kept (h : w.Sound c) : w.Kept c where
  once := by
    have hsub : (w.recorded.map Recorded.entry).Sublist w.entries := List.sublist_append_left ..
    have hkeys := h.once.sublist (hsub.map Entry.key)
    rwa [List.map_map] at hkeys
  table := h.table
  paused := h.rows.paused
  stopped := h.recorded
  accounts := h.accounts
  written hidle a ha e he := by
    have hmem := h.written a ha e he
    rw [entries, hidle] at hmem
    exact (List.mem_append.1 hmem).resolve_right List.not_mem_nil

/-- A call that goes on changes nothing else. -/
theorem Sound.setCall (h : w.Sound c) (i : ℕ) (call : CallAt) : (w.setCall i call).Sound c :=
  ⟨h.rows, h.todoIds, h.todo, h.inHand, h.once, h.bounded, h.recorded, h.accounts, h.written,
    h.table⟩

/-- A write of the schedules' rows, with what it changes of the pauses. -/
theorem Sound.writeRows (h : w.Sound c) {tables : Tables}
    (hrows : RowsKept tables w.reached stopped)
    (htable : tables.runs.Sublist w.tables.runs)
    (hhand : ∀ id ∈ w.tick.inHand, stopped id = false) :
    Sound c { w with tables, stopped } :=
  ⟨hrows, h.todoIds, h.todo, hhand, h.once, h.bounded, h.recorded, h.accounts, h.written,
    (htable.map _).trans h.table⟩

/-- A step of a call. -/
theorem Sound.callStep (h : w.Sound c) {i : ℕ} (hcareful : ∀ call ∈ w.calls i, w.CarefulCall call)
    (now now' : ℕ) : (w.callStep c i now now').Sound c := by
  simp only [Scheduler.callStep]
  split
  case h_1 id patch hcall =>
    split
    · exact h.setCall ..
    · split
      · exact h.setCall ..
      · split <;> exact h.setCall ..
  case h_2 id patch kind anchor next at_ hcall =>
    have hnext := hcareful _ hcall
    have hrows : RowsKept (w.tables.updateRow id (·.update patch kind anchor next at_)) w.reached
        w.stopped := by
      refine h.rows.updateRow (fun _ ↦ rfl) (fun _ _ ↦ rfl) (fun _ _ ↦ rfl) fun row hrow hid ↦
        ⟨fun hp ↦ ?_, fun r hr n hn ↦ (hnext row hrow hid n hn).2 r hr, fun hstop ↦ ?_⟩
      · refine Option.eq_none_iff_forall_ne_some.2 fun n hn ↦ ?_
        have hactive := (hnext row hrow hid n hn).1
        exact Bool.false_ne_true (hactive.symm.trans hp)
      · exact h.rows.stopped row hrow (by rwa [hid])
    exact (h.writeRows hrows (List.Sublist.refl _) h.inHand).setCall ..
  case h_3 id hcall => split <;> exact h.setCall ..
  case h_4 id hcall =>
    have hrows : RowsKept (w.tables.updateRow id (·.pause now)) w.reached w.stopped :=
      h.rows.updateRow (fun _ ↦ rfl) (fun _ _ ↦ rfl) (fun _ _ ↦ rfl) fun row _ _ ↦
        ⟨fun _ ↦ rfl, fun _ _ n hn ↦ (by cases hn), fun _ ↦ rfl⟩
    exact (h.writeRows hrows (List.Sublist.refl _) h.inHand).setCall ..
  case h_5 id hcall =>
    split
    · exact h.setCall ..
    · split <;> exact h.setCall ..
  case h_6 id at_ next hcall =>
    have hnext := hcareful _ hcall
    have hstopped : ∀ o, o ≠ id → Function.update w.stopped id false o = w.stopped o :=
      fun o ho ↦ Function.update_of_ne ho ..
    have hrows : RowsKept (w.tables.updateRow id (·.resume at_ next)) w.reached
        (Function.update w.stopped id false) := by
      refine h.rows.updateRow (fun _ ↦ rfl) (fun _ _ ↦ rfl) hstopped fun row hrow hid ↦
        ⟨fun hp ↦ (by cases hp), fun r hr n hn ↦ hnext row hrow hid n hn r hr, fun hstop ↦ ?_⟩
      rw [Function.update_self] at hstop
      cases hstop
    refine (h.writeRows hrows (List.Sublist.refl _) fun o ho ↦ ?_).setCall ..
    by_cases hid : o = id
    · rw [hid, Function.update_self]
    · rw [hstopped o hid]
      exact h.inHand o ho
  case h_7 id hcall => split <;> exact h.setCall ..
  case h_8 id hcall =>
    exact (h.writeRows (h.rows.delete id) List.filter_sublist h.inHand).setCall ..
  case h_9 id pause hcall =>
    have hcareful := hcareful _ hcall
    split
    · exact h.setCall ..
    case h_2 s hget =>
      obtain ⟨hmem, hid⟩ : s ∈ w.tables.schedules ∧ s.id = id :=
        ⟨List.mem_of_find?_eq_some hget, by simpa using List.find?_some hget⟩
      split
      case isFalse => exact (h.writeRows h.rows (List.Sublist.refl _) h.inHand).setCall ..
      case isTrue hpause =>
        obtain ⟨rfl, hp⟩ := Bool.and_eq_true_iff.1 hpause
        have hrows : RowsKept w.tables w.reached (Function.update w.stopped id true) := by
          refine ⟨h.rows.ids, h.rows.paused, h.rows.reached, fun row hrow hstop ↦ ?_⟩
          by_cases hrid : row.id = id
          · rwa [List.inj_on_of_nodup_map h.rows.ids hrow hmem (hrid.trans hid.symm)]
          · rw [Function.update_of_ne hrid] at hstop
            exact h.rows.stopped row hrow hstop
        refine (h.writeRows hrows (List.Sublist.refl _) fun o ho ↦ ?_).setCall ..
        have hne : o ≠ id := fun heq ↦ hcareful s hmem hid hp (heq ▸ ho)
        rw [Function.update_of_ne hne]
        exact h.inHand o ho
  case h_10 => exact h
  case h_11 => exact h

/-! ### The steps of a tick -/

/-- A step of the tick that neither plans nor writes: it has no more in hand, and no row less to
write. -/
theorem Sound.setTick (h : w.Sound c) (hwithin : tick.Within w.tick)
    (hpending : tick.pending = w.tick.pending) : Sound c { w with tick } := by
  have hentries : entries { w with tick } = w.entries := by
    rw [entries, entries, hpending]
  refine ⟨h.rows, h.todoIds.sublist (hwithin.todo.map _), fun s hs ↦ ?_,
    fun id hid ↦ h.inHand id (hwithin.mem_inHand hid), ?_, ?_, h.recorded, h.accounts, ?_, h.table⟩
  · obtain ⟨hs, hnow⟩ := hwithin.due hs
    show ∃ first, s.nextRunAt = some first ∧ first ≤ tick.now ∧ _
    rw [hnow]
    exact h.todo s hs
  all_goals rw [hentries]
  · exact h.once
  · exact h.bounded
  · exact h.written

/-- A row is inserted under a new id. -/
theorem insertRun_eq_some {scheduleId : String} (hfresh : ∀ r ∈ t.runs, r.id ≠ id) (scheduledAt : ℤ)
    (status : RunStatus) (startedAt : Option ℕ) (now : ℕ) (error : Option String) :
    ∃ run, run.scheduleId = scheduleId ∧ run.scheduledAt = scheduledAt ∧
      t.insertRun id scheduleId scheduledAt status startedAt now error =
        some { t with runs := t.runs ++ [run] } := by
  refine ⟨⟨id, scheduleId, scheduledAt, status, none, startedAt,
    if status = .running then none else some now, error⟩, rfl, rfl, ?_⟩
  rw [Tables.insertRun, if_neg fun hany ↦ ?_]
  obtain ⟨r, hr, hid⟩ := List.any_eq_true.1 hany
  exact hfresh r hr (beq_iff_eq.1 hid)

/-- A row is written for a trigger that was to be written. -/
theorem Sound.record (h : w.Sound c) {run : ScheduleRun} {e : Entry}
    (hid : run.scheduleId = e.scheduleId) (hat : run.scheduledAt = e.scheduledAt)
    (hwithin : tick.Within w.tick) (hpending : (e :: tick.pending).Perm w.tick.pending)
    (hstopped : e.missed = false → w.stopped e.scheduleId = false) :
    Sound c { w.record { w.tables with runs := w.tables.runs ++ [run] } e with tick } := by
  set v : Scheduler := { w.record { w.tables with runs := w.tables.runs ++ [run] } e with tick }
  have hentries : v.entries.Perm w.entries := by
    show ((w.recorded ++ [_]).map Recorded.entry ++ tick.pending).Perm _
    rw [List.map_append, List.append_assoc]
    exact hpending.append_left _
  refine ⟨⟨h.rows.ids, h.rows.paused, h.rows.reached, h.rows.stopped⟩,
    h.todoIds.sublist (hwithin.todo.map _), fun s hs ↦ ?_,
    fun id hid ↦ h.inHand id (hwithin.mem_inHand hid), ?_, fun o ho ↦ ?_, fun r hr hno ↦ ?_,
    h.accounts, fun a ha o ho ↦ ?_, ?_⟩
  · obtain ⟨hs, hnow⟩ := hwithin.due hs
    show ∃ first, s.nextRunAt = some first ∧ first ≤ tick.now ∧ _
    rw [hnow]
    exact h.todo s hs
  · exact ((hentries.map _).nodup_iff).2 h.once
  · exact h.bounded o (hentries.mem_iff.1 ho)
  · rcases List.mem_append.1 hr with hr | hr
    · exact h.recorded r hr hno
    · obtain rfl := List.mem_singleton.1 hr
      exact hstopped hno
  · exact hentries.mem_iff.2 (h.written a ha o ho)
  · show ((w.tables.runs ++ [run]).map _).Sublist ((w.recorded ++ [_]).map _)
    rw [List.map_append, List.map_append]
    refine h.table.append ?_
    rw [List.map_singleton, List.map_singleton, hid, hat]
    exact List.Sublist.refl _

/-- The entries of a plan: what its schedule passed, none of them twice. -/
theorem entries_of_accounts (h : Accounts c s now p) :
    ((p.entries s).map Entry.key).Nodup ∧
      ∀ e ∈ p.entries s, e.scheduleId = s.id ∧ e.scheduledAt ∈ s.passed c now := by
  have hkeys : (p.entries s).map Entry.key =
      (p.missedTimes ++ p.runAt.toList).map fun t ↦ (s.id, t) := by
    rw [Plan.entries, runsOf, Plan.run, List.map_append, List.map_append, List.map_map, List.map_map,
      List.map_map]
    rfl
  have hrun : ∀ t ∈ p.runAt, t ∈ s.passed c now := fun t ht ↦ by
    rw [h.run] at ht
    split at ht
    · obtain rfl := Option.some.inj ht
      exact h.latest.1
    · cases ht
  refine ⟨?_, fun e he ↦ ?_⟩
  · rw [hkeys]
    refine List.Nodup.map (fun a b hab ↦ (Prod.mk.inj hab).2) (List.nodup_append.2 ⟨?_, ?_, ?_⟩)
    · exact h.sorted.imp fun hab ↦ ne_of_lt hab
    · exact Option.toList_nodup _
    · rintro t ht r hr rfl
      exact (h.rows t ht).2 (Option.mem_toList.1 hr)
  · rcases List.mem_append.1 he with he | he
    · obtain ⟨t, ht, rfl⟩ := List.mem_map.1 he
      exact ⟨rfl, (h.rows t ht).1⟩
    · obtain ⟨r, hr, rfl⟩ := List.mem_map.1 he
      obtain ⟨t, ht, rfl⟩ := List.mem_map.1 hr
      exact ⟨rfl, hrun t (Option.mem_toList.1 ht)⟩

/-- What a schedule passed is no earlier than its planned trigger. -/
theorem le_of_mem_passed {first t : ℤ} (hc : c.Later) (hmax : (now : ℤ) < I64_MAX)
    (hfirst : s.nextRunAt = some first) (ht : t ∈ s.passed c now) :
    first ≤ t := by
  obtain ⟨first', hfirst', ht⟩ := ht
  obtain rfl := Option.some.inj (hfirst.symm.trans hfirst')
  induction ht with
  | refl => exact le_rfl
  | tail _ hstep ih => exact ih.trans (hstep.lt hc hmax).le

theorem le_now_of_mem_passed {t : ℤ} (hfirst : ∀ first ∈ s.nextRunAt, first ≤ now)
    (ht : t ∈ s.passed c now) : t ≤ now := by
  obtain ⟨first, hf, ht⟩ := ht
  rcases Relation.ReflTransGen.cases_tail ht with rfl | ⟨b, -, hstep⟩
  · exact hfirst _ hf
  · exact hstep.2.1

/-- **A plan** enters the triggers its schedule has passed, and only these. -/
theorem Sound.plan (h : w.Sound c) (hc : c.Later) {todo : List Schedule}
    {toRun : List (Schedule × ℤ)} (htick : w.tick = .planning now (s :: todo) toRun)
    (hplan : plan c s now = .ok p) (hwalk : s.Walkable c now)
    (hpaused : ∀ row ∈ w.tables.schedules, row.id = s.id → row.paused = true → p.next = none) :
    Sound c { w with
      tables := w.tables.updateRow s.id (·.advance p.next p.runAt)
      tick := .recording now s p p.missedTimes todo toRun
      reached := Function.update w.reached s.id (some p.latest)
      advances := w.advances ++ [⟨s, now, p⟩] } := by
  have hids := h.todoIds
  have htodo := h.todo
  have hhand := h.inHand
  rw [htick] at hids htodo hhand
  obtain ⟨hnotin, hids⟩ := List.nodup_cons.1 hids
  obtain ⟨first, hfirst, hle, hlater⟩ := htodo s List.mem_cons_self
  have hacc : Accounts c s now p :=
    accounts_of_plan hc hwalk (fun f hf ↦ Option.some.inj (hfirst.symm.trans hf) ▸ hle) hplan
  obtain ⟨hnodup, hpassed⟩ := entries_of_accounts hacc
  have hother : ∀ o, o ≠ s.id → Function.update w.reached s.id (some p.latest) o = w.reached o :=
    fun o ho ↦ Function.update_of_ne ho ..
  have hself : Function.update w.reached s.id (some p.latest) s.id = some p.latest :=
    Function.update_self ..
  -- the entries before are of earlier triggers
  have hbefore : ∀ e ∈ w.entries, e.scheduleId = s.id → e.scheduledAt < first := fun e he hid ↦ by
    obtain ⟨r, hr, hle⟩ := h.bounded e he
    exact hle.trans_lt (hlater r (hid ▸ hr))
  have hfrom : ∀ t ∈ s.passed c now, first ≤ t := fun t ↦ le_of_mem_passed hc hwalk.1 hfirst
  set v : Scheduler := { w with
    tables := w.tables.updateRow s.id (·.advance p.next p.runAt)
    tick := .recording now s p p.missedTimes todo toRun
    reached := Function.update w.reached s.id (some p.latest)
    advances := w.advances ++ [⟨s, now, p⟩] }
  have hentries : v.entries.Perm (w.entries ++ p.entries s) := by
    show (w.recorded.map Recorded.entry ++ (_ ++ runsOf (toRun ++ p.run s))).Perm _
    rw [entries, htick, Plan.entries, runsOf, List.map_append, List.append_assoc]
    refine List.Perm.append_left _ ?_
    show (_ ++ (runsOf toRun ++ runsOf (p.run s))).Perm (runsOf toRun ++ (_ ++ runsOf (p.run s)))
    rw [← List.append_assoc, ← List.append_assoc]
    exact List.perm_append_comm.append_right _
  refine ⟨?_, hids, fun o ho ↦ ?_, fun id hid ↦ ?_, ?_, fun e he ↦ ?_, h.recorded, fun a ha ↦ ?_,
    fun a ha e he ↦ ?_, h.table⟩
  · refine h.rows.updateRow (fun _ ↦ rfl) hother (fun _ _ ↦ rfl) fun row hrow hid ↦
      ⟨fun hp ↦ hpaused row hrow hid hp, fun r hr n hn ↦ ?_, fun hstop ↦ ?_⟩
    · obtain rfl := Option.some.inj (hself.symm.trans hr)
      exact (le_now_of_mem_passed (fun f hf ↦ Option.some.inj (hfirst.symm.trans hf) ▸ hle)
        hacc.latest.1).trans_lt (hacc.next n hn)
    · exact h.rows.stopped row hrow (by rwa [hid])
  · have hne : o.id ≠ s.id := fun heq ↦ hnotin (heq ▸ List.mem_map_of_mem ho)
    show ∃ first, _ ∧ _ ∧ ∀ r ∈ Function.update w.reached s.id (some p.latest) o.id, _
    rw [hother _ hne]
    exact htodo o (List.mem_cons_of_mem _ ho)
  · refine hhand id ?_
    rcases List.mem_append.1 hid with hid | hid
    · exact List.mem_append_left _ (List.mem_cons_of_mem _ hid)
    · obtain ⟨r, hr, rfl⟩ := List.mem_map.1 hid
      rcases List.mem_append.1 hr with hr | hr
      · exact List.mem_append_right _ (List.mem_map_of_mem hr)
      · obtain ⟨t, -, rfl⟩ := List.mem_map.1 hr
        exact List.mem_append_left _ List.mem_cons_self
  · rw [(hentries.map _).nodup_iff, List.map_append]
    refine List.nodup_append.2 ⟨h.once, hnodup, fun a ha b hb hab ↦ ?_⟩
    obtain ⟨e, he, rfl⟩ := List.mem_map.1 ha
    obtain ⟨o, ho, rfl⟩ := List.mem_map.1 hb
    obtain ⟨hoid, hot⟩ := hpassed o ho
    obtain ⟨hid, ht⟩ := Prod.mk.inj hab
    have hlt := hbefore e he (hid.trans hoid)
    have hge := hfrom _ hot
    omega
  · rcases List.mem_append.1 (hentries.mem_iff.1 he) with he | he
    · obtain ⟨r, hr, hle'⟩ := h.bounded e he
      by_cases hid : e.scheduleId = s.id
      · refine ⟨p.latest, hid ▸ hself, ?_⟩
        exact (hbefore e he hid).le.trans (hfrom _ hacc.latest.1)
      · exact ⟨r, (hother _ hid).trans hr, hle'⟩
    · obtain ⟨hid, ht⟩ := hpassed e he
      exact ⟨p.latest, hid ▸ hself, hacc.latest.2 ht⟩
  · rcases List.mem_append.1 ha with ha | ha
    · exact h.accounts a ha
    · obtain rfl := List.mem_singleton.1 ha
      exact hacc
  · refine hentries.mem_iff.2 ?_
    rcases List.mem_append.1 ha with ha | ha
    · exact List.mem_append_left _ (h.written a ha e he)
    · obtain rfl := List.mem_singleton.1 ha
      exact List.mem_append_right _ he

/-- The next SQL statement of a tick. -/
theorem Sound.tickStep (h : w.Sound c) (hc : c.Later)
    (hcareful : w.CarefulTick c id) : (w.tickStep c now id).Sound c := by
  simp only [CarefulTick] at hcareful
  simp only [Scheduler.tickStep]
  split
  case h_1 at_ htick =>
    have hpending : w.tick.pending = [] := by rw [htick]; rfl
    refine ⟨h.rows, ?_, fun s hs ↦ (h.rows.mem_due hs).1, fun id hid ↦ ?_, ?_, ?_, h.recorded,
      h.accounts, ?_, h.table⟩
    · have hperm := List.perm_insertionSort (fun a b : Schedule ↦ a.nextRunAt.getD 0 ≤
        b.nextRunAt.getD 0) (w.tables.schedules.filter fun s ↦ !s.paused &&
          s.nextRunAt.any fun n : ℤ ↦ decide (n ≤ at_))
      exact (hperm.map Schedule.id).nodup_iff.2 (h.rows.ids.sublist (List.filter_sublist.map _))
    · obtain ⟨s, hs, rfl⟩ := List.mem_map.1 ((List.mem_append.1 hid).resolve_right List.not_mem_nil)
      exact (h.rows.mem_due hs).2
    all_goals
      rw [show Scheduler.entries { w with tick := .planning at_ (w.tables.due at_) [] } = w.entries by
        rw [Scheduler.entries, Scheduler.entries, hpending]; rfl]
    · exact h.once
    · exact h.bounded
    · exact h.written
  case h_2 at_ s todo toRun htick =>
    simp only [htick] at hcareful
    split
    · refine h.setTick ?_ (by rw [htick]; rfl)
      rw [htick]
      exact ⟨List.sublist_cons_self _ _, .inr rfl, fun r hr ↦ hr⟩
    case h_2 p hplan =>
      obtain ⟨hwalk, hpaused⟩ := hcareful p hplan
      exact h.plan hc htick hplan hwalk hpaused
  case h_3 at_ toRun htick =>
    refine h.setTick ?_ (by rw [htick]; rfl)
    rw [htick]
    exact ⟨List.Sublist.refl _, .inl rfl, fun r hr ↦ hr⟩
  case h_4 at_ s p t rows todo toRun htick =>
    simp only [htick] at hcareful
    obtain ⟨run, hid, hat, hinsert⟩ : ∃ run, run.scheduleId = s.id ∧ run.scheduledAt = t ∧
        w.tables.insertRun _ s.id t .missed none now (some p.notice) =
          some { w.tables with runs := w.tables.runs ++ [run] } :=
      insertRun_eq_some hcareful t .missed none now (some p.notice)
    rw [hinsert]
    refine h.record (e := ⟨s.id, t, true⟩) hid hat ?_ ?_ fun hno ↦ by cases hno
    · rw [htick]
      exact ⟨List.Sublist.refl _, .inr rfl, fun r hr ↦ hr⟩
    · rw [htick]
      exact List.Perm.refl _
  case h_5 at_ s p todo toRun htick =>
    refine h.setTick ?_ (by rw [htick]; rfl)
    rw [htick]
    exact ⟨List.Sublist.refl _, .inr rfl, fun r hr ↦ hr⟩
  case h_6 htick =>
    refine h.setTick ?_ (by rw [htick]; rfl)
    rw [htick]
    exact ⟨List.Sublist.refl _, .inl rfl, fun r hr ↦ hr⟩
  case h_7 => exact h

/-- A planned run starts. -/
theorem Sound.start (h : w.Sound c) {k : ℕ}
    (hfresh : ∀ r ∈ w.tables.runs, r.id ≠ id) : (w.start k now id).Sound c := by
  simp only [Scheduler.start]
  split
  case h_1 toRun sending htick =>
    split
    · exact h
    case h_2 s at_ hget =>
      obtain ⟨run, hid, hat, hinsert⟩ : ∃ run, run.scheduleId = s.id ∧ run.scheduledAt = at_ ∧
          w.tables.insertRun id s.id at_ .running (some now) now none =
            some { w.tables with runs := w.tables.runs ++ [run] } :=
        insertRun_eq_some hfresh at_ .running (some now) now none
      rw [hinsert]
      obtain ⟨hk, hget⟩ := List.getElem?_eq_some_iff.1 hget
      have hmem : (s, at_) ∈ toRun := hget ▸ List.getElem_mem hk
      refine h.record (e := ⟨s.id, at_, false⟩) hid hat ?_ ?_ fun _ ↦ h.inHand s.id ?_
      · rw [htick]
        exact ⟨List.Sublist.refl _, .inl rfl, fun r hr ↦ List.mem_of_mem_eraseIdx hr⟩
      · rw [htick]
        have hperm := (List.getElem_cons_eraseIdx_perm hk).map fun r : Schedule × ℤ ↦
          (⟨r.1.id, r.2, false⟩ : Entry)
        rwa [List.map_cons, hget] at hperm
      · rw [htick]
        exact List.mem_append_right _ (List.mem_map.2 ⟨_, hmem, rfl⟩)
  case h_2 => exact h

/-- A write of rows of runs that are there. -/
theorem Sound.updateRun (h : w.Sound c) (id : String) {f : ScheduleRun → ScheduleRun}
    (hf : ∀ r, (f r).scheduleId = r.scheduleId ∧ (f r).scheduledAt = r.scheduledAt) :
    Sound c { w with tables := w.tables.updateRun id f } := by
  refine ⟨⟨h.rows.ids, h.rows.paused, h.rows.reached, h.rows.stopped⟩, h.todoIds, h.todo, h.inHand,
    h.once, h.bounded, h.recorded, h.accounts, h.written, ?_⟩
  have hsame : ((w.tables.updateRun id f).runs.map fun r ↦ (r.scheduleId, r.scheduledAt)) =
      w.tables.runs.map fun r ↦ (r.scheduleId, r.scheduledAt) := by
    rw [Tables.updateRun, List.map_map]
    refine List.map_congr_left fun r _ ↦ ?_
    simp only [Function.comp_apply]
    split
    · rw [(hf r).1, (hf r).2]
    · rfl
  exact hsame ▸ h.table

theorem finish_key (status : RunStatus) (now : ℕ) (error : Option String) (r : ScheduleRun) :
    (r.finish status now error).scheduleId = r.scheduleId ∧
      (r.finish status now error).scheduledAt = r.scheduledAt := by
  rw [ScheduleRun.finish]
  split <;> exact ⟨rfl, rfl⟩

/-- **The step lemma.** -/
theorem Sound.step (h : w.Sound c) (hc : c.Later) {a : ScheduleAction} (hcareful : w.Careful c a) :
    (w.step c a).Sound c := by
  have hcall : ∀ i call, (w.call i call).Sound c := fun i call ↦ by
    rw [Scheduler.call]
    split
    · exact h
    · exact h.setCall i call
  cases a with
  | tick now =>
    simp only [Scheduler.step]
    split
    case h_1 htick =>
      refine h.setTick ?_ (by rw [htick]; rfl)
      rw [htick]
      exact ⟨List.Sublist.refl _, .inl rfl, fun r hr ↦ hr⟩
    case h_2 => exact h
  | tickStep now id => exact h.tickStep hc hcareful
  | start k now id => exact h.start hcareful
  | sent run outcome now =>
    simp only [Scheduler.step, Scheduler.sent]
    split
    case h_1 toRun sending htick =>
      split
      · have hset : Sound c { w with tick := .running toRun (sending.erase run) } := by
          refine h.setTick ?_ (by rw [htick]; rfl)
          rw [htick]
          exact ⟨List.Sublist.refl _, .inl rfl, fun r hr ↦ hr⟩
        cases outcome with
        | ok session => exact hset.updateRun run fun _ ↦ ⟨rfl, rfl⟩
        | error failure => exact hset.updateRun run fun _ ↦ finish_key ..
      · exact h
    case h_2 => exact h
  | turnEnded run status error now => exact h.updateRun run fun _ ↦ finish_key ..
  | tickFails =>
    simp only [Careful, MayFail] at hcareful
    simp only [Scheduler.step, Scheduler.tickFails]
    split
    case h_1 at_ htick =>
      refine h.setTick ?_ (by rw [htick]; rfl)
      rw [htick]
      exact ⟨List.Sublist.refl _, .inl rfl, fun r hr ↦ hr⟩
    case h_2 at_ s todo toRun htick =>
      refine h.setTick ?_ (by rw [htick]; rfl)
      rw [htick]
      exact ⟨List.sublist_cons_self _ _, .inr rfl, fun r hr ↦ hr⟩
    case h_3 htick => simp only [htick] at hcareful
    case h_4 => exact h
  | startFails k => exact hcareful.elim
  | update | pause | resume | delete => exact hcall ..
  | callStep i now now' => exact h.callStep hcareful now now'
  | callFails i =>
    simp only [Scheduler.step, Scheduler.callFails]
    split
    · exact h
    · exact h
    · exact h.setCall ..

/-- Schedules as `create` left them. -/
theorem sound_ofCreated {schedules : List Schedule} (h : Created c schedules) :
    (ofCreated schedules).Sound c := by
  refine ⟨⟨h.1, fun s hs hp ↦ ?_, fun _ _ _ hr ↦ (by cases hr), fun _ _ hstop ↦ (by cases hstop)⟩,
    List.nodup_nil, fun _ hs ↦ absurd hs List.not_mem_nil, fun _ _ ↦ rfl, List.nodup_nil,
    fun _ he ↦ absurd he List.not_mem_nil, fun _ hr ↦ absurd hr List.not_mem_nil,
    fun _ ha ↦ absurd ha List.not_mem_nil, fun _ ha ↦ absurd ha List.not_mem_nil,
    List.Sublist.refl _⟩
  obtain ⟨prompt, paused, catchUp, now, now', hcreated⟩ := h.2 s hs
  rw [created] at hcreated
  split at hcreated
  · cases hcreated
  case h_2 next hnext =>
    have hrow := Except.ok.inj hcreated
    have hsame : paused = s.paused := congrArg Schedule.paused hrow
    rw [← show (if paused then none else some next) = s.nextRunAt from
      congrArg Schedule.nextRunAt hrow, hsame, if_pos hp]

/-- **What the scheduler keeps.** In every run whose steps meet the condition no trigger is recorded
twice, a paused schedule has no next trigger and is not run once the pause has returned, and every
trigger a tick passes is accounted for. -/
theorem kept_of_run (hc : c.Later) (hr : ((system c).restrict (Careful c)).Reachable w) :
    w.Kept c := by
  refine Sound.kept (hr.invariant ?_ ?_)
  · rintro w ⟨schedules, hcreated, rfl⟩
    exact sound_ofCreated hcreated
  · rintro w a w' - h ⟨hcareful, rfl⟩
    exact h.step hc hcareful

/-- No time zones; instants are written as numbers. -/
def noZones : Chrono :=
  ⟨fun _ ↦ false, fun _ ↦ none, fun _ ↦ true, fun _ _ _ ↦ none, fun _ t ↦ t, fun t ↦ toString t⟩

theorem later_noZones : noZones.Later := fun _ _ _ _ h ↦ by cases h

/-- Every minute since 0. -/
def everyMinute : Schedule := ⟨"s", "hi", .interval 60, false, false, 0, some 60000, none, 0⟩

theorem created_everyMinute : Created noZones [everyMinute] :=
  ⟨List.nodup_singleton _, List.forall_mem_singleton.2 ⟨"hi", false, false, 0, 0, by decide +kernel⟩⟩

/-- A minute and more late: two triggers have passed. -/
theorem walkable_everyMinute : everyMinute.Walkable noZones 130000 := by
  have hl : [60000, 120000].Follows (Step noZones (.interval 60) 0 130000) 60000 120000 :=
    (List.Follows.singleton 60000).concat ⟨by decide, by decide, by decide +kernel⟩
  have hstop : ∀ n, ¬ Step noZones (.interval 60) 0 130000 120000 n := fun n hn ↦ by
    have hnext : nextAfter noZones (.interval 60) 0 120000 = .ok (some 180000) := by decide +kernel
    obtain rfl := Option.some.inj (Except.ok.inj (hnext.symm.trans hn.2.2))
    exact absurd hn.2.1 (by decide)
  have hsub : everyMinute.passed noZones 130000 ⊆ ({60000, 120000} : Finset ℤ) := by
    rintro t ⟨first, hfirst, ht⟩
    obtain rfl := Option.some.inj hfirst
    simpa using hl.mem_of_reflTransGen (fun _ _ _ hab hac ↦ hab.unique hac) hstop ht
  refine ⟨by decide, (Set.encard_le_encard hsub).trans ?_⟩
  rw [Set.encard_coe_eq_coe_finsetCard]
  exact Nat.cast_le.2 (by decide)

/-- A tick that finds two triggers passed: one is missed, the later one is run. -/
theorem kept_of_run_tick : ∃ w, ((system noZones).restrict (Careful noZones)).Reachable w ∧
    w.recorded = [⟨⟨"s", 60000, true⟩, false⟩, ⟨⟨"s", 120000, false⟩, false⟩] ∧ w.Kept noZones := by
  have next : ∀ {w : Scheduler} (a : ScheduleAction),
      ((system noZones).restrict (Careful noZones)).Reachable w → w.Careful noZones a →
      ((system noZones).restrict (Careful noZones)).Reachable (w.step noZones a) :=
    fun a hr hcareful ↦ hr.next a ⟨hcareful, rfl⟩
  have hstart : ((system noZones).restrict (Careful noZones)).Reachable (ofCreated [everyMinute]) :=
    .start ⟨_, created_everyMinute, rfl⟩
  have hlisted := next (.tickStep 130000 "r") (next (.tick 130000) hstart trivial) trivial
  have hplanned := next (.tickStep 130000 "r") hlisted fun p hp ↦
    ⟨walkable_everyMinute, List.forall_mem_singleton.2 fun _ hno ↦ by cases hno⟩
  have hmissed := next (.tickStep 130000 "r") hplanned (List.forall_mem_nil _)
  have hready := next (.tickStep 130000 "r") (next (.tickStep 130000 "r") hmissed trivial) trivial
  have hstarted := next (.start 0 130000 "r'") hready (by
    show ∀ r ∈ (_ : List ScheduleRun), r.id ≠ "r'"
    decide +kernel)
  exact ⟨_, hstarted, by decide +kernel, kept_of_run later_noZones hstarted⟩

/-- A pause that goes in between finding a schedule due and planning it: the plan is written over the
paused schedule. -/
theorem not_kept_of_pause_in_tick :
    ¬ ∀ c : Chrono, c.Later → ∀ w, (system c).Reachable w → w.Kept c := by
  intro hall
  have hrun := (StepSystem.Reachable.start (S := system noZones) (s := ofCreated [everyMinute])
    ⟨_, created_everyMinute, rfl⟩).foldl (f := fun w a ↦ w.step noZones a) (fun _ _ ↦ rfl)
    [.tick 130000, .tickStep 130000 "r", .pause 0 "s", .callStep 0 130000 130000,
      .callStep 0 130000 130000, .tickStep 130000 "r"]
  set w := List.foldl _ _ _
  have hrow : ∃ s ∈ w.tables.schedules, s.paused = true ∧ s.nextRunAt = some 180000 := by
    decide +kernel
  obtain ⟨s, hs, hp, hnext⟩ := hrow
  cases hnext.symm.trans ((hall noZones later_noZones w hrun).paused s hs hp)

end Scheduler

end Ember.Server.Schedules
