import Ember.Foundation.Runs
import Ember.Server.Schedules.Timing
import Mathlib.Data.List.Sort
import Mathlib.Logic.Function.Basic

/-!
# The scheduler

The `schedules` and `schedule_runs` tables, `tick`, and the calls that change a schedule: `update`,
`pause`, `resume` and `delete`. Each SQL statement is one step; what a call or a tick has read before
is kept in the state it has reached, and it writes from that. Ticks exclude each other; the calls do
not wait for them.

`Scheduler.reached`, `Scheduler.stopped`, `Scheduler.recorded` and `Scheduler.advances` are
bookkeeping of what was done. No step reads them.
-/

namespace Ember.Server.Schedules

/-- `GRACE_MS`: a trigger later than this is missed rather than run. -/
def GRACE_MS : ℤ := 60000

/-- `MAX_MISSED_ROWS`: at most this many `missed` rows are written for one gap. -/
def MAX_MISSED_ROWS : ℕ := 20

/-- `HEADER_TAG`. -/
def HEADER_TAG : String := "[ember schedule]"

/-- `RunStatus`. -/
inductive RunStatus
  | running
  | completed
  | failed
  | interrupted
  | skipped
  | missed
  deriving DecidableEq, Repr

/-- `Schedule`, the columns that decide when it fires. -/
structure Schedule where
  id : String
  prompt : String
  kind : ScheduleKind
  paused : Bool
  catchUp : Bool
  anchorAt : ℕ
  nextRunAt : Option ℤ
  lastRunAt : Option ℤ
  updatedAt : ℕ
  deriving DecidableEq, Repr

/-- `ScheduleRun`. -/
structure ScheduleRun where
  id : String
  scheduleId : String
  scheduledAt : ℤ
  status : RunStatus
  sessionId : Option String
  startedAt : Option ℕ
  finishedAt : Option ℕ
  error : Option String
  deriving DecidableEq, Repr

/-- `SchedulePatch`: `none` leaves a field alone. -/
structure SchedulePatch where
  prompt : Option String
  kind : Option ScheduleKind
  catchUp : Option Bool

/-- `ScheduleError`, one for each place that makes one. -/
inductive ScheduleError
  | notFound (id : String)
  | emptyPrompt
  | timing (why : TimingError)
  | past (at_ : ℤ)
  | neverFires
  | store
  deriving DecidableEq, Repr

/-! ### The tables -/

/-- The `schedules` and `schedule_runs` tables, each in the order of insertion. -/
structure Tables where
  schedules : List Schedule
  runs : List ScheduleRun

namespace Tables

/-- `Scheduler::get`. -/
def get (t : Tables) (id : String) : Option Schedule := t.schedules.find? (·.id == id)

/-- `Scheduler::due`. -/
def due (t : Tables) (now : ℕ) : List Schedule :=
  (t.schedules.filter fun s ↦
      !s.paused && s.nextRunAt.any fun n : ℤ ↦ decide (n ≤ now)).insertionSort
    fun a b ↦ a.nextRunAt.getD 0 ≤ b.nextRunAt.getD 0

/-- An `UPDATE schedules ... WHERE id = ?1`. -/
def updateRow (t : Tables) (id : String) (f : Schedule → Schedule) : Tables :=
  { t with schedules := t.schedules.map fun s ↦ if s.id = id then f s else s }

/-- The `INSERT` of `insert_run`, with the fresh id and the times it draws. An id that is taken
violates the primary key. -/
def insertRun (t : Tables) (id scheduleId : String) (scheduledAt : ℤ) (status : RunStatus)
    (startedAt : Option ℕ) (now : ℕ) (error : Option String) : Option Tables :=
  if t.runs.any (·.id == id) then none
  else some { t with runs := t.runs ++
    [⟨id, scheduleId, scheduledAt, status, none, startedAt,
      if status = .running then none else some now, error⟩] }

/-- An `UPDATE schedule_runs ... WHERE id = ?1`. -/
def updateRun (t : Tables) (id : String) (f : ScheduleRun → ScheduleRun) : Tables :=
  { t with runs := t.runs.map fun r ↦ if r.id = id then f r else r }

/-- The transaction of `delete`. -/
def delete (t : Tables) (id : String) : Tables :=
  ⟨t.schedules.filter (·.id ≠ id), t.runs.filter (·.scheduleId ≠ id)⟩

end Tables

/-- What the `UPDATE` of `plan` writes. -/
def Schedule.advance (s : Schedule) (next runAt : Option ℤ) : Schedule :=
  { s with nextRunAt := next, lastRunAt := runAt <|> s.lastRunAt }

/-- What the `UPDATE` of `update` writes. -/
def Schedule.update (s : Schedule) (patch : SchedulePatch) (kind : ScheduleKind) (anchor : ℕ)
    (next : Option ℤ) (now : ℕ) : Schedule :=
  { s with
    prompt := patch.prompt.getD s.prompt
    kind := kind
    catchUp := patch.catchUp.getD s.catchUp
    anchorAt := anchor
    nextRunAt := next
    updatedAt := now }

/-- What the `UPDATE` of `pause` writes. -/
def Schedule.pause (s : Schedule) (now : ℕ) : Schedule :=
  { s with paused := true, nextRunAt := none, updatedAt := now }

/-- What the `UPDATE` of `resume` writes. -/
def Schedule.resume (s : Schedule) (now : ℕ) (next : Option ℤ) : Schedule :=
  { s with paused := false, anchorAt := now, nextRunAt := next, updatedAt := now }

/-- What the `UPDATE` of `finish_run` writes: only a `running` run changes. -/
def ScheduleRun.finish (r : ScheduleRun) (status : RunStatus) (now : ℕ) (error : Option String) :
    ScheduleRun :=
  if r.status = .running then { r with status, finishedAt := some now, error } else r

/-! ### What is decided from what was read -/

/-- What `plan` decides about the triggers a schedule has passed. -/
structure Plan where
  next : Option ℤ
  runAt : Option ℤ
  /-- The last trigger it walked. -/
  latest : ℤ
  /-- How many it counts as missed. -/
  missedCount : ℕ
  /-- The ones it writes rows for, oldest first. -/
  missedTimes : List ℤ
  notice : String

/-- The missed triggers that get a row: of the newest triggers, those that are not run. -/
def missedTimes (recent : List ℤ) (ran : Bool) : List ℤ :=
  let times := if ran then recent.dropLast else recent
  if times.length > MAX_MISSED_ROWS then times.drop (times.length - MAX_MISSED_ROWS) else times

/-- The notice of missed triggers. -/
def notice (c : Chrono) (id : String) (missedCount : ℕ) (first lastMissed latest : ℤ) (ran : Bool) :
    String :=
  let what := if ran then "the latest, " ++ c.rfc3339 latest ++ ", is run now (catch_up)"
    else "none was run (catch_up is off)"
  HEADER_TAG ++ " Schedule " ++ id ++ " missed " ++ toString missedCount ++
    " trigger(s) between " ++ c.rfc3339 first ++ " and " ++ c.rfc3339 lastMissed ++
    " while the server was down or behind; " ++ what ++ "."

/-- What `plan` computes before it writes anything. -/
def plan (c : Chrono) (s : Schedule) (now : ℕ) : Except TimingError Plan :=
  match s.nextRunAt with
  | none => .error .notDue
  | some first =>
    match occurrencesBetween c s.kind s.anchorAt first now (MAX_MISSED_ROWS + 1) with
    | .error e => .error e
    | .ok due =>
      match nextAfter c s.kind s.anchorAt now with
      | .error e => .error e
      | .ok next =>
        let ran := decide (now - due.latest ≤ GRACE_MS) || s.catchUp
        let missedCount := due.count - ran.toNat
        let times := if missedCount = 0 then [] else missedTimes due.recent ran
        .ok
          { next, latest := due.latest, missedCount, missedTimes := times
            runAt := if ran then some due.latest else none
            notice := notice c s.id missedCount due.first (times.getLastD due.first) due.latest ran }

/-- `first_trigger`: a kind that is valid and fires at least once from `now`. -/
def firstTrigger (c : Chrono) (kind : ScheduleKind) (anchor now : ℕ) : Except ScheduleError ℤ :=
  match validate c kind with
  | .error e => .error (.timing e)
  | .ok () =>
    match kind with
    | .once at_ => if at_ < now - GRACE_MS then .error (.past at_) else .ok (max at_ now)
    | kind =>
      match nextAfter c kind anchor now with
      | .error e => .error (.timing e)
      | .ok none => .error .neverFires
      | .ok (some next) => .ok next

/-- The kind, anchor and next trigger that `update` writes, of the schedule it read. The clock is read
once for the anchor and once for the trigger. -/
def updated (c : Chrono) (current : Schedule) (patch : SchedulePatch) (now now' : ℕ) :
    Except ScheduleError (ScheduleKind × ℕ × Option ℤ) :=
  match patch.kind with
  | some kind =>
    match firstTrigger c kind now now' with
    | .error e => .error e
    | .ok next => .ok (kind, now, if current.paused then none else some next)
  | none => .ok (current.kind, current.anchorAt, current.nextRunAt)

/-- The next trigger that `resume` writes, of the schedule it read. -/
def resumed (c : Chrono) (s : Schedule) (now : ℕ) : Except ScheduleError (Option ℤ) :=
  match s.kind with
  | .once at_ =>
    .ok (if s.lastRunAt.isNone ∧ now - GRACE_MS ≤ at_ then some (max at_ now) else none)
  | kind =>
    match nextAfter c kind now now with
    | .error e => .error (.timing e)
    | .ok next => .ok next

/-! ### `Scheduler::tick` and the calls -/

/-- How far the tick is that holds the lock. -/
inductive TickAt
  | idle
  /-- `due`. -/
  | listing (now : ℕ)
  /-- The schedules still to plan, and the runs planned. -/
  | planning (now : ℕ) (todo : List Schedule) (toRun : List (Schedule × ℤ))
  /-- The `missed` rows of a planned schedule that are still to write. -/
  | recording (now : ℕ) (s : Schedule) (p : Plan) (rows : List ℤ) (todo : List Schedule)
      (toRun : List (Schedule × ℤ))
  /-- The runs still to start, and the ids of those whose prompt is being sent. -/
  | running (toRun : List (Schedule × ℤ)) (sending : List String)

/-- How far a call is. -/
inductive CallAt
  | updating (id : String) (patch : SchedulePatch)
  | writing (id : String) (patch : SchedulePatch) (kind : ScheduleKind) (anchor : ℕ)
      (next : Option ℤ) (now : ℕ)
  | pausing (id : String)
  | holding (id : String)
  | resuming (id : String)
  | releasing (id : String) (now : ℕ) (next : Option ℤ)
  | deleting (id : String)
  | removing (id : String)
  /-- `updated`: the schedule is read again for the answer; whether it is `pause` that answers. -/
  | reporting (id : String) (pause : Bool)
  | returned (result : Except ScheduleError (Option Schedule))

/-- A trigger that a row is written for: a run that starts, or a missed one. -/
structure Entry where
  scheduleId : String
  scheduledAt : ℤ
  missed : Bool
  deriving DecidableEq, Repr

/-- A row that was written, and whether the schedule was stopped then. -/
structure Recorded where
  entry : Entry
  stopped : Bool
  deriving DecidableEq, Repr

/-- What a tick decided about a schedule. -/
structure Advance where
  schedule : Schedule
  now : ℕ
  plan : Plan

/-- The scheduler, with the calls that were made so far. -/
structure Scheduler where
  tables : Tables
  tick : TickAt
  calls : ℕ → Option CallAt
  /-- The last trigger of a schedule that a tick has accounted for. -/
  reached : String → Option ℤ
  /-- Whether a pause of a schedule has returned, with no resume since. -/
  stopped : String → Bool
  recorded : List Recorded
  advances : List Advance

/-- What can happen. -/
inductive ScheduleAction
  | tick (now : ℕ)
  /-- The next SQL statement of the tick up to where runs start, with the clock and a fresh id. -/
  | tickStep (now : ℕ) (id : String)
  /-- A planned run starts: the `INSERT` of `execute`. -/
  | start (k now : ℕ) (id : String)
  /-- The prompt of a run was sent to a session, or was not. -/
  | sent (run : String) (outcome : Except (RunStatus × String) String) (now : ℕ)
  /-- A run's turn has ended. -/
  | turnEnded (run : String) (status : RunStatus) (error : Option String) (now : ℕ)
  /-- The next SQL statement of the tick fails. -/
  | tickFails
  | startFails (k : ℕ)
  | update (i : ℕ) (id : String) (patch : SchedulePatch)
  | pause (i : ℕ) (id : String)
  | resume (i : ℕ) (id : String)
  | delete (i : ℕ) (id : String)
  /-- The next SQL statement of a call, with two readings of the clock. -/
  | callStep (i now now' : ℕ)
  | callFails (i : ℕ)

namespace Scheduler

variable (w : Scheduler)

/-- A row is written for a trigger. -/
def record (tables : Tables) (e : Entry) : Scheduler :=
  { w with tables, recorded := w.recorded ++ [⟨e, w.stopped e.scheduleId⟩] }

/-- The next SQL statement of the tick goes through. -/
def tickStep (c : Chrono) (now : ℕ) (id : String) : Scheduler :=
  match w.tick with
  | .listing at_ => { w with tick := .planning at_ (w.tables.due at_) [] }
  | .planning at_ (s :: todo) toRun =>
    match plan c s at_ with
    | .error _ => { w with tick := .planning at_ todo toRun }
    | .ok p =>
      { w with
        tables := w.tables.updateRow s.id (·.advance p.next p.runAt)
        tick := .recording at_ s p p.missedTimes todo toRun
        reached := Function.update w.reached s.id (some p.latest)
        advances := w.advances ++ [⟨s, at_, p⟩] }
  | .planning _ [] toRun => { w with tick := .running toRun [] }
  | .recording at_ s p (t :: rows) todo toRun =>
    match w.tables.insertRun id s.id t .missed none now (some p.notice) with
    | none => { w with tick := .planning at_ todo toRun }
    | some tables =>
      { w.record tables ⟨s.id, t, true⟩ with tick := .recording at_ s p rows todo toRun }
  | .recording at_ s p [] todo toRun =>
    { w with tick := .planning at_ todo (toRun ++ p.runAt.toList.map (s, ·)) }
  | .running [] [] => { w with tick := .idle }
  | _ => w

/-- A planned run starts. -/
def start (k now : ℕ) (id : String) : Scheduler :=
  match w.tick with
  | .running toRun sending =>
    match toRun[k]? with
    | none => w
    | some (s, at_) =>
      match w.tables.insertRun id s.id at_ .running (some now) now none with
      | none => { w with tick := .running (toRun.eraseIdx k) sending }
      | some tables =>
        { w.record tables ⟨s.id, at_, false⟩ with
          tick := .running (toRun.eraseIdx k) (sending ++ [id]) }
  | _ => w

/-- A run's prompt was sent, or was not. -/
def sent (run : String) (outcome : Except (RunStatus × String) String) (now : ℕ) : Scheduler :=
  match w.tick with
  | .running toRun sending =>
    if run ∈ sending then
      let tables := match outcome with
        | .ok session => w.tables.updateRun run fun r ↦ { r with sessionId := some session }
        | .error (status, why) => w.tables.updateRun run (·.finish status now (some why))
      { w with tables, tick := .running toRun (sending.erase run) }
    else w
  | _ => w

/-- The next SQL statement of the tick fails. That of `due` ends the tick, the others the schedule
they are about. -/
def tickFails : Scheduler :=
  match w.tick with
  | .listing _ => { w with tick := .idle }
  | .planning at_ (_ :: todo) toRun => { w with tick := .planning at_ todo toRun }
  | .recording at_ _ _ (_ :: _) todo toRun => { w with tick := .planning at_ todo toRun }
  | _ => w

/-- The `INSERT` of a planned run fails. -/
def startFails (k : ℕ) : Scheduler :=
  match w.tick with
  | .running toRun sending => { w with tick := .running (toRun.eraseIdx k) sending }
  | _ => w

/-- A call goes on. -/
def setCall (i : ℕ) (call : CallAt) : Scheduler :=
  { w with calls := Function.update w.calls i (some call) }

/-- The next SQL statement of a call goes through. -/
def callStep (c : Chrono) (i now now' : ℕ) : Scheduler :=
  match w.calls i with
  | some (.updating id patch) =>
    match w.tables.get id with
    | none => w.setCall i (.returned (.error (.notFound id)))
    | some current =>
      if patch.prompt.any (trim · = "") then w.setCall i (.returned (.error .emptyPrompt))
      else
        match updated c current patch now now' with
        | .error e => w.setCall i (.returned (.error e))
        | .ok (kind, anchor, next) => w.setCall i (.writing id patch kind anchor next now)
  | some (.writing id patch kind anchor next at_) =>
    { w with tables := w.tables.updateRow id (·.update patch kind anchor next at_) }.setCall i
      (.reporting id false)
  | some (.pausing id) =>
    match w.tables.get id with
    | none => w.setCall i (.returned (.error (.notFound id)))
    | some _ => w.setCall i (.holding id)
  | some (.holding id) =>
    { w with tables := w.tables.updateRow id (·.pause now) }.setCall i (.reporting id true)
  | some (.resuming id) =>
    match w.tables.get id with
    | none => w.setCall i (.returned (.error (.notFound id)))
    | some s =>
      match resumed c s now with
      | .error e => w.setCall i (.returned (.error e))
      | .ok next => w.setCall i (.releasing id now next)
  | some (.releasing id at_ next) =>
    { w with
      tables := w.tables.updateRow id (·.resume at_ next)
      stopped := Function.update w.stopped id false }.setCall i (.reporting id false)
  | some (.deleting id) =>
    match w.tables.get id with
    | none => w.setCall i (.returned (.error (.notFound id)))
    | some _ => w.setCall i (.removing id)
  | some (.removing id) =>
    { w with tables := w.tables.delete id }.setCall i (.returned (.ok none))
  | some (.reporting id pause) =>
    match w.tables.get id with
    | none => w.setCall i (.returned (.error (.notFound id)))
    | some s =>
      -- a pause has returned once the schedule it answers with is a paused one
      { w with stopped := if pause && s.paused then Function.update w.stopped id true
          else w.stopped }.setCall i (.returned (.ok (some s)))
  | some (.returned _) => w
  | none => w

/-- The next SQL statement of a call fails. -/
def callFails (i : ℕ) : Scheduler :=
  match w.calls i with
  | none => w
  | some (.returned _) => w
  | some _ => w.setCall i (.returned (.error .store))

/-- A call is made. A number stands for one call: one that is taken is not called again. -/
def call (i : ℕ) (call : CallAt) : Scheduler :=
  if (w.calls i).isSome then w else w.setCall i call

/-- One step. -/
def step (c : Chrono) : ScheduleAction → Scheduler
  | .tick now =>
    match w.tick with
    | .idle => { w with tick := .listing now }
    | _ => w
  | .tickStep now id => w.tickStep c now id
  | .start k now id => w.start k now id
  | .sent run outcome now => w.sent run outcome now
  | .turnEnded run status error now =>
    { w with tables := w.tables.updateRun run (·.finish status now error) }
  | .tickFails => w.tickFails
  | .startFails k => w.startFails k
  | .update i id patch => w.call i (.updating id patch)
  | .pause i id => w.call i (.pausing id)
  | .resume i id => w.call i (.resuming id)
  | .delete i id => w.call i (.deleting id)
  | .callStep i now now' => w.callStep c i now now'
  | .callFails i => w.callFails i

end Scheduler

/-- The row that `create` inserts. -/
def created (c : Chrono) (id prompt : String) (kind : ScheduleKind) (paused catchUp : Bool)
    (now now' : ℕ) : Except ScheduleError Schedule :=
  match firstTrigger c kind now now' with
  | .error e => .error e
  | .ok next =>
    .ok ⟨id, prompt, kind, paused, catchUp, now, if paused then none else some next, none, now⟩

/-- Schedules as `create` left them, with different ids. -/
def Created (c : Chrono) (schedules : List Schedule) : Prop :=
  (schedules.map Schedule.id).Nodup ∧ ∀ s ∈ schedules, ∃ prompt paused catchUp now now',
    created c s.id prompt s.kind paused catchUp now now' = .ok s

/-- A scheduler with some schedules, nothing run and nothing called yet. -/
def Scheduler.ofCreated (schedules : List Schedule) : Scheduler :=
  ⟨⟨schedules, []⟩, .idle, fun _ ↦ none, fun _ ↦ none, fun _ ↦ false, [], []⟩

/-- Ticks and calls in any order, from any schedules. -/
def Scheduler.system (c : Chrono) : StepSystem Scheduler ScheduleAction where
  init w := ∃ schedules, Created c schedules ∧ w = .ofCreated schedules
  step w a w' := w' = w.step c a

end Ember.Server.Schedules
