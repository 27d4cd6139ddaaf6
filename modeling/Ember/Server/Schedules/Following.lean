import Ember.Foundation.Runs
import Ember.Server.Schedules.Scheduler
import Ember.Server.Store

/-!
# Following a run's turn

`Scheduler::execute`, `send` and `follow_turn` of `server/src/schedules/mod.rs`: a run reads the
last sequence number of its session, sends its prompt, and takes the first turn end it then sees
above that number for the end of its own turn. It sees events as the pushes reach it, or in the
store when it has lagged behind.

A `Label` is one step of a run, of whoever stores an event, or of whoever pushes one: an event is
stored and pushed in two steps (`Sessions::record`), and a prompt is stored some time after it was
handed over. Anybody may store anything in between. Calls of the database succeed here.

`Ok` is what holds in every run: what was pushed is stored, what is stored was pushed or will be,
and no turn end that a follower looks for is among the pushes it has received.
-/

namespace Ember.Server

/-- The outcome of a turn, if the event ends one. -/
def turnOutcome : AgentEvent → Option TurnOutcome
  | .turnEnded outcome => some outcome
  | _ => none

/-- The outcome of the first turn that ended in a session after a number. -/
def Store.endAfter (s : Store) (id : String) (b : ℕ) : Option TurnOutcome :=
  (s.eventsAfter id b).findSome? fun ev ↦ turnOutcome ev.event

variable {id : String} {b : ℕ} {ev' : StoredEvent}

namespace Store

variable {s s' : Store} {ev : StoredEvent}

/-- The store `s'` is `s` with one more event. -/
structure Adds (s s' : Store) (ev : StoredEvent) : Prop where
  consistent : s'.Consistent
  seq : ev.seq = (s.stored ev.sessionId).length + 1
  stored : ∀ id, s'.stored id = if ev.sessionId = id then s.stored id ++ [ev] else s.stored id

theorem Consistent.adds (h : s.Consistent) {now : ℕ} {e : AgentEvent} {status : SessionStatus}
    (happend : s.append id now e = some (s', ev, status)) :
    s.Adds s' ev ∧ ev.sessionId = id ∧ ev.event = e := by
  simp only [Store.append] at happend
  split at happend
  · cases happend
  case h_2 row hget =>
    obtain ⟨rfl, rfl, rfl⟩ : _ ∧ _ ∧ _ := by simpa using happend
    refine ⟨⟨h.append hget now e, ?_, fun id' ↦ stored_append _ s _ id'⟩, rfl, rfl⟩
    simpa [log] using (h.rows id row hget).lastSeq

/-- Only `append` stores events. -/
theorem stored_step (op : StoreOp) (hop : ∀ id now e, op ≠ .append id now e) (id : String) :
    (s.step op).stored id = s.stored id := by
  cases op with
  | createSession =>
    simp only [step, createSession]
    split <;> rfl
  | append id now e => exact absurd rfl (hop id now e)
  | updateSessionMeta id patch =>
    rcases s.updateSessionMeta_cases id patch with ⟨row, -, -, hstep⟩ | ⟨-, hstep⟩ <;> rw [hstep]
    rfl

/-- Nothing is taken out of the store. -/
theorem mem_stored_of_mem (hev : ev ∈ s.stored id) (op : StoreOp) :
    ev ∈ (s.step op).stored id := by
  cases op with
  | append id' now e =>
    simp only [step, Store.append]
    split
    · exact hev
    case h_2 row hget =>
      simp only [Option.map_some, Option.getD_some, stored_append]
      split
      · exact List.mem_append_left _ hev
      · exact hev
  | createSession id' now project agent cwd model title account =>
    rwa [stored_step (.createSession id' now project agent cwd model title account) (by simp)]
  | updateSessionMeta id' patch => rwa [stored_step (.updateSessionMeta id' patch) (by simp)]

theorem Consistent.endAfter_eq (h : s.Consistent) (id : String) (b : ℕ) :
    s.endAfter id b = ((s.stored id).drop b).findSome? fun ev ↦ turnOutcome ev.event := by
  rw [endAfter, h.eventsAfter_eq]

/-- One more event is the first turn end after a number only if there was none. -/
theorem Adds.endAfter (hadds : s.Adds s' ev) (h : s.Consistent)
    (hb : b ≤ (s.stored id).length) : s'.endAfter id b =
      if ev.sessionId = id then (s.endAfter id b).or (turnOutcome ev.event)
      else s.endAfter id b := by
  rw [hadds.consistent.endAfter_eq, h.endAfter_eq, hadds.stored]
  split
  · rw [List.drop_append_of_le_length hb, List.findSome?_append, List.findSome?_singleton]
  · rfl

theorem Adds.length_le (hadds : s.Adds s' ev) (id : String) :
    (s.stored id).length ≤ (s'.stored id).length := by
  rw [hadds.stored]
  split <;> simp

theorem Adds.mem_stored_iff (hadds : s.Adds s' ev) :
    ev' ∈ s'.stored id ↔ ev' ∈ s.stored id ∨ ev' = ev ∧ ev.sessionId = id := by
  rw [hadds.stored]
  split
  case isTrue hid => simp [hid]
  case isFalse hid => simp [hid]

/-- Events of a session with the same number are the same. -/
theorem Consistent.eq_of_seq (h : s.Consistent) (hev : ev ∈ s.stored id) (hev' : ev' ∈ s.stored id)
    (hseq : ev.seq = ev'.seq) : ev = ev' := by
  obtain ⟨k, hk⟩ := List.mem_iff_getElem?.1 hev
  obtain ⟨k', hk'⟩ := List.mem_iff_getElem?.1 hev'
  rw [h.numbered id k ev hk, h.numbered id k' ev' hk'] at hseq
  obtain rfl : k = k' := by omega
  exact Option.some.inj (hk.symm.trans hk')

theorem sessionId_of_mem_stored (hev : ev ∈ s.stored id) : ev.sessionId = id := by
  simpa [stored] using (List.mem_filter.1 hev).2

/-- The first turn end after a number, if there is one. -/
theorem Consistent.exists_endAfter (h : s.Consistent) (hev : ev ∈ s.stored id) (hb : b < ev.seq)
    (hend : (turnOutcome ev.event).isSome = true) :
    ∃ first ∈ s.stored id, b < first.seq ∧ first.seq ≤ ev.seq ∧
      (turnOutcome first.event).isSome = true ∧
        s.endAfter id b = turnOutcome first.event := by
  obtain ⟨k, hk⟩ := List.mem_iff_getElem?.1 hev
  have hseq := h.numbered id k ev hk
  have hdrop : ((s.stored id).drop b)[k - b]? = some ev := by
    rw [List.getElem?_drop, show b + (k - b) = k by omega, hk]
  obtain ⟨o, ho⟩ := Option.isSome_iff_exists.1
    ((List.findSome?_isSome_iff (f := fun ev : StoredEvent ↦ turnOutcome ev.event)).2
      ⟨ev, List.mem_of_getElem? hdrop, hend⟩)
  obtain ⟨pre, first, post, hsplit, hfirst, hpre⟩ := List.findSome?_eq_some_iff.1 ho
  have hat : ((s.stored id).drop b)[pre.length]? = some first := by rw [hsplit]; simp
  rw [List.getElem?_drop] at hat
  have hfirstseq := h.numbered id _ first hat
  refine ⟨first, List.mem_of_getElem? hat, by omega, ?_, by rw [hfirst]; rfl,
    by rw [h.endAfter_eq, ho, hfirst]⟩
  by_contra hlt
  have hbefore : k - b < pre.length := by omega
  rw [hsplit, List.getElem?_append_left hbefore] at hdrop
  rw [hpre ev (List.mem_of_getElem? hdrop)] at hend
  cases hend

end Store

variable {i : ℕ}

namespace Schedules

/-- The capacity of the push channel. -/
def PUSH_CAPACITY : ℕ := 1024

/-- `ScheduleTarget`. -/
inductive ScheduleTarget
  | continue_ (sessionId : String)
  | new (title : Option String)

/-- What `send` reads of a schedule. -/
structure Prompting where
  id : String
  project : String
  agent : AgentKind
  cwd : Option String
  prompt : String
  target : ScheduleTarget

/-- `Scheduler::render`. -/
def Prompting.render (s : Prompting) (runId : String) : String :=
  HEADER_TAG ++ " Scheduled task " ++ s.id ++ " (run " ++ runId ++ "). This message was sent by a "
    ++ "schedule, not typed by the user just now.\n\n" ++ s.prompt

/-- The title of a new session. -/
def Prompting.title (s : Prompting) (title : Option String) : String :=
  (title.filter fun t ↦ trim t ≠ "").getD
    ("Scheduled: " ++ String.ofList (s.prompt.toList.take 40) ++
      if s.prompt.toList.length > 40 then "…" else "")

/-- `RunStatus::as_str`. -/
def RunStatus.asStr : RunStatus → String
  | .running => "running"
  | .completed => "completed"
  | .failed => "failed"
  | .interrupted => "interrupted"
  | .skipped => "skipped"
  | .missed => "missed"

/-- `outcome_status`. -/
def RunStatus.ofOutcome : TurnOutcome → RunStatus
  | .completed => .completed
  | .interrupted => .interrupted
  | .failed => .failed

/-- `Push`: a stored event, or something else. -/
inductive Push
  | event (ev : StoredEvent)
  | other

/-- How far a run is. -/
inductive RunAt
  /-- Its row is written, and it has subscribed. -/
  | starting
  /-- The last sequence number is read, and the prompt is on its way to the session. -/
  | sending
  /-- The prompt is with whoever stores it; the agent is being told. -/
  | posted
  /-- `follow_turn` waits for a push. -/
  | receiving
  /-- Pushes were missed. -/
  | lagged
  /-- A turn end was seen. -/
  | ending (outcome : TurnOutcome)
  | over
  deriving DecidableEq

/-- The prompt was handed over, and the run is not over. -/
def RunAt.isUnderWay : RunAt → Bool
  | .starting | .sending | .over => false
  | _ => true

/-- A schedule run. -/
structure Run where
  schedule : Prompting
  id : String
  session : String
  at_ : RunAt
  /-- The last sequence number before the send. -/
  before : Option ℕ
  status : RunStatus
  error : Option String
  /-- The next push it receives. -/
  next : ℕ
  /-- The prompt is still to be stored. -/
  queued : Bool
  /-- The number under which the prompt was stored. -/
  stored : Option ℕ
  /-- The send has succeeded. -/
  sent : Bool
  /-- How often `finish_run` changed its row. -/
  finished : ℕ

namespace Run

/-- `Scheduler::finish_run`, and nothing follows. -/
def finish (r : Run) (status : RunStatus) (error : Option String) : Run :=
  if r.status = .running then { r with at_ := .over, status, error, finished := r.finished + 1 }
  else { r with at_ := .over }

/-- The end of a turn is recorded. -/
def conclude (r : Run) (outcome : TurnOutcome) : Run :=
  let status := RunStatus.ofOutcome outcome
  r.finish status
    (if status ≠ .completed then some ("the turn ended " ++ status.asStr) else none)

/-- The run has read the last number, and its prompt is not stored. -/
def Gap (r : Run) : Prop := r.status = .running ∧ r.before.isSome = true ∧ r.stored = none

instance (r : Run) : Decidable r.Gap := inferInstanceAs (Decidable (_ ∧ _ ∧ _))

end Run

/-- The store, the pushes and the runs. -/
structure Runner where
  store : Store
  /-- Stored events whose push is still to come. -/
  unpushed : List StoredEvent
  pushes : List Push
  runs : List Run

/-- One step. -/
inductive FollowLabel
  /-- `execute` writes the row of a run and subscribes. -/
  | execute (schedule : Prompting) (runId : String)
  /-- `send` reads the session, or makes one with this id. -/
  | open_ (i now : ℕ) (id : String) (account : Option (String × String))
  /-- The prompt is handed over to be stored. -/
  | post (i : ℕ)
  /-- The prompt is stored. -/
  | storePrompt (i now : ℕ)
  /-- The send has succeeded, and `follow_turn` begins. -/
  | sent (i : ℕ)
  | fail (i : ℕ) (why : String)
  /-- The next step of `follow_turn`. -/
  | follow (i : ℕ)
  /-- Somebody stores another event. -/
  | record (sessionId : String) (now : ℕ) (event : AgentEvent)
  /-- Somebody makes or changes a session. -/
  | administer (op : StoreOp)
  /-- The push of a stored event. -/
  | push (k : ℕ)
  /-- Another push. -/
  | other

/-- A step of the follower of run `i`. -/
def FollowLabel.isFollow (i : ℕ) : FollowLabel → Bool
  | .follow k => k == i
  | _ => false

namespace Runner

/-- Nothing has happened. -/
def empty : Runner := ⟨.empty, [], [], []⟩

variable (w : Runner)

/-- The run `i` is changed. -/
def setRun (i : ℕ) (r : Run) : Runner := { w with runs := w.runs.set i r }

/-- An event is stored; its push is to come. -/
def record (sessionId : String) (now : ℕ) (event : AgentEvent) : Runner :=
  match w.store.append sessionId now event with
  | some (store, ev, _) => { w with store, unpushed := w.unpushed ++ [ev] }
  | none => w

/-- `execute`, up to the send. -/
def execute (schedule : Prompting) (runId : String) : Runner :=
  { w with
    runs := w.runs ++
      [⟨schedule, runId, "", .starting, none, .running, none, w.pushes.length, false, none, false,
        0⟩] }

/-- `send`, up to the call of `Sessions::send`. -/
def open_ (i : ℕ) (r : Run) (now : ℕ) (id : String) (account : Option (String × String)) :
    Runner :=
  let s := r.schedule
  match s.target with
  | .continue_ sessionId =>
    match w.store.session sessionId with
    | none =>
      w.setRun i (r.finish .failed (some ("session " ++ sessionId ++ " no longer exists")))
    | some rec_ =>
      if isBusy rec_.status then
        w.setRun i (r.finish .skipped (some ("session " ++ sessionId ++ " was mid-turn")))
      else
        w.setRun i { r with session := sessionId, at_ := .sending, before := some rec_.lastSeq }
  | .new title =>
    match w.store.createSession id now s.project s.agent (s.cwd.getD "") none (s.title title)
      account with
    | none => w.setRun i (r.finish .failed (some "creating the session failed"))
    | some (store, rec_) =>
      { w with store }.setRun i { r with session := rec_.id, at_ := .sending, before := some 0 }

/-- The prompt of a run is stored. -/
def storePrompt (i : ℕ) (r : Run) (now : ℕ) : Runner :=
  match w.store.append r.session now (.userMessage (r.schedule.render r.id)) with
  | some (store, ev, _) =>
    { w with store, unpushed := w.unpushed ++ [ev] }.setRun i
      { r with queued := false, stored := some ev.seq }
  | none => w.setRun i { r with queued := false }

/-- `rx.recv()`, and what `follow_turn` makes of it. -/
def receive (i : ℕ) (r : Run) (b : ℕ) : Runner :=
  if PUSH_CAPACITY < w.pushes.length - r.next then
    w.setRun i { r with at_ := .lagged, next := w.pushes.length - PUSH_CAPACITY }
  else
    match w.pushes[r.next]? with
    | none => w
    | some .other => w.setRun i { r with next := r.next + 1 }
    | some (.event ev) =>
      if ev.sessionId = r.session ∧ b < ev.seq then
        match turnOutcome ev.event with
        | some outcome => w.setRun i { r with next := r.next + 1, at_ := .ending outcome }
        | none => w.setRun i { r with next := r.next + 1 }
      else w.setRun i { r with next := r.next + 1 }

/-- The next step of `follow_turn`. -/
def follow (i : ℕ) (r : Run) (b : ℕ) : Runner :=
  match r.at_ with
  | .receiving => w.receive i r b
  | .lagged =>
    match w.store.endAfter r.session b with
    | some outcome => w.setRun i { r with at_ := .ending outcome }
    | none => w.setRun i { r with at_ := .receiving }
  | .ending outcome => w.setRun i (r.conclude outcome)
  | _ => w

/-- One step. -/
def step (w : Runner) : FollowLabel → Runner
  | .execute schedule runId => w.execute schedule runId
  | .open_ i now id account =>
    match w.runs[i]? with
    | some r => if r.at_ = .starting then w.open_ i r now id account else w
    | none => w
  | .post i =>
    match w.runs[i]? with
    | some r => if r.at_ = .sending then w.setRun i { r with at_ := .posted, queued := true } else w
    | none => w
  | .storePrompt i now =>
    match w.runs[i]? with
    | some r => if r.queued then w.storePrompt i r now else w
    | none => w
  | .sent i =>
    match w.runs[i]? with
    | some r => if r.at_ = .posted then w.setRun i { r with at_ := .receiving, sent := true } else w
    | none => w
  | .fail i why =>
    match w.runs[i]? with
    | some r =>
      if r.at_ = .sending ∨ r.at_ = .posted then w.setRun i (r.finish .failed (some why)) else w
    | none => w
  | .follow i =>
    match w.runs[i]? with
    | some r =>
      match r.before with
      | some b => w.follow i r b
      | none => w
    | none => w
  | .record sessionId now event => w.record sessionId now event
  | .administer op =>
    match op with
    | .append .. => w
    | op => { w with store := w.store.step op }
  | .push k =>
    match w.unpushed[k]? with
    | some ev => { w with unpushed := w.unpushed.eraseIdx k, pushes := w.pushes ++ [.event ev] }
    | none => w
  | .other => { w with pushes := w.pushes ++ [.other] }

/-- The state after these steps. -/
def run (w : Runner) (ls : List FollowLabel) : Runner := ls.foldl step w

/-- A turn end is stored only while no run has its prompt still to be stored, and no turn end its
push still to come. -/
def Timely (w : Runner) : FollowLabel → Prop
  | .record id _ event => (turnOutcome event).isSome = true →
      (∀ r ∈ w.runs, r.session = id → ¬ r.Gap) ∧
        ∀ ev ∈ w.unpushed, ev.sessionId = id → turnOutcome ev.event = none
  | _ => True

instance (w : Runner) : ∀ l, Decidable (w.Timely l)
  | .record .. => inferInstanceAs (Decidable (_ → _ ∧ _))
  | .execute .. | .open_ .. | .post _ | .storePrompt .. | .sent _ | .fail .. | .follow _
  | .administer _ | .push _ | .other => isTrue trivial

/-- What the runs promise of run `i`. -/
structure Followed (w : Runner) (i : ℕ) (r : Run) : Prop where
  /-- It ends with the outcome of the first turn that ended after its prompt. -/
  outcome : r.status ≠ .running → ∃ p o, r.stored = some p ∧
    w.store.endAfter r.session p = some o ∧ r.status = .ofOutcome o
  /-- It is finished at most once. -/
  once : r.finished ≤ 1
  /-- It is finished once such a turn end is stored and pushed, whatever happens meanwhile, as soon
  as its follower has made some number of steps. -/
  ends : ∀ p ev, r.stored = some p → ev ∈ w.store.stored r.session → p < ev.seq →
    (turnOutcome ev.event).isSome = true → ∀ ls, ev ∉ (w.run ls).unpushed →
      ∃ n, ∀ ls', n ≤ ls'.countP (FollowLabel.isFollow i) →
        ∃ r', (w.run (ls ++ ls')).runs[i]? = some r' ∧ r'.status ≠ .running

/-! ### What holds in every run -/

/-- What holds of a run, whatever is stored and pushed. -/
structure RunOk (store : Store) (pushes : List Push) (r : Run) : Prop where
  next_le : r.next ≤ pushes.length
  begun : r.at_ ≠ .starting → r.at_ ≠ .over → r.before.isSome = true
  start : r.at_ = .starting → r.before = none
  fresh : r.before = none → r.stored = none ∧ r.queued = false
  unposted : r.at_ = .sending → r.stored = none ∧ r.queued = false
  once : r.queued = true → r.stored = none
  before_le : ∀ b, r.before = some b → b ≤ (store.stored r.session).length
  stored_le : ∀ p, r.stored = some p → p ≤ (store.stored r.session).length ∧
    ∀ b, r.before = some b → b ≤ p
  /-- No turn end it looks for is among the pushes it has received. -/
  passed : r.at_ = .sending ∨ r.at_ = .posted ∨ r.at_ = .receiving → ∀ b, r.before = some b →
    ∀ (j : ℕ) ev, j < r.next → pushes[j]? = some (.event ev) → ev.sessionId = r.session →
      b < ev.seq → turnOutcome ev.event = none
  running : r.status = .running ↔ r.at_ ≠ .over
  counted : r.finished = if r.status = .running then 0 else 1
  sent : r.sent = true → r.at_ = .receiving ∨ r.at_ = .lagged ∨ (∃ o, r.at_ = .ending o) ∨
    r.at_ = .over

/-- What holds in every state. -/
structure Ok (w : Runner) : Prop where
  consistent : w.store.Consistent
  /-- What was pushed, or will be, is stored. -/
  known : ∀ ev, ev ∈ w.unpushed ∨ .event ev ∈ w.pushes → ev ∈ w.store.stored ev.sessionId
  /-- What is stored was pushed, or will be. -/
  told : ∀ id, ∀ ev ∈ w.store.stored id, ev ∈ w.unpushed ∨ .event ev ∈ w.pushes
  runs : ∀ r ∈ w.runs, RunOk w.store w.pushes r

section Keep

variable {w : Runner} {store : Store} {pushes : List Push} {r r' : Run} {ev : StoredEvent}

theorem RunOk.grow {s : Store} (h : RunOk s pushes r)
    (hlen : ∀ id, (s.stored id).length ≤ (store.stored id).length) : RunOk store pushes r :=
  { h with
    before_le := fun b hb ↦ (h.before_le b hb).trans (hlen _)
    stored_le := fun p hp ↦ ⟨(h.stored_le p hp).1.trans (hlen _), (h.stored_le p hp).2⟩ }

theorem RunOk.push (h : RunOk store pushes r) (x : Push) : RunOk store (pushes ++ [x]) r :=
  { h with
    next_le := by
      rw [List.length_append]
      exact h.next_le.trans (Nat.le_add_right _ _)
    passed := fun hat b hb j ev hj hev ↦ h.passed hat b hb j ev hj
      (by rwa [List.getElem?_append_left (hj.trans_le h.next_le)] at hev) }

theorem Ok.setRun (h : Ok w) (hr : RunOk w.store w.pushes r) (i : ℕ) : Ok (w.setRun i r) :=
  { h with
    runs := fun r' hr' ↦ (List.mem_or_eq_of_mem_set hr').elim (h.runs r') fun heq ↦ heq ▸ hr }

theorem Ok.adds (h : Ok w) (hadds : w.store.Adds store ev) :
    Ok { w with store, unpushed := w.unpushed ++ [ev] } where
  consistent := hadds.consistent
  known ev' hev' := by
    rw [hadds.mem_stored_iff]
    rcases hev' with hmem | hmem
    · rcases List.mem_append.1 hmem with hold | hnew
      · exact .inl (h.known ev' (.inl hold))
      · obtain rfl := List.mem_singleton.1 hnew
        exact .inr ⟨rfl, rfl⟩
    · exact .inl (h.known ev' (.inr hmem))
  told id ev' hev' := by
    rcases hadds.mem_stored_iff.1 hev' with hold | ⟨rfl, -⟩
    · exact (h.told id ev' hold).imp_left (List.mem_append_left _)
    · exact .inl (List.mem_append_right _ List.mem_cons_self)
  runs r hr := (h.runs r hr).grow hadds.length_le

/-- A store with the same events. -/
theorem Ok.of_stored (h : Ok w) (hcons : store.Consistent)
    (hstored : ∀ id, store.stored id = w.store.stored id) : Ok { w with store } where
  consistent := hcons
  known ev hev := by
    rw [hstored]
    exact h.known ev hev
  told id ev hev := h.told id ev (hstored id ▸ hev)
  runs r hr := (h.runs r hr).grow fun id ↦ by rw [hstored]

theorem Ok.push (h : Ok w) {k : ℕ} (hev : w.unpushed[k]? = some ev) :
    Ok { w with unpushed := w.unpushed.eraseIdx k, pushes := w.pushes ++ [.event ev] } where
  consistent := h.consistent
  known ev' hev' := by
    refine h.known ev' ?_
    rcases hev' with hmem | hmem
    · exact .inl (List.mem_of_mem_eraseIdx hmem)
    · rcases List.mem_append.1 hmem with hold | hnew
      · exact .inr hold
      · obtain rfl : ev' = ev := by simpa using hnew
        exact .inl (List.mem_of_getElem? hev)
  told id ev' hev' := by
    rcases h.told id ev' hev' with hmem | hmem
    · by_cases hsame : ev' = ev
      · exact .inr (by simp [hsame])
      · obtain ⟨k', hk'⟩ := List.mem_iff_getElem?.1 hmem
        have hne : k' ≠ k := by
          rintro rfl
          exact hsame (Option.some.inj (hk'.symm.trans hev))
        exact .inl (List.mem_eraseIdx_iff_getElem?.2 ⟨k', hne, hk'⟩)
    · exact .inr (List.mem_append_left _ hmem)
  runs r hr := (h.runs r hr).push _

theorem Ok.other (h : Ok w) : Ok { w with pushes := w.pushes ++ [.other] } :=
  { h with
    known := fun ev hev ↦ h.known ev (hev.imp_right fun hmem ↦ by simpa using hmem)
    told := fun id ev hev ↦ (h.told id ev hev).imp_right (List.mem_append_left _)
    runs := fun r hr ↦ (h.runs r hr).push _ }

theorem RunOk.finish (h : RunOk store pushes r) {status : RunStatus} (hstatus : status ≠ .running)
    (error : Option String) : RunOk store pushes (r.finish status error) := by
  have hcounted := h.counted
  unfold Run.finish
  split
  case isTrue hrunning =>
    rw [if_pos hrunning] at hcounted
    exact ⟨h.next_le, fun _ hover ↦ absurd rfl hover, nofun, h.fresh, nofun, h.once,
      h.before_le, h.stored_le, fun hat ↦ by simp at hat,
      ⟨fun heq ↦ absurd heq hstatus, fun hover ↦ absurd rfl hover⟩, by simp [hcounted, hstatus], fun _ ↦ .inr (.inr (.inr rfl))⟩
  case isFalse hdone =>
    exact ⟨h.next_le, fun _ hover ↦ absurd rfl hover, nofun, h.fresh, nofun, h.once,
      h.before_le, h.stored_le, fun hat ↦ by simp at hat,
      ⟨fun heq ↦ absurd heq hdone, fun hover ↦ absurd rfl hover⟩, hcounted, fun _ ↦ .inr (.inr (.inr rfl))⟩

/-- The same run, further on. -/
structure Same (r r' : Run) : Prop where
  session : r'.session = r.session
  before : r'.before = r.before
  status : r'.status = r.status
  stored : r'.stored = r.stored
  finished : r'.finished = r.finished

/-- A run under way goes on. -/
theorem RunOk.goOn (h : RunOk store pushes r) (hsame : Same r r') (hstart : r.at_ ≠ .starting)
    (hover : r.at_ ≠ .over) (hway : r'.at_.isUnderWay = true)
    (hqueued : r'.queued = true → r.stored = none) (hnext : r'.next ≤ pushes.length)
    (hpassed : r'.at_ = .sending ∨ r'.at_ = .posted ∨ r'.at_ = .receiving →
      ∀ b, r.before = some b → ∀ (j : ℕ) ev, j < r'.next → pushes[j]? = some (.event ev) →
        ev.sessionId = r.session → b < ev.seq → turnOutcome ev.event = none)
    (hsent : r'.sent = true → r'.at_ = .receiving ∨ r'.at_ = .lagged ∨
      (∃ o, r'.at_ = .ending o) ∨ r'.at_ = .over) : RunOk store pushes r' where
  next_le := hnext
  begun _ _ := hsame.before ▸ h.begun hstart hover
  start hat := by simp [hat, RunAt.isUnderWay] at hway
  fresh hnone := by
    have hsome := h.begun hstart hover
    rw [← hsame.before, hnone] at hsome
    cases hsome
  unposted hat := by simp [hat, RunAt.isUnderWay] at hway
  once hq := hsame.stored.trans (hqueued hq)
  before_le b hb := hsame.session ▸ h.before_le b (hsame.before ▸ hb)
  stored_le p hp := by
    rw [hsame.session, hsame.before]
    exact h.stored_le p (hsame.stored ▸ hp)
  passed := by
    rw [hsame.session, hsame.before]
    exact hpassed
  running := by
    rw [hsame.status]
    exact ⟨fun _ hat ↦ by simp [hat, RunAt.isUnderWay] at hway, fun _ ↦ h.running.2 hover⟩
  counted := by rw [hsame.finished, hsame.status, h.counted]
  sent := hsent

theorem Ok.mem (h : Ok w) (hr : w.runs[i]? = some r) : RunOk w.store w.pushes r :=
  h.runs r (List.mem_of_getElem? hr)

theorem ofOutcome_ne_running (o : TurnOutcome) : RunStatus.ofOutcome o ≠ .running := by
  cases o <;> nofun

/-- Nothing is known of a session above its last number. -/
theorem Ok.seq_le (h : Ok w) {j : ℕ} (hev : w.pushes[j]? = some (.event ev)) :
    ev.seq ≤ (w.store.stored ev.sessionId).length :=
  h.consistent.seq_le_length (h.known ev (.inr (List.mem_of_getElem? hev)))

/-- A run begins in a session, above what it has received so far. -/
theorem RunOk.begin_ (h : RunOk store pushes r) (hat : r.at_ = .starting)
    (hb : b ≤ (store.stored id).length)
    (hpassed : ∀ (j : ℕ) ev, pushes[j]? = some (.event ev) → ev.sessionId = id → ev.seq ≤ b) :
    RunOk store pushes { r with session := id, at_ := .sending, before := some b } where
  next_le := h.next_le
  begun _ _ := rfl
  start := nofun
  fresh := nofun
  unposted _ := h.fresh (h.start hat)
  once := h.once
  before_le _ heq := Option.some.inj heq ▸ hb
  stored_le p hp := by
    rw [show r.stored = none from (h.fresh (h.start hat)).1] at hp
    cases hp
  passed _ b' heq j ev _ hev hid hlt := by
    obtain rfl := Option.some.inj heq
    exact absurd (hpassed j ev hev hid) (by omega)
  running := ⟨fun _ ↦ nofun, fun _ ↦ h.running.2 (by rw [hat]; nofun)⟩
  counted := h.counted
  sent hsent := by
    have hwhere := h.sent hsent
    simp [hat] at hwhere

/-- **What `open_` does**: it ends the run, or begins it in a session of which it knows the last
number. -/
theorem open_cases (hcons : w.store.Consistent) (i : ℕ) (r : Run) (now : ℕ) (id : String)
    (account : Option (String × String)) :
    (∃ status error, status ≠ .running ∧
      w.open_ i r now id account = w.setRun i (r.finish status error)) ∨
    ∃ store session b, store.Consistent ∧ (∀ id, store.stored id = w.store.stored id) ∧
      (store.stored session).length = b ∧ w.open_ i r now id account =
        { w with store }.setRun i { r with session, at_ := .sending, before := some b } := by
  simp only [Runner.open_]
  split
  case h_1 sessionId _ =>
    split
    · exact .inl ⟨.failed, _, by decide, rfl⟩
    case h_2 row hrow =>
      split
      · exact .inl ⟨.skipped, _, by decide, rfl⟩
      · refine .inr ⟨w.store, sessionId, row.lastSeq, hcons, fun _ ↦ rfl, ?_, rfl⟩
        rw [(hcons.rows _ _ hrow).lastSeq, Store.log, List.length_map]
  case h_2 title _ =>
    split
    · exact .inl ⟨.failed, _, by decide, rfl⟩
    case h_2 store' row hcreate =>
      have hstep := hcons.step (.createSession id now r.schedule.project r.schedule.agent
        (r.schedule.cwd.getD "") none (r.schedule.title title) account)
      have hstored := w.store.stored_step (.createSession id now r.schedule.project
        r.schedule.agent (r.schedule.cwd.getD "") none (r.schedule.title title) account) (by simp)
      simp only [Store.step, hcreate, Option.map_some, Option.getD_some] at hstep hstored
      refine .inr ⟨store', row.id, 0, hstep, hstored, ?_, rfl⟩
      simp only [Store.createSession] at hcreate
      split at hcreate
      · cases hcreate
      case isFalse hnew =>
        obtain ⟨-, rfl⟩ : _ ∧ _ = row := by simpa using hcreate
        rw [hstored, ← List.length_map StoredEvent.event]
        exact congrArg List.length (hcons.fresh id (Std.ExtTreeMap.getElem?_eq_none hnew))

theorem Ok.open_ (h : Ok w) (hr : w.runs[i]? = some r) (hat : r.at_ = .starting) (now : ℕ)
    (id : String) (account : Option (String × String)) : Ok (w.open_ i r now id account) := by
  rcases open_cases h.consistent i r now id account with
    ⟨status, error, hstatus, heq⟩ | ⟨store, session, b, hcons, hstored, hb, heq⟩ <;> rw [heq]
  · exact h.setRun ((h.mem hr).finish hstatus error) i
  · have h' := h.of_stored hcons hstored
    refine h'.setRun ((h'.mem hr).begin_ hat hb.ge fun j ev hev hid ↦ ?_) i
    rw [← hb, ← hid, hstored]
    exact h.seq_le hev

theorem Ok.storePrompt (h : Ok w) (hr : w.runs[i]? = some r) (hqueued : r.queued = true)
    (now : ℕ) : Ok (w.storePrompt i r now) := by
  have hok := h.mem hr
  have hbefore : r.before ≠ none := fun hnone ↦ by simp [(hok.fresh hnone).2] at hqueued
  have hposted : ∀ {P : Prop}, r.at_ = .sending → P := fun hat ↦ by
    simp [(hok.unposted hat).2] at hqueued
  unfold Runner.storePrompt
  split
  case h_1 store' ev _ happend =>
    obtain ⟨hadds, hid, -⟩ := h.consistent.adds happend
    have h' := h.adds hadds
    have hok' := h'.mem hr
    have hlen : (store'.stored r.session).length = (w.store.stored r.session).length + 1 := by
      rw [hadds.stored, if_pos hid, List.length_append]
      rfl
    refine h'.setRun ?_ i
    refine { hok' with
      fresh := fun hnone ↦ absurd hnone hbefore, unposted := hposted, once := nofun
      stored_le := fun p hp ↦ ?_ }
    obtain rfl : ev.seq = p := Option.some.inj hp
    rw [hadds.seq, hid]
    exact ⟨hlen.ge, fun b hb ↦ (hok.before_le b hb).trans (Nat.le_succ _)⟩
  · refine h.setRun ?_ i
    exact { hok with
      fresh := fun hnone ↦ absurd hnone hbefore, unposted := hposted, once := nofun }

theorem Ok.receive (h : Ok w) (hr : w.runs[i]? = some r) (hb : r.before = some b)
    (hat : r.at_ = .receiving) : Ok (w.receive i r b) := by
  have hok := h.mem hr
  have hstart : r.at_ ≠ .starting := by rw [hat]; nofun
  have hover : r.at_ ≠ .over := by rw [hat]; nofun
  -- The next push is not a turn end that the run looks for.
  have hnext : ∀ x, w.pushes[r.next]? = some x →
      (∀ ev, x = .event ev → ev.sessionId = r.session → b < ev.seq → turnOutcome ev.event = none) →
        RunOk w.store w.pushes { r with next := r.next + 1 } := by
    intro x hx hpass
    refine hok.goOn ⟨rfl, rfl, rfl, rfl, rfl⟩ hstart hover (by rw [hat]; rfl) hok.once
      (List.getElem?_eq_some_iff.1 hx).1 (fun _ b' hb' j ev hj hev hid hlt ↦ ?_) hok.sent
    obtain rfl := Option.some.inj (hb.symm.trans hb')
    rcases Nat.lt_succ_iff_lt_or_eq.1 hj with hlt' | rfl
    · exact hok.passed (.inr (.inr hat)) b hb j ev hlt' hev hid hlt
    · exact hpass ev (Option.some.inj (hx.symm.trans hev)) hid hlt
  unfold Runner.receive
  split
  · refine h.setRun ?_ i
    exact hok.goOn ⟨rfl, rfl, rfl, rfl, rfl⟩ hstart hover rfl hok.once (Nat.sub_le _ _)
      (fun hat' ↦ by simp at hat') fun _ ↦ .inr (.inl rfl)
  · split
    · exact h
    case h_2 hx => exact h.setRun (hnext _ hx nofun) i
    case h_3 ev hx =>
      split
      · split
        case h_1 o ho =>
          refine h.setRun ?_ i
          exact hok.goOn ⟨rfl, rfl, rfl, rfl, rfl⟩ hstart hover rfl hok.once
            (List.getElem?_eq_some_iff.1 hx).1 (fun hat' ↦ by simp at hat')
            fun _ ↦ .inr (.inr (.inl ⟨o, rfl⟩))
        case h_2 hnone =>
          refine h.setRun (hnext _ hx fun ev' heq _ _ ↦ ?_) i
          obtain rfl := Push.event.inj heq
          exact hnone
      case isFalse hother =>
        refine h.setRun (hnext _ hx fun ev' heq hid hlt ↦ ?_) i
        obtain rfl := Push.event.inj heq
        exact absurd ⟨hid, hlt⟩ hother

theorem Ok.follow (h : Ok w) (hr : w.runs[i]? = some r) (hb : r.before = some b) :
    Ok (w.follow i r b) := by
  have hok := h.mem hr
  unfold Runner.follow
  split
  case h_1 hat => exact h.receive hr hb hat
  case h_2 hat =>
    have hstart : r.at_ ≠ .starting := by rw [hat]; nofun
    have hover : r.at_ ≠ .over := by rw [hat]; nofun
    split
    case h_1 o _ =>
      refine h.setRun ?_ i
      exact hok.goOn ⟨rfl, rfl, rfl, rfl, rfl⟩ hstart hover rfl hok.once hok.next_le
        (fun hat' ↦ by simp at hat') fun _ ↦ .inr (.inr (.inl ⟨o, rfl⟩))
    case h_2 hnone =>
      -- No turn end is stored, so none was pushed.
      refine h.setRun ?_ i
      refine hok.goOn ⟨rfl, rfl, rfl, rfl, rfl⟩ hstart hover rfl hok.once hok.next_le
        (fun _ b' hb' j ev _ hev hid hlt ↦ ?_) fun _ ↦ .inl rfl
      obtain rfl := Option.some.inj (hb.symm.trans hb')
      by_contra hend
      obtain ⟨first, -, -, -, hfirst, heq⟩ := h.consistent.exists_endAfter
        (h.known ev (.inr (List.mem_of_getElem? hev))) hlt (Option.ne_none_iff_isSome.1 hend)
      rw [hid, hnone] at heq
      rw [← heq] at hfirst
      cases hfirst
  case h_3 o hat => exact h.setRun (hok.finish (ofOutcome_ne_running o) _) i
  · exact h

end Keep

theorem ok_step {w : Runner} (h : Ok w) (l : FollowLabel) : Ok (w.step l) := by
  cases l with simp only [step]
  | execute schedule runId =>
    refine { h with runs := fun r hr ↦ (List.mem_append.1 hr).elim (h.runs r) fun hnew ↦ ?_ }
    obtain rfl := List.mem_singleton.1 hnew
    exact ⟨Nat.le_refl _, fun hat ↦ absurd rfl hat, fun _ ↦ rfl, fun _ ↦ ⟨rfl, rfl⟩, nofun,
      nofun, nofun, nofun, fun hat ↦ by simp at hat, ⟨fun _ ↦ nofun, fun _ ↦ rfl⟩, rfl, nofun⟩
  | open_ i now id account =>
    split
    case h_1 r hr =>
      split
      case isTrue hat => exact h.open_ hr hat now id account
      · exact h
    · exact h
  | post i =>
    split
    case h_1 r hr =>
      split
      case isTrue hat =>
        have hok := h.mem hr
        refine h.setRun ?_ i
        refine hok.goOn ⟨rfl, rfl, rfl, rfl, rfl⟩ ?_ ?_ rfl (fun _ ↦ (hok.unposted hat).1)
          hok.next_le (fun _ ↦ hok.passed (.inl hat)) fun hsent ↦ ?_
        · rw [hat]; nofun
        · rw [hat]; nofun
        · have := hok.sent hsent
          simp [hat] at this
      · exact h
    · exact h
  | storePrompt i now =>
    split
    case h_1 r hr =>
      split
      case isTrue hqueued => exact h.storePrompt hr hqueued now
      · exact h
    · exact h
  | sent i =>
    split
    case h_1 r hr =>
      split
      case isTrue hat =>
        have hok := h.mem hr
        refine h.setRun ?_ i
        refine hok.goOn ⟨rfl, rfl, rfl, rfl, rfl⟩ ?_ ?_ rfl hok.once hok.next_le
          (fun _ ↦ hok.passed (.inr (.inl hat))) fun _ ↦ .inl rfl
        · rw [hat]; nofun
        · rw [hat]; nofun
      · exact h
    · exact h
  | fail i why =>
    split
    case h_1 r hr =>
      split
      · exact h.setRun ((h.mem hr).finish (show RunStatus.failed ≠ .running from nofun) _) i
      · exact h
    · exact h
  | follow i =>
    split
    case h_1 r hr =>
      split
      case h_1 b hb => exact h.follow hr hb
      · exact h
    · exact h
  | record id now e =>
    show Ok (w.record id now e)
    unfold record
    split
    case h_1 store ev _ happend => exact h.adds (h.consistent.adds happend).1
    · exact h
  | administer op =>
    split
    · exact h
    case h_2 hop =>
      exact h.of_stored (h.consistent.step op)
        (Store.stored_step op fun id now e heq ↦ hop id now e heq)
  | push k =>
    split
    case h_1 ev hev => exact h.push hev
    · exact h
  | other => exact h.other

theorem ok_empty : Ok empty where
  consistent := Store.consistent_empty
  known ev hev := by simp [empty] at hev
  told id ev hev := by simp [empty, Store.empty, Store.stored] at hev
  runs r hr := by simp [empty] at hr

end Runner

end Schedules

end Ember.Server
