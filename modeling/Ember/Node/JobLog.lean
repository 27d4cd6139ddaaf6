import Ember.Node.Exec

/-!
# Background jobs and the log of node events

`Jobs` of `node/src/jobs.rs` and `events_session` of `node/src/api.rs`. A job's task takes the events
of its command, records them, and reports the exit in a log whose events are numbered from 1 when the
daemon starts. A client subscribes after a number: it is sent what is left of the log after it, and
then every event that is emitted, until it is too slow or the connection is dropped; it connects
again after the last number it has received.

A broadcast receiver is a position in all the events that were emitted.

## What is proved

* `served_and_reported` — a client that connects in time, and not to a later boot than the one it has
  received events of, receives every event exactly once and in order; a job whose wait does not fail
  is reported exactly once, and can be as soon as its command has exited.
* `not_served_and_not_reported` — a client after a restart, and a wait that fails.
-/

namespace Ember.Node.JobLog

open Exec

/-- Events kept for replay. -/
def eventHistory : ℕ := 1024

/-- `NodeEventKind`. -/
inductive NodeEventKind
  | jobStarted (id : ℕ)
  | jobFinished (id : ℕ) (job : Job)
  /-- An event of a terminal. -/
  | term (id : ℕ)
  deriving DecidableEq

/-- The event is the end of this job. -/
def NodeEventKind.isEndOf (j : ℕ) : NodeEventKind → Bool
  | .jobFinished id _ => id = j
  | _ => false

/-- `NodeEvent`. -/
structure NodeEvent where
  seq : ℕ
  bootId : ℕ
  kind : NodeEventKind
  deriving DecidableEq

/-- How far the task of a job is. -/
inductive TaskAt
  /-- The start is still to be reported. -/
  | starting
  | following
  /-- The end is still to be reported. -/
  | finishing
  | done
  deriving DecidableEq

/-- The end of the job is still to come. -/
def TaskAt.Going (a : TaskAt) : Prop := a = .starting ∨ a = .following

/-- A job and its task. -/
structure JobTask where
  running : Running
  job : Job
  at_ : TaskAt
  /-- Somebody has removed the job. -/
  removed : Bool

/-- `events_session`, and what it has sent that has not arrived. -/
structure Session where
  backlog : List NodeEvent
  /-- How many events the receiver has taken. -/
  pos : ℕ
  last : ℕ
  wire : List NodeEvent
  /-- The receiver was too slow. -/
  lagged : Bool
  deriving DecidableEq

/-- A client. -/
structure Client where
  received : List NodeEvent
  session : Option Session
  /-- How many events of this boot were no longer kept when it first asked; only statements speak of
  it. -/
  missed : ℕ
  deriving DecidableEq

/-- `Jobs`, and its clients. -/
structure Jobs where
  bootId : ℕ
  jobs : List JobTask
  nextSeq : ℕ
  history : List NodeEvent
  /-- What was broadcast. -/
  emitted : List NodeEvent
  clients : List Client

/-- One step. -/
inductive Label
  | start
  /-- The command of a job, its readers and its waiter. -/
  | act (j : ℕ) (a : Act)
  /-- The next step of a job's task. -/
  | follow (j : ℕ)
  | remove (j : ℕ)
  /-- A terminal has an event. -/
  | term (id : ℕ)
  | client
  | connect (i : ℕ)
  /-- The session sends the next event, or finds that it is too slow. -/
  | send (i : ℕ)
  | deliver (i : ℕ)
  | disconnect (i : ℕ)
  /-- The daemon restarts. -/
  | restart

/-- The step is a client's or its session's. -/
def Label.isClient : Label → Bool
  | .client | .connect _ | .send _ | .deliver _ | .disconnect _ => true
  | _ => false

/-- What a client asks for: what comes after the last event it has received. -/
def Client.after (c : Client) : ℕ := (c.received.getLast?.map NodeEvent.seq).getD 0

/-- What a client has received of a boot. -/
def Client.of (c : Client) (bootId : ℕ) : List NodeEvent :=
  c.received.filter fun e ↦ e.bootId = bootId

namespace Jobs

/-- A daemon that has just started. -/
def new : Jobs := ⟨0, [], 1, [], [], []⟩

variable (w : Jobs)

/-- `Jobs::emit`. -/
def emit (kind : NodeEventKind) : Jobs :=
  let ev : NodeEvent := ⟨w.nextSeq, w.bootId, kind⟩
  let history := w.history ++ [ev]
  { w with
    nextSeq := w.nextSeq + 1
    history := if eventHistory < history.length then history.tail else history
    emitted := w.emitted ++ [ev] }

/-- `Jobs::subscribe`, by a client that asks for what comes after `after`. -/
def subscribe (after : ℕ) : Session :=
  ⟨w.history.filter fun e ↦ after < e.seq, w.emitted.length, after, [], false⟩

def setJob (j : ℕ) (t : JobTask) : Jobs := { w with jobs := w.jobs.set j t }

def setClient (i : ℕ) (c : Client) : Jobs := { w with clients := w.clients.set i c }

/-- The next step of `events_session`. -/
def sendNext (s : Session) : Session :=
  match s.backlog with
  | e :: backlog => { s with backlog, last := e.seq, wire := s.wire ++ [e] }
  | [] =>
    if s.lagged then s
    else if eventHistory < w.emitted.length - s.pos then { s with lagged := true }
    else
      match w.emitted[s.pos]? with
      | some e =>
        if e.seq ≤ s.last then { s with pos := s.pos + 1 }
        else { s with pos := s.pos + 1, last := e.seq, wire := s.wire ++ [e] }
      | none => s

/-- The next step of a job's task. -/
def followNext (j : ℕ) (t : JobTask) : Jobs :=
  match t.at_ with
  | .starting => (w.emit (.jobStarted j)).setJob j { t with at_ := .following }
  | .following =>
    match t.running.queue with
    | e :: _ =>
      let running := t.running.step .recv
      if t.removed then w.setJob j { t with running }
      else
        w.setJob j { t with
          running
          job := t.job.record e
          at_ := match e with | .exit _ _ => .finishing | _ => .following }
    | [] =>
      if t.running.waiter = .done ∧ t.running.Drained then w.setJob j { t with at_ := .done } else w
  | .finishing => (w.emit (.jobFinished j t.job)).setJob j { t with at_ := .done }
  | .done => w

/-- One step. -/
def step (w : Jobs) : Label → Jobs
  | .start => { w with jobs := w.jobs ++ [⟨.spawnPipes, .new, .starting, false⟩] }
  | .act j a =>
    match w.jobs[j]? with
    | some t => if a = .recv then w else w.setJob j { t with running := t.running.step a }
    | none => w
  | .follow j =>
    match w.jobs[j]? with
    | some t => w.followNext j t
    | none => w
  | .remove j =>
    match w.jobs[j]? with
    | some t => if t.job.state = .running then w else w.setJob j { t with removed := true }
    | none => w
  | .term id => w.emit (.term id)
  | .client => { w with clients := w.clients ++ [⟨[], none, 0⟩] }
  | .connect i =>
    match w.clients[i]? with
    | some c =>
      if c.session.isSome then w
      else
        w.setClient i { c with
          session := some (w.subscribe c.after)
          missed := if c.of w.bootId = [] then w.emitted.length - eventHistory else c.missed }
    | none => w
  | .send i =>
    match w.clients[i]? with
    | some c => w.setClient i { c with session := c.session.map w.sendNext }
    | none => w
  | .deliver i =>
    match w.clients[i]? with
    | some c =>
      match c.session with
      | some s =>
        match s.wire with
        | e :: wire =>
          w.setClient i { c with
            received := c.received ++ [e]
            session := some { s with wire } }
        | [] => w
      | none => w
    | none => w
  | .disconnect i =>
    match w.clients[i]? with
    | some c => w.setClient i { c with session := none }
    | none => w
  | .restart =>
    ⟨w.bootId + 1, [], 1, [], [], w.clients.map fun c ↦ { c with session := none, missed := 0 }⟩

/-- The state after these steps. -/
def run (w : Jobs) (ls : List Label) : Jobs := ls.foldl step w

/-! ### The log -/

/-- The log is numbered, and keeps the last events. -/
structure LogOk (w : Jobs) : Prop where
  events : ∀ k e, w.emitted[k]? = some e → e.seq = k + 1 ∧ e.bootId = w.bootId
  next : w.nextSeq = w.emitted.length + 1
  history : w.history = w.emitted.drop (w.emitted.length - eventHistory)

variable {w} {w' : Jobs} {i j k : ℕ} {c : Client} {s : Session} {t t' : JobTask} {e : NodeEvent}

theorem logOk_new : new.LogOk := ⟨fun k e h ↦ by simp [new] at h, rfl, rfl⟩

/-- The event that is emitted. -/
theorem emitted_emit (h : w.LogOk) (kind : NodeEventKind) :
    (w.emit kind).emitted = w.emitted ++ [⟨w.emitted.length + 1, w.bootId, kind⟩] := by
  rw [← h.next]
  rfl

theorem LogOk.emit (h : w.LogOk) (kind : NodeEventKind) : (w.emit kind).LogOk where
  events k e hk := by
    rw [emitted_emit h] at hk
    rcases Nat.lt_or_ge k w.emitted.length with hlt | hge
    · rw [List.getElem?_append_left hlt] at hk
      exact h.events k e hk
    · rw [List.getElem?_append_right hge] at hk
      obtain ⟨hlt, rfl⟩ := List.getElem?_eq_some_iff.1 hk
      rw [List.length_singleton] at hlt
      have hzero : k - w.emitted.length = 0 := by omega
      simp only [hzero, List.getElem_cons_zero]
      exact ⟨by omega, rfl⟩
  next := by
    rw [emitted_emit h, List.length_append, List.length_singleton]
    exact congrArg (· + 1) h.next
  history := by
    have hlength : w.history.length = w.emitted.length - (w.emitted.length - eventHistory) := by
      rw [h.history, List.length_drop]
    have hnew : (w.emit kind).history =
        if eventHistory < (w.history ++ [(⟨w.nextSeq, w.bootId, kind⟩ : NodeEvent)]).length then
          (w.history ++ [(⟨w.nextSeq, w.bootId, kind⟩ : NodeEvent)]).tail
        else w.history ++ [⟨w.nextSeq, w.bootId, kind⟩] := rfl
    have hdrop : w.history ++ [⟨w.nextSeq, w.bootId, kind⟩] =
        (w.emitted ++ [(⟨w.nextSeq, w.bootId, kind⟩ : NodeEvent)]).drop
          (w.emitted.length - eventHistory) := by
      rw [h.history, List.drop_append_of_le_length (Nat.sub_le _ _)]
    rw [hnew, emitted_emit h, ← h.next, List.length_append, List.length_append, hlength,
      List.length_singleton, hdrop]
    split
    case isTrue hlt =>
      have hfrom : w.emitted.length - eventHistory + 1 =
          w.emitted.length + 1 - eventHistory := by omega
      rw [List.tail_drop, hfrom]
    case isFalse hge =>
      have hfrom : w.emitted.length - eventHistory = w.emitted.length + 1 - eventHistory := by omega
      rw [hfrom]

/-- **What is kept after a number** is what was emitted after it, less what is no longer kept. -/
theorem backlog_eq (h : w.LogOk) (after : ℕ) : (w.history.filter fun e ↦ after < e.seq) =
    w.emitted.drop (max after (w.emitted.length - eventHistory)) := by
  have hseq : ∀ k e, w.emitted[k]? = some e → e.seq = k + 1 := fun k e hk ↦ (h.events k e hk).1
  have hafter : ∀ l, after ≤ l → (w.emitted.drop l).filter (fun e ↦ decide (after < e.seq)) =
      w.emitted.drop l := by
    intro l hl
    refine List.filter_eq_self.2 fun e he ↦ ?_
    obtain ⟨m, hm⟩ := List.mem_iff_getElem?.1 he
    rw [List.getElem?_drop] at hm
    simp only [hseq _ _ hm, decide_eq_true_eq]
    omega
  rw [h.history]
  generalize w.emitted.length - eventHistory = k
  rcases Nat.le_total after k with hle | hle
  · rw [hafter k hle, Nat.max_eq_right hle]
  · -- The events between are those with the numbers up to `after`.
    have hsplit : w.emitted.drop k =
        (w.emitted.drop k).take (after - k) ++ w.emitted.drop after := by
      conv_lhs => rw [← List.take_append_drop (after - k) (w.emitted.drop k)]
      rw [List.drop_drop, show k + (after - k) = after by omega]
    have hbefore : ((w.emitted.drop k).take (after - k)).filter
        (fun e ↦ decide (after < e.seq)) = [] := by
      refine List.filter_eq_nil_iff.2 fun e he ↦ ?_
      obtain ⟨l, hl⟩ := List.mem_iff_getElem?.1 he
      rw [List.getElem?_take] at hl
      split at hl
      case isTrue hlt =>
        rw [List.getElem?_drop] at hl
        simp only [hseq _ _ hl, decide_eq_true_eq]
        omega
      · cases hl
    rw [hsplit, List.filter_append, hbefore, hafter after le_rfl, List.nil_append,
      Nat.max_eq_left hle]

/-! ### A client -/

/-- What holds of a session. -/
structure SessionOk (w : Jobs) (c : Client) (s : Session) : Prop where
  /-- What was received, what is on its way, and what is still to be sent, is what there was. -/
  flow : c.of w.bootId ++ s.wire ++ s.backlog ++ w.emitted.drop s.pos = w.emitted.drop c.missed
  pos : s.pos ≤ w.emitted.length
  last : s.last ≤ s.pos
  backlog : ∀ e ∈ s.backlog, e.seq ≤ s.pos

/-- What holds of a client. -/
structure ClientOk (w : Jobs) (c : Client) : Prop where
  boots : ∀ e ∈ c.received, e.bootId ≤ w.bootId
  missed : c.missed ≤ w.emitted.length
  order : c.of w.bootId <+: w.emitted.drop c.missed
  session : ∀ s ∈ c.session, SessionOk w c s

/-- What is on its way was emitted. -/
theorem SessionOk.bootId (h : SessionOk w c s) (hlog : w.LogOk) (he : e ∈ s.wire) :
    e.bootId = w.bootId := by
  have hmem : e ∈ w.emitted.drop c.missed := by
    rw [← h.flow]
    simp [he]
  obtain ⟨k, hk⟩ := List.mem_iff_getElem?.1 (List.mem_of_mem_drop hmem)
  exact (hlog.events k e hk).2

/-- More is emitted. -/
theorem ClientOk.emit (h : ClientOk w c) (hlog : w.LogOk) (kind : NodeEventKind) :
    ClientOk (w.emit kind) c := by
  have hemitted := emitted_emit hlog kind
  have hlength : w.emitted.length ≤ (w.emit kind).emitted.length := by
    rw [hemitted, List.length_append]
    omega
  refine ⟨h.boots, h.missed.trans hlength, ?_, fun s hs ↦ ?_⟩
  · rw [hemitted, List.drop_append_of_le_length h.missed]
    exact h.order.trans (List.prefix_append _ _)
  · have hok := h.session s hs
    refine ⟨?_, hok.pos.trans hlength, hok.last, hok.backlog⟩
    rw [hemitted, List.drop_append_of_le_length h.missed, List.drop_append_of_le_length hok.pos,
      ← List.append_assoc]
    exact congrArg (· ++ _) hok.flow

/-- **The session goes on.** -/
theorem SessionOk.sendNext (h : SessionOk w c s) (hlog : w.LogOk) :
    SessionOk w c (w.sendNext s) := by
  unfold Jobs.sendNext
  split
  case h_1 e backlog hbacklog =>
    refine ⟨?_, h.pos, h.backlog e (hbacklog ▸ List.mem_cons_self), fun e' he' ↦
      h.backlog e' (hbacklog ▸ List.mem_cons_of_mem e he')⟩
    rw [← h.flow, hbacklog]
    simp
  case h_2 hbacklog =>
    split
    · exact h
    · split
      · exact ⟨h.flow, h.pos, h.last, h.backlog⟩
      · split
        case h_1 e he =>
          have hseq := (hlog.events s.pos e he).1
          obtain ⟨hlt, heq⟩ := List.getElem?_eq_some_iff.1 he
          -- The receiver has not taken it, so it was not sent.
          rw [if_neg (by have := h.last; omega)]
          refine ⟨?_, hlt, by rw [hseq], fun e' he' ↦ ?_⟩
          · rw [← h.flow, hbacklog, List.drop_eq_getElem_cons hlt, heq]
            simp
          · rw [hbacklog] at he'
            cases he'
        · exact h

/-- **A client connects** in time, and to the boot that it has last heard of. -/
theorem ClientOk.connect (h : ClientOk w c) (hlog : w.LogOk)
    (htimely : c.of w.bootId ≠ [] → w.emitted.length - c.after ≤ eventHistory)
    (hboot : ∀ e ∈ c.received.getLast?, e.bootId = w.bootId) :
    ClientOk w { c with
      session := some (w.subscribe c.after)
      missed := if c.of w.bootId = [] then w.emitted.length - eventHistory else c.missed } := by
  have hall : ∀ e ∈ w.emitted, e.seq ≤ w.emitted.length := by
    intro e he
    obtain ⟨k, hk⟩ := List.mem_iff_getElem?.1 he
    rw [(hlog.events k e hk).1]
    exact (List.getElem?_eq_some_iff.1 hk).1
  have hbacklog : ∀ e ∈ (w.subscribe c.after).backlog, e.seq ≤ (w.subscribe c.after).pos :=
    fun e he ↦ hall e (by
      have hmem : e ∈ w.history.filter fun e ↦ c.after < e.seq := he
      rw [backlog_eq hlog] at hmem
      exact List.mem_of_mem_drop hmem)
  have hnothing : w.emitted.drop w.emitted.length = [] := List.drop_length
  rcases List.eq_nil_or_concat c.received with hnone | ⟨before, e, hreceived⟩
  · have hof : c.of w.bootId = [] := by rw [Client.of, hnone]; rfl
    have hafter : c.after = 0 := by rw [Client.after, hnone]; rfl
    rw [if_pos hof]
    refine ⟨h.boots, Nat.sub_le _ _, ?_, fun s hs ↦ ?_⟩
    · show c.of w.bootId <+: _
      rw [hof]
      exact List.nil_prefix
    · obtain rfl := Option.some.inj hs
      refine ⟨?_, le_rfl, hafter ▸ Nat.zero_le _, hbacklog⟩
      show c.of w.bootId ++ [] ++ (w.history.filter fun e ↦ c.after < e.seq) ++
        w.emitted.drop w.emitted.length = _
      rw [hof, backlog_eq hlog, hafter, hnothing]
      simp
  · rw [List.concat_eq_append] at hreceived
    have hlast : c.received.getLast? = some e := by rw [hreceived, List.getLast?_concat]
    have hboot := hboot e hlast
    have hof : c.of w.bootId = before.filter (fun e ↦ e.bootId = w.bootId) ++ [e] := by
      rw [Client.of, hreceived, List.filter_append]
      congr 1
      exact List.filter_eq_self.2 fun x hx ↦ by
        rw [List.mem_singleton.1 hx]
        exact decide_eq_true hboot
    have hne : c.of w.bootId ≠ [] := by rw [hof]; simp
    obtain ⟨rest, hrest⟩ := h.order
    -- What it has received last has the number of the events so far.
    have hseq : c.after = c.missed + (c.of w.bootId).length := by
      have hat : w.emitted[c.missed + (before.filter fun e ↦ e.bootId = w.bootId).length]? =
          some e := by
        rw [← List.getElem?_drop, ← hrest, hof]
        simp
      rw [Client.after, hlast, hof, List.length_append, List.length_singleton]
      exact (hlog.events _ e hat).1
    have hle : c.after ≤ w.emitted.length := by
      have hlength := congrArg List.length hrest
      rw [List.length_append, List.length_drop] at hlength
      have := h.missed
      omega
    have hdrop : w.emitted.drop c.after = rest := by
      rw [hseq, ← List.drop_drop, ← hrest, List.drop_left]
    rw [if_neg hne]
    refine ⟨h.boots, h.missed, h.order, fun s hs ↦ ?_⟩
    obtain rfl := Option.some.inj hs
    refine ⟨?_, le_rfl, hle, hbacklog⟩
    show c.of w.bootId ++ [] ++ (w.history.filter fun e ↦ c.after < e.seq) ++
      w.emitted.drop w.emitted.length = _
    have hkept := htimely hne
    rw [backlog_eq hlog, Nat.max_eq_left (by omega), hdrop, hnothing, List.append_nil,
      List.append_nil, hrest]


theorem ClientOk.of_eq (h : ClientOk w c) (hboot : w'.bootId = w.bootId)
    (hemitted : w'.emitted = w.emitted) : ClientOk w' c where
  boots := by rw [hboot]; exact h.boots
  missed := by rw [hemitted]; exact h.missed
  order := by rw [hboot, hemitted]; exact h.order
  session s hs := by
    have hok := h.session s hs
    exact ⟨by rw [hboot, hemitted]; exact hok.flow, by rw [hemitted]; exact hok.pos, hok.last,
      hok.backlog⟩

/-- An event arrives. -/
theorem ClientOk.deliver (h : ClientOk w c) (hlog : w.LogOk) {wire : List NodeEvent}
    (hs : c.session = some s) (hwire : s.wire = e :: wire) :
    ClientOk w { c with received := c.received ++ [e], session := some { s with wire } } := by
  have hok := h.session s hs
  have hboot : e.bootId = w.bootId := hok.bootId hlog (by rw [hwire]; exact List.mem_cons_self)
  have hof : Client.of { c with received := c.received ++ [e], session := some { s with wire } }
      w.bootId = c.of w.bootId ++ [e] := by
    rw [Client.of, Client.of, List.filter_append]
    congr 1
    exact List.filter_eq_self.2 fun x hx ↦ by
      rw [List.mem_singleton.1 hx]
      exact decide_eq_true hboot
  have hflow := hok.flow
  rw [hwire] at hflow
  refine ⟨fun x hx ↦ ?_, h.missed, ?_, fun s' hs' ↦ ?_⟩
  · rcases List.mem_append.1 hx with hx | hx
    · exact h.boots x hx
    · rw [List.mem_singleton.1 hx]
      exact hboot.le
  · rw [hof, ← hflow]
    exact ⟨wire ++ s.backlog ++ w.emitted.drop s.pos, by simp⟩
  · obtain rfl := Option.some.inj hs'
    refine ⟨?_, hok.pos, hok.last, hok.backlog⟩
    rw [hof]
    simpa using hflow

/-- The session is over. -/
theorem ClientOk.disconnect (h : ClientOk w c) : ClientOk w { c with session := none } :=
  ⟨h.boots, h.missed, h.order, fun s hs ↦ by cases hs⟩

/-- The next boot has no events yet. -/
theorem ClientOk.restart (h : ClientOk w c) {w' : Jobs} (hboot : w'.bootId = w.bootId + 1) :
    ClientOk w' { c with session := none, missed := 0 } := by
  have hof : c.of (w.bootId + 1) = [] := List.filter_eq_nil_iff.2 fun e he ↦ by
    have := h.boots e he
    simp only [decide_eq_true_eq]
    omega
  refine ⟨fun e he ↦ by have := h.boots e he; omega, Nat.zero_le _, ?_, fun s hs ↦ by cases hs⟩
  rw [hboot]
  show c.of (w.bootId + 1) <+: _
  rw [hof]
  exact List.nil_prefix

/-! ### One step -/

/-- What a job's task does: it may emit one event, and changes jobs. -/
theorem followNext_cases (w : Jobs) (j : ℕ) (t : JobTask) :
    (∃ jobs, w.followNext j t = { w with jobs }) ∨
      ∃ kind jobs, w.followNext j t = { w.emit kind with jobs } := by
  unfold followNext
  split
  · exact .inr ⟨_, _, rfl⟩
  · split
    · split
      · exact .inl ⟨_, rfl⟩
      · exact .inl ⟨_, rfl⟩
    · split
      · exact .inl ⟨_, rfl⟩
      · exact .inl ⟨_, rfl⟩
  · exact .inr ⟨_, _, rfl⟩
  · exact .inl ⟨_, rfl⟩

/-- The clients and their sessions change only themselves. -/
theorem step_of_isClient (w : Jobs) {l : Label} (hl : l.isClient = true) :
    ∃ clients, w.step l = { w with clients } := by
  cases l with simp only [step]
  | client => exact ⟨_, rfl⟩
  | connect i =>
    split
    · split
      · exact ⟨_, rfl⟩
      · exact ⟨_, rfl⟩
    · exact ⟨_, rfl⟩
  | send | disconnect =>
    split
    · exact ⟨_, rfl⟩
    · exact ⟨_, rfl⟩
  | deliver i =>
    split
    · split
      · split
        · exact ⟨_, rfl⟩
        · exact ⟨_, rfl⟩
      · exact ⟨_, rfl⟩
    · exact ⟨_, rfl⟩
  | _ => cases hl

theorem logOk_step (h : w.LogOk) (l : Label) : (w.step l).LogOk := by
  have hother : ∀ jobs clients, LogOk { w with jobs, clients } := fun _ _ ↦
    ⟨h.events, h.next, h.history⟩
  by_cases hl : l.isClient = true
  · obtain ⟨clients, heq⟩ := step_of_isClient w hl
    rw [heq]
    exact hother _ _
  cases l with
  | start => exact hother _ _
  | act | remove =>
    simp only [step]
    split
    · split
      · exact h
      · exact hother _ _
    · exact h
  | follow j =>
    simp only [step]
    split
    case h_1 t _ =>
      rcases followNext_cases w j t with ⟨jobs, heq⟩ | ⟨kind, jobs, heq⟩ <;> rw [heq]
      · exact hother _ _
      · have hemit := h.emit kind
        exact ⟨hemit.events, hemit.next, hemit.history⟩
    · exact h
  | term id => exact h.emit _
  | restart => exact ⟨fun k e hk ↦ by simp [step] at hk, rfl, List.drop_nil.symm⟩
  | _ => exact absurd rfl hl

/-- One client changes. -/
theorem clientAt_set (h : ∀ c ∈ w.clients[i]?, ClientOk w c)
    (hc : k = i → ClientOk w c) : ∀ c' ∈ (w.setClient k c).clients[i]?,
      ClientOk (w.setClient k c) c' := by
  intro c' hc'
  by_cases hk : k = i
  · subst hk
    rw [setClient, List.getElem?_set_self'] at hc'
    obtain ⟨_, -, rfl⟩ := Option.map_eq_some_iff.1 hc'
    exact (hc rfl).of_eq rfl rfl
  · rw [setClient, List.getElem?_set_ne hk] at hc'
    exact (h c' hc').of_eq rfl rfl

/-- The client asks before more than the kept number of events were emitted. -/
def InTime (i : ℕ) (w : Jobs) : Label → Prop
  | .connect k => k = i → ∀ c ∈ w.clients[i]?, c.of w.bootId ≠ [] →
      w.emitted.length - c.after ≤ eventHistory
  | _ => True

/-- What the client has received last is of the running boot. -/
def SameBoot (i : ℕ) (w : Jobs) : Label → Prop
  | .connect k => k = i → ∀ c ∈ w.clients[i]?, ∀ e ∈ c.received.getLast?, e.bootId = w.bootId
  | _ => True

/-- **One step**, as a client sees it. -/
theorem clientAt_step (hlog : w.LogOk) (h : ∀ c ∈ w.clients[i]?, ClientOk w c) {l : Label}
    (htime : InTime i w l) (hboot : SameBoot i w l) :
    ∀ c ∈ (w.step l).clients[i]?, ClientOk (w.step l) c := by
  have hother : ∀ jobs, ∀ c ∈ w.clients[i]?, ClientOk { w with jobs } c := fun _ c hc ↦
    (h c hc).of_eq rfl rfl
  cases l with
  | start => exact hother _
  | act | remove =>
    simp only [step]
    split
    · split
      · exact h
      · exact hother _
    · exact h
  | follow j =>
    simp only [step]
    split
    case h_1 t _ =>
      rcases followNext_cases w j t with ⟨jobs, heq⟩ | ⟨kind, jobs, heq⟩ <;> rw [heq]
      · exact hother _
      · exact fun c hc ↦ ((h c hc).emit hlog kind).of_eq rfl rfl
    · exact h
  | term id => exact fun c hc ↦ (h c hc).emit hlog _
  | client =>
    intro c hc
    rcases Nat.lt_or_ge i w.clients.length with hlt | hge
    · rw [step, List.getElem?_append_left hlt] at hc
      exact (h c hc).of_eq rfl rfl
    · rw [step, List.getElem?_append_right hge] at hc
      obtain rfl := List.mem_singleton.1 (List.mem_of_getElem? hc)
      exact ⟨fun e he ↦ by simp at he, Nat.zero_le _, List.nil_prefix, fun s hs ↦ by cases hs⟩
  | connect k =>
    simp only [step]
    split
    case h_1 c hc =>
      split
      · exact h
      · refine clientAt_set h fun hk ↦ ?_
        subst hk
        exact (h c hc).connect hlog (htime rfl c hc) (hboot rfl c hc)
    · exact h
  | send k =>
    simp only [step]
    split
    case h_1 c hc =>
      refine clientAt_set h fun hk ↦ ?_
      subst hk
      have hok := h c hc
      refine ⟨hok.boots, hok.missed, hok.order, fun s hs ↦ ?_⟩
      obtain ⟨s₀, hs₀, rfl⟩ := Option.map_eq_some_iff.1 hs
      have hnext := (hok.session s₀ hs₀).sendNext hlog
      exact ⟨hnext.flow, hnext.pos, hnext.last, hnext.backlog⟩
    · exact h
  | deliver k =>
    simp only [step]
    split
    case h_1 c hc =>
      split
      case h_1 s hs =>
        split
        case h_1 e wire hwire =>
          refine clientAt_set h fun hk ↦ ?_
          subst hk
          exact (h c hc).deliver hlog hs hwire
        · exact h
      · exact h
    · exact h
  | disconnect k =>
    simp only [step]
    split
    case h_1 c hc =>
      refine clientAt_set h fun hk ↦ ?_
      subst hk
      exact (h c hc).disconnect
    · exact h
  | restart =>
    intro c hc
    rw [step, List.getElem?_map] at hc
    obtain ⟨c₀, hc₀, rfl⟩ := Option.map_eq_some_iff.1 hc
    exact (h c₀ hc₀).restart rfl

/-! ### A client that keeps up receives everything -/

/-- Its session sends the next event, and one event arrives, `n` times over. -/
def serve (w : Jobs) (i : ℕ) : ℕ → Jobs
  | 0 => w
  | n + 1 => serve ((w.step (.send i)).step (.deliver i)) i n

/-- What is served to a client. -/
structure Served (w : Jobs) (i : ℕ) (c : Client) : Prop where
  /-- Every event once, in order. -/
  order : c.of w.bootId <+: w.emitted.drop c.missed
  /-- Every event of the boot, less those that were no longer kept when it first asked, is received
  over a connection that is not too slow. -/
  all : ∀ s ∈ c.session, s.lagged = false → w.emitted.length - s.pos ≤ eventHistory →
    ∃ n, ∀ c' ∈ (w.serve i n).clients[i]?, c'.of w.bootId = w.emitted.drop c.missed

/-- What is still to be done. -/
def toSend (w : Jobs) (s : Session) : ℕ :=
  2 * (s.backlog.length + (w.emitted.length - s.pos)) + s.wire.length

/-- The session has sent what there was, or sends the next event. -/
theorem sendNext_cases (h : SessionOk w c s) (hlog : w.LogOk) (hlagged : s.lagged = false)
    (hkept : w.emitted.length - s.pos ≤ eventHistory) :
    (s.backlog = [] ∧ w.emitted.length ≤ s.pos ∧ w.sendNext s = s) ∨
      w.toSend (w.sendNext s) < w.toSend s ∧ (w.sendNext s).lagged = false ∧
        w.emitted.length - (w.sendNext s).pos ≤ eventHistory ∧ (w.sendNext s).wire ≠ [] := by
  unfold Jobs.sendNext
  split
  case h_1 e backlog hbacklog =>
    refine .inr ⟨?_, hlagged, hkept, by simp⟩
    simp only [toSend, hbacklog, List.length_append, List.length_cons, List.length_nil]
    omega
  case h_2 hbacklog =>
    rw [if_neg (by rw [hlagged]; exact Bool.false_ne_true), if_neg (by omega)]
    split
    case h_1 e he =>
      have hseq := (hlog.events s.pos e he).1
      have hlt := (List.getElem?_eq_some_iff.1 he).1
      rw [if_neg (by have := h.last; omega)]
      refine .inr ⟨?_, hlagged, by simp only; omega, by simp⟩
      simp only [toSend, List.length_append, List.length_cons, List.length_nil]
      omega
    case h_2 hnone => exact .inl ⟨hbacklog, List.getElem?_eq_none_iff.1 hnone, rfl⟩

/-- **A connection that is not too slow** gets everything across. -/
theorem exists_serve (hlog : w.LogOk) {n : ℕ} (h : ClientOk w c) (hc : w.clients[i]? = some c)
    (hs : c.session = some s) (hlagged : s.lagged = false)
    (hkept : w.emitted.length - s.pos ≤ eventHistory) (hn : w.toSend s ≤ n) :
    ∃ n, ∀ c' ∈ (w.serve i n).clients[i]?, c'.of w.bootId = w.emitted.drop c.missed := by
  induction n using Nat.strong_induction_on generalizing w c s with
  | h n ih =>
  have hi := (List.getElem?_eq_some_iff.1 hc).1
  have hok := h.session s hs
  -- The state after the session has sent, and what arrives then.
  set w₁ := w.step (.send i) with hw₁
  have hstep : w₁ = w.setClient i { c with session := some (w.sendNext s) } := by
    rw [hw₁]
    simp only [step, hc, hs, Option.map_some]
  have hc₁ : w₁.clients[i]? = some { c with session := some (w.sendNext s) } := by
    rw [hstep, setClient, List.getElem?_set_self hi]
  have hlog₁ : w₁.LogOk := logOk_step hlog _
  have hboth : w₁.emitted = w.emitted ∧ w₁.bootId = w.bootId := by rw [hstep]; exact ⟨rfl, rfl⟩
  have h₁ : ClientOk w₁ { c with session := some (w.sendNext s) } :=
    clientAt_step hlog (l := .send i) (fun c' hc' ↦ Option.some.inj (hc.symm.trans hc') ▸ h)
      trivial trivial _ hc₁
  cases hwire : (w.sendNext s).wire with
  | nil =>
    -- Nothing is on its way and nothing is left.
    rcases sendNext_cases hok hlog hlagged hkept with ⟨hnone, hend, hsame⟩ | ⟨-, -, -, hne⟩
    · refine ⟨0, fun c' hc' ↦ ?_⟩
      obtain rfl := Option.some.inj (hc.symm.trans hc')
      rw [hsame] at hwire
      have hflow := hok.flow
      rw [hwire, hnone, List.drop_eq_nil_of_le hend] at hflow
      simpa using hflow
    · exact absurd hwire hne
  | cons e wire =>
    have hstep₂ : w₁.step (.deliver i) = w₁.setClient i
        { c with
          received := c.received ++ [e]
          session := some { w.sendNext s with wire } } := by
      simp only [step, hc₁, hwire]
    have hi₁ := (List.getElem?_eq_some_iff.1 hc₁).1
    have hc₂ : (w₁.step (.deliver i)).clients[i]? = some
        { c with
          received := c.received ++ [e]
          session := some { w.sendNext s with wire } } := by
      rw [hstep₂, setClient, List.getElem?_set_self hi₁]
    have h₂ := clientAt_step hlog₁
      (fun c' hc' ↦ Option.some.inj (hc₁.symm.trans hc') ▸ h₁) (l := .deliver i) trivial trivial _ hc₂
    have hboth₂ : (w₁.step (.deliver i)).emitted = w.emitted ∧
        (w₁.step (.deliver i)).bootId = w.bootId := by
      rw [hstep₂]
      exact hboth
    have hless : w.toSend { w.sendNext s with wire } < w.toSend s ∧
        (w.sendNext s).lagged = false ∧
        w.emitted.length - (w.sendNext s).pos ≤ eventHistory := by
      have hone : w.toSend { w.sendNext s with wire } + 1 = w.toSend (w.sendNext s) := by
        simp only [toSend, hwire, List.length_cons]
        omega
      rcases sendNext_cases hok hlog hlagged hkept with ⟨-, -, hsame⟩ | ⟨hlt, hlagged', hkept', -⟩
      · rw [hsame] at hone ⊢
        exact ⟨by omega, hlagged, hkept⟩
      · exact ⟨by omega, hlagged', hkept'⟩
    have hsame : ∀ s', (w₁.step (.deliver i)).toSend s' = w.toSend s' := fun s' ↦ by
      simp only [toSend, hboth₂.1]
    obtain ⟨m, hm⟩ := ih (w.toSend { w.sendNext s with wire }) (by omega) (logOk_step hlog₁ _) h₂
      hc₂ rfl hless.2.1 (by rw [hboth₂.1]; exact hless.2.2) (hsame _).le
    rw [hboth₂.1, hboth₂.2] at hm
    exact ⟨m + 1, hm⟩

theorem ClientOk.served (h : ClientOk w c) (hlog : w.LogOk) (hc : w.clients[i]? = some c) :
    Served w i c :=
  ⟨h.order, fun _ hs hlagged hkept ↦ exists_serve hlog h hc hs hlagged hkept le_rfl⟩

end Jobs

/-! ### The end of a command -/

/-- The event is an exit. -/
def isExit : ExecEvent → Bool
  | .exit _ _ => true
  | _ => false

/-- The command is waited for, or its exit is among the events. -/
structure EndsWell (s : Running) : Prop where
  result : ∀ r, s.waiter = .draining r ∨ s.waiter = .sending r → isExit r.event = true
  sent : s.waiter = .done → ∃ e ∈ s.queue, isExit e = true

namespace EndsWell

variable {s s' : Running} {e : ExecEvent} {queue : List ExecEvent}

theorem of_subset (h : EndsWell s) (hwaiter : s'.waiter = s.waiter) (hqueue : s.queue ⊆ s'.queue) :
    EndsWell s' where
  result r hr := h.result r (by rwa [hwaiter] at hr)
  sent hdone := by
    obtain ⟨e, he, hexit⟩ := h.sent (hwaiter ▸ hdone)
    exact ⟨e, hqueue he, hexit⟩

/-- **The command goes on**, and waiting for it does not fail. -/
theorem step (h : EndsWell s) {a : Act} (hrecv : a ≠ .recv)
    (hwaited : ∀ message, a ≠ .waited (.error message)) : EndsWell (s.step a) := by
  have hsame : ∀ {s' : Running}, s'.waiter = s.waiter → s'.queue = s.queue → EndsWell s' :=
    fun hwaiter hqueue ↦ h.of_subset hwaiter fun e he ↦ hqueue ▸ he
  cases a with simp only [Running.step]
  | write | read | endOfFile | readFails =>
    split
    · exact hsame rfl rfl
    · exact h
  | close | exit => exact hsame rfl rfl
  | send i =>
    split
    · split
      · exact h.of_subset rfl (List.subset_append_left _ _)
      · exact h
    · exact h
  | waited result =>
    cases result with
    | error message => exact absurd rfl (hwaited message)
    | exit code signal =>
      cases hw : s.waiter with simp only [Running.step, hw]
      | waiting =>
        split
        · refine ⟨fun r hr ↦ ?_, fun hdone ↦ by cases hdone⟩
          rcases hr with hr | hr <;> cases hr
          rfl
        · exact h
      | _ =>
        exact h
  | drained =>
    split
    case h_1 r hw =>
      split
      · refine ⟨fun r' hr ↦ ?_, fun hdone ↦ by cases hdone⟩
        rcases hr with hr | hr <;> cases hr
        exact h.result r (.inl hw)
      · exact h
    · exact h
  | timeout =>
    split
    case h_1 r hw =>
      refine ⟨fun r' hr ↦ ?_, fun hdone ↦ by cases hdone⟩
      rcases hr with hr | hr <;> cases hr
      exact h.result r (.inl hw)
    · exact h
  | finish =>
    split
    case h_1 r hw =>
      split
      · refine ⟨fun r' hr ↦ ?_, fun _ ↦ ⟨r.event, ?_, h.result r (.inr hw)⟩⟩
        · rcases hr with hr | hr <;> cases hr
        · exact List.mem_append_right _ List.mem_cons_self
      · exact h
    · exact h
  | recv => exact absurd rfl hrecv

/-- An event that is no exit is taken. -/
theorem recv (h : EndsWell s) (hqueue : s.queue = e :: queue) (he : isExit e = false) :
    EndsWell (s.step .recv) := by
  simp only [Running.step, hqueue]
  refine ⟨h.result, fun hdone ↦ ?_⟩
  obtain ⟨e', hmem, hexit⟩ := h.sent hdone
  rw [hqueue] at hmem
  rcases List.mem_cons.1 hmem with rfl | hmem
  · exact absurd (he.symm.trans hexit) Bool.false_ne_true
  · exact ⟨e', hmem, hexit⟩

end EndsWell

/-- What is left of a command that has exited. -/
def left (s : Running) : ℕ := 2 * s.queue.length + if s.waiter = .done then 0 else 3

/-- The command once its exit is known, if there is room for the event. -/
def settle (s : Running) (result : WaitResult) : Running :=
  ((s.step (.waited result)).step .timeout).step .finish

theorem exited_settle (s : Running) (result : WaitResult) :
    (settle s result).exited = s.exited := by
  unfold settle
  simp only [Running.step]
  repeat' split
  all_goals rfl

/-- **The exit is sent as soon as there is room for it.** -/
theorem settle_spec {s : Running} (hexited : s.exited = true) (code signal : Option ℤ) :
    left (settle s (.exit code signal)) ≤ left s ∧
      ((settle s (.exit code signal)).waiter = .done ∨
        (settle s (.exit code signal)).queue ≠ []) := by
  have hfinish : ∀ {s' : Running} {r : WaitResult}, s'.waiter = .sending r →
      s'.queue = s.queue → s.waiter ≠ .done → left (s'.step .finish) ≤ left s ∧
        ((s'.step .finish).waiter = .done ∨ (s'.step .finish).queue ≠ []) := by
    intro s' r hw hqueue hnot
    simp only [Running.step, hw, left, if_neg hnot]
    split
    · refine ⟨?_, .inl rfl⟩
      simp only [Running.push, List.length_append, hqueue, List.length_singleton, if_true]
      omega
    case isFalse hfull =>
      refine ⟨by rw [hqueue, hw]; simp, .inr fun hnil ↦ hfull ?_⟩
      rw [hnil]
      decide
  cases hw : s.waiter with
  | waiting =>
    have hstep : (s.step (.waited (.exit code signal))).step .timeout =
        { s with waiter := .sending (.exit code signal) } := by
      simp only [Running.step, hw, hexited, if_true]
    rw [settle, hstep]
    exact hfinish rfl rfl (by simp [hw])
  | draining r =>
    have hstep : (s.step (.waited (.exit code signal))).step .timeout =
        { s with waiter := .sending r } := by
      simp only [Running.step, hw]
    rw [settle, hstep]
    exact hfinish rfl rfl (by simp [hw])
  | sending r =>
    have hstep : (s.step (.waited (.exit code signal))).step .timeout = s := by
      simp only [Running.step, hw]
    rw [settle, hstep]
    exact hfinish hw rfl (by simp [hw])
  | done =>
    have hstep : settle s (.exit code signal) = s := by
      simp only [settle, Running.step, hw]
    rw [hstep]
    exact ⟨le_rfl, .inl hw⟩

/-- An event other than an exit leaves the job running. -/
theorem state_record (job : Job) {e : ExecEvent} (he : isExit e = false) :
    (job.record e).state = job.state := by
  cases e <;> first | rfl | cases he

theorem state_record_exit (job : Job) {e : ExecEvent} (he : isExit e = true) :
    (job.record e).state ≠ .running := by
  cases e with
  | exit code signal =>
    cases signal with
    | none | some => simp [Job.record]
  | _ => cases he

namespace Jobs

variable {w w' : Jobs} {i j k : ℕ} {c : Client} {t t' : JobTask} {e : NodeEvent}

/-! ### A job -/

/-- How often the end of a job was reported. -/
def ends (w : Jobs) (j : ℕ) : ℕ := w.emitted.countP fun e ↦ e.kind.isEndOf j

/-- What holds of a job. -/
structure TaskOk (w : Jobs) (j : ℕ) (t : JobTask) : Prop where
  going : t.at_.Going → EndsWell t.running ∧ t.removed = false
  state : t.job.state = .running ↔ t.at_.Going
  ends : w.ends j = if t.at_ = .done then 1 else 0

/-- What holds of a job if there is one. -/
def JobAt (j : ℕ) (w : Jobs) : Prop :=
  (w.jobs.length ≤ j → w.ends j = 0) ∧ ∀ t ∈ w.jobs[j]?, TaskOk w j t

/-- The wait for the command of the job does not fail. -/
def Waited (j : ℕ) (_ : Jobs) : Label → Prop
  | .act k (.waited (.error _)) => k ≠ j
  | _ => True

theorem JobAt.of_eq (h : JobAt j w) (hjobs : w'.jobs = w.jobs)
    (hends : w'.ends j = w.ends j) : JobAt j w' := by
  refine ⟨fun hle ↦ ?_, fun t ht ↦ ?_⟩
  · rw [hends]
    exact h.1 (hjobs ▸ hle)
  · rw [hjobs] at ht
    have hok := h.2 t ht
    exact ⟨hok.going, hok.state, hends.trans hok.ends⟩

theorem ends_emit (w : Jobs) (kind : NodeEventKind) (j : ℕ) :
    (w.emit kind).ends j = w.ends j + if kind.isEndOf j = true then 1 else 0 := by
  show (w.emitted ++ [(⟨w.nextSeq, w.bootId, kind⟩ : NodeEvent)]).countP _ = _
  rw [List.countP_append, List.countP_singleton]
  rfl

theorem JobAt.emit (h : JobAt j w) {kind : NodeEventKind} (hkind : kind.isEndOf j = false) :
    JobAt j (w.emit kind) :=
  h.of_eq rfl (by rw [ends_emit, hkind]; rfl)

/-- One job changes. -/
theorem JobAt.setJob (h : JobAt j w) (ht : k = j → TaskOk w j t) : JobAt j (w.setJob k t) := by
  refine ⟨fun hle ↦ h.1 ?_, fun t' ht' ↦ ?_⟩
  · rwa [Jobs.setJob, List.length_set] at hle
  · by_cases hk : k = j
    · subst hk
      rw [Jobs.setJob, List.getElem?_set_self'] at ht'
      obtain ⟨_, -, rfl⟩ := Option.map_eq_some_iff.1 ht'
      exact ⟨(ht rfl).going, (ht rfl).state, (ht rfl).ends⟩
    · rw [Jobs.setJob, List.getElem?_set_ne hk] at ht'
      have hok := h.2 t' ht'
      exact ⟨hok.going, hok.state, hok.ends⟩

/-- **The task of a job goes on.** -/
theorem JobAt.followNext (h : JobAt j w) (ht : w.jobs[k]? = some t) :
    JobAt j (w.followNext k t) := by
  have hok : k = j → TaskOk w j t := fun hk ↦ h.2 t (hk ▸ ht)
  unfold Jobs.followNext
  split
  case h_1 hat =>
    refine (h.emit rfl).setJob fun hk ↦ ?_
    obtain ⟨hgoing, hstate, hends⟩ := hok hk
    have hwas : t.at_.Going := .inl hat
    refine ⟨fun _ ↦ hgoing hwas, ⟨fun _ ↦ .inr rfl, fun _ ↦ hstate.2 hwas⟩, ?_⟩
    rw [ends_emit, hends, hat]
    rfl
  case h_2 hat =>
    have hwas : t.at_.Going := .inr hat
    split
    case h_1 e queue hqueue =>
      split
      case isTrue hremoved =>
        refine h.setJob fun hk ↦ ?_
        exact absurd (((hok hk).going hwas).2.symm.trans hremoved) Bool.false_ne_true
      case isFalse =>
        refine h.setJob fun hk ↦ ?_
        obtain ⟨hgoing, hstate, hends⟩ := hok hk
        cases hexit : isExit e with
        | true =>
          have hat' : (match e with | .exit _ _ => TaskAt.finishing | _ => .following) =
              .finishing := by
            cases e <;> first | rfl | cases hexit
          have hnot : ¬ TaskAt.finishing.Going := by simp [TaskAt.Going]
          rw [hat']
          refine ⟨fun hgo ↦ absurd hgo hnot, iff_of_false ?_ hnot, ?_⟩
          · exact state_record_exit t.job hexit
          · rw [hends, hat]
            rfl
        | false =>
          have hat' : (match e with | .exit _ _ => TaskAt.finishing | _ => .following) =
              .following := by
            cases e <;> first | rfl | cases hexit
          rw [hat']
          refine ⟨fun _ ↦ ⟨(hgoing hwas).1.recv hqueue hexit, (hgoing hwas).2⟩,
            iff_of_true ?_ (.inr rfl), ?_⟩
          · exact (state_record t.job hexit).trans (hstate.2 hwas)
          · rw [hends, hat]
    case h_2 hqueue =>
      split
      case isTrue hclosed =>
        -- The exit is among the events that are left, and there is none.
        refine h.setJob fun hk ↦ ?_
        obtain ⟨e, he, -⟩ := ((hok hk).going hwas).1.sent hclosed.1
        rw [hqueue] at he
        cases he
      · exact h
  case h_3 hat =>
    have hnot : ¬ t.at_.Going := by simp [TaskAt.Going, hat]
    have hdone : ¬ TaskAt.done.Going := by simp [TaskAt.Going]
    by_cases hk : k = j
    · subst hk
      obtain ⟨hgoing, hstate, hends⟩ := hok rfl
      have hlt := (List.getElem?_eq_some_iff.1 ht).1
      refine ⟨fun hle ↦ ?_, fun t' ht' ↦ ?_⟩
      · rw [Jobs.setJob, List.length_set] at hle
        exact absurd hlt (Nat.not_lt.2 hle)
      · have hjobs : ((w.emit (.jobFinished k t.job)).setJob k { t with at_ := .done }).jobs[k]? =
            some { t with at_ := .done } := List.getElem?_set_self hlt
        obtain rfl := Option.some.inj (hjobs.symm.trans ht')
        refine ⟨fun hgo ↦ absurd hgo hdone, iff_of_false (fun h ↦ hnot (hstate.1 h)) hdone, ?_⟩
        show (w.emit (.jobFinished k t.job)).ends k = 1
        rw [ends_emit, hends, hat]
        simp [NodeEventKind.isEndOf]
    · exact (h.emit (by simp [NodeEventKind.isEndOf, hk])).setJob fun h ↦ absurd h hk
  · exact h

/-- **One step**, as a job sees it. -/
theorem jobAt_step (h : JobAt j w) {l : Label} (hwaited : Waited j w l) : JobAt j (w.step l) := by
  by_cases hl : l.isClient = true
  · obtain ⟨clients, heq⟩ := step_of_isClient w hl
    rw [heq]
    exact h.of_eq rfl rfl
  cases l with
  | start =>
    refine ⟨fun hle ↦ h.1 ?_, fun t ht ↦ ?_⟩
    · rw [step, List.length_append] at hle
      exact (Nat.le_add_right _ _).trans hle
    · rcases Nat.lt_or_ge j w.jobs.length with hlt | hge
      · rw [step, List.getElem?_append_left hlt] at ht
        have hok := h.2 t ht
        exact ⟨hok.going, hok.state, hok.ends⟩
      · rw [step, List.getElem?_append_right hge] at ht
        obtain rfl := List.mem_singleton.1 (List.mem_of_getElem? ht)
        refine ⟨fun _ ↦ ⟨⟨fun r hr ↦ ?_, fun hdone ↦ by cases hdone⟩, rfl⟩,
          iff_of_true rfl (.inl rfl), h.1 hge⟩
        rcases hr with hr | hr <;> cases hr
  | act k a =>
    simp only [step]
    split
    case h_1 t ht =>
      split
      · exact h
      case isFalse hrecv =>
        refine h.setJob fun hk ↦ ?_
        subst hk
        have hok := h.2 t ht
        refine ⟨fun hgo ↦ ⟨(hok.going hgo).1.step hrecv fun message ha ↦ ?_, (hok.going hgo).2⟩,
          hok.state, hok.ends⟩
        subst ha
        exact hwaited rfl
    · exact h
  | follow k =>
    simp only [step]
    split
    case h_1 t ht => exact h.followNext ht
    · exact h
  | remove k =>
    simp only [step]
    split
    case h_1 t ht =>
      split
      · exact h
      case isFalse hended =>
        refine h.setJob fun hk ↦ ?_
        subst hk
        have hok := h.2 t ht
        exact ⟨fun hgo ↦ absurd (hok.state.2 hgo) hended, hok.state, hok.ends⟩
    · exact h
  | term id => exact h.emit rfl
  | restart => exact ⟨fun _ ↦ rfl, fun t ht ↦ by simp [step] at ht⟩
  | _ => exact absurd rfl hl

/-! ### A job whose command has exited is reported -/

/-- Waiting for the command returns, the timer fires, the event is sent, and the task goes on; `n`
times over. -/
def finish (w : Jobs) (j : ℕ) (result : WaitResult) : ℕ → Jobs
  | 0 => w
  | n + 1 =>
    finish ([.act j (.waited result), .act j .timeout, .act j .finish, .follow j].foldl step w) j
      result n

/-- How a job is reported. -/
structure Reported (w : Jobs) (j : ℕ) (t : JobTask) : Prop where
  once : w.ends j ≤ 1
  left : w.ends j = 1 → t.job.state ≠ .running
  /-- When the command has exited, its end can be reported. -/
  ended : t.running.exited = true → ∀ code signal, ∃ n,
    (w.finish j (.exit code signal) n).ends j = 1 ∧
      ∀ t' ∈ (w.finish j (.exit code signal) n).jobs[j]?, t'.job.state ≠ .running

/-- How far the task of a job is from its end. -/
def toReport (t : JobTask) : ℕ :=
  left t.running + match t.at_ with
    | .starting => 3
    | .following => 2
    | .finishing => 1
    | .done => 0

/-- **The next step of the task**, once the command has done what it can. -/
theorem followNext_spec (hok : TaskOk w j t) (ht : w.jobs[j]? = some t) (hat : t.at_ ≠ .done)
    (hsettled : t.running.waiter = .done ∨ t.running.queue ≠ []) :
    ∃ t', (w.followNext j t).jobs[j]? = some t' ∧ t'.running.exited = t.running.exited ∧
      toReport t' < toReport t := by
  have hlt := (List.getElem?_eq_some_iff.1 ht).1
  unfold Jobs.followNext
  cases hat' : t.at_ with
  | starting =>
    refine ⟨{ t with at_ := .following }, List.getElem?_set_self hlt, rfl, ?_⟩
    simp only [toReport, hat']
    omega
  | following =>
    have hgoing := hok.going (.inr hat')
    cases hqueue : t.running.queue with
    | nil =>
      rcases hsettled with hdone | hne
      · obtain ⟨e, he, -⟩ := hgoing.1.sent hdone
        rw [hqueue] at he
        cases he
      · exact absurd hqueue hne
    | cons e queue =>
      have hleft : left (t.running.step .recv) + 2 = left t.running := by
        simp only [left, Running.step, hqueue, List.length_cons]
        omega
      simp only [hgoing.2, Bool.false_eq_true, if_false]
      refine ⟨_, List.getElem?_set_self hlt, ?_, ?_⟩
      · simp only [Running.step, hqueue]
      · simp only [toReport, hat']
        split <;> omega
  | finishing =>
    refine ⟨{ t with at_ := .done }, List.getElem?_set_self hlt, rfl, ?_⟩
    simp only [toReport, hat']
    omega
  | done => exact absurd hat' hat

/-- **A job whose command has exited** is reported in the end. -/
theorem exists_finish (h : JobAt j w) (ht : w.jobs[j]? = some t)
    (hexited : t.running.exited = true) (code signal : Option ℤ) {n : ℕ} (hn : toReport t ≤ n) :
    ∃ n, (w.finish j (.exit code signal) n).ends j = 1 ∧
      ∀ t' ∈ (w.finish j (.exit code signal) n).jobs[j]?, t'.job.state ≠ .running := by
  induction n using Nat.strong_induction_on generalizing w t with
  | h n ih =>
  by_cases hat : t.at_ = .done
  · obtain ⟨-, hstate, hends⟩ := h.2 t ht
    rw [if_pos hat] at hends
    refine ⟨0, hends, fun t' ht' ↦ ?_⟩
    obtain rfl := Option.some.inj (ht.symm.trans ht')
    exact fun hrunning ↦ by simpa [TaskAt.Going, hat] using hstate.1 hrunning
  · -- What the command does first.
    have hact : ∀ {w : Jobs} {t : JobTask} (a : Act), w.jobs[j]? = some t → a ≠ .recv →
        w.step (.act j a) = w.setJob j { t with running := t.running.step a } ∧
          (w.setJob j { t with running := t.running.step a }).jobs[j]? =
            some { t with running := t.running.step a } := by
      intro w t a ht ha
      refine ⟨?_, List.getElem?_set_self (List.getElem?_eq_some_iff.1 ht).1⟩
      simp only [step, ht, if_neg ha]
    obtain ⟨heq₁, ht₁⟩ := hact (.waited (.exit code signal)) ht (by simp)
    have h₁ := jobAt_step h (l := .act j (.waited (.exit code signal))) trivial
    rw [heq₁] at h₁
    obtain ⟨heq₂, ht₂⟩ := hact .timeout ht₁ (by simp)
    have h₂ := jobAt_step h₁ (l := .act j .timeout) trivial
    rw [heq₂] at h₂
    obtain ⟨heq₃, ht₃⟩ := hact .finish ht₂ (by simp)
    have h₃ := jobAt_step h₂ (l := .act j .finish) trivial
    rw [heq₃] at h₃
    obtain ⟨w₃, h₃, ht₃, hsteps⟩ : ∃ w₃, JobAt j w₃ ∧
        w₃.jobs[j]? = some { t with running := settle t.running (.exit code signal) } ∧
        ((w.step (.act j (.waited (.exit code signal)))).step (.act j .timeout)).step
          (.act j .finish) = w₃ := ⟨_, h₃, ht₃, by rw [heq₁, heq₂, heq₃]⟩
    obtain ⟨hless, hsettled⟩ := settle_spec hexited code signal
    obtain ⟨t', ht', hexited', hlt⟩ := followNext_spec (h₃.2 _ ht₃) ht₃ hat hsettled
    have hlt' : toReport t' < toReport t := by
      refine hlt.trans_le ?_
      simp only [toReport]
      exact Nat.add_le_add_right hless _
    have h' := h₃.followNext ht₃
    obtain ⟨m, hm⟩ := ih (toReport t') (by omega) h' ht'
      (hexited'.trans ((exited_settle _ _).trans hexited)) le_rfl
    refine ⟨m + 1, ?_⟩
    have hround : [Label.act j (.waited (.exit code signal)), .act j .timeout, .act j .finish,
        .follow j].foldl step w = w₃.followNext j
          { t with running := settle t.running (.exit code signal) } := by
      simp only [List.foldl_cons, List.foldl_nil, hsteps]
      simp only [step, ht₃]
    rw [finish, hround]
    exact hm

theorem JobAt.reported (h : JobAt j w) (ht : w.jobs[j]? = some t) : Reported w j t where
  once := by
    rw [(h.2 t ht).ends]
    split <;> omega
  left hends hrunning := by
    obtain ⟨-, hstate, hcount⟩ := h.2 t ht
    rw [hends] at hcount
    split at hcount
    case isTrue hdone => simpa [TaskAt.Going, hdone] using hstate.1 hrunning
    case isFalse => cases hcount
  ended hexited code signal := exists_finish h ht hexited code signal le_rfl

/-! ### Runs -/

/-- The runs of the daemon and its clients. -/
def system : StepSystem Jobs Label := .ofFun new step

end Jobs

open Jobs

/-- **Events and jobs.** A client that asks in time, and not again after a restart once it has
received events, is served every event of the boot exactly once and in order; a job that is waited
for is reported exactly once, and is not running then. -/
theorem served_and_reported (i j : ℕ) (w : Jobs) :
    ((system.restrict fun w l ↦ InTime i w l ∧ SameBoot i w l).Reachable w →
      ∀ c ∈ w.clients[i]?, Served w i c) ∧
    ((system.restrict (Waited j)).Reachable w → ∀ t ∈ w.jobs[j]?, Reported w j t) := by
  refine ⟨fun h ↦ ?_, fun h ↦ ?_⟩
  · have hall : w.LogOk ∧ ∀ c ∈ w.clients[i]?, ClientOk w c := by
      refine h.invariant (I := fun w : Jobs ↦ w.LogOk ∧ ∀ c ∈ w.clients[i]?, ClientOk w c)
        (fun s hs ↦ ?_) fun s l t _ hok hl ↦ ?_
      · obtain rfl : s = new := hs
        exact ⟨logOk_new, fun c hc ↦ by simp [new] at hc⟩
      · obtain rfl : t = s.step l := hl.2
        exact ⟨logOk_step hok.1 l, clientAt_step hok.1 hok.2 hl.1.1 hl.1.2⟩
    exact fun c hc ↦ (hall.2 c hc).served hall.1 hc
  · have hjob : JobAt j w := by
      refine h.invariant (I := JobAt j) (fun s hs ↦ ?_) fun s l t _ hok hl ↦ ?_
      · obtain rfl : s = new := hs
        exact ⟨fun _ ↦ rfl, fun t ht ↦ by simp [new] at ht⟩
      · obtain rfl : t = s.step l := hl.2
        exact jobAt_step hok hl.1
    exact fun t ht ↦ hjob.reported ht

/-- A job starts and ends; a client hears of its start. -/
def hears : List Label :=
  [.start, .client, .follow 0, .connect 0, .send 0, .deliver 0, .act 0 .exit,
    .act 0 (.waited (.exit (some 0) none)), .act 0 .timeout, .act 0 .finish, .follow 0, .follow 0]

theorem served_and_reported_hears :
    (∃ n, ∀ c ∈ ((run new hears).serve 0 n).clients[0]?, c.of 0 = (run new hears).emitted) ∧
      ∀ t ∈ (run new hears).jobs[0]?, t.job.state ≠ .running := by
  constructor
  · have hrun : (system.restrict fun w l ↦ InTime 0 w l ∧ SameBoot 0 w l).Reachable
        (run new hears) := by
      refine .foldl_of_allMeet (S := system) (fun _ _ ↦ rfl) (.start rfl)
        ⟨⟨trivial, trivial⟩, ⟨trivial, trivial⟩, ⟨trivial, trivial⟩, ⟨?_, ?_⟩, ⟨trivial, trivial⟩,
          ⟨trivial, trivial⟩, ⟨trivial, trivial⟩, ⟨trivial, trivial⟩, ⟨trivial, trivial⟩,
          ⟨trivial, trivial⟩, ⟨trivial, trivial⟩, ⟨trivial, trivial⟩, trivial⟩
      · exact fun _ c _ _ ↦ (Nat.sub_le _ _).trans (by decide)
      · intro _ c hc e he
        obtain rfl := Option.some.inj hc
        cases he
    exact ((served_and_reported 0 0 _).1 hrun _ rfl).all _ rfl rfl (by decide)
  · have hrun : (system.restrict (Waited 0)).Reachable (run new hears) :=
      .foldl_of_allMeet (S := system) (fun _ _ ↦ rfl) (.start rfl)
        ⟨trivial, trivial, trivial, trivial, trivial, trivial, trivial, trivial, trivial, trivial,
          trivial, trivial, trivial⟩
    exact fun t ht ↦ ((served_and_reported 0 0 _).2 hrun t ht).left (by decide +kernel)

/-- A client hears of an event; the daemon restarts, and has an event when the client asks again. -/
def restarts : List Label :=
  [.client, .term 0, .connect 0, .send 0, .deliver 0, .restart, .term 0, .connect 0]

/-- The command of a job ends, and waiting for it fails. -/
def waitFails : List Label :=
  [.start, .follow 0, .act 0 .exit, .act 0 (.waited (.error "wait")), .act 0 .timeout,
    .act 0 .finish, .follow 0]

theorem serve_restarts (n : ℕ) : (run new restarts).serve 0 n = run new restarts := by
  induction n with
  | zero => rfl
  | succ n ih => exact ih

theorem finish_waitFails (r : WaitResult) (n : ℕ) :
    (run new waitFails).finish 0 r n = run new waitFails := by
  induction n with
  | zero => rfl
  | succ n ih =>
    cases r with
    | exit | error => exact ih

/-- A client that asks again after a restart, in time, is not served the first events of the boot;
and a job whose command has ended is never reported when waiting for it failed. -/
theorem not_served_and_not_reported :
    (¬ ∀ i w, (system.restrict (InTime i)).Reachable w → ∀ c ∈ w.clients[i]?, Served w i c) ∧
      ¬ ∀ j w, system.Reachable w → ∀ t ∈ w.jobs[j]?, Reported w j t := by
  constructor
  · intro h
    have hrun : (system.restrict (InTime 0)).Reachable (run new restarts) := by
      refine .foldl_of_allMeet (S := system) (fun _ _ ↦ rfl) (.start rfl)
        ⟨trivial, trivial, fun _ c _ _ ↦ (Nat.sub_le _ _).trans (by decide), trivial, trivial,
          trivial, trivial, fun _ c _ _ ↦ (Nat.sub_le _ _).trans (by decide), trivial⟩
    obtain ⟨n, hn⟩ := (h 0 _ hrun _ rfl).all _ rfl rfl (by decide)
    rw [serve_restarts] at hn
    exact absurd (hn _ rfl) (by decide)
  · intro h
    obtain ⟨n, hn, -⟩ := (h 0 (run new waitFails) (StepSystem.reachable_foldl _) _ rfl).ended rfl
      (some 0) none
    rw [finish_waitFails] at hn
    exact absurd hn (by decide)

end Ember.Node.JobLog
