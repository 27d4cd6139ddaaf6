import Ember.Foundation.Runs
import Mathlib.Data.List.DropRight
import Mathlib.Logic.Function.Basic

/-!
# Running a command

A started command: its output streams, a reader for each that puts what it reads into one bounded
channel, and a waiter that puts the exit event there when the command has exited and the readers are
done, or when a timer fires. With pipes there are two streams, under a PTY all output is on one. A
consumer takes the events out at its own pace.

What the command wrote is what was received, what is in the channel, what a reader holds and what is
in the pipe, one after the other: `Sound.flow` carries the proofs. The last section is the consumer
that records a background job.
-/

namespace Ember.Node.Exec

open StepSystem

/-! ### Events -/

/-- An output stream. -/
inductive Stream
  | stdout
  | stderr
  deriving DecidableEq, Repr

/-- `ExecEvent`. -/
inductive ExecEvent
  | started (pid : ℕ)
  | stdout (data : List UInt8)
  | stderr (data : List UInt8)
  | exit (code signal : Option ℤ)
  | error (message : String)
  deriving DecidableEq, Repr

variable {e : ExecEvent}

namespace ExecEvent

/-- The event that a chunk of a stream is sent as. -/
def ofChunk (data : List UInt8) : Stream → ExecEvent
  | .stdout => .stdout data
  | .stderr => .stderr data

/-- What the event says was written to a stream. -/
def output (i : Stream) : ExecEvent → List UInt8
  | .stdout data => if i = .stdout then data else []
  | .stderr data => if i = .stderr then data else []
  | _ => []

/-- An exit or error event. -/
def isFinal : ExecEvent → Bool
  | .exit _ _ | .error _ => true
  | _ => false

@[simp] theorem output_ofChunk (data : List UInt8) (i j : Stream) :
    (ofChunk data j).output i = if i = j then data else [] := by
  cases j <;> rfl

@[simp] theorem isFinal_ofChunk (data : List UInt8) (j : Stream) :
    (ofChunk data j).isFinal = false := by
  cases j <;> rfl

theorem output_of_isFinal (he : e.isFinal) (i : Stream) : e.output i = [] := by
  cases e <;> first | rfl | cases he

end ExecEvent

/-- What events say was written to a stream. -/
def output (i : Stream) (events : List ExecEvent) : List UInt8 := events.flatMap (·.output i)

@[simp] theorem output_append (i : Stream) (xs ys : List ExecEvent) :
    output i (xs ++ ys) = output i xs ++ output i ys := List.flatMap_append

@[simp] theorem output_singleton (i : Stream) (e : ExecEvent) : output i [e] = e.output i :=
  List.append_nil _

/-! ### A running command -/

/-- A reader: `pump`, or the thread that reads a PTY. -/
inductive Reader
  | reading
  /-- It waits for room in the channel. -/
  | sending (chunk : List UInt8)
  | done
  deriving DecidableEq

/-- What the reader has read and not sent. -/
def Reader.chunk : Reader → List UInt8
  | .sending chunk => chunk
  | _ => []

/-- A stream of the command. -/
structure Pipe where
  /-- A process can write to it. -/
  held : Bool
  /-- What was written and not read. -/
  buf : List UInt8
  /-- What was written; only statements speak of it. -/
  written : List UInt8
  reader : Reader
  deriving DecidableEq

/-- What waiting for the command gives. -/
inductive WaitResult
  | exit (code signal : Option ℤ)
  | error (message : String)
  deriving DecidableEq

/-- The event it is sent as. -/
def WaitResult.event : WaitResult → ExecEvent
  | .exit code signal => .exit code signal
  | .error message => .error message

theorem WaitResult.isFinal_event (r : WaitResult) : r.event.isFinal = true := by
  cases r <;> rfl

/-- The task that waits for the command. -/
inductive Waiter
  | waiting
  /-- The command has exited; the readers may have more. -/
  | draining (result : WaitResult)
  | sending (result : WaitResult)
  | done
  deriving DecidableEq

/-- `Running`: a started command, and what its consumer has received. -/
structure Running where
  pipe : Stream → Pipe
  exited : Bool
  waiter : Waiter
  queue : List ExecEvent
  received : List ExecEvent

/-- How many events the channel holds. -/
def channelSize : ℕ := 256

/-- How much a reader reads at a time. -/
def readSize : ℕ := 32 * 1024

/-- What happens next. -/
inductive Act
  /-- The command writes. -/
  | write (i : Stream) (data : List UInt8)
  /-- It closes a stream. -/
  | close (i : Stream)
  | exit
  /-- A reader reads `n` bytes. -/
  | read (i : Stream) (n : ℕ)
  | endOfFile (i : Stream)
  | readFails (i : Stream)
  | send (i : Stream)
  /-- The waiter learns how the command ended, or that it cannot. -/
  | waited (result : WaitResult)
  | drained
  /-- `DRAIN_GRACE` has passed. -/
  | timeout
  | finish
  /-- The consumer takes an event. -/
  | recv
  deriving DecidableEq

namespace Running

/-- One stream changes. -/
def setPipe (s : Running) (i : Stream) (p : Pipe) : Running :=
  { s with pipe := Function.update s.pipe i p }

/-- An event is put into the channel. -/
def push (s : Running) (e : ExecEvent) : Running := { s with queue := s.queue ++ [e] }

/-- Every reader has stopped. -/
def Drained (s : Running) : Prop :=
  (s.pipe .stdout).reader = .done ∧ (s.pipe .stderr).reader = .done

instance (s : Running) : Decidable s.Drained := by
  unfold Drained
  infer_instance

/-- One step; a step that cannot be taken changes nothing. -/
def step (s : Running) : Act → Running
  | .write i data =>
    let p := s.pipe i
    if p.held then s.setPipe i { p with buf := p.buf ++ data, written := p.written ++ data } else s
  | .close i => s.setPipe i { s.pipe i with held := false }
  -- No other process holds the streams.
  | .exit => { s with pipe := fun i ↦ { s.pipe i with held := false }, exited := true }
  | .read i n =>
    let p := s.pipe i
    if p.reader = .reading ∧ 0 < n ∧ n ≤ readSize ∧ n ≤ p.buf.length then
      s.setPipe i { p with buf := p.buf.drop n, reader := .sending (p.buf.take n) }
    else s
  | .endOfFile i =>
    let p := s.pipe i
    if p.reader = .reading ∧ p.buf = [] ∧ p.held = false then s.setPipe i { p with reader := .done }
    else s
  | .readFails i =>
    let p := s.pipe i
    if p.reader = .reading then s.setPipe i { p with reader := .done } else s
  | .send i =>
    match (s.pipe i).reader with
    | .sending chunk =>
      if s.queue.length < channelSize then
        (s.setPipe i { s.pipe i with reader := .reading }).push (.ofChunk chunk i)
      else s
    | _ => s
  | .waited result =>
    match s.waiter, result with
    | .waiting, .exit _ _ => if s.exited then { s with waiter := .draining result } else s
    | .waiting, .error _ => { s with waiter := .draining result }
    | _, _ => s
  | .drained =>
    match s.waiter with
    | .draining result => if s.Drained then { s with waiter := .sending result } else s
    | _ => s
  | .timeout =>
    match s.waiter with
    | .draining result => { s with waiter := .sending result }
    | _ => s
  | .finish =>
    match s.waiter with
    | .sending result =>
      if s.queue.length < channelSize then
        { s with waiter := .done }.push result.event
      else s
    | _ => s
  | .recv =>
    match s.queue with
    | [] => s
    | e :: queue => { s with queue, received := s.received ++ [e] }

/-- A stream that nothing was written to. -/
def fresh : Pipe := ⟨true, [], [], .reading⟩

/-- A stream there is not. -/
def absent : Pipe := ⟨false, [], [], .done⟩

/-- `spawn_pipes`. -/
def spawnPipes : Running := ⟨fun _ ↦ fresh, false, .waiting, [], []⟩

/-- `spawn_pty`: all output is on one stream. -/
def spawnPty : Running :=
  ⟨fun i ↦ if i = .stdout then fresh else absent, false, .waiting, [], []⟩

/-- A command starts, under a PTY or with pipes. -/
def spawn (pty : Bool) : Running := if pty then spawnPty else spawnPipes

/-- The runs of a started command. -/
def system (s : Running) : StepSystem Running Act := .ofFun s step

/-- **The readers are done in time**: the timer does not fire before they are, and no read fails
before the end of the stream. -/
def Fair (s : Running) : Act → Prop
  | .timeout => s.Drained
  | .readFails i => (s.pipe i).buf = [] ∧ (s.pipe i).held = false
  | _ => True

/-- What was sent. -/
def events (s : Running) : List ExecEvent := s.received ++ s.queue

/-- What was sent has no final event yet. -/
def Open (s : Running) : Prop := ∀ e ∈ s.events, e.isFinal = false

/-- What the waiter has done so far. -/
def WaiterSound (s : Running) : Prop :=
  match s.waiter with
  | .waiting | .draining _ => s.Open
  | .sending _ => s.Open ∧ s.Drained
  | .done => ∃ sent result, s.events = sent ++ [WaitResult.event result] ∧
      (∀ e ∈ sent, e.isFinal = false) ∧ s.Drained

/-- Nothing is lost, and a reader stops at the end of its stream. -/
structure Sound (s : Running) : Prop where
  flow : ∀ i, output i s.events ++ (s.pipe i).reader.chunk ++ (s.pipe i).buf = (s.pipe i).written
  done : ∀ i, (s.pipe i).reader = .done → (s.pipe i).buf = [] ∧ (s.pipe i).held = false
  waiter : s.WaiterSound

variable {s s' : Running} {i : Stream} {p : Pipe}

theorem Drained.reader (h : s.Drained) (i : Stream) : (s.pipe i).reader = .done := by
  cases i
  · exact h.1
  · exact h.2

/-- What the waiter has done depends on the events and on whether the readers are done. -/
theorem WaiterSound.of_eq (h : s.WaiterSound) (hwaiter : s'.waiter = s.waiter)
    (hevents : s'.events = s.events) (hdrained : s.Drained → s'.Drained) : s'.WaiterSound := by
  unfold WaiterSound at h ⊢
  unfold Open at h ⊢
  rw [hwaiter, hevents]
  cases hw : s.waiter with
  | waiting | draining => rwa [hw] at h
  | sending result =>
    rw [hw] at h
    exact h.imp_right hdrained
  | done =>
    rw [hw] at h
    obtain ⟨sent, result, heq, hopen, hd⟩ := h
    exact ⟨sent, result, heq, hopen, hdrained hd⟩

theorem pipe_setPipe_self : (s.setPipe i p).pipe i = p := by
  simp only [setPipe, Function.update_self]

theorem pipe_setPipe_of_ne {j : Stream} (hj : j ≠ i) : (s.setPipe i p).pipe j = s.pipe j := by
  simp only [setPipe, Function.update_of_ne hj]

theorem pipe_push (e : ExecEvent) : (s.push e).pipe = s.pipe := rfl

theorem events_setPipe : (s.setPipe i p).events = s.events := rfl

theorem events_push (e : ExecEvent) : (s.push e).events = s.events ++ [e] :=
  (List.append_assoc _ _ _).symm

/-- One stream changes, and its reader does not go on once it is done. -/
theorem Sound.setPipe (h : s.Sound)
    (hflow : output i s.events ++ p.reader.chunk ++ p.buf = p.written)
    (hdone : p.reader = .done → p.buf = [] ∧ p.held = false)
    (hkeep : (s.pipe i).reader = .done → p.reader = .done) : (s.setPipe i p).Sound where
  flow j := by
    rw [events_setPipe]
    by_cases hj : j = i
    · subst hj
      rw [pipe_setPipe_self]
      exact hflow
    · rw [pipe_setPipe_of_ne hj]
      exact h.flow j
  done j := by
    by_cases hj : j = i
    · subst hj
      rw [pipe_setPipe_self]
      exact hdone
    · rw [pipe_setPipe_of_ne hj]
      exact h.done j
  waiter := by
    refine h.waiter.of_eq rfl rfl fun hd ↦ ?_
    have hreader : ∀ j, ((s.setPipe i p).pipe j).reader = .done := fun j ↦ by
      by_cases hj : j = i
      · subst hj
        rw [pipe_setPipe_self]
        exact hkeep (hd.reader j)
      · rw [pipe_setPipe_of_ne hj]
        exact hd.reader j
    exact ⟨hreader .stdout, hreader .stderr⟩

/-- While a reader is not done, nothing final was sent and the waiter is not about to. -/
theorem WaiterSound.waiter_of_not_drained (h : s.WaiterSound) (hd : ¬ s.Drained) :
    s.Open ∧ (s.waiter = .waiting ∨ ∃ result, s.waiter = .draining result) := by
  unfold WaiterSound at h
  cases hw : s.waiter with
  | waiting => exact ⟨by rwa [hw] at h, .inl rfl⟩
  | draining result => exact ⟨by rwa [hw] at h, .inr ⟨result, rfl⟩⟩
  | sending result =>
    rw [hw] at h
    exact absurd h.2 hd
  | done =>
    rw [hw] at h
    obtain ⟨_, _, _, _, hd'⟩ := h
    exact absurd hd' hd

theorem WaiterSound.isOpen (h : s.WaiterSound)
    (hw : s.waiter = .waiting ∨ ∃ result, s.waiter = .draining result) : s.Open := by
  unfold WaiterSound at h
  rcases hw with hw | ⟨result, hw⟩ <;> rwa [hw] at h

theorem waiterSound_of_open (hopen : s.Open)
    (hw : s.waiter = .waiting ∨ ∃ result, s.waiter = .draining result) : s.WaiterSound := by
  unfold WaiterSound
  rcases hw with hw | ⟨result, hw⟩ <;> rwa [hw]

theorem Open.push (h : s.Open) (he : e.isFinal = false) : (s.push e).Open := by
  intro x hx
  rw [events_push] at hx
  rcases List.mem_append.1 hx with hx | hx
  · exact h x hx
  · exact List.mem_singleton.1 hx ▸ he

/-- A reader puts its chunk into the channel. -/
theorem Sound.pushChunk (h : s.Sound) {chunk : List UInt8}
    (hchunk : (s.pipe i).reader = .sending chunk) :
    ((s.setPipe i { s.pipe i with reader := .reading }).push (.ofChunk chunk i)).Sound where
  flow j := by
    have hflow := h.flow j
    rw [events_push, events_setPipe, output_append, output_singleton, ExecEvent.output_ofChunk,
      pipe_push]
    by_cases hj : j = i
    · subst hj
      rw [hchunk] at hflow
      rw [if_pos rfl, pipe_setPipe_self]
      simpa only [Reader.chunk, List.append_nil] using hflow
    · rw [if_neg hj, List.append_nil, pipe_setPipe_of_ne hj]
      exact hflow
  done j := by
    rw [pipe_push]
    by_cases hj : j = i
    · subst hj
      rw [pipe_setPipe_self]
      exact nofun
    · rw [pipe_setPipe_of_ne hj]
      exact h.done j
  waiter := by
    have hnot : ¬ s.Drained := fun hd ↦ by
      have hdone := hd.reader i
      rw [hchunk] at hdone
      cases hdone
    obtain ⟨hopen, hw⟩ := h.waiter.waiter_of_not_drained hnot
    exact waiterSound_of_open (Open.push (s := s.setPipe i _) hopen (ExecEvent.isFinal_ofChunk _ _)) hw

/-- The waiter sends the final event. -/
theorem Sound.pushFinal (h : s.Sound) {result : WaitResult} (hw : s.waiter = .sending result) :
    ({ s with waiter := .done }.push result.event).Sound where
  flow i := by
    rw [events_push, output_append, output_singleton,
      ExecEvent.output_of_isFinal result.isFinal_event, List.append_nil]
    exact h.flow i
  done := h.done
  waiter := by
    have hwaiter := h.waiter
    unfold WaiterSound at hwaiter
    rw [hw] at hwaiter
    exact ⟨s.events, result, events_push _, hwaiter.1, hwaiter.2⟩

/-- Only the waiter changes. -/
theorem Sound.setWaiter (h : s.Sound) {waiter : Waiter}
    (hw : { s with waiter }.WaiterSound) : { s with waiter }.Sound := ⟨h.flow, h.done, hw⟩

/-- **One step** loses nothing. -/
theorem Sound.step {a : Act} (h : s.Sound) (hfair : Fair s a) : (s.step a).Sound := by
  cases a with simp only [Running.step]
  | write i data =>
    split
    case isTrue hheld =>
      refine h.setPipe ?_ (fun hdone ↦ ?_) id
      · rw [← List.append_assoc, h.flow i]
      · have hclosed := (h.done i hdone).2
        rw [hheld] at hclosed
        cases hclosed
    case isFalse => exact h
  | close i => exact h.setPipe (h.flow i) (fun hdone ↦ ⟨(h.done i hdone).1, rfl⟩) id
  | exit =>
    exact ⟨h.flow, fun i hdone ↦ ⟨(h.done i hdone).1, rfl⟩, h.waiter.of_eq rfl rfl id⟩
  | read i n =>
    split
    case isTrue hread =>
      have hflow := h.flow i
      rw [hread.1] at hflow
      refine h.setPipe ?_ nofun fun hdone ↦ ?_
      · rw [List.append_assoc]
        simpa only [Reader.chunk, List.append_nil, List.take_append_drop] using hflow
      · rw [hread.1] at hdone
        cases hdone
    case isFalse => exact h
  | endOfFile i =>
    split
    case isTrue hend =>
      have hflow := h.flow i
      rw [hend.1] at hflow
      exact h.setPipe hflow (fun _ ↦ hend.2) fun _ ↦ rfl
    case isFalse => exact h
  | readFails i =>
    split
    case isTrue hreading =>
      have hflow := h.flow i
      rw [hreading] at hflow
      exact h.setPipe hflow (fun _ ↦ hfair) fun _ ↦ rfl
    case isFalse => exact h
  | send i =>
    split
    case h_1 chunk hchunk =>
      split
      · exact h.pushChunk hchunk
      · exact h
    case h_2 => exact h
  | waited result =>
    split
    case h_1 code signal hw =>
      split
      · exact h.setWaiter (waiterSound_of_open (h.waiter.isOpen (.inl hw)) (.inr ⟨_, rfl⟩))
      · exact h
    case h_2 message hw =>
      exact h.setWaiter (waiterSound_of_open (h.waiter.isOpen (.inl hw)) (.inr ⟨_, rfl⟩))
    case h_3 => exact h
  | drained =>
    split
    case h_1 result hw =>
      split
      case isTrue hd => exact h.setWaiter ⟨h.waiter.isOpen (.inr ⟨result, hw⟩), hd⟩
      case isFalse => exact h
    case h_2 => exact h
  | timeout =>
    split
    case h_1 result hw => exact h.setWaiter ⟨h.waiter.isOpen (.inr ⟨result, hw⟩), hfair⟩
    case h_2 => exact h
  | finish =>
    split
    case h_1 result hw =>
      split
      case isTrue => exact h.pushFinal hw
      case isFalse => exact h
    case h_2 => exact h
  | recv =>
    split
    case h_1 => exact h
    case h_2 e queue hqueue =>
      have hevents : { s with queue, received := s.received ++ [e] }.events = s.events := by
        unfold events
        rw [hqueue, List.append_assoc]
        rfl
      refine ⟨fun i ↦ ?_, h.done, h.waiter.of_eq rfl hevents id⟩
      rw [hevents]
      exact h.flow i

theorem sound_spawnPipes : spawnPipes.Sound := ⟨fun _ ↦ rfl, nofun, nofun⟩

theorem sound_spawnPty : spawnPty.Sound where
  flow i := by cases i <;> rfl
  done i h := by
    cases i with
    | stdout => cases h
    | stderr => exact ⟨rfl, rfl⟩
  waiter := nofun

theorem sound_spawn (pty : Bool) : (spawn pty).Sound := by
  cases pty
  · exact sound_spawnPipes
  · exact sound_spawnPty

/-- Where a final event is among those that were sent. -/
theorem Sound.of_final (h : s.Sound) {pre post : List ExecEvent}
    (hevents : s.events = pre ++ e :: post) (he : e.isFinal) :
    post = [] ∧ (∀ x ∈ pre, x.isFinal = false) ∧
      ∀ i, output i pre = (s.pipe i).written ∧ (s.pipe i).held = false := by
  have hwaiter := h.waiter
  have hnot : ¬ s.Open := fun hopen ↦ by
    have hfinal := hopen e (hevents ▸ List.mem_append_right _ List.mem_cons_self)
    rw [he] at hfinal
    cases hfinal
  unfold WaiterSound at hwaiter
  split at hwaiter
  case h_1 => exact absurd hwaiter hnot
  case h_2 => exact absurd hwaiter hnot
  case h_3 => exact absurd hwaiter.1 hnot
  case h_4 =>
    obtain ⟨sent, result, heq, hopen, hd⟩ := hwaiter
    rw [hevents] at heq
    rcases List.eq_nil_or_concat post with rfl | ⟨post, x, rfl⟩
    · obtain ⟨rfl, -⟩ := List.append_inj' heq rfl
      refine ⟨rfl, hopen, fun i ↦ ⟨?_, (h.done i (hd.reader i)).2⟩⟩
      have hflow := h.flow i
      rw [hevents, output_append, output_singleton, ExecEvent.output_of_isFinal he, hd.reader i,
        (h.done i (hd.reader i)).1] at hflow
      simpa only [Reader.chunk, List.append_nil] using hflow
    · -- Otherwise it is among the events before the last one.
      rw [List.concat_eq_append, ← List.cons_append, ← List.append_assoc] at heq
      obtain ⟨rfl, -⟩ := List.append_inj' heq rfl
      have hfinal := hopen e (List.mem_append_right _ List.mem_cons_self)
      rw [he] at hfinal
      cases hfinal

theorem sound_of_run {start : Running} (hstart : start.Sound)
    (h : ((system start).restrict Fair).Reachable s) : s.Sound := by
  refine h.invariant (fun s hs ↦ ?_) fun s a s' _ hs hstep ↦ ?_
  · obtain rfl := hs
    exact hstart
  · obtain ⟨hfair, rfl⟩ := hstep
    exact hs.step hfair

/-- The consumer's `recv` gives nothing more: every sender is gone and the channel is empty. -/
def Closed (s : Running) : Prop := s.waiter = .done ∧ s.Drained ∧ s.queue = []

theorem Sound.exists_of_closed (h : s.Sound) (hclosed : s.Closed) :
    ∃ pre e, s.received = pre ++ [e] ∧ e.isFinal := by
  have hwaiter := h.waiter
  unfold WaiterSound at hwaiter
  rw [hclosed.1] at hwaiter
  obtain ⟨sent, result, heq, -, -⟩ := hwaiter
  refine ⟨sent, result.event, ?_, result.isFinal_event⟩
  rw [← heq, events, hclosed.2.2, List.append_nil]

/-- What was received, when a final event is among it. -/
theorem Sound.received_final (h : s.Sound) {pre post : List ExecEvent}
    (hreceived : s.received = pre ++ e :: post) (he : e.isFinal) :
    post = [] ∧ (∀ x ∈ pre, x.isFinal = false) ∧
      ∀ i, output i pre = (s.pipe i).written ∧ (s.pipe i).held = false := by
  have hevents : s.events = pre ++ e :: (post ++ s.queue) := by
    rw [events, hreceived, List.append_assoc, List.cons_append]
  obtain ⟨hpost, hopen, hwritten⟩ := h.of_final hevents he
  exact ⟨(List.append_eq_nil_iff.1 hpost).1, hopen, hwritten⟩

end Running

/-! ### A recorded job -/

/-- `JobState`. -/
inductive JobState
  | running
  | exited
  | signaled
  deriving DecidableEq, Repr

/-- What is recorded of a job. -/
structure Job where
  state : JobState
  exitCode : Option ℤ
  signal : Option ℤ
  outputBytes : ℕ
  tail : List UInt8
  deriving DecidableEq

/-- How much output a job keeps. -/
def tailBytes : ℕ := 256 * 1024

/-- What an event says was written. -/
def ExecEvent.data : ExecEvent → List UInt8
  | .stdout data | .stderr data => data
  | _ => []

variable {job : Job} {bytes : List UInt8}

namespace Job

/-- A job that has just started. -/
def new : Job := ⟨.running, none, none, 0, []⟩

/-- The job after one event. -/
def record (job : Job) : ExecEvent → Job
  | .stdout data | .stderr data =>
    { job with
      outputBytes := job.outputBytes + data.length
      tail := (job.tail ++ data).rtake tailBytes }
  | .exit code signal =>
    { job with
      state := if signal.isSome then .signaled else .exited
      exitCode := code
      signal }
  | .error message =>
    { job with tail := job.tail ++ ("\n[ember-node] " ++ message ++ "\n").toUTF8.toList }
  | .started _ => job

/-- `Jobs::start`: the loop over the events ends with the exit event. -/
def follow (job : Job) : List ExecEvent → Job
  | [] => job
  | .exit code signal :: _ => job.record (.exit code signal)
  | e :: events => (job.record e).follow events

/-- The job has recorded `bytes`, and goes on. -/
structure Records (job : Job) (bytes : List UInt8) : Prop where
  state : job.state = .running
  outputBytes : job.outputBytes = bytes.length
  tail : job.tail = bytes.rtake tailBytes

/-- Taking the end of a list that was cut from the front gives the end of the whole list. -/
theorem rtake_rtake_append {α : Type*} (xs ys : List α) (n : ℕ) :
    (xs.rtake n ++ ys).rtake n = (xs ++ ys).rtake n := by
  have hcut : xs.rtake n ++ ys = (xs ++ ys).drop (xs.length - n) :=
    (List.drop_append_of_le_length (Nat.sub_le _ _)).symm
  rw [hcut, List.rtake, List.rtake, List.drop_drop, List.length_drop, List.length_append]
  congr 1
  omega

theorem records_new : new.Records [] := ⟨rfl, rfl, rfl⟩

theorem Records.output {bytes data : List UInt8} (h : job.Records bytes) :
    { job with
      outputBytes := job.outputBytes + data.length
      tail := (job.tail ++ data).rtake tailBytes }.Records (bytes ++ data) where
  state := h.state
  outputBytes := by rw [h.outputBytes, List.length_append]
  tail := by rw [h.tail, rtake_rtake_append]

theorem Records.record (h : job.Records bytes)
    (he : e.isFinal = false) : (job.record e).Records (bytes ++ e.data) := by
  cases e with
  | started pid => exact (List.append_nil bytes).symm ▸ h
  | stdout | stderr => exact h.output
  | exit | error => cases he

/-- The loop over events without a final one. -/
theorem Records.follow {events : List ExecEvent} (h : job.Records bytes)
    (hevents : ∀ e ∈ events, e.isFinal = false) :
    (job.follow events).Records (bytes ++ events.flatMap ExecEvent.data) ∧
      ∀ e, e.isFinal → job.follow (events ++ [e]) = (job.follow events).record e := by
  induction events generalizing job bytes with
  | nil =>
    refine ⟨(List.append_nil bytes).symm ▸ h, fun e he ↦ ?_⟩
    cases e <;> rfl
  | cons x events ih =>
    have hx := hevents x List.mem_cons_self
    have hfollow : ∀ rest, job.follow (x :: rest) = (job.record x).follow rest := fun rest ↦ by
      cases x <;> first | rfl | cases hx
    obtain ⟨hrecords, hlast⟩ := ih (h.record hx) fun e he ↦ hevents e (List.mem_cons_of_mem x he)
    rw [hfollow, List.flatMap_cons, ← List.append_assoc]
    refine ⟨hrecords, fun e he ↦ ?_⟩
    rw [List.cons_append, hfollow]
    exact hlast e he

end Job

/-- What was written is what was written to the one stream and to the other. -/
theorem length_data (events : List ExecEvent) :
    (events.flatMap ExecEvent.data).length =
      (output .stdout events).length + (output .stderr events).length := by
  induction events with
  | nil => rfl
  | cons e events ih =>
    have he : e.data.length = (e.output .stdout).length + (e.output .stderr).length := by
      cases e <;> simp [ExecEvent.data, ExecEvent.output]
    simp only [output, List.flatMap_cons, List.length_append] at ih ⊢
    omega

/-- A finished job has recorded the whole output. -/
theorem Running.Sound.job_complete {s : Running} (h : s.Sound)
    (hjob : (Job.new.follow s.received).state ≠ .running) :
    (Job.new.follow s.received).outputBytes =
        (s.pipe .stdout).written.length + (s.pipe .stderr).written.length ∧
      (Job.new.follow s.received).tail = (s.received.flatMap ExecEvent.data).rtake tailBytes := by
  by_cases hopen : ∀ e ∈ s.received, e.isFinal = false
  case pos => exact absurd (Job.records_new.follow hopen).1.state hjob
  push Not at hopen
  obtain ⟨e, hmem, he⟩ := hopen
  have he : e.isFinal := Bool.not_eq_false _ ▸ he
  obtain ⟨pre, post, hreceived⟩ := List.append_of_mem hmem
  obtain ⟨rfl, hpre, hwritten⟩ := h.received_final hreceived he
  obtain ⟨hrecords, hlast⟩ := Job.records_new.follow hpre
  rw [hreceived, hlast e he] at hjob ⊢
  cases e with
  | exit code signal =>
    refine ⟨?_, ?_⟩
    · have hbytes := hrecords.outputBytes
      rw [List.nil_append, length_data, (hwritten .stdout).1, (hwritten .stderr).1] at hbytes
      exact hbytes
    · have htail := hrecords.tail
      rw [List.flatMap_append]
      exact htail.trans (by simp [ExecEvent.data])
  | error message => exact absurd hrecords.state hjob
  | _ => cases he

/-- **The output is complete.** When a final event has been received, it is the last event there
is and the only final one, and what was received of each stream before it is what the command wrote
to it; when nothing more can be received, there is one; and a job that has finished has recorded
all of it. -/
theorem output_complete (pty : Bool) (s : Running)
    (h : ((Running.system (.spawn pty)).restrict Running.Fair).Reachable s) :
    (∀ pre e post, s.received = pre ++ e :: post → e.isFinal →
      post = [] ∧ (∀ x ∈ pre, x.isFinal = false) ∧
        ∀ i, output i pre = (s.pipe i).written ∧ (s.pipe i).held = false) ∧
    (s.Closed → ∃ pre e, s.received = pre ++ [e] ∧ e.isFinal) ∧
    ((Job.new.follow s.received).state ≠ .running →
      (Job.new.follow s.received).outputBytes =
          (s.pipe .stdout).written.length + (s.pipe .stderr).written.length ∧
        (Job.new.follow s.received).tail = (s.received.flatMap ExecEvent.data).rtake tailBytes) := by
  have hsound := Running.sound_of_run (Running.sound_spawn pty) h
  exact ⟨fun pre e post hreceived he ↦ hsound.received_final hreceived he,
    hsound.exists_of_closed, hsound.job_complete⟩

/-! ### Runs -/

/-- The command writes to both of its pipes and exits; the readers are done before the timer. -/
def echoes : List Act :=
  [.write .stdout [104, 105], .write .stderr [33], .read .stdout 2, .read .stderr 1, .send .stdout,
    .recv, .send .stderr, .exit, .waited (.exit (some 0) none), .endOfFile .stdout,
    .endOfFile .stderr, .drained, .finish, .recv, .recv]

theorem output_complete_echoes :
    (Job.new.follow (echoes.foldl Running.step (.spawn false)).received).outputBytes = 3 := by
  have hcomplete := (output_complete false (echoes.foldl Running.step (.spawn false))
    (.foldl_of_allMeet (S := Running.system _) (fun _ _ ↦ rfl) (.start rfl)
      ⟨trivial, trivial, trivial, trivial, trivial, trivial, trivial, trivial, trivial, trivial,
        trivial, trivial, trivial, trivial, trivial, trivial⟩)).2.2 (by decide)
  exact hcomplete.1

/-- The command writes one byte, and its reader puts it into the channel. -/
def writeOne : List Act := [.write .stdout [0], .read .stdout 1, .send .stdout]

/-- A command that has written `k` bytes to a consumer that takes nothing. -/
def filled (k : ℕ) : Running where
  pipe := Function.update (fun _ ↦ Running.fresh) .stdout ⟨true, [], List.replicate k 0, .reading⟩
  exited := false
  waiter := .waiting
  queue := List.replicate k (.stdout [0])
  received := []

theorem foldl_writeOne {k : ℕ} (hk : k ≤ channelSize) :
    (List.replicate k writeOne).flatten.foldl Running.step (.spawn false) = filled k := by
  induction k with
  | zero =>
    have hpipe : Function.update (fun _ : Stream ↦ Running.fresh) .stdout Running.fresh =
        fun _ ↦ Running.fresh := Function.update_eq_self _ _
    exact congrArg (fun p ↦ (⟨p, false, .waiting, [], []⟩ : Running)) hpipe.symm
  | succ k ih =>
    have hroom : k < channelSize := hk
    rw [List.replicate_succ', List.flatten_append, List.foldl_append, ih (Nat.le_of_succ_le hk)]
    simp [writeOne, filled, Running.step, Running.setPipe, Running.push, hroom, readSize,
      List.replicate_succ', ExecEvent.ofChunk]

theorem foldl_recv (s : Running) :
    (List.replicate s.queue.length .recv).foldl Running.step s =
      { s with queue := [], received := s.received ++ s.queue } := by
  obtain ⟨pipe, exited, waiter, queue, received⟩ := s
  induction queue generalizing received with
  | nil => simp
  | cons e queue ih =>
    rw [List.length_cons, List.replicate_succ, List.foldl_cons]
    refine (ih (received ++ [e])).trans ?_
    simp

/-- A run goes on until the consumer has taken everything. -/
theorem reachable_received {start s : Running} (h : (Running.system start).Reachable s) :
    (Running.system start).Reachable { s with queue := [], received := s.received ++ s.queue } := by
  rw [← foldl_recv]
  exact h.foldl (fun _ _ ↦ rfl) _

/-- The command writes two bytes more and exits while the channel is full. The timer fires before
the consumer takes its first event; then the waiter asked for room before the reader that has the
last byte. -/
def exitWhileFull : List Act :=
  [.write .stdout [0, 0], .read .stdout 1, .exit, .waited (.exit (some 0) none), .timeout, .recv,
    .send .stdout, .read .stdout 1, .recv, .finish]

theorem foldl_exitWhileFull {n : ℕ} (hn : n + 2 = channelSize) :
    (exitWhileFull.foldl Running.step (filled (n + 2))).received = [.stdout [0], .stdout [0]] ∧
    (exitWhileFull.foldl Running.step (filled (n + 2))).queue =
      List.replicate n (.stdout [0]) ++ [.stdout [0], .exit (some 0) none] ∧
    ((exitWhileFull.foldl Running.step (filled (n + 2))).pipe .stdout).written =
      List.replicate (n + 2) 0 ++ [0, 0] := by
  have hroom : n + 1 < channelSize := by omega
  simp [exitWhileFull, filled, Running.step, Running.setPipe, Running.push, readSize,
    List.replicate_succ, ExecEvent.ofChunk, WaitResult.event, hroom]

/-- The output is not complete in every run: the consumer receives the exit event, and then has
not received the last byte. -/
theorem not_output_complete :
    ¬ ∀ s, (Running.system (.spawn false)).Reachable s → ∀ pre e post,
      s.received = pre ++ e :: post → e.isFinal → ∀ i, output i pre = (s.pipe i).written := by
  intro h
  obtain ⟨hreceived, hqueue, hwritten⟩ := foldl_exitWhileFull (n := 254) rfl
  have hreach : (Running.system (.spawn false)).Reachable
      (exitWhileFull.foldl Running.step (filled (254 + 2))) := by
    refine .foldl (fun _ _ ↦ rfl) ?_ _
    rw [← foldl_writeOne (k := 254 + 2) le_rfl]
    exact reachable_foldl _
  generalize exitWhileFull.foldl Running.step (filled (254 + 2)) = s at *
  have hlost := h _ (reachable_received hreach)
    ([.stdout [0], .stdout [0]] ++ (List.replicate 254 (.stdout [0]) ++ [.stdout [0]]))
    (.exit (some 0) none) []
    (by simp only [hreceived, hqueue, List.append_assoc, List.cons_append, List.nil_append])
    rfl .stdout
  have hlength := congrArg List.length (hlost.trans hwritten)
  have hsent : ∀ n, (output .stdout (List.replicate n (.stdout [0]))).length = n := fun n ↦ by
    simp [output, List.length_flatMap, ExecEvent.output]
  rw [output_append, List.length_append, output_append, List.length_append, hsent,
    List.length_append, List.length_replicate] at hlength
  have hlength : 2 + (254 + 1) = 256 + 2 := hlength
  omega

end Ember.Node.Exec
