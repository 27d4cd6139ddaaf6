import Ember.Node.Exec

/-!
# A command with its connection

`exec_session` of `node/src/api.rs` and `Control::write_stdin` of `node/src/exec.rs`: one task takes
the events of the command and sends them to the client, and takes the messages of the client and
acts on them. It waits for room in the WebSocket while it sends an event, and for room in the
command's standard input while it writes; what it has received meanwhile stays where it is.

The standard input, the channel of events, the WebSocket and what was received are bounded queues.

## What is proved

* `handles_of_reachable` — a kill or a close that is received when nothing blocks the session, and
  is behind no more input than fits, is handled by the session's own steps, whatever the command
  and the client do.
* `responsive_iff` — where it is not so, nothing that the session does by itself handles it.
* `not_handles` — a command that does not read, and a client that does not read.
-/

namespace Ember.Node.ExecSession

open Exec StepSystem

/-- `ExecInput`. -/
inductive ExecInput
  | stdin (data : List UInt8)
  | closeStdin
  | resize
  | kill (signal : Option ℤ)

/-- What the stream of the connection yields. -/
inductive Message
  /-- A text: an input, or something else. -/
  | text (input : Option ExecInput)
  /-- Another kind of message. -/
  | other
  /-- The client closes the connection, or it is gone. -/
  | close

/-- The message is a kill or the end of the connection. -/
def Message.isUrgent : Message → Bool
  | .text (some (.kill _)) | .close => true
  | _ => false

/-- `Control`. -/
inductive Control
  /-- Pipes; the writing end of the standard input is open or dropped. -/
  | pipe (isOpen : Bool)
  | pty

/-- There is a standard input to write to. -/
def Control.accepts : Control → Bool
  | .pipe isOpen => isOpen
  | .pty => true

/-- `close_stdin`. -/
def Control.closeStdin : Control → Control
  | .pipe _ => .pipe false
  | .pty => .pty

/-- The input once a message is handled. -/
def Control.after (c : Control) : Message → Control
  | .text (some .closeStdin) => c.closeStdin
  | _ => c

/-- How much input is to be written for a message, and then `rest`. -/
def Message.demand (c : Control) (rest : ℕ) : Message → ℕ
  | .text (some (.stdin data)) => (if c.accepts then data.length else 0) + rest
  | .close => 0
  | _ => rest

/-- Where the session is. -/
inductive At
  | idle
  | sending (ev : ExecEvent)
  /-- In `write_stdin`. -/
  | writing (rest : List UInt8)
  /-- The loop has ended: with the last event, or because the connection is gone. -/
  | over (finished : Bool)

/-- `SIGKILL`. -/
def SIGKILL : ℤ := 9

/-- `SIGTERM`. -/
def SIGTERM : ℤ := 15

/-- How much fits in the queues. -/
structure Caps where
  /-- The command's standard input. -/
  stdin : ℕ
  /-- What was sent to the client. -/
  out : ℕ
  /-- What was received from it. -/
  inbox : ℕ

/-- `exec_session`, its command and its connection. -/
structure Session where
  at_ : At
  running : Running
  control : Control
  /-- What the command has not read. -/
  stdin : List UInt8
  /-- A process has the reading end of the standard input. -/
  readers : Bool
  /-- What was received and not taken. -/
  inbox : List Message
  /-- What was sent and the client has not read. -/
  out : List ExecEvent
  /-- Sending fails. -/
  broken : Bool
  /-- What the process group was sent. -/
  signals : List ℤ

/-- One step. -/
inductive Label
  /-- The session takes an event. -/
  | takeEvent
  /-- It takes a message. -/
  | takeMessage
  /-- The event is sent. -/
  | sent
  /-- Some of the input is written. -/
  | write
  /-- The command, its readers and its waiter. -/
  | act (a : Act)
  | childReads (n : ℕ)
  | childCloses
  | receive (m : Message)
  | clientReads
  /-- The connection is gone. -/
  | breaks

/-- The steps with which the session goes on to its next message. -/
def Label.handles : Label → Bool
  | .takeMessage | .sent | .write => true
  | _ => false

namespace Session

variable (caps : Caps) (s : Session)

/-- A session whose command has started. -/
def start (control : Control) (pid : ℕ) : Session :=
  { at_ := .sending (.started pid)
    running := match control with
      | .pipe _ => .spawnPipes
      | .pty => .spawnPty
    control
    stdin := []
    readers := true
    inbox := []
    out := []
    broken := false
    signals := [] }

/-- The loop ends. -/
def finish (finished : Bool) : Session :=
  { s with
    at_ := .over finished
    signals := if finished then s.signals else s.signals ++ [SIGKILL] }

/-- One message is handled. -/
def handle : Message → Session
  | .text (some (.stdin data)) => if s.control.accepts then { s with at_ := .writing data } else s
  | .text (some .closeStdin) => { s with control := s.control.closeStdin }
  | .text (some .resize) => s
  | .text (some (.kill signal)) => { s with signals := s.signals ++ [signal.getD SIGTERM] }
  | .text none => s
  | .other => s
  | .close => s.finish false

/-- How much fits in the standard input. -/
def room : ℕ := caps.stdin - s.stdin.length

/-- One step; a step that cannot be taken changes nothing. -/
def step (s : Session) : Label → Session
  | .takeEvent =>
    match s.at_ with
    | .idle =>
      match s.running.queue with
      | ev :: _ => { s with at_ := .sending ev, running := s.running.step .recv }
      | [] => if s.running.waiter = .done ∧ s.running.Drained then s.finish true else s
    | _ => s
  | .takeMessage =>
    match s.at_, s.inbox with
    | .idle, m :: inbox => { s with inbox }.handle m
    | _, _ => s
  | .sent =>
    match s.at_ with
    | .sending ev =>
      if s.broken then s.finish false
      else if s.out.length < caps.out then
        let s := { s with out := s.out ++ [ev] }
        if ev.isFinal then s.finish true else { s with at_ := .idle }
      else s
    | _ => s
  | .write =>
    match s.at_ with
    | .writing rest =>
      if rest = [] ∨ s.readers = false then { s with at_ := .idle }
      else
        { s with
          at_ := .writing (rest.drop (s.room caps))
          stdin := s.stdin ++ rest.take (s.room caps) }
    | _ => s
  | .act a => if a = .recv then s else { s with running := s.running.step a }
  | .childReads n => { s with stdin := s.stdin.drop n }
  | .childCloses => { s with readers := false }
  | .receive m => if s.inbox.length < caps.inbox then { s with inbox := s.inbox ++ [m] } else s
  | .clientReads => { s with out := s.out.tail }
  | .breaks => { s with inbox := s.inbox ++ [.close], broken := true }

/-- A kill or the end of the connection was received and is not handled. -/
def Pending : Prop := (∀ finished, s.at_ ≠ .over finished) ∧ s.inbox.any Message.isUrgent = true

/-- The session handles what is pending by itself. -/
def Responsive : Prop :=
  s.Pending → ∃ ls : List Label, (∀ l ∈ ls, l.handles = true) ∧ ¬ (ls.foldl (step caps) s).Pending

/-- How much input is to be written until everything urgent is handled. -/
def demand : Control → List Message → ℕ
  | _, [] => 0
  | c, m :: ms =>
    if (m :: ms).any Message.isUrgent = true then m.demand c (demand (c.after m) ms) else 0

/-- This much input fits, or need not fit. -/
def Fits (n : ℕ) : Prop := s.readers = true → n ≤ s.room caps

/-- **Nothing blocks the session** until everything urgent is handled. -/
def Free : Prop :=
  match s.at_ with
  | .idle => s.Fits caps (demand s.control s.inbox)
  | .sending ev =>
    s.broken = true ∨
      s.out.length < caps.out ∧ (ev.isFinal = true ∨ s.Fits caps (demand s.control s.inbox))
  | .writing rest => s.Fits caps (rest.length + demand s.control s.inbox)
  | .over _ => True

/-- A kill or the end of the connection is received when nothing blocks the session, and an event
that is taken while one is pending can be sent. -/
def Careful (s : Session) : Label → Prop
  | .receive m => m.isUrgent = true → Free caps { s with inbox := s.inbox ++ [m] }
  | .breaks => Free caps { s with inbox := s.inbox ++ [.close], broken := true }
  | .takeEvent => s.Pending → s.broken = true ∨ s.out.length < caps.out
  | _ => True

/-- The runs of a session. -/
def system : StepSystem Session Label where
  init s := ∃ control pid, s = start control pid
  step s l t := t = step caps s l

variable {caps s} {s' : Session} {c : Control} {m : Message} {ms : List Message} {l : Label} {n : ℕ}

/-! ### What is ahead of a kill -/

theorem demand_of_not_any (h : ms.any Message.isUrgent = false) : demand c ms = 0 := by
  cases ms with
  | nil => rfl
  | cons m ms => rw [demand, if_neg (by rw [h]; exact Bool.false_ne_true)]

theorem any_of_demand_pos (h : 0 < demand c ms) : ms.any Message.isUrgent = true := by
  by_contra hnot
  rw [demand_of_not_any (Bool.eq_false_iff.2 hnot)] at h
  exact Nat.lt_irrefl 0 h

/-- What is behind everything urgent is not asked for. -/
theorem demand_concat (hm : m.isUrgent = false) (c : Control) (ms : List Message) :
    demand c (ms ++ [m]) = demand c ms := by
  induction ms generalizing c with
  | nil => exact demand_of_not_any (by simp [hm])
  | cons x ms ih =>
    have hany : (x :: (ms ++ [m])).any Message.isUrgent = (x :: ms).any Message.isUrgent := by
      simp [hm]
    rw [List.cons_append, demand, demand, hany, ih]

/-! ### One step -/

/-- Nothing that frees a queue, and no message that is not urgent, blocks the session. -/
theorem Free.mono (h : s.Free caps) (hat : s'.at_ = s.at_)
    (hdemand : demand s'.control s'.inbox = demand s.control s.inbox)
    (hstdin : s'.stdin.length ≤ s.stdin.length) (hreaders : s'.readers = true → s.readers = true)
    (hout : s'.out.length ≤ s.out.length) (hbroken : s.broken = true → s'.broken = true) :
    s'.Free caps := by
  have hfits : ∀ {n}, s.Fits caps n → s'.Fits caps n := fun hn hr ↦
    (hn (hreaders hr)).trans (Nat.sub_le_sub_left hstdin _)
  unfold Free at h ⊢
  rw [hat, hdemand]
  cases hs : s.at_ with
  | idle | writing =>
    rw [hs] at h
    exact hfits h
  | sending ev =>
    rw [hs] at h
    exact h.imp hbroken fun hroom ↦ ⟨hout.trans_lt hroom.1, hroom.2.imp_right hfits⟩
  | «over» finished => trivial

theorem inbox_handle (s : Session) (m : Message) : (s.handle m).inbox = s.inbox := by
  unfold handle
  split <;> first | rfl | (split <;> rfl)

/-- **One message is handled**: what was ahead of it is now ahead of the next. -/
theorem handle_spec (hat : s.at_ = .idle) (hany : (m :: s.inbox).any Message.isUrgent = true) :
    ((s.handle m).Free caps ↔ s.Fits caps (demand s.control (m :: s.inbox))) ∧
      (¬ s.Fits caps (demand s.control (m :: s.inbox)) → (s.handle m).Pending) := by
  have hover : ∀ finished, s.at_ ≠ .over finished := fun _ ↦ by rw [hat]; simp
  have hsame : s.Free caps ↔ s.Fits caps (demand s.control s.inbox) := by
    rw [Free, hat]
  rw [demand, if_pos hany]
  rw [List.any_cons, Bool.or_eq_true] at hany
  simp only [Message.demand, Control.after]
  cases m with
  | text input =>
    cases input with
    | none => exact ⟨hsame, fun _ ↦ ⟨hover, hany.resolve_left Bool.false_ne_true⟩⟩
    | some input =>
      cases input with
      | stdin data =>
        have hrest := hany.resolve_left Bool.false_ne_true
        simp only [handle]
        split
        · exact ⟨Iff.rfl, fun _ ↦ ⟨fun _ ↦ by simp, hrest⟩⟩
        · rw [Nat.zero_add]
          exact ⟨hsame, fun _ ↦ ⟨hover, hrest⟩⟩
      | closeStdin =>
        refine ⟨?_, fun _ ↦ ⟨hover, hany.resolve_left Bool.false_ne_true⟩⟩
        simp only [handle, Free, hat]
        exact Iff.rfl
      | resize => exact ⟨hsame, fun _ ↦ ⟨hover, hany.resolve_left Bool.false_ne_true⟩⟩
      | kill signal =>
        refine ⟨?_, fun hnot ↦ ⟨hover, any_of_demand_pos (c := s.control) ?_⟩⟩
        · simp only [handle, Free, hat]
          exact Iff.rfl
        · refine Nat.pos_of_ne_zero fun hzero ↦ hnot fun _ ↦ ?_
          show demand s.control s.inbox ≤ _
          exact (show demand s.control s.inbox = 0 from hzero).le.trans (Nat.zero_le _)
  | other => exact ⟨hsame, fun _ ↦ ⟨hover, hany.resolve_left Bool.false_ne_true⟩⟩
  | close => exact ⟨iff_of_true trivial fun _ ↦ Nat.zero_le _, fun hnot ↦
      absurd (fun _ ↦ Nat.zero_le _) hnot⟩

/-- Some of the input is written: what is left to write, and the room for it, shrink alike. -/
theorem write_spec (caps : Caps) (s : Session) (rest : List UInt8) (d : ℕ) :
    (rest.drop (s.room caps)).length + d ≤
        caps.stdin - (s.stdin ++ rest.take (s.room caps)).length ↔
      rest.length + d ≤ s.room caps := by
  rw [List.length_drop, List.length_append, List.length_take, room]
  omega

/-- **A step toward the next message** leaves the session free or blocked as it was; a session that
is blocked stays so. -/
theorem step_of_handles (hl : l.handles = true) (h : s.Pending) :
    ((s.step caps l).Free caps ↔ s.Free caps) ∧
      (¬ s.Free caps → (s.step caps l).Pending) := by
  cases l with simp only [step]
  | takeMessage =>
    split
    case h_1 m inbox hat hinbox =>
      have hany : (m :: inbox).any Message.isUrgent = true := hinbox ▸ h.2
      have hfree : s.Free caps ↔ s.Fits caps (demand s.control (m :: inbox)) := by
        rw [Free, hat, hinbox]
      rw [hfree]
      exact handle_spec (s := { s with inbox }) hat hany
    · exact ⟨Iff.rfl, fun _ ↦ h⟩
  | sent =>
    split
    case h_1 ev hat =>
      have hfree : s.Free caps ↔ s.broken = true ∨ s.out.length < caps.out ∧
          (ev.isFinal = true ∨ s.Fits caps (demand s.control s.inbox)) := by rw [Free, hat]
      split
      case isTrue hbroken =>
        exact ⟨iff_of_true trivial (hfree.2 (.inl hbroken)), fun hnot ↦
          absurd (hfree.2 (.inl hbroken)) hnot⟩
      case isFalse hbroken =>
        split
        case isTrue hroom =>
          split
          case isTrue hfinal =>
            have hs := hfree.2 (.inr ⟨hroom, .inl hfinal⟩)
            exact ⟨iff_of_true trivial hs, fun hnot ↦ absurd hs hnot⟩
          case isFalse hfinal =>
            refine ⟨?_, fun _ ↦ ⟨fun _ ↦ by simp, h.2⟩⟩
            rw [hfree]
            exact ⟨fun hfits ↦ .inr ⟨hroom, .inr hfits⟩, fun hor ↦
              (hor.resolve_left hbroken).2.resolve_left hfinal⟩
        · exact ⟨Iff.rfl, fun _ ↦ h⟩
    · exact ⟨Iff.rfl, fun _ ↦ h⟩
  | write =>
    split
    case h_1 rest hat =>
      have hfree : s.Free caps ↔ s.Fits caps (rest.length + demand s.control s.inbox) := by
        rw [Free, hat]
      rw [hfree]
      split
      case isTrue hdone =>
        refine ⟨?_, fun _ ↦ ⟨fun _ ↦ by simp, h.2⟩⟩
        rcases hdone with rfl | hreaders
        · rw [List.length_nil, Nat.zero_add]
          exact Iff.rfl
        · exact iff_of_true (fun hr ↦ absurd (hreaders.symm.trans hr) Bool.false_ne_true)
            fun hr ↦ absurd (hreaders.symm.trans hr) Bool.false_ne_true
      · refine ⟨?_, fun _ ↦ ⟨fun _ ↦ by simp, h.2⟩⟩
        exact forall_congr' fun _ ↦ write_spec caps s rest _
    · exact ⟨Iff.rfl, fun _ ↦ h⟩
  | _ => cases hl

/-- What is pending after such a step was pending before. -/
theorem pending_of_step (hl : l.handles = true) (h : (s.step caps l).Pending) : s.Pending := by
  cases l with simp only [step] at h
  | takeMessage =>
    split at h
    case h_1 m inbox hat hinbox =>
      refine ⟨fun _ ↦ by rw [hat]; simp, ?_⟩
      have hany := h.2
      rw [inbox_handle] at hany
      rw [hinbox, List.any_cons, Bool.or_eq_true]
      exact .inr hany
    · exact h
  | sent =>
    split at h
    case h_1 ev hat =>
      refine ⟨fun _ ↦ by rw [hat]; simp, ?_⟩
      split at h
      · exact absurd rfl (h.1 false)
      · split at h
        · split at h
          · exact absurd rfl (h.1 true)
          · exact h.2
        · exact h.2
    · exact h
  | write =>
    split at h
    case h_1 rest hat =>
      refine ⟨fun _ ↦ by rw [hat]; simp, ?_⟩
      split at h
      · exact h.2
      · exact h.2
    · exact h
  | _ => cases hl

/-! ### The session by itself -/

/-- How far the session is from having taken everything. -/
def ahead (s : Session) : ℕ :=
  3 * s.inbox.length + match s.at_ with
    | .idle => 0
    | .sending _ => 1
    | .writing rest => if rest = [] ∨ s.readers = false then 1 else 2
    | .over _ => 0

theorem ahead_le (s : Session) : s.ahead ≤ 3 * s.inbox.length + 2 := by
  unfold ahead
  split
  · omega
  · omega
  · split <;> omega
  · omega

/-- A session that nothing blocks goes on. -/
theorem exists_step (h : s.Pending) (hfree : s.Free caps) :
    ∃ l : Label, l.handles = true ∧ (s.step caps l).ahead < s.ahead := by
  cases hat : s.at_ with
  | idle =>
    refine ⟨.takeMessage, rfl, ?_⟩
    cases hinbox : s.inbox with
    | nil =>
      have hany := h.2
      rw [hinbox] at hany
      cases hany
    | cons m inbox =>
      have hle : ({ s with inbox }.handle m).ahead ≤ 3 * inbox.length + 2 :=
        (ahead_le _).trans (by rw [inbox_handle])
      have hnow : s.ahead = 3 * (inbox.length + 1) := by
        simp only [ahead, hat, hinbox, List.length_cons, Nat.add_zero]
      have hstep : s.step caps .takeMessage = { s with inbox }.handle m := by
        simp only [step, hat, hinbox]
      rw [hstep, hnow]
      have hlt : 3 * inbox.length + 2 < 3 * (inbox.length + 1) := by omega
      exact hle.trans_lt hlt
  | sending ev =>
    refine ⟨.sent, rfl, ?_⟩
    simp only [Free, hat] at hfree
    simp only [step, hat]
    split
    · simp only [ahead, finish, hat]
      omega
    case isFalse hbroken =>
      rw [if_pos (hfree.resolve_left hbroken).1]
      split
      · simp only [ahead, finish, hat]
        omega
      · simp only [ahead, hat]
        omega
  | writing rest =>
    refine ⟨.write, rfl, ?_⟩
    simp only [Free, hat] at hfree
    simp only [step, hat]
    split
    case isTrue hdone =>
      simp only [ahead, hat, if_pos hdone]
      omega
    case isFalse hdone =>
      have hreaders : s.readers = true := by
        by_contra hnot
        exact hdone (.inr (Bool.eq_false_iff.2 hnot))
      have hfits : rest.length ≤ s.room caps := (Nat.le_add_right _ _).trans (hfree hreaders)
      simp only [ahead, hat, if_neg hdone, List.drop_eq_nil_of_le hfits, true_or, if_true]
      omega
  | «over» finished => exact absurd hat (h.1 finished)

/-- **A session that nothing blocks** handles what is pending. -/
theorem Free.responsive (hfree : s.Free caps) : s.Responsive caps := by
  intro h
  induction hn : s.ahead using Nat.strong_induction_on generalizing s with
  | h n ih =>
  obtain ⟨l, hl, hlt⟩ := exists_step h hfree
  by_cases hpending : (s.step caps l).Pending
  · obtain ⟨ls, hls, hdone⟩ := ih _ (hn ▸ hlt) ((step_of_handles hl h).1.2 hfree) hpending rfl
    exact ⟨l :: ls, fun l' hl' ↦ (List.mem_cons.1 hl').elim (· ▸ hl) (hls l'), hdone⟩
  · exact ⟨[l], fun l' hl' ↦ List.mem_singleton.1 hl' ▸ hl, hpending⟩

/-- **A session is blocked or not**: it handles what is pending by itself exactly if it is not. -/
theorem responsive_iff : s.Responsive caps ↔ (s.Pending → s.Free caps) := by
  refine ⟨fun h hpending ↦ ?_, fun h hpending ↦ (h hpending).responsive hpending⟩
  by_contra hblocked
  obtain ⟨ls, hls, hdone⟩ := h hpending
  refine hdone ?_
  clear hdone h
  induction ls generalizing s with
  | nil => exact hpending
  | cons l ls ih =>
    obtain ⟨hiff, hstays⟩ := step_of_handles (hls l List.mem_cons_self) hpending
    exact ih (hstays hblocked) (fun hfree ↦ hblocked (hiff.1 hfree))
      fun l' hl' ↦ hls l' (List.mem_cons_of_mem l hl')

/-- **One step**: what is pending can still be handled, if the step is careful. -/
theorem free_step (h : s.Pending → s.Free caps) (hl : Careful caps s l) :
    (s.step caps l).Pending → (s.step caps l).Free caps := by
  by_cases hhandles : l.handles = true
  · intro hpending
    have hbefore := pending_of_step hhandles hpending
    exact (step_of_handles hhandles hbefore).1.2 (h hbefore)
  cases l with
  | takeEvent =>
    simp only [step]
    split
    case h_1 hat =>
      split
      case h_1 ev _ hqueue =>
        intro hpending
        have hbefore : s.Pending := ⟨fun _ ↦ by rw [hat]; simp, hpending.2⟩
        have hfree := h hbefore
        simp only [Free, hat] at hfree
        exact (hl hbefore).imp_right fun hroom ↦ ⟨hroom, .inr hfree⟩
      · split
        · exact fun hpending ↦ absurd rfl (hpending.1 true)
        · exact h
    · exact h
  | act a =>
    simp only [step]
    split
    · exact h
    · exact fun hpending ↦ (h hpending).mono rfl rfl le_rfl (fun h ↦ h) le_rfl fun h ↦ h
  | childReads n =>
    exact fun hpending ↦ (h hpending).mono rfl rfl (by rw [step, List.length_drop]; omega)
      (fun h ↦ h) le_rfl fun h ↦ h
  | childCloses =>
    exact fun hpending ↦ (h hpending).mono rfl rfl le_rfl (fun h ↦ by cases h) le_rfl fun h ↦ h
  | receive m =>
    simp only [step]
    split
    case isTrue hroom =>
      intro hpending
      cases hm : m.isUrgent with
      | true => exact hl hm
      | false =>
        have hany : s.inbox.any Message.isUrgent = true := by
          have hany := hpending.2
          simpa [hm] using hany
        exact (h ⟨hpending.1, hany⟩).mono rfl (demand_concat hm _ _) le_rfl (fun h ↦ h) le_rfl
          fun h ↦ h
    · exact h
  | clientReads =>
    exact fun hpending ↦ (h hpending).mono rfl rfl le_rfl (fun h ↦ h)
      (by rw [step, List.length_tail]; exact Nat.sub_le _ _) fun h ↦ h
  | breaks => exact fun _ ↦ hl
  | _ => exact absurd rfl hhandles

/-- **A kill or a disconnect is handled** by the session itself, whatever the command and the client
do, in every run in which it is received when nothing blocks the session. -/
theorem handles_of_reachable (caps : Caps)
    (h : ((system caps).restrict (Careful caps)).Reachable s) : s.Responsive caps := by
  refine responsive_iff.2 (h.invariant (I := fun s ↦ s.Pending → s.Free caps) (fun s hs ↦ ?_) ?_)
  · obtain ⟨control, pid, rfl⟩ := hs
    rintro ⟨-, hany⟩
    cases hany
  · rintro s l t - hfree ⟨hl, rfl⟩
    exact free_step hfree hl

/-! ### Runs -/

/-- What fits in a pipe of Linux; one event on its way to the client. -/
def caps₁ : Caps := ⟨65536, 1, 64⟩

/-- Two bytes are to be written when a kill arrives. -/
def kills : List Label :=
  [.sent, .clientReads, .receive (.text (some (.stdin [1, 2]))), .takeMessage,
    .receive (.text (some (.kill none)))]

theorem reachable_start (caps : Caps) (control : Control) (pid : ℕ) :
    (system caps).Reachable (start control pid) := .start ⟨control, pid, rfl⟩

theorem handles_of_reachable_kills :
    ∃ ls : List Label, (∀ l ∈ ls, l.handles = true) ∧
      ¬ (ls.foldl (step caps₁) (kills.foldl (step caps₁) (start (.pipe true) 7))).Pending := by
  have hrun : ((system caps₁).restrict (Careful caps₁)).Reachable
      (kills.foldl (step caps₁) (start (.pipe true) 7)) := by
    refine .foldl_of_allMeet (S := system caps₁) (fun _ _ ↦ rfl) (.start ⟨_, _, rfl⟩)
      ⟨trivial, trivial, fun hurgent ↦ absurd hurgent Bool.false_ne_true, trivial, fun _ ↦ ?_,
        trivial⟩
    exact fun _ ↦ by decide
  exact handles_of_reachable caps₁ hrun ⟨fun _ ↦ by simp [kills, step, start, handle,
    Control.accepts, ExecEvent.isFinal, caps₁], rfl⟩

/-- The client sends more than fits in a pipe, and then a kill, to a command that does not read. -/
def childStops : List Label :=
  [.sent, .clientReads, .receive (.text (some (.stdin (List.replicate 65537 0)))), .takeMessage,
    .receive (.text (some (.kill none)))]

/-- The client does not read, and sends a kill. -/
def clientStops : List Label :=
  [.sent, .act (.write .stdout [0]), .act (.read .stdout 1), .act (.send .stdout), .takeEvent,
    .receive (.text (some (.kill none)))]

/-- A command that does not read its input, and a client that does not read the output, can each
leave a kill unhandled. -/
theorem not_handles :
    (¬ ∀ caps s, (system caps).Reachable s → s.out = [] → s.Responsive caps) ∧
      ¬ ∀ caps s, (system caps).Reachable s → s.stdin = [] → (∀ rest, s.at_ ≠ .writing rest) →
        s.Responsive caps := by
  constructor
  · intro h
    have hrun : (system caps₁).Reachable (childStops.foldl (step caps₁) (start (.pipe true) 7)) :=
      (reachable_start caps₁ _ _).foldl (fun _ _ ↦ rfl) _
    have hat : childStops.foldl (step caps₁) (start (.pipe true) 7) =
        { start (.pipe true) 7 with
          at_ := .writing (List.replicate 65537 0)
          inbox := [.text (some (.kill none))] } := rfl
    rw [hat] at hrun
    have hover : ∀ finished, At.writing (List.replicate 65537 0) ≠ .over finished := fun _ h ↦ by
      cases h
    have hfree := responsive_iff.1 (h _ _ hrun rfl) ⟨hover, rfl⟩ rfl
    rw [List.length_replicate] at hfree
    exact absurd hfree (by decide)
  · intro h
    have hrun : (system caps₁).Reachable (clientStops.foldl (step caps₁) (start (.pipe true) 7)) :=
      (reachable_start caps₁ _ _).foldl (fun _ _ ↦ rfl) _
    have hat : (clientStops.foldl (step caps₁) (start (.pipe true) 7)).at_ = .sending (.stdout [0]) :=
      rfl
    have hfree := responsive_iff.1 (h _ _ hrun rfl fun _ ↦ by rw [hat]; simp)
      ⟨fun _ ↦ by rw [hat]; simp, rfl⟩
    rw [Free, hat] at hfree
    rcases hfree with hbroken | ⟨hroom, -⟩
    · exact absurd hbroken (by decide)
    · exact absurd hroom (by decide)

end Session

end Ember.Node.ExecSession
