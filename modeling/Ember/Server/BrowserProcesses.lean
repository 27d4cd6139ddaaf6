import Ember.Server.Browser

/-!
# The Chrome processes of a project's browser

`browser/instance.rs`: one Chrome at a time may use a profile directory. The instance keeps the
running Chrome behind a lock, which `ensure_running` holds while it starts one; but `stop` takes the
process out of the lock and waits for it to exit without holding it, and `clear_data` removes the
directory after that, also without it.

A Chrome that was not started completely is killed when it is dropped, and one that does not close
is killed too: a process that was killed has exited.

## What is proved

* `single_of_reachable` — where no Chrome is started, and no profile removed, while a process that
  was taken out of the lock is still closing, and no profile is removed after `ensure_running` has
  started a Chrome, there is at most one process, and the directory is removed only when there is
  none.
* `not_single` — a start, and a removal, while a `stop` waits.
-/

namespace Ember.Server.BrowserProcesses

open Browser (Egress Found)
open StepSystem

/-- `BrowserInstance`, as far as its processes depend on it. -/
structure BrowserInstance where
  /-- The egress the user chose. -/
  choice : Egress
  /-- The proxy Chrome was last started with. -/
  egress : Option String
  /-- The process in the lock. -/
  run : Option ℕ
  /-- `ensure_running` has the lock. -/
  held : Bool
  /-- The processes that were started and have not exited. -/
  alive : List ℕ
  /-- How many processes were started. -/
  started : ℕ
  /-- The profile was removed while there was a process. -/
  spoilt : Bool
  deriving DecidableEq

/-- What calls there are. -/
inductive Call
  | ensureRunning
  | switchEgress (egress : Egress)
  | stop
  | clearData
  deriving DecidableEq

/-- What a call does after `stop`. -/
inductive After
  | done
  | start
  | wipe (wasRunning : Bool)
  deriving DecidableEq

/-- What is left of a call. -/
inductive Todo
  | call (c : Call)
  /-- `switch_egress` has resolved the egress. -/
  | checking (egress : Egress) (proxy : Option String)
  | changing (egress : Egress)
  /-- `stop` waits for the lock. -/
  | stopping (after : After)
  /-- `stop_running`, on a process that was taken out of the lock. -/
  | closing (p : ℕ) (after : After)
  /-- `ensure_running` waits for the lock. -/
  | ensuring
  /-- `stop_running`, on a process that does not answer, with the lock held. -/
  | replacing (p : ℕ)
  | launching
  /-- The process was started with this proxy, and does not answer yet. -/
  | starting (p : ℕ) (proxy : Option String)
  | wiping (wasRunning : Bool)
  deriving DecidableEq

/-- What happens besides the calls. -/
inductive Event
  | exits (p : ℕ)
  deriving DecidableEq

/-- A call whose `stop` is done goes on. -/
def After.todo : After → Option Todo
  | .done => none
  | .start => some .ensuring
  | .wipe wasRunning => some (.wiping wasRunning)

namespace BrowserInstance

/-- No Chrome was started. -/
def new (choice : Egress) : BrowserInstance := ⟨choice, none, none, false, [], 0, false⟩

/-- A process has exited. -/
def exits (b : BrowserInstance) (p : ℕ) : BrowserInstance :=
  { b with alive := b.alive.filter fun q ↦ q ≠ p }

/-- One step of a call. A call that waits for the lock, or for a process, may take its step at any
later time. -/
def step (b : BrowserInstance) (todo : Todo) (d : Found) : BrowserInstance × Option Todo :=
  match todo with
  | .call .ensureRunning => (b, some .ensuring)
  | .call .stop => (b, some (.stopping .done))
  | .call (.switchEgress egress) =>
    match d.resolveEgress egress with
    | none => (b, none)
    | some proxy => (b, some (.checking egress proxy))
  | .call .clearData =>
    if b.held then (b, some (.call .clearData)) else (b, some (.stopping (.wipe b.run.isSome)))
  | .checking egress proxy =>
    if b.held then (b, some (.checking egress proxy))
    else if b.run.isSome ∧ b.choice = egress ∧ b.egress = proxy then (b, some .ensuring)
    else (b, some (.changing egress))
  | .changing egress => ({ b with choice := egress }, some (.stopping .start))
  | .stopping after =>
    if b.held then (b, some (.stopping after))
    else
      match b.run with
      | some p => ({ b with run := none }, some (.closing p after))
      | none => (b, after.todo)
  | .closing p after => (b.exits p, after.todo)
  | .ensuring =>
    if b.held then (b, some .ensuring)
    else
      match b.run with
      | some p =>
        if d.ok ∧ p ∈ b.alive then (b, none)
        else ({ b with run := none, held := true }, some (.replacing p))
      | none => ({ b with held := true }, some .launching)
  | .replacing p => (b.exits p, some .launching)
  | .launching =>
    match d.resolveEgress b.choice with
    | none => ({ b with held := false }, none)
    | some proxy =>
      if d.ok then
        ({ b with alive := b.started :: b.alive, started := b.started + 1 },
          some (.starting b.started proxy))
      else ({ b with held := false }, none)
  | .starting p proxy =>
    if d.ok then ({ b with run := some p, held := false, egress := proxy }, none)
    else ({ b.exits p with held := false }, none)
  | .wiping wasRunning =>
    ({ b with spoilt := b.spoilt || !b.alive.isEmpty },
      if d.ok ∧ wasRunning then some .ensuring else none)

/-- What happens besides the calls. -/
def happen (b : BrowserInstance) : Event → BrowserInstance
  | .exits p => b.exits p

/-- The calls on one instance. -/
def program : Program BrowserInstance Call Todo Found Event where
  enter := .call
  step := step
  env := happen

/-- At most one process, and the profile was removed only when there was none. -/
def Single (b : BrowserInstance) : Prop := b.alive.length ≤ 1 ∧ b.spoilt = false

end BrowserInstance

open BrowserInstance

/-- The process a call has in its hands. -/
def Todo.chrome : Todo → Option ℕ
  | .closing p _ | .replacing p | .starting p _ => some p
  | _ => none

/-- The call has the lock. -/
def Todo.holds : Todo → Bool
  | .replacing _ | .launching | .starting .. => true
  | _ => false

/-- No call is closing a process that it took out of the lock, or it has exited. -/
def NoneClosing (w : Calls BrowserInstance Todo) : Prop :=
  ∀ i p after, w.call i = some (.closing p after) → p ∉ w.shared.alive

/-- The Chrome in the lock has exited, if there is one, and no call has one that it starts or
replaces. -/
structure NoneStarted (w : Calls BrowserInstance Todo) : Prop where
  run : ∀ p, w.shared.run = some p → p ∉ w.shared.alive
  replacing : ∀ i p, w.call i = some (.replacing p) → p ∉ w.shared.alive
  starting : ∀ i p proxy, w.call i = some (.starting p proxy) → p ∉ w.shared.alive

/-- **Where the calls keep out of each other's way**: Chrome is started, and the profile removed,
only when no process is being closed; and the profile is removed only when no `ensure_running` has
started a Chrome since. -/
def Apart (w : Calls BrowserInstance Todo) : CallAct Call Found Event → Prop
  | .step i _ =>
    match w.call i with
    | some .launching => NoneClosing w
    | some (.wiping _) => NoneClosing w ∧ NoneStarted w
    | _ => True
  | _ => True

variable {w : Calls BrowserInstance Todo} {choice : Egress}

/-! ### The lock -/

theorem after_holds {after : After} {q : Todo} (hq : q ∈ after.todo) :
    q.holds = false ∧ q.chrome = none := by
  cases after with
  | done => cases hq
  | start | wipe => exact Option.some.inj hq ▸ ⟨rfl, rfl⟩

variable {b : BrowserInstance} {todo : Todo} {d : Found}

/-- A call that does not have the lock leaves it alone, or takes it where it is free. -/
theorem held_step (hno : todo.holds = false) :
    (b.step todo d).1.held = b.held ∧ (∀ q ∈ (b.step todo d).2, q.holds = false) ∨
      b.held = false ∧ (b.step todo d).1.held = true := by
  cases todo with
  | call c =>
    cases c with
    | ensureRunning | stop => exact .inl ⟨rfl, fun q hq ↦ Option.some.inj hq ▸ rfl⟩
    | switchEgress egress =>
      simp only [BrowserInstance.step]
      split
      · exact .inl ⟨rfl, fun q hq ↦ (by cases hq)⟩
      · exact .inl ⟨rfl, fun q hq ↦ Option.some.inj hq ▸ rfl⟩
    | clearData =>
      simp only [BrowserInstance.step]
      split <;> exact .inl ⟨rfl, fun q hq ↦ Option.some.inj hq ▸ rfl⟩
  | checking egress proxy =>
    simp only [BrowserInstance.step]
    split_ifs <;> exact .inl ⟨rfl, fun q hq ↦ Option.some.inj hq ▸ rfl⟩
  | changing egress => exact .inl ⟨rfl, fun q hq ↦ Option.some.inj hq ▸ rfl⟩
  | stopping after =>
    simp only [BrowserInstance.step]
    split_ifs
    · exact .inl ⟨rfl, fun q hq ↦ Option.some.inj hq ▸ rfl⟩
    · split
      · exact .inl ⟨rfl, fun q hq ↦ Option.some.inj hq ▸ rfl⟩
      · exact .inl ⟨rfl, fun q hq ↦ (after_holds hq).1⟩
  | closing p after => exact .inl ⟨rfl, fun q hq ↦ (after_holds hq).1⟩
  | ensuring =>
    simp only [BrowserInstance.step]
    split_ifs with hheld
    · exact .inl ⟨rfl, fun q hq ↦ Option.some.inj hq ▸ rfl⟩
    · split
      · split_ifs
        · exact .inl ⟨rfl, fun q hq ↦ (by cases hq)⟩
        · exact .inr ⟨by simpa using hheld, rfl⟩
      · exact .inr ⟨by simpa using hheld, rfl⟩
  | wiping wasRunning =>
    refine .inl ⟨rfl, fun q hq ↦ ?_⟩
    simp only [BrowserInstance.step] at hq
    split_ifs at hq
    · obtain rfl := Option.some.inj hq
      rfl
    · cases hq
  | replacing | launching | starting => cases hno

/-- A call that has the lock keeps it, or gives it back and is done. -/
theorem holds_step (hhas : todo.holds = true) :
    ∀ q ∈ (b.step todo d).2, q.holds = true ∧ (b.step todo d).1.held = b.held := by
  intro q hq
  cases todo with
  | replacing p => exact Option.some.inj hq ▸ ⟨rfl, rfl⟩
  | launching =>
    simp only [BrowserInstance.step] at hq ⊢
    split at hq
    · cases hq
    · split_ifs at hq ⊢
      · exact Option.some.inj hq ▸ ⟨rfl, rfl⟩
      · cases hq
  | starting p proxy =>
    simp only [BrowserInstance.step] at hq
    split_ifs at hq <;> cases hq
  | _ => cases hhas

theorem guards : Calls.Guards program (fun b ↦ b.held = true)
    (fun todo : Todo ↦ todo.holds = true) where
  enter c := by cases c <;> exact Bool.false_ne_true
  env b e hheld := by cases e; exact hheld
  take b todo d hno q hq hholds hheld := by
    obtain ⟨-, hnone⟩ | ⟨hfree, -⟩ := held_step (b := b) (d := d) (Bool.eq_false_iff.2 hno)
    · rw [hnone q hq] at hholds
      cases hholds
    · rw [hfree] at hheld
      cases hheld
  taken b todo d hhas q hq hholds := by
    cases hto : todo.holds with
    | true => exact (holds_step hto q hq).2.trans (hhas hto)
    | false =>
      obtain ⟨-, hnone⟩ | ⟨-, htaken⟩ := held_step (b := b) (d := d) hto
      · rw [hnone q hq] at hholds
        cases hholds
      · exact htaken
  keep b todo d hno hheld := by
    obtain ⟨hsame, -⟩ | ⟨-, htaken⟩ := held_step (b := b) (d := d) (Bool.eq_false_iff.2 hno)
    · exact hsame.trans hheld
    · exact htaken

/-- While a start is under way nothing is in the lock. -/
theorem run_of_held (h : ((Calls.system program (new choice)).restrict Apart).Reachable w)
    (hheld : w.shared.held = true) : w.shared.run = none := by
  refine (Calls.invariant (P := program) (I := fun b ↦ b.held = true → b.run = none)
    (J := fun _ _ ↦ True) (fun _ ↦ rfl) (fun _ _ _ ↦ trivial)
    (fun w e _ hI ↦ ⟨by cases e; exact hI, fun _ _ ↦ trivial⟩)
    (fun w i d todo _ _ hI _ ↦ ⟨?_, fun _ _ ↦ trivial, fun _ _ _ _ ↦ trivial⟩) h).1 hheld
  show (w.shared.step todo d).1.held = true → (w.shared.step todo d).1.run = none
  cases todo with simp only [BrowserInstance.step]
  | call c =>
    cases c with
    | switchEgress | clearData =>
      simp only [BrowserInstance.step]
      split <;> exact hI
    | _ => exact hI
  | stopping after =>
    split_ifs
    · exact hI
    · split
      · exact fun _ ↦ rfl
      · exact hI
  | ensuring =>
    split_ifs
    · exact hI
    · split
      case h_1 =>
        split_ifs
        · exact hI
        · exact fun _ ↦ rfl
      case h_2 hrun => exact fun _ ↦ hrun
  | launching =>
    split
    · exact fun hheld ↦ absurd hheld (by simp)
    · split_ifs
      · exact hI
      · exact fun hheld ↦ absurd hheld (by simp)
  | starting p proxy =>
    split_ifs <;> exact fun hheld ↦ absurd hheld (by simp)
  | checking egress proxy =>
    split_ifs <;> exact hI
  | _ => exact hI

/-! ### The processes -/

/-- A process that has not exited, and is not the one in the lock. -/
def Stray (b : BrowserInstance) (p : ℕ) : Prop := p ∈ b.alive ∧ b.run ≠ some p

theorem mem_exits {p q : ℕ} :
    q ∈ (b.exits p).alive ↔ q ∈ b.alive ∧ q ≠ p := by
  simp [exits]

section

variable (h : ((Calls.system program (new choice)).restrict Apart).Reachable w)
include h

/-- **A process that is not in the lock is in the hands of a call.** -/
theorem stray_of_run {p : ℕ}
    (hp : Stray w.shared p) : ∃ i todo, w.call i = some todo ∧ todo.chrome = some p := by
  refine Calls.owed_of_run (P := program) (W := Stray) (O := fun todo p ↦ todo.chrome = some p)
    (fun p hp ↦ absurd hp.1 List.not_mem_nil) (fun w e p _ hp ↦ ?_)
    (fun w i d todo p hw _ htodo hp ↦ ?_) h hp
  · cases e with
    | exits q => exact ⟨(mem_exits.1 hp.1).1, hp.2⟩
  have hp : Stray (w.shared.step todo d).1 p := hp
  show _ ∨ (∃ q ∈ (w.shared.step todo d).2, _) ∨ _
  cases todo with
  | call c =>
    cases c with
    | switchEgress | clearData =>
      simp only [BrowserInstance.step] at hp
      split at hp <;> exact .inl ⟨hp, fun hno ↦ (by cases hno)⟩
    | _ => exact .inl ⟨hp, fun hno ↦ (by cases hno)⟩
  | checking egress proxy =>
    simp only [BrowserInstance.step] at hp
    split_ifs at hp <;> exact .inl ⟨hp, fun hno ↦ (by cases hno)⟩
  | changing | wiping => exact .inl ⟨hp, fun hno ↦ (by cases hno)⟩
  | stopping after =>
    simp only [BrowserInstance.step] at hp ⊢
    split_ifs at hp ⊢
    · exact .inl ⟨hp, fun hno ↦ (by cases hno)⟩
    · split at hp
      case h_1 q hrun =>
        -- what was in the lock is in the hands of this call now
        by_cases heq : p = q
        · exact .inr (.inl ⟨.closing q after, rfl, by rw [heq]; rfl⟩)
        · refine .inl ⟨⟨hp.1, fun hsome ↦ heq ?_⟩, fun hno ↦ (by cases hno)⟩
          exact Option.some.inj (hsome.symm.trans hrun)
      case h_2 => exact .inl ⟨hp, fun hno ↦ (by cases hno)⟩
  | closing | replacing =>
    obtain ⟨hmem, hne⟩ := mem_exits.1 hp.1
    exact .inl ⟨⟨hmem, hp.2⟩, fun heq ↦ hne (Option.some.inj heq).symm⟩
  | ensuring =>
    simp only [BrowserInstance.step] at hp ⊢
    split_ifs at hp ⊢ with hheld
    · exact .inl ⟨hp, fun hno ↦ (by cases hno)⟩
    · cases hrun : w.shared.run with
      | none =>
        simp only [hrun] at hp
        refine .inl ⟨⟨hp.1, fun hsome ↦ ?_⟩, fun hno ↦ (by cases hno)⟩
        rw [hrun] at hsome
        cases hsome
      | some q =>
        simp only [hrun] at hp ⊢
        split_ifs at hp ⊢
        · exact .inl ⟨hp, fun hno ↦ (by cases hno)⟩
        · by_cases heq : p = q
          · exact .inr (.inl ⟨.replacing q, rfl, by rw [heq]; rfl⟩)
          · refine .inl ⟨⟨hp.1, fun hsome ↦ heq ?_⟩, fun hno ↦ (by cases hno)⟩
            exact Option.some.inj (hsome.symm.trans hrun)
  | launching =>
    simp only [BrowserInstance.step] at hp ⊢
    split at hp
    case h_1 => exact .inl ⟨hp, fun hno ↦ (by cases hno)⟩
    case h_2 proxy hproxy =>
      split_ifs at hp ⊢
      · rcases List.mem_cons.1 hp.1 with rfl | hmem
        · exact .inr (.inl ⟨_, rfl, rfl⟩)
        · exact .inl ⟨⟨hmem, hp.2⟩, fun hno ↦ (by cases hno)⟩
      · exact .inl ⟨hp, fun hno ↦ (by cases hno)⟩
  | starting q proxy =>
    have hheld := (guards.exclusive hw.of_restrict).1 i _ htodo rfl
    have hrun : w.shared.run ≠ some p := by
      rw [run_of_held hw hheld]
      exact (Option.some_ne_none p).symm
    simp only [BrowserInstance.step] at hp
    split_ifs at hp
    · exact .inl ⟨⟨hp.1, hrun⟩, fun heq ↦ hp.2 heq⟩
    · obtain ⟨hmem, hne⟩ := mem_exits.1 hp.1
      exact .inl ⟨⟨hmem, hrun⟩, fun heq ↦ hne (Option.some.inj heq).symm⟩

/-- Where no process is being closed, and every other one has exited, there is none. -/
theorem alive_eq_nil
    (hclosing : NoneClosing w) (hstarted : NoneStarted w) : w.shared.alive = [] := by
  refine List.eq_nil_iff_forall_not_mem.2 fun p hp ↦ ?_
  obtain ⟨i, todo, htodo, hchrome⟩ := stray_of_run h ⟨hp, fun hrun ↦ hstarted.run p hrun hp⟩
  cases todo with
  | closing q after =>
    obtain rfl := Option.some.inj hchrome
    exact hclosing i q after htodo hp
  | replacing q =>
    obtain rfl := Option.some.inj hchrome
    exact hstarted.replacing i q htodo hp
  | starting q proxy =>
    obtain rfl := Option.some.inj hchrome
    exact hstarted.starting i q proxy htodo hp
  | _ => cases hchrome

/-- A call that is about to start Chrome has the lock, so no other call has one. -/
theorem noneStarted_of_launching {i : ℕ} (hi : w.call i = some .launching) : NoneStarted w := by
  obtain ⟨hheld, hone⟩ := guards.exclusive h.of_restrict
  refine ⟨fun p hp ↦ ?_, fun j p hj ↦ ?_, fun j p proxy hj ↦ ?_⟩
  · rw [run_of_held h (hheld i _ hi rfl)] at hp
    cases hp
  · obtain rfl := hone i j _ _ hi hj rfl rfl
    cases hi.symm.trans hj
  · obtain rfl := hone i j _ _ hi hj rfl rfl
    cases hi.symm.trans hj

end

/-- A step that starts no Chrome and removes no profile adds no process. -/
theorem single_step (hb : b.Single) (hlaunch : todo = .launching → b.alive = [])
    (hwipe : ∀ r, todo = .wiping r → b.alive = []) :
    (b.step todo d).1.Single := by
  have hexits : ∀ p, (b.exits p).Single := fun p ↦
    ⟨(List.length_filter_le _ _).trans hb.1, hb.2⟩
  cases todo with simp only [BrowserInstance.step]
  | call c =>
    cases c with
    | switchEgress | clearData =>
      simp only [BrowserInstance.step]
      split <;> exact hb
    | _ => exact hb
  | checking egress proxy =>
    split_ifs <;> exact hb
  | changing egress => exact hb
  | stopping after =>
    split_ifs
    · exact hb
    · split <;> exact hb
  | closing p _ | replacing p => exact hexits p
  | ensuring =>
    split_ifs
    · exact hb
    · split
      · split_ifs <;> exact hb
      · exact hb
  | launching =>
    split
    · exact hb
    · split_ifs
      · exact ⟨by rw [hlaunch rfl]; exact le_rfl, hb.2⟩
      · exact hb
  | starting p proxy =>
    split_ifs
    · exact hb
    · exact hexits p
  | wiping wasRunning => exact ⟨hb.1, by simp [BrowserInstance.step, hwipe wasRunning rfl, hb.2]⟩

/-- **One Chrome at a time.** In every run in which Chrome is started, and the profile removed, only
when no process is being closed, and the profile is removed only when no Chrome runs or is being
started, there is at most one process, and the profile is removed only when there is none. -/
theorem single_of_reachable (choice : Egress) (w : Calls BrowserInstance Todo)
    (h : ((Calls.system program (new choice)).restrict Apart).Reachable w) : w.shared.Single := by
  refine h.invariant (I := fun w ↦ w.shared.Single) (fun w hw ↦ ?_) fun w l w' hw hsingle hl ↦ ?_
  · obtain rfl : w = Calls.idle (new choice) := hw
    exact ⟨Nat.zero_le _, rfl⟩
  obtain ⟨hapart, rfl⟩ := hl
  cases l with
  | start i c =>
    rw [Calls.shared_start]
    exact hsingle
  | env e =>
    cases e with
    | exits p => exact ⟨(List.length_filter_le _ _).trans hsingle.1, hsingle.2⟩
  | step i d =>
    cases htodo : w.call i with
    | none =>
      rw [Calls.act_step_of_none htodo]
      exact hsingle
    | some todo =>
      rw [Calls.act_step htodo]
      simp only [Apart, htodo] at hapart
      refine single_step hsingle (fun heq ↦ ?_) fun r heq ↦ ?_
      · subst heq
        exact alive_eq_nil hw hapart (noneStarted_of_launching hw htodo)
      · subst heq
        exact alive_eq_nil hw hapart.1 hapart.2

/-- Every step succeeds. -/
def fine : Found := ⟨fun _ ↦ none, true⟩

/-- Someone opens the browser and clears its data: Chrome is closed, and then started again. -/
def clearsData : List (CallAct Call Found Event) :=
  [.start 0 .ensureRunning, .step 0 fine, .step 0 fine, .step 0 fine, .step 0 fine,
    .start 1 .clearData, .step 1 fine, .step 1 fine, .step 1 fine, .step 1 fine, .step 1 fine,
    .step 1 fine, .step 1 fine]

theorem single_clearsData :
    Single (clearsData.foldl (Calls.act program) (Calls.idle (new .direct))).shared := by
  refine single_of_reachable .direct _ (.foldl_of_allMeet (S := Calls.system program (new .direct))
    (fun _ _ ↦ rfl) (.start rfl) ⟨trivial, trivial, trivial, ?_, trivial, trivial, trivial, trivial,
      trivial, ⟨?_, ?_, ?_, ?_⟩, trivial, ?_, trivial, trivial⟩)
  · exact fun i p after _ hp ↦ (by cases hp)
  · exact fun i p after _ hp ↦ (by cases hp)
  · exact fun p _ hp ↦ (by cases hp)
  · exact fun i p _ hp ↦ (by cases hp)
  · exact fun i p proxy _ hp ↦ (by cases hp)
  · exact fun i p after _ hp ↦ (by cases hp)

/-- Someone opens the browser and stops it, and Chrome is closing. -/
def closes : List (CallAct Call Found Event) :=
  [.start 0 .ensureRunning, .step 0 fine, .step 0 fine, .step 0 fine, .step 0 fine,
    .start 1 .stop, .step 1 fine, .step 1 fine]

/-- While the first Chrome is closing, a viewer that connects starts another, and `clear_data`
removes the profile. -/
theorem not_single :
    (¬ ∀ choice w, (Calls.system program (new choice)).Reachable w → w.shared.alive.length ≤ 1) ∧
      ¬ ∀ choice w, (Calls.system program (new choice)).Reachable w → w.shared.spoilt = false := by
  refine ⟨fun h ↦ ?_, fun h ↦ ?_⟩
  · have hone := h .direct _ (reachable_foldl
      (closes ++ [.start 2 .ensureRunning, .step 2 fine, .step 2 fine, .step 2 fine]))
    exact absurd hone (by decide)
  · have hkept := h .direct _ (reachable_foldl
      (closes ++ [.start 2 .clearData, .step 2 fine, .step 2 fine, .step 2 fine]))
    exact absurd hkept (by decide)

end Ember.Server.BrowserProcesses
