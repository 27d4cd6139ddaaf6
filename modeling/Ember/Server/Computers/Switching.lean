import Ember.Server.Computers.Locks

/-!
# Switching a session to another computer

`Computers::switch` looks once whether the session is busy, and then records the computer, stops the
agent and leaves the mount in steps of their own. `Orderly` is what it is meant to keep: it stops no
agent during a turn, and between operations an agent that works on a mounted project was started for
the recorded computer and has its mount. Both fail when something slips in between, and `Considerate`
says what must not.

`Does` is the step relation read for this: most steps only take a task on (`Flows`) and change
nothing else that counts (`Agrees`); the others are named. The invariants are then cases on `Does`.
The central one is that a session is `Settled`, or a switch of it has yet to take its agent out
(`Pending`).
-/

namespace Ember.Server.Computers

namespace SendAt

/-- In `ensure_live`. -/
def starts : SendAt → Bool
  | .running _ | .told _ => false
  | _ => true

/-- In `ensure_live`, having found no live agent. -/
def cold : SendAt → Bool
  | .waitsLive | .running _ | .told _ => false
  | _ => true

/-- Through with the mounts. -/
def pastMount : SendAt → Bool
  | .mounted true | .starting | .spawning _ => true
  | _ => false

/-- The computer such a start has read and goes by. -/
def reads : SendAt → Option (Option Computer)
  | .waitsEntries c | .spawning c => some c
  | _ => none

end SendAt

namespace SwitchAt

/-- Between its busy check and the end of the agent's shutdown. -/
def stops : SwitchAt → Bool
  | .checked | .recorded | .waitsLive | .stopping _ => true
  | _ => false

/-- It has recorded the computer and not yet taken the agent out. -/
def pending : SwitchAt → Bool
  | .recorded | .waitsLive => true
  | _ => false

end SwitchAt

/-- What a sweep has asked about so far. -/
def SweepAt.asked : SweepAt → List (String × Bool)
  | .asking asked | .waitsLive asked _ => asked
  | _ => []

/-- What counts of an agent: its session and computer stay, and what runs no turn runs none. -/
structure Agent.Calms (a a' : Agent) : Prop where
  session : a'.session = a.session
  computer : a'.computer = a.computer
  turns : a.turns = 0 → a'.turns = 0

theorem Agent.Calms.refl (a : Agent) : a.Calms a := ⟨rfl, rfl, id⟩

variable {at_ : SendAt} {t' t : Option Task} {j g : ℕ} {u : String} {mounts : ProjectMounts}
  {e : Event} {m : Fleet}

namespace Fleet

/-- A start of the session is in progress. -/
def Starting (w : Fleet) (s : String) : Prop :=
  ∃ i at_, w.tasks i = some (.send s at_) ∧ at_.starts

/-- A switch of the session is in progress. -/
def Switching (w : Fleet) (s : String) : Prop :=
  ∃ i target at_, w.tasks i = some (.switch s target at_)

/-- No switch stops an agent during a turn; and while no switch or start of a session is in progress,
a live agent of it that works on a mounted project was started for the session's computer and, where
that is a node, the session uses a mount of it that covers its cwd. -/
structure Orderly (about : String → SessionInfo) (w : Fleet) : Prop where
  calmly : ∀ i s target g, w.tasks i = some (.switch s target (.stopping (some g))) →
    ∃ a, w.agents g = some a ∧ a.turns = 0
  placed : ∀ s g, ¬ w.Switching s → ¬ w.Starting s → w.live s = some g →
    mountsProject (about s).agent → ∃ a, w.agents g = some a ∧ a.computer = w.computers s ∧
      ∀ c, w.computers s = some c → ∃ e ∈ w.mounts.entries,
        e.covers (about s).cwd.components ∧ e.computerId = c.id ∧ s ∈ e.users

/-- Nothing slips into a switch: its busy check passes only while no turn of the session's agent
runs; until the agent is stopped it is given no text; and where the session is on a node, the switch
leaves its mount only while no agent of it is live or about to be. Nor does the server shut its mounts
down. -/
def Considerate (about : String → SessionInfo) (w : Fleet) : Event → Prop
  | .switch i s _ => w.tasks i = none → isBusy (w.status s) = false →
      ∀ g a, w.live s = some g → w.agents g = some a → a.turns = 0
  | .act i d =>
    match w.tasks i with
    | some (.send _ (.told g)) => d.ok → ∀ a, w.agents g = some a → a.up →
        ∀ j target at_, w.tasks j = some (.switch a.session target at_) → at_.stops = false
    | some (.switch s _ .waitsEntries) => w.entriesLock.holder = some i →
        (w.computers s).isSome → mountsProject (about s).agent → w.live s = none ∧
          ∀ j at_, w.tasks j = some (.send s at_) → at_ ≠ .starting ∧ ∀ c, at_ ≠ .spawning c
    | some (.shutdown false) => w.entriesLock.holder ≠ some i
    | _ => True
  | _ => True

/-! ### What a step does -/

/-- Nothing that counts here changes, but what the tasks do. -/
structure Agrees (w w' : Fleet) : Prop where
  live : w'.live = w.live
  agents : ∀ g, Option.Rel Agent.Calms (w.agents g) (w'.agents g)
  generation : w'.generation = w.generation
  computers : w'.computers = w.computers
  mounts : w'.mounts.entries.Perm w.mounts.entries

/-- The steps of a task that change nothing else that counts here. -/
inductive Flows (about : String → SessionInfo) (w : Fleet) (i : ℕ) :
    Option Task → Option Task → Prop
  | stays (t : Option Task) : Flows about w i t t
  | ends (t : Task) (h : ∀ s target at_, t = .switch s target at_ → at_.pending = false) :
      Flows about w i (some t) none
  | sends (s : String) : Flows about w i none (some (.send s .waitsLive))
  | checks (s : String) (target : Option Computer)
      (h : ∀ g a, w.live s = some g → w.agents g = some a → a.turns = 0) :
      Flows about w i none (some (.switch s target .checked))
  | releases (s : String) : Flows about w i none (some (.release s none))
  | looks : Flows about w i none (some (.look false))
  | sweeps : Flows about w i none (some (.sweep .waitsEntries))
  | shuts : Flows about w i none (some (.shutdown false))
  | found (s : String) (g : ℕ) : Flows about w i (some (.send s .waitsLive)) (some (.send s (.running g)))
  | prepares (s : String) (h : w.live s = none) :
      Flows about w i (some (.send s .waitsLive)) (some (.send s .preparing))
  | asksEntries (s : String) : Flows about w i (some (.send s .preparing))
      (some (.send s (.waitsEntries (w.computers s))))
  | skips (s : String) (h : mountsProject (about s).agent = false) :
      Flows about w i (some (.send s .preparing)) (some (.send s .starting))
  | mounted (s : String) :
      Flows about w i (some (.send s (.mounted true))) (some (.send s .starting))
  | failed (s : String) :
      Flows about w i (some (.send s (.mounted false))) (some (.send s .failed))
  | starts (s : String) : Flows about w i (some (.send s .starting))
      (some (.send s (.spawning (w.computers s))))
  | tells (s : String) (g : ℕ) :
      Flows about w i (some (.send s (.running g))) (some (.send s (.told g)))
  | asksLive (s : String) (target : Option Computer) :
      Flows about w i (some (.switch s target .recorded)) (some (.switch s target .waitsLive))
  | stopped (s : String) (target : Option Computer) (g : Option ℕ) :
      Flows about w i (some (.switch s target (.stopping g))) (some (.switch s target .stopped))
  | leaves (s : String) (target : Option Computer) :
      Flows about w i (some (.switch s target .stopped)) (some (.switch s target .waitsEntries))
  | looked : Flows about w i (some (.look false)) (some (.look true))
  | asks : Flows about w i (some (.sweep .waitsEntries)) (some (.sweep (.asking [])))
  | asksUser (asked : List (String × Bool)) (u : String) :
      Flows about w i (some (.sweep (.asking asked))) (some (.sweep (.waitsLive asked u)))
  | answered (asked : List (String × Bool)) (u : String) (h : w.liveLock.holder = some i) :
      Flows about w i (some (.sweep (.waitsLive asked u)))
        (some (.sweep (.asking (asked ++ [(u, (w.live u).isSome)]))))

/-- The steps of a task. -/
inductive Does (settings : MountSettings) (about : String → SessionInfo) (w : Fleet) (i : ℕ) :
    Option Task → Option Task → Fleet → Prop
  | moves {t t' : Option Task} {w' : Fleet} (h : w.Flows about i t t') (ha : w.Agrees w') :
      Does settings about w i t t' w'
  | mounts {w' : Fleet} (s : String) (c : Computer) (o : Outside) (ok : Bool)
      (h : w.entriesLock.holder = some i)
      (hok : ok = true → (w.mounts.acquire settings o s c (about s).cwd).2 = .ok ())
      (ha : Agrees { w with mounts := (w.mounts.acquire settings o s c (about s).cwd).1 } w') :
      Does settings about w i (some (.send s (.waitsEntries (some c))))
        (some (.send s (.mounted ok))) w'
  | unmounts {w' : Fleet} (s : String) (o : Outside) (h : w.entriesLock.holder = some i)
      (ha : Agrees { w with mounts := w.mounts.release o s } w') :
      Does settings about w i (some (.send s (.waitsEntries none)))
        (some (.send s (.mounted true))) w'
  | spawns {w' : Fleet} (s : String) (c : Option Computer)
      (ha : Agrees { w with
        live := Function.update w.live s (some w.generation)
        agents := Function.update w.agents w.generation (some ⟨s, c, true, 0, []⟩)
        generation := w.generation + 1 } w') :
      Does settings about w i (some (.send s (.spawning c)))
        (some (.send s (.running w.generation))) w'
  | takes {w' : Fleet} (s : String) (g : ℕ) (a : Agent) (turns : ℕ) (hagent : w.agents g = some a)
      (h : ∀ j target at_, w.tasks j = some (.switch a.session target at_) → at_.stops = false)
      (ha : Agrees { w with agents := Function.update w.agents g (some { a with turns }) } w') :
      Does settings about w i (some (.send s (.told g))) none w'
  | records {w' : Fleet} (s : String) (target : Option Computer)
      (ha : Agrees { w with computers := Function.update w.computers s target } w') :
      Does settings about w i (some (.switch s target .checked))
        (some (.switch s target .recorded)) w'
  | takesOut {w' : Fleet} (s : String) (target : Option Computer)
      (h : w.liveLock.holder = some i)
      (ha : Agrees { w with live := Function.update w.live s none } w') :
      Does settings about w i (some (.switch s target .waitsLive))
        (some (.switch s target (.stopping (w.live s)))) w'
  | leaves {w' : Fleet} (s : String) (target : Option Computer) (o : Outside)
      (hholder : w.entriesLock.holder = some i)
      (h : (w.computers s).isSome → mountsProject (about s).agent → w.live s = none ∧
        ∀ j at_, w.tasks j = some (.send s at_) → at_ ≠ .starting ∧ ∀ c, at_ ≠ .spawning c)
      (ha : Agrees { w with mounts := w.mounts.release o s } w') :
      Does settings about w i (some (.switch s target .waitsEntries))
        (some (.switch s target .released)) w'
  | sweeps {w' : Fleet} (asked : List (String × Bool)) (o : Outside) (now : Instant)
      (h : nextAsk w.mounts.entries asked = none)
      (ha : Agrees { w with
        mounts := w.mounts.sweep settings o (fun u ↦ asked.contains (u, true)) now } w') :
      Does settings about w i (some (.sweep (.asking asked))) (some (.sweep .swept)) w'
  | released {w' : Fleet} (s : String)
      (ha : Agrees { w with live := Function.update w.live s none } w') :
      Does settings about w i (some (.release s none)) (some (.release s (some (w.live s)))) w'

variable {settings : MountSettings} {about : String → SessionInfo} {w w' : Fleet} {i : ℕ}

theorem calms_refl : ∀ o : Option Agent, Option.Rel Agent.Calms o o
  | none => .none
  | some a => .some (.refl a)

theorem Agrees.of_eq (h : (w'.live, w'.agents, w'.generation, w'.computers, w'.mounts) =
    (w.live, w.agents, w.generation, w.computers, w.mounts)) : w.Agrees w' := by
  simp only [Prod.mk.injEq] at h
  obtain ⟨hlive, hagents, hgeneration, hcomputers, hmounts⟩ := h
  exact ⟨hlive, fun _ ↦ hagents ▸ calms_refl _, hgeneration, hcomputers, hmounts ▸ .refl _⟩

/-- A change of one agent that leaves alone what counts. -/
theorem agrees_setAgent (w : Fleet) (g : ℕ) {f : Agent → Agent}
    (hf : ∀ a, w.agents g = some a → Agent.Calms a (f a)) : w.Agrees (w.setAgent g f) := by
  refine ⟨rfl, fun g' ↦ ?_, rfl, rfl, .refl _⟩
  rw [setAgent_agents]
  by_cases hg : g' = g
  · subst hg
    rw [Function.update_self]
    cases ha : w.agents g' with
    | none => exact .none
    | some a => exact .some (hf a ha)
  · rw [Function.update_of_ne hg]
    exact calms_refl _

theorem agrees_shut (w : Fleet) (g : Option ℕ) : w.Agrees (w.shut g) := by
  cases g with
  | none => exact .of_eq rfl
  | some g => exact agrees_setAgent w g fun a _ ↦ ⟨rfl, rfl, fun _ ↦ rfl⟩

section

variable {s : String} {target : Option Computer} {d : Draw}

theorem does_send (ht : w.tasks i = some (.send s at_)) (hc : w.Considerate about (.act i d)) :
    ∃ t, (w.send settings about i s d at_).tasks i = t ∧
      w.Does settings about i (some (.send s at_)) t (w.send settings about i s d at_) := by
  have hstays : ∃ t, w.tasks i = t ∧ w.Does settings about i (some (.send s at_)) t w :=
    ⟨_, ht, .moves (.stays _) (.of_eq rfl)⟩
  have hends {w' : Fleet} (hself : w'.tasks i = none) (ha : w.Agrees w') :
      ∃ t, w'.tasks i = t ∧ w.Does settings about i (some (.send s at_)) t w' :=
    ⟨_, hself, .moves (.ends _ fun _ _ _ h ↦ by cases h) ha⟩
  cases at_ with simp only [Fleet.send]
  | waitsLive =>
    split
    case isTrue hholder =>
      split
      case h_1 g _ =>
        exact ⟨_, Function.update_self .., .moves (.found s g) (.of_eq rfl)⟩
      case h_2 hnone =>
        split
        · exact ⟨_, Function.update_self .., .moves (.prepares s hnone) (.of_eq rfl)⟩
        · exact hends (Function.update_self ..) (.of_eq rfl)
    case isFalse => exact hstays
  | preparing =>
    split
    case isTrue =>
      split
      · exact ⟨_, Function.update_self .., .moves (.asksEntries s) (.of_eq rfl)⟩
      · exact hends (Function.update_self ..) (.of_eq rfl)
    case isFalse hkind =>
      exact ⟨_, Function.update_self .., .moves (.skips s (by simpa using hkind))
        (.of_eq rfl)⟩
  | waitsEntries computer =>
    split
    case isTrue hholder =>
      split
      case h_1 c =>
        split
        case h_1 m heq =>
          exact ⟨_, Function.update_self .., .mounts s c d.o true hholder (fun _ ↦ by rw [heq])
            (.of_eq (by rw [heq]; rfl))⟩
        case h_2 m e heq =>
          exact ⟨_, Function.update_self .., .mounts s c d.o false hholder (fun h ↦ by cases h)
            (.of_eq (by rw [heq]; rfl))⟩
      case h_2 =>
        exact ⟨_, Function.update_self .., .unmounts s d.o hholder (.of_eq rfl)⟩
    case isFalse => exact hstays
  | mounted ok =>
    cases ok with
    | true => exact ⟨_, Function.update_self .., .moves (.mounted s) (.of_eq rfl)⟩
    | false => exact ⟨_, Function.update_self .., .moves (.failed s) (.of_eq rfl)⟩
  | starting =>
    split
    · exact ⟨_, Function.update_self .., .moves (.starts s) (.of_eq rfl)⟩
    · exact hends (Function.update_self ..) (.of_eq rfl)
  | spawning computer =>
    split
    · exact ⟨_, Function.update_self .., .spawns s computer (.of_eq rfl)⟩
    · exact hends (Function.update_self ..) (.of_eq rfl)
  | failed => exact hends (Function.update_self ..) (.of_eq rfl)
  | running g =>
    split
    · have ha := agrees_setAgent w g (f := fun a ↦ { a with pump := a.pump ++ [.userMessage d.text] })
        fun a _ ↦ ⟨rfl, rfl, id⟩
      exact ⟨_, Function.update_self .., .moves (.tells s g) ⟨ha.live, ha.agents, ha.generation,
        ha.computers, ha.mounts⟩⟩
    · exact hends (Function.update_self ..) (.of_eq rfl)
  | told g =>
    split
    case isTrue hok =>
      by_cases hup : ∃ a, w.agents g = some a ∧ a.up = true
      · obtain ⟨a, ha, hup⟩ := hup
        simp only [Considerate, ht] at hc
        refine ⟨_, Function.update_self .., .takes s g a
          (if a.turns = 0 then 1 else if d.own then a.turns + 1 else a.turns) ha (hc hok a ha hup)
          (.of_eq ?_)⟩
        show (_, Function.update w.agents g ((w.agents g).map _), _, _, _) = _
        rw [ha, Option.map_some, if_pos hup]
        rfl
      · -- an agent that is gone takes nothing
        have ha : w.Agrees (w.takes g d.own) := agrees_setAgent w g fun a ha ↦ by
          rw [if_neg fun h ↦ hup ⟨a, ha, h⟩]
          exact .refl a
        exact hends (Function.update_self ..) ⟨ha.live, ha.agents, ha.generation, ha.computers,
          ha.mounts⟩
    case isFalse => exact hends (Function.update_self ..) (.of_eq rfl)

theorem does_switch {at_ : SwitchAt} (ht : w.tasks i = some (.switch s target at_))
    (hc : w.Considerate about (.act i d)) :
    ∃ t, (w.switch i s target d at_).tasks i = t ∧
      w.Does settings about i (some (.switch s target at_)) t (w.switch i s target d at_) := by
  have hstays : ∃ t, w.tasks i = t ∧ w.Does settings about i (some (.switch s target at_)) t w :=
    ⟨_, ht, .moves (.stays _) (.of_eq rfl)⟩
  cases at_ with
  | checked =>
    simp only [Fleet.switch]
    split
    · exact ⟨_, Function.update_self .., .records s target (.of_eq rfl)⟩
    · exact ⟨_, Function.update_self .., .moves (.ends _ fun _ _ _ h ↦ by cases h; rfl)
        (.of_eq rfl)⟩
  | recorded =>
    exact ⟨_, Function.update_self .., .moves (.asksLive s target) (.of_eq rfl)⟩
  | waitsLive =>
    simp only [Fleet.switch]
    split
    case isTrue hholder =>
      exact ⟨_, Function.update_self .., .takesOut s target hholder (.of_eq rfl)⟩
    case isFalse => exact hstays
  | stopping g =>
    have ha := agrees_shut w g
    simp only [Fleet.switch]
    split
    · exact ⟨_, Function.update_self .., .moves (.stopped s target g)
        ⟨ha.live, ha.agents, ha.generation, ha.computers, ha.mounts⟩⟩
    · exact ⟨_, Function.update_self .., .moves (.ends _ fun _ _ _ h ↦ by cases h; rfl)
        ⟨ha.live, ha.agents, ha.generation, ha.computers, ha.mounts⟩⟩
  | stopped =>
    exact ⟨_, Function.update_self .., .moves (.leaves s target) (.of_eq rfl)⟩
  | waitsEntries =>
    simp only [Fleet.switch]
    split
    case isTrue hholder =>
      simp only [Considerate, ht] at hc
      exact ⟨_, Function.update_self .., .leaves s target d.o hholder (hc hholder)
        (.of_eq rfl)⟩
    case isFalse => exact hstays
  | released =>
    exact ⟨_, Function.update_self .., .moves (.ends _ fun _ _ _ h ↦ by cases h; rfl)
      (.of_eq rfl)⟩

theorem does_sweep {at_ : SweepAt} (ht : w.tasks i = some (.sweep at_)) :
    ∃ t, (w.sweep settings i d at_).tasks i = t ∧
      w.Does settings about i (some (.sweep at_)) t (w.sweep settings i d at_) := by
  have hstays : ∃ t, w.tasks i = t ∧ w.Does settings about i (some (.sweep at_)) t w :=
    ⟨_, ht, .moves (.stays _) (.of_eq rfl)⟩
  cases at_ with simp only [Fleet.sweep]
  | waitsEntries =>
    split
    · exact ⟨_, Function.update_self .., .moves .asks (.of_eq rfl)⟩
    · exact hstays
  | asking asked =>
    split
    case h_1 u hask =>
      exact ⟨_, Function.update_self .., .moves (.asksUser asked u) (.of_eq rfl)⟩
    case h_2 hask =>
      exact ⟨_, Function.update_self .., .sweeps asked d.o d.now hask (.of_eq rfl)⟩
  | waitsLive asked u =>
    split
    case isTrue hholder =>
      exact ⟨_, Function.update_self .., .moves (.answered asked u hholder)
        (.of_eq rfl)⟩
    case isFalse => exact hstays
  | swept =>
    exact ⟨_, Function.update_self .., .moves (.ends _ fun _ _ _ h ↦ by cases h)
      (.of_eq rfl)⟩

theorem does_act {t : Task} (ht : w.tasks i = some t) (hc : w.Considerate about (.act i d)) :
    ∃ t', (w.act settings about i d t).tasks i = t' ∧
      w.Does settings about i (some t) t' (w.act settings about i d t) := by
  have hstays : ∃ t', w.tasks i = t' ∧ w.Does settings about i (some t) t' w :=
    ⟨_, ht, .moves (.stays _) (.of_eq rfl)⟩
  cases t with
  | send s at_ => exact does_send ht hc
  | switch s target at_ => exact does_switch ht hc
  | sweep at_ => exact does_sweep ht
  | release s stopping =>
    cases stopping with
    | none =>
      simp only [Fleet.act]
      split
      · exact ⟨_, Function.update_self .., .released s (.of_eq rfl)⟩
      · exact hstays
    | some g =>
      have ha := agrees_shut w g
      exact ⟨_, Function.update_self .., .moves (.ends _ fun _ _ _ h ↦ by cases h)
        ⟨ha.live, ha.agents, ha.generation, ha.computers, ha.mounts⟩⟩
  | look granted =>
    cases granted with
    | false =>
      simp only [Fleet.act]
      split
      · exact ⟨_, Function.update_self .., .moves .looked (.of_eq rfl)⟩
      · exact hstays
    | true =>
      exact ⟨_, Function.update_self .., .moves (.ends _ fun _ _ _ h ↦ by cases h)
        (.of_eq rfl)⟩
  | shutdown done =>
    cases done with
    | false =>
      simp only [Considerate, ht] at hc
      simp only [Fleet.act, if_neg hc]
      exact hstays
    | true =>
      exact ⟨_, Function.update_self .., .moves (.ends _ fun _ _ _ h ↦ by cases h)
        (.of_eq rfl)⟩

/-- What agents do, and what happens to the disk. -/
theorem does_idle (ha : w.Agrees w') (htasks : w'.tasks = w.tasks) :
    ∃ i t, w'.tasks = Function.update w.tasks i t ∧ w.Does settings about i (w.tasks i) t w' :=
  ⟨0, w.tasks 0, by rw [htasks, Function.update_eq_self], .moves (.stays _) ha⟩

/-- **Every step is one of these**, if it is considerate. -/
theorem Wired.does (h : w.Wired) (henabled : w.Enabled e)
    (hc : w.Considerate about e) : ∃ i t, (w.step settings about e).tasks =
      Function.update w.tasks i t ∧
      w.Does settings about i (w.tasks i) t (w.step settings about e) := by
  have hstays : ∃ i t, w.tasks = Function.update w.tasks i t ∧
      w.Does settings about i (w.tasks i) t w := does_idle (.of_eq rfl) rfl
  cases e with
  | send i s =>
    simp only [Fleet.step]
    split
    case isTrue hnone =>
      exact ⟨i, _, rfl, hnone ▸ .moves (.sends s) (.of_eq rfl)⟩
    case isFalse => exact hstays
  | release i s =>
    simp only [Fleet.step]
    split
    case isTrue hnone =>
      exact ⟨i, _, rfl, hnone ▸ .moves (.releases s) (.of_eq rfl)⟩
    case isFalse => exact hstays
  | look i =>
    simp only [Fleet.step]
    split
    case isTrue hnone => exact ⟨i, _, rfl, hnone ▸ .moves .looks (.of_eq rfl)⟩
    case isFalse => exact hstays
  | sweep i =>
    simp only [Fleet.step]
    split
    case isTrue hnone => exact ⟨i, _, rfl, hnone ▸ .moves .sweeps (.of_eq rfl)⟩
    case isFalse => exact hstays
  | shutdown i =>
    simp only [Fleet.step]
    split
    case isTrue hnone => exact ⟨i, _, rfl, hnone ▸ .moves .shuts (.of_eq rfl)⟩
    case isFalse => exact hstays
  | switch i s target =>
    simp only [Fleet.step]
    split
    case isTrue hnone =>
      split
      · exact hstays
      case isFalse hbusy =>
        exact ⟨i, _, rfl, hnone ▸ .moves (.checks s target (hc hnone (by simpa using hbusy)))
          (.of_eq rfl)⟩
    case isFalse => exact hstays
  | act i d =>
    simp only [Fleet.step]
    cases ht : w.tasks i with
    | none => exact hstays
    | some t =>
      obtain ⟨t', hacts⟩ : ∃ t', w.Acts i t' (w.act settings about i d t) := h.act ht
      obtain ⟨t'', hself, hdoes⟩ : ∃ t'', (w.act settings about i d t).tasks i = t'' ∧
          w.Does settings about i (some t) t'' (w.act settings about i d t) := does_act ht hc
      obtain rfl : t' = t'' := by rw [← hself, hacts.tasks, Function.update_self]
      refine ⟨i, t', hacts.tasks, ?_⟩
      rw [ht]
      exact hdoes
  | turnEnds g outcome =>
    simp only [Fleet.step]
    split
    · split
      · exact hstays
      · exact does_idle (agrees_setAgent w g fun a _ ↦ ⟨rfl, rfl, fun h ↦ by simp [h]⟩) rfl
    · exact hstays
  | reports g event hevent => exact does_idle (agrees_setAgent w g fun a _ ↦ ⟨rfl, rfl, id⟩) rfl
  | exits g => exact does_idle (agrees_setAgent w g fun a _ ↦ ⟨rfl, rfl, fun _ ↦ rfl⟩) rfl
  | pumps g =>
    simp only [Fleet.step]
    split
    · split
      case h_1 pump heq =>
        have ha := agrees_setAgent w g (f := fun a ↦ { a with pump }) fun a _ ↦ ⟨rfl, rfl, id⟩
        exact does_idle ⟨ha.live, ha.agents, ha.generation, ha.computers, ha.mounts⟩ rfl
      · exact hstays
    · exact hstays
  | rehash entries =>
    exact does_idle ⟨rfl, fun _ ↦ calms_refl _, rfl, rfl, henabled⟩ rfl
  | disk disk => exact does_idle ⟨rfl, fun _ ↦ calms_refl _, rfl, rfl, .refl _⟩ rfl

end

/-! ### Live agents and the tasks on their own -/

/-- A live agent is one of the session's. -/
structure Known (w : Fleet) : Prop where
  fresh : ∀ g, w.generation ≤ g → w.agents g = none
  live : ∀ s g, w.live s = some g → ∃ a, w.agents g = some a ∧ a.session = s

theorem Agrees.calms (h : w.Agrees w') {a : Agent} (ha : w.agents g = some a) :
    ∃ a', w'.agents g = some a' ∧ a.Calms a' := by
  have hrel := h.agents g
  rw [ha] at hrel
  generalize w'.agents g = o at hrel
  cases hrel with
  | some hcalms => exact ⟨_, rfl, hcalms⟩

theorem Agrees.calmed (h : w.Agrees w') {a' : Agent} (ha : w'.agents g = some a') :
    ∃ a, w.agents g = some a ∧ a.Calms a' := by
  have hrel := h.agents g
  rw [ha] at hrel
  generalize w.agents g = o at hrel
  cases hrel with
  | some hcalms => exact ⟨_, rfl, hcalms⟩

theorem Known.agrees (h : w.Known) (ha : w.Agrees w') : w'.Known where
  fresh g hg := by
    have hrel := ha.agents g
    rw [h.fresh g (ha.generation ▸ hg)] at hrel
    generalize w'.agents g = o at hrel
    cases hrel
    rfl
  live s g hg := by
    obtain ⟨a, hagent, hsession⟩ := h.live s g (ha.live ▸ hg)
    obtain ⟨a', hagent', hcalms⟩ := ha.calms hagent
    exact ⟨a', hagent', hcalms.session.trans hsession⟩

theorem Known.takeOut (h : w.Known) (s : String) :
    Known { w with live := Function.update w.live s none } where
  fresh := h.fresh
  live s' g hg := by
    dsimp only at hg
    by_cases hs : s' = s
    · rw [hs, Function.update_self] at hg
      cases hg
    · rw [Function.update_of_ne hs] at hg
      exact h.live s' g hg

theorem Known.spawn (h : w.Known) (s : String) (c : Option Computer) :
    Known { w with
      live := Function.update w.live s (some w.generation)
      agents := Function.update w.agents w.generation (some ⟨s, c, true, 0, []⟩)
      generation := w.generation + 1 } where
  fresh g hg := by
    have hg : w.generation + 1 ≤ g := hg
    dsimp only
    rw [Function.update_of_ne (by omega)]
    exact h.fresh g (by omega)
  live s' g hg := by
    dsimp only at hg ⊢
    by_cases hs : s' = s
    · rw [hs, Function.update_self] at hg
      obtain rfl := Option.some.inj hg
      exact ⟨_, Function.update_self .., hs.symm⟩
    · rw [Function.update_of_ne hs] at hg
      obtain ⟨a, ha, hsession⟩ := h.live s' g hg
      have hne : g ≠ w.generation := fun heq ↦ by
        rw [h.fresh g heq.ge] at ha
        cases ha
      exact ⟨a, by rw [Function.update_of_ne hne]; exact ha, hsession⟩

theorem Known.take (h : w.Known) {a : Agent} (hagent : w.agents g = some a) (turns : ℕ) :
    Known { w with agents := Function.update w.agents g (some { a with turns }) } where
  fresh g' hg := by
    have hne : g' ≠ g := fun heq ↦ by
      rw [← heq, h.fresh g' hg] at hagent
      cases hagent
    dsimp only
    rw [Function.update_of_ne hne]
    exact h.fresh g' hg
  live s g' hg := by
    dsimp only at hg ⊢
    obtain ⟨a', ha', hsession⟩ := h.live s g' hg
    by_cases hgg : g' = g
    · subst hgg
      obtain rfl : a = a' := Option.some.inj (hagent.symm.trans ha')
      exact ⟨_, Function.update_self .., hsession⟩
    · exact ⟨a', by rw [Function.update_of_ne hgg]; exact ha', hsession⟩

theorem Known.step (h : w.Known) (hdoes : w.Does settings about i t t' w') : w'.Known := by
  cases hdoes with
  | moves _ ha => exact h.agrees ha
  | mounts _ _ _ _ _ _ ha | unmounts _ _ _ ha | leaves _ _ _ _ _ ha | sweeps _ _ _ _ ha
  | records _ _ ha =>
    refine Known.agrees ?_ ha
    exact ⟨h.fresh, h.live⟩
  | takesOut s _ _ ha | released s ha => exact (h.takeOut s).agrees ha
  | spawns s c ha => exact (h.spawn s c).agrees ha
  | takes s g a turns hagent _ ha => exact (h.take hagent turns).agrees ha

/-- What holds of a task alone: a start that found no live agent has none to fear, and a switch past
its busy check has an agent without a turn before it. -/
def Fits (w : Fleet) : Task → Prop
  | .send s at_ => at_.cold → w.live s = none
  | .switch s _ at_ =>
    (at_.stops → ∀ g a, w.live s = some g → w.agents g = some a → a.turns = 0) ∧
      ∀ g, at_ = .stopping (some g) → ∃ a, w.agents g = some a ∧ a.session = s ∧ a.turns = 0
  | _ => True

theorem Fits.agrees {t : Task} (h : w.Fits t) (ha : w.Agrees w') : w'.Fits t := by
  cases t with
  | send s at_ => exact fun hcold ↦ ha.live ▸ h hcold
  | switch s target at_ =>
    refine ⟨fun hstops g a' hlive hagent' ↦ ?_, fun g hg ↦ ?_⟩
    · obtain ⟨a, hagent, hcalms⟩ := ha.calmed hagent'
      exact hcalms.turns (h.1 hstops g a (ha.live ▸ hlive) hagent)
    · obtain ⟨a, hagent, hsession, hturns⟩ := h.2 g hg
      obtain ⟨a', hagent', hcalms⟩ := ha.calms hagent
      exact ⟨a', hagent', hcalms.session.trans hsession, hcalms.turns hturns⟩
  | release | look | sweep | shutdown => trivial

theorem Fits.flows {t t' : Task} (hf : w.Flows about i (some t) (some t')) (h : w.Fits t) :
    w.Fits t' := by
  cases hf with
  | stays => exact h
  | found | tells => exact fun hcold ↦ by cases hcold
  | prepares s hlive => exact fun _ ↦ hlive
  | asksEntries | skips | mounted | failed | starts => exact fun _ ↦ h rfl
  | asksLive => exact ⟨fun _ ↦ h.1 rfl, fun g hg ↦ by cases hg⟩
  | stopped | leaves => exact ⟨(fun hstops ↦ by cases hstops), fun g hg ↦ by cases hg⟩
  | looked | asks | asksUser | answered => trivial

/-- A task that holds the live agents. -/
theorem Wired.holdsLive (h : w.Wired) {t : Task} (ht : w.tasks j = some t)
    (hclaim : t.liveClaim = .holds) : w.liveLock.holder = some j := by
  have hagrees := h.liveAt ht
  rwa [hclaim] at hagrees

/-- A task that holds the mounts. -/
theorem Wired.holdsEntries (h : w.Wired) {t : Task} (ht : w.tasks j = some t)
    (hclaim : t.entriesClaim = .holds) : w.entriesLock.holder = some j := by
  have hagrees := h.entriesAt ht
  rwa [hclaim] at hagrees

theorem liveClaim_of_cold {s : String} (h : at_.cold) :
    (Task.send s at_).liveClaim = .holds := by
  cases at_ <;> first | rfl | cases h

theorem fits_of (htasks : w'.tasks = Function.update w.tasks i t') (ha : m.Agrees w')
    (hother : ∀ j ≠ i, ∀ t, w.tasks j = some t → m.Fits t)
    (hself : ∀ t, t' = some t → m.Fits t) {t : Task} (ht : w'.tasks j = some t) :
    w'.Fits t := by
  rw [htasks] at ht
  by_cases hji : j = i
  · subst hji
    rw [Function.update_self] at ht
    exact (hself t ht).agrees ha
  · rw [Function.update_of_ne hji] at ht
    exact (hother j hji t ht).agrees ha

/-- Taking a live agent out harms no task. -/
theorem Fits.takeOut {t : Task} (h : w.Fits t) (s : String) :
    Fits { w with live := Function.update w.live s none } t := by
  have hless : ∀ s' g, Function.update w.live s none s' = some g → w.live s' = some g := by
    intro s' g hg
    by_cases hs : s' = s
    · rw [hs, Function.update_self] at hg
      cases hg
    · rwa [Function.update_of_ne hs] at hg
  cases t with
  | send s' at_ =>
    intro hcold
    rw [Option.eq_none_iff_forall_ne_some]
    exact fun g hg ↦ Option.eq_none_iff_forall_ne_some.1 (h hcold) g (hless s' g hg)
  | switch s' target at_ => exact ⟨fun hstops g a hg ↦ h.1 hstops g a (hless s' g hg), h.2⟩
  | release | look | sweep | shutdown => trivial

/-- **Every task fits** after a step. -/
theorem Wired.fits_step (hw : w.Wired) (hk : w.Known) (h : ∀ j t, w.tasks j = some t → w.Fits t)
    (htasks : w'.tasks = Function.update w.tasks i t')
    (hdoes : w.Does settings about i (w.tasks i) t' w') :
    ∀ j t, w'.tasks j = some t → w'.Fits t := by
  intro j t ht
  generalize hold : w.tasks i = told at hdoes
  cases hdoes with
  | moves hf ha =>
    refine fits_of htasks ha (fun j _ t ht ↦ h j t ht) (fun t ht ↦ ?_) ht
    subst ht
    cases told with
    | some told => exact (h i told hold).flows hf
    | none =>
      cases hf with
      | sends => exact fun hcold ↦ by cases hcold
      | checks s target hcalm => exact ⟨fun _ ↦ hcalm, fun g hg ↦ by cases hg⟩
      | releases | looks | sweeps | shuts => trivial
  | mounts _ _ _ _ _ _ ha | unmounts _ _ _ ha =>
    refine fits_of htasks ha (fun j _ t ht ↦ h j t ht) (fun t ht ↦ ?_) ht
    obtain rfl := Option.some.inj ht
    exact fun _ ↦ h i _ hold rfl
  | leaves s target o _ _ ha =>
    refine fits_of htasks ha (fun j _ t ht ↦ h j t ht) (fun t ht ↦ ?_) ht
    obtain rfl := Option.some.inj ht
    exact ⟨(fun hstops ↦ by cases hstops), fun g hg ↦ by cases hg⟩
  | sweeps asked o now _ ha =>
    refine fits_of htasks ha (fun j _ t ht ↦ h j t ht) (fun t ht ↦ ?_) ht
    obtain rfl := Option.some.inj ht
    trivial
  | records s target ha =>
    refine fits_of htasks ha (fun j _ t ht ↦ h j t ht) (fun t ht ↦ ?_) ht
    obtain rfl := Option.some.inj ht
    exact ⟨fun _ ↦ (h i _ hold).1 rfl, fun g hg ↦ by cases hg⟩
  | released s ha =>
    refine fits_of htasks ha (fun j _ t ht ↦ (h j t ht).takeOut s) (fun t ht ↦ ?_) ht
    obtain rfl := Option.some.inj ht
    trivial
  | takesOut s target _ ha =>
    refine fits_of htasks ha (fun j _ t ht ↦ (h j t ht).takeOut s) (fun t ht ↦ ?_) ht
    obtain rfl := Option.some.inj ht
    refine ⟨fun _ g a hg ↦ ?_, fun g hg ↦ ?_⟩
    · have hg : Function.update w.live s none s = some g := hg
      rw [Function.update_self] at hg
      cases hg
    · have hlive : w.live s = some g := by simpa using hg
      obtain ⟨a, hagent, hsession⟩ := hk.live s g hlive
      exact ⟨a, hagent, hsession, (h i _ hold).1 rfl g a hlive hagent⟩
  | spawns s c ha =>
    refine fits_of htasks ha (fun j hj t ht ↦ ?_) (fun t ht ↦ ?_) ht
    · have hne : ∀ {g a}, w.agents g = some a → g ≠ w.generation := fun hagent heq ↦ by
        rw [hk.fresh _ heq.ge] at hagent
        cases hagent
      have hfits := h j t ht
      cases t with
      | send s' at_ =>
        intro hcold
        have hlock := hw.holdsLive ht (liveClaim_of_cold hcold)
        rw [hw.holdsLive hold rfl] at hlock
        exact absurd (Option.some.inj hlock).symm hj
      | switch s' target at_ =>
        refine ⟨fun hstops g a hg hagent ↦ ?_, fun g hg ↦ ?_⟩
        · dsimp only at hg hagent
          by_cases hs : s' = s
          · rw [hs, Function.update_self] at hg
            obtain rfl := Option.some.inj hg
            rw [Function.update_self] at hagent
            obtain rfl := Option.some.inj hagent
            rfl
          · rw [Function.update_of_ne hs] at hg
            obtain ⟨a', ha', -⟩ := hk.live s' g hg
            rw [Function.update_of_ne (hne ha')] at hagent
            exact hfits.1 hstops g a hg hagent
        · obtain ⟨a, hagent, hsession, hturns⟩ := hfits.2 g hg
          exact ⟨a, (Function.update_of_ne (hne hagent) ..).trans hagent, hsession, hturns⟩
      | release | look | sweep | shutdown => trivial
    · obtain rfl := Option.some.inj ht
      exact fun hcold ↦ by cases hcold
  | takes s g a turns hagent hquiet ha =>
    refine fits_of htasks ha (fun j hj t ht ↦ ?_) (fun t ht ↦ by cases ht) ht
    have hfits := h j t ht
    cases t with
    | send s' at_ => exact hfits
    | switch s' target at_ =>
      have hother : ∀ g' a', w.agents g' = some a' → a'.session = s' → at_.stops → g' ≠ g := by
        rintro g' a' ha' rfl hstops rfl
        obtain rfl : a = a' := Option.some.inj (hagent.symm.trans ha')
        rw [hquiet j target at_ ht] at hstops
        cases hstops
      refine ⟨fun hstops g' a' hg' hagent' ↦ ?_, fun g' hg' ↦ ?_⟩
      · obtain ⟨a'', ha'', hsession⟩ := hk.live s' g' hg'
        have hagent' : Function.update w.agents g _ g' = some a' := hagent'
        rw [Function.update_of_ne (hother g' a'' ha'' hsession hstops)] at hagent'
        exact hfits.1 hstops g' a' hg' hagent'
      · obtain ⟨a', ha', hsession, hturns⟩ := hfits.2 g' hg'
        have hne := hother g' a' ha' hsession (by rw [hg']; rfl)
        exact ⟨a', (Function.update_of_ne hne ..).trans ha', hsession, hturns⟩
    | release | look | sweep | shutdown => trivial

/-! ### Sweeps -/

/-- No agent of the session is live, nor has a start of it come past the mounts. -/
def Away (w : Fleet) (u : String) : Prop :=
  w.live u = none ∧ ∀ k at_, w.tasks k = some (.send u at_) → at_.pastMount = false

/-- The sessions a sweep was told are not live still are not. -/
def Asked (about : String → SessionInfo) (w : Fleet) : Prop :=
  ∀ j at_ u, w.tasks j = some (.sweep at_) → (u, false) ∈ at_.asked →
    mountsProject (about u).agent → w.Away u

theorem entriesClaim_of_asked {at_ : SweepAt} {p : String × Bool} (h : p ∈ at_.asked) :
    (Task.sweep at_).entriesClaim = .holds := by
  cases at_ with
  | waitsEntries => cases h
  | asking | waitsLive | swept => rfl

theorem cold_of_pastMount (h : at_.pastMount) : at_.cold := by
  cases at_ <;> first | rfl | cases h

/-- A session gets a live agent by a start at its end only. -/
theorem Does.live (h : w.Does settings about i t t' w') (hnone : w.live u = none) :
    w'.live u = none ∨ ∃ c, t = some (.send u (.spawning c)) := by
  cases h with
  | moves _ ha | mounts _ _ _ _ _ _ ha | unmounts _ _ _ ha | takes _ _ _ _ _ _ ha | records _ _ ha
  | leaves _ _ _ _ _ ha | sweeps _ _ _ _ ha => exact .inl (ha.live ▸ hnone)
  | takesOut s _ _ ha | released s ha =>
    refine .inl ?_
    rw [ha.live]
    by_cases hs : u = s
    · exact hs ▸ Function.update_self ..
    · exact (Function.update_of_ne hs ..).trans hnone
  | spawns s c ha =>
    by_cases hs : u = s
    · exact .inr ⟨c, hs ▸ rfl⟩
    · exact .inl (by rw [ha.live]; exact (Function.update_of_ne hs ..).trans hnone)

/-- A start comes past the mounts by having them, unless it needs none. -/
theorem Does.pastMount (h : w.Does settings about i t (some (.send u at_)) w')
    (hpast : at_.pastMount) :
    (∃ at', t = some (.send u at') ∧ at'.pastMount) ∨ mountsProject (about u).agent = false ∨
      w.entriesLock.holder = some i := by
  cases h with
  | moves hf =>
    cases hf with
    | stays => exact .inl ⟨_, rfl, hpast⟩
    | skips _ hkind => exact .inr (.inl hkind)
    | mounted | starts => exact .inl ⟨_, rfl, rfl⟩
    | sends | found | prepares | asksEntries | failed | tells => cases hpast
  | mounts _ _ _ _ hholder | unmounts _ _ hholder => exact .inr (.inr hholder)
  | spawns => cases hpast

/-- While a sweep has the mounts no session comes past them. -/
theorem Away.step {at_ : SweepAt} (h : w.Away u) (hsweep : w.tasks j = some (.sweep at_))
    (hholder : w.entriesLock.holder = some j) (hkind : mountsProject (about u).agent)
    (htasks : w'.tasks = Function.update w.tasks i t')
    (hdoes : w.Does settings about i (w.tasks i) t' w') : w'.Away u := by
  refine ⟨?_, fun k at' hk ↦ ?_⟩
  · rcases hdoes.live h.1 with hlive | ⟨c, hi⟩
    · exact hlive
    · exact absurd (h.2 i _ hi) (by simp [SendAt.pastMount])
  · rw [htasks] at hk
    by_cases hki : k = i
    · subst hki
      rw [Function.update_self] at hk
      subst hk
      by_contra hpast
      rcases hdoes.pastMount (by simpa using hpast) with ⟨at'', hk, hpast⟩ | hno | hk
      · rw [h.2 k at'' hk] at hpast
        cases hpast
      · rw [hkind] at hno
        cases hno
      · -- the sweep would be the start
        obtain rfl : k = j := Option.some.inj (hk.symm.trans hholder)
        rw [hsweep] at hdoes
        generalize hnew : some (Task.send u at') = new at hdoes
        cases hdoes with
        | moves hf => cases hf <;> cases hnew
        | sweeps => cases hnew
    · rw [Function.update_of_ne hki] at hk
      exact h.2 k at' hk

/-- **A sweep's answers stay right.** -/
theorem Wired.asked_step (hw : w.Wired) (h : w.Asked about)
    (htasks : w'.tasks = Function.update w.tasks i t')
    (hdoes : w.Does settings about i (w.tasks i) t' w') : w'.Asked about := by
  intro j at_ u hj hasked hkind
  have hnow : ∃ at', w.tasks j = some (.sweep at') ∧ w.entriesLock.holder = some j ∧ w.Away u := by
    rw [htasks] at hj
    by_cases hji : j = i
    · subst hji
      rw [Function.update_self] at hj
      subst hj
      generalize hold : w.tasks j = told at hdoes
      have hbefore : ∀ at', told = some (.sweep at') → (u, false) ∈ at'.asked →
          ∃ at', told = some (.sweep at') ∧ w.entriesLock.holder = some j ∧ w.Away u := by
        rintro at' rfl hasked
        exact ⟨at', rfl, hw.holdsEntries hold (entriesClaim_of_asked hasked),
          h j at' u hold hasked hkind⟩
      cases hdoes with
      | sweeps => cases hasked
      | moves hf =>
        cases hf with
        | stays | asksUser => exact hbefore _ rfl hasked
        | sweeps | asks => cases hasked
        | answered asked v hlock =>
          rcases List.mem_append.1 hasked with hasked | hasked
          · exact hbefore _ rfl hasked
          · obtain ⟨rfl, hlive⟩ := Prod.mk.inj (List.mem_singleton.1 hasked)
            refine ⟨_, rfl, hw.holdsEntries hold rfl, by simpa using hlive.symm, fun k at' hk ↦ ?_⟩
            by_contra hpast
            -- such a start would hold the live agents, as the sweep does
            have hcold : at'.cold := cold_of_pastMount (by simpa using hpast)
            have hlock' := hw.holdsLive hk (liveClaim_of_cold hcold)
            obtain rfl := Option.some.inj (hlock.symm.trans hlock')
            rw [hold] at hk
            cases hk
    · rw [Function.update_of_ne hji] at hj
      exact ⟨at_, hj, hw.holdsEntries hj (entriesClaim_of_asked hasked), h j at_ u hj hasked hkind⟩
  obtain ⟨at', hsweep, hholder, haway⟩ := hnow
  exact haway.step hsweep hholder hkind htasks hdoes

/-! ### Settled sessions -/

variable {s : String}

/-- Where the session is on a node, it uses a mount of it that covers its cwd. -/
def Mounted (about : String → SessionInfo) (w : Fleet) (s : String) : Prop :=
  ∀ c, w.computers s = some c → ∃ root : Dir, root <+: (about s).cwd.components ∧
    w.mounts.UsesAt s c.id root

/-- A switch of the session has recorded its computer and not yet taken the agent out. -/
def Pending (w : Fleet) (s : String) : Prop :=
  ∃ i target at_, w.tasks i = some (.switch s target at_) ∧ at_.pending

/-- The live agent of the session is where it should be. -/
structure LiveWell (about : String → SessionInfo) (w : Fleet) (s : String) : Prop where
  computer : ∀ g a, w.live s = some g → w.agents g = some a → a.computer = w.computers s
  mounted : mountsProject (about s).agent → ∀ g, w.live s = some g → w.Mounted about s

/-- A start of the session goes by its computer, and has its mount once it is past the mounts. -/
structure StartsWell (about : String → SessionInfo) (w : Fleet) (s : String) (at_ : SendAt) :
    Prop where
  reads : ∀ c, at_.reads = some c → c = w.computers s
  mounted : mountsProject (about s).agent → at_.pastMount → w.Mounted about s

/-- The session's agent and its starts are where they should be. -/
structure Settled (about : String → SessionInfo) (w : Fleet) (s : String) : Prop where
  live : w.LiveWell about s
  starts : ∀ i at_, w.tasks i = some (.send s at_) → w.StartsWell about s at_

theorem Mounted.of_keeps (h : w.Mounted about s) (hcomputers : w'.computers s = w.computers s)
    (hkeeps : ProjectMounts.Keeps s w.mounts w'.mounts) : w'.Mounted about s := by
  intro c hc
  obtain ⟨root, hroot, huses⟩ := h c (hcomputers ▸ hc)
  exact ⟨root, hroot, hkeeps _ _ huses⟩

theorem Agrees.keeps (h : w.Agrees w') : ProjectMounts.Keeps s w.mounts w'.mounts :=
  ProjectMounts.keeps_of_subset fun _ he ↦ h.mounts.mem_iff.2 he

theorem Mounted.agrees (h : w.Mounted about s) (ha : w.Agrees w') : w'.Mounted about s :=
  h.of_keeps (by rw [ha.computers]) ha.keeps

theorem LiveWell.agrees (h : w.LiveWell about s) (ha : w.Agrees w') : w'.LiveWell about s where
  computer g a' hlive hagent' := by
    obtain ⟨a, hagent, hcalms⟩ := ha.calmed hagent'
    rw [hcalms.computer, ha.computers]
    exact h.computer g a (ha.live ▸ hlive) hagent
  mounted hkind g hlive := (h.mounted hkind g (ha.live ▸ hlive)).agrees ha

theorem StartsWell.agrees (h : w.StartsWell about s at_) (ha : w.Agrees w') :
    w'.StartsWell about s at_ where
  reads c hc := by
    rw [ha.computers]
    exact h.reads c hc
  mounted hkind hpast := (h.mounted hkind hpast).agrees ha

theorem liveWell_of_none (h : w.live s = none) : w.LiveWell about s :=
  ⟨fun _ _ hg ↦ absurd (h.symm.trans hg) (by simp), fun _ _ hg ↦ absurd (h.symm.trans hg) (by simp)⟩

theorem startsWell_of_not_cold (h : at_.cold = false) :
    w.StartsWell about s at_ := by
  cases at_ with
  | waitsLive | running g | told g => exact ⟨(fun c hc ↦ by cases hc), fun _ hpast ↦ by cases hpast⟩
  | preparing | waitsEntries c | mounted ok | starting | spawning c | failed => cases h

/-- Whoever holds the live agents is the only start under way. -/
theorem Wired.startsWell (hw : w.Wired) (hlock : w.liveLock.holder = some i) (hj : j ≠ i)
    (ht : w.tasks j = some (.send s at_)) :
    m.StartsWell about s at_ := by
  refine startsWell_of_not_cold (Bool.eq_false_iff.2 fun hcold ↦ ?_)
  have hlock' := hw.holdsLive ht (liveClaim_of_cold hcold)
  exact hj (Option.some.inj (hlock'.symm.trans hlock))

theorem settled_of (htasks : w'.tasks = Function.update w.tasks i t') (ha : m.Agrees w')
    (hlive : m.LiveWell about s)
    (hother : ∀ j ≠ i, ∀ at_, w.tasks j = some (.send s at_) → m.StartsWell about s at_)
    (hself : ∀ at_, t' = some (.send s at_) → m.StartsWell about s at_) :
    w'.Settled about s := by
  refine ⟨hlive.agrees ha, fun j at_ hj ↦ ?_⟩
  rw [htasks] at hj
  by_cases hji : j = i
  · rw [hji, Function.update_self] at hj
    exact (hself at_ hj).agrees ha
  · rw [Function.update_of_ne hji] at hj
    exact (hother j hji at_ hj).agrees ha

theorem StartsWell.flows (hf : w.Flows about i t (some (.send s at_)))
    (h : ∀ at', t = some (.send s at') → w.StartsWell about s at') : w.StartsWell about s at_ := by
  cases hf with
  | stays => exact h _ rfl
  | sends | found | tells => exact startsWell_of_not_cold rfl
  | prepares | failed => exact ⟨(fun c hc ↦ by cases hc), fun _ hpast ↦ by cases hpast⟩
  | asksEntries => exact ⟨fun c hc ↦ (Option.some.inj hc).symm, fun _ hpast ↦ by cases hpast⟩
  | skips _ hno =>
    refine ⟨(fun c hc ↦ by cases hc), fun hkind ↦ ?_⟩
    rw [hno] at hkind
    cases hkind
  | mounted => exact ⟨(fun c hc ↦ by cases hc), fun hkind _ ↦ (h _ rfl).mounted hkind rfl⟩
  | starts =>
    exact ⟨fun c hc ↦ (Option.some.inj hc).symm, fun hkind _ ↦ (h _ rfl).mounted hkind rfl⟩

/-- A switch stays pending until it takes the agent out. -/
theorem Pending.step (h : w.Pending s) (htasks : w'.tasks = Function.update w.tasks i t')
    (hdoes : w.Does settings about i (w.tasks i) t' w')
    (hno : ∀ target, w.tasks i ≠ some (.switch s target .waitsLive) ∨
      t' ≠ some (.switch s target (.stopping (w.live s)))) : w'.Pending s := by
  obtain ⟨k, target, at_, hk, hpending⟩ := h
  by_cases hki : k = i
  · subst hki
    have hself : w'.tasks k = t' := by rw [htasks, Function.update_self]
    rw [hk] at hdoes hno
    cases hdoes with
    | moves hf =>
      cases hf with
      | stays => exact ⟨k, target, at_, hself, hpending⟩
      | ends _ hends =>
        rw [hends s target at_ rfl] at hpending
        cases hpending
      | asksLive => exact ⟨k, target, _, hself, rfl⟩
      | stopped | leaves => cases hpending
    | takesOut => exact ((hno target).elim (fun h ↦ h rfl) fun h ↦ h rfl).elim
    | records | leaves => cases hpending
  · exact ⟨k, target, at_, by rw [htasks, Function.update_of_ne hki, hk], hpending⟩

/-- **Taking the agent out** settles a session: nothing of it is left to be wrong. -/
theorem Wired.settled_takeOut (hw : w.Wired) {target : Option Computer}
    (hlock : w.liveLock.holder = some i)
    (htasks : w'.tasks = Function.update w.tasks i (some (.switch s target (.stopping (w.live s)))))
    (ha : Agrees { w with live := Function.update w.live s none } w') : w'.Settled about s :=
  settled_of htasks ha (liveWell_of_none (Function.update_self ..))
    (fun _ hj _ ht ↦ hw.startsWell hlock hj ht) fun _ h ↦ by cases h

theorem LiveWell.takeOut (h : w.LiveWell about s) (s' : String) :
    LiveWell about { w with live := Function.update w.live s' none } s := by
  by_cases hs : s = s'
  · exact liveWell_of_none (hs ▸ Function.update_self ..)
  · have hlive : Function.update w.live s' none s = w.live s := Function.update_of_ne hs ..
    exact ⟨fun g a hg ↦ h.computer g a (hlive ▸ hg), fun hkind g hg ↦ h.mounted hkind g (hlive ▸ hg)⟩

theorem LiveWell.of_keeps (h : w.LiveWell about s)
    (hkeeps : mountsProject (about s).agent → ∀ g, w.live s = some g →
      ProjectMounts.Keeps s w.mounts mounts) : LiveWell about { w with mounts } s :=
  ⟨h.computer, fun hkind g hg ↦ (h.mounted hkind g hg).of_keeps rfl (hkeeps hkind g hg)⟩

theorem StartsWell.of_keeps (h : w.StartsWell about s at_)
    (hkeeps : mountsProject (about s).agent → at_.pastMount →
      ProjectMounts.Keeps s w.mounts mounts) : StartsWell about { w with mounts } s at_ :=
  ⟨h.reads, fun hkind hpast ↦ (h.mounted hkind hpast).of_keeps rfl (hkeeps hkind hpast)⟩

/-- A sweep that has asked about everything takes no mount from a session it was not told to be
away. -/
theorem keeps_of_nextAsk {asked : List (String × Bool)} (hsound : w.mounts.Sound)
    (h : nextAsk w.mounts.entries asked = none) (hs : (s, false) ∉ asked) (o : Outside)
    (now : Instant) : ProjectMounts.Keeps s w.mounts
      (w.mounts.sweep settings o (fun u ↦ asked.contains (u, true)) now) := by
  refine hsound.keeps_sweep fun e he hu ↦ ?_
  have hnone : ¬ (nextAsk w.mounts.entries asked).isSome := by simp [h]
  rw [nextAsk_isSome_iff] at hnone
  by_contra hany
  refine hnone ⟨e, he, fun u hu hasked ↦ hany ?_, s, hu, hs⟩
  exact List.any_eq_true.2 ⟨u, hu, by simpa using hasked⟩

/-- **A session stays settled**, until a switch records another computer for it. -/
theorem Settled.step (h : w.Settled about s) (hw : w.Wired) (hk : w.Known)
    (hsound : w.mounts.Sound) (hfits : ∀ j t, w.tasks j = some t → w.Fits t)
    (hasked : w.Asked about)
    (htasks : w'.tasks = Function.update w.tasks i t')
    (hdoes : w.Does settings about i (w.tasks i) t' w') : w'.Pending s ∨ w'.Settled about s := by
  generalize hold : w.tasks i = told at hdoes
  cases hdoes with
  | moves hf ha =>
    refine .inr (settled_of htasks ha h.live (fun j _ at_ ht ↦ h.starts j at_ ht) fun at_ hnew ↦ ?_)
    subst hnew
    exact StartsWell.flows hf fun at' hat ↦ h.starts i at' (hold.trans hat)
  | mounts s' c o ok hholder hok ha =>
    have hlock := hw.holdsLive hold rfl
    refine .inr (settled_of htasks ha ?_ (fun j hj at_ ht ↦ hw.startsWell hlock hj ht)
      fun at_ hnew ↦ ?_)
    · by_cases hs : s = s'
      · exact liveWell_of_none (hs ▸ hfits i _ hold rfl)
      · exact h.live.of_keeps fun _ _ _ ↦ hsound.keeps_acquire hs
    · obtain ⟨rfl, rfl⟩ := Task.send.inj (Option.some.inj hnew)
      refine ⟨(fun c hc ↦ by cases hc), fun _ hpast ↦ ?_⟩
      have hserved := (hsound.acquire settings o s' c (about s').cwd).served
        (hok (by cases ok <;> first | rfl | cases hpast))
      obtain ⟨e, hfilter, hid, huser⟩ := hserved
      obtain ⟨he, hcovers⟩ := List.mem_filter.1 (hfilter ▸ List.mem_singleton_self e)
      intro c' hc'
      obtain rfl : c = c' := Option.some.inj (((h.starts i _ hold).reads _ rfl).trans hc')
      exact ⟨e.root, List.isPrefixOf_iff_prefix.1 hcovers, e, he, rfl, hid, huser⟩
  | unmounts s' o hholder ha =>
    have hlock := hw.holdsLive hold rfl
    refine .inr (settled_of htasks ha ?_ (fun j hj at_ ht ↦ hw.startsWell hlock hj ht)
      fun at_ hnew ↦ ?_)
    · by_cases hs : s = s'
      · exact liveWell_of_none (hs ▸ hfits i _ hold rfl)
      · exact h.live.of_keeps fun _ _ _ ↦
          ProjectMounts.keeps_leaveOthers hsound.apart hsound.used hs
    · obtain ⟨rfl, rfl⟩ := Task.send.inj (Option.some.inj hnew)
      refine ⟨(fun c hc ↦ by cases hc), fun _ _ c hc ↦ ?_⟩
      exact absurd (((h.starts i _ hold).reads _ rfl).trans hc) (by simp)
  | spawns s' c ha =>
    have hlock := hw.holdsLive hold rfl
    refine .inr (settled_of htasks ha ?_ (fun j hj at_ ht ↦ hw.startsWell hlock hj ht)
      fun at_ hnew ↦ ?_)
    · by_cases hs : s = s'
      · subst hs
        have hstart := h.starts i _ hold
        refine ⟨fun g a hg hagent ↦ ?_, fun hkind _ _ ↦ hstart.mounted hkind rfl⟩
        dsimp only at hg hagent
        rw [Function.update_self] at hg
        obtain rfl := Option.some.inj hg
        rw [Function.update_self] at hagent
        obtain rfl := Option.some.inj hagent
        exact hstart.reads c rfl
      · refine ⟨fun g a hg hagent ↦ ?_, fun hkind g hg ↦ ?_⟩ <;> dsimp only at hg <;>
          rw [Function.update_of_ne hs] at hg
        · obtain ⟨a', ha', -⟩ := hk.live s g hg
          have hne : g ≠ w.generation := fun heq ↦ by
            rw [hk.fresh g heq.ge] at ha'
            cases ha'
          dsimp only at hagent
          rw [Function.update_of_ne hne] at hagent
          exact h.live.computer g a hg hagent
        · exact h.live.mounted hkind g hg
    · obtain ⟨rfl, rfl⟩ := Task.send.inj (Option.some.inj hnew)
      exact startsWell_of_not_cold rfl
  | takes s' g a turns hagent _ ha =>
    refine .inr (settled_of htasks ha ⟨fun g' a' hg' hagent' ↦ ?_, h.live.mounted⟩
      (fun j _ at_ ht ↦ ⟨(h.starts j at_ ht).reads, (h.starts j at_ ht).mounted⟩)
      fun at_ hnew ↦ by cases hnew)
    dsimp only at hagent'
    by_cases hg : g' = g
    · subst hg
      rw [Function.update_self] at hagent'
      obtain rfl := Option.some.inj hagent'
      exact h.live.computer g' a hg' hagent
    · rw [Function.update_of_ne hg] at hagent'
      exact h.live.computer g' a' hg' hagent'
  | records s' target ha =>
    by_cases hs : s = s'
    · exact .inl ⟨i, target, .recorded, by rw [htasks, Function.update_self, hs], rfl⟩
    · have hcomputers : Function.update w.computers s' target s = w.computers s :=
        Function.update_of_ne hs ..
      have hmounted (hm : w.Mounted about s) :
          Mounted about { w with computers := Function.update w.computers s' target } s :=
        hm.of_keeps hcomputers (ProjectMounts.keeps_of_subset fun _ he ↦ he)
      refine .inr (settled_of htasks ha ⟨fun g a hg hagent ↦ ?_, fun hkind g hg ↦ ?_⟩
        (fun j _ at_ ht ↦ ⟨fun c hc ↦ ?_, fun hkind hpast ↦ ?_⟩) fun at_ hnew ↦ by cases hnew)
      · exact (h.live.computer g a hg hagent).trans hcomputers.symm
      · exact hmounted (h.live.mounted hkind g hg)
      · exact ((h.starts j at_ ht).reads c hc).trans hcomputers.symm
      · exact hmounted ((h.starts j at_ ht).mounted hkind hpast)
  | takesOut s' target hlock ha | released s' ha =>
    refine .inr (settled_of htasks ha (h.live.takeOut s') (fun j _ at_ ht ↦ ?_)
      fun at_ hnew ↦ by cases hnew)
    exact ⟨(h.starts j at_ ht).reads, (h.starts j at_ ht).mounted⟩
  | leaves s' target o hholder haway ha =>
    by_cases hs : s = s'
    · subst hs
      cases hcomputer : w.computers s with
      | none =>
        have hmounted : Mounted about { w with mounts := w.mounts.release o s } s := fun c hc ↦ by
          cases hcomputer.symm.trans hc
        exact .inr (settled_of htasks ha ⟨h.live.computer, fun _ _ _ ↦ hmounted⟩
          (fun j _ at_ ht ↦ ⟨(h.starts j at_ ht).reads, fun _ _ ↦ hmounted⟩)
          fun at_ hnew ↦ by cases hnew)
      | some c =>
        have haway := haway (by simp [hcomputer])
        refine .inr (settled_of htasks ha ⟨h.live.computer, fun hkind g hg ↦ ?_⟩
          (fun j hj at_ ht ↦ ⟨(h.starts j at_ ht).reads, fun hkind hpast ↦ ?_⟩)
          fun at_ hnew ↦ by cases hnew)
        · cases (haway hkind).1.symm.trans hg
        · have hnot := (haway hkind).2 j at_ ht
          cases at_ with
          | starting => exact absurd rfl hnot.1
          | spawning c => exact absurd rfl (hnot.2 c)
          | mounted ok =>
            have hholder' := hw.holdsEntries ht rfl
            exact absurd (Option.some.inj (hholder'.symm.trans hholder)) hj
          | waitsLive | preparing | waitsEntries c | failed | running g | told g => cases hpast
    · have hkeeps : ProjectMounts.Keeps s w.mounts (w.mounts.release o s') :=
        ProjectMounts.keeps_leaveOthers hsound.apart hsound.used hs
      exact .inr (settled_of htasks ha (h.live.of_keeps fun _ _ _ ↦ hkeeps)
        (fun j _ at_ ht ↦ (h.starts j at_ ht).of_keeps fun _ _ ↦ hkeeps)
        fun at_ hnew ↦ by cases hnew)
  | sweeps asked o now hask ha =>
    refine .inr (settled_of htasks ha (h.live.of_keeps fun hkind g hg ↦ ?_)
      (fun j _ at_ ht ↦ (h.starts j at_ ht).of_keeps fun hkind hpast ↦ ?_)
      fun at_ hnew ↦ by cases hnew)
    · refine keeps_of_nextAsk hsound hask (fun hs ↦ ?_) o now
      cases (hasked i _ s hold hs hkind).1.symm.trans hg
    · refine keeps_of_nextAsk hsound hask (fun hs ↦ ?_) o now
      rw [(hasked i _ s hold hs hkind).2 j at_ ht] at hpast
      cases hpast

/-! ### Runs -/

/-- What every considerate step keeps. -/
structure Placed (about : String → SessionInfo) (w : Fleet) : Prop where
  wired : w.Wired
  sound : w.mounts.Sound
  known : w.Known
  fits : ∀ j t, w.tasks j = some t → w.Fits t
  asked : w.Asked about
  settled : ∀ s, w.Pending s ∨ w.Settled about s

theorem sound_act (h : w.mounts.Sound) {t : Task} {d : Draw} :
    (w.act settings about i d t).mounts.Sound := by
  cases t with
  | send s at_ =>
    cases at_ with simp only [act, Fleet.send]
    | waitsEntries computer =>
      split
      · split
        case h_1 c =>
          have hsound := (h.acquire settings d.o s c (about s).cwd).sound
          split
          case h_1 m heq =>
            rw [heq] at hsound
            exact hsound
          case h_2 m e heq =>
            rw [heq] at hsound
            exact hsound
        case h_2 => exact h.leaveOthers d.o s []
      · exact h
    | waitsLive | preparing | mounted ok | starting | spawning c | failed | running g | told g =>
      repeat' split
      all_goals exact h
  | switch s target at_ =>
    cases at_ with
    | waitsEntries =>
      simp only [act, Fleet.switch]
      split
      · exact h.leaveOthers d.o s []
      · exact h
    | stopping g =>
      have hmounts := (shut_mounts w g).symm ▸ h
      simp only [act, Fleet.switch]
      exact hmounts
    | checked | recorded | waitsLive | stopped | released =>
      simp only [act, Fleet.switch]
      repeat' split
      all_goals exact h
  | sweep at_ =>
    cases at_ with simp only [act, Fleet.sweep]
    | asking asked =>
      split
      · exact h
      · exact h.sweep settings d.o _ d.now
    | waitsEntries | waitsLive asked u | swept =>
      repeat' split
      all_goals exact h
  | release s stopping =>
    cases stopping with
    | none =>
      simp only [act]
      split <;> exact h
    | some g => exact (shut_mounts w g).symm ▸ h
  | look granted =>
    cases granted with
    | false =>
      simp only [act]
      split <;> exact h
    | true => exact h
  | shutdown done =>
    cases done with
    | false =>
      simp only [act]
      split
      · exact h.shutdown d.o
      · exact h
    | true => exact h

theorem sound_step (h : w.mounts.Sound) (henabled : w.Enabled e) :
    (w.step settings about e).mounts.Sound := by
  cases e with
  | act i d =>
    simp only [Fleet.step]
    split
    · exact sound_act h
    · exact h
  | rehash entries => exact h.rehash henabled
  | disk disk => exact h.of_disk henabled
  | send | switch | release | look | sweep | shutdown | turnEnds | reports | exits | pumps =>
    simp only [Fleet.step]
    repeat' split
    all_goals exact h

theorem Placed.next (h : w.Placed about) (henabled : w.Enabled e)
    (hc : w.Considerate about e) : (w.step settings about e).Placed about := by
  obtain ⟨i, t', htasks, hdoes⟩ : ∃ i t', (w.step settings about e).tasks =
      Function.update w.tasks i t' ∧
      w.Does settings about i (w.tasks i) t' (w.step settings about e) :=
    h.wired.does henabled hc
  obtain ⟨_, _, hacts⟩ : ∃ i t', w.Acts i t' (w.step settings about e) := h.wired.step henabled
  refine ⟨hacts.wired h.wired, sound_step h.sound henabled, h.known.step hdoes,
    h.wired.fits_step h.known h.fits htasks hdoes, h.wired.asked_step h.asked htasks hdoes,
    fun s ↦ ?_⟩
  rcases h.settled s with hpending | hsettled
  · by_cases hout : ∃ target, w.tasks i = some (.switch s target .waitsLive) ∧
        t' = some (.switch s target (.stopping (w.live s)))
    · obtain ⟨target, hold, rfl⟩ := hout
      generalize Fleet.step settings about w e = w' at htasks hdoes
      rw [hold] at hdoes
      refine .inr ?_
      cases hdoes with
      | moves hf => cases hf
      | takesOut _ _ hlock ha => exact h.wired.settled_takeOut hlock htasks ha
    · refine .inl (hpending.step htasks hdoes fun target ↦ ?_)
      by_contra hboth
      rw [not_or, not_not, not_not] at hboth
      exact hout ⟨target, hboth⟩
  · exact hsettled.step h.wired h.known h.sound h.fits h.asked htasks hdoes

theorem placed_init (h : init w) : w.Placed about := by
  have hwired := wired_init h
  obtain ⟨hlive, hagents, -, -, hentries, hindex, hdisk, htasks⟩ := h
  have hnone : ∀ {j : ℕ} {t : Task}, w.tasks j ≠ some t := fun {j t} ht ↦ by
    rw [htasks j] at ht
    cases ht
  refine ⟨hwired, ?_, ⟨fun g _ ↦ hagents g, fun s g hg ↦ ?_⟩, fun j t ht ↦ absurd ht hnone,
    fun j at_ u hj ↦ absurd hj hnone,
    fun s ↦ .inr ⟨liveWell_of_none (hlive s), fun j at_ hj ↦ absurd hj hnone⟩⟩
  · exact ProjectMounts.sound_of_reachable
      (show (ProjectMounts.system ⟨false, 0⟩).Reachable w.mounts from
        .start ⟨hentries, hindex, hdisk⟩)
  · rw [hlive s] at hg
    cases hg

theorem Placed.orderly (h : w.Placed about) : w.Orderly about where
  calmly i s target g hi := by
    obtain ⟨a, hagent, -, hturns⟩ := (h.fits i _ hi).2 g rfl
    exact ⟨a, hagent, hturns⟩
  placed s g hswitch _ hlive hkind := by
    obtain ⟨a, hagent, -⟩ := h.known.live s g hlive
    have hsettled := (h.settled s).resolve_left fun ⟨i, target, at_, hi, _⟩ ↦
      hswitch ⟨i, target, at_, hi⟩
    refine ⟨a, hagent, hsettled.live.computer g a hlive hagent, fun c hc ↦ ?_⟩
    obtain ⟨root, hroot, e, he, rfl, hid, huser⟩ := hsettled.live.mounted hkind g hlive c hc
    exact ⟨e, he, List.isPrefixOf_iff_prefix.2 hroot, hid, huser⟩

/-- All sessions are on this server. -/
def atHome : Fleet := { idle with computers := fun _ ↦ none }

theorem init_atHome : init atHome := init_idle

/-- Steps `Considerate` asks nothing of. -/
def plain (w : Fleet) : Event → Bool
  | .switch .. => false
  | .act i _ =>
    match w.tasks i with
    | some (.send _ (.told _)) | some (.switch _ _ .waitsEntries) | some (.shutdown _) => false
    | _ => true
  | _ => true

theorem considerate_of_plain (w : Fleet) (e : Event) (h : plain w e) : w.Considerate about e := by
  cases e with
  | switch => cases h
  | act i d =>
    simp only [Considerate]
    simp only [plain] at h
    split <;> simp_all
  | send | release | look | sweep | shutdown | turnEnds | reports | exits | pumps | rehash | disk =>
    trivial

end Fleet

end Ember.Server.Computers
