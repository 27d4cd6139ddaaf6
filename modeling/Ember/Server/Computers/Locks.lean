import Ember.Server.Computers.MountTable
import Ember.Server.Computers.Starts

/-!
# The two locks and their cycle

Which lock a task holds or waits for is read off where it stopped last (`Task.liveClaim`,
`Task.entriesClaim`), and `Wired` says that both locks agree. With it the only task that holds the
lock of the mounts and waits for the live agents is a sweep that asks `is_live`, and the only one
that holds the live agents and waits for the mounts is an agent start. So before a cycle there is a
start that waits for a sweep which has a session left to ask about (`Clash`), and `Apart` forbids
the two steps at which one comes about.
-/

namespace Ember.Server.Computers

namespace Task

/-- What a task knows of the lock of the live agents. -/
def liveClaim : Task → Claim
  | send _ .waitsLive => .asked
  | send _ (.running _) | send _ (.told _) => .nothing
  | send _ _ => .holds
  | switch _ _ .waitsLive => .asked
  | switch _ _ (.stopping _) => .holds
  | switch _ _ _ => .nothing
  | release _ none => .asked
  | release _ (some _) => .holds
  | look false => .asked
  | look true => .holds
  | sweep (.waitsLive _ _) => .asked
  | sweep _ => .nothing
  | shutdown _ => .nothing

/-- What a task knows of the lock of the mounts. -/
def entriesClaim : Task → Claim
  | send _ (.waitsEntries _) => .asked
  | send _ (.mounted _) => .holds
  | send _ _ => .nothing
  | switch _ _ .waitsEntries => .asked
  | switch _ _ .released => .holds
  | switch _ _ _ => .nothing
  | release _ _ => .nothing
  | look _ => .nothing
  | sweep .waitsEntries => .asked
  | sweep _ => .holds
  | shutdown false => .asked
  | shutdown true => .holds

end Task

/-- A claim of a task that may not be there. -/
def claimOf (f : Task → Claim) : Option Task → Claim
  | some t => f t
  | none => .nothing

variable {entries : List Entry} {w' : Fleet} {e : Event}

namespace Fleet

variable {settings : MountSettings} {about : String → SessionInfo} {w : Fleet} {i : ℕ}

/-- Both locks agree with where the tasks are. -/
structure Wired (w : Fleet) : Prop where
  live : w.liveLock.Shared fun i ↦ claimOf Task.liveClaim (w.tasks i)
  entries : w.entriesLock.Shared fun i ↦ claimOf Task.entriesClaim (w.tasks i)

theorem Wired.liveAt (h : w.Wired) {t : Task} (ht : w.tasks i = some t) :
    w.liveLock.Agrees i t.liveClaim := by
  have hagrees := h.live.agrees i
  rwa [ht] at hagrees

theorem Wired.entriesAt (h : w.Wired) {t : Task} (ht : w.tasks i = some t) :
    w.entriesLock.Agrees i t.entriesClaim := by
  have hagrees := h.entries.agrees i
  rwa [ht] at hagrees

/-- What one step of task `i` does to the locks: each of them moves with the task, and the mounts are
its own to change only while it holds their lock. -/
structure Acts (w : Fleet) (i : ℕ) (t : Option Task) (w' : Fleet) : Prop where
  tasks : w'.tasks = Function.update w.tasks i t
  live : w.liveLock.Moves i (claimOf Task.liveClaim (w.tasks i)) (claimOf Task.liveClaim t)
    w'.liveLock
  entries : w.entriesLock.Moves i (claimOf Task.entriesClaim (w.tasks i))
    (claimOf Task.entriesClaim t) w'.entriesLock
  mounts : w'.mounts.entries.Perm w.mounts.entries ∨
    w.entriesLock.holder = some i ∧ w'.entriesLock = w.entriesLock

theorem Acts.wired {t : Option Task} (h : w.Acts i t w') (hw : w.Wired) :
    w'.Wired := by
  have hself : w'.tasks i = t := by rw [h.tasks, Function.update_self]
  have hother : ∀ j, j ≠ i → w'.tasks j = w.tasks j := fun j hj ↦ by
    rw [h.tasks, Function.update_of_ne hj]
  refine ⟨hw.live.move (t := i) (by rw [hself]; exact h.live) fun j hj ↦ by rw [hother j hj],
    hw.entries.move (t := i) (by rw [hself]; exact h.entries) fun j hj ↦ by rw [hother j hj]⟩

theorem Wired.stays (h : w.Wired) (i : ℕ) : w.Acts i (w.tasks i) w :=
  ⟨(Function.update_eq_self i w.tasks).symm, .keep (h.live.agrees i), .keep (h.entries.agrees i),
    .inl (.refl _)⟩

/-- What agents do touches neither locks nor tasks nor mounts. -/
theorem Wired.idle (h : w.Wired) (hlive : w'.liveLock = w.liveLock)
    (hentries : w'.entriesLock = w.entriesLock) (htasks : w'.tasks = w.tasks)
    (hmounts : w'.mounts.entries.Perm w.mounts.entries) : ∃ i t, w.Acts i t w' :=
  ⟨0, w.tasks 0, by rw [htasks, Function.update_eq_self],
    by rw [hlive]; exact .keep (h.live.agrees 0),
    by rw [hentries]; exact .keep (h.entries.agrees 0), .inl hmounts⟩

section Send

variable {s : String} {target : Option Computer} {d : Draw}

theorem Wired.send (h : w.Wired) {at_ : SendAt} (ht : w.tasks i = some (.send s at_)) :
    ∃ t, w.Acts i t (w.send settings about i s d at_) := by
  have hl := h.liveAt ht
  have he := h.entriesAt ht
  have hstays : ∃ t, w.Acts i t w := ⟨_, h.stays i⟩
  cases at_ with simp only [Fleet.send]
  | waitsLive =>
    split
    case isTrue hholder =>
      split
      · exact ⟨_, rfl, .drop hholder rfl, .keep he, .inl (.refl _)⟩
      · split
        · exact ⟨_, rfl, .keep hholder, .keep he, .inl (.refl _)⟩
        · exact ⟨_, rfl, .drop hholder rfl, .keep he, .inl (.refl _)⟩
    case isFalse => exact hstays
  | preparing =>
    split
    · split
      · exact ⟨_, rfl, .keep hl, .ask (by rw [ht]; rfl) rfl, .inl (.refl _)⟩
      · exact ⟨_, rfl, .drop hl rfl, .keep he, .inl (.refl _)⟩
    · exact ⟨_, rfl, .keep hl, .keep he, .inl (.refl _)⟩
  | waitsEntries computer =>
    split
    case isTrue hholder =>
      split
      · split <;> exact ⟨_, rfl, .keep hl, .keep hholder, .inr ⟨hholder, rfl⟩⟩
      · exact ⟨_, rfl, .keep hl, .keep hholder, .inr ⟨hholder, rfl⟩⟩
    case isFalse => exact hstays
  | mounted ok => cases ok <;> exact ⟨_, rfl, .keep hl, .drop he rfl, .inl (.refl _)⟩
  | starting =>
    split
    · exact ⟨_, rfl, .keep hl, .keep he, .inl (.refl _)⟩
    · exact ⟨_, rfl, .drop hl rfl, .keep he, .inl (.refl _)⟩
  | spawning computer =>
    split <;> exact ⟨_, rfl, .drop hl rfl, .keep he, .inl (.refl _)⟩
  | failed => exact ⟨_, rfl, .drop hl rfl, .keep he, .inl (.refl _)⟩
  | running | told =>
    split <;> exact ⟨_, rfl, .keep hl, .keep he, .inl (.refl _)⟩

theorem Wired.switch (h : w.Wired) {at_ : SwitchAt} (ht : w.tasks i = some (.switch s target at_)) :
    ∃ t, w.Acts i t (w.switch i s target d at_) := by
  have hl := h.liveAt ht
  have he := h.entriesAt ht
  have hstays : ∃ t, w.Acts i t w := ⟨_, h.stays i⟩
  cases at_ with simp only [Fleet.switch]
  | checked =>
    split <;> exact ⟨_, rfl, .keep hl, .keep he, .inl (.refl _)⟩
  | recorded => exact ⟨_, rfl, .ask (by rw [ht]; rfl) rfl, .keep he, .inl (.refl _)⟩
  | waitsLive =>
    split
    case isTrue hholder => exact ⟨_, rfl, .keep hholder, .keep he, .inl (.refl _)⟩
    case isFalse => exact hstays
  | stopping g =>
    cases g <;> split <;> exact ⟨_, rfl, .drop hl rfl, .keep he, .inl (.refl _)⟩
  | stopped => exact ⟨_, rfl, .keep hl, .ask (by rw [ht]; rfl) rfl, .inl (.refl _)⟩
  | waitsEntries =>
    split
    case isTrue hholder => exact ⟨_, rfl, .keep hl, .keep hholder, .inr ⟨hholder, rfl⟩⟩
    case isFalse => exact hstays
  | released => exact ⟨_, rfl, .keep hl, .drop he rfl, .inl (.refl _)⟩

theorem Wired.sweep (h : w.Wired) {at_ : SweepAt} (ht : w.tasks i = some (.sweep at_)) :
    ∃ t, w.Acts i t (w.sweep settings i d at_) := by
  have hl := h.liveAt ht
  have he := h.entriesAt ht
  have hstays : ∃ t, w.Acts i t w := ⟨_, h.stays i⟩
  cases at_ with simp only [Fleet.sweep]
  | waitsEntries =>
    split
    case isTrue hholder => exact ⟨_, rfl, .keep hl, .keep hholder, .inl (.refl _)⟩
    case isFalse => exact hstays
  | asking asked =>
    split
    · exact ⟨_, rfl, .ask (by rw [ht]; rfl) rfl, .keep he, .inl (.refl _)⟩
    · exact ⟨_, rfl, .keep hl, .keep he, .inr ⟨he, rfl⟩⟩
  | waitsLive asked u =>
    split
    case isTrue hholder => exact ⟨_, rfl, .drop hholder rfl, .keep he, .inl (.refl _)⟩
    case isFalse => exact hstays
  | swept => exact ⟨_, rfl, .keep hl, .drop he rfl, .inl (.refl _)⟩

theorem Wired.act (h : w.Wired) {t : Task} (ht : w.tasks i = some t) :
    ∃ t', w.Acts i t' (w.act settings about i d t) := by
  have hl := h.liveAt ht
  have he := h.entriesAt ht
  have hstays : ∃ t, w.Acts i t w := ⟨_, h.stays i⟩
  cases t with
  | send s at_ => exact h.send ht
  | switch s target at_ => exact h.switch ht
  | sweep at_ => exact h.sweep ht
  | release s stopping =>
    cases stopping with
    | none =>
      simp only [Fleet.act]
      split
      case isTrue hholder => exact ⟨_, rfl, .keep hholder, .keep he, .inl (.refl _)⟩
      case isFalse => exact hstays
    | some g => cases g <;> exact ⟨_, rfl, .drop hl rfl, .keep he, .inl (.refl _)⟩
  | look granted =>
    cases granted with
    | false =>
      simp only [Fleet.act]
      split
      case isTrue hholder => exact ⟨_, rfl, .keep hholder, .keep he, .inl (.refl _)⟩
      case isFalse => exact hstays
    | true => exact ⟨_, rfl, .drop hl rfl, .keep he, .inl (.refl _)⟩
  | shutdown done =>
    cases done with
    | false =>
      simp only [Fleet.act]
      split
      case isTrue hholder => exact ⟨_, rfl, .keep hl, .keep hholder, .inr ⟨hholder, rfl⟩⟩
      case isFalse => exact hstays
    | true => exact ⟨_, rfl, .keep hl, .drop he rfl, .inl (.refl _)⟩

end Send

/-- **Every step is a step of one task**, as far as the locks are concerned. -/
theorem Wired.step (h : w.Wired) (henabled : w.Enabled e) :
    ∃ i t, w.Acts i t (w.step settings about e) := by
  have hstays : ∃ i t, w.Acts i t w := ⟨0, _, h.stays 0⟩
  cases e with simp only [Fleet.step]
  | send i s | release i s | look i =>
    split
    case isTrue hnone =>
      have he := h.entries.agrees i
      rw [hnone] at he
      exact ⟨i, _, rfl, .ask (by rw [hnone]; rfl) rfl, .keep he, .inl (.refl _)⟩
    case isFalse => exact hstays
  | switch i s target =>
    split
    case isTrue hnone =>
      have hl := h.live.agrees i
      have he := h.entries.agrees i
      rw [hnone] at hl he
      split
      · exact hstays
      · exact ⟨i, _, rfl, .keep hl, .keep he, .inl (.refl _)⟩
    case isFalse => exact hstays
  | sweep i | shutdown i =>
    split
    case isTrue hnone =>
      have hl := h.live.agrees i
      rw [hnone] at hl
      exact ⟨i, _, rfl, .keep hl, .ask (by rw [hnone]; rfl) rfl, .inl (.refl _)⟩
    case isFalse => exact hstays
  | act i d =>
    cases ht : w.tasks i with
    | none => exact hstays
    | some t => exact ⟨i, h.act ht⟩
  | turnEnds g outcome =>
    split
    · split
      · exact hstays
      · exact h.idle rfl rfl rfl (.refl _)
    · exact hstays
  | reports | exits | disk => exact h.idle rfl rfl rfl (.refl _)
  | pumps g =>
    split
    · split
      · exact h.idle rfl rfl rfl (.refl _)
      · exact hstays
    · exact hstays
  | rehash entries => exact h.idle rfl rfl rfl henabled

theorem wired_init (h : init w) : w.Wired := by
  obtain ⟨-, -, hlive, hentries, -, -, -, htasks⟩ := h
  refine ⟨hlive ▸ FairLock.shared_free fun i ↦ ?_, hentries ▸ FairLock.shared_free fun i ↦ ?_⟩ <;>
    rw [htasks i] <;> rfl

/-! ### The cycle -/

/-- A cycle: the holder of each lock waits for the other one. -/
def Deadlock (w : Fleet) : Prop :=
  ∃ i j, w.liveLock.holder = some i ∧ i ∈ w.entriesLock.queue ∧
    w.entriesLock.holder = some j ∧ j ∈ w.liveLock.queue

instance (w : Fleet) : Decidable w.Deadlock :=
  decidable_of_iff (∃ i ∈ w.liveLock.holder, ∃ j ∈ w.entriesLock.holder,
    i ∈ w.entriesLock.queue ∧ j ∈ w.liveLock.queue)
    ⟨fun ⟨i, hi, j, hj, hij, hji⟩ ↦ ⟨i, j, hi, hij, hj, hji⟩,
      fun ⟨i, j, hi, hij, hj, hji⟩ ↦ ⟨i, hi, j, hj, hij, hji⟩⟩

/-- An agent start that waits for the mounts. -/
def startWaits : Option Task → Bool
  | some (.send _ (.waitsEntries _)) => true
  | _ => false

/-- A sweep that asks `is_live`, or is going to. -/
def stillAsks (entries : List Entry) : Option Task → Bool
  | some (.sweep .waitsEntries) => (nextAsk entries []).isSome
  | some (.sweep (.asking asked)) => (nextAsk entries asked).isSome
  | some (.sweep (.waitsLive _ _)) => true
  | _ => false

/-- The next step of the task lets go of the mounts. -/
def letsGo : Option Task → Bool
  | some (.send _ (.mounted _)) | some (.switch _ _ .released) | some (.sweep .swept)
  | some (.shutdown true) => true
  | _ => false

/-- A start waits for the mounts, which are with a sweep that still asks `is_live`. -/
def Clash (w : Fleet) : Prop :=
  ∃ i j, startWaits (w.tasks i) ∧ w.entriesLock.holder = some j ∧
    stillAsks w.mounts.entries (w.tasks j)

/-- The next step of the task is a start that asks for the mounts. -/
def startAsks (about : String → SessionInfo) (d : Draw) : Option Task → Bool
  | some (.send s .preparing) => mountsProject (about s).agent && d.ok
  | _ => false

/-- The step brings no start and no such sweep together: a start does not ask for the mounts while
such a sweep has them, and they do not pass to such a sweep while a start waits for them. -/
def Apart (about : String → SessionInfo) (w : Fleet) : Event → Prop
  | .act i d =>
    (startAsks about d (w.tasks i) → ∀ j ∈ w.entriesLock.holder,
      ¬ stillAsks w.mounts.entries (w.tasks j)) ∧
    (letsGo (w.tasks i) → ∀ j ∈ w.entriesLock.queue.head?,
      stillAsks w.mounts.entries (w.tasks j) → ∀ k ∈ w.entriesLock.queue, ¬ startWaits (w.tasks k))
  | _ => True

instance (about : String → SessionInfo) (w : Fleet) : ∀ e, Decidable (w.Apart about e)
  | .act i d => inferInstanceAs (Decidable (
      (startAsks about d (w.tasks i) → ∀ j ∈ w.entriesLock.holder,
        ¬ stillAsks w.mounts.entries (w.tasks j)) ∧
      (letsGo (w.tasks i) → ∀ j ∈ w.entriesLock.queue.head?,
        stillAsks w.mounts.entries (w.tasks j) →
          ∀ k ∈ w.entriesLock.queue, ¬ startWaits (w.tasks k))))
  | .send .. | .switch .. | .release .. | .look _ | .sweep _ | .shutdown _ => .isTrue trivial
  | .turnEnds .. | .reports .. | .exits _ | .pumps _ | .rehash _ | .disk _ => .isTrue trivial

theorem nextAsk_isSome_iff {asked : List (String × Bool)} :
    (nextAsk entries asked).isSome ↔ ∃ e ∈ entries, (∀ u ∈ e.users, (u, true) ∉ asked) ∧
      ∃ u ∈ e.users, (u, false) ∉ asked := by
  simp [nextAsk, and_assoc]

theorem stillAsks_perm {entries' : List Entry} (h : entries.Perm entries')
    (t : Option Task) : stillAsks entries t = stillAsks entries' t := by
  have hask : ∀ asked, (nextAsk entries asked).isSome = (nextAsk entries' asked).isSome :=
    fun asked ↦ Bool.eq_iff_iff.2 <| by simp only [nextAsk_isSome_iff, h.mem_iff]
  unfold stillAsks
  split <;> first | exact hask _ | rfl

section Act

variable {d : Draw} {t : Task}

/-- Who waits for the mounts to start an agent did so before, or asks for them with this step. -/
theorem startWaits_act (ht : w.tasks i = some t)
    (h : startWaits ((w.act settings about i d t).tasks i)) :
    startWaits (some t) ∨ startAsks about d (some t) ∧
      (w.act settings about i d t).entriesLock = w.entriesLock.ask i := by
  cases t with
  | send s at_ =>
    cases at_ with
    | waitsEntries computer => exact .inl rfl
    | preparing =>
      simp only [act, Fleet.send] at h ⊢
      split at h
      case isTrue hmounts =>
        split at h
        case isTrue hok =>
          exact .inr ⟨by simp [startAsks, hmounts, hok], by simp [hmounts, hok]⟩
        case isFalse => simp [startWaits] at h
      case isFalse => simp [startWaits] at h
    | waitsLive | mounted ok | starting | spawning computer | failed | running g | told g =>
      revert h
      simp only [act, Fleet.send]
      repeat' split
      all_goals simp [startWaits, ht, takes]
  | switch s target at_ =>
    cases at_ <;> (revert h; simp only [act, Fleet.switch]; try split) <;> simp [startWaits, ht]
  | sweep at_ =>
    cases at_ <;> (revert h; simp only [act, Fleet.sweep]; try split) <;> simp [startWaits, ht]
  | release s stopping =>
    cases stopping <;> (revert h; simp only [act]; try split) <;> simp [startWaits, ht]
  | look granted =>
    cases granted <;> (revert h; simp only [act]; try split) <;> simp [startWaits, ht]
  | shutdown done =>
    cases done <;> (revert h; simp only [act]; try split) <;> simp [startWaits, ht]

theorem stillAsks_act (ht : w.tasks i = some t)
    (h : stillAsks (w.act settings about i d t).mounts.entries
      ((w.act settings about i d t).tasks i)) : stillAsks w.mounts.entries (some t) := by
  cases t with
  | sweep at_ =>
    cases at_ with
    | waitsLive asked u => rfl
    | waitsEntries =>
      revert h
      simp only [act, Fleet.sweep]
      split
      · simp [stillAsks]
      · simp [ht]
    | asking asked =>
      revert h
      simp only [act, Fleet.sweep]
      split
      case h_1 u hu => simp [stillAsks, hu]
      case h_2 => simp [stillAsks]
    | swept => simp [act, Fleet.sweep, stillAsks] at h
  | send s at_ =>
    revert h
    cases at_ <;> simp only [act, Fleet.send]
    all_goals repeat' split
    all_goals simp [stillAsks, ht, takes]
  | switch s target at_ =>
    cases at_ <;> (revert h; simp only [act, Fleet.switch]; try split) <;> simp [stillAsks, ht]
  | release s stopping =>
    cases stopping <;> (revert h; simp only [act]; try split) <;> simp [stillAsks, ht]
  | look granted =>
    cases granted <;> (revert h; simp only [act]; try split) <;> simp [stillAsks, ht]
  | shutdown done =>
    cases done <;> (revert h; simp only [act]; try split) <;> simp [stillAsks, ht]
/-- Only a task at its end lets go of the mounts. -/
theorem letsGo_act (ht : w.tasks i = some t) (huses : t.entriesClaim ≠ .nothing)
    (hleft : claimOf Task.entriesClaim ((w.act settings about i d t).tasks i) = .nothing) :
    letsGo (some t) := by
  revert hleft
  cases t with
  | send s at_ =>
    cases at_ with
    | mounted ok => exact fun _ ↦ rfl
    | waitsEntries computer =>
      simp only [act, Fleet.send]
      repeat' split
      all_goals simp [claimOf, Task.entriesClaim, ht]
    | waitsLive | preparing | starting | spawning computer | failed | running g | told g =>
      exact absurd rfl huses
  | switch s target at_ =>
    cases at_ with
    | released => exact fun _ ↦ rfl
    | waitsEntries =>
      simp only [act, Fleet.switch]
      split <;> simp [claimOf, Task.entriesClaim, ht]
    | checked | recorded | waitsLive | stopping g | stopped => exact absurd rfl huses
  | release | look => exact absurd rfl huses
  | shutdown done =>
    cases done with
    | true => exact fun _ ↦ rfl
    | false =>
      simp only [act]
      split <;> simp [claimOf, Task.entriesClaim, ht]
  | sweep at_ =>
    cases at_ with
    | swept => exact fun _ ↦ rfl
    | waitsEntries | asking asked | waitsLive asked u =>
      simp only [act, Fleet.sweep]
      split <;> simp [claimOf, Task.entriesClaim, ht]

theorem entriesClaim_of_stillAsks {t : Option Task}
    (h : stillAsks entries t) : claimOf Task.entriesClaim t ≠ .nothing := by
  revert h
  unfold stillAsks
  split <;> simp [claimOf, Task.entriesClaim]

theorem not_stillAsks_of_startWaits {t : Option Task}
    (h : startWaits t) : ¬ stillAsks entries t := by
  revert h
  unfold startWaits
  split <;> simp [stillAsks]

theorem entriesClaim_of_startWaits {t : Option Task} (h : startWaits t) :
    claimOf Task.entriesClaim t = .asked := by
  revert h
  unfold startWaits
  split <;> simp [claimOf, Task.entriesClaim]

theorem not_letsGo_of_startWaits {t : Option Task} (h : startWaits t) : ¬ letsGo t := by
  revert h
  unfold startWaits
  split <;> simp [letsGo]

/-- **One step of a task** that brings no start and sweep together keeps them apart. -/
theorem Wired.not_clash_act (h : w.Wired) (hno : ¬ w.Clash) (ht : w.tasks i = some t)
    (hapart : w.Apart about (.act i d)) : ¬ (w.act settings about i d t).Clash := by
  rintro ⟨k, j, hk, hj, hasks⟩
  obtain ⟨t', hacts⟩ : ∃ t', w.Acts i t' (w.act settings about i d t) := h.act ht
  have hother : ∀ m, m ≠ i → (w.act settings about i d t).tasks m = w.tasks m := fun m hm ↦ by
    rw [hacts.tasks, Function.update_of_ne hm]
  have hself : (w.act settings about i d t).tasks i = t' := by
    rw [hacts.tasks, Function.update_self]
  -- the sweep was there before
  have hasked : stillAsks w.mounts.entries (w.tasks j) := by
    by_cases hji : j = i
    · subst hji
      rw [ht]
      exact stillAsks_act ht hasks
    · rw [hother j hji] at hasks
      rcases hacts.mounts with hperm | ⟨hholder, hlock⟩
      · rwa [stillAsks_perm hperm] at hasks
      · rw [hlock, hholder] at hj
        exact absurd (Option.some.inj hj).symm hji
  have hclaim := entriesClaim_of_stillAsks hasked
  -- and so was the start, unless it asks for the mounts with this step
  have hwaited : startWaits (w.tasks k) := by
    by_cases hki : k = i
    · subst hki
      rw [ht]
      rcases startWaits_act ht hk with hwaits | ⟨hstart, hlock⟩
      · exact hwaits
      · refine absurd hasked (hapart.1 (ht ▸ hstart) j ?_)
        rw [hlock] at hj
        cases hholder : w.entriesLock.holder with
        | none =>
          simp only [FairLock.ask, hholder, Option.some.injEq] at hj
          exact absurd hasks (hj ▸ not_stillAsks_of_startWaits hk)
        | some m => rwa [FairLock.holder_ask_of_some hholder] at hj
    · rwa [hother k hki] at hk
  generalize hlock : (w.act settings about i d t).entriesLock = l at hj
  have hmoves := hacts.entries
  rw [hlock] at hmoves
  cases hmoves with
  | keep => exact hno ⟨k, j, hwaited, hj, hasked⟩
  | ask hnothing =>
    cases hholder : w.entriesLock.holder with
    | none =>
      simp only [FairLock.ask, hholder, Option.some.injEq] at hj
      exact hclaim (hj ▸ hnothing)
    | some m =>
      rw [FairLock.holder_ask_of_some hholder] at hj
      exact hno ⟨k, j, hwaited, hholder.trans hj, hasked⟩
  | drop hholder hleft =>
    have huses : t.entriesClaim ≠ .nothing := fun hnothing ↦ by
      have hagrees := h.entriesAt ht
      rw [hnothing] at hagrees
      exact hagrees (.inl hholder)
    have hletsGo := letsGo_act ht huses (by rw [hself]; exact hleft)
    have hki : k ≠ i := by
      rintro rfl
      rw [ht] at hwaited
      exact not_letsGo_of_startWaits hwaited hletsGo
    have hqueue : k ∈ w.entriesLock.queue := by
      have hagrees := h.entries.agrees k
      rw [entriesClaim_of_startWaits hwaited] at hagrees
      exact hagrees.resolve_left fun hk ↦ hki (Option.some.inj (hk.symm.trans hholder))
    exact hapart.2 (ht ▸ hletsGo) j hj hasked k hqueue hwaited

/-- A task that begins brings no start and sweep together: it waits behind whoever has the mounts. -/
theorem Wired.not_clash_begin (h : w.Wired) (hno : ¬ w.Clash) (hnone : w.tasks i = none)
    (htasks : w'.tasks = Function.update w.tasks i (some t))
    (hstart : ¬ startWaits (some t))
    (hlock : w'.entriesLock = w.entriesLock ∨ w'.entriesLock = w.entriesLock.ask i)
    (hmounts : w'.mounts = w.mounts) : ¬ w'.Clash := by
  rintro ⟨k, j, hk, hj, hasks⟩
  have hki : k ≠ i := by
    rintro rfl
    rw [htasks, Function.update_self] at hk
    exact hstart hk
  rw [htasks, Function.update_of_ne hki] at hk
  have hfree : ¬ w.entriesLock.Uses i := by
    have hagrees := h.entries.agrees i
    rwa [hnone] at hagrees
  have hwaits : w.entriesLock.Uses k := by
    have hagrees := h.entries.agrees k
    rwa [entriesClaim_of_startWaits hk] at hagrees
  have hold : w.entriesLock.holder = some j := by
    rcases hlock with hlock | hlock
    · rwa [hlock] at hj
    · rw [hlock] at hj
      cases hholder : w.entriesLock.holder with
      | none =>
        rw [FairLock.Uses, h.entries.wellFormed.free hholder, hholder] at hwaits
        rcases hwaits with hwaits | hwaits <;> cases hwaits
      | some m => rwa [FairLock.holder_ask_of_some hholder] at hj
  have hji : j ≠ i := by
    rintro rfl
    exact hfree (.inl hold)
  rw [htasks, Function.update_of_ne hji, hmounts] at hasks
  exact hno ⟨k, j, hk, hold, hasks⟩

theorem not_clash_of_eq (hno : ¬ w.Clash) (hlock : w'.entriesLock = w.entriesLock)
    (htasks : w'.tasks = w.tasks) (hmounts : w'.mounts.entries.Perm w.mounts.entries) :
    ¬ w'.Clash := by
  rintro ⟨k, j, hk, hj, hasks⟩
  rw [htasks] at hk
  rw [hlock] at hj
  rw [htasks, stillAsks_perm hmounts] at hasks
  exact hno ⟨k, j, hk, hj, hasks⟩

/-- **One step** that brings no start and sweep together keeps them apart. -/
theorem Wired.not_clash_step (h : w.Wired) (hno : ¬ w.Clash) (henabled : w.Enabled e)
    (hapart : w.Apart about e) : ¬ (w.step settings about e).Clash := by
  have hidle : ∀ {v : Fleet}, v.entriesLock = w.entriesLock → v.tasks = w.tasks →
      v.mounts.entries.Perm w.mounts.entries → ¬ v.Clash := not_clash_of_eq hno
  cases e with simp only [Fleet.step]
  | send i s | release i s | look i =>
    split
    case isTrue hnone => exact h.not_clash_begin hno hnone rfl (by simp [startWaits]) (.inl rfl) rfl
    case isFalse => exact hno
  | switch i s target =>
    split
    case isTrue hnone =>
      split
      · exact hno
      · exact h.not_clash_begin hno hnone rfl (by simp [startWaits]) (.inl rfl) rfl
    case isFalse => exact hno
  | sweep i | shutdown i =>
    split
    case isTrue hnone => exact h.not_clash_begin hno hnone rfl (by simp [startWaits]) (.inr rfl) rfl
    case isFalse => exact hno
  | act i d =>
    cases ht : w.tasks i with
    | none => exact hno
    | some t => exact h.not_clash_act hno ht hapart
  | turnEnds | pumps =>
    repeat' split
    all_goals exact hno
  | reports | exits | disk => exact hidle rfl rfl (.refl _)
  | rehash entries => exact hidle rfl rfl henabled

/-- A task that holds the live agents and waits for the mounts is a start. -/
theorem Wired.startWaits (h : w.Wired) (hlive : w.liveLock.holder = some i)
    (hentries : i ∈ w.entriesLock.queue) : startWaits (w.tasks i) := by
  have hl := h.live.agrees i
  have he := h.entries.agrees i
  cases ht : w.tasks i with
  | none =>
    rw [ht] at hl
    exact absurd (.inl hlive) hl
  | some t =>
    rw [ht] at hl he
    have hqueue : w.entriesLock.holder ≠ some i := fun hholder ↦
      h.entries.wellFormed.holder i hholder hentries
    cases t with
    | send s at_ =>
      cases at_ with
      | waitsEntries computer => rfl
      | mounted ok => exact absurd he hqueue
      | waitsLive | preparing | starting | spawning computer | failed | running g | told g =>
        exact absurd (.inr hentries) he
    | switch s target at_ =>
      cases at_ with
      | released => exact absurd he hqueue
      | waitsEntries => exact absurd (.inl hlive) hl
      | checked | recorded | waitsLive | stopping g | stopped => exact absurd (.inr hentries) he
    | release | look => exact absurd (.inr hentries) he
    | shutdown done => exact absurd (.inl hlive) hl
    | sweep at_ =>
      cases at_ with
      | waitsLive asked u => exact absurd he hqueue
      | waitsEntries | asking asked | swept => exact absurd (.inl hlive) hl

/-- A task that holds the mounts and waits for the live agents is a sweep that asks. -/
theorem Wired.stillAsks (h : w.Wired) (hentries : w.entriesLock.holder = some i)
    (hlive : i ∈ w.liveLock.queue) : stillAsks w.mounts.entries (w.tasks i) := by
  have hl := h.live.agrees i
  have he := h.entries.agrees i
  have hqueue : w.liveLock.holder ≠ some i := fun hholder ↦
    h.live.wellFormed.holder i hholder hlive
  cases ht : w.tasks i with
  | none =>
    rw [ht] at hl
    exact absurd (.inr hlive) hl
  | some t =>
    rw [ht] at hl he
    cases t with
    | sweep at_ =>
      cases at_ with
      | waitsLive asked u => rfl
      | waitsEntries | asking asked | swept => exact absurd (.inr hlive) hl
    | send s at_ =>
      cases at_ with
      | waitsLive | running g | told g => exact absurd (.inl hentries) he
      | waitsEntries computer | mounted ok | preparing | starting | spawning computer | failed =>
        exact absurd hl hqueue
    | switch s target at_ =>
      cases at_ with
      | waitsEntries | released | checked | recorded | stopped => exact absurd (.inr hlive) hl
      | waitsLive | stopping g => exact absurd (.inl hentries) he
    | release | look => exact absurd (.inl hentries) he
    | shutdown done => exact absurd (.inr hlive) hl

theorem Wired.not_deadlock (h : w.Wired) (hno : ¬ w.Clash) : ¬ w.Deadlock := by
  rintro ⟨i, j, hi, hiq, hj, hjq⟩
  exact hno ⟨i, j, h.startWaits hi hiq, hj, h.stillAsks hj hjq⟩

/-- **No deadlock** in any run whose steps bring no agent start together with a sweep that still asks
`is_live`. -/
theorem no_deadlock_of_run (h : ((system settings about).restrict (Apart about)).Reachable w) :
    ¬ w.Deadlock := by
  have hboth : w.Wired ∧ ¬ w.Clash := by
    refine h.invariant (I := fun w ↦ w.Wired ∧ ¬ w.Clash) (fun w hw ↦ ⟨wired_init hw, ?_⟩) ?_
    · rintro ⟨i, -, hi, -⟩
      obtain ⟨-, -, -, -, -, -, -, htasks⟩ := hw
      rw [htasks i] at hi
      cases hi
    · rintro w e _ - ⟨hwired, hno⟩ ⟨hapart, henabled, rfl⟩
      obtain ⟨i, t, hacts⟩ := hwired.step henabled
      exact ⟨hacts.wired hwired, hwired.not_clash_step hno henabled hapart⟩
  exact hboth.1.not_deadlock hboth.2

end Act

/-! ### A start that meets a sweep -/

/-- Every call succeeds. -/
def fine : Draw := ⟨true, ProjectMounts.calm, 0, "hi", true⟩

/-- A server whose sessions are on another computer. -/
def idle : Fleet where
  live _ := none
  agents _ := none
  generation := 0
  liveLock := .free
  entriesLock := .free
  mounts := .unused
  computers _ := some ⟨"pi", "Pi"⟩
  status _ := .idle
  tasks _ := none

/-- All of them are Claude Code sessions in one project. -/
def inProject (_ : String) : SessionInfo := ⟨.claudeCode, FileTree.Path.ofString "/p"⟩

theorem init_idle : init idle :=
  ⟨fun _ ↦ rfl, fun _ ↦ rfl, rfl, rfl, rfl, rfl, ProjectMounts.bareDisk_closed, fun _ ↦ rfl⟩

/-- A text for a session that has no agent yet, up to where the agent has it. -/
def started (i : ℕ) (s : String) : List Event := .send i s :: List.replicate 8 (.act i fine)

/-- Neither the hash map's order nor the disk changes. -/
def ordinary : Event → Bool
  | .rehash _ | .disk _ => false
  | _ => true

theorem enabled_of_ordinary (h : ordinary e) (w : Fleet) : w.Enabled e := by
  cases e <;> trivial

theorem reachable_run {G : Fleet → Event → Prop} (settings : MountSettings)
    (about : String → SessionInfo) (h : ((system settings about).restrict G).Reachable w)
    (es : List Event) (hordinary : ∀ e ∈ es, ordinary e)
    (hmeet : StepSystem.AllMeet (step settings about) G w es) :
    ((system settings about).restrict G).Reachable (es.foldl (step settings about) w) := by
  induction es generalizing w with
  | nil => exact h
  | cons e es ih =>
    have he := enabled_of_ordinary (hordinary e List.mem_cons_self) w
    exact ih (h.next e ⟨hmeet.1, he, rfl⟩) (fun e he ↦ hordinary e (List.mem_cons_of_mem _ he))
      hmeet.2

/-- Two starts and a sweep, one after the other. -/
theorem no_deadlock_of_run_sequence :
    ∃ w, ((system ⟨false, 0⟩ inProject).restrict (Apart inProject)).Reachable w ∧
      (w.live "s", w.live "t") = (some 0, some 1) ∧
      (w.mounts.entries.map fun e ↦ e.users) = [["t", "s"]] ∧ ¬ w.Deadlock := by
  have hrun := reachable_run (G := Apart inProject) ⟨false, 0⟩ inProject (.start init_idle)
    (started 0 "s" ++ started 1 "t" ++ .sweep 2 :: List.replicate 5 (.act 2 fine))
    (by decide) (by decide +kernel)
  exact ⟨_, hrun, by decide +kernel, by decide +kernel, no_deadlock_of_run hrun⟩

/-- A sweep has the mounts and is about to ask whether the session of the only mount is live; a start
has the live agents and asks for the mounts. -/
theorem deadlock_of_start_in_sweep :
    ¬ ∀ settings about w, (system settings about).Reachable w → ¬ w.Deadlock := by
  intro hall
  have hfirst := reachable_run (G := Apart inProject) ⟨false, 0⟩ inProject (.start init_idle)
    (started 0 "s" ++ [.sweep 1, .act 1 fine, .send 2 "t", .act 2 fine]) (by decide)
    (by decide +kernel)
  have hrun := (hfirst.of_restrict.next (Event.act 2 fine) ⟨trivial, rfl⟩).next (Event.act 1 fine)
    ⟨trivial, rfl⟩
  exact hall _ _ _ hrun (by decide +kernel)

end Fleet

end Ember.Server.Computers
