import Ember.Server.A2a.Sending

/-!
# Who writes a task

`update_task` decides on the row it has read whether a teammate may write it, and then writes the
row by its id: an assignment between the two goes unseen. So a teammate's call can write a task that
was given to another member in the meantime (`not_lawful`). `Sending.Timely` says of a step that it
assigns no task that such a call is about to write; in every run of such steps a teammate writes
only what nobody else is assigned, and assigns only itself (`lawful_of_timely`).
-/

namespace Ember.Server

/-- The session leads the team. -/
def TeamStore.Leads (s : TeamStore) (sessionId teamId : String) : Prop :=
  ∃ m ∈ s.members, m.sessionId = sessionId ∧ m.role = .leader ∧ m.teamId = teamId

/-- Nobody but `caller` is the assignee. -/
def Task.openTo (caller : String) (t : Task) : Bool := t.assignee.all (· == caller)

/-- What a call of `caller` may do to the task list: a row that it changes or adds is of a team it
leads, or was and is open to it. -/
structure Lawful (b b' : Board) (caller : String) : Prop where
  /-- No row goes. -/
  length : b.tasks.tasks.length ≤ b'.tasks.tasks.length
  rows : ∀ (k : ℕ) (t' : Task), b'.tasks.tasks[k]? = some t' → b.tasks.tasks[k]? = some t' ∨
    b.tables.teams.Leads caller t'.teamId ∨
    (∀ t : Task, b.tasks.tasks[k]? = some t → t.openTo caller = true) ∧ t'.openTo caller = true

theorem Lawful.of_tasks {b b' : Board} {caller : String} (h : b'.tasks = b.tasks) :
    Lawful b b' caller :=
  ⟨(congrArg (·.tasks.length) h).ge, fun _ _ ht ↦ .inl (h ▸ ht)⟩

namespace Call

/-- The row that a teammate's `update_task` has found open to it and is still to write, and the
teammate. -/
def pending (c : Call) : Option (String × String) :=
  match c.at_ with
  | .reassigning me task _ _ | .writing me task _ _ =>
    if me.role = .teammate ∧ task.openTo c.req.caller then some (task.id, c.req.caller) else none
  | _ => none

/-- The row whose assignee the next store call writes, and the new assignee. -/
def assigns (c : Call) : Option (String × String) :=
  match c.at_ with
  | .writing _ task _ (some (some a)) => some (task.id, a.sessionId)
  | _ => none

end Call

namespace Sending

/-- No task is given to a member while another teammate's call has found it open and is still to
write it. -/
def Timely (w : Calls Board Call) : CallAct Request (Except String String) BoardAct → Prop
  | .step i (.ok _) =>
    ∀ c id a, w.call i = some c → c.assigns = some (id, a) →
      ∀ j q caller, j ≠ i → w.call j = some q → q.pending = some (id, caller) → caller = a
  | _ => True

end Sending

/-! ### What a call knows about the task it writes -/

/-- `me` is the row of `caller`, but for its end. -/
def Enrolled (b : Board) (caller : String) (me : MemberRow) : Prop :=
  me.sessionId = caller ∧
    ∃ m ∈ b.tables.teams.members, m.sessionId = caller ∧ m.role = me.role ∧ m.teamId = me.teamId

/-- There is a row with the task's id, and it is of this team. -/
def Known (b : Board) (teamId : String) (task : Task) : Prop :=
  (∃ t ∈ b.tasks.tasks, t.id = task.id) ∧ ∀ t ∈ b.tasks.tasks, t.id = task.id → t.teamId = teamId

/-- A row that was open to a teammate still is. -/
def Open (b : Board) (caller : String) (me : MemberRow) (task : Task) : Prop :=
  me.role = .teammate → task.openTo caller = true →
    ∀ t ∈ b.tasks.tasks, t.id = task.id → t.openTo caller = true

/-- What the checks of a call leave known. -/
def At.Entitled (b : Board) (caller : String) : At → Prop
  | .resolving me _ | .reading me => Enrolled b caller me
  | .inserting me assignee => Enrolled b caller me ∧
      (me.role = .teammate → ∀ a ∈ assignee, a.sessionId = caller)
  | .reassigning me task _ _ => Enrolled b caller me ∧ Known b me.teamId task ∧ Open b caller me task
  | .writing me task _ assignee => Enrolled b caller me ∧ Known b me.teamId task ∧
      Open b caller me task ∧ (me.role = .teammate → task.openTo caller = true ∧
        ∀ a, assignee = some (some a) → a.sessionId = caller)
  | _ => True

variable {b b' : Board} {caller : String} {me : MemberRow} {task : Task} {p : At}

theorem Enrolled.leads (h : Enrolled b caller me) (hrole : me.role = .leader) :
    b.tables.teams.Leads caller me.teamId := by
  obtain ⟨-, m, hm, hid, hmrole, hteam⟩ := h
  exact ⟨m, hm, hid, hmrole.trans hrole, hteam⟩

theorem Enrolled.grows (h : Enrolled b caller me)
    (hgrows : b.tables.teams.Grows b'.tables.teams) : Enrolled b' caller me := by
  obtain ⟨hme, m, hm, hid, hrole, hteam⟩ := h
  refine ⟨hme, ?_⟩
  rcases hgrows.members m hm with hm | ⟨now, hm⟩
  · exact ⟨m, hm, hid, hrole, hteam⟩
  · exact ⟨m.ended now, hm, hid, hrole, hteam⟩

/-- What else happens leaves what is known of the tasks, and memberships only end. -/
theorem At.Entitled.grows (h : p.Entitled b caller) (htasks : b'.tasks = b.tasks)
    (hgrows : b.tables.teams.Grows b'.tables.teams) : p.Entitled b' caller := by
  cases p with
  | resolving | reading => exact Enrolled.grows h hgrows
  | inserting => exact ⟨h.1.grows hgrows, h.2⟩
  | reassigning =>
    obtain ⟨henrolled, hknown, hopen⟩ := h
    exact ⟨henrolled.grows hgrows, by rwa [Known, htasks], by rwa [Open, htasks]⟩
  | writing =>
    obtain ⟨henrolled, hknown, hopen, hself⟩ := h
    exact ⟨henrolled.grows hgrows, by rwa [Known, htasks], by rwa [Open, htasks], hself⟩
  | _ => trivial

/-! ### What a call finds out -/

theorem enrolled_of_membership (h : b.tables.membership caller = .ok me) : Enrolled b caller me := by
  obtain ⟨hmem, hid, -⟩ := Tables.of_membership h
  exact ⟨hid, me, hmem, hid, rfl, rfl⟩

theorem At.Late.entitled (h : p.Late) : p.Entitled b caller := by
  cases p <;> first | trivial | cases h

variable {teamId : String}

/-- A row that was just read is the only one with its id. -/
theorem known_of_teamTask (hids : (b.tasks.tasks.map Task.id).Nodup) {number : ℕ}
    (h : b.tasks.teamTask teamId number = some task) :
    Known b teamId task ∧ ∀ t ∈ b.tasks.tasks, t.id = task.id → t = task := by
  have hmem : task ∈ b.tasks.tasks := List.mem_of_find?_eq_some h
  have hone : ∀ t ∈ b.tasks.tasks, t.id = task.id → t = task := fun t ht hid ↦
    List.inj_on_of_nodup_map hids ht hmem hid
  have hfound : (task.teamId == teamId && task.number == number) = true :=
    List.find?_some (p := fun t : Task ↦ t.teamId == teamId && t.number == number) h
  have hteam : task.teamId = teamId := beq_iff_eq.1 (Bool.and_eq_true_iff.1 hfound).1
  exact ⟨⟨⟨task, hmem, rfl⟩, fun t ht hid ↦ hone t ht hid ▸ hteam⟩, hone⟩

variable {id : String}

namespace Call

variable {c : Call} {cfg : A2aConfig}

theorem openTo_of_not_any {t : Task} (h : ¬ t.assignee.any (· ≠ caller) = true) :
    t.openTo caller = true := by
  rw [Task.openTo]
  cases hassignee : t.assignee with
  | none => rfl
  | some a => simpa [hassignee] using h

theorem entitled_reviewed (henrolled : Enrolled b c.req.caller me) (hknown : Known b me.teamId task)
    (hopen : Open b c.req.caller me task) (status : Option TaskStatus)
    (assignee : Option (Option MemberRow)) :
    (c.reviewed me task status assignee).at_.Entitled b c.req.caller := by
  simp only [reviewed]
  split
  case isTrue => trivial
  case isFalse hrow =>
    split
    case isTrue => trivial
    case isFalse hself =>
      refine ⟨henrolled, hknown, hopen, fun hrole ↦ ⟨?_, fun a ha ↦ ?_⟩⟩
      · exact openTo_of_not_any fun hany ↦ hrow ⟨hrole, hany⟩
      · refine by_contra fun hne ↦ hself ⟨hrole, ?_⟩
        rw [ha]
        exact decide_eq_true hne

theorem entitled_joined (h : Enrolled b c.req.caller me) :
    (c.joined me).at_.Entitled b c.req.caller := by
  simp only [joined]
  split
  · split
    · trivial
    · split
      · exact h
      · trivial
  · split
    · trivial
    · split
      · exact h
      · exact ⟨h, fun _ a ha ↦ by cases ha⟩
  · exact h

theorem entitled_found (h : Enrolled b c.req.caller me) (hknown : Known b me.teamId task)
    (hopen : Open b c.req.caller me task) (patch : TaskPatch) :
    (c.found me task patch).at_.Entitled b c.req.caller := by
  simp only [found]
  split
  · trivial
  · split
    · exact entitled_reviewed h hknown hopen _ _
    · split
      · exact entitled_reviewed h hknown hopen _ _
      · exact ⟨h, hknown, hopen⟩

theorem entitled_resolved {m : MemberRow} (h : Enrolled b c.req.caller me) :
    (c.resolved me m).at_.Entitled b c.req.caller := by
  simp only [resolved]
  split
  · split <;> trivial
  · split
    case isTrue => trivial
    case isFalse hself =>
      refine ⟨h, fun hrole a ha ↦ ?_⟩
      obtain rfl := Option.mem_some.1 ha
      exact (by_contra fun hne ↦ hself ⟨hrole, hne⟩ : m.sessionId = me.sessionId).trans h.1

variable {c : Call} {cfg : A2aConfig}

/-- What is known after a store call outside the locked part. -/
theorem entitled_goes (hids : (b.tasks.tasks.map Task.id).Nodup)
    (h : c.at_.Entitled b c.req.caller) :
    (c.goes cfg b id).2.at_.Entitled (c.goes cfg b id).1 c.req.caller := by
  cases hat : c.at_ with
  | checking k =>
    simp only [goes, hat]
    split
    · trivial
    · trivial
    · simp only [checked]
      split <;> trivial
  | finding | found =>
    simp only [goes, hat]
    split
    · split <;> trivial
    · exact hat ▸ trivial
  | switched | locked | answered =>
    simp only [goes, hat]
    trivial
  | scoping me =>
    simp only [goes, hat]
    split
    · split
      · trivial
      · simp only [permitted]
        split
        · trivial
        · trivial
        · exact hat ▸ trivial
    · exact hat ▸ trivial
  | replying r =>
    simp only [goes, hat]
    split
    · split <;> trivial
    · trivial
  | joining =>
    simp only [goes, hat]
    split
    case h_1 => trivial
    case h_2 me hme => exact entitled_joined (enrolled_of_membership hme)
  | resolving me who =>
    rw [hat] at h
    simp only [goes, hat]
    split
    · trivial
    · exact entitled_resolved h
  | gathering | rereading | reporting =>
    simp only [goes, hat]
    split <;> trivial
  | switching me target recipients rest off =>
    cases rest with
    | nil =>
      simp only [goes, hat, addressed]
      split
      · split <;> trivial
      · exact hat ▸ trivial
    | cons r rest =>
      simp only [goes, hat]
      trivial
  | inserting me assignee =>
    simp only [goes, hat]
    split
    · split
      · trivial
      · split
        · split <;> trivial
        · trivial
    · exact h
  | reading me =>
    rw [hat] at h
    simp only [goes, hat]
    split
    · split
      case h_1 => trivial
      case h_2 task htask =>
        obtain ⟨hknown, hone⟩ := known_of_teamTask hids htask
        refine entitled_found h hknown (fun _ hopen t ht hid ↦ ?_) _
        rwa [hone t ht hid]
    · exact hat ▸ h
  | reassigning me task status who =>
    rw [hat] at h
    simp only [goes, hat]
    split
    · trivial
    · exact entitled_reviewed h.1 h.2.1 h.2.2 _ _
  | writing me task status assignee =>
    simp only [goes, hat]
    split
    · trivial
    · exact h
  | naming me task updated status assignee =>
    simp only [goes, hat, named]
    split
    · split
      · trivial
      · exact (late_proceed ..).entitled
    · exact (late_proceed ..).entitled
  | delivering mail rest done after =>
    cases rest with
    | nil =>
      simp only [goes, hat]
      exact (late_delivered ..).entitled
    | cons msg rest =>
      simp only [goes, hat]
      trivial
  | targeting tokens k =>
    simp only [goes, hat]
    split
    · trivial
    case h_2 result _ => cases result <;> trivial
  | titling | noting =>
    simp only [goes, hat]
    exact (Mentioning.late_next ..).entitled
  | copying m token target =>
    simp only [goes, hat]
    split
    · rw [at_goTo]
      exact (Mentioning.late_outcome ..).entitled
    · trivial
  | copied m token target msg =>
    simp only [goes, hat]
    rw [at_goTo]
    exact (Mentioning.late_outcome ..).entitled

end Call

/-! ### What a write does -/

variable {assignee : Option (Option String)} {now : ℕ} {status : Option TaskStatus}

namespace TaskStore

theorem patched_id (title detail : Option String) (status : Option TaskStatus)
    (assignee : Option (Option String)) (now : ℕ) (t : Task) :
    (patched title detail status assignee now t).id = t.id ∧
      (patched title detail status assignee now t).teamId = t.teamId := ⟨rfl, rfl⟩

/-- A row that is written is open to `caller` if it was and the patch leaves it so. -/
theorem openTo_patched {t : Task} (hopen : t.openTo caller = true)
    (hassignee : ∀ a, assignee = some (some a) → a = caller) (title detail : Option String)
    (status : Option TaskStatus) (now : ℕ) :
    (patched title detail status assignee now t).openTo caller = true := by
  show ((assignee.getD t.assignee).all (· == caller)) = true
  match assignee, hassignee with
  | none, _ => exact hopen
  | some none, _ => rfl
  | some (some a), h => simpa using h a rfl

/-- The table after a write is the table with some rows written. -/
theorem mem_updateTeamTask {s : TaskStore} {title detail : Option String} {t' : Task}
    (h : t' ∈ (s.updateTeamTask id title detail status assignee now).tasks) :
    ∃ t ∈ s.tasks, t'.id = t.id ∧ t'.teamId = t.teamId ∧
      (t.id ≠ id ∧ t' = t ∨ t.id = id ∧ t' = patched title detail status assignee now t) := by
  obtain ⟨t, ht, rfl⟩ := List.mem_map.1 h
  by_cases hid : t.id = id
  · rw [if_pos hid]
    exact ⟨t, ht, rfl, rfl, .inr ⟨hid, rfl⟩⟩
  · rw [if_neg hid]
    exact ⟨t, ht, rfl, rfl, .inl ⟨hid, rfl⟩⟩

theorem ids_updateTeamTask (s : TaskStore) (id : String) (title detail : Option String)
    (status : Option TaskStatus) (assignee : Option (Option String)) (now : ℕ) :
    (s.updateTeamTask id title detail status assignee now).tasks.map Task.id =
      s.tasks.map Task.id := by
  rw [updateTeamTask, List.map_map]
  refine List.map_congr_left fun t _ ↦ ?_
  simp only [Function.comp_apply]
  split <;> rfl

/-- What a new row looks like: the last one, open, with a new id. -/
theorem insertTeamTask_eq_some {s s' : TaskStore} {title detail createdBy : String}
    {assignee : Option String} {task : Task}
    (h : s.insertTeamTask id now teamId title detail assignee createdBy = some (s', task)) :
    s'.tasks = s.tasks ++ [task] ∧ task.id = id ∧ task.teamId = teamId ∧ task.assignee = assignee ∧
      ∀ t ∈ s.tasks, t.id ≠ id := by
  rw [insertTeamTask] at h
  split at h
  case isTrue => cases h
  case isFalse hfree =>
    obtain ⟨rfl, rfl⟩ := Prod.mk.inj (Option.some.inj h)
    exact ⟨rfl, rfl, rfl, rfl, fun t ht hid ↦ hfree (List.any_eq_true.2 ⟨t, ht, by simp [hid]⟩)⟩

end TaskStore

namespace Call

variable {c : Call} {cfg : A2aConfig} {d : Except String String}

/-- **What a step does to the task list**: nothing, a row more, or a write by its id. -/
theorem tasks_act (cfg : A2aConfig) (b : Board) (c : Call) (d : Except String String) :
    (c.act cfg b d).1.tables.teams = b.tables.teams ∧
      ((c.act cfg b d).1.tasks = b.tasks ∨
      (∃ id me assignee title detail tasks task, d = .ok id ∧ c.at_ = .inserting me assignee ∧
        b.tasks.insertTeamTask id b.clock me.teamId title detail
          (assignee.map MemberRow.sessionId) c.req.caller = some (tasks, task) ∧
        (c.act cfg b d).1.tasks = tasks) ∨
      ∃ id me task status assignee title detail, d = .ok id ∧
        c.at_ = .writing me task status assignee ∧
        (c.act cfg b d).1.tasks = b.tasks.updateTeamTask task.id title detail status
          (assignee.map fun a ↦ a.map MemberRow.sessionId) b.clock) := by
  rcases act_cases cfg b c d with ⟨out, k, after, hat, hcases⟩ |
    ⟨hfree, ⟨id, rfl, h⟩ | ⟨why, rfl, h⟩⟩
  · have hframe := LockedAt.frame_step cfg b out d k
    rcases hcases with ⟨k', -, h⟩ | ⟨result, -, h⟩ <;>
      (rw [h]; exact ⟨hframe.teams, .inl hframe.tasks⟩)
  · rw [h]
    rcases goes_board cfg b c id with h | ⟨me, assignee, new, tasks, task, hat, -, hinsert, h⟩ |
      ⟨me, task, status, assignee, title, detail, hat, h⟩ | ⟨_, _, _, _, _, -, -, h⟩ | ⟨_, h⟩ <;> rw [h]
    · exact ⟨rfl, .inl rfl⟩
    · exact ⟨rfl, .inr (.inl ⟨id, me, assignee, _, _, tasks, task, rfl, hat, hinsert, rfl⟩)⟩
    · exact ⟨rfl, .inr (.inr ⟨id, me, task, status, assignee, title, detail, rfl, hat, rfl⟩)⟩
    · exact ⟨rfl, .inl rfl⟩
    · exact ⟨rfl, .inl rfl⟩
  · rw [h]
    exact ⟨rfl, .inl rfl⟩

/-- What is known of the call that takes the step. -/
theorem entitled_step (hids : (b.tasks.tasks.map Task.id).Nodup)
    (h : c.at_.Entitled b c.req.caller) :
    (c.step cfg b d).2.at_.Entitled (c.step cfg b d).1 (c.step cfg b d).2.req.caller := by
  rw [c.req_step]
  show (c.act cfg b d).2.at_.Entitled (c.act cfg b d).1 c.req.caller
  rcases act_cases cfg b c d with ⟨out, k, after, hat, hcases⟩ |
    ⟨hfree, ⟨id, rfl, hact⟩ | ⟨why, rfl, hact⟩⟩
  · rcases hcases with ⟨k', -, hact⟩ | ⟨result, -, hact⟩ <;> rw [hact]
    · trivial
    · exact (late_unlocked ..).entitled
  · rw [hact]
    exact entitled_goes hids h
  · rw [hact]
    exact (late_fails ..).entitled

/-- **A call writes lawfully** while what it knows of the row is so. -/
theorem lawful_step (h : c.at_.Entitled b c.req.caller) :
    Lawful b (c.step cfg b d).1 c.req.caller := by
  show Lawful b (c.act cfg b d).1 c.req.caller
  obtain ⟨-, htasks | ⟨id, me, assignee, title, detail, tasks, task, -, hat, hinsert, htasks⟩ |
    ⟨id, me, task, status, assignee, title, detail, -, hat, htasks⟩⟩ := tasks_act cfg b c d
  · exact .of_tasks htasks
  · rw [hat] at h
    obtain ⟨henrolled, hself⟩ := h
    obtain ⟨happend, -, hteam, hassignee, -⟩ := TaskStore.insertTeamTask_eq_some hinsert
    refine ⟨by rw [htasks, happend, List.length_append]; exact Nat.le_add_right _ _,
      fun k t' ht' ↦ ?_⟩
    rw [htasks, happend] at ht'
    rcases Nat.lt_or_ge k b.tasks.tasks.length with hk | hk
    · exact .inl ((List.getElem?_append_left hk).symm.trans ht')
    · rw [List.getElem?_append_right hk] at ht'
      obtain rfl := List.mem_singleton.1 (List.mem_of_getElem? ht')
      refine .inr ?_
      cases hrole : me.role with
      | leader => exact .inl (hteam ▸ henrolled.leads hrole)
      | teammate =>
        refine .inr ⟨fun t ht ↦ ?_, ?_⟩
        · rw [List.getElem?_eq_none hk] at ht
          cases ht
        · rw [Task.openTo, hassignee, Option.all_map]
          refine (Option.all_eq_true _ _).2 fun a ha ↦ ?_
          simpa using hself hrole a ha
  · rw [hat] at h
    obtain ⟨henrolled, hknown, hopen, hself⟩ := h
    refine ⟨by rw [htasks]; simp [TaskStore.updateTeamTask], fun k t' ht' ↦ ?_⟩
    rw [htasks, TaskStore.updateTeamTask, List.getElem?_map] at ht'
    obtain ⟨t, ht, rfl⟩ := Option.map_eq_some_iff.1 ht'
    by_cases hid : t.id = task.id
    · rw [if_pos hid]
      refine .inr ?_
      have hmem := List.mem_of_getElem? ht
      cases hrole : me.role with
      | leader =>
        refine .inl ?_
        rw [(TaskStore.patched_id ..).2, hknown.2 t hmem hid]
        exact henrolled.leads hrole
      | teammate =>
        obtain ⟨hrow, hassignee⟩ := hself hrole
        have hnow := hopen hrole hrow t hmem hid
        refine .inr ⟨fun t₀ ht₀ ↦ ?_, ?_⟩
        · obtain rfl := Option.some.inj (ht.symm.trans ht₀)
          exact hnow
        · refine TaskStore.openTo_patched hnow (fun a ha ↦ ?_) ..
          obtain ⟨x, hx, hxa⟩ := Option.map_eq_some_iff.1 ha
          obtain ⟨m, rfl, rfl⟩ := Option.map_eq_some_iff.1 hxa
          exact hassignee m hx
    · rw [if_neg hid]
      exact .inl ht

end Call

/-- A table with the rows of another, perhaps written, and rows with new ids. -/
structure TaskStore.Follows (s s' : TaskStore) : Prop where
  kept : ∀ t ∈ s.tasks, ∃ t' ∈ s'.tasks, t'.id = t.id
  rows : ∀ t' ∈ s'.tasks, (∃ t ∈ s.tasks, t'.id = t.id ∧ t'.teamId = t.teamId) ∨
    ∀ t ∈ s.tasks, t'.id ≠ t.id

theorem Known.follows (h : Known b teamId task)
    (hfollows : b.tasks.Follows b'.tasks) : Known b' teamId task := by
  obtain ⟨⟨t, ht, hid⟩, hteam⟩ := h
  refine ⟨?_, fun t' ht' hid' ↦ ?_⟩
  · obtain ⟨t', ht', hsame⟩ := hfollows.kept t ht
    exact ⟨t', ht', hsame.trans hid⟩
  · rcases hfollows.rows t' ht' with ⟨t₀, ht₀, hsame, hsameTeam⟩ | hnew
    · exact hsameTeam.trans (hteam t₀ ht₀ (hsame.symm.trans hid'))
    · exact absurd (hid'.trans hid.symm) (hnew t ht)

namespace TaskStore

theorem follows_insertTeamTask {s s' : TaskStore} {title detail createdBy : String}
    {assignee : Option String}
    (h : s.insertTeamTask id now teamId title detail assignee createdBy = some (s', task)) :
    s.Follows s' := by
  obtain ⟨happend, hid, -, -, hfresh⟩ := insertTeamTask_eq_some h
  refine ⟨fun t ht ↦ ⟨t, happend ▸ List.mem_append_left _ ht, rfl⟩, fun t' ht' ↦ ?_⟩
  rcases List.mem_append.1 (happend ▸ ht') with ht' | ht'
  · exact .inl ⟨t', ht', rfl, rfl⟩
  · obtain rfl := List.mem_singleton.1 ht'
    exact .inr fun t ht heq ↦ hfresh t ht (heq.symm.trans hid)

theorem follows_updateTeamTask (s : TaskStore) (id : String) (title detail : Option String)
    (status : Option TaskStatus) (assignee : Option (Option String)) (now : ℕ) :
    s.Follows (s.updateTeamTask id title detail status assignee now) := by
  refine ⟨fun t ht ↦ ⟨_, List.mem_map_of_mem ht, by split <;> rfl⟩, fun t' ht' ↦ ?_⟩
  obtain ⟨t, ht, hid, hteam, -⟩ := mem_updateTeamTask ht'
  exact .inl ⟨t, ht, hid, hteam⟩

end TaskStore

/-- A row that was open to the caller still is after a row more. -/
theorem Open.insert {title detail createdBy : String} {assignee : Option String} {new : Task}
    (h : Open b caller me task) (hknown : ∃ t ∈ b.tasks.tasks, t.id = task.id)
    (hinsert : b.tasks.insertTeamTask id now teamId title detail assignee createdBy =
      some (b'.tasks, new)) : Open b' caller me task := by
  intro hrole hopen t' ht' hid'
  obtain ⟨happend, hid, -, -, hfresh⟩ := TaskStore.insertTeamTask_eq_some hinsert
  obtain ⟨t, ht, hsame⟩ := hknown
  rcases List.mem_append.1 (happend ▸ ht') with hmem | hmem
  · exact h hrole hopen t' hmem hid'
  · obtain rfl := List.mem_singleton.1 hmem
    exact absurd (hsame.trans (hid'.symm.trans hid)) (hfresh t ht)

/-- A row that was open to the caller still is after a write that gives it to nobody else. -/
theorem Open.update {title detail : Option String} (h : Open b caller me task)
    (htasks : b'.tasks = b.tasks.updateTeamTask id title detail status assignee now)
    (hself : me.role = .teammate → task.openTo caller = true → id = task.id →
      ∀ a, assignee = some (some a) → a = caller) : Open b' caller me task := by
  intro hrole hopen t' ht' hid'
  obtain ⟨t, ht, hid, -, ⟨-, rfl⟩ | ⟨hwritten, rfl⟩⟩ := TaskStore.mem_updateTeamTask (htasks ▸ ht')
  · exact h hrole hopen t' ht hid'
  · have htask : t.id = task.id := hid.symm.trans hid'
    exact TaskStore.openTo_patched (h hrole hopen t ht htask)
      (hself hrole hopen (hwritten.symm.trans htask)) ..

namespace Call

variable {c : Call} {cfg : A2aConfig} {d : Except String String}

/-- What is known of another call, if the step gives no row away that it is about to write. -/
theorem entitled_other {q : Call} (hq : q.at_.Entitled b q.req.caller)
    (htimely : ∀ id a, (∃ s, d = .ok s) → c.assigns = some (id, a) →
      ∀ caller, q.pending = some (id, caller) → caller = a) :
    q.at_.Entitled (c.step cfg b d).1 q.req.caller := by
  obtain ⟨hteams, htasks⟩ : (c.step cfg b d).1.tables.teams = b.tables.teams ∧ _ :=
    tasks_act cfg b c d
  have hgrows : b.tables.teams.Grows (c.step cfg b d).1.tables.teams := hteams ▸ .refl _
  have hfollows : b.tasks.Follows (c.step cfg b d).1.tasks := by
    rcases htasks with h | ⟨_, _, _, _, _, _, _, -, -, hinsert, h⟩ | ⟨_, _, _, _, _, _, _, -, -, h⟩
    · have : (c.step cfg b d).1.tasks = b.tasks := h
      rw [this]
      exact ⟨fun t ht ↦ ⟨t, ht, rfl⟩, fun t ht ↦ .inl ⟨t, ht, rfl, rfl⟩⟩
    · exact (show (c.step cfg b d).1.tasks = _ from h) ▸ TaskStore.follows_insertTeamTask hinsert
    · exact (show (c.step cfg b d).1.tasks = _ from h) ▸ TaskStore.follows_updateTeamTask ..
  -- What `q` has read is open still: a write that gives it to somebody gives it to the caller of `q`.
  have hopen : ∀ {me : MemberRow} {task : Task}, (me.role = .teammate →
      task.openTo q.req.caller = true → q.pending = some (task.id, q.req.caller)) →
      Known b me.teamId task → Open b q.req.caller me task →
      Open (c.step cfg b d).1 q.req.caller me task := by
    intro me task hpending hknown hopen
    rcases htasks with h | ⟨_, _, _, _, _, _, _, -, -, hinsert, h⟩ |
      ⟨s, _, written, _, assignee, _, _, hd, hat, h⟩
    · have : (c.step cfg b d).1.tasks = b.tasks := h
      rwa [Open, this]
    · exact hopen.insert hknown.1 ((show (c.step cfg b d).1.tasks = _ from h) ▸ hinsert)
    · refine hopen.update h fun hrole hrow hid a ha ↦ ?_
      obtain ⟨x, rfl, hxa⟩ := Option.map_eq_some_iff.1 ha
      obtain ⟨m, rfl, rfl⟩ := Option.map_eq_some_iff.1 hxa
      refine (htimely task.id _ ⟨s, hd⟩ ?_ _ (hpending hrole hrow)).symm
      rw [assigns, hat]
      exact congrArg (fun id ↦ some (id, m.sessionId)) hid
  cases hat : q.at_ with rw [hat] at hq
  | resolving | reading =>
    exact Enrolled.grows hq hgrows
  | inserting =>
    exact ⟨hq.1.grows hgrows, hq.2⟩
  | reassigning me task status who =>
    obtain ⟨henrolled, hknown, hrow⟩ := hq
    refine ⟨henrolled.grows hgrows, hknown.follows hfollows, hopen (fun hrole hfree ↦ ?_) hknown hrow⟩
    rw [pending, hat]
    exact if_pos ⟨hrole, hfree⟩
  | writing me task status assignee =>
    obtain ⟨henrolled, hknown, hrow, hself⟩ := hq
    refine ⟨henrolled.grows hgrows, hknown.follows hfollows,
      hopen (fun hrole hfree ↦ ?_) hknown hrow, hself⟩
    rw [pending, hat]
    exact if_pos ⟨hrole, hfree⟩
  | _ => trivial

/-- Task ids stay different. -/
theorem ids_step (hids : (b.tasks.tasks.map Task.id).Nodup) :
    ((c.step cfg b d).1.tasks.tasks.map Task.id).Nodup := by
  obtain ⟨-, h | ⟨_, _, _, _, _, _, task, -, -, hinsert, h⟩ | ⟨_, _, _, _, _, _, _, -, -, h⟩⟩ :=
    tasks_act cfg b c d
  · exact (show (c.step cfg b d).1.tasks = _ from h) ▸ hids
  · obtain ⟨happend, hid, -, -, hfresh⟩ := TaskStore.insertTeamTask_eq_some hinsert
    rw [show (c.step cfg b d).1.tasks = _ from h, happend, List.map_append]
    refine List.nodup_append.2 ⟨hids, List.nodup_singleton _, fun i hi j hj ↦ ?_⟩
    obtain ⟨t, ht, rfl⟩ := List.mem_map.1 hi
    obtain rfl : j = task.id := by simpa using hj
    exact fun heq ↦ hfresh t ht (heq.trans hid)
  · rw [show (c.step cfg b d).1.tasks = _ from h, TaskStore.ids_updateTeamTask]
    exact hids

theorem entitled_enter (b : Board) (req : Request) :
    req.enter.at_.Entitled b req.enter.req.caller := by
  rw [Request.enter.eq_def]
  dsimp only
  split
  · split
    · trivial
    · split <;> trivial
  · split <;> trivial
  · trivial

end Call

namespace Sending

variable {cfg : A2aConfig}

/-- Everything else that happens leaves the tasks alone, and rows of members stay but for their end.
-/
theorem grows_env (b : Board) (e : BoardAct) :
    (b.env e).tasks = b.tasks ∧ b.tables.teams.Grows (b.env e).tables.teams := by
  cases e with
  | createTeam id leader project =>
    simp only [Board.env]
    split
    · exact ⟨rfl, .refl _⟩
    case h_2 h => exact ⟨rfl, TeamStore.grows_createTeam h⟩
  | addTeamMember teamId sessionId name =>
    simp only [Board.env]
    split
    · exact ⟨rfl, .refl _⟩
    case h_2 h => exact ⟨rfl, TeamStore.grows_addTeamMember h⟩
  | endTeamMember sessionId => exact ⟨rfl, TeamStore.grows_endTeamMember _ _ _⟩
  | firstPrompt =>
    simp only [Board.env]
    split <;> exact ⟨rfl, .refl _⟩
  | _ => exact ⟨rfl, .refl _⟩

/-- **Who writes a task**: in every run that gives no task away while a teammate's call is about to
write it, a call changes and adds only rows of a team that its caller leads, or rows that were and
are open to its caller. -/
theorem lawful_of_timely {history : List StoreOp} {a2a : A2aStore} {globalEnabled : Option Bool}
    {sessionEnabled : String → Bool} {clock : ℕ} {w : Calls Board Call}
    (h : ((Calls.system (program cfg)
      (start history a2a globalEnabled sessionEnabled clock)).restrict Timely).Reachable w)
    {i : ℕ} {c : Call} (hc : w.call i = some c) (d : Except String String) :
    Lawful w.shared (c.step cfg w.shared d).1 c.req.caller := by
  refine Call.lawful_step ((Calls.invariant (I := fun b ↦ (b.tasks.tasks.map Task.id).Nodup)
    (J := fun b c ↦ c.at_.Entitled b c.req.caller) List.nodup_nil
    (fun b req _ ↦ Call.entitled_enter b req) ?_ ?_ h).2 i c hc)
  · intro w e _ hids
    obtain ⟨htasks, hgrows⟩ := grows_env w.shared e
    exact ⟨(congrArg (fun s ↦ (s.tasks.map Task.id).Nodup) htasks).mpr hids,
      fun q hq ↦ At.Entitled.grows hq htasks hgrows⟩
  · intro w i d c htimely hc hids hcalls
    refine ⟨Call.ids_step hids,
      fun c' hc' ↦ Option.some.inj hc' ▸ Call.entitled_step hids (hcalls i c hc),
      fun j q hj hq ↦ Call.entitled_other (hcalls j q hq) ?_⟩
    rintro id a ⟨s, rfl⟩ hassigns caller hpending
    exact htimely c id a hc hassigns j q caller hj hq hpending

/-- No call but one that waits to write an assignee, as a test on the states of a run. -/
def AssignsNothing (w : Calls Board Call) : CallAct Request (Except String String) BoardAct → Bool
  | .step i (.ok _) => ((w.call i).bind Call.assigns).isNone
  | _ => true

theorem timely_of_assignsNothing {w : Calls Board Call}
    {l : CallAct Request (Except String String) BoardAct} (h : AssignsNothing w l = true) :
    Timely w l := by
  cases l with
  | step i d =>
    cases d with
    | ok s =>
      intro c id a hc hassigns
      rw [AssignsNothing, hc, Option.bind_some, hassigns] at h
      cases h
    | error => trivial
  | _ => trivial

/-- Limits, and a server with messaging on. -/
def exampleConfig : A2aConfig := ⟨true, 600000, 20, 10⟩

/-- The leader adds a task, and a teammate's call to claim it comes to the write. -/
def claimActs : List (CallAct Request (Except String String) BoardAct) :=
  [.env (.createTeam "t" "lead-s" "p"), .env (.addTeamMember "t" "bob-s" "bob"),
    .env (.addTeamMember "t" "ann-s" "ann"), .start 0 (.addTask "lead-s" ⟨"review", none, none⟩),
    .step 0 (.ok ""), .step 0 (.ok ""), .step 0 (.ok ""), .step 0 (.ok "task"),
    .start 1 (.updateTask "bob-s" 1 ⟨none, none, some "done", none⟩),
    .step 1 (.ok ""), .step 1 (.ok ""), .step 1 (.ok ""), .step 1 (.ok "")]

/-- The state after some acts on an empty server. -/
def after (acts : List (CallAct Request (Except String String) BoardAct)) : Calls Board Call :=
  acts.foldl (Calls.act (program exampleConfig)) (Calls.idle (start [] ⟨[]⟩ none (fun _ ↦ true) 0))

/-- A teammate's call writes an unassigned row. -/
theorem lawful_of_claim :
    ∃ c, (after claimActs).call 1 = some c ∧ c.req.caller = "bob-s" ∧
      (c.step exampleConfig (after claimActs).shared (.ok "")).1.tasks ≠
        (after claimActs).shared.tasks ∧
      Lawful (after claimActs).shared
        (c.step exampleConfig (after claimActs).shared (.ok "")).1 c.req.caller := by
  obtain ⟨c, hc⟩ := Option.isSome_iff_exists.1
    (show ((after claimActs).call 1).isSome = true by decide +kernel)
  have hcaller : ((after claimActs).call 1).map (·.req.caller) = some "bob-s" := by decide +kernel
  have hwrites : ((after claimActs).call 1).map (fun c ↦
      (c.step exampleConfig (after claimActs).shared (.ok "")).1.tasks.tasks.map Task.status) =
        some [.done] := by decide +kernel
  have hbefore : (after claimActs).shared.tasks.tasks.map Task.status = [.open_] := by
    decide +kernel
  have hrun : ((Calls.system (program exampleConfig)
      (start [] ⟨[]⟩ none (fun _ ↦ true) 0)).restrict Timely).Reachable (after claimActs) := by
    have hstart : ((Calls.system (program exampleConfig)
        (start [] ⟨[]⟩ none (fun _ ↦ true) 0)).restrict Timely).Reachable (Calls.idle _) := .start rfl
    refine StepSystem.Reachable.foldl_of_allMeet (fun _ _ ↦ rfl) hstart ?_
    refine StepSystem.AllMeet.mono (fun _ _ ↦ timely_of_assignsNothing) (?_ : StepSystem.AllMeet _
      (fun w l ↦ AssignsNothing w l = true) _ _)
    decide +kernel
  rw [hc] at hcaller hwrites
  refine ⟨c, hc, Option.some.inj hcaller, fun heq ↦ ?_, lawful_of_timely hrun hc _⟩
  have hwrites : (c.step exampleConfig (after claimActs).shared (.ok "")).1.tasks.tasks.map
      Task.status = [.done] := Option.some.inj hwrites
  rw [heq, hbefore] at hwrites
  cases hwrites

/-- The same call, but the leader gives the task to another member before the write. -/
def raceActs : List (CallAct Request (Except String String) BoardAct) :=
  claimActs ++ [.start 2 (.updateTask "lead-s" 1 ⟨none, none, none, some "ann"⟩),
    .step 2 (.ok ""), .step 2 (.ok ""), .step 2 (.ok ""), .step 2 (.ok ""), .step 2 (.ok ""),
    .step 2 (.ok "")]

/-- **A teammate can write another member's task**: it read the row before the assignment. -/
theorem not_lawful : ¬ ∀ (cfg : A2aConfig) (history : List StoreOp) (a2a : A2aStore)
    (globalEnabled : Option Bool) (sessionEnabled : String → Bool) (clock : ℕ) (w : Calls Board Call)
    (i : ℕ) (c : Call) (d : Except String String),
    (Calls.system (program cfg)
      (start history a2a globalEnabled sessionEnabled clock)).Reachable w → w.call i = some c →
      Lawful w.shared (c.step cfg w.shared d).1 c.req.caller := by
  intro hall
  obtain ⟨c, hc⟩ := Option.isSome_iff_exists.1
    (show ((after raceActs).call 1).isSome = true by decide +kernel)
  have hlawful := hall exampleConfig [] ⟨[]⟩ none (fun _ ↦ true) 0 (after raceActs) 1 c (.ok "")
    (StepSystem.reachable_foldl _) hc
  have hcaller : ((after raceActs).call 1).map (·.req.caller) = some "bob-s" := by decide +kernel
  have hwrites : ((after raceActs).call 1).map (fun c ↦
      (c.step exampleConfig (after raceActs).shared (.ok "")).1.tasks.tasks) =
        some [⟨"task", "t", 1, "review", "", .done, some "ann-s", none, "lead-s", 0, 0⟩] := by
    decide +kernel
  have hbefore : (after raceActs).shared.tasks.tasks =
      [⟨"task", "t", 1, "review", "", .open_, some "ann-s", none, "lead-s", 0, 0⟩] := by
    decide +kernel
  have hleads : ∀ m ∈ (after raceActs).shared.tables.teams.members, m.sessionId = "bob-s" →
      m.role ≠ .leader := by decide +kernel
  rw [hc] at hcaller hwrites
  have hcaller : c.req.caller = "bob-s" := Option.some.inj hcaller
  have hwrites : (c.step exampleConfig (after raceActs).shared (.ok "")).1.tasks.tasks = _ :=
    Option.some.inj hwrites
  rw [hcaller] at hlawful
  rcases hlawful.rows 0 _ (by rw [hwrites]; rfl) with h | ⟨m, hm, hid, hrole, -⟩ |
    ⟨hopen, -⟩
  · rw [hbefore] at h
    cases h
  · exact hleads m hm hid hrole
  · exact absurd (hopen _ (by rw [hbefore]; rfl)) (by decide)

end Sending

end Ember.Server
