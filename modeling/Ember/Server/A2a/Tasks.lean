import Ember.Basic
import Mathlib.Data.List.Sort
import Mathlib.Order.Nat

/-!
# The task list and the mailbox of the teams

`team_tasks` and `team_mail`, each in the order of insertion. `update_team_task` names a row by its
id alone: whoever calls it, and whatever became of the row since it was read, the row is written.
-/

namespace Ember.Server

/-- `TaskStatus`. -/
inductive TaskStatus
  | open_
  | inProgress
  | blocked
  | done
  | cancelled
  deriving DecidableEq, Repr

namespace TaskStatus

/-- `TaskStatus::as_str`. -/
def asStr : TaskStatus → String
  | open_ => "open"
  | inProgress => "in_progress"
  | blocked => "blocked"
  | done => "done"
  | cancelled => "cancelled"

/-- `TaskStatus::parse`: accepts `in_progress`, `in-progress` and `canceled` too. -/
def parse (s : String) : Option TaskStatus :=
  let s : String := .ofList ((trim s).toList.map fun c ↦ if c = '-' then '_' else c.toLower)
  if s = "open" ∨ s = "todo" then some open_
  else if s = "in_progress" ∨ s = "doing" then some inProgress
  else if s = "blocked" then some blocked
  else if s = "done" then some done
  else if s = "cancelled" ∨ s = "canceled" then some cancelled
  else none

end TaskStatus

/-- `Task`. -/
structure Task where
  id : String
  teamId : String
  /-- Short number within the team. -/
  number : ℕ
  title : String
  detail : String
  status : TaskStatus
  /-- The assignee's session. -/
  assignee : Option String
  /-- The assignee's member name; no row has one. -/
  assigneeName : Option String
  createdBy : String
  createdAt : ℕ
  updatedAt : ℕ
  deriving DecidableEq, Repr

/-- `NewTask`. -/
structure NewTask where
  title : String
  detail : Option String
  /-- Member name or session id. -/
  assignee : Option String

/-- `TaskPatch`; `none` leaves a field alone. -/
structure TaskPatch where
  title : Option String
  detail : Option String
  status : Option String
  /-- Member name or session id; `""` or `none` unassigns. -/
  assignee : Option String

/-- The `team_tasks` table. -/
structure TaskStore where
  tasks : List Task

namespace TaskStore

/-- `Store::insert_team_task`, with the fresh id and the time it draws. -/
def insertTeamTask (s : TaskStore) (id : String) (now : ℕ) (teamId title detail : String)
    (assignee : Option String) (createdBy : String) : Option (TaskStore × Task) :=
  if s.tasks.any (·.id == id) then none
  else
    let number := ((s.tasks.filter (·.teamId == teamId)).map Task.number).foldl max 0 + 1
    let task : Task :=
      { id, teamId, number, title, detail, status := .open_, assignee, assigneeName := none,
        createdBy, createdAt := now, updatedAt := now }
    some (⟨s.tasks ++ [task]⟩, task)

/-- `Store::team_task`. -/
def teamTask (s : TaskStore) (teamId : String) (number : ℕ) : Option Task :=
  s.tasks.find? fun t ↦ t.teamId == teamId && t.number == number

/-- A row after `Store::update_team_task`. -/
def patched (title detail : Option String) (status : Option TaskStatus)
    (assignee : Option (Option String)) (now : ℕ) (t : Task) : Task :=
  { t with
    title := title.getD t.title
    detail := detail.getD t.detail
    status := status.getD t.status
    assignee := assignee.getD t.assignee
    updatedAt := now }

/-- `Store::update_team_task`. `assignee`: `none` leaves it, `some none` unassigns. -/
def updateTeamTask (s : TaskStore) (id : String) (title detail : Option String)
    (status : Option TaskStatus) (assignee : Option (Option String)) (now : ℕ) : TaskStore :=
  ⟨s.tasks.map fun t ↦ if t.id = id then patched title detail status assignee now t else t⟩

end TaskStore

/-- `Mail`. -/
structure Mail where
  /-- Increasing mail number. -/
  id : ℕ
  teamId : String
  fromSession : String
  fromName : Option String
  /-- `none` is the whole team. -/
  toSession : Option String
  toName : Option String
  text : String
  createdAt : ℕ
  deriving DecidableEq, Repr

/-- The `team_mail` table; no row is ever deleted, so a row's number is its place. -/
structure MailStore where
  mails : List Mail

/-- `Store::insert_team_mail`, with the time it draws. -/
def MailStore.insertTeamMail (s : MailStore) (now : ℕ) (teamId from_ : String)
    (target : Option String) (text : String) : MailStore × Mail :=
  let mail : Mail :=
    { id := s.mails.length + 1, teamId, fromSession := from_, fromName := none, toSession := target,
      toName := none, text, createdAt := now }
  (⟨s.mails ++ [mail]⟩, mail)

end Ember.Server
