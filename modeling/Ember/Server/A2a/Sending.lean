import Ember.Foundation.Calls
import Ember.Server.A2a.Targets
import Ember.Server.A2a.Tasks

/-!
# Messages between sessions, tasks and team mail

`A2a::send`, `send_mail`, `add_task`, `update_task` with the notices they send (`notify`), and
`deliver_mentions`. Any number of them run at a time: a step makes one call of the store or takes
`send_lock`, with what the code does up to the next one. Everything else that happens to the tables
and the switches is a `BoardAct`.

The part under `send_lock` is one for the three ways that are limited (`Outgoing`, `LockedAt`): it
reads the clock, counts, and stores one message for each recipient. Mentions and first prompts are
stored without it.

`Board.limited`, `Call.mails` and `Call.messages` are bookkeeping: the messages stored under the
lock, and what a call has stored so far. No step reads them.
-/

namespace Ember.Server

/-- What the calls share. -/
structure Board where
  tables : Tables
  tasks : TaskStore
  mail : MailStore
  clock : ℕ
  /-- `send_lock` is held. -/
  locked : Bool
  /-- `last_notice`, by sender and recipient. -/
  lastNotice : String × String → Option Instant
  /-- The ids of the messages stored under the lock. -/
  limited : List String

namespace Board

/-- `send_lock` is given back. -/
def release (b : Board) : Board := { b with locked := false }

/-- `Sessions::record_event`, of a notice. -/
def note (b : Board) (sessionId message : String) : Board :=
  { b with tables.store := b.tables.store.step (.append sessionId b.clock (.notice message)) }

end Board

/-! ### Under `send_lock` -/

/-- What `send_mail` stores before its messages. -/
structure Draft where
  teamId : String
  target : Option String
  /-- The sender's member name. -/
  name : String

/-- The text of the messages that announce a mail. -/
def Draft.body (draft : Draft) (mail : Mail) (text : String) : String :=
  "Team mail #" ++ toString mail.id ++ " from " ++ draft.name ++
    (if draft.target.isSome then " to you:" else " to the whole team:") ++ "\n\n" ++ text

/-- One message from `sender` to each of `tos`. -/
structure Outgoing where
  sender : String
  tos : List String
  replyTo : Option String
  text : String
  mail : Option Draft

/-- `NOTICE_EVERY`. -/
def NOTICE_EVERY : Duration := 60000

/-- Where the locked part of a call is. -/
inductive LockedAt
  | waiting
  /-- `sent_since` is next; `check_limits` read the clock as `now`. -/
  | counting (now : ℕ)
  /-- `pair_since` is next, for each of `rest`. -/
  | pairing (now : ℕ) (rest : List String)
  /-- `notify_rejection`: the sessions whose notice is still to be recorded. -/
  | refusing (rest : List String) (message : String)
  | mailing (draft : Draft)
  /-- The recipients whose message is still to be stored, and the messages stored. -/
  | storing (mail : Option Mail) (body : String) (rest : List String) (msgs : List A2aMessage)

variable (cfg : A2aConfig)

namespace LockedAt

/-- Whether the lock is held there. -/
def holds : LockedAt → Bool
  | waiting => false
  | _ => true

/-- What the locked part comes to. -/
abbrev Outcome := Except A2aError (Option Mail × List A2aMessage)

/-- `check_limits` lets the messages through. -/
def admitted (out : Outgoing) : LockedAt :=
  match out.mail with
  | some draft => mailing draft
  | none => storing none out.text out.tos []

/-- `check_limits` refuses: a notice in both sessions, at most once per pair per minute. -/
def refuse (b : Board) (out : Outgoing) (target reason : String) : Board × (LockedAt ⊕ Outcome) :=
  let message := "A2A message from " ++ out.sender ++ " to " ++ target ++
    " was refused by loop protection: " ++ reason ++ ". Wait before sending more, or ask the user."
  if (b.lastNotice (out.sender, target)).any fun at_ ↦
      decide (durationSince b.clock at_ < NOTICE_EVERY) then
    (b.release, .inr (.error (.rateLimited message)))
  else
    ({ b with lastNotice := Function.update b.lastNotice (out.sender, target) (some b.clock) },
      .inl (refusing [out.sender, target] message))

/-- The window in whole minutes, rounded up. -/
def minutes (cfg : A2aConfig) : String := toString ((cfg.window / 1000 + 59) / 60)

/-- The next step under the lock. `d` is the fresh id it draws, or why its store call failed. -/
def step (cfg : A2aConfig) (b : Board) (out : Outgoing) (d : Except String String) :
    LockedAt → Board × (LockedAt ⊕ Outcome)
  | waiting =>
    if b.locked then (b, .inl waiting)
    else ({ b with locked := true }, .inl (counting b.clock))
  | counting now =>
    match d, out.tos with
    | .error why, _ => (b.release, .inr (.error (.other why)))
    | .ok _, [] => (b, .inl (admitted out))
    | .ok _, target :: _ =>
      if cfg.perSession < b.tables.a2a.sentSince out.sender now cfg.window + out.tos.length then
        refuse b out target ("session " ++ out.sender ++ " has sent " ++ toString cfg.perSession ++
          " agent-to-agent messages in the last " ++ minutes cfg ++ " min (limit)")
      else (b, .inl (pairing now out.tos))
  | pairing _ [] => (b, .inl (admitted out))
  | pairing now (target :: rest) =>
    match d with
    | .error why => (b.release, .inr (.error (.other why)))
    | .ok _ =>
      if cfg.perPair ≤ b.tables.a2a.pairSince out.sender target now cfg.window then
        refuse b out target ("sessions " ++ out.sender ++ " and " ++ target ++
          " have exchanged " ++ toString cfg.perPair ++ " agent-to-agent messages in the last " ++
          minutes cfg ++ " min (limit)")
      else (b, .inl (pairing now rest))
  | refusing [] message => (b.release, .inr (.error (.rateLimited message)))
  | refusing (id :: rest) message =>
    match d with
    | .error _ => (b, .inl (refusing rest message))
    | .ok _ => (b.note id message, .inl (refusing rest message))
  | mailing draft =>
    match d with
    | .error why => (b.release, .inr (.error (.other why)))
    | .ok _ =>
      let (mail, stored) := b.mail.insertTeamMail b.clock draft.teamId out.sender draft.target out.text
      ({ b with mail }, .inl (storing (some stored) (draft.body stored out.text) out.tos []))
  | storing mail _ [] msgs => (b.release, .inr (.ok (mail, msgs)))
  | storing mail body (target :: rest) msgs =>
    match d with
    | .error why => (b.release, .inr (.error (.other why)))
    | .ok id =>
      match b.tables.a2a.insertMessage id b.clock out.sender target out.replyTo body with
      | none => (b.release, .inr (.error (.other "UNIQUE constraint failed: a2a_messages.id")))
      | some (a2a, msg) =>
        ({ b with tables.a2a := a2a, limited := b.limited ++ [id] },
          .inl (storing mail body rest (msgs ++ [msg])))

/-- Under the lock the tasks, the teams and the switches stay. -/
structure Frame (b b' : Board) : Prop where
  tasks : b'.tasks = b.tasks
  teams : b'.tables.teams = b.tables.teams
  globalEnabled : b'.tables.globalEnabled = b.tables.globalEnabled
  sessionEnabled : b'.tables.sessionEnabled = b.tables.sessionEnabled

theorem frame_refuse (b : Board) (out : Outgoing) (target reason : String) :
    Frame b (refuse b out target reason).1 := by
  simp only [refuse]
  split <;> exact ⟨rfl, rfl, rfl, rfl⟩

theorem frame_step (b : Board) (out : Outgoing) (d : Except String String)
    (k : LockedAt) : Frame b (k.step cfg b out d).1 := by
  have hrefl : Frame b b := ⟨rfl, rfl, rfl, rfl⟩
  have hrelease : Frame b b.release := ⟨rfl, rfl, rfl, rfl⟩
  cases k with
  | waiting | mailing =>
    simp only [step]
    split <;> exact ⟨rfl, rfl, rfl, rfl⟩
  | counting now =>
    simp only [step]
    split
    · exact hrelease
    · exact hrefl
    · split
      · exact frame_refuse ..
      · exact hrefl
  | pairing now rest =>
    cases rest with
    | nil => exact hrefl
    | cons target rest =>
      simp only [step]
      split
      · exact hrelease
      · split
        · exact frame_refuse ..
        · exact hrefl
  | refusing rest message =>
    cases rest with
    | nil => exact hrelease
    | cons target rest =>
      simp only [step]
      split <;> exact ⟨rfl, rfl, rfl, rfl⟩
  | storing mail body rest msgs =>
    cases rest with
    | nil => exact hrelease
    | cons target rest =>
      simp only [step]
      split
      · exact hrelease
      · split <;> exact ⟨rfl, rfl, rfl, rfl⟩

end LockedAt

/-! ### The calls -/

/-- The calls, with their arguments. -/
inductive Request
  | send (from_ target text : String) (replyTo : Option String)
  | sendMail (caller : String) (target : Option String) (text : String)
  | addTask (caller : String) (new : NewTask)
  | updateTask (caller : String) (number : ℕ) (patch : TaskPatch)
  | deliverMentions (from_ text : String)

/-- The session the call is made by. -/
def Request.caller : Request → String
  | send from_ .. | deliverMentions from_ _ => from_
  | sendMail caller .. | addTask caller _ | updateTask caller .. => caller

/-- `MentionOutcome`. -/
structure MentionOutcome where
  token : String
  /-- The resolved session, when it resolved. -/
  sessionId : Option String
  receipt : Option Receipt
  error : Option String

/-- What a call answers. -/
inductive Answer
  | refused (e : A2aError)
  /-- The receipts of a `send` or a `send_mail`, with the mail. -/
  | sent (mail : Option Mail) (receipts : List Receipt)
  | task (task : Task)
  | mentions (outcomes : List MentionOutcome)

/-- What `update_task` does after its first notice, and both task calls after the last. -/
inductive Next
  | report (me : MemberRow) (before updated : Task) (status : Option TaskStatus)
  | answer (task : Task)

/-- What becomes of the messages once they are stored. -/
inductive After
  /-- `send`. -/
  | sent
  /-- `send_mail`, to this member or the whole team. -/
  | mailed (me : MemberRow) (target : Option MemberRow)
  /-- `notify`: whatever happens, the call goes on. -/
  | noticed (next : Next)

/-- The loop of `deliver_mentions`. -/
structure Mentioning where
  candidates : List Target
  title : String
  tokens : List String
  seen : List String
  out : List MentionOutcome

/-- How far a call is: what it does next, and what it has read that it still needs. -/
inductive At
  | checking (k : CheckAt)
  /-- `send`: the target's record. -/
  | finding
  /-- `send`: the target's switch. -/
  | found
  /-- `send`: the sender's membership. -/
  | switched
  /-- `send`: the target's membership. -/
  | scoping (me : Option MemberRow)
  /-- `send`: the message it replies to. -/
  | replying (r : String)
  /-- `membership`. -/
  | joining
  /-- `send_mail` and `add_task`: `resolve_member`. -/
  | resolving (me : MemberRow) (who : String)
  /-- `send_mail` to the whole team: `team_members`. -/
  | gathering (me : MemberRow)
  /-- `send_mail`: the recipients' switches, and the names of those that are off. -/
  | switching (me : MemberRow) (target : Option MemberRow) (recipients rest : List MemberRow)
      (off : List String)
  /-- `add_task`: the row. -/
  | inserting (me : MemberRow) (assignee : Option MemberRow)
  /-- `update_task`: the row is read. -/
  | reading (me : MemberRow)
  /-- `update_task`: `resolve_member` of the new assignee. -/
  | reassigning (me : MemberRow) (task : Task) (status : Option TaskStatus) (who : String)
  /-- `update_task`: the row is written. -/
  | writing (me : MemberRow) (task : Task) (status : Option TaskStatus)
      (assignee : Option (Option MemberRow))
  /-- `update_task`: the row is read again. -/
  | rereading (me : MemberRow) (task : Task) (status : Option TaskStatus)
      (assignee : Option (Option MemberRow))
  /-- `update_task`: `member_names`. -/
  | naming (me : MemberRow) (task updated : Task) (status : Option TaskStatus)
      (assignee : Option (Option MemberRow))
  /-- `update_task`: the leader is looked up. -/
  | reporting (me : MemberRow) (updated : Task)
  | locked (out : Outgoing) (k : LockedAt) (after : After)
  /-- `deliver`: a stored message was flushed, and is read again. -/
  | delivering (mail : Option Mail) (rest : List A2aMessage) (done : List Receipt) (after : After)
  /-- `deliver_mentions`: `targets`. -/
  | targeting (tokens : List String) (k : TargetsAt)
  /-- `deliver_mentions`: the origin's record. -/
  | titling (tokens : List String) (candidates : List Target)
  /-- `deliver_mentions`: the copy for a mentioned session. -/
  | copying (m : Mentioning) (token : String) (target : Target)
  /-- `deliver_mentions`: the copy was flushed, and is read again. -/
  | copied (m : Mentioning) (token : String) (target : Target) (msg : A2aMessage)
  /-- `deliver_mentions`: the notice of an outcome. -/
  | noting (m : Mentioning) (text : String)
  | answered (answer : Answer)

/-- A call under way or answered. -/
structure Call where
  req : Request
  at_ : At
  /-- The mails it stored. -/
  mails : List ℕ
  /-- The messages it stored. -/
  messages : List String

/-- `membership`: the caller's active membership. -/
def Tables.membership (t : Tables) (caller : String) : Except A2aError MemberRow :=
  match t.teams.teamMember caller with
  | some m =>
    if m.active then .ok m
    else .error (.forbidden ("this session was ended from team " ++ m.teamId ++
      "; it is no longer a member"))
  | none => .error (.badRequest ("this session is not in a team; `" ++ CLI_NAME ++
      " team spawn` starts one with this session as its leader"))

/-- `resolve_member`, with its error. -/
def Tables.resolveMember (t : Tables) (teamId who : String) : Except A2aError MemberRow :=
  match Server.resolveMember (t.teams.teamMembers teamId) who with
  | some m => .ok m
  | none => .error (.notFound ("no active team member " ++ (trim who).quote ++ "; `" ++ CLI_NAME ++
      " team list` shows the team"))

/-- `deliver`, of what it reads of the message. -/
def A2aStore.receipt (s : A2aStore) (msg : A2aMessage) : Receipt :=
  ⟨msg.id, msg.toSession,
    if (s.message msg.id).any (·.deliveredAt.isSome) then .delivered else .queued⟩

/-- A notice of `notify`. -/
def notice (from_ target text : String) : Outgoing := ⟨from_, [target], none, text, none⟩

/-- `announce_assignment`. -/
def announcement (me target : MemberRow) (task : Task) : Outgoing :=
  notice me.sessionId target.sessionId
    ("Task #" ++ toString task.number ++ " was assigned to you by " ++ me.name ++ ": " ++ task.title ++
      (if task.detail = "" then "" else "\n\n" ++ task.detail) ++
      "\n\nUpdate it as you go: " ++ CLI_NAME ++ " task update " ++ toString task.number ++
      " --status in_progress|blocked|done")

/-- The notice of a teammate's progress. -/
def progress (caller leader name : String) (task : Task) : Outgoing :=
  notice caller leader
    ("Task #" ++ toString task.number ++ " \"" ++ task.title ++ "\" is now " ++ task.status.asStr ++
      " (updated by teammate " ++ name ++ ").")

namespace Mentioning

/-- The loop of `deliver_mentions` from these tokens on: nothing is said twice to one session. -/
def next (m : Mentioning) : List String → At
  | [] => .answered (.mentions m.out)
  | token :: rest =>
    match resolveMention token m.candidates with
    | .error e =>
      .noting { m with tokens := rest, out := m.out ++ [⟨token, none, none, some e⟩] }
        ("Mention not delivered: " ++ e ++ ".")
    | .ok t =>
      if t.id ∈ m.seen then next m rest
      else .copying { m with tokens := rest, seen := t.id :: m.seen } token t

/-- The outcome of one mention. -/
def outcome (m : Mentioning) (token : String) (target : Target) :
    Except A2aError Receipt → At
  | .ok receipt =>
    let how := match receipt.status with
      | .delivered => "delivered"
      | .queued => "queued until its turn ends"
    .noting { m with out := m.out ++ [⟨token, some target.id, some receipt, none⟩] }
      ("Mentioned session \"" ++ target.title ++ "\" (" ++ target.id ++ "): message " ++ receipt.id ++
        " " ++ how ++ ".")
  | .error e =>
    .noting { m with out := m.out ++ [⟨token, some target.id, none, some e.message⟩] }
      ("Mention of \"" ++ target.title ++ "\" not delivered: " ++ e.message)

end Mentioning

variable (me : MemberRow)

namespace Call

variable (c : Call)

/-- The call goes on. -/
def goTo (at_ : At) : Call := { c with at_ }

@[simp] theorem at_goTo (at_ : At) : (c.goTo at_).at_ = at_ := rfl

/-- The call returns an error. -/
def refuse (e : A2aError) : Call := c.goTo (.answered (.refused e))

/-- After `check_caller`. -/
def checked : Call :=
  match c.req with
  | .send .. => c.goTo .finding
  | _ => c.goTo .joining

/-- After `membership`. -/
def joined (me : MemberRow) : Call :=
  match c.req with
  | .sendMail _ target text =>
    if trim text = "" then c.refuse (.badRequest "mail text is empty")
    else
      match (target.map trim).filter fun who ↦ who ≠ "" ∧ who ≠ "all" with
      | some who => c.goTo (.resolving me who)
      | none => c.goTo (.gathering me)
  | .addTask _ new =>
    if trim new.title = "" then c.refuse (.badRequest "the task title is empty")
    else
      match given new.assignee with
      | some who => c.goTo (.resolving me who)
      | none => c.goTo (.inserting me none)
  | _ => c.goTo (.reading me)

/-- After the `resolve_member` of `send_mail` and `add_task`. -/
def resolved (me m : MemberRow) : Call :=
  match c.req with
  | .sendMail caller .. =>
    if m.sessionId = caller then c.refuse (.badRequest "a session cannot mail itself")
    else c.goTo (.switching me (some m) [m] [m] [])
  | _ =>
    if me.role = .teammate ∧ m.sessionId ≠ me.sessionId then
      c.refuse (.forbidden
        "a teammate assigns tasks only to itself; ask the leader to assign others")
    else c.goTo (.inserting me (some m))

/-- `send_mail`: the switches of all recipients were read. -/
def addressed (me : MemberRow) (target : Option MemberRow) (recipients : List MemberRow)
    (off : List String) : Call :=
  match c.req with
  | .sendMail caller _ text =>
    if off ≠ [] then
      c.refuse (.disabled
        ("agent-to-agent messaging is turned off for " ++ ", ".intercalate off))
    else
      c.goTo (.locked
        ⟨caller, recipients.map MemberRow.sessionId, none, trim text,
          some ⟨me.teamId, target.map MemberRow.sessionId, me.name⟩⟩ .waiting (.mailed me target))
  | _ => c

/-- `send`: what is left once the team rule allows it. -/
def permitted : Call :=
  match c.req with
  | .send _ _ _ (some r) => c.goTo (.replying r)
  | .send from_ target text none =>
    c.goTo (.locked ⟨from_, [target], none, text, none⟩ .waiting .sent)
  | _ => c

/-- `update_task`: what the row and the patch come to. -/
def reviewed (me : MemberRow) (task : Task) (status : Option TaskStatus)
    (assignee : Option (Option MemberRow)) : Call :=
  if me.role = .teammate ∧ task.assignee.any (· ≠ c.req.caller) then
    c.refuse (.forbidden ("task #" ++ toString task.number ++
      " is assigned to someone else; only they or the leader update it"))
  else if me.role = .teammate ∧
      (assignee.getD none).any (fun a ↦ a.sessionId ≠ c.req.caller) then
    c.refuse (.forbidden "a teammate assigns tasks only to itself; ask the leader to reassign")
  else c.goTo (.writing me task status assignee)

/-- `update_task`: the row was read. -/
def found (me : MemberRow) (task : Task) (patch : TaskPatch) : Call :=
  match patch.status.map fun s ↦ (TaskStatus.parse s, s) with
  | some (none, s) => c.refuse (.badRequest ("unknown status " ++ s ++
      ": use open, in_progress, blocked, done or cancelled"))
  | status =>
    match patch.assignee.map trim with
    | none => c.reviewed me task (status.bind Prod.fst) none
    | some who =>
      if who = "" ∨ who = "none" ∨ who = "-" then
        c.reviewed me task (status.bind Prod.fst) (some none)
      else c.goTo (.reassigning me task (status.bind Prod.fst) who)

/-- What the task calls do after a notice. -/
def proceed : Next → Call
  | .answer task => c.goTo (.answered (.task task))
  | .report me before updated status =>
    if me.role = .teammate ∧ status.isSome ∧ status ≠ some before.status then
      c.goTo (.reporting me updated)
    else c.goTo (.answered (.task updated))

/-- `update_task`: the updated row is named, and an assignment to someone else is announced. -/
def named (me : MemberRow) (task updated : Task) (status : Option TaskStatus)
    (assignee : Option (Option MemberRow)) : Call :=
  match assignee with
  | some (some a) =>
    if a.sessionId ≠ c.req.caller ∧ task.assignee ≠ some a.sessionId then
      c.goTo (.locked (announcement me a updated) .waiting
        (.noticed (.report me task updated status)))
    else c.proceed (.report me task updated status)
  | _ => c.proceed (.report me task updated status)

/-- The locked part is over. -/
def unlocked (after : After) : LockedAt.Outcome → Call
  | .ok (mail, msgs) => c.goTo (.delivering mail msgs [] after)
  | .error e =>
    match after with
    | .noticed next => c.proceed next
    | _ => c.refuse e

/-- Every message was delivered or stays queued. -/
def delivered (mail : Option Mail) (done : List Receipt) : After → Call
  | .sent => c.goTo (.answered (.sent mail done))
  | .mailed me target =>
    c.goTo (.answered (.sent
      (mail.map fun m ↦ { m with fromName := some me.name, toName := target.map MemberRow.name })
      done))
  | .noticed next => c.proceed next

/-- `targets` came back to `deliver_mentions`. -/
def targeted (tokens : List String) : Except A2aError (List Target) → Call
  | .ok candidates => c.goTo (.titling tokens candidates)
  | .error e =>
    c.goTo (.noting
      ⟨[], "", [], [], tokens.map fun token ↦ ⟨token, none, none, some e.message⟩⟩
      ("Mentions were not delivered: " ++ e.message))

/-- The text of a mention's copy. -/
def copyText (title : String) : String :=
  match c.req with
  | .deliverMentions from_ text =>
    "The user mentioned this session in session " ++ from_ ++ " (\"" ++ title ++ "\") and wrote:\n\n" ++
      text
  | _ => ""

/-- The next store call fails. -/
def fails (why : String) : Call :=
  match c.at_ with
  | .delivering _ _ _ (.noticed next) => c.proceed next
  | .targeting tokens _ => c.targeted tokens (.error (.other why))
  | .titling tokens candidates =>
    c.goTo ((⟨candidates, "", tokens, [], []⟩ : Mentioning).next tokens)
  | .copying m token target => c.goTo (m.outcome token target (.error (.other why)))
  | .copied m token target _ => c.goTo (m.outcome token target (.error (.other why)))
  | .noting m _ => c.goTo (m.next m.tokens)
  | .answered _ => c
  | _ => c.refuse (.other why)

/-- The next store call goes through. -/
def goes (cfg : A2aConfig) (b : Board) (id : String) : Board × Call :=
  match c.at_ with
  | .checking k =>
    match k.step cfg b.tables c.req.caller with
    | .inl k => (b, c.goTo (.checking k))
    | .inr (.error e) => (b, c.refuse e)
    | .inr (.ok ()) => (b, c.checked)
  | .finding =>
    match c.req with
    | .send _ target .. =>
      match b.tables.store.session target with
      | none => (b, c.refuse (.notFound ("session " ++ target ++ " not found")))
      | some _ => (b, c.goTo .found)
    | _ => (b, c)
  | .found =>
    match c.req with
    | .send _ target .. =>
      if b.tables.sessionEnabled target then (b, c.goTo .switched)
      else (b, c.refuse (.disabled
        ("agent-to-agent messaging is turned off for the target session (" ++ target ++ ")")))
    | _ => (b, c)
  | .switched => (b, c.goTo (.scoping (b.tables.teams.teamMember c.req.caller)))
  | .scoping me =>
    match c.req with
    | .send _ target .. =>
      match teamScopeDenial (me.filter MemberRow.active)
          ((b.tables.teams.teamMember target).filter MemberRow.active) target with
      | some why => (b, c.refuse (.forbidden why))
      | none => (b, c.permitted)
    | _ => (b, c)
  | .replying r =>
    match c.req, b.tables.a2a.message r with
    | .send from_ target text replyTo, some orig =>
      if orig.fromSession ≠ from_ ∧ orig.toSession ≠ from_ then
        (b, c.refuse (.badRequest ("message " ++ r ++ " was not sent to or by this session")))
      else (b, c.goTo (.locked ⟨from_, [target], replyTo, text, none⟩ .waiting .sent))
    | _, _ => (b, c.refuse (.badRequest ("unknown message " ++ r ++ " in reply_to")))
  | .joining =>
    match b.tables.membership c.req.caller with
    | .error e => (b, c.refuse e)
    | .ok me => (b, c.joined me)
  | .resolving me who =>
    match b.tables.resolveMember me.teamId who with
    | .error e => (b, c.refuse e)
    | .ok m => (b, c.resolved me m)
  | .gathering me =>
    let recipients := (b.tables.teams.teamMembers me.teamId).filter fun m ↦
      m.active && m.sessionId != c.req.caller
    if recipients = [] then (b, c.refuse (.badRequest "the team has no other active members"))
    else (b, c.goTo (.switching me none recipients recipients []))
  | .switching me target recipients [] off => (b, c.addressed me target recipients off)
  | .switching me target recipients (r :: rest) off =>
    (b, c.goTo (.switching me target recipients rest
      (if b.tables.sessionEnabled r.sessionId then off else off ++ [r.name])))
  | .inserting me assignee =>
    match c.req with
    | .addTask caller new =>
      match b.tasks.insertTeamTask id b.clock me.teamId (trim new.title) (trim (new.detail.getD ""))
          (assignee.map MemberRow.sessionId) caller with
      | none => (b, c.refuse (.other "UNIQUE constraint failed: team_tasks.id"))
      | some (tasks, task) =>
        let task := { task with assigneeName := assignee.map MemberRow.name }
        match assignee with
        | some a =>
          if a.sessionId ≠ caller then
            ({ b with tasks }, c.goTo (.locked (announcement me a task) .waiting
              (.noticed (.answer task))))
          else ({ b with tasks }, c.proceed (.answer task))
        | none => ({ b with tasks }, c.proceed (.answer task))
    | _ => (b, c)
  | .reading me =>
    match c.req with
    | .updateTask _ number patch =>
      match b.tasks.teamTask me.teamId number with
      | none => (b, c.refuse (.notFound ("task #" ++ toString number ++ " not found")))
      | some task => (b, c.found me task patch)
    | _ => (b, c)
  | .reassigning me task status who =>
    match b.tables.resolveMember me.teamId who with
    | .error e => (b, c.refuse e)
    | .ok m => (b, c.reviewed me task status (some (some m)))
  | .writing me task status assignee =>
    match c.req with
    | .updateTask _ _ patch =>
      ({ b with
          tasks := b.tasks.updateTeamTask task.id ((patch.title.map trim).filter (· ≠ ""))
            (patch.detail.map trim) status
            (assignee.map fun a ↦ a.map MemberRow.sessionId) b.clock },
        c.goTo (.rereading me task status assignee))
    | _ => (b, c)
  | .rereading me task status assignee =>
    match b.tasks.teamTask me.teamId task.number with
    | none => (b, c.refuse (.notFound ("task #" ++ toString task.number ++ " not found")))
    | some updated => (b, c.goTo (.naming me task updated status assignee))
  | .naming me task updated status assignee =>
    let name := updated.assignee.bind fun a ↦
      ((b.tables.teams.teamMembers me.teamId).find? (·.sessionId == a)).map MemberRow.name
    (b, c.named me task { updated with assigneeName := name } status assignee)
  | .reporting me updated =>
    match b.tables.teams.teamRow me.teamId with
    | none => (b, c.goTo (.answered (.task updated)))
    | some team =>
      (b, c.goTo (.locked (progress c.req.caller team.leaderSession me.name updated) .waiting
        (.noticed (.answer updated))))
  | .locked .. => (b, c)
  | .delivering mail [] done after => (b, c.delivered mail done after)
  | .delivering mail (msg :: rest) done after =>
    (b, c.goTo (.delivering mail rest (done ++ [b.tables.a2a.receipt msg]) after))
  | .targeting tokens k =>
    match k.step cfg b.tables c.req.caller with
    | .inl k => (b, c.goTo (.targeting tokens k))
    | .inr result => (b, c.targeted tokens result)
  | .titling tokens candidates =>
    let title := ((b.tables.store.session c.req.caller).map (·.title)).getD ""
    (b, c.goTo ((⟨candidates, title, tokens, [], []⟩ : Mentioning).next tokens))
  | .copying m token target =>
    match b.tables.a2a.insertMessage id b.clock c.req.caller target.id none (c.copyText m.title) with
    | none => (b, c.goTo (m.outcome token target
        (.error (.other "UNIQUE constraint failed: a2a_messages.id"))))
    | some (a2a, msg) => ({ b with tables.a2a := a2a }, c.goTo (.copied m token target msg))
  | .copied m token target msg =>
    (b, c.goTo (m.outcome token target (.ok (b.tables.a2a.receipt msg))))
  | .noting m text => (b.note c.req.caller text, c.goTo (m.next m.tokens))
  | .answered _ => (b, c)

/-- One step, without the bookkeeping. -/
def act (cfg : A2aConfig) (b : Board) (d : Except String String) : Board × Call :=
  match c.at_ with
  | .locked out k after =>
    match k.step cfg b out d with
    | (b, .inl k) => (b, c.goTo (.locked out k after))
    | (b, .inr result) => (b, c.unlocked after result)
  | _ =>
    match d with
    | .ok id => c.goes cfg b id
    | .error why => (b, c.fails why)

/-- One step. `d` is the fresh id it draws, or why its store call failed. -/
def step (cfg : A2aConfig) (b : Board) (d : Except String String) : Board × Call :=
  let (b', c') := c.act cfg b d
  (b', { c' with
    mails := c.mails ++ (b'.mail.mails.drop b.mail.mails.length).map Mail.id
    messages := c.messages ++
      (b'.tables.a2a.messages.drop b.tables.a2a.messages.length).map fun r ↦ r.message.id })

/-! ### What a step does to the board -/

/-- **What a store call outside the locked part does to the board**: it adds a task, changes one,
stores the copy for a mentioned session, records a notice, or writes nothing. -/
theorem goes_board (b : Board) (c : Call) (id : String) :
    (c.goes cfg b id).1 = b ∨
      (∃ me assignee new tasks task, c.at_ = .inserting me assignee ∧
        c.req = .addTask c.req.caller new ∧
        b.tasks.insertTeamTask id b.clock me.teamId (trim new.title) (trim (new.detail.getD ""))
          (assignee.map MemberRow.sessionId) c.req.caller = some (tasks, task) ∧
        (c.goes cfg b id).1 = { b with tasks }) ∨
      (∃ me task status assignee title detail, c.at_ = .writing me task status assignee ∧
        (c.goes cfg b id).1 = { b with
          tasks := b.tasks.updateTeamTask task.id title detail status
            (assignee.map fun a ↦ a.map MemberRow.sessionId) b.clock }) ∨
      (∃ m token target a2a msg, c.at_ = .copying m token target ∧
        b.tables.a2a.insertMessage id b.clock c.req.caller target.id none (c.copyText m.title) =
          some (a2a, msg) ∧ (c.goes cfg b id).1 = { b with tables.a2a := a2a }) ∨
      ∃ text, (c.goes cfg b id).1 = b.note c.req.caller text := by
  cases hat : c.at_ with simp only [goes, hat]
  | checking | joining | resolving | reassigning | rereading | reporting | targeting | gathering =>
    split <;> exact .inl (by trivial)
  | finding | found | scoping | replying | reading =>
    split
    · split <;> exact .inl (by trivial)
    · exact .inl (by trivial)
  | switching _ _ _ rest _ | delivering _ rest _ _ =>
    cases rest <;> (simp only [goes, hat]; exact .inl (by trivial))
  | inserting me assignee =>
    split
    case h_1 caller new hreq =>
      have hcaller : c.req.caller = caller := by rw [hreq]; rfl
      split
      · exact .inl (by trivial)
      case h_2 tasks task hinsert =>
        refine .inr (.inl ⟨me, assignee, new, tasks, task, rfl, hcaller ▸ hreq, hcaller ▸ hinsert, ?_⟩)
        split
        · split <;> rfl
        · rfl
    case h_2 => exact .inl (by trivial)
  | writing me task status assignee =>
    split
    · exact .inr (.inr (.inl ⟨me, task, status, assignee, _, _, rfl, rfl⟩))
    · exact .inl (by trivial)
  | copying m token target =>
    split
    · exact .inl (by trivial)
    case h_2 a2a msg h => exact .inr (.inr (.inr (.inl ⟨m, token, target, a2a, msg, rfl, h, rfl⟩)))
  | noting m text => exact .inr (.inr (.inr (.inr ⟨text, by simp only [goes, hat]⟩)))
  | switched | naming | locked | titling | copied | answered =>
    exact .inl (by trivial)

/-- A step is one of the locked part, or a store call outside it that goes through or fails. -/
theorem act_cases (b : Board) (c : Call) (d : Except String String) :
    (∃ out k after, c.at_ = .locked out k after ∧
      ((∃ k', (k.step cfg b out d).2 = .inl k' ∧
        c.act cfg b d = ((k.step cfg b out d).1, c.goTo (.locked out k' after))) ∨
      ∃ result, (k.step cfg b out d).2 = .inr result ∧
        c.act cfg b d = ((k.step cfg b out d).1, c.unlocked after result))) ∨
    (∀ out k after, c.at_ ≠ .locked out k after) ∧
      ((∃ id, d = .ok id ∧ c.act cfg b d = c.goes cfg b id) ∨
        ∃ why, d = .error why ∧ c.act cfg b d = (b, c.fails why)) := by
  rw [act.eq_def]
  split
  case h_1 out k after hat =>
    refine .inl ⟨out, k, after, hat, ?_⟩
    split
    case h_1 b' k' hstep => exact .inl ⟨k', by rw [hstep], by rw [hstep]⟩
    case h_2 b' result hstep => exact .inr ⟨result, by rw [hstep], by rw [hstep]⟩
  case h_2 hnot =>
    refine .inr ⟨hnot, ?_⟩
    cases d with
    | ok id => exact .inl ⟨id, rfl, rfl⟩
    | error why => exact .inr ⟨why, rfl, rfl⟩

/-! ### The arguments of a call stay -/

@[simp] theorem req_goTo (at_ : At) : (c.goTo at_).req = c.req := rfl

@[simp] theorem req_refuse (e : A2aError) : (c.refuse e).req = c.req := rfl

@[simp] theorem req_checked : c.checked.req = c.req := by
  simp only [checked]
  split <;> rfl

@[simp] theorem req_joined : (c.joined me).req = c.req := by
  simp only [joined]
  split
  · split
    · rfl
    · split <;> rfl
  · split
    · rfl
    · split <;> rfl
  · rfl

@[simp] theorem req_resolved (me m : MemberRow) : (c.resolved me m).req = c.req := by
  simp only [resolved]
  split <;> split <;> rfl

@[simp] theorem req_addressed (target : Option MemberRow)
    (recipients : List MemberRow) (off : List String) :
    (c.addressed me target recipients off).req = c.req := by
  simp only [addressed]
  split
  · split <;> rfl
  · rfl

@[simp] theorem req_permitted : c.permitted.req = c.req := by
  simp only [permitted]
  split <;> rfl

@[simp] theorem req_reviewed (task : Task) (status : Option TaskStatus)
    (assignee : Option (Option MemberRow)) :
    (c.reviewed me task status assignee).req = c.req := by
  simp only [reviewed]
  split
  · rfl
  · split <;> rfl

@[simp] theorem req_found (task : Task) (patch : TaskPatch) :
    (c.found me task patch).req = c.req := by
  simp only [found]
  split
  · rfl
  · split
    · exact req_reviewed ..
    · split
      · exact req_reviewed ..
      · rfl

@[simp] theorem req_proceed (next : Next) : (c.proceed next).req = c.req := by
  cases next with
  | answer => rfl
  | report =>
    simp only [proceed]
    split <;> rfl

@[simp] theorem req_named (task updated : Task) (status : Option TaskStatus)
    (assignee : Option (Option MemberRow)) :
    (c.named me task updated status assignee).req = c.req := by
  simp only [named]
  split
  · split
    · rfl
    · exact req_proceed ..
  · exact req_proceed ..

@[simp] theorem req_unlocked (after : After) (result : LockedAt.Outcome) :
    (c.unlocked after result).req = c.req := by
  simp only [unlocked]
  split
  · rfl
  · split
    · exact req_proceed ..
    · rfl

@[simp] theorem req_delivered (mail : Option Mail) (done : List Receipt) (after : After) :
    (c.delivered mail done after).req = c.req := by
  cases after with
  | sent | mailed => rfl
  | noticed next => exact req_proceed ..

@[simp] theorem req_targeted (tokens : List String) (result : Except A2aError (List Target)) :
    (c.targeted tokens result).req = c.req := by
  cases result <;> rfl

theorem req_fails (why : String) : (c.fails why).req = c.req := by
  simp only [fails]
  split <;> simp

theorem req_goes (b : Board) (id : String) : (c.goes cfg b id).2.req = c.req := by
  simp only [goes]
  split <;> (try split) <;> (try split) <;> (try split) <;> (try split) <;> simp

theorem req_act (b : Board) (d : Except String String) :
    (c.act cfg b d).2.req = c.req := by
  rw [act.eq_def]
  split
  · split
    · rfl
    · exact req_unlocked ..
  · split
    · exact c.req_goes cfg b _
    · exact c.req_fails _

/-- A call keeps its arguments. -/
theorem req_step (b : Board) (d : Except String String) :
    (c.step cfg b d).2.req = c.req := c.req_act cfg b d

end Call

/-! ### Behind the locked part -/

/-- A phase in which nothing is checked or stored any more but notices and mentions. -/
def At.Late : At → Prop
  | .reporting .. | .delivering .. | .targeting .. | .titling .. | .copying .. | .copied ..
  | .noting .. | .answered _ => True
  | _ => False

theorem Mentioning.late_next (m : Mentioning) (tokens : List String) : (m.next tokens).Late := by
  induction tokens with
  | nil => trivial
  | cons token rest ih =>
    simp only [next]
    split
    · trivial
    · split
      · exact ih
      · trivial

theorem Mentioning.late_outcome (m : Mentioning) (token : String) (target : Target)
    (result : Except A2aError Receipt) : (m.outcome token target result).Late := by
  cases result <;> trivial

namespace Call

theorem late_proceed (c : Call) (next : Next) : (c.proceed next).at_.Late := by
  cases next with
  | answer => trivial
  | report =>
    simp only [proceed]
    split <;> trivial

theorem late_unlocked (c : Call) (after : After) (result : LockedAt.Outcome) :
    (c.unlocked after result).at_.Late := by
  simp only [unlocked]
  split
  · trivial
  · split
    · exact late_proceed ..
    · trivial

theorem late_delivered (c : Call) (mail : Option Mail) (done : List Receipt) (after : After) :
    (c.delivered mail done after).at_.Late := by
  cases after with
  | sent | mailed => trivial
  | noticed next => exact late_proceed ..

theorem late_targeted (c : Call) (tokens : List String) (result : Except A2aError (List Target)) :
    (c.targeted tokens result).at_.Late := by
  cases result <;> trivial

theorem late_fails (c : Call) (why : String) : (c.fails why).at_.Late := by
  unfold fails
  split
  · exact late_proceed ..
  · exact late_targeted ..
  · exact Mentioning.late_next ..
  · rw [at_goTo]; exact Mentioning.late_outcome ..
  · rw [at_goTo]; exact Mentioning.late_outcome ..
  · exact Mentioning.late_next ..
  case h_7 hat => exact hat ▸ trivial
  · trivial

end Call

/-- What is read of a caller that is a member. -/
theorem Tables.of_membership {t : Tables} {caller : String} {me : MemberRow}
    (h : t.membership caller = .ok me) :
    me ∈ t.teams.members ∧ me.sessionId = caller ∧ me.active = true := by
  rw [Tables.membership] at h
  split at h
  case h_1 m hfind =>
    split at h
    case isTrue hactive =>
      obtain rfl := Except.ok.inj h
      have hid : (m.sessionId == caller) = true :=
        List.find?_some (p := fun m : MemberRow ↦ m.sessionId == caller) hfind
      exact ⟨List.mem_of_find?_eq_some hfind, beq_iff_eq.1 hid, hactive⟩
    case isFalse => cases h
  case h_2 => cases h

/-- A call that has just been made, with what it does before its first store call. -/
def Request.enter (req : Request) : Call :=
  let c : Call := ⟨req, .checking .server, [], []⟩
  match req with
  | .send from_ target text _ =>
    if trim text = "" then c.refuse (.badRequest "message text is empty")
    else if from_ = target then c.refuse (.badRequest "a session cannot message itself")
    else c
  | .deliverMentions _ text =>
    match parseMentions text with
    | [] => c.goTo (.answered (.mentions []))
    | tokens => c.goTo (.targeting tokens (.checking .server))
  | _ => c

/-! ### Any number of calls at a time -/

/-- What else happens to the tables and the switches. -/
inductive BoardAct
  | tick (ms : ℕ)
  | setEnabled (on : Bool)
  | setSessionEnabled (id : String) (on : Bool)
  /-- A call of the session store. -/
  | store (op : StoreOp)
  | createTeam (id leader project : String)
  | addTeamMember (teamId sessionId name : String)
  | endTeamMember (sessionId : String)
  /-- The first prompt of a spawned teammate: `store_message`. -/
  | firstPrompt (id leader sessionId text : String)
  /-- A flush marks messages delivered. -/
  | markDelivered (ids : List String)

/-- The board after something else happened; a store call that fails leaves it alone. -/
def Board.env (b : Board) : BoardAct → Board
  | .tick ms => { b with clock := b.clock + ms }
  | .setEnabled on => { b with tables.globalEnabled := some on }
  | .setSessionEnabled id on =>
    { b with tables.sessionEnabled := Function.update b.tables.sessionEnabled id on }
  | .store op => { b with tables.store := b.tables.store.step op }
  | .createTeam id leader project =>
    match b.tables.teams.createTeam id b.clock leader project with
    | none => b
    | some (teams, _) => { b with tables.teams := teams }
  | .addTeamMember teamId sessionId name =>
    match b.tables.teams.addTeamMember b.clock teamId sessionId name with
    | none => b
    | some (teams, _) => { b with tables.teams := teams }
  | .endTeamMember sessionId =>
    { b with tables.teams := (b.tables.teams.endTeamMember b.clock sessionId).1 }
  | .firstPrompt id leader sessionId text =>
    match b.tables.a2a.insertMessage id b.clock leader sessionId none text with
    | none => b
    | some (a2a, _) => { b with tables.a2a := a2a }
  | .markDelivered ids => { b with tables.a2a := b.tables.a2a.markDelivered ids b.clock }

namespace Sending

/-- The calls as programs over the board. -/
def program (cfg : A2aConfig) : Program Board Request Call (Except String String) BoardAct where
  enter := Request.enter
  step b c d := ((c.step cfg b d).1, some (c.step cfg b d).2)
  env := Board.env

/-- A server without teams, with some messages from before. -/
def start (history : List StoreOp) (a2a : A2aStore) (globalEnabled : Option Bool)
    (sessionEnabled : String → Bool) (clock : ℕ) : Board where
  tables := ⟨.ofHistory history, ⟨[], []⟩, a2a, globalEnabled, sessionEnabled⟩
  tasks := ⟨[]⟩
  mail := ⟨[]⟩
  clock
  locked := false
  lastNotice _ := none
  limited := []

end Sending

end Ember.Server
