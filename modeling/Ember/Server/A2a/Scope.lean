import Ember.Server.A2a.SendLimits

/-!
# Who messages whom

A message goes only between sessions that both have messaging on, on a server that has it on, and
neither of which is an active teammate of a team the other is not in (`Tables.Allowed`). The rule is
spelled out by `send`, by `targets` for the mentions and by the membership checks of `send_mail`;
each checks it some store calls before it stores the message, and the notices of the task list check
everything but the recipient's switch.

`Call.Granted` says what the checks of a call have found so far. A run keeps the rule as long as no
change of the switches or the teams takes away what a call under way has been granted, and no notice
goes to a session whose messaging is off (`Sending.Standing`, `allowed_of_standing`). On tables that
stay as they are, `targets` lists exactly the sessions that `send` lets through (`mem_targets_iff`).
-/

namespace Ember.Server

/-- The session is an active member of the team. -/
def TeamStore.Active (s : TeamStore) (sessionId teamId : String) : Prop :=
  ∃ m ∈ s.members, m.sessionId = sessionId ∧ m.active = true ∧ m.teamId = teamId

/-- If the first session is an active teammate, the second is an active member of its team. -/
def TeamStore.InScope (s : TeamStore) (x y : String) : Prop :=
  ∀ m ∈ s.members, m.sessionId = x → m.isActiveTeammate = true → s.Active y m.teamId

/-- Messaging is on, on the server and for the session. -/
def Tables.On (cfg : A2aConfig) (t : Tables) (x : String) : Prop :=
  t.enabled cfg = true ∧ t.sessionEnabled x = true

/-- A message may go from one session to the other: both have messaging on, on a server that has it
on, and each is in the other's scope. -/
def Tables.Allowed (cfg : A2aConfig) (t : Tables) (x y : String) : Prop :=
  t.On cfg x ∧ t.sessionEnabled y = true ∧ t.teams.InScope x y ∧ t.teams.InScope y x

namespace TeamStore

variable {s : TeamStore} {x y teamId : String} {m : MemberRow}

section

variable (honce : (s.members.map MemberRow.sessionId).Nodup)
include honce

/-- Two active members of a team are in each other's scope: no session is in two teams. -/
theorem inScope_of_active (hx : s.Active x teamId) (hy : s.Active y teamId) : s.InScope x y := by
  intro m hm hid _
  obtain ⟨n, hn, hnid, -, hteam⟩ := hx
  obtain rfl : m = n := List.inj_on_of_nodup_map honce hm hn (hid.trans hnid.symm)
  exact hteam ▸ hy

omit honce in
/-- The row of a session, in a list that has one for each. -/
theorem find_session_eq_some {ms : List MemberRow} (h : (ms.map MemberRow.sessionId).Nodup) :
    ms.find? (·.sessionId == x) = some m ↔ m ∈ ms ∧ m.sessionId = x := by
  constructor
  · intro hfind
    exact ⟨List.mem_of_find?_eq_some hfind, beq_iff_eq.1 (List.find?_some hfind :)⟩
  · rintro ⟨hm, hid⟩
    cases hfind : ms.find? (·.sessionId == x) with
    | none => exact absurd (beq_iff_eq.2 hid) (List.find?_eq_none.1 hfind m hm)
    | some n =>
      have hnid : n.sessionId = x := beq_iff_eq.1 (List.find?_some hfind :)
      rw [List.inj_on_of_nodup_map h (List.mem_of_find?_eq_some hfind) hm (hnid.trans hid.symm)]

theorem activeMember_eq_some :
    activeMember s.members x = some m ↔ m ∈ s.members ∧ m.sessionId = x ∧ m.active = true := by
  rw [activeMember, find_session_eq_some (honce.sublist (List.filter_sublist.map _)),
    List.mem_filter]
  tauto

/-- `send` reads a membership and drops it unless it is active; `targets` reads the active ones. -/
theorem filter_teamMember (x : String) :
    (s.teamMember x).filter MemberRow.active = activeMember s.members x := by
  refine Option.ext fun m ↦ ?_
  rw [activeMember_eq_some honce, Option.filter_eq_some_iff, teamMember,
    find_session_eq_some honce, and_assoc]

/-- **The team rule** of `team_scope_denial`, on what the tables say. -/
theorem teamScopeDenial_eq_none :
    teamScopeDenial (activeMember s.members x) (activeMember s.members y) y = none ↔
      s.InScope x y ∧ s.InScope y x := by
  have hhalf : ∀ u v : String, s.InScope u v ↔
      ∀ m, activeMember s.members u = some m → m.isActiveTeammate = true →
        (activeMember s.members v).map MemberRow.teamId = some m.teamId := by
    intro u v
    constructor
    · intro h m hm hteammate
      obtain ⟨hmem, hid, -⟩ := (activeMember_eq_some honce).1 hm
      obtain ⟨n, hn, hnid, hactive, hteam⟩ := h m hmem hid hteammate
      rw [(activeMember_eq_some honce).2 ⟨hn, hnid, hactive⟩, Option.map_some, hteam]
    · intro h m hm hid hteammate
      have hactive := (Bool.and_eq_true_iff.1 hteammate).2
      obtain ⟨n, hn, hteam⟩ := Option.map_eq_some_iff.1
        (h m ((activeMember_eq_some honce).2 ⟨hm, hid, hactive⟩) hteammate)
      obtain ⟨hmem, hnid, hnactive⟩ := (activeMember_eq_some honce).1 hn
      exact ⟨n, hmem, hnid, hnactive, hteam⟩
  rw [hhalf x y, hhalf y x, teamScopeDenial, Option.orElse_eq_none]
  refine and_congr ?_ ?_
  · cases activeMember s.members x with
    | none => simp
    | some m => cases hm : m.isActiveTeammate <;> simp [Option.filter, hm]
  · cases activeMember s.members y with
    | none => simp
    | some m => cases hm : m.isActiveTeammate <;> simp [Option.filter, hm]

end

end TeamStore

/-! ### What the checks of a call have found -/

/-- The target of a `send`. -/
def Request.target : Request → Option String
  | .send _ target .. => some target
  | _ => none

/-- The recipients a message is still to be stored for. -/
def LockedAt.remaining (out : Outgoing) : LockedAt → List String
  | .refusing .. => []
  | .storing _ _ rest _ => rest
  | _ => out.tos

/-- Whether the messages are a notice of the task list. -/
def After.isNotice : After → Bool
  | .noticed _ => true
  | _ => false

/-- The caller may message, and is an active member of the team of `me`. -/
def Tables.Joined (cfg : A2aConfig) (t : Tables) (caller : String) (me : MemberRow) : Prop :=
  me.sessionId = caller ∧ t.On cfg caller ∧ t.teams.Active caller me.teamId

/-- What is still known after the locked part. -/
def After.Granted (cfg : A2aConfig) (t : Tables) (caller : String) : After → Prop
  | .noticed (.report me ..) => t.Joined cfg caller me
  | _ => True

/-- The switches and memberships that the checks of a call have found, as far as the call goes by
them. -/
def At.Granted (cfg : A2aConfig) (t : Tables) (req : Request) : At → Prop
  | .checking .server => True
  | .checking .session => t.enabled cfg = true
  | .finding | .found | .joining => t.On cfg req.caller
  | .switched => t.On cfg req.caller ∧ ∀ y ∈ req.target, t.sessionEnabled y = true
  | .scoping me => t.On cfg req.caller ∧ (∀ y ∈ req.target, t.sessionEnabled y = true) ∧
      me.filter MemberRow.active = activeMember t.teams.members req.caller
  | .replying _ => ∀ y ∈ req.target, t.Allowed cfg req.caller y
  | .resolving me _ | .gathering me | .reading me | .reassigning me .. | .reporting me _ =>
    t.Joined cfg req.caller me
  | .switching me _ recipients rest off => t.Joined cfg req.caller me ∧
      (∀ r ∈ recipients, t.teams.Active r.sessionId me.teamId) ∧
      (off = [] → ∀ r ∈ recipients, r ∈ rest ∨ t.sessionEnabled r.sessionId = true)
  | .inserting me assignee => t.Joined cfg req.caller me ∧
      ∀ a ∈ assignee, t.teams.Active a.sessionId me.teamId
  | .writing me _ _ assignee | .rereading me _ _ assignee | .naming me _ _ _ assignee =>
    t.Joined cfg req.caller me ∧
      ∀ a, assignee = some (some a) → t.teams.Active a.sessionId me.teamId
  | .locked out k after => out.sender = req.caller ∧
      (∀ y ∈ k.remaining out, t.On cfg req.caller ∧
        (after.isNotice = false ∨ k.holds = true → t.sessionEnabled y = true) ∧
        t.teams.InScope req.caller y ∧ t.teams.InScope y req.caller) ∧
      after.Granted cfg t req.caller
  | .delivering _ _ _ after => after.Granted cfg t req.caller
  | .targeting _ (.checking .server) => True
  | .targeting _ (.checking .session) => t.enabled cfg = true
  | .targeting _ .members => t.On cfg req.caller
  | .targeting _ (.sessions rows) => t.On cfg req.caller ∧
      ∀ x, activeMember rows x = activeMember t.teams.members x
  | .targeting _ (.filtering rows _ out) => t.On cfg req.caller ∧
      (∀ x, activeMember rows x = activeMember t.teams.members x) ∧
      ∀ target ∈ out, t.Allowed cfg req.caller target.id
  | .titling _ candidates => ∀ target ∈ candidates, t.Allowed cfg req.caller target.id
  | .copying m _ target => t.Allowed cfg req.caller target.id ∧
      ∀ target ∈ m.candidates, t.Allowed cfg req.caller target.id
  | .copied m .. | .noting m _ => ∀ target ∈ m.candidates, t.Allowed cfg req.caller target.id
  | .answered _ => True

variable {req : Request} {p : At}

/-- What a call goes by are the switches and the teams. -/
theorem At.Granted.congr {cfg : A2aConfig} {t t' : Tables} (h : p.Granted cfg t req)
    (hteams : t'.teams = t.teams) (hglobal : t'.globalEnabled = t.globalEnabled)
    (hsession : t'.sessionEnabled = t.sessionEnabled) : p.Granted cfg t' req := by
  obtain ⟨store, teams, a2a, globalEnabled, sessionEnabled⟩ := t
  obtain ⟨store', teams', a2a', globalEnabled', sessionEnabled'⟩ := t'
  obtain rfl : teams' = teams := hteams
  obtain rfl : globalEnabled' = globalEnabled := hglobal
  obtain rfl : sessionEnabled' = sessionEnabled := hsession
  cases p with
  | checking k => cases k <;> exact h
  | targeting tokens k =>
    cases k with
    | checking k => cases k <;> exact h
    | _ => exact h
  | _ => exact h

/-! ### Which teams there are -/

/-- Every team's leader is an active member of it. -/
def TeamStore.Led (s : TeamStore) : Prop := ∀ t ∈ s.teams, ∃ m ∈ s.members,
  m.sessionId = t.leaderSession ∧ m.teamId = t.id ∧ m.role = .leader ∧ m.active = true

variable {team : TeamRow}

namespace TeamStore

variable {s s' : TeamStore} {id leader project teamId sessionId name : String} {now : ℕ}

theorem Led.createTeam (h : s.Led)
    (hs : s.createTeam id now leader project = some (s', team)) : s'.Led := by
  obtain ⟨-, rfl, rfl, -⟩ := createTeam_eq_some hs
  intro t ht
  rcases List.mem_append.1 ht with ht | ht
  · obtain ⟨m, hm, hrest⟩ := h t ht
    exact ⟨m, List.mem_append_left _ hm, hrest⟩
  · obtain rfl := List.mem_singleton.1 ht
    exact ⟨_, List.mem_append_right _ List.mem_cons_self, rfl, rfl, rfl, rfl⟩

theorem Led.addTeamMember {m : MemberRow} (h : s.Led)
    (hs : s.addTeamMember now teamId sessionId name = some (s', m)) : s'.Led := by
  obtain ⟨-, rfl, -⟩ := addTeamMember_eq_some hs
  intro t ht
  obtain ⟨m, hm, hrest⟩ := h t ht
  exact ⟨m, List.mem_append_left _ hm, hrest⟩

/-- A leader is never ended. -/
theorem Led.endTeamMember (h : s.Led) (now : ℕ) (sessionId : String) :
    (s.endTeamMember now sessionId).1.Led := by
  intro t ht
  obtain ⟨m, hm, hid, hteam, hrole, hactive⟩ := h t ht
  refine ⟨m, List.mem_map.2 ⟨m, hm, if_neg fun hand ↦ ?_⟩, hid, hteam, hrole, hactive⟩
  have := hand.2
  rw [MemberRow.isActiveTeammate, hrole] at this
  cases this

theorem Led.active (h : s.Led) (hrow : s.teamRow teamId = some team) :
    s.Active team.leaderSession teamId := by
  obtain ⟨m, hm, hid, hteam, -, hactive⟩ := h team (List.mem_of_find?_eq_some hrow)
  have hfound : (team.id == teamId) = true :=
    List.find?_some (p := fun t : TeamRow ↦ t.id == teamId) hrow
  exact ⟨m, hm, hid, hactive, hteam.trans (beq_iff_eq.1 hfound)⟩

end TeamStore

/-! ### What the checks find -/

variable {cfg : A2aConfig} {t : Tables} {caller teamId who : String} {me m : MemberRow}

theorem mem_of_mem_teamMembers {s : TeamStore} (h : m ∈ s.teamMembers teamId) :
    m ∈ s.members ∧ m.teamId = teamId := by
  obtain ⟨hm, hteam⟩ := List.mem_filter.1 ((List.mem_insertionSort _).1 h)
  exact ⟨hm, beq_iff_eq.1 hteam⟩

theorem joined_of_membership (h : t.membership caller = .ok me) (hon : t.On cfg caller) :
    t.Joined cfg caller me := by
  obtain ⟨hmem, hid, hactive⟩ := Tables.of_membership h
  exact ⟨hid, hon, me, hmem, hid, hactive, rfl⟩

/-- What `resolve_member` finds is an active member. -/
theorem mem_of_resolveMember {members : List MemberRow} (h : resolveMember members who = some m) :
    m ∈ members ∧ m.active = true := by
  rw [resolveMember.eq_def] at h
  dsimp only at h
  split at h
  case h_1 m' hfind =>
    obtain rfl := Option.some.inj h
    exact List.mem_filter.1 (List.mem_of_find?_eq_some hfind)
  case h_2 =>
    split at h
    case isTrue =>
      split at h
      case h_1 m' hone =>
        obtain rfl := Option.some.inj h
        exact List.mem_filter.1 (List.mem_of_mem_filter (hone ▸ List.mem_singleton_self _))
      case h_2 => cases h
    case isFalse => cases h

theorem active_of_resolveMember (h : t.resolveMember teamId who = .ok m) :
    t.teams.Active m.sessionId teamId := by
  rw [Tables.resolveMember] at h
  split at h
  case h_1 m' hfind =>
    obtain rfl := Except.ok.inj h
    obtain ⟨hmem, hactive⟩ := mem_of_resolveMember hfind
    obtain ⟨hm, hteam⟩ := mem_of_mem_teamMembers hmem
    exact ⟨m', hm, rfl, hactive, hteam⟩
  case h_2 => cases h

/-- A message of a member to a member of its team. -/
theorem scope_of_joined (honce : (t.teams.members.map MemberRow.sessionId).Nodup) {y : String}
    (hjoined : t.Joined cfg caller me) (hy : t.teams.Active y me.teamId) :
    t.teams.InScope caller y ∧ t.teams.InScope y caller :=
  ⟨TeamStore.inScope_of_active honce hjoined.2.2 hy,
    TeamStore.inScope_of_active honce hy hjoined.2.2⟩

variable {assignee : Option (Option MemberRow)} {tokens : List String} {after : After}

namespace Call

variable {c : Call}

theorem granted_proceed {next : Next} (h : After.Granted cfg t c.req.caller (.noticed next)) :
    (c.proceed next).at_.Granted cfg t c.req := by
  cases next with
  | answer => trivial
  | report =>
    simp only [proceed]
    split
    · exact h
    · trivial

theorem granted_unlocked (h : after.Granted cfg t c.req.caller)
    (result : LockedAt.Outcome) : (c.unlocked after result).at_.Granted cfg t c.req := by
  simp only [unlocked]
  split
  · exact h
  · split
    · exact granted_proceed h
    · trivial

theorem granted_delivered (h : after.Granted cfg t c.req.caller) (mail : Option Mail)
    (done : List Receipt) : (c.delivered mail done after).at_.Granted cfg t c.req := by
  cases after with
  | sent | mailed => trivial
  | noticed next => exact granted_proceed h

section

variable (h : t.Joined cfg c.req.caller me)
include h

theorem granted_reviewed
    (hassignee : ∀ a, assignee = some (some a) → t.teams.Active a.sessionId me.teamId) (task : Task)
    (status : Option TaskStatus) :
    (c.reviewed me task status assignee).at_.Granted cfg t c.req := by
  simp only [reviewed]
  split
  · trivial
  · split
    · trivial
    · exact ⟨h, hassignee⟩

theorem granted_found (task : Task) (patch : TaskPatch) :
    (c.found me task patch).at_.Granted cfg t c.req := by
  simp only [found]
  split
  · trivial
  · split
    · exact granted_reviewed h (fun a ha ↦ by cases ha) _ _
    · split
      · exact granted_reviewed h (fun a ha ↦ by cases ha) _ _
      · exact h

theorem granted_joined :
    (c.joined me).at_.Granted cfg t c.req := by
  simp only [joined]
  split
  · split
    · trivial
    · split <;> exact h
  · split
    · trivial
    · split
      · exact h
      · exact ⟨h, fun a ha ↦ by cases ha⟩
  · exact h

theorem granted_resolved
    (hm : t.teams.Active m.sessionId me.teamId) : (c.resolved me m).at_.Granted cfg t c.req := by
  have hone : ∀ r ∈ [m], t.teams.Active r.sessionId me.teamId := fun r hr ↦
    List.mem_singleton.1 hr ▸ hm
  simp only [resolved]
  split
  · split
    · trivial
    · exact ⟨h, hone, fun _ r hr ↦ .inl hr⟩
  · split
    · trivial
    · exact ⟨h, fun a ha ↦ Option.mem_some.1 ha ▸ hm⟩

end

theorem granted_addressed (honce : (t.teams.members.map MemberRow.sessionId).Nodup)
    {target : Option MemberRow} {recipients : List MemberRow} {off : List String}
    (h : (At.switching me target recipients [] off).Granted cfg t c.req)
    (hat : c.at_.Granted cfg t c.req) :
    (c.addressed me target recipients off).at_.Granted cfg t c.req := by
  obtain ⟨hjoined, hactive, hswitch⟩ := h
  simp only [addressed]
  split
  case h_1 caller target' text hreq =>
    split
    case isTrue => trivial
    case isFalse hoff =>
      refine ⟨by rw [hreq]; rfl, fun y hy ↦ ?_, trivial⟩
      obtain ⟨r, hr, rfl⟩ := List.mem_map.1 hy
      refine ⟨hjoined.2.1, fun _ ↦ ?_, scope_of_joined honce hjoined (hactive r hr)⟩
      exact (hswitch (not_not.1 hoff) r hr).resolve_left List.not_mem_nil
  case h_2 => exact hat

theorem granted_permitted (h : ∀ y ∈ c.req.target, t.Allowed cfg c.req.caller y)
    (hat : c.at_.Granted cfg t c.req) : c.permitted.at_.Granted cfg t c.req := by
  simp only [permitted]
  split
  · exact h
  case h_2 from_ target text hreq =>
    refine ⟨by rw [hreq]; rfl, fun y hy ↦ ?_, trivial⟩
    obtain rfl := List.mem_singleton.1 hy
    obtain ⟨hon, hswitch, hscope⟩ := h y (by rw [hreq]; rfl)
    exact ⟨hon, fun _ ↦ hswitch, hscope⟩
  · exact hat

theorem granted_announcement (honce : (t.teams.members.map MemberRow.sessionId).Nodup)
    (h : t.Joined cfg c.req.caller me) (hm : t.teams.Active m.sessionId me.teamId) (task : Task)
    {next : Next} (hnext : After.Granted cfg t c.req.caller (.noticed next)) :
    (At.locked (announcement me m task) .waiting (.noticed next)).Granted cfg t c.req := by
  refine ⟨h.1, fun y hy ↦ ?_, hnext⟩
  obtain rfl := List.mem_singleton.1 hy
  exact ⟨h.2.1, fun hor ↦ hor.elim (fun hno ↦ nomatch hno) (fun hno ↦ nomatch hno),
    scope_of_joined honce h hm⟩

theorem granted_named (honce : (t.teams.members.map MemberRow.sessionId).Nodup)
    (h : t.Joined cfg c.req.caller me)
    (hassignee : ∀ a, assignee = some (some a) → t.teams.Active a.sessionId me.teamId)
    (task updated : Task) (status : Option TaskStatus) :
    (c.named me task updated status assignee).at_.Granted cfg t c.req := by
  simp only [named]
  split
  case h_1 a =>
    split
    · exact granted_announcement honce h (hassignee a rfl) updated h
    · exact granted_proceed h
  case h_2 => exact granted_proceed h

theorem granted_targeted {result : Except A2aError (List Target)}
    (h : ∀ l, result = .ok l → ∀ target ∈ l, t.Allowed cfg c.req.caller target.id) :
    (c.targeted tokens result).at_.Granted cfg t c.req := by
  cases result with
  | ok l => exact h l rfl
  | error e => exact fun target hm ↦ by cases hm

end Call

theorem Mentioning.granted_next {m : Mentioning} (tokens : List String)
    (h : ∀ target ∈ m.candidates, t.Allowed cfg req.caller target.id) :
    (m.next tokens).Granted cfg t req := by
  induction tokens with
  | nil => trivial
  | cons token rest ih =>
    simp only [next]
    split
    case h_1 => exact h
    case h_2 target hresolve =>
      split
      · exact ih
      · exact ⟨h target (mem_of_resolveMention hresolve), h⟩

theorem Mentioning.granted_outcome {m : Mentioning} (token : String) (target : Target)
    (result : Except A2aError Receipt)
    (h : ∀ target ∈ m.candidates, t.Allowed cfg req.caller target.id) :
    (m.outcome token target result).Granted cfg t req := by
  cases result <;> exact h

/-! ### One step of a call -/

namespace Call

variable {b : Board} {c : Call} {id : String} {d : Except String String}

theorem granted_fails (h : c.at_.Granted cfg t c.req) (why : String) :
    (c.fails why).at_.Granted cfg t c.req := by
  cases hat : c.at_ with rw [hat] at h
  | delivering mail rest done after =>
    cases after with
    | sent | mailed =>
      simp only [fails, hat]
      trivial
    | noticed next =>
      simp only [fails, hat]
      exact granted_proceed h
  | targeting tokens k =>
    simp only [fails, hat]
    exact granted_targeted fun l hl ↦ by cases hl
  | titling | noting =>
    simp only [fails, hat]
    exact Mentioning.granted_next _ h
  | copying m token target =>
    simp only [fails, hat]
    rw [at_goTo]
    exact Mentioning.granted_outcome _ _ _ h.2
  | copied m token target msg =>
    simp only [fails, hat]
    rw [at_goTo]
    exact Mentioning.granted_outcome _ _ _ h
  | _ =>
    simp only [fails, hat]
    trivial

/-- `targets` lists only sessions that may be messaged. -/
theorem granted_targets (honce : (t.teams.members.map MemberRow.sessionId).Nodup) {k : TargetsAt}
    (h : (At.targeting tokens k).Granted cfg t req) :
    (∀ k', k.step cfg t req.caller = .inl k' → (At.targeting tokens k').Granted cfg t req) ∧
      ∀ l, k.step cfg t req.caller = .inr (.ok l) →
        ∀ target ∈ l, t.Allowed cfg req.caller target.id := by
  cases k with
  | checking k =>
    cases k with simp only [TargetsAt.step, CheckAt.step]
    | server =>
      cases hon : t.enabled cfg with
      | true => exact ⟨fun k' hk' ↦ Sum.inl.inj hk' ▸ hon, fun l hl ↦ by cases hl⟩
      | false => exact ⟨fun k' hk' ↦ (by cases hk'), fun l hl ↦ (by cases hl)⟩
    | session =>
      cases hon : t.sessionEnabled req.caller with
      | true => exact ⟨fun k' hk' ↦ Sum.inl.inj hk' ▸ ⟨h, hon⟩, fun l hl ↦ by cases hl⟩
      | false => exact ⟨fun k' hk' ↦ (by cases hk'), fun l hl ↦ (by cases hl)⟩
  | members => exact ⟨fun k' hk' ↦ Sum.inl.inj hk' ▸ ⟨h, fun _ ↦ rfl⟩, fun l hl ↦ by cases hl⟩
  | sessions rows =>
    refine ⟨fun k' hk' ↦ ?_, fun l hl ↦ by cases hl⟩
    obtain rfl := Sum.inl.inj hk'
    exact ⟨h.1, h.2, fun target hm ↦ by cases hm⟩
  | filtering rows rest out =>
    obtain ⟨hon, hrows, hout⟩ := h
    cases rest with
    | nil =>
      refine ⟨fun k' hk' ↦ (by cases hk'), fun l hl ↦ ?_⟩
      obtain rfl := Except.ok.inj (Sum.inr.inj hl)
      exact hout
    | cons s rest =>
      simp only [TargetsAt.step]
      have hsame : ∀ k', (.inl (.filtering rows rest out) : TargetsAt ⊕ Except A2aError (List Target)) =
          .inl k' → (At.targeting tokens k').Granted cfg t req := fun k' hk' ↦
        Sum.inl.inj hk' ▸ ⟨hon, hrows, hout⟩
      split
      case isTrue => exact ⟨hsame, fun l hl ↦ by cases hl⟩
      case isFalse hswitch =>
        split
        case isTrue => exact ⟨hsame, fun l hl ↦ by cases hl⟩
        case isFalse hdenial =>
          refine ⟨fun k' hk' ↦ ?_, fun l hl ↦ by cases hl⟩
          obtain rfl := Sum.inl.inj hk'
          refine ⟨hon, hrows, fun target hm ↦ ?_⟩
          rcases List.mem_append.1 hm with hm | hm
          · exact hout target hm
          · obtain rfl := List.mem_singleton.1 hm
            rw [hrows, hrows, Option.not_isSome_iff_eq_none] at hdenial
            refine ⟨hon, ?_, (TeamStore.teamScopeDenial_eq_none honce).1 hdenial⟩
            show t.sessionEnabled s.id = true
            simpa using (not_or.1 hswitch).2

/-- **What is found after a store call outside the locked part** still stands where the switches and
teams are as they were. -/
theorem granted_goes (honce : (b.tables.teams.members.map MemberRow.sessionId).Nodup)
    (hled : b.tables.teams.Led) (h : c.at_.Granted cfg b.tables c.req) :
    (c.goes cfg b id).2.at_.Granted cfg b.tables c.req := by
  cases hat : c.at_ with rw [hat] at h
  | checking k =>
    cases k with simp only [goes, hat, CheckAt.step]
    | server =>
      cases hon : b.tables.enabled cfg with
      | true => exact hon
      | false => trivial
    | session =>
      cases hon : b.tables.sessionEnabled c.req.caller with
      | true =>
        simp only [if_true, checked]
        split <;> exact ⟨h, hon⟩
      | false => trivial
  | finding =>
    simp only [goes, hat]
    split
    · split
      · trivial
      · exact h
    · exact hat ▸ h
  | found =>
    simp only [goes, hat]
    split
    case h_1 from_ target text replyTo hreq =>
      split
      case isTrue hon =>
        refine ⟨h, fun y hy ↦ ?_⟩
        rw [hreq] at hy
        obtain rfl := Option.mem_some.1 hy
        exact hon
      case isFalse => trivial
    · exact hat ▸ h
  | switched =>
    simp only [goes, hat]
    exact ⟨h.1, h.2, TeamStore.filter_teamMember honce _⟩
  | scoping me =>
    obtain ⟨hon, hswitch, hme⟩ := h
    simp only [goes, hat]
    split
    case h_1 from_ target text replyTo hreq =>
      split
      case h_1 => trivial
      case h_2 hdenial =>
        rw [hme, TeamStore.filter_teamMember honce] at hdenial
        refine granted_permitted (fun y hy ↦ ?_) (hat ▸ ⟨hon, hswitch, hme⟩)
        have hy' := hswitch y hy
        rw [hreq] at hy
        obtain rfl := Option.mem_some.1 hy
        exact ⟨hon, hy', (TeamStore.teamScopeDenial_eq_none honce).1 hdenial⟩
    · exact hat ▸ ⟨hon, hswitch, hme⟩
  | replying r =>
    simp only [goes, hat]
    split
    case h_1 from_ target text replyTo orig hreq _ =>
      split
      · trivial
      · refine ⟨by rw [hreq]; rfl, fun y hy ↦ ?_, trivial⟩
        obtain rfl := List.mem_singleton.1 hy
        obtain ⟨hon, hswitch, hscope⟩ := h y (by rw [hreq]; rfl)
        exact ⟨hon, fun _ ↦ hswitch, hscope⟩
    · trivial
  | joining =>
    simp only [goes, hat]
    split
    case h_1 => trivial
    case h_2 me hme => exact granted_joined (joined_of_membership hme h)
  | resolving me who =>
    simp only [goes, hat]
    split
    case h_1 => trivial
    case h_2 m hm => exact granted_resolved h (active_of_resolveMember hm)
  | gathering me =>
    simp only [goes, hat]
    split
    case isTrue => trivial
    case isFalse =>
      refine ⟨h, fun r hr ↦ ?_, fun _ r hr ↦ .inl hr⟩
      obtain ⟨hr, hpicked⟩ := List.mem_filter.1 hr
      obtain ⟨hm, hteam⟩ := mem_of_mem_teamMembers hr
      exact ⟨r, hm, rfl, (Bool.and_eq_true_iff.1 hpicked).1, hteam⟩
  | switching me target recipients rest off =>
    cases rest with
    | nil =>
      simp only [goes, hat]
      exact granted_addressed honce h (hat ▸ h)
    | cons r rest =>
      obtain ⟨hjoined, hactive, hswitch⟩ := h
      simp only [goes, hat]
      refine ⟨hjoined, hactive, fun hoff x hx ↦ ?_⟩
      split at hoff
      case isTrue hon =>
        rcases hswitch hoff x hx with hmem | hon'
        · rcases List.mem_cons.1 hmem with rfl | hmem
          · exact .inr hon
          · exact .inl hmem
        · exact .inr hon'
      case isFalse => exact absurd hoff (by simp)
  | inserting me assignee =>
    obtain ⟨hjoined, hactive⟩ := h
    simp only [goes, hat]
    split
    · split
      · trivial
      · split
        case h_1 a _ =>
          split
          · exact granted_announcement honce hjoined (hactive a rfl) _ trivial
          · trivial
        · trivial
    · exact hat ▸ ⟨hjoined, hactive⟩
  | reading me =>
    simp only [goes, hat]
    split
    · split
      · trivial
      · exact granted_found h _ _
    · exact hat ▸ h
  | reassigning me task status who =>
    simp only [goes, hat]
    split
    case h_1 => trivial
    case h_2 m hm =>
      refine granted_reviewed h (fun a ha ↦ ?_) _ _
      obtain rfl := Option.some.inj (Option.some.inj ha)
      exact active_of_resolveMember hm
  | writing me task status assignee =>
    simp only [goes, hat]
    split
    · exact h
    · exact hat ▸ h
  | rereading me task status assignee =>
    simp only [goes, hat]
    split
    · trivial
    · exact h
  | naming me task updated status assignee =>
    simp only [goes, hat]
    exact granted_named honce h.1 h.2 _ _ _
  | reporting me updated =>
    simp only [goes, hat]
    split
    case h_1 => trivial
    case h_2 team hteam =>
      refine ⟨rfl, fun y hy ↦ ?_, trivial⟩
      obtain rfl := List.mem_singleton.1 hy
      exact ⟨h.2.1, fun hor ↦ hor.elim (absurd ·.symm Bool.false_ne_true)
        (absurd · Bool.false_ne_true), scope_of_joined honce h (hled.active hteam)⟩
  | delivering mail rest done after =>
    cases rest with
    | nil =>
      simp only [goes, hat]
      exact granted_delivered h _ _
    | cons msg rest =>
      simp only [goes, hat]
      exact h
  | targeting tokens k =>
    obtain ⟨hgo, hover⟩ := granted_targets honce h
    simp only [goes, hat]
    split
    case h_1 k' hk' => exact hgo k' hk'
    case h_2 result hresult => exact granted_targeted fun l hl ↦ hover l (hl ▸ hresult)
  | titling | noting =>
    simp only [goes, hat]
    exact Mentioning.granted_next _ h
  | copying m token target =>
    simp only [goes, hat]
    split
    · rw [at_goTo]
      exact Mentioning.granted_outcome _ _ _ h.2
    · exact h.2
  | copied m token target msg =>
    simp only [goes, hat]
    rw [at_goTo]
    exact Mentioning.granted_outcome _ _ _ h
  | locked | answered =>
    simp only [goes, hat]
    exact hat ▸ h

end Call

namespace LockedAt

variable {b : Board} {out : Outgoing} {k : LockedAt} {d : Except String String}

theorem remaining_admitted (out : Outgoing) : (admitted out).remaining out = out.tos := by
  rw [admitted]
  split <;> rfl

theorem remaining_refuse (b : Board) (out : Outgoing) (target reason : String) :
    (∀ k', (refuse b out target reason).2 = .inl k' → k'.remaining out = []) ∧
      (refuse b out target reason).1.tables.a2a = b.tables.a2a := by
  simp only [refuse]
  split
  · exact ⟨fun k' h ↦ (by cases h), rfl⟩
  · exact ⟨fun k' h ↦ Sum.inl.inj h ▸ rfl, rfl⟩

/-- **What one step under the lock stores**: at most one message, to the first of the recipients
that are still to get one. -/
theorem stores_step (cfg : A2aConfig) (b : Board) (out : Outgoing) (d : Except String String)
    (k : LockedAt) :
    (∀ k', (k.step cfg b out d).2 = .inl k' → ∀ y ∈ k'.remaining out, y ∈ k.remaining out) ∧
      ((k.step cfg b out d).1.tables.a2a = b.tables.a2a ∨
        ∃ target id replyTo text msg, target ∈ k.remaining out ∧ k.holds = true ∧
          b.tables.a2a.insertMessage id b.clock out.sender target replyTo text =
            some ((k.step cfg b out d).1.tables.a2a, msg)) := by
  have hover : ∀ (b' : Board) (r : Outcome) (l : List String), b'.tables.a2a = b.tables.a2a →
      (∀ k', (.inr r : LockedAt ⊕ Outcome) = .inl k' → ∀ y ∈ k'.remaining out, y ∈ l) ∧
        b'.tables.a2a = b.tables.a2a := fun b' r l h ↦ ⟨fun k' h ↦ (by cases h), h⟩
  have hgo : ∀ {b' : Board} {k₁ : LockedAt} {l : List String}, b'.tables.a2a = b.tables.a2a →
      (∀ y ∈ k₁.remaining out, y ∈ l) →
      (∀ k', (.inl k₁ : LockedAt ⊕ Outcome) = .inl k' → ∀ y ∈ k'.remaining out, y ∈ l) ∧
        b'.tables.a2a = b.tables.a2a := fun hb h ↦ ⟨fun k' hk' ↦ Sum.inl.inj hk' ▸ h, hb⟩
  have hrefuse : ∀ (target reason : String) (l : List String),
      (∀ k', (refuse b out target reason).2 = .inl k' → ∀ y ∈ k'.remaining out, y ∈ l) ∧
        (refuse b out target reason).1.tables.a2a = b.tables.a2a := fun target reason l ↦ by
    obtain ⟨hnone, ha2a⟩ := remaining_refuse b out target reason
    exact ⟨fun k' hk' y hy ↦ absurd (hnone k' hk' ▸ hy) List.not_mem_nil, ha2a⟩
  -- Everything but a message that is stored leaves the table alone.
  have hquiet : ∀ {r : Board × (LockedAt ⊕ Outcome)} {P : Prop}, ((∀ k', r.2 = .inl k' →
      ∀ y ∈ k'.remaining out, y ∈ k.remaining out) ∧ r.1.tables.a2a = b.tables.a2a) →
      (∀ k', r.2 = .inl k' → ∀ y ∈ k'.remaining out, y ∈ k.remaining out) ∧
        (r.1.tables.a2a = b.tables.a2a ∨ P) := fun h ↦ ⟨h.1, .inl h.2⟩
  cases k with
  | waiting =>
    simp only [step]
    split <;> exact hquiet (hgo rfl fun y hy ↦ hy)
  | counting now =>
    simp only [step]
    split
    · exact hquiet (hover _ _ _ rfl)
    · exact hquiet (hgo rfl fun y hy ↦ (remaining_admitted out ▸ hy : y ∈ out.tos))
    · split
      · exact hquiet (hrefuse _ _ _)
      · exact hquiet (hgo rfl fun y hy ↦ hy)
  | pairing now rest =>
    cases rest with
    | nil => exact hquiet (hgo rfl fun y hy ↦ (remaining_admitted out ▸ hy : y ∈ out.tos))
    | cons target rest =>
      simp only [step]
      split
      · exact hquiet (hover _ _ _ rfl)
      · split
        · exact hquiet (hrefuse _ _ _)
        · exact hquiet (hgo rfl fun y hy ↦ hy)
  | refusing rest message =>
    cases rest with
    | nil => exact hquiet (hover _ _ _ rfl)
    | cons target rest =>
      simp only [step]
      split <;> exact hquiet (hgo rfl fun y hy ↦ hy)
  | mailing draft =>
    simp only [step]
    split
    · exact hquiet (hover _ _ _ rfl)
    · exact hquiet (hgo rfl fun y hy ↦ hy)
  | storing mail body rest msgs =>
    cases rest with
    | nil => exact hquiet (hover _ _ _ rfl)
    | cons target rest =>
      simp only [step]
      split
      · exact hquiet (hover _ _ _ rfl)
      case h_2 id =>
        split
        · exact hquiet (hover _ _ _ rfl)
        case h_2 a2a msg hinsert =>
          refine ⟨fun k' hk' y hy ↦ ?_, .inr ⟨target, id, _, _, msg, List.mem_cons_self, rfl, hinsert⟩⟩
          obtain rfl := Sum.inl.inj hk'
          exact List.mem_cons_of_mem _ hy

end LockedAt

namespace Call

variable {b : Board} {c : Call} {d : Except String String}

/-- The notice that the next step takes its turn for: its recipients. -/
def notices (c : Call) : List String :=
  match c.at_ with
  | .locked out .waiting (.noticed _) => out.tos
  | _ => []

/-- **One step of a call** leaves known what its checks found, if no notice takes its turn for a
session whose messaging is off. -/
theorem granted_step (honce : (b.tables.teams.members.map MemberRow.sessionId).Nodup)
    (hled : b.tables.teams.Led) (h : c.at_.Granted cfg b.tables c.req)
    (hnotice : b.locked = false → ∀ y ∈ c.notices, b.tables.sessionEnabled y = true) :
    (c.step cfg b d).2.at_.Granted cfg (c.step cfg b d).1.tables (c.step cfg b d).2.req := by
  rw [c.req_step]
  show (c.act cfg b d).2.at_.Granted cfg (c.act cfg b d).1.tables c.req
  rcases act_cases cfg b c d with ⟨out, k, after, hat, hcases⟩ |
    ⟨hfree, ⟨id, rfl, hact⟩ | ⟨why, rfl, hact⟩⟩
  · have hframe := LockedAt.frame_step cfg b out d k
    rw [hat] at h
    obtain ⟨hsender, hpairs, hafter⟩ := h
    refine At.Granted.congr ?_ ?_ ?_ ?_ (t := b.tables)
    · rcases hcases with ⟨k', hk', hact⟩ | ⟨result, -, hact⟩ <;> rw [hact]
      · refine ⟨hsender, fun y hy ↦ ?_, hafter⟩
        have hmem := (LockedAt.stores_step cfg b out d k).1 k' hk' y hy
        obtain ⟨hon, hswitch, hscope⟩ := hpairs y hmem
        refine ⟨hon, fun hor ↦ ?_, hscope⟩
        rcases hor with hno | hholds
        · exact hswitch (.inl hno)
        · -- A notice that holds the lock held it before, or takes its turn now.
          cases k with
          | waiting =>
            cases after with
            | noticed next =>
              refine hnotice ?_ y ?_
              · cases hlocked : b.locked with
                | false => rfl
                | true =>
                  simp only [LockedAt.step, hlocked, if_true] at hk'
                  rw [← Sum.inl.inj hk'] at hholds
                  cases hholds
              · rw [notices, hat]
                exact hmem
            | _ => exact hswitch (.inl rfl)
          | _ => exact hswitch (.inr rfl)
      · exact granted_unlocked hafter result
    · rcases hcases with ⟨_, -, hact⟩ | ⟨_, -, hact⟩ <;> exact hact ▸ hframe.teams
    · rcases hcases with ⟨_, -, hact⟩ | ⟨_, -, hact⟩ <;> exact hact ▸ hframe.globalEnabled
    · rcases hcases with ⟨_, -, hact⟩ | ⟨_, -, hact⟩ <;> exact hact ▸ hframe.sessionEnabled
  · rw [hact]
    obtain ⟨hteams, hglobal, hsession, -⟩ := frame_goes cfg b c id
    exact (granted_goes honce hled h).congr hteams hglobal hsession
  · rw [hact]
    exact granted_fails h why

/-- **A message that is stored is allowed**, where what the checks found still stands. -/
theorem allowed_of_stored {r : MessageRow} (h : c.at_.Granted cfg b.tables c.req)
    (hstored : r ∈ (c.step cfg b d).1.tables.a2a.messages) (hnew : r ∉ b.tables.a2a.messages) :
    b.tables.Allowed cfg r.message.fromSession r.message.toSession := by
  replace hstored : r ∈ (c.act cfg b d).1.tables.a2a.messages := hstored
  have hnone : (c.act cfg b d).1.tables.a2a ≠ b.tables.a2a := fun heq ↦ hnew (heq ▸ hstored)
  have hrow : ∀ {id y : String} {replyTo : Option String} {text : String} {msg : A2aMessage}
      {x : String}, b.tables.a2a.insertMessage id b.clock x y replyTo text =
        some ((c.act cfg b d).1.tables.a2a, msg) →
      r.message.fromSession = x ∧ r.message.toSession = y := fun hinsert ↦ by
    obtain ⟨rfl, hmessages, -⟩ := A2aStore.insertMessage_eq_some hinsert
    rw [hmessages] at hstored
    obtain rfl := List.mem_singleton.1 ((List.mem_append.1 hstored).resolve_left hnew)
    exact ⟨rfl, rfl⟩
  rcases act_cases cfg b c d with ⟨out, k, after, hat, hcases⟩ |
    ⟨hfree, ⟨id, rfl, hact⟩ | ⟨why, rfl, hact⟩⟩
  · have hboard : (c.act cfg b d).1 = (k.step cfg b out d).1 := by
      rcases hcases with ⟨_, -, hact⟩ | ⟨_, -, hact⟩ <;> rw [hact]
    rw [hat] at h
    obtain ⟨hsender, hpairs, -⟩ := h
    rcases (LockedAt.stores_step cfg b out d k).2 with hsame |
      ⟨target, id, replyTo, text, msg, hmem, hholds, hinsert⟩
    · exact absurd (hboard ▸ hsame) hnone
    · obtain ⟨hfrom, hto⟩ := hrow (hboard ▸ hinsert)
      obtain ⟨hon, hswitch, hscope⟩ := hpairs target hmem
      rw [hfrom, hto, hsender]
      exact ⟨hon, hswitch (.inr hholds), hscope⟩
  · rcases goes_board cfg b c id with hb | ⟨_, _, _, _, _, -, -, -, hb⟩ | ⟨_, _, _, _, _, _, -, hb⟩ |
      ⟨m, token, target, a2a, msg, hat, hinsert, hb⟩ | ⟨_, hb⟩
    · exact absurd (by rw [hact, hb]) hnone
    · exact absurd (by rw [hact, hb]) hnone
    · exact absurd (by rw [hact, hb]) hnone
    · rw [hat] at h
      obtain ⟨hfrom, hto⟩ := hrow (by rw [hact, hb]; exact hinsert)
      rw [hfrom, hto]
      exact h.1
    · exact absurd (by rw [hact, hb]; rfl) hnone
  · exact absurd (by rw [hact]) hnone

theorem granted_enter (t : Tables) (req : Request) :
    req.enter.at_.Granted cfg t req.enter.req := by
  rw [Request.enter.eq_def]
  dsimp only
  split
  · split
    · trivial
    · split <;> trivial
  · split <;> trivial
  · trivial

end Call

/-! ### What a run keeps -/

variable {text : String}

namespace Sending

/-- A change of the switches and the teams leaves standing what the calls under way have found, and
no notice takes its turn for a session whose messaging is off. -/
def Standing (cfg : A2aConfig) (w : Calls Board Call) :
    CallAct Request (Except String String) BoardAct → Prop
  | .start .. => True
  | .step i _ => w.shared.locked = false → ∀ c, w.call i = some c →
      ∀ y ∈ c.notices, w.shared.tables.sessionEnabled y = true
  | .env e => ∀ i c, w.call i = some c → c.at_.Granted cfg w.shared.tables c.req →
      c.at_.Granted cfg (w.shared.env e).tables c.req

theorem led_env {b : Board} (h : b.tables.teams.Led) (e : BoardAct) :
    (b.env e).tables.teams.Led := by
  cases e with simp only [Board.env]
  | createTeam id leader project =>
    split
    · exact h
    case h_2 hteam => exact h.createTeam hteam
  | addTeamMember teamId sessionId name =>
    split
    · exact h
    case h_2 hadd => exact h.addTeamMember hadd
  | endTeamMember sessionId => exact h.endTeamMember _ _
  | firstPrompt =>
    split <;> exact h
  | _ => exact h

theorem teams_step (cfg : A2aConfig) (b : Board) (c : Call) (d : Except String String) :
    (c.step cfg b d).1.tables.teams = b.tables.teams ∧
      (c.step cfg b d).1.tables.globalEnabled = b.tables.globalEnabled ∧
      (c.step cfg b d).1.tables.sessionEnabled = b.tables.sessionEnabled := by
  show (c.act cfg b d).1.tables.teams = _ ∧ (c.act cfg b d).1.tables.globalEnabled = _ ∧
    (c.act cfg b d).1.tables.sessionEnabled = _
  rcases Call.act_cases cfg b c d with ⟨out, k, after, hat, hcases⟩ |
    ⟨hfree, ⟨id, rfl, hact⟩ | ⟨why, rfl, hact⟩⟩
  · have hframe := LockedAt.frame_step cfg b out d k
    rcases hcases with ⟨_, -, hact⟩ | ⟨_, -, hact⟩ <;>
      exact hact ▸ ⟨hframe.teams, hframe.globalEnabled, hframe.sessionEnabled⟩
  · obtain ⟨hteams, hglobal, hsession, -⟩ := Call.frame_goes cfg b c id
    rw [hact]
    exact ⟨hteams, hglobal, hsession⟩
  · rw [hact]
    exact ⟨rfl, rfl, rfl⟩

variable {history : List StoreOp} {a2a : A2aStore} {globalEnabled : Option Bool}
  {sessionEnabled : String → Bool} {clock : ℕ} {w : Calls Board Call}

/-- **What every call has found stands**, in every run that keeps it standing. -/
theorem granted_of_standing (h : ((Calls.system (program cfg)
      (start history a2a globalEnabled sessionEnabled clock)).restrict (Standing cfg)).Reachable w) :
    ∀ i c, w.call i = some c → c.at_.Granted cfg w.shared.tables c.req := by
  refine (Calls.invariant_of_run
    (I := fun b ↦ (b.tables.teams.members.map MemberRow.sessionId).Nodup ∧ b.tables.teams.Led)
    (J := fun b c ↦ c.at_.Granted cfg b.tables c.req) ⟨List.nodup_nil, fun t ht ↦ by cases ht⟩
    (fun b req _ ↦ Call.granted_enter b.tables req) ?_ ?_ h).2
  · intro w e hstands hteams hcalls
    exact ⟨⟨once_env hteams.1 e, led_env hteams.2 e⟩,
      fun j c hc ↦ hstands j c hc (hcalls j c hc)⟩
  · intro w i d c _ hstands hc hteams hcalls
    obtain ⟨hsame, hglobal, hsession⟩ := teams_step cfg w.shared c d
    refine ⟨hsame.symm ▸ hteams, fun c' hc' ↦ ?_, fun j q _ hq ↦ ?_⟩
    · obtain rfl := Option.some.inj hc'
      exact Call.granted_step hteams.1 hteams.2 (hcalls i c hc) fun hfree ↦ hstands hfree c hc
    · exact (hcalls j q hq).congr hsame hglobal hsession

/-! ### `targets` and `send` -/

/-- On tables that stay as they are, `targets` comes to this from here. -/
inductive TargetsComes (cfg : A2aConfig) (t : Tables) (caller : String) :
    TargetsAt → Except A2aError (List Target) → Prop
  | stop {k : TargetsAt} {result : Except A2aError (List Target)} :
    k.step cfg t caller = .inr result → TargetsComes cfg t caller k result
  | go {k n : TargetsAt} {result : Except A2aError (List Target)} :
    k.step cfg t caller = .inl n → TargetsComes cfg t caller n result →
      TargetsComes cfg t caller k result

theorem comes_filtering (cfg : A2aConfig) (t : Tables) (caller : String) (rest : List SessionRecord)
    (out : List Target) :
    TargetsComes cfg t caller (.filtering t.teams.members rest out)
      (.ok (out ++ (rest.filter (t.lists caller)).map .of)) := by
  induction rest generalizing out with
  | nil => exact .stop (by simp [TargetsAt.step])
  | cons s rest ih =>
    by_cases hswitch : s.id = caller ∨ (!t.sessionEnabled s.id) = true
    · have hno : t.lists caller s = false := by
        rcases hswitch with hid | hoff
        · simp [Tables.lists, hid]
        · have hoff : t.sessionEnabled s.id = false := by simpa using hoff
          rw [Tables.lists, hoff, Bool.and_false, Bool.false_and]
      rw [List.filter_cons_of_neg (Bool.not_eq_true _ ▸ hno)]
      exact .go (by simp only [TargetsAt.step, if_pos hswitch]) (ih out)
    · obtain ⟨hid, hon⟩ := not_or.1 hswitch
      by_cases hdenial : (teamScopeDenial (activeMember t.teams.members caller)
          (activeMember t.teams.members s.id) s.id).isSome = true
      · have hno : t.lists caller s = false := by
          rw [Tables.lists, ← Option.not_isSome, hdenial, Bool.not_true, Bool.and_false]
        rw [List.filter_cons_of_neg (Bool.not_eq_true _ ▸ hno)]
        exact .go (by simp only [TargetsAt.step, if_neg hswitch, if_pos hdenial]) (ih out)
      · have hyes : t.lists caller s = true := by
          rw [Tables.lists, ← Option.not_isSome, Bool.eq_false_iff.2 hdenial, decide_eq_true hid]
          simpa using hon
        rw [List.filter_cons_of_pos hyes, List.map_cons, List.append_cons]
        exact .go (by simp only [TargetsAt.step, if_neg hswitch, if_neg hdenial]) (ih _)

/-- **What `targets` lists**, call by call. -/
theorem comes_targets (cfg : A2aConfig) (t : Tables) (caller : String) :
    TargetsComes cfg t caller (.checking .server) (t.targets cfg caller) := by
  cases hserver : t.enabled cfg with
  | false =>
    refine .stop ?_
    simp [TargetsAt.step, CheckAt.step, Tables.targets, hserver]
  | true =>
    cases hcaller : t.sessionEnabled caller with
    | false =>
      refine .go (n := .checking .session) (by simp [TargetsAt.step, CheckAt.step, hserver]) (.stop ?_)
      simp [TargetsAt.step, CheckAt.step, Tables.targets, hserver, hcaller]
    | true =>
      have hlist : t.targets cfg caller = .ok (((t.store.list none).filter (t.lists caller)).map .of) := by
        simp [CheckAt.step, Tables.targets, hserver, hcaller]
      rw [hlist]
      exact .go (n := .checking .session) (by simp [TargetsAt.step, CheckAt.step, hserver])
        (.go (n := .members) (by simp [TargetsAt.step, CheckAt.step, hcaller])
          (.go rfl (.go rfl (comes_filtering ..))))

/-- The call gets to `p` on a board that stays as it is. -/
def Comes (cfg : A2aConfig) (b : Board) (c : Call) (p : At) : Prop :=
  ∃ n : ℕ, ((fun c : Call ↦ (c.goes cfg b "").2)^[n] c).at_ = p

theorem comes_iff {b : Board} {c : Call} (h : c.at_ ≠ p) :
    Comes cfg b c p ↔ Comes cfg b (c.goes cfg b "").2 p := by
  constructor
  · rintro ⟨_ | n, hn⟩
    · exact absurd hn h
    · exact ⟨n, hn⟩
  · rintro ⟨n, hn⟩
    exact ⟨n + 1, hn⟩

/-- An answered call stays where it is. -/
theorem not_comes_of_answered {b : Board} {c : Call} {a : Answer} (hc : c.at_ = .answered a)
    (hp : p ≠ .answered a) : ¬ Comes cfg b c p := by
  rintro ⟨n, hn⟩
  have hfix : (c.goes cfg b "").2 = c := by simp only [Call.goes, hc]
  rw [Function.iterate_fixed hfix, hc] at hn
  exact hp hn.symm

/-- A session that has a row is among the sessions that `targets` looks at. -/
theorem exists_mem_list {s : Store} (h : s.Consistent) (id : String) :
    (∃ record ∈ s.list none, record.id = id) ↔ (s.session id).isSome = true := by
  have hmem : ∀ record, record ∈ s.list none ↔ ∃ key : String, s.sessions[key]? = some record :=
    fun record ↦ (s.mem_list_iff none record).trans (and_iff_left rfl)
  constructor
  · rintro ⟨record, hin, rfl⟩
    obtain ⟨key, hkey⟩ := (hmem record).1 hin
    rw [(h.rows key record hkey).id, Store.session, hkey, Option.isSome_some]
  · intro hsome
    obtain ⟨record, hrecord⟩ := Option.isSome_iff_exists.1 hsome
    exact ⟨record, (hmem record).2 ⟨id, hrecord⟩, (h.rows id record hrecord).id⟩

/-- What `targets` comes to is one result. -/
theorem TargetsComes.unique {t : Tables} {caller : String} {k : TargetsAt}
    {result result' : Except A2aError (List Target)} (h : TargetsComes cfg t caller k result)
    (h' : TargetsComes cfg t caller k result') : result = result' := by
  induction h with
  | stop h =>
    cases h' with
    | stop h' => exact Sum.inr.inj (h.symm.trans h')
    | go h' => exact nomatch h.symm.trans h'
  | go h _ ih =>
    cases h' with
    | stop h' => exact nomatch h.symm.trans h'
    | go h' hnext => exact ih (Sum.inl.inj (h.symm.trans h') ▸ hnext)

/-- The checks of `send`, in the words of the tables. -/
theorem comes_send_iff {b : Board} (honce : (b.tables.teams.members.map MemberRow.sessionId).Nodup)
    (from_ target : String) (htext : trim text ≠ "") :
    Comes cfg b (Request.enter (.send from_ target text none))
        (.locked ⟨from_, [target], none, text, none⟩ .waiting .sent) ↔
      from_ ≠ target ∧ b.tables.On cfg from_ ∧ (b.tables.store.session target).isSome = true ∧
        b.tables.sessionEnabled target = true ∧
        teamScopeDenial (activeMember b.tables.teams.members from_)
          (activeMember b.tables.teams.members target) target = none := by
  have hanswered : ∀ {c : Call} {a : Answer} {Q : Prop}, c.at_ = .answered a → ¬ Q →
      (Comes cfg b c (.locked ⟨from_, [target], none, text, none⟩ .waiting .sent) ↔ Q) :=
    fun hc hQ ↦ iff_of_false (not_comes_of_answered hc fun h ↦ by cases h) hQ
  simp only [Request.enter, if_neg htext]
  split
  case isTrue hself => exact hanswered rfl fun h ↦ h.1 hself
  case isFalse hself =>
  rw [comes_iff (by simp)]
  simp only [Call.goes, CheckAt.step]
  cases hserver : b.tables.enabled cfg with
  | false => exact hanswered rfl fun h ↦ Bool.false_ne_true (hserver.symm.trans h.2.1.1)
  | true =>
  rw [comes_iff (by simp [Call.goTo])]
  simp only [Call.goes, CheckAt.step, Request.caller, Call.goTo, if_true]
  cases hcaller : b.tables.sessionEnabled from_ with
  | false => exact hanswered rfl fun h ↦ Bool.false_ne_true (hcaller.symm.trans h.2.1.2)
  | true =>
  rw [comes_iff (by simp [Call.goTo, Call.checked])]
  simp only [Call.goes, Call.goTo, Call.checked, if_true]
  cases hrow : b.tables.store.session target with
  | none => exact hanswered rfl fun h ↦ Bool.false_ne_true h.2.2.1
  | some record =>
  rw [comes_iff (by simp)]
  simp only [Call.goes, Call.goTo]
  cases hswitch : b.tables.sessionEnabled target with
  | false => exact hanswered rfl fun h ↦ Bool.false_ne_true h.2.2.2.1
  | true =>
  rw [comes_iff (by simp), comes_iff (by simp [Call.goes, Call.goTo])]
  simp only [Call.goes, Call.goTo, if_true, Request.caller, TeamStore.filter_teamMember honce]
  cases hdenial : teamScopeDenial (activeMember b.tables.teams.members from_)
      (activeMember b.tables.teams.members target) target with
  | some why => exact hanswered rfl fun h ↦ Option.some_ne_none _ h.2.2.2.2
  | none => exact iff_of_true ⟨0, rfl⟩ ⟨hself, ⟨hserver, hcaller⟩, rfl, trivial, rfl⟩

/-- **`targets` lists the sessions that `send` lets through**, on tables that stay as they are. -/
theorem mem_targets_iff {b : Board} (honce : (b.tables.teams.members.map MemberRow.sessionId).Nodup)
    (hstore : b.tables.store.Consistent) (from_ target : String)
    (htext : trim text ≠ "") :
    (∃ l, TargetsComes cfg b.tables from_ (.checking .server) (.ok l) ∧ target ∈ l.map Target.id) ↔
      Comes cfg b (Request.enter (.send from_ target text none))
        (.locked ⟨from_, [target], none, text, none⟩ .waiting .sent) := by
  have hcomes := comes_targets cfg b.tables from_
  rw [comes_send_iff honce from_ target htext]
  constructor
  · rintro ⟨l, hl, hmem⟩
    have hl := hl.unique hcomes
    simp only [Tables.targets, CheckAt.step] at hl
    cases hserver : b.tables.enabled cfg with
    | false => simp [hserver] at hl
    | true =>
    cases hcaller : b.tables.sessionEnabled from_ with
    | false => simp [hserver, hcaller] at hl
    | true =>
    simp only [hserver, hcaller, if_true, Except.ok.injEq] at hl
    subst hl
    obtain ⟨t, ht, rfl⟩ := List.mem_map.1 hmem
    obtain ⟨record, hrecord, rfl⟩ := List.mem_map.1 ht
    obtain ⟨hin, hlists⟩ := List.mem_filter.1 hrecord
    simp only [Tables.lists, Bool.and_eq_true, decide_eq_true_eq, Option.isNone_iff_eq_none] at hlists
    exact ⟨Ne.symm hlists.1.1, ⟨hserver, hcaller⟩,
      (exists_mem_list hstore _).1 ⟨record, hin, rfl⟩, hlists.1.2, hlists.2⟩
  · rintro ⟨hself, ⟨hserver, hcaller⟩, hrow, hswitch, hdenial⟩
    obtain ⟨record, hin, rfl⟩ := (exists_mem_list hstore target).2 hrow
    have hlist : b.tables.targets cfg from_ =
        .ok (((b.tables.store.list none).filter (b.tables.lists from_)).map .of) := by
      simp [CheckAt.step, Tables.targets, hserver, hcaller]
    refine ⟨_, hlist ▸ hcomes, List.mem_map.2 ⟨.of record, List.mem_map.2 ⟨record, ?_, rfl⟩, rfl⟩⟩
    refine List.mem_filter.2 ⟨hin, ?_⟩
    rw [Tables.lists, hswitch, hdenial, decide_eq_true (Ne.symm hself)]
    rfl

theorem consistent_note {b : Board} (h : b.tables.store.Consistent) (sessionId message : String) :
    (b.note sessionId message).tables.store.Consistent :=
  h.step (.append sessionId b.clock (.notice message))

theorem consistent_env {b : Board} (h : b.tables.store.Consistent) (e : BoardAct) :
    (b.env e).tables.store.Consistent := by
  cases e with
  | store op => exact h.step op
  | createTeam | addTeamMember | firstPrompt =>
    simp only [Board.env]
    split <;> exact h
  | _ => exact h

theorem consistent_locked (cfg : A2aConfig) {b : Board} (h : b.tables.store.Consistent)
    (out : Outgoing) (d : Except String String) (k : LockedAt) :
    (k.step cfg b out d).1.tables.store.Consistent := by
  have hrefuse : ∀ target reason : String,
      (LockedAt.refuse b out target reason).1.tables.store.Consistent := fun target reason ↦ by
    simp only [LockedAt.refuse]
    split <;> exact h
  cases k with
  | waiting | mailing =>
    simp only [LockedAt.step]
    split <;> exact h
  | counting now =>
    simp only [LockedAt.step]
    split
    · exact h
    · exact h
    · split
      · exact hrefuse _ _
      · exact h
  | pairing now rest =>
    cases rest with
    | nil => exact h
    | cons target rest =>
      simp only [LockedAt.step]
      split
      · exact h
      · split
        · exact hrefuse _ _
        · exact h
  | refusing rest message =>
    cases rest with
    | nil => exact h
    | cons target rest =>
      simp only [LockedAt.step]
      split
      · exact h
      · exact consistent_note h _ _
  | storing mail body rest msgs =>
    cases rest with
    | nil => exact h
    | cons target rest =>
      simp only [LockedAt.step]
      split
      · exact h
      · split <;> exact h

theorem consistent_step (cfg : A2aConfig) {b : Board} (h : b.tables.store.Consistent) (c : Call)
    (d : Except String String) : (c.step cfg b d).1.tables.store.Consistent := by
  show (c.act cfg b d).1.tables.store.Consistent
  rcases Call.act_cases cfg b c d with ⟨out, k, after, hat, hcases⟩ |
    ⟨hfree, ⟨id, rfl, hact⟩ | ⟨why, rfl, hact⟩⟩
  · have hlocked := consistent_locked cfg h out d k
    rcases hcases with ⟨_, -, hact⟩ | ⟨_, -, hact⟩ <;> exact hact ▸ hlocked
  · rw [hact]
    rcases Call.goes_board cfg b c id with hb | ⟨_, _, _, _, _, -, -, -, hb⟩ |
      ⟨_, _, _, _, _, _, -, hb⟩ | ⟨_, _, _, _, _, -, -, hb⟩ | ⟨_, hb⟩ <;> rw [hb]
    · exact h
    · exact h
    · exact h
    · exact h
    · exact consistent_note h _ _
  · rw [hact]
    exact h

/-- The session store stays consistent. -/
theorem consistent_of_reachable (h : (Calls.system (program cfg)
      (start history a2a globalEnabled sessionEnabled clock)).Reachable w) :
    w.shared.tables.store.Consistent := by
  refine (Calls.invariant_of_run (G := fun _ _ ↦ True) (I := fun b ↦ b.tables.store.Consistent)
    (J := fun _ _ ↦ True) (Store.consistent_ofHistory history) (fun _ _ _ ↦ trivial)
    (fun w e _ hstore _ ↦ ⟨consistent_env hstore e, fun _ _ _ ↦ trivial⟩)
    (fun w i d c _ _ _ hstore _ ↦ ?_) (h.restrict fun _ _ ↦ trivial)).1
  exact ⟨consistent_step cfg hstore c d, fun _ _ ↦ trivial, fun _ _ _ _ ↦ trivial⟩

/-! ### The rule -/

/-- A step of a call stores only messages that are allowed when it does. -/
def Lets (cfg : A2aConfig) (w : Calls Board Call) : Prop :=
  ∀ i c d r, w.call i = some c → r ∈ (c.step cfg w.shared d).1.tables.a2a.messages →
    r ∉ w.shared.tables.a2a.messages →
      w.shared.tables.Allowed cfg r.message.fromSession r.message.toSession

/-- `targets` lists the sessions that a `send` gets past every check but the limits for. -/
def ListsSendable (cfg : A2aConfig) (b : Board) : Prop :=
  ∀ from_ target text : String, trim text ≠ "" →
    ((∃ l, TargetsComes cfg b.tables from_ (.checking .server) (.ok l) ∧
        target ∈ l.map Target.id) ↔
      Comes cfg b (Request.enter (.send from_ target text none))
        (.locked ⟨from_, [target], none, text, none⟩ .waiting .sent))

/-- **Who messages whom.** In every state of every run `targets` lists what `send` lets through; and
where the run kept standing what its calls had found, every message goes between sessions that may
message each other. -/
theorem lets_of_standing
    (h : (Calls.system (program cfg)
      (start history a2a globalEnabled sessionEnabled clock)).Reachable w) :
    (((Calls.system (program cfg)
      (start history a2a globalEnabled sessionEnabled clock)).restrict (Standing cfg)).Reachable w →
        Lets cfg w) ∧ ListsSendable cfg w.shared :=
  ⟨fun hstands i c _ _ hc hin hnew ↦
      Call.allowed_of_stored (granted_of_standing hstands i c hc) hin hnew,
    fun from_ target _ htext ↦
      mem_targets_iff (allKept_of_reachable h).1.once (consistent_of_reachable h) from_ target htext⟩

/-- A step of a call that is no notice's turn. -/
def Unnoticed (w : Calls Board Call) : CallAct Request (Except String String) BoardAct → Bool
  | .start .. => true
  | .step i _ => (w.call i).all (·.notices.isEmpty)
  | .env _ => false

theorem standing_of_unnoticed {w : Calls Board Call}
    {l : CallAct Request (Except String String) BoardAct} (h : Unnoticed w l = true) :
    Standing cfg w l := by
  cases l with
  | start i req => trivial
  | step i d =>
    intro _ c hc y hy
    rw [Unnoticed, hc] at h
    rw [List.isEmpty_iff.1 h] at hy
    cases hy
  | env e => cases h

/-- A message from one session to another, up to the store call that stores it. -/
def sendActs : List (CallAct Request (Except String String) BoardAct) :=
  .start 0 (.send "ann-s" "bob-s" "hi" none) :: List.replicate 10 (.step 0 (.ok "m"))

/-- A message to a session that `targets` lists is stored. -/
theorem lets_of_send :
    let cfg : A2aConfig := ⟨true, 600000, 20, 10⟩
    let history : List StoreOp := [.createSession "ann-s" 0 "p" .claudeCode "/" none "" none,
      .createSession "bob-s" 0 "p" .claudeCode "/" none "" none]
    let w := sendActs.foldl (Calls.act (program cfg))
      (Calls.idle (start history ⟨[]⟩ none (fun _ ↦ true) 0))
    w.shared.tables.a2a.messages = [] ∧
      ((w.call 0).map fun c ↦ (c.step cfg w.shared (.ok "m")).1.tables.a2a.messages.map
        fun r ↦ (r.message.fromSession, r.message.toSession)) = some [("ann-s", "bob-s")] ∧
      Lets cfg w ∧ ListsSendable cfg w.shared := by
  intro cfg history w
  have hreached : (Calls.system (program cfg)
      (start history ⟨[]⟩ none (fun _ ↦ true) 0)).Reachable w := StepSystem.reachable_foldl sendActs
  obtain ⟨hlets, hlists⟩ := lets_of_standing hreached
  have hrun : ((Calls.system (program cfg)
      (start history ⟨[]⟩ none (fun _ ↦ true) 0)).restrict (Standing cfg)).Reachable w := by
    have hstart : ((Calls.system (program cfg)
        (start history ⟨[]⟩ none (fun _ ↦ true) 0)).restrict (Standing cfg)).Reachable
          (Calls.idle _) := .start rfl
    refine StepSystem.Reachable.foldl_of_allMeet (fun _ _ ↦ rfl) hstart ?_
    refine StepSystem.AllMeet.mono (fun _ _ ↦ standing_of_unnoticed)
      (?_ : StepSystem.AllMeet _ (fun w l ↦ Unnoticed w l = true) _ _)
    decide +kernel
  exact ⟨by decide +kernel, by decide +kernel, hlets hrun, hlists⟩

/-- The leader gives a task to a teammate whose messaging is off. -/
def noticeActs : List (CallAct Request (Except String String) BoardAct) :=
  [.env (.createTeam "t" "lead-s" "p"), .env (.addTeamMember "t" "bob-s" "bob"),
    .env (.setSessionEnabled "bob-s" false),
    .start 0 (.addTask "lead-s" ⟨"review", none, some "bob"⟩)] ++
  List.replicate 9 (.step 0 (.ok "n"))

/-- **A notice of the task list is stored for a session whose messaging is off.** -/
theorem not_lets : ¬ ∀ (cfg : A2aConfig) (history : List StoreOp) (a2a : A2aStore)
    (globalEnabled : Option Bool) (sessionEnabled : String → Bool) (clock : ℕ)
    (w : Calls Board Call), (Calls.system (program cfg)
      (start history a2a globalEnabled sessionEnabled clock)).Reachable w →
      Lets cfg w ∧ ListsSendable cfg w.shared := by
  intro hall
  let cfg : A2aConfig := ⟨true, 600000, 20, 10⟩
  let w := noticeActs.foldl (Calls.act (program cfg))
    (Calls.idle (start [] ⟨[]⟩ none (fun _ ↦ true) 0))
  have hlets := (hall cfg [] ⟨[]⟩ none (fun _ ↦ true) 0 w (StepSystem.reachable_foldl _)).1
  obtain ⟨c, hc⟩ := Option.isSome_iff_exists.1
    (show (w.call 0).isSome = true by decide +kernel)
  have hstored : (w.call 0).map (fun c ↦ (c.step cfg w.shared (.ok "n")).1.tables.a2a.messages.map
      fun r ↦ r.message.toSession) = some ["bob-s"] := by decide +kernel
  have hbefore : w.shared.tables.a2a.messages = [] := by decide +kernel
  have hoff : w.shared.tables.sessionEnabled "bob-s" = false := by decide +kernel
  rw [hc] at hstored
  obtain ⟨r, hr, hto⟩ := List.map_eq_singleton_iff.1 (Option.some.inj hstored)
  have hallowed := hlets 0 c (.ok "n") r hc (hr ▸ List.mem_singleton_self r)
    (hbefore ▸ List.not_mem_nil)
  rw [hto] at hallowed
  exact nomatch hoff.symm.trans hallowed.2.1

end Sending

end Ember.Server
