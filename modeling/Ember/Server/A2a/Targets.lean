import Ember.Server.A2a.Hub
import Ember.Server.A2a.Team

/-!
# Whom a session may message

The switches, the team rule (`team_scope_denial`), and `targets`, which lists every session that
both allow. `targets` makes a call of the store for each session it looks at, so a `TargetsAt` is
the state it has reached; `targets` itself is what it comes to on tables that stay as they are.

The mentions of a user message are parsed and resolved here, since they are resolved among the
targets.
-/

namespace Ember.Server

/-- `A2aError`, with its texts. -/
inductive A2aError
  | disabled (message : String)
  | rateLimited (message : String)
  | notFound (message : String)
  | badRequest (message : String)
  /-- Not allowed for this caller: team roles and scope. -/
  | forbidden (message : String)
  /-- A store call failed. -/
  | other (message : String)
  deriving DecidableEq, Repr

namespace A2aError

/-- What the error says. -/
def message : A2aError → String
  | disabled m | rateLimited m | notFound m | badRequest m | forbidden m | other m => m

/-- Whether the call was refused; it failed otherwise. -/
def isRefusal : A2aError → Bool
  | other _ => false
  | _ => true

end A2aError

/-- `A2aConfig` and its `Limits`. -/
structure A2aConfig where
  enabledByDefault : Bool
  /-- `limits.window`. -/
  window : Duration
  /-- `limits.per_session`: messages one session may send within the window. -/
  perSession : ℕ
  /-- `limits.per_pair`: messages between one pair of sessions, either direction. -/
  perPair : ℕ

/-- `A2a::enabled`. -/
def Tables.enabled (cfg : A2aConfig) (t : Tables) : Bool :=
  t.globalEnabled.getD cfg.enabledByDefault

/-! ### `A2a::check_caller` -/

/-- The two store calls of `check_caller`: the server-wide switch and the session's. -/
inductive CheckAt
  | server
  | session
  deriving DecidableEq

/-- One store call of `check_caller`: the next one, or what it returns. -/
def CheckAt.step (cfg : A2aConfig) (t : Tables) (caller : String) :
    CheckAt → CheckAt ⊕ Except A2aError Unit
  | .server =>
    if t.enabled cfg then .inl .session
    else .inr (.error (.disabled "agent-to-agent messaging is turned off on this server"))
  | .session =>
    if t.sessionEnabled caller then .inr (.ok ())
    else .inr (.error (.disabled
      ("agent-to-agent messaging is turned off for this session (" ++ caller ++ ")")))

/-! ### The team rule -/

/-- `A2a::team_scope_denial`: an active teammate is reachable only from its own team, and reaches
only its own team. -/
def teamScopeDenial (caller target : Option MemberRow) (targetId : String) : Option String :=
  ((caller.filter MemberRow.isActiveTeammate).bind fun c ↦
    if target.map MemberRow.teamId ≠ some c.teamId then
      some ("you are teammate " ++ c.name ++ " in team " ++ c.teamId ++
        "; you can message only your team (`" ++ CLI_NAME ++ " team list`)")
    else none) <|>
  ((target.filter MemberRow.isActiveTeammate).bind fun t ↦
    if caller.map MemberRow.teamId ≠ some t.teamId then
      some ("session " ++ targetId ++ " is a teammate in team " ++ t.teamId ++
        "; only its team can message it")
    else none)

/-- `Store::active_team_members`: the active member of this session among the rows it read. -/
def activeMember (members : List MemberRow) (sessionId : String) : Option MemberRow :=
  (members.filter MemberRow.active).find? (·.sessionId == sessionId)

/-- `Target`. -/
structure Target where
  id : String
  title : String
  project : String
  agent : String
  status : SessionStatus
  deriving DecidableEq, Repr

/-- The target a session's record makes. -/
def Target.of (s : SessionRecord) : Target := ⟨s.id, s.title, s.project, s.agent.asStr, s.status⟩

/-! ### `A2a::targets` -/

/-- How far `targets` is. -/
inductive TargetsAt
  | checking (k : CheckAt)
  | members
  /-- The members were read; the sessions are read next. -/
  | sessions (rows : List MemberRow)
  /-- The sessions still to look at, and the targets found. -/
  | filtering (rows : List MemberRow) (rest : List SessionRecord) (out : List Target)

/-- One store call of `targets`: the next state, or what it returns. -/
def TargetsAt.step (cfg : A2aConfig) (t : Tables) (caller : String) :
    TargetsAt → TargetsAt ⊕ Except A2aError (List Target)
  | .checking k =>
    match k.step cfg t caller with
    | .inl k => .inl (.checking k)
    | .inr (.error e) => .inr (.error e)
    | .inr (.ok ()) => .inl .members
  | .members => .inl (.sessions t.teams.members)
  | .sessions rows => .inl (.filtering rows (t.store.list none) [])
  | .filtering _ [] out => .inr (.ok out)
  | .filtering rows (s :: rest) out =>
    if s.id = caller ∨ !t.sessionEnabled s.id then .inl (.filtering rows rest out)
    else if (teamScopeDenial (activeMember rows caller) (activeMember rows s.id) s.id).isSome
    then .inl (.filtering rows rest out)
    else .inl (.filtering rows rest (out ++ [.of s]))

/-- Whether `targets` lists a session, given that it may be called. -/
def Tables.lists (t : Tables) (caller : String) (s : SessionRecord) : Bool :=
  decide (s.id ≠ caller) && t.sessionEnabled s.id &&
    (teamScopeDenial (activeMember t.teams.members caller) (activeMember t.teams.members s.id)
      s.id).isNone

/-- `A2a::targets` on tables that stay as they are. -/
def Tables.targets (cfg : A2aConfig) (t : Tables) (caller : String) :
    Except A2aError (List Target) :=
  match CheckAt.step cfg t caller .server with
  | .inr (.error e) => .error e
  | _ =>
    match CheckAt.step cfg t caller .session with
    | .inr (.error e) => .error e
    | _ => .ok (((t.store.list none).filter (t.lists caller)).map .of)

/-! ### Mentions -/

/-- `trim_end_matches` of the punctuation that is not part of an unquoted token. -/
def trimPunctuation (s : List Char) : List Char :=
  (s.reverse.dropWhile fun c ↦
    c ∈ ['.', ',', ';', ':', '!', '?', ')', ']', '}', '\'', '"']).reverse

/-- Whether `@@` after this character starts a mention. -/
def startsMention : Option Char → Bool
  | none => true
  | some c => isWhitespace c || c == '(' || c == '[' || c == '\x7b'

/-- The token after `@@`, and the text after the token. -/
def mentionToken : List Char → List Char × List Char
  | '"' :: rest =>
    let ends := fun c ↦ c != '"' && c != '\n'
    let after := rest.dropWhile ends
    ((trim (.ofList (rest.takeWhile ends))).toList, if after.head? = some '"' then after.tail else after)
  | rest => (trimPunctuation (rest.takeWhile (!isWhitespace ·)), rest.dropWhile (!isWhitespace ·))

theorem length_mentionToken (rest : List Char) : (mentionToken rest).2.length ≤ rest.length := by
  have hdrop : ∀ (p : Char → Bool) (l : List Char), (l.dropWhile p).length ≤ l.length :=
    fun p l ↦ (List.dropWhile_suffix p).length_le
  rw [mentionToken.eq_def]
  split
  case h_1 rest =>
    have h := hdrop (fun c ↦ c != '"' && c != '\n') rest
    dsimp only
    split
    · rw [List.length_tail, List.length_cons]
      omega
    · rw [List.length_cons]
      omega
  case h_2 => exact hdrop _ _

/-- `parse_mentions`, from a place in the text on: the character before it, and the tokens found. -/
def mentionsFrom (before : Option Char) (rest : List Char) (out : List String) : List String :=
  match rest with
  | '@' :: '@' :: tail =>
    if startsMention before then
      let after := (mentionToken tail).2
      let token : String := .ofList (mentionToken tail).1
      mentionsFrom (some (if tail.head? = some '"' then '"' else '@')) after
        (if token = "" ∨ token ∈ out then out else out ++ [token])
    else mentionsFrom (some '@') ('@' :: tail) out
  | c :: tail => mentionsFrom (some c) tail out
  | [] => out
termination_by rest.length
decreasing_by
  · have := length_mentionToken tail
    simp only [List.length_cons]
    omega
  all_goals simp

/-- `parse_mentions`: the tokens after `@@`, in order, without duplicates. -/
def parseMentions (text : String) : List String := mentionsFrom none text.toList []

/-- `resolve`: exact id, then a unique id prefix, then a unique title. -/
def resolveMention (token : String) (candidates : List Target) : Except String Target :=
  match candidates.find? (·.id == token) with
  | some t => .ok t
  | none =>
    match if 4 ≤ token.length then candidates.filter (·.id.startsWith token) else [] with
    | [t] => .ok t
    | _ =>
      match candidates.filter fun c ↦ eqIgnoreAsciiCase (trim c.title) token with
      | [t] => .ok t
      | [] => .error ("no session you can message matches @@" ++ token)
      | many => .error ("@@" ++ token ++ " matches " ++ toString many.length ++ " sessions (" ++
          ", ".intercalate (many.map Target.id) ++ "); mention one by id")

/-- What a mention resolves to is one of the candidates. -/
theorem mem_of_resolveMention {token : String} {candidates : List Target} {t : Target}
    (h : resolveMention token candidates = .ok t) : t ∈ candidates := by
  rw [resolveMention] at h
  split at h
  case h_1 hfind =>
    obtain rfl := Except.ok.inj h
    exact List.mem_of_find?_eq_some hfind
  case h_2 =>
    split at h
    case h_1 hids =>
      obtain rfl := Except.ok.inj h
      split at hids
      · exact List.mem_of_mem_filter (hids ▸ List.mem_singleton_self _)
      · cases hids
    case h_2 =>
      split at h
      case h_1 htitle =>
        obtain rfl := Except.ok.inj h
        exact List.mem_of_mem_filter (htitle ▸ List.mem_singleton_self _)
      case h_2 => cases h
      case h_3 => cases h

end Ember.Server
