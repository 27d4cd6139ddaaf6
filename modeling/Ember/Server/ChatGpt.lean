import Ember.Foundation.Calls
import Mathlib.Algebra.Ring.Int.Defs

/-!
# The tokens of a ChatGPT account

`chatgpt/mod.rs` and `chatgpt/store.rs`: the row of one account, and the calls that use it. A
refresh reads the tokens, asks the token endpoint, and writes what that answers; refreshes keep out
of each other's way by a lock, but a sign-in, a sign-out and the error of a request write the same
row without it. What a call does between two awaits is one step.

The token endpoint gives every refresh token once, so a refresh token is a number here. Tokens carry
the number of the sign-in that they come from, by refreshes or directly; only statements speak of
it.

## What is proved

* `Kept.refreshed`, `Kept.clear` — what the answer of a refresh does to the account.
* `sound_of_undisturbed` — where no sign-in completes between the moment a refresh or a request
  reads its tokens and the moment its answer writes, and no refreshed tokens fail to be saved, a
  sign-in's tokens stay, and no refresh token is used twice.
* `not_sound_chatgpt` — a refresh that overtakes a sign-in, and one whose tokens are not saved.
-/

namespace Ember.Server.ChatGpt

open StepSystem

/-! ### The account -/

/-- `status`. -/
inductive Status
  | signedIn
  | signedOut
  | notEligible
  deriving DecidableEq

/-- `Lifetimes`. -/
structure Lifetimes where
  accessExpiresAt : Option ℤ
  earliestRefreshAt : Option ℤ
  deriving DecidableEq

/-- `REFRESH_MARGIN_MS`. -/
def refreshMargin : ℤ := 5 * 60 * 1000

/-- `needs_refresh`. -/
def needsRefresh (l : Lifetimes) (now : ℤ) : Bool :=
  match l.accessExpiresAt with
  | none => true
  | some exp =>
    if exp - now > refreshMargin then false
    else
      match l.earliestRefreshAt with
      | some earliest => !(now < earliest ∧ exp - now > 30000)
      | none => true

/-- `Tokens`. -/
structure Tokens where
  refresh : Option ℕ
  /-- The sign-in they come from. -/
  signIn : ℕ
  deriving DecidableEq

/-- The row of the account. -/
structure Row where
  status : Status
  tokens : Option Tokens
  lifetimes : Lifetimes
  deriving DecidableEq

/-- The account, the refresh lock, and what is said of them. -/
structure Account where
  row : Option Row
  /-- `refresh_lock`. -/
  locked : Bool
  /-- How many refresh tokens the endpoint has given. -/
  issued : ℕ
  /-- How many sign-ins have completed. -/
  signIns : ℕ
  /-- The refresh tokens for which a refresh was answered with a new one. -/
  spent : List ℕ
  /-- A refresh or a request has overwritten or cleared the tokens of a later sign-in. -/
  taken : Bool
  /-- A spent refresh token was sent to the token endpoint. -/
  reused : Bool
  deriving DecidableEq

/-- What the token endpoint answers. -/
inductive Answer
  /-- Nothing, or nothing that ends the account's tokens. -/
  | fails
  /-- The refresh token is no longer good. -/
  | rejected
  /-- Tokens, with a refresh token or without. -/
  | granted (refresh : Bool) (lifetimes : Lifetimes)
  deriving DecidableEq

/-- How a request ends, as far as `classify` records it. -/
inductive Outcome
  | fine
  | notEligible
  | invalidUser
  deriving DecidableEq

/-- What a step finds out. -/
structure Found where
  now : ℤ
  /-- The statements succeed. -/
  ok : Bool
  answer : Answer
  outcome : Outcome
  /-- No check stands in the way that depends on something else. -/
  allowed : Bool
  deriving DecidableEq

/-- What calls there are. -/
inductive Call
  | accessToken
  | refresh (force : Bool)
  /-- `finish`, of a sign-in of this account again or for the first time. -/
  | finish (reauth : Bool)
  | signOut
  /-- `models` or `responses`, with the error that ends them or the stream. -/
  | request
  deriving DecidableEq

/-- What a call does with an access token. -/
inductive After
  | returns
  | request
  deriving DecidableEq

/-- What is left of a call. -/
inductive Todo
  | call (c : Call)
  /-- `refresh` waits for the lock; within `access_token` something follows. -/
  | locking (force : Bool) (after : Option After)
  /-- `refresh` has sent this refresh token of these tokens. -/
  | refreshing (used : Tokens) (refresh : ℕ) (after : Option After)
  | exchanging (reauth : Bool)
  | revoking
  /-- A request is out with the access token of these tokens. -/
  | requesting (used : Tokens)
  deriving DecidableEq

/-- What follows an access token. -/
def After.todo : After → Tokens → Option Todo
  | .returns, _ => none
  | .request, used => some (.requesting used)

namespace Account

def new : Account := ⟨none, false, 0, 0, [], false, false⟩

/-- The stored tokens. -/
def tokens (s : Account) : Option Tokens := s.row.bind Row.tokens

/-- The tokens are those of a sign-in after these. -/
def newer (s : Account) (used : Tokens) : Bool := s.tokens.any fun t ↦ used.signIn < t.signIn

/-- `clear_tokens`, on what was heard with these tokens. -/
def clearTokens (s : Account) (used : Tokens) : Account :=
  { s with
    row := s.row.map fun row ↦ ⟨.signedOut, none, { row.lifetimes with accessExpiresAt := none }⟩,
    taken := s.taken || s.newer used }

/-- `save_refresh`, of tokens that came for these. -/
def saveRefresh (s : Account) (used new : Tokens) (lifetimes : Lifetimes) : Account :=
  { s with
    row := s.row.map fun row ↦ { row with tokens := some new, lifetimes := lifetimes },
    taken := s.taken || s.newer used }

/-- `save_sign_in`. -/
def saveSignIn (s : Account) (refresh : Option ℕ) (lifetimes : Lifetimes) : Account :=
  { s with
    row := some ⟨.signedIn, some ⟨refresh, s.signIns + 1⟩, lifetimes⟩, signIns := s.signIns + 1 }

/-- The endpoint gives a refresh token. -/
def issue (s : Account) (refresh : Bool) : Account :=
  if refresh then { s with issued := s.issued + 1 } else s

/-- The refresh token it gives. -/
def issues (s : Account) (refresh : Bool) : Option ℕ := if refresh then some s.issued else none

/-- A refresh was answered, with another refresh token or without. -/
def spend (s : Account) (refresh : ℕ) (given : Bool) : Account :=
  { s.issue given with spent := if given then refresh :: s.spent else s.spent }

/-- The tokens that come for these: without a new refresh token the old one stays. -/
def renew (s : Account) (used : Tokens) (refresh : ℕ) (given : Bool) : Tokens :=
  ⟨some ((s.issues given).getD refresh), used.signIn⟩

/-- The access token is read, and what follows is left to do. -/
def token (s : Account) (after : Option After) : Account × Option Todo :=
  (s, after.bind fun a ↦ s.tokens.bind a.todo)

/-- `access_token`, up to its first await. -/
def access (s : Account) (after : After) (d : Found) : Account × Option Todo :=
  match s.row with
  | none => (s, none)
  | some row =>
    if row.status ≠ .signedIn ∨ !d.ok ∨ row.tokens = none then (s, none)
    else if needsRefresh row.lifetimes d.now then (s, some (.locking false (some after)))
    else s.token (some after)

/-- One step of a call, up to its next await. -/
def step (s : Account) (todo : Todo) (d : Found) : Account × Option Todo :=
  match todo with
  | .call .accessToken => s.access .returns d
  | .call (.refresh force) =>
    if s.row.isSome ∧ d.ok then (s, some (.locking force none)) else (s, none)
  | .call (.finish reauth) => if d.allowed then (s, some (.exchanging reauth)) else (s, none)
  | .call .signOut =>
    match s.row with
    | none => (s, none)
    | some row =>
      if d.ok ∧ row.tokens.any (·.refresh.isSome) then (s, some .revoking)
      else ({ s with row := none }, none)
  | .call .request => if d.allowed then s.access .request d else (s, none)
  | .locking force after =>
    if s.locked then (s, some (.locking force after))
    else
      match s.row with
      | none => (s, none)
      | some row =>
        match row.tokens with
        | none => (s, none)
        | some used =>
          if !d.ok then (s, none)
          else if !force ∧ !needsRefresh row.lifetimes d.now then s.token after
          else
            match used.refresh with
            | none => (s.clearTokens used, none)
            | some refresh =>
              ({ s with locked := true, reused := s.reused || refresh ∈ s.spent },
                some (.refreshing used refresh after))
  | .refreshing used refresh after =>
    let s := { s with locked := false }
    match d.answer with
    | .fails => (s, none)
    | .rejected => (if d.ok then s.clearTokens used else s, none)
    | .granted given lifetimes =>
      if d.ok then
        let s' := (s.spend refresh given).saveRefresh used (s.renew used refresh given) lifetimes
        s'.token after
      else (s.spend refresh given, none)
  | .exchanging reauth =>
    match d.answer with
    | .granted given lifetimes =>
      if !d.ok ∨ !d.allowed ∨ (reauth ∧ s.row = none) then (s.issue given, none)
      else ((s.issue given).saveSignIn (s.issues given) lifetimes, none)
    | _ => (s, none)
  | .revoking => if d.ok then ({ s with row := none }, none) else (s, none)
  | .requesting used =>
    match d.outcome with
    | .fine => (s, none)
    | .notEligible =>
      if d.ok then ({ s with row := s.row.map fun row ↦ { row with status := .notEligible } }, none)
      else (s, none)
    | .invalidUser => (if d.ok then s.clearTokens used else s, none)

/-- Nothing happens besides the calls. -/
def program : Program Account Call Todo Found Empty where
  enter := .call
  step := step
  env s _ := s

/-- **What the account is for.** -/
structure Sound (s : Account) : Prop where
  /-- The tokens of a sign-in are not overwritten or cleared with the help of older ones. -/
  kept : s.taken = false
  /-- No refresh token is sent once it was answered with a new one. -/
  once : s.reused = false
  signedIn : ∀ row, s.row = some row → row.status = .signedIn → row.tokens ≠ none

end Account

open Account

/-- **Where nobody signs in in between.** The answer that a refresh or a request writes belongs to
tokens of the last sign-in that has completed; and tokens that were refreshed are saved. -/
def Undisturbed (w : Calls Account Todo) : CallAct Call Found Empty → Prop
  | .step i d =>
    match w.call i with
    | some (.refreshing used _ _) =>
      match d.answer with
      | .fails => True
      | .rejected => d.ok = true → used.signIn = w.shared.signIns
      | .granted given _ =>
        (d.ok = true → used.signIn = w.shared.signIns) ∧ (given = true → d.ok = true)
    | some (.requesting used) =>
      d.outcome = .invalidUser → d.ok = true → used.signIn = w.shared.signIns
    | _ => True
  | _ => True

/-! ### The lock -/

/-- The call has the lock. -/
def Todo.holds : Todo → Bool
  | .refreshing .. => true
  | _ => false

variable {used : Tokens} {q : Todo}

theorem not_holds_todo {a : After} (h : a.todo used = some q) :
    q.holds = false := by
  cases a with
  | returns => cases h
  | request =>
    obtain rfl := Option.some.inj h
    rfl

variable {after : Option After}

theorem not_holds_token {s : Account} (h : (s.token after).2 = some q) : q.holds = false := by
  obtain ⟨a, -, ha⟩ := Option.bind_eq_some_iff.1 h
  obtain ⟨used, -, hused⟩ := Option.bind_eq_some_iff.1 ha
  exact not_holds_todo hused

theorem access_fst (s : Account) (after : After) (d : Found) : (s.access after d).1 = s := by
  rw [Account.access]
  split
  · rfl
  · split_ifs <;> rfl

theorem not_holds_access {s : Account} {after : After} {d : Found}
    (h : (s.access after d).2 = some q) : q.holds = false := by
  rw [Account.access] at h
  split at h
  · cases h
  · split_ifs at h
    · obtain rfl := Option.some.inj h
      rfl
    · exact not_holds_token h

variable {s : Account} {d : Found}

/-- A call that does not have the lock leaves it alone, and what was spent, or takes it where it is
free; and the endpoint takes nothing back. -/
theorem step_of_not_holds {todo : Todo} (hno : todo.holds = false) :
    (s.step todo d).1.spent = s.spent ∧ s.issued ≤ (s.step todo d).1.issued ∧
      ((s.step todo d).1.locked = s.locked ∧ (∀ q ∈ (s.step todo d).2, q.holds = false) ∨
        s.locked = false ∧ (s.step todo d).1.locked = true) := by
  have hsame : ∀ {q : Option Todo}, (∀ p ∈ q, p.holds = false) →
      s.spent = s.spent ∧ s.issued ≤ s.issued ∧
        (s.locked = s.locked ∧ (∀ p ∈ q, p.holds = false) ∨
          s.locked = false ∧ s.locked = true) := fun hq ↦ ⟨rfl, le_rfl, .inl ⟨rfl, hq⟩⟩
  have hissue : ∀ given, (s.issue given).spent = s.spent ∧ s.issued ≤ (s.issue given).issued ∧
      (s.issue given).locked = s.locked := fun given ↦ by
    cases given with
    | false => exact ⟨rfl, le_rfl, rfl⟩
    | true => exact ⟨rfl, Nat.le_succ _, rfl⟩
  cases todo with
  | call c =>
    cases c with
    | accessToken =>
      rw [Account.step, access_fst]
      exact hsame fun q hq ↦ not_holds_access hq
    | refresh | finish =>
      simp only [Account.step]
      split_ifs
      · exact hsame fun q hq ↦ Option.some.inj hq ▸ rfl
      · exact hsame fun q hq ↦ (by cases hq)
    | signOut =>
      simp only [Account.step]
      split
      · exact hsame fun q hq ↦ (by cases hq)
      · split_ifs
        · exact hsame fun q hq ↦ Option.some.inj hq ▸ rfl
        · exact hsame fun q hq ↦ (by cases hq)
    | request =>
      simp only [Account.step]
      split_ifs
      · rw [access_fst]
        exact hsame fun q hq ↦ not_holds_access hq
      · exact hsame fun q hq ↦ (by cases hq)
  | locking force after =>
    simp only [Account.step]
    split
    · exact hsame fun q hq ↦ Option.some.inj hq ▸ rfl
    case isFalse hlocked =>
      split
      · exact hsame fun q hq ↦ (by cases hq)
      · split
        · exact hsame fun q hq ↦ (by cases hq)
        · split
          · exact hsame fun q hq ↦ (by cases hq)
          · split
            · exact hsame fun q hq ↦ not_holds_token hq
            · split
              · exact hsame fun q hq ↦ (by cases hq)
              · exact ⟨rfl, le_rfl, .inr ⟨by simpa using hlocked, rfl⟩⟩
  | refreshing used refresh after => cases hno
  | exchanging reauth =>
    simp only [Account.step]
    split
    case h_1 given lifetimes _ =>
      obtain ⟨hspent, hissued, hlocked⟩ := hissue given
      split_ifs
      · exact ⟨hspent, hissued, .inl ⟨hlocked, fun q hq ↦ (by cases hq)⟩⟩
      · exact ⟨hspent, hissued, .inl ⟨hlocked, fun q hq ↦ (by cases hq)⟩⟩
    case h_2 => exact hsame fun q hq ↦ (by cases hq)
  | revoking =>
    simp only [Account.step]
    split_ifs <;> exact hsame fun q hq ↦ (by cases hq)
  | requesting used =>
    simp only [Account.step]
    split
    · exact hsame fun q hq ↦ (by cases hq)
    · split_ifs <;> exact hsame fun q hq ↦ (by cases hq)
    · split_ifs <;> exact hsame fun q hq ↦ (by cases hq)

variable {refresh : ℕ}

/-- A call that has the lock gives it back. -/
theorem not_holds_of_refreshing :
    ∀ q ∈ (s.step (.refreshing used refresh after) d).2, q.holds = false := by
  intro q hq
  simp only [Account.step] at hq
  split at hq
  · cases hq
  · cases hq
  · split_ifs at hq
    · exact not_holds_token hq
    · cases hq

theorem locks : Calls.Guards program (fun s ↦ s.locked = true)
    (fun todo : Todo ↦ todo.holds = true) where
  enter c := by cases c <;> exact Bool.false_ne_true
  env s e := e.elim
  take s todo d hno q hq hholds hlocked := by
    obtain ⟨-, -, ⟨-, hnone⟩ | ⟨hfree, -⟩⟩ :=
      step_of_not_holds (s := s) (d := d) (Bool.eq_false_iff.2 hno)
    · rw [hnone q hq] at hholds
      cases hholds
    · rw [hfree] at hlocked
      cases hlocked
  taken s todo d _ q hq hholds := by
    cases hto : todo.holds with
    | true =>
      cases todo with
      | refreshing used refresh after =>
        rw [not_holds_of_refreshing q hq] at hholds
        cases hholds
      | _ => cases hto
    | false =>
      obtain ⟨-, -, ⟨-, hnone⟩ | ⟨-, htaken⟩⟩ := step_of_not_holds (s := s) (d := d) hto
      · rw [hnone q hq] at hholds
        cases hholds
      · exact htaken
  keep s todo d hno hlocked := by
    obtain ⟨-, -, ⟨hsame, -⟩ | ⟨-, htaken⟩⟩ :=
      step_of_not_holds (s := s) (d := d) (Bool.eq_false_iff.2 hno)
    · exact hsame.trans hlocked
    · exact htaken

/-! ### What every step keeps -/

/-- What holds in every run. -/
structure Kept (s : Account) : Prop where
  /-- The stored tokens are of the last sign-in. -/
  latest : ∀ t ∈ s.tokens, t.signIn = s.signIns
  /-- The stored refresh token was given, and is not spent. -/
  fresh : ∀ t ∈ s.tokens, ∀ n ∈ t.refresh, n < s.issued ∧ n ∉ s.spent
  spent : ∀ n ∈ s.spent, n < s.issued
  taken : s.taken = false
  reused : s.reused = false
  signedIn : ∀ row, s.row = some row → row.status = .signedIn → row.tokens ≠ none

section

variable (h : Kept s)
include h

theorem Kept.sound : s.Sound := ⟨h.taken, h.reused, h.signedIn⟩

/-- Tokens of the last sign-in are not older than the stored ones. -/
theorem Kept.newer_eq_false (hused : used.signIn = s.signIns) :
    s.newer used = false := by
  cases htokens : s.tokens with
  | none => rw [newer, htokens]; rfl
  | some t =>
    have hlatest := h.latest t htokens
    simp [newer, htokens, hused, hlatest]

theorem Kept.clear (hused : used.signIn = s.signIns) :
    Kept (s.clearTokens used) := by
  have hnone : (s.clearTokens used).tokens = none := by
    cases hrow : s.row with
    | none | some => simp [Account.tokens, clearTokens, hrow]
  refine ⟨fun t ht ↦ ?_, fun t ht ↦ ?_, h.spent, ?_, h.reused, fun row hrow hstatus ↦ ?_⟩
  · rw [hnone] at ht
    cases ht
  · rw [hnone] at ht
    cases ht
  · simp [clearTokens, h.taken, h.newer_eq_false hused]
  · obtain ⟨old, -, rfl⟩ := Option.map_eq_some_iff.1 hrow
    cases hstatus

theorem Kept.save {new : Tokens} (hused : used.signIn = s.signIns)
    (hnew : new.signIn = used.signIn) (hfresh : ∀ n ∈ new.refresh, n < s.issued ∧ n ∉ s.spent)
    (lifetimes : Lifetimes) : Kept (s.saveRefresh used new lifetimes) := by
  have htokens : ∀ t ∈ (s.saveRefresh used new lifetimes).tokens, t = new := fun t ht ↦ by
    obtain ⟨row, hrow, hrowt⟩ := Option.bind_eq_some_iff.1 ht
    obtain ⟨old, -, rfl⟩ := Option.map_eq_some_iff.1 hrow
    exact (Option.some.inj hrowt).symm
  refine ⟨fun t ht ↦ ?_, fun t ht ↦ ?_, h.spent, ?_, h.reused, fun row hrow hstatus ↦ ?_⟩
  · rw [htokens t ht]
    exact hnew.trans hused
  · rw [htokens t ht]
    exact hfresh
  · simp [saveRefresh, h.taken, h.newer_eq_false hused]
  · obtain ⟨old, -, rfl⟩ := Option.map_eq_some_iff.1 hrow
    exact Option.some_ne_none _

theorem Kept.issue (given : Bool) : Kept (s.issue given) := by
  cases given with
  | false => exact h
  | true =>
    exact ⟨h.latest,
      fun t ht n hn ↦ ⟨Nat.lt_succ_of_lt (h.fresh t ht n hn).1, (h.fresh t ht n hn).2⟩,
      fun n hn ↦ Nat.lt_succ_of_lt (h.spent n hn), h.taken, h.reused, h.signedIn⟩

theorem Kept.signIn (given : Bool) (lifetimes : Lifetimes) :
    Kept ((s.issue given).saveSignIn (s.issues given) lifetimes) := by
  refine ⟨fun t ht ↦ ?_, fun t ht n hn ↦ ?_, (h.issue given).spent, (h.issue given).taken,
    (h.issue given).reused, fun row hrow _ ↦ ?_⟩
  · obtain rfl := Option.some.inj ht
    rfl
  · obtain rfl := Option.some.inj ht
    cases given with
    | false => cases hn
    | true =>
      obtain rfl := Option.some.inj hn
      exact ⟨Nat.lt_succ_self _, fun hmem ↦ Nat.lt_irrefl _ (h.spent _ hmem)⟩
  · obtain rfl := Option.some.inj hrow
    exact Option.some_ne_none _

/-- **Refreshed tokens**: the refresh token that was used is spent only where there is another one.
-/
theorem Kept.refreshed (hused : used.signIn = s.signIns)
    (hrefresh : refresh < s.issued ∧ refresh ∉ s.spent) (given : Bool) (lifetimes : Lifetimes) :
    Kept ((s.spend refresh given).saveRefresh used (s.renew used refresh given) lifetimes) := by
  cases given with
  | false =>
    have hsaved : Kept (s.saveRefresh used ⟨some refresh, used.signIn⟩ lifetimes) :=
      h.save hused (show Tokens.signIn ⟨some refresh, used.signIn⟩ = used.signIn from rfl)
        (fun n hn ↦ Option.some.inj hn ▸ hrefresh) lifetimes
    exact hsaved
  | true =>
    have hspent : ∀ n ∈ refresh :: s.spent, n < s.issued := List.forall_mem_cons.2
      ⟨hrefresh.1, h.spent⟩
    have hbase := h.clear hused
    -- the stored tokens are overwritten, so nothing is asked of them
    have htokens : ∀ t ∈ ((s.spend refresh true).saveRefresh used (s.renew used refresh true)
        lifetimes).tokens, t = ⟨some s.issued, used.signIn⟩ := fun t ht ↦ by
      obtain ⟨row, hrow, hrowt⟩ := Option.bind_eq_some_iff.1 ht
      obtain ⟨old, -, rfl⟩ := Option.map_eq_some_iff.1 hrow
      exact (Option.some.inj hrowt).symm
    refine ⟨fun t ht ↦ ?_, fun t ht n hn ↦ ?_, fun n hn ↦ Nat.lt_succ_of_lt (hspent n hn),
      hbase.taken, h.reused, fun row hrow hstatus ↦ ?_⟩
    · rw [htokens t ht]
      exact hused
    · rw [htokens t ht] at hn
      obtain rfl := Option.some.inj hn
      exact ⟨Nat.lt_succ_self _, fun hmem ↦ Nat.lt_irrefl _ (hspent _ hmem)⟩
    · obtain ⟨old, -, rfl⟩ := Option.map_eq_some_iff.1 hrow
      exact Option.some_ne_none _

theorem Kept.gone : Kept { s with row := none } :=
  ⟨fun t ht ↦ (by cases ht), fun t ht ↦ (by cases ht), h.spent, h.taken, h.reused,
    fun row hrow ↦ (by cases hrow)⟩

theorem Kept.notEligible :
    Kept { s with row := s.row.map fun row ↦ { row with status := .notEligible } } := by
  have htokens : Account.tokens { s with
      row := s.row.map fun row ↦ { row with status := .notEligible } } = s.tokens := by
    cases hrow : s.row with
    | none | some => simp [Account.tokens, hrow]
  refine ⟨fun t ht ↦ h.latest t (htokens ▸ ht), fun t ht ↦ h.fresh t (htokens ▸ ht), h.spent,
    h.taken, h.reused, fun row hrow hstatus ↦ ?_⟩
  obtain ⟨old, -, rfl⟩ := Option.map_eq_some_iff.1 hrow
  cases hstatus

end

/-- A refresh that holds the lock has sent a refresh token that is not spent. -/
def Owes (s : Account) : Todo → Prop
  | .refreshing _ refresh _ => refresh < s.issued ∧ refresh ∉ s.spent
  | _ => True

theorem owes_of_not_holds {todo : Todo} (h : todo.holds = false) : Owes s todo := by
  cases todo with
  | refreshing used refresh after => cases h
  | _ => trivial

/-- The lock is nobody's business here. -/
theorem Kept.unlock (h : Kept s) (locked : Bool) : Kept { s with locked } :=
  ⟨h.latest, h.fresh, h.spent, h.taken, h.reused, h.signedIn⟩

theorem Kept.access (h : Kept s) {after : After} :
    Kept (s.access after d).1 ∧ ∀ q ∈ (s.access after d).2, Owes (s.access after d).1 q := by
  rw [access_fst]
  exact ⟨h, fun q hq ↦ owes_of_not_holds (not_holds_access hq)⟩

/-- The account stays, and nothing that has the lock is left to do. -/
theorem Kept.rests (h : Kept s) {q : Option Todo} (hq : ∀ p ∈ q, p.holds = false) :
    Kept s ∧ ∀ p ∈ q, Owes s p := ⟨h, fun p hp ↦ owes_of_not_holds (hq p hp)⟩

/-- What a refresh that has the lock writes. -/
theorem Kept.answered (h : Kept s) (hrefresh : refresh < s.issued ∧ refresh ∉ s.spent)
    (hundisturbed :
      match d.answer with
      | .fails => True
      | .rejected => d.ok = true → used.signIn = s.signIns
      | .granted given _ =>
        (d.ok = true → used.signIn = s.signIns) ∧ (given = true → d.ok = true)) :
    Kept (s.step (.refreshing used refresh after) d).1 := by
  have hfree : Kept { s with locked := false } := h.unlock false
  simp only [Account.step]
  split
  · exact hfree
  case h_2 hanswer =>
    rw [hanswer] at hundisturbed
    split_ifs with hok
    · exact hfree.clear (hundisturbed hok)
    · exact hfree
  case h_3 given lifetimes hanswer =>
    rw [hanswer] at hundisturbed
    split
    case isTrue hok => exact hfree.refreshed (hundisturbed.1 hok) hrefresh given lifetimes
    case isFalse hok =>
      cases given with
      | false => exact hfree
      | true => exact absurd (hundisturbed.2 rfl) hok

/-- **Every step keeps it**, where nobody signs in in between. -/
theorem Kept.step (h : Kept s) (todo : Todo) (howes : Owes s todo)
    (hrefreshing : ∀ used refresh after, todo = .refreshing used refresh after →
      match d.answer with
      | .fails => True
      | .rejected => d.ok = true → used.signIn = s.signIns
      | .granted given _ =>
        (d.ok = true → used.signIn = s.signIns) ∧ (given = true → d.ok = true))
    (hrequesting : ∀ used, todo = .requesting used →
      d.outcome = .invalidUser → d.ok = true → used.signIn = s.signIns) :
    Kept (s.step todo d).1 ∧ ∀ q ∈ (s.step todo d).2, Owes (s.step todo d).1 q := by
  have hnone : ∀ q ∈ (none : Option Todo), q.holds = false := fun q hq ↦ (by cases hq)
  cases todo with simp only [Account.step]
  | call c =>
    cases c with simp only [Account.step]
    | accessToken => exact h.access
    | refresh | finish =>
      split_ifs
      · exact h.rests fun q hq ↦ Option.some.inj hq ▸ rfl
      · exact h.rests hnone
    | signOut =>
      split
      · exact h.rests hnone
      · split_ifs
        · exact h.rests fun q hq ↦ Option.some.inj hq ▸ rfl
        · exact h.gone.rests hnone
    | request =>
      split_ifs
      · exact h.access
      · exact h.rests hnone
  | locking force after =>
    split
    · exact h.rests fun q hq ↦ Option.some.inj hq ▸ rfl
    · split
      · exact h.rests hnone
      case h_2 row hrow =>
        split
        · exact h.rests hnone
        case h_2 used hused =>
          have hstored : used ∈ s.tokens := Option.bind_eq_some_iff.2 ⟨row, hrow, hused⟩
          split
          · exact h.rests hnone
          · split
            · exact h.rests fun q hq ↦ not_holds_token hq
            · split
              · exact (h.clear (h.latest used hstored)).rests hnone
              case h_2 refresh hrefresh =>
                have hfresh := h.fresh used hstored refresh hrefresh
                refine ⟨⟨h.latest, h.fresh, h.spent, h.taken, ?_, h.signedIn⟩, fun q hq ↦ ?_⟩
                · simp [h.reused, hfresh.2]
                · obtain rfl := Option.some.inj hq
                  exact hfresh
  | refreshing used refresh after =>
    exact ⟨h.answered howes (hrefreshing _ _ _ rfl),
      fun q hq ↦ owes_of_not_holds (not_holds_of_refreshing q hq)⟩
  | exchanging reauth =>
    split
    case h_1 given lifetimes _ =>
      split_ifs
      · exact (h.issue given).rests hnone
      · exact (h.signIn given lifetimes).rests hnone
    case h_2 => exact h.rests hnone
  | revoking =>
    split_ifs
    · exact h.gone.rests hnone
    · exact h.rests hnone
  | requesting used =>
    split
    · exact h.rests hnone
    · split_ifs
      · exact h.notEligible.rests hnone
      · exact h.rests hnone
    case h_3 houtcome =>
      split_ifs with hok
      · exact (h.clear (hrequesting _ rfl houtcome hok)).rests hnone
      · exact h.rests hnone

/-- **A sign-in's tokens stay.** In every run in which no sign-in completes between the moment a
refresh or a request reads its tokens and the moment its answer writes, and in which refreshed
tokens are saved, no refresh and no request takes away the tokens of a later sign-in, no refresh
token is sent once it was answered with a new one, and the account is signed in only if there are
tokens. -/
theorem sound_of_undisturbed (w : Calls Account Todo)
    (h : ((Calls.system program new).restrict Undisturbed).Reachable w) : w.shared.Sound := by
  refine Kept.sound (Calls.invariant_of_run (P := program) (I := Kept) (J := Owes)
    ⟨fun t ht ↦ (by cases ht), fun t ht ↦ (by cases ht), fun n hn ↦ (by cases hn), rfl, rfl,
      fun row hrow ↦ (by cases hrow)⟩
    (fun _ c _ ↦ by cases c <;> trivial) (fun _ e ↦ e.elim)
    (fun w i d todo hw hundisturbed htodo hkept howes ↦ ?_) h).1
  obtain ⟨hnext, hself⟩ := hkept.step todo (howes i todo htodo) (d := d)
    (by rintro used refresh after rfl; simpa only [Undisturbed, htodo] using hundisturbed)
    (by rintro used rfl; simpa only [Undisturbed, htodo] using hundisturbed)
  refine ⟨hnext, hself, fun j q hj hq ↦ ?_⟩
  cases hholds : q.holds with
  | false => exact owes_of_not_holds hholds
  | true =>
    -- only one call has the lock, so what `q` has sent is not spent by this step
    have hno : todo.holds = false := Bool.eq_false_iff.2 fun hto ↦
      hj ((locks.exclusive hw.of_restrict).2 j i q todo hq htodo hholds hto)
    obtain ⟨hspent, hissued, -⟩ := step_of_not_holds (s := w.shared) (d := d) hno
    cases q with
    | refreshing used refresh after =>
      have hold := howes j _ hq
      exact ⟨lt_of_lt_of_le hold.1 hissued, fun hmem ↦ hold.2 (hspent ▸ hmem)⟩
    | _ => cases hholds

/-! ### Runs -/

/-- Everything succeeds; the endpoint gives a refresh token, and an access token that is about to
lapse. -/
def fine : Found := ⟨0, true, .granted true ⟨some 0, none⟩, .fine, true⟩

/-- A sign-in completes. -/
def signsIn (i : ℕ) : List (CallAct Call Found Empty) :=
  [.start i (.finish false), .step i fine, .step i fine]

/-- A refresh is sent. -/
def refreshes (i : ℕ) : List (CallAct Call Found Empty) :=
  [.start i (.refresh true), .step i fine, .step i fine]

/-- A request refreshes the tokens, and the endpoint does not know the user. -/
def requests : List (CallAct Call Found Empty) :=
  signsIn 0 ++ [.start 1 .request, .step 1 fine, .step 1 fine, .step 1 fine,
    .step 1 { fine with outcome := .invalidUser }]

theorem sound_requests :
    Sound (requests.foldl (Calls.act program) (Calls.idle new)).shared :=
  sound_of_undisturbed _ (.foldl_of_allMeet (S := Calls.system program new) (fun _ _ ↦ rfl)
    (.start rfl) ⟨trivial, trivial, trivial, trivial, trivial, trivial, ⟨fun _ ↦ rfl, fun _ ↦ rfl⟩,
      fun _ _ ↦ rfl, trivial⟩)

/-- A sign-in completes while a refresh is under way, and the tokens of a refresh are not saved. -/
theorem not_sound_chatgpt :
    (¬ ∀ w, (Calls.system program new).Reachable w → w.shared.taken = false) ∧
      ¬ ∀ w, (Calls.system program new).Reachable w → w.shared.reused = false := by
  refine ⟨fun h ↦ ?_, fun h ↦ ?_⟩
  · have hkept := h _ (reachable_foldl (signsIn 0 ++ refreshes 1 ++ signsIn 2 ++ [.step 1 fine]))
    exact absurd hkept (by decide)
  · have honce := h _ (reachable_foldl
      (signsIn 0 ++ refreshes 1 ++ [.step 1 { fine with ok := false }] ++ refreshes 2))
    exact absurd honce (by decide)

end Ember.Server.ChatGpt
