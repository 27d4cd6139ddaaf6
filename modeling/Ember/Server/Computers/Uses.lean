import Ember.Server.Browser

/-!
# Who uses a computer

A session, a browser and a project name a computer by its id, and the tables have no foreign keys.
Each of the three writers asks whether the computer is there before it writes, and
`Registry::remove` asks two of the three tables before it deletes; the answers and what follows them
are separate holds of the database connection.

`known_iff`: every id in use is registered throughout a run exactly if each write and each deletion
still meets what was asked before it. A removal that fails changes nothing in any case.
-/

namespace Ember.Server.Computers.Uses

open Browser StepSystem

/-- `LOCAL`. -/
def localId : String := "local"

/-- The tables, as far as they say which computers there are and which are used. -/
structure Db where
  /-- The ids of `computers`. -/
  computers : List String
  /-- `session_computer`: session and computer. -/
  sessionComputer : List (String × String)
  /-- `browser_egress`: project and choice. -/
  browserEgress : List (String × Egress)
  /-- `project_computers`: project and computer. -/
  projectComputers : List (String × String)
  deriving DecidableEq, Repr

/-- The row with this primary key is replaced, or added. -/
def upsert {α : Type} (key : String) (value : α) (rows : List (String × α)) : List (String × α) :=
  rows.filter (·.1 ≠ key) ++ [(key, value)]

namespace Db

/-- A session or a browser is on the computer: what `Registry::remove` asks. -/
def InUse (db : Db) (id : String) : Prop :=
  (∃ r ∈ db.sessionComputer, r.2 = id) ∨ ∃ r ∈ db.browserEgress, r.2 = .computer id

/-- The id may be used. -/
def Registered (db : Db) (id : String) : Prop := id = localId ∨ id ∈ db.computers

instance (db : Db) (id : String) : Decidable (db.InUse id) := inferInstanceAs (Decidable (_ ∨ _))

instance (db : Db) (id : String) : Decidable (db.Registered id) :=
  inferInstanceAs (Decidable (_ ∨ _))

/-- The computer of a choice, if it is one, is registered. -/
def Allows (db : Db) : Egress → Prop
  | .computer id => db.Registered id
  | .direct | .proxy _ => True

instance (db : Db) : DecidablePred db.Allows
  | .computer id => inferInstanceAs (Decidable (db.Registered id))
  | .direct | .proxy _ => inferInstanceAs (Decidable True)

/-- Every computer that is used is registered. -/
structure Known (db : Db) : Prop where
  session : ∀ r ∈ db.sessionComputer, db.Registered r.2
  browser : ∀ r ∈ db.browserEgress, db.Allows r.2
  project : ∀ r ∈ db.projectComputers, db.Registered r.2

instance : DecidablePred Known := fun db ↦ decidable_of_iff
  ((∀ r ∈ db.sessionComputer, db.Registered r.2) ∧ (∀ r ∈ db.browserEgress, db.Allows r.2) ∧
    ∀ r ∈ db.projectComputers, db.Registered r.2)
  ⟨fun h ↦ ⟨h.1, h.2.1, h.2.2⟩, fun h ↦ ⟨h.1, h.2, h.3⟩⟩

/-- The transaction of `Registry::remove`. -/
def delete (db : Db) (id : String) : Db :=
  { db with
    projectComputers := db.projectComputers.filter (·.2 ≠ id)
    computers := db.computers.filter (· ≠ id) }

/-- `Registry::set_session_computer`. -/
def setSessionComputer (db : Db) (session id : String) : Db :=
  { db with sessionComputer := upsert session id db.sessionComputer }

/-- `EgressStore::save`. -/
def save (db : Db) (project : String) : Egress → Db
  | .direct => { db with browserEgress := db.browserEgress.filter (·.1 ≠ project) }
  | egress => { db with browserEgress := upsert project egress db.browserEgress }

/-- The `INSERT OR IGNORE` of `Store::assign_computer`. -/
def assign (db : Db) (project id : String) : Db :=
  if (project, id) ∈ db.projectComputers then db
  else { db with projectComputers := db.projectComputers ++ [(project, id)] }

end Db

/-! ### The calls -/

/-- What a step finds out: whether what it asks of others succeeds (a statement, a probe, a proxy, a
session that may be switched), and whether the session's computer has been described. -/
structure Found where
  ok : Bool
  described : Bool
  deriving DecidableEq, Repr

/-- The calls. -/
inductive Request
  | remove (id : String)
  | switch (session id : String)
  | setEgress (project : String) (egress : Egress)
  | assign (project id : String)
  deriving DecidableEq, Repr

/-- What a call does next. -/
inductive Left
  /-- `remove`: the sessions on the computer are counted. -/
  | countSessions (id : String)
  /-- `remove`: `projects_using_computer`. -/
  | listProjects (id : String)
  /-- `remove`: the transaction. -/
  | delete (id : String)
  /-- `switch`: the session's record. -/
  | record (session id : String)
  /-- `switch`: `resolve`. -/
  | resolve (session id : String)
  /-- `switch`: the session's computer. -/
  | current (session id : String)
  | probe (session id : String)
  /-- `switch`: `set_session_computer`. -/
  | setSession (session id : String)
  /-- `switch`: `Sessions::release`, and the mount. -/
  | release
  /-- `set_egress`: `resolve_egress`. -/
  | resolveEgress (project : String) (egress : Egress)
  | save (project : String) (egress : Egress)
  /-- `set_egress`: the browser gets the choice. -/
  | choose
  /-- `assign_computer`: the project's record. -/
  | findProject (project id : String)
  /-- `assign_computer`: the computer is counted. -/
  | count (project id : String)
  | insert (project id : String)
  deriving DecidableEq, Repr

/-- What comes of a step: the call goes on, or returns. -/
inductive Next
  | go (p : Left)
  | ok
  | err
  deriving DecidableEq, Repr

/-- One step that succeeds in what it asks of others. -/
def Left.run (db : Db) (described : Bool) : Left → Db × Next
  | .countSessions id =>
    (db, if ∃ r ∈ db.sessionComputer, r.2 = id then .err else .go (.listProjects id))
  | .listProjects id =>
    (db, if ∃ r ∈ db.browserEgress, r.2 = .computer id then .err else .go (.delete id))
  | .delete id => (db.delete id, .ok)
  | .record session id => (db, .go (.resolve session id))
  | .resolve session id => (db, if db.Registered id then .go (.current session id) else .err)
  | .current session id =>
    (db, if (session, id) ∈ db.sessionComputer ∧ described then .ok else .go (.probe session id))
  | .probe session id => (db, .go (.setSession session id))
  | .setSession session id => (db.setSessionComputer session id, .go .release)
  | .release => (db, .ok)
  | .resolveEgress project egress =>
    (db, if db.Allows egress then .go (.save project egress) else .err)
  | .save project egress => (db.save project egress, .go .choose)
  | .choose => (db, .ok)
  | .findProject project id =>
    (db, .go (if id = localId then .insert project id else .count project id))
  | .count project id => (db, if id ∈ db.computers then .go (.insert project id) else .err)
  | .insert project id => (db.assign project id, .ok)

/-- One step. -/
def Left.step (db : Db) (p : Left) (d : Found) : Db × Next :=
  if d.ok then p.run db d.described else (db, .err)

/-- The calls over the database. -/
def program : Program Db Request Left Found Empty where
  enter
    | .remove id => .countSessions id
    | .switch session id => .record session id
    | .setEgress project egress => .resolveEgress project egress
    | .assign project id => .findProject project id
  step db p d :=
    ((p.step db d).1, match (p.step db d).2 with
      | .go p => some p
      | .ok | .err => none)
  env _ e := e.elim

/-! ### When every use is registered -/

/-- What was asked before this step is still so. -/
def Left.Safe (db : Db) : Left → Prop
  | .delete id => id = localId ∨ ¬ db.InUse id
  | .setSession _ id | .insert _ id => db.Registered id
  | .save _ egress => db.Allows egress
  | _ => True

instance (db : Db) : DecidablePred (Left.Safe db) := fun p ↦ by
  cases p <;> unfold Left.Safe <;> infer_instance

/-- The next step of a call is safe, or fails. -/
def Safe (w : Calls Db Left) : CallAct Request Found Empty → Prop
  | .step i d => ∀ p ∈ w.call i, d.ok = true → p.Safe w.shared
  | .start _ _ | .env _ => True

instance (w : Calls Db Left) : DecidablePred (Safe w)
  | .step i d => inferInstanceAs (Decidable (∀ p ∈ w.call i, d.ok = true → p.Safe w.shared))
  | .start _ _ | .env _ => inferInstanceAs (Decidable True)

theorem mem_upsert {α : Type} {key : String} {value : α} {rows : List (String × α)}
    {r : String × α} : r ∈ upsert key value rows ↔ (r ∈ rows ∧ r.1 ≠ key) ∨ r = (key, value) := by
  simp [upsert]

namespace Db

variable {db : Db}

theorem known_delete (h : db.Known) (id : String) :
    (db.delete id).Known ↔ id = localId ∨ ¬ db.InUse id := by
  have hregistered : ∀ id', (db.delete id).Registered id' ↔
      id' = localId ∨ id' ∈ db.computers ∧ id' ≠ id := fun id' ↦ by
    simp [Registered, Db.delete]
  -- What is registered stays so, but for the computer that is deleted.
  have hkeep : ∀ id', db.Registered id' → (id' = id → id = localId) →
      (db.delete id).Registered id' := fun id' hid' hsafe ↦ by
    by_cases hid : id' = id
    · exact .inl (hid.trans (hsafe hid))
    · exact (hregistered id').2 (hid'.imp_right fun hmem ↦ ⟨hmem, hid⟩)
  constructor
  · rintro hafter
    by_contra hno
    push Not at hno
    have hgone : ¬ (db.delete id).Registered id := fun hid ↦
      ((hregistered id).1 hid).elim hno.1 fun hid ↦ hid.2 rfl
    rcases hno.2 with ⟨r, hr, rfl⟩ | ⟨r, hr, hid⟩
    · exact hgone (hafter.session r hr)
    · have hallows := hafter.browser r hr
      rw [hid] at hallows
      exact hgone hallows
  · intro hsafe
    have hused : db.InUse id → id = localId := fun huse ↦
      hsafe.resolve_right fun hno ↦ hno huse
    refine ⟨fun r hr ↦ ?_, fun r hr ↦ ?_, fun r hr ↦ ?_⟩
    · exact hkeep r.2 (h.session r hr) fun hid ↦ hused (.inl ⟨r, hr, hid⟩)
    · have hallows := h.browser r hr
      cases hegress : r.2 with
      | computer id' =>
        rw [hegress] at hallows
        exact hkeep id' hallows fun hid ↦ hused (.inr ⟨r, hr, hid ▸ hegress⟩)
      | direct | proxy => trivial
    · obtain ⟨hr, hne⟩ := List.mem_filter.1 hr
      exact hkeep r.2 (h.project r hr) fun hid ↦ absurd hid (of_decide_eq_true hne)

theorem known_setSessionComputer (h : db.Known) (session id : String) :
    (db.setSessionComputer session id).Known ↔ db.Registered id := by
  refine ⟨fun hafter ↦ hafter.session (session, id) (mem_upsert.2 (.inr rfl)), fun hid ↦
    ⟨fun r hr ↦ ?_, h.browser, h.project⟩⟩
  rcases mem_upsert.1 hr with ⟨hr, -⟩ | rfl
  · exact h.session r hr
  · exact hid

theorem known_save (h : db.Known) (project : String) (egress : Egress) :
    (db.save project egress).Known ↔ db.Allows egress := by
  have hupsert : db.Allows egress →
      Known { db with browserEgress := upsert project egress db.browserEgress } := fun hallows ↦ by
    refine ⟨h.session, fun r hr ↦ ?_, h.project⟩
    rcases mem_upsert.1 hr with ⟨hr, -⟩ | rfl
    · exact h.browser r hr
    · exact hallows
  cases egress with
  | direct =>
    exact iff_of_true ⟨h.session, fun r hr ↦ h.browser r (List.mem_of_mem_filter hr), h.project⟩
      trivial
  | proxy url => exact iff_of_true (hupsert trivial) trivial
  | computer id =>
    exact ⟨fun hafter ↦ hafter.browser (project, .computer id) (mem_upsert.2 (.inr rfl)), hupsert⟩

theorem known_assign (h : db.Known) (project id : String) :
    (db.assign project id).Known ↔ db.Registered id := by
  unfold assign
  split
  case isTrue hmem => exact iff_of_true h (h.project _ hmem)
  case isFalse =>
    refine ⟨fun hafter ↦ hafter.project (project, id) (List.mem_append_right _ List.mem_cons_self),
      fun hid ↦ ⟨h.session, h.browser, fun r hr ↦ ?_⟩⟩
    rcases List.mem_append.1 hr with hr | hr
    · exact h.project r hr
    · obtain rfl := List.mem_singleton.1 hr
      exact hid

end Db

/-- A step leaves every use registered exactly if it is safe. -/
theorem known_step {db : Db} (h : db.Known) (p : Left) (d : Found) :
    (p.step db d).1.Known ↔ (d.ok = true → p.Safe db) := by
  unfold Left.step
  split
  case isTrue hok =>
    rw [forall_prop_of_true hok]
    cases p with
    | delete id => exact Db.known_delete h id
    | setSession session id => exact Db.known_setSessionComputer h session id
    | save project egress => exact Db.known_save h project egress
    | insert project id => exact Db.known_assign h project id
    | _ => exact iff_of_true h trivial
  case isFalse hno => exact iff_of_true h fun hok ↦ absurd hok hno

theorem known_act {w : Calls Db Left} (h : w.shared.Known) (l : CallAct Request Found Empty) :
    (Calls.act program w l).shared.Known ↔ Safe w l := by
  cases l with
  | start i c =>
    rw [Calls.shared_start]
    exact iff_of_true h trivial
  | env e => exact e.elim
  | step i d =>
    cases hp : w.call i with
    | none =>
      rw [Calls.act_step_of_none hp]
      exact iff_of_true h fun p hp' ↦ by rw [hp] at hp'; cases hp'
    | some p =>
      rw [Calls.act_step hp]
      refine (known_step h p d).trans ⟨fun hsafe q hq ↦ ?_, fun hsafe ↦ hsafe p hp⟩
      obtain rfl := Option.some.inj (hp.symm.trans hq)
      exact hsafe

/-- The call is a removal. -/
def Left.removes : Left → Bool
  | .countSessions _ | .listProjects _ | .delete _ => true
  | _ => false

/-- **Every use is registered** throughout a run exactly if each step is safe. A step of a removal
changes something only where the removal returns that it has succeeded. -/
theorem known_iff (db : Db) (h : db.Known) (ls : List (CallAct Request Found Empty)) :
    (AllMeet (Calls.act program) Safe (Calls.idle db) ls ↔
      ∀ front, front <+: ls → (front.foldl (Calls.act program) (Calls.idle db)).shared.Known) ∧
    ∀ (db' : Db) (p : Left) (d : Found), p.removes = true → (p.step db' d).2 ≠ .ok →
      (p.step db' d).1 = db' := by
  have hruns :=
    allMeet_iff_forall_prefix (I := fun _ ↦ True) (P := fun w : Calls Db Left ↦ w.shared.Known)
      (fun _ _ _ ↦ trivial) (fun w l _ hw ↦ known_act hw l) (s := Calls.idle db) trivial h ls
  refine ⟨hruns, fun db' p d hp hne ↦ ?_⟩
  unfold Left.step at hne ⊢
  split at hne
  case isTrue hok =>
    rw [if_pos hok]
    cases p with
    | countSessions | listProjects => rfl
    | delete id => exact absurd rfl hne
    | _ => cases hp
  case isFalse hno => rw [if_neg hno]

/-- A computer no one uses, and a session that is switched to it. -/
def quiet : Db := ⟨["pi"], [], [], []⟩

/-- All that is asked of others succeeds. -/
def fine : Found := ⟨true, false⟩

/-- The session is on the computer before it is removed. -/
theorem known_iff_switched :
    let ls := (.start 0 (.switch "s" "pi")) :: List.replicate 5 (.step 0 fine)
    quiet.Known ∧ ∀ front, front <+: ls →
      (front.foldl (Calls.act program) (Calls.idle quiet)).shared.Known := by
  have h : quiet.Known := by decide
  exact ⟨h, ((known_iff quiet h _).1).1 (by decide)⟩

/-- The computer is removed between what the switch and the removal ask, and what they write. -/
theorem not_known :
    ¬ ∀ (db : Db) (ls : List (CallAct Request Found Empty)), db.Known →
      (ls.foldl (Calls.act program) (Calls.idle db)).shared.Known := by
  intro h
  have hknown := h quiet ([.start 0 (.remove "pi"), .step 0 fine, .step 0 fine,
    .start 1 (.switch "s" "pi")] ++ List.replicate 5 (.step 1 fine) ++ [.step 0 fine]) (by decide)
  revert hknown
  decide

end Ember.Server.Computers.Uses
