import Ember.Basic
import Ember.Foundation.Calls
import Mathlib.Data.Finmap
import Mathlib.Data.Finset.Sort
import Mathlib.Data.String.Basic

/-!
# The registry of MCP servers

`mcp/mod.rs`: the `mcp_servers` table, and the calls that add, update and delete its rows. Each SQL
statement is one step, and may fail; between two statements of a call other calls may take theirs.
An update writes the environment in one statement and the other columns in a later one, which may
find its name taken.

A sealed environment is kept as what it opens to, and which error a call returns is left out.

## What is proved

* `merge_congr` — what an update makes of an environment depends only on the variables it leaves
  alone.
* `sound_of_apart` — where no update overtakes another between reading and writing the environment,
  and nothing fails once a call has written, a call that fails has changed nothing, and every update
  takes effect.
* `not_sound_mcp` — a name that is taken in between, and an update that is lost.
-/

namespace Ember.Server

open StepSystem

/-! ### Checks -/

/-- `RESERVED_NAMES`. -/
def reservedNames : List String := ["ember-browser"]

/-- `char::is_ascii_alphanumeric`. -/
def isAlphanumeric (c : Char) : Bool := c.isAlpha || c.isDigit

/-- `validate_name`: a name that agents can use. -/
def validMcpName (name : String) : Bool :=
  name ≠ "" ∧ name.length ≤ 64 ∧
    name.toList.all (fun c ↦ isAlphanumeric c || c == '-' || c == '_') ∧ name ∉ reservedNames

/-- `validate_env_key`: a portable name of an environment variable. -/
def validEnvKey (key : String) : Bool :=
  match key.toList with
  | [] => false
  | c :: cs => (c.isAlpha || c == '_') && cs.all fun c ↦ isAlphanumeric c || c == '_'

/-- `validate_command`. -/
def validCommand (command : String) : Bool := trim command ≠ ""

/-- `McpScope::parse`, as the text that is stored. -/
def parseScope (s : String) : Option String :=
  let s := trim s
  if s = "all" then some "all"
  else
    let project : String := .ofList (s.toList.drop 8)
    if s.toList.take 8 = "project:".toList ∧ trim project ≠ "" then some ("project:" ++ project)
    else none

/-! ### The table -/

/-- The environment of a server. -/
abbrev McpEnv := Finmap fun _ : String ↦ String

/-- The names of the variables, as they are listed. -/
def McpEnv.names (env : McpEnv) : List String := env.keys.sort (· ≤ ·)

/-- One change of a patch: a string sets a variable, `null` removes it. -/
def McpEnv.change (env : McpEnv) (p : String × Option String) : McpEnv :=
  match p.2 with
  | some v => Finmap.insert p.1 v env
  | none => Finmap.erase p.1 env

/-- What a patch makes of an environment. -/
def McpEnv.merge (changes : List (String × Option String)) (env : McpEnv) : McpEnv :=
  changes.foldl McpEnv.change env

/-- A row of `mcp_servers`. -/
structure McpRow where
  id : String
  name : String
  command : String
  args : List String
  envKeys : List String
  /-- The sealed environment. -/
  env : McpEnv
  enabled : Bool
  scope : String
  createdAt : ℤ
  updatedAt : ℤ
  /-- What the updates of the environment make of it, one after the other in the order of their
  writes. Only statements speak of it. -/
  due : McpEnv

/-- The table: ids and names are unique. -/
structure McpTable where
  rows : List McpRow
  ids : (rows.map McpRow.id).Nodup
  names : (rows.map McpRow.name).Nodup

namespace McpTable

/-- The row with this id. -/
def get (t : McpTable) (id : String) : Option McpRow := t.rows.find? (·.id == id)

/-- There is such a row. -/
def has (t : McpTable) (id : String) : Bool := t.rows.any (·.id == id)

/-- Another row has the name. -/
def nameTaken (t : McpTable) (name : String) (except : Option String) : Bool :=
  t.rows.any fun r ↦ r.name == name && except ≠ some r.id

/-- `INSERT`: fails when the id or the name is there. -/
def insert (t : McpTable) (r : McpRow) : Option McpTable :=
  if h : (r.id :: t.rows.map McpRow.id).Nodup ∧ (r.name :: t.rows.map McpRow.name).Nodup then
    some ⟨r :: t.rows, h.1, h.2⟩
  else none

/-- The rows after an `UPDATE ... WHERE id = ?`. -/
def updated (t : McpTable) (id : String) (f : McpRow → McpRow) : List McpRow :=
  t.rows.map fun r ↦ if r.id = id then { f r with id := r.id } else r

/-- `UPDATE ... WHERE id = ?`: fails when two rows would have one name. -/
def update (t : McpTable) (id : String) (f : McpRow → McpRow) : Option McpTable :=
  if h : ((t.updated id f).map McpRow.name).Nodup then
    some
      { rows := t.updated id f
        ids := by
          have hid : McpRow.id ∘ (fun r ↦ if r.id = id then { f r with id := r.id } else r) =
              McpRow.id := funext fun r ↦ by
            rw [Function.comp_apply]
            split <;> rfl
          rw [updated, List.map_map, hid]
          exact t.ids
        names := h }
  else none

/-- `DELETE ... WHERE id = ?`. -/
def delete (t : McpTable) (id : String) : McpTable where
  rows := t.rows.filter (·.id ≠ id)
  ids := t.ids.sublist (List.filter_sublist.map _)
  names := t.names.sublist (List.filter_sublist.map _)

end McpTable

/-! ### The calls -/

/-- `NewMcp`. -/
structure NewMcp where
  name : String
  command : String
  args : List String
  env : McpEnv
  enabled : Bool
  scope : String

/-- `McpPatch`: `none` leaves a field alone. -/
structure McpPatch where
  name : Option String
  command : Option String
  args : Option (List String)
  env : Option (List (String × Option String))
  enabled : Option Bool
  scope : Option String

/-- The registry. -/
structure McpRegistry where
  table : McpTable
  /-- A call has returned an error after it had changed a row. Only statements speak of it. -/
  torn : Bool

/-- What calls there are. -/
inductive McpCall
  | add (new : NewMcp)
  | update (id : String) (patch : McpPatch)
  | delete (id : String)

/-- What is left of a call. -/
inductive McpTodo
  | call (c : McpCall)
  | inserting (name : String) (new : NewMcp) (scope : String)
  /-- `update` has read the row. -/
  | naming (current : McpRow) (patch : McpPatch)
  | opening (id name scope : String) (patch : McpPatch) (changes : List (String × Option String))
  /-- `update` has read the environment. -/
  | sealing (id name scope : String) (patch : McpPatch) (changes : List (String × Option String))
    (env : McpEnv)
  /-- The last statement that changes anything, and whether one before it did. -/
  | writing (id name scope : String) (patch : McpPatch) (wrote : Bool)
  | returning (id : String) (wrote : Bool)

/-- What a step finds out. -/
structure McpFound where
  /-- The statement does not fail for reasons of its own. -/
  ok : Bool
  uuid : String
  now : ℤ

namespace McpRegistry

/-- An error, of a call that has changed this row. -/
def fail (s : McpRegistry) (id : String) (wrote : Bool) : McpRegistry × Option McpTodo :=
  ({ s with torn := s.torn || wrote && s.table.has id }, none)

/-- An error of a call that has changed nothing. -/
def refuse (s : McpRegistry) : McpRegistry × Option McpTodo := (s, none)

/-- One statement of a call, with what the call does up to the next one. -/
def step (s : McpRegistry) (todo : McpTodo) (d : McpFound) : McpRegistry × Option McpTodo :=
  match todo with
  | .call (.add new) =>
    let name := trim new.name
    if !validMcpName name || !validCommand new.command ||
        ¬∀ key ∈ new.env.keys, validEnvKey key = true then s.refuse
    else
      match parseScope new.scope with
      | none => s.refuse
      | some scope =>
        if !d.ok || s.table.nameTaken name none then s.refuse
        else (s, some (.inserting name new scope))
  | .inserting name new scope =>
    if !d.ok then s.refuse
    else
      match s.table.insert ⟨d.uuid, name, new.command, new.args, new.env.names, new.env,
          new.enabled, scope, d.now, d.now, new.env⟩ with
      | none => s.refuse
      | some table => ({ s with table }, some (.returning d.uuid true))
  | .call (.update id patch) =>
    match if d.ok then s.table.get id else none with
    | none => s.refuse
    | some current => (s, some (.naming current patch))
  | .naming current patch =>
    let name := patch.name.map trim
    if name.any fun n ↦ !validMcpName n || !d.ok || s.table.nameTaken n (some current.id) then
      s.refuse
    else if patch.command.any (!validCommand ·) then s.refuse
    else
      match patch.scope.elim (some current.scope) parseScope with
      | none => s.refuse
      | some scope =>
        match patch.env with
        | none => (s, some (.writing current.id (name.getD current.name) scope patch false))
        | some changes =>
          if !(changes.map Prod.fst).all validEnvKey then s.refuse
          else (s, some (.opening current.id (name.getD current.name) scope patch changes))
  | .opening id name scope patch changes =>
    if !d.ok then s.refuse
    else (s, some (.sealing id name scope patch changes ((s.table.get id).elim ∅ McpRow.env)))
  | .sealing id name scope patch changes env =>
    let merged := env.merge changes
    let write := fun r : McpRow ↦
      { r with envKeys := merged.names, env := merged, due := r.due.merge changes }
    if !d.ok then s.refuse
    else
      match s.table.update id write with
      | none => s.refuse
      | some table => ({ s with table }, some (.writing id name scope patch (s.table.has id)))
  | .writing id name scope patch wrote =>
    let write := fun r : McpRow ↦
      { r with
        name := name, command := patch.command.getD r.command, args := patch.args.getD r.args,
        enabled := patch.enabled.getD r.enabled, scope := scope, updatedAt := d.now }
    if !d.ok then s.fail id wrote
    else
      match s.table.update id write with
      | none => s.fail id wrote
      | some table => ({ s with table }, some (.returning id (wrote || s.table.has id)))
  | .returning id wrote => if d.ok ∧ s.table.has id then (s, none) else s.fail id wrote
  | .call (.delete id) => if d.ok then ({ s with table := s.table.delete id }, none) else s.refuse

/-- Nothing happens besides the calls. -/
def program : Program McpRegistry McpCall McpTodo McpFound Empty where
  enter := .call
  step := step
  env s _ := s

/-- **What the registry promises.** -/
structure Sound (s : McpRegistry) : Prop where
  /-- A call that returned an error has changed no row. -/
  whole : s.torn = false
  /-- The names that are listed are those of the sealed variables. -/
  listed : ∀ r ∈ s.table.rows, r.envKeys = r.env.names
  names : (s.table.rows.map McpRow.name).Nodup
  /-- All updates of the environment have taken effect. -/
  merged : ∀ r ∈ s.table.rows, r.env = r.due

end McpRegistry

open McpRegistry

/-- **Where calls keep apart.** Between reading the environment and writing it no other update of
the server changes a variable that this one leaves alone; and once an update has written the
environment, no other row has the name that it writes then, and no later statement of a call that
has written fails, as long as the row is there. -/
def McpApart (w : Calls McpRegistry McpTodo) : CallAct McpCall McpFound Empty → Prop
  | .step i d =>
    match w.call i with
    | some (.sealing id _ _ _ changes env) =>
      ∀ r ∈ w.shared.table.rows, r.id = id → ∀ key ∉ changes.map Prod.fst,
        r.env.lookup key = env.lookup key
    | some (.writing id name _ _ true) =>
      w.shared.table.has id = true →
        d.ok = true ∧ ∀ r ∈ w.shared.table.rows, r.name = name → r.id = id
    | some (.returning id true) => w.shared.table.has id = true → d.ok = true
    | _ => True
  | _ => True

/-! ### Environments -/

theorem lookup_change (env : McpEnv) (key : String) (v : Option String) :
    (env.change (key, v)).lookup key = v := by
  cases v with
  | none => exact Finmap.lookup_erase _ _
  | some v => exact Finmap.lookup_insert _

theorem lookup_change_of_ne (env : McpEnv) {key name : String} (v : Option String)
    (hne : key ≠ name) : (env.change (name, v)).lookup key = env.lookup key := by
  cases v with
  | none => exact Finmap.lookup_erase_ne hne
  | some v => exact Finmap.lookup_insert_of_ne _ hne

variable {changes : List (String × Option String)}

/-- What a patch makes of an environment depends only on the variables that it leaves alone. -/
theorem merge_congr {env env' : McpEnv}
    (h : ∀ key ∉ changes.map Prod.fst, env.lookup key = env'.lookup key) :
    env.merge changes = env'.merge changes := by
  induction changes generalizing env env' with
  | nil => exact Finmap.ext_lookup fun key ↦ h key List.not_mem_nil
  | cons p changes ih =>
    refine ih fun key hkey ↦ ?_
    obtain ⟨name, v⟩ := p
    rcases eq_or_ne key name with rfl | hne
    · rw [lookup_change, lookup_change]
    · rw [lookup_change_of_ne _ _ hne, lookup_change_of_ne _ _ hne]
      exact h key fun hmem ↦ (List.mem_cons.1 hmem).elim hne hkey

/-! ### Statements -/

namespace McpTable

variable {t t' : McpTable} {id : String} {f : McpRow → McpRow} {r : McpRow}

/-- A row after an update is another one's, or was changed. -/
theorem of_update (h : t.update id f = some t') (hr : r ∈ t'.rows) :
    r ∈ t.rows ∨ ∃ q ∈ t.rows, q.id = id ∧ r = { f q with id := q.id } := by
  rw [update] at h
  split_ifs at h
  obtain rfl := Option.some.inj h
  obtain ⟨q, hq, rfl⟩ := List.mem_map.1 hr
  split
  case isTrue hid => exact .inr ⟨q, hq, hid, rfl⟩
  case isFalse => exact .inl hq

theorem of_insert {new : McpRow} (h : t.insert new = some t') (hr : r ∈ t'.rows) :
    r = new ∨ r ∈ t.rows := by
  rw [insert] at h
  split_ifs at h
  obtain rfl := Option.some.inj h
  exact List.mem_cons.1 hr

/-- An update to a name that no other row has does not fail. -/
theorem update_ne_none {name : String} (hf : ∀ r, (f r).name = name)
    (hfree : ∀ r ∈ t.rows, r.name = name → r.id = id) : t.update id f ≠ none := by
  have hinj : ∀ r ∈ t.rows, ∀ q ∈ t.rows, (if r.id = id then { f r with id := r.id } else r).name =
        (if q.id = id then { f q with id := q.id } else q).name → r = q := fun r hr q hq heq ↦ by
    have hids := List.inj_on_of_nodup_map t.ids hr hq
    split_ifs at heq with hrid hqid hqid
    · exact hids (hrid.trans hqid.symm)
    · exact absurd (hfree q hq (heq.symm.trans (hf r))) hqid
    · exact absurd (hfree r hr (heq.trans (hf q))) hrid
    · exact List.inj_on_of_nodup_map t.names hr hq heq
  have hnodup : ((t.updated id f).map McpRow.name).Nodup := by
    rw [updated, List.map_map]
    exact (List.Nodup.of_map _ t.ids).map_on hinj
  rw [update, dif_pos hnodup]
  exact Option.some_ne_none _

end McpTable

/-! ### What every statement keeps -/

namespace McpRegistry

variable {s : McpRegistry} {d : McpFound}

theorem Sound.fail (h : s.Sound) {id : String} {wrote : Bool}
    (hwrote : wrote = true → s.table.has id = false) : (s.fail id wrote).1.Sound := by
  refine ⟨?_, h.listed, h.names, h.merged⟩
  cases wrote with
  | false => simp [McpRegistry.fail, h.whole]
  | true => simp [McpRegistry.fail, h.whole, hwrote rfl]

/-- An update of the environment that knows what it leaves alone. -/
theorem Sound.seal (h : s.Sound) {id : String} {env : McpEnv} {table : McpTable}
    (hsame : ∀ r ∈ s.table.rows, r.id = id → ∀ key ∉ changes.map Prod.fst,
      r.env.lookup key = env.lookup key)
    (hupdate : s.table.update id (fun r ↦
      { r with
        envKeys := (env.merge changes).names, env := env.merge changes,
        due := r.due.merge changes }) = some table) :
    Sound { s with table } := by
  refine ⟨h.whole, fun r hr ↦ ?_, table.names, fun r hr ↦ ?_⟩
  · obtain hr | ⟨q, -, -, rfl⟩ := McpTable.of_update hupdate hr
    · exact h.listed r hr
    · rfl
  · obtain hr | ⟨q, hq, hid, rfl⟩ := McpTable.of_update hupdate hr
    · exact h.merged r hr
    · show env.merge changes = q.due.merge changes
      rw [← h.merged q hq]
      exact (merge_congr (hsame q hq hid)).symm

/-- **Every statement keeps it**, where calls keep apart. -/
theorem Sound.step (h : s.Sound) (todo : McpTodo) (hsealing : ∀ id name scope patch changes env,
      todo = .sealing id name scope patch changes env →
        ∀ r ∈ s.table.rows, r.id = id → ∀ key ∉ changes.map Prod.fst,
          r.env.lookup key = env.lookup key)
    (hwriting : ∀ id name scope patch, todo = .writing id name scope patch true →
      s.table.has id = true →
        d.ok = true ∧ ∀ r ∈ s.table.rows, r.name = name → r.id = id)
    (hreturning : ∀ id, todo = .returning id true → s.table.has id = true → d.ok = true) :
    (s.step todo d).1.Sound := by
  cases todo with
  | call c =>
    cases c with simp only [McpRegistry.step]
    | add new =>
      split
      · exact h
      · split
        · exact h
        · split <;> exact h
    | update id patch =>
      split <;> exact h
    | delete id =>
      split_ifs
      · exact ⟨h.whole, fun r hr ↦ h.listed r (List.mem_filter.1 hr).1, McpTable.names _,
          fun r hr ↦ h.merged r (List.mem_filter.1 hr).1⟩
      · exact h
  | inserting name new scope =>
    simp only [McpRegistry.step]
    split_ifs
    · exact h
    · split
      · exact h
      case h_2 table hinsert =>
        refine ⟨h.whole, fun r hr ↦ ?_, table.names, fun r hr ↦ ?_⟩
        · obtain rfl | hr := McpTable.of_insert hinsert hr
          · rfl
          · exact h.listed r hr
        · obtain rfl | hr := McpTable.of_insert hinsert hr
          · rfl
          · exact h.merged r hr
  | naming current patch =>
    simp only [McpRegistry.step]
    split
    · exact h
    · split
      · exact h
      · split
        · exact h
        · split
          · exact h
          · split <;> exact h
  | opening id name scope patch changes =>
    simp only [McpRegistry.step]
    split_ifs <;> exact h
  | sealing id name scope patch changes env =>
    simp only [McpRegistry.step]
    split_ifs
    · exact h
    · split
      · exact h
      case h_2 table hupdate => exact h.seal (hsealing _ _ _ _ _ _ rfl) hupdate
  | writing id name scope patch wrote =>
    -- once the environment is written, this statement must not fail while the row is there
    have hgone : ∀ {f : McpRow → McpRow}, (∀ r, (f r).name = name) →
        (!d.ok) = true ∨ s.table.update id f = none → wrote = true →
          s.table.has id = false := fun hf hfailed hwrote ↦ by
      subst hwrote
      by_contra hhas
      obtain ⟨hok, hfree⟩ := hwriting _ _ _ _ rfl (Bool.eq_true_of_not_eq_false hhas)
      rcases hfailed with hfailed | hfailed
      · rw [hok] at hfailed
        cases hfailed
      · exact McpTable.update_ne_none hf hfree hfailed
    simp only [McpRegistry.step]
    split_ifs with hok
    · exact h.fail (hgone (f := fun r ↦ { r with name }) (fun _ ↦ rfl) (.inl hok))
    · split
      case h_1 hnone => exact h.fail (hgone (fun _ ↦ rfl) (.inr hnone))
      case h_2 table hupdate =>
        refine ⟨h.whole, fun r hr ↦ ?_, table.names, fun r hr ↦ ?_⟩
        · obtain hr | ⟨q, hq, -, rfl⟩ := McpTable.of_update hupdate hr
          · exact h.listed r hr
          · exact h.listed q hq
        · obtain hr | ⟨q, hq, -, rfl⟩ := McpTable.of_update hupdate hr
          · exact h.merged r hr
          · exact h.merged q hq
  | returning id wrote =>
    simp only [McpRegistry.step]
    split_ifs with hget
    · exact h
    · refine h.fail fun hwrote ↦ ?_
      subst hwrote
      by_contra hhas
      have hhas := Bool.eq_true_of_not_eq_false hhas
      exact hget ⟨hreturning _ rfl hhas, hhas⟩

/-- A registry whose rows are as they should be, before any call. -/
def ofTable (table : McpTable) : McpRegistry := ⟨table, false⟩

/-- **The registry, in every run in which calls keep apart**: a call that fails has changed nothing,
the listed variables are the sealed ones, names are unique, and every update of an environment takes
effect. -/
theorem sound_of_apart (table : McpTable) (w : Calls McpRegistry McpTodo)
    (hlisted : ∀ r ∈ table.rows, r.envKeys = r.env.names ∧ r.env = r.due)
    (h : ((Calls.system program (ofTable table)).restrict McpApart).Reachable w) :
    w.shared.Sound := by
  refine (Calls.invariant (P := program) (I := Sound) (J := fun _ _ ↦ True)
    ⟨rfl, fun r hr ↦ (hlisted r hr).1, table.names, fun r hr ↦ (hlisted r hr).2⟩
    (fun _ _ _ ↦ trivial) (fun _ e ↦ e.elim)
    (fun w i d todo hapart htodo hsound _ ↦
      ⟨hsound.step todo ?_ ?_ ?_, fun _ _ ↦ trivial, fun _ _ _ _ ↦ trivial⟩) h).1
  · rintro id name scope patch changes env rfl
    simpa only [McpApart, htodo] using hapart
  · rintro id name scope patch rfl
    simpa only [McpApart, htodo] using hapart
  · rintro id rfl
    simpa only [McpApart, htodo] using hapart

/-- Every statement succeeds, and a new row gets this id. -/
def fine (uuid : String) : McpFound := ⟨true, uuid, 0⟩

def emptyTable : McpTable := ⟨[], .nil, .nil⟩

/-- A patch that sets one variable. -/
def setting (key : String) : McpPatch := ⟨none, none, none, some [(key, some "1")], none, none⟩

/-- A server that is called `x`. -/
def newX : McpCall := .add ⟨"x", "run", [], ∅, true, "all"⟩

/-- A call, and steps of it. -/
def alone (i : ℕ) (c : McpCall) (uuid : String) (n : ℕ) : List (CallAct McpCall McpFound Empty) :=
  .start i c :: List.replicate n (.step i (fine uuid))

/-- A server is added, and gets a variable. -/
def addsAndSets : List (CallAct McpCall McpFound Empty) :=
  alone 0 newX "1" 3 ++ alone 1 (.update "1" (setting "A")) "" 6

theorem sound_addsAndSets :
    Sound (addsAndSets.foldl (Calls.act program) (Calls.idle (ofTable emptyTable))).shared := by
  refine sound_of_apart emptyTable _ (fun r hr ↦ (by cases hr))
    (.foldl_of_allMeet (S := Calls.system program (ofTable emptyTable))
    (fun _ _ ↦ rfl) (.start rfl) ⟨trivial, trivial, trivial, fun _ ↦ rfl, trivial, trivial, trivial,
      trivial, fun r hr _ key _ ↦ ?_, fun _ ↦ ⟨rfl, fun r hr _ ↦ ?_⟩, fun _ ↦ rfl, trivial⟩)
  · obtain rfl := List.mem_singleton.1 hr
    rfl
  · obtain rfl := List.mem_singleton.1 hr
    rfl

/-- Two updates set a variable each, and both have read the environment when the first one writes.
-/
def overtakes : List (CallAct McpCall McpFound Empty) :=
  alone 0 newX "1" 3 ++ alone 1 (.update "1" (setting "A")) "" 3 ++
    alone 2 (.update "1" (setting "B")) "" 6 ++ List.replicate 3 (.step 1 (fine ""))

/-- Between the two statements of an update its server gets another name, and a new server takes the
old one. -/
def renames : List (CallAct McpCall McpFound Empty) :=
  alone 0 newX "1" 3 ++ alone 1 (.update "1" (setting "A")) "" 4 ++
    alone 2 (.update "1" ⟨some "y", none, none, none, none, none⟩) "" 4 ++
    alone 3 newX "2" 3 ++ [.step 1 (fine "")]

/-- A variable is lost, and a call that fails has written the environment. -/
theorem not_sound_mcp :
    (¬ ∀ w, (Calls.system program (ofTable emptyTable)).Reachable w →
      ∀ r ∈ w.shared.table.rows, r.env = r.due) ∧
      ¬ ∀ w, (Calls.system program (ofTable emptyTable)).Reachable w → w.shared.torn = false := by
  refine ⟨fun h ↦ ?_, fun h ↦ ?_⟩
  · have hmerged := h _ (reachable_foldl overtakes) _ List.mem_cons_self
    have hlookup := congrArg (Finmap.lookup "B") hmerged
    revert hlookup
    decide
  · have hwhole := h _ (reachable_foldl renames)
    revert hwhole
    decide

end McpRegistry

end Ember.Server
