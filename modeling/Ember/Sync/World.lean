import Ember.Client.Session
import Ember.Foundation.Runs
import Ember.Server.Store

/-!
# A client kept in step with the server

One server and one client that has been there from the start. The server is its history of store
calls; a snapshot is the store after some beginning of it. What the client is given is

* the pushes the calls produced: those of events in server order, any of them possibly lost on the
  way, and those of metadata changes in server order, one for each change;
* answers to requests, each of which is a snapshot: the session list, one session, the events of a
  session after some number. Nothing is assumed of when an answer arrives, so an answer may be
  older than pushes that came before it, and newer than pushes still to come.
-/

namespace Ember

/-- The client's reading of a session record. -/
def Client.SessionRecord.decode (record : Server.SessionRecord) : Client.SessionRecord where
  id := record.id
  project := record.project
  agent := record.agent.asStr
  cwd := record.cwd
  model := record.model
  nativeId := record.nativeId
  status := .decode record.status
  title := record.title
  createdAt := record.createdAt
  updatedAt := record.updatedAt
  lastSeq := record.lastSeq
  accountId := record.accountId
  accountReason := record.accountReason
  pinned := record.pinned
  archived := record.archived

variable {m : ℕ} {record : SessionRecord}

namespace Sync

open Server (Store StoreOp)
open Client (Input SessionRecord)

/-- What is pushed for a call of the store that succeeds: the event pump pushes every stored event
with the status after it, `Sessions::create` the new session, `Sessions::update_meta` the updated
record. -/
def pushOf (s : Store) : StoreOp → Option Client.Push
  | .createSession id now project agent cwd model title account =>
    (s.createSession id now project agent cwd model title account).map fun r ↦
      .sessionCreated (.decode r.2)
  | .append sessionId now event =>
    (s.append sessionId now event).map fun r ↦ .event (.decode r.2.2) (.decode r.2.1)
  | .updateSessionMeta id patch =>
    match s.updateSessionMeta id patch with
    | .ok (some (_, record)) => some (.sessionUpdated (.decode record))
    | _ => none

/-- The server's history and the client. -/
structure World where
  history : List StoreOp
  client : Client.State
  /-- Pushes of events made before this point of the history were delivered or lost. -/
  eventPushes : ℕ
  /-- Pushes of metadata changes made before this point of the history were delivered. -/
  metaPushes : ℕ
  /-- The latest point of the history of which the client was given the whole session list. -/
  listed : ℕ

namespace World

/-- The store after the first `m` calls. -/
def storeAt (w : World) (m : ℕ) : Store := .ofHistory (w.history.take m)

/-- The store now. -/
def store (w : World) : Store := .ofHistory w.history

/-- What was pushed for call number `m`. -/
def pushAt (w : World) (m : ℕ) : Option Client.Push :=
  w.history[m]?.bind (pushOf (w.storeAt m))

/-- Give the client an input. -/
def give (w : World) (input : Input) : World :=
  { w with client := (w.client.apply input).1 }

end World

/-- What can happen. -/
inductive Action
  | server (op : StoreOp)
  | pushEvent (m : ℕ)
  | pushMeta (m : ℕ)
  | pushCreated (m : ℕ)
  | list (m : ℕ) (project : Option String)
  | session (m : ℕ) (id : String)
  | events (m : ℕ) (id : String) (after : ℕ)
  /-- An input that says nothing about session records: what the user does in the UI, the state of
  the connection, computers, projects, teams. -/
  | other (input : Input)

/-- One step of the world. -/
inductive Step (w : World) : Action → World → Prop
  | server (op : StoreOp) : Step w (.server op) { w with history := w.history ++ [op] }
  | pushEvent (m : ℕ) {status : Client.SessionStatus} {ev : Client.StoredEvent}
      (horder : w.eventPushes ≤ m) (hpush : w.pushAt m = some (.event status ev)) :
      Step w (.pushEvent m) { w.give (.push (.event status ev)) with eventPushes := m + 1 }
  | pushMeta (m : ℕ) {record : SessionRecord} (horder : w.metaPushes ≤ m)
      (hnext : ∀ k, w.metaPushes ≤ k → k < m → ∀ r, w.pushAt k ≠ some (.sessionUpdated r))
      (hpush : w.pushAt m = some (.sessionUpdated record)) :
      Step w (.pushMeta m) { w.give (.push (.sessionUpdated record)) with metaPushes := m + 1 }
  | pushCreated (m : ℕ) {record : SessionRecord}
      (hpush : w.pushAt m = some (.sessionCreated record)) :
      Step w (.pushCreated m) (w.give (.push (.sessionCreated record)))
  | list (m : ℕ) (project : Option String) (hm : m ≤ w.history.length) :
      Step w (.list m project)
        { w.give (.sessionsLoaded (((w.storeAt m).list project).map .decode)) with
          listed := if project = none then max w.listed m else w.listed }
  | session (m : ℕ) (id : String) {record : Server.SessionRecord} (hm : m ≤ w.history.length)
      (hget : (w.storeAt m).session id = some record) :
      Step w (.session m id) (w.give (.sessionLoaded (.decode record)))
  | events (m : ℕ) (id : String) (after : ℕ) (hm : m ≤ w.history.length) :
      Step w (.events m id after)
        (w.give (.eventsFetched id (((w.storeAt m).eventsAfter id after).map .decode)))
  | other (input : Input) (hinput : ∀ id, input.recordSteps id = []) :
      Step w (.other input) (w.give input)

/-- The system: the client starts with the server. -/
def system : StepSystem World Action where
  init w := w = ⟨[], .new, 0, 0, 0⟩
  step := Step

namespace World

variable {w : World} {id : String}

/-! ### The past does not change -/

theorem storeAt_append (w : World) (op : StoreOp) (hm : m ≤ w.history.length) :
    storeAt { w with history := w.history ++ [op] } m = w.storeAt m := by
  rw [storeAt, storeAt, List.take_append_of_le_length hm]

theorem storeAt_length (w : World) : w.storeAt w.history.length = w.store := by
  rw [storeAt, store, List.take_length]

theorem storeAt_succ {op : StoreOp} (h : w.history[m]? = some op) :
    w.storeAt (m + 1) = (w.storeAt m).step op := by
  rw [storeAt, List.take_add_one, h, Option.toList_some, Store.ofHistory_concat, storeAt]

theorem consistent_storeAt (w : World) (m : ℕ) : (w.storeAt m).Consistent :=
  Store.consistent_ofHistory _

/-- A snapshot's log is the beginning of the log now. -/
theorem log_storeAt (w : World) (m : ℕ) (id : String) :
    (w.storeAt m).log id = (w.store.log id).take ((w.storeAt m).log id).length :=
  List.prefix_iff_eq_take.1 (Store.log_prefix_of_prefix (List.take_prefix _ _) id)

theorem log_storeAt_length_le (w : World) (m : ℕ) (id : String) :
    ((w.storeAt m).log id).length ≤ (w.store.log id).length :=
  (Store.log_prefix_of_prefix (List.take_prefix _ _) id).length_le

/-- The call behind a push. -/
theorem exists_of_pushAt {push : Client.Push} (h : w.pushAt m = some push) :
    ∃ op, w.history[m]? = some op ∧ pushOf (w.storeAt m) op = some push :=
  Option.bind_eq_some_iff.1 h

/-- The list answers with rows of the snapshot, each under its own id. -/
theorem list_record {project : Option String}
    (h : record ∈ ((w.storeAt m).list project).map .decode) :
    ∃ row, (w.storeAt m).session record.id = some row ∧ record = .decode row := by
  obtain ⟨row, hmem, rfl⟩ := List.mem_map.1 h
  obtain ⟨⟨id, hget⟩, -⟩ := (Store.mem_list_iff project row).1 hmem
  have hid : row.id = id := ((w.consistent_storeAt m).rows id row hget).id
  exact ⟨row, by rw [Store.session, SessionRecord.decode, hid, hget], rfl⟩

/-- The push of a new session carries its first row. -/
theorem created_row (h : w.pushAt m = some (.sessionCreated record)) :
    ∃ row, (w.storeAt (m + 1)).session record.id = some row ∧ record = .decode row := by
  obtain ⟨op, hop, hpush⟩ := exists_of_pushAt h
  cases op with
  | append sessionId now event =>
    obtain ⟨r, -, hr⟩ := Option.map_eq_some_iff.1 hpush
    cases hr
  | updateSessionMeta id patch =>
    simp only [pushOf] at hpush
    split at hpush <;> cases hpush
  | createSession id now project agent cwd model title account =>
    obtain ⟨⟨s', row⟩, hcreate, hr⟩ := Option.map_eq_some_iff.1 hpush
    obtain rfl := Client.Push.sessionCreated.inj hr
    refine ⟨row, ?_, rfl⟩
    rw [w.storeAt_succ hop, Server.Store.step, hcreate]
    simp only [Server.Store.createSession] at hcreate
    split at hcreate
    · cases hcreate
    · obtain ⟨rfl, rfl⟩ := Prod.mk.inj (Option.some.inj hcreate)
      simp [Server.Store.session, SessionRecord.decode]

/-- What the client's record of a session becomes. -/
theorem give_sessions (w : World) (input : Input) (id : String) :
    (w.give input).client.sessions[id]? =
      (input.recordSteps id).foldl Client.stepRecord w.client.sessions[id]? :=
  Client.State.apply_sessions ..

end World

end Sync

end Ember
