import Ember.Basic
import Ember.Foundation.Calls
import Ember.Transport.Gate
import Mathlib.Data.List.Sort
import Mathlib.Data.String.Basic
import Mathlib.Tactic.IntervalCases

/-!
# Devices allowed to reach the server

The `devices` table and the gate it feeds. Adding, removing and syncing with the hub each change the
table and then tell the gate, one statement and one gate call after the other, and nothing keeps two
of them apart: so each is a call in progress here, and a sync works from the table as it was when
the sync began.

What a call owes is to tell the gate about the device it last wrote; `gate_agrees` is what follows
when no call tells the gate what is no longer so. The errors and reports that the calls return are
left out.
-/

namespace Ember.Server

open Ember.Transport StepSystem

/-- Where a row of the table came from. -/
inductive DeviceSource
  /-- Added by hand. -/
  | «local»
  /-- Synced from the hub account. -/
  | hub
  deriving DecidableEq, Repr

/-- `Device`. -/
structure Device (π : Type*) where
  peerId : π
  name : String
  createdAt : ℤ
  source : DeviceSource
  deriving DecidableEq

/-- The `devices` table: one row for a peer. -/
structure DeviceTable (π : Type*) where
  rows : List (Device π)
  nodup : (rows.map Device.peerId).Nodup

variable {π : Type*}

variable {name : String}

namespace DeviceTable

variable {t : DeviceTable π} {p q : π}

/-- The table has a row for the peer. -/
def Has (t : DeviceTable π) (peer : π) : Prop := peer ∈ t.rows.map Device.peerId

/-- `Devices::list`: the oldest row first. -/
def list (t : DeviceTable π) : List (Device π) :=
  t.rows.insertionSort fun a b ↦
    a.createdAt < b.createdAt ∨ a.createdAt = b.createdAt ∧ a.name ≤ b.name

theorem mem_list {d : Device π} : d ∈ t.list ↔ d ∈ t.rows := List.mem_insertionSort _

/-- `UPDATE devices SET ...`: rows change, and keep their peer. -/
def update (t : DeviceTable π) (f : Device π → Device π) (hf : ∀ d, (f d).peerId = d.peerId) :
    DeviceTable π where
  rows := t.rows.map f
  nodup := by
    have heq : Device.peerId ∘ f = Device.peerId := funext hf
    rw [List.map_map, heq]
    exact t.nodup

/-- `DELETE FROM devices WHERE ...`. -/
def delete (t : DeviceTable π) (gone : Device π → Bool) : DeviceTable π where
  rows := t.rows.filter (!gone ·)
  nodup := t.nodup.sublist (List.filter_sublist.map _)

variable [DecidableEq π]

instance (t : DeviceTable π) (peer : π) : Decidable (t.Has peer) := by
  unfold Has
  infer_instance

/-- `INSERT INTO devices ... ON CONFLICT(peer_id) DO ...`, with what to do on a conflict. -/
def insert (t : DeviceTable π) (d : Device π) (conflict : DeviceTable π) : DeviceTable π :=
  if h : t.Has d.peerId then conflict
  else
    { rows := t.rows ++ [d]
      nodup := by
        rw [List.map_append, List.nodup_append]
        refine ⟨t.nodup, List.nodup_singleton _, fun a ha b hb heq ↦ h ?_⟩
        obtain rfl := List.mem_singleton.1 hb
        exact heq ▸ ha }

/-- The row `Devices::add` writes: an existing one gets the name, and is a hand-added row from then
on. -/
def add (t : DeviceTable π) (peer : π) (name : String) (now : ℤ) : DeviceTable π :=
  t.insert ⟨peer, name, now, .local⟩
    (t.update (fun d ↦ if d.peerId = peer then { d with name, source := .local } else d)
      fun d ↦ by split <;> rfl)

/-- The row a sync writes for a device that is new to it. -/
def addFromHub (t : DeviceTable π) (peer : π) (name : String) (now : ℤ) : DeviceTable π :=
  t.insert ⟨peer, name, now, .hub⟩ t

/-- A sync gives a `hub` row another name. -/
def rename (t : DeviceTable π) (peer : π) (name : String) : DeviceTable π :=
  t.update (fun d ↦ if d.peerId = peer ∧ d.source = .hub then { d with name } else d)
    fun d ↦ by split <;> rfl

/-- The row goes, whatever it came from. -/
def remove (t : DeviceTable π) (peer : π) : DeviceTable π := t.delete (·.peerId = peer)

/-- The row goes if a sync made it. -/
def removeFromHub (t : DeviceTable π) (peer : π) : DeviceTable π :=
  t.delete fun d ↦ d.peerId = peer ∧ d.source = .hub

/-! ### Which rows there are after a statement -/

omit [DecidableEq π] in
theorem has_update {f : Device π → Device π} {hf : ∀ d, (f d).peerId = d.peerId} :
    (t.update f hf).Has q ↔ t.Has q := by
  have heq : Device.peerId ∘ f = Device.peerId := funext hf
  rw [Has, Has, update, List.map_map, heq]

theorem has_rename : (t.rename p name).Has q ↔ t.Has q := has_update

theorem has_insert_of_ne {d : Device π} {c : DeviceTable π} (hc : c.Has q ↔ t.Has q)
    (hq : q ≠ d.peerId) : (t.insert d c).Has q ↔ t.Has q := by
  unfold insert
  split
  · exact hc
  · simp only [Has, List.map_append, List.mem_append, List.map_cons, List.map_nil,
      List.mem_singleton, hq, or_false]

theorem has_add_of_ne {now : ℤ} (hq : q ≠ p) :
    (t.add p name now).Has q ↔ t.Has q := has_insert_of_ne has_update hq

theorem has_addFromHub_of_ne {now : ℤ} (hq : q ≠ p) :
    (t.addFromHub p name now).Has q ↔ t.Has q := has_insert_of_ne Iff.rfl hq

omit [DecidableEq π] in
theorem has_delete_of_ne {gone : Device π → Bool} (hgone : ∀ d, gone d → d.peerId = p)
    (hq : q ≠ p) : (t.delete gone).Has q ↔ t.Has q := by
  simp only [Has, delete, List.mem_map, List.mem_filter]
  refine ⟨fun ⟨d, hd, heq⟩ ↦ ⟨d, hd.1, heq⟩, fun ⟨d, hd, heq⟩ ↦ ⟨d, ⟨hd, ?_⟩, heq⟩⟩
  cases hg : gone d with
  | false => rfl
  | true => exact absurd (heq.symm.trans (hgone d hg)) hq

theorem has_remove_of_ne (hq : q ≠ p) : (t.remove p).Has q ↔ t.Has q :=
  has_delete_of_ne (fun _ h ↦ of_decide_eq_true h) hq

theorem has_removeFromHub_of_ne (hq : q ≠ p) : (t.removeFromHub p).Has q ↔ t.Has q :=
  has_delete_of_ne (fun _ h ↦ (of_decide_eq_true h).1) hq

end DeviceTable

/-- `Devices`: the table, and the gate it feeds. -/
structure Devices (π : Type*) [DecidableEq π] where
  store : DeviceTable π
  gate : PeerGate π

namespace Devices

variable [DecidableEq π]

/-- Loads the table into a new gate. -/
def «open» (store : DeviceTable π) : Devices π :=
  ⟨store, ((PeerGate.allowList []).setAllowed (store.list.map Device.peerId)).1⟩

/-- The calls that change devices. -/
inductive Call (π : Type*)
  | add (peer : π) (name : String)
  | remove (peer : π)
  | syncFromHub (listed : List (π × String))
  deriving DecidableEq

/-- Where a sync stands: its first loop, with the table as it read it and what of the hub's list is
left, or its second, with the peers it has yet to take out. -/
inductive Sync (π : Type*)
  | listing (current : List (Device π)) (listed todo : List (π × String))
  | dropping (todo : List π)
  deriving DecidableEq

/-- What is left of a call. -/
inductive Todo (π : Type*)
  | call (c : Call π)
  /-- It wrote the table, and tells the gate to admit the peer or not to; after that a sync goes on. -/
  | tell (peer : π) (admitted : Bool) (rest : Option (Sync π))
  | sync (s : Sync π)
  deriving DecidableEq

/-- What a step finds out: the time, and whether a statement succeeds. -/
structure Found where
  now : ℤ
  ok : Bool
  deriving DecidableEq

/-- What happens besides the calls. -/
inductive Event (π : Type*)
  /-- A peer connects. -/
  | connect (peer : π)
  /-- A connection ends. -/
  | closed (c : π × ℕ)
  deriving DecidableEq

/-- A statement: the call is over if it fails. -/
def execute (s : Devices π) (d : Found) (store : DeviceTable π) (todo : Option (Todo π)) :
    Devices π × Option (Todo π) :=
  if d.ok then ({ s with store }, todo) else (s, none)

/-- The name a sync gives a device. -/
def hubName (name : String) : String := if trim name = "" then "hub device" else trim name

/-- The peers of `hub` rows that the hub no longer lists. -/
def unlisted (current : List (Device π)) (listed : List (π × String)) : List π :=
  ((current.filter (·.source = .hub)).map Device.peerId).filter fun p ↦
    p ∉ listed.map Prod.fst

/-- One turn of a sync's loops, up to the gate call. -/
def syncStep (s : Devices π) (d : Found) : Sync π → Devices π × Option (Todo π)
  | .listing current listed [] => (s, some (.sync (.dropping (unlisted current listed))))
  | .listing current listed ((peer, name) :: todo) =>
    let rest := Sync.listing current listed todo
    match current.find? (·.peerId = peer) with
    | some device =>
      if device.source ≠ .hub ∨ device.name = hubName name then (s, some (.sync rest))
      else s.execute d (s.store.rename peer (hubName name)) (some (.sync rest))
    | none =>
      s.execute d (s.store.addFromHub peer (hubName name) d.now) (some (.tell peer true (some rest)))
  | .dropping [] => (s, none)
  | .dropping (peer :: todo) =>
    s.execute d (s.store.removeFromHub peer) (some (.tell peer false (some (.dropping todo))))

/-- One step of a call. -/
def step (s : Devices π) (todo : Todo π) (d : Found) : Devices π × Option (Todo π) :=
  match todo with
  | .call (.add peer name) =>
    -- A name of blanks is refused.
    if trim name = "" then (s, none)
    else s.execute d (s.store.add peer (trim name) d.now) (some (.tell peer true none))
  | .call (.remove peer) =>
    -- The gate is told even if there was no row.
    s.execute d (s.store.remove peer) (some (.tell peer false none))
  | .call (.syncFromHub listed) =>
    if d.ok then (s, some (.sync (.listing s.store.list listed listed))) else (s, none)
  | .tell peer admitted rest =>
    ({ s with gate := if admitted then s.gate.allow peer else (s.gate.revoke peer).1 },
      rest.map .sync)
  | .sync sync => s.syncStep d sync

/-- What happens besides the calls. -/
def happen (s : Devices π) : Event π → Devices π
  | .connect peer => { s with gate := (s.gate.admitConnection peer).1 }
  | .closed c => { s with gate := s.gate.closed c }

/-- The calls that change devices, and the connections that come and go. -/
def program : Program (Devices π) (Call π) (Todo π) Found (Event π) where
  enter := .call
  step := step
  env := happen

/-- The call is about to tell the gate about the peer. -/
def Todo.Tells (todo : Todo π) (peer : π) : Prop := ∃ b rest, todo = .tell peer b rest

/-- The gate is right about a peer. -/
def Agrees (s : Devices π) (peer : π) : Prop := s.gate.IsAllowed peer ↔ s.store.Has peer

/-- **A call tells the gate what is so**: when it tells the gate to admit a peer the table has a row
for it, and when it tells the gate to refuse one the table has none; or another call that wrote the
table about this peer has yet to tell the gate. -/
def Fair (w : Calls (Devices π) (Todo π)) : CallAct (Call π) Found (Event π) → Prop
  | .step i _ =>
    match w.call i with
    | some (.tell peer admitted _) =>
      (w.shared.store.Has peer ↔ admitted = true) ∨ w.Another i (Todo.Tells · peer)
    | _ => True
  | _ => True

variable {s : Devices π} {p q : π} {d : Found}

/-! ### What a step does -/

theorem agrees_open (t : DeviceTable π) (p : π) : («open» t).Agrees p := by
  unfold Agrees «open» DeviceTable.Has
  rw [PeerGate.isAllowed_setAllowed, List.mem_map, List.mem_map]
  simp only [DeviceTable.mem_list]

theorem agrees_happen (e : Event π) : (s.happen e).Agrees p ↔ s.Agrees p := by
  cases e with
  | connect peer => exact iff_congr PeerGate.isAllowed_admitConnection Iff.rfl
  | closed c => rfl

/-- A step that does not tell the gate leaves it alone, and every row it may have made or taken away
it tells the gate of next. -/
structure Writes (s : Devices π) (p : π) (r : Devices π × Option (Todo π)) : Prop where
  gate : r.1.gate = s.gate
  store : (r.1.store.Has p ↔ s.store.Has p) ∨ ∃ todo ∈ r.2, todo.Tells p

theorem writes_self (todo : Option (Todo π)) : s.Writes p (s, todo) := ⟨rfl, .inl Iff.rfl⟩

theorem writes_execute {store : DeviceTable π} {todo : Option (Todo π)}
    (h : (store.Has p ↔ s.store.Has p) ∨ ∃ x ∈ todo, x.Tells p) :
    s.Writes p (s.execute d store todo) := by
  unfold execute
  split
  · exact ⟨rfl, h⟩
  · exact writes_self none

theorem writes_execute_tell {store : DeviceTable π} {b : Bool} {rest : Option (Sync π)}
    (h : p ≠ q → (store.Has p ↔ s.store.Has p)) :
    s.Writes p (s.execute d store (some (.tell q b rest))) := by
  refine writes_execute ?_
  by_cases hpq : p = q
  · exact .inr ⟨_, rfl, b, rest, hpq ▸ rfl⟩
  · exact .inl (h hpq)

theorem writes_syncStep (sync : Sync π) : s.Writes p (s.syncStep d sync) := by
  cases sync with
  | listing current listed todo =>
    cases todo with
    | nil => exact writes_self _
    | cons head todo =>
      obtain ⟨peer, name⟩ := head
      simp only [syncStep]
      split
      · split
        · exact writes_self _
        · exact writes_execute (.inl DeviceTable.has_rename)
      · exact writes_execute_tell DeviceTable.has_addFromHub_of_ne
  | dropping todo =>
    cases todo with
    | nil => exact writes_self _
    | cons peer todo => exact writes_execute_tell DeviceTable.has_removeFromHub_of_ne

theorem writes_step {todo : Todo π} (h : ∀ q b rest, todo ≠ .tell q b rest) :
    s.Writes p (s.step todo d) := by
  cases todo with
  | call c =>
    cases c with
    | add peer name =>
      simp only [step]
      split
      · exact writes_self _
      · exact writes_execute_tell DeviceTable.has_add_of_ne
    | remove peer => exact writes_execute_tell DeviceTable.has_remove_of_ne
    | syncFromHub listed =>
      simp only [step]
      split <;> exact writes_self _
  | tell q b rest => exact absurd rfl (h q b rest)
  | sync sync => exact writes_syncStep sync

theorem isAllowed_tell {b : Bool} {rest : Option (Sync π)} :
    (s.step (.tell q b rest) d).1.gate.IsAllowed p ↔
      if p = q then b = true else s.gate.IsAllowed p := by
  by_cases hpq : p = q <;> cases b <;>
    simp [step, hpq, PeerGate.isAllowed_allow, PeerGate.isAllowed_revoke]

/-- Whatever the gate is wrong about is owed by a call in progress. -/
theorem tells_of_run {t : DeviceTable π} {w : Calls (Devices π) (Todo π)}
    (h : ((Calls.system program («open» t)).restrict Fair).Reachable w)
    (hp : ¬ w.shared.Agrees p) : ∃ i todo, w.call i = some todo ∧ todo.Tells p := by
  refine Calls.owed_of_run (P := program) (W := fun s p ↦ ¬ s.Agrees p) (O := Todo.Tells)
    (fun p ↦ not_not_intro (agrees_open t p)) (fun w e p _ hwrong ↦ ?_)
    (fun w i d todo p _ hfair htodo hwrong ↦ ?_) h hp
  · exact mt (agrees_happen e).2 hwrong
  by_cases htell : ∃ q b rest, todo = .tell q b rest
  case neg =>
    have hnot : ∀ q b rest, todo ≠ .tell q b rest := fun q b rest heq ↦ htell ⟨q, b, rest, heq⟩
    have hwrites := writes_step (s := w.shared) (p := p) (d := d) hnot
    rcases hwrites.store with hstore | htells
    · refine .inl ⟨fun hagrees ↦ hwrong ?_, fun ⟨b, rest, heq⟩ ↦ hnot p b rest heq⟩
      show (w.shared.step todo d).1.gate.IsAllowed p ↔ (w.shared.step todo d).1.store.Has p
      rw [hwrites.gate, hstore]
      exact hagrees
    · exact .inr (.inl htells)
  case pos =>
    obtain ⟨q, b, rest, rfl⟩ := htell
    simp only [Fair, htodo] at hfair
    have hwrong : ¬ ((w.shared.step (.tell q b rest) d).1.gate.IsAllowed p ↔
      w.shared.store.Has p) := hwrong
    rw [isAllowed_tell] at hwrong
    by_cases hpq : p = q
    · subst hpq
      rw [if_pos rfl] at hwrong
      exact .inr (.inr (hfair.resolve_left fun h ↦ hwrong h.symm))
    · rw [if_neg hpq] at hwrong
      refine .inl ⟨hwrong, fun ⟨b, rest, heq⟩ ↦ hpq ?_⟩
      cases heq
      rfl

/-- **The gate admits the devices of the table** when no call is in progress, and every open
connection is of such a device; so it takes in no removed device, and every hand-added one. -/
theorem gate_agrees (t : DeviceTable π) (w : Calls (Devices π) (Todo π))
    (h : ((Calls.system program («open» t)).restrict Fair).Reachable w) (hquiet : w.Quiet) :
    (∀ p, w.shared.gate.IsAllowed p ↔ w.shared.store.Has p) ∧
    (∀ c ∈ w.shared.gate.live, w.shared.store.Has c.1) ∧
    (∀ p, ¬ w.shared.store.Has p → (w.shared.gate.admitConnection p).2 = none) ∧
    ∀ d ∈ w.shared.store.rows, d.source = .local →
      (w.shared.gate.admitConnection d.peerId).2.isSome := by
  have hagrees : ∀ p, w.shared.gate.IsAllowed p ↔ w.shared.store.Has p := fun p ↦
    by_contra fun hp ↦ hquiet.not_owed (tells_of_run h hp)
  refine ⟨hagrees, fun c hc ↦ (hagrees _).1 (PeerGate.isAllowed_of_mem hc), fun p hp ↦ ?_,
    fun d hd _ ↦ ?_⟩
  · rw [PeerGate.admitConnection, dif_neg (mt (hagrees p).1 hp)]
  · rw [PeerGate.admitConnection, dif_pos ((hagrees _).2 (List.mem_map_of_mem hd))]
    rfl

/-! ### Runs -/

/-- A table without rows. -/
def blank : DeviceTable ℕ := ⟨[], List.nodup_nil⟩

/-- A table with one row, that a sync made. -/
def synced : DeviceTable ℕ := ⟨[⟨1, "phone", 0, .hub⟩], List.nodup_singleton 1⟩

/-- A statement succeeds. -/
def succeeds : Found := ⟨0, true⟩

/-- Peer 1 is added and connects; then a sync adds peer 2. -/
def addThenSync : List (CallAct (Call ℕ) Found (Event ℕ)) :=
  [.start 0 (.add 1 "phone"), .step 0 succeeds, .step 0 succeeds, .env (.connect 1),
    .start 1 (.syncFromHub [(2, "laptop")]), .step 1 succeeds, .step 1 succeeds, .step 1 succeeds,
    .step 1 succeeds, .step 1 succeeds]

theorem gate_agrees_addThenSync :
    (addThenSync.foldl (Calls.act program) (.idle («open» blank))).shared.gate.IsAllowed 2 ∧
    (addThenSync.foldl (Calls.act program) (.idle («open» blank))).shared.gate.live = [(1, 0)] := by
  have hquiet : (addThenSync.foldl (Calls.act program) (.idle («open» blank))).Quiet :=
    Calls.quiet_foldl 2 rfl fun i hi ↦ by
      interval_cases i <;> rfl
  have hmeet : AllMeet (Calls.act program) Fair (.idle («open» blank)) addThenSync :=
    ⟨trivial, trivial, .inl ⟨fun _ ↦ rfl, fun _ ↦ by decide⟩, trivial, trivial, trivial, trivial,
      .inl ⟨fun _ ↦ rfl, fun _ ↦ by decide⟩, trivial, trivial, trivial⟩
  have hreach := StepSystem.Reachable.foldl_of_allMeet (S := Calls.system program («open» blank))
    (fun _ _ ↦ rfl) (.start rfl) hmeet
  exact ⟨((gate_agrees blank _ hreach hquiet).1 2).2 (by decide), rfl⟩

/-- Peer 1 is added, and removed before the gate is told of it. -/
def removeWhileAdding : List (CallAct (Call ℕ) Found (Event ℕ)) :=
  [.start 0 (.add 1 "phone"), .step 0 succeeds, .start 1 (.remove 1), .step 1 succeeds,
    .step 1 succeeds, .step 0 succeeds]

/-- A sync finds that peer 1 is no longer listed; before it takes it out, someone adds it by hand. -/
def addWhileSyncing : List (CallAct (Call ℕ) Found (Event ℕ)) :=
  [.start 0 (.syncFromHub []), .step 0 succeeds, .step 0 succeeds, .start 1 (.add 1 "phone"),
    .step 1 succeeds, .step 1 succeeds, .step 0 succeeds, .step 0 succeeds, .step 0 succeeds]

/-- Neither holds in every run: the gate admits a device that was removed, or refuses one that was
added by hand. -/
theorem not_gate_agrees :
    (¬ ∀ w, (Calls.system program («open» blank)).Reachable w → w.Quiet →
      ∀ p, w.shared.gate.IsAllowed p ↔ w.shared.store.Has p) ∧
    ¬ ∀ w, (Calls.system program («open» synced)).Reachable w → w.Quiet →
      ∀ p, w.shared.gate.IsAllowed p ↔ w.shared.store.Has p := by
  constructor
  · intro h
    have hagrees := h _ (reachable_foldl removeWhileAdding)
      (Calls.quiet_foldl 2 rfl fun i hi ↦ by interval_cases i <;> rfl) 1
    exact absurd (hagrees.1 (by decide)) (by decide)
  · intro h
    have hagrees := h _ (reachable_foldl addWhileSyncing)
      (Calls.quiet_foldl 2 rfl fun i hi ↦ by interval_cases i <;> rfl) 1
    exact absurd (hagrees.2 (by decide)) (by decide)

end Devices

end Ember.Server
