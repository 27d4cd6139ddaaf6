import Mathlib.Data.Finset.Basic
import Mathlib.Data.List.Basic

/-!
# Which peers may connect

The gate of an accepting side: the peers it admits, and the connections it admitted that are still
open. Every operation holds the gate's lock from beginning to end, so each is one function here. A
connection is the peer it comes from and the number the gate gave it.

A gate carries the reason it exists for: a connection is open only as long as its peer is admitted.
-/

namespace Ember.Transport

variable {π : Type*} [DecidableEq π]

/-- The peer is on the list, or there is no list, and it is not refused. -/
def admits (allowed : Option (Finset π)) (denied : Finset π) (peer : π) : Prop :=
  peer ∉ denied ∧ ∀ a ∈ allowed, peer ∈ a

instance (allowed : Option (Finset π)) (denied : Finset π) (peer : π) :
    Decidable (admits allowed denied peer) := by
  unfold admits
  infer_instance

/-- `PeerGate`. -/
structure PeerGate (π : Type*) [DecidableEq π] where
  /-- `none`: every authenticated peer is admitted. -/
  allowed : Option (Finset π)
  /-- Refused even though the gate is open. -/
  denied : Finset π
  /-- The connections that were admitted and are still open. -/
  live : List (π × ℕ)
  nextId : ℕ
  admitted : ∀ c ∈ live, admits allowed denied c.1

namespace PeerGate

variable {g : PeerGate π} {p q : π}

/-- Whether a peer would be admitted now. -/
def IsAllowed (g : PeerGate π) (peer : π) : Prop := admits g.allowed g.denied peer

instance (g : PeerGate π) (peer : π) : Decidable (g.IsAllowed peer) := by
  unfold IsAllowed
  infer_instance

/-- A gate that admits only `peers`. -/
def allowList (peers : List π) : PeerGate π :=
  ⟨some peers.toFinset, ∅, [], 0, fun _ h ↦ absurd h List.not_mem_nil⟩

/-- A gate that admits every authenticated peer. -/
def «open» : PeerGate π := ⟨none, ∅, [], 0, fun _ h ↦ absurd h List.not_mem_nil⟩

/-- Adds a peer to the list; on an open gate, lifts a refusal. -/
def allow (g : PeerGate π) (peer : π) : PeerGate π where
  allowed := g.allowed.map (insert peer)
  denied := g.denied.erase peer
  live := g.live
  nextId := g.nextId
  admitted c hc := by
    obtain ⟨hdenied, hallowed⟩ := g.admitted c hc
    refine ⟨fun h ↦ hdenied (Finset.mem_of_mem_erase h), fun a ha ↦ ?_⟩
    obtain ⟨b, hb, rfl⟩ := Option.mem_map.1 ha
    exact Finset.mem_insert_of_mem (hallowed b hb)

/-- Takes a peer off the list, on an open gate refuses it, and closes its connections. Also how many
were closed. -/
def revoke (g : PeerGate π) (peer : π) : PeerGate π × ℕ :=
  ({ allowed := g.allowed.map (·.erase peer)
     denied := if g.allowed.isSome then g.denied else insert peer g.denied
     live := g.live.filter (·.1 ≠ peer)
     nextId := g.nextId
     admitted := by
       intro c hc
       obtain ⟨hc, hne⟩ := List.mem_filter.1 hc
       have hne : c.1 ≠ peer := of_decide_eq_true hne
       obtain ⟨hdenied, hallowed⟩ := g.admitted c hc
       refine ⟨?_, fun a ha ↦ ?_⟩
       · split
         · exact hdenied
         · exact fun h ↦ (Finset.mem_insert.1 h).elim hne hdenied
       · obtain ⟨b, hb, rfl⟩ := Option.mem_map.1 ha
         exact Finset.mem_erase.2 ⟨hne, hallowed b hb⟩ },
    (g.live.filter (·.1 = peer)).length)

/-- Replaces the list, and closes the connections of peers that are not on it. Also how many were
closed. -/
def setAllowed (g : PeerGate π) (peers : List π) : PeerGate π × ℕ :=
  ({ allowed := some peers.toFinset
     denied := ∅
     live := g.live.filter (·.1 ∈ peers)
     nextId := g.nextId
     admitted := by
       intro c hc
       have hmem : c.1 ∈ peers := of_decide_eq_true (List.mem_filter.1 hc).2
       refine ⟨Finset.notMem_empty _, fun a ha ↦ ?_⟩
       obtain rfl := Option.some.inj ha
       exact List.mem_toFinset.2 hmem },
    (g.live.filter (·.1 ∉ peers)).length)

/-- `admit`: takes in a connection, or refuses it. -/
def admitConnection (g : PeerGate π) (peer : π) : PeerGate π × Option (π × ℕ) :=
  if h : g.IsAllowed peer then
    ({ allowed := g.allowed
       denied := g.denied
       live := g.live ++ [(peer, g.nextId)]
       nextId := g.nextId + 1
       admitted := by
         intro c hc
         rcases List.mem_append.1 hc with hc | hc
         · exact g.admitted c hc
         · exact List.mem_singleton.1 hc ▸ h },
      some (peer, g.nextId))
  else ({ g with nextId := g.nextId + 1 }, none)

/-- A connection has ended. -/
def closed (g : PeerGate π) (c : π × ℕ) : PeerGate π :=
  { g with
    live := g.live.filter (· ≠ c)
    admitted := fun d hd ↦ g.admitted d (List.mem_filter.1 hd).1 }

/-- How many connections of a peer are open. -/
def liveConnections (g : PeerGate π) (peer : π) : ℕ := (g.live.filter (·.1 = peer)).length

/-! ### Whom the gate admits after an operation -/

theorem isAllowed_allow : (g.allow p).IsAllowed q ↔ q = p ∨ g.IsAllowed q := by
  by_cases hq : q = p
  · subst hq
    refine ⟨fun _ ↦ .inl rfl, fun _ ↦ ⟨Finset.notMem_erase q _, fun a ha ↦ ?_⟩⟩
    obtain ⟨b, -, rfl⟩ := Option.mem_map.1 ha
    exact Finset.mem_insert_self q b
  · simp only [IsAllowed, admits, allow, Option.mem_def, Option.map_eq_some_iff, Finset.mem_erase,
      ne_eq, hq, not_false_eq_true, true_and, forall_exists_index, and_imp, forall_apply_eq_imp_iff₂,
      Finset.mem_insert, false_or]

theorem isAllowed_revoke : (g.revoke p).1.IsAllowed q ↔ q ≠ p ∧ g.IsAllowed q := by
  by_cases hq : q = p
  · subst hq
    refine ⟨fun h ↦ ?_, fun h ↦ absurd rfl h.1⟩
    obtain ⟨hdenied, hallowed⟩ := h
    cases ha : g.allowed with
    | none =>
      simp only [revoke, ha, Option.isSome_none] at hdenied
      exact absurd (Finset.mem_insert_self q _) hdenied
    | some a =>
      have hmem := hallowed (a.erase q) (Option.mem_map.2 ⟨a, ha, rfl⟩)
      exact absurd hmem (Finset.notMem_erase q a)
  · simp only [IsAllowed, admits, revoke, Option.mem_def, Option.map_eq_some_iff, ne_eq, hq,
      not_false_eq_true, true_and, forall_exists_index, and_imp, forall_apply_eq_imp_iff₂,
      Finset.mem_erase]
    refine and_congr_left fun _ ↦ not_congr ?_
    split
    · rfl
    · rw [Finset.mem_insert, or_iff_right hq]

theorem isAllowed_setAllowed {peers : List π} :
    (g.setAllowed peers).1.IsAllowed q ↔ q ∈ peers := by
  refine ⟨fun h ↦ List.mem_toFinset.1 (h.2 _ rfl), fun h ↦ ⟨Finset.notMem_empty q, fun a ha ↦ ?_⟩⟩
  obtain rfl := Option.some.inj ha
  exact List.mem_toFinset.2 h

theorem isAllowed_admitConnection : (g.admitConnection p).1.IsAllowed q ↔ g.IsAllowed q := by
  unfold admitConnection
  split <;> rfl

theorem isAllowed_allowList {peers : List π} : (allowList peers).IsAllowed q ↔ q ∈ peers :=
  isAllowed_setAllowed (g := «open»)

/-- An open connection's peer is admitted. -/
theorem isAllowed_of_mem {c : π × ℕ} (hc : c ∈ g.live) : g.IsAllowed c.1 := g.admitted c hc

end PeerGate

end Ember.Transport
