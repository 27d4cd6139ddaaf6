import Ember.Server.A2a.Turns

/-!
# What delivery promises

Of every run, whatever is done in it, `Hub.ledger_of_reachable` already says that no message is
given twice and that the marks are exact. That messages go in by time and between turns needs the
condition `Hub.Quiet` on the steps; without it a message can reach an agent during a turn.
-/

namespace Ember.Server

namespace Hub

/-- What delivery to a session promises. -/
structure Delivers (h : Hub) (t : String) : Prop where
  /-- Its agent was given messages to it only. -/
  addressed : ∀ r ∈ (h.sessions t).taken,
    ∃ r' ∈ h.a2a.messages, r'.message.toSession = t ∧ r'.undelivered = r
  /-- No message was given twice. -/
  once : ((h.sessions t).taken.map fun r ↦ r.message.id).Nodup
  /-- The messages went in by `(created_at, rowid)`. -/
  inOrder : (h.sessions t).taken.Pairwise fun a b ↦ a.key < b.key
  /-- A flush about to hand over finds no turn running. -/
  betweenTurns : ∀ before batch text, (h.sessions t).phase = .queued before batch text →
    (h.sessions t).turn = none
  /-- What was given is what is marked, and the batch the lock's holder is about to mark. -/
  marks : ∀ r, r ∈ (h.sessions t).taken ↔ r ∈ h.a2a.delivered t ∨ r ∈ (h.sessions t).phase.unmarked
  /-- Nothing that was given is pending, but for that batch. -/
  notAgain : ∀ r ∈ (h.sessions t).taken, r ∈ h.a2a.pendingFor t →
    r ∈ (h.sessions t).phase.unmarked

/-- In every run, the rows an agent took have different ids. -/
theorem Ledger.nodup_ids {h : Hub} (hl : h.Ledger) (t : String) :
    ((h.sessions t).taken.map fun r ↦ r.message.id).Nodup := by
  refine ((List.nodup_append.1 (hl.live t).once).1).map_on fun a ha b hb hid ↦ ?_
  obtain ⟨a', ha', -, rfl⟩ := hl.row (List.mem_append_left _ ha)
  obtain ⟨b', hb', -, rfl⟩ := hl.row (List.mem_append_left _ hb)
  rw [List.inj_on_of_nodup_map hl.valid.ids ha' hb' hid]

end Hub

end Ember.Server
