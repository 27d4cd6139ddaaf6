import Ember.EditorConn.Protocol
import Ember.Foundation.Runs

/-!
# The queue and the acknowledgements

The queue of messages that the peer has not acknowledged is trimmed by one loop, and the
acknowledgement counter moves by itself. They agree as long as the peer acknowledges only what was
sent: any other acknowledgement moves the counter past the last message.
-/

namespace Ember.EditorConn

namespace PersistentProtocol

/-- `unacknowledged_count`, a difference of two `u32`. -/
def unacknowledgedCount (p : PersistentProtocol) : ℕ :=
  wrap32 (p.outgoingMsgId + 2 ^ 32 - p.outgoingAckId)

/-- What can happen to an endpoint: the methods called by its owner, and the frames that arrive,
which may carry anything. -/
inductive Op
  | send (data : Data) (now : Instant)
  | sendControl (data : Data)
  | sendDisconnect
  | receive (frame : Frame) (now : Instant)
  | tick (now : Instant)
  | keepAlive
  | beginReconnect (now : Instant)
  | endReconnect (now : Instant)
  deriving DecidableEq, Repr

/-- One operation. -/
def step (p : PersistentProtocol) : Op → PersistentProtocol
  | .send data now => (p.send data now).1
  | .sendControl data => (p.sendControl data).1
  | .sendDisconnect => p.sendDisconnect.1
  | .receive frame now => (p.receive frame now).1
  | .tick now => (p.tick now).1
  | .keepAlive => p.keepAlive.1
  | .beginReconnect now => p.beginReconnect now
  | .endReconnect now => (p.endReconnect now).1

/-- The runs of an endpoint. -/
def system (now : Instant) : StepSystem PersistentProtocol Op := .ofFun (new now) step

/-- The ids in the queue. -/
def queuedIds (p : PersistentProtocol) : List ℕ := (p.unacked.map Unacked.frame).map Frame.id

/-- The queue holds exactly the messages that were sent and not acknowledged, in order. -/
structure Exact (p : PersistentProtocol) : Prop where
  acked_le : p.outgoingAckId ≤ p.outgoingMsgId
  queuedIds_eq : p.queuedIds = List.range' (p.outgoingAckId + 1) (p.outgoingMsgId - p.outgoingAckId)
  lt : p.outgoingMsgId < 2 ^ 32

variable {p q : PersistentProtocol}

/-- The count is the length of the queue. -/
theorem Exact.unacknowledgedCount_eq (h : p.Exact) : p.unacknowledgedCount = p.unacked.length := by
  have hlen := congrArg List.length h.queuedIds_eq
  rw [queuedIds, List.length_map, List.length_map, List.length_range'] at hlen
  have hle := h.acked_le
  have hlt := h.lt
  show (p.outgoingMsgId + 2 ^ 32 - p.outgoingAckId) % 2 ^ 32 = _
  rw [hlen]
  omega

/-- Whether the queue is exact follows from the counters and the queued frames. -/
theorem exact_congr (hmsg : q.outgoingMsgId = p.outgoingMsgId)
    (hack : q.outgoingAckId = p.outgoingAckId)
    (hframes : q.unacked.map Unacked.frame = p.unacked.map Unacked.frame) :
    q.Exact ↔ p.Exact := by
  have hids : q.queuedIds = p.queuedIds := congrArg (List.map Frame.id) hframes
  constructor
  · rintro ⟨h₁, h₂, h₃⟩
    exact ⟨by omega, by rw [← hids, h₂, hmsg, hack], by omega⟩
  · rintro ⟨h₁, h₂, h₃⟩
    exact ⟨by omega, by rw [hids, h₂, hmsg, hack], by omega⟩

theorem Quiet.exact_iff {out : List Frame} (h : Quiet p q out) : q.Exact ↔ p.Exact :=
  exact_congr h.outgoingMsgId h.outgoingAckId h.frames

/-- Dropping from consecutive numbers what is at most `ack`. -/
theorem dropWhile_range' {a ack n : ℕ} (hle : a ≤ ack) (hack : ack ≤ a + n) :
    (List.range' (a + 1) n).dropWhile (fun i ↦ decide (i ≤ ack)) =
      List.range' (ack + 1) (a + n - ack) := by
  induction n generalizing a with
  | zero =>
    obtain rfl : a = ack := by omega
    rw [show a + 0 - a = 0 by omega]
    rfl
  | succ n ih =>
    rw [List.range'_succ]
    rcases Nat.lt_or_eq_of_le hle with hlt | rfl
    · have hpos : decide (a + 1 ≤ ack) = true := decide_eq_true hlt
      rw [List.dropWhile_cons, if_pos hpos, ih (by omega) (by omega)]
      congr 1
      omega
    · rw [List.dropWhile_cons, if_neg (by simp), ← List.range'_succ]
      congr 1
      omega

/-- The messages that an acknowledgement leaves in the queue. -/
theorem Exact.trim_iff (h : p.Exact) (ack : ℕ) :
    (p.trim ack).Exact ↔ ack ≤ p.outgoingMsgId := by
  unfold trim
  split
  · next hlt =>
    constructor
    · exact fun h' ↦ h'.acked_le
    · intro hle
      refine ⟨hle, ?_, h.lt⟩
      have hmap : ((p.unacked.dropWhile fun u ↦ decide (u.frame.id ≤ ack)).map Unacked.frame).map
          Frame.id = p.queuedIds.dropWhile fun i ↦ decide (i ≤ ack) := by
        rw [queuedIds, List.dropWhile_map, List.dropWhile_map]
        rfl
      show ((p.unacked.dropWhile fun u ↦ decide (u.frame.id ≤ ack)).map Unacked.frame).map
        Frame.id = _
      rw [hmap, h.queuedIds_eq, dropWhile_range' (by omega) (by omega)]
      congr 1
      have := h.acked_le
      show _ = p.outgoingMsgId - ack
      omega
  · next hle =>
    have := h.acked_le
    exact ⟨fun _ ↦ by omega, fun _ ↦ h⟩

theorem receive_exact_iff (f : Frame) (now : Instant) :
    (p.receive f now).1.Exact ↔ (p.trim f.ack).Exact := by
  rcases p.receive_cases f now with ⟨hquiet, -⟩ | ⟨-, -, -, -, hmsg, hack, hunacked, -⟩
  · exact hquiet.exact_iff
  · exact exact_congr hmsg hack (congrArg _ hunacked)

/-- A message joins the queue, unless the counter of the messages wraps. -/
theorem Exact.send_iff (h : p.Exact) (data : Data) (now : Instant) :
    (p.send data now).1.Exact ↔ p.outgoingMsgId + 1 < 2 ^ 32 := by
  have hsend : (p.send data now).1.outgoingMsgId = wrap32 (p.outgoingMsgId + 1) ∧
      (p.send data now).1.outgoingAckId = p.outgoingAckId ∧
      (p.send data now).1.queuedIds = p.queuedIds ++ [wrap32 (p.outgoingMsgId + 1)] := by
    unfold send
    dsimp only
    split
    · exact ⟨rfl, rfl, by rw [queuedIds, List.map_append, List.map_append]; rfl⟩
    · rw [(emit_eq _ _ _).1]
      exact ⟨rfl, rfl, by rw [queuedIds, List.map_append, List.map_append]; rfl⟩
  obtain ⟨hmsg, hack, hids⟩ := hsend
  have hle := h.acked_le
  have hlt := h.lt
  by_cases hwrap : p.outgoingMsgId + 1 < 2 ^ 32
  · rw [wrap32_of_lt hwrap] at hmsg hids
    refine iff_of_true ⟨by omega, ?_, by omega⟩ hwrap
    rw [hids, h.queuedIds_eq, hmsg, hack,
      show p.outgoingMsgId + 1 - p.outgoingAckId = p.outgoingMsgId - p.outgoingAckId + 1 by omega,
      List.range'_concat, Nat.one_mul]
    congr 2
    omega
  · refine iff_of_false (fun h' ↦ ?_) hwrap
    have hzero : wrap32 (p.outgoingMsgId + 1) = 0 := by
      show (p.outgoingMsgId + 1) % 2 ^ 32 = 0
      omega
    -- The queue is not empty, and no message is unacknowledged.
    have hempty := h'.queuedIds_eq
    rw [hids, hmsg, hzero, Nat.zero_sub] at hempty
    exact absurd hempty (List.append_ne_nil_of_right_ne_nil _ (List.cons_ne_nil _ _))

/-- The peer acknowledges only what was sent, and fewer than `2 ^ 32` messages are sent. -/
def Within (p : PersistentProtocol) : Op → Prop
  | .send _ _ => p.outgoingMsgId + 1 < 2 ^ 32
  | .receive frame _ => frame.ack ≤ p.outgoingMsgId
  | _ => True

instance (p : PersistentProtocol) (op : Op) : Decidable (p.Within op) := by
  cases op <;> unfold Within <;> infer_instance

/-- **What one operation does to an exact queue**: it stays exact if, and only if, the operation is
within what was sent. -/
theorem Exact.step_iff (h : p.Exact) (op : Op) : (p.step op).Exact ↔ p.Within op := by
  cases op with
  | send data now => exact h.send_iff data now
  | receive frame now => exact (receive_exact_iff frame now).trans (h.trim_iff frame.ack)
  | sendControl data => exact iff_of_true ((quiet_sendControl p data).exact_iff.2 h) trivial
  | sendDisconnect => exact iff_of_true ((quiet_sendDisconnect p).exact_iff.2 h) trivial
  | tick now => exact iff_of_true ((quiet_tick p now).exact_iff.2 h) trivial
  | keepAlive => exact iff_of_true ((quiet_keepAlive p).exact_iff.2 h) trivial
  | beginReconnect now => exact iff_of_true ((quiet_beginReconnect p now).exact_iff.2 h) trivial
  | endReconnect now => exact iff_of_true ((quiet_endReconnect p now).exact_iff.2 h) trivial

/-- **In every run in which the peer acknowledges only what was sent, the queue holds exactly the
messages that are not acknowledged**, and the count is its length. -/
theorem queue_exact (now : Instant) (p : PersistentProtocol)
    (h : ((system now).restrict Within).Reachable p) :
    p.outgoingAckId ≤ p.outgoingMsgId ∧
      (p.unacked.map fun u ↦ u.frame.id) =
        List.range' (p.outgoingAckId + 1) (p.outgoingMsgId - p.outgoingAckId) ∧
      p.unacknowledgedCount = p.unacked.length := by
  have hexact : p.Exact := by
    refine h.invariant (fun q hq ↦ ?_) fun q op q' _ hq hstep ↦ ?_
    · obtain rfl := hq
      exact ⟨Nat.le_refl _, rfl, Nat.two_pow_pos 32⟩
    · obtain ⟨hwithin, rfl⟩ := hstep
      exact (hq.step_iff op).2 hwithin
  have hids := hexact.queuedIds_eq
  rw [queuedIds, List.map_map] at hids
  exact ⟨hexact.acked_le, hids, hexact.unacknowledgedCount_eq⟩

/-- Two messages are sent, and the first is acknowledged. -/
def sendTwice : List Op :=
  [.send [1] 0, .send [2] 0, .receive (.empty .ack 1) 5]

theorem queue_exact_sendTwice :
    (sendTwice.foldl step (new 0)).unacknowledgedCount = 1 :=
  (queue_exact 0 _ (.foldl_of_allMeet (S := system 0) (fun _ _ ↦ rfl) (.start rfl)
    (show StepSystem.AllMeet step Within (new 0) sendTwice by decide))).2.2

/-- The queue is not exact in every run: a keep-alive acknowledges a message that was never sent,
and the count of the unacknowledged messages is `2 ^ 32 - 1`. -/
theorem not_queue_exact :
    ¬ ∀ p, (system 0).Reachable p → p.outgoingAckId ≤ p.outgoingMsgId ∧
      (p.unacked.map fun u ↦ u.frame.id) =
        List.range' (p.outgoingAckId + 1) (p.outgoingMsgId - p.outgoingAckId) ∧
      p.unacknowledgedCount = p.unacked.length := by
  intro h
  have hcount := (h _ (StepSystem.reachable_foldl [.receive (.empty .keepAlive 1) 0])).2.2
  exact absurd hcount (by decide)

end PersistentProtocol

end Ember.EditorConn
