import Ember.EditorConn.Connection
import Ember.EditorConn.Link

/-!
# Nothing is lost by a reconnect

`Link` bounds what an end hands up by what its peer sent. The other half: once an end is not
reconnecting and shares a socket with its peer, what it has sent and the peer has not counted is on
that socket or held back, in order. So when nothing regular is left there, everything has arrived
(`Link.complete_of_drained`), whatever was lost with earlier sockets.

The invariant `Link.Carries` follows the number the peer will have reached by the time it has read
all that is under way (`counted`): that number is always the last one sent.
-/

namespace Ember.EditorConn

/-- The count after numbers have arrived, of which only the next one counts. -/
def counted : ℕ → List ℕ → ℕ
  | k, [] => k
  | k, i :: l => counted (if i = k + 1 then i else k) l

variable {k k' n : ℕ} {l : List ℕ}

theorem counted_append (k : ℕ) (l l' : List ℕ) :
    counted k (l ++ l') = counted (counted k l) l' := by
  induction l generalizing k with
  | nil => rfl
  | cons i l ih => exact ih _

theorem counted_mono (h : k ≤ k') (l : List ℕ) : counted k l ≤ counted k' l := by
  induction l generalizing k k' with
  | nil => exact h
  | cons i l ih => exact ih (by split <;> split <;> omega)

theorem le_counted (k : ℕ) (l : List ℕ) : k ≤ counted k l := by
  induction l generalizing k with
  | nil => exact le_rfl
  | cons i l ih => exact le_trans (by split <;> omega) (ih _)

theorem counted_le (hk : k ≤ n) (hl : ∀ i ∈ l, i ≤ n) : counted k l ≤ n := by
  induction l generalizing k with
  | nil => exact hk
  | cons i l ih =>
    obtain ⟨hi, hl⟩ := List.forall_mem_cons.1 hl
    exact ih (by split <;> omega) hl

/-- Consecutive numbers that begin no later than with the next one are all counted. -/
theorem counted_range' {a : ℕ} (ha : a ≤ k) (hk : k ≤ a + n) :
    counted k (List.range' (a + 1) n) = a + n := by
  induction n generalizing a k with
  | zero => exact le_antisymm hk ha
  | succ n ih =>
    rw [List.range'_succ, show a + (n + 1) = a + 1 + n by omega]
    exact ih (by split <;> omega) (by split <;> omega)

open PersistentProtocol

/-- `receive` counts a frame as `counted` does. -/
theorem PersistentProtocol.incomingMsgId_receive (p : PersistentProtocol) (f : Frame)
    (now : Instant) (hlt : f.ty = .regular → f.id < 2 ^ 32) :
    (p.receive f now).1.incomingMsgId = counted p.incomingMsgId (regularIds [f]) := by
  have hinc : (trim { p with lastRead := now } f.ack).incomingMsgId = p.incomingMsgId := by
    unfold trim; split <;> rfl
  unfold receive
  generalize trim { p with lastRead := now } f.ack = t at *
  cases hty : f.ty with
  | regular =>
    rw [regularIds_singleton hty]
    show _ = if f.id = p.incomingMsgId + 1 then f.id else p.incomingMsgId
    have hlt := hlt hty
    simp only [receiveRegular, hinc, wrap32]
    split_ifs <;> first | omega | simp [emit_eq]
  | replayRequest =>
    rw [regularIds_of_ne (by simp [hty])]
    exact (quiet_resend t now []).1.incomingMsgId.trans hinc
  | none | ack | keepAlive | control | disconnect | pause | resume =>
    rw [regularIds_of_ne (by simp [hty])]
    exact hinc

/-- The queue of an end holds the ids that are sent and not acknowledged. -/
theorem Endpoint.Valid.queuedIds_eq {e : Endpoint} (h : e.Valid) :
    e.proto.queuedIds =
      List.range' (e.proto.outgoingAckId + 1) (e.sent.length - e.proto.outgoingAckId) := by
  have hsnd := congrArg (List.map Prod.snd) h.queue
  rw [List.map_map, numbered, List.map_drop, List.zipIdx_map_snd, List.drop_range', Nat.mul_one,
    Nat.add_comm 1] at hsnd
  rw [queuedIds, List.map_map]
  exact hsnd

theorem Endpoint.Wrote.id_le {e : Endpoint} {fs : List Frame} (h : ∀ f ∈ fs, e.Wrote f) :
    ∀ i ∈ regularIds fs, i ≤ e.sent.length := by
  intro i hi
  obtain ⟨f, hf, rfl⟩ := List.mem_map.1 hi
  obtain ⟨hf, hty⟩ := List.mem_filter.1 hf
  have hget := (List.getElem?_eq_some_iff.1 ((h f hf).2 (of_decide_eq_true hty)).2).1
  omega

namespace Link

/-- The regular messages the socket of `x` carries, or will once the peer resumes. -/
def carried (l : Link) (x : Side) : List ℕ :=
  regularIds (l.wire (l.ends x).socket x) ++ regularIds (l.ends x).proto.held

/-- What holds of the direction from `x`: unless `x` is reconnecting or has been left behind, what
its socket carries brings the peer to the last message sent. -/
structure Carries (l : Link) (x : Side) : Prop where
  steady : (l.ends x).proto.Steady
  unused : ∀ n, (l.ends x).socket < n → l.wire n x = []
  reaches : (l.ends x).proto.reconnecting = false → (l.ends x.peer).socket ≤ (l.ends x).socket →
    counted (l.ends x.peer).proto.incomingMsgId (l.carried x) = (l.ends x).sent.length

variable {l l' : Link} {x : Side}

theorem Inv.carried_le (h : l.Inv) (x : Side) : ∀ i ∈ l.carried x, i ≤ (l.ends x).sent.length :=
  fun i hi ↦ (List.mem_append.1 hi).elim (Endpoint.Wrote.id_le ((h x).wire _) i)
    (Endpoint.Wrote.id_le (h x).valid.held i)

/-- The direction from the other end, when this end reads nothing. -/
theorem Carries.of_peer (h : l.Carries x) (hself : l'.ends x = l.ends x)
    (hwire : ∀ n, l'.wire n x = l.wire n x)
    (hsocket : (l.ends x.peer).socket ≤ (l'.ends x.peer).socket)
    (hinc : (l'.ends x.peer).proto.incomingMsgId = (l.ends x.peer).proto.incomingMsgId) :
    l'.Carries x := by
  refine ⟨hself ▸ h.steady, fun n hn ↦ hwire n ▸ h.unused n (hself ▸ hn), fun hrec hle ↦ ?_⟩
  rw [carried, hself, hwire, hinc]
  rw [hself] at hrec hle
  exact h.reaches hrec (hsocket.trans hle)

/-- The direction from the end that changes, and writes what its protocol returned. -/
theorem Carries.self (h : l.Carries x) {out : List Frame} {ids : List ℕ}
    (hp : l'.ends x.peer = l.ends x.peer) (hsocket : (l'.ends x).socket = (l.ends x).socket)
    (hwire : ∀ n, l'.wire n x =
      if n = (l.ends x).socket then l.wire n x ++ out else l.wire n x)
    (hflow : Flow (l.ends x).proto (l'.ends x).proto out ids) (hsteady : (l'.ends x).proto.Steady)
    (hreach : (l'.ends x).proto.reconnecting = false →
      (l.ends x.peer).socket ≤ (l.ends x).socket →
      counted (l.ends x.peer).proto.incomingMsgId (l.carried x ++ ids) = (l'.ends x).sent.length) :
    l'.Carries x := by
  refine ⟨hsteady, fun n hn ↦ ?_, fun hrec hle ↦ ?_⟩
  · rw [hsocket] at hn
    rw [hwire, if_neg (by omega), h.unused n hn]
  · have hids : l'.carried x = l.carried x ++ ids := by
      rw [carried, hsocket, hwire, if_pos rfl, regularIds_append, List.append_assoc, hflow.ids_eq,
        carried, List.append_assoc]
    rw [hp, hids]
    exact hreach hrec (by rwa [hp, hsocket] at hle)

theorem Carries.both (hx : l.Carries x) (hp : l.Carries x.peer) (y : Side) : l.Carries y := by
  obtain rfl | rfl : y = x ∨ y = x.peer := by cases x <;> cases y <;> simp [Side.peer]
  exacts [hx, hp]

section

variable (h : ∀ y, l.Carries y)
include h

/-- What is sent, resent or injected by one end. -/
theorem Carries.acts {e : Endpoint} {out : List Frame} {ids : List ℕ}
    (hsocket : e.socket = (l.ends x).socket)
    (hinc : e.proto.incomingMsgId = (l.ends x).proto.incomingMsgId)
    (hflow : Flow (l.ends x).proto e.proto out ids) (hsteady : e.proto.Steady)
    (hreach : e.proto.reconnecting = false → (l.ends x.peer).socket ≤ (l.ends x).socket →
      counted (l.ends x.peer).proto.incomingMsgId (l.carried x ++ ids) = e.sent.length) :
    ∀ y, ((l.setEnd x e).write x out).Carries y := by
  set l' := (l.setEnd x e).write x out with hl'
  have hx : l'.ends x = e := Function.update_self ..
  have hp : l'.ends x.peer = l.ends x.peer := Function.update_of_ne (Side.peer_ne x) ..
  have hself : l'.Carries x := (h x).self hp (hx ▸ hsocket)
    (fun n ↦ by simp [hl', Link.write, setEnd, hsocket]) (hx ▸ hflow) (hx ▸ hsteady) (hx ▸ hreach)
  refine hself.both ((h x.peer).of_peer hp (fun n ↦ by simp [hl', Link.write, setEnd]) ?_ ?_)
  all_goals rw [Side.peer_peer, hx]
  exacts [hsocket.ge, hinc]

/-- Steps of the protocol that count nothing. -/
theorem Carries.run {r : PersistentProtocol × List Frame} {ids : List ℕ}
    (hq : Quiet (l.ends x).proto r.1 r.2) (hflow : Flow (l.ends x).proto r.1 r.2 ids)
    (hreach : r.1.reconnecting = false → (l.ends x.peer).socket ≤ (l.ends x).socket →
      counted (l.ends x.peer).proto.incomingMsgId (l.carried x ++ ids) = (l.ends x).sent.length) :
    ∀ y, (l.run x r).Carries y :=
  Carries.acts h rfl hq.incomingMsgId hflow
    ((h x).steady.of_flow hflow hq.frames hq.outgoingMsgId) hreach

/-- They send nothing regular, and neither begin nor end a reconnect. -/
theorem Carries.run_nil {r : PersistentProtocol × List Frame}
    (hq : Quiet (l.ends x).proto r.1 r.2) (hflow : Flow (l.ends x).proto r.1 r.2 [])
    (hrec : r.1.reconnecting = (l.ends x).proto.reconnecting) : ∀ y, (l.run x r).Carries y :=
  Carries.run h hq hflow fun hr hle ↦ by
    rw [List.append_nil]
    exact (h x).reaches (hrec ▸ hr) hle

/-- A new socket carries nothing yet. -/
theorem Carries.beginReconnect {socket : ℕ} (now : Instant) (hfresh : (l.ends x).socket < socket) :
    ∀ y, (l.setEnd x { l.ends x with
      proto := (l.ends x).proto.beginReconnect now, socket := socket }).Carries y := by
  set l' := l.setEnd x _ with hl'
  have hx : l'.ends x = { l.ends x with
    proto := (l.ends x).proto.beginReconnect now, socket := socket } := Function.update_self ..
  have hp : l'.ends x.peer = l.ends x.peer := Function.update_of_ne (Side.peer_ne x) ..
  have hself : l'.Carries x := by
    have hst := (h x).steady
    refine ⟨?_, fun n hn ↦ (h x).unused n ?_, fun hrec ↦ ?_⟩
    · rw [hx]
      exact ⟨fun _ ↦ rfl, hst.regular, hst.ids⟩
    · rw [hx] at hn
      exact hfresh.trans hn
    · rw [hx] at hrec
      cases hrec
  refine hself.both ((h x.peer).of_peer hp (fun _ ↦ rfl) ?_ ?_)
  all_goals rw [Side.peer_peer, hx]
  exacts [hfresh.le, rfl]

variable (hinv : l.Inv)
include hinv

theorem Carries.send (data : Data) (now : Instant) (hlt : (l.ends x).sent.length + 1 < 2 ^ 32) :
    ∀ y, ((l.setEnd x { l.ends x with sent := (l.ends x).sent ++ [data] }).run x
      ((l.ends x).proto.send data now)).Carries y := by
  have hv := (hinv x).valid
  have hid : (l.ends x).proto.outgoingMsgId + 1 < 2 ^ 32 := by rwa [hv.outgoing]
  obtain ⟨hsteady, -, -, hrec⟩ := (h x).steady.send data now hid
  have hinc : ((l.ends x).proto.send data now).1.incomingMsgId =
      (l.ends x).proto.incomingMsgId := by
    unfold PersistentProtocol.send
    dsimp only
    split
    · rfl
    · rw [(emit_eq _ _ _).1]
  have hacts := Carries.acts (x := x) (e := { l.ends x with
    sent := (l.ends x).sent ++ [data], proto := ((l.ends x).proto.send data now).1 })
    h rfl hinc (flow_send (h x).steady.holds data now) hsteady fun hr hle ↦ ?_
  · simpa [Link.run, setEnd, Link.write] using hacts
  · rw [hrec] at hr
    rw [hr, if_neg Bool.false_ne_true, counted_append, (h x).reaches hr hle, wrap32_of_lt hid,
      hv.outgoing]
    simp [counted]

/-- What arrives is the next of what the peer's socket carries, or comes from one it has left. -/
theorem Carries.read (hb : l.Bounded) {f : Frame} {rest : List Frame}
    (hf : l.wire (l.ends x).socket x.peer = f :: rest) (now : Instant) :
    ∀ y, (l.read x f rest now).Carries y := by
  obtain ⟨hsteady, -, -⟩ := (h x).steady.receive f now
  have hflow := flow_receive (h x).steady.holds (h x).steady.regular_unacked f now
  have hid : ∀ i ∈ regularIds [f], i ≤ (l.ends x.peer).sent.length :=
    Endpoint.Wrote.id_le fun g hg ↦
      List.mem_singleton.1 hg ▸ (hinv x.peer).wire _ f (by rw [hf]; exact List.mem_cons_self)
  have hinc := (l.ends x).proto.incomingMsgId_receive f now fun hty ↦
    (hid _ (by simp [regularIds_singleton hty])).trans_lt (hb x.peer)
  set l' := l.read x f rest now with hl'
  have hx : l'.ends x = { l.ends x with
      proto := ((l.ends x).proto.receive f now).1
      handedUp := (l.ends x).handedUp ++
        Inbound.payload ((l.ends x).proto.receive f now).2.1 } := Function.update_self ..
  have hp : l'.ends x.peer = l.ends x.peer := Function.update_of_ne (Side.peer_ne x) ..
  have hself : l'.Carries x := by
    refine (h x).self hp (by rw [hx]) (fun n ↦ ?_) (by rw [hx]; exact hflow) (by rwa [hx]) ?_
    · simp [hl', Link.read, Link.write, setEnd, pop]
    · rw [hx]
      intro hrec hle
      rw [counted_append, (h x).reaches (reconnecting_receive _ _ _ ▸ hrec) hle]
      refine le_antisymm (counted_le le_rfl fun i hi ↦ ?_) (le_counted _ _)
      split at hi
      · have hmem := (((trim_same _ _).2.2.2.2.map Unacked.frame).map Frame.id).subset hi
        have hacked := (hinv x).valid.acked
        rw [← queuedIds, (hinv x).valid.queuedIds_eq, List.mem_range'_1] at hmem
        show i ≤ (l.ends x).sent.length
        omega
      · cases hi
  have hother : l'.Carries x.peer := by
    have hwire : ∀ n, l'.wire n x.peer =
        if n = (l.ends x).socket then rest else l.wire n x.peer := fun n ↦ by
      simp [hl', Link.read, Link.write, setEnd, pop]
    refine ⟨by rw [hp]; exact (h x.peer).steady, fun n hn ↦ ?_, fun hrec hle ↦ ?_⟩
    · rw [hp] at hn
      have hold := (h x.peer).unused n hn
      rw [hwire, if_neg fun heq ↦ by simp [← heq, hold] at hf, hold]
    · rw [hp] at hrec hle
      rw [Side.peer_peer, hx] at hle ⊢
      rw [hp]
      have hreach := (h x.peer).reaches hrec (by rwa [Side.peer_peer])
      rw [Side.peer_peer] at hreach
      show counted ((l.ends x).proto.receive f now).1.incomingMsgId _ = _
      rw [hinc, carried, hp, hwire]
      split
      case isTrue heq =>
        rw [← counted_append, ← List.append_assoc, ← regularIds_append, List.singleton_append,
          ← hf, ← heq]
        exact hreach
      case isFalse =>
        exact le_antisymm
          (counted_le (counted_le (hinv.incoming_le x) hid) (hinv.carried_le x.peer))
          (hreach ▸ counted_mono (le_counted _ _) _)
  exact hself.both hother

/-- The whole queue is sent again. -/
theorem Carries.endReconnect (now : Instant) :
    ∀ y, (l.run x ((l.ends x).proto.endReconnect now)).Carries y := by
  refine Carries.run h ((l.ends x).proto.quiet_endReconnect now)
    (flow_endReconnect (h x).steady.holds (h x).steady.regular_unacked now) fun _ _ ↦ ?_
  have hpeer : (l.ends x.peer).proto.incomingMsgId ≤ (l.ends x).sent.length := by
    simpa using hinv.incoming_le x.peer
  have hle := counted_le hpeer (hinv.carried_le x)
  have hacked := (hinv x).acked.trans (le_counted _ (l.carried x))
  rw [counted_append, (hinv x).valid.queuedIds_eq, counted_range' hacked (by omega)]
  omega

/-- **The invariant survives every action** that leaves fewer than `2 ^ 32` messages sent. -/
theorem Carries.step {a : Action} (hs : Step l a l') (hb : l'.Bounded) : ∀ y, l'.Carries y := by
  have hbl : l.Bounded := fun x ↦ (hs.sent_prefix x).length_le.trans_lt (hb x)
  cases hs with
  | send x data now =>
    exact Carries.send h hinv data now (by simpa [Link.run, setEnd, Link.write] using hb x)
  | sendControl x data =>
    exact Carries.run_nil h (quiet_sendControl _ data)
      (flow_emit_of_ne (h x).steady.holds (by simp)) (reconnecting_emit _ _ _)
  | sendDisconnect x =>
    exact Carries.run_nil h (quiet_sendDisconnect _) (flow_sendDisconnect (h x).steady.holds)
      (reconnecting_sendDisconnect _)
  | tick x now =>
    exact Carries.run_nil h (quiet_tick _ now) (flow_tick (h x).steady.holds now)
      (reconnecting_tick _ now)
  | keepAlive x =>
    exact Carries.run_nil h (quiet_keepAlive _) (flow_keepAlive (h x).steady.holds)
      (reconnecting_emit _ _ _)
  | inject x ty ack hty hack =>
    have hne : ty ≠ .regular := by rcases hty with rfl | rfl | rfl <;> decide
    have hflow : Flow (l.ends x).proto (l.ends x).proto [Frame.empty ty ack] [] :=
      ⟨(h x).steady.holds, by rw [regularIds_of_ne hne, List.append_nil]; rfl⟩
    have hacts := Carries.acts h rfl rfl hflow (h x).steady fun hrec hle ↦ by
      rw [List.append_nil]
      exact (h x).reaches hrec hle
    simpa [setEnd] using hacts
  | deliver x now f rest hf => exact Carries.read h hinv hbl hf now
  | beginReconnect x socket now hfresh => exact Carries.beginReconnect h now hfresh
  | endReconnect x now => exact Carries.endReconnect h hinv now

end

theorem carries_of_reachable (h : system.Reachable l) (hb : l.Bounded) : ∀ x, l.Carries x := by
  induction h with
  | start h =>
    obtain ⟨now, rfl⟩ := h
    exact fun x ↦ ⟨⟨fun _ ↦ rfl, by simp [initial, PersistentProtocol.new], 0, 0, rfl, .inl rfl⟩,
      fun _ _ ↦ rfl, fun _ _ ↦ rfl⟩
  | next a hr hs ih =>
    have hb' : Bounded _ := fun x ↦ (hs.sent_prefix x).length_le.trans_lt (hb x)
    exact Carries.step (ih hb') (inv_of_reachable hr hb') hs hb

/-- **No reconnect loses anything for good.** In every state of every run, if an end is not
reconnecting, its peer reads the same socket, and nothing regular is left on that socket or held
back, then the peer has handed up all that was sent, in order and once each. -/
theorem complete_of_drained (h : system.Reachable l) (hb : l.Bounded) (x : Side)
    (hrec : (l.ends x).proto.reconnecting = false)
    (hsocket : (l.ends x.peer).socket = (l.ends x).socket)
    (hdrained : ∀ f ∈ l.wire (l.ends x).socket x ++ (l.ends x).proto.held, f.ty ≠ .regular) :
    (l.ends x.peer).handedUp = (l.ends x).sent := by
  have hinv := inv_of_reachable h hb
  have hnone : l.carried x = [] := by
    rw [carried, ← regularIds_append, regularIds, List.map_eq_nil_iff, List.filter_eq_nil_iff]
    exact fun f hf hty ↦ hdrained f hf (of_decide_eq_true hty)
  have hreach := (carries_of_reachable h hb x).reaches hrec hsocket.le
  rw [hnone] at hreach
  refine (hinv x).delivered.eq_of_length ?_
  rw [(hinv x.peer).valid.received]
  exact hreach

/-- Two messages are lost with their socket, and a third is sent meanwhile. -/
theorem complete_after_loss : ∃ l : Link, system.Reachable l ∧
    (l.ends .a).sent = [[7], [8], [9]] ∧ (l.ends .b).handedUp = (l.ends .a).sent := by
  have h0 : system.Reachable (initial 0) := .start ⟨0, rfl⟩
  have h1 := h0.next _ (Step.send .a [7] 0)
  have h2 := h1.next _ (Step.send .a [8] 0)
  have h3 := h2.next _ (Step.beginReconnect .a 1 10 (by decide))
  have h4 := h3.next _ (Step.send .a [9] 10)
  have h5 := h4.next _ (Step.beginReconnect .b 1 10 (by decide))
  have h6 := h5.next _ (Step.endReconnect .a 20)
  have h7 := h6.next _ (Step.deliver .b 30 _ _ rfl)
  have h8 := h7.next _ (Step.deliver .b 30 _ _ rfl)
  have h9 := h8.next _ (Step.deliver .b 30 _ _ rfl)
  have h10 := h9.next _ (Step.deliver .b 30 _ _ rfl)
  exact ⟨_, h10, rfl, complete_of_drained h10 (by intro x; cases x <;> decide) .a rfl rfl
    (by decide)⟩

end Link

end Ember.EditorConn
