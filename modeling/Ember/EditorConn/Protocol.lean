import Ember.Basic
import Ember.EditorConn.Frame
import Mathlib.Data.List.Basic

/-!
# `PersistentProtocol` as a state machine

Regular messages get ids 1, 2, 3, …, carry the highest id received as their acknowledgement and
stay in the unacknowledged queue until the peer acknowledges them. A gap in the incoming ids asks
for a replay, a duplicate is dropped, and a finished reconnect replays the whole queue. The type
decides which frames to write; the socket and the clock belong to the driver.

Every operation returns the new state first, then what the source's method returns.
-/

namespace Ember.EditorConn

/-- `ProtocolConstants.AcknowledgeTime`. -/
def acknowledgeTime : Duration := 2000

/-- `ProtocolConstants.TimeoutTime`. -/
def timeoutTime : Duration := 20000

/-- Replay requests are rate-limited to one per 10 s. -/
def replayRequestInterval : Duration := 10000

/-- What an incoming frame means to the layer above. -/
inductive Inbound
  /-- An in-order regular message. -/
  | regular (data : Data)
  /-- A control message: handshake JSON. -/
  | control (data : Data)
  /-- The peer sent `Disconnect`: the connection is over for good. -/
  | disconnect
  deriving DecidableEq, Repr

/-- A regular message that the peer has not acknowledged. -/
structure Unacked where
  frame : Frame
  writtenAt : Option Instant
  deriving DecidableEq, Repr

/-- `PersistentProtocol`. -/
structure PersistentProtocol where
  outgoingMsgId : ℕ
  outgoingAckId : ℕ
  unacked : List Unacked
  incomingMsgId : ℕ
  incomingAckId : ℕ
  lastIncomingRegular : Option Instant
  lastRead : Instant
  lastReplayRequest : Option Instant
  lastTimeout : Instant
  reconnecting : Bool
  paused : Bool
  held : List Frame
  didSendDisconnect : Bool
  deriving DecidableEq, Repr

variable (p : PersistentProtocol)

namespace PersistentProtocol

/-- `PersistentProtocol::new`. -/
def new (now : Instant) : PersistentProtocol where
  outgoingMsgId := 0
  outgoingAckId := 0
  unacked := []
  incomingMsgId := 0
  incomingAckId := 0
  lastIncomingRegular := none
  lastRead := now
  lastReplayRequest := none
  lastTimeout := now
  reconnecting := false
  paused := false
  held := []
  didSendDisconnect := false

/-- `emit`: write the frame, or hold it while the peer has paused us. -/
def emit (p : PersistentProtocol) (f : Frame) (out : List Frame) :
    PersistentProtocol × List Frame :=
  if p.paused then ({ p with held := p.held ++ [f] }, out) else (p, out ++ [f])

/-- The loop `for f in frames { self.emit(f, &mut out) }`. -/
def emitAll (p : PersistentProtocol) : List Frame → List Frame → PersistentProtocol × List Frame
  | [], out => (p, out)
  | f :: fs, out => (p.emit f out).1.emitAll fs (p.emit f out).2

/-- `send`: queue a regular message; nothing is written while reconnecting. -/
def send (p : PersistentProtocol) (data : Data) (now : Instant) :
    PersistentProtocol × List Frame :=
  let id := wrap32 (p.outgoingMsgId + 1)
  let frame : Frame := ⟨.regular, id, p.incomingMsgId, data⟩
  let queued (at? : Option Instant) : PersistentProtocol :=
    { p with outgoingMsgId := id, incomingAckId := p.incomingMsgId,
             unacked := p.unacked ++ [⟨frame, at?⟩] }
  if p.reconnecting then (queued none, []) else (queued (some now)).emit frame []

/-- `send_control`: a handshake message, never counted or replayed. -/
def sendControl (p : PersistentProtocol) (data : Data) : PersistentProtocol × List Frame :=
  p.emit ⟨.control, 0, 0, data⟩ []

/-- `send_disconnect`: sent once, regardless of the pause state. -/
def sendDisconnect (p : PersistentProtocol) : PersistentProtocol × List Frame :=
  if p.didSendDisconnect then (p, [])
  else ({ p with didSendDisconnect := true }, [Frame.empty .disconnect 0])

/-- The first part of `receive`: an acknowledgement past the last one trims the queue. -/
def trim (p : PersistentProtocol) (ack : ℕ) : PersistentProtocol :=
  if p.outgoingAckId < ack then
    { p with outgoingAckId := ack
             unacked := p.unacked.dropWhile fun u ↦ decide (u.frame.id ≤ ack) }
  else p

/-- The loops that resend the queue, stamping every entry as written now. -/
def resend (p : PersistentProtocol) (now : Instant) (out : List Frame) :
    PersistentProtocol × List Frame :=
  let stamped : PersistentProtocol :=
    { p with unacked := p.unacked.map fun u ↦ { u with writtenAt := some now } }
  stamped.emitAll (p.unacked.map Unacked.frame) out

/-- Whether a replay request is due: none yet on this socket, or the last one is old enough. -/
def replayDue (p : PersistentProtocol) (now : Instant) : Bool :=
  match p.lastReplayRequest with
  | none => true
  | some t => decide (replayRequestInterval < durationSince now t)

/-- The `Regular` arm of `receive`. -/
def receiveRegular (p : PersistentProtocol) (frame : Frame) (now : Instant) :
    PersistentProtocol × Option Inbound × List Frame :=
  if p.incomingMsgId < frame.id then
    if frame.id ≠ wrap32 (p.incomingMsgId + 1) then
      if p.replayDue now then
        let asked : PersistentProtocol := { p with lastReplayRequest := some now }
        let r := asked.emit (Frame.empty .replayRequest 0) []
        (r.1, none, r.2)
      else (p, none, [])
    else
      ({ p with incomingMsgId := frame.id, lastIncomingRegular := some now },
        some (.regular frame.data), [])
  else (p, none, []) -- duplicate after replay

/-- `receive`: process one decoded frame. -/
def receive (p : PersistentProtocol) (frame : Frame) (now : Instant) :
    PersistentProtocol × Option Inbound × List Frame :=
  let p := PersistentProtocol.trim { p with lastRead := now } frame.ack
  match frame.ty with
  | .none | .ack | .keepAlive => (p, none, [])
  | .regular => p.receiveRegular frame now
  | .control => (p, some (.control frame.data), [])
  | .disconnect => (p, some .disconnect, [])
  | .replayRequest => let r := p.resend now []; (r.1, none, r.2)
  | .pause => ({ p with paused := true }, none, [])
  | .resume => ({ p with paused := false, held := [] }, none, p.held)

/-- The acknowledgement half of `tick`. -/
def tickAck (p : PersistentProtocol) (now : Instant) : PersistentProtocol × List Frame :=
  if p.incomingAckId < p.incomingMsgId then
    match p.lastIncomingRegular with
    | some t =>
      if acknowledgeTime ≤ durationSince now t then
        let acked : PersistentProtocol := { p with incomingAckId := p.incomingMsgId }
        acked.emit (Frame.empty .ack p.incomingMsgId) []
      else (p, [])
    | none => (p, [])
  else (p, [])

/-- `tick`: the frames to write, and whether the socket should be considered dead. -/
def tick (p : PersistentProtocol) (now : Instant) : PersistentProtocol × List Frame × Bool :=
  let r := p.tickAck now
  let timedOut := !r.1.reconnecting && decide (timeoutTime ≤ durationSince now r.1.lastRead) &&
    decide (timeoutTime ≤ durationSince now r.1.lastTimeout)
  (if timedOut then { r.1 with lastTimeout := now } else r.1, r.2, timedOut)

/-- `keep_alive`: also carries our latest acknowledgement. -/
def keepAlive (p : PersistentProtocol) : PersistentProtocol × List Frame :=
  let acked : PersistentProtocol := { p with incomingAckId := p.incomingMsgId }
  acked.emit (Frame.empty .keepAlive p.incomingMsgId) []

/-- `begin_reconnect`: a new socket is about to carry the handshake. -/
def beginReconnect (p : PersistentProtocol) (now : Instant) : PersistentProtocol :=
  { p with reconnecting := true, paused := false, held := [], lastReplayRequest := none,
           lastRead := now, lastTimeout := now }

/-- `end_reconnect`: re-acknowledge and replay everything unacknowledged. -/
def endReconnect (p : PersistentProtocol) (now : Instant) : PersistentProtocol × List Frame :=
  let acked : PersistentProtocol :=
    { p with reconnecting := false, incomingAckId := p.incomingMsgId }
  let r := acked.emit (Frame.empty .ack p.incomingMsgId) []
  r.1.resend now r.2

/-! ### What writing frames leaves alone -/

/-- `emit` changes nothing but the held frames. -/
theorem emit_eq (f : Frame) (out : List Frame) :
    (p.emit f out).1 = { p with held := p.held ++ if p.paused then [f] else [] } ∧
      (p.emit f out).2 = out ++ if p.paused then [] else [f] := by
  obtain ⟨_, _, _, _, _, _, _, _, _, _, paused, _, _⟩ := p
  cases paused <;> simp [emit]

/-- Writing several frames changes nothing but the held frames: all of them go one way. -/
theorem emitAll_eq (fs out : List Frame) :
    (p.emitAll fs out).1 = { p with held := p.held ++ if p.paused then fs else [] } ∧
      (p.emitAll fs out).2 = out ++ if p.paused then [] else fs := by
  induction fs generalizing p out with
  | nil => simp [emitAll]
  | cons f fs ih =>
    obtain ⟨h1, h2⟩ := p.emit_eq f out
    obtain ⟨ih1, ih2⟩ := ih (p.emit f out).1 (p.emit f out).2
    simp only [emitAll]
    rw [ih1, ih2, h1, h2]
    cases p.paused <;> simp

/-- The step from `p` to `q` that writes `out` moves no counter and changes no queued frame: what it
writes or holds back was held or queued before, or is not a regular message and acknowledges no more
than was received. -/
structure Quiet (p q : PersistentProtocol) (out : List Frame) : Prop where
  outgoingMsgId : q.outgoingMsgId = p.outgoingMsgId
  outgoingAckId : q.outgoingAckId = p.outgoingAckId
  incomingMsgId : q.incomingMsgId = p.incomingMsgId
  frames : q.unacked.map Unacked.frame = p.unacked.map Unacked.frame
  written : ∀ f ∈ q.held ++ out, f ∈ p.held ∨ f ∈ p.unacked.map Unacked.frame ∨
    (f.ty ≠ .regular ∧ f.ack ≤ p.incomingMsgId)

/-- Writing a frame that is no regular message and acknowledges no more than was received. -/
theorem quiet_emit {p : PersistentProtocol} {f : Frame} (hty : f.ty ≠ .regular)
    (hack : f.ack ≤ p.incomingMsgId) : Quiet p (p.emit f []).1 (p.emit f []).2 := by
  obtain ⟨h1, h2⟩ := p.emit_eq f []
  rw [h1, h2]
  refine ⟨rfl, rfl, rfl, rfl, fun g hg ↦ ?_⟩
  cases hp : p.paused <;> simp only [hp, Bool.false_eq_true, if_false, if_true, List.append_nil,
    List.nil_append, List.mem_append, List.mem_singleton] at hg <;> rcases hg with hg | rfl
  all_goals first | exact .inl hg | exact .inr (.inr ⟨hty, hack⟩)

/-- Resending the queue. -/
theorem quiet_resend (now : Instant) (out : List Frame) :
    Quiet p (p.resend now out).1 [] ∧
      ∀ f ∈ (p.resend now out).2, f ∈ out ∨ f ∈ p.unacked.map Unacked.frame := by
  unfold resend
  obtain ⟨h1, h2⟩ := emitAll_eq
    { p with unacked := p.unacked.map fun u ↦ { u with writtenAt := some now } }
    (p.unacked.map Unacked.frame) out
  rw [h1, h2]
  refine ⟨⟨rfl, rfl, rfl, by simp [Function.comp_def], fun f hf ↦ ?_⟩, fun f hf ↦ ?_⟩
  · cases hp : p.paused <;> simp only [hp, Bool.false_eq_true, if_false, if_true, List.append_nil,
      List.mem_append] at hf
    · exact .inl hf
    · exact hf.imp_right .inl
  · cases hp : p.paused <;> simp only [hp, Bool.false_eq_true, if_false, if_true, List.append_nil,
      List.mem_append] at hf
    · exact hf
    · exact .inl hf

theorem quiet_sendControl (data : Data) :
    Quiet p (p.sendControl data).1 (p.sendControl data).2 :=
  quiet_emit (by simp) (Nat.zero_le _)

theorem quiet_sendDisconnect :
    Quiet p p.sendDisconnect.1 p.sendDisconnect.2 := by
  unfold sendDisconnect
  split
  · exact ⟨rfl, rfl, rfl, rfl, fun f hf ↦ .inl (by simpa using hf)⟩
  · refine ⟨rfl, rfl, rfl, rfl, fun f hf ↦ ?_⟩
    rcases List.mem_append.1 hf with hf | hf
    · exact .inl hf
    · rcases List.mem_singleton.1 hf with rfl
      exact .inr (.inr ⟨by simp, by simp⟩)

theorem quiet_tickAck (now : Instant) :
    Quiet p (p.tickAck now).1 (p.tickAck now).2 := by
  have hsame : Quiet p p [] := ⟨rfl, rfl, rfl, rfl, fun f hf ↦ .inl (by simpa using hf)⟩
  unfold tickAck
  split
  · split
    · split
      · obtain ⟨h1, h2, h3, h4, h5⟩ :=
          quiet_emit (p := { p with incomingAckId := p.incomingMsgId })
            (f := Frame.empty .ack p.incomingMsgId) (by simp) (by simp)
        exact ⟨h1, h2, h3, h4, h5⟩
      · exact hsame
    · exact hsame
  · exact hsame

theorem quiet_tick (now : Instant) :
    Quiet p (p.tick now).1 (p.tick now).2.1 := by
  obtain ⟨h1, h2, h3, h4, h5⟩ := quiet_tickAck p now
  unfold tick
  dsimp only
  split <;> exact ⟨h1, h2, h3, h4, h5⟩

theorem quiet_keepAlive : Quiet p p.keepAlive.1 p.keepAlive.2 := by
  obtain ⟨h1, h2, h3, h4, h5⟩ := quiet_emit (p := { p with incomingAckId := p.incomingMsgId })
    (f := Frame.empty .keepAlive p.incomingMsgId) (by simp) (by simp)
  exact ⟨h1, h2, h3, h4, h5⟩

theorem quiet_beginReconnect (now : Instant) :
    Quiet p (p.beginReconnect now) [] :=
  ⟨rfl, rfl, rfl, rfl, fun _ hf ↦ absurd hf (by simp [beginReconnect])⟩

theorem quiet_endReconnect (now : Instant) :
    Quiet p (p.endReconnect now).1 (p.endReconnect now).2 := by
  unfold endReconnect
  dsimp only
  obtain ⟨h1, h2, h3, h4, h5⟩ :=
    quiet_emit (p := { p with reconnecting := false, incomingAckId := p.incomingMsgId })
      (f := Frame.empty .ack p.incomingMsgId) (by simp) (by simp)
  generalize hr : emit { p with reconnecting := false, incomingAckId := p.incomingMsgId }
    (Frame.empty .ack p.incomingMsgId) [] = r at *
  obtain ⟨⟨g1, g2, g3, g4, g5⟩, g6⟩ := quiet_resend r.1 now r.2
  have hall : ∀ f ∈ r.1.held ++ r.2, f ∈ p.held ∨ f ∈ p.unacked.map Unacked.frame ∨
    (f.ty ≠ .regular ∧ f.ack ≤ p.incomingMsgId) := h5
  have hframes : r.1.unacked.map Unacked.frame = p.unacked.map Unacked.frame := h4
  have hinc : r.1.incomingMsgId = p.incomingMsgId := h3
  refine ⟨g1.trans h1, g2.trans h2, g3.trans h3, g4.trans h4, fun f hf ↦ ?_⟩
  rcases List.mem_append.1 hf with hf | hf
  · rcases g5 f (List.mem_append_left _ hf) with h | h | h
    · exact hall f (List.mem_append_left _ h)
    · exact .inr (.inl (hframes ▸ h))
    · exact .inr (.inr ⟨h.1, hinc ▸ h.2⟩)
  · rcases g6 f hf with h | h
    · exact hall f (List.mem_append_right _ h)
    · exact .inr (.inl (hframes ▸ h))

/-- **What `receive` does.** After trimming, either the step is quiet and hands nothing up, or the
frame is the next regular message, which is handed up and counted. -/
theorem receive_cases (f : Frame) (now : Instant) :
    (Quiet (p.trim f.ack) (p.receive f now).1 (p.receive f now).2.2 ∧
        ∀ data, (p.receive f now).2.1 ≠ some (.regular data)) ∨
      (f.ty = .regular ∧ p.incomingMsgId < f.id ∧ f.id = wrap32 (p.incomingMsgId + 1) ∧
        (p.receive f now).1.incomingMsgId = f.id ∧
        (p.receive f now).1.outgoingMsgId = (p.trim f.ack).outgoingMsgId ∧
        (p.receive f now).1.outgoingAckId = (p.trim f.ack).outgoingAckId ∧
        (p.receive f now).1.unacked = (p.trim f.ack).unacked ∧
        (p.receive f now).1.held = p.held ∧
        (p.receive f now).2 = (some (.regular f.data), [])) := by
  have htrim : trim { p with lastRead := now } f.ack = { p.trim f.ack with lastRead := now } := by
    unfold trim
    split <;> rfl
  have hinc : (p.trim f.ack).incomingMsgId = p.incomingMsgId := by unfold trim; split <;> rfl
  have hheld : (p.trim f.ack).held = p.held := by unfold trim; split <;> rfl
  generalize p.trim f.ack = t at *
  have hsame : ∀ q : PersistentProtocol, q.outgoingMsgId = t.outgoingMsgId →
      q.outgoingAckId = t.outgoingAckId → q.incomingMsgId = t.incomingMsgId →
      q.unacked = t.unacked → q.held = t.held → Quiet t q [] :=
    fun q h1 h2 h3 h4 h5 ↦ ⟨h1, h2, h3, by rw [h4], fun g hg ↦ .inl (by simpa [h5] using hg)⟩
  unfold receive
  rw [htrim]
  cases hty : f.ty with
  | none | ack | keepAlive | control | disconnect | pause =>
    exact .inl ⟨hsame _ rfl rfl rfl rfl rfl, by simp⟩
  | resume => exact .inl ⟨⟨rfl, rfl, rfl, rfl, fun g hg ↦ .inl (by simpa using hg)⟩, by simp⟩
  | replayRequest =>
    obtain ⟨⟨h1, h2, h3, h4, h5⟩, h6⟩ := quiet_resend { t with lastRead := now } now []
    refine .inl ⟨⟨h1, h2, h3, h4, fun g hg ↦ ?_⟩, by simp⟩
    rcases List.mem_append.1 hg with hg | hg
    · exact h5 g (List.mem_append_left _ hg)
    · exact .inr (.inl ((h6 g hg).resolve_left (by simp)))
  | regular =>
    simp only [receiveRegular]
    split_ifs with hlt hnext hdue
    · obtain ⟨h1, h2, h3, h4, h5⟩ := quiet_emit
        (p := { t with lastRead := now, lastReplayRequest := some now })
        (f := Frame.empty .replayRequest 0) (by simp) (by simp)
      exact .inl ⟨⟨h1, h2, h3, h4, h5⟩, by simp⟩
    · exact .inl ⟨hsame _ rfl rfl rfl rfl rfl, by simp⟩
    · simp only [ne_eq, not_not] at hnext
      rw [hinc] at hlt hnext
      exact .inr ⟨trivial, hlt, hnext, rfl, rfl, rfl, rfl, hheld, rfl⟩
    · exact .inl ⟨hsame _ rfl rfl rfl rfl rfl, by simp⟩

end PersistentProtocol

end Ember.EditorConn
