import Ember.EditorConn.Acks
import Ember.Foundation.Climbs

/-!
# The driver of a connection

`ConnectionHandle` shares one `PersistentProtocol` between its callers, the reader and the ticker.
Each of them takes two locks, one after the other: under the first a method of the protocol decides
which frames to write, under the second they are pushed to the queue of the current writer. Between
the two anything may happen.

The theorem `climbs_of_kept` says which order of the pushes keeps the regular messages of one socket
in order; `not_climbs` is a run in which two callers of `send` push in the wrong one.
-/

namespace Ember.EditorConn

/-- The ids of the regular messages among some frames, in the order of the frames. -/
def regularIds (fs : List Frame) : List ℕ :=
  (fs.filter fun f ↦ decide (f.ty = .regular)).map Frame.id

@[simp] theorem regularIds_nil : regularIds [] = [] := rfl

@[simp] theorem regularIds_append (fs gs : List Frame) :
    regularIds (fs ++ gs) = regularIds fs ++ regularIds gs := by
  rw [regularIds, List.filter_append, List.map_append]
  rfl

variable {f : Frame}

theorem regularIds_singleton (hty : f.ty = .regular) : regularIds [f] = [f.id] := by
  simp [regularIds, hty]

theorem regularIds_of_ne (hty : f.ty ≠ .regular) : regularIds [f] = [] := by
  simp [regularIds, hty]

theorem regularIds_eq_map {fs : List Frame} (h : ∀ f ∈ fs, f.ty = .regular) :
    regularIds fs = fs.map Frame.id := by
  rw [regularIds, List.filter_eq_self.2 fun f hf ↦ decide_eq_true (h f hf)]

namespace PersistentProtocol

variable {p q : PersistentProtocol}

/-- What a method of the protocol does to the stream of regular messages: those it returns and those
it holds back are the ones held before, followed by `ids`. Nothing is held unless the peer has
paused us. -/
structure Flow (p q : PersistentProtocol) (out : List Frame) (ids : List ℕ) : Prop where
  holds : q.paused = false → q.held = []
  ids_eq : regularIds out ++ regularIds q.held = regularIds p.held ++ ids

section

variable (h : p.paused = false → p.held = [])
include h

/-- Frames are emitted in order, whether the peer has paused us or not. -/
theorem flow_emitAll (fs out : List Frame) :
    ((p.emitAll fs out).1.paused = false → (p.emitAll fs out).1.held = []) ∧
      regularIds (p.emitAll fs out).2 ++ regularIds (p.emitAll fs out).1.held =
        regularIds out ++ regularIds p.held ++ regularIds fs := by
  obtain ⟨hstate, hout⟩ := p.emitAll_eq fs out
  rw [hstate, hout]
  cases hp : p.paused with
  | true => simp
  | false => simp [h hp]

theorem flow_emit (f : Frame) :
    Flow p (p.emit f []).1 (p.emit f []).2 (regularIds [f]) := by
  obtain ⟨hholds, hids⟩ := flow_emitAll h [f] []
  exact ⟨hholds, hids⟩

theorem flow_emit_of_ne (hty : f.ty ≠ .regular) :
    Flow p (p.emit f []).1 (p.emit f []).2 [] :=
  regularIds_of_ne hty ▸ flow_emit h f

/-- Resending the queue after some frames: `ids` are those of the queue. -/
theorem flow_resend
    (hreg : ∀ u ∈ p.unacked, u.frame.ty = .regular) (now : Instant) (out : List Frame) :
    ((p.resend now out).1.paused = false → (p.resend now out).1.held = []) ∧
      regularIds (p.resend now out).2 ++ regularIds (p.resend now out).1.held =
        regularIds out ++ regularIds p.held ++ p.queuedIds := by
  obtain ⟨hholds, hids⟩ := flow_emitAll
    (p := { p with unacked := p.unacked.map fun u ↦ { u with writtenAt := some now } })
    h (p.unacked.map Unacked.frame) out
  refine ⟨hholds, hids.trans (congrArg _ (regularIds_eq_map ?_))⟩
  rintro f hf
  obtain ⟨u, hu, rfl⟩ := List.mem_map.1 hf
  exact hreg u hu

theorem flow_same (hpaused : q.paused = p.paused) (hheld : q.held = p.held) : Flow p q [] [] :=
  ⟨fun hq ↦ hheld ▸ h (hpaused ▸ hq), by simp [hheld]⟩

theorem flow_sendDisconnect :
    Flow p p.sendDisconnect.1 p.sendDisconnect.2 [] := by
  unfold sendDisconnect
  split
  · exact flow_same h rfl rfl
  · exact ⟨h, (List.append_nil _).symm⟩

theorem flow_tick (now : Instant) :
    Flow p (p.tick now).1 (p.tick now).2.1 [] := by
  have hack : Flow p (p.tickAck now).1 (p.tickAck now).2 [] := by
    have hemit := flow_emit_of_ne (p := { p with incomingAckId := p.incomingMsgId }) h
      (f := Frame.empty .ack p.incomingMsgId) (by simp)
    unfold tickAck
    split
    · split
      · split
        · exact ⟨hemit.holds, hemit.ids_eq⟩
        · exact flow_same h rfl rfl
      · exact flow_same h rfl rfl
    · exact flow_same h rfl rfl
  unfold tick
  dsimp only
  split <;> exact ⟨hack.holds, hack.ids_eq⟩

theorem flow_keepAlive :
    Flow p p.keepAlive.1 p.keepAlive.2 [] := by
  obtain ⟨hholds, hids⟩ := flow_emit_of_ne (p := { p with incomingAckId := p.incomingMsgId }) h
    (f := Frame.empty .keepAlive p.incomingMsgId) (by simp)
  exact ⟨hholds, hids⟩

/-- A message is emitted at once, or waits in the queue for the end of the reconnect. -/
theorem flow_send (data : Data) (now : Instant) :
    Flow p (p.send data now).1 (p.send data now).2
      (if p.reconnecting then [] else [wrap32 (p.outgoingMsgId + 1)]) := by
  unfold send
  dsimp only
  split
  · exact flow_same h rfl rfl
  · rw [← regularIds_singleton (f := ⟨.regular, _, p.incomingMsgId, data⟩) rfl]
    obtain ⟨hholds, hids⟩ := flow_emit (p := { p with
      outgoingMsgId := wrap32 (p.outgoingMsgId + 1), incomingAckId := p.incomingMsgId,
      unacked := p.unacked ++ [⟨⟨.regular, wrap32 (p.outgoingMsgId + 1), p.incomingMsgId, data⟩,
        some now⟩] }) h ⟨.regular, wrap32 (p.outgoingMsgId + 1), p.incomingMsgId, data⟩
    exact ⟨hholds, hids⟩

end

/-- Trimming leaves a part of the queue and changes nothing else that the stream depends on. -/
theorem trim_same (p : PersistentProtocol) (ack : ℕ) :
    (p.trim ack).held = p.held ∧ (p.trim ack).paused = p.paused ∧
      (p.trim ack).reconnecting = p.reconnecting ∧ (p.trim ack).outgoingMsgId = p.outgoingMsgId ∧
      (p.trim ack).unacked <:+ p.unacked := by
  unfold trim
  split
  · exact ⟨rfl, rfl, rfl, rfl, List.dropWhile_suffix _⟩
  · exact ⟨rfl, rfl, rfl, rfl, List.suffix_refl _⟩

/-- Only a replay request makes `receive` resend anything. -/
theorem flow_receive (h : p.paused = false → p.held = [])
    (hreg : ∀ u ∈ p.unacked, u.frame.ty = .regular) (f : Frame) (now : Instant) :
    Flow p (p.receive f now).1 (p.receive f now).2.2
      (if f.ty = .replayRequest then (p.trim f.ack).queuedIds else []) := by
  have htrim : trim { p with lastRead := now } f.ack = { p.trim f.ack with lastRead := now } := by
    unfold trim
    split <;> rfl
  obtain ⟨hheld, hpaused, -, -, hsub⟩ := p.trim_same f.ack
  rw [receive, htrim]
  generalize p.trim f.ack = t at *
  have ht : t.paused = false → t.held = [] := by rwa [hheld, hpaused]
  cases hty : f.ty with
  | none | ack | keepAlive | control | disconnect => exact flow_same h hpaused hheld
  | pause => exact ⟨fun hq ↦ absurd hq (by simp), by simp [hheld]⟩
  | resume => exact ⟨fun _ ↦ rfl, by simp [hheld]⟩
  | replayRequest =>
    obtain ⟨hholds, hids⟩ := flow_resend (p := { t with lastRead := now }) ht
      (fun u hu ↦ hreg u (hsub.subset hu)) now []
    exact ⟨hholds, hheld ▸ hids⟩
  | regular =>
    rw [if_neg (by simp)]
    simp only [receiveRegular]
    split_ifs
    · obtain ⟨hholds, hids⟩ := flow_emit_of_ne
        (p := { t with lastRead := now, lastReplayRequest := some now }) ht
        (f := Frame.empty .replayRequest 0) (by simp)
      exact ⟨hholds, hids.trans (congrArg (fun fs ↦ regularIds fs ++ []) hheld)⟩
    all_goals exact flow_same h hpaused hheld

/-- The end of a reconnect resends the queue. -/
theorem flow_endReconnect (h : p.paused = false → p.held = [])
    (hreg : ∀ u ∈ p.unacked, u.frame.ty = .regular) (now : Instant) :
    Flow p (p.endReconnect now).1 (p.endReconnect now).2 p.queuedIds := by
  obtain ⟨hholds, hids⟩ := flow_emit_of_ne
    (p := { p with reconnecting := false, incomingAckId := p.incomingMsgId }) h
    (f := Frame.empty .ack p.incomingMsgId) (by simp)
  have hstate := (emit_eq { p with reconnecting := false, incomingAckId := p.incomingMsgId }
    (Frame.empty .ack p.incomingMsgId) []).1
  unfold endReconnect
  dsimp only
  generalize emit { p with reconnecting := false, incomingAckId := p.incomingMsgId }
    (Frame.empty .ack p.incomingMsgId) [] = r at *
  have hunacked : r.1.unacked = p.unacked := by rw [hstate]
  obtain ⟨hholds', hids'⟩ := flow_resend hholds (hunacked ▸ hreg) now r.2
  refine ⟨hholds', hids'.trans ?_⟩
  rw [hids, queuedIds, hunacked, List.append_nil]
  rfl

/-! ### Who changes `reconnecting` -/

theorem reconnecting_emit (p : PersistentProtocol) (f : Frame) (out : List Frame) :
    (p.emit f out).1.reconnecting = p.reconnecting := by rw [(emit_eq p f out).1]

theorem reconnecting_resend (p : PersistentProtocol) (now : Instant) (out : List Frame) :
    (p.resend now out).1.reconnecting = p.reconnecting := by
  rw [resend, (emitAll_eq _ _ _).1]

theorem reconnecting_sendDisconnect (p : PersistentProtocol) :
    p.sendDisconnect.1.reconnecting = p.reconnecting := by
  unfold sendDisconnect
  split <;> rfl

theorem reconnecting_tick (p : PersistentProtocol) (now : Instant) :
    (p.tick now).1.reconnecting = p.reconnecting := by
  have hack : (p.tickAck now).1.reconnecting = p.reconnecting := by
    unfold tickAck
    split
    · split
      · split
        · exact reconnecting_emit _ _ _
        · rfl
      · rfl
    · rfl
  unfold tick
  dsimp only
  split <;> exact hack

theorem reconnecting_receive (p : PersistentProtocol) (f : Frame) (now : Instant) :
    (p.receive f now).1.reconnecting = p.reconnecting := by
  have htrim := (trim_same { p with lastRead := now } f.ack).2.2.1
  rw [receive]
  generalize trim { p with lastRead := now } f.ack = t at *
  cases hty : f.ty with
  | replayRequest => exact (reconnecting_resend _ _ _).trans htrim
  | regular =>
    simp only [receiveRegular]
    split_ifs
    · exact (reconnecting_emit _ _ _).trans htrim
    all_goals exact htrim
  | none | ack | keepAlive | control | disconnect | pause | resume => exact htrim

/-! ### What the queue always is -/

/-- What every run keeps of the protocol: nothing is held unless the peer has paused us, and the
queue holds regular messages with consecutive ids, up to the last one sent. -/
structure Steady (p : PersistentProtocol) : Prop where
  holds : p.paused = false → p.held = []
  regular : ∀ f ∈ p.unacked.map Unacked.frame, f.ty = .regular
  ids : ∃ a n, p.queuedIds = List.range' a n ∧ (n = 0 ∨ a + n = p.outgoingMsgId + 1)

theorem Steady.regular_unacked (h : p.Steady) : ∀ u ∈ p.unacked, u.frame.ty = .regular :=
  fun _ hu ↦ h.regular _ (List.mem_map_of_mem hu)

/-- A queue that is not empty ends with the last message sent. -/
theorem Steady.last_mem (h : p.Steady) (hne : p.queuedIds ≠ []) :
    p.outgoingMsgId ∈ p.queuedIds := by
  obtain ⟨a, n, hids, hn⟩ := h.ids
  rw [hids, Ne, List.range'_eq_nil_iff] at hne
  rw [hids, List.mem_range'_1]
  omega

theorem Steady.climbs_queuedIds (h : p.Steady) : Climbs p.queuedIds := by
  obtain ⟨a, n, hids, -⟩ := h.ids
  exact hids ▸ .range' a n

theorem Steady.of_flow {out : List Frame} {ids : List ℕ} (h : p.Steady) (hflow : Flow p q out ids)
    (hframes : q.unacked.map Unacked.frame = p.unacked.map Unacked.frame)
    (hmsg : q.outgoingMsgId = p.outgoingMsgId) : q.Steady where
  holds := hflow.holds
  regular := hframes ▸ h.regular
  ids := by
    rw [queuedIds, hframes, hmsg]
    exact h.ids

theorem Steady.trim (h : p.Steady) (ack : ℕ) : (p.trim ack).Steady := by
  obtain ⟨hheld, hpaused, -, hmsg, hsuffix⟩ := p.trim_same ack
  obtain ⟨gone, hgone⟩ := hsuffix.map Unacked.frame
  refine ⟨by rw [hheld, hpaused]; exact h.holds, fun f hf ↦ ?_, ?_⟩
  · exact h.regular f (hgone ▸ List.mem_append_right _ hf)
  · obtain ⟨a, n, hids, hn⟩ := h.ids
    refine ⟨a + gone.length, n - gone.length, ?_, by omega⟩
    have hdrop := congrArg (fun fs : List Frame ↦ (fs.map Frame.id).drop gone.length) hgone
    rw [List.map_append, List.drop_append_of_le_length (by simp), List.drop_of_length_le (by simp),
      List.nil_append] at hdrop
    rw [queuedIds, hdrop]
    rw [queuedIds] at hids
    rw [hids, List.drop_range', Nat.mul_one]

/-- Receiving leaves a part of the queue. -/
theorem Steady.receive (h : p.Steady) (f : Frame) (now : Instant) :
    (p.receive f now).1.Steady ∧ (p.receive f now).1.outgoingMsgId = p.outgoingMsgId ∧
      (p.receive f now).1.queuedIds = (p.trim f.ack).queuedIds := by
  have hflow := flow_receive h.holds h.regular_unacked f now
  obtain ⟨-, -, -, hmsg, -⟩ := p.trim_same f.ack
  have hq : (p.receive f now).1.unacked.map Unacked.frame =
      (p.trim f.ack).unacked.map Unacked.frame ∧
      (p.receive f now).1.outgoingMsgId = p.outgoingMsgId := by
    rcases p.receive_cases f now with ⟨hquiet, -⟩ | ⟨-, -, -, -, h1, -, h2, -⟩
    · exact ⟨hquiet.frames, hquiet.outgoingMsgId.trans hmsg⟩
    · exact ⟨congrArg _ h2, h1.trans hmsg⟩
  obtain ⟨hframes, hmsg'⟩ := hq
  have htrim := h.trim f.ack
  have hqueue : (p.receive f now).1.queuedIds = (p.trim f.ack).queuedIds :=
    congrArg (List.map Frame.id) hframes
  refine ⟨⟨hflow.holds, hframes ▸ htrim.regular, ?_⟩, hmsg', hqueue⟩
  rw [hqueue, hmsg', ← hmsg]
  exact htrim.ids

theorem Steady.send (h : p.Steady) (data : Data) (now : Instant)
    (hlt : p.outgoingMsgId + 1 < 2 ^ 32) :
    (p.send data now).1.Steady ∧ (p.send data now).1.outgoingMsgId = p.outgoingMsgId + 1 ∧
      (p.send data now).1.queuedIds = p.queuedIds ++ [p.outgoingMsgId + 1] ∧
      (p.send data now).1.reconnecting = p.reconnecting := by
  have hflow := flow_send h.holds data now
  have hq : (p.send data now).1.outgoingMsgId = p.outgoingMsgId + 1 ∧
      (p.send data now).1.unacked.map Unacked.frame = p.unacked.map Unacked.frame ++
        [⟨.regular, p.outgoingMsgId + 1, p.incomingMsgId, data⟩] ∧
      (p.send data now).1.reconnecting = p.reconnecting := by
    unfold PersistentProtocol.send
    rw [wrap32_of_lt hlt]
    split
    · exact ⟨rfl, List.map_append, rfl⟩
    · rw [(emit_eq _ _ _).1]
      exact ⟨rfl, List.map_append, rfl⟩
  obtain ⟨hmsg, hframes, hrec⟩ := hq
  have hids : (p.send data now).1.queuedIds = p.queuedIds ++ [p.outgoingMsgId + 1] := by
    rw [queuedIds, hframes, List.map_append]
    rfl
  refine ⟨⟨hflow.holds, fun f hf ↦ ?_, ?_⟩, hmsg, hids, hrec⟩
  · rw [hframes] at hf
    rcases List.mem_append.1 hf with hf | hf
    · exact h.regular f hf
    · exact List.mem_singleton.1 hf ▸ rfl
  · obtain ⟨a, n, hold, hn⟩ := h.ids
    rw [hids, hold, hmsg]
    rcases hn with rfl | hn
    · exact ⟨p.outgoingMsgId + 1, 1, rfl, .inr rfl⟩
    · refine ⟨a, n + 1, ?_, .inr (by omega)⟩
      rw [List.range'_concat, Nat.one_mul, hn]

end PersistentProtocol

/-- `Inner`: the protocol, the queue of the current writer, and what is between the two locks. -/
structure Connection where
  protocol : PersistentProtocol
  /-- What the protocol has returned and nobody has pushed yet: one batch for each call, in the order
  in which the calls held the first lock. -/
  pending : List (List Frame)
  /-- Whether there is a writer. -/
  writer : Bool
  /-- `replace_transport` has begun the reconnect and not replaced the writer yet. -/
  swapping : Bool
  /-- What was pushed to the current writer since its handshake ended, the first writer's before it
  began; `none` while the handshake goes on. -/
  pushed : Option (List Frame)
  deriving DecidableEq, Repr

variable {now : Instant}

namespace Connection

/-- `Connection::new`. -/
def new (now : Instant) : Connection where
  protocol := .new now
  pending := []
  writer := true
  swapping := false
  pushed := some []

/-- The atomic steps of the callers of the handle, the reader and the ticker. -/
inductive Op
  | send (data : Data) (now : Instant)
  | sendControl (data : Data)
  /-- The first half of `close`. -/
  | sendDisconnect
  /-- The second half of `close`, which takes the writer. -/
  | takeWriter
  /-- The first half of `replace_transport`. -/
  | beginReconnect (now : Instant)
  /-- The second half of `replace_transport`: the writer is replaced. -/
  | attach
  | finishReconnect (now : Instant)
  | receive (frame : Frame) (now : Instant)
  | tick (now : Instant)
  | keepAlive
  /-- `write`: whoever holds the `i`-th batch pushes it. -/
  | push (i : ℕ)
  deriving DecidableEq, Repr

/-- The protocol has returned `out`, which waits for its `write`; no frames are not written. -/
def returned (c : Connection) (p : PersistentProtocol) (out : List Frame) : Connection :=
  { c with protocol := p, pending := if out = [] then c.pending else c.pending ++ [out] }

/-- One atomic step. -/
def step (c : Connection) : Op → Connection
  | .send data now => c.returned (c.protocol.send data now).1 (c.protocol.send data now).2
  | .sendControl data => c.returned (c.protocol.sendControl data).1 (c.protocol.sendControl data).2
  | .sendDisconnect => c.returned c.protocol.sendDisconnect.1 c.protocol.sendDisconnect.2
  | .takeWriter => { c with writer := false, pushed := none }
  | .beginReconnect now => { c with protocol := c.protocol.beginReconnect now, swapping := true }
  | .attach => { c with writer := true, swapping := false, pushed := none }
  | .finishReconnect now =>
    { c.returned (c.protocol.endReconnect now).1 (c.protocol.endReconnect now).2 with
      pushed := if c.writer then some (c.pushed.getD []) else none }
  | .receive frame now =>
    c.returned (c.protocol.receive frame now).1 (c.protocol.receive frame now).2.2
  | .tick now => c.returned (c.protocol.tick now).1 (c.protocol.tick now).2.1
  | .keepAlive =>
    if c.protocol.reconnecting then c
    else c.returned c.protocol.keepAlive.1 c.protocol.keepAlive.2
  | .push i =>
    match c.pending[i]? with
    | none => c
    | some batch =>
      { c with pending := c.pending.eraseIdx i
               pushed := if c.writer then c.pushed.map (· ++ batch) else c.pushed }

/-- The runs of a connection. -/
def system (now : Instant) : StepSystem Connection Op := .ofFun (new now) step

/-- The regular messages pushed to the current writer are in order: none comes before its
predecessor, and where nothing was resent they are consecutive. -/
def InOrder (c : Connection) : Prop :=
  ∀ fs, c.pushed = some fs → Climbs (regularIds fs) ∧
    ((regularIds fs).Nodup → ∃ a, regularIds fs = List.range' a (regularIds fs).length)

/-- The order of the steps keeps the order of the messages: a batch with regular messages is not
pushed before an older one that has some, `finish_reconnect` is not called before the writer is
replaced nor with regular messages still on their way to it, and the reader of the old socket answers
no replay request while the writer is being replaced. Fewer than `2 ^ 32` messages are sent. -/
def Kept (c : Connection) : Op → Prop
  | .send _ _ => c.protocol.outgoingMsgId + 1 < 2 ^ 32
  | .receive frame _ => c.swapping = true → c.pushed ≠ none → frame.ty ≠ .replayRequest
  | .finishReconnect _ => c.swapping = false ∧
      (c.pushed = none → regularIds (c.pending.flatten ++ c.protocol.held) = [])
  | .push i => c.pushed ≠ none → regularIds (c.pending[i]?.getD []) = [] ∨
      regularIds (c.pending.take i).flatten = []
  | _ => True

instance (c : Connection) (op : Op) : Decidable (c.Kept op) := by
  cases op <;> unfold Kept <;> infer_instance

/-! ### What a step does to the stream -/

/-- The regular messages of the current socket: pushed, on their way, and held back. -/
def stream (c : Connection) (fs : List Frame) : List ℕ :=
  regularIds fs ++ regularIds c.pending.flatten ++ regularIds c.protocol.held

/-- The stream `l` of a socket climbs. Unless the writer is being replaced it ends with the last
message sent, and everything in the queue is in it. -/
structure InStep (c : Connection) (l : List ℕ) : Prop where
  climbs : Climbs l
  swapping : c.swapping = true →
    c.protocol.reconnecting = true ∧ regularIds c.protocol.held = []
  settled : c.swapping = false → c.protocol.reconnecting = false ∧
    (∀ x ∈ c.protocol.queuedIds, x ∈ l) ∧ (l ≠ [] → c.protocol.outgoingMsgId ∈ l)

/-- What every state of a run keeps. -/
structure Sound (c : Connection) : Prop where
  steady : c.protocol.Steady
  writer : c.pushed ≠ none → c.writer = true
  stream : ∀ fs, c.pushed = some fs → c.InStep (c.stream fs)

open PersistentProtocol

variable {c : Connection} {q : PersistentProtocol} {out : List Frame} {ids : List ℕ}

theorem stream_returned (h : Flow c.protocol q out ids) (fs : List Frame) :
    (c.returned q out).stream fs = c.stream fs ++ ids := by
  have hpending : regularIds (c.returned q out).pending.flatten =
      regularIds c.pending.flatten ++ regularIds out := by
    unfold returned
    split
    · next hout => rw [hout, regularIds_nil, List.append_nil]
    · rw [List.flatten_append, regularIds_append, List.flatten_singleton]
  show regularIds fs ++ regularIds (c.returned q out).pending.flatten ++ regularIds q.held = _
  rw [hpending, stream, List.append_assoc, List.append_assoc, h.ids_eq]
  simp only [List.append_assoc]

section

variable (h : c.Sound)
include h

/-- A step that adds to the stream only messages of the queue. -/
theorem Sound.returned (hsteady : q.Steady) (hflow : Flow c.protocol q out ids)
    (hrec : c.pushed ≠ none → q.reconnecting = c.protocol.reconnecting)
    (hmsg : q.outgoingMsgId = c.protocol.outgoingMsgId)
    (hqueue : ∀ x ∈ q.queuedIds, x ∈ c.protocol.queuedIds)
    (hids : ∀ x ∈ ids, x ∈ c.protocol.queuedIds)
    (hswap : c.swapping = true → c.pushed ≠ none → ids = []) : (c.returned q out).Sound where
  steady := hsteady
  writer := h.writer
  stream fs hfs := by
    have hpushed : c.pushed = some fs := hfs
    have hne : c.pushed ≠ none := by simp [hpushed]
    have hold := h.stream fs hpushed
    rw [stream_returned hflow]
    cases hsw : c.swapping with
    | true =>
      obtain rfl := hswap hsw hne
      obtain ⟨hrecon, hheld⟩ := hold.swapping hsw
      have hnil := hflow.ids_eq
      rw [hheld, List.append_nil, List.append_eq_nil_iff] at hnil
      refine ⟨(List.append_nil _).symm ▸ hold.climbs, fun _ ↦ ⟨(hrec hne).trans hrecon, hnil.2⟩, ?_⟩
      exact fun hfalse ↦ absurd (hsw.symm.trans hfalse) (by simp)
    | false =>
      obtain ⟨hrecon, hall, hlast⟩ := hold.settled hsw
      have hsub : ∀ x ∈ ids, x ∈ c.stream fs := fun x hx ↦ hall x (hids x hx)
      refine ⟨hold.climbs.append_of_subset hsub, fun htrue ↦ ?_, fun _ ↦ ⟨(hrec hne).trans hrecon,
        fun x hx ↦ List.mem_append_left _ (hall x (hqueue x hx)), fun hl ↦ ?_⟩⟩
      · exact absurd (hsw.symm.trans htrue) (by simp)
      · refine List.mem_append_left _ ((congrArg (· ∈ c.stream fs) hmsg).mpr (hlast fun hnil ↦ hl ?_))
        rw [hnil] at hsub ⊢
        exact List.eq_nil_iff_forall_not_mem.2 fun x hx ↦ absurd (hsub x hx) List.not_mem_nil

/-- A step that adds nothing to the stream. -/
theorem Sound.quiet (hflow : Flow c.protocol q out [])
    (hquiet : Quiet c.protocol q out) (hrec : q.reconnecting = c.protocol.reconnecting) :
    (c.returned q out).Sound := by
  refine h.returned (h.steady.of_flow hflow hquiet.frames hquiet.outgoingMsgId) hflow
    (fun _ ↦ hrec) hquiet.outgoingMsgId (fun x hx ↦ ?_) (fun x hx ↦ absurd hx List.not_mem_nil)
    fun _ _ ↦ rfl
  rwa [queuedIds, hquiet.frames] at hx

/-- A message that is sent is the next one of the stream. -/
theorem Sound.send (data : Data) (now : Instant)
    (hlt : c.protocol.outgoingMsgId + 1 < 2 ^ 32) : (c.step (.send data now)).Sound := by
  obtain ⟨hsteady, hmsg, hqueue, hrec⟩ := h.steady.send data now hlt
  have hflow := flow_send h.steady.holds data now
  rw [wrap32_of_lt hlt] at hflow
  refine ⟨hsteady, h.writer, fun fs hfs ↦ ?_⟩
  have hold := h.stream fs hfs
  rw [step, stream_returned hflow]
  cases hsw : c.swapping with
  | true =>
    obtain ⟨hrecon, hheld⟩ := hold.swapping hsw
    rw [if_pos hrecon, List.append_nil]
    have hnil := hflow.ids_eq
    rw [if_pos hrecon, hheld, List.append_nil, List.append_eq_nil_iff] at hnil
    refine ⟨hold.climbs, fun _ ↦ ⟨hrec.trans hrecon, hnil.2⟩, fun hfalse ↦ ?_⟩
    exact absurd (hsw.symm.trans hfalse) (by simp)
  | false =>
    obtain ⟨hrecon, hall, hlast⟩ := hold.settled hsw
    rw [if_neg (by simp [hrecon])]
    have hnew : c.protocol.outgoingMsgId + 1 ∈ c.stream fs ++ [c.protocol.outgoingMsgId + 1] :=
      List.mem_append_right _ List.mem_cons_self
    refine ⟨hold.climbs.concat fun hne ↦ .inr ⟨_, hlast hne, rfl⟩, fun htrue ↦ ?_, fun _ ↦
      ⟨hrec.trans hrecon, fun x hx ↦ ?_, fun _ ↦ hmsg ▸ hnew⟩⟩
    · exact absurd (hsw.symm.trans htrue) (by simp)
    · have hx' : x ∈ c.protocol.queuedIds ++ [c.protocol.outgoingMsgId + 1] := hqueue ▸ hx
      rcases List.mem_append.1 hx' with hx' | hx'
      · exact List.mem_append_left _ (hall x hx')
      · exact List.mem_append_right _ hx'

theorem Sound.receive {frame : Frame}
    (hk : c.Kept (.receive frame now)) : (c.step (.receive frame now)).Sound := by
  have hflow := flow_receive h.steady.holds h.steady.regular_unacked frame now
  obtain ⟨-, -, -, -, hsuffix⟩ := c.protocol.trim_same frame.ack
  have hsub : ∀ x ∈ (c.protocol.trim frame.ack).queuedIds, x ∈ c.protocol.queuedIds :=
    fun x hx ↦ ((hsuffix.map _).map _).subset hx
  obtain ⟨hsteady, hmsg, hqueue⟩ := h.steady.receive frame now
  refine h.returned hsteady hflow (fun _ ↦ reconnecting_receive _ _ _) hmsg
    (fun x hx ↦ hsub x (hqueue ▸ hx)) ?_ ?_
  · split
    · exact hsub
    · exact fun x hx ↦ absurd hx List.not_mem_nil
  · exact fun hsw hne ↦ if_neg (hk hsw hne)

/-- The end of the handshake: the stream goes on, or begins with the queue. -/
theorem Sound.finishReconnect (hk : c.Kept (.finishReconnect now)) :
    (c.step (.finishReconnect now)).Sound := by
  obtain ⟨hsw, hclear⟩ := hk
  have hflow := flow_endReconnect h.steady.holds h.steady.regular_unacked now
  have hquiet := quiet_endReconnect c.protocol now
  have hsteady := h.steady.of_flow hflow hquiet.frames hquiet.outgoingMsgId
  have hqueue : (c.protocol.endReconnect now).1.queuedIds = c.protocol.queuedIds :=
    congrArg (List.map Frame.id) hquiet.frames
  have hrec : (c.protocol.endReconnect now).1.reconnecting = false := by
    unfold endReconnect
    exact (reconnecting_resend _ _ _).trans (reconnecting_emit _ _ _)
  have hpushed' : (c.step (.finishReconnect now)).pushed =
      if c.writer then some (c.pushed.getD []) else none := rfl
  refine ⟨hsteady, fun hne ↦ ?_, fun fs hfs ↦ ?_⟩
  · rw [hpushed'] at hne
    exact (ite_ne_right_iff.1 hne).1
  have hwriter : c.pushed.getD [] = fs := by
    rw [hpushed'] at hfs
    split at hfs
    · exact Option.some.inj hfs
    · exact absurd hfs (by simp)
  cases hpushed : c.pushed with
  | some gs =>
    obtain rfl : gs = fs := by simpa [hpushed] using hwriter
    have hsound := h.returned hsteady hflow
      (fun _ ↦ hrec.trans ((h.stream gs hpushed).settled hsw).1.symm) hquiet.outgoingMsgId
      (fun x hx ↦ hqueue ▸ hx) (fun x hx ↦ hx) fun hsw' ↦ absurd (hsw.symm.trans hsw') (by simp)
    obtain ⟨hclimbs, hswapping, hsettled⟩ := hsound.stream gs hpushed
    exact ⟨hclimbs, hswapping, hsettled⟩
  | none =>
    obtain rfl : [] = fs := by simpa [hpushed] using hwriter
    have hnil := hclear hpushed
    rw [regularIds_append] at hnil
    have hstream : (c.step (.finishReconnect now)).stream [] = c.protocol.queuedIds := by
      refine (stream_returned hflow []).trans ?_
      rw [Connection.stream, regularIds_nil, List.nil_append, hnil, List.nil_append]
    rw [hstream]
    refine ⟨h.steady.climbs_queuedIds, fun htrue ↦ absurd (hsw.symm.trans htrue) (by simp), ?_⟩
    refine fun _ ↦ ⟨hrec, fun x hx ↦ hqueue ▸ hx, fun hne ↦ ?_⟩
    exact (congrArg (· ∈ c.protocol.queuedIds) hquiet.outgoingMsgId).mpr (h.steady.last_mem hne)

/-- A batch that is pushed goes from the frames on their way to the pushed ones. -/
theorem Sound.push {i : ℕ} (hk : c.Kept (.push i)) : (c.step (.push i)).Sound := by
  rw [step]
  cases hi : c.pending[i]? with
  | none => exact h
  | some batch =>
    obtain ⟨hlt, hget⟩ := List.getElem?_eq_some_iff.1 hi
    have hsplit : c.pending = c.pending.take i ++ batch :: c.pending.drop (i + 1) := by
      rw [← hget, List.getElem_cons_drop, List.take_append_drop]
    have hrest : c.pending.eraseIdx i = c.pending.take i ++ c.pending.drop (i + 1) :=
      List.eraseIdx_eq_take_drop_succ ..
    refine ⟨h.steady, fun hne ↦ h.writer fun hnone ↦ hne (by simp [hnone]), fun fs hfs ↦ ?_⟩
    cases hpushed : c.pushed with
    | none => simp [hpushed] at hfs
    | some gs =>
      have hne : c.pushed ≠ none := by simp [hpushed]
      obtain rfl : gs ++ batch = fs := by simpa [hpushed, h.writer hne] using hfs
      have hlate := hk hne
      rw [hi, Option.getD_some] at hlate
      obtain ⟨hclimbs, hswapping, hsettled⟩ := h.stream gs hpushed
      -- The batch is the oldest one with regular messages, or has none.
      have hstream : regularIds (gs ++ batch) ++ regularIds (c.pending.eraseIdx i).flatten ++
          regularIds c.protocol.held = c.stream gs := by
        rw [Connection.stream, hrest]
        conv_rhs => rw [hsplit]
        rcases hlate with hnil | hnil <;> simp [hnil]
      show InStep _ (regularIds (gs ++ batch) ++ regularIds (c.pending.eraseIdx i).flatten ++
        regularIds c.protocol.held)
      rw [hstream]
      exact ⟨hclimbs, hswapping, hsettled⟩

theorem Sound.beginReconnect (now : Instant) :
    (c.step (.beginReconnect now)).Sound where
  steady := ⟨fun _ ↦ rfl, h.steady.regular, h.steady.ids⟩
  writer := h.writer
  stream fs hfs := by
    refine ⟨?_, fun _ ↦ ⟨rfl, rfl⟩, fun hfalse ↦ absurd hfalse (by simp [step])⟩
    show Climbs (regularIds fs ++ regularIds c.pending.flatten ++ [])
    rw [List.append_nil]
    exact (h.stream fs hfs).climbs.of_append

/-- **What a step keeps.** -/
theorem Sound.step {op : Op} (hk : c.Kept op) : (c.step op).Sound := by
  cases op with
  | send data now => exact h.send data now hk
  | sendControl data =>
    exact h.quiet (flow_emit_of_ne h.steady.holds (by simp)) (quiet_sendControl _ _)
      (reconnecting_emit _ _ _)
  | sendDisconnect =>
    exact h.quiet (flow_sendDisconnect h.steady.holds) (quiet_sendDisconnect _)
      (reconnecting_sendDisconnect _)
  | takeWriter | attach =>
    exact ⟨h.steady, fun hne ↦ absurd rfl hne, fun fs hfs ↦ absurd hfs (by simp [Connection.step])⟩
  | beginReconnect now => exact h.beginReconnect now
  | finishReconnect now => exact h.finishReconnect hk
  | receive frame now => exact h.receive hk
  | tick now =>
    exact h.quiet (flow_tick h.steady.holds now) (quiet_tick _ _) (reconnecting_tick _ _)
  | keepAlive =>
    rw [Connection.step]
    split
    · exact h
    · exact h.quiet (flow_keepAlive h.steady.holds) (quiet_keepAlive _) (reconnecting_emit _ _ _)
  | push i => exact h.push hk

end

/-- A connection that was just made. -/
theorem sound_new (now : Instant) : (new now).Sound where
  steady := ⟨fun _ ↦ rfl, fun f hf ↦ absurd hf List.not_mem_nil, 0, 0, rfl, .inl rfl⟩
  writer _ := rfl
  stream fs hfs := by
    obtain rfl : [] = fs := Option.some.inj hfs
    exact ⟨.nil, fun hsw ↦ absurd hsw (by simp [new]), fun _ ↦
      ⟨rfl, fun x hx ↦ absurd hx List.not_mem_nil, fun hne ↦ absurd rfl hne⟩⟩

/-- **The messages of a socket stay in order where their frames are pushed in order.** In every run
whose steps keep the order of the batches, the regular messages pushed to the current writer since
its handshake climb by ones. -/
theorem climbs_of_kept (now : Instant) (h : ((system now).restrict Kept).Reachable c) :
    c.InOrder := by
  have hsound : c.Sound := by
    refine h.invariant (fun s hs ↦ ?_) fun s op t _ hs hstep ↦ ?_
    · obtain rfl := hs
      exact sound_new now
    · obtain ⟨hkept, rfl⟩ := hstep
      exact hs.step hkept
  intro fs hfs
  have hclimbs : Climbs (regularIds fs) := by
    have hall := (hsound.stream fs hfs).climbs
    rw [Connection.stream, List.append_assoc] at hall
    exact hall.of_append
  exact ⟨hclimbs, hclimbs.eq_range'⟩

/-- A socket is replaced while two messages wait, the queue is resent, the peer acknowledges the
first message, and a third one follows. -/
def resent : List Op :=
  [.beginReconnect 0, .send [1] 0, .attach, .send [2] 0, .finishReconnect 0, .push 0,
    .receive (.empty .ack 1) 0, .send [3] 0, .push 0]

theorem climbs_of_kept_resent : InOrder (resent.foldl step (new 0)) :=
  climbs_of_kept 0 (.foldl_of_allMeet (S := system 0) (fun _ _ ↦ rfl) (.start rfl)
    (show StepSystem.AllMeet step Kept (new 0) resent by decide))

/-- After a reconnect two callers of `send` take the first lock one after the other, and the second
lock in the other order. -/
def overtaken : List Op :=
  [.beginReconnect 0, .attach, .finishReconnect 0, .push 0, .send [1] 0, .send [2] 0, .push 1,
    .push 0]

/-- Message 2 is pushed before message 1. -/
theorem not_climbs : ¬ ∀ c, (system 0).Reachable c → c.InOrder := by
  intro h
  obtain ⟨hclimbs, -⟩ := h _ (StepSystem.reachable_foldl overtaken)
    [.empty .ack 0, ⟨.regular, 2, 0, [2]⟩, ⟨.regular, 1, 0, [1]⟩] (by decide)
  rcases hclimbs [2] 1 [] rfl (by simp) with hmem | ⟨y, hy, hsucc⟩
  · exact absurd hmem (by decide)
  · rw [List.mem_singleton.1 hy] at hsucc
    exact absurd hsucc (by decide)

end Connection

end Ember.EditorConn
