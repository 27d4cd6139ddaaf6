import Ember.EditorConn.Protocol
import Ember.Foundation.Runs
import Mathlib.Data.List.Zip
import Mathlib.Logic.Function.Basic
import Mathlib.Order.Basic

/-!
# Two endpoints joined by a lossy sequence of sockets

Each end owns a `PersistentProtocol` and is attached to one socket at a time. A socket delivers the
frames written to it in order, separately in each direction. Reconnecting attaches an end to a
socket it has not used yet: whatever the old socket still carried towards it is then lost, which is
a suffix of the frames in flight, since any prefix may have been delivered before.

The ends reconnect independently, so one of them may go on writing to a socket the other has left.

## What is proved

`Link.handedUp_prefix_sent` is the delivery guarantee. It rests on two facts about one direction,
kept together in `Direction`: a frame with id `n` carries the `n`-th payload sent wherever it is (in
the queue, held back, on any socket), and no acknowledgement anywhere exceeds what has been handed
up. The order of frames on the wire is not used.
-/

namespace Ember.EditorConn

/-- The two ends of the link. -/
inductive Side
  | a
  | b
  deriving DecidableEq, Repr

/-- The other end. -/
def Side.peer : Side → Side
  | .a => .b
  | .b => .a

@[simp] theorem Side.peer_peer (x : Side) : x.peer.peer = x := by cases x <;> rfl

@[simp] theorem Side.peer_ne (x : Side) : x.peer ≠ x := by cases x <;> decide

@[simp] theorem Side.ne_peer (x : Side) : x ≠ x.peer := by cases x <;> decide

/-- One end: its protocol, the socket it is attached to, the payloads its user passed to `send` and
the payloads it handed up as `Inbound::Regular`. -/
structure Endpoint where
  proto : PersistentProtocol
  socket : ℕ
  sent : List Data
  handedUp : List Data

/-- The payload a call of `receive` hands up to the regular stream. -/
def Inbound.payload : Option Inbound → List Data
  | some (.regular data) => [data]
  | _ => []

/-- Both ends, and for every socket and writing end the frames written but not read. -/
structure Link where
  ends : Side → Endpoint
  wire : ℕ → Side → List Frame

namespace Link

/-- Everything that can happen: calls of an end's methods, frames its peer's upper layer injects,
and arrivals. -/
inductive Action
  | send (x : Side) (data : Data) (now : Instant)
  | sendControl (x : Side) (data : Data)
  | sendDisconnect (x : Side)
  | tick (x : Side) (now : Instant)
  | keepAlive (x : Side)
  /-- End `x` writes a `Pause`, `Resume` or `ReplayRequest` frame, which `PersistentProtocol`
  itself sends only as a replay request. -/
  | inject (x : Side) (ty : MessageType) (ack : ℕ)
  /-- The oldest frame on `x`'s socket arrives at `x`. -/
  | deliver (x : Side) (now : Instant)
  | beginReconnect (x : Side) (socket : ℕ) (now : Instant)
  | endReconnect (x : Side) (now : Instant)
  deriving DecidableEq, Repr

/-- Write frames to `x`'s socket. -/
def write (l : Link) (x : Side) (out : List Frame) : Link :=
  { l with wire := fun n y ↦
      if n = (l.ends x).socket ∧ y = x then l.wire n y ++ out else l.wire n y }

/-- Replace end `x`. -/
def setEnd (l : Link) (x : Side) (e : Endpoint) : Link :=
  { l with ends := Function.update l.ends x e }

/-- Replace the protocol of end `x` and write the frames it returned. -/
def run (l : Link) (x : Side) (r : PersistentProtocol × List Frame) : Link :=
  (l.setEnd x { l.ends x with proto := r.1 }).write x r.2

/-- Leave only `rest` on the wire towards `x`. -/
def pop (l : Link) (x : Side) (rest : List Frame) : Link :=
  { l with wire := fun n y ↦
      if n = (l.ends x).socket ∧ y = x.peer then rest else l.wire n y }

/-- `x` reads `f`, the oldest frame towards it, leaving `rest` on the wire. -/
def read (l : Link) (x : Side) (f : Frame) (rest : List Frame) (now : Instant) : Link :=
  let e := l.ends x
  let r := e.proto.receive f now
  ((l.pop x rest).setEnd x
    { e with proto := r.1, handedUp := e.handedUp ++ Inbound.payload r.2.1 }).write x r.2.2

/-- One action. A frame can arrive only if there is one; the injected kinds and their
acknowledgements are those a peer of this protocol writes; a reconnect uses a fresh socket. -/
inductive Step (l : Link) : Action → Link → Prop
  | send (x : Side) (data : Data) (now : Instant) :
      Step l (.send x data now)
        ((l.setEnd x { l.ends x with sent := (l.ends x).sent ++ [data] }).run x
          ((l.ends x).proto.send data now))
  | sendControl (x : Side) (data : Data) :
      Step l (.sendControl x data) (l.run x ((l.ends x).proto.sendControl data))
  | sendDisconnect (x : Side) :
      Step l (.sendDisconnect x) (l.run x (l.ends x).proto.sendDisconnect)
  | tick (x : Side) (now : Instant) :
      Step l (.tick x now)
        (l.run x (((l.ends x).proto.tick now).1, ((l.ends x).proto.tick now).2.1))
  | keepAlive (x : Side) : Step l (.keepAlive x) (l.run x (l.ends x).proto.keepAlive)
  | inject (x : Side) (ty : MessageType) (ack : ℕ)
      (hty : ty = .pause ∨ ty = .resume ∨ ty = .replayRequest)
      (hack : ack ≤ (l.ends x).proto.incomingMsgId) :
      Step l (.inject x ty ack) (l.write x [Frame.empty ty ack])
  | deliver (x : Side) (now : Instant) (f : Frame) (rest : List Frame)
      (hf : l.wire (l.ends x).socket x.peer = f :: rest) :
      Step l (.deliver x now) (l.read x f rest now)
  | beginReconnect (x : Side) (socket : ℕ) (now : Instant)
      (hfresh : (l.ends x).socket < socket) :
      Step l (.beginReconnect x socket now)
        (l.setEnd x { l.ends x with
          proto := (l.ends x).proto.beginReconnect now, socket := socket })
  | endReconnect (x : Side) (now : Instant) :
      Step l (.endReconnect x now) (l.run x ((l.ends x).proto.endReconnect now))

/-- Two new endpoints on socket 0, nothing in flight. -/
def initial (now : Instant) : Link where
  ends _ := ⟨.new now, 0, [], []⟩
  wire _ _ := []

/-- The runs of the link. -/
def system : StepSystem Link Action where
  init l := ∃ now, l = initial now
  step := Step

end Link

/-! ### What one end guarantees about the frames it writes -/

/-- A frame that end `e` may have written: it acknowledges no more than `e` has received, and with
id `n` it carries the `n`-th payload sent. -/
def Endpoint.Wrote (e : Endpoint) (f : Frame) : Prop :=
  f.ack ≤ e.proto.incomingMsgId ∧ (f.ty = .regular → 0 < f.id ∧ e.sent[f.id - 1]? = some f.data)

/-- The payloads numbered as the ids number them. -/
def numbered (sent : List Data) : List (Data × ℕ) := sent.zipIdx 1

/-- Dropping from a numbered list what is numbered up to `a`, after dropping `k` entries. -/
theorem dropWhile_drop_zipIdx {α : Type*} (l : List α) (n k a : ℕ) :
    ((l.zipIdx n).drop k).dropWhile (fun p ↦ decide (p.2 ≤ a)) =
      (l.zipIdx n).drop (max k (a + 1 - n)) := by
  induction l generalizing n k with
  | nil => simp
  | cons x l ih =>
    cases k with
    | succ k =>
      have hmax : max (k + 1) (a + 1 - n) = max k (a + 1 - (n + 1)) + 1 := by omega
      rw [List.zipIdx_cons, List.drop_succ_cons, ih, hmax, List.drop_succ_cons]
    | zero =>
      rw [List.zipIdx_cons, List.drop_zero, List.dropWhile_cons]
      by_cases h : n ≤ a
      · have hmax : max 0 (a + 1 - n) = max 0 (a + 1 - (n + 1)) + 1 := by omega
        simp only [h, decide_true, if_true]
        rw [hmax, List.drop_succ_cons, ← ih, List.drop_zero]
      · have hmax : max 0 (a + 1 - n) = 0 := by omega
        rw [hmax]
        simp [h]

/-- What holds of one end by itself: ids count the payloads sent, and the queue holds exactly the
unacknowledged ones. -/
structure Endpoint.Valid (e : Endpoint) : Prop where
  outgoing : e.proto.outgoingMsgId = e.sent.length
  acked : e.proto.outgoingAckId ≤ e.sent.length
  queue : (e.proto.unacked.map fun u ↦ (u.frame.data, u.frame.id)) =
    (numbered e.sent).drop e.proto.outgoingAckId
  queued : ∀ f ∈ e.proto.unacked.map Unacked.frame, e.Wrote f
  held : ∀ f ∈ e.proto.held, e.Wrote f
  received : e.handedUp.length = e.proto.incomingMsgId

variable {f : Frame} {out : List Frame}

namespace Endpoint

variable {e e' : Endpoint}

/-- What an end may have written it may still have written later. -/
theorem Wrote.mono (h : e.Wrote f) (hinc : e.proto.incomingMsgId ≤ e'.proto.incomingMsgId)
    (hsent : e.sent <+: e'.sent) :
    e'.Wrote f := by
  refine ⟨h.1.trans hinc, fun hty ↦ ⟨(h.2 hty).1, ?_⟩⟩
  obtain ⟨rest, hrest⟩ := hsent
  have hget := (h.2 hty).2
  have hlt : f.id - 1 < e.sent.length := (List.getElem?_eq_some_iff.1 hget).1
  rw [← hrest, List.getElem?_append_left hlt]
  exact hget

/-- The queue depends only on the queued frames. -/
theorem queue_of_frames {us vs : List Unacked} (h : us.map Unacked.frame = vs.map Unacked.frame) :
    (us.map fun u ↦ (u.frame.data, u.frame.id)) = vs.map fun u ↦ (u.frame.data, u.frame.id) := by
  have := congrArg (List.map fun f : Frame ↦ (f.data, f.id)) h
  simpa [Function.comp_def] using this

/-- A quiet step keeps an end valid, and writes only frames the end may write. -/
theorem Valid.quiet (h : e.Valid) {q : PersistentProtocol}
    (hq : PersistentProtocol.Quiet e.proto q out) :
    ({ e with proto := q } : Endpoint).Valid ∧
      ∀ f ∈ out, ({ e with proto := q } : Endpoint).Wrote f := by
  have hmono : ∀ f, e.Wrote f → ({ e with proto := q } : Endpoint).Wrote f :=
    fun f hf ↦ hf.mono hq.incomingMsgId.ge (List.prefix_refl _)
  have hwritten : ∀ f ∈ q.held ++ out, ({ e with proto := q } : Endpoint).Wrote f := by
    intro f hf
    rcases hq.written f hf with h' | h' | ⟨hty, hack⟩
    · exact hmono f (h.held f h')
    · exact hmono f (h.queued f h')
    · exact hmono f ⟨hack, fun hreg ↦ absurd hreg hty⟩
  refine ⟨⟨?_, ?_, ?_, ?_, fun f hf ↦ hwritten f (List.mem_append_left _ hf), ?_⟩,
    fun f hf ↦ hwritten f (List.mem_append_right _ hf)⟩
  · exact hq.outgoingMsgId.trans h.outgoing
  · exact hq.outgoingAckId.le.trans h.acked
  · rw [queue_of_frames hq.frames, h.queue, hq.outgoingAckId]
  · intro f hf
    exact hmono f (h.queued f (hq.frames ▸ hf))
  · exact h.received.trans hq.incomingMsgId.symm

/-- Trimming by an acknowledgement of something sent keeps an end valid. -/
theorem Valid.trim (h : e.Valid) {ack : ℕ} (hack : ack ≤ e.sent.length) :
    ({ e with proto := e.proto.trim ack } : Endpoint).Valid := by
  unfold PersistentProtocol.trim
  split
  case isFalse => exact h
  case isTrue hlt =>
    refine ⟨h.outgoing, hack, ?_, ?_, h.held, h.received⟩
    · have hmap : ∀ us : List Unacked, ((us.dropWhile fun u ↦ decide (u.frame.id ≤ ack)).map
            fun u ↦ (u.frame.data, u.frame.id)) =
          (us.map fun u ↦ (u.frame.data, u.frame.id)).dropWhile fun p ↦ decide (p.2 ≤ ack) := by
        intro us
        rw [List.dropWhile_map]
        rfl
      show (List.map _ (List.dropWhile _ _)) = _
      rw [hmap, h.queue, numbered, dropWhile_drop_zipIdx]
      congr 1
      show _ = ack
      omega
    · intro f hf
      obtain ⟨u, hu, rfl⟩ := List.mem_map.1 hf
      exact h.queued _ (List.mem_map_of_mem (List.dropWhile_subset _ hu))

end Endpoint

/-! ### The invariant of the link -/

/-- What holds of the direction from `x` to its peer. -/
structure Link.Direction (l : Link) (x : Side) : Prop where
  valid : (l.ends x).Valid
  wire : ∀ n, ∀ f ∈ l.wire n x, (l.ends x).Wrote f
  acked : (l.ends x).proto.outgoingAckId ≤ (l.ends x.peer).proto.incomingMsgId
  delivered : (l.ends x.peer).handedUp <+: (l.ends x).sent

/-- Both directions. -/
def Link.Inv (l : Link) : Prop := ∀ x, l.Direction x

/-- Fewer than `2 ^ 32` messages each way. -/
def Link.Bounded (l : Link) : Prop := ∀ x, (l.ends x).sent.length < 2 ^ 32

variable {x y : Side} {rest : List Frame}

namespace Link

variable {l l' : Link}

/-- No more has been received than was sent. -/
theorem Inv.incoming_le (h : l.Inv) (x : Side) :
    (l.ends x).proto.incomingMsgId ≤ (l.ends x.peer).sent.length := by
  rw [← (h x).valid.received]
  have := (h x.peer).delivered
  rw [Side.peer_peer] at this
  exact this.length_le

/-- **The step rule.** One end changes and writes frames it may write; the other end, and what is in
flight towards the changed one, can only shrink. -/
theorem Inv.update (h : l.Inv) {e : Endpoint} (hends : l'.ends = Function.update l.ends x e)
    (hwx : ∀ n, ∀ f ∈ l'.wire n x, f ∈ l.wire n x ∨ e.Wrote f)
    (hwp : ∀ n, ∀ f ∈ l'.wire n x.peer, f ∈ l.wire n x.peer)
    (hvalid : e.Valid) (hinc : (l.ends x).proto.incomingMsgId ≤ e.proto.incomingMsgId)
    (hsent : (l.ends x).sent <+: e.sent)
    (hacked : e.proto.outgoingAckId ≤ (l.ends x.peer).proto.incomingMsgId)
    (hup : e.handedUp <+: (l.ends x.peer).sent) : l'.Inv := by
  have hx : l'.ends x = e := by rw [hends, Function.update_self]
  have hp : l'.ends x.peer = l.ends x.peer := by
    rw [hends, Function.update_of_ne (Side.peer_ne x)]
  have hdx : l'.Direction x := by
    refine ⟨hx ▸ hvalid, fun n f hf ↦ ?_, by rw [hx, hp]; exact hacked, ?_⟩
    · rw [hx]
      rcases hwx n f hf with hf | hf
      · exact ((h x).wire n f hf).mono hinc hsent
      · exact hf
    · rw [hx, hp]
      exact (h x).delivered.trans hsent
  have hdp : l'.Direction x.peer := by
    have hold := h x.peer
    refine ⟨hp ▸ hold.valid, fun n f hf ↦ ?_, ?_, ?_⟩
    · rw [hp]
      exact hold.wire n f (hwp n f hf)
    · have := hold.acked
      rw [Side.peer_peer] at this ⊢
      rw [hx, hp]
      exact this.trans hinc
    · rw [Side.peer_peer, hx, hp]
      exact hup
  intro y
  by_cases hy : y = x
  · exact hy ▸ hdx
  · have : y = x.peer := by cases x <;> cases y <;> simp_all [Side.peer]
    exact this ▸ hdp

/-- What is on the wire after `x` wrote `out`. -/
theorem mem_write {n : ℕ}
    (hf : f ∈ (l.write x out).wire n y) : f ∈ l.wire n y ∨ (y = x ∧ f ∈ out) := by
  simp only [write] at hf
  split at hf
  case isTrue hxy => exact (List.mem_append.1 hf).imp_right fun h ↦ ⟨hxy.2, h⟩
  case isFalse => exact .inl hf

/-- What is on the wire after `x` read `f`. -/
theorem mem_read {g : Frame} {now : Instant} {n : ℕ}
    (hf : l.wire (l.ends x).socket x.peer = f :: rest)
    (hg : g ∈ (l.read x f rest now).wire n y) :
    g ∈ l.wire n y ∨ (y = x ∧ g ∈ ((l.ends x).proto.receive f now).2.2) := by
  refine (mem_write hg).imp_left fun hg ↦ ?_
  simp only [setEnd, pop] at hg
  split at hg
  case isTrue hn =>
    rw [hn.1, hn.2, hf]
    exact List.mem_cons_of_mem _ hg
  case isFalse => exact hg

/-- A quiet step of one end keeps the invariant. -/
theorem Inv.run_quiet (h : l.Inv) {r : PersistentProtocol × List Frame}
    (hq : PersistentProtocol.Quiet (l.ends x).proto r.1 r.2) : (l.run x r).Inv := by
  obtain ⟨hvalid, hout⟩ := (h x).valid.quiet hq
  refine h.update (x := x) (e := { l.ends x with proto := r.1 }) rfl ?_ ?_ hvalid
    hq.incomingMsgId.ge (List.prefix_refl _) (hq.outgoingAckId.le.trans (h x).acked) ?_
  · intro n f hf
    exact (mem_write hf).imp_right fun h ↦ hout f h.2
  · intro n f hf
    exact (mem_write hf).resolve_right fun h ↦ Side.peer_ne x h.1
  · have := (h x.peer).delivered
    rwa [Side.peer_peer] at this

/-- Leaving the socket behind keeps the invariant. -/
theorem Inv.beginReconnect (h : l.Inv) (x : Side) (socket : ℕ) (now : Instant) :
    (l.setEnd x { l.ends x with
      proto := (l.ends x).proto.beginReconnect now, socket := socket }).Inv := by
  obtain ⟨⟨h1, h2, h3, h4, h5, h6⟩, -⟩ :=
    (h x).valid.quiet ((l.ends x).proto.quiet_beginReconnect now)
  refine h.update (x := x) rfl (fun _ _ hf ↦ .inl hf) (fun _ _ hf ↦ hf)
    ⟨h1, h2, h3, h4, h5, h6⟩ le_rfl (List.prefix_refl _) (h x).acked ?_
  have := (h x.peer).delivered
  rwa [Side.peer_peer] at this

/-- Sending numbers the payload and queues it. -/
theorem Inv.send (h : l.Inv) (x : Side) (data : Data) (now : Instant)
    (hlt : (l.ends x).sent.length + 1 < 2 ^ 32) :
    ((l.setEnd x { l.ends x with sent := (l.ends x).sent ++ [data] }).run x
      ((l.ends x).proto.send data now)).Inv := by
  set e := l.ends x with he
  have hv : e.Valid := (h x).valid
  have hid : wrap32 (e.proto.outgoingMsgId + 1) = e.sent.length + 1 := by
    rw [hv.outgoing, wrap32_of_lt hlt]
  set frame : Frame := ⟨.regular, e.sent.length + 1, e.proto.incomingMsgId, data⟩ with hframe
  obtain ⟨at?, hunacked, hmsg, hack, hin, hwritten⟩ :
      ∃ at?, (e.proto.send data now).1.unacked = e.proto.unacked ++ [⟨frame, at?⟩] ∧
        (e.proto.send data now).1.outgoingMsgId = e.sent.length + 1 ∧
        (e.proto.send data now).1.outgoingAckId = e.proto.outgoingAckId ∧
        (e.proto.send data now).1.incomingMsgId = e.proto.incomingMsgId ∧
        ∀ f ∈ (e.proto.send data now).1.held ++ (e.proto.send data now).2,
          f ∈ e.proto.held ∨ f = frame := by
    unfold PersistentProtocol.send
    simp only [hid]
    split
    · exact ⟨none, rfl, rfl, rfl, rfl, fun f hf ↦ .inl (by simpa using hf)⟩
    · obtain ⟨h1, h2⟩ := PersistentProtocol.emit_eq
        { e.proto with outgoingMsgId := e.sent.length + 1, incomingAckId := e.proto.incomingMsgId,
                       unacked := e.proto.unacked ++ [⟨frame, some now⟩] } frame []
      refine ⟨some now, by rw [h1], by rw [h1], by rw [h1], by rw [h1], fun f hf ↦ ?_⟩
      rw [h1, h2] at hf
      cases hp : e.proto.paused <;> simp [hp] at hf <;> tauto
  generalize e.proto.send data now = r at *
  set e' : Endpoint := { e with sent := e.sent ++ [data], proto := r.1 } with he'
  have hmono : ∀ f, e.Wrote f → e'.Wrote f :=
    fun f hf ↦ hf.mono hin.ge (List.prefix_append _ _)
  have hnew : e'.Wrote frame := ⟨hin.ge, fun _ ↦ ⟨by simp [hframe], by simp [hframe, he']⟩⟩
  have hall : ∀ f ∈ r.1.held ++ r.2, e'.Wrote f := by
    intro f hf
    rcases hwritten f hf with h' | rfl
    · exact hmono f (hv.held f h')
    · exact hnew
  have hvalid : e'.Valid := by
    refine ⟨by simp [he', hmsg], ?_, ?_, ?_, fun f hf ↦ hall f (List.mem_append_left _ hf),
      hv.received.trans hin.symm⟩
    · have := hv.acked
      simp only [he', hack, List.length_append]
      omega
    · simp only [he', hunacked, hack, List.map_append, hv.queue, numbered, List.zipIdx_append]
      rw [List.drop_append_of_le_length (by simpa using hv.acked)]
      simp [hframe, Nat.add_comm]
    · intro f hf
      simp only [he', hunacked, List.map_append, List.mem_append, List.map_cons, List.map_nil,
        List.mem_singleton] at hf
      rcases hf with hf | rfl
      · exact hmono f (hv.queued f hf)
      · exact hnew
  refine h.update (x := x) (e := e') ?_ ?_ ?_ hvalid hin.ge (List.prefix_append _ _)
    (hack.le.trans (h x).acked) ?_
  · simp [run, setEnd, write, he']
  · intro n f hf
    exact (mem_write hf).imp_right fun h ↦ hall f (List.mem_append_right _ h.2)
  · intro n f hf
    exact (mem_write hf).resolve_right fun h ↦ Side.peer_ne x h.1
  · have := (h x.peer).delivered
    rwa [Side.peer_peer] at this

/-- An injected control frame is one the end may write. -/
theorem Inv.inject (h : l.Inv) (x : Side) {ty : MessageType} {ack : ℕ} (hty : ty ≠ .regular)
    (hack : ack ≤ (l.ends x).proto.incomingMsgId) : (l.write x [Frame.empty ty ack]).Inv := by
  refine h.update (x := x) (e := l.ends x) (Function.update_eq_self x l.ends).symm ?_ ?_
    (h x).valid le_rfl (List.prefix_refl _) (h x).acked ?_
  · intro n f hf
    refine (mem_write hf).imp_right fun h ↦ ?_
    rcases List.mem_singleton.1 h.2 with rfl
    exact ⟨hack, fun hreg ↦ absurd hreg hty⟩
  · intro n f hf
    exact (mem_write hf).resolve_right fun h ↦ Side.peer_ne x h.1
  · have := (h x.peer).delivered
    rwa [Side.peer_peer] at this

/-- An arriving frame is one the peer wrote: its acknowledgement trims only what was handed up, and
a regular message counted next carries the next payload sent. -/
theorem Inv.read (h : l.Inv) (hb : l.Bounded) (hf : l.wire (l.ends x).socket x.peer = f :: rest)
    (now : Instant) :
    (l.read x f rest now).Inv := by
  set e := l.ends x with he
  set q := l.ends x.peer with hq
  have hwrote : q.Wrote f := (h x.peer).wire _ f (by rw [hf]; exact List.mem_cons_self)
  have hinq : q.proto.incomingMsgId ≤ e.sent.length := by
    have := h.incoming_le x.peer
    rwa [Side.peer_peer] at this
  have hdel : e.handedUp <+: q.sent := by
    have := (h x.peer).delivered
    rwa [Side.peer_peer] at this
  have hv : ({ e with proto := e.proto.trim f.ack } : Endpoint).Valid :=
    (h x).valid.trim (hwrote.1.trans hinq)
  have hinc : (e.proto.trim f.ack).incomingMsgId = e.proto.incomingMsgId := by
    unfold PersistentProtocol.trim; split <;> rfl
  have hack : (e.proto.trim f.ack).outgoingAckId ≤ q.proto.incomingMsgId := by
    unfold PersistentProtocol.trim
    split
    · exact hwrote.1
    · exact (h x).acked
  have hends : (l.read x f rest now).ends = Function.update l.ends x
      { e with proto := (e.proto.receive f now).1
               handedUp := e.handedUp ++ Inbound.payload (e.proto.receive f now).2.1 } := rfl
  rcases e.proto.receive_cases f now with ⟨hquiet, hnone⟩ | ⟨hty, hlt, hid, r1, r2, r3, r4, r5, r6⟩
  · -- nothing is handed up
    have hpay : Inbound.payload (e.proto.receive f now).2.1 = [] := by
      unfold Inbound.payload
      split
      case h_1 data hd => exact absurd hd (hnone data)
      case h_2 => rfl
    rw [hpay, List.append_nil] at hends
    obtain ⟨hvalid, hout⟩ := hv.quiet hquiet
    refine h.update hends ?_ ?_ hvalid (hquiet.incomingMsgId.trans hinc).ge (List.prefix_refl _)
      (hquiet.outgoingAckId.le.trans hack) hdel
    · intro n g hg
      exact (mem_read hf hg).imp_right fun h ↦ hout g h.2
    · intro n g hg
      exact (mem_read hf hg).resolve_right fun h ↦ Side.peer_ne x h.1
  · -- the next payload is handed up
    have hlen : e.handedUp.length = e.proto.incomingMsgId := (h x).valid.received
    have hnext : f.id = e.proto.incomingMsgId + 1 := by
      have hle := hdel.length_le
      have := hb x.peer
      unfold wrap32 at hid
      rw [← hq] at this
      omega
    have hget : q.sent[e.handedUp.length]? = some f.data := by
      have := (hwrote.2 hty).2
      rwa [hnext, Nat.add_sub_cancel, ← hlen] at this
    have hup : e.handedUp ++ [f.data] <+: q.sent := by
      obtain ⟨tail, htail⟩ := hdel
      cases tail with
      | nil =>
        rw [← htail] at hget
        simp at hget
      | cons d tail =>
        rw [← htail, List.getElem?_append_right le_rfl] at hget
        simp only [Nat.sub_self, List.getElem?_cons_zero, Option.some.injEq] at hget
        exact ⟨tail, by rw [← htail, hget]; simp⟩
    rw [show (e.proto.receive f now).2.1 = some (.regular f.data) by rw [r6]] at hends
    have hle : e.proto.incomingMsgId ≤ (e.proto.receive f now).1.incomingMsgId := by
      rw [r1]; exact hlt.le
    have hmono : ∀ g, e.Wrote g → ({ e with
        proto := (e.proto.receive f now).1, handedUp := e.handedUp ++ [f.data] } : Endpoint).Wrote g :=
      fun g hg ↦ hg.mono hle (List.prefix_refl _)
    have hback : ∀ g, ({ e with proto := e.proto.trim f.ack } : Endpoint).Wrote g → e.Wrote g :=
      fun g hg ↦ ⟨hinc ▸ hg.1, hg.2⟩
    refine h.update hends ?_ ?_ ?_ hle (List.prefix_refl _) (r3 ▸ hack) hup
    · intro n g hg
      refine (mem_read hf hg).imp_right fun h ↦ ?_
      have := h.2
      rw [r6] at this
      simp at this
    · intro n g hg
      exact (mem_read hf hg).resolve_right fun h ↦ Side.peer_ne x h.1
    · refine ⟨r2.trans hv.outgoing, r3 ▸ hv.acked, by rw [r4, r3]; exact hv.queue, ?_, ?_, ?_⟩
      · rw [r4]
        exact fun g hg ↦ hmono g (hback g (hv.queued g hg))
      · rw [r5]
        exact fun g hg ↦ hmono g ((h x).valid.held g hg)
      · simp [Inbound.payload, r1, hnext, hlen]

/-- What was sent stays sent. -/
theorem Step.sent_prefix {a : Action} (h : Step l a l') (x : Side) :
    (l.ends x).sent <+: (l'.ends x).sent := by
  cases h with
  | inject => exact List.prefix_refl _
  | send y data now =>
    by_cases hxy : x = y
    · subst hxy; simp [run, setEnd, write]
    · simp [run, setEnd, write, hxy]
  | sendControl y | sendDisconnect y | tick y | keepAlive y | deliver y | beginReconnect y
  | endReconnect y =>
    by_cases hxy : x = y
    · subst hxy; simp [run, read, pop, setEnd, write]
    · simp [run, read, pop, setEnd, write, hxy]

/-- **The invariant survives every action** that leaves fewer than `2 ^ 32` messages sent. -/
theorem Inv.step (h : l.Inv) {a : Action} (hs : Step l a l') (hb : l'.Bounded) : l'.Inv := by
  have hbl : l.Bounded := fun x ↦ (hs.sent_prefix x).length_le.trans_lt (hb x)
  cases hs with
  | send x data now =>
    refine h.send x data now ?_
    simpa [run, setEnd, write] using hb x
  | sendControl x data => exact h.run_quiet ((l.ends x).proto.quiet_sendControl data)
  | sendDisconnect x => exact h.run_quiet (l.ends x).proto.quiet_sendDisconnect
  | tick x now => exact h.run_quiet ((l.ends x).proto.quiet_tick now)
  | keepAlive x => exact h.run_quiet (l.ends x).proto.quiet_keepAlive
  | inject x ty ack hty hack =>
    exact h.inject x (by rcases hty with rfl | rfl | rfl <;> decide) hack
  | deliver x now f rest hf => exact h.read hbl hf now
  | beginReconnect x socket now => exact h.beginReconnect x socket now
  | endReconnect x now => exact h.run_quiet ((l.ends x).proto.quiet_endReconnect now)

theorem inv_initial (now : Instant) : (initial now).Inv := fun _ ↦
  ⟨⟨rfl, Nat.le_refl _, rfl, by simp [initial, PersistentProtocol.new],
    by simp [initial, PersistentProtocol.new], rfl⟩, by simp [initial], Nat.le_refl _,
    List.prefix_refl _⟩

/-- Every state reached with fewer than `2 ^ 32` messages sent each way satisfies the invariant. -/
theorem inv_of_reachable (h : system.Reachable l) (hb : l.Bounded) : l.Inv := by
  refine StepSystem.Reachable.invariant (I := fun l ↦ l.Bounded → l.Inv) ?_ ?_ h hb
  · rintro _ ⟨now, rfl⟩ -
    exact inv_initial now
  · intro s a t _ ih hs hb
    exact (ih fun x ↦ (Step.sent_prefix hs x).length_le.trans_lt (hb x)).step hs hb

/-- **Delivery over any run.** What an end hands up is a prefix of what its peer sent, and every
payload sent but not yet handed up is still in the sender's queue, under its own id. -/
theorem handedUp_prefix_sent (h : system.Reachable l) (hb : l.Bounded) (x : Side) :
    (l.ends x.peer).handedUp <+: (l.ends x).sent ∧
      ∀ i (hi : i < (l.ends x).sent.length), (l.ends x.peer).handedUp.length ≤ i →
        ∃ u ∈ (l.ends x).proto.unacked, u.frame.id = i + 1 ∧ u.frame.data = (l.ends x).sent[i] := by
  have hinv := inv_of_reachable h hb
  refine ⟨(hinv x).delivered, fun i hi hle ↦ ?_⟩
  have hacked : (l.ends x).proto.outgoingAckId ≤ i :=
    (hinv x).acked.trans ((hinv x.peer).valid.received.symm.le.trans hle)
  have hmem : ((l.ends x).sent[i], i + 1) ∈
      (l.ends x).proto.unacked.map fun u ↦ (u.frame.data, u.frame.id) := by
    rw [(hinv x).valid.queue, List.mem_iff_getElem?]
    refine ⟨i - (l.ends x).proto.outgoingAckId, ?_⟩
    rw [List.getElem?_drop, Nat.add_sub_cancel' hacked, numbered, List.getElem?_zipIdx,
      List.getElem?_eq_getElem hi]
    simp [Nat.add_comm]
  obtain ⟨u, hu, heq⟩ := List.mem_map.1 hmem
  rw [Prod.mk.injEq] at heq
  exact ⟨u, hu, heq.2, heq.1⟩

/-- The guarantee at work: the only frame is lost with its socket, and the payload arrives by the
replay that ends the reconnect. -/
theorem handedUp_prefix_sent_after_loss :
    ∃ l : Link, system.Reachable l ∧ (l.ends .b).handedUp = [[7]] ∧
      ((l.ends .b).handedUp <+: (l.ends .a).sent ∧
        ∀ i (hi : i < (l.ends .a).sent.length), (l.ends .b).handedUp.length ≤ i →
          ∃ u ∈ (l.ends .a).proto.unacked,
            u.frame.id = i + 1 ∧ u.frame.data = (l.ends .a).sent[i]) := by
  have h0 : system.Reachable (initial 0) := .start ⟨0, rfl⟩
  have h1 := h0.next _ (Step.send .a [7] 0)
  have h2 := h1.next _ (Step.beginReconnect .a 1 10 (by decide))
  have h3 := h2.next _ (Step.beginReconnect .b 1 10 (by decide))
  have h4 := h3.next _ (Step.endReconnect .a 20)
  have h5 := h4.next _ (Step.deliver .b 30 _ _ rfl)
  have h6 := h5.next _ (Step.deliver .b 30 _ _ rfl)
  exact ⟨_, h6, rfl, handedUp_prefix_sent h6 (by intro x; cases x <;> decide) .a⟩

end Link

end Ember.EditorConn
