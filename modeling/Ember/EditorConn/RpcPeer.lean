import Ember.EditorConn.Rpc
import Ember.Foundation.Runs

/-!
# Calls to the extension host

`start_call` enters the call in the table of pending calls before the request is encoded, and
whether or not the dispatcher still runs. So the table keeps a call whose request was never sent,
and one that was made after the dispatcher's last look at the table. **`pending_exact`** says that
nothing else goes wrong.
-/

namespace Ember.EditorConn

/-- `LostReason`. -/
inductive LostReason
  | socketClosed
  | timeout
  deriving DecidableEq, Repr

/-- `ConnEvent`. -/
inductive ConnEvent
  | message (raw : Data)
  | disconnected
  | lost (reason : LostReason)
  deriving DecidableEq, Repr

/-- `IncomingRequest`. -/
structure RpcIncomingRequest (J : Type) where
  req : UInt32
  rpcId : UInt8
  proxy : Option String
  method : String
  args : List (Arg J)
  cancellable : Bool

/-- `RpcEvent`. -/
inductive RpcEvent (J : Type)
  | request (r : RpcIncomingRequest J)
  | cancel (req : UInt32)
  | lost (reason : LostReason)
  | disconnected

/-- What a waiting call is told, on its own channel. -/
inductive Outcome (J : Type)
  | reply (reply : RpcReply J)
  /-- `RemoteError::from_json`; no value is `null`. -/
  | error (error : Option J)
  /-- `extension host connection closed`. -/
  | connectionClosed
  /-- The sender was dropped: `Error::Closed`. -/
  | dropped

/-- `PendingCall`: the id of the request, and the channel the reply comes on. -/
structure PendingCall where
  req : UInt32
  channel : ℕ
  deriving DecidableEq, Repr

/-- `id_of`, for the numbered proxies. -/
def idOf (proxyIds : List String) (name : String) : Option UInt8 :=
  (proxyIds.findIdx? (· == name)).map fun i ↦ UInt8.ofNat (i + 1)

/-- `name_of`. -/
def nameOf (proxyIds : List String) (id : UInt8) : Option String :=
  if id.toNat = 0 then none else proxyIds[id.toNat - 1]?

/-- `RpcPeer` and its dispatcher. The channels of the calls are numbered as they are made. -/
structure RpcPeer (J : Type) where
  lastReq : UInt32
  /-- `HashMap<u32, PendingReply>`. -/
  pending : List (UInt32 × ℕ)
  /-- How many channels there are. -/
  channels : ℕ
  outcome : ℕ → Option (Outcome J)
  /-- What was handed to the connection. -/
  sent : List Data
  /-- What was handed to the owner. -/
  events : List (RpcEvent J)
  /-- The dispatcher has left its loop. -/
  ended : Bool

variable {keep : UInt32 → Bool} {method proxy : String}

namespace RpcPeer

variable {J : Type}

/-- `RpcPeer::start`. -/
def start : RpcPeer J := ⟨0, [], 0, fun _ ↦ none, [], [], false⟩

/-- `ConnectionHandle::send`. -/
def send (p : RpcPeer J) (b : Data) : RpcPeer J := { p with sent := p.sent ++ [b] }

/-- Taking the calls out of the table that are not kept, and telling them the outcome. -/
def settle (p : RpcPeer J) (keep : UInt32 → Bool) (o : Outcome J) : RpcPeer J :=
  { p with
    pending := p.pending.filter fun e ↦ keep e.1
    outcome := fun n ↦
      if n ∈ (p.pending.filter fun e ↦ !keep e.1).map Prod.snd then some o else p.outcome n }

/-- `pending.remove(&req)`, and what becomes of the sender. -/
def remove (p : RpcPeer J) (req : UInt32) (o : Outcome J) : RpcPeer J := p.settle (· != req) o

/-- `pending.insert(req, tx)`: the sender that was there is dropped. -/
def insert (p : RpcPeer J) (req : UInt32) (channel : ℕ) : RpcPeer J :=
  { p.remove req .dropped with pending := (req, channel) :: (p.remove req .dropped).pending }

variable (serde : Serde J) (proxyIds : List String)

/-- `RpcPeer::start_call`. -/
def startCall (p : RpcPeer J) (proxy method : String) (args : List (Arg J)) (cancellable : Bool) :
    Except Error PendingCall × RpcPeer J :=
  match idOf proxyIds proxy with
  | none => (.error (.unknownProxy proxy), p)
  | some rpcId =>
    let req := p.lastReq + 1
    let channel := p.channels
    let p := { p with lastReq := req, channels := channel + 1 }.insert req channel
    match (RpcMessage.request req rpcId method args cancellable).encode serde with
    | .error e => (.error e, p)
    | .ok b => (.ok ⟨req, channel⟩, p.send b)

/-- `RpcPeer::fire`: the receiver is dropped too. -/
def fire (p : RpcPeer J) (proxy method : String) (args : List (Arg J)) :
    Except Error Unit × RpcPeer J :=
  match p.startCall serde proxyIds proxy method args false with
  | (.error e, p) => (.error e, p)
  | (.ok call, p) => (.ok (), p.remove call.req .dropped)

/-- What an encoded message puts on the connection; one that does not encode is not sent. -/
def sendMessage (p : RpcPeer J) (m : RpcMessage J) : RpcPeer J :=
  match m.encode serde with
  | .ok b => p.send b
  | .error _ => p

/-- `RpcPeer::cancel`. -/
def cancel (p : RpcPeer J) (req : UInt32) : RpcPeer J :=
  (p.remove req .dropped).sendMessage serde (.cancel req)

/-- `RpcPeer::respond`. -/
def respond (p : RpcPeer J) (req : UInt32) (result : Except (Option J) (RpcReply J)) : RpcPeer J :=
  p.sendMessage serde
    (match result with
    | .ok reply => .replyOk req reply
    | .error error => .replyErr req error)

/-- Handing an event to the owner. -/
def emit (p : RpcPeer J) (e : RpcEvent J) : RpcPeer J := { p with events := p.events ++ [e] }

/-- `on_message`. -/
def onMessage (p : RpcPeer J) : RpcMessage J → RpcPeer J
  | .request req rpcId method args cancellable =>
    (p.sendMessage serde (.acknowledged req)).emit
      (.request ⟨req, rpcId, nameOf proxyIds rpcId, method, args, cancellable⟩)
  | .acknowledged _ => p
  | .cancel req => p.emit (.cancel req)
  | .replyOk req reply => p.remove req (.reply reply)
  | .replyErr req error => p.remove req (.error error)

/-- The dispatcher leaves its loop and tells every pending call. -/
def endDispatcher (p : RpcPeer J) : RpcPeer J :=
  { p.settle (fun _ ↦ false) .connectionClosed with ended := true }

/-- One turn of the dispatcher's loop. -/
def onEvent (p : RpcPeer J) : ConnEvent → RpcPeer J
  | .message raw =>
    match RpcMessage.decode serde raw with
    | .ok msg => p.onMessage serde proxyIds msg
    | .error _ => p
  | .lost reason => p.emit (.lost reason)
  | .disconnected => (p.emit .disconnected).endDispatcher

/-! ### Runs -/

/-- What can happen to a peer. `call` is `start_call` without cancellation, and then waiting. -/
inductive Op (J : Type)
  | startCall (proxy method : String) (args : List (Arg J)) (cancellable : Bool)
  | fire (proxy method : String) (args : List (Arg J))
  | cancel (req : UInt32)
  | respond (req : UInt32) (result : Except (Option J) (RpcReply J))
  | event (ev : ConnEvent)
  /-- The connection is gone and its events with it. -/
  | eventsClosed

/-- A peer, and the ids of the requests that were handed to the connection and not answered,
cancelled or forgotten: one entry for each request. -/
structure World (J : Type) where
  peer : RpcPeer J
  unanswered : List UInt32

/-- The request that a message answers. -/
def answers : RpcMessage J → Option UInt32
  | .replyOk req _ => some req
  | .replyErr req _ => some req
  | _ => none

/-- The requests that an event leaves unanswered. -/
def unansweredAfter (unanswered : List UInt32) : ConnEvent → List UInt32
  | .message raw =>
    match RpcMessage.decode serde raw with
    | .ok msg => unanswered.filter fun req ↦ answers msg != some req
    | .error _ => unanswered
  | .lost _ => unanswered
  | .disconnected => []

/-- One operation. The dispatcher takes events until it has ended. -/
def World.step (w : World J) : Op J → World J
  | .startCall proxy method args cancellable =>
    match w.peer.startCall serde proxyIds proxy method args cancellable with
    | (.ok call, p) => ⟨p, call.req :: w.unanswered⟩
    | (.error _, p) => ⟨p, w.unanswered⟩
  | .fire proxy method args => ⟨(w.peer.fire serde proxyIds proxy method args).2, w.unanswered⟩
  | .cancel req => ⟨w.peer.cancel serde req, w.unanswered.filter (· != req)⟩
  | .respond req result => ⟨w.peer.respond serde req result, w.unanswered⟩
  | .event ev =>
    if w.peer.ended then w
    else ⟨w.peer.onEvent serde proxyIds ev, unansweredAfter serde w.unanswered ev⟩
  | .eventsClosed => if w.peer.ended then w else ⟨w.peer.endDispatcher, []⟩

/-- The runs of a peer. -/
def system : StepSystem (World J) (Op J) := .ofFun ⟨start, []⟩ (World.step serde proxyIds)

/-- The operation returns an error. -/
def Fails (p : RpcPeer J) : Op J → Prop
  | .startCall proxy method args cancellable =>
    ∃ e, (p.startCall serde proxyIds proxy method args cancellable).1 = .error e
  | .fire proxy method args => ∃ e, (p.fire serde proxyIds proxy method args).1 = .error e
  | _ => False

/-- The table of pending calls is what it should be. -/
structure World.Exact (w : World J) : Prop where
  mem_pending_iff : ∀ req, req ∈ w.peer.pending.map Prod.fst ↔ req ∈ w.unanswered
  /-- Once the dispatcher has ended the table is empty. -/
  pending_eq_nil : w.peer.ended = true → w.peer.pending = []
  /-- Once the dispatcher has ended no call waits. -/
  outcome_isSome : w.peer.ended = true →
    ∀ channel < w.peer.channels, (w.peer.outcome channel).isSome = true

/-- The request can be encoded. -/
def Encodes (method : String) (args : List (Arg J)) : Prop :=
  (utf8 method).length ≤ 255 ∧ (args.all Arg.isJson = true ∨ args.length ≤ 255)

instance (method : String) (args : List (Arg J)) : Decidable (Encodes method args) :=
  inferInstanceAs (Decidable (_ ∧ _))

/-- A call to a proxy that exists encodes and is made while the dispatcher runs; one that is fired
and forgotten encodes, and its id is not the one of a pending call from before the ids wrapped. -/
def World.Kept (w : World J) : Op J → Prop
  | .startCall proxy method args _ =>
    idOf proxyIds proxy ≠ none → Encodes method args ∧ w.peer.ended = false
  | .fire proxy method args =>
    idOf proxyIds proxy ≠ none →
      Encodes method args ∧ w.peer.lastReq + 1 ∉ w.peer.pending.map Prod.fst
  | _ => True

/-! ### What one operation preserves -/

variable {serde proxyIds}

theorem encode_request_eq_ok (req : UInt32) (rpcId : UInt8) (cancellable : Bool)
    {args : List (Arg J)} (h : Encodes method args) :
    ∃ b, (RpcMessage.request req rpcId method args cancellable).encode serde = .ok b := by
  have hname : RpcMessage.putShortString method =
      .ok (UInt8.ofNat (utf8 method).length :: utf8 method) := by
    rw [RpcMessage.putShortString]
    exact if_neg (by have := h.1; omega)
  obtain ⟨body, hargs⟩ : ∃ body, RpcMessage.encodeArgs serde args = .ok body := by
    unfold RpcMessage.encodeArgs
    split
    · exact ⟨_, rfl⟩
    · next hall =>
      have hlen := h.2.resolve_left hall
      exact ⟨_, if_neg (by omega)⟩
  rw [RpcMessage.encode, hname, hargs]
  exact ⟨_, rfl⟩

variable (serde) in
/-- What `start_call` returns and leaves when the proxy exists and the request encodes. -/
theorem startCall_of_encodes {p : RpcPeer J} {args : List (Arg J)} {rpcId : UInt8}
    (cancellable : Bool) (hid : idOf proxyIds proxy = some rpcId) (h : Encodes method args) :
    ∃ b, p.startCall serde proxyIds proxy method args cancellable =
      (.ok ⟨p.lastReq + 1, p.channels⟩,
        ({ p with lastReq := p.lastReq + 1, channels := p.channels + 1 }.insert
          (p.lastReq + 1) p.channels).send b) := by
  obtain ⟨b, hb⟩ := encode_request_eq_ok (p.lastReq + 1) rpcId cancellable h
  refine ⟨b, ?_⟩
  rw [startCall, hid]
  dsimp only
  rw [hb]

/-- A call to a proxy that does not exist changes nothing. -/
theorem startCall_of_unknown {p : RpcPeer J} {args : List (Arg J)} (cancellable : Bool)
    (hid : idOf proxyIds proxy = none) :
    p.startCall serde proxyIds proxy method args cancellable =
      (.error (.unknownProxy proxy), p) := by
  rw [startCall, hid]

/-- Every channel is answered, or its call is in the table. -/
def Waits (p : RpcPeer J) : Prop :=
  ∀ channel < p.channels,
    (p.outcome channel).isSome = true ∨ channel ∈ p.pending.map Prod.snd

/-- The calls that are not kept have left the table, and were told. -/
structure Settled (p q : RpcPeer J) (keep : UInt32 → Bool) : Prop where
  mem_pending_iff : ∀ req,
    req ∈ q.pending.map Prod.fst ↔ req ∈ p.pending.map Prod.fst ∧ keep req = true
  waits : p.Waits → q.Waits
  ended : q.ended = p.ended

theorem settled_settle (p : RpcPeer J) (keep : UInt32 → Bool) (o : Outcome J) :
    Settled p (p.settle keep o) keep where
  mem_pending_iff req := by
    show req ∈ (p.pending.filter fun e ↦ keep e.1).map Prod.fst ↔ _
    simp only [List.mem_map, List.mem_filter]
    constructor
    · rintro ⟨e, ⟨he, hkeep⟩, rfl⟩
      exact ⟨⟨e, he, rfl⟩, hkeep⟩
    · rintro ⟨⟨e, he, rfl⟩, hkeep⟩
      exact ⟨e, ⟨he, hkeep⟩, rfl⟩
  waits h channel hlt := by
    show ((if channel ∈ (p.pending.filter fun e ↦ !keep e.1).map Prod.snd then some o
      else p.outcome channel).isSome = true) ∨
        channel ∈ (p.pending.filter fun e ↦ keep e.1).map Prod.snd
    split
    · exact .inl rfl
    · next hnot =>
      rcases h channel hlt with hsome | hmem
      · exact .inl hsome
      · obtain ⟨e, he, rfl⟩ := List.mem_map.1 hmem
        refine .inr (List.mem_map.2 ⟨e, List.mem_filter.2 ⟨he, ?_⟩, rfl⟩)
        by_contra hkeep
        exact hnot (List.mem_map.2 ⟨e, List.mem_filter.2 ⟨he, by simpa using hkeep⟩, rfl⟩)
  ended := rfl

/-- Sending and telling the owner leave the table alone. -/
theorem settled_of_eq {p q : RpcPeer J} (hkeep : ∀ req, keep req = true)
    (hpending : q.pending = p.pending) (hchannels : q.channels = p.channels)
    (houtcome : q.outcome = p.outcome) (hended : q.ended = p.ended) : Settled p q keep where
  mem_pending_iff req := by rw [hpending, hkeep, eq_self_iff_true, and_true]
  waits h := by rwa [Waits, hpending, hchannels, houtcome]
  ended := hended

variable (serde) in
theorem Settled.sendMessage {p q : RpcPeer J} (h : Settled p q keep)
    (m : RpcMessage J) : Settled p (q.sendMessage serde m) keep := by
  unfold RpcPeer.sendMessage
  split
  · exact ⟨h.mem_pending_iff, h.waits, h.ended⟩
  · exact h

theorem Settled.emit {p q : RpcPeer J} (h : Settled p q keep)
    (e : RpcEvent J) : Settled p (q.emit e) keep :=
  ⟨h.mem_pending_iff, h.waits, h.ended⟩

/-- A message takes exactly the call it answers out of the table. -/
theorem settled_onMessage (p : RpcPeer J) (m : RpcMessage J) :
    Settled p (p.onMessage serde proxyIds m) fun req ↦ answers m != some req := by
  have hsame : ∀ keep : UInt32 → Bool, (∀ req, keep req = true) → Settled p p keep :=
    fun keep hkeep ↦ settled_of_eq hkeep rfl rfl rfl rfl
  have hremove : ∀ req o, Settled p (p.remove req o) fun r ↦ some req != some r := fun req o ↦ by
    have heq : (fun r ↦ some req != some r) = fun r ↦ r != req := by
      funext r
      rw [Bool.eq_iff_iff, bne_iff_ne, bne_iff_ne, Ne, Option.some_inj]
      exact ne_comm
    rw [heq]
    exact settled_settle p _ o
  cases m with
  | request req rpcId method args cancellable =>
    exact ((hsame _ fun _ ↦ rfl).sendMessage serde _).emit _
  | acknowledged req => exact hsame _ fun _ ↦ rfl
  | cancel req => exact (hsame _ fun _ ↦ rfl).emit _
  | replyOk req _ | replyErr req _ => exact hremove req _

/-- A new call waits in the table. -/
theorem Waits.insert {p : RpcPeer J} (h : p.Waits) (req : UInt32) :
    ({ p with lastReq := req, channels := p.channels + 1 }.insert req p.channels).Waits := by
  intro channel hlt
  rcases Nat.lt_or_eq_of_le (Nat.le_of_lt_succ hlt) with hold | rfl
  · rcases (settled_settle p (· != req) .dropped).waits h channel hold with hsome | hmem
    · exact .inl hsome
    · exact .inr (List.mem_cons_of_mem _ hmem)
  · exact .inr (List.mem_cons_self ..)

theorem mem_pending_insert {p : RpcPeer J} {req r : UInt32} {channel : ℕ} :
    r ∈ (p.insert req channel).pending.map Prod.fst ↔ r = req ∨ r ∈ p.pending.map Prod.fst := by
  show r ∈ req :: (p.settle (· != req) .dropped).pending.map Prod.fst ↔ _
  rw [List.mem_cons, (settled_settle p _ _).mem_pending_iff, bne_iff_ne]
  constructor
  · rintro (h | ⟨h, -⟩)
    · exact .inl h
    · exact .inr h
  · rintro (h | h)
    · exact .inl h
    · exact (eq_or_ne r req).imp id fun hne ↦ ⟨h, hne⟩

/-- What every state of a run keeps: the table, and that every call is answered or waits in it. -/
structure World.Inv (w : World J) : Prop where
  mem_pending_iff : ∀ req, req ∈ w.peer.pending.map Prod.fst ↔ req ∈ w.unanswered
  pending_eq_nil : w.peer.ended = true → w.peer.pending = []
  waits : w.peer.Waits

theorem World.Inv.exact {w : World J} (h : w.Inv) : w.Exact where
  mem_pending_iff := h.mem_pending_iff
  pending_eq_nil := h.pending_eq_nil
  outcome_isSome hended channel hlt :=
    (h.waits channel hlt).resolve_right (by rw [h.pending_eq_nil hended]; exact List.not_mem_nil)

theorem pending_eq_nil_iff {p : RpcPeer J} :
    p.pending = [] ↔ ∀ req, req ∉ p.pending.map Prod.fst := by
  rw [← List.map_eq_nil_iff (f := Prod.fst), List.eq_nil_iff_forall_not_mem]

/-- Taking calls out of the table when their requests are answered or cancelled. -/
theorem World.Inv.settled {w : World J} (h : w.Inv) {q : RpcPeer J}
    (hq : Settled w.peer q keep) : World.Inv ⟨q, w.unanswered.filter keep⟩ where
  mem_pending_iff req := by
    rw [hq.mem_pending_iff, h.mem_pending_iff, List.mem_filter]
  pending_eq_nil hended := by
    have hnil := pending_eq_nil_iff.1 (h.pending_eq_nil (hq.ended.symm.trans hended))
    exact pending_eq_nil_iff.2 fun req hreq ↦ hnil req ((hq.mem_pending_iff req).1 hreq).1
  waits := hq.waits h.waits

/-- The end of the dispatcher. -/
theorem World.Inv.endDispatcher {w : World J} (h : w.Inv) {q : RpcPeer J}
    (hq : Settled w.peer q fun _ ↦ true) : World.Inv ⟨q.endDispatcher, []⟩ := by
  have hset := settled_settle q (fun _ ↦ false) .connectionClosed
  have hnone : ∀ req, req ∉ q.endDispatcher.pending.map Prod.fst := fun req hreq ↦
    Bool.false_ne_true ((hset.mem_pending_iff req).1 hreq).2
  exact ⟨fun req ↦ iff_of_false (hnone req) List.not_mem_nil,
    fun _ ↦ pending_eq_nil_iff.2 hnone, hset.waits (hq.waits h.waits)⟩

theorem World.Inv.startCall {w : World J} (h : w.Inv) {args : List (Arg J)} {cancellable : Bool}
    (hk : w.Kept proxyIds (.startCall proxy method args cancellable)) :
    (w.step serde proxyIds (.startCall proxy method args cancellable)).Inv := by
  rw [World.step]
  cases hid : idOf proxyIds proxy with
  | none =>
    rw [startCall_of_unknown cancellable hid]
    exact h
  | some rpcId =>
    obtain ⟨henc, hended⟩ := hk (by rw [hid]; exact Option.some_ne_none _)
    obtain ⟨b, hb⟩ := startCall_of_encodes serde cancellable hid henc
    rw [hb]
    refine ⟨fun req ↦ ?_, fun hend ↦ ?_, h.waits.insert _⟩
    · rw [List.mem_cons, ← h.mem_pending_iff]
      exact mem_pending_insert
    · exact absurd (hended.symm.trans hend) Bool.false_ne_true

theorem World.Inv.fire {w : World J} (h : w.Inv) {args : List (Arg J)}
    (hk : w.Kept proxyIds (.fire proxy method args)) :
    (w.step serde proxyIds (.fire proxy method args)).Inv := by
  rw [World.step, RpcPeer.fire]
  cases hid : idOf proxyIds proxy with
  | none =>
    rw [startCall_of_unknown false hid]
    exact h
  | some rpcId =>
    obtain ⟨henc, hnew⟩ := hk (by rw [hid]; exact Option.some_ne_none _)
    obtain ⟨b, hb⟩ := startCall_of_encodes serde false hid henc
    rw [hb]
    dsimp only
    -- the call is in the table only until it is fired
    have hmem : ∀ req, req ∈ ((({ w.peer with
          lastReq := w.peer.lastReq + 1, channels := w.peer.channels + 1 }.insert
          (w.peer.lastReq + 1) w.peer.channels).send b).remove (w.peer.lastReq + 1)
          .dropped).pending.map Prod.fst ↔ req ∈ w.peer.pending.map Prod.fst := fun req ↦ by
      rw [RpcPeer.remove, (settled_settle _ _ _).mem_pending_iff, bne_iff_ne]
      refine (and_congr_left' (mem_pending_insert (p := w.peer))).trans ⟨?_, fun hreq ↦ ?_⟩
      · rintro ⟨hreq | hreq, hne⟩
        · exact absurd hreq hne
        · exact hreq
      · exact ⟨.inr hreq, fun heq ↦ hnew (heq ▸ hreq)⟩
    refine ⟨fun req ↦ (hmem req).trans (h.mem_pending_iff req), fun hend ↦ ?_,
      (settled_settle _ _ _).waits (h.waits.insert _)⟩
    exact pending_eq_nil_iff.2 fun req hreq ↦
      pending_eq_nil_iff.1 (h.pending_eq_nil hend) req ((hmem req).1 hreq)

/-- **One operation** keeps the table, as long as a call encodes and is made in time. -/
theorem World.Inv.step {w : World J} (h : w.Inv) {op : Op J} (hk : w.Kept proxyIds op) :
    (w.step serde proxyIds op).Inv := by
  have hall : ∀ q : RpcPeer J, Settled q q fun _ ↦ true := fun q ↦
    settled_of_eq (fun _ ↦ rfl) rfl rfl rfl rfl
  have hfilter : w.unanswered.filter (fun _ ↦ true) = w.unanswered := by
    rw [List.filter_eq_self]
    exact fun _ _ ↦ rfl
  cases op with
  | startCall proxy method args cancellable => exact h.startCall hk
  | fire proxy method args => exact h.fire hk
  | cancel req => exact h.settled ((settled_settle w.peer _ _).sendMessage serde _)
  | respond req result =>
    have hsame : ∀ m, World.Inv ⟨w.peer.sendMessage serde m, w.unanswered⟩ := fun m ↦ by
      have hset := h.settled ((hall w.peer).sendMessage serde m)
      rwa [hfilter] at hset
    exact hsame _
  | event ev =>
    rw [World.step]
    split
    · exact h
    · cases ev with
      | message raw =>
        rw [onEvent, unansweredAfter]
        cases RpcMessage.decode serde raw with
        | ok msg => exact h.settled (settled_onMessage w.peer msg)
        | error e => exact h
      | disconnected => exact h.endDispatcher ((hall w.peer).emit _)
      | lost reason =>
        have hsame := h.settled ((hall w.peer).emit (.lost reason))
        rwa [hfilter] at hsame
  | eventsClosed =>
    rw [World.step]
    split
    · exact h
    · exact h.endDispatcher (hall w.peer)

/-- A kept operation that fails leaves the table as it was. -/
theorem World.Kept.pending_of_fails {w : World J} {op : Op J} (hk : w.Kept proxyIds op)
    (hf : Fails serde proxyIds w.peer op) :
    (w.step serde proxyIds op).peer.pending = w.peer.pending := by
  cases op with
  | startCall proxy method args cancellable =>
    obtain ⟨e, he⟩ := hf
    rw [World.step]
    cases hid : idOf proxyIds proxy with
    | none => rw [startCall_of_unknown cancellable hid]
    | some rpcId =>
      obtain ⟨henc, -⟩ := hk (by rw [hid]; exact Option.some_ne_none _)
      obtain ⟨b, hb⟩ := startCall_of_encodes serde cancellable hid henc
      rw [hb] at he
      cases he
  | fire proxy method args =>
    obtain ⟨e, he⟩ := hf
    rw [World.step, RpcPeer.fire]
    rw [RpcPeer.fire] at he
    cases hid : idOf proxyIds proxy with
    | none => rw [startCall_of_unknown false hid]
    | some rpcId =>
      obtain ⟨henc, -⟩ := hk (by rw [hid]; exact Option.some_ne_none _)
      obtain ⟨b, hb⟩ := startCall_of_encodes serde false hid henc
      rw [hb] at he
      cases he
  | cancel | respond | event | eventsClosed => exact hf.elim

/-- **The table of pending calls.** In a run in which every call to a proxy that exists encodes and
is made before the dispatcher ends (and no id comes round while it is pending and is fired), the
table holds exactly the unanswered requests, a call that fails leaves it alone, and after the end of
the dispatcher it is empty and no call waits. -/
theorem pending_exact {w : World J}
    (h : ((system serde proxyIds).restrict (World.Kept proxyIds)).Reachable w) :
    w.Exact ∧ ∀ op, w.Kept proxyIds op → Fails serde proxyIds w.peer op →
      (w.step serde proxyIds op).peer.pending = w.peer.pending := by
  have hinv : w.Inv := by
    refine h.invariant (fun s hs ↦ ?_) fun s op t _ hs ht ↦ ?_
    · rw [show s = ⟨start, []⟩ from hs]
      exact ⟨fun _ ↦ Iff.rfl, fun hend ↦ absurd hend Bool.false_ne_true,
        fun _ hlt ↦ absurd hlt (Nat.not_lt_zero _)⟩
    · rw [show t = s.step serde proxyIds op from ht.2]
      exact hs.step ht.1
  exact ⟨hinv.exact, fun op hk hf ↦ hk.pending_of_fails hf⟩

/-- A call, and its reply. -/
theorem pending_exact_reply :
    (World.step boolSerde ["ExtHostCommands"]
      (World.step boolSerde ["ExtHostCommands"] ⟨start, []⟩
        (.startCall "ExtHostCommands" "m" [] true))
      (.event (.message [7, 0, 0, 0, 1]))).Exact :=
  (pending_exact
    (.next (.event (.message [7, 0, 0, 0, 1]))
      (.next (.startCall "ExtHostCommands" "m" [] true) (.start rfl) ⟨fun _ ↦ by decide, rfl⟩)
      ⟨trivial, rfl⟩)).1

set_option maxRecDepth 4096 in
/-- A method name that is too long: the call fails, and its entry stays in the table. -/
theorem pending_leaks :
    ¬ ∀ w, (system boolSerde ["ExtHostCommands"]).Reachable w → w.Exact := by
  intro h
  have hexact := h _ (.next (.startCall "ExtHostCommands" (.ofList (.replicate 256 'm')) [] false)
    (.start rfl) rfl)
  exact List.not_mem_nil ((hexact.mem_pending_iff 1).1 (by decide))

end RpcPeer

end Ember.EditorConn
