import Ember.Foundation.Runs
import Mathlib.Logic.Function.Basic

/-!
# Connections of a machine to the relay hub

`proxy/dpx/hub/server.py`, for one machine: its connectors attach, send messages and go, and the
home screen makes RPC calls over the connection that is attached. Everything runs in one event loop,
so that what a handler does between two `await`s is one step; a handler's clean-up is a step of its
own, and may come long after the next connection has attached.

Snapshots and what a machine says of itself are left out: nothing here depends on them.

## What is proved

* `sound_of_orderly` — where no handler ends while a later connection is attached, or while an RPC
  is waiting over another one, the machine has its last connection, and no RPC is given up over a
  connection that is there.
* `not_sound` — a machine that connects again before the hub notices that its first connection is
  dead is offline from then on, and its RPCs are given up.
-/

namespace Ember.Proxy

open StepSystem

/-- How far the handler of a connection is. -/
inductive Conn
  /-- Accepted; its `hello` has not come. -/
  | opened
  | attached
  | ended
  deriving DecidableEq

/-- What a future of an RPC is set to. -/
inductive Answer
  | result
  | error
  /-- The connection was lost. -/
  | lost
  deriving DecidableEq

/-- How a call of `rpc` ends. -/
inductive Ending
  | answered (a : Answer)
  | timeout
  /-- The request could not be sent. -/
  | notSent
  deriving DecidableEq

/-- How far a call of `rpc` is. -/
inductive CallAt
  | sending
  | waiting
  | returned (e : Ending)
  deriving DecidableEq

/-- A call of `rpc`. -/
structure Call where
  /-- The connection the request is sent over. -/
  via : ℕ
  future : Option Answer
  at_ : CallAt
  deriving DecidableEq

/-- `Machine`. -/
structure Machine where
  ws : Option ℕ
  lastSeen : ℕ
  seq : ℕ
  pending : List ℕ
  deriving DecidableEq

/-- The machine, its connections and the calls of `rpc` by their numbers. -/
structure Hub where
  machine : Machine
  conn : ℕ → Option Conn
  call : ℕ → Option Call
  /-- The connection that has attached last. -/
  latest : Option ℕ

/-- What a connector sends once it is attached. -/
inductive Message
  | snapshot
  | rpcResult (id : ℕ) (ok : Bool)
  | hello
  deriving DecidableEq

/-- What happens next. -/
inductive Label
  | connect (c : ℕ)
  | hello (c now : ℕ)
  | message (c now : ℕ) (m : Message)
  /-- The handler of a connection ends. -/
  | stop (c : ℕ)
  | rpc (now : ℕ)
  /-- The request of a call has been sent, or could not be. -/
  | sent (r : ℕ) (ok : Bool)
  /-- A call that waits goes on, since its future is set. -/
  | wake (r : ℕ)
  | timeout (r : ℕ)
  deriving DecidableEq

/-- `Machine.online`. -/
def Machine.online (offlineAfter : ℕ) (m : Machine) (now : ℕ) : Bool :=
  m.ws.isSome && now - m.lastSeen < offlineAfter

variable {w : Hub}

namespace Hub

/-- No connection, no call. -/
def new : Hub := ⟨⟨none, 0, 0, []⟩, fun _ ↦ none, fun _ ↦ none, none⟩

/-- The handler of a connection is somewhere else. -/
def setConn (w : Hub) (c : ℕ) (k : Conn) : Hub :=
  { w with conn := Function.update w.conn c (some k) }

/-- A call is somewhere else. -/
def setCall (w : Hub) (r : ℕ) (k : Call) : Hub :=
  { w with call := Function.update w.call r (some k) }

/-- `self._pending.pop(rid, None)`: a call returns. -/
def returns (w : Hub) (r : ℕ) (k : Call) (e : Ending) : Hub :=
  { w.setCall r { k with at_ := .returned e } with
    machine := { w.machine with pending := w.machine.pending.erase r } }

/-- `Machine.resolve`. -/
def resolve (w : Hub) (id : ℕ) (ok : Bool) : Hub :=
  if id ∈ w.machine.pending then
    match w.call id with
    | some k =>
      if k.future.isSome then w
      else w.setCall id { k with future := some (if ok then .result else .error) }
    | none => w
  else w

/-- The clean-up of a handler that was attached. -/
def detach (w : Hub) : Hub where
  machine := { w.machine with ws := none, pending := [] }
  conn := w.conn
  call r := (w.call r).map fun k ↦
    if r ∈ w.machine.pending ∧ k.future = none then { k with future := some .lost } else k
  latest := w.latest

/-- One step. -/
def step (offlineAfter : ℕ) (w : Hub) : Label → Hub
  | .connect c => if w.conn c = none then w.setConn c .opened else w
  | .hello c now =>
    if w.conn c = some .opened then
      { w.setConn c .attached with
        machine := { w.machine with ws := some c, lastSeen := now }
        latest := some c }
    else w
  | .message c now m =>
    if w.conn c = some .attached then
      let w := { w with machine := { w.machine with lastSeen := now } }
      match m with
      | .rpcResult id ok => w.resolve id ok
      | .snapshot | .hello => w
    else w
  | .stop c =>
    match w.conn c with
    | some .attached => (w.setConn c .ended).detach
    | some .opened => w.setConn c .ended
    | _ => w
  | .rpc now =>
    match w.machine.ws with
    | some c =>
      if w.machine.online offlineAfter now then
        { w.setCall (w.machine.seq + 1) ⟨c, none, .sending⟩ with
          machine := { w.machine with
            seq := w.machine.seq + 1
            pending := (w.machine.seq + 1) :: w.machine.pending } }
      else w
    | none => w
  | .sent r ok =>
    match w.call r with
    | some k =>
      if k.at_ = .sending then
        if ok then w.setCall r { k with at_ := .waiting } else w.returns r k .notSent
      else w
    | none => w
  | .wake r =>
    match w.call r with
    | some k =>
      if k.at_ = .waiting then
        match k.future with
        | some a => w.returns r k (.answered a)
        | none => w
      else w
    | none => w
  | .timeout r =>
    match w.call r with
    | some k => if k.at_ = .waiting ∧ k.future = none then w.returns r k .timeout else w
    | none => w

/-- The runs of the hub. -/
def system (offlineAfter : ℕ) : StepSystem Hub Label := .ofFun new (step offlineAfter)

/-- What is expected of the hub: the connection that attached last is the machine's as long as it
has not ended, and a call is given up only if the connection it was sent over has ended. -/
structure Sound (w : Hub) : Prop where
  attached : ∀ c, w.latest = some c → w.conn c ≠ some .ended → w.machine.ws = some c
  lost : ∀ r k, w.call r = some k → k.at_ = .returned (.answered .lost) →
    w.conn k.via = some .ended

/-- No later connection is attached when a handler ends, and no RPC waits over another one that has
not ended. -/
def Orderly (w : Hub) : Label → Prop
  | .stop c => w.conn c = some .attached →
    (∀ c', w.latest = some c' → c' = c ∨ w.conn c' = some .ended) ∧
      ∀ r ∈ w.machine.pending, ∀ k, w.call r = some k → k.future = none →
        k.via = c ∨ w.conn k.via = some .ended
  | _ => True

/-- What holds in runs in which it is so. -/
structure Kept (w : Hub) : Prop where
  attached : ∀ c, w.latest = some c →
    w.conn c = some .ended ∨ w.conn c = some .attached ∧ w.machine.ws = some c
  lost : ∀ r k, w.call r = some k → k.future = some .lost → w.conn k.via = some .ended
  returned : ∀ r k, w.call r = some k → k.at_ = .returned (.answered .lost) →
    k.future = some .lost

theorem Kept.sound (h : w.Kept) : w.Sound where
  attached c hc hend := ((h.attached c hc).resolve_left hend).2
  lost r k hk hat := h.lost r k hk (h.returned r k hk hat)

/-- Only what the machine is connected by matters. -/
theorem Kept.of_ws (h : w.Kept) {machine : Machine} (hws : machine.ws = w.machine.ws) :
    Kept { w with machine } where
  attached c hc := hws ▸ h.attached c hc
  lost := h.lost
  returned := h.returned

/-- A call is the one that was set, or was there before. -/
theorem of_setCall {r r' : ℕ} {k q : Call} (hq : (w.setCall r k).call r' = some q) :
    q = k ∨ w.call r' = some q := by
  rcases eq_or_ne r' r with rfl | hne
  · have hself : (w.setCall r' k).call r' = some k := Function.update_self ..
    exact .inl (Option.some.inj (hq.symm.trans hself))
  · exact .inr ((Function.update_of_ne hne ..).symm.trans hq)

/-- A call goes on: it is given up only if it was, and returns so only then. -/
theorem Kept.setCall (h : w.Kept) {r : ℕ} {k : Call} (hk : w.call r = some k) {k' : Call}
    (hover : k'.via = k.via) (hfuture : k'.future = some .lost → k.future = some .lost)
    (hat : k'.at_ = .returned (.answered .lost) → k'.future = some .lost) :
    (w.setCall r k').Kept where
  attached := h.attached
  lost r' q hq hlost := by
    rcases of_setCall hq with rfl | hq
    · show w.conn q.via = _
      rw [hover]
      exact h.lost r k hk (hfuture hlost)
    · exact h.lost r' q hq hlost
  returned r' q hq hreturned := by
    rcases of_setCall hq with rfl | hq
    · exact hat hreturned
    · exact h.returned r' q hq hreturned

theorem Kept.returns (h : w.Kept) {r : ℕ} {k : Call} (hk : w.call r = some k) {e : Ending}
    (he : e = .answered .lost → k.future = some .lost) : (w.returns r k e).Kept := by
  have hset : (w.setCall r { k with at_ := .returned e }).Kept :=
    h.setCall hk rfl (fun hlost ↦ hlost) fun hat ↦ he (CallAt.returned.inj hat)
  exact hset.of_ws rfl

theorem Kept.resolve (h : w.Kept) (id : ℕ) (ok : Bool) : (w.resolve id ok).Kept := by
  rw [Hub.resolve]
  split
  case isFalse => exact h
  split
  case h_2 => exact h
  case h_1 k hk =>
    split
    case isTrue => exact h
    case isFalse hnone =>
      refine h.setCall hk rfl (fun hlost ↦ ?_) fun hat ↦ ?_
      · cases ok <;> cases hlost
      · have hfuture := h.returned id k hk hat
        rw [hfuture] at hnone
        exact absurd rfl hnone

/-- A connection that has ended has ended for good. -/
theorem ended_setConn {c c' : ℕ} {k : Conn} (hc : w.conn c ≠ some .ended)
    (hend : w.conn c' = some .ended) : (w.setConn c k).conn c' = some .ended := by
  have hne : c' ≠ c := fun heq ↦ hc (heq ▸ hend)
  exact (Function.update_of_ne hne ..).trans hend

/-- A handler that was not attached goes somewhere else. -/
theorem Kept.setConn (h : w.Kept) {c : ℕ} {k : Conn}
    (hc : w.conn c = none ∨ w.conn c = some .opened) : (w.setConn c k).Kept := by
  have hno : w.conn c ≠ some .ended := by rcases hc with hc | hc <;> rw [hc] <;> simp
  refine ⟨fun c' hlatest ↦ ?_, fun r q hq hlost ↦ ended_setConn hno (h.lost r q hq hlost),
    h.returned⟩
  rcases h.attached c' hlatest with hend | ⟨hat, hws⟩
  · exact .inl (ended_setConn hno hend)
  · have hne : c' ≠ c := by
      rintro rfl
      rcases hc with hc | hc <;> rw [hc] at hat <;> cases hat
    exact .inr ⟨(Function.update_of_ne hne ..).trans hat, hws⟩

/-- The clean-up of a handler behind which no later one is attached. -/
theorem Kept.detach (h : w.Kept) {c : ℕ} (hc : w.conn c = some .attached)
    (horderly : w.Orderly (.stop c)) : ((w.setConn c .ended).detach).Kept := by
  obtain ⟨hlatest, hpending⟩ := horderly hc
  have hno : w.conn c ≠ some .ended := by rw [hc]; simp
  have hgone : ∀ c', c' = c ∨ w.conn c' = some .ended →
      (w.setConn c .ended).conn c' = some .ended := by
    rintro c' (rfl | hend)
    · exact Function.update_self ..
    · exact ended_setConn hno hend
  refine ⟨fun c' hc' ↦ .inl (hgone c' (hlatest c' hc')), fun r q hq hlost ↦ ?_, fun r q hq hat ↦ ?_⟩
  · obtain ⟨k, hk, rfl⟩ := Option.map_eq_some_iff.1 hq
    split at hlost
    case isTrue hwaits =>
      rw [if_pos hwaits]
      exact hgone k.via (hpending r hwaits.1 k hk hwaits.2)
    case isFalse hwaits =>
      rw [if_neg hwaits]
      exact hgone k.via (.inr (h.lost r k hk hlost))
  · obtain ⟨k, hk, rfl⟩ := Option.map_eq_some_iff.1 hq
    split
    case isTrue => rfl
    case isFalse hwaits =>
      rw [if_neg hwaits] at hat
      exact h.returned r k hk hat

/-- **One step**, where a handler that ends has no later one behind it. -/
theorem Kept.step {offlineAfter : ℕ} (h : w.Kept) {l : Label} (horderly : w.Orderly l) :
    (w.step offlineAfter l).Kept := by
  cases l with simp only [Hub.step]
  | connect c =>
    split
    case isTrue hnone => exact h.setConn (.inl hnone)
    case isFalse => exact h
  | hello c now =>
    split
    case isTrue hopened =>
      have hset := h.setConn (k := .attached) (.inr hopened)
      refine ⟨fun c' hc' ↦ .inr ?_, hset.lost, hset.returned⟩
      obtain rfl := Option.some.inj hc'
      exact ⟨Function.update_self .., rfl⟩
    case isFalse => exact h
  | message c now m =>
    split
    case isTrue =>
      have hseen : Kept { w with machine := { w.machine with lastSeen := now } } := h.of_ws rfl
      cases m with
      | rpcResult id ok => exact hseen.resolve id ok
      | snapshot | hello => exact hseen
    case isFalse => exact h
  | stop c =>
    split
    case h_1 hc => exact h.detach hc horderly
    case h_2 hc => exact h.setConn (.inr hc)
    case h_3 => exact h
  | rpc now =>
    split
    case h_2 => exact h
    case h_1 c hws =>
      split
      case isFalse => exact h
      case isTrue =>
        refine ⟨h.attached, fun r q hq hlost ↦ ?_, fun r q hq hat ↦ ?_⟩
        · rcases of_setCall hq with rfl | hq
          · cases hlost
          · exact h.lost r q hq hlost
        · rcases of_setCall hq with rfl | hq
          · cases hat
          · exact h.returned r q hq hat
  | sent r ok =>
    split
    case h_2 => exact h
    case h_1 k hk =>
      split
      case isFalse => exact h
      case isTrue =>
        split
        case isTrue => exact h.setCall hk rfl (fun hlost ↦ hlost) fun hat ↦ (by cases hat)
        case isFalse => exact h.returns hk fun he ↦ (by cases he)
  | wake r =>
    split
    case h_2 => exact h
    case h_1 k hk =>
      split
      case isFalse => exact h
      case isTrue =>
        split
        case h_2 => exact h
        case h_1 a ha =>
          exact h.returns hk fun he ↦ ha.trans (congrArg some (Ending.answered.inj he))
  | timeout r =>
    split
    case h_2 => exact h
    case h_1 k hk =>
      split
      case isFalse => exact h
      case isTrue => exact h.returns hk fun he ↦ (by cases he)

/-- **In every run in which no handler ends while a later connection is attached**, or while an RPC
waits over another one, the connection that attached last is the machine's as long as it has not
ended, and an RPC is given up only if its connection has ended. -/
theorem sound_of_orderly (offlineAfter : ℕ) (w : Hub)
    (h : ((system offlineAfter).restrict Orderly).Reachable w) : w.Sound := by
  refine Kept.sound (h.invariant (I := Kept) (fun s hs ↦ ?_) fun s l t _ hkept hl ↦ ?_)
  · obtain rfl : s = new := hs
    exact ⟨fun c hc ↦ (by cases hc), fun r k hk ↦ (by cases hk), fun r k hk ↦ (by cases hk)⟩
  · obtain rfl : t = s.step offlineAfter l := hl.2
    exact hkept.step hl.1

/-- A connection attaches, an RPC is sent over it, it ends, and another attaches. -/
def reconnects : List Label :=
  [.connect 0, .hello 0 0, .rpc 1, .sent 1 true, .stop 0, .wake 1, .connect 1, .hello 1 2]

theorem sound_reconnects : Sound (reconnects.foldl (step 75) new) := by
  refine sound_of_orderly 75 _ (.foldl_of_allMeet (S := system 75) (fun _ _ ↦ rfl) (.start rfl)
    ⟨trivial, trivial, trivial, trivial, fun _ ↦ ⟨fun c hc ↦ ?_, fun r hr k hk _ ↦ ?_⟩, trivial,
      trivial, trivial, trivial⟩)
  · exact .inl (Option.some.inj hc).symm
  · obtain rfl := List.mem_singleton.1 hr
    exact .inl ((Option.some.inj hk) ▸ rfl)

/-- The machine connects again, and the hub notices then that the first connection is dead. -/
def overlaps : List Label :=
  [.connect 0, .hello 0 0, .connect 1, .hello 1 1, .rpc 2, .sent 1 true, .stop 0, .wake 1]

/-- The machine is offline then, and an RPC over the connection that is there is given up. -/
theorem not_sound : ¬ ∀ w, (system 75).Reachable w → w.Sound := by
  intro h
  have hsound := h _ (reachable_foldl overlaps)
  have hattached := hsound.attached 1 rfl (by decide)
  exact absurd hattached (by decide)

end Hub

end Ember.Proxy
