import Ember.Foundation.Runs
import Mathlib.Data.List.Nodup

/-!
# Cached outgoing connections

`Dialer::connection`, `open_bi`, `forget` and `disconnect` of `transport/src/dialer.rs`. A call
looks for the cached connection of its peer and service, dials if there is none, and puts what it
has dialed into the cache; the lock on the cache is not held while it dials. A task for each
connection takes its entry out when the connection has ended.

A `DialerLabel` is one step: one hold of the lock, one dial that ends, one connection that is
closed. Peers and services are any types.

## What is proved

* `clean_of_reachable` — in every run of the system whose steps are `Careful`: when no call is in
  progress, the connections that are open are the cached ones, one for each key; no connection is
  cached and open whose dial was under way when its key was forgotten; and a retry closes no other
  connection than the one that failed.
* `not_clean` — two first calls, a disconnect during a dial, and a retry after another.
-/

namespace Ember.Transport

/-- What `forget` or `disconnect` takes out of the cache. -/
inductive Cut (π σ : Type)
  | forget (peer : π) (service : σ)
  | disconnect (peer : π)
  deriving DecidableEq

/-- What a call of `connection` is made for. -/
inductive DialFor
  /-- The caller. -/
  | connection
  /-- The stream of an `open_bi`. -/
  | stream
  /-- Its second attempt. -/
  | retry
  deriving DecidableEq

/-- How far a call is. -/
inductive CallAt (π σ : Type)
  | lookUp (key : π × σ)
  | dialing (key : π × σ)
  /-- It has dialed this connection. -/
  | dialed (key : π × σ) (c : ℕ)
  /-- It has a number for its entry. -/
  | numbered (key : π × σ) (c id : ℕ)
  | opening (key : π × σ) (c : ℕ)
  /-- It is about to forget; for an `open_bi` whose stream could not be opened on `failed`. -/
  | cutting (cut : Cut π σ) (failed : Option ((π × σ) × ℕ))
  /-- It has still to close these. -/
  | closing (cut : Cut π σ) (failed : Option ((π × σ) × ℕ)) (gone : List ℕ)
  | done
  deriving DecidableEq

/-- A call. -/
structure Call (π σ : Type) where
  goal : DialFor
  at_ : CallAt π σ
  /-- Its key was forgotten while it dialed; only statements speak of it. -/
  stale : Bool
  deriving DecidableEq

/-- A connection that was dialed. -/
structure Conn (π σ : Type) where
  key : π × σ
  closed : Bool
  /-- The number of its entry. -/
  id : Option ℕ
  /-- Its task waits for its end. -/
  watched : Bool
  /-- Its key was forgotten while it was dialed; only statements speak of it. -/
  stale : Bool
  /-- The call that dialed it; only statements speak of it. -/
  by_ : ℕ
  deriving DecidableEq

/-- The dialers that share a cache, with the calls under way. -/
structure Dialer (π σ : Type) where
  /-- The number and the connection of each entry. -/
  conns : List ((π × σ) × ℕ × ℕ)
  nextId : ℕ
  dialed : List (Conn π σ)
  calls : List (Call π σ)
  /-- The last clone is gone. -/
  dropped : Bool
  /-- What retries closed: the connection that failed, and the one closed. -/
  retried : List (ℕ × ℕ)

/-- One step. -/
inductive DialerLabel (π σ : Type)
  | connection (key : π × σ)
  | openBi (key : π × σ)
  | forget (peer : π) (service : σ)
  | disconnect (peer : π)
  /-- The next step of a call; its dial has succeeded, or its stream is opened, or not. -/
  | next (i : ℕ) (ok : Bool)
  /-- A connection ends. -/
  | ended (c : ℕ)
  /-- The task of a connection. -/
  | watch (c : ℕ)
  | drop

variable {π σ : Type} [DecidableEq π] [DecidableEq σ]

/-- The cut takes out the entry of this key. -/
def Cut.hits : Cut π σ → π × σ → Bool
  | forget peer service, key => key = (peer, service)
  | disconnect peer, key => key.1 = peer

/-- The key for which the call dials. -/
def CallAt.dials : CallAt π σ → Option (π × σ)
  | dialing key | dialed key _ | numbered key _ _ => some key
  | _ => none

/-- The connection that the call has dialed and not cached. -/
def CallAt.holds : CallAt π σ → Option ℕ
  | dialed _ c | numbered _ c _ => some c
  | _ => none

/-- The connections that the call has still to close. -/
def CallAt.gone : CallAt π σ → List ℕ
  | closing _ _ gone => gone
  | _ => []

/-- The call has its connection: it returns it, or opens a stream on it. -/
def Call.arrive (k : Call π σ) (key : π × σ) (c : ℕ) : Call π σ :=
  { k with at_ := if k.goal = .connection then .done else .opening key c }

/-- A dial for a key that is forgotten. -/
def Call.markStale (c : Cut π σ) (k : Call π σ) : Call π σ :=
  if k.at_.dials.any c.hits then { k with stale := true } else k

namespace Dialer

/-- No connection was dialed. -/
def new : Dialer π σ := ⟨[], 0, [], [], false, []⟩

variable (w : Dialer π σ)

/-- The entry of a key. -/
def get (key : π × σ) : Option (ℕ × ℕ) := (w.conns.find? fun e ↦ e.1 = key).map Prod.snd

/-- The connection is open. -/
def isOpen (c : ℕ) : Bool := w.dialed[c]?.any fun conn ↦ !conn.closed

def setCall (i : ℕ) (k : Call π σ) : Dialer π σ := { w with calls := w.calls.set i k }

/-- A connection ends, or is closed. -/
def shut (c : ℕ) : Dialer π σ :=
  { w with dialed := w.dialed.modify c fun conn ↦ { conn with closed := true } }

/-- The lock on the cache, first. -/
def lookUp (i : ℕ) (k : Call π σ) (key : π × σ) : Dialer π σ :=
  match w.get key with
  | some e => w.setCall i (k.arrive key e.2)
  | none => w.setCall i { k with at_ := .dialing key, stale := false }

/-- `Transport::connect` has a connection. -/
def connected (i : ℕ) (k : Call π σ) (key : π × σ) : Dialer π σ :=
  { w.setCall i { k with at_ := .dialed key w.dialed.length } with
    dialed := w.dialed ++ [⟨key, false, none, false, false, i⟩] }

/-- The number of an entry. -/
def number (i : ℕ) (k : Call π σ) (key : π × σ) (c : ℕ) : Dialer π σ :=
  { w.setCall i { k with at_ := .numbered key c w.nextId } with
    nextId := w.nextId + 1
    dialed := w.dialed.modify c fun conn ↦ { conn with id := some w.nextId } }

/-- The entry is made, and the task of the connection started. -/
def insert (i : ℕ) (k : Call π σ) (key : π × σ) (c id : ℕ) : Dialer π σ :=
  { w.setCall i (k.arrive key c) with
    conns := (w.conns.filter fun e ↦ e.1 ≠ key) ++ [(key, id, c)]
    dialed := w.dialed.modify c fun conn ↦ { conn with watched := true, stale := k.stale } }

/-- The lock of `forget` or `disconnect`: the entries are taken out. -/
def cut (i : ℕ) (k : Call π σ) (c : Cut π σ) (failed : Option ((π × σ) × ℕ)) : Dialer π σ :=
  { w.setCall i { k with
      at_ := .closing c failed ((w.conns.filter fun e ↦ c.hits e.1).map fun e ↦ e.2.2) } with
    conns := w.conns.filter fun e ↦ !c.hits e.1 }

/-- `forget` or `disconnect` returns. -/
def returned (i : ℕ) (k : Call π σ) (c : Cut π σ) (failed : Option ((π × σ) × ℕ)) : Dialer π σ :=
  { w with calls := (w.calls.map (Call.markStale c)).set i <|
      match failed with
      | some (key, _) => { k with at_ := .lookUp key, goal := .retry }
      | none => { k with at_ := .done } }

/-- The next connection is closed. -/
def closeNext (i : ℕ) (k : Call π σ) (c : Cut π σ) (failed : Option ((π × σ) × ℕ)) (g : ℕ)
    (gone : List ℕ) : Dialer π σ :=
  { (w.shut g).setCall i { k with at_ := .closing c failed gone } with
    retried := w.retried ++ (failed.toList.filter fun _ ↦ w.isOpen g).map fun f ↦ (f.2, g) }

/-- A connection has ended: its entry is taken out, if it is still its own. -/
def watch (c : ℕ) (conn : Conn π σ) : Dialer π σ :=
  let w' : Dialer π σ :=
    { w with dialed := w.dialed.modify c fun conn ↦ { conn with watched := false } }
  if !w.dropped && (w.get conn.key).any fun e ↦ conn.id = some e.1 then
    { w' with conns := w.conns.filter fun e ↦ e.1 ≠ conn.key }
  else w'

/-- No call is in progress. -/
def Idle : Prop := ∀ k ∈ w.calls, k.at_ = .done

instance : Decidable w.Idle := List.decidableBAll _ _

/-- The next step of a call. -/
def next (i : ℕ) (k : Call π σ) (ok : Bool) : Dialer π σ :=
  match k.at_ with
  | .lookUp key => w.lookUp i k key
  | .dialing key => if ok then w.connected i k key else w.setCall i { k with at_ := .done }
  | .dialed key c => w.number i k key c
  | .numbered key c id => w.insert i k key c id
  | .opening key c =>
    if ok ∧ w.isOpen c ∨ k.goal = .retry then w.setCall i { k with at_ := .done }
    else w.setCall i { k with at_ := .cutting (.forget key.1 key.2) (some (key, c)) }
  | .cutting c failed => w.cut i k c failed
  | .closing c failed [] => w.returned i k c failed
  | .closing c failed (g :: gone) => w.closeNext i k c failed g gone
  | .done => w

/-- A call begins. -/
def begin (goal : DialFor) (at_ : CallAt π σ) : Dialer π σ :=
  if w.dropped then w else { w with calls := w.calls ++ [⟨goal, at_, false⟩] }

/-- One step. -/
def step (w : Dialer π σ) : DialerLabel π σ → Dialer π σ
  | .connection key => w.begin .connection (.lookUp key)
  | .openBi key => w.begin .stream (.lookUp key)
  | .forget peer service => w.begin .connection (.cutting (.forget peer service) none)
  | .disconnect peer => w.begin .connection (.cutting (.disconnect peer) none)
  | .ended c => w.shut c
  | .watch c =>
    match w.dialed[c]? with
    | some conn => if conn.watched ∧ conn.closed then w.watch c conn else w
    | none => w
  | .drop =>
    if w.Idle then
      { w with
        dropped := true
        conns := []
        dialed := w.dialed.mapIdx fun c conn ↦
          if c ∈ w.conns.map fun e ↦ e.2.2 then { conn with closed := true } else conn }
    else w
  | .next i ok =>
    match w.calls[i]? with
    | some k => w.next i k ok
    | none => w

/-- The state after these steps. -/
def run (w : Dialer π σ) (ls : List (DialerLabel π σ)) : Dialer π σ := ls.foldl step w

/-! ### What is good -/

/-- What the cache is for. -/
structure Clean (w : Dialer π σ) : Prop where
  /-- What is open is cached. -/
  cached : w.Idle → ∀ c conn, w.dialed[c]? = some conn → conn.closed = false →
    ∃ id, w.get conn.key = some (id, c)
  /-- There is one for each key. -/
  single : w.Idle → ∀ (c c' : ℕ) (conn conn' : Conn π σ),
    w.dialed[c]? = some conn → w.dialed[c']? = some conn' →
    conn.closed = false → conn'.closed = false → conn.key = conn'.key → c = c'
  /-- What was dialed while its key was forgotten is not. -/
  stale : ∀ (c : ℕ) (conn : Conn π σ), w.dialed[c]? = some conn → conn.stale = true →
    conn.closed = false → ∀ id, w.get conn.key ≠ some (id, c)
  /-- A retry closes what failed. -/
  retry : ∀ r ∈ w.retried, r.2 = r.1

/-- The steps that do no harm.

* A connection is put into the cache where there is none that is open, and not if its key was
  forgotten since its call has found none, unless it is closed by then.
* When a retry takes the entry out, it is that of the connection that failed, or of one that is
  closed. -/
def CarefulAt (stale : Bool) : CallAt π σ → Prop
  | .numbered key c _ =>
    (∀ e ∈ w.get key, w.isOpen e.2 = false) ∧ (stale = true → w.isOpen c = false)
  | .cutting cut (some f) =>
    ∀ e ∈ w.conns, cut.hits e.1 = true → e.2.2 = f.2 ∨ w.isOpen e.2.2 = false
  | _ => True

/-- The steps that do no harm. -/
def Careful : DialerLabel π σ → Prop
  | .next i _ => ∀ k ∈ w.calls[i]?, w.CarefulAt k.stale k.at_
  | _ => True

instance (stale : Bool) : ∀ at_, Decidable (w.CarefulAt stale at_)
  | .numbered key c _ => inferInstanceAs (Decidable
      ((∀ e ∈ w.get key, w.isOpen e.2 = false) ∧ (stale = true → w.isOpen c = false)))
  | .cutting cut (some f) => inferInstanceAs (Decidable
      (∀ e ∈ w.conns, cut.hits e.1 = true → e.2.2 = f.2 ∨ w.isOpen e.2.2 = false))
  | .cutting _ none | .lookUp _ | .dialing _ | .dialed _ _ | .opening _ _ | .closing _ _ _
  | .done => isTrue trivial

instance : ∀ l, Decidable (w.Careful l)
  | .next i _ => inferInstanceAs (Decidable (∀ k ∈ w.calls[i]?, w.CarefulAt k.stale k.at_))
  | .connection _ | .openBi _ | .forget _ _ | .disconnect _ | .ended _ | .watch _ | .drop =>
    isTrue trivial

/-! ### What holds in careful runs -/

/-- What becomes of a connection, but for its number. -/
structure Later (conn conn' : Conn π σ) : Prop where
  key : conn'.key = conn.key
  by_ : conn'.by_ = conn.by_
  id : conn'.id = conn.id
  closed : conn.closed = true → conn'.closed = true

/-- What holds of a call. -/
structure AtOk (d : List (Conn π σ)) (i : ℕ) (at_ : CallAt π σ) : Prop where
  dialed : ∀ key c, at_ = .dialed key c →
    ∃ conn, d[c]? = some conn ∧ conn.key = key ∧ conn.id = none ∧ conn.by_ = i
  numbered : ∀ key c id, at_ = .numbered key c id →
    ∃ conn, d[c]? = some conn ∧ conn.key = key ∧ conn.id = some id ∧ conn.by_ = i
  closing : ∀ cut f gone, at_ = .closing cut (some f) gone → ∀ c ∈ gone,
    c = f.2 ∨ ∃ conn, d[c]? = some conn ∧ conn.closed = true

/-- What holds in every state of a careful run. -/
structure Ok (w : Dialer π σ) : Prop where
  keys : (w.conns.map Prod.fst).Nodup
  entries : ∀ e ∈ w.conns,
    ∃ conn, w.dialed[e.2.2]? = some conn ∧ conn.key = e.1 ∧ conn.id = some e.2.1
  fresh : ∀ (c : ℕ) (conn : Conn π σ) (id : ℕ), w.dialed[c]? = some conn → conn.id = some id →
    id < w.nextId
  ids : ∀ (c c' : ℕ) (conn conn' : Conn π σ) (id : ℕ), w.dialed[c]? = some conn →
    w.dialed[c']? = some conn' → conn.id = some id → conn'.id = some id → c = c'
  calls : ∀ i k, w.calls[i]? = some k → AtOk w.dialed i k.at_
  /-- What is open is cached, or a call holds it or is about to close it. -/
  open_ : ∀ c conn, w.dialed[c]? = some conn → conn.closed = false →
    (∃ id, (conn.key, id, c) ∈ w.conns) ∨ ∃ k ∈ w.calls, k.at_.holds = some c ∨ c ∈ k.at_.gone
  stale : ∀ (c : ℕ) (conn : Conn π σ), w.dialed[c]? = some conn → conn.stale = true →
    conn.closed = true
  retried : ∀ r ∈ w.retried, r.2 = r.1

variable {w} {w' : Dialer π σ} {k k' : Call π σ} {i c : ℕ} {key : π × σ} {d d' : List (Conn π σ)}

section

omit [DecidableEq π] [DecidableEq σ]

theorem ok_new : Ok (new : Dialer π σ) :=
  ⟨List.nodup_nil, nofun, nofun, nofun, nofun, nofun, nofun, nofun⟩

theorem AtOk.later {at_ : CallAt π σ} (h : AtOk d i at_) (hd : ∀ (c : ℕ) (conn : Conn π σ),
    d[c]? = some conn → ∃ conn', d'[c]? = some conn' ∧ Later conn conn') :
    AtOk d' i at_ where
  dialed key c heq := by
    obtain ⟨conn, hc, hkey, hid, hby⟩ := h.dialed key c heq
    obtain ⟨conn', hc', hlater⟩ := hd c conn hc
    exact ⟨conn', hc', hlater.key.trans hkey, hlater.id.trans hid, hlater.by_.trans hby⟩
  numbered key c id heq := by
    obtain ⟨conn, hc, hkey, hid, hby⟩ := h.numbered key c id heq
    obtain ⟨conn', hc', hlater⟩ := hd c conn hc
    exact ⟨conn', hc', hlater.key.trans hkey, hlater.id.trans hid, hlater.by_.trans hby⟩
  closing cut f gone heq c hc := by
    refine (h.closing cut f gone heq c hc).imp_right ?_
    rintro ⟨conn, hconn, hclosed⟩
    obtain ⟨conn', hc', hlater⟩ := hd c conn hconn
    exact ⟨conn', hc', hlater.closed hclosed⟩

/-- A call that neither holds a connection nor is closing any. -/
theorem atOk_of_free {at_ : CallAt π σ} (hholds : at_.holds = none) (hgone : at_.gone = []) :
    AtOk d i at_ where
  dialed key c heq := by rw [heq] at hholds; cases hholds
  numbered key c id heq := by rw [heq] at hholds; cases hholds
  closing cut f gone heq c hc := by
    rw [heq] at hgone
    obtain rfl : gone = [] := hgone
    cases hc

/-- What a modified connection was. -/
theorem getElem?_modify_eq_some {f : Conn π σ → Conn π σ} {conn : Conn π σ} {j : ℕ} :
    (d.modify c f)[j]? = some conn ↔
      ∃ conn₀, d[j]? = some conn₀ ∧ conn = if c = j then f conn₀ else conn₀ := by
  rw [List.getElem?_modify, Option.map_eq_map, Option.map_eq_some_iff]
  exact exists_congr fun conn₀ ↦ and_congr_right fun _ ↦ eq_comm

theorem later_modify {f : Conn π σ → Conn π σ} (hf : ∀ conn, Later conn (f conn)) (j : ℕ)
    (conn : Conn π σ) (hj : d[j]? = some conn) :
    ∃ conn', (d.modify c f)[j]? = some conn' ∧ Later conn conn' := by
  refine ⟨_, getElem?_modify_eq_some.2 ⟨conn, hj, rfl⟩, ?_⟩
  split
  · exact hf conn
  · exact ⟨rfl, rfl, rfl, id⟩

/-- The call after a change of one. -/
theorem of_getElem?_set {j : ℕ} {k₀ : Call π σ} (hj : (w.calls.set i k')[j]? = some k₀) :
    (j = i ∧ k₀ = k') ∨ (j ≠ i ∧ w.calls[j]? = some k₀) := by
  rw [List.getElem?_set] at hj
  split at hj
  case isTrue hij =>
    split at hj
    · exact .inl ⟨hij.symm, (Option.some.inj hj).symm⟩
    · cases hj
  case isFalse hij => exact .inr ⟨fun heq ↦ hij heq.symm, hj⟩

/-- **A call goes on**: what it held it still holds, or is cached. -/
theorem Ok.setCall (h : Ok w) (hk : w.calls[i]? = some k) (hok : AtOk w.dialed i k'.at_)
    (hkept : ∀ c, k.at_.holds = some c ∨ c ∈ k.at_.gone → w.isOpen c = true →
      k'.at_.holds = some c ∨ c ∈ k'.at_.gone) : Ok (w.setCall i k') := by
  have hlt := (List.getElem?_eq_some_iff.1 hk).1
  refine { h with calls := fun j k₀ hj ↦ ?_, open_ := fun c conn hc hopen ↦ ?_ }
  · obtain ⟨rfl, rfl⟩ | ⟨-, hj⟩ := of_getElem?_set hj
    · exact hok
    · exact h.calls j k₀ hj
  · refine (h.open_ c conn hc hopen).imp_right fun ⟨k₀, hmem, hold⟩ ↦ ?_
    obtain ⟨j, hj⟩ := List.mem_iff_getElem?.1 hmem
    by_cases hij : j = i
    · subst hij
      obtain rfl := Option.some.inj (hk.symm.trans hj)
      have hc : w.dialed[c]? = some conn := hc
      have hisOpen : w.isOpen c = true := by simp [isOpen, hc, hopen]
      exact ⟨k', List.mem_set hlt k', hkept c hold hisOpen⟩
    · refine ⟨k₀, List.mem_iff_getElem?.2 ⟨j, ?_⟩, hold⟩
      rw [← hj]
      exact List.getElem?_set_ne fun heq ↦ hij heq.symm

/-- **A connection is closed**, or its task is started or ends: what is open was open. -/
theorem Ok.modify (h : Ok w) {f : Conn π σ → Conn π σ} (hf : ∀ conn, Later conn (f conn))
    (hstale : ∀ conn, w.dialed[c]? = some conn → (f conn).stale = true → (f conn).closed = true) :
    Ok { w with dialed := w.dialed.modify c f } := by
  have hof : ∀ {j : ℕ} {conn : Conn π σ}, (w.dialed.modify c f)[j]? = some conn →
      ∃ conn₀, w.dialed[j]? = some conn₀ ∧ Later conn₀ conn ∧
        (conn.stale = true → conn.closed = true) := by
    intro j conn hj
    obtain ⟨conn₀, hconn₀, rfl⟩ := getElem?_modify_eq_some.1 hj
    refine ⟨conn₀, hconn₀, ?_⟩
    split
    case isTrue hcj =>
      subst hcj
      exact ⟨hf conn₀, hstale conn₀ hconn₀⟩
    · exact ⟨⟨rfl, rfl, rfl, fun h ↦ h⟩, h.stale j conn₀ hconn₀⟩
  refine { h with
    entries := fun e he ↦ ?_
    fresh := fun j conn id hj hid ↦ ?_
    ids := fun j j' conn conn' id hj hj' hid hid' ↦ ?_
    calls := fun j k hj ↦ (h.calls j k hj).later (later_modify hf)
    open_ := fun j conn hj hopen ↦ ?_
    stale := fun j conn hj ↦ ?_ }
  · obtain ⟨conn, hconn, hkey, hid⟩ := h.entries e he
    obtain ⟨conn', hconn', hlater⟩ := later_modify (c := c) hf _ _ hconn
    exact ⟨conn', hconn', hlater.key.trans hkey, hlater.id.trans hid⟩
  · obtain ⟨conn₀, hconn₀, hlater, -⟩ := hof hj
    exact h.fresh j conn₀ id hconn₀ (hlater.id.symm.trans hid)
  · obtain ⟨conn₀, hconn₀, hlater, -⟩ := hof hj
    obtain ⟨conn₀', hconn₀', hlater', -⟩ := hof hj'
    exact h.ids j j' conn₀ conn₀' id hconn₀ hconn₀' (hlater.id.symm.trans hid)
      (hlater'.id.symm.trans hid')
  · obtain ⟨conn₀, hconn₀, hlater, -⟩ := hof hj
    rw [hlater.key]
    refine h.open_ j conn₀ hconn₀ (Bool.eq_false_iff.2 fun hclosed ↦ ?_)
    exact absurd (hopen.symm.trans (hlater.closed hclosed)) Bool.false_ne_true
  · obtain ⟨conn₀, -, -, hclosed⟩ := hof hj
    exact hclosed

theorem Ok.shut (h : Ok w) (c : ℕ) : Ok (w.shut c) :=
  h.modify (fun _ ↦ ⟨rfl, rfl, rfl, fun _ ↦ rfl⟩) fun _ _ _ ↦ rfl

/-- **A dial has succeeded.** -/
theorem Ok.connected (h : Ok w) (hk : w.calls[i]? = some k) (hat : k.at_ = .dialing key) :
    Ok (w.connected i k key) := by
  have hlt := (List.getElem?_eq_some_iff.1 hk).1
  have hold : ∀ {j : ℕ} {conn : Conn π σ}, w.dialed[j]? = some conn →
      (w.dialed ++ [⟨key, false, none, false, false, i⟩])[j]? = some conn := by
    intro j conn hj
    rw [List.getElem?_append_left (List.getElem?_eq_some_iff.1 hj).1, hj]
  have hof : ∀ {j : ℕ} {conn : Conn π σ},
      (w.dialed ++ [⟨key, false, none, false, false, i⟩])[j]? = some conn →
      w.dialed[j]? = some conn ∨
        (j = w.dialed.length ∧ conn = ⟨key, false, none, false, false, i⟩) := by
    intro j conn hj
    rcases Nat.lt_or_ge j w.dialed.length with hlt | hge
    · rw [List.getElem?_append_left hlt] at hj
      exact .inl hj
    · rw [List.getElem?_append_right hge] at hj
      obtain ⟨hlt, heq⟩ := List.getElem?_eq_some_iff.1 hj
      rw [List.length_singleton] at hlt
      exact .inr ⟨by omega, by rw [← heq]; simp⟩
  refine { h with
    entries := fun e he ↦ ?_
    fresh := fun j conn id hj hid ↦ ?_
    ids := fun j j' conn conn' id hj hj' hid hid' ↦ ?_
    calls := fun j k hj ↦ ?_
    open_ := fun j conn hj hopen ↦ ?_
    stale := fun j conn hj hstale ↦ ?_ }
  · obtain ⟨conn, hconn, rest⟩ := h.entries e he
    exact ⟨conn, hold hconn, rest⟩
  · rcases hof hj with hj | ⟨-, rfl⟩
    · exact h.fresh j conn id hj hid
    · cases hid
  · rcases hof hj with hj | ⟨-, rfl⟩
    · rcases hof hj' with hj' | ⟨-, rfl⟩
      · exact h.ids j j' conn conn' id hj hj' hid hid'
      · cases hid'
    · cases hid
  · obtain ⟨rfl, rfl⟩ | ⟨-, hj⟩ := of_getElem?_set hj
    · refine ⟨fun key' c heq ↦ ?_, nofun, nofun⟩
      obtain ⟨rfl, rfl⟩ := CallAt.dialed.inj heq
      exact ⟨_, List.getElem?_concat_length, rfl, rfl, rfl⟩
    · exact (h.calls j _ hj).later fun c conn hc ↦ ⟨conn, hold hc, rfl, rfl, rfl, fun h ↦ h⟩
  · rcases hof hj with hj | ⟨rfl, rfl⟩
    · refine (h.open_ j conn hj hopen).imp_right fun ⟨k₀, hmem, hheld⟩ ↦ ?_
      obtain ⟨l, hl⟩ := List.mem_iff_getElem?.1 hmem
      refine ⟨k₀, List.mem_iff_getElem?.2 ⟨l, ?_⟩, hheld⟩
      have hne : l ≠ i := by
        rintro rfl
        obtain rfl := Option.some.inj (hk.symm.trans hl)
        rw [hat] at hheld
        rcases hheld with hheld | hheld <;> cases hheld
      rw [← hl]
      exact List.getElem?_set_ne hne.symm
    · exact .inr ⟨_, List.mem_set hlt _, .inl rfl⟩
  · rcases hof hj with hj | ⟨-, rfl⟩
    · exact h.stale j conn hj hstale
    · cases hstale

/-- **An entry gets its number**, which no other has. -/
theorem Ok.number (h : Ok w) (hk : w.calls[i]? = some k) (hat : k.at_ = .dialed key c) :
    Ok (w.number i k key c) := by
  have hlt := (List.getElem?_eq_some_iff.1 hk).1
  obtain ⟨conn, hconn, hkey, hnone, hby⟩ := (h.calls i k hk).dialed key c hat
  have hof : ∀ {j : ℕ} {conn' : Conn π σ},
      (w.dialed.modify c fun conn ↦ { conn with id := some w.nextId })[j]? = some conn' →
      (j = c ∧ conn' = { conn with id := some w.nextId }) ∨
        (j ≠ c ∧ w.dialed[j]? = some conn') := by
    intro j conn' hj
    obtain ⟨conn₀, hconn₀, rfl⟩ := getElem?_modify_eq_some.1 hj
    by_cases hcj : c = j
    · subst hcj
      obtain rfl := Option.some.inj (hconn.symm.trans hconn₀)
      exact .inl ⟨rfl, if_pos rfl⟩
    · rw [if_neg hcj]
      exact .inr ⟨fun heq ↦ hcj heq.symm, hconn₀⟩
  have hother : ∀ {j : ℕ} {conn' : Conn π σ}, j ≠ c → w.dialed[j]? = some conn' →
      (w.dialed.modify c fun conn ↦ { conn with id := some w.nextId })[j]? = some conn' :=
    fun hne hj ↦ getElem?_modify_eq_some.2 ⟨_, hj, (if_neg hne.symm).symm⟩
  have hself : (w.dialed.modify c fun conn ↦ { conn with id := some w.nextId })[c]? =
      some { conn with id := some w.nextId } :=
    getElem?_modify_eq_some.2 ⟨conn, hconn, (if_pos rfl).symm⟩
  refine { h with
    entries := fun e he ↦ ?_
    fresh := fun j conn' id hj hid ↦ ?_
    ids := fun j j' conn₁ conn₂ id hj hj' hid hid' ↦ ?_
    calls := fun j k' hj ↦ ?_
    open_ := fun j conn' hj hopen ↦ ?_
    stale := fun j conn' hj hstale ↦ ?_ }
  · obtain ⟨conn', hconn', hkey', hid'⟩ := h.entries e he
    refine ⟨conn', hother ?_ hconn', hkey', hid'⟩
    -- A cached connection has a number.
    rintro heq
    rw [heq, hconn] at hconn'
    obtain rfl := Option.some.inj hconn'
    exact nomatch hnone.symm.trans hid'
  · obtain ⟨-, rfl⟩ | ⟨-, hj⟩ := hof hj
    · obtain rfl := Option.some.inj hid
      exact Nat.lt_succ_self _
    · exact Nat.lt_succ_of_lt (h.fresh j conn' id hj hid)
  · obtain ⟨rfl, rfl⟩ | ⟨-, hj⟩ := hof hj
    · obtain ⟨rfl, -⟩ | ⟨-, hj'⟩ := hof hj'
      · rfl
      · obtain rfl := Option.some.inj hid
        exact absurd (h.fresh j' conn₂ _ hj' hid') (Nat.lt_irrefl _)
    · obtain ⟨-, rfl⟩ | ⟨-, hj'⟩ := hof hj'
      · obtain rfl := Option.some.inj hid'
        exact absurd (h.fresh j conn₁ _ hj hid) (Nat.lt_irrefl _)
      · exact h.ids j j' conn₁ conn₂ id hj hj' hid hid'
  · obtain ⟨rfl, rfl⟩ | ⟨hne, hj⟩ := of_getElem?_set hj
    · refine ⟨nofun, fun key' c' id heq ↦ ?_, nofun⟩
      obtain ⟨rfl, rfl, rfl⟩ := CallAt.numbered.inj heq
      exact ⟨_, hself, hkey, rfl, hby⟩
    · -- No other call has dialed the connection.
      have hmine : ∀ {c' : ℕ} {conn' : Conn π σ}, w.dialed[c']? = some conn' → conn'.by_ = j →
          c' ≠ c := by
        rintro c' conn' hc' hby' rfl
        obtain rfl := Option.some.inj (hconn.symm.trans hc')
        exact hne (hby'.symm.trans hby)
      have hok := h.calls j k' hj
      refine ⟨fun key' c' heq ↦ ?_, fun key' c' id heq ↦ ?_, fun cut f gone heq c' hc' ↦ ?_⟩
      · obtain ⟨conn', hc', hkey', hid', hby'⟩ := hok.dialed key' c' heq
        exact ⟨conn', hother (hmine hc' hby') hc', hkey', hid', hby'⟩
      · obtain ⟨conn', hc', hkey', hid', hby'⟩ := hok.numbered key' c' id heq
        exact ⟨conn', hother (hmine hc' hby') hc', hkey', hid', hby'⟩
      · refine (hok.closing cut f gone heq c' hc').imp_right fun ⟨conn', hconn', hclosed⟩ ↦ ?_
        by_cases hcc : c' = c
        · subst hcc
          obtain rfl := Option.some.inj (hconn.symm.trans hconn')
          exact ⟨_, hself, hclosed⟩
        · exact ⟨conn', hother hcc hconn', hclosed⟩
  · have hopen' : ∃ conn₀, w.dialed[j]? = some conn₀ ∧ conn₀.closed = false ∧
        conn₀.key = conn'.key := by
      obtain ⟨rfl, rfl⟩ | ⟨-, hj⟩ := hof hj
      · exact ⟨conn, hconn, hopen, rfl⟩
      · exact ⟨conn', hj, hopen, rfl⟩
    obtain ⟨conn₀, hconn₀, hclosed, hkey'⟩ := hopen'
    rw [← hkey']
    refine (h.open_ j conn₀ hconn₀ hclosed).imp_right fun ⟨k₀, hmem, hheld⟩ ↦ ?_
    obtain ⟨l, hl⟩ := List.mem_iff_getElem?.1 hmem
    by_cases hli : l = i
    · subst hli
      obtain rfl := Option.some.inj (hk.symm.trans hl)
      rw [hat] at hheld
      exact ⟨_, List.mem_set hlt _, .inl (hheld.resolve_right List.not_mem_nil)⟩
    · refine ⟨k₀, List.mem_iff_getElem?.2 ⟨l, ?_⟩, hheld⟩
      rw [← hl]
      exact List.getElem?_set_ne fun heq ↦ hli heq.symm
  · obtain ⟨rfl, rfl⟩ | ⟨-, hj⟩ := hof hj
    · exact h.stale j conn hconn hstale
    · exact h.stale j conn' hj hstale

/-- A call that neither holds a connection nor closes any goes on to another such. -/
theorem Ok.free (h : Ok w) (hk : w.calls[i]? = some k) (hholds : k.at_.holds = none)
    (hgone : k.at_.gone = []) (hholds' : k'.at_.holds = none) (hgone' : k'.at_.gone = []) :
    Ok (w.setCall i k') := by
  refine h.setCall hk (atOk_of_free hholds' hgone') fun c hc _ ↦ ?_
  rw [hholds, hgone] at hc
  rcases hc with hc | hc <;> cases hc

theorem arrive_free (k : Call π σ) (key : π × σ) (c : ℕ) :
    (k.arrive key c).at_.holds = none ∧ (k.arrive key c).at_.gone = [] := by
  unfold Call.arrive
  split <;> exact ⟨rfl, rfl⟩

theorem isOpen_eq_false {conn : Conn π σ} (hc : w.dialed[c]? = some conn)
    (h : w.isOpen c = false) : conn.closed = true := by
  simpa [isOpen, hc] using h

theorem isOpen_shut (c : ℕ) : (w.shut c).isOpen c = false := by
  simp only [isOpen, shut, List.getElem?_modify, if_pos]
  cases w.dialed[c]? <;> rfl

end

/-- The entry of a key. -/
theorem get_eq_some (h : Ok w) {e : ℕ × ℕ} : w.get key = some e ↔ (key, e) ∈ w.conns := by
  unfold get
  constructor
  · intro hget
    obtain ⟨e', hfind, rfl⟩ := Option.map_eq_some_iff.1 hget
    have hkey : e'.1 = key := of_decide_eq_true
      (List.find?_some (p := fun e : (π × σ) × ℕ × ℕ ↦ e.1 = key) hfind)
    exact hkey ▸ List.mem_of_find?_eq_some hfind
  · intro hmem
    cases hfind : w.conns.find? fun e ↦ e.1 = key with
    | none => exact absurd (decide_eq_true rfl) (List.find?_eq_none.1 hfind _ hmem)
    | some e' =>
      have hkey : e'.1 = key := of_decide_eq_true
        (List.find?_some (p := fun e : (π × σ) × ℕ × ℕ ↦ e.1 = key) hfind)
      obtain rfl := List.inj_on_of_nodup_map h.keys (List.mem_of_find?_eq_some hfind) hmem hkey
      rfl

/-- **An entry is made** where there is none of an open connection. -/
theorem Ok.insert (h : Ok w) {id : ℕ} (hk : w.calls[i]? = some k)
    (hat : k.at_ = .numbered key c id) (hcareful : w.CarefulAt k.stale k.at_) :
    Ok (w.insert i k key c id) := by
  have hlt := (List.getElem?_eq_some_iff.1 hk).1
  obtain ⟨conn, hconn, hkey, hid, -⟩ := (h.calls i k hk).numbered key c id hat
  rw [hat] at hcareful
  obtain ⟨hfree, hstale⟩ := hcareful
  have hlater : ∀ conn : Conn π σ, Later conn { conn with watched := true, stale := k.stale } :=
    fun _ ↦ ⟨rfl, rfl, rfl, fun h ↦ h⟩
  have hmodify := h.modify (c := c) hlater fun conn' hconn' hst ↦ by
    have hclosed : conn'.closed = true := isOpen_eq_false hconn' (hstale hst)
    exact hclosed
  have hkeys : ((w.conns.filter fun e ↦ e.1 ≠ key).map Prod.fst).Nodup :=
    (List.filter_sublist.map _).nodup h.keys
  obtain ⟨hholds, hgone⟩ := arrive_free k key c
  refine { hmodify with
    keys := ?_
    entries := fun e he ↦ ?_
    calls := fun j k' hj ↦ ?_
    open_ := fun j conn' hj hopen ↦ ?_ }
  · show (((w.conns.filter fun e ↦ e.1 ≠ key) ++ [(key, id, c)]).map Prod.fst).Nodup
    rw [List.map_append, List.nodup_append]
    refine ⟨hkeys, List.nodup_singleton _, fun a ha b hb ↦ ?_⟩
    obtain ⟨e, he, rfl⟩ := List.mem_map.1 ha
    rw [List.mem_singleton.1 hb]
    exact of_decide_eq_true (List.mem_filter.1 he).2
  · rcases List.mem_append.1 he with hold | hlast
    · exact hmodify.entries e (List.mem_filter.1 hold).1
    · obtain rfl := List.mem_singleton.1 hlast
      obtain ⟨conn', hconn', hlater'⟩ := later_modify (c := c) hlater c conn hconn
      exact ⟨conn', hconn', hlater'.key.trans hkey, hlater'.id.trans hid⟩
  · obtain ⟨rfl, rfl⟩ | ⟨-, hj⟩ := of_getElem?_set hj
    · exact atOk_of_free hholds hgone
    · exact hmodify.calls j k' hj
  · by_cases hjc : j = c
    · subst hjc
      obtain ⟨conn₀, hconn₀, rfl⟩ := getElem?_modify_eq_some.1 hj
      obtain rfl := Option.some.inj (hconn.symm.trans hconn₀)
      refine .inl ⟨id, List.mem_append_right _ (List.mem_singleton.2 ?_)⟩
      rw [if_pos rfl]
      exact congrArg (·, id, j) hkey
    · rcases hmodify.open_ j conn' hj hopen with ⟨id', hmem⟩ | ⟨k₀, hmem, hheld⟩
      · have hmem : (conn'.key, id', j) ∈ w.conns := hmem
        refine .inl ⟨id', List.mem_append_left _ (List.mem_filter.2 ⟨hmem, decide_eq_true ?_⟩)⟩
        -- The entry that was there is of a connection that is closed.
        intro heq
        obtain ⟨conn₀, hconn₀, hconn'⟩ := getElem?_modify_eq_some.1 hj
        rw [if_neg fun heq ↦ hjc heq.symm] at hconn'
        have hget := (get_eq_some h).2 (show (key, id', j) ∈ w.conns from heq ▸ hmem)
        have hclosed := isOpen_eq_false hconn₀ (hfree _ hget)
        rw [← hconn', hopen] at hclosed
        cases hclosed
      · obtain ⟨l, hl⟩ := List.mem_iff_getElem?.1 hmem
        refine .inr ⟨k₀, List.mem_iff_getElem?.2 ⟨l, ?_⟩, hheld⟩
        have hne : l ≠ i := by
          rintro rfl
          obtain rfl := Option.some.inj (hk.symm.trans hl)
          rw [hat] at hheld
          rcases hheld with hheld | hheld
          · exact hjc (Option.some.inj hheld).symm
          · cases hheld
        rw [← hl]
        exact List.getElem?_set_ne hne.symm

/-- **The entries are taken out**; their connections are still to be closed. -/
theorem Ok.cut (h : Ok w) {cut : Cut π σ} {failed : Option ((π × σ) × ℕ)}
    (hk : w.calls[i]? = some k) (hat : k.at_ = .cutting cut failed)
    (hcareful : w.CarefulAt k.stale k.at_) : Ok (w.cut i k cut failed) := by
  have hlt := (List.getElem?_eq_some_iff.1 hk).1
  refine { h with
    keys := (List.filter_sublist.map _).nodup h.keys
    entries := fun e he ↦ h.entries e (List.mem_filter.1 he).1
    calls := fun j k' hj ↦ ?_
    open_ := fun j conn hj hopen ↦ ?_ }
  · obtain ⟨rfl, rfl⟩ | ⟨-, hj⟩ := of_getElem?_set hj
    · refine ⟨nofun, nofun, fun cut' f gone heq c hc ↦ ?_⟩
      obtain ⟨rfl, rfl, rfl⟩ := CallAt.closing.inj heq
      obtain ⟨e, he, rfl⟩ := List.mem_map.1 hc
      obtain ⟨hmem, hhits⟩ := List.mem_filter.1 he
      rw [hat] at hcareful
      refine (hcareful e hmem hhits).imp_right fun hclosed ↦ ?_
      obtain ⟨conn, hconn, -⟩ := h.entries e hmem
      exact ⟨conn, hconn, isOpen_eq_false hconn hclosed⟩
    · exact h.calls j k' hj
  · rcases h.open_ j conn hj hopen with ⟨id, hmem⟩ | ⟨k₀, hmem, hheld⟩
    · cases hhits : cut.hits conn.key with
      | false => exact .inl ⟨id, List.mem_filter.2 ⟨hmem, by simp [hhits]⟩⟩
      | true =>
        refine .inr ⟨_, List.mem_set hlt _, .inr (List.mem_map.2 ⟨(conn.key, id, j), ?_, rfl⟩)⟩
        exact List.mem_filter.2 ⟨hmem, hhits⟩
    · obtain ⟨l, hl⟩ := List.mem_iff_getElem?.1 hmem
      refine .inr ⟨k₀, List.mem_iff_getElem?.2 ⟨l, ?_⟩, hheld⟩
      have hne : l ≠ i := by
        rintro rfl
        obtain rfl := Option.some.inj (hk.symm.trans hl)
        rw [hat] at hheld
        rcases hheld with hheld | hheld <;> cases hheld
      rw [← hl]
      exact List.getElem?_set_ne hne.symm

theorem at_markStale (cut : Cut π σ) (k : Call π σ) : (k.markStale cut).at_ = k.at_ := by
  unfold Call.markStale
  split <;> rfl

/-- Which dials are stale is nothing to the calls. -/
theorem Ok.markStale (h : Ok w) (cut : Cut π σ) :
    Ok { w with calls := w.calls.map (Call.markStale cut) } := by
  refine { h with calls := fun j k hj ↦ ?_, open_ := fun j conn hj hopen ↦ ?_ }
  · have hj : (w.calls.map (Call.markStale cut))[j]? = some k := hj
    rw [List.getElem?_map] at hj
    obtain ⟨k₀, hk₀, rfl⟩ := Option.map_eq_some_iff.1 hj
    rw [at_markStale]
    exact h.calls j k₀ hk₀
  · refine (h.open_ j conn hj hopen).imp_right fun ⟨k₀, hmem, hheld⟩ ↦ ?_
    refine ⟨_, List.mem_map_of_mem hmem, ?_⟩
    rwa [at_markStale]

/-- `forget` or `disconnect` returns, with nothing left to close. -/
theorem Ok.returned (h : Ok w) {cut : Cut π σ} {failed : Option ((π × σ) × ℕ)}
    (hk : w.calls[i]? = some k) (hat : k.at_ = .closing cut failed []) :
    Ok (w.returned i k cut failed) := by
  have hk' : (w.calls.map (Call.markStale cut))[i]? = some (k.markStale cut) := by
    rw [List.getElem?_map, hk]
    rfl
  have hnothing : ∀ c, (k.markStale cut).at_.holds = some c ∨ c ∈ (k.markStale cut).at_.gone →
      False := by
    intro c hc
    rw [at_markStale, hat] at hc
    rcases hc with hc | hc <;> cases hc
  refine (h.markStale cut).setCall hk' ?_ fun c hc ↦ (hnothing c hc).elim
  split <;> exact atOk_of_free rfl rfl

omit [DecidableEq π] [DecidableEq σ] in
/-- **The next connection is closed.** -/
theorem Ok.closeNext (h : Ok w) {cut : Cut π σ} {failed : Option ((π × σ) × ℕ)} {g : ℕ}
    {gone : List ℕ} (hk : w.calls[i]? = some k) (hat : k.at_ = .closing cut failed (g :: gone)) :
    Ok (w.closeNext i k cut failed g gone) := by
  have hok := h.calls i k hk
  have hset : Ok ((w.shut g).setCall i { k with at_ := .closing cut failed gone }) := by
    refine (h.shut g).setCall hk ⟨nofun, nofun, fun cut' f gone' heq c hc ↦ ?_⟩ fun c hc hopen ↦ ?_
    · obtain ⟨rfl, rfl, rfl⟩ := CallAt.closing.inj heq
      have hlater : ∀ conn : Conn π σ, Later conn { conn with closed := true } :=
        fun _ ↦ ⟨rfl, rfl, rfl, fun _ ↦ rfl⟩
      exact (hok.later (later_modify hlater)).closing cut f (g :: gone) hat c
        (List.mem_cons_of_mem _ hc)
    · rw [hat] at hc
      rcases hc with hc | hc
      · cases hc
      · refine .inr ((List.mem_cons.1 hc).resolve_left ?_)
        -- What was just closed is not open.
        rintro rfl
        exact absurd ((isOpen_shut c).symm.trans hopen) Bool.false_ne_true
  refine { hset with retried := fun r hr ↦ ?_ }
  rcases List.mem_append.1 hr with hold | hnew
  · exact h.retried r hold
  · obtain ⟨f, hf, rfl⟩ := List.mem_map.1 hnew
    obtain ⟨hfailed, hopen⟩ := List.mem_filter.1 hf
    obtain rfl : failed = some f := by simpa using hfailed
    rcases hok.closing cut f (g :: gone) hat g List.mem_cons_self with heq | ⟨conn, hconn, hclosed⟩
    · exact heq
    · simp [isOpen, hconn, hclosed] at hopen

/-- **The task of a connection** that is closed takes out its own entry only. -/
theorem Ok.watch (h : Ok w) {conn : Conn π σ} (hconn : w.dialed[c]? = some conn)
    (hclosed : conn.closed = true) : Ok (w.watch c conn) := by
  have hmodify : Ok { w with
      dialed := w.dialed.modify c fun conn ↦ { conn with watched := false } } :=
    h.modify (fun _ ↦ ⟨rfl, rfl, rfl, fun h ↦ h⟩) fun conn' hconn' hst ↦ h.stale c conn' hconn' hst
  unfold Dialer.watch
  split
  case isFalse => exact hmodify
  case isTrue hown =>
    cases hget : w.get conn.key with
    | none => simp [hget] at hown
    | some e =>
      have hid : conn.id = some e.1 := by
        rw [hget] at hown
        exact of_decide_eq_true (Bool.and_eq_true_iff.1 hown).2
      refine { hmodify with
        keys := (List.filter_sublist.map _).nodup h.keys
        entries := fun e he ↦ hmodify.entries e (List.mem_filter.1 he).1
        open_ := fun j conn' hj hopen ↦ ?_ }
      refine (hmodify.open_ j conn' hj hopen).imp_left fun ⟨id, hcached⟩ ↦ ⟨id, ?_⟩
      refine List.mem_filter.2 ⟨hcached, decide_eq_true fun hkey ↦ ?_⟩
      -- The entry of the key is that of a connection with the same number, which is closed.
      have hkey : conn'.key = conn.key := hkey
      have hcached : (conn'.key, id, j) ∈ w.conns := hcached
      obtain ⟨conn₀, hconn₀, heq⟩ := getElem?_modify_eq_some.1 hj
      have hsame : some e = some (id, j) := by
        rw [← hget, (get_eq_some h).2 (hkey ▸ hcached)]
      obtain rfl := Option.some.inj hsame
      obtain ⟨conn₁, hconn₁, -, hid₁⟩ := h.entries _ hcached
      obtain rfl := h.ids j c conn₁ conn id hconn₁ hconn hid₁ hid
      obtain rfl := Option.some.inj (hconn.symm.trans hconn₀)
      rw [if_pos rfl] at heq
      rw [heq] at hopen
      exact absurd (hopen.symm.trans hclosed) Bool.false_ne_true

/-- The last clone goes, with no call in progress: what is cached is closed. -/
theorem Ok.drop (h : Ok w) (hidle : w.Idle) : Ok (w.step .drop) := by
  have hlater : ∀ {j : ℕ} {conn : Conn π σ}, (w.dialed.mapIdx fun c conn ↦
      if c ∈ w.conns.map fun e ↦ e.2.2 then { conn with closed := true } else conn)[j]? =
        some conn → ∃ conn₀, w.dialed[j]? = some conn₀ ∧ conn =
          if j ∈ w.conns.map fun e ↦ e.2.2 then { conn₀ with closed := true } else conn₀ := by
    intro j conn hj
    rw [List.getElem?_mapIdx, Option.map_eq_some_iff] at hj
    obtain ⟨conn₀, hconn₀, heq⟩ := hj
    exact ⟨conn₀, hconn₀, heq.symm⟩
  have hid : ∀ {j : ℕ} {conn₀ : Conn π σ}, (if j ∈ w.conns.map fun e ↦ e.2.2 then
      { conn₀ with closed := true } else conn₀).id = conn₀.id := by
    intro j conn₀
    split <;> rfl
  rw [step, if_pos hidle]
  refine { h with
    keys := List.nodup_nil
    entries := nofun
    fresh := fun j conn id hj hid' ↦ ?_
    ids := fun j j' conn conn' id hj hj' hid₁ hid₂ ↦ ?_
    calls := fun j k hj ↦ ?_
    open_ := fun j conn hj hopen ↦ ?_
    stale := fun j conn hj hstale ↦ ?_ }
  · obtain ⟨conn₀, hconn₀, rfl⟩ := hlater hj
    exact h.fresh j conn₀ id hconn₀ (hid.symm.trans hid')
  · obtain ⟨conn₀, hconn₀, rfl⟩ := hlater hj
    obtain ⟨conn₀', hconn₀', rfl⟩ := hlater hj'
    exact h.ids j j' conn₀ conn₀' id hconn₀ hconn₀' (hid.symm.trans hid₁) (hid.symm.trans hid₂)
  · have hdone := hidle k (List.mem_of_getElem? hj)
    rw [hdone]
    exact atOk_of_free rfl rfl
  · obtain ⟨conn₀, hconn₀, rfl⟩ := hlater hj
    split at hopen
    · cases hopen
    case isFalse hnot =>
      rcases h.open_ j conn₀ hconn₀ hopen with ⟨id, hmem⟩ | ⟨k, hk, hheld⟩
      · exact absurd (List.mem_map.2 ⟨_, hmem, rfl⟩) hnot
      · rw [hidle k hk] at hheld
        rcases hheld with hheld | hheld <;> cases hheld
  · obtain ⟨conn₀, hconn₀, rfl⟩ := hlater hj
    by_cases hmem : j ∈ w.conns.map fun e ↦ e.2.2
    · rw [if_pos hmem]
    · rw [if_neg hmem] at hstale ⊢
      exact h.stale j conn₀ hconn₀ hstale

/-- **The next step of a call.** -/
theorem Ok.next (h : Ok w) (hk : w.calls[i]? = some k) (hcareful : w.CarefulAt k.stale k.at_)
    (ok : Bool) : Ok (w.next i k ok) := by
  unfold Dialer.next
  split
  case h_1 key hat =>
    unfold Dialer.lookUp
    split
    · obtain ⟨hholds, hgone⟩ := arrive_free k key _
      exact h.free hk (by rw [hat]; rfl) (by rw [hat]; rfl) hholds hgone
    · exact h.free hk (by rw [hat]; rfl) (by rw [hat]; rfl) rfl rfl
  case h_2 key hat =>
    split
    · exact h.connected hk hat
    · exact h.free hk (by rw [hat]; rfl) (by rw [hat]; rfl) rfl rfl
  case h_3 key c hat => exact h.number hk hat
  case h_4 key c id hat => exact h.insert hk hat hcareful
  case h_5 key c hat =>
    split <;> exact h.free hk (by rw [hat]; rfl) (by rw [hat]; rfl) rfl rfl
  case h_6 cut failed hat => exact h.cut hk hat hcareful
  case h_7 cut failed hat => exact h.returned hk hat
  case h_8 cut failed g gone hat => exact h.closeNext hk hat
  case h_9 => exact h

omit [DecidableEq π] [DecidableEq σ] in
/-- A call begins. -/
theorem Ok.begin (h : Ok w) (goal : DialFor) {at_ : CallAt π σ} (hholds : at_.holds = none)
    (hgone : at_.gone = []) : Ok (w.begin goal at_) := by
  unfold Dialer.begin
  split
  · exact h
  · refine { h with calls := fun j k hj ↦ ?_, open_ := fun j conn hj hopen ↦ ?_ }
    · have hj : (w.calls ++ [⟨goal, at_, false⟩])[j]? = some k := hj
      rcases Nat.lt_or_ge j w.calls.length with hlt | hge
      · rw [List.getElem?_append_left hlt] at hj
        exact h.calls j k hj
      · rw [List.getElem?_append_right hge] at hj
        obtain rfl := List.mem_singleton.1 (List.mem_of_getElem? hj)
        exact atOk_of_free hholds hgone
    · exact (h.open_ j conn hj hopen).imp_right fun ⟨k, hk, hheld⟩ ↦
        ⟨k, List.mem_append_left _ hk, hheld⟩

/-- **One step** that does no harm. -/
theorem ok_step (h : Ok w) {l : DialerLabel π σ} (hcareful : w.Careful l) : Ok (w.step l) := by
  cases l with
  | connection | forget | disconnect => exact h.begin .connection rfl rfl
  | openBi key => exact h.begin .stream rfl rfl
  | next i ok =>
    simp only [step]
    split
    case h_1 k hk => exact h.next hk (hcareful k hk) ok
    · exact h
  | ended c => exact h.shut c
  | watch c =>
    simp only [step]
    split
    case h_1 conn hconn =>
      split
      case isTrue hended => exact h.watch hconn hended.2
      · exact h
    · exact h
  | drop =>
    by_cases hidle : w.Idle
    · exact h.drop hidle
    · rw [step, if_neg hidle]
      exact h

/-- **What holds in careful runs is what the cache is for.** -/
theorem Ok.clean (h : Ok w) : Clean w := by
  have hcached : w.Idle → ∀ c conn, w.dialed[c]? = some conn → conn.closed = false →
      ∃ id, w.get conn.key = some (id, c) := by
    intro hidle c conn hc hopen
    rcases h.open_ c conn hc hopen with ⟨id, hmem⟩ | ⟨k, hk, hheld⟩
    · exact ⟨id, (get_eq_some h).2 hmem⟩
    · rw [hidle k hk] at hheld
      rcases hheld with hheld | hheld <;> cases hheld
  refine ⟨hcached, fun hidle c c' conn conn' hc hc' hopen hopen' hkey ↦ ?_,
    fun c conn hc hstale hopen ↦ ?_, h.retried⟩
  · obtain ⟨id, hget⟩ := hcached hidle c conn hc hopen
    obtain ⟨id', hget'⟩ := hcached hidle c' conn' hc' hopen'
    rw [hkey, hget'] at hget
    exact (congrArg Prod.snd (Option.some.inj hget)).symm
  · exact absurd (hopen.symm.trans (h.stale c conn hc hstale)) Bool.false_ne_true

/-- The runs of the system. -/
def system : StepSystem (Dialer π σ) (DialerLabel π σ) := .ofFun new step

/-- **What is open is what is cached.** In every run of the system whose steps are careful. -/
theorem clean_of_reachable {w : Dialer π σ} (hw : (system.restrict Careful).Reachable w) :
    Clean w := by
  refine (hw.invariant (I := Ok) (fun s hs ↦ ?_) fun s l t _ hs hstep ↦ ?_).clean
  · obtain rfl := hs
    exact ok_new
  · obtain ⟨hcareful, rfl⟩ := hstep
    exact ok_step hs hcareful

/-- The steps of a call that finds nothing: it dials, has a number, and makes its entry. -/
def dial (i : ℕ) : List (DialerLabel String String) :=
  [.next i false, .next i true, .next i false, .next i false]

/-- The steps of a forget that closes one connection. -/
def cutOne (i : ℕ) : List (DialerLabel String String) :=
  [.next i false, .next i false, .next i false]

/-- A stream cannot be opened; what was cached is closed, and the peer dialed once more. -/
def retrying : List (DialerLabel String String) :=
  .openBi ("peer", "http") :: dial 0 ++ .next 0 false :: cutOne 0 ++ dial 0 ++ [.next 0 true]

/-- After a retry the new connection is the one that is open, and cached. -/
theorem clean_retrying : Idle (new.run retrying) ∧
    ((new.run retrying).dialed.map fun conn ↦ conn.closed) = [true, false] ∧
    (new.run retrying).retried = [(0, 0)] ∧ Clean (new.run retrying) := by
  have hstart : (system.restrict Careful).Reachable (new : Dialer String String) := .start rfl
  have hreach : (system.restrict Careful).Reachable (new.run retrying) :=
    StepSystem.Reachable.foldl_of_allMeet (fun _ _ ↦ rfl) hstart (by decide +kernel)
  exact ⟨by decide +kernel, by decide +kernel, by decide +kernel, clean_of_reachable hreach⟩

/-- Two calls find nothing and dial; both make their entries. -/
def twoDials : List (DialerLabel String String) :=
  [.connection ("peer", "http"), .connection ("peer", "http"), .next 0 false] ++ dial 1 ++
    [.next 0 true, .next 0 false, .next 0 false]

/-- The peer is disconnected while a call dials. -/
def disconnected : List (DialerLabel String String) :=
  [.connection ("peer", "http"), .next 0 false, .disconnect "peer", .next 1 false, .next 1 false,
    .next 0 true, .next 0 false, .next 0 false]

/-- Two streams cannot be opened on the cached connection; the first call has dialed again before
the second forgets. -/
def twoRetries : List (DialerLabel String String) :=
  .openBi ("peer", "http") :: dial 0 ++ [.openBi ("peer", "http"), .next 1 false, .next 0 false,
    .next 1 false] ++ cutOne 0 ++ dial 0 ++ [.next 1 false, .next 1 false]

/-- **Connections that nobody can close, and one that somebody else needs.** Of two that were dialed
at once the first is open and not cached; one that was dialed while its peer was disconnected is
cached; and a retry closes the connection that another has just dialed. -/
theorem not_clean : ¬ Clean (new.run twoDials) ∧ ¬ Clean (new.run disconnected) ∧
    ¬ Clean (new.run twoRetries) := by
  have htwo : Idle (new.run twoDials) ∧ (new.run twoDials).dialed.map (fun conn : Conn String String ↦
      (conn.key, conn.closed)) = [(("peer", "http"), false), (("peer", "http"), false)] := by
    decide +kernel
  have hdisconnected : ∃ conn : Conn String String,
      (new.run disconnected).dialed[0]? = some conn ∧ conn.stale = true ∧
      conn.closed = false ∧ (new.run disconnected).get conn.key = some (0, 0) :=
    ⟨⟨("peer", "http"), false, some 0, true, true, 0⟩, by decide +kernel⟩
  have hretries : (0, 1) ∈ (new.run twoRetries).retried := by decide +kernel
  refine ⟨fun h ↦ ?_, fun h ↦ ?_, fun h ↦ absurd (h.retry _ hretries) nofun⟩
  · obtain ⟨hidle, hdialed⟩ := htwo
    have hget : ∀ c : ℕ, ((new.run twoDials).dialed[c]?.map fun conn : Conn String String ↦
        (conn.key, conn.closed)) =
        [(("peer", "http"), false), (("peer", "http"), false)][c]? := by
      intro c
      rw [← hdialed, List.getElem?_map]
    obtain ⟨conn, hconn, heq⟩ := Option.map_eq_some_iff.1 (hget 0)
    obtain ⟨conn', hconn', heq'⟩ := Option.map_eq_some_iff.1 (hget 1)
    obtain ⟨hkey, hopen⟩ := Prod.mk.inj heq
    obtain ⟨hkey', hopen'⟩ := Prod.mk.inj heq'
    exact absurd (h.single hidle 0 1 conn conn' hconn hconn' hopen hopen' (hkey.trans hkey'.symm))
      nofun
  · obtain ⟨conn, hconn, hstale, hopen, hget⟩ := hdisconnected
    exact h.stale 0 conn hconn hstale hopen 0 hget

end Dialer

end Ember.Transport
