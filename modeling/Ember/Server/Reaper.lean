import Ember.Foundation.Runs
import Ember.Server.Store
import Mathlib.Logic.Function.Basic

/-!
# Releasing idle agents

`Sessions::touch`, `lease`, `ensure_live`, `send`, `reap_idle` and `release` of
`server/src/session.rs`. A reap reads of one session after the other whether it is leased, whether
it is quiet and what its stored status is, and then takes its run out of the live ones and shuts it
down. Each of these is a lock or a call of the store of its own, and a send takes none of them for
longer: it touches the session, looks its run up (or starts it, with the lock on the live runs
held), hands its message over to be stored, and asks the agent.

A `Label` is one such step. What agents do, how long anything takes and which turns the end of a
turn is the end of are up to the labels; a clock only goes forward.

## What is proved

* `spared_of_reachable` — in every run of the system whose steps are `Timely`, no reap takes away or
  shuts down a run while a send that has it is not yet done with its turn, and none takes away the
  run of a session that has a lease.
* `not_spared` — a send, or a lease, that comes between the last read and the release.
-/

namespace Ember.Server.Reaper

/-- How far a send is. -/
inductive SendAt
  /-- It has touched the session. -/
  | touched
  /-- It starts an agent, with the lock on the live runs held. -/
  | starting
  /-- It has a run. -/
  | found
  /-- Its message is with whoever stores it. -/
  | posted
  /-- It asks the agent, with the run's lock held. -/
  | asking
  /-- The agent has its message. -/
  | asked
  | failed
  deriving DecidableEq

/-- A call of `Sessions::send`. -/
structure Send where
  session : String
  text : String
  at_ : SendAt
  /-- The generation of its run. -/
  run : ℕ
  /-- The message was handed over, and is still to be stored. -/
  queued : Bool
  /-- The message is stored. -/
  stored : Bool
  /-- The turn that it began has ended. -/
  ended : Bool
  deriving DecidableEq

/-- The send has its run, and its turn has not ended. -/
def Send.isOpen (s : Send) : Bool :=
  match s.at_ with
  | .found | .posted | .asking | .asked => !s.ended
  | _ => false

/-- How far a call of `reap_idle` is. -/
inductive ReapAt
  | listing
  /-- The sessions still to look at. -/
  | judging (todo : List String)
  | leased (id : String) (leased : Bool) (todo : List String)
  | quiet (id : String) (leased quiet : Bool) (todo : List String)
  | releasing (id : String) (todo : List String)
  | stopping (id : String) (run : ℕ) (todo : List String)
  | done
  deriving DecidableEq

/-- A call of `reap_idle`. -/
structure Reap where
  idle : ℕ
  now : ℕ
  at_ : ReapAt
  released : List String
  deriving DecidableEq

/-- The session that the reap releases unless its stored status says that it is mid-turn. -/
def Reap.deciding (r : Reap) : Option String :=
  match r.at_ with
  | .quiet id false true _ => some id
  | _ => none

/-- The session whose run the reap is about to take away. -/
def Reap.releasing (r : Reap) : Option String :=
  match r.at_ with
  | .releasing id _ => some id
  | _ => none

/-- What a reap met when it took a run away, or shut it down. -/
structure Met where
  session : String
  run : ℕ
  /-- A send had the run, and its turn had not ended. -/
  open_ : Bool
  /-- The run was taken away although the session had a lease. -/
  leased : Bool
  deriving DecidableEq

/-- `Sessions`, with the calls under way. -/
structure Sessions where
  clock : ℕ
  store : Store
  /-- The session of a live run and its generation. -/
  live : List (String × ℕ)
  nextRun : ℕ
  lastActive : String → Option ℕ
  leases : String → Option ℕ
  sends : List Send
  reaps : List Reap
  /-- Stored events whose session is still to be touched. -/
  untouched : List String
  /-- All leases that were taken, and until when. -/
  taken : List (String × ℕ)
  met : List Met

/-- One step. -/
inductive Label
  | tick (n : ℕ)
  /-- A send touches the session. -/
  | send (session text : String)
  /-- It looks for the run, or begins to start one. -/
  | lookUp (i : ℕ)
  /-- The agent has started, or could not be. -/
  | started (i : ℕ) (ok : Bool)
  /-- The message is handed over, or its run has exited. -/
  | post (i : ℕ) (ok : Bool)
  | storeMessage (i now : ℕ)
  | ask (i : ℕ)
  | asked (i : ℕ) (ok : Bool)
  /-- Another event is stored; the end of a turn is that of the turns of these sends. -/
  | record (session : String) (now : ℕ) (event : AgentEvent) (ends : List ℕ)
  | touch (k : ℕ)
  | lease (session : String) (ttl : ℕ)
  /-- A run's events have ended. -/
  | exited (session : String) (run : ℕ)
  /-- Somebody makes or changes a session. -/
  | administer (op : StoreOp)
  | reap (idle : ℕ)
  | reapStep (j : ℕ)

variable {id : String} {event : AgentEvent} {now : ℕ} {ends : List ℕ} {todo : List String}

namespace Sessions

/-- No session is live. -/
def new (clock : ℕ) : Sessions :=
  ⟨clock, .empty, [], 0, fun _ ↦ none, fun _ ↦ none, [], [], [], [], []⟩

variable (w : Sessions)

/-- The session is mid-turn, as far as its stored status says. -/
def busy (id : String) : Bool := (w.store.session id).any fun r ↦ isBusy r.status

/-- Somebody starts an agent, and holds the lock on the live runs. -/
def locked : Bool := w.sends.any fun s ↦ s.at_ = .starting

/-- The generation of a session's run. -/
def runOf (id : String) : Option ℕ := (w.live.find? fun l ↦ l.1 = id).map Prod.snd

def setSend (i : ℕ) (s : Send) : Sessions := { w with sends := w.sends.set i s }

def setReap (j : ℕ) (r : Reap) : Sessions := { w with reaps := w.reaps.set j r }

/-- `Sessions::touch`. -/
def touch (id : String) : Sessions :=
  { w with lastActive := Function.update w.lastActive id (some w.clock) }

/-! ### Sending -/

/-- `ensure_live`, first lock. -/
def lookUp (i : ℕ) (s : Send) : Sessions :=
  match w.runOf s.session with
  | some run => w.setSend i { s with at_ := .found, run }
  | none =>
    w.setSend i { s with at_ := if (w.store.session s.session).isSome then .starting else .failed }

/-- The agent has started, or could not be; the lock is given back. -/
def started (i : ℕ) (s : Send) (ok : Bool) : Sessions :=
  if ok then
    { w with live := w.live ++ [(s.session, w.nextRun)], nextRun := w.nextRun + 1 }.setSend i
      { s with at_ := .found, run := w.nextRun }
  else w.setSend i { s with at_ := .failed }

/-- An event is stored; its session is still to be touched. -/
def append (id : String) (now : ℕ) (event : AgentEvent) : Option Sessions :=
  (w.store.append id now event).map fun r ↦
    { w with store := r.1, untouched := w.untouched ++ [id] }

/-- The message of a send is stored. -/
def storeMessage (i : ℕ) (s : Send) (now : ℕ) : Sessions :=
  match w.append s.session now (.userMessage s.text) with
  | some w' => w'.setSend i { s with queued := false, stored := true }
  | none => w.setSend i { s with queued := false }

/-- The end of a turn ends the turns of these sends, as far as their messages are stored. -/
def endTurns (id : String) (ends : List ℕ) : Sessions :=
  { w with
    sends := w.sends.mapIdx fun i s ↦
      if s.session = id ∧ s.stored ∧ i ∈ ends then { s with ended := true } else s }

/-- An event ends a turn. -/
def isTurnEnd : AgentEvent → Bool
  | .turnEnded _ => true
  | _ => false

/-- Another event is stored. -/
def record (id : String) (now : ℕ) (event : AgentEvent) (ends : List ℕ) : Sessions :=
  match w.append id now event with
  | some w' => if isTurnEnd event then w'.endTurns id ends else w'
  | none => w

/-- `Sessions::lease`. -/
def lease (id : String) (ttl : ℕ) : Sessions :=
  if (w.store.session id).isSome then
    { w with
      leases := Function.update w.leases id (some (w.clock + ttl))
      taken := w.taken ++ [(id, w.clock + ttl)] }
  else w

/-! ### Reaping -/

/-- A send has the run, and its turn has not ended. -/
def hasOpen (run : ℕ) : Bool := w.sends.any fun s ↦ s.isOpen && decide (s.run = run)

/-- A lease of the session that was taken has not expired. -/
def hasLease (id : String) : Bool := w.taken.any fun l ↦ l.1 = id ∧ w.clock < l.2

/-- A reap takes a run away, or shuts it down. -/
def meet (m : Met) : Sessions := { w with met := w.met ++ [m] }

/-- The next step of `reap_idle`. -/
def reapNext (j : ℕ) (r : Reap) : Sessions :=
  match r.at_ with
  | .listing =>
    if w.locked then w else w.setReap j { r with at_ := .judging (w.live.map Prod.fst) }
  | .judging [] =>
    { w with leases := fun id ↦ (w.leases id).filter fun until_ ↦ r.now < until_ }.setReap j
      { r with at_ := .done }
  | .judging (id :: todo) =>
    w.setReap j { r with
      at_ := .leased id ((w.leases id).any fun until_ ↦ r.now < until_) todo }
  | .leased id leased todo =>
    w.setReap j { r with
      at_ := .quiet id leased ((w.lastActive id).all fun at_ ↦ r.idle ≤ r.now - at_) todo }
  | .quiet id leased quiet todo =>
    if leased || !quiet || w.busy id then w.setReap j { r with at_ := .judging todo }
    else w.setReap j { r with at_ := .releasing id todo }
  | .releasing id todo =>
    if w.locked then w
    else
      match w.runOf id with
      | none => w.setReap j { r with at_ := .judging todo, released := r.released ++ [id] }
      | some run =>
        ({ w with live := w.live.filter fun l ↦ l.1 ≠ id }.meet
          ⟨id, run, w.hasOpen run, w.hasLease id⟩).setReap j { r with at_ := .stopping id run todo }
  | .stopping id run todo =>
    if w.sends.any fun s ↦ s.at_ = .asking ∧ s.run = run then w
    else
      (w.meet ⟨id, run, w.hasOpen run, false⟩).setReap j
        { r with at_ := .judging todo, released := r.released ++ [id] }
  | .done => w

/-- One step. -/
def step (w : Sessions) : Label → Sessions
  | .tick n => { w with clock := w.clock + n }
  | .send session text =>
    { w.touch session with sends := w.sends ++ [⟨session, text, .touched, 0, false, false, false⟩] }
  | .lookUp i =>
    match w.sends[i]? with
    | some s => if s.at_ = .touched ∧ !w.locked then w.lookUp i s else w
    | none => w
  | .started i ok =>
    match w.sends[i]? with
    | some s => if s.at_ = .starting then w.started i s ok else w
    | none => w
  | .post i ok =>
    match w.sends[i]? with
    | some s =>
      if s.at_ = .found then
        w.setSend i (if ok then { s with at_ := .posted, queued := true }
          else { s with at_ := .failed })
      else w
    | none => w
  | .storeMessage i now =>
    match w.sends[i]? with
    | some s => if s.queued then w.storeMessage i s now else w
    | none => w
  | .ask i =>
    match w.sends[i]? with
    | some s =>
      if s.at_ = .posted ∧ ¬ (w.sends.any fun k ↦ k.at_ = .asking ∧ k.run = s.run) then
        w.setSend i { s with at_ := .asking }
      else w
    | none => w
  | .asked i ok =>
    match w.sends[i]? with
    | some s =>
      if s.at_ = .asking then w.setSend i { s with at_ := if ok then .asked else .failed } else w
    | none => w
  | .record session now event ends => w.record session now event ends
  | .touch k =>
    match w.untouched[k]? with
    | some id => { w.touch id with untouched := w.untouched.eraseIdx k }
    | none => w
  | .lease session ttl => w.lease session ttl
  | .exited session run =>
    if w.locked then w else { w with live := w.live.filter fun l ↦ l ≠ (session, run) }
  | .administer op =>
    match op with
    | .append .. => w
    | op => { w with store := w.store.step op }
  | .reap idle => { w with reaps := w.reaps ++ [⟨idle, w.clock, .listing, []⟩] }
  | .reapStep j =>
    match w.reaps[j]? with
    | some r => w.reapNext j r
    | none => w

/-- The state after these steps. -/
def run (w : Sessions) (ls : List Label) : Sessions := ls.foldl step w

/-- No reap took away or shut down a run that a send had, before the end of its turn, or took away
the run of a session with a lease. -/
def Spared (w : Sessions) : Prop := ∀ m ∈ w.met, m.open_ = false ∧ m.leased = false

instance : Decidable w.Spared := List.decidableBAll _ _

/-- A send of the session has its run, and its message is not stored. -/
def Unstored (id : String) : Prop :=
  ∃ s ∈ w.sends, s.session = id ∧ s.isOpen = true ∧ s.stored = false

instance (id : String) : Decidable (w.Unstored id) := List.decidableBEx _ _

/-- A reap is about to take away the run of the session. -/
def Releasing (id : String) : Prop := ∃ r ∈ w.reaps, r.releasing = some id

instance (id : String) : Decidable (w.Releasing id) := List.decidableBEx _ _

/-- The steps that do no harm.

* When a reap decides to release a session, no send of it is between its run and the storing of its
  message, and no lease of it has still to expire.
* From then until it takes the run away, no send gets a run of the session and no lease is taken.
* A lease does not replace one that lasts longer.
* The end of a turn ends the turns of all sends whose messages are stored. -/
def Timely : Label → Prop
  | .lookUp i => ∀ s ∈ w.sends[i]?, ¬ w.Releasing s.session
  | .started i _ => ∀ s ∈ w.sends[i]?, ¬ w.Releasing s.session
  | .lease id ttl => ¬ w.Releasing id ∧ ∀ until_ ∈ w.leases id, until_ ≤ w.clock + ttl
  | .record id _ event ends => isTurnEnd event = true → ∀ i ∈ List.range w.sends.length,
      ∀ s ∈ w.sends[i]?, s.session = id ∧ s.isOpen = true ∧ s.stored = true → i ∈ ends
  | .reapStep j => ∀ r ∈ w.reaps[j]?, ∀ id ∈ r.deciding, w.busy id = false →
      ¬ w.Unstored id ∧ ∀ until_ ∈ w.leases id, until_ ≤ w.clock
  | _ => True

instance : ∀ l, Decidable (w.Timely l)
  | .lookUp i | .started i _ =>
    inferInstanceAs (Decidable (∀ s ∈ w.sends[i]?, ¬ w.Releasing s.session))
  | .lease id ttl =>
    inferInstanceAs (Decidable (¬ w.Releasing id ∧ ∀ until_ ∈ w.leases id, until_ ≤ w.clock + ttl))
  | .record id _ event ends =>
    inferInstanceAs (Decidable (isTurnEnd event = true → ∀ i ∈ List.range w.sends.length,
      ∀ s ∈ w.sends[i]?, s.session = id ∧ s.isOpen = true ∧ s.stored = true → i ∈ ends))
  | .reapStep j =>
    inferInstanceAs (Decidable (∀ r ∈ w.reaps[j]?, ∀ id ∈ r.deciding, w.busy id = false →
      ¬ w.Unstored id ∧ ∀ until_ ∈ w.leases id, until_ ≤ w.clock))
  | .tick _ | .send _ _ | .post _ _ | .storeMessage _ _ | .ask _ | .asked _ _ | .touch _
  | .exited _ _ | .administer _ | .reap _ => isTrue trivial

/-! ### What holds in timely runs -/

/-- What holds of a send. -/
structure SendOk (w : Sessions) (s : Send) : Prop where
  unposted : s.at_ = .touched ∨ s.at_ = .starting ∨ s.at_ = .found →
    s.stored = false ∧ s.queued = false
  /-- Its turn is known to the store. -/
  busy : s.isOpen = true → s.stored = true → w.busy s.session = true
  run : s.isOpen = true → s.run < w.nextRun ∧ ∀ l ∈ w.live, l.2 = s.run → l.1 = s.session

/-- What holds of a reap. -/
structure ReapOk (w : Sessions) (r : Reap) : Prop where
  now : r.now ≤ w.clock
  releasing : ∀ id todo, r.at_ = .releasing id todo →
    (∀ s ∈ w.sends, s.isOpen = true → s.session ≠ id) ∧ ∀ l ∈ w.taken, l.1 = id → l.2 ≤ w.clock
  stopping : ∀ id run todo, r.at_ = .stopping id run todo → run < w.nextRun ∧
    (∀ s ∈ w.sends, s.isOpen = true → s.run ≠ run) ∧ ∀ l ∈ w.live, l.2 ≠ run

/-- What holds in every state of a timely run. -/
structure Ok (w : Sessions) : Prop where
  sends : ∀ s ∈ w.sends, SendOk w s
  reaps : ∀ r ∈ w.reaps, ReapOk w r
  live : ∀ l ∈ w.live, l.2 < w.nextRun
  unique : (w.live.map Prod.snd).Nodup
  /-- A lease that has not expired is not forgotten. -/
  leases : ∀ l ∈ w.taken, l.2 ≤ w.clock ∨ ∃ until_, w.leases l.1 = some until_ ∧ l.2 ≤ until_
  spared : w.Spared

variable {w} {w' : Sessions} {s s' : Send} {r : Reap} {i j : ℕ}

theorem ok_new (clock : ℕ) : Ok (new clock) :=
  ⟨nofun, nofun, nofun, List.nodup_nil, nofun, nofun⟩

theorem Ok.mem (h : Ok w) (hs : w.sends[i]? = some s) : SendOk w s :=
  h.sends s (List.mem_of_getElem? hs)

/-- **A change of one send**: what it is now fits in. -/
theorem Ok.setSend (h : Ok w) (hs : SendOk w s')
    (hreleasing : s'.isOpen = true → ¬ w.Releasing s'.session)
    (hstopping : s'.isOpen = true → ∀ r ∈ w.reaps, ∀ id run todo, r.at_ = .stopping id run todo →
      s'.run ≠ run) : Ok (w.setSend i s') := by
  have hmem : ∀ {t}, t ∈ w.sends.set i s' → t ∈ w.sends ∨ t = s' := List.mem_or_eq_of_mem_set
  refine { h with sends := fun t ht ↦ ?_, reaps := fun r hr ↦ ?_ }
  · obtain hold | rfl := hmem ht
    · exact ⟨(h.sends t hold).unposted, (h.sends t hold).busy, (h.sends t hold).run⟩
    · exact ⟨hs.unposted, hs.busy, hs.run⟩
  · have hreap := h.reaps r hr
    refine ⟨hreap.now, fun id todo hat ↦ ⟨fun t ht hopen ↦ ?_, (hreap.releasing id todo hat).2⟩,
      fun id run todo hat ↦ ⟨(hreap.stopping id run todo hat).1, fun t ht hopen ↦ ?_,
        (hreap.stopping id run todo hat).2.2⟩⟩
    · obtain hold | rfl := hmem ht
      · exact (hreap.releasing id todo hat).1 t hold hopen
      · rintro rfl
        exact hreleasing hopen ⟨r, hr, by rw [Reap.releasing, hat]⟩
    · obtain hold | rfl := hmem ht
      · exact (hreap.stopping id run todo hat).2.1 t hold hopen
      · exact hstopping hopen r hr id run todo hat

/-- A send goes on with the run it has, or is over. -/
theorem Ok.advance (h : Ok w) (hs : w.sends[i]? = some s) (hsession : s'.session = s.session)
    (hrun : s'.run = s.run) (hopen : s'.isOpen = true → s.isOpen = true)
    (hok : SendOk w s') : Ok (w.setSend i s') := by
  have hmem := List.mem_of_getElem? hs
  refine h.setSend hok (fun hopen' ⟨r, hr, hreleasing⟩ ↦ ?_) fun hopen' r hr id run todo hat ↦ ?_
  · unfold Reap.releasing at hreleasing
    split at hreleasing
    case h_1 id todo hat =>
      obtain rfl := Option.some.inj hreleasing
      exact ((h.reaps r hr).releasing _ todo hat).1 s hmem (hopen hopen') hsession.symm
    · cases hreleasing
  · rw [hrun]
    exact ((h.reaps r hr).stopping id run todo hat).2.1 s hmem (hopen hopen')

/-- What holds of a send goes on to hold while it goes on. -/
theorem SendOk.advance (hok : SendOk w s) (hsession : s'.session = s.session)
    (hrun : s'.run = s.run) (hstored : s'.stored = s.stored)
    (hopen : s'.isOpen = true → s.isOpen = true)
    (hat : s'.at_ ≠ .touched ∧ s'.at_ ≠ .starting ∧ s'.at_ ≠ .found) : SendOk w s' where
  unposted hor := by
    rcases hor with heq | heq | heq
    · exact absurd heq hat.1
    · exact absurd heq hat.2.1
    · exact absurd heq hat.2.2
  busy hopen' hst := hsession ▸ hok.busy (hopen hopen') (hstored ▸ hst)
  run hopen' := by
    rw [hrun, hsession]
    exact hok.run (hopen hopen')

theorem mem_live_of_runOf {run : ℕ} (h : w.runOf id = some run) :
    (id, run) ∈ w.live := by
  obtain ⟨l, hl, rfl⟩ := Option.map_eq_some_iff.1 h
  have hid : l.1 = id := of_decide_eq_true (List.find?_some (p := fun l : String × ℕ ↦ l.1 = id) hl)
  exact hid ▸ List.mem_of_find?_eq_some hl

/-- A generation is that of one session. -/
theorem Ok.eq_of_run (h : Ok w) {l l' : String × ℕ} (hl : l ∈ w.live) (hl' : l' ∈ w.live)
    (hrun : l.2 = l'.2) : l = l' := List.inj_on_of_nodup_map h.unique hl hl' hrun

theorem Ok.lookUp (h : Ok w) (hs : w.sends[i]? = some s) (hat : s.at_ = .touched)
    (htimely : ¬ w.Releasing s.session) : Ok (w.lookUp i s) := by
  have hok := h.mem hs
  unfold Sessions.lookUp
  split
  case h_1 run hrun =>
    have hlive := mem_live_of_runOf hrun
    refine h.setSend ⟨fun _ ↦ hok.unposted (.inl hat), fun _ hst ↦ ?_, fun _ ↦
      ⟨h.live _ hlive, fun l hl heq ↦ ?_⟩⟩ (fun _ ↦ htimely) fun _ r hr id run' todo hat' ↦
        ((h.reaps r hr).stopping id run' todo hat').2.2 _ hlive
    · exact absurd ((hok.unposted (.inl hat)).1.symm.trans hst) Bool.false_ne_true
    · rw [h.eq_of_run hl hlive heq]
  · refine h.setSend ⟨fun _ ↦ hok.unposted (.inl hat), ?_, ?_⟩ ?_ ?_ <;>
      (split <;> simp [Send.isOpen])

/-- A run is started. -/
theorem Ok.start (h : Ok w) (id : String) :
    Ok { w with live := w.live ++ [(id, w.nextRun)], nextRun := w.nextRun + 1 } := by
  have hnew : ∀ {l : String × ℕ} {run : ℕ}, l ∈ w.live ++ [(id, w.nextRun)] → run < w.nextRun →
      l.2 = run → l ∈ w.live := by
    intro l run hl hlt heq
    rcases List.mem_append.1 hl with hold | hnew
    · exact hold
    · obtain rfl := List.mem_singleton.1 hnew
      exact absurd heq hlt.ne'
  refine { h with
    sends := fun s hs ↦ ?_
    reaps := fun r hr ↦ ?_
    live := fun l hl ↦ ?_
    unique := ?_ }
  · have hok := h.sends s hs
    exact ⟨hok.unposted, hok.busy, fun hopen ↦ ⟨(hok.run hopen).1.trans (Nat.lt_succ_self _),
      fun l hl heq ↦ (hok.run hopen).2 l (hnew hl (hok.run hopen).1 heq) heq⟩⟩
  · have hreap := h.reaps r hr
    refine ⟨hreap.now, hreap.releasing, fun id' run todo hat ↦ ?_⟩
    obtain ⟨hlt, hopen, hlive⟩ := hreap.stopping id' run todo hat
    exact ⟨hlt.trans (Nat.lt_succ_self _), hopen, fun l hl heq ↦ hlive l (hnew hl hlt heq) heq⟩
  · rcases List.mem_append.1 hl with hold | hlast
    · exact (h.live l hold).trans (Nat.lt_succ_self _)
    · rw [List.mem_singleton.1 hlast]
      exact Nat.lt_succ_self _
  · rw [List.map_append, List.nodup_append]
    refine ⟨h.unique, List.nodup_singleton _, fun a ha b hb ↦ ?_⟩
    obtain ⟨l, hl, rfl⟩ := List.mem_map.1 ha
    rw [List.mem_singleton.1 hb]
    exact (h.live l hl).ne

theorem Ok.started (h : Ok w) (hs : w.sends[i]? = some s) (hat : s.at_ = .starting)
    (htimely : ¬ w.Releasing s.session) (ok : Bool) : Ok (w.started i s ok) := by
  have hok := h.mem hs
  have hunposted := hok.unposted (.inr (.inl hat))
  unfold Sessions.started
  split
  · refine (h.start s.session).setSend ⟨fun _ ↦ hunposted, fun _ hst ↦ ?_, fun _ ↦
      ⟨Nat.lt_succ_self _, fun l hl heq ↦ ?_⟩⟩ (fun _ ↦ htimely) fun _ r hr id run todo hat' ↦
        ((h.reaps r hr).stopping id run todo hat').1.ne'
    · exact absurd (hunposted.1.symm.trans hst) Bool.false_ne_true
    · rcases List.mem_append.1 hl with hold | hlast
      · exact absurd heq (h.live l hold).ne
      · rw [List.mem_singleton.1 hlast]
  · exact h.setSend ⟨nofun, nofun, nofun⟩ nofun nofun

/-- A store in which every session that was mid-turn still is. -/
theorem Ok.of_busy (h : Ok w) {store : Store} {untouched : List String}
    (hbusy : ∀ id, w.busy id = true → ({ w with store, untouched } : Sessions).busy id = true) :
    Ok { w with store, untouched } :=
  { h with
    sends := fun s hs ↦ ⟨(h.sends s hs).unposted, fun hopen hst ↦
      hbusy _ ((h.sends s hs).busy hopen hst), (h.sends s hs).run⟩
    reaps := fun r hr ↦ ⟨(h.reaps r hr).now, (h.reaps r hr).releasing, (h.reaps r hr).stopping⟩ }

/-- **An event is stored**: its session's status goes on from the event. -/
theorem append_spec
    (h : w.append id now event = some w') : ∃ store untouched row, w.store.session id = some row ∧
      w' = { w with store, untouched } ∧
      (∀ id' ≠ id, w'.busy id' = w.busy id') ∧ w'.busy id = isBusy (row.status.after event) := by
  unfold append Store.append at h
  split at h
  · cases h
  case h_2 row hrow =>
    obtain rfl := Option.some.inj h
    refine ⟨_, _, row, hrow, rfl, fun id' hne ↦ ?_, ?_⟩
    · simp only [busy, Store.session]
      rw [Std.ExtTreeMap.getElem?_insert, if_neg fun heq ↦
        hne (Std.LawfulEqCmp.compare_eq_iff_eq.1 heq).symm]
    · simp only [busy, Store.session]
      rw [Std.ExtTreeMap.getElem?_insert, if_pos (Std.ReflCmp.compare_self)]
      simp [SessionRecord.append]

theorem isBusy_after {status : SessionStatus} (hend : isTurnEnd event = false)
    (hbusy : isBusy status = true) : isBusy (status.after event) = true := by
  cases event <;> first | exact hbusy | rfl | cases hend

/-- An event that ends no turn leaves every session mid-turn that was. -/
theorem busy_append (h : w.append id now event = some w') (hend : isTurnEnd event = false)
    (id' : String) (hbusy : w.busy id' = true) : w'.busy id' = true := by
  obtain ⟨store, untouched, row, hrow, -, hother, hsame⟩ := append_spec h
  by_cases hid : id' = id
  · subst hid
    rw [hsame]
    refine isBusy_after hend ?_
    simpa [busy, hrow] using hbusy
  · rw [hother id' hid, hbusy]

theorem Ok.append (h : Ok w) (happend : w.append id now event = some w')
    (hend : isTurnEnd event = false) : Ok w' := by
  have hbusy := busy_append happend hend
  obtain ⟨store, untouched, row, -, rfl, -, -⟩ := append_spec happend
  exact h.of_busy hbusy

theorem Ok.storeMessage (h : Ok w) (hs : w.sends[i]? = some s) (hqueued : s.queued = true)
    (now : ℕ) : Ok (w.storeMessage i s now) := by
  have hok := h.mem hs
  have hposted : s.at_ = .touched ∨ s.at_ = .starting ∨ s.at_ = .found → False := fun hor ↦
    absurd ((hok.unposted hor).2.symm.trans hqueued) Bool.false_ne_true
  unfold Sessions.storeMessage
  split
  case h_1 w' happend =>
    have h' := h.append happend rfl
    obtain ⟨store, untouched, row, -, rfl, -, hbusy⟩ := append_spec happend
    exact h'.advance hs rfl rfl (fun hopen ↦ hopen)
      ⟨fun hor ↦ (hposted hor).elim, fun _ _ ↦ hbusy, hok.run⟩
  · exact h.advance hs rfl rfl (fun hopen ↦ hopen) ⟨fun hor ↦ (hposted hor).elim, hok.busy, hok.run⟩

/-- What a send is after the end of a turn. -/
theorem of_mem_endTurns {t : Send}
    (ht : t ∈ (w.endTurns id ends).sends) : ∃ (i : ℕ) (s : Send), w.sends[i]? = some s ∧
      (t = { s with ended := true } ∨ t = s ∧ ¬ (s.session = id ∧ s.stored = true ∧ i ∈ ends)) := by
  obtain ⟨i, hi, rfl⟩ := List.mem_mapIdx.1 ht
  refine ⟨i, w.sends[i], List.getElem?_eq_getElem hi, ?_⟩
  split
  · exact .inl rfl
  case isFalse hnot => exact .inr ⟨rfl, hnot⟩

theorem not_isOpen_of_ended (s : Send) : ({ s with ended := true } : Send).isOpen = false := by
  obtain ⟨_, _, at_, _, _, _, _⟩ := s
  cases at_ <;> rfl

/-- **The end of a turn** that ends the turns of all sends whose messages are stored. -/
theorem Ok.endTurns (h : Ok w) (happend : w.append id now event = some w')
    (htimely : ∀ i ∈ List.range w.sends.length, ∀ s ∈ w.sends[i]?,
      s.session = id ∧ s.isOpen = true ∧ s.stored = true → i ∈ ends) :
    Ok (w'.endTurns id ends) := by
  obtain ⟨store, untouched, row, -, rfl, hother, -⟩ := append_spec happend
  -- A send whose turn goes on was there before.
  have hold : ∀ t ∈ (({ w with store, untouched } : Sessions).endTurns id ends).sends,
      t.isOpen = true → t ∈ w.sends ∧ (t.stored = true → t.session ≠ id) := by
    intro t ht hopen
    obtain ⟨i, s, hs, rfl | ⟨rfl, hnot⟩⟩ := of_mem_endTurns ht
    · exact absurd ((not_isOpen_of_ended s).symm.trans hopen) Bool.false_ne_true
    · have hi := List.mem_range.2 (List.getElem?_eq_some_iff.1 hs).1
      exact ⟨List.mem_of_getElem? hs, fun hst hid ↦
        hnot ⟨hid, hst, htimely i hi t hs ⟨hid, hopen, hst⟩⟩⟩
  refine { h with
    sends := fun t ht ↦ ⟨?_, fun hopen hst ↦ ?_, fun hopen ↦ ?_⟩
    reaps := fun r hr ↦ ?_ }
  · obtain ⟨i, s, hs, rfl | ⟨rfl, -⟩⟩ := of_mem_endTurns ht
    · exact (h.mem hs).unposted
    · exact (h.mem hs).unposted
  · obtain ⟨hmem, hne⟩ := hold t ht hopen
    exact (hother _ (hne hst)).trans ((h.sends t hmem).busy hopen hst)
  · exact (h.sends t (hold t ht hopen).1).run hopen
  · have hreap := h.reaps r hr
    refine ⟨hreap.now, fun id' todo hat ↦ ⟨fun t ht hopen ↦ ?_, (hreap.releasing id' todo hat).2⟩,
      fun id' run todo hat ↦ ⟨(hreap.stopping id' run todo hat).1, fun t ht hopen ↦ ?_,
        (hreap.stopping id' run todo hat).2.2⟩⟩
    · exact (hreap.releasing id' todo hat).1 t (hold t ht hopen).1 hopen
    · exact (hreap.stopping id' run todo hat).2.1 t (hold t ht hopen).1 hopen

theorem Ok.record (h : Ok w)
    (htimely : w.Timely (.record id now event ends)) : Ok (w.record id now event ends) := by
  unfold Sessions.record
  split
  case h_1 w' happend =>
    split
    case isTrue hend => exact h.endTurns happend (htimely hend)
    case isFalse hno => exact h.append happend (Bool.eq_false_iff.2 hno)
  · exact h

theorem Ok.lease (h : Ok w) {ttl : ℕ} (htimely : w.Timely (.lease id ttl)) :
    Ok (w.lease id ttl) := by
  obtain ⟨hnot, hlonger⟩ := htimely
  unfold Sessions.lease
  split
  · refine { h with
      sends := fun s hs ↦ ⟨(h.sends s hs).unposted, (h.sends s hs).busy, (h.sends s hs).run⟩
      reaps := fun r hr ↦ ⟨(h.reaps r hr).now, fun id' todo hat ↦ ⟨?_, fun l hl hid ↦ ?_⟩,
        (h.reaps r hr).stopping⟩
      leases := fun l hl ↦ ?_ }
    · exact ((h.reaps r hr).releasing id' todo hat).1
    · rcases List.mem_append.1 hl with hold | hnew
      · exact ((h.reaps r hr).releasing id' todo hat).2 l hold hid
      · obtain rfl := List.mem_singleton.1 hnew
        obtain rfl : id = id' := hid
        exact absurd ⟨r, hr, by rw [Reap.releasing, hat]⟩ hnot
    · by_cases hid : l.1 = id
      · refine .inr ⟨w.clock + ttl, ?_, ?_⟩
        · show Function.update w.leases id (some (w.clock + ttl)) l.1 = _
          rw [hid, Function.update_self]
        · rcases List.mem_append.1 hl with hold | hnew
          · rcases h.leases l hold with hle | ⟨until_, hu, hle⟩
            · exact hle.trans (Nat.le_add_right _ _)
            · exact hle.trans (hlonger until_ (hid ▸ hu))
          · rw [List.mem_singleton.1 hnew]
      · rcases List.mem_append.1 hl with hold | hnew
        · refine (h.leases l hold).imp_right fun ⟨until_, hu, hle⟩ ↦ ⟨until_, ?_, hle⟩
          show Function.update w.leases id (some (w.clock + ttl)) l.1 = _
          rw [Function.update_of_ne hid, hu]
        · exact absurd (by rw [List.mem_singleton.1 hnew]) hid
  · exact h

/-- Fewer runs are live. -/
theorem Ok.sublive (h : Ok w) {live : List (String × ℕ)} (hlive : live.Sublist w.live) :
    Ok { w with live } :=
  { h with
    sends := fun s hs ↦ ⟨(h.sends s hs).unposted, (h.sends s hs).busy, fun hopen ↦
      ⟨((h.sends s hs).run hopen).1, fun l hl ↦ ((h.sends s hs).run hopen).2 l (hlive.subset hl)⟩⟩
    reaps := fun r hr ↦ ⟨(h.reaps r hr).now, (h.reaps r hr).releasing, fun id run todo hat ↦
      ⟨((h.reaps r hr).stopping id run todo hat).1, ((h.reaps r hr).stopping id run todo hat).2.1,
        fun l hl ↦ ((h.reaps r hr).stopping id run todo hat).2.2 l (hlive.subset hl)⟩⟩
    live := fun l hl ↦ h.live l (hlive.subset hl)
    unique := (hlive.map _).nodup h.unique }

/-- Whoever makes a session or changes its title ends no turn. -/
theorem Ok.administer (h : Ok w) {op : StoreOp} (hop : ∀ id now e, op ≠ .append id now e) :
    Ok { w with store := w.store.step op } := by
  show Ok { w with store := w.store.step op, untouched := w.untouched }
  refine h.of_busy fun id hbusy ↦ ?_
  cases op with
  | append id now e => exact absurd rfl (hop id now e)
  | createSession id' now project agent cwd model title account =>
    simp only [busy, Store.session, Store.step, Store.createSession] at hbusy ⊢
    split
    · exact hbusy
    case isFalse hnew =>
      show (Std.ExtTreeMap.insert _ _ _)[id]?.any _ = true
      rw [Std.ExtTreeMap.getElem?_insert, if_neg]
      · exact hbusy
      · -- There was no row of the session that is made.
        intro heq
        obtain rfl := Std.LawfulEqCmp.compare_eq_iff_eq.1 heq
        rw [Std.ExtTreeMap.getElem?_eq_none hnew] at hbusy
        cases hbusy
  | updateSessionMeta id' patch =>
    rcases w.store.updateSessionMeta_cases id' patch with ⟨row, hrow, -, hstep⟩ | ⟨-, hstep⟩
    · simp only [busy, Store.session, hstep] at hbusy ⊢
      rw [Std.ExtTreeMap.getElem?_insert]
      split
      case isTrue heq =>
        obtain rfl := Std.LawfulEqCmp.compare_eq_iff_eq.1 heq
        rw [hrow] at hbusy
        exact hbusy
      · exact hbusy
    · rw [hstep]
      exact hbusy

/-! ### Reaping -/

/-- A reap goes on. -/
theorem Ok.setReap (h : Ok w) {r' : Reap} (hr : ReapOk w r') : Ok (w.setReap j r') :=
  { h with
    sends := fun s hs ↦ ⟨(h.sends s hs).unposted, (h.sends s hs).busy, (h.sends s hs).run⟩
    reaps := fun t ht ↦ by
      obtain hold | rfl := List.mem_or_eq_of_mem_set ht
      · exact ⟨(h.reaps t hold).now, (h.reaps t hold).releasing, (h.reaps t hold).stopping⟩
      · exact ⟨hr.now, hr.releasing, hr.stopping⟩ }

/-- A reap that neither takes a run away nor shuts one down needs nothing but its time. -/
theorem reapOk_of_at (hnow : r.now ≤ w.clock) (hreleasing : ∀ id todo, r.at_ ≠ .releasing id todo)
    (hstopping : ∀ id run todo, r.at_ ≠ .stopping id run todo) : ReapOk w r :=
  ⟨hnow, fun id todo hat ↦ absurd hat (hreleasing id todo),
    fun id run todo hat ↦ absurd hat (hstopping id run todo)⟩

/-- What a reap meets is a state that holds if it does no harm. -/
theorem Ok.meet (h : Ok w) {m : Met} (hm : m.open_ = false ∧ m.leased = false) : Ok (w.meet m) :=
  { h with
    sends := fun s hs ↦ ⟨(h.sends s hs).unposted, (h.sends s hs).busy, (h.sends s hs).run⟩
    reaps := fun r hr ↦ ⟨(h.reaps r hr).now, (h.reaps r hr).releasing, (h.reaps r hr).stopping⟩
    spared := fun m' hm' ↦ by
      rcases List.mem_append.1 hm' with hold | hlast
      · exact h.spared m' hold
      · rw [List.mem_singleton.1 hlast]
        exact hm }

/-- The last step of a reap forgets the leases that have expired. -/
theorem Ok.forget (h : Ok w) (hnow : now ≤ w.clock) :
    Ok { w with leases := fun id ↦ (w.leases id).filter fun until_ ↦ now < until_ } :=
  { h with
    sends := fun s hs ↦ ⟨(h.sends s hs).unposted, (h.sends s hs).busy, (h.sends s hs).run⟩
    reaps := fun r hr ↦ ⟨(h.reaps r hr).now, (h.reaps r hr).releasing, (h.reaps r hr).stopping⟩
    leases := fun l hl ↦ by
      rcases h.leases l hl with hle | ⟨until_, hu, hle⟩
      · exact .inl hle
      · by_cases hlater : now < until_
        · refine .inr ⟨until_, ?_, hle⟩
          show (w.leases l.1).filter _ = _
          rw [hu]
          exact Option.filter_some_pos (by simpa using hlater)
        · exact .inl (hle.trans ((Nat.le_of_not_lt hlater).trans hnow)) }

theorem hasOpen_eq_false {run : ℕ} (h : ∀ s ∈ w.sends, s.isOpen = true → s.run ≠ run) :
    w.hasOpen run = false := by
  simp only [hasOpen, List.any_eq_false, Bool.and_eq_true, decide_eq_true_eq, not_and]
  exact h

theorem hasLease_eq_false (h : ∀ l ∈ w.taken, l.1 = id → l.2 ≤ w.clock) :
    w.hasLease id = false := by
  simp only [hasLease, List.any_eq_false, decide_eq_true_eq, not_and, Nat.not_lt]
  exact h

/-- **The decision**: a session that is neither mid-turn nor between a send's run and its message,
and has no lease, may be released. -/
theorem Ok.decide (h : Ok w) {r' : Reap} (hnow : r'.now ≤ w.clock)
    (hat : r'.at_ = .releasing id todo) (hbusy : w.busy id = false)
    (hunstored : ¬ w.Unstored id) (hleases : ∀ until_ ∈ w.leases id, until_ ≤ w.clock) :
    ReapOk w r' := by
  refine ⟨hnow, fun id' todo' heq ↦ ⟨fun s hs hopen hid ↦ ?_, fun l hl hid ↦ ?_⟩,
    fun id' run todo' heq ↦ by rw [hat] at heq; cases heq⟩
  · obtain ⟨rfl, rfl⟩ := ReapAt.releasing.inj (hat.symm.trans heq)
    cases hst : s.stored with
    | true =>
      have := (h.sends s hs).busy hopen hst
      rw [hid, hbusy] at this
      cases this
    | false => exact hunstored ⟨s, hs, hid, hopen, hst⟩
  · obtain ⟨rfl, rfl⟩ := ReapAt.releasing.inj (hat.symm.trans heq)
    rcases h.leases l hl with hle | ⟨until_, hu, hle⟩
    · exact hle
    · exact hle.trans (hleases until_ (hid ▸ hu))

/-- **A run is taken away**: no send that goes on has it, and the session has no lease. -/
theorem Ok.remove (h : Ok w) {run : ℕ} (hr : r ∈ w.reaps) (hat : r.at_ = .releasing id todo)
    (hrun : w.runOf id = some run) :
    Ok (({ w with live := w.live.filter fun l ↦ l.1 ≠ id }.meet
      ⟨id, run, w.hasOpen run, w.hasLease id⟩).setReap j
        { r with at_ := .stopping id run todo }) := by
  obtain ⟨hnow, hreleasing, -⟩ := h.reaps r hr
  obtain ⟨hopen, hlease⟩ := hreleasing id todo hat
  have hlive := mem_live_of_runOf hrun
  have hfree : ∀ s ∈ w.sends, s.isOpen = true → s.run ≠ run := fun s hs hop heq ↦
    hopen s hs hop (((h.sends s hs).run hop).2 _ hlive heq.symm).symm
  refine ((h.sublive List.filter_sublist).meet
    ⟨hasOpen_eq_false hfree, hasLease_eq_false hlease⟩).setReap
      ⟨hnow, nofun, fun id' run' todo' heq ↦ ?_⟩
  obtain ⟨rfl, rfl, rfl⟩ := ReapAt.stopping.inj heq
  refine ⟨h.live _ hlive, hfree, fun l hl heq' ↦ ?_⟩
  -- The generation was the session's own.
  obtain ⟨hl, hne⟩ := List.mem_filter.1 hl
  exact of_decide_eq_true hne (congrArg Prod.fst (h.eq_of_run hl hlive heq'))

theorem Ok.reapNext (h : Ok w) (hr : w.reaps[j]? = some r) (htimely : w.Timely (.reapStep j)) :
    Ok (w.reapNext j r) := by
  have hmem := List.mem_of_getElem? hr
  have hnow := (h.reaps r hmem).now
  unfold Sessions.reapNext
  split
  case h_1 =>
    split
    · exact h
    · exact h.setReap (reapOk_of_at hnow nofun nofun)
  case h_2 => exact (h.forget hnow).setReap (reapOk_of_at hnow nofun nofun)
  case h_3 => exact h.setReap (reapOk_of_at hnow nofun nofun)
  case h_4 => exact h.setReap (reapOk_of_at hnow nofun nofun)
  case h_5 id leased quiet todo hat =>
    split
    · exact h.setReap (reapOk_of_at hnow nofun nofun)
    case isFalse hnot =>
      have hall : (leased = false ∧ quiet = true) ∧ w.busy id = false := by simpa using hnot
      obtain ⟨⟨rfl, rfl⟩, hbusy⟩ := hall
      have hdeciding : r.deciding = some id := by rw [Reap.deciding, hat]
      obtain ⟨hunstored, hleases⟩ := htimely r hr id hdeciding hbusy
      exact h.setReap (h.decide hnow rfl hbusy hunstored hleases)
  case h_6 id todo hat =>
    split
    · exact h
    · split
      · exact h.setReap (reapOk_of_at hnow nofun nofun)
      case h_2 run hrun => exact h.remove hmem hat hrun
  case h_7 id run todo hat =>
    split
    · exact h
    · refine (h.meet ⟨hasOpen_eq_false ?_, rfl⟩).setReap (reapOk_of_at hnow nofun nofun)
      exact ((h.reaps r hmem).stopping id run todo hat).2.1
  case h_8 => exact h

/-! ### Runs -/

/-- The clock goes forward. -/
theorem Ok.tick (h : Ok w) (n : ℕ) : Ok { w with clock := w.clock + n } :=
  { h with
    sends := fun s hs ↦ ⟨(h.sends s hs).unposted, (h.sends s hs).busy, (h.sends s hs).run⟩
    reaps := fun r hr ↦ ⟨(h.reaps r hr).now.trans (Nat.le_add_right _ _), fun id todo hat ↦
      ⟨((h.reaps r hr).releasing id todo hat).1, fun l hl hid ↦
        (((h.reaps r hr).releasing id todo hat).2 l hl hid).trans (Nat.le_add_right _ _)⟩,
      (h.reaps r hr).stopping⟩
    leases := fun l hl ↦ (h.leases l hl).imp_left fun hle ↦ hle.trans (Nat.le_add_right _ _) }

theorem Ok.touch (h : Ok w) (id : String) : Ok (w.touch id) :=
  { h with
    sends := fun s hs ↦ ⟨(h.sends s hs).unposted, (h.sends s hs).busy, (h.sends s hs).run⟩
    reaps := fun r hr ↦ ⟨(h.reaps r hr).now, (h.reaps r hr).releasing, (h.reaps r hr).stopping⟩ }

/-- A send begins. -/
theorem Ok.send (h : Ok w) (id text : String) :
    Ok { w with sends := w.sends ++ [⟨id, text, .touched, 0, false, false, false⟩] } := by
  have hold : ∀ s ∈ w.sends ++ [⟨id, text, .touched, 0, false, false, false⟩],
      s.isOpen = true → s ∈ w.sends := by
    intro s hs hopen
    rcases List.mem_append.1 hs with hold | hlast
    · exact hold
    · rw [List.mem_singleton.1 hlast] at hopen
      cases hopen
  refine { h with
    sends := fun s hs ↦ ⟨fun hat ↦ ?_, fun hopen ↦ ?_, fun hopen ↦ ?_⟩
    reaps := fun r hr ↦ ?_ }
  · rcases List.mem_append.1 hs with hold | hlast
    · exact (h.sends s hold).unposted hat
    · rw [List.mem_singleton.1 hlast]
      exact ⟨rfl, rfl⟩
  · exact (h.sends s (hold s hs hopen)).busy hopen
  · exact (h.sends s (hold s hs hopen)).run hopen
  · obtain ⟨hnow, hreleasing, hstopping⟩ := h.reaps r hr
    exact ⟨hnow, fun id' todo hat ↦ ⟨fun s hs hopen ↦ (hreleasing id' todo hat).1 s
      (hold s hs hopen) hopen, (hreleasing id' todo hat).2⟩, fun id' run todo hat ↦
        ⟨(hstopping id' run todo hat).1, fun s hs hopen ↦ (hstopping id' run todo hat).2.1 s
          (hold s hs hopen) hopen, (hstopping id' run todo hat).2.2⟩⟩

/-- A reap begins. -/
theorem Ok.reap (h : Ok w) (idle : ℕ) :
    Ok { w with reaps := w.reaps ++ [⟨idle, w.clock, .listing, []⟩] } :=
  { h with
    sends := fun s hs ↦ ⟨(h.sends s hs).unposted, (h.sends s hs).busy, (h.sends s hs).run⟩
    reaps := fun r hr ↦ by
      rcases List.mem_append.1 hr with hold | hlast
      · exact ⟨(h.reaps r hold).now, (h.reaps r hold).releasing, (h.reaps r hold).stopping⟩
      · rw [List.mem_singleton.1 hlast]
        exact ⟨le_rfl, nofun, nofun⟩ }

/-- A send whose message is handed over, or whose run has exited. -/
theorem Ok.post (h : Ok w) (hs : w.sends[i]? = some s) (hat : s.at_ = .found) (ok : Bool) :
    Ok (w.setSend i (if ok then { s with at_ := .posted, queued := true }
      else { s with at_ := .failed })) := by
  split
  · have hopen : ({ s with at_ := .posted, queued := true } : Send).isOpen = true →
        s.isOpen = true := by
      intro hopen
      rwa [Send.isOpen, hat]
    exact h.advance hs rfl rfl hopen ((h.mem hs).advance rfl rfl rfl hopen ⟨nofun, nofun, nofun⟩)
  · exact h.advance hs rfl rfl nofun ((h.mem hs).advance rfl rfl rfl nofun ⟨nofun, nofun, nofun⟩)

/-- **One step** that does no harm. -/
theorem ok_step (h : Ok w) {l : Label} (htimely : w.Timely l) : Ok (w.step l) := by
  cases l with simp only [step]
  | tick n => exact h.tick n
  | send session text => exact (h.touch session).send session text
  | lookUp i =>
    split
    case h_1 s hs =>
      split
      case isTrue hat => exact h.lookUp hs hat.1 (htimely s hs)
      · exact h
    · exact h
  | started i ok =>
    split
    case h_1 s hs =>
      split
      case isTrue hat => exact h.started hs hat (htimely s hs) ok
      · exact h
    · exact h
  | post i ok =>
    split
    case h_1 s hs =>
      split
      case isTrue hat => exact h.post hs hat ok
      · exact h
    · exact h
  | storeMessage i now =>
    split
    case h_1 s hs =>
      split
      case isTrue hqueued => exact h.storeMessage hs hqueued now
      · exact h
    · exact h
  | ask i =>
    split
    case h_1 s hs =>
      split
      case isTrue hat =>
        have hopen : ({ s with at_ := .asking } : Send).isOpen = true → s.isOpen = true := by
          intro hopen
          rwa [Send.isOpen, hat.1]
        exact h.advance hs rfl rfl hopen
          ((h.mem hs).advance rfl rfl rfl hopen ⟨nofun, nofun, nofun⟩)
      · exact h
    · exact h
  | asked i ok =>
    split
    case h_1 s hs =>
      split
      case isTrue hat =>
        have hopen : ({ s with at_ := if ok then .asked else .failed } : Send).isOpen = true →
            s.isOpen = true := by
          intro hopen
          cases ok
          · cases hopen
          · rwa [Send.isOpen, hat]
        refine h.advance hs rfl rfl hopen
          ((h.mem hs).advance rfl rfl rfl hopen ?_)
        cases ok <;> exact ⟨nofun, nofun, nofun⟩
      · exact h
    · exact h
  | record session now event ends => exact h.record htimely
  | touch k =>
    split
    · exact (h.touch _).of_busy fun _ hbusy ↦ hbusy
    · exact h
  | lease session ttl => exact h.lease htimely
  | exited session run =>
    split
    · exact h
    · exact h.sublive List.filter_sublist
  | administer op =>
    split
    · exact h
    case h_2 hop => exact h.administer fun id now e heq ↦ hop id now e heq
  | reap idle => exact h.reap idle
  | reapStep j =>
    split
    case h_1 r hr => exact h.reapNext hr htimely
    · exact h

end Sessions

open Sessions

/-- The runs of the system. -/
def system (clock : ℕ) : StepSystem Sessions Label := .ofFun (new clock) step

/-- **No agent is shut down under a send, or under a lease.** In every run of the system whose steps
are timely. -/
theorem spared_of_reachable {clock : ℕ} {w : Sessions}
    (hw : ((system clock).restrict Timely).Reachable w) : w.Spared := by
  refine (hw.invariant (I := Ok) (fun s hs ↦ ?_) fun s l t _ hs hstep ↦ ?_).spared
  · obtain rfl := hs
    exact ok_new clock
  · obtain ⟨htimely, rfl⟩ := hstep
    exact ok_step hs htimely

/-- A session with a run, and the turn of its message has ended. -/
def idling : List Label :=
  [.administer (.createSession "s" 0 "p" .scripted "/work" none "Build" none),
    .send "s" "Build it.", .lookUp 0, .started 0 true, .post 0 true, .storeMessage 0 1, .ask 0,
    .asked 0 true, .touch 0, .record "s" 2 (.turnEnded .completed) [0], .touch 0, .tick 10]

/-- A reap reads that the session is not leased and quiet, and that it is not mid-turn. -/
def deciding : List Label :=
  [.reap 5, .reapStep 0, .reapStep 0, .reapStep 0, .reapStep 0]

/-- An idle session is released, and a reap meets nothing. -/
theorem spared_idle :
    let w := (new 0).run (idling ++ deciding ++ [.reapStep 0, .reapStep 0])
    (w.reaps[0]?).map Reap.released = some ["s"] ∧ w.live = [] ∧ w.Spared := by
  have hstart : ((system 0).restrict Timely).Reachable (new 0) := .start rfl
  have hreach : ((system 0).restrict Timely).Reachable
      ((new 0).run (idling ++ deciding ++ [.reapStep 0, .reapStep 0])) :=
    StepSystem.Reachable.foldl_of_allMeet (fun _ _ ↦ rfl) hstart (by decide +kernel)
  exact ⟨by decide +kernel, by decide +kernel, spared_of_reachable hreach⟩

/-- **A message is lost, and a lease is not heeded.** In the first run a send gets the run after the
reap has read that the session is quiet and not mid-turn; the run is shut down under it. In the
second somebody takes a lease of the session there. -/
theorem not_spared :
    ¬ ((new 0).run (idling ++ deciding ++ [.send "s" "And now?", .lookUp 1, .post 1 true,
      .storeMessage 1 12, .reapStep 0, .reapStep 0])).Spared ∧
    ¬ ((new 0).run (idling ++ deciding ++ [.lease "s" 30, .reapStep 0])).Spared := by
  decide +kernel

end Ember.Server.Reaper
