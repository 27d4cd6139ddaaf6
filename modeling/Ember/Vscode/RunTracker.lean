import Ember.Foundation.Runs
import Mathlib.Data.List.AList

/-!
# Runs in the editor

`run/tracker.ts`: run events become executions of cells, each an `ExecHandle` that the editor made,
and the marks that say who runs a cell. Events name a cell by its index, which the document of the
moment turns into an id; the answer of the request that started a run comes through `expect`,
before, between or after the events of the run.

Each call comes with the document and the editor as they are then. The editor keeps what every
handle was told.

## What is proved

* `Inv.step` — a handle is started at most once and ended at most once, and is told nothing after
  that, whatever the calls are.
* `tracker_sound_iff` — when every handle of a run that has finished was ended, and no cell is left
  marked with it.
* `not_sound_tracker` — cells of somebody else's run that were queued and never started; an answer
  that comes after the run has finished.
-/

namespace Ember.Vscode

/-- `Attribution`. -/
structure Attribution where
  clientId : Option String
  user : Option String
  nickname : Option String
  deriving DecidableEq

/-- The `state` of a `RunInfo`. -/
inductive Phase
  | queued
  | running
  deriving DecidableEq

/-- `RunInfo`: who runs a cell. -/
structure RunInfo where
  runId : String
  startedBy : Option Attribution
  mine : Bool
  phase : Phase
  deriving DecidableEq

/-- What an `ExecHandle` is told. -/
inductive Told (O : Type)
  | start (executionCount : Option ℕ)
  | output (o : O)
  | clear (wait : Bool)
  | finish (status : Option String)
  deriving DecidableEq

/-- `end`. -/
def Told.isFinish {O : Type} : Told O → Bool
  | finish _ => true
  | _ => false

/-- `start`. -/
def Told.isStart {O : Type} : Told O → Bool
  | start _ => true
  | _ => false

/-- An `ExecHandle`, with what it was told. -/
structure ExecHandle (O : Type) where
  runId : String
  cellId : String
  told : List (Told O)
  deriving DecidableEq

/-- `RunState`. -/
structure RunState where
  startedBy : Option Attribution
  mine : Bool
  /-- The handle of each cell that has one. -/
  execs : AList fun _ : String ↦ ℕ
  started : List String
  /-- The cell of each index as it was at `cell.started`. -/
  indexes : ℕ → Option String

/-- The runs that the tracker knows, and the editor. -/
structure Editor (O : Type) where
  runs : AList fun _ : String ↦ RunState
  /-- Every handle that was created. -/
  handles : List (ExecHandle O)
  /-- The mark of each cell. -/
  attributed : String → Option RunInfo
  /-- The cells whose outputs were said to be current. -/
  ran : List String
  /-- The runs whose `run.finished` came. -/
  closed : List String
  /-- `abandonAll` was called last. -/
  abandoned : Bool

/-- What a call meets: `resolve`, and the cells that `create` can show. -/
structure Sight where
  resolve : ℕ → Option String
  shows : String → Bool

/-- The types of run events. -/
inductive EventType
  | runQueued
  | runStarted
  | cellStarted
  | output
  | outputClear
  | cellFinished
  | runFinished
  deriving DecidableEq

/-- A `KernelEvent` about a run, with what is read of its `data`. -/
structure KernelEvent (O : Type) where
  type : EventType
  runId : Option String := none
  startedBy : Option Attribution := none
  cells : List ℕ := []
  index : ℕ := 0
  executionCount : Option ℕ := none
  output : Option O := none
  wait : Bool := false
  status : Option String := none

/-- The calls of a `RunTracker`. -/
inductive Call (O : Type)
  | expect (runId : String) (cellIds : List String) (startedBy : Attribution)
  | handle (ev : KernelEvent O)
  | abandonAll

/-- A string that is there and not empty. -/
def truthy (s : Option String) : Option String := s.filter (· ≠ "")

namespace Editor

variable {O : Type}

/-! ### The editor's side -/

/-- A handle is told something. -/
def tell (w : Editor O) (n : ℕ) (t : Told O) : Editor O :=
  { w with handles := w.handles.modify n fun h ↦ { h with told := h.told ++ [t] } }

/-- `attribution`. -/
def attribution (w : Editor O) (cellId : String) (info : Option RunInfo) : Editor O :=
  { w with attributed := Function.update w.attributed cellId info }

/-! ### The tracker's side -/

/-- `run`: the run is known from here on. -/
def run (w : Editor O) (me runId : String) (startedBy : Option Attribution) : Editor O :=
  let mine := startedBy.any (·.clientId == some me)
  match w.runs.lookup runId with
  | none =>
    let r : RunState := ⟨startedBy, mine, ∅, [], fun _ ↦ none⟩
    { w with runs := w.runs.insert runId r }
  | some r =>
    if startedBy.isSome && r.startedBy.isNone then
      { w with runs := w.runs.insert runId { r with startedBy := startedBy, mine := mine } }
    else w

/-- What is known of a run, of which something is. -/
def state (w : Editor O) (runId : String) : RunState :=
  (w.runs.lookup runId).getD ⟨none, false, ∅, [], fun _ ↦ none⟩

/-- The run's state is changed. -/
def change (w : Editor O) (runId : String) (f : RunState → RunState) : Editor O :=
  { w with runs := w.runs.insert runId (f (w.state runId)) }

/-- The mark of a cell of this run. -/
def info (w : Editor O) (runId : String) (phase : Phase) : RunInfo :=
  ⟨runId, (w.state runId).startedBy, (w.state runId).mine, phase⟩

/-- `cellFor`, where an id is to be had. -/
def cellFor (w : Editor O) (sight : Sight) (runId : String) (index : ℕ) : Option String :=
  truthy (((w.state runId).indexes index).or (sight.resolve index))

/-- The handle of a cell is created, if it has none and the editor can show one. -/
def create (w : Editor O) (sight : Sight) (runId cellId : String) : Editor O :=
  match (w.state runId).execs.lookup cellId with
  | some _ => w
  | none =>
    if sight.shows cellId then
      let made : Editor O := { w with handles := w.handles ++ [⟨runId, cellId, []⟩] }
      made.change runId fun r ↦ { r with execs := r.execs.insert cellId w.handles.length }
    else w

/-- Whether the cell has a handle that is to be started. -/
def startable (w : Editor O) (runId cellId : String) : Option ℕ :=
  if cellId ∈ (w.state runId).started then none else (w.state runId).execs.lookup cellId

/-- The handle of a cell is started, if there is one and the cell was not started. -/
def start (w : Editor O) (runId cellId : String) (count : Option ℕ) : Editor O :=
  match w.startable runId cellId with
  | some n =>
    (w.change runId fun r ↦ { r with started := cellId :: r.started }).tell n (.start count)
  | none => w

/-- `exec`, and what the handle it returns is told. -/
def exec (w : Editor O) (sight : Sight) (runId cellId : String) (t : Told O) : Editor O :=
  let created := w.create sight runId cellId
  let begun :=
    if (created.startable runId cellId).isSome then
      (created.start runId cellId none).attribution cellId (some (created.info runId .running))
    else created
  match (begun.state runId).execs.lookup cellId with
  | some n => begun.tell n t
  | none => begun

/-- A cell of `expect`. -/
def expectCell (w : Editor O) (sight : Sight) (runId : String) (startedBy : Attribution)
    (cellId : String) : Editor O :=
  if ((w.state runId).execs.lookup cellId).isSome then w
  else (w.create sight runId cellId).attribution cellId
    (some ⟨runId, some startedBy, true, .queued⟩)

/-- `expect`. -/
def expect (w : Editor O) (me : String) (sight : Sight) (runId : String) (cellIds : List String)
    (startedBy : Attribution) : Editor O :=
  cellIds.foldl (fun w ↦ w.expectCell sight runId startedBy)
    ((w.run me runId (some startedBy)).change runId fun r ↦ { r with mine := true })

/-- A cell of `run.queued` and `run.started`. -/
def queueCell (w : Editor O) (sight : Sight) (runId : String) (index : ℕ) : Editor O :=
  match w.cellFor sight runId index with
  | some id =>
    if id ∈ (w.state runId).started then w else w.attribution id (some (w.info runId .queued))
  | none => w

/-- These executions are ended, and their cells are not marked any more. The order in which
this happens is not modelled. -/
def endExecs (w : Editor O) (execs : List (Σ _ : String, ℕ)) (status : String → Option String) :
    Editor O :=
  execs.foldl (fun w e ↦ (w.tell e.2 (.finish (status e.1))).attribution e.1 none) w

/-- A cell of `cell.started`, whose index is kept. -/
def startCell (w : Editor O) (sight : Sight) (runId cellId : String) (index : ℕ)
    (count : Option ℕ) : Editor O :=
  let noted := w.change runId fun r ↦
    { r with indexes := Function.update r.indexes index (some cellId) }
  let started := (noted.create sight runId cellId).start runId cellId count
  started.attribution cellId (some (started.info runId .running))

/-- The handle of a cell is ended, if it has one. -/
def endExec (w : Editor O) (runId cellId : String) (status : Option String) : Editor O :=
  match (w.state runId).execs.lookup cellId with
  | some n => w.tell n (.finish status)
  | none => w

/-- `cell.finished` for a cell of a run that is known. -/
def finishCell (w : Editor O) (runId cellId : String) (status : Option String) : Editor O :=
  let dropped := (w.endExec runId cellId status).change runId fun r ↦
    { r with execs := r.execs.erase cellId }
  { dropped.attribution cellId none with ran := cellId :: w.ran }

/-- `run.finished` for a run that is known. Cells that never started are cancelled. -/
def finishRun (w : Editor O) (runId : String) (status : Option String) : Editor O :=
  let r := w.state runId
  let ended := w.endExecs r.execs.entries fun id ↦
    if id ∈ r.started then status else some "cancelled"
  { ended with runs := w.runs.erase runId }

/-- `handle`, for an event with the id of its run. -/
def handleRun (w : Editor O) (me : String) (sight : Sight) (runId : String) (ev : KernelEvent O) :
    Editor O :=
  match ev.type with
  | .runQueued | .runStarted =>
    ev.cells.foldl (fun w ↦ w.queueCell sight runId) (w.run me runId ev.startedBy)
  | .cellStarted =>
    let w := w.run me runId ev.startedBy
    match w.cellFor sight runId ev.index with
    | some id => w.startCell sight runId id ev.index ev.executionCount
    | none => w
  | .output =>
    let w := w.run me runId none
    match w.cellFor sight runId ev.index, ev.output with
    | some id, some o => w.exec sight runId id (.output o)
    | _, _ => w
  | .outputClear =>
    let w := w.run me runId none
    match w.cellFor sight runId ev.index with
    | some id => w.exec sight runId id (.clear ev.wait)
    | none => w
  | .cellFinished =>
    match w.runs.lookup runId, w.cellFor sight runId ev.index with
    | some _, some id => w.finishCell runId id ev.status
    | _, _ => w
  | .runFinished =>
    match w.runs.lookup runId with
    | some _ => w.finishRun runId ev.status
    | none => w

/-- `abandonAll`. -/
def abandonAll (w : Editor O) : Editor O :=
  let w := w.runs.entries.foldl (fun w e ↦ w.endExecs e.2.execs.entries fun _ ↦ none) w
  { w with runs := ∅ }

/-- A call of the tracker of this client. -/
def step (me : String) (w : Editor O) : Sight × Call O → Editor O
  | (sight, .expect runId cellIds startedBy) =>
    { w.expect me sight runId cellIds startedBy with closed := w.closed, abandoned := false }
  | (sight, .handle ev) =>
    match truthy ev.runId with
    | none => { w with abandoned := false }
    | some runId =>
      { w.handleRun me sight runId ev with
        closed := if ev.type = .runFinished then runId :: w.closed else w.closed
        abandoned := false }
  | (_, .abandonAll) => { w.abandonAll with closed := w.closed, abandoned := true }

/-- A `RunTracker` that was just made. -/
def new : Editor O := ⟨∅, [], fun _ ↦ none, [], [], false⟩

end Editor

/-! ### What is asked of the tracker -/

namespace ExecHandle

variable {O : Type}

def begun (h : ExecHandle O) : Bool := h.told.any Told.isStart

def ended (h : ExecHandle O) : Bool := h.told.any Told.isFinish

/-- The handle was started at most once, and told nothing after its end. -/
def Orderly (h : ExecHandle O) : Prop :=
  h.told.countP Told.isStart ≤ 1 ∧ ∀ t ∈ h.told.dropLast, t.isFinish = false

@[simp] theorem begun_concat (h : ExecHandle O) (t : Told O) :
    begun { h with told := h.told ++ [t] } = (h.begun || t.isStart) := by
  simp [begun]

@[simp] theorem ended_concat (h : ExecHandle O) (t : Told O) :
    ended { h with told := h.told ++ [t] } = (h.ended || t.isFinish) := by
  simp [ended]

theorem Orderly.concat {h : ExecHandle O} (ho : h.Orderly) (hended : h.ended = false) {t : Told O}
    (hstart : t.isStart → h.begun = false) : Orderly { h with told := h.told ++ [t] } := by
  rw [ended, List.any_eq_false] at hended
  refine ⟨?_, fun u hu ↦ ?_⟩
  · rw [List.countP_append, List.countP_singleton]
    split
    case isTrue ht =>
      have hnone := hstart ht
      rw [begun, List.any_eq_false] at hnone
      rw [List.countP_eq_zero.2 hnone]
    case isFalse => exact ho.1
  · rw [List.dropLast_concat] at hu
    exact Bool.eq_false_iff.2 (hended u hu)

theorem Orderly.ends {h : ExecHandle O} (ho : h.Orderly) :
    h.told.countP Told.isFinish = if h.ended then 1 else 0 := by
  obtain ⟨-, hfront⟩ := ho
  rw [ended]
  cases hlast : h.told using List.reverseRecOn with
  | nil => rfl
  | append_singleton front t =>
    rw [hlast, List.dropLast_concat] at hfront
    have hzero : front.countP Told.isFinish = 0 :=
      List.countP_eq_zero.2 fun u hu ↦ by simp [hfront u hu]
    have hnone : front.any Told.isFinish = false :=
      List.any_eq_false.2 fun u hu ↦ by simp [hfront u hu]
    rw [List.countP_append, hzero, List.any_append, hnone, List.countP_singleton]
    simp

end ExecHandle

variable {n : ℕ} {r c : String}

namespace Editor

variable {O : Type}

/-- The handle that the tracker has for a cell of a run. -/
def execOf (w : Editor O) (runId cellId : String) : Option ℕ := (w.state runId).execs.lookup cellId

/-- The run that a cell is marked with. -/
def runAt (w : Editor O) (cellId : String) : Option String :=
  (w.attributed cellId).map RunInfo.runId

/-- Every handle of the run was ended once, and no cell is marked with it. -/
def Settled (w : Editor O) (runId : String) : Prop :=
  (∀ h ∈ w.handles, h.runId = runId → h.told.countP Told.isFinish = 1) ∧
    ∀ c, w.runAt c ≠ some runId

/-- **What the tracker is asked for**: handles are started and ended at most once, and told nothing
after their end; a run that has finished is settled, and each run is when all were abandoned. -/
def Sound (w : Editor O) : Prop :=
  (∀ h ∈ w.handles, h.Orderly) ∧ (∀ r ∈ w.closed, w.Settled r) ∧ (w.abandoned → ∀ r, w.Settled r)

/-- What a call must meet: for a run that has finished, no call is to make a handle or a mark; when
a run finishes, or all are abandoned, each cell that is marked is to have a handle. -/
def Meets (w : Editor O) : Sight × Call O → Prop
  | (_, .expect runId cellIds _) => runId ∈ w.closed → cellIds = []
  | (sight, .handle ev) =>
    ∀ runId, truthy ev.runId = some runId →
      match ev.type with
      | .runQueued | .runStarted =>
        runId ∈ w.closed → ∀ i ∈ ev.cells, ∀ id, w.cellFor sight runId i = some id →
          id ∈ (w.state runId).started
      | .cellStarted => runId ∈ w.closed → w.cellFor sight runId ev.index = none
      | .output =>
        runId ∈ w.closed → ev.output.isSome →
          ∀ id, w.cellFor sight runId ev.index = some id → sight.shows id = false
      | .outputClear =>
        runId ∈ w.closed →
          ∀ id, w.cellFor sight runId ev.index = some id → sight.shows id = false
      | .cellFinished => True
      | .runFinished => ∀ c, w.runAt c = some runId → (w.execOf runId c).isSome
  | (_, .abandonAll) => ∀ c, (w.runAt c).isSome → ∃ runId, (w.execOf runId c).isSome

/-! ### The handles that are not ended -/

/-- The handles that the tracker has for the cells of its runs are those that were not ended. -/
structure Inv (w : Editor O) : Prop where
  live : ∀ r c n, w.execOf r c = some n → ∃ h, w.handles[n]? = some h ∧ h.runId = r ∧ h.cellId = c ∧
    h.ended = false ∧ (h.begun → c ∈ (w.state r).started)
  held : ∀ n h, w.handles[n]? = some h → h.ended = false → w.execOf h.runId h.cellId = some n
  orderly : ∀ h ∈ w.handles, h.Orderly

/-- A run is settled where the tracker has no handle for it, and no cell is marked with it. -/
theorem Inv.settled_iff {w : Editor O} (hw : w.Inv) :
    w.Settled r ↔ (∀ c, w.execOf r c = none) ∧ ∀ c, w.runAt c ≠ some r := by
  refine and_congr_left fun _ ↦ ⟨fun h c ↦ ?_, fun h hd hmem hr ↦ ?_⟩
  · cases hexec : w.execOf r c with
    | none => rfl
    | some n =>
      obtain ⟨hd, hn, hr, -, hended, -⟩ := hw.live r c n hexec
      have hmem := List.mem_of_getElem? hn
      have hone := h hd hmem hr
      rw [(hw.orderly hd hmem).ends, hended] at hone
      cases hone
  · rw [(hw.orderly hd hmem).ends]
    cases hended : hd.ended with
    | true => rfl
    | false =>
      obtain ⟨n, hn⟩ := List.mem_iff_getElem?.1 hmem
      have hexec := hw.held n hd hn hended
      rw [hr, h] at hexec
      cases hexec

/-! ### What the parts of a call do -/

@[simp] theorem state_change (w : Editor O) (runId : String) (f : RunState → RunState)
    (r : String) :
    (w.change runId f).state r = if r = runId then f (w.state runId) else w.state r := by
  rw [change, state]
  split
  case isTrue h =>
    subst h
    rw [AList.lookup_insert]
    rfl
  case isFalse h =>
    rw [AList.lookup_insert_ne h]
    rfl

@[simp] theorem state_tell (w : Editor O) (n : ℕ) (t : Told O) (r : String) :
    (w.tell n t).state r = w.state r := rfl

theorem runAt_attribution (w : Editor O) (c : String) (info : Option RunInfo) (d : String) :
    (w.attribution c info).runAt d = if d = c then info.map RunInfo.runId else w.runAt d := by
  change Option.map RunInfo.runId (Function.update w.attributed c info d) = _
  rw [Function.update_apply, apply_ite (Option.map RunInfo.runId)]
  rfl

/-- `run` leaves what is known of the cells as it is. -/
theorem state_run (w : Editor O) (me runId : String) (startedBy : Option Attribution) (r : String) :
    ((w.run me runId startedBy).state r).execs = (w.state r).execs ∧
      ((w.run me runId startedBy).state r).started = (w.state r).started ∧
      ((w.run me runId startedBy).state r).indexes = (w.state r).indexes := by
  by_cases hr : r = runId
  · subst hr
    rw [run, state, state]
    cases hlookup : w.runs.lookup r with
    | none =>
      dsimp only
      rw [AList.lookup_insert]
      exact ⟨rfl, rfl, rfl⟩
    | some st =>
      dsimp only
      split
      · rw [AList.lookup_insert]
        exact ⟨rfl, rfl, rfl⟩
      · rw [hlookup]
        exact ⟨rfl, rfl, rfl⟩
  · have hsame : (w.run me runId startedBy).state r = w.state r := by
      rw [run, state, state]
      split
      · dsimp only
        rw [AList.lookup_insert_ne hr]
      · split
        · dsimp only
          rw [AList.lookup_insert_ne hr]
        · rfl
    rw [hsame]
    exact ⟨rfl, rfl, rfl⟩

/-- What a part of a call does that is about one run: the invariant is kept, the handles of the
other runs stay, and no cell is marked with another run. -/
structure Goes (runId : String) (w w' : Editor O) : Prop where
  inv : w.Inv → w'.Inv
  execs : ∀ r ≠ runId, ∀ c, w'.execOf r c = w.execOf r c
  marks : ∀ c, ∀ r ≠ runId, w'.runAt c = some r → w.runAt c = some r

namespace Goes

variable {runId : String} {w w' w'' : Editor O}

theorem refl (runId : String) (w : Editor O) : Goes runId w w :=
  ⟨id, fun _ _ _ ↦ rfl, fun _ _ _ h ↦ h⟩

theorem trans (h : Goes runId w w') (h' : Goes runId w' w'') : Goes runId w w'' :=
  ⟨fun hw ↦ h'.inv (h.inv hw), fun r hr c ↦ (h'.execs r hr c).trans (h.execs r hr c),
    fun c r hr hc ↦ h.marks c r hr (h'.marks c r hr hc)⟩

theorem foldl {α : Type} {f : Editor O → α → Editor O} (hf : ∀ w a, Goes runId w (f w a))
    (as : List α) (w : Editor O) : Goes runId w (as.foldl f w) := by
  induction as generalizing w with
  | nil => exact refl runId w
  | cons a as ih => exact (hf w a).trans (ih _)

/-- The run and what the calls before were do not matter. -/
theorem flags (h : Goes runId w w') (closed : List String) (abandoned : Bool) :
    Goes runId w { w' with closed := closed, abandoned := abandoned } :=
  ⟨fun hw ↦ ⟨(h.inv hw).live, (h.inv hw).held, (h.inv hw).orderly⟩, h.execs, h.marks⟩

theorem settled (h : Goes runId w w') (hw : w.Inv) (hr : r ≠ runId)
    (hs : w.Settled r) : w'.Settled r := by
  obtain ⟨hexecs, hmarks⟩ := hw.settled_iff.1 hs
  exact (h.inv hw).settled_iff.2 ⟨fun c ↦ (h.execs r hr c).trans (hexecs c),
    fun c hc ↦ hmarks c (h.marks c r hr hc)⟩

/-- A part that touches neither the editor nor the handles the tracker has. -/
theorem of_same (hhandles : w'.handles = w.handles) (hexecs : ∀ r c, w'.execOf r c = w.execOf r c)
    (hstarted : ∀ r, (w.state r).started ⊆ (w'.state r).started)
    (hmarks : ∀ c, ∀ r ≠ runId, w'.runAt c = some r → w.runAt c = some r) : Goes runId w w' where
  inv hw :=
    { live := fun r c n hn ↦ by
        obtain ⟨hd, hm, hr, hc, hended, hbegun⟩ := hw.live r c n (hexecs r c ▸ hn)
        exact ⟨hd, hhandles ▸ hm, hr, hc, hended, fun h ↦ hstarted r (hbegun h)⟩
      held := fun n hd hn hended ↦ by
        rw [hexecs]
        exact hw.held n hd (hhandles ▸ hn) hended
      orderly := hhandles ▸ hw.orderly }
  execs r _ c := hexecs r c
  marks := hmarks

end Goes

theorem goes_run (w : Editor O) (me runId : String) (startedBy : Option Attribution) :
    Goes runId w (w.run me runId startedBy) := by
  have hsame : (w.run me runId startedBy).handles = w.handles ∧
      (w.run me runId startedBy).attributed = w.attributed := by
    rw [run]
    split
    · exact ⟨rfl, rfl⟩
    · split <;> exact ⟨rfl, rfl⟩
  refine .of_same hsame.1 (fun r c ↦ ?_) (fun r ↦ ?_) fun c r _ h ↦ ?_
  · rw [execOf, (state_run w me runId startedBy r).1]
    rfl
  · rw [(state_run w me runId startedBy r).2.1]
    exact List.Subset.refl _
  · rwa [runAt, hsame.2] at h

/-- A change of the run that leaves its cells as they are. -/
theorem goes_change (w : Editor O) (runId : String) {f : RunState → RunState}
    (hexecs : ∀ r, (f r).execs = r.execs) (hstarted : ∀ r, r.started ⊆ (f r).started) :
    Goes runId w (w.change runId f) := by
  refine .of_same rfl (fun r c ↦ ?_) (fun r ↦ ?_) fun c r _ h ↦ h
  · rw [execOf, state_change]
    split
    case isTrue h => rw [hexecs, h]; rfl
    case isFalse => rfl
  · rw [state_change]
    split
    case isTrue h => exact h ▸ hstarted _
    case isFalse => exact List.Subset.refl _

theorem goes_attribution (w : Editor O) {runId : String} (c : String) {info : Option RunInfo}
    (hinfo : ∀ i ∈ info, i.runId = runId) : Goes runId w (w.attribution c info) := by
  refine .of_same rfl (fun _ _ ↦ rfl) (fun _ ↦ List.Subset.refl _) fun d r hr h ↦ ?_
  rw [runAt_attribution] at h
  split at h
  · obtain ⟨i, hi, rfl⟩ := Option.map_eq_some_iff.1 h
    exact absurd (hinfo i hi) hr
  · exact h

theorem execOf_change (w : Editor O) (runId : String) (f : RunState → RunState) (r c : String) :
    (w.change runId f).execOf r c =
      if r = runId then (f (w.state runId)).execs.lookup c else w.execOf r c := by
  rw [execOf, state_change]
  split <;> rfl

theorem handles_tell (w : Editor O) (n : ℕ) (t : Told O) (m : ℕ) :
    (w.tell n t).handles[m]? =
      (w.handles[m]?).map fun h ↦ if m = n then { h with told := h.told ++ [t] } else h := by
  rw [tell, List.getElem?_modify]
  cases w.handles[m]? with
  | none => rfl
  | some h =>
    by_cases hm : n = m
    · simp [hm]
    · simp [hm, Ne.symm hm]

/-- A handle that the tracker has is told something that is not its end. -/
theorem Inv.tell {w : Editor O} (hw : w.Inv) (hn : w.execOf r c = some n) {t : Told O}
    (hfinish : t.isFinish = false)
    (hstart : ∀ h, w.handles[n]? = some h → t.isStart → h.begun = false ∧ c ∈ (w.state r).started) :
    (w.tell n t).Inv := by
  obtain ⟨hd₀, hn₀, rfl, rfl, hended₀, -⟩ := hw.live r c n hn
  refine ⟨fun r' c' m hm ↦ ?_, fun m h hm hended ↦ ?_, fun h hmem ↦ ?_⟩
  · obtain ⟨hd, hm', rfl, rfl, hended, hbegun⟩ := hw.live r' c' m hm
    rw [handles_tell, hm']
    by_cases hmn : m = n
    · subst hmn
      obtain rfl := Option.some.inj (hm'.symm.trans hn₀)
      refine ⟨{ hd with told := hd.told ++ [t] }, by rw [Option.map_some, if_pos rfl], rfl, rfl,
        by simp [hended, hfinish], ?_⟩
      rw [ExecHandle.begun_concat, Bool.or_eq_true]
      rintro (h | h)
      · exact hbegun h
      · exact (hstart _ hm' h).2
    · exact ⟨hd, by rw [Option.map_some, if_neg hmn], rfl, rfl, hended, hbegun⟩
  · rw [handles_tell] at hm
    obtain ⟨hd, hm', rfl⟩ := Option.map_eq_some_iff.1 hm
    split at hended
    case isTrue hmn =>
      subst hmn
      rw [if_pos rfl]
      rw [ExecHandle.ended_concat, Bool.or_eq_false_iff] at hended
      exact hw.held m hd hm' hended.1
    case isFalse hmn =>
      rw [if_neg hmn]
      exact hw.held m hd hm' hended
  · obtain ⟨m, hm⟩ := List.mem_iff_getElem?.1 hmem
    rw [handles_tell] at hm
    obtain ⟨hd, hm', rfl⟩ := Option.map_eq_some_iff.1 hm
    have hord := hw.orderly hd (List.mem_of_getElem? hm')
    split
    case isTrue hmn =>
      subst hmn
      obtain rfl := Option.some.inj (hm'.symm.trans hn₀)
      exact hord.concat hended₀ fun ht ↦ (hstart _ hm' ht).1
    case isFalse => exact hord

section

variable (w : Editor O)

/-- Telling a handle of the run something that is neither its start nor its end. -/
theorem goes_tell {runId : String} (hn : w.execOf runId c = some n) {t : Told O}
    (hstart : t.isStart = false) (hfinish : t.isFinish = false) :
    Goes runId w (w.tell n t) :=
  ⟨fun hw ↦ hw.tell hn hfinish fun _ _ ht ↦ absurd ht (by simp [hstart]), fun _ _ _ ↦ rfl,
    fun _ _ _ h ↦ h⟩

theorem execOf_create (sight : Sight) (runId cellId r c : String) :
    (w.create sight runId cellId).execOf r c =
      if r = runId ∧ c = cellId ∧ w.execOf runId cellId = none ∧ sight.shows cellId then
        some w.handles.length
      else w.execOf r c := by
  rw [create]
  split
  case h_1 n hn =>
    have hsome : w.execOf runId cellId = some n := hn
    simp [hsome]
  case h_2 hn =>
    have hnone : w.execOf runId cellId = none := hn
    split
    case isTrue hshows =>
      rw [execOf_change]
      by_cases hr : r = runId
      · by_cases hc : c = cellId
        · rw [if_pos hr, if_pos ⟨hr, hc, hnone, hshows⟩, hc]
          exact AList.lookup_insert _
        · rw [if_pos hr, if_neg fun h ↦ hc h.2.1, hr]
          exact AList.lookup_insert_ne hc
      · rw [if_neg hr, if_neg fun h ↦ hr h.1]
        rfl
    case isFalse hshows => rw [if_neg fun h ↦ hshows h.2.2.2]

theorem started_create (sight : Sight) (runId cellId r : String) :
    ((w.create sight runId cellId).state r).started = (w.state r).started := by
  rw [create]
  split
  · rfl
  · split
    · rw [state_change]
      split
      case isTrue hr => rw [hr]; rfl
      case isFalse => rfl
    · rfl

theorem handles_create (sight : Sight) (runId cellId : String) :
    (w.create sight runId cellId).handles =
      if w.execOf runId cellId = none ∧ sight.shows cellId then
        w.handles ++ [⟨runId, cellId, []⟩]
      else w.handles := by
  rw [create]
  split
  case h_1 n hn =>
    have hsome : w.execOf runId cellId = some n := hn
    simp [hsome]
  case h_2 hn =>
    have hnone : w.execOf runId cellId = none := hn
    split
    case isTrue hshows => rw [if_pos ⟨hnone, hshows⟩]; rfl
    case isFalse hshows => rw [if_neg fun h ↦ hshows h.2]

theorem attributed_create (sight : Sight) (runId cellId : String) :
    (w.create sight runId cellId).attributed = w.attributed := by
  rw [create]
  split
  · rfl
  · split <;> rfl

/-- The handle of a cell is created. -/
theorem goes_create (sight : Sight) (runId cellId : String) :
    Goes runId w (w.create sight runId cellId) := by
  by_cases hmade : w.execOf runId cellId = none ∧ sight.shows cellId
  case neg =>
    refine .of_same ?_ (fun r c ↦ ?_) (fun r ↦ ?_) fun c r _ h ↦ ?_
    · rw [handles_create, if_neg hmade]
    · rw [execOf_create, if_neg fun h ↦ hmade h.2.2]
    · rw [started_create]
      exact List.Subset.refl _
    · rwa [runAt, attributed_create] at h
  case pos =>
    have hexec (r c : String) : (w.create sight runId cellId).execOf r c =
        if r = runId ∧ c = cellId then some w.handles.length else w.execOf r c := by
      rw [execOf_create]
      simp only [hmade, and_true]
    have hhandles : (w.create sight runId cellId).handles = w.handles ++ [⟨runId, cellId, []⟩] := by
      rw [handles_create, if_pos hmade]
    refine ⟨fun hw ↦ ⟨fun r c n hn ↦ ?_, fun n h hn hended ↦ ?_, fun h hmem ↦ ?_⟩,
      fun r hr c ↦ by rw [hexec, if_neg fun h ↦ hr h.1], fun c r _ h ↦ ?_⟩
    · rw [hexec] at hn
      rw [hhandles, started_create]
      split at hn
      case isTrue hnew =>
        obtain ⟨rfl, rfl⟩ := hnew
        obtain rfl := Option.some.inj hn
        exact ⟨_, List.getElem?_concat_length, rfl, rfl, rfl, fun h ↦ (by cases h)⟩
      case isFalse =>
        obtain ⟨hd, hd', hrest⟩ := hw.live r c n hn
        refine ⟨hd, ?_, hrest⟩
        rw [List.getElem?_append_left (List.getElem?_eq_some_iff.1 hd').1, hd']
    · rw [hhandles] at hn
      rw [hexec]
      rw [List.getElem?_append] at hn
      split at hn
      case isTrue =>
        have hheld := hw.held n h hn hended
        rw [if_neg, hheld]
        rintro ⟨hr, hc⟩
        rw [hr, hc, hmade.1] at hheld
        cases hheld
      case isFalse hlen =>
        obtain ⟨hzero, rfl⟩ := List.getElem?_eq_some_iff.1 hn
        rw [List.length_singleton] at hzero
        rw [if_pos (by simp)]
        congr 1
        omega
    · rw [hhandles, List.mem_append, List.mem_singleton] at hmem
      obtain hmem | rfl := hmem
      · exact hw.orderly h hmem
      · exact ⟨Nat.zero_le _, fun t ht ↦ (by cases ht)⟩
    · rwa [runAt, attributed_create] at h

theorem execOf_start (runId cellId : String) (count : Option ℕ) (r c : String) :
    (w.start runId cellId count).execOf r c = w.execOf r c := by
  rw [start]
  split
  · rw [execOf, state_tell, ← execOf, execOf_change]
    split
    case isTrue h => rw [h]; rfl
    case isFalse => rfl
  · rfl

/-- The handle of a cell is started. -/
theorem goes_start (runId cellId : String) (count : Option ℕ) :
    Goes runId w (w.start runId cellId count) := by
  rw [start]
  split
  case h_2 => exact .refl _ _
  case h_1 n hn =>
    rw [startable] at hn
    split at hn
    · cases hn
    case isFalse hnew =>
      have hexec : w.execOf runId cellId = some n := hn
      have hchange := goes_change w runId (f := fun r ↦ { r with started := cellId :: r.started })
        (fun _ ↦ rfl) fun _ ↦ List.subset_cons_self _ _
      refine ⟨fun hw ↦ (hchange.inv hw).tell (r := runId) (c := cellId) ?_ rfl fun h hm _ ↦ ?_,
        hchange.execs, hchange.marks⟩
      · rw [execOf_change, if_pos rfl]
        exact hexec
      · obtain ⟨hd, hm', -, -, -, hbegun⟩ := hw.live _ _ _ hexec
        obtain rfl := Option.some.inj (hm'.symm.trans hm)
        refine ⟨Bool.eq_false_iff.2 fun h ↦ hnew (hbegun h), ?_⟩
        rw [state_change, if_pos rfl]
        exact List.mem_cons_self

end

/-! ### Executions that are ended -/

theorem endExecs_cons (w : Editor O) (e : Σ _ : String, ℕ) (execs : List (Σ _ : String, ℕ))
    (status : String → Option String) : w.endExecs (e :: execs) status =
      ((w.tell e.2 (.finish (status e.1))).attribution e.1 none).endExecs execs status := rfl

theorem runAt_endExecs (w : Editor O) (execs : List (Σ _ : String, ℕ))
    (status : String → Option String) (c : String) :
    (w.endExecs execs status).runAt c =
      if c ∈ execs.map Sigma.fst then none else w.runAt c := by
  induction execs generalizing w with
  | nil => rfl
  | cons e execs ih =>
    rw [endExecs_cons, ih, runAt_attribution, List.map_cons]
    by_cases hc : c ∈ execs.map Sigma.fst
    · rw [if_pos hc, if_pos (List.mem_cons_of_mem _ hc)]
    · by_cases he : c = e.1
      · rw [if_neg hc, if_pos he, if_pos (he ▸ List.mem_cons_self)]
        rfl
      · rw [if_neg hc, if_neg he, if_neg (by simpa using ⟨he, by simpa using hc⟩)]
        rfl

theorem handles_endExecs (w : Editor O) {execs : List (Σ _ : String, ℕ)}
    (hnodup : (execs.map Sigma.snd).Nodup) (status : String → Option String) (m : ℕ) :
    (w.endExecs execs status).handles[m]? = (w.handles[m]?).map fun h ↦
      match execs.find? (·.2 == m) with
      | some e => { h with told := h.told ++ [.finish (status e.1)] }
      | none => h := by
  induction execs generalizing w with
  | nil => simp [endExecs]
  | cons e execs ih =>
    obtain ⟨hnew, hnodup⟩ := List.nodup_cons.1 hnodup
    rw [endExecs_cons, ih _ hnodup]
    change Option.map _ ((w.tell e.2 (.finish (status e.1))).handles[m]?) = _
    rw [handles_tell, Option.map_map]
    congr 1
    funext h
    by_cases hm : e.2 = m
    · have hnone : execs.find? (·.2 == m) = none := by
        rw [List.find?_eq_none]
        intro e' he' h
        exact hnew (List.mem_map.2 ⟨e', he', (beq_iff_eq.1 h).trans hm.symm⟩)
      simp [hm, hnone]
    · simp [hm, Ne.symm hm]

/-- Handles that the tracker has are ended, and it does not keep them. -/
theorem Inv.endExecs {w w' : Editor O} (hw : w.Inv) {execs : List (Σ _ : String, ℕ)}
    {status : String → Option String} (hnodup : (execs.map Sigma.snd).Nodup)
    (hexecs : ∀ e ∈ execs, ∃ r, w.execOf r e.1 = some e.2)
    (hhandles : w'.handles = (w.endExecs execs status).handles)
    (hlive : ∀ r c n, w'.execOf r c = some n → w.execOf r c = some n ∧ n ∉ execs.map Sigma.snd ∧
      (w'.state r).started = (w.state r).started)
    (hheld : ∀ r c n, w.execOf r c = some n → n ∈ execs.map Sigma.snd ∨ w'.execOf r c = some n) :
    w'.Inv := by
  have hnot {n : ℕ} (hn : n ∉ execs.map Sigma.snd) : execs.find? (·.2 == n) = none := by
    rw [List.find?_eq_none]
    exact fun e he h ↦ hn (List.mem_map.2 ⟨e, he, beq_iff_eq.1 h⟩)
  refine ⟨fun r c n hn ↦ ?_, fun n h hn hended ↦ ?_, fun h hmem ↦ ?_⟩
  · obtain ⟨hexec, hgone, hstarted⟩ := hlive r c n hn
    obtain ⟨hd, hm, hr, hc, hended, hbegun⟩ := hw.live r c n hexec
    refine ⟨hd, ?_, hr, hc, hended, hstarted ▸ hbegun⟩
    rw [hhandles, handles_endExecs w hnodup, hm, hnot hgone]
    rfl
  · rw [hhandles, handles_endExecs w hnodup] at hn
    obtain ⟨hd, hm, rfl⟩ := Option.map_eq_some_iff.1 hn
    cases hfind : execs.find? (·.2 == n) with
    | some e => simp [hfind, Told.isFinish] at hended
    | none =>
      rw [hfind] at hended
      obtain hgone | hexec := hheld _ _ _ (hw.held n hd hm hended)
      · obtain ⟨e, he, hen⟩ := List.mem_map.1 hgone
        exact absurd (beq_iff_eq.2 hen) (by simpa using List.find?_eq_none.1 hfind e he)
      · exact hexec
  · obtain ⟨n, hn⟩ := List.mem_iff_getElem?.1 hmem
    rw [hhandles, handles_endExecs w hnodup] at hn
    obtain ⟨hd, hm, rfl⟩ := Option.map_eq_some_iff.1 hn
    have hord := hw.orderly hd (List.mem_of_getElem? hm)
    cases hfind : execs.find? (·.2 == n) with
    | none => exact hord
    | some e =>
      obtain rfl : e.2 = n := by simpa using List.find?_some hfind
      obtain ⟨r, hexec⟩ := hexecs e (List.mem_of_find?_eq_some hfind)
      obtain ⟨hd', hm', -, -, hended, -⟩ := hw.live r e.1 e.2 hexec
      obtain rfl := Option.some.inj (hm'.symm.trans hm)
      exact hord.concat hended fun ht ↦ (by cases ht)

/-- A handle is that of one cell of one run. -/
theorem Inv.execOf_inj {w : Editor O} (hw : w.Inv) {r' c' : String} (h : w.execOf r c = some n)
    (h' : w.execOf r' c' = some n) : r = r' ∧ c = c' := by
  obtain ⟨hd, hm, rfl, rfl, -, -⟩ := hw.live r c n h
  obtain ⟨hd', hm', rfl, rfl, -, -⟩ := hw.live r' c' n h'
  obtain rfl := Option.some.inj (hm'.symm.trans hm)
  exact ⟨rfl, rfl⟩

theorem mem_execs_iff {w : Editor O} :
    ⟨c, n⟩ ∈ (w.state r).execs.entries ↔ w.execOf r c = some n :=
  AList.mem_lookup_iff.symm

/-- The handles of the cells of a run differ. -/
theorem Inv.nodup_execs {w : Editor O} (hw : w.Inv) (r : String) :
    ((w.state r).execs.entries.map Sigma.snd).Nodup := by
  refine List.Nodup.map_on (fun e he e' he' h ↦ ?_)
    (List.NodupKeys.nodup (w.state r).execs.nodupKeys)
  obtain ⟨-, hc⟩ := hw.execOf_inj (mem_execs_iff.1 he) (h ▸ mem_execs_iff.1 he')
  exact Sigma.ext hc (heq_of_eq h)

/-! ### The calls -/

section

variable (w : Editor O)

theorem goes_expectCell (sight : Sight) (runId : String) (startedBy : Attribution)
    (cellId : String) : Goes runId w (w.expectCell sight runId startedBy cellId) := by
  rw [expectCell]
  split
  · exact .refl _ _
  · refine (goes_create w sight runId cellId).trans (goes_attribution _ cellId fun i hi ↦ ?_)
    rw [← Option.some.inj hi]

theorem goes_expect (me : String) (sight : Sight) (runId : String)
    (cellIds : List String) (startedBy : Attribution) :
    Goes runId w (w.expect me sight runId cellIds startedBy) := by
  refine ((goes_run w me runId _).trans (goes_change _ runId ?_ ?_)).trans (.foldl ?_ _ _)
  · exact fun _ ↦ rfl
  · exact fun _ ↦ List.Subset.refl _
  · exact fun w ↦ w.goes_expectCell sight runId startedBy

theorem goes_queueCell (sight : Sight) (runId : String) (index : ℕ) :
    Goes runId w (w.queueCell sight runId index) := by
  rw [queueCell]
  split
  · split
    · exact .refl _ _
    · exact goes_attribution _ _ fun i hi ↦ by rw [← Option.some.inj hi]; rfl
  · exact .refl _ _

theorem goes_startCell (sight : Sight) (runId cellId : String) (index : ℕ)
    (count : Option ℕ) : Goes runId w (w.startCell sight runId cellId index count) := by
  have hchange := goes_change w runId
    (f := fun r ↦ { r with indexes := Function.update r.indexes index (some cellId) })
    (fun _ ↦ rfl) fun _ ↦ List.Subset.refl _
  refine ((hchange.trans (goes_create _ sight runId cellId)).trans
    (goes_start _ runId cellId count)).trans (goes_attribution _ cellId fun i hi ↦ ?_)
  rw [← Option.some.inj hi]
  rfl

theorem goes_exec (sight : Sight) (runId cellId : String) {t : Told O}
    (hstart : t.isStart = false) (hfinish : t.isFinish = false) :
    Goes runId w (w.exec sight runId cellId t) := by
  rw [exec]
  set begun := if ((w.create sight runId cellId).startable runId cellId).isSome then
    ((w.create sight runId cellId).start runId cellId none).attribution cellId
      (some ((w.create sight runId cellId).info runId .running))
    else w.create sight runId cellId with hbegun
  have hgoes : Goes runId w begun := by
    rw [hbegun]
    split
    · refine ((goes_create w sight runId cellId).trans (goes_start _ runId cellId none)).trans
        (goes_attribution _ cellId fun i hi ↦ ?_)
      rw [← Option.some.inj hi]
      rfl
    · exact goes_create w sight runId cellId
  split
  case h_1 n hn => exact hgoes.trans (goes_tell _ hn hstart hfinish)
  case h_2 => exact hgoes

theorem state_endExec (runId cellId : String) (status : Option String) :
    (w.endExec runId cellId status).state = w.state := by
  rw [endExec]
  split <;> rfl

theorem state_finishCell (runId cellId : String) (status : Option String)
    (r : String) : (w.finishCell runId cellId status).state r =
      if r = runId then { w.state r with execs := (w.state r).execs.erase cellId }
      else w.state r := by
  have hsame : (w.finishCell runId cellId status).state r =
      ((w.endExec runId cellId status).change runId fun r ↦
        { r with execs := r.execs.erase cellId }).state r := rfl
  rw [hsame, state_change, state_endExec]
  split
  case isTrue hr => rw [hr]
  case isFalse => rfl

theorem execOf_finishCell (runId cellId : String) (status : Option String)
    (r c : String) : (w.finishCell runId cellId status).execOf r c =
      if r = runId ∧ c = cellId then none else w.execOf r c := by
  rw [execOf, state_finishCell]
  by_cases hr : r = runId
  · rw [if_pos hr]
    by_cases hc : c = cellId
    · rw [if_pos ⟨hr, hc⟩, hc]
      exact AList.lookup_erase _ _
    · rw [if_neg fun h ↦ hc h.2]
      exact AList.lookup_erase_ne hc
  · rw [if_neg hr, if_neg fun h ↦ hr h.1]
    rfl

theorem started_finishCell (runId cellId : String) (status : Option String) (r : String) :
    ((w.finishCell runId cellId status).state r).started = (w.state r).started := by
  rw [state_finishCell]
  split <;> rfl

theorem runAt_finishCell (runId cellId : String) (status : Option String)
    (c : String) : (w.finishCell runId cellId status).runAt c =
      if c = cellId then none else w.runAt c := by
  have hsame : (w.finishCell runId cellId status).runAt c =
      ((w.endExec runId cellId status).attribution cellId none).runAt c := rfl
  rw [hsame, runAt_attribution, endExec]
  split
  · rfl
  · split <;> rfl

theorem handles_finishCell (runId cellId : String) (status : Option String) :
    (w.finishCell runId cellId status).handles = (w.endExec runId cellId status).handles := rfl

/-- The handle of the cell is ended, if there is one, and the cell is not marked any more. -/
theorem goes_finishCell (runId cellId : String) (status : Option String) :
    Goes runId w (w.finishCell runId cellId status) := by
  have hmarks : ∀ c, ∀ r ≠ runId, (w.finishCell runId cellId status).runAt c = some r →
      w.runAt c = some r := by
    intro c r _ h
    rw [runAt_finishCell] at h
    split at h
    · cases h
    · exact h
  cases hexec : w.execOf runId cellId with
  | none =>
    refine .of_same ?_ (fun r c ↦ ?_) (fun r ↦ ?_) hmarks
    · rw [handles_finishCell, endExec, show (w.state runId).execs.lookup cellId = none from hexec]
    · rw [execOf_finishCell]
      split
      case isTrue h => rw [h.1, h.2, hexec]
      case isFalse => rfl
    · rw [started_finishCell]
      exact List.Subset.refl _
  | some n =>
    refine ⟨fun hw ↦ ?_, fun r hr c ↦ ?_, hmarks⟩
    · refine @Inv.endExecs O w _ hw [⟨cellId, n⟩] (fun _ ↦ status) (by simp)
        (by simpa using ⟨runId, hexec⟩) ?_ (fun r c m hm ↦ ?_) fun r c m hm ↦ ?_
      · rw [handles_finishCell, endExec,
          show (w.state runId).execs.lookup cellId = some n from hexec]
        rfl
      · rw [execOf_finishCell] at hm
        split at hm
        · cases hm
        case isFalse hne =>
          refine ⟨hm, fun h ↦ hne ?_, started_finishCell ..⟩
          obtain rfl : m = n := by simpa using h
          exact hw.execOf_inj hm hexec
      · rw [execOf_finishCell]
        split
        case isTrue h =>
          rw [h.1, h.2, hexec] at hm
          exact .inl (by simpa using (Option.some.inj hm).symm)
        case isFalse => exact .inr hm
    · rw [execOf_finishCell, if_neg fun h ↦ hr h.1]

theorem state_finishRun (runId : String) (status : Option String)
    (hr : r ≠ runId) : (w.finishRun runId status).state r = w.state r := by
  rw [state, finishRun]
  dsimp only
  rw [AList.lookup_erase_ne hr]
  rfl

theorem execOf_finishRun (runId : String) (status : Option String) (r c : String) :
    (w.finishRun runId status).execOf r c = if r = runId then none else w.execOf r c := by
  split
  case isTrue hr =>
    rw [execOf, state, finishRun]
    dsimp only
    rw [hr, AList.lookup_erase]
    rfl
  case isFalse hr =>
    rw [execOf, state_finishRun w runId status hr]
    rfl

theorem runAt_finishRun (runId : String) (status : Option String) (c : String) :
    (w.finishRun runId status).runAt c =
      if (w.execOf runId c).isSome then none else w.runAt c := by
  have hsame : (w.finishRun runId status).runAt c = (w.endExecs (w.state runId).execs.entries
    fun id ↦ if id ∈ (w.state runId).started then status else some "cancelled").runAt c := rfl
  have hkeys : c ∈ (w.state runId).execs.entries.map Sigma.fst ↔ (w.execOf runId c).isSome :=
    AList.lookup_isSome.symm
  rw [hsame, runAt_endExecs]
  simp only [hkeys]

/-- The handles of a run are ended, and its cells are not marked any more. -/
theorem goes_finishRun (runId : String) (status : Option String) :
    Goes runId w (w.finishRun runId status) := by
  refine ⟨fun hw ↦ ?_, fun r hr c ↦ ?_, fun c r _ h ↦ ?_⟩
  · refine hw.endExecs (hw.nodup_execs runId)
      (fun e he ↦ ⟨runId, mem_execs_iff.1 he⟩) rfl (fun r c n hn ↦ ?_) fun r c n hn ↦ ?_
    · rw [execOf_finishRun] at hn
      split at hn
      · cases hn
      case isFalse hr =>
        refine ⟨hn, fun hgone ↦ hr ?_, by rw [state_finishRun w runId status hr]⟩
        obtain ⟨e, he, rfl⟩ := List.mem_map.1 hgone
        exact (hw.execOf_inj hn (mem_execs_iff.1 he)).1
    · rw [execOf_finishRun]
      split
      case isTrue hr =>
        subst hr
        exact .inl (List.mem_map.2 ⟨⟨c, n⟩, mem_execs_iff.2 hn, rfl⟩)
      case isFalse => exact .inr hn
  · rw [execOf_finishRun, if_neg hr]
  · rw [runAt_finishRun] at h
    split at h
    · cases h
    · exact h

/-- Every event goes about its run. -/
theorem goes_handleRun (me : String) (sight : Sight) (runId : String)
    (ev : KernelEvent O) : Goes runId w (w.handleRun me sight runId ev) := by
  have hqueue := (goes_run w me runId ev.startedBy).trans
    (.foldl (fun w ↦ w.goes_queueCell sight runId) ev.cells _)
  rw [handleRun]
  cases ev.type with dsimp only
  | runQueued | runStarted => exact hqueue
  | cellStarted =>
    refine (goes_run w me runId ev.startedBy).trans ?_
    split
    · exact goes_startCell _ sight runId _ _ _
    · exact .refl _ _
  | output | outputClear =>
    refine (goes_run w me runId none).trans ?_
    split
    · exact goes_exec _ sight runId _ rfl rfl
    · exact .refl _ _
  | cellFinished =>
    split
    · exact goes_finishCell w runId _ _
    · exact .refl _ _
  | runFinished =>
    split
    · exact goes_finishRun w runId _
    · exact .refl _ _

end

/-- The executions of all runs. -/
def allExecs (w : Editor O) : List (Σ _ : String, ℕ) :=
  w.runs.entries.flatMap fun e ↦ e.2.execs.entries

theorem mem_allExecs {w : Editor O} :
    ⟨c, n⟩ ∈ w.allExecs ↔ ∃ r, w.execOf r c = some n := by
  rw [allExecs, List.mem_flatMap]
  constructor
  · rintro ⟨e, he, hmem⟩
    have hlookup : w.runs.lookup e.1 = some e.2 := AList.mem_lookup_iff.2 he
    refine ⟨e.1, mem_execs_iff.1 ?_⟩
    rwa [state, hlookup]
  · rintro ⟨r, hr⟩
    rw [execOf, state] at hr
    cases hlookup : w.runs.lookup r with
    | none => simp [hlookup] at hr
    | some st =>
      rw [hlookup] at hr
      exact ⟨⟨r, st⟩, AList.mem_lookup_iff.1 hlookup, AList.mem_lookup_iff.1 hr⟩

theorem endExecs_flatMap (es : List (Σ _ : String, RunState)) (status : String → Option String)
    (w : Editor O) : es.foldl (fun w e ↦ w.endExecs e.2.execs.entries status) w =
      w.endExecs (es.flatMap fun e ↦ e.2.execs.entries) status := by
  induction es generalizing w with
  | nil => rfl
  | cons e es ih =>
    rw [List.foldl_cons, ih, List.flatMap_cons, endExecs, endExecs, endExecs, List.foldl_append]

theorem abandonAll_eq (w : Editor O) :
    w.abandonAll = { w.endExecs w.allExecs fun _ ↦ none with runs := ∅ } := by
  rw [abandonAll, endExecs_flatMap, allExecs]

/-- The handles of all cells differ. -/
theorem Inv.nodup_allExecs {w : Editor O} (hw : w.Inv) : (w.allExecs.map Sigma.snd).Nodup := by
  rw [allExecs, List.map_flatMap, List.nodup_flatMap]
  have hstate {e : Σ _ : String, RunState} (he : e ∈ w.runs.entries) : w.state e.1 = e.2 := by
    rw [state, AList.mem_lookup_iff.2 he]
    rfl
  refine ⟨fun e he ↦ hstate he ▸ hw.nodup_execs e.1, ?_⟩
  refine (List.nodupKeys_iff_pairwise.1 w.runs.nodupKeys).imp_of_mem fun {e e'} he he' hne ↦ ?_
  rintro n hn hn'
  obtain ⟨d, hd, rfl⟩ := List.mem_map.1 hn
  obtain ⟨d', hd', hdn⟩ := List.mem_map.1 hn'
  rw [← hstate he] at hd
  rw [← hstate he'] at hd'
  exact hne (hw.execOf_inj (mem_execs_iff.1 hd) (hdn ▸ mem_execs_iff.1 hd')).1

theorem inv_abandonAll {w : Editor O} (hw : w.Inv) : w.abandonAll.Inv := by
  rw [abandonAll_eq]
  refine hw.endExecs hw.nodup_allExecs (fun e he ↦ mem_allExecs.1 he) rfl
    (fun r c n hn ↦ (by cases hn)) fun r c n hn ↦ ?_
  exact .inl (List.mem_map.2 ⟨⟨c, n⟩, mem_allExecs.2 ⟨r, hn⟩, rfl⟩)

/-- **Handles are started and ended once**, whatever the calls are. -/
theorem Inv.step {w : Editor O} (hw : w.Inv) (me : String) (l : Sight × Call O) :
    (w.step me l).Inv := by
  obtain ⟨sight, ⟨runId, cellIds, startedBy⟩ | ev | _⟩ := l
  · exact ((goes_expect w me sight runId cellIds startedBy).flags _ false).inv hw
  · rw [Editor.step]
    split
    · exact ((Goes.refl "" w).flags w.closed false).inv hw
    case h_2 runId _ => exact ((goes_handleRun w me sight runId ev).flags _ false).inv hw
  · exact ⟨(inv_abandonAll hw).live, (inv_abandonAll hw).held, (inv_abandonAll hw).orderly⟩

/-! ### When the runs that have finished are settled -/

theorem execOf_run (w : Editor O) (me runId : String) (startedBy : Option Attribution)
    (r c : String) : (w.run me runId startedBy).execOf r c = w.execOf r c := by
  rw [execOf, (state_run w me runId startedBy r).1]
  rfl

theorem runAt_run (w : Editor O) (me runId : String) (startedBy : Option Attribution) (c : String) :
    (w.run me runId startedBy).runAt c = w.runAt c := by
  have hsame : (w.run me runId startedBy).attributed = w.attributed := by
    rw [run]
    split
    · rfl
    · split <;> rfl
  rw [runAt, hsame]
  rfl

theorem cellFor_run (w : Editor O) (me runId : String) (startedBy : Option Attribution)
    (sight : Sight) (r : String) (i : ℕ) :
    (w.run me runId startedBy).cellFor sight r i = w.cellFor sight r i := by
  rw [cellFor, (state_run w me runId startedBy r).2.2]
  rfl

theorem settled_run {w : Editor O} (hw : w.Inv) (me runId : String)
    (startedBy : Option Attribution) (r : String) :
    (w.run me runId startedBy).Settled r ↔ w.Settled r := by
  rw [((goes_run w me runId startedBy).inv hw).settled_iff, hw.settled_iff]
  simp only [execOf_run, runAt_run]

theorem runAt_expectCell (w : Editor O) (sight : Sight) (runId : String) (startedBy : Attribution)
    (cellId c : String) : (w.expectCell sight runId startedBy cellId).runAt c =
      if c = cellId ∧ w.execOf runId cellId = none then some runId else w.runAt c := by
  rw [expectCell]
  cases hexec : (w.state runId).execs.lookup cellId with
  | some n =>
    have hsome : w.execOf runId cellId = some n := hexec
    simp [hsome]
  | none =>
    have hnone : w.execOf runId cellId = none := hexec
    rw [if_neg (by simp), runAt_attribution]
    by_cases hc : c = cellId
    · rw [if_pos hc, if_pos ⟨hc, hnone⟩]
      rfl
    · rw [if_neg hc, if_neg fun h ↦ hc h.1, runAt, attributed_create]
      rfl

theorem runAt_expectCells (w : Editor O) (sight : Sight) {runId : String} (startedBy : Attribution)
    (cellIds : List String) (hc : w.runAt c = some runId) :
    (cellIds.foldl (fun w ↦ w.expectCell sight runId startedBy) w).runAt c = some runId := by
  induction cellIds generalizing w with
  | nil => exact hc
  | cons id cellIds ih =>
    refine ih _ ?_
    rw [runAt_expectCell, hc, ite_self]

/-- A cell that `expect` names is marked, if the tracker has no handle for the run. -/
theorem settled_expect {w : Editor O} (hw : w.Inv) (me : String) (sight : Sight) {runId : String}
    (cellIds : List String) (startedBy : Attribution) (hs : w.Settled runId) :
    (w.expect me sight runId cellIds startedBy).Settled runId ↔ cellIds = [] := by
  have hgoes := goes_expect w me sight runId cellIds startedBy
  obtain ⟨hexecs, hmarks⟩ := hw.settled_iff.1 hs
  rw [(hgoes.inv hw).settled_iff, expect]
  set known := (w.run me runId (some startedBy)).change runId fun r ↦ { r with mine := true }
    with hknown
  have hnone (c : String) : known.execOf runId c = none := by
    rw [hknown, execOf_change, if_pos rfl, ← hexecs c, ← execOf_run w me runId (some startedBy)]
    rfl
  have hsame (c : String) : known.runAt c = w.runAt c := runAt_run w me runId (some startedBy) c
  constructor
  · rintro ⟨-, hmarks'⟩
    cases cellIds with
    | nil => rfl
    | cons id cellIds =>
      refine absurd (runAt_expectCells _ sight startedBy cellIds ?_) (hmarks' id)
      rw [runAt_expectCell, if_pos ⟨rfl, hnone id⟩]
  · rintro rfl
    exact ⟨hnone, fun c ↦ by rw [List.foldl_nil, hsame]; exact hmarks c⟩

theorem state_queueCell (w : Editor O) (sight : Sight) (runId : String) (index : ℕ) :
    (w.queueCell sight runId index).state = w.state := by
  rw [queueCell]
  split
  · split <;> rfl
  · rfl

theorem runAt_queueCell (w : Editor O) (sight : Sight) (runId : String) (index : ℕ) (c : String) :
    (w.queueCell sight runId index).runAt c =
      if w.cellFor sight runId index = some c ∧ c ∉ (w.state runId).started then some runId
      else w.runAt c := by
  rw [queueCell]
  split
  case h_1 id hid =>
    by_cases hstarted : id ∈ (w.state runId).started
    · rw [if_pos hstarted, if_neg]
      rintro ⟨h, hc⟩
      obtain rfl := Option.some.inj (hid.symm.trans h)
      exact hc hstarted
    · rw [if_neg hstarted, runAt_attribution]
      by_cases hc : c = id
      · rw [if_pos hc, if_pos ⟨hc ▸ hid, hc ▸ hstarted⟩]
        rfl
      · rw [if_neg hc, if_neg fun h ↦ hc (Option.some.inj (h.1.symm.trans hid))]
  case h_2 hid => rw [if_neg fun h ↦ (by cases hid.symm.trans h.1)]

theorem runAt_queueCells (w : Editor O) (sight : Sight) (runId : String) (cells : List ℕ)
    (c : String) : (cells.foldl (fun w ↦ w.queueCell sight runId) w).runAt c =
      if ∃ i ∈ cells, w.cellFor sight runId i = some c ∧ c ∉ (w.state runId).started then some runId
      else w.runAt c := by
  induction cells generalizing w with
  | nil => simp
  | cons i cells ih =>
    have hcell (j : ℕ) : (w.queueCell sight runId i).cellFor sight runId j =
        w.cellFor sight runId j := by
      rw [cellFor, state_queueCell]
      rfl
    rw [List.foldl_cons, ih, runAt_queueCell, state_queueCell]
    simp only [hcell, List.mem_cons, exists_eq_or_imp]
    by_cases hrest : ∃ j ∈ cells, w.cellFor sight runId j = some c ∧ c ∉ (w.state runId).started
    · rw [if_pos hrest, if_pos (.inr hrest)]
    · rw [if_neg hrest]
      simp only [hrest, or_false]

theorem execOf_queueCells (w : Editor O) (sight : Sight) (runId : String) (cells : List ℕ)
    (r c : String) :
    (cells.foldl (fun w ↦ w.queueCell sight runId) w).execOf r c = w.execOf r c := by
  induction cells generalizing w with
  | nil => rfl
  | cons i cells ih =>
    rw [List.foldl_cons, ih, execOf, state_queueCell]
    rfl

/-- A cell of `run.queued` that was not started is marked. -/
theorem settled_queueCells {w : Editor O} (hw : w.Inv) (me : String) (sight : Sight)
    {runId : String} (startedBy : Option Attribution) (cells : List ℕ) (hs : w.Settled runId) :
    (cells.foldl (fun w ↦ w.queueCell sight runId) (w.run me runId startedBy)).Settled runId ↔
      ∀ i ∈ cells, ∀ id, w.cellFor sight runId i = some id → id ∈ (w.state runId).started := by
  have hgoes := (goes_run w me runId startedBy).trans
    (.foldl (fun w ↦ w.goes_queueCell sight runId) cells _)
  obtain ⟨hexecs, hmarks⟩ := hw.settled_iff.1 hs
  rw [(hgoes.inv hw).settled_iff]
  simp only [execOf_queueCells, execOf_run, runAt_queueCells, cellFor_run, runAt_run,
    (state_run w me runId startedBy runId).2.1]
  constructor
  · rintro ⟨-, h⟩ i hi id hid
    by_contra hstarted
    exact h id (if_pos ⟨i, hi, hid, hstarted⟩)
  · refine fun h ↦ ⟨hexecs, fun c ↦ ?_⟩
    rw [if_neg]
    · exact hmarks c
    · rintro ⟨i, hi, hid, hstarted⟩
      exact hstarted (h i hi c hid)

theorem execOf_exec (w : Editor O) (sight : Sight) (runId cellId : String) (t : Told O)
    (r c : String) : (w.exec sight runId cellId t).execOf r c =
      (w.create sight runId cellId).execOf r c := by
  have hbegun : (if ((w.create sight runId cellId).startable runId cellId).isSome then
      ((w.create sight runId cellId).start runId cellId none).attribution cellId
        (some ((w.create sight runId cellId).info runId .running))
      else w.create sight runId cellId).execOf r c = (w.create sight runId cellId).execOf r c := by
    split
    · exact execOf_start _ runId cellId none r c
    · rfl
  rw [exec, ← hbegun]
  split <;> rfl

/-- Nothing happens where there is no handle and the editor cannot show one. -/
theorem exec_of_not_shows {w : Editor O} {sight : Sight} {runId cellId : String}
    (hnone : w.execOf runId cellId = none) (hshows : sight.shows cellId = false) (t : Told O) :
    w.exec sight runId cellId t = w := by
  have hlookup : (w.state runId).execs.lookup cellId = none := hnone
  have hcreate : w.create sight runId cellId = w := by
    rw [create, hlookup]
    simp [hshows]
  have hstartable : w.startable runId cellId = none := by
    rw [startable, hlookup, ite_self]
  rw [exec, hcreate, hstartable]
  simp [hlookup]

/-- A cell that is told something has a handle, if the editor can show one. -/
theorem settled_exec {w : Editor O} (hw : w.Inv) (sight : Sight) {runId : String} (cellId : String)
    {t : Told O} (hstart : t.isStart = false) (hfinish : t.isFinish = false)
    (hs : w.Settled runId) :
    (w.exec sight runId cellId t).Settled runId ↔ sight.shows cellId = false := by
  obtain ⟨hexecs, -⟩ := hw.settled_iff.1 hs
  constructor
  · intro h
    have hinv := (goes_exec w sight runId cellId hstart hfinish).inv hw
    have hnone := (hinv.settled_iff.1 h).1 cellId
    rw [execOf_exec, execOf_create] at hnone
    by_contra hshows
    rw [if_pos ⟨rfl, rfl, hexecs cellId, Bool.not_eq_false _ ▸ hshows⟩] at hnone
    cases hnone
  · intro hshows
    rwa [exec_of_not_shows (hexecs cellId) hshows]

theorem runAt_startCell (w : Editor O) (sight : Sight) (runId cellId : String) (index : ℕ)
    (count : Option ℕ) :
    (w.startCell sight runId cellId index count).runAt cellId = some runId := by
  rw [startCell, runAt_attribution, if_pos rfl]
  rfl

/-- What an event that does not finish its run must meet, if that run is to stay settled. -/
theorem settled_handleRun {w : Editor O} (hw : w.Inv) (me : String) (sight : Sight)
    {runId : String} {ev : KernelEvent O} (htype : ev.type ≠ .runFinished)
    (hid : truthy ev.runId = some runId) (hover : runId ∈ w.closed) (hs : w.Settled runId) :
    (w.handleRun me sight runId ev).Settled runId ↔ w.Meets (sight, .handle ev) := by
  have hmeets (P : String → Prop) : (∀ r, truthy ev.runId = some r → P r) ↔ P runId :=
    ⟨fun h ↦ h runId hid, fun h r hr ↦ Option.some.inj (hid.symm.trans hr) ▸ h⟩
  have hrun (startedBy : Option Attribution) : (w.run me runId startedBy).Settled runId :=
    (settled_run hw me runId startedBy runId).2 hs
  have hinv (startedBy : Option Attribution) : (w.run me runId startedBy).Inv :=
    (goes_run w me runId startedBy).inv hw
  rw [Meets, handleRun, hmeets]
  cases htype' : ev.type with
  | runFinished => exact absurd htype' htype
  | runQueued | runStarted =>
    simp only [hover, forall_const]
    exact settled_queueCells hw me sight ev.startedBy ev.cells hs
  | cellStarted =>
    simp only [hover, forall_const, cellFor_run]
    cases hcell : w.cellFor sight runId ev.index with
    | none => exact iff_of_true (hrun _) rfl
    | some id =>
      refine iff_of_false (fun h ↦ h.2 id (runAt_startCell ..)) (by simp)
  | output =>
    simp only [hover, forall_const, cellFor_run]
    cases hcell : w.cellFor sight runId ev.index with
    | none => exact iff_of_true (hrun _) fun _ _ h ↦ (by cases h)
    | some id =>
      cases hout : ev.output with
      | none => exact iff_of_true (hrun _) fun h ↦ (by cases h)
      | some o =>
        simp only [Option.isSome_some, forall_const, Option.some.injEq, forall_eq']
        exact settled_exec (hinv _) sight id rfl rfl (hrun _)
  | outputClear =>
    simp only [hover, forall_const, cellFor_run]
    cases hcell : w.cellFor sight runId ev.index with
    | none => exact iff_of_true (hrun _) fun _ h ↦ (by cases h)
    | some id =>
      simp only [Option.some.injEq, forall_eq']
      exact settled_exec (hinv _) sight id rfl rfl (hrun _)
  | cellFinished =>
    simp only [iff_true]
    split
    case h_1 id _ _ =>
      have hgoes := goes_finishCell w runId id ev.status
      obtain ⟨hexecs, hmarks⟩ := hw.settled_iff.1 hs
      refine (hgoes.inv hw).settled_iff.2 ⟨fun c ↦ ?_, fun c ↦ ?_⟩
      · rw [execOf_finishCell, hexecs, ite_self]
      · rw [runAt_finishCell]
        split
        · exact fun h ↦ (by cases h)
        · exact hmarks c
    case h_2 => exact hs

/-- A run is settled when it finishes, if each cell that is marked with it has a handle. -/
theorem settled_runFinished {w : Editor O} (hw : w.Inv) (me : String) (sight : Sight)
    {runId : String} {ev : KernelEvent O} (htype : ev.type = .runFinished)
    (hid : truthy ev.runId = some runId) :
    (w.handleRun me sight runId ev).Settled runId ↔ w.Meets (sight, .handle ev) := by
  have hmeets : w.Meets (sight, .handle ev) ↔
      ∀ c, w.runAt c = some runId → (w.execOf runId c).isSome := by
    rw [Meets, htype]
    exact ⟨fun h ↦ h runId hid, fun h r hr ↦ Option.some.inj (hid.symm.trans hr) ▸ h⟩
  rw [hmeets, ((goes_handleRun w me sight runId ev).inv hw).settled_iff, handleRun, htype]
  dsimp only
  cases hlookup : w.runs.lookup runId with
  | none =>
    have hnone (c : String) : w.execOf runId c = none := by
      rw [execOf, state, hlookup]
      rfl
    simp only [hnone, Option.isSome_none, Bool.false_eq_true, imp_false, implies_true, true_and]
  | some st =>
    dsimp only
    constructor
    · rintro ⟨-, hmarks⟩ c hc
      by_contra hexec
      exact hmarks c (by rw [runAt_finishRun, if_neg hexec, hc])
    · refine fun h ↦ ⟨fun c ↦ by rw [execOf_finishRun, if_pos rfl], fun c hc ↦ ?_⟩
      rw [runAt_finishRun] at hc
      split at hc
      · cases hc
      case isFalse hexec => exact hexec (h c hc)

theorem runAt_abandonAll (w : Editor O) (c : String) :
    w.abandonAll.runAt c = none ↔ w.runAt c = none ∨ ∃ runId, (w.execOf runId c).isSome := by
  have hsame : w.abandonAll.runAt c = (w.endExecs w.allExecs fun _ ↦ none).runAt c := by
    rw [abandonAll_eq]
    rfl
  have hmem : c ∈ w.allExecs.map Sigma.fst ↔ ∃ runId, (w.execOf runId c).isSome := by
    rw [List.mem_map]
    constructor
    · rintro ⟨⟨c, n⟩, hmem, rfl⟩
      obtain ⟨r, hr⟩ := mem_allExecs.1 hmem
      exact ⟨r, by rw [hr]; rfl⟩
    · rintro ⟨r, hr⟩
      obtain ⟨n, hn⟩ := Option.isSome_iff_exists.1 hr
      exact ⟨⟨c, n⟩, mem_allExecs.2 ⟨r, hn⟩, rfl⟩
  rw [hsame, runAt_endExecs, ← hmem]
  split
  case isTrue h => exact iff_of_true rfl (.inr h)
  case isFalse h => exact ⟨.inl, fun h' ↦ h'.resolve_right h⟩

/-- All runs are settled when they are abandoned, if each cell that is marked has a handle. -/
theorem settled_abandonAll {w : Editor O} (hw : w.Inv) :
    (∀ r, w.abandonAll.Settled r) ↔
      ∀ c, (w.runAt c).isSome → ∃ runId, (w.execOf runId c).isSome := by
  have hnone (r c : String) : w.abandonAll.execOf r c = none := by
    rw [abandonAll_eq]
    rfl
  simp only [(inv_abandonAll hw).settled_iff, hnone, implies_true, true_and]
  constructor
  · intro h c hc
    have hclear : w.abandonAll.runAt c = none := Option.eq_none_iff_forall_ne_some.2 fun r ↦ h r c
    refine ((runAt_abandonAll w c).1 hclear).resolve_left fun h ↦ ?_
    rw [h] at hc
    cases hc
  · intro h r c hc
    have hclear : w.abandonAll.runAt c = none := by
      rw [runAt_abandonAll]
      cases hmark : w.runAt c with
      | none => exact .inl rfl
      | some r' => exact .inr (h c (by rw [hmark]; rfl))
    rw [hclear] at hc
    cases hc

/-- Of the runs that have finished, the one that a call is about is all there is to look at. -/
theorem Goes.sound_iff {w w' : Editor O} {runId : String} (hgoes : Goes runId w w') (hw : w.Inv)
    (hs : w.Sound) (habandoned : w'.abandoned = false)
    (hover : ∀ r ∈ w'.closed, r ≠ runId → r ∈ w.closed) :
    w'.Sound ↔ (runId ∈ w'.closed → w'.Settled runId) := by
  constructor
  · exact fun h ↦ h.2.1 runId
  · refine fun h ↦ ⟨(hgoes.inv hw).orderly, fun r hr ↦ ?_, fun ha ↦ ?_⟩
    · by_cases hrun : r = runId
      · exact hrun ▸ h (hrun ▸ hr)
      · exact hgoes.settled hw hrun (hs.2.1 r (hover r hr hrun))
    · rw [habandoned] at ha
      cases ha

/-- **One call**: what is asked for goes on holding exactly if the call meets the condition. -/
theorem sound_step_iff {w : Editor O} (hw : w.Inv) (hs : w.Sound) (me : String)
    (l : Sight × Call O) : (w.step me l).Sound ↔ w.Meets l := by
  obtain ⟨sight, ⟨runId, cellIds, startedBy⟩ | ev | _⟩ := l
  · have hgoes := (goes_expect w me sight runId cellIds startedBy).flags w.closed false
    rw [Editor.step, hgoes.sound_iff hw hs rfl fun _ hr _ ↦ hr, Meets]
    refine forall_congr' fun hover ↦ ?_
    exact settled_expect hw me sight cellIds startedBy (hs.2.1 runId hover)
  · rw [Editor.step]
    cases hid : truthy ev.runId with
    | none =>
      refine iff_of_true ⟨hw.orderly, hs.2.1, fun h ↦ (by cases h)⟩ ?_
      rw [Meets]
      intro r hr
      rw [hid] at hr
      cases hr
    | some runId =>
      by_cases htype : ev.type = .runFinished
      · have hgoes := (goes_handleRun w me sight runId ev).flags (runId :: w.closed) false
        dsimp only
        rw [if_pos htype,
          hgoes.sound_iff hw hs rfl fun r hr hne ↦ (List.mem_cons.1 hr).resolve_left hne,
          ← settled_runFinished hw me sight htype hid]
        exact ⟨fun h ↦ h List.mem_cons_self, fun h _ ↦ h⟩
      · have hgoes := (goes_handleRun w me sight runId ev).flags w.closed false
        dsimp only
        rw [if_neg htype, hgoes.sound_iff hw hs rfl fun _ hr _ ↦ hr]
        by_cases hover : runId ∈ w.closed
        · rw [← settled_handleRun hw me sight htype hid hover (hs.2.1 runId hover)]
          exact ⟨fun h ↦ h hover, fun h _ ↦ h⟩
        · refine iff_of_true (fun h ↦ absurd h hover) ?_
          rw [Meets]
          intro r hr
          obtain rfl := Option.some.inj (hid.symm.trans hr)
          cases htype' : ev.type with
          | runFinished => exact absurd htype' htype
          | cellFinished => trivial
          | _ => exact fun h ↦ absurd h hover
  · have hinv := hw.step me (sight, .abandonAll)
    rw [Meets, ← settled_abandonAll hw]
    constructor
    · exact fun h ↦ h.2.2 rfl
    · exact fun h ↦ ⟨hinv.orderly, fun r _ ↦ h r, fun _ ↦ h⟩

theorem inv_new : (new : Editor O).Inv :=
  ⟨fun _ _ _ h ↦ (by cases h), fun _ _ h ↦ (by cases h), fun _ h ↦ (by cases h)⟩

theorem sound_new : (new : Editor O).Sound :=
  ⟨fun _ h ↦ (by cases h), fun _ h ↦ (by cases h), fun h ↦ (by cases h)⟩

/-- **Calls in any order**: in every state that they lead to, handles were started and ended once
and the runs that have finished or were abandoned are settled, exactly if every call meets the
condition. -/
theorem tracker_sound_iff (me : String) (calls : List (Sight × Call O)) :
    (∀ front, front <+: calls → (front.foldl (step me) new).Sound) ↔
      StepSystem.AllMeet (step me) Meets new calls :=
  (StepSystem.allMeet_iff_forall_prefix (I := Inv) (P := Sound) (fun _ l hw ↦ hw.step me l)
    (fun _ l hw hs ↦ sound_step_iff hw hs me l) inv_new sound_new calls).symm

section Examples

private def sees : Sight := ⟨fun i ↦ ["pre", "a", "b", "c"][i]?, fun _ ↦ true⟩

/-- A run of somebody else, interrupted in the first of its two cells. -/
private def interrupted : List (Sight × Call String) :=
  [(sees, .handle { type := .runQueued, runId := "r1", cells := [1, 2] }),
    (sees, .handle { type := .cellStarted, runId := "r1", index := 1 }),
    (sees, .handle { type := .cellFinished, runId := "r1", index := 1, status := "error" }),
    (sees, .handle { type := .runFinished, runId := "r1", status := "interrupted" })]

/-- A run of this client, whose answer comes after it has finished. -/
private def answered : List (Sight × Call String) :=
  [(sees, .handle { type := .runStarted, runId := "r2" }),
    (sees, .handle { type := .runFinished, runId := "r2", status := "ok" }),
    (sees, .expect "r2" ["a"] ⟨some "me", none, none⟩)]

/-- The second cell stays marked as queued; the handle is never ended. -/
theorem not_sound_tracker :
    ¬ (interrupted.foldl (step "me") new).Sound ∧ ¬ (answered.foldl (step "me") new).Sound := by
  constructor
  · intro h
    exact (h.2.1 "r1" (by decide)).2 "b" (by decide)
  · intro h
    exact absurd ((h.2.1 "r2" (by decide)).1 ⟨"r2", "a", []⟩ (by decide) rfl) (by decide)

end Examples

end Editor

end Ember.Vscode
