import Ember.Intellij.Reconcile

/-!
# Pushing the buffer to the kernel

`NotebookSession.flush`: the requests of `CellReconciler` are sent one after the other, and each may
fail. A conflict is reported to the user, who may then push again; any other failure is only shown
or logged, an exception that is no answer of the manager's ends the batch, and nothing marks the
session dirty again.

The mirror shows the kernel's document when the push begins. What the manager answers is an input; a
request it would answer with success, but which names a cell that has another version or is not
there, it refuses. Only the parts of its answers that the session looks at are here.
-/

namespace Ember.Intellij

open CellReconciler

/-! ### Answers -/

/-- `ManagerException`: an answer that is not 2xx. -/
structure ManagerException where
  status : ℕ
  code : String

namespace ManagerException

/-- `isConflict`. -/
def isConflict (e : ManagerException) : Bool := e.status == 409 && e.code == "conflict"

/-- `isLocked`. -/
def isLocked (e : ManagerException) : Bool := e.status == 409 && e.code == "locked"

end ManagerException

/-- How a request ends. -/
inductive Answer
  | done
  | rejected (e : ManagerException)
  /-- Any other exception: the manager cannot be reached. -/
  | failed

/-- The answers to the requests an operation makes: for the lock, if it needs one, and its own. -/
structure Answers where
  lock : Answer
  edit : Answer

/-- What becomes of an operation. -/
inductive Fate
  | done
  /-- Created, but not behind the cell the batch names. -/
  | astray
  /-- Refused as a conflict, which is reported. -/
  | conflict
  /-- Not sent: another client has the lock, or the lock was not granted. -/
  | lockedOut
  | locked
  | forbidden
  | refused
  /-- A move of a cell that has no id: not sent. -/
  | skipped
  | failed
  /-- Behind one that failed so: not sent. -/
  | unsent
  deriving DecidableEq

/-- `onEditRejected`. -/
def onEditRejected (e : ManagerException) : Fate :=
  if e.isConflict then .conflict
  else if e.isLocked then .locked
  else if e.status == 403 then .forbidden
  else .refused

/-! ### Requests -/

namespace SyncOp

/-- The cell an operation is about. -/
def cell : SyncOp → String
  | update cellId .. => cellId
  | create ref .. => ref
  | delete cellId _ => cellId
  | move ref _ => ref

/-- The cell and the version an operation is for, if it is for one version. -/
def edits : SyncOp → Option (String × ℤ)
  | update cellId baseVersion .. => some (cellId, baseVersion)
  | delete cellId baseVersion => some (cellId, baseVersion)
  | _ => none

/-- The cells that have to be there. -/
def names : SyncOp → List String
  | update cellId .. => [cellId]
  | create _ afterRef .. => afterRef.toList
  | delete cellId _ => [cellId]
  | move ref _ => [ref]

/-- The operation takes a cell out. -/
def isDelete : SyncOp → Bool
  | delete .. => true
  | _ => false

end SyncOp

/-- `startsWith("new:")`. -/
def isNew (ref : String) : Bool := "new:".toList.isPrefixOf ref.toList

/-- The manager's answer to a request it cannot carry out. -/
def refusal (cells : List KeptCell) (request : SyncOp) : ManagerException :=
  if cells.any fun c ↦ c.cellId == request.cell then ⟨409, "conflict"⟩ else ⟨404, "not_found"⟩

/-- What the manager does with a request it is to answer so. -/
def serve (cells : List KeptCell) (request : SyncOp) : Answer → List KeptCell × Answer
  | .done =>
    match execute cells request with
    | some cells' => (cells', .done)
    | none => (cells, .rejected (refusal cells request))
  | answer => (cells, answer)

/-! ### `flush` -/

/-- A batch under way: the manager's document, what `flush` keeps, and what became of the
operations so far. -/
structure Run where
  cells : List KeptCell
  /-- The new cells that have an id. -/
  refs : List String
  myLocks : List String
  /-- Who has the lock of a cell, as the mirror shows it. -/
  lockedBy : String → Option String
  failed : Bool
  stopped : Bool
  log : List (SyncOp × Fate)

namespace Run

/-- `lock`. -/
def lock (clientId : String) (answer : Answer) (cellId : String) (r : Run) : Run × Bool :=
  match answer with
  | .done => ({ r with
      myLocks := cellId :: r.myLocks
      lockedBy := fun c ↦ if c = cellId then some clientId else r.lockedBy c }, true)
  | _ => (r, false)

/-- The lock an update needs. -/
def lockFor (clientId : String) (answer : Answer) (r : Run) : SyncOp → Run × Bool
  | .update cellId .. =>
    if r.myLocks.contains cellId then (r, true)
    else if (r.lockedBy cellId).any fun by_ ↦ by_ != clientId then (r, false)
    else r.lock clientId answer cellId
  | _ => (r, true)

/-- `refs[it] ?: it.takeUnless { r -> r.startsWith("new:") }`. -/
def resolve (r : Run) (ref : String) : Option String :=
  if r.refs.contains ref then some ref else if isNew ref then none else some ref

/-- The request for an operation, if it is sent. -/
def request (r : Run) : SyncOp → Option SyncOp
  | .create ref afterRef type source metadata =>
    some (.create ref (afterRef.bind r.resolve) type source metadata)
  | .move ref toIndex => (r.resolve ref).map fun id ↦ .move id toIndex
  | op => some op

/-- The cell a create is to stand behind has an id. -/
def placed (r : Run) : SyncOp → Bool
  | .create _ afterRef .. => afterRef.bind r.resolve == afterRef
  | _ => true

/-- A request has been carried out. -/
def carriedOut (r : Run) (cells : List KeptCell) : SyncOp → Run
  | .create ref .. => { r with cells, refs := ref :: r.refs }
  | .delete cellId _ => { r with cells, myLocks := r.myLocks.filter fun c ↦ c != cellId }
  | _ => { r with cells }

/-- The request is sent. -/
def send (answer : Answer) (r : Run) (op request : SyncOp) : Run × Fate :=
  match serve r.cells request answer with
  | (cells, .done) => (r.carriedOut cells op, if r.placed op then .done else .astray)
  | (_, .rejected e) => ({ r with failed := true }, onEditRejected e)
  | (_, .failed) => ({ r with failed := true, stopped := true }, .failed)

/-- One operation of the batch. -/
def attempt (clientId : String) (answers : Answers) (r : Run) (op : SyncOp) : Run × Fate :=
  match r.lockFor clientId answers.lock op with
  | (r, false) => ({ r with failed := true }, .lockedOut)
  | (r, true) =>
    match r.request op with
    | none => (r, .skipped)
    | some request => r.send answers.edit op request

/-- One round of the loop; behind a `break` nothing is sent. -/
def step (clientId : String) (answers : ℕ → Answers) (r : Run) (p : SyncOp × ℕ) : Run :=
  if r.stopped then { r with log := r.log ++ [(p.1, .unsent)] }
  else
    let attempted := r.attempt clientId (answers p.2) p.1
    { attempted.1 with log := attempted.1.log ++ [(p.1, attempted.2)] }

end Run

/-- The session, as far as `flush` reads it. -/
structure Session where
  dirty : Bool
  /-- There are a client and a kernel id. -/
  connected : Bool
  clientId : String
  myLocks : List String
  lockedBy : String → Option String

/-- The end of a `flush`. -/
structure Flushed where
  dirty : Bool
  run : Run

namespace Session

/-- No operation has been sent. -/
def start (s : Session) (d : Document) : Run where
  cells := d.cells.map DocCell.kept
  refs := []
  myLocks := s.myLocks
  lockedBy := s.lockedBy
  failed := false
  stopped := false
  log := []

/-- The batch. -/
def ops (stringify : JsonValue → String) (d : Document) (b : Buffer) : List SyncOp :=
  reconcile b.cells d.cells (CellMatcher.match_ stringify d.cells b.cells)

/-- `flush`. The session is dirty afterwards only where the user has `edited` the buffer meanwhile,
since `getAndSet(false)` comes first. -/
def flush (stringify : JsonValue → String) (s : Session) (d : Document) (b : Buffer)
    (answers : ℕ → Answers) (edited : Bool) : Flushed :=
  if !s.dirty then ⟨edited, s.start d⟩
  else if !s.connected then ⟨edited, s.start d⟩
  else ⟨edited, (ops stringify d b).zipIdx.foldl (Run.step s.clientId answers) (s.start d)⟩

end Session

/-! ### What is expected of it -/

/-- The kernel's document is the buffer, in all that the requests carry: titles are not among it,
nor is more of the preamble than its text. -/
def Buffer.Matches (b : Buffer) (cells : List KeptCell) : Prop :=
  cells.length = b.cells.length ∧ ∀ (i : ℕ) l c, b.cells[i]? = some l → cells[i]? = some c →
    c.source = l.source ∧
      (l.isPreamble = false → c.type = l.type ∧ l.metadata.same c.metadata = true)

namespace Flushed

/-- A conflict has been reported for a cell. -/
def Reported (out : Flushed) (cell : String) : Prop :=
  ∃ p ∈ out.run.log, p.1.cell = cell ∧ p.2 = .conflict

/-- The session is dirty, or some operation was not carried out and a conflict was reported for each
cell with such an operation, or the kernel's document is the buffer. -/
def Settled (out : Flushed) (b : Buffer) : Prop :=
  out.dirty = true ∨
    ((∃ p ∈ out.run.log, p.2 ≠ .done) ∧
      ∀ p ∈ out.run.log, p.2 ≠ .done → out.Reported p.1.cell) ∨
    b.Matches out.run.cells

end Flushed

/-- A request is answered with success or with a conflict. -/
def Answer.isHeard : Answer → Bool
  | .done => true
  | .rejected e => e.isConflict
  | .failed => false

/-- The answers to a batch lose nothing: each request is granted or refused as a conflict, each
update has its lock, and a new cell that another is put behind, or that is moved, is asked for
before, with success if something is put behind it. -/
structure Session.Heard (s : Session) (ops : List SyncOp) (answers : ℕ → Answers) : Prop where
  edits : ∀ (n : ℕ) op, ops[n]? = some op → (answers n).edit.isHeard = true
  locks : ∀ (n : ℕ) cellId v source type metadata,
    ops[n]? = some (.update cellId v source type metadata) →
    cellId ∈ s.myLocks ∨
      (∀ client ∈ s.lockedBy cellId, client = s.clientId) ∧ (answers n).lock = .done
  behind : ∀ (n : ℕ) ref after type source metadata,
    ops[n]? = some (.create ref (some after) type source metadata) →
    (answers n).edit = .done → isNew after = true →
    ∃ m < n, ∃ after' type source metadata,
      ops[m]? = some (.create after after' type source metadata) ∧ (answers m).edit = .done
  moves : ∀ (n : ℕ) ref toIndex, ops[n]? = some (.move ref toIndex) → isNew ref = true →
    ∃ m < n, ∃ after type source metadata,
      ops[m]? = some (.create ref after type source metadata)

/-! ### The requests of a batch -/

/-- What an operation leaves to those behind it: they are for no version of its cell, and do not
name it where it takes the cell out. -/
structure SyncOp.Before (op op' : SyncOp) : Prop where
  edits : ∀ v, op'.edits ≠ some (op.cell, v)
  names : op.isDelete = true → op.cell ∉ op'.names

/-- The batches there are: what they edit is in the document as they have it, and they name cells of
the document and new ones. -/
structure Batch (d : Document) (ops : List SyncOp) : Prop where
  edits : ∀ op ∈ ops, ∀ id v, op.edits = some (id, v) →
    ∃ s ∈ d.cells, s.cellId = id ∧ s.version = v
  names : ∀ op ∈ ops, ∀ x ∈ op.names, (∃ s ∈ d.cells, s.cellId = x) ∨ ∃ k, x = newRef k
  creates : ∀ ref after type source metadata, .create ref after type source metadata ∈ ops →
    ∃ k, ref = newRef k
  order : ops.Pairwise SyncOp.Before

theorem isNew_newRef (k : ℕ) : isNew (newRef k) = true := by
  rw [isNew, newRef, String.toList_append, List.isPrefixOf_iff_prefix]
  exact List.prefix_append _ _

variable {x : String}

section Batch

variable {d : Document} {b : Buffer} {pairs : List (Option String)}

theorem mem_deletes {matched : List String} {op : SyncOp} (hop : op ∈ deletes d.cells matched) :
    ∃ s ∈ d.cells, matched.contains s.cellId = false ∧ op = .delete s.cellId s.version := by
  obtain ⟨s, hs, heq⟩ := List.mem_filterMap.1 hop
  split at heq
  case isTrue hfree =>
    exact ⟨s, hs, by simpa using (Bool.and_eq_true_iff.1 hfree).1, (Option.some.inj heq).symm⟩
  case isFalse => cases heq

theorem update_eq_some {l : NotebookCell} {s : DocCell} {op : SyncOp} (hop : update l s = some op) :
    ∃ source type metadata, op = .update s.cellId s.version source type metadata := by
  have hop' := Option.ite_none_right_eq_some.1 hop
  exact ⟨_, _, _, (Option.some.inj hop'.2).symm⟩

theorem mem_updates {op : SyncOp} (hop : op ∈ updates b.cells d.cells pairs) :
    ∃ i s source type metadata, behind d pairs i = some s ∧
      op = .update s.cellId s.version source type metadata := by
  obtain ⟨p, -, heq⟩ := List.mem_filterMap.1 hop
  obtain ⟨s, hs, heq⟩ := Option.bind_eq_some_iff.1 heq
  obtain ⟨source, type, metadata, rfl⟩ := update_eq_some heq
  exact ⟨p.2, s, source, type, metadata, hs, rfl⟩

theorem mem_creates {order : List String} {op : SyncOp}
    (hop : op ∈ (creates b.cells pairs order).2) :
    ∃ k after type source metadata, op = .create (newRef k) after type source metadata ∧
      ∀ a ∈ after, a ∈ refs b.cells pairs := by
  have hall := foldl_zipIdx (l := b.cells) (f := createOne pairs (refs b.cells pairs))
    (s := (order, []))
    (P := fun _ state ↦ ∀ op ∈ state.2, ∃ k after type source metadata,
      op = .create (newRef k) after type source metadata ∧ ∀ a ∈ after, a ∈ refs b.cells pairs)
    (fun op hop ↦ absurd hop List.not_mem_nil) fun k l state _ ih op hop ↦ by
      rw [createOne] at hop
      split at hop
      · exact ih op hop
      · split at hop
        · exact ih op hop
        · rcases List.mem_append.1 hop with hop | hop
          · exact ih op hop
          · refine ⟨k, _, _, _, _, List.mem_singleton.1 hop, fun a ha ↦ ?_⟩
            split at ha
            · exact List.mem_of_getElem? ha
            · cases ha
  exact hall op hop

theorem mem_refs_cases (hx : x ∈ refs b.cells pairs) :
    (∃ i : ℕ, (pairs[i]?).join = some x) ∨ ∃ k, x = newRef k := by
  obtain ⟨i, -, rfl⟩ := mem_refs.1 hx
  cases hpair : (pairs[i]?).join with
  | none => exact .inr ⟨i, ref_of_none hpair⟩
  | some id => exact .inl ⟨i, by rw [ref_of_some hpair, hpair]⟩

/-- The operations behind the updates: they are for no version, and what they name has a pair or is
new. -/
theorem late_op (h : Pairs d b pairs) {order : List String} {moves : List (String × ℕ)}
    (hmoves : ∀ m ∈ moves, m.1 ∈ target b.cells pairs) {op : SyncOp}
    (hop : op ∈ (creates b.cells pairs order).2 ++ moves.map fun m ↦ .move m.1 m.2) :
    op.edits = none ∧ op.isDelete = false ∧
      ∀ x ∈ op.names, (∃ i : ℕ, (pairs[i]?).join = some x) ∨ ∃ k, x = newRef k := by
  rcases List.mem_append.1 hop with hop | hop
  · obtain ⟨k, after, type, source, metadata, rfl, hafter⟩ := mem_creates hop
    exact ⟨rfl, rfl, fun x hx ↦ mem_refs_cases (hafter x (Option.mem_toList.1 hx))⟩
  · obtain ⟨m, hm, rfl⟩ := List.mem_map.1 hop
    refine ⟨rfl, rfl, fun x hx ↦ mem_refs_cases (b := b) ?_⟩
    rw [List.mem_singleton.1 hx]
    exact (target_eq h : target b.cells pairs = refs b.cells pairs) ▸ hmoves m hm

/-- A cell without a pair is none of those that operations behind the deletes name. -/
theorem ne_of_unmatched {s : DocCell} (hs : s ∈ d.cells)
    (hfree : (pairs.filterMap fun x ↦ x).contains s.cellId = false)
    (hx : (∃ i : ℕ, (pairs[i]?).join = some x) ∨ ∃ k, x = newRef k) : s.cellId ≠ x := by
  rintro rfl
  rcases hx with hx | ⟨k, hk⟩
  · rw [contains_matched.2 hx] at hfree
    cases hfree
  · exact d.fresh s hs k hk

theorem pairwise_deletes (matched : List String) :
    (deletes d.cells matched).Pairwise SyncOp.Before := by
  refine List.pairwise_filterMap.2 ((List.pairwise_map.1 d.ids).imp
    fun {s t} hne op hop op' hop' ↦ ?_)
  have hs : op = .delete s.cellId s.version := by
    split at hop
    · exact (Option.some.inj hop).symm
    · cases hop
  have ht : op' = .delete t.cellId t.version := by
    split at hop'
    · exact (Option.some.inj hop').symm
    · cases hop'
  subst hs ht
  refine ⟨fun v heq ↦ hne ?_, fun _ hmem ↦ hne (List.mem_singleton.1 hmem)⟩
  exact (congrArg Prod.fst (Option.some.inj heq)).symm

theorem pairwise_updates (h : Pairs d b pairs) :
    (updates b.cells d.cells pairs).Pairwise SyncOp.Before := by
  have hplaces : b.cells.zipIdx.Pairwise fun p q ↦ p.2 ≠ q.2 := by
    refine List.pairwise_map.1 (?_ : (b.cells.zipIdx.map Prod.snd).Pairwise _)
    rw [List.zipIdx_map_snd]
    exact List.nodup_range'
  refine List.pairwise_filterMap.2 (hplaces.imp fun {p q} hne op hop op' hop' ↦ ?_)
  obtain ⟨s, hs, hop⟩ := Option.bind_eq_some_iff.1 hop
  obtain ⟨t, ht, hop'⟩ := Option.bind_eq_some_iff.1 hop'
  obtain ⟨_, _, _, rfl⟩ := update_eq_some hop
  obtain ⟨_, _, _, rfl⟩ := update_eq_some hop'
  refine ⟨fun v heq ↦ behind_ne h hne hs ht ?_, fun hdelete ↦ (by cases hdelete)⟩
  exact (congrArg Prod.fst (Option.some.inj heq)).symm

/-- **The batches of the reconciler** edit no cell after they have touched it, and name none they
have taken out. -/
theorem batch_reconcile (h : Pairs d b pairs) : Batch d (reconcile b.cells d.cells pairs) := by
  have hlate := @late_op d b pairs h (firstOrder d.cells (pairs.filterMap fun x ↦ x))
    ((creates b.cells pairs (firstOrder d.cells (pairs.filterMap fun x ↦ x))).1.arrange 0
      (target b.cells pairs)).2 fun m hm ↦ List.mem_of_mem_arrange hm
  have hsplit : reconcile b.cells d.cells pairs = deletes d.cells (pairs.filterMap fun x ↦ x) ++
      (updates b.cells d.cells pairs ++
        ((creates b.cells pairs (firstOrder d.cells (pairs.filterMap fun x ↦ x))).2 ++
          ((creates b.cells pairs (firstOrder d.cells (pairs.filterMap fun x ↦ x))).1.arrange 0
            (target b.cells pairs)).2.map fun m ↦ SyncOp.move m.1 m.2)) := by
    rw [← List.append_assoc, ← List.append_assoc]
    rfl
  have hcreate := @mem_creates b pairs (firstOrder d.cells (pairs.filterMap fun x ↦ x))
  rw [hsplit]
  generalize hlater : (creates b.cells pairs (firstOrder d.cells (pairs.filterMap fun x ↦ x))).2 ++
    ((creates b.cells pairs (firstOrder d.cells (pairs.filterMap fun x ↦ x))).1.arrange 0
      (target b.cells pairs)).2.map (fun m ↦ SyncOp.move m.1 m.2) = late at hlate ⊢
  refine ⟨fun op hop id v hedits ↦ ?_, fun op hop x hx ↦ ?_,
    fun ref after type source metadata hop ↦ ?_,
    List.pairwise_append.2 ⟨pairwise_deletes _, List.pairwise_append.2 ⟨pairwise_updates h,
      List.pairwise_of_forall_mem_list fun op hop op' hop' ↦ ⟨fun v ↦ ?_, fun hdelete ↦ ?_⟩,
      fun op hop op' hop' ↦ ⟨fun v ↦ ?_, fun hdelete ↦ ?_⟩⟩, fun op hop op' hop' ↦ ?_⟩⟩
  · rcases List.mem_append.1 hop with hop | hop
    · obtain ⟨s, hs, -, rfl⟩ := mem_deletes hop
      cases hedits
      exact ⟨s, hs, rfl, rfl⟩
    · rcases List.mem_append.1 hop with hop | hop
      · obtain ⟨i, s, source, type, metadata, hs, rfl⟩ := mem_updates hop
        cases hedits
        exact ⟨s, (of_behind hs).1, rfl, rfl⟩
      · rw [(hlate hop).1] at hedits
        cases hedits
  · rcases List.mem_append.1 hop with hop | hop
    · obtain ⟨s, hs, -, rfl⟩ := mem_deletes hop
      exact .inl ⟨s, hs, (List.mem_singleton.1 hx).symm⟩
    · rcases List.mem_append.1 hop with hop | hop
      · obtain ⟨i, s, source, type, metadata, hs, rfl⟩ := mem_updates hop
        exact .inl ⟨s, (of_behind hs).1, (List.mem_singleton.1 hx).symm⟩
      · refine ((hlate hop).2.2 x hx).imp_left ?_
        rintro ⟨i, hi⟩
        exact h.known i x hi
  · rcases List.mem_append.1 hop with hop | hop
    · obtain ⟨s, -, -, heq⟩ := mem_deletes hop
      cases heq
    · rcases List.mem_append.1 hop with hop | hop
      · obtain ⟨i, s, _, _, _, -, heq⟩ := mem_updates hop
        cases heq
      · rw [← hlater] at hop
        rcases List.mem_append.1 hop with hop | hop
        · obtain ⟨k, _, _, _, _, heq, -⟩ := hcreate hop
          exact ⟨k, (SyncOp.create.inj heq).1⟩
        · obtain ⟨m, -, heq⟩ := List.mem_map.1 hop
          cases heq
  · rw [(hlate hop').1]
    exact (Option.some_ne_none _).symm
  · rw [(hlate hop).2.1] at hdelete
    cases hdelete
  · rw [(hlate hop').1]
    exact (Option.some_ne_none _).symm
  · obtain ⟨i, s, _, _, _, -, rfl⟩ := mem_updates hop
    cases hdelete
  · obtain ⟨s, hs, hfree, rfl⟩ := mem_deletes hop
    rcases List.mem_append.1 hop' with hop' | hop'
    · obtain ⟨i, t, source, type, metadata, ht, rfl⟩ := mem_updates hop'
      have hne := ne_of_unmatched hs hfree (.inl ⟨i, (of_behind ht).2⟩)
      exact ⟨fun v heq ↦ hne (congrArg Prod.fst (Option.some.inj heq)).symm,
        fun _ hmem ↦ hne (List.mem_singleton.1 hmem)⟩
    · refine ⟨fun v ↦ ?_, fun _ hmem ↦ ne_of_unmatched hs hfree ((hlate hop').2.2 _ hmem) rfl⟩
      rw [(hlate hop').1]
      exact (Option.some_ne_none _).symm

end Batch

/-! ### The manager, one request at a time -/

section Execute

variable {cells cells' : List KeptCell} {op : SyncOp}

theorem cellId_of_find {id : String} {c : KeptCell}
    (h : (cells.find? fun c ↦ c.cellId == id) = some c) : c.cellId = id := by
  have hid := List.find?_some h
  exact eq_of_beq hid

theorem find_of_versions {id : String} {v : ℤ} (hthere : ∃ c ∈ cells, c.cellId = id)
    (hversion : ∀ c ∈ cells, c.cellId = id → c.version = v) :
    ∃ c, (cells.find? fun c ↦ c.cellId == id) = some c ∧ c.version = v := by
  cases hfind : cells.find? fun c ↦ c.cellId == id with
  | none =>
    obtain ⟨c, hc, hid⟩ := hthere
    exact absurd (beq_iff_eq.2 hid) (List.find?_eq_none.1 hfind c hc)
  | some c => exact ⟨c, rfl, hversion c (List.mem_of_find?_eq_some hfind) (cellId_of_find hfind)⟩

/-- What the manager can carry out. -/
theorem executable (hedits : ∀ id v, op.edits = some (id, v) →
      ∀ c ∈ cells, c.cellId = id → c.version = v)
    (hnames : ∀ x ∈ op.names, ∃ c ∈ cells, c.cellId = x) :
    ∃ cells', execute cells op = some cells' := by
  cases op with
  | update id v _ _ _ | delete id v =>
    obtain ⟨c, hfind, hv⟩ := find_of_versions (hnames id List.mem_cons_self) (hedits id v rfl)
    simp only [execute, hfind, hv, if_true, Option.some.injEq, exists_eq']
  | create ref after type source metadata =>
    cases after with
    | none => exact ⟨_, rfl⟩
    | some a =>
      obtain ⟨c, hc, hid⟩ := hnames a List.mem_cons_self
      cases hfind : cells.findIdx? fun c ↦ c.cellId == a with
      | none =>
        exact absurd (beq_iff_eq.2 hid) (by simpa using List.findIdx?_eq_none_iff.1 hfind c hc)
      | some k => simp only [execute, hfind, Option.some.injEq, exists_eq']
  | move ref toIndex =>
    obtain ⟨c, hc, hid⟩ := hnames ref List.mem_cons_self
    cases hfind : cells.find? fun c ↦ c.cellId == ref with
    | none => exact absurd (beq_iff_eq.2 hid) (List.find?_eq_none.1 hfind c hc)
    | some c => simp only [execute, hfind, Option.some.injEq, exists_eq']

/-- Other cells stay as they are. -/
theorem mem_of_execute (h : execute cells op = some cells') {c : KeptCell}
    (hc : c.cellId ≠ op.cell) : c ∈ cells' ↔ c ∈ cells := by
  cases op with simp only [execute] at h
  | update id v source type metadata =>
    split at h
    case h_2 => cases h
    split at h
    case isFalse => cases h
    obtain rfl := Option.some.inj h
    refine List.mem_map.trans ⟨?_, fun hmem ↦ ⟨c, hmem, if_neg hc⟩⟩
    rintro ⟨c', hc', rfl⟩
    split at hc
    case isTrue hid => exact absurd hid hc
    case isFalse hid => rwa [if_neg hid]
  | delete id v =>
    split at h
    case h_2 => cases h
    split at h
    case isFalse => cases h
    obtain rfl := Option.some.inj h
    rw [List.mem_filter, bne_iff_ne]
    exact and_iff_left hc
  | create ref after type source metadata =>
    have hne : c ≠ .created ref type source metadata := fun heq ↦ hc (heq ▸ rfl)
    cases after with
    | none =>
      obtain rfl := Option.some.inj h
      rw [List.mem_append, List.mem_singleton, or_iff_left hne]
    | some a =>
      simp only [execute] at h
      split at h
      case h_2 => cases h
      obtain rfl := Option.some.inj h
      rw [List.mem_placeAt, or_iff_right hne]
  | move ref toIndex =>
    split at h
    case h_2 => cases h
    case h_1 c' hfind =>
      obtain rfl := Option.some.inj h
      have hid : c'.cellId = ref := cellId_of_find hfind
      have hne : c ≠ { c' with version := c'.version + 1 } := fun heq ↦ hc (by rw [heq]; exact hid)
      rw [List.mem_placeAt, or_iff_right hne, List.mem_filter, bne_iff_ne]
      exact and_iff_left hc

/-- The cell an operation is about is there afterwards, unless it is taken out. -/
theorem exists_of_execute (h : execute cells op = some cells') (hop : op.isDelete = false) :
    ∃ c ∈ cells', c.cellId = op.cell := by
  cases op with
  | update id v source type metadata =>
    simp only [execute] at h
    split at h
    case h_2 => cases h
    case h_1 c hfind =>
      split at h
      case isFalse => cases h
      obtain rfl := Option.some.inj h
      have hid : c.cellId = id := cellId_of_find hfind
      exact ⟨c.patch source type metadata,
        List.mem_map.2 ⟨c, List.mem_of_find?_eq_some hfind, if_pos hid⟩, hid⟩
  | delete id v => cases hop
  | create ref after type source metadata =>
    cases after with
    | none =>
      obtain rfl := Option.some.inj h
      exact ⟨_, List.mem_append_right _ (List.mem_singleton_self _), rfl⟩
    | some a =>
      simp only [execute] at h
      split at h
      case h_2 => cases h
      obtain rfl := Option.some.inj h
      exact ⟨_, List.mem_placeAt.2 (.inl rfl), rfl⟩
  | move ref toIndex =>
    simp only [execute] at h
    split at h
    case h_2 => cases h
    case h_1 c hfind =>
      obtain rfl := Option.some.inj h
      have hid : c.cellId = ref := cellId_of_find hfind
      exact ⟨{ c with version := c.version + 1 }, List.mem_placeAt.2 (.inl rfl), hid⟩

/-- A cell stays there, unless it is the one that is taken out. -/
theorem there_of_execute (h : execute cells op = some cells') (hx : ∃ c ∈ cells, c.cellId = x)
    (hne : op.isDelete = true → op.cell ≠ x) :
    ∃ c ∈ cells', c.cellId = x := by
  by_cases hcell : op.cell = x
  · cases hdelete : op.isDelete with
    | true => exact absurd hcell (hne hdelete)
    | false => exact hcell ▸ exists_of_execute h hdelete
  · obtain ⟨c, hc, rfl⟩ := hx
    exact ⟨c, (mem_of_execute h fun heq ↦ hcell heq.symm).2 hc, rfl⟩

end Execute

/-! ### One operation -/

/-- The new cells an operation makes. -/
def SyncOp.news : SyncOp → List String
  | .create ref .. => [ref]
  | _ => []

variable {answer : Answer}

namespace Run

variable {clientId : String} {r : Run} {op : SyncOp}

theorem resolve_eq {y : String} (h : r.resolve x = some y) :
    y = x ∧ (isNew x = true → x ∈ r.refs) := by
  rw [resolve] at h
  split at h
  case isTrue hmem => exact ⟨(Option.some.inj h).symm, fun _ ↦ List.contains_iff_mem.1 hmem⟩
  case isFalse =>
    split at h
    case isTrue => cases h
    case isFalse hold => exact ⟨(Option.some.inj h).symm, fun hnew ↦ absurd hnew hold⟩

theorem resolve_eq_none (h : r.resolve x = none) : isNew x = true ∧ x ∉ r.refs := by
  rw [resolve] at h
  split at h
  case isTrue => cases h
  case isFalse hmem =>
    split at h
    case isTrue hnew => exact ⟨hnew, fun hx ↦ hmem (List.contains_iff_mem.2 hx)⟩
    case isFalse => cases h

theorem resolve_of_mem (h : x ∈ r.refs) : r.resolve x = some x :=
  if_pos (List.contains_iff_mem.2 h)

/-- What is sent: nothing for a move of a new cell that is not there, else the operation itself, but
for a create that is not placed. -/
theorem request_cases (r : Run) (op : SyncOp) :
    (r.request op = none ∧
        ∃ ref toIndex, op = .move ref toIndex ∧ isNew ref = true ∧ ref ∉ r.refs) ∨
      ∃ request, r.request op = some request ∧ (r.placed op = true → request = op ∧
        (op.edits = none → ∀ x ∈ op.names, isNew x = true → x ∈ r.refs)) := by
  cases op with
  | update | delete => exact .inr ⟨_, rfl, fun _ ↦ ⟨rfl, fun h ↦ (by cases h)⟩⟩
  | create ref after type source metadata =>
    refine .inr ⟨_, rfl, fun hplaced ↦ ?_⟩
    have heq : after.bind r.resolve = after := beq_iff_eq.1 hplaced
    refine ⟨by rw [heq], fun _ x hx ↦ ?_⟩
    obtain rfl := Option.mem_toList.1 hx
    exact (resolve_eq heq).2
  | move ref toIndex =>
    cases hresolve : r.resolve ref with
    | none => exact .inl ⟨by rw [request, hresolve, Option.map_none], ref, toIndex, rfl,
        resolve_eq_none hresolve⟩
    | some y =>
      obtain ⟨rfl, hnew⟩ := resolve_eq hresolve
      refine .inr ⟨.move y toIndex, by rw [request, hresolve, Option.map_some],
        fun _ ↦ ⟨rfl, fun _ x hx ↦ ?_⟩⟩
      rwa [List.mem_singleton.1 hx]

/-- Taking a lock changes nothing else. -/
theorem lockFor_eq (hlock : ∀ cellId v source type metadata,
      op = .update cellId v source type metadata → cellId ∈ r.myLocks ∨
        (∀ client ∈ r.lockedBy cellId, client = clientId) ∧ answer = .done) :
    ∃ myLocks lockedBy, r.lockFor clientId answer op = ({ r with myLocks, lockedBy }, true) ∧
      ∀ id ≠ op.cell, (id ∈ myLocks ↔ id ∈ r.myLocks) ∧ lockedBy id = r.lockedBy id := by
  cases op with
  | update cellId v source type metadata =>
    by_cases hmine : r.myLocks.contains cellId
    · exact ⟨r.myLocks, r.lockedBy, if_pos hmine, fun _ _ ↦ ⟨.rfl, rfl⟩⟩
    · obtain ⟨hfree, rfl⟩ := (hlock cellId v source type metadata rfl).resolve_left fun h ↦
        hmine (List.contains_iff_mem.2 h)
      have hother : ¬ ((r.lockedBy cellId).any fun by_ ↦ by_ != clientId) = true := by
        rw [Option.any_eq_true]
        rintro ⟨client, hclient, hne⟩
        exact bne_iff_ne.1 hne (hfree client hclient)
      refine ⟨_, _, by rw [lockFor, if_neg hmine, if_neg hother]; rfl,
        fun id hid ↦ ⟨?_, if_neg hid⟩⟩
      exact List.mem_cons.trans (or_iff_right hid)
  | create | delete | move => exact ⟨r.myLocks, r.lockedBy, rfl, fun _ _ ↦ ⟨.rfl, rfl⟩⟩

/-- What one operation does, with answers that lose nothing. -/
structure Attempted (r r' : Run) (op : SyncOp) (answer : Answer) (fate : Fate) : Prop where
  stopped : r'.stopped = r.stopped
  log : r'.log = r.log
  locks : ∀ id ≠ op.cell, (id ∈ r'.myLocks ↔ id ∈ r.myLocks) ∧ r'.lockedBy id = r.lockedBy id
  fate : (fate = .done ∧ execute r.cells op = some r'.cells ∧ r'.refs = op.news ++ r.refs) ∨
    (r'.cells = r.cells ∧ r'.refs = r.refs ∧
      ((fate = .conflict ∧ answer ≠ .done) ∨
        (fate = .skipped ∧
          ∃ ref toIndex, op = .move ref toIndex ∧ isNew ref = true ∧ ref ∉ r.refs)))

theorem attempted_carriedOut {cells : List KeptCell} {myLocks : List String}
    {lockedBy : String → Option String}
    (hlocks : ∀ id ≠ op.cell, (id ∈ myLocks ↔ id ∈ r.myLocks) ∧ lockedBy id = r.lockedBy id)
    (hrun : execute r.cells op = some cells) :
    Attempted r (({ r with myLocks, lockedBy } : Run).carriedOut cells op) op answer .done := by
  cases op with
  | delete cellId v =>
    refine ⟨rfl, rfl, fun id hid ↦ ⟨?_, (hlocks id hid).2⟩, .inl ⟨rfl, hrun, rfl⟩⟩
    refine List.mem_filter.trans ((and_iff_left ?_).trans (hlocks id hid).1)
    exact bne_iff_ne.2 hid
  | update | create | move => exact ⟨rfl, rfl, hlocks, .inl ⟨rfl, hrun, rfl⟩⟩

theorem attempt_spec {answers : Answers} (hheard : answers.edit.isHeard = true)
    (hlock : ∀ cellId v source type metadata, op = .update cellId v source type metadata →
      cellId ∈ r.myLocks ∨
        (∀ client ∈ r.lockedBy cellId, client = clientId) ∧ answers.lock = .done)
    (hplaced : answers.edit = .done → r.placed op = true)
    (hrun : (op.edits = none → ∀ x ∈ op.names, isNew x = true → x ∈ r.refs) →
      ∃ cells, execute r.cells op = some cells) :
    ∃ r' fate, r.attempt clientId answers op = (r', fate) ∧
      Attempted r r' op answers.edit fate := by
  obtain ⟨myLocks, lockedBy, hlocked, hlocks⟩ := lockFor_eq hlock
  have hsame : ({ r with myLocks, lockedBy } : Run).request op = r.request op := by cases op <;> rfl
  have hplace : ({ r with myLocks, lockedBy } : Run).placed op = r.placed op := by cases op <;> rfl
  obtain ⟨hnone, hmove⟩ | ⟨request, hrequest, hsent⟩ := r.request_cases op
  · refine ⟨{ r with myLocks, lockedBy }, .skipped, ?_, rfl, rfl, hlocks,
      .inr ⟨rfl, rfl, .inr ⟨rfl, hmove⟩⟩⟩
    simp only [attempt, hlocked, hsame, hnone]
  · obtain ⟨answer, hanswer⟩ : ∃ answer, answers.edit = answer := ⟨_, rfl⟩
    rw [hanswer] at hheard hplaced ⊢
    match answer with
    | .done =>
      obtain ⟨rfl, hnames⟩ := hsent (hplaced rfl)
      obtain ⟨cells, hcells⟩ := hrun hnames
      refine ⟨_, .done, ?_, attempted_carriedOut hlocks hcells⟩
      simp only [attempt, hlocked, hsame, hrequest, send, hanswer, serve, hcells, hplace,
        hplaced rfl, if_true]
    | .rejected e =>
      refine ⟨{ r with myLocks, lockedBy, failed := true }, .conflict, ?_, rfl, rfl, hlocks,
        .inr ⟨rfl, rfl, .inl ⟨rfl, fun h ↦ (by cases h)⟩⟩⟩
      have hconflict : e.isConflict = true := hheard
      simp only [attempt, hlocked, hsame, hrequest, send, hanswer, serve, onEditRejected, hconflict,
        if_true]
    | .failed => cases hheard

end Run

/-! ### The batch -/

/-- Where a batch has come to whose answers lose nothing. -/
structure Going (s : Session) (d : Document) (ops : List SyncOp) (answers : ℕ → Answers) (n : ℕ)
    (r : Run) : Prop where
  running : r.stopped = false
  /-- What is still to be edited is as the batch has it. -/
  versions : ∀ m ≥ n, ∀ op, ops[m]? = some op → ∀ id v, op.edits = some (id, v) →
    ∀ c ∈ r.cells, c.cellId = id → c.version = v
  known : ∀ m ≥ n, ∀ op, ops[m]? = some op → ∀ x ∈ op.names,
    (∃ t ∈ d.cells, t.cellId = x) → ∃ c ∈ r.cells, c.cellId = x
  refs : ∀ x ∈ r.refs, (∃ c ∈ r.cells, c.cellId = x) ∧ ∃ k, x = newRef k
  locks : ∀ m ≥ n, ∀ op, ops[m]? = some op → ∀ id v, op.edits = some (id, v) →
    (id ∈ r.myLocks ↔ id ∈ s.myLocks) ∧ r.lockedBy id = s.lockedBy id
  /-- A new cell has an id, or a conflict has been reported for it. -/
  made : ∀ m < n, ∀ ref after type source metadata,
    ops[m]? = some (.create ref after type source metadata) →
    ((answers m).edit = .done → ref ∈ r.refs) ∧
      (ref ∈ r.refs ∨ ∃ q ∈ r.log, q.1.cell = ref ∧ q.2 = .conflict)
  told : ∀ p ∈ r.log, p.2 = .done ∨ ∃ q ∈ r.log, q.1.cell = p.1.cell ∧ q.2 = .conflict
  exact : (∀ p ∈ r.log, p.2 = .done) →
    executeAll (d.cells.map DocCell.kept) (ops.take n) = some r.cells

variable {n : ℕ}

section Going

variable {s : Session} {d : Document} {ops : List SyncOp} {answers : ℕ → Answers}

theorem Going.start (hbatch : Batch d ops) : Going s d ops answers 0 (s.start d) where
  running := rfl
  versions m _ op hop id v hedits c hc hid := by
    obtain ⟨t, ht, htid, rfl⟩ := hbatch.edits op (List.mem_of_getElem? hop) id v hedits
    obtain ⟨t', ht', rfl⟩ := List.mem_map.1 hc
    exact congrArg DocCell.version
      (List.inj_on_of_nodup_map d.ids ht' ht (Eq.trans hid htid.symm))
  known m _ op _ x _ := by
    rintro ⟨t, ht, rfl⟩
    exact ⟨t.kept, List.mem_map_of_mem ht, rfl⟩
  refs x hx := absurd hx List.not_mem_nil
  locks m _ op _ id v _ := ⟨.rfl, rfl⟩
  made m hm := absurd hm (Nat.not_lt_zero m)
  told p hp := absurd hp List.not_mem_nil
  exact _ := rfl

/-- An operation that is answered with success can be carried out. -/
theorem Going.executable (hbatch : Batch d ops) {r : Run} (h : Going s d ops answers n r)
    {op : SyncOp} (hop : ops[n]? = some op)
    (hnames : op.edits = none → ∀ x ∈ op.names, isNew x = true → x ∈ r.refs) :
    ∃ cells, execute r.cells op = some cells := by
  have hmem := List.mem_of_getElem? hop
  refine Ember.Intellij.executable (fun id v hedits ↦ h.versions n le_rfl op hop id v hedits)
    fun x hx ↦ ?_
  rcases hbatch.names op hmem x hx with hknown | ⟨k, rfl⟩
  · exact h.known n le_rfl op hop x hx hknown
  · refine (h.refs _ (hnames ?_ _ hx (isNew_newRef k))).1
    cases op with
    | create | move => rfl
    | update id v _ _ _ | delete id v =>
      obtain ⟨t, ht, hid, -⟩ := hbatch.edits _ hmem id v rfl
      exact absurd (hid.trans (List.mem_singleton.1 hx).symm) (d.fresh t ht k)

/-- A new cell that another is put behind has its id. -/
theorem Going.placed (hheard : s.Heard ops answers) {r : Run} (h : Going s d ops answers n r)
    {op : SyncOp} (hop : ops[n]? = some op)
    (hdone : (answers n).edit = .done) : r.placed op = true := by
  cases op with
  | create ref after type source metadata =>
    cases after with
    | none => rfl
    | some a =>
      rw [Run.placed, Option.bind_some, beq_iff_eq]
      cases hnew : isNew a with
      | false =>
        cases hresolve : r.resolve a with
        | none => rw [(Run.resolve_eq_none hresolve).1] at hnew; cases hnew
        | some y => rw [(Run.resolve_eq hresolve).1]
      | true =>
        obtain ⟨m, hm, _, _, _, _, hcreate, hmade⟩ :=
          hheard.behind n ref a type source metadata hop hdone hnew
        exact Run.resolve_of_mem ((h.made m hm _ _ _ _ _ hcreate).1 hmade)
  | update | delete | move => rfl

/-- **One operation** of a batch whose answers lose nothing. -/
theorem Going.step (hbatch : Batch d ops) (hheard : s.Heard ops answers) {r : Run} {op : SyncOp}
    (hop : ops[n]? = some op) (h : Going s d ops answers n r) :
    Going s d ops answers (n + 1) (r.step s.clientId answers (op, n)) := by
  have hlock : ∀ cellId v source type metadata, op = .update cellId v source type metadata →
      cellId ∈ r.myLocks ∨
        (∀ client ∈ r.lockedBy cellId, client = s.clientId) ∧ (answers n).lock = .done := by
    rintro cellId v source type metadata rfl
    obtain ⟨hmine, hby⟩ := h.locks n le_rfl _ hop cellId v rfl
    rw [hmine, hby]
    exact hheard.locks n cellId v source type metadata hop
  obtain ⟨r', fate, hattempt, hdid⟩ := Run.attempt_spec
    (hheard.edits n op hop) hlock (h.placed hheard hop) (h.executable hbatch hop)
  have hstep : r.step s.clientId answers (op, n) = { r' with log := r.log ++ [(op, fate)] } := by
    rw [Run.step, if_neg (by rw [h.running]; exact Bool.false_ne_true)]
    simp only [hattempt, hdid.log]
  have hbefore : ∀ m ≥ n + 1, ∀ op', ops[m]? = some op' → op.Before op' := fun m hm op' hop' ↦ by
    obtain ⟨hn, rfl⟩ := List.getElem?_eq_some_iff.1 hop
    obtain ⟨hm', rfl⟩ := List.getElem?_eq_some_iff.1 hop'
    exact List.pairwise_iff_getElem.1 hbatch.order n m hn hm' hm
  -- what was there before is there still, unless a later operation does not need it
  have hthere : ∀ x, (∃ c ∈ r.cells, c.cellId = x) → (op.isDelete = true → op.cell ≠ x) →
      ∃ c ∈ r'.cells, c.cellId = x := fun x hx hne ↦ by
    obtain ⟨-, hrun, -⟩ | ⟨hcells, -, -⟩ := hdid.fate
    · exact there_of_execute hrun hx hne
    · exact hcells ▸ hx
  have hkept : ∀ x ∈ r.refs, x ∈ r'.refs := fun x hx ↦ by
    obtain ⟨-, -, hrefs⟩ | ⟨-, hrefs, -⟩ := hdid.fate
    · exact hrefs ▸ List.mem_append_right _ hx
    · exact hrefs ▸ hx
  rw [hstep]
  constructor
  case running => exact hdid.stopped.trans h.running
  case versions =>
    intro m hm op' hop' id v hedits c hc hid
    have hne : c.cellId ≠ op.cell := fun heq ↦
      (hbefore m hm op' hop').edits v (by rw [hedits, ← hid, heq])
    refine h.versions m (by omega) op' hop' id v hedits c ?_ hid
    obtain ⟨-, hrun, -⟩ | ⟨hcells, -, -⟩ := hdid.fate
    · exact (mem_of_execute hrun hne).1 hc
    · exact hcells ▸ hc
  case known =>
    intro m hm op' hop' x hx hknown
    exact hthere x (h.known m (by omega) op' hop' x hx hknown) fun hdelete heq ↦
      (hbefore m hm op' hop').names hdelete (heq ▸ hx)
  case refs =>
    intro x hx
    obtain ⟨-, hrun, hrefs⟩ | ⟨hcells, hrefs, -⟩ := hdid.fate
    · rcases List.mem_append.1 (hrefs ▸ hx : x ∈ op.news ++ r.refs) with hx | hx
      · cases op with
        | create ref after type source metadata =>
          obtain rfl := List.mem_singleton.1 hx
          exact ⟨exists_of_execute hrun rfl,
            hbatch.creates _ _ _ _ _ (List.mem_of_getElem? hop)⟩
        | update | delete | move => cases hx
      · obtain ⟨hcell, k, rfl⟩ := h.refs x hx
        refine ⟨hthere _ hcell fun hdelete heq ↦ ?_, k, rfl⟩
        cases op with
        | delete id v =>
          obtain ⟨t, ht, hid, -⟩ := hbatch.edits _ (List.mem_of_getElem? hop) id v rfl
          exact d.fresh t ht k (hid.trans heq)
        | update | create | move => cases hdelete
    · rw [hcells]
      exact h.refs x (hrefs ▸ hx)
  case locks =>
    intro m hm op' hop' id v hedits
    have hne : id ≠ op.cell := fun heq ↦
      (hbefore m hm op' hop').edits v (by rw [hedits, heq])
    obtain ⟨hmine, hby⟩ := h.locks m (by omega) op' hop' id v hedits
    exact ⟨(hdid.locks id hne).1.trans hmine, (hdid.locks id hne).2.trans hby⟩
  case made =>
    intro m hm ref after type source metadata hcreate
    rcases Nat.lt_succ_iff_lt_or_eq.1 hm with hm | rfl
    · refine (h.made m hm ref after type source metadata hcreate).imp
        (fun hmade hdone ↦ hkept ref (hmade hdone)) ?_
      rintro (href | ⟨q, hq, hreported⟩)
      · exact .inl (hkept ref href)
      · exact .inr ⟨q, List.mem_append_left _ hq, hreported⟩
    · obtain rfl := Option.some.inj (hop.symm.trans hcreate)
      obtain ⟨-, -, hrefs⟩ | ⟨-, -, ⟨rfl, hanswer⟩ | ⟨-, _, _, hmove, -⟩⟩ := hdid.fate
      · have href : ref ∈ r'.refs := hrefs ▸ List.mem_append_left _ List.mem_cons_self
        exact ⟨fun _ ↦ href, .inl href⟩
      · exact ⟨fun hdone ↦ absurd hdone hanswer,
          .inr ⟨_, List.mem_append_right _ (List.mem_singleton_self _), rfl, rfl⟩⟩
      · cases hmove
  case told =>
    intro p hp
    rcases List.mem_append.1 hp with hp | hp
    · refine (h.told p hp).imp_right ?_
      rintro ⟨q, hq, hreported⟩
      exact ⟨q, List.mem_append_left _ hq, hreported⟩
    · obtain rfl := List.mem_singleton.1 hp
      obtain ⟨rfl, -⟩ | ⟨-, -, ⟨rfl, -⟩ | ⟨-, ref, toIndex, rfl, hnew, hno⟩⟩ := hdid.fate
      · exact .inl rfl
      · exact .inr ⟨_, List.mem_append_right _ (List.mem_singleton_self _), rfl, rfl⟩
      · -- the cell was to be created before, and is not there
        obtain ⟨m, hm, _, _, _, _, hcreate⟩ := hheard.moves n ref toIndex hop hnew
        obtain ⟨q, hq, hreported⟩ := (h.made m hm _ _ _ _ _ hcreate).2.resolve_left hno
        exact .inr ⟨q, List.mem_append_left _ hq, hreported⟩
  case exact =>
    intro hall
    have hdone : fate = .done := hall _ (List.mem_append_right _ (List.mem_singleton_self _))
    have hbefore' := h.exact fun p hp ↦ hall p (List.mem_append_left _ hp)
    obtain ⟨-, hrun, -⟩ | ⟨-, -, ⟨rfl, -⟩ | ⟨rfl, -⟩⟩ := hdid.fate
    · rw [List.take_add_one, hop, executeAll_append, hbefore', Option.bind_some,
        Option.toList_some, executeAll, hrun]
      rfl
    · cases hdone
    · cases hdone

/-- **A whole batch** whose answers lose nothing. -/
theorem going_batch (hbatch : Batch d ops) (hheard : s.Heard ops answers) :
    Going s d ops answers ops.length
      (ops.zipIdx.foldl (Run.step s.clientId answers) (s.start d)) :=
  foldl_zipIdx (Going.start hbatch) fun _ _ _ hop h ↦ h.step hbatch hheard hop

end Going

/-! ### What a push leaves -/

/-- Nothing the push leaves undone goes unreported: the buffer is edited again meanwhile, or the
batch is sent and its answers lose nothing, or it is not sent and nothing is to be pushed. -/
def Session.LosesNothing (stringify : JsonValue → String) (s : Session) (d : Document) (b : Buffer)
    (answers : ℕ → Answers) (edited : Bool) : Prop :=
  edited = true ∨
    (s.dirty = true ∧ s.connected = true ∧ s.Heard (Session.ops stringify d b) answers) ∨
    (¬ (s.dirty = true ∧ s.connected = true) ∧ b.Matches (d.cells.map DocCell.kept))

/-- **A push whose failures are all conflicts is settled**: where no request of the batch is refused
for another reason or lost, and no cell is put behind one that was not created, the session is dirty
after `flush`, or has reported a conflict for each cell it could not push, or the kernel's document
is the buffer. -/
theorem flush_settled (stringify : JsonValue → String) (s : Session) (d : Document) (b : Buffer)
    (answers : ℕ → Answers) (edited : Bool) (h : s.LosesNothing stringify d b answers edited) :
    (s.flush stringify d b answers edited).Settled b := by
  have hdirty : (s.flush stringify d b answers edited).dirty = edited := by
    rw [Session.flush]
    split
    · rfl
    · split <;> rfl
  obtain hedited | ⟨hs, hconnected, hheard⟩ | ⟨hunsent, hmatches⟩ := h
  · exact .inl (hdirty.trans hedited)
  · obtain ⟨hpairs, ⟨cells, hrun, hlength, hsynced⟩, -⟩ := sync_outcome stringify d b
    have hgoing := going_batch (batch_reconcile hpairs) hheard
    have hflush : (s.flush stringify d b answers edited).run =
        (Session.ops stringify d b).zipIdx.foldl (Run.step s.clientId answers) (s.start d) := by
      rw [Session.flush, hs, hconnected]
      rfl
    by_cases hall : ∀ p ∈ (s.flush stringify d b answers edited).run.log, p.2 = .done
    · refine .inr (.inr ?_)
      rw [hflush] at hall ⊢
      have hexact := hgoing.exact hall
      rw [List.take_length] at hexact
      obtain rfl := Option.some.inj (hrun.symm.trans hexact)
      exact ⟨hlength, fun i l c hl hc ↦ ⟨(hsynced i l c hl hc).source, (hsynced i l c hl hc).other⟩⟩
    · push Not at hall
      refine .inr (.inl ⟨hall, fun p hp hundone ↦ ?_⟩)
      rw [Flushed.Reported, hflush]
      rw [hflush] at hp
      exact (hgoing.told p hp).resolve_left hundone
  · refine .inr (.inr ?_)
    have hflush : (s.flush stringify d b answers edited).run = s.start d := by
      rw [Session.flush]
      split
      case isTrue => rfl
      case isFalse hs =>
        split
        case isTrue => rfl
        case isFalse hconnected =>
          exact absurd ⟨by simpa using hs, by simpa using hconnected⟩ hunsent
    rw [hflush]
    exact hmatches

/-! ### A cell that was changed -/

/-- `twoBufferCells` with other text in its second cell. -/
def changedBufferCells : Buffer where
  preamble := bufferCell 0 none [] ""
  rest := [bufferCell 1 none [] "y"]
  index i s h := by
    match i with
    | 0 => exact Option.some.inj h ▸ rfl
    | 1 => exact Option.some.inj h ▸ rfl
    | _ + 2 => cases h
  metadata l hl := by
    rcases List.mem_cons.1 hl with rfl | hl
    · exact ⟨List.nodup_nil, by simp [bufferCell], by simp [bufferCell]⟩
    · rw [List.mem_singleton.1 hl]
      exact ⟨List.nodup_nil, by simp [bufferCell], by simp [bufferCell]⟩

/-- A session that is connected and dirty. -/
def dirtySession : Session where
  dirty := true
  connected := true
  clientId := "me"
  myLocks := []
  lockedBy := fun _ ↦ none

theorem ops_changed : Session.ops (fun _ ↦ "") twoCells changedBufferCells =
    [.update "c" 1 (some "y") none none] := by
  simp only [Session.ops, reconcile]
  rw [firstOrder_eq (by decide)]
  rfl

theorem flush_settled_changed : (dirtySession.flush (fun _ ↦ "") twoCells changedBufferCells
    (fun _ ↦ ⟨.done, .rejected ⟨409, "conflict"⟩⟩) false).Settled changedBufferCells := by
  refine flush_settled _ dirtySession twoCells changedBufferCells _ _ (.inr (.inl ⟨rfl, rfl, ?_⟩))
  rw [ops_changed]
  refine ⟨fun _ _ _ ↦ rfl, fun _ _ _ _ _ _ _ ↦ .inr ⟨fun _ h ↦ (by cases h), rfl⟩,
    fun n _ _ _ _ _ hop ↦ ?_, fun n _ _ hop ↦ ?_⟩
  · obtain hop := List.mem_singleton.1 (List.mem_of_getElem? hop)
    cases hop
  · obtain hop := List.mem_singleton.1 (List.mem_of_getElem? hop)
    cases hop

/-- The push of a changed cell is lost when its request is not answered, or when another client has
the cell's lock. -/
theorem not_flush_settled :
    ¬ (dirtySession.flush (fun _ ↦ "") twoCells changedBufferCells (fun _ ↦ ⟨.done, .failed⟩)
        false).Settled changedBufferCells ∧
      ¬ (dirtySession.flush (fun _ ↦ "") twoCells changedBufferCells
        (fun _ ↦ ⟨.rejected ⟨409, "locked"⟩, .done⟩) false).Settled changedBufferCells := by
  have hlost : ∀ out : Flushed, out.dirty = false → ∀ op fate, out.run.log = [(op, fate)] →
      fate ≠ .done → fate ≠ .conflict → out.run.cells = twoCells.cells.map DocCell.kept →
      ¬ out.Settled changedBufferCells := by
    rintro out hdirty op fate hlog hundone hno hcells (h | ⟨-, h⟩ | ⟨-, h⟩)
    · rw [hdirty] at h
      cases h
    · obtain ⟨q, hq, -, hconflict⟩ := h (op, fate) (hlog ▸ List.mem_singleton_self _) hundone
      rw [hlog, List.mem_singleton] at hq
      exact hno ((congrArg Prod.snd hq).symm.trans hconflict)
    · rw [hcells] at h
      have hsource := (h 1 _ _ rfl rfl).1
      exact absurd hsource (by decide)
  constructor
  · refine hlost _ rfl (.update "c" 1 (some "y") none none) .failed ?_ (by decide) (by decide) ?_
    · simp only [Session.flush, ops_changed]
      rfl
    · simp only [Session.flush, ops_changed]
      rfl
  · refine hlost _ rfl (.update "c" 1 (some "y") none none) .lockedOut ?_ (by decide) (by decide) ?_
    · simp only [Session.flush, ops_changed]
      rfl
    · simp only [Session.flush, ops_changed]
      rfl

end Ember.Intellij
