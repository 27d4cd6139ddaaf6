import Ember.Foundation.Arrange
import Ember.Intellij.Json
import Mathlib.Data.List.MinMax

/-!
# Syncing the editor buffer with the kernel's document

`protocol/CellSync.kt`: `CellMatcher` pairs the cells of the buffer with those of the server's
document, by `@id`, then by the hash of the body, then by index, and `CellReconciler` computes the
edit requests that turn the document into the buffer: deletes, updates, creates, moves.

`execute` is what the manager does with a request. A cell it creates is known by the `new:` reference
of the request here; the plugin keeps a table from these to the ids the manager answers with. Where a
cell stands is its index, so the manager's cells (`KeptCell`) have none of their own.

`Json.stringify`, which names a cell whose `@id` is not a string, is a parameter.
-/

namespace Ember.Intellij

/-- The metadata of a cell, in insertion order. -/
abbrev Metadata := List (String × JsonValue)

/-- A cell of the editor buffer, as far as syncing reads it. -/
structure NotebookCell where
  index : ℕ
  type : String
  title : Option String
  metadata : Metadata
  source : String
  sourceSha256 : String

/-- A cell of the server's document. -/
structure DocCell where
  cellId : String
  index : ℕ
  type : String
  title : Option String
  metadata : Metadata
  source : String
  sourceSha256 : String
  version : ℤ

namespace NotebookCell

/-- `id`: the `@id` metadata, if present. -/
def id (stringify : JsonValue → String) (l : NotebookCell) : Option String :=
  match l.metadata.lookup "id" with
  | none | some .null => none
  | some (.str s) => some s
  | some v => some (stringify v)

/-- `isPreamble`. -/
def isPreamble (l : NotebookCell) : Bool := l.index == 0

end NotebookCell

/-! ### `CellMatcher` -/

/-- `metadata["id"] == id`. -/
def Metadata.hasId (metadata : Metadata) (id : String) : Bool :=
  match metadata.lookup "id" with
  | some (.str s) => s == id
  | _ => false

/-- The pairs found so far. -/
structure Matching where
  /-- For each local cell the server's. -/
  result : List (Option String)
  claimed : List String

namespace Matching

/-- The pair of a local cell. -/
def pair (m : Matching) (i : ℕ) : Option String := (m.result[i]?).join

/-- `claim`, where a cell was found. -/
def claim (m : Matching) (i : ℕ) : Option DocCell → Matching
  | some c => ⟨m.result.set i (some c.cellId), c.cellId :: m.claimed⟩
  | none => m

/-- `it.cellId !in claimed`. -/
def unclaimed (m : Matching) (c : DocCell) : Bool := !m.claimed.contains c.cellId

/-- One pass over the local cells that have no pair yet. -/
def pass (find : Matching → NotebookCell → Option DocCell) (local_ : List NotebookCell)
    (m : Matching) : Matching :=
  local_.zipIdx.foldl
    (fun m p ↦ if (m.pair p.2).isSome then m else m.claim p.2 (find m p.1)) m

end Matching

namespace CellMatcher

variable (stringify : JsonValue → String) (server : List DocCell)

/-- The first pass: by `@id`. -/
def byId (m : Matching) (l : NotebookCell) : Option DocCell :=
  match l.id stringify with
  | some id => server.find? fun c ↦ m.unclaimed c && (c.cellId == id || c.metadata.hasId id)
  | none => none

/-- The second pass: by the hash of the body, the nearest index first. -/
def bySha (m : Matching) (l : NotebookCell) : Option DocCell :=
  if l.isPreamble then none
  else (server.filter fun c ↦
      m.unclaimed c && c.index != 0 && c.sourceSha256 == l.sourceSha256).argmin fun c ↦
    ((c.index : ℤ) - l.index).natAbs

/-- The third pass: by index. -/
def byIndex (m : Matching) (l : NotebookCell) : Option DocCell :=
  if l.isPreamble then none
  else server.find? fun c ↦ m.unclaimed c && c.index == l.index && c.index != 0

/-- The preamble pairs with the preamble. -/
def preamble (local_ : List NotebookCell) : Matching :=
  let m : Matching := ⟨local_.map fun _ ↦ none, []⟩
  if local_.head?.any NotebookCell.isPreamble then m.claim 0 (server.find? fun c ↦ c.index == 0)
  else m

/-- `match`, with what was claimed. -/
def matching (local_ : List NotebookCell) : Matching :=
  ((preamble server local_).pass (byId stringify server) local_ |>.pass (bySha server) local_).pass
    (byIndex server) local_

/-- `match`: for each local cell the server's. -/
def match_ (local_ : List NotebookCell) : List (Option String) :=
  (matching stringify server local_).result

end CellMatcher

/-! ### `CellReconciler` -/

/-- `SyncOp`. -/
inductive SyncOp
  | update (cellId : String) (baseVersion : ℤ) (source type : Option String)
      (metadata : Option Metadata)
  | create (ref : String) (afterRef : Option String) (type source : String) (metadata : Metadata)
  | delete (cellId : String) (baseVersion : ℤ)
  | move (ref : String) (toIndex : ℕ)

namespace CellReconciler

/-- `newRef`. -/
def newRef (localPosition : ℕ) : String := "new:" ++ toString localPosition

/-- `sameMetadata`. -/
def sameMetadata (a b : Metadata) : Bool :=
  a.length == b.length && a.all fun p ↦
    match b.lookup p.1 with
    | some v => v.norm.eqv p.2.norm
    | none => false

/-- `byId[..]`: of cells with one id the last. -/
def byId (server : List DocCell) (cellId : String) : Option DocCell :=
  (server.filter fun c ↦ c.cellId == cellId).getLast?

/-- The deletes: server cells nothing in the buffer maps to, never the preamble. -/
def deletes (server : List DocCell) (matched : List String) : List SyncOp :=
  server.filterMap fun s ↦
    if !matched.contains s.cellId && s.index != 0 then some (.delete s.cellId s.version) else none

/-- The update of a matched cell, if it differs. -/
def update (l : NotebookCell) (s : DocCell) : Option SyncOp :=
  let source := if l.source != s.source then some l.source else none
  let type := if !l.isPreamble && l.type != s.type then some l.type else none
  let metadata :=
    if !l.isPreamble && !sameMetadata l.metadata s.metadata then some l.metadata else none
  if source.isSome || type.isSome || metadata.isSome then
    some (.update s.cellId s.version source type metadata)
  else none

/-- The updates of matched cells. -/
def updates (local_ : List NotebookCell) (server : List DocCell) (pairs : List (Option String)) :
    List SyncOp :=
  local_.zipIdx.filterMap fun p ↦
    ((pairs[p.2]?).join.bind (byId server)).bind fun s ↦ update p.1 s

/-- `refs`: how the requests name the local cells. -/
def refs (local_ : List NotebookCell) (pairs : List (Option String)) : List String :=
  local_.zipIdx.map fun p ↦ (pairs[p.2]?).join.getD (newRef p.2)

/-- The order the deletes and updates leave. -/
def firstOrder (server : List DocCell) (matched : List String) : List String :=
  ((server.filter fun c ↦ matched.contains c.cellId || c.index == 0).mergeSort
    fun a b ↦ a.index ≤ b.index).map DocCell.cellId

/-- One round of the loop of creates: the order, and the request. -/
def createOne (pairs : List (Option String)) (refs : List String)
    (state : List String × List SyncOp) (p : NotebookCell × ℕ) : List String × List SyncOp :=
  if (pairs[p.2]?).join.isSome then state
  else if p.1.isPreamble then state -- a server document always has a preamble
  else
    let ref := newRef p.2
    let after := if p.2 > 0 then refs[p.2 - 1]? else none
    let pos := match after with
      | none => 0
      | some a =>
        match state.1.idxOf? a with
        | some k => k + 1
        | none => 0
    (state.1.placeAt pos ref, state.2 ++ [.create ref after p.1.type p.1.source p.1.metadata])

/-- The creates, each after the buffer cell before it, and the order they leave. -/
def creates (local_ : List NotebookCell) (pairs : List (Option String)) (order : List String) :
    List String × List SyncOp :=
  local_.zipIdx.foldl (createOne pairs (refs local_ pairs)) (order, [])

/-- The order of the buffer. -/
def target (local_ : List NotebookCell) (pairs : List (Option String)) : List String :=
  local_.zipIdx.filterMap fun p ↦
    if p.1.isPreamble && (pairs[p.2]?).join.isNone then none
    else some ((pairs[p.2]?).join.getD (newRef p.2))

/-- `reconcile`. -/
def reconcile (local_ : List NotebookCell) (server : List DocCell) (pairs : List (Option String)) :
    List SyncOp :=
  let matched := pairs.filterMap id
  let created := creates local_ pairs (firstOrder server matched)
  deletes server matched ++ updates local_ server pairs ++ created.2 ++
    (created.1.arrange 0 (target local_ pairs)).2.map fun m ↦ .move m.1 m.2

end CellReconciler

/-! ### The manager -/

/-- A cell of the manager's document. -/
structure KeptCell where
  cellId : String
  type : String
  title : Option String
  metadata : Metadata
  source : String
  version : ℤ

/-- The manager's cell behind a cell of the mirror. -/
def DocCell.kept (s : DocCell) : KeptCell :=
  ⟨s.cellId, s.type, s.title, s.metadata, s.source, s.version⟩

namespace KeptCell

/-- A cell with the fields of a request in place of its own. -/
def patch (source type : Option String) (metadata : Option Metadata) (c : KeptCell) : KeptCell :=
  { c with
    source := source.getD c.source
    type := type.getD c.type
    metadata := metadata.getD c.metadata
    version := c.version + 1 }

/-- A new cell. Requests carry no title. -/
def created (ref type source : String) (metadata : Metadata) : KeptCell :=
  ⟨ref, type, none, metadata, source, 1⟩

end KeptCell

/-- What the manager does with a request; none where it refuses it, because a cell it names is not
there or has another version. -/
def execute (cells : List KeptCell) : SyncOp → Option (List KeptCell)
  | .delete cellId baseVersion =>
    match cells.find? fun c ↦ c.cellId == cellId with
    | some c =>
      if c.version = baseVersion then some (cells.filter fun c ↦ c.cellId != cellId) else none
    | none => none
  | .update cellId baseVersion source type metadata =>
    match cells.find? fun c ↦ c.cellId == cellId with
    | some c =>
      if c.version = baseVersion then
        some (cells.map fun c ↦
          if c.cellId = cellId then c.patch source type metadata else c)
      else none
    | none => none
  | .create ref after type source metadata =>
    match after with
    | none => some (cells ++ [.created ref type source metadata])
    | some a =>
      match cells.findIdx? fun c ↦ c.cellId == a with
      | some k => some (cells.placeAt (k + 1) (.created ref type source metadata))
      | none => none
  | .move ref toIndex =>
    match cells.find? fun c ↦ c.cellId == ref with
    | some c => some ((cells.filter fun c ↦ c.cellId != ref).placeAt toIndex
        { c with version := c.version + 1 })
    | none => none

/-- What the manager does with requests in order. -/
def executeAll (cells : List KeptCell) : List SyncOp → Option (List KeptCell)
  | [] => some cells
  | op :: ops => (execute cells op).bind fun cells ↦ executeAll cells ops

end Ember.Intellij
