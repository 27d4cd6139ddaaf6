import Ember.Intellij.CellSync
import Mathlib

/-!
# The manager's document and its events

`test/fake/fakeManager.ts`: the cells of a notebook, the requests that change them, and the event
each change emits. Where a cell stands is its index, so that every change of the order renumbers the
cells. Events are numbered from one in the order they are emitted; each change of the document has
the next `doc_version`.

`Event.on` is what an event says became of the document, and `Manager.Tells` that the events up to
now say how it got from a first state to what it is. It is all that a mirror can rely on: the cells an
event names are there, versions of a cell only grow, and no id is used twice.

Run data (outputs, locks, presence) has events, but none of them changes a cell's place, source or
version; they are `other` here. The hash of a source is a parameter.
-/

namespace Ember.Collab

open Ember.Intellij

/-! ### Cells in order -/

/-- `reindex`: where a cell stands is its index. -/
def renumber (cells : List DocCell) : List DocCell := cells.mapIdx fun i c ↦ { c with index := i }

/-- A cell without its index. -/
def bare (c : DocCell) : DocCell := { c with index := 0 }

/-- Every index is right. -/
def Numbered (cells : List DocCell) : Prop := ∀ (i : ℕ) (c : DocCell), cells[i]? = some c → c.index = i

@[simp] theorem bare_cellId (c : DocCell) : (bare c).cellId = c.cellId := rfl

@[simp] theorem bare_version (c : DocCell) : (bare c).version = c.version := rfl

variable {x y : DocCell}

theorem cellId_of_bare (h : bare x = bare y) : x.cellId = y.cellId := by
  rw [← bare_cellId x, h, bare_cellId]

theorem version_of_bare (h : bare x = bare y) : x.version = y.version := by
  rw [← bare_version x, h, bare_version]

@[simp] theorem length_renumber (cells : List DocCell) : (renumber cells).length = cells.length :=
  List.length_mapIdx

theorem getElem?_renumber (cells : List DocCell) (i : ℕ) :
    (renumber cells)[i]? = cells[i]?.map fun c ↦ { c with index := i } :=
  List.getElem?_mapIdx

theorem numbered_renumber (cells : List DocCell) : Numbered (renumber cells) := by
  intro i c hc
  rw [getElem?_renumber, Option.map_eq_some_iff] at hc
  obtain ⟨d, -, rfl⟩ := hc
  rfl

variable {cells cells' : List DocCell}

/-- The order and the contents are what there is to a numbered list. -/
theorem Numbered.ext (h : Numbered cells) (h' : Numbered cells')
    (hbare : cells.map bare = cells'.map bare) : cells = cells' := by
  refine List.ext_getElem? fun i ↦ ?_
  have hi := congrArg (·[i]?) hbare
  simp only [List.getElem?_map] at hi
  cases hc : cells[i]? with
  | none =>
    rw [hc, Option.map_none, eq_comm, Option.map_eq_none_iff] at hi
    exact hi.symm
  | some c =>
    rw [hc, Option.map_some, eq_comm, Option.map_eq_some_iff] at hi
    obtain ⟨c', hc', heq⟩ := hi
    have hindex : c.index = c'.index := (h i c hc).trans (h' i c' hc').symm
    rw [hc', Option.some_inj]
    obtain ⟨cellId, index, type, title, metadata, source, sha, version⟩ := c
    obtain ⟨cellId', index', type', title', metadata', source', sha', version'⟩ := c'
    simp only [bare, DocCell.mk.injEq] at heq hindex ⊢
    simp [heq, hindex]

@[simp] theorem map_bare_renumber (cells : List DocCell) :
    (renumber cells).map bare = cells.map bare := by
  refine List.ext_getElem? fun i ↦ ?_
  rw [List.getElem?_map, getElem?_renumber, List.getElem?_map, Option.map_map]
  rfl

theorem renumber_eq (h : Numbered cells')
    (hbare : cells.map bare = cells'.map bare) : renumber cells = cells' :=
  (numbered_renumber cells).ext h (by rw [map_bare_renumber, hbare])

theorem renumber_congr (hbare : cells.map bare = cells'.map bare) :
    renumber cells = renumber cells' :=
  renumber_eq (numbered_renumber cells') (by rw [map_bare_renumber, hbare])

theorem Numbered.renumber (h : Numbered cells) : renumber cells = cells :=
  renumber_eq h rfl

@[simp] theorem map_cellId_renumber (cells : List DocCell) :
    (renumber cells).map DocCell.cellId = cells.map DocCell.cellId := by
  have h := congrArg (List.map DocCell.cellId) (map_bare_renumber cells)
  rw [List.map_map, List.map_map] at h
  exact h

/-- The cells but one. -/
def others (cells : List DocCell) (cellId : String) : List DocCell :=
  cells.filter fun c ↦ c.cellId != cellId

/-- What a client gets for a request. -/
inductive Answer
  /-- The cell as it is now. -/
  | cell (c : DocCell)
  | moved (c : DocCell) (toIndex : ℕ)
  | gone (cellId : String)
  /-- The request was for another version than the current one. -/
  | conflict (deletes : Bool) (current : DocCell)
  | refused

/-! ### Events -/

/-- An event about the document. -/
inductive Event
  | created (docVersion : ℕ) (cell : DocCell)
  | updated (docVersion : ℕ) (cell : DocCell)
  | deleted (docVersion : ℕ) (cellId : String)
  | moved (docVersion : ℕ) (cell : DocCell)
  /-- Locks, presence, runs. -/
  | other

namespace Event

/-- It changes the cells. -/
def ofCells : Event → Bool
  | other => false
  | _ => true

/-- What it says became of the document. -/
def on (doc : List DocCell) : Event → List DocCell
  | created _ c => renumber (doc.placeAt c.index c)
  | updated _ c => doc.map fun x ↦ if x.cellId = c.cellId then c else x
  | deleted _ cellId => renumber (others doc cellId)
  | moved _ c => renumber ((others doc c.cellId).placeAt c.index c)
  | other => doc

/-- The `doc_version` after it. -/
def version (v : ℕ) : Event → ℕ
  | other => v
  | _ => v + 1

/-- The answer to the request that the event is about. -/
def Answers (doc : List DocCell) : Event → Answer → Prop
  | created _ c, .cell c' => c' = c
  | updated _ c, .cell c' => c' = c
  | deleted _ cellId, .gone cellId' => cellId' = cellId
  | moved _ c, .moved c' toIndex => c' = c ∧ c.index = min toIndex (doc.length - 1)
  | other, .refused => True
  | _, _ => False

/-- It is about this document. -/
def Fits (doc : List DocCell) (v : ℕ) : Event → Prop
  | created v' c => v' = v + 1 ∧ c.index ≤ doc.length ∧ ∀ x ∈ doc, x.cellId ≠ c.cellId
  | updated v' c => v' = v + 1 ∧ ∃ x ∈ doc, x.cellId = c.cellId ∧ x.index = c.index ∧
      x.version < c.version
  | deleted v' cellId => v' = v + 1 ∧ ∃ x ∈ doc, x.cellId = cellId
  | moved v' c => v' = v + 1 ∧ c.index < doc.length ∧ ∃ x ∈ doc, x.cellId = c.cellId ∧
      x.version < c.version
  | other => True

end Event

/-! ### The manager -/

/-- The id of a new cell. -/
def newId (n : ℕ) : String := "c_" ++ String.ofList (Nat.toDigits 16 n)

/-- The document, and the events emitted. -/
structure Manager where
  cells : List DocCell
  docVersion : ℕ
  nextId : ℕ
  events : List Event

/-- Where a new cell goes. -/
inductive Place
  | after (cellId : String)
  | before (cellId : String)
  | last

/-- The place in a list; a cell that is not there has the index `-1`, which `splice` counts from the
end. -/
def Place.index (cells : List DocCell) : Place → ℕ
  | after cellId =>
    match cells.findIdx? fun c ↦ c.cellId == cellId with
    | some i => i + 1
    | none => 0
  | before cellId => (cells.findIdx? fun c ↦ c.cellId == cellId).getD (cells.length - 1)
  | last => cells.length

/-- A request. -/
inductive Request
  | create (place : Place) (type source : Option String) (metadata : Option Metadata)
  | patch (cellId : String) (baseVersion : ℤ) (source type : Option String)
  | delete (cellId : String) (baseVersion : ℤ)
  | move (cellId : String) (toIndex : ℕ)
  /-- Anything else that emits an event. -/
  | other

namespace Manager

variable (sha256 : String → String)

/-- Change the cells, and tell. -/
def emit (m : Manager) (cells : List DocCell) (event : ℕ → Event) : Manager :=
  { m with cells, docVersion := m.docVersion + 1, events := m.events ++ [event (m.docVersion + 1)] }

/-- A new cell. -/
def newCell (m : Manager) (place : Place) (type source : Option String)
    (metadata : Option Metadata) : DocCell where
  cellId := newId m.nextId
  index := place.index m.cells
  type := type.getD "code"
  title := none
  metadata := metadata.getD []
  source := source.getD ""
  sourceSha256 := sha256 (source.getD "")
  version := 1

/-- A cell with another source or type. -/
def patched (c : DocCell) (source type : Option String) : DocCell :=
  { c with
    source := source.getD c.source
    sourceSha256 := (source.map sha256).getD c.sourceSha256
    type := type.getD c.type
    version := c.version + 1 }

/-- `byId`. -/
def byId (m : Manager) (cellId : String) : Option DocCell :=
  m.cells.find? fun c ↦ c.cellId == cellId

/-- `handle`, for the requests about cells. -/
def handle (m : Manager) : Request → Manager × Answer
  | .create place type source metadata =>
    let cell := m.newCell sha256 place type source metadata
    ({ m.emit (renumber (m.cells.placeAt cell.index cell)) (.created · cell) with
      nextId := m.nextId + 1 }, .cell cell)
  | .patch cellId baseVersion source type =>
    match m.byId cellId with
    | none => (m, .refused)
    | some c =>
      if baseVersion ≠ c.version then (m, .conflict false c)
      else
        let cell := patched sha256 c source type
        (m.emit (m.cells.map fun x ↦ if x.cellId = cell.cellId then cell else x) (.updated · cell),
          .cell cell)
  | .delete cellId baseVersion =>
    match m.byId cellId with
    | none => (m, .refused)
    | some c =>
      if baseVersion ≠ c.version then (m, .conflict true c)
      else (m.emit (renumber (others m.cells cellId)) (.deleted · cellId), .gone cellId)
  | .move cellId toIndex =>
    match m.byId cellId with
    | none => (m, .refused)
    | some c =>
      let rest := others m.cells cellId
      let cell := { c with version := c.version + 1, index := min toIndex rest.length }
      (m.emit (renumber (rest.placeAt cell.index cell)) (.moved · cell), .moved cell toIndex)
  | .other => ({ m with events := m.events ++ [.other] }, .refused)

end Manager

/-! ### What the events tell -/

/-- A document: every index is right, and no id occurs twice. -/
structure Good (doc : List DocCell) : Prop where
  numbered : Numbered doc
  ids : (doc.map DocCell.cellId).Nodup

theorem Good.eq_of_cellId {doc : List DocCell} (h : Good doc) (hx : x ∈ doc) (hy : y ∈ doc)
    (heq : x.cellId = y.cellId) : x = y :=
  List.inj_on_of_nodup_map h.ids hx hy heq

theorem Good.others {doc : List DocCell} (h : Good doc) (cellId : String) :
    ((others doc cellId).map DocCell.cellId).Nodup :=
  h.ids.sublist (List.filter_sublist.map _)

variable {cellId : String}

theorem mem_others {doc : List DocCell} :
    x ∈ others doc cellId ↔ x ∈ doc ∧ x.cellId ≠ cellId := by
  rw [Collab.others, List.mem_filter, bne_iff_ne]

theorem Good.perm_others {doc : List DocCell} (h : Good doc) (hx : x ∈ doc) :
    doc.Perm (x :: Collab.others doc x.cellId) := by
  have hnodup : doc.Nodup := h.ids.of_map
  refine (List.perm_ext_iff_of_nodup hnodup (List.nodup_cons.2
    ⟨fun hmem ↦ (mem_others.1 hmem).2 rfl, hnodup.filter _⟩)).2 fun y ↦ ?_
  rw [List.mem_cons, mem_others]
  refine ⟨fun hy ↦ ?_, fun hor ↦ hor.elim (· ▸ hx) And.left⟩
  exact or_iff_not_imp_left.2 fun hne ↦ ⟨hy, fun hid ↦ hne (h.eq_of_cellId hy hx hid)⟩

theorem Good.length_others {doc : List DocCell} (h : Good doc) (hx : x ∈ doc) :
    doc.length = (Collab.others doc x.cellId).length + 1 := (h.perm_others hx).length_eq

theorem others_append (xs ys : List DocCell) (cellId : String) :
    others (xs ++ ys) cellId = others xs cellId ++ others ys cellId := List.filter_append ..

theorem others_eq_self (h : ∀ x ∈ cells, x.cellId ≠ cellId) : others cells cellId = cells :=
  List.filter_eq_self.2 fun x hx ↦ bne_iff_ne.2 (h x hx)

theorem others_others (cells : List DocCell) (cellId : String) :
    others (others cells cellId) cellId = others cells cellId :=
  others_eq_self fun _ hx ↦ (mem_others.1 hx).2

theorem others_cons_self (x : DocCell) (cells : List DocCell) :
    others (x :: cells) x.cellId = others cells x.cellId := List.filter_cons_of_neg (by simp)

theorem others_placeAt (cells : List DocCell) (k : ℕ) (c : DocCell) :
    others (cells.placeAt k c) c.cellId = others cells c.cellId := by
  rw [List.placeAt, others_append, others_cons_self, ← others_append, List.take_append_drop]

/-- Leaving a cell out does not ask for indices. -/
theorem map_bare_others (h : cells.map bare = cells'.map bare)
    (cellId : String) : (others cells cellId).map bare = (others cells' cellId).map bare := by
  have hfilter : ∀ l : List DocCell, (others l cellId).map bare =
      (l.map bare).filter fun c ↦ c.cellId != cellId := fun l ↦ by
    rw [List.filter_map]
    rfl
  rw [hfilter, hfilter, h]

@[simp] theorem map_bare_others_renumber (cells : List DocCell) (cellId : String) :
    (others (renumber cells) cellId).map bare = (others cells cellId).map bare :=
  map_bare_others (map_bare_renumber cells) cellId

variable {i : ℕ}

theorem exists_split (hx : cells[i]? = some x) :
    ∃ xs ys, cells = xs ++ x :: ys ∧ xs.length = i := by
  obtain ⟨hi, rfl⟩ := List.getElem?_eq_some_iff.1 hx
  refine ⟨cells.take i, cells.drop (i + 1), ?_, by rw [List.length_take]; omega⟩
  rw [← List.drop_eq_getElem_cons hi, List.take_append_drop]

theorem Good.others_split {xs ys : List DocCell} (h : Good (xs ++ x :: ys)) :
    Collab.others (xs ++ x :: ys) x.cellId = xs ++ ys := by
  have hids := h.ids
  rw [List.map_append, List.map_cons] at hids
  obtain ⟨hx, hrest⟩ := List.nodup_middle.1 hids |> List.nodup_cons.1
  rw [← List.map_append] at hx
  have hne : ∀ y ∈ xs ++ ys, y.cellId ≠ x.cellId := fun y hy heq ↦
    hx (heq ▸ List.mem_map_of_mem hy)
  rw [others_append, others_cons_self, ← others_append]
  exact others_eq_self hne

/-- Taking a cell out at its place. -/
theorem Good.eraseIdx (h : Good cells)
    (hx : cells[i]? = some x) : cells.eraseIdx i = Collab.others cells x.cellId := by
  obtain ⟨xs, ys, rfl, rfl⟩ := exists_split hx
  rw [h.others_split, List.eraseIdx_append_of_length_le le_rfl, Nat.sub_self]
  rfl

variable {c : DocCell}

/-- Replacing a cell at its place. -/
theorem Good.set (h : Good cells) (hx : cells[i]? = some x) (hid : x.cellId = c.cellId) :
    cells.set i c = cells.map fun y ↦ if y.cellId = c.cellId then c else y := by
  refine List.ext_getElem? fun j ↦ ?_
  rw [List.getElem?_map, List.getElem?_set]
  split
  case isTrue hij =>
    subst hij
    rw [if_pos (List.getElem?_eq_some_iff.1 hx).1, hx, Option.map_some, if_pos hid]
  case isFalse hij =>
    cases hy : cells[j]? with
    | none => rfl
    | some y =>
      rw [Option.map_some, if_neg]
      intro hyc
      obtain rfl := h.eq_of_cellId (List.mem_of_getElem? hx) (List.mem_of_getElem? hy)
        (hid.trans hyc.symm)
      exact hij ((h.numbered i x hx).symm.trans (h.numbered j x hy))

/-- The first place with an id is the place. -/
theorem Good.findIdx? (h : Good cells)
    (hx : cells[i]? = some x) : (cells.findIdx? fun c ↦ c.cellId == x.cellId) = some i := by
  obtain ⟨hi, rfl⟩ := List.getElem?_eq_some_iff.1 hx
  refine List.findIdx?_eq_some_iff_getElem.2 ⟨hi, beq_self_eq_true _, fun j hj hsame ↦ ?_⟩
  have heq := h.eq_of_cellId (List.getElem_mem (hj.trans hi)) (List.getElem_mem hi) (eq_of_beq hsame)
  have hindex := h.numbered j _ (List.getElem?_eq_getElem (hj.trans hi))
  rw [heq, h.numbered i _ hx] at hindex
  omega

theorem findIdx?_eq_none
    (h : ∀ x ∈ cells, x.cellId ≠ cellId) : (cells.findIdx? fun c ↦ c.cellId == cellId) = none :=
  List.findIdx?_eq_none_iff.2 fun x hx ↦ beq_false_of_ne (h x hx)

theorem mem_renumber (hx : x ∈ renumber cells) :
    ∃ y ∈ cells, bare y = bare x := by
  have hmem : bare x ∈ (renumber cells).map bare := List.mem_map_of_mem hx
  rw [map_bare_renumber] at hmem
  exact List.mem_map.1 hmem

theorem nodup_placeAt (k : ℕ) (h : (cells.map DocCell.cellId).Nodup)
    (hc : ∀ x ∈ cells, x.cellId ≠ c.cellId) :
    ((cells.placeAt k c).map DocCell.cellId).Nodup := by
  refine (((cells.perm_placeAt k c).map DocCell.cellId).nodup_iff).2 (List.nodup_cons.2 ⟨?_, h⟩)
  rintro hmem
  obtain ⟨x, hx, heq⟩ := List.mem_map.1 hmem
  exact hc x hx heq

namespace Event

variable {doc : List DocCell} {v : ℕ} {e : Event}

theorem good_on (h : Good doc) (hfits : e.Fits doc v) : Good (e.on doc) := by
  cases e with
  | created _ c =>
    exact ⟨numbered_renumber _, by
      rw [on, map_cellId_renumber]
      exact nodup_placeAt _ h.ids hfits.2.2⟩
  | updated _ c =>
    obtain ⟨x, hx, hid, hindex, -⟩ := hfits.2
    refine ⟨fun i y hy ↦ ?_, ?_⟩
    · rw [on, List.getElem?_map, Option.map_eq_some_iff] at hy
      obtain ⟨z, hz, rfl⟩ := hy
      split
      case isTrue heq =>
        obtain rfl := h.eq_of_cellId hx (List.mem_of_getElem? hz) (hid.trans heq.symm)
        exact hindex ▸ h.numbered i x hz
      case isFalse => exact h.numbered i z hz
    · rw [on, List.map_map]
      convert h.ids using 1
      refine List.map_congr_left fun y _ ↦ ?_
      show (if y.cellId = c.cellId then c else y).cellId = y.cellId
      split
      case isTrue heq => exact heq.symm
      case isFalse => rfl
  | deleted _ cellId =>
    exact ⟨numbered_renumber _, by
      rw [on, map_cellId_renumber]
      exact h.others cellId⟩
  | moved _ c =>
    exact ⟨numbered_renumber _, by
      rw [on, map_cellId_renumber]
      exact nodup_placeAt _ (h.others c.cellId) fun x hx ↦ (mem_others.1 hx).2⟩
  | other => exact h

/-- What was there before, and what the event brings. -/
theorem mem_on (hy : y ∈ e.on doc) :
    (∃ x ∈ doc, bare x = bare y) ∨
      ∃ v c, (e = created v c ∨ e = updated v c ∨ e = moved v c) ∧ bare c = bare y := by
  cases e with
  | created v c =>
    obtain ⟨x, hx, heq⟩ := mem_renumber hy
    rcases List.mem_placeAt.1 hx with rfl | hx
    · exact .inr ⟨v, x, .inl rfl, heq⟩
    · exact .inl ⟨x, hx, heq⟩
  | updated v c =>
    obtain ⟨x, hx, rfl⟩ := List.mem_map.1 hy
    split
    · exact .inr ⟨v, c, .inr (.inl rfl), rfl⟩
    · exact .inl ⟨x, hx, rfl⟩
  | deleted v cellId =>
    obtain ⟨x, hx, heq⟩ := mem_renumber hy
    exact .inl ⟨x, (mem_others.1 hx).1, heq⟩
  | moved v c =>
    obtain ⟨x, hx, heq⟩ := mem_renumber hy
    rcases List.mem_placeAt.1 hx with rfl | hx
    · exact .inr ⟨v, x, .inr (.inr rfl), heq⟩
    · exact .inl ⟨x, (mem_others.1 hx).1, heq⟩
  | other => exact .inl ⟨y, hy, rfl⟩

/-- Versions grow with what a cell holds. -/
theorem grows (h : Good doc) (hfits : e.Fits doc v) (hx : x ∈ doc) (hy : y ∈ e.on doc)
    (hid : x.cellId = y.cellId) :
    x.version ≤ y.version ∧ (x.version = y.version → bare x = bare y) := by
  obtain ⟨z, hz, heq⟩ | ⟨v', c, he, heq⟩ := mem_on hy
  · have hzid : z.cellId = y.cellId := cellId_of_bare heq
    obtain rfl := h.eq_of_cellId hx hz (hid.trans hzid.symm)
    have hversion : x.version = y.version := version_of_bare heq
    exact ⟨hversion.le, fun _ ↦ heq⟩
  · have hcid : c.cellId = y.cellId := cellId_of_bare heq
    have hversion : c.version = y.version := version_of_bare heq
    have hlt : x.version < c.version := by
      rcases he with rfl | rfl | rfl
      · exact absurd (hid.trans hcid.symm) (hfits.2.2 x hx)
      · obtain ⟨z, hz, hzid, -, hlt⟩ := hfits.2
        obtain rfl := h.eq_of_cellId hx hz (hid.trans (hcid.symm.trans hzid.symm))
        exact hlt
      · obtain ⟨z, hz, hzid, hlt⟩ := hfits.2.2
        obtain rfl := h.eq_of_cellId hx hz (hid.trans (hcid.symm.trans hzid.symm))
        exact hlt
    rw [hversion] at hlt
    exact ⟨hlt.le, fun heq ↦ absurd heq hlt.ne⟩

end Event

/-- The document after the first so many events. -/
def docAt (start : Manager) (events : List Event) (k : ℕ) : List DocCell :=
  (events.take k).foldl Event.on start.cells

/-- The `doc_version` after the first so many events. -/
def versionAt (start : Manager) (events : List Event) (k : ℕ) : ℕ :=
  (events.take k).foldl Event.version start.docVersion

/-- The events tell how the document came to be. -/
structure Tells (start : Manager) (events : List Event) : Prop where
  good : Good start.cells
  fits : ∀ (k : ℕ) (e : Event), events[k]? = some e → e.Fits (docAt start events k) (versionAt start events k)
  /-- No id is used twice. -/
  new : ∀ (j k v : ℕ) (c : DocCell), j ≤ k → events[k]? = some (.created v c) →
    ∀ x ∈ docAt start events j, x.cellId ≠ c.cellId

variable {k j : ℕ}

section Docs

variable {start : Manager} {events : List Event}

theorem docAt_succ {e : Event} (he : events[k]? = some e) :
    docAt start events (k + 1) = e.on (docAt start events k) := by
  rw [docAt, List.take_add_one, he, Option.toList_some, List.foldl_append]
  rfl

theorem versionAt_succ {e : Event} (he : events[k]? = some e) :
    versionAt start events (k + 1) = e.version (versionAt start events k) := by
  rw [versionAt, List.take_add_one, he, Option.toList_some, List.foldl_append]
  rfl

theorem docAt_append (hk : k ≤ events.length) (more : List Event) :
    docAt start (events ++ more) k = docAt start events k := by
  rw [docAt, List.take_append_of_le_length hk, docAt]

theorem versionAt_append (hk : k ≤ events.length) (more : List Event) :
    versionAt start (events ++ more) k = versionAt start events k := by
  rw [versionAt, List.take_append_of_le_length hk, versionAt]

theorem Tells.goodAt (h : Tells start events) (hk : k ≤ events.length) :
    Good (docAt start events k) := by
  induction k with
  | zero => exact h.good
  | succ k ih =>
    have he : events[k]? = some events[k] := List.getElem?_eq_getElem hk
    rw [docAt_succ he]
    exact Event.good_on (ih (by omega)) (h.fits k _ he)

/-- An id is in use for one stretch of time. -/
theorem Tells.stays (h : Tells start events) (hjk : j ≤ k) (hk : k < events.length)
    (hx : x ∈ docAt start events j) (hy : y ∈ docAt start events (k + 1))
    (hid : x.cellId = y.cellId) : ∃ z ∈ docAt start events k, z.cellId = x.cellId := by
  have he : events[k]? = some events[k] := List.getElem?_eq_getElem hk
  have hfits := h.fits k _ he
  have hnew := h.new j k
  rw [docAt_succ he] at hy
  rw [he] at hnew
  obtain ⟨z, hz, heq⟩ | ⟨v, c, hev, heq⟩ := Event.mem_on hy
  · exact ⟨z, hz, (cellId_of_bare heq).trans hid.symm⟩
  · have hcid : c.cellId = x.cellId := (cellId_of_bare heq).trans hid.symm
    rcases hev with hev | hev | hev
    · exact absurd hcid.symm (hnew v c hjk (congrArg some hev) x hx)
    · rw [hev] at hfits
      obtain ⟨z, hz, hzid, -⟩ := hfits.2
      exact ⟨z, hz, hzid.trans hcid⟩
    · rw [hev] at hfits
      obtain ⟨z, hz, hzid, -⟩ := hfits.2.2
      exact ⟨z, hz, hzid.trans hcid⟩

/-- **Versions of a cell only grow**, and with one version it holds one thing. -/
theorem Tells.grows (h : Tells start events) (hjk : j ≤ k) (hk : k ≤ events.length)
    (hx : x ∈ docAt start events j) (hy : y ∈ docAt start events k)
    (hid : x.cellId = y.cellId) :
    x.version ≤ y.version ∧ (x.version = y.version → bare x = bare y) := by
  induction k, hjk using Nat.le_induction generalizing y with
  | base =>
    obtain rfl := (h.goodAt hk).eq_of_cellId hx hy hid
    exact ⟨le_rfl, fun _ ↦ rfl⟩
  | succ k hjk ih =>
    obtain ⟨z, hz, hzid⟩ := h.stays hjk hk hx hy hid
    obtain ⟨hle, heq⟩ := ih (by omega) hz hzid.symm
    have he : events[k]? = some events[k] := List.getElem?_eq_getElem hk
    rw [docAt_succ he] at hy
    obtain ⟨hle', heq'⟩ := Event.grows (h.goodAt (by omega)) (h.fits k _ he) hz hy
      (hzid.trans hid)
    refine ⟨hle.trans hle', fun hsame ↦ ?_⟩
    have hzy : z.version = y.version := le_antisymm hle' (hsame ▸ hle)
    exact (heq (hsame.trans hzy.symm)).trans (heq' hzy)

/-- A cell that is gone does not come back. -/
theorem Tells.gone (h : Tells start events) (hij : i ≤ j) (hjk : j ≤ k) (hk : k ≤ events.length)
    (hx : x ∈ docAt start events i) (hgone : ∀ y ∈ docAt start events j, y.cellId ≠ x.cellId) :
    ∀ y ∈ docAt start events k, y.cellId ≠ x.cellId := by
  induction k, hjk using Nat.le_induction with
  | base => exact hgone
  | succ k hjk ih =>
    intro y hy hid
    obtain ⟨z, hz, hzid⟩ := h.stays (hij.trans hjk) hk hx hy hid.symm
    exact ih (by omega) z hz hzid

end Docs

/-! ### The manager tells -/

theorem digitChar_inj {a b : ℕ} (ha : a < 16) (hb : b < 16)
    (h : Nat.digitChar a = Nat.digitChar b) : a = b := by
  have hall : ∀ a < 16, ∀ b < 16, Nat.digitChar a = Nat.digitChar b → a = b := by decide
  exact hall a ha b hb h

theorem toDigits_inj {m n : ℕ} (h : Nat.toDigits 16 m = Nat.toDigits 16 n) : m = n := by
  induction m using Nat.strong_induction_on generalizing n with
  | _ m ih =>
    have hlen : ∀ k, 16 ≤ k → 2 ≤ (Nat.toDigits 16 k).length := fun k hk ↦ by
      have hpos : 0 < (Nat.toDigits 16 (k / 16)).length := Nat.length_toDigits_pos
      rw [Nat.toDigits_of_base_le (by omega) hk, List.length_append, List.length_singleton]
      omega
    by_cases hm : m < 16 <;> by_cases hn : n < 16
    · rw [Nat.toDigits_of_lt_base hm, Nat.toDigits_of_lt_base hn] at h
      exact digitChar_inj hm hn (List.singleton_inj.1 h)
    · have := hlen n (by omega)
      rw [← h, Nat.toDigits_of_lt_base hm] at this
      simp at this
    · have := hlen m (by omega)
      rw [h, Nat.toDigits_of_lt_base hn] at this
      simp at this
    · rw [Nat.toDigits_of_base_le (n := m) (by omega) (by omega),
        Nat.toDigits_of_base_le (n := n) (by omega) (by omega)] at h
      obtain ⟨hdiv, hmod⟩ := List.append_inj' h rfl
      have hd := ih (m / 16) (by omega) hdiv
      have hr := digitChar_inj (Nat.mod_lt m (by omega)) (Nat.mod_lt n (by omega))
        (List.singleton_inj.1 hmod)
      omega

theorem newId_injective : Function.Injective newId := by
  intro m n h
  have hlist := congrArg String.toList h
  simp only [newId, String.toList_append, String.toList_ofList, List.append_cancel_left_eq] at hlist
  exact toDigits_inj hlist

namespace Manager

/-- The manager is as its events tell. -/
structure Sound (m start : Manager) : Prop where
  tells : Tells start m.events
  cells : m.cells = docAt start m.events m.events.length
  version : m.docVersion = versionAt start m.events m.events.length
  /-- Ids of cells to come are in no document so far. -/
  fresh : ∀ n, m.nextId ≤ n → ∀ k ≤ m.events.length, ∀ x ∈ docAt start m.events k,
    x.cellId ≠ newId n

/-- A first state. -/
structure First (m : Manager) : Prop where
  good : Good m.cells
  events : m.events = []
  fresh : ∀ n, m.nextId ≤ n → ∀ x ∈ m.cells, x.cellId ≠ newId n

theorem First.sound {m : Manager} (h : m.First) : m.Sound m := by
  have hdoc : ∀ k, docAt m m.events k = m.cells := fun k ↦ by rw [docAt, h.events, List.take_nil]; rfl
  refine ⟨⟨h.good, fun k e he ↦ ?_, fun j k v c _ he ↦ ?_⟩, (hdoc _).symm, ?_, fun n hn k _ x hx ↦ ?_⟩
  · rw [h.events] at he
    cases he
  · rw [h.events] at he
    cases he
  · rw [versionAt, h.events]
    rfl
  · exact h.fresh n hn x (hdoc k ▸ hx)

variable {start m : Manager}

/-- One more event. -/
theorem Sound.extend (h : m.Sound start) {m' : Manager} {e : Event}
    (hevents : m'.events = m.events ++ [e]) (hcells : m'.cells = e.on m.cells)
    (hversion : m'.docVersion = e.version m.docVersion) (hfits : e.Fits m.cells m.docVersion)
    (hnext : m.nextId ≤ m'.nextId)
    (hnew : ∀ v c, e = .created v c → c.cellId = newId m.nextId ∧ m'.nextId = m.nextId + 1) :
    m'.Sound start := by
  have hlen : m'.events.length = m.events.length + 1 := by rw [hevents, List.length_append]; rfl
  have hlast : m'.events[m.events.length]? = some e := by rw [hevents, List.getElem?_concat_length]
  have hold : ∀ k ≤ m.events.length, docAt start m'.events k = docAt start m.events k :=
    fun k hk ↦ by rw [hevents, docAt_append hk]
  have hdoc : docAt start m'.events m'.events.length = m'.cells := by
    rw [hlen, docAt_succ hlast, hold _ le_rfl, ← h.cells, hcells]
  refine ⟨⟨h.tells.good, fun k e' he' ↦ ?_, fun j k v c hjk hc ↦ ?_⟩, hdoc.symm, ?_,
    fun n hn k hk x hx ↦ ?_⟩
  · have hlt := (List.getElem?_eq_some_iff.1 he').1
    have hk : k ≤ m.events.length := by omega
    rcases Nat.lt_or_eq_of_le hk with hk | rfl
    · rw [hold k hk.le, hevents, versionAt_append hk.le]
      rw [hevents, List.getElem?_append_left hk] at he'
      exact h.tells.fits k e' he'
    · obtain rfl := Option.some.inj (hlast.symm.trans he')
      rw [hold _ le_rfl, ← h.cells, hevents, versionAt_append le_rfl, ← h.version]
      exact hfits
  · have hlt := (List.getElem?_eq_some_iff.1 hc).1
    have hk : k ≤ m.events.length := by omega
    rw [hold j (hjk.trans hk)]
    rcases Nat.lt_or_eq_of_le hk with hk | rfl
    · rw [hevents, List.getElem?_append_left hk] at hc
      exact h.tells.new j k v c hjk hc
    · have he := Option.some.inj (hlast.symm.trans hc)
      rw [(hnew v c he).1]
      exact h.fresh m.nextId le_rfl j hjk
  · rw [hlen, versionAt_succ hlast, hevents, versionAt_append le_rfl, ← h.version, hversion]
  · rcases Nat.lt_or_eq_of_le hk with hk | rfl
    · have hk : k ≤ m.events.length := by omega
      rw [hold k hk] at hx
      exact h.fresh n (hnext.trans hn) k hk x hx
    · have hbefore := h.fresh n (hnext.trans hn) m.events.length le_rfl
      rw [← h.cells] at hbefore
      rw [hdoc, hcells] at hx
      obtain ⟨z, hz, heq⟩ | ⟨v, c, he, heq⟩ := Event.mem_on hx
      · exact fun hid ↦ hbefore z hz ((cellId_of_bare heq).trans hid)
      · intro hid
        have hcid : c.cellId = newId n := (cellId_of_bare heq).trans hid
        rcases he with rfl | rfl | rfl
        · obtain ⟨hfirst, hnext'⟩ := hnew v c rfl
          have := newId_injective (hfirst.symm.trans hcid)
          omega
        · obtain ⟨z, hz, hzid, -⟩ := hfits.2
          exact hbefore z hz (hzid.trans hcid)
        · obtain ⟨z, hz, hzid, -⟩ := hfits.2.2
          exact hbefore z hz (hzid.trans hcid)

variable (sha256 : String → String)

theorem mem_of_byId (h : m.byId cellId = some c) :
    c ∈ m.cells ∧ c.cellId = cellId :=
  ⟨List.mem_of_find?_eq_some h, by simpa using List.find?_some h⟩

theorem Place.index_le (cells : List DocCell) (place : Place) : place.index cells ≤ cells.length := by
  have hlt : ∀ {cellId : String} {i : ℕ},
      (cells.findIdx? fun c ↦ c.cellId == cellId) = some i → i < cells.length := fun h ↦
    (List.findIdx?_eq_some_iff_findIdx_eq.1 h).1
  cases place with
  | after cellId =>
    rw [Place.index]
    split
    case h_1 i hi => exact hlt hi
    case h_2 => exact Nat.zero_le _
  | before cellId =>
    rw [Place.index]
    cases hi : cells.findIdx? fun c ↦ c.cellId == cellId with
    | none => exact Nat.sub_le ..
    | some i => exact (hlt hi).le
  | last => exact le_rfl

/-- What a request does: nothing, or one event, which the answer is about. -/
theorem Sound.handle (h : m.Sound start) (hgood : Good m.cells) (r : Request) :
    ((m.handle sha256 r).1 = m ∧ ((m.handle sha256 r).2 = .refused ∨
      ∃ deletes, ∃ c ∈ m.cells, (m.handle sha256 r).2 = .conflict deletes c)) ∨
    ((m.handle sha256 r).1.Sound start ∧ ∃ e, (m.handle sha256 r).1.events = m.events ++ [e] ∧
      e.Answers m.cells (m.handle sha256 r).2) := by
  cases r with rw [Manager.handle]
  | create place type source metadata =>
    refine .inr ⟨h.extend rfl rfl rfl ⟨rfl, Place.index_le .., h.cells ▸ ?_⟩ (Nat.le_succ _)
      fun v c he ↦ ?_, _, rfl, rfl⟩
    · exact h.fresh m.nextId le_rfl _ le_rfl
    · obtain rfl := (Event.created.inj he).2
      exact ⟨rfl, rfl⟩
  | patch cellId baseVersion source type =>
    split
    case h_1 => exact .inl ⟨rfl, .inl rfl⟩
    case h_2 c hc =>
      obtain ⟨hmem, rfl⟩ := mem_of_byId hc
      split
      case isTrue => exact .inl ⟨rfl, .inr ⟨false, c, hmem, rfl⟩⟩
      case isFalse =>
        exact .inr ⟨h.extend rfl rfl rfl ⟨rfl, c, hmem, rfl, rfl, lt_add_one _⟩ le_rfl
          (fun _ _ he ↦ by cases he), _, rfl, rfl⟩
  | delete cellId baseVersion =>
    split
    case h_1 => exact .inl ⟨rfl, .inl rfl⟩
    case h_2 c hc =>
      obtain ⟨hmem, rfl⟩ := mem_of_byId hc
      split
      case isTrue => exact .inl ⟨rfl, .inr ⟨true, c, hmem, rfl⟩⟩
      case isFalse =>
        exact .inr ⟨h.extend rfl rfl rfl ⟨rfl, c, hmem, rfl⟩ le_rfl (fun _ _ he ↦ by cases he),
          _, rfl, rfl⟩
  | move cellId toIndex =>
    split
    case h_1 => exact .inl ⟨rfl, .inl rfl⟩
    case h_2 c hc =>
      obtain ⟨hmem, rfl⟩ := mem_of_byId hc
      have hlen := hgood.length_others hmem
      refine .inr ⟨h.extend rfl rfl rfl ⟨rfl, ?_, c, hmem, rfl, lt_add_one _⟩ le_rfl
        (fun _ _ he ↦ by cases he), _, rfl, rfl, ?_⟩
      · show min toIndex (others m.cells c.cellId).length < m.cells.length
        omega
      · show min toIndex (others m.cells c.cellId).length = min toIndex (m.cells.length - 1)
        rw [hlen, Nat.add_sub_cancel]
  | other =>
    exact .inr ⟨h.extend rfl rfl rfl trivial le_rfl (fun _ _ he ↦ by cases he), _, rfl, trivial⟩

end Manager

end Ember.Collab
