import Ember.Collab.Mirror

/-!
# The mirror of the IntelliJ plugin

`protocol/DocumentState.kt`: the snapshot, advanced by events, and the answers to the plugin's own
edits put over it. What is left out are run data, locks and presence; a cell's document fields are
all that `withDocumentFieldsOf` takes over.

The snapshot's `seq` is taken for the last event it has, so the event with that number is ignored;
an answer's index is taken as it is, and the cells are sorted by it, so that a cell moves only when
its index has gone wrong by more than one.
-/

namespace Ember.Collab

open Ember.Intellij

/-- `DocumentState`. -/
structure DocumentState where
  cellList : List DocCell
  docVersion : ℕ
  lastSeq : ℕ

/-- `withDocumentFieldsOf`. -/
def withDocumentFieldsOf (c other : DocCell) : DocCell :=
  { c with
    index := other.index
    type := other.type
    title := other.title
    metadata := other.metadata
    source := other.source
    sourceSha256 := other.sourceSha256
    version := other.version }

variable {cells doc rest : List DocCell} {c x cell : DocCell}

namespace DocumentState

/-- `cellList.sortBy { it.index }`. -/
def sortByIndex (cells : List DocCell) : List DocCell := cells.mergeSort fun a b ↦ a.index ≤ b.index

/-- `loadSnapshot`. -/
def loadSnapshot (doc : Snapshot) : DocumentState :=
  ⟨sortByIndex doc.cells, doc.docVersion, doc.seq⟩

/-- `insertAt`. -/
def insertAt (cells : List DocCell) (cell : DocCell) : List DocCell :=
  let least := if (cells.head?.any fun c ↦ c.index == 0) && decide (0 < cell.index) then 1 else 0
  renumber (cells.placeAt (max least (min cell.index cells.length)) cell)

/-- `reorder`. -/
def reorder (cells : List DocCell) : List DocCell := renumber (sortByIndex cells)

/-- `removeCell`. -/
def removeCell (cells : List DocCell) (cellId : String) : List DocCell :=
  if cells.any fun c ↦ c.cellId == cellId then renumber (others cells cellId) else cells

/-- `cellList.indexOfFirst`. -/
def indexOfFirst (cells : List DocCell) (cellId : String) : Option ℕ :=
  cells.findIdx? fun c ↦ c.cellId == cellId

/-- `upsertFromResponse`. -/
def upsertFromResponse (cells : List DocCell) (incoming : DocCell) : List DocCell :=
  match indexOfFirst cells incoming.cellId with
  | none => insertAt cells incoming
  | some i =>
    match cells[i]? with
    | none => cells
    | some before =>
      if incoming.version < before.version then cells
      else reorder (cells.set i (withDocumentFieldsOf before incoming))

/-- `doc.cell.updated`. -/
def updated (cells : List DocCell) (incoming : DocCell) : List DocCell :=
  match indexOfFirst cells incoming.cellId with
  | none => insertAt cells incoming
  | some i =>
    match cells[i]? with
    | none => cells
    | some before =>
      if incoming.version < before.version then cells
      else
        let merged := withDocumentFieldsOf before incoming
        if merged.index ≠ before.index then reorder (cells.set i merged) else cells.set i merged

/-- `doc.cell.moved`. -/
def moved (cells : List DocCell) (incoming : DocCell) : List DocCell :=
  match indexOfFirst cells incoming.cellId with
  | none => insertAt cells incoming
  | some i =>
    match cells[i]? with
    | none => cells
    | some old => insertAt (cells.eraseIdx i) (withDocumentFieldsOf old incoming)

/-- What an event does to the cells. -/
def applyCells (cells : List DocCell) : Event → List DocCell
  | .created _ cell => insertAt (others cells cell.cellId) cell
  | .updated _ cell => updated cells cell
  | .deleted _ cellId => removeCell cells cellId
  | .moved _ cell => moved cells cell
  | .other => cells

/-- `data.long("doc_version")`, where it is an event about the document. -/
def eventVersion : Event → Option ℕ
  | .created v _ | .updated v _ | .deleted v _ | .moved v _ => some v
  | .other => none

/-- `apply`. -/
def apply (s : DocumentState) (seq : ℕ) (e : Event) : DocumentState :=
  if seq ≤ s.lastSeq then s
  else ⟨applyCells s.cellList e, max s.docVersion ((eventVersion e).getD 0), seq⟩

/-- What `NotebookSession.flush` does with an answer. -/
def answered (s : DocumentState) : Answer → DocumentState
  | .cell c | .moved c _ | .conflict _ c => { s with cellList := upsertFromResponse s.cellList c }
  | .gone cellId => { s with cellList := removeCell s.cellList cellId }
  | .refused => s

/-- The mirror. -/
def mirror : Mirror DocumentState where
  load := loadSnapshot
  apply := apply
  answered := answered
  cells := cellList

/-- The event numbered as the snapshot is not about the document; and a late answer is about a cell
that is still there, at most one place away, or changed since. -/
def care : Care DocumentState where
  next s seq e := e.ofCells = true → s.lastSeq < seq
  again _ _ _ := True
  late s
    | .cell c | .moved c _ | .conflict _ c => ∃ x ∈ s.cellList, x.cellId = c.cellId ∧
        (c.version < x.version ∨ (c.index ≤ x.index + 1 ∧ x.index ≤ c.index + 1))
    | _ => True

/-- The state is right for the first so many events; the one after the snapshot may be taken for
known. -/
def Marks (s : DocumentState) (m _v : ℕ) : Prop := s.lastSeq = m ∨ s.lastSeq = m + 1

/-! ### What they do to the cells -/

theorem sortByIndex_eq
    (h : cells.Pairwise fun a b ↦ a.index ≤ b.index) : sortByIndex cells = cells :=
  List.mergeSort_of_pairwise (h.imp fun h ↦ decide_eq_true h)

theorem sortByIndex_of_numbered (h : Numbered cells) :
    sortByIndex cells = cells := by
  refine sortByIndex_eq (List.pairwise_iff_getElem.2 fun i j hi hj hij ↦ ?_)
  rw [h i _ (List.getElem?_eq_getElem hi), h j _ (List.getElem?_eq_getElem hj)]
  exact hij.le

theorem withDocumentFieldsOf_eq {other : DocCell} (h : c.cellId = other.cellId) :
    withDocumentFieldsOf c other = other := by
  rw [withDocumentFieldsOf, h]

/-- A cell whose index is a place of the list is put in there. -/
theorem insertAt_eq (h : cell.index ≤ cells.length) :
    insertAt cells cell = renumber (cells.placeAt cell.index cell) := by
  rw [insertAt, min_eq_left h]
  split
  case isTrue hpos =>
    have hpos : 0 < cell.index := by simpa using (Bool.and_eq_true_iff.1 hpos).2
    rw [max_eq_right hpos]
  case isFalse => rw [Nat.zero_max]

theorem removeCell_eq (h : Good cells) (cellId : String) :
    removeCell cells cellId = renumber (others cells cellId) := by
  rw [removeCell]
  split
  case isTrue => rfl
  case isFalse hno =>
    have hall : others cells cellId = cells := by
      refine List.filter_eq_self.2 fun c hc ↦ ?_
      simp only [List.any_eq_true, not_exists, not_and, beq_iff_eq] at hno
      simpa using hno c hc
    rw [hall, h.numbered.renumber]

/-- A cell put in among the others. -/
theorem insertAt_others (hrest : (others cells cell.cellId).map bare = rest.map bare)
    (h : cell.index ≤ rest.length) :
    insertAt (others cells cell.cellId) cell = renumber (rest.placeAt cell.index cell) := by
  have hlen : (others cells cell.cellId).length = rest.length := by
    simpa using congrArg List.length hrest
  rw [insertAt_eq (hlen ▸ h)]
  refine renumber_congr ?_
  rw [List.map_placeAt, hrest, List.map_placeAt]

theorem updated_eq (h : Good cells) (hx : x ∈ cells) (hid : x.cellId = c.cellId)
    (hindex : x.index = c.index) (hversion : x.version ≤ c.version) :
    updated cells c = cells.map fun y ↦ if y.cellId = c.cellId then c else y := by
  obtain ⟨i, hi⟩ := List.mem_iff_getElem?.1 hx
  rw [updated, indexOfFirst, ← hid, h.findIdx? hi]
  dsimp only
  rw [hi]
  dsimp only
  rw [if_neg hversion.not_gt, withDocumentFieldsOf_eq hid, if_neg (by simp [hindex]), hid]
  exact h.set hi hid

theorem moved_eq (h : Good cells) (hx : x ∈ cells) (hid : x.cellId = c.cellId)
    (hrest : (others cells c.cellId).map bare = rest.map bare)
    (hle : c.index ≤ rest.length) : moved cells c = renumber (rest.placeAt c.index c) := by
  obtain ⟨i, hi⟩ := List.mem_iff_getElem?.1 hx
  rw [moved, indexOfFirst, ← hid, h.findIdx? hi]
  dsimp only
  rw [hi]
  dsimp only
  rw [h.eraseIdx hi, withDocumentFieldsOf_eq hid, hid, insertAt_others hrest hle]

/-- **The next event** brings the cells to what it says, also where its answer came first. -/
theorem applyCells_eq {e : Event} {v : ℕ} (hdoc : Good doc) (hfits : e.Fits doc v)
    (hcells : cells = doc ∨ Ahead doc e cells) :
    applyCells cells e = e.on doc := by
  have hgood : Good cells := hcells.elim (· ▸ hdoc) fun h ↦ (h.spec hdoc hfits).1
  cases e with
  | created v' c =>
    have hdocRest : others doc c.cellId = doc := others_eq_self hfits.2.2
    have hrest : (others cells c.cellId).map bare = doc.map bare := by
      rcases hcells with rfl | rfl | ⟨_, _, he, -⟩
      · rw [hdocRest]
      · rw [Event.on, map_bare_others_renumber, others_placeAt, hdocRest]
      · cases he
    exact insertAt_others hrest hfits.2.1
  | updated v' c =>
    obtain ⟨x, hx, hid, hindex, hlt⟩ := hfits.2
    rcases hcells with rfl | rfl | ⟨_, _, he, -⟩
    · exact updated_eq hdoc hx hid hindex hlt.le
    · have hc : c ∈ Event.on doc (.updated v' c) :=
        Event.mem_on_of_brings hdoc hfits (.inr (.inl rfl))
      rw [applyCells, updated_eq hgood hc rfl rfl le_rfl, Event.on, List.map_map]
      refine List.map_congr_left fun y _ ↦ ?_
      show (if (if y.cellId = c.cellId then c else y).cellId = c.cellId then c else
        if y.cellId = c.cellId then c else y) = _
      by_cases hyc : y.cellId = c.cellId <;> simp [hyc]
    · cases he
  | deleted v' cellId =>
    rw [applyCells, removeCell_eq hgood, Event.on]
    rcases hcells with rfl | rfl | ⟨_, _, he, -⟩
    · rfl
    · refine renumber_congr ?_
      rw [Event.on, map_bare_others_renumber, others_others]
    · cases he
  | moved v' c =>
    obtain ⟨-, hlt, x, hx, hid, -⟩ := id hfits
    have hlen := hdoc.length_others hx
    rw [hid] at hlen
    have hplaced : ∀ y ∈ cells, y.cellId = c.cellId →
        (others cells c.cellId).map bare = (others doc c.cellId).map bare →
        moved cells c = Event.on doc (.moved v' c) := fun y hy hyid hrest ↦
      moved_eq hgood hy hyid hrest (by omega)
    rcases hcells with rfl | rfl | ⟨_, c', he, -, hrest, y, hy, hyc⟩
    · exact hplaced x hx hid rfl
    · refine hplaced c (Event.mem_on_of_brings hdoc hfits (.inr (.inr rfl))) rfl ?_
      rw [Event.on, map_bare_others_renumber, others_placeAt, others_others]
    · cases he
      exact hplaced y hy (cellId_of_bare hyc) hrest
  | other =>
    rcases hcells with rfl | rfl | ⟨_, _, he, -⟩
    · rfl
    · rfl
    · cases he

/-- **A late answer changes nothing**, where its cell is there and at most one place away. -/
theorem upsertFromResponse_eq (h : Good cells) (hx : x ∈ cells) (hid : x.cellId = c.cellId)
    (hold : c.version ≤ x.version ∧ (c.version = x.version → bare c = bare x))
    (hnear : c.version < x.version ∨ (c.index ≤ x.index + 1 ∧ x.index ≤ c.index + 1)) :
    upsertFromResponse cells c = cells := by
  obtain ⟨i, hi⟩ := List.mem_iff_getElem?.1 hx
  rw [upsertFromResponse, indexOfFirst, ← hid, h.findIdx? hi]
  dsimp only
  rw [hi]
  dsimp only
  split
  case isTrue => rfl
  case isFalse hversion =>
    obtain ⟨hleft, hright⟩ := hnear.resolve_left hversion
    have hbare := hold.2 (le_antisymm hold.1 (not_lt.1 hversion))
    have hindex := h.numbered i x hi
    have hlt := (List.getElem?_eq_some_iff.1 hi).1
    rw [withDocumentFieldsOf_eq hid, reorder, sortByIndex_eq]
    · refine renumber_eq h.numbered (List.ext_getElem? fun j ↦ ?_)
      rw [List.getElem?_map, List.getElem?_map, List.getElem?_set]
      split
      case isTrue hij =>
        subst hij
        rw [hi, Option.map_some, Option.map_some, hbare]
      case isFalse => rfl
    · -- the index is still between those of its neighbours
      refine List.pairwise_iff_getElem.2 fun j k hj hk hjk ↦ ?_
      rw [List.length_set] at hj hk
      have hjn := h.numbered j _ (List.getElem?_eq_getElem hj)
      have hkn := h.numbered k _ (List.getElem?_eq_getElem hk)
      rw [List.getElem_set, List.getElem_set]
      split <;> split <;> omega

theorem others_set (h : Good cells) {i : ℕ} (hi : cells[i]? = some x) (hid : x.cellId = c.cellId) :
    others (cells.set i c) c.cellId = others cells c.cellId := by
  obtain ⟨xs, ys, rfl, rfl⟩ := exists_split hi
  rw [List.set_append_right _ _ le_rfl, Nat.sub_self, List.set_cons_zero, others_append,
    others_cons_self, others_append, ← hid, others_cons_self]

/-- Sorting by index keeps cells that are in order in their order. -/
theorem others_sortByIndex {cellId : String}
    (h : (others cells cellId).Pairwise fun a b ↦ a.index ≤ b.index) :
    others (sortByIndex cells) cellId = others cells cellId := by
  have htrans : ∀ a b c : DocCell, decide (a.index ≤ b.index) = true →
      decide (b.index ≤ c.index) = true → decide (a.index ≤ c.index) = true := by
    simp only [decide_eq_true_eq]
    exact fun a b c ↦ le_trans
  have htotal : ∀ a b : DocCell, (decide (a.index ≤ b.index) || decide (b.index ≤ a.index)) = true := by
    simp only [Bool.or_eq_true, decide_eq_true_eq]
    exact fun a b ↦ le_total _ _
  have hsub : (others cells cellId).Sublist (sortByIndex cells) :=
    List.sublist_mergeSort htrans htotal (h.imp fun h ↦ decide_eq_true h) List.filter_sublist
  have hsub' : (others cells cellId).Sublist (others (sortByIndex cells) cellId) := by
    have := hsub.filter fun c ↦ c.cellId != cellId
    rwa [show (others cells cellId).filter _ = _ from others_others cells cellId] at this
  refine (hsub'.eq_of_length ?_).symm
  exact ((List.mergeSort_perm cells _).filter _).length_eq.symm

/-- **The answer to the client's own move**: where the cell ends up is off by one, but it is there,
and the others are in their order. -/
theorem ahead_upsertFromResponse {v v' : ℕ} (hdoc : Good doc)
    (hfits : (Event.moved v' c).Fits doc v) (hcells : cells = doc ∨ Ahead doc (.moved v' c) cells) :
    Ahead doc (.moved v' c) (upsertFromResponse cells c) := by
  have hgood : Good cells := hcells.elim (· ▸ hdoc) fun h ↦ (h.spec hdoc hfits).1
  have hrest : (others cells c.cellId).map bare = (others doc c.cellId).map bare := by
    rcases hcells with rfl | rfl | ⟨_, c', he, -, hrest, -⟩
    · rfl
    · rw [Event.on, map_bare_others_renumber, others_placeAt, others_others]
    · cases he
      exact hrest
  obtain ⟨x, hx, hid, hversion⟩ : ∃ x ∈ cells, x.cellId = c.cellId ∧ x.version ≤ c.version := by
    obtain ⟨-, -, x, hx, hid, hlt⟩ := id hfits
    rcases hcells with rfl | rfl | ⟨_, c', he, -, -, y, hy, hyc⟩
    · exact ⟨x, hx, hid, hlt.le⟩
    · exact ⟨c, Event.mem_on_of_brings hdoc hfits (.inr (.inr rfl)), rfl, le_rfl⟩
    · cases he
      exact ⟨y, hy, cellId_of_bare hyc, (version_of_bare hyc).le⟩
  obtain ⟨i, hi⟩ := List.mem_iff_getElem?.1 hx
  have hupsert : upsertFromResponse cells c = reorder (cells.set i c) := by
    rw [upsertFromResponse, indexOfFirst, ← hid, hgood.findIdx? hi]
    dsimp only
    rw [hi]
    dsimp only
    rw [if_neg hversion.not_gt, withDocumentFieldsOf_eq hid]
  have hothers : others (cells.set i c) c.cellId = others cells c.cellId := others_set hgood hi hid
  have hsorted : (others (cells.set i c) c.cellId).Pairwise fun a b ↦ a.index ≤ b.index := by
    rw [hothers]
    refine List.Pairwise.filter _ (List.pairwise_iff_getElem.2 fun j k hj hk hjk ↦ ?_)
    rw [hgood.numbered j _ (List.getElem?_eq_getElem hj),
      hgood.numbered k _ (List.getElem?_eq_getElem hk)]
    exact hjk.le
  have hperm := List.mergeSort_perm (cells.set i c) fun a b ↦ decide (a.index ≤ b.index)
  rw [hupsert, reorder]
  refine .inr ⟨v', c, rfl, ⟨numbered_renumber _, ?_⟩, ?_, ?_⟩
  · rw [map_cellId_renumber]
    refine ((hperm.map DocCell.cellId).nodup_iff).2 ?_
    rw [hgood.set hi hid, List.map_map]
    convert hgood.ids using 1
    refine List.map_congr_left fun y _ ↦ ?_
    show (if y.cellId = c.cellId then c else y).cellId = y.cellId
    split
    case isTrue heq => exact heq.symm
    case isFalse => rfl
  · rw [map_bare_others_renumber, others_sortByIndex hsorted, hothers, hrest]
  · have hmem : c ∈ sortByIndex (cells.set i c) := hperm.mem_iff.2 <|
      List.mem_of_getElem? (List.getElem?_set_self (List.getElem?_eq_some_iff.1 hi).1)
    have hbare : bare c ∈ (renumber (sortByIndex (cells.set i c))).map bare := by
      rw [map_bare_renumber]
      exact List.mem_map_of_mem hmem
    exact List.mem_map.1 hbare

/-- The answer to the client's own creation or update. -/
theorem upsertFromResponse_on {v v' : ℕ} {e : Event} (hdoc : Good doc) (hfits : e.Fits doc v)
    (he : e = .created v' c ∨ e = .updated v' c)
    (hcells : cells = doc ∨ cells = e.on doc) : upsertFromResponse cells c = e.on doc := by
  have hon := e.good_on hdoc hfits
  have hmem : c ∈ e.on doc := Event.mem_on_of_brings hdoc hfits (he.imp_right .inl)
  rcases hcells with rfl | rfl
  · rcases he with rfl | rfl
    · rw [upsertFromResponse, indexOfFirst, findIdx?_eq_none hfits.2.2]
      exact insertAt_eq hfits.2.1
    · obtain ⟨x, hx, hid, hindex, hlt⟩ := hfits.2
      obtain ⟨i, hi⟩ := List.mem_iff_getElem?.1 hx
      rw [upsertFromResponse, indexOfFirst, ← hid, hdoc.findIdx? hi]
      dsimp only
      rw [hi]
      dsimp only
      rw [if_neg hlt.le.not_gt, withDocumentFieldsOf_eq hid, hdoc.set hi hid, reorder]
      exact (sortByIndex_of_numbered hon.numbered).symm ▸ hon.numbered.renumber
  · exact upsertFromResponse_eq hon hmem rfl ⟨le_rfl, fun _ ↦ rfl⟩ (.inr ⟨by omega, by omega⟩)

/-! ### The mirror is lawful -/

theorem lawful : mirror.Lawful care Marks where
  load v n hgood := ⟨sortByIndex_of_numbered hgood.numbered, .inr rfl⟩
  next := by
    intro s doc e m v hdoc hfits hmarks hnext hcells
    show (apply s (m + 1) e).cellList = _ ∧ Marks (apply s (m + 1) e) (m + 1) (e.version v)
    have hon : applyCells s.cellList e = e.on doc := applyCells_eq hdoc hfits hcells
    rw [apply]
    split
    case isTrue hle =>
      have hother : e = .other := by
        cases e with
        | other => rfl
        | _ => exact absurd (hnext rfl) hle.not_gt
      subst hother
      refine ⟨hon, ?_⟩
      rcases hmarks with hmarks | hmarks
      · omega
      · exact .inl hmarks
    case isFalse => exact ⟨hon, .inl rfl⟩
  other := by
    intro s m v hmarks
    show (apply s (m + 1) .other).cellList = s.cellList ∧ Marks (apply s (m + 1) .other) (m + 1) v
    rw [apply]
    split
    case isTrue hle =>
      rcases hmarks with hmarks | hmarks
      · omega
      · exact ⟨rfl, .inl hmarks⟩
    case isFalse => exact ⟨rfl, .inl rfl⟩
  again := by
    intro s doc e k m v v' hmarks hk _ _ _
    have hle : k + 1 ≤ s.lastSeq := by
      rcases hmarks with hmarks | hmarks <;> omega
    show (apply s (k + 1) e).cellList = s.cellList ∧ Marks (apply s (k + 1) e) m v
    rw [apply, if_pos hle]
    exact ⟨rfl, hmarks⟩
  early := by
    intro s doc e v a hdoc hfits hofCells hanswers hcells
    have hcells' : (∀ v c, e ≠ .moved v c) → s.cellList = doc ∨ s.cellList = e.on doc :=
      fun hno ↦ hcells.imp_right fun h ↦ h.resolve_right fun ⟨v, c, he, _⟩ ↦ hno v c he
    cases e with
    | created v' c =>
      cases a with
      | cell c' =>
        obtain rfl : c' = c := hanswers
        exact .inl (upsertFromResponse_on hdoc hfits (.inl rfl) (hcells' fun _ _ he ↦ by cases he))
      | _ => exact hanswers.elim
    | updated v' c =>
      cases a with
      | cell c' =>
        obtain rfl : c' = c := hanswers
        exact .inl (upsertFromResponse_on hdoc hfits (.inr rfl) (hcells' fun _ _ he ↦ by cases he))
      | _ => exact hanswers.elim
    | deleted v' cellId =>
      cases a with
      | gone cellId' =>
        obtain rfl : cellId' = cellId := hanswers
        exact .inl (applyCells_eq hdoc hfits hcells)
      | _ => exact hanswers.elim
    | moved v' c =>
      cases a with
      | moved c' toIndex =>
        obtain rfl : c' = c := hanswers.1
        exact ahead_upsertFromResponse hdoc hfits hcells
      | _ => exact hanswers.elim
    | other => cases hofCells
  late := by
    intro s a hgood hold hlate
    have hupsert : ∀ c, Old s.cellList (.cell c) → care.late s (.cell c) →
        upsertFromResponse s.cellList c = s.cellList := by
      rintro c hold ⟨x, hx, hid, hnear⟩
      exact upsertFromResponse_eq hgood hx hid (hold x hx hid) hnear
    cases a with
    | cell c | moved c _ | conflict _ c => exact hupsert c hold hlate
    | gone cellId =>
      refine (removeCell_eq hgood cellId).trans ?_
      rw [others_eq_self hold]
      exact hgood.numbered.renumber
    | refused => rfl
  refused := rfl
  answered := by
    intro s a m v hmarks
    cases a <;> exact hmarks

end DocumentState

end Ember.Collab
