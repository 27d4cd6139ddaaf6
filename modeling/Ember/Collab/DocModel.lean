import Ember.Collab.Mirror

/-!
# The mirror of the VS Code extension

`collab/model.ts`: the snapshot, advanced by events that its `doc_version` does not have yet, and the
answers to the extension's own requests merged into it. What is left out are outputs, locks and
presence, and what `apply` returns for the editor.

An event about the document has the next `doc_version`, so one that comes again is dropped, but for
the creation of a cell that is not there; an answer puts its cell at the answer's index whenever its
version is not older.
-/

namespace Ember.Collab

open Ember.Intellij

/-- `DocModel`. -/
structure DocModel where
  cells : List DocCell
  docVersion : ℕ

variable {x c : DocCell} {cellId : String}

namespace DocModel

/-- `load`. -/
def load (doc : Snapshot) : DocModel :=
  ⟨renumber (doc.cells.mergeSort fun a b ↦ a.index ≤ b.index), doc.docVersion⟩

/-- `indexOf`. -/
def indexOf (cells : List DocCell) (cellId : String) : Option ℕ :=
  cells.findIdx? fun c ↦ c.cellId == cellId

/-- `upsert`. -/
def upsert (cells : List DocCell) (cell : DocCell) : List DocCell :=
  match indexOf cells cell.cellId with
  | some i =>
    match cells[i]? with
    | none => cells
    | some prev =>
      if cell.version < prev.version then cells
      else
        let rest := cells.eraseIdx i
        renumber (rest.placeAt (min cell.index rest.length) { cell with cellId := prev.cellId })
  | none => renumber (cells.placeAt (min cell.index cells.length) cell)

/-- `remove`. -/
def remove (cells : List DocCell) (cellId : String) : List DocCell :=
  match indexOf cells cellId with
  | some i => renumber (cells.eraseIdx i)
  | none => cells

/-- `moveTo`. -/
def moveTo (cells : List DocCell) (cellId : String) (toIndex : ℕ) : List DocCell :=
  match indexOf cells cellId with
  | none => cells
  | some i =>
    match cells[i]? with
    | none => cells
    | some c =>
      let rest := cells.eraseIdx i
      renumber (rest.placeAt (min toIndex rest.length) c)

/-- `apply`: `stale` and `bump` are about the `doc_version` of the event. -/
def apply (s : DocModel) : Event → DocModel
  | .created v cell =>
    if v ≤ s.docVersion ∧ (indexOf s.cells cell.cellId).isSome then s
    else ⟨upsert s.cells cell, max s.docVersion v⟩
  | .updated v cell => if v ≤ s.docVersion then s else ⟨upsert s.cells cell, v⟩
  | .deleted v cellId => if v ≤ s.docVersion then s else ⟨remove s.cells cellId, v⟩
  | .moved v cell => if v ≤ s.docVersion then s else ⟨upsert s.cells cell, v⟩
  | .other => s

/-- What `CollabSession` does with an answer. -/
def answered (s : DocModel) : Answer → DocModel
  | .cell c | .conflict false c => { s with cells := upsert s.cells c }
  | .moved c toIndex => { s with cells := moveTo (upsert s.cells c) c.cellId toIndex }
  | .gone cellId => { s with cells := remove s.cells cellId }
  | .conflict true _ | .refused => s

/-- The mirror. -/
def mirror : Mirror DocModel where
  load := load
  apply s _ e := s.apply e
  answered := answered
  cells := cells

/-- A cell whose creation comes again is still there; and a late answer is about a cell that is still
there, where the answer has it or changed since, and after a move where it was to be. -/
def care : Care DocModel where
  next _ _ _ := True
  again s _ e := ∀ v c, e = .created v c → ∃ x ∈ s.cells, x.cellId = c.cellId
  late s
    | .cell c | .conflict false c => ∃ x ∈ s.cells, x.cellId = c.cellId ∧
        (c.version < x.version ∨ c.index = x.index)
    | .moved c toIndex => ∃ x ∈ s.cells, x.cellId = c.cellId ∧
        (c.version < x.version ∨ c.index = x.index) ∧ x.index = min toIndex (s.cells.length - 1)
    | _ => True

/-- The `doc_version` is that of the events so far. -/
def Marks (s : DocModel) (_m v : ℕ) : Prop := s.docVersion = v

/-! ### What they do to the cells -/

/-- A cell taken out and put in at a place of the list. -/
theorem renumber_placeAt_eq {cells : List DocCell} (h : Good cells) {i : ℕ}
    (hi : cells[i]? = some x) (hc : bare c = bare x) :
    renumber ((others cells x.cellId).placeAt i c) = cells := by
  refine renumber_eq h.numbered ?_
  obtain ⟨xs, ys, rfl, rfl⟩ := exists_split hi
  rw [h.others_split, List.placeAt_length_append, List.map_append, List.map_append, List.map_cons,
    List.map_cons, hc]

theorem upsert_of_mem {cells : List DocCell} (h : Good cells) (hx : x ∈ cells)
    (hid : x.cellId = c.cellId) (hversion : x.version ≤ c.version) :
    upsert cells c = renumber ((others cells c.cellId).placeAt
      (min c.index (others cells c.cellId).length) c) := by
  obtain ⟨i, hi⟩ := List.mem_iff_getElem?.1 hx
  rw [upsert, indexOf, ← hid, h.findIdx? hi]
  dsimp only
  rw [hi]
  dsimp only
  rw [if_neg hversion.not_gt, h.eraseIdx hi, hid]

theorem upsert_of_not_mem {cells : List DocCell} (h : ∀ x ∈ cells, x.cellId ≠ c.cellId)
    (hle : c.index ≤ cells.length) :
    upsert cells c = renumber (cells.placeAt c.index c) := by
  rw [upsert, indexOf, findIdx?_eq_none h, min_eq_left hle]

theorem remove_eq {cells : List DocCell} (h : Good cells) (cellId : String) :
    remove cells cellId = renumber (others cells cellId) := by
  by_cases hx : ∃ x ∈ cells, x.cellId = cellId
  · obtain ⟨x, hx, rfl⟩ := hx
    obtain ⟨i, hi⟩ := List.mem_iff_getElem?.1 hx
    rw [remove, indexOf, h.findIdx? hi]
    dsimp only
    rw [h.eraseIdx hi]
  · have hno : ∀ x ∈ cells, x.cellId ≠ cellId := fun x hx' heq ↦ hx ⟨x, hx', heq⟩
    rw [remove, indexOf, findIdx?_eq_none hno, others_eq_self hno, h.numbered.renumber]

theorem index_le_others {cells : List DocCell} (h : Good cells) (hx : x ∈ cells) :
    x.index ≤ (others cells x.cellId).length := by
  obtain ⟨i, hi⟩ := List.mem_iff_getElem?.1 hx
  have hlt := (List.getElem?_eq_some_iff.1 hi).1
  have hlen := h.length_others hx
  rw [h.numbered i x hi]
  omega

/-- **A late answer changes nothing**, where its cell is there, in its place. -/
theorem upsert_eq_self {cells : List DocCell} (h : Good cells) (hx : x ∈ cells)
    (hid : x.cellId = c.cellId)
    (hold : c.version ≤ x.version ∧ (c.version = x.version → bare c = bare x))
    (hplace : c.version < x.version ∨ c.index = x.index) : upsert cells c = cells := by
  obtain ⟨i, hi⟩ := List.mem_iff_getElem?.1 hx
  rcases lt_or_ge c.version x.version with hlt | hge
  · rw [upsert, indexOf, ← hid, h.findIdx? hi]
    dsimp only
    rw [hi]
    exact if_pos hlt
  · have hindex : c.index = i := (hplace.resolve_left hge.not_gt).trans (h.numbered i x hi)
    have hbare := hold.2 (le_antisymm hold.1 hge)
    have hle := index_le_others h hx
    rw [hid, h.numbered i x hi, ← hindex] at hle
    rw [upsert_of_mem h hx hid hge, min_eq_left hle, hindex, ← hid]
    exact renumber_placeAt_eq h hi hbare

theorem moveTo_eq_self {cells : List DocCell} (h : Good cells) (hx : x ∈ cells) {toIndex : ℕ}
    (hindex : x.index = min toIndex (cells.length - 1)) :
    moveTo cells x.cellId toIndex = cells := by
  obtain ⟨i, hi⟩ := List.mem_iff_getElem?.1 hx
  have hlen := h.length_others hx
  rw [moveTo, indexOf, h.findIdx? hi]
  dsimp only
  rw [hi]
  dsimp only
  rw [h.eraseIdx hi]
  have hmin : min toIndex (others cells x.cellId).length = i := by
    rw [← h.numbered i x hi, hindex, hlen, Nat.add_sub_cancel]
  rw [hmin]
  exact renumber_placeAt_eq h hi rfl

/-- Merging the cell of an event gives what the event says, also where its answer came first. -/
theorem upsert_on {doc cells : List DocCell} {v v' : ℕ} {e : Event} (hdoc : Good doc)
    (hfits : e.Fits doc v) (he : e = .created v' c ∨ e = .updated v' c ∨ e = .moved v' c)
    (hcells : cells = doc ∨ Ahead doc e cells) : upsert cells c = e.on doc := by
  rcases hcells with rfl | rfl | ⟨v'', c', rfl, hgood, hrest, y, hy, hyc⟩
  · rcases he with rfl | rfl | rfl
    · exact upsert_of_not_mem hfits.2.2 hfits.2.1
    · obtain ⟨x, hx, hid, hindex, hlt⟩ := hfits.2
      obtain ⟨i, hi⟩ := List.mem_iff_getElem?.1 hx
      have hle := index_le_others hdoc hx
      rw [hindex, hid] at hle
      rw [upsert_of_mem hdoc hx hid hlt.le, min_eq_left hle]
      refine renumber_eq (Event.good_on hdoc hfits).numbered ?_
      rw [Event.on, ← hdoc.set hi hid, ← hindex, hdoc.numbered i x hi, ← hid]
      obtain ⟨xs, ys, rfl, rfl⟩ := exists_split hi
      rw [hdoc.others_split, List.placeAt_length_append, List.set_append_right _ _ le_rfl,
        Nat.sub_self, List.set_cons_zero]
    · obtain ⟨-, hlt, x, hx, hid, hversion⟩ := hfits
      have hlen := hdoc.length_others hx
      rw [hid] at hlen
      rw [upsert_of_mem hdoc hx hid hversion.le, min_eq_left (by omega)]
      rfl
  · exact upsert_eq_self (Event.good_on hdoc hfits) (Event.mem_on_of_brings hdoc hfits he) rfl
      ⟨le_rfl, fun _ ↦ rfl⟩ (.inr rfl)
  · obtain rfl : c' = c := by
      rcases he with he | he | he <;> cases he
      rfl
    obtain ⟨-, hlt, x, hx, hid, -⟩ := hfits
    have hlen := hdoc.length_others hx
    have hsame : (others cells c'.cellId).length = (others doc c'.cellId).length := by
      simpa using congrArg List.length hrest
    rw [hid] at hlen
    rw [upsert_of_mem hgood hy (cellId_of_bare hyc) (version_of_bare hyc).le,
      min_eq_left (by omega)]
    refine renumber_congr ?_
    rw [List.map_placeAt, hrest, List.map_placeAt]

/-- Removing the cell of an event, likewise. -/
theorem remove_on {doc cells : List DocCell} {v v' : ℕ} (hdoc : Good doc)
    (hfits : (Event.deleted v' cellId).Fits doc v)
    (hcells : cells = doc ∨ Ahead doc (.deleted v' cellId) cells) :
    remove cells cellId = Event.on doc (.deleted v' cellId) := by
  rcases hcells with rfl | rfl | ⟨_, _, he, -⟩
  · exact remove_eq hdoc cellId
  · rw [remove_eq (Event.good_on hdoc hfits), Event.on]
    refine renumber_congr ?_
    rw [map_bare_others_renumber, others_others]
  · cases he

theorem isSome_indexOf {cells : List DocCell} :
    (indexOf cells cellId).isSome = true ↔ ∃ x ∈ cells, x.cellId = cellId := by
  rw [indexOf, List.findIdx?_isSome, List.any_eq_true]
  simp only [beq_iff_eq]

/-! ### The mirror is lawful -/

theorem lawful : mirror.Lawful care Marks where
  load v n hgood := by
    refine ⟨?_, rfl⟩
    show renumber (List.mergeSort _ _) = _
    rw [List.mergeSort_of_pairwise, hgood.numbered.renumber]
    refine List.pairwise_iff_getElem.2 fun i j hi hj hij ↦ ?_
    rw [hgood.numbered i _ (List.getElem?_eq_getElem hi),
      hgood.numbered j _ (List.getElem?_eq_getElem hj)]
    exact decide_eq_true hij.le
  next := by
    intro s doc e m v hdoc hfits hmarks _ hcells
    obtain rfl : s.docVersion = v := hmarks
    show (s.apply e).cells = _ ∧ (s.apply e).docVersion = _
    cases e with
    | created v' c =>
      obtain rfl := hfits.1
      rw [apply, if_neg (by omega)]
      exact ⟨upsert_on hdoc hfits (.inl rfl) hcells, max_eq_right (Nat.le_succ _)⟩
    | updated v' c =>
      obtain rfl := hfits.1
      rw [apply, if_neg (by omega)]
      exact ⟨upsert_on hdoc hfits (.inr (.inl rfl)) hcells, rfl⟩
    | deleted v' cellId =>
      obtain rfl := hfits.1
      rw [apply, if_neg (by omega)]
      exact ⟨remove_on hdoc hfits hcells, rfl⟩
    | moved v' c =>
      obtain rfl := hfits.1
      rw [apply, if_neg (by omega)]
      exact ⟨upsert_on hdoc hfits (.inr (.inr rfl)) hcells, rfl⟩
    | other =>
      refine ⟨?_, rfl⟩
      rcases hcells with hcells | hcells | ⟨_, _, he, -⟩
      · exact hcells
      · exact hcells
      · cases he
  other hmarks := ⟨rfl, hmarks⟩
  again := by
    intro s doc e k m v v' hmarks _ hfits hle hagain
    obtain rfl : s.docVersion = v := hmarks
    have hsame : s.apply e = s := by
      cases e with
      | created v'' c =>
        obtain rfl := hfits.1
        exact if_pos ⟨hle, isSome_indexOf.2 (hagain _ c rfl)⟩
      | updated | deleted | moved =>
        obtain rfl := hfits.1
        exact if_pos hle
      | other => rfl
    show (s.apply e).cells = s.cells ∧ (s.apply e).docVersion = s.docVersion
    rw [hsame]
    exact ⟨rfl, rfl⟩
  early := by
    intro s doc e v a hdoc hfits hofCells hanswers hcells
    cases e with
    | created v' c =>
      cases a with
      | cell c' =>
        obtain rfl : c' = c := hanswers
        exact .inl (upsert_on hdoc hfits (.inl rfl) hcells)
      | _ => exact hanswers.elim
    | updated v' c =>
      cases a with
      | cell c' =>
        obtain rfl : c' = c := hanswers
        exact .inl (upsert_on hdoc hfits (.inr (.inl rfl)) hcells)
      | _ => exact hanswers.elim
    | deleted v' cellId =>
      cases a with
      | gone cellId' =>
        obtain rfl : cellId' = cellId := hanswers
        exact .inl (remove_on hdoc hfits hcells)
      | _ => exact hanswers.elim
    | moved v' c =>
      cases a with
      | moved c' toIndex =>
        obtain ⟨rfl, hindex⟩ : c' = c ∧ c.index = min toIndex (doc.length - 1) := hanswers
        have hon := Event.good_on hdoc hfits
        have hmem := Event.mem_on_of_brings hdoc hfits (.inr (.inr rfl))
        have hlen : (Event.on doc (.moved v' c')).length = doc.length := by
          obtain ⟨-, -, x, hx, hid, -⟩ := hfits
          have hothers := hdoc.length_others hx
          rw [hid] at hothers
          rw [Event.on, length_renumber, (List.perm_placeAt _ _ _).length_eq, hothers]
          rfl
        refine .inl ?_
        have hupsert : upsert s.cells c' = Event.on doc (.moved v' c') :=
          upsert_on hdoc hfits (.inr (.inr rfl)) hcells
        show moveTo (upsert s.cells c') c'.cellId toIndex = _
        rw [hupsert]
        exact moveTo_eq_self hon hmem (hlen ▸ hindex)
      | _ => exact hanswers.elim
    | other => cases hofCells
  late := by
    intro s a hgood hold hlate
    have hupsert : ∀ c, Old s.cells (.cell c) → care.late s (.cell c) → upsert s.cells c = s.cells := by
      rintro c hold ⟨x, hx, hid, hplace⟩
      exact upsert_eq_self hgood hx hid (hold x hx hid) hplace
    cases a with
    | cell c => exact hupsert c hold hlate
    | moved c toIndex =>
      obtain ⟨x, hx, hid, hplace, hindex⟩ := hlate
      show moveTo (upsert s.cells c) c.cellId toIndex = s.cells
      rw [hupsert c hold ⟨x, hx, hid, hplace⟩, ← hid]
      exact moveTo_eq_self hgood hx hindex
    | conflict deletes c =>
      cases deletes with
      | true => rfl
      | false => exact hupsert c hold hlate
    | gone cellId =>
      refine (remove_eq hgood cellId).trans ?_
      rw [others_eq_self hold]
      exact hgood.numbered.renumber
    | refused => rfl
  refused := rfl
  answered := by
    intro s a m v hmarks
    cases a with
    | conflict deletes c => cases deletes <;> exact hmarks
    | _ => exact hmarks

end DocModel

end Ember.Collab
