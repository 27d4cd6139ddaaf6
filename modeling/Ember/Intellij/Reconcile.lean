import Ember.Intellij.Matched

/-!
# What the requests of the reconciler do

`CellReconciler.reconcile` computes all its requests before the first is sent, while every request
shifts what the next one finds. The manager's list is followed through the four stages: the deletes
leave the matched cells (`executeAll_deletes`), the updates bring these to what the buffer has
(`executeAll_updates`), the creates put each new cell behind the one before it in the buffer
(`creates_spec`), and the moves arrange what is then there in the order of the buffer
(`executeAll_moves`).

No request names a title, and none is sent for the type or the metadata of the preamble, so the
outcome (`Synced`) is what `reconcile_spec` promises: everything else.
-/

namespace Ember.Intellij

open CellReconciler

/-- What becomes of a cell of the buffer, given the cell of the document it is paired with. -/
structure Synced (s : Option DocCell) (l : NotebookCell) (c : KeptCell) : Prop where
  source : c.source = l.source
  other : l.isPreamble = false → c.type = l.type ∧ l.metadata.same c.metadata = true
  /-- No request carries a title: a cell keeps the one it had, and a new one has none. -/
  title : c.title = s.bind DocCell.title
  /-- Nor does one change the preamble otherwise. -/
  preamble : l.isPreamble = true → ∀ t ∈ s, c.type = t.type ∧ c.metadata = t.metadata

variable {c : KeptCell} {l : NotebookCell}

theorem Synced.of_version {s : Option DocCell} (h : Synced s l c)
    (version : ℤ) : Synced s l { c with version } :=
  ⟨h.source, h.other, h.title, h.preamble⟩

/-! ### The manager's list -/

section Manager

variable {cells : List KeptCell}

theorem executeAll_append (ops ops' : List SyncOp) :
    executeAll cells (ops ++ ops') =
      (executeAll cells ops).bind fun cells ↦ executeAll cells ops' := by
  induction ops generalizing cells with
  | nil => rfl
  | cons op ops ih =>
    rw [List.cons_append, executeAll, executeAll, Option.bind_assoc]
    exact congrArg _ (funext fun _ ↦ ih)

theorem eq_of_cellId (hnodup : (cells.map KeptCell.cellId).Nodup) {c' : KeptCell} (hc : c ∈ cells)
    (hc' : c' ∈ cells) (h : c.cellId = c'.cellId) : c = c' :=
  List.inj_on_of_nodup_map hnodup hc hc' h

theorem find_cellId (hnodup : (cells.map KeptCell.cellId).Nodup) (hc : c ∈ cells) :
    (cells.find? fun c' ↦ c'.cellId == c.cellId) = some c := by
  cases hfind : cells.find? fun c' ↦ c'.cellId == c.cellId with
  | none => exact absurd (beq_self_eq_true c.cellId) (List.find?_eq_none.1 hfind c hc)
  | some c' =>
    have hid := List.find?_some hfind
    exact congrArg some (eq_of_cellId hnodup (List.mem_of_find?_eq_some hfind) hc (eq_of_beq hid))

end Manager

/-! ### Deletes -/

theorem kept_cellIds (cells : List DocCell) :
    (cells.map DocCell.kept).map KeptCell.cellId = cells.map DocCell.cellId := by
  rw [List.map_map]
  rfl

theorem deletes_cons (matched : List String) (s : DocCell) (rest : List DocCell) :
    deletes (s :: rest) matched =
      if (matched.contains s.cellId || s.index == 0) = true then deletes rest matched
      else .delete s.cellId s.version :: deletes rest matched := by
  cases hmatched : matched.contains s.cellId <;> cases hindex : s.index == 0 <;>
    (simp only [deletes, List.filterMap_cons, bne, hmatched, hindex]; rfl)

theorem execute_delete {pre rest : List KeptCell} (hpre : ∀ c' ∈ pre, c'.cellId ≠ c.cellId)
    (hrest : ∀ c' ∈ rest, c'.cellId ≠ c.cellId) :
    execute (pre ++ c :: rest) (.delete c.cellId c.version) = some (pre ++ rest) := by
  have hfind : ((pre ++ c :: rest).find? fun c' ↦ c'.cellId == c.cellId) = some c := by
    rw [List.find?_append, List.find?_eq_none.2 (fun c' hc ↦ by simpa using hpre c' hc),
      Option.none_or, List.find?_cons, beq_self_eq_true]
  simp only [execute, hfind, if_true]
  rw [List.filter_append, List.filter_cons, bne_self_eq_false, if_neg Bool.false_ne_true,
    List.filter_eq_self.2 (fun c' hc ↦ by simpa using hpre c' hc),
    List.filter_eq_self.2 (fun c' hc ↦ by simpa using hrest c' hc)]

/-- The deletes leave the matched cells and the preamble. -/
theorem executeAll_deletes (matched : List String) (pre : List KeptCell) {rest : List DocCell}
    (hnodup : (rest.map DocCell.cellId).Nodup)
    (hpre : ∀ c ∈ pre, c.cellId ∉ rest.map DocCell.cellId) :
    executeAll (pre ++ rest.map DocCell.kept) (deletes rest matched) =
      some (pre ++ (rest.filter fun s ↦
        matched.contains s.cellId || s.index == 0).map DocCell.kept) := by
  induction rest generalizing pre with
  | nil => rfl
  | cons s rest ih =>
    obtain ⟨hs, hnodup⟩ := List.nodup_cons.1 hnodup
    have hrest : ∀ c ∈ pre, c.cellId ∉ rest.map DocCell.cellId := fun c hc hmem ↦
      hpre c hc (List.mem_cons_of_mem _ hmem)
    rw [deletes_cons, List.map_cons]
    split
    case isTrue hkeep =>
      have hnext := ih (pre ++ [s.kept]) hnodup fun c hc ↦ by
        rcases List.mem_append.1 hc with hc | hc
        · exact hrest c hc
        · exact List.mem_singleton.1 hc ▸ hs
      rw [List.filter_cons, if_pos hkeep, List.map_cons]
      simpa using hnext
    case isFalse hkeep =>
      have hop : execute (pre ++ s.kept :: rest.map DocCell.kept) (.delete s.cellId s.version) =
          some (pre ++ rest.map DocCell.kept) := by
        refine execute_delete (c := s.kept) (fun c hc heq ↦ hpre c hc (heq ▸ List.mem_cons_self))
          fun c hc heq ↦ hs ?_
        obtain ⟨t, ht, rfl⟩ := List.mem_map.1 hc
        exact (show t.cellId = s.cellId from heq) ▸ List.mem_map_of_mem ht
      rw [List.filter_cons, if_neg hkeep, executeAll, hop, Option.bind_some]
      exact ih pre hnodup hrest

/-! ### Updates -/

variable {s : DocCell}

/-- An update brings a cell to what the buffer has. -/
theorem synced_update (hl : l.metadata.Sound) (hs : s.metadata.Sound) :
    (update l s = none ∧ Synced (some s) l s.kept) ∨
      ∃ source type metadata, update l s = some (.update s.cellId s.version source type metadata) ∧
        Synced (some s) l (s.kept.patch source type metadata) := by
  have hsynced : Synced (some s) l (s.kept.patch
      (if l.source != s.source then some l.source else none)
      (if !l.isPreamble && l.type != s.type then some l.type else none)
      (if !l.isPreamble && !sameMetadata l.metadata s.metadata then some l.metadata else none)) := by
    refine ⟨?_, fun hpre ↦ ⟨?_, ?_⟩, rfl, fun hpre t ht ↦ ?_⟩
    · by_cases hsource : l.source = s.source <;> simp [KeptCell.patch, DocCell.kept, hsource]
    · by_cases htype : l.type = s.type <;> simp [KeptCell.patch, DocCell.kept, htype, hpre]
    · cases hmeta : sameMetadata l.metadata s.metadata with
      | true => simpa [KeptCell.patch, DocCell.kept, Metadata.sameMetadata_eq hl hs] using hmeta
      | false => simp [KeptCell.patch, hpre, Metadata.same_self hl]
    · obtain rfl := Option.some.inj ht
      simp [KeptCell.patch, DocCell.kept, hpre]
  unfold update
  dsimp only
  generalize (if l.source != s.source then some l.source else none) = source at hsynced ⊢
  generalize (if !l.isPreamble && l.type != s.type then some l.type else none) = type at hsynced ⊢
  generalize (if !l.isPreamble && !sameMetadata l.metadata s.metadata then some l.metadata
    else none) = metadata at hsynced ⊢
  split
  case isTrue => exact .inr ⟨source, type, metadata, rfl, hsynced⟩
  case isFalse hnone =>
    simp only [Bool.or_eq_true, not_or, Bool.not_eq_true, Option.isSome_eq_false_iff,
      Option.isNone_iff_eq_none] at hnone
    obtain ⟨⟨rfl, rfl⟩, rfl⟩ := hnone
    exact .inl ⟨rfl, hsynced.of_version s.version⟩

theorem byId_eq (d : Document) (hs : s ∈ d.cells) :
    byId d.cells s.cellId = some s := by
  have hmem : s ∈ d.cells.filter fun c ↦ c.cellId == s.cellId :=
    List.mem_filter.2 ⟨hs, beq_self_eq_true _⟩
  cases hlast : byId d.cells s.cellId with
  | none => exact absurd (List.getLast?_eq_none_iff.1 hlast) (List.ne_nil_of_mem hmem)
  | some t =>
    obtain ⟨ht, hid⟩ := List.mem_filter.1 (List.mem_of_getLast? hlast)
    exact congrArg some (List.inj_on_of_nodup_map d.ids ht hs (eq_of_beq hid))

/-- An update is of one cell. -/
theorem execute_update {cells : List KeptCell} (hnodup : (cells.map KeptCell.cellId).Nodup)
    (hc : c ∈ cells) (source type : Option String) (metadata : Option Metadata) :
    ∃ cells', execute cells (.update c.cellId c.version source type metadata) = some cells' ∧
      cells'.map KeptCell.cellId = cells.map KeptCell.cellId ∧
      c.patch source type metadata ∈ cells' ∧
      ∀ c' ∈ cells, c'.cellId ≠ c.cellId → c' ∈ cells' := by
  refine ⟨cells.map fun c' ↦ if c'.cellId = c.cellId then c'.patch source type metadata else c',
    by simp only [execute, find_cellId hnodup hc, if_true], ?_, ?_, fun c' hc' hne ↦ ?_⟩
  · rw [List.map_map]
    refine List.map_congr_left fun c' _ ↦ ?_
    show (if _ then _ else _ : KeptCell).cellId = _
    split <;> rfl
  · exact List.mem_map.2 ⟨c, hc, if_pos rfl⟩
  · exact List.mem_map.2 ⟨c', hc', if_neg hne⟩

variable {i k : ℕ} {id x : String} {state : List String × List SyncOp} {server : List DocCell}

section Stages

variable {d : Document} {b : Buffer} {pairs : List (Option String)}

/-- The cell of the document a cell of the buffer is paired with. -/
def behind (d : Document) (pairs : List (Option String)) (i : ℕ) : Option DocCell :=
  (pairs[i]?).join.bind (byId d.cells)

theorem behind_eq_some (h : Pairs d b pairs) (hid : (pairs[i]?).join = some id) :
    ∃ s ∈ d.cells, s.cellId = id ∧ behind d pairs i = some s := by
  obtain ⟨s, hs, rfl⟩ := h.known i id hid
  exact ⟨s, hs, rfl, by rw [behind, hid, Option.bind_some, byId_eq d hs]⟩

theorem of_behind (hs : behind d pairs i = some s) :
    s ∈ d.cells ∧ (pairs[i]?).join = some s.cellId := by
  obtain ⟨id, hid, hs⟩ := Option.bind_eq_some_iff.1 hs
  obtain ⟨hmem, heq⟩ := List.mem_filter.1 (List.mem_of_getLast? hs)
  exact ⟨hmem, (eq_of_beq heq) ▸ hid⟩

/-- Two cells of the buffer are paired with two cells. -/
theorem behind_ne (h : Pairs d b pairs) {j : ℕ} (hij : i ≠ j) {t : DocCell}
    (hs : behind d pairs i = some s) (ht : behind d pairs j = some t) : s.cellId ≠ t.cellId :=
  fun heq ↦ hij (h.single i j s.cellId (of_behind hs).2 (heq ▸ (of_behind ht).2))

/-- The update of one cell, if there is one. -/
theorem executeAll_update {p : NotebookCell × ℕ} (hp : p.1.metadata.Sound) {cells : List KeptCell}
    (hnodup : (cells.map KeptCell.cellId).Nodup)
    (hcell : ∀ s, behind d pairs p.2 = some s → s.kept ∈ cells) :
    ∃ cells', executeAll cells ((behind d pairs p.2).bind fun s ↦ update p.1 s).toList =
        some cells' ∧ cells'.map KeptCell.cellId = cells.map KeptCell.cellId ∧
      (∀ c ∈ cells, (∀ s, behind d pairs p.2 = some s → s.cellId ≠ c.cellId) → c ∈ cells') ∧
      ∀ s, behind d pairs p.2 = some s → ∃ c ∈ cells', c.cellId = s.cellId ∧
        Synced (some s) p.1 c := by
  cases hs : behind d pairs p.2 with
  | none => exact ⟨cells, rfl, rfl, fun c hc _ ↦ hc, fun s hs ↦ absurd hs (Option.some_ne_none s).symm⟩
  | some s =>
    rw [Option.bind_some]
    obtain ⟨hnone, hsynced⟩ | ⟨source, type, metadata, hop, hsynced⟩ :=
      synced_update hp (d.metadata s (of_behind hs).1)
    · refine ⟨cells, by rw [hnone]; rfl, rfl, fun c hc _ ↦ hc, fun t ht ↦ ?_⟩
      obtain rfl := Option.some.inj ht
      exact ⟨s.kept, hcell s hs, rfl, hsynced⟩
    · obtain ⟨cells', hrun, hids, hpatched, hkeep⟩ :=
        execute_update hnodup (hcell s hs) source type metadata
      refine ⟨cells', ?_, hids, fun c hc hno ↦ hkeep c hc (hno s rfl).symm, fun t ht ↦ ?_⟩
      · rw [hop, Option.toList_some, executeAll]
        exact congrArg (Option.bind · _) hrun
      · obtain rfl := Option.some.inj ht
        exact ⟨_, hpatched, rfl, hsynced⟩

/-- The updates bring the matched cells to what the buffer has. -/
theorem executeAll_updates (h : Pairs d b pairs) (todo : List (NotebookCell × ℕ))
    (htodo : ∀ p ∈ todo, p.1.metadata.Sound) (hplaces : (todo.map Prod.snd).Nodup)
    {cells : List KeptCell} (hnodup : (cells.map KeptCell.cellId).Nodup)
    (hcells : ∀ p ∈ todo, ∀ s, behind d pairs p.2 = some s → s.kept ∈ cells) :
    ∃ cells', executeAll cells
        (todo.filterMap fun p ↦ (behind d pairs p.2).bind fun s ↦ update p.1 s) = some cells' ∧
      cells'.map KeptCell.cellId = cells.map KeptCell.cellId ∧
      (∀ c ∈ cells, (∀ p ∈ todo, ∀ s, behind d pairs p.2 = some s → s.cellId ≠ c.cellId) →
        c ∈ cells') ∧
      ∀ p ∈ todo, ∀ s, behind d pairs p.2 = some s →
        ∃ c ∈ cells', c.cellId = s.cellId ∧ Synced (some s) p.1 c := by
  induction todo generalizing cells with
  | nil => exact ⟨cells, rfl, rfl, fun c hc _ ↦ hc, fun p hp ↦ absurd hp List.not_mem_nil⟩
  | cons p todo ih =>
    obtain ⟨hp, htodo⟩ := List.forall_mem_cons.1 htodo
    obtain ⟨hplace, hplaces⟩ := List.nodup_cons.1 hplaces
    obtain ⟨hcell, hcells⟩ := List.forall_mem_cons.1 hcells
    -- the cells of the rest are paired with others
    have hother : ∀ q ∈ todo, ∀ s t, behind d pairs p.2 = some s → behind d pairs q.2 = some t →
        s.cellId ≠ t.cellId := fun q hq s t ↦ behind_ne h fun heq : p.2 = q.2 ↦ hplace <| by
      rw [heq]
      exact List.mem_map_of_mem hq
    obtain ⟨cells₁, hrun₁, hids₁, hkeep₁, hone⟩ := executeAll_update hp hnodup hcell
    obtain ⟨cells₂, hrun₂, hids₂, hkeep₂, hall⟩ := ih htodo hplaces (hids₁ ▸ hnodup)
      fun q hq t ht ↦ hkeep₁ _ (hcells q hq t ht) fun s hs ↦ hother q hq s t hs ht
    have hsplit : (p :: todo).filterMap (fun p ↦ (behind d pairs p.2).bind fun s ↦ update p.1 s) =
        ((behind d pairs p.2).bind fun s ↦ update p.1 s).toList ++
          todo.filterMap fun p ↦ (behind d pairs p.2).bind fun s ↦ update p.1 s := by
      rw [List.filterMap_cons]
      cases (behind d pairs p.2).bind fun s ↦ update p.1 s <;> rfl
    refine ⟨cells₂, by rw [hsplit, executeAll_append, hrun₁, Option.bind_some, hrun₂],
      hids₂.trans hids₁, fun c hc hno ↦ ?_, List.forall_mem_cons.2 ⟨fun s hs ↦ ?_, hall⟩⟩
    · obtain ⟨hnop, hnotodo⟩ := List.forall_mem_cons.1 hno
      exact hkeep₂ c (hkeep₁ c hc hnop) hnotodo
    · obtain ⟨c, hc, hid, hsynced⟩ := hone s hs
      exact ⟨c, hkeep₂ c hc fun q hq t ht ↦ hid ▸ (hother q hq s t hs ht).symm, hid, hsynced⟩

/-! ### Creates -/

theorem newRef_injective : Function.Injective newRef := by
  intro i j h
  refine Nat.repr_injective ?_
  have := congrArg String.toList h
  simp only [newRef, String.toList_append, List.append_cancel_left_eq] at this
  exact String.toList_injective this

/-- How the requests name a cell of the buffer. -/
def ref (pairs : List (Option String)) (i : ℕ) : String := (pairs[i]?).join.getD (newRef i)

theorem ref_of_none (h : (pairs[i]?).join = none) : ref pairs i = newRef i := by
  rw [ref, h, Option.getD_none]

theorem ref_of_some (h : (pairs[i]?).join = some id) : ref pairs i = id := by
  rw [ref, h, Option.getD_some]

theorem Pairs.ref_injective (h : Pairs d b pairs) : Function.Injective (ref pairs) := by
  intro i j hij
  -- a paired cell goes by an id of the manager's, which no new one has
  have hfresh : ∀ i j id, (pairs[i]?).join = some id → (pairs[j]?).join = none →
      ref pairs i ≠ ref pairs j := by
    intro i j id hi hj heq
    obtain ⟨s, hs, rfl⟩ := h.known i id hi
    exact d.fresh s hs j (by rw [← ref_of_some hi, heq, ref_of_none hj])
  cases hi : (pairs[i]?).join with
  | some id =>
    cases hj : (pairs[j]?).join with
    | some id' =>
      have hid : id = id' := by rw [← ref_of_some hi, hij, ref_of_some hj]
      exact h.single i j id hi (hid ▸ hj)
    | none => exact absurd hij (hfresh i j id hi hj)
  | none =>
    cases hj : (pairs[j]?).join with
    | some id => exact absurd hij.symm (hfresh j i id hj hi)
    | none => exact newRef_injective (by rw [← ref_of_none hi, hij, ref_of_none hj])

theorem getElem?_refs (cells : List NotebookCell) (pairs : List (Option String)) (i : ℕ) :
    (refs cells pairs)[i]? = if i < cells.length then some (ref pairs i) else none := by
  simp only [refs, List.getElem?_map, List.getElem?_zipIdx, Option.map_map, Nat.zero_add]
  split
  case isTrue hi => rw [List.getElem?_eq_getElem hi]; rfl
  case isFalse hi => rw [List.getElem?_eq_none (not_lt.1 hi)]; rfl

theorem mem_refs {cells : List NotebookCell} :
    x ∈ refs cells pairs ↔ ∃ i < cells.length, x = ref pairs i := by
  rw [List.mem_iff_getElem?]
  refine exists_congr fun i ↦ ?_
  rw [getElem?_refs]
  split
  case isTrue hi => simp [hi, eq_comm]
  case isFalse hi => simp [hi]

theorem Pairs.nodup_refs (h : Pairs d b pairs) (cells : List NotebookCell) :
    (refs cells pairs).Nodup := by
  have hrefs : refs cells pairs = (List.range cells.length).map (ref pairs) := by
    refine List.ext_getElem? fun i ↦ ?_
    rw [getElem?_refs, List.getElem?_map]
    split
    case isTrue hi => rw [List.getElem?_range hi, Option.map_some]
    case isFalse hi => rw [List.getElem?_eq_none (by simpa using hi), Option.map_none]
  rw [hrefs]
  exact (List.nodup_range).map h.ref_injective

/-- The cell that goes by the name of a cell of the buffer is what becomes of it. -/
def Right (d : Document) (b : Buffer) (pairs : List (Option String)) (cells : List KeptCell)
    (i : ℕ) : Prop :=
  ∀ l, b.cells[i]? = some l → ∃ c ∈ cells, c.cellId = ref pairs i ∧ Synced (behind d pairs i) l c

/-- Where the creates are when they have come to a place of the buffer. -/
structure Creating (d : Document) (b : Buffer) (pairs : List (Option String))
    (cells : List KeptCell) (k : ℕ) (state : List String × List SyncOp) : Prop where
  nodup : state.1.Nodup
  head : state.1.head? = some d.preamble.cellId
  known : ∀ x ∈ state.1, ∃ i < b.cells.length, x = ref pairs i
  there : ∀ i < b.cells.length, ref pairs i ∈ state.1 ↔ (pairs[i]?).join.isSome = true ∨ i < k
  /-- The requests so far leave the cells in that order, each as it should be. -/
  run : ∃ cells', executeAll cells state.2 = some cells' ∧
    cells'.map KeptCell.cellId = state.1 ∧
    ∀ i, ref pairs i ∈ state.1 → Right d b pairs cells' i

theorem execute_create {cells : List KeptCell} {after ref : String}
    (hk : (cells.map KeptCell.cellId).idxOf? after = some k) (type source : String)
    (metadata : Metadata) :
    execute cells (.create ref (some after) type source metadata) =
      some (cells.placeAt (k + 1) (.created ref type source metadata)) := by
  have hindex : (cells.findIdx? fun c ↦ c.cellId == after) = some k := by
    rw [← hk, List.idxOf?, List.findIdx?_map]
    rfl
  simp only [execute, hindex]

theorem head?_placeAt_succ {α : Type*} {l : List α} (hl : l ≠ []) (k : ℕ) (x : α) :
    (l.placeAt (k + 1) x).head? = l.head? := by
  cases l with
  | nil => exact absurd rfl hl
  | cons => rfl

/-- **One round of the creates**: a cell that has no pair is put behind the one before it. -/
theorem Creating.step (h : Pairs d b pairs) {cells : List KeptCell} (hl : b.cells[k]? = some l)
    (hst : Creating d b pairs cells k state) :
    Creating d b pairs cells (k + 1) (createOne pairs (refs b.cells pairs) state (l, k)) := by
  have hklen := (List.getElem?_eq_some_iff.1 hl).1
  cases hk : (pairs[k]?).join with
  | some id =>
    rw [createOne, if_pos (by rw [hk]; rfl)]
    refine ⟨hst.nodup, hst.head, hst.known, fun i hi ↦ (hst.there i hi).trans ?_, hst.run⟩
    refine ⟨fun hor ↦ hor.imp_right Nat.lt_succ_of_lt, fun hor ↦ ?_⟩
    rcases hor with hsome | hlt
    · exact .inl hsome
    · rcases Nat.lt_succ_iff_lt_or_eq.1 hlt with hlt | rfl
      · exact .inr hlt
      · exact .inl (by rw [hk]; rfl)
  | none =>
    have hk0 : k ≠ 0 := fun heq ↦ by
      rw [heq, h.preamble] at hk
      cases hk
    have hpre : l.isPreamble = false := by simpa using mt (b.isPreamble_iff hl).1 hk0
    have hafter : (refs b.cells pairs)[k - 1]? = some (ref pairs (k - 1)) := by
      rw [getElem?_refs, if_pos (by omega)]
    have hmem : ref pairs (k - 1) ∈ state.1 := (hst.there (k - 1) (by omega)).2 (.inr (by omega))
    obtain ⟨p, hp⟩ := Option.isSome_iff_exists.1 (List.isSome_idxOf?.2 hmem)
    have hnew : ref pairs k ∉ state.1 := fun hin ↦ by
      rcases (hst.there k hklen).1 hin with hsome | hlt
      · rw [hk] at hsome
        cases hsome
      · exact lt_irrefl k hlt
    have hone : createOne pairs (refs b.cells pairs) state (l, k) =
        (state.1.placeAt (p + 1) (ref pairs k), state.2 ++
          [.create (ref pairs k) (some (ref pairs (k - 1))) l.type l.source l.metadata]) := by
      rw [createOne, hk, hpre, if_neg (by simp), if_neg Bool.false_ne_true,
        if_pos (Nat.pos_of_ne_zero hk0), hafter, ref_of_none hk]
      simp only [hp]
    obtain ⟨cells', hrun, hids, hright⟩ := hst.run
    have hperm := state.1.perm_placeAt (p + 1) (ref pairs k)
    rw [hone]
    refine ⟨hperm.nodup_iff.2 (List.nodup_cons.2 ⟨hnew, hst.nodup⟩), ?_, fun x hx ↦ ?_,
      fun i hi ↦ ?_, cells'.placeAt (p + 1) (.created (ref pairs k) l.type l.source l.metadata),
      ?_, ?_, fun i hi l' hl' ↦ ?_⟩
    · rw [head?_placeAt_succ (List.ne_nil_of_mem hmem), hst.head]
    · rcases List.mem_placeAt.1 hx with rfl | hx
      · exact ⟨k, hklen, rfl⟩
      · exact hst.known x hx
    · rw [List.mem_placeAt, h.ref_injective.eq_iff, hst.there i hi, Nat.lt_succ_iff_lt_or_eq]
      tauto
    · rw [executeAll_append, hrun, Option.bind_some, executeAll, execute_create (by rw [hids, hp])]
      rfl
    · rw [List.map_placeAt, hids]
      rfl
    · rcases List.mem_placeAt.1 hi with heq | hi
      · obtain rfl := h.ref_injective heq
        obtain rfl : l = l' := Option.some.inj (hl.symm.trans hl')
        refine ⟨_, List.mem_placeAt.2 (.inl rfl), rfl, rfl, fun _ ↦ ⟨rfl, ?_⟩, ?_, fun htrue ↦ ?_⟩
        · exact Metadata.same_self (b.metadata l (List.mem_of_getElem? hl))
        · rw [behind, hk]
          rfl
        · rw [hpre] at htrue
          cases htrue
      · obtain ⟨c, hc, hrest⟩ := hright i hi l' hl'
        exact ⟨c, List.mem_placeAt.2 (.inr hc), hrest⟩

/-! ### Moves -/

theorem execute_move {cells : List KeptCell} (hnodup : (cells.map KeptCell.cellId).Nodup)
    (hc : c ∈ cells) (pos : ℕ) :
    ∃ cells', execute cells (.move c.cellId pos) = some cells' ∧
      cells'.map KeptCell.cellId = (cells.map KeptCell.cellId).moveTo c.cellId pos ∧
      ∀ c' ∈ cells, ∃ version, { c' with version } ∈ cells' := by
  refine ⟨(cells.filter fun c' ↦ c'.cellId != c.cellId).placeAt pos
    { c with version := c.version + 1 }, by simp only [execute, find_cellId hnodup hc], ?_,
    fun c' hc' ↦ ?_⟩
  · rw [List.map_placeAt, List.moveTo, hnodup.erase_eq_filter, List.filter_map]
    rfl
  · by_cases heq : c'.cellId = c.cellId
    · obtain rfl := eq_of_cellId hnodup hc' hc heq
      exact ⟨c'.version + 1, List.mem_placeAt.2 (.inl rfl)⟩
    · exact ⟨c'.version, List.mem_placeAt.2 (.inr (List.mem_filter.2 ⟨hc', by simpa using heq⟩))⟩

theorem executeAll_moves {cells : List KeptCell} (hnodup : (cells.map KeptCell.cellId).Nodup)
    (moves : List (String × ℕ)) (hmoves : ∀ m ∈ moves, m.1 ∈ cells.map KeptCell.cellId) :
    ∃ cells', executeAll cells (moves.map fun m ↦ .move m.1 m.2) = some cells' ∧
      cells'.map KeptCell.cellId = (cells.map KeptCell.cellId).replay moves ∧
      ∀ c ∈ cells, ∃ version, { c with version } ∈ cells' := by
  induction moves generalizing cells with
  | nil => exact ⟨cells, rfl, rfl, fun c hc ↦ ⟨c.version, hc⟩⟩
  | cons m moves ih =>
    obtain ⟨hm, hmoves⟩ := List.forall_mem_cons.1 hmoves
    obtain ⟨c, hc, hid⟩ := List.mem_map.1 hm
    obtain ⟨cells₁, hrun₁, hids₁, hkeep₁⟩ := execute_move hnodup hc m.2
    rw [hid] at hrun₁ hids₁
    have hperm : (cells₁.map KeptCell.cellId).Perm (cells.map KeptCell.cellId) :=
      hids₁ ▸ List.perm_moveTo hm m.2
    obtain ⟨cells₂, hrun₂, hids₂, hkeep₂⟩ := ih (hperm.nodup_iff.2 hnodup)
      fun m' hm' ↦ hperm.mem_iff.2 (hmoves m' hm')
    refine ⟨cells₂, by rw [List.map_cons, executeAll, hrun₁, Option.bind_some, hrun₂],
      by rw [hids₂, hids₁]; rfl, fun c' hc' ↦ ?_⟩
    obtain ⟨version₁, hc₁⟩ := hkeep₁ c' hc'
    obtain ⟨version₂, hc₂⟩ := hkeep₂ _ hc₁
    exact ⟨version₂, hc₂⟩

/-! ### All of them -/

theorem contains_matched :
    (pairs.filterMap fun x ↦ x).contains id = true ↔ ∃ i : ℕ, (pairs[i]?).join = some id := by
  rw [List.contains_iff_mem, List.mem_filterMap]
  constructor
  · rintro ⟨x, hx, rfl⟩
    obtain ⟨i, hi⟩ := List.mem_iff_getElem?.1 hx
    exact ⟨i, by rw [hi]; rfl⟩
  · rintro ⟨i, hi⟩
    exact ⟨some id, List.mem_of_getElem? (Option.join_eq_some_iff.1 hi), rfl⟩

theorem Document.sorted (d : Document) : d.cells.Pairwise fun s t ↦ s.index ≤ t.index := by
  refine List.pairwise_iff_getElem.2 fun i j hi hj hij ↦ ?_
  rw [d.index i _ (List.getElem?_eq_getElem hi), d.index j _ (List.getElem?_eq_getElem hj)]
  exact hij.le

/-- The cells that are in the document already stay in their order. -/
theorem firstOrder_eq (hsorted : server.Pairwise fun s t ↦ s.index ≤ t.index)
    (matched : List String) :
    firstOrder server matched = (server.filter fun s ↦
      matched.contains s.cellId || s.index == 0).map DocCell.cellId := by
  rw [firstOrder, List.mergeSort_of_pairwise]
  exact (hsorted.filter _).imp fun h ↦ decide_eq_true h

section

variable (h : Pairs d b pairs)
include h

/-- The preamble has a pair, so every cell of the buffer is wanted. -/
theorem target_eq : target b.cells pairs = refs b.cells pairs := by
  rw [target, refs, ← List.filterMap_eq_map]
  refine List.filterMap_congr fun p hp ↦ ?_
  have hl := List.mem_zipIdx_iff_getElem?.1 hp
  rw [if_neg]
  · rfl
  · rintro hnone
    obtain ⟨hpre, hnone⟩ := Bool.and_eq_true_iff.1 hnone
    rw [(b.isPreamble_iff hl).1 hpre, h.preamble] at hnone
    cases hnone

/-- What the deletes leave is what has a pair. -/
theorem mem_firstOrder :
    x ∈ firstOrder d.cells (pairs.filterMap fun x ↦ x) ↔ ∃ i : ℕ, (pairs[i]?).join = some x := by
  rw [firstOrder_eq d.sorted, List.mem_map]
  constructor
  · rintro ⟨s, hs, rfl⟩
    obtain ⟨hs, hkeep⟩ := List.mem_filter.1 hs
    rcases Bool.or_eq_true_iff.1 hkeep with hmatched | hindex
    · exact contains_matched.1 hmatched
    · obtain ⟨j, hj⟩ := List.mem_iff_getElem?.1 hs
      obtain rfl : j = 0 := (d.index j s hj).symm.trans (eq_of_beq hindex)
      obtain rfl : d.preamble = s := Option.some.inj hj
      exact ⟨0, h.preamble⟩
  · rintro ⟨i, hi⟩
    obtain ⟨s, hs, rfl⟩ := h.known i x hi
    exact ⟨s, List.mem_filter.2 ⟨hs, by rw [contains_matched.2 ⟨i, hi⟩, Bool.true_or]⟩, rfl⟩

theorem Pairs.lt_length (hi : (pairs[i]?).join = some id) : i < b.cells.length :=
  h.length ▸ (List.getElem?_eq_some_iff.1 (Option.join_eq_some_iff.1 hi)).1

theorem Creating.start {cells : List KeptCell}
    (hids : cells.map KeptCell.cellId = firstOrder d.cells (pairs.filterMap fun x ↦ x))
    (hright : ∀ p ∈ b.cells.zipIdx, ∀ s, behind d pairs p.2 = some s →
      ∃ c ∈ cells, c.cellId = s.cellId ∧ Synced (some s) p.1 c) :
    Creating d b pairs cells 0 (firstOrder d.cells (pairs.filterMap fun x ↦ x), []) := by
  have hthere : ∀ i, ref pairs i ∈ firstOrder d.cells (pairs.filterMap fun x ↦ x) ↔
      (pairs[i]?).join.isSome = true := by
    intro i
    rw [mem_firstOrder h]
    constructor
    · rintro ⟨j, hj⟩
      obtain rfl := h.ref_injective (ref_of_some hj)
      rw [hj]
      rfl
    · intro hsome
      obtain ⟨id, hid⟩ := Option.isSome_iff_exists.1 hsome
      exact ⟨i, by rw [ref_of_some hid, hid]⟩
  refine ⟨?_, ?_, fun x hx ↦ ?_, fun i _ ↦ (hthere i).trans (by simp), cells, rfl, hids,
    fun i hi l hl ↦ ?_⟩
  · show (firstOrder d.cells _).Nodup
    rw [firstOrder_eq d.sorted]
    exact d.ids.sublist (List.filter_sublist.map _)
  · show (firstOrder d.cells _).head? = _
    rw [firstOrder_eq d.sorted, Document.cells, List.filter_cons,
      if_pos (by simp [d.index 0 d.preamble rfl])]
    rfl
  · obtain ⟨i, hi⟩ := (mem_firstOrder h).1 hx
    exact ⟨i, h.lt_length hi, (ref_of_some hi).symm⟩
  · obtain ⟨id, hid⟩ := Option.isSome_iff_exists.1 ((hthere i).1 hi)
    obtain ⟨s, -, rfl, hs⟩ := behind_eq_some h hid
    rw [ref_of_some hid, hs]
    exact hright (l, i) (List.mem_zipIdx_iff_getElem?.2 hl) s hs

/-- The creates leave the cells of the buffer, each as it should be. -/
theorem creates_spec {cells : List KeptCell}
    (hids : cells.map KeptCell.cellId = firstOrder d.cells (pairs.filterMap fun x ↦ x))
    (hright : ∀ p ∈ b.cells.zipIdx, ∀ s, behind d pairs p.2 = some s →
      ∃ c ∈ cells, c.cellId = s.cellId ∧ Synced (some s) p.1 c) :
    Creating d b pairs cells b.cells.length
      (creates b.cells pairs (firstOrder d.cells (pairs.filterMap fun x ↦ x))) :=
  foldl_zipIdx (Creating.start h hids hright) fun _ _ _ hl hst ↦ hst.step h hl

theorem Creating.perm_refs {cells : List KeptCell}
    (hst : Creating d b pairs cells b.cells.length state) :
    state.1.Perm (refs b.cells pairs) := by
  refine (List.perm_ext_iff_of_nodup hst.nodup (h.nodup_refs _)).2 fun x ↦ ?_
  rw [mem_refs]
  refine ⟨hst.known x, ?_⟩
  rintro ⟨i, hi, rfl⟩
  exact (hst.there i hi).2 (.inr hi)

/-- **The requests turn the document into the buffer**: each is executed, and the cells there are
then are those of the buffer, in its order. -/
theorem reconcile_spec :
    ∃ cells, executeAll (d.cells.map DocCell.kept) (reconcile b.cells d.cells pairs) = some cells ∧
      cells.map KeptCell.cellId = refs b.cells pairs ∧
      ∀ i l c, b.cells[i]? = some l → cells[i]? = some c → Synced (behind d pairs i) l c := by
  -- the deletes
  have hrun₁ : executeAll (d.cells.map DocCell.kept) (deletes d.cells (pairs.filterMap fun x ↦ x)) =
      some ((d.cells.filter fun s ↦ (pairs.filterMap fun x ↦ x).contains s.cellId ||
        s.index == 0).map DocCell.kept) :=
    executeAll_deletes _ [] d.ids fun c hc ↦ absurd hc List.not_mem_nil
  generalize hcells₁ : (d.cells.filter fun s ↦ (pairs.filterMap fun x ↦ x).contains s.cellId ||
    s.index == 0).map DocCell.kept = cells₁ at hrun₁
  have hids₁ : cells₁.map KeptCell.cellId = firstOrder d.cells (pairs.filterMap fun x ↦ x) := by
    rw [firstOrder_eq d.sorted, ← hcells₁, kept_cellIds]
  have hnodup₁ : (cells₁.map KeptCell.cellId).Nodup := by
    rw [← hcells₁, kept_cellIds]
    exact d.ids.sublist (List.filter_sublist.map _)
  -- the updates
  obtain ⟨cells₂, hrun₂, hids₂, -, hright₂⟩ := executeAll_updates h b.cells.zipIdx
    (fun p hp ↦ b.metadata _ (List.mem_of_getElem? (List.mem_zipIdx_iff_getElem?.1 hp)))
    (by rw [List.zipIdx_map_snd]; exact List.nodup_range') hnodup₁ fun p _ s hs ↦ by
      obtain ⟨hmem, hpair⟩ := of_behind hs
      rw [← hcells₁]
      exact List.mem_map_of_mem (List.mem_filter.2
        ⟨hmem, by rw [contains_matched.2 ⟨p.2, hpair⟩, Bool.true_or]⟩)
  -- the creates
  have hcreated := creates_spec h (hids₂.trans hids₁) hright₂
  obtain ⟨cells₃, hrun₃, hids₃, hright₃⟩ := hcreated.run
  have hperm := hcreated.perm_refs h
  -- the moves
  generalize hcreates : creates b.cells pairs (firstOrder d.cells (pairs.filterMap fun x ↦ x)) =
    created at hcreated hrun₃ hids₃ hright₃ hperm
  obtain ⟨cells₄, hrun₄, hids₄, hkeep₄⟩ := executeAll_moves (hids₃ ▸ hcreated.nodup)
    (created.1.arrange 0 (target b.cells pairs)).2 fun m hm ↦ by
      rw [hids₃, hperm.mem_iff, ← target_eq h]
      exact List.mem_of_mem_arrange hm
  have horder : cells₄.map KeptCell.cellId = refs b.cells pairs := by
    rw [hids₄, hids₃, List.replay_arrange, target_eq h]
    refine List.arrange_eq [] (h.nodup_refs _) hperm fun _ ↦ ?_
    rw [hcreated.head, List.head?_eq_getElem?, getElem?_refs, if_pos (by simp [Buffer.cells]),
      ref_of_some h.preamble]
  have hrun : executeAll (d.cells.map DocCell.kept) (reconcile b.cells d.cells pairs) =
      some cells₄ := by
    show executeAll _ (deletes d.cells (pairs.filterMap fun x ↦ x) ++
      (b.cells.zipIdx.filterMap fun p ↦ (behind d pairs p.2).bind fun s ↦ update p.1 s) ++
      (creates b.cells pairs (firstOrder d.cells (pairs.filterMap fun x ↦ x))).2 ++
      ((creates b.cells pairs (firstOrder d.cells (pairs.filterMap fun x ↦ x))).1.arrange 0
        (target b.cells pairs)).2.map fun m ↦ .move m.1 m.2) = _
    rw [hcreates, executeAll_append, executeAll_append, executeAll_append]
    simp only [hrun₁, Option.bind_some, hrun₂, hrun₃, hrun₄]
  refine ⟨cells₄, hrun, horder, fun i l c hl hc ↦ ?_⟩
  have hi := (List.getElem?_eq_some_iff.1 hl).1
  have hid : c.cellId = ref pairs i := by
    have hget : (cells₄.map KeptCell.cellId)[i]? = some c.cellId := by
      rw [List.getElem?_map, hc, Option.map_some]
    rw [horder, getElem?_refs, if_pos hi] at hget
    exact (Option.some.inj hget).symm
  obtain ⟨c₃, hc₃, hid₃, hsynced⟩ := hright₃ i ((hcreated.there i hi).2 (.inr hi)) l hl
  obtain ⟨version, hc₄⟩ := hkeep₄ c₃ hc₃
  have heq := eq_of_cellId (horder ▸ h.nodup_refs _) (List.mem_of_getElem? hc) hc₄
    (hid.trans hid₃.symm)
  exact heq ▸ hsynced.of_version version

end

/-! ### A document as the buffer has it -/

theorem update_self (hl : l.metadata.Sound) (hs : s.metadata.Sound)
    (h : l.Same s) : update l s = none := by
  cases hpre : l.isPreamble with
  | true => simp [update, h.source, hpre]
  | false =>
    obtain ⟨htype, hmeta⟩ := h.other hpre
    simp [update, h.source, htype, Metadata.sameMetadata_eq hl hs, hmeta]

/-- **No request where the document is as the buffer has it.** -/
theorem reconcile_self {stringify : JsonValue → String} (hsame : b.Same d)
    (hapart : Apart stringify b d) :
    reconcile b.cells d.cells (CellMatcher.match_ stringify d.cells b.cells) = [] := by
  have h := d.match_pairs b stringify
  have hmatch := Document.match_self hsame hapart
  generalize CellMatcher.match_ stringify d.cells b.cells = pairs at h hmatch
  have hpair : ∀ (i : ℕ) (s : DocCell), d.cells[i]? = some s → (pairs[i]?).join = some s.cellId := by
    intro i s hs
    rw [hmatch, List.getElem?_map, hs]
    rfl
  have hmatched : ∀ s ∈ d.cells, (pairs.filterMap fun x ↦ x).contains s.cellId = true := by
    intro s hs
    obtain ⟨i, hi⟩ := List.mem_iff_getElem?.1 hs
    exact contains_matched.2 ⟨i, hpair i s hi⟩
  have hdeletes : deletes d.cells (pairs.filterMap fun x ↦ x) = [] := by
    refine List.filterMap_eq_nil_iff.2 fun s hs ↦ ?_
    rw [hmatched s hs]
    rfl
  have hupdates : updates b.cells d.cells pairs = [] := by
    refine List.filterMap_eq_nil_iff.2 fun p hp ↦ ?_
    have hl := List.mem_zipIdx_iff_getElem?.1 hp
    obtain ⟨s, hs, hls⟩ := hsame.get hl
    have hmem := List.mem_of_getElem? hs
    rw [hpair _ s hs, Option.bind_some, byId_eq d hmem, Option.bind_some]
    exact update_self (b.metadata _ (List.mem_of_getElem? hl)) (d.metadata s hmem) hls
  have hcreates : ∀ order, creates b.cells pairs order = (order, []) := by
    intro order
    refine foldl_zipIdx (P := fun _ state ↦ state = (order, [])) rfl fun k l state hl hstate ↦ ?_
    obtain ⟨s, hs, -⟩ := hsame.get hl
    rw [createOne, if_pos (by rw [hpair k s hs]; rfl), hstate]
  have horder : firstOrder d.cells (pairs.filterMap fun x ↦ x) = refs b.cells pairs := by
    rw [firstOrder_eq d.sorted, List.filter_eq_self.2 fun s hs ↦ by
      rw [hmatched s hs, Bool.true_or]]
    refine List.ext_getElem? fun i ↦ ?_
    rw [List.getElem?_map, getElem?_refs, List.Forall₂.length_eq hsame]
    split
    case isTrue hi =>
      rw [List.getElem?_eq_getElem hi, Option.map_some,
        ref_of_some (hpair i _ (List.getElem?_eq_getElem hi))]
    case isFalse hi => rw [List.getElem?_eq_none (not_lt.1 hi), Option.map_none]
  show deletes d.cells (pairs.filterMap fun x ↦ x) ++ updates b.cells d.cells pairs ++
    (creates b.cells pairs (firstOrder d.cells (pairs.filterMap fun x ↦ x))).2 ++
    ((creates b.cells pairs (firstOrder d.cells (pairs.filterMap fun x ↦ x))).1.arrange 0
      (target b.cells pairs)).2.map (fun m ↦ SyncOp.move m.1 m.2) = []
  rw [hdeletes, hupdates, hcreates, horder, target_eq h]
  exact congrArg (List.map _) (List.arrange_self [] (refs b.cells pairs))

end Stages

/-- **What syncing does**, for a document of the manager's and a buffer as it is parsed: the matcher
pairs no cell twice and the preamble with the preamble; every request finds the cells it names, and
what is there in the end is the buffer, cell by cell, but for titles and the preamble's own data;
and nothing is requested where the document is as the buffer has it. -/
theorem sync_outcome (stringify : JsonValue → String) (d : Document) (b : Buffer) :
    Pairs d b (CellMatcher.match_ stringify d.cells b.cells) ∧
    (∃ cells, executeAll (d.cells.map DocCell.kept)
        (reconcile b.cells d.cells (CellMatcher.match_ stringify d.cells b.cells)) = some cells ∧
      cells.length = b.cells.length ∧ ∀ i l c, b.cells[i]? = some l → cells[i]? = some c →
        Synced (behind d (CellMatcher.match_ stringify d.cells b.cells) i) l c) ∧
    (b.Same d → Apart stringify b d →
      reconcile b.cells d.cells (CellMatcher.match_ stringify d.cells b.cells) = []) := by
  have h := d.match_pairs b stringify
  obtain ⟨cells, hrun, hids, hsynced⟩ := reconcile_spec h
  refine ⟨h, ⟨cells, hrun, ?_, hsynced⟩, reconcile_self⟩
  have hlen := congrArg List.length hids
  simpa [refs] using hlen

/-! ### What is not synchronised -/

/-- A cell of a document. -/
def docCell (cellId : String) (index : ℕ) (title : Option String) (metadata : Metadata)
    (source : String) : DocCell :=
  ⟨cellId, index, "python", title, metadata, source, source, 1⟩

/-- A cell of a buffer. -/
def bufferCell (index : ℕ) (title : Option String) (metadata : Metadata) (source : String) :
    NotebookCell :=
  ⟨index, "python", title, metadata, source, source⟩

/-- The requests for two lists. -/
def sync (server : List DocCell) (local_ : List NotebookCell) : List SyncOp :=
  reconcile local_ server (CellMatcher.match_ (fun _ ↦ "") server local_)

/-- The requests leave exactly the buffer, titles included. -/
def Exact (server : List DocCell) (local_ : List NotebookCell) : Prop :=
  ∃ cells, executeAll (server.map DocCell.kept) (sync server local_) = some cells ∧
    List.Forall₂ (fun l c ↦ c.source = l.source ∧ c.type = l.type ∧ c.title = l.title ∧
      l.metadata.same c.metadata = true) local_ cells

theorem not_exact_of_nil {local_ : List NotebookCell} (hnil : sync server local_ = [])
    (hne : ¬ List.Forall₂ (fun l c ↦ c.source = l.source ∧ c.type = l.type ∧ c.title = l.title ∧
      l.metadata.same c.metadata = true) local_ (server.map DocCell.kept)) :
    ¬ Exact server local_ := by
  rintro ⟨cells, hrun, hall⟩
  rw [hnil] at hrun
  exact hne (Option.some.inj hrun ▸ hall)

/-- A changed title stays as it was, so does the metadata of the preamble, a document without a
preamble gets none, numbers beyond what a `Long` holds count as equal, and a request is made for a
document as the buffer has it where an `@id` names another cell. -/
theorem not_exact_title :
    ¬ Exact [docCell "p" 0 none [] "", docCell "c" 1 (some "old") [] "x"]
        [bufferCell 0 none [] "", bufferCell 1 (some "new") [] "x"] ∧
      ¬ Exact [docCell "p" 0 none [("a", .null)] ""] [bufferCell 0 none [] ""] ∧
      ¬ Exact [] [bufferCell 0 none [] ""] ∧
      ¬ Exact [docCell "p" 0 none [] "", docCell "c" 1 none [("n", .double (.whole (2 ^ 63)))] "x"]
        [bufferCell 0 none [] "", bufferCell 1 none [("n", .double (.whole (2 ^ 64)))] "x"] ∧
      sync [docCell "p" 0 none [] "", docCell "y" 1 none [] "x",
          docCell "z" 2 none [("id", .str "y")] "w"]
        [bufferCell 0 none [] "", bufferCell 1 none [] "x",
          bufferCell 2 none [("id", .str "y")] "w"] ≠ [] := by
  refine ⟨not_exact_of_nil ?_ ?_, not_exact_of_nil ?_ ?_, not_exact_of_nil ?_ ?_,
    not_exact_of_nil ?_ ?_, fun hnil ↦ ?_⟩
  · simp only [sync, reconcile]
    rw [firstOrder_eq (by decide)]
    rfl
  · simp [docCell, bufferCell, DocCell.kept]
  · simp only [sync, reconcile]
    rw [firstOrder_eq (by decide)]
    rfl
  · rintro (_ | ⟨⟨-, -, -, hsame⟩, -⟩)
    exact Bool.false_ne_true hsame
  · simp only [sync, reconcile]
    rw [firstOrder_eq (by decide)]
    rfl
  · simp
  · simp only [sync, reconcile]
    rw [firstOrder_eq (by decide)]
    rfl
  · rintro (_ | ⟨-, _ | ⟨⟨-, -, -, hsame⟩, -⟩⟩)
    exact Bool.false_ne_true hsame
  · simp only [sync, reconcile, List.append_eq_nil_iff] at hnil
    exact List.cons_ne_nil _ _ hnil.1.1.1

/-- A document of two cells. -/
def twoCells : Document where
  preamble := docCell "p" 0 none [] ""
  rest := [docCell "c" 1 none [] "x"]
  index i s h := by
    match i with
    | 0 => exact Option.some.inj h ▸ rfl
    | 1 => exact Option.some.inj h ▸ rfl
    | _ + 2 => cases h
  ids := by decide
  fresh s hs n h := by
    have hlen := congrArg String.length h
    have hnew : "new:".length = 4 := by decide
    rcases List.mem_cons.1 hs with rfl | hs
    · have hp : "p".length = 1 := by decide
      simp only [docCell, newRef, String.length_append] at hlen
      omega
    · have hc : "c".length = 1 := by decide
      rw [List.mem_singleton.1 hs] at hlen
      simp only [docCell, newRef, String.length_append] at hlen
      omega
  metadata s hs := by
    rcases List.mem_cons.1 hs with rfl | hs
    · exact ⟨List.nodup_nil, by simp [docCell], by simp [docCell]⟩
    · rw [List.mem_singleton.1 hs]
      exact ⟨List.nodup_nil, by simp [docCell], by simp [docCell]⟩

/-- The buffer it is read from. -/
def twoBufferCells : Buffer where
  preamble := bufferCell 0 none [] ""
  rest := [bufferCell 1 none [] "x"]
  index i s h := by
    match i with
    | 0 => exact Option.some.inj h ▸ rfl
    | 1 => exact Option.some.inj h ▸ rfl
    | _ + 2 => cases h
  metadata l hl := by
    rcases List.mem_cons.1 hl with rfl | hl
    · exact ⟨List.nodup_nil, by simp [bufferCell], by simp [bufferCell]⟩
    · rw [List.mem_singleton.1 hl]
      exact ⟨List.nodup_nil, by simp [bufferCell], by simp [bufferCell]⟩

theorem sync_outcome_two_cells :
    sync twoCells.cells twoBufferCells.cells = [] := by
  refine (sync_outcome (fun _ ↦ "") twoCells twoBufferCells).2.2 ?_ ?_
  · refine .cons ⟨rfl, rfl, fun h ↦ by cases h⟩ (.cons ⟨rfl, rfl, fun _ ↦ ⟨rfl, rfl⟩⟩ .nil)
  · intro i j l s id _ hl _ hid
    have hmeta : l.metadata = [] := by
      rcases List.mem_cons.1 (List.mem_of_getElem? hl) with rfl | hl
      · rfl
      · rw [List.mem_singleton.1 hl]
        rfl
    rw [NotebookCell.id, hmeta] at hid
    cases hid

end Ember.Intellij
