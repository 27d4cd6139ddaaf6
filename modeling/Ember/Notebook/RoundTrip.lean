import Ember.Notebook.Chunks
import Ember.Notebook.Bodies

/-!
# A notebook through the editor

Opening a notebook and saving it unedited writes the same text exactly when every cell body has even
line ends and no marker has the type `preamble`. A body with uneven line ends is rewritten, and a
cell with that type loses its marker or gets another: the type is the one that the editor gives to
the text before the first marker.

## What is proved

* `roundTrips_iff` — the three round trips: the parser's without condition, a text's and a body's
  with the exact conditions.

A rewritten body comes apart from the old one, so nothing behind it can repair the difference. A
changed marker is found by comparing the lines: everything the editor writes behind the first cell
begins with a marker whose type is not `preamble` (`Opens`), and the line of the text at that place
is none.
-/

namespace Ember.Notebook

open Endings

variable {parseJson : JsonParse}

/-! ### Generated markers -/

theorem matchTitle_spec {t title : Text} {type : Option Text} (h : matchTitle t = some (title, type)) :
    '[' ∉ title ∧ '\n' ∉ title := by
  induction t generalizing title type with
  | nil =>
    obtain ⟨_, -, heq⟩ := Option.map_eq_some_iff.1 h
    obtain ⟨rfl, -⟩ := Prod.mk.inj heq
    exact ⟨List.not_mem_nil, List.not_mem_nil⟩
  | cons c cs ih =>
    rw [matchTitle] at h
    split at h
    · obtain ⟨rfl, -⟩ := Prod.mk.inj (Option.some.inj h)
      exact ⟨List.not_mem_nil, List.not_mem_nil⟩
    · split at h
      · cases h
      · next hc =>
        obtain ⟨⟨rest, type'⟩, hrest, heq⟩ := Option.map_eq_some_iff.1 h
        obtain ⟨rfl, -⟩ := Prod.mk.inj heq
        obtain ⟨hbracket, hlf⟩ := ih hrest
        refine ⟨fun hmem ↦ ?_, fun hmem ↦ ?_⟩
        · exact (List.mem_cons.1 hmem).elim (fun he ↦ hc (.inl he.symm)) hbracket
        · exact (List.mem_cons.1 hmem).elim (fun he ↦ hc (.inr he.symm)) hlf

/-- A title has no bracket and no line end. -/
def PlainTitle (title : Option Text) : Prop := ∀ t, title = some t → '[' ∉ t ∧ '\n' ∉ t

theorem plainTitle_of_matchMarker {line : Text} {m : Marker} (h : matchMarker line = some m) :
    PlainTitle m.title := by
  intro t ht
  unfold matchMarker at h
  split at h
  case h_2 => cases h
  split at h
  · obtain rfl := Option.some.inj h
    cases ht
  · split at h
    · obtain ⟨⟨title, type⟩, hmatch, rfl⟩ := Option.map_eq_some_iff.1 h
      obtain rfl := Option.some.inj ht
      exact matchTitle_spec hmatch
    · obtain ⟨type, -, rfl⟩ := Option.map_eq_some_iff.1 h
      cases ht

/-- How a generated marker ends. -/
def codeTail : Text := " [code]".toList

variable {x : Text}

theorem eq_of_matchTail (hx : '[' ∉ x) {type : Option Text}
    (h : matchTail (x ++ codeTail) = some type) : type = some code := by
  unfold matchTail at h
  rw [List.dropWhile_append] at h
  cases hd : x.dropWhile isBlank with
  | nil =>
    rw [hd, List.isEmpty_nil, if_pos rfl] at h
    exact (Option.some.inj h).symm
  | cons d x' =>
    have hmem : d ∈ x := (List.dropWhile_suffix isBlank).subset (hd ▸ List.mem_cons_self)
    rw [hd, List.isEmpty_cons, if_neg Bool.false_ne_true] at h
    split at h
    · next heq => cases heq
    · next heq =>
      obtain ⟨rfl, -⟩ := List.cons.inj heq
      exact absurd hmem hx
    · cases h

theorem matchTitle_append (hx : '[' ∉ x) (hlf : '\n' ∉ x) :
    ∃ title, matchTitle (x ++ codeTail) = some (title, some code) := by
  induction x with
  | nil => exact ⟨[], rfl⟩
  | cons c x ih =>
    rw [List.cons_append, matchTitle]
    cases htail : matchTail (c :: (x ++ codeTail)) with
    | some type => exact ⟨[], by rw [eq_of_matchTail hx htail]⟩
    | none =>
      obtain ⟨title, htitle⟩ := ih (fun h ↦ hx (List.mem_cons_of_mem _ h))
        fun h ↦ hlf (List.mem_cons_of_mem _ h)
      have hc : ¬ (c = '[' ∨ c = '\n') := by
        rintro (rfl | rfl)
        · exact hx List.mem_cons_self
        · exact hlf List.mem_cons_self
      exact ⟨c :: title, by rw [if_neg hc, htitle]; rfl⟩

/-- What a generated marker of a code cell looks like. -/
theorem formatMarker_code (title : Option Text) : ∃ x, formatMarker title (some code) =
    "# %%".toList ++ x ++ codeTail ∧ (x = [] ∨ ∃ t, title = some t ∧ x = ' ' :: t) := by
  cases title with
  | none => exact ⟨[], rfl, .inl rfl⟩
  | some t =>
    cases t with
    | nil => exact ⟨[], rfl, .inl rfl⟩
    | cons c t =>
      refine ⟨' ' :: c :: t, ?_, .inr ⟨_, rfl, rfl⟩⟩
      show ("# %% ".toList ++ c :: t) ++ " [".toList ++ code ++ "]".toList = _
      rw [List.append_assoc, List.append_assoc]
      rfl

variable {title : Option Text}

/-- A generated marker is a marker of a code cell. -/
theorem matchMarker_formatMarker (h : PlainTitle title) :
    ∃ m, matchMarker (formatMarker title (some code)) = some m ∧ m.type = some code := by
  obtain ⟨x, hx, rfl | ⟨t, ht, rfl⟩⟩ := formatMarker_code title
  · rw [hx]
    exact ⟨⟨some [], some code⟩, by decide +kernel, rfl⟩
  · obtain ⟨hbracket, hlf⟩ := h t ht
    rw [hx]
    show ∃ m, (matchTitle ((' ' :: t ++ codeTail).dropWhile isBlank)).map
      (fun p ↦ Marker.mk (some p.1) p.2) = some m ∧ _
    have hdrop : ∃ y, '[' ∉ y ∧ '\n' ∉ y ∧
        ((' ' :: t ++ codeTail).dropWhile isBlank = y ++ codeTail ∨
          (' ' :: t ++ codeTail).dropWhile isBlank = codeTail.dropWhile isBlank) := by
      rw [List.dropWhile_append]
      split
      · exact ⟨[], List.not_mem_nil, List.not_mem_nil, .inr rfl⟩
      · have hsub : ∀ c ∈ (' ' :: t).dropWhile isBlank, c ∈ ' ' :: t := fun c hc ↦
          (List.dropWhile_suffix isBlank).subset hc
        refine ⟨_, fun hmem ↦ ?_, fun hmem ↦ ?_, .inl rfl⟩
        · exact (List.mem_cons.1 (hsub _ hmem)).elim (by decide) hbracket
        · exact (List.mem_cons.1 (hsub _ hmem)).elim (by decide) hlf
    obtain ⟨y, hy, hylf, heq | heq⟩ := hdrop
    · obtain ⟨title', hmatch⟩ := matchTitle_append hy hylf
      rw [heq, hmatch]
      exact ⟨_, rfl, rfl⟩
    · rw [heq]
      exact ⟨⟨some [], some code⟩, by decide +kernel, rfl⟩

theorem content_append_lf {c : Char} (hc : c ≠ '\r') :
    content (x ++ [c] ++ ['\n']) = x ++ [c] := by
  have hcrlf : ¬ ['\r', '\n'] <:+ x ++ [c] ++ ['\n'] := by
    rintro ⟨y, hy⟩
    have hy' : (y ++ ['\r']) ++ ['\n'] = (x ++ [c]) ++ ['\n'] := by simpa using hy
    have := (List.append_inj' (List.append_inj' hy' rfl).1 rfl).2
    exact hc (List.cons.inj this).1.symm
  rw [content, if_neg hcrlf, if_pos (List.suffix_append _ _), List.dropLast_concat]

/-- A text is nothing, or its first line is a marker of another type than `preamble`. -/
def Opens (t : Text) : Prop :=
  t = [] ∨ ∃ l m, (keepLines '\n' t).head? = some l ∧ matchMarker (content l) = some m ∧
    canonicalType m.type ≠ preamble

theorem opens_of_terminated {l : Text} {m : Marker} (hl : Terminated '\n' l)
    (hm : matchMarker (content l) = some m) (htype : canonicalType m.type ≠ preamble) (t : Text) :
    Opens (l ++ t) :=
  .inr ⟨l, m, by rw [keepLines_append_of_terminated hl, List.head?_cons], hm, htype⟩

/-- A generated header opens a cell that is no preamble. -/
theorem opens_formatHeader (h : PlainTitle title) (metadata : Metadata)
    (t : Text) : Opens (formatHeader parseJson title (some code) metadata ++ t) := by
  obtain ⟨m, hmatch, hcode⟩ := matchMarker_formatMarker h
  obtain ⟨x, hx, htitle⟩ := formatMarker_code title
  have hlf : '\n' ∉ formatMarker title (some code) := by
    rw [hx]
    simp only [List.mem_append, not_or]
    refine ⟨⟨by decide, ?_⟩, by decide⟩
    rcases htitle with rfl | ⟨t, ht, rfl⟩
    · exact List.not_mem_nil
    · exact fun hmem ↦ (List.mem_cons.1 hmem).elim (by decide) (h t ht).2
  have hcontent : content (formatMarker title (some code) ++ ['\n']) =
      formatMarker title (some code) := by
    have hlast : formatMarker title (some code) = ("# %%".toList ++ x ++ " [code".toList) ++ [']'] := by
      have htail : codeTail = " [code".toList ++ [']'] := rfl
      rw [hx, htail, List.append_assoc, List.append_assoc, List.append_assoc]
    rw [hlast]
    exact content_append_lf (by decide)
  have hheader : ∃ rest, formatHeader parseJson title (some code) metadata =
      (formatMarker title (some code) ++ ['\n']) ++ rest := by
    unfold formatHeader
    cases metadata with
    | nil => exact ⟨[], by simp⟩
    | cons p metadata =>
      simp only [List.map_cons, List.intercalate_cons_cons]
      exact ⟨_, List.append_assoc ..⟩
  obtain ⟨rest, hrest⟩ := hheader
  rw [hrest, List.append_assoc]
  refine opens_of_terminated ⟨_, hlf, rfl⟩ (hcontent.symm ▸ hmatch) ?_ _
  rw [hcode]
  decide

/-! ### Cells through the editor -/

section Cell

variable {chunk : Chunk} {m : Marker} {line : Text} {more body : List Text}

/-- What a view remembers of its cell. -/
theorem cellMeta_bodyToView (type source : Text) (rest : Rest) :
    ∃ cellMeta, (bodyToView type source rest).cellMeta = some cellMeta ∧ cellMeta.type = type ∧
      cellMeta.rawType = (rest.rawType.orElse fun _ ↦ if type = preamble then none else some type) ∧
        cellMeta.title = rest.title ∧ cellMeta.header = rest.header := by
  unfold bodyToView
  dsimp only
  split
  · exact ⟨_, rfl, rfl, rfl, rfl, rfl⟩
  · exact ⟨_, rfl, rfl, rfl, rfl, rfl⟩

theorem effectiveType_cellToView (cell : Cell) (position : ℕ) :
    effectiveType (cellToView cell) position =
      if cell.type = preamble ∧ position ≠ 0 then code else cell.type :=
  effectiveType_bodyToView _ _ _ _

/-- A cell that is no preamble keeps its header. -/
theorem Chunk.Has.writtenHeader (h : chunk.Has m line more body)
    (htype : canonicalType m.type ≠ preamble) (i index position : ℕ) (isLast : Bool) :
    (viewToCell index isLast (cellToView (chunk.cell i)) position).writtenHeader parseJson =
      chunk.header := by
  obtain ⟨-, hcell, hraw, -, hheader⟩ := h.cell i
  obtain ⟨cellMeta, hsome, hmtype, hmraw, -, hmheader⟩ := cellMeta_bodyToView (chunk.cell i).type
    (chunk.cell i).source ⟨(chunk.cell i).rawType, (chunk.cell i).title, (chunk.cell i).metadata,
      (chunk.cell i).header⟩
  have heff : effectiveType (cellToView (chunk.cell i)) position = canonicalType m.type := by
    rw [effectiveType_cellToView, hcell, if_neg fun hp ↦ htype hp.1]
  have hcanon : canonicalType cellMeta.rawType = canonicalType m.type := by
    rw [hmraw, hraw, hcell, if_neg htype]
    cases m.type with
    | none =>
      show canonicalType (some (canonicalType none)) = canonicalType none
      decide
    | some raw => rfl
  have hfor : (headerFor (cellToView (chunk.cell i)) position).1 = chunk.header := by
    simp only [headerFor, heff]
    rw [show (cellToView (chunk.cell i)).cellMeta = some cellMeta from hsome]
    simp only [if_neg htype, hcanon, hmtype, hcell]
    rw [if_pos ⟨trivial, htype⟩, hmheader, hheader]
  have hne : (viewToCell index isLast (cellToView (chunk.cell i)) position).header ≠ [] := by
    show (headerFor _ _).1 ≠ []
    rw [hfor]
    exact h.header_ne_nil
  rw [Cell.writtenHeader, if_neg fun hc ↦ hne hc.1]
  exact hfor

/-- A preamble that is not the first cell gets a generated header. -/
theorem Chunk.Has.writtenHeader_preamble (parseJson : JsonParse) (h : chunk.Has m line more body)
    (htype : canonicalType m.type = preamble) (i : ℕ) {index position : ℕ} (isLast : Bool)
    (hindex : index ≠ 0) (hposition : position ≠ 0) : ∃ metadata,
      (viewToCell index isLast (cellToView (chunk.cell i)) position).writtenHeader parseJson =
        formatHeader parseJson (chunk.cell i).title (some code) metadata := by
  obtain ⟨-, hcell, -, -, -⟩ := h.cell i
  obtain ⟨cellMeta, hsome, hmtype, -, hmtitle, -⟩ := cellMeta_bodyToView (chunk.cell i).type
    (chunk.cell i).source ⟨(chunk.cell i).rawType, (chunk.cell i).title, (chunk.cell i).metadata,
      (chunk.cell i).header⟩
  have hsome' : (cellToView (chunk.cell i)).cellMeta = some cellMeta := hsome
  have hcp : code ≠ preamble := by decide
  have heff : effectiveType (cellToView (chunk.cell i)) position = code := by
    rw [effectiveType_cellToView, hcell, if_pos ⟨htype, hposition⟩]
  have hfor : headerFor (cellToView (chunk.cell i)) position = ([], some code) := by
    simp only [headerFor, heff, hsome', if_neg hcp]
    rw [if_neg fun hk ↦ hk.2 (hmtype.trans (hcell.trans htype))]
  have htitle : (viewToCell index isLast (cellToView (chunk.cell i)) position).title =
      (chunk.cell i).title := by
    show (cellToView (chunk.cell i)).cellMeta.bind DpxCellMeta.title = _
    rw [hsome', Option.bind_some, hmtitle]
  have hraw : (viewToCell index isLast (cellToView (chunk.cell i)) position).rawType = some code :=
    congrArg Prod.snd hfor
  refine ⟨(viewToCell index isLast (cellToView (chunk.cell i)) position).metadata, ?_⟩
  rw [Cell.writtenHeader, if_pos, htitle, hraw, Option.getD_some]
  exact ⟨congrArg Prod.fst hfor, hindex, fun hp ↦ hcp (heff.symm.trans hp)⟩

/-- The preamble is written without a header. -/
theorem writtenHeader_first (parseJson : JsonParse) {cell : Cell} (htype : cell.type = preamble) (index : ℕ)
    (isLast : Bool) :
    (viewToCell index isLast (cellToView cell) 0).writtenHeader parseJson = [] := by
  obtain ⟨cellMeta, hsome, -⟩ := cellMeta_bodyToView cell.type cell.source
    ⟨cell.rawType, cell.title, cell.metadata, cell.header⟩
  have hsome' : (cellToView cell).cellMeta = some cellMeta := hsome
  have heff : effectiveType (cellToView cell) 0 = preamble := by
    rw [effectiveType_cellToView, if_neg fun hp ↦ hp.2 rfl, htype]
  rw [Cell.writtenHeader, if_neg fun hc ↦ hc.2.2 heff]
  simp only [viewToCell, headerFor, heff, hsome', if_true]

/-- What is saved of a cell's body. -/
theorem source_viewToCell (cell : Cell) (index position : ℕ) (isLast : Bool) :
    (viewToCell index isLast (cellToView cell) position).source =
      viewToSource (bodyToView cell.type cell.source
        ⟨cell.rawType, cell.title, cell.metadata, cell.header⟩) position isLast := rfl

end Cell

/-- A cell that the editor writes as it was: it has even line ends, and only the first cell is the
preamble. -/
def Cell.Keeps (cell : Cell) : Prop :=
  (cell.type = preamble → cell.index = 0) ∧ EvenEnds cell.type cell.source

/-- The views of chunks, numbered from `i`. -/
def viewsOf (i : ℕ) (chunks : List Chunk) : List ViewCell :=
  ((cellsOf i chunks).filter Cell.shown).map cellToView

/-- The format cells of editor cells: these begin at the position `k` among `n`, and `first` cells
were put before all. -/
def editorCells (first n k : ℕ) (views : List ViewCell) : List Cell :=
  (views.zipIdx k).map fun p ↦ viewToCell (first + p.2) (p.2 == n - 1) p.1 p.2

theorem editorCells_cons (first n k : ℕ) (view : ViewCell) (views : List ViewCell) :
    editorCells first n k (view :: views) =
      viewToCell (first + k) (k == n - 1) view k :: editorCells first n (k + 1) views := by
  simp [editorCells, List.zipIdx_cons]

theorem viewsOf_cons (i : ℕ) (chunk : Chunk) (chunks : List Chunk) :
    viewsOf i (chunk :: chunks) = if (chunk.cell i).shown then
      cellToView (chunk.cell i) :: viewsOf (i + 1) chunks else viewsOf (i + 1) chunks := by
  simp only [viewsOf, cellsOf_cons, List.filter_cons]
  split <;> rfl

/-! ### The cells behind the first -/

theorem evenEnds_nil (type : Text) : EvenEnds type [] := by
  unfold EvenEnds
  cases hun : unwrapped type (splitTrailer []).1 with
  | none =>
    simp only [hun]
    exact .inl (by simp [splitTrailer])
  | some un =>
    have hnone : unwrapMarkdown [] = some un := unwrapMarkdown_of_unwrapped hun
    cases hnone

theorem Chunk.Has.plainTitle {chunk : Chunk} {m : Marker} {line : Text} {more body : List Text}
    (h : chunk.Has m line more body) (i : ℕ) : PlainTitle (chunk.cell i).title := by
  intro t ht
  have htitle : (chunk.cell i).title = m.title.filter (· ≠ []) := by
    simp [Chunk.cell, h.marker]
  rw [htitle] at ht
  exact plainTitle_of_matchMarker h.opens t (Option.eq_some_of_filter_eq_some ht)

theorem hasPreamble_cons (cell : Cell) (views : List ViewCell) :
    hasPreamble (cellToView cell :: views) = decide (cell.type = preamble) := by
  simp only [hasPreamble]
  rw [effectiveType_cellToView, if_neg fun hp ↦ hp.2 rfl]

variable {chunks : List Chunk} {ls : List Text} {w : Written} {first n k : ℕ}

/-- **What the editor writes behind the first cell begins with a marker**, and not with one of a
preamble. -/
theorem Cut.opens (parseJson : JsonParse) (h : Cut chunks ls) (hb : Broken '\n' ls) (hw : w.Sound)
    (hclosed : chunks ≠ [] → Closed '\n' w.out) (i : ℕ) (hindex : first + k ≠ 0)
    (hk : k ≠ 0 ∨ hasPreamble (viewsOf i chunks) = false) :
    ∃ t, ((editorCells first n k (viewsOf i chunks)).foldl (serializeCell parseJson) w).out =
      w.out ++ t ∧ Opens t := by
  induction h generalizing i with
  | nil => exact ⟨[], (List.append_nil _).symm, .inl rfl⟩
  | @cons chunk m line more body chunks ls hhas hcut ih =>
    rw [viewsOf_cons] at hk ⊢
    by_cases hshown : (chunk.cell i).shown = true
    case neg =>
      rw [if_neg hshown] at hk ⊢
      exact ih hb.right (fun _ ↦ hclosed (List.cons_ne_nil _ _)) (i + 1) hk
    rw [if_pos hshown] at hk ⊢
    rw [editorCells_cons, List.foldl_cons]
    obtain ⟨-, hcell, -, hsource, -⟩ := hhas.cell i
    have hout := out_serializeCell parseJson hw
      (viewToCell (first + k) (k == n - 1) (cellToView (chunk.cell i)) k)
      fun _ ↦ hclosed (List.cons_ne_nil _ _)
    obtain ⟨rest, hrest⟩ := prefix_foldl parseJson
      (editorCells first n (k + 1) (viewsOf (i + 1) chunks))
      (serializeCell parseJson w (viewToCell (first + k) (k == n - 1) (cellToView (chunk.cell i)) k))
    rw [← hrest, hout, List.append_assoc, List.append_assoc]
    refine ⟨_, rfl, ?_⟩
    by_cases htype : canonicalType m.type = preamble
    · have hpos : k ≠ 0 := hk.resolve_right (by simp [hasPreamble_cons, hcell, htype])
      obtain ⟨metadata, hheader⟩ := hhas.writtenHeader_preamble parseJson htype i
        (k == n - 1) hindex hpos
      rw [hheader]
      exact opens_formatHeader (hhas.plainTitle i) _ _
    · rw [hhas.writtenHeader htype, hhas.header, List.append_assoc]
      rcases hb.1 with hterm | ⟨-, hlf, hnil⟩
      · exact opens_of_terminated hterm hhas.opens htype _
      · obtain ⟨hlines, rfl⟩ := List.append_eq_nil_iff.1 hnil
        obtain ⟨rfl, rfl⟩ := List.append_eq_nil_iff.1 hlines
        cases hcut
        have hnone : (viewToCell (first + k) (k == n - 1) (cellToView (chunk.cell i)) k).source = [] := by
          rw [source_viewToCell, hsource, hhas.source]
          exact viewToSource_of_evenEnds _ _ _ (evenEnds_nil _)
        have hend : rest = [] := by
          have : (serializeCell parseJson w
              (viewToCell (first + k) (k == n - 1) (cellToView (chunk.cell i)) k)).out ++ rest =
                (serializeCell parseJson w
                  (viewToCell (first + k) (k == n - 1) (cellToView (chunk.cell i)) k)).out := hrest
          simpa using this
        rw [hnone, hend]
        refine .inr ⟨line, m, ?_, hhas.opens, htype⟩
        simp [keepLines_of_not_mem hhas.line_ne_nil hlf]

/-- A line that opens a cell of another type than `preamble`. -/
def OpensOther (l : Text) : Prop :=
  ∃ m, matchMarker (content l) = some m ∧ canonicalType m.type ≠ preamble

/-- The lines of a preamble's chunk open no other cell. -/
theorem Chunk.Has.not_opensOther {chunk : Chunk} {m : Marker} {line : Text} {more body : List Text}
    (h : chunk.Has m line more body) (htype : canonicalType m.type = preamble) :
    ∀ l ∈ line :: (more ++ body), ¬ OpensOther l := by
  rintro l hl ⟨m', hm', hne⟩
  rcases List.mem_cons.1 hl with rfl | hl
  · obtain rfl := Option.some.inj (h.opens.symm.trans hm')
    exact hne htype
  · cases (h.noMore.append h.noBody l hl).symm.trans hm'

/-- What begins with the lines of a preamble's chunk opens no other cell. -/
theorem Chunk.Has.not_opens {chunk : Chunk} {m : Marker} {line : Text} {more body : List Text}
    (h : chunk.Has m line more body) (htype : canonicalType m.type = preamble)
    (hb : Broken '\n' (line :: (more ++ body) ++ ls)) :
    ¬ Opens (line :: (more ++ body) ++ ls).flatten := by
  have hlines : keepLines '\n' (line :: (more ++ body) ++ ls).flatten =
      line :: (more ++ body) ++ ls := hb.keepLines_flatten
  rintro (hnil | ⟨l, m', hl, hm', hne⟩)
  · exact h.line_ne_nil (List.append_eq_nil_iff.1 hnil).1
  · rw [hlines] at hl
    obtain rfl : line = l := Option.some.inj hl
    exact h.not_opensOther htype line List.mem_cons_self ⟨m', hm', hne⟩

variable {i : ℕ}

/-- **The cells behind the first come back as they were** exactly when they are kept: there is no
preamble among them, and their line ends are even. -/
theorem Cut.roundTrips (parseJson : JsonParse) (h : Cut chunks ls) (hb : Broken '\n' ls) (hw : w.Sound)
    (hclosed : chunks ≠ [] → Closed '\n' w.out) (hi : i ≠ 0) (hindex : first + k ≠ 0)
    (hk : k ≠ 0 ∨ hasPreamble (viewsOf i chunks) = false) :
    ((editorCells first n k (viewsOf i chunks)).foldl (serializeCell parseJson) w).out =
      w.out ++ ls.flatten ↔ ∀ cell ∈ cellsOf i chunks, cell.Keeps := by
  induction h generalizing i k w with
  | nil => simp [viewsOf, cellsOf, editorCells]
  | @cons chunk m line more body chunks ls hhas hcut ih =>
    obtain ⟨hcindex, hcell, -, hsource, -⟩ := hhas.cell i
    rw [cellsOf_cons, List.forall_mem_cons]
    by_cases htype : canonicalType m.type = preamble
    · have hnot : ¬ (chunk.cell i).Keeps := fun hkeeps ↦
        hi (hcindex.symm.trans (hkeeps.1 (hcell.trans htype)))
      refine iff_of_false (fun heq ↦ ?_) fun hall ↦ hnot hall.1
      obtain ⟨t, ht, hopens⟩ := (Cut.cons hhas hcut).opens parseJson (n := n) hb hw
        hclosed i hindex hk
      rw [ht] at heq
      exact hhas.not_opens htype hb (List.append_cancel_left heq ▸ hopens)
    have hshown : (chunk.cell i).shown = true := by simp [Cell.shown, hcell, htype]
    rw [viewsOf_cons, if_pos hshown, editorCells_cons, List.foldl_cons]
    have hopen : Closed '\n' w.out := hclosed (List.cons_ne_nil _ _)
    have hout := out_serializeCell parseJson hw
      (viewToCell (first + k) (k == n - 1) (cellToView (chunk.cell i)) k) fun _ ↦ hopen
    rw [hhas.writtenHeader htype, source_viewToCell] at hout
    have hflat : (line :: (more ++ body) ++ ls).flatten = chunk.header ++ chunk.source ++ ls.flatten := by
      rw [List.flatten_append, hhas.flatten]
    by_cases heven : EvenEnds (chunk.cell i).type (chunk.cell i).source
    · rw [viewToSource_of_evenEnds _ _ _ heven, hsource] at hout
      have hkeeps : (chunk.cell i).Keeps :=
        ⟨fun hp ↦ absurd (hcell.symm.trans hp) htype, heven⟩
      have hrest := ih (i := i + 1) (k := k + 1) hb.right (sound_serializeCell hw _)
        (fun hne ↦ hout ▸ hhas.closed hb (hcut.ne_nil hne) hopen) (Nat.succ_ne_zero i)
        (Nat.succ_ne_zero _) (.inl (Nat.succ_ne_zero k))
      rw [hflat, ← List.append_assoc, ← List.append_assoc, ← hout]
      exact hrest.trans ⟨fun hall ↦ ⟨hkeeps, hall⟩, fun hall ↦ hall.2⟩
    · refine iff_of_false (fun heq ↦ ?_) fun hall ↦ heven hall.1.2
      have hapart := (apart_of_not_evenEnds ⟨(chunk.cell i).rawType, (chunk.cell i).title,
        (chunk.cell i).metadata, (chunk.cell i).header⟩ k (k == n - 1) heven).prepend
          (w.out ++ chunk.header)
      refine hapart.ne_of_prefix ?_ ⟨ls.flatten, ?_⟩ heq
      · rw [← hout]
        exact prefix_foldl _ _ _
      · rw [hsource, hflat]
        simp only [List.append_assoc]

/-! ### The first cell -/

/-- **A preamble's marker in front is lost.** Lines that open no cell of another type are followed by
chunks whose first shown one is a preamble: the editor takes it for the text before the first marker
and writes it without its header. What it writes is not the text, for it is behind by a few lines
and goes on with a marker where the text has none. -/
theorem Cut.ne_of_hasPreamble (h : Cut chunks ls) {before : List Text}
    (hb : Broken '\n' (before ++ ls)) (hbefore : ∀ l ∈ before, ¬ OpensOther l)
    (hpre : hasPreamble (viewsOf i chunks) = true) :
    ((editorCells 0 n 0 (viewsOf i chunks)).foldl (serializeCell parseJson) ⟨[], []⟩).out ≠
      (before ++ ls).flatten := by
  induction h generalizing i before with
  | nil => cases hpre
  | @cons chunk m line more body chunks ls hhas hcut ih =>
    obtain ⟨-, hcell, -, hsource, -⟩ := hhas.cell i
    rw [viewsOf_cons] at hpre ⊢
    by_cases hshown : (chunk.cell i).shown = true
    case neg =>
      -- a hidden preamble: its lines are before the others
      rw [if_neg hshown] at hpre ⊢
      have htype : canonicalType m.type = preamble := by
        simp only [Cell.shown, hcell] at hshown
        by_contra hne
        simp [hne] at hshown
      have hmore : ∀ l ∈ before ++ (line :: (more ++ body)), ¬ OpensOther l := fun l hl ↦
        (List.mem_append.1 hl).elim (hbefore l) (hhas.not_opensOther htype l)
      rw [← List.append_assoc] at hb ⊢
      exact ih hb hmore hpre
    rw [if_pos hshown] at hpre ⊢
    have htype : canonicalType m.type = preamble := by
      rw [hasPreamble_cons, hcell] at hpre
      exact of_decide_eq_true hpre
    have hctype : (chunk.cell i).type = preamble := hcell.trans htype
    rw [editorCells_cons, List.foldl_cons]
    have hwritten := writtenHeader_first parseJson hctype (0 + 0) (0 == n - 1)
    have hout := out_serializeCell parseJson sound_nil
      (viewToCell (0 + 0) (0 == n - 1) (cellToView (chunk.cell i)) 0)
      fun hne ↦ absurd hwritten hne
    rw [hwritten, source_viewToCell, hctype, hsource] at hout
    -- `saved` is what the editor writes of the preamble
    generalize hsaved : viewToSource (bodyToView preamble chunk.source _) 0 _ = saved at hout
    have hout' : (serializeCell parseJson ⟨[], []⟩
        (viewToCell (0 + 0) (0 == n - 1) (cellToView (chunk.cell i)) 0)).out = saved := hout
    have hle : saved.length ≤ chunk.source.length := hsaved ▸ length_viewToSource_le _ _ _ _
    have hlines : ∀ l ∈ before ++ (line :: (more ++ body)), ¬ OpensOther l := fun l hl ↦
      (List.mem_append.1 hl).elim (hbefore l) (hhas.not_opensOther htype l)
    have hlt : saved.length < (before ++ (line :: (more ++ body))).flatten.length := by
      have hpos := List.length_pos_iff.2 hhas.header_ne_nil
      rw [List.flatten_append, hhas.flatten]
      simp only [List.length_append]
      omega
    rw [← List.append_assoc] at hb ⊢
    intro heq
    have hclosed : chunks ≠ [] → Closed '\n' (serializeCell parseJson ⟨[], []⟩
        (viewToCell (0 + 0) (0 == n - 1) (cellToView (chunk.cell i)) 0)).out := by
      intro hne
      rw [hout']
      have hbody : Closed '\n' chunk.source := by
        rw [hhas.source]
        refine closed_of_terminated fun l hl ↦ hb.terminated (hcut.ne_nil hne) l ?_
        simp [hl]
      rcases hbody with hnil | hlast
      · rw [hnil, List.length_nil] at hle
        exact .inl (List.length_eq_zero_iff.1 (Nat.le_zero.1 hle))
      · exact .inr (hsaved ▸ closed_viewToSource hlast _ _ _)
    obtain ⟨t, ht, hopens⟩ := hcut.opens parseJson (n := n) hb.right
      (sound_serializeCell sound_nil _) hclosed (i + 1) (Nat.succ_ne_zero 0) (.inl (Nat.succ_ne_zero 0))
    rw [ht, hout', List.flatten_append] at heq
    -- the lines of the chunk are what was saved, and then something more
    have hprefix : saved <+: (before ++ (line :: (more ++ body))).flatten :=
      List.prefix_of_prefix_length_le ⟨t, heq⟩ (List.prefix_append _ _) (Nat.le_of_lt hlt)
    obtain ⟨more', hmore'⟩ := hprefix
    have hne : more' ≠ [] := by
      rintro rfl
      rw [List.append_nil] at hmore'
      rw [hmore'] at hlt
      exact Nat.lt_irrefl _ hlt
    rw [← hmore', List.append_assoc] at heq
    obtain rfl : t = more' ++ ls.flatten := List.append_cancel_left heq
    have hchunks : chunks ≠ [] := by
      rintro rfl
      have hnil : more' ++ ls.flatten = [] := List.append_cancel_left (ht.symm.trans
        (List.append_nil _).symm)
      exact hne (List.append_eq_nil_iff.1 hnil).1
    rcases hopens with hnil | ⟨l, m', hl, hm', hother⟩
    · exact hne (List.append_eq_nil_iff.1 hnil).1
    · have hmem := mem_of_head?_keepLines (hb.terminated (hcut.ne_nil hchunks)) hmore'
        (hout' ▸ hclosed hchunks) hne hl
      exact hlines l hmem ⟨m', hm', hother⟩

theorem exists_of_hasPreamble (h : hasPreamble (viewsOf i chunks) = true) :
    ∃ cell ∈ cellsOf i chunks, cell.type = preamble := by
  unfold viewsOf at h
  cases hcells : (cellsOf i chunks).filter Cell.shown with
  | nil =>
    rw [hcells] at h
    cases h
  | cons cell cells =>
    rw [hcells, List.map_cons, hasPreamble_cons] at h
    have hmem : cell ∈ (cellsOf i chunks).filter Cell.shown := hcells ▸ List.mem_cons_self
    exact ⟨cell, List.mem_of_mem_filter hmem, of_decide_eq_true h⟩

theorem Cut.index_ne_zero (h : Cut chunks ls) (hi : i ≠ 0) :
    ∀ cell ∈ cellsOf i chunks, cell.index ≠ 0 := by
  induction h generalizing i with
  | nil => exact fun _ hc ↦ absurd hc List.not_mem_nil
  | @cons chunk m line more body chunks ls hhas hcut ih =>
    rw [cellsOf_cons, List.forall_mem_cons, (hhas.cell i).1]
    exact ⟨hi, ih (Nat.succ_ne_zero i)⟩

/-- The text before the first marker. -/
def firstCell (source : Text) : Cell := ⟨0, preamble, none, none, [], source, []⟩

theorem keeps_firstCell_iff (source : Text) :
    (firstCell source).Keeps ↔ EvenEnds preamble source :=
  ⟨And.right, fun h ↦ ⟨fun _ ↦ rfl, h⟩⟩

/-- The cells of the document that the editor makes. -/
theorem cells_viewToDocument (nb : ViewNotebook) : (viewToDocument nb).cells =
    (if hasPreamble nb.cells then [] else [firstCell []]) ++
      editorCells (if hasPreamble nb.cells then 0 else 1) nb.cells.length 0 nb.cells := by
  unfold viewToDocument
  by_cases h : hasPreamble nb.cells = true
  · simp only [h, if_true]
    rfl
  · simp only [h, Bool.false_eq_true, if_false]
    rfl

/-- **A notebook comes back through the editor** exactly when all its cells are kept. -/
theorem viewToText_textToView_iff (parseJson : JsonParse) (text : Text) :
    viewToText parseJson (textToView parseJson text) = text ↔
      ∀ cell ∈ (parse parseJson text).cells, cell.Keeps := by
  obtain ⟨body, chunks, ls, hls, hbody, hcut, hparse⟩ := parse_spec parseJson text
  have hb : Broken '\n' (body ++ ls) := hls ▸ broken_keepLines _
  have htext : (body ++ ls).flatten = withoutBom text := hls ▸ flatten_keepLines _
  have hdoc : (parse parseJson text).cells = firstCell body.flatten :: cellsOf 1 chunks := by
    rw [hparse]
    rfl
  have hbom : (viewToDocument (textToView parseJson text)).bom = decide ([bom] <+: text) := by
    show (parse parseJson text).bom = _
    rw [hparse]
  have hviews : (textToView parseJson text).cells =
      (if body.flatten = [] then [] else [cellToView (firstCell body.flatten)]) ++
        viewsOf 1 chunks := by
    simp only [textToView, hdoc, List.filter_cons]
    by_cases hnil : body.flatten = []
    · simp [hnil, Cell.shown, firstCell, viewsOf]
    · simp [hnil, Cell.shown, firstCell, viewsOf]
  refine (serialize_eq_iff hbom).trans ?_
  rw [hdoc, List.forall_mem_cons, keeps_firstCell_iff, ← htext, cells_viewToDocument, hviews]
  generalize ((if body.flatten = [] then [] else [cellToView (firstCell body.flatten)]) ++
    viewsOf 1 chunks).length = n
  by_cases hnil : body.flatten = []
  · rw [if_pos hnil, List.nil_append, hnil]
    by_cases hpre : hasPreamble (viewsOf 1 chunks) = true
    · simp only [hpre, if_true, List.nil_append]
      have hbefore : ∀ l ∈ body, ¬ OpensOther l := by
        rintro l hl ⟨m, hm, -⟩
        cases (hbody l hl).symm.trans hm
      refine iff_of_false (hcut.ne_of_hasPreamble hb hbefore hpre) fun hall ↦ ?_
      obtain ⟨cell, hmem, htype⟩ := exists_of_hasPreamble hpre
      exact hcut.index_ne_zero Nat.one_ne_zero cell hmem ((hall.2 cell hmem).1 htype)
    · have hpre' : hasPreamble (viewsOf 1 chunks) = false := Bool.eq_false_iff.2 hpre
      simp only [hpre', Bool.false_eq_true, if_false, List.singleton_append, List.foldl_cons]
      have hempty : serializeCell parseJson ⟨[], []⟩ (firstCell []) = ⟨[], []⟩ := rfl
      rw [hempty, List.flatten_append, hnil]
      exact (hcut.roundTrips parseJson hb.right sound_nil (fun _ ↦ .inl rfl) Nat.one_ne_zero
        (by decide) (.inr hpre')).trans ⟨fun hall ↦ ⟨evenEnds_nil _, hall⟩, And.right⟩
  · rw [if_neg hnil, List.singleton_append]
    have hpre : hasPreamble (cellToView (firstCell body.flatten) :: viewsOf 1 chunks) = true :=
      hasPreamble_cons _ _
    simp only [hpre, if_true, List.nil_append]
    rw [editorCells_cons, List.foldl_cons]
    have hwritten : (viewToCell (0 + 0) (0 == n - 1) (cellToView (firstCell body.flatten))
        0).writtenHeader parseJson = [] :=
      writtenHeader_first _ rfl _ _
    have hout : (serializeCell parseJson ⟨[], []⟩
        (viewToCell (0 + 0) (0 == n - 1) (cellToView (firstCell body.flatten)) 0)).out =
          viewToSource (bodyToView preamble body.flatten ⟨none, none, [], []⟩) 0 (0 == n - 1) := by
      rw [out_serializeCell parseJson sound_nil _ fun hne ↦ absurd hwritten hne, hwritten]
      rfl
    by_cases heven : EvenEnds preamble body.flatten
    · rw [viewToSource_of_evenEnds _ _ _ heven] at hout
      have hclosed : chunks ≠ [] → Closed '\n' (serializeCell parseJson ⟨[], []⟩
          (viewToCell (0 + 0) (0 == n - 1) (cellToView (firstCell body.flatten)) 0)).out :=
        fun hne ↦ hout.symm ▸ closed_of_terminated (hb.terminated (hcut.ne_nil hne))
      have hrest := hcut.roundTrips parseJson (n := n) hb.right (sound_serializeCell sound_nil _) hclosed
        Nat.one_ne_zero (Nat.succ_ne_zero 0) (.inl (Nat.succ_ne_zero 0))
      rw [hout, ← List.flatten_append] at hrest
      exact hrest.trans ⟨fun hall ↦ ⟨heven, hall⟩, And.right⟩
    · refine iff_of_false (fun heq ↦ ?_) fun hall ↦ heven hall.1
      have hapart := apart_of_not_evenEnds ⟨none, none, [], []⟩ 0 (0 == n - 1) heven
      refine hapart.ne_of_prefix ?_ ⟨ls.flatten, List.flatten_append.symm⟩ heq
      rw [← hout]
      exact prefix_foldl _ _ _

/-- **The three round trips.** What was parsed is written as it was. A notebook comes back through
the editor exactly when all its cells are kept. And a body of some type comes back, with its type,
exactly when its line ends are even and only the first cell is the preamble. -/
theorem roundTrips_iff (parseJson : JsonParse) :
    (∀ text, serialize parseJson (parse parseJson text) = text) ∧
      (∀ text, viewToText parseJson (textToView parseJson text) = text ↔
        ∀ cell ∈ (parse parseJson text).cells, cell.Keeps) ∧
      ∀ type body rest position isLast,
        viewToSource (bodyToView type body rest) position isLast = body ∧
          effectiveType (bodyToView type body rest) position = type ↔
        EvenEnds type body ∧ (type = preamble → position = 0) := by
  refine ⟨serialize_parse parseJson, viewToText_textToView_iff parseJson, ?_⟩
  intro type body rest position isLast
  refine and_congr ⟨fun h ↦ ?_, viewToSource_of_evenEnds rest position isLast⟩ ?_
  · by_contra hne
    exact (apart_of_not_evenEnds rest position isLast hne).ne h
  · rw [effectiveType_bodyToView]
    by_cases htype : type = preamble
    · subst htype
      have hne : code ≠ preamble := by decide
      by_cases hpos : position = 0 <;> simp [hpos, hne]
    · simp [htype]

/-- A marker of the type `preamble` is lost. -/
example : viewToText (fun _ ↦ none) (textToView (fun _ ↦ none) "# %% [preamble]\nb\n".toList) =
    "b\n".toList := rfl

/-- **Mixed line ends are rewritten**: a notebook of three lines, one of them ending with `\r\n`, is
saved with other line ends than it was opened with. -/
theorem not_roundTrips_mixed :
    viewToText (fun _ ↦ none) (textToView (fun _ ↦ none) "a\r\nb\nc".toList) ≠
      "a\r\nb\nc".toList := by
  have hsaved : viewToText (fun _ ↦ none) (textToView (fun _ ↦ none) "a\r\nb\nc".toList) =
      "a\nb\nc".toList := rfl
  rw [hsaved]
  decide

end Ember.Notebook
