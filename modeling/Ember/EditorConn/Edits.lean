import Ember.EditorConn.Places
import Ember.Foundation.StableSort

/-!
# Several edits at once

What one operation of the editor does to the mirror: its edits, whatever their order, are made from
the end of the document to its start, so that each finds its range as it was before any of them.
Hence they all fit when they fit the document before (`applyEdits_reverse`), the text is the old one
with all of them made at once, and the changes reported take the extension host's lines to the
mirror's.
-/

namespace Ember.EditorConn

/-! ### What an edit replaces -/

namespace DocumentMirror

/-- The UTF-16 offset of a position: the code units of the lines before it, and its column. -/
def offset (m : DocumentMirror) (line column : ℕ) : ℕ :=
  (encodeUtf16 (joinLines m.eol (m.lines.take (line - 1) ++ [[]]))).length + (column - 1)

/-- What an edit replaces in the text, counted in code units. -/
def splice (m : DocumentMirror) (e : TextEdit) : Splice ℕ where
  off := m.offset e.range.startLineNumber e.range.startColumn
  len := m.offset e.range.endLineNumber e.range.endColumn -
    m.offset e.range.startLineNumber e.range.startColumn
  new := encodeUtf16 (joinLines m.eol (splitLines e.text))

/-- The change to report of an edit of this document. -/
def change (m : DocumentMirror) (e : TextEdit) : ModelContentChange :=
  ⟨e.range, (m.splice e).off, (m.splice e).len, joinLines m.eol (splitLines e.text)⟩

end DocumentMirror

/-- What a copy of the lines, in code units, becomes by a change: the range is deleted, then the text
put in. -/
def acceptChange (lines : List (List ℕ)) (c : ModelContentChange) : List (List ℕ) :=
  let si := c.range.startLineNumber - 1
  let sk := c.range.startColumn - 1
  let deleted := Lines.splice lines si sk (c.range.endLineNumber - 1) (c.range.endColumn - 1) [[]]
  Lines.splice deleted si sk si sk (Lines.split 13 10 (encodeUtf16 c.text))

/-! ### Code units of lines -/

theorem line_map_encodeUtf16 (lines : List Text) (i : ℕ) :
    Lines.line (lines.map encodeUtf16) i = encodeUtf16 (Lines.line lines i) := by
  rw [Lines.line, Lines.line, List.getElem?_map]
  cases lines[i]? <;> rfl

theorem surround_map_encodeUtf16 (t u : Text) (lines : List Text) :
    Lines.surround (encodeUtf16 t) (lines.map encodeUtf16) (encodeUtf16 u) =
      (Lines.surround t lines u).map encodeUtf16 := by
  have hhead : (lines.map encodeUtf16).modifyHead (encodeUtf16 t ++ ·) =
      (lines.modifyHead (t ++ ·)).map encodeUtf16 := by
    cases lines with
    | nil => rfl
    | cons l lines => simp
  rw [Lines.surround, Lines.surround, hhead, List.map_append, List.map_dropLast, List.getLast?_map]
  cases (lines.modifyHead (t ++ ·)).getLast? <;> simp

variable {lines : List Text}

/-- A replacement between two places, seen in code units. -/
theorem splice_map_encodeUtf16 {si scol sk ei ecol ek : ℕ} (hs : IsPlace lines si scol sk)
    (he : IsPlace lines ei ecol ek) (new : List Text) :
    Lines.splice (lines.map encodeUtf16) si scol ei ecol (new.map encodeUtf16) =
      (Lines.splice lines si sk ei ek new).map encodeUtf16 := by
  rw [Lines.splice, line_map_encodeUtf16, line_map_encodeUtf16, ← hs.col, ← he.col,
    take_encodeUtf16, drop_encodeUtf16, surround_map_encodeUtf16, ← List.map_take, ← List.map_drop,
    ← List.map_append, ← List.map_append, Lines.splice]

theorem not_mem_encodeUtf16 {t : Text} {c : Char} (hc : c.toNat < 0xD800) (h : c ∉ t) :
    c.toNat ∉ encodeUtf16 t := by
  intro hmem
  obtain ⟨d, hd, hmem⟩ := List.mem_flatMap.1 hmem
  rw [encodeUtf16Char] at hmem
  split at hmem
  · obtain rfl : c = d := Char.toNat_inj.1 (List.mem_singleton.1 hmem)
    exact h hd
  · simp only [List.mem_cons, List.not_mem_nil, or_false] at hmem
    omega

/-- The lines of a text in code units are those of the text. -/
theorem split_encodeUtf16_joinLines (h : ValidLines lines) (eol : Lines.Break) :
    Lines.split 13 10 (encodeUtf16 (joinLines eol lines)) = lines.map encodeUtf16 := by
  have hspell : encodeUtf16 (eol.spell '\r' '\n') = eol.spell 13 10 := by cases eol <;> rfl
  have hjoin : encodeUtf16 (joinLines eol lines) = Lines.join 13 10 eol (lines.map encodeUtf16) := by
    obtain ⟨l, lines, rfl⟩ := List.exists_cons_of_ne_nil h.1
    rw [joinLines, Lines.join_cons, encodeUtf16_append, List.map_cons, Lines.join_cons,
      List.flatMap_map, ← hspell, encodeUtf16, encodeUtf16, List.flatMap_assoc]
    simp only [List.flatMap_append, encodeUtf16]
  rw [hjoin]
  refine Lines.split_join (by decide) eol ⟨by simpa using h.1, fun u hu ↦ ?_⟩
  obtain ⟨l, hl, rfl⟩ := List.mem_map.1 hu
  exact ⟨not_mem_encodeUtf16 (c := '\r') (by decide) (h.2 l hl).1,
    not_mem_encodeUtf16 (c := '\n') (by decide) (h.2 l hl).2⟩

/-! ### Edits one after the other -/

variable {e : TextEdit} {m' : DocumentMirror}

namespace DocumentMirror

variable {m : DocumentMirror} {line column k : ℕ}

theorem offset_eq (h : m.At line column k) :
    m.offset line column = utf16Len (m.before (line - 1) k) := by
  rw [offset, length_encodeUtf16, joinLines, Lines.join_concat, List.append_nil, before, Lines.before,
    utf16Len_append, h.place.col]

/-- The text is what comes before a place and what comes after it. -/
theorem text_eq (h : m.At line column k) :
    m.text = m.before (line - 1) k ++ Lines.after '\r' '\n' m.eol m.lines (line - 1) k :=
  (Lines.before_append_after h.place.lt k).symm

/-- A document that has this place too, with the same text before it. -/
theorem At.keeps (h : m.At line column k)
    (hkeeps : Lines.KeepsPlace m.lines m'.lines (line - 1) k) : m'.At line column k :=
  ⟨h.line_pos, h.column_pos, h.place.keeps hkeeps⟩

theorem offset_keeps (h : m.At line column k) (heol : m'.eol = m.eol)
    (hkeeps : Lines.KeepsPlace m.lines m'.lines (line - 1) k) :
    m'.offset line column = m.offset line column := by
  rw [offset_eq (h.keeps hkeeps), offset_eq h, before, before, heol, hkeeps.before_eq]

/-- Offsets come in the order of their positions. -/
theorem offset_le {line' column' k' : ℕ} (h : m.At line column k) (h' : m.At line' column' k')
    (hle : toLex (line, column) ≤ (toLex (line', column') : ℕ ×ₗ ℕ)) :
    m.offset line column ≤ m.offset line' column' := by
  obtain ⟨t, ht⟩ := Lines.exists_before_eq_append '\r' '\n' m.eol
    ((h.placeLE_iff h').2 hle) h'.place.lt
  rw [offset_eq h, offset_eq h', before, before, ht, utf16Len_append]
  exact Nat.le_add_right _ _

theorem HasRange.keeps {r : Range} {sk ek : ℕ} (h : m.HasRange r sk ek)
    (hstart : Lines.KeepsPlace m.lines m'.lines (r.startLineNumber - 1) sk)
    (hstop : Lines.KeepsPlace m.lines m'.lines (r.endLineNumber - 1) ek) : m'.HasRange r sk ek :=
  ⟨h.start.keeps hstart, h.stop.keeps hstop, h.le⟩

theorem splice_stop {sk ek : ℕ} (h : m.HasRange e.range sk ek) :
    (m.splice e).stop = m.offset e.range.endLineNumber e.range.endColumn :=
  Nat.add_sub_cancel' (offset_le h.start h.stop h.le)

/-- **One edit**: the text, the change reported, and what a copy of the lines becomes by it. -/
theorem HasRange.applyOne_eq {sk ek : ℕ} (h : m.HasRange e.range sk ek) :
    ∃ m', m.applyOne e.range e.text = .ok (m', m.change e) ∧
      m'.lines = Lines.splice m.lines (e.range.startLineNumber - 1) sk (e.range.endLineNumber - 1) ek
        (splitLines e.text) ∧
      m'.eol = m.eol ∧ m'.version = m.version ∧ m'.dirty = m.dirty ∧
      encodeUtf16 m'.text = (m.splice e).on (encodeUtf16 m.text) ∧
      acceptChange (m.lines.map encodeUtf16) (m.change e) = m'.lines.map encodeUtf16 := by
  obtain ⟨m', hone, hlines, heol, hversion, hdirty⟩ := h.applyOne e.text
  rw [← offset_eq h.start, ← offset_eq h.stop] at hone
  have hne := (validLines_splitLines e.text).1
  refine ⟨m', hone, hlines, heol, hversion, hdirty, ?_, ?_⟩
  · have htext : m'.text = m.before (e.range.startLineNumber - 1) sk ++
        joinLines m.eol (splitLines e.text) ++
        Lines.after '\r' '\n' m.eol m.lines (e.range.endLineNumber - 1) ek := by
      rw [text, heol, joinLines, hlines, Lines.join_splice hne h.start.place.lt.le]
      rfl
    have htake : (encodeUtf16 m.text).take (m.splice e).off =
        encodeUtf16 (m.before (e.range.startLineNumber - 1) sk) := by
      rw [text_eq h.start, encodeUtf16_append, splice, offset_eq h.start]
      exact List.take_left' (length_encodeUtf16 _)
    have hdrop : (encodeUtf16 m.text).drop (m.splice e).stop =
        encodeUtf16 (Lines.after '\r' '\n' m.eol m.lines (e.range.endLineNumber - 1) ek) := by
      rw [text_eq h.stop, encodeUtf16_append, splice_stop h, offset_eq h.stop]
      exact List.drop_left' (length_encodeUtf16 _)
    rw [htext, Splice.on, htake, hdrop, encodeUtf16_append, encodeUtf16_append]
    rfl
  · have hdelete := splice_map_encodeUtf16 h.start.place h.stop.place [[]]
    have hkeeps := Lines.keepsPlace_splice (e.range.endLineNumber - 1) ek
      (List.cons_ne_nil [] []) h.start.place.lt h.start.place.le h.start.place.le (.inr ⟨rfl, le_rfl⟩)
    have hplace := h.start.place.keeps hkeeps
    have hinsert := splice_map_encodeUtf16 hplace hplace (splitLines e.text)
    rw [Lines.splice_splice h.start.place.lt h.start.place.le, ← hlines] at hinsert
    rw [acceptChange, ← hinsert, ← hdelete, ← split_encodeUtf16_joinLines
      (validLines_splitLines e.text) m.eol]
    rfl

/-- One more edit after those that fit. -/
theorem applyEdits_concat {edits : List TextEdit} {m₁ m₂ : DocumentMirror}
    {changes : List ModelContentChange} (h : m.applyEdits edits = (m₁, .ok changes))
    {c : ModelContentChange} (hone : m₁.applyOne e.range e.text = .ok (m₂, c)) :
    m.applyEdits (edits ++ [e]) = (m₂, .ok (changes ++ [c])) := by
  induction edits generalizing m changes with
  | nil =>
    obtain ⟨rfl, hchanges⟩ := Prod.mk.inj h
    obtain rfl := Except.ok.inj hchanges
    rw [List.nil_append, applyEdits, hone]
    rfl
  | cons e' edits ih =>
    rw [List.cons_append, applyEdits]
    rw [applyEdits] at h
    cases hone' : m.applyOne e'.range e'.text with
    | error err =>
      rw [hone'] at h
      cases h
    | ok p =>
      obtain ⟨m', c'⟩ := p
      rw [hone'] at h
      dsimp only at h ⊢
      cases hrest : m'.applyEdits edits with
      | mk m'' result =>
        rw [hrest] at h
        cases result with
        | error err => cases h
        | ok changes' =>
          obtain ⟨rfl, hchanges⟩ := Prod.mk.inj h
          obtain rfl := Except.ok.inj hchanges
          rw [ih hrest]
          rfl

/-- A document after edits, seen from before them. -/
structure After (m m' : DocumentMirror) (edits : List TextEdit) : Prop where
  applied : m.applyEdits edits.reverse = (m', .ok (edits.reverse.map m.change))
  eol : m'.eol = m.eol
  version : m'.version = m.version
  dirty : m'.dirty = m.dirty
  text : encodeUtf16 m'.text = Splice.all (edits.map m.splice) (encodeUtf16 m.text)
  /-- What is before all edits stays. -/
  keeps : ∀ {line column k}, m.At line column k →
    (∀ e ∈ edits, toLex (line, column) ≤ e.range.start) →
    Lines.KeepsPlace m.lines m'.lines (line - 1) k
  accepted : (edits.reverse.map m.change).foldl acceptChange (m.lines.map encodeUtf16) =
    m'.lines.map encodeUtf16

/-- Edits of valid ranges, in the order of the document, none overlapping another. -/
structure InOrder (m : DocumentMirror) (edits : List TextEdit) : Prop where
  valid : ∀ e ∈ edits, ∃ sk ek, m.HasRange e.range sk ek
  apart : edits.Pairwise fun e e' ↦ e.range.end_ ≤ e'.range.start

/-- Their splices are in order. -/
theorem InOrder.splices {edits : List TextEdit} (h : m.InOrder edits) :
    Splice.InOrder (encodeUtf16 m.text) 0 (edits.map m.splice) := by
  obtain ⟨hvalid, hapart⟩ := h
  induction edits with
  | nil => exact Nat.zero_le _
  | cons e edits ih =>
    obtain ⟨sk, ek, he⟩ := hvalid e List.mem_cons_self
    have hrest := ih (fun e' he' ↦ hvalid e' (List.mem_cons_of_mem _ he')) hapart.of_cons
    refine ⟨Nat.zero_le _, ?_⟩
    rw [splice_stop he]
    cases edits with
    | nil =>
      show m.offset _ _ ≤ (encodeUtf16 m.text).length
      rw [offset_eq he.stop, text_eq he.stop, length_encodeUtf16, utf16Len_append]
      exact Nat.le_add_right _ _
    | cons e' edits =>
      obtain ⟨sk', ek', he'⟩ := hvalid e' (List.mem_cons_of_mem _ List.mem_cons_self)
      exact ⟨offset_le he.stop he'.start (List.rel_of_pairwise_cons hapart List.mem_cons_self),
        hrest.2⟩

/-- **Edits made from the end of the document to its start** all fit, each at its range in the
document before them. -/
theorem InOrder.after {edits : List TextEdit} (h : m.InOrder edits) : ∃ m', m.After m' edits := by
  obtain ⟨hvalid, hapart⟩ := h
  induction edits with
  | nil => exact ⟨m, rfl, rfl, rfl, rfl, rfl, fun hat _ ↦ .refl hat.place.lt hat.place.le, rfl⟩
  | cons e edits ih =>
    have hvalid' := fun e' he' ↦ hvalid e' (List.mem_cons_of_mem _ he')
    obtain ⟨m₁, h₁⟩ := ih hvalid' hapart.of_cons
    obtain ⟨sk, ek, he⟩ := hvalid e List.mem_cons_self
    have hstop : ∀ e' ∈ edits, e.range.end_ ≤ e'.range.start :=
      fun e' he' ↦ List.rel_of_pairwise_cons hapart he'
    have hkeepsStart := h₁.keeps he.start fun e' he' ↦ he.le.trans (hstop e' he')
    have hkeepsStop := h₁.keeps he.stop hstop
    -- the range is where it was, and so is the change
    have he₁ := he.keeps hkeepsStart hkeepsStop
    have hsplice : m₁.splice e = m.splice e := by
      rw [splice, splice, h₁.eol, offset_keeps he.start h₁.eol hkeepsStart,
        offset_keeps he.stop h₁.eol hkeepsStop]
    have hchange : m₁.change e = m.change e := by rw [change, change, hsplice, h₁.eol]
    obtain ⟨m₂, hone, hlines, heol, hversion, hdirty, htext, haccepted⟩ := he₁.applyOne_eq
    rw [hchange] at hone haccepted
    rw [hsplice] at htext
    refine ⟨m₂, ?_, heol.trans h₁.eol, hversion.trans h₁.version, hdirty.trans h₁.dirty, ?_, ?_, ?_⟩
    · rw [List.reverse_cons, applyEdits_concat h₁.applied hone, List.map_append]
      rfl
    · have hin : m.InOrder (e :: edits) := ⟨hvalid, hapart⟩
      rw [htext, h₁.text, List.map_cons, Splice.all_cons hin.splices]
    · intro line column k hat hle
      have hkeeps := h₁.keeps hat fun e' he' ↦ hle e' (List.mem_cons_of_mem _ he')
      refine hkeeps.trans ?_
      rw [hlines]
      exact Lines.keepsPlace_splice _ _ (validLines_splitLines e.text).1 hkeepsStart.lt hkeepsStart.le
        hkeeps.le ((hat.placeLE_iff he.start).2 (hle e List.mem_cons_self))
    · rw [List.reverse_cons, List.map_append, List.foldl_append, h₁.accepted]
      exact haccepted

/-! ### One operation -/

/-- Valid edits. -/
def Valid (m : DocumentMirror) (edits : List TextEdit) : Prop :=
  ∀ e ∈ edits, m.rangeIsValid e.range = .ok ()

/-- The edits from the end of the document to its start, as `apply` makes them. -/
def fromEnd (edits : List TextEdit) : List TextEdit :=
  edits.insertionSort fun a b ↦ a.range.start ≥ b.range.start

theorem mapM_rangeIsValid (m : DocumentMirror) (edits : List TextEdit) :
    (m.Valid edits ∧ ∃ us, edits.mapM (fun e ↦ m.rangeIsValid e.range) = .ok us) ∨
      (¬ m.Valid edits ∧ ∃ err, edits.mapM (fun e ↦ m.rangeIsValid e.range) = .error err) := by
  induction edits with
  | nil => exact .inl ⟨fun _ h ↦ absurd h List.not_mem_nil, [], rfl⟩
  | cons e edits ih =>
    rw [List.mapM_cons]
    cases he : m.rangeIsValid e.range with
    | error err =>
      refine .inr ⟨fun h ↦ ?_, err, rfl⟩
      rw [h e List.mem_cons_self] at he
      cases he
    | ok u =>
      rcases ih with ⟨hvalid, us, hus⟩ | ⟨hvalid, err, herr⟩
      · refine .inl ⟨fun e' he' ↦ ?_, u :: us, by rw [hus]; rfl⟩
        rcases List.mem_cons.1 he' with rfl | he'
        · exact he
        · exact hvalid e' he'
      · exact .inr ⟨fun h ↦ hvalid fun e' he' ↦ h e' (List.mem_cons_of_mem _ he'), err,
          by rw [herr]; rfl⟩

theorem Valid.le {edits : List TextEdit} (h : m.Valid edits) (he : e ∈ edits) :
    e.range.start ≤ e.range.end_ := by
  obtain ⟨_, _, hrange⟩ := rangeIsValid_eq_ok.1 (h e he)
  exact hrange.le

/-- Where neighbours do not overlap, none do. -/
theorem overlapping_eq_false {edits : List TextEdit} (hvalid : m.Valid edits) :
    overlapping edits = false ↔ edits.Pairwise fun later earlier ↦
      earlier.range.end_ ≤ later.range.start := by
  induction edits with
  | nil => simp [overlapping]
  | cons e edits ih =>
    have ih := ih fun e' he' ↦ hvalid e' (List.mem_cons_of_mem _ he')
    cases edits with
    | nil => simp [overlapping]
    | cons e₁ edits =>
      rw [overlapping, Bool.or_eq_false_iff, decide_eq_false_iff_not, not_lt, ih,
        List.pairwise_cons (a := e) (l := e₁ :: edits)]
      refine and_congr_left fun hpairwise ↦ ⟨fun hle e' he' ↦ ?_, fun h ↦ h e₁ List.mem_cons_self⟩
      rcases List.mem_cons.1 he' with rfl | he'
      · exact hle
      · exact (List.rel_of_pairwise_cons hpairwise he').trans
          ((hvalid.le (List.mem_cons_of_mem _ List.mem_cons_self)).trans hle)

theorem valid_fromEnd {edits : List TextEdit} : m.Valid (fromEnd edits) ↔ m.Valid edits := by
  simp only [Valid, fromEnd, List.mem_insertionSort]

/-- Edits from the end of the document that do not overlap are edits in order. -/
theorem Valid.inOrder_reverse {edits : List TextEdit} (hvalid : m.Valid edits)
    (h : overlapping edits = false) : m.InOrder edits.reverse :=
  ⟨fun e he ↦ rangeIsValid_eq_ok.1 (hvalid e (List.mem_reverse.1 he)),
    List.pairwise_reverse.2 ((overlapping_eq_false hvalid).1 h)⟩

/-- **What is accepted**: edits of valid ranges that do not overlap as they are sorted, at a version
that goes up; they are all made. What is not leaves the mirror as it was. -/
theorem apply_outcome (m : DocumentMirror) (change : EditorChange) :
    (∃ m', (m.Valid change.edits ∧ overlapping (fromEnd change.edits) = false ∧
        m.version < change.version.getD (m.version + 1)) ∧ m.After m' (fromEnd change.edits).reverse ∧
      m.apply change = ({ m' with version := change.version.getD (m.version + 1), dirty := true },
        .ok ⟨(fromEnd change.edits).map m.change, m.eol, change.version.getD (m.version + 1),
          change.reason == .undo, change.reason == .redo, false, false⟩)) ∨
    (¬ (m.Valid change.edits ∧ overlapping (fromEnd change.edits) = false ∧
        m.version < change.version.getD (m.version + 1)) ∧
      ∃ err, m.apply change = (m, .error err)) := by
  rw [apply]
  rcases m.mapM_rangeIsValid change.edits with ⟨hvalid, us, hus⟩ | ⟨hvalid, err, herr⟩
  · rw [hus]
    dsimp only
    split
    · rename_i hoverlap
      exact .inr ⟨fun h ↦ by rw [fromEnd, hoverlap] at h; exact absurd h.2.1 Bool.true_eq_false.mp, _, rfl⟩
    · rename_i hoverlap
      split
      · rename_i hversion
        exact .inr ⟨fun h ↦ absurd h.2.2 hversion.not_gt, _, rfl⟩
      · rename_i hversion
        have hapart : overlapping (fromEnd change.edits) = false := Bool.eq_false_iff.2 hoverlap
        obtain ⟨m', hafter⟩ := ((valid_fromEnd.2 hvalid).inOrder_reverse hapart).after
        have happlied := hafter.applied
        rw [List.reverse_reverse] at happlied
        refine .inl ⟨m', ⟨hvalid, hapart, not_le.1 hversion⟩, hafter, ?_⟩
        rw [fromEnd] at happlied
        rw [happlied, ← hafter.eol]
        rfl
  · rw [herr]
    exact .inr ⟨fun h ↦ hvalid h.1, err, rfl⟩

/-- **An operation of the editor** is refused, and the mirror stays as it was; or its edits are all
made at once, and the changes reported, from the end of the document to its start, are those of the
document before it and take the lines before it to the lines after it. -/
theorem apply_spec (m : DocumentMirror) (change : EditorChange) :
    (∃ err, m.apply change = (m, .error err)) ∨
    ∃ (m' : DocumentMirror) (ev : ModelContentChangedEvent) (edits : List TextEdit),
      m.apply change = (m', .ok ev) ∧ edits.Perm change.edits ∧ m'.eol = m.eol ∧
      Splice.InOrder (encodeUtf16 m.text) 0 (edits.map m.splice) ∧
      encodeUtf16 m'.text = Splice.all (edits.map m.splice) (encodeUtf16 m.text) ∧
      ev.changes = edits.reverse.map m.change ∧
      ev.changes.foldl acceptChange (m.lines.map encodeUtf16) = m'.lines.map encodeUtf16 := by
  rcases m.apply_outcome change with ⟨m', ⟨hvalid, hapart, -⟩, hafter, happly⟩ | ⟨-, herr⟩
  · have hin := (valid_fromEnd.2 hvalid).inOrder_reverse hapart
    have haccepted := hafter.accepted
    rw [List.reverse_reverse] at haccepted
    refine .inr ⟨_, _, (fromEnd change.edits).reverse, happly, ?_, hafter.eol, hin.splices,
      hafter.text, ?_, haccepted⟩
    · exact (List.reverse_perm _).trans (List.perm_insertionSort _ _)
    · rw [List.reverse_reverse]
  · exact .inl herr

end DocumentMirror

/-! ### Any order -/

/-- An edit that replaces nothing. -/
def TextEdit.Insertion (e : TextEdit) : Prop := e.range.start = e.range.end_

instance (e : TextEdit) : Decidable e.Insertion :=
  inferInstanceAs (Decidable (e.range.start = e.range.end_))

/-- Of any two edits, one ends before the other starts. -/
def Apart (edits : List TextEdit) : Prop :=
  edits.Pairwise fun e e' ↦ e.range.end_ ≤ e'.range.start ∨ e'.range.end_ ≤ e.range.start

/-- Two orders have the insertions at each position in the same order. -/
def SameInsertions (edits edits' : List TextEdit) : Prop :=
  ∀ p, edits.filter (fun e ↦ e.range.start = p ∧ e.Insertion) =
    edits'.filter fun e ↦ e.range.start = p ∧ e.Insertion

variable {edits' : List TextEdit}

theorem Apart.perm {edits : List TextEdit} (h : Apart edits) (hperm : edits'.Perm edits) :
    Apart edits' :=
  List.Pairwise.perm h hperm.symm Or.symm

namespace DocumentMirror

variable {m : DocumentMirror} {edits : List TextEdit}

theorem Valid.perm (h : m.Valid edits) (hperm : edits'.Perm edits) :
    m.Valid edits' :=
  fun e he ↦ h e (hperm.mem_iff.1 he)

/-- **Edits that do not overlap pass for such** just when, of those that start at one position, only
the first replaces something. -/
theorem overlapping_fromEnd (hvalid : m.Valid edits) (hapart : Apart edits) :
    overlapping (fromEnd edits) = false ↔
      edits.Pairwise fun e e' ↦ e.range.start = e'.range.start → e'.Insertion := by
  have hperm : (fromEnd edits).Perm edits := List.perm_insertionSort _ _
  have hsorted : (fromEnd edits).Pairwise fun e e' ↦ e'.range.start ≤ e.range.start :=
    List.pairwise_insertionSort _ edits
  have hiff : (fromEnd edits).Pairwise fun e e' ↦ e'.range.end_ ≤ e.range.start ↔
      (e.range.start = e'.range.start → e'.Insertion) := by
    refine (hsorted.and (hapart.perm hperm)).imp_of_mem fun {e e'} he he' ⟨hle, hor⟩ ↦ ?_
    have hends := hvalid.le (hperm.mem_iff.1 he)
    have hends' := hvalid.le (hperm.mem_iff.1 he')
    constructor
    · intro hbefore hstart
      exact le_antisymm hends' (hbefore.trans hstart.le)
    · intro hinsertion
      rcases hle.eq_or_lt with hstart | hlt
      · exact (hinsertion hstart.symm).symm.le.trans hle
      · exact hor.resolve_left fun h ↦ hlt.not_ge (hends.trans h)
  rw [overlapping_eq_false (valid_fromEnd.2 hvalid),
    ← StableSort.pairwise_insertionSort_key fun e : TextEdit ↦ e.range.start]
  exact ⟨fun h ↦ (h.and hiff).imp fun ⟨h, hiff⟩ ↦ hiff.1 h,
    fun h ↦ (List.Pairwise.and h hiff).imp fun ⟨h, hiff⟩ ↦ hiff.2 h⟩

/-- An element that goes with no other is the only one. -/
theorem eq_singleton_of_pairwise {α : Type*} {R : α → α → Prop} {l : List α} (h : l.Pairwise R)
    {a : α} (ha : a ∈ l) (hbefore : ∀ b, ¬ R b a) (hafter : ∀ b, ¬ R a b) : l = [a] := by
  obtain ⟨s, t, rfl⟩ := List.append_of_mem ha
  obtain ⟨-, htail, hcross⟩ := List.pairwise_append.1 h
  obtain rfl : s = [] := List.eq_nil_iff_forall_not_mem.2 fun b hb ↦
    hbefore b (hcross b hb a List.mem_cons_self)
  obtain rfl : t = [] := List.eq_nil_iff_forall_not_mem.2 fun b hb ↦
    hafter b (List.rel_of_pairwise_cons htail hb)
  rfl

/-- Orders of edits that differ only across positions are sorted the same way. -/
theorem fromEnd_eq (hperm : edits.Perm edits') (hsame : SameInsertions edits edits')
    (h : edits.Pairwise fun e e' ↦ e.range.start = e'.range.start → e.Insertion ∧ e'.Insertion) :
    fromEnd edits = fromEnd edits' := by
  refine (StableSort.insertionSort_eq_iff fun e : TextEdit ↦ e.range.start).2 fun p ↦ ?_
  by_cases hreplaces : ∃ e ∈ edits, e.range.start = p ∧ ¬ e.Insertion
  · -- it is alone at its position
    obtain ⟨e, he, hstart, hno⟩ := hreplaces
    have hinsertions := StableSort.pairwise_key_iff.1 h p
    have hsingle : edits.filter (fun e ↦ e.range.start = p) = [e] := eq_singleton_of_pairwise
      hinsertions (List.mem_filter.2 ⟨he, decide_eq_true hstart⟩) (fun _ h ↦ hno h.2)
      fun _ h ↦ hno h.1
    have hperm' := hperm.symm.filter fun e ↦ e.range.start = p
    rw [hsingle, List.perm_singleton] at hperm'
    rw [hsingle, hperm']
  · have hall : ∀ e ∈ edits, e.range.start = p → e.Insertion := fun e he hstart ↦
      not_not.1 fun hno ↦ hreplaces ⟨e, he, hstart, hno⟩
    have hfilter : ∀ l : List TextEdit, l.Perm edits → l.filter (fun e ↦ e.range.start = p) =
        l.filter fun e ↦ e.range.start = p ∧ e.Insertion := fun l hl ↦
      List.filter_congr fun e he ↦ decide_eq_decide.2
        ⟨fun hstart ↦ ⟨hstart, hall e (hl.mem_iff.1 he) hstart⟩, And.left⟩
    rw [hfilter edits (List.Perm.refl _), hfilter edits' hperm.symm, hsame p]

/-- **An operation is accepted in every order of its edits, with one outcome**, just when no edit that
replaces something starts where another edit starts. -/
theorem apply_perm (hvalid : m.Valid edits) (hapart : Apart edits) (reason : EditReason)
    {version : Option ℕ} (hversion : m.version < version.getD (m.version + 1)) :
    (∀ l : List TextEdit, l.Perm edits →
      (∃ m' ev, m.apply ⟨l, reason, version⟩ = (m', .ok ev)) ∧
      ∀ l' : List TextEdit, l'.Perm edits → SameInsertions l l' →
        (m.apply ⟨l, reason, version⟩).1.text = (m.apply ⟨l', reason, version⟩).1.text) ↔
    edits.Pairwise fun e e' ↦ e.range.start = e'.range.start → e.Insertion ∧ e'.Insertion := by
  have haccepted : ∀ l : List TextEdit, l.Perm edits →
      ((∃ m' ev, m.apply ⟨l, reason, version⟩ = (m', .ok ev)) ↔
        l.Pairwise fun e e' ↦ e.range.start = e'.range.start → e'.Insertion) := by
    intro l hl
    rw [← overlapping_fromEnd (hvalid.perm hl) (hapart.perm hl)]
    rcases m.apply_outcome ⟨l, reason, version⟩ with ⟨m', h, -, happly⟩ | ⟨h, err, herr⟩
    · exact ⟨fun _ ↦ h.2.1, fun _ ↦ ⟨_, _, happly⟩⟩
    · refine ⟨fun ⟨_, _, hok⟩ ↦ ?_, fun hno ↦ absurd ⟨hvalid.perm hl, hno, hversion⟩ h⟩
      rw [herr] at hok
      cases hok
  constructor
  · intro h
    -- a replacement that is not first in one order is not first in the other
    have hfirst := (haccepted edits (List.Perm.refl _)).1 (h edits (List.Perm.refl _)).1
    have hlast := List.pairwise_reverse.1
      ((haccepted edits.reverse (List.reverse_perm _)).1 (h _ (List.reverse_perm _)).1)
    exact (hfirst.and hlast).imp fun ⟨hfirst, hlast⟩ hstart ↦ ⟨hlast hstart.symm, hfirst hstart⟩
  · intro h l hl
    have hpairwise : ∀ l : List TextEdit, l.Perm edits → l.Pairwise fun e e' ↦
        e.range.start = e'.range.start → e.Insertion ∧ e'.Insertion := fun l hl ↦
      List.Pairwise.perm h hl.symm fun hee' hstart ↦ (hee' hstart.symm).symm
    refine ⟨(haccepted l hl).2 ((hpairwise l hl).imp fun hee' hstart ↦ (hee' hstart).2),
      fun l' hl' hsame ↦ ?_⟩
    have hsort := fromEnd_eq (hl.trans hl'.symm) hsame (hpairwise l hl)
    have htext : ∀ l : List TextEdit, l.Perm edits → ∃ m', m.After m' (fromEnd l).reverse ∧
        (m.apply ⟨l, reason, version⟩).1.text = m'.text := by
      intro l hl
      obtain ⟨m', ev, hok⟩ := (haccepted l hl).2 ((hpairwise l hl).imp fun hee' h ↦ (hee' h).2)
      rcases m.apply_outcome ⟨l, reason, version⟩ with ⟨m', -, hafter, happly⟩ | ⟨-, err, herr⟩
      · exact ⟨m', hafter, by rw [happly]; rfl⟩
      · rw [herr] at hok
        cases hok
    obtain ⟨m₁, h₁, htext₁⟩ := htext l hl
    obtain ⟨m₂, h₂, htext₂⟩ := htext l' hl'
    rw [← hsort] at h₂
    obtain rfl : m₁ = m₂ := (Prod.mk.inj (h₁.applied.symm.trans h₂.applied)).1
    rw [htext₁, htext₂]

/-- A document of one line. -/
def oneLine : DocumentMirror := .new ⟨"file", "", "/a", "", ""⟩ ['a', 'b'] "plaintext"

/-- Two insertions at one position and a replacement at another. -/
def insertions : List TextEdit :=
  [⟨⟨1, 1, 1, 1⟩, ['x']⟩, ⟨⟨1, 2, 1, 3⟩, []⟩, ⟨⟨1, 1, 1, 1⟩, ['y']⟩]

theorem apply_perm_oneLine :
    ∃ m' ev, oneLine.apply ⟨insertions.reverse, .normal, none⟩ = (m', .ok ev) := by
  have hvalid : oneLine.Valid insertions := by
    unfold Valid
    decide
  have hapart : Apart insertions := by
    unfold Apart
    decide
  have hperm := @apply_perm oneLine insertions hvalid hapart .normal none (by decide)
  exact (hperm.2 (by decide) _ (List.reverse_perm _)).1

/-- **An insertion before a replacement at the same position is refused**, and accepted after it. -/
theorem not_apply_perm : ¬ ∀ (m : DocumentMirror) (edits : List TextEdit), m.Valid edits →
    Apart edits → ∀ l : List TextEdit, l.Perm edits →
      ∃ m' ev, m.apply ⟨l, .normal, none⟩ = (m', .ok ev) := by
  intro h
  let edits : List TextEdit := [⟨⟨1, 1, 1, 1⟩, ['x']⟩, ⟨⟨1, 1, 1, 2⟩, ['y']⟩]
  obtain ⟨m', ev, hok⟩ := h oneLine edits (by unfold Valid; decide) (by unfold Apart; decide) edits
    (List.Perm.refl _)
  rcases oneLine.apply_outcome ⟨edits, .normal, none⟩ with ⟨-, ⟨-, hno, -⟩, -⟩ | ⟨-, err, herr⟩
  · exact absurd hno (by decide)
  · rw [herr] at hok
    cases hok

end DocumentMirror

end Ember.EditorConn
