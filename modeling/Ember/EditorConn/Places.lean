import Ember.EditorConn.Document
import Ember.Foundation.LineSplices
import Ember.Foundation.Splices

/-!
# Places in a document

A position names a line and a column in UTF-16 code units; the place it is at is a number of
characters of that line. `IsPlace` says which place a column is at, and the mirror's own functions
are read through it: `charIndex_eq_ok` (what is accepted as a position), `offsetAt_eq_ok` (the offset
is the length of the text before), `applyOne_eq_ok` (an edit between two places is a replacement
there).
-/

namespace Ember.EditorConn

/-! ### Code units -/

/-- `char::encode_utf16`. -/
def encodeUtf16Char (c : Char) : List ℕ :=
  if c.toNat < 0x10000 then [c.toNat]
  else [0xD800 + (c.toNat - 0x10000) / 0x400, 0xDC00 + (c.toNat - 0x10000) % 0x400]

/-- `str::encode_utf16`. -/
def encodeUtf16 (t : Text) : List ℕ := t.flatMap encodeUtf16Char

@[simp] theorem encodeUtf16_append (t u : Text) :
    encodeUtf16 (t ++ u) = encodeUtf16 t ++ encodeUtf16 u := List.flatMap_append

@[simp] theorem length_encodeUtf16 (t : Text) : (encodeUtf16 t).length = utf16Len t := by
  rw [encodeUtf16, List.length_flatMap, utf16Len]
  refine congrArg List.sum (List.map_congr_left fun c _ ↦ ?_)
  rw [encodeUtf16Char, utf16Width]
  split <;> rfl

@[simp] theorem utf16Len_append (t u : Text) : utf16Len (t ++ u) = utf16Len t + utf16Len u := by
  rw [utf16Len, List.map_append, List.sum_append, utf16Len, utf16Len]

@[simp] theorem utf16Len_nil : utf16Len [] = 0 := rfl

theorem utf16Len_cons (c : Char) (t : Text) : utf16Len (c :: t) = utf16Width c + utf16Len t := rfl

theorem utf16Width_pos (c : Char) : 0 < utf16Width c := by
  rw [utf16Width]
  split <;> decide

variable {t : Text}

/-- More characters, more code units. -/
theorem utf16Len_take_lt {k k' : ℕ} (h : k < k') (hk' : k' ≤ t.length) :
    utf16Len (t.take k) < utf16Len (t.take k') := by
  have hlt : k < t.length := h.trans_le hk'
  have hpos := utf16Width_pos t[k]
  rw [Lines.take_drop_append t h.le, utf16Len_append, List.drop_eq_getElem_cons hlt,
    show k' - k = (k' - k - 1) + 1 by omega, List.take_succ_cons, utf16Len_cons]
  omega

theorem utf16Len_take_le {k k' : ℕ} (h : k ≤ k') :
    utf16Len (t.take k) ≤ utf16Len (t.take k') := by
  rw [Lines.take_drop_append t h, utf16Len_append]
  exact Nat.le_add_right _ _

/-- The first so many code units are those of the first characters. -/
theorem take_encodeUtf16 (t : Text) (k : ℕ) :
    (encodeUtf16 t).take (utf16Len (t.take k)) = encodeUtf16 (t.take k) := by
  have hsplit := encodeUtf16_append (t.take k) (t.drop k)
  rw [List.take_append_drop] at hsplit
  rw [hsplit, List.take_left' (length_encodeUtf16 _)]

theorem drop_encodeUtf16 (t : Text) (k : ℕ) :
    (encodeUtf16 t).drop (utf16Len (t.take k)) = encodeUtf16 (t.drop k) := by
  have hsplit := encodeUtf16_append (t.take k) (t.drop k)
  rw [List.take_append_drop] at hsplit
  rw [hsplit, List.drop_left' (length_encodeUtf16 _)]

/-! ### Places -/

/-- Column `col` of line `i`, both from 0, is the place after `k` characters. -/
structure IsPlace (lines : List Text) (i col k : ℕ) : Prop where
  lt : i < lines.length
  le : k ≤ (Lines.line lines i).length
  col : utf16Len ((Lines.line lines i).take k) = col

/-- A column is at one place. -/
theorem indexOfColumn_eq_ok {col k : ℕ} :
    indexOfColumn t col = .ok k ↔ k ≤ t.length ∧ utf16Len (t.take k) = col := by
  induction t generalizing col k with
  | nil =>
    rw [indexOfColumn]
    split <;> simp_all [eq_comm]
  | cons c t ih =>
    have hpos := utf16Width_pos c
    rw [indexOfColumn]
    split
    · rename_i hcol
      subst hcol
      cases k with
      | zero => simp
      | succ k =>
        rw [List.take_succ_cons, utf16Len_cons]
        simp
        omega
    · rename_i hcol
      cases k with
      | zero =>
        rw [List.take_zero, utf16Len_nil]
        split
        · simp [Ne.symm hcol]
        · cases indexOfColumn t (col - utf16Width c) <;> simp [Except.map, Ne.symm hcol]
      | succ k =>
        rw [List.take_succ_cons, utf16Len_cons, List.length_cons]
        split
        · simp
          omega
        · have hiff := @ih (col - utf16Width c) k
          rw [show (utf16Width c + utf16Len (t.take k) = col) ↔
            utf16Len (t.take k) = col - utf16Width c by omega, Nat.succ_le_succ_iff, ← hiff]
          cases indexOfColumn t (col - utf16Width c) <;> simp [Except.map]

namespace IsPlace

variable {lines : List Text} {i col k i' col' k' : ℕ}

/-- Columns come in the order of their places. -/
theorem placeLE_iff (h : IsPlace lines i col k) (h' : IsPlace lines i' col' k') :
    Lines.PlaceLE i k i' k' ↔ toLex (i, col) ≤ (toLex (i', col') : ℕ ×ₗ ℕ) := by
  rw [Prod.Lex.toLex_le_toLex, Lines.PlaceLE]
  refine or_congr_right (and_congr_right fun hi ↦ ?_)
  obtain rfl : i = i' := hi
  rw [← h.col, ← h'.col]
  constructor
  · exact utf16Len_take_le
  · intro hle
    by_contra hlt
    exact hle.not_gt (utf16Len_take_lt (not_le.1 hlt) h.le)

/-- A place that is kept has its column. -/
theorem keeps (h : IsPlace lines i col k) {lines' : List Text}
    (hkeeps : Lines.KeepsPlace lines lines' i k) : IsPlace lines' i col k :=
  ⟨hkeeps.lt, hkeeps.le, by rw [hkeeps.letters, h.col]⟩

end IsPlace

namespace DocumentMirror

variable {m : DocumentMirror} {line column k : ℕ}

/-- A line and a column, both from 1, are the position of this place. -/
structure At (m : DocumentMirror) (line column k : ℕ) : Prop where
  line_pos : 0 < line
  column_pos : 0 < column
  place : IsPlace m.lines (line - 1) (column - 1) k

/-- **What is accepted as a position.** -/
theorem charIndex_eq_ok : m.charIndex line column = .ok k ↔ m.At line column k := by
  rw [charIndex]
  split
  · rename_i hline
    exact ⟨fun h ↦ (by cases h), fun h ↦ absurd hline h.line_pos.ne'⟩
  · rename_i hline
    cases hl : m.lines[line - 1]? with
    | none =>
      refine ⟨fun h ↦ (by cases h), fun h ↦ ?_⟩
      rw [List.getElem?_eq_getElem h.place.lt] at hl
      cases hl
    | some l =>
      have hline' : Lines.line m.lines (line - 1) = l := by rw [Lines.line, hl, Option.getD_some]
      have hlt := (List.getElem?_eq_some_iff.1 hl).1
      dsimp only
      split
      · rename_i hcolumn
        exact ⟨fun h ↦ (by cases h), fun h ↦ absurd hcolumn h.column_pos.ne'⟩
      · rename_i hcolumn
        have hiff : indexOfColumn l (column - 1) = .ok k ↔
            IsPlace m.lines (line - 1) (column - 1) k := by
          rw [indexOfColumn_eq_ok, ← hline']
          exact ⟨fun h ↦ ⟨hlt, h.1, h.2⟩, fun h ↦ ⟨h.le, h.col⟩⟩
        have hat : m.At line column k ↔ indexOfColumn l (column - 1) = .ok k := by
          rw [hiff]
          exact ⟨At.place, fun h ↦ ⟨Nat.pos_of_ne_zero hline, Nat.pos_of_ne_zero hcolumn, h⟩⟩
        rw [hat]
        cases indexOfColumn l (column - 1) with
        | ok i => simp
        | error e => cases e <;> simp

/-- The text before a place. -/
def before (m : DocumentMirror) (i k : ℕ) : Text := Lines.before '\r' '\n' m.eol m.lines i k

/-- **An offset is the length of the text before it.** -/
theorem offsetAt_eq_ok (h : m.At line column k) :
    m.offsetAt line column = .ok (utf16Len (m.before (line - 1) k)) := by
  rw [offsetAt, charIndex_eq_ok.2 h]
  have hsum : ∀ ls : List Text, utf16Len (ls.flatMap (· ++ m.eol.spell '\r' '\n')) =
      (ls.map fun l ↦ utf16Len l + utf16Len (m.eol.spell '\r' '\n')).sum := by
    intro ls
    induction ls with
    | nil => rfl
    | cons l ls ih =>
      rw [List.flatMap_cons, utf16Len_append, utf16Len_append, ih, List.map_cons, List.sum_cons]
  rw [before, Lines.before, utf16Len_append, hsum, h.place.col, ← Nat.add_sub_assoc h.column_pos]
  rfl

/-- Positions come in the order of their places. -/
theorem At.placeLE_iff {line' column' k' : ℕ} (h : m.At line column k) (h' : m.At line' column' k') :
    Lines.PlaceLE (line - 1) k (line' - 1) k' ↔
      toLex (line, column) ≤ (toLex (line', column') : ℕ ×ₗ ℕ) := by
  have hpos := h.line_pos
  have hpos' := h'.line_pos
  have hcol := h.column_pos
  have hcol' := h'.column_pos
  rw [h.place.placeLE_iff h'.place, Prod.Lex.toLex_le_toLex, Prod.Lex.toLex_le_toLex]
  omega

/-- A range lies between two places. -/
structure HasRange (m : DocumentMirror) (r : Range) (sk ek : ℕ) : Prop where
  start : m.At r.startLineNumber r.startColumn sk
  stop : m.At r.endLineNumber r.endColumn ek
  le : r.start ≤ r.end_

/-- **Valid ranges** lie between two places. -/
theorem rangeIsValid_eq_ok {r : Range} :
    m.rangeIsValid r = .ok () ↔ ∃ sk ek, m.HasRange r sk ek := by
  rw [rangeIsValid]
  split
  · rename_i hlt
    exact ⟨fun h ↦ (by cases h), fun ⟨_, _, h⟩ ↦ absurd h.le hlt.not_ge⟩
  · rename_i hle
    cases hstart : m.charIndex r.startLineNumber r.startColumn with
    | error err =>
      refine ⟨fun h ↦ (by cases h), fun ⟨sk, _, h⟩ ↦ ?_⟩
      rw [charIndex_eq_ok.2 h.start] at hstart
      cases hstart
    | ok sk =>
      cases hstop : m.charIndex r.endLineNumber r.endColumn with
      | error err =>
        refine ⟨fun h ↦ (by cases h), fun ⟨_, ek, h⟩ ↦ ?_⟩
        rw [charIndex_eq_ok.2 h.stop] at hstop
        cases hstop
      | ok ek =>
        exact ⟨fun _ ↦ ⟨sk, ek, charIndex_eq_ok.1 hstart, charIndex_eq_ok.1 hstop, not_lt.1 hle⟩,
          fun _ ↦ rfl⟩

namespace HasRange

variable {r : Range} {sk ek : ℕ}

/-- **An edit is a replacement between its places.** -/
theorem applyOne (h : m.HasRange r sk ek) (text : Text) :
    ∃ m', m.applyOne r text = .ok (m', ⟨r, utf16Len (m.before (r.startLineNumber - 1) sk),
        utf16Len (m.before (r.endLineNumber - 1) ek) - utf16Len (m.before (r.startLineNumber - 1) sk),
        joinLines m.eol (splitLines text)⟩) ∧
      m'.lines = Lines.splice m.lines (r.startLineNumber - 1) sk (r.endLineNumber - 1) ek
        (splitLines text) ∧ m'.eol = m.eol ∧ m'.version = m.version ∧ m'.dirty = m.dirty := by
  refine ⟨{ m with
    lines := spliceLines m.lines (r.startLineNumber - 1) sk (r.endLineNumber - 1) ek (splitLines text)
    valid := validLines_splice m.valid (validLines_splitLines text) _ _ _ _ },
    ?_, rfl, rfl, rfl, rfl⟩
  rw [DocumentMirror.applyOne, offsetAt_eq_ok h.start, offsetAt_eq_ok h.stop,
    charIndex_eq_ok.2 h.start, charIndex_eq_ok.2 h.stop]
  rfl

end HasRange

end DocumentMirror

end Ember.EditorConn
