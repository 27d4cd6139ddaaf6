import Ember.EditorConn.Document
import Mathlib.Order.Basic

/-!
# Coordinates

The widget counts lines and columns from 0, the extension host from 1; both count columns in UTF-16
code units, so converting is a shift by one on both axes. Positions are compared by line, then by
column.
-/

namespace Ember.Editor

open EditorConn

/-- A widget position: line and UTF-16 column, from 0. -/
structure WidgetPos where
  line : ℕ
  col : ℕ
  deriving DecidableEq, Repr

namespace WidgetPos

/-- By line, then by column. -/
def order (p : WidgetPos) : ℕ ×ₗ ℕ := toLex (p.line, p.col)

instance : LE WidgetPos := ⟨fun p q ↦ p.order ≤ q.order⟩

instance : LT WidgetPos := ⟨fun p q ↦ p.order < q.order⟩

instance (p q : WidgetPos) : Decidable (p ≤ q) := inferInstanceAs (Decidable (p.order ≤ q.order))

instance (p q : WidgetPos) : Decidable (p < q) := inferInstanceAs (Decidable (p.order < q.order))

/-- `WidgetPos::to_exthost`. -/
def toExthost (p : WidgetPos) : Position := ⟨wrap32 (p.line + 1), wrap32 (p.col + 1)⟩

end WidgetPos

/-- A widget range, end exclusive. -/
structure WidgetRange where
  start : WidgetPos
  end_ : WidgetPos
  deriving DecidableEq, Repr

namespace WidgetRange

/-- `WidgetRange::new`: reversed ends are swapped. -/
def new (start end_ : WidgetPos) : WidgetRange :=
  if end_ < start then ⟨end_, start⟩ else ⟨start, end_⟩

/-- `WidgetRange::empty`. -/
def empty (at_ : WidgetPos) : WidgetRange := ⟨at_, at_⟩

/-- `WidgetRange::is_empty`. -/
def isEmpty (r : WidgetRange) : Bool := r.start == r.end_

/-- `WidgetRange::contains`: both ends count. -/
def contains (r : WidgetRange) (pos : WidgetPos) : Bool :=
  decide (r.start ≤ pos) && decide (pos ≤ r.end_)

/-- `WidgetRange::to_exthost`. -/
def toExthost (r : WidgetRange) : Range :=
  ⟨wrap32 (r.start.line + 1), wrap32 (r.start.col + 1), wrap32 (r.end_.line + 1),
    wrap32 (r.end_.col + 1)⟩

/-- `WidgetRange::from_exthost`: a line or column 0 counts as the first. -/
def fromExthost (r : Range) : WidgetRange :=
  new ⟨r.startLineNumber - 1, r.startColumn - 1⟩ ⟨r.endLineNumber - 1, r.endColumn - 1⟩

/-- How ranges are ordered: by start, then by end. -/
def order (r : WidgetRange) : (ℕ ×ₗ ℕ) ×ₗ (ℕ ×ₗ ℕ) := toLex (r.start.order, r.end_.order)

end WidgetRange

/-- `utf16_to_byte`, as a character index. -/
def utf16ToIndex (line : Text) (col : ℕ) : Option ℕ := (indexOfColumn line col).toOption

/-- `clamp_col`: off the middle of a surrogate pair to its start. -/
def clampCol : Text → ℕ → ℕ
  | [], _ => 0
  | c :: cs, col => if utf16Width c > col then 0 else utf16Width c + clampCol cs (col - utf16Width c)

/-- The clamp of `clamp_range`. -/
def clampPos (lines : List Text) (p : WidgetPos) : WidgetPos :=
  if lines.isEmpty then ⟨0, 0⟩
  else
    let line := min p.line (lines.length - 1)
    ⟨line, clampCol ((lines[line]?).getD []) p.col⟩

/-- `clamp_range`: a range moved into the document. -/
def clampRange (lines : List Text) (r : WidgetRange) : WidgetRange :=
  .new (clampPos lines r.start) (clampPos lines r.end_)

/-- `end_of_insert`: the position just after `text` when it is inserted at `start`. -/
def endOfInsert (start : WidgetPos) (text : Text) : WidgetPos :=
  let lines := splitLines text
  let last := lines.getLast?.getD []
  if lines.length ≤ 1 then ⟨start.line, start.col + utf16Len last⟩
  else ⟨start.line + (lines.length - 1), utf16Len last⟩

/-- `shift_after`: a position at or after the end of an edit, moved through it. -/
def shiftAfter (pos : WidgetPos) (edit : WidgetRange) (insEnd : WidgetPos) : WidgetPos :=
  if pos.line = edit.end_.line then ⟨insEnd.line, insEnd.col + (pos.col - edit.end_.col)⟩
  else ⟨pos.line + insEnd.line - edit.end_.line, pos.col⟩

/-- `transform_range`: a decoration range carried through an edit; `none` when the edit removed
it. -/
def transformRange (r edit : WidgetRange) (text : Text) : Option WidgetRange :=
  let insEnd := endOfInsert edit.start text
  if r.end_ < edit.start ∨ (r.end_ = edit.start ∧ ¬(r.isEmpty ∧ edit.isEmpty)) then some r
  else if edit.end_ ≤ r.start then
    some ⟨shiftAfter r.start edit insEnd, shiftAfter r.end_ edit insEnd⟩
  else if r.isEmpty = false ∧ edit.start ≤ r.start ∧ r.end_ ≤ edit.end_ then none
  else
    let start := if r.start < edit.start then r.start else insEnd
    let end_ := if edit.end_ < r.end_ then shiftAfter r.end_ edit insEnd else insEnd
    let out := WidgetRange.new start end_
    if out.isEmpty ∧ r.isEmpty = false then none else some out

end Ember.Editor
