import Ember.Editor.Coords
import Std.Data.ExtTreeMap.Lemmas

/-!
# The widget contract and decoration ids

What passes between the session and a `CodeEditor` node, and the ids the widget reports clicks by.
An id carries the bridge that owns it in its top byte, and is the same for the same content until
its document is forgotten.
-/

namespace Ember.Editor

open EditorConn

/-- `Severity`, by its wire number. -/
inductive Severity
  | error
  | warning
  | information
  | hint
  deriving DecidableEq, Repr

/-- `Severity::from_marker`. -/
def Severity.fromMarker (sev : ℕ) : Severity :=
  if sev = 8 then .error else if sev = 4 then .warning else if sev = 2 then .information else .hint

/-- The wire number. -/
def Severity.wire : Severity → ℕ
  | .error => 1
  | .warning => 2
  | .information => 3
  | .hint => 4

/-- `DecorationKind`. -/
inductive DecorationKind
  | underline
  | codeLens
  | hoverAnchor
  | ghostText
  deriving DecidableEq, Repr

/-- The wire number. -/
def DecorationKind.wire : DecorationKind → ℕ
  | .underline => 1
  | .codeLens => 2
  | .hoverAnchor => 3
  | .ghostText => 4

/-- `Decoration`; its color is always 0. -/
structure Decoration where
  id : ℕ
  version : ℕ
  kind : DecorationKind
  severity : Option Severity
  range : WidgetRange
  text : Text
  deriving DecidableEq, Repr

/-- `HoverPhase`. -/
inductive HoverPhase
  | rest
  | leave
  deriving DecidableEq, Repr

/-- `WidgetEvent`. -/
inductive WidgetEvent
  | codeChanged (version : ℕ) (range : WidgetRange) (text : Text)
  | codeEditRejected (requestId baseVersion currentVersion : ℕ) (range : WidgetRange)
  | codeHovered (decoration : ℕ) (pos : WidgetPos) (phase : HoverPhase)
  | codeSaveRequested (version : ℕ)
  | decorationActivated (decoration : ℕ)
  deriving DecidableEq, Repr

/-- `WidgetCommand`. -/
inductive WidgetCommand
  | setText (generation : ℕ) (text : Text)
  | editCode (requestId baseVersion : ℕ) (range : WidgetRange) (text : Text)
  deriving DecidableEq, Repr

/-! ### Decoration ids -/

/-- `IdSpace`: which bridge owns an id. -/
inductive IdSpace
  | diagnostic
  | codeLens
  | hoverAnchor
  | ghostText
  deriving DecidableEq, Repr

/-- The top byte of a space's ids. -/
def IdSpace.toNat : IdSpace → ℕ
  | .diagnostic => 1
  | .codeLens => 2
  | .hoverAnchor => 3
  | .ghostText => 4

/-- `IdSpace::from_u8`. -/
def IdSpace.fromU8 (v : ℕ) : Option IdSpace :=
  if v = 1 then some .diagnostic
  else if v = 2 then some .codeLens
  else if v = 3 then some .hoverAnchor
  else if v = 4 then some .ghostText
  else none

/-- What an id is asked for by. -/
structure IdKey where
  space : IdSpace
  doc : String
  key : String
  deriving DecidableEq, Repr

/-- `DecorationIds`. -/
structure DecorationIds where
  next : ℕ
  byKey : List (IdKey × ℕ)
  deriving DecidableEq, Repr

namespace DecorationIds

/-- `DecorationIds::new`. -/
def new : DecorationIds := ⟨0, []⟩

/-- `DecorationIds::id`. -/
def id (ids : DecorationIds) (space : IdSpace) (doc key : String) : ℕ × DecorationIds :=
  let k : IdKey := ⟨space, doc, key⟩
  match ids.byKey.lookup k with
  | some id => (id, ids)
  | none =>
    let next := ids.next + 1
    let id := space.toNat * 2 ^ 56 + next % 2 ^ 56
    (id, ⟨next, (k, id) :: ids.byKey⟩)

/-- `DecorationIds::space_of`. -/
def spaceOf (id : ℕ) : Option IdSpace := if id = 0 then none else IdSpace.fromU8 (id / 2 ^ 56 % 256)

/-- `DecorationIds::forget_document`. -/
def forgetDocument (ids : DecorationIds) (doc : String) : DecorationIds :=
  { ids with byKey := ids.byKey.filter fun p ↦ p.1.doc != doc }

/-- `DecorationIds::retain`. -/
def retain (ids : DecorationIds) (space : IdSpace) (doc : String) (live : List ℕ) : DecorationIds :=
  { ids with byKey := ids.byKey.filter fun p ↦
      p.1.space != space || p.1.doc != doc || live.contains p.2 }

end DecorationIds

/-- How decorations are sorted: by range, then by kind, then by id. -/
def Decoration.le (a b : Decoration) : Prop :=
  a.range.order < b.range.order ∨ (a.range.order = b.range.order ∧
    (a.kind.wire < b.kind.wire ∨ (a.kind.wire = b.kind.wire ∧ a.id ≤ b.id)))

instance : DecidableRel Decoration.le := fun _ _ ↦ inferInstanceAs (Decidable (_ ∨ _))

/-- Decorations in the order the widget gets them. -/
def sortDecorations (ds : List Decoration) : List Decoration := ds.insertionSort Decoration.le

end Ember.Editor
