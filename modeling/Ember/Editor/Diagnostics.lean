import Ember.Editor.Widget

/-!
# Diagnostics

The markers the extension host reports, by document and owner, in widget coordinates. Between
reports an edit moves them as the widget moves the squiggles it draws.
-/

namespace Ember.Editor

open EditorConn

/-- `TrackedMarker`. -/
structure TrackedMarker where
  marker : MarkerData
  range : WidgetRange
  deriving DecidableEq, Repr

/-- `HoverDiagnostic`: what a hover shows for a diagnostic under the pointer. -/
structure HoverDiagnostic where
  owner : String
  severity : Severity
  message : String
  source : Option String
  code : Option String
  deriving DecidableEq, Repr

/-- `Diagnostics`: document key to owner to markers. -/
structure Diagnostics where
  byDoc : Std.ExtTreeMap String (Std.ExtTreeMap String (List TrackedMarker))

namespace Diagnostics

/-- `Diagnostics::new`. -/
def new : Diagnostics := ⟨∅⟩

/-- Put the owners of a document back; a document without any is dropped. -/
def setOwners (d : Diagnostics) (key : String)
    (owners : Std.ExtTreeMap String (List TrackedMarker)) : Diagnostics :=
  ⟨if owners.isEmpty then d.byDoc.erase key else d.byDoc.insert key owners⟩

/-- A marker as it is tracked. -/
def track (m : MarkerData) : TrackedMarker :=
  ⟨m, .fromExthost ⟨m.startLineNumber, m.startColumn, m.endLineNumber, m.endColumn⟩⟩

/-- `Diagnostics::change_many`, and the keys whose markers changed. -/
def changeMany (d : Diagnostics) (owner : String)
    (entries : List (UriComponents × Option (List MarkerData))) : Diagnostics × List String :=
  (entries.foldl (fun d entry ↦
    let owners := (d.byDoc[entry.1.key]?).getD ∅
    d.setOwners entry.1.key (match entry.2 with
      | some (m :: ms) => owners.insert owner ((m :: ms).map track)
      | _ => owners.erase owner)) d, entries.map fun entry ↦ entry.1.key)

/-- `Diagnostics::clear`, and the keys that had markers from `owner`. -/
def clear (d : Diagnostics) (owner : String) : Diagnostics × List String :=
  (⟨(d.byDoc.map fun _ owners ↦ owners.erase owner).filter fun _ owners ↦ !owners.isEmpty⟩,
    (d.byDoc.toList.filter fun p ↦ p.2.contains owner).map Prod.fst)

/-- `Diagnostics::on_edit`. -/
def onEdit (d : Diagnostics) (doc : String) (edit : WidgetRange) (text : Text) : Diagnostics :=
  match d.byDoc[doc]? with
  | none => d
  | some owners => ⟨d.byDoc.insert doc (owners.map fun _ markers ↦ markers.filterMap fun t ↦
      (transformRange t.range edit text).map fun range ↦ { t with range })⟩

/-- `Diagnostics::markers`: every marker of a document with its owner, owners in name order. -/
def markers (d : Diagnostics) (doc : String) : List (String × TrackedMarker) :=
  ((d.byDoc[doc]?).getD ∅).toList.flatMap fun p ↦ p.2.map fun m ↦ (p.1, m)

/-- An empty range widened to the next character, or at the end of a line to the last one. -/
def widen (lines : List Text) (range : WidgetRange) : WidgetRange :=
  if range.isEmpty then
    match lines[range.start.line]? with
    | none => range
    | some line =>
      let len := utf16Len line
      if range.start.col < len then
        let next := (utf16ToIndex line range.start.col).bind fun i ↦ (line)[i]?
        let width := (next.map utf16Width).getD 1
        { range with end_ := ⟨range.start.line, min (range.start.col + width) len⟩ }
      else if 0 < range.start.col then
        { range with start := { range.start with col := clampCol line (range.start.col - 1) } }
      else range
  else range

/-- `Diagnostics::decorations`: the underlines of a document, and the ids after it. -/
def decorations (d : Diagnostics) (doc : String) (version : ℕ) (lines : List Text)
    (ids : DecorationIds) : DecorationIds × List Decoration :=
  let (_, ids, out) := (d.markers doc).foldl (fun acc p ↦
    let (seen, ids, out) := acc
    let m := p.2.marker
    let base := p.1 ++ "|" ++ toString m.severity ++ "|" ++ m.source.getD "" ++ "|" ++
      m.code.getD "" ++ "|" ++ m.message
    let n := seen.count base
    let (id, ids) := ids.id .diagnostic doc (base ++ "|" ++ toString n)
    (base :: seen, ids, out ++ [⟨id, version, .underline, some (.fromMarker m.severity),
      widen lines (clampRange lines p.2.range), []⟩]))
    (([] : List String), ids, ([] : List Decoration))
  (ids.retain .diagnostic doc (out.map (·.id)), sortDecorations out)

/-- `Diagnostics::at`: the diagnostics under a position, most severe first. -/
def at_ (d : Diagnostics) (doc : String) (pos : WidgetPos) : List HoverDiagnostic :=
  (((d.markers doc).filter fun p ↦ p.2.range.contains pos).map fun p ↦
    ⟨p.1, .fromMarker p.2.marker.severity, p.2.marker.message, p.2.marker.source,
      p.2.marker.code⟩).insertionSort fun a b ↦ a.severity.wire ≤ b.severity.wire

end Diagnostics

end Ember.Editor
