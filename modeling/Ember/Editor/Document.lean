import Ember.Editor.Coords

/-!
# An open document

Widget versions and extension-host versions of one document, its mirror, and what is known of the
file on disk. The widget counts its changes from 0 at every text it is given; the extension host is
sent `extBase` plus that count, so the versions it sees never go back.
-/

namespace Ember.Editor

open EditorConn

/-- `BOM`. -/
def BOM : Char := '\ufeff'

/-- `DocError`. -/
inductive DocError
  | notUtf8
  | versionGap (expected got : ℕ)
  | badChange (what : String)
  deriving DecidableEq, Repr

/-- How an error reads. -/
def DocError.message : DocError → String
  | notUtf8 => "file is not UTF-8"
  | versionGap expected got => "widget version " ++ toString got ++ ", expected " ++ toString expected
  | badChange what => "change does not fit the document: " ++ what

/-- `decode`: the text of a file and whether a BOM came off it. -/
def decode (bytes : ByteArray) : Except DocError (Text × Bool) :=
  match String.fromUTF8? bytes with
  | none => .error .notUtf8
  | some s =>
    match s.toList with
    | c :: rest => .ok (if c = BOM then (rest, true) else (c :: rest, false))
    | [] => .ok ([], false)

/-- The UTF-8 bytes of a text. -/
def encode (text : Text) : ByteArray := (String.ofList text).toUTF8

/-- `OpenDocument`. -/
structure OpenDocument where
  uri : UriComponents
  languageId : String
  /-- `ITextEditorAddData.id` of the one editor that shows the document. -/
  editorId : String
  mirror : DocumentMirror
  generation : ℕ
  widgetVersion : ℕ
  extBase : ℕ
  bom : Bool
  /-- The file content as last read or written, in mirror form. -/
  diskText : Text
  /-- Where the cursor probably is: the end of the last change. -/
  cursor : Option WidgetPos
  tabSize : ℕ
  insertSpaces : Bool

/-- A text in mirror form: its line breaks made those of its first one. -/
def mirrorText (text : Text) : Text := joinLines (detectEol text) (splitLines text)

namespace OpenDocument

/-- `OpenDocument::ext_version`: the extension host's current version. -/
def extVersion (d : OpenDocument) : ℕ := d.extBase + d.widgetVersion

/-- `OpenDocument::is_dirty`. -/
def isDirty (d : OpenDocument) : Bool := d.mirror.dirty

/-- `OpenDocument::lines`. -/
def lines (d : OpenDocument) : List Text := d.mirror.lines

/-- `OpenDocument::line`. -/
def line (d : OpenDocument) (line : ℕ) : Option Text := d.lines[line]?

/-- `OpenDocument::widget_text`: the text as the widget holds it. -/
def widgetText (d : OpenDocument) : Text := joinLines .lf d.lines

/-- `OpenDocument::save_bytes`. -/
def saveBytes (d : OpenDocument) : ByteArray :=
  encode (if d.bom then BOM :: d.mirror.text else d.mirror.text)

/-- `OpenDocument::add_calls`: announce the document and its editor. -/
def addCalls (d : OpenDocument) : List Call :=
  let editor : TextEditorAddData := ⟨d.editorId, d.uri, ⟨d.tabSize, d.insertSpaces⟩, [⟨1, 1, 1, 1⟩],
    [d.mirror.fullRange], some 0⟩
  [.activateByEvent ("onLanguage:" ++ d.languageId),
    .acceptDocumentsAndEditorsDelta {
      addedDocuments := [d.mirror.addedData]
      addedEditors := [editor]
      newActiveEditor := some (some d.editorId) }]

/-- `OpenDocument::remove_call`: remove the document and its editor. -/
def removeCall (d : OpenDocument) : Call :=
  .acceptDocumentsAndEditorsDelta { removedDocuments := [d.uri], removedEditors := [d.editorId] }

/-- `OpenDocument::focus_call`. -/
def focusCall (d : OpenDocument) : Call :=
  .acceptDocumentsAndEditorsDelta { newActiveEditor := some (some d.editorId) }

/-- `OpenDocument::open`: the document and the calls that announce it. -/
def open_ (uri : UriComponents) (text : Text) (bom : Bool) (languageId editorId : String)
    (extVersion generation tabSize : ℕ) (insertSpaces : Bool) : OpenDocument × List Call :=
  let mirror := (DocumentMirror.new uri text languageId).withVersion extVersion
  let doc : OpenDocument := ⟨uri, languageId, editorId, mirror, generation, 0, extVersion, bom,
    mirror.text, none, tabSize, insertSpaces⟩
  (doc, doc.addCalls)

/-- `OpenDocument::apply_widget_change`: one `CodeChanged`, and the call that reports it. -/
def applyWidgetChange (d : OpenDocument) (version : ℕ) (range : WidgetRange) (text : Text) :
    OpenDocument × Except DocError Call :=
  let expected := wrap32 (d.widgetVersion + 1)
  if version ≠ expected then (d, .error (.versionGap expected version))
  else
    let (mirror, result) := d.mirror.apply
      ⟨[⟨range.toExthost, text⟩], .normal, some (d.extBase + version)⟩
    match result with
    | .error err => ({ d with mirror }, .error (.badChange err))
    | .ok ev =>
      ({ d with mirror, widgetVersion := version, cursor := some (endOfInsert range.start text) },
        .ok (.acceptModelChanged d.uri ev mirror.dirty))

/-- `OpenDocument::reset`: replace the whole content, one version on. -/
def reset (d : OpenDocument) (text : Text) (bom : Bool) (generation : ℕ) :
    OpenDocument × List Call :=
  let next := d.extVersion + 1
  let mirror := (DocumentMirror.new d.uri text d.languageId).withVersion next
  let doc := { d with
    mirror, generation, bom
    extBase := next
    widgetVersion := 0
    diskText := mirror.text
    cursor := none }
  (doc, d.removeCall :: doc.addCalls)

/-- `OpenDocument::matches_disk`. -/
def matchesDisk (d : OpenDocument) (text : Text) : Bool := mirrorText text == d.diskText

/-- `OpenDocument::matches_buffer`. -/
def matchesBuffer (d : OpenDocument) (text : Text) : Bool := mirrorText text == d.mirror.text

/-- The bytes are what the file holds now. -/
def written (d : OpenDocument) (bytes : ByteArray) : OpenDocument :=
  match decode bytes with
  | .ok (text, _) => { d with diskText := mirrorText text }
  | .error _ => d

/-- `OpenDocument::saved`: a save of the content at extension-host version `savedExtVersion`
completed. -/
def saved (d : OpenDocument) (savedExtVersion : ℕ) (bytes : ByteArray) : OpenDocument × List Call :=
  let d := d.written bytes
  if savedExtVersion = d.extVersion then
    ({ d with mirror := d.mirror.markSaved }, [.acceptModelSaved d.uri])
  else (d, [.acceptModelSaved d.uri, .acceptDirtyStateChanged d.uri true])

variable {d : OpenDocument}

/-- **A change the widget reports either fits or leaves the document alone.** -/
theorem applyWidgetChange_cases (d : OpenDocument) (version : ℕ) (range : WidgetRange) (text : Text) :
    (∃ err, d.applyWidgetChange version range text = (d, .error err)) ∨
    ∃ m change, d.mirror.rangeIsValid range.toExthost = .ok () ∧
      d.mirror.version < d.extBase + version ∧
      d.mirror.applyOne range.toExthost text = .ok (m, change) ∧
      d.applyWidgetChange version range text =
        ({ d with
          mirror := { m with version := d.extBase + version, dirty := true }
          widgetVersion := version
          cursor := some (endOfInsert range.start text) },
        .ok (.acceptModelChanged d.uri
          ⟨[change], m.eol, d.extBase + version, false, false, false, false⟩ true)) := by
  simp only [applyWidgetChange]
  split
  · exact .inl ⟨_, rfl⟩
  · rcases d.mirror.apply_cases range.toExthost text (d.extBase + version) with
      ⟨err, h⟩ | ⟨m, change, hvalid, hversion, hone, h⟩
    · exact .inl ⟨.badChange err, by rw [h]⟩
    · exact .inr ⟨m, change, hvalid, hversion, hone, by rw [h]⟩

/-- What the file holds is all that a finished write tells. -/
theorem written_eq (d : OpenDocument) (bytes : ByteArray) :
    ∃ diskText, d.written bytes = { d with diskText } := by
  rw [written]
  split
  · exact ⟨_, rfl⟩
  · exact ⟨d.diskText, rfl⟩

/-- **A finished save tells the document what the file holds**, and that it is clean if nothing changed
since. -/
theorem saved_cases (d : OpenDocument) (savedExtVersion : ℕ) (bytes : ByteArray) :
    ∃ diskText, (savedExtVersion = d.extVersion ∧
        (d.saved savedExtVersion bytes).1 = { d with diskText, mirror := d.mirror.markSaved }) ∨
      (savedExtVersion ≠ d.extVersion ∧ (d.saved savedExtVersion bytes).1 = { d with diskText }) := by
  obtain ⟨diskText, h⟩ := d.written_eq bytes
  refine ⟨diskText, ?_⟩
  simp only [saved, h]
  split
  · exact .inl ⟨‹_›, rfl⟩
  · exact .inr ⟨‹_›, rfl⟩

end OpenDocument

end Ember.Editor
