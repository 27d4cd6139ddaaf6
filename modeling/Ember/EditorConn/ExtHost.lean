import Ember.Basic
import Ember.Foundation.Lines
import Ember.Json

/-!
# What Ember and the extension host say to each other

The calls Ember makes and the requests it answers, each a constructor with the data it carries. How
a call is laid out as positional JSON arguments is left out, and a request arrives as
`MainThreadCall::parse` decoded it.

The text of a document is a list of characters, so that lines and columns can be counted.
-/

namespace Ember.EditorConn

/-- The text of a document, or of one of its lines. -/
abbrev Text := List Char

/-- `UriComponents`. -/
structure UriComponents where
  scheme : String
  authority : String
  path : String
  query : String
  fragment : String
  deriving DecidableEq, Repr

/-- `UriComponents::key`: a string key, for maps inside Ember. -/
def UriComponents.key (u : UriComponents) : String :=
  u.scheme ++ "://" ++ u.authority ++ u.path ++ (if u.query = "" then "" else "?" ++ u.query) ++
    (if u.fragment = "" then "" else "#" ++ u.fragment)

/-- `IPosition`. -/
structure Position where
  lineNumber : ℕ
  column : ℕ
  deriving DecidableEq, Repr

/-- `IRange`: lines from 1, columns from 1 in UTF-16 code units. -/
structure Range where
  startLineNumber : ℕ
  startColumn : ℕ
  endLineNumber : ℕ
  endColumn : ℕ
  deriving DecidableEq, Repr

/-- Reading a `u32`. -/
def u32OfJson (v : Value) : Option ℕ := v.asU64.filter (· < 2 ^ 32)

/-- Reading a `Range`: an object with the four fields, or an array of them. -/
def Range.ofJson (v : Value) : Option Range :=
  match v with
  | .arr [a, b, c, d] => do
    some ⟨← u32OfJson a, ← u32OfJson b, ← u32OfJson c, ← u32OfJson d⟩
  | _ => do
    some ⟨← (v.get "startLineNumber").bind u32OfJson, ← (v.get "startColumn").bind u32OfJson,
      ← (v.get "endLineNumber").bind u32OfJson, ← (v.get "endColumn").bind u32OfJson⟩

/-- `ISelection`. -/
structure Selection where
  selectionStartLineNumber : ℕ
  selectionStartColumn : ℕ
  positionLineNumber : ℕ
  positionColumn : ℕ
  deriving DecidableEq, Repr

/-- `IModelAddedData`. -/
structure ModelAddedData where
  uri : UriComponents
  versionId : ℕ
  lines : List Text
  eol : Lines.Break
  languageId : String
  isDirty : Bool
  encoding : String
  deriving DecidableEq, Repr

/-- `default_editor_options`: the two settings that are not constants. -/
structure EditorOptions where
  tabSize : ℕ
  insertSpaces : Bool
  deriving DecidableEq, Repr

/-- `ITextEditorAddData`. -/
structure TextEditorAddData where
  id : String
  documentUri : UriComponents
  options : EditorOptions
  selections : List Selection
  visibleRanges : List Range
  editorPosition : Option ℤ
  deriving DecidableEq, Repr

/-- `IDocumentsAndEditorsDelta`. `newActiveEditor := some none` would clear the active editor. -/
structure DocumentsAndEditorsDelta where
  removedDocuments : List UriComponents := []
  addedDocuments : List ModelAddedData := []
  removedEditors : List String := []
  addedEditors : List TextEditorAddData := []
  newActiveEditor : Option (Option String) := none
  deriving DecidableEq, Repr

/-- `IModelContentChange`. -/
structure ModelContentChange where
  range : Range
  rangeOffset : ℕ
  rangeLength : ℕ
  text : Text
  deriving DecidableEq, Repr

/-- `ISerializedModelContentChangedEvent`. -/
structure ModelContentChangedEvent where
  changes : List ModelContentChange
  eol : Lines.Break
  versionId : ℕ
  isUndoing : Bool
  isRedoing : Bool
  isFlush : Bool
  isEolChange : Bool
  deriving DecidableEq, Repr

/-- `InlineCompletionEndOfLifeReason`. -/
inductive EndReason
  | accepted
  | rejected
  | ignored (userTypingDisagreed : Bool)
  deriving DecidableEq, Repr

/-- One tab of the model `$acceptEditorTabModel` carries. -/
structure EditorTab where
  id : String
  label : String
  uri : UriComponents
  isActive : Bool
  isDirty : Bool
  deriving DecidableEq, Repr

/-- `Call`: what Ember calls in the extension host. -/
inductive Call
  | acceptEditorTabModel (tabs : List EditorTab)
  | activateByEvent (event : String)
  | acceptDocumentsAndEditorsDelta (delta : DocumentsAndEditorsDelta)
  | acceptModelChanged (uri : UriComponents) (event : ModelContentChangedEvent) (isDirty : Bool)
  | acceptModelSaved (uri : UriComponents)
  | acceptDirtyStateChanged (uri : UriComponents) (isDirty : Bool)
  | provideHover (handle : ℤ) (uri : UriComponents) (pos : Position)
  | provideCodeLenses (handle : ℤ) (uri : UriComponents)
  | resolveCodeLens (handle : ℤ) (lens : Value)
  | releaseCodeLenses (handle cacheId : ℤ)
  /-- The request's uuid and its two times are left out. -/
  | provideInlineCompletions (handle : ℤ) (uri : UriComponents) (pos : Position) (explicit : Bool)
  | handleInlineCompletionDidShow (handle pid idx : ℤ) (updatedInsertText : Text)
  | handleInlineCompletionEndOfLifetime (handle pid idx : ℤ) (reason : EndReason)
  | freeInlineCompletionsList (handle pid : ℤ) (kind : String)
  | executeContributedCommand (id : String) (args : List Value)
  deriving Repr

/-- `IMarkerData`, with `code` as `code_string` reads it. -/
structure MarkerData where
  code : Option String
  severity : ℕ
  message : String
  source : Option String
  startLineNumber : ℕ
  startColumn : ℕ
  endLineNumber : ℕ
  endColumn : ℕ
  deriving DecidableEq, Repr

/-- `IDocumentFilterDto`. -/
structure DocumentFilter where
  language : Option String
  scheme : Option String
  pattern : Option Value
  notebookType : Option String
  deriving Repr

/-- `MainThreadCall`: what the extension host asks of Ember. -/
inductive MainThreadCall
  | diagnosticsChangeMany (owner : String)
      (entries : List (UriComponents × Option (List MarkerData)))
  | diagnosticsClear (owner : String)
  | registerHoverProvider (handle : ℤ) (selector : List DocumentFilter)
  | registerCodeLensSupport (handle : ℤ) (selector : List DocumentFilter) (eventHandle : Option ℤ)
  | emitCodeLensEvent (eventHandle : ℤ)
  | registerInlineCompletionsSupport (handle : ℤ) (selector : List DocumentFilter)
      (extensionId : String) (raw : List Value)
  | emitInlineCompletionsChange (handle : ℤ)
  | unregister (handle : ℤ)
  | registerCommand (id : String)
  | unregisterCommand (id : String)
  | executeCommand (id : String) (args : Value)
  | other (proxy : Option String) (method : String)
  deriving Repr

/-- `IncomingRequest`, its arguments decoded. -/
structure IncomingRequest where
  req : ℕ
  proxy : Option String
  method : String
  /-- What `MainThreadCall::parse` answers. -/
  parsed : Except String MainThreadCall
  /-- The first argument read as `UriComponents`. -/
  uri : Option UriComponents

/-- `Reply`, as far as Ember gives one. -/
inductive Reply
  | empty
  | json (v : Value)
  deriving Repr

/-- `default_reply`. -/
def defaultReply (proxy : Option String) (method : String) : Reply :=
  if proxy = some "MainThreadWindow" ∧ method = "$getInitialState" then
    .json (.obj [("isFocused", .bool true), ("isActive", .bool true)])
  else if proxy = some "MainThreadWorkspace" ∧ method = "$checkExists" then .json (.bool false)
  else if proxy = some "MainThreadWorkspace" ∧
      (method = "$isResourceTrusted" ∨ method = "$requestWorkspaceTrust") then .json (.bool true)
  else if proxy = some "MainThreadCommands" ∧ method = "$getCommands" then .json (.arr [])
  else .empty

/-- `js_error`. -/
def jsError (name message : String) : Value :=
  .obj [("$isError", .bool true), ("name", .str name), ("message", .str message), ("stack", .null)]

/-- `UriComponents` as JSON. -/
def UriComponents.toJson (u : UriComponents) : Value :=
  .obj [("$mid", .int 1), ("scheme", .str u.scheme), ("authority", .str u.authority),
    ("path", .str u.path), ("query", .str u.query), ("fragment", .str u.fragment)]

end Ember.EditorConn
