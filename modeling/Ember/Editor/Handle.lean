import Ember.Editor.Engine
import Ember.Foundation.Runs

/-!
# What the session core does with an input

The handlers of widget events, saves, extension-host requests, replies and file results, the timers,
and `handle` and `resync`, which are all a driver calls.
-/

namespace Ember.Editor

open EditorConn

namespace SessionCore

/-! ### Widget events -/

/-- What `on_code_changed` does once the document took the change. -/
def afterChange (s : SessionCore) (key : String) (range : WidgetRange) (text : Text) :
    SessionCore :=
  let s := { s with
    diagnostics := s.diagnostics.onEdit key range text
    lenses := s.lenses.onEdit key range text }
  let (s, shown) := s.endHoverFor key
  let s := if shown.isSome then s.hideHover (some key) else s
  let s := s.inlineAfterChange key range text
  (s.scheduleCodelens key s.opts.codelensDebounce).touch key

/-- `SessionCore::on_code_changed`. -/
def onCodeChanged (s : SessionCore) (key : String) (version : ℕ) (range : WidgetRange)
    (text : Text) : SessionCore :=
  match s.docs[key]? with
  | none => s
  | some doc =>
    let (doc', result) := doc.applyWidgetChange version range text
    let s := s.setDoc key doc'
    match result with
    | .error e => s.ui (.desync doc'.uri e.message)
    | .ok call =>
      let s := s.rpc call
      let s := if doc'.isDirty != doc.isDirty then
        (s.ui (.dirty doc'.uri doc'.isDirty)).sendTabModel else s
      s.afterChange key range text

/-- `SessionCore::on_trigger_inline`. -/
def onTriggerInline (s : SessionCore) (uri : UriComponents) (generation : ℕ) (pos : WidgetPos) :
    SessionCore :=
  let key := uri.key
  match s.docs[key]? with
  | none => s
  | some doc =>
    if doc.generation ≠ generation then s
    else
      let s := s.setDoc key { doc with cursor := some pos }
      s.setInline key ((s.inlineAt key).schedule s.now 0 pos true)

/-- Ask one hover provider after the other. -/
def askHover (s : SessionCore) (key : String) (uri : UriComponents) (pos : WidgetPos) :
    List (ℤ × ℕ) → SessionCore
  | [] => s
  | (handle, order) :: handles =>
    let (s, t) := s.rpcWith (.provideHover handle uri pos.toExthost) (.hover key)
    askHover { s with hover := s.hover.addPending t order } key uri pos handles

/-- `SessionCore::on_hover_rest`. -/
def onHoverRest (s : SessionCore) (key : String) (pos : WidgetPos) : SessionCore :=
  match s.docs[key]? with
  | none => s
  | some doc =>
    let diags := s.diagnostics.at_ key pos
    let handles := (s.registry.matching .hover doc.uri doc.languageId).map (·.handle)
    let (hover, tokens) := s.hover.begin key doc.generation doc.widgetVersion pos diags
    let s := (cancel { s with hover } tokens).askHover key doc.uri pos handles.zipIdx
    let (hover, popup) := s.hover.initial
    match popup with
    | some p => ui { s with hover } (.hover p)
    | none => s

/-- `SessionCore::on_save`. -/
def onSave (s : SessionCore) (key : String) : SessionCore :=
  match s.docs[key]? with
  | none => s
  | some doc =>
    let t := s.nextToken + 1
    push { s with nextToken := t, saves := s.saves.insert t (key, doc.extVersion, doc.saveBytes) }
      (.writeFile doc.uri doc.saveBytes t)

/-- `SessionCore::on_activated`. -/
def onActivated (s : SessionCore) (key : String) (decoration : ℕ) : SessionCore :=
  match DecorationIds.spaceOf decoration with
  | some .codeLens =>
    match s.lenses.commandFor decoration with
    | some (_, cmd) => s.runCommand cmd
    | none => s
  | some .ghostText => s.acceptGhost key decoration
  | _ => s

/-- `SessionCore::on_widget`: an event of an older generation is dropped. -/
def onWidget (s : SessionCore) (uri : UriComponents) (generation : ℕ) (event : WidgetEvent) :
    SessionCore :=
  let key := uri.key
  if s.docs[key]?.map (·.generation) = some generation then
    match event with
    | .codeChanged version range text => s.onCodeChanged key version range text
    | .codeEditRejected _ _ _ _ => s
    | .codeHovered _ pos .rest => s.onHoverRest key pos
    | .codeHovered _ _ .leave => s.endHover
    | .codeSaveRequested _ => s.onSave key
    | .decorationActivated decoration => s.onActivated key decoration
  else s

/-! ### Saves and files -/

/-- `SessionCore::on_file_written`. -/
def onFileWritten (s : SessionCore) (uri : UriComponents) (token : Token)
    (result : Except String Unit) : SessionCore :=
  match s.saves[token]? with
  | none => s
  | some (key, extVersion, bytes) =>
    let s := { s with saves := s.saves.erase token }
    match result with
    | .error error => s.ui (.saveFailed uri error)
    | .ok _ =>
      match s.docs[key]? with
      | none => s
      | some doc =>
        let (doc, calls) := doc.saved extVersion bytes
        let s := (s.setDoc key doc).rpcs calls
        ((s.ui (.saved uri)).ui (.dirty uri doc.isDirty)).sendTabModel

/-- What `reset_doc` does once the document holds the new content. -/
def resetViews (s : SessionCore) (key : String) (doc : OpenDocument) : SessionCore :=
  let s := s.closeLenses key
  let s := if key ∈ s.inline then s.cancelInline key else s
  let s := s.endGhost key (.ignored false)
  let (s, shown) := s.endHoverFor key
  let s := if shown.isSome then s.ui (.hoverHidden doc.uri) else s
  let s := { s with ids := s.ids.forgetDocument key }
  let s := (s.ui (.command doc.uri (.setText doc.generation doc.widgetText))).sendTabModel
  (s.scheduleCodelens key 0).touch key

/-- `SessionCore::reset_doc`: replace a document's content wholesale; `none` keeps the BOM. -/
def resetDoc (s : SessionCore) (key : String) (text : Text) (bom : Option Bool) : SessionCore :=
  let generation := s.nextGeneration + 1
  let s := { s with nextGeneration := generation }
  match s.docs[key]? with
  | none => s
  | some doc =>
    let bom := bom.getD (doc.saveBytes.toList.take 3 == [0xEF, 0xBB, 0xBF])
    let (doc, calls) := doc.reset text bom generation
    ((s.setDoc key doc).rpcs calls).resetViews key doc

/-- The answer of `$tryOpenDocument` for a document the extension host has. -/
def respondUri (s : SessionCore) (req : ℕ) (uri : UriComponents) : SessionCore :=
  s.respond req (.ok (.json uri.toJson))

/-- `SessionCore::on_try_open_document`. -/
def onTryOpenDocument (s : SessionCore) (r : IncomingRequest) : SessionCore :=
  match r.uri with
  | none => s.respond r.req (.error (jsError "Error" "bad uri"))
  | some uri =>
    if uri.key ∈ s.docs ∨ uri.key ∈ s.exthostOnly then s.respondUri r.req uri
    else s.push (.readFile uri (.extHostOpen r.req))

/-- `SessionCore::finish_exthost_open`. -/
def finishExthostOpen (s : SessionCore) (uri : UriComponents) (req : ℕ)
    (result : Except String ByteArray) : SessionCore :=
  let key := uri.key
  if key ∈ s.docs ∨ key ∈ s.exthostOnly then s.respondUri req uri
  else
    match result.bind fun b ↦ (decode b).mapError DocError.message with
    | .error e =>
      s.respond req (.error (jsError "Error" ("cannot open " ++ uri.path ++ ": " ++ e)))
    | .ok (text, _) =>
      let language := s.languages.languageFor uri.path
      let mirror := DocumentMirror.new uri text language
      let s := (s.rpc (.activateByEvent ("onLanguage:" ++ language))).rpc
        (.acceptDocumentsAndEditorsDelta { addedDocuments := [mirror.addedData] })
      respondUri { s with exthostOnly := s.exthostOnly.insert key (uri, mirror.version) } req uri

/-- `SessionCore::on_file_read` of a reload. -/
def onReload (s : SessionCore) (uri : UriComponents) (result : Except String ByteArray) :
    SessionCore :=
  let key := uri.key
  match result, s.docs[key]? with
  | .ok bytes, some doc =>
    match decode bytes with
    | .error _ => s
    | .ok (text, bom) =>
      if doc.matchesDisk text || doc.matchesBuffer text then s
      else if doc.isDirty then s.ui (.externalChange doc.uri .changedWhileDirty)
      else s.resetDoc key text (some bom)
  | _, _ => s

/-- `SessionCore::on_file_read`. -/
def onFileRead (s : SessionCore) (uri : UriComponents) (purpose : ReadPurpose)
    (result : Except String ByteArray) : SessionCore :=
  match purpose with
  | .open_ =>
    let s := { s with opening := s.opening.erase uri.key }
    match result with
    | .ok bytes => s.finishOpen uri bytes
    | .error error => s.ui (.openFailed uri error)
  | .reload => s.onReload uri result
  | .extHostOpen req => s.finishExthostOpen uri req result

/-- One change of `on_files_changed`, matched by path. -/
def onFileChanged (s : SessionCore) (ord : IterOrder) (c : FileChange) : SessionCore :=
  let docs := (ord.docs s.docs.keys).filterMap fun key ↦ s.docs[key]?
  match docs.find? fun d ↦ d.uri.path == c.resource.path with
  | none => s
  | some d =>
    match c.kind with
    | .deleted => s.ui (.externalChange d.uri .deleted)
    | .updated | .added => s.push (.readFile d.uri .reload)

/-- `SessionCore::on_files_changed`. -/
def onFilesChanged (s : SessionCore) (ord : IterOrder) (changes : List FileChange) : SessionCore :=
  changes.foldl (fun s c ↦ s.onFileChanged ord c) s

/-! ### Extension-host requests and replies -/

/-- Drop the ghost of a document if it is of a provider. -/
def dropGhost (s : SessionCore) (handle : ℤ) (key : String) : SessionCore :=
  match s.inline[key]? with
  | some st =>
    if st.ghost.any (·.item.handle == handle) then
      (s.setInline key { st with ghost := none }).touch key
    else s
  | none => s

/-- Drop the ghosts of a provider. -/
def dropGhosts (s : SessionCore) (handle : ℤ) (keys : List String) : SessionCore :=
  keys.foldl (fun s key ↦ s.dropGhost handle key) s

/-- `SessionCore::on_registry_change`. -/
def onRegistryChange (s : SessionCore) (change : RegistryChange) : SessionCore :=
  let keys := s.docs.keys
  match change with
  | .registered _ .codeLens | .codeLensChanged _ =>
    keys.foldl (fun s k ↦ s.scheduleCodelens k s.opts.codelensDebounce) s
  | .unregistered handle .codeLens =>
    keys.foldl touch { s with lenses := s.lenses.removeProvider handle }
  | .unregistered handle .inlineCompletions => s.dropGhosts handle keys
  | .inlineCompletionsChanged _ =>
    if s.opts.inlineCompletions then
      match s.active with
      | none => s
      | some k => s.scheduleInline k
    else s
  | _ => s

/-- The arguments of `$executeCommand` as a list. -/
def argumentList : Value → List Value
  | .arr a => a
  | .null => []
  | other => [other]

/-- `SessionCore::on_exthost_request`. -/
def onExthostRequest (s : SessionCore) (r : IncomingRequest) : SessionCore :=
  let s := { s with replySeq := s.replySeq + 1 }
  match r.parsed with
  | .ok (.diagnosticsChangeMany owner entries) =>
    let (diagnostics, keys) := s.diagnostics.changeMany owner entries
    (keys.foldl touch { s with diagnostics }).respond r.req (.ok .empty)
  | .ok (.diagnosticsClear owner) =>
    let (diagnostics, keys) := s.diagnostics.clear owner
    (keys.foldl touch { s with diagnostics }).respond r.req (.ok .empty)
  | .ok (.executeCommand id args) =>
    let s := if id ≠ "setContext" ∧ s.registry.hasCommand id = false then
      s.ui (.runCommand ⟨id, "", none, argumentList args⟩) else s
    s.respond r.req (.ok .empty)
  | .ok (.other proxy method) =>
    if proxy = some "MainThreadDocuments" ∧ method = "$tryOpenDocument" then s.onTryOpenDocument r
    else s.respond r.req (.ok (sessionReply proxy method s.replySeq s.languages.ids))
  | .ok call =>
    let (registry, change) := s.registry.apply call
    (onRegistryChange { s with registry } change).respond r.req (.ok .empty)
  | .error _ => s.respond r.req (.ok (sessionReply r.proxy r.method s.replySeq s.languages.ids))

/-- `SessionCore::on_rpc_reply`. -/
def onRpcReply (s : SessionCore) (token : Token) (result : Except String Value) : SessionCore :=
  match s.pending[token]? with
  | none => s
  | some p =>
    let s := { s with pending := s.pending.erase token }
    match p with
    | .codeLens doc handle version => s.onCodelensReply token doc handle version result
    | .codeLensResolve doc handle serial index =>
      match result with
      | .error _ => s
      | .ok v =>
        let (lenses, changed) := s.lenses.resolved doc handle serial index v
        let s := { s with lenses }
        if changed then s.touch doc else s
    | .hover doc =>
      match s.docs[doc]? with
      | none => s
      | some d =>
        let (hover, popup) := s.hover.reply token d.widgetVersion result.toOption
        let s := { s with hover }
        match popup with
        | some p => s.ui (.hover p)
        | none => s
    | .inline doc => s.onInlineReply token doc result
    | .activateThenRun command =>
      if s.registry.hasCommand command.id then
        (s.rpcWith (.executeContributedCommand command.id command.arguments) (.command command.id)).1
      else s.ui (.runCommand command)
    | .command _ => s

/-! ### Timers and decorations -/

/-- The inline timers of `run_timers`. -/
def runInlineTimers (s : SessionCore) (ord : IterOrder) : SessionCore :=
  let due := ord.inline ((s.inline.filter fun _ st ↦ st.debounce.isDue s.now).keys)
  due.foldl fireInline { s with
    inline := s.inline.map fun _ st ↦ { st with debounce := st.debounce.takeDue s.now } }

/-- The lens timers of `run_timers`. -/
def runCodelensTimers (s : SessionCore) (ord : IterOrder) : SessionCore :=
  let due := ord.codelensDue ((s.codelensDue.filter fun _ d ↦ d.isDue s.now).keys)
  due.foldl fireCodelens { s with codelensDue := s.codelensDue.map fun _ d ↦ d.takeDue s.now }

/-- `SessionCore::run_timers`. -/
def runTimers (s : SessionCore) (ord : IterOrder) : SessionCore :=
  (s.runInlineTimers ord).runCodelensTimers ord

/-- The decoration of a ghost. -/
def ghostDecoration (version : ℕ) (g : Ghost) : List Decoration :=
  if g.text.isEmpty then [] else [⟨g.id, version, .ghostText, none, .empty g.pos, g.text⟩]

/-- The decorations of one document of `flush_decorations`. -/
def flushDocument (s : SessionCore) (key : String) : SessionCore :=
  match s.docs[key]? with
  | none => s
  | some doc =>
    let (ids, underlines) := s.diagnostics.decorations key doc.widgetVersion doc.lines s.ids
    let (lenses, ids, lensDecorations) := s.lenses.decorations key doc.widgetVersion doc.lines ids
    let ghost := (s.inline[key]?.bind (·.ghost)).map (ghostDecoration doc.widgetVersion)
    ui { s with ids, lenses } (.decorations doc.uri doc.generation
      (sortDecorations (underlines ++ lensDecorations ++ ghost.getD [])))

/-- `SessionCore::flush_decorations`. -/
def flushDecorations (s : SessionCore) : SessionCore :=
  s.touched.toList.foldl flushDocument { s with touched := ∅ }

/-! ### Handling -/

/-- The handler an input goes to. -/
def dispatch (s : SessionCore) (ord : IterOrder) : Input → SessionCore
  | .open_ uri => s.onOpen uri
  | .close uri => s.onClose ord uri
  | .focus uri => s.onFocus uri
  | .widget uri generation event => s.onWidget uri generation event
  | .triggerInline uri generation pos => s.onTriggerInline uri generation pos
  | .extHostRequest r => s.onExthostRequest r
  | .rpcReply token result => s.onRpcReply token result
  | .fileRead uri purpose result => s.onFileRead uri purpose result
  | .fileWritten uri token result => s.onFileWritten uri token result
  | .filesChanged changes => s.onFilesChanged ord changes
  | .tick => s

/-- The effects asked for, taken. -/
def take (s : SessionCore) : SessionCore × List Effect := ({ s with out := [] }, s.out)

/-- `SessionCore::handle`. -/
def handle (s : SessionCore) (ord : IterOrder) (now : Instant) (input : Input) :
    SessionCore × List Effect :=
  ((dispatch { s with now } ord input).runTimers ord).flushDecorations.take

/-- `SessionCore::resync`. -/
def resync (s : SessionCore) (now : Instant) (uri : UriComponents) : SessionCore × List Effect :=
  let s := { s with now }
  let key := uri.key
  let s := match s.docs[key]? with
    | some doc => s.resetDoc key doc.widgetText none
    | none => s
  s.flushDecorations.take

end SessionCore

/-- What a driver calls. -/
inductive CoreCall
  | handle (ord : IterOrder) (now : Instant) (input : Input)
  | resync (now : Instant) (uri : UriComponents)

variable {G : SessionCore → CoreCall → Prop}

namespace SessionCore

/-- The core after a call, and the effects. -/
def call (s : SessionCore) : CoreCall → SessionCore × List Effect
  | .handle ord now input => s.handle ord now input
  | .resync now uri => s.resync now uri

/-- The runs of a session core. -/
def runs (languages : LanguageRegistry) (opts : CoreOptions) (now : Instant) :
    StepSystem SessionCore CoreCall :=
  .ofFun (new languages opts now) fun s c ↦ (s.call c).1

/-! ### A driver at work -/

/-- A file. -/
def aFile : UriComponents := ⟨"file", "", "/a", "", ""⟩

/-- No contributions: every file is plain text. -/
def plainText : LanguageRegistry := ⟨[], fun _ ↦ "plaintext"⟩

/-- A request of the extension host. -/
def asking (call : MainThreadCall) : Input := .extHostRequest ⟨1, none, "", .ok call, none⟩

/-- The calls of a user who opens a file with a text. -/
def openingCalls (text : Text) : List CoreCall :=
  [.handle .sorted 0 (.open_ aFile), .handle .sorted 0 (.fileRead aFile .open_ (.ok (encode text)))]

/-- The core after some calls. -/
def after (calls : List CoreCall) : SessionCore :=
  calls.foldl (fun s c ↦ (s.call c).1) (new plainText .default 0)

theorem reachable_after (calls : List CoreCall) :
    (runs plainText .default 0).Reachable (after calls) := StepSystem.reachable_foldl calls

/-- A run whose calls all meet a condition goes on with one more. -/
theorem reachable_after_concat {calls : List CoreCall} {c : CoreCall}
    (h : ((runs plainText .default 0).restrict G).Reachable (after calls))
    (hc : G (after calls) c) :
    ((runs plainText .default 0).restrict G).Reachable (after (calls ++ [c])) :=
  StepSystem.reachable_foldl_concat h hc

theorem reachable_openingCalls (text : Text) (hopen : ∀ s, G s (.handle .sorted 0 (.open_ aFile)))
    (hread : ∀ s, G s (.handle .sorted 0 (.fileRead aFile .open_ (.ok (encode text))))) :
    ((runs plainText .default 0).restrict G).Reachable (after (openingCalls text)) := by
  have hnew : ((runs plainText .default 0).restrict G).Reachable (after []) := .start rfl
  exact reachable_after_concat (reachable_after_concat hnew (hopen _)) (hread _)

end SessionCore

end Ember.Editor
