import Ember.Editor.Document
import Ember.Editor.Hover
import Ember.Editor.Registry

/-!
# The session core

A state machine without I/O. Every function of the source that changes the core is a function on
`SessionCore` here; the effects it asks for are appended to `out`, which `handle` and `resync` empty
at their end.

A hash map is visited in an order nobody chooses. Where the order could be seen, `IterOrder` says
which order this time, and nothing is assumed of it but that it visits every key once.
-/

namespace Ember.Editor

open EditorConn

/-- `CoreOptions`. -/
structure CoreOptions where
  tabWidth : ℕ
  insertSpaces : Bool
  codelensDebounce : Duration
  codelensResolveCap : ℕ
  inlineCompletions : Bool

/-- `CoreOptions::default`. -/
def CoreOptions.default : CoreOptions := ⟨4, true, 250, 100, true⟩

/-- `LanguageRegistry`: the language ids, and the one of a path. How extensions' contributions decide
the latter is left out. -/
structure LanguageRegistry where
  ids : List String
  languageFor : String → String

/-- `ReadPurpose`. -/
inductive ReadPurpose
  | open_
  | reload
  | extHostOpen (req : ℕ)
  deriving DecidableEq, Repr

/-- `FileChangeType`. -/
inductive FileChangeType
  | updated
  | added
  | deleted
  deriving DecidableEq, Repr

/-- `FileChange`. -/
structure FileChange where
  kind : FileChangeType
  resource : UriComponents
  deriving DecidableEq, Repr

/-- `Input`. -/
inductive Input
  | open_ (uri : UriComponents)
  | close (uri : UriComponents)
  | focus (uri : UriComponents)
  | widget (uri : UriComponents) (generation : ℕ) (event : WidgetEvent)
  | triggerInline (uri : UriComponents) (generation : ℕ) (pos : WidgetPos)
  | extHostRequest (r : IncomingRequest)
  | rpcReply (token : Token) (result : Except String Value)
  | fileRead (uri : UriComponents) (purpose : ReadPurpose) (result : Except String ByteArray)
  | fileWritten (uri : UriComponents) (token : Token) (result : Except String Unit)
  | filesChanged (changes : List FileChange)
  | tick

/-- `ExternalChange`. -/
inductive ExternalChange
  | changedWhileDirty
  | deleted
  deriving DecidableEq, Repr

/-- `SessionUpdate`. -/
inductive SessionUpdate
  | opened (uri : UriComponents) (generation : ℕ) (text : Text) (languageId : String) (tabWidth : ℕ)
  | openFailed (uri : UriComponents) (error : String)
  | command (uri : UriComponents) (command : WidgetCommand)
  | decorations (uri : UriComponents) (generation : ℕ) (decorations : List Decoration)
  | hover (popup : HoverPopup)
  | hoverHidden (uri : UriComponents)
  | dirty (uri : UriComponents) (dirty : Bool)
  | saved (uri : UriComponents)
  | saveFailed (uri : UriComponents) (error : String)
  | externalChange (uri : UriComponents) (change : ExternalChange)
  | runCommand (command : CommandDto)
  | desync (uri : UriComponents) (error : String)
  | closed (uri : UriComponents)

/-- `Effect`. -/
inductive Effect
  | rpc (token : Option Token) (call : Call)
  | cancel (token : Token)
  | respond (req : ℕ) (result : Except Value Reply)
  | readFile (uri : UriComponents) (purpose : ReadPurpose)
  | writeFile (uri : UriComponents) (bytes : ByteArray) (token : Token)
  | watch (uri : UriComponents)
  | unwatch (uri : UriComponents)
  | ui (update : SessionUpdate)

/-- `Pending`: what a reply is awaited for. -/
inductive Pending
  | codeLens (doc : String) (handle : ℤ) (version : ℕ)
  | codeLensResolve (doc : String) (handle : ℤ) (serial index : ℕ)
  | hover (doc : String)
  | inline (doc : String)
  | activateThenRun (command : CommandDto)
  | command (id : String)

/-- The order the hash maps are visited in. -/
structure IterOrder where
  docs : List String → List String
  inline : List String → List String
  codelensDue : List String → List String
  inflight : List ℤ → List ℤ
  docs_perm : ∀ l, (docs l).Perm l
  inline_perm : ∀ l, (inline l).Perm l
  codelensDue_perm : ∀ l, (codelensDue l).Perm l
  inflight_perm : ∀ l, (inflight l).Perm l

/-- Some order: the one of the keys. -/
def IterOrder.sorted : IterOrder :=
  ⟨id, id, id, id, fun _ ↦ .refl _, fun _ ↦ .refl _, fun _ ↦ .refl _, fun _ ↦ .refl _⟩

/-- `SessionCore`. -/
structure SessionCore where
  opts : CoreOptions
  languages : LanguageRegistry
  docs : Std.ExtTreeMap String OpenDocument
  opening : Std.ExtTreeSet String
  /-- Documents announced to the extension host only, with their version. -/
  exthostOnly : Std.ExtTreeMap String (UriComponents × ℕ)
  active : Option String
  registry : Registry
  diagnostics : Diagnostics
  lenses : CodeLenses
  codelensDue : Std.ExtTreeMap String Debouncer
  /-- By document key, then by provider handle. -/
  codelensInflight : Std.ExtTreeMap String (Std.ExtTreeMap ℤ Token)
  hover : HoverState
  inline : Std.ExtTreeMap String InlineDoc
  ids : DecorationIds
  pending : Std.ExtTreeMap Token Pending
  /-- Document key, extension-host version and bytes of a save under way. -/
  saves : Std.ExtTreeMap Token (String × ℕ × ByteArray)
  nextToken : Token
  nextGeneration : ℕ
  nextEditor : ℕ
  nextEditRequest : ℕ
  replySeq : ℕ
  touched : Std.ExtTreeSet String
  out : List Effect
  now : Instant

/-- `file_name`. -/
def fileName (path : String) : String :=
  .ofList (path.toList.reverse.takeWhile (· ≠ '/')).reverse

/-- `session_reply`. -/
def sessionReply (proxy : Option String) (method : String) (seq : ℕ) (languageIds : List String) :
    Reply :=
  if proxy = some "MainThreadLanguages" ∧ method = "$getLanguages" then
    .json (.arr (languageIds.map .str))
  else if proxy = some "MainThreadOutputService" ∧ method = "$register" then
    .json (.str ("ember-output-" ++ toString seq))
  else defaultReply proxy method

namespace SessionCore

/-- `SessionCore::new`. -/
def new (languages : LanguageRegistry) (opts : CoreOptions) (now : Instant) : SessionCore where
  opts
  languages
  docs := ∅
  opening := ∅
  exthostOnly := ∅
  active := none
  registry := .new
  diagnostics := .new
  lenses := .new
  codelensDue := ∅
  codelensInflight := ∅
  hover := .new
  inline := ∅
  ids := .new
  pending := ∅
  saves := ∅
  nextToken := 0
  nextGeneration := 0
  nextEditor := 0
  nextEditRequest := 0
  replySeq := 0
  touched := ∅
  out := []
  now

/-! ### Small helpers -/

/-- Ask for an effect. -/
def push (s : SessionCore) (e : Effect) : SessionCore := { s with out := s.out ++ [e] }

/-- `SessionCore::rpc`. -/
def rpc (s : SessionCore) (call : Call) : SessionCore := s.push (.rpc none call)

/-- The calls one after the other. -/
def rpcs (s : SessionCore) (calls : List Call) : SessionCore := calls.foldl rpc s

/-- `SessionCore::rpc_with`, and the token. -/
def rpcWith (s : SessionCore) (call : Call) (pending : Pending) : SessionCore × Token :=
  let t := s.nextToken + 1
  (push { s with nextToken := t, pending := s.pending.insert t pending } (.rpc (some t) call), t)

/-- `SessionCore::cancel` of one token. -/
def cancelOne (s : SessionCore) (t : Token) : SessionCore :=
  push { s with pending := s.pending.erase t } (.cancel t)

/-- `SessionCore::cancel`. -/
def cancel (s : SessionCore) (tokens : List Token) : SessionCore := tokens.foldl cancelOne s

/-- `SessionCore::ui`. -/
def ui (s : SessionCore) (u : SessionUpdate) : SessionCore := s.push (.ui u)

/-- `SessionCore::respond`. -/
def respond (s : SessionCore) (req : ℕ) (result : Except Value Reply) : SessionCore :=
  s.push (.respond req result)

/-- `self.touched.insert(key)`. -/
def touch (s : SessionCore) (key : String) : SessionCore :=
  { s with touched := s.touched.insert key }

/-- `SessionCore::uri_of`. -/
def uriOf (s : SessionCore) (key : String) : Option UriComponents := s.docs[key]?.map (·.uri)

/-- `SessionCore::edit_request_id`. -/
def editRequestId (s : SessionCore) : SessionCore × ℕ :=
  let id := max (wrap32 (s.nextEditRequest + 1)) 1
  ({ s with nextEditRequest := id }, id)

/-- `SessionCore::schedule_codelens`. -/
def scheduleCodelens (s : SessionCore) (key : String) (delay : Duration) : SessionCore :=
  { s with codelensDue :=
      s.codelensDue.insert key (((s.codelensDue[key]?).getD .default).schedule s.now delay) }

/-- The inline state of a document, as `entry(..).or_default()` gives it. -/
def inlineAt (s : SessionCore) (key : String) : InlineDoc := (s.inline[key]?).getD .default

/-- Put the inline state of a document back. -/
def setInline (s : SessionCore) (key : String) (st : InlineDoc) : SessionCore :=
  { s with inline := s.inline.insert key st }

/-- Put a document back. -/
def setDoc (s : SessionCore) (key : String) (doc : OpenDocument) : SessionCore :=
  { s with docs := s.docs.insert key doc }

/-- `SessionCore::send_tab_model`: one group with a tab for every open document. -/
def sendTabModel (s : SessionCore) : SessionCore :=
  let docs := (s.docs.toList.map Prod.snd).insertionSort fun a b ↦ a.editorId ≤ b.editorId
  s.rpc (.acceptEditorTabModel (docs.map fun d ↦
    ⟨"ember-tab-" ++ d.editorId, fileName d.uri.path, d.uri, s.active == some d.uri.key, d.isDirty⟩))

/-! ### Hover, commands and ghosts -/

/-- Tell the UI that the hover of `shown` is gone. -/
def hideHover (s : SessionCore) (shown : Option String) : SessionCore :=
  match shown.bind s.uriOf with
  | some uri => s.ui (.hoverHidden uri)
  | none => s

/-- `SessionCore::end_hover`. -/
def endHover (s : SessionCore) : SessionCore :=
  let (hover, tokens, shown) := s.hover.end_
  (cancel { s with hover } tokens).hideHover shown

/-- `SessionCore::run_command`. -/
def runCommand (s : SessionCore) (cmd : CommandDto) : SessionCore :=
  if cmd.id = "" then s
  else if s.registry.hasCommand cmd.id then
    (s.rpcWith (.executeContributedCommand cmd.id cmd.arguments) (.command cmd.id)).1
  else (s.rpcWith (.activateByEvent ("onCommand:" ++ cmd.id)) (.activateThenRun cmd)).1

/-- `SessionCore::end_ghost`. -/
def endGhost (s : SessionCore) (key : String) (reason : EndReason) : SessionCore :=
  match s.inline[key]?.bind fun st ↦ st.ghost.map fun g ↦ (st, g) with
  | none => s
  | some (st, g) =>
    ((s.setInline key { st with ghost := none }).rpcs (endCalls g.item reason)).touch key

/-! ### Open, close and focus -/

/-- `SessionCore::on_open`. -/
def onOpen (s : SessionCore) (uri : UriComponents) : SessionCore :=
  let key := uri.key
  match s.docs[key]? with
  | some d =>
    (s.ui (.opened d.uri d.generation d.widgetText d.languageId s.opts.tabWidth)).touch key
  | none =>
    if key ∈ s.opening then s
    else push { s with opening := s.opening.insert key } (.readFile uri .open_)

/-- Take the document from the extension host that has it already. Answers with the version it goes
on from. -/
def takeOver (s : SessionCore) (key : String) : SessionCore × ℕ :=
  match s.exthostOnly[key]? with
  | some (u, v) =>
    (rpc { s with exthostOnly := s.exthostOnly.erase key }
      (.acceptDocumentsAndEditorsDelta { removedDocuments := [u] }), v + 1)
  | none => (s, 1)

/-- The document a successful open makes, going on from a version. -/
def openedDoc (s : SessionCore) (uri : UriComponents) (text : Text) (bom : Bool) (extVersion : ℕ) :
    OpenDocument × List Call :=
  OpenDocument.open_ uri text bom (s.languages.languageFor uri.path)
    ("ember-editor-" ++ toString s.nextEditor) extVersion s.nextGeneration s.opts.tabWidth
    s.opts.insertSpaces

/-- Announce a document and put it with the open ones. -/
def announce (s : SessionCore) (uri : UriComponents) (text : Text) (bom : Bool) (extVersion : ℕ) :
    SessionCore :=
  let key := uri.key
  let s := { s with nextGeneration := s.nextGeneration + 1, nextEditor := s.nextEditor + 1 }
  let (doc, calls) := s.openedDoc uri text bom extVersion
  let s := s.rpcs calls
  let s := s.ui (.opened uri doc.generation doc.widgetText doc.languageId s.opts.tabWidth)
  let s := push { s.setDoc key doc with active := some key } (.watch uri)
  (s.sendTabModel.scheduleCodelens key 0).touch key

/-- `SessionCore::finish_open`. -/
def finishOpen (s : SessionCore) (uri : UriComponents) (bytes : ByteArray) : SessionCore :=
  match decode bytes with
  | .error e => s.ui (.openFailed uri e.message)
  | .ok (text, bom) =>
    let (s, extVersion) := s.takeOver uri.key
    s.announce uri text bom extVersion

/-- Cancel the requests for lenses of a document that are under way. -/
def cancelCodelens (s : SessionCore) (ord : IterOrder) (key : String) : SessionCore :=
  let inflight := (s.codelensInflight[key]?).getD ∅
  let tokens := (ord.inflight inflight.keys).filterMap fun handle ↦ inflight[handle]?
  cancel { s with codelensInflight := s.codelensInflight.erase key } tokens

/-- Drop the inline state of a document that closes. -/
def closeInline (s : SessionCore) (key : String) : SessionCore :=
  match s.inline[key]? with
  | none => s
  | some st =>
    let s := cancel { s with inline := s.inline.erase key } st.tokens
    match st.ghost with
    | some g => s.rpcs (endCalls g.item (.ignored false))
    | none => s

/-- `self.hover.end_for(key)`, its tokens cancelled; answers with the document of the popup that was
shown. -/
def endHoverFor (s : SessionCore) (key : String) : SessionCore × Option String :=
  let (hover, tokens, shown) := s.hover.endFor key
  (cancel { s with hover } tokens, shown)

/-- Release the lens lists of a document. -/
def closeLenses (s : SessionCore) (key : String) : SessionCore :=
  let (lenses, lists) := s.lenses.close key
  rpcs { s with lenses } (lists.map fun p ↦ .releaseCodeLenses p.1 p.2)

/-- Drop what is kept for a document that closes. -/
def forgetDoc (s : SessionCore) (ord : IterOrder) (key : String) : SessionCore :=
  let s := s.closeLenses key
  let s := cancelCodelens { s with codelensDue := s.codelensDue.erase key } ord key
  let s := ((s.closeInline key).endHoverFor key).1
  let s := { s with ids := s.ids.forgetDocument key }
  if s.active = some key then { s with active := (ord.docs s.docs.keys).head? } else s

/-- `SessionCore::on_close`. -/
def onClose (s : SessionCore) (ord : IterOrder) (uri : UriComponents) : SessionCore :=
  let key := uri.key
  match s.docs[key]? with
  | none => s
  | some doc =>
    let s := rpc { s with docs := s.docs.erase key } doc.removeCall
    ((s.push (.unwatch doc.uri)).forgetDoc ord key).sendTabModel.ui (.closed doc.uri)

/-- `SessionCore::on_focus`. -/
def onFocus (s : SessionCore) (uri : UriComponents) : SessionCore :=
  let key := uri.key
  match s.docs[key]? with
  | none => s
  | some doc => sendTabModel { s.rpc doc.focusCall with active := some key }

/-! ### Inline completions -/

/-- `SessionCore::inline_delay`. -/
def inlineDelay (s : SessionCore) (key : String) : Option Duration :=
  s.docs[key]?.bind fun doc ↦
    let providers := s.registry.matching .inlineCompletions doc.uri doc.languageId
    if providers.isEmpty then none
    else
      let delays := providers.filterMap fun p ↦ match p.kind with
        | .inlineCompletions info => info.debounceMs
        | _ => none
      some (delays.max?.getD DEFAULT_DEBOUNCE)

/-- Carry the ghost of a document through a change: typed on, typed out or ended. Answers whether it
stays. -/
def typeThrough (s : SessionCore) (key : String) (range : WidgetRange) (text : Text) :
    SessionCore × Bool :=
  let st := s.inlineAt key
  let s := s.setInline key st
  match st.ghost with
  | none => (s, false)
  | some g =>
    let (g, how) := g.typeThrough range text
    let s := s.setInline key { st with ghost := some g }
    let s := match how with
      | .disagreed => s.endGhost key (.ignored true)
      | _ => s
    (s.touch key, how == .continued)

/-- Cancel the outstanding inline request of a document. -/
def cancelInline (s : SessionCore) (key : String) : SessionCore :=
  let (st, tokens) := (s.inlineAt key).cancel
  (s.setInline key st).cancel tokens

/-- A ghost the change before completed was typed out, not accepted. -/
def endCompleted (s : SessionCore) (key : String) : SessionCore :=
  let st := s.inlineAt key
  let s := s.setInline key st
  if st.ghost.any (·.completed) then s.endGhost key (.ignored false) else s

/-- Ask again after a while, where the cursor is. -/
def scheduleInline (s : SessionCore) (key : String) : SessionCore :=
  match s.inlineDelay key, s.docs[key]?.bind (·.cursor) with
  | some delay, some pos => s.setInline key ((s.inlineAt key).schedule s.now delay pos false)
  | _, _ => s

/-- `SessionCore::inline_after_change`. -/
def inlineAfterChange (s : SessionCore) (key : String) (range : WidgetRange) (text : Text) :
    SessionCore :=
  let (s, keepGhost) := (s.endCompleted key).typeThrough key range text
  let s := s.cancelInline key
  if keepGhost || !s.opts.inlineCompletions then s else s.scheduleInline key

/-- Ask one provider after the other. -/
def askInline (s : SessionCore) (key : String) (uri : UriComponents) (pos : WidgetPos)
    (explicit : Bool) : List (ℤ × ℕ) → SessionCore
  | [] => s
  | (handle, order) :: handles =>
    let (s, t) := s.rpcWith (.provideInlineCompletions handle uri pos.toExthost explicit)
      (.inline key)
    let s := match s.inline[key]? with
      | some st => s.setInline key (st.addPending t handle order)
      | none => s
    s.askInline key uri pos explicit handles

/-- `SessionCore::fire_inline`. -/
def fireInline (s : SessionCore) (key : String) : SessionCore :=
  match s.inline[key]?.bind fun st ↦ st.trigger.map fun t ↦ (st, t) with
  | none => s
  | some (st, pos, explicit) =>
    let s := s.setInline key { st with trigger := none }
    match s.docs[key]? with
    | none => s
    | some doc =>
      let handles := (s.registry.matching .inlineCompletions doc.uri doc.languageId).map (·.handle)
      if handles.isEmpty then s
      else
        let (st, cancel) := (s.inlineAt key).begin doc.widgetVersion pos
        let s := (s.setInline key st).cancel cancel
        s.askInline key doc.uri pos explicit handles.zipIdx

/-- The items of a reply of `choose_ghost`'s loop. -/
def itemsOf (registry : Registry) (reply : ℤ × Value) : Option (ℤ × List InlineItem) :=
  let supports := match (registry.get reply.1).map (·.kind) with
    | some (.inlineCompletions info) => info.supportsHandleEvents
    | _ => false
  parseList reply.2 reply.1 supports

/-- The first item that can be shown at the cursor, with its ghost text. -/
def firstShown (pos : WidgetPos) (line : Text) (items : List InlineItem) : Option (InlineItem × Text) :=
  items.findSome? fun item ↦ (ghostFor item pos line).map fun g ↦ (item, g)

/-- What `choose_ghost` makes of the replies of a request: the item to show with its ghost text, and
the lists to free. -/
structure Choice where
  chosen : Option (InlineItem × Text)
  frees : List (ℤ × ℤ × String)

/-- One reply of `choose_ghost`'s loop. -/
def Choice.step (registry : Registry) (pos : WidgetPos) (line : Text) (c : Choice)
    (reply : ℤ × Value) : Choice :=
  match itemsOf registry reply with
  | none => c
  | some (pid, items) =>
    if items.isEmpty then { c with frees := c.frees ++ [(reply.1, pid, "empty")] }
    else
      match c.chosen, firstShown pos line items with
      | none, some found => { c with chosen := some found }
      | _, _ => { c with frees := c.frees ++ [(reply.1, pid, "notTaken")] }

/-- The replies of a request, in provider order. -/
def Choice.of (registry : Registry) (pos : WidgetPos) (line : Text) (replies : List (ℤ × Value)) :
    Choice :=
  replies.foldl (Choice.step registry pos line) ⟨none, []⟩

/-- What a reply has to show at the cursor. -/
def shownOf (registry : Registry) (pos : WidgetPos) (line : Text) (reply : ℤ × Value) :
    Option (InlineItem × Text) :=
  (itemsOf registry reply).bind fun l ↦ firstShown pos line l.2

theorem Choice.chosen_step (registry : Registry) (pos : WidgetPos) (line : Text) (c : Choice)
    (reply : ℤ × Value) :
    (c.step registry pos line reply).chosen = c.chosen.or (shownOf registry pos line reply) := by
  simp only [Choice.step, shownOf]
  cases itemsOf registry reply with
  | none => simp
  | some l =>
    obtain ⟨pid, items⟩ := l
    simp only [Option.bind_some]
    split
    · rename_i hempty
      rw [List.isEmpty_iff.1 hempty]
      simp [firstShown]
    · split
      · rename_i hchosen hfound
        rw [hchosen, hfound, Option.none_or]
      · rename_i hne
        cases hchosen : c.chosen with
        | some chosen => rw [Option.some_or]
        | none =>
          cases hfound : firstShown pos line items with
          | none => rfl
          | some found => exact absurd hfound (hne found hchosen)

/-- The first reply in provider order that has something to show is the one shown. -/
theorem Choice.chosen_of (registry : Registry) (pos : WidgetPos) (line : Text)
    (replies : List (ℤ × Value)) :
    (Choice.of registry pos line replies).chosen = replies.findSome? (shownOf registry pos line) := by
  suffices h : ∀ c : Choice, (replies.foldl (Choice.step registry pos line) c).chosen =
      c.chosen.or (replies.findSome? (shownOf registry pos line)) from
    (h ⟨none, []⟩).trans Option.none_or
  induction replies with
  | nil => exact fun c ↦ Option.or_none.symm
  | cons reply replies ih =>
    intro c
    rw [List.foldl_cons, ih, Choice.chosen_step, List.findSome?_cons, Option.or_assoc]
    cases shownOf registry pos line reply <;> simp

/-- What is shown is an item of the reply's list. -/
theorem mem_of_shownOf {registry : Registry} {pos : WidgetPos} {line : Text} {reply : ℤ × Value}
    {item : InlineItem} {text : Text} (h : shownOf registry pos line reply = some (item, text)) :
    item.handle = reply.1 ∧ pidOf reply.2 = some item.pid := by
  obtain ⟨⟨pid, items⟩, hitems, hfirst⟩ := Option.bind_eq_some_iff.1 h
  obtain ⟨item', hmem, hghost⟩ := List.exists_of_findSome?_eq_some hfirst
  obtain ⟨g, -, heq⟩ := Option.map_eq_some_iff.1 hghost
  obtain ⟨rfl, -⟩ := Prod.mk.inj heq
  obtain ⟨hhandle, rfl⟩ := mem_parseList hitems hmem
  exact ⟨hhandle, pidOf_of_parseList hitems⟩

/-- Tell providers that their lists are not needed. -/
def freeLists (s : SessionCore) (lists : List (ℤ × ℤ × String)) : SessionCore :=
  s.rpcs (lists.map fun f ↦ .freeInlineCompletionsList f.1 f.2.1 f.2.2)

/-- Show an item as the ghost of a document. -/
def showGhost (s : SessionCore) (key : String) (version : ℕ) (pos : WidgetPos) (item : InlineItem)
    (text : Text) : SessionCore :=
  let (id, ids) := s.ids.id .ghostText key
    (toString item.handle ++ "|" ++ toString item.pid ++ "|" ++ toString item.idx)
  let s := rpcs { s with ids } (didShowCall item)
  (s.setInline key { s.inlineAt key with ghost := some ⟨item, id, pos, text, version, false⟩ }).touch
    key

/-- `SessionCore::choose_ghost`. -/
def chooseGhost (s : SessionCore) (key : String) (version : ℕ) (pos : WidgetPos)
    (replies : List (ℤ × Value)) : SessionCore :=
  match s.docs[key]?.bind (·.line pos.line) with
  | none => s
  | some line =>
    let choice := Choice.of s.registry pos line replies
    let s := s.freeLists choice.frees
    match choice.chosen with
    | none => s
    | some (item, text) => (s.endGhost key (.ignored false)).showGhost key version pos item text

/-- A reply as `on_inline_reply` reads it: an error counts as `undefined`. -/
def answerOf : Except String Value → Value
  | .ok v => v
  | .error _ => .null

/-- `SessionCore::on_inline_reply`. -/
def onInlineReply (s : SessionCore) (token : Token) (key : String)
    (result : Except String Value) : SessionCore :=
  match s.docs[key]?, s.inline[key]? with
  | some doc, some st =>
    match st.reply token doc.widgetVersion (answerOf result) with
    | (st, .ignored) | (st, .pending) => s.setInline key st
    | (st, .stale free) =>
      let (st, tokens) := st.takePending
      ((s.setInline key st).cancel tokens).freeLists (free.map fun p ↦ (p.1, p.2, "lostRace"))
    | (st, .done pos replies) => (s.setInline key st).chooseGhost key doc.widgetVersion pos replies
  | _, _ => s

/-- An edit of `accept_ghost`. -/
def editCode (s : SessionCore) (uri : UriComponents) (baseVersion : ℕ) (range : WidgetRange)
    (text : Text) : SessionCore :=
  let (s, requestId) := s.editRequestId
  s.ui (.command uri (.editCode requestId baseVersion range text))

/-- `SessionCore::accept_ghost`. -/
def acceptGhost (s : SessionCore) (key : String) (decoration : ℕ) : SessionCore :=
  match s.inline[key]?.bind (·.ghost), s.docs[key]? with
  | some g, some doc =>
    if g.id ≠ decoration then s
    else
      let s := if !g.completed && !g.text.isEmpty then
        s.editCode doc.uri doc.widgetVersion (.empty g.pos) g.text else s
      let s := g.item.additionalEdits.foldl (fun s e ↦ s.editCode doc.uri g.baseVersion e.1 e.2) s
      let s := s.endGhost key .accepted
      match g.item.command with
      | some cmd => s.runCommand cmd
      | none => s
  | _, _ => s

/-! ### CodeLens -/

/-- Ask one provider for lenses, in place of an older request. -/
def askCodelens (s : SessionCore) (key : String) (uri : UriComponents) (version : ℕ) (handle : ℤ) :
    SessionCore :=
  let inflight := (s.codelensInflight[key]?).getD ∅
  let s := match inflight[handle]? with
    | some old => cancel { s with
        codelensInflight := s.codelensInflight.insert key (inflight.erase handle) } [old]
    | none => s
  let (s, t) := s.rpcWith (.provideCodeLenses handle uri) (.codeLens key handle version)
  { s with codelensInflight :=
      s.codelensInflight.insert key (((s.codelensInflight[key]?).getD ∅).insert handle t) }

/-- `SessionCore::fire_codelens`. -/
def fireCodelens (s : SessionCore) (key : String) : SessionCore :=
  match s.docs[key]? with
  | none => s
  | some doc =>
    let handles := (s.registry.matching .codeLens doc.uri doc.languageId).map (·.handle)
    handles.foldl (fun s handle ↦ s.askCodelens key doc.uri doc.widgetVersion handle) s

/-- A call for lenses is answered: it is under way no longer. -/
def answeredCodelens (s : SessionCore) (token : Token) (key : String) (handle : ℤ) : SessionCore :=
  let inflight := (s.codelensInflight[key]?).getD ∅
  if inflight[handle]? = some token then
    { s with codelensInflight := s.codelensInflight.insert key (inflight.erase handle) }
  else s

/-- Release a list of lenses, if it has a cache id. -/
def releaseLenses (s : SessionCore) (handle : ℤ) (cacheId : Option ℤ) : SessionCore :=
  match cacheId with
  | some c => s.rpc (.releaseCodeLenses handle c)
  | none => s

/-- Ask for the commands of lenses that came without one. -/
def resolveLenses (s : SessionCore) (key : String) (handle : ℤ) (serial : ℕ)
    (toResolve : List (ℕ × Value)) : SessionCore :=
  toResolve.foldl (fun s p ↦
    (s.rpcWith (.resolveCodeLens handle p.2) (.codeLensResolve key handle serial p.1)).1) s

/-- `SessionCore::on_codelens_reply`. -/
def onCodelensReply (s : SessionCore) (token : Token) (key : String) (handle : ℤ) (version : ℕ)
    (result : Except String Value) : SessionCore :=
  let s := s.answeredCodelens token key handle
  match result with
  | .error _ => s
  | .ok value =>
    if s.docs[key]?.map (·.widgetVersion) ≠ some version then
      s.releaseLenses handle ((value.get "cacheId").bind (·.asI64))
    else
      let (lenses, outcome) := s.lenses.setList key handle value s.opts.codelensResolveCap
      let s := releaseLenses { s with lenses } handle outcome.release
      (s.resolveLenses key handle outcome.serial outcome.toResolve).touch key

end SessionCore

end Ember.Editor
