import Ember.Editor.CodeLens

/-!
# Inline completions

The items of a provider's reply, the ghost text shown for one of them, and the bookkeeping of one
document's outstanding request. A list a provider answered with is known by its handle and the `pid`
the reply carries.
-/

namespace Ember.Editor

open EditorConn

/-- `Token`: identifies an outstanding call or file write. -/
abbrev Token := ℕ

/-- `DEFAULT_DEBOUNCE`. -/
def DEFAULT_DEBOUNCE : Duration := 50

/-- `Debouncer`: a restartable one-shot timer. -/
structure Debouncer where
  deadline : Option Instant
  deriving DecidableEq, Repr

namespace Debouncer

/-- `Debouncer::default`. -/
def default : Debouncer := ⟨none⟩

/-- `Debouncer::schedule`. -/
def schedule (_ : Debouncer) (now : Instant) (delay : Duration) : Debouncer := ⟨some (now + delay)⟩

/-- Whether `Debouncer::take_due` answers `true`. -/
def isDue (d : Debouncer) (now : Instant) : Bool := d.deadline.any (· ≤ now)

/-- The timer after `Debouncer::take_due`. -/
def takeDue (d : Debouncer) (now : Instant) : Debouncer := if d.isDue now then ⟨none⟩ else d

end Debouncer

/-! ### Items -/

/-- `InlineItem`. -/
structure InlineItem where
  handle : ℤ
  pid : ℤ
  idx : ℤ
  insertText : Text
  /-- `none` is the cursor. -/
  range : Option WidgetRange
  command : Option CommandDto
  additionalEdits : List (WidgetRange × Text)
  supportsEvents : Bool

/-- A character of a snippet variable's name. -/
def isNameChar (c : Char) : Bool := c.isAlphanum || c == '_'

/-- `snippet_to_text`: `depth` counts the open defaults. -/
def snippetToText (depth : ℕ) : Text → Text
  | [] => []
  | '$' :: '\x7b' :: cs =>
    match _h : cs.dropWhile isNameChar with
    | ':' :: rest => snippetToText (depth + 1) rest
    | '|' :: rest =>
      (rest.takeWhile (· ≠ '|')).takeWhile (· ≠ ',') ++
        snippetToText depth ((rest.dropWhile (· ≠ '|')).drop 2)
    | rest => snippetToText depth ((rest.dropWhile (· ≠ '\x7d')).drop 1)
  | '\\' :: c :: cs =>
    if depth = 0 then
      if c = '$' ∨ c = '\x7d' ∨ c = '\\' then c :: snippetToText 0 cs
      else '\\' :: snippetToText 0 (c :: cs)
    else c :: snippetToText depth cs
  | '\x7d' :: cs =>
    if depth = 0 then '\x7d' :: snippetToText 0 cs else snippetToText (depth - 1) cs
  | '$' :: c :: cs =>
    if depth = 0 ∧ isNameChar c then snippetToText 0 (cs.dropWhile isNameChar)
    else '$' :: snippetToText depth (c :: cs)
  | c :: cs => c :: snippetToText depth cs
  termination_by cs => cs.length
  decreasing_by
    all_goals
      try have hname := (List.dropWhile_sublist isNameChar (l := cs)).length_le
      try have hbar := (List.dropWhile_sublist (fun c : Char ↦ decide (c ≠ '|')) (l := rest)).length_le
      try have hbrace := (List.dropWhile_sublist (fun c : Char ↦ decide (c ≠ '\x7d'))
        (l := rest)).length_le
      simp_all
      try omega

/-- The text an item inserts; `none` for an item that cannot be one. -/
def insertTextOf (v : Option Value) : Option Text :=
  match v with
  | some (.str s) => some s.toList
  | some (.obj fields) =>
    (((Value.obj fields).get "snippet").bind (·.asStr)).map fun s ↦ snippetToText 0 s.toList
  | _ => none

/-- `additionalTextEdits` of an item. -/
def additionalEditsOf (it : Value) : List (WidgetRange × Text) :=
  (((it.get "additionalTextEdits").bind (·.asArray)).getD []).filterMap fun e ↦
    ((e.get "range").bind Range.ofJson).map fun r ↦
      (.fromExthost r, (((e.get "text").bind (·.asStr)).getD "").toList)

/-- The `pid` of a reply that is a list. -/
def pidOf (reply : Value) : Option ℤ := (reply.get "pid").bind (·.asI64)

/-- `parse_list`: the `pid` and the items of a reply; `none` for `undefined`. -/
def parseList (reply : Value) (handle : ℤ) (supportsEvents : Bool) :
    Option (ℤ × List InlineItem) :=
  (pidOf reply).map fun pid ↦ (pid,
    (((reply.get "items").bind (·.asArray)).getD []).foldl (fun items it ↦
      match insertTextOf (it.get "insertText") with
      | none => items
      | some insertText =>
        if (it.get "isInlineEdit").bind (·.asBool) = some true then items
        else items ++ [{
          handle, pid, insertText, supportsEvents
          idx := ((it.get "idx").bind (·.asI64)).getD items.length
          range := ((it.get "range").bind Range.ofJson).map .fromExthost
          command := (it.get "command").bind CommandDto.fromJson
          additionalEdits := additionalEditsOf it }]) [])

variable {items : List InlineItem} {supportsEvents : Bool}

theorem pidOf_of_parseList {reply : Value} {handle pid : ℤ}
    (h : parseList reply handle supportsEvents = some (pid, items)) :
    pidOf reply = some pid := by
  obtain ⟨pid', hpid, heq⟩ := Option.map_eq_some_iff.1 h
  obtain ⟨rfl, -⟩ := Prod.mk.inj heq
  exact hpid

/-- An item belongs to the list it came in. -/
theorem mem_parseList {reply : Value} {handle pid : ℤ}
    (h : parseList reply handle supportsEvents = some (pid, items))
    {item : InlineItem} (hitem : item ∈ items) : item.handle = handle ∧ item.pid = pid := by
  obtain ⟨pid', -, heq⟩ := Option.map_eq_some_iff.1 h
  obtain ⟨rfl, rfl⟩ := Prod.mk.inj heq
  refine List.foldlRecOn (motive := fun items ↦ ∀ item ∈ items, item.handle = handle ∧
    item.pid = pid') _ _ (fun _ hmem ↦ absurd hmem List.not_mem_nil) ?_ item hitem
  intro items hitems it _ item hmem
  split at hmem
  · exact hitems item hmem
  · split at hmem
    · exact hitems item hmem
    · rcases List.mem_append.1 hmem with hmem | hmem
      · exact hitems item hmem
      · obtain rfl := List.mem_singleton.1 hmem
        exact ⟨rfl, rfl⟩

/-- `ghost_for`: the ghost text for an item at the cursor, if it can be shown there. -/
def ghostFor (item : InlineItem) (cursor : WidgetPos) (line : Text) : Option Text :=
  let range := item.range.getD (.empty cursor)
  if range.start.line ≠ cursor.line ∨ range.end_ ≠ cursor ∨ range.start.col > cursor.col then none
  else
    (utf16ToIndex line range.start.col).bind fun a ↦ (utf16ToIndex line cursor.col).bind fun b ↦
      let before := (line.take b).drop a
      if before.isPrefixOf item.insertText then
        let rest := item.insertText.drop before.length
        if rest.isEmpty then none else some rest
      else none

/-! ### The ghost -/

/-- `Ghost`: the ghost text shown in one document. -/
structure Ghost where
  item : InlineItem
  id : ℕ
  pos : WidgetPos
  /-- What is left to insert. -/
  text : Text
  baseVersion : ℕ
  /-- Typed through completely, waiting to learn whether that accepted it. -/
  completed : Bool

/-- `TypeThrough`: how a typed change relates to the ghost. -/
inductive TypeThrough
  | continued
  | completed
  | disagreed
  deriving DecidableEq, Repr

/-- `Ghost::type_through`. -/
def Ghost.typeThrough (g : Ghost) (range : WidgetRange) (text : Text) : Ghost × TypeThrough :=
  if g.completed || !range.isEmpty || range.start != g.pos || text.isEmpty then (g, .disagreed)
  else if text.isPrefixOf g.text then
    let rest := g.text.drop text.length
    let g := { g with pos := endOfInsert g.pos text, text := rest }
    if rest.isEmpty then ({ g with completed := true }, .completed) else (g, .continued)
  else (g, .disagreed)

/-- `did_show_call`. -/
def didShowCall (item : InlineItem) : List Call :=
  if item.supportsEvents then
    [.handleInlineCompletionDidShow item.handle item.pid item.idx item.insertText]
  else []

/-- `end_calls`: the calls when a shown item goes away. -/
def endCalls (item : InlineItem) (reason : EndReason) : List Call :=
  (if item.supportsEvents then
    [.handleInlineCompletionEndOfLifetime item.handle item.pid item.idx reason]
  else []) ++ [.freeInlineCompletionsList item.handle item.pid "other"]

/-! ### The outstanding request -/

/-- `Request`. -/
structure Request where
  version : ℕ
  pos : WidgetPos
  /-- Calls not answered yet: token, handle and provider order. -/
  pending : List (Token × ℤ × ℕ)
  /-- Answers: provider order, handle and reply. -/
  replies : List (ℕ × ℤ × Value)

/-- `InlineDoc`: the inline-completion state of one document. -/
structure InlineDoc where
  debounce : Debouncer
  /-- The cursor of the scheduled trigger, and whether it is explicit. -/
  trigger : Option (WidgetPos × Bool)
  request : Option Request
  ghost : Option Ghost

/-- `ReplyOutcome`: what a reply did to the outstanding request. -/
inductive ReplyOutcome
  | ignored
  | pending
  | stale (free : List (ℤ × ℤ))
  | done (pos : WidgetPos) (replies : List (ℤ × Value))

namespace InlineDoc

/-- `InlineDoc::default`. -/
def default : InlineDoc := ⟨.default, none, none, none⟩

/-- `InlineDoc::schedule`. -/
def schedule (st : InlineDoc) (now : Instant) (delay : Duration) (pos : WidgetPos)
    (explicit : Bool) : InlineDoc :=
  { st with trigger := some (pos, explicit), debounce := st.debounce.schedule now delay }

/-- The tokens of the calls not answered yet. -/
def tokens (st : InlineDoc) : List Token :=
  match st.request with
  | some r => r.pending.map Prod.fst
  | none => []

/-- `InlineDoc::cancel`: drop the outstanding request and the scheduled trigger. Answers with the
tokens to cancel. -/
def cancel (st : InlineDoc) : InlineDoc × List Token :=
  ({ st with debounce := .default, trigger := none, request := none }, st.tokens)

/-- `InlineDoc::begin`: start a request in place of any other. -/
def begin (st : InlineDoc) (version : ℕ) (pos : WidgetPos) : InlineDoc × List Token :=
  let (st, cancel) := st.cancel
  ({ st with request := some ⟨version, pos, [], []⟩ }, cancel)

/-- `InlineDoc::add_pending`. -/
def addPending (st : InlineDoc) (token : Token) (handle : ℤ) (order : ℕ) : InlineDoc :=
  { st with request := st.request.map fun r ↦
      { r with pending := r.pending ++ [(token, handle, order)] } }

/-- `InlineDoc::take_pending`. -/
def takePending (st : InlineDoc) : InlineDoc × List Token := ({ st with request := none }, st.tokens)

/-- `InlineDoc::reply`: an answer to the call `token`, the document being at `currentVersion`. -/
def reply (st : InlineDoc) (token : Token) (currentVersion : ℕ) (value : Value) :
    InlineDoc × ReplyOutcome :=
  match st.request with
  | none => (st, .ignored)
  | some req =>
    match req.pending.find? fun p ↦ p.1 == token with
    | none => (st, .ignored)
    | some (_, handle, order) =>
      let pending := req.pending.eraseP fun p ↦ p.1 == token
      if req.version ≠ currentVersion then
        let free := req.replies.filterMap fun r ↦ (pidOf r.2.2).map fun p ↦ (r.2.1, p)
        let last := ((pidOf value).map fun p ↦ (handle, p)).toList
        ({ st with request := some { req with pending, replies := [] } }, .stale (free ++ last))
      else
        let replies := req.replies ++ [(order, handle, value)]
        if pending.isEmpty then
          let sorted := replies.insertionSort fun a b ↦ a.1 ≤ b.1
          ({ st with request := none }, .done req.pos (sorted.map Prod.snd))
        else ({ st with request := some { req with pending, replies } }, .pending)

end InlineDoc

end Ember.Editor
