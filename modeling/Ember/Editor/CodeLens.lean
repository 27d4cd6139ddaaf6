import Ember.Editor.Widget

/-!
# CodeLens lists

The lists of lenses providers answered with, by document and provider handle, and the decorations
drawn from them. A list is kept until its document closes, its provider goes or another list takes
its place.
-/

namespace Ember.Editor

open EditorConn

/-- `CommandDto`. -/
structure CommandDto where
  id : String
  title : String
  tooltip : Option String
  arguments : List Value
  deriving Repr

/-- `CommandDto::from_json`. -/
def CommandDto.fromJson (v : Value) : Option CommandDto :=
  (v.get "id").bind fun id ↦ id.asStr.map fun id ↦
    { id
      title := ((v.get "title").bind (·.asStr)).getD ""
      tooltip := (v.get "tooltip").bind (·.asStr)
      arguments := ((v.get "arguments").bind (·.asArray)).getD [] }

/-- `Lens`. -/
structure Lens where
  /-- The lens as received. -/
  dto : Value
  range : WidgetRange
  command : Option CommandDto
  /-- The id key, fixed when the list arrived. -/
  key : String

/-- `on_edit` for one lens. -/
def Lens.moved (lens : Lens) (edit : WidgetRange) (text : Text) : Lens :=
  match transformRange lens.range edit text with
  | some range => { lens with range }
  | none => { lens with command := none }

/-- `LensList`. -/
structure LensList where
  handle : ℤ
  cacheId : Option ℤ
  /-- Increases with every list; resolve replies for an older one are stale. -/
  serial : ℕ
  lenses : List Lens

/-- `SetOutcome`: the cache id of the list that was replaced, and the lenses to resolve. -/
structure SetOutcome where
  release : Option ℤ
  toResolve : List (ℕ × Value)
  serial : ℕ

/-- `CodeLenses`. -/
structure CodeLenses where
  /-- By document key and provider handle. -/
  byDoc : Std.ExtTreeMap String (Std.ExtTreeMap ℤ LensList)
  /-- Decoration id to document, handle and index. -/
  byId : Std.ExtTreeMap ℕ (String × ℤ × ℕ)
  serial : ℕ

variable {list' : LensList}

namespace CodeLenses

/-- `CodeLenses::new`. -/
def new : CodeLenses := ⟨∅, ∅, 0⟩

/-- The list of a document from a provider. -/
def list (l : CodeLenses) (doc : String) (handle : ℤ) : Option LensList :=
  l.byDoc[doc]?.bind fun lists ↦ lists[handle]?

/-- The lenses of a `$provideCodeLenses` reply; one without a range is skipped. -/
def lensesOf (handle : ℤ) (reply : Value) : List Lens :=
  (((reply.get "lenses").bind (·.asArray)).getD []).foldl (fun lenses dto ↦
    match (dto.get "range").bind Range.ofJson with
    | none => lenses
    | some range =>
      let range := WidgetRange.fromExthost range
      let n := (lenses.filter fun l ↦ l.range.start.line == range.start.line).length
      let key := toString handle ++ "|" ++ toString range.start.line ++ "|" ++ toString n
      lenses ++ [⟨dto, range, (dto.get "command").bind CommandDto.fromJson, key⟩]) []

/-- `CodeLenses::set_list`. -/
def setList (l : CodeLenses) (doc : String) (handle : ℤ) (reply : Value) (resolveCap : ℕ) :
    CodeLenses × SetOutcome :=
  let serial := l.serial + 1
  let lenses := lensesOf handle reply
  let unresolved := lenses.zipIdx.filter fun p ↦ p.1.command.isNone
  let toResolve := (unresolved.take resolveCap).map fun p ↦ (p.2, p.1.dto)
  let list : LensList := ⟨handle, (reply.get "cacheId").bind (·.asI64), serial, lenses⟩
  let release := (l.list doc handle).bind (·.cacheId)
  let lists := (l.byDoc[doc]?).getD ∅
  ({ l with serial, byDoc := l.byDoc.insert doc (lists.insert handle list) },
    ⟨release, toResolve, serial⟩)

/-- `CodeLenses::resolved`: the lists after it, and whether anything changed. -/
def resolved (l : CodeLenses) (doc : String) (handle : ℤ) (serial index : ℕ) (reply : Value) :
    CodeLenses × Bool :=
  match l.byDoc[doc]? with
  | none => (l, false)
  | some lists =>
    match lists[handle]? with
    | none => (l, false)
    | some list =>
      if list.serial ≠ serial then (l, false)
      else
        match list.lenses[index]?, (reply.get "command").bind CommandDto.fromJson with
        | some lens, some command =>
          let list := { list with
            lenses := list.lenses.set index { lens with command := some command } }
          ({ l with byDoc := l.byDoc.insert doc (lists.insert handle list) }, true)
        | _, _ => (l, false)

/-- `CodeLenses::on_edit`: lens ranges carried through an edit. A lens whose range was deleted stays
in place without its command, so that indices stay valid. -/
def onEdit (l : CodeLenses) (doc : String) (edit : WidgetRange) (text : Text) : CodeLenses :=
  match l.byDoc[doc]? with
  | none => l
  | some lists =>
    let lists := lists.map fun _ list ↦ { list with
      lenses := list.lenses.map fun lens ↦
        match transformRange lens.range edit text with
        | some range => { lens with range }
        | none => { lens with command := none } }
    { l with byDoc := l.byDoc.insert doc lists }

/-- `CodeLenses::decorations`: the lists with their ids entered, the ids, and the decorations. -/
def decorations (l : CodeLenses) (doc : String) (version : ℕ) (lines : List Text)
    (ids : DecorationIds) : CodeLenses × DecorationIds × List Decoration :=
  let lists := ((l.byDoc[doc]?).getD ∅).toList
  let drawn := lists.flatMap fun p ↦ p.2.lenses.zipIdx.filterMap fun q ↦
    q.1.command.bind fun cmd ↦ if cmd.title = "" then none else some (p.1, q.1, cmd, q.2)
  let start := (l.byId.filter fun _ entry ↦ entry.1 != doc, ids, ([] : List Decoration))
  let (byId, ids, out) := drawn.foldl (fun acc d ↦
    let (byId, ids, out) := acc
    let (handle, lens, cmd, i) := d
    let (id, ids) := ids.id .codeLens doc lens.key
    (byId.insert id (doc, handle, i), ids,
      out ++ [⟨id, version, .codeLens, none, clampRange lines lens.range, cmd.title.toList⟩])) start
  ({ l with byId }, ids.retain .codeLens doc (out.map (·.id)), sortDecorations out)

/-- `CodeLenses::command_for`: the command behind a clicked decoration. -/
def commandFor (l : CodeLenses) (id : ℕ) : Option (ℤ × CommandDto) :=
  l.byId[id]?.bind fun entry ↦ (l.list entry.1 entry.2.1).bind fun list ↦
    list.lenses[entry.2.2]?.bind fun lens ↦ lens.command.map fun c ↦ (entry.2.1, c)

/-- `CodeLenses::remove_provider`: drop a provider's lists everywhere. -/
def removeProvider (l : CodeLenses) (handle : ℤ) : CodeLenses :=
  { l with byDoc := l.byDoc.map fun _ lists ↦ lists.erase handle }

/-- `CodeLenses::close`: drop a document's lists. Answers with the cache ids to release. -/
def close (l : CodeLenses) (doc : String) : CodeLenses × List (ℤ × ℤ) :=
  let lists := (((l.byDoc[doc]?).getD ∅).toList).map Prod.snd
  ({ l with byDoc := l.byDoc.erase doc, byId := l.byId.filter fun _ entry ↦ entry.1 != doc },
    lists.filterMap fun list ↦ list.cacheId.map fun c ↦ (list.handle, c))

/-! ### The serial of the lists -/

theorem serial_resolved (l : CodeLenses) (doc : String) (handle : ℤ) (serial index : ℕ)
    (reply : Value) : (l.resolved doc handle serial index reply).1.serial = l.serial := by
  unfold resolved
  split
  · rfl
  · split
    · rfl
    · split
      · rfl
      · split <;> rfl

theorem serial_onEdit (l : CodeLenses) (doc : String) (edit : WidgetRange) (text : Text) :
    (l.onEdit doc edit text).serial = l.serial := by
  unfold onEdit
  split <;> rfl

/-! ### Which lists there are -/

/-- Whether a list of a provider is stored for a document. -/
def Holds (l : CodeLenses) (doc : String) (handle : ℤ) : Prop := (l.list doc handle).isSome = true

variable {l : CodeLenses} {doc doc' : String} {handle handle' : ℤ}

/-- The lists of one document are replaced. -/
theorem list_insert (l : CodeLenses) (lists : Std.ExtTreeMap ℤ LensList) (byId serial) :
    list ⟨l.byDoc.insert doc lists, byId, serial⟩ doc' handle =
      if doc = doc' then lists[handle]? else l.list doc' handle := by
  by_cases h : doc = doc' <;> simp [list, Std.ExtTreeMap.getElem?_insert, h]

theorem list_close {list : LensList} (h : (l.close doc).1.list doc' handle = some list) :
    l.list doc' handle = some list := by
  by_cases hdoc : doc = doc'
  · simp [CodeLenses.list, close, hdoc] at h
  · simpa [CodeLenses.list, close, Std.ExtTreeMap.getElem?_erase, hdoc] using h

theorem list_removeProvider {list : LensList}
    (h : (l.removeProvider handle').list doc handle = some list) :
    l.list doc handle = some list := by
  cases hlists : l.byDoc[doc]? with
  | none => simp [CodeLenses.list, removeProvider, hlists] at h
  | some lists =>
    by_cases hhandle : handle' = handle
    · simp [CodeLenses.list, removeProvider, hlists, hhandle] at h
    · simpa [CodeLenses.list, removeProvider, hlists, Std.ExtTreeMap.getElem?_erase, hhandle] using h

/-- The list that a reply brings is stored in the place of the one before. -/
theorem list_setList (reply : Value) (cap : ℕ) :
    (l.setList doc handle reply cap).1.list doc' handle' = if doc = doc' ∧ handle = handle' then
      some ⟨handle, (reply.get "cacheId").bind (·.asI64), l.serial + 1, lensesOf handle reply⟩
    else l.list doc' handle' := by
  rw [setList, list_insert]
  by_cases hdoc : doc = doc'
  · subst hdoc
    by_cases hhandle : handle = handle'
    · simp [hhandle]
    · cases hlists : l.byDoc[doc]? <;>
        simp [Std.ExtTreeMap.getElem?_insert, hhandle, CodeLenses.list, hlists]
  · simp [hdoc]

/-- A resolve reply changes the command of the lens it is for. -/
theorem list_resolved {serial index : ℕ} {reply : Value}
    (h : (l.resolved doc handle serial index reply).1.list doc' handle' = some list') :
    l.list doc' handle' = some list' ∨ (doc = doc' ∧ handle = handle') ∧ ∃ list lens command,
      l.list doc handle = some list ∧ list.serial = serial ∧ list.lenses[index]? = some lens ∧
      (reply.get "command").bind CommandDto.fromJson = some command ∧
      list' = { list with
        lenses := list.lenses.set index { lens with command := some command } } := by
  simp only [resolved] at h
  cases hlists : l.byDoc[doc]? with
  | none =>
    rw [hlists] at h
    exact .inl h
  | some lists =>
    cases hlist : lists[handle]? with simp only [hlists, hlist] at h
    | none =>
      exact .inl h
    | some list =>
      split at h
      · exact .inl h
      · rename_i hserial
        split at h
        · rename_i lens command hlens hcommand
          rw [list_insert] at h
          by_cases hdoc : doc = doc'
          · subst hdoc
            rw [if_pos rfl, Std.ExtTreeMap.getElem?_insert] at h
            split at h
            · rename_i heq
              obtain rfl := Std.LawfulEqCmp.compare_eq_iff_eq.1 heq
              refine .inr ⟨⟨rfl, rfl⟩, list, lens, command, ?_, by simpa using hserial, hlens,
                hcommand, (Option.some.inj h).symm⟩
              simp [CodeLenses.list, hlists, hlist]
            · left
              simpa [CodeLenses.list, hlists] using h
          · rw [if_neg hdoc] at h
            exact .inl h
        · exact .inl h

/-- An edit moves every lens of the lists of its document. -/
theorem list_onEdit {edit : WidgetRange} {text : Text}
    (h : (l.onEdit doc edit text).list doc' handle = some list') :
    (doc ≠ doc' ∧ l.list doc' handle = some list') ∨ doc = doc' ∧ ∃ list,
      l.list doc' handle = some list ∧
      list' = { list with lenses := list.lenses.map fun lens ↦ lens.moved edit text } := by
  simp only [onEdit] at h
  cases hlists : l.byDoc[doc]? with
  | none =>
    rw [hlists] at h
    by_cases hdoc : doc = doc'
    · subst hdoc
      simp [CodeLenses.list, hlists] at h
    · exact .inl ⟨hdoc, h⟩
  | some lists =>
    simp only [hlists] at h
    rw [list_insert] at h
    by_cases hdoc : doc = doc'
    · subst hdoc
      rw [if_pos rfl, Std.ExtTreeMap.getElem?_map, Option.map_eq_some_iff] at h
      obtain ⟨list, hlist, rfl⟩ := h
      exact .inr ⟨rfl, list, by simp [CodeLenses.list, hlists, hlist], rfl⟩
    · rw [if_neg hdoc] at h
      exact .inl ⟨hdoc, h⟩

theorem holds_setList (reply : Value) (cap : ℕ) :
    (l.setList doc handle reply cap).1.Holds doc' handle' ↔
      (doc = doc' ∧ handle = handle') ∨ l.Holds doc' handle' := by
  rw [Holds, setList, list_insert]
  by_cases hdoc : doc = doc'
  · subst hdoc
    by_cases hhandle : handle = handle'
    · simp [hhandle]
    · cases hlists : l.byDoc[doc]? <;>
        simp [Std.ExtTreeMap.getElem?_insert, hhandle, Holds, list, hlists]
  · simp [hdoc, Holds]

theorem holds_resolved (serial index : ℕ) (reply : Value) :
    (l.resolved doc handle serial index reply).1.Holds doc' handle' ↔ l.Holds doc' handle' := by
  simp only [resolved]
  cases hlists : l.byDoc[doc]? with
  | none => rfl
  | some lists =>
    cases hlist : lists[handle]? with
    | none => simp only [hlist]
    | some list =>
      simp only [hlist]
      split
      · rfl
      · split
        · rw [Holds, list_insert]
          by_cases hdoc : doc = doc'
          · subst hdoc
            by_cases hhandle : handle = handle'
            · subst hhandle
              simp [Holds, CodeLenses.list, hlists, hlist]
            · simp [Std.ExtTreeMap.getElem?_insert, hhandle, Holds, CodeLenses.list, hlists]
          · simp [hdoc, Holds]
        · rfl

theorem holds_onEdit (edit : WidgetRange) (text : Text) :
    (l.onEdit doc edit text).Holds doc' handle ↔ l.Holds doc' handle := by
  simp only [onEdit]
  cases hlists : l.byDoc[doc]? with
  | none => rfl
  | some lists =>
    dsimp only
    rw [Holds, list_insert]
    by_cases hdoc : doc = doc'
    · subst hdoc
      simp [Holds, list, hlists]
    · simp [hdoc, Holds]

theorem holds_removeProvider :
    (l.removeProvider handle).Holds doc handle' ↔ handle ≠ handle' ∧ l.Holds doc handle' := by
  cases hlists : l.byDoc[doc]? with
  | none => simp [Holds, list, removeProvider, hlists]
  | some lists =>
    by_cases hhandle : handle = handle' <;>
      simp [Holds, list, removeProvider, hlists, Std.ExtTreeMap.getElem?_erase, hhandle]

theorem holds_close : (l.close doc).1.Holds doc' handle ↔ doc ≠ doc' ∧ l.Holds doc' handle := by
  by_cases hdoc : doc = doc' <;>
    simp [Holds, list, close, Std.ExtTreeMap.getElem?_erase, hdoc]

theorem holds_of_commandFor {id : ℕ} {cmd : CommandDto}
    (h : l.commandFor id = some (handle, cmd)) : ∃ doc, l.Holds doc handle := by
  obtain ⟨⟨doc, handle', i⟩, -, h⟩ := Option.bind_eq_some_iff.1 h
  obtain ⟨list, hlist, h⟩ := Option.bind_eq_some_iff.1 h
  obtain ⟨lens, -, h⟩ := Option.bind_eq_some_iff.1 h
  obtain ⟨c, -, heq⟩ := Option.map_eq_some_iff.1 h
  obtain ⟨rfl, -⟩ := Prod.mk.inj heq
  exact ⟨doc, by rw [Holds, hlist]; rfl⟩

end CodeLenses

end Ember.Editor
