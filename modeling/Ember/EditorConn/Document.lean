import Ember.EditorConn.ExtHost
import Mathlib.Data.List.Sort
import Mathlib.Data.Prod.Lex

/-!
# Ember's copy of a document

`DocumentMirror` and the edits it takes. Its lines carry what splitting a text gives: there is at
least one, and none holds a line break; every operation rebuilds that. A column counts UTF-16 code
units, and where the source has a byte index into a line this file has a character index.
-/

namespace Ember.EditorConn

/-- Splitting on `\r\n`, `\r` or `\n`. -/
def splitLines (text : Text) : List Text := Lines.split '\r' '\n' text

/-- What a document's lines are. -/
abbrev ValidLines (lines : List Text) : Prop := Lines.Valid '\r' '\n' lines

theorem validLines_splitLines (text : Text) : ValidLines (splitLines text) := Lines.valid_split text

/-- The lines joined by a line break. -/
def joinLines (eol : Lines.Break) (lines : List Text) : Text := Lines.join '\r' '\n' eol lines

variable {lines : List Text}

@[simp] theorem splitLines_joinLines (h : ValidLines lines) (eol : Lines.Break) :
    splitLines (joinLines eol lines) = lines :=
  Lines.split_join (by decide) eol h

/-- `detect_eol`: `\r\n` if the first line feed follows a carriage return, else `\n`. -/
def detectEol (text : Text) : Lines.Break :=
  if (text.takeWhile (· ≠ '\n')).getLast? = some '\r' ∧ '\n' ∈ text then .crlf else .lf

/-- `char::len_utf16`. -/
def utf16Width (c : Char) : ℕ := if c.toNat < 0x10000 then 1 else 2

/-- `utf16_len`. -/
def utf16Len (t : Text) : ℕ := (t.map utf16Width).sum

/-- Why a column is not a place in a line. -/
inductive BadColumn
  | splitsPair
  | outOfRange
  deriving DecidableEq, Repr

/-- How many characters of a line come before a column counted from 0. -/
def indexOfColumn : Text → ℕ → Except BadColumn ℕ
  | [], column => if column = 0 then .ok 0 else .error .outOfRange
  | c :: cs, column =>
    if column = 0 then .ok 0
    else if column < utf16Width c then .error .splitsPair
    else (indexOfColumn cs (column - utf16Width c)).map (· + 1)

/-- `TextEdit`: one replacement, in pre-edit coordinates. -/
structure TextEdit where
  range : Range
  text : Text
  deriving DecidableEq, Repr

/-- `EditReason`. -/
inductive EditReason
  | normal
  | undo
  | redo
  deriving DecidableEq, Repr

/-- `EditorChange`. -/
structure EditorChange where
  edits : List TextEdit
  reason : EditReason
  /-- The version after this change; `none` counts on. -/
  version : Option ℕ
  deriving DecidableEq, Repr

/-- `Error::Malformed`, as it reads. -/
def malformed (what : String) : String := "malformed frame or message: " ++ what

/-- The start of a range, as positions are compared. -/
def Range.start (r : Range) : ℕ ×ₗ ℕ := toLex (r.startLineNumber, r.startColumn)

/-- The end of a range, as positions are compared. -/
def Range.end_ (r : Range) : ℕ ×ₗ ℕ := toLex (r.endLineNumber, r.endColumn)

/-- `DocumentMirror`: Ember's copy of one document. -/
structure DocumentMirror where
  uri : UriComponents
  languageId : String
  encoding : String
  lines : List Text
  eol : Lines.Break
  version : ℕ
  dirty : Bool
  valid : ValidLines lines

namespace DocumentMirror

/-- `DocumentMirror::new`. -/
def new (uri : UriComponents) (text : Text) (languageId : String) : DocumentMirror :=
  ⟨uri, languageId, "utf8", splitLines text, detectEol text, 1, false, validLines_splitLines text⟩

/-- `DocumentMirror::with_version`. -/
def withVersion (m : DocumentMirror) (version : ℕ) : DocumentMirror := { m with version }

/-- `DocumentMirror::text`. -/
def text (m : DocumentMirror) : Text := joinLines m.eol m.lines

/-- `DocumentMirror::mark_saved`. -/
def markSaved (m : DocumentMirror) : DocumentMirror := { m with dirty := false }

/-- `DocumentMirror::added_data`. -/
def addedData (m : DocumentMirror) : ModelAddedData :=
  ⟨m.uri, m.version, m.lines, m.eol, m.languageId, m.dirty, m.encoding⟩

/-- `DocumentMirror::full_range`. -/
def fullRange (m : DocumentMirror) : Range :=
  ⟨1, 1, m.lines.length, utf16Len (m.lines.getLast?.getD []) + 1⟩

/-- `DocumentMirror::byte_index`, of a line and a column counted from 1. -/
def charIndex (m : DocumentMirror) (line column : ℕ) : Except String ℕ :=
  if line = 0 then .error (malformed "line 0")
  else
    match m.lines[line - 1]? with
    | none => .error (malformed ("line " ++ toString line ++ " out of range"))
    | some l =>
      if column = 0 then .error (malformed "column 0")
      else
        match indexOfColumn l (column - 1) with
        | .ok i => .ok i
        | .error .splitsPair =>
          .error (malformed ("column " ++ toString column ++ " splits a surrogate pair"))
        | .error .outOfRange =>
          .error (malformed ("column " ++ toString column ++ " out of range on line " ++
            toString line))

/-- `DocumentMirror::offset_at`: the UTF-16 offset of a position. -/
def offsetAt (m : DocumentMirror) (line column : ℕ) : Except String ℕ := do
  let _ ← m.charIndex line column
  let eol := utf16Len (m.eol.spell '\r' '\n')
  let before := ((m.lines.take (line - 1)).map fun l ↦ utf16Len l + eol).sum
  .ok (before + column - 1)

/-- `DocumentMirror::range_is_valid`. -/
def rangeIsValid (m : DocumentMirror) (r : Range) : Except String Unit :=
  if r.end_ < r.start then .error (malformed "range end before start")
  else do
    let _ ← m.charIndex r.startLineNumber r.startColumn
    let _ ← m.charIndex r.endLineNumber r.endColumn
    .ok ()

end DocumentMirror

/-- New lines between what is left of the first line and what is left of the last. -/
def surround (before : Text) (lines : List Text) (after : Text) : List Text :=
  let lines := lines.modifyHead (before ++ ·)
  lines.dropLast ++ (lines.getLast?.map (· ++ after)).toList

/-- Lines `si` to `ei` replaced: the characters before `sb` and from `eb` on stay. -/
def spliceLines (lines : List Text) (si sb ei eb : ℕ) (new : List Text) : List Text :=
  let before := ((lines[si]?).getD []).take sb
  let after := ((lines[ei]?).getD []).drop eb
  lines.take si ++ surround before new after ++ lines.drop (ei + 1)

theorem validLines_surround {before after : Text} (hbefore : Lines.NoBreak '\r' '\n' before)
    (hafter : Lines.NoBreak '\r' '\n' after)
    (h : ValidLines lines) : ValidLines (surround before lines after) := by
  obtain ⟨hnil, hbreak⟩ := h
  obtain ⟨l, ls, rfl⟩ := List.exists_cons_of_ne_nil hnil
  have hhead : ∀ m ∈ (before ++ l) :: ls, Lines.NoBreak '\r' '\n' m := fun m hm ↦ by
    rcases List.mem_cons.1 hm with rfl | hm
    · exact hbefore.append (hbreak l List.mem_cons_self)
    · exact hbreak m (List.mem_cons_of_mem _ hm)
  have hlast := List.getLast?_eq_some_getLast (List.cons_ne_nil (before ++ l) ls)
  rw [surround, List.modifyHead_cons, hlast]
  refine ⟨by simp, fun m hm ↦ ?_⟩
  rcases List.mem_append.1 hm with hm | hm
  · exact hhead m ((List.dropLast_sublist _).subset hm)
  · obtain rfl := List.mem_singleton.1 hm
    exact (hhead _ (List.getLast_mem _)).append hafter

theorem validLines_splice {new : List Text} (hlines : ValidLines lines) (hnew : ValidLines new)
    (si sb ei eb : ℕ) : ValidLines (spliceLines lines si sb ei eb new) := by
  have hline : ∀ i : ℕ, Lines.NoBreak '\r' '\n' ((lines[i]?).getD []) := fun i ↦ by
    cases hi : lines[i]? with
    | none => exact Lines.noBreak_nil
    | some l => exact hlines.2 l (List.mem_of_getElem? hi)
  obtain ⟨hnil, hbreak⟩ := validLines_surround ((hline si).sublist (List.take_sublist sb _))
    ((hline ei).sublist (List.drop_sublist eb _)) hnew
  refine ⟨by simp [spliceLines, hnil], fun m hm ↦ ?_⟩
  rcases List.mem_append.1 hm with hm | hm
  · rcases List.mem_append.1 hm with hm | hm
    · exact hlines.2 m (List.mem_of_mem_take hm)
    · exact hbreak m hm
  · exact hlines.2 m (List.mem_of_mem_drop hm)

namespace DocumentMirror

/-- `DocumentMirror::apply_one`: replace `range` with `text`, its line breaks made the document's.
The change says where that was before it. -/
def applyOne (m : DocumentMirror) (range : Range) (text : Text) :
    Except String (DocumentMirror × ModelContentChange) := do
  let rangeOffset ← m.offsetAt range.startLineNumber range.startColumn
  let endOffset ← m.offsetAt range.endLineNumber range.endColumn
  let sb ← m.charIndex range.startLineNumber range.startColumn
  let eb ← m.charIndex range.endLineNumber range.endColumn
  let si := range.startLineNumber - 1
  let ei := range.endLineNumber - 1
  let newLines := splitLines text
  .ok ({ m with
    lines := spliceLines m.lines si sb ei eb newLines
    valid := validLines_splice m.valid (validLines_splitLines text) si sb ei eb },
    ⟨range, rangeOffset, endOffset - rangeOffset, joinLines m.eol newLines⟩)

/-- The edits one after the other. An edit that does not apply stops at what the others did. -/
def applyEdits (m : DocumentMirror) :
    List TextEdit → DocumentMirror × Except String (List ModelContentChange)
  | [] => (m, .ok [])
  | e :: edits =>
    match m.applyOne e.range e.text with
    | .error err => (m, .error err)
    | .ok (m, change) =>
      match m.applyEdits edits with
      | (m, .ok changes) => (m, .ok (change :: changes))
      | (m, .error err) => (m, .error err)

/-- Whether edits sorted from the end of the document overlap. -/
def overlapping : List TextEdit → Bool
  | later :: earlier :: edits =>
    decide (later.range.start < earlier.range.end_) || overlapping (earlier :: edits)
  | _ => false

/-- `DocumentMirror::apply`: one editor operation, and the event for `$acceptModelChanged`. -/
def apply (m : DocumentMirror) (change : EditorChange) :
    DocumentMirror × Except String ModelContentChangedEvent :=
  match change.edits.mapM fun e ↦ m.rangeIsValid e.range with
  | .error err => (m, .error err)
  | .ok _ =>
    let edits := change.edits.insertionSort fun a b ↦ a.range.start ≥ b.range.start
    if overlapping edits then (m, .error (malformed "overlapping edits"))
    else
      let newVersion := change.version.getD (m.version + 1)
      if newVersion ≤ m.version then
        (m, .error (malformed ("version " ++ toString newVersion ++ " does not increase past " ++
          toString m.version)))
      else
        match m.applyEdits edits with
        | (m, .error err) => (m, .error err)
        | (m, .ok changes) =>
          ({ m with version := newVersion, dirty := true },
            .ok ⟨changes, m.eol, newVersion, change.reason == .undo, change.reason == .redo, false,
              false⟩)

/-- `DocumentMirror::replace_all`: the whole content replaced. -/
def replaceAll (m : DocumentMirror) (text : Text) :
    DocumentMirror × Except String ModelContentChangedEvent :=
  match m.applyOne m.fullRange text with
  | .error err => (m, .error err)
  | .ok (m, change) =>
    ({ m with version := m.version + 1 },
      .ok ⟨[change], m.eol, m.version + 1, false, false, true, false⟩)

/-- `DocumentMirror::set_eol`. -/
def setEol (m : DocumentMirror) (eol : Lines.Break) : DocumentMirror × ModelContentChangedEvent :=
  ({ m with eol, version := m.version + 1 }, ⟨[], eol, m.version + 1, false, false, false, true⟩)

/-- **One edit either applies or leaves the mirror alone.** It applies when its range is one of the
document and the version goes up. -/
theorem apply_cases (m : DocumentMirror) (range : Range) (text : Text) (version : ℕ) :
    (∃ err, m.apply ⟨[⟨range, text⟩], .normal, some version⟩ = (m, .error err)) ∨
    ∃ m' change, m.rangeIsValid range = .ok () ∧ m.version < version ∧
      m.applyOne range text = .ok (m', change) ∧
      m.apply ⟨[⟨range, text⟩], .normal, some version⟩ = ({ m' with version, dirty := true },
        .ok ⟨[change], m'.eol, version, false, false, false, false⟩) := by
  cases hvalid : m.rangeIsValid range with
  | error err => exact .inl ⟨err, by simp [apply, hvalid, bind, Except.bind]⟩
  | ok _ =>
    have hrun : m.apply ⟨[⟨range, text⟩], .normal, some version⟩ =
        if version ≤ m.version then (m, .error (malformed ("version " ++ toString version ++
          " does not increase past " ++ toString m.version)))
        else match m.applyEdits [⟨range, text⟩] with
          | (m, .error err) => (m, .error err)
          | (m, .ok changes) => ({ m with version, dirty := true },
              .ok ⟨changes, m.eol, version, false, false, false, false⟩) := by
      simp only [apply, List.mapM_cons, List.mapM_nil, hvalid]
      rfl
    rw [hrun]
    split
    · exact .inl ⟨_, rfl⟩
    · rename_i hversion
      cases hone : m.applyOne range text with
      | error err => exact .inl ⟨err, by simp only [applyEdits, hone]⟩
      | ok p =>
        obtain ⟨m', change⟩ := p
        exact .inr ⟨m', change, rfl, by omega, rfl, by simp only [applyEdits, hone]⟩

end DocumentMirror

end Ember.EditorConn
