import Ember.Notebook.Parser
import Mathlib.Data.List.Infix

/-!
# What the notebook editor shows

`extensions/vscode-darkpyonix/src/format/cells.ts`: the editor shows a cleaned-up view of each cell
body, and what is needed to restore the body travels in the cell's metadata: the header, the blank
lines at the end, the line ends, and the `darkpyonix.markdown` call around a Markdown text.
-/

namespace Ember.Notebook

open Endings

/-! ### Bodies -/

/-- Whether `\r?\n[ \t\r\n]*$` matches at the beginning. -/
def blankToEnd : Text → Bool
  | '\r' :: '\n' :: rest => rest.all fun c ↦ isBlank c || c = '\r' || c = '\n'
  | '\n' :: rest => rest.all fun c ↦ isBlank c || c = '\r' || c = '\n'
  | _ => false

/-- `splitTrailer`: the code, and the blank lines behind it. -/
def splitTrailer : Text → Text × Text
  | [] => ([], [])
  | c :: cs =>
    if blankToEnd (c :: cs) then ([], c :: cs)
    else ((c :: (splitTrailer cs).1), (splitTrailer cs).2)

/-- The line ends of a body as it is saved. -/
inductive Eol
  | lf
  | crlf
  deriving DecidableEq

/-- The line end, spelled out. -/
def Eol.spell : Eol → Text
  | .lf => ['\n']
  | .crlf => ['\r', '\n']

/-- `detectEol`. -/
def detectEol (main : Text) : Eol :=
  if ['\r', '\n'] <:+: main ∧ main.count '\n' = pairs '\r' '\n' main then .crlf else .lf

/-- A text with these line ends. -/
def Eol.restore (eol : Eol) (text : Text) : Text :=
  match eol with
  | .crlf => divide '\r' '\n' text
  | .lf => text

/-- A body as it is displayed. -/
def display (main : Text) : Text :=
  match detectEol main with
  | .crlf => unite '\r' '\n' main
  | .lf => main

/-- `\s`. -/
def isSpace (c : Char) : Bool :=
  let n := c.toNat
  9 ≤ n && n ≤ 13 || n == 0x20 || n == 0xa0 || n == 0x1680 || 0x2000 ≤ n && n ≤ 0x200a ||
    n == 0x2028 || n == 0x2029 || n == 0x202f || n == 0x205f || n == 0x3000 || n == 0xfeff

/-- `MarkdownWrapper`: the call around a Markdown text. -/
structure MarkdownWrapper where
  /-- `prefix`. -/
  opening : Text
  /-- `suffix`. -/
  closing : Text

/-- The two triple quotes. -/
def doubleQuotes : Text := "\"\"\"".toList

/-- The other one. -/
def singleQuotes : Text := "'''".toList

/-- `("""|''')` at the beginning. -/
def takeQuote (t : Text) : Option Text :=
  if doubleQuotes <+: t then some doubleQuotes
  else if singleQuotes <+: t then some singleQuotes
  else none

/-- What `MD_OPEN` begins with. -/
def mdCall : Text := "darkpyonix.markdown(".toList

/-- `([rRuU]?)`. -/
def takeLetter : Text → Text
  | c :: _ => if c = 'r' ∨ c = 'R' ∨ c = 'u' ∨ c = 'U' then [c] else []
  | [] => []

/-- `\n?`. -/
def takeLineEnd : Text → Text
  | c :: _ => if c = '\n' then [c] else []
  | [] => []

/-- `MD_OPEN`: the match and its quote. -/
def matchOpen (code : Text) : Option (Text × Text) :=
  if mdCall <+: code then
    let t₁ := code.drop mdCall.length
    let space := t₁.takeWhile isSpace
    let t₂ := t₁.drop space.length
    let letter := takeLetter t₂
    let t₃ := t₂.drop letter.length
    match takeQuote t₃ with
    | some quote =>
      let lineEnd := takeLineEnd (t₃.drop quote.length)
      some (mdCall ++ space ++ letter ++ quote ++ lineEnd, quote)
    | none => none
  else none

/-- `(?:,[^"']*)?\)[ \t]*$`. -/
def closesCall (t : Text) : Bool :=
  match (t.reverse.dropWhile isBlank), t with
  | ')' :: [], _ => true
  | ')' :: before, ',' :: _ => before.all fun c ↦ c ≠ '"' ∧ c ≠ '\''
  | _, _ => false

/-- `MD_CLOSE`. -/
def matchClose (suffix : Text) : Bool :=
  let t := suffix.drop (takeLineEnd suffix).length
  match takeQuote t with
  | some quote => closesCall ((t.drop quote.length).dropWhile isSpace)
  | none => false

/-- `lastIndexOf`. -/
def lastIndexOf (q : Text) : Text → Option ℕ
  | [] => none
  | c :: cs =>
    match lastIndexOf q cs with
    | some i => some (i + 1)
    | none => if q <+: c :: cs then some 0 else none

/-- A Markdown cell, taken apart. -/
structure Unwrapped where
  md : MarkdownWrapper
  text : Text

/-- Where the Markdown text ends: before the closing quote, and before a line end in front of it. -/
def bodyEnd (rest : Text) (close : ℕ) : ℕ :=
  if close > 0 ∧ rest[close - 1]? = some '\n' then close - 1 else close

/-- `unwrapMarkdown`. -/
def unwrapMarkdown (code : Text) : Option Unwrapped :=
  match matchOpen code with
  | none => none
  | some (opening, quote) =>
    let rest := code.drop opening.length
    match lastIndexOf quote rest with
    | none => none
    | some close =>
      let text := rest.take (bodyEnd rest close)
      let suffix := rest.drop (bodyEnd rest close)
      if ¬ matchClose suffix ∨ quote <:+: text then none
      -- the backslash would escape the closing quote
      else if ['\\'] <:+ text then none
      else some ⟨⟨opening, suffix⟩, text⟩

/-- `wrapMarkdown`. -/
def wrapMarkdown (md : MarkdownWrapper) (text : Text) : Text :=
  let quote := if singleQuotes <:+: md.opening then singleQuotes else doubleQuotes
  let escaped := replaceAll quote
    (if quote = doubleQuotes then "\\\"\\\"\\\"".toList else "\\'\\'\\'".toList) text
  md.opening ++ escaped ++ (if ['\\'] <:+ escaped ∧ ¬ ['\n'] <+: md.closing then [' '] else []) ++
    md.closing

/-! ### Views -/

/-- `DpxCellMeta`. -/
structure DpxCellMeta where
  type : Text
  rawType : Option Text
  title : Option Text
  metadata : Metadata
  header : Text
  trailer : Text
  eol : Eol
  md : Option MarkdownWrapper

/-- How a cell is shown. -/
inductive Kind
  | code
  | markup
  deriving DecidableEq

/-- `ViewCell`; its language is Python for code and Markdown for markup. -/
structure ViewCell where
  kind : Kind
  value : Text
  /-- None for a cell that the user made. -/
  cellMeta : Option DpxCellMeta

/-- `ViewNotebook`. -/
structure ViewNotebook where
  cells : List ViewCell
  bom : Bool

/-- `DEFAULT_MD`. -/
def defaultMd : MarkdownWrapper :=
  ⟨"darkpyonix.markdown(\"\"\"\n".toList, "\n\"\"\")".toList⟩

/-- What `bodyToView` is told besides the type and the body. -/
structure Rest where
  rawType : Option Text
  title : Option Text
  metadata : Metadata
  header : Text

/-- `bodyToView`. -/
def bodyToView (type source : Text) (rest : Rest) : ViewCell :=
  let main := (splitTrailer source).1
  let cellMeta : DpxCellMeta :=
    { type := type
      rawType := rest.rawType.orElse fun _ ↦ if type = preamble then none else some type
      title := rest.title
      metadata := rest.metadata
      header := rest.header
      trailer := (splitTrailer source).2
      eol := detectEol main
      md := none }
  match if type = markdown then unwrapMarkdown (display main) else none with
  | some un => ⟨.markup, un.text, some { cellMeta with md := some un.md }⟩
  | none => ⟨.code, display main, some cellMeta⟩

/-- `cellToView`. -/
def cellToView (cell : Cell) : ViewCell :=
  bodyToView cell.type cell.source ⟨cell.rawType, cell.title, cell.metadata, cell.header⟩

/-- Whether the editor shows a cell. -/
def Cell.shown (cell : Cell) : Bool := !(cell.type = preamble && cell.source = [])

/-- `textToView`. -/
def textToView (parseJson : JsonParse) (text : Text) : ViewNotebook :=
  let doc := parse parseJson text
  ⟨(doc.cells.filter Cell.shown).map cellToView, doc.bom⟩

/-- `effectiveType`. -/
def effectiveType (view : ViewCell) (position : ℕ) : Text :=
  match view.kind with
  | .markup => markdown
  | .code =>
    match view.cellMeta with
    | none => code
    | some cellMeta =>
      if cellMeta.type = preamble then if position = 0 then preamble else code
      else if cellMeta.type = markdown then
        match cellMeta.md with
        | none => markdown
        | some _ => code
      else cellMeta.type

/-- `viewToSource`. -/
def viewToSource (view : ViewCell) (position : ℕ) (isLast : Bool) : Text :=
  let type := effectiveType view position
  let text := unite '\r' '\n' view.value
  let main :=
    if type = markdown ∧ view.kind = .markup then
      wrapMarkdown ((view.cellMeta.bind DpxCellMeta.md).getD defaultMd) text
    else text
  let eol := (view.cellMeta.map DpxCellMeta.eol).getD .lf
  let trailer := match view.cellMeta with
    | some cellMeta => cellMeta.trailer
    | none => if isLast then eol.spell else eol.spell ++ eol.spell ++ eol.spell
  eol.restore main ++ trailer

/-- `headerFor`: the header, and the type to make one from. -/
def headerFor (view : ViewCell) (position : ℕ) : Text × Option Text :=
  let type := effectiveType view position
  match view.cellMeta with
  | none => ([], some type)
  | some cellMeta =>
    if type = preamble then ([], none)
    else if canonicalType cellMeta.rawType = type ∧ cellMeta.type ≠ preamble then (cellMeta.header, cellMeta.rawType)
    else ([], some type)

/-- The format cell of an editor cell. -/
def viewToCell (index : ℕ) (isLast : Bool) (view : ViewCell) (position : ℕ) : Cell where
  index := index
  type := effectiveType view position
  rawType := (headerFor view position).2
  title := view.cellMeta.bind DpxCellMeta.title
  metadata := (view.cellMeta.map DpxCellMeta.metadata).getD []
  source := viewToSource view position isLast
  header := (headerFor view position).1

/-- Whether the first editor cell is the preamble. -/
def hasPreamble (views : List ViewCell) : Bool :=
  match views with
  | view :: _ => effectiveType view 0 = preamble
  | [] => false

/-- `viewToDocument`. -/
def viewToDocument (nb : ViewNotebook) : NotebookDocument :=
  let first : List Cell :=
    if hasPreamble nb.cells then [] else [⟨0, preamble, none, none, [], [], []⟩]
  ⟨first ++ nb.cells.zipIdx.map fun p ↦
    viewToCell (first.length + p.2) (p.2 == nb.cells.length - 1) p.1 p.2, nb.bom⟩

/-- `viewToText`. -/
def viewToText (parseJson : JsonParse) (nb : ViewNotebook) : Text :=
  serialize parseJson (viewToDocument nb)

end Ember.Notebook
