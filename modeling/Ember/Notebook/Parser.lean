import Ember.Foundation.Endings

/-!
# The notebook format

`extensions/vscode-darkpyonix/src/format/parser.ts`: a notebook is a text that is cut at every marker
line into cells. A cell owns its `header`, the marker line with the metadata lines behind it, and its
`source`, everything up to the next marker; line ends belong to the lines. `serialize` puts them
behind each other again, and makes a header for a cell that has none.

The two regular expressions are matched here by hand: both are anchored at both ends and none of
their parts can begin where the part before it could go on, but for a marker's title, which is the
shortest that lets the rest of the line match.

Numbers in metadata are carried as the text `JSON.stringify` prints, and `JSON.parse` is a parameter
of which nothing is assumed. The digests, which nothing reads, are left out.
-/

namespace Ember.Notebook

open Endings

/-- A JavaScript string. -/
abbrev Text := List Char

/-- A JSON value, as `JSON.parse` gives it. -/
inductive Json
  | null
  | bool (b : Bool)
  | num (printed : Text)
  | str (s : Text)
  | arr (elems : List Json)
  | obj (entries : List (Text × Json))

/-- `JSON.parse`, none where it throws. -/
abbrev JsonParse := Text → Option Json

/-! ### The two line patterns -/

/-- `[ \t]`. -/
def isBlank (c : Char) : Bool := c = ' ' || c = '\t'

/-- `[A-Za-z_]`. -/
def isNameStart (c : Char) : Bool :=
  'A' ≤ c && c ≤ 'Z' || 'a' ≤ c && c ≤ 'z' || c = '_'

/-- `[A-Za-z0-9_-]`. -/
def isTypeChar (c : Char) : Bool := isNameStart c || '0' ≤ c && c ≤ '9' || c = '-'

/-- `[A-Za-z0-9_.-]`. -/
def isKeyChar (c : Char) : Bool := isTypeChar c || c = '.'

/-- What `.` does not match. -/
def isLineTerminator (c : Char) : Bool :=
  c = '\n' || c = '\r' || c.toNat = 0x2028 || c.toNat = 0x2029

/-- The groups of a marker. -/
structure Marker where
  title : Option Text
  type : Option Text
  deriving DecidableEq

/-- `(?:[ \t]*\[(?<type>[A-Za-z_][A-Za-z0-9_-]*)\])?[ \t]*$`: the type, if there is one. -/
def matchTail (t : Text) : Option (Option Text) :=
  match t.dropWhile isBlank with
  | [] => some none
  | '[' :: c :: cs =>
    if isNameStart c then
      match cs.dropWhile isTypeChar with
      | ']' :: rest => if rest.all isBlank then some (some (c :: cs.takeWhile isTypeChar)) else none
      | _ => none
    else none
  | _ => none

/-- `(?<title>[^[\n]*?)` and what follows it: the shortest title that lets the rest match. -/
def matchTitle : Text → Option (Text × Option Text)
  | [] => (matchTail []).map fun type ↦ ([], type)
  | c :: cs =>
    match matchTail (c :: cs) with
    | some type => some ([], type)
    | none =>
      if c = '[' ∨ c = '\n' then none
      else (matchTitle cs).map fun p ↦ (c :: p.1, p.2)

/-- `MARKER_RE`. -/
def matchMarker (line : Text) : Option Marker :=
  match line with
  | '#' :: ' ' :: '%' :: '%' :: rest =>
    match rest with
    | [] => some ⟨none, none⟩
    | c :: _ =>
      if isBlank c then
        (matchTitle (rest.dropWhile isBlank)).map fun p ↦ ⟨some p.1, p.2⟩
      else (matchTail rest).map fun type ↦ ⟨none, type⟩
  | _ => none

/-- `METADATA_RE`: the key and the value. -/
def matchMetadata (line : Text) : Option (Text × Text) :=
  match line with
  | '#' :: ' ' :: '@' :: c :: cs =>
    if isNameStart c then
      match cs.dropWhile isKeyChar with
      | ':' :: rest =>
        let value := ((rest.dropWhile isBlank).reverse.dropWhile isBlank).reverse
        if value.any isLineTerminator then none else some (c :: cs.takeWhile isKeyChar, value)
      | _ => none
    else none
  | _ => none

example : matchMarker "# %% Load data [code]  ".toList =
    some ⟨some "Load data".toList, some "code".toList⟩ := by decide +kernel

example : matchMetadata "# @id: \"c-3f2a\" ".toList =
    some ("id".toList, "\"c-3f2a\"".toList) := by decide +kernel

/-! ### Cells -/

/-- `BOM`. -/
def bom : Char := Char.ofNat 0xfeff

/-- `PREAMBLE`. -/
def preamble : Text := "preamble".toList

/-- `CODE`. -/
def code : Text := "code".toList

/-- `MARKDOWN`. -/
def markdown : Text := "markdown".toList

/-- `TYPE_ALIASES`. -/
def typeAliases : List (Text × Text) := [("concorrunt".toList, "concurrent".toList)]

/-- The own entries of a metadata object, in order. -/
abbrev Metadata := List (Text × Json)

/-- `metadata[k] = v`; an assignment to `__proto__` makes no entry. -/
def Metadata.set (metadata : Metadata) (k : Text) (v : Json) : Metadata :=
  if k = "__proto__".toList then metadata
  else if metadata.any fun p ↦ p.1 = k then metadata.map fun p ↦ if p.1 = k then (k, v) else p
  else metadata ++ [(k, v)]

/-- `Cell`. -/
structure Cell where
  /-- 0 is the preamble. -/
  index : ℕ
  type : Text
  /-- The type as written, if it was. -/
  rawType : Option Text
  title : Option Text
  metadata : Metadata
  source : Text
  /-- Empty for the preamble, and for a cell that a client made. -/
  header : Text

/-- `NotebookDocument`. -/
structure NotebookDocument where
  cells : List Cell
  bom : Bool

/-- `splitLines`. -/
def splitLines (text : Text) : List Text := keepLines '\n' text

/-- `content`: a line without its line end. -/
def content (line : Text) : Text :=
  if ['\r', '\n'] <:+ line then line.dropLast.dropLast
  else if ['\n'] <:+ line then line.dropLast
  else line

/-- `metadataValue`: what is not JSON is a string. -/
def metadataValue (parseJson : JsonParse) (raw : Text) : Json := (parseJson raw).getD (.str raw)

/-- `canonicalType`: lower case, aliases resolved. (A lookup of `constructor` or `__proto__` finds
what every object inherits, which equals itself only; the name stands for it.) -/
def canonicalType (rawType : Option Text) : Text :=
  match rawType with
  | none => code
  | some raw =>
    let lowered := raw.map Char.toLower
    ((typeAliases.find? fun p ↦ p.1 = lowered).map Prod.snd).getD lowered

/-! ### Parsing -/

/-- `Chunk`. -/
structure Chunk where
  marker : Option Marker
  items : List (Text × Json)
  header : Text
  source : Text

/-- The loop of `parseChunks`: `chunk` is the one being read, and `inMetadata` says that its header
may go on. -/
def readChunks (parseJson : JsonParse) (chunk : Chunk) (inMetadata : Bool) : List Text → List Chunk
  | [] => [chunk]
  | line :: lines =>
    match matchMarker (content line) with
    | some m => chunk :: readChunks parseJson ⟨some m, [], line, []⟩ true lines
    | none =>
      match if inMetadata then matchMetadata (content line) else none with
      | some (key, value) =>
        readChunks parseJson
          { chunk with
            items := chunk.items ++ [(key, metadataValue parseJson value)]
            header := chunk.header ++ line }
          true lines
      | none => readChunks parseJson { chunk with source := chunk.source ++ line } false lines

/-- The text behind a leading BOM. -/
def withoutBom (text : Text) : Text := if [bom] <+: text then text.drop 1 else text

/-- `parseChunks`, the chunks. -/
def parseChunks (parseJson : JsonParse) (text : Text) : List Chunk :=
  readChunks parseJson ⟨none, [], [], []⟩ false (splitLines (withoutBom text))

/-- The cell of a chunk. -/
def Chunk.cell (chunk : Chunk) (index : ℕ) : Cell :=
  match chunk.marker with
  | none => ⟨0, preamble, none, none, [], chunk.source, chunk.header⟩
  | some m =>
    { index := index
      type := canonicalType m.type
      rawType := m.type
      title := m.title.filter (· ≠ [])
      metadata := chunk.items.foldl (fun metadata p ↦ Metadata.set metadata p.1 p.2) []
      source := chunk.source
      header := chunk.header }

/-- `parse`. -/
def parse (parseJson : JsonParse) (text : Text) : NotebookDocument where
  cells := ((parseChunks parseJson text).zipIdx).map fun p ↦ p.1.cell p.2
  bom := decide ([bom] <+: text)

/-! ### Serializing -/

/-- A code unit as four hexadecimal digits. -/
def hex4 (n : ℕ) : Text :=
  let digits := Nat.toDigits 16 n
  List.replicate (4 - digits.length) '0' ++ digits

/-- A character as `\u` escapes, one for each code unit. -/
def escapeUnits (c : Char) : Text :=
  let n := c.toNat
  if n < 0x10000 then '\\' :: 'u' :: hex4 n
  else
    '\\' :: 'u' :: hex4 (0xd800 + (n - 0x10000) / 0x400) ++
      '\\' :: 'u' :: hex4 (0xdc00 + (n - 0x10000) % 0x400)

/-- One character of a string that `pyJsonDumps` prints: `JSON.stringify`, and then everything that
is not ASCII escaped. -/
def dumpChar (c : Char) : Text :=
  if c = '"' then ['\\', '"']
  else if c = '\\' then ['\\', '\\']
  else if c = '\n' then ['\\', 'n']
  else if c = '\r' then ['\\', 'r']
  else if c = '\t' then ['\\', 't']
  else if c.toNat = 8 then ['\\', 'b']
  else if c.toNat = 12 then ['\\', 'f']
  else if c.toNat < 0x20 ∨ 0x80 ≤ c.toNat then escapeUnits c
  else [c]

/-- A string as `pyJsonDumps` prints it. -/
def dumpString (s : Text) : Text := '"' :: s.flatMap dumpChar ++ ['"']

mutual

/-- `pyJsonDumps`. -/
def pyJsonDumps : Json → Text
  | .null => "null".toList
  | .bool b => if b then "true".toList else "false".toList
  | .num printed => printed
  | .str s => dumpString s
  | .arr elems => '[' :: (", ".toList).intercalate (dumpElems elems) ++ [']']
  | .obj entries => Char.ofNat 123 :: (", ".toList).intercalate (dumpEntries entries) ++
      [Char.ofNat 125]

/-- The elements of an array. -/
def dumpElems : List Json → List Text
  | [] => []
  | v :: vs => pyJsonDumps v :: dumpElems vs

/-- The entries of an object. -/
def dumpEntries : List (Text × Json) → List Text
  | [] => []
  | (k, v) :: entries => (dumpString k ++ ": ".toList ++ pyJsonDumps v) :: dumpEntries entries

end

/-- The value of a metadata line: a string as it is, when it would be read back as that string. -/
def metadataText (parseJson : JsonParse) (value : Json) : Text :=
  match value with
  | .str s =>
    match metadataValue parseJson s with
    | .str s' => if s' = s then s else pyJsonDumps (.str s)
    | _ => pyJsonDumps (.str s)
  | v => pyJsonDumps v

/-- The marker line that `formatHeader` makes. -/
def formatMarker (title type : Option Text) : Text :=
  let titled := match title with
    | some t => if t = [] then "# %%".toList else "# %% ".toList ++ t
    | none => "# %%".toList
  match type with
  | some t => if t = [] then titled else titled ++ " [".toList ++ t ++ "]".toList
  | none => titled

/-- `formatHeader`. -/
def formatHeader (parseJson : JsonParse) (title type : Option Text) (metadata : Metadata) : Text :=
  let lines := metadata.map fun p ↦ "# @".toList ++ p.1 ++ ": ".toList ++ metadataText parseJson p.2
  ['\n'].intercalate (formatMarker title type :: lines) ++ ['\n']

/-- What `serialize` has written: everything, and the last part of it. -/
structure Written where
  out : Text
  last : Text

/-- One part, if there is anything in it. -/
def Written.write (w : Written) (part : Text) : Written :=
  if part = [] then w else ⟨w.out ++ part, part⟩

/-- The header of a cell, made when it has none. -/
def Cell.writtenHeader (parseJson : JsonParse) (cell : Cell) : Text :=
  if cell.header = [] ∧ cell.index ≠ 0 ∧ cell.type ≠ preamble then
    formatHeader parseJson cell.title (some (cell.rawType.getD cell.type)) cell.metadata
  else cell.header

/-- One round of the loop of `serialize`. -/
def serializeCell (parseJson : JsonParse) (w : Written) (cell : Cell) : Written :=
  let header := cell.writtenHeader parseJson
  let w₁ := if header ≠ [] ∧ w.last ≠ [] ∧ ¬ ['\n'] <:+ w.last then
    { w with out := w.out ++ ['\n'] } else w
  (w₁.write header).write cell.source

/-- `serialize`. -/
def serialize (parseJson : JsonParse) (doc : NotebookDocument) : Text :=
  (if doc.bom then [bom] else []) ++ (doc.cells.foldl (serializeCell parseJson) ⟨[], []⟩).out

end Ember.Notebook
