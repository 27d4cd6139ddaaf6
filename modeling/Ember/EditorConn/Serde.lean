import Ember.Foundation.Reader
import Ember.Foundation.Utf8

/-!
# JSON in a binary message

`serde_json` is not part of the repository, so the formats are written for any JSON values `J` with
their texts. What the formats rely on is that a text is read back: `Serde.RoundTrips`.
-/

namespace Ember.EditorConn

/-- `Error`, as far as encoding and decoding fail with it. -/
inductive Error
  /-- The text of a `serde_json::Error`. -/
  | json (text : String)
  | malformed (what : String)
  | unknownProxy (name : String)
  deriving DecidableEq, Repr

/-- `serde_json`, for JSON values `J`. Writing a value that is already JSON does not fail. -/
structure Serde (J : Type) where
  /-- `to_string` of a value. -/
  toText : J → String
  /-- `to_string` of a list of values. -/
  arrayText : List J → String
  /-- `from_slice`, a value from bytes. -/
  fromSlice : List UInt8 → Except String J
  /-- `from_str`, a value from a text. -/
  fromStr : String → Except String J
  /-- `from_str`, a list of values from a text. -/
  arrayFromStr : String → Except String (List J)

/-- JSON values come back from their texts. -/
structure Serde.RoundTrips {J : Type} (serde : Serde J) : Prop where
  fromSlice_toText : ∀ j, serde.fromSlice (utf8 (serde.toText j)) = .ok j
  fromStr_toText : ∀ j, serde.fromStr (serde.toText j) = .ok j
  arrayFromStr_arrayText : ∀ js, serde.arrayFromStr (serde.arrayText js) = .ok js

/-- `?` on a `serde_json::Error`, while reading. -/
def liftJson {α : Type} (r : Except String α) : Reader Error UInt8 α := fun rest ↦
  match r with
  | .ok v => .ok (v, rest)
  | .error e => .error (.json e)

theorem reads_liftJson {α : Type} {r : Except String α} {v : α} (h : r = .ok v) :
    Reader.Reads (liftJson r) [] v := fun rest ↦ by
  rw [h]
  rfl

/-! ### The two values true and false -/

/-- The text of a boolean. -/
def boolText (b : Bool) : String := if b then "true" else "false"

/-- A boolean from its text. -/
def boolFromStr (s : String) : Except String Bool :=
  if s = "true" then .ok true
  else if s = "false" then .ok false
  else .error "expected value at line 1 column 1"

theorem boolFromStr_boolText (b : Bool) : boolFromStr (boolText b) = .ok b := by
  cases b <;> rfl

/-- The text of a list of booleans. -/
def boolArrayText (bs : List Bool) : String :=
  .ofList ('[' :: ([','].intercalate (bs.map fun b ↦ (boolText b).toList) ++ [']']))

/-- A list of booleans from its text. -/
def boolArrayFromStr (s : String) : Except String (List Bool) :=
  let words := (s.toList.drop 1).dropLast.splitOn ','
  if words = [[]] then .ok [] else words.mapM fun w ↦ boolFromStr (.ofList w)

/-- `serde_json` on the two JSON values `true` and `false`. -/
def boolSerde : Serde Bool where
  toText := boolText
  arrayText := boolArrayText
  fromSlice bs := boolFromStr (utf8Lossy bs)
  fromStr := boolFromStr
  arrayFromStr := boolArrayFromStr

theorem mapM_boolText (bs : List Bool) :
    ((bs.map fun b ↦ (boolText b).toList).mapM fun w ↦ boolFromStr (.ofList w)) = .ok bs := by
  induction bs with
  | nil => rfl
  | cons b bs ih =>
    rw [List.map_cons, List.mapM_cons, String.ofList_toList, boolFromStr_boolText, ih]
    rfl

theorem boolSerde_roundTrips : boolSerde.RoundTrips where
  fromSlice_toText b := by
    simp only [boolSerde, utf8Lossy_utf8, boolFromStr_boolText]
  fromStr_toText := boolFromStr_boolText
  arrayFromStr_arrayText bs := by
    have hwords : ((boolArrayText bs).toList.drop 1).dropLast =
        [','].intercalate (bs.map fun b ↦ (boolText b).toList) := by
      rw [boolArrayText, String.toList_ofList, List.drop_one, List.tail_cons, List.dropLast_concat]
    simp only [boolSerde, boolArrayFromStr, hwords]
    cases bs with
    | nil => rfl
    | cons b bs =>
      have hcomma : ∀ w ∈ (b :: bs).map fun b ↦ (boolText b).toList, ',' ∉ w := by
        intro w hw
        obtain ⟨b, -, rfl⟩ := List.mem_map.1 hw
        cases b <;> decide
      have hne : ((b :: bs).map fun b ↦ (boolText b).toList) ≠ [[]] := by
        cases b <;> exact fun h ↦ absurd (List.cons.inj h).1 (by decide)
      rw [List.splitOn_intercalate ',' hcomma (by simp), if_neg hne, mapM_boolText]

end Ember.EditorConn
