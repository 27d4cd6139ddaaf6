import Ember.Foundation.Transducer
import Mathlib.Data.List.Basic

/-!
# Event streams

The text form of server-sent events. A text is read line by line, where a line ends with a line
feed, with a carriage return, or with both; a line gives a field of the message that is being read,
and an empty line ends the message.

Reading is a chain of transducers, so a part of a text gives a part of its messages
(`messagesOf_mono`). A reader that waits for what comes after a carriage return gives the same
lines, but for one that ends with the text (`linesOf_eq`).
-/

namespace EventStream

/-! ### Lines -/

/-- What has been read of a line, and whether a carriage return was read right before. -/
structure LineReader where
  cur : List Char
  afterCr : Bool
  deriving DecidableEq

/-- One more letter. A line feed behind a carriage return belongs to it. -/
def LineReader.read (r : LineReader) (c : Char) : List (List Char) × LineReader :=
  if c = '\n' then (if r.afterCr then [] else [r.cur], ⟨[], false⟩)
  else if c = '\r' then ([r.cur], ⟨[], true⟩)
  else ([], ⟨r.cur ++ [c], false⟩)

/-- Nothing has been read. -/
def LineReader.start : LineReader := ⟨[], false⟩

/-- The lines of a text that are complete. -/
def linesOf (t : List Char) : List (List Char) := (transduce LineReader.read .start t).1

theorem linesOf_mono {s t : List Char} (h : s <+: t) : linesOf s <+: linesOf t :=
  transduce_mono LineReader.read .start h

/-- A reader that waits after a carriage return for the next letter. -/
structure WaitingReader where
  cur : List Char
  /-- A carriage return has been read behind the line. -/
  cr : Bool
  deriving DecidableEq

/-- One more letter. -/
def WaitingReader.read (r : WaitingReader) (c : Char) : List (List Char) × WaitingReader :=
  if r.cr then
    ([r.cur], if c = '\n' then ⟨[], false⟩ else if c = '\r' then ⟨[], true⟩ else ⟨[c], false⟩)
  else if c = '\n' then ([r.cur], ⟨[], false⟩)
  else if c = '\r' then ([], ⟨r.cur, true⟩)
  else ([], ⟨r.cur ++ [c], false⟩)

/-- Nothing has been read. -/
def WaitingReader.start : WaitingReader := ⟨[], false⟩

/-- The line that a reader has waiting. -/
def WaitingReader.waiting (r : WaitingReader) : List (List Char) := if r.cr then [r.cur] else []

/-- The reader that does not wait. -/
def WaitingReader.prompt (r : WaitingReader) : LineReader := ⟨if r.cr then [] else r.cur, r.cr⟩

theorem WaitingReader.read_prompt (r : WaitingReader) (c : Char) :
    r.waiting ++ (r.prompt.read c).1 = (r.read c).1 ++ (r.read c).2.waiting ∧
      (r.prompt.read c).2 = (r.read c).2.prompt := by
  obtain ⟨cur, cr⟩ := r
  rcases eq_or_ne c '\n' with rfl | hlf
  · cases cr <;> exact ⟨rfl, rfl⟩
  rcases eq_or_ne c '\r' with rfl | hcr
  · cases cr <;> exact ⟨rfl, rfl⟩
  · cases cr <;> simp [WaitingReader.waiting, WaitingReader.prompt, WaitingReader.read,
      LineReader.read, hlf, hcr]

/-- **Waiting holds back at most the last line.** -/
theorem linesOf_eq (t : List Char) :
    linesOf t = (transduce WaitingReader.read .start t).1 ++
        (transduce WaitingReader.read .start t).2.waiting ∧
      (transduce LineReader.read .start t).2 =
        (transduce WaitingReader.read .start t).2.prompt := by
  induction t using List.reverseRecOn with
  | nil => exact ⟨rfl, rfl⟩
  | append_singleton t c ih =>
    obtain ⟨hlines, hstate⟩ := ih
    rw [linesOf] at hlines ⊢
    rw [transduce_concat, transduce_concat, hlines, hstate, List.append_assoc, List.append_assoc]
    obtain ⟨hread, hprompt⟩ := (transduce WaitingReader.read .start t).2.read_prompt c
    exact ⟨by rw [hread], hprompt⟩

/-- A reader waits where a text ends with a carriage return. -/
theorem waiting_eq_nil {t : List Char} (h : t.getLast? ≠ some '\r') :
    (transduce WaitingReader.read .start t).2.waiting = [] := by
  induction t using List.reverseRecOn with
  | nil => rfl
  | append_singleton t c _ =>
    have hc : c ≠ '\r' := fun hc ↦ h (by rw [hc, List.getLast?_concat])
    rw [transduce_concat, WaitingReader.read]
    split
    · split <;> rfl
    · split <;> rfl

/-! ### Messages -/

/-- A message that was read. -/
structure Message where
  id : Option (List Char)
  event : List Char
  data : List Char
  deriving DecidableEq

/-- The name and the value in a line that is no comment. -/
def field (line : List Char) : Option (List Char × List Char) :=
  if line.head? = some ':' then none
  else
    let value := (line.dropWhile (· ≠ ':')).drop 1
    some (line.takeWhile (· ≠ ':'), if value.head? = some ' ' then value.drop 1 else value)

/-- The fields that have been read of a message. -/
structure Block where
  data : List (List Char)
  event : List Char
  id : Option (List Char)
  deriving DecidableEq

namespace Block

/-- No field. -/
def start : Block := ⟨[], [], none⟩

/-- One more field. -/
def set (b : Block) (name value : List Char) : Block :=
  if name = "data".toList then { b with data := b.data ++ [value] }
  else if name = "event".toList then { b with event := value }
  else if name = "id".toList ∧ '\x00' ∉ value then { b with id := some value }
  else b

/-- The message of the fields; without data there is none. -/
def message (b : Block) : List Message :=
  if b.data = [] then []
  else [⟨b.id, if b.event = [] then "message".toList else b.event, ['\n'].intercalate b.data⟩]

/-- One more line. -/
def read (b : Block) (line : List Char) : List Message × Block :=
  if line = [] then (b.message, start)
  else
    match field line with
    | none => ([], b)
    | some (name, value) => ([], b.set name value)

end Block

/-- The messages of a text that are complete. -/
def messagesOf (t : List Char) : List Message := (transduce Block.read .start (linesOf t)).1

/-- **A part of a text gives a part of its messages.** -/
theorem messagesOf_mono {s t : List Char} (h : s <+: t) : messagesOf s <+: messagesOf t :=
  transduce_mono Block.read .start (linesOf_mono h)

end EventStream
