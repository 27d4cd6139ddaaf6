import Ember.Foundation.Cuts
import Mathlib.Algebra.Ring.Nat

/-!
# The scrollback of a persistent terminal

The rows that scroll off arrive as what `encode_row` appends for them and whether they wrap, in
portions as large as the output of one read was. Rows are joined while they wrap, a line that grows
past `MAX_LINE_BYTES` is cut, and the ring drops its oldest lines when there are too many of them or
too many bytes. The counter of bytes is a `usize`: here the subtraction of `push_line` has no result
where it would pass below zero.

**Key theorem** (`harvested`): after any portions the scrollback is the newest lines of the rows
that fit, the unfinished line is what follows the last line, and neither depends on the portions.
-/

namespace Ember.Node.Snapshot

/-- `SCROLLBACK_LINES`. -/
def scrollbackLines : ℕ := 10000

/-- `SCROLLBACK_BYTES`. -/
def scrollbackBytes : ℕ := 3 * 1024 * 1024

/-- `MAX_LINE_BYTES`. -/
def maxLineBytes : ℕ := 256 * 1024

/-- A row that scrolled off. -/
structure Row where
  /-- What `encode_row` appends for it. -/
  text : List UInt8
  /-- `row_wraps`. -/
  wraps : Bool
  deriving DecidableEq, Repr

/-- The bytes of some rows, one after another. -/
def textOf (rows : List Row) : List UInt8 := rows.flatMap Row.text

/-- The bytes of some lines, counted. -/
def size (lines : List (List UInt8)) : ℕ := (lines.map List.length).sum

/-- A logical line ends with a row that does not wrap, and is cut where it is too long. -/
def ends (line : List Row) : Bool :=
  line.getLast?.any fun row ↦ ! row.wraps || maxLineBytes < (textOf line).length

/-- What the ring may hold. -/
def Fits (lines : List (List UInt8)) : Prop :=
  lines.length ≤ scrollbackLines ∧ size lines ≤ scrollbackBytes

/-- The fields of `Screen` that a harvest changes. -/
structure Ring where
  scrollback : List (List UInt8)
  scrollbackBytes : ℕ
  partialLine : List UInt8
  deriving DecidableEq, Repr

namespace Ring

/-- The fields as `Screen::new` sets them. -/
def new : Ring := ⟨[], 0, []⟩

/-- The `while` loop of `Screen::push_line`. -/
def evict : List (List UInt8) → ℕ → Option (List (List UInt8) × ℕ)
  | [], n => some ([], n)
  | line :: lines, n =>
    if lines.length + 1 > scrollbackLines ∨ n > Snapshot.scrollbackBytes then
      if line.length ≤ n then evict lines (n - line.length) else none
    else some (line :: lines, n)

/-- `Screen::push_line`. -/
def pushLine (s : Ring) (line : List UInt8) : Option Ring :=
  (evict (s.scrollback ++ [line]) (s.scrollbackBytes + line.length)).map fun kept ↦
    { s with scrollback := kept.1, scrollbackBytes := kept.2 }

/-- One row of `Screen::harvest`. -/
def harvestRow (s : Ring) (row : Row) : Option Ring :=
  let line := s.partialLine ++ row.text
  if row.wraps = false ∨ line.length > maxLineBytes then
    { s with partialLine := [] }.pushLine line
  else some { s with partialLine := line }

/-- `Screen::harvest`, `rows` being the history of the emulator, oldest first. -/
def harvest (s : Ring) (rows : List Row) : Option Ring := rows.foldlM harvestRow s

/-- One harvest after another. -/
def harvestAll (batches : List (List Row)) : Option Ring := batches.foldlM harvest new

end Ring

/-! ### The lines of some rows -/

@[simp] theorem textOf_concat (rows : List Row) (row : Row) :
    textOf (rows ++ [row]) = textOf rows ++ row.text := by
  simp [textOf]

@[simp] theorem size_cons (line : List UInt8) (lines : List (List UInt8)) :
    size (line :: lines) = line.length + size lines := by
  simp [size]

@[simp] theorem size_concat (lines : List (List UInt8)) (line : List UInt8) :
    size (lines ++ [line]) = size lines + line.length := by
  simp [size]

theorem ends_concat (rows : List Row) (row : Row) :
    ends (rows ++ [row]) = true ↔
      row.wraps = false ∨ maxLineBytes < (textOf rows ++ row.text).length := by
  simp [ends]

theorem Fits.of_concat (lines : List (List UInt8)) (line : List UInt8)
    (h : Fits (lines ++ [line])) : Fits lines := by
  obtain ⟨hlines, hbytes⟩ := h
  rw [List.length_append] at hlines
  rw [size_concat] at hbytes
  exact ⟨by omega, by omega⟩

/-! ### The ring -/

namespace Ring

/-- The loop of `push_line` keeps the newest lines that fit, and their bytes. -/
theorem evict_spec (lines : List (List UInt8)) :
    ∃ kept, evict lines (size lines) = some (kept, size kept) ∧ IsNewest Fits kept lines := by
  induction lines with
  | nil => exact ⟨[], rfl, .of_fits (by simp [Fits, size])⟩
  | cons line lines ih =>
    unfold evict
    split
    case isTrue hover =>
      obtain ⟨kept, hkept, hnewest⟩ := ih
      refine ⟨kept, ?_, hnewest.cons fun hfit ↦ ?_⟩
      · rw [size_cons, if_pos (Nat.le_add_right _ _), Nat.add_sub_cancel_left, hkept]
      · obtain ⟨hlines, hbytes⟩ := hfit
        rw [List.length_cons] at hlines
        omega
    case isFalse hover =>
      push Not at hover
      exact ⟨line :: lines, rfl, .of_fits ⟨by simpa using hover.1, hover.2⟩⟩

/-- What the ring holds after some rows. -/
structure Holds (s : Ring) (rows : List Row) (lines : List (List Row)) (rest : List Row) : Prop where
  cuts : Cuts (ends · = true) rows lines rest
  newest : IsNewest Fits s.scrollback (lines.map textOf)
  bytes : s.scrollbackBytes = size s.scrollback
  rest : s.partialLine = textOf rest

theorem holds_new : new.Holds [] [] [] where
  cuts := .nil (by simp [ends])
  newest := .of_fits (by simp [Fits, size, new])
  bytes := rfl
  rest := rfl

variable {s : Ring} {rows rest : List Row} {lines : List (List Row)}

theorem Holds.pushLine (h : s.Holds rows lines rest) {row : Row}
    (hends : ends (rest ++ [row]) = true) :
    ∃ s', { s with partialLine := [] }.pushLine (s.partialLine ++ row.text) = some s' ∧
      s'.Holds (rows ++ [row]) (lines ++ [rest ++ [row]]) [] := by
  obtain ⟨kept, hkept, hnewest⟩ := evict_spec (s.scrollback ++ [s.partialLine ++ row.text])
  refine ⟨⟨kept, size kept, []⟩, ?_, ?_⟩
  · rw [size_concat, ← h.bytes] at hkept
    rw [Ring.pushLine, hkept]
    rfl
  · refine ⟨h.cuts.close_concat (by simp [ends]) hends, ?_, rfl, rfl⟩
    rw [h.rest, ← textOf_concat] at hnewest
    simpa using h.newest.concat Fits.of_concat hnewest

theorem Holds.harvestRow (h : s.Holds rows lines rest) (row : Row) :
    ∃ s' lines' rest', s.harvestRow row = some s' ∧ s'.Holds (rows ++ [row]) lines' rest' := by
  have hends := ends_concat rest row
  rw [← h.rest] at hends
  by_cases hend : ends (rest ++ [row]) = true
  · obtain ⟨s', hs', hholds⟩ := h.pushLine hend
    exact ⟨s', _, _, (if_pos (hends.1 hend)).trans hs', hholds⟩
  · refine ⟨_, lines, rest ++ [row], if_neg (mt hends.2 hend), h.cuts.open_concat hend, h.newest,
      h.bytes, ?_⟩
    rw [textOf_concat]
    exact congrArg (· ++ row.text) h.rest

theorem Holds.harvest (h : s.Holds rows lines rest) (batch : List Row) :
    ∃ s' lines' rest', s.harvest batch = some s' ∧ s'.Holds (rows ++ batch) lines' rest' := by
  induction batch generalizing s rows lines rest with
  | nil => exact ⟨s, lines, rest, rfl, by simpa using h⟩
  | cons row batch ih =>
    obtain ⟨s₁, lines₁, rest₁, hs₁, h₁⟩ := h.harvestRow row
    obtain ⟨s₂, lines₂, rest₂, hs₂, h₂⟩ := ih h₁
    refine ⟨s₂, lines₂, rest₂, ?_, by simpa using h₂⟩
    rw [Ring.harvest, List.foldlM_cons, hs₁]
    exact hs₂

/-- Harvests are one harvest of all their rows. -/
theorem harvestAll_eq (batches : List (List Row)) :
    harvestAll batches = new.harvest batches.flatten := by
  rw [harvestAll, harvest]
  generalize new = s
  induction batches generalizing s with
  | nil => rfl
  | cons batch batches ih =>
    rw [List.foldlM_cons, List.flatten_cons, List.foldlM_append, harvest]
    exact congrArg _ (funext ih)

/-- **The scrollback is the newest lines**, and the unfinished line follows them. No subtraction
passes below zero, the counter is the bytes of the lines, and the division of the rows into
harvests does not matter. -/
theorem harvested (batches : List (List Row)) :
    ∃ s lines rest, harvestAll batches = some s ∧
      Cuts (ends · = true) batches.flatten lines rest ∧
      IsNewest Fits s.scrollback (lines.map textOf) ∧
      s.partialLine = textOf rest ∧
      s.scrollbackBytes = size s.scrollback ∧
      ∀ batches' : List (List Row), batches'.flatten = batches.flatten →
        harvestAll batches' = some s := by
  obtain ⟨s, lines, rest, hs, hholds⟩ := holds_new.harvest batches.flatten
  refine ⟨s, lines, rest, (harvestAll_eq batches).trans hs, hholds.cuts, hholds.newest, hholds.rest,
    hholds.bytes, fun batches' hflat ↦ ?_⟩
  rw [harvestAll_eq, hflat, hs]

end Ring

end Ember.Node.Snapshot
