import Ember.EditorConn.Places

/-!
# Offsets in a document

`DocumentMirror::offset_at` of the document's copy (`editor-conn/src/document.rs`), in every state
that the operations bring it into. That the lines are lines is a field of the mirror. What is shown
here is that a position's offset is the length of the text before it, that offsets come strictly in
the order of their positions, and which positions have none.
-/

namespace Ember.EditorConn

/-- A column of a line is a place, or inside a pair, or behind the end. -/
theorem column_cases (t : Text) {col : ℕ} (h : col ≤ utf16Len t) :
    (∃ k ≤ t.length, utf16Len (t.take k) = col) ∨
      ∃ front c rest, t = front ++ c :: rest ∧ utf16Width c = 2 ∧ col = utf16Len front + 1 := by
  induction t generalizing col with
  | nil => exact .inl ⟨0, le_rfl, (Nat.le_zero.1 h).symm⟩
  | cons c t ih =>
    by_cases hzero : col = 0
    · exact .inl ⟨0, Nat.zero_le _, hzero.symm⟩
    by_cases hinside : col < utf16Width c
    · have hwide : utf16Width c = 2 ∧ col = 1 := by
        rw [utf16Width] at hinside ⊢
        split at hinside
        · omega
        · rename_i hc
          rw [if_neg hc]
          omega
      exact .inr ⟨[], c, t, rfl, hwide.1, hwide.2⟩
    · rw [utf16Len_cons] at h
      obtain ⟨k, hk, hcol⟩ | ⟨front, d, rest, rfl, hwide, hcol⟩ :=
        ih (by omega : col - utf16Width c ≤ utf16Len t)
      · refine .inl ⟨k + 1, Nat.succ_le_succ hk, ?_⟩
        rw [List.take_succ_cons, utf16Len_cons, hcol]
        omega
      · refine .inr ⟨c :: front, d, rest, rfl, hwide, ?_⟩
        rw [utf16Len_cons]
        omega

namespace DocumentMirror

variable {m : DocumentMirror} {line column k line' column' k' : ℕ}

/-- A position outside the document: no such line, or no such column. -/
def Outside (m : DocumentMirror) (line column : ℕ) : Prop :=
  line = 0 ∨ m.lines.length < line ∨ column = 0 ∨
    utf16Len (Lines.line m.lines (line - 1)) + 1 < column

/-- A position between the two units of a character. -/
def InsidePair (m : DocumentMirror) (line column : ℕ) : Prop :=
  ∃ front c rest, Lines.line m.lines (line - 1) = front ++ c :: rest ∧ utf16Width c = 2 ∧
    column = utf16Len front + 2

/-- **Which positions are none.** -/
theorem not_at_iff : (¬ ∃ k, m.At line column k) ↔
    m.Outside line column ∨ m.InsidePair line column := by
  constructor
  · intro hnone
    by_contra hin
    rw [not_or, Outside, not_or, not_or, not_or] at hin
    obtain ⟨⟨hline, hlast, hcolumn, hend⟩, hpair⟩ := hin
    obtain ⟨k, hk, hcol⟩ | ⟨front, c, rest, hl, hwide, hcol⟩ :=
      column_cases (Lines.line m.lines (line - 1)) (by omega : column - 1 ≤ _)
    · exact hnone ⟨k, Nat.pos_of_ne_zero hline, Nat.pos_of_ne_zero hcolumn, by omega, hk, hcol⟩
    · exact hpair ⟨front, c, rest, hl, hwide, by omega⟩
  · rintro h ⟨k, hat⟩
    have hpos := hat.line_pos
    have hlt := hat.place.lt
    have hcol := hat.column_pos
    have hplace := hat.place.col
    obtain hout | ⟨front, c, rest, hl, hwide, hcolumn⟩ := h
    · have hle := utf16Len_take_le hat.place.le (t := Lines.line m.lines (line - 1))
      rw [List.take_length] at hle
      rw [Outside] at hout
      omega
    · -- A place before the character is not behind its first unit, and one behind it is behind both.
      rw [hl] at hplace
      obtain hle | hgt := Nat.lt_or_ge front.length k
      · have hwhole := utf16Len_take_le (t := front ++ c :: rest) hle
        rw [Nat.succ_eq_add_one, List.take_length_add_append, utf16Len_append] at hwhole
        change utf16Len front + utf16Width c ≤ _ at hwhole
        omega
      · have hfront := utf16Len_take_le (t := front ++ c :: rest) hgt
        rw [List.take_left] at hfront
        omega

/-- Offsets come strictly in the order of their positions. -/
theorem before_lt (h : m.At line column k) (h' : m.At line' column' k')
    (hlt : toLex (line, column) < (toLex (line', column') : ℕ ×ₗ ℕ)) :
    utf16Len (m.before (line - 1) k) < utf16Len (m.before (line' - 1) k') := by
  obtain hline | ⟨hsame, hk⟩ := (h.placeLE_iff h').2 hlt.le
  · -- A later line comes behind a line end.
    obtain ⟨d, hd⟩ := Nat.exists_eq_add_of_lt hline
    have hspell : 0 < utf16Len (m.eol.spell '\r' '\n') := by cases m.eol <;> decide
    rw [before, before, hd, Nat.add_right_comm, Lines.before_add (k := k) h.place.lt,
      utf16Len_append, utf16Len_append, utf16Len_append]
    omega
  · have hnot := (not_congr (h'.placeLE_iff h)).2 hlt.not_ge
    rw [Lines.PlaceLE, not_or, not_and] at hnot
    have hless : k < k' := (Nat.lt_or_eq_of_le hk).resolve_right fun heq ↦
      hnot.2 hsame.symm heq.ge
    have htake := utf16Len_take_lt hless h'.place.le
    rw [before, before, hsame, Lines.before, Lines.before, utf16Len_append, utf16Len_append]
    omega

theorem exists_at_of_offsetAt {o : ℕ} (h : m.offsetAt line column = .ok o) :
    ∃ k, m.At line column k ∧ o = utf16Len (m.before (line - 1) k) := by
  cases hindex : m.charIndex line column with
  | error err =>
    rw [offsetAt, hindex] at h
    cases h
  | ok k =>
    have hat := charIndex_eq_ok.1 hindex
    rw [offsetAt_eq_ok hat] at h
    exact ⟨k, hat, (Except.ok.inj h).symm⟩

theorem offsetAt_eq_error_iff :
    (∃ err, m.offsetAt line column = .error err) ↔ ¬ ∃ k, m.At line column k := by
  constructor
  · rintro ⟨err, herr⟩ ⟨k, hat⟩
    rw [offsetAt_eq_ok hat] at herr
    cases herr
  · intro hnone
    cases hoffset : m.offsetAt line column with
    | error err => exact ⟨err, rfl⟩
    | ok o =>
      obtain ⟨k, hat, -⟩ := exists_at_of_offsetAt hoffset
      exact absurd ⟨k, hat⟩ hnone

/-- What is done with a document's copy. -/
inductive Use
  | apply (change : EditorChange)
  | replaceAll (text : Text)
  | setEol (eol : Lines.Break)

/-- The copy afterwards, whatever the operation says. -/
def use (m : DocumentMirror) : Use → DocumentMirror
  | .apply change => (m.apply change).1
  | .replaceAll text => (m.replaceAll text).1
  | .setEol eol => (m.setEol eol).1

/-- **The copy of a document**, after any operations: it has lines without line ends, and its text
is split into them again; a position has the offset that is the length of the text before it, later
positions have greater ones, and a position has none exactly if it is outside the document or inside
a pair. -/
theorem offsets_of_run (uri : UriComponents) (text : Text) (languageId : String) (uses : List Use) :
    let m := uses.foldl use (new uri text languageId)
    (m.lines ≠ [] ∧ (∀ l ∈ m.lines, '\r' ∉ l ∧ '\n' ∉ l) ∧ splitLines m.text = m.lines) ∧
      (∀ line column k, m.At line column k →
        m.before (line - 1) k <+: m.text ∧
          m.offsetAt line column = .ok (utf16Len (m.before (line - 1) k))) ∧
      (∀ line column o line' column' o', m.offsetAt line column = .ok o →
        m.offsetAt line' column' = .ok o' →
          toLex (line, column) < (toLex (line', column') : ℕ ×ₗ ℕ) → o < o') ∧
      ∀ line column, (∃ err, m.offsetAt line column = .error err) ↔
        m.Outside line column ∨ m.InsidePair line column := by
  intro m
  refine ⟨⟨m.valid.1, m.valid.2, splitLines_joinLines m.valid m.eol⟩, fun line column k hat ↦ ?_,
    fun line column o line' column' o' ho ho' hlt ↦ ?_, fun line column ↦ ?_⟩
  · exact ⟨⟨_, Lines.before_append_after hat.place.lt k⟩, offsetAt_eq_ok hat⟩
  · obtain ⟨k, hat, rfl⟩ := exists_at_of_offsetAt ho
    obtain ⟨k', hat', rfl⟩ := exists_at_of_offsetAt ho'
    exact before_lt hat hat' hlt
  · rw [offsetAt_eq_error_iff, not_at_iff]

end DocumentMirror

end Ember.EditorConn
