import Ember.Editor.Coords
import Ember.EditorConn.Edits
import Mathlib.Tactic.IntervalCases

/-!
# Ranges carried through an edit

`transform_range` against what the edit does to the document. A position at or after the end of the
edit comes to stand where the same text is after it (`place_shiftAfter`), one at or before its start
stays, and what the edit covers is gone. Lines and columns only ever go up by less than they come
down, so that no subtraction of the source goes below zero.
-/

namespace Ember.Editor

open EditorConn

variable {p q : WidgetPos}

namespace WidgetPos

theorem le_iff : p ≤ q ↔ p.line < q.line ∨ p.line = q.line ∧ p.col ≤ q.col := by
  show toLex (p.line, p.col) ≤ toLex (q.line, q.col) ↔ _
  rw [Prod.Lex.toLex_le_toLex]

theorem lt_iff : p < q ↔ p.line < q.line ∨ p.line = q.line ∧ p.col < q.col := by
  show toLex (p.line, p.col) < toLex (q.line, q.col) ↔ _
  rw [Prod.Lex.toLex_lt_toLex]

theorem trans {r : WidgetPos} (hpq : p ≤ q) (hqr : q ≤ r) : p ≤ r := by
  rw [le_iff] at *
  omega

theorem eq_iff : p = q ↔ p.line = q.line ∧ p.col = q.col := by
  obtain ⟨_, _⟩ := p
  obtain ⟨_, _⟩ := q
  exact mk.injEq _ _ _ _ ▸ Iff.rfl

/-- The position is a place of these lines. -/
def In (p : WidgetPos) (lines : List Text) : Prop := ∃ k, IsPlace lines p.line p.col k

end WidgetPos

namespace WidgetRange

/-- A range of these lines: its start is not after its end, and both are places. -/
structure In (r : WidgetRange) (lines : List Text) : Prop where
  le : r.start ≤ r.end_
  start : r.start.In lines
  stop : r.end_.In lines

/-- The range counted from 1. -/
def oneBased (r : WidgetRange) : Range :=
  ⟨r.start.line + 1, r.start.col + 1, r.end_.line + 1, r.end_.col + 1⟩

/-- The edit covers the range. -/
def Covers (edit r : WidgetRange) : Prop := edit.start ≤ r.start ∧ r.end_ ≤ edit.end_

/-- The edit ends before the range or starts after it. -/
def Misses (edit r : WidgetRange) : Prop := r.end_ ≤ edit.start ∨ edit.end_ ≤ r.start

end WidgetRange

/-- The code units of a document in a range. -/
def covered (m : DocumentMirror) (r : WidgetRange) : List ℕ :=
  ((encodeUtf16 m.text).take (m.offset (r.end_.line + 1) (r.end_.col + 1))).drop
    (m.offset (r.start.line + 1) (r.start.col + 1))

/-! ### Positions -/

variable {k : ℕ}

/-- A place, counted from 1. -/
theorem at_of_isPlace {m : DocumentMirror} (h : IsPlace m.lines p.line p.col k) :
    m.At (p.line + 1) (p.col + 1) k := ⟨Nat.succ_pos _, Nat.succ_pos _, h⟩

theorem hasRange_oneBased {m : DocumentMirror} {r : WidgetRange} {sk ek : ℕ}
    (hs : IsPlace m.lines r.start.line r.start.col sk) (he : IsPlace m.lines r.end_.line r.end_.col ek)
    (hle : r.start ≤ r.end_) : m.HasRange r.oneBased sk ek := by
  refine ⟨at_of_isPlace hs, at_of_isPlace he, ?_⟩
  rw [WidgetPos.le_iff] at hle
  rw [Range.start, Range.end_, Prod.Lex.toLex_le_toLex]
  show r.start.line + 1 < r.end_.line + 1 ∨ r.start.line + 1 = r.end_.line + 1 ∧
    r.start.col + 1 ≤ r.end_.col + 1
  omega

theorem placeLE_iff {lines : List Text} {k' : ℕ} (hp : IsPlace lines p.line p.col k)
    (hq : IsPlace lines q.line q.col k') :
    Lines.PlaceLE p.line k q.line k' ↔ p ≤ q := hp.placeLE_iff hq

/-- What a range covers: the text up to its end without the text up to its start. -/
theorem covered_eq {m : DocumentMirror} {r : WidgetRange} {sk ek : ℕ}
    (hs : IsPlace m.lines r.start.line r.start.col sk)
    (he : IsPlace m.lines r.end_.line r.end_.col ek) :
    covered m r = (encodeUtf16 (m.before r.end_.line ek)).drop
      (utf16Len (m.before r.start.line sk)) := by
  have hs' := at_of_isPlace hs
  have he' := at_of_isPlace he
  rw [covered, DocumentMirror.offset_eq hs', DocumentMirror.offset_eq he', DocumentMirror.text_eq he',
    encodeUtf16_append, List.take_left' (length_encodeUtf16 _)]
  rfl

/-! ### The position after an edit -/

section Edit

variable {lines : List Text} {edit : WidgetRange} {sk ek : ℕ} {text : Text}

/-- The end of the text put in is where the line it ends in ends. -/
theorem endOfInsert_eq (hs : IsPlace lines edit.start.line edit.start.col sk) :
    endOfInsert edit.start text = ⟨edit.start.line + ((splitLines text).length - 1),
      utf16Len (Lines.lastLine ((Lines.line lines edit.start.line).take sk) (splitLines text))⟩ := by
  rw [endOfInsert]
  obtain ⟨l, new, hnew⟩ := List.exists_cons_of_ne_nil (validLines_splitLines text).1
  rw [hnew]
  cases new with
  | nil =>
    rw [Lines.lastLine_singleton, utf16Len_append, hs.col]
    rfl
  | cons l' new =>
    rw [Lines.lastLine_of_two (List.cons_ne_nil l' new)]
    rfl

theorem start_le_endOfInsert (p : WidgetPos) (text : Text) : p ≤ endOfInsert p text := by
  rw [WidgetPos.le_iff]
  simp only [endOfInsert]
  split <;> dsimp only <;> omega

/-- The end of an edit goes to the end of what it puts in. -/
theorem shiftAfter_end (edit : WidgetRange) (insEnd : WidgetPos) :
    shiftAfter edit.end_ edit insEnd = insEnd := by
  rw [shiftAfter, if_pos rfl, Nat.sub_self, Nat.add_zero]

/-- Positions after an edit stay in order. -/
theorem shiftAfter_lt (insEnd : WidgetPos) (hp : edit.end_ ≤ p) (hpq : p < q) :
    shiftAfter p edit insEnd < shiftAfter q edit insEnd := by
  rw [WidgetPos.le_iff] at hp
  rw [WidgetPos.lt_iff] at hpq ⊢
  rw [shiftAfter, shiftAfter]
  split <;> split <;> dsimp only <;> omega

theorem shiftAfter_le (insEnd : WidgetPos) (hp : edit.end_ ≤ p) (hpq : p ≤ q) :
    shiftAfter p edit insEnd ≤ shiftAfter q edit insEnd := by
  rw [WidgetPos.le_iff] at hp hpq ⊢
  rw [shiftAfter, shiftAfter]
  split <;> split <;> dsimp only <;> omega

/-- **A position after an edit** is carried to the place where the same text stands before it, but for
what the edit replaced. -/
theorem place_shiftAfter (text : Text) (hs : IsPlace lines edit.start.line edit.start.col sk)
    (he : IsPlace lines edit.end_.line edit.end_.col ek) (eol : Lines.Break)
    (hp : IsPlace lines p.line p.col k) (hle : edit.end_ ≤ p) :
    ∃ k' t, IsPlace (Lines.splice lines edit.start.line sk edit.end_.line ek (splitLines text))
        (shiftAfter p edit (endOfInsert edit.start text)).line
        (shiftAfter p edit (endOfInsert edit.start text)).col k' ∧
      Lines.before '\r' '\n' eol lines p.line k =
        Lines.before '\r' '\n' eol lines edit.end_.line ek ++ t ∧
      Lines.before '\r' '\n' eol
          (Lines.splice lines edit.start.line sk edit.end_.line ek (splitLines text))
          (shiftAfter p edit (endOfInsert edit.start text)).line k' =
        Lines.before '\r' '\n' eol lines edit.start.line sk ++ joinLines eol (splitLines text) ++ t := by
  have hne := (validLines_splitLines text).1
  have hsi := hs.lt.le
  rw [WidgetPos.le_iff] at hle
  rw [endOfInsert_eq hs]
  set new := splitLines text
  set last := Lines.lastLine ((Lines.line lines edit.start.line).take sk) new
  by_cases hline : p.line = edit.end_.line
  · -- in the line the edit ends in
    have hcol : edit.end_.col ≤ p.col := by omega
    have hk : ek ≤ k := by
      have hplace := (placeLE_iff he hp).2 (WidgetPos.le_iff.2 hle)
      rw [Lines.PlaceLE] at hplace
      omega
    rw [shiftAfter, if_pos hline]
    have hpk := hp.le
    have hpcol := hp.col
    rw [hline] at hpk hpcol ⊢
    rw [Lines.take_drop_append _ hk, utf16Len_append, he.col] at hpcol
    obtain ⟨hlast, hbefore⟩ := Lines.before_splice_last '\r' '\n' eol sk edit.end_.line ek hne hsi
      (k - ek)
    have hlt : edit.start.line + (new.length - 1) <
        (Lines.splice lines edit.start.line sk edit.end_.line ek new).length := by
      obtain ⟨init, hlen, -, hsplice⟩ := Lines.splice_eq '\r' '\n' eol sk edit.end_.line ek hne hsi
      rw [hsplice, List.length_append, hlen, List.length_cons]
      omega
    refine ⟨last.length + (k - ek), _, ⟨hlt, ?_, ?_⟩, Lines.before_eq_append hk, hbefore⟩
    · rw [hlast, List.length_append, List.length_drop]
      show last.length + (k - ek) ≤ last.length + _
      omega
    · rw [hlast, List.take_length_add_append, utf16Len_append]
      show utf16Len last + _ = utf16Len last + (p.col - edit.end_.col)
      omega
  · -- in a later line
    obtain ⟨d, hd⟩ := Nat.exists_eq_add_of_lt (show edit.end_.line < p.line by omega)
    have hd' : p.line = edit.end_.line + 1 + d := by omega
    rw [shiftAfter, if_neg hline]
    have hshift : p.line + (edit.start.line + (new.length - 1)) - edit.end_.line =
        edit.start.line + (new.length - 1) + 1 + d := by omega
    dsimp only
    rw [hshift]
    obtain ⟨hlater, hbefore⟩ := Lines.before_splice_later '\r' '\n' eol sk edit.end_.line ek hne hsi d k
    have hlt : edit.start.line + (new.length - 1) + 1 + d <
        (Lines.splice lines edit.start.line sk edit.end_.line ek new).length := by
      obtain ⟨init, hlen, -, hsplice⟩ := Lines.splice_eq '\r' '\n' eol sk edit.end_.line ek hne hsi
      have hplt := hp.lt
      rw [hsplice, List.length_append, hlen, List.length_cons, List.length_drop]
      omega
    refine ⟨k, _, ⟨hlt, ?_, ?_⟩, ?_, hbefore⟩
    · rw [hlater, ← hd']
      exact hp.le
    · rw [hlater, ← hd']
      exact hp.col
    · rw [hd']
      exact Lines.before_add he.lt

end Edit

/-! ### Ranges -/

section Ranges

variable {m m' : DocumentMirror} {edit r : WidgetRange} {text : Text}

/-- What the edit leaves of a range that it neither misses nor covers: its ends are in order, and only
an empty range is left empty. -/
theorem cut_cases {insEnd : WidgetPos} (hins : edit.start ≤ insEnd)
    (hcovers : ¬ (r.isEmpty = false ∧ edit.start ≤ r.start ∧ r.end_ ≤ edit.end_)) :
    (if r.start < edit.start then r.start else insEnd) <
      (if edit.end_ < r.end_ then shiftAfter r.end_ edit insEnd else insEnd) ∨
    r.isEmpty = true ∧ (if r.start < edit.start then r.start else insEnd) =
      (if edit.end_ < r.end_ then shiftAfter r.end_ edit insEnd else insEnd) := by
  have hshift : edit.end_ < r.end_ → insEnd < shiftAfter r.end_ edit insEnd := fun hlt ↦ by
    have h := shiftAfter_lt insEnd (WidgetPos.le_iff.2 (.inr ⟨rfl, le_rfl⟩)) hlt
    rwa [shiftAfter_end] at h
  rw [WidgetPos.le_iff] at hins
  split
  · rename_i hstart
    rw [WidgetPos.lt_iff] at hstart
    left
    split
    · have h := hshift ‹_›
      rw [WidgetPos.lt_iff] at h ⊢
      omega
    · rw [WidgetPos.lt_iff]
      omega
  · rename_i hstart
    split
    · exact .inl (hshift ‹_›)
    · rename_i hend
      rw [WidgetPos.lt_iff] at hstart hend
      refine .inr ⟨?_, rfl⟩
      by_contra hno
      exact hcovers ⟨Bool.eq_false_iff.2 hno, WidgetPos.le_iff.2 (by omega),
        WidgetPos.le_iff.2 (by omega)⟩

/-- **What becomes of a range**: it stays before the edit, moves after it, is gone when the edit covers
it, or is cut back to what the edit left, around what it put in. -/
theorem transformRange_cases (edit r : WidgetRange) (text : Text) :
    (r.end_ ≤ edit.start ∧ transformRange r edit text = some r) ∨
    (edit.end_ ≤ r.start ∧ transformRange r edit text = some
      ⟨shiftAfter r.start edit (endOfInsert edit.start text),
        shiftAfter r.end_ edit (endOfInsert edit.start text)⟩) ∨
    ((r.isEmpty = false ∧ edit.Covers r) ∧ transformRange r edit text = none) ∨
    (¬ edit.Misses r ∧ ¬ (r.isEmpty = false ∧ edit.Covers r) ∧ ∃ start end_ : WidgetPos,
      transformRange r edit text = some ⟨start, end_⟩ ∧ start ≤ end_ ∧
      (start = endOfInsert edit.start text ∨ start = r.start ∧ r.start ≤ edit.start) ∧
      (end_ = endOfInsert edit.start text ∨ edit.end_ ≤ r.end_ ∧
        end_ = shiftAfter r.end_ edit (endOfInsert edit.start text))) := by
  have hempty : ∀ x : WidgetRange, x.isEmpty = true ↔ x.start = x.end_ := fun x ↦ beq_iff_eq
  have hins := start_le_endOfInsert edit.start text
  generalize hinsEnd : endOfInsert edit.start text = insEnd at hins
  rw [transformRange, hinsEnd]
  dsimp only
  split
  · rename_i hbefore
    refine .inl ⟨?_, rfl⟩
    rw [WidgetPos.lt_iff, WidgetPos.eq_iff] at hbefore
    exact WidgetPos.le_iff.2 (by omega)
  · rename_i hbefore
    split
    · rename_i hafter
      exact .inr (.inl ⟨hafter, rfl⟩)
    · rename_i hafter
      split
      · rename_i hcovers
        exact .inr (.inr (.inl ⟨⟨hcovers.1, hcovers.2⟩, rfl⟩))
      · rename_i hcovers
        have hmisses : ¬ edit.Misses r := by
          rintro (hle | hle)
          · -- at the start of the edit, so empty both, so after the edit
            rw [hempty, hempty, WidgetPos.lt_iff, WidgetPos.eq_iff, WidgetPos.eq_iff,
              WidgetPos.eq_iff] at hbefore
            rw [WidgetPos.le_iff] at hle hafter
            omega
          · exact hafter hle
        have hcut := cut_cases hins hcovers
        generalize hstart : (if r.start < edit.start then r.start else insEnd) = start at hcut
        generalize hend : (if edit.end_ < r.end_ then shiftAfter r.end_ edit insEnd else insEnd) =
          end_ at hcut
        have hle : start ≤ end_ := by
          rw [WidgetPos.lt_iff, WidgetPos.eq_iff] at hcut
          exact WidgetPos.le_iff.2 (by omega)
        have hnew : WidgetRange.new start end_ = ⟨start, end_⟩ := by
          rw [WidgetRange.new, if_neg]
          rw [WidgetPos.le_iff] at hle
          rw [WidgetPos.lt_iff]
          omega
        refine .inr (.inr (.inr ⟨hmisses, hcovers, start, end_, ?_, hle, ?_, ?_⟩))
        · rw [hnew, if_neg]
          rintro ⟨heq, hno⟩
          rw [hempty] at heq
          rcases hcut with hlt | ⟨hyes, -⟩
          · rw [WidgetPos.lt_iff] at hlt
            rw [WidgetPos.eq_iff] at heq
            dsimp only at heq
            omega
          · rw [hno] at hyes
            cases hyes
        · rw [← hstart]
          split
          · rename_i h
            rw [WidgetPos.lt_iff] at h
            exact .inr ⟨rfl, WidgetPos.le_iff.2 (by omega)⟩
          · exact .inl rfl
        · rw [← hend]
          split
          · rename_i h
            rw [WidgetPos.lt_iff] at h
            exact .inr ⟨WidgetPos.le_iff.2 (by omega), rfl⟩
          · exact .inl rfl

/-- **What is gone is what the edit covers.** -/
theorem transformRange_eq_none (edit : WidgetRange) (text : Text) (hr : r.start ≤ r.end_) :
    transformRange r edit text = none ↔ r.isEmpty = false ∧ edit.Covers r := by
  have hempty : r.isEmpty = false ↔ r.start ≠ r.end_ := beq_eq_false_iff_ne
  rw [hempty, Ne, WidgetPos.eq_iff, WidgetRange.Covers, WidgetPos.le_iff, WidgetPos.le_iff]
  rw [WidgetPos.le_iff] at hr
  rcases transformRange_cases edit r text with
    ⟨hle, h⟩ | ⟨hle, h⟩ | ⟨hcovers, h⟩ | ⟨-, hcovers, _, _, h, -⟩
  · rw [WidgetPos.le_iff] at hle
    rw [h]
    exact ⟨fun h ↦ (by cases h), fun h ↦ by omega⟩
  · rw [WidgetPos.le_iff] at hle
    rw [h]
    exact ⟨fun h ↦ (by cases h), fun h ↦ by omega⟩
  · rw [hempty, Ne, WidgetPos.eq_iff, WidgetRange.Covers, WidgetPos.le_iff, WidgetPos.le_iff] at hcovers
    exact ⟨fun _ ↦ hcovers, fun _ ↦ h⟩
  · rw [hempty, Ne, WidgetPos.eq_iff, WidgetRange.Covers, WidgetPos.le_iff, WidgetPos.le_iff] at hcovers
    rw [h]
    exact ⟨fun h ↦ (by cases h), fun h ↦ absurd h hcovers⟩

/-- The document after an edit, as the ranges see it. -/
structure Edited (m m' : DocumentMirror) (edit : WidgetRange) (text : Text) (sk ek : ℕ) : Prop where
  start : IsPlace m.lines edit.start.line edit.start.col sk
  stop : IsPlace m.lines edit.end_.line edit.end_.col ek
  lines : m'.lines = Lines.splice m.lines edit.start.line sk edit.end_.line ek (splitLines text)
  eol : m'.eol = m.eol

namespace Edited

variable {sk ek : ℕ}

section

variable (h : Edited m m' edit text sk ek)
include h

/-- A position up to the start of the edit stays where it is. -/
theorem before (hp : IsPlace m.lines p.line p.col k) (hle : p ≤ edit.start) :
    IsPlace m'.lines p.line p.col k ∧ m'.before p.line k = m.before p.line k := by
  have hkeeps : Lines.KeepsPlace m.lines m'.lines p.line k := by
    rw [h.lines]
    exact Lines.keepsPlace_splice _ _ (validLines_splitLines text).1 h.start.lt h.start.le hp.le
      ((placeLE_iff hp h.start).2 hle)
  refine ⟨hp.keeps hkeeps, ?_⟩
  rw [DocumentMirror.before, DocumentMirror.before, h.eol, hkeeps.before_eq]

/-- A position from the end of the edit on is carried to where the text after the edit went. -/
theorem after (hp : IsPlace m.lines p.line p.col k) (hle : edit.end_ ≤ p) :
    ∃ k' t, IsPlace m'.lines (shiftAfter p edit (endOfInsert edit.start text)).line
        (shiftAfter p edit (endOfInsert edit.start text)).col k' ∧
      m.before p.line k = m.before edit.end_.line ek ++ t ∧
      m'.before (shiftAfter p edit (endOfInsert edit.start text)).line k' =
        m.before edit.start.line sk ++ joinLines m.eol (splitLines text) ++ t := by
  obtain ⟨k', t, hplace, hbefore, hbefore'⟩ := place_shiftAfter text h.start h.stop m.eol hp hle
  rw [← h.lines] at hplace hbefore'
  refine ⟨k', t, hplace, hbefore, ?_⟩
  rw [DocumentMirror.before, h.eol, hbefore']
  rfl

/-- The end of what the edit puts in is a place. -/
theorem in_endOfInsert :
    (endOfInsert edit.start text).In m'.lines := by
  obtain ⟨k', -, hplace, -⟩ := h.after h.stop (WidgetPos.le_iff.2 (.inr ⟨rfl, le_rfl⟩))
  rw [shiftAfter_end] at hplace
  exact ⟨k', hplace⟩

/-- **A range before the edit** covers what it covered. -/
theorem covered_before (hr : r.In m.lines)
    (hle : r.end_ ≤ edit.start) : r.In m'.lines ∧ covered m' r = covered m r := by
  obtain ⟨hends, ⟨ks, hs⟩, ⟨ke, he⟩⟩ := hr
  obtain ⟨hs', hbeforeStart⟩ := h.before hs (WidgetPos.trans hends hle)
  obtain ⟨he', hbeforeEnd⟩ := h.before he hle
  refine ⟨⟨hends, ⟨ks, hs'⟩, ⟨ke, he'⟩⟩, ?_⟩
  rw [covered_eq hs' he', covered_eq hs he, hbeforeStart, hbeforeEnd]

/-- **A range after the edit** covers what it covered, where it went. -/
theorem covered_after (hr : r.In m.lines) (hle : edit.end_ ≤ r.start) :
    let r' : WidgetRange := ⟨shiftAfter r.start edit (endOfInsert edit.start text),
      shiftAfter r.end_ edit (endOfInsert edit.start text)⟩
    r'.In m'.lines ∧ covered m' r' = covered m r := by
  intro r'
  obtain ⟨hends, ⟨ks, hs⟩, ⟨ke, he⟩⟩ := hr
  obtain ⟨ks', t, hs', hstart, hstart'⟩ := h.after hs hle
  obtain ⟨ke', u, he', hend, hend'⟩ := h.after he (WidgetPos.trans hle hends)
  have hends' : r'.start ≤ r'.end_ := shiftAfter_le _ hle hends
  refine ⟨⟨hends', ⟨ks', hs'⟩, ⟨ke', he'⟩⟩, ?_⟩
  -- both are the same text behind different ones
  have hdrop : ∀ x : Text, (encodeUtf16 (x ++ u)).drop (utf16Len (x ++ t)) =
      (encodeUtf16 u).drop (utf16Len t) := fun x ↦ by
    rw [encodeUtf16_append, utf16Len_append, ← length_encodeUtf16 x, List.drop_length_add_append]
  rw [covered_eq hs' he', covered_eq hs he, hstart, hend, hstart', hend', hdrop, hdrop]

end

end Edited

/-- **Decorations follow an edit.** A range is gone just when it is not empty and the edit covers it;
otherwise it is a range of the document after the edit, and if the edit missed it, it covers the text
it covered. -/
theorem transformRange_spec (m : DocumentMirror) (edit r : WidgetRange) (text : Text)
    (hedit : edit.In m.lines) (hr : r.In m.lines) :
    ∃ m' change, m.applyOne edit.oneBased text = .ok (m', change) ∧
      (transformRange r edit text = none ↔ r.isEmpty = false ∧ edit.Covers r) ∧
      ∀ r', transformRange r edit text = some r' →
        r'.In m'.lines ∧ (edit.Misses r → covered m' r' = covered m r) := by
  obtain ⟨hends, ⟨sk, hs⟩, ⟨ek, he⟩⟩ := hedit
  obtain ⟨m', hone, hlines, heol, -, -⟩ := (hasRange_oneBased hs he hends).applyOne text
  have hedited : Edited m m' edit text sk ek := ⟨hs, he, hlines, heol⟩
  refine ⟨m', _, hone, transformRange_eq_none edit text hr.le, fun r' hr' ↦ ?_⟩
  rcases transformRange_cases edit r text with
    ⟨hle, h⟩ | ⟨hle, h⟩ | ⟨-, h⟩ | ⟨hmisses, -, start, end_, h, hle, hstart, hend⟩
  · obtain rfl := Option.some.inj (h.symm.trans hr')
    exact (hedited.covered_before hr hle).imp_right fun h _ ↦ h
  · obtain rfl := Option.some.inj (h.symm.trans hr')
    exact (hedited.covered_after hr hle).imp_right fun h _ ↦ h
  · cases h.symm.trans hr'
  · obtain rfl := Option.some.inj (h.symm.trans hr')
    refine ⟨⟨hle, ?_, ?_⟩, fun h ↦ absurd h hmisses⟩
    · rcases hstart with rfl | ⟨rfl, hbefore⟩
      · exact hedited.in_endOfInsert
      · obtain ⟨k, hk⟩ := hr.start
        exact ⟨k, (hedited.before hk hbefore).1⟩
    · rcases hend with rfl | ⟨hafter, rfl⟩
      · exact hedited.in_endOfInsert
      · obtain ⟨k, hk⟩ := hr.stop
        obtain ⟨k', -, hk', -⟩ := hedited.after hk hafter
        exact ⟨k', hk'⟩

/-- A line put in above: what covered `b` in `ab` covers it one line down. -/
theorem transformRange_spec_oneLine : ∃ m' : DocumentMirror,
    WidgetRange.In ⟨⟨1, 1⟩, ⟨1, 2⟩⟩ m'.lines ∧ covered m' ⟨⟨1, 1⟩, ⟨1, 2⟩⟩ = ['b'.toNat] := by
  have hin : ∀ p : WidgetPos, p.line = 0 → p.col ≤ 2 → p.In DocumentMirror.oneLine.lines := by
    rintro ⟨_, col⟩ rfl hcol
    refine ⟨col, Nat.zero_lt_one, hcol, ?_⟩
    interval_cases col <;> decide
  obtain ⟨m', _, -, -, h⟩ := transformRange_spec DocumentMirror.oneLine (.empty ⟨0, 0⟩)
    ⟨⟨0, 1⟩, ⟨0, 2⟩⟩ ['\n'] ⟨by decide, hin _ rfl (by decide), hin _ rfl (by decide)⟩
    ⟨by decide, hin _ rfl (by decide), hin _ rfl (by decide)⟩
  obtain ⟨hrange, hcovered⟩ := h ⟨⟨1, 1⟩, ⟨1, 2⟩⟩ (by decide)
  exact ⟨m', hrange, (hcovered (.inr (by decide))).trans (by decide)⟩

end Ranges

end Ember.Editor
