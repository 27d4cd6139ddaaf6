import Ember.Foundation.Lines
import Mathlib.Data.List.TakeDrop
import Mathlib.Order.Basic
import Mathlib.Algebra.Order.Group.Nat

/-!
# Replacing parts of a text given by its lines

A place is a line and how many of its letters come before it. `Lines.before` is the text up to a
place and `Lines.after` the rest, so that a replacement between two places is the text before the
first, what is put there, and the text after the second (`join_splice`). A place before the
replacement keeps its number and the text before it (`keepsPlace_splice`); the end of the replacement and
what comes after it have other numbers (`before_splice_last`, `before_splice_later`).
-/

namespace Lines

variable {α : Type*} (cr lf : α) (b : Break)

/-- The line of a place. -/
def line (ls : List (List α)) (i : ℕ) : List α := (ls[i]?).getD []

/-- The text up to a place. -/
def before (ls : List (List α)) (i k : ℕ) : List α :=
  ((ls.take i).flatMap (· ++ b.spell cr lf)) ++ (line ls i).take k

/-- The text from a place on. -/
def after (ls : List (List α)) (i k : ℕ) : List α :=
  (line ls i).drop k ++ (ls.drop (i + 1)).flatMap (b.spell cr lf ++ ·)

/-- The lines put between what is left of the first line and what is left of the last. -/
def surround (before : List α) (ls : List (List α)) (after : List α) : List (List α) :=
  let ls := ls.modifyHead (before ++ ·)
  ls.dropLast ++ (ls.getLast?.map (· ++ after)).toList

/-- The letters between two places replaced by lines. -/
def splice (ls : List (List α)) (si sk ei ek : ℕ) (new : List (List α)) : List (List α) :=
  ls.take si ++ surround ((line ls si).take sk) new ((line ls ei).drop ek) ++ ls.drop (ei + 1)

variable {cr lf b} {ls new : List (List α)}

theorem line_eq_getElem {i : ℕ} (h : i < ls.length) : line ls i = ls[i] := by
  rw [line, List.getElem?_eq_getElem h, Option.getD_some]

/-! ### Texts up to a place and from one on -/

theorem join_cons (l : List α) :
    join cr lf b (l :: ls) = l ++ ls.flatMap (b.spell cr lf ++ ·) := by
  induction ls generalizing l with
  | nil => rw [join, List.intercalate_singleton, List.flatMap_nil, List.append_nil]
  | cons m ls ih =>
    rw [join, List.intercalate_cons_cons, List.flatMap_cons, List.append_assoc, List.append_assoc]
    exact congrArg (fun t ↦ l ++ (b.spell cr lf ++ t)) (ih m)

theorem join_append_cons (ls : List (List α)) (l : List α) (more : List (List α)) :
    join cr lf b (ls ++ l :: more) =
      ls.flatMap (· ++ b.spell cr lf) ++ l ++ more.flatMap (b.spell cr lf ++ ·) := by
  induction ls with
  | nil => exact join_cons l
  | cons m ls ih =>
    obtain ⟨n, rest, hrest⟩ : ∃ n rest, ls ++ l :: more = n :: rest := by cases ls <;> simp
    rw [hrest] at ih
    rw [List.cons_append, hrest, join, List.intercalate_cons_cons]
    refine (congrArg (m ++ b.spell cr lf ++ ·) ih).trans ?_
    simp only [List.flatMap_cons, List.append_assoc]

theorem join_concat (ls : List (List α)) (l : List α) :
    join cr lf b (ls ++ [l]) = ls.flatMap (· ++ b.spell cr lf) ++ l := by
  rw [join_append_cons, List.flatMap_nil, List.append_nil]

/-- **A text is what comes before a place and what comes after it.** -/
theorem before_append_after {i : ℕ} (hi : i < ls.length) (k : ℕ) :
    before cr lf b ls i k ++ after cr lf b ls i k = join cr lf b ls := by
  conv_rhs => rw [← List.take_append_drop i ls, List.drop_eq_getElem_cons hi, join_append_cons]
  rw [before, after, ← List.append_assoc, List.append_assoc _ (List.take _ _),
    List.take_append_drop, line_eq_getElem hi]

/-- One place is not after another. -/
def PlaceLE (i k i' k' : ℕ) : Prop := i < i' ∨ i = i' ∧ k ≤ k'

theorem take_drop_append (l : List α) {k k' : ℕ} (h : k ≤ k') :
    l.take k' = l.take k ++ (l.drop k).take (k' - k) := by
  rw [← List.take_add, Nat.add_sub_cancel' h]

/-- The second text has this place, with the same text before it. -/
structure KeepsPlace (ls ls' : List (List α)) (i k : ℕ) : Prop where
  lines : ls'.take i = ls.take i
  lt : i < ls'.length
  letters : (line ls' i).take k = (line ls i).take k
  le : k ≤ (line ls' i).length

namespace KeepsPlace

variable {ls' ls'' : List (List α)} {i k : ℕ}

theorem refl (hi : i < ls.length) (hk : k ≤ (line ls i).length) : KeepsPlace ls ls i k :=
  ⟨rfl, hi, rfl, hk⟩

theorem trans (h : KeepsPlace ls ls' i k) (h' : KeepsPlace ls' ls'' i k) : KeepsPlace ls ls'' i k :=
  ⟨h'.lines.trans h.lines, h'.lt, h'.letters.trans h.letters, h'.le⟩

theorem before_eq (h : KeepsPlace ls ls' i k) :
    before cr lf b ls' i k = before cr lf b ls i k := by
  rw [before, before, h.lines, h.letters]

end KeepsPlace

/-- The text up to a place further on in the line. -/
theorem before_eq_append {i k k' : ℕ} (h : k ≤ k') :
    before cr lf b ls i k' = before cr lf b ls i k ++ ((line ls i).drop k).take (k' - k) := by
  rw [before, before, take_drop_append (line ls i) h, List.append_assoc]

/-- The text up to a place in a later line. -/
theorem before_add {i k d k' : ℕ} (hi : i < ls.length) :
    before cr lf b ls (i + 1 + d) k' = before cr lf b ls i k ++ ((line ls i).drop k ++
      b.spell cr lf ++ before cr lf b (ls.drop (i + 1)) d k') := by
  have htake : ls.take (i + 1 + d) = ls.take i ++ line ls i :: (ls.drop (i + 1)).take d := by
    rw [List.take_add, List.take_add_one, List.getElem?_eq_getElem hi, line_eq_getElem hi,
      List.append_assoc]
    rfl
  have hline : line ls (i + 1 + d) = line (ls.drop (i + 1)) d := by
    rw [line, line, List.getElem?_drop]
  rw [before, before, before, htake, hline, List.flatMap_append, List.flatMap_cons]
  conv_lhs => rw [← List.take_append_drop k (line ls i)]
  simp only [List.append_assoc]

/-- The text up to a place goes on with what comes before a later one. -/
theorem exists_before_eq_append (cr lf : α) (b : Break) {i k i' k' : ℕ} (h : PlaceLE i k i' k') (hi : i' < ls.length) :
    ∃ t, before cr lf b ls i' k' = before cr lf b ls i k ++ t := by
  rcases h with hlt | ⟨rfl, hk⟩
  · obtain ⟨d, rfl⟩ := Nat.exists_eq_add_of_lt hlt
    rw [Nat.add_right_comm]
    exact ⟨_, before_add (by omega)⟩
  · exact ⟨_, before_eq_append hk⟩

/-! ### Replacing -/

/-- The line a replacement ends in, up to its end. -/
def lastLine (before : List α) (new : List (List α)) : List α :=
  ((new.modifyHead (before ++ ·)).getLast?).getD []

theorem lastLine_singleton (t l : List α) : lastLine t [l] = t ++ l := rfl

theorem lastLine_of_two {t l : List α} (h : new ≠ []) :
    lastLine t (l :: new) = (new.getLast?).getD [] := by
  obtain ⟨m, new, rfl⟩ := List.exists_cons_of_ne_nil h
  rw [lastLine, List.modifyHead_cons, List.getLast?_cons_cons]

/-- What is put there: all but the last line, and the last with what is left of the old one. -/
theorem surround_eq {t u : List α} (h : new ≠ []) :
    ∃ init, init.length + 1 = new.length ∧
      new.modifyHead (t ++ ·) = init ++ [lastLine t new] ∧
      surround t new u = init ++ [lastLine t new ++ u] := by
  have hne : new.modifyHead (t ++ ·) ≠ [] := by
    obtain ⟨m, new, rfl⟩ := List.exists_cons_of_ne_nil h
    exact List.cons_ne_nil _ _
  have hlast : lastLine t new = (new.modifyHead (t ++ ·)).getLast hne := by
    rw [lastLine, List.getLast?_eq_some_getLast hne, Option.getD_some]
  refine ⟨(new.modifyHead (t ++ ·)).dropLast, ?_, ?_, ?_⟩
  · rw [List.length_dropLast, List.length_modifyHead]
    exact Nat.sub_add_cancel (List.length_pos_iff.2 h)
  · rw [hlast, List.dropLast_append_getLast]
  · rw [surround, hlast, List.getLast?_eq_some_getLast hne]
    rfl

theorem join_modifyHead {t : List α} (h : new ≠ []) :
    join cr lf b (new.modifyHead (t ++ ·)) = t ++ join cr lf b new := by
  obtain ⟨m, new, rfl⟩ := List.exists_cons_of_ne_nil h
  rw [List.modifyHead_cons, join_cons, join_cons, List.append_assoc]

section Splice

variable {si sk ei ek : ℕ}

/-- Where the replacement ends and what comes after it. -/
theorem splice_eq (cr lf : α) (b : Break) (sk ei ek : ℕ) (h : new ≠ []) (hsi : si ≤ ls.length) :
    ∃ init, init.length = si + (new.length - 1) ∧
      init.flatMap (· ++ b.spell cr lf) ++ lastLine ((line ls si).take sk) new =
        before cr lf b ls si sk ++ join cr lf b new ∧
      splice ls si sk ei ek new = init ++
        (lastLine ((line ls si).take sk) new ++ (line ls ei).drop ek) :: ls.drop (ei + 1) := by
  obtain ⟨init, hlen, hnew, hsurround⟩ :=
    surround_eq (t := (line ls si).take sk) (u := (line ls ei).drop ek) h
  refine ⟨ls.take si ++ init, ?_, ?_, ?_⟩
  · rw [List.length_append, List.length_take, min_eq_left hsi]
    omega
  · rw [List.flatMap_append, List.append_assoc, ← join_concat init, ← hnew, join_modifyHead h, before,
      List.append_assoc]
  · rw [splice, hsurround, List.append_assoc, List.append_assoc, List.append_assoc]
    rfl

/-- **The text after a replacement** is what was before it, the new lines, and what was after it. -/
theorem join_splice (h : new ≠ []) (hsi : si ≤ ls.length) :
    join cr lf b (splice ls si sk ei ek new) =
      before cr lf b ls si sk ++ join cr lf b new ++ after cr lf b ls ei ek := by
  obtain ⟨init, -, hinit, hsplice⟩ :=
    splice_eq cr lf b sk ei ek h hsi
  rw [hsplice, join_append_cons, after, ← hinit]
  simp only [List.append_assoc]

/-- **A place before the replacement** stays a place, with the text before it that it had. -/
theorem keepsPlace_splice (ei ek : ℕ) {i k : ℕ} (h : new ≠ []) (hsi : si < ls.length)
    (hsk : sk ≤ (line ls si).length) (hk : k ≤ (line ls i).length) (hle : PlaceLE i k si sk) :
    KeepsPlace ls (splice ls si sk ei ek new) i k := by
  have hi : i ≤ si := by rcases hle with hlt | ⟨rfl, -⟩ <;> omega
  have hlen : (ls.take si).length = si := by rw [List.length_take, min_eq_left hsi.le]
  have htake : (splice ls si sk ei ek new).take i = ls.take i := by
    rw [splice, List.append_assoc, List.take_append_of_le_length (by omega), List.take_take,
      min_eq_left hi]
  obtain ⟨m, new, rfl⟩ := List.exists_cons_of_ne_nil h
  rcases hle with hlt | ⟨rfl, hksk⟩
  · have hline : (splice ls si sk ei ek (m :: new))[i]? = ls[i]? := by
      rw [splice, List.append_assoc, List.getElem?_append_left (by omega),
        List.getElem?_take_of_lt hlt]
    have hlines : line (splice ls si sk ei ek (m :: new)) i = line ls i := by rw [line, hline, line]
    have hget := hline.trans (List.getElem?_eq_getElem (hlt.trans hsi))
    exact ⟨htake, (List.getElem?_eq_some_iff.1 hget).1, by rw [hlines], by rwa [hlines]⟩
  · obtain ⟨t, ht⟩ : ∃ t, (splice ls i sk ei ek (m :: new))[i]? = some ((line ls i).take sk ++ t) := by
      rw [splice, List.append_assoc, List.getElem?_append_right hlen.le, hlen, Nat.sub_self]
      cases new with
      | nil => exact ⟨_, congrArg some (List.append_assoc _ _ _)⟩
      | cons n new => exact ⟨m, rfl⟩
    have hline : line (splice ls i sk ei ek (m :: new)) i = (line ls i).take sk ++ t := by
      rw [line, ht, Option.getD_some]
    have hlength : ((line ls i).take sk).length = sk := by rw [List.length_take, min_eq_left hsk]
    refine ⟨htake, (List.getElem?_eq_some_iff.1 ht).1, ?_, ?_⟩
    · rw [hline, List.take_append_of_le_length (by omega), List.take_take, min_eq_left hksk]
    · rw [hline, List.length_append]
      omega

/-- The end of the replacement, and a place further on in its line. -/
theorem before_splice_last (cr lf : α) (b : Break) (sk ei ek : ℕ) (h : new ≠ [])
    (hsi : si ≤ ls.length) (k : ℕ) :
    line (splice ls si sk ei ek new) (si + (new.length - 1)) =
        lastLine ((line ls si).take sk) new ++ (line ls ei).drop ek ∧
      before cr lf b (splice ls si sk ei ek new) (si + (new.length - 1))
          ((lastLine ((line ls si).take sk) new).length + k) =
        before cr lf b ls si sk ++ join cr lf b new ++ ((line ls ei).drop ek).take k := by
  obtain ⟨init, hlen, hinit, hsplice⟩ :=
    splice_eq cr lf b sk ei ek h hsi
  have hline : line (splice ls si sk ei ek new) (si + (new.length - 1)) =
      lastLine ((line ls si).take sk) new ++ (line ls ei).drop ek := by
    rw [line, hsplice, ← hlen, List.getElem?_append_right le_rfl, Nat.sub_self]
    rfl
  refine ⟨hline, ?_⟩
  rw [before, hline, hsplice, ← hlen, List.take_left, List.take_length_add_append, ← hinit]
  simp only [List.append_assoc]

/-- A place in a line after the replacement. -/
theorem before_splice_later (cr lf : α) (b : Break) (sk ei ek : ℕ) (h : new ≠ [])
    (hsi : si ≤ ls.length) (d k : ℕ) :
    line (splice ls si sk ei ek new) (si + (new.length - 1) + 1 + d) = line ls (ei + 1 + d) ∧
      before cr lf b (splice ls si sk ei ek new) (si + (new.length - 1) + 1 + d) k =
        before cr lf b ls si sk ++ join cr lf b new ++ ((line ls ei).drop ek ++ b.spell cr lf ++
          before cr lf b (ls.drop (ei + 1)) d k) := by
  obtain ⟨init, hlen, hinit, hsplice⟩ :=
    splice_eq cr lf b sk ei ek h hsi
  have hlt : si + (new.length - 1) < (splice ls si sk ei ek new).length := by
    rw [hsplice, List.length_append, hlen, List.length_cons]
    omega
  have hdrop : (splice ls si sk ei ek new).drop (si + (new.length - 1) + 1) = ls.drop (ei + 1) := by
    rw [hsplice, ← hlen, List.drop_append]
    simp
  constructor
  · rw [line, ← List.getElem?_drop, hdrop, List.getElem?_drop, line]
  · obtain ⟨hline, hbefore⟩ := before_splice_last cr lf b sk ei ek h hsi 0
    rw [before_add (k := (lastLine ((line ls si).take sk) new).length) hlt, hline, hdrop]
    rw [Nat.add_zero] at hbefore
    rw [hbefore, List.drop_left, List.take_zero, List.append_nil]

/-- **Replacing is deleting, then putting in.** -/
theorem splice_splice (hsi : si < ls.length) (hsk : sk ≤ (line ls si).length) :
    splice (splice ls si sk ei ek [[]]) si sk si sk new = splice ls si sk ei ek new := by
  have hlen : (ls.take si).length = si := by rw [List.length_take, min_eq_left hsi.le]
  have hP : ((line ls si).take sk).length = sk := by rw [List.length_take, min_eq_left hsk]
  have hdelete : splice ls si sk ei ek [[]] =
      ls.take si ++ ((line ls si).take sk ++ (line ls ei).drop ek) :: ls.drop (ei + 1) := by
    rw [splice, surround, List.append_assoc]
    simp
  have hline : line (splice ls si sk ei ek [[]]) si =
      (line ls si).take sk ++ (line ls ei).drop ek := by
    rw [line, hdelete, List.getElem?_append_right hlen.le, hlen, Nat.sub_self]
    rfl
  have htake : (splice ls si sk ei ek [[]]).take si = ls.take si := by
    rw [hdelete, List.take_left' hlen]
  have hdrop : (splice ls si sk ei ek [[]]).drop (si + 1) = ls.drop (ei + 1) := by
    rw [hdelete, List.drop_append, hlen]
    simp
  rw [splice, hline, htake, hdrop, List.take_left' hP, List.drop_left' hP, splice]

end Splice

end Lines
