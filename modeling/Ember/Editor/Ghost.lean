import Ember.Editor.Inline
import Ember.EditorConn.Places

/-!
# A ghost that is typed through

`inline.rs` (`Ghost::type_through`) and `coords.rs` (`end_of_insert`): while the user types what a
ghost shows, the ghost gets shorter and moves behind what was typed. However the text is cut into
pieces, the ghost ends where the whole text would have ended, because the end of an insertion is
additive; the one cut that is not allowed is inside a line break of two characters, which would
count as two.
-/

namespace Ember.Editor

open EditorConn

/-- No line break of two characters is cut. -/
def Unbroken (pieces : List Text) : Prop :=
  pieces.IsChain fun a b ↦ a.getLast? = some '\r' → b.head? ≠ some '\n'

instance (pieces : List Text) : Decidable (Unbroken pieces) :=
  inferInstanceAs (Decidable (pieces.IsChain _))

/-- The end of an insertion, from the last of its lines. -/
theorem endOfInsert_of_concat (p : WidgetPos) {t : Text} {front : List Text} {l : Text}
    (h : splitLines t = front ++ [l]) :
    endOfInsert p t =
      ⟨p.line + front.length, (if front = [] then p.col else 0) + utf16Len l⟩ := by
  rw [endOfInsert, h]
  simp only [List.length_append, List.length_singleton, List.getLast?_concat, Option.getD_some]
  cases front with
  | nil => rfl
  | cons m front =>
    have hlong : ¬ (m :: front).length + 1 ≤ 1 := by simp
    rw [if_neg hlong, if_neg (List.cons_ne_nil _ _), Nat.zero_add, Nat.add_sub_cancel]

theorem exists_splitLines_eq (t : Text) : ∃ front l, splitLines t = front ++ [l] :=
  (List.eq_nil_or_concat' _).resolve_left (validLines_splitLines t).1

/-- **The end of an insertion is additive.** -/
theorem endOfInsert_append (p : WidgetPos) {a b : Text}
    (h : a.getLast? = some '\r' → b.head? ≠ some '\n') :
    endOfInsert (endOfInsert p a) b = endOfInsert p (a ++ b) := by
  obtain ⟨front, l, ha⟩ := exists_splitLines_eq a
  obtain ⟨front', l', hb⟩ := exists_splitLines_eq b
  have hsplit : splitLines (a ++ b) = front ++ (front' ++ [l']).modifyHead (l ++ ·) := by
    have hlines : splitLines (a ++ b) = (splitLines a).dropLast ++
      (splitLines b).modifyHead ((splitLines a).getLast?.getD [] ++ ·) := Lines.split_append h
    rw [hlines, ha, hb, List.dropLast_concat, List.getLast?_concat, Option.getD_some]
  rw [endOfInsert_of_concat p ha, endOfInsert_of_concat _ hb]
  cases front' with
  | nil =>
    -- The last line of the one and the only line of the other are one line.
    rw [endOfInsert_of_concat p (l := l ++ l') hsplit, utf16Len_append]
    simp [Nat.add_assoc]
  | cons m front' =>
    have hall : splitLines (a ++ b) = front ++ (l ++ m) :: front' ++ [l'] := by
      rw [hsplit]
      simp
    rw [endOfInsert_of_concat p hall]
    simp [Nat.add_assoc]

/-- Pieces that are typed one after the other, each where the ghost is. -/
def Ghost.typeAll (g : Ghost) : List Text → Ghost × List TypeThrough
  | [] => (g, [])
  | piece :: pieces =>
    let typed := g.typeThrough (.empty g.pos) piece
    let typedAll := typed.1.typeAll pieces
    (typedAll.1, typed.2 :: typedAll.2)

/-- **A ghost that is typed through in pieces**: it goes on until the last piece, which completes
it, and is then where the whole text ends. -/
theorem typed_through {g : Ghost} {pieces : List Text} (hopen : g.completed = false)
    (hsome : pieces ≠ []) (hne : ∀ piece ∈ pieces, piece ≠ []) (hunbroken : Unbroken pieces)
    (hall : pieces.flatten = g.text) :
    g.typeAll pieces =
      ({ g with pos := endOfInsert g.pos g.text, text := [], completed := true },
        List.replicate (pieces.length - 1) .continued ++ [.completed]) ∧
      ∀ p a b, Unbroken [a, b] → endOfInsert (endOfInsert p a) b = endOfInsert p (a ++ b) := by
  refine ⟨?_, fun p a b h ↦ endOfInsert_append p (List.isChain_cons_cons.1 h).1⟩
  induction pieces generalizing g with
  | nil => exact absurd rfl hsome
  | cons piece pieces ih =>
    obtain ⟨hpiece, hrest⟩ := List.forall_mem_cons.1 hne
    have htyped : piece <+: g.text := ⟨pieces.flatten, hall⟩
    have hdrop : g.text.drop piece.length = pieces.flatten := by
      rw [← hall, List.flatten_cons, List.drop_left]
    have hguard : (g.completed || !(WidgetRange.empty g.pos).isEmpty ||
        (WidgetRange.empty g.pos).start != g.pos || piece.isEmpty) = false := by
      simp [hopen, WidgetRange.empty, WidgetRange.isEmpty, hpiece]
    have hbegins : piece.isPrefixOf g.text = true := List.isPrefixOf_iff_prefix.2 htyped
    have hthrough : g.typeThrough (.empty g.pos) piece =
        if pieces.flatten.isEmpty then
          ({ g with pos := endOfInsert g.pos piece, text := pieces.flatten, completed := true },
            .completed)
        else ({ g with pos := endOfInsert g.pos piece, text := pieces.flatten }, .continued) := by
      rw [Ghost.typeThrough, hguard, if_neg Bool.false_ne_true, if_pos hbegins, hdrop]
    rw [Ghost.typeAll, hthrough]
    cases pieces with
    | nil =>
      obtain rfl : piece = g.text := by simpa using hall
      rfl
    | cons piece' pieces =>
      have hpiece' := hrest piece' List.mem_cons_self
      have hfull : (piece' :: pieces).flatten.isEmpty = false := by simp [hpiece']
      obtain ⟨hcut, hchain⟩ := List.isChain_cons_cons.1 hunbroken
      have hbreak : piece.getLast? = some '\r' →
          (piece' :: pieces).flatten.head? ≠ some '\n' := fun hlast ↦ by
        rw [List.flatten_cons, List.head?_append_of_ne_nil _ hpiece']
        exact hcut hlast
      have hend : endOfInsert (endOfInsert g.pos piece) (piece' :: pieces).flatten =
          endOfInsert g.pos g.text := by
        rw [endOfInsert_append _ hbreak, ← hall]
        rfl
      have hgo := @ih { g with pos := endOfInsert g.pos piece, text := (piece' :: pieces).flatten }
        hopen (List.cons_ne_nil _ _) hrest hchain rfl
      rw [hfull, if_neg Bool.false_ne_true]
      dsimp only
      rw [hgo]
      dsimp only
      rw [hend]
      rfl

/-- A ghost at the beginning of a document. -/
private def shown (text : Text) : Ghost where
  item := ⟨0, 0, 0, text, none, none, [], false⟩
  id := 1
  pos := ⟨0, 0⟩
  text
  baseVersion := 1
  completed := false

/-- A letter, a line break of two characters, and a character of two code units. -/
theorem typed_through_lines :
    ((shown "a\r\n𝄞b".toList).typeAll ["a".toList, "\r\n𝄞".toList, "b".toList]).1.pos = ⟨1, 3⟩ := by
  have htyped := (@typed_through (shown "a\r\n𝄞b".toList)
    ["a".toList, "\r\n𝄞".toList, "b".toList] rfl (by decide) (by decide) (by decide) (by decide)).1
  rw [htyped]
  decide

end Ember.Editor
