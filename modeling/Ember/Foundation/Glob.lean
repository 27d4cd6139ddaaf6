import Mathlib.Data.List.Basic
import Mathlib.Data.List.Infix
import Mathlib.Data.Nat.Notation

/-!
# Globs

A glob is a list of tokens, and what it matches is read from left to right: every token takes a piece
of the word. Tokens that stand for whole segments look at what is left and right of their piece, so
`Matches` carries what was taken before, and has the reading of such tokens as a parameter:

* `Whole` takes whole segments only, as they stand between two separators;
* `Anything` takes any piece.

`matchTokens` backtracks over all pieces, and decides the second reading
(**`matchTokens_iff`**). The first is contained in it.
-/

namespace Glob

/-- A token of a glob over items `α`. -/
inductive Token (α : Type)
  /-- One item that passes a test. -/
  | one (ok : α → Bool)
  /-- Any number of items that pass a test. -/
  | run (ok : α → Bool)
  /-- Any number of segments, each with the separator after it if `closed`. -/
  | segments (closed : Bool)

/-- How a token for segments may take a piece: closed or not, what is left of the piece, the piece,
and what is right of it. -/
abbrev Reading (α : Type) := Bool → List α → List α → List α → Prop

/-- Every token takes a piece of the word. -/
inductive Matches {α : Type} (R : Reading α) : List α → List (Token α) → List α → Prop
  | nil {left : List α} : Matches R left [] []
  | one {left : List α} {ok : α → Bool} {ts : List (Token α)} {a : α} {s : List α} :
    ok a = true → Matches R (left ++ [a]) ts s → Matches R left (.one ok :: ts) (a :: s)
  | run {left : List α} {ok : α → Bool} {ts : List (Token α)} {w s : List α} :
    (∀ a ∈ w, ok a = true) → Matches R (left ++ w) ts s → Matches R left (.run ok :: ts) (w ++ s)
  | segments {left : List α} {closed : Bool} {ts : List (Token α)} {w s : List α} :
    R closed left w s → Matches R (left ++ w) ts s →
      Matches R left (.segments closed :: ts) (w ++ s)

/-- A piece of any kind. -/
def Anything {α : Type} : Reading α := fun _ _ _ _ ↦ True

/-- The end of a word, or of a segment in it. -/
def EndsSegment {α : Type} (sep : α) (w : List α) : Prop := ∀ a ∈ w.getLast?, a = sep

/-- Nothing, or whole segments: they begin where the word or a segment begins, and end after a
separator or, when they need not be closed, before one or at the end of the word. -/
def Whole {α : Type} (sep : α) : Reading α := fun closed left w right ↦
  w = [] ∨ EndsSegment sep left ∧
    (EndsSegment sep w ∨ closed = false ∧ ∀ a ∈ right.head?, a = sep)

variable {α : Type} {R R' : Reading α} {left : List α} {ts : List (Token α)} {s : List α}

theorem Matches.mono (hR : ∀ c l w r, R c l w r → R' c l w r) (h : Matches R left ts s) :
    Matches R' left ts s := by
  induction h with
  | nil => exact .nil
  | one ha _ ih => exact .one ha ih
  | run hw _ ih => exact .run hw ih
  | segments hw _ ih => exact .segments (hR _ _ _ _ hw) ih

theorem Matches.anything (h : Matches R left ts s) : Matches Anything left ts s :=
  h.mono fun _ _ _ _ _ ↦ trivial

/-- The reading does not matter to a glob without segments. -/
theorem Matches.change (h : Matches R left ts s) (hts : ∀ c, .segments c ∉ ts) :
    Matches R' left ts s := by
  induction h with
  | nil => exact .nil
  | one ha _ ih => exact .one ha (ih fun c hc ↦ hts c (List.mem_cons_of_mem _ hc))
  | run hw _ ih => exact .run hw (ih fun c hc ↦ hts c (List.mem_cons_of_mem _ hc))
  | segments _ _ _ => exact absurd List.mem_cons_self (hts _)

/-! ### Backtracking -/

/-- The suffixes that are left after as many items as pass the test. -/
def runTails (ok : α → Bool) : List α → List (List α)
  | [] => [[]]
  | a :: s => (a :: s) :: (if ok a then runTails ok s else [])

theorem mem_runTails {ok : α → Bool} {s t : List α} :
    t ∈ runTails ok s ↔ ∃ w, s = w ++ t ∧ ∀ a ∈ w, ok a = true := by
  induction s with
  | nil =>
    rw [runTails, List.mem_singleton]
    constructor
    · rintro rfl
      exact ⟨[], rfl, fun _ h ↦ absurd h List.not_mem_nil⟩
    · rintro ⟨w, h, -⟩
      exact (List.append_eq_nil_iff.1 h.symm).2
  | cons a s ih =>
    rw [runTails, List.mem_cons]
    constructor
    · rintro (rfl | h)
      · exact ⟨[], rfl, fun _ h ↦ absurd h List.not_mem_nil⟩
      · split at h
        · next ha =>
          obtain ⟨w, rfl, hw⟩ := ih.1 h
          exact ⟨a :: w, rfl, List.forall_mem_cons.2 ⟨ha, hw⟩⟩
        · exact absurd h List.not_mem_nil
    · rintro ⟨w, h, hw⟩
      cases w with
      | nil => exact .inl h.symm
      | cons b w =>
        obtain ⟨rfl, rfl⟩ := List.cons.inj h
        obtain ⟨hb, hw⟩ := List.forall_mem_cons.1 hw
        rw [if_pos hb]
        exact .inr (ih.2 ⟨w, rfl, hw⟩)

/-- Trying every piece for every token. -/
def matchTokens : List (Token α) → List α → Bool
  | [], s => s.isEmpty
  | .one ok :: ts, s =>
    match s with
    | a :: s => ok a && matchTokens ts s
    | [] => false
  | .run ok :: ts, s => (runTails ok s).any fun t ↦ matchTokens ts t
  | .segments _ :: ts, s => s.tails.any fun t ↦ matchTokens ts t

/-- **Backtracking decides** whether the word matches when pieces may be anything. -/
theorem matchTokens_iff : matchTokens ts s = true ↔ Matches Anything left ts s := by
  induction ts generalizing left s with
  | nil =>
    rw [matchTokens, List.isEmpty_iff]
    constructor
    · rintro rfl
      exact .nil
    · rintro ⟨⟩
      rfl
  | cons t ts ih =>
    cases t with
    | one ok =>
      constructor
      · intro h
        match s, h with
        | a :: s, h =>
          obtain ⟨ha, hs⟩ := Bool.and_eq_true_iff.1 h
          exact .one ha (ih.1 hs)
      · rintro (_ | ⟨ha, hs⟩)
        exact Bool.and_eq_true_iff.2 ⟨ha, ih.2 hs⟩
    | run ok =>
      rw [matchTokens, List.any_eq_true]
      constructor
      · rintro ⟨t, ht, hmatch⟩
        obtain ⟨w, rfl, hw⟩ := mem_runTails.1 ht
        exact .run hw (ih.1 hmatch)
      · rintro (_ | _ | ⟨hw, hs⟩)
        exact ⟨_, mem_runTails.2 ⟨_, rfl, hw⟩, ih.2 hs⟩
    | segments closed =>
      rw [matchTokens, List.any_eq_true]
      constructor
      · rintro ⟨t, ht, hmatch⟩
        obtain ⟨w, rfl⟩ := (List.mem_tails _ _).1 ht
        exact .segments trivial (ih.1 hmatch)
      · rintro (_ | _ | _ | ⟨-, hs⟩)
        exact ⟨_, (List.mem_tails _ _).2 ⟨_, rfl⟩, ih.2 hs⟩

end Glob
