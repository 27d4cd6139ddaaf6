import Mathlib.Data.List.Basic
import Mathlib.Data.List.Infix

/-!
# Chains of bounded queues

What goes through a byte stream is values and, once, the end. A `Queue` holds a bounded number of
values, and a `Conduit` is one or more queues in a row: a writer puts tokens into the last, each is
carried from queue to queue as there is room, and a reader takes them out of the first.

The tokens of a conduit are those of its queues in order, and carrying them does not change them. A
conduit in which nothing can be carried, and from which nothing can be read, is empty.
-/

namespace Conduit

/-- A value, or the end of a stream. -/
inductive Token (α : Type*)
  | val (a : α)
  | fin
  deriving DecidableEq, Repr

namespace Token

variable {α : Type*}

/-- The token is a value. -/
def isVal : Token α → Bool
  | val _ => true
  | fin => false

/-- The values before the end. -/
def vals : List (Token α) → List α
  | val a :: ts => a :: vals ts
  | _ => []

theorem vals_prefix (ts : List (Token α)) : (vals ts).map val <+: ts := by
  induction ts with
  | nil => exact List.nil_prefix
  | cons t ts ih =>
    cases t with
    | val a => exact List.cons_prefix_cons.2 ⟨rfl, ih⟩
    | fin => exact List.nil_prefix

/-- Some of the values, and what comes after them. -/
theorem take_vals (ts : List (Token α)) {n : ℕ} (h : n ≤ (vals ts).length) :
    ((vals ts).take n).map val ++ ts.drop n = ts := by
  obtain ⟨rest, hrest⟩ := vals_prefix ts
  have htake : ((vals ts).map val ++ rest).take n = ((vals ts).take n).map val := by
    rw [List.take_append_of_le_length (by rwa [List.length_map]), List.map_take]
  rw [← htake, hrest, List.take_append_drop]

theorem fin_notMem_map_val (l : List α) : (fin : Token α) ∉ l.map val := fun h ↦ by
  obtain ⟨a, -, ha⟩ := List.mem_map.1 h
  cases ha

end Token

/-- A queue that holds a bounded number of values. -/
structure Queue (α : Type*) where
  cap : ℕ
  pos : 0 < cap
  tokens : List (Token α)

namespace Queue

variable {α : Type*} (q : Queue α)

/-- There is room for the token; the end needs none. -/
def accepts (t : Token α) : Bool := !t.isVal || decide (q.tokens.countP Token.isVal < q.cap)

/-- One more token. -/
def push (t : Token α) : Queue α := { q with tokens := q.tokens ++ [t] }

/-- The first tokens are taken. -/
def drop (n : ℕ) : Queue α := { q with tokens := q.tokens.drop n }

theorem accepts_of_nil (h : q.tokens = []) (t : Token α) : q.accepts t = true := by
  rw [accepts, h, List.countP_nil, decide_eq_true q.pos, Bool.or_true]

theorem accepts_fin : q.accepts .fin = true := rfl

end Queue

end Conduit

open Conduit in
/-- Queues in a row, the reader's first. -/
inductive Conduit (α : Type*)
  | one (q : Queue α)
  | more (q : Queue α) (c : Conduit α)

namespace Conduit

variable {α : Type*} {c c' : Conduit α} {t : Token α}

/-- The reader's queue. -/
def front : Conduit α → Queue α
  | one q => q
  | more q _ => q

/-- The tokens, the reader's first. -/
def tokens : Conduit α → List (Token α)
  | one q => q.tokens
  | more q c => q.tokens ++ c.tokens

/-- The reader takes the first tokens of its queue. -/
def drop (n : ℕ) : Conduit α → Conduit α
  | one q => one (q.drop n)
  | more q c => more (q.drop n) c

/-- The writer puts a token into its queue, if there is room. -/
def push (t : Token α) : Conduit α → Option (Conduit α)
  | one q => if q.accepts t = true then some (one (q.push t)) else none
  | more q c => (push t c).map (more q)

/-- A token is carried from one queue to the next, if there is one and room for it. -/
def carry : Conduit α → ℕ → Conduit α
  | one q, _ => one q
  | more q c, 0 =>
    match c.front.tokens with
    | t :: _ => if q.accepts t = true then more (q.push t) (c.drop 1) else more q c
    | [] => more q c
  | more q c, i + 1 => more q (c.carry i)

/-- What the reader takes, and what is left. -/
theorem tokens_drop (c : Conduit α) {n : ℕ} (hn : n ≤ c.front.tokens.length) :
    c.front.tokens.take n ++ (c.drop n).tokens = c.tokens := by
  cases c with
  | one q => exact List.take_append_drop n q.tokens
  | more q c =>
    show q.tokens.take n ++ (q.tokens.drop n ++ c.tokens) = _
    rw [← List.append_assoc, List.take_append_drop]
    rfl

/-- What the reader finds stays all there is. -/
theorem tokens_drop_of_front (h : c.tokens = c.front.tokens) (n : ℕ) :
    (c.drop n).tokens = (c.drop n).front.tokens := by
  cases c with
  | one q => rfl
  | more q c =>
    have hnone : c.tokens = [] := List.append_right_eq_self.1 h
    show q.tokens.drop n ++ c.tokens = _
    rw [hnone, List.append_nil]
    rfl

/-- The reader takes the first token. -/
theorem tokens_drop_one {ts : List (Token α)} (h : c.front.tokens = t :: ts) :
    c.tokens = t :: (c.drop 1).tokens := by
  rw [← c.tokens_drop (n := 1) (by rw [h]; exact Nat.succ_le_succ (Nat.zero_le _)), h]
  rfl

theorem tokens_push (h : c.push t = some c') : c'.tokens = c.tokens ++ [t] := by
  induction c generalizing c' with
  | one q =>
    rw [push] at h
    split at h
    · obtain rfl := Option.some.inj h
      rfl
    · cases h
  | more q c ih =>
    obtain ⟨c₁, hc₁, rfl⟩ := Option.map_eq_some_iff.1 h
    show q.tokens ++ c₁.tokens = (q.tokens ++ c.tokens) ++ [t]
    rw [ih hc₁, List.append_assoc]

/-- The end can be put into every conduit, and anything into an empty one. -/
theorem exists_push (h : t = .fin ∨ c.tokens = []) : ∃ c', c.push t = some c' := by
  induction c with
  | one q =>
    have haccepts : q.accepts t = true := by
      rcases h with rfl | h
      · exact q.accepts_fin
      · exact q.accepts_of_nil h t
    exact ⟨one (q.push t), if_pos haccepts⟩
  | more q c ih =>
    obtain ⟨c', hc'⟩ := ih (h.imp_right fun h ↦ (List.append_eq_nil_iff.1 h).2)
    exact ⟨more q c', by rw [push, hc', Option.map_some]⟩

@[simp] theorem tokens_carry (c : Conduit α) (i : ℕ) : (c.carry i).tokens = c.tokens := by
  induction c generalizing i with
  | one q => rfl
  | more q c ih =>
    cases i with
    | succ i =>
      show q.tokens ++ (c.carry i).tokens = _
      rw [ih]
      rfl
    | zero =>
      rw [carry]
      split
      case h_1 t ts hfront =>
        split
        · show (q.tokens ++ [t]) ++ (c.drop 1).tokens = q.tokens ++ c.tokens
          rw [tokens_drop_one hfront, List.append_assoc]
          rfl
        · rfl
      · rfl

/-- **A conduit that stands still is empty**, if its reader finds nothing. -/
theorem tokens_eq_nil (hfront : c.front.tokens = []) (hcarry : ∀ i, c.carry i = c) :
    c.tokens = [] := by
  induction c with
  | one q => exact hfront
  | more q c ih =>
    have hq : q.tokens = [] := hfront
    have hrest : c.front.tokens = [] := by
      cases hc : c.front.tokens with
      | nil => rfl
      | cons t ts =>
        -- There is room for it in the reader's queue.
        have hmoved := hcarry 0
        simp only [carry, hc, q.accepts_of_nil hq t, if_true, more.injEq] at hmoved
        have hlength := congrArg (fun q ↦ q.tokens.length) hmoved.1
        simp [Queue.push] at hlength
    have hnone : c.tokens = [] := ih hrest fun i ↦ by
      have hsame := hcarry (i + 1)
      rw [carry] at hsame
      exact (more.inj hsame).2
    show q.tokens ++ c.tokens = []
    rw [hq, hnone]
    rfl

end Conduit
