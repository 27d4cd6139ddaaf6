import Mathlib.Data.Set.Insert
import Mathlib.Tactic.Common
import Std.Data.ExtTreeMap.Lemmas

/-!
# A hold-back buffer

Reducing a numbered log whose entries arrive in any order and any number of times. An entry at or
below the last one applied is a duplicate; one beyond the next expected is held until the gap is
filled; the next expected one is applied together with every held entry it unblocks.

The point of the buffer is that its state is a function of the *set* of numbers received: the
invariant `Inv` determines the buffer (`Inv.unique`), and offering an entry takes the invariant at a
set to the invariant at the set with that number (`Inv.offer`). Order, chunking and duplication of
the deliveries therefore cannot matter, and nothing about permutations has to be proved.

The reducer is arbitrary: no algebraic law is asked of it.
-/

/-- A reduction in progress: the value after the first `last` entries, and the entries held. -/
structure HoldBack (α ε : Type*) where
  acc : α
  last : ℕ
  held : Std.ExtTreeMap ℕ ε

namespace HoldBack

variable {α ε : Type*}

/-- The reduction of a log, its entries numbered from 1. -/
def replay (r : α → ℕ → ε → α) (a : α) (log : List ε) : α :=
  (log.zipIdx 1).foldl (fun a p ↦ r a p.2 p.1) a

@[simp] theorem replay_nil (r : α → ℕ → ε → α) (a : α) : replay r a [] = a := rfl

/-- One more entry is one more application of the reducer. -/
theorem replay_concat (r : α → ℕ → ε → α) (a : α) (log : List ε) (e : ε) :
    replay r a (log ++ [e]) = r (replay r a log) (log.length + 1) e := by
  rw [replay, List.zipIdx_append, List.foldl_append, Nat.add_comm]
  rfl

theorem replay_take_succ (r : α → ℕ → ε → α) (a : α) {log : List ε} {k : ℕ} {e : ε}
    (h : log[k]? = some e) :
    replay r a (log.take (k + 1)) = r (replay r a (log.take k)) (k + 1) e := by
  have hlt : k < log.length := (List.getElem?_eq_some_iff.1 h).1
  have htake : log.take (k + 1) = log.take k ++ [e] := by
    rw [List.take_add_one, h]
    rfl
  rw [htake, replay_concat, List.length_take, Nat.min_eq_left hlt.le]

/-! ### The buffer -/

/-- Apply the next expected entry. -/
def advance (r : α → ℕ → ε → α) (b : HoldBack α ε) (e : ε) : HoldBack α ε :=
  { b with acc := r b.acc (b.last + 1) e, last := b.last + 1 }

/-- Apply held entries while the next expected one is among them, at most `fuel` times. -/
def drain (r : α → ℕ → ε → α) : ℕ → HoldBack α ε → HoldBack α ε
  | 0, b => b
  | fuel + 1, b =>
    match b.held[b.last + 1]? with
    | none => b
    | some e => drain r fuel (advance r { b with held := b.held.erase (b.last + 1) } e)

/-- Offer entry number `k`. -/
def offer (r : α → ℕ → ε → α) (b : HoldBack α ε) (k : ℕ) (e : ε) : HoldBack α ε :=
  if k ≤ b.last ∨ k ∈ b.held then b
  else if k ≠ b.last + 1 then { b with held := b.held.insert k e }
  else drain r b.held.size (advance r b e)

/-! ### What the buffer is after receiving a set of numbers -/

/-- The buffer holds the reduction of the entries up to `last`, all of which were received, and
exactly the later ones received; it may still be draining. -/
structure Draining (r : α → ℕ → ε → α) (a₀ : α) (log : List ε) (S : Set ℕ) (b : HoldBack α ε) :
    Prop where
  acc : b.acc = replay r a₀ (log.take b.last)
  received : ∀ k, 0 < k → k ≤ b.last → k ∈ S
  logged : ∀ k, k ∈ S → 0 < k → ∃ e, log[k - 1]? = some e
  held : ∀ k e, b.held[k]? = some e ↔ b.last < k ∧ k ∈ S ∧ log[k - 1]? = some e

/-- The state of the buffer after the numbers in `S` were received from `log`. -/
structure Inv (r : α → ℕ → ε → α) (a₀ : α) (log : List ε) (S : Set ℕ) (b : HoldBack α ε) : Prop
    extends Draining r a₀ log S b where
  drained : b.last + 1 ∉ S

variable {r : α → ℕ → ε → α} {a₀ : α} {log : List ε} {S : Set ℕ} {b b' : HoldBack α ε}

/-- Nothing received. -/
theorem inv_empty : Inv r a₀ log ∅ ⟨a₀, 0, ∅⟩ where
  acc := by simp
  received k hk hle := absurd hle (by simp; omega)
  logged k hk := absurd hk (Set.notMem_empty k)
  held k e := by simp
  drained := Set.notMem_empty _

/-- **The received set determines the buffer.** -/
theorem Inv.unique (h : Inv r a₀ log S b) (h' : Inv r a₀ log S b') : b = b' := by
  have hlast : b.last = b'.last := by
    rcases Nat.lt_trichotomy b.last b'.last with hlt | heq | hgt
    · exact absurd (h'.received _ (Nat.succ_pos _) hlt) h.drained
    · exact heq
    · exact absurd (h.received _ (Nat.succ_pos _) hgt) h'.drained
  have hheld : b.held = b'.held := by
    refine Std.ExtTreeMap.ext_getElem? fun k ↦ Option.ext fun e ↦ ?_
    rw [h.held, h'.held, hlast]
  obtain ⟨acc, last, held⟩ := b
  obtain ⟨acc', last', held'⟩ := b'
  obtain rfl : last = last' := hlast
  obtain rfl : held = held' := hheld
  rw [show acc = acc' from h.acc.trans h'.acc.symm]

/-- `last` is the largest number up to which everything was received. -/
theorem Inv.le_last_iff (h : Inv r a₀ log S b) (k : ℕ) :
    k ≤ b.last ↔ ∀ j, 0 < j → j ≤ k → j ∈ S := by
  refine ⟨fun hk j hj hle ↦ h.received j hj (hle.trans hk), fun hall ↦ ?_⟩
  by_contra hlt
  exact h.drained (hall _ (Nat.succ_pos _) (by omega))

/-- Applying the next expected entry, with what was held under its number dropped. -/
theorem Draining.advance (h : Draining r a₀ log S b) {e : ε} (hlog : log[b.last]? = some e) :
    Draining r a₀ log (insert (b.last + 1) S)
      (advance r { b with held := b.held.erase (b.last + 1) } e) where
  acc := by
    show r b.acc (b.last + 1) e = _
    rw [h.acc, ← replay_take_succ r a₀ hlog]
    rfl
  received k hk hle := by
    rcases Nat.lt_or_ge b.last k with hlt | hge
    · exact Set.mem_insert_iff.2 (.inl (Nat.le_antisymm hle hlt))
    · exact Set.mem_insert_of_mem _ (h.received k hk hge)
  logged k hk hpos := by
    rcases Set.mem_insert_iff.1 hk with rfl | hk
    · exact ⟨e, hlog⟩
    · exact h.logged k hk hpos
  held k e := by
    show (b.held.erase (b.last + 1))[k]? = _ ↔ b.last + 1 < k ∧ _
    rw [Std.ExtTreeMap.getElem?_erase]
    by_cases hk : b.last + 1 = k
    · simp [hk]
    · simp only [compare_eq_iff_eq, hk, if_false, h.held, Set.mem_insert_iff, Ne.symm hk, false_or]
      exact and_congr_left fun _ ↦ ⟨fun h ↦ by omega, fun h ↦ by omega⟩

/-- When nothing is held under the next expected number, that number was not received. -/
theorem Draining.inv (h : Draining r a₀ log S b) (hnone : b.held[b.last + 1]? = none) :
    Inv r a₀ log S b := by
  refine ⟨h, fun hmem ↦ ?_⟩
  obtain ⟨e, he⟩ := h.logged _ hmem (Nat.succ_pos _)
  rw [(h.held _ e).2 ⟨Nat.lt_succ_self _, hmem, he⟩] at hnone
  exact Option.some_ne_none _ hnone

/-- Draining for as long as there may be held entries leaves the next expected number out. -/
theorem Draining.drain {fuel : ℕ} (h : Draining r a₀ log S b) (hfuel : b.held.size ≤ fuel) :
    Inv r a₀ log S (drain r fuel b) := by
  induction fuel generalizing b with
  | zero =>
    have hempty : b.held = ∅ := Std.ExtTreeMap.eq_empty_iff_size_eq_zero.2 (Nat.le_zero.1 hfuel)
    exact h.inv (by rw [hempty]; exact Std.ExtTreeMap.getElem?_empty)
  | succ fuel ih =>
    unfold HoldBack.drain
    split
    case h_1 hnone => exact h.inv hnone
    case h_2 e he =>
      obtain ⟨-, hmem, hlog⟩ := (h.held _ e).1 he
      have hadv := h.advance (e := e) hlog
      rw [Set.insert_eq_of_mem hmem] at hadv
      refine ih hadv ?_
      show (b.held.erase (b.last + 1)).size ≤ fuel
      have hin : b.last + 1 ∈ b.held := Std.ExtTreeMap.mem_iff_isSome_getElem?.2 (by rw [he]; rfl)
      rw [Std.ExtTreeMap.size_erase, if_pos (Std.ExtTreeMap.mem_iff_contains.1 hin)]
      omega

/-- **Offering an entry** takes the state after `S` to the state after `S` with its number. -/
theorem Inv.offer (h : Inv r a₀ log S b) {k : ℕ} {e : ε} (hpos : 0 < k)
    (hlog : log[k - 1]? = some e) : Inv r a₀ log (insert k S) (offer r b k e) := by
  unfold HoldBack.offer
  split
  case isTrue hdup =>
    -- a duplicate: the number was received before
    have hmem : k ∈ S := by
      rcases hdup with hle | hheld
      · exact h.received k hpos hle
      · obtain ⟨e', he'⟩ := Option.isSome_iff_exists.1
          (Std.ExtTreeMap.mem_iff_isSome_getElem?.1 hheld)
        exact ((h.held k e').1 he').2.1
    rwa [Set.insert_eq_of_mem hmem]
  case isFalse hnew =>
    rw [not_or] at hnew
    obtain ⟨hgt, hnotheld⟩ := hnew
    split
    case isTrue hgap =>
      refine ⟨⟨h.acc, fun j hj hle ↦ Set.mem_insert_of_mem _ (h.received j hj hle), ?_, ?_⟩, ?_⟩
      · intro j hj hjpos
        rcases Set.mem_insert_iff.1 hj with rfl | hj
        · exact ⟨e, hlog⟩
        · exact h.logged j hj hjpos
      · intro j e'
        show (b.held.insert k e)[j]? = _ ↔ _
        rw [Std.ExtTreeMap.getElem?_insert]
        by_cases hkj : k = j
        · subst hkj
          simp only [compare_eq_iff_eq, if_true, Option.some.injEq, Set.mem_insert_iff, true_or,
            true_and, hlog]
          exact ⟨fun h ↦ ⟨by omega, h⟩, fun h ↦ h.2⟩
        · simp only [compare_eq_iff_eq, hkj, if_false, h.held, Set.mem_insert_iff, Ne.symm hkj,
            false_or]
      · intro hmem
        rcases Set.mem_insert_iff.1 hmem with heq | hmem
        · exact hgap heq.symm
        · exact h.drained hmem
    case isFalse hnext =>
      simp only [ne_eq, not_not] at hnext
      subst hnext
      have herase : b.held.erase (b.last + 1) = b.held :=
        Std.ExtTreeMap.ext_getElem? fun j ↦ by
          rw [Std.ExtTreeMap.getElem?_erase]
          split
          case isTrue hj =>
            rw [← compare_eq_iff_eq.1 hj, Std.ExtTreeMap.getElem?_eq_none hnotheld]
          case isFalse => rfl
      have hadv := h.toDraining.advance (e := e) hlog
      rw [herase] at hadv
      exact hadv.drain le_rfl

/-- **The run lemma.** Any sequence of offers from the log leaves the buffer in the state its set of
numbers determines. -/
theorem Inv.offers (h : Inv r a₀ log S b) (l : List (ℕ × ε))
    (hlog : ∀ p ∈ l, 0 < p.1 ∧ log[p.1 - 1]? = some p.2) :
    Inv r a₀ log (S ∪ {k | ∃ e, (k, e) ∈ l}) (l.foldl (fun b p ↦ HoldBack.offer r b p.1 p.2) b) := by
  induction l generalizing S b with
  | nil => simpa using h
  | cons p l ih =>
    have hp := hlog p List.mem_cons_self
    have hset : S ∪ {k | ∃ e, (k, e) ∈ p :: l} = insert p.1 S ∪ {k | ∃ e, (k, e) ∈ l} := by
      ext k
      simp only [Set.mem_union, Set.mem_ofPred_eq, List.mem_cons, Set.mem_insert_iff]
      constructor
      · rintro (hk | ⟨e, rfl | he⟩)
        · exact .inl (.inr hk)
        · exact .inl (.inl rfl)
        · exact .inr ⟨e, he⟩
      · rintro ((rfl | hk) | ⟨e, he⟩)
        · exact .inr ⟨p.2, .inl rfl⟩
        · exact .inl hk
        · exact .inr ⟨e, .inr he⟩
    rw [hset]
    exact ih (h.offer hp.1 hp.2) fun q hq ↦ hlog q (List.mem_cons_of_mem _ hq)

end HoldBack
