import Mathlib.Data.List.Basic

/-!
# Texts as lists of lines

Cutting a list at line breaks, over any alphabet with two distinguished letters. A break is `cr`,
`lf`, or `cr` followed by `lf`, which counts once.

Lines without breaks joined by a break come apart again (`split_join`), whichever break joined them,
so a text form and its lines determine each other up to the break. The alphabet is a parameter
because the same cut is made on characters and on code units.
-/

namespace Lines

variable {α : Type*}

/-- The breaks lines are joined with. -/
inductive Break
  | lf
  | crlf
  deriving DecidableEq, Repr

/-- A break, spelled out. -/
def Break.spell (cr lf : α) : Break → List α
  | .lf => [lf]
  | .crlf => [cr, lf]

/-- The lines joined by a break. -/
def join (cr lf : α) (b : Break) (ls : List (List α)) : List α := (b.spell cr lf).intercalate ls

/-- No letter of a line starts a break. -/
def NoBreak (cr lf : α) (l : List α) : Prop := cr ∉ l ∧ lf ∉ l

theorem NoBreak.append {cr lf : α} {l l' : List α} (h : NoBreak cr lf l) (h' : NoBreak cr lf l') :
    NoBreak cr lf (l ++ l') :=
  ⟨by simp [h.1, h'.1], by simp [h.2, h'.2]⟩

theorem NoBreak.sublist {cr lf : α} {l l' : List α} (h : NoBreak cr lf l) (hsub : l'.Sublist l) :
    NoBreak cr lf l' :=
  ⟨fun hmem ↦ h.1 (hsub.subset hmem), fun hmem ↦ h.2 (hsub.subset hmem)⟩

theorem noBreak_nil {cr lf : α} : NoBreak cr lf [] := ⟨List.not_mem_nil, List.not_mem_nil⟩

/-- The lines of a text: at least one, and no break in any. -/
def Valid (cr lf : α) (ls : List (List α)) : Prop := ls ≠ [] ∧ ∀ l ∈ ls, NoBreak cr lf l

variable [DecidableEq α] (cr lf : α)

/-- Cut the rest of a text, `cur` being the line so far; `afterCr` says that the letter before was a
`cr`, so that a `lf` here belongs to the same break. -/
def splitFrom (afterCr : Bool) (cur : List α) : List α → List (List α)
  | [] => [cur]
  | c :: cs =>
    if afterCr = true ∧ c = lf then splitFrom false cur cs
    else if c = cr then cur :: splitFrom true [] cs
    else if c = lf then cur :: splitFrom false [] cs
    else splitFrom false (cur ++ [c]) cs

/-- The lines of a text. -/
def split (t : List α) : List (List α) := splitFrom cr lf false [] t

variable {cr lf}

theorem splitFrom_ne_nil (b : Bool) (cur t : List α) : splitFrom cr lf b cur t ≠ [] := by
  induction t generalizing b cur with
  | nil => exact List.cons_ne_nil _ _
  | cons c cs ih =>
    rw [splitFrom]
    split
    · exact ih _ _
    · split
      · exact List.cons_ne_nil _ _
      · split
        · exact List.cons_ne_nil _ _
        · exact ih _ _

theorem noBreak_of_mem_splitFrom {b : Bool} {cur t : List α} (hcur : NoBreak cr lf cur) {l : List α}
    (h : l ∈ splitFrom cr lf b cur t) : NoBreak cr lf l := by
  induction t generalizing b cur with
  | nil => exact List.mem_singleton.1 h ▸ hcur
  | cons c cs ih =>
    rw [splitFrom] at h
    split at h
    · exact ih hcur h
    · split at h
      · exact (List.mem_cons.1 h).elim (fun heq ↦ heq ▸ hcur) (ih noBreak_nil)
      · split at h
        · exact (List.mem_cons.1 h).elim (fun heq ↦ heq ▸ hcur) (ih noBreak_nil)
        case isFalse hcr hlf =>
          refine ih (hcur.append ⟨?_, ?_⟩) h
          · exact fun hmem ↦ hcr (List.mem_singleton.1 hmem).symm
          · exact fun hmem ↦ hlf (List.mem_singleton.1 hmem).symm

theorem valid_split (t : List α) : Valid cr lf (split cr lf t) :=
  ⟨splitFrom_ne_nil _ _ _, fun _ ↦ noBreak_of_mem_splitFrom noBreak_nil⟩

/-- The letters of a line go to the line so far. -/
theorem splitFrom_append {l : List α} (hl : NoBreak cr lf l) (cur rest : List α) :
    splitFrom cr lf false cur (l ++ rest) = splitFrom cr lf false (cur ++ l) rest := by
  induction l generalizing cur with
  | nil => simp
  | cons c cs ih =>
    have hc : c ≠ cr ∧ c ≠ lf := ⟨fun h ↦ hl.1 (h ▸ List.mem_cons_self),
      fun h ↦ hl.2 (h ▸ List.mem_cons_self)⟩
    have hcs : NoBreak cr lf cs := hl.sublist (List.sublist_cons_self c cs)
    rw [List.cons_append, splitFrom, if_neg (by simp), if_neg hc.1, if_neg hc.2, ih hcs,
      List.append_assoc, List.singleton_append]

/-- A break ends the line so far. -/
theorem splitFrom_spell (hne : cr ≠ lf) (b : Break) (cur rest : List α) :
    splitFrom cr lf false cur (b.spell cr lf ++ rest) = cur :: splitFrom cr lf false [] rest := by
  cases b with
  | lf => simp [Break.spell, splitFrom, hne.symm]
  | crlf => simp [Break.spell, splitFrom]

/-- **Joined lines come apart again.** -/
theorem split_join (hne : cr ≠ lf) (b : Break) {ls : List (List α)} (h : Valid cr lf ls) :
    split cr lf (join cr lf b ls) = ls := by
  obtain ⟨hnil, hbreak⟩ := h
  suffices hfrom : ∀ (ls : List (List α)) (l : List α), (∀ l' ∈ l :: ls, NoBreak cr lf l') →
      splitFrom cr lf false [] (join cr lf b (l :: ls)) = l :: ls by
    obtain ⟨l, ls, rfl⟩ := List.exists_cons_of_ne_nil hnil
    exact hfrom ls l hbreak
  intro ls
  induction ls with
  | nil =>
    intro l hl
    have happend := splitFrom_append (hl l List.mem_cons_self) [] []
    rw [List.append_nil, List.nil_append] at happend
    rw [join, List.intercalate_singleton, happend, splitFrom]
  | cons l' ls ih =>
    intro l hl
    have hrest := ih l' fun m hm ↦ hl m (List.mem_cons_of_mem _ hm)
    rw [join, List.intercalate_cons_cons, List.append_assoc,
      splitFrom_append (hl l List.mem_cons_self), List.nil_append, splitFrom_spell hne]
    exact congrArg (l :: ·) hrest

/-- Without a `lf` next it does not matter that a `cr` was before. -/
theorem splitFrom_of_head {u : List α} (h : u.head? ≠ some lf) (b : Bool) (cur : List α) :
    splitFrom cr lf b cur u = splitFrom cr lf false cur u := by
  cases u with
  | nil => rfl
  | cons c u =>
    have hc : c ≠ lf := fun heq ↦ h (congrArg some heq)
    have hno : ∀ b' : Bool, ¬ (b' = true ∧ c = lf) := fun _ hand ↦ hc hand.2
    rw [splitFrom, splitFrom, if_neg (hno b), if_neg (hno false)]

/-- The line so far is the beginning of the first line. -/
theorem splitFrom_eq (cur t : List α) :
    splitFrom cr lf false cur t = (split cr lf t).modifyHead (cur ++ ·) := by
  suffices hfrom : ∀ (t : List α) (b : Bool) (cur cur' : List α),
      splitFrom cr lf b (cur ++ cur') t = (splitFrom cr lf b cur' t).modifyHead (cur ++ ·) by
    rw [split, ← hfrom t false cur [], List.append_nil]
  intro t
  induction t with
  | nil => exact fun _ _ _ ↦ rfl
  | cons c t ih =>
    intro b cur cur'
    rw [splitFrom, splitFrom]
    split_ifs
    · exact ih false cur cur'
    · rfl
    · rfl
    · rw [List.append_assoc, ih]

/-- **Two texts one after the other**, with no break across: the last line of the one goes on as the
first of the other. -/
theorem split_append {t u : List α} (h : t.getLast? = some cr → u.head? ≠ some lf) :
    split cr lf (t ++ u) = (split cr lf t).dropLast ++
      (split cr lf u).modifyHead ((split cr lf t).getLast?.getD [] ++ ·) := by
  suffices hfrom : ∀ (t : List α) (b : Bool) (cur : List α),
      (t.getLast?.elim (b = true) (· = cr) → u.head? ≠ some lf) →
      splitFrom cr lf b cur (t ++ u) = (splitFrom cr lf b cur t).dropLast ++
        splitFrom cr lf false ((splitFrom cr lf b cur t).getLast?.getD []) u by
    rw [← splitFrom_eq, split, split, hfrom]
    intro hlast
    cases ht : t.getLast? with
    | none => rw [ht] at hlast; cases hlast
    | some c => rw [ht] at hlast; exact h (ht.trans (congrArg some hlast))
  intro t
  induction t with
  | nil =>
    intro b cur hhead
    cases b with
    | false => rfl
    | true => exact splitFrom_of_head (hhead rfl) true cur
  | cons c t ih =>
    intro b cur hhead
    have hnext : ∀ b', (b' = true → c = cr) → t.getLast?.elim (b' = true) (· = cr) →
        u.head? ≠ some lf := fun b' hb' hlast ↦ by
      refine hhead ?_
      rw [List.getLast?_cons]
      cases ht : t.getLast? with
      | none => rw [ht] at hlast; exact hb' hlast
      | some d => rw [ht] at hlast; exact hlast
    have hcons (b' : Bool) (hb' : b' = true → c = cr) :
        cur :: splitFrom cr lf b' [] (t ++ u) = (cur :: splitFrom cr lf b' [] t).dropLast ++
          splitFrom cr lf false ((cur :: splitFrom cr lf b' [] t).getLast?.getD []) u := by
      rw [ih b' [] (hnext b' hb'), List.dropLast_cons_of_ne_nil (splitFrom_ne_nil _ _ _),
        List.getLast?_cons_of_ne_nil (splitFrom_ne_nil _ _ _)]
      rfl
    rw [List.cons_append, splitFrom, splitFrom]
    split_ifs with hlf hcr
    · exact ih false cur (hnext false fun h ↦ by cases h)
    · exact hcons true fun _ ↦ hcr
    · exact hcons false fun h ↦ by cases h
    · exact ih false _ (hnext false fun h ↦ by cases h)

end Lines
