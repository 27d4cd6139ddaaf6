import Ember.Basic
import Mathlib.Data.List.DropRight
import Mathlib.Data.List.Infix
import Mathlib.Data.Nat.Find

/-!
# Which commands run on a node

`computers/shim.rs`: a Bash-tool command is told by its last step, which writes the directory to a
file; everything before the step runs on the node, and the file is the shell word behind it
(`classify`). The words are read by `unquoteWord`, and written in two ways (`accounts/mod.rs`,
`agents/antigravity.rs`).

**The step that counts is the last one** (`classify_eq_bashTool`): a command is taken apart exactly
where no word behind repeats the step, not even inside quotes.
-/

namespace Ember.Server.Shim

/-- `CWD_STEP`. -/
def cwdStep : List Char := " && pwd -P >| ".toList

/-- `str::rfind`: where the last occurrence begins. -/
def rfind (needle hay : List Char) : Option ℕ :=
  let i := Nat.findGreatest (fun i ↦ needle <+: hay.drop i) hay.length
  if needle <+: hay.drop i then some i else none

/-- Where the loop of `unquote_word` is. -/
inductive Quote
  | bare
  | single
  | double

/-- The loop of `unquote_word`: what it pushes to the end. -/
def unquote : Quote → List Char → Option (List Char)
  | .bare, [] => some []
  | .single, [] | .double, [] => none
  | .single, c :: cs => if c = '\'' then unquote .bare cs else (unquote .single cs).map (c :: ·)
  | .double, c :: cs =>
    if c = '"' then unquote .bare cs
    else if c = '\\' then
      match cs with
      | [] => none
      | d :: cs => (unquote .double cs).map (d :: ·)
    else (unquote .double cs).map (c :: ·)
  | .bare, c :: cs =>
    if c = '\'' then unquote .single cs
    else if c = '"' then unquote .double cs
    else if c = '\\' then
      match cs with
      | [] => none
      | d :: cs => (unquote .bare cs).map (d :: ·)
    else if isWhitespace c || c ∈ ";&|<>()$`".toList then none
    else (unquote .bare cs).map (c :: ·)
termination_by structural _ s => s

/-- `unquote_word`. -/
def unquoteWord (s : List Char) : Option (List Char) :=
  let s := s.rdropWhile isWhitespace
  if s = [] then none else unquote .bare s

/-- `Kind`. -/
inductive Kind
  | bashTool (body cwdFile : List Char)
  | other
  deriving DecidableEq

/-- `classify`. -/
def classify (command : List Char) : Kind :=
  match rfind cwdStep command with
  | none => .other
  | some i =>
    match unquoteWord (command.drop (i + cwdStep.length)) with
    | some path => if path.head? = some '/' then .bashTool (command.take i) path else .other
    | none => .other

/-- What stands for a character between single quotes: `s.replace('\'', "'\\''")`. -/
def escape (c : Char) : List Char := if c = '\'' then "'\\''".toList else [c]

/-- `shell_quote` of `antigravity.rs`. -/
def Antigravity.shellQuote (s : List Char) : List Char := '\'' :: s.flatMap escape ++ ['\'']

/-- A character that needs no quotes. -/
def plain (c : Char) : Bool := c.isAlphanum || c ∈ "/._-+:@".toList

/-- `shell_quote` of `accounts/mod.rs`. -/
def Accounts.shellQuote (s : List Char) : List Char :=
  if s ≠ [] ∧ s.all plain then s else Antigravity.shellQuote s

variable {needle hay command body path : List Char}

/-- An occurrence with none behind it. -/
theorem rfind_eq_some (hne : needle ≠ []) {i : ℕ} : rfind needle hay = some i ↔
    needle <+: hay.drop i ∧ ∀ j, i < j → ¬ needle <+: hay.drop j := by
  have hle {j : ℕ} (h : needle <+: hay.drop j) : j ≤ hay.length := by
    have hlen := h.length_le
    have hpos := List.length_pos_iff.2 hne
    rw [List.length_drop] at hlen
    omega
  constructor
  · intro h
    rw [rfind] at h
    split_ifs at h with hpre
    obtain rfl := Option.some.inj h
    exact ⟨hpre, fun j hj hpre' ↦ Nat.findGreatest_is_greatest hj (hle hpre') hpre'⟩
  · rintro ⟨hpre, hlast⟩
    have hi : Nat.findGreatest (fun i ↦ needle <+: hay.drop i) hay.length = i :=
      Nat.findGreatest_eq_iff.2 ⟨hle hpre, fun _ ↦ hpre, fun _ hj _ ↦ hlast _ hj⟩
    rw [rfind, hi, if_pos hpre]

/-- Outside quotes, a character that is none of the three that quote. -/
theorem unquote_bare_cons {c : Char} (h : c ∉ "'\"\\".toList) (cs : List Char) :
    unquote .bare (c :: cs) = if isWhitespace c || c ∈ ";&|<>()$`".toList then none
      else (unquote .bare cs).map (c :: ·) := by
  have hne {d : Char} (hd : d ∈ "'\"\\".toList) : c ≠ d := fun heq ↦ h (heq ▸ hd)
  cases cs <;> simp only [unquote, hne (d := '\'') (by decide), hne (d := '"') (by decide),
    hne (d := '\\') (by decide), if_false]

/-- A single quote opens a quotation. -/
theorem unquote_bare_quote (cs : List Char) :
    unquote .bare ('\'' :: cs) = unquote .single cs := by
  cases cs <;> rfl

theorem unquoteWord_amp (cs : List Char) : unquoteWord ('&' :: cs) = none := by
  rw [unquoteWord]
  cases h : ('&' :: cs).rdropWhile isWhitespace with
  | nil => rfl
  | cons c cs' =>
    obtain ⟨hc, -⟩ := List.cons_prefix_cons.1 (h ▸ List.rdropWhile_prefix isWhitespace ('&' :: cs))
    subst hc
    exact unquote_bare_cons (by decide) cs'

/-- **What `classify` takes for a Bash-tool command**: a body, the step, and a word for an absolute
path in which the step does not come again. -/
theorem classify_eq_bashTool : classify command = .bashTool body path ↔
    ∃ word, command = body ++ cwdStep ++ word ∧ ¬ cwdStep <:+: word ∧
      unquoteWord word = some path ∧ path.head? = some '/' := by
  have hne : cwdStep ≠ [] := by decide
  constructor
  · intro h
    rw [classify] at h
    split at h
    · cases h
    case h_2 i hi =>
      obtain ⟨⟨word, hword⟩, hlast⟩ := (rfind_eq_some hne).1 hi
      have hdrop : command.drop (i + cwdStep.length) = word := by
        rw [← List.drop_drop, ← hword, List.drop_left]
      rw [hdrop] at h
      split at h
      case h_1 p hp =>
        split_ifs at h with hroot
        obtain ⟨rfl, rfl⟩ := Kind.bashTool.inj h
        refine ⟨word, ?_, fun ⟨s, t, hst⟩ ↦ ?_, hp, hroot⟩
        · rw [List.append_assoc, hword, List.take_append_drop]
        · refine hlast (i + cwdStep.length + s.length) (by have := List.length_pos_iff.2 hne; omega) ?_
          rw [← List.drop_drop, hdrop, ← hst, List.append_assoc, List.drop_left]
          exact List.prefix_append _ _
      · cases h
  · rintro ⟨word, rfl, hnot, hword, hroot⟩
    have hi : rfind cwdStep (body ++ cwdStep ++ word) = some body.length := by
      rw [List.append_assoc]
      refine (rfind_eq_some hne).2 ⟨by rw [List.drop_left]; exact List.prefix_append _ _, ?_⟩
      intro j hj hpre
      obtain ⟨k, rfl⟩ := Nat.exists_eq_add_of_le hj.le
      rw [List.drop_length_add_append] at hpre
      rcases le_or_gt cwdStep.length k with hk | hk
      · obtain ⟨k, rfl⟩ := Nat.exists_eq_add_of_le hk
        rw [List.drop_length_add_append] at hpre
        exact hnot (hpre.isInfix.trans (List.drop_suffix k word).isInfix)
      · -- the step overlaps itself in one space only, and no word begins with the rest of it
        rw [List.drop_append_of_le_length hk.le] at hpre
        have hself : cwdStep.drop k <+: cwdStep :=
          List.prefix_of_prefix_length_le (List.prefix_append _ _) hpre (by simp)
        have hlate : ∀ k < cwdStep.length, cwdStep.drop k <+: cwdStep → k = 0 ∨ k = 13 := by decide
        obtain rfl | rfl := hlate k hk hself
        · omega
        · obtain ⟨t, ht⟩ := hpre
          obtain rfl : cwdStep.tail ++ t = word := (List.cons.inj ht).2
          rw [show cwdStep.tail ++ t = '&' :: (cwdStep.tail.tail ++ t) from rfl,
            unquoteWord_amp] at hword
          cases hword
    rw [classify, hi]
    dsimp only
    rw [← List.length_append, List.drop_left, hword]
    dsimp only
    rw [if_pos hroot, List.append_assoc, List.take_left]

theorem unquote_quoted (s : List Char) :
    unquote .single (s.flatMap escape ++ ['\'']) = some s := by
  induction s with
  | nil => rfl
  | cons c s ih =>
    rw [List.flatMap_cons, List.append_assoc]
    generalize s.flatMap escape ++ ['\''] = cs at ih ⊢
    rcases eq_or_ne c '\'' with rfl | hc
    · -- out of the quotes, the quote behind a backslash, and in again
      change (unquote .bare ('\'' :: cs)).map ('\'' :: ·) = _
      rw [unquote_bare_quote, ih]
      rfl
    · rw [escape, if_neg hc, List.singleton_append, unquote, if_neg hc, ih]
      rfl

theorem not_mem_of_plain {c : Char} (h : plain c = true) : c ∉ " '\"\\;&|<>()$`".toList := by
  have hnone : (" '\"\\;&|<>()$`".toList.all fun d ↦ !plain d) = true := by decide
  intro hmem
  have hc := List.all_eq_true.1 hnone c hmem
  rw [h] at hc
  cases hc

theorem isWhitespace_of_plain {c : Char} (h : plain c = true) : isWhitespace c = false := by
  obtain h | h := Bool.or_eq_true_iff.1 h
  · exact isWhitespace_of_id (.inl h)
  · have hall : ("/._-+:@".toList.all fun d ↦ !isWhitespace d) = true := by decide
    have hc := List.all_eq_true.1 hall c (of_decide_eq_true h)
    rwa [Bool.not_eq_true'] at hc

theorem unquote_plain {s : List Char} (h : ∀ c ∈ s, plain c = true) : unquote .bare s = some s := by
  induction s with
  | nil => rfl
  | cons c s ih =>
    obtain ⟨hc, hs⟩ := List.forall_mem_cons.1 h
    have hnot := not_mem_of_plain hc
    rw [unquote_bare_cons (fun hmem ↦ hnot (List.Sublist.mem hmem (by decide))), ih hs,
      isWhitespace_of_plain hc, Bool.false_or, if_neg fun hmem ↦
        hnot (List.Sublist.mem (of_decide_eq_true hmem) (by decide))]
    rfl

/-- **A quoted word is read back**, however it was quoted and whatever is in it. -/
theorem unquoteWord_shellQuote (s : List Char) :
    unquoteWord (Antigravity.shellQuote s) = some s ∧
      unquoteWord (Accounts.shellQuote s) = some s := by
  have hquoted : unquoteWord (Antigravity.shellQuote s) = some s := by
    rw [unquoteWord, Antigravity.shellQuote, List.rdropWhile_concat_neg _ _ _ (by decide)]
    exact (unquote_bare_quote _).trans (unquote_quoted s)
  refine ⟨hquoted, ?_⟩
  rw [Accounts.shellQuote]
  split
  case isTrue h =>
    have hplain := List.all_eq_true.1 h.2
    rw [unquoteWord, List.rdropWhile_eq_self_iff.2 fun hl hspace ↦ ?_]
    · exact (if_neg h.1).trans (unquote_plain hplain)
    · rw [isWhitespace_of_plain (hplain _ (List.getLast_mem hl))] at hspace
      cases hspace
  case isFalse => exact hquoted

end Ember.Server.Shim
