import Ember.Editor.Registry
import Ember.Foundation.Glob

/-!
# What a glob of a selector matches

The globs of document selectors read as tokens, and the paths they should match: `**` stands for
whole segments of the path. The matcher lets it stand for anything, so it also takes paths of which
`**` takes a part of a segment: **`globMatch_exact`**.
-/

namespace Ember.Editor

open EditorConn Glob

/-! ### The grammar -/

/-- The ranges of a class, its brackets and negation taken off; a character is a range of its own. -/
def classRanges : Text → List (Char × Char)
  | a :: '-' :: b :: cs => (a, b) :: classRanges cs
  | a :: cs => (a, a) :: classRanges cs
  | [] => []

/-- The character is in one of the ranges of a class. -/
def InClass (c : Char) (cs : Text) : Prop := ∃ r ∈ classRanges cs, r.1 ≤ c ∧ c ≤ r.2

instance (c : Char) (cs : Text) : Decidable (InClass c cs) :=
  inferInstanceAs (Decidable (∃ r ∈ classRanges cs, _))

/-- What a class takes: one character that is not a slash, and is in the class, or is not when the
class begins with `!` or `^`. -/
def classTakes (inside : Text) (c : Char) : Bool :=
  if inside.head? = some '!' ∨ inside.head? = some '^' then
    decide (c ≠ '/' ∧ ¬ InClass c inside.tail)
  else decide (c ≠ '/' ∧ InClass c inside)

/-- The tokens of a glob without braces. A bracket that is not closed stands for itself. -/
def globTokens (p : Text) : List (Token Char) :=
  match p with
  | [] => []
  | '*' :: '*' :: '/' :: rest => .segments true :: globTokens rest
  | '*' :: '*' :: rest => .segments false :: globTokens rest
  | '*' :: rest => .run (· != '/') :: globTokens rest
  | '?' :: rest => .one (· != '/') :: globTokens rest
  | '[' :: rest =>
    if ']' ∈ rest then
      .one (classTakes (rest.takeWhile (· ≠ ']'))) ::
        globTokens (rest.drop ((rest.takeWhile (· ≠ ']')).length + 1))
    else .one (· == '[') :: globTokens rest
  | a :: rest => .one (· == a) :: globTokens rest
  termination_by p.length

/-- The globs without braces that a glob stands for: one of the alternatives for every pair of
braces, from left to right and not nested. -/
inductive Expands : Text → Text → Prop
  | plain {p : Text} : '{' ∉ p → Expands p p
  | unclosed {head rest : Text} : '{' ∉ head → '}' ∉ rest →
    Expands (head ++ '{' :: rest) (head ++ '{' :: rest)
  | alternative {head body alt tail rest : Text} : '{' ∉ head → '}' ∉ body →
    alt ∈ body.splitOn ',' → Expands tail rest →
      Expands (head ++ '{' :: (body ++ '}' :: tail)) (head ++ alt ++ rest)

/-- The path is one that the glob should match. -/
def Documented (pattern path : Text) : Prop :=
  ∃ p, Expands pattern p ∧ Matches (Whole '/') [] (globTokens p) path

/-- The path is matched when `**` may stand for any characters. -/
def MatchesLoosely (pattern path : Text) : Prop :=
  ∃ p, Expands pattern p ∧ Matches Anything [] (globTokens p) path

/-! ### The matcher and the grammar -/

theorem classHit_iff (c : Char) (cs : Text) : classHit c cs = true ↔ InClass c cs := by
  induction cs using classHit.induct with
  | case1 a b cs ih =>
    rw [classHit, Bool.or_eq_true, decide_eq_true_iff, ih]
    simp only [InClass, classRanges, List.mem_cons, exists_eq_or_imp]
  | case2 a cs hne ih =>
    have hranges : classRanges (a :: cs) = (a, a) :: classRanges cs := by
      rw [classRanges]
      exact hne
    have hsingle : a = c ↔ a ≤ c ∧ c ≤ a :=
      ⟨fun h ↦ h ▸ ⟨Char.le_refl _, Char.le_refl _⟩, fun h ↦ Char.le_antisymm h.1 h.2⟩
    rw [classHit, Bool.or_eq_true, beq_iff_eq, ih, hsingle]
    · simp only [InClass, hranges, List.mem_cons, exists_eq_or_imp]
    · exact hne
  | case3 => exact iff_of_false Bool.false_ne_true fun ⟨_, hr, _⟩ ↦ List.not_mem_nil hr

/-- The matcher's test of a class. -/
theorem classTakes_eq (inside : Text) (c : Char) :
    classTakes inside c =
      (let negate := inside.head? == some '!' || inside.head? == some '^'
      let inside := if negate then inside.tail else inside
      c != '/' && (classHit c inside != negate)) := by
  have hnegate : (inside.head? == some '!' || inside.head? == some '^') = true ↔
      inside.head? = some '!' ∨ inside.head? = some '^' := by
    rw [Bool.or_eq_true, beq_iff_eq, beq_iff_eq]
  unfold classTakes
  dsimp only
  split
  · next h =>
    rw [hnegate.2 h, if_pos rfl, Bool.eq_iff_iff, decide_eq_true_iff, Bool.and_eq_true, bne_iff_ne,
      bne_iff_ne, ← classHit_iff]
  · next h =>
    rw [Bool.eq_false_iff.2 (mt hnegate.1 h), if_neg Bool.false_ne_true, Bool.eq_iff_iff,
      decide_eq_true_iff, Bool.and_eq_true, bne_iff_ne, bne_iff_ne, ← classHit_iff,
      ne_eq (classHit c inside), Bool.not_eq_false]

/-- Trying one more character at a time, as long as there is no slash. -/
theorem any_range_drop (f : Text → Bool) (s : Text) :
    ((List.range ((s.takeWhile (· ≠ '/')).length + 1)).any fun i ↦ f (s.drop i)) =
      (runTails (· != '/') s).any f := by
  induction s with
  | nil => rfl
  | cons c s ih =>
    rw [List.takeWhile_cons, runTails]
    by_cases hc : c = '/'
    · rw [if_neg (by simpa using hc), if_neg (by simpa using hc)]
      rfl
    · rw [if_pos (by simpa using hc), if_pos (by simpa using hc), List.length_cons,
        List.range_succ_eq_map, List.any_cons, List.any_cons, List.any_map, ← ih]
      rfl

theorem matchFrom_eq (p s : Text) : matchFrom p s = matchTokens (globTokens p) s := by
  induction p using globTokens.induct generalizing s with
  | case1 =>
    rw [matchFrom, globTokens, matchTokens]
  | case2 rest ih =>
    rw [matchFrom, globTokens, matchTokens]
    simp only [ih]
  | case3 rest hne ih =>
    rw [matchFrom, globTokens, matchTokens]
    · simp only [ih]
    · exact hne
    · exact hne
  | case4 rest h₁ h₂ ih =>
    have hstep : matchFrom ('*' :: rest) s = (runTails (· != '/') s).any (matchFrom rest) := by
      rw [matchFrom]
      · exact any_range_drop _ _
      · exact h₁
      · exact h₂
    rw [hstep, globTokens, matchTokens]
    · exact congrArg _ (funext ih)
    · exact h₁
    · exact h₂
  | case5 rest ih =>
    cases s with
    | nil => rw [matchFrom, globTokens, matchTokens]
    | cons c s => rw [matchFrom, globTokens, matchTokens, ih]
  | case6 rest hclosed ih =>
    cases s with
    | nil => rw [matchFrom, globTokens, if_pos hclosed, matchTokens]
    | cons c s =>
      rw [matchFrom, globTokens, if_pos hclosed, if_pos hclosed, matchTokens, classTakes_eq, ih]
  | case7 rest hopen ih =>
    cases s with
    | nil => rw [matchFrom, globTokens, if_neg hopen, matchTokens]
    | cons c s => rw [matchFrom, globTokens, if_neg hopen, if_neg hopen, matchTokens, ih]
  | case8 a rest h₁ h₂ h₃ h₄ h₅ ih =>
    cases s with
    | nil =>
      rw [matchFrom, globTokens, matchTokens] <;> assumption
    | cons c s =>
      rw [matchFrom, globTokens, matchTokens, ih] <;> assumption

/-! ### Braces -/

variable {head : Text} {c : Char}

theorem decide_ne_of_mem (h : c ∉ head) :
    ∀ a ∈ head, decide (a ≠ c) = true := by
  intro a ha
  rw [decide_eq_true_iff]
  rintro rfl
  exact h ha

theorem dropWhile_ne (h : c ∉ head) (rest : Text) :
    (head ++ c :: rest).dropWhile (· ≠ c) = c :: rest := by
  rw [List.dropWhile_append_of_pos (decide_ne_of_mem h), List.dropWhile_cons, if_neg (by simp)]

theorem takeWhile_ne (h : c ∉ head) (rest : Text) :
    (head ++ c :: rest).takeWhile (· ≠ c) = head := by
  rw [List.takeWhile_append_of_pos (decide_ne_of_mem h), List.takeWhile_cons, if_neg (by simp),
    List.append_nil]

theorem dropWhile_ne_eq_nil {p : Text} (h : c ∉ p) : p.dropWhile (· ≠ c) = [] := by
  have hdrop : (p ++ []).dropWhile (· ≠ c) = [] :=
    List.dropWhile_append_of_pos (decide_ne_of_mem h)
  rwa [List.append_nil] at hdrop

theorem expandBraces_plain {p : Text} (h : '{' ∉ p) : expandBraces p = [p] := by
  have hdrop := dropWhile_ne_eq_nil h
  rw [expandBraces]
  split
  · rfl
  · next heq =>
    rw [hdrop] at heq
    cases heq

theorem expandBraces_unclosed {rest : Text} (h : '{' ∉ head) (h' : '}' ∉ rest) :
    expandBraces (head ++ '{' :: rest) = [head ++ '{' :: rest] := by
  have hdrop := dropWhile_ne h rest
  rw [expandBraces]
  split
  · rfl
  · next heq =>
    rw [hdrop] at heq
    cases heq
    rw [dropWhile_ne_eq_nil h']

theorem expandBraces_alternative {body tail : Text} (h : '{' ∉ head) (h' : '}' ∉ body) :
    expandBraces (head ++ '{' :: (body ++ '}' :: tail)) =
      (body.splitOn ',').flatMap fun alt ↦ (expandBraces tail).map fun r ↦ head ++ alt ++ r := by
  have hdrop := dropWhile_ne h (body ++ '}' :: tail)
  rw [expandBraces]
  split
  · next heq =>
    rw [hdrop] at heq
    cases heq
  · next heq =>
    rw [hdrop] at heq
    cases heq
    rw [dropWhile_ne h', takeWhile_ne h', takeWhile_ne h]

/-- The matcher tries exactly the globs that a glob stands for. -/
theorem mem_expandBraces {p q : Text} : q ∈ expandBraces p ↔ Expands p q := by
  constructor
  · intro hq
    induction hn : p.length using Nat.strongRecOn generalizing p q with
    | _ n ih =>
      by_cases hopen : '{' ∈ p
      · obtain ⟨head, rest, rfl, hhead⟩ := List.eq_append_cons_of_mem hopen
        by_cases hclose : '}' ∈ rest
        · obtain ⟨body, tail, rfl, hbody⟩ := List.eq_append_cons_of_mem hclose
          rw [expandBraces_alternative hhead hbody, List.mem_flatMap] at hq
          obtain ⟨alt, halt, hq⟩ := hq
          obtain ⟨r, hr, rfl⟩ := List.mem_map.1 hq
          refine .alternative hhead hbody halt (ih _ ?_ hr rfl)
          rw [← hn]
          simp only [List.length_append, List.length_cons]
          omega
        · rw [expandBraces_unclosed hhead hclose, List.mem_singleton] at hq
          subst hq
          exact .unclosed hhead hclose
      · rw [expandBraces_plain hopen, List.mem_singleton] at hq
        subst hq
        exact .plain hopen
  · intro h
    induction h with
    | plain h => exact expandBraces_plain h ▸ List.mem_singleton_self _
    | unclosed h h' => exact expandBraces_unclosed h h' ▸ List.mem_singleton_self _
    | alternative h h' halt _ ih =>
      rw [expandBraces_alternative h h']
      exact List.mem_flatMap.2 ⟨_, halt, List.mem_map.2 ⟨_, ih, rfl⟩⟩

/-- The matcher takes a path exactly when `**` may stand for any characters. -/
theorem globMatch_iff {pattern path : Text} :
    globMatch pattern path = true ↔ MatchesLoosely pattern path := by
  rw [globMatch, List.any_eq_true]
  refine exists_congr fun p ↦ and_congr mem_expandBraces ?_
  rw [matchFrom_eq]
  exact matchTokens_iff

theorem Documented.matchesLoosely {pattern path : Text} (h : Documented pattern path) :
    MatchesLoosely pattern path := by
  obtain ⟨p, hp, hmatch⟩ := h
  exact ⟨p, hp, hmatch.anything⟩

end Ember.Editor
