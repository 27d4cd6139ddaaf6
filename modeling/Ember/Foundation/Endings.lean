import Mathlib.Data.List.Basic
import Mathlib.Data.List.Infix

/-!
# Line ends, and texts that come apart

Four things about texts over any alphabet.

* Two texts **come apart** when they agree up to a place where they have different letters
  (`Apart`). Unlike being different, this survives whatever is put behind either of them, so a
  difference that appears early is a difference of the whole.
* With two letters `cr` and `lf`, the line end `cr lf` is rewritten to `lf` and back (`unite`,
  `divide`). Going there and back is the identity when every `lf` stands behind a `cr`; and `unite`
  changes a text exactly when the line end occurs, and then comes apart from it.
* Every occurrence of a text is **replaced** by another (`replaceAll`).
* A text is cut into **kept lines**, which keep their line ends (`keepLines`).
-/

namespace Endings

variable {α : Type*}

/-! ### Coming apart -/

/-- Two texts agree up to a place where they have different letters. -/
def Apart (s t : List α) : Prop :=
  ∃ p a b s' t', a ≠ b ∧ s = p ++ a :: s' ∧ t = p ++ b :: t'

variable {s t : List α}

theorem Apart.ne (h : Apart s t) : s ≠ t := by
  obtain ⟨p, a, b, s', t', hab, rfl, rfl⟩ := h
  intro heq
  exact hab (List.cons.inj (List.append_cancel_left heq)).1

theorem Apart.append (h : Apart s t) (u v : List α) : Apart (s ++ u) (t ++ v) := by
  obtain ⟨p, a, b, s', t', hab, rfl, rfl⟩ := h
  exact ⟨p, a, b, s' ++ u, t' ++ v, hab, by simp, by simp⟩

theorem Apart.prepend (h : Apart s t) (p : List α) : Apart (p ++ s) (p ++ t) := by
  obtain ⟨q, a, b, s', t', hab, rfl, rfl⟩ := h
  exact ⟨p ++ q, a, b, s', t', hab, by simp, by simp⟩

/-- Texts that begin with texts that come apart are different. -/
theorem Apart.ne_of_prefix {s' t' : List α} (h : Apart s t) (hs : s <+: s') (ht : t <+: t') :
    s' ≠ t' := by
  obtain ⟨u, rfl⟩ := hs
  obtain ⟨v, rfl⟩ := ht
  exact (h.append u v).ne

/-! ### Line ends -/

theorem not_infix_cons {q : List α} {c : α} (h : ¬ q <:+: c :: t) : ¬ q <:+: t := fun hi ↦
  h (hi.trans (List.suffix_cons c t).isInfix)

section LineEnds

variable [DecidableEq α] (cr lf : α)

/-- Every `cr lf` becomes `lf`. -/
def unite : List α → List α
  | [] => []
  | [c] => [c]
  | c :: d :: cs => if c = cr ∧ d = lf then lf :: unite cs else c :: unite (d :: cs)

/-- Every `lf` becomes `cr lf`. -/
def divide (t : List α) : List α := t.flatMap fun c ↦ if c = lf then [cr, lf] else [c]

/-- How often `cr lf` occurs. -/
def pairs : List α → ℕ
  | [] => 0
  | [_] => 0
  | c :: d :: cs => if c = cr ∧ d = lf then pairs cs + 1 else pairs (d :: cs)

variable {cr lf}

@[simp] theorem divide_nil : divide cr lf ([] : List α) = [] := rfl

@[simp] theorem divide_append (s t : List α) :
    divide cr lf (s ++ t) = divide cr lf s ++ divide cr lf t := List.flatMap_append

@[simp] theorem divide_lf (t : List α) : divide cr lf (lf :: t) = cr :: lf :: divide cr lf t := by
  simp [divide]

theorem divide_cons_of_ne {c : α} (h : c ≠ lf) (t : List α) :
    divide cr lf (c :: t) = c :: divide cr lf t := by
  simp [divide, h]

/-- Without the line end there is nothing to rewrite. -/
theorem unite_of_not_infix (h : ¬ [cr, lf] <:+: t) : unite cr lf t = t := by
  induction t using unite.induct cr lf with
  | case1 | case2 => rfl
  | case3 c d cs heq ih =>
    obtain ⟨rfl, rfl⟩ := heq
    exact absurd (List.prefix_append [c, d] cs).isInfix h
  | case4 c d cs hne ih =>
    rw [unite, if_neg hne, ih (not_infix_cons h)]

/-- The first line end of a text is where rewriting begins. -/
theorem exists_of_infix (h : [cr, lf] <:+: t) :
    ∃ a b, t = a ++ cr :: lf :: b ∧ unite cr lf t = a ++ lf :: unite cr lf b := by
  induction t using unite.induct cr lf with
  | case1 => simp at h
  | case2 c =>
    obtain ⟨a, b, hab⟩ := h
    have := congrArg List.length hab
    simp at this
    omega
  | case3 c d cs heq ih =>
    obtain ⟨rfl, rfl⟩ := heq
    exact ⟨[], cs, rfl, by rw [unite, if_pos ⟨rfl, rfl⟩, List.nil_append]⟩
  | case4 c d cs hne ih =>
    have htail : [cr, lf] <:+: d :: cs := by
      rcases List.infix_cons_iff.1 h with hpre | hinf
      · simp only [List.cons_prefix_cons, List.nil_prefix, and_true] at hpre
        exact absurd ⟨hpre.1.symm, hpre.2.symm⟩ hne
      · exact hinf
    obtain ⟨a, b, hab, hunite⟩ := ih htail
    refine ⟨c :: a, b, by rw [hab, List.cons_append], ?_⟩
    rw [unite, if_neg hne, hunite, List.cons_append]

theorem length_unite_le (t : List α) : (unite cr lf t).length ≤ t.length := by
  induction t using unite.induct cr lf with
  | case1 | case2 => exact Nat.le_refl _
  | case3 c d cs heq ih =>
    rw [unite, if_pos heq]
    simp only [List.length_cons]
    omega
  | case4 c d cs hne ih =>
    rw [unite, if_neg hne]
    simp only [List.length_cons] at ih ⊢
    omega

theorem count_unite (hne : cr ≠ lf) (t : List α) : (unite cr lf t).count lf = t.count lf := by
  induction t using unite.induct cr lf with
  | case1 | case2 => rfl
  | case3 c d cs heq ih =>
    obtain ⟨rfl, rfl⟩ := heq
    rw [unite, if_pos ⟨rfl, rfl⟩, List.count_cons_self, List.count_cons_of_ne hne,
      List.count_cons_self, ih]
  | case4 c d cs hnot ih => rw [unite, if_neg hnot, List.count_cons, List.count_cons, ih]

theorem length_divide (t : List α) : (divide cr lf t).length = t.length + t.count lf := by
  induction t with
  | nil => rfl
  | cons c cs ih =>
    by_cases hc : c = lf
    · subst hc
      rw [divide_lf, List.count_cons_self]
      simp only [List.length_cons, ih]
      omega
    · rw [divide_cons_of_ne hc, List.count_cons_of_ne hc]
      simp only [List.length_cons, ih]
      omega

theorem singleton_prefix_unite_iff {d : α} (hd : d ≠ lf) (cs : List α) :
    [lf] <+: unite cr lf (d :: cs) ↔ d = cr ∧ [lf] <+: cs := by
  cases cs with
  | nil => simp [unite, hd.symm]
  | cons e cs =>
    by_cases h : d = cr ∧ e = lf
    · simp [unite, h]
    · simp only [unite, if_neg h, List.cons_prefix_cons, List.nil_prefix, and_true]
      exact ⟨fun he ↦ absurd he.symm hd, fun he ↦ absurd ⟨he.1, he.2.symm⟩ h⟩

/-- A line end is left over exactly where a second `cr` stood before it. -/
theorem infix_unite_iff (hne : cr ≠ lf) : [cr, lf] <:+: unite cr lf t ↔ [cr, cr, lf] <:+: t := by
  induction t using unite.induct cr lf with
  | case1 => simp [unite]
  | case2 c =>
    have hlong : ∀ q : List α, 1 < q.length → ¬ q <:+: [c] := fun q hq h ↦
      Nat.not_lt.2 h.length_le hq
    rw [unite]
    exact iff_of_false (hlong _ (by simp)) (hlong _ (by simp))
  | case3 c d cs heq ih =>
    obtain ⟨rfl, rfl⟩ := heq
    rw [unite, if_pos ⟨rfl, rfl⟩, List.infix_cons_iff, List.infix_cons_iff, List.infix_cons_iff, ih]
    simp [hne]
  | case4 c d cs hnot ih =>
    rw [unite, if_neg hnot, List.infix_cons_iff, List.infix_cons_iff (a := c), ih,
      List.cons_prefix_cons, List.cons_prefix_cons]
    refine or_congr (and_congr_right fun hc ↦ ?_) Iff.rfl
    have hd : d ≠ lf := fun hd ↦ hnot ⟨hc.symm, hd⟩
    rw [singleton_prefix_unite_iff hd, List.cons_prefix_cons, eq_comm]

theorem pairs_le_count (hne : cr ≠ lf) (t : List α) : pairs cr lf t ≤ t.count lf := by
  induction t using pairs.induct cr lf with
  | case1 | case2 => exact Nat.zero_le _
  | case3 c d cs heq ih =>
    obtain ⟨rfl, rfl⟩ := heq
    rw [pairs, if_pos ⟨rfl, rfl⟩, List.count_cons_of_ne hne, List.count_cons_self]
    omega
  | case4 c d cs hnot ih =>
    rw [pairs, if_neg hnot]
    exact Nat.le_trans ih (List.count_le_count_cons ..)

/-- **There and back**: when every `lf` belongs to a line end `cr lf`, rewriting loses nothing. -/
theorem divide_unite (hne : cr ≠ lf) (h : t.count lf = pairs cr lf t) :
    divide cr lf (unite cr lf t) = t := by
  induction t using unite.induct cr lf with
  | case1 => rfl
  | case2 c =>
    have hc : c ≠ lf := by
      rintro rfl
      simp [pairs] at h
    rw [unite, divide_cons_of_ne hc, divide_nil]
  | case3 c d cs heq ih =>
    obtain ⟨rfl, rfl⟩ := heq
    rw [pairs, if_pos ⟨rfl, rfl⟩, List.count_cons_of_ne hne, List.count_cons_self] at h
    rw [unite, if_pos ⟨rfl, rfl⟩, divide_lf, ih (by omega)]
  | case4 c d cs hnot ih =>
    rw [pairs, if_neg hnot] at h
    have hc : c ≠ lf := by
      rintro rfl
      rw [List.count_cons_self] at h
      have := pairs_le_count hne (d :: cs)
      omega
    rw [List.count_cons_of_ne hc] at h
    rw [unite, if_neg hnot, divide_cons_of_ne hc, ih h]

/-- A line end where the other text has only an `lf`, also after both were divided. -/
theorem apart_divide (hne : cr ≠ lf) (p s t : List α) :
    Apart (divide cr lf (p ++ lf :: s)) (divide cr lf (p ++ cr :: lf :: t)) := by
  rw [divide_append, divide_append, divide_lf, divide_cons_of_ne hne, divide_lf]
  exact ⟨divide cr lf p ++ [cr], lf, cr, divide cr lf s, lf :: divide cr lf t, hne.symm,
    by simp, by simp⟩

end LineEnds

/-! ### Replacing -/

/-- An occurrence does not reach over a letter it does not have. -/
theorem prefix_of_prefix_append {q : List α} {c : α} {cs : List α} (h : q <+: s ++ c :: cs)
    (hc : c ∉ q) : q <+: s := by
  rcases Nat.le_total q.length s.length with hle | hle
  · exact List.prefix_of_prefix_length_le h (List.prefix_append _ _) hle
  · rcases Nat.eq_or_lt_of_le hle with heq | hlt
    · exact List.prefix_of_prefix_length_le h (List.prefix_append _ _) (Nat.le_of_eq heq.symm)
    · have hs : s ++ [c] <+: s ++ c :: cs := ⟨cs, by simp⟩
      have hsq : s ++ [c] <+: q := List.prefix_of_prefix_length_le hs h (by simp; omega)
      exact absurd (hsq.subset (List.mem_append_right s List.mem_cons_self)) hc

section Replace

variable [DecidableEq α]

/-- Every occurrence of `q`, from the left and without overlaps, becomes `r`; the first letters of
the text, this many, belong to an occurrence and are dropped. -/
def replaceFrom (q r : List α) : ℕ → List α → List α
  | _, [] => []
  | n + 1, _ :: cs => replaceFrom q r n cs
  | 0, c :: cs =>
    if q <+: c :: cs then r ++ replaceFrom q r (q.length - 1) cs else c :: replaceFrom q r 0 cs

/-- Every occurrence of `q` becomes `r`. -/
def replaceAll (q r t : List α) : List α := replaceFrom q r 0 t

theorem replaceAll_of_not_infix {q : List α} (r : List α) (h : ¬ q <:+: t) :
    replaceAll q r t = t := by
  induction t with
  | nil => rfl
  | cons c cs ih =>
    have hpre : ¬ q <+: c :: cs := fun hp ↦ h hp.isInfix
    rw [replaceAll, replaceFrom, if_neg hpre]
    exact congrArg (c :: ·) (ih (not_infix_cons h))

/-- What stands before a letter that no occurrence has, and contains none, is left alone. -/
theorem replaceAll_append_cons {q : List α} (r : List α) {c : α} (hq : q ≠ []) (hc : c ∉ q)
    (h : ¬ q <:+: s) (t : List α) :
    replaceAll q r (s ++ c :: t) = s ++ c :: replaceAll q r t := by
  induction s with
  | nil =>
    have hpre : ¬ q <+: c :: t := fun hp ↦
      hq (List.prefix_nil.1 (prefix_of_prefix_append (s := []) hp hc))
    rw [List.nil_append, replaceAll, replaceFrom, if_neg hpre]
    rfl
  | cons d s ih =>
    have hpre : ¬ q <+: d :: (s ++ c :: t) := fun hp ↦
      h (prefix_of_prefix_append (s := d :: s) hp hc).isInfix
    rw [List.cons_append, replaceAll, replaceFrom, if_neg hpre]
    exact congrArg (d :: ·) (ih (not_infix_cons h))

end Replace

/-! ### Kept lines -/

section KeepLines

variable (lf : α)

/-- A text that is empty or ends with a line end. -/
def Closed (t : List α) : Prop := t = [] ∨ t.getLast? = some lf

/-- A line with its line end. -/
def Terminated (l : List α) : Prop := ∃ x, lf ∉ x ∧ l = x ++ [lf]

/-- Lines, all terminated but perhaps the last, which is not empty. -/
def Broken : List (List α) → Prop
  | [] => True
  | l :: ls => (Terminated lf l ∨ l ≠ [] ∧ lf ∉ l ∧ ls = []) ∧ Broken ls

variable {lf}

theorem Broken.right {ls ls' : List (List α)} (h : Broken lf (ls ++ ls')) : Broken lf ls' := by
  induction ls with
  | nil => exact h
  | cons l ls ih => exact ih h.2

/-- Lines before another line are terminated. -/
theorem Broken.terminated {ls ls' : List (List α)} (h : Broken lf (ls ++ ls')) (hne : ls' ≠ []) :
    ∀ l ∈ ls, Terminated lf l := by
  induction ls with
  | nil => exact fun _ hl ↦ absurd hl List.not_mem_nil
  | cons l ls ih =>
    intro l' hl'
    rcases List.mem_cons.1 hl' with rfl | hl'
    · rcases h.1 with ht | ⟨-, -, hnil⟩
      · exact ht
      · exact absurd (List.append_eq_nil_iff.1 hnil).2 hne
    · exact ih h.2 l' hl'

theorem closed_of_terminated {ls : List (List α)} (h : ∀ l ∈ ls, Terminated lf l) :
    Closed lf ls.flatten := by
  induction ls using List.reverseRecOn with
  | nil => exact .inl rfl
  | append_singleton ls l ih =>
    obtain ⟨x, -, hx⟩ := h l (List.mem_append_right _ List.mem_cons_self)
    refine .inr ?_
    rw [List.flatten_append, List.flatten_singleton, hx, ← List.append_assoc,
      List.getLast?_concat]

theorem Closed.append (h : Closed lf s) (h' : Closed lf t) : Closed lf (s ++ t) := by
  rcases h' with rfl | h'
  · rw [List.append_nil]
    exact h
  · exact .inr (by rw [List.getLast?_append, h', Option.some_or])

/-- Lines that make a closed text are all terminated. -/
theorem Broken.terminated_of_closed {ls : List (List α)} (h : Broken lf ls)
    (hclosed : Closed lf ls.flatten) : ∀ l ∈ ls, Terminated lf l := by
  induction ls with
  | nil => exact fun _ hl ↦ absurd hl List.not_mem_nil
  | cons l ls ih =>
    rw [List.flatten_cons] at hclosed
    rcases h.1 with ht | ⟨hne, hmem, rfl⟩
    · have htail : Closed lf ls.flatten := by
        by_cases hnil : ls.flatten = []
        · exact .inl hnil
        · refine .inr ?_
          rcases hclosed with hall | hlast
          · exact absurd (List.append_eq_nil_iff.1 hall).2 hnil
          · rwa [List.getLast?_append_of_ne_nil _ hnil] at hlast
      intro l' hl'
      rcases List.mem_cons.1 hl' with rfl | hl'
      · exact ht
      · exact ih h.2 htail l' hl'
    · rw [List.flatten_nil, List.append_nil] at hclosed
      rcases hclosed with hnil | hlast
      · exact absurd hnil hne
      · exact absurd (List.mem_of_getLast? hlast) hmem

variable [DecidableEq α] (lf)

/-- The lines of a text, with their line ends. -/
def keepLines : List α → List (List α)
  | [] => []
  | c :: cs =>
    if c = lf then [c] :: keepLines cs
    else match keepLines cs with
      | [] => [[c]]
      | l :: ls => (c :: l) :: ls

variable {lf}

theorem keepLines_cons_of_ne {c : α} (hc : c ≠ lf) (cs : List α) :
    keepLines lf (c :: cs) = match keepLines lf cs with
      | [] => [[c]]
      | l :: ls => (c :: l) :: ls := by
  rw [keepLines, if_neg hc]

theorem flatten_keepLines (t : List α) : (keepLines lf t).flatten = t := by
  induction t with
  | nil => rfl
  | cons c cs ih =>
    rw [keepLines]
    split
    · rw [List.flatten_cons, ih, List.singleton_append]
    · split
      · next hnil =>
        rw [hnil] at ih
        rw [← ih]
        rfl
      · next l ls hcons =>
        rw [hcons] at ih
        rw [← ih]
        rfl

theorem broken_keepLines (t : List α) : Broken lf (keepLines lf t) := by
  induction t with
  | nil => trivial
  | cons c cs ih =>
    rw [keepLines]
    split
    · next hc => exact ⟨.inl ⟨[], List.not_mem_nil, by rw [hc, List.nil_append]⟩, ih⟩
    next hc =>
    have hcl : lf ∉ [c] := fun h ↦ hc (List.mem_singleton.1 h).symm
    split
    · exact ⟨.inr ⟨List.cons_ne_nil _ _, hcl, rfl⟩, trivial⟩
    · next l ls hcons =>
      rw [hcons] at ih
      refine ⟨?_, ih.2⟩
      have hmem : ∀ {x : List α}, lf ∉ x → lf ∉ c :: x := fun hx h ↦
        (List.mem_cons.1 h).elim (fun he ↦ hc he.symm) hx
      rcases ih.1 with ⟨x, hx, rfl⟩ | ⟨-, hl, hls⟩
      · exact .inl ⟨c :: x, hmem hx, rfl⟩
      · exact .inr ⟨List.cons_ne_nil _ _, hmem hl, hls⟩

/-- A terminated line is cut off. -/
theorem keepLines_append_of_terminated {l : List α} (h : Terminated lf l) (t : List α) :
    keepLines lf (l ++ t) = l :: keepLines lf t := by
  obtain ⟨x, hx, rfl⟩ := h
  induction x with
  | nil => simp [keepLines]
  | cons c x ih =>
    have hc : c ≠ lf := fun he ↦ hx (he ▸ List.mem_cons_self)
    have hih := ih fun hm ↦ hx (List.mem_cons_of_mem _ hm)
    rw [List.cons_append, List.cons_append, keepLines_cons_of_ne hc, hih]

/-- Behind a line end a new line begins. -/
theorem keepLines_append_of_closed (h : Closed lf s) (t : List α) :
    keepLines lf (s ++ t) = keepLines lf s ++ keepLines lf t := by
  have hlines : ∀ ls, (∀ l ∈ ls, Terminated lf l) →
      keepLines lf (ls.flatten ++ t) = ls ++ keepLines lf t := by
    intro ls
    induction ls with
    | nil => exact fun _ ↦ rfl
    | cons l ls ih =>
      intro h
      rw [List.flatten_cons, List.append_assoc,
        keepLines_append_of_terminated (h l List.mem_cons_self),
        ih fun l' hl' ↦ h l' (List.mem_cons_of_mem _ hl'), List.cons_append]
  have hall := (broken_keepLines s).terminated_of_closed ((flatten_keepLines s).symm ▸ h)
  have := hlines _ hall
  rwa [flatten_keepLines] at this

/-- Terminated lines are the lines of the text they make. -/
theorem keepLines_flatten {ls : List (List α)} (h : ∀ l ∈ ls, Terminated lf l) :
    keepLines lf ls.flatten = ls := by
  induction ls with
  | nil => rfl
  | cons l ls ih =>
    rw [List.flatten_cons, keepLines_append_of_terminated (h l List.mem_cons_self),
      ih fun l' hl' ↦ h l' (List.mem_cons_of_mem _ hl')]

/-- When terminated lines are cut behind a line end, what follows begins with one of them. -/
theorem mem_of_head?_keepLines {ls : List (List α)} (h : ∀ l ∈ ls, Terminated lf l)
    (hls : s ++ t = ls.flatten) (hs : Closed lf s) (ht : t ≠ []) {u l : List α}
    (hl : (keepLines lf (t ++ u)).head? = some l) : l ∈ ls := by
  have hclosed : Closed lf t := by
    rcases hls ▸ closed_of_terminated h with hnil | hlast
    · exact .inl (List.append_eq_nil_iff.1 hnil).2
    · rw [List.getLast?_append_of_ne_nil _ ht] at hlast
      exact .inr hlast
  have hlines : ls = keepLines lf s ++ keepLines lf t := by
    rw [← keepLines_append_of_closed hs, hls, keepLines_flatten h]
  rw [keepLines_append_of_closed hclosed] at hl
  cases hk : keepLines lf t with
  | nil => exact absurd ((flatten_keepLines t).symm.trans (by rw [hk, List.flatten_nil])) ht
  | cons l' ls' =>
    rw [hk, List.cons_append, List.head?_cons] at hl
    rw [hlines, hk, ← Option.some.inj hl]
    exact List.mem_append_right _ List.mem_cons_self

/-- A line without its line end is a text's only line. -/
theorem keepLines_of_not_mem (hne : t ≠ []) (h : lf ∉ t) : keepLines lf t = [t] := by
  have hb : Broken lf (keepLines lf t) := broken_keepLines t
  have hflat : (keepLines lf t).flatten = t := flatten_keepLines t
  cases hk : keepLines lf t with
  | nil =>
    rw [hk] at hflat
    exact absurd hflat.symm hne
  | cons l ls =>
    rw [hk] at hb hflat
    rcases hb.1 with ⟨x, -, rfl⟩ | ⟨-, -, rfl⟩
    · exact absurd (hflat ▸ by simp) h
    · simpa using hflat

/-- Broken lines are the lines of the text they make. -/
theorem Broken.keepLines_flatten {ls : List (List α)} (h : Broken lf ls) :
    keepLines lf ls.flatten = ls := by
  induction ls with
  | nil => rfl
  | cons l ls ih =>
    rw [List.flatten_cons]
    rcases h.1 with hterm | ⟨hne, hlf, rfl⟩
    · rw [keepLines_append_of_terminated hterm, ih h.2]
    · rw [List.flatten_nil, List.append_nil, keepLines_of_not_mem hne hlf]

end KeepLines

end Endings
