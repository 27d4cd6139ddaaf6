import Ember.Foundation.PrefixCode
import Ember.Node.Term.Session
import Mathlib.Data.List.TakeWhile

/-!
# Answers told from keys

Input of a client is a terminal's answer to the program, or what a user typed; `is_terminal_report`
tells them apart by reading one control sequence after the other. Here the sequences are a language
(`IsAnswer`) in which none starts another, and the function is shown to accept their concatenations
(`isTerminalReport_iff_mem`).

A key is never taken for an answer by its own bytes. An ESC key has the byte that answers start
with, so an ESC and a bracket typed behind it can be; nothing else can (`keys_not_mem`).
-/

namespace Ember.Node.Term

open Computability

/-! ### The grammar -/

/-- A parameter byte. -/
def isParam (b : UInt8) : Bool := 0x30 ≤ b && b ≤ 0x3f

/-- An intermediate byte. -/
def isIntermediate (b : UInt8) : Bool := 0x20 ≤ b && b ≤ 0x2f

/-- The control sequences that are answers: parameters, intermediates and final byte. -/
inductive Shape : Bytes → Bytes → UInt8 → Prop
  /-- CPR, `R`. -/
  | cursor {params : Bytes} : params ≠ [] → Shape params [] 0x52
  /-- DSR, `n`. -/
  | status {params : Bytes} : params ≠ [] → Shape params [] 0x6e
  /-- DA, `c`, with `?`, `>` or `=`. -/
  | attributes {params : Bytes} :
      params.head? = some 0x3f ∨ params.head? = some 0x3e ∨ params.head? = some 0x3d →
        Shape params [] 0x63
  /-- A report of the window, `t`. -/
  | window {params : Bytes} : params ≠ [] → Shape params [] 0x74
  /-- DECRPM, `$y`. -/
  | mode {params : Bytes} : Shape params [0x24] 0x79
  /-- The keyboard's enhancements, `u`, with `?`. -/
  | keyboard {params : Bytes} : params.head? = some 0x3f → Shape params [] 0x75
  /-- The focus came, `I`. -/
  | focusIn : Shape [] [] 0x49
  /-- The focus went, `O`. -/
  | focusOut : Shape [] [] 0x4f

/-- What ends a string: BEL, or ESC and a backslash. -/
def terminators : List Bytes := [[0x07], [0x1b, 0x5c]]

/-- An answer. A string ends with the first terminator. -/
inductive IsAnswer : Bytes → Prop
  | csi {params intermediates : Bytes} {final : UInt8} :
      (∀ b ∈ params, isParam b = true) → (∀ b ∈ intermediates, isIntermediate b = true) →
      Shape params intermediates final →
      IsAnswer (0x1b :: 0x5b :: (params ++ intermediates ++ [final]))
  /-- OSC, DCS or APC. -/
  | string {intro : UInt8} {body terminator : Bytes} :
      intro = 0x5d ∨ intro = 0x50 ∨ intro = 0x5f → (∀ t ∈ terminators, ¬ t <:+: body) →
      terminator ∈ terminators → IsAnswer (0x1b :: intro :: (body ++ terminator))

/-- The answers. -/
def reports : Language UInt8 := {r | IsAnswer r}

/-! ### One turn of the loop -/

/-- The body of the loop of `is_terminal_report`: where `i` goes from here. -/
def advance (data : Bytes) (i : ℕ) : Option ℕ :=
  match data.drop i with
  | 0x1b :: 0x5b :: rest =>
    let params := rest.takeWhile isParam
    let j := i + 2 + params.length
    let intermediates := (data.drop j).takeWhile isIntermediate
    let k := j + intermediates.length
    match data[k]? with
    | none => none
    | some final => if isReport params intermediates final then some (k + 1) else none
  | 0x1b :: b :: rest =>
    if b = 0x5d ∨ b = 0x50 ∨ b = 0x5f then
      (stringEnd rest).map fun rest' ↦ data.length - rest'.length
    else none
  | _ => none

/-! ### One answer -/

variable {final : UInt8} {params intermediates : Bytes}

theorem isReport_iff :
    isReport params intermediates final = true ↔ Shape params intermediates final := by
  have hchar : ∀ {c : Char} {b : UInt8}, Char.ofUInt8 b = c → b = c.val.toUInt8 := by
    rintro _ b rfl
    exact (UInt8.toUInt8_toUInt32 b).symm
  constructor
  · intro h
    unfold isReport at h
    split at h
    case h_1 hfinal =>
      obtain rfl := hchar hfinal
      exact .cursor (of_decide_eq_true h)
    case h_2 hfinal =>
      obtain rfl := hchar hfinal
      exact .status (of_decide_eq_true h)
    case h_3 hfinal =>
      obtain rfl := hchar hfinal
      exact .window (of_decide_eq_true h)
    case h_4 hfinal =>
      obtain rfl := hchar hfinal
      exact .attributes (by simpa [or_assoc] using h)
    case h_5 hfinal =>
      obtain rfl := hchar hfinal
      exact .mode
    case h_6 hfinal =>
      obtain rfl := hchar hfinal
      exact .keyboard (by simpa using h)
    case h_7 hfinal =>
      obtain rfl := hchar hfinal
      obtain rfl := of_decide_eq_true h
      exact .focusIn
    case h_8 hfinal =>
      obtain rfl := hchar hfinal
      obtain rfl := of_decide_eq_true h
      exact .focusOut
    · cases h
  · intro h
    cases h with
    | cursor h | status h | window h => exact decide_eq_true h
    | attributes h =>
      show (params.head? == some 0x3f || params.head? == some 0x3e ||
        params.head? == some 0x3d) = true
      simpa [or_assoc] using h
    | keyboard h =>
      show (params.head? == some 0x3f) = true
      simpa using h
    | mode | focusIn | focusOut => rfl

theorem Shape.bounds
    (h : Shape params intermediates final) : isParam final = false ∧ isIntermediate final = false :=
  by cases h <;> exact ⟨rfl, rfl⟩

theorem stringEnd_cons (b : UInt8) (rest : Bytes) :
    stringEnd (b :: rest) =
      if b = 0x07 then some rest
      else if b = 0x1b ∧ rest.head? = some 0x5c then some rest.tail else stringEnd rest := by
  conv_lhs => unfold stringEnd
  split
  · rfl
  · split
    case h_1 => simp
    case h_2 hne =>
      rw [if_neg]
      rintro ⟨rfl, hhead⟩
      obtain ⟨rest', rfl⟩ := List.head?_eq_some_iff.1 hhead
      exact hne rest' rfl rfl

theorem terminator_cases {t : Bytes} (ht : t ∈ terminators) : t = [0x07] ∨ t = [0x1b, 0x5c] := by
  simpa [terminators] using ht

/-- Where a terminator starts. -/
theorem terminator_iff (b : UInt8) (l : Bytes) :
    (∃ t ∈ terminators, t <+: b :: l) ↔ b = 0x07 ∨ b = 0x1b ∧ l.head? = some 0x5c := by
  constructor
  · rintro ⟨t, ht, hle⟩
    rcases terminator_cases ht with rfl | rfl
    · exact .inl (List.cons_prefix_cons.1 hle).1.symm
    · obtain ⟨hb, ⟨l', rfl⟩⟩ := List.cons_prefix_cons.1 hle
      exact .inr ⟨hb.symm, rfl⟩
  · rintro (rfl | ⟨rfl, hl⟩)
    · exact ⟨[0x07], by decide, ⟨l, rfl⟩⟩
    · obtain ⟨l', rfl⟩ := List.head?_eq_some_iff.1 hl
      exact ⟨[0x1b, 0x5c], by decide, ⟨l', rfl⟩⟩

variable {rest : Bytes}

/-- What is left behind a string is left behind its first terminator. -/
theorem stringEnd_iff {rest' : Bytes} :
    stringEnd rest = some rest' ↔
      ∃ body, ∃ t ∈ terminators, (∀ t ∈ terminators, ¬ t <:+: body) ∧
        rest = body ++ t ++ rest' := by
  have hnil : ∀ t ∈ terminators, ¬ t <:+: [] := by decide
  induction rest with
  | nil =>
    refine iff_of_false (by simp [stringEnd]) ?_
    rintro ⟨body, t, ht, -, heq⟩
    have ht' : t = [] := by simp_all
    exact absurd ht (ht' ▸ by decide)
  | cons b rest ih =>
    rw [stringEnd_cons]
    split
    case isTrue hb =>
      subst hb
      constructor
      · intro h
        obtain rfl := Option.some.inj h
        exact ⟨[], [0x07], by decide, hnil, rfl⟩
      · rintro ⟨body, t, ht, hbody, heq⟩
        cases body with
        | nil =>
          rcases terminator_cases ht with rfl | rfl
          · exact congrArg some (List.cons.inj heq).2
          · exact absurd (List.cons.inj heq).1 (by decide)
        | cons c body =>
          obtain rfl := (List.cons.inj heq).1
          exact absurd ⟨[], body, rfl⟩ (hbody [0x07] (by decide))
    case isFalse hb =>
      split
      case isTrue hesc =>
        obtain ⟨rfl, hhead⟩ := hesc
        obtain ⟨rest, rfl⟩ := List.head?_eq_some_iff.1 hhead
        constructor
        · intro h
          obtain rfl := Option.some.inj h
          exact ⟨[], [0x1b, 0x5c], by decide, hnil, rfl⟩
        · rintro ⟨body, t, ht, hbody, heq⟩
          cases body with
          | nil =>
            rcases terminator_cases ht with rfl | rfl
            · exact absurd (List.cons.inj heq).1 (by decide)
            · exact congrArg some (List.cons.inj (List.cons.inj heq).2).2
          | cons c body =>
            obtain ⟨rfl, hrest⟩ := List.cons.inj heq
            -- The body would be an ESC alone, and a terminator does not start with a backslash.
            cases body with
            | nil =>
              rcases terminator_cases ht with rfl | rfl <;>
                exact absurd (List.cons.inj hrest).1 (by decide)
            | cons d body =>
              obtain rfl := (List.cons.inj hrest).1
              exact absurd ⟨[], body, rfl⟩ (hbody [0x1b, 0x5c] (by decide))
      case isFalse hesc =>
        have hstart : ¬ ∃ t ∈ terminators, t <+: b :: rest := by
          rw [terminator_iff]
          exact not_or.2 ⟨hb, hesc⟩
        refine ih.trans ⟨?_, ?_⟩
        · rintro ⟨body, t, ht, hbody, rfl⟩
          refine ⟨b :: body, t, ht, fun u hu hle ↦ ?_, by simp⟩
          rcases List.infix_cons_iff.1 hle with hle | hle
          · exact hstart ⟨u, hu, hle.trans ⟨t ++ rest', by simp⟩⟩
          · exact hbody u hu hle
        · rintro ⟨body, t, ht, hbody, heq⟩
          cases body with
          | nil => exact absurd ⟨t, ht, rest', heq.symm⟩ hstart
          | cons c body =>
            obtain ⟨rfl, rfl⟩ := List.cons.inj heq
            exact ⟨body, t, ht, fun u hu hle ↦
              hbody u hu (hle.trans (List.suffix_cons _ _).isInfix), rfl⟩

variable {b : UInt8}

theorem takeWhile_append_cons {p : UInt8 → Bool} {l m : Bytes} (hl : ∀ x ∈ l, p x = true)
    (hb : p b = false) :
    (l ++ b :: m).takeWhile p = l ∧ (l ++ b :: m).dropWhile p = b :: m := by
  rw [List.takeWhile_append_of_pos hl, List.dropWhile_append_of_pos hl,
    List.takeWhile_cons_of_neg (by simp [hb]), List.dropWhile_cons_of_neg (by simp [hb])]
  exact ⟨List.append_nil l, rfl⟩

/-- The parameters and intermediates of a control sequence are where they are read. -/
theorem split_csi (rest : Bytes) (hparams : ∀ b ∈ params, isParam b = true)
    (hintermediates : ∀ b ∈ intermediates, isIntermediate b = true)
    (hparam : isParam final = false) (hintermediate : isIntermediate final = false) :
    let l := params ++ intermediates ++ final :: rest
    l.takeWhile isParam = params ∧
      (l.drop params.length).takeWhile isIntermediate = intermediates := by
  intro l
  have hdisjoint : ∀ b, isIntermediate b = true → isParam b = false := by
    intro b hb
    simp only [isIntermediate, isParam, Bool.and_eq_true, decide_eq_true_eq] at hb ⊢
    have hlt : ¬ 0x30 ≤ b := fun hle ↦ absurd (UInt8.le_trans hle hb.2) (by decide)
    simp [hlt]
  constructor
  · cases intermediates with
    | nil => simpa [l] using (takeWhile_append_cons (m := rest) hparams hparam).1
    | cons b bs =>
      have hb := hdisjoint b (hintermediates b List.mem_cons_self)
      simpa [l] using (takeWhile_append_cons (m := bs ++ final :: rest) hparams hb).1
  · have hdrop : l.drop params.length = intermediates ++ final :: rest := by simp [l]
    rw [hdrop]
    exact (takeWhile_append_cons hintermediates hintermediate).1

variable {data : Bytes} {i i' : ℕ}

theorem advance_csi (h : data.drop i = 0x1b :: 0x5b :: rest) :
    advance data i = some i' ↔
      let params := rest.takeWhile isParam
      let intermediates := (rest.drop params.length).takeWhile isIntermediate
      ∃ final, rest[params.length + intermediates.length]? = some final ∧
        Shape params intermediates final ∧
          i' = i + (params.length + intermediates.length + 3) := by
  have hrest : data.drop (i + 2) = rest := by rw [← List.drop_drop, h]; rfl
  have hdrop : ∀ n, data.drop (i + 2 + n) = rest.drop n := fun n ↦ by
    rw [← hrest, List.drop_drop]
  have hget : ∀ n, data[i + 2 + n]? = rest[n]? := fun n ↦ by
    rw [← hrest, List.getElem?_drop]
  unfold advance
  rw [h]
  simp only [hdrop, Nat.add_assoc (i + 2), hget]
  split
  case h_1 hnone => simp [hnone]
  case h_2 final hfinal =>
    rw [hfinal]
    split
    case isTrue hreport =>
      simp only [Option.some.injEq, exists_eq_left', isReport_iff.1 hreport, true_and]
      omega
    case isFalse hreport =>
      simp [mt isReport_iff.2 hreport]

theorem advance_string (h : data.drop i = 0x1b :: b :: rest) (hb : b ≠ 0x5b) :
    advance data i = some i' ↔ (b = 0x5d ∨ b = 0x50 ∨ b = 0x5f) ∧
      ∃ rest', stringEnd rest = some rest' ∧ i' = data.length - rest'.length := by
  unfold advance
  rw [h]
  split
  case h_1 heq => exact absurd (List.cons.inj (List.cons.inj heq).2).1 hb
  case h_2 heq =>
    obtain ⟨rfl, rfl⟩ := List.cons.inj (List.cons.inj heq).2
    split
    case isTrue hintro => simp [hintro, eq_comm]
    case isFalse hintro => simp [hintro]
  case h_3 hne => exact absurd rfl (hne _ _)

theorem IsAnswer.exists_cons {r : Bytes} (h : IsAnswer r) : ∃ b rest, r = 0x1b :: b :: rest := by
  cases h with
  | csi | string => exact ⟨_, _, rfl⟩

theorem advance_eq_none (h : ∀ b rest, data.drop i ≠ 0x1b :: b :: rest) :
    advance data i = none := by
  unfold advance
  split
  case h_1 heq => exact absurd heq (h _ _)
  case h_2 heq => exact absurd heq (h _ _)
  case h_3 => rfl

/-- **The loop goes behind the answer that is there**, if one is. -/
theorem advance_iff :
    advance data i = some i' ↔ ∃ r, IsAnswer r ∧ r <+: data.drop i ∧ i' = i + r.length := by
  by_cases hcons : ∃ b rest, data.drop i = 0x1b :: b :: rest
  swap
  · push Not at hcons
    rw [advance_eq_none hcons]
    refine iff_of_false (by simp) ?_
    rintro ⟨r, hr, ⟨t, ht⟩, -⟩
    obtain ⟨b, rest, rfl⟩ := hr.exists_cons
    exact hcons b (rest ++ t) ht.symm
  obtain ⟨b, rest, hdata⟩ := hcons
  by_cases hb : b = 0x5b
  · subst hb
    rw [advance_csi hdata, hdata]
    constructor
    · intro h
      obtain ⟨final, hfinal, hshape, rfl⟩ := h
      refine ⟨_, .csi (fun _ ↦ List.mem_takeWhile_imp) (fun _ ↦ List.mem_takeWhile_imp) hshape, ?_,
        ?_⟩
      · rw [← List.head?_drop] at hfinal
        obtain ⟨t, ht⟩ := List.head?_eq_some_iff.1 hfinal
        rw [← List.drop_drop] at ht
        have hparams := List.prefix_iff_eq_append.1 (List.takeWhile_prefix isParam (l := rest))
        have hinter := List.prefix_iff_eq_append.1 (List.takeWhile_prefix isIntermediate
          (l := rest.drop (rest.takeWhile isParam).length))
        refine ⟨t, ?_⟩
        rw [ht] at hinter
        simp only [List.cons_append, List.append_assoc, List.nil_append, hinter, hparams]
      · simp only [List.length_cons, List.length_append, List.length_nil]
    · rintro ⟨r, hr, ⟨t, ht⟩, rfl⟩
      cases hr with
      | string hintro =>
        obtain rfl := (List.cons.inj (List.cons.inj ht).2).1
        exact absurd hintro (by decide)
      | @csi params intermediates final hparams hintermediates hshape =>
        have hrest : rest = params ++ intermediates ++ final :: t := by
          simpa using (List.cons.inj (List.cons.inj ht).2).2.symm
        obtain ⟨hfp, hfi⟩ := hshape.bounds
        obtain ⟨h₁, h₂⟩ := split_csi t hparams hintermediates hfp hfi
        simp only [hrest, h₁, h₂]
        refine ⟨final, ?_, hshape, ?_⟩
        · simp
        · simp only [List.length_cons, List.length_append, List.length_nil]
  · rw [advance_string hdata hb, hdata]
    have hlen : data.length - i = rest.length + 2 := by
      simpa using congrArg List.length hdata
    constructor
    · rintro ⟨hintro, rest', hend, rfl⟩
      obtain ⟨body, t, ht, hbody, rfl⟩ := stringEnd_iff.1 hend
      refine ⟨_, .string hintro hbody ht, ⟨rest', by simp⟩, ?_⟩
      simp only [List.length_cons, List.length_append] at hlen ⊢
      omega
    · rintro ⟨r, hr, ⟨rest', hr'⟩, rfl⟩
      cases hr with
      | csi => exact absurd (List.cons.inj (List.cons.inj hr').2).1.symm hb
      | @string intro body t hintro hbody ht =>
        obtain ⟨rfl, hrest⟩ := List.cons.inj (List.cons.inj hr').2
        refine ⟨hintro, rest', stringEnd_iff.2 ⟨body, t, ht, hbody, hrest.symm⟩, ?_⟩
        obtain rfl : body ++ t ++ rest' = rest := hrest
        simp only [List.length_cons, List.length_append] at hlen ⊢
        omega

theorem advance_bounds (h : advance data i = some i') :
    i < i' ∧ (i ≤ data.length → i' ≤ data.length) := by
  obtain ⟨r, hr, hle, rfl⟩ := advance_iff.1 h
  obtain ⟨b, rest, rfl⟩ := hr.exists_cons
  have hlen := hle.length_le
  rw [List.length_drop] at hlen
  simp only [List.length_cons] at hlen ⊢
  omega

/-- The loop finds the answer a text begins with. -/
theorem findsWord_advance : FindsWord (advance · 0) reports := fun l n ↦ by
  refine advance_iff.trans (exists_congr fun r ↦ and_congr Iff.rfl ?_)
  rw [List.drop_zero, Nat.zero_add, eq_comm]

theorem nil_not_mem_reports : [] ∉ reports := fun h ↦ by
  obtain ⟨b, rest, hnil⟩ := IsAnswer.exists_cons h
  cases hnil

/-- No answer starts another. -/
theorem isPrefixCode_reports : IsPrefixCode reports :=
  findsWord_advance.isPrefixCode nil_not_mem_reports

/-! ### The loop -/

/-- The loop of `is_terminal_report`. -/
def loop (data : Bytes) (i : ℕ) (any : Bool) : Bool :=
  if i < data.length then
    match _h : advance data i with
    | none => false
    | some i' => loop data i' true
  else any
termination_by data.length - i
decreasing_by
  have := (advance_bounds _h).1
  omega

theorem advance_drop (data : Bytes) (i : ℕ) :
    advance data i = (advance (data.drop i) 0).map (i + ·) := by
  ext i'
  simp only [advance_iff, Option.map_eq_some_iff, List.drop_zero, Nat.zero_add]
  constructor
  · rintro ⟨r, hr, hle, rfl⟩
    exact ⟨r.length, ⟨r, hr, hle, rfl⟩, rfl⟩
  · rintro ⟨_, ⟨r, hr, hle, rfl⟩, rfl⟩
    exact ⟨r, hr, hle, rfl⟩

theorem loop_iff (hi : i ≤ data.length) (any : Bool) :
    loop data i any = true ↔
      (i = data.length → any = true) ∧ data.drop i ∈ reports∗ := by
  fun_induction loop data i any with
  | case1 i any hlt hnone =>
    have hne : data.drop i ≠ [] := fun hnil ↦ absurd (List.drop_eq_nil_iff.1 hnil) (by omega)
    rw [advance_drop, Option.map_eq_none_iff] at hnone
    simp [findsWord_advance.not_mem_kstar hne hnone]
  | case2 i any hlt i' hsome ih =>
    have hle := (advance_bounds hsome).2 hi
    rw [advance_drop] at hsome
    obtain ⟨n, hn, rfl⟩ := Option.map_eq_some_iff.1 hsome
    have hstar := findsWord_advance.mem_kstar_iff nil_not_mem_reports hn
    rw [List.drop_drop] at hstar
    rw [ih hle, hstar]
    simp [hlt.ne]
  | case3 i any hge =>
    obtain rfl : i = data.length := by omega
    simp [Language.nil_mem_kstar]

theorem dropWhile_eq_drop (p : UInt8 → Bool) (l : Bytes) :
    l.dropWhile p = l.drop (l.takeWhile p).length := by
  have h := congrArg (List.drop (l.takeWhile p).length)
    (List.takeWhile_append_dropWhile (p := p) (l := l))
  rwa [List.drop_left] at h

theorem onlyReports_csi (any : Bool) (rest : Bytes) :
    let params := rest.takeWhile isParam
    let intermediates := (rest.drop params.length).takeWhile isIntermediate
    onlyReports any (0x1b :: 0x5b :: rest) =
      match rest.drop (params.length + intermediates.length) with
      | [] => false
      | final :: rest' => isReport params intermediates final && onlyReports true rest' := by
  intro params intermediates
  have hafter : rest.dropWhile isParam = rest.drop params.length := dropWhile_eq_drop _ _
  have hlast : (rest.dropWhile isParam).dropWhile isIntermediate =
      rest.drop (params.length + intermediates.length) := by
    rw [hafter, dropWhile_eq_drop, List.drop_drop]
  rw [onlyReports, ← hlast]
  split
  case h_1 hnil =>
    rw [show (rest.dropWhile isParam).dropWhile isIntermediate = [] from hnil]
  case h_2 final rest' hcons =>
    rw [show (rest.dropWhile isParam).dropWhile isIntermediate = final :: rest' from hcons]
    show (isReport params ((rest.dropWhile isParam).takeWhile isIntermediate) final &&
      onlyReports true rest') = _
    rw [hafter]

theorem onlyReports_string (any : Bool) (hb : b ≠ 0x5b) (rest : Bytes) :
    onlyReports any (0x1b :: b :: rest) =
      if b = 0x5d ∨ b = 0x50 ∨ b = 0x5f then
        match stringEnd rest with
        | some rest' => onlyReports true rest'
        | none => false
      else false := by
  rw [onlyReports.eq_def]
  split
  case h_1 heq => cases heq
  case h_2 heq => exact absurd (List.cons.inj (List.cons.inj heq).2).1 hb
  case h_3 heq =>
    obtain ⟨rfl, rfl⟩ := List.cons.inj (List.cons.inj heq).2
    split
    · split <;> simp_all
    · rfl
  case h_4 hne => exact absurd rfl (hne _ _)

theorem onlyReports_eq_false (any : Bool) {l : Bytes} (hl : l ≠ [])
    (h : ∀ b rest, l ≠ 0x1b :: b :: rest) : onlyReports any l = false := by
  rw [onlyReports.eq_def]
  split
  case h_1 => exact absurd rfl hl
  case h_2 => exact absurd rfl (h _ _)
  case h_3 => exact absurd rfl (h _ _)
  case h_4 => rfl

/-- One turn of the loop. -/
theorem onlyReports_advance (hi : i < data.length) (any : Bool) :
    onlyReports any (data.drop i) =
      match advance data i with
      | none => false
      | some i' => onlyReports true (data.drop i') := by
  by_cases hcons : ∃ b rest, data.drop i = 0x1b :: b :: rest
  swap
  · push Not at hcons
    rw [advance_eq_none hcons]
    have hne : data.drop i ≠ [] := fun hnil ↦ absurd (List.drop_eq_nil_iff.1 hnil) (by omega)
    exact onlyReports_eq_false any hne hcons
  obtain ⟨b, rest, hdata⟩ := hcons
  by_cases hb : b = 0x5b
  · subst hb
    rw [hdata, onlyReports_csi]
    generalize hn : (rest.takeWhile isParam).length +
      ((rest.drop (rest.takeWhile isParam).length).takeWhile isIntermediate).length = n
    cases hrest : rest.drop n with
    | nil =>
      have hnone : advance data i = none := Option.eq_none_iff_forall_ne_some.2 fun i' h ↦ by
        obtain ⟨final, hfinal, -⟩ := (advance_csi hdata).1 h
        rw [hn, ← List.head?_drop, hrest] at hfinal
        cases hfinal
      rw [hnone]
    | cons final rest' =>
      have hfinal : rest[n]? = some final := by rw [← List.head?_drop, hrest]; rfl
      cases hreport : isReport _ _ final with
      | true =>
        have hsome : advance data i = some (i + (n + 3)) :=
          (advance_csi hdata).2 ⟨final, hn ▸ hfinal, isReport_iff.1 hreport, by rw [hn]⟩
        have hdrop : data.drop (i + (n + 3)) = rest' := by
          have htail := congrArg List.tail hrest
          rw [List.tail_drop] at htail
          rw [← List.drop_drop, hdata]
          exact htail
        show (isReport _ _ final && onlyReports true rest') = _
        rw [hsome, hreport, Bool.true_and]
        exact congrArg _ hdrop.symm
      | false =>
        have hnone : advance data i = none := Option.eq_none_iff_forall_ne_some.2 fun i' h ↦ by
          obtain ⟨final', hfinal', hshape, -⟩ := (advance_csi hdata).1 h
          rw [hn, hfinal] at hfinal'
          obtain rfl := Option.some.inj hfinal'
          exact absurd (isReport_iff.2 hshape) (by rw [hreport]; decide)
        show (isReport _ _ final && onlyReports true rest') = _
        rw [hnone, hreport, Bool.false_and]
  · rw [hdata, onlyReports_string any hb]
    split
    case isTrue hintro =>
      cases hend : stringEnd rest with
      | none =>
        have hnone : advance data i = none := Option.eq_none_iff_forall_ne_some.2 fun i' h ↦ by
          obtain ⟨-, rest', hrest', -⟩ := (advance_string hdata hb).1 h
          exact absurd (hend.symm.trans hrest') (by simp)
        rw [hnone]
      | some rest' =>
        have hsome : advance data i = some (data.length - rest'.length) :=
          (advance_string hdata hb).2 ⟨hintro, rest', hend, rfl⟩
        obtain ⟨body, t, -, -, rfl⟩ := stringEnd_iff.1 hend
        have hsuffix : rest' <:+ data :=
          List.IsSuffix.trans ⟨0x1b :: b :: (body ++ t), by rw [hdata]; simp⟩ (data.drop_suffix i)
        rw [hsome]
        exact congrArg _ (List.suffix_iff_eq_drop.1 hsuffix)
    case isFalse hintro =>
      have hnone : advance data i = none := Option.eq_none_iff_forall_ne_some.2 fun i' h ↦
        hintro ((advance_string hdata hb).1 h).1
      rw [hnone]

/-- What is read as a whole is what the loop reads from `i` on. -/
theorem onlyReports_drop (hi : i ≤ data.length) (any : Bool) :
    onlyReports any (data.drop i) = loop data i any := by
  fun_induction loop data i any with
  | case1 i any hlt hnone => rw [onlyReports_advance hlt, hnone]
  | case2 i any hlt i' hsome ih =>
    rw [onlyReports_advance hlt, hsome]
    exact ih ((advance_bounds hsome).2 hi)
  | case3 i any hge =>
    rw [List.drop_eq_nil_of_le (by omega), onlyReports]

theorem isTerminalReport_eq (data : Bytes) : isTerminalReport data = loop data 0 false := by
  have h := onlyReports_drop (Nat.zero_le data.length) false
  rwa [List.drop_zero] at h

/-- The inputs that are taken for answers are made of answers. -/
theorem isTerminalReport_iff_mem (data : Bytes) :
    isTerminalReport data = true ↔ data ∈ reports * reports∗ := by
  rw [isTerminalReport_eq, loop_iff (Nat.zero_le _), isPrefixCode_reports.mem_mul_kstar_iff,
    List.drop_zero]
  simp [eq_comm]

/-! ### Keys -/

/-- A number, as it is written in a control sequence. -/
def decimal (n : ℕ) : Bytes := (Nat.toDigits 10 n).map fun c ↦ c.val.toUInt8

/-- Keys that a user types, and the mouse. -/
inductive Key
  /-- A printable byte. -/
  | char (b : UInt8) (h : 0x20 ≤ b ∧ b ≠ 0x7f)
  /-- The ESC key. -/
  | escape
  /-- An arrow, in the keypad's application mode or not. -/
  | arrow (direction : Fin 4) (application : Bool)
  /-- An arrow with a modifier. -/
  | modified (direction : Fin 4) (modifier : ℕ)
  /-- The mouse, as X10 reports it. -/
  | mouse (button column row : UInt8)
  /-- The mouse, as SGR reports it. -/
  | mouseSgr (button column row : ℕ) (release : Bool)
  deriving DecidableEq, Repr

/-- The last byte of an arrow. -/
def arrowByte (direction : Fin 4) : UInt8 := 0x41 + UInt8.ofNat direction

/-- What a terminal sends. -/
def Key.bytes : Key → Bytes
  | char b _ => [b]
  | escape => [0x1b]
  | arrow direction false => [0x1b, 0x5b, arrowByte direction]
  | arrow direction true => [0x1b, 0x4f, arrowByte direction]
  | modified direction modifier =>
    [0x1b, 0x5b, 0x31, 0x3b] ++ decimal modifier ++ [arrowByte direction]
  | mouse button column row => [0x1b, 0x5b, 0x4d, button, column, row]
  | mouseSgr button column row release =>
    [0x1b, 0x5b, 0x3c] ++ decimal button ++ [0x3b] ++ decimal column ++ [0x3b] ++ decimal row ++
      [if release then 0x6d else 0x4d]

/-- What answers have behind the ESC. -/
def introducers : List UInt8 := [0x5b, 0x5d, 0x50, 0x5f]

theorem isParam_of_mem_decimal {n : ℕ} (h : b ∈ decimal n) : isParam b = true := by
  obtain ⟨c, hc, rfl⟩ := List.mem_map.1 h
  have hdigit := Nat.isDigit_of_mem_toDigits (by decide) le_rfl hc
  simp only [Char.isDigit, Bool.and_eq_true, decide_eq_true_eq, ge_iff_le,
    UInt32.le_iff_toNat_le] at hdigit
  simp only [isParam, Bool.and_eq_true, decide_eq_true_eq, UInt8.le_iff_toNat_le,
    UInt32.toNat_toUInt8]
  have h₁ : '0'.val.toNat = 48 := rfl
  have h₂ : '9'.val.toNat = 57 := rfl
  have h₃ : (0x30 : UInt8).toNat = 0x30 := rfl
  have h₄ : (0x3f : UInt8).toNat = 0x3f := rfl
  omega

/-- A control sequence that is no answer. -/
theorem advance_csi_eq_none {params : Bytes} {final : UInt8} (rest : Bytes)
    (hparams : ∀ b ∈ params, isParam b = true) (hparam : isParam final = false)
    (hintermediate : isIntermediate final = false) (hshape : ¬ Shape params [] final) :
    advance (0x1b :: 0x5b :: (params ++ final :: rest)) 0 = none := by
  obtain ⟨h₁, h₂⟩ := split_csi rest hparams (fun _ h ↦ absurd h List.not_mem_nil) hparam
    hintermediate
  rw [List.append_nil] at h₁ h₂
  refine Option.eq_none_iff_forall_ne_some.2 fun i' h ↦ ?_
  obtain ⟨final', hfinal', hshape', -⟩ := (advance_csi (List.drop_zero ..)).1 h
  simp only [h₁, h₂] at hfinal' hshape'
  obtain rfl : final = final' := by simpa using hfinal'
  exact hshape hshape'

theorem advance_eq_none_of_not_mem (hb : b ∉ introducers) :
    advance (0x1b :: b :: rest) 0 = none := by
  simp only [introducers, List.mem_cons, List.not_mem_nil, or_false, not_or] at hb
  refine Option.eq_none_iff_forall_ne_some.2 fun i' h ↦ ?_
  obtain ⟨hintro, -⟩ := (advance_string (List.drop_zero ..) hb.1).1 h
  tauto

/-- The last bytes of the control sequences without intermediates that are answers. -/
def finals : List UInt8 := [0x52, 0x6e, 0x63, 0x74, 0x75, 0x49, 0x4f]

theorem Shape.mem_finals (h : Shape params [] final) :
    final ∈ finals := by
  cases h <;> decide

/-- No answer starts where a key starts, but behind an ESC. -/
theorem advance_key {key : Key} (hkey : key ≠ .escape) (rest : Bytes) :
    advance (key.bytes ++ rest) 0 = none := by
  have hdecimal : ∀ n, ∀ b ∈ decimal n, isParam b = true := fun _ _ ↦ isParam_of_mem_decimal
  have harrow : ∀ d : Fin 4, isParam (arrowByte d) = false ∧
      isIntermediate (arrowByte d) = false ∧ arrowByte d ∉ finals := by decide
  cases key with
  | char b h =>
    refine advance_eq_none fun c t heq ↦ ?_
    obtain rfl := (List.cons.inj heq).1
    exact absurd h.1 (by decide)
  | escape => exact absurd rfl hkey
  | arrow d application =>
    obtain ⟨hp, hi, hf⟩ := harrow d
    cases application with
    | true => exact advance_eq_none_of_not_mem (by decide)
    | false =>
      exact @advance_csi_eq_none [] _ _ (fun _ h ↦ absurd h List.not_mem_nil) hp hi
        fun h ↦ hf h.mem_finals
  | modified d m =>
    obtain ⟨hp, hi, hf⟩ := harrow d
    have hparams : ∀ b ∈ [0x31, 0x3b] ++ decimal m, isParam b = true :=
      List.forall_mem_append.2
        ⟨List.forall_mem_cons.2 ⟨rfl, List.forall_mem_singleton.2 rfl⟩, hdecimal m⟩
    simpa [Key.bytes] using
      advance_csi_eq_none rest hparams hp hi fun h ↦ hf h.mem_finals
  | mouse button column row =>
    exact @advance_csi_eq_none [] _ _ (fun _ h ↦ absurd h List.not_mem_nil) (by decide)
      (by decide) fun h ↦ absurd h.mem_finals (by decide)
  | mouseSgr button column row release =>
    have hparams : ∀ b ∈ [0x3c] ++ decimal button ++ [0x3b] ++ decimal column ++ [0x3b] ++
        decimal row, isParam b = true := by
      simp only [List.forall_mem_append, List.forall_mem_singleton]
      exact ⟨⟨⟨⟨⟨rfl, hdecimal _⟩, rfl⟩, hdecimal _⟩, rfl⟩, hdecimal _⟩
    have hfinal : ∀ release : Bool, let final : UInt8 := if release then 0x6d else 0x4d
        isParam final = false ∧ isIntermediate final = false ∧ final ∉ finals := by decide
    obtain ⟨hp, hi, hf⟩ := hfinal release
    simpa [Key.bytes] using
      advance_csi_eq_none rest hparams hp hi fun h ↦ hf h.mem_finals

theorem Key.exists_cons (key : Key) : ∃ b rest, key.bytes = b :: rest ∧
    ((∃ h, key = .char b h) ∨ b = 0x1b) := by
  cases key with
  | char b h => exact ⟨b, [], rfl, .inl ⟨h, rfl⟩⟩
  | arrow d application => cases application <;> exact ⟨_, _, rfl, .inr rfl⟩
  | escape | modified | mouse | mouseSgr => exact ⟨_, _, rfl, .inr rfl⟩

/-- Keys are no answers, unless an ESC is followed by what answers have there. -/
theorem keys_not_mem {keys : List Key} (hne : keys ≠ [])
    (hkeys : ∀ b h rest, keys = .escape :: .char b h :: rest → b ∉ introducers) :
    keys.flatMap Key.bytes ∉ reports∗ := by
  obtain ⟨key, keys, rfl⟩ := List.exists_cons_of_ne_nil hne
  obtain ⟨b, t, hb, -⟩ := key.exists_cons
  refine findsWord_advance.not_mem_kstar (by simp [hb]) ?_
  by_cases hkey : key = .escape
  swap
  · exact advance_key hkey _
  subst hkey
  cases keys with
  | nil => exact advance_eq_none fun c t heq ↦ by cases heq
  | cons next keys =>
    obtain ⟨c, t, hc, hnext⟩ := next.exists_cons
    simp only [List.flatMap_cons, hc]
    refine advance_eq_none_of_not_mem ?_
    rcases hnext with ⟨h, rfl⟩ | rfl
    · exact hkeys c h keys rfl
    · decide

/-- **What is taken for answers**: concatenations of answers, one at least. With two of them their
concatenation is one, and keys behind one make it none, unless they are an ESC and a typed byte that
answers have there. Each turn of the loop goes on, and not past the end. -/
theorem isTerminalReport_iff_concatenation :
    (∀ data, isTerminalReport data = true ↔ data ∈ reports * reports∗) ∧
    (∀ a b, isTerminalReport a = true → isTerminalReport b = true →
      isTerminalReport (a ++ b) = true) ∧
    (∀ a (keys : List Key), isTerminalReport a = true → keys ≠ [] →
      (∀ b h rest, keys = .escape :: .char b h :: rest → b ∉ introducers) →
      isTerminalReport (a ++ keys.flatMap Key.bytes) = false) ∧
    (∀ data, isTerminalReport data = loop data 0 false ∧
      ∀ i i', i ≤ data.length → advance data i = some i' → i < i' ∧ i' ≤ data.length) := by
  have hmem := isTerminalReport_iff_mem
  refine ⟨hmem, fun a b ha hb ↦ ?_, fun a keys ha hne hkeys ↦ ?_, fun data ↦ ⟨isTerminalReport_eq _,
    fun i i' hi h ↦ ⟨(advance_bounds h).1, (advance_bounds h).2 hi⟩⟩⟩
  · rw [hmem] at ha hb ⊢
    have hb' := (isPrefixCode_reports.mem_mul_kstar_iff.1 hb).1
    exact (isPrefixCode_reports.append_mem_mul_kstar_iff ha hb').2 hb
  · rw [hmem] at ha
    have hbytes : keys.flatMap Key.bytes ≠ [] := by
      obtain ⟨key, keys, rfl⟩ := List.exists_cons_of_ne_nil hne
      obtain ⟨b, t, hb, -⟩ := key.exists_cons
      simp [hb]
    refine Bool.eq_false_iff.2 fun h ↦ keys_not_mem hne hkeys ?_
    rw [hmem, isPrefixCode_reports.append_mem_mul_kstar_iff ha hbytes] at h
    exact (isPrefixCode_reports.mem_mul_kstar_iff.1 h).2

/-- A status report and an arrow. -/
theorem isTerminalReport_concatenation_arrow :
    isTerminalReport [0x1b, 0x5b, 0x30, 0x6e] = true ∧
      isTerminalReport ([0x1b, 0x5b, 0x30, 0x6e] ++ [Key.arrow 0 false].flatMap Key.bytes) =
        false :=
  have h : isTerminalReport [0x1b, 0x5b, 0x30, 0x6e] = true := by decide +kernel
  ⟨h, isTerminalReport_iff_concatenation.2.2.1 _ _ h (List.cons_ne_nil _ _)
    fun _ _ _ heq ↦ by cases heq⟩

/-- A status report, and then ESC, `[` and `I` typed: what a terminal sends that gets the focus. -/
theorem not_keys_told_apart :
    ¬ ∀ (a : Bytes) (keys : List Key), isTerminalReport a = true → keys ≠ [] →
      isTerminalReport (a ++ keys.flatMap Key.bytes) = false := by
  intro h
  have := h [0x1b, 0x5b, 0x30, 0x6e] [.escape, .char 0x5b (by decide), .char 0x49 (by decide)]
    (by decide +kernel) (List.cons_ne_nil _ _)
  revert this
  decide +kernel

end Ember.Node.Term
