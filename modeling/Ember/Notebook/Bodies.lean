import Ember.Notebook.Cells

/-!
# Cell bodies through the editor

A body that is shown and saved again comes back exactly when its line ends are even: in the part that
is shown, either no line ends with `\r\n`, or all do, and with no second `\r`. Otherwise what comes
back comes apart from it at the first line end that is rewritten.

`viewToSource_of_evenEnds` and `apart_of_not_evenEnds` are the two directions. Neither depends on
the position of the cell.
-/

namespace Ember.Notebook

open Endings

/-! ### Taking a body apart -/

theorem splitTrailer_append (body : Text) :
    (splitTrailer body).1 ++ (splitTrailer body).2 = body := by
  induction body with
  | nil => rfl
  | cons c cs ih =>
    rw [splitTrailer]
    split
    · rfl
    · rw [List.cons_append, ih]

/-- The trailer of a body that ends with a line end ends with it. -/
theorem closed_splitTrailer {body : Text} (h : body.getLast? = some '\n') :
    (splitTrailer body).2.getLast? = some '\n' := by
  induction body with
  | nil => cases h
  | cons c cs ih =>
    rw [splitTrailer]
    split
    · exact h
    · next hblank =>
      cases cs with
      | nil =>
        obtain rfl : c = '\n' := by simpa using h
        exact absurd rfl hblank
      | cons d cs => exact ih (by rwa [List.getLast?_cons_cons] at h)

theorem restore_display (main : Text) : (detectEol main).restore (display main) = main := by
  unfold display
  cases heol : detectEol main with
  | lf => rfl
  | crlf =>
    have hcount : main.count '\n' = pairs '\r' '\n' main := by
      unfold detectEol at heol
      split at heol
      · next h => exact h.2
      · cases heol
    exact divide_unite (by decide) hcount

/-- A line end where the other text has none comes apart, however the line ends are saved. -/
theorem apart_restore (eol : Eol) (p s t : Text) :
    Apart (eol.restore (p ++ '\n' :: s)) (eol.restore (p ++ '\r' :: '\n' :: t)) := by
  cases eol with
  | lf => exact ⟨p, '\n', '\r', s, '\n' :: t, by decide, rfl, rfl⟩
  | crlf => exact apart_divide (by decide) p s t

/-! ### The Markdown call -/

theorem takeQuote_prefix {t quote : Text} (h : takeQuote t = some quote) :
    quote <+: t ∧ (quote = doubleQuotes ∨ quote = singleQuotes) := by
  unfold takeQuote at h
  split at h
  · next hpre => exact Option.some.inj h ▸ ⟨hpre, .inl rfl⟩
  · split at h
    · next hpre => exact Option.some.inj h ▸ ⟨hpre, .inr rfl⟩
    · cases h

theorem takeLetter_prefix (t : Text) : takeLetter t <+: t := by
  unfold takeLetter
  split
  · split
    · exact ⟨_, rfl⟩
    · exact List.nil_prefix
  · exact List.nil_prefix

theorem takeLineEnd_prefix (t : Text) : takeLineEnd t <+: t := by
  unfold takeLineEnd
  split
  · split
    · exact ⟨_, rfl⟩
    · exact List.nil_prefix
  · exact List.nil_prefix

theorem not_mem_takeLetter (t : Text) : '\'' ∉ takeLetter t := by
  unfold takeLetter
  split
  · split
    · next h =>
      intro hmem
      obtain rfl := List.mem_singleton.1 hmem
      exact absurd h (by decide)
    · exact List.not_mem_nil
  · exact List.not_mem_nil

theorem not_mem_takeLineEnd (t : Text) : '\'' ∉ takeLineEnd t := by
  unfold takeLineEnd
  split
  · split
    · next h =>
      intro hmem
      obtain rfl := List.mem_singleton.1 hmem
      exact absurd h (by decide)
    · exact List.not_mem_nil
  · exact List.not_mem_nil

theorem not_mem_takeWhile_isSpace (t : Text) : '\'' ∉ t.takeWhile isSpace := fun hmem ↦ by
  have : isSpace '\'' = true := List.all_eq_true.1 List.all_takeWhile _ hmem
  exact absurd this (by decide)

/-- One more part of a match. -/
theorem prefix_of_append_drop {p q t : Text} (h : p <+: t) (h' : q <+: t.drop p.length) : p ++ q <+: t := by
  obtain ⟨u, rfl⟩ := h
  rw [List.drop_left] at h'
  exact (List.prefix_append_right_inj p).2 h'

/-- What `MD_OPEN` matches is a beginning of the code, and shows which quote it is. -/
theorem matchOpen_spec {code opening quote : Text} (h : matchOpen code = some (opening, quote)) :
    opening <+: code ∧
      (quote = singleQuotes ∧ singleQuotes <:+: opening ∨
        quote = doubleQuotes ∧ ¬ singleQuotes <:+: opening) := by
  unfold matchOpen at h
  split at h
  case isFalse => cases h
  next hcall =>
  simp only at h
  split at h
  case h_2 => cases h
  next q hq =>
  obtain ⟨rfl, rfl⟩ := Prod.mk.inj (Option.some.inj h)
  obtain ⟨hqpre, hqeq⟩ := takeQuote_prefix hq
  constructor
  · refine prefix_of_append_drop (prefix_of_append_drop (prefix_of_append_drop (prefix_of_append_drop hcall
      (List.takeWhile_prefix isSpace)) ?_) ?_) ?_
    · rw [List.length_append, ← List.drop_drop]
      exact takeLetter_prefix _
    · simp only [List.length_append, ← List.drop_drop]
      exact hqpre
    · simp only [List.length_append, ← List.drop_drop]
      exact takeLineEnd_prefix _
  · rcases hqeq with rfl | rfl
    · refine .inr ⟨rfl, fun hinf ↦ ?_⟩
      have hmem := hinf.subset (show '\'' ∈ singleQuotes by decide)
      simp only [List.mem_append] at hmem
      rcases hmem with (((hmem | hmem) | hmem) | hmem) | hmem
      · exact absurd hmem (by decide)
      · exact not_mem_takeWhile_isSpace _ hmem
      · exact not_mem_takeLetter _ hmem
      · exact absurd hmem (by decide)
      · exact not_mem_takeLineEnd _ hmem
    · exact .inl ⟨rfl, ⟨_, _, rfl⟩⟩

variable {un : Unwrapped}

/-- A Markdown cell is put together from its parts, and its text cannot end the call early. -/
theorem unwrapMarkdown_spec {code : Text} (h : unwrapMarkdown code = some un) :
    ∃ quote, code = un.md.opening ++ un.text ++ un.md.closing ∧
      quote = (if singleQuotes <:+: un.md.opening then singleQuotes else doubleQuotes) ∧
      ¬ quote <:+: un.text ∧ ¬ ['\\'] <:+ un.text := by
  unfold unwrapMarkdown at h
  split at h
  · cases h
  next opening quote hopen =>
  obtain ⟨hpre, hquote⟩ := matchOpen_spec hopen
  simp only at h
  split at h
  · cases h
  next close hclose =>
  split at h
  · cases h
  next hnot =>
  split at h
  · cases h
  next hback =>
  obtain rfl := Option.some.inj h
  obtain ⟨rest, rfl⟩ := hpre
  rw [List.drop_left] at hnot hback ⊢
  refine ⟨quote, ?_, ?_, fun hinf ↦ hnot (.inr hinf), hback⟩
  · rw [List.append_assoc, List.take_append_drop]
  · rcases hquote with ⟨rfl, hinf⟩ | ⟨rfl, hinf⟩
    · rw [if_pos hinf]
    · rw [if_neg hinf]

/-- A text that has no quote and no backslash at its end is wrapped as it is. -/
theorem wrapMarkdown_unwrapped {code : Text} (h : unwrapMarkdown code = some un) :
    wrapMarkdown un.md un.text = code := by
  obtain ⟨quote, rfl, hquote, hno, hback⟩ := unwrapMarkdown_spec h
  have hesc : ∀ r, replaceAll quote r un.text = un.text := fun r ↦ replaceAll_of_not_infix r hno
  simp only [wrapMarkdown, ← hquote, hesc]
  rw [if_neg fun hb ↦ hback hb.1, List.append_nil]

theorem quote_ne_nil {opening quote : Text}
    (h : quote = if singleQuotes <:+: opening then singleQuotes else doubleQuotes) :
    quote ≠ [] ∧ '\n' ∉ quote := by
  subst h
  split <;> exact ⟨by decide, by decide⟩

/-- A rewritten line end in the text of a Markdown cell is a rewritten line end in the code. -/
theorem wrapMarkdown_unite {code : Text} (h : unwrapMarkdown code = some un)
    (hcrlf : ['\r', '\n'] <:+: un.text) :
    ∃ p s t, wrapMarkdown un.md (unite '\r' '\n' un.text) = p ++ '\n' :: s ∧
      code = p ++ '\r' :: '\n' :: t := by
  obtain ⟨quote, hcode, hquote, hno, -⟩ := unwrapMarkdown_spec h
  obtain ⟨a, b, htext, hunite⟩ := exists_of_infix hcrlf
  obtain ⟨hne, hlf⟩ := quote_ne_nil hquote
  have hnoa : ¬ quote <:+: a := fun hinf ↦ hno (htext ▸ hinf.trans (List.prefix_append _ _).isInfix)
  simp only [wrapMarkdown, ← hquote, hunite, replaceAll_append_cons _ hne hlf hnoa]
  refine ⟨un.md.opening ++ a, _, b ++ un.md.closing,
    by simp only [List.append_assoc, List.cons_append]; rfl, ?_⟩
  rw [hcode, htext]
  simp

/-! ### Bodies -/

/-- The Markdown cell that a body of this type is shown as, if it is. -/
def unwrapped (type main : Text) : Option Unwrapped :=
  if type = markdown then unwrapMarkdown (display main) else none

/-- **Even line ends.** In a body without its trailing blank lines, either no line ends with `\r\n`,
or all do, and with no second `\r`; for a cell shown as Markdown, no line of the Markdown text, as
it is displayed, ends with `\r\n`. -/
def EvenEnds (type body : Text) : Prop :=
  let main := (splitTrailer body).1
  match unwrapped type main with
  | some un => ¬ ['\r', '\n'] <:+: un.text
  | none => ¬ ['\r', '\n'] <:+: main ∨
      main.count '\n' = pairs '\r' '\n' main ∧ ¬ ['\r', '\r', '\n'] <:+: main

/-- Even line ends are those that the editor does not rewrite. -/
theorem not_infix_display_iff (main : Text) : ¬ ['\r', '\n'] <:+: display main ↔
    ¬ ['\r', '\n'] <:+: main ∨
      main.count '\n' = pairs '\r' '\n' main ∧ ¬ ['\r', '\r', '\n'] <:+: main := by
  unfold display detectEol
  by_cases hinf : ['\r', '\n'] <:+: main
  · by_cases hcount : main.count '\n' = pairs '\r' '\n' main
    · simp [hinf, hcount, infix_unite_iff]
    · simp [hinf, hcount]
  · simp [hinf]

section Body

variable {type body : Text} (rest : Rest) (position : ℕ) (isLast : Bool)

theorem bodyToView_code (h : unwrapped type (splitTrailer body).1 = none) :
    viewToSource (bodyToView type body rest) position isLast =
      (detectEol (splitTrailer body).1).restore (unite '\r' '\n' (display (splitTrailer body).1)) ++
        (splitTrailer body).2 := by
  unfold unwrapped at h
  simp only [bodyToView, h, viewToSource, reduceCtorEq, and_false, if_false]
  rfl

theorem bodyToView_markup (h : unwrapped type (splitTrailer body).1 = some un) :
    viewToSource (bodyToView type body rest) position isLast =
      (detectEol (splitTrailer body).1).restore
        (wrapMarkdown un.md (unite '\r' '\n' un.text)) ++ (splitTrailer body).2 := by
  unfold unwrapped at h
  simp only [bodyToView, h, viewToSource, effectiveType]
  rfl

theorem unwrapMarkdown_of_unwrapped {main : Text} (h : unwrapped type main = some un) :
    unwrapMarkdown (display main) = some un := by
  unfold unwrapped at h
  split at h
  · exact h
  · cases h

/-- **A body with even line ends comes back.** -/
theorem viewToSource_of_evenEnds (h : EvenEnds type body) :
    viewToSource (bodyToView type body rest) position isLast = body := by
  unfold EvenEnds at h
  cases hun : unwrapped type (splitTrailer body).1 with
  | none =>
    simp only [hun] at h
    rw [bodyToView_code rest position isLast hun,
      unite_of_not_infix ((not_infix_display_iff _).2 h), restore_display, splitTrailer_append]
  | some un =>
    simp only [hun] at h
    rw [bodyToView_markup rest position isLast hun, unite_of_not_infix h,
      wrapMarkdown_unwrapped (unwrapMarkdown_of_unwrapped hun), restore_display,
      splitTrailer_append]

/-- **A body with uneven line ends is rewritten**, and the result comes apart from it. -/
theorem apart_of_not_evenEnds (h : ¬ EvenEnds type body) :
    Apart (viewToSource (bodyToView type body rest) position isLast) body := by
  unfold EvenEnds at h
  have happ : ∀ saved, Apart saved
      ((detectEol (splitTrailer body).1).restore (display (splitTrailer body).1)) →
        Apart (saved ++ (splitTrailer body).2) body := by
    intro saved hsaved
    have := hsaved.append (splitTrailer body).2 (splitTrailer body).2
    rwa [restore_display, splitTrailer_append] at this
  cases hun : unwrapped type (splitTrailer body).1 with
  | none =>
    simp only [hun] at h
    rw [bodyToView_code rest position isLast hun]
    obtain ⟨a, b, hab, hunite⟩ := exists_of_infix
      (not_not.1 fun hinf ↦ h ((not_infix_display_iff _).1 hinf))
    refine happ _ ?_
    rw [hunite, hab]
    exact apart_restore _ _ _ _
  | some un =>
    simp only [hun, not_not] at h
    rw [bodyToView_markup rest position isLast hun]
    obtain ⟨p, s, t, hwrap, hcode⟩ := wrapMarkdown_unite (unwrapMarkdown_of_unwrapped hun) h
    refine happ _ ?_
    rw [hwrap, hcode]
    exact apart_restore _ _ _ _

end Body

/-- A cell keeps its type, but for a preamble that is not the first. -/
theorem effectiveType_bodyToView (type body : Text) (rest : Rest) (position : ℕ) :
    effectiveType (bodyToView type body rest) position =
      if type = preamble ∧ position ≠ 0 then code else type := by
  unfold bodyToView
  by_cases htype : type = markdown
  · subst htype
    have hne : markdown ≠ preamble := by decide
    simp only [if_true, hne, false_and, if_false]
    split <;> simp [effectiveType, hne]
  · simp only [if_neg htype, effectiveType]
    by_cases hpre : type = preamble
    · by_cases hpos : position = 0 <;> simp [hpre, hpos]
    · simp [hpre]

/-- A preamble does not grow. -/
theorem length_viewToSource_le (body : Text) (rest : Rest) (position : ℕ) (isLast : Bool) :
    (viewToSource (bodyToView preamble body rest) position isLast).length ≤ body.length := by
  have hun : unwrapped preamble (splitTrailer body).1 = none := if_neg (by decide)
  have hmain : ∀ (eol : Eol) (d : Text),
      (eol.restore (unite '\r' '\n' d)).length ≤ (eol.restore d).length := by
    intro eol d
    cases eol with
    | lf => exact length_unite_le d
    | crlf =>
      show (divide _ _ _).length ≤ (divide _ _ _).length
      rw [length_divide, length_divide, count_unite (by decide)]
      have : (unite '\r' '\n' d).length ≤ d.length := length_unite_le d
      omega
  have hle := hmain (detectEol (splitTrailer body).1) (display (splitTrailer body).1)
  rw [restore_display] at hle
  have hbody := congrArg List.length (splitTrailer_append body)
  rw [List.length_append] at hbody
  rw [bodyToView_code rest position isLast hun, List.length_append]
  omega

/-- A preamble that ends with a line end does so when it is saved. -/
theorem closed_viewToSource {body : Text} (h : body.getLast? = some '\n') (rest : Rest)
    (position : ℕ) (isLast : Bool) :
    (viewToSource (bodyToView preamble body rest) position isLast).getLast? = some '\n' := by
  have hun : unwrapped preamble (splitTrailer body).1 = none := if_neg (by decide)
  rw [bodyToView_code rest position isLast hun, List.getLast?_append, closed_splitTrailer h,
    Option.some_or]

end Ember.Notebook
