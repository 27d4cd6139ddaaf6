import Ember.Notebook.Bodies

/-!
# Editing a Markdown cell

`wrapMarkdown` puts an edited text back into the call that `unwrapMarkdown` has taken away. The call
is the same when the cell is read again, and the text is the one that was written, with its closing
quotes escaped; and the literal of Python ends where the call does. Four kinds of texts break this.

## What is proved

* `staysMarkup_iff` — an edited Markdown cell stays what it is exactly if the text does not end with
  a backslash, has no quotes left that close it, does not begin with a line end that the opening of
  the call would take, and, where no line end stands before the closing quotes, ends neither with a
  line end nor with a quote.
* `not_staysMarkup` — a text that ends with a backslash, in the default call.
-/

namespace Ember.Notebook

open Endings

/-- The text with its closing quotes escaped. -/
def escape (md : MarkdownWrapper) (text : Text) : Text :=
  let quote := if singleQuotes <:+: md.opening then singleQuotes else doubleQuotes
  replaceAll quote (if quote = doubleQuotes then "\\\"\\\"\\\"".toList else "\\'\\'\\'".toList) text

/-- Where the literal that a text is in ends: with the first quotes that no backslash protects. -/
def literalEnd (quote : Text) : Bool → Text → Option ℕ
  | _, [] => none
  -- Whatever a backslash stands before is passed.
  | true, _ :: t => (literalEnd quote false t).map (1 + ·)
  | false, c :: t =>
    if quote <+: c :: t then some 0 else (literalEnd quote (c = '\\') t).map (1 + ·)

/-- A text in a literal ends with a quote character that no backslash protects. -/
def endsBare (quote : Char) : Bool → Text → Bool
  | _, [] => false
  | afterBackslash, c :: t =>
    if t = [] then !afterBackslash && c = quote
    else endsBare quote (!afterBackslash && c = '\\') t

/-- The literal of a call begins behind its opening quotes. -/
def MarkdownWrapper.literalStart (md : MarkdownWrapper) : ℕ :=
  md.opening.length - if md.opening.getLast? = some '\n' then 1 else 0

/-- **An edited cell stays a Markdown cell.** -/
structure StaysMarkup (md : MarkdownWrapper) (text : Text) : Prop where
  /-- It is read again as it was written, in the same call. -/
  returns : unwrapMarkdown (wrapMarkdown md text) = some ⟨md, escape md text⟩
  /-- Writing what was read changes nothing. -/
  again : wrapMarkdown md (escape md text) = wrapMarkdown md text
  /-- The literal ends at the closing quotes of the call. -/
  literal : literalEnd (if singleQuotes <:+: md.opening then singleQuotes else doubleQuotes) false
      ((wrapMarkdown md text).drop md.literalStart) =
    some ((wrapMarkdown md text).length - md.closing.length + (takeLineEnd md.closing).length -
      md.literalStart)

/-- A text that the call does not break. -/
structure Wraps (md : MarkdownWrapper) (text : Text) : Prop where
  backslash : ¬ ['\\'] <:+ escape md text
  quotes : ¬ (if singleQuotes <:+: md.opening then singleQuotes else doubleQuotes) <:+:
    escape md text
  lineStart : md.opening.getLast? ≠ some '\n' → ¬ ['\n'] <+: escape md text ++ md.closing
  lineEnd : ¬ ['\n'] <+: md.closing → ¬ ['\n'] <:+ escape md text ∧
    endsBare (if singleQuotes <:+: md.opening then '\'' else '"') false (escape md text) = false

/-! ### Calls -/

theorem takeQuote_append {quote : Text} (h : quote = doubleQuotes ∨ quote = singleQuotes)
    (t : Text) : takeQuote (quote ++ t) = some quote := by
  rcases h with rfl | rfl
  · rw [takeQuote, if_pos (List.prefix_append _ _)]
  · rw [takeQuote, if_neg, if_pos (List.prefix_append _ _)]
    rintro ⟨u, hu⟩
    simp [doubleQuotes, singleQuotes] at hu

/-- The parts of a `darkpyonix.markdown` call around a text. -/
structure Call where
  space : Text
  space_isSpace : ∀ c ∈ space, isSpace c = true
  letter : Text
  takeLetter_letter : takeLetter letter = letter
  quote : Char
  quote_eq : quote = '"' ∨ quote = '\''
  /-- A line end follows the opening quotes. -/
  opensLine : Bool
  /-- A line end stands before the closing quotes. -/
  closesLine : Bool
  tail : Text
  closesCall_tail : closesCall (tail.dropWhile isSpace) = true
  quote_notMem : quote ∉ tail

namespace Call

variable (call : Call)

/-- A line end, if there is one. -/
def lineEnd (b : Bool) : Text := if b then ['\n'] else []

/-- The quotes. -/
def quotes : Text := [call.quote, call.quote, call.quote]

/-- What stands before the opening quotes. -/
def head : Text := mdCall ++ call.space ++ call.letter

/-- The call as it is kept with the cell. -/
def md : MarkdownWrapper :=
  ⟨call.head ++ call.quotes ++ lineEnd call.opensLine,
    lineEnd call.closesLine ++ call.quotes ++ call.tail⟩

theorem opening_md (call : Call) :
    call.md.opening = call.head ++ call.quotes ++ lineEnd call.opensLine := rfl

theorem closing_md (call : Call) :
    call.md.closing = lineEnd call.closesLine ++ (call.quotes ++ call.tail) :=
  List.append_assoc _ _ _

variable {call} {c : Char}

theorem quotes_cases (call : Call) :
    call.quotes = doubleQuotes ∧ call.quote = '"' ∨
      call.quotes = singleQuotes ∧ call.quote = '\'' := by
  rw [quotes]
  rcases call.quote_eq with h | h <;> rw [h]
  · exact .inl ⟨rfl, rfl⟩
  · exact .inr ⟨rfl, rfl⟩

theorem takeQuote_quotes (call : Call) (t : Text) :
    takeQuote (call.quotes ++ t) = some call.quotes :=
  takeQuote_append (call.quotes_cases.imp And.left And.left) t

theorem quote_ne_lf (call : Call) : call.quote ≠ '\n' := by
  rcases call.quote_eq with h | h <;> rw [h] <;> decide

theorem quote_ne_backslash (call : Call) : call.quote ≠ '\\' := by
  rcases call.quote_eq with h | h <;> rw [h] <;> decide

theorem takeLineEnd_cons (hc : c ≠ '\n') (t : Text) : takeLineEnd (c :: t) = [] := by
  rw [takeLineEnd, if_neg hc]

/-- What `MD_OPEN` takes of a text that begins with the call. -/
theorem matchOpen_head (call : Call) (t : Text) :
    matchOpen (call.head ++ call.quotes ++ t) =
      some (call.head ++ call.quotes ++ takeLineEnd t, call.quotes) := by
  have hsplit : call.head ++ call.quotes ++ t =
      mdCall ++ (call.space ++ (call.letter ++ (call.quotes ++ t))) := by
    simp only [head, List.append_assoc]
  -- Neither the letter nor the quote is a blank.
  have hspace : (call.space ++ (call.letter ++ (call.quotes ++ t))).takeWhile isSpace =
      call.space := by
    rw [List.takeWhile_append_of_pos call.space_isSpace]
    have hnone : (call.letter ++ (call.quotes ++ t)).takeWhile isSpace = [] := by
      have hletter := call.takeLetter_letter
      cases hl : call.letter with
      | nil =>
        rcases call.quote_eq with h | h <;> rw [quotes, h] <;> rfl
      | cons l ls =>
        rw [hl, takeLetter] at hletter
        split at hletter
        case isTrue hl' => rcases hl' with rfl | rfl | rfl | rfl <;> rfl
        · cases hletter
    rw [hnone, List.append_nil]
  have hletter : takeLetter (call.letter ++ (call.quotes ++ t)) = call.letter := by
    have hletter := call.takeLetter_letter
    cases hl : call.letter with
    | nil => rcases call.quote_eq with h | h <;> rw [quotes, h] <;> rfl
    | cons l ls =>
      rw [hl, takeLetter] at hletter
      split at hletter
      case isTrue hl' =>
        obtain rfl : [] = ls := (List.cons.inj hletter).2
        rw [List.singleton_append, takeLetter, if_pos hl']
      · cases hletter
  rw [matchOpen, hsplit, if_pos (List.prefix_append _ _)]
  simp only [List.drop_left, hspace, hletter, takeQuote_quotes]
  simp only [head, List.append_assoc]

/-- The quote of a call shows in what stands before the text. -/
theorem infix_opening_iff (call : Call) :
    singleQuotes <:+: call.md.opening ↔ call.quotes = singleQuotes := by
  have hspec := matchOpen_spec (call.matchOpen_head (lineEnd call.opensLine))
  have hlineEnd : takeLineEnd (lineEnd call.opensLine) = lineEnd call.opensLine := by
    cases call.opensLine <;> rfl
  rw [hlineEnd] at hspec
  rcases hspec.2 with ⟨hquote, hinf⟩ | ⟨hquote, hinf⟩
  · exact iff_of_true hinf hquote
  · refine iff_of_false hinf fun h ↦ ?_
    rw [h] at hquote
    exact absurd hquote (by decide)

theorem quotes_eq (call : Call) :
    (if singleQuotes <:+: call.md.opening then singleQuotes else doubleQuotes) = call.quotes := by
  rcases call.quotes_cases with ⟨h, -⟩ | ⟨h, -⟩
  · rw [if_neg, h]
    rw [infix_opening_iff, h]
    decide
  · rw [if_pos (call.infix_opening_iff.2 h), h]

theorem quote_eq_ite (call : Call) :
    (if singleQuotes <:+: call.md.opening then '\'' else '"') = call.quote := by
  rcases call.quotes_cases with ⟨h, hquote⟩ | ⟨h, hquote⟩
  · rw [if_neg, hquote]
    rw [infix_opening_iff, h]
    decide
  · rw [if_pos (call.infix_opening_iff.2 h), hquote]

/-! ### Every wrapper is a call -/

end Call

theorem takeLetter_idem (t : Text) : takeLetter (takeLetter t) = takeLetter t := by
  cases t with
  | nil => rfl
  | cons c t =>
    rw [takeLetter]
    split
    case isTrue h => rw [takeLetter, if_pos h]
    · rfl

/-- Where the last occurrence is. -/
theorem drop_lastIndexOf {q t : Text} {i : ℕ} (h : lastIndexOf q t = some i) : q <+: t.drop i := by
  induction t generalizing i with
  | nil => cases h
  | cons c t ih =>
    rw [lastIndexOf] at h
    split at h
    case h_1 j hj =>
      obtain rfl := Option.some.inj h
      exact ih hj
    · split at h
      case isTrue hpre =>
        obtain rfl := Option.some.inj h
        exact hpre
      · cases h

/-- What closes a call has no quotes. -/
theorem notMem_of_closesCall {t : Text} (h : closesCall t = true) : '"' ∉ t ∧ '\'' ∉ t := by
  have hblank : ∀ c ∈ t.reverse.takeWhile isBlank, c ≠ '"' ∧ c ≠ '\'' := fun c hc ↦ by
    have hc : isBlank c = true := List.all_eq_true.1 List.all_takeWhile c hc
    constructor <;> rintro rfl <;> exact absurd hc (by decide)
  have hrest : ∀ c ∈ t.reverse.dropWhile isBlank, c ≠ '"' ∧ c ≠ '\'' := by
    unfold closesCall at h
    split at h
    case h_1 hdrop =>
      intro c hc
      rw [hdrop] at hc
      obtain rfl := List.mem_singleton.1 hc
      decide
    case h_2 before _ hdrop =>
      intro c hc
      rw [hdrop] at hc
      rcases List.mem_cons.1 hc with rfl | hc
      · decide
      · simpa using List.all_eq_true.1 h c hc
    · cases h
  have hall : ∀ c ∈ t, c ≠ '"' ∧ c ≠ '\'' := fun c hc ↦ by
    rw [← List.mem_reverse, ← List.takeWhile_append_dropWhile (p := isBlank) (l := t.reverse)] at hc
    exact (List.mem_append.1 hc).elim (hblank c) (hrest c)
  exact ⟨fun hc ↦ (hall _ hc).1 rfl, fun hc ↦ (hall _ hc).2 rfl⟩

theorem takeLineEnd_eq (t : Text) : ∃ b, takeLineEnd t = Call.lineEnd b := by
  rw [takeLineEnd.eq_def]
  split
  · split
    case isTrue h => exact ⟨true, by rw [h]; rfl⟩
    · exact ⟨false, rfl⟩
  · exact ⟨false, rfl⟩

variable {code : Text}

/-- The parts of what `MD_OPEN` matches. -/
theorem matchOpen_parts {opening quote : Text} (h : matchOpen code = some (opening, quote)) :
    ∃ space letter b, (∀ c ∈ space, isSpace c = true) ∧ takeLetter letter = letter ∧
      opening = mdCall ++ space ++ letter ++ quote ++ Call.lineEnd b ∧
      (quote = doubleQuotes ∨ quote = singleQuotes) := by
  unfold matchOpen at h
  split at h
  case isFalse => cases h
  simp only at h
  generalize code.drop mdCall.length = t₁ at h
  generalize t₁.drop (t₁.takeWhile isSpace).length = t₂ at h
  generalize t₂.drop (takeLetter t₂).length = t₃ at h
  split at h
  case h_2 => cases h
  case h_1 q hq =>
  obtain ⟨rfl, rfl⟩ := Prod.mk.inj (Option.some.inj h)
  obtain ⟨b, hb⟩ := takeLineEnd_eq (t₃.drop q.length)
  exact ⟨t₁.takeWhile isSpace, takeLetter t₂, b,
    fun c hc ↦ List.all_eq_true.1 List.all_takeWhile c hc, takeLetter_idem t₂, by rw [hb],
    And.right ( takeQuote_prefix hq)⟩

/-- What stands behind the text, when the last quotes are where they are. -/
theorem drop_bodyEnd {rest quote tail : Text} {close : ℕ} {c : Char} {q : Text} (hc : c ≠ '\n')
    (hquote : quote = c :: q) (htail : rest.drop close = quote ++ tail) :
    ∃ b, rest.drop (bodyEnd rest close) = Call.lineEnd b ++ quote ++ tail ∧
      takeLineEnd (rest.drop (bodyEnd rest close)) = Call.lineEnd b := by
  rw [bodyEnd]
  split
  case isTrue hlf =>
    obtain ⟨hlt, hget⟩ := List.getElem?_eq_some_iff.1 hlf.2
    have hdrop : rest.drop (close - 1) = '\n' :: (quote ++ tail) := by
      rw [List.drop_eq_getElem_cons hlt, hget, Nat.sub_add_cancel hlf.1, htail]
    exact ⟨true, hdrop, by rw [hdrop]; rfl⟩
  · refine ⟨false, htail, ?_⟩
    rw [htail, hquote, List.cons_append, takeLineEnd, if_neg hc]
    rfl

variable {un : Unwrapped}

/-- **Every wrapper that was taken away from a cell is a call.** -/
theorem exists_call (h : unwrapMarkdown code = some un) :
    ∃ call : Call, call.md = un.md := by
  unfold unwrapMarkdown at h
  split at h
  · cases h
  case h_2 opening q hopen =>
  simp only at h
  split at h
  · cases h
  case h_2 close hclose =>
  split at h
  · cases h
  case isFalse hnot =>
  split at h
  · cases h
  obtain rfl := Option.some.inj h
  push Not at hnot
  obtain ⟨tail, htail⟩ := drop_lastIndexOf hclose
  obtain ⟨space, letter, opensLine, hspace, hletter, rfl, hq⟩ := matchOpen_parts hopen
  generalize code.drop _ = rest at htail hnot ⊢
  obtain ⟨quote, hquote, hqeq⟩ : ∃ quote : Char, q = [quote, quote, quote] ∧
      (quote = '"' ∨ quote = '\'') := by
    rcases hq with rfl | rfl
    · exact ⟨'"', rfl, .inl rfl⟩
    · exact ⟨'\'', rfl, .inr rfl⟩
  have hne : quote ≠ '\n' := by rcases hqeq with rfl | rfl <;> decide
  obtain ⟨closesLine, hdrop, hline⟩ := drop_bodyEnd hne hquote htail.symm
  have hcloses : closesCall (tail.dropWhile isSpace) = true := by
    have hmatch := hnot.1
    rw [matchClose, hline, hdrop, List.append_assoc, List.drop_left] at hmatch
    simpa only [takeQuote_append hq, List.drop_left] using hmatch
  have hnotMem : quote ∉ tail := fun hmem ↦ by
    rw [← List.takeWhile_append_dropWhile (p := isSpace) (l := tail), List.mem_append] at hmem
    rcases hmem with hmem | hmem
    · have hspace : isSpace quote = true := List.all_eq_true.1 List.all_takeWhile _ hmem
      rcases hqeq with rfl | rfl <;> exact absurd hspace (by decide)
    · obtain ⟨hdouble, hsingle⟩ := notMem_of_closesCall hcloses
      rcases hqeq with rfl | rfl
      · exact hdouble hmem
      · exact hsingle hmem
  refine ⟨⟨space, hspace, letter, hletter, quote, hqeq, opensLine, closesLine, tail, hcloses,
    hnotMem⟩, ?_⟩
  simp only [Call.md, Call.head, Call.quotes, ← hquote, hdrop]

/-- The call of a new Markdown cell. -/
def defaultCall : Call where
  space := []
  space_isSpace _ h := absurd h List.not_mem_nil
  letter := []
  takeLetter_letter := rfl
  quote := '"'
  quote_eq := .inl rfl
  opensLine := true
  closesLine := true
  tail := [')']
  closesCall_tail := by decide
  quote_notMem := by decide

theorem md_defaultCall : defaultCall.md = defaultMd := rfl

namespace Call

variable {call : Call} {x y e : Text}

/-! ### Reading a call again -/

theorem lastIndexOf_append {q : Text} {i : ℕ} (h : lastIndexOf q y = some i) (x : Text) :
    lastIndexOf q (x ++ y) = some (x.length + i) := by
  induction x with
  | nil => rw [List.nil_append, h, List.length_nil, Nat.zero_add]
  | cons c x ih =>
    rw [List.cons_append, lastIndexOf, ih, List.length_cons]
    exact congrArg some (by omega)

/-- The last quotes are those that close the call. -/
theorem lastIndexOf_quotes (call : Call) :
    lastIndexOf call.quotes (call.quotes ++ call.tail) = some 0 := by
  have hmem : ∀ {t : Text}, call.quotes <+: t → ∃ u, t = call.quotes ++ u := fun ⟨u, hu⟩ ↦
    ⟨u, hu.symm⟩
  have htail : ∀ {t : Text}, call.quote ∉ t → lastIndexOf call.quotes t = none := by
    intro t ht
    induction t with
    | nil => rfl
    | cons d t ih =>
      rw [lastIndexOf, ih fun h ↦ ht (List.mem_cons_of_mem d h)]
      refine if_neg fun hpre ↦ ht ?_
      obtain ⟨u, hu⟩ := hmem hpre
      rw [hu, quotes]
      exact List.mem_cons_self
  -- A later occurrence would reach into what closes the call.
  have hone : ¬ call.quotes <+: call.quote :: call.tail := fun hpre ↦ by
    obtain ⟨u, hu⟩ := hmem hpre
    refine call.quote_notMem ?_
    rw [quotes] at hu
    rw [(List.cons.inj hu).2]
    exact List.mem_cons_self
  have htwo : ¬ call.quotes <+: call.quote :: call.quote :: call.tail := fun hpre ↦ by
    obtain ⟨u, hu⟩ := hmem hpre
    refine call.quote_notMem ?_
    rw [quotes] at hu
    rw [(List.cons.inj (List.cons.inj hu).2).2]
    exact List.mem_cons_self
  show lastIndexOf call.quotes (call.quote :: call.quote :: call.quote :: call.tail) = some 0
  rw [lastIndexOf, lastIndexOf, lastIndexOf, htail call.quote_notMem, if_neg hone]
  simp only
  rw [if_neg htwo]
  simp only
  exact if_pos (List.prefix_append call.quotes call.tail)

/-- Where the text in a call ends. -/
theorem lastIndexOf_closing (call : Call) (t : Text) :
    lastIndexOf call.quotes (t ++ call.md.closing) =
      some (t.length + (lineEnd call.closesLine).length) := by
  rw [closing_md, ← List.append_assoc, lastIndexOf_append call.lastIndexOf_quotes,
    List.length_append, Nat.add_zero]

theorem takeLineEnd_closing (call : Call) :
    takeLineEnd call.md.closing = lineEnd call.closesLine := by
  rw [closing_md]
  cases call.closesLine with
  | true => rfl
  | false => exact takeLineEnd_cons call.quote_ne_lf _

theorem matchClose_closing (call : Call) : matchClose call.md.closing = true := by
  rw [matchClose, takeLineEnd_closing, closing_md, List.drop_left]
  simp only [takeQuote_quotes, List.drop_left]
  exact call.closesCall_tail

/-- A text behind the opening is read as it is, unless the opening takes a line end of it. -/
theorem matchOpen_opening (call : Call) (t : Text) :
    matchOpen (call.md.opening ++ t) =
      some (call.md.opening ++ if call.opensLine = true then [] else takeLineEnd t,
        call.quotes) := by
  rw [opening_md, List.append_assoc, matchOpen_head]
  cases call.opensLine with
  | true => simp [lineEnd, takeLineEnd]
  | false => simp [lineEnd]

theorem getLast?_opening (call : Call) :
    call.md.opening.getLast? = some '\n' ↔ call.opensLine = true := by
  rw [opening_md]
  cases call.opensLine with
  | true => exact iff_of_true (by rw [lineEnd, if_pos rfl, List.getLast?_concat]) rfl
  | false =>
    refine iff_of_false (fun h ↦ call.quote_ne_lf ?_) Bool.false_ne_true
    have hlast : (call.head ++ call.quotes ++ lineEnd false).getLast? = some call.quote := by
      rw [lineEnd, if_neg Bool.false_ne_true, List.append_nil, quotes, List.getLast?_append]
      rfl
    exact Option.some.inj (hlast.symm.trans h)

/-- What `unwrapMarkdown` makes of a text in a call, if the opening is read as it was. -/
theorem unwrapMarkdown_wrapped (hopen : matchOpen (call.md.opening ++ (e ++ call.md.closing)) =
      some (call.md.opening, call.quotes)) :
    unwrapMarkdown (call.md.opening ++ (e ++ call.md.closing)) =
      if ¬ matchClose ((e ++ call.md.closing).drop (bodyEnd (e ++ call.md.closing)
            (e.length + (lineEnd call.closesLine).length))) ∨
          call.quotes <:+: (e ++ call.md.closing).take (bodyEnd (e ++ call.md.closing)
            (e.length + (lineEnd call.closesLine).length)) then none
      else if ['\\'] <:+ (e ++ call.md.closing).take (bodyEnd (e ++ call.md.closing)
            (e.length + (lineEnd call.closesLine).length)) then none
      else some ⟨⟨call.md.opening, (e ++ call.md.closing).drop (bodyEnd (e ++ call.md.closing)
          (e.length + (lineEnd call.closesLine).length))⟩,
        (e ++ call.md.closing).take (bodyEnd (e ++ call.md.closing)
          (e.length + (lineEnd call.closesLine).length))⟩ := by
  simp only [unwrapMarkdown, hopen, List.drop_left, lastIndexOf_closing]

/-- The text ends where it ended, unless a line end of it is taken for the one before the quotes. -/
theorem bodyEnd_closing (h : call.closesLine = true ∨ ¬ ['\n'] <:+ e) :
    bodyEnd (e ++ call.md.closing) (e.length + (lineEnd call.closesLine).length) = e.length := by
  rw [bodyEnd, closing_md]
  cases hline : call.closesLine with
  | true =>
    rw [if_pos]
    · rfl
    · refine ⟨Nat.succ_pos _, ?_⟩
      rw [show e.length + (lineEnd true).length - 1 = e.length from rfl,
        List.getElem?_append_right le_rfl, Nat.sub_self]
      rfl
  | false =>
    have hnot := h.resolve_left (by rw [hline]; exact Bool.false_ne_true)
    rw [if_neg]
    · rfl
    · rintro ⟨hpos, hget⟩
      rw [lineEnd, if_neg Bool.false_ne_true, List.length_nil, Nat.add_zero] at hpos hget
      rw [List.getElem?_append_left (Nat.sub_lt hpos Nat.one_pos)] at hget
      rw [← List.getLast?_eq_getElem?] at hget
      obtain ⟨init, hinit⟩ := List.getLast?_eq_some_iff.1 hget
      exact hnot ⟨init, hinit.symm⟩

/-- **A text that is put into a call as it is** is read again. -/
theorem unwrapMarkdown_eq (hback : ¬ ['\\'] <:+ e) (hquotes : ¬ call.quotes <:+: e)
    (hstart : call.opensLine = true ∨ ¬ ['\n'] <+: e ++ call.md.closing)
    (hend : call.closesLine = true ∨ ¬ ['\n'] <:+ e) :
    unwrapMarkdown (call.md.opening ++ (e ++ call.md.closing)) = some ⟨call.md, e⟩ := by
  have hopen : matchOpen (call.md.opening ++ (e ++ call.md.closing)) =
      some (call.md.opening, call.quotes) := by
    rw [matchOpen_opening]
    rcases hstart with h | h
    · rw [if_pos h, List.append_nil]
    · have hnone : takeLineEnd (e ++ call.md.closing) = [] := by
        generalize e ++ call.md.closing = t at h
        cases t with
        | nil => rfl
        | cons c t =>
          exact takeLineEnd_cons (fun hc ↦ h ⟨t, by rw [hc]; rfl⟩) t
      rw [hnone, ite_self, List.append_nil]
  rw [unwrapMarkdown_wrapped hopen, bodyEnd_closing hend, List.drop_left, List.take_left,
    if_neg, if_neg hback]
  rintro (h | h)
  · exact h call.matchClose_closing
  · exact hquotes h

/-! ### The literal -/

theorem literalEnd_quotes (call : Call) (t : Text) :
    literalEnd call.quotes false (call.quotes ++ t) = some 0 :=
  if_pos (List.prefix_append call.quotes t)

theorem literalEnd_closing (call : Call) :
    literalEnd call.quotes false call.md.closing = some (lineEnd call.closesLine).length := by
  rw [closing_md]
  cases call.closesLine with
  | false => exact call.literalEnd_quotes call.tail
  | true =>
    have hpre : ¬ call.quotes <+: '\n' :: (call.quotes ++ call.tail) := fun ⟨u, hu⟩ ↦
      call.quote_ne_lf (List.cons.inj hu).1
    show literalEnd call.quotes false ('\n' :: (call.quotes ++ call.tail)) = some 1
    rw [literalEnd, if_neg hpre]
    show (literalEnd call.quotes false (call.quotes ++ call.tail)).map (1 + ·) = some 1
    rw [call.literalEnd_quotes]
    rfl

theorem closesLine_eq_false {t : Text} (h : call.quote :: t = call.md.closing) :
    call.closesLine = false := by
  rw [closing_md] at h
  cases hline : call.closesLine with
  | false => rfl
  | true =>
    rw [hline] at h
    exact absurd (List.cons.inj h).1 call.quote_ne_lf

/-- What has no quotes inside, and does not end with a bare one where they follow, begins none. -/
theorem not_prefix_cons {c : Char} (hquotes : ¬ call.quotes <:+: c :: e)
    (hbare : call.closesLine = true ∨ endsBare call.quote false (c :: e) = false) :
    ¬ call.quotes <+: c :: (e ++ call.md.closing) := by
  rintro ⟨u, hu⟩
  replace hu : call.quote :: call.quote :: call.quote :: u = c :: (e ++ call.md.closing) := hu
  obtain ⟨hc, htwo⟩ := List.cons.inj hu
  clear hu
  have hline : call.closesLine = false → endsBare call.quote false (c :: e) = false := fun h ↦
    hbare.resolve_left (by rw [h]; exact Bool.false_ne_true)
  subst hc
  cases e with
  | nil =>
    have hfalse := hline (closesLine_eq_false htwo)
    simp [endsBare] at hfalse
  | cons d e =>
    obtain ⟨hd, hone⟩ := List.cons.inj htwo
    clear htwo
    cases e with
    | nil =>
      have hfalse := hline (closesLine_eq_false hone)
      simp [endsBare, ← hd, call.quote_ne_backslash] at hfalse
    | cons d' e =>
      have hd' : call.quote = d' := (List.cons.inj hone).1
      rw [← hd, ← hd'] at hquotes
      exact hquotes ⟨[], e, rfl⟩

/-- **The literal ends at the closing quotes** behind a text without quotes. -/
theorem literalEnd_eq {skip : Bool} (hskip : skip = true → e ≠ []) (hback : ¬ ['\\'] <:+ e)
    (hquotes : ¬ call.quotes <:+: e)
    (hbare : call.closesLine = true ∨ endsBare call.quote skip e = false) :
    literalEnd call.quotes skip (e ++ call.md.closing) =
      some (e.length + (lineEnd call.closesLine).length) := by
  induction e generalizing skip with
  | nil =>
    have hno : skip = false := Bool.eq_false_iff.2 fun h ↦ hskip h rfl
    rw [hno, List.nil_append, literalEnd_closing, List.length_nil, Nat.zero_add]
  | cons c e ih =>
    have hback' : ¬ ['\\'] <:+ e := fun h ↦ hback (h.trans (List.suffix_cons c e))
    have hquotes' : ¬ call.quotes <:+: e := fun h ↦ hquotes (h.trans (List.suffix_cons c e).isInfix)
    have hlength : ∀ n, (some (e.length + n)).map (1 + ·) = some ((c :: e).length + n) := fun n ↦ by
      rw [Option.map_some, List.length_cons]
      exact congrArg some (by omega)
    have hbare' : call.closesLine = true ∨ e = [] ∨
        endsBare call.quote (!skip && decide (c = '\\')) e = false := by
      refine hbare.imp_right fun h ↦ ?_
      by_cases he : e = []
      · exact .inl he
      · rw [endsBare, if_neg he] at h
        exact .inr h
    have hnil : call.closesLine = true ∨
        endsBare call.quote (!skip && decide (c = '\\')) e = false := by
      rcases hbare' with h | rfl | h
      · exact .inl h
      · exact .inr rfl
      · exact .inr h
    cases skip with
    | true =>
      simp only [Bool.not_true, Bool.false_and] at hnil
      rw [List.cons_append, literalEnd, ih (fun h ↦ by cases h) hback' hquotes' hnil, hlength]
    | false =>
      simp only [Bool.not_false, Bool.true_and] at hnil
      have hnext : decide (c = '\\') = true → e ≠ [] := fun hc he ↦
        hback (by rw [of_decide_eq_true hc, he])
      rw [List.cons_append, literalEnd, if_neg (not_prefix_cons hquotes hbare),
        ih hnext hback' hquotes' hnil, hlength]

/-- **The literal ends too early** where a bare quote stands before the closing ones. -/
theorem literalEnd_lt {skip : Bool} (hline : call.closesLine = false)
    (hbare : endsBare call.quote skip e = true) :
    ∃ i < e.length, literalEnd call.quotes skip (e ++ call.md.closing) = some i := by
  induction e generalizing skip with
  | nil => cases hbare
  | cons c e ih =>
    rw [endsBare] at hbare
    have hmap : ∀ {b : Bool}, endsBare call.quote b e = true →
        ∃ i < (c :: e).length, (literalEnd call.quotes b (e ++ call.md.closing)).map (1 + ·) =
          some i := fun hb ↦ by
      obtain ⟨i, hi, heq⟩ := ih hb
      exact ⟨1 + i, by rw [List.length_cons]; omega, by rw [heq, Option.map_some]⟩
    split at hbare
    case isTrue he =>
      subst he
      obtain ⟨hskip, hc⟩ : skip = false ∧ c = call.quote := by simpa using hbare
      subst hc hskip
      refine ⟨0, Nat.one_pos, ?_⟩
      rw [closing_md, hline]
      exact if_pos ⟨call.quote :: call.tail, rfl⟩
    case isFalse he =>
      cases skip with rw [List.cons_append, literalEnd]
      | true =>
        exact hmap hbare
      | false =>
        split
        · exact ⟨0, Nat.succ_pos _, rfl⟩
        · exact hmap hbare

/-- A line end before closing quotes without one goes to the closing. -/
theorem text_ne (call : Call) (hline : call.closesLine = false) (hend : ['\n'] <:+ e) :
    (e ++ call.md.closing).take (bodyEnd (e ++ call.md.closing)
      (e.length + (lineEnd call.closesLine).length)) ≠ e := by
  obtain ⟨init, rfl⟩ := hend
  have hlength : (init ++ ['\n']).length + (lineEnd call.closesLine).length = init.length + 1 := by
    rw [hline, List.length_append]
    rfl
  have hbody : bodyEnd (init ++ ['\n'] ++ call.md.closing) (init.length + 1) = init.length := by
    rw [bodyEnd, if_pos]
    · rfl
    · refine ⟨Nat.succ_pos _, ?_⟩
      rw [Nat.add_sub_cancel, List.append_assoc, List.getElem?_append_right le_rfl, Nat.sub_self]
      rfl
  intro heq
  have hshort := congrArg List.length heq
  rw [hlength, hbody, List.append_assoc, List.take_left, List.length_append] at hshort
  exact absurd hshort (Nat.lt_succ_self _).ne

/-! ### The opening -/

theorem literalEnd_opening (call : Call) (t : Text) :
    literalEnd call.quotes false (lineEnd call.opensLine ++ t) =
      (literalEnd call.quotes false t).map ((lineEnd call.opensLine).length + ·) := by
  cases call.opensLine with
  | false =>
    show literalEnd call.quotes false t = (literalEnd call.quotes false t).map (0 + ·)
    simp
  | true =>
    have hpre : ¬ call.quotes <+: '\n' :: t := fun ⟨u, hu⟩ ↦ call.quote_ne_lf (List.cons.inj hu).1
    show literalEnd call.quotes false ('\n' :: t) = _
    rw [literalEnd, if_neg hpre]
    rfl

theorem drop_literalStart (call : Call) (t : Text) :
    (call.md.opening ++ t).drop call.md.literalStart = lineEnd call.opensLine ++ t := by
  have hstart : call.md.literalStart = (call.head ++ call.quotes).length := by
    rw [MarkdownWrapper.literalStart]
    simp only [getLast?_opening]
    rw [opening_md, List.length_append]
    cases call.opensLine with
    | true | false => rfl
  rw [hstart, opening_md, List.append_assoc, List.drop_left]

theorem length_sub_literalStart (call : Call) (n : ℕ) :
    call.md.opening.length + n - call.md.literalStart = (lineEnd call.opensLine).length + n := by
  have hdrop := congrArg List.length (call.drop_literalStart (List.replicate n '\n'))
  simpa only [List.length_drop, List.length_append, List.length_replicate] using hdrop

/-- Where the literal is to end, counted from its beginning. -/
theorem length_literal (call : Call) (e : Text) :
    (call.md.opening ++ (e ++ call.md.closing)).length - call.md.closing.length +
        (takeLineEnd call.md.closing).length - call.md.literalStart =
      (lineEnd call.opensLine).length + (e.length + (lineEnd call.closesLine).length) := by
  have hlength : (call.md.opening ++ (e ++ call.md.closing)).length - call.md.closing.length =
      call.md.opening.length + e.length := by
    simp only [List.length_append]
    omega
  rw [hlength, Nat.add_assoc, takeLineEnd_closing, length_sub_literalStart]

theorem not_prefix_closing (call : Call) :
    ¬ ['\n'] <+: call.md.closing ↔ call.closesLine = false := by
  rw [closing_md]
  cases call.closesLine with
  | true => exact iff_of_false (fun h ↦ h (List.prefix_append _ _)) (by decide)
  | false => exact iff_of_true (fun ⟨u, hu⟩ ↦ call.quote_ne_lf (List.cons.inj hu).1.symm) rfl

end Call

/-- What is read again has the opening that is matched. -/
theorem matchOpen_of_unwrapMarkdown
    (h : unwrapMarkdown code = some un) : ∃ q, matchOpen code = some (un.md.opening, q) := by
  unfold unwrapMarkdown at h
  split at h
  · cases h
  case h_2 opening q hopen =>
  simp only at h
  split at h
  · cases h
  split at h
  · cases h
  split at h
  · cases h
  obtain rfl := Option.some.inj h
  exact ⟨q, hopen⟩

variable {text : Text}

theorem wrapMarkdown_eq {md : MarkdownWrapper} (hback : ¬ ['\\'] <:+ escape md text) :
    wrapMarkdown md text = md.opening ++ (escape md text ++ md.closing) := by
  show md.opening ++ escape md text ++
    (if ['\\'] <:+ escape md text ∧ ¬ ['\n'] <+: md.closing then [' '] else []) ++ md.closing = _
  rw [if_neg fun h ↦ hback h.1, List.append_nil, List.append_assoc]

theorem Call.staysMarkup {call : Call} (h : Wraps call.md text) :
    StaysMarkup call.md text := by
  have hstart : call.opensLine = true ∨ ¬ ['\n'] <+: escape call.md text ++ call.md.closing := by
    by_cases hopens : call.opensLine = true
    · exact .inl hopens
    · exact .inr (h.lineStart fun hlast ↦ hopens (call.getLast?_opening.1 hlast))
  have hlineEnd : call.closesLine = true ∨ ¬ ['\n'] <:+ escape call.md text ∧
      endsBare call.quote false (escape call.md text) = false := by
    cases hcloses : call.closesLine with
    | true => exact .inl rfl
    | false =>
      have hend := h.lineEnd (call.not_prefix_closing.2 hcloses)
      rw [call.quote_eq_ite] at hend
      exact .inr hend
  have hquotes : ¬ call.quotes <:+: escape call.md text := by
    rw [← call.quotes_eq]
    exact h.quotes
  have hreturns : unwrapMarkdown (wrapMarkdown call.md text) =
      some ⟨call.md, escape call.md text⟩ := by
    rw [wrapMarkdown_eq h.backslash]
    exact Call.unwrapMarkdown_eq h.backslash hquotes hstart (hlineEnd.imp_right And.left)
  refine ⟨hreturns, wrapMarkdown_unwrapped hreturns, ?_⟩
  rw [call.quotes_eq, wrapMarkdown_eq h.backslash, call.drop_literalStart, call.literalEnd_opening,
    Call.literalEnd_eq (fun h ↦ absurd h Bool.false_ne_true) h.backslash hquotes
      (hlineEnd.imp_right And.right), call.length_literal]
  rfl

/-- **What is no such text** does not stay what it is. -/
theorem Call.wraps {call : Call} (h : StaysMarkup call.md text) :
    Wraps call.md text := by
  obtain ⟨quote, -, hquote, hno, hback⟩ := unwrapMarkdown_spec h.returns
  rw [hquote] at hno
  have hreturns := h.returns
  have hliteral := h.literal
  rw [wrapMarkdown_eq hback] at hreturns hliteral
  rw [call.quotes_eq, call.drop_literalStart, call.literalEnd_opening] at hliteral
  obtain ⟨q, hopen⟩ := matchOpen_of_unwrapMarkdown hreturns
  have hmatch := call.matchOpen_opening (escape call.md text ++ call.md.closing)
  have hopening : call.md.opening = call.md.opening ++
      if call.opensLine = true then [] else takeLineEnd (escape call.md text ++ call.md.closing) :=
    (Prod.mk.inj (Option.some.inj (hopen.symm.trans hmatch))).1
  have hnone := List.self_eq_append_right.1 hopening
  refine ⟨hback, hno, fun hlast hpre ↦ ?_, fun hpre ↦ ?_⟩
  · obtain ⟨u, hu⟩ := hpre
    rw [if_neg fun h ↦ hlast (call.getLast?_opening.2 h), ← hu] at hnone
    cases hnone
  · have hcloses := call.not_prefix_closing.1 hpre
    rw [hnone, List.append_nil] at hmatch
    rw [Call.unwrapMarkdown_wrapped hmatch] at hreturns
    refine ⟨fun hend ↦ ?_, ?_⟩
    · exact call.text_ne hcloses hend (by
        split at hreturns
        · cases hreturns
        split at hreturns
        · cases hreturns
        exact congrArg Unwrapped.text (Option.some.inj hreturns))
    · rw [call.quote_eq_ite]
      refine Bool.eq_false_iff.2 fun hbare ↦ ?_
      obtain ⟨i, hi, heq⟩ := Call.literalEnd_lt hcloses hbare
      rw [heq, call.length_literal] at hliteral
      have hsum : (Call.lineEnd call.opensLine).length + i = (Call.lineEnd call.opensLine).length +
          ((escape call.md text).length + (Call.lineEnd call.closesLine).length) :=
        Option.some.inj hliteral
      omega

/-- **An edited Markdown cell stays what it is** exactly if its text is one that the call does not
break. -/
theorem staysMarkup_iff {md : MarkdownWrapper} (h : md = defaultMd ∨
      ∃ code un, unwrapMarkdown code = some un ∧ un.md = md) (text : Text) :
    StaysMarkup md text ↔ Wraps md text := by
  obtain ⟨call, rfl⟩ : ∃ call : Call, call.md = md := by
    rcases h with rfl | ⟨code, un, hun, rfl⟩
    · exact ⟨defaultCall, md_defaultCall⟩
    · exact exists_call hun
  exact ⟨Call.wraps, Call.staysMarkup⟩

/-- An edit of a new cell that keeps it. -/
theorem staysMarkup_iff_quotes : StaysMarkup defaultMd "Say \"\"\"hi\"\"\".".toList :=
  (staysMarkup_iff (.inl rfl) _).2
    ⟨by decide, by decide, fun h ↦ absurd (by decide) h, fun h ↦ absurd (by decide) h⟩

/-- **A text that ends with a backslash** makes a new Markdown cell one of code. -/
theorem not_staysMarkup : ¬ StaysMarkup defaultMd ['\\'] := fun h ↦ by
  have hnone : unwrapMarkdown (wrapMarkdown defaultMd ['\\']) = none := rfl
  cases hnone.symm.trans h.returns

end Ember.Notebook
