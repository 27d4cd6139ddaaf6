import Ember.Server.A2a.Targets

/-!
# Mentions, written by the app and read by the server

`model.rs` (`mention_token`, `apply_mentions`) and `a2a/mention.rs` (`parse_mentions`, `resolve`):
what the app writes for a session that was picked, how it gets into the text, and what the server
makes of it. The app writes a title as it is; the server takes punctuation off the end of a word,
ends a quoted title at a line break, and looks for ids first.

The ids of sessions are made of letters, digits and hyphens. A mention is told apart by how much of
the text is left where it begins; a pick, by where its fragment is in the text as the picks before
it left it.

## What is proved

* `mem_mentionsAt_append` — a mention that stands alone is read, unless a quoted one that was not
  closed goes on over it; `mentionToken_mentionBody` — which token is read of it.
* `resolves_iff` — which sessions their own mention resolves to.
* `replacedAt_iff`, `applyMentions_eq` — when each pick replaces its own fragment, and that nothing
  else changes then.
* `mentions_exact` — all of it, from the session that was picked to the one that is found.
-/

namespace Ember.App

open Server

/-! ### What the app writes -/

/-- No other title is the same, but for case. -/
def isUnique (c : Target) (all : List Target) : Bool :=
  (all.filter fun o ↦ eqIgnoreAsciiCase (trim o.title) (trim c.title)).length == 1

/-- The title does not do: it is empty, holds a quote or is ambiguous. -/
def needsId (c : Target) (all : List Target) : Bool :=
  trim c.title = "" || '"' ∈ (trim c.title).toList || !isUnique c all

/-- What follows `@@` in `mention_token`. -/
def mentionBody (c : Target) (all : List Target) : List Char :=
  let title := (trim c.title).toList
  if needsId c all then c.id.toList
  else if title.any isWhitespace then '"' :: (title ++ ['"'])
  else title

/-- `mention_token`. -/
def mentionText (c : Target) (all : List Target) : List Char := '@' :: '@' :: mentionBody c all

/-! ### Where the server reads a mention -/

/-- The mentions that `parse_mentions` reads, each with how much of the text is left. -/
def mentionsAt (before : Option Char) (rest : List Char) : List (ℕ × String) :=
  match rest with
  | '@' :: '@' :: tail =>
    if startsMention before then
      let after := (mentionToken tail).2
      let token : String := .ofList (mentionToken tail).1
      (if token = "" then [] else [(tail.length + 2, token)]) ++
        mentionsAt (some (if tail.head? = some '"' then '"' else '@')) after
    else mentionsAt (some '@') ('@' :: tail)
  | c :: tail => mentionsAt (some c) tail
  | [] => []
termination_by rest.length
decreasing_by
  · have := length_mentionToken tail
    simp only [List.length_cons]
    omega
  all_goals simp

variable {token : String}

/-- The tokens of `parse_mentions` are those of the mentions. -/
theorem mem_mentionsFrom (n : ℕ) :
    ∀ {before : Option Char} {rest : List Char} {out : List String}, rest.length ≤ n →
      (token ∈ mentionsFrom before rest out ↔
        token ∈ out ∨ ∃ m, (m, token) ∈ mentionsAt before rest) := by
  induction n with
  | zero =>
    intro before rest out hlen
    obtain rfl := List.eq_nil_of_length_eq_zero (Nat.le_zero.1 hlen)
    simp [mentionsFrom, mentionsAt]
  | succ n ih =>
    intro before rest out hlen
    rw [mentionsFrom.eq_def]
    split
    case h_1 tail =>
      rw [mentionsAt]
      have htail := length_mentionToken tail
      simp only [List.length_cons] at hlen
      split
      case isTrue =>
        rw [ih (by omega)]
        by_cases hempty : String.ofList (mentionToken tail).1 = ""
        · simp [hempty]
        · by_cases hmem : String.ofList (mentionToken tail).1 ∈ out
          · simp only [hempty, hmem, or_true, if_true, if_false, List.mem_append,
              List.mem_singleton, Prod.mk.injEq]
            constructor
            · rintro (h | ⟨m, h⟩)
              · exact .inl h
              · exact .inr ⟨m, .inr h⟩
            · rintro (h | ⟨m, ⟨rfl, rfl⟩ | h⟩)
              · exact .inl h
              · exact .inl hmem
              · exact .inr ⟨m, h⟩
          · simp only [hempty, hmem, or_self, if_false, List.mem_append, List.mem_singleton,
              Prod.mk.injEq]
            constructor
            · rintro ((h | h) | ⟨m, h⟩)
              · exact .inl h
              · exact .inr ⟨_, .inl ⟨rfl, h⟩⟩
              · exact .inr ⟨m, .inr h⟩
            · rintro (h | ⟨m, ⟨-, h⟩ | h⟩)
              · exact .inl (.inl h)
              · exact .inl (.inr h)
              · exact .inr ⟨m, h⟩
      case isFalse => exact ih (by simpa using hlen)
    case h_2 c tail hne =>
      rw [mentionsAt]
      · exact ih (by simpa using hlen)
      · exact hne
    case h_3 => simp [mentionsAt]

theorem mem_parseMentions {text : String} :
    token ∈ parseMentions text ↔ ∃ m, (m, token) ∈ mentionsAt none text.toList := by
  rw [parseMentions, mem_mentionsFrom _ le_rfl]
  simp

/-- A mention begins within the text. -/
theorem le_of_mem_mentionsAt {m : ℕ} (n : ℕ) :
    ∀ {before : Option Char} {rest : List Char}, rest.length ≤ n →
      (m, token) ∈ mentionsAt before rest → m ≤ rest.length := by
  induction n with
  | zero =>
    intro before rest hlen h
    obtain rfl := List.eq_nil_of_length_eq_zero (Nat.le_zero.1 hlen)
    simp [mentionsAt] at h
  | succ n ih =>
    intro before rest hlen h
    rw [mentionsAt.eq_def] at h
    split at h
    case h_1 tail =>
      have htail := length_mentionToken tail
      simp only [List.length_cons] at hlen ⊢
      split at h
      case isTrue =>
        rw [List.mem_append] at h
        obtain h | h := h
        · split at h
          · cases h
          · obtain ⟨rfl, -⟩ := Prod.mk.inj (List.mem_singleton.1 h)
            rfl
        · have := ih (by omega) h
          omega
      case isFalse =>
        have := ih (by simpa using hlen) h
        simp only [List.length_cons] at this
        omega
    case h_2 =>
      have := ih (by simpa using hlen) h
      rw [List.length_cons]
      omega
    case h_3 => cases h

/-! ### How the reader comes to a mention -/

/-- A quoted mention that meets neither its quote nor a line break. -/
def opensQuote : List Char → Bool
  | '"' :: quoted => quoted.all fun c ↦ c != '"' && c != '\n'
  | _ => false

/-- No quoted mention of this text is left open, so that what follows is read from its start. -/
def reaches (before : Option Char) (text : List Char) : Bool :=
  match text with
  | '@' :: '@' :: tail =>
    if startsMention before then
      !opensQuote tail &&
        reaches (some (if tail.head? = some '"' then '"' else '@')) (mentionToken tail).2
    else reaches (some '@') ('@' :: tail)
  | c :: tail => reaches (some c) tail
  | [] => true
termination_by text.length
decreasing_by
  · have := length_mentionToken tail
    simp only [List.length_cons]
    omega
  all_goals simp

/-- A blank ends the text, or there is none. -/
def EndsBlank (text : List Char) : Prop := ∀ c, text.getLast? = some c → isWhitespace c

/-- A blank begins the text, or there is none. -/
def BeginsBlank (text : List Char) : Prop := ∀ c, text.head? = some c → isWhitespace c

instance (text : List Char) : Decidable (EndsBlank text) :=
  Option.decidableForallMem text.getLast?

instance (text : List Char) : Decidable (BeginsBlank text) :=
  Option.decidableForallMem text.head?

theorem EndsBlank.suffix {text part : List Char} (h : EndsBlank text) (hpart : part <:+ text) :
    EndsBlank part := by
  obtain ⟨front, rfl⟩ := hpart
  intro c hc
  refine h c ?_
  rw [List.getLast?_append, hc]
  rfl

theorem EndsBlank.tail {c : Char} {text : List Char} (h : EndsBlank (c :: text))
    (hc : isWhitespace c = false) : text ≠ [] ∧ EndsBlank text := by
  cases text with
  | nil => exact absurd (h c rfl) (by simp [hc])
  | cons d text => exact ⟨List.cons_ne_nil _ _, h.suffix (List.suffix_cons _ _)⟩

/-- A reader that meets where it stops does not look further. -/
theorem span_append {p : Char → Bool} {xs : List Char} (hstop : ∃ c ∈ xs, p c = false)
    (ys : List Char) :
    (xs ++ ys).takeWhile p = xs.takeWhile p ∧ (xs ++ ys).dropWhile p = xs.dropWhile p ++ ys ∧
      xs.dropWhile p ≠ [] := by
  induction xs with
  | nil => simp at hstop
  | cons x xs ih =>
    cases hx : p x with
    | false => simp [hx]
    | true =>
      have hxs : ∃ c ∈ xs, p c = false := by
        obtain ⟨c, hc, hpc⟩ := hstop
        obtain rfl | hc := List.mem_cons.1 hc
        · simp [hx] at hpc
        · exact ⟨c, hc, hpc⟩
      simpa [hx] using ih hxs

variable {tail : List Char}

/-- A mention that ends before a blank is read as it is. -/
theorem mentionToken_append (hclosed : opensQuote tail = false) (hne : tail ≠ [])
    (hblank : EndsBlank tail) (rest : List Char) :
    mentionToken (tail ++ rest) = ((mentionToken tail).1, (mentionToken tail).2 ++ rest) ∧
      (mentionToken tail).2 ≠ [] ∧ (mentionToken tail).2 <:+ tail := by
  rw [mentionToken.eq_def tail]
  split
  case h_1 quoted =>
    have hstop : ∃ c ∈ quoted, (c != '"' && c != '\n') = false := by
      simpa only [opensQuote, List.all_eq_false, Bool.not_eq_true] using hclosed
    obtain ⟨htake, hdrop, hafter⟩ := span_append hstop rest
    have hsuffix := List.dropWhile_suffix (l := quoted) fun c ↦ c != '"' && c != '\n'
    simp only [List.cons_append, mentionToken, htake, hdrop]
    cases hd : quoted.dropWhile fun c ↦ c != '"' && c != '\n' with
    | nil => exact absurd hd hafter
    | cons c after =>
      rw [hd] at hsuffix
      have hquoted : quoted <:+ '"' :: quoted := List.suffix_cons _ _
      have hblank' := hblank.suffix (hsuffix.trans hquoted)
      simp only [List.cons_append, List.head?_cons, Option.some.injEq, List.tail_cons]
      split
      case isTrue hc =>
        subst hc
        exact ⟨rfl, (hblank'.tail (by decide)).1,
          (List.suffix_cons _ _).trans (hsuffix.trans hquoted)⟩
      case isFalse => exact ⟨rfl, List.cons_ne_nil _ _, hsuffix.trans hquoted⟩
  case h_2 hquote =>
    have hstop : ∃ c ∈ tail, (!isWhitespace c) = false :=
      ⟨tail.getLast hne, List.getLast_mem hne,
        by simp [hblank _ (List.getLast?_eq_some_getLast hne)]⟩
    obtain ⟨htake, hdrop, hafter⟩ := span_append hstop rest
    rw [mentionToken]
    · exact ⟨by rw [htake, hdrop], hafter, List.dropWhile_suffix _⟩
    · intro quoted h
      cases tail with
      | nil => exact hne rfl
      | cons d tail => exact hquote tail (by rw [(List.cons.inj h).1])

/-- A quoted mention that is left open takes the next mention's start with it. -/
theorem length_mentionToken_of_opensQuote (hopen : opensQuote tail)
    (body : List Char) : (mentionToken (tail ++ '@' :: '@' :: body)).2.length ≤ body.length := by
  rw [opensQuote.eq_def] at hopen
  split at hopen
  case h_1 quoted =>
    rw [List.all_eq_true] at hopen
    have hdrop : (quoted ++ '@' :: '@' :: body).dropWhile (fun c ↦ c != '"' && c != '\n') =
        body.dropWhile fun c ↦ c != '"' && c != '\n' := by
      rw [List.dropWhile_append_of_pos hopen]
      simp
    have hle := (List.dropWhile_suffix (l := body) fun c ↦ c != '"' && c != '\n').length_le
    simp only [List.cons_append, mentionToken, hdrop]
    split
    · rw [List.length_tail]
      omega
    · exact hle
  case h_2 => cases hopen

variable {body : List Char}

/-- What is read of a mention at its start: the mention alone begins there. -/
theorem mem_mentionsAt_self {before : Option Char} (hstarts : startsMention before) :
    (body.length + 2, token) ∈ mentionsAt before ('@' :: '@' :: body) ↔
      token ≠ "" ∧ token = .ofList (mentionToken body).1 := by
  rw [mentionsAt, if_pos hstarts, List.mem_append]
  have hbody := length_mentionToken body
  have hlater : ∀ b, (body.length + 2, token) ∉ mentionsAt b (mentionToken body).2 := by
    intro b h
    have := le_of_mem_mentionsAt _ le_rfl h
    omega
  by_cases hempty : String.ofList (mentionToken body).1 = ""
  · simp only [hempty, if_true, List.not_mem_nil, hlater, or_self, false_iff]
    exact fun h ↦ h.1 h.2
  · simp only [hempty, if_false, List.mem_singleton, Prod.mk.injEq, true_and, hlater, or_false]
    exact ⟨fun h ↦ ⟨h ▸ hempty, h⟩, fun h ↦ h.2⟩

/-- **What is read where a mention stands alone**: the mention, if the text before it is one that
the reader comes to the end of. -/
theorem mem_mentionsAt_append (n : ℕ) :
    ∀ {before : Option Char} {text : List Char}, text.length ≤ n → EndsBlank text →
      (text = [] → startsMention before) →
      ((body.length + 2, token) ∈ mentionsAt before (text ++ '@' :: '@' :: body) ↔
        reaches before text ∧ token ≠ "" ∧ token = .ofList (mentionToken body).1) := by
  induction n with
  | zero =>
    intro before text hlen _ hstarts
    obtain rfl := List.eq_nil_of_length_eq_zero (Nat.le_zero.1 hlen)
    rw [List.nil_append, mem_mentionsAt_self (hstarts rfl)]
    simp [reaches]
  | succ n ih =>
    intro before text hlen hblank hstarts
    rw [reaches.eq_def]
    split
    case h_1 tail =>
      simp only [List.length_cons] at hlen
      obtain ⟨-, hblank'⟩ := hblank.tail (by decide)
      obtain ⟨hne, hblank''⟩ := hblank'.tail (by decide)
      rw [List.cons_append, List.cons_append, mentionsAt]
      split
      case isTrue =>
        cases hopen : opensQuote tail with
        | true =>
          have hlate := length_mentionToken_of_opensQuote hopen body
          simp only [Bool.not_true, Bool.false_and, Bool.false_eq_true, false_and, iff_false,
            List.mem_append, not_or]
          constructor
          · intro h
            split at h
            · cases h
            · have := (Prod.mk.inj (List.mem_singleton.1 h)).1
              simp only [List.length_append, List.length_cons] at this
              omega
          · intro h
            have := le_of_mem_mentionsAt _ le_rfl h
            omega
        | false =>
          obtain ⟨heq, hafter, hsuffix⟩ := mentionToken_append hopen hne hblank'' _
          have hhead : (tail ++ '@' :: '@' :: body).head? = tail.head? := by
            cases tail with
            | nil => exact absurd rfl hne
            | cons => rfl
          have hle := length_mentionToken tail
          rw [heq, hhead, List.mem_append, or_iff_right,
            ih (by omega) (hblank''.suffix hsuffix) (fun h ↦ absurd h hafter)]
          · simp
          · intro h
            split at h
            · cases h
            · have := (Prod.mk.inj (List.mem_singleton.1 h)).1
              have hpos := List.length_pos_of_ne_nil hne
              simp only [List.length_append, List.length_cons] at this
              omega
      case isFalse =>
        exact @ih _ ('@' :: tail) (by simpa using hlen) hblank' (fun h ↦ (by cases h))
    case h_2 c tail hnot =>
      rw [List.cons_append, mentionsAt]
      · refine ih (by simpa using hlen) ?_ ?_
        · exact hblank.suffix (List.suffix_cons _ _)
        · rintro rfl
          simp [startsMention, hblank c rfl]
      · rintro rest rfl h
        obtain ⟨hne, -⟩ := hblank.tail (by decide)
        cases tail with
        | nil => exact hne rfl
        | cons d tail => exact hnot tail rfl (by rw [(List.cons.inj h).1])
    case h_3 =>
      rw [List.nil_append, mem_mentionsAt_self (hstarts rfl)]
      simp

/-! ### What is read of a mention that the app wrote -/

/-- An id such as the store makes them: letters, digits and hyphens. -/
def IsSessionId (id : String) : Prop := id ≠ "" ∧ ∀ c ∈ id.toList, c.isAlphanum ∨ c = '-'

/-- What the server reads where the app wrote a title: a quoted title up to a line break, and a bare
one without the punctuation it ends in. -/
def nameOf (c : Target) : String :=
  let title := (trim c.title).toList
  if title.any isWhitespace then trim (.ofList (title.takeWhile (· != '\n')))
  else .ofList (trimPunctuation title)

instance (id : String) : Decidable (IsSessionId id) :=
  @instDecidableAnd _ _ _ (List.decidableBAll _ id.toList)

theorem not_punctuation_of_id {c : Char} (h : c.isAlphanum ∨ c = '-') :
    c ∉ ['.', ',', ';', ':', '!', '?', ')', ']', '}', '\'', '"'] := by
  have hnone : ∀ d ∈ ['.', ',', ';', ':', '!', '?', ')', ']', '}', '\'', '"'],
      ¬ (d.isAlphanum ∨ d = '-') := by
    simp only [List.forall_mem_cons, List.not_mem_nil, IsEmpty.forall_iff, implies_true, and_true]
    decide
  exact fun hmem ↦ hnone c hmem h

theorem IsSessionId.trimPunctuation {id : String} (h : IsSessionId id) :
    trimPunctuation id.toList = id.toList := by
  have hkeep : (id.toList.reverse.dropWhile fun c ↦
      c ∈ ['.', ',', ';', ':', '!', '?', ')', ']', '}', '\'', '"']) = id.toList.reverse := by
    cases hid : id.toList.reverse with
    | nil => rfl
    | cons c cs =>
      have hc : c ∈ id.toList := List.mem_reverse.1 (hid ▸ List.mem_cons_self)
      rw [List.dropWhile_cons_of_neg]
      exact fun hmem ↦ not_punctuation_of_id (h.2 c hc) (of_decide_eq_true hmem)
  rw [Server.trimPunctuation, hkeep, List.reverse_reverse]

/-- A bare mention is read up to the blank behind it, without the punctuation it ends in. -/
theorem mentionToken_bare {xs post : List Char} (hne : xs ≠ []) (hquote : '"' ∉ xs)
    (hxs : ∀ c ∈ xs, isWhitespace c = false) (hpost : BeginsBlank post) :
    (mentionToken (xs ++ post)).1 = trimPunctuation xs := by
  have htake : (xs ++ post).takeWhile (!isWhitespace ·) = xs := by
    rw [List.takeWhile_append_of_pos fun c hc ↦ by simp [hxs c hc]]
    cases post with
    | nil => simp
    | cons d post => simp [hpost d rfl]
  rw [mentionToken, htake]
  intro rest h
  cases xs with
  | nil => exact hne rfl
  | cons x xs => exact hquote ((List.cons.inj h).1 ▸ List.mem_cons_self)

/-- A quoted mention is read up to a line break. -/
theorem takeWhile_quoted {title post : List Char} (hquote : '"' ∉ title) :
    (title ++ '"' :: post).takeWhile (fun c ↦ c != '"' && c != '\n') =
      title.takeWhile (· != '\n') := by
  induction title with
  | nil => rfl
  | cons c title ih =>
    obtain ⟨hc, htitle⟩ := List.ne_and_not_mem_of_not_mem_cons hquote
    rw [List.cons_append, List.takeWhile_cons, List.takeWhile_cons, ih htitle,
      bne_iff_ne.2 (Ne.symm hc), Bool.true_and]

variable {all : List Target} {c : Target}

/-- **The token of a mention the app wrote**: the id, or the name made of the title. -/
theorem mentionToken_mentionBody (hid : IsSessionId c.id) {post : List Char}
    (hpost : BeginsBlank post) :
    String.ofList (mentionToken (mentionBody c all ++ post)).1 =
      if needsId c all then c.id else nameOf c := by
  rw [mentionBody]
  cases hneeds : needsId c all with
  | true =>
    have hne : c.id.toList ≠ [] := fun h ↦ hid.1 (String.toList_eq_nil_iff.1 h)
    have hquote : '"' ∉ c.id.toList := fun h ↦ not_punctuation_of_id (hid.2 _ h) (by decide)
    rw [if_pos rfl, if_pos rfl,
      mentionToken_bare hne hquote (fun d hd ↦ isWhitespace_of_id (hid.2 d hd)) hpost,
      hid.trimPunctuation, String.ofList_toList]
  | false =>
    simp only [needsId, Bool.or_eq_false_iff, decide_eq_false_iff_not] at hneeds
    obtain ⟨⟨hne, hquote⟩, -⟩ := hneeds
    have hne : (trim c.title).toList ≠ [] := fun h ↦ hne (String.toList_eq_nil_iff.1 h)
    rw [if_neg Bool.false_ne_true, if_neg Bool.false_ne_true, nameOf]
    cases hblank : (trim c.title).toList.any isWhitespace with
    | true =>
      rw [if_pos rfl, if_pos rfl, List.cons_append, List.append_assoc, mentionToken]
      rw [List.singleton_append, takeWhile_quoted hquote, String.ofList_toList]
    | false =>
      rw [if_neg Bool.false_ne_true, if_neg Bool.false_ne_true]
      rw [mentionToken_bare hne hquote (by simpa using hblank) hpost]

/-! ### Which session the server takes it for -/

/-- The sessions whose ids begin with this name, if it has the four characters that takes. -/
def byIdPrefix (name : String) (all : List Target) : List Target :=
  if 4 ≤ name.length then all.filter (·.id.startsWith name) else []

/-- Whether the mention of this session tells which it is: by its id; by a name that is no other id;
and by a title that is read whole where ids do not decide. -/
def Identifies (c : Target) (all : List Target) : Prop :=
  needsId c all ∨ c.id = nameOf c ∨
    (∀ o ∈ all, o.id ≠ nameOf c) ∧ (byIdPrefix (nameOf c) all = [c] ∨
      (byIdPrefix (nameOf c) all).length ≠ 1 ∧ nameOf c = trim c.title)

instance (c : Target) (all : List Target) : Decidable (Identifies c all) :=
  inferInstanceAs (Decidable (_ ∨ _ ∨ (∀ o ∈ all, o.id ≠ nameOf c) ∧ (_ ∨ _ ∧ _)))

/-- **What a token resolves to**: the session with this id; else the only one whose id begins with
it; else the only one with this title. -/
theorem resolveMention_eq_ok (hc : c ∈ all) (hids : (all.map Target.id).Nodup) :
    resolveMention token all = .ok c ↔
      c.id = token ∨ (∀ o ∈ all, o.id ≠ token) ∧ (byIdPrefix token all = [c] ∨
        (byIdPrefix token all).length ≠ 1 ∧
          (all.filter fun o ↦ eqIgnoreAsciiCase (trim o.title) token) = [c]) := by
  rw [resolveMention]
  cases hfind : all.find? (·.id == token) with
  | some t =>
    have ht : t ∈ all := List.mem_of_find?_eq_some hfind
    have htoken : t.id = token := by simpa using List.find?_some hfind
    have hnot : ¬ ∀ o ∈ all, o.id ≠ token := fun h ↦ h t ht htoken
    simp only [Except.ok.injEq, hnot, false_and, or_false]
    constructor
    · rintro rfl
      exact htoken
    · exact fun h ↦ List.inj_on_of_nodup_map hids ht hc (htoken.trans h.symm)
  | none =>
    have hnone : ∀ o ∈ all, o.id ≠ token := by simpa using hfind
    have hfold : (if 4 ≤ token.length then all.filter (·.id.startsWith token) else []) =
      byIdPrefix token all := rfl
    simp only [hnone c hc, false_or, and_iff_right hnone, hfold]
    generalize (all.filter fun o ↦ eqIgnoreAsciiCase (trim o.title) token) = titled
    rcases byIdPrefix token all with _ | ⟨t, _ | ⟨u, ids⟩⟩
    · rcases titled with _ | ⟨t, _ | ⟨u, titled⟩⟩ <;> simp
    · simp
    · rcases titled with _ | ⟨t, _ | ⟨u, titled⟩⟩ <;> simp

/-- What is read of a title is a part of it. -/
theorem nameOf_sublist (c : Target) : (nameOf c).toList.Sublist (trim c.title).toList := by
  have hdrop : ∀ (p : Char → Bool) (l : List Char), (l.reverse.dropWhile p).reverse.Sublist l :=
    fun p l ↦ by simpa using (List.dropWhile_sublist p (l := l.reverse)).reverse
  rw [nameOf]
  split
  · rw [trim, String.toList_ofList, String.toList_ofList]
    exact ((hdrop _ _).trans (List.dropWhile_sublist _)).trans (List.takeWhile_sublist _)
  · rw [String.toList_ofList]
    exact hdrop _ _

theorem eqIgnoreAsciiCase_length {a b : String} (h : eqIgnoreAsciiCase a b) :
    a.toList.length = b.toList.length := by
  simpa using congrArg List.length (beq_iff_eq.1 h)

/-- A session whose title is unique is the only one with it. -/
theorem filter_title (hc : c ∈ all) (hunique : isUnique c all) :
    (all.filter fun o ↦ eqIgnoreAsciiCase (trim o.title) (trim c.title)) = [c] := by
  obtain ⟨t, ht⟩ := List.length_eq_one_iff.1 (beq_iff_eq.1 hunique)
  have hmem : c ∈ all.filter fun o ↦ eqIgnoreAsciiCase (trim o.title) (trim c.title) :=
    List.mem_filter.2 ⟨hc, beq_self_eq_true _⟩
  rw [ht, List.mem_singleton] at hmem
  rw [ht, hmem]

/-- **Which sessions their mention resolves to.** -/
theorem resolves_iff (hc : c ∈ all) (hids : (all.map Target.id).Nodup) :
    resolveMention (if needsId c all then c.id else nameOf c) all = .ok c ↔ Identifies c all := by
  rw [resolveMention_eq_ok hc hids, Identifies]
  cases hneeds : needsId c all with
  | true => simp
  | false =>
    have hunique : isUnique c all := by
      simp only [needsId, Bool.or_eq_false_iff, Bool.not_eq_false'] at hneeds
      exact hneeds.2
    have htitle : (all.filter fun o ↦ eqIgnoreAsciiCase (trim o.title) (nameOf c)) = [c] ↔
        nameOf c = trim c.title := by
      constructor
      · intro h
        have hmem : c ∈ [c] := List.mem_singleton_self c
        rw [← h, List.mem_filter] at hmem
        have hlen := eqIgnoreAsciiCase_length hmem.2
        exact String.toList_inj.1 ((nameOf_sublist c).eq_of_length hlen.symm)
      · intro h
        rw [h]
        exact filter_title hc hunique
    rw [if_neg Bool.false_ne_true, htitle]
    simp

/-! ### What the app puts into the text -/

/-- A picked mention: the fragment as typed, and what is sent for it. -/
structure Pick where
  raw : List Char
  token : List Char
  /-- `typed_mention` takes the fragment from its `@@` on. -/
  typed : ['@', '@'] <+: raw

theorem Pick.length_pos (p : Pick) : 0 < p.raw.length :=
  Nat.lt_of_lt_of_le Nat.zero_lt_two p.typed.length_le

/-- Whether a fragment ends before this text, and was not typed on. -/
def endsCleanly : List Char → Bool
  | [] => true
  | c :: _ => isWhitespace c || c ∈ [',', '.', ';', ':', '!', '?', ')', ']', '}']

/-- The search of `apply_mentions`: where the copy of the fragment begins that is replaced. A copy
that was typed on is passed over as a whole. -/
def fragmentAt (raw : List Char) (i : ℕ) : List Char → Option ℕ
  | [] => none
  | c :: rest =>
    if raw.isPrefixOf (c :: rest) then
      if endsCleanly ((c :: rest).drop raw.length) then some i
      else fragmentAt raw (i + raw.length) (rest.drop (raw.length - 1))
    else fragmentAt raw (i + 1) rest
termination_by text => text.length
decreasing_by
  all_goals simp only [List.length_drop, List.length_cons]; omega

/-- One pick of `apply_mentions`. -/
def applyMention (text : List Char) (p : Pick) : List Char :=
  match fragmentAt p.raw 0 text with
  | some i => text.take i ++ p.token ++ text.drop (i + p.raw.length)
  | none => text

/-- `apply_mentions`. -/
def applyMentions (text : List Char) (picks : List Pick) : List Char :=
  picks.foldl applyMention text

/-- Where each pick replaces a fragment, in the text as the picks before left it. -/
def replacedAt : List Char → List Pick → List (Option ℕ)
  | _, [] => []
  | text, p :: picks => fragmentAt p.raw 0 text :: replacedAt (applyMention text p) picks

/-- A part of the text up to the place where a mention was picked. -/
structure Piece where
  before : List Char
  pick : Pick
  /-- The fragment that was picked is still in the text. -/
  stands : Bool

/-- The text when it is sent, from a piece on. -/
def typedText : List Piece → List Char → List Char
  | [], tail => tail
  | p :: pieces, tail =>
    p.before ++ (if p.stands then p.pick.raw else []) ++ typedText pieces tail

namespace Piece

/-- The fragment is to be replaced: it is there, and was not typed on. -/
def due (p : Piece) (rest : List Char) : Bool := p.stands && endsCleanly rest

/-- The piece with its fragment replaced. -/
def sent (p : Piece) (rest : List Char) : List Char :=
  p.before ++ (if p.due rest then p.pick.token else if p.stands then p.pick.raw else [])

end Piece

/-- The text with the fragment of each pick replaced by its token, and nothing else changed. -/
def sentText : List Piece → List Char → List Char
  | [], tail => tail
  | p :: pieces, tail => p.sent (typedText pieces tail) ++ sentText pieces tail

/-- Where the picks' own fragments are, each once those before it were replaced. -/
def ownPlaces (i : ℕ) : List Piece → List Char → List (Option ℕ)
  | [], _ => []
  | p :: pieces, tail =>
    let rest := typedText pieces tail
    (if p.due rest then some (i + p.before.length) else none) ::
      ownPlaces (i + (p.sent rest).length) pieces tail

/-- The search for a fragment passes over the text `ahead` and comes to `rest`: no copy that it
meets ahead ends cleanly or runs into `rest`. -/
def passes (raw : List Char) (ahead rest : List Char) : Bool :=
  match ahead with
  | [] => true
  | c :: ahead =>
    if raw.isPrefixOf (c :: ahead ++ rest) then
      !endsCleanly ((c :: ahead ++ rest).drop raw.length) && raw.length ≤ ahead.length + 1 &&
        passes raw (ahead.drop (raw.length - 1)) rest
    else passes raw ahead rest
termination_by ahead.length
decreasing_by
  all_goals simp only [List.length_drop, List.length_cons]; omega

/-- In the text as the picks before left it, the search for each fragment passes over what is ahead
of its own place; over the whole text, where the fragment was deleted or typed on. -/
def Undisturbed (done : List Char) : List Piece → List Char → Prop
  | [], _ => True
  | p :: pieces, tail =>
    let rest := typedText pieces tail
    (if p.due rest then passes p.pick.raw (done ++ p.before) (p.pick.raw ++ rest)
      else passes p.pick.raw (done ++ typedText (p :: pieces) tail) []) ∧
      Undisturbed (done ++ p.sent rest) pieces tail

variable {raw : List Char}

theorem le_fragmentAt {j : ℕ} (n : ℕ) :
    ∀ {text : List Char} {i : ℕ}, text.length ≤ n → fragmentAt raw i text = some j → i ≤ j := by
  induction n with
  | zero =>
    intro text i hlen h
    obtain rfl := List.eq_nil_of_length_eq_zero (Nat.le_zero.1 hlen)
    simp [fragmentAt] at h
  | succ n ih =>
    intro text i hlen h
    rw [fragmentAt.eq_def] at h
    split at h
    · cases h
    · rw [List.length_cons] at hlen
      split at h
      · split at h
        · exact (Option.some.inj h).le
        · have := ih (by rw [List.length_drop]; omega) h
          omega
      · have := ih (by omega) h
        omega

variable {rest : List Char}

theorem fragmentAt_self (hraw : 0 < raw.length) (hclean : endsCleanly rest)
    (i : ℕ) : fragmentAt raw i (raw ++ rest) = some i := by
  obtain ⟨c, raw, rfl⟩ := List.exists_cons_of_length_pos hraw
  have hself : (c :: raw).isPrefixOf (c :: (raw ++ rest)) := by simp
  have hdrop : (c :: (raw ++ rest)).drop (c :: raw).length = rest := by simp
  rw [List.cons_append, fragmentAt, if_pos hself, hdrop, if_pos hclean]

/-- **Where the search ends**: at a fragment that ends cleanly, if it passes over what is ahead. -/
theorem fragmentAt_eq_some (hraw : 0 < raw.length) (hclean : endsCleanly rest) (n : ℕ) :
    ∀ {ahead : List Char} {i : ℕ}, ahead.length ≤ n →
      (fragmentAt raw i (ahead ++ (raw ++ rest)) = some (i + ahead.length) ↔
        passes raw ahead (raw ++ rest)) := by
  induction n with
  | zero =>
    intro ahead i hlen
    obtain rfl := List.eq_nil_of_length_eq_zero (Nat.le_zero.1 hlen)
    simp [passes, fragmentAt_self hraw hclean]
  | succ n ih =>
    intro ahead i hlen
    cases ahead with
    | nil => simp [passes, fragmentAt_self hraw hclean]
    | cons c ahead =>
      rw [List.length_cons] at hlen ⊢
      rw [List.cons_append, fragmentAt, passes]
      simp only [List.cons_append]
      by_cases hcopy : raw.isPrefixOf (c :: (ahead ++ (raw ++ rest)))
      case neg =>
        rw [if_neg hcopy, if_neg hcopy, ← ih (i := i + 1) (by omega)]
        rw [show i + (ahead.length + 1) = i + 1 + ahead.length by omega]
      case pos =>
        rw [if_pos hcopy, if_pos hcopy]
        by_cases hends : endsCleanly ((c :: (ahead ++ (raw ++ rest))).drop raw.length)
        case pos =>
          rw [if_pos hends, hends]
          simp
        case neg =>
          rw [if_neg hends, Bool.eq_false_iff.2 hends, Bool.not_false, Bool.true_and]
          by_cases hfits : raw.length ≤ ahead.length + 1
          case pos =>
            have hdrop : (ahead ++ (raw ++ rest)).drop (raw.length - 1) =
                ahead.drop (raw.length - 1) ++ (raw ++ rest) :=
              List.drop_append_of_le_length (by omega)
            have hplace : i + (ahead.length + 1) =
                i + raw.length + (ahead.drop (raw.length - 1)).length := by
              rw [List.length_drop]
              omega
            rw [decide_eq_true hfits, Bool.true_and, hdrop, hplace,
              ih (by rw [List.length_drop]; omega)]
          case neg =>
            rw [decide_eq_false hfits, Bool.false_and]
            refine iff_of_false (fun h ↦ ?_) Bool.false_ne_true
            have := le_fragmentAt _ le_rfl h
            omega

/-- The search finds nothing if it passes over the whole text. -/
theorem fragmentAt_eq_none (n : ℕ) :
    ∀ {text : List Char} {i : ℕ}, text.length ≤ n →
      (fragmentAt raw i text = none ↔ passes raw text []) := by
  induction n with
  | zero =>
    intro text i hlen
    obtain rfl := List.eq_nil_of_length_eq_zero (Nat.le_zero.1 hlen)
    simp [passes, fragmentAt]
  | succ n ih =>
    intro text i hlen
    cases text with
    | nil => simp [passes, fragmentAt]
    | cons c text =>
      rw [List.length_cons] at hlen
      rw [fragmentAt, passes, List.append_nil]
      by_cases hcopy : raw.isPrefixOf (c :: text)
      case neg => rw [if_neg hcopy, if_neg hcopy, ih (by omega)]
      case pos =>
        rw [if_pos hcopy, if_pos hcopy]
        have hfits : raw.length ≤ text.length + 1 := (List.isPrefixOf_iff_prefix.1 hcopy).length_le
        by_cases hends : endsCleanly ((c :: text).drop raw.length)
        case pos => simp [hends]
        case neg =>
          rw [if_neg hends, Bool.eq_false_iff.2 hends, decide_eq_true hfits,
            ih (by rw [List.length_drop]; omega)]
          simp

variable {pieces : List Piece} {done : List Char}

/-- One pick replaces its own fragment, exactly if the search passes over what is ahead of it. -/
theorem fragmentAt_eq_own {p : Piece} :
    fragmentAt p.pick.raw 0 (done ++ typedText (p :: pieces) tail) =
        (if p.due (typedText pieces tail) then some (done.length + p.before.length) else none) ↔
      (if p.due (typedText pieces tail)
        then passes p.pick.raw (done ++ p.before) (p.pick.raw ++ typedText pieces tail)
        else passes p.pick.raw (done ++ typedText (p :: pieces) tail) []) := by
  cases hdue : p.due (typedText pieces tail) with
  | true =>
    obtain ⟨hstands, hclean⟩ := Bool.and_eq_true_iff.1 hdue
    rw [if_pos rfl, if_pos rfl, ← fragmentAt_eq_some p.pick.length_pos hclean _ le_rfl,
      typedText, if_pos hstands, List.length_append, Nat.zero_add]
    simp only [List.append_assoc]
  | false =>
    rw [if_neg Bool.false_ne_true, if_neg Bool.false_ne_true]
    exact fragmentAt_eq_none _ le_rfl

/-- A pick that replaces its own fragment changes nothing else. -/
theorem applyMention_eq_own {p : Piece}
    (hown : fragmentAt p.pick.raw 0 (done ++ typedText (p :: pieces) tail) =
      if p.due (typedText pieces tail) then some (done.length + p.before.length) else none) :
    applyMention (done ++ typedText (p :: pieces) tail) p.pick =
      done ++ p.sent (typedText pieces tail) ++ typedText pieces tail := by
  rw [applyMention, hown, Piece.sent]
  cases hdue : p.due (typedText pieces tail) with
  | true =>
    obtain ⟨hstands, -⟩ := Bool.and_eq_true_iff.1 hdue
    have hsplit : done ++ typedText (p :: pieces) tail =
        done ++ p.before ++ (p.pick.raw ++ typedText pieces tail) := by
      simp [typedText, hstands]
    have htake : (done ++ typedText (p :: pieces) tail).take (done.length + p.before.length) =
        done ++ p.before := by
      rw [hsplit, ← List.length_append, List.take_left]
    have hdrop : (done ++ typedText (p :: pieces) tail).drop
        (done.length + p.before.length + p.pick.raw.length) = typedText pieces tail := by
      rw [hsplit, ← List.length_append, ← List.length_append, ← List.append_assoc, List.drop_left]
    simp only [if_true, htake, hdrop, List.append_assoc]
  | false => simp [typedText]

theorem replacedAt_iff (pieces : List Piece) (done : List Char) :
    replacedAt (done ++ typedText pieces tail) (pieces.map Piece.pick) =
        ownPlaces done.length pieces tail ↔
      Undisturbed done pieces tail := by
  induction pieces generalizing done with
  | nil => simp [replacedAt, ownPlaces, Undisturbed]
  | cons p pieces ih =>
    rw [List.map_cons, replacedAt, ownPlaces, Undisturbed, List.cons.injEq, fragmentAt_eq_own]
    refine and_congr_right fun hpasses ↦ ?_
    rw [applyMention_eq_own (fragmentAt_eq_own.2 hpasses), ← ih, List.length_append]

theorem applyMentions_eq (pieces : List Piece) (done : List Char)
    (h : Undisturbed done pieces tail) :
    applyMentions (done ++ typedText pieces tail) (pieces.map Piece.pick) =
      done ++ sentText pieces tail := by
  induction pieces generalizing done with
  | nil => rfl
  | cons p pieces ih =>
    rw [List.map_cons, applyMentions, List.foldl_cons,
      applyMention_eq_own (fragmentAt_eq_own.2 h.1), ← applyMentions, ih _ h.2, sentText, List.append_assoc]

/-! ### Both together -/

/-- The mention of this session is read between these two texts, and resolves to the session. -/
def ReadsAs (c : Target) (all : List Target) (before after : List Char) : Prop :=
  let text := before ++ (mentionText c all ++ after)
  ∃ token, ((mentionText c all ++ after).length, token) ∈ mentionsAt none text ∧
    token ∈ parseMentions (.ofList text) ∧ resolveMention token all = .ok c

/-- Each pick replaces its own fragment, if it is there and was not typed on, and nothing else of
the text is changed. -/
def ReplacesOwn (pieces : List Piece) (tail : List Char) : Prop :=
  replacedAt (typedText pieces tail) (pieces.map Piece.pick) = ownPlaces 0 pieces tail ∧
    applyMentions (typedText pieces tail) (pieces.map Piece.pick) = sentText pieces tail

/-- A mention that tells which session it is of is not empty. -/
theorem Identifies.ne_empty (h : Identifies c all)
    (hid : IsSessionId c.id) : (if needsId c all then c.id else nameOf c) ≠ "" := by
  cases hneeds : needsId c all with
  | true => exact hid.1
  | false =>
    rw [if_neg Bool.false_ne_true]
    obtain hneeds' | hname | ⟨-, hfound | ⟨-, htitle⟩⟩ := h
    · exact absurd hneeds' (by simp [hneeds])
    · exact hname ▸ hid.1
    · intro hempty
      rw [hempty] at hfound
      cases hfound
    · intro hempty
      simp [needsId, ← htitle, hempty] at hneeds

theorem readsAs_iff (hc : c ∈ all) (hids : (all.map Target.id).Nodup) (hid : IsSessionId c.id)
    {before after : List Char} (hbefore : EndsBlank before) (hafter : BeginsBlank after) :
    ReadsAs c all before after ↔ reaches none before ∧ Identifies c all := by
  have hread : ∀ token, ((mentionText c all ++ after).length, token) ∈
        mentionsAt none (before ++ (mentionText c all ++ after)) ↔
      reaches none before ∧ token ≠ "" ∧ token = if needsId c all then c.id else nameOf c := by
    intro token
    rw [← mentionToken_mentionBody hid hafter,
      ← mem_mentionsAt_append before.length le_rfl hbefore fun _ ↦ rfl]
    rfl
  constructor
  · rintro ⟨token, hat, -, hresolves⟩
    obtain ⟨hreaches, -, rfl⟩ := (hread token).1 hat
    exact ⟨hreaches, (resolves_iff hc hids).1 hresolves⟩
  · rintro ⟨hreaches, h⟩
    have hat := (hread _).2 ⟨hreaches, h.ne_empty hid, rfl⟩
    refine ⟨_, hat, mem_parseMentions.2 ⟨(mentionText c all ++ after).length, ?_⟩,
      (resolves_iff hc hids).2 h⟩
    rw [String.toList_ofList]
    exact hat

theorem replacesOwn_iff :
    ReplacesOwn pieces tail ↔ Undisturbed [] pieces tail := by
  have hplaces := @replacedAt_iff tail pieces []
  rw [List.nil_append, List.length_nil] at hplaces
  rw [ReplacesOwn, hplaces, and_iff_left_iff_imp]
  exact applyMentions_eq pieces []

/-- **Mentions from the app to the server**: a mention that stands alone is read and resolves to its
session exactly if no quoted mention is left open before it and it tells which session it is of; the
picks replace their own fragments and nothing else exactly if the searches for them pass over what
is ahead of these. -/
theorem mentions_exact {c : Target} {all : List Target} (hc : c ∈ all)
    (hids : (all.map Target.id).Nodup) (hid : ∀ o ∈ all, IsSessionId o.id)
    {before after : List Char} (hbefore : EndsBlank before) (hafter : BeginsBlank after)
    (pieces : List Piece) (tail : List Char) :
    (ReadsAs c all before after ↔ reaches none before ∧ Identifies c all) ∧
      (ReplacesOwn pieces tail ↔ Undisturbed [] pieces tail) :=
  ⟨readsAs_iff hc hids (hid c hc) hbefore hafter, replacesOwn_iff⟩

section Examples

/-- A session with this id and title. -/
private def titled (id title : String) : Target := ⟨id, title, "p", "codex", .idle⟩

private def picked : Pick := ⟨"@@be".toList, "@@\"Beta Tests\"".toList, by decide⟩

/-- The words of a message with a quoted title. -/
theorem mentions_exact_quoted :
    (ReadsAs (titled "id-1" "Beta Tests") [titled "id-1" "Beta Tests", titled "id-2" "gamma"]
        "ask ".toList " now".toList ↔
      reaches none "ask ".toList ∧ Identifies (titled "id-1" "Beta Tests")
        [titled "id-1" "Beta Tests", titled "id-2" "gamma"]) ∧
      (ReplacesOwn [⟨"ask ".toList, picked, true⟩] " now".toList ↔
        Undisturbed [] [⟨"ask ".toList, picked, true⟩] " now".toList) :=
  mentions_exact (by decide) (by decide)
    (by simpa using ⟨by decide, by decide⟩) (by decide) (by decide) _ _

/-- A title that ends in an exclamation mark is read without it, and then is no session's; and of
two fragments that are the same the first is replaced, though the second was picked. -/
theorem not_mentions_exact :
    (IsSessionId "id-1" ∧ ¬ ReadsAs (titled "id-1" "Hi!") [titled "id-1" "Hi!"] [] []) ∧
      ¬ ReplacesOwn [⟨"@@be, ".toList, picked, true⟩] [] := by
  have hid : IsSessionId (titled "id-1" "Hi!").id := by decide
  refine ⟨⟨hid, ?_⟩, ?_⟩
  · rw [readsAs_iff (by decide) (by decide) hid (by decide) (by decide)]
    rintro ⟨-, h⟩
    revert h
    decide
  · rw [replacesOwn_iff]
    rintro ⟨h, -⟩
    have hpasses : passes picked.raw ('@' :: "@be, ".toList) (picked.raw ++ []) := h
    rw [passes, if_pos (by decide), Bool.and_eq_true_iff, Bool.and_eq_true_iff] at hpasses
    exact absurd hpasses.1.1 (by decide)

end Examples

end Ember.App
