import Mathlib.Data.List.TakeWhile
import Mathlib.Data.Nat.Notation
import Mathlib.Tactic.IntervalCases

/-!
# JSON text

The pieces a JSON reader is made of, each with the lemma that it reads back what is written: string
literals with their escapes, numbers, and items between brackets. They know nothing of the values
the items stand for: the item reader is a parameter, and of the items is only asked that they read
back where a comma or the closing bracket follows.

A string is read one character at a time, so that no fuel is needed; the list of items takes as many
rounds as there are characters.
-/

namespace JsonText

/-- JSON white space. -/
def isSpace (c : Char) : Bool := c == ' ' || c == '\n' || c == '\t' || c == '\r'

/-- The text from its first character that is no white space on. -/
def skip (cs : List Char) : List Char := cs.dropWhile isSpace

theorem skip_cons {c : Char} {cs : List Char} (h : isSpace c = false) :
    skip (c :: cs) = c :: cs := List.dropWhile_cons_of_neg (by simp [h])

/-! ### Strings -/

/-- What a short escape stands for. -/
def unescape (c : Char) : Option Char :=
  if c = '"' ∨ c = '\\' ∨ c = '/' then some c
  else if c = 'b' then some '\x08'
  else if c = 'f' then some '\x0c'
  else if c = 'n' then some '\n'
  else if c = 'r' then some '\r'
  else if c = 't' then some '\t'
  else none

/-- The value of a hexadecimal digit. -/
def hexVal (c : Char) : Option ℕ :=
  if '0' ≤ c ∧ c ≤ '9' then some (c.toNat - '0'.toNat)
  else if 'a' ≤ c ∧ c ≤ 'f' then some (c.toNat - 'a'.toNat + 10)
  else if 'A' ≤ c ∧ c ≤ 'F' then some (c.toNat - 'A'.toNat + 10)
  else none

/-- Where the reader of a string literal is. -/
inductive InString
  | plain
  /-- Behind a backslash. -/
  | escape
  /-- Behind `\u`: the number read so far, how many more digits follow the next one, and the first
  half of a surrogate pair. -/
  | hex (n more : ℕ) (high : Option ℕ)
  /-- Behind the first half of a surrogate pair. -/
  | low (high : ℕ)
  | lowEscape (high : ℕ)

/-- One more character of a string, in front of the rest of it. -/
def consChar (c : Char) (r : Option (List Char × List Char)) : Option (List Char × List Char) :=
  r.map fun p ↦ (c :: p.1, p.2)

/-- A string literal behind its opening quote, and the text behind its closing one. -/
def readStr : InString → List Char → Option (List Char × List Char)
  | _, [] => none
  | .plain, c :: cs =>
    if c = '"' then some ([], cs)
    else if c = '\\' then readStr .escape cs
    else if c.toNat < 32 then none
    else consChar c (readStr .plain cs)
  | .escape, c :: cs =>
    if c = 'u' then readStr (.hex 0 3 none) cs
    else
      match unescape c with
      | none => none
      | some e => consChar e (readStr .plain cs)
  | .hex n (more + 1) high, c :: cs =>
    match hexVal c with
    | none => none
    | some h => readStr (.hex (16 * n + h) more high) cs
  | .hex n 0 high, c :: cs =>
    match hexVal c with
    | none => none
    | some h =>
      let n := 16 * n + h
      match high with
      | none =>
        if 0xd800 ≤ n ∧ n < 0xdc00 then readStr (.low n) cs
        else if 0xdc00 ≤ n ∧ n < 0xe000 then none
        else consChar (.ofNat n) (readStr .plain cs)
      | some high =>
        if 0xdc00 ≤ n ∧ n < 0xe000 then
          consChar (.ofNat (0x10000 + (high - 0xd800) * 0x400 + (n - 0xdc00))) (readStr .plain cs)
        else none
  | .low high, c :: cs => if c = '\\' then readStr (.lowEscape high) cs else none
  | .lowEscape high, c :: cs => if c = 'u' then readStr (.hex 0 3 (some high)) cs else none

/-- A character of a string literal: quotes, backslashes and control characters are escaped. -/
def escape (c : Char) : List Char :=
  if c = '"' then ['\\', '"']
  else if c = '\\' then ['\\', '\\']
  else if c = '\x08' then ['\\', 'b']
  else if c = '\x0c' then ['\\', 'f']
  else if c = '\n' then ['\\', 'n']
  else if c = '\r' then ['\\', 'r']
  else if c = '\t' then ['\\', 't']
  else if c.toNat < 32 then
    ['\\', 'u', '0', '0', (c.toNat / 16).digitChar, (c.toNat % 16).digitChar]
  else [c]

/-- A string literal. -/
def quote (s : List Char) : List Char := '"' :: s.flatMap escape ++ ['"']

theorem hexVal_digitChar : ∀ n < 16, hexVal n.digitChar = some n := by decide

theorem readStr_escape (c : Char) (cs : List Char) :
    readStr .plain (escape c ++ cs) = consChar c (readStr .plain cs) := by
  rw [escape]
  split_ifs with hquote hback hb hf hn hr ht hlow
  · rw [hquote]; rfl
  · rw [hback]; rfl
  · rw [hb]; rfl
  · rw [hf]; rfl
  · rw [hn]; rfl
  · rw [hr]; rfl
  · rw [ht]; rfl
  · have hvalue : 16 * (c.toNat / 16) + c.toNat % 16 = c.toNat := by omega
    have hleft := hexVal_digitChar (c.toNat / 16) (by omega)
    have hright := hexVal_digitChar (c.toNat % 16) (by omega)
    have hzero : hexVal '0' = some 0 := rfl
    have hno : ¬(0xd800 ≤ c.toNat ∧ c.toNat < 0xdc00) := by omega
    have hno' : ¬(0xdc00 ≤ c.toNat ∧ c.toNat < 0xe000) := by omega
    simp only [List.cons_append, List.nil_append, readStr, hzero, hleft, hright]
    simp [hvalue, hno, hno']
  · simp only [List.cons_append, List.nil_append, readStr, if_neg hquote, if_neg hback, if_neg hlow]

/-- **A string literal reads back**, whatever follows. -/
theorem readStr_quote (s rest : List Char) :
    readStr .plain (s.flatMap escape ++ '"' :: rest) = some (s, rest) := by
  induction s with
  | nil => rfl
  | cons c s ih =>
    rw [List.flatMap_cons, List.append_assoc, readStr_escape, ih]
    rfl

/-! ### Numbers -/

/-- The characters of a number. What may follow a number in a text is none of them. -/
def isNumberChar (c : Char) : Bool :=
  c.isDigit || c == '-' || c == '+' || c == '.' || c == 'e' || c == 'E'

theorem ne_of_isNumberChar {c c' : Char} (h : isNumberChar c = true)
    (h' : isNumberChar c' = false) : c ≠ c' := fun heq ↦ by
  rw [← heq, h] at h'
  cases h'

theorem isSpace_of_isNumberChar {c : Char} (h : isNumberChar c = true) : isSpace c = false := by
  simp only [isSpace, Bool.or_eq_false_iff, beq_eq_false_iff_ne]
  exact ⟨⟨⟨ne_of_isNumberChar h rfl, ne_of_isNumberChar h rfl⟩, ne_of_isNumberChar h rfl⟩,
    ne_of_isNumberChar h rfl⟩

/-- Nothing, or an exponent. -/
def isExponent : List Char → Bool
  | [] => true
  | e :: cs =>
    let ds := if cs.head? = some '+' ∨ cs.head? = some '-' then cs.tail else cs
    (e == 'e' || e == 'E') && !ds.isEmpty && ds.all Char.isDigit

/-- Nothing, or a fraction, or an exponent, or both. -/
def isFraction (cs : List Char) : Bool :=
  if cs.head? = some '.' then
    !(cs.tail.takeWhile Char.isDigit).isEmpty && isExponent (cs.tail.dropWhile Char.isDigit)
  else isExponent cs

/-- What a number is written as. -/
inductive Number
  | int (negative : Bool) (n : ℕ)
  /-- With a fraction or an exponent. -/
  | float
  deriving DecidableEq

/-- What the characters of a number are. No number begins with a zero before another digit. -/
def number (token : List Char) : Option Number :=
  let negative := token.head? == some '-'
  let body := if negative then token.tail else token
  let ds := body.takeWhile Char.isDigit
  let rest := body.dropWhile Char.isDigit
  if !ds.isEmpty && (ds.head? != some '0' || ds.length == 1) && isFraction rest then
    some (if rest.isEmpty then .int negative (Nat.ofDigitChars 10 ds 0) else .float)
  else none

/-- The digits of an integer. -/
def decimal (negative : Bool) (n : ℕ) : List Char :=
  if negative then '-' :: Nat.toDigits 10 n else Nat.toDigits 10 n

theorem isDigit_toDigits {n : ℕ} : ∀ c ∈ Nat.toDigits 10 n, c.isDigit = true := fun _ hc ↦
  Nat.isDigit_of_mem_toDigits (by decide) le_rfl hc

theorem digitChar_ne_zero : ∀ n < 10, n ≠ 0 → n.digitChar ≠ '0' := by decide

/-- Only zero begins with a zero. -/
theorem head?_toDigits {n : ℕ} (h : n ≠ 0) : (Nat.toDigits 10 n).head? ≠ some '0' := by
  induction n using Nat.strongRecOn with
  | ind n ih =>
    rcases lt_or_ge n 10 with hlt | hge
    · rw [Nat.toDigits_of_lt_base hlt]
      exact fun heq ↦ digitChar_ne_zero n hlt h (Option.some.inj heq)
    · have hne : Nat.toDigits 10 (n / 10) ≠ [] := Nat.toDigits_ne_nil
      obtain ⟨c, cs, hcs⟩ := List.exists_cons_of_ne_nil hne
      have hih := ih (n / 10) (by omega) (by omega)
      rw [hcs] at hih
      rwa [Nat.toDigits_of_base_le (by decide) hge, hcs]

/-- **An integer reads back.** -/
theorem number_decimal (negative : Bool) (n : ℕ) :
    number (decimal negative n) = some (.int negative n) := by
  have hds : (Nat.toDigits 10 n).takeWhile Char.isDigit = Nat.toDigits 10 n :=
    List.takeWhile_eq_self_iff.2 isDigit_toDigits
  have hrest : (Nat.toDigits 10 n).dropWhile Char.isDigit = [] :=
    List.dropWhile_eq_nil_iff.2 isDigit_toDigits
  have hne : (Nat.toDigits 10 n).isEmpty = false := by
    simp
  have hzero : ((Nat.toDigits 10 n).head? != some '0' ||
      (Nat.toDigits 10 n).length == 1) = true := by
    rcases eq_or_ne n 0 with rfl | hn
    · decide
    · simp [head?_toDigits hn]
  have hminus : ((decimal negative n).head? == some '-') = negative := by
    cases negative with
    | true => rfl
    | false =>
      refine beq_eq_false_iff_ne.2 fun heq ↦ ?_
      have hdigit := isDigit_toDigits '-' (List.mem_of_mem_head? (l := Nat.toDigits 10 n) heq)
      exact absurd hdigit (by decide)
  have hbody : (if negative = true then (decimal negative n).tail else decimal negative n) =
      Nat.toDigits 10 n := by
    cases negative <;> rfl
  simp only [number, hminus, hbody, hds, hrest, hne, hzero, Nat.ofDigitChars_ten_toDigits]
  rfl

/-- The characters of a number come off the front of a text in which none of them follows. -/
theorem span_number {token rest : List Char} (h : token.all isNumberChar)
    (hrest : ∀ c ∈ rest.head?, isNumberChar c = false) :
    (token ++ rest).takeWhile isNumberChar = token ∧
      (token ++ rest).dropWhile isNumberChar = rest := by
  have hall : ∀ c ∈ token, isNumberChar c = true := List.all_eq_true.1 h
  have htake : rest.takeWhile isNumberChar = [] ∧ rest.dropWhile isNumberChar = rest := by
    cases rest with
    | nil => exact ⟨rfl, rfl⟩
    | cons c rest =>
      have hc := hrest c rfl
      exact ⟨List.takeWhile_cons_of_neg (by simp [hc]), List.dropWhile_cons_of_neg (by simp [hc])⟩
  rw [List.takeWhile_append_of_pos hall, List.dropWhile_append_of_pos hall, htake.1, htake.2,
    List.append_nil]
  exact ⟨rfl, rfl⟩

theorem all_decimal (negative : Bool) (n : ℕ) : (decimal negative n).all isNumberChar := by
  have hdigits : (Nat.toDigits 10 n).all isNumberChar := List.all_eq_true.2 fun c hc ↦ by
    simp [isNumberChar, isDigit_toDigits c hc]
  cases negative with
  | true => exact List.all_cons.trans (by rw [hdigits]; rfl)
  | false => exact hdigits

/-! ### Items between brackets -/

variable {α : Type}

/-- A reader of an item: the item, and the text behind it. -/
abbrev ItemReader (α : Type) := List Char → Option (α × List Char)

/-- What follows an item: the closing bracket, or a comma and another item. -/
def more (item : ItemReader α) (close : Char) : ℕ → ItemReader (List α)
  | 0, _ => none
  | n + 1, cs =>
    match skip cs with
    | [] => none
    | c :: cs =>
      if c = close then some ([], cs)
      else if c = ',' then
        match item cs with
        | none => none
        | some (a, cs) => (more item close n cs).map fun p ↦ (a :: p.1, p.2)
      else none

/-- The items behind an opening bracket. -/
def items (item : ItemReader α) (close : Char) : ItemReader (List α) := fun cs ↦
  match skip cs with
  | [] => none
  | c :: rest =>
    if c = close then some ([], rest)
    else
      match item (c :: rest) with
      | none => none
      | some (a, rest) =>
        (more item close (rest.length + 1) rest).map fun p ↦ (a :: p.1, p.2)

/-- What follows an item, written. -/
def writeMore (write : α → List Char) (close : Char) (as : List α) : List Char :=
  as.flatMap (fun a ↦ ',' :: write a) ++ [close]

/-- The items, with commas in between, and the closing bracket. -/
def writeItems (write : α → List Char) (close : Char) : List α → List Char
  | [] => [close]
  | a :: as => write a ++ writeMore write close as

theorem writeItems_eq (write : α → List Char) (close : Char) (as : List α) :
    writeItems write close as = [','].intercalate (as.map write) ++ [close] := by
  cases as with
  | nil => rfl
  | cons a as =>
    induction as generalizing a with
    | nil => simp [writeItems, writeMore]
    | cons b as ih =>
      have hih := ih b
      simp only [writeItems, writeMore, List.map_cons, List.flatMap_cons, List.append_assoc,
        List.intercalate_cons_cons, List.cons_append] at hih ⊢
      rw [hih]
      rfl

section

variable {item : ItemReader α} {write : α → List Char} {close : Char} {as : List α}

theorem head?_writeMore (rest : List Char) :
    (writeMore write close as ++ rest).head? = some ',' ∨
      (writeMore write close as ++ rest).head? = some close := by
  cases as with
  | nil => exact .inr rfl
  | cons a as => exact .inl rfl

theorem more_writeMore (hclose : isSpace close = false) (hcomma : close ≠ ',')
    (h : ∀ a ∈ as, ∀ rest : List Char, rest.head? = some ',' ∨ rest.head? = some close →
      item (write a ++ rest) = some (a, rest)) (rest : List Char) {n : ℕ} (hn : as.length < n) :
    more item close n (writeMore write close as ++ rest) = some (as, rest) := by
  induction as generalizing n with
  | nil =>
    obtain ⟨n, rfl⟩ := Nat.exists_eq_succ_of_ne_zero (Nat.ne_of_gt (Nat.zero_lt_of_lt hn))
    simp only [writeMore, List.flatMap_nil, List.nil_append, List.singleton_append, more,
      skip_cons hclose, if_true]
  | cons a as ih =>
    obtain ⟨n, rfl⟩ := Nat.exists_eq_succ_of_ne_zero (Nat.ne_of_gt (Nat.zero_lt_of_lt hn))
    have hitem := h a List.mem_cons_self (writeMore write close as ++ rest) (head?_writeMore rest)
    have hih := ih (n := n) (fun b hb ↦ h b (List.mem_cons_of_mem _ hb)) (by simpa using hn)
    have hsplit : writeMore write close (a :: as) ++ rest =
        ',' :: (write a ++ (writeMore write close as ++ rest)) := by
      simp only [writeMore, List.flatMap_cons, List.cons_append, List.append_assoc]
    rw [hsplit, more, skip_cons rfl]
    simp only [if_neg hcomma.symm, if_true, hitem, hih, Option.map_some]

theorem length_le_flatMap (write : α → List Char) (as : List α) :
    as.length ≤ (as.flatMap fun a ↦ ',' :: write a).length := by
  induction as with
  | nil => exact Nat.zero_le _
  | cons a as ih =>
    rw [List.flatMap_cons, List.length_append, List.length_cons, List.length_cons]
    omega

/-- **The items read back**, where each of them does before a comma and before the closing bracket,
and none begins like the closing bracket or with white space. -/
theorem items_writeItems (hclose : isSpace close = false) (hcomma : close ≠ ',')
    (h : ∀ a ∈ as, ∀ rest : List Char, rest.head? = some ',' ∨ rest.head? = some close →
      item (write a ++ rest) = some (a, rest))
    (hhead : ∀ a ∈ as, ∃ c cs, write a = c :: cs ∧ isSpace c = false ∧ c ≠ close)
    (rest : List Char) :
    items item close (writeItems write close as ++ rest) = some (as, rest) := by
  cases as with
  | nil =>
    simp only [writeItems, List.singleton_append, items, skip_cons hclose, if_true]
  | cons a as =>
    obtain ⟨c, cs, hwrite, hspace, hne⟩ := hhead a List.mem_cons_self
    have hitem := h a List.mem_cons_self (writeMore write close as ++ rest) (head?_writeMore rest)
    have hmore := more_writeMore (n := (writeMore write close as ++ rest).length + 1) hclose hcomma
      (fun b hb ↦ h b (List.mem_cons_of_mem _ hb)) rest (by
        have hle := length_le_flatMap write as
        simp only [writeMore, List.length_append]
        omega)
    rw [hwrite] at hitem
    rw [writeItems, List.append_assoc, hwrite, List.cons_append, items, skip_cons hspace]
    rw [List.cons_append] at hitem
    simp only [if_neg hne, hitem, hmore, Option.map_some]

/-- Every item that was read was read from some text. -/
theorem forall_more {n : ℕ} {cs rest : List Char} (h : more item close n cs = some (as, rest)) :
    ∀ a ∈ as, ∃ cs rest, item cs = some (a, rest) := by
  induction n generalizing cs as with
  | zero => cases h
  | succ n ih =>
    rw [more] at h
    split at h
    · cases h
    · split_ifs at h
      · cases h
        exact fun a ha ↦ (by cases ha)
      · split at h
        · cases h
        case h_2 b cs' hb =>
          obtain ⟨⟨bs, rest'⟩, hmore, heq⟩ := Option.map_eq_some_iff.1 h
          cases heq
          exact List.forall_mem_cons.2 ⟨⟨_, _, hb⟩, ih hmore⟩

theorem forall_items {cs rest : List Char} (h : items item close cs = some (as, rest)) :
    ∀ a ∈ as, ∃ cs rest, item cs = some (a, rest) := by
  rw [items] at h
  split at h
  · cases h
  · split_ifs at h
    · cases h
      exact fun a ha ↦ (by cases ha)
    · split at h
      · cases h
      case h_2 b cs' hb =>
        obtain ⟨⟨bs, rest'⟩, hmore, heq⟩ := Option.map_eq_some_iff.1 h
        cases heq
        exact List.forall_mem_cons.2 ⟨⟨_, _, hb⟩, forall_more hmore⟩

end

end JsonText
