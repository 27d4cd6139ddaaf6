import Mathlib.Data.List.Basic
import Mathlib.Data.Nat.Notation

/-!
# UTF-8

A text as its bytes, and the reading that puts a replacement character for what is not UTF-8. The
reading gives back every text that was written: `utf8Lossy_utf8`. A byte of ASCII is read by itself
in any bytes: `lossyChars_append`.
-/

/-- The bytes of a text, `str::as_bytes`. -/
def utf8 (s : String) : List UInt8 := s.toList.flatMap String.utf8EncodeChar

/-- The character that the bytes begin with. -/
def utf8Char? (bs : List UInt8) : Option Char := bs.toByteArray.utf8DecodeChar? 0

/-- A continuation byte. -/
def isContinuation (b : UInt8) : Bool := 0x80 ≤ b && b ≤ 0xBF

/-- The second byte of a sequence of three or four bytes can follow the first. -/
def secondFollows (b c : UInt8) : Bool :=
  if b == 0xE0 then 0xA0 ≤ c && c ≤ 0xBF
  else if b == 0xED then 0x80 ≤ c && c ≤ 0x9F
  else if b == 0xF0 then 0x90 ≤ c && c ≤ 0xBF
  else if b == 0xF4 then 0x80 ≤ c && c ≤ 0x8F
  else 0xE1 ≤ b && b ≤ 0xF3 && isContinuation c

/-- How many bytes one replacement character stands for: the longest part that could have begun a
character, and at least one byte. -/
def replacedLength : List UInt8 → ℕ
  | b :: c :: rest =>
    if secondFollows b c then
      if 0xF0 ≤ b && (rest.head?.map isContinuation).getD false then 3 else 2
    else 1
  | _ => 1

/-- `String::from_utf8_lossy`, reading at most `fuel` characters. -/
def utf8LossyChars : ℕ → List UInt8 → List Char
  | 0, _ => []
  | _ + 1, [] => []
  | fuel + 1, b :: bs =>
    match utf8Char? (b :: bs) with
    | some c => c :: utf8LossyChars fuel ((b :: bs).drop c.utf8Size)
    | none => '\uFFFD' :: utf8LossyChars fuel ((b :: bs).drop (replacedLength (b :: bs)))

/-- `String::from_utf8_lossy`: every character takes at least one byte. -/
def utf8Lossy (bs : List UInt8) : String := .ofList (utf8LossyChars bs.length bs)

theorem utf8Char?_append (c : Char) (rest : List UInt8) :
    utf8Char? (String.utf8EncodeChar c ++ rest) = some c := by
  rw [utf8Char?, List.toByteArray_append]
  exact ByteArray.utf8DecodeChar?_utf8EncodeChar_append

theorem utf8EncodeChar_ne_nil (c : Char) : String.utf8EncodeChar c ≠ [] := fun h ↦ by
  have := String.length_utf8EncodeChar c
  rw [h] at this
  exact absurd this.symm (Nat.ne_of_gt c.utf8Size_pos)

theorem utf8LossyChars_flatMap {cs : List Char} {fuel : ℕ} (h : cs.length ≤ fuel) :
    utf8LossyChars fuel (cs.flatMap String.utf8EncodeChar) = cs := by
  induction cs generalizing fuel with
  | nil => cases fuel <;> rfl
  | cons c cs ih =>
    obtain ⟨fuel, rfl⟩ : ∃ n, fuel = n + 1 := ⟨fuel - 1, by rw [List.length_cons] at h; omega⟩
    rw [List.flatMap_cons]
    have hne : String.utf8EncodeChar c ++ cs.flatMap String.utf8EncodeChar ≠ [] := fun h ↦
      utf8EncodeChar_ne_nil c (List.append_eq_nil_iff.1 h).1
    obtain ⟨b, bs, hbs⟩ := List.exists_cons_of_ne_nil hne
    have hchar := utf8Char?_append c (cs.flatMap String.utf8EncodeChar)
    rw [hbs] at hchar ⊢
    rw [utf8LossyChars, hchar]
    show c :: utf8LossyChars fuel ((b :: bs).drop c.utf8Size) = _
    rw [← hbs, ← String.length_utf8EncodeChar, List.drop_left,
      ih (by rw [List.length_cons] at h; omega)]

theorem length_le_flatMap_utf8EncodeChar (cs : List Char) :
    cs.length ≤ (cs.flatMap String.utf8EncodeChar).length := by
  induction cs with
  | nil => exact Nat.le_refl _
  | cons c cs ih =>
    have := List.length_pos_iff.2 (utf8EncodeChar_ne_nil c)
    rw [List.flatMap_cons, List.length_append, List.length_cons]
    omega

/-- **Every text comes back** from its bytes. -/
theorem utf8Lossy_utf8 (s : String) : utf8Lossy (utf8 s) = s := by
  rw [utf8Lossy, utf8, utf8LossyChars_flatMap (length_le_flatMap_utf8EncodeChar _),
    String.ofList_toList]

/-! ### Bytes of ASCII -/

theorem utf8Char?_eq_some {bs : List UInt8} {c : Char} (h : utf8Char? bs = some c) :
    ∃ rest, bs = String.utf8EncodeChar c ++ rest := by
  obtain ⟨l, hl⟩ := ByteArray.exists_of_utf8DecodeChar?_eq_some h
  refine ⟨l.data.toList, ?_⟩
  have := congrArg (fun b : ByteArray ↦ b.data.toList) hl
  simpa using this

/-- A byte of ASCII is the whole of its character. -/
theorem utf8EncodeChar_eq_singleton_of_mem {b : UInt8} {c : Char}
    (h : b ∈ String.utf8EncodeChar c) (hb : b < 0x80) : String.utf8EncodeChar c = [b] := by
  have hor (x y : UInt8) (hy : 0x80 ≤ y) : ¬ x ||| y < 0x80 := by
    rw [UInt8.lt_iff_toNat_lt, UInt8.toNat_or]
    have hle := UInt8.le_iff_toNat_le.1 hy
    have := Nat.right_le_or (n := x.toNat) (m := y.toNat)
    omega
  have hsize := c.utf8Size_pos
  have hfour := c.utf8Size_le_four
  obtain hone | htwo | hthree | hfour : c.utf8Size = 1 ∨ c.utf8Size = 2 ∨ c.utf8Size = 3 ∨
      c.utf8Size = 4 := by omega
  · rw [String.utf8EncodeChar_eq_singleton hone, List.mem_singleton] at h
    rw [String.utf8EncodeChar_eq_singleton hone, h]
  · rw [String.utf8EncodeChar_eq_cons_cons htwo] at h
    simp only [List.mem_cons, List.not_mem_nil, or_false] at h
    rcases h with rfl | rfl <;> exact absurd hb (hor _ _ (by decide))
  · rw [String.utf8EncodeChar_eq_cons_cons_cons hthree] at h
    simp only [List.mem_cons, List.not_mem_nil, or_false] at h
    rcases h with rfl | rfl | rfl <;> exact absurd hb (hor _ _ (by decide))
  · rw [String.utf8EncodeChar_eq_cons_cons_cons_cons hfour] at h
    simp only [List.mem_cons, List.not_mem_nil, or_false] at h
    rcases h with rfl | rfl | rfl | rfl <;> exact absurd hb (hor _ _ (by decide))

theorem replacedLength_pos (bs : List UInt8) : 0 < replacedLength bs := by
  rw [replacedLength.eq_def]
  split
  · split
    · split <;> decide
    · decide
  · decide

/-- How much fuel there is does not matter, if there is enough. -/
theorem utf8LossyChars_fuel {n : ℕ} : ∀ {m : ℕ} {bs : List UInt8}, bs.length ≤ n → bs.length ≤ m →
    utf8LossyChars n bs = utf8LossyChars m bs := by
  induction n with
  | zero =>
    intro m bs h _
    rw [List.length_eq_zero_iff.1 (Nat.le_zero.1 h)]
    cases m <;> rfl
  | succ n ih =>
    intro m bs hn hm
    cases bs with
    | nil => cases m <;> rfl
    | cons b bs =>
      obtain ⟨m, rfl⟩ : ∃ k, m = k + 1 := ⟨m - 1, by rw [List.length_cons] at hm; omega⟩
      rw [List.length_cons] at hn hm
      have hdrop (k : ℕ) (hk : 0 < k) : utf8LossyChars n ((b :: bs).drop k) =
          utf8LossyChars m ((b :: bs).drop k) :=
        ih (by rw [List.length_drop, List.length_cons]; omega)
          (by rw [List.length_drop, List.length_cons]; omega)
      rw [utf8LossyChars, utf8LossyChars]
      cases utf8Char? (b :: bs) with
      | some c => exact congrArg _ (hdrop _ c.utf8Size_pos)
      | none => exact congrArg _ (hdrop _ (replacedLength_pos _))

/-- `utf8Lossy` as a list of characters. -/
def lossyChars (bs : List UInt8) : List Char := utf8LossyChars bs.length bs

theorem lossyChars_of_some {bs : List UInt8} {c : Char} (h : utf8Char? bs = some c) :
    lossyChars bs = c :: lossyChars (bs.drop c.utf8Size) := by
  obtain ⟨rest, rfl⟩ := utf8Char?_eq_some h
  obtain ⟨b, bs, hbs⟩ := List.exists_cons_of_ne_nil (utf8EncodeChar_ne_nil c)
  have hpos := c.utf8Size_pos
  rw [hbs, List.cons_append] at h ⊢
  rw [lossyChars, List.length_cons, utf8LossyChars, h]
  refine congrArg _ (utf8LossyChars_fuel ?_ (Nat.le_refl _))
  rw [List.length_drop, List.length_cons]
  omega

theorem lossyChars_of_none {b : UInt8} {bs : List UInt8} (h : utf8Char? (b :: bs) = none) :
    lossyChars (b :: bs) = '\uFFFD' :: lossyChars ((b :: bs).drop (replacedLength (b :: bs))) := by
  have hpos := replacedLength_pos (b :: bs)
  rw [lossyChars, List.length_cons, utf8LossyChars, h]
  refine congrArg _ (utf8LossyChars_fuel ?_ (Nat.le_refl _))
  rw [List.length_drop, List.length_cons]
  omega

theorem replacedLength_le {b : UInt8} (bs : List UInt8) :
    replacedLength (b :: bs) ≤ (b :: bs).length := by
  match bs with
  | [] => exact Nat.le_refl _
  | [c] =>
    simp only [replacedLength, List.head?_nil, Option.map_none, Option.getD_none, Bool.and_false,
      Bool.false_eq_true, if_false, List.length_cons, List.length_nil]
    split <;> omega
  | c :: d :: rest =>
    simp only [replacedLength, List.length_cons]
    split
    · split <;> omega
    · omega

/-- A byte of ASCII goes on with nothing. -/
theorem not_continuation {k m : UInt8} (hk : k < 0x80) (hm : 0x80 ≤ m) :
    decide (m ≤ k) = false := by
  rw [UInt8.lt_iff_toNat_lt] at hk
  rw [UInt8.le_iff_toNat_le] at hm
  exact decide_eq_false fun h ↦ by
    rw [UInt8.le_iff_toNat_le] at h
    omega

theorem not_secondFollows {b k : UInt8} (hk : k < 0x80) : secondFollows b k = false := by
  have hlow := not_continuation hk (Nat.le_refl _)
  have hmid := not_continuation (m := 0x90) hk (by decide)
  have hhigh := not_continuation (m := 0xA0) hk (by decide)
  simp [secondFollows, isContinuation, hlow, hmid, hhigh]

theorem replacedLength_append {b : UInt8} {k : UInt8} (hk : k < 0x80) (a rest : List UInt8) :
    replacedLength (b :: a ++ k :: rest) = replacedLength (b :: a) := by
  match a with
  | [] => simp [replacedLength, not_secondFollows hk]
  | [c] =>
    have hcont : isContinuation k = false := by
      rw [isContinuation, not_continuation hk (Nat.le_refl _), Bool.false_and]
    simp [replacedLength, hcont]
  | c :: d :: a => simp [replacedLength]

/-- **A byte of ASCII is read by itself**, whatever stands around it. -/
theorem lossyChars_append {c : Char} {k : UInt8} (hc : String.utf8EncodeChar c = [k])
    (hk : k < 0x80) (rest : List UInt8) (n : ℕ) : ∀ {a : List UInt8}, a.length ≤ n →
      lossyChars (a ++ k :: rest) = lossyChars a ++ c :: lossyChars rest := by
  have hsize : c.utf8Size = 1 := by rw [← String.length_utf8EncodeChar, hc]; rfl
  have hfirst : utf8Char? (k :: rest) = some c := by
    have := utf8Char?_append c rest
    rwa [hc] at this
  have hnil : lossyChars (k :: rest) = c :: lossyChars rest := by
    rw [lossyChars_of_some hfirst, hsize]
    rfl
  induction n with
  | zero =>
    intro a h
    rw [List.length_eq_zero_iff.1 (Nat.le_zero.1 h)]
    exact hnil
  | succ n ih =>
    intro a h
    cases a with
    | nil => exact hnil
    | cons b a =>
      cases hfull : utf8Char? (b :: a ++ k :: rest) with
      | some d =>
        obtain ⟨rest', hrest⟩ := utf8Char?_eq_some hfull
        have hprefix : String.utf8EncodeChar d <+: b :: a ++ k :: rest := ⟨rest', hrest.symm⟩
        by_cases hle : (String.utf8EncodeChar d).length ≤ (b :: a).length
        · obtain ⟨a', ha'⟩ := List.prefix_of_prefix_length_le hprefix (List.prefix_append _ _) hle
          have hpos := d.utf8Size_pos
          have hlen := congrArg List.length ha'
          rw [List.length_append, String.length_utf8EncodeChar] at hlen
          rw [lossyChars_of_some hfull, ← ha', lossyChars_of_some (utf8Char?_append d a'),
            List.append_assoc, ← String.length_utf8EncodeChar, List.drop_left, List.drop_left,
            ih (by omega), List.cons_append]
        · have hmem : k ∈ String.utf8EncodeChar d := by
            have hkprefix : b :: a ++ [k] <+: b :: a ++ k :: rest := ⟨rest, by simp⟩
            refine (List.prefix_of_prefix_length_le hkprefix hprefix ?_).subset (by simp)
            rw [List.length_append, List.length_singleton]
            omega
          rw [utf8EncodeChar_eq_singleton_of_mem hmem hk, List.length_cons, List.length_cons] at hle
          exact absurd (by simp) hle
      | none =>
        have hpart : utf8Char? (b :: a) = none := by
          cases hsome : utf8Char? (b :: a) with
          | none => rfl
          | some d =>
            obtain ⟨a', ha'⟩ := utf8Char?_eq_some hsome
            rw [ha', List.append_assoc, utf8Char?_append] at hfull
            cases hfull
        have hle := replacedLength_le (b := b) a
        have hpos := replacedLength_pos (b :: a)
        rw [lossyChars_of_none hpart]
        rw [List.cons_append] at hfull ⊢
        rw [lossyChars_of_none hfull, ← List.cons_append, replacedLength_append hk,
          List.drop_append_of_le_length hle, ih, List.cons_append]
        rw [List.length_drop]
        omega

/-- A character of ASCII that is read was there. -/
theorem mem_of_mem_lossyChars {c : Char} {k : UInt8} (hc : String.utf8EncodeChar c = [k]) (n : ℕ) :
    ∀ {bs : List UInt8}, bs.length ≤ n → c ∈ lossyChars bs → k ∈ bs := by
  induction n with
  | zero =>
    intro bs h hmem
    rw [List.length_eq_zero_iff.1 (Nat.le_zero.1 h)] at hmem
    cases hmem
  | succ n ih =>
    intro bs h hmem
    cases bs with
    | nil => cases hmem
    | cons b bs =>
      cases hchar : utf8Char? (b :: bs) with
      | some d =>
        rw [lossyChars_of_some hchar] at hmem
        obtain rfl | hmem := List.mem_cons.1 hmem
        · obtain ⟨rest, hrest⟩ := utf8Char?_eq_some hchar
          rw [hrest, hc]
          exact List.mem_cons_self
        · have hpos := d.utf8Size_pos
          refine List.mem_of_mem_drop (ih ?_ hmem)
          rw [List.length_drop]
          omega
      | none =>
        rw [lossyChars_of_none hchar] at hmem
        obtain rfl | hmem := List.mem_cons.1 hmem
        · cases hc
        · have hpos := replacedLength_pos (b :: bs)
          refine List.mem_of_mem_drop (ih ?_ hmem)
          rw [List.length_drop]
          omega
