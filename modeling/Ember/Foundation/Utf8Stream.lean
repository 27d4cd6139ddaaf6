import Ember.Foundation.Transducer
import Ember.Foundation.Utf8

/-!
# UTF-8 byte by byte

A decoder that is fed a stream as it arrives: it keeps the bytes of a character that is not
complete. The bytes of a text may be cut anywhere, and what was decoded is a part of the text:
`decodeUtf8_isPrefix`.
-/

/-- The bytes begin a character and are not all of it. -/
def isPartial : List UInt8 → Bool
  | [b] => 0xC2 ≤ b && b ≤ 0xF4
  | [b, c] => 0xE0 ≤ b && secondFollows b c
  | [b, c, d] => 0xF0 ≤ b && secondFollows b c && isContinuation d
  | _ => false

/-- One more byte: the characters that it gives, and what is kept. -/
def decodeByte (held : List UInt8) (b : UInt8) : List Char × List UInt8 :=
  match utf8Char? (held ++ [b]) with
  | some c => ([c], [])
  | none =>
    if isPartial (held ++ [b]) then ([], held ++ [b])
    else if held = [] then (['\uFFFD'], [])
    else
      -- The byte does not go on with what is kept, so it is read by itself.
      match utf8Char? [b] with
      | some c => (['\uFFFD', c], [])
      | none => if isPartial [b] then (['\uFFFD'], [b]) else (['\uFFFD', '\uFFFD'], [])

/-- Decoding what arrives. -/
def decodeUtf8 : List UInt8 → List UInt8 → List Char × List UInt8 := transduce decodeByte

variable {held bs bs' : List UInt8} {c : Char}

/-! ### A part of a character -/

/-- A part of a character is none. -/
theorem utf8Char?_eq_none_of_part (h : bs ++ bs' = String.utf8EncodeChar c) (hne : bs' ≠ []) :
    utf8Char? bs = none := by
  refine Option.eq_none_iff_forall_ne_some.2 fun d hd ↦ hne ?_
  have hwhole : utf8Char? (String.utf8EncodeChar c) = some d := by
    rw [← h, utf8Char?, List.toByteArray_append]
    exact ByteArray.utf8DecodeChar?_append_eq_some hd _
  have hself : utf8Char? (String.utf8EncodeChar c) = some c := by
    rw [← List.append_nil (String.utf8EncodeChar c), utf8Char?_append]
  obtain rfl : d = c := Option.some.inj (hwhole.symm.trans hself)
  have hsize : d.utf8Size ≤ bs.length := by
    have hle := ByteArray.le_size_of_utf8DecodeChar?_eq_some hd
    rwa [List.size_toByteArray, Nat.zero_add] at hle
  have hlength := congrArg List.length h
  rw [List.length_append, String.length_utf8EncodeChar] at hlength
  exact List.length_eq_zero_iff.1 (by omega)

theorem ofNat_le_ofNat {m n : ℕ} (hn : n < 256) (h : m ≤ n) : UInt8.ofNat m ≤ UInt8.ofNat n := by
  rw [UInt8.le_iff_toNat_le, UInt8.toNat_ofNat', UInt8.toNat_ofNat']
  omega

/-- Unicode's table of well-formed sequences. -/
theorem secondFollows_ofNat {a b : ℕ} (ha : a < 256) (hb : b < 256)
    (h : a = 0xE0 ∧ 0xA0 ≤ b ∧ b ≤ 0xBF ∨ a = 0xED ∧ 0x80 ≤ b ∧ b ≤ 0x9F ∨
      a = 0xF0 ∧ 0x90 ≤ b ∧ b ≤ 0xBF ∨ a = 0xF4 ∧ 0x80 ≤ b ∧ b ≤ 0x8F ∨
      (0xE1 ≤ a ∧ a ≤ 0xF3 ∧ a ≠ 0xED ∧ a ≠ 0xF0) ∧ 0x80 ≤ b ∧ b ≤ 0xBF) :
    secondFollows (.ofNat a) (.ofNat b) = true := by
  have hle : ∀ {m n : ℕ}, n < 256 → m ≤ n → decide (UInt8.ofNat m ≤ UInt8.ofNat n) = true :=
    fun hn h ↦ decide_eq_true (ofNat_le_ofNat hn h)
  have hne : ∀ {m : ℕ}, m < 256 → a ≠ m → (UInt8.ofNat a == UInt8.ofNat m) = false := by
    intro m hm h
    refine beq_eq_false_iff_ne.2 fun heq ↦ h ?_
    have hnat := congrArg UInt8.toNat heq
    rw [UInt8.toNat_ofNat', UInt8.toNat_ofNat'] at hnat
    omega
  rw [secondFollows, isContinuation]
  rcases h with ⟨rfl, hlo, hhi⟩ | ⟨rfl, hlo, hhi⟩ | ⟨rfl, hlo, hhi⟩ | ⟨rfl, hlo, hhi⟩ |
    ⟨⟨ha, ha', hed, hf0⟩, hlo, hhi⟩
  · exact Bool.and_eq_true_iff.2 ⟨hle hb hlo, hle (by decide) hhi⟩
  · exact Bool.and_eq_true_iff.2 ⟨hle hb hlo, hle (by decide) hhi⟩
  · exact Bool.and_eq_true_iff.2 ⟨hle hb hlo, hle (by decide) hhi⟩
  · exact Bool.and_eq_true_iff.2 ⟨hle hb hlo, hle (by decide) hhi⟩
  · have h₁ : (UInt8.ofNat a == 0xE0) = false := hne (m := 0xE0) (by decide) (by omega)
    have h₂ : (UInt8.ofNat a == 0xED) = false := hne (m := 0xED) (by decide) hed
    have h₃ : (UInt8.ofNat a == 0xF0) = false := hne (m := 0xF0) (by decide) hf0
    have h₄ : (UInt8.ofNat a == 0xF4) = false := hne (m := 0xF4) (by decide) (by omega)
    simp only [h₁, h₂, h₃, h₄, Bool.false_eq_true, if_false, Bool.and_eq_true]
    exact ⟨⟨hle ‹_› ha, hle (by decide) ha'⟩, hle hb hlo, hle (by decide) hhi⟩

/-- The bytes of a character in Unicode's table of well-formed sequences. -/
theorem isPartial_take {n : ℕ} (hpos : 0 < n) (hn : n < c.utf8Size) :
    isPartial ((String.utf8EncodeChar c).take n) = true := by
  have hvalid := c.valid
  simp only [UInt32.isValidChar, Nat.isValidChar] at hvalid
  have hsize : c.utf8Size = if c.val.toNat ≤ 0x7F then 1 else if c.val.toNat ≤ 0x7FF then 2
      else if c.val.toNat ≤ 0xFFFF then 3 else 4 := rfl
  rw [hsize] at hn
  rw [String.utf8EncodeChar.eq_def]
  simp only
  generalize c.val.toNat = v at hvalid hn
  have hle : ∀ {m n : ℕ}, n < 256 → m ≤ n → decide (UInt8.ofNat m ≤ UInt8.ofNat n) = true :=
    fun hn h ↦ decide_eq_true (ofNat_le_ofNat hn h)
  split at hn
  · omega
  · rw [if_neg (by assumption)]
    split at hn
    · obtain rfl : n = 1 := by omega
      rw [if_pos (by assumption)]
      exact Bool.and_eq_true_iff.2 ⟨hle (m := 0xC2) (by omega) (by omega),
        hle (n := 0xF4) (by decide) (by omega)⟩
    · rw [if_neg (by assumption)]
      split at hn
      · rw [if_pos (by assumption)]
        obtain rfl | rfl : n = 1 ∨ n = 2 := by omega
        · exact Bool.and_eq_true_iff.2 ⟨hle (m := 0xC2) (by omega) (by omega),
            hle (n := 0xF4) (by decide) (by omega)⟩
        · exact Bool.and_eq_true_iff.2 ⟨hle (m := 0xE0) (by omega) (by omega),
            secondFollows_ofNat (by omega) (by omega) (by omega)⟩
      · rw [if_neg (by assumption)]
        obtain rfl | rfl | rfl : n = 1 ∨ n = 2 ∨ n = 3 := by omega
        · exact Bool.and_eq_true_iff.2 ⟨hle (m := 0xC2) (by omega) (by omega),
            hle (n := 0xF4) (by decide) (by omega)⟩
        · exact Bool.and_eq_true_iff.2 ⟨hle (m := 0xE0) (by omega) (by omega),
            secondFollows_ofNat (by omega) (by omega) (by omega)⟩
        · refine Bool.and_eq_true_iff.2 ⟨Bool.and_eq_true_iff.2
            ⟨hle (m := 0xF0) (by omega) (by omega),
              secondFollows_ofNat (by omega) (by omega) (by omega)⟩, ?_⟩
          exact Bool.and_eq_true_iff.2 ⟨hle (m := 0x80) (by omega) (by omega),
            hle (n := 0xBF) (by decide) (by omega)⟩

/-! ### Texts -/

/-- The bytes of a character that have arrived are kept. -/
theorem decodeUtf8_part (hpos : 0 < bs'.length) (h : held ++ bs ++ bs' = String.utf8EncodeChar c) :
    decodeUtf8 held bs = ([], held ++ bs) := by
  induction bs generalizing held with
  | nil => rw [decodeUtf8, transduce, List.append_nil]
  | cons b bs ih =>
    have hbyte : decodeByte held b = ([], held ++ [b]) := by
      have hsplit : held ++ [b] ++ (bs ++ bs') = String.utf8EncodeChar c := by
        rw [← h]
        simp only [List.append_assoc, List.cons_append, List.nil_append]
      have hnone := utf8Char?_eq_none_of_part hsplit
        (List.append_ne_nil_of_right_ne_nil _ (List.length_pos_iff.1 hpos))
      have hpart : isPartial (held ++ [b]) = true := by
        have htake : (String.utf8EncodeChar c).take (held ++ [b]).length = held ++ [b] := by
          rw [← hsplit, List.take_left]
        rw [← htake]
        refine isPartial_take (by simp) ?_
        have hlength := congrArg List.length hsplit
        simp only [String.length_utf8EncodeChar, List.length_append] at hlength ⊢
        omega
      rw [decodeByte, hnone]
      simp only [hpart, if_true]
    have hrest : transduce decodeByte (held ++ [b]) bs = ([], held ++ [b] ++ bs) :=
      ih (by rw [← h]; simp)
    rw [decodeUtf8, transduce, hbyte]
    simp only [hrest, List.append_assoc, List.cons_append, List.nil_append]

/-- A character whose bytes have all arrived is decoded. -/
theorem decodeUtf8_utf8EncodeChar (c : Char) :
    decodeUtf8 [] (String.utf8EncodeChar c) = ([c], []) := by
  obtain ⟨init, b, h⟩ : ∃ init b, String.utf8EncodeChar c = init ++ [b] :=
    ⟨_, _, (List.dropLast_append_getLast (utf8EncodeChar_ne_nil c)).symm⟩
  have hinit : decodeUtf8 [] init = ([], init) :=
    decodeUtf8_part (List.length_pos_iff.2 (List.cons_ne_nil b [])) h.symm
  have hlast : decodeByte init b = ([c], []) := by
    have hchar := utf8Char?_append c []
    rw [List.append_nil, h] at hchar
    rw [decodeByte, hchar]
  rw [decodeUtf8] at hinit ⊢
  rw [h, transduce_concat, hinit]
  simp only [hlast, List.nil_append]

/-- **A text comes out as it went in.** -/
theorem decodeUtf8_text (cs : List Char) :
    decodeUtf8 [] (cs.flatMap String.utf8EncodeChar) = (cs, []) := by
  induction cs with
  | nil => rfl
  | cons c cs ih =>
    have hc := decodeUtf8_utf8EncodeChar c
    rw [decodeUtf8] at hc ih ⊢
    rw [List.flatMap_cons, transduce_append, hc]
    simp only [ih, List.singleton_append]

/-- **What was decoded of a text** is a part of it, wherever its bytes were cut. -/
theorem decodeUtf8_isPrefix {cs : List Char} (h : bs <+: cs.flatMap String.utf8EncodeChar) :
    (decodeUtf8 [] bs).1 <+: cs := by
  have hpre := transduce_mono decodeByte [] h
  have htext := decodeUtf8_text cs
  rw [decodeUtf8] at htext ⊢
  rwa [htext] at hpre
