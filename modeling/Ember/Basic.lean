import Mathlib.Algebra.Ring.Nat

/-!
# Shared vocabulary

Clock readings and the wrap of a 32-bit counter, as the subsystems of the repository share them.
Time is an input everywhere in the source, so an instant is only a number of milliseconds.
-/

namespace Ember

/-- `std::time::Instant`, in milliseconds from an arbitrary origin. -/
abbrev Instant := ℕ

/-- `std::time::Duration`, in milliseconds. -/
abbrev Duration := ℕ

/-- `Instant::duration_since`: zero when `earlier` is in the future. -/
def durationSince (now earlier : Instant) : Duration := now - earlier

/-- A `u32` result: arithmetic wraps, as it does in a release build. -/
def wrap32 (n : ℕ) : ℕ := n % 2 ^ 32

theorem wrap32_of_lt {n : ℕ} (h : n < 2 ^ 32) : wrap32 n = n :=
  Nat.mod_eq_of_lt h

/-- `char::is_whitespace`: the Unicode property `White_Space`. -/
def isWhitespace (c : Char) : Bool :=
  let n := c.toNat
  9 ≤ n && n ≤ 13 || n == 0x20 || n == 0x85 || n == 0xA0 || n == 0x1680 ||
    0x2000 ≤ n && n ≤ 0x200A || n == 0x2028 || n == 0x2029 || n == 0x202F || n == 0x205F ||
    n == 0x3000

theorem isWhitespace_of_id {c : Char} (h : c.isAlphanum ∨ c = '-') : isWhitespace c = false := by
  have hrange : c.toNat = 45 ∨ 48 ≤ c.toNat ∧ c.toNat ≤ 57 ∨ 65 ≤ c.toNat ∧ c.toNat ≤ 90 ∨
      97 ≤ c.toNat ∧ c.toNat ≤ 122 := by
    obtain h | rfl := h
    · have hnat : c.toNat = c.val.toNat := rfl
      delta Char.isAlphanum Char.isAlpha Char.isUpper Char.isLower Char.isDigit at h
      simp only [Bool.or_eq_true, Bool.and_eq_true, decide_eq_true_eq, ge_iff_le,
        UInt32.le_iff_toNat_le, Char.reduceVal, UInt32.reduceToNat] at h
      omega
    · exact .inl rfl
  simp only [isWhitespace, Bool.or_eq_false_iff, Bool.and_eq_false_iff, decide_eq_false_iff_not,
    beq_eq_false_iff_ne]
  omega

/-- `str::trim`. -/
def trim (s : String) : String :=
  .ofList ((s.toList.dropWhile isWhitespace).reverse.dropWhile isWhitespace).reverse

end Ember
