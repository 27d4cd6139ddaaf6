import Mathlib.Data.List.Induction
import Mathlib.Data.Nat.Notation
import Mathlib.Tactic.Ring

/-!
# Digits in groups of another size

Digits of `a` bits that are regrouped into digits of `b` bits, most significant first, with a buffer
in between. What the digits mean is a number (`value`), and `Holds` says how far the regrouping is:
what went in is what came out, and what the buffer still holds. A digit goes in with `take`, one
comes out with `give`. Lists of digits of one length are told apart by their numbers (`value_inj`),
so that two regroupings that undo each other's lengths undo each other.
-/

namespace Regroup

/-- The number that digits of `w` bits write. -/
def value (w : ℕ) (ds : List ℕ) : ℕ := ds.foldl (fun n d ↦ n * 2 ^ w + d) 0

variable {a b w n d buffer bits : ℕ} {ins outs ds es : List ℕ}

@[simp] theorem value_concat (ds : List ℕ) (d : ℕ) :
    value w (ds ++ [d]) = value w ds * 2 ^ w + d := by
  rw [value, List.foldl_append]
  rfl

/-- **Digits are told apart by the number they write**, if there are as many. -/
theorem value_inj (hlen : ds.length = es.length) (hd : ∀ d ∈ ds, d < 2 ^ w)
    (he : ∀ e ∈ es, e < 2 ^ w) (h : value w ds = value w es) : ds = es := by
  induction ds using List.reverseRecOn generalizing es with
  | nil => exact (List.eq_nil_of_length_eq_zero hlen.symm).symm
  | append_singleton ds d ih =>
    cases es using List.reverseRecOn with
    | nil => simp at hlen
    | append_singleton es e =>
      have hdlt := hd d (List.mem_append_right _ List.mem_cons_self)
      have helt := he e (List.mem_append_right _ List.mem_cons_self)
      rw [value_concat, value_concat] at h
      have hlast : d = e := by
        rw [← Nat.mul_add_mod_of_lt hdlt, h, Nat.mul_add_mod_of_lt helt]
      have hfront : value w ds = value w es := by
        rw [hlast] at h
        exact Nat.eq_of_mul_eq_mul_right (Nat.two_pow_pos w) (Nat.add_right_cancel h)
      have hlen' : ds.length = es.length := by simpa using hlen
      rw [hlast, ih hlen' (fun d h ↦ hd d (List.mem_append_left _ h))
        (fun e h ↦ he e (List.mem_append_left _ h)) hfront]

/-- What went in is what came out, and the last `bits` bits of the buffer. -/
structure Holds (a b : ℕ) (ins outs : List ℕ) (buffer bits : ℕ) : Prop where
  value : value a ins = value b outs * 2 ^ bits + buffer % 2 ^ bits
  length : a * ins.length = b * outs.length + bits

namespace Holds

theorem start : Holds a b [] [] 0 0 := ⟨rfl, rfl⟩

/-- A digit goes in. -/
theorem take (h : Holds a b ins outs buffer bits) (hd : d < 2 ^ a) :
    Holds a b (ins ++ [d]) outs (buffer * 2 ^ a + d) (bits + a) := by
  constructor
  · have hmod : (buffer * 2 ^ a + d) % 2 ^ a = d := Nat.mul_add_mod_of_lt hd
    have hdiv : (buffer * 2 ^ a + d) / 2 ^ a = buffer := by
      rw [Nat.mul_comm, Nat.mul_add_div (Nat.two_pow_pos a), Nat.div_eq_of_lt hd, Nat.add_zero]
    rw [value_concat, h.value, Nat.add_comm bits a, Nat.pow_add, Nat.mod_mul, hmod, hdiv]
    ring
  · rw [List.length_append, List.length_singleton, Nat.mul_succ, h.length, Nat.add_assoc]

/-- A digit comes out. -/
theorem give (h : Holds a b ins outs buffer (n + b)) :
    Holds a b ins (outs ++ [buffer / 2 ^ n % 2 ^ b]) buffer n := by
  constructor
  · rw [value_concat, h.value, Nat.pow_add, Nat.mod_mul]
    ring
  · rw [List.length_append, List.length_singleton, Nat.mul_succ, h.length]
    omega

/-- Bits that are out already may be cleared. -/
theorem mask (h : Holds a b ins outs buffer bits) : Holds a b ins outs (buffer % 2 ^ bits) bits :=
  ⟨by rw [Nat.mod_mod, h.value], h.length⟩

/-- A last digit that is filled up with zeros. -/
theorem pad (h : Holds a b ins outs buffer bits) (hlt : buffer < 2 ^ bits) (hn : bits + n = b) :
    Regroup.value b (outs ++ [buffer * 2 ^ n]) = Regroup.value a ins * 2 ^ n ∧
      b * (outs ++ [buffer * 2 ^ n]).length = a * ins.length + n := by
  constructor
  · rw [value_concat, h.value, Nat.mod_eq_of_lt hlt, ← hn, Nat.pow_add]
    ring
  · rw [List.length_append, List.length_singleton, Nat.mul_succ, h.length]
    omega

end Holds

end Regroup
