import Mathlib.Algebra.Ring.Nat
import Mathlib.Data.List.Basic
import Mathlib.Data.Nat.Notation

/-!
# Readers

A reader takes what it needs from the front of its input and leaves the rest, or fails. `Reads` says
that it reads one value from its encoding, whatever follows; readers that run one after the other
read the concatenated encodings.
-/

/-- A reader of `α` from a list of `β`. -/
abbrev Reader (ε β α : Type) := StateT (List β) (Except ε) α

namespace Reader

variable {ε β α γ : Type}

/-- The reader takes exactly `bs`, and returns `a`, whatever follows. -/
def Reads (r : Reader ε β α) (bs : List β) (a : α) : Prop :=
  ∀ rest, r.run (bs ++ rest) = .ok (a, rest)

theorem reads_pure (a : α) : Reads (pure a : Reader ε β α) [] a := fun _ ↦ rfl

theorem Reads.bind {r : Reader ε β α} {f : α → Reader ε β γ} {bs cs : List β} {a : α} {c : γ}
    (h : Reads r bs a) (h' : Reads (f a) cs c) : Reads (r >>= f) (bs ++ cs) c := by
  intro rest
  rw [StateT.run_bind, List.append_assoc, h]
  exact h' rest

/-- A reader whose value is then passed on. -/
theorem Reads.map {r : Reader ε β α} {bs : List β} {a : α} (h : Reads r bs a) (f : α → γ) :
    Reads (r >>= fun x ↦ pure (f x)) bs (f a) := by
  have := h.bind (f := fun x ↦ pure (f x)) (reads_pure (f a))
  rwa [List.append_nil] at this

theorem Reads.run_eq {r : Reader ε β α} {bs : List β} {a : α} (h : Reads r bs a) :
    r.run bs = .ok (a, []) := by
  have := h []
  rwa [List.append_nil] at this

/-! ### Counted input -/

/-- The next `n` items, or the failure `e` when there are fewer. -/
def take (e : ε) (n : ℕ) : Reader ε β (List β) := fun bs ↦
  if n ≤ bs.length then .ok (bs.take n, bs.drop n) else .error e

theorem reads_take (e : ε) (bs : List β) : Reads (take e bs.length) bs bs := by
  intro rest
  show take e bs.length (bs ++ rest) = _
  rw [take, if_pos (by rw [List.length_append]; exact Nat.le_add_right ..), List.take_left,
    List.drop_left]

/-- The next item. -/
def next (e : ε) : Reader ε β β := fun bs ↦
  match bs with
  | [] => .error e
  | b :: bs => .ok (b, bs)

theorem reads_next (e : ε) (b : β) : Reads (next e) [b] b := fun _ ↦ rfl

/-- `n` values, one after the other. -/
def times (r : Reader ε β α) : ℕ → Reader ε β (List α)
  | 0 => pure []
  | n + 1 => do
    let a ← r
    let as ← times r n
    pure (a :: as)

theorem reads_times {r : Reader ε β α} {enc : α → List β} {as : List α}
    (h : ∀ a ∈ as, Reads r (enc a) a) : Reads (times r as.length) (as.flatMap enc) as := by
  induction as with
  | nil => exact reads_pure _
  | cons a as ih =>
    obtain ⟨ha, has⟩ := List.forall_mem_cons.1 h
    exact ha.bind ((ih has).map (a :: ·))

end Reader

/-! ### Big-endian integers -/

/-- `u32::to_be_bytes`. -/
def be32 (n : ℕ) : List UInt8 :=
  [UInt8.ofNat (n / 2 ^ 24), UInt8.ofNat (n / 2 ^ 16), UInt8.ofNat (n / 2 ^ 8), UInt8.ofNat n]

/-- `u32::from_be_bytes`. -/
def ofBe32 (bs : List UInt8) : ℕ := bs.foldl (fun n b ↦ n * 2 ^ 8 + b.toNat) 0

theorem ofBe32_be32 {n : ℕ} (h : n < 2 ^ 32) : ofBe32 (be32 n) = n := by
  simp only [ofBe32, be32, List.foldl_cons, List.foldl_nil, UInt8.toNat_ofNat']
  omega
