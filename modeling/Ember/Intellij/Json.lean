import Mathlib.Data.Rat.Defs

/-!
# JSON values in the IntelliJ plugin

`json/Json.kt`: integral numbers are `Long`s where they fit and `Double`s otherwise, and objects are
maps in insertion order. A `Double` is carried as what it is: a whole number, an infinity (a number
that is too large reads as one) or a fraction.

`norm` is `CellReconciler`'s, by which numbers compare by value whatever their boxed type. It sends a
whole `Double` through `toLong`, which saturates, so it is right only for numbers in the range of
`Long` (`InRange`); `plain` is the same without that.
-/

namespace Ember.Intellij

/-- A `Double` that is a number. -/
inductive Dbl
  | whole (n : ℤ)
  | infinite (negative : Bool)
  | fraction (q : ℚ)
  deriving DecidableEq

/-- A decoded JSON value. -/
inductive JsonValue
  | null
  | bool (b : Bool)
  | long (n : ℤ)
  | double (d : Dbl)
  | str (s : String)
  | arr (elems : List JsonValue)
  | obj (fields : List (String × JsonValue))

/-- `Long.MIN_VALUE`. -/
def minLong : ℤ := -9223372036854775808

/-- `Long.MAX_VALUE`. -/
def maxLong : ℤ := 9223372036854775807

namespace Dbl

/-- `Double.toLong`: it saturates. -/
def toLong : Dbl → ℤ
  | whole n => max minLong (min maxLong n)
  | infinite negative => if negative then minLong else maxLong
  | fraction q => max minLong (min maxLong (if 0 ≤ q then q.floor else q.ceil))

/-- `norm` of a `Double`: whole ones (and infinities, which `Math.rint` leaves alone) become `Long`s. -/
def norm (d : Dbl) : JsonValue :=
  match d with
  | whole _ | infinite _ => .long d.toLong
  | fraction _ => .double d

/-- A whole `Double` as an integer. -/
def plain : Dbl → JsonValue
  | whole n => .long n
  | d => .double d

/-- Not beyond what a `Long` holds. -/
def inRange : Dbl → Bool
  | whole n => minLong ≤ n && n ≤ maxLong
  | infinite _ => false
  | fraction _ => true

theorem norm_eq_plain {d : Dbl} (h : d.inRange) : d.norm = d.plain := by
  cases d with
  | whole n =>
    obtain ⟨hmin, hmax⟩ := by simpa [inRange] using h
    have hsame : max minLong (min maxLong n) = n := by omega
    simp only [norm, plain, toLong, hsame]
  | infinite negative => cases h
  | fraction q => rfl

end Dbl

variable {v : JsonValue}

namespace JsonValue

section

variable (f : Dbl → JsonValue)

mutual

/-- Replace the `Double`s of a value. -/
def mapDouble : JsonValue → JsonValue
  | double d => f d
  | arr elems => .arr (mapElems elems)
  | obj fields => .obj (mapFields fields)
  | v => v

/-- The same for the elements of a list. -/
def mapElems : List JsonValue → List JsonValue
  | [] => []
  | v :: rest => v.mapDouble :: mapElems rest

/-- The same for the values of a map. -/
def mapFields : List (String × JsonValue) → List (String × JsonValue)
  | [] => []
  | (k, v) :: rest => (k, v.mapDouble) :: mapFields rest

end

end

mutual

/-- Kotlin's `==`: maps are compared whatever their order. -/
def eqv : JsonValue → JsonValue → Bool
  | null, null => true
  | bool a, bool b => a == b
  | long a, long b => a == b
  | double a, double b => a == b
  | str a, str b => a == b
  | arr a, arr b => eqvElems a b
  | obj a, obj b => a.length == b.length && eqvFields a b
  | _, _ => false

/-- The same for lists. -/
def eqvElems : List JsonValue → List JsonValue → Bool
  | [], [] => true
  | a :: as, b :: bs => a.eqv b && eqvElems as bs
  | _, _ => false

/-- Every field of the first is one of the second. -/
def eqvFields : List (String × JsonValue) → List (String × JsonValue) → Bool
  | [], _ => true
  | (k, v) :: rest, b =>
    (match b.lookup k with
      | some v' => v.eqv v'
      | none => false) && eqvFields rest b

end

mutual

/-- A check of every `Double` of a value. -/
def allDouble (p : Dbl → Bool) : JsonValue → Bool
  | double d => p d
  | arr elems => allElems p elems
  | obj fields => allFields p fields
  | _ => true

/-- The same for the elements of a list. -/
def allElems (p : Dbl → Bool) : List JsonValue → Bool
  | [] => true
  | v :: rest => v.allDouble p && allElems p rest

/-- The same for the values of a map. -/
def allFields (p : Dbl → Bool) : List (String × JsonValue) → Bool
  | [] => true
  | (_, v) :: rest => v.allDouble p && allFields p rest

end

/-- `norm`. -/
def norm : JsonValue → JsonValue := mapDouble Dbl.norm

/-- Numbers as what they are, whatever their boxed type. -/
def plain : JsonValue → JsonValue := mapDouble Dbl.plain

/-- No number beyond what a `Long` holds. -/
def inRange : JsonValue → Bool := allDouble Dbl.inRange

mutual

/-- No map of the value has a key twice, as no Kotlin map has. -/
def keyed : JsonValue → Bool
  | arr elems => keyedElems elems
  | obj fields => decide (fields.map Prod.fst).Nodup && keyedFields fields
  | _ => true

/-- The same for the elements of a list. -/
def keyedElems : List JsonValue → Bool
  | [] => true
  | v :: rest => v.keyed && keyedElems rest

/-- The same for the values of a map. -/
def keyedFields : List (String × JsonValue) → Bool
  | [] => true
  | (_, v) :: rest => v.keyed && keyedFields rest

end

section

variable {f g : Dbl → JsonValue} {p : Dbl → Bool}

mutual

theorem mapDouble_congr (hfg : ∀ d, p d = true → f d = g d) :
    ∀ {v : JsonValue}, v.allDouble p = true → v.mapDouble f = v.mapDouble g
  | null, _ | bool _, _ | long _, _ | str _, _ => by simp only [mapDouble]
  | double d, h => by
    simp only [allDouble] at h
    simp only [mapDouble, hfg d h]
  | arr elems, h => by
    simp only [allDouble] at h
    simp only [mapDouble, mapElems_congr hfg h]
  | obj fields, h => by
    simp only [allDouble] at h
    simp only [mapDouble, mapFields_congr hfg h]

theorem mapElems_congr (hfg : ∀ d, p d = true → f d = g d) :
    ∀ {elems : List JsonValue}, allElems p elems = true → mapElems f elems = mapElems g elems
  | [], _ => by simp only [mapElems]
  | v :: rest, h => by
    obtain ⟨hv, hrest⟩ := by simpa only [allElems, Bool.and_eq_true] using h
    simp only [mapElems, mapDouble_congr hfg hv, mapElems_congr hfg hrest]

theorem mapFields_congr (hfg : ∀ d, p d = true → f d = g d) :
    ∀ {fields : List (String × JsonValue)}, allFields p fields = true →
      mapFields f fields = mapFields g fields
  | [], _ => by simp only [mapFields]
  | (k, v) :: rest, h => by
    obtain ⟨hv, hrest⟩ := by simpa only [allFields, Bool.and_eq_true] using h
    simp only [mapFields, mapDouble_congr hfg hv, mapFields_congr hfg hrest]

end

end

/-- **In range, `norm` compares numbers by value.** -/
theorem norm_eq_plain (h : v.inRange) : v.norm = v.plain :=
  mapDouble_congr (fun _ ↦ Dbl.norm_eq_plain) h

theorem lookup_of_nodup {fields : List (String × JsonValue)} (h : (fields.map Prod.fst).Nodup)
    {k : String} (hmem : (k, v) ∈ fields) : fields.lookup k = some v := by
  induction fields with
  | nil => cases hmem
  | cons p rest ih =>
    obtain ⟨hnew, hrest⟩ := List.nodup_cons.1 h
    rcases List.mem_cons.1 hmem with rfl | hmem
    · simp
    · have hne : k ≠ p.1 := fun heq ↦ hnew (heq ▸ List.mem_map_of_mem hmem)
      rw [List.lookup_cons, beq_false_of_ne hne]
      exact ih hrest hmem

section

variable {f : Dbl → JsonValue}

theorem map_fst_mapFields (fields : List (String × JsonValue)) :
    (mapFields f fields).map Prod.fst = fields.map Prod.fst := by
  induction fields with
  | nil => simp only [mapFields]
  | cons p rest ih => simp only [mapFields, List.map_cons, ih]

mutual

/-- A value whose `Double`s are replaced by ones equal to themselves is equal to itself. -/
theorem eqv_mapDouble (hf : ∀ d, (f d).eqv (f d) = true) :
    ∀ {v : JsonValue}, v.keyed = true → (v.mapDouble f).eqv (v.mapDouble f) = true
  | null, _ => by simp only [mapDouble, eqv]
  | bool _, _ | long _, _ | str _, _ => by simp only [mapDouble, eqv, beq_self_eq_true]
  | double d, _ => by simp only [mapDouble, hf d]
  | arr elems, h => by
    simp only [keyed] at h
    simp only [mapDouble, eqv, eqvElems_mapElems hf h]
  | obj fields, h => by
    obtain ⟨hnodup, hfields⟩ := by simpa only [keyed, Bool.and_eq_true, decide_eq_true_eq] using h
    have hlookup : ∀ p ∈ mapFields f fields, (mapFields f fields).lookup p.1 = some p.2 :=
      fun p hp ↦ lookup_of_nodup ((map_fst_mapFields fields).symm ▸ hnodup) hp
    simp only [mapDouble, eqv, beq_self_eq_true, Bool.true_and,
      eqvFields_mapFields hf hfields hlookup]

theorem eqvElems_mapElems (hf : ∀ d, (f d).eqv (f d) = true) :
    ∀ {elems : List JsonValue}, keyedElems elems = true →
      eqvElems (mapElems f elems) (mapElems f elems) = true
  | [], _ => by simp only [mapElems, eqvElems]
  | v :: rest, h => by
    obtain ⟨hv, hrest⟩ := by simpa only [keyedElems, Bool.and_eq_true] using h
    simp only [mapElems, eqvElems, eqv_mapDouble hf hv, eqvElems_mapElems hf hrest, Bool.and_self]

theorem eqvFields_mapFields (hf : ∀ d, (f d).eqv (f d) = true) :
    ∀ {fields b : List (String × JsonValue)}, keyedFields fields = true →
      (∀ p ∈ mapFields f fields, b.lookup p.1 = some p.2) → eqvFields (mapFields f fields) b = true
  | [], _, _, _ => by simp only [mapFields, eqvFields]
  | (k, v) :: rest, b, h, hb => by
    obtain ⟨hv, hrest⟩ := by simpa only [keyedFields, Bool.and_eq_true] using h
    simp only [mapFields, List.forall_mem_cons] at hb
    simp only [mapFields, eqvFields, hb.1, eqv_mapDouble hf hv, eqvFields_mapFields hf hrest hb.2,
      Bool.and_self]

end

end

end JsonValue

end Ember.Intellij
