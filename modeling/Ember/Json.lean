import Mathlib.Algebra.Ring.Int.Defs
import Mathlib.Algebra.Ring.Nat

/-!
# JSON values

`serde_json::Value` as the source reads it. Integers are kept apart from other numbers because
`as_i64` and `as_u64` answer only for those; a number with a fraction is carried as its text.
-/

namespace Ember

/-- `serde_json::Value`. -/
inductive Value
  | null
  | bool (b : Bool)
  | int (n : ℤ)
  | float (text : String)
  | str (s : String)
  | arr (elems : List Value)
  | obj (fields : List (String × Value))
  deriving Repr, Inhabited

namespace Value

/-- `Value::get` with a string key. -/
def get (v : Value) (key : String) : Option Value :=
  match v with
  | .obj fields => (fields.find? fun p ↦ p.1 == key).map Prod.snd
  | _ => none

/-- `Value` indexed by a key: null when there is no such key. -/
def index (v : Value) (key : String) : Value := (v.get key).getD .null

/-- `Value::as_i64`. -/
def asI64 : Value → Option ℤ
  | .int n => if -2 ^ 63 ≤ n ∧ n < 2 ^ 63 then some n else none
  | _ => none

/-- `Value::as_u64`. -/
def asU64 : Value → Option ℕ
  | .int n => if 0 ≤ n ∧ n < 2 ^ 64 then some n.toNat else none
  | _ => none

/-- `Value::as_str`. -/
def asStr : Value → Option String
  | .str s => some s
  | _ => none

/-- `Value::as_bool`. -/
def asBool : Value → Option Bool
  | .bool b => some b
  | _ => none

/-- `Value::as_array`. -/
def asArray : Value → Option (List Value)
  | .arr elems => some elems
  | _ => none

end Value

end Ember
