import Ember.Foundation.JsonText
import Ember.Json
import Mathlib.Data.List.Induction
import Mathlib.Data.List.Sort
import Mathlib.Data.String.Basic

/-!
# serde_json's text form

`serde_json::from_str`, and a value written as compact JSON with sorted keys. Reading is recursive
up to the depth that `serde_json` allows, which is what the reader here recurses on.

What double a number with a fraction reads as, and what that is printed as, is a parameter, `f64`;
by default `serde_json` does not promise that a double it printed reads as the same one, so the
round trip `value_canonicalJson` asks that of the doubles in the value.
-/

namespace Ember

open JsonText

/-! ### Reading -/

namespace SerdeJson

variable (f64 : String → Option String)

/-- A number: an integer where it fits `u64` or `i64`, and a double otherwise. -/
def readNumber (token : List Char) : Option Value :=
  match number token with
  | none => none
  | some (.int false n) =>
    if n < 2 ^ 64 then some (.int n) else (f64 (.ofList token)).map .float
  | some (.int true n) =>
    if 0 < n ∧ n ≤ 2 ^ 63 then some (.int (-n)) else (f64 (.ofList token)).map .float
  | some .float => (f64 (.ofList token)).map .float

/-- A value without its first character. -/
def word (rest : List Char) (v : Value) (cs : List Char) : Option (Value × List Char) :=
  if rest.isPrefixOf cs then some (v, cs.drop rest.length) else none

/-- A value that is not an array and not an object. -/
def scalar : ItemReader Value
  | [] => none
  | c :: cs =>
    if c = '"' then (readStr .plain cs).map fun p ↦ (.str (.ofList p.1), p.2)
    else if c = 'n' then word "ull".toList .null cs
    else if c = 't' then word "rue".toList (.bool true) cs
    else if c = 'f' then word "alse".toList (.bool false) cs
    else
      (readNumber f64 ((c :: cs).takeWhile isNumberChar)).map fun v ↦
        (v, (c :: cs).dropWhile isNumberChar)

/-- A member of an object. -/
def member (item : ItemReader Value) : ItemReader (String × Value) := fun cs ↦
  match skip cs with
  | [] => none
  | c :: cs =>
    if c = '"' then
      match readStr .plain cs with
      | none => none
      | some (key, cs) =>
        match skip cs with
        | [] => none
        | c :: cs =>
          if c = ':' then (item cs).map fun p ↦ ((.ofList key, p.1), p.2) else none
    else none

/-- `Map::insert`: the map is in the order of its keys. -/
def insert (p : String × Value) : List (String × Value) → List (String × Value)
  | [] => [p]
  | q :: fields =>
    if p.1 < q.1 then p :: q :: fields
    else if p.1 = q.1 then p :: fields
    else q :: insert p fields

/-- The object of these members: of two with one key, the later one. -/
def object (members : List (String × Value)) : List (String × Value) :=
  members.foldl (fun fields p ↦ insert p fields) []

/-- A value with at most this many arrays and objects around each other. -/
def value : ℕ → ItemReader Value
  | 0, cs => scalar f64 (skip cs)
  | d + 1, cs =>
    match skip cs with
    | [] => none
    | c :: cs =>
      if c = '[' then (items (value d) ']' cs).map fun p ↦ (.arr p.1, p.2)
      else if c = '\x7b' then
        (items (member (value d)) '\x7d' cs).map fun p ↦ (.obj (object p.1), p.2)
      else scalar f64 (c :: cs)

/-- How deep values may be nested. -/
def depthLimit : ℕ := 127

/-- `serde_json::from_str`. -/
def fromStr (s : String) : Option Value :=
  match value f64 depthLimit s.toList with
  | none => none
  | some (v, rest) => if (skip rest).isEmpty then some v else none

end SerdeJson

/-! ### Writing -/

mutual

/-- `canonical_json`: compact, with the keys of every object sorted. -/
def Value.canonicalJson : Value → List Char
  | .null => "null".toList
  | .bool b => (if b then "true" else "false").toList
  | .int n => decimal (n < 0) n.natAbs
  | .float text => text.toList
  | .str s => quote s.toList
  | .arr elems => '[' :: ([','].intercalate (canonicalElems elems) ++ [']'])
  | .obj fields =>
    '\x7b' :: ([','].intercalate
      (((canonicalFields fields).insertionSort fun p q ↦ p.1 ≤ q.1).map fun p ↦
        quote p.1.toList ++ ':' :: p.2) ++ ['\x7d'])

def Value.canonicalElems : List Value → List (List Char)
  | [] => []
  | v :: elems => v.canonicalJson :: canonicalElems elems

/-- The keys of the fields, each with the text of its value. -/
def Value.canonicalFields : List (String × Value) → List (String × List Char)
  | [] => []
  | (key, v) :: fields => (key, v.canonicalJson) :: canonicalFields fields

end

variable {fields : List (String × Value)} {v : Value} {rest cs token : List Char}
  {p q : String × Value} {d : ℕ} {item : ItemReader Value}

namespace SerdeJson

open Value

theorem canonicalElems_eq (elems : List Value) :
    canonicalElems elems = elems.map canonicalJson := by
  induction elems with
  | nil => rfl
  | cons v elems ih => rw [canonicalElems, ih, List.map_cons]

theorem canonicalFields_eq (fields : List (String × Value)) :
    canonicalFields fields = fields.map fun p ↦ (p.1, p.2.canonicalJson) := by
  induction fields with
  | nil => rfl
  | cons p fields ih => rw [canonicalFields, ih, List.map_cons]

/-! ### The values that are read -/

/-- What a double is printed as. -/
def IsFloat (text : String) : Prop :=
  text.toList.all isNumberChar ∧ number text.toList = some .float

/-- A value as it is read: at most this many arrays and objects around each other, numbers in their
ranges, and objects in the order of their keys. -/
def Fits : ℕ → Value → Prop
  | _, .null | _, .bool _ | _, .str _ => True
  | _, .int n => -2 ^ 63 ≤ n ∧ n < 2 ^ 64
  | _, .float text => IsFloat text
  | 0, .arr _ | 0, .obj _ => False
  | d + 1, .arr elems => ∀ v ∈ elems, Fits d v
  | d + 1, .obj fields =>
    (fields.map Prod.fst).Pairwise (· < ·) ∧ ∀ p ∈ fields, Fits d p.2

theorem fits_int {n : ℤ} (h : -2 ^ 63 ≤ n ∧ n < 2 ^ 64) (d : ℕ) : Fits d (.int n) := by
  cases d <;> exact h

theorem Fits.succ (h : Fits d v) : Fits (d + 1) v := by
  induction d generalizing v with
  | zero => cases v <;> first | exact h | exact absurd h id
  | succ d ih =>
    cases v with
    | arr elems => exact fun v hv ↦ ih (h v hv)
    | obj fields => exact ⟨h.1, fun p hp ↦ ih (h.2 p hp)⟩
    | _ => exact h

theorem Fits.mono {d' : ℕ} (hle : d ≤ d') (h : Fits d v) : Fits d' v := by
  induction hle with
  | refl => exact h
  | step _ ih => exact ih.succ

/-- What is at a key of an object is one deep less. -/
theorem Fits.get {w : Value} {key : String} (h : Fits (d + 1) v)
    (hget : v.get key = some w) : Fits d w := by
  cases v with
  | obj fields =>
    obtain ⟨p, hp, rfl⟩ := Option.map_eq_some_iff.1 hget
    exact h.2 p (List.mem_of_find?_eq_some hp)
  | _ => cases hget

theorem mem_insert (h : q ∈ insert p fields) : q = p ∨ q ∈ fields := by
  induction fields with
  | nil => exact .inl (List.mem_singleton.1 h)
  | cons r fields ih =>
    rw [insert] at h
    split_ifs at h
    · exact List.mem_cons.1 h
    · exact (List.mem_cons.1 h).imp_right (List.mem_cons_of_mem _)
    · rcases List.mem_cons.1 h with rfl | h
      · exact .inr List.mem_cons_self
      · exact (ih h).imp_right (List.mem_cons_of_mem _)

theorem pairwise_insert (h : (fields.map Prod.fst).Pairwise (· < ·)) :
    ((insert p fields).map Prod.fst).Pairwise (· < ·) := by
  induction fields with
  | nil => exact List.pairwise_singleton _ _
  | cons q fields ih =>
    obtain ⟨hq, hfields⟩ := List.pairwise_cons.1 h
    rw [insert]
    split_ifs with hlt heq
    · refine List.pairwise_cons.2 ⟨fun k hk ↦ ?_, h⟩
      rcases List.mem_cons.1 hk with rfl | hk
      · exact hlt
      · exact hlt.trans (hq k hk)
    · exact List.pairwise_cons.2 ⟨fun k hk ↦ by rw [heq]; exact hq k hk, hfields⟩
    · refine List.pairwise_cons.2 ⟨fun k hk ↦ ?_, ih hfields⟩
      obtain ⟨r, hr, rfl⟩ := List.mem_map.1 hk
      rcases mem_insert hr with rfl | hr
      · exact lt_of_le_of_ne (not_lt.1 hlt) (Ne.symm heq)
      · exact hq _ (List.mem_map_of_mem hr)

/-- A member behind all others goes to the end. -/
theorem insert_of_forall_lt (h : ∀ q ∈ fields, q.1 < p.1) : insert p fields = fields ++ [p] := by
  induction fields with
  | nil => rfl
  | cons q fields ih =>
    have hq := h q List.mem_cons_self
    rw [insert, if_neg (not_lt.2 hq.le), if_neg hq.ne',
      ih fun r hr ↦ h r (List.mem_cons_of_mem _ hr)]
    rfl

theorem object_concat (members : List (String × Value)) (p : String × Value) :
    object (members ++ [p]) = insert p (object members) := by
  rw [object, List.foldl_append]
  rfl

theorem mem_object {members : List (String × Value)} (h : q ∈ object members) : q ∈ members := by
  induction members using List.reverseRecOn with
  | nil => exact h
  | append_singleton members p ih =>
    rw [object_concat] at h
    rcases mem_insert h with rfl | h
    · exact List.mem_append_right _ List.mem_cons_self
    · exact List.mem_append_left _ (ih h)

theorem pairwise_object (members : List (String × Value)) :
    ((object members).map Prod.fst).Pairwise (· < ·) := by
  induction members using List.reverseRecOn with
  | nil => exact .nil
  | append_singleton members p ih =>
    rw [object_concat]
    exact pairwise_insert ih

/-- The members of an object, in the order of their keys, are that object. -/
theorem object_eq_self (h : (fields.map Prod.fst).Pairwise (· < ·)) : object fields = fields := by
  induction fields using List.reverseRecOn with
  | nil => rfl
  | append_singleton fields p ih =>
    rw [List.map_append, List.pairwise_append] at h
    rw [object_concat, ih h.1]
    exact insert_of_forall_lt fun q hq ↦
      h.2.2 _ (List.mem_map_of_mem hq) _ (List.mem_map_of_mem List.mem_cons_self)

/-! ### What is read fits -/

variable {f64 : String → Option String}

theorem readNumber_fits (hf64 : ∀ s t, f64 s = some t → IsFloat t)
    (h : readNumber f64 token = some v) (d : ℕ) : Fits d v := by
  have hfloat : ∀ {w}, (f64 (.ofList token)).map Value.float = some w → Fits d w := fun hw ↦ by
    obtain ⟨t, ht, rfl⟩ := Option.map_eq_some_iff.1 hw
    cases d <;> exact hf64 _ _ ht
  rw [readNumber] at h
  split at h
  · cases h
  · split_ifs at h with hn
    · obtain rfl := Option.some.inj h
      exact fits_int ⟨by omega, by exact_mod_cast hn⟩ d
    · exact hfloat h
  · split_ifs at h with hn
    · obtain rfl := Option.some.inj h
      exact fits_int ⟨by omega, by omega⟩ d
    · exact hfloat h
  · exact hfloat h

theorem scalar_fits (hf64 : ∀ s t, f64 s = some t → IsFloat t) (h : scalar f64 cs = some (v, rest))
    (d : ℕ) : Fits d v := by
  have hword : ∀ {w : List Char} {u : Value} {cs : List Char}, (∀ d, Fits d u) →
      word w u cs = some (v, rest) → Fits d v := fun hu hw ↦ by
    rw [word] at hw
    split_ifs at hw
    cases hw
    exact hu d
  cases cs with
  | nil => cases h
  | cons c cs =>
    rw [scalar] at h
    split_ifs at h
    · obtain ⟨p, -, heq⟩ := Option.map_eq_some_iff.1 h
      cases heq
      cases d <;> trivial
    · exact hword (fun d ↦ by cases d <;> trivial) h
    · exact hword (fun d ↦ by cases d <;> trivial) h
    · exact hword (fun d ↦ by cases d <;> trivial) h
    · obtain ⟨w, hw, heq⟩ := Option.map_eq_some_iff.1 h
      cases heq
      exact readNumber_fits hf64 hw d

theorem item_of_member
    (h : member item cs = some (p, rest)) : ∃ cs, item cs = some (p.2, rest) := by
  rw [member] at h
  split at h
  · cases h
  · split_ifs at h
    split at h
    · cases h
    · split at h
      · cases h
      · split_ifs at h
        obtain ⟨q, hq, heq⟩ := Option.map_eq_some_iff.1 h
        cases heq
        exact ⟨_, hq⟩

/-- **A value that is read fits.** -/
theorem value_fits (hf64 : ∀ s t, f64 s = some t → IsFloat t)
    (h : value f64 d cs = some (v, rest)) : Fits d v := by
  induction d generalizing cs rest v with
  | zero => exact scalar_fits hf64 h 0
  | succ d ih =>
    rw [value] at h
    split at h
    · cases h
    · split_ifs at h
      · obtain ⟨p, hp, heq⟩ := Option.map_eq_some_iff.1 h
        cases heq
        intro v hv
        obtain ⟨cs, rest, hitem⟩ := forall_items hp v hv
        exact ih hitem
      · obtain ⟨p, hp, heq⟩ := Option.map_eq_some_iff.1 h
        cases heq
        refine ⟨pairwise_object _, fun q hq ↦ ?_⟩
        obtain ⟨cs, rest, hmember⟩ := forall_items hp q (mem_object hq)
        obtain ⟨cs, hitem⟩ := item_of_member hmember
        exact ih hitem
      · exact scalar_fits hf64 h (d + 1)

theorem fromStr_fits (hf64 : ∀ s t, f64 s = some t → IsFloat t) {s : String}
    (h : fromStr f64 s = some v) : Fits depthLimit v := by
  rw [fromStr] at h
  split at h
  · cases h
  case h_2 v' rest hv =>
    split_ifs at h
    obtain rfl := Option.some.inj h
    exact value_fits hf64 hv

/-! ### What is written reads back -/

section

variable (f64)

mutual

/-- Every double in the value reads as the one that was printed. -/
def Exact : Value → Prop
  | .float text => f64 text = some text
  | .arr elems => ExactElems elems
  | .obj fields => ExactFields fields
  | _ => True

def ExactElems : List Value → Prop
  | [] => True
  | v :: elems => Exact v ∧ ExactElems elems

def ExactFields : List (String × Value) → Prop
  | [] => True
  | (_, v) :: fields => Exact v ∧ ExactFields fields

end

end

theorem ExactElems.exact {elems : List Value} (h : ExactElems f64 elems) :
    ∀ v ∈ elems, Exact f64 v := by
  induction elems with
  | nil => exact fun v hv ↦ (by cases hv)
  | cons w elems ih => exact List.forall_mem_cons.2 ⟨h.1, ih h.2⟩

theorem ExactFields.exact (h : ExactFields f64 fields) :
    ∀ p ∈ fields, Exact f64 p.2 := by
  induction fields with
  | nil => exact fun p hp ↦ (by cases hp)
  | cons q fields ih => exact List.forall_mem_cons.2 ⟨h.1, ih h.2⟩

/-- A text that begins with neither white space nor an opening bracket is read by `scalar`. -/
theorem value_cons (d : ℕ) {c : Char} (cs : List Char) (hspace : isSpace c = false)
    (harr : c ≠ '[') (hobj : c ≠ '\x7b') : value f64 d (c :: cs) = scalar f64 (c :: cs) := by
  cases d with
  | zero => rw [value, skip_cons hspace]
  | succ d =>
    rw [value, skip_cons hspace]
    simp only [if_neg harr, if_neg hobj]

/-- A number reads as `readNumber` says, and none of its characters is left. -/
theorem value_number (d : ℕ) (hall : token.all isNumberChar) (hne : token ≠ [])
    (hread : readNumber f64 token = some v) (hrest : ∀ c ∈ rest.head?, isNumberChar c = false) :
    value f64 d (token ++ rest) = some (v, rest) := by
  obtain ⟨htake, hdrop⟩ := span_number hall hrest
  obtain ⟨c, cs, rfl⟩ := List.exists_cons_of_ne_nil hne
  have hc : isNumberChar c = true := List.all_eq_true.1 hall c List.mem_cons_self
  have hother : ∀ c', isNumberChar c' = false → c ≠ c' := fun _ ↦ ne_of_isNumberChar hc
  rw [List.cons_append] at htake hdrop ⊢
  rw [value_cons d _ (isSpace_of_isNumberChar hc) (hother _ rfl) (hother _ rfl), scalar,
    if_neg (hother _ rfl), if_neg (hother _ rfl), if_neg (hother _ rfl), if_neg (hother _ rfl),
    htake, hdrop, hread]
  rfl

theorem value_float (d : ℕ) {text : String} (h : IsFloat text) (hexact : f64 text = some text)
    (hrest : ∀ c ∈ rest.head?, isNumberChar c = false) :
    value f64 d (text.toList ++ rest) = some (.float text, rest) := by
  refine value_number d h.1 (fun hnil ↦ ?_) ?_ hrest
  · have hnumber := h.2
    rw [hnil] at hnumber
    cases hnumber
  · rw [readNumber, h.2]
    simp only [String.ofList_toList, hexact, Option.map_some]

theorem decimal_ne_nil {negative : Bool} {n : ℕ} : decimal negative n ≠ [] := by
  cases negative with
  | true => exact List.cons_ne_nil _ _
  | false => exact Nat.toDigits_ne_nil

theorem readNumber_decimal {n : ℤ} (h : -2 ^ 63 ≤ n ∧ n < 2 ^ 64) :
    readNumber f64 (decimal (n < 0) n.natAbs) = some (.int n) := by
  rw [readNumber, number_decimal]
  rcases lt_or_ge n 0 with hneg | hpos
  · simp only [decide_eq_true hneg]
    rw [if_pos ⟨by omega, by omega⟩]
    congr 2
    omega
  · simp only [decide_eq_false (not_lt.2 hpos)]
    rw [if_pos (by omega)]
    congr 2
    omega

theorem value_quote (d : ℕ) (s : String) (rest : List Char) :
    value f64 d (quote s.toList ++ rest) = some (.str s, rest) := by
  rw [quote, List.cons_append, List.cons_append,
    value_cons d _ rfl (by decide) (by decide), scalar, if_pos rfl, List.append_assoc,
    List.singleton_append, readStr_quote, Option.map_some, String.ofList_toList]

/-- No value begins with white space or a closing bracket. -/
theorem exists_cons_canonicalJson (h : Fits d v) :
    ∃ c cs, v.canonicalJson = c :: cs ∧ isSpace c = false ∧ c ≠ ']' := by
  have hnumber : ∀ token : List Char, token.all isNumberChar → token ≠ [] →
      ∃ c cs, token = c :: cs ∧ isSpace c = false ∧ c ≠ ']' := fun token hall hne ↦ by
    obtain ⟨c, cs, rfl⟩ := List.exists_cons_of_ne_nil hne
    have hc : isNumberChar c = true := List.all_eq_true.1 hall c List.mem_cons_self
    exact ⟨c, cs, rfl, isSpace_of_isNumberChar hc, ne_of_isNumberChar hc rfl⟩
  cases v with
  | null => exact ⟨'n', _, rfl, rfl, by decide⟩
  | bool b =>
    cases b with
    | true => exact ⟨'t', _, rfl, rfl, by decide⟩
    | false => exact ⟨'f', _, rfl, rfl, by decide⟩
  | int n => exact hnumber _ (all_decimal _ _) decimal_ne_nil
  | float text =>
    have hfloat : IsFloat text := by cases d <;> exact h
    refine hnumber _ hfloat.1 fun hnil ↦ ?_
    have hnumber := hfloat.2
    rw [show text.toList = [] from hnil] at hnumber
    cases hnumber
  | str s => exact ⟨'"', _, rfl, rfl, by decide⟩
  | arr elems => exact ⟨'[', _, rfl, rfl, by decide⟩
  | obj fields => exact ⟨'\x7b', _, rfl, rfl, by decide⟩

/-- A field of an object, written. -/
def writeField (p : String × Value) : List Char := quote p.1.toList ++ ':' :: p.2.canonicalJson

theorem canonicalJson_arr (elems : List Value) :
    (Value.arr elems).canonicalJson = '[' :: writeItems canonicalJson ']' elems := by
  rw [canonicalJson, canonicalElems_eq, writeItems_eq]

/-- Sorting the keys of an object that was read changes nothing. -/
theorem canonicalJson_obj (h : (fields.map Prod.fst).Pairwise (· < ·)) :
    (Value.obj fields).canonicalJson = '\x7b' :: writeItems writeField '\x7d' fields := by
  have hsorted : (canonicalFields fields).insertionSort (fun p q ↦ p.1 ≤ q.1) =
      canonicalFields fields := by
    refine List.Pairwise.insertionSort_eq ?_
    rw [canonicalFields_eq, List.pairwise_map]
    exact (List.pairwise_map.1 h).imp le_of_lt
  rw [canonicalJson, hsorted, canonicalFields_eq, List.map_map, writeItems_eq]
  rfl

/-- A member reads back where its value does. -/
theorem member_writeField (h : item (p.2.canonicalJson ++ rest) = some (p.2, rest)) :
    member item (writeField p ++ rest) = some (p, rest) := by
  simp only [writeField, quote, member, List.cons_append, List.append_assoc, List.nil_append,
    skip_cons (show isSpace '"' = false from rfl), skip_cons (show isSpace ':' = false from rfl),
    if_true, readStr_quote, h, Option.map_some, String.ofList_toList]

theorem isNumberChar_of_follows {close : Char} (hclose : isNumberChar close = false)
    (h : rest.head? = some ',' ∨ rest.head? = some close) :
    ∀ c ∈ rest.head?, isNumberChar c = false := by
  rintro c hc
  rcases h with h | h
  · rw [h] at hc
    obtain rfl := Option.some.inj hc
    rfl
  · rw [h] at hc
    obtain rfl := Option.some.inj hc
    exact hclose

/-- **What is written reads back**: a value that was read, and whose doubles are exact, wherever no
number goes on behind it. -/
theorem value_canonicalJson (hfits : Fits d v) (hexact : Exact f64 v)
    (hrest : ∀ c ∈ rest.head?, isNumberChar c = false) :
    value f64 d (v.canonicalJson ++ rest) = some (v, rest) := by
  induction d generalizing v rest with
  | zero =>
    cases v with
    | arr | obj => exact absurd hfits id
    | null => rfl
    | bool b => cases b <;> rfl
    | int n =>
      exact value_number 0 (all_decimal _ _) decimal_ne_nil (readNumber_decimal hfits) hrest
    | float text => exact value_float 0 hfits hexact hrest
    | str s => exact value_quote 0 s rest
  | succ d ih =>
    cases v with
    | arr elems =>
      have helem : ∀ v ∈ elems, ∀ rest : List Char, rest.head? = some ',' ∨ rest.head? = some ']' →
          value f64 d (v.canonicalJson ++ rest) = some (v, rest) := fun v hv rest hfollows ↦
        ih (hfits v hv) (ExactElems.exact hexact v hv) (isNumberChar_of_follows rfl hfollows)
      have hitems := items_writeItems rfl (by decide) helem
        (fun v hv ↦ exists_cons_canonicalJson (hfits v hv)) rest
      rw [canonicalJson_arr, List.cons_append, value, skip_cons rfl]
      simp only [if_true, hitems, Option.map_some]
    | obj fields =>
      have hfield : ∀ p ∈ fields, ∀ rest : List Char,
          rest.head? = some ',' ∨ rest.head? = some '\x7d' →
          member (value f64 d) (writeField p ++ rest) = some (p, rest) := fun p hp rest hfollows ↦
        member_writeField (ih (hfits.2 p hp) (ExactFields.exact hexact p hp)
          (isNumberChar_of_follows rfl hfollows))
      have hitems := items_writeItems rfl (by decide) hfield
        (fun p _ ↦ ⟨'"', _, rfl, rfl, by decide⟩) rest
      have hno : ('\x7b' : Char) ≠ '[' := by decide
      rw [canonicalJson_obj hfits.1, List.cons_append, value, skip_cons rfl]
      simp only [if_neg hno, if_true, hitems, Option.map_some, object_eq_self hfits.1]
    | null => rfl
    | bool b => cases b <;> rfl
    | int n =>
      exact value_number _ (all_decimal _ _) decimal_ne_nil (readNumber_decimal hfits) hrest
    | float text => exact value_float _ hfits hexact hrest
    | str s => exact value_quote _ s rest

/-- **`from_str` of canonical JSON.** -/
theorem fromStr_canonicalJson (hfits : Fits depthLimit v) (hexact : Exact f64 v) :
    fromStr f64 (.ofList v.canonicalJson) = some v := by
  have hvalue : value f64 depthLimit (v.canonicalJson ++ []) = some (v, []) :=
    value_canonicalJson hfits hexact fun c hc ↦ (by cases hc)
  rw [List.append_nil] at hvalue
  rw [fromStr, String.toList_ofList, hvalue]
  rfl

end SerdeJson

end Ember
