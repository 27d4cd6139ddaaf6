import Ember.EditorConn.Frame
import Ember.EditorConn.Serde

/-!
# The values of an IPC channel

`serialize` writes a tag and then what belongs to it; lengths and numbers are in groups of seven
bits. A value is read back from its bytes whatever follows them, so that a header and a body, and
the elements of an array, can stand one after the other: **`deserialize_serialize`**.
-/

namespace Ember.EditorConn

/-- `IpcValue`: a value as the IPC serializer sees it. -/
inductive IpcValue (J : Type)
  | undefined
  | string (s : String)
  | buffer (b : Data)
  | vsBuffer (b : Data)
  | array (a : List (IpcValue J))
  | object (v : J)
  | int (i : Int32)

namespace DataType

@[match_pattern] def UNDEFINED : UInt8 := 0
@[match_pattern] def STRING : UInt8 := 1
@[match_pattern] def BUFFER : UInt8 := 2
@[match_pattern] def VSBUFFER : UInt8 := 3
@[match_pattern] def ARRAY : UInt8 := 4
@[match_pattern] def OBJECT : UInt8 := 5
@[match_pattern] def INT : UInt8 := 6

end DataType

/-! ### Integers of variable length -/

/-- The groups of `write_vql` of a number that is not zero. -/
def vqlGroups (v : ℕ) : List UInt8 :=
  if v = 0 then []
  else
    let byte := UInt8.ofNat (v &&& 0x7f)
    let v' := v >>> 7
    (if v' = 0 then byte else byte ||| 0x80) :: vqlGroups v'
termination_by v
decreasing_by
  rw [Nat.shiftRight_eq_div_pow]
  exact Nat.div_lt_self (by omega) (by decide)

/-- `write_vql`. -/
def writeVql (value : UInt32) : List UInt8 :=
  if value = 0 then [0] else vqlGroups value.toNat

/-- The loop of `read_vql`: what was accumulated, and where the next group goes. -/
def readVqlFrom (value shift : ℕ) : List UInt8 → Except Error (UInt32 × List UInt8)
  | [] => .error (.malformed "truncated VQL")
  | b :: bs =>
    let value := if shift < 64 then value ||| ((b &&& 0x7f).toNat <<< shift) else value
    if b &&& 0x80 = 0 then .ok (UInt32.ofNat value, bs)
    else if shift + 7 > 35 then .error (.malformed "VQL too long")
    else readVqlFrom value (shift + 7) bs

/-- `read_vql`. -/
def readVql : Reader Error UInt8 UInt32 := readVqlFrom 0 0

/-- A group of seven bits, as it is read from its byte. -/
theorem read_group {m : ℕ} (hm : m < 128) :
    (UInt8.ofNat m &&& 0x7f).toNat = m ∧ UInt8.ofNat m &&& 0x80 = 0 ∧
      ((UInt8.ofNat m ||| 0x80) &&& 0x7f).toNat = m ∧ (UInt8.ofNat m ||| 0x80) &&& 0x80 ≠ 0 := by
  revert m
  decide

/-- The groups of a number are read on top of what was accumulated, as long as the result fits. -/
theorem readVqlFrom_vqlGroups {v : ℕ} (hv : v ≠ 0) {value shift : ℕ} (hvalue : value < 2 ^ shift)
    (hfits : v * 2 ^ shift < 2 ^ 32) (rest : List UInt8) :
    readVqlFrom value shift (vqlGroups v ++ rest) =
      .ok (UInt32.ofNat (value + v * 2 ^ shift), rest) := by
  induction v using Nat.strongRecOn generalizing value shift with
  | _ v ih =>
    have hpow : 2 ^ shift < 2 ^ 32 :=
      Nat.lt_of_le_of_lt (Nat.le_mul_of_pos_left _ (by omega)) hfits
    have hshift : shift < 32 := (Nat.pow_lt_pow_iff_right (by decide)).1 hpow
    have hshift64 : shift < 64 := by omega
    have hmod : v &&& 0x7f = v % 2 ^ 7 := Nat.and_two_pow_sub_one_eq_mod v 7
    have hdiv : v >>> 7 = v / 2 ^ 7 := Nat.shiftRight_eq_div_pow v 7
    obtain ⟨hlow, hlast, hlow', hmore⟩ := read_group (m := v % 2 ^ 7) (Nat.mod_lt v (by decide))
    have hor : ∀ m, value ||| m <<< shift = value + m * 2 ^ shift := fun m ↦ by
      rw [Nat.shiftLeft_eq, Nat.or_comm, Nat.mul_comm, ← Nat.two_pow_add_eq_or_of_lt hvalue,
        Nat.add_comm]
    rw [vqlGroups, if_neg hv]
    dsimp only
    rw [hmod, hdiv, List.cons_append, readVqlFrom, if_pos hshift64]
    by_cases hend : v / 2 ^ 7 = 0
    · rw [if_pos hend, hlow, if_pos hlast, hend, hor, Nat.mod_eq_of_lt (by omega), vqlGroups,
        if_pos rfl]
      rfl
    · have hmul : v / 2 ^ 7 * 2 ^ (shift + 7) + v % 2 ^ 7 * 2 ^ shift = v * 2 ^ shift := by
        rw [Nat.pow_add, Nat.mul_comm (2 ^ shift), ← Nat.mul_assoc, ← Nat.add_mul,
          Nat.mul_comm (v / 2 ^ 7), Nat.div_add_mod]
      have hlt : 2 ^ (shift + 7) < 2 ^ 32 :=
        Nat.lt_of_le_of_lt (Nat.le_mul_of_pos_left _ (Nat.pos_of_ne_zero hend)) (by omega)
      have hshift' : shift + 7 < 32 := (Nat.pow_lt_pow_iff_right (by decide)).1 hlt
      have hacc : value + v % 2 ^ 7 * 2 ^ shift < 2 ^ (shift + 7) := by
        have hm : v % 2 ^ 7 ≤ 2 ^ 7 - 1 := Nat.le_sub_one_of_lt (Nat.mod_lt v (by decide))
        have := Nat.mul_le_mul_right (2 ^ shift) hm
        rw [Nat.pow_add]
        omega
      rw [if_neg hend, hlow', if_neg hmore, if_neg (by omega), hor,
        ih _ (Nat.div_lt_self (by omega) (by decide)) hend hacc (by omega)]
      congr 3
      omega

/-- **Every `u32` comes back.** -/
theorem reads_readVql (value : UInt32) : Reader.Reads readVql (writeVql value) value := by
  intro rest
  show readVqlFrom 0 0 (writeVql value ++ rest) = _
  unfold writeVql
  split
  · next h =>
    rw [h]
    rfl
  · next h =>
    have hne : value.toNat ≠ 0 := fun hz ↦ h (UInt32.toNat_inj.1 hz)
    rw [readVqlFrom_vqlGroups hne (by decide) (by have := value.toNat_lt; omega),
      Nat.pow_zero, Nat.mul_one, Nat.zero_add, UInt32.ofNat_toNat]

/-! ### Writing values -/

/-- A length and then the bytes. -/
def writeBytes (b : Data) : List UInt8 := writeVql (UInt32.ofNat b.length) ++ b

section Serialize

variable {J : Type} (serde : Serde J)

mutual

/-- `serialize`. -/
def serialize : IpcValue J → List UInt8
  | .undefined => [DataType.UNDEFINED]
  | .string s => DataType.STRING :: writeBytes (utf8 s)
  | .buffer b => DataType.BUFFER :: writeBytes b
  | .vsBuffer b => DataType.VSBUFFER :: writeBytes b
  | .array a => DataType.ARRAY :: (writeVql (UInt32.ofNat a.length) ++ serializeAll a)
  | .object v => DataType.OBJECT :: writeBytes (utf8 (serde.toText v))
  | .int i => DataType.INT :: writeVql i.toUInt32

/-- The elements of an array, one after the other. -/
def serializeAll : List (IpcValue J) → List UInt8
  | [] => []
  | el :: els => serialize el ++ serializeAll els

end

/-- `encode_message`. -/
def encodeMessage (header body : IpcValue J) : List UInt8 :=
  serialize serde header ++ serialize serde body

mutual

/-- Every length in the value is below `2^32`. -/
def IpcValue.Fits : IpcValue J → Prop
  | .undefined => True
  | .string s => (utf8 s).length < 2 ^ 32
  | .buffer b => b.length < 2 ^ 32
  | .vsBuffer b => b.length < 2 ^ 32
  | .array a => a.length < 2 ^ 32 ∧ IpcValue.AllFit a
  | .object v => (utf8 (serde.toText v)).length < 2 ^ 32
  | .int _ => True

/-- Every length in every value of an array is below `2^32`. -/
def IpcValue.AllFit : List (IpcValue J) → Prop
  | [] => True
  | el :: els => el.Fits ∧ IpcValue.AllFit els

end

/-! ### Reading values -/

/-- The failure of `take`. -/
def truncated : Error := .malformed "truncated IPC value"

/-- A length, and as many bytes. -/
def readBytes : Reader Error UInt8 Data := do
  let n ← readVql
  Reader.take truncated n.toNat

/-- `deserialize`, nested at most `fuel` deep. -/
def deserializeUpTo : ℕ → Reader Error UInt8 (IpcValue J)
  | 0 => fun _ ↦ .error truncated
  | fuel + 1 => do
    let ty ← Reader.next truncated
    match ty with
    | DataType.UNDEFINED => pure .undefined
    | DataType.STRING => do pure (.string (utf8Lossy (← readBytes)))
    | DataType.BUFFER => do pure (.buffer (← readBytes))
    | DataType.VSBUFFER => do pure (.vsBuffer (← readBytes))
    | DataType.ARRAY => do
      let n ← readVql
      pure (.array (← Reader.times (deserializeUpTo fuel) n.toNat))
    | DataType.OBJECT => do
      let b ← readBytes
      pure (.object (← liftJson (serde.fromSlice b)))
    | DataType.INT => do pure (.int (← readVql).toInt32)
    | other => throw (.malformed ("unknown IPC data type " ++ toString other.toNat))

/-- `deserialize`: every value takes at least its tag, so a value is not nested deeper than there
are bytes. -/
def deserialize : Reader Error UInt8 (IpcValue J) := fun buf ↦
  (deserializeUpTo serde buf.length).run buf

/-- `decode_message`. -/
def decodeMessage (buf : List UInt8) : Except Error (IpcValue J × IpcValue J) := do
  let (header, rest) ← (deserialize serde).run buf
  if rest = [] then pure (header, .undefined)
  else
    let (body, _) ← (deserialize serde).run rest
    pure (header, body)

/-! ### Reading back what was written -/

theorem reads_readBytes {b : Data} (h : b.length < 2 ^ 32) :
    Reader.Reads readBytes (writeBytes b) b := by
  refine (reads_readVql _).bind ?_
  rw [show (UInt32.ofNat b.length).toNat = b.length from UInt32.toNat_ofNat_of_lt' h]
  exact Reader.reads_take truncated b

/-- Every value takes at least its tag. -/
theorem length_serialize_pos (v : IpcValue J) : 0 < (serialize serde v).length := by
  cases v <;> exact Nat.succ_pos _

variable {serde}

mutual

/-- A value is read back, whatever follows it. -/
theorem reads_deserializeUpTo (hs : serde.RoundTrips) : (v : IpcValue J) → v.Fits serde →
    (fuel : ℕ) → (serialize serde v).length ≤ fuel + 1 →
      Reader.Reads (deserializeUpTo serde (fuel + 1)) (serialize serde v) v
  | .undefined, _, fuel, _ =>
    (Reader.reads_next truncated DataType.UNDEFINED).bind (Reader.reads_pure _)
  | .string s, h, fuel, _ => by
    have hread := (reads_readBytes h).map fun b ↦ (IpcValue.string (utf8Lossy b) : IpcValue J)
    rw [utf8Lossy_utf8] at hread
    exact (Reader.reads_next truncated DataType.STRING).bind hread
  | .buffer b, h, fuel, _ =>
    (Reader.reads_next truncated DataType.BUFFER).bind ((reads_readBytes h).map IpcValue.buffer)
  | .vsBuffer b, h, fuel, _ =>
    (Reader.reads_next truncated DataType.VSBUFFER).bind ((reads_readBytes h).map IpcValue.vsBuffer)
  | .array a, ⟨hlen, hall⟩, fuel, hf => by
    refine (Reader.reads_next truncated DataType.ARRAY).bind ((reads_readVql _).bind ?_)
    rw [show (UInt32.ofNat a.length).toNat = a.length from UInt32.toNat_ofNat_of_lt' hlen]
    refine (reads_times_deserializeUpTo hs a hall fuel ?_).map IpcValue.array
    rw [serialize, List.length_cons, List.length_append] at hf
    omega
  | .object v, h, fuel, _ => by
    have hread := (reads_readBytes h).bind (f := fun b ↦ do
      pure (IpcValue.object (← liftJson (serde.fromSlice b))))
      ((reads_liftJson (hs.fromSlice_toText v)).map IpcValue.object)
    rw [List.append_nil] at hread
    exact (Reader.reads_next truncated DataType.OBJECT).bind hread
  | .int i, _, fuel, _ =>
    (Reader.reads_next truncated DataType.INT).bind
      ((reads_readVql i.toUInt32).map fun n ↦ (IpcValue.int n.toInt32 : IpcValue J))

/-- The elements of an array are read back one after the other. -/
theorem reads_times_deserializeUpTo (hs : serde.RoundTrips) : (a : List (IpcValue J)) →
    IpcValue.AllFit serde a → (fuel : ℕ) → (serializeAll serde a).length ≤ fuel →
      Reader.Reads (Reader.times (deserializeUpTo serde fuel) a.length) (serializeAll serde a) a
  | [], _, _, _ => Reader.reads_pure _
  | el :: els, ⟨hel, hels⟩, fuel, hf => by
    have hpos := length_serialize_pos serde el
    rw [serializeAll, List.length_append] at hf
    obtain ⟨fuel, rfl⟩ : ∃ n, fuel = n + 1 := ⟨fuel - 1, by omega⟩
    exact (reads_deserializeUpTo hs el hel fuel (by omega)).bind
      ((reads_times_deserializeUpTo hs els hels (fuel + 1) (by omega)).map (el :: ·))

end

theorem reads_deserialize (hs : serde.RoundTrips) {v : IpcValue J} (h : v.Fits serde) :
    Reader.Reads (deserialize serde) (serialize serde v) v := by
  intro rest
  have hpos := length_serialize_pos serde v
  obtain ⟨n, hn⟩ : ∃ n, (serialize serde v ++ rest).length = n + 1 :=
    ⟨(serialize serde v ++ rest).length - 1, by rw [List.length_append]; omega⟩
  show (deserializeUpTo serde (serialize serde v ++ rest).length).run _ = _
  rw [hn]
  refine reads_deserializeUpTo hs v h n ?_ rest
  rw [List.length_append] at hn
  omega

/-- A message is read back into its header and its body. -/
theorem decodeMessage_encodeMessage (hs : serde.RoundTrips) {header body : IpcValue J}
    (hh : header.Fits serde) (hb : body.Fits serde) :
    decodeMessage serde (encodeMessage serde header body) = .ok (header, body) := by
  have hne : serialize serde body ≠ [] := List.length_pos_iff.1 (length_serialize_pos serde body)
  rw [decodeMessage, encodeMessage, reads_deserialize hs hh]
  show (if serialize serde body = [] then pure (header, IpcValue.undefined) else _) = _
  rw [if_neg hne, (reads_deserialize hs hb).run_eq]
  rfl

/-- **Every value comes back**: `deserialize` reads what `serialize` wrote and stops exactly at its
end, whatever follows; a message comes back as its header and body; and the lengths and numbers
rest on integers that come back, the negative ones included. -/
theorem deserialize_serialize (hs : serde.RoundTrips) :
    (∀ (v : IpcValue J) (suffix : List UInt8), v.Fits serde →
      (deserialize serde).run (serialize serde v ++ suffix) = .ok (v, suffix)) ∧
    (∀ header body : IpcValue J, header.Fits serde → body.Fits serde →
      decodeMessage serde (encodeMessage serde header body) = .ok (header, body)) ∧
    (∀ (value : UInt32) (suffix : List UInt8),
      readVql.run (writeVql value ++ suffix) = .ok (value, suffix)) ∧
    ∀ (i : Int32) (suffix : List UInt8), i < 0 →
      (readVql.run (writeVql i.toUInt32 ++ suffix)).map (fun r ↦ (r.1.toInt32, r.2)) =
        .ok (i, suffix) := by
  refine ⟨fun v suffix hv ↦ reads_deserialize hs hv suffix,
    fun header body hh hb ↦ decodeMessage_encodeMessage hs hh hb,
    fun value suffix ↦ reads_readVql value suffix, fun i suffix _ ↦ ?_⟩
  rw [reads_readVql i.toUInt32 suffix]
  rfl

end Serialize

/-- An array of a JSON value, a negative number and an empty array, and a byte behind it. -/
theorem deserialize_serialize_array :
    (deserialize boolSerde).run
        (serialize boolSerde (.array [.object true, .int (-2), .array []]) ++ [7]) =
      .ok (.array [.object true, .int (-2), .array []], [7]) :=
  (deserialize_serialize boolSerde_roundTrips).1 _ _
    ⟨by decide, by show (utf8 "true").length < _; decide, trivial, ⟨by decide, trivial⟩, trivial⟩

end Ember.EditorConn
