import Ember.Foundation.Regroup
import Ember.Foundation.Utf8

/-!
# z-base-32

`ember/hub/src/z32.rs`: a key of 32 bytes as 52 letters of five bits each, most significant first.
Both directions regroup bits through a buffer of 32 bits, and the last letter is filled up with four
bits that are zero. `keys_round_trip` says that the two directions undo each other, that a key has
one spelling, and that the buffer is wide enough.
-/

namespace Ember.Hub.Z32

open Regroup

/-- `ALPHABET`. -/
def alphabet : List UInt8 := utf8 "ybndrfg8ejkmcpqxot1uwisza345h769"

/-- A letter as a byte, `ALPHABET[n]`. -/
def letterByte (n : ℕ) : UInt8 := alphabet.getD n 0

/-- A letter, `ALPHABET[n] as char`. -/
def letter (n : ℕ) : Char := .ofNat (letterByte n).toNat

/-! ### Encoding -/

/-- The variables of `encode`. -/
structure Encoding where
  out : List Char
  buffer : ℕ
  bits : ℕ

/-- The inner loop of `encode`: the letters that come out of the buffer, and the bits left. -/
def groups (buffer : ℕ) : ℕ → List Char × ℕ
  | n + 5 => (letter ((buffer >>> n) &&& 31) :: (groups buffer n).1, (groups buffer n).2)
  | n => ([], n)

/-- A round of the loop of `encode`. -/
def encodeByte (s : Encoding) (b : UInt8) : Encoding :=
  let buffer := (s.buffer <<< 8) % 2 ^ 32 ||| b.toNat
  let written := groups buffer (s.bits + 8)
  ⟨s.out ++ written.1, buffer &&& ((1 <<< written.2) - 1), written.2⟩

/-- The loop of `encode`. -/
def encoded (bytes : List UInt8) : Encoding := bytes.foldl encodeByte ⟨[], 0, 0⟩

/-- `encode`. -/
def encode (bytes : List UInt8) : String :=
  let s := encoded bytes
  .ofList (if 0 < s.bits then
    s.out ++ [letter ((s.buffer <<< (5 - s.bits)) % 2 ^ 32 &&& 31)] else s.out)

/-! ### Decoding -/

/-- A key: 32 bytes. -/
abbrev Key := { bytes : List UInt8 // bytes.length = 32 }

/-- The variables of `decode_key`; the bytes of `out` that are written. -/
structure Decoding where
  out : List UInt8
  buffer : ℕ
  bits : ℕ

/-- A round of the loop of `decode_key`. -/
def decodeByte (s : Decoding) (c : UInt8) : Option Decoding :=
  (alphabet.idxOf? c).map fun v ↦
    let buffer := (s.buffer <<< 5) % 2 ^ 32 ||| v
    let bits := s.bits + 5
    if 8 ≤ bits then
      ⟨s.out ++ [.ofNat ((buffer >>> (bits - 8)) &&& 0xff)], buffer &&& ((1 <<< (bits - 8)) - 1),
        bits - 8⟩
    else ⟨s.out, buffer, bits⟩

/-- `decode_key`. -/
def decodeKey (s : String) : Option Key :=
  if (utf8 s).length = 52 then
    ((utf8 s).foldlM decodeByte ⟨[], 0, 0⟩).bind fun d ↦
      if h : d.out.length = 32 ∧ d.buffer = 0 then some ⟨d.out, h.1⟩ else none
  else none

/-! ### Letters -/

theorem idxOf?_letterByte : ∀ n < 32, alphabet.idxOf? (letterByte n) = some n := by decide +kernel

theorem utf8EncodeChar_letter : ∀ n < 32, String.utf8EncodeChar (letter n) = [letterByte n] := by
  decide +kernel

theorem eq_letterByte_of_idxOf? {c : UInt8} {n : ℕ} (h : alphabet.idxOf? c = some n) :
    n < 32 ∧ c = letterByte n := by
  have hlen : alphabet.length = 32 := by decide +kernel
  obtain ⟨hlt, heq, -⟩ := List.idxOf?_eq_some_iff.1 h
  refine ⟨hlen ▸ hlt, ?_⟩
  rw [letterByte, List.getD_eq_getElem?_getD, List.getElem?_eq_getElem hlt, Option.getD_some, heq]

variable {ds : List ℕ}

/-- A text of letters. -/
theorem utf8_ofList_letters (h : ∀ d ∈ ds, d < 32) :
    utf8 (.ofList (ds.map letter)) = ds.map letterByte := by
  rw [utf8, String.toList_ofList, List.flatMap_map]
  induction ds with
  | nil => rfl
  | cons d ds ih =>
    obtain ⟨hd, hds⟩ := List.forall_mem_cons.1 h
    rw [List.flatMap_cons, utf8EncodeChar_letter d hd, ih hds]
    rfl

/-! ### Bits -/

theorem or_eq {n w d : ℕ} (hn : n <<< w < 2 ^ 32) (hd : d < 2 ^ w) :
    (n <<< w) % 2 ^ 32 ||| d = n * 2 ^ w + d := by
  rw [Nat.mod_eq_of_lt hn, ← Nat.shiftLeft_add_eq_or_of_lt hd, Nat.shiftLeft_eq]

theorem and_eq (n w : ℕ) : n &&& ((1 <<< w) - 1) = n % 2 ^ w := by
  rw [Nat.one_shiftLeft, Nat.and_two_pow_sub_one_eq_mod]

theorem shiftLeft_lt {n bits w : ℕ} (hn : n < 2 ^ bits) (h : bits + w ≤ 32) :
    n <<< w < 2 ^ 32 := by
  rw [Nat.shiftLeft_eq]
  calc n * 2 ^ w < 2 ^ bits * 2 ^ w := Nat.mul_lt_mul_of_pos_right hn (Nat.two_pow_pos w)
    _ = 2 ^ (bits + w) := (Nat.pow_add 2 bits w).symm
    _ ≤ 2 ^ 32 := Nat.pow_le_pow_right (by decide) h

/-! ### How far the loops are -/

/-- What was encoded is in the letters and the buffer. -/
structure Encodes (bytes : List UInt8) (s : Encoding) (ds : List ℕ) : Prop where
  out : s.out = ds.map letter
  letters : ∀ d ∈ ds, d < 2 ^ 5
  holds : Holds 8 5 (bytes.map UInt8.toNat) ds s.buffer s.bits
  buffer : s.buffer < 2 ^ s.bits
  bits : s.bits < 5

theorem holds_groups {ins outs : List ℕ} {buffer : ℕ} (n : ℕ) (h : Holds 8 5 ins outs buffer n) :
    ∃ ds, (groups buffer n).1 = ds.map letter ∧ (∀ d ∈ ds, d < 2 ^ 5) ∧
      Holds 8 5 ins (outs ++ ds) buffer (groups buffer n).2 ∧ (groups buffer n).2 < 5 := by
  induction n using Nat.strongRecOn generalizing outs with
  | ind n ih =>
    by_cases hn : n < 5
    · have hnone : groups buffer n = ([], n) := by
        match n, hn with
        | 0, _ | 1, _ | 2, _ | 3, _ | 4, _ => rfl
      refine ⟨[], ?_, fun _ h ↦ (by cases h), ?_, ?_⟩
      · rw [hnone]; rfl
      · rw [hnone, List.append_nil]; exact h
      · rw [hnone]; exact hn
    · obtain ⟨m, rfl⟩ := Nat.exists_eq_add_of_le' (not_lt.1 hn)
      have hdigit : (buffer >>> m) &&& 31 = buffer / 2 ^ m % 2 ^ 5 := by
        rw [Nat.shiftRight_eq_div_pow]
        exact Nat.and_two_pow_sub_one_eq_mod _ 5
      obtain ⟨ds, hout, hds, hholds, hlt⟩ := ih m (by omega) h.give
      refine ⟨buffer / 2 ^ m % 2 ^ 5 :: ds, ?_, ?_, ?_, ?_⟩
      · rw [groups, hdigit, hout, List.map_cons]
      · exact List.forall_mem_cons.2 ⟨Nat.mod_lt _ (Nat.two_pow_pos 5), hds⟩
      · rwa [List.append_assoc] at hholds
      · exact hlt

theorem encodes (bytes : List UInt8) : ∃ ds, Encodes bytes (encoded bytes) ds := by
  induction bytes using List.reverseRecOn with
  | nil => exact ⟨[], rfl, fun _ h ↦ (by cases h), .start, Nat.one_pos, by decide⟩
  | append_singleton bytes b ih =>
    obtain ⟨ds, h⟩ := ih
    have hor : (encoded bytes).buffer <<< 8 % 2 ^ 32 ||| b.toNat =
        (encoded bytes).buffer * 2 ^ 8 + b.toNat :=
      or_eq (shiftLeft_lt h.buffer (by have := h.bits; omega)) b.toNat_lt
    obtain ⟨more, hout, hmore, hholds, hlt⟩ :=
      holds_groups _ (h.holds.take (d := b.toNat) b.toNat_lt)
    have hstep : encoded (bytes ++ [b]) = encodeByte (encoded bytes) b := by
      rw [encoded, List.foldl_append]
      rfl
    refine ⟨ds ++ more, ?_⟩
    rw [hstep, encodeByte, hor, and_eq]
    refine ⟨?_, ?_, ?_, Nat.mod_lt _ (Nat.two_pow_pos _), hlt⟩
    · rw [h.out, hout, List.map_append]
    · exact List.forall_mem_append.2 ⟨h.letters, hmore⟩
    · rw [List.map_append]
      exact hholds.mask

/-- What was decoded is in the bytes and the buffer. -/
structure Decodes (ds : List ℕ) (s : Decoding) : Prop where
  holds : Holds 5 8 ds (s.out.map UInt8.toNat) s.buffer s.bits
  buffer : s.buffer < 2 ^ s.bits
  bits : s.bits < 8

/-- A letter goes into the buffer, and a byte comes out when there are eight bits. -/
theorem Decodes.letter {s : Decoding} (h : Decodes ds s) {d : ℕ} (hd : d < 2 ^ 5) :
    ∃ t, decodeByte s (letterByte d) = some t ∧ Decodes (ds ++ [d]) t := by
  have hor : s.buffer <<< 5 % 2 ^ 32 ||| d = s.buffer * 2 ^ 5 + d :=
    or_eq (shiftLeft_lt h.buffer (by have := h.bits; omega)) hd
  have htake := h.holds.take hd
  rw [decodeByte, idxOf?_letterByte d hd, Option.map_some, hor]
  by_cases hbits : 8 ≤ s.bits + 5
  · obtain ⟨n, hn⟩ := Nat.exists_eq_add_of_le' hbits
    rw [hn] at htake
    have hbyte : (UInt8.ofNat ((s.buffer * 2 ^ 5 + d) >>> n &&& 0xff)).toNat =
        (s.buffer * 2 ^ 5 + d) / 2 ^ n % 2 ^ 8 := by
      rw [Nat.shiftRight_eq_div_pow, Nat.and_two_pow_sub_one_eq_mod _ 8, UInt8.toNat_ofNat']
      exact Nat.mod_mod _ _
    rw [if_pos hbits, hn, Nat.add_sub_cancel, and_eq]
    refine ⟨_, rfl, ?_, Nat.mod_lt _ (Nat.two_pow_pos _), ?_⟩
    · rw [List.map_append, List.map_singleton, hbyte]
      exact htake.give.mask
    · have := h.bits
      dsimp only
      omega
  · rw [if_neg hbits]
    refine ⟨_, rfl, htake, ?_, not_le.1 hbits⟩
    have hlt := h.buffer
    dsimp only
    rw [Nat.pow_add]
    omega

theorem decodes (h : ∀ d ∈ ds, d < 2 ^ 5) :
    ∃ s, (ds.map letterByte).foldlM decodeByte ⟨[], 0, 0⟩ = some s ∧ Decodes ds s := by
  induction ds using List.reverseRecOn with
  | nil => exact ⟨_, rfl, .start, Nat.one_pos, by decide⟩
  | append_singleton ds d ih =>
    obtain ⟨hds, hd⟩ := List.forall_mem_append.1 h
    obtain ⟨s, hs, hdec⟩ := ih hds
    obtain ⟨t, ht, hdec'⟩ := hdec.letter (hd d List.mem_cons_self)
    refine ⟨t, ?_, hdec'⟩
    rw [List.map_append, List.foldlM_append, hs]
    simpa using ht

/-- What can be decoded is made of letters. -/
theorem exists_letters {cs : List UInt8} {s t : Decoding} (h : cs.foldlM decodeByte s = some t) :
    ∃ ds : List ℕ, cs = ds.map letterByte ∧ ∀ d ∈ ds, d < 2 ^ 5 := by
  induction cs generalizing s with
  | nil => exact ⟨[], rfl, fun _ h ↦ (by cases h)⟩
  | cons c cs ih =>
    rw [List.foldlM_cons] at h
    obtain ⟨u, hu, hrest⟩ := Option.bind_eq_some_iff.1 h
    obtain ⟨d, hd, -⟩ := Option.map_eq_some_iff.1 hu
    obtain ⟨hlt, rfl⟩ := eq_letterByte_of_idxOf? hd
    obtain ⟨ds, rfl, hds⟩ := ih hrest
    exact ⟨d :: ds, rfl, List.forall_mem_cons.2 ⟨hlt, hds⟩⟩

/-! ### Keys -/

/-- The digits of a key. -/
structure Spells (k : Key) (ds : List ℕ) : Prop where
  letters : ∀ d ∈ ds, d < 2 ^ 5
  length : ds.length = 52
  value : value 5 ds = value 8 (k.1.map UInt8.toNat) * 2 ^ 4

/-- A key has one spelling. -/
theorem Spells.unique {k : Key} {es : List ℕ} (h : Spells k ds) (h' : Spells k es) : ds = es :=
  value_inj (h.length.trans h'.length.symm) h.letters h'.letters (h.value.trans h'.value.symm)

/-- Bytes are told apart by the number they write, if there are as many. -/
theorem bytes_inj {bs cs : List UInt8} (hlen : bs.length = cs.length)
    (h : value 8 (bs.map UInt8.toNat) = value 8 (cs.map UInt8.toNat)) : bs = cs := by
  have hlt (bs : List UInt8) : ∀ d ∈ bs.map UInt8.toNat, d < 2 ^ 8 := by
    rw [List.forall_mem_map]
    exact fun b _ ↦ b.toNat_lt
  have hsame := value_inj (by rw [List.length_map, List.length_map, hlen]) (hlt bs) (hlt cs) h
  exact List.map_injective_iff.2 (fun _ _ ↦ UInt8.toNat_inj.1) hsame

/-- **What `encode` writes** is the spelling of the key. -/
theorem encode_spells (k : Key) :
    ∃ ds : List ℕ, Spells k ds ∧ encode k.1 = .ofList (ds.map letter) := by
  obtain ⟨ds, h⟩ := encodes k.1
  have hlength := h.holds.length
  rw [List.length_map, k.2] at hlength
  have hlt := h.bits
  have hbits : (encoded k.1).bits = 1 := by omega
  have hbuffer := h.buffer
  have hholds := h.holds
  rw [hbits] at hbuffer hholds
  have hlast : (encoded k.1).buffer * 2 ^ 4 < 2 ^ 5 := by omega
  have hdigit : (encoded k.1).buffer <<< 4 % 2 ^ 32 &&& 31 = (encoded k.1).buffer * 2 ^ 4 := by
    rw [Nat.and_two_pow_sub_one_eq_mod _ 5, Nat.shiftLeft_eq]
    omega
  obtain ⟨hvalue, hpad⟩ := hholds.pad (n := 4) hbuffer rfl
  refine ⟨ds ++ [(encoded k.1).buffer * 2 ^ 4], ⟨?_, ?_, hvalue⟩, ?_⟩
  · exact List.forall_mem_append.2 ⟨h.letters, List.forall_mem_singleton.2 hlast⟩
  · rw [List.length_map, k.2] at hpad
    omega
  · rw [encode, hbits, if_pos Nat.one_pos, hdigit, h.out, List.map_append]
    rfl

/-- What is decoded from 52 letters. -/
theorem Decodes.spells {d : Decoding} (h : Decodes ds d) (hds : ∀ d ∈ ds, d < 2 ^ 5)
    (hlen : ds.length = 52) :
    d.out.length = 32 ∧ ∀ k : Key, Spells k ds ↔ d.buffer = 0 ∧ d.out = k.1 := by
  have hlength := h.holds.length
  have hlt := h.bits
  rw [hlen, List.length_map] at hlength
  have hout : d.out.length = 32 := by omega
  have hbits : d.bits = 4 := by omega
  have hvalue := h.holds.value
  have hbuffer := h.buffer
  rw [hbits] at hvalue hbuffer
  rw [Nat.mod_eq_of_lt hbuffer] at hvalue
  refine ⟨hout, fun k ↦ ⟨fun hspells ↦ ?_, fun ⟨hzero, hkey⟩ ↦ ⟨hds, hlen, ?_⟩⟩⟩
  · have hsame := hspells.value
    rw [hvalue] at hsame
    refine ⟨by omega, bytes_inj (hout.trans k.2.symm) (by omega)⟩
  · rw [hvalue, hzero, hkey, Nat.add_zero]

theorem utf8_injective {s t : String} (h : utf8 s = utf8 t) : s = t := by
  rw [← utf8Lossy_utf8 s, h, utf8Lossy_utf8]

/-- **What `decode_key` reads** is the key of the spelling. -/
theorem decodeKey_eq_some_iff {s : String} {k : Key} :
    decodeKey s = some k ↔ ∃ ds : List ℕ, Spells k ds ∧ s = .ofList (ds.map letter) := by
  constructor
  · intro h
    rw [decodeKey] at h
    split at h
    case isTrue hlen =>
      obtain ⟨d, hd, hkey⟩ := Option.bind_eq_some_iff.1 h
      obtain ⟨ds, hutf8, hds⟩ := exists_letters hd
      obtain ⟨d', hd', hdec⟩ := decodes hds
      rw [hutf8, hd', Option.some.injEq] at hd
      subst hd
      rw [hutf8, List.length_map] at hlen
      split at hkey
      case isTrue hzero =>
        refine ⟨ds, ((hdec.spells hds hlen).2 k).2 ⟨hzero.2, ?_⟩, ?_⟩
        · rw [← Option.some.inj hkey]
        · exact utf8_injective (hutf8.trans (utf8_ofList_letters hds).symm)
      case isFalse => cases hkey
    case isFalse => cases h
  · rintro ⟨ds, hspells, rfl⟩
    obtain ⟨d, hd, hdec⟩ := decodes hspells.letters
    obtain ⟨hout, hiff⟩ := hdec.spells hspells.letters hspells.length
    obtain ⟨hzero, hkey⟩ := (hiff k).1 hspells
    have hlen : (ds.map letterByte).length = 52 := by rw [List.length_map, hspells.length]
    rw [decodeKey, utf8_ofList_letters hspells.letters, if_pos hlen, hd, Option.bind_some,
      dif_pos ⟨hout, hzero⟩]
    exact congrArg some (Subtype.ext hkey)

/-- **Keys and their spellings.** Each key is read back, each accepted text is the spelling of the
key it is read as, and no shift of `encode` loses bits, whatever is encoded. -/
theorem keys_round_trip :
    (∀ k : Key, decodeKey (encode k.1) = some k) ∧
      (∀ s (k : Key), decodeKey s = some k → encode k.1 = s) ∧
      ∀ bytes : List UInt8,
        (∀ front b rest, bytes = front ++ b :: rest → (encoded front).buffer <<< 8 < 2 ^ 32) ∧
          (encoded bytes).buffer <<< (5 - (encoded bytes).bits) < 2 ^ 32 := by
  refine ⟨fun k ↦ ?_, fun s k h ↦ ?_, fun bytes ↦ ⟨fun front _ _ _ ↦ ?_, ?_⟩⟩
  · obtain ⟨ds, hspells, hencode⟩ := encode_spells k
    exact decodeKey_eq_some_iff.2 ⟨ds, hspells, hencode⟩
  · obtain ⟨ds, hspells, rfl⟩ := decodeKey_eq_some_iff.1 h
    obtain ⟨es, hspells', hencode⟩ := encode_spells k
    rw [hencode, hspells'.unique hspells]
  · obtain ⟨ds, h⟩ := encodes front
    exact shiftLeft_lt h.buffer (by have := h.bits; omega)
  · obtain ⟨ds, h⟩ := encodes bytes
    exact shiftLeft_lt h.buffer (by have := h.bits; omega)

end Ember.Hub.Z32
