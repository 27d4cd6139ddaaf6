import Ember.Intellij.CellSync
import Mathlib

/-!
# What the matcher pairs

`CellMatcher.match` goes over the buffer four times: the preamble, then by `@id`, by the hash of the
body, by index. Every round only adds pairs with cells that were free, so no cell is paired twice
(`match_single`), and the preamble, which is paired first, stays with the preamble
(`Document.match_pairs`).

`match_self` says what is found where the document is as the buffer has it: every cell is paired with
the one in its own place. It needs that no `@id` names another cell (`Apart`).
-/

namespace Ember.Intellij

/-- Walking along a list with the places of its elements. -/
theorem foldl_zipIdx {α σ : Type*} {P : ℕ → σ → Prop} {f : σ → α × ℕ → σ} {l : List α} {s : σ}
    (hs : P 0 s) (step : ∀ k a s, l[k]? = some a → P k s → P (k + 1) (f s (a, k))) :
    P l.length (l.zipIdx.foldl f s) := by
  induction l using List.reverseRecOn with
  | nil => exact hs
  | append_singleton l a ih =>
    rw [List.zipIdx_append, List.foldl_append, List.length_append]
    have hwalk := ih fun k b s hb ↦ step k b s (by
      rw [List.getElem?_append_left (List.getElem?_eq_some_iff.1 hb).1, hb])
    simpa using step l.length a _ (by simp) hwalk

/-! ### Metadata -/

variable {v : JsonValue} {k : String}

namespace Metadata

/-- What a Kotlin map of JSON values is, with no number beyond what a `Long` holds. -/
structure Sound (m : Metadata) : Prop where
  keys : (m.map Prod.fst).Nodup
  keyed : ∀ p ∈ m, p.2.keyed = true
  inRange : ∀ p ∈ m, p.2.inRange = true

/-- The same entries, numbers by value. -/
def same (a b : Metadata) : Bool :=
  a.length == b.length && a.all fun p ↦
    match b.lookup p.1 with
    | some v => v.plain.eqv p.2.plain
    | none => false

theorem mem_of_lookup {m : Metadata} (h : m.lookup k = some v) :
    (k, v) ∈ m := by
  induction m with
  | nil => cases h
  | cons p rest ih =>
    rw [List.lookup_cons] at h
    split at h
    case h_1 heq =>
      obtain rfl := Option.some.inj h
      obtain rfl := eq_of_beq heq
      exact List.mem_cons_self
    case h_2 => exact List.mem_cons_of_mem _ (ih h)

/-- In range, `sameMetadata` compares numbers by value. -/
theorem sameMetadata_eq {a b : Metadata} (ha : a.Sound) (hb : b.Sound) :
    CellReconciler.sameMetadata a b = a.same b := by
  rw [CellReconciler.sameMetadata, same, Bool.eq_iff_iff]
  simp only [Bool.and_eq_true, List.all_eq_true]
  refine and_congr_right fun _ ↦ forall₂_congr fun p hp ↦ ?_
  cases hv : b.lookup p.1 with
  | none => rfl
  | some v =>
    dsimp only
    rw [JsonValue.norm_eq_plain (ha.inRange p hp),
      JsonValue.norm_eq_plain (hb.inRange _ (mem_of_lookup hv))]

theorem plain_eqv_self (hv : v.keyed = true) : v.plain.eqv v.plain = true := by
  refine JsonValue.eqv_mapDouble (fun d ↦ ?_) hv
  cases d <;> simp [Dbl.plain, JsonValue.eqv]

theorem same_self {m : Metadata} (hm : m.Sound) : m.same m = true := by
  simp only [same, beq_self_eq_true, Bool.true_and, List.all_eq_true]
  intro p hp
  rw [JsonValue.lookup_of_nodup hm.keys hp]
  exact plain_eqv_self (hm.keyed p hp)

/-- The only values equal to a string are that string. -/
theorem eq_str_of_plain {s : String}
    (h : v.plain.eqv (JsonValue.plain (.str s)) = true ∨ (JsonValue.plain (.str s)).eqv v.plain = true) :
    v = .str s := by
  cases v with
  | str t =>
    simp only [JsonValue.plain, JsonValue.mapDouble, JsonValue.eqv, beq_iff_eq] at h
    rcases h with rfl | rfl <;> rfl
  | double d => cases d <;> simp [JsonValue.plain, JsonValue.mapDouble, JsonValue.eqv, Dbl.plain] at h
  | _ => simp [JsonValue.plain, JsonValue.mapDouble, JsonValue.eqv] at h

theorem lookup_isSome {m : Metadata} :
    (m.lookup k).isSome = true ↔ k ∈ m.map Prod.fst := by
  induction m with
  | nil => simp
  | cons p rest ih =>
    rw [List.lookup_cons, List.map_cons, List.mem_cons]
    split
    case h_1 heq => simp [eq_of_beq heq]
    case h_2 heq => simp [ih, ne_of_beq_false heq]

theorem lookup_of_same {a b : Metadata} (h : a.same b = true)
    (hv : a.lookup k = some v) : ∃ v', b.lookup k = some v' ∧ v'.plain.eqv v.plain = true := by
  simp only [same, Bool.and_eq_true, List.all_eq_true] at h
  have hp := h.2 (k, v) (mem_of_lookup hv)
  split at hp
  case h_1 v' hv' => exact ⟨v', hv', hp⟩
  case h_2 => cases hp

/-- Equal metadata give the same strings. -/
theorem hasId_of_same {a b : Metadata} (ha : a.Sound) (h : a.same b = true)
    (id : String) : b.hasId id = a.hasId id := by
  have hstr : ∀ s, a.lookup "id" = some (.str s) ↔ b.lookup "id" = some (.str s) := by
    intro s
    constructor <;> intro hs
    · obtain ⟨v', hv', heq⟩ := lookup_of_same h hs
      rw [hv', eq_str_of_plain (.inl heq)]
    · -- as many keys, and all of the first are the second's
      have hkeys : (a.map Prod.fst).Perm (b.map Prod.fst) := by
        refine (List.subperm_of_subset ha.keys fun k hk ↦ ?_).perm_of_length_le ?_
        · obtain ⟨v, hv⟩ := Option.isSome_iff_exists.1 (lookup_isSome.2 hk)
          obtain ⟨v', hv', -⟩ := lookup_of_same h hv
          exact lookup_isSome.1 (by rw [hv', Option.isSome_some])
        · have hlen : a.length = b.length := by
            simp only [same, Bool.and_eq_true, beq_iff_eq] at h
            exact h.1
          simp [hlen]
      have hmem := hkeys.mem_iff.2 (lookup_isSome.1 (show (b.lookup "id").isSome = true by simp [hs]))
      obtain ⟨v, hv⟩ := Option.isSome_iff_exists.1 (lookup_isSome.2 hmem)
      obtain ⟨v', hv', heq⟩ := lookup_of_same h hv
      obtain rfl : v' = .str s := Option.some.inj (hv'.symm.trans hs)
      rw [hv, eq_str_of_plain (.inr heq)]
  have hiff : ∀ m : Metadata, m.hasId id = true ↔ m.lookup "id" = some (.str id) := by
    intro m
    unfold hasId
    split
    case h_1 s hs => simp [hs]
    case h_2 hno => exact iff_of_false Bool.false_ne_true (hno id)
  rw [Bool.eq_iff_iff, hiff, hiff, hstr]

end Metadata

/-! ### Pairing -/

variable {find : Matching → NotebookCell → Option DocCell} {i : ℕ}

namespace Matching

variable {local_ : List NotebookCell} {server : List DocCell} {m : Matching}

theorem pair_claim (hi : i < m.result.length) (c : DocCell) (j : ℕ) :
    (m.claim i (some c)).pair j = if j = i then some c.cellId else m.pair j := by
  simp only [pair, claim]
  split
  case isTrue h =>
    subst h
    simp [hi]
  case isFalse h => rw [List.getElem?_set_ne (Ne.symm h)]

theorem length_claim (i : ℕ) (c : Option DocCell) : (m.claim i c).result.length = m.result.length := by
  cases c <;> simp [claim]

/-- One pass, place by place. -/
theorem pass_induct {P : ℕ → Matching → Prop} (hm : P 0 m)
    (kept : ∀ k l m, local_[k]? = some l → P k m → (m.pair k).isSome = true →
      P (k + 1) m)
    (claimed : ∀ k l m, local_[k]? = some l → P k m → m.pair k = none →
      P (k + 1) (m.claim k (find m l))) :
    P local_.length (pass find local_ m) := by
  refine foldl_zipIdx hm fun k l m hl hP ↦ ?_
  dsimp only
  split
  case isTrue h => exact kept k l m hl hP h
  case isFalse h => exact claimed k l m hl hP (by simpa using h)

/-- What holds of the pairs throughout. -/
structure Sound (local_ : List NotebookCell) (server : List DocCell) (m : Matching) : Prop where
  length : m.result.length = local_.length
  claimed : ∀ i id, m.pair i = some id → id ∈ m.claimed
  known : ∀ i id, m.pair i = some id → ∃ c ∈ server, c.cellId = id
  single : ∀ i j id, m.pair i = some id → m.pair j = some id → i = j

/-- A free cell may be paired. -/
theorem Sound.claim (h : m.Sound local_ server) {c : DocCell} (hi : i < local_.length)
    (hc : c ∈ server) (hfree : m.unclaimed c = true) : (m.claim i (some c)).Sound local_ server := by
  have hi' : i < m.result.length := h.length ▸ hi
  have hnew : ∀ j, m.pair j ≠ some c.cellId := fun j hj ↦ by
    have := h.claimed j _ hj
    simp [unclaimed, this] at hfree
  refine ⟨(length_claim i _).trans h.length, fun j id hj ↦ ?_, fun j id hj ↦ ?_, fun j k id hj hk ↦ ?_⟩
  · rw [pair_claim hi'] at hj
    split at hj
    · exact Option.some.inj hj ▸ List.mem_cons_self
    · exact List.mem_cons_of_mem _ (h.claimed j id hj)
  · rw [pair_claim hi'] at hj
    split at hj
    · exact ⟨c, hc, Option.some.inj hj⟩
    · exact h.known j id hj
  · rw [pair_claim hi'] at hj hk
    split at hj <;> split at hk
    case isTrue.isTrue hji hki => exact hji.trans hki.symm
    case isTrue.isFalse => exact absurd (Option.some.inj hj ▸ hk) (hnew k)
    case isFalse.isTrue => exact absurd (Option.some.inj hk ▸ hj) (hnew j)
    case isFalse.isFalse => exact h.single j k id hj hk

/-- What a pass looks for: a free cell of the document. -/
def Finds (server : List DocCell) (find : Matching → NotebookCell → Option DocCell) : Prop :=
  ∀ m l c, find m l = some c → c ∈ server ∧ m.unclaimed c = true

theorem Sound.pass (h : m.Sound local_ server)
    (hfind : Finds server find) : (pass find local_ m).Sound local_ server := by
  refine pass_induct (P := fun _ m ↦ m.Sound local_ server) h (fun _ _ _ _ h _ ↦ h) ?_
  intro k l m hl h _
  cases hc : find m l with
  | none => exact h
  | some c =>
    obtain ⟨hmem, hfree⟩ := hfind m l c hc
    exact h.claim (List.getElem?_eq_some_iff.1 hl).1 hmem hfree

/-- What is paired stays so. -/
theorem pair_pass {id : String} (hlen : m.result.length = local_.length) (hi : m.pair i = some id) :
    (pass find local_ m).pair i = some id := by
  refine (pass_induct (P := fun _ m ↦ m.result.length = local_.length ∧ m.pair i = some id)
    ⟨hlen, hi⟩ (fun _ _ _ _ h _ ↦ h) ?_).2
  rintro k l m hl ⟨hlen, hi⟩ hnone
  refine ⟨(length_claim k _).trans hlen, ?_⟩
  cases find m l with
  | none => exact hi
  | some c =>
    have hk : k < m.result.length := hlen ▸ (List.getElem?_eq_some_iff.1 hl).1
    rw [pair_claim hk, if_neg (fun heq ↦ by rw [← heq, hi] at hnone; cases hnone), hi]

end Matching

namespace CellMatcher

open Matching

variable (stringify : JsonValue → String) (server : List DocCell)

theorem finds_byId : Finds server (byId stringify server) := by
  intro m l c hc
  unfold byId at hc
  split at hc
  case h_1 id _ =>
    have hsome := List.find?_some hc
    rw [Bool.and_eq_true] at hsome
    exact ⟨List.mem_of_find?_eq_some hc, hsome.1⟩
  case h_2 => cases hc

theorem finds_bySha : Finds server (bySha server) := by
  intro m l c hc
  unfold bySha at hc
  split at hc
  case isTrue => cases hc
  case isFalse =>
    obtain ⟨hmem, hfree⟩ := List.mem_filter.1 (List.argmin_mem hc)
    simp only [Bool.and_eq_true] at hfree
    exact ⟨hmem, hfree.1.1⟩

theorem finds_byIndex : Finds server (byIndex server) := by
  intro m l c hc
  unfold byIndex at hc
  split at hc
  case isTrue => cases hc
  case isFalse =>
    have hsome := List.find?_some hc
    simp only [Bool.and_eq_true] at hsome
    exact ⟨List.mem_of_find?_eq_some hc, hsome.1.1⟩

theorem sound_start (local_ : List NotebookCell) :
    (⟨local_.map fun _ ↦ none, []⟩ : Matching).Sound local_ server := by
  have hnone : ∀ i, (⟨local_.map fun _ ↦ none, []⟩ : Matching).pair i = none := fun i ↦ by
    simp only [pair, List.getElem?_map]
    cases local_[i]? <;> rfl
  refine ⟨List.length_map .., fun i id h ↦ ?_, fun i id h ↦ ?_, fun i j id h ↦ ?_⟩ <;>
    exact absurd ((hnone i).symm.trans h) (Option.some_ne_none id).symm

theorem sound_preamble (local_ : List NotebookCell) :
    (preamble server local_).Sound local_ server := by
  have hstart := sound_start server local_
  simp only [preamble]
  split
  case isTrue hhead =>
    have hpos : 0 < local_.length := by
      cases local_ with
      | nil => cases hhead
      | cons => exact Nat.succ_pos _
    cases hc : server.find? fun c ↦ c.index == 0 with
    | none => exact hstart
    | some c => exact hstart.claim hpos (List.mem_of_find?_eq_some hc) rfl
  case isFalse => exact hstart

/-- No round of the matcher pairs a cell twice. -/
theorem sound_matching (local_ : List NotebookCell) :
    (matching stringify server local_).Sound local_ server :=
  (((sound_preamble server local_).pass (finds_byId stringify server)).pass
    (finds_bySha server)).pass (finds_byIndex server)

end CellMatcher

/-! ### Documents and buffers -/

/-- The server's document as the plugin mirrors it: where a cell stands is its index, so that the
first is the preamble, and ids are the manager's own. -/
structure Document where
  preamble : DocCell
  rest : List DocCell
  index : ∀ (i : ℕ) (s : DocCell), (preamble :: rest)[i]? = some s → s.index = i
  ids : ((preamble :: rest).map DocCell.cellId).Nodup
  fresh : ∀ s ∈ preamble :: rest, ∀ n : ℕ, s.cellId ≠ CellReconciler.newRef n
  metadata : ∀ s ∈ preamble :: rest, s.metadata.Sound

/-- The cells. -/
def Document.cells (d : Document) : List DocCell := d.preamble :: d.rest

/-- The editor buffer as the parser yields it. -/
structure Buffer where
  preamble : NotebookCell
  rest : List NotebookCell
  index : ∀ (i : ℕ) (l : NotebookCell), (preamble :: rest)[i]? = some l → l.index = i
  metadata : ∀ l ∈ preamble :: rest, l.metadata.Sound

/-- The cells. -/
def Buffer.cells (b : Buffer) : List NotebookCell := b.preamble :: b.rest

variable {l : NotebookCell}

theorem Buffer.isPreamble_iff (b : Buffer) (hl : b.cells[i]? = some l) :
    l.isPreamble = true ↔ i = 0 := by
  rw [NotebookCell.isPreamble, beq_iff_eq, b.index i l hl]

/-- Pairs of a buffer with a document: each cell once, the preamble with the preamble. -/
structure Pairs (d : Document) (b : Buffer) (pairs : List (Option String)) : Prop where
  length : pairs.length = b.cells.length
  known : ∀ (i : ℕ) (id : String), (pairs[i]?).join = some id → ∃ s ∈ d.cells, s.cellId = id
  single : ∀ (i j : ℕ) (id : String), (pairs[i]?).join = some id → (pairs[j]?).join = some id → i = j
  preamble : (pairs[0]?).join = some d.preamble.cellId

namespace Document

variable (d : Document) (b : Buffer)

theorem find_preamble : d.cells.find? (fun c ↦ c.index == 0) = some d.preamble := by
  have h0 := d.index 0 d.preamble rfl
  rw [cells, List.find?_cons_of_pos (by simp [h0])]

theorem pair_preamble :
    (CellMatcher.preamble d.cells b.cells).pair 0 = some d.preamble.cellId := by
  have h0 : b.preamble.isPreamble = true := (b.isPreamble_iff (i := 0) rfl).2 rfl
  rw [CellMatcher.preamble, if_pos (by simpa [Buffer.cells] using h0), find_preamble,
    Matching.pair_claim (by simp [Buffer.cells]), if_pos rfl]

/-- **The matcher pairs no cell twice and the preamble with the preamble.** -/
theorem match_pairs (stringify : JsonValue → String) :
    Pairs d b (CellMatcher.match_ stringify d.cells b.cells) := by
  have hpre := CellMatcher.sound_preamble d.cells b.cells
  have hid := hpre.pass (CellMatcher.finds_byId stringify d.cells)
  have hsha := hid.pass (CellMatcher.finds_bySha d.cells)
  have hall := CellMatcher.sound_matching stringify d.cells b.cells
  exact ⟨hall.length, hall.known, hall.single, Matching.pair_pass hsha.length
    (Matching.pair_pass hid.length (Matching.pair_pass hpre.length (d.pair_preamble b)))⟩

end Document

/-! ### A document as the buffer has it -/

/-- A cell of the document is as the buffer has it. -/
structure NotebookCell.Same (l : NotebookCell) (s : DocCell) : Prop where
  source : l.source = s.source
  sha : l.sourceSha256 = s.sourceSha256
  other : l.isPreamble = false → l.type = s.type ∧ l.metadata.same s.metadata = true

/-- The document is as the buffer has it. -/
def Buffer.Same (b : Buffer) (d : Document) : Prop := List.Forall₂ NotebookCell.Same b.cells d.cells

/-- No `@id` of a cell names another: as its id, or, where it is not a string, as its `@id`. -/
def Apart (stringify : JsonValue → String) (b : Buffer) (d : Document) : Prop :=
  ∀ (i j : ℕ) (l : NotebookCell) (s : DocCell) (id : String), i ≠ j → b.cells[i]? = some l →
    d.cells[j]? = some s → l.id stringify = some id →
      s.cellId ≠ id ∧ (s.metadata.hasId id = true → l.metadata.hasId id = true)

theorem Buffer.Same.get {b : Buffer} {d : Document} (h : b.Same d)
    (hl : b.cells[i]? = some l) : ∃ s, d.cells[i]? = some s ∧ l.Same s := by
  obtain ⟨hi, rfl⟩ := List.getElem?_eq_some_iff.1 hl
  obtain ⟨hlen, hget⟩ := List.forall₂_iff_get.1 h
  exact ⟨d.cells.get ⟨i, hlen ▸ hi⟩, List.getElem?_eq_getElem _, hget i hi (hlen ▸ hi)⟩

variable {s : DocCell}

/-- Cells in two places have two ids. -/
theorem Document.place_unique (d : Document) {j : ℕ} {t : DocCell} (hs : d.cells[i]? = some s)
    (ht : d.cells[j]? = some t) (h : s.cellId = t.cellId) : i = j := by
  have hi : i < (d.cells.map DocCell.cellId).length := by
    rw [List.length_map]
    exact (List.getElem?_eq_some_iff.1 hs).1
  refine (List.getElem?_inj hi d.ids).1 ?_
  show (d.cells.map DocCell.cellId)[i]? = (d.cells.map DocCell.cellId)[j]?
  rw [List.getElem?_map, List.getElem?_map, hs, ht, Option.map_some, Option.map_some, h]

namespace Matching

variable {d : Document} {b : Buffer} {m : Matching}

/-- Every pair so far is of cells in one place. -/
structure InPlace (d : Document) (b : Buffer) (m : Matching) : Prop where
  sound : m.Sound b.cells d.cells
  place : ∀ i id, m.pair i = some id → ∃ s, d.cells[i]? = some s ∧ s.cellId = id
  claimed : ∀ id ∈ m.claimed, ∃ i, m.pair i = some id
  first : (m.pair 0).isSome = true

namespace InPlace

/-- A cell is free as long as there is no pair in its place. -/
theorem free_iff (h : m.InPlace d b) {j : ℕ} (hs : d.cells[j]? = some s) :
    m.unclaimed s = true ↔ m.pair j = none := by
  have hmem : m.unclaimed s = true ↔ s.cellId ∉ m.claimed := by simp [unclaimed]
  rw [hmem, Option.eq_none_iff_forall_ne_some]
  refine ⟨fun hfree id hid ↦ hfree ?_, fun hnone hclaimed ↦ ?_⟩
  · obtain ⟨t, ht, rfl⟩ := h.place j id hid
    obtain rfl : t = s := Option.some.inj (ht.symm.trans hs)
    exact h.sound.claimed j _ hid
  · obtain ⟨i, hi⟩ := h.claimed _ hclaimed
    obtain ⟨t, ht, hid⟩ := h.place i _ hi
    obtain rfl := d.place_unique ht hs hid
    exact hnone _ hi

theorem claim (h : m.InPlace d b) {k : ℕ} (hk : k < b.cells.length) (hs : d.cells[k]? = some s)
    (hnone : m.pair k = none) : (m.claim k (some s)).InPlace d b := by
  have hk' : k < m.result.length := h.sound.length ▸ hk
  refine ⟨h.sound.claim hk (List.mem_of_getElem? hs) ((h.free_iff hs).2 hnone), fun i id hi ↦ ?_,
    fun id hid ↦ ?_, ?_⟩
  · rw [pair_claim hk'] at hi
    split at hi
    case isTrue hik =>
      subst hik
      exact ⟨s, hs, Option.some.inj hi⟩
    case isFalse => exact h.place i id hi
  · rcases List.mem_cons.1 hid with rfl | hid
    · exact ⟨k, by rw [pair_claim hk', if_pos rfl]⟩
    · obtain ⟨i, hi⟩ := h.claimed id hid
      have hik : i ≠ k := fun heq ↦ by
        rw [heq, hnone] at hi
        cases hi
      exact ⟨i, by rw [pair_claim hk', if_neg hik, hi]⟩
  · rw [pair_claim hk']
    split
    · rfl
    · exact h.first

/-- A pass that finds only cells in place, at the places where nothing is found yet. -/
theorem pass (h : m.InPlace d b) {find : Matching → NotebookCell → Option DocCell}
    (hfind : ∀ k l m s, b.cells[k]? = some l → m.InPlace d b → m.pair k = none → k ≠ 0 →
      find m l = some s → d.cells[k]? = some s) : (pass find b.cells m).InPlace d b := by
  refine pass_induct (P := fun _ m ↦ m.InPlace d b) h (fun _ _ _ _ h _ ↦ h) ?_
  intro k l m hl h hnone
  have hk : k ≠ 0 := fun heq ↦ by simpa [heq ▸ hnone] using h.first
  cases hs : find m l with
  | none => exact h
  | some s =>
    exact h.claim (List.getElem?_eq_some_iff.1 hl).1 (hfind k l m s hl h hnone hk hs) hnone

end InPlace

end Matching

namespace CellMatcher

open Matching

variable {d : Document} {b : Buffer} {m : Matching} {stringify : JsonValue → String}

theorem id_of_hasId {id : String} (h : l.metadata.hasId id = true) :
    l.id stringify = some id := by
  unfold Metadata.hasId at h
  unfold NotebookCell.id
  split at h
  case h_1 s hs =>
    obtain rfl := eq_of_beq h
    rw [hs]
  case h_2 => cases h

/-- A cell other than the preamble and the one in its place have the same `@id`. -/
theorem hasId_get (hsame : b.Same d) {k : ℕ} (hk : k ≠ 0) (hl : b.cells[k]? = some l)
    (hs : d.cells[k]? = some s) (id : String) :
    s.metadata.hasId id = l.metadata.hasId id := by
  obtain ⟨t, ht, hlt⟩ := hsame.get hl
  obtain rfl : t = s := Option.some.inj (ht.symm.trans hs)
  have hpre : l.isPreamble = false := by simpa using mt (b.isPreamble_iff hl).1 hk
  exact Metadata.hasId_of_same (b.metadata l (List.mem_of_getElem? hl)) (hlt.other hpre).2 id

/-- Before a place, every cell with an `@id` that is a string is paired. -/
def IdsPaired (b : Buffer) (k : ℕ) (m : Matching) : Prop :=
  ∀ j < k, ∀ l id, b.cells[j]? = some l → l.metadata.hasId id = true → (m.pair j).isSome = true

theorem IdsPaired.succ {k : ℕ} (h : IdsPaired b k m)
    (hk : ∀ l id, b.cells[k]? = some l → l.metadata.hasId id = true → (m.pair k).isSome = true) :
    IdsPaired b (k + 1) m := by
  intro j hj l id hl hid
  rcases Nat.lt_succ_iff_lt_or_eq.1 hj with hj | rfl
  · exact h j hj l id hl hid
  · exact hk l id hl hid

/-- What is found by `@id` stands in the place of the cell: a free cell with the same `@id` does not
stand before it, and the one in its place comes before those behind it. -/
theorem place_of_byId (hsame : b.Same d) (hapart : Apart stringify b d) (h : m.InPlace d b) {k : ℕ}
    {c : DocCell} (hbefore : IdsPaired b k m) (hl : b.cells[k]? = some l)
    (hnone : m.pair k = none) (hc : byId stringify d.cells m l = some c) :
    d.cells[k]? = some c := by
  have hklen := (List.getElem?_eq_some_iff.1 hl).1
  have hk0 : k ≠ 0 := fun heq ↦ by simpa [heq ▸ hnone] using h.first
  obtain ⟨s, hs, -⟩ := hsame.get hl
  unfold byId at hc
  split at hc
  case h_2 => cases hc
  case h_1 id hid =>
    obtain ⟨hfound, j, hj, hjc, hfirst⟩ := List.find?_eq_some_iff_getElem.1 hc
    simp only [Bool.and_eq_true, Bool.or_eq_true, beq_iff_eq] at hfound
    have hcj : d.cells[j]? = some c := List.getElem?_eq_some_iff.2 ⟨hj, hjc⟩
    by_contra hne
    have hkj : k ≠ j := fun heq ↦ hne (heq ▸ hcj)
    obtain ⟨hcid, hcl⟩ := hapart k j l c id hkj hl hcj hid
    have hchas := hfound.2.resolve_left hcid
    have hnonej := (h.free_iff hcj).1 hfound.1
    rcases Nat.lt_or_gt_of_ne hkj with hlt | hlt
    · have hno := hfirst k hlt
      rw [(List.getElem?_eq_some_iff.1 hs).2] at hno
      simp [(h.free_iff hs).2 hnone, hasId_get hsame hk0 hl hs, hcl hchas] at hno
    · have hj0 : j ≠ 0 := fun heq ↦ by simpa [heq ▸ hnonej] using h.first
      have hjlen := hlt.trans hklen
      have hlj : b.cells[j]? = some b.cells[j] := List.getElem?_eq_getElem hjlen
      have hpaired := hbefore j hlt _ id hlj (hasId_get hsame hj0 hlj hcj id ▸ hchas)
      rw [hnonej] at hpaired
      cases hpaired

theorem inPlace_byId (hsame : b.Same d) (hapart : Apart stringify b d) (h : m.InPlace d b) :
    (pass (byId stringify d.cells) b.cells m).InPlace d b := by
  refine (pass_induct (P := fun k m ↦ m.InPlace d b ∧ IdsPaired b k m)
    ⟨h, fun j hj ↦ absurd hj (Nat.not_lt_zero j)⟩ ?_ ?_).1
  · rintro k l m hl ⟨h, hbefore⟩ hk
    exact ⟨h, hbefore.succ fun _ _ _ _ ↦ hk⟩
  · rintro k l m hl ⟨h, hbefore⟩ hnone
    have hklen := (List.getElem?_eq_some_iff.1 hl).1
    have hk0 : k ≠ 0 := fun heq ↦ by simpa [heq ▸ hnone] using h.first
    cases hc : byId stringify d.cells m l with
    | none =>
      refine ⟨h, hbefore.succ fun l' id hl' hid ↦ ?_⟩
      -- the cell in its place would have been found
      obtain rfl : l = l' := Option.some.inj (hl.symm.trans hl')
      obtain ⟨s, hs, -⟩ := hsame.get hl
      rw [byId, id_of_hasId hid] at hc
      have hno := List.find?_eq_none.1 hc s (List.mem_of_getElem? hs)
      simp [(h.free_iff hs).2 hnone, hasId_get hsame hk0 hl hs, hid] at hno
    | some c =>
      have hpair := pair_claim (h.sound.length ▸ hklen : k < m.result.length) c
      refine ⟨h.claim hklen (place_of_byId hsame hapart h hbefore hl hnone hc) hnone,
        fun j hj l' id hl' hid ↦ ?_⟩
      rw [hpair]
      split
      case isTrue => rfl
      case isFalse hjk =>
        exact hbefore j (Nat.lt_of_le_of_ne (Nat.lt_succ_iff.1 hj) hjk) l' id hl' hid

/-- By the hash of the body: the cell in its place is free, and no other is as near. -/
theorem inPlace_bySha (hsame : b.Same d) (h : m.InPlace d b) :
    (pass (bySha d.cells) b.cells m).InPlace d b := by
  refine h.pass fun k l m c hl h hnone hk hc ↦ ?_
  have hpre : l.isPreamble = false := by simpa using mt (b.isPreamble_iff hl).1 hk
  obtain ⟨s, hs, hls⟩ := hsame.get hl
  have hsk := d.index k s hs
  have hlk := b.index k l hl
  rw [bySha, hpre, if_neg Bool.false_ne_true] at hc
  obtain ⟨hmem, -⟩ := List.mem_filter.1 (List.argmin_mem hc)
  obtain ⟨j, hj⟩ := List.mem_iff_getElem?.1 hmem
  have hcj := d.index j c hj
  have hnear := List.le_of_mem_argmin (List.mem_filter.2 ⟨List.mem_of_getElem? hs, by
    simp [(h.free_iff hs).2 hnone, hsk, hk, hls.sha]⟩) hc
  have hjk : j = k := by
    rw [hsk, hlk, hcj] at hnear
    omega
  exact hjk ▸ hj

/-- By index: the cell in its place is free. -/
theorem inPlace_byIndex (hsame : b.Same d) (h : m.InPlace d b) :
    (pass (byIndex d.cells) b.cells m).InPlace d b ∧
      ∀ k < b.cells.length, ((pass (byIndex d.cells) b.cells m).pair k).isSome = true := by
  refine pass_induct (P := fun k m ↦ m.InPlace d b ∧ ∀ j < k, (m.pair j).isSome = true)
    ⟨h, fun j hj ↦ absurd hj (Nat.not_lt_zero j)⟩ ?_ ?_
  · rintro k l m hl ⟨h, hbefore⟩ hk
    refine ⟨h, fun j hj ↦ ?_⟩
    rcases Nat.lt_succ_iff_lt_or_eq.1 hj with hj | rfl
    · exact hbefore j hj
    · exact hk
  · rintro k l m hl ⟨h, hbefore⟩ hnone
    have hklen := (List.getElem?_eq_some_iff.1 hl).1
    have hk0 : k ≠ 0 := fun heq ↦ by simpa [heq ▸ hnone] using h.first
    have hpre : l.isPreamble = false := by simpa using mt (b.isPreamble_iff hl).1 hk0
    obtain ⟨s, hs, -⟩ := hsame.get hl
    have hindex : ∀ c, byIndex d.cells m l = some c → d.cells[k]? = some c := by
      intro c hc
      rw [byIndex, hpre, if_neg Bool.false_ne_true] at hc
      have hfound := List.find?_some hc
      simp only [Bool.and_eq_true, beq_iff_eq] at hfound
      obtain ⟨j, hj⟩ := List.mem_iff_getElem?.1 (List.mem_of_find?_eq_some hc)
      have hjk : j = k := by rw [← d.index j c hj, hfound.1.2, b.index k l hl]
      exact hjk ▸ hj
    cases hc : byIndex d.cells m l with
    | none =>
      rw [byIndex, hpre, if_neg Bool.false_ne_true] at hc
      have hno := List.find?_eq_none.1 hc s (List.mem_of_getElem? hs)
      simp [(h.free_iff hs).2 hnone, d.index k s hs, b.index k l hl, hk0] at hno
    | some c =>
      refine ⟨h.claim hklen (hindex c hc) hnone, fun j hj ↦ ?_⟩
      rw [pair_claim (h.sound.length ▸ hklen)]
      split
      case isTrue => rfl
      case isFalse hjk => exact hbefore j (Nat.lt_of_le_of_ne (Nat.lt_succ_iff.1 hj) hjk)

theorem inPlace_preamble (d : Document) (b : Buffer) :
    (preamble d.cells b.cells).InPlace d b := by
  have hpair := d.pair_preamble b
  have hlen : (0 : ℕ) < (b.cells.map fun _ ↦ (none : Option String)).length := by
    simp [Buffer.cells]
  have h0 : b.preamble.isPreamble = true := (b.isPreamble_iff (i := 0) rfl).2 rfl
  have heq : preamble d.cells b.cells =
      (⟨b.cells.map fun _ ↦ none, []⟩ : Matching).claim 0 (some d.preamble) := by
    rw [preamble, if_pos (by simpa [Buffer.cells] using h0), d.find_preamble]
  refine ⟨sound_preamble d.cells b.cells, fun i id hi ↦ ?_, fun id hid ↦ ?_, by rw [hpair]; rfl⟩
  · rw [heq, pair_claim hlen] at hi
    split at hi
    case isTrue hi0 => exact ⟨d.preamble, hi0 ▸ rfl, Option.some.inj hi⟩
    case isFalse => exact absurd hi ((sound_start d.cells b.cells).claimed i id · |> List.not_mem_nil)
  · rw [heq] at hid
    exact ⟨0, by rw [hpair, List.mem_singleton.1 hid]⟩

end CellMatcher

/-- **A document as the buffer has it is paired cell by cell.** -/
theorem Document.match_self {d : Document} {b : Buffer} {stringify : JsonValue → String}
    (hsame : b.Same d) (hapart : Apart stringify b d) :
    CellMatcher.match_ stringify d.cells b.cells = d.cells.map fun s ↦ some s.cellId := by
  obtain ⟨hplace, hall⟩ := CellMatcher.inPlace_byIndex hsame <|
    CellMatcher.inPlace_bySha hsame <| CellMatcher.inPlace_byId hsame hapart <|
      CellMatcher.inPlace_preamble d b
  refine List.ext_getElem? fun k ↦ ?_
  rw [List.getElem?_map]
  by_cases hk : k < b.cells.length
  · obtain ⟨id, hid⟩ := Option.isSome_iff_exists.1 (hall k hk)
    obtain ⟨s, hs, rfl⟩ := hplace.place k id hid
    rw [hs, Option.map_some]
    exact Option.join_eq_some_iff.1 hid
  · have hlen := List.Forall₂.length_eq hsame
    rw [List.getElem?_eq_none (show d.cells.length ≤ k by omega), Option.map_none]
    exact List.getElem?_eq_none (hplace.sound.length ▸ not_lt.1 hk)

end Ember.Intellij
