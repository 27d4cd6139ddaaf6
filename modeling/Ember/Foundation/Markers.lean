import Mathlib.Data.List.Infix
import Mathlib.Data.Nat.Find

/-!
# Marked parts of a stream

Searching a list for another, and taking marked parts out of a stream: a part is marked by a list
that begins it and the first one behind that ends it, from left to right (`Marked`).

A stream is read in pieces. What has been read is split into what can be given out, since no mark
begins in it whatever follows, and what must wait (`Scan`). Reading on with what waits is reading
everything (`Scan.append`), so the pieces do not matter.
-/

namespace Markers

variable {α : Type*}

/-! ### First occurrences -/

/-- The parts of a list of one length, `windows`. -/
def windows (n : ℕ) (l : List α) : List (List α) :=
  (List.range (l.length + 1 - n)).map fun i ↦ (l.drop i).take n

/-- Where a list begins first in another. -/
def find [BEq α] (hay needle : List α) : Option ℕ :=
  (windows needle.length hay).findIdx? fun w ↦ w == needle

/-- The length of the longest end of a list that a longer one begins with. -/
def partialPrefix [BEq α] (hay needle : List α) : ℕ :=
  ((List.range' 1 (min needle.length (hay.length + 1) - 1)).reverse.find? fun n ↦
    (needle.take n).isSuffixOf hay).getD 0

/-- A list begins at a place of another, and not before. -/
def First (needle hay : List α) (i : ℕ) : Prop :=
  needle <+: hay.drop i ∧ ∀ j < i, ¬ needle <+: hay.drop j

theorem First.unique {needle hay : List α} {i j : ℕ} (hi : First needle hay i)
    (hj : First needle hay j) : i = j := by
  rcases lt_trichotomy i j with h | h | h
  · exact absurd hi.1 (hj.2 i h)
  · exact h
  · exact absurd hj.1 (hi.2 j h)

theorem First.le {needle hay : List α} {i : ℕ} (hne : needle ≠ []) (h : First needle hay i) :
    i + needle.length ≤ hay.length := by
  have hlen := h.1.length_le
  have hpos := List.length_pos_iff.2 hne
  rw [List.length_drop] at hlen
  omega

/-- What follows does not matter. -/
theorem First.append {needle hay : List α} {i : ℕ} (hne : needle ≠ []) (h : First needle hay i)
    (t : List α) : First needle (hay ++ t) i := by
  have hle := h.le hne
  refine ⟨?_, fun j hj hpre ↦ h.2 j hj ?_⟩
  · rw [List.drop_append_of_le_length (by omega)]
    exact h.1.trans (List.prefix_append _ _)
  · rw [List.drop_append_of_le_length (by omega)] at hpre
    refine List.prefix_of_prefix_length_le hpre (List.prefix_append _ _) ?_
    rw [List.length_drop]
    omega

theorem windows_getElem {n : ℕ} {l : List α} {i : ℕ} (h : i < (windows n l).length) :
    (windows n l)[i] = (l.drop i).take n := by
  simp [windows]

theorem lt_windows {needle hay : List α} (hne : needle ≠ []) {i : ℕ}
    (h : needle <+: hay.drop i) : i < (windows needle.length hay).length := by
  have hlen := h.length_le
  have hpos := List.length_pos_iff.2 hne
  rw [List.length_drop] at hlen
  simp only [windows, List.length_map, List.length_range]
  omega

variable [DecidableEq α]

theorem take_beq_iff {needle l : List α} :
    (l.take needle.length == needle) = true ↔ needle <+: l := by
  rw [beq_iff_eq, eq_comm, List.prefix_iff_eq_take]

theorem find_eq_some {needle hay : List α} (hne : needle ≠ []) {i : ℕ} :
    find hay needle = some i ↔ First needle hay i := by
  rw [find, List.findIdx?_eq_some_iff_getElem]
  constructor
  · rintro ⟨hi, hhit, hmiss⟩
    rw [windows_getElem, take_beq_iff] at hhit
    refine ⟨hhit, fun j hj hpre ↦ hmiss j hj ?_⟩
    rw [windows_getElem, take_beq_iff]
    exact hpre
  · rintro ⟨hhit, hmiss⟩
    refine ⟨lt_windows hne hhit, ?_, fun j hj hpre ↦ hmiss j hj ?_⟩
    · rw [windows_getElem, take_beq_iff]
      exact hhit
    · rw [windows_getElem, take_beq_iff] at hpre
      exact hpre

theorem find_eq_none {needle hay : List α} (hne : needle ≠ []) :
    find hay needle = none ↔ ∀ i, ¬ needle <+: hay.drop i := by
  rw [find, List.findIdx?_eq_none_iff]
  constructor
  · intro h i hpre
    have hmiss := h _ (List.getElem_mem (lt_windows hne hpre))
    rw [windows_getElem, Bool.eq_false_iff, ne_eq, take_beq_iff] at hmiss
    exact hmiss hpre
  · intro h w hw
    obtain ⟨i, -, rfl⟩ := List.mem_map.1 hw
    rw [Bool.eq_false_iff, ne_eq, take_beq_iff]
    exact h i

/-- What is kept back of a list in which another does not begin: an end of it that the other begins
with, and from no place before could the other begin with what follows. -/
theorem partialPrefix_spec {needle hay : List α} (hne : needle ≠ [])
    (hnone : ∀ i, ¬ needle <+: hay.drop i) :
    partialPrefix hay needle ≤ hay.length ∧ partialPrefix hay needle < needle.length ∧
      hay.drop (hay.length - partialPrefix hay needle) <+: needle ∧
      ∀ i < hay.length - partialPrefix hay needle, ¬ hay.drop i <+: needle := by
  have hpos := List.length_pos_iff.2 hne
  generalize hkeep : partialPrefix hay needle = keep
  have hend : keep ≤ hay.length ∧ keep < needle.length ∧ needle.take keep <:+ hay ∧
      ∀ n, keep < n → n < needle.length → n ≤ hay.length → ¬ needle.take n <:+ hay := by
    rw [partialPrefix] at hkeep
    cases hfind : (List.range' 1 (min needle.length (hay.length + 1) - 1)).reverse.find? fun n ↦
        (needle.take n).isSuffixOf hay with
    | none =>
      rw [hfind] at hkeep
      obtain rfl : keep = 0 := hkeep.symm
      refine ⟨Nat.zero_le _, hpos, by simp, fun n hn hlt hle hsuf ↦ ?_⟩
      refine List.find?_eq_none.1 hfind n ?_ (List.isSuffixOf_iff_suffix.2 hsuf)
      rw [List.mem_reverse, List.mem_range'_1]
      omega
    | some k =>
      rw [hfind] at hkeep
      obtain rfl : keep = k := hkeep.symm
      obtain ⟨hsuf, before, after, hsplit, hbefore⟩ := List.find?_eq_some_iff_append.1 hfind
      have hmem : keep ∈ (List.range' 1 (min needle.length (hay.length + 1) - 1)).reverse :=
        List.mem_of_find?_eq_some hfind
      rw [List.mem_reverse, List.mem_range'_1] at hmem
      refine ⟨by omega, by omega, List.isSuffixOf_iff_suffix.1 hsuf, fun n hn hlt hle hn' ↦ ?_⟩
      have hmem' : n ∈ before ++ keep :: after := by
        rw [← hsplit, List.mem_reverse, List.mem_range'_1]
        omega
      have hsorted : (before ++ keep :: after).Pairwise fun a b ↦ b < a := by
        rw [← hsplit, List.pairwise_reverse]
        exact List.pairwise_lt_range'
      obtain ⟨-, hafter, -⟩ := List.pairwise_append.1 hsorted
      rcases List.mem_append.1 hmem' with h | h
      · have hmiss := hbefore n h
        rw [Bool.not_eq_true', List.isSuffixOf_iff_suffix.2 hn'] at hmiss
        cases hmiss
      · rcases List.mem_cons.1 h with rfl | h
        · exact absurd hn (lt_irrefl _)
        · exact absurd ((List.pairwise_cons.1 hafter).1 n h) (by omega)
  obtain ⟨hle, hlt, hsuf, hmax⟩ := hend
  refine ⟨hle, hlt, ?_, fun i hi hpre ↦ ?_⟩
  · have heq := List.suffix_iff_eq_drop.1 hsuf
    rw [List.length_take_of_le hlt.le] at heq
    rw [← heq]
    exact List.take_prefix _ _
  · have hlen := List.length_drop (i := i) (l := hay)
    rcases lt_or_ge (hay.drop i).length needle.length with h | h
    · refine hmax (hay.drop i).length (by omega) h (by omega) ?_
      rw [← List.prefix_iff_eq_take.1 hpre]
      exact List.drop_suffix _ _
    · exact hnone i (hpre.eq_of_length_le h ▸ List.prefix_refl _)

/-! ### Taking marked parts out -/

omit [DecidableEq α]

/-- **The marked parts of a list taken out**: each begins with `start` and ends with the first
`stop` behind that; the rest and the parts, without their marks. -/
inductive Marked (start stop : List α) : List α → List α → List (List α) → Prop
  | done {s : List α}
      (hnone : ∀ i, start <+: s.drop i → ∀ j, ¬ stop <+: s.drop (i + start.length + j)) :
      Marked start stop s s []
  | next {s out : List α} {bodies : List (List α)} {i j : ℕ} (hstart : First start s i)
      (hstop : First stop (s.drop (i + start.length)) j)
      (hrest : Marked start stop (s.drop (i + start.length + j + stop.length)) out bodies) :
      Marked start stop s (s.take i ++ out) (((s.drop (i + start.length)).take j) :: bodies)

variable {start stop : List α}

/-- There is one way to take them out. -/
theorem Marked.unique {s out out' : List α} {bodies bodies' : List (List α)}
    (h : Marked start stop s out bodies) (h' : Marked start stop s out' bodies') :
    out = out' ∧ bodies = bodies' := by
  induction h generalizing out' bodies' with
  | done hnone =>
    cases h' with
    | done => exact ⟨rfl, rfl⟩
    | next hstart hstop => exact absurd (List.drop_drop ▸ hstop.1) (hnone _ hstart.1 _)
  | next hstart hstop _ ih =>
    cases h' with
    | done hnone => exact absurd (List.drop_drop ▸ hstop.1) (hnone _ hstart.1 _)
    | next hstart' hstop' hrest' =>
      obtain rfl := hstart.unique hstart'
      obtain rfl := hstop.unique hstop'
      obtain ⟨rfl, rfl⟩ := ih hrest'
      exact ⟨rfl, rfl⟩

/-- What waits: it is less than a mark that begins a part, or it begins with one. -/
def Held (start r : List α) : Prop := (r <+: start ∧ r ≠ start) ∨ start <+: r

/-- **What has been read of a stream**: what can be given out, the marked parts in it, and what
waits. -/
inductive Scan (start stop : List α) : List α → List α → List (List α) → List α → Prop
  | done {out r : List α} (hheld : Held start r)
      (hapart : ∀ i < out.length, ¬ start <+: (out ++ r).drop i ∧ ¬ (out ++ r).drop i <+: start)
      (hopen : start <+: r → ∀ j, ¬ stop <+: r.drop (start.length + j)) :
      Scan start stop (out ++ r) out [] r
  | next {s out r : List α} {bodies : List (List α)} {i j : ℕ} (hstart : First start s i)
      (hstop : First stop (s.drop (i + start.length)) j)
      (hrest : Scan start stop (s.drop (i + start.length + j + stop.length)) out bodies r) :
      Scan start stop s (s.take i ++ out) (((s.drop (i + start.length)).take j) :: bodies) r

theorem Scan.held {s out r : List α} {bodies : List (List α)} (h : Scan start stop s out bodies r) :
    Held start r := by
  induction h with
  | done hheld => exact hheld
  | next _ _ _ ih => exact ih

/-- At the end of the stream what waits is given out. -/
theorem Scan.marked {s out r : List α} {bodies : List (List α)} (hne : start ≠ [])
    (h : Scan start stop s out bodies r) : Marked start stop s (out ++ r) bodies := by
  induction h with
  | @done out r hheld hapart hopen =>
    refine .done fun i hpre j hstop ↦ ?_
    rcases lt_or_ge i out.length with hi | hi
    · exact (hapart i hi).1 hpre
    · obtain ⟨k, rfl⟩ := Nat.exists_eq_add_of_le hi
      rw [List.drop_length_add_append] at hpre
      have hlen := hpre.length_le
      rw [List.length_drop] at hlen
      have hpos := List.length_pos_iff.2 hne
      rcases hheld with ⟨hr, hrne⟩ | hr
      · -- too short for a mark
        exact hrne (hr.eq_of_length_le (by omega))
      · refine hopen hr (k + j) ?_
        rw [Nat.add_assoc, Nat.add_assoc, List.drop_length_add_append] at hstop
        rwa [Nat.add_left_comm]
  | next hstart hstop _ ih =>
    rw [List.append_assoc]
    exact .next hstart hstop ih

/-- Places where no mark can begin are passed over. -/
theorem Scan.skip {s out r : List α} {bodies : List (List α)} (h : Scan start stop s out bodies r)
    (before : List α) (hapart : ∀ i < before.length,
      ¬ start <+: (before ++ s).drop i ∧ ¬ (before ++ s).drop i <+: start) :
    Scan start stop (before ++ s) (before ++ out) bodies r := by
  cases h with
  | done hheld hapart' hopen =>
    rw [← List.append_assoc] at hapart ⊢
    refine .done hheld (fun i hi ↦ ?_) hopen
    rcases lt_or_ge i before.length with h | h
    · exact hapart i h
    · obtain ⟨k, rfl⟩ := Nat.exists_eq_add_of_le h
      rw [List.length_append] at hi
      rw [List.append_assoc, List.drop_length_add_append]
      exact hapart' k (by omega)
  | @next _ out r bodies i j hstart hstop hrest =>
    have hdrop : ∀ k, (before ++ s).drop (before.length + k) = s.drop k :=
      fun k ↦ List.drop_length_add_append ..
    have hfirst : First start (before ++ s) (before.length + i) := by
      refine ⟨by rw [hdrop]; exact hstart.1, fun k hk ↦ ?_⟩
      rcases lt_or_ge k before.length with h | h
      · exact (hapart k h).1
      · obtain ⟨k, rfl⟩ := Nat.exists_eq_add_of_le h
        rw [hdrop]
        exact hstart.2 k (by omega)
    have hnext : Scan start stop (before ++ s) ((before ++ s).take (before.length + i) ++ out)
        ((((before ++ s).drop (before.length + i + start.length)).take j) :: bodies) r :=
      .next hfirst (by rw [Nat.add_assoc, hdrop]; exact hstop) (by
        rw [Nat.add_assoc, Nat.add_assoc, Nat.add_assoc, hdrop]
        rwa [← Nat.add_assoc, ← Nat.add_assoc])
    rw [Nat.add_assoc, hdrop, List.take_length_add_append, List.append_assoc] at hnext
    exact hnext

/-- **Reading on** with what waits is reading everything. -/
theorem Scan.append (hstart : start ≠ []) (hstop : stop ≠ []) {s out r t out' r' : List α}
    {bodies bodies' : List (List α)} (h : Scan start stop s out bodies r)
    (h' : Scan start stop (r ++ t) out' bodies' r') :
    Scan start stop (s ++ t) (out ++ out') (bodies ++ bodies') r' := by
  induction h with
  | @done out r hheld hapart hopen =>
    rw [List.append_assoc, List.nil_append]
    refine h'.skip out fun i hi ↦ ?_
    obtain ⟨hno, hno'⟩ := hapart i hi
    have hdrop : (out ++ (r ++ t)).drop i = (out ++ r).drop i ++ t := by
      rw [← List.append_assoc, List.drop_append_of_le_length]
      rw [List.length_append]
      omega
    rw [hdrop]
    refine ⟨fun hpre ↦ ?_, fun hpre ↦ hno' ((List.prefix_append _ _).trans hpre)⟩
    rcases List.prefix_or_prefix_of_prefix hpre (List.prefix_append _ t) with h | h
    · exact hno h
    · exact hno' h
  | @next s out r bodies i j hfirst hend hrest ih =>
    have hi := hfirst.le hstart
    have hj := hend.le hstop
    rw [List.length_drop] at hj
    have hnext := Scan.next (hfirst.append hstart t) (j := j)
      (by rw [List.drop_append_of_le_length hi]; exact hend.append hstop t)
      (by rw [List.drop_append_of_le_length (by omega)]; exact ih h')
    rw [List.take_append_of_le_length (by omega), List.drop_append_of_le_length hi,
      List.take_append_of_le_length (by rw [List.length_drop]; omega)] at hnext
    rw [List.append_assoc]
    exact hnext

end Markers
