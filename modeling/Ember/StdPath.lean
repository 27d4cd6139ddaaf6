import Ember.Foundation.FileTree

/-!
# Paths as `std::path` reads them

The parts of Rust's `std::path` the source uses on Unix paths: the components, the parent and the
last name of a path, on the pieces between its slashes, and a path from its text. Doubled slashes,
dots and a trailing slash name nothing, so the last component of a path is found behind them.
-/

namespace FileTree

/-- A component of a path. -/
inductive Component (N : Type) where
  | rootDir
  | curDir
  | parentDir
  | normal (n : N)
  deriving DecidableEq

namespace Path

variable {N : Type}

/-- The component a segment stands for; doubled slashes and dots stand for none. -/
def component : Segment N → Option (Component N)
  | .empty | .dot => none
  | .dotdot => some .parentDir
  | .name n => some (.normal n)

/-- `Path::components`. A dot is a component only at the front of a relative path. -/
def components [DecidableEq N] (p : Path N) : List (Component N) :=
  (if p.absolute then [.rootDir]
    else if p.segments.head? = some .dot then [.curDir] else []) ++ p.segments.filterMap component

/-- Segments less the trailing ones that name nothing. -/
def trim (segs : List (Segment N)) : List (Segment N) := segs.rdropWhile Segment.isIgnorable

/-- `Path::parent`: the path less its last component. -/
def parent (p : Path N) : Option (Path N) :=
  if trim p.segments = [] then none else some ⟨p.absolute, trim (trim p.segments).dropLast⟩

/-- `Path::file_name`: the last component, when it is a name. -/
def fileName (p : Path N) : Option N :=
  match (trim p.segments).getLast? with
  | some (.name n) => some n
  | _ => none

/-- `Path::starts_with`: component by component. -/
def startsWith [DecidableEq N] (p base : Path N) : Bool := base.components.isPrefixOf p.components

/-! ### Text -/

/-- The segment with this text. -/
def segmentOf (text : List Char) : Segment String :=
  if text = [] then .empty
  else if text = ['.'] then .dot
  else if text = ['.', '.'] then .dotdot
  else .name (.ofList text)

/-- The texts between the slashes; `cur` is the text since the last one. -/
def splitSlashes (cur : List Char) : List Char → List (List Char)
  | [] => [cur]
  | c :: rest => if c = '/' then cur :: splitSlashes [] rest else splitSlashes (cur ++ [c]) rest

/-- `Path::new` of a string. -/
def ofString (s : String) : Path String :=
  match s.toList with
  | [] => ⟨false, []⟩
  | '/' :: rest => ⟨true, (splitSlashes [] rest).map segmentOf⟩
  | text => ⟨false, (splitSlashes [] text).map segmentOf⟩

/-! ### The last component -/

theorem exists_eq_trim_append (segs : List (Segment N)) :
    ∃ ign, (∀ s ∈ ign, s.isIgnorable) ∧ segs = trim segs ++ ign :=
  ⟨segs.rtakeWhile Segment.isIgnorable, fun _ h ↦ List.mem_rtakeWhile_imp h,
    (List.rdropWhile_append_rtakeWhile ..).symm⟩

/-- Where the last component is a name, it is followed by segments that name nothing, and the parent
is what comes before it. -/
theorem exists_of_fileName {p : Path N} {n : N} (h : p.fileName = some n) :
    ∃ front ign, p.segments = front ++ .name n :: ign ∧ (∀ s ∈ ign, s.isIgnorable) ∧
      p.parent = some ⟨p.absolute, trim front⟩ := by
  unfold fileName at h
  split at h
  · next n' hlast =>
    obtain rfl : n' = n := by simpa using h
    obtain ⟨ign, hign, heq⟩ := exists_eq_trim_append p.segments
    have hconcat := List.dropLast_append_getLast? _ hlast
    refine ⟨(trim p.segments).dropLast, ign, ?_, hign, ?_⟩
    · rw [List.append_cons, hconcat, ← heq]
    · have hne : trim p.segments ≠ [] := by
        rintro h0
        simp [h0] at hlast
      rw [parent, if_neg hne]
  · cases h

theorem length_trim_le (segs : List (Segment N)) : (trim segs).length ≤ segs.length :=
  (List.rdropWhile_prefix _ segs).length_le

theorem length_parent_lt {p q : Path N} (h : p.parent = some q) :
    q.segments.length < p.segments.length := by
  unfold parent at h
  split at h
  · cases h
  · next hne =>
    obtain rfl := Option.some.inj h
    have hpos := List.length_pos_iff.2 hne
    have h1 := length_trim_le p.segments
    have h2 := length_trim_le (trim p.segments).dropLast
    rw [List.length_dropLast] at h2
    show (trim (trim p.segments).dropLast).length < p.segments.length
    omega

/-! ### The names of a path -/

/-- The names among the segments. -/
def names (segs : List (Segment N)) : List N :=
  segs.filterMap fun | .name n => some n | _ => none

@[simp] theorem names_append (a b : List (Segment N)) : names (a ++ b) = names a ++ names b :=
  List.filterMap_append ..

@[simp] theorem names_name (n : N) (a : List (Segment N)) : names (.name n :: a) = n :: names a :=
  rfl

theorem names_ignorable {a : List (Segment N)} (h : ∀ s ∈ a, s.isIgnorable) : names a = [] := by
  refine List.filterMap_eq_nil_iff.2 fun s hs ↦ ?_
  have := h s hs
  cases s <;> simp_all [Segment.isIgnorable]

@[simp] theorem names_trim (segs : List (Segment N)) : names (trim segs) = names segs := by
  obtain ⟨ign, hign, heq⟩ := exists_eq_trim_append segs
  conv_rhs => rw [heq, names_append, names_ignorable hign, List.append_nil]

theorem trim_append_name (a b : List (Segment N)) (n : N) :
    trim (a ++ .name n :: b) = a ++ .name n :: trim b := by
  induction b using List.reverseRecOn with
  | nil => exact List.rdropWhile_concat_neg _ _ _ (by simp [Segment.isIgnorable])
  | append_singleton b s ih =>
    have hassoc : a ++ .name n :: (b ++ [s]) = (a ++ .name n :: b) ++ [s] := by simp
    by_cases hs : s.isIgnorable
    · have hb : trim (b ++ [s]) = trim b := List.rdropWhile_concat_pos _ _ _ hs
      rw [hassoc, hb, ← ih]
      exact List.rdropWhile_concat_pos _ _ _ hs
    · have hb : trim (b ++ [s]) = b ++ [s] := List.rdropWhile_concat_neg _ _ _ hs
      rw [hassoc, hb, ← hassoc]
      exact hassoc ▸ List.rdropWhile_concat_neg _ _ _ hs

/-- A path with a name and no parent step has a last component that is a name. -/
theorem exists_fileName {p : Path N} {n : N} (hn : .name n ∈ p.segments)
    (hdd : .dotdot ∉ p.segments) : ∃ k, p.fileName = some k := by
  obtain ⟨a, b, hab⟩ := List.append_of_mem hn
  have hne : trim p.segments ≠ [] := by simp [hab, trim_append_name]
  have hlast := List.rdropWhile_last_not Segment.isIgnorable p.segments hne
  have hmem : (trim p.segments).getLast hne ∈ p.segments :=
    (List.rdropWhile_prefix _ p.segments).subset (List.getLast_mem hne)
  unfold fileName
  rw [List.getLast?_eq_some_getLast hne]
  generalize hs : (trim p.segments).getLast hne = s at hmem
  rw [show (List.rdropWhile Segment.isIgnorable p.segments).getLast hne = s from hs] at hlast
  cases s with
  | name k => exact ⟨k, rfl⟩
  | dotdot => exact absurd hmem hdd
  | empty | dot => simp [Segment.isIgnorable] at hlast

/-- A name and the last name of the same path: they are the same one, or the last comes later. -/
theorem append_name_cases {front front' rest ign : List (Segment N)} {n k : N}
    (h : front ++ .name n :: rest = front' ++ .name k :: ign) (hign : ∀ s ∈ ign, s.isIgnorable) :
    (front' = front ∧ k = n ∧ rest = ign) ∨
      ∃ x, front' = front ++ .name n :: x ∧ rest = x ++ .name k :: ign := by
  have hign' : .name n ∉ ign := fun hn ↦ by simpa [Segment.isIgnorable] using hign _ hn
  rcases List.append_eq_append_iff.1 h with ⟨x, rfl, hx⟩ | ⟨x, rfl, hx⟩
  · cases x with
    | nil =>
      obtain ⟨hnk, rfl⟩ := List.cons_eq_cons.1 hx
      exact .inl ⟨by simp, (Segment.name.inj hnk).symm, rfl⟩
    | cons s x =>
      obtain ⟨rfl, rfl⟩ := List.cons_eq_cons.1 hx
      exact .inr ⟨x, rfl, rfl⟩
  · cases x with
    | nil =>
      obtain ⟨hnk, rfl⟩ := List.cons_eq_cons.1 hx
      exact .inl ⟨by simp, Segment.name.inj hnk, rfl⟩
    | cons s x =>
      obtain ⟨-, rfl⟩ := List.cons_eq_cons.1 hx
      exact absurd (List.mem_append_right x List.mem_cons_self) hign'

end Path

end FileTree
