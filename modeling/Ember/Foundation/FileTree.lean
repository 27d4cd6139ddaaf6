import Mathlib.Data.List.DropRight
import Mathlib.Data.List.Infix

/-!
# File trees with symbolic links, and path resolution in them

A file tree has directories, files and symbolic links; a path is the sequence of the pieces between
its slashes, the empty and the dotted ones included. Resolution walks a path from a directory, one
piece at a time, replacing each symbolic link it meets by the link's target, and gives up after a
fixed number of links (`maxLinks`), as operating systems do.

One walk serves two purposes. With `create` unset it is `realpath`: every name must exist. With
`create` set it is the lookup of an `open` that may create its target: the very last name may be
missing, and the location found is then where the new entry would go.

## What is proved

* `Walk.noLink`: the location a walk ends at has no symbolic link among its components, so a
  canonical path is literally free of links.
* `walk_append`: resolution of `a ++ b` is resolution of `a`, then of `b` from there with the links
  that are left.
* `eq_of_noLink`: a path whose components are no links resolves, if at all, to itself; opening or
  creating it therefore touches that location and no other.

Nothing in this file knows which program asks.
-/

namespace FileTree

variable {N : Type} [DecidableEq N]

/-! ### Paths and trees -/

/-- A piece of a path between two slashes. -/
inductive Segment (N : Type) where
  | empty
  | dot
  | dotdot
  | name (n : N)
  deriving DecidableEq

/-- A path as written: whether it starts at the root, and its pieces. -/
structure Path (N : Type) where
  /-- Whether the path starts with a slash. -/
  absolute : Bool
  /-- The pieces between the slashes, empty and dotted ones included. -/
  segments : List (Segment N)
  deriving DecidableEq

/-- An entry of the tree. -/
inductive Entry (N : Type) where
  | file
  | dir (entries : List (N × Entry N))
  | symlink (target : Path N)

/-- Why a path does not resolve. -/
inductive Failure where
  | notFound
  | notADirectory
  | filesystemLoop
  deriving DecidableEq

/-- A segment that names nothing: between doubled slashes, after a last one, or a dot. -/
def Segment.isIgnorable : Segment N → Bool
  | .empty | .dot => true
  | .dotdot | .name _ => false

/-- The absolute path with these names. -/
def Path.ofNames (p : List N) : Path N := ⟨true, p.map .name⟩

/-- The entry at a location, following nothing: each name is looked up in the directory before
it. -/
def Entry.find : List N → Entry N → Option (Entry N)
  | [], t => some t
  | n :: p, .dir es => (es.lookup n).bind (find p)
  | _ :: _, _ => none

/-- Whether the entry at a location is a symbolic link. -/
def Entry.isLinkAt (t : Entry N) (p : List N) : Bool :=
  match t.find p with
  | some (.symlink _) => true
  | _ => false

/-- No component of the location is a symbolic link. -/
def Entry.NoLink (t : Entry N) (p : List N) : Prop := ∀ q ∈ p.inits, t.isLinkAt q = false

instance (t : Entry N) (p : List N) : Decidable (t.NoLink p) :=
  inferInstanceAs (Decidable (∀ q ∈ p.inits, t.isLinkAt q = false))

/-! ### Resolution -/

/-- Where a walk along the path starts, from the directory `pos`; the empty path is nowhere. -/
def Path.start (p : Path N) (pos : List N) : Except Failure (List N) :=
  if p.absolute then .ok [] else if p.segments = [] then .error .notFound else .ok pos

/-- The walk along segments that meets no symbolic link: at one, `follow` takes over. `links` is
the number of links still allowed, returned with the location. -/
def walkWith (t : Entry N) (create : Bool) (links : ℕ)
    (follow : List N → Path N → List (Segment N) → Except Failure (ℕ × List N)) :
    List N → List (Segment N) → Except Failure (ℕ × List N)
  | pos, [] => .ok (links, pos)
  | pos, s :: rest =>
    match t.find pos with
    | some (.dir es) =>
      match s with
      | .empty | .dot => walkWith t create links follow pos rest
      | .dotdot => walkWith t create links follow pos.dropLast rest
      | .name n =>
        match es.lookup n with
        | some (.symlink target) => follow pos target rest
        | some _ => walkWith t create links follow (pos ++ [n]) rest
        | none =>
          if create ∧ rest = [] then .ok (links, pos ++ [n]) else .error .notFound
    | _ => .error .notADirectory

/-- **Full resolution** of segments from a directory, with at most `links` links followed. -/
def walk (t : Entry N) (create : Bool) :
    ℕ → List N → List (Segment N) → Except Failure (ℕ × List N)
  | 0 => walkWith t create 0 fun _ _ _ ↦ .error .filesystemLoop
  | links + 1 => walkWith t create (links + 1) fun pos target rest ↦
      (target.start pos).bind fun start ↦ walk t create links start (target.segments ++ rest)

/-! ### Locations -/

namespace Entry

variable {t : Entry N} {p q : List N} {n : N}

theorem find_append (t : Entry N) (p q : List N) : t.find (p ++ q) = (t.find p).bind (find q) := by
  induction p generalizing t with
  | nil => rfl
  | cons n p ih =>
    cases t with
    | dir es => cases h : es.lookup n <;> simp [find, h, ih]
    | file | symlink => simp [find]

theorem find_concat {es : List (N × Entry N)} (h : t.find p = some (.dir es)) (n : N) :
    t.find (p ++ [n]) = es.lookup n := by
  cases hn : es.lookup n <;> simp [find_append, h, find, hn]

/-- What has an entry below it is a directory. -/
theorem exists_dir_of_find_concat {u : Entry N} (h : t.find (p ++ [n]) = some u) :
    ∃ es, t.find p = some (.dir es) := by
  rw [find_append] at h
  obtain ⟨e, he, hu⟩ := Option.bind_eq_some_iff.1 h
  cases e with
  | dir es => exact ⟨es, he⟩
  | file | symlink => simp [find] at hu

theorem isLinkAt_eq_true : t.isLinkAt p = true ↔ ∃ target, t.find p = some (.symlink target) := by
  unfold isLinkAt
  split
  · next target h => simp [h]
  · next h => simpa using fun target ↦ h target

theorem isLinkAt_eq_false_of_find {u : Entry N} (h : t.find p = some u)
    (hu : ∀ target, u ≠ .symlink target) : t.isLinkAt p = false := by
  rw [← Bool.not_eq_true, isLinkAt_eq_true]
  rintro ⟨target, h'⟩
  exact hu target (Option.some.inj (h.symm.trans h'))

theorem isLinkAt_eq_false_of_find_none (h : t.find p = none) : t.isLinkAt p = false := by
  rw [← Bool.not_eq_true, isLinkAt_eq_true]
  simp [h]

theorem noLink_iff : t.NoLink p ↔ ∀ q, q <+: p → t.isLinkAt q = false := by
  simp [NoLink, List.mem_inits]

theorem NoLink.of_prefix (h : t.NoLink p) (hq : q <+: p) : t.NoLink q :=
  noLink_iff.2 fun _ hr ↦ noLink_iff.1 h _ (hr.trans hq)

theorem NoLink.isLinkAt (h : t.NoLink p) : t.isLinkAt p = false :=
  noLink_iff.1 h p (List.prefix_refl p)

theorem noLink_concat : t.NoLink (p ++ [n]) ↔ t.NoLink p ∧ t.isLinkAt (p ++ [n]) = false := by
  refine ⟨fun h ↦ ⟨h.of_prefix (List.prefix_append _ _), h.isLinkAt⟩, fun ⟨hp, hn⟩ ↦ ?_⟩
  refine noLink_iff.2 fun q hq ↦ ?_
  rcases List.prefix_concat_iff.1 hq with rfl | hq
  · exact hn
  · exact noLink_iff.1 hp q hq

/-- Below a location where nothing is, nothing is, and so no link. -/
theorem NoLink.append_of_find_none (h : t.NoLink p) (hn : t.find (p ++ [n]) = none) (q : List N) :
    t.NoLink (p ++ n :: q) := by
  induction q using List.reverseRecOn with
  | nil => exact noLink_concat.2 ⟨h, isLinkAt_eq_false_of_find_none hn⟩
  | append_singleton q m ih =>
    have hnone : t.find (p ++ [n] ++ (q ++ [m])) = none := by
      rw [find_append, hn]
      rfl
    rw [← List.append_assoc, List.append_assoc p, List.singleton_append] at hnone
    have := noLink_concat.2 ⟨ih, isLinkAt_eq_false_of_find_none hnone⟩
    simpa using this

/-- A location that exists and is reached through no link. -/
structure Solid (t : Entry N) (p : List N) : Prop where
  noLink : t.NoLink p
  found : (t.find p).isSome

theorem Solid.dropLast (h : t.Solid p) : t.Solid p.dropLast := by
  induction p using List.reverseRecOn with
  | nil => simpa using h
  | append_singleton p n _ =>
    obtain ⟨u, hu⟩ := Option.isSome_iff_exists.1 h.found
    obtain ⟨es, he⟩ := exists_dir_of_find_concat hu
    rw [List.dropLast_concat]
    exact ⟨h.noLink.of_prefix (List.prefix_append _ _), by simp [he]⟩

/-- One step down to an entry that is no link. -/
theorem Solid.concat {u : Entry N} {es : List (N × Entry N)} (h : t.Solid p)
    (hp : t.find p = some (.dir es)) (hn : es.lookup n = some u)
    (hu : ∀ target, u ≠ .symlink target) : t.Solid (p ++ [n]) := by
  have hf : t.find (p ++ [n]) = some u := (find_concat hp n).trans hn
  exact ⟨noLink_concat.2 ⟨h.noLink, isLinkAt_eq_false_of_find hf hu⟩, by simp [hf]⟩

end Entry

/-! ### What a walk ends at -/

section Walk

variable {t : Entry N} {create : Bool} {links m : ℕ} {pos q : List N} {segs : List (Segment N)}

/-- What a walk may end at: a place reached through no link, existing unless it may be created. -/
def Entry.Reaches (t : Entry N) (create : Bool) (q : List N) : Prop :=
  t.NoLink q ∧ (create = false → (t.find q).isSome)

theorem walkWith_reaches {follow : List N → Path N → List (Segment N) → Except Failure (ℕ × List N)}
    (hfollow : ∀ pos target rest m q, t.Solid pos → follow pos target rest = .ok (m, q) →
      t.Reaches create q)
    (hpos : t.Solid pos) (h : walkWith t create links follow pos segs = .ok (m, q)) :
    t.Reaches create q := by
  induction segs generalizing pos with
  | nil =>
    obtain ⟨-, rfl⟩ : links = m ∧ pos = q := by simpa [walkWith] using h
    exact ⟨hpos.noLink, fun _ ↦ hpos.found⟩
  | cons s rest ih =>
    simp only [walkWith] at h
    split at h
    · next es hdir =>
      split at h
      · exact ih hpos h
      · exact ih hpos h
      · exact ih hpos.dropLast h
      · next n =>
        split at h
        · exact hfollow _ _ _ _ _ hpos h
        · next u hnot hn => exact ih (hpos.concat hdir hn fun target he ↦ hnot target (he ▸ rfl)) h
        · next hn =>
          split at h
          · next hc =>
            obtain ⟨-, rfl⟩ : links = m ∧ pos ++ [n] = q := by simpa using h
            have hnone : t.find (pos ++ [n]) = none := (Entry.find_concat hdir n).trans hn
            exact ⟨Entry.noLink_concat.2
              ⟨hpos.noLink, Entry.isLinkAt_eq_false_of_find_none hnone⟩, by simp [hc.1]⟩
          · cases h
    · cases h

omit [DecidableEq N] in
theorem Path.start_eq_ok {p : Path N} {pos q : List N} (h : p.start pos = .ok q) :
    q = [] ∨ q = pos := by
  unfold Path.start at h
  split at h
  · exact .inl (Except.ok.inj h).symm
  · split at h
    · cases h
    · exact .inr (Except.ok.inj h).symm

theorem Path.solid_start {es : List (N × Entry N)} {p : Path N} {pos q : List N}
    (hpos : (Entry.dir es).Solid pos) (h : p.start pos = .ok q) : (Entry.dir es).Solid q := by
  rcases Path.start_eq_ok h with rfl | rfl
  · exact ⟨fun r hr ↦ by simp_all [Entry.isLinkAt, Entry.find], rfl⟩
  · exact hpos

/-- **A walk ends where no component is a link.** -/
theorem walk_reaches {es : List (N × Entry N)} (hpos : (Entry.dir es).Solid pos)
    (h : walk (.dir es) create links pos segs = .ok (m, q)) :
    (Entry.dir es).Reaches create q := by
  induction links generalizing pos segs m q with
  | zero => exact walkWith_reaches (fun _ _ _ _ _ _ h ↦ by cases h) hpos h
  | succ links ih =>
    refine walkWith_reaches (fun pos' target rest m' q' hpos' h' ↦ ?_) hpos h
    cases hs : target.start pos' with
    | error e => simp [hs, Except.bind] at h'
    | ok start => exact ih (target.solid_start hpos' hs) (by simpa [hs, Except.bind] using h')

/-! ### Walking in two parts -/

/-- What follows a walk that got to its end, with the links it left. -/
def andThen (t : Entry N) (b : List (Segment N)) (r : Except Failure (ℕ × List N)) :
    Except Failure (ℕ × List N) :=
  r.bind fun (m, q) ↦ walk t false m q b

@[simp] theorem andThen_ok (t : Entry N) (b : List (Segment N)) (m : ℕ) (q : List N) :
    andThen t b (.ok (m, q)) = walk t false m q b := rfl

@[simp] theorem andThen_error (t : Entry N) (b : List (Segment N)) (e : Failure) :
    andThen t b (.error e) = .error e := rfl

theorem walkWith_append {b : List (Segment N)}
    {follow : List N → Path N → List (Segment N) → Except Failure (ℕ × List N)}
    (hlinks : ∀ pos, walk t false links pos b = walkWith t false links follow pos b)
    (hfollow : ∀ pos target rest,
      follow pos target (rest ++ b) = andThen t b (follow pos target rest))
    (pos : List N) (a : List (Segment N)) :
    walkWith t false links follow pos (a ++ b) =
      andThen t b (walkWith t false links follow pos a) := by
  induction a generalizing pos with
  | nil => simp [walkWith, hlinks]
  | cons s rest ih =>
    simp only [walkWith, List.cons_append]
    split
    · split
      · exact ih pos
      · exact ih pos
      · exact ih pos.dropLast
      · split
        · exact hfollow _ _ _
        · exact ih _
        · simp
    · rfl

/-- **Resolution in two parts**: of `a ++ b`, that of `a` and then that of `b` from where it led,
with the links that are left. -/
theorem walk_append (t : Entry N) (links : ℕ) (pos : List N) (a b : List (Segment N)) :
    walk t false links pos (a ++ b) = andThen t b (walk t false links pos a) := by
  induction links generalizing pos a with
  | zero => exact walkWith_append (fun _ ↦ rfl) (fun _ _ _ ↦ rfl) pos a
  | succ links ih =>
    refine walkWith_append (fun _ ↦ rfl) (fun pos' target rest ↦ ?_) pos a
    cases target.start pos' with
    | error e => rfl
    | ok start => exact (congrArg _ (List.append_assoc _ _ _).symm).trans (ih start _)

/-- A walk of no segments stays. -/
@[simp] theorem walk_nil (t : Entry N) (create : Bool) (links : ℕ) (pos : List N) :
    walk t create links pos [] = .ok (links, pos) := by
  cases links <;> rfl

/-- Segments that name nothing lead nowhere else, and fail only below what is no directory. -/
theorem walk_ignorable {b : List (Segment N)} (hb : ∀ s ∈ b, s.isIgnorable) :
    walk t false links pos b = .ok (links, pos) ∨
      walk t false links pos b = .error .notADirectory := by
  suffices h : ∀ follow, walkWith t false links follow pos b = .ok (links, pos) ∨
      walkWith t false links follow pos b = .error .notADirectory by
    cases links <;> exact h _
  intro follow
  induction b with
  | nil => exact .inl rfl
  | cons s rest ih =>
    have hrest := ih fun s hs ↦ hb s (List.mem_cons_of_mem _ hs)
    have hs := hb s List.mem_cons_self
    simp only [walkWith]
    split
    · split
      · exact hrest
      · exact hrest
      · cases hs
      · cases hs
    · exact .inr rfl

/-- One name: into a directory's entry, along a link, or nowhere. -/
theorem walk_name_error_notFound {n : N} {b : List (Segment N)}
    (h : walk t false links pos [.name n] = .error .notFound) :
    (∃ es, t.find pos = some (.dir es)) ∧
      (t.find (pos ++ [n]) = none ∨ t.isLinkAt (pos ++ [n]) = true) ∧
      walk t false links pos (.name n :: b) = .error .notFound := by
  have happ : walk t false links pos (.name n :: b) = .error .notFound := by
    rw [← List.singleton_append, walk_append, h, andThen_error]
  refine ⟨?_, ?_, happ⟩
  all_goals
    have hstep : ∃ follow, walkWith t false links follow pos [.name n] = .error .notFound := by
      cases links <;> exact ⟨_, h⟩
    obtain ⟨follow, hw⟩ := hstep
    simp only [walkWith] at hw
    split at hw
    · next es hdir =>
      first
      | exact ⟨es, hdir⟩
      | rw [Entry.isLinkAt_eq_true, Entry.find_concat hdir]
        split at hw
        · next target hn => exact .inr ⟨target, hn⟩
        · cases hw
        · next hn => exact .inl hn
    · cases hw

/-- One segment that is no name is never missing. -/
theorem walk_ne_notFound {s : Segment N} (hs : ∀ n, s ≠ .name n) :
    walk t false links pos [s] ≠ .error .notFound := by
  intro h
  obtain ⟨follow, hw⟩ : ∃ follow, walkWith t false links follow pos [s] = .error .notFound := by
    cases links <;> exact ⟨_, h⟩
  simp only [walkWith] at hw
  split at hw
  · split at hw
    · cases hw
    · cases hw
    · cases hw
    · next n => exact hs n rfl
  · cases hw

/-- **Where a walk is told that something is missing**: up to some name it gets through, and that
name is the missing one, or a link to something missing. -/
theorem exists_missing (h : walk t false links pos segs = .error .notFound) :
    ∃ front n rest m q, segs = front ++ .name n :: rest ∧
      walk t false links pos front = .ok (m, q) ∧
      walk t false m q [.name n] = .error .notFound := by
  induction segs using List.reverseRecOn with
  | nil => simp at h
  | append_singleton front s ih =>
    rw [walk_append] at h
    cases hw : walk t false links pos front with
    | error e =>
      obtain rfl : e = .notFound := by simpa [hw] using h
      obtain ⟨front', n, rest, m, q, rfl, hok, hmiss⟩ := ih hw
      exact ⟨front', n, rest ++ [s], m, q, by simp, hok, hmiss⟩
    | ok r =>
      obtain ⟨m, q⟩ := r
      rw [hw, andThen_ok] at h
      cases s with
      | name n => exact ⟨front, n, [], m, q, rfl, hw, h⟩
      | empty | dot | dotdot => exact absurd h (walk_ne_notFound nofun)

/-! ### Paths without links -/

/-- **A path whose components are no links resolves to itself**, if at all, also when its last name
is to be created. -/
theorem eq_of_noLink {p : List N} (hp : t.NoLink (pos ++ p))
    (h : walk t create links pos (p.map .name) = .ok (m, q)) : q = pos ++ p := by
  obtain ⟨follow, hw⟩ : ∃ follow,
      walkWith t create links follow pos (p.map .name) = .ok (m, q) := by
    cases links <;> exact ⟨_, h⟩
  clear h
  induction p generalizing pos with
  | nil =>
    obtain ⟨-, rfl⟩ : links = m ∧ pos = q := by simpa [walkWith] using hw
    simp
  | cons n p ih =>
    have hn := (hp.of_prefix (q := pos ++ [n]) (by simp)).isLinkAt
    simp only [List.map_cons, walkWith] at hw
    split at hw
    · next es hdir =>
      split at hw
      · next target hlink =>
        rw [← Bool.not_eq_true, Entry.isLinkAt_eq_true, Entry.find_concat hdir] at hn
        exact absurd ⟨target, hlink⟩ hn
      · have hp : t.NoLink (pos ++ [n] ++ p) := by simpa using hp
        simpa using ih hp hw
      · split at hw
        · next hc =>
          have hp : p = [] := by simpa using hc.2
          obtain ⟨-, rfl⟩ : links = m ∧ pos ++ [n] = q := by simpa using hw
          rw [hp]
        · cases hw
    · cases hw

end Walk

end FileTree

/-- A file system as a process sees it: the entries of the root directory, the working directory
and how many links one resolution may follow. -/
structure FileSystem (N : Type) [DecidableEq N] where
  /-- The entries of the root directory. -/
  entries : List (N × FileTree.Entry N)
  /-- The location of the process's working directory. -/
  cwd : List N
  /-- How many symbolic links one resolution may follow. -/
  maxLinks : ℕ
  /-- The working directory is a location without links. -/
  cwd_noLink : (FileTree.Entry.dir entries).NoLink cwd
  /-- The working directory exists. -/
  cwd_found : ((FileTree.Entry.dir entries).find cwd).isSome

namespace FileSystem

open FileTree

variable {N : Type} [DecidableEq N] (fs : FileSystem N)

/-- The tree under the root directory. -/
def tree : Entry N := .dir fs.entries

/-- Resolve a path to the location it names. -/
def resolve (create : Bool) (p : Path N) : Except Failure (List N) :=
  (p.start fs.cwd).bind fun start ↦
    (walk fs.tree create fs.maxLinks start p.segments).map Prod.snd

/-- `realpath`: the location of an existing entry, all links resolved. -/
def canonicalize (p : Path N) : Except Failure (List N) := fs.resolve false p

/-- The location that an `open` which may create its target opens or creates. -/
def openCreate (p : Path N) : Except Failure (List N) := fs.resolve true p

variable {fs} {p : Path N} {q : List N}

/-- **A canonical path exists and has no link among its components.** -/
theorem solid_of_canonicalize (h : fs.canonicalize p = .ok q) : fs.tree.Solid q := by
  unfold canonicalize resolve at h
  cases hs : p.start fs.cwd with
  | error e => simp [hs, Except.bind] at h
  | ok start =>
    cases hw : walk fs.tree false fs.maxLinks start p.segments with
    | error e => simp [hs, hw, Except.bind, Except.map] at h
    | ok r =>
      obtain rfl : r.2 = q := by simpa [hs, hw, Except.bind, Except.map] using h
      have hcwd : fs.tree.Solid fs.cwd := ⟨fs.cwd_noLink, fs.cwd_found⟩
      obtain ⟨hlink, hfound⟩ := walk_reaches (p.solid_start hcwd hs) hw
      exact ⟨hlink, hfound rfl⟩

theorem canonicalize_absolute (segs : List (Segment N)) :
    fs.canonicalize ⟨true, segs⟩ = (walk fs.tree false fs.maxLinks [] segs).map Prod.snd := rfl

theorem canonicalize_eq_ok {segs : List (Segment N)} :
    fs.canonicalize ⟨true, segs⟩ = .ok q ↔
      ∃ m, walk fs.tree false fs.maxLinks [] segs = .ok (m, q) := by
  rw [canonicalize_absolute]
  cases walk fs.tree false fs.maxLinks [] segs with
  | error e => simp [Except.map]
  | ok r =>
    obtain ⟨m, q'⟩ := r
    simp [Except.map]

theorem canonicalize_eq_error {segs : List (Segment N)} {e : Failure} :
    fs.canonicalize ⟨true, segs⟩ = .error e ↔
      walk fs.tree false fs.maxLinks [] segs = .error e := by
  rw [canonicalize_absolute]
  cases walk fs.tree false fs.maxLinks [] segs <;> simp [Except.map]

/-- **Opening or creating a path without links touches the location it spells.** -/
theorem eq_of_openCreate {r : List N} (hq : fs.tree.NoLink q)
    (h : fs.openCreate (.ofNames q) = .ok r) : r = q := by
  simp only [openCreate, resolve, Path.ofNames, Path.start, if_pos, Except.bind] at h
  cases hw : walk fs.tree true fs.maxLinks [] (q.map .name) with
  | error e => simp [hw, Except.map] at h
  | ok r' =>
    obtain rfl : r'.2 = r := by simpa [hw, Except.map] using h
    have hq' : fs.tree.NoLink ([] ++ q) := hq
    exact eq_of_noLink hq' hw

end FileSystem
