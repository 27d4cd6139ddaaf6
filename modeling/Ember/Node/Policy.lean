import Ember.StdPath

/-!
# The path policy of the node daemon

`node/src/policy.rs`: every path a file operation touches is resolved first, and the result must lie
in one of the allowed roots. Three resolutions: of a path that must exist, of a path that may not
exist yet (the nearest existing ancestor is canonicalised and the missing names are appended), and
of a path whose last name is not to be followed.

## What is proved

* `resolvesInside_iff` — exactly when the three resolutions keep their promise: always, except for a
  write target one of whose names is a **dangling symbolic link**. Its resolution fails with
  "not found" like that of a missing name, so the walk to the nearest existing ancestor goes past the
  link and appends its name unresolved.
* `not_resolvesInside_dangling` — such a path.
-/

namespace Ember.Node

open FileTree

variable {N : Type} [DecidableEq N]

/-- Why the policy refuses a path. -/
inductive PolicyError (N : Type) where
  | notAbsolute (path : Path N)
  | outside (path : Path N)
  | io (path : Path N) (e : Failure)
  deriving DecidableEq

/-- The allowed roots, as canonical locations. -/
structure PathPolicy (N : Type) where
  roots : List (List N)

variable {c : List N} {segs : List (Segment N)} {n : N}

namespace PathPolicy

/-- Why no policy can be made of the given roots. -/
inductive NewError (N : Type) where
  | allowedRoot (r : Path N) (e : Failure)
  | noRoot
  deriving DecidableEq

/-- `PathPolicy::new`: each root is canonicalised, and there must be one. -/
def new (fs : FileSystem N) (roots : List (Path N)) : Except (NewError N) (PathPolicy N) := do
  let out ← roots.mapM fun r ↦
    match fs.canonicalize r with
    | .ok c => Except.ok c
    | .error e => .error (.allowedRoot r e)
  if out = [] then .error .noRoot else .ok ⟨out⟩

variable (policy : PathPolicy N) (fs : FileSystem N)

/-- `PathPolicy::check`: the location must be a root or in one. -/
def check (canonical : List N) (original : Path N) : Except (PolicyError N) (List N) :=
  if policy.roots.any fun r ↦ r.isPrefixOf canonical then .ok canonical
  else .error (.outside original)

/-- `PathPolicy::resolve_existing`. -/
def resolveExisting (path : Path N) : Except (PolicyError N) (List N) :=
  if path.absolute = false then .error (.notAbsolute path)
  else
    match fs.canonicalize path with
    | .ok c => policy.check c path
    | .error e => .error (.io path e)

/-- The loop of `PathPolicy::resolve_for_write`: up from `cur` to the nearest ancestor that exists,
with the names passed on the way (`tail`, outermost first). -/
def nearestExisting (path cur : Path N) (tail : List N) :
    Except (PolicyError N) (List N × List N) :=
  match _h : cur.parent with
  | none => .error (.outside path)
  | some parent =>
    match cur.fileName with
    | none => .error (.outside path)
    | some n =>
      match fs.canonicalize parent with
      | .ok c => .ok (c, n :: tail)
      | .error .notFound => nearestExisting path parent (n :: tail)
      | .error e => .error (.io path e)
termination_by cur.segments.length
decreasing_by exact Path.length_parent_lt ‹_›

/-- `PathPolicy::resolve_for_write`. -/
def resolveForWrite (path : Path N) : Except (PolicyError N) (List N) :=
  if path.absolute = false then .error (.notAbsolute path)
  else
    match fs.canonicalize path with
    | .ok c => policy.check c path
    | .error .notFound =>
      -- a parent step through a missing directory is refused
      if .parentDir ∈ path.components then .error (.outside path)
      else
        match nearestExisting fs path path [] with
        | .ok (base, tail) => policy.check (base ++ tail) path
        | .error e => .error e
    | .error e => .error (.io path e)

/-- `PathPolicy::resolve_nofollow`. -/
def resolveNofollow (path : Path N) : Except (PolicyError N) (List N) :=
  if path.absolute = false then .error (.notAbsolute path)
  else if .parentDir ∈ path.components then .error (.outside path)
  else
    match path.parent, path.fileName with
    | some parent, some name =>
      match fs.canonicalize parent with
      | .ok base => policy.check (base ++ [name]) path
      | .error e => .error (.io path e)
    | _, _ => policy.resolveExisting fs path

/-! ### What a resolved path should be -/

variable {policy fs} {path : Path N} {p : List N}

/-- A location in one of the roots, or a root. -/
def Inside (policy : PathPolicy N) (p : List N) : Prop := ∃ r ∈ policy.roots, r <+: p

theorem check_eq_ok : policy.check c path = .ok p ↔ c = p ∧ policy.Inside p := by
  have hany : (policy.roots.any fun r ↦ r.isPrefixOf c) = true ↔ policy.Inside c := by
    simp [Inside]
  unfold check
  split
  · next h =>
    refine ⟨fun he ↦ ?_, fun ⟨he, _⟩ ↦ by rw [he]⟩
    obtain rfl := Except.ok.inj he
    exact ⟨rfl, hany.1 h⟩
  · next h =>
    refine ⟨nofun, ?_⟩
    rintro ⟨rfl, hin⟩
    exact absurd (hany.2 hin) h

/-- A location an operation may use: no component of it is a symbolic link, it is in a root, and
what opening or creating it touches is in a root. -/
structure Confined (policy : PathPolicy N) (fs : FileSystem N) (p : List N) : Prop where
  noLink : fs.tree.NoLink p
  inside : policy.Inside p
  touches : ∀ q, fs.openCreate (.ofNames p) = .ok q → policy.Inside q

/-- Opening a location without links touches only that location. -/
theorem Confined.mk' (hlink : fs.tree.NoLink p) (hin : policy.Inside p) : Confined policy fs p :=
  ⟨hlink, hin, fun _ h ↦ FileSystem.eq_of_openCreate hlink h ▸ hin⟩

/-- What the three resolutions of a path promise. -/
structure ResolvesInside (policy : PathPolicy N) (fs : FileSystem N) (path : Path N) : Prop where
  existing : ∀ p, policy.resolveExisting fs path = .ok p → Confined policy fs p
  forWrite : ∀ p, policy.resolveForWrite fs path = .ok p → Confined policy fs p
  nofollow : ∀ p, policy.resolveNofollow fs path = .ok p →
    fs.tree.NoLink p.dropLast ∧ policy.Inside p

/-- **The path goes through a dangling link in a root.** The names before `n` resolve to the
directory `c`; there `n` is a symbolic link whose resolution ends at something missing; and with the
remaining names appended unresolved, the link's location is in a root. -/
structure DanglingInside (policy : PathPolicy N) (fs : FileSystem N) (path : Path N) : Prop where
  absolute : path.absolute = true
  noParentDir : .parentDir ∉ path.components
  dangles : ∃ front n rest c, path.segments = front ++ .name n :: rest ∧
    fs.canonicalize ⟨true, front⟩ = .ok c ∧ fs.tree.isLinkAt (c ++ [n]) = true ∧
    fs.canonicalize ⟨true, front ++ [.name n]⟩ = .error .notFound ∧
    policy.Inside (c ++ n :: Path.names rest)

/-! ### Resolving what exists -/

/-- The roots of a policy exist, are reached through no link, and there is one. -/
theorem solid_of_new {roots : List (Path N)} (h : new fs roots = .ok policy) :
    policy.roots ≠ [] ∧ ∀ r ∈ policy.roots, fs.tree.Solid r := by
  unfold new at h
  generalize hout : (roots.mapM fun r ↦
    match fs.canonicalize r with
    | .ok c => Except.ok c
    | .error e => .error (NewError.allowedRoot r e)) = out at h
  cases out with
  | error e => cases h
  | ok out =>
    have hne : out ≠ [] := by
      rintro rfl
      simp [Bind.bind, Except.bind] at h
    obtain rfl : ⟨out⟩ = policy := by simpa [Bind.bind, Except.bind, hne] using h
    refine ⟨hne, fun r hr ↦ ?_⟩
    clear h hne
    induction roots generalizing out with
    | nil => simp_all [pure, Except.pure]
    | cons q qs ih =>
      rw [List.mapM_cons] at hout
      cases hq : fs.canonicalize q with
      | error e => simp [hq, Bind.bind, Except.bind] at hout
      | ok c =>
        simp only [hq, Bind.bind, Except.bind] at hout
        split at hout
        · cases hout
        · next cs hcs =>
          obtain rfl := Except.ok.inj hout
          rcases List.mem_cons.1 hr with rfl | hr
          · exact FileSystem.solid_of_canonicalize hq
          · exact ih cs hcs hr

theorem confined_of_resolveExisting (h : policy.resolveExisting fs path = .ok p) :
    Confined policy fs p := by
  unfold resolveExisting at h
  split at h
  · cases h
  · split at h
    · next c hc =>
      obtain ⟨rfl, hin⟩ := check_eq_ok.1 h
      exact .mk' (FileSystem.solid_of_canonicalize hc).noLink hin
    · cases h

theorem noLink_of_resolveNofollow (h : policy.resolveNofollow fs path = .ok p) :
    fs.tree.NoLink p.dropLast ∧ policy.Inside p := by
  unfold resolveNofollow at h
  split at h
  · cases h
  · split at h
    · cases h
    · split at h
      · next parent name _ _ =>
        split at h
        · next base hbase =>
          obtain ⟨rfl, hin⟩ := check_eq_ok.1 h
          rw [List.dropLast_concat]
          exact ⟨(FileSystem.solid_of_canonicalize hbase).noLink, hin⟩
        · cases h
      · have hc := confined_of_resolveExisting h
        exact ⟨hc.noLink.of_prefix (List.dropLast_prefix p), hc.inside⟩

/-! ### Up to the nearest existing ancestor -/

theorem parentDir_mem_components :
    .parentDir ∈ path.components ↔ .dotdot ∈ path.segments := by
  have hfront : (Component.parentDir : Component N) ∉ (if path.absolute then [.rootDir]
        else if path.segments.head? = some .dot then [Component.curDir] else []) := by
    split
    · simp
    · split <;> simp
  rw [Path.components, List.mem_append, or_iff_right hfront, List.mem_filterMap]
  constructor
  · rintro ⟨s, hs, hc⟩
    cases s <;> simp_all [Path.component]
  · exact fun h ↦ ⟨.dotdot, h, rfl⟩

/-- Trailing segments that name nothing do not change what is missing. -/
theorem canonicalize_trim_notFound :
    fs.canonicalize ⟨true, Path.trim segs⟩ = .error .notFound ↔
      fs.canonicalize ⟨true, segs⟩ = .error .notFound := by
  obtain ⟨ign, hign, heq⟩ := Path.exists_eq_trim_append segs
  rw [FileSystem.canonicalize_eq_error, FileSystem.canonicalize_eq_error]
  conv_rhs => rw [heq, walk_append]
  cases walk fs.tree false fs.maxLinks [] (Path.trim segs) with
  | error e => simp
  | ok r =>
    obtain ⟨m, q⟩ := r
    have hrest : walk fs.tree false m q ign = .ok (m, q) ∨
        walk fs.tree false m q ign = .error .notADirectory := walk_ignorable hign
    rcases hrest with h | h <;> simp [h]

/-- Trailing segments that name nothing do not change what exists. -/
theorem canonicalize_trim_ok (h : fs.canonicalize ⟨true, segs⟩ = .ok c) :
    fs.canonicalize ⟨true, Path.trim segs⟩ = .ok c := by
  obtain ⟨ign, hign, heq⟩ := Path.exists_eq_trim_append segs
  obtain ⟨m, hm⟩ := FileSystem.canonicalize_eq_ok.1 h
  rw [heq, walk_append] at hm
  cases hw : walk fs.tree false fs.maxLinks [] (Path.trim segs) with
  | error e => simp [hw] at hm
  | ok r =>
    obtain ⟨m', q⟩ := r
    have hrest : walk fs.tree false m' q ign = .ok (m', q) ∨
        walk fs.tree false m' q ign = .error .notADirectory := walk_ignorable hign
    rcases hrest with hi | hi
    · obtain ⟨-, rfl⟩ : m' = m ∧ q = c := by simpa [hw, hi] using hm
      exact FileSystem.canonicalize_eq_ok.2 ⟨m', hw⟩
    · simp [hw, hi] at hm

/-- What lies below something missing is missing. -/
theorem canonicalize_append_notFound {a : List (Segment N)} (b : List (Segment N))
    (h : fs.canonicalize ⟨true, a⟩ = .error .notFound) :
    fs.canonicalize ⟨true, a ++ b⟩ = .error .notFound := by
  rw [FileSystem.canonicalize_eq_error] at h ⊢
  rw [walk_append, h, andThen_error]

/-- One turn of the loop. -/
theorem nearestExisting_of_parent {cur parent : Path N} {tail : List N}
    (hparent : cur.parent = some parent) (hname : cur.fileName = some n) :
    nearestExisting fs path cur tail =
      match fs.canonicalize parent with
      | .ok c => .ok (c, n :: tail)
      | .error .notFound => nearestExisting fs path parent (n :: tail)
      | .error e => .error (.io path e) := by
  rw [nearestExisting]
  split
  · next h => simp [hparent] at h
  · next parent' h =>
    obtain rfl : parent' = parent := by simpa [hparent] using h.symm
    simp only [hname]

/-- **The loop finds the first name that is missing**: it ends at the directory that name is looked
up in, with the name and all names after it. -/
theorem nearestExisting_eq {cur : Path N} {front rest : List (Segment N)} (tail : List N)
    (habs : cur.absolute = true) (hdd : .dotdot ∉ cur.segments)
    (hcur : cur.segments = front ++ .name n :: rest) (hc : fs.canonicalize ⟨true, front⟩ = .ok c)
    (hmiss : fs.canonicalize ⟨true, front ++ [.name n]⟩ = .error .notFound) :
    nearestExisting fs path cur tail = .ok (c, n :: Path.names rest ++ tail) := by
  induction hlen : cur.segments.length using Nat.strongRecOn generalizing cur rest tail with
  | ind len ih =>
    subst hlen
    obtain ⟨k, hk⟩ := Path.exists_fileName (n := n) (by simp [hcur]) hdd
    obtain ⟨front', ign, hseg, hign, hparent⟩ := Path.exists_of_fileName hk
    rw [habs] at hparent
    have hlt := Path.length_parent_lt hparent
    rw [nearestExisting_of_parent hparent hk]
    rcases Path.append_name_cases (hcur.symm.trans hseg) hign with
      ⟨rfl, rfl, rfl⟩ | ⟨x, rfl, rfl⟩
    · simp only [canonicalize_trim_ok hc, Path.names_ignorable hign]
      rfl
    · have hbelow := canonicalize_append_notFound x hmiss
      rw [List.append_assoc, List.singleton_append] at hbelow
      simp only [canonicalize_trim_notFound.2 hbelow]
      have hseg' : Path.trim (front ++ .name n :: x) = front ++ .name n :: Path.trim x :=
        Path.trim_append_name front x n
      have hdd' : .dotdot ∉ Path.trim (front ++ .name n :: x) := fun h ↦ hdd <| by
        rw [hseg]
        exact List.mem_append_left _ ((List.rdropWhile_prefix _ _).subset h)
      rw [ih _ hlt (k :: tail) rfl hdd' hseg' rfl]
      simp [Path.names_ignorable hign]

/-- The shape of an answer of `resolve_for_write` for a path that does not exist. -/
theorem resolveForWrite_missing {front rest : List (Segment N)} (habs : path.absolute = true)
    (hdd : .parentDir ∉ path.components) (hpath : path.segments = front ++ .name n :: rest)
    (hc : fs.canonicalize ⟨true, front⟩ = .ok c)
    (hmiss : fs.canonicalize ⟨true, front ++ [.name n]⟩ = .error .notFound) :
    policy.resolveForWrite fs path = policy.check (c ++ n :: Path.names rest) path := by
  have hnot : fs.canonicalize path = .error .notFound := by
    have := canonicalize_append_notFound rest hmiss
    rw [List.append_assoc, List.singleton_append, ← hpath, ← habs] at this
    exact this
  have hdd' : .dotdot ∉ path.segments := fun h ↦ hdd (parentDir_mem_components.2 h)
  unfold resolveForWrite
  simp only [habs, hnot, if_neg hdd, nearestExisting_eq [] habs hdd' hpath hc hmiss]
  simp

/-! ### Exactly when the policy confines -/

/-- A write target that does not exist breaks at some name, and what the policy answers is the place
of that name with the rest appended. -/
theorem exists_of_missing (habs : path.absolute = true) (hdd : .parentDir ∉ path.components)
    (h : fs.canonicalize path = .error .notFound) :
    ∃ front n rest c, path.segments = front ++ .name n :: rest ∧
      fs.canonicalize ⟨true, front⟩ = .ok c ∧
      fs.canonicalize ⟨true, front ++ [.name n]⟩ = .error .notFound ∧
      (fs.tree.find (c ++ [n]) = none ∨ fs.tree.isLinkAt (c ++ [n]) = true) ∧
      policy.resolveForWrite fs path = policy.check (c ++ n :: Path.names rest) path := by
  obtain ⟨abs, segs⟩ := path
  obtain rfl : abs = true := habs
  obtain ⟨front, n, rest, m, c, rfl, hok, hmiss⟩ :=
    exists_missing (FileSystem.canonicalize_eq_error.1 h)
  have hc := FileSystem.canonicalize_eq_ok.2 ⟨m, hok⟩
  have hn : fs.canonicalize ⟨true, front ++ [.name n]⟩ = .error .notFound := by
    rw [FileSystem.canonicalize_eq_error, walk_append, hok, andThen_ok, hmiss]
  obtain ⟨-, hwhat, -⟩ := walk_name_error_notFound (b := []) hmiss
  exact ⟨front, n, rest, c, rfl, hc, hn, hwhat, resolveForWrite_missing rfl hdd rfl hc hn⟩

theorem confined_of_resolveForWrite (hdangling : ¬ DanglingInside policy fs path)
    (h : policy.resolveForWrite fs path = .ok p) : Confined policy fs p := by
  by_cases habs : path.absolute = true
  · by_cases hnot : fs.canonicalize path = .error .notFound
    · by_cases hdd : .parentDir ∈ path.components
      · simp [resolveForWrite, habs, hnot, hdd] at h
      · obtain ⟨front, n, rest, c, hseg, hc, hn, hwhat, heq⟩ := exists_of_missing habs hdd hnot
        obtain ⟨rfl, hin⟩ := check_eq_ok.1 (heq ▸ h)
        have hsolid := FileSystem.solid_of_canonicalize hc
        rcases hwhat with hnone | hlink
        · exact .mk' (hsolid.noLink.append_of_find_none hnone _) hin
        · exact absurd ⟨habs, hdd, front, n, rest, c, hseg, hc, hlink, hn, hin⟩ hdangling
    · -- what exists is resolved as `resolve_existing` does
      suffices hex : policy.resolveExisting fs path = .ok p from confined_of_resolveExisting hex
      unfold resolveForWrite at h
      unfold resolveExisting
      rw [if_neg (by simp [habs])] at h ⊢
      split at h
      · next c hc => rw [hc]; exact h
      · next he => exact absurd he hnot
      · cases h
  · simp [resolveForWrite, habs] at h

/-- **The policy keeps every operation inside its roots, except through dangling links.** Whatever
the tree, the roots and the path: what `resolve_existing` and `resolve_for_write` return has no
symbolic link among its components, lies in a root, and opening or creating it touches nothing
outside the roots, and the directory of what `resolve_nofollow` returns has no link and lies in a
root with it, if and only if no name of the path is a dangling link whose location, with the rest of
the path appended to it, is in a root. -/
theorem resolvesInside_iff (policy : PathPolicy N) (fs : FileSystem N) (path : Path N) :
    ResolvesInside policy fs path ↔ ¬ DanglingInside policy fs path := by
  refine ⟨fun h ⟨habs, hdd, front, n, rest, c, hseg, hc, hlink, hmiss, hin⟩ ↦ ?_, fun h ↦
    ⟨fun _ ↦ confined_of_resolveExisting, fun _ ↦ confined_of_resolveForWrite h,
      fun _ ↦ noLink_of_resolveNofollow⟩⟩
  have hres : policy.resolveForWrite fs path = .ok (c ++ n :: Path.names rest) := by
    rw [resolveForWrite_missing habs hdd hseg hc hmiss]
    exact check_eq_ok.2 ⟨rfl, hin⟩
  have hno := (h.forWrite _ hres).noLink.of_prefix (q := c ++ [n]) (by simp)
  exact absurd hlink (by simp [hno.isLinkAt])

/-- A root `/root` with a link to the missing `/out/new` in it. -/
def danglingTree : FileSystem String where
  entries :=
    [("root", .dir [("link", .symlink (.ofNames ["out", "new"]))]), ("out", .dir [])]
  cwd := []
  maxLinks := 40
  cwd_noLink := by decide
  cwd_found := rfl

/-- A write to the link of `danglingTree` is let through as a write to the link itself, and creating
that file creates `/out/new`. -/
theorem not_resolvesInside_dangling :
    PathPolicy.resolveForWrite ⟨[["root"]]⟩ danglingTree (.ofNames ["root", "link"]) =
        .ok ["root", "link"] ∧
      danglingTree.openCreate (.ofNames ["root", "link"]) = .ok ["out", "new"] ∧
      ¬ ResolvesInside ⟨[["root"]]⟩ danglingTree (.ofNames ["root", "link"]) := by
  have hres : PathPolicy.resolveForWrite ⟨[["root"]]⟩ danglingTree (.ofNames ["root", "link"]) =
      .ok ["root", "link"] := by decide +kernel
  refine ⟨hres, by decide +kernel, fun h ↦ ?_⟩
  exact absurd (h.forWrite _ hres).noLink (by decide +kernel)

end PathPolicy

end Ember.Node
