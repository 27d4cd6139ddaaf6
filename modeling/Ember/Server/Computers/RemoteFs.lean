import Ember.Foundation.Tables
import Mathlib.Logic.Relation
import Mathlib.Order.Nat

/-!
# The filesystem of a project mount

A directory tree of a node, with numbers of its own for the paths that were seen, and caches. An
operation runs from one call of the node to the next, so an interleaving of operations is a sequence
of such pieces, and an operation that waits remembers the paths and numbers it had before.

**Key theorem** (`good_of_steps`): at every await point of every interleaving the two tables of
numbers and paths are inverse to each other, a rename moves the paths below it and nothing else, the
byte counter is what the cached contents weigh, and a number that was forgotten names nothing again.
-/

namespace Ember.Server.Computers.RemoteFs

open Table

/-- The components of an absolute path of the node. -/
abbrev Path := List String

/-- `ROOT_ID`. -/
def rootId : ℕ := 1

/-- `FsErr`, as far as it is told apart here. -/
inductive FsErr
  | noEnt
  | exist
  | isDir
  | inval
  | nameTooLong
  | stale
  /-- What else a call of the node fails with. -/
  | node (text : String)
  deriving DecidableEq

inductive FileKind
  | file
  | dir
  | symlink
  | other
  deriving DecidableEq

/-- What a node says of a file, as far as it is read here. -/
structure Stat where
  kind : FileKind
  size : ℕ
  mtimeMs : Option ℕ

/-- An entry of a directory, whose name is one component. -/
structure DirEntry extends Stat where
  name : String

structure Attr where
  id : ℕ
  kind : FileKind
  size : ℕ
  mtimeMs : ℕ

/-- `Attr::of` and `Attr::of_entry`. -/
def Attr.of (id : ℕ) (s : Stat) : Attr := ⟨id, s.kind, s.size, s.mtimeMs.getD 0⟩

/-! ### Numbers and paths -/

/-- `Inodes`. -/
structure Inodes where
  byId : List (ℕ × Path)
  byPath : List (Path × ℕ)
  /-- A `u64`, which no mount uses up. -/
  next : ℕ

namespace Inodes

/-- `Inodes::new`. -/
def new (root : Path) : Inodes := ⟨[(rootId, root)], [(root, rootId)], rootId + 1⟩

/-- `Inodes::id_for`. -/
def idFor (i : Inodes) (path : Path) : ℕ × Inodes :=
  match i.byPath.lookup path with
  | some id => (id, i)
  | none => (i.next, ⟨put i.byId (i.next, path), put i.byPath (path, i.next), i.next + 1⟩)

/-- `Inodes::forget_tree`, with the numbers dropped. The root stays. -/
def forgetTree (i : Inodes) (path : Path) : List ℕ × Inodes :=
  let gone := (i.byPath.filter fun e ↦ path.isPrefixOf e.1 && e.2 != rootId).map Prod.snd
  (gone, { i with
    byId := i.byId.filter (! gone.contains ·.1)
    byPath := i.byPath.filter fun e ↦ ! (path.isPrefixOf e.1 && e.2 != rootId) })

/-- `Inodes::rename_tree`. -/
def renameTree (i : Inodes) (source target : Path) : Inodes :=
  let moved := (i.byPath.filter (source.isPrefixOf ·.1)).map fun e ↦
    (target ++ e.1.drop source.length, e.2)
  { i with
    byId := (moved.map Prod.swap).foldl put i.byId
    byPath := moved.foldl put (i.byPath.filter (! source.isPrefixOf ·.1)) }

end Inodes

/-! ### Caches -/

structure Content where
  data : List UInt8
  size : ℕ
  mtimeMs : ℕ

structure Listing where
  entries : List (String × ℕ)
  /-- When it was read. -/
  read : ℕ

/-- `Caches`. -/
structure Caches where
  /-- With when they were read. -/
  attrs : List (ℕ × Attr × ℕ)
  listings : List (ℕ × Listing)
  contents : List (ℕ × Content)
  contentBytes : ℕ
  /-- A subtraction from `contentBytes` has wrapped. Read by nothing. -/
  wrapped : Bool

namespace Caches

/-- No caches. -/
def empty : Caches := ⟨[], [], [], 0, false⟩

/-- A content is removed and its bytes are subtracted, wherever that is done. -/
def dropContent (c : Caches) (id : ℕ) : Caches :=
  match c.contents.lookup id with
  | none => c
  | some content =>
    { c with
      contents := erase c.contents id
      contentBytes := c.contentBytes - content.data.length
      wrapped := c.wrapped || c.contentBytes < content.data.length }

/-- `Caches::drop_id`. -/
def dropId (c : Caches) (id : ℕ) : Caches :=
  { c with attrs := erase c.attrs id, listings := erase c.listings id }.dropContent id

/-- `RemoteFs::put_attr`. -/
def putAttr (now : ℕ) (c : Caches) (a : Attr) : Caches :=
  let c := if (c.contents.lookup a.id).any fun x ↦ x.size ≠ a.size ∨ x.mtimeMs ≠ a.mtimeMs then
    c.dropContent a.id else c
  { c with attrs := put c.attrs (a.id, a, now) }

/-- `RemoteFs::dir_changed`. -/
def dirChanged (c : Caches) (dir : ℕ) : Caches :=
  { c with attrs := erase c.attrs dir, listings := erase c.listings dir }

/-- The loop of `store_content`: contents go, in any order, until `n` bytes have room. -/
def makeRoom (budget n : ℕ) : List ℕ → Caches → Caches
  | [], c => c
  | victim :: order, c =>
    if c.contentBytes + n > budget then makeRoom budget n order (c.dropContent victim) else c

/-- `RemoteFs::store_content`. -/
def storeContent (c : Caches) (budget : ℕ) (order : List ℕ) (id : ℕ) (x : Content) : Caches :=
  let n := x.data.length
  if n > budget then c
  else
    let c := (c.dropContent id).makeRoom budget n order
    { c with contentBytes := c.contentBytes + n, contents := put c.contents (id, x) }

end Caches

/-! ### The filesystem -/

structure CacheConfig where
  attrTtl : ℕ
  contentMax : ℕ
  contentBudget : ℕ

/-- `RemoteFs`. -/
structure Fs where
  root : Path
  cfg : CacheConfig
  inodes : Inodes
  caches : Caches

structure SetAttr where
  perm : Option ℕ
  size : Option ℕ
  atime : Option ℕ
  mtime : Option ℕ
  deriving DecidableEq

structure ReadChunk where
  data : List UInt8
  size : ℕ
  mtimeMs : Option ℕ
  eof : Bool

/-- What an operation returns, but for what was read from the node. -/
inductive Value
  | done
  | attr (a : Attr)
  | entries (es : List (String × Attr))

/-- An operation that waits for a call of the node, with what it holds. -/
inductive Task
  /-- `getattr`, alone or for a `read` of so many bytes from there. -/
  | getattr (id : ℕ) (path : Path) (read : Option (ℕ × ℕ))
  /-- `lstat` or `setattr`, after which the path is remembered. -/
  | remember (path : Path)
  | readdir (dir : ℕ) (path : Path)
  | readWhole (id : ℕ) (path : Path) (attr : Attr) (offset count : ℕ)
  | readPart (path : Path) (offset count : ℕ)
  | write (id : ℕ) (path : Path) (offset : ℕ) (data : List UInt8)
  | create (dir : ℕ) (path : Path) (set : SetAttr) (exclusive : Bool)
  /-- `mkdir` and `symlink`. -/
  | make (dir : ℕ) (path : Path)
  | remove (dir : ℕ) (path : Path)
  | rename (fromDir toDir : ℕ) (source target : Path)
  | readlink (path : Path)
  | setattr (id : ℕ) (path : Path) (set : SetAttr)

/-- What the call returns when it succeeds. -/
def Task.Answer : Task → Type
  | getattr .. | remember _ | write .. | make .. | setattr .. => Stat
  | readdir .. => List DirEntry
  | readWhole .. | readPart .. => ReadChunk
  | create .. | remove .. | rename .. => Unit
  | readlink _ => String

/-- An operation returns, or waits for its next call. -/
inductive Next
  | ret (r : Except FsErr Value)
  | wait (t : Task)

/-- The operations. -/
inductive Op
  | getattr (id : ℕ)
  | lookup (dir : ℕ) (name : String)
  | readdir (dir : ℕ)
  | read (id offset count : ℕ)
  | write (id offset : ℕ) (data : List UInt8)
  | create (dir : ℕ) (name : String) (set : SetAttr) (exclusive : Bool)
  | mkdir (dir : ℕ) (name : String)
  | remove (dir : ℕ) (name : String)
  | rename (fromDir : ℕ) (source : String) (toDir : ℕ) (target : String)
  | symlink (dir : ℕ) (name : String)
  | readlink (id : ℕ)
  | setattr (id : ℕ) (set : SetAttr)

namespace Fs

/-- `RemoteFs::new`. -/
def new (root : Path) (cfg : CacheConfig) : Fs := ⟨root, cfg, .new root, .empty⟩

variable (fs : Fs)

/-- `RemoteFs::path_of`. -/
def pathOf (id : ℕ) : Except FsErr Path :=
  match fs.inodes.byId.lookup id with
  | some path => .ok path
  | none => .error .stale

/-- `RemoteFs::child_path`. -/
def childPath (dir : ℕ) (name : String) : Except FsErr Path :=
  if name = "" ∨ '/' ∈ name.toList ∨ '\x00' ∈ name.toList ∨ name = "." ∨ name = ".." then
    .error .inval
  else if name.utf8ByteSize > 255 then .error .nameTooLong
  else (fs.pathOf dir).map (· ++ [name])

/-- `RemoteFs::fresh_attr`. -/
def freshAttr (now id : ℕ) : Option Attr :=
  ((fs.caches.attrs.lookup id).filter fun e ↦ now - e.2 < fs.cfg.attrTtl).map Prod.fst

/-- A listing that is trusted still. -/
def freshListing (now dir : ℕ) : Option Listing :=
  (fs.caches.listings.lookup dir).filter fun l ↦ now - l.read < fs.cfg.attrTtl

/-- What follows `getattr`. -/
def gotAttr (id : ℕ) (a : Attr) : Option (ℕ × ℕ) → Next
  | none => .ret (.ok (.attr a))
  | some (offset, count) =>
    if a.kind = .dir then .ret (.error .isDir)
    else if a.kind ≠ .file then .ret (.error .inval)
    else
      match (fs.caches.contents.lookup id).filter fun x ↦
          x.size = a.size ∧ x.mtimeMs = a.mtimeMs with
      | some _ => .ret (.ok .done)
      | none =>
        match fs.pathOf id with
        | .error e => .ret (.error e)
        | .ok path =>
          .wait (if a.size ≤ fs.cfg.contentMax then .readWhole id path a offset count
            else .readPart path offset count)

/-- `RemoteFs::getattr`, up to its call. -/
def getattr (now id : ℕ) (read : Option (ℕ × ℕ)) : Next :=
  match fs.freshAttr now id with
  | some a => fs.gotAttr id a read
  | none =>
    match fs.pathOf id with
    | .ok path => .wait (.getattr id path read)
    | .error e => .ret (.error e)

/-- An operation that calls the node about a path. -/
def call (path : Except FsErr Path) (task : Path → Task) : Next :=
  match path with
  | .ok path => .wait (task path)
  | .error e => .ret (.error e)

/-- `RemoteFs::lookup`, up to its call. -/
def lookup (now dir : ℕ) (name : String) : Next :=
  if name = "." then fs.getattr now dir none
  else if name = ".." then
    match fs.pathOf dir with
    | .error e => .ret (.error e)
    | .ok path =>
      fs.getattr now (if dir = rootId ∨ path = [] then rootId
        else (fs.inodes.byPath.lookup path.dropLast).getD rootId) none
  else
    match fs.childPath dir name with
    | .error e => .ret (.error e)
    | .ok path =>
      match (fs.freshListing now dir).map (·.entries.lookup name) with
      | some none => .ret (.error .noEnt)
      | some (some id) =>
        match fs.freshAttr now id with
        | some a => .ret (.ok (.attr a))
        | none => .wait (.remember path)
      | none => .wait (.remember path)

/-- `RemoteFs::readdir`, up to its call. -/
def readdir (now dir : ℕ) : Next :=
  match (fs.freshListing now dir).bind fun l ↦
      l.entries.mapM fun e ↦ (fs.caches.attrs.lookup e.2).map fun a ↦ (e.1, a.1) with
  | some es => .ret (.ok (.entries es))
  | none => call (fs.pathOf dir) (.readdir dir)

/-- An operation, up to its first call. -/
def start (now : ℕ) : Op → Next
  | .getattr id => fs.getattr now id none
  | .lookup dir name => fs.lookup now dir name
  | .readdir dir => fs.readdir now dir
  | .read id offset count => fs.getattr now id (some (offset, count))
  | .write id offset data => call (fs.pathOf id) (.write id · offset data)
  | .create dir name set exclusive => call (fs.childPath dir name) (.create dir · set exclusive)
  | .mkdir dir name | .symlink dir name => call (fs.childPath dir name) (.make dir)
  | .remove dir name => call (fs.childPath dir name) (.remove dir)
  | .rename fromDir source toDir target =>
    match fs.childPath fromDir source with
    | .error e => .ret (.error e)
    | .ok source =>
      match fs.childPath toDir target with
      | .error e => .ret (.error e)
      | .ok target =>
        if source <+: target ∧ target ≠ source then .ret (.error .inval)
        else .wait (.rename fromDir toDir source target)
  | .readlink id => call (fs.pathOf id) .readlink
  | .setattr id set =>
    if set = ⟨none, none, none, none⟩ then fs.getattr now id none
    else call (fs.pathOf id) (.setattr id · set)

/-- The caches are changed. -/
def cached (f : Caches → Caches) : Fs := { fs with caches := f fs.caches }

/-- A path gets its number. -/
def named (path : Path) : ℕ × Fs :=
  let (id, inodes) := fs.inodes.idFor path
  (id, { fs with inodes })

/-- A tree is forgotten, and what is cached of it. -/
def forget (path : Path) : Fs :=
  let (gone, inodes) := fs.inodes.forgetTree path
  { fs with inodes, caches := gone.foldl Caches.dropId fs.caches }

/-- `RemoteFs::remember`. -/
def remember (now : ℕ) (path : Path) (s : Stat) : Fs × Next :=
  let (id, fs) := fs.named path
  (fs.cached (·.putAttr now (.of id s)), .ret (.ok (.attr (.of id s))))

/-- Each name of a listing gets its number. -/
def nameAll (path : Path) (fs : Fs) : List DirEntry → List (String × ℕ) × Fs
  | [] => ([], fs)
  | e :: es =>
    let (id, fs) := fs.named (path ++ [e.name])
    let (ids, fs) := nameAll path fs es
    ((e.name, id) :: ids, fs)

/-- `RemoteFs::readdir`, behind its call. -/
def listed (now dir : ℕ) (path : Path) (es : List DirEntry) : Fs × Next :=
  let (ids, fs) := nameAll path fs es
  let attrs := (es.zip ids).map fun (e, _, id) ↦ Attr.of id e.toStat
  let fs := fs.cached (attrs.foldl (Caches.putAttr now))
  let old := ((fs.caches.listings.lookup dir).map Listing.entries).getD []
  let gone := old.filter (·.1 ∉ ids.map Prod.fst)
  let fs := fs.cached fun c ↦ { c with listings := erase c.listings dir }
  let fs := gone.foldl (fun fs e ↦ fs.forget (path ++ [e.1])) fs
  (fs.cached fun c ↦ { c with listings := put c.listings (dir, ⟨ids, now⟩) },
    .ret (.ok (.entries ((ids.map Prod.fst).zip attrs))))

/-- The table that `rename` moves the tree in. -/
def cleared (source target : Path) : Fs := if source = target then fs else fs.forget target

/-- An operation goes on after a call that has succeeded. -/
def answer (now : ℕ) (order : List ℕ) : (t : Task) → t.Answer → Fs × Next
  | .getattr id _ read, s =>
    let fs := fs.cached (·.putAttr now (.of id s))
    (fs, fs.gotAttr id (.of id s) read)
  | .remember path, s => fs.remember now path s
  | .readdir dir path, es => fs.listed now dir path es
  | .readWhole id _ a _ _, (x : ReadChunk) =>
    let content : Content := ⟨x.data, x.size, x.mtimeMs.getD 0⟩
    let stored := if x.eof ∧ x.data.length = x.size then
        fs.cached (·.storeContent fs.cfg.contentBudget order id content) else fs
    let read := if (x.eof ∧ x.data.length = x.size) ∧
        (x.size ≠ a.size ∨ x.mtimeMs.getD 0 ≠ a.mtimeMs) then
        stored.cached fun c ↦ { c with attrs := erase c.attrs id } else stored
    (read, .ret (.ok .done))
  | .readPart .., _ | .readlink _, _ => (fs, .ret (.ok .done))
  | .write id _ _ _, s =>
    (fs.cached fun c ↦ (c.dropContent id).putAttr now (.of id s), .ret (.ok (.attr (.of id s))))
  | .create dir path _ _, _ => (fs.cached (·.dirChanged dir), .wait (.remember path))
  | .make dir path, s => (fs.cached (·.dirChanged dir)).remember now path s
  | .remove dir path, _ => ((fs.cached (·.dirChanged dir)).forget path, .ret (.ok .done))
  | .rename fromDir toDir source target, _ =>
    let fs := (fs.cached fun c ↦ (c.dirChanged fromDir).dirChanged toDir).cleared source target
    let fs := { fs with inodes := fs.inodes.renameTree source target }
    (match fs.inodes.byPath.lookup target with
      | some id => fs.cached (·.dropId id)
      | none => fs, .ret (.ok .done))
  | .setattr id _ set, s =>
    (fs.cached fun c ↦ (if set.size.isSome then c.dropContent id else c).putAttr now (.of id s),
      .ret (.ok (.attr (.of id s))))

/-- An operation goes on after a call that has failed. -/
def fail (e : FsErr) : Task → Fs × Next
  | .getattr id path _ =>
    (if e = .noEnt ∧ id ≠ rootId then fs.forget path else fs, .ret (.error e))
  | .create dir path _ exclusive =>
    if e = .exist ∧ exclusive = false then (fs.cached (·.dirChanged dir), .wait (.remember path))
    else (fs, .ret (.error e))
  | _ => (fs, .ret (.error e))

end Fs

/-- The filesystem, and the operations that wait. -/
structure World where
  fs : Fs
  waiting : List Task

/-- The operations that wait now. -/
def Next.tasks : Next → List Task
  | ret _ => []
  | wait t => [t]

/-- One piece of an operation, at any moment. The victims of `store_content` are taken in the order
of the table, which is any. -/
inductive Step : World → World → Prop
  | start (w : World) (now : ℕ) (op : Op) :
    Step w ⟨w.fs, (w.fs.start now op).tasks ++ w.waiting⟩
  | answer (fs : Fs) (t : Task) (ts ts' : List Task) (a : t.Answer) (now : ℕ) (order : List ℕ) :
    ts.Perm (t :: ts') → (fs.caches.contents.map Prod.fst).Perm order →
    Step ⟨fs, ts⟩ ⟨(fs.answer now order t a).1, (fs.answer now order t a).2.tasks ++ ts'⟩
  | fail (fs : Fs) (t : Task) (ts ts' : List Task) (e : FsErr) : ts.Perm (t :: ts') →
    Step ⟨fs, ts⟩ ⟨(fs.fail e t).1, (fs.fail e t).2.tasks ++ ts'⟩
  /-- The caller does not wait any longer. -/
  | cancel (fs : Fs) (t : Task) (ts ts' : List Task) : ts.Perm (t :: ts') → Step ⟨fs, ts⟩ ⟨fs, ts'⟩
  /-- `RemoteFs::invalidate_all`. -/
  | invalidateAll (w : World) :
    Step w { w with fs := w.fs.cached fun c ↦ { Caches.empty with wrapped := c.wrapped } }

/-! ### What the tables keep -/

/-- A path strictly below the root. -/
def Below (root path : Path) : Prop := root <+: path ∧ path ≠ root

namespace Inodes

/-- What holds of the tables of a filesystem with this root. -/
structure Ok (root : Path) (i : Inodes) : Prop where
  inverse : Inverse i.byPath i.byId
  root_mem : (root, rootId) ∈ i.byPath
  below : ∀ p id, (p, id) ∈ i.byPath → root <+: p
  fresh : ∀ p id, (p, id) ∈ i.byPath → id < i.next

/-- Both tables are kept, and no number comes back. -/
structure Keeps (root : Path) (i j : Inodes) : Prop where
  ok : j.Ok root
  next : i.next ≤ j.next
  ids : ∀ p id, (p, id) ∈ j.byPath → id < i.next → ∃ q, (q, id) ∈ i.byPath

variable {root path source target : Path} {i j k : Inodes}

theorem Ok.refl (h : i.Ok root) : Keeps root i i := ⟨h, Nat.le_refl _, fun p _ hp _ ↦ ⟨p, hp⟩⟩

theorem Keeps.trans (h : Keeps root i j) (h' : Keeps root j k) : Keeps root i k :=
  ⟨h'.ok, h.next.trans h'.next, fun p id hp hlt ↦ by
    obtain ⟨q, hq⟩ := h'.ids p id hp (hlt.trans_le h.next)
    exact h.ids q id hq hlt⟩

theorem Ok.idFor (h : i.Ok root) (hpath : root <+: path) : Keeps root i (i.idFor path).2 := by
  rw [Inodes.idFor]
  split
  · exact h.refl
  rename_i hnone
  have hnew (id) : (path, id) ∉ i.byPath := fun hmem ↦ by
    cases hnone.symm.trans (h.inverse.keyed.lookup.2 hmem)
  have hfree (p) : (i.next, p) ∉ i.byId := fun hmem ↦
    absurd (h.fresh p _ ((h.inverse.mem p _).2 hmem)) (Nat.lt_irrefl _)
  have hne : path ≠ root := fun he ↦ hnew rootId (he ▸ h.root_mem)
  refine ⟨⟨h.inverse.put hnew hfree, mem_put.2 (.inr ⟨h.root_mem, hne.symm⟩), fun p id hp ↦ ?_,
    fun p id hp ↦ ?_⟩, Nat.le_succ _, fun p id hp hlt ↦ ?_⟩
  all_goals rcases mem_put.1 hp with he | ⟨hmem, -⟩
  · rwa [(Prod.mk.inj he).1]
  · exact h.below p id hmem
  · exact (Prod.mk.inj he).2 ▸ Nat.lt_succ_self _
  · exact (h.fresh p id hmem).trans (Nat.lt_succ_self _)
  · exact absurd hlt ((Prod.mk.inj he).2 ▸ Nat.lt_irrefl _)
  · exact ⟨p, hmem⟩

theorem mem_forgetTree {p : Path} {id : ℕ} : (p, id) ∈ (i.forgetTree path).2.byPath ↔
    (p, id) ∈ i.byPath ∧ (path <+: p → id = rootId) := by
  rw [forgetTree, List.mem_filter]
  simp [Classical.or_iff_not_imp_left]

theorem Ok.forgetTree (h : i.Ok root) (path : Path) : Keeps root i (i.forgetTree path).2 := by
  refine ⟨⟨h.inverse.filter fun p id hmem ↦ ?_, mem_forgetTree.2 ⟨h.root_mem, fun _ ↦ rfl⟩,
    fun p id hp ↦ h.below p id (mem_forgetTree.1 hp).1,
    fun p id hp ↦ h.fresh p id (mem_forgetTree.1 hp).1⟩, Nat.le_refl _,
    fun p id hp _ ↦ ⟨p, (mem_forgetTree.1 hp).1⟩⟩
  refine congrArg _ (Bool.eq_iff_iff.2 ⟨fun hgone ↦ ?_, fun hgone ↦ ?_⟩)
  · exact List.contains_iff_mem.2 (List.mem_map.2 ⟨_, List.mem_filter.2 ⟨hmem, hgone⟩, rfl⟩)
  · obtain ⟨⟨q, id'⟩, hq, rfl⟩ := List.mem_map.1 (List.contains_iff_mem.1 hgone)
    obtain ⟨hq, hunder⟩ := List.mem_filter.1 hq
    rwa [h.inverse.key_inj hmem hq]

/-- Nothing is below the target but what is moved there. -/
def Clear (source target : Path) (i : Inodes) : Prop :=
  ∀ p id, (p, id) ∈ i.byPath → target <+: p → source <+: p

theorem Ok.rename (h : i.Ok root) (hclear : Clear source target i) :
    Inverse (i.renameTree source target).byPath (i.renameTree source target).byId ∧
      ∀ p id, (p, id) ∈ (i.renameTree source target).byPath ↔
        (∃ rest, p = target ++ rest ∧ (source ++ rest, id) ∈ i.byPath) ∨
          ¬ source <+: p ∧ (p, id) ∈ i.byPath := by
  have hrename := h.inverse.rename (source.isPrefixOf ·)
    (fun p ↦ target ++ p.drop source.length) ?_ ?_
  · refine ⟨hrename.1, fun p id ↦ (hrename.2 p id).trans (or_congr ?_ ?_)⟩
    · constructor
      · rintro ⟨p', hmem, hp, rfl⟩
        obtain ⟨rest, rfl⟩ := List.isPrefixOf_iff_prefix.1 hp
        exact ⟨rest, by simp, hmem⟩
      · rintro ⟨rest, rfl, hmem⟩
        exact ⟨_, hmem, List.isPrefixOf_iff_prefix.2 (List.prefix_append _ _), by simp⟩
    · rw [and_comm, ← Bool.not_eq_true, List.isPrefixOf_iff_prefix]
  · intro p p' hp hp' heq
    obtain ⟨rest, rfl⟩ := List.isPrefixOf_iff_prefix.1 hp
    obtain ⟨rest', rfl⟩ := List.isPrefixOf_iff_prefix.1 hp'
    simpa using heq
  · rintro p id p' id' - - hmem hnot rfl
    have hunder := hclear _ _ hmem (List.prefix_append _ _)
    rw [List.isPrefixOf_iff_prefix.2 hunder] at hnot
    cases hnot

theorem Ok.renameTree (h : i.Ok root) (hclear : Clear source target i)
    (hsource : Below root source) (htarget : root <+: target) :
    Keeps root i (i.renameTree source target) := by
  obtain ⟨hinverse, hmem⟩ := h.rename hclear
  have hroot : ¬ source <+: root := fun hp ↦
    hsource.2 (hp.eq_of_length (Nat.le_antisymm hp.length_le hsource.1.length_le))
  have hids (p id) (hp : (p, id) ∈ (i.renameTree source target).byPath) :
      ∃ q, (q, id) ∈ i.byPath := by
    rcases (hmem p id).1 hp with ⟨rest, -, hq⟩ | ⟨-, hq⟩
    · exact ⟨_, hq⟩
    · exact ⟨p, hq⟩
  refine ⟨⟨hinverse, (hmem _ _).2 (.inr ⟨hroot, h.root_mem⟩), fun p id hp ↦ ?_, fun p id hp ↦ ?_⟩,
    Nat.le_refl _, fun p id hp _ ↦ hids p id hp⟩
  · rcases (hmem p id).1 hp with ⟨rest, rfl, -⟩ | ⟨-, hq⟩
    · exact htarget.trans (List.prefix_append _ _)
    · exact h.below p id hq
  · obtain ⟨q, hq⟩ := hids p id hp
    exact h.fresh q id hq

end Inodes

/-! ### What the caches keep -/

variable {order : List ℕ}

namespace Caches

/-- The counter is what the contents weigh. -/
structure Ok (budget : ℕ) (c : Caches) : Prop where
  keyed : Keyed c.contents
  bytes_eq : c.contentBytes = weigh (·.data.length) c.contents
  bytes_le : c.contentBytes ≤ budget
  wrapped : c.wrapped = false

variable {budget : ℕ} {c : Caches}

theorem Ok.dropContent (h : c.Ok budget) (id : ℕ) : (c.dropContent id).Ok budget := by
  rw [Caches.dropContent]
  split
  · exact h
  rename_i content hcontent
  have hweigh := weigh_erase (w := (·.data.length)) h.keyed hcontent
  have hbytes := h.bytes_eq
  refine ⟨h.keyed.filter _, ?_, (Nat.sub_le _ _).trans h.bytes_le, ?_⟩
  · simp only at hweigh ⊢
    omega
  · rw [h.wrapped, Bool.false_or, decide_eq_false_iff_not]
    omega

theorem contents_dropContent (c : Caches) (id : ℕ) :
    (c.dropContent id).contents = erase c.contents id := by
  rw [Caches.dropContent]
  split
  · rename_i hnone
    exact (erase_of_lookup hnone).symm
  · rfl

theorem Ok.dirChanged (h : c.Ok budget) (dir : ℕ) : (c.dirChanged dir).Ok budget :=
  ⟨h.keyed, h.bytes_eq, h.bytes_le, h.wrapped⟩

theorem Ok.dropId (h : c.Ok budget) (id : ℕ) : (c.dropId id).Ok budget := by
  have hdirty : (c.dirChanged id).Ok budget := h.dirChanged id
  exact hdirty.dropContent id

theorem Ok.foldl_dropId (h : c.Ok budget) (ids : List ℕ) :
    (ids.foldl Caches.dropId c).Ok budget := by
  induction ids generalizing c with
  | nil => exact h
  | cons id ids ih => exact ih (h.dropId id)

theorem Ok.putAttr (h : c.Ok budget) (now : ℕ) (a : Attr) : (c.putAttr now a).Ok budget := by
  have hdropped : (if (c.contents.lookup a.id).any fun x ↦ x.size ≠ a.size ∨ x.mtimeMs ≠ a.mtimeMs
      then c.dropContent a.id else c).Ok budget := by
    split
    · exact h.dropContent _
    · exact h
  exact ⟨hdropped.keyed, hdropped.bytes_eq, hdropped.bytes_le, hdropped.wrapped⟩

theorem Ok.foldl_putAttr (h : c.Ok budget) (now : ℕ) (attrs : List Attr) :
    (attrs.foldl (Caches.putAttr now) c).Ok budget := by
  induction attrs generalizing c with
  | nil => exact h
  | cons a attrs ih => exact ih (h.putAttr now a)

/-- The loop ends with room: when every content has gone, nothing is left. -/
theorem Ok.makeRoom {n : ℕ} (hn : n ≤ budget) (h : c.Ok budget)
    (horder : ∀ e ∈ c.contents, e.1 ∈ order) :
    (c.makeRoom budget n order).Ok budget ∧
      (c.makeRoom budget n order).contentBytes + n ≤ budget := by
  induction order generalizing c with
  | nil =>
    have hnone : c.contents = [] := List.eq_nil_iff_forall_not_mem.2 fun e he ↦ by
      cases horder e he
    refine ⟨h, ?_⟩
    rw [Caches.makeRoom, h.bytes_eq, hnone, weigh]
    simpa using hn
  | cons victim order ih =>
    rw [Caches.makeRoom]
    split
    · refine ih (h.dropContent victim) fun e he ↦ ?_
      rw [contents_dropContent, mem_erase] at he
      exact (List.mem_cons.1 (horder e he.1)).resolve_left he.2
    · exact ⟨h, by omega⟩

theorem mem_makeRoom {n : ℕ} :
    ∀ e ∈ (c.makeRoom budget n order).contents, e ∈ c.contents := by
  induction order generalizing c with
  | nil => exact fun e he ↦ he
  | cons victim order ih =>
    intro e he
    rw [Caches.makeRoom] at he
    split at he
    · have hmem := ih e he
      rw [contents_dropContent, mem_erase] at hmem
      exact hmem.1
    · exact he

theorem Ok.storeContent (h : c.Ok budget) (horder : (c.contents.map Prod.fst).Perm order) (id : ℕ)
    (x : Content) :
    (c.storeContent budget order id x).Ok budget := by
  rw [Caches.storeContent]
  split
  · exact h
  rename_i hn
  have hrest : ∀ e ∈ (c.dropContent id).contents, e.1 ∈ order ∧ e.1 ≠ id := fun e he ↦ by
    rw [contents_dropContent, mem_erase] at he
    exact ⟨horder.subset (List.mem_map_of_mem he.1), he.2⟩
  obtain ⟨hroom, hfits⟩ :=
    (h.dropContent id).makeRoom (Nat.not_lt.1 hn) fun e he ↦ (hrest e he).1
  refine ⟨hroom.keyed.put _, ?_, hfits, hroom.wrapped⟩
  have hsame : erase ((c.dropContent id).makeRoom budget x.data.length order).contents id =
      ((c.dropContent id).makeRoom budget x.data.length order).contents :=
    List.filter_eq_self.2 fun e he ↦ decide_eq_true (hrest e (mem_makeRoom e he)).2
  show _ + _ = weigh _ (_ :: erase _ id)
  rw [hsame, weigh, List.map_cons, List.sum_cons, hroom.bytes_eq, Nat.add_comm]
  rfl

end Caches

/-! ### What every piece keeps -/

namespace Fs

/-- What holds of the filesystem between two pieces. -/
structure Ok (fs : Fs) : Prop where
  inodes : fs.inodes.Ok fs.root
  caches : fs.caches.Ok fs.cfg.contentBudget

/-- What one piece does to a filesystem with this root and this configuration. -/
structure Keeps (fs fs' : Fs) : Prop where
  root : fs'.root = fs.root
  cfg : fs'.cfg = fs.cfg
  inodes : fs.inodes.Keeps fs.root fs'.inodes
  caches : fs'.caches.Ok fs.cfg.contentBudget

variable {fs fs' fs'' : Fs} {path : Path} {id : ℕ}

theorem Keeps.ok (h : fs.Keeps fs') : fs'.Ok :=
  ⟨by rw [h.root]; exact h.inodes.ok, by rw [h.cfg]; exact h.caches⟩

theorem Ok.refl (h : fs.Ok) : fs.Keeps fs := ⟨rfl, rfl, h.inodes.refl, h.caches⟩

theorem Keeps.trans (h : fs.Keeps fs') (h' : fs'.Keeps fs'') : fs.Keeps fs'' := by
  obtain ⟨hroot, hcfg, hinodes, hcaches⟩ := h'
  rw [h.root] at hinodes
  rw [h.cfg] at hcaches
  exact ⟨hroot.trans h.root, hcfg.trans h.cfg, h.inodes.trans hinodes, hcaches⟩

/-- The caches are changed, whatever was done before. -/
theorem Keeps.cached (h : fs.Keeps fs') {f : Caches → Caches}
    (hf : ∀ c : Caches, c.Ok fs.cfg.contentBudget → (f c).Ok fs.cfg.contentBudget) :
    fs.Keeps (fs'.cached f) :=
  ⟨h.root, h.cfg, h.inodes, hf _ h.caches⟩

theorem Ok.named (h : fs.Ok) (hpath : fs.root <+: path) : fs.Keeps (fs.named path).2 :=
  ⟨rfl, rfl, h.inodes.idFor hpath, h.caches⟩

theorem Ok.forget (h : fs.Ok) (path : Path) : fs.Keeps (fs.forget path) :=
  ⟨rfl, rfl, h.inodes.forgetTree path, h.caches.foldl_dropId _⟩

theorem Ok.nameAll (h : fs.Ok) (hpath : fs.root <+: path) (es : List DirEntry) :
    fs.Keeps (nameAll path fs es).2 := by
  induction es generalizing fs with
  | nil => exact h.refl
  | cons e es ih =>
    have hnamed := h.named (hpath.trans (List.prefix_append path [e.name]))
    exact hnamed.trans (ih hnamed.ok hpath)

theorem Keeps.foldl_forget (h : fs.Keeps fs') (paths : List (String × ℕ)) :
    fs.Keeps (paths.foldl (fun fs e ↦ fs.forget (path ++ [e.1])) fs') := by
  induction paths generalizing fs' with
  | nil => exact h
  | cons e paths ih => exact ih (h.trans (h.ok.forget _))

/-- Before a tree is moved, what is below the target goes. -/
theorem Ok.cleared (h : fs.Ok) (source : Path) {target : Path} (htarget : Below fs.root target) :
    fs.Keeps (fs.cleared source target) ∧
      Inodes.Clear source target (fs.cleared source target).inodes := by
  rw [Fs.cleared]
  split
  case isTrue hsame => exact ⟨h.refl, fun p id _ hp ↦ hsame ▸ hp⟩
  case isFalse =>
    refine ⟨h.forget target, fun p id hmem hp ↦ ?_⟩
    obtain ⟨hmem, hid⟩ := Inodes.mem_forgetTree.1 hmem
    have hroot : p = fs.root := h.inodes.inverse.key_inj hmem (hid hp ▸ h.inodes.root_mem)
    exact absurd (List.IsPrefix.eq_of_length (hroot ▸ hp)
      (Nat.le_antisymm (hroot ▸ hp).length_le htarget.1.length_le)) htarget.2

theorem Keeps.renamed (h : fs.Keeps fs') {source target : Path}
    (hclear : Inodes.Clear source target fs'.inodes) (hsource : Below fs.root source)
    (htarget : fs.root <+: target) :
    fs.Keeps { fs' with inodes := fs'.inodes.renameTree source target } :=
  ⟨h.root, h.cfg, h.inodes.trans (h.inodes.ok.renameTree hclear hsource htarget), h.caches⟩

theorem Ok.below_pathOf (h : fs.Ok) (hpath : fs.pathOf id = .ok path) :
    fs.root <+: path ∧ (id ≠ rootId → Below fs.root path) := by
  rw [pathOf] at hpath
  split at hpath
  · rename_i p hlookup
    obtain rfl := Except.ok.inj hpath
    have hmem := (h.inodes.inverse.mem p id).2 (h.inodes.inverse.keyed'.lookup.1 hlookup)
    refine ⟨h.inodes.below p id hmem, fun hne ↦ ⟨h.inodes.below p id hmem, ?_⟩⟩
    rintro rfl
    exact hne (h.inodes.inverse.keyed.value_inj hmem h.inodes.root_mem)
  · cases hpath

theorem Ok.below_childPath (h : fs.Ok) {name : String} (hpath : fs.childPath id name = .ok path) :
    Below fs.root path := by
  rw [childPath] at hpath
  split at hpath
  · cases hpath
  · split at hpath
    · cases hpath
    · cases hparent : fs.pathOf id with
      | error e => rw [hparent] at hpath; cases hpath
      | ok p =>
        rw [hparent] at hpath
        obtain rfl := Except.ok.inj hpath
        have hp := (h.below_pathOf hparent).1
        refine ⟨hp.trans (List.prefix_append p [name]), fun heq ↦ ?_⟩
        have hlength := hp.length_le
        rw [← heq, List.length_append, List.length_singleton] at hlength
        omega

end Fs

/-- What a waiting operation holds. -/
def Task.Ok (root : Path) : Task → Prop
  | getattr id path _ => id ≠ rootId → Below root path
  | remember path | readdir _ path | create _ path _ _ | make _ path => root <+: path
  | rename _ _ source target => Below root source ∧ Below root target
  | _ => True

/-- What an operation holds that waits now. -/
def Next.Ok (root : Path) : Next → Prop
  | ret _ => True
  | wait t => t.Ok root

theorem Next.Ok.tasks {root : Path} {next : Next} (h : next.Ok root) :
    ∀ t ∈ next.tasks, t.Ok root := by
  cases next with
  | ret => exact fun _ ht ↦ by cases ht
  | wait t => exact List.forall_mem_singleton.2 h

namespace Fs

variable {fs : Fs}

theorem gotAttr_ok (id : ℕ) (a : Attr) (read : Option (ℕ × ℕ)) :
    (fs.gotAttr id a read).Ok fs.root := by
  unfold gotAttr
  repeat' split
  all_goals trivial

theorem Ok.getattr (h : fs.Ok) (now id : ℕ) (read : Option (ℕ × ℕ)) :
    (fs.getattr now id read).Ok fs.root := by
  rw [Fs.getattr]
  split
  · exact gotAttr_ok ..
  · split
    · rename_i hpath
      exact (h.below_pathOf hpath).2
    · trivial

/-- **An operation that waits for its first call** holds paths of the tree. -/
theorem Ok.start (h : fs.Ok) (now : ℕ) (op : Op) : (fs.start now op).Ok fs.root := by
  have hcall {path : Except FsErr Path} {task : Path → Task}
      (htask : ∀ p, path = .ok p → (task p).Ok fs.root) : (call path task).Ok fs.root := by
    cases path with
    | error => trivial
    | ok p => exact htask p rfl
  cases op with
  | getattr | read => exact h.getattr ..
  | lookup dir name =>
    simp only [Fs.start, Fs.lookup]
    split
    · exact h.getattr ..
    · split
      · split
        · trivial
        · exact h.getattr ..
      · split
        · trivial
        · rename_i path hpath
          have hok : (Next.wait (.remember path)).Ok fs.root := (h.below_childPath hpath).1
          split
          · trivial
          · split
            · trivial
            · exact hok
          · exact hok
  | readdir dir =>
    simp only [Fs.start, Fs.readdir]
    split
    · trivial
    · exact hcall fun p hp ↦ (h.below_pathOf hp).1
  | write | readlink | remove => exact hcall fun _ _ ↦ trivial
  | create | mkdir | symlink => exact hcall fun p hp ↦ (h.below_childPath hp).1
  | rename =>
    simp only [Fs.start]
    split
    · trivial
    · rename_i hsource
      split
      · trivial
      · rename_i htarget
        split
        · trivial
        · exact ⟨h.below_childPath hsource, h.below_childPath htarget⟩
  | setattr =>
    simp only [Fs.start]
    split
    · exact h.getattr ..
    · exact hcall fun _ _ ↦ trivial

/-- **An operation goes on**: the tables and the counter are kept, and so is what it holds. -/
theorem Ok.answer (h : fs.Ok) (now : ℕ) (horder : (fs.caches.contents.map Prod.fst).Perm order)
    {t : Task} (ht : t.Ok fs.root) (a : t.Answer) :
    fs.Keeps (fs.answer now order t a).1 ∧ (fs.answer now order t a).2.Ok fs.root := by
  have hremember {fs' : Fs} (hfs : fs.Keeps fs') {path : Path} (hpath : fs.root <+: path)
      (s : Stat) : fs.Keeps (fs'.remember now path s).1 :=
    (hfs.trans (hfs.ok.named (by rw [hfs.root]; exact hpath))).cached fun _ hc ↦ hc.putAttr _ _
  have hdirty (dir : ℕ) : fs.Keeps (fs.cached (·.dirChanged dir)) :=
    h.refl.cached fun _ hc ↦ hc.dirChanged _
  cases t with
  | getattr id path read => exact ⟨h.refl.cached fun _ hc ↦ hc.putAttr _ _, gotAttr_ok ..⟩
  | remember path => exact ⟨hremember h.refl ht a, trivial⟩
  | readdir dir path =>
    refine ⟨?_, trivial⟩
    have hframe {c : Caches} (hc : c.Ok fs.cfg.contentBudget) (listings : List (ℕ × Listing)) :
        ({ c with listings } : Caches).Ok fs.cfg.contentBudget :=
      ⟨hc.keyed, hc.bytes_eq, hc.bytes_le, hc.wrapped⟩
    exact ((((h.nameAll ht a).cached fun _ hc ↦ hc.foldl_putAttr now _).cached
      fun _ hc ↦ hframe hc _).foldl_forget _).cached fun _ hc ↦ hframe hc _
  | readWhole id path attr offset count =>
    refine ⟨?_, trivial⟩
    have hstored (x : Content) :
        fs.Keeps (fs.cached (·.storeContent fs.cfg.contentBudget order id x)) :=
      ⟨rfl, rfl, h.inodes.refl, h.caches.storeContent horder id x⟩
    simp only [Fs.answer]
    split_ifs
    all_goals first
      | exact h.refl
      | exact hstored _
      | exact (hstored _).cached fun _ hc ↦ ⟨hc.keyed, hc.bytes_eq, hc.bytes_le, hc.wrapped⟩
      | exact h.refl.cached fun _ hc ↦ ⟨hc.keyed, hc.bytes_eq, hc.bytes_le, hc.wrapped⟩
  | readPart | readlink => exact ⟨h.refl, trivial⟩
  | write id => exact ⟨h.refl.cached fun _ hc ↦ (hc.dropContent id).putAttr _ _, trivial⟩
  | create dir path => exact ⟨hdirty dir, ht⟩
  | make dir path => exact ⟨hremember (hdirty dir) ht a, trivial⟩
  | remove dir path => exact ⟨(hdirty dir).trans ((hdirty dir).ok.forget path), trivial⟩
  | rename fromDir toDir source target =>
    refine ⟨?_, trivial⟩
    have hboth := (hdirty fromDir).cached (f := (·.dirChanged toDir)) fun _ hc ↦ hc.dirChanged _
    obtain ⟨hcleared, hclear⟩ := hboth.ok.cleared source ht.2
    have hmoved := (hboth.trans hcleared).renamed hclear ht.1 ht.2.1
    simp only [Fs.answer]
    split
    · exact hmoved.cached fun _ hc ↦ hc.dropId _
    · exact hmoved
  | setattr id path set =>
    refine ⟨h.refl.cached (f := fun c ↦ (if set.size.isSome then c.dropContent id else c).putAttr
      now (.of id a)) fun c hc ↦ ?_, trivial⟩
    split
    · exact (hc.dropContent id).putAttr _ _
    · exact hc.putAttr _ _

theorem Ok.fail (h : fs.Ok) (e : FsErr) {t : Task} (ht : t.Ok fs.root) :
    fs.Keeps (fs.fail e t).1 ∧ (fs.fail e t).2.Ok fs.root := by
  cases t with
  | getattr id path read =>
    refine ⟨?_, trivial⟩
    simp only [Fs.fail]
    split
    · exact h.forget path
    · exact h.refl
  | create dir path set exclusive =>
    simp only [Fs.fail]
    split
    · exact ⟨h.refl.cached fun _ hc ↦ hc.dirChanged _, ht⟩
    · exact ⟨h.refl, trivial⟩
  | _ => exact ⟨h.refl, trivial⟩

end Fs

namespace World

/-- What holds of the filesystem and of what waits. -/
structure Ok (w : World) : Prop where
  fs : w.fs.Ok
  waiting : ∀ t ∈ w.waiting, t.Ok w.fs.root

variable {w w' : World}

theorem Ok.step (h : w.Ok) (hstep : Step w w') : w'.Ok ∧ w.fs.Keeps w'.fs := by
  -- What goes on, and what waits beside it.
  have hgoes {fs fs' : Fs} {t : Task} {ts ts' : List Task} {next : Next} (h : Ok ⟨fs, ts⟩)
      (hperm : ts.Perm (t :: ts')) (hgoes : t.Ok fs.root → fs.Keeps fs' ∧ next.Ok fs.root) :
      Ok ⟨fs', next.tasks ++ ts'⟩ ∧ fs.Keeps fs' := by
    obtain ⟨hkeeps, hnext⟩ := hgoes (h.waiting t (hperm.mem_iff.2 List.mem_cons_self))
    refine ⟨⟨hkeeps.ok, ?_⟩, hkeeps⟩
    rw [hkeeps.root]
    exact List.forall_mem_append.2 ⟨hnext.tasks,
      fun t' ht' ↦ h.waiting t' (hperm.mem_iff.2 (List.mem_cons_of_mem _ ht'))⟩
  cases hstep with
  | start _ now op =>
    exact ⟨⟨h.fs, List.forall_mem_append.2 ⟨(h.fs.start now op).tasks, h.waiting⟩⟩, h.fs.refl⟩
  | answer fs t ts ts' a now order hperm horder =>
    exact hgoes h hperm fun ht ↦ h.fs.answer now horder ht a
  | fail fs t ts ts' e hperm => exact hgoes h hperm fun ht ↦ h.fs.fail e ht
  | cancel fs t ts ts' hperm =>
    have hret : Next.Ok fs.root (.ret (.ok .done)) := trivial
    exact hgoes h hperm fun _ ↦ ⟨h.fs.refl, hret⟩
  | invalidateAll =>
    have hempty := h.fs.refl.cached (f := fun c ↦ { Caches.empty with wrapped := c.wrapped })
      fun _ hc ↦ ⟨.nil, rfl, Nat.zero_le _, hc.wrapped⟩
    exact ⟨⟨hempty.ok, h.waiting⟩, hempty⟩

theorem Ok.steps (h : w.Ok) (hsteps : Relation.ReflTransGen Step w w') :
    w'.Ok ∧ w.fs.Keeps w'.fs := by
  induction hsteps with
  | refl => exact ⟨h, h.fs.refl⟩
  | tail _ hstep ih =>
    obtain ⟨hok, hkeeps⟩ := ih.1.step hstep
    exact ⟨hok, ih.2.trans hkeeps⟩

/-- A new filesystem. -/
def new (root : Path) (cfg : CacheConfig) : World := ⟨.new root cfg, []⟩

theorem ok_new (root : Path) (cfg : CacheConfig) : (new root cfg).Ok := by
  refine ⟨⟨⟨⟨?_, ?_, fun p id ↦ ?_⟩, ?_, fun p id hp ↦ ?_, fun p id hp ↦ ?_⟩,
    .nil, rfl, Nat.zero_le _, rfl⟩, fun t ht ↦ by cases ht⟩
  · exact List.pairwise_singleton ..
  · exact List.pairwise_singleton ..
  · simp [new, Fs.new, Inodes.new, and_comm]
  · exact List.mem_singleton_self _
  all_goals obtain ⟨rfl, rfl⟩ := Prod.mk.inj (List.mem_singleton.1 hp)
  · exact List.prefix_rfl
  · exact Nat.lt_succ_self _

/-- What is true of the numbers and of the counter. -/
structure Good (root : Path) (w : World) : Prop where
  inverse : ∀ id path, w.fs.inodes.byId.lookup id = some path ↔
    w.fs.inodes.byPath.lookup path = some id
  root : w.fs.inodes.byId.lookup rootId = some root
  /-- A rename moves the paths below the old name, with their numbers, and no other. -/
  rename : ∀ fromDir toDir source target, .rename fromDir toDir source target ∈ w.waiting →
    let i := (w.fs.cleared source target).inodes
    ∀ path id, (i.renameTree source target).byPath.lookup path = some id ↔
      (∃ rest, path = target ++ rest ∧ i.byPath.lookup (source ++ rest) = some id) ∨
        ¬ source <+: path ∧ i.byPath.lookup path = some id
  bytes : w.fs.caches.contentBytes = weigh (·.data.length) w.fs.caches.contents
  budget : w.fs.caches.contentBytes ≤ w.fs.cfg.contentBudget
  wrapped : w.fs.caches.wrapped = false

theorem Ok.good (h : w.Ok) : w.Good w.fs.root where
  inverse id path := by
    rw [h.fs.inodes.inverse.keyed'.lookup, h.fs.inodes.inverse.keyed.lookup,
      h.fs.inodes.inverse.mem]
  root := h.fs.inodes.inverse.keyed'.lookup.2 ((h.fs.inodes.inverse.mem _ _).1 h.fs.inodes.root_mem)
  rename fromDir toDir source target hwaits := by
    obtain ⟨-, htarget⟩ := h.waiting _ hwaits
    obtain ⟨hcleared, hclear⟩ := h.fs.cleared source htarget
    obtain ⟨hinverse, hmem⟩ := hcleared.ok.inodes.rename hclear
    intro i path id
    rw [hinverse.keyed.lookup, hmem]
    simp only [hcleared.ok.inodes.inverse.keyed.lookup, i]
  bytes := h.fs.caches.bytes_eq
  budget := h.fs.caches.bytes_le
  wrapped := h.fs.caches.wrapped

end World

/-- **The tables and the counter are right at every await point**, and a number that was forgotten
never names a file again. -/
theorem good_of_steps (root : Path) (cfg : CacheConfig) {w : World}
    (h : Relation.ReflTransGen Step (.new root cfg) w) : w.Good root ∧
      ∀ u v, Relation.ReflTransGen Step w u → Relation.ReflTransGen Step u v →
        ∀ id path, w.fs.inodes.byId.lookup id = some path → u.fs.inodes.byId.lookup id = none →
          v.fs.inodes.byId.lookup id = none := by
  obtain ⟨hok, hkeeps⟩ := (World.ok_new root cfg).steps h
  have hroot : w.fs.root = root := hkeeps.root
  refine ⟨hroot ▸ hok.good, fun u v hwu huv id path hnamed hforgotten ↦ ?_⟩
  obtain ⟨hu, hkeepsU⟩ := hok.steps hwu
  obtain ⟨hv, hkeepsV⟩ := hu.steps huv
  by_contra hback
  obtain ⟨path', hback⟩ := Option.ne_none_iff_exists'.1 hback
  rw [hok.good.inverse, hok.fs.inodes.inverse.keyed.lookup] at hnamed
  rw [hv.good.inverse, hv.fs.inodes.inverse.keyed.lookup] at hback
  have hlt := (hok.fs.inodes.fresh _ _ hnamed).trans_le hkeepsU.inodes.next
  obtain ⟨q, hq⟩ := hkeepsV.inodes.ids _ _ hback hlt
  rw [← hu.fs.inodes.inverse.keyed.lookup, ← hu.good.inverse, hforgotten] at hq
  cases hq

/-- The root is listed, and a file of it gets its number. -/
theorem good_of_steps_listed :
    let fs := Fs.new ["r"] ⟨1000, 4, 8⟩
    World.Good ["r"] ⟨(fs.answer 0 [] (.readdir rootId ["r"]) [⟨⟨.file, 3, none⟩, "b"⟩]).1, []⟩ :=
  (good_of_steps ["r"] ⟨1000, 4, 8⟩ (.tail (.single (.start _ 0 (.readdir rootId)))
    (.answer _ (.readdir rootId ["r"]) _ [] _ 0 [] (.refl _) (.refl _)))).1

end Ember.Server.Computers.RemoteFs
