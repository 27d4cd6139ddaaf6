import Ember.Basic
import Ember.Foundation.Runs
import Ember.StdPath
import Mathlib.Data.List.Infix

/-!
# The project mounts of the server

`server/src/computers/mount.rs`: a session on another computer has its project directory mounted
here, at the same path. `ProjectMounts` is the table of these mounts. Every operation holds the
table's lock from its first look to its last write, so an operation is one function here; what the
steps in between come to (the node's answers, the mount helper, the disk) is its `Outside`
argument, and any of them may fail.

A path is what `PathBuf` compares: its components (`Dir`). Two further things are not data of the
source. The `Disk` is the server's own file system as far as mounting touches it, so that "leaves
no directory behind" can be said; and the entries are a list, whose order stands for the iteration
order of the hash map and may change at any time (`MountAction.rehash`).
-/

namespace Ember.Server.Computers

open FileTree

/-- A path as `PathBuf` compares it: its components. -/
abbrev Dir := List (Component String)

namespace Dir

/-- `Path::parent` of an absolute path. -/
def parent (d : Dir) : Option Dir := if d.length ≤ 1 then none else some d.dropLast

/-- The parents of a path, the nearest first. -/
def ancestors (d : Dir) : List Dir := (d.inits.drop 1).dropLast.reverse

end Dir

/-! ### The server's disk -/

/-- The server's own file system: what is there, and on what something is mounted. -/
structure Disk where
  dirs : List Dir
  files : List Dir
  mounted : List Dir

namespace Disk

variable (k : Disk)

/-- `Path::exists`. -/
def present (d : Dir) : Bool := k.dirs.contains d || k.files.contains d

/-- Whether a directory holds nothing. -/
def isEmpty (d : Dir) : Bool := (k.dirs ++ k.files).all fun e ↦ e.parent != some d

/-- `std::fs::create_dir`, where the parent is there and the path is not. -/
def createDir (d : Dir) : Disk := { k with dirs := k.dirs ++ [d] }

/-- `std::fs::remove_dir`: only an empty directory that is no mount point goes away. -/
def removeDir (d : Dir) : Disk :=
  if k.dirs.contains d && !k.mounted.contains d && k.isEmpty d then
    { k with dirs := k.dirs.erase d }
  else k

/-- `remove_dirs`: the last one first, errors ignored. -/
def removeDirs (created : List Dir) : Disk := created.reverse.foldl removeDir k

end Disk

/-! ### What may go wrong -/

/-- `MountPointError`. -/
inductive MountPointError
  | notEmpty (path : Dir)
  | notADirectory (path : Dir)
  | needsSetup (path : Dir) (reason : String)

/-- `MountPoint`: what the mount point needs before mounting. -/
inductive MountPoint
  | ready
  | mounted
  /-- Missing: create these directories, outermost first. -/
  | create (dirs : List Dir)

/-- `MountError`. -/
inductive MountError
  | notAbsolute (path : Dir)
  | conflict (path : Dir) (other : String)
  | nested (path other : Dir)
  | unreachable (computer error : String)
  | missingOnNode (path : Dir) (computer : String)
  | forbidden (path : Dir) (computer : String)
  | notADirectory (path : Dir) (computer : String)
  | mountPoint (e : MountPointError)
  | mount (path : Dir) (error : String)

/-- The errors of the checks that come before anything is done. -/
def MountError.isRefusal : MountError → Bool
  | notAbsolute _ | conflict _ _ | nested _ _ => true
  | _ => false

/-- `FsErr`, as far as `acquire` tells them apart. -/
inductive FsErr
  | noEnt
  | access
  | perm
  | other (message : String)

/-- `FileKind`. -/
inductive FileKind
  | file
  | dir
  | symlink
  | other
  deriving DecidableEq

/-- What the steps of one operation come to. -/
structure Outside where
  /-- The connector's answer. -/
  connect : Except String Unit
  /-- The node's answer about the root. -/
  getattr : Except FsErr FileKind
  /-- The inspection's task fails. -/
  inspectFails : Option String
  /-- The same for the inspection after a stale mount was removed. -/
  inspectAgainFails : Option String
  writable : Dir → Bool
  /-- `create_dir` of a missing directory fails. -/
  createFails : Dir → Option String
  forceUnmount : Except String Unit
  /-- Whether a forced unmount that succeeded removed the mount. -/
  forced : Bool
  mount : Except String Unit
  /-- Whether the unmount of a mount succeeds. -/
  unmount : Dir → Bool

/-- `Computer`, as far as mounting reads it. -/
structure Computer where
  id : String
  name : String
  deriving DecidableEq

/-- `Entry`: a mount. `fs` names its file system object. -/
structure Entry where
  root : Dir
  computerId : String
  computerName : String
  fs : ℕ
  users : List String
  /-- Mount point directories this module created, outermost first. -/
  created : List Dir
  /-- Since when no user's agent was live. -/
  unusedSince : Option Instant
  deriving DecidableEq

namespace Entry

/-- `root.starts_with(p)`. -/
def covers (e : Entry) (root : Dir) : Bool := e.root.isPrefixOf root

/-- The entry less a user. -/
def without (e : Entry) (sessionId : String) : Entry := { e with users := e.users.erase sessionId }

/-- The entry when a user leaves every mount other than `keep`. -/
def leave (sessionId : String) (keep : Dir) (e : Entry) : Entry :=
  if e.root = keep then e else e.without sessionId

/-- The entry with a user, which uses it from now on. -/
def join (sessionId : String) (at_ : Dir) (e : Entry) : Entry :=
  if e.root = at_ then { e with users := e.users.insert sessionId, unusedSince := none } else e

end Entry

/-- `MountSettings`, as far as these operations read them. -/
structure MountSettings where
  allowShadow : Bool
  idleGrace : Duration

/-- `ProjectMounts`, with the disk it mounts on. `next` is the number of the next file system
object. -/
structure ProjectMounts where
  entries : List Entry
  index : List (Dir × ℕ)
  disk : Disk
  next : ℕ

/-- `cmd::inspect`. -/
def inspect (allowShadow : Bool) (writable : Dir → Bool) (k : Disk) (root : Dir) :
    Except MountPointError MountPoint :=
  if k.files.contains root then .error (.notADirectory root)
  else if k.dirs.contains root then
    if k.mounted.contains root then .ok .mounted
    else if k.isEmpty root || allowShadow then .ok .ready
    else .error (.notEmpty root)
  else
    let missing := (root :: root.ancestors.takeWhile fun p ↦ !k.present p).reverse
    match root.ancestors.find? k.present with
    | some p => if writable p then .ok (.create missing) else .error (.needsSetup root "not writable")
    | none => .ok (.create missing)

/-- The loop of `prepare_mount_point`: the disk and the directories created so far, and the error it
stops at. A directory that is there already is not an error; one whose parent is missing is. -/
def createDirs (o : Outside) (k : Disk) (created : List Dir) :
    List Dir → Disk × List Dir × Option String
  | [] => (k, created, none)
  | d :: dirs =>
    if k.present d then createDirs o k created dirs
    else if !d.parent.any k.dirs.contains then (k, created, some "No such file or directory")
    else
      match o.createFails d with
      | some e => (k, created, some e)
      | none => createDirs o (k.createDir d) (created ++ [d]) dirs

namespace ProjectMounts

variable (settings : MountSettings) (o : Outside) (w : ProjectMounts)

/-- `reindex`. -/
def reindex : ProjectMounts := { w with index := w.entries.map fun e ↦ (e.root, e.fs) }

/-- `covers`: whether a path is served from a node right now. -/
def covers (path : Dir) : Bool := w.index.any fun p ↦ p.1.isPrefixOf path

/-- `unmount_entry`. -/
def unmountEntry (path : Dir) : ProjectMounts :=
  match w.entries.find? fun e ↦ e.root == path with
  | none => w
  | some e =>
    let mounted := if o.unmount path then w.disk.mounted.erase path else w.disk.mounted
    let disk := { w.disk with mounted }
    reindex { w with
      entries := w.entries.filter fun e ↦ e.root != path
      disk := disk.removeDirs e.created }

/-- `leave_others`: every mount other than `keep` loses the user, those left unused go. -/
def leaveOthers (sessionId : String) (keep : Dir) : ProjectMounts :=
  let left := w.entries.filter fun e ↦
    e.root != keep && e.users.contains sessionId && (e.without sessionId).users.isEmpty
  left.foldl (fun w e ↦ w.unmountEntry o e.root)
    { w with entries := w.entries.map (Entry.leave sessionId keep) }

/-- The end of `prepare_mount_point`, with the missing directories: those it created. -/
def makeMountPoint (root : Dir) (dirs : List Dir) : ProjectMounts × Except MountError (List Dir) :=
  match createDirs o w.disk [] dirs with
  | (disk, created, none) => ({ w with disk }, .ok created)
  | (disk, created, some e) =>
    ({ w with disk := disk.removeDirs created }, .error (.mountPoint (.needsSetup root e)))

/-- `prepare_mount_point` after a stale mount was removed. -/
def prepareAgain (root : Dir) : ProjectMounts × Except MountError (List Dir) :=
  match o.inspectAgainFails with
  | some e => (w, .error (.mountPoint (.notADirectory [.normal e])))
  | none =>
    match inspect settings.allowShadow o.writable w.disk root with
    | .error e => (w, .error (.mountPoint e))
    | .ok .mounted => (w, .error (.mount root "something else is mounted there"))
    | .ok .ready => (w, .ok [])
    | .ok (.create dirs) => w.makeMountPoint o root dirs

/-- `prepare_mount_point`: the directories it created. -/
def prepareMountPoint (root : Dir) : ProjectMounts × Except MountError (List Dir) :=
  match o.inspectFails with
  | some e => (w, .error (.mountPoint (.notADirectory [.normal e])))
  | none =>
    match inspect settings.allowShadow o.writable w.disk root with
    | .error e => (w, .error (.mountPoint e))
    | .ok .ready => (w, .ok [])
    | .ok (.create dirs) => w.makeMountPoint o root dirs
    | .ok .mounted =>
      -- left over from a crashed run: we hold no entry for it
      match o.forceUnmount with
      | .error e => (w, .error (.mount root e))
      | .ok () =>
        let mounted := if o.forced then w.disk.mounted.erase root else w.disk.mounted
        prepareAgain settings o { w with disk := { w.disk with mounted } } root

/-- The node's say on the root: the directory must exist there. -/
def askNode (computer : Computer) (root : Dir) : Option MountError :=
  match o.connect with
  | .error e => some (.unreachable computer.name e)
  | .ok () =>
    match o.getattr with
    | .ok .dir => none
    | .ok _ => some (.notADirectory root computer.name)
    | .error .noEnt => some (.missingOnNode root computer.name)
    | .error .access | .error .perm => some (.forbidden root computer.name)
    | .error (.other e) => some (.unreachable computer.name e)

/-- `mounter.mount`: it can only succeed on a directory. -/
def mountAt (root : Dir) : Except String Disk :=
  if w.disk.dirs.contains root then
    match o.mount with
    | .ok () => .ok { w.disk with mounted := w.disk.mounted ++ [root] }
    | .error e => .error e
  else .error "not a directory"

/-- The new entry of `acquire`. -/
def insertEntry (sessionId : String) (computer : Computer) (root : Dir) (created : List Dir)
    (disk : Disk) : ProjectMounts :=
  let e : Entry := ⟨root, computer.id, computer.name, w.next, [sessionId], created, none⟩
  reindex { w with entries := w.entries ++ [e], disk, next := w.next + 1 }

/-- `acquire` from where no mount covers the root or lies under it. -/
def acquireNew (sessionId : String) (computer : Computer) (root : Dir) :
    ProjectMounts × Except MountError Unit :=
  let w := w.leaveOthers o sessionId root
  match askNode o computer root with
  | some e => (w, .error e)
  | none =>
    match w.prepareMountPoint settings o root with
    | (w, .error e) => (w, .error e)
    | (w, .ok created) =>
      match w.mountAt o root with
      | .ok disk => (w.insertEntry sessionId computer root created disk, .ok ())
      | .error e => ({ w with disk := w.disk.removeDirs created }, .error (.mount root e))

/-- `acquire`: make `path`, the session's cwd, on `computer` available here at the same path. -/
def acquire (sessionId : String) (computer : Computer) (path : Path String) :
    ProjectMounts × Except MountError Unit :=
  let root : Dir := path.components
  if !path.absolute then (w, .error (.notAbsolute root))
  else
    match w.entries.find? fun e ↦ e.covers root with
    | some e =>
      if e.computerId != computer.id then (w, .error (.conflict e.root e.computerName))
      else
        let w := { w with entries := w.entries.map (Entry.join sessionId e.root) }
        (w.leaveOthers o sessionId e.root, .ok ())
    | none =>
      match w.entries.find? fun e ↦ root.isPrefixOf e.root with
      | some e => (w, .error (.nested root e.root))
      | none => w.acquireNew settings o sessionId computer root

/-- `release`. -/
def release (sessionId : String) : ProjectMounts := w.leaveOthers o sessionId []

/-- An entry after the sweep looked at it, and whether it has expired. -/
def sweepEntry (isLive : String → Bool) (now : Instant) (e : Entry) : Entry × Bool :=
  if e.users.any isLive then ({ e with unusedSince := none }, false)
  else
    let since := e.unusedSince.getD now
    ({ e with unusedSince := some since }, decide (settings.idleGrace ≤ durationSince now since))

/-- `sweep`, with what `is_live` answers. -/
def sweep (isLive : String → Bool) (now : Instant) : ProjectMounts :=
  let swept := w.entries.map (sweepEntry settings isLive now)
  let expired := (swept.filter Prod.snd).map Prod.fst
  expired.foldl (fun w e ↦ w.unmountEntry o e.root) { w with entries := swept.map Prod.fst }

/-- `shutdown`. -/
def shutdown : ProjectMounts := w.entries.foldl (fun w e ↦ w.unmountEntry o e.root) w

end ProjectMounts

/-- What can happen. -/
inductive MountAction
  | acquire (o : Outside) (sessionId : String) (computer : Computer) (path : Path String)
  | release (o : Outside) (sessionId : String)
  | sweep (o : Outside) (isLive : String → Bool) (now : Instant)
  | shutdown (o : Outside)
  /-- The iteration order of the hash map changes. -/
  | rehash (entries : List Entry)
  /-- Somebody else changes the server's disk. -/
  | disk (disk : Disk)

/-- What a file system keeps: a directory around everything but the top, and a directory under every
mount. -/
structure Disk.Closed (k : Disk) : Prop where
  parent : ∀ d ∈ k.dirs ++ k.files, ∀ p ∈ d.parent, p ∈ k.dirs
  mounted : ∀ d ∈ k.mounted, d ∈ k.dirs
  nodup : k.dirs.Nodup

namespace ProjectMounts

/-- The table after an operation. -/
def step (settings : MountSettings) (w : ProjectMounts) : MountAction → ProjectMounts
  | .acquire o sessionId computer path => (w.acquire settings o sessionId computer path).1
  | .release o sessionId => w.release o sessionId
  | .sweep o isLive now => w.sweep settings o isLive now
  | .shutdown o => w.shutdown o
  | .rehash entries => { w with entries }
  | .disk disk => { w with disk }

/-- A hash map iterates over its entries in any order, and any disk is one. -/
def Enabled (w : ProjectMounts) : MountAction → Prop
  | .rehash entries => entries.Perm w.entries
  | .disk disk => disk.Closed
  | _ => True

/-- The runs of the table, from an empty one on any disk. -/
def system (settings : MountSettings) : StepSystem ProjectMounts MountAction where
  init w := w.entries = [] ∧ w.index = [] ∧ w.disk.Closed
  step w a w' := w.Enabled a ∧ w' = w.step settings a

end ProjectMounts

end Ember.Server.Computers
