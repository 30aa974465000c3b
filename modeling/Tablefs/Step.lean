/-
Runs: the calls FUSE makes as one type, the step each of them takes, and
mounting, unmounting and crashing around them.

`step` is total. A run is a list of calls, and the state after it is the fold of
`step`; the answers come back as `Output`s.
-/
import Tablefs.NamespaceOps
import Tablefs.Lib.Run

set_option autoImplicit false

namespace Tablefs

open ByteString

/-! ## Calls -/

/-- A call of `TableFS`, an eviction the cache makes by itself, or a change of
the surroundings: of what `Env` holds, or of which calls will fail. -/
inductive Op
  | getAttr (path : Bytes)
  | openFile (path : Bytes) (flags : OpenFlags)
  | read (fh size : ℕ) (offset : ℤ)
  | write (fh : ℕ) (buf : Bytes) (offset : ℤ)
  | fsync (fh : ℕ) (datasync : Bool)
  | release (fh : ℕ)
  | truncate (path : Bytes) (new_size : ℤ)
  | readlink (path : Bytes) (size : ℕ)
  | symlink (target path : Bytes)
  | unlink (path : Bytes)
  | makeNode (path : Bytes) (mode : UInt32) (dev : UInt64)
  | makeDir (path : Bytes) (mode : UInt32)
  | openDir (path : Bytes)
  | readDir (handle : ℕ) (filler : ℕ → Bool)
  | releaseDir (handle : ℕ)
  | removeDir (path : Bytes)
  | rename (old_path new_path : Bytes)
  | access (path : Bytes) (mask : ℤ)
  | updateTimens (path : Bytes) (atime mtime : UInt64)
  | chmod (path : Bytes) (mode : UInt32)
  | chown (path : Bytes) (uid gid : UInt32)
  | evict (key : MetaKey)
  | setEnv (env : Env)
  | setFaults (dbFaults : List Bool) (ioFaults : List IoOutcome)

/-- What a call returns: its return value and whatever it stored through its
pointers. -/
structure Output where
  ret : ℤ
  data : Bytes := []
  stat : Option Stat := none
  fh : Option ℕ := none
  names : List Bytes := []
  deriving DecidableEq, Repr

namespace World

/-- The cache drops an entry nobody holds. -/
def evictUnpinned (w : World) (key : MetaKey) : World :=
  match w.store.cache.find key with
  | some i => if w.store.cache.pins i = 0 then w.cacheEvict key else w
  | none => w

/-- One call. -/
def step (w : World) : Op → World × Output
  | .getAttr path => let r := w.getAttr path; (r.1, { ret := r.2.1, stat := r.2.2 })
  | .openFile path flags =>
      let r := w.openFile path flags; (r.1, { ret := r.2.1, fh := r.2.2 })
  | .read fh size offset =>
      let r := w.read fh size offset; (r.1, { ret := r.2.1, data := r.2.2 })
  | .write fh buf offset => let r := w.write fh buf offset; (r.1, { ret := r.2 })
  | .fsync fh datasync => let r := w.fsync fh datasync; (r.1, { ret := r.2 })
  | .release fh => let r := w.release fh; (r.1, { ret := r.2 })
  | .truncate path new_size => let r := w.truncate path new_size; (r.1, { ret := r.2 })
  | .readlink path size =>
      let r := w.readlink path size; (r.1, { ret := r.2.1, data := r.2.2 })
  | .symlink target path => let r := w.symlink target path; (r.1, { ret := r.2 })
  | .unlink path => let r := w.unlink path; (r.1, { ret := r.2 })
  | .makeNode path mode dev => let r := w.makeNode path mode dev; (r.1, { ret := r.2 })
  | .makeDir path mode => let r := w.makeDir path mode; (r.1, { ret := r.2 })
  | .openDir path => let r := w.openDir path; (r.1, { ret := r.2.1, fh := r.2.2 })
  | .readDir handle filler =>
      let r := w.readDir handle filler; (r.1, { ret := r.2.1, names := r.2.2 })
  | .releaseDir handle => let r := w.releaseDir handle; (r.1, { ret := r.2 })
  | .removeDir path => let r := w.removeDir path; (r.1, { ret := r.2 })
  | .rename old_path new_path => let r := w.rename old_path new_path; (r.1, { ret := r.2 })
  | .access path mask => let r := w.access path mask; (r.1, { ret := r.2 })
  | .updateTimens path atime mtime =>
      let r := w.updateTimens path atime mtime; (r.1, { ret := r.2 })
  | .chmod path mode => let r := w.chmod path mode; (r.1, { ret := r.2 })
  | .chown path uid gid => let r := w.chown path uid gid; (r.1, { ret := r.2 })
  | .evict key => (w.evictUnpinned key, { ret := 0 })
  | .setEnv env => ({ w with env := env }, { ret := 0 })
  | .setFaults dbFaults ioFaults =>
      ({ w with
          store := { w.store with dbFaults := dbFaults }
          os := { w.os with ioFaults := ioFaults } }, { ret := 0 })

/-- The state one call leads to. -/
def next (w : World) (op : Op) : World := (w.step op).1

/-- The state after a run. -/
abbrev run (w : World) (ops : List Op) : World := Transition.run next w ops

/-- Every call of a run meets `C` in the state it is made in. -/
abbrev Meets (C : World → Op → Prop) (w : World) (ops : List Op) : Prop :=
  Transition.Meets next C w ops

/-- The answers of a run. -/
def outputs (w : World) : List Op → List Output
  | [] => []
  | op :: ops => (w.step op).2 :: outputs (w.step op).1 ops

end World

/-! ## Mounts -/

/-- What a mount is given: the configured threshold, whether FUSE is there, what
`lstat` says of `ROOT_INODE_STAT`, the surroundings. -/
structure MountConfig where
  threshold : ℤ
  fuse : Bool
  st_mode : UInt32
  st_dev : UInt64
  env : Env

/-- A process that has nothing open. -/
def Os.fresh (disk : Disk) : Os where
  disk := disk
  fds := fun _ => none
  fdBound := 0
  ioFaults := []
  shortIo := false
  errno := 0
  fds_above := fun _ _ => rfl

/-- `FileSystemState::Setup`: without a `root.dat` the counter starts at 0 and
the first subdirectory is made. `%u` reads and writes 32 bits. -/
def setup (d : Durable) (cfg : MountConfig) : World :=
  let w : World :=
    { store := ⟨d.metadb, LruCache.empty, [], []⟩
      dentry_cache := DentryCache.empty 16384
      os := Os.fresh d.disk
      files := fun _ => none
      nextFile := 0
      dirs := []
      max_inode_num := 0
      threshold_ := cfg.threshold
      flag_fuse_enabled := false
      env := cfg.env }
  match d.disk.rootDat with
  | none => (w.commit (.writeRoot 0)).commit (.mkdir 0)
  | some n => { w with max_inode_num := .ofNat (n % 2 ^ 32) }

namespace World

/-- `TableFS::Init`: with the counter at 0 (`IsEmpty`) the root's record is
stored. The caches start empty. -/
def init (w : World) (cfg : MountConfig) : World :=
  let w := { w with flag_fuse_enabled := cfg.fuse }
  if w.max_inode_num = 0 then
    w.setStore (w.store.dbPut rootKey
      (w.initInodeValue ROOT_INODE_ID cfg.st_mode cfg.st_dev [] [])).1
  else w

/-- The entries the destructor of the inode cache gives up, shard by shard. -/
def tableByShard (w : World) : List ℕ :=
  (List.range 16).flatMap fun s =>
    w.store.cache.lru.filter fun i =>
      w.store.cache.pins i = 0 ∧ (cacheShard (w.store.cache.key i)).toNat = s

/-- `TableFS::Destroy` past `monitor_destroy`, down to `FileSystemState::Destroy`:
the cache is deleted, and the counter written to `root.dat`. -/
def destroy (w : World) : World :=
  (w.setStore (w.store.cleanAll w.tableByShard)).commit
    (.writeRoot (w.max_inode_num.toNat % 2 ^ 32))

end World

/-- `Setup` and `Init`. -/
def mount (d : Durable) (cfg : MountConfig) : World := (setup d cfg).init cfg

/-- An empty disk and an empty store. -/
def Durable.empty : Durable where
  metadb := SortedMap.empty
  disk :=
    { names := fun _ => none
      content := fun _ => []
      nextFile := 0
      subdirs := fun _ => false
      rootDat := none }

/-- The machine: the file system mounted on what was durable at the time, or not
mounted. -/
inductive Machine
  | up (base : Durable) (w : World)
  | down (d : Durable)

/-- What happens to the machine. A crash keeps the durable effects of the current
mount up to some point of its log. -/
inductive MachineOp
  | mount (cfg : MountConfig)
  | call (op : Op)
  | destroy
  | crash (point : ℕ)

/-- One step of the machine. -/
def Machine.step : Machine → MachineOp → Machine
  | .down d, .mount cfg => .up d (Tablefs.mount d cfg)
  | .up base w, .call op => .up base (w.step op).1
  | .up _ w, .destroy => .down w.destroy.durable
  | .up base w, .crash point => .down (base.replay (w.store.log.take point))
  | m, _ => m

/-- The machine after a run. -/
abbrev Machine.run (m : Machine) (ops : List MachineOp) : Machine :=
  Transition.run Machine.step m ops

/-- Every step of a run meets `C` in the machine state it is taken in. -/
abbrev Machine.Meets (C : Machine → MachineOp → Prop) (m : Machine) (ops : List MachineOp) : Prop :=
  Transition.Meets Machine.step C m ops

end Tablefs
