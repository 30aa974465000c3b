/-
The state TableFS runs in: the metadata store, the data directory with the
descriptors the process has open on it, the two caches, the open handles, the
inode counter.

Durable effects (a LevelDB write, a change to the data directory) go through
`Store.commit` and `World.commit`, which apply the effect and append it to one
log in program order. The durable state is therefore the replay of the log, and
the states a crash can leave are the replays of its prefixes (`crashPoints`).
The log also records the calls of `fstree_lock` and the descriptors opened and
closed; these have no durable effect.

Two lists decide which calls fail: `dbFaults` for the writes of the
`LevelDBAdaptor`, `ioFaults` for the system calls on data files. When a list is
empty every further call succeeds. `shortIo` records that some `open`, `pread`,
`pwrite` or `truncate` of a data file came back short or failed.
-/
import Tablefs.Inode
import Tablefs.DentryCache
import Tablefs.Lib.SortedMap
import Tablefs.Lib.LruCache
import Mathlib.Data.PNat.Notation

set_option autoImplicit false

namespace Tablefs

open ByteString

/-! ## The durable state and its effects -/

/-- The path `%s/%d/%d` of an inode's disk file: subdirectory and file number. -/
abbrev BlobPath := ℤ × ℤ

/-- `GetDiskFilePath`: `(int) inode_id` keeps the low 32 bits as a signed number,
`>>` on it rounds down and `%` truncates. -/
def getDiskFilePath (inode_id : UInt64) : BlobPath :=
  let i := Int.bmod inode_id.toNat (2 ^ 32)
  (i / 16384, i.tmod 16384)

/-- The data directory. A file that lost its name lives on while it is open. -/
structure Disk where
  /-- the disk file under each path -/
  names : BlobPath → Option ℕ
  content : ℕ → Bytes
  nextFile : ℕ
  /-- subdirectories that have been made -/
  subdirs : ℤ → Bool
  /-- the number in `root.dat`, if the file is there -/
  rootDat : Option ℕ

/-- An operation of a `leveldb::WriteBatch`. -/
inductive BatchOp
  | put (key value : Bytes)
  | delete (key : Bytes)
  deriving DecidableEq, Repr

/-- A write to the metadata store. -/
inductive DbEffect
  | put (key value : Bytes)
  | delete (key : Bytes)
  | batch (ops : List BatchOp)
  deriving DecidableEq, Repr

/-- A change of the data directory. -/
inductive DiskEffect
  | create (path : BlobPath)
  | pwrite (file offset : ℕ) (data : Bytes)
  | truncate (file size : ℕ)
  | unlink (path : BlobPath)
  | mkdir (dir : ℤ)
  | writeRoot (n : ℕ)
  deriving DecidableEq, Repr

/-- The metadata store: LevelDB as a map ordered by key bytes. -/
abbrev MetaDb := SortedMap Bytes Bytes

/-- One operation of a batch. -/
def BatchOp.apply (db : MetaDb) : BatchOp → MetaDb
  | .put key value => db.put key value
  | .delete key => db.delete key

/-- The store after a write; a batch is atomic. -/
def DbEffect.apply (db : MetaDb) : DbEffect → MetaDb
  | .put key value => db.put key value
  | .delete key => db.delete key
  | .batch ops => ops.foldl BatchOp.apply db

/-- The data directory after a change. -/
def DiskEffect.apply (d : Disk) : DiskEffect → Disk
  | .create path =>
      { d with names := Function.update d.names path (some d.nextFile)
               content := Function.update d.content d.nextFile []
               nextFile := d.nextFile + 1 }
  | .pwrite file offset data =>
      { d with content := Function.update d.content file (overlay (d.content file) offset data) }
  | .truncate file size =>
      { d with content := Function.update d.content file (resize (d.content file) size) }
  | .unlink path => { d with names := Function.update d.names path none }
  | .mkdir dir => { d with subdirs := Function.update d.subdirs dir true }
  | .writeRoot n => { d with rootDat := some n }

/-- What the operations do in program order, as far as it can be seen from
outside the process. -/
inductive Event
  | db (e : DbEffect)
  | disk (e : DiskEffect)
  | readLock (key : MetaKey)
  | writeLock (key : MetaKey)
  | unlock (key : MetaKey)
  | openFd (fd : ℕ)
  | closeFd (fd : ℕ)
  deriving DecidableEq, Repr

/-- The writes to the metadata store in a log. -/
def dbEvents (log : List Event) : List DbEffect :=
  log.filterMap fun ev => match ev with
    | .db e => some e
    | _ => none

theorem dbEvents_append (log log' : List Event) :
    dbEvents (log ++ log') = dbEvents log ++ dbEvents log' := List.filterMap_append ..

@[simp] theorem dbEvents_db (e : DbEffect) : dbEvents [.db e] = [e] := rfl

/-- What survives a crash. -/
structure Durable where
  metadb : MetaDb
  disk : Disk

/-- The durable state after an event. -/
def Durable.apply (d : Durable) : Event → Durable
  | .db e => { d with metadb := e.apply d.metadb }
  | .disk e => { d with disk := e.apply d.disk }
  | _ => d

/-- The durable state after a log. -/
def Durable.replay (d : Durable) (log : List Event) : Durable := log.foldl Durable.apply d

/-- The durable states a crash during `log` can leave: before its first event
and after each of them. -/
def crashPoints (d : Durable) (log : List Event) : List Durable := log.scanl Durable.apply d

/-! ## The state -/

/-- `InodeAccessMode` -/
inductive InodeAccessMode
  | read
  | delete
  | write
  deriving DecidableEq, Repr, Inhabited

/-- `InodeCacheHandle`: `value_` and `mode_`. Its `key_` is the key of its cache
entry, and a pointer to it is the number of that entry. -/
structure InodeCacheHandle where
  value_ : Bytes
  mode_ : InodeAccessMode
  deriving DecidableEq, Repr, Inhabited

/-- The metadata store and the inode cache over it. -/
structure Store where
  metadb : MetaDb
  cache : LruCache MetaKey InodeCacheHandle
  /-- outcomes of the next store writes: `true` fails -/
  dbFaults : List Bool
  log : List Event

/-- The access mode of `open` flags. -/
inductive AccMode
  | rdOnly
  | wrOnly
  | rdWr
  deriving DecidableEq, Repr

/-- The `open` flags the code looks at or passes on: `O_ACCMODE` and `O_TRUNC`. -/
structure OpenFlags where
  acc : AccMode
  trunc : Bool
  deriving DecidableEq, Repr

/-- The flags `O_RDWR`. -/
def O_RDWR : OpenFlags := ⟨.rdWr, false⟩

/-- An open descriptor: the file it is on and what it was opened for. -/
structure OpenFile where
  file : ℕ
  acc : AccMode
  deriving DecidableEq, Repr

/-- The outcome of a system call on a data file. -/
inductive IoOutcome
  | ok
  | fail (errno : ℕ+)
  | short (count : ℕ)
  deriving DecidableEq, Repr

/-- The process's side of the data directory. No descriptor from `fdBound` on
is open. -/
structure Os where
  disk : Disk
  fds : ℕ → Option OpenFile
  fdBound : ℕ
  ioFaults : List IoOutcome
  shortIo : Bool
  errno : ℕ
  fds_above : ∀ n, fdBound ≤ n → fds n = none

/-- `tfs_file_handle_t` -/
structure FileHandle where
  handle_ : ℕ
  flags_ : OpenFlags
  fd_ : ℤ
  deriving DecidableEq, Repr

/-- What the operations take from their surroundings: the time, the caller of
`fuse_get_context`, the bytes freshly allocated memory holds, the value of an
uninitialised `int`. -/
structure Env where
  now : UInt64
  uid : UInt32
  gid : UInt32
  junk : ℕ → UInt8
  junkInt : ℤ

/-- The file system. `files` are the `tfs_file_handle_t` that `Open` handed out,
`dirs` the inode handles that `OpenDir` handed out. -/
structure World where
  store : Store
  dentry_cache : DentryCache
  os : Os
  files : ℕ → Option FileHandle
  nextFile : ℕ
  dirs : List ℕ
  max_inode_num : UInt64
  threshold_ : ℤ
  flag_fuse_enabled : Bool
  env : Env

/-- The state with another store. -/
def World.setStore (w : World) (s : Store) : World := { w with store := s }

/-- The state with another dentry cache. -/
def World.setDentry (w : World) (d : DentryCache) : World := { w with dentry_cache := d }

/-- The state with other open file handles. -/
def World.setFiles (w : World) (fs : ℕ → Option FileHandle) : World := { w with files := fs }

/-- The state with other open directory handles. -/
def World.setDirs (w : World) (ds : List ℕ) : World := { w with dirs := ds }

/-! ### The fields of a replaced state -/

namespace World

@[simp] theorem setStore_store (w : World) (s : Store) :
    (w.setStore s).store = s := rfl
@[simp] theorem setStore_dentry_cache (w : World) (s : Store) :
    (w.setStore s).dentry_cache = w.dentry_cache := rfl
@[simp] theorem setStore_os (w : World) (s : Store) :
    (w.setStore s).os = w.os := rfl
@[simp] theorem setStore_files (w : World) (s : Store) :
    (w.setStore s).files = w.files := rfl
@[simp] theorem setStore_nextFile (w : World) (s : Store) :
    (w.setStore s).nextFile = w.nextFile := rfl
@[simp] theorem setStore_dirs (w : World) (s : Store) :
    (w.setStore s).dirs = w.dirs := rfl
@[simp] theorem setStore_max_inode_num (w : World) (s : Store) :
    (w.setStore s).max_inode_num = w.max_inode_num := rfl
@[simp] theorem setStore_threshold_ (w : World) (s : Store) :
    (w.setStore s).threshold_ = w.threshold_ := rfl
@[simp] theorem setStore_env (w : World) (s : Store) :
    (w.setStore s).env = w.env := rfl

@[simp] theorem setDentry_store (w : World) (d : DentryCache) :
    (w.setDentry d).store = w.store := rfl
@[simp] theorem setDentry_dentry_cache (w : World) (d : DentryCache) :
    (w.setDentry d).dentry_cache = d := rfl
@[simp] theorem setDentry_os (w : World) (d : DentryCache) :
    (w.setDentry d).os = w.os := rfl
@[simp] theorem setDentry_files (w : World) (d : DentryCache) :
    (w.setDentry d).files = w.files := rfl
@[simp] theorem setDentry_nextFile (w : World) (d : DentryCache) :
    (w.setDentry d).nextFile = w.nextFile := rfl
@[simp] theorem setDentry_dirs (w : World) (d : DentryCache) :
    (w.setDentry d).dirs = w.dirs := rfl
@[simp] theorem setDentry_max_inode_num (w : World) (d : DentryCache) :
    (w.setDentry d).max_inode_num = w.max_inode_num := rfl
@[simp] theorem setDentry_threshold_ (w : World) (d : DentryCache) :
    (w.setDentry d).threshold_ = w.threshold_ := rfl
@[simp] theorem setDentry_env (w : World) (d : DentryCache) :
    (w.setDentry d).env = w.env := rfl

@[simp] theorem setFiles_store (w : World) (fs : ℕ → Option FileHandle) :
    (w.setFiles fs).store = w.store := rfl
@[simp] theorem setFiles_dentry_cache (w : World) (fs : ℕ → Option FileHandle) :
    (w.setFiles fs).dentry_cache = w.dentry_cache := rfl
@[simp] theorem setFiles_os (w : World) (fs : ℕ → Option FileHandle) :
    (w.setFiles fs).os = w.os := rfl
@[simp] theorem setFiles_files (w : World) (fs : ℕ → Option FileHandle) :
    (w.setFiles fs).files = fs := rfl
@[simp] theorem setFiles_nextFile (w : World) (fs : ℕ → Option FileHandle) :
    (w.setFiles fs).nextFile = w.nextFile := rfl
@[simp] theorem setFiles_dirs (w : World) (fs : ℕ → Option FileHandle) :
    (w.setFiles fs).dirs = w.dirs := rfl
@[simp] theorem setFiles_max_inode_num (w : World) (fs : ℕ → Option FileHandle) :
    (w.setFiles fs).max_inode_num = w.max_inode_num := rfl
@[simp] theorem setFiles_threshold_ (w : World) (fs : ℕ → Option FileHandle) :
    (w.setFiles fs).threshold_ = w.threshold_ := rfl
@[simp] theorem setFiles_env (w : World) (fs : ℕ → Option FileHandle) :
    (w.setFiles fs).env = w.env := rfl

@[simp] theorem setDirs_store (w : World) (ds : List ℕ) :
    (w.setDirs ds).store = w.store := rfl
@[simp] theorem setDirs_dentry_cache (w : World) (ds : List ℕ) :
    (w.setDirs ds).dentry_cache = w.dentry_cache := rfl
@[simp] theorem setDirs_os (w : World) (ds : List ℕ) :
    (w.setDirs ds).os = w.os := rfl
@[simp] theorem setDirs_files (w : World) (ds : List ℕ) :
    (w.setDirs ds).files = w.files := rfl
@[simp] theorem setDirs_nextFile (w : World) (ds : List ℕ) :
    (w.setDirs ds).nextFile = w.nextFile := rfl
@[simp] theorem setDirs_dirs (w : World) (ds : List ℕ) :
    (w.setDirs ds).dirs = ds := rfl
@[simp] theorem setDirs_max_inode_num (w : World) (ds : List ℕ) :
    (w.setDirs ds).max_inode_num = w.max_inode_num := rfl
@[simp] theorem setDirs_threshold_ (w : World) (ds : List ℕ) :
    (w.setDirs ds).threshold_ = w.threshold_ := rfl
@[simp] theorem setDirs_env (w : World) (ds : List ℕ) :
    (w.setDirs ds).env = w.env := rfl

end World

/-- The durable part of the state. -/
def World.durable (w : World) : Durable := ⟨w.store.metadb, w.os.disk⟩

/-! ## The metadata store: `LevelDBAdaptor` -/

/-- The bytes of `sync`. -/
def syncKey : Bytes := [115, 121, 110, 99]

namespace Store

/-- Carry out a write and log it. -/
def commit (s : Store) (e : DbEffect) : Store :=
  { s with metadb := e.apply s.metadb, log := s.log ++ [.db e] }

/-- A write that may fail: `-1` and no effect, or `0`. -/
def tryCommit (s : Store) (e : DbEffect) : Store × ℤ :=
  match s.dbFaults with
  | true :: fs => ({ s with dbFaults := fs }, -1)
  | false :: fs => ({ s with dbFaults := fs }.commit e, 0)
  | [] => (s.commit e, 0)

/-- `LevelDBAdaptor::Get`: the value, when the call returns 1. -/
def dbGet (s : Store) (key : MetaKey) : Option Bytes := s.metadb.get key.toSlice

/-- `LevelDBAdaptor::Put` -/
def dbPut (s : Store) (key : MetaKey) (value : Bytes) : Store × ℤ :=
  s.tryCommit (.put key.toSlice value)

/-- `LevelDBAdaptor::Delete`, which drops the status of the write. -/
def dbDelete (s : Store) (key : MetaKey) : Store := s.commit (.delete key.toSlice)

/-- `LevelDBAdaptor::Write` -/
def dbWrite (s : Store) (ops : List BatchOp) : Store × ℤ := s.tryCommit (.batch ops)

/-- `LevelDBAdaptor::Sync`: the store gets a record under the key `sync`. -/
def dbSync (s : Store) : Store × ℤ := s.tryCommit (.put syncKey [])

end Store

/-! ## The data directory: system calls -/

/-- `ENOENT` -/
def ENOENT : ℕ := 2
/-- `EBADF` -/
def EBADF : ℕ := 9
/-- `EINVAL` -/
def EINVAL : ℕ := 22

/-- The most bytes one `pread` or `pwrite` transfers on Linux. -/
def MAX_RW_COUNT : ℕ := 0x7ffff000

namespace World

/-- Carry out a change of the data directory and log it. -/
def commit (w : World) (e : DiskEffect) : World :=
  { w with os := { w.os with disk := e.apply w.os.disk }
           store := { w.store with log := w.store.log ++ [.disk e] } }

/-- Log an event without a durable effect. -/
def note (w : World) (e : Event) : World :=
  { w with store := { w.store with log := w.store.log ++ [e] } }

/-- `fstree_lock.ReadLock` -/
def readLock (w : World) (key : MetaKey) : World := w.note (.readLock key)

/-- `fstree_lock.WriteLock` -/
def writeLock (w : World) (key : MetaKey) : World := w.note (.writeLock key)

/-- `fstree_lock.Unlock` -/
def unlock (w : World) (key : MetaKey) : World := w.note (.unlock key)

/-- Set `errno`. -/
def setErrno (w : World) (e : ℕ) : World := { w with os := { w.os with errno := e } }

/-- A data-file call failed with the given `errno`. -/
def ioFail (w : World) (e : ℕ) : World :=
  { w with os := { w.os with errno := e, shortIo := true } }

/-- A data-file call transferred fewer bytes than it was asked to and could. -/
def ioShort (w : World) (isShort : Bool) : World :=
  { w with os := { w.os with shortIo := w.os.shortIo || isShort } }

/-- The outcome the surroundings have for the next system call. -/
def nextIo (w : World) : IoOutcome × World :=
  match w.os.ioFaults with
  | [] => (.ok, w)
  | o :: rest => (o, { w with os := { w.os with ioFaults := rest } })

/-- The lowest descriptor that is not open. -/
def lowestFd (w : World) : ℕ :=
  ((List.range w.os.fdBound).find? fun n => w.os.fds n = none).getD w.os.fdBound

/-- A new descriptor on `file`. -/
def openFd (w : World) (file : ℕ) (acc : AccMode) : World :=
  let fd := w.lowestFd
  { w with
      os := { w.os with
        fds := Function.update w.os.fds fd (some ⟨file, acc⟩)
        fdBound := max w.os.fdBound (fd + 1)
        fds_above := by
          intro n hn
          rw [Function.update_of_ne (by omega)]
          exact w.os.fds_above n (by omega) }
      store := { w.store with log := w.store.log ++ [.openFd fd] } }

/-- `open(path, flags)`, with `O_CREAT` as given. A file is created only in a
subdirectory that is there. -/
def sysOpen (w : World) (path : BlobPath) (flags : OpenFlags) (creat : Bool) : World × ℤ :=
  match w.nextIo with
  | (.fail e, w) => (w.ioFail e, -1)
  | (_, w) =>
      match w.os.disk.names path with
      | some file =>
          let w := if flags.trunc then w.commit (.truncate file 0) else w
          (w.openFd file flags.acc, w.lowestFd)
      | none =>
          if creat ∧ w.os.disk.subdirs path.1 = true then
            let file := w.os.disk.nextFile
            let w := w.commit (.create path)
            (w.openFd file flags.acc, w.lowestFd)
          else (w.ioFail ENOENT, -1)

/-- The open file behind a descriptor number. -/
def fdEntry (w : World) (fd : ℤ) : Option OpenFile :=
  if 0 ≤ fd then w.os.fds fd.toNat else none

/-- `close(fd)` -/
def sysClose (w : World) (fd : ℤ) : World × ℤ :=
  match w.fdEntry fd with
  | none => (w.setErrno EBADF, -1)
  | some _ =>
      ({ w with
          os := { w.os with
            fds := Function.update w.os.fds fd.toNat none
            fds_above := by
              intro n hn
              by_cases h : n = fd.toNat
              · rw [h, Function.update_self]
              · rw [Function.update_of_ne h]; exact w.os.fds_above n hn }
          store := { w.store with log := w.store.log ++ [.closeFd fd.toNat] } }, 0)

/-- How many of `size` bytes a transfer moves. -/
def transferred (o : IoOutcome) (size : ℕ) : ℕ :=
  match o with
  | .short n => min n (min size MAX_RW_COUNT)
  | _ => min size MAX_RW_COUNT

/-- `pread(fd, buf, size, offset)`: the return value and the bytes in `buf`. -/
def sysPread (w : World) (fd : ℤ) (size : ℕ) (offset : ℤ) : World × ℤ × Bytes :=
  match w.nextIo with
  | (.fail e, w) => (w.ioFail e, -1, [])
  | (o, w) =>
      match w.fdEntry fd with
      | none => (w.ioFail EBADF, -1, [])
      | some f =>
          if f.acc = .wrOnly then (w.ioFail EBADF, -1, [])
          else if offset < 0 then (w.ioFail EINVAL, -1, [])
          else
            let whole := slice (w.os.disk.content f.file) offset.toNat size
            let buf := whole.take (transferred o size)
            (w.ioShort (buf.length < whole.length), buf.length, buf)

/-- `pwrite(fd, buf, size, offset)` -/
def sysPwrite (w : World) (fd : ℤ) (buf : Bytes) (offset : ℤ) : World × ℤ :=
  match w.nextIo with
  | (.fail e, w) => (w.ioFail e, -1)
  | (o, w) =>
      match w.fdEntry fd with
      | none => (w.ioFail EBADF, -1)
      | some f =>
          if f.acc = .rdOnly then (w.ioFail EBADF, -1)
          else if offset < 0 then (w.ioFail EINVAL, -1)
          else
            let n := transferred o buf.length
            let w := if n = 0 then w else w.commit (.pwrite f.file offset.toNat (buf.take n))
            (w.ioShort (n < buf.length), n)

/-- `ftruncate(fd, size)` -/
def sysFtruncate (w : World) (fd : ℤ) (size : ℤ) : World × ℤ :=
  match w.nextIo with
  | (.fail e, w) => (w.ioFail e, -1)
  | (_, w) =>
      match w.fdEntry fd with
      | none => (w.ioFail EBADF, -1)
      | some f =>
          if f.acc = .rdOnly ∨ size < 0 then (w.ioFail EINVAL, -1)
          else (w.commit (.truncate f.file size.toNat), 0)

/-- `truncate(path, size)` -/
def sysTruncate (w : World) (path : BlobPath) (size : ℤ) : World × ℤ :=
  match w.nextIo with
  | (.fail e, w) => (w.ioFail e, -1)
  | (_, w) =>
      match w.os.disk.names path with
      | none => (w.ioFail ENOENT, -1)
      | some file =>
          if size < 0 then (w.ioFail EINVAL, -1)
          else (w.commit (.truncate file size.toNat), 0)

/-- `fsync(fd)` -/
def sysFsync (w : World) (fd : ℤ) : World × ℤ :=
  match w.nextIo with
  | (.fail e, w) => (w.setErrno e, -1)
  | (_, w) =>
      match w.fdEntry fd with
      | none => (w.setErrno EBADF, -1)
      | some _ => (w, 0)

/-- `unlink(path)` -/
def sysUnlink (w : World) (path : BlobPath) : World :=
  match w.os.disk.names path with
  | none => w.setErrno ENOENT
  | some _ => w.commit (.unlink path)

end World

end Tablefs
