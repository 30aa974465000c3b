/-
The operations on the name space of `tablefs.cpp`: the ones that create, remove,
rename and list records, and the ones that change a record's attributes.

`Chmod`, `Chown` and `UpdateTimens` do the same to the record they find but for
the fields they set, so they are one definition, `editAttribute`; `MakeNode` and
`MakeDir` are another, `makeInode`.
-/
import Tablefs.FileOps

set_option autoImplicit false

namespace Tablefs

open ByteString

/-! ## New records -/

/-- `S_IFMT` -/
def S_IFMT : UInt32 := 0xF000
/-- `S_IFREG` -/
def S_IFREG : UInt32 := 0x8000
/-- `S_IFDIR` -/
def S_IFDIR : UInt32 := 0x4000
/-- `S_IFLNK` -/
def S_IFLNK : UInt32 := 0xA000

/-- `S_ISREG` -/
def isReg (mode : UInt32) : Bool := mode &&& S_IFMT = S_IFREG

/-- `NUM_FILES_IN_DATADIR` -/
def NUM_FILES_IN_DATADIR : UInt64 := 16384

/-- The header and name of a new record, followed by the given bytes. -/
def inodeValue (header : InodeHeader) (filename rest : Bytes) : Bytes :=
  { header with has_blob := 0, namelen := .ofNat filename.length : InodeHeader }.bytes ++
    (filename ++ 0 :: rest)

namespace World

/-- `FileSystemState::NewInode` -/
def newInode (w : World) : World × UInt64 :=
  let w := { w with max_inode_num := w.max_inode_num + 1 }
  if w.max_inode_num % NUM_FILES_IN_DATADIR = 0 then
    (w.commit (.mkdir (getDiskFilePath w.max_inode_num).1), w.max_inode_num)
  else (w, w.max_inode_num)

/-- `InitStat`, on the `struct stat` that the memory happens to hold. -/
def initStat (w : World) (statbuf : Stat) (inode : UInt64) (mode : UInt32) (dev : UInt64) : Stat :=
  { statbuf with
    st_ino := inode
    st_mode := mode
    st_dev := dev
    st_gid := if w.flag_fuse_enabled then w.env.gid else 0
    st_uid := if w.flag_fuse_enabled then w.env.uid else 0
    st_size := 0
    st_blksize := 0
    st_blocks := 0
    st_nlink := if isReg mode then 1 else 2
    st_atim_sec := w.env.now
    st_ctim_sec := w.env.now
    st_mtim_sec := w.env.now }

/-- `InitInodeValue(inum, mode, dev, filename)`, with the bytes `Symlink` puts
behind the name; the padding and the nanoseconds are what `new char[]` left. -/
def initInodeValue (w : World) (inum : UInt64) (mode : UInt32) (dev : UInt64)
    (filename rest : Bytes) : Bytes :=
  let header := getInodeHeader (w.newBuffer TFS_INODE_HEADER_SIZE)
  inodeValue { header with fstat := w.initStat header.fstat inum mode dev } filename rest

/-! ## Creation -/

/-- `MakeNode` and `MakeDir`. -/
def makeInode (w : World) (path : Bytes) (mode : UInt32) (dev : UInt64) : World × ℤ :=
  match w.pathLookup path with
  | (w, none) => (w, w.fsError)
  | (w, some key) =>
      let n := w.newInode
      let value := n.1.initInodeValue n.2 mode dev (filenameOf path) []
      let w := n.1.writeLock key
      let p := w.store.dbPut key value
      let w := (w.setStore p.1).unlock key
      if p.2 = 0 then (w, 0) else (w.setErrno ENOENT, -ENOENT)

/-- `MakeNode` -/
def makeNode (w : World) (path : Bytes) (mode : UInt32) (dev : UInt64) : World × ℤ :=
  w.makeInode path (mode ||| S_IFREG) dev

/-- `MakeDir` -/
def makeDir (w : World) (path : Bytes) (mode : UInt32) : World × ℤ :=
  w.makeInode path (mode ||| S_IFDIR) 0

/-- `Symlink`. The status of the store's write is dropped. -/
def symlink (w : World) (target path : Bytes) : World × ℤ :=
  match w.pathLookup path with
  | (w, none) => (w, w.fsError)
  | (w, some key) =>
      let n := w.newInode
      let value := n.1.initInodeValue n.2 S_IFLNK 0 (filenameOf path) target
      let w := n.1.writeLock key
      let p := w.store.dbPut key value
      ((w.setStore p.1).unlock key, 0)

/-- `Readlink`: the return value and the bytes in front of the NUL in `buf`. -/
def readlink (w : World) (path : Bytes) (size : ℕ) : World × ℤ × Bytes :=
  match w.pathLookup path with
  | (w, none) => (w, w.fsError, [])
  | (w, some key) =>
      let w := w.readLock key
      match w.store.dbGet key with
      | some result =>
          (w.unlock key, 0, (getInlineData result 0 (sizeT ((size : ℤ) - 1))).2)
      | none => ((w.setErrno ENOENT).unlock key, -ENOENT, [])

/-! ## Removal -/

/-- `Unlink` -/
def unlink (w : World) (path : Bytes) : World × ℤ :=
  match w.pathLookup path with
  | (w, none) => (w, w.fsError)
  | (w, some key) =>
      match (w.writeLock key).cacheGet key .delete with
      | (w, some handle) =>
          let value := w.iheader handle
          let w :=
            if w.threshold_ < offT value.fstat.st_size then
              w.sysUnlink (getDiskFilePath value.fstat.st_ino)
            else w
          let w := w.setDentry (w.dentry_cache.evict key)
          (((w.cacheRelease handle).cacheEvict key).unlock key, 0)
      | (w, none) => (w.unlock key, -ENOENT)

/-- `RemoveDir` -/
def removeDir (w : World) (path : Bytes) : World × ℤ :=
  match w.pathLookup path with
  | (w, none) => (w, w.fsError)
  | (w, some key) =>
      match (w.writeLock key).cacheGet key .delete with
      | (w, some handle) =>
          let w := w.setDentry (w.dentry_cache.evict key)
          (((w.cacheRelease handle).cacheEvict key).unlock key, 0)
      | (w, none) => (w.unlock key, -ENOENT)

/-! ## Directories -/

/-- `OpenDir`: the return value and the new `fi->fh`, an inode handle. -/
def openDir (w : World) (path : Bytes) : World × ℤ × Option ℕ :=
  match w.pathLookup path with
  | (w, none) => (w, w.fsError, none)
  | (w, some key) =>
      match (w.readLock key).cacheGet key .read with
      | (w, some handle) => ((w.setDirs (handle :: w.dirs)).unlock key, 0, some handle)
      | (w, none) => (w.unlock key, w.fsError, none)

/-- `IsKeyInDir`; a key too short to hold an inode number is in no directory. -/
def isKeyInDir (key : Bytes) (dirkey : MetaKey) : Bool :=
  8 ≤ key.length ∧ leNat (key.take 8) = dirkey.inode_id.toNat

/-- The key `ReadDir` seeks to. -/
def childKey (inode : UInt64) : MetaKey := ⟨inode, if inode = ROOT_INODE_ID then 1 else 0⟩

/-- The loop of `ReadDir`: `filler` is called for the `n`-th time with each name in
turn until it refuses one. -/
def fillNames (filler : ℕ → Bool) : ℕ → List Bytes → List Bytes × ℤ
  | _, [] => ([], 0)
  | n, name :: names =>
      if filler n then
        let r := fillNames filler (n + 1) names
        (name :: r.1, r.2)
      else ([], -1)

/-- The entries of the metadata store that `ReadDir` passes over. -/
def dirEntries (w : World) (inode : UInt64) : List (Bytes × Bytes) :=
  (w.store.metadb.seek (childKey inode).toSlice).takeWhile fun e =>
    isKeyInDir e.1 (childKey inode)

/-- `ReadDir` on the handle of an open directory: the return value and the names
that the filler took. `filler n` says that its `n`-th call is not refused. -/
def readDir (w : World) (handle : ℕ) (filler : ℕ → Bool) : World × ℤ × List Bytes :=
  let inode := (getAttribute (w.store.value handle)).st_ino
  if filler 0 then
    if filler 1 then
      let r := fillNames filler 2 ((w.dirEntries inode).map fun e => nameOf e.2)
      (w, r.2, [46] :: [46, 46] :: r.1)
    else (w, w.fsError, [[46]])
  else (w, w.fsError, [])

/-- `ReleaseDir` -/
def releaseDir (w : World) (handle : ℕ) : World × ℤ :=
  if handle ∈ w.dirs then ((w.cacheRelease handle).setDirs (w.dirs.erase handle), 0)
  else (w, 0)

/-! ## Rename -/

/-- The handle operations of `Rename` on the old record's handle. -/
@[irreducible] def renameHandles (w : World) (old_handle : ℕ) (old_key new_key : MetaKey) (filename : Bytes) :
    World :=
  let new_value := renameInodeValue (w.store.value old_handle) filename
  let i := w.store.insert new_key new_value
  let s := i.1.batchCommit old_handle i.2
  w.setStore (((s.release i.2).release old_handle).evict old_key)

@[simp] theorem renameHandles_dentry_cache (w : World) (i : ℕ) (k k' : MetaKey) (n : Bytes) :
    (w.renameHandles i k k' n).dentry_cache = w.dentry_cache := by
  rw [renameHandles, setStore_dentry_cache]
@[simp] theorem renameHandles_files (w : World) (i : ℕ) (k k' : MetaKey) (n : Bytes) :
    (w.renameHandles i k k' n).files = w.files := by
  rw [renameHandles, setStore_files]
@[simp] theorem renameHandles_nextFile (w : World) (i : ℕ) (k k' : MetaKey) (n : Bytes) :
    (w.renameHandles i k k' n).nextFile = w.nextFile := by
  rw [renameHandles, setStore_nextFile]
@[simp] theorem renameHandles_dirs (w : World) (i : ℕ) (k k' : MetaKey) (n : Bytes) :
    (w.renameHandles i k k' n).dirs = w.dirs := by
  rw [renameHandles, setStore_dirs]
@[simp] theorem renameHandles_max_inode_num (w : World) (i : ℕ) (k k' : MetaKey) (n : Bytes) :
    (w.renameHandles i k k' n).max_inode_num = w.max_inode_num := by
  rw [renameHandles, setStore_max_inode_num]

/-- The order `Rename` locks its two keys in. -/
def lockOrder (old_key new_key : MetaKey) : MetaKey × MetaKey :=
  if new_key.inode_id < old_key.inode_id ∨
      old_key.inode_id = new_key.inode_id ∧ new_key.hash_id < old_key.hash_id then
    (old_key, new_key)
  else (new_key, old_key)

/-- `Rename` -/
def rename (w : World) (old_path new_path : Bytes) : World × ℤ :=
  match w.pathLookup old_path with
  | (w, none) => (w, w.fsError)
  | (w, some old_key) =>
      match w.pathLookup new_path with
      | (w, none) => (w, w.fsError)
      | (w, some new_key) =>
          let (large_key, small_key) := lockOrder old_key new_key
          match ((w.writeLock large_key).writeLock small_key).cacheGet old_key .delete with
          | (w, some old_handle) =>
              let w := w.renameHandles old_handle old_key new_key (filenameOf new_path)
              let w := w.setDentry ((w.dentry_cache.evict old_key).evict new_key)
              ((w.unlock small_key).unlock large_key, 0)
          | (w, none) => ((w.unlock small_key).unlock large_key, -ENOENT)

/-! ## Attributes -/

/-- `Access` -/
def access (w : World) (_path : Bytes) (_mask : ℤ) : World × ℤ := (w, 0)

/-- Change the attributes of the record under a path: `edit` says how, and
`unlocks` whether the lock is given back on success. -/
def editAttribute (w : World) (path : Bytes) (edit : Stat → Stat) (unlocks : Bool) : World × ℤ :=
  match w.pathLookup path with
  | (w, none) => (w, w.fsError)
  | (w, some key) =>
      match (w.writeLock key).cacheGet key .write with
      | (w, some handle) =>
          let value := w.store.value handle
          let w := w.setValue handle (updateAttribute value (edit (getAttribute value)))
          let w := (w.cacheWriteBack handle).cacheRelease handle
          (if unlocks then w.unlock key else w, 0)
      | (w, none) => (w.unlock key, -ENOENT)

/-- `UpdateTimens`, given the seconds of the two times. -/
def updateTimens (w : World) (path : Bytes) (atime mtime : UInt64) : World × ℤ :=
  w.editAttribute path (fun s => { s with st_atim_sec := atime, st_mtim_sec := mtime }) true

/-- `Chmod` -/
def chmod (w : World) (path : Bytes) (mode : UInt32) : World × ℤ :=
  w.editAttribute path (fun s => { s with st_mode := mode }) true

/-- `Chown`. On success it returns before it gives the lock back. -/
def chown (w : World) (path : Bytes) (uid gid : UInt32) : World × ℤ :=
  w.editAttribute path (fun s => { s with st_uid := uid, st_gid := gid }) false

end World

end Tablefs
