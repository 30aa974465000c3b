/-
No operation looks at the log.

The log is there to be replayed after a crash; within a process it is only appended to. So
a state with a longer past answers every call alike and goes on alike
(`step_withPast`), and two states that differ in their pasts alone answer every run of
calls alike (`outputs_of_pasts`).
-/
import Tablefs.Step

set_option autoImplicit false

namespace Tablefs

open ByteString

/-! ## Stores -/

namespace Store

/-- The store with more behind it. -/
def withPast (s : Store) (evs : List Event) : Store := { s with log := evs ++ s.log }

variable (s : Store) (evs : List Event)

@[simp] theorem withPast_metadb : (s.withPast evs).metadb = s.metadb := rfl
@[simp] theorem withPast_cache : (s.withPast evs).cache = s.cache := rfl
@[simp] theorem withPast_dbFaults : (s.withPast evs).dbFaults = s.dbFaults := rfl
@[simp] theorem withPast_log : (s.withPast evs).log = evs ++ s.log := rfl
@[simp] theorem withPast_value (i : ℕ) : (s.withPast evs).value i = s.value i := rfl
@[simp] theorem withPast_mode (i : ℕ) : (s.withPast evs).mode i = s.mode i := rfl
@[simp] theorem withPast_keyOf (i : ℕ) : (s.withPast evs).keyOf i = s.keyOf i := rfl
@[simp] theorem withPast_dbGet (k : MetaKey) : (s.withPast evs).dbGet k = s.dbGet k := rfl

@[simp] theorem withPast_commit (e : DbEffect) :
    (s.withPast evs).commit e = (s.commit e).withPast evs := by
  simp only [commit, withPast, List.append_assoc]

@[simp] theorem withPast_setCache (c : LruCache MetaKey InodeCacheHandle) :
    { s.withPast evs with cache := c } = Store.withPast { s with cache := c } evs := rfl

@[simp] theorem withPast_setFaults (fs : List Bool) :
    { s.withPast evs with dbFaults := fs } = Store.withPast { s with dbFaults := fs } evs := rfl

@[simp] theorem withPast_setMode (i : ℕ) (m : InodeAccessMode) :
    (s.withPast evs).setMode i m = (s.setMode i m).withPast evs := rfl

@[simp] theorem withPast_setValue (i : ℕ) (v : Bytes) :
    (s.withPast evs).setValue i v = (s.setValue i v).withPast evs := rfl

@[simp] theorem withPast_tryCommit (e : DbEffect) :
    (s.withPast evs).tryCommit e = ((s.tryCommit e).1.withPast evs, (s.tryCommit e).2) := by
  unfold tryCommit
  rw [withPast_dbFaults]
  split
  · rfl
  · rw [withPast_setFaults, withPast_commit]
  · rw [withPast_commit]

@[simp] theorem withPast_dbPut (k : MetaKey) (v : Bytes) :
    (s.withPast evs).dbPut k v = ((s.dbPut k v).1.withPast evs, (s.dbPut k v).2) :=
  withPast_tryCommit s evs _

@[simp] theorem withPast_dbDelete (k : MetaKey) :
    (s.withPast evs).dbDelete k = (s.dbDelete k).withPast evs := withPast_commit s evs _

@[simp] theorem withPast_dbWrite (ops : List BatchOp) :
    (s.withPast evs).dbWrite ops = ((s.dbWrite ops).1.withPast evs, (s.dbWrite ops).2) :=
  withPast_tryCommit s evs _

@[simp] theorem withPast_dbSync :
    (s.withPast evs).dbSync = (s.dbSync.1.withPast evs, s.dbSync.2) := withPast_tryCommit s evs _

@[simp] theorem withPast_cleanInodeHandle (i : ℕ) :
    (s.withPast evs).cleanInodeHandle i = (s.cleanInodeHandle i).withPast evs := by
  unfold cleanInodeHandle
  rw [withPast_mode]
  split
  · simp only [withPast_keyOf, withPast_value, withPast_dbPut]
  · simp only [withPast_keyOf, withPast_dbDelete]
  · rfl

@[simp] theorem withPast_cleanAll (freed : List ℕ) :
    (s.withPast evs).cleanAll freed = (s.cleanAll freed).withPast evs := by
  induction freed generalizing s with
  | nil => rfl
  | cons i is ih => rw [cleanAll_cons, withPast_cleanInodeHandle, ih, ← cleanAll_cons]

@[simp] theorem withPast_insertHandle (k : MetaKey) (v : Bytes) (m : InodeAccessMode) :
    (s.withPast evs).insertHandle k v m
      = ((s.insertHandle k v m).1.withPast evs, (s.insertHandle k v m).2) := by
  simp only [insertHandle, withPast_cache, withPast_setCache, withPast_cleanAll]

@[simp] theorem withPast_insert (k : MetaKey) (v : Bytes) :
    (s.withPast evs).insert k v = ((s.insert k v).1.withPast evs, (s.insert k v).2) :=
  withPast_insertHandle s evs k v .write

@[simp] theorem withPast_get (k : MetaKey) (m : InodeAccessMode) :
    (s.withPast evs).get k m = ((s.get k m).1.withPast evs, (s.get k m).2) := by
  unfold get
  dsimp only [withPast_cache]
  split
  · rw [withPast_dbGet]
    split
    · rfl
    · rw [withPast_insertHandle]
  · split
    · rfl
    · rfl

@[simp] theorem withPast_release (i : ℕ) :
    (s.withPast evs).release i = (s.release i).withPast evs := by
  simp only [release, withPast_cache, withPast_setCache, withPast_cleanAll]

@[simp] theorem withPast_evict (k : MetaKey) :
    (s.withPast evs).evict k = (s.evict k).withPast evs := by
  simp only [evict, withPast_cache, withPast_setCache, withPast_cleanAll]

@[simp] theorem withPast_writeBack (i : ℕ) :
    (s.withPast evs).writeBack i = (s.writeBack i).withPast evs := by
  unfold writeBack
  rw [withPast_mode]
  split
  · simp only [withPast_keyOf, withPast_value, withPast_dbPut, withPast_setMode]
  · simp only [withPast_keyOf, withPast_dbDelete, withPast_evict]
  · rfl

@[simp] theorem withPast_batchOne (i : ℕ) :
    (s.withPast evs).batchOne i = ((s.batchOne i).1.withPast evs, (s.batchOne i).2) := by
  unfold batchOne
  rw [withPast_mode]
  split
  · simp only [withPast_keyOf, withPast_value, withPast_setMode]
  · simp only [withPast_keyOf, withPast_evict]
  · rfl

@[simp] theorem withPast_batchCommit (i j : ℕ) :
    (s.withPast evs).batchCommit i j = (s.batchCommit i j).withPast evs := by
  simp only [batchCommit, withPast_batchOne, withPast_dbWrite]

end Store

/-! ## States -/

namespace World

/-- The state with more behind it. -/
def withPast (w : World) (evs : List Event) : World := w.setStore (w.store.withPast evs)

variable (w : World) (evs : List Event)

@[simp] theorem withPast_store : (w.withPast evs).store = w.store.withPast evs := rfl
@[simp] theorem withPast_dentry_cache : (w.withPast evs).dentry_cache = w.dentry_cache := rfl
@[simp] theorem withPast_os : (w.withPast evs).os = w.os := rfl
@[simp] theorem withPast_files : (w.withPast evs).files = w.files := rfl
@[simp] theorem withPast_nextFile : (w.withPast evs).nextFile = w.nextFile := rfl
@[simp] theorem withPast_dirs : (w.withPast evs).dirs = w.dirs := rfl
@[simp] theorem withPast_threshold_ : (w.withPast evs).threshold_ = w.threshold_ := rfl
@[simp] theorem withPast_env : (w.withPast evs).env = w.env := rfl
@[simp] theorem withPast_max_inode_num : (w.withPast evs).max_inode_num = w.max_inode_num := rfl
@[simp] theorem withPast_fsError : (w.withPast evs).fsError = w.fsError := rfl
@[simp] theorem withPast_iheader (i : ℕ) : (w.withPast evs).iheader i = w.iheader i := rfl
@[simp] theorem withPast_newBuffer (n : ℕ) : (w.withPast evs).newBuffer n = w.newBuffer n := rfl
@[simp] theorem withPast_fdEntry (fd : ℤ) : (w.withPast evs).fdEntry fd = w.fdEntry fd := rfl
@[simp] theorem withPast_lowestFd : (w.withPast evs).lowestFd = w.lowestFd := rfl

@[simp] theorem withPast_setStore (s : Store) :
    (w.withPast evs).setStore (s.withPast evs) = (w.setStore s).withPast evs := rfl
@[simp] theorem withPast_setDentry (d : DentryCache) :
    (w.withPast evs).setDentry d = (w.setDentry d).withPast evs := rfl
@[simp] theorem withPast_setFiles (fs : ℕ → Option FileHandle) :
    (w.withPast evs).setFiles fs = (w.setFiles fs).withPast evs := rfl
@[simp] theorem withPast_setDirs (ds : List ℕ) :
    (w.withPast evs).setDirs ds = (w.setDirs ds).withPast evs := rfl
@[simp] theorem withPast_addFile (f : FileHandle) :
    (w.withPast evs).addFile f = (w.addFile f).withPast evs := rfl
@[simp] theorem withPast_setFd (fh : ℕ) (f : FileHandle) (fd : ℤ) :
    (w.withPast evs).setFd fh f fd = (w.setFd fh f fd).withPast evs := rfl
@[simp] theorem withPast_deleteFile (fh : ℕ) :
    (w.withPast evs).deleteFile fh = (w.deleteFile fh).withPast evs := rfl
@[simp] theorem withPast_setErrno (e : ℕ) :
    (w.withPast evs).setErrno e = (w.setErrno e).withPast evs := rfl
@[simp] theorem withPast_ioFail (e : ℕ) :
    (w.withPast evs).ioFail e = (w.ioFail e).withPast evs := rfl
@[simp] theorem withPast_ioShort (b : Bool) :
    (w.withPast evs).ioShort b = (w.ioShort b).withPast evs := rfl

@[simp] theorem withPast_commit (e : DiskEffect) :
    (w.withPast evs).commit e = (w.commit e).withPast evs := by
  simp only [commit, withPast, setStore, Store.withPast, List.append_assoc]

@[simp] theorem withPast_note (e : Event) :
    (w.withPast evs).note e = (w.note e).withPast evs := by
  simp only [note, withPast, setStore, Store.withPast, List.append_assoc]

@[simp] theorem withPast_readLock (k : MetaKey) :
    (w.withPast evs).readLock k = (w.readLock k).withPast evs := withPast_note w evs _
@[simp] theorem withPast_writeLock (k : MetaKey) :
    (w.withPast evs).writeLock k = (w.writeLock k).withPast evs := withPast_note w evs _
@[simp] theorem withPast_unlock (k : MetaKey) :
    (w.withPast evs).unlock k = (w.unlock k).withPast evs := withPast_note w evs _

@[simp] theorem withPast_openFd (file : ℕ) (acc : AccMode) :
    (w.withPast evs).openFd file acc = (w.openFd file acc).withPast evs := by
  simp only [openFd, withPast, setStore, Store.withPast, List.append_assoc]
  rfl

/-! ### System calls -/

@[simp] theorem withPast_nextIo :
    (w.withPast evs).nextIo = (w.nextIo.1, w.nextIo.2.withPast evs) := by
  unfold nextIo
  rw [withPast_os]
  split
  · rfl
  · rfl

@[simp] theorem withPast_sysOpen (path : BlobPath) (flags : OpenFlags) (creat : Bool) :
    (w.withPast evs).sysOpen path flags creat
      = ((w.sysOpen path flags creat).1.withPast evs, (w.sysOpen path flags creat).2) := by
  unfold sysOpen
  rw [withPast_nextIo]
  rcases w.nextIo with ⟨o, w₁⟩
  cases o with
  | fail e => rfl
  | _ =>
      dsimp only
      rw [withPast_os]
      split
      · split
        · simp only [withPast_commit, withPast_openFd, withPast_lowestFd]
        · simp only [withPast_openFd, withPast_lowestFd]
      · split
        · simp only [withPast_commit, withPast_openFd, withPast_lowestFd]
        · rfl

@[simp] theorem withPast_sysClose (fd : ℤ) :
    (w.withPast evs).sysClose fd = ((w.sysClose fd).1.withPast evs, (w.sysClose fd).2) := by
  unfold sysClose
  rw [withPast_fdEntry]
  split
  · rfl
  · simp only [withPast, setStore, Store.withPast, List.append_assoc]

@[simp] theorem withPast_sysPread (fd : ℤ) (size : ℕ) (offset : ℤ) :
    (w.withPast evs).sysPread fd size offset
      = ((w.sysPread fd size offset).1.withPast evs, (w.sysPread fd size offset).2) := by
  unfold sysPread
  rw [withPast_nextIo]
  rcases w.nextIo with ⟨o, w₁⟩
  cases o with
  | fail e => rfl
  | _ =>
      dsimp only
      rw [withPast_fdEntry]
      split
      · rfl
      · split
        · rfl
        · split <;> rfl

@[simp] theorem withPast_sysPwrite (fd : ℤ) (buf : Bytes) (offset : ℤ) :
    (w.withPast evs).sysPwrite fd buf offset
      = ((w.sysPwrite fd buf offset).1.withPast evs, (w.sysPwrite fd buf offset).2) := by
  unfold sysPwrite
  rw [withPast_nextIo]
  rcases w.nextIo with ⟨o, w₁⟩
  cases o with
  | fail e => rfl
  | _ =>
      dsimp only
      rw [withPast_fdEntry]
      split
      · rfl
      · split
        · rfl
        · split
          · rfl
          · split
            · rfl
            · simp only [withPast_commit, withPast_ioShort]

@[simp] theorem withPast_sysFtruncate (fd size : ℤ) :
    (w.withPast evs).sysFtruncate fd size
      = ((w.sysFtruncate fd size).1.withPast evs, (w.sysFtruncate fd size).2) := by
  unfold sysFtruncate
  rw [withPast_nextIo]
  rcases w.nextIo with ⟨o, w₁⟩
  cases o with
  | fail e => rfl
  | _ =>
      dsimp only
      rw [withPast_fdEntry]
      split
      · rfl
      · split
        · rfl
        · rw [withPast_commit]

@[simp] theorem withPast_sysTruncate (path : BlobPath) (size : ℤ) :
    (w.withPast evs).sysTruncate path size
      = ((w.sysTruncate path size).1.withPast evs, (w.sysTruncate path size).2) := by
  unfold sysTruncate
  rw [withPast_nextIo]
  rcases w.nextIo with ⟨o, w₁⟩
  cases o with
  | fail e => rfl
  | _ =>
      dsimp only
      rw [withPast_os]
      split
      · rfl
      · split
        · rfl
        · rw [withPast_commit]

@[simp] theorem withPast_sysFsync (fd : ℤ) :
    (w.withPast evs).sysFsync fd = ((w.sysFsync fd).1.withPast evs, (w.sysFsync fd).2) := by
  unfold sysFsync
  rw [withPast_nextIo]
  rcases w.nextIo with ⟨o, w₁⟩
  cases o with
  | fail e => rfl
  | _ =>
      dsimp only
      rw [withPast_fdEntry]
      split <;> rfl

@[simp] theorem withPast_sysUnlink (path : BlobPath) :
    (w.withPast evs).sysUnlink path = (w.sysUnlink path).withPast evs := by
  unfold sysUnlink
  rw [withPast_os]
  split
  · rfl
  · rw [withPast_commit]

/-! ### Lookups and handles -/

@[simp] theorem withPast_findEntry (key : MetaKey) :
    (w.withPast evs).findEntry key
      = ((w.findEntry key).1.withPast evs, (w.findEntry key).2) := by
  unfold findEntry
  dsimp only [withPast_dentry_cache]
  split
  · rfl
  · rw [withPast_setDentry, withPast_readLock, withPast_store, Store.withPast_dbGet]
    split
    · simp only [withPast_dentry_cache, withPast_setDentry, withPast_unlock]
    · simp only [withPast_setErrno, withPast_unlock]

@[simp] theorem withPast_walk (key : MetaKey) (inode : UInt64) (items : List Bytes) :
    (w.withPast evs).walk key inode items
      = ((w.walk key inode items).1.withPast evs, (w.walk key inode items).2) := by
  induction items generalizing w key inode with
  | nil => rfl
  | cons item items ih =>
      rw [walk, walk, withPast_findEntry]
      rcases w.findEntry (buildMetaKey item inode) with ⟨w₁, _ | i⟩
      · rfl
      · exact ih w₁ _ _

@[simp] theorem withPast_pathLookup (path : Bytes) :
    (w.withPast evs).pathLookup path
      = ((w.pathLookup path).1.withPast evs, (w.pathLookup path).2) := by
  unfold pathLookup parentPathLookup
  rw [withPast_walk]
  rcases w.walk rootKey ROOT_INODE_ID (components path).dropLast with ⟨w₁, _ | p⟩
  · rfl
  · rfl

@[simp] theorem withPast_cacheGet (key : MetaKey) (m : InodeAccessMode) :
    (w.withPast evs).cacheGet key m
      = ((w.cacheGet key m).1.withPast evs, (w.cacheGet key m).2) := by
  simp only [cacheGet, withPast_store, Store.withPast_get, withPast_setStore]

@[simp] theorem withPast_setValue (i : ℕ) (v : Bytes) :
    (w.withPast evs).setValue i v = (w.setValue i v).withPast evs := rfl
@[simp] theorem withPast_setMode (i : ℕ) (m : InodeAccessMode) :
    (w.withPast evs).setMode i m = (w.setMode i m).withPast evs := rfl
@[simp] theorem withPast_setHeader (i : ℕ) (h : InodeHeader) :
    (w.withPast evs).setHeader i h = (w.setHeader i h).withPast evs := rfl

@[simp] theorem withPast_cacheRelease (i : ℕ) :
    (w.withPast evs).cacheRelease i = (w.cacheRelease i).withPast evs := by
  simp only [cacheRelease, withPast_store, Store.withPast_release, withPast_setStore]

@[simp] theorem withPast_cacheWriteBack (i : ℕ) :
    (w.withPast evs).cacheWriteBack i = (w.cacheWriteBack i).withPast evs := by
  simp only [cacheWriteBack, withPast_store, Store.withPast_writeBack, withPast_setStore]

@[simp] theorem withPast_cacheEvict (key : MetaKey) :
    (w.withPast evs).cacheEvict key = (w.cacheEvict key).withPast evs := by
  simp only [cacheEvict, withPast_store, Store.withPast_evict, withPast_setStore]

@[simp] theorem withPast_openDiskFile (h : InodeHeader) (flags : OpenFlags) :
    (w.withPast evs).openDiskFile h flags
      = ((w.openDiskFile h flags).1.withPast evs, (w.openDiskFile h flags).2) :=
  withPast_sysOpen w evs _ flags true

@[simp] theorem withPast_truncateDiskFile (inode_id : UInt64) (n : ℤ) :
    (w.withPast evs).truncateDiskFile inode_id n
      = ((w.truncateDiskFile inode_id n).1.withPast evs, (w.truncateDiskFile inode_id n).2) :=
  withPast_sysTruncate w evs _ n

@[simp] theorem withPast_migrateDiskFileToBuffer (inode_id : UInt64) (buffer : Bytes) :
    (w.withPast evs).migrateDiskFileToBuffer inode_id buffer
      = ((w.migrateDiskFileToBuffer inode_id buffer).1.withPast evs,
        (w.migrateDiskFileToBuffer inode_id buffer).2) := by
  simp only [migrateDiskFileToBuffer, withPast_sysOpen, withPast_sysPread, withPast_sysClose,
    withPast_sysUnlink]

@[simp] theorem withPast_migrateToDiskFile (i : ℕ) (fd : ℤ) (flags : OpenFlags) :
    (w.withPast evs).migrateToDiskFile i fd flags
      = ((w.migrateToDiskFile i fd flags).1.withPast evs, (w.migrateToDiskFile i fd flags).2) := by
  unfold migrateToDiskFile
  have hclose : (if 0 ≤ fd then ((w.withPast evs).sysClose fd).1 else w.withPast evs)
      = (if 0 ≤ fd then (w.sysClose fd).1 else w).withPast evs := by
    split
    · rw [withPast_sysClose]
    · rfl
  dsimp only
  rw [hclose, withPast_iheader, withPast_openDiskFile]
  generalize (if 0 ≤ fd then (w.sysClose fd).1 else w).openDiskFile (w.iheader i) flags = o
  dsimp only
  split
  · rfl
  · split
    · rw [withPast_store, Store.withPast_value, withPast_sysPwrite]
      rfl
    · rfl

/-! ### Operations on files -/

theorem withPast_getAttr (path : Bytes) :
    (w.withPast evs).getAttr path = ((w.getAttr path).1.withPast evs, (w.getAttr path).2) := by
  unfold getAttr
  rw [withPast_pathLookup]
  rcases w.pathLookup path with ⟨w₁, _ | key⟩
  · rfl
  · dsimp only
    rw [withPast_readLock, withPast_cacheGet]
    rcases (w₁.readLock key).cacheGet key .read with ⟨w₂, _ | i⟩
    · simp only [withPast_unlock]
    · simp only [withPast_cacheRelease, withPast_unlock, withPast_store, Store.withPast_value]

theorem withPast_openFile (path : Bytes) (flags : OpenFlags) :
    (w.withPast evs).openFile path flags
      = ((w.openFile path flags).1.withPast evs, (w.openFile path flags).2) := by
  unfold openFile
  rw [withPast_pathLookup]
  rcases w.pathLookup path with ⟨w₁, _ | key⟩
  · rfl
  · dsimp only
    rw [withPast_writeLock, withPast_cacheGet]
    rcases (w₁.writeLock key).cacheGet key (openMode flags) with ⟨w₂, _ | i⟩
    · simp only [withPast_unlock]
    · dsimp only
      rw [withPast_iheader, withPast_openDiskFile]
      split
      · split
        · simp only [withPast_cacheRelease, withPast_unlock, withPast_fsError]
        · simp only [withPast_addFile, withPast_unlock, withPast_nextFile]
      · simp only [withPast_addFile, withPast_unlock, withPast_nextFile]

@[simp] theorem withPast_ensureFd (fh : ℕ) (f : FileHandle) (h : InodeHeader) :
    (w.withPast evs).ensureFd fh f h
      = ((w.ensureFd fh f h).1.withPast evs, (w.ensureFd fh f h).2) := by
  unfold ensureFd
  split
  · simp only [withPast_openDiskFile, withPast_setFd]
  · rfl

theorem withPast_read (fh size : ℕ) (offset : ℤ) :
    (w.withPast evs).read fh size offset
      = ((w.read fh size offset).1.withPast evs, (w.read fh size offset).2) := by
  unfold read
  rw [withPast_files]
  split
  · rfl
  · dsimp only
    rw [withPast_store, Store.withPast_keyOf, withPast_readLock, withPast_iheader,
      withPast_ensureFd]
    split
    · split
      · simp only [withPast_unlock]
      · simp only [withPast_sysPread, withPast_unlock]
    · simp only [withPast_unlock, withPast_store, Store.withPast_value]

@[simp] theorem withPast_writeBlob (fh : ℕ) (f : FileHandle) (h : InodeHeader) (buf : Bytes)
    (offset : ℤ) :
    (w.withPast evs).writeBlob fh f h buf offset
      = ((w.writeBlob fh f h buf offset).1.withPast evs, (w.writeBlob fh f h buf offset).2) := by
  unfold writeBlob
  rw [withPast_ensureFd]
  dsimp only
  split
  · rfl
  · rw [withPast_sysPwrite]

@[simp] theorem withPast_writeMigrate (fh : ℕ) (f : FileHandle) (buf : Bytes) (offset : ℤ)
    (total : ℕ) :
    (w.withPast evs).writeMigrate fh f buf offset total
      = ((w.writeMigrate fh f buf offset total).1.withPast evs,
        (w.writeMigrate fh f buf offset total).2) := by
  unfold writeMigrate
  rw [withPast_migrateToDiskFile]
  dsimp only
  rw [withPast_setFd]
  split
  · rw [withPast_iheader, withPast_setHeader, withPast_sysPwrite]
  · rfl

@[simp] theorem withPast_writeData (fh : ℕ) (f : FileHandle) (buf : Bytes) (offset : ℤ)
    (total : ℕ) :
    (w.withPast evs).writeData fh f buf offset total
      = ((w.writeData fh f buf offset total).1.withPast evs,
        (w.writeData fh f buf offset total).2) := by
  unfold writeData
  rw [withPast_iheader, withPast_threshold_]
  dsimp only
  split
  · rw [withPast_writeBlob]
  · split
    · rw [withPast_writeMigrate]
    · rfl

theorem withPast_write (fh : ℕ) (buf : Bytes) (offset : ℤ) :
    (w.withPast evs).write fh buf offset
      = ((w.write fh buf offset).1.withPast evs, (w.write fh buf offset).2) := by
  unfold write
  rw [withPast_files]
  split
  · rfl
  · dsimp only
    rw [withPast_setMode, withPast_store, Store.withPast_keyOf, withPast_readLock,
      withPast_iheader, withPast_writeData]
    dsimp only
    split
    · rw [withPast_iheader, withPast_setHeader, withPast_unlock]
    · rw [withPast_unlock]

theorem withPast_fsync (fh : ℕ) (datasync : Bool) :
    (w.withPast evs).fsync fh datasync
      = ((w.fsync fh datasync).1.withPast evs, (w.fsync fh datasync).2) := by
  unfold fsync
  rw [withPast_files]
  split
  · rfl
  · rename_i f _
    dsimp only
    rw [withPast_store, Store.withPast_keyOf, withPast_writeLock, withPast_store,
      Store.withPast_mode]
    split
    · have hr : (if 0 < ((w.writeLock (w.store.keyOf f.handle_)).withPast evs |>.iheader
          f.handle_).has_blob then ((w.writeLock (w.store.keyOf f.handle_)).withPast
            evs).sysFsync f.fd_ else ((w.writeLock (w.store.keyOf f.handle_)).withPast evs, 0))
          = ((if 0 < ((w.writeLock (w.store.keyOf f.handle_)).iheader f.handle_).has_blob then
              (w.writeLock (w.store.keyOf f.handle_)).sysFsync f.fd_
            else (w.writeLock (w.store.keyOf f.handle_), 0)).1.withPast evs,
            (if 0 < ((w.writeLock (w.store.keyOf f.handle_)).iheader f.handle_).has_blob then
              (w.writeLock (w.store.keyOf f.handle_)).sysFsync f.fd_
            else (w.writeLock (w.store.keyOf f.handle_), 0)).2) := by
        rw [withPast_iheader]
        split
        · rw [withPast_sysFsync]
        · rfl
      rw [hr]
      split
      · simp only [withPast_unlock]
      · simp only [withPast_store, Store.withPast_dbSync, withPast_setStore, withPast_unlock]
    · simp only [withPast_unlock]

theorem withPast_release (fh : ℕ) :
    (w.withPast evs).release fh = ((w.release fh).1.withPast evs, (w.release fh).2) := by
  unfold release
  rw [withPast_files]
  split
  · rfl
  · rename_i f _
    -- the times, and the descriptor
    have htimes : ∀ w : World, (if (w.withPast evs).store.mode f.handle_ = .write then
          (w.withPast evs).setValue f.handle_ (updateAttribute ((w.withPast evs).store.value
            f.handle_) { getAttribute ((w.withPast evs).store.value f.handle_) with
              st_atim_sec := (w.withPast evs).env.now, st_mtim_sec := (w.withPast evs).env.now })
        else w.withPast evs)
        = (if w.store.mode f.handle_ = .write then
            w.setValue f.handle_ (updateAttribute (w.store.value f.handle_)
              { getAttribute (w.store.value f.handle_) with
                st_atim_sec := w.env.now, st_mtim_sec := w.env.now })
          else w).withPast evs := by
      intro w
      rw [withPast_store, Store.withPast_mode]
      split
      · rfl
      · rfl
    have hclose : ∀ w : World, (if f.fd_ ≠ -1 then (w.withPast evs).sysClose f.fd_
        else (w.withPast evs, 0))
        = ((if f.fd_ ≠ -1 then w.sysClose f.fd_ else (w, 0)).1.withPast evs,
          (if f.fd_ ≠ -1 then w.sysClose f.fd_ else (w, 0)).2) := by
      intro w
      split
      · rw [withPast_sysClose]
      · rfl
    dsimp only
    rw [withPast_store, Store.withPast_keyOf, withPast_writeLock, htimes, hclose]
    simp only [withPast_cacheWriteBack, withPast_cacheRelease, withPast_cacheEvict,
      withPast_deleteFile, withPast_unlock, withPast_fsError]

@[simp] theorem withPast_truncateMigrate (i : ℕ) (n : ℤ) :
    (w.withPast evs).truncateMigrate i n
      = ((w.truncateMigrate i n).1.withPast evs, (w.truncateMigrate i n).2) := by
  unfold truncateMigrate
  rw [withPast_env, withPast_migrateToDiskFile]
  dsimp only
  split
  · rw [withPast_sysFtruncate]
    dsimp only
    split
    · rw [withPast_sysFsync, withPast_sysClose]
    · rw [withPast_sysClose]
  · rfl

@[simp] theorem withPast_truncateData (i : ℕ) (n : ℤ) :
    (w.withPast evs).truncateData i n
      = ((w.truncateData i n).1.withPast evs, (w.truncateData i n).2) := by
  unfold truncateData
  rw [withPast_iheader, withPast_threshold_]
  dsimp only
  split
  · split
    · rw [withPast_truncateDiskFile]
    · rw [withPast_newBuffer, withPast_migrateDiskFileToBuffer]
      rfl
  · split
    · rw [withPast_truncateMigrate]
    · rfl

theorem withPast_truncate (path : Bytes) (n : ℤ) :
    (w.withPast evs).truncate path n
      = ((w.truncate path n).1.withPast evs, (w.truncate path n).2) := by
  unfold truncate
  rw [withPast_pathLookup]
  rcases w.pathLookup path with ⟨w₁, _ | key⟩
  · rfl
  · dsimp only
    rw [withPast_cacheGet]
    rcases w₁.cacheGet key .write with ⟨w₂, _ | i⟩
    · simp only [withPast_writeLock, withPast_unlock]
    · dsimp only
      rw [withPast_writeLock, withPast_iheader, withPast_truncateData]
      dsimp only
      split
      · rw [withPast_iheader, withPast_threshold_, withPast_setHeader, withPast_cacheWriteBack,
          withPast_cacheRelease, withPast_unlock]
      · rw [withPast_cacheWriteBack, withPast_cacheRelease, withPast_unlock]

/-! ### Operations on the name space -/

/-- The inode number that the next record gets. -/
private theorem bumped_withPast (n : UInt64) :
    { w.withPast evs with max_inode_num := n }
      = World.withPast { w with max_inode_num := n } evs := rfl

@[simp] theorem withPast_newInode :
    (w.withPast evs).newInode = (w.newInode.1.withPast evs, w.newInode.2) := by
  have hfst : ∀ n, ({ w.withPast evs with max_inode_num := n }).commit
        (.mkdir (getDiskFilePath n).1)
      = ({ w with max_inode_num := n }.commit (.mkdir (getDiskFilePath n).1)).withPast evs := by
    intro n
    rw [bumped_withPast, withPast_commit]
  unfold newInode
  dsimp only [withPast_max_inode_num]
  split
  · exact congrArg (·, _) (hfst _)
  · rfl

@[simp] theorem withPast_initInodeValue (inum : UInt64) (mode : UInt32) (dev : UInt64)
    (filename rest : Bytes) :
    (w.withPast evs).initInodeValue inum mode dev filename rest
      = w.initInodeValue inum mode dev filename rest := rfl

theorem withPast_makeInode (path : Bytes) (mode : UInt32) (dev : UInt64) :
    (w.withPast evs).makeInode path mode dev
      = ((w.makeInode path mode dev).1.withPast evs, (w.makeInode path mode dev).2) := by
  unfold makeInode
  rw [withPast_pathLookup]
  rcases w.pathLookup path with ⟨w₁, _ | key⟩
  · rfl
  · dsimp only
    rw [withPast_newInode]
    dsimp only
    rw [withPast_initInodeValue, withPast_writeLock, withPast_store, Store.withPast_dbPut]
    dsimp only
    rw [withPast_setStore, withPast_unlock]
    split
    · rfl
    · rfl

theorem withPast_symlink (target path : Bytes) :
    (w.withPast evs).symlink target path
      = ((w.symlink target path).1.withPast evs, (w.symlink target path).2) := by
  unfold symlink
  rw [withPast_pathLookup]
  rcases w.pathLookup path with ⟨w₁, _ | key⟩
  · rfl
  · dsimp only
    rw [withPast_newInode]
    dsimp only
    rw [withPast_initInodeValue, withPast_writeLock, withPast_store, Store.withPast_dbPut]
    dsimp only
    rw [withPast_setStore, withPast_unlock]

theorem withPast_readlink (path : Bytes) (size : ℕ) :
    (w.withPast evs).readlink path size
      = ((w.readlink path size).1.withPast evs, (w.readlink path size).2) := by
  unfold readlink
  rw [withPast_pathLookup]
  rcases w.pathLookup path with ⟨w₁, _ | key⟩
  · rfl
  · dsimp only
    rw [withPast_readLock, withPast_store, Store.withPast_dbGet]
    split
    · rw [withPast_unlock]
    · rw [withPast_setErrno, withPast_unlock]

theorem withPast_unlink (path : Bytes) :
    (w.withPast evs).unlink path = ((w.unlink path).1.withPast evs, (w.unlink path).2) := by
  unfold unlink
  rw [withPast_pathLookup]
  rcases w.pathLookup path with ⟨w₁, _ | key⟩
  · rfl
  · dsimp only
    rw [withPast_writeLock, withPast_cacheGet]
    rcases (w₁.writeLock key).cacheGet key .delete with ⟨w₂, _ | i⟩
    · simp only [withPast_unlock]
    · dsimp only
      rw [withPast_iheader, withPast_threshold_]
      split
      · simp only [withPast_sysUnlink, withPast_dentry_cache, withPast_setDentry,
          withPast_cacheRelease, withPast_cacheEvict, withPast_unlock]
      · simp only [withPast_dentry_cache, withPast_setDentry, withPast_cacheRelease,
          withPast_cacheEvict, withPast_unlock]

theorem withPast_removeDir (path : Bytes) :
    (w.withPast evs).removeDir path
      = ((w.removeDir path).1.withPast evs, (w.removeDir path).2) := by
  unfold removeDir
  rw [withPast_pathLookup]
  rcases w.pathLookup path with ⟨w₁, _ | key⟩
  · rfl
  · dsimp only
    rw [withPast_writeLock, withPast_cacheGet]
    rcases (w₁.writeLock key).cacheGet key .delete with ⟨w₂, _ | i⟩
    · simp only [withPast_unlock]
    · simp only [withPast_dentry_cache, withPast_setDentry, withPast_cacheRelease,
        withPast_cacheEvict, withPast_unlock]

theorem withPast_openDir (path : Bytes) :
    (w.withPast evs).openDir path = ((w.openDir path).1.withPast evs, (w.openDir path).2) := by
  unfold openDir
  rw [withPast_pathLookup]
  rcases w.pathLookup path with ⟨w₁, _ | key⟩
  · rfl
  · dsimp only
    rw [withPast_readLock, withPast_cacheGet]
    rcases (w₁.readLock key).cacheGet key .read with ⟨w₂, _ | i⟩
    · simp only [withPast_unlock, withPast_fsError]
    · simp only [withPast_dirs, withPast_setDirs, withPast_unlock]

theorem withPast_readDir (handle : ℕ) (filler : ℕ → Bool) :
    (w.withPast evs).readDir handle filler
      = ((w.readDir handle filler).1.withPast evs, (w.readDir handle filler).2) := by
  have hentries : ∀ inode, (w.withPast evs).dirEntries inode = w.dirEntries inode :=
    fun _ => rfl
  unfold readDir
  rw [withPast_store, Store.withPast_value]
  dsimp only
  split
  · split
    · rw [hentries]
    · rfl
  · rfl

theorem withPast_releaseDir (handle : ℕ) :
    (w.withPast evs).releaseDir handle
      = ((w.releaseDir handle).1.withPast evs, (w.releaseDir handle).2) := by
  unfold releaseDir
  rw [withPast_dirs]
  split
  · rw [withPast_cacheRelease, withPast_setDirs]
  · rfl

theorem withPast_renameHandles (i : ℕ) (old_key new_key : MetaKey) (filename : Bytes) :
    (w.withPast evs).renameHandles i old_key new_key filename
      = (w.renameHandles i old_key new_key filename).withPast evs := by
  unfold renameHandles
  simp only [withPast_store, Store.withPast_value, Store.withPast_insert,
    Store.withPast_batchCommit, Store.withPast_release, Store.withPast_evict, withPast_setStore]

theorem withPast_rename (old_path new_path : Bytes) :
    (w.withPast evs).rename old_path new_path
      = ((w.rename old_path new_path).1.withPast evs, (w.rename old_path new_path).2) := by
  unfold rename
  rw [withPast_pathLookup]
  rcases w.pathLookup old_path with ⟨w₁, _ | old_key⟩
  · rfl
  · dsimp only
    rw [withPast_pathLookup]
    rcases w₁.pathLookup new_path with ⟨w₂, _ | new_key⟩
    · rfl
    · dsimp only
      rw [withPast_writeLock, withPast_writeLock, withPast_cacheGet]
      rcases ((w₂.writeLock (lockOrder old_key new_key).1).writeLock
        (lockOrder old_key new_key).2).cacheGet old_key .delete with ⟨w₃, _ | i⟩
      · simp only [withPast_unlock]
      · simp only [withPast_renameHandles, withPast_dentry_cache, withPast_setDentry,
          withPast_unlock]

theorem withPast_editAttribute (path : Bytes) (edit : Stat → Stat) (unlocks : Bool) :
    (w.withPast evs).editAttribute path edit unlocks
      = ((w.editAttribute path edit unlocks).1.withPast evs,
        (w.editAttribute path edit unlocks).2) := by
  unfold editAttribute
  rw [withPast_pathLookup]
  rcases w.pathLookup path with ⟨w₁, _ | key⟩
  · rfl
  · dsimp only
    rw [withPast_writeLock, withPast_cacheGet]
    rcases (w₁.writeLock key).cacheGet key .write with ⟨w₂, _ | i⟩
    · simp only [withPast_unlock]
    · dsimp only
      rw [withPast_store, Store.withPast_value, withPast_setValue, withPast_cacheWriteBack,
        withPast_cacheRelease, withPast_unlock]
      split
      · rfl
      · rfl

theorem withPast_evictUnpinned (key : MetaKey) :
    (w.withPast evs).evictUnpinned key = (w.evictUnpinned key).withPast evs := by
  unfold evictUnpinned
  rw [withPast_store, Store.withPast_cache]
  split
  · split
    · rw [withPast_cacheEvict]
    · rfl
  · rfl

/-! ## Calls and runs -/

/-- A longer past changes neither what a call answers nor what it does. -/
theorem step_withPast (op : Op) :
    (w.withPast evs).step op = ((w.step op).1.withPast evs, (w.step op).2) := by
  cases op with
  | getAttr path => simp only [step, withPast_getAttr]
  | openFile path flags => simp only [step, withPast_openFile]
  | read fh size offset => simp only [step, withPast_read]
  | write fh buf offset => simp only [step, withPast_write]
  | fsync fh datasync => simp only [step, withPast_fsync]
  | release fh => simp only [step, withPast_release]
  | truncate path n => simp only [step, withPast_truncate]
  | readlink path size => simp only [step, withPast_readlink]
  | symlink target path => simp only [step, withPast_symlink]
  | unlink path => simp only [step, withPast_unlink]
  | makeNode path mode dev => simp only [step, makeNode, withPast_makeInode]
  | makeDir path mode => simp only [step, makeDir, withPast_makeInode]
  | openDir path => simp only [step, withPast_openDir]
  | readDir handle filler => simp only [step, withPast_readDir]
  | releaseDir handle => simp only [step, withPast_releaseDir]
  | removeDir path => simp only [step, withPast_removeDir]
  | rename old_path new_path => simp only [step, withPast_rename]
  | access path mask => simp only [step, access]
  | updateTimens path atime mtime => simp only [step, updateTimens, withPast_editAttribute]
  | chmod path mode => simp only [step, chmod, withPast_editAttribute]
  | chown path uid gid => simp only [step, chown, withPast_editAttribute]
  | evict key => simp only [step, withPast_evictUnpinned]
  | setEnv env => rfl
  | setFaults dbFaults ioFaults => rfl

theorem outputs_withPast (ops : List Op) : (w.withPast evs).outputs ops = w.outputs ops := by
  induction ops generalizing w with
  | nil => rfl
  | cons op ops ih => rw [outputs, outputs, step_withPast, ih]

/-- Two states that differ in their pasts alone answer every run of calls alike. -/
theorem outputs_of_pasts {w' : World} (log : List Event)
    (h : w' = w.setStore { w.store with log := log }) (ops : List Op) :
    w'.outputs ops = w.outputs ops := by
  have hempty : ∀ l, w.setStore { w.store with log := l }
      = (w.setStore { w.store with log := [] }).withPast l := by
    intro l
    simp only [withPast, setStore, Store.withPast, List.append_nil]
  have hself : w = w.setStore { w.store with log := w.store.log } := rfl
  rw [h, hempty, outputs_withPast]
  conv_rhs => rw [hself, hempty, outputs_withPast]

end World

end Tablefs
