/-
The operations on files of `tablefs.cpp`: `GetAttr`, `Open`, `Read`, `Write`,
`Fsync`, `Release`, `Truncate`, and the helpers that move a file's data between
its record and a disk file.

A handle `fi->fh` is the number of a `tfs_file_handle_t`. FUSE passes only
numbers that `Open` returned and `Release` has not freed; for another number the
functions here return the state as it is.
-/
import Tablefs.Lookup

set_option autoImplicit false

namespace Tablefs

open ByteString

/-! ## Numbers -/

/-- A value stored into an `int`. -/
def cInt (x : ℤ) : ℤ := Int.bmod x (2 ^ 32)

/-- The value is an `int`. -/
def FitsInt (x : ℤ) : Prop := -2 ^ 31 ≤ x ∧ x < 2 ^ 31

instance (x : ℤ) : Decidable (FitsInt x) := inferInstanceAs (Decidable (_ ∧ _))

/-- An `int` holds it as it is. -/
theorem cInt_of_fits {x : ℤ} (h : FitsInt x) : cInt x = x :=
  Int.bmod_eq_of_le (by have := h.1; omega) (by have := h.2; omega)

/-- An `off_t` kept in 64 bits. -/
def offT (x : UInt64) : ℤ := Int.bmod x.toNat (2 ^ 64)

/-- The 64 bits of an `off_t`. -/
def ofOffT (x : ℤ) : UInt64 := .ofNat (sizeT x)

/-- A header with another `st_size`. -/
def InodeHeader.withSize (h : InodeHeader) (n : UInt64) : InodeHeader :=
  { h with fstat := { h.fstat with st_size := n } }

/-- A header with another `st_size` and `has_blob`. -/
def InodeHeader.withSizeBlob (h : InodeHeader) (n : UInt64) (has_blob : UInt32) : InodeHeader :=
  { h with fstat := { h.fstat with st_size := n }, has_blob := has_blob }

namespace World

/-- `inode_cache->Get` -/
def cacheGet (w : World) (key : MetaKey) (mode : InodeAccessMode) : World × Option ℕ :=
  let r := w.store.get key mode
  (w.setStore r.1, r.2)

/-- `handle->value_ = v` -/
def setValue (w : World) (handle : ℕ) (v : Bytes) : World :=
  w.setStore (w.store.setValue handle v)

/-- `handle->mode_ = m` -/
def setMode (w : World) (handle : ℕ) (m : InodeAccessMode) : World :=
  w.setStore (w.store.setMode handle m)

/-- `inode_cache->Release` -/
def cacheRelease (w : World) (handle : ℕ) : World := w.setStore (w.store.release handle)

/-- `inode_cache->WriteBack` -/
def cacheWriteBack (w : World) (handle : ℕ) : World := w.setStore (w.store.writeBack handle)

/-- `inode_cache->Evict` -/
def cacheEvict (w : World) (key : MetaKey) : World := w.setStore (w.store.evict key)

/-- `new char[n]` -/
def newBuffer (w : World) (n : ℕ) : Bytes := (List.range n).map w.env.junk

/-- The header of a handle's value. -/
def iheader (w : World) (handle : ℕ) : InodeHeader := getInodeHeader (w.store.value handle)

/-- `UpdateInodeHeader` on a handle's value. -/
def setHeader (w : World) (handle : ℕ) (h : InodeHeader) : World :=
  w.setValue handle (updateInodeHeader (w.store.value handle) h)

/-! ## Disk files -/

/-- `OpenDiskFile` -/
def openDiskFile (w : World) (iheader : InodeHeader) (flags : OpenFlags) : World × ℤ :=
  w.sysOpen (getDiskFilePath iheader.fstat.st_ino) flags true

/-- `TruncateDiskFile` -/
def truncateDiskFile (w : World) (inode_id : UInt64) (new_size : ℤ) : World × ℤ :=
  w.sysTruncate (getDiskFilePath inode_id) new_size

/-- `MigrateDiskFileToBuffer`, with what it leaves in the buffer. -/
def migrateDiskFileToBuffer (w : World) (inode_id : UInt64) (buffer : Bytes) : World × Bytes :=
  let fpath := getDiskFilePath inode_id
  let o := w.sysOpen fpath ⟨.rdOnly, false⟩ false
  let r := o.1.sysPread o.2 buffer.length 0
  let w := (r.1.sysClose o.2).1
  (w.sysUnlink fpath, overlay buffer 0 r.2.2)

/-- `MigrateToDiskFile`: the return value and the new `fd`. The bytes past the
end of the value, should `st_size` exceed the inline data, are unspecified in
C++ and zero here. -/
def migrateToDiskFile (w : World) (handle : ℕ) (fd : ℤ) (flags : OpenFlags) :
    World × ℤ × ℤ :=
  let iheader := w.iheader handle
  let w := if 0 ≤ fd then (w.sysClose fd).1 else w
  let o := w.openDiskFile iheader flags
  let w := o.1
  if o.2 < 0 then (w, w.fsError, -1)
  else if 0 < offT iheader.fstat.st_size then
    let start := TFS_INODE_HEADER_SIZE + iheader.namelen.toNat + 1
    let buffer := resize ((w.store.value handle).drop start) iheader.fstat.st_size.toNat
    let p := w.sysPwrite o.2 buffer 0
    let ret := if p.2 ≠ offT iheader.fstat.st_size then p.1.fsError else 0
    (p.1.setValue handle (dropInlineData (p.1.store.value handle)), ret, o.2)
  else (w, 0, o.2)

/-! ## Open files -/

/-- `new tfs_file_handle_t()`, given out as `fi->fh`. -/
def addFile (w : World) (f : FileHandle) : World :=
  { w with files := Function.update w.files w.nextFile (some f), nextFile := w.nextFile + 1 }

/-- `fh->fd_ = fd` -/
def setFd (w : World) (fh : ℕ) (f : FileHandle) (fd : ℤ) : World :=
  w.setFiles (Function.update w.files fh (some { f with fd_ := fd }))

/-- `delete fh` -/
def deleteFile (w : World) (fh : ℕ) : World := w.setFiles (Function.update w.files fh none)

/-- The mode `Open` asks the cache for. -/
def openMode (flags : OpenFlags) : InodeAccessMode :=
  if flags.acc ≠ .rdOnly ∨ flags.trunc then .write else .read

/-! ## The operations -/

/-- `GetAttr`: the return value and what `*statbuf` is set to. -/
def getAttr (w : World) (path : Bytes) : World × ℤ × Option Stat :=
  match w.pathLookup path with
  | (w, none) => (w, w.fsError, none)
  | (w, some key) =>
      match (w.readLock key).cacheGet key .read with
      | (w, some handle) =>
          ((w.cacheRelease handle).unlock key, 0, some (getAttribute (w.store.value handle)))
      | (w, none) => (w.unlock key, -ENOENT, none)

/-- `Open`: the return value and the new `fi->fh`. -/
def openFile (w : World) (path : Bytes) (flags : OpenFlags) : World × ℤ × Option ℕ :=
  match w.pathLookup path with
  | (w, none) => (w, w.fsError, none)
  | (w, some key) =>
      match (w.writeLock key).cacheGet key (openMode flags) with
      | (w, some handle) =>
          if 0 < (w.iheader handle).has_blob then
            let o := w.openDiskFile (w.iheader handle) flags
            if o.2 < 0 then
              -- a failed `open` leaves a positive `errno`, so `ret` is not 0
              ((o.1.cacheRelease handle).unlock key, o.1.fsError, none)
            else ((o.1.addFile ⟨handle, flags, o.2⟩).unlock key, 0, some o.1.nextFile)
          else ((w.addFile ⟨handle, flags, -1⟩).unlock key, 0, some w.nextFile)
      | (w, none) => (w.unlock key, -ENOENT, none)

/-- The descriptor `Read` and `Write` use for a blob: a handle without one opens
the disk file first, and `fh->fd_` keeps what `open` returned. -/
def ensureFd (w : World) (fh : ℕ) (f : FileHandle) (iheader : InodeHeader) : World × ℤ :=
  if f.fd_ < 0 then
    let o := w.openDiskFile iheader f.flags_
    (o.1.setFd fh f o.2, o.2)
  else (w, f.fd_)

/-- `Read`: the return value and the bytes put into `buf`. -/
def read (w : World) (fh : ℕ) (size : ℕ) (offset : ℤ) : World × ℤ × Bytes :=
  match w.files fh with
  | none => (w, 0, [])
  | some f =>
      let key := w.store.keyOf f.handle_
      let w := w.readLock key
      let iheader := w.iheader f.handle_
      if 0 < iheader.has_blob then
        let e := w.ensureFd fh f iheader
        if e.2 < 0 then (e.1.unlock key, -EBADF, [])
        else
          let r := e.1.sysPread e.2 size offset
          (r.1.unlock key, cInt r.2.1, r.2.2)
      else
        let d := getInlineData (w.store.value f.handle_) (sizeT offset) size
        (w.unlock key, cInt d.1, d.2)

/-- `Write` to a file whose data is in its disk file. -/
def writeBlob (w : World) (fh : ℕ) (f : FileHandle) (iheader : InodeHeader) (buf : Bytes)
    (offset : ℤ) : World × ℤ :=
  let e := w.ensureFd fh f iheader
  if e.2 < 0 then (e.1, -EBADF)
  else
    let p := e.1.sysPwrite e.2 buf offset
    (p.1, cInt p.2)

/-- `Write` past the threshold to a file whose data is inline; the last component
is `has_imgrated`. -/
def writeMigrate (w : World) (fh : ℕ) (f : FileHandle) (buf : Bytes) (offset : ℤ) (total : ℕ) :
    World × ℤ × Bool :=
  let m := w.migrateToDiskFile f.handle_ f.fd_ f.flags_
  let w := m.1.setFd fh f m.2.2
  if m.2.1 = 0 then
    let w := w.setHeader f.handle_ ((w.iheader f.handle_).withSizeBlob (.ofNat total) 1)
    let p := w.sysPwrite m.2.2 buf offset
    (p.1, cInt p.2, true)
  else (w, m.2.1, false)

/-- The branches of `Write` that store the data. -/
def writeData (w : World) (fh : ℕ) (f : FileHandle) (buf : Bytes) (offset : ℤ) (total : ℕ) :
    World × ℤ × Bool :=
  let iheader := w.iheader f.handle_
  if 0 < iheader.has_blob then
    let b := w.writeBlob fh f iheader buf offset
    (b.1, b.2, false)
  else if sizeT w.threshold_ < total then w.writeMigrate fh f buf offset total
  else
    (w.setValue f.handle_ (updateInlineData (w.store.value f.handle_) buf (sizeT offset)),
      cInt buf.length, false)

/-- `Write` of all bytes of `buf`. `offset + size` is unsigned, and so are the
comparisons with it. -/
def write (w : World) (fh : ℕ) (buf : Bytes) (offset : ℤ) : World × ℤ :=
  match w.files fh with
  | none => (w, 0)
  | some f =>
      let w := w.setMode f.handle_ .write
      let key := w.store.keyOf f.handle_
      let w := w.readLock key
      let total := sizeT (offset + buf.length)
      let has_larger_size : Bool := (w.iheader f.handle_).fstat.st_size.toNat < total
      let r := w.writeData fh f buf offset total
      let w := r.1
      let w :=
        if 0 ≤ r.2.1 ∧ has_larger_size ∧ ¬ r.2.2 then
          w.setHeader f.handle_ ((w.iheader f.handle_).withSize (.ofNat total))
        else w
      (w.unlock key, r.2.1)

/-- `Fsync` -/
def fsync (w : World) (fh : ℕ) (datasync : Bool) : World × ℤ :=
  match w.files fh with
  | none => (w, 0)
  | some f =>
      let key := w.store.keyOf f.handle_
      let w := w.writeLock key
      if w.store.mode f.handle_ = .write then
        let r := if 0 < (w.iheader f.handle_).has_blob then w.sysFsync f.fd_ else (w, 0)
        if datasync then (r.1.unlock key, -r.2)
        else
          let y := r.1.store.dbSync
          ((r.1.setStore y.1).unlock key, -y.2)
      else (w.unlock key, 0)

/-- `Release` -/
def release (w : World) (fh : ℕ) : World × ℤ :=
  match w.files fh with
  | none => (w, 0)
  | some f =>
      let handle := f.handle_
      let key := w.store.keyOf handle
      let w := w.writeLock key
      let w :=
        if w.store.mode handle = .write then
          let value := w.store.value handle
          w.setValue handle (updateAttribute value
            { getAttribute value with st_atim_sec := w.env.now, st_mtim_sec := w.env.now })
        else w
      let c := if f.fd_ ≠ -1 then w.sysClose f.fd_ else (w, 0)
      let w := ((c.1.cacheWriteBack handle).cacheRelease handle).cacheEvict key
      let w := w.deleteFile fh
      (w.unlock key, if c.2 ≠ 0 then c.1.fsError else 0)

/-- `Truncate` past the threshold of a file whose data is inline. Its local `fd`
is not initialised. -/
def truncateMigrate (w : World) (handle : ℕ) (new_size : ℤ) : World × ℤ :=
  let m := w.migrateToDiskFile handle w.env.junkInt ⟨.wrOnly, true⟩
  if m.2.1 = 0 then
    let t := m.1.sysFtruncate m.2.2 new_size
    let w := if t.2 = 0 then (t.1.sysFsync m.2.2).1 else t.1
    ((w.sysClose m.2.2).1, t.2)
  else (m.1, 0)

/-- The branches of `Truncate` that move the data. -/
def truncateData (w : World) (handle : ℕ) (new_size : ℤ) : World × ℤ :=
  let iheader := w.iheader handle
  if 0 < iheader.has_blob then
    if w.threshold_ < new_size then
      ((w.truncateDiskFile iheader.fstat.st_ino new_size).1, 0)
    else
      let m := w.migrateDiskFileToBuffer iheader.fstat.st_ino (w.newBuffer new_size.toNat)
      (m.1.setValue handle (updateInlineData (m.1.store.value handle) m.2 0), 0)
  else if w.threshold_ < new_size then w.truncateMigrate handle new_size
  else (w.setValue handle (truncateInlineData (w.store.value handle) (sizeT new_size)), 0)

/-- `Truncate`. The size it compares `new_size` with is the one in the header at
entry. -/
def truncate (w : World) (path : Bytes) (new_size : ℤ) : World × ℤ :=
  match w.pathLookup path with
  | (w, none) => (w, w.fsError)
  | (w, some key) =>
      match w.cacheGet key .write with
      | (w, some handle) =>
          let w := w.writeLock key
          let old_size := offT (w.iheader handle).fstat.st_size
          let r := w.truncateData handle new_size
          let w := r.1
          let w :=
            if new_size ≠ old_size then
              w.setHeader handle ((w.iheader handle).withSizeBlob (ofOffT new_size)
                (if w.threshold_ < new_size then 1 else 0))
            else w
          (((w.cacheWriteBack handle).cacheRelease handle).unlock key, r.2)
      | (w, none) => ((w.writeLock key).unlock key, -ENOENT)

end World

end Tablefs
