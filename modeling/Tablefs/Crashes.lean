/-
Crashes.

A crash may come after any durable effect of any call. `Unlink` takes the disk file away
before the record, and `Truncate` before the record has the data, so a crash in between leaves
a record whose data is gone (`crash_loses_data`). The other calls put a record only when its
data is where it says. So what every crash leaves is sound in the runs in which no disk file is
taken away that a record still points to, and nothing is marked to be written back that points
to a file that is gone (`crashes_keep_data`).
-/
import Tablefs.BackingData
import Tablefs.BlobFlag

set_option autoImplicit false

namespace Tablefs

open ByteString

/-- The end of a write is an `off_t`. -/
def Op.EndsInRange : Op → Prop
  | .write _ buf offset => offset + buf.length < 2 ^ 63
  | _ => True

/-! ## The property -/

/-- Every record of a regular file has its data where it says: in its disk file if it has a
blob, and inline otherwise. -/
def Durable.KeepsData (d : Durable) : Prop :=
  ∀ k (r : InodeRecord), d.get k = some r.value → r.Regular →
    (r.header.has_blob = 1 → d.disk.names r.path ≠ none) ∧
      (r.header.has_blob = 0 → r.inline.length = r.size)

theorem Durable.Sound.keepsData {T : ℤ} {d : Durable} (h : d.Sound T) : d.KeepsData := by
  intro k r hr hreg
  obtain ⟨r', hv, hs, hf⟩ := Keyed.get h hr
  obtain rfl := InodeRecord.value_inj hv
  refine ⟨fun hb => hf r'.path ⟨hreg, hb, rfl⟩, fun hb => ?_⟩
  cases hs with
  | small _ _ _ hinline => exact hinline hreg
  | large _ _ hblob => rw [hblob] at hb; cases hb

namespace World

variable {w w' : World} {T : ℤ} {base : Durable} {path : Bytes}

/-- The disk file that the record of a regular file points to. -/
def blobOf (value : Bytes) : Option BlobPath :=
  if isReg (getInodeHeader value).fstat.st_mode = true ∧ (getInodeHeader value).has_blob = 1 then
    some (getDiskFilePath (getInodeHeader value).fstat.st_ino)
  else none

theorem blobOf_value {r : InodeRecord} {p : BlobPath} :
    blobOf r.value = some p ↔ r.PointsTo p := by
  rw [blobOf, r.getInodeHeader_value]
  constructor
  · intro h
    split at h
    · rename_i hr
      exact ⟨hr.1, hr.2, Option.some.inj h⟩
    · cases h
  · rintro ⟨hreg, hblob, hpath⟩
    rw [if_pos ⟨hreg, hblob⟩]
    exact congrArg some hpath

/-- The value that `Get` finds for the key a path leads to. -/
def found (w : World) (path : Bytes) : Option Bytes := (w.pathLookup path).2.bind w.store.lookup

/-- The value of the record that a call marks to be written back. -/
def marked (w : World) : Op → Option Bytes
  | .write fh _ _ => (w.files fh).map fun f => w.store.value f.handle_
  | .openFile path flags => if openMode flags = .write then w.found path else none
  | .truncate path _ | .chmod path _ | .chown path _ _ | .updateTimens path _ _
  | .rename path _ => w.found path
  | _ => none

/-- The disk file that a call takes away, and the key of the record it does so for. -/
def takes (w : World) : Op → Option (MetaKey × BlobPath)
  | .unlink path => do
      let key ← (w.pathLookup path).2
      let value ← w.store.lookup key
      let header := getInodeHeader value
      if w.threshold_ < offT header.fstat.st_size then
        some (key, getDiskFilePath header.fstat.st_ino)
      else none
  | .truncate path new_size => do
      let key ← (w.pathLookup path).2
      let value ← w.store.lookup key
      let header := getInodeHeader value
      if 0 < header.has_blob ∧ new_size ≤ w.threshold_ then
        some (key, getDiskFilePath header.fstat.st_ino)
      else none
  | _ => none

/-- The call leaves the type of a file as it is, as the kernel does. -/
def KeepsType (w : World) : Op → Prop
  | .chmod path mode =>
      ∀ v ∈ w.found path, isReg mode = true → isReg (getInodeHeader v).fstat.st_mode = true
  | _ => True

/-- No stored record points to the disk file, and no handle does that waits to be written
back, but for the one under `key`. -/
structure Unneeded (w : World) (key : MetaKey) (p : BlobPath) : Prop where
  stored : ∀ k (r : InodeRecord), w.store.dbGet k = some r.value → ¬ r.PointsTo p
  waiting : ∀ i (r : InodeRecord), w.store.cache.Live i → w.store.mode i = .write →
    w.store.value i = r.value → w.store.cache.find key ≠ some i → ¬ r.PointsTo p

/-- The call takes away only a disk file that is not needed, and marks only what has its
disk file. -/
structure SparesData (w : World) (op : Op) : Prop where
  takes : ∀ key p, w.takes op = some (key, p) → w.Unneeded key p
  marked : ∀ v ∈ w.marked op, ∀ p ∈ blobOf v, w.os.disk.names p ≠ none
  typed : w.KeepsType op

/-! ## The parts of a call -/

theorem Backed.pathLookup (h : Backed T base w) {w₁ : World} {o : Option MetaKey}
    (hp : w.pathLookup path = (w₁, o)) : Backed T base w₁ ∧ w.Looked w₁ := by
  have hl := w.pathLookup_looked path
  rw [hp] at hl
  exact ⟨h.looked hl, hl⟩

theorem Backed.readLock (h : Backed T base w) (k : MetaKey) : Backed T base (w.readLock k) :=
  h.looked (looked_readLock w k)

theorem Backed.writeLock (h : Backed T base w) (k : MetaKey) : Backed T base (w.writeLock k) :=
  h.looked (looked_writeLock w k)

theorem Backed.unlock (h : Backed T base w) (k : MetaKey) : Backed T base (w.unlock k) :=
  h.looked (looked_unlock w k)

/-- What the log, the stores and the data directory do not have a part in. -/
theorem Backed.addFile (h : Backed T base w) (f : FileHandle) : Backed T base (w.addFile f) :=
  h.grows (.of_eq rfl rfl) rfl rfl

theorem Backed.deleteFile (h : Backed T base w) (fh : ℕ) : Backed T base (w.deleteFile fh) :=
  h.grows (.of_eq rfl rfl) rfl rfl

theorem Backed.setDirs (h : Backed T base w) (ds : List ℕ) : Backed T base (w.setDirs ds) :=
  h.grows (.of_eq rfl rfl) rfl rfl

theorem Backed.setDentry (h : Backed T base w) (d : DentryCache) :
    Backed T base (w.setDentry d) := h.grows (.of_eq rfl rfl) rfl rfl

/-- What a path leads to is what `Get` finds once the lock is taken. -/
theorem found_of_lookup {w₁ : World} {key : MetaKey} {v : Bytes} (hl : w.Looked w₁)
    (hp : w.pathLookup path = (w₁, some key)) (hv : w₁.store.lookup key = some v) :
    w.found path = some v := by
  rw [found, hp]
  show w.store.lookup key = some v
  rw [← hl.lookup, hv]

/-- A call that marks what a path leads to. -/
theorem SparesData.hasFile {op : Op} (hc : w.SparesData op) {w₁ w₂ : World} {key : MetaKey}
    (hm : w.marked op = w.found path) (hp : w.pathLookup path = (w₁, some key))
    (hl : w.Looked w₁) (hl₂ : w₁.Looked w₂) {r : InodeRecord}
    (hr : w₂.store.lookup key = some r.value) : r.HasFile w₂.os.disk := by
  rw [hl₂.lookup] at hr
  rw [hl₂.disk, hl.disk]
  exact fun p hp' => hc.marked _ (hm.trans (found_of_lookup hl hp hr)) p (blobOf_value.mpr hp')

/-- The attributes but for size, number and type may change. -/
theorem HandleOk.setStat {d : Disk} {k : MetaKey} {v : Bytes} {m : InodeAccessMode}
    (h : HandleOk T d k ⟨v, m⟩) (f : Stat → Stat)
    (hf : ∀ r : InodeRecord, r.value = v → (f r.header.fstat).st_size = r.header.fstat.st_size ∧
      (f r.header.fstat).st_ino = r.header.fstat.st_ino ∧
      (isReg (f r.header.fstat).st_mode = true → r.Regular)) :
    HandleOk T d k ⟨updateAttribute v (f (getAttribute v)), m⟩ := by
  obtain ⟨r, rfl, hs, hfile⟩ := h
  obtain ⟨hsize, hino, hreg⟩ := hf r rfl
  have hpath : (r.setStat (f r.header.fstat)).path = r.path := congrArg getDiskFilePath hino
  refine ⟨r.setStat (f r.header.fstat), ?_, ?_, fun hm => (hfile hm).congr fun p hp => ?_⟩
  · dsimp only
    rw [r.getAttribute_value, r.updateAttribute_value]
  · have hsz : (r.setStat (f r.header.fstat)).size = r.size := congrArg UInt64.toNat hsize
    cases hs with
    | small h1 h2 h3 h4 =>
        exact .small (by rwa [hsz]) (by rwa [hsz]) h3 fun hr => (h4 (hreg hr)).trans hsz.symm
    | large h1 h2 h3 h4 =>
        exact .large (by rwa [hsz]) (by rwa [hsz]) h3 fun hr => h4 (hreg hr)
  · exact ⟨hreg hp.1, hp.2.1, hpath.symm.trans hp.2.2⟩

/-- A value of a cached handle changes. -/
theorem Backed.setValue (h : Backed T base w) {i : ℕ} {v : Bytes}
    (hv : w.store.cache.Live i → HandleOk T w.os.disk (w.store.keyOf i) ⟨v, w.store.mode i⟩) :
    Backed T base (w.setValue i v) := h.edited (.of_eq rfl rfl) rfl rfl hv

/-- `WriteBack` and `Release` of a handle that is pinned. -/
theorem Backed.writtenBack (h : Backed T base w) {i : ℕ} (hpin : 0 < w.store.cache.pins i) :
    Backed T base ((w.cacheWriteBack i).cacheRelease i) := by
  refine (h.cacheWriteBack hpin).cacheRelease ?_
  show 0 < (w.store.writeBack i).cache.pins i
  rw [Store.writeBack_pins]
  exact hpin

/-! ## The calls -/

theorem Backed.getAttr (h : Backed T base w) (path : Bytes) :
    Backed T base (w.getAttr path).1 := by
  unfold World.getAttr
  rcases hp : w.pathLookup path with ⟨w₁, _ | key⟩
  · exact (h.pathLookup hp).1
  · dsimp only
    have h₁ := (h.pathLookup hp).1.readLock key
    rcases hg : (w₁.readLock key).cacheGet key .read with ⟨w₂, _ | i⟩
    · dsimp only
      rw [(cacheGet_none hg).1]
      exact h₁.unlock key
    · obtain ⟨h₂, hpin, _⟩ := h₁.cacheGet hg nofun
      exact (h₂.cacheRelease hpin).unlock key

theorem Backed.openDir (h : Backed T base w) (path : Bytes) :
    Backed T base (w.openDir path).1 := by
  unfold World.openDir
  rcases hp : w.pathLookup path with ⟨w₁, _ | key⟩
  · exact (h.pathLookup hp).1
  · dsimp only
    have h₁ := (h.pathLookup hp).1.readLock key
    rcases hg : (w₁.readLock key).cacheGet key .read with ⟨w₂, _ | i⟩
    · dsimp only
      rw [(cacheGet_none hg).1]
      exact h₁.unlock key
    · obtain ⟨h₂, _⟩ := h₁.cacheGet hg nofun
      exact (h₂.setDirs _).unlock key

theorem Backed.openFile (h : Backed T base w) {flags : OpenFlags}
    (hc : w.SparesData (.openFile path flags)) : Backed T base (w.openFile path flags).1 := by
  unfold World.openFile
  rcases hp : w.pathLookup path with ⟨w₁, _ | key⟩
  · exact (h.pathLookup hp).1
  · dsimp only
    obtain ⟨hb₁, hl⟩ := h.pathLookup hp
    have h₁ := hb₁.writeLock key
    rcases hg : (w₁.writeLock key).cacheGet key (openMode flags) with ⟨w₂, _ | i⟩
    · dsimp only
      rw [(cacheGet_none hg).1]
      exact h₁.unlock key
    · obtain ⟨h₂, hpin, _⟩ := h₁.cacheGet hg fun hm r hr =>
        hc.hasFile (if_pos hm) hp hl (looked_writeLock w₁ key) hr
      dsimp only
      have ho : w₂.Grows (w₂.openDiskFile (w₂.iheader i) flags).1 := grows_sysOpen _ _ _ _
      have hu : w₂.UpToData (w₂.openDiskFile (w₂.iheader i) flags).1 := upToData_sysOpen _ _ _ _
      generalize w₂.openDiskFile (w₂.iheader i) flags = o at *
      split
      · split
        · exact ((h₂.grows ho hu.cache hu.threshold).cacheRelease (by rwa [hu.cache])).unlock key
        · exact ((h₂.grows ho hu.cache hu.threshold).addFile _).unlock key
      · exact (h₂.addFile _).unlock key

theorem Backed.read (h : Backed T base w) (fh size : ℕ) (offset : ℤ) :
    Backed T base (w.read fh size offset).1 := by
  unfold World.read
  cases hf : w.files fh with
  | none => exact h
  | some f =>
      dsimp only
      have h₁ := h.readLock (w.store.keyOf f.handle_)
      have hf₁ : (w.readLock (w.store.keyOf f.handle_)).files fh = some f := hf
      generalize w.readLock (w.store.keyOf f.handle_) = w₁ at *
      split
      · have he := w₁.grows_ensureFd fh f (w₁.iheader f.handle_)
        have hu := ensureFd_upToData hf₁ (w₁.iheader f.handle_)
        have h₂ : Backed T base (w₁.ensureFd fh f (w₁.iheader f.handle_)).1 :=
          h₁.grows he hu.cache hu.threshold
        split
        · exact h₂.unlock _
        · have hr := (w₁.ensureFd fh f (w₁.iheader f.handle_)).1.upToData_sysPread
            (w₁.ensureFd fh f (w₁.iheader f.handle_)).2 size offset
          exact (h₂.grows (grows_sysPread _ _ _ _) hr.cache hr.threshold).unlock _
      · exact h₁.unlock _

theorem Backed.fsync (h : Backed T base w) (fh : ℕ) (datasync : Bool) :
    Backed T base (w.fsync fh datasync).1 := by
  unfold World.fsync
  cases hf : w.files fh with
  | none => exact h
  | some f =>
      dsimp only
      have h₁ := h.writeLock (w.store.keyOf f.handle_)
      generalize w.writeLock (w.store.keyOf f.handle_) = w₁ at *
      split
      · have h₂ : Backed T base (if 0 < (w₁.iheader f.handle_).has_blob then w₁.sysFsync f.fd_
            else (w₁, 0)).1 := by
          split
          · have hu := w₁.upToData_sysFsync f.fd_
            exact h₁.grows (grows_ioClosed.quiet.sysFsync _ _) hu.cache hu.threshold
          · exact h₁
        generalize (if 0 < (w₁.iheader f.handle_).has_blob then w₁.sysFsync f.fd_
          else (w₁, 0)) = r at *
        split
        · exact h₂.unlock _
        · exact (h₂.setStore (Store.extends_tryCommit _ _) h₂.values.dbSync).unlock _
      · exact h₁.unlock _

theorem Backed.readlink (h : Backed T base w) (path : Bytes) (size : ℕ) :
    Backed T base (w.readlink path size).1 := by
  unfold World.readlink
  rcases hp : w.pathLookup path with ⟨w₁, _ | key⟩
  · exact (h.pathLookup hp).1
  · dsimp only
    have h₁ := (h.pathLookup hp).1.readLock key
    split
    · exact h₁.unlock key
    · exact (h₁.looked (looked_setErrno _ _)).unlock key

theorem Backed.releaseDir (h : Backed T base w) (ha : w.Accounted) (i : ℕ) :
    Backed T base (w.releaseDir i).1 := by
  unfold World.releaseDir
  split
  · rename_i hi
    exact (h.cacheRelease (ha.pinned_of_dir hi)).setDirs _
  · exact h

theorem Backed.evictUnpinned (h : Backed T base w) (k : MetaKey) :
    Backed T base (w.evictUnpinned k) := by
  unfold World.evictUnpinned
  split
  · split
    · exact h.cacheEvict k
    · exact h
  · exact h

/-- `Release` writes back what the handle has, with new times. -/
theorem Backed.release (h : Backed T base w) (ha : w.Accounted) (fh : ℕ) :
    Backed T base (w.release fh).1 := by
  unfold World.release
  cases hf : w.files fh with
  | none => exact h
  | some f =>
      dsimp only
      have hpin := ha.pinned_of_file hf
      have h₁ := h.writeLock (w.store.keyOf f.handle_)
      have hpin₁ : 0 < (w.writeLock (w.store.keyOf f.handle_)).store.cache.pins f.handle_ := hpin
      generalize w.writeLock (w.store.keyOf f.handle_) = w₁ at *
      obtain ⟨w₂, hw₂⟩ : ∃ w₂, (if w₁.store.mode f.handle_ = .write then
          w₁.setValue f.handle_ (updateAttribute (w₁.store.value f.handle_)
            { getAttribute (w₁.store.value f.handle_) with
              st_atim_sec := w₁.env.now, st_mtim_sec := w₁.env.now })
        else w₁) = w₂ := ⟨_, rfl⟩
      have h₂ : Backed T base w₂ ∧ 0 < w₂.store.cache.pins f.handle_ := by
        rw [← hw₂]
        split
        · refine ⟨h₁.setValue fun hlive => ?_, hpin₁⟩
          exact HandleOk.setStat (h₁.live f.handle_ hlive)
            (fun s => { s with st_atim_sec := w₁.env.now, st_mtim_sec := w₁.env.now })
            fun r _ => ⟨rfl, rfl, id⟩
        · exact ⟨h₁, hpin₁⟩
      rw [hw₂]
      obtain ⟨w₃, hw₃⟩ : ∃ w₃, (if f.fd_ ≠ -1 then w₂.sysClose f.fd_ else (w₂, 0)) = w₃ :=
        ⟨_, rfl⟩
      have h₃ : Backed T base w₃.1 ∧ 0 < w₃.1.store.cache.pins f.handle_ := by
        rw [← hw₃]
        split
        · have hu := w₂.upToData_sysClose f.fd_
          exact ⟨h₂.1.grows (grows_ioClosed.sysClose _ _) hu.cache hu.threshold,
            by rw [hu.cache]; exact h₂.2⟩
        · exact h₂
      rw [hw₃]
      exact (((h₃.1.writtenBack h₃.2).cacheEvict _).deleteFile fh).unlock _

/-- What `Chmod`, `Chown` and `UpdateTimens` have in common. -/
theorem Backed.editAttribute (h : Backed T base w) {op : Op} (hc : w.SparesData op)
    (hm : w.marked op = w.found path) (edit : Stat → Stat) (unlocks : Bool)
    (hedit : ∀ r : InodeRecord, w.found path = some r.value →
      (edit r.header.fstat).st_size = r.header.fstat.st_size ∧
      (edit r.header.fstat).st_ino = r.header.fstat.st_ino ∧
      (isReg (edit r.header.fstat).st_mode = true → r.Regular)) :
    Backed T base (w.editAttribute path edit unlocks).1 := by
  unfold World.editAttribute
  rcases hp : w.pathLookup path with ⟨w₁, _ | key⟩
  · exact (h.pathLookup hp).1
  · dsimp only
    obtain ⟨hb₁, hl⟩ := h.pathLookup hp
    have h₁ := hb₁.writeLock key
    have hl₁ := looked_writeLock w₁ key
    rcases hg : (w₁.writeLock key).cacheGet key .write with ⟨w₂, _ | i⟩
    · dsimp only
      rw [(cacheGet_none hg).1]
      exact h₁.unlock key
    · obtain ⟨h₂, hpin, _, _, hval⟩ := h₁.cacheGet hg fun _ r hr => hc.hasFile hm hp hl hl₁ hr
      have hfound : w.found path = some (w₂.store.value i) :=
        found_of_lookup hl hp ((congrFun hl₁.lookup key).symm.trans hval)
      have h₃ : Backed T base (w₂.setValue i (updateAttribute (w₂.store.value i)
          (edit (getAttribute (w₂.store.value i))))) :=
        h₂.setValue fun hlive => HandleOk.setStat (h₂.live i hlive) edit fun r hr =>
          hedit r (hfound.trans (congrArg some hr.symm))
      have h₄ := h₃.writtenBack (i := i) hpin
      dsimp only
      split
      · exact h₄.unlock key
      · exact h₄

/-- A new record has no data, and a symbolic link is no regular file. -/
theorem Backed.create (h : Backed T base w) (hT : 0 ≤ T) (hpath : GoodPath path)
    (mode : UInt32) (dev : UInt64) (rest : Bytes) (hrest : isReg mode = true → rest = [])
    (key : MetaKey) :
    Backed T base ((w.newInode.1.writeLock key).setStore ((w.newInode.1.writeLock key).store.dbPut
      key (w.newInode.1.initInodeValue w.newInode.2 mode dev (filenameOf path) rest)).1) := by
  have hu := w.newInode_upToData
  have hg : w.Grows w.newInode.1 := by
    unfold newInode
    dsimp only
    split
    · have hcount : w.Grows { w with max_inode_num := w.max_inode_num + 1 } := .of_eq rfl rfl
      exact hcount.trans (grows_commit _ trivial)
    · exact .of_eq rfl rfl
  have h₁ := (h.grows hg hu.cache hu.threshold).writeLock key
  have hshort := hpath.goodName.short
  obtain ⟨r, hr, -, hinline, hblob, hstat⟩ := w.newInode.1.initInodeValue_record w.newInode.2 mode
    dev (filenameOf path) rest (by rw [hpath.filename]; omega)
  have hsize : r.size = 0 := by
    rw [InodeRecord.size, hstat]
    rfl
  refine h₁.dbPut ⟨r, hr, .small ?_ ?_ hblob fun hreg => ?_, InodeRecord.hasFile_of_inline hblob⟩
  · rw [hsize]
    exact hT
  · rw [hsize]
    decide
  · rw [InodeRecord.Regular, hstat] at hreg
    rw [hinline, hrest hreg, hsize]
    rfl

theorem Backed.makeInode (h : Backed T base w) (hT : 0 ≤ T) (hpath : GoodPath path)
    (mode : UInt32) (dev : UInt64) : Backed T base (w.makeInode path mode dev).1 := by
  unfold World.makeInode
  rcases hp : w.pathLookup path with ⟨w₁, _ | key⟩
  · exact (h.pathLookup hp).1
  · dsimp only
    have h₁ := ((h.pathLookup hp).1.create hT hpath mode dev [] (fun _ => rfl)
      key).unlock key
    split
    · exact h₁
    · exact h₁.looked (looked_setErrno _ _)

theorem Backed.symlink (h : Backed T base w) (hT : 0 ≤ T) (hpath : GoodPath path)
    (target : Bytes) : Backed T base (w.symlink target path).1 := by
  unfold World.symlink
  rcases hp : w.pathLookup path with ⟨w₁, _ | key⟩
  · exact (h.pathLookup hp).1
  · exact ((h.pathLookup hp).1.create hT hpath S_IFLNK 0 target
      (fun hreg => absurd hreg (by decide)) key).unlock key

/-- `Write` of a record whose disk file is there. -/
theorem Backed.write (h : Backed T base w) (ha : w.Accounted) (hT : 0 ≤ T ∧ T < 2 ^ 31) {fh : ℕ}
    {buf : Bytes} {offset : ℤ} (hoff : 0 ≤ offset) (hlen : offset + buf.length < 2 ^ 63)
    (hok : (w.write fh buf offset).1.os.shortIo = false)
    (hc : w.SparesData (.write fh buf offset)) : Backed T base (w.write fh buf offset).1 := by
  cases hf : w.files fh with
  | none =>
      rw [World.write, hf]
      exact h
  | some f =>
      have htot : sizeT (offset + buf.length) = offset.toNat + buf.length := by
        rw [sizeT_of_nonneg (by omega) (by omega)]
        omega
      have hpin := ha.pinned_of_file hf
      obtain ⟨r, hr, hs, -⟩ := h.live f.handle_ (Or.inr hpin)
      have hval : w.store.value f.handle_ = r.value := hr.symm
      have hmarked : w.marked (.write fh buf offset) = some r.value := by
        show (w.files fh).map _ = _
        rw [hf, Option.map_some, hval]
      have hfile : r.HasFile w.os.disk := fun p hp =>
        hc.marked _ hmarked p (blobOf_value.mpr hp)
      -- the handle is marked, and then it may be written back
      have h₁ : Backed T base (w.writeStart f) := by
        refine Backed.readLock (w := w.setMode f.handle_ .write) ?_ _
        refine ⟨h.threshold, h.log.grows (.of_eq rfl rfl), ?_⟩
        exact (h.values.setMode (ties_backing T _) f.handle_ fun _ _ =>
          ⟨r, hr, hs, hfile⟩).live
      have hmode : (w.writeStart f).store.mode f.handle_ = .write :=
        Store.setMode_mode_self _ _ _
      have hv₁ : (w.writeStart f).store.value f.handle_ = r.value := by rw [writeStart_value, hval]
      have hf₁ : (w.writeStart f).files fh = some f := hf
      have hfile₁ : r.HasFile (w.writeStart f).os.disk := hfile
      rw [write_eq hf, htot, iheader_of_value hv₁] at hok ⊢
      rw [show r.header.fstat.st_size.toNat = r.size from rfl] at hok ⊢
      have hg := (w.writeStart f).grows_written fh f r.size buf offset (offset.toNat + buf.length)
      generalize w.writeStart f = w₁ at *
      obtain ⟨r', hput⟩ := written_puts hf₁ hv₁ (by rw [h₁.threshold]; exact hT)
        (by rw [h₁.threshold]; exact hs) hfile₁ hoff hlen hok
      refine (h₁.edited hg hput.cache hput.threshold fun _ => ?_).unlock _
      exact ⟨r', rfl, h₁.threshold ▸ hput.sized, fun _ => hput.hasFile⟩

/-! ## Disk files that go -/

/-- The values that do not point to `p`. -/
def Elsewhere (p : BlobPath) (_ : MetaKey) (v : Bytes) : Prop :=
  ∀ r : InodeRecord, v = r.value → ¬ r.PointsTo p

theorem ties_elsewhere (p : BlobPath) :
    Store.Ties (fun k h => h.mode_ = .write → Elsewhere p k h.value_) (Elsewhere p) where
  stores := fun h => h rfl
  loads := fun _ h _ => h
  rests := fun _ hm h => absurd h hm

/-- With the handle `i` taken, nothing stored points to the disk file, and no other handle
does that waits to be written back. -/
structure Spare (w : World) (i : ℕ) (p : BlobPath) : Prop where
  stored : ∀ k (r : InodeRecord), w.store.dbGet k = some r.value → ¬ r.PointsTo p
  waiting : ∀ j (r : InodeRecord), w.store.cache.Live j → j ≠ i → w.store.mode j = .write →
    w.store.value j = r.value → ¬ r.PointsTo p

theorem Unneeded.looked {w₁ : World} {key : MetaKey} {p : BlobPath} (h : w.Unneeded key p)
    (hl : w.Looked w₁) : w₁.Unneeded key p where
  stored := fun k r hr => h.stored k r (by
    rw [Store.dbGet, ← hl.metadb]
    exact hr)
  waiting := fun i r hi hm hv hne => by
    refine h.waiting i r (hl.cache ▸ hi) ?_ ?_ (hl.cache ▸ hne)
    · rw [← Store.mode_congr hl.cache]
      exact hm
    · rw [← Store.value_congr hl.cache]
      exact hv

theorem Unneeded.get {key : MetaKey} {p : BlobPath} (h : w.Unneeded key p) {m : InodeAccessMode}
    {i : ℕ} (hg : w.cacheGet key m = (w', some i)) : w'.Spare i p := by
  obtain ⟨s, hs, rfl⟩ := cacheGet_some hg
  cases hf : w.store.cache.find key with
  | some j =>
      rcases Store.get_cases hs with ⟨hf', rfl⟩ | ⟨hf', _⟩
      · -- the handle was there, and the others are as they were
        have hval : ∀ j, j ≠ i → (if m = .read then
            { w.store with cache := w.store.cache.touch i (LruCache.mem_of_find hf') }
            else Store.setMode { w.store with
              cache := w.store.cache.touch i (LruCache.mem_of_find hf') } i m).cache.val j
            = w.store.cache.val j := by
          intro j hj
          split
          · rfl
          · exact Function.update_of_ne hj _ _
        refine ⟨fun k r hr => h.stored k r ?_, fun j r hj hne hm hv => ?_⟩
        · split at hr <;> exact hr
        · have hlive : w.store.cache.Live j := by
            split at hj
            · exact (@LruCache.touch_live _ _ _ _ _ (LruCache.mem_of_find hf')).mp hj
            · exact (@LruCache.touch_live _ _ _ _ _ (LruCache.mem_of_find hf')).mp hj
          refine h.waiting j r hlive ?_ ?_ ?_
          · rw [Store.mode, ← hval j hne]
            exact hm
          · rw [Store.value, ← hval j hne]
            exact hv
          · rw [hf']
            exact fun he => hne (Option.some.inj he).symm
      · rw [hf'] at hf
        cases hf
  | none =>
      -- all handles that wait are elsewhere, and so is what evictions store
      have hvals : w.store.Values (fun k h => h.mode_ = .write → Elsewhere p k h.value_)
          (Elsewhere p) (dbEvents w.store.log).length := by
        refine ⟨fun k v hv r hr => h.stored k r (hr ▸ hv), fun j hj hm r hr => ?_, ?_⟩
        · refine h.waiting j r hj hm hr ?_
          rw [hf]
          exact (Option.some_ne_none j).symm
        · rw [List.drop_length]
          exact fun e he => absurd he List.not_mem_nil
      have hget := hvals.get (ties_elsewhere p) hs fun _ v hv => by
        rw [Store.lookup, hf] at hv
        exact hvals.db key v hv
      exact ⟨fun k r hr => hget.db k _ hr r rfl,
        fun j r hj _ hm hv => hget.live j hj hm r hv⟩

/-- A disk file goes that only the handle at hand may point to, and this gets a value that
does not. -/
theorem Backed.unlinked (h : Backed T base w) {i : ℕ} {p : BlobPath} (hp : w.Spare i p)
    {w₁ : World} {v : Bytes} (hg : w.Grows w₁) (hg' : (w₁.sysUnlink p).Grows w')
    (hc : w'.store.cache = (w.store.setValue i v).cache) (ht : w'.threshold_ = w.threshold_)
    (hv : w.store.cache.Live i → HandleOk T w'.os.disk (w.store.keyOf i) ⟨v, w.store.mode i⟩) :
    Backed T base w' where
  threshold := ht.trans h.threshold
  log := by
    refine ((h.log.grows hg).sysUnlink fun k r hr => hp.stored k r ?_).grows hg'
    rw [Store.dbGet, ← hg.names.1]
    exact hr
  live := fun j hj => by
    rw [hc] at hj
    rw [Store.keyOf_congr hc, Store.setValue_keyOf, hc]
    by_cases hij : j = i
    · subst hij
      have hval : (w.store.setValue j v).cache.val j = ⟨v, w.store.mode j⟩ :=
        Function.update_self ..
      rw [hval]
      exact hv hj
    · have hval : (w.store.setValue i v).cache.val j = w.store.cache.val j :=
        Function.update_of_ne hij _ _
      rw [hval]
      obtain ⟨r, hr, hs, hfile⟩ := h.live j hj
      refine ⟨r, hr, hs, fun hm p' hp' => hg'.names.2 p' ?_⟩
      have hne : p' ≠ p := by
        rintro rfl
        exact hp.waiting j r hj hij hm hr.symm hp'
      rw [(w₁.sysUnlink_data p).1]
      show Function.update w₁.os.disk.names p none p' ≠ none
      rw [Function.update_of_ne hne]
      exact hg.names.2 p' (hfile hm p' hp')

/-- `Truncate` of a record whose disk file is there, and not needed if it goes. -/
theorem Backed.truncate (h : Backed T base w) {n : ℤ} (hn : 0 ≤ n ∧ n < 2 ^ 63)
    (hok : (w.truncate path n).1.os.shortIo = false) (hc : w.SparesData (.truncate path n)) :
    Backed T base (w.truncate path n).1 := by
  obtain ⟨m, rfl⟩ : ∃ m : ℕ, n = m := ⟨n.toNat, (Int.toNat_of_nonneg hn.1).symm⟩
  have hm : m < 2 ^ 63 := by exact_mod_cast hn.2
  rcases hp : w.pathLookup path with ⟨w₁, _ | key⟩
  · rw [World.truncate, hp]
    exact (h.pathLookup hp).1
  · obtain ⟨h₁, hl⟩ := h.pathLookup hp
    rcases hg : w₁.cacheGet key .write with ⟨wa, _ | i⟩
    · rw [World.truncate, hp]
      dsimp only
      rw [hg]
      dsimp only
      rw [(cacheGet_none hg).1]
      exact (h₁.writeLock key).unlock key
    · obtain ⟨ha, hpin, hkey, hos, hval⟩ := h₁.cacheGet hg fun _ r hr =>
        hc.hasFile rfl hp hl (Looked.refl w₁) hr
      have hfst := (truncate_some hp hg (m : ℤ)).1
      rw [hfst, unlock_os, cacheRelease_os, cacheWriteBack_os] at hok
      rw [hfst]
      have hwl := ha.writeLock key
      -- what the handle has, and that it is to be written
      obtain ⟨r, hr, hs, hfile⟩ := hwl.live i (Or.inr hpin)
      have hmode : (wa.writeLock key).store.mode i = .write := by
        obtain ⟨s, hs', rfl⟩ := cacheGet_some hg
        show s.mode i = .write
        exact Store.get_mode_write hs'
      have hv : (wa.writeLock key).store.value i = r.value := hr.symm
      have hfound : w₁.store.lookup key = some r.value := by
        rw [← hv]
        exact hval
      have hthr : (wa.writeLock key).threshold_ = T := hwl.threshold
      suffices hb : Backed T base ((wa.writeLock key).truncated i m).1 by
        obtain ⟨hcache, -⟩ := ((wa.writeLock key).truncated_editsTo i m).cache
        have hpin' : 0 < ((wa.writeLock key).truncated i m).1.store.cache.pins i := by
          rw [hcache]
          exact hpin
        exact (hb.writtenBack hpin').unlock key
      by_cases hstay : r.header.has_blob = 1 → (wa.writeLock key).threshold_ < m
      · obtain ⟨hgrow, r', hput⟩ := truncated_puts hv hm (by rw [hthr]; exact hs)
          (hfile hmode) hstay hok
        refine hwl.edited hgrow hput.cache hput.threshold fun _ => ?_
        exact ⟨r', rfl, hthr ▸ hput.sized, fun _ => hput.hasFile⟩
      · rw [Classical.not_imp] at hstay
        obtain ⟨hblob, hle⟩ := hstay
        -- the disk file of the record is the one that goes
        have htakes : w.takes (.truncate path m) = some (key, r.path) := by
          show (w.pathLookup path).2.bind _ = _
          rw [hp]
          show (w.store.lookup key).bind _ = _
          rw [← hl.lookup, hfound, Option.bind_some, r.getInodeHeader_value, if_pos]
          · rfl
          · rw [hblob, h.threshold]
            refine ⟨by decide, ?_⟩
            omega
        have hun := (hc.takes key r.path htakes).looked hl
        obtain ⟨w₂, hg₁, hg₂, ht, r', hcache, hsz, hb⟩ := truncated_takes (n := m) hv hm
          (by rw [hthr]; exact hs) hblob (by omega)
        have hspare := hun.get hg
        refine hwl.unlinked (p := r.path) ⟨hspare.stored, hspare.waiting⟩ hg₁ hg₂ hcache ht
          fun _ => ?_
        exact ⟨r', rfl, hthr ▸ hsz, fun _ => InodeRecord.hasFile_of_inline hb⟩

/-- `Unlink` of a record whose disk file is not needed. -/
theorem Backed.unlink (h : Backed T base w) (hc : w.SparesData (.unlink path)) :
    Backed T base (w.unlink path).1 := by
  unfold World.unlink
  rcases hp : w.pathLookup path with ⟨w₁, _ | key⟩
  · exact (h.pathLookup hp).1
  · dsimp only
    obtain ⟨hb₁, hl⟩ := h.pathLookup hp
    have hl₁ : w.Looked (w₁.writeLock key) := hl.trans (looked_writeLock w₁ key)
    have h₁ := hb₁.writeLock key
    rcases hg : (w₁.writeLock key).cacheGet key .delete with ⟨w₂, _ | i⟩
    · dsimp only
      rw [(cacheGet_none hg).1]
      exact h₁.unlock key
    · obtain ⟨h₂, hpin, _, _, hval⟩ := h₁.cacheGet hg nofun
      dsimp only
      obtain ⟨w₃, hw₃⟩ : ∃ w₃, (if w₂.threshold_ < offT (w₂.iheader i).fstat.st_size then
          w₂.sysUnlink (getDiskFilePath (w₂.iheader i).fstat.st_ino) else w₂) = w₃ := ⟨_, rfl⟩
      have h₃ : Backed T base w₃ ∧ 0 < w₃.store.cache.pins i := by
        rw [← hw₃]
        split
        · rename_i hbig
          have hu := w₂.upToData_sysUnlink (getDiskFilePath (w₂.iheader i).fstat.st_ino)
          have htakes : w.takes (.unlink path)
              = some (key, getDiskFilePath (w₂.iheader i).fstat.st_ino) := by
            show (w.pathLookup path).2.bind _ = _
            rw [hp]
            show (w.store.lookup key).bind _ = _
            rw [← hl₁.lookup, hval, Option.bind_some, if_pos]
            · rfl
            · rw [h.threshold, ← h₂.threshold]
              exact hbig
          have hspare := ((hc.takes _ _ htakes).looked hl₁).get hg
          refine ⟨h₂.unlinked hspare (.refl _) (.refl _) (v := w₂.store.value i) ?_ hu.threshold
            fun hlive => ?_, by rwa [hu.cache]⟩
          · rw [hu.cache]
            exact congrArg (fun w : World => w.store.cache) (setValue_self w₂ i).symm
          · -- it is not to be written, so its own disk file may go
            obtain ⟨r, hr, hs, _⟩ := h₂.live i hlive
            refine ⟨r, hr, hs, fun hm => ?_⟩
            obtain ⟨s, hs', rfl⟩ := cacheGet_some hg
            rcases Store.get_mode hs' with hm' | ⟨hm', _⟩
            · have hdel : s.mode i = .write := hm
              rw [hm'] at hdel
              cases hdel
            · cases hm'
        · exact ⟨h₂, hpin⟩
      rw [hw₃]
      have h₄ := h₃.1.setDentry (w₃.dentry_cache.evict key)
      exact ((h₄.cacheRelease h₃.2).cacheEvict key).unlock key

/-! ## The rest of the calls -/

theorem Backed.removeDir (h : Backed T base w) (path : Bytes) :
    Backed T base (w.removeDir path).1 := by
  unfold World.removeDir
  rcases hp : w.pathLookup path with ⟨w₁, _ | key⟩
  · exact (h.pathLookup hp).1
  · dsimp only
    have h₁ := (h.pathLookup hp).1.writeLock key
    rcases hg : (w₁.writeLock key).cacheGet key .delete with ⟨w₂, _ | i⟩
    · dsimp only
      rw [(cacheGet_none hg).1]
      exact h₁.unlock key
    · obtain ⟨h₂, hpin, _⟩ := h₁.cacheGet hg nofun
      have h₃ := h₂.setDentry (w₂.dentry_cache.evict key)
      exact ((h₃.cacheRelease hpin).cacheEvict key).unlock key

/-- `Rename` puts the record under its new key, and its disk file is there. -/
theorem Backed.rename (h : Backed T base w) {new_path : Bytes} (hpath : GoodPath new_path)
    (hc : w.SparesData (.rename path new_path)) : Backed T base (w.rename path new_path).1 := by
  unfold World.rename
  rcases hp : w.pathLookup path with ⟨w₁, _ | old_key⟩
  · exact (h.pathLookup hp).1
  · dsimp only
    obtain ⟨hb₁, hl⟩ := h.pathLookup hp
    rcases hp' : w₁.pathLookup new_path with ⟨w₂, _ | new_key⟩
    · exact (hb₁.pathLookup hp').1
    · dsimp only
      obtain ⟨hb₂, hl'⟩ := hb₁.pathLookup hp'
      generalize lockOrder old_key new_key = order
      obtain ⟨large_key, small_key⟩ := order
      dsimp only
      have h₃ := (hb₂.writeLock large_key).writeLock small_key
      have hl₃ : w₁.Looked ((w₂.writeLock large_key).writeLock small_key) :=
        (hl'.trans (looked_writeLock _ _)).trans (looked_writeLock _ _)
      rcases hg : ((w₂.writeLock large_key).writeLock small_key).cacheGet old_key .delete
        with ⟨w₄, _ | i⟩
      · dsimp only
        rw [(cacheGet_none hg).1]
        exact (h₃.unlock small_key).unlock large_key
      · obtain ⟨h₄, hpin, _, hos, hval⟩ := h₃.cacheGet hg nofun
        obtain ⟨r, hr, hs, _⟩ := h₄.live i (Or.inr hpin)
        have hv : w₄.store.value i = r.value := hr.symm
        rw [hv] at hval
        have hfile : r.HasFile w₄.os.disk := by
          rw [hos]
          exact hc.hasFile rfl hp hl hl₃ hval
        have hshort := hpath.goodName.short
        have hname : (filenameOf new_path).length < 2 ^ 32 := by
          rw [hpath.filename]
          omega
        have h₅ : Backed T base (w₄.renameHandles i old_key new_key (filenameOf new_path)) := by
          have he := w₄.extends_renameHandles i old_key new_key (filenameOf new_path)
          rw [renameHandles, setStore_store] at he
          rw [renameHandles]
          refine h₄.setStore he (h₄.values.renames (ties_backing T _) hpin ?_)
          rw [hv, r.renameInodeValue_value _ hname]
          exact ⟨r.setName _ hname, rfl, hs.congr rfl rfl Iff.rfl rfl, hfile.congr fun _ hp => hp⟩
        exact ((h₅.setDentry _).unlock small_key).unlock large_key

theorem Backed.next (h : Backed T base w) (hT : 0 ≤ T ∧ T < 2 ^ 31) (ha : w.Accounted) {op : Op}
    (hwf : op.WellFormed) (hend : op.EndsInRange) (hok : w.FullIo op) (hc : w.SparesData op) :
    Backed T base (w.next op) := by
  cases op with
  | getAttr path => exact h.getAttr path
  | openFile path flags => exact h.openFile hc
  | read fh size offset => exact h.read fh size offset
  | write fh buf offset => exact h.write ha hT hwf.1 hend hok hc
  | fsync fh datasync => exact h.fsync fh datasync
  | release fh => exact h.release ha fh
  | truncate path n => exact h.truncate hwf hok hc
  | readlink path size => exact h.readlink path size
  | symlink target path => exact h.symlink hT.1 hwf target
  | unlink path => exact h.unlink hc
  | makeNode path mode dev => exact h.makeInode hT.1 hwf _ dev
  | makeDir path mode => exact h.makeInode hT.1 hwf _ 0
  | openDir path => exact h.openDir path
  | readDir handle filler =>
      have hsame : w.next (.readDir handle filler) = w := by
        show (w.readDir handle filler).1 = w
        unfold World.readDir
        dsimp only
        split
        · split <;> rfl
        · rfl
      rw [hsame]
      exact h
  | releaseDir handle => exact h.releaseDir ha handle
  | removeDir path => exact h.removeDir path
  | rename old_path new_path => exact h.rename hwf hc
  | access path mask => exact h
  | updateTimens path atime mtime =>
      exact h.editAttribute hc rfl _ true fun r _ => ⟨rfl, rfl, id⟩
  | chmod path mode =>
      refine h.editAttribute hc rfl _ true fun r hr => ⟨rfl, rfl, fun hreg => ?_⟩
      have htyped := hc.typed r.value hr hreg
      rwa [r.getInodeHeader_value] at htyped
  | chown path uid gid => exact h.editAttribute hc rfl _ false fun r _ => ⟨rfl, rfl, id⟩
  | evict key => exact h.evictUnpinned key
  | setEnv env => exact h.grows (.of_eq rfl rfl) rfl rfl
  | setFaults dbFaults ioFaults => exact h.grows (.of_eq rfl rfl) rfl rfl

/-! ## Mounts -/

/-- A mount of what is sound. -/
theorem mount_backed (hT : 0 ≤ T) (hb : base.Sound T) {cfg : MountConfig}
    (hcfg : cfg.threshold = T) : Backed T base (mount base cfg) := by
  obtain ⟨w₀, hw₀⟩ : ∃ w₀ : World, w₀ =
      { store := ⟨base.metadb, LruCache.empty, [], []⟩
        dentry_cache := DentryCache.empty 16384
        os := Os.fresh base.disk
        files := fun _ => none
        nextFile := 0
        dirs := []
        max_inode_num := 0
        threshold_ := cfg.threshold
        flag_fuse_enabled := false
        env := cfg.env } := ⟨_, rfl⟩
  have h₀ : Backed T base w₀ := by
    subst hw₀
    refine ⟨hcfg, ⟨rfl, Transition.always_nil.mpr hb⟩, fun i hi => ?_⟩
    rcases hi with hi | hi
    · exact absurd hi List.not_mem_nil
    · exact absurd hi (Nat.lt_irrefl 0)
  have hsetup : Backed T base (setup base cfg) := by
    unfold setup
    dsimp only
    rw [← hw₀]
    split
    · have hroot := h₀.grows (w₀.grows_commit (e := .writeRoot 0) trivial) rfl rfl
      exact hroot.grows (grows_commit _ (e := .mkdir 0) trivial) rfl rfl
    · subst hw₀
      exact h₀.grows (.of_eq rfl rfl) rfl rfl
  have h₁ : Backed T base { setup base cfg with flag_fuse_enabled := cfg.fuse } :=
    hsetup.grows (.of_eq rfl rfl) rfl rfl
  rw [mount, World.init]
  dsimp only
  split
  · obtain ⟨r, hr, _, hinline, hblob, hstat⟩ := initInodeValue_record
      { setup base cfg with flag_fuse_enabled := cfg.fuse } ROOT_INODE_ID cfg.st_mode cfg.st_dev
      [] [] (by decide)
    have hsize : r.size = 0 := by
      rw [InodeRecord.size, hstat]
      rfl
    refine h₁.dbPut ⟨r, hr, .small ?_ ?_ hblob fun _ => ?_, InodeRecord.hasFile_of_inline hblob⟩
    · rw [hsize]
      exact hT
    · rw [hsize]
      decide
    · rw [hinline, hsize]
      rfl
  · exact h₁

/-- What an unmount leaves is sound. -/
theorem Backed.destroy (h : Backed T base w) : w.destroy.durable.Sound T := by
  have hvals : (w.store.cleanAll w.tableByShard).Values (HandleOk T w.os.disk)
      (StoredOk T w.os.disk) (dbEvents w.store.log).length := by
    refine h.values.shrink (ties_backing T _) w.store.cache _ rfl rfl (fun _ hi => hi)
      fun i hi => ?_
    obtain ⟨_, _, hi⟩ := List.mem_flatMap.mp hi
    exact Or.inl (List.mem_filter.mp hi).1
  have hlog := h.log.extends (Store.extends_cleanAll w.store w.tableByShard) hvals.log
  have hroot := grows_commit (w.setStore (w.store.cleanAll w.tableByShard))
    (e := .writeRoot (w.max_inode_num.toNat % 2 ^ 32)) trivial
  exact (hlog.grows hroot).sound

end World

/-! ## Runs of the machine -/

/-- Whatever a crash leaves of a mount keeps its data, and what is left of the last one. -/
def Machine.KeepsData : Machine → Prop
  | .up base w => ∀ d ∈ crashPoints base w.store.log, d.KeepsData
  | .down d => d.KeepsData

/-- Mounts have the threshold `T`; calls are well formed, all that they ask of the data file
succeeds, and they spare the data. -/
def MachineOp.SparesData (T : ℤ) : Machine → MachineOp → Prop
  | .up _ w, .call op => op.WellFormed ∧ op.EndsInRange ∧ w.FullIo op ∧ w.SparesData op
  | .down _, .mount cfg => cfg.threshold = T
  | _, _ => True

/-- Everything that is durable, or has been at a point of the current mount, is sound. -/
def Machine.Backed (T : ℤ) : Machine → Prop
  | .up base w => World.Backed T base w ∧ w.Accounted
  | .down d => d.Sound T

theorem Machine.Backed.step {T : ℤ} (hT : 0 ≤ T ∧ T < 2 ^ 31) {m : Machine} (h : m.Backed T)
    {op : MachineOp} (hc : op.SparesData T m) : (m.step op).Backed T := by
  cases m with
  | down d =>
      cases op with
      | mount cfg => exact ⟨World.mount_backed hT.1 h hc, mount_accounted d cfg⟩
      | _ => exact h
  | up base w =>
      cases op with
      | call op =>
          obtain ⟨hwf, hend, hok, hspare⟩ := hc
          exact ⟨h.1.next hT h.2 hwf hend hok hspare, h.2.step op⟩
      | destroy => exact h.1.destroy
      | crash point => exact h.1.log.points.take point
      | mount cfg => exact h

theorem Machine.Backed.keepsData {T : ℤ} {m : Machine} (h : m.Backed T) : m.KeepsData := by
  cases m with
  | down d => exact Durable.Sound.keepsData h
  | up base w => exact fun d hd => (h.1.log.points d hd).keepsData

/-- From an empty disk, calls that spare the data leave only what is sound. -/
theorem machine_backed {T : ℤ} (hT : 0 ≤ T ∧ T < 2 ^ 31) {ops : List MachineOp}
    (h : (Machine.down Durable.empty).Meets (MachineOp.SparesData T) ops) :
    ((Machine.down Durable.empty).run ops).Backed T := by
  have h0 : (Machine.down Durable.empty).Backed T := by
    intro key v hv
    cases hv
  exact Transition.run_invariant (P := Machine.Backed T) (fun _ _ hm hc => hm.step hT hc) h0 h

/-- Over any number of mounts, crashes and unmounts, a crash at any point leaves every record
of a regular file with its data: the disk file of a record with a blob is there, and a record
without one has as many inline bytes as its size says. -/
theorem crashes_keep_data {T : ℤ} (hT : 0 ≤ T ∧ T < 2 ^ 31) {ops : List MachineOp}
    (h : (Machine.down Durable.empty).Meets (MachineOp.SparesData T) ops) :
    ((Machine.down Durable.empty).run ops).KeepsData := (machine_backed hT h).keepsData

/-- What spares the data and can be computed: the call takes no disk file away. -/
def MachineOp.TakesNothing (T : ℤ) : Machine → MachineOp → Prop
  | .up _ w, .call op => op.WellFormed ∧ op.EndsInRange ∧ w.FullIo op ∧ w.takes op = none ∧
      (∀ v ∈ w.marked op, ∀ p ∈ World.blobOf v, w.os.disk.names p ≠ none) ∧ w.KeepsType op
  | .down _, .mount cfg => cfg.threshold = T
  | _, _ => True

instance World.instDecidableKeepsType (w : World) : (op : Op) → Decidable (w.KeepsType op)
  | .chmod path mode => inferInstanceAs (Decidable (∀ v ∈ w.found path, isReg mode = true →
      isReg (getInodeHeader v).fstat.st_mode = true))
  | .getAttr _ | .openFile _ _ | .read _ _ _ | .write _ _ _ | .fsync _ _ | .release _
  | .truncate _ _ | .readlink _ _ | .symlink _ _ | .unlink _ | .makeNode _ _ _ | .makeDir _ _
  | .openDir _ | .readDir _ _ | .releaseDir _ | .removeDir _ | .rename _ _ | .access _ _
  | .updateTimens _ _ _ | .chown _ _ _ | .evict _ | .setEnv _ | .setFaults _ _ =>
      inferInstanceAs (Decidable True)

instance : DecidablePred Op.EndsInRange := fun op => match op with
  | .write _ buf offset => inferInstanceAs (Decidable (offset + buf.length < 2 ^ 63))
  | .getAttr _ | .openFile _ _ | .read _ _ _ | .fsync _ _ | .release _ | .truncate _ _
  | .readlink _ _ | .symlink _ _ | .unlink _ | .makeNode _ _ _ | .makeDir _ _ | .openDir _
  | .readDir _ _ | .releaseDir _ | .removeDir _ | .rename _ _ | .access _ _ | .updateTimens _ _ _
  | .chmod _ _ | .chown _ _ _ | .evict _ | .setEnv _ | .setFaults _ _ =>
      inferInstanceAs (Decidable True)

instance MachineOp.instDecidableTakesNothing (T : ℤ) :
    (m : Machine) → (op : MachineOp) → Decidable (op.TakesNothing T m)
  | .up _ w, .call op => inferInstanceAs (Decidable (op.WellFormed ∧ op.EndsInRange ∧
      w.FullIo op ∧ w.takes op = none ∧
      (∀ v ∈ w.marked op, ∀ p ∈ World.blobOf v, w.os.disk.names p ≠ none) ∧ w.KeepsType op))
  | .down _, .mount cfg => inferInstanceAs (Decidable (cfg.threshold = T))
  | .up _ _, .mount _ | .up _ _, .destroy | .up _ _, .crash _ | .down _, .call _
  | .down _, .destroy | .down _, .crash _ => inferInstanceAs (Decidable True)

theorem meets_sparesData {T : ℤ} {m : Machine} {ops : List MachineOp}
    (h : m.Meets (MachineOp.TakesNothing T) ops) : m.Meets (MachineOp.SparesData T) ops := by
  refine h.mono fun m op hc => ?_
  cases m with
  | down d => cases op <;> exact hc
  | up base w =>
      cases op with
      | call op =>
          obtain ⟨hwf, hend, hok, ht, hm, hty⟩ := hc
          refine ⟨hwf, hend, hok, fun key p h => ?_, hm, hty⟩
          rw [ht] at h
          cases h
      | _ => trivial

/-- A file is made, written, closed, renamed and made longer, the process dies, and the next
one writes to the file. -/
def sparingRun : List MachineOp :=
  [.mount World.smallConfig, .call (.makeNode [47, 97] 0 0), .call (.openFile [47, 97] O_RDWR),
    .call (.write 0 [1, 2, 3, 4, 5] 0), .call (.release 0), .call (.rename [47, 97] [47, 98]),
    .call (.truncate [47, 98] 9), .crash 100, .mount World.smallConfig,
    .call (.openFile [47, 98] O_RDWR), .call (.write 0 [6, 7] 8)]

theorem sparingRun_keeps_data : ((Machine.down Durable.empty).run sparingRun).KeepsData :=
  crashes_keep_data (T := 4) (by decide) (meets_sparesData (by decide +kernel))

end Tablefs
