/-
What one call does to the name space.

`Effect` lists the ways in which a call changes the metadata store, the caches and
the open handles; `Performs w op e` says which of them a call `op` can make in `w`,
and `step_effect` that every step is a lookup followed by such an effect, up to
data files and the log. An invariant of the name space is proved once for each
effect and holds along every run by that theorem.
-/
import Tablefs.Frame

set_option autoImplicit false

namespace Tablefs

open ByteString

/-! ## Well-formed calls -/

/-- What FUSE promises about a call: offsets and sizes are an `off_t`'s
non-negative values, and a path that names a new record has a last component. -/
def Op.WellFormed : Op → Prop
  | .read _ _ offset => 0 ≤ offset ∧ offset < 2 ^ 63
  | .write _ _ offset => 0 ≤ offset ∧ offset < 2 ^ 63
  | .truncate _ new_size => 0 ≤ new_size ∧ new_size < 2 ^ 63
  | .symlink _ path => GoodPath path
  | .makeNode path _ _ => GoodPath path
  | .makeDir path _ => GoodPath path
  | .rename _ new_path => GoodPath new_path
  | _ => True

instance : DecidablePred Op.WellFormed := fun op => match op with
  | .read _ _ offset => inferInstanceAs (Decidable (0 ≤ offset ∧ offset < 2 ^ 63))
  | .write _ _ offset => inferInstanceAs (Decidable (0 ≤ offset ∧ offset < 2 ^ 63))
  | .truncate _ new_size => inferInstanceAs (Decidable (0 ≤ new_size ∧ new_size < 2 ^ 63))
  | .symlink _ path | .makeNode path _ _ | .makeDir path _ | .rename _ path =>
      inferInstanceAs (Decidable (GoodPath path))
  | .getAttr _ | .openFile _ _ | .fsync _ _ | .release _ | .readlink _ _ | .unlink _ | .openDir _
  | .readDir _ _ | .releaseDir _ | .removeDir _ | .access _ _ | .updateTimens _ _ _ | .chmod _ _
  | .chown _ _ _ | .evict _ | .setEnv _ | .setFaults _ _ => inferInstanceAs (Decidable True)

/-! ## Edits of a record -/

/-- An edit of a value that keeps the name and the inode number of its record. -/
def Edited (old new : Bytes) : Prop :=
  ∀ r : InodeRecord, r.value = old →
    ∃ r' : InodeRecord, r'.value = new ∧ r'.name = r.name ∧
      r'.header.fstat.st_ino = r.header.fstat.st_ino

namespace Edited

theorem refl (v : Bytes) : Edited v v := fun r hr => ⟨r, hr, rfl, rfl⟩

theorem trans {u v w : Bytes} (h : Edited u v) (h' : Edited v w) : Edited u w := by
  intro r hr
  obtain ⟨r', hr', hn, hi⟩ := h r hr
  obtain ⟨r'', hr'', hn', hi'⟩ := h' r' hr'
  exact ⟨r'', hr'', hn'.trans hn, hi'.trans hi⟩

theorem updateAttribute (v : Bytes) (f : Stat → Stat) (hf : ∀ s, (f s).st_ino = s.st_ino) :
    Edited v (updateAttribute v (f (getAttribute v))) := by
  rintro r rfl
  refine ⟨r.setStat (f r.header.fstat), ?_, rfl, hf _⟩
  rw [r.getAttribute_value, r.updateAttribute_value]

theorem withSizeBlob (v : Bytes) (n : UInt64) (b : UInt32) :
    Edited v (updateInodeHeader v ((getInodeHeader v).withSizeBlob n b)) := by
  rintro r rfl
  refine ⟨r.setBlob { r.header.fstat with st_size := n } b, ?_, rfl, rfl⟩
  rw [r.getInodeHeader_value, ← r.updateInodeHeader_value]; rfl

theorem withSize (v : Bytes) (n : UInt64) :
    Edited v (updateInodeHeader v ((getInodeHeader v).withSize n)) :=
  withSizeBlob v n (getInodeHeader v).has_blob

theorem dropInlineData (v : Bytes) : Edited v (dropInlineData v) := by
  rintro r rfl
  exact ⟨r.setInline [], r.dropInlineData_value.symm, rfl, rfl⟩

theorem updateInlineData (v buf : Bytes) (offset : ℕ) (h : offset < 2 ^ 63) :
    Edited v (updateInlineData v buf offset) := by
  rintro r rfl
  have := r.dataStart_lt
  exact ⟨_, (r.updateInlineData_value buf offset (by omega)).symm, rfl, rfl⟩

theorem truncateInlineData (v : Bytes) (n : ℕ) (h : n < 2 ^ 63) :
    Edited v (truncateInlineData v n) := by
  rintro r rfl
  have := r.dataStart_lt
  exact ⟨_, (r.truncateInlineData_value n (by omega)).symm, rfl, rfl⟩

end Edited

theorem sizeT_lt {x : ℤ} (h0 : 0 ≤ x) (h : x < 2 ^ 63) : sizeT x < 2 ^ 63 := by
  rw [sizeT]; omega

/-! ## Effects -/

/-- The changes of the name space that calls make. -/
inductive Effect
  /-- nothing -/
  | idle
  /-- a handle is taken from the cache and given back -/
  | touch (key : MetaKey) (mode : InodeAccessMode)
  /-- `Open` succeeded -/
  | openFile (key : MetaKey) (flags : OpenFlags) (fd : ℤ)
  /-- `OpenDir` succeeded -/
  | openDir (key : MetaKey)
  /-- `Read` opened the disk file -/
  | setFd (fh : ℕ) (fd : ℤ)
  /-- `Write` -/
  | write (fh : ℕ) (value : Bytes) (fd : ℤ)
  /-- `Release`, with the value the handle has when it is written back -/
  | close (fh : ℕ) (value : Bytes)
  /-- `ReleaseDir` -/
  | closeDir (handle : ℕ)
  /-- a record gets a new value and is written back -/
  | edit (key : MetaKey) (value : Bytes)
  /-- a record is stored under a key, with a new inode number -/
  | create (key : MetaKey) (value : Bytes)
  /-- `Unlink` and `RemoveDir` -/
  | remove (key : MetaKey)
  /-- `Rename` -/
  | move (old_key new_key : MetaKey) (filename : Bytes)
  /-- the cache drops an entry -/
  | evict (key : MetaKey)
  /-- `LevelDBAdaptor::Sync` -/
  | sync
  | setEnv (env : Env)
  | setFaults (dbFaults : List Bool)

namespace World

/-- The state after an effect. -/
def perform (w : World) : Effect → World
  | .idle => w
  | .touch key mode =>
      match w.cacheGet key mode with
      | (w, some handle) => w.cacheRelease handle
      | (w, none) => w
  | .openFile key flags fd =>
      match w.cacheGet key (openMode flags) with
      | (w, some handle) => w.addFile ⟨handle, flags, fd⟩
      | (w, none) => w
  | .openDir key =>
      match w.cacheGet key .read with
      | (w, some handle) => w.setDirs (handle :: w.dirs)
      | (w, none) => w
  | .setFd fh fd =>
      match w.files fh with
      | some f => w.setFd fh f fd
      | none => w
  | .write fh value fd =>
      match w.files fh with
      | some f => ((w.setMode f.handle_ .write).setValue f.handle_ value).setFd fh f fd
      | none => w
  | .close fh value =>
      match w.files fh with
      | some f =>
          ((((w.setValue f.handle_ value).cacheWriteBack f.handle_).cacheRelease
            f.handle_).cacheEvict (w.store.keyOf f.handle_)).deleteFile fh
      | none => w
  | .closeDir handle => (w.cacheRelease handle).setDirs (w.dirs.erase handle)
  | .edit key value =>
      match w.cacheGet key .write with
      | (w, some handle) =>
          ((w.setValue handle value).cacheWriteBack handle).cacheRelease handle
      | (w, none) => w
  | .create key value =>
      { w with max_inode_num := w.max_inode_num + 1 }.setStore (w.store.dbPut key value).1
  | .remove key =>
      match w.cacheGet key .delete with
      | (w, some handle) =>
          ((w.setDentry (w.dentry_cache.evict key)).cacheRelease handle).cacheEvict key
      | (w, none) => w
  | .move old_key new_key filename =>
      match w.cacheGet old_key .delete with
      | (w, some handle) =>
          let w := w.renameHandles handle old_key new_key filename
          w.setDentry ((w.dentry_cache.evict old_key).evict new_key)
      | (w, none) => w
  | .evict key => w.cacheEvict key
  | .sync => w.setStore w.store.dbSync.1
  | .setEnv env => { w with env := env }
  | .setFaults dbFaults => w.setStore { w.store with dbFaults := dbFaults }

/-- The effects a call can have. -/
inductive Performs (w : World) : Op → Effect → Prop
  | idle (op : Op) : Performs w op .idle
  | getAttr {path : Bytes} {key : MetaKey} (hk : (w.pathLookup path).2 = some key) :
      Performs w (.getAttr path) (.touch key .read)
  | openFile {path : Bytes} {flags : OpenFlags} {key : MetaKey} (fd : ℤ)
      (hk : (w.pathLookup path).2 = some key) :
      Performs w (.openFile path flags) (.openFile key flags fd)
  | openFail {path : Bytes} {flags : OpenFlags} {key : MetaKey}
      (hk : (w.pathLookup path).2 = some key) :
      Performs w (.openFile path flags) (.touch key (openMode flags))
  | read {fh size : ℕ} {offset : ℤ} (fd : ℤ) : Performs w (.read fh size offset) (.setFd fh fd)
  | write {fh : ℕ} {buf : Bytes} {offset : ℤ} {f : FileHandle} {value : Bytes} (fd : ℤ)
      (hf : w.files fh = some f)
      (he : (Op.write fh buf offset).WellFormed → Edited (w.store.value f.handle_) value) :
      Performs w (.write fh buf offset) (.write fh value fd)
  | fsync {fh : ℕ} {datasync : Bool} : Performs w (.fsync fh datasync) .sync
  | release {fh : ℕ} {f : FileHandle} {value : Bytes} (hf : w.files fh = some f)
      (he : Edited (w.store.value f.handle_) value) :
      Performs w (.release fh) (.close fh value)
  | truncate {path : Bytes} {new_size : ℤ} {key : MetaKey} {old value : Bytes}
      (hk : (w.pathLookup path).2 = some key) (ho : w.store.lookup key = some old)
      (he : (Op.truncate path new_size).WellFormed → Edited old value) :
      Performs w (.truncate path new_size) (.edit key value)
  | symlink {target path : Bytes} {key : MetaKey} (hk : (w.pathLookup path).2 = some key) :
      Performs w (.symlink target path) (.create key
        (w.initInodeValue (w.max_inode_num + 1) S_IFLNK 0 (filenameOf path) target))
  | unlink {path : Bytes} {key : MetaKey} (hk : (w.pathLookup path).2 = some key) :
      Performs w (.unlink path) (.remove key)
  | makeNode {path : Bytes} {mode : UInt32} {dev : UInt64} {key : MetaKey}
      (hk : (w.pathLookup path).2 = some key) :
      Performs w (.makeNode path mode dev) (.create key
        (w.initInodeValue (w.max_inode_num + 1) (mode ||| S_IFREG) dev (filenameOf path) []))
  | makeDir {path : Bytes} {mode : UInt32} {key : MetaKey}
      (hk : (w.pathLookup path).2 = some key) :
      Performs w (.makeDir path mode) (.create key
        (w.initInodeValue (w.max_inode_num + 1) (mode ||| S_IFDIR) 0 (filenameOf path) []))
  | openDir {path : Bytes} {key : MetaKey} (hk : (w.pathLookup path).2 = some key) :
      Performs w (.openDir path) (.openDir key)
  | releaseDir {handle : ℕ} (hh : handle ∈ w.dirs) :
      Performs w (.releaseDir handle) (.closeDir handle)
  | removeDir {path : Bytes} {key : MetaKey} (hk : (w.pathLookup path).2 = some key) :
      Performs w (.removeDir path) (.remove key)
  | rename {old_path new_path : Bytes} {old_key new_key : MetaKey}
      (ho : (w.pathLookup old_path).2 = some old_key)
      (hn : ((w.pathLookup old_path).1.pathLookup new_path).2 = some new_key) :
      Performs w (.rename old_path new_path) (.move old_key new_key (filenameOf new_path))
  | updateTimens {path : Bytes} {atime mtime : UInt64} {key : MetaKey} {old value : Bytes}
      (hk : (w.pathLookup path).2 = some key) (ho : w.store.lookup key = some old)
      (he : Edited old value) : Performs w (.updateTimens path atime mtime) (.edit key value)
  | chmod {path : Bytes} {mode : UInt32} {key : MetaKey} {old value : Bytes}
      (hk : (w.pathLookup path).2 = some key) (ho : w.store.lookup key = some old)
      (he : Edited old value) : Performs w (.chmod path mode) (.edit key value)
  | chown {path : Bytes} {uid gid : UInt32} {key : MetaKey} {old value : Bytes}
      (hk : (w.pathLookup path).2 = some key) (ho : w.store.lookup key = some old)
      (he : Edited old value) : Performs w (.chown path uid gid) (.edit key value)
  | evict {key : MetaKey} {i : ℕ} (hf : w.store.cache.find key = some i)
      (hp : w.store.cache.pins i = 0) : Performs w (.evict key) (.evict key)
  | setEnv (env : Env) : Performs w (.setEnv env) (.setEnv env)
  | setFaults (dbFaults : List Bool) (ioFaults : List IoOutcome) :
      Performs w (.setFaults dbFaults ioFaults) (.setFaults dbFaults)

/-- `w'` comes from `w` by a lookup and an effect of `op`. -/
def Steps (w : World) (op : Op) (w' : World) : Prop :=
  ∃ w₁ e, w.Looked w₁ ∧ (w.DentryCoherent → w₁.DentryCoherent) ∧ w.Performs op e ∧
    (w₁.perform e).UpToData w'

theorem steps_idle {w : World} (op : Op) {w₁ w' : World} (hl : w.Looked w₁)
    (hc : w.DentryCoherent → w₁.DentryCoherent) (h : w₁.UpToData w') : w.Steps op w' :=
  ⟨w₁, .idle, hl, hc, .idle op, h⟩

/-- `w'` comes from `w` by an effect of `op`, without a lookup. -/
def Acts (w : World) (op : Op) (w' : World) : Prop :=
  ∃ e, w.Performs op e ∧ (w.perform e).UpToData w'

theorem Acts.steps {w : World} {op : Op} {w' : World} (h : w.Acts op w') : w.Steps op w' := by
  obtain ⟨e, hp, hu⟩ := h
  exact ⟨w, e, Looked.refl w, id, hp, hu⟩

theorem acts_idle {w : World} (op : Op) {w' : World} (h : w.UpToData w') : w.Acts op w' :=
  ⟨.idle, .idle op, h⟩

/-- A path that is not found leaves only the lookup behind; one that is found
leaves the rest of the call. -/
theorem steps_of_lookup {w : World} {op : Op} (path : Bytes) {w' : World}
    (hnone : ∀ w₁, w.pathLookup path = (w₁, none) → w₁.UpToData w')
    (hsome : ∀ w₁ key, w.pathLookup path = (w₁, some key) → w.Looked w₁ →
      ∃ e, w.Performs op e ∧ (w₁.perform e).UpToData w') : w.Steps op w' := by
  have hl := w.pathLookup_looked path
  have hc := fun hw : w.DentryCoherent => (pathLookup_eq hw path).2
  rcases hp : w.pathLookup path with ⟨w₁, _ | key⟩
  · rw [hp] at hl hc
    exact steps_idle op hl hc (hnone w₁ hp)
  · rw [hp] at hl hc
    obtain ⟨e, he, hu⟩ := hsome w₁ key hp hl
    exact ⟨w₁, e, hl, hc, he, hu⟩

theorem cacheGet_none {w w' : World} {k : MetaKey} {m : InodeAccessMode}
    (h : w.cacheGet k m = (w', none)) : w' = w ∧ w.store.lookup k = none := by
  simp only [cacheGet, Prod.mk.injEq] at h
  obtain ⟨rfl, hn⟩ := h
  obtain ⟨hs, hl⟩ := Store.get_none_iff (s := w.store) (Prod.ext rfl hn)
  exact ⟨congrArg w.setStore hs, hl⟩

/-- A handle that `Get` returned, as a step of the store. -/
theorem cacheGet_some {w w' : World} {k : MetaKey} {m : InodeAccessMode} {i : ℕ}
    (h : w.cacheGet k m = (w', some i)) :
    ∃ s, w.store.get k m = (s, some i) ∧ w' = w.setStore s := by
  simp only [cacheGet, Prod.mk.injEq] at h
  exact ⟨_, Prod.ext rfl h.2, h.1.symm⟩

theorem cacheGet_lookup {w w' : World} {k : MetaKey} {m : InodeAccessMode} {i : ℕ}
    (h : w.cacheGet k m = (w', some i)) : w.store.lookup k = some (w'.store.value i) := by
  obtain ⟨s, hs, rfl⟩ := cacheGet_some h
  exact Store.get_lookup hs

theorem getAttr_steps (w : World) (path : Bytes) :
    w.Steps (.getAttr path) (w.getAttr path).1 := by
  refine steps_of_lookup path ?_ ?_
  · intro w₁ hp
    rw [getAttr, hp]
    exact UpToData.refl w₁
  · intro w₁ key hp _
    refine ⟨.touch key .read, .getAttr (by rw [hp]), ?_⟩
    rw [getAttr, hp]
    rcases (w₁.upToData_readLock key).cacheGet key .read with
      ⟨wa, wb, ha, hb, hu⟩ | ⟨wa, wb, handle, ha, hb, hu⟩
    · simp only [perform, ha, hb]
      exact hu.trans (upToData_unlock _ _)
    · simp only [perform, ha, hb]
      exact (hu.cacheRelease handle).trans (upToData_unlock _ _)

theorem openFile_steps (w : World) (path : Bytes) (flags : OpenFlags) :
    w.Steps (.openFile path flags) (w.openFile path flags).1 := by
  refine steps_of_lookup path ?_ ?_
  · intro w₁ hp
    rw [openFile, hp]
    exact UpToData.refl w₁
  · intro w₁ key hp _
    have hk : (w.pathLookup path).2 = some key := by rw [hp]
    rw [openFile, hp]
    dsimp only
    rcases (w₁.upToData_writeLock key).cacheGet key (openMode flags) with
      ⟨wa, wb, ha, hb, hu⟩ | ⟨wa, wb, handle, ha, hb, hu⟩
    · refine ⟨.touch key (openMode flags), .openFail hk, ?_⟩
      simp only [perform, ha, hb]
      exact hu.trans (upToData_unlock _ _)
    · simp only [hb]
      split
      · have ho := hu.trans (wb.upToData_sysOpen (getDiskFilePath
          (wb.iheader handle).fstat.st_ino) flags true)
        split
        · refine ⟨.touch key (openMode flags), .openFail hk, ?_⟩
          simp only [perform, ha]
          exact (ho.cacheRelease handle).trans (upToData_unlock _ _)
        · refine ⟨_, .openFile (wb.openDiskFile (wb.iheader handle) flags).2 hk, ?_⟩
          simp only [perform, ha]
          exact (ho.addFile _).trans (upToData_unlock _ _)
      · refine ⟨_, .openFile (-1) hk, ?_⟩
        simp only [perform, ha]
        exact (hu.addFile _).trans (upToData_unlock _ _)

theorem openDir_steps (w : World) (path : Bytes) :
    w.Steps (.openDir path) (w.openDir path).1 := by
  refine steps_of_lookup path ?_ ?_
  · intro w₁ hp
    rw [openDir, hp]
    exact UpToData.refl w₁
  · intro w₁ key hp _
    refine ⟨.openDir key, .openDir (by rw [hp]), ?_⟩
    rw [openDir, hp]
    dsimp only
    rcases (w₁.upToData_readLock key).cacheGet key .read with
      ⟨wa, wb, ha, hb, hu⟩ | ⟨wa, wb, handle, ha, hb, hu⟩
    · simp only [perform, ha, hb]
      exact hu.trans (upToData_unlock _ _)
    · simp only [perform, ha, hb]
      exact (hu.consDirs handle).trans (upToData_unlock _ _)

/-! ### Edits of a handle's value -/

@[simp] theorem setValue_value (w : World) (i : ℕ) (v : Bytes) :
    (w.setValue i v).store.value i = v := by
  simp only [setValue, setStore, Store.value, Store.setValue, LruCache.setVal_val,
    Function.update_self]

@[simp] theorem setValue_setValue (w : World) (i : ℕ) (v v' : Bytes) :
    (w.setValue i v).setValue i v' = w.setValue i v' := by
  simp only [setValue, setStore, Store.setValue, LruCache.setVal, Function.update_self,
    Function.update_idem]

@[simp] theorem setValue_self (w : World) (i : ℕ) :
    w.setValue i (w.store.value i) = w := by
  simp only [setValue, setStore, Store.setValue, Store.value, LruCache.setVal,
    Function.update_eq_self]

theorem setFd_self {w : World} {fh : ℕ} {f : FileHandle} (hf : w.files fh = some f) :
    w.setFd fh f f.fd_ = w := by
  rw [setFd, setFiles, ← hf, Function.update_eq_self]

theorem UpToData.value {w w' : World} (h : w.UpToData w') (i : ℕ) :
    w'.store.value i = w.store.value i := by
  obtain ⟨_, _, _, rfl⟩ := h
  rfl

/-- Up to data, `w'` is `w` after an edit of the value of `handle`; the edit keeps
name and inode number when `P` holds. -/
def EditsTo (P : Prop) (w : World) (handle : ℕ) (w' : World) : Prop :=
  ∃ v, (P → Edited (w.store.value handle) v) ∧ (w.setValue handle v).UpToData w'

theorem UpToData.editsTo {P : Prop} {w w' : World} (h : w.UpToData w') (handle : ℕ) :
    w.EditsTo P handle w' :=
  ⟨w.store.value handle, fun _ => Edited.refl _, by rwa [setValue_self]⟩

theorem editsTo_setValue {P : Prop} {w : World} {handle : ℕ} {v : Bytes}
    (h : P → Edited (w.store.value handle) v) : w.EditsTo P handle (w.setValue handle v) :=
  ⟨v, h, UpToData.refl _⟩

theorem EditsTo.trans {P : Prop} {w w' w'' : World} {handle : ℕ} (h : w.EditsTo P handle w')
    (h' : w'.EditsTo P handle w'') : w.EditsTo P handle w'' := by
  obtain ⟨v, he, hu⟩ := h
  obtain ⟨v', he', hu'⟩ := h'
  have hv : w'.store.value handle = v := by rw [hu.value, setValue_value]
  refine ⟨v', fun hp => (he hp).trans (hv ▸ he' hp), ?_⟩
  have := hu.setValue handle v'
  rw [setValue_setValue] at this
  exact this.trans hu'

theorem migrateToDiskFile_editsTo {P : Prop} (w : World) (handle : ℕ) (fd : ℤ)
    (flags : OpenFlags) : w.EditsTo P handle (w.migrateToDiskFile handle fd flags).1 := by
  have hclose : w.UpToData (if 0 ≤ fd then (w.sysClose fd).1 else w) := by
    split
    · exact upToData_sysClose w fd
    · exact UpToData.refl w
  unfold migrateToDiskFile
  dsimp only
  generalize (if 0 ≤ fd then (w.sysClose fd).1 else w) = wc at hclose ⊢
  have hopen : w.UpToData (wc.openDiskFile (w.iheader handle) flags).1 :=
    hclose.trans (upToData_sysOpen _ _ _ _)
  split
  · exact hopen.editsTo handle
  · split
    · exact ((hopen.trans (upToData_sysPwrite _ _ _ _)).editsTo handle).trans
        (editsTo_setValue fun _ => Edited.dropInlineData _)
    · exact hopen.editsTo handle

theorem migrateDiskFileToBuffer_upToData (w : World) (inode_id : UInt64) (buffer : Bytes) :
    w.UpToData (w.migrateDiskFileToBuffer inode_id buffer).1 :=
  (((upToData_sysOpen _ _ _ _).trans (upToData_sysPread _ _ _ _)).trans
    (upToData_sysClose _ _)).trans (upToData_sysUnlink _ _)

theorem truncateMigrate_editsTo {P : Prop} (w : World) (handle : ℕ) (new_size : ℤ) :
    w.EditsTo P handle (w.truncateMigrate handle new_size).1 := by
  have hm := w.migrateToDiskFile_editsTo (P := P) handle w.env.junkInt ⟨.wrOnly, true⟩
  unfold truncateMigrate
  dsimp only
  split
  · refine hm.trans (UpToData.editsTo (UpToData.trans ?_ (upToData_sysClose _ _)) handle)
    split
    · exact (upToData_sysFtruncate _ _ _).trans (upToData_sysFsync _ _)
    · exact upToData_sysFtruncate _ _ _
  · exact hm

theorem truncateData_editsTo (w : World) (handle : ℕ) (new_size : ℤ) :
    w.EditsTo (0 ≤ new_size ∧ new_size < 2 ^ 63) handle
      (w.truncateData handle new_size).1 := by
  unfold truncateData
  dsimp only
  split
  · split
    · exact (upToData_sysTruncate _ _ _).editsTo handle
    · exact ((migrateDiskFileToBuffer_upToData _ _ _).editsTo handle).trans
        (editsTo_setValue fun _ => Edited.updateInlineData _ _ _ (by omega))
  · split
    · exact truncateMigrate_editsTo w handle new_size
    · exact editsTo_setValue fun h => Edited.truncateInlineData _ _ (sizeT_lt h.1 h.2)

/-- A call that takes a handle for writing, edits its value, writes it back and
gives it up. -/
theorem EditsTo.perform {P : Prop} {w₁ wa w' : World} {key : MetaKey} {handle : ℕ}
    (hg : w₁.cacheGet key .write = (wa, some handle)) (h : wa.EditsTo P handle w') :
    ∃ v, (P → Edited (wa.store.value handle) v) ∧
      (w₁.perform (.edit key v)).UpToData ((w'.cacheWriteBack handle).cacheRelease handle) := by
  obtain ⟨v, he, hu⟩ := h
  refine ⟨v, he, ?_⟩
  simp only [World.perform, hg]
  exact (hu.cacheWriteBack handle).cacheRelease handle

theorem truncate_steps (w : World) (path : Bytes) (new_size : ℤ) :
    w.Steps (.truncate path new_size) (w.truncate path new_size).1 := by
  refine steps_of_lookup path ?_ ?_
  · intro w₁ hp
    rw [truncate, hp]
    exact UpToData.refl w₁
  · intro w₁ key hp hl
    have hk : (w.pathLookup path).2 = some key := by rw [hp]
    rw [truncate, hp]
    dsimp only
    rcases hg : w₁.cacheGet key .write with ⟨wa, _ | handle⟩
    · obtain ⟨rfl, _⟩ := cacheGet_none hg
      exact ⟨.idle, .idle _, (upToData_writeLock _ _).trans (upToData_unlock _ _)⟩
    · have hlookup : w.store.lookup key = some (wa.store.value handle) := by
        rw [← hl.lookup, cacheGet_lookup hg]
      have hdata := ((upToData_writeLock wa key).editsTo handle).trans
        (truncateData_editsTo (wa.writeLock key) handle new_size)
      have hhdr : wa.EditsTo (0 ≤ new_size ∧ new_size < 2 ^ 63) handle
          (if new_size ≠ offT ((wa.writeLock key).iheader handle).fstat.st_size then
            ((wa.writeLock key).truncateData handle new_size).1.setHeader handle
              ((((wa.writeLock key).truncateData handle new_size).1.iheader handle).withSizeBlob
                (ofOffT new_size)
                (if ((wa.writeLock key).truncateData handle new_size).1.threshold_ < new_size
                  then 1 else 0))
          else ((wa.writeLock key).truncateData handle new_size).1) := by
        split
        · exact hdata.trans (editsTo_setValue fun _ => Edited.withSizeBlob _ _ _)
        · exact hdata
      obtain ⟨v, he, hu⟩ := hhdr.perform hg
      exact ⟨.edit key v, .truncate hk hlookup he, hu.trans (upToData_unlock _ _)⟩

/-! ### Read, Write, Release -/

theorem ensureFd_upToData {w : World} {fh : ℕ} {f : FileHandle} (hf : w.files fh = some f)
    (iheader : InodeHeader) :
    (w.setFd fh f (w.ensureFd fh f iheader).2).UpToData (w.ensureFd fh f iheader).1 := by
  unfold ensureFd
  split
  · exact UpToData.setFd (upToData_sysOpen _ _ _ _) fh f _
  · rw [setFd_self hf]; exact UpToData.refl w

theorem read_acts (w : World) (fh size : ℕ) (offset : ℤ) :
    w.Acts (.read fh size offset) (w.read fh size offset).1 := by
  have idle : ∀ w', w.UpToData w' → w.Acts (.read fh size offset) w' :=
    fun w' h => acts_idle _ h
  unfold read
  cases hf : w.files fh with
  | none => exact idle _ (UpToData.refl w)
  | some f =>
      have hlock := upToData_readLock w (w.store.keyOf f.handle_)
      dsimp only
      split
      · generalize hi : (w.readLock (w.store.keyOf f.handle_)).iheader f.handle_ = ih
        have he := ensureFd_upToData (w := w.readLock (w.store.keyOf f.handle_)) hf ih
        generalize (w.readLock (w.store.keyOf f.handle_)).ensureFd fh f ih = e at he ⊢
        have hu := (hlock.setFd fh f e.2).trans he
        refine ⟨.setFd fh e.2, .read e.2, ?_⟩
        simp only [perform, hf]
        split
        · exact hu.trans (upToData_unlock _ _)
        · exact (hu.trans (upToData_sysPread _ _ _ _)).trans (upToData_unlock _ _)
      · exact idle _ (hlock.trans (upToData_unlock _ _))

/-- Up to data, `w'` is `w` after `Write` on `fh` edited the value of its handle
and chose a descriptor. -/
def WritesTo (P : Prop) (w : World) (fh : ℕ) (f : FileHandle) (w' : World) : Prop :=
  ∃ fd v, (P → Edited (w.store.value f.handle_) v) ∧
    ((w.setValue f.handle_ v).setFd fh f fd).UpToData w'

theorem WritesTo.trans_editsTo {P : Prop} {w w' w'' : World} {fh : ℕ} {f : FileHandle}
    (h : w.WritesTo P fh f w') (h' : w'.EditsTo P f.handle_ w'') : w.WritesTo P fh f w'' := by
  obtain ⟨fd, v, he, hu⟩ := h
  obtain ⟨v', he', hu'⟩ := h'
  have hv : w'.store.value f.handle_ = v := by
    rw [hu.value]; exact setValue_value w f.handle_ v
  refine ⟨fd, v', fun hp => (he hp).trans (hv ▸ he' hp), ?_⟩
  have := hu.setValue f.handle_ v'
  rw [show ((w.setValue f.handle_ v).setFd fh f fd).setValue f.handle_ v'
    = ((w.setValue f.handle_ v).setValue f.handle_ v').setFd fh f fd from rfl,
    setValue_setValue] at this
  exact this.trans hu'

theorem EditsTo.writesTo {P : Prop} {w w' : World} {f : FileHandle}
    (h : w.EditsTo P f.handle_ w') (fh : ℕ) (fd : ℤ) : w.WritesTo P fh f (w'.setFd fh f fd) := by
  obtain ⟨v, he, hu⟩ := h
  exact ⟨fd, v, he, hu.setFd fh f fd⟩

/-- The descriptor of the handle stays as it is. -/
theorem EditsTo.writesTo_self {P : Prop} {w w' : World} {fh : ℕ} {f : FileHandle}
    (hf : w.files fh = some f) (h : w.EditsTo P f.handle_ w') : w.WritesTo P fh f w' := by
  obtain ⟨v, he, hu⟩ := h
  exact ⟨f.fd_, v, he, by rwa [setFd_self (show (w.setValue f.handle_ v).files fh = some f from hf)]⟩

theorem writeData_writesTo {w : World} {fh : ℕ} {f : FileHandle} (hf : w.files fh = some f)
    (buf : Bytes) (offset : ℤ) (total : ℕ) :
    w.WritesTo (0 ≤ offset ∧ offset < 2 ^ 63) fh f
      (w.writeData fh f buf offset total).1 := by
  unfold writeData
  dsimp only
  split
  · have he := ensureFd_upToData hf (w.iheader f.handle_)
    have hw : w.WritesTo (0 ≤ offset ∧ offset < 2 ^ 63) fh f
        (w.ensureFd fh f (w.iheader f.handle_)).1 :=
      ⟨_, _, fun _ => Edited.refl _, by rwa [setValue_self]⟩
    unfold writeBlob
    dsimp only
    split
    · exact hw
    · exact hw.trans_editsTo ((upToData_sysPwrite _ _ _ _).editsTo _)
  · split
    · have hm := (w.migrateToDiskFile_editsTo (P := 0 ≤ offset ∧ offset < 2 ^ 63)
        f.handle_ f.fd_ f.flags_).writesTo fh
          (w.migrateToDiskFile f.handle_ f.fd_ f.flags_).2.2
      unfold writeMigrate
      dsimp only
      split
      · refine hm.trans_editsTo (EditsTo.trans ?_ ((upToData_sysPwrite _ _ _ _).editsTo _))
        exact editsTo_setValue fun _ => Edited.withSizeBlob _ _ _
      · exact hm
    · exact EditsTo.writesTo_self hf (editsTo_setValue fun h =>
        Edited.updateInlineData _ _ _ (sizeT_lt h.1 (by omega)))

theorem write_acts (w : World) (fh : ℕ) (buf : Bytes) (offset : ℤ) :
    w.Acts (.write fh buf offset) (w.write fh buf offset).1 := by
  unfold write
  cases hf : w.files fh with
  | none => exact acts_idle _ (UpToData.refl w)
  | some f =>
      dsimp only
      generalize hwl : (w.setMode f.handle_ .write).readLock
        ((w.setMode f.handle_ .write).store.keyOf f.handle_) = wl
      have hlock : (w.setMode f.handle_ .write).UpToData wl := hwl ▸ upToData_readLock _ _
      have hfl : wl.files fh = some f := by rw [← hwl]; exact hf
      have hvl : wl.store.value f.handle_ = w.store.value f.handle_ := by
        rw [hlock.value]
        simp only [setMode, setStore, Store.value, Store.setMode, LruCache.setVal_val,
          Function.update_self]
      have hd := writeData_writesTo hfl buf offset (sizeT (offset + buf.length))
      generalize wl.writeData fh f buf offset (sizeT (offset + buf.length)) = r at hd ⊢
      have hs : wl.WritesTo (0 ≤ offset ∧ offset < 2 ^ 63) fh f
          (if 0 ≤ r.2.1 ∧
              decide ((wl.iheader f.handle_).fstat.st_size.toNat < sizeT (offset + buf.length))
                = true ∧ ¬ r.2.2 = true then
            r.1.setHeader f.handle_
              ((r.1.iheader f.handle_).withSize (.ofNat (sizeT (offset + buf.length))))
          else r.1) := by
        split
        · exact hd.trans_editsTo (editsTo_setValue fun _ => Edited.withSize _ _)
        · exact hd
      obtain ⟨fd, v, he, hu⟩ := hs
      refine ⟨.write fh v fd, .write fd hf (hvl ▸ he), ?_⟩
      simp only [perform, hf]
      exact (((hlock.setValue f.handle_ v).setFd fh f fd).trans hu).trans (upToData_unlock _ _)

theorem fsync_acts (w : World) (fh : ℕ) (datasync : Bool) :
    w.Acts (.fsync fh datasync) (w.fsync fh datasync).1 := by
  have idle : ∀ w', w.UpToData w' → w.Acts (.fsync fh datasync) w' :=
    fun w' h => acts_idle _ h
  unfold fsync
  cases hf : w.files fh with
  | none => exact idle _ (UpToData.refl w)
  | some f =>
      have hlock := upToData_writeLock w (w.store.keyOf f.handle_)
      dsimp only
      split
      · generalize hr : (if 0 < ((w.writeLock (w.store.keyOf f.handle_)).iheader
          f.handle_).has_blob then (w.writeLock (w.store.keyOf f.handle_)).sysFsync f.fd_
          else (w.writeLock (w.store.keyOf f.handle_), 0)) = r
        have hu : w.UpToData r.1 := by
          rw [← hr]
          split
          · exact hlock.trans (upToData_sysFsync _ _)
          · exact hlock
        split
        · exact idle _ (hu.trans (upToData_unlock _ _))
        · refine ⟨.sync, .fsync, ?_⟩
          exact (hu.setStore (hu.store.tryCommit _)).trans (upToData_unlock _ _)
      · exact idle _ (hlock.trans (upToData_unlock _ _))

/-- The value with which `Release` writes a handle back. -/
def closeValue (w : World) (i : ℕ) : Bytes :=
  if w.store.mode i = .write then
    updateAttribute (w.store.value i)
      { getAttribute (w.store.value i) with st_atim_sec := w.env.now, st_mtim_sec := w.env.now }
  else w.store.value i

/-- `Release` of an open file. -/
theorem release_some {w : World} {fh : ℕ} {f : FileHandle} (hf : w.files fh = some f) :
    (w.perform (.close fh (w.closeValue f.handle_))).UpToData (w.release fh).1 := by
  rw [release, hf]
  dsimp only
  generalize hwl : w.writeLock (w.store.keyOf f.handle_) = wl
  have hlock : w.UpToData wl := hwl ▸ upToData_writeLock _ _
  have hset : (w.setValue f.handle_ (w.closeValue f.handle_)).UpToData
      (if wl.store.mode f.handle_ = .write then
        wl.setValue f.handle_ (updateAttribute (wl.store.value f.handle_)
          { getAttribute (wl.store.value f.handle_) with
            st_atim_sec := wl.env.now, st_mtim_sec := wl.env.now })
      else wl) := by
    have hmode : wl.store.mode f.handle_ = w.store.mode f.handle_ := by rw [← hwl]; rfl
    have hval : wl.store.value f.handle_ = w.store.value f.handle_ := by rw [← hwl]; rfl
    have henv : wl.env = w.env := by rw [← hwl]; rfl
    rw [hmode, hval, henv, closeValue]
    split
    · exact hlock.setValue f.handle_ _
    · rwa [setValue_self]
  generalize (if wl.store.mode f.handle_ = .write then
      wl.setValue f.handle_ (updateAttribute (wl.store.value f.handle_)
        { getAttribute (wl.store.value f.handle_) with
          st_atim_sec := wl.env.now, st_mtim_sec := wl.env.now })
    else wl) = wt at hset ⊢
  have hc : wt.UpToData (if f.fd_ ≠ -1 then wt.sysClose f.fd_ else (wt, 0)).1 := by
    split
    · exact upToData_sysClose wt _
    · exact UpToData.refl wt
  generalize (if f.fd_ ≠ -1 then wt.sysClose f.fd_ else (wt, 0)) = c at hc ⊢
  simp only [perform, hf]
  exact (((((hset.trans hc).cacheWriteBack _).cacheRelease _).cacheEvict _).deleteFile fh).trans
    (upToData_unlock _ _)

theorem release_acts (w : World) (fh : ℕ) : w.Acts (.release fh) (w.release fh).1 := by
  cases hf : w.files fh with
  | none =>
      refine acts_idle _ ?_
      rw [release, hf]
      exact UpToData.refl w
  | some f =>
      refine ⟨.close fh (w.closeValue f.handle_), .release hf ?_, release_some hf⟩
      rw [closeValue]
      split
      · exact Edited.updateAttribute _
          (fun s => { s with st_atim_sec := w.env.now, st_mtim_sec := w.env.now }) fun _ => rfl
      · exact Edited.refl _

/-! ### Attributes -/

/-- What `Chmod`, `Chown` and `UpdateTimens` have in common. -/
theorem editAttribute_steps (w : World) (path : Bytes) (edit : Stat → Stat) (unlocks : Bool)
    (hino : ∀ s, (edit s).st_ino = s.st_ino) (op : Op)
    (hop : ∀ key old value, (w.pathLookup path).2 = some key → w.store.lookup key = some old →
      Edited old value → w.Performs op (.edit key value)) :
    w.Steps op (w.editAttribute path edit unlocks).1 := by
  refine steps_of_lookup path ?_ ?_
  · intro w₁ hp
    rw [editAttribute, hp]
    exact UpToData.refl w₁
  · intro w₁ key hp hl
    have hk : (w.pathLookup path).2 = some key := by rw [hp]
    rw [editAttribute, hp]
    dsimp only
    rcases (upToData_writeLock w₁ key).cacheGet key .write with
      ⟨wa, wb, ha, hb, hu⟩ | ⟨wa, wb, handle, ha, hb, hu⟩
    · obtain ⟨rfl, _⟩ := cacheGet_none ha
      refine ⟨.idle, .idle _, ?_⟩
      simp only [hb]
      exact hu.trans (upToData_unlock _ _)
    · have hlookup : w.store.lookup key = some (wa.store.value handle) := by
        rw [← hl.lookup, cacheGet_lookup ha]
      obtain ⟨v, he, hv⟩ := ((hu.editsTo (P := True) handle).trans
        (editsTo_setValue fun _ => Edited.updateAttribute (wb.store.value handle) edit
          hino)).perform ha
      refine ⟨.edit key v, hop key _ v hk hlookup (he trivial), ?_⟩
      simp only [hb]
      split
      · exact hv.trans (upToData_unlock _ _)
      · exact hv

/-! ### Creation -/

theorem newInode_snd (w : World) : w.newInode.2 = w.max_inode_num + 1 := by
  unfold newInode
  dsimp only
  split <;> rfl

theorem newInode_upToData (w : World) :
    { w with max_inode_num := w.max_inode_num + 1 : World }.UpToData w.newInode.1 := by
  unfold newInode
  dsimp only
  split
  · exact upToData_commit _ _
  · exact UpToData.refl _

theorem initInodeValue_congr {w w' : World} (he : w'.env = w.env)
    (hf : w'.flag_fuse_enabled = w.flag_fuse_enabled) :
    w'.initInodeValue = w.initInodeValue := by
  funext inum mode dev filename rest
  simp only [initInodeValue, initStat, newBuffer, he, hf]

theorem newInode_initInodeValue {w w₁ : World} (hl : w.Looked w₁) :
    w₁.newInode.1.initInodeValue w₁.newInode.2 = w.initInodeValue (w.max_inode_num + 1) := by
  rw [newInode_snd, hl.max_inode_num]
  obtain ⟨os, log, _, h⟩ := w₁.newInode_upToData
  rw [initInodeValue_congr (w := w) (by rw [h]; exact hl.env)
    (by rw [h]; exact hl.flag_fuse_enabled)]

/-- A new inode number and a store of its record. -/
theorem create_upToData (w : World) (key : MetaKey) (value : Bytes) :
    (w.perform (.create key value)).UpToData ((w.newInode.1.writeLock key).setStore
      ((w.newInode.1.writeLock key).store.dbPut key value).1) := by
  have hu := w.newInode_upToData.trans (upToData_writeLock _ key)
  exact hu.setStore (hu.store.tryCommit (.put key.toSlice value))

theorem makeInode_steps (w : World) (path : Bytes) (mode : UInt32) (dev : UInt64) (op : Op)
    (hop : ∀ key, (w.pathLookup path).2 = some key → w.Performs op (.create key
      (w.initInodeValue (w.max_inode_num + 1) mode dev (filenameOf path) []))) :
    w.Steps op (w.makeInode path mode dev).1 := by
  refine steps_of_lookup path ?_ ?_
  · intro w₁ hp
    rw [makeInode, hp]
    exact UpToData.refl w₁
  · intro w₁ key hp hl
    refine ⟨_, hop key (by rw [hp]), ?_⟩
    rw [makeInode, hp]
    dsimp only
    rw [newInode_initInodeValue hl]
    have hu := (w₁.create_upToData key
      (w.initInodeValue (w.max_inode_num + 1) mode dev (filenameOf path) [])).trans
        (upToData_unlock _ key)
    split
    · exact hu
    · exact hu.trans (upToData_setErrno _ _)

theorem symlink_steps (w : World) (target path : Bytes) :
    w.Steps (.symlink target path) (w.symlink target path).1 := by
  refine steps_of_lookup path ?_ ?_
  · intro w₁ hp
    rw [symlink, hp]
    exact UpToData.refl w₁
  · intro w₁ key hp hl
    refine ⟨_, .symlink (by rw [hp]), ?_⟩
    rw [symlink, hp]
    dsimp only
    rw [newInode_initInodeValue hl]
    exact (w₁.create_upToData key _).trans (upToData_unlock _ key)

theorem readlink_steps (w : World) (path : Bytes) (size : ℕ) :
    w.Steps (.readlink path size) (w.readlink path size).1 := by
  refine steps_of_lookup path ?_ ?_
  · intro w₁ hp
    rw [readlink, hp]
    exact UpToData.refl w₁
  · intro w₁ key hp _
    refine ⟨.idle, .idle _, ?_⟩
    rw [readlink, hp]
    dsimp only
    split
    · exact (upToData_readLock _ _).trans (upToData_unlock _ _)
    · exact ((upToData_readLock _ _).trans (upToData_setErrno _ _)).trans (upToData_unlock _ _)

/-! ### Removal and renaming -/

/-- `Unlink` of a path that leads to a key. -/
theorem unlink_some {w w₁ : World} {path : Bytes} {key : MetaKey}
    (hp : w.pathLookup path = (w₁, some key)) :
    (w₁.perform (.remove key)).UpToData (w.unlink path).1 ∧
      (w.unlink path).2 = if w₁.store.lookup key = none then -(ENOENT : ℤ) else 0 := by
  rw [unlink, hp]
  dsimp only
  rcases (upToData_writeLock w₁ key).cacheGet key .delete with
    ⟨wa, wb, ha, hb, hu⟩ | ⟨wa, wb, handle, ha, hb, hu⟩
  · simp only [perform, ha, hb]
    exact ⟨hu.trans (upToData_unlock _ _), (if_pos (cacheGet_none ha).2).symm⟩
  · simp only [perform, ha, hb]
    have hd : wa.UpToData (if wb.threshold_ < offT (wb.iheader handle).fstat.st_size then
        wb.sysUnlink (getDiskFilePath (wb.iheader handle).fstat.st_ino) else wb) := by
      split
      · exact hu.trans (upToData_sysUnlink _ _)
      · exact hu
    refine ⟨((((hd.mapDentry fun d => d.evict key)).cacheRelease handle).cacheEvict key).trans
      (upToData_unlock _ _), (if_neg ?_).symm⟩
    rw [cacheGet_lookup ha]
    simp

/-- `RemoveDir` of a path that leads to a key. -/
theorem removeDir_some {w w₁ : World} {path : Bytes} {key : MetaKey}
    (hp : w.pathLookup path = (w₁, some key)) :
    (w₁.perform (.remove key)).UpToData (w.removeDir path).1 ∧
      (w.removeDir path).2 = if w₁.store.lookup key = none then -(ENOENT : ℤ) else 0 := by
  rw [removeDir, hp]
  dsimp only
  rcases (upToData_writeLock w₁ key).cacheGet key .delete with
    ⟨wa, wb, ha, hb, hu⟩ | ⟨wa, wb, handle, ha, hb, hu⟩
  · simp only [perform, ha, hb]
    exact ⟨hu.trans (upToData_unlock _ _), (if_pos (cacheGet_none ha).2).symm⟩
  · simp only [perform, ha, hb]
    refine ⟨((((hu.mapDentry fun d => d.evict key)).cacheRelease handle).cacheEvict key).trans
      (upToData_unlock _ _), (if_neg ?_).symm⟩
    rw [cacheGet_lookup ha]
    simp

theorem unlink_steps (w : World) (path : Bytes) :
    w.Steps (.unlink path) (w.unlink path).1 := by
  refine steps_of_lookup path ?_ ?_
  · intro w₁ hp
    rw [unlink, hp]
    exact UpToData.refl w₁
  · intro w₁ key hp _
    exact ⟨.remove key, .unlink (by rw [hp]), (unlink_some hp).1⟩

theorem removeDir_steps (w : World) (path : Bytes) :
    w.Steps (.removeDir path) (w.removeDir path).1 := by
  refine steps_of_lookup path ?_ ?_
  · intro w₁ hp
    rw [removeDir, hp]
    exact UpToData.refl w₁
  · intro w₁ key hp _
    exact ⟨.remove key, .removeDir (by rw [hp]), (removeDir_some hp).1⟩

theorem releaseDir_acts (w : World) (handle : ℕ) :
    w.Acts (.releaseDir handle) (w.releaseDir handle).1 := by
  unfold releaseDir
  split
  · rename_i hh
    exact ⟨.closeDir handle, .releaseDir hh, UpToData.refl _⟩
  · exact acts_idle _ (UpToData.refl w)

/-- `Rename` of paths that both lead to a key: without a record it fails, with one it
moves the record. -/
theorem rename_cases {w : World} {old_path new_path : Bytes} {old_key new_key : MetaKey}
    (ho : (w.pathLookup old_path).2 = some old_key)
    (hn : ((w.pathLookup old_path).1.pathLookup new_path).2 = some new_key) :
    ∃ w₂, w.Looked w₂ ∧ (w.DentryCoherent → w₂.DentryCoherent) ∧
      (w₂.perform (.move old_key new_key (filenameOf new_path))).UpToData
        (w.rename old_path new_path).1 ∧
      (w.store.lookup old_key = none ∧ (w.rename old_path new_path).2 = -ENOENT ∧
          w₂.UpToData (w.rename old_path new_path).1 ∨
        w.store.lookup old_key ≠ none ∧ (w.rename old_path new_path).2 = 0) := by
  have hl := w.pathLookup_looked old_path
  have hc := fun hw : w.DentryCoherent => (pathLookup_eq hw old_path).2
  have hl' := (w.pathLookup old_path).1.pathLookup_looked new_path
  have hc' := fun hw : (w.pathLookup old_path).1.DentryCoherent =>
    (pathLookup_eq hw new_path).2
  rcases hp : w.pathLookup old_path with ⟨w₁, o⟩
  rw [hp] at ho hn hl hc hl' hc'
  dsimp only at ho hn hl' hc'
  subst ho
  rcases hq : w₁.pathLookup new_path with ⟨w₂, o⟩
  rw [hq] at hn hl' hc'
  dsimp only at hn
  subst hn
  refine ⟨w₂, hl.trans hl', fun hw => hc' (hc hw), ?_⟩
  rw [rename, hp]
  dsimp only
  rw [hq]
  dsimp only
  generalize lockOrder old_key new_key = locks
  have hlocks := (upToData_writeLock w₂ locks.1).trans (upToData_writeLock _ locks.2)
  have hlook := (hl.trans hl').lookup
  rcases hlocks.cacheGet old_key .delete with
    ⟨wa, wb, ha, hb, hu⟩ | ⟨wa, wb, handle, ha, hb, hu⟩
  · simp only [perform, ha, hb]
    have hu' := (hu.trans (upToData_unlock _ locks.2)).trans (upToData_unlock _ locks.1)
    refine ⟨hu', Or.inl ⟨?_, trivial, ?_⟩⟩
    · rw [← hlook]; exact (cacheGet_none ha).2
    · rwa [(cacheGet_none ha).1] at hu'
  · simp only [perform, ha, hb]
    refine ⟨(((hu.renameHandles handle old_key new_key (filenameOf new_path)).mapDentry
      fun d => (d.evict old_key).evict new_key).trans (upToData_unlock _ _)).trans
        (upToData_unlock _ _), Or.inr ⟨?_, trivial⟩⟩
    rw [← hlook, cacheGet_lookup ha]
    simp

theorem rename_steps (w : World) (old_path new_path : Bytes) :
    w.Steps (.rename old_path new_path) (w.rename old_path new_path).1 := by
  have hl := w.pathLookup_looked old_path
  have hc := fun hw : w.DentryCoherent => (pathLookup_eq hw old_path).2
  have hl' := (w.pathLookup old_path).1.pathLookup_looked new_path
  have hc' := fun hw : (w.pathLookup old_path).1.DentryCoherent =>
    (pathLookup_eq hw new_path).2
  cases ho : (w.pathLookup old_path).2 with
  | none =>
      have he : w.rename old_path new_path
          = ((w.pathLookup old_path).1, (w.pathLookup old_path).1.fsError) := by
        rw [rename, show w.pathLookup old_path = ((w.pathLookup old_path).1, none) from
          Prod.ext rfl ho]
      rw [he]
      exact steps_idle _ hl hc (UpToData.refl _)
  | some old_key =>
      cases hn : ((w.pathLookup old_path).1.pathLookup new_path).2 with
      | none =>
          have he : (w.rename old_path new_path).1
              = ((w.pathLookup old_path).1.pathLookup new_path).1 := by
            rw [rename, show w.pathLookup old_path = ((w.pathLookup old_path).1, some old_key) from
              Prod.ext rfl ho]
            dsimp only
            rw [show (w.pathLookup old_path).1.pathLookup new_path
              = (((w.pathLookup old_path).1.pathLookup new_path).1, none) from Prod.ext rfl hn]
          rw [he]
          exact steps_idle _ (hl.trans hl') (fun hw => hc' (hc hw)) (UpToData.refl _)
      | some new_key =>
          obtain ⟨w₂, hl₂, hc₂, hu, _⟩ := rename_cases ho hn
          exact ⟨w₂, _, hl₂, hc₂, .rename ho hn, hu⟩

/-! ### Every step -/

/-- Every step is a lookup and an effect the call can have, up to data. -/
theorem step_steps (w : World) (op : Op) : w.Steps op (w.step op).1 := by
  cases op with
  | getAttr path => exact w.getAttr_steps path
  | openFile path flags => exact w.openFile_steps path flags
  | read fh size offset => exact (w.read_acts fh size offset).steps
  | write fh buf offset => exact (w.write_acts fh buf offset).steps
  | fsync fh datasync => exact (w.fsync_acts fh datasync).steps
  | release fh => exact (w.release_acts fh).steps
  | truncate path new_size => exact w.truncate_steps path new_size
  | readlink path size => exact w.readlink_steps path size
  | symlink target path => exact w.symlink_steps target path
  | unlink path => exact w.unlink_steps path
  | makeNode path mode dev => exact makeInode_steps w path _ dev _ fun _ hk => .makeNode hk
  | makeDir path mode => exact makeInode_steps w path _ 0 _ fun _ hk => .makeDir hk
  | openDir path => exact w.openDir_steps path
  | readDir handle filler =>
      refine steps_idle _ (Looked.refl w) id ?_
      simp only [step, readDir]
      split
      · split <;> exact UpToData.refl w
      · exact UpToData.refl w
  | releaseDir handle => exact (w.releaseDir_acts handle).steps
  | removeDir path => exact w.removeDir_steps path
  | rename old_path new_path => exact w.rename_steps old_path new_path
  | access path mask => exact steps_idle _ (Looked.refl w) id (UpToData.refl w)
  | updateTimens path atime mtime =>
      exact editAttribute_steps w path
        (fun s => { s with st_atim_sec := atime, st_mtim_sec := mtime }) true (fun _ => rfl)
        (.updateTimens path atime mtime) fun _ _ _ hk ho he => .updateTimens hk ho he
  | chmod path mode =>
      exact editAttribute_steps w path (fun s => { s with st_mode := mode }) true (fun _ => rfl)
        (.chmod path mode) fun _ _ _ hk ho he => .chmod hk ho he
  | chown path uid gid =>
      exact editAttribute_steps w path (fun s => { s with st_uid := uid, st_gid := gid }) false
        (fun _ => rfl) (.chown path uid gid) fun _ _ _ hk ho he => .chown hk ho he
  | evict key =>
      simp only [step, evictUnpinned]
      cases hf : w.store.cache.find key with
      | none => exact steps_idle _ (Looked.refl w) id (UpToData.refl w)
      | some i =>
          dsimp only
          split
          · rename_i hp
            exact ⟨w, .evict key, Looked.refl w, id, .evict hf hp, UpToData.refl _⟩
          · exact steps_idle _ (Looked.refl w) id (UpToData.refl w)
  | setEnv env => exact ⟨w, .setEnv env, Looked.refl w, id, .setEnv env, UpToData.refl _⟩
  | setFaults dbFaults ioFaults =>
      exact ⟨w, .setFaults dbFaults, Looked.refl w, id, .setFaults dbFaults ioFaults,
        _, _, rfl, rfl⟩

end World

end Tablefs
