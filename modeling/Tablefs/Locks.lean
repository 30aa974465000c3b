/-
The locks of an operation.

`fstree_lock` stripes its keys over 1024 locks. An operation takes and gives back locks in
the order of its log, and `lockRun` follows them: it fails when a lock is requested whose
stripe is held, or one is given back that is not. Every path of every operation ends with
nothing held, but for `Chown` of a file that exists, which returns too early; and `Rename`
takes its two locks without a look at their stripes (`locks_balanced_iff`).
-/
import Tablefs.Log
import Tablefs.Reachable

set_option autoImplicit false

namespace Tablefs

open ByteString

/-! ## Lock calls -/

/-- `ILOCK_BASE` -/
def ILOCK_BASE : UInt64 := 0x3ff

/-- `lock_id`, the stripe of a key. -/
def MetaKey.lockId (key : MetaKey) : UInt32 := ((key.inode_id + key.hash_id) &&& ILOCK_BASE).toUInt32

/-- The locks held after some events, the last one first: nothing if a stripe is requested
that is held already, or a key unlocked that is not locked. -/
def lockRun : List MetaKey → List Event → Option (List MetaKey)
  | held, [] => some held
  | held, .readLock key :: evs | held, .writeLock key :: evs =>
      if key.lockId ∈ held.map MetaKey.lockId then none else lockRun (key :: held) evs
  | held, .unlock key :: evs =>
      if key ∈ held then lockRun (held.erase key) evs else none
  | held, _ :: evs => lockRun held evs

/-- The event is a call of `fstree_lock`. -/
def Event.OfLock : Event → Prop
  | .readLock _ | .writeLock _ | .unlock _ => True
  | _ => False

theorem lockRun_append (held : List MetaKey) (evs evs' : List Event) :
    lockRun held (evs ++ evs') = (lockRun held evs).bind fun h => lockRun h evs' := by
  induction evs generalizing held with
  | nil => rfl
  | cons ev evs ih =>
      cases ev with
      | readLock key =>
          simp only [List.cons_append, lockRun]
          split
          · rfl
          · exact ih _
      | writeLock key =>
          simp only [List.cons_append, lockRun]
          split
          · rfl
          · exact ih _
      | unlock key =>
          simp only [List.cons_append, lockRun]
          split
          · exact ih _
          · rfl
      | _ => exact ih held

theorem lockRun_free {evs : List Event} (h : ∀ ev ∈ evs, ¬ ev.OfLock) (held : List MetaKey) :
    lockRun held evs = some held := by
  induction evs generalizing held with
  | nil => rfl
  | cons ev evs ih =>
      have hev := h ev List.mem_cons_self
      have hevs := fun e he => h e (List.mem_cons_of_mem ev he)
      cases ev with
      | readLock key => exact absurd trivial hev
      | writeLock key => exact absurd trivial hev
      | unlock key => exact absurd trivial hev
      | _ => exact ih hevs held

namespace World

/-- What a call appends to the log. -/
def newEvents (w : World) (op : Op) : List Event := (w.next op).store.log.drop w.store.log.length

/-- At its return the call has given back every lock it took, once, and it has asked for no
stripe that it held. -/
def LocksBalanced (w : World) (op : Op) : Prop := lockRun [] (w.newEvents op) = some []

/-- The call is no `Chown` of a record that is there, and no `Rename` between two keys of one
stripe. -/
def LocksApart (w : World) : Op → Prop
  | .chown path _ _ => (w.pathLookup path).2.bind w.store.lookup = none
  | .rename old_path new_path => ∀ old_key new_key, (w.pathLookup old_path).2 = some old_key →
      ((w.pathLookup old_path).1.pathLookup new_path).2 = some new_key →
        old_key.lockId ≠ new_key.lockId
  | _ => True

/-! ## Stretches of the log -/

/-- The stretch of the log between two states takes the locks held from `h` to `h'`. -/
def Locks (h : List MetaKey) (w : World) (h' : Option (List MetaKey)) (w' : World) : Prop :=
  ∃ evs, w'.store.log = w.store.log ++ evs ∧ lockRun h evs = h'

/-- No lock is asked for or given back between two states. -/
def Unlocked (w w' : World) : Prop :=
  ∃ evs, w'.store.log = w.store.log ++ evs ∧ ∀ ev ∈ evs, ¬ ev.OfLock

variable {w w' w'' : World} {h : List MetaKey} {h' h'' : Option (List MetaKey)} {key : MetaKey}

theorem Unlocked.of_log (hl : w'.store.log = w.store.log) : w.Unlocked w' :=
  ⟨[], by rw [hl, List.append_nil], by simp⟩

theorem Unlocked.refl (w : World) : w.Unlocked w := .of_log rfl

theorem Unlocked.trans (hu : w.Unlocked w') (hu' : w'.Unlocked w'') : w.Unlocked w'' := by
  obtain ⟨evs, hl, hf⟩ := hu
  obtain ⟨evs', hl', hf'⟩ := hu'
  refine ⟨evs ++ evs', by rw [hl', hl, List.append_assoc], fun ev hev => ?_⟩
  exact (List.mem_append.mp hev).elim (hf ev) (hf' ev)

theorem Unlocked.of_extends (he : w.store.Extends w'.store) : w.Unlocked w' := by
  obtain ⟨evs, hl, _⟩ := he
  refine ⟨evs.map Event.db, hl, fun ev hev => ?_⟩
  obtain ⟨e, _, rfl⟩ := List.mem_map.mp hev
  exact id

/-- System calls take no locks. -/
theorem unlocked_ioClosed : IoClosed (fun _ => True) Unlocked where
  refl := Unlocked.refl
  trans := Unlocked.trans
  os := fun _ _ _ => .of_log rfl
  note := fun w os ev _ hev => ⟨[ev], rfl, fun e he => by
    rw [List.mem_singleton.mp he]
    cases ev with
    | openFd fd => exact id
    | closeFd fd => exact id
    | _ => exact hev.elim⟩
  commit := fun w e _ => ⟨[.disk e], rfl, fun ev hev => by
    rw [List.mem_singleton.mp hev]
    exact id⟩

theorem Locks.refl (h : List MetaKey) (w : World) : Locks h w (some h) w :=
  ⟨[], (List.append_nil _).symm, rfl⟩

/-- What follows a stretch that leaves `g` held starts with `g` held. -/
theorem Locks.trans {g : List MetaKey} (hl : Locks h w (some g) w') (hl' : Locks g w' h'' w'') :
    Locks h w h'' w'' := by
  obtain ⟨evs, hlog, hrun⟩ := hl
  obtain ⟨evs', hlog', hrun'⟩ := hl'
  refine ⟨evs ++ evs', by rw [hlog', hlog, List.append_assoc], ?_⟩
  rw [lockRun_append, hrun]
  exact hrun'

theorem Unlocked.locks (hu : w.Unlocked w') (h : List MetaKey) : Locks h w (some h) w' := by
  obtain ⟨evs, hl, hf⟩ := hu
  exact ⟨evs, hl, lockRun_free hf h⟩

/-- After a request that fails, there is nothing to say. -/
theorem Locks.stuck (hl : Locks h w none w') (hu : ∃ evs, w''.store.log = w'.store.log ++ evs) :
    Locks h w none w'' := by
  obtain ⟨evs, hlog, hrun⟩ := hl
  obtain ⟨evs', hlog'⟩ := hu
  refine ⟨evs ++ evs', by rw [hlog', hlog, List.append_assoc], ?_⟩
  rw [lockRun_append, hrun]
  rfl

theorem locks_readLock (w : World) (hk : key.lockId ∉ h.map MetaKey.lockId) :
    Locks h w (some (key :: h)) (w.readLock key) :=
  ⟨[.readLock key], rfl, if_neg hk⟩

theorem locks_writeLock (w : World) (hk : key.lockId ∉ h.map MetaKey.lockId) :
    Locks h w (some (key :: h)) (w.writeLock key) :=
  ⟨[.writeLock key], rfl, if_neg hk⟩

theorem locks_writeLock_held (w : World) (hk : key.lockId ∈ h.map MetaKey.lockId) :
    Locks h w none (w.writeLock key) :=
  ⟨[.writeLock key], rfl, if_pos hk⟩

/-- The lock taken last is given back. -/
theorem locks_unlock (w : World) (key : MetaKey) (h : List MetaKey) :
    Locks (key :: h) w (some h) (w.unlock key) := by
  refine ⟨[.unlock key], rfl, ?_⟩
  rw [lockRun, if_pos List.mem_cons_self, List.erase_cons_head]
  rfl

/-- A stretch without locks, between a lock and its unlock. -/
theorem Unlocked.readLocked (hu : (w.readLock key).Unlocked w') :
    Locks [] w (some []) (w'.unlock key) :=
  ((locks_readLock w (by simp)).trans (hu.locks _)).trans (locks_unlock w' key [])

theorem Unlocked.writeLocked (hu : (w.writeLock key).Unlocked w') :
    Locks [] w (some []) (w'.unlock key) :=
  ((locks_writeLock w (by simp)).trans (hu.locks _)).trans (locks_unlock w' key [])

/-- The stretch of the log of a call decides whether its locks balance. -/
theorem Locks.balanced_iff {op : Op} (hl : Locks [] w h' (w.next op)) :
    w.LocksBalanced op ↔ h' = some [] := by
  obtain ⟨evs, hlog, hrun⟩ := hl
  rw [LocksBalanced, newEvents, hlog, List.drop_left, hrun]

/-! ## The parts of an operation -/

theorem locks_findEntry (w : World) (key : MetaKey) : Locks [] w (some []) (w.findEntry key).1 := by
  unfold findEntry
  dsimp only
  split
  · exact (Unlocked.of_log rfl : w.Unlocked _).locks []
  · have hd : w.Unlocked (w.setDentry (w.dentry_cache.find key).1) := .of_log rfl
    split <;> exact (hd.locks []).trans (Unlocked.readLocked (.of_log rfl))

theorem locks_walk (items : List Bytes) (w : World) (key : MetaKey) (inode : UInt64) :
    Locks [] w (some []) (w.walk key inode items).1 := by
  induction items generalizing w key inode with
  | nil => exact Locks.refl [] w
  | cons item items ih =>
      have hf := w.locks_findEntry (buildMetaKey item inode)
      rw [walk]
      rcases he : w.findEntry (buildMetaKey item inode) with ⟨w', _ | ino⟩ <;> rw [he] at hf
      · exact hf
      · exact hf.trans (ih w' _ ino)

/-- A path lookup holds one lock at a time, and none at its end. -/
theorem locks_pathLookup (w : World) (path : Bytes) :
    Locks [] w (some []) (w.pathLookup path).1 := by
  have hw := locks_walk (components path).dropLast w rootKey ROOT_INODE_ID
  rw [pathLookup, parentPathLookup]
  generalize w.walk rootKey ROOT_INODE_ID (components path).dropLast = r at hw
  obtain ⟨w', _ | ⟨k, ino⟩⟩ := r
  · exact hw.trans ((Unlocked.of_log rfl : w'.Unlocked _).locks [])
  · exact hw

theorem unlocked_cacheGet {k : MetaKey} {m : InodeAccessMode} {o : Option ℕ}
    (hg : w.cacheGet k m = (w', o)) : w.Unlocked w' := by
  cases o with
  | none => rw [(cacheGet_none hg).1]; exact .refl w
  | some i =>
      obtain ⟨s, hs, rfl⟩ := cacheGet_some hg
      exact .of_extends (Store.extends_get hs)

theorem unlocked_cacheRelease (w : World) (i : ℕ) : w.Unlocked (w.cacheRelease i) :=
  .of_extends (Store.extends_release _ _)

theorem unlocked_cacheEvict (w : World) (k : MetaKey) : w.Unlocked (w.cacheEvict k) :=
  .of_extends (Store.extends_evict _ _)

theorem unlocked_cacheWriteBack (w : World) (i : ℕ) : w.Unlocked (w.cacheWriteBack i) :=
  .of_extends (Store.extends_writeBack _ _)

theorem unlocked_dbPut (w : World) (k : MetaKey) (v : Bytes) :
    w.Unlocked (w.setStore (w.store.dbPut k v).1) :=
  .of_extends (Store.extends_tryCommit _ _)

theorem unlocked_newInode (w : World) : w.Unlocked w.newInode.1 := by
  unfold newInode
  dsimp only
  split
  · exact unlocked_ioClosed.commit { w with max_inode_num := w.max_inode_num + 1 } _ trivial
  · exact .of_log rfl

theorem unlocked_sysOpen (w : World) (p : BlobPath) (flags : OpenFlags) (creat : Bool) :
    w.Unlocked (w.sysOpen p flags creat).1 :=
  IoClosed.sysOpen unlocked_ioClosed w p flags creat trivial fun _ => trivial

theorem unlocked_sysPwrite (w : World) (fd : ℤ) (buf : Bytes) (offset : ℤ) :
    w.Unlocked (w.sysPwrite fd buf offset).1 :=
  IoQuiet.sysPwrite unlocked_ioClosed.quiet w fd buf offset fun _ _ _ => trivial

theorem unlocked_ensureFd (w : World) (fh : ℕ) (f : FileHandle) (iheader : InodeHeader) :
    w.Unlocked (w.ensureFd fh f iheader).1 := by
  unfold ensureFd
  dsimp only
  split
  · exact (w.unlocked_sysOpen _ _ _).trans (.of_log rfl)
  · exact .refl w

theorem unlocked_migrateToDiskFile (w : World) (handle : ℕ) (fd : ℤ) (flags : OpenFlags) :
    w.Unlocked (w.migrateToDiskFile handle fd flags).1 := by
  unfold migrateToDiskFile
  dsimp only
  have hclose : w.Unlocked (if 0 ≤ fd then (w.sysClose fd).1 else w) := by
    split
    · exact IoClosed.sysClose unlocked_ioClosed w fd
    · exact .refl w
  generalize (if 0 ≤ fd then (w.sysClose fd).1 else w) = wc at hclose ⊢
  have hopen : w.Unlocked (wc.openDiskFile (w.iheader handle) flags).1 :=
    hclose.trans (wc.unlocked_sysOpen _ flags true)
  split
  · exact hopen
  · split
    · exact (hopen.trans (unlocked_sysPwrite _ _ _ _)).trans (.of_log rfl)
    · exact hopen

theorem unlocked_writeData (w : World) (fh : ℕ) (f : FileHandle) (buf : Bytes) (offset : ℤ)
    (total : ℕ) : w.Unlocked (w.writeData fh f buf offset total).1 := by
  unfold writeData
  dsimp only
  split
  · unfold writeBlob
    dsimp only
    have he := w.unlocked_ensureFd fh f (w.iheader f.handle_)
    split
    · exact he
    · exact he.trans (unlocked_sysPwrite _ _ _ _)
  · split
    · unfold writeMigrate
      dsimp only
      have hm := (w.unlocked_migrateToDiskFile f.handle_ f.fd_ f.flags_).trans
        (.of_log rfl : Unlocked _ ((w.migrateToDiskFile f.handle_ f.fd_ f.flags_).1.setFd fh f
          (w.migrateToDiskFile f.handle_ f.fd_ f.flags_).2.2))
      split
      · refine (hm.trans (.of_log rfl)).trans (unlocked_sysPwrite _ _ _ _)
      · exact hm
    · exact .of_log rfl

theorem unlocked_truncateData (w : World) (handle : ℕ) (new_size : ℤ) :
    w.Unlocked (w.truncateData handle new_size).1 := by
  unfold truncateData
  dsimp only
  split
  · split
    · exact IoQuiet.sysTruncate unlocked_ioClosed.quiet w _ _ fun _ _ => trivial
    · -- the buffer is filled from the disk file, which is then removed
      unfold migrateDiskFileToBuffer
      dsimp only
      refine Unlocked.trans ?_ (.of_log rfl)
      refine Unlocked.trans ?_ (IoQuiet.sysUnlink unlocked_ioClosed.quiet _ _ trivial)
      refine Unlocked.trans ?_ (IoClosed.sysClose unlocked_ioClosed _ _)
      exact (w.unlocked_sysOpen _ _ _).trans (IoQuiet.sysPread unlocked_ioClosed.quiet _ _ _ _)
  · split
    · unfold truncateMigrate
      dsimp only
      have hm := w.unlocked_migrateToDiskFile handle w.env.junkInt ⟨.wrOnly, true⟩
      split
      · refine Unlocked.trans ?_ (IoClosed.sysClose unlocked_ioClosed _ _)
        have ht := hm.trans (IoQuiet.sysFtruncate unlocked_ioClosed.quiet
          (w.migrateToDiskFile handle w.env.junkInt ⟨.wrOnly, true⟩).1
          (w.migrateToDiskFile handle w.env.junkInt ⟨.wrOnly, true⟩).2.2 new_size
          fun _ _ => trivial)
        split
        · exact ht.trans (IoQuiet.sysFsync unlocked_ioClosed.quiet _ _)
        · exact ht
      · exact hm
    · exact .of_log rfl

/-! ## The operations -/

/-- A call that looks a path up and goes on under the lock of its key. -/
theorem Locks.of_pathLookup (path : Bytes)
    (hnone : ∀ w₁, w.pathLookup path = (w₁, none) → w' = w₁)
    (hsome : ∀ w₁ key, w.pathLookup path = (w₁, some key) → Locks [] w₁ h' w')
    (hfound : (w.pathLookup path).2 = none → h' = some []) : Locks [] w h' w' := by
  have hp := w.locks_pathLookup path
  rcases hpl : w.pathLookup path with ⟨w₁, _ | key⟩ <;> rw [hpl] at hp
  · rw [hnone w₁ hpl, hfound (by rw [hpl])]
    exact hp
  · exact hp.trans (hsome w₁ key hpl)

theorem locks_getAttr (w : World) (path : Bytes) : Locks [] w (some []) (w.getAttr path).1 := by
  refine Locks.of_pathLookup path ?_ ?_ fun _ => rfl
  · intro w₁ hp
    simp only [getAttr, hp]
  · intro w₁ key hp
    simp only [getAttr, hp]
    rcases hg : (w₁.readLock key).cacheGet key .read with ⟨w₂, _ | i⟩
    · exact (unlocked_cacheGet hg).readLocked
    · exact ((unlocked_cacheGet hg).trans (unlocked_cacheRelease w₂ i)).readLocked

theorem locks_openFile (w : World) (path : Bytes) (flags : OpenFlags) :
    Locks [] w (some []) (w.openFile path flags).1 := by
  refine Locks.of_pathLookup path ?_ ?_ fun _ => rfl
  · intro w₁ hp
    simp only [openFile, hp]
  · intro w₁ key hp
    simp only [openFile, hp]
    rcases hg : (w₁.writeLock key).cacheGet key (openMode flags) with ⟨w₂, _ | i⟩
    · exact (unlocked_cacheGet hg).writeLocked
    · have hget := unlocked_cacheGet hg
      have hopen := hget.trans (w₂.unlocked_sysOpen
        (getDiskFilePath (w₂.iheader i).fstat.st_ino) flags true)
      dsimp only
      split
      · split
        · exact (hopen.trans (unlocked_cacheRelease _ i)).writeLocked
        · exact (hopen.trans (.of_log rfl)).writeLocked
      · exact (hget.trans (.of_log rfl)).writeLocked

theorem locks_read (w : World) (fh size : ℕ) (offset : ℤ) :
    Locks [] w (some []) (w.read fh size offset).1 := by
  rw [read]
  cases w.files fh with
  | none => exact Locks.refl [] w
  | some f =>
      dsimp only
      split
      · have he := unlocked_ensureFd (w.readLock (w.store.keyOf f.handle_)) fh f
          ((w.readLock (w.store.keyOf f.handle_)).iheader f.handle_)
        split
        · exact he.readLocked
        · exact (he.trans (IoQuiet.sysPread unlocked_ioClosed.quiet _ _ _ _)).readLocked
      · exact Unlocked.readLocked (.refl _)

theorem locks_write (w : World) (fh : ℕ) (buf : Bytes) (offset : ℤ) :
    Locks [] w (some []) (w.write fh buf offset).1 := by
  rw [write]
  cases w.files fh with
  | none => exact Locks.refl [] w
  | some f =>
      dsimp only
      -- the mode is set before the lock is taken
      have hmode : w.Unlocked (w.setMode f.handle_ .write) := .of_log rfl
      refine (hmode.locks []).trans (Unlocked.readLocked ?_)
      split
      · exact (unlocked_writeData _ _ _ _ _ _).trans (.of_log rfl)
      · exact unlocked_writeData _ _ _ _ _ _

theorem locks_fsync (w : World) (fh : ℕ) (datasync : Bool) :
    Locks [] w (some []) (w.fsync fh datasync).1 := by
  rw [fsync]
  cases w.files fh with
  | none => exact Locks.refl [] w
  | some f =>
      dsimp only
      split
      · have hsync : (w.writeLock (w.store.keyOf f.handle_)).Unlocked
            (if 0 < ((w.writeLock (w.store.keyOf f.handle_)).iheader f.handle_).has_blob then
              (w.writeLock (w.store.keyOf f.handle_)).sysFsync f.fd_
            else (w.writeLock (w.store.keyOf f.handle_), 0)).1 := by
          split
          · exact IoQuiet.sysFsync unlocked_ioClosed.quiet _ _
          · exact .refl _
        split
        · exact hsync.writeLocked
        · exact (hsync.trans (.of_extends (Store.extends_tryCommit _ _))).writeLocked
      · exact Unlocked.writeLocked (.refl _)

theorem locks_release (w : World) (fh : ℕ) : Locks [] w (some []) (w.release fh).1 := by
  rw [release]
  cases w.files fh with
  | none => exact Locks.refl [] w
  | some f =>
      dsimp only
      refine Unlocked.writeLocked (Unlocked.trans ?_ (.of_log rfl))
      refine Unlocked.trans ?_ (unlocked_cacheEvict _ _)
      refine Unlocked.trans ?_ (unlocked_cacheRelease _ _)
      refine Unlocked.trans ?_ (unlocked_cacheWriteBack _ _)
      generalize hwl : w.writeLock (w.store.keyOf f.handle_) = wl
      have hset : wl.Unlocked (if wl.store.mode f.handle_ = .write then
          wl.setValue f.handle_ (updateAttribute (wl.store.value f.handle_)
            { getAttribute (wl.store.value f.handle_) with
              st_atim_sec := wl.env.now, st_mtim_sec := wl.env.now })
          else wl) := by
        split <;> exact .of_log rfl
      split
      · exact hset.trans (IoClosed.sysClose unlocked_ioClosed _ _)
      · exact hset

theorem locks_truncate (w : World) (path : Bytes) (new_size : ℤ) :
    Locks [] w (some []) (w.truncate path new_size).1 := by
  refine Locks.of_pathLookup path ?_ ?_ fun _ => rfl
  · intro w₁ hp
    simp only [truncate, hp]
  · intro w₁ key hp
    simp only [truncate, hp]
    rcases hg : w₁.cacheGet key .write with ⟨w₂, _ | i⟩
    · exact ((unlocked_cacheGet hg).locks []).trans (Unlocked.writeLocked (.refl _))
    · refine ((unlocked_cacheGet hg).locks []).trans (Unlocked.writeLocked ?_)
      refine Unlocked.trans ?_ (unlocked_cacheRelease _ i)
      refine Unlocked.trans ?_ (unlocked_cacheWriteBack _ i)
      have hdata := (w₂.writeLock key).unlocked_truncateData i new_size
      split
      · exact hdata.trans (.of_log rfl)
      · exact hdata

theorem locks_readlink (w : World) (path : Bytes) (size : ℕ) :
    Locks [] w (some []) (w.readlink path size).1 := by
  refine Locks.of_pathLookup path ?_ ?_ fun _ => rfl
  · intro w₁ hp
    simp only [readlink, hp]
  · intro w₁ key hp
    simp only [readlink, hp]
    split <;> exact Unlocked.readLocked (.of_log rfl)

/-- `MakeNode`, `MakeDir` and `Symlink`: a number, and a record put under the lock. -/
theorem locks_put (w : World) (key : MetaKey) (v : Bytes) :
    Locks [] w (some [])
      (((w.newInode.1.writeLock key).setStore
        ((w.newInode.1.writeLock key).store.dbPut key v).1).unlock key) :=
  (w.unlocked_newInode.locks []).trans (unlocked_dbPut _ key v).writeLocked

theorem locks_makeInode (w : World) (path : Bytes) (mode : UInt32) (dev : UInt64) :
    Locks [] w (some []) (w.makeInode path mode dev).1 := by
  refine Locks.of_pathLookup path ?_ ?_ fun _ => rfl
  · intro w₁ hp
    simp only [makeInode, hp]
  · intro w₁ key hp
    simp only [makeInode, hp]
    split
    · exact locks_put w₁ key _
    · exact (locks_put w₁ key _).trans ((Unlocked.of_log rfl : Unlocked _ _).locks [])

theorem locks_symlink (w : World) (target path : Bytes) :
    Locks [] w (some []) (w.symlink target path).1 := by
  refine Locks.of_pathLookup path ?_ ?_ fun _ => rfl
  · intro w₁ hp
    simp only [symlink, hp]
  · intro w₁ key hp
    simp only [symlink, hp]
    exact locks_put w₁ key _

/-- `Unlink` and `RemoveDir`: the handle is given up and its entry evicted. -/
theorem unlocked_giveUp {w₂ : World} (hu : w.Unlocked w₂) (key : MetaKey) (i : ℕ) :
    w.Unlocked ((((w₂.setDentry (w₂.dentry_cache.evict key)).cacheRelease i).cacheEvict key)) := by
  refine Unlocked.trans ?_ (unlocked_cacheEvict _ key)
  refine Unlocked.trans ?_ (unlocked_cacheRelease _ i)
  exact hu.trans (.of_log rfl)

theorem locks_unlink (w : World) (path : Bytes) : Locks [] w (some []) (w.unlink path).1 := by
  refine Locks.of_pathLookup path ?_ ?_ fun _ => rfl
  · intro w₁ hp
    simp only [unlink, hp]
  · intro w₁ key hp
    simp only [unlink, hp]
    rcases hg : (w₁.writeLock key).cacheGet key .delete with ⟨w₂, _ | i⟩
    · exact (unlocked_cacheGet hg).writeLocked
    · refine (unlocked_giveUp ?_ key i).writeLocked
      split
      · exact (unlocked_cacheGet hg).trans (IoQuiet.sysUnlink unlocked_ioClosed.quiet w₂ _ trivial)
      · exact unlocked_cacheGet hg

theorem locks_removeDir (w : World) (path : Bytes) :
    Locks [] w (some []) (w.removeDir path).1 := by
  refine Locks.of_pathLookup path ?_ ?_ fun _ => rfl
  · intro w₁ hp
    simp only [removeDir, hp]
  · intro w₁ key hp
    simp only [removeDir, hp]
    rcases hg : (w₁.writeLock key).cacheGet key .delete with ⟨w₂, _ | i⟩
    · exact (unlocked_cacheGet hg).writeLocked
    · exact (unlocked_giveUp (unlocked_cacheGet hg) key i).writeLocked

theorem locks_openDir (w : World) (path : Bytes) : Locks [] w (some []) (w.openDir path).1 := by
  refine Locks.of_pathLookup path ?_ ?_ fun _ => rfl
  · intro w₁ hp
    simp only [openDir, hp]
  · intro w₁ key hp
    simp only [openDir, hp]
    rcases hg : (w₁.readLock key).cacheGet key .read with ⟨w₂, _ | i⟩
    · exact (unlocked_cacheGet hg).readLocked
    · exact ((unlocked_cacheGet hg).trans (.of_log rfl)).readLocked

theorem unlocked_renameHandles (w : World) (i : ℕ) (old_key new_key : MetaKey) (name : Bytes) :
    w.Unlocked (w.renameHandles i old_key new_key name) :=
  .of_extends (extends_renameHandles w i old_key new_key name)

/-- The two locks of `Rename` are those of its two keys. -/
theorem lockOrder_cases (old_key new_key : MetaKey) :
    lockOrder old_key new_key = (old_key, new_key) ∨
      lockOrder old_key new_key = (new_key, old_key) := by
  unfold lockOrder
  split
  · exact Or.inl rfl
  · exact Or.inr rfl

theorem lockOrder_lockId (old_key new_key : MetaKey) :
    (lockOrder old_key new_key).1.lockId = (lockOrder old_key new_key).2.lockId ↔
      old_key.lockId = new_key.lockId := by
  rcases lockOrder_cases old_key new_key with h | h <;> rw [h]
  exact eq_comm

/-- What `Rename` does under its locks, and their return. -/
theorem locks_rename_body (w : World) (old_key new_key large_key small_key : MetaKey)
    (name : Bytes) : Locks [small_key, large_key] w (some [])
      (match w.cacheGet old_key .delete with
        | (w, some old_handle) =>
            let w := w.renameHandles old_handle old_key new_key name
            let w := w.setDentry ((w.dentry_cache.evict old_key).evict new_key)
            ((w.unlock small_key).unlock large_key, (0 : ℤ))
        | (w, none) => ((w.unlock small_key).unlock large_key, -(ENOENT : ℤ))).1 := by
  have hunlock : ∀ {w' : World}, w.Unlocked w' →
      Locks [small_key, large_key] w (some []) ((w'.unlock small_key).unlock large_key) :=
    fun hu => ((hu.locks _).trans (locks_unlock _ small_key [large_key])).trans
      (locks_unlock _ large_key [])
  rcases hg : w.cacheGet old_key .delete with ⟨w₂, _ | i⟩
  · exact hunlock (unlocked_cacheGet hg)
  · exact hunlock (((unlocked_cacheGet hg).trans
      (w₂.unlocked_renameHandles i old_key new_key name)).trans (.of_log rfl))

/-- `Rename` between keys of different stripes gives both locks back, and between keys of one
stripe it does not get the second. -/
theorem locks_rename (w : World) {old_path : Bytes} (new_path : Bytes) {w₁ w₂ : World}
    {old_key new_key : MetaKey} (hp : w.pathLookup old_path = (w₁, some old_key))
    (hp' : w₁.pathLookup new_path = (w₂, some new_key)) :
    Locks [] w (if old_key.lockId = new_key.lockId then none else some [])
      (w.rename old_path new_path).1 := by
  have hl : Locks [] w (some []) w₂ := by
    have h1 := w.locks_pathLookup old_path
    have h2 := w₁.locks_pathLookup new_path
    rw [hp] at h1
    rw [hp'] at h2
    exact h1.trans h2
  have hstripe := lockOrder_lockId old_key new_key
  simp only [rename, hp, hp']
  generalize lockOrder old_key new_key = keys at hstripe
  obtain ⟨large_key, small_key⟩ := keys
  have hlarge : Locks [] w₂ (some [large_key]) (w₂.writeLock large_key) :=
    locks_writeLock w₂ (by simp)
  have hbody := locks_rename_body ((w₂.writeLock large_key).writeLock small_key) old_key new_key
    large_key small_key (filenameOf new_path)
  by_cases hsame : old_key.lockId = new_key.lockId
  · rw [if_pos hsame]
    have hheld : small_key.lockId ∈ [large_key].map MetaKey.lockId := by
      simpa using (hstripe.mpr hsame).symm
    obtain ⟨evs, hlog, -⟩ := hbody
    exact hl.trans ((hlarge.trans (locks_writeLock_held _ hheld)).stuck ⟨evs, hlog⟩)
  · rw [if_neg hsame]
    have hfree : small_key.lockId ∉ [large_key].map MetaKey.lockId := by
      intro hmem
      exact hsame (hstripe.mp (by simpa using hmem : small_key.lockId = large_key.lockId).symm)
    exact hl.trans ((hlarge.trans (locks_writeLock _ hfree)).trans hbody)

/-- The body of `UpdateTimens`, `Chmod` and `Chown` on a record that is there. -/
theorem locks_editAttribute_some (w : World) {path : Bytes} {w₁ w₂ : World} {key : MetaKey} {i : ℕ}
    (hp : w.pathLookup path = (w₁, some key))
    (hg : (w₁.writeLock key).cacheGet key .write = (w₂, some i)) (edit : Stat → Stat)
    (unlocks : Bool) : Locks [] w (some (if unlocks then [] else [key]))
      (w.editAttribute path edit unlocks).1 := by
  have hl := w.locks_pathLookup path
  rw [hp] at hl
  simp only [editAttribute, hp, hg]
  have hedit : (w₁.writeLock key).Unlocked
      (((w₂.setValue i (updateAttribute (w₂.store.value i)
        (edit (getAttribute (w₂.store.value i))))).cacheWriteBack i).cacheRelease i) := by
    refine Unlocked.trans ?_ (unlocked_cacheRelease _ i)
    refine Unlocked.trans ?_ (unlocked_cacheWriteBack _ i)
    exact (unlocked_cacheGet hg).trans (.of_log rfl)
  cases unlocks with
  | true => exact hl.trans hedit.writeLocked
  | false =>
      -- the early return
      exact hl.trans ((locks_writeLock w₁ (by simp)).trans (hedit.locks [key]))

theorem locks_editAttribute_none (w : World) {path : Bytes}
    (hno : (w.pathLookup path).2.bind w.store.lookup = none) (edit : Stat → Stat)
    (unlocks : Bool) : Locks [] w (some []) (w.editAttribute path edit unlocks).1 := by
  refine Locks.of_pathLookup path ?_ ?_ fun _ => rfl
  · intro w₁ hp
    simp only [editAttribute, hp]
  · intro w₁ key hp
    have hlook := w.pathLookup_looked path
    rw [hp] at hno hlook
    rcases hg : (w₁.writeLock key).cacheGet key .write with ⟨w₂, _ | i⟩
    · simp only [editAttribute, hp, hg]
      exact (unlocked_cacheGet hg).writeLocked
    · have hfound := cacheGet_lookup hg
      rw [show (w₁.writeLock key).store.lookup key = w.store.lookup key from
        congrFun hlook.lookup key] at hfound
      rw [Option.bind_some, hfound] at hno
      cases hno

/-- A path with a record leads to a handle. -/
theorem exists_cacheGet {path : Bytes} (hne : (w.pathLookup path).2.bind w.store.lookup ≠ none) :
    ∃ w₁ key w₂ i, w.pathLookup path = (w₁, some key) ∧
      (w₁.writeLock key).cacheGet key .write = (w₂, some i) := by
  have hlook := w.pathLookup_looked path
  rcases hp : w.pathLookup path with ⟨w₁, _ | key⟩ <;> rw [hp] at hne hlook
  · exact absurd rfl hne
  · rcases hg : (w₁.writeLock key).cacheGet key .write with ⟨w₂, _ | i⟩
    · have hmiss : w.store.lookup key = none :=
        (congrFun hlook.lookup key).symm.trans (cacheGet_none hg).2
      rw [Option.bind_some, hmiss] at hne
      exact absurd rfl hne
    · exact ⟨w₁, key, w₂, i, rfl, hg⟩

theorem locks_editAttribute (w : World) (path : Bytes) (edit : Stat → Stat) :
    Locks [] w (some []) (w.editAttribute path edit true).1 := by
  by_cases hno : (w.pathLookup path).2.bind w.store.lookup = none
  · exact w.locks_editAttribute_none hno edit true
  · obtain ⟨w₁, key, w₂, i, hp, hg⟩ := exists_cacheGet hno
    exact w.locks_editAttribute_some hp hg edit true

/-! ## When locks balance -/

theorem chown_balanced_iff (w : World) (path : Bytes) (uid gid : UInt32) :
    w.LocksBalanced (.chown path uid gid) ↔ w.LocksApart (.chown path uid gid) := by
  rw [LocksApart]
  by_cases hno : (w.pathLookup path).2.bind w.store.lookup = none
  · have hl : Locks [] w (some []) (w.next (.chown path uid gid)) :=
      w.locks_editAttribute_none hno _ false
    rw [hl.balanced_iff]
    exact iff_of_true rfl hno
  · obtain ⟨w₁, key, w₂, i, hp, hg⟩ := exists_cacheGet hno
    have hl : Locks [] w (some [key]) (w.next (.chown path uid gid)) :=
      w.locks_editAttribute_some hp hg _ false
    rw [hl.balanced_iff]
    exact iff_of_false (by simp) hno

theorem rename_balanced_iff (w : World) (old_path new_path : Bytes) :
    w.LocksBalanced (.rename old_path new_path) ↔ w.LocksApart (.rename old_path new_path) := by
  rw [LocksApart]
  have h1 := w.locks_pathLookup old_path
  rcases hp : w.pathLookup old_path with ⟨w₁, _ | old_key⟩ <;> rw [hp] at h1
  · have hl : Locks [] w (some []) (w.next (.rename old_path new_path)) := by
      have hnext : w.next (.rename old_path new_path) = w₁ := by simp only [next, step, rename, hp]
      rw [hnext]
      exact h1
    rw [hl.balanced_iff]
    exact iff_of_true rfl fun _ _ hk => by cases hk
  · have h2 := w₁.locks_pathLookup new_path
    rcases hp' : w₁.pathLookup new_path with ⟨w₂, _ | new_key⟩ <;> rw [hp'] at h2
    · have hl : Locks [] w (some []) (w.next (.rename old_path new_path)) := by
        have hnext : w.next (.rename old_path new_path) = w₂ := by
          simp only [next, step, rename, hp, hp']
        rw [hnext]
        exact h1.trans h2
      rw [hl.balanced_iff]
      exact iff_of_true rfl fun _ _ _ hk => by cases hk
    · have hl : Locks [] w _ (w.next (.rename old_path new_path)) := w.locks_rename new_path hp hp'
      rw [hl.balanced_iff]
      constructor
      · intro hif ok nk hok hnk hsame
        cases hok
        cases hnk
        rw [if_pos hsame] at hif
        cases hif
      · intro hne
        exact if_neg (hne old_key new_key rfl rfl)

/-- In every state a call gives back each lock it took, and asks for no stripe that it holds,
exactly if it is no `Chown` of a record that is there and no `Rename` between two keys of
one stripe. -/
theorem locks_balanced_iff (w : World) (op : Op) : w.LocksBalanced op ↔ w.LocksApart op := by
  have hfree : ∀ {op : Op}, Locks [] w (some []) (w.next op) → w.LocksApart op →
      (w.LocksBalanced op ↔ w.LocksApart op) := fun hl ha => by
    rw [hl.balanced_iff]
    exact iff_of_true rfl ha
  have hquiet : ∀ {op : Op}, w.Unlocked (w.next op) → Locks [] w (some []) (w.next op) :=
    fun hu => hu.locks []
  cases op with
  | chown path uid gid => exact w.chown_balanced_iff path uid gid
  | rename old_path new_path => exact w.rename_balanced_iff old_path new_path
  | getAttr path => exact hfree (w.locks_getAttr path) trivial
  | openFile path flags => exact hfree (w.locks_openFile path flags) trivial
  | read fh size offset => exact hfree (w.locks_read fh size offset) trivial
  | write fh buf offset => exact hfree (w.locks_write fh buf offset) trivial
  | fsync fh datasync => exact hfree (w.locks_fsync fh datasync) trivial
  | release fh => exact hfree (w.locks_release fh) trivial
  | truncate path new_size => exact hfree (w.locks_truncate path new_size) trivial
  | readlink path size => exact hfree (w.locks_readlink path size) trivial
  | symlink target path => exact hfree (w.locks_symlink target path) trivial
  | unlink path => exact hfree (w.locks_unlink path) trivial
  | makeNode path mode dev => exact hfree (w.locks_makeInode path _ dev) trivial
  | makeDir path mode => exact hfree (w.locks_makeInode path _ 0) trivial
  | openDir path => exact hfree (w.locks_openDir path) trivial
  | readDir handle filler =>
      refine hfree (hquiet ?_) trivial
      simp only [next, step, readDir]
      split
      · split <;> exact .refl w
      · exact .refl w
  | releaseDir handle =>
      refine hfree (hquiet ?_) trivial
      simp only [next, step, releaseDir]
      split
      · exact (w.unlocked_cacheRelease handle).trans (.of_log rfl)
      · exact .refl w
  | removeDir path => exact hfree (w.locks_removeDir path) trivial
  | access path mask => exact hfree (hquiet (.refl w)) trivial
  | updateTimens path atime mtime => exact hfree (w.locks_editAttribute path _) trivial
  | chmod path mode => exact hfree (w.locks_editAttribute path _) trivial
  | evict key =>
      refine hfree (hquiet ?_) trivial
      simp only [next, step, evictUnpinned]
      split
      · split
        · exact w.unlocked_cacheEvict key
        · exact .refl w
      · exact .refl w
  | setEnv env => exact hfree (hquiet (.of_log rfl)) trivial
  | setFaults dbFaults ioFaults => exact hfree (hquiet (.of_log rfl)) trivial

/-- `Chown` of a file that was just made leaves its lock taken. -/
theorem chown_keeps_lock : ¬ ∀ (w : World) (op : Op), w.LocksBalanced op := by
  intro hall
  have hbad := hall ((mount Durable.empty plainConfig).run [.makeNode [47, 97] 0 0])
    (.chown [47, 97] 0 0)
  revert hbad
  rw [LocksBalanced]
  decide +kernel

end World

end Tablefs
