/-
What the calls on data files leave alone.

The name space is decided by the metadata store and the two caches. `UpToLog` and
`UpToData` say that two states agree on all of that and differ at most in the
log, the data directory and the process's descriptors. Every system call keeps a
state up to its data, and every operation of the inode cache does the same to
two states that agree up to their logs.
-/
import Tablefs.Step

set_option autoImplicit false

namespace Tablefs

open ByteString

/-! ## Stores up to their logs -/

/-- `t` is `s` with another log, one with the same writes to the metadata store. -/
def Store.UpToLog (s t : Store) : Prop :=
  ∃ log, dbEvents log = dbEvents s.log ∧ t = { s with log := log }

namespace Store

theorem UpToLog.refl (s : Store) : s.UpToLog s := ⟨s.log, rfl, rfl⟩

theorem UpToLog.trans {s t u : Store} (h : s.UpToLog t) (h' : t.UpToLog u) : s.UpToLog u := by
  obtain ⟨_, hl, rfl⟩ := h
  obtain ⟨l, hl', rfl⟩ := h'
  exact ⟨l, hl'.trans hl, rfl⟩

/-- The same write, carried out in both. -/
theorem upToLog_commit {s : Store} {log : List Event} (hl : dbEvents log = dbEvents s.log)
    (e : DbEffect) : (s.commit e).UpToLog (Store.commit { s with log := log } e) :=
  ⟨log ++ [.db e], by rw [dbEvents_append, hl, ← dbEvents_append]; rfl, rfl⟩

theorem UpToLog.tryCommit {s t : Store} (h : s.UpToLog t) (e : DbEffect) :
    (s.tryCommit e).1.UpToLog (t.tryCommit e).1 := by
  obtain ⟨log, hl, rfl⟩ := h
  obtain ⟨metadb, cache, dbFaults, log'⟩ := s
  unfold Store.tryCommit
  cases dbFaults with
  | nil => exact upToLog_commit hl e
  | cons b bs =>
      cases b with
      | false => exact upToLog_commit (s := ⟨metadb, cache, bs, log'⟩) hl e
      | true => exact ⟨log, hl, rfl⟩

theorem UpToLog.cleanInodeHandle {s t : Store} (h : s.UpToLog t) (i : ℕ) :
    (s.cleanInodeHandle i).UpToLog (t.cleanInodeHandle i) := by
  have hput := h.tryCommit (.put (s.keyOf i).toSlice (s.value i))
  obtain ⟨log, hl, rfl⟩ := h
  unfold Store.cleanInodeHandle
  rw [show Store.mode { s with log := log } i = s.mode i from rfl]
  cases s.mode i with
  | write => exact hput
  | delete => exact upToLog_commit hl _
  | read => exact ⟨log, hl, rfl⟩

theorem UpToLog.cleanAll (freed : List ℕ) {s t : Store} (h : s.UpToLog t) :
    (s.cleanAll freed).UpToLog (t.cleanAll freed) := by
  induction freed generalizing s t with
  | nil => exact h
  | cons i is ih => exact ih (h.cleanInodeHandle i)

theorem UpToLog.setValue {s t : Store} (h : s.UpToLog t) (i : ℕ) (v : Bytes) :
    (s.setValue i v).UpToLog (t.setValue i v) := by
  obtain ⟨log, hl, rfl⟩ := h
  exact ⟨log, hl, rfl⟩

theorem UpToLog.setMode {s t : Store} (h : s.UpToLog t) (i : ℕ) (m : InodeAccessMode) :
    (s.setMode i m).UpToLog (t.setMode i m) := by
  obtain ⟨log, hl, rfl⟩ := h
  exact ⟨log, hl, rfl⟩

theorem UpToLog.release {s t : Store} (h : s.UpToLog t) (i : ℕ) :
    (s.release i).UpToLog (t.release i) := by
  obtain ⟨log, hl, rfl⟩ := h
  exact UpToLog.cleanAll _ ⟨log, hl, rfl⟩

theorem UpToLog.evict {s t : Store} (h : s.UpToLog t) (k : MetaKey) :
    (s.evict k).UpToLog (t.evict k) := by
  obtain ⟨log, hl, rfl⟩ := h
  exact UpToLog.cleanAll _ ⟨log, hl, rfl⟩

theorem UpToLog.writeBack {s t : Store} (h : s.UpToLog t) (i : ℕ) :
    (s.writeBack i).UpToLog (t.writeBack i) := by
  have hput := (h.tryCommit (.put (s.keyOf i).toSlice (s.value i))).setMode i .read
  obtain ⟨log, hl, rfl⟩ := h
  unfold Store.writeBack
  rw [show Store.mode { s with log := log } i = s.mode i from rfl]
  cases s.mode i with
  | write => exact hput
  | delete => exact (upToLog_commit hl _).evict _
  | read => exact ⟨log, hl, rfl⟩

theorem UpToLog.insertHandle {s t : Store} (h : s.UpToLog t) (k : MetaKey) (v : Bytes)
    (m : InodeAccessMode) :
    (s.insertHandle k v m).1.UpToLog (t.insertHandle k v m).1 ∧
      (t.insertHandle k v m).2 = (s.insertHandle k v m).2 := by
  obtain ⟨log, hl, rfl⟩ := h
  exact ⟨UpToLog.cleanAll _ ⟨log, hl, rfl⟩, rfl⟩

theorem UpToLog.get {s t : Store} (h : s.UpToLog t) (k : MetaKey) (m : InodeAccessMode) :
    (s.get k m).1.UpToLog (t.get k m).1 ∧ (t.get k m).2 = (s.get k m).2 := by
  have hins := fun v => h.insertHandle k v m
  obtain ⟨log, hl, rfl⟩ := h
  unfold Store.get
  dsimp only
  split
  · rw [show Store.dbGet { s with log := log } k = s.dbGet k from rfl]
    cases s.dbGet k with
    | none => exact ⟨⟨log, hl, rfl⟩, rfl⟩
    | some v => exact ⟨(hins v).1, congrArg some (hins v).2⟩
  · refine ⟨?_, rfl⟩
    cases m with
    | read => exact ⟨log, hl, rfl⟩
    | delete => exact ⟨log, hl, rfl⟩
    | write => exact ⟨log, hl, rfl⟩

theorem UpToLog.batchOne {s t : Store} (h : s.UpToLog t) (i : ℕ) :
    (s.batchOne i).1.UpToLog (t.batchOne i).1 ∧ (t.batchOne i).2 = (s.batchOne i).2 := by
  have hm := h.setMode i .read
  have he := h.evict (s.keyOf i)
  obtain ⟨log, hl, rfl⟩ := h
  unfold Store.batchOne
  rw [show Store.mode { s with log := log } i = s.mode i from rfl]
  cases s.mode i with
  | write => exact ⟨hm, rfl⟩
  | delete => exact ⟨he, rfl⟩
  | read => exact ⟨⟨log, hl, rfl⟩, rfl⟩

theorem UpToLog.batchCommit {s t : Store} (h : s.UpToLog t) (i j : ℕ) :
    (s.batchCommit i j).UpToLog (t.batchCommit i j) := by
  obtain ⟨h1, ho1⟩ := h.batchOne i
  obtain ⟨h2, ho2⟩ := h1.batchOne j
  unfold Store.batchCommit
  dsimp only
  rw [ho1, ho2]
  exact h2.tryCommit _

end Store

/-! ## States up to their data -/

/-- `w'` is `w` with another data directory and set of descriptors, and another
log with the same writes to the metadata store. -/
def World.UpToData (w w' : World) : Prop :=
  ∃ os log, dbEvents log = dbEvents w.store.log ∧
    w' = { w with os := os, store := { w.store with log := log } }

namespace World

theorem UpToData.refl (w : World) : w.UpToData w := ⟨w.os, w.store.log, rfl, rfl⟩

theorem UpToData.trans {w w' w'' : World} (h : w.UpToData w') (h' : w'.UpToData w'') :
    w.UpToData w'' := by
  obtain ⟨_, _, hl, rfl⟩ := h
  obtain ⟨os, log, hl', rfl⟩ := h'
  exact ⟨os, log, hl'.trans hl, rfl⟩

theorem UpToData.store {w w' : World} (h : w.UpToData w') : w.store.UpToLog w'.store := by
  obtain ⟨_, log, hl, rfl⟩ := h
  exact ⟨log, hl, rfl⟩

/-- What two states agree on may be replaced in both. -/
theorem UpToData.setStore {w w' : World} (h : w.UpToData w') {s t : Store} (hs : s.UpToLog t) :
    (w.setStore s).UpToData (w'.setStore t) := by
  obtain ⟨os, _, _, rfl⟩ := h
  obtain ⟨log, hl, rfl⟩ := hs
  exact ⟨os, log, hl, rfl⟩

theorem UpToData.setValue {w w' : World} (h : w.UpToData w') (i : ℕ) (v : Bytes) :
    (w.setValue i v).UpToData (w'.setValue i v) := h.setStore (h.store.setValue i v)

theorem UpToData.cacheRelease {w w' : World} (h : w.UpToData w') (i : ℕ) :
    (w.cacheRelease i).UpToData (w'.cacheRelease i) := h.setStore (h.store.release i)

theorem UpToData.cacheWriteBack {w w' : World} (h : w.UpToData w') (i : ℕ) :
    (w.cacheWriteBack i).UpToData (w'.cacheWriteBack i) := h.setStore (h.store.writeBack i)

theorem UpToData.cacheEvict {w w' : World} (h : w.UpToData w') (k : MetaKey) :
    (w.cacheEvict k).UpToData (w'.cacheEvict k) := h.setStore (h.store.evict k)

/-- `Get` finds the same handle, or none, in two states that agree. -/
theorem UpToData.cacheGet {w w' : World} (h : w.UpToData w') (k : MetaKey)
    (m : InodeAccessMode) :
    (∃ wa wb, w.cacheGet k m = (wa, none) ∧ w'.cacheGet k m = (wb, none) ∧ wa.UpToData wb) ∨
    ∃ wa wb i, w.cacheGet k m = (wa, some i) ∧ w'.cacheGet k m = (wb, some i) ∧
      wa.UpToData wb := by
  obtain ⟨hs, ho⟩ := h.store.get k m
  have hu := h.setStore hs
  unfold World.cacheGet
  dsimp only
  cases hi : (w.store.get k m).2 with
  | none => exact Or.inl ⟨_, _, rfl, by rw [ho, hi], hu⟩
  | some i => exact Or.inr ⟨_, _, i, rfl, by rw [ho, hi], hu⟩

theorem UpToData.mapDentry {w w' : World} (h : w.UpToData w')
    (f : DentryCache → DentryCache) :
    (w.setDentry (f w.dentry_cache)).UpToData (w'.setDentry (f w'.dentry_cache)) := by
  obtain ⟨os, log, hl, rfl⟩ := h
  exact ⟨os, log, hl, rfl⟩

theorem UpToData.addFile {w w' : World} (h : w.UpToData w') (f : FileHandle) :
    (w.addFile f).UpToData (w'.addFile f) := by
  obtain ⟨os, log, hl, rfl⟩ := h
  exact ⟨os, log, hl, rfl⟩

theorem UpToData.consDirs {w w' : World} (h : w.UpToData w') (handle : ℕ) :
    (w.setDirs (handle :: w.dirs)).UpToData (w'.setDirs (handle :: w'.dirs)) := by
  obtain ⟨os, log, hl, rfl⟩ := h
  exact ⟨os, log, hl, rfl⟩

theorem UpToData.setFd {w w' : World} (h : w.UpToData w') (fh : ℕ) (f : FileHandle) (fd : ℤ) :
    (w.setFd fh f fd).UpToData (w'.setFd fh f fd) := by
  obtain ⟨os, log, hl, rfl⟩ := h
  exact ⟨os, log, hl, rfl⟩

theorem UpToData.deleteFile {w w' : World} (h : w.UpToData w') (fh : ℕ) :
    (w.deleteFile fh).UpToData (w'.deleteFile fh) := by
  obtain ⟨os, log, hl, rfl⟩ := h
  exact ⟨os, log, hl, rfl⟩

theorem UpToData.renameHandles {w w' : World} (h : w.UpToData w') (i : ℕ)
    (old_key new_key : MetaKey) (filename : Bytes) :
    (w.renameHandles i old_key new_key filename).UpToData
      (w'.renameHandles i old_key new_key filename) := by
  obtain ⟨hi, ho⟩ := h.store.insertHandle new_key
    (renameInodeValue (w.store.value i) filename) .write
  have hv : w'.store.value i = w.store.value i := by
    obtain ⟨_, _, _, rfl⟩ := h
    rfl
  rw [World.renameHandles, World.renameHandles, Store.insert, Store.insert, hv, ho]
  exact h.setStore ((((hi.batchCommit i _).release _).release i).evict old_key)

/-! ### Locks and system calls -/

end World

/-- Locks and descriptors: events with no durable effect. -/
def Event.Passing : Event → Prop
  | .db _ | .disk _ => False
  | _ => True

theorem Event.Passing.apply {ev : Event} (h : ev.Passing) (d : Durable) : d.apply ev = d := by
  cases ev with
  | db e => exact h.elim
  | disk e => exact h.elim
  | _ => rfl

/-- A descriptor is opened or closed. -/
def Event.OfFd : Event → Prop
  | .openFd _ | .closeFd _ => True
  | _ => False

namespace World

/-- A relation that a system call on a data file stays within if it opens and closes none. Its
changes of the data directory are among those that `A` allows. -/
structure IoQuiet (A : DiskEffect → Prop) (R : World → World → Prop) : Prop where
  refl : ∀ w, R w w
  trans : ∀ {w w' w''}, R w w' → R w' w'' → R w w''
  os : ∀ (w : World) (os : Os), os.disk = w.os.disk → os.fds = w.os.fds → R w { w with os := os }
  commit : ∀ (w : World) (e : DiskEffect), A e → R w (w.commit e)

section

variable {A : DiskEffect → Prop} {R : World → World → Prop} (h : IoQuiet A R)
include h

theorem IoQuiet.nextIo (w : World) : R w w.nextIo.2 := by
  unfold World.nextIo
  split
  · exact h.refl w
  · exact h.os w _ rfl rfl

theorem IoQuiet.sysPread (w : World) (fd : ℤ) (size : ℕ) (offset : ℤ) :
    R w (w.sysPread fd size offset).1 := by
  have hn := h.nextIo w
  unfold World.sysPread
  split
  · rename_i ho; rw [ho] at hn; exact h.trans hn (h.os _ _ rfl rfl)
  · rename_i ho
    rw [ho] at hn
    refine h.trans hn ?_
    split
    · exact h.os _ _ rfl rfl
    · split
      · exact h.os _ _ rfl rfl
      · split <;> exact h.os _ _ rfl rfl

theorem IoQuiet.sysPwrite (w : World) (fd : ℤ) (buf : Bytes) (offset : ℤ)
    (hw : ∀ file offset data, A (.pwrite file offset data)) :
    R w (w.sysPwrite fd buf offset).1 := by
  have hn := h.nextIo w
  unfold World.sysPwrite
  split
  · rename_i ho; rw [ho] at hn; exact h.trans hn (h.os _ _ rfl rfl)
  · rename_i ho
    rw [ho] at hn
    refine h.trans hn ?_
    split
    · exact h.os _ _ rfl rfl
    · split
      · exact h.os _ _ rfl rfl
      · split
        · exact h.os _ _ rfl rfl
        · refine h.trans ?_ (h.os _ _ rfl rfl)
          split
          · exact h.refl _
          · exact h.commit _ _ (hw _ _ _)

theorem IoQuiet.sysFtruncate (w : World) (fd size : ℤ)
    (ht : ∀ file size, A (.truncate file size)) : R w (w.sysFtruncate fd size).1 := by
  have hn := h.nextIo w
  unfold World.sysFtruncate
  split
  · rename_i ho; rw [ho] at hn; exact h.trans hn (h.os _ _ rfl rfl)
  · rename_i ho
    rw [ho] at hn
    refine h.trans hn ?_
    split
    · exact h.os _ _ rfl rfl
    · split
      · exact h.os _ _ rfl rfl
      · exact h.commit _ _ (ht _ _)

theorem IoQuiet.sysTruncate (w : World) (path : BlobPath) (size : ℤ)
    (ht : ∀ file size, A (.truncate file size)) : R w (w.sysTruncate path size).1 := by
  have hn := h.nextIo w
  unfold World.sysTruncate
  split
  · rename_i ho; rw [ho] at hn; exact h.trans hn (h.os _ _ rfl rfl)
  · rename_i ho
    rw [ho] at hn
    refine h.trans hn ?_
    split
    · exact h.os _ _ rfl rfl
    · split
      · exact h.os _ _ rfl rfl
      · exact h.commit _ _ (ht _ _)

theorem IoQuiet.sysFsync (w : World) (fd : ℤ) : R w (w.sysFsync fd).1 := by
  have hn := h.nextIo w
  unfold World.sysFsync
  split
  · rename_i ho; rw [ho] at hn; exact h.trans hn (h.os _ _ rfl rfl)
  · rename_i ho
    rw [ho] at hn
    refine h.trans hn ?_
    split
    · exact h.os _ _ rfl rfl
    · exact h.refl _

theorem IoQuiet.sysUnlink (w : World) (path : BlobPath) (hu : A (.unlink path)) :
    R w (w.sysUnlink path) := by
  unfold World.sysUnlink
  split
  · exact h.os w _ rfl rfl
  · exact h.commit _ _ hu

end

/-- A relation that every system call on a data file stays within, whose changes of the
data directory are among those that `A` allows. -/
structure IoClosed (A : DiskEffect → Prop) (R : World → World → Prop) : Prop where
  refl : ∀ w, R w w
  trans : ∀ {w w' w''}, R w w' → R w' w'' → R w w''
  os : ∀ (w : World) (os : Os), os.disk = w.os.disk → R w { w with os := os }
  note : ∀ (w : World) (os : Os) (ev : Event), os.disk = w.os.disk → ev.OfFd →
    R w { w with os := os, store := { w.store with log := w.store.log ++ [ev] } }
  commit : ∀ (w : World) (e : DiskEffect), A e → R w (w.commit e)

section

variable {A : DiskEffect → Prop} {R : World → World → Prop} (h : IoClosed A R)
include h

theorem IoClosed.quiet : IoQuiet A R := ⟨h.refl, h.trans, fun w os hd _ => h.os w os hd, h.commit⟩

theorem IoClosed.openFd (w : World) (file : ℕ) (acc : AccMode) : R w (w.openFd file acc) :=
  h.note w _ _ rfl trivial

theorem IoClosed.sysOpen (w : World) (path : BlobPath) (flags : OpenFlags) (creat : Bool)
    (hc : A (.create path)) (ht : ∀ file, A (.truncate file 0)) :
    R w (w.sysOpen path flags creat).1 := by
  have hn := h.quiet.nextIo w
  unfold World.sysOpen
  split
  · rename_i ho; rw [ho] at hn; exact h.trans hn (h.os _ _ rfl)
  · rename_i ho
    rw [ho] at hn
    split
    · refine h.trans hn (h.trans ?_ (h.openFd _ _ _))
      split
      · exact h.commit _ _ (ht _)
      · exact h.refl _
    · split
      · exact h.trans hn (h.trans (h.commit _ _ hc) (h.openFd _ _ _))
      · exact h.trans hn (h.os _ _ rfl)

theorem IoClosed.sysClose (w : World) (fd : ℤ) : R w (w.sysClose fd).1 := by
  unfold World.sysClose
  split
  · exact h.os w _ rfl
  · exact h.note w _ _ rfl trivial

end

/-- An event that is no write to the metadata store. -/
theorem upToData_log (w : World) (os : Os) {ev : Event} (h : dbEvents [ev] = []) :
    w.UpToData { w with os := os, store := { w.store with log := w.store.log ++ [ev] } } :=
  ⟨os, _, by rw [dbEvents_append, h, List.append_nil], rfl⟩

theorem upToData_note (w : World) {ev : Event} (h : dbEvents [ev] = []) :
    w.UpToData (w.note ev) := w.upToData_log w.os h

theorem upToData_readLock (w : World) (k : MetaKey) : w.UpToData (w.readLock k) :=
  w.upToData_note rfl
theorem upToData_writeLock (w : World) (k : MetaKey) : w.UpToData (w.writeLock k) :=
  w.upToData_note rfl
theorem upToData_unlock (w : World) (k : MetaKey) : w.UpToData (w.unlock k) :=
  w.upToData_note rfl
theorem upToData_setErrno (w : World) (e : ℕ) : w.UpToData (w.setErrno e) := ⟨_, _, rfl, rfl⟩
theorem upToData_commit (w : World) (e : DiskEffect) : w.UpToData (w.commit e) :=
  w.upToData_log _ rfl

/-- Every system call keeps a state up to its data. -/
theorem upToData_ioClosed : IoClosed (fun _ => True) UpToData where
  refl := UpToData.refl
  trans := UpToData.trans
  os := fun w os _ => ⟨os, w.store.log, rfl, rfl⟩
  note := fun w os ev _ hev => w.upToData_log os (by
    cases ev with
    | openFd fd => rfl
    | closeFd fd => rfl
    | _ => exact hev.elim)
  commit := fun w e _ => w.upToData_commit e

theorem upToData_sysOpen (w : World) (path : BlobPath) (flags : OpenFlags) (creat : Bool) :
    w.UpToData (w.sysOpen path flags creat).1 :=
  IoClosed.sysOpen upToData_ioClosed w path flags creat trivial fun _ => trivial

theorem upToData_sysClose (w : World) (fd : ℤ) : w.UpToData (w.sysClose fd).1 :=
  IoClosed.sysClose upToData_ioClosed w fd

theorem upToData_sysPread (w : World) (fd : ℤ) (size : ℕ) (offset : ℤ) :
    w.UpToData (w.sysPread fd size offset).1 :=
  IoQuiet.sysPread upToData_ioClosed.quiet w fd size offset

theorem upToData_sysPwrite (w : World) (fd : ℤ) (buf : Bytes) (offset : ℤ) :
    w.UpToData (w.sysPwrite fd buf offset).1 :=
  IoQuiet.sysPwrite upToData_ioClosed.quiet w fd buf offset fun _ _ _ => trivial

theorem upToData_sysFtruncate (w : World) (fd size : ℤ) :
    w.UpToData (w.sysFtruncate fd size).1 :=
  IoQuiet.sysFtruncate upToData_ioClosed.quiet w fd size fun _ _ => trivial

theorem upToData_sysTruncate (w : World) (path : BlobPath) (size : ℤ) :
    w.UpToData (w.sysTruncate path size).1 :=
  IoQuiet.sysTruncate upToData_ioClosed.quiet w path size fun _ _ => trivial

theorem upToData_sysFsync (w : World) (fd : ℤ) : w.UpToData (w.sysFsync fd).1 :=
  IoQuiet.sysFsync upToData_ioClosed.quiet w fd

theorem upToData_sysUnlink (w : World) (path : BlobPath) : w.UpToData (w.sysUnlink path) :=
  IoQuiet.sysUnlink upToData_ioClosed.quiet w path trivial

end World

end Tablefs
