/-
Calls on a path that leads to no record.

All of them find out in the same way: `PathLookup` resolves the parent, and the inode
cache, or for `Readlink` the metadata store, has nothing under the key. They differ in
where the error number comes from. `OpenDir` alone takes it from `errno`, which nothing on
its way has set.
-/
import Tablefs.Reachable

set_option autoImplicit false

namespace Tablefs

open ByteString

namespace World

/-! ## Missing records -/

/-- The parent resolves, and no record is under the path's key, in the cache or in the store. -/
def NoRecord (w : World) (path : Bytes) : Prop :=
  ∃ key, (w.pathLookup path).2 = some key ∧ w.store.lookup key = none

/-- The call is given such a path; with `Rename` it is the old path, and the new path's parent
resolves. -/
def MissesRecord (w : World) : Op → Prop
  | .getAttr path | .openFile path _ | .truncate path _ | .readlink path _ | .unlink path
  | .openDir path | .removeDir path | .updateTimens path _ _ | .chmod path _ | .chown path _ _ =>
      w.NoRecord path
  | .rename old_path new_path =>
      w.NoRecord old_path ∧ ((w.pathLookup old_path).1.pathLookup new_path).2 ≠ none
  | _ => False

/-- The call answers `-ENOENT` and leaves what is stored, the counter of inode numbers and
everything that is open as it is. -/
structure ReportsMissing (w : World) (op : Op) : Prop where
  ret : (w.step op).2.ret = -(ENOENT : ℤ)
  metadb : (w.next op).store.metadb = w.store.metadb
  disk : (w.next op).os.disk = w.os.disk
  counter : (w.next op).max_inode_num = w.max_inode_num
  handles : (w.next op).store.cache = w.store.cache
  files : (w.next op).files = w.files
  dirs : (w.next op).dirs = w.dirs

/-! ## What the calls do -/

variable {w : World} {path : Bytes}

theorem Looked.reportsMissing {op : Op} (h : w.Looked (w.next op))
    (hret : (w.step op).2.ret = -(ENOENT : ℤ)) : w.ReportsMissing op :=
  ⟨hret, h.metadb, h.disk, h.max_inode_num, h.cache, h.files, h.dirs⟩

theorem cacheGet_of_lookup {key : MetaKey} (h : w.store.lookup key = none)
    (mode : InodeAccessMode) : w.cacheGet key mode = (w, none) := by
  rcases hg : w.cacheGet key mode with ⟨w', _ | handle⟩
  · rw [(cacheGet_none hg).1]
  · have hsome := cacheGet_lookup hg
    rw [h] at hsome
    cases hsome

/-- After the lookup of a path without a record, neither the cache nor the store has anything
under the key, whatever locks are taken; and `errno` is as it was. -/
theorem NoRecord.lookup (h : w.NoRecord path) :
    ∃ w₁ key, w.pathLookup path = (w₁, some key) ∧ w.Looked w₁ ∧ w₁.os.errno = w.os.errno ∧
      ∀ w', w₁.Looked w' → (∀ mode, w'.cacheGet key mode = (w', none)) ∧
        w'.store.dbGet key = none := by
  obtain ⟨key, hkey, hnone⟩ := h
  have hl := w.pathLookup_looked path
  have herrno := w.pathLookup_errno path
  rw [hkey, if_neg (by simp)] at herrno
  refine ⟨(w.pathLookup path).1, key, Prod.ext rfl hkey, hl, herrno, fun w' hl' => ?_⟩
  have hlook : w'.store.lookup key = none := by rw [(hl.trans hl').lookup, hnone]
  refine ⟨fun mode => cacheGet_of_lookup hlook mode, ?_⟩
  rw [Store.lookup] at hlook
  cases hf : w'.store.cache.find key with
  | some i =>
      rw [hf] at hlook
      cases hlook
  | none =>
      rw [hf] at hlook
      exact hlook

/-- The calls that write-lock the key and return `-ENOENT` for want of a handle. -/
theorem NoRecord.writeLocked (h : w.NoRecord path) :
    ∃ w₁ key, w.pathLookup path = (w₁, some key) ∧
      (∀ mode, (w₁.writeLock key).cacheGet key mode = (w₁.writeLock key, none)) ∧
      w.Looked ((w₁.writeLock key).unlock key) := by
  obtain ⟨w₁, key, hp, hl, -, hget⟩ := h.lookup
  exact ⟨w₁, key, hp, (hget _ (looked_writeLock w₁ key)).1,
    (hl.trans (looked_writeLock w₁ key)).trans (looked_unlock _ key)⟩

theorem getAttr_missing (h : w.NoRecord path) : w.ReportsMissing (.getAttr path) := by
  obtain ⟨w₁, key, hp, hl, -, hget⟩ := h.lookup
  have hcall : w.getAttr path = ((w₁.readLock key).unlock key, -(ENOENT : ℤ), none) := by
    rw [getAttr, hp]
    dsimp only
    rw [(hget _ (looked_readLock w₁ key)).1]
  apply Looked.reportsMissing
  · rw [next, step, hcall]
    exact (hl.trans (looked_readLock w₁ key)).trans (looked_unlock _ key)
  · rw [step, hcall]

theorem openFile_missing (h : w.NoRecord path) (flags : OpenFlags) :
    w.ReportsMissing (.openFile path flags) := by
  obtain ⟨w₁, key, hp, hget, hl⟩ := h.writeLocked
  have hcall : w.openFile path flags = ((w₁.writeLock key).unlock key, -(ENOENT : ℤ), none) := by
    rw [openFile, hp]
    dsimp only
    rw [hget]
  apply Looked.reportsMissing
  · rw [next, step, hcall]
    exact hl
  · rw [step, hcall]

/-- `Truncate` asks the cache first and takes the lock afterwards. -/
theorem truncate_missing (h : w.NoRecord path) (new_size : ℤ) :
    w.ReportsMissing (.truncate path new_size) := by
  obtain ⟨w₁, key, hp, hl, -, hget⟩ := h.lookup
  have hcall : w.truncate path new_size = ((w₁.writeLock key).unlock key, -(ENOENT : ℤ)) := by
    rw [truncate, hp]
    dsimp only
    rw [(hget _ (Looked.refl w₁)).1]
  apply Looked.reportsMissing
  · rw [next, step, hcall]
    exact (hl.trans (looked_writeLock w₁ key)).trans (looked_unlock _ key)
  · rw [step, hcall]

/-- `Readlink` reads the store, and sets `errno` itself. -/
theorem readlink_missing (h : w.NoRecord path) (size : ℕ) :
    w.ReportsMissing (.readlink path size) := by
  obtain ⟨w₁, key, hp, hl, -, hget⟩ := h.lookup
  have hcall : w.readlink path size =
      (((w₁.readLock key).setErrno ENOENT).unlock key, -(ENOENT : ℤ), []) := by
    rw [readlink, hp]
    dsimp only
    rw [(hget _ (looked_readLock w₁ key)).2]
  apply Looked.reportsMissing
  · rw [next, step, hcall]
    exact ((hl.trans (looked_readLock w₁ key)).trans (looked_setErrno _ ENOENT)).trans
      (looked_unlock _ key)
  · rw [step, hcall]

theorem unlink_missing (h : w.NoRecord path) : w.ReportsMissing (.unlink path) := by
  obtain ⟨w₁, key, hp, hget, hl⟩ := h.writeLocked
  have hcall : w.unlink path = ((w₁.writeLock key).unlock key, -(ENOENT : ℤ)) := by
    rw [unlink, hp]
    dsimp only
    rw [hget]
  apply Looked.reportsMissing
  · rw [next, step, hcall]
    exact hl
  · rw [step, hcall]

theorem removeDir_missing (h : w.NoRecord path) : w.ReportsMissing (.removeDir path) := by
  obtain ⟨w₁, key, hp, hget, hl⟩ := h.writeLocked
  have hcall : w.removeDir path = ((w₁.writeLock key).unlock key, -(ENOENT : ℤ)) := by
    rw [removeDir, hp]
    dsimp only
    rw [hget]
  apply Looked.reportsMissing
  · rw [next, step, hcall]
    exact hl
  · rw [step, hcall]

theorem rename_missing {old_path new_path : Bytes} (h : w.NoRecord old_path)
    (hnew : ((w.pathLookup old_path).1.pathLookup new_path).2 ≠ none) :
    w.ReportsMissing (.rename old_path new_path) := by
  obtain ⟨w₁, old_key, hp, hl, -, hget⟩ := h.lookup
  rw [hp] at hnew
  obtain ⟨new_key, hkey⟩ := Option.ne_none_iff_exists'.mp hnew
  have hl' := w₁.pathLookup_looked new_path
  have hp' : w₁.pathLookup new_path = ((w₁.pathLookup new_path).1, some new_key) :=
    Prod.ext rfl hkey
  generalize (w₁.pathLookup new_path).1 = w₂ at hl' hp'
  have hlocked : w₁.Looked ((w₂.writeLock (lockOrder old_key new_key).1).writeLock
      (lockOrder old_key new_key).2) :=
    (hl'.trans (looked_writeLock _ _)).trans (looked_writeLock _ _)
  have hcall : w.rename old_path new_path =
      ((((w₂.writeLock (lockOrder old_key new_key).1).writeLock
          (lockOrder old_key new_key).2).unlock (lockOrder old_key new_key).2).unlock
          (lockOrder old_key new_key).1, -(ENOENT : ℤ)) := by
    rw [rename, hp]
    dsimp only
    rw [hp']
    dsimp only
    rw [(hget _ hlocked).1]
  apply Looked.reportsMissing
  · rw [next, step, hcall]
    exact ((hl.trans hlocked).trans (looked_unlock _ _)).trans (looked_unlock _ _)
  · rw [step, hcall]

/-- `UpdateTimens`, `Chmod` and `Chown`. -/
theorem attributes_missing {op : Op} {edit : Stat → Stat} {unlocks : Bool} (h : w.NoRecord path)
    (hcall : w.step op = ((w.editAttribute path edit unlocks).1,
      { ret := (w.editAttribute path edit unlocks).2 })) : w.ReportsMissing op := by
  obtain ⟨w₁, key, hp, hget, hl⟩ := h.writeLocked
  have hedit : w.editAttribute path edit unlocks =
      ((w₁.writeLock key).unlock key, -(ENOENT : ℤ)) := by
    rw [editAttribute, hp]
    dsimp only
    rw [hget]
  rw [hedit] at hcall
  apply Looked.reportsMissing
  · rw [next, hcall]
    exact hl
  · rw [hcall]

/-- `OpenDir` answers with what `errno` was. -/
theorem openDir_missing (h : w.NoRecord path) :
    w.ReportsMissing (.openDir path) ↔ w.os.errno = ENOENT := by
  obtain ⟨w₁, key, hp, hl, herrno, hget⟩ := h.lookup
  have hcall : w.openDir path =
      ((w₁.readLock key).unlock key, -(w.os.errno : ℤ), none) := by
    rw [openDir, hp]
    dsimp only
    rw [(hget _ (looked_readLock w₁ key)).1, ← herrno]
    rfl
  have hret : (w.step (.openDir path)).2.ret = -(w.os.errno : ℤ) := by rw [step, hcall]
  constructor
  · intro hreports
    have h2 := hreports.ret
    rw [hret] at h2
    omega
  · intro herr
    apply Looked.reportsMissing
    · rw [next, step, hcall]
      exact (hl.trans (looked_readLock w₁ key)).trans (looked_unlock _ key)
    · rw [hret, herr]

/-! ## When a missing record is reported -/

/-- A call on a path without a record reports it, and leaves everything as it is, exactly if it
is no `OpenDir` or `errno` is `ENOENT` already. -/
theorem missing_reported_iff {op : Op} (h : w.MissesRecord op) :
    w.ReportsMissing op ↔ ∀ path, op = .openDir path → w.os.errno = ENOENT := by
  have hother : w.ReportsMissing op → (∀ path, op ≠ .openDir path) →
      (w.ReportsMissing op ↔ ∀ path, op = .openDir path → w.os.errno = ENOENT) :=
    fun hr hne => iff_of_true hr fun path hp => absurd hp (hne path)
  cases op with
  | openDir path =>
      rw [openDir_missing h]
      exact ⟨fun herr _ _ => herr, fun hall => hall path rfl⟩
  | getAttr path => exact hother (getAttr_missing h) fun _ => by simp
  | openFile path flags => exact hother (openFile_missing h flags) fun _ => by simp
  | truncate path new_size => exact hother (truncate_missing h new_size) fun _ => by simp
  | readlink path size => exact hother (readlink_missing h size) fun _ => by simp
  | unlink path => exact hother (unlink_missing h) fun _ => by simp
  | removeDir path => exact hother (removeDir_missing h) fun _ => by simp
  | rename old_path new_path => exact hother (rename_missing h.1 h.2) fun _ => by simp
  | updateTimens path atime mtime => exact hother (attributes_missing h rfl) fun _ => by simp
  | chmod path mode => exact hother (attributes_missing h rfl) fun _ => by simp
  | chown path uid gid => exact hother (attributes_missing h rfl) fun _ => by simp
  | _ => exact h.elim

theorem openDir_reported :
    ((mount Durable.empty plainConfig).setErrno ENOENT).ReportsMissing (.openDir [47, 97]) := by
  have h : ((mount Durable.empty plainConfig).setErrno ENOENT).MissesRecord (.openDir [47, 97]) :=
    ⟨buildMetaKey [97] 0, by decide +kernel, by decide +kernel⟩
  exact (missing_reported_iff h).mpr fun _ _ => rfl

/-- `errno` is 0 after the mount, and so `OpenDir` of a directory that is not there succeeds. -/
theorem openDir_unreported :
    ¬ ∀ (w : World) (op : Op), w.Reachable → w.MissesRecord op → w.ReportsMissing op := by
  intro hall
  have hreports := hall _ (.openDir [47, 97]) (Reachable.mount empty_records plainConfig)
    ⟨buildMetaKey [97] 0, by decide +kernel, by decide +kernel⟩
  exact absurd hreports.ret (by decide +kernel)

end World

end Tablefs
