/-
Failures of the metadata store.

`LevelDBAdaptor` reports that a `Put` or a `Write` failed. `MakeNode` and `MakeDir` pass
that on; `Symlink`, `WriteBack` and `BatchCommit` drop the status, and `Fsync` turns -1
into 1. So a call whose own write fails reports it if it is one of the former, or by
accident, when a system call of it fails as well (`store_failure_reported_iff`).
-/
import Tablefs.Reachable

set_option autoImplicit false

namespace Tablefs

open ByteString

namespace Store

/-- A write fails when the next outcome is a failure. -/
theorem tryCommit_fails (s : Store) (e : DbEffect) :
    (s.tryCommit e).2 = if s.dbFaults.head? = some true then -1 else 0 := by
  unfold tryCommit
  split
  · rename_i hf
    rw [hf]
    rfl
  · rename_i hf
    rw [hf]
    rfl
  · rename_i hf
    rw [hf]
    rfl

end Store

namespace World

variable {w : World}

/-! ## The write a call is for -/

/-- The outcomes ahead of the metadata store when a call comes to the `Put` or `Write` of
its own record, if it comes there. What the cache writes back to make room is not among
them. -/
def ownWrite (w : World) : Op → Option (List Bool)
  | .makeNode path _ _ | .makeDir path _ | .symlink _ path =>
      match w.pathLookup path with
      | (_, none) => none
      | (w, some _) => some w.newInode.1.store.dbFaults
  | .truncate path _ =>
      match w.pathLookup path with
      | (_, none) => none
      | (w, some key) =>
          match w.cacheGet key .write with
          | (_, none) => none
          | (w, some _) => some w.store.dbFaults
  | .chmod path _ | .chown path _ _ | .updateTimens path _ _ =>
      match w.pathLookup path with
      | (_, none) => none
      | (w, some key) =>
          match (w.writeLock key).cacheGet key .write with
          | (_, none) => none
          | (w, some _) => some w.store.dbFaults
  | .release fh =>
      match w.files fh with
      | none => none
      | some f => if w.store.mode f.handle_ = .write then some w.store.dbFaults else none
  | .fsync fh datasync =>
      match w.files fh with
      | none => none
      | some f =>
          if w.store.mode f.handle_ = .write ∧ datasync = false then some w.store.dbFaults
          else none
  | .rename old_path new_path =>
      match w.pathLookup old_path with
      | (_, none) => none
      | (w, some old_key) =>
          match w.pathLookup new_path with
          | (_, none) => none
          | (w, some new_key) =>
              let (large_key, small_key) := lockOrder old_key new_key
              match ((w.writeLock large_key).writeLock small_key).cacheGet old_key .delete with
              | (_, none) => none
              | (w, some old_handle) =>
                  let i := w.store.insert new_key
                    (renameInodeValue (w.store.value old_handle) (filenameOf new_path))
                  let r := i.1.batchOne old_handle
                  some (r.1.batchOne i.2).1.dbFaults
  | _ => none

/-- The `Put` or `Write` of the call's own record fails. -/
def OwnWriteFails (w : World) (op : Op) : Prop := ∃ fs, w.ownWrite op = some (true :: fs)

/-- The call says so, and a `Rename` leaves the old record where it was. -/
def Reports (w : World) (op : Op) : Prop :=
  w.OwnWriteFails op → (w.step op).2.ret < 0 ∧
    ∀ old_path new_path key v, op = .rename old_path new_path →
      (w.pathLookup old_path).2 = some key → w.store.dbGet key = some v →
      (w.next op).store.dbGet key = some v

/-! ## Failures of other kinds -/

/-- The data moves to a new disk file, and `ftruncate` cannot set its size. -/
def SizingFails (w : World) (handle : ℕ) (new_size : ℤ) : Prop :=
  ¬ 0 < (w.iheader handle).has_blob ∧ w.threshold_ < new_size ∧
    let m := w.migrateToDiskFile handle w.env.junkInt ⟨.wrOnly, true⟩
    m.2.1 = 0 ∧ (m.1.sysFtruncate m.2.2 new_size).2 < 0

/-- In `Truncate`, the data moves to a new disk file, and `ftruncate` cannot set its size. -/
def FtruncateFails (w : World) (path : Bytes) (new_size : ℤ) : Prop :=
  match w.pathLookup path with
  | (_, none) => False
  | (w, some key) =>
      match w.cacheGet key .write with
      | (_, none) => False
      | (w, some handle) => (w.writeLock key).SizingFails handle new_size

/-- `Release` has a descriptor to close that is not open. -/
def CloseFails (w : World) (fh : ℕ) : Prop :=
  ∃ f ∈ w.files fh, f.fd_ ≠ -1 ∧ w.fdEntry f.fd_ = none

/-- When a failure of the call's own write is reported. -/
def ReportsWhen (w : World) (op : Op) : Prop :=
  match op with
  | .makeNode _ _ _ | .makeDir _ _ => True
  | .truncate path new_size => ¬ w.OwnWriteFails op ∨ w.FtruncateFails path new_size
  | .release fh => ¬ w.OwnWriteFails op ∨ w.CloseFails fh
  | _ => ¬ w.OwnWriteFails op

/-! ## What each call answers -/

/-- The path is found, and the store's next outcome is a failure. -/
theorem create_of_fails {path : Bytes} (h : ∃ fs, (match w.pathLookup path with
      | (_, none) => none
      | (w, some _) => some w.newInode.1.store.dbFaults) = some (true :: fs)) :
    ∃ w₁ key fs, w.pathLookup path = (w₁, some key) ∧
      w₁.newInode.1.store.dbFaults = true :: fs := by
  obtain ⟨fs, h⟩ := h
  rcases hp : w.pathLookup path with ⟨w₁, _ | key⟩
  · rw [hp] at h
    cases h
  · rw [hp] at h
    exact ⟨w₁, key, fs, rfl, Option.some.inj h⟩

/-- `MakeNode` and `MakeDir` pass the failure on. -/
theorem makeInode_fails {path : Bytes} {mode : UInt32} {dev : UInt64} {w₁ : World} {key : MetaKey}
    {fs : List Bool} (hp : w.pathLookup path = (w₁, some key))
    (hfs : w₁.newInode.1.store.dbFaults = true :: fs) : (w.makeInode path mode dev).2 < 0 := by
  have hput : ∀ v, ((w₁.newInode.1.writeLock key).store.dbPut key v).2 = -1 := by
    intro v
    rw [Store.dbPut, Store.tryCommit_fails, if_pos]
    show w₁.newInode.1.store.dbFaults.head? = _
    rw [hfs]
    rfl
  rw [makeInode, hp]
  dsimp only
  rw [hput, if_neg (by decide)]
  exact (by decide : -(ENOENT : ℤ) < 0)

/-- `Symlink` does not. -/
theorem symlink_ret {target path : Bytes} {w₁ : World} {key : MetaKey}
    (hp : w.pathLookup path = (w₁, some key)) : (w.symlink target path).2 = 0 := by
  rw [symlink, hp]

/-- Nor do `Chmod`, `Chown` and `UpdateTimens`. -/
theorem editAttribute_ret {path : Bytes} (edit : Stat → Stat) (unlocks : Bool) {fs : List Bool}
    (h : (match w.pathLookup path with
      | (_, none) => none
      | (w, some key) =>
          match (w.writeLock key).cacheGet key .write with
          | (_, none) => none
          | (w, some _) => some w.store.dbFaults) = some fs) :
    (w.editAttribute path edit unlocks).2 = 0 := by
  rcases hp : w.pathLookup path with ⟨w₁, _ | key⟩
  · rw [hp] at h
    cases h
  · rw [hp] at h
    rcases hg : (w₁.writeLock key).cacheGet key .write with ⟨w₂, _ | handle⟩
    · dsimp only at h
      rw [hg] at h
      cases h
    · rw [editAttribute, hp]
      dsimp only
      rw [hg]

/-- `Rename` answers 0 when it has come to its batch. -/
theorem rename_ret {old_path new_path : Bytes} {fs : List Bool}
    (h : w.ownWrite (.rename old_path new_path) = some fs) :
    (w.rename old_path new_path).2 = 0 := by
  rw [ownWrite] at h
  rw [rename]
  rcases hp : w.pathLookup old_path with ⟨w₁, _ | old_key⟩
  · rw [hp] at h
    cases h
  · rw [hp] at h
    dsimp only at h ⊢
    rcases hp' : w₁.pathLookup new_path with ⟨w₂, _ | new_key⟩
    · rw [hp'] at h
      cases h
    · rw [hp'] at h
      dsimp only at h ⊢
      rcases hg : ((w₂.writeLock (lockOrder old_key new_key).1).writeLock
        (lockOrder old_key new_key).2).cacheGet old_key .delete with ⟨w₃, _ | handle⟩
      · rw [hg] at h
        cases h
      · rfl

/-- `Fsync` makes 1 of the failure. -/
theorem fsync_ret {fh : ℕ} {datasync : Bool} {fs : List Bool}
    (h : w.ownWrite (.fsync fh datasync) = some (true :: fs)) : (w.fsync fh datasync).2 = 1 := by
  rw [ownWrite] at h
  rw [fsync]
  cases hf : w.files fh with
  | none =>
      rw [hf] at h
      cases h
  | some f =>
      rw [hf] at h
      dsimp only at h ⊢
      split at h
      · rename_i hm
        have hfaults := Option.some.inj h
        rw [if_pos (show (w.writeLock _).store.mode f.handle_ = .write from hm.1), hm.2,
          if_neg (by decide)]
        -- `fsync` does not touch the store
        have hstore : ∀ w' : World, w'.store.dbFaults = w.store.dbFaults →
            -(w'.store.dbSync).2 = 1 := by
          intro w' hw'
          rw [Store.dbSync, Store.tryCommit_fails, hw', hfaults, if_pos (by rfl)]
          rfl
        refine hstore _ ?_
        split
        · obtain ⟨_, _, _, hu⟩ := upToData_sysFsync (w.writeLock (w.store.keyOf f.handle_)) f.fd_
          rw [hu]
          rfl
        · rfl
      · cases h

theorem truncateData_neg (w : World) (handle : ℕ) (new_size : ℤ) :
    (w.truncateData handle new_size).2 < 0 ↔ w.SizingFails handle new_size := by
  have hzero : ¬ (0 : ℤ) < 0 := Int.lt_irrefl 0
  unfold truncateData SizingFails
  dsimp only
  by_cases hblob : 0 < (w.iheader handle).has_blob
  · rw [if_pos hblob]
    refine ⟨fun h => absurd ?_ hzero, fun h => absurd hblob h.1⟩
    by_cases hbig : w.threshold_ < new_size
    · rwa [if_pos hbig] at h
    · rwa [if_neg hbig] at h
  · rw [if_neg hblob]
    by_cases hbig : w.threshold_ < new_size
    · rw [if_pos hbig, truncateMigrate]
      dsimp only
      by_cases hm : (w.migrateToDiskFile handle w.env.junkInt ⟨.wrOnly, true⟩).2.1 = 0
      · rw [if_pos hm]
        exact ⟨fun h => ⟨hblob, hbig, hm, h⟩, fun h => h.2.2.2⟩
      · rw [if_neg hm]
        exact ⟨fun h => absurd h hzero, fun h => absurd h.2.2.1 hm⟩
    · rw [if_neg hbig]
      exact ⟨fun h => absurd h hzero, fun h => absurd h.2.1 hbig⟩

/-- `Truncate` answers with what its `ftruncate` said. -/
theorem truncate_ret {path : Bytes} {new_size : ℤ} {fs : List Bool}
    (h : w.ownWrite (.truncate path new_size) = some fs) :
    (w.truncate path new_size).2 < 0 ↔ w.FtruncateFails path new_size := by
  rw [ownWrite] at h
  rw [truncate, FtruncateFails]
  rcases hp : w.pathLookup path with ⟨w₁, _ | key⟩
  · rw [hp] at h
    cases h
  · rw [hp] at h
    dsimp only at h ⊢
    rcases hg : w₁.cacheGet key .write with ⟨w₂, _ | handle⟩
    · rw [hg] at h
      cases h
    · exact truncateData_neg _ _ _

/-- `Release` answers with what its `close` said. -/
theorem release_ret {fh : ℕ} : (w.release fh).2 < 0 ↔ w.CloseFails fh := by
  rw [release]
  cases hf : w.files fh with
  | none =>
      refine ⟨fun h => absurd h (Int.lt_irrefl 0), ?_⟩
      rintro ⟨f, hf', _⟩
      rw [hf] at hf'
      cases hf'
  | some f =>
      dsimp only
      generalize hwt : (if (w.writeLock (w.store.keyOf f.handle_)).store.mode f.handle_ = .write
        then _ else w.writeLock (w.store.keyOf f.handle_)) = wt
      have hos : wt.os.fds = w.os.fds := by
        rw [← hwt]
        split <;> rfl
      have hentry : wt.fdEntry f.fd_ = w.fdEntry f.fd_ := by rw [fdEntry, hos, fdEntry]
      have hcloses : w.CloseFails fh ↔ f.fd_ ≠ -1 ∧ wt.fdEntry f.fd_ = none := by
        rw [hentry]
        refine ⟨?_, fun h => ⟨f, hf, h⟩⟩
        rintro ⟨g, hg, h⟩
        rw [hf] at hg
        obtain rfl := Option.some.inj hg
        exact h
      rw [hcloses]
      by_cases hfd : f.fd_ = -1
      · rw [if_neg (not_not.mpr hfd), if_neg (by simp)]
        exact ⟨fun h => absurd h (Int.lt_irrefl 0), fun h => absurd hfd h.1⟩
      · rw [if_pos hfd, sysClose]
        cases he : wt.fdEntry f.fd_ with
        | none =>
            refine ⟨fun _ => ⟨hfd, rfl⟩, fun _ => ?_⟩
            exact (by decide : -(EBADF : ℤ) < 0)
        | some g =>
            refine ⟨fun h => absurd h (Int.lt_irrefl 0), fun h => ?_⟩
            cases h.2

/-- A call reports the failure of its own write if and only if it is `MakeNode` or
`MakeDir`, or that write does not fail, or a system call of `Truncate` or `Release` fails as
well. -/
theorem store_failure_reported_iff (w : World) (op : Op) : w.Reports op ↔ w.ReportsWhen op := by
  have hvac : ¬ w.OwnWriteFails op → w.Reports op := fun h hf => absurd hf h
  have hother : (∀ fs, w.ownWrite op = some (true :: fs) → 0 ≤ (w.step op).2.ret) →
      w.Reports op → ¬ w.OwnWriteFails op := by
    rintro hret hrep ⟨fs, hfs⟩
    have := hret fs hfs
    have := (hrep ⟨fs, hfs⟩).1
    omega
  cases op with
  | makeNode path mode dev =>
      refine ⟨fun _ => trivial, fun _ hfails => ⟨?_, fun _ _ _ _ h => by cases h⟩⟩
      obtain ⟨w₁, key, fs, hp, hfs⟩ := create_of_fails hfails
      exact makeInode_fails hp hfs
  | makeDir path mode =>
      refine ⟨fun _ => trivial, fun _ hfails => ⟨?_, fun _ _ _ _ h => by cases h⟩⟩
      obtain ⟨w₁, key, fs, hp, hfs⟩ := create_of_fails hfails
      exact makeInode_fails hp hfs
  | symlink target path =>
      refine ⟨hother fun fs h => ?_, hvac⟩
      obtain ⟨w₁, key, _, hp, _⟩ := create_of_fails ⟨fs, h⟩
      exact (symlink_ret hp).ge
  | truncate path new_size =>
      constructor
      · intro hrep
        by_cases hfails : w.OwnWriteFails (.truncate path new_size)
        · obtain ⟨fs, hfs⟩ := hfails
          exact Or.inr ((truncate_ret hfs).mp (hrep ⟨fs, hfs⟩).1)
        · exact Or.inl hfails
      · rintro (hno | hft)
        · exact hvac hno
        · rintro ⟨fs, hfs⟩
          exact ⟨(truncate_ret hfs).mpr hft, fun _ _ _ _ h => by cases h⟩
  | release fh =>
      constructor
      · intro hrep
        by_cases hfails : w.OwnWriteFails (.release fh)
        · exact Or.inr (release_ret.mp (hrep hfails).1)
        · exact Or.inl hfails
      · rintro (hno | hclose)
        · exact hvac hno
        · exact fun _ => ⟨release_ret.mpr hclose, fun _ _ _ _ h => by cases h⟩
  | chmod path mode | chown path uid gid | updateTimens path atime mtime =>
      exact ⟨hother fun fs h => (editAttribute_ret _ _ h).ge, hvac⟩
  | rename old_path new_path => exact ⟨hother fun fs h => (rename_ret h).ge, hvac⟩
  | fsync fh datasync => exact ⟨hother fun fs h => by
      show 0 ≤ (w.fsync fh datasync).2
      rw [fsync_ret h]
      decide, hvac⟩
  | _ =>
      have hnone : ∀ fs : List Bool, (none : Option (List Bool)) ≠ some fs := fun _ h => by cases h
      exact ⟨hother fun fs h => absurd h (hnone _), hvac⟩

/-- A file is made, and the next write to the store will fail. -/
def failingState : World :=
  ((mount Durable.empty plainConfig).next (.makeNode [47, 97] 0 0)).next (.setFaults [true] [])

/-- Then `Rename` answers 0, and the file is gone. -/
theorem store_failure_unreported :
    ¬ ∀ (w : World) (op : Op), w.Reachable → op.WellFormed → w.Reports op := by
  intro h
  have hreach : failingState.Reachable :=
    ((Reachable.mount empty_records plainConfig).step (by decide)).step (by decide)
  have hfails : failingState.OwnWriteFails (.rename [47, 97] [47, 98]) := ⟨[], by decide +kernel⟩
  have hret := (h failingState (.rename [47, 97] [47, 98]) hreach (by decide) hfails).1
  revert hret
  decide +kernel

end World

end Tablefs
