/-
Open handles of files that were unlinked or renamed away.

`Unlink` and `Rename` take the entry of the old key out of the cache's table, and the
handle of an open file lives on without one (`Parted`). `Write` on it changes no record.
`Release` writes its handle back under the old key, whatever is stored there by then:
it puts the handle's value if the mode is `INODE_WRITE`, deletes the record if it is
`INODE_DELETE` and does nothing if it is `INODE_READ` (`close_dbGet`). So the key is left
alone exactly if what is pending in the handle is there already
(`orphan_undisturbed_iff`).
-/
import Tablefs.Removal

set_option autoImplicit false

namespace Tablefs

open ByteString

namespace Store

variable {s s' : Store} {k : MetaKey}

/-! ## What `Release` does to the handle's key -/

/-- Dropping an entry that has nothing pending. -/
theorem evict_dbGet_of_read (h : ∀ j ∈ s.cache.lru, s.keyOf j = k → s.mode j = .read)
    (k' : MetaKey) : (s.evict k).dbGet k' = s.dbGet k' := by
  have hd := s.cache.erase_dropped k
  rcases cleanAll_dbGet { s with cache := (s.cache.erase k).1 } (s.cache.erase k).2 k' with
    he | ⟨i, hi, hik, he⟩
  · exact he
  · -- a freed entry was under `k`, so it is in `INODE_READ`
    exfalso
    obtain ⟨hil, hnl, _⟩ := (hd.freed i).mp hi
    have hkey : s.keyOf i = k := by
      by_contra hne
      exact hnl ((LruCache.mem_erase_lru_of_ne hne).mpr hil)
    have hmode : Store.mode { s with cache := (s.cache.erase k).1 } i = .read := by
      rw [mode, hd.val]
      exact h i hil hkey
    rw [hmode] at he
    rcases he with ⟨he, _⟩ | ⟨he, _⟩ <;> cases he

/-- Giving back a handle to delete, when its record is gone. -/
theorem release_dbGet_of_delete {i : ℕ} (hm : s.mode i = .delete) (h : s.dbGet k = none) :
    (s.release i).dbGet k = none := by
  rcases cleanAll_dbGet { s with cache := (s.cache.release i).1 } (s.cache.release i).2 k with
    he | ⟨j, hj, -, he⟩
  · exact he.trans h
  · have hji : j = i := by
      simp only [LruCache.release] at hj
      split at hj
      · exact List.mem_singleton.mp hj
      · exact absurd hj List.not_mem_nil
    subst hji
    rcases he with ⟨hw, _⟩ | ⟨_, he⟩
    · rw [show Store.mode { s with cache := (s.cache.release j).1 } j = s.mode j from rfl, hm] at hw
      cases hw
    · exact he

theorem dbPut_dbGet_self (s : Store) (k : MetaKey) (v : Bytes) :
    (s.dbPut k v).1.dbGet k
      = if s.dbFaults.head? = some true then s.dbGet k else some v := by
  unfold dbPut tryCommit
  split
  · rename_i heq
    rw [heq, List.head?_cons, if_pos rfl]
    rfl
  · rename_i heq
    rw [heq, List.head?_cons, if_neg (by simp), commit_put_dbGet, if_pos rfl]
  · rename_i heq
    rw [heq, List.head?_nil, if_neg (by simp), commit_put_dbGet, if_pos rfl]

/-- What `Release` leaves under the key of a handle that has no entry in the table. -/
theorem close_dbGet {i : ℕ} (hk : s.keyOf i = k)
    (hq : ∀ j ∈ s.cache.lru, s.keyOf j = k → s.mode j = .read) (v : Bytes) :
    ((((s.setValue i v).writeBack i).release i).evict k).dbGet k
      = match s.mode i with
        | .read => s.dbGet k
        | .delete => none
        | .write => if s.dbFaults.head? = some true then s.dbGet k else some v := by
  have hq1 : ∀ j ∈ (s.setValue i v).cache.lru, (s.setValue i v).keyOf j = k →
      (s.setValue i v).mode j = .read := by
    intro j hj hjk
    rw [setValue_mode]
    exact hq j hj hjk
  have hk1 : (s.setValue i v).keyOf i = k := hk
  cases hm : s.mode i with
  | read =>
      have hm1 : (s.setValue i v).mode i = .read := (setValue_mode s i i v).trans hm
      rw [writeBack, hm1]
      dsimp only
      rw [evict_dbGet_of_read, release_dbGet_of_read _ hm1]
      · rfl
      · intro j hj hjk
        rw [release_lru] at hj
        rw [release_keyOf] at hjk
        rw [release_mode]
        exact hq1 j hj hjk
  | delete =>
      have hm1 : (s.setValue i v).mode i = .delete := (setValue_mode s i i v).trans hm
      rw [writeBack, hm1]
      dsimp only
      rw [hk1]
      -- the write-back deletes the record and drops the key's entry
      have hdel : (((s.setValue i v).dbDelete k).evict k).dbGet k = none := by
        rw [evict_dbGet_of_read (s := (s.setValue i v).dbDelete k) hq1, dbDelete_dbGet, if_pos rfl]
      have hm2 : (((s.setValue i v).dbDelete k).evict k).mode i = .delete := by
        rw [evict_mode]
        exact hm1
      rw [evict_of_not_mem]
      · exact release_dbGet_of_delete hm2 hdel
      · intro j hj
        rw [release_lru] at hj
        rw [release_keyOf]
        exact (evict_keyOf _ hj).1
  | write =>
      have hm1 : (s.setValue i v).mode i = .write := (setValue_mode s i i v).trans hm
      rw [writeBack, hm1]
      dsimp only
      rw [hk1, setValue_value_self]
      have hc : ((s.setValue i v).dbPut k v).1.cache = (s.setValue i v).cache := dbPut_cache _ _ _
      have hread : (((s.setValue i v).dbPut k v).1.setMode i .read).mode i = .read :=
        setMode_mode_self _ _ _
      rw [evict_dbGet_of_read, release_dbGet_of_read _ hread]
      · exact dbPut_dbGet_self (s.setValue i v) k v
      · intro j hj hjk
        rw [release_lru] at hj
        rw [release_keyOf, setMode_keyOf, keyOf_congr hc] at hjk
        rw [release_mode]
        by_cases hji : j = i
        · rw [hji]; exact hread
        · rw [setMode_mode_of_ne _ hji, mode_congr hc]
          exact hq1 j (hc ▸ hj) hjk

/-! ## What `Rename` leaves of the table -/

theorem get_lru {m : InodeAccessMode} {i j : ℕ} (hg : s.get k m = (s', some i))
    (hj : j ∈ s'.cache.lru) : j ∈ s.cache.lru ∨ j = i ∧ s.cache.next ≤ j := by
  rcases get_cases hg with ⟨hf, rfl⟩ | ⟨_, v, _, rfl, rfl⟩
  · left
    have hj' : j ∈ (s.cache.touch i (LruCache.mem_of_find hf)).lru := by
      split at hj <;> exact hj
    exact LruCache.mem_touch_lru.mp hj'
  · rcases insertHandle_lru s k v m hj with h | ⟨h, _⟩
    · exact Or.inr ⟨h, Nat.le_of_eq h.symm⟩
    · exact Or.inl h

theorem get_mode_of_ne {m : InodeAccessMode} {i j : ℕ} (hg : s.get k m = (s', some i))
    (hji : j ≠ i) : s'.mode j = s.mode j := by
  rcases get_cases hg with ⟨hf, rfl⟩ | ⟨_, v, _, rfl, rfl⟩
  · split
    · rfl
    · exact setMode_mode_of_ne _ hji _
  · obtain ⟨c', freed, hins, he⟩ := s.insertHandle_spec k v m
    rw [he, mode_congr (cleanAll_cache _ _)]
    show (c'.val j).mode_ = _
    rw [hins.val, Function.update_of_ne (by omega)]
    rfl

theorem insertHandle_of_lt {v : Bytes} {m : InodeAccessMode} {j : ℕ} (hj : j < s.cache.next) :
    (s.insertHandle k v m).1.keyOf j = s.keyOf j ∧ (s.insertHandle k v m).1.mode j = s.mode j := by
  obtain ⟨c', freed, hins, he⟩ := s.insertHandle_spec k v m
  rw [he, keyOf_congr (cleanAll_cache _ _), mode_congr (cleanAll_cache _ _)]
  constructor
  · show c'.key j = _
    rw [hins.key, Function.update_of_ne (by omega)]; rfl
  · show (c'.val j).mode_ = _
    rw [hins.val, Function.update_of_ne (by omega)]; rfl

theorem get_next {m : InodeAccessMode} {i : ℕ} (hg : s.get k m = (s', some i)) :
    s.cache.next ≤ s'.cache.next := by
  rcases get_cases hg with ⟨_, rfl⟩ | ⟨_, v, _, rfl, rfl⟩
  · split <;> exact Nat.le_refl _
  · obtain ⟨c', freed, hins, he⟩ := s.insertHandle_spec k v m
    rw [he, cleanAll_cache, hins.next]
    exact Nat.le_succ _

/-- The handle operations of `Rename`. -/
def moved (s' : Store) (i : ℕ) (old_key new_key : MetaKey) (v : Bytes) : Store :=
  ((((s'.insert new_key v).1.batchCommit i (s'.insert new_key v).2).release
    (s'.insert new_key v).2).release i).evict old_key

/-- The entries of the table after `Rename`: the new key's, with nothing pending, and old
ones under other keys. -/
theorem moved_lru {old_key new_key : MetaKey} {i : ℕ} (hg : s.get old_key .delete = (s', some i))
    (v : Bytes) {m : ℕ} (hm : m ∈ (moved s' i old_key new_key v).cache.lru) :
    (moved s' i old_key new_key v).keyOf m ≠ old_key ∧
      (s.cache.next ≤ m ∧ (moved s' i old_key new_key v).mode m = .read ∨
        m ∈ s.cache.lru ∧ (moved s' i old_key new_key v).keyOf m = s.keyOf m ∧
          (moved s' i old_key new_key v).mode m = s.mode m) := by
  have hpair := insert_paired hg new_key v
  have hne := (evict_keyOf _ hm).1
  have hm1 := (evict_keyOf _ hm).2
  rw [release_lru, release_lru] at hm1
  obtain ⟨hold, hm1⟩ := hpair.batch_lru hm1
  -- keys and modes are those after the batch
  have hkey : (moved s' i old_key new_key v).keyOf m = (s'.insert new_key v).1.keyOf m := by
    rw [moved, evict_keyOf_eq, release_keyOf, release_keyOf]
    exact hpair.batch_keyOf m
  have hmode : (moved s' i old_key new_key v).mode m
      = (((s'.insert new_key v).1.evict old_key).setMode s'.cache.next .read).mode m := by
    rw [moved, evict_mode, release_mode, release_mode]
    exact mode_congr hpair.batch_cache m
  refine ⟨hne, ?_⟩
  rcases insertHandle_lru s' new_key v .write hm1 with rfl | ⟨hm2, _, hk2⟩
  · exact Or.inl ⟨get_next hg, hmode.trans (setMode_mode_self _ _ _)⟩
  · have hlt := s'.cache.lt_next m hm2
    have hmi : m ≠ i := by
      rintro rfl
      exact hold (hk2.trans (get_keyOf hg))
    have hms := (get_lru hg hm2).resolve_right fun h => hmi h.1
    have hlts := s.cache.lt_next m hms
    refine Or.inr ⟨hms, ?_, ?_⟩
    · exact (hkey.trans hk2).trans (get_keyOf_of_lt hg hlts)
    · rw [hmode, setMode_mode_of_ne _ (by omega), evict_mode,
        show (s'.insert new_key v).1.mode m = s'.mode m from (insertHandle_of_lt hlt).2,
        get_mode_of_ne hg hmi]

theorem moved_keyOf {old_key new_key : MetaKey} {i j : ℕ} (hg : s.get old_key .delete = (s', some i))
    (v : Bytes) (hj : j < s.cache.next) :
    (moved s' i old_key new_key v).keyOf j = s.keyOf j := by
  have hlt := get_next hg
  rw [moved, evict_keyOf_eq, release_keyOf, release_keyOf]
  refine ((insert_paired hg new_key v).batch_keyOf j).trans ?_
  exact ((insertHandle_of_lt (by omega)).1).trans (get_keyOf_of_lt hg hj)

end Store

namespace World

open Store

variable {w : World} {fh : ℕ} {k : MetaKey}

/-! ## A handle without an entry -/

/-- The open file's handle is under the key and has no entry in the table; an entry the
table has under the key has nothing pending. -/
structure Parted (w : World) (fh : ℕ) (k : MetaKey) : Prop where
  accounted : w.Accounted
  off : ∀ f, w.files fh = some f → w.store.keyOf f.handle_ = k ∧ f.handle_ ∉ w.store.cache.lru
  quiet : ∀ j ∈ w.store.cache.lru, w.store.keyOf j = k → w.store.mode j = .read

theorem parted_of_evicted (ha : w.Accounted)
    (hoff : ∀ f, w.files fh = some f → w.store.keyOf f.handle_ = k)
    (hlru : ∀ j ∈ w.store.cache.lru, w.store.keyOf j ≠ k) : w.Parted fh k where
  accounted := ha
  off := fun f hf => ⟨hoff f hf, fun hmem => hlru _ hmem (hoff f hf)⟩
  quiet := fun j hj hk => absurd hk (hlru j hj)

theorem UpToData.parted {w' : World} (hu : w.UpToData w') (ha : w'.Accounted)
    (h : w.Parted fh k) : w'.Parted fh k := by
  obtain ⟨os, log, _, rfl⟩ := hu
  exact ⟨ha, h.off, h.quiet⟩

theorem Looked.parted {w₁ : World} (hl : w.Looked w₁) (h : w.Parted fh k) : w₁.Parted fh k where
  accounted := h.accounted.congr (by rw [hl.cache]) hl.nextFile hl.files hl.dirs
  off := by
    intro f hf
    rw [hl.files] at hf
    rw [keyOf_congr hl.cache, hl.cache]
    exact h.off f hf
  quiet := by
    intro j hj hk
    rw [hl.cache] at hj
    rw [keyOf_congr hl.cache] at hk
    rw [mode_congr hl.cache]
    exact h.quiet j hj hk

/-- `Rename` and `Unlink` of the key part it from its open files. -/
theorem perform_remove_lru {i : ℕ} {w' : World} (hg : w.cacheGet k .delete = (w', some i)) :
    (∀ j ∈ (w.perform (.remove k)).store.cache.lru, (w.perform (.remove k)).store.keyOf j ≠ k) ∧
      ∀ j < w.store.cache.next, (w.perform (.remove k)).store.keyOf j = w.store.keyOf j := by
  simp only [perform, hg]
  obtain ⟨s, hs, rfl⟩ := cacheGet_some hg
  constructor
  · exact fun j hj => (evict_keyOf _ hj).1
  · intro j hj
    show ((s.release i).evict k).keyOf j = _
    rw [evict_keyOf_eq, release_keyOf]
    exact get_keyOf_of_lt hs hj

theorem perform_move_store {i : ℕ} {old_key : MetaKey} (new_key : MetaKey) (filename : Bytes)
    {s' : Store} (hs : w.store.get old_key .delete = (s', some i)) :
    (w.perform (.move old_key new_key filename)).store
      = moved s' i old_key new_key (renameInodeValue (s'.value i) filename) := by
  have hg : w.cacheGet old_key .delete = (w.setStore s', some i) := by
    rw [cacheGet, hs]
  simp only [perform, hg]
  rw [setDentry_store, renameHandles, setStore_store]
  rfl

/-! ## What keeps it parted -/

/-- The calls that the file's user and its key's next owners make. -/
def OnOrphan (fh : ℕ) : Op → Prop
  | .write fh' _ _ | .release fh' => fh' = fh
  | .makeNode _ _ _ | .makeDir _ _ | .symlink _ _ | .rename _ _ => True
  | _ => False

instance (fh : ℕ) : DecidablePred (OnOrphan fh) := fun op => match op with
  | .write fh' _ _ | .release fh' => inferInstanceAs (Decidable (fh' = fh))
  | .makeNode _ _ _ | .makeDir _ _ | .symlink _ _ | .rename _ _ => inferInstanceAs (Decidable True)
  | .getAttr _ | .openFile _ _ | .read _ _ _ | .fsync _ _ | .truncate _ _ | .readlink _ _
  | .unlink _ | .openDir _ | .readDir _ _ | .releaseDir _ | .removeDir _ | .access _ _
  | .updateTimens _ _ _ | .chmod _ _ | .chown _ _ _ | .evict _ | .setEnv _ | .setFaults _ _ =>
      inferInstanceAs (Decidable False)

theorem perform_files_of_move (w : World) (old_key new_key : MetaKey) (filename : Bytes) :
    (w.perform (.move old_key new_key filename)).files = w.files := by
  simp only [perform]
  rcases hg : w.cacheGet old_key .delete with ⟨w', _ | i⟩
  · rw [(cacheGet_none hg).1]
  · obtain ⟨s, _, rfl⟩ := cacheGet_some hg
    rw [setDentry_files, renameHandles_files, setStore_files]

theorem Parted.move (h : w.Parted fh k) (old_key new_key : MetaKey) (filename : Bytes) :
    (w.perform (.move old_key new_key filename)).Parted fh k := by
  have ha := h.accounted.perform (.move old_key new_key filename) (by simp)
  rcases hs : w.store.get old_key .delete with ⟨s', _ | i⟩
  · have hidle : w.perform (.move old_key new_key filename) = w := by
      have hg : w.cacheGet old_key .delete = (w.setStore s', none) := by rw [cacheGet, hs]
      simp only [perform, hg]
      exact (cacheGet_none hg).1
    rw [hidle]
    exact h
  · have hst := perform_move_store new_key filename hs
    refine ⟨ha, ?_, ?_⟩
    · intro f hf
      rw [perform_files_of_move] at hf
      have hpin := h.accounted.pinned_of_file hf
      have hlt : f.handle_ < w.store.cache.next := LruCache.live_lt_next (Or.inr hpin)
      obtain ⟨hkey, hoff⟩ := h.off f hf
      rw [hst]
      refine ⟨(moved_keyOf hs _ hlt).trans hkey, fun hmem => ?_⟩
      rcases (moved_lru hs _ hmem).2 with ⟨hge, _⟩ | ⟨hmem', _⟩
      · omega
      · exact hoff hmem'
    · intro j hj hjk
      rw [hst] at hj hjk ⊢
      rcases (moved_lru hs _ hj).2 with ⟨_, hread⟩ | ⟨hmem, hkey, hmode⟩
      · exact hread
      · rw [hmode]
        exact h.quiet j hmem (hkey.symm.trans hjk)

theorem Parted.write (h : w.Parted fh k) (value : Bytes) (fd : ℤ) :
    (w.perform (.write fh value fd)).Parted fh k := by
  have ha := h.accounted.perform (.write fh value fd) (by simp)
  simp only [perform] at ha ⊢
  cases hf : w.files fh with
  | none => exact h
  | some f =>
      rw [hf] at ha
      obtain ⟨hkey, hoff⟩ := h.off f hf
      refine ⟨ha, ?_, ?_⟩
      · intro g hg
        have hg' : g = { f with fd_ := fd } := by
          have : Function.update w.files fh (some { f with fd_ := fd }) fh = some g := hg
          rw [Function.update_self] at this
          exact (Option.some.inj this).symm
        subst hg'
        exact ⟨hkey, hoff⟩
      · intro j hj hjk
        have hji : j ≠ f.handle_ := fun he => hoff (he ▸ hj)
        show ((w.store.setMode f.handle_ .write).setValue f.handle_ value).mode j = .read
        rw [setValue_mode, setMode_mode_of_ne _ hji]
        exact h.quiet j hj hjk

theorem Parted.close (h : w.Parted fh k) (value : Bytes) :
    (w.perform (.close fh value)).Parted fh k := by
  have ha := h.accounted.perform (.close fh value) (by simp)
  simp only [perform] at ha ⊢
  cases hf : w.files fh with
  | none => exact h
  | some f =>
      rw [hf] at ha
      obtain ⟨hkey, _⟩ := h.off f hf
      refine parted_of_evicted ha ?_ ?_
      · intro g hg
        have hnone : Function.update w.files fh none fh = some g := hg
        rw [Function.update_self] at hnone
        cases hnone
      · rw [← hkey]
        exact fun j hj => (evict_keyOf _ hj).1

theorem Parted.create (h : w.Parted fh k) (key : MetaKey) (value : Bytes) :
    (w.perform (.create key value)).Parted fh k := by
  have hc : (w.perform (.create key value)).store.cache = w.store.cache := dbPut_cache _ _ _
  refine ⟨h.accounted.perform (.create key value) (by simp), ?_, ?_⟩
  · intro f hf
    rw [keyOf_congr hc, hc]
    exact h.off f hf
  · intro j hj hjk
    rw [hc] at hj
    rw [keyOf_congr hc] at hjk
    rw [mode_congr hc]
    exact h.quiet j hj hjk

theorem Parted.step (h : w.Parted fh k) {op : Op} (hop : OnOrphan fh op) :
    (w.next op).Parted fh k := by
  obtain ⟨w₁, e, hl, _, hp, hu⟩ := w.step_steps op
  have h₁ := hl.parted h
  refine hu.parted (h.accounted.step op) ?_
  cases hp with
  | idle => exact h₁
  | write fd =>
      obtain rfl := hop
      exact h₁.write _ fd
  | release =>
      obtain rfl := hop
      exact h₁.close _
  | symlink | makeNode | makeDir => exact h₁.create _ _
  | rename => exact h₁.move _ _ _
  | _ => exact hop.elim

/-! ## When the key is left alone -/

/-- The call is made through the open file and leaves the key's record as it is. -/
def Undisturbed (fh : ℕ) (k : MetaKey) (w : World) : Op → Prop
  | .write fh' buf offset =>
      fh' = fh → (w.next (.write fh' buf offset)).store.dbGet k = w.store.dbGet k
  | .release fh' => fh' = fh → (w.next (.release fh')).store.dbGet k = w.store.dbGet k
  | _ => True

/-- When the open file is closed, what is pending in its handle is there already: nothing
in `INODE_READ`, the absence of the record in `INODE_DELETE`, and in `INODE_WRITE` the
record with the handle's value, or the put is about to fail. -/
def Harmless (fh : ℕ) (k : MetaKey) (w : World) : Op → Prop
  | .release fh' => fh' = fh → ∀ f ∈ w.files fh,
      match w.store.mode f.handle_ with
      | .read => True
      | .delete => w.store.dbGet k = none
      | .write => w.store.dbFaults.head? = some true ∨
          w.store.dbGet k = some (w.closeValue f.handle_)
  | _ => True

theorem Parted.undisturbed_iff (h : w.Parted fh k) {op : Op} :
    Undisturbed fh k w op ↔ Harmless fh k w op := by
  cases op with
  | write fh' buf offset =>
      refine ⟨fun _ => trivial, fun _ _ => ?_⟩
      obtain ⟨e, hp, os, log, _, hu⟩ := w.write_acts fh' buf offset
      show (w.write fh' buf offset).1.store.dbGet k = _
      rw [hu]
      cases hp with
      | idle => rfl
      | write fd hf he =>
          simp only [perform, hf]
          rfl
  | release fh' =>
      refine forall_congr' fun hfh => ?_
      subst hfh
      cases hf : w.files fh' with
      | none =>
          have hidle : w.next (.release fh') = w := by
            show (w.release fh').1 = w
            rw [release, hf]
          rw [hidle]
          exact ⟨fun _ f hmem => (Option.not_mem_none f hmem).elim, fun _ => rfl⟩
      | some f =>
          obtain ⟨hkey, hoff⟩ := h.off f hf
          obtain ⟨os, log, _, hu⟩ := release_some hf
          have hdb : (w.next (.release fh')).store.dbGet k
              = (w.perform (.close fh' (w.closeValue f.handle_))).store.dbGet k := by
            show (w.release fh').1.store.dbGet k = _
            rw [hu]
            rfl
          have hclose := close_dbGet hkey h.quiet (w.closeValue f.handle_)
          simp only [perform, hf] at hdb
          rw [hdb, show w.store.keyOf f.handle_ = k from hkey] at *
          simp only [Option.mem_def, Option.some.injEq, forall_eq']
          refine Eq.trans (congrArg (· = w.store.dbGet k) hclose) ?_ |>.to_iff
          cases w.store.mode f.handle_ with
          | read => exact propext ⟨fun _ => trivial, fun _ => rfl⟩
          | delete => exact propext eq_comm
          | write =>
              dsimp only
              split
              · rename_i hfault
                exact propext ⟨fun _ => Or.inl hfault, fun _ => rfl⟩
              · rename_i hfault
                exact propext ⟨fun he => Or.inr he.symm, fun he =>
                  (he.resolve_left hfault).symm⟩
  | _ => exact Iff.rfl

/-! ## Every run -/

/-- The path was unlinked or renamed away. -/
def IsRemoval (path : Bytes) (op : Op) : Prop :=
  op = .unlink path ∨ ∃ new_path, op = .rename path new_path

/-- After `Unlink` or `Rename` of its path, an open file has a handle without an entry. -/
theorem parted_of_removal (ha : w.Accounted) {f : FileHandle} (hf : w.files fh = some f)
    {path : Bytes} {op : Op} (hop : IsRemoval path op)
    (hk : (w.pathLookup path).2 = some (w.store.keyOf f.handle_))
    (hret : (w.step op).2.ret = 0) : (w.next op).Parted fh (w.store.keyOf f.handle_) := by
  have hlt : f.handle_ < w.store.cache.next :=
    LruCache.live_lt_next (Or.inr (ha.pinned_of_file hf))
  have hENOENT : (-(ENOENT : ℤ)) ≠ 0 := by decide
  -- it is enough to look at the effect, performed after the lookups
  have main : ∀ {w₁ : World} {e : Effect}, w.Looked w₁ → (w₁.perform e).UpToData (w.next op) →
      (w₁.perform e).files = w.files →
      (∀ j ∈ (w₁.perform e).store.cache.lru,
        (w₁.perform e).store.keyOf j ≠ w.store.keyOf f.handle_) →
      (w₁.perform e).store.keyOf f.handle_ = w.store.keyOf f.handle_ →
      (∀ i, e = .closeDir i → i ∈ w₁.dirs) →
      (w.next op).Parted fh (w.store.keyOf f.handle_) := by
    intro w₁ e hl hu hfiles hlru hkey hdir
    have ha₁ : w₁.Accounted := ha.congr (by rw [hl.cache]) hl.nextFile hl.files hl.dirs
    refine hu.parted (ha.step op) (parted_of_evicted (ha₁.perform e hdir) ?_ hlru)
    intro g hg
    rw [hfiles, hf] at hg
    rw [← Option.some.inj hg]
    exact hkey
  rcases hop with rfl | ⟨new_path, rfl⟩
  · have hl := w.pathLookup_looked path
    rcases hp : w.pathLookup path with ⟨w₁, o⟩
    rw [hp] at hl hk
    dsimp only at hk
    subst hk
    obtain ⟨hu, hr⟩ := unlink_some hp
    have hsome : w₁.store.lookup (w.store.keyOf f.handle_) ≠ none := by
      intro hnone
      rw [if_pos hnone] at hr
      exact hENOENT (hr.symm.trans hret)
    rcases hg : w₁.cacheGet (w.store.keyOf f.handle_) .delete with ⟨w', _ | i⟩
    · exact absurd (cacheGet_none hg).2 hsome
    · obtain ⟨hlru, hkeys⟩ := perform_remove_lru hg
      refine main hl hu ?_ hlru ?_ (by simp)
      · obtain ⟨s, _, rfl⟩ := cacheGet_some hg
        simp only [perform, hg]
        exact hl.files
      · rw [hkeys _ (by rw [hl.cache]; exact hlt), keyOf_congr hl.cache]
  · cases hn : ((w.pathLookup path).1.pathLookup new_path).2 with
    | none =>
        -- a target that leads nowhere is not renamed to
        have herr := (w.pathLookup path).1.pathLookup_errno new_path
        rw [hn, if_pos rfl] at herr
        have hfail : (w.step (.rename path new_path)).2.ret
            = ((w.pathLookup path).1.pathLookup new_path).1.fsError := by
          show (w.rename path new_path).2 = _
          rw [rename, show w.pathLookup path = ((w.pathLookup path).1, some _) from
            Prod.ext rfl hk]
          dsimp only
          rw [show (w.pathLookup path).1.pathLookup new_path
            = (((w.pathLookup path).1.pathLookup new_path).1, none) from Prod.ext rfl hn]
        rw [hfail, fsError, herr] at hret
        exact absurd hret hENOENT
    | some new_key =>
        obtain ⟨w₂, hl, _, hu, hcase⟩ := rename_cases hk hn
        have hsome : w₂.store.lookup (w.store.keyOf f.handle_) ≠ none := by
          rw [hl.lookup]
          rcases hcase with ⟨_, hr, _⟩ | ⟨h, _⟩
          · exact absurd (hr.symm.trans hret) hENOENT
          · exact h
        rcases hs : w₂.store.get (w.store.keyOf f.handle_) .delete with ⟨s', _ | i⟩
        · exact absurd (get_none_iff hs).2 hsome
        · have hst := perform_move_store new_key (filenameOf new_path) hs
          refine main hl hu ?_ ?_ ?_ (by simp)
          · rw [perform_files_of_move]
            exact hl.files
          · intro j hj
            rw [hst] at hj ⊢
            exact (moved_lru hs _ hj).1
          · rw [hst, moved_keyOf hs _ (by rw [hl.cache]; exact hlt), keyOf_congr hl.cache]

/-- A file is made and opened for writing. -/
def orphanRun : List Op := [.makeNode [47, 97] 0 0, .openFile [47, 97] O_RDWR]

end World

end Tablefs
