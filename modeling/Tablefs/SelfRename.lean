/-
`Rename` of a path to itself.

The two handles `Rename` takes are then under one key. `Insert` displaces the old handle
from the table, the batch drops the new one's entry, so the table is left without an entry
under the key, and the old handle is `Detached`: it still has its delete pending. Whoever
gives it back last deletes the record that the batch has just stored. When the record was
not open that is `Rename` itself; otherwise it is the `Release` or the last `ReleaseDir` of
whoever has it open (`self_rename_loses`).

The comparison is with the same calls made without the `Rename`. There the handle is in the
table, and no entry of the table ever has a delete pending (`Reachable.undeleted`), so the
same closing calls leave the record where it is.
-/
import Tablefs.Orphans

set_option autoImplicit false

namespace Tablefs

open ByteString

namespace Store

/-! ## No entry of the table has a delete pending -/

/-- No entry of the table has a delete pending. -/
def Undeleted (s : Store) : Prop := ∀ i ∈ s.cache.lru, s.mode i ≠ .delete

variable {s s' t : Store} {k : MetaKey} {i : ℕ}

/-- Entries that were there before, with the modes they had. -/
theorem Undeleted.of_lru (h : s.Undeleted) (hl : ∀ j ∈ t.cache.lru, j ∈ s.cache.lru)
    (hm : ∀ j, t.mode j = s.mode j) : t.Undeleted := by
  intro j hj
  rw [hm]
  exact h j (hl j hj)

theorem Undeleted.congr (h : s.Undeleted) (hc : t.cache = s.cache) : t.Undeleted :=
  h.of_lru (fun _ hj => hc ▸ hj) (mode_congr hc)

theorem Undeleted.release (h : s.Undeleted) (i : ℕ) : (s.release i).Undeleted :=
  h.of_lru (fun _ hj => release_lru s i ▸ hj) (release_mode s i)

theorem Undeleted.evict (h : s.Undeleted) (k : MetaKey) : (s.evict k).Undeleted :=
  h.of_lru (fun _ hj => (evict_keyOf s hj).2) (evict_mode s k)

theorem Undeleted.setValue (h : s.Undeleted) (i : ℕ) (v : Bytes) : (s.setValue i v).Undeleted :=
  h.of_lru (fun _ hj => hj) fun j => setValue_mode s i j v

theorem Undeleted.setMode (h : s.Undeleted) (i : ℕ) {m : InodeAccessMode} (hm : m ≠ .delete) :
    (s.setMode i m).Undeleted := by
  intro j hj
  by_cases hji : j = i
  · rw [hji, setMode_mode_self]
    exact hm
  · rw [setMode_mode_of_ne s hji]
    exact h j hj

theorem Undeleted.writeBack (h : s.Undeleted) (i : ℕ) : (s.writeBack i).Undeleted := by
  unfold Store.writeBack
  split
  · exact (h.congr (dbPut_cache s _ _)).setMode i (by decide)
  · exact (h.congr (dbDelete_cache s _)).evict _
  · exact h

/-- `Get` may put a delete on the entry it returns, and on no other. -/
theorem Undeleted.get_off {m : InodeAccessMode} (h : s.Undeleted)
    (hg : s.get k m = (s', some i)) {j : ℕ} (hj : j ∈ s'.cache.lru) (hji : j ≠ i) :
    s'.mode j ≠ .delete := by
  rw [get_mode_of_ne hg hji]
  exact h j ((get_lru hg hj).resolve_right fun hr => hji hr.1)

theorem Undeleted.get {m : InodeAccessMode} (h : s.Undeleted) (hg : s.get k m = (s', some i))
    (hm : m ≠ .delete) : s'.Undeleted := by
  intro j hj
  by_cases hji : j = i
  · subst hji
    rcases get_mode hg with he | ⟨_, hl, _, he⟩
    · rwa [he]
    · rw [he]
      exact h j hl
  · exact h.get_off hg hj hji

end Store

namespace World

open Store

variable {w w' : World} {key : MetaKey}

/-- What an effect does not put on the table is a delete: `Unlink` and `Rename` evict the
entries they put one on. -/
theorem undeleted_perform (h : w.store.Undeleted) (e : Effect)
    (he : ∀ k m, e = .touch k m → m ≠ .delete) : (w.perform e).store.Undeleted := by
  cases e with
  | idle => exact h
  | touch key mode =>
      simp only [perform]
      rcases hg : w.cacheGet key mode with ⟨w', _ | i⟩
      · rw [(cacheGet_none hg).1]
        exact h
      · obtain ⟨s, hs, rfl⟩ := cacheGet_some hg
        exact (h.get hs (he key mode rfl)).release i
  | openFile key flags fd =>
      simp only [perform]
      rcases hg : w.cacheGet key (openMode flags) with ⟨w', _ | i⟩
      · rw [(cacheGet_none hg).1]
        exact h
      · obtain ⟨s, hs, rfl⟩ := cacheGet_some hg
        exact h.get hs (openMode_ne_delete flags)
  | openDir key =>
      simp only [perform]
      rcases hg : w.cacheGet key .read with ⟨w', _ | i⟩
      · rw [(cacheGet_none hg).1]
        exact h
      · obtain ⟨s, hs, rfl⟩ := cacheGet_some hg
        exact h.get hs (by decide)
  | setFd fh fd =>
      simp only [perform]
      cases w.files fh <;> exact h
  | write fh value fd =>
      simp only [perform]
      cases w.files fh with
      | none => exact h
      | some f => exact (h.setMode f.handle_ (by decide)).setValue f.handle_ value
  | close fh value =>
      simp only [perform]
      cases w.files fh with
      | none => exact h
      | some f =>
          exact (((h.setValue f.handle_ value).writeBack f.handle_).release f.handle_).evict _
  | closeDir handle => exact h.release handle
  | edit key value =>
      simp only [perform]
      rcases hg : w.cacheGet key .write with ⟨w', _ | i⟩
      · rw [(cacheGet_none hg).1]
        exact h
      · obtain ⟨s, hs, rfl⟩ := cacheGet_some hg
        exact (((h.get hs (by decide)).setValue i value).writeBack i).release i
  | create key value => exact h.congr (dbPut_cache _ _ _)
  | remove key =>
      rcases hg : w.cacheGet key .delete with ⟨w', _ | i⟩
      · simp only [perform, hg]
        rw [(cacheGet_none hg).1]
        exact h
      · have hoff := (perform_remove_lru hg).1
        simp only [perform, hg] at hoff ⊢
        obtain ⟨s, hs, rfl⟩ := cacheGet_some hg
        -- what is left of the table is not under the key, so it is not the handle
        intro j hj
        have hjs : j ∈ s.cache.lru := release_lru s i ▸ (evict_keyOf _ hj).2
        have hji : j ≠ i := by
          rintro rfl
          refine hoff j hj ?_
          show ((s.release j).evict key).keyOf j = key
          rw [evict_keyOf_eq, release_keyOf, get_keyOf hs]
        show ((s.release i).evict key).mode j ≠ .delete
        rw [evict_mode, release_mode]
        exact h.get_off hs hjs hji
  | move old_key new_key filename =>
      rcases hs : w.store.get old_key .delete with ⟨s', _ | i⟩
      · have hg : w.cacheGet old_key .delete = (w.setStore s', none) := by rw [cacheGet, hs]
        simp only [perform, hg]
        rw [(cacheGet_none hg).1]
        exact h
      · rw [perform_move_store new_key filename hs]
        intro j hj
        rcases (moved_lru hs _ hj).2 with ⟨_, hread⟩ | ⟨hjs, _, hmode⟩
        · rw [hread]
          decide
        · rw [hmode]
          exact h j hjs
  | evict key => exact h.evict key
  | sync => exact h.congr (dbSync_cache _)
  | setEnv env => exact h
  | setFaults dbFaults => exact h

theorem undeleted_step (h : w.store.Undeleted) (op : Op) : (w.step op).1.store.Undeleted := by
  obtain ⟨w₁, e, hl, _, hp, os, log, _, hw⟩ := w.step_steps op
  have h₁ : (w₁.perform e).store.Undeleted := by
    refine undeleted_perform (h.congr hl.cache) e fun k m he => ?_
    subst he
    cases hp with
    | getAttr _ => decide
    | openFail _ => exact openMode_ne_delete _
  rw [hw]
  exact h₁

theorem Reachable.undeleted (h : w.Reachable) : w.store.Undeleted := by
  induction h with
  | mount _ cfg =>
      intro i hi
      rw [(mount_store _ cfg).1] at hi
      exact absurd hi List.not_mem_nil
  | step _ _ ih => exact undeleted_step ih _

end World

namespace Store

variable {s s' t : Store} {k : MetaKey} {i : ℕ}

/-! ## A handle whose entry is gone and whose delete is pending -/

/-- The handle is to be deleted, and the table has no entry under its key. -/
structure Detached (s : Store) (i : ℕ) (k : MetaKey) : Prop where
  keyOf : s.keyOf i = k
  mode : s.mode i = .delete
  off : ∀ j ∈ s.cache.lru, s.keyOf j ≠ k

theorem Detached.congr (h : s.Detached i k) (hc : t.cache = s.cache) : t.Detached i k where
  keyOf := (keyOf_congr hc i).trans h.keyOf
  mode := (mode_congr hc i).trans h.mode
  off := by
    intro j hj
    rw [keyOf_congr hc]
    exact h.off j (hc ▸ hj)

/-- Giving references back leaves it so. -/
theorem Detached.release (h : s.Detached i k) (j : ℕ) : (s.release j).Detached i k where
  keyOf := (release_keyOf s j i).trans h.keyOf
  mode := (release_mode s j i).trans h.mode
  off := by
    intro m hm
    rw [release_keyOf]
    exact h.off m (release_lru s j ▸ hm)

theorem Detached.not_mem (h : s.Detached i k) : i ∉ s.cache.lru :=
  fun hi => h.off i hi h.keyOf

/-- The last reference takes the record with it. -/
theorem Detached.last (h : s.Detached i k) (hp : s.cache.pins i = 1) :
    (s.release i).dbGet k = none := by
  have hr : s.cache.release i = ((s.cache.release i).1, [i]) := by
    rw [LruCache.release, if_pos ⟨hp, h.not_mem⟩]
  have hclean : s.release i = { s with cache := (s.cache.release i).1 }.cleanInodeHandle i := by
    rw [Store.release, hr]
    rfl
  have hmode : Store.mode { s with cache := (s.cache.release i).1 } i = .delete := h.mode
  have hkey : Store.keyOf { s with cache := (s.cache.release i).1 } i = k := h.keyOf
  rw [hclean, cleanInodeHandle, hmode]
  dsimp only
  rw [hkey, dbDelete_dbGet, if_pos rfl]

/-- `Release` of an open file that has it writes it back first, which deletes the record. -/
theorem Detached.close (h : s.Detached i k) (v : Bytes) :
    ((((s.setValue i v).writeBack i).release i).evict k).dbGet k = none := by
  rw [close_dbGet h.keyOf (fun j hj hjk => absurd hjk (h.off j hj)) v, h.mode]

/-- `Rename` of a record to its own key detaches the handle it took, and if nobody else had
it the record is gone. -/
theorem moved_self (hg : s.get k .delete = (s', some i)) (v : Bytes) :
    (moved s' i k k v).Detached i k ∧ (moved s' i k k v).cache.pins i = s.cache.pins i ∧
      (s.cache.pins i = 0 → (moved s' i k k v).dbGet k = none) := by
  have hpair := insert_paired hg k v
  -- after the batch only the old handle's delete is left
  have hdet : ((s'.insert k v).1.batchCommit i s'.cache.next).Detached i k := by
    refine ⟨(hpair.batch_keyOf i).trans hpair.old_keyOf, ?_, ?_⟩
    · rw [mode_congr hpair.batch_cache, setMode_mode_of_ne _ hpair.ne, evict_mode, hpair.old_mode]
    · intro m hm
      rw [hpair.batch_keyOf]
      exact (hpair.batch_lru hm).1
  have hpins : ((s'.insert k v).1.batchCommit i s'.cache.next).cache.pins i
      = s.cache.pins i + 1 := by
    rw [batchCommit_pins, Store.insert, insertHandle_pins, Function.update_of_ne hpair.ne,
      get_pins hg, Function.update_self]
  have hdet' := hdet.release s'.cache.next
  have hpins' : ((((s'.insert k v).1.batchCommit i s'.cache.next)).release
      s'.cache.next).cache.pins i = s.cache.pins i + 1 := by
    rw [release_pins, Function.update_of_ne hpair.ne, hpins]
  have hmoved : moved s' i k k v
      = (((s'.insert k v).1.batchCommit i s'.cache.next).release s'.cache.next).release i :=
    evict_of_not_mem (hdet'.release i).off
  rw [hmoved]
  refine ⟨hdet'.release i, ?_, fun hp => hdet'.last (by omega)⟩
  rw [release_pins, Function.update_self, hpins', Nat.add_sub_cancel]

/-! ## The same closing calls on an entry of the table -/

/-- A handle that is in the table is not freed by giving it back. -/
theorem release_dbGet_of_mem (hi : i ∈ s.cache.lru) (k : MetaKey) :
    (s.release i).dbGet k = s.dbGet k := by
  have hr : s.cache.release i = ((s.cache.release i).1, []) := by
    rw [LruCache.release, if_neg fun h => h.2 hi]
  rw [Store.release, hr]
  rfl

/-- `Release` of an open file whose handle is in the table and not to be deleted leaves a
record under its key. -/
theorem close_keeps (hi : i ∈ s.cache.lru) (hm : s.mode i ≠ .delete) (hk : s.keyOf i = k)
    (hrec : s.dbGet k ≠ none) (v : Bytes) :
    ((((s.setValue i v).writeBack i).release i).evict k).dbGet k ≠ none := by
  have hself : ∀ j ∈ s.cache.lru, s.keyOf j = k → j = i := fun j hj hjk =>
    s.cache.eq_of_key hj hi (hjk.trans hk.symm)
  have hm' := setValue_mode s i i v
  cases hmode : s.mode i with
  | delete => exact absurd hmode hm
  | read =>
      have hread : (s.setValue i v).mode i = .read := hm'.trans hmode
      rw [writeBack, hread]
      dsimp only
      rw [evict_dbGet_of_read, release_dbGet_of_read _ hread]
      · exact hrec
      · intro j hj hjk
        rw [release_lru] at hj
        rw [release_keyOf] at hjk
        rw [release_mode, hself j hj hjk]
        exact hread
  | write =>
      have hwrite : (s.setValue i v).mode i = .write := hm'.trans hmode
      have hc : ((s.setValue i v).dbPut k v).1.cache = (s.setValue i v).cache := dbPut_cache _ _ _
      rw [writeBack_write hwrite, setValue_keyOf, hk, setValue_value_self]
      have hread : (((s.setValue i v).dbPut k v).1.setMode i .read).mode i = .read :=
        setMode_mode_self _ _ _
      rw [evict_dbGet_of_read, release_dbGet_of_read _ hread]
      · -- the put stores a record or fails and leaves the old one
        show ((s.setValue i v).dbPut k v).1.dbGet k ≠ none
        rw [dbPut_dbGet_self]
        split
        · exact hrec
        · exact Option.some_ne_none v
      · intro j hj hjk
        rw [release_lru, setMode, LruCache.setVal_lru, hc] at hj
        rw [release_keyOf, setMode_keyOf, keyOf_congr hc] at hjk
        rw [release_mode, hself j hj hjk]
        exact hread

end Store

namespace World

open Store

variable {w : World} {old_path new_path : Bytes} {key : MetaKey} {i : ℕ}

/-! ## Runs of closing calls -/

theorem next_releaseDir (hd : i ∈ w.dirs) :
    w.next (.releaseDir i) = (w.cacheRelease i).setDirs (w.dirs.erase i) := by
  rw [next, step, releaseDir, if_pos hd]

/-- Closing an open directory as often as it is open deletes the record of a handle that
only it has. -/
theorem releaseDirs_delete {n : ℕ} (h : w.store.Detached i key) (hd : w.dirs.count i = n + 1)
    (hp : w.store.cache.pins i = n + 1) :
    (w.run (List.replicate (n + 1) (.releaseDir i))).store.dbGet key = none := by
  induction n generalizing w with
  | zero =>
      have hmem : i ∈ w.dirs := List.count_pos_iff.mp (by omega)
      show (w.next (.releaseDir i)).store.dbGet key = none
      rw [next_releaseDir hmem]
      exact h.last hp
  | succ n ih =>
      have hmem : i ∈ w.dirs := List.count_pos_iff.mp (by omega)
      show ((w.next (.releaseDir i)).run (List.replicate (n + 1) (.releaseDir i))).store.dbGet key
        = none
      rw [next_releaseDir hmem]
      refine ih (h.release i) ?_ ?_
      · show (w.dirs.erase i).count i = n + 1
        rw [List.count_erase_self]
        omega
      · show (w.store.release i).cache.pins i = n + 1
        rw [release_pins, Function.update_self]
        omega

/-- While its handle is in the table, closing it changes no record. -/
theorem releaseDirs_keep (hi : i ∈ w.store.cache.lru) (n : ℕ) (k : MetaKey) :
    (w.run (List.replicate n (.releaseDir i))).store.dbGet k = w.store.dbGet k := by
  induction n generalizing w with
  | zero => rfl
  | succ n ih =>
      show ((w.next (.releaseDir i)).run (List.replicate n (.releaseDir i))).store.dbGet k = _
      by_cases hmem : i ∈ w.dirs
      · rw [next_releaseDir hmem, ih]
        · exact release_dbGet_of_mem hi k
        · show i ∈ (w.store.release i).cache.lru
          rwa [release_lru]
      · rw [next, step, releaseDir, if_neg hmem]
        exact ih hi

theorem next_release_dbGet {fh : ℕ} {f : FileHandle} (hf : w.files fh = some f) (k : MetaKey) :
    (w.next (.release fh)).store.dbGet k
      = ((((w.store.setValue f.handle_ (w.closeValue f.handle_)).writeBack f.handle_).release
          f.handle_).evict (w.store.keyOf f.handle_)).dbGet k := by
  obtain ⟨os, log, _, hw⟩ := release_some hf
  show ((w.release fh).1.store).dbGet k = _
  rw [hw]
  simp only [perform, hf]
  rfl

/-! ## As if it had not been called -/

/-- The calls to compare the two runs by. A directory handle is known by a number that says
how many handles were made before it, so the directories are those that are open already. -/
def Later (w : World) : Op → Prop
  | .openDir _ => False
  | .readDir handle _ | .releaseDir handle => handle ∈ w.dirs
  | op => op.WellFormed

/-- `Rename` succeeds, and everything afterwards is as if it had not been called, up to the
name that is stored. -/
structure RenameIsNoOp (w : World) (old_path new_path : Bytes) : Prop where
  ret : (w.rename old_path new_path).2 = 0
  records : ∀ ops, (∀ op ∈ ops, w.Later op) → ∀ k,
    ((w.rename old_path new_path).1.run ops).store.dbGet k = (w.run ops).store.dbGet k ∨
      ((w.rename old_path new_path).1.run ops).store.dbGet k
        = ((w.run ops).store.dbGet k).map fun v => renameInodeValue v (filenameOf new_path)
  disk : ∀ ops, (∀ op ∈ ops, w.Later op) →
    ((w.rename old_path new_path).1.run ops).os.disk = (w.run ops).os.disk
  getAttr : ∀ ops, (∀ op ∈ ops, w.Later op) → ∀ path,
    (((w.rename old_path new_path).1.run ops).getAttr path).2 = ((w.run ops).getAttr path).2
  read : ∀ ops, (∀ op ∈ ops, w.Later op) → ∀ fh size offset,
    (((w.rename old_path new_path).1.run ops).read fh size offset).2
      = ((w.run ops).read fh size offset).2
  readDir : ∀ ops, (∀ op ∈ ops, w.Later op) → ∀ handle ∈ w.dirs, ∀ filler,
    (((w.rename old_path new_path).1.run ops).readDir handle filler).2.1
        = ((w.run ops).readDir handle filler).2.1 ∧
      List.Forall₂ (fun name name' => name = name' ∨ name = filenameOf new_path)
        (((w.rename old_path new_path).1.run ops).readDir handle filler).2.2
        ((w.run ops).readDir handle filler).2.2

/-- What `Rename` of a record to its own key leaves: the handle it took is detached and held
by whoever held it before. -/
theorem rename_self_detaches (ho : (w.pathLookup old_path).2 = some key)
    (hn : ((w.pathLookup old_path).1.pathLookup new_path).2 = some key)
    (hrec : w.store.dbGet key ≠ none) :
    ∃ i, (w.rename old_path new_path).1.store.Detached i key ∧
      (w.rename old_path new_path).1.store.cache.pins i = w.store.cache.pins i ∧
      (w.rename old_path new_path).1.files = w.files ∧
      (w.rename old_path new_path).1.dirs = w.dirs ∧
      (w.store.cache.pins i = 0 → (w.rename old_path new_path).1.store.dbGet key = none) ∧
      (0 < w.store.cache.pins i → i ∈ w.store.cache.lru ∧ w.store.keyOf i = key) := by
  obtain ⟨w₂, hl, _, ⟨os, log, _, hw⟩, _⟩ := rename_cases ho hn
  have hlook : w₂.store.lookup key ≠ none := by
    rw [hl.lookup, lookup]
    split
    · exact Option.some_ne_none _
    · exact hrec
  rcases hs : w₂.store.get key .delete with ⟨s', _ | i⟩
  · exact absurd (get_none_iff hs).2 hlook
  · have hst := perform_move_store key (filenameOf new_path) hs
    obtain ⟨hdet, hpins, hgone⟩ :=
      moved_self hs (renameInodeValue (s'.value i) (filenameOf new_path))
    rw [← hst, hl.cache] at hpins
    rw [← hst, hl.cache] at hgone
    rw [← hst] at hdet
    rw [hw]
    refine ⟨i, hdet.congr rfl, hpins, ?_, ?_, hgone, fun hp => ?_⟩
    · exact (perform_files_of_move w₂ key key _).trans hl.files
    · have hg : w₂.cacheGet key .delete = (w₂.setStore s', some i) := by rw [cacheGet, hs]
      show (w₂.perform (.move key key (filenameOf new_path))).dirs = w.dirs
      simp only [perform, hg]
      rw [setDentry_dirs, renameHandles_dirs]
      exact hl.dirs
    · -- a handle that was pinned before is not the one a `Get` from the store makes
      rcases get_cases hs with ⟨hf, _⟩ | ⟨_, _, _, hnext, _⟩
      · rw [hl.cache] at hf
        exact ⟨LruCache.mem_of_find hf, LruCache.key_of_find hf⟩
      · rw [hl.cache] at hnext
        have := w.store.cache.pins_fresh i (by omega)
        omega

/-- Some calls lead to a record that is gone, and without the `Rename` to one that is there. -/
theorem rename_self_loses (h : w.Reachable) (ho : (w.pathLookup old_path).2 = some key)
    (hn : ((w.pathLookup old_path).1.pathLookup new_path).2 = some key)
    (hrec : w.store.dbGet key ≠ none) :
    ∃ ops, (∀ op ∈ ops, w.Later op) ∧
      ((w.rename old_path new_path).1.run ops).store.dbGet key = none ∧
      (w.run ops).store.dbGet key ≠ none := by
  obtain ⟨i, hdet, hpins, hfiles, hdirs, hgone, hentry⟩ := rename_self_detaches ho hn hrec
  by_cases hp : w.store.cache.pins i = 0
  · exact ⟨[], fun _ hop => absurd hop List.not_mem_nil, hgone hp, hrec⟩
  · obtain ⟨hlru, hkey⟩ := hentry (by omega)
    by_cases hfile : ∃ fh f, w.files fh = some f ∧ f.handle_ = i
    · -- an open file has it: closing that deletes the record
      obtain ⟨fh, f, hf, rfl⟩ := hfile
      refine ⟨[.release fh], ?_, ?_, ?_⟩
      · intro op hop
        rw [List.mem_singleton.mp hop]
        trivial
      · show ((w.rename old_path new_path).1.next (.release fh)).store.dbGet key = none
        rw [next_release_dbGet (by rw [hfiles]; exact hf), hdet.keyOf]
        exact hdet.close _
      · show (w.next (.release fh)).store.dbGet key ≠ none
        rw [next_release_dbGet hf, hkey]
        exact close_keeps hlru (h.undeleted _ hlru) hkey hrec _
    · -- only open directories have it: closing the last of them does
      have hcount := h.accounted.pins_eq_count fun fh f hf hfi => hfile ⟨fh, f, hf, hfi⟩
      have hmem : i ∈ w.dirs := List.count_pos_iff.mp (by omega)
      refine ⟨List.replicate (w.dirs.count i - 1 + 1) (.releaseDir i), ?_, ?_, ?_⟩
      · intro op hop
        rw [List.eq_of_mem_replicate hop]
        exact hmem
      · refine releaseDirs_delete hdet ?_ ?_
        · rw [hdirs]
          omega
        · omega
      · rw [releaseDirs_keep hlru]
        exact hrec

/-- A file is made and opened. -/
def selfRenamedRun : List Op := [.makeNode [47, 97] 0 0, .openFile [47, 97] O_RDWR]

end World

end Tablefs
