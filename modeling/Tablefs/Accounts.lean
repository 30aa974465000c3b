/-
The references on inode handles are accounted for: the callers' references on a
handle are the open files and directories that use it (`Accounted`).

Every call keeps the account, whatever fails in it. So the handle of an open file
or directory is alive, and with nothing open no handle is pinned.
-/
import Tablefs.Effect
import Mathlib.Algebra.BigOperators.Group.Finset.Piecewise
import Mathlib.Algebra.Order.BigOperators.Group.Finset

set_option autoImplicit false

namespace Tablefs

open ByteString

/-! ## References under the operations of the cache -/

namespace Store

theorem release_pins (s : Store) (h : ℕ) :
    (s.release h).cache.pins = Function.update s.cache.pins h (s.cache.pins h - 1) := by
  rw [release, cleanAll_cache]; rfl

theorem evict_pins (s : Store) (k : MetaKey) : (s.evict k).cache.pins = s.cache.pins := by
  rw [evict, cleanAll_cache]
  exact (s.cache.erase_dropped k).pins

theorem writeBack_pins (s : Store) (h : ℕ) : (s.writeBack h).cache.pins = s.cache.pins := by
  unfold writeBack
  split
  · rw [setMode, LruCache.setVal_pins, dbPut_cache]
  · rw [evict_pins, dbDelete_cache]
  · rfl

theorem batchOne_pins (s : Store) (h : ℕ) : (s.batchOne h).1.cache.pins = s.cache.pins := by
  unfold batchOne
  split
  · rfl
  · exact s.evict_pins _
  · rfl

theorem batchCommit_pins (s : Store) (h1 h2 : ℕ) :
    (s.batchCommit h1 h2).cache.pins = s.cache.pins := by
  rw [batchCommit, dbWrite_cache, batchOne_pins, batchOne_pins]

/-- Inserting a handle pins it and nothing else. -/
theorem insertHandle_pins (s : Store) (k : MetaKey) (v : Bytes) (m : InodeAccessMode) :
    (s.insertHandle k v m).1.cache.pins = Function.update s.cache.pins s.cache.next 1 := by
  obtain ⟨c', freed, hins, he⟩ := s.insertHandle_spec k v m
  rw [he, cleanAll_cache, hins.pins]

/-- A reference taken and given back. -/
theorem update_pins_back (pins : ℕ → ℕ) (h : ℕ) :
    Function.update (Function.update pins h (pins h + 1)) h
      (Function.update pins h (pins h + 1) h - 1) = pins := by
  rw [Function.update_idem, Function.update_self, Nat.add_sub_cancel, Function.update_eq_self]

end Store

/-! ## The account -/

namespace World

/-- 1 if an open file uses handle `i`, else 0. -/
def uses (f : Option FileHandle) (i : ℕ) : ℕ :=
  if f.map FileHandle.handle_ = some i then 1 else 0

@[simp] theorem uses_none (i : ℕ) : uses none i = 0 := rfl

theorem uses_self (f : FileHandle) : uses (some f) f.handle_ = 1 := if_pos rfl

theorem uses_of_ne {f : FileHandle} {i : ℕ} (h : f.handle_ ≠ i) : uses (some f) i = 0 :=
  if_neg fun he => h (Option.some.inj he)

/-- The number of open files that use handle `i`. -/
def fileRefs (w : World) (i : ℕ) : ℕ := ∑ n ∈ Finset.range w.nextFile, uses (w.files n) i

/-- Every reference on a handle is an open file's or an open directory's. -/
structure Accounted (w : World) : Prop where
  pins : ∀ i, w.store.cache.pins i = w.fileRefs i + w.dirs.count i
  files_lt : ∀ n, w.nextFile ≤ n → w.files n = none

theorem fileRefs_congr {w w' : World} (hn : w'.nextFile = w.nextFile) (hf : w'.files = w.files) :
    w'.fileRefs = w.fileRefs := by
  funext i
  rw [fileRefs, hn, hf, fileRefs]

/-- The account depends on references, open files and open directories only. -/
theorem Accounted.congr {w w' : World} (h : w.Accounted)
    (hp : w'.store.cache.pins = w.store.cache.pins) (hn : w'.nextFile = w.nextFile)
    (hf : w'.files = w.files) (hd : w'.dirs = w.dirs) : w'.Accounted where
  pins := fun i => by rw [hp, fileRefs_congr hn hf, hd]; exact h.pins i
  files_lt := by rw [hn, hf]; exact h.files_lt

/-- Replacing an open file takes away what it used and adds what the new one uses. -/
theorem fileRefs_setFiles (w : World) {n : ℕ} (hn : n < w.nextFile) (f : Option FileHandle)
    (i : ℕ) :
    (w.setFiles (Function.update w.files n f)).fileRefs i + uses (w.files n) i
      = w.fileRefs i + uses f i := by
  have hmem : n ∈ Finset.range w.nextFile := Finset.mem_range.mpr hn
  have hcomp : (fun m => uses (Function.update w.files n f m) i)
      = Function.update (fun m => uses (w.files m) i) n (uses f i) := by
    funext m
    by_cases hm : m = n
    · subst hm; simp
    · simp [Function.update_of_ne hm]
  rw [fileRefs, show (w.setFiles (Function.update w.files n f)).nextFile = w.nextFile from rfl,
    show (w.setFiles (Function.update w.files n f)).files = Function.update w.files n f from rfl,
    hcomp, Finset.sum_update_of_mem hmem, fileRefs,
    Finset.sum_eq_add_sum_sdiff_singleton_of_mem hmem]
  omega

/-- An open file is one of the numbers given out. -/
theorem Accounted.lt {w : World} (h : w.Accounted) {n : ℕ} {f : FileHandle}
    (hf : w.files n = some f) : n < w.nextFile := by
  by_contra hn
  rw [h.files_lt n (by omega)] at hf
  exact absurd hf (by simp)

/-- The handle of an open file is pinned. -/
theorem Accounted.pinned_of_file {w : World} (h : w.Accounted) {n : ℕ} {f : FileHandle}
    (hf : w.files n = some f) : 0 < w.store.cache.pins f.handle_ := by
  have hle : uses (w.files n) f.handle_ ≤ w.fileRefs f.handle_ :=
    Finset.single_le_sum (f := fun m => uses (w.files m) f.handle_) (fun _ _ => Nat.zero_le _)
      (Finset.mem_range.mpr (h.lt hf))
  rw [hf, uses_self] at hle
  have := h.pins f.handle_
  omega

/-- The handle of an open directory is pinned. -/
theorem Accounted.pinned_of_dir {w : World} (h : w.Accounted) {i : ℕ} (hi : i ∈ w.dirs) :
    0 < w.store.cache.pins i := by
  have := h.pins i
  have := List.count_pos_iff.mpr hi
  omega

/-- A pinned handle is that of an open file or an open directory. -/
theorem Accounted.open_of_pinned {w : World} (h : w.Accounted) {i : ℕ}
    (hp : 0 < w.store.cache.pins i) :
    (∃ n < w.nextFile, ∃ f, w.files n = some f ∧ f.handle_ = i) ∨ i ∈ w.dirs := by
  by_cases hd : i ∈ w.dirs
  · exact Or.inr hd
  · rw [h.pins, List.count_eq_zero_of_not_mem hd] at hp
    have hsum : ∑ n ∈ Finset.range w.nextFile, uses (w.files n) i ≠ 0 := by
      show w.fileRefs i ≠ 0
      omega
    obtain ⟨n, hn, hu⟩ := Finset.exists_ne_zero_of_sum_ne_zero hsum
    refine Or.inl ⟨n, Finset.mem_range.mp hn, ?_⟩
    cases hf : w.files n with
    | none =>
        rw [hf, uses_none] at hu
        exact absurd rfl hu
    | some f =>
        refine ⟨f, rfl, ?_⟩
        by_contra hne
        rw [hf] at hu
        exact hu (uses_of_ne hne)

/-- Without an open file that has it, a handle is held by open directories alone. -/
theorem Accounted.pins_eq_count {w : World} (h : w.Accounted) {i : ℕ}
    (hf : ∀ n f, w.files n = some f → f.handle_ ≠ i) :
    w.store.cache.pins i = w.dirs.count i := by
  have hrefs : w.fileRefs i = 0 := Finset.sum_eq_zero fun n _ => by
    cases hn : w.files n with
    | none => exact uses_none i
    | some f => exact uses_of_ne (hf n f hn)
  rw [h.pins, hrefs, Nat.zero_add]

/-- With nothing open nothing is pinned. -/
theorem Accounted.pins_zero {w : World} (h : w.Accounted) (hf : ∀ n, w.files n = none)
    (hd : w.dirs = []) (i : ℕ) : w.store.cache.pins i = 0 := by
  rw [h.pins, fileRefs, hd, List.count_nil]
  simp [hf]

/-! ## The account is kept -/

/-- `Rename` gives back both handles it took. -/
theorem renameHandles_pins (w : World) (i : ℕ) (old_key new_key : MetaKey) (filename : Bytes) :
    (w.renameHandles i old_key new_key filename).store.cache.pins
      = Function.update w.store.cache.pins i (w.store.cache.pins i - 1) := by
  have hfresh := w.store.cache.pins_fresh _ (Nat.le_refl _)
  simp only [renameHandles, setStore, Store.insert, Store.evict_pins, Store.release_pins,
    Store.batchCommit_pins, Store.insertHandle_pins]
  have hsnd : (w.store.insertHandle new_key
      (renameInodeValue (w.store.value i) filename) .write).2 = w.store.cache.next := rfl
  rw [hsnd, Function.update_idem, Function.update_self,
    show 1 - 1 = w.store.cache.pins w.store.cache.next from hfresh.symm,
    Function.update_eq_self]

theorem cacheGet_pins {w w' : World} {k : MetaKey} {m : InodeAccessMode} {i : ℕ}
    (hg : w.cacheGet k m = (w', some i)) :
    w'.store.cache.pins = Function.update w.store.cache.pins i (w.store.cache.pins i + 1) := by
  obtain ⟨s, hs, rfl⟩ := cacheGet_some hg
  exact Store.get_pins hs

/-- A reference taken by `Get` and given back, with any edits in between, leaves
the account as it was. -/
theorem Accounted.get_release {w w' w'' : World} (h : w.Accounted) {k : MetaKey}
    {m : InodeAccessMode} {i : ℕ} (hg : w.cacheGet k m = (w', some i))
    (hp : w''.store.cache.pins = Function.update w'.store.cache.pins i
      (w'.store.cache.pins i - 1))
    (hn : w''.nextFile = w'.nextFile) (hf : w''.files = w'.files) (hd : w''.dirs = w'.dirs) :
    w''.Accounted := by
  have hpins := cacheGet_pins hg
  obtain ⟨s, _, rfl⟩ := cacheGet_some hg
  refine h.congr ?_ hn hf hd
  rw [hp, hpins, Store.update_pins_back]

/-- A handle taken by `Open` is the new open file's. -/
theorem Accounted.addFile {w w' : World} (h : w.Accounted) {k : MetaKey}
    {m : InodeAccessMode} {f : FileHandle} (hg : w.cacheGet k m = (w', some f.handle_)) :
    (w'.addFile f).Accounted := by
  have hpins := cacheGet_pins hg
  obtain ⟨s, _, rfl⟩ := cacheGet_some hg
  refine ⟨fun i => ?_, fun n hn => ?_⟩
  · have hold : ∀ n ∈ Finset.range w.nextFile,
        uses (Function.update w.files w.nextFile (some f) n) i = uses (w.files n) i :=
      fun n hn => by
        rw [Function.update_of_ne (by have := Finset.mem_range.mp hn; omega)]
    have hrefs : (World.addFile (w.setStore s) f).fileRefs i
        = w.fileRefs i + uses (some f) i := by
      rw [fileRefs, show (World.addFile (w.setStore s) f).nextFile = w.nextFile + 1 from rfl,
        Finset.sum_range_succ, show (World.addFile (w.setStore s) f).files
          = Function.update w.files w.nextFile (some f) from rfl,
        Finset.sum_congr rfl hold, Function.update_self, fileRefs]
    have := h.pins i
    rw [hrefs, show (World.addFile (w.setStore s) f).store = (w.setStore s).store from rfl, hpins,
      show (World.addFile (w.setStore s) f).dirs = w.dirs from rfl]
    by_cases hi : f.handle_ = i
    · subst hi
      rw [Function.update_self, uses_self]; omega
    · rw [Function.update_of_ne (Ne.symm hi), uses_of_ne hi]; omega
  · have hn' : w.nextFile + 1 ≤ n := hn
    rw [show (World.addFile (w.setStore s) f).files
      = Function.update w.files w.nextFile (some f) from rfl, Function.update_of_ne (by omega)]
    exact h.files_lt n (by omega)

/-- Another descriptor for an open file. -/
theorem Accounted.setFd {w : World} (h : w.Accounted) {fh : ℕ} {f : FileHandle}
    (hf : w.files fh = some f) (fd : ℤ) : (w.setFd fh f fd).Accounted where
  pins := fun i => by
    have hr := w.fileRefs_setFiles (h.lt hf) (some { f with fd_ := fd }) i
    rw [hf, show uses (some { f with fd_ := fd }) i = uses (some f) i from rfl,
      Nat.add_right_cancel_iff] at hr
    rw [World.setFd, hr]
    exact h.pins i
  files_lt := fun n hn => by
    have := h.lt hf
    have hn' : w.nextFile ≤ n := hn
    rw [World.setFd, setFiles_files, Function.update_of_ne (by omega)]
    exact h.files_lt n hn'

/-- The reference of an open file is given back when the file is closed. -/
theorem Accounted.deleteFile {w w' : World} (h : w.Accounted) {fh : ℕ} {f : FileHandle}
    (hf : w.files fh = some f)
    (hp : w'.store.cache.pins = Function.update w.store.cache.pins f.handle_
      (w.store.cache.pins f.handle_ - 1))
    (hn : w'.nextFile = w.nextFile) (hfs : w'.files = w.files) (hd : w'.dirs = w.dirs) :
    (w'.deleteFile fh).Accounted where
  pins := fun i => by
    have hr := w'.fileRefs_setFiles (n := fh) (by rw [hn]; exact h.lt hf) none i
    rw [hfs, hf, fileRefs_congr hn hfs, uses_none, Nat.add_zero] at hr
    have := h.pins i
    rw [World.deleteFile, hfs, setFiles_store, hp, setFiles_dirs, hd]
    by_cases hi : f.handle_ = i
    · subst hi
      rw [uses_self] at hr
      rw [Function.update_self]; omega
    · rw [uses_of_ne hi] at hr
      rw [Function.update_of_ne (Ne.symm hi)]; omega
  files_lt := fun n hn' => by
    have hn'' : w.nextFile ≤ n := hn ▸ hn'
    have := h.lt hf
    rw [World.deleteFile, setFiles_files, Function.update_of_ne (by omega), hfs]
    exact h.files_lt n hn''

/-- Every effect keeps the account. -/
theorem Accounted.perform {w : World} (h : w.Accounted) (e : Effect)
    (hdir : ∀ i, e = .closeDir i → i ∈ w.dirs) : (w.perform e).Accounted := by
  cases e with
  | idle => exact h
  | touch key mode =>
      simp only [World.perform]
      rcases hg : w.cacheGet key mode with ⟨w', _ | i⟩
      · rw [(cacheGet_none hg).1]; exact h
      · exact h.get_release hg (Store.release_pins _ _) rfl rfl rfl
  | openFile key flags fd =>
      simp only [World.perform]
      rcases hg : w.cacheGet key (openMode flags) with ⟨w', _ | i⟩
      · rw [(cacheGet_none hg).1]; exact h
      · exact h.addFile (f := ⟨i, flags, fd⟩) hg
  | openDir key =>
      simp only [World.perform]
      rcases hg : w.cacheGet key .read with ⟨w', _ | i⟩
      · rw [(cacheGet_none hg).1]; exact h
      · have hpins := cacheGet_pins hg
        obtain ⟨s, _, rfl⟩ := cacheGet_some hg
        refine ⟨fun j => ?_, h.files_lt⟩
        have := h.pins j
        rw [show ((w.setStore s).setDirs (i :: (w.setStore s).dirs)).store
            = (w.setStore s).store from rfl, hpins,
          show ((w.setStore s).setDirs (i :: (w.setStore s).dirs)).dirs = i :: w.dirs from rfl,
          show ((w.setStore s).setDirs (i :: (w.setStore s).dirs)).fileRefs j
            = w.fileRefs j from rfl, List.count_cons]
        by_cases hj : i = j
        · subst hj
          rw [Function.update_self, beq_self_eq_true, if_pos rfl]; omega
        · rw [Function.update_of_ne (Ne.symm hj), if_neg (by simpa using hj)]; omega
  | setFd fh fd =>
      simp only [World.perform]
      cases hf : w.files fh with
      | none => exact h
      | some f => exact h.setFd hf fd
  | write fh value fd =>
      simp only [World.perform]
      cases hf : w.files fh with
      | none => exact h
      | some f =>
          exact Accounted.setFd (w := (w.setMode f.handle_ .write).setValue f.handle_ value)
            (h.congr rfl rfl rfl rfl) hf fd
  | close fh value =>
      simp only [World.perform]
      cases hf : w.files fh with
      | none => exact h
      | some f =>
          refine h.deleteFile hf ?_ rfl rfl rfl
          simp only [cacheEvict, cacheRelease, cacheWriteBack, World.setValue, setStore,
            Store.evict_pins, Store.release_pins, Store.writeBack_pins]
          rfl
  | closeDir i =>
      have hi := hdir i rfl
      refine ⟨fun j => ?_, h.files_lt⟩
      have hj := h.pins j
      have hp : ((w.cacheRelease i).setDirs (w.dirs.erase i)).store.cache.pins
          = Function.update w.store.cache.pins i (w.store.cache.pins i - 1) :=
        Store.release_pins _ _
      simp only [World.perform]
      rw [hp, show ((w.cacheRelease i).setDirs (w.dirs.erase i)).dirs = w.dirs.erase i from rfl,
        show ((w.cacheRelease i).setDirs (w.dirs.erase i)).fileRefs j = w.fileRefs j from rfl]
      by_cases hij : i = j
      · subst hij
        have := List.count_pos_iff.mpr hi
        rw [Function.update_self, List.count_erase_self]; omega
      · rw [Function.update_of_ne (Ne.symm hij), List.count_erase_of_ne (Ne.symm hij)]; omega
  | edit key value =>
      simp only [World.perform]
      rcases hg : w.cacheGet key .write with ⟨w', _ | i⟩
      · rw [(cacheGet_none hg).1]; exact h
      · refine h.get_release hg ?_ rfl rfl rfl
        simp only [cacheRelease, cacheWriteBack, World.setValue, setStore, Store.release_pins,
          Store.writeBack_pins]
        rfl
  | create key value =>
      have hc : (w.perform (.create key value)).store.cache = w.store.cache :=
        w.store.dbPut_cache key value
      exact h.congr (congrArg _ hc) rfl rfl rfl
  | remove key =>
      simp only [World.perform]
      rcases hg : w.cacheGet key .delete with ⟨w', _ | i⟩
      · rw [(cacheGet_none hg).1]; exact h
      · refine h.get_release hg ?_ rfl rfl rfl
        simp only [cacheEvict, cacheRelease, setStore, Store.evict_pins, Store.release_pins]
        rfl
  | move old_key new_key filename =>
      simp only [World.perform]
      rcases hg : w.cacheGet old_key .delete with ⟨w', _ | i⟩
      · rw [(cacheGet_none hg).1]; exact h
      · dsimp only
        have hp := renameHandles_pins w' i old_key new_key filename
        generalize hr : w'.renameHandles i old_key new_key filename = wr at hp ⊢
        -- the dentry cache plays no part in the account
        have ha : wr.Accounted := by
          refine h.get_release hg hp ?_ ?_ ?_
          · rw [← hr, renameHandles_nextFile]
          · rw [← hr, renameHandles_files]
          · rw [← hr, renameHandles_dirs]
        exact ha.congr rfl rfl rfl rfl
  | evict key => exact h.congr (Store.evict_pins _ _) rfl rfl rfl
  | sync =>
      have hc : (w.perform .sync).store.cache = w.store.cache := w.store.dbSync_cache
      exact h.congr (congrArg _ hc) rfl rfl rfl
  | setEnv env => exact h.congr rfl rfl rfl rfl
  | setFaults dbFaults => exact h.congr rfl rfl rfl rfl

/-- Every call keeps the account. -/
theorem Accounted.step {w : World} (h : w.Accounted) (op : Op) : (w.step op).1.Accounted := by
  obtain ⟨w₁, e, hl, _, hp, os, log, _, hu⟩ := w.step_steps op
  have h₁ : w₁.Accounted := h.congr (by rw [hl.cache]) hl.nextFile hl.files hl.dirs
  have h₂ := h₁.perform e (fun i he => by
    subst he
    cases hp with
    | releaseDir hh => rw [hl.dirs]; exact hh)
  rw [hu]
  exact h₂.congr rfl rfl rfl rfl

end World

/-- A fresh mount has nothing open. -/
theorem mount_open (d : Durable) (cfg : MountConfig) :
    (∀ n, (mount d cfg).files n = none) ∧ (mount d cfg).dirs = [] := by
  have hs : (∀ n, (setup d cfg).files n = none) ∧ (setup d cfg).dirs = [] := by
    unfold setup
    dsimp only
    split <;> exact ⟨fun _ => rfl, rfl⟩
  unfold mount World.init
  dsimp only
  split <;> exact hs

/-- A fresh mount has nothing open and nothing pinned. -/
theorem mount_accounted (d : Durable) (cfg : MountConfig) : (mount d cfg).Accounted := by
  refine ⟨fun i => ?_, fun n _ => (mount_open d cfg).1 n⟩
  have hs : (setup d cfg).store.cache.pins i = 0 := by
    unfold setup
    dsimp only
    split <;> rfl
  have hrefs : (mount d cfg).fileRefs i = 0 :=
    Finset.sum_eq_zero fun n _ => by rw [(mount_open d cfg).1 n, World.uses_none]
  rw [hrefs, (mount_open d cfg).2, List.count_nil]
  unfold mount World.init
  dsimp only
  split
  · rw [World.setStore, Store.dbPut_cache]
    exact hs
  · exact hs

theorem mount_run_accounted (d : Durable) (cfg : MountConfig) (ops : List Op) :
    ((mount d cfg).run ops).Accounted :=
  Transition.run_invariant (P := World.Accounted) (C := fun _ _ => True)
    (fun _ op h _ => h.step op) (mount_accounted d cfg)
    (Transition.meets_of_forall (fun _ _ => trivial) _)

/-- A run that has handed out no file handle has no file open. -/
theorem mount_run_files (d : Durable) (cfg : MountConfig) (ops : List Op)
    (hn : ((mount d cfg).run ops).nextFile = 0) (n : ℕ) :
    ((mount d cfg).run ops).files n = none := by
  apply (mount_run_accounted d cfg ops).files_lt
  omega

end Tablefs
