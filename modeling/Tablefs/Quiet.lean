/-
States in which nothing is open.

When no handle is held and every entry of the table equals its record, the caches
cannot be seen: `Get` finds what the store has, and an entry that leaves the table
stores a value that is already there, so that the write changes nothing
(`Silent`). An operation on the name space then changes the store by the one write
it is for, whatever the caches hold: `MakeNode` by a put (`create_exact`), `Unlink`
and `RemoveDir` by a delete (`remove_exact`), `Rename` by its batch (`move_exact`).
-/
import Tablefs.Table

set_option autoImplicit false

namespace Tablefs

open ByteString

namespace Store

/-! ## Writes that change nothing -/

/-- What is pending in a handle has been done already. -/
structure Settled (s : Store) (i : ℕ) : Prop where
  write : s.mode i = .write → s.dbGet (s.keyOf i) = some (s.value i)
  delete : s.mode i = .delete → s.dbGet (s.keyOf i) = none

/-- `t` comes from `s` by writes none of which changes the store. -/
structure Silent (s t : Store) : Prop where
  metadb : t.metadb = s.metadb
  log : ∃ evs, dbEvents t.log = dbEvents s.log ++ evs ∧ ∀ e ∈ evs, e.apply s.metadb = s.metadb

variable {s t u : Store} {X : MetaKey → ℕ → Prop}

theorem Silent.refl (s : Store) : s.Silent s :=
  ⟨rfl, [], by rw [List.append_nil], fun _ h => absurd h List.not_mem_nil⟩

theorem Silent.trans (h : s.Silent t) (h' : t.Silent u) : s.Silent u := by
  obtain ⟨hm, evs, hl, he⟩ := h
  obtain ⟨hm', evs', hl', he'⟩ := h'
  refine ⟨hm'.trans hm, evs ++ evs', ?_, ?_⟩
  · rw [hl', hl, List.append_assoc]
  · intro e hmem
    rcases List.mem_append.mp hmem with h | h
    · exact he e h
    · rw [← hm]; exact he' e h

theorem Silent.of_eq (hm : t.metadb = s.metadb) (hl : dbEvents t.log = dbEvents s.log) :
    s.Silent t :=
  ⟨hm, [], by rw [hl, List.append_nil], fun _ h => absurd h List.not_mem_nil⟩

theorem Silent.dbGet (h : s.Silent t) (k : MetaKey) : t.dbGet k = s.dbGet k := by
  rw [Store.dbGet, h.metadb]; rfl

theorem tryCommit_silent (s : Store) {e : DbEffect} (he : e.apply s.metadb = s.metadb) :
    s.Silent (s.tryCommit e).1 := by
  have hc : ∀ t : Store, t.metadb = s.metadb → t.log = s.log → s.Silent (t.commit e) := by
    intro t hm hl
    refine ⟨by rw [commit, hm, he], [e], ?_, ?_⟩
    · rw [commit, hl, dbEvents_append, dbEvents_db]
    · intro e' h
      rwa [List.mem_singleton.mp h]
  unfold tryCommit
  split
  · exact .of_eq rfl rfl
  · exact hc { s with dbFaults := _ } rfl rfl
  · exact hc s rfl rfl

theorem cleanInodeHandle_silent (s : Store) {i : ℕ} (h : s.Settled i) :
    s.Silent (s.cleanInodeHandle i) := by
  unfold cleanInodeHandle
  cases hm : s.mode i with
  | write => exact tryCommit_silent s (SortedMap.put_of_get (h.write hm))
  | delete =>
      have he := SortedMap.delete_of_get (h.delete hm)
      refine ⟨he, [.delete (s.keyOf i).toSlice], ?_, ?_⟩
      · rw [dbDelete, commit, dbEvents_append, dbEvents_db]
      · intro e hmem
        rw [List.mem_singleton.mp hmem]
        exact he
  | read => exact Silent.refl s

theorem cleanAll_silent (s : Store) {freed : List ℕ} (h : ∀ i ∈ freed, s.Settled i) :
    s.Silent (s.cleanAll freed) := by
  refine cleanAll_induct (P := fun t => s.Silent t) (Silent.refl s) ?_
  intro t hc ht i hi
  refine ht.trans (cleanInodeHandle_silent t ?_)
  constructor
  · rw [mode_congr hc, keyOf_congr hc, value_congr hc, ht.dbGet]
    exact (h i hi).write
  · rw [mode_congr hc, keyOf_congr hc, ht.dbGet]
    exact (h i hi).delete

/-- The deleter sees the handle that an operation took out of the table. -/
theorem Settled.setCache {i : ℕ} (h : s.Settled i) (c' : LruCache MetaKey InodeCacheHandle)
    (hk : c'.key i = s.cache.key i) (hv : c'.val i = s.cache.val i) :
    Settled { s with cache := c' } i where
  write := by
    simpa only [mode, keyOf, value, Store.dbGet, hk, hv] using h.write
  delete := by
    simpa only [mode, keyOf, Store.dbGet, hk, hv] using h.delete

theorem Matches.settled {i : ℕ} (h : s.Matches (· = ·) i) : s.Settled i where
  write := by
    intro _
    obtain ⟨u, hu, hr⟩ := h.record
    rw [hu, hr]
  delete := fun hd => absurd hd h.mode

/-- An entry that an operation of the cache freed was in the table and not pinned. -/
theorem Table.settled (h : s.Table (· = ·) X) (hX : ∀ k i, X k i → 0 < s.cache.pins i) {i : ℕ}
    (hi : i ∈ s.cache.lru) (hp : s.cache.pins i = 0) : s.Settled i := by
  refine (h i hi ?_).settled
  intro hx
  have := hX _ _ hx
  omega

theorem Table.silent_evict (h : s.Table (· = ·) X) (hX : ∀ k i, X k i → 0 < s.cache.pins i)
    (k : MetaKey) : s.Silent (s.evict k) := by
  have hd := s.cache.erase_dropped k
  refine Silent.trans (t := { s with cache := (s.cache.erase k).1 }) (.of_eq rfl rfl)
    (cleanAll_silent _ ?_)
  intro i hi
  obtain ⟨hil, _, hp⟩ := (hd.freed i).mp hi
  exact (h.settled hX hil hp).setCache _ (congrFun hd.key i) (congrFun hd.val i)

theorem Table.silent_insertHandle (h : s.Table (· = ·) X)
    (hX : ∀ k i, X k i → 0 < s.cache.pins i) (k : MetaKey) (v : Bytes) (m : InodeAccessMode) :
    s.Silent (s.insertHandle k v m).1 := by
  obtain ⟨c', freed, hins, he⟩ := s.insertHandle_spec k v m
  rw [he]
  refine Silent.trans (t := { s with cache := c' }) (.of_eq rfl rfl) (cleanAll_silent _ ?_)
  intro i hi
  obtain ⟨hil, _, hp⟩ := (hins.freed i).mp hi
  have hlt := s.cache.lt_next i hil
  refine (h.settled hX hil hp).setCache _ ?_ ?_
  · rw [hins.key, Function.update_of_ne (by omega)]
  · rw [hins.val, Function.update_of_ne (by omega)]

theorem Table.silent_get (h : s.Table (· = ·) X) (hX : ∀ k i, X k i → 0 < s.cache.pins i)
    {s' : Store} {k : MetaKey} {m : InodeAccessMode} {i : ℕ} (hg : s.get k m = (s', some i)) :
    s.Silent s' := by
  rcases get_cases hg with ⟨_, rfl⟩ | ⟨_, v, _, _, rfl⟩
  · split <;> exact .of_eq rfl rfl
  · exact h.silent_insertHandle hX k v m

theorem silent_release (s : Store) {i : ℕ}
    (h : s.cache.pins i = 1 → i ∉ s.cache.lru → s.Settled i) : s.Silent (s.release i) := by
  refine Silent.trans (t := { s with cache := (s.cache.release i).1 }) (.of_eq rfl rfl)
    (cleanAll_silent _ ?_)
  intro j hj
  simp only [LruCache.release] at hj
  split at hj
  · rename_i hc
    rw [List.mem_singleton.mp hj]
    exact ⟨(h hc.1 hc.2).write, (h hc.1 hc.2).delete⟩
  · exact absurd hj List.not_mem_nil

/-- With a table that equals the store, `Get` finds what the store has. -/
theorem Table.lookup_eq (h : s.Table (· = ·) fun _ _ => False) (k : MetaKey) :
    s.lookup k = s.dbGet k := by
  unfold lookup
  cases hf : s.cache.find k with
  | none => rfl
  | some i =>
      obtain ⟨u, hu, hr⟩ := (h i (LruCache.mem_of_find hf) id).record
      rw [show s.keyOf i = k from LruCache.key_of_find hf] at hu
      dsimp only
      rw [hu, hr]

/-! ## The writes of an operation -/

/-- Of the writes from `s` to `t` only `e` changes the store. -/
def OneWrite (s : Store) (e : DbEffect) (t : Store) : Prop :=
  t.metadb = e.apply s.metadb ∧
  ∃ pre post, dbEvents t.log = dbEvents s.log ++ (pre ++ e :: post) ∧
    (∀ e' ∈ pre, e'.apply s.metadb = s.metadb) ∧ ∀ e' ∈ post, e'.apply t.metadb = t.metadb

theorem oneWrite_commit (s : Store) (e : DbEffect) : s.OneWrite e (s.commit e) :=
  ⟨rfl, [], [], by rw [commit, dbEvents_append, dbEvents_db]; rfl,
    fun _ h => absurd h List.not_mem_nil, fun _ h => absurd h List.not_mem_nil⟩

theorem OneWrite.of_silent {e : DbEffect} {s' t' : Store} (h : s.Silent s') (hw : s'.OneWrite e t')
    (h' : t'.Silent t) : s.OneWrite e t := by
  obtain ⟨hm, evs, hl, he⟩ := h
  obtain ⟨hmw, pre, post, hlw, hpre, hpost⟩ := hw
  obtain ⟨hm', evs', hl', he'⟩ := h'
  refine ⟨by rw [hm', hmw, hm], evs ++ pre, post ++ evs', ?_, ?_, ?_⟩
  · rw [hl', hlw, hl]
    simp only [List.append_assoc, List.cons_append]
  · intro e' hmem
    rcases List.mem_append.mp hmem with h | h
    · exact he e' h
    · rw [← hm]; exact hpre e' h
  · intro e' hmem
    rw [hm']
    rcases List.mem_append.mp hmem with h | h
    · exact hpost e' h
    · exact he' e' h

/-- The writes that do not change a map lead from it to itself. -/
theorem foldl_apply_eq {db : MetaDb} {evs : List DbEffect} (h : ∀ e ∈ evs, e.apply db = db) :
    evs.foldl (fun db e => e.apply db) db = db := by
  induction evs with
  | nil => rfl
  | cons e evs ih =>
      rw [List.foldl_cons, h e List.mem_cons_self]
      exact ih fun e' h' => h e' (List.mem_cons_of_mem e h')

/-- At every point between the writes the store is the one before or the one after. -/
theorem OneWrite.atomic {e : DbEffect} (h : s.OneWrite e t) :
    ∃ evs, dbEvents t.log = dbEvents s.log ++ evs ∧ ∀ n,
      (evs.take n).foldl (fun db e => e.apply db) s.metadb = s.metadb ∨
        (evs.take n).foldl (fun db e => e.apply db) s.metadb = t.metadb := by
  obtain ⟨hm, pre, post, hl, hpre, hpost⟩ := h
  refine ⟨_, hl, fun n => ?_⟩
  by_cases hn : n ≤ pre.length
  · left
    rw [List.take_append_of_le_length hn]
    exact foldl_apply_eq fun e' h' => hpre e' (List.mem_of_mem_take h')
  · right
    obtain ⟨m, rfl⟩ : ∃ m, n = pre.length + (m + 1) := ⟨n - pre.length - 1, by omega⟩
    rw [List.take_length_add_append, List.take_succ_cons, List.foldl_append, foldl_apply_eq hpre,
      List.foldl_cons, ← hm]
    exact foldl_apply_eq fun e' h' => hpost e' (List.mem_of_mem_take h')

/-! ## Rename -/

theorem Paired.silent_batch {i j : ℕ} {old_key new_key : MetaKey} {v : Bytes}
    (h : s.Paired i j old_key new_key v) (hf : s.dbFaults = [])
    (hs : s.Table (· = ·) fun _ m => m = i ∨ m = j) :
    s.OneWrite (.batch [.delete old_key.toSlice, .put new_key.toSlice v])
      (s.batchCommit i j) := by
  have hX : ∀ (_ : MetaKey) m, m = i ∨ m = j → 0 < s.cache.pins m := by
    rintro _ m (rfl | rfl)
    · exact h.old_pinned
    · rw [h.new_pins]; exact Nat.one_pos
  have hev : s.Silent ((s.evict old_key).setMode j .read) :=
    (hs.silent_evict hX old_key).trans (.of_eq rfl rfl)
  have hf' : ((s.evict old_key).setMode j .read).dbFaults = [] := evict_dbFaults s old_key hf
  rw [h.batchCommit, dbWrite_ok _ _ hf']
  exact .of_silent hev (oneWrite_commit _ _) (Silent.refl _)

/-- `Rename` of one key to another changes the store by its batch alone. -/
theorem move_exact (h : s.Table (· = ·) fun _ _ => False) (hf : s.dbFaults = []) {s' : Store}
    {old_key new_key : MetaKey} {i : ℕ} (hg : s.get old_key .delete = (s', some i))
    (hne : old_key ≠ new_key) (v : Bytes) :
    s.OneWrite (.batch [.delete old_key.toSlice, .put new_key.toSlice v])
      (((((s'.insert new_key v).1.batchCommit i (s'.insert new_key v).2).release
        (s'.insert new_key v).2).release i).evict old_key) := by
  have hno : ∀ (_ : MetaKey) m, False → 0 < s.cache.pins m := fun _ _ hx => hx.elim
  have hpair := insert_paired hg new_key v
  -- the entry under the old key, and only it, is held after `Get`
  have hpin : ∀ (_ : MetaKey) m, m = i → 0 < s'.cache.pins m := by
    rintro _ m rfl
    rw [get_pins hg, Function.update_self]; omega
  have ht' : s'.Table (· = ·) fun _ m => m = i := by
    intro m hm hn
    refine ((around_get (K := fun k => k = old_key) eq_equivalence hg rfl
      (h.mono fun _ _ => False.elim) hno).table_off h) m hm ?_
    rintro (hx | hx)
    · exact hx
    · exact hn (get_lru_self hg hm hx)
  have ht1 : (s'.insert new_key v).1.Table (· = ·) fun _ m => m = i ∨ m = s'.cache.next := by
    intro m hm hn
    refine ((move_around eq_equivalence h hno hg hf new_key v).1.table_off h) m hm ?_
    rintro (hx | hx | hx)
    · exact hx
    · exact hn (hpair.old_lru m hm hx)
    · exact hn (Or.inr (hpair.new_lru m hm hx))
  have hf1 : (s'.insert new_key v).1.dbFaults = [] :=
    insertHandle_dbFaults s' new_key v .write (get_dbFaults hg hf)
  have hone := hpair.silent_batch hf1 ht1
  have hbefore : s.Silent (s'.insert new_key v).1 :=
    (h.silent_get hno hg).trans (ht'.silent_insertHandle hpin new_key v .write)
  -- afterwards the old key has no record, so the delete that is left does nothing
  have hold : ((s'.insert new_key v).1.batchCommit i s'.cache.next).dbGet old_key = none := by
    have hf' : (((s'.insert new_key v).1.evict old_key).setMode s'.cache.next .read).dbFaults = [] :=
      evict_dbFaults _ old_key hf1
    rw [hpair.batchCommit, moveBatch_dbGet _ hf', if_neg (Ne.symm hne), if_pos rfl]
  have hmi : ((s'.insert new_key v).1.batchCommit i s'.cache.next).mode i = .delete := by
    rw [mode_congr hpair.batch_cache, setMode_mode_of_ne _ hpair.ne, evict_mode, hpair.old_mode]
  have hmj : ((s'.insert new_key v).1.batchCommit i s'.cache.next).mode s'.cache.next = .read := by
    rw [mode_congr hpair.batch_cache, setMode_mode_self]
  have hsnd : (s'.insert new_key v).2 = s'.cache.next := rfl
  rw [hsnd]
  have hlru := fun m => hpair.batch_lru (m := m)
  have hkeys := hpair.batch_keyOf
  have hki := (hkeys i).trans hpair.old_keyOf
  generalize (s'.insert new_key v).1.batchCommit i s'.cache.next = s2 at *
  have h3 : s2.Silent (s2.release s'.cache.next) := by
    refine silent_release s2 fun _ _ => ⟨fun hw => ?_, fun hd => ?_⟩
    · rw [hmj] at hw; cases hw
    · rw [hmj] at hd; cases hd
  have h4 : (s2.release s'.cache.next).Silent ((s2.release s'.cache.next).release i) := by
    refine silent_release _ fun _ _ => ⟨fun hw => ?_, fun _ => ?_⟩
    · rw [release_mode, hmi] at hw; cases hw
    · rw [release_keyOf, hki, h3.dbGet, hold]
  rw [evict_of_not_mem]
  · exact .of_silent hbefore hone (h3.trans h4)
  · intro m hm
    rw [release_lru, release_lru] at hm
    rw [release_keyOf, release_keyOf, hkeys]
    exact (hlru m hm).1

end Store

namespace World

open Store

/-! ## Runs whose store writes succeed -/

/-- The surroundings let every write to the metadata store succeed. -/
def StoreWorks : Op → Prop
  | .setFaults dbFaults _ => dbFaults = []
  | _ => True

instance : DecidablePred StoreWorks := fun op => match op with
  | .setFaults dbFaults _ => inferInstanceAs (Decidable (dbFaults = []))
  | .getAttr _ | .openFile _ _ | .read _ _ _ | .write _ _ _ | .fsync _ _ | .release _
  | .truncate _ _ | .readlink _ _ | .symlink _ _ | .unlink _ | .makeNode _ _ _ | .makeDir _ _
  | .openDir _ | .readDir _ _ | .releaseDir _ | .removeDir _ | .rename _ _ | .access _ _
  | .updateTimens _ _ _ | .chmod _ _ | .chown _ _ _ | .evict _ | .setEnv _ =>
      inferInstanceAs (Decidable True)

theorem perform_dbFaults {w : World} (hf : w.store.dbFaults = []) (e : Effect)
    (he : ∀ fs, e = .setFaults fs → fs = []) : (w.perform e).store.dbFaults = [] := by
  -- a handle is taken first
  have hget : ∀ {k m w' i}, w.cacheGet k m = (w', some i) → w'.store.dbFaults = [] := by
    intro k m w' i hg
    obtain ⟨s, hs, rfl⟩ := cacheGet_some hg
    exact get_dbFaults hs hf
  cases e with
  | touch key mode =>
      simp only [perform]
      rcases hg : w.cacheGet key mode with ⟨w', _ | i⟩
      · rw [(cacheGet_none hg).1]; exact hf
      · exact release_dbFaults _ i (hget hg)
  | openFile key flags fd =>
      simp only [perform]
      rcases hg : w.cacheGet key (openMode flags) with ⟨w', _ | i⟩
      · rw [(cacheGet_none hg).1]; exact hf
      · exact (hget hg :)
  | openDir key =>
      simp only [perform]
      rcases hg : w.cacheGet key .read with ⟨w', _ | i⟩
      · rw [(cacheGet_none hg).1]; exact hf
      · exact (hget hg :)
  | setFd fh fd =>
      simp only [perform]
      cases w.files fh <;> exact hf
  | write fh value fd =>
      simp only [perform]
      cases w.files fh <;> exact hf
  | close fh value =>
      simp only [perform]
      cases w.files fh with
      | none => exact hf
      | some f => exact evict_dbFaults _ _ (release_dbFaults _ _ (writeBack_dbFaults _ _ hf))
  | closeDir i => exact release_dbFaults _ i hf
  | edit key value =>
      simp only [perform]
      rcases hg : w.cacheGet key .write with ⟨w', _ | i⟩
      · rw [(cacheGet_none hg).1]; exact hf
      · exact release_dbFaults _ _ (writeBack_dbFaults _ _ (hget hg :))
  | create key value =>
      show (w.store.dbPut key value).1.dbFaults = []
      rw [dbPut_ok _ _ _ hf]
      exact hf
  | remove key =>
      simp only [perform]
      rcases hg : w.cacheGet key .delete with ⟨w', _ | i⟩
      · rw [(cacheGet_none hg).1]; exact hf
      · exact evict_dbFaults _ _ (release_dbFaults _ _ (hget hg :))
  | move old_key new_key filename =>
      simp only [perform]
      rcases hg : w.cacheGet old_key .delete with ⟨w', _ | i⟩
      · rw [(cacheGet_none hg).1]; exact hf
      · obtain ⟨s, hs, rfl⟩ := cacheGet_some hg
        dsimp only
        rw [setDentry_store, renameHandles, setStore_store]
        refine evict_dbFaults _ _ (release_dbFaults _ _ (release_dbFaults _ _ ?_))
        have hpair := insert_paired hs new_key (renameInodeValue (s.value i) filename)
        have hf1 : (((s.insert new_key (renameInodeValue (s.value i) filename)).1.evict
            old_key).setMode s.cache.next .read).dbFaults = [] :=
          evict_dbFaults _ _ (insertHandle_dbFaults s _ _ _ (get_dbFaults hs hf))
        show ((s.insert new_key (renameInodeValue (s.value i) filename)).1.batchCommit i
          s.cache.next).dbFaults = []
        rw [hpair.batchCommit, dbWrite_ok _ _ hf1]
        exact hf1
  | evict key => exact evict_dbFaults _ key hf
  | sync =>
      show (w.store.tryCommit _).1.dbFaults = []
      rw [tryCommit_ok _ _ hf]
      exact hf
  | setFaults fs => exact he fs rfl
  | _ => exact hf

theorem step_dbFaults {w : World} (hf : w.store.dbFaults = []) {op : Op} (hop : StoreWorks op) :
    (w.step op).1.store.dbFaults = [] := by
  obtain ⟨w₁, e, hl, _, hp, os, log, _, hu⟩ := w.step_steps op
  rw [hu]
  refine perform_dbFaults (hl.dbFaults.trans hf) e ?_
  rintro fs rfl
  cases hp with
  | setFaults => exact hop

/-! ## The table equals the store -/

/-- What a call must meet so that the table stays equal to the store, the handles of
open files apart: a handle that `ReleaseDir` frees has nothing pending that an entry
of the table contradicts. -/
def KeepsRecords (w : World) : Op → Prop
  | .releaseDir handle =>
      handle ∈ w.dirs → w.store.FreesSafely (· = ·) (w.Exempt True) handle
  | _ => True

/-- The table equals the store, with what that rests on. -/
structure InStep (w : World) : Prop where
  accounted : w.Accounted
  records : w.store.Records
  dbFaults : w.store.dbFaults = []
  table : w.store.Table (· = ·) (w.Exempt True)

theorem mount_inStep {d : Durable} (hd : d.Records) (cfg : MountConfig) :
    (mount d cfg).InStep :=
  ⟨mount_accounted d cfg, mount_records hd cfg, (mount_store d cfg).2.1, mount_table d cfg _⟩

theorem InStep.step {w : World} (h : w.InStep) {op : Op} (hwf : op.WellFormed)
    (hop : StoreWorks op) (hc : w.CreatesAbsent op) (hk : w.KeepsRecords op) :
    (w.next op).InStep := by
  refine ⟨h.accounted.step op, Store.Records.step h.accounted h.records hwf,
    step_dbFaults h.dbFaults hop, table_step eq_equivalence h.accounted h.records h.table hwf
      (Or.inl ⟨trivial, h.dbFaults⟩) hc ?_⟩
  cases op with
  | rename => exact h.dbFaults
  | releaseDir handle => exact hk
  | _ => trivial

theorem InStep.run {w : World} (h : w.InStep) {ops : List Op}
    (hwf : ∀ op ∈ ops, op.WellFormed) (hop : ∀ op ∈ ops, StoreWorks op)
    (hc : w.Meets CreatesAbsent ops) (hk : w.Meets KeepsRecords ops) : (w.run ops).InStep :=
  Transition.run_invariant (P := InStep)
    (fun _ _ h hC => h.step hC.1 hC.2.1 hC.2.2.1 hC.2.2.2) h
    ((Transition.meets_of_forall hwf w).and
      ((Transition.meets_of_forall hop w).and (hc.and hk)))

/-- With nothing open, no entry is exempt. -/
theorem InStep.table_all {w : World} (h : w.InStep) (hf : ∀ n, w.files n = none) :
    w.store.Table (· = ·) fun _ _ => False := by
  refine h.table.mono fun _ _ hx => ?_
  obtain ⟨_, n, f, hn, _⟩ := hx
  rw [hf n] at hn
  cases hn

end World

end Tablefs
