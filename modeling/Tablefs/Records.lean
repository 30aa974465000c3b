/-
What holds of every value: the records in the metadata store and the values of the
cached handles.

A value reaches the store only from a handle or from a new record, and a handle
gets its value only from the store, from an edit, or by `Rename`. So a property
of values (`Store.AllValues`) that new records have and that edits and renames
keep holds along every run (`AllValues.step`). It is instantiated with what a
record's name and inode number may be.
-/
import Tablefs.Accounts

set_option autoImplicit false

namespace Tablefs

open ByteString

namespace Store

/-! ## The store after the deleter ran -/

/-- A deleted handle leaves a key alone, stores its own value there or deletes it. -/
theorem cleanInodeHandle_dbGet (s : Store) (h : ℕ) (k : MetaKey) :
    (s.cleanInodeHandle h).dbGet k = s.dbGet k ∨
      s.keyOf h = k ∧ (s.mode h = .write ∧ (s.cleanInodeHandle h).dbGet k = some (s.value h) ∨
        s.mode h = .delete ∧ (s.cleanInodeHandle h).dbGet k = none) := by
  unfold cleanInodeHandle
  cases s.mode h with
  | write =>
      rcases s.dbPut_dbGet (s.keyOf h) k (s.value h) with h' | ⟨hk, h'⟩
      · exact Or.inl h'
      · exact Or.inr ⟨hk, Or.inl ⟨rfl, h'⟩⟩
  | delete =>
      dsimp only
      rw [dbDelete_dbGet]
      by_cases hk : s.keyOf h = k
      · exact Or.inr ⟨hk, Or.inr ⟨rfl, if_pos hk⟩⟩
      · exact Or.inl (if_neg hk)
  | read => exact Or.inl rfl

theorem mode_congr {s t : Store} (h : t.cache = s.cache) (i : ℕ) : t.mode i = s.mode i := by
  rw [mode, h, mode]

theorem value_congr {s t : Store} (h : t.cache = s.cache) (i : ℕ) : t.value i = s.value i := by
  rw [value, h, value]

theorem keyOf_congr {s t : Store} (h : t.cache = s.cache) (i : ℕ) : t.keyOf i = s.keyOf i := by
  rw [keyOf, h, keyOf]

/-- The deleter leaves a key alone unless a freed handle had a change for it. -/
theorem cleanAll_dbGet (s : Store) (freed : List ℕ) (k : MetaKey) :
    (s.cleanAll freed).dbGet k = s.dbGet k ∨
      ∃ i ∈ freed, s.keyOf i = k ∧
        (s.mode i = .write ∧ (s.cleanAll freed).dbGet k = some (s.value i) ∨
          s.mode i = .delete ∧ (s.cleanAll freed).dbGet k = none) := by
  refine cleanAll_induct (P := fun t => t.dbGet k = s.dbGet k ∨ ∃ i ∈ freed, s.keyOf i = k ∧
    (s.mode i = .write ∧ t.dbGet k = some (s.value i) ∨
      s.mode i = .delete ∧ t.dbGet k = none)) (Or.inl rfl) fun t hc ht i hi => ?_
  rcases t.cleanInodeHandle_dbGet i k with h | ⟨hk, h⟩
  · rw [h]; exact ht
  · rw [keyOf_congr hc] at hk
    rw [mode_congr hc, value_congr hc] at h
    exact Or.inr ⟨i, hi, hk, h⟩

/-! ## A property of all values -/

end Store

/-- A write puts records under keys of `tfs_meta_key_t`, of which `Q` holds, or the
empty value of `Sync`. -/
def DbEffect.Puts (Q : MetaKey → Bytes → Prop) : DbEffect → Prop
  | .put key value => key = syncKey ∨ ∃ k, key = MetaKey.toSlice k ∧ Q k value
  | .delete _ => True
  | .batch ops => ∀ key v, BatchOp.put key v ∈ ops → ∃ k, key = MetaKey.toSlice k ∧ Q k v

namespace Store

/-- `H` holds of every handle, and `Q` of every record and of every record the log says was
put into the store, the first `n` writes apart. -/
structure Values (H : MetaKey → InodeCacheHandle → Prop) (Q : MetaKey → Bytes → Prop) (n : ℕ)
    (s : Store) : Prop where
  db : ∀ k v, s.dbGet k = some v → Q k v
  live : ∀ i, s.cache.Live i → H (s.keyOf i) (s.cache.val i)
  log : ∀ e ∈ (dbEvents s.log).drop n, e.Puts Q

/-- A handle to be written holds what may be stored, one that is loaded may be in any mode,
and only to be written is a demand on a handle. -/
structure Ties (H : MetaKey → InodeCacheHandle → Prop) (Q : MetaKey → Bytes → Prop) : Prop where
  stores : ∀ {k v}, H k ⟨v, .write⟩ → Q k v
  loads : ∀ {k v} (m), Q k v → H k ⟨v, m⟩
  rests : ∀ {k v m m'}, H k ⟨v, m⟩ → m' ≠ .write → H k ⟨v, m'⟩

variable {H : MetaKey → InodeCacheHandle → Prop} {Q : MetaKey → Bytes → Prop} {n : ℕ} {s : Store}

theorem Values.congr {t : Store} (h : s.Values H Q n) (hm : t.metadb = s.metadb)
    (hc : t.cache = s.cache) (hl : dbEvents t.log = dbEvents s.log) : t.Values H Q n where
  db := fun k v hv => h.db k v (by rw [← hv, dbGet, dbGet, hm])
  live := fun i hi => by
    rw [keyOf_congr hc, hc]
    exact h.live i (hc ▸ hi)
  log := by rw [hl]; exact h.log

theorem mem_drop_append {α : Type*} {n : ℕ} {l l' : List α} {x : α}
    (h : x ∈ (l ++ l').drop n) : x ∈ l.drop n ∨ x ∈ l' := by
  rw [List.drop_append, List.mem_append] at h
  exact h.imp id List.mem_of_mem_drop

theorem commit_log {P : DbEffect → Prop} {t : Store} (h : ∀ e ∈ (dbEvents t.log).drop n, P e)
    {e : DbEffect} (he : P e) : ∀ e' ∈ (dbEvents (t.commit e).log).drop n, P e' := by
  intro e' h'
  rw [commit, dbEvents_append, dbEvents_db] at h'
  rcases mem_drop_append h' with h' | h'
  · exact h e' h'
  · rwa [List.mem_singleton.mp h']

theorem tryCommit_log {P : DbEffect → Prop} {t : Store}
    (h : ∀ e ∈ (dbEvents t.log).drop n, P e) {e : DbEffect} (he : P e) :
    ∀ e' ∈ (dbEvents (t.tryCommit e).1.log).drop n, P e' := by
  unfold tryCommit
  split
  · exact h
  · exact commit_log (t := { t with dbFaults := _ }) h he
  · exact commit_log h he

/-- Putting a value under a `tfs_meta_key_t`. -/
theorem puts_put {k : MetaKey} {v : Bytes} (h : Q k v) : (DbEffect.put k.toSlice v).Puts Q :=
  Or.inr ⟨k, rfl, h⟩

/-- The deleter puts only values of the handles it is called for. -/
theorem cleanAll_log {t : Store} (freed : List ℕ) (h : ∀ e ∈ (dbEvents t.log).drop n, e.Puts Q)
    (hf : ∀ i ∈ freed, t.mode i = .write → Q (t.keyOf i) (t.value i)) :
    ∀ e ∈ (dbEvents (t.cleanAll freed).log).drop n, e.Puts Q := by
  refine cleanAll_induct (P := fun u => ∀ e ∈ (dbEvents u.log).drop n, e.Puts Q) h
    fun u hc hu i hi => ?_
  unfold cleanInodeHandle
  split
  · rename_i hm
    refine tryCommit_log hu (puts_put ?_)
    rw [keyOf_congr hc, value_congr hc]
    rw [mode_congr hc] at hm
    exact hf i hi hm
  · exact commit_log hu trivial
  · exact hu

section

variable (hT : Ties H Q)
include hT

/-- What is to be written may be stored. -/
theorem Ties.pending {i : ℕ} (h : H (s.keyOf i) (s.cache.val i)) (hm : s.mode i = .write) :
    Q (s.keyOf i) (s.value i) := by
  refine hT.stores ?_
  rwa [← hm]

/-- Entries are dropped and the freed ones cleaned. -/
theorem Values.shrink (h : s.Values H Q n) (c' : LruCache MetaKey InodeCacheHandle)
    (freed : List ℕ) (hk : c'.key = s.cache.key) (hv : c'.val = s.cache.val)
    (hlive : ∀ i, c'.Live i → s.cache.Live i) (hfreed : ∀ i ∈ freed, s.cache.Live i) :
    ({ s with cache := c' }.cleanAll freed).Values H Q n := by
  have hkey : ∀ i, Store.keyOf { s with cache := c' } i = s.keyOf i := fun i => congrFun hk i
  have hval : ∀ i, Store.value { s with cache := c' } i = s.value i :=
    fun i => congrArg InodeCacheHandle.value_ (congrFun hv i)
  have hmode : ∀ i, Store.mode { s with cache := c' } i = s.mode i :=
    fun i => congrArg InodeCacheHandle.mode_ (congrFun hv i)
  have hf : ∀ i ∈ freed, Store.mode { s with cache := c' } i = .write →
      Q (Store.keyOf { s with cache := c' } i) (Store.value { s with cache := c' } i) := by
    intro i hi hm
    rw [hkey, hval]
    rw [hmode] at hm
    exact hT.pending (h.live i (hfreed i hi)) hm
  refine ⟨fun k v hdb => ?_, fun i hi => ?_,
    cleanAll_log (t := { s with cache := c' }) freed h.log hf⟩
  · rcases cleanAll_dbGet { s with cache := c' } freed k with he | ⟨i, hi, hik, he⟩
    · exact h.db k v (he ▸ hdb)
    · rcases he with ⟨hm, he⟩ | ⟨_, he⟩
      · rw [hdb] at he
        rw [← hik, Option.some.inj he]
        exact hf i hi hm
      · rw [hdb] at he; exact absurd he (by simp)
  · rw [cleanAll_cache] at hi
    rw [keyOf_congr (cleanAll_cache _ _), cleanAll_cache, hkey]
    show H _ (c'.val i)
    rw [hv]
    exact h.live i (hlive i hi)

theorem Values.release (h : s.Values H Q n) {i : ℕ} (hi : s.cache.Live i) :
    (s.release i).Values H Q n := by
  refine h.shrink hT (s.cache.release i).1 _ rfl rfl (fun j hj => ?_) (fun j hj => ?_)
  · rcases hj with hj | hj
    · exact Or.inl hj
    · refine Or.inr ?_
      by_cases hij : j = i
      · subst hij
        have hj' : 0 < Function.update s.cache.pins j (s.cache.pins j - 1) j := hj
        rw [Function.update_self] at hj'
        omega
      · have hj' : 0 < Function.update s.cache.pins i (s.cache.pins i - 1) j := hj
        rwa [Function.update_of_ne hij] at hj'
  · simp only [LruCache.release] at hj
    split at hj
    · rw [List.mem_singleton.mp hj]; exact hi
    · exact absurd hj List.not_mem_nil

theorem Values.evict (h : s.Values H Q n) (k : MetaKey) : (s.evict k).Values H Q n := by
  have hd := s.cache.erase_dropped k
  refine h.shrink hT _ _ hd.key hd.val (fun i hi => ?_) fun i hi => Or.inl ((hd.freed i).mp hi).1
  rcases hi with hi | hi
  · exact Or.inl (hd.lru i hi)
  · exact Or.inr (by rwa [← hd.pins])

theorem Values.setMode (h : s.Values H Q n) (i : ℕ) {m : InodeAccessMode}
    (hm : m = .write → s.cache.Live i → Q (s.keyOf i) (s.value i)) :
    (s.setMode i m).Values H Q n where
  db := h.db
  live := fun j hj => by
    by_cases hij : j = i
    · subst hij
      have hval : (s.setMode j m).cache.val j = ⟨s.value j, m⟩ := Function.update_self ..
      rw [hval, setMode_keyOf]
      by_cases hw : m = .write
      · exact hT.loads m (hm hw hj)
      · exact hT.rests (h.live j hj) hw
    · have hval : (s.setMode i m).cache.val j = s.cache.val j := Function.update_of_ne hij _ _
      rw [hval]
      exact h.live j hj
  log := h.log

omit hT in
theorem Values.setValue (h : s.Values H Q n) {i : ℕ} {v : Bytes}
    (hv : H (s.keyOf i) ⟨v, s.mode i⟩) : (s.setValue i v).Values H Q n where
  db := h.db
  live := fun j hj => by
    by_cases hij : j = i
    · subst hij
      have hval : (s.setValue j v).cache.val j = ⟨v, s.mode j⟩ := Function.update_self ..
      rw [hval]
      exact hv
    · have hval : (s.setValue i v).cache.val j = s.cache.val j := Function.update_of_ne hij _ _
      rw [hval]
      exact h.live j hj
  log := h.log

omit hT in
theorem Values.dbPut (h : s.Values H Q n) {k : MetaKey} {v : Bytes} (hv : Q k v) :
    (s.dbPut k v).1.Values H Q n where
  db := fun k' v' hdb => by
    rcases s.dbPut_dbGet k k' v with he | ⟨rfl, he⟩
    · exact h.db k' v' (he ▸ hdb)
    · rw [hdb] at he
      rwa [Option.some.inj he]
  live := fun i hi => by
    rw [keyOf_congr (dbPut_cache _ _ _), dbPut_cache]
    exact h.live i (dbPut_cache s k v ▸ hi)
  log := tryCommit_log h.log (puts_put hv)

omit hT in
/-- A put that is about to fail needs nothing. -/
theorem Values.dbPut_of (h : s.Values H Q n) {k : MetaKey} {v : Bytes}
    (hv : s.dbFaults.head? ≠ some true → Q k v) : (s.dbPut k v).1.Values H Q n := by
  by_cases hf : s.dbFaults.head? = some true
  · unfold Store.dbPut Store.tryCommit
    split
    · exact h.congr rfl rfl rfl
    · rename_i heq
      rw [heq] at hf
      cases hf
    · rename_i heq
      rw [heq] at hf
      cases hf
  · exact h.dbPut (hv hf)

omit hT in
theorem Values.dbDelete (h : s.Values H Q n) (k : MetaKey) : (s.dbDelete k).Values H Q n where
  db := fun k' v' hdb => by
    rw [dbDelete_dbGet] at hdb
    split at hdb
    · exact absurd hdb (by simp)
    · exact h.db k' v' hdb
  live := h.live
  log := commit_log h.log trivial

theorem Values.writeBack (h : s.Values H Q n) {i : ℕ} (hi : s.cache.Live i) :
    (s.writeBack i).Values H Q n := by
  unfold Store.writeBack
  split
  · rename_i hm
    exact (h.dbPut (hT.pending (h.live i hi) hm)).setMode hT i (by simp)
  · exact (h.dbDelete _).evict hT _
  · exact h

theorem Values.insertHandle (h : s.Values H Q n) {k : MetaKey} {v : Bytes} (hv : Q k v)
    (m : InodeAccessMode) : (s.insertHandle k v m).1.Values H Q n := by
  obtain ⟨c', freed, hins, he⟩ := s.insertHandle_spec k v m
  have hold : ∀ i, i ≠ s.cache.next → c'.key i = s.cache.key i ∧ c'.val i = s.cache.val i :=
    fun i hi => by
      rw [hins.key, hins.val, Function.update_of_ne hi, Function.update_of_ne hi]
      exact ⟨rfl, rfl⟩
  have hlive : ∀ i, s.cache.Live i → i ≠ s.cache.next := fun i hi => by
    have := LruCache.live_lt_next hi
    omega
  have hfreed : ∀ i ∈ freed, Store.mode { s with cache := c' } i = .write →
      Q (Store.keyOf { s with cache := c' } i) (Store.value { s with cache := c' } i) := by
    intro i hi hm
    have hi' : s.cache.Live i := Or.inl ((hins.freed i).mp hi).1
    obtain ⟨hki, hvi⟩ := hold i (hlive i hi')
    refine hT.pending (s := { s with cache := c' }) ?_ hm
    show H (c'.key i) (c'.val i)
    rw [hki, hvi]
    exact h.live i hi'
  rw [he]
  refine ⟨fun k' v' hdb => ?_, fun i hi => ?_,
    cleanAll_log (t := { s with cache := c' }) freed h.log hfreed⟩
  · rcases cleanAll_dbGet { s with cache := c' } freed k' with hc | ⟨i, hi, hik, hc⟩
    · exact h.db k' v' (hc ▸ hdb)
    · rcases hc with ⟨hm, hc⟩ | ⟨_, hc⟩
      · rw [hdb] at hc
        rw [Option.some.inj hc, ← hik]
        exact hfreed i hi hm
      · rw [hdb] at hc; exact absurd hc (by simp)
  · rw [cleanAll_cache] at hi
    rw [keyOf_congr (cleanAll_cache _ _), cleanAll_cache]
    show H (c'.key i) (c'.val i)
    by_cases hn : i = s.cache.next
    · rw [hn, hins.key, hins.val, Function.update_self, Function.update_self]
      exact hT.loads m hv
    · obtain ⟨hki, hvi⟩ := hold i hn
      have hi' : s.cache.Live i := by
        rcases hi with hi | hi
        · exact Or.inl ((hins.lru i hi).resolve_left hn).1
        · refine Or.inr ?_
          have hi' : 0 < c'.pins i := hi
          rwa [hins.pins, Function.update_of_ne hn] at hi'
      rw [hki, hvi]
      exact h.live i hi'

/-- `Get` to write is for a value that may be stored. -/
theorem Values.get {s' : Store} (h : s.Values H Q n) {k : MetaKey} {m : InodeAccessMode}
    {i : ℕ} (hg : s.get k m = (s', some i))
    (hm : m = .write → ∀ v, s.lookup k = some v → Q k v) : s'.Values H Q n := by
  have hl := get_lookup hg
  have hk := get_keyOf hg
  rcases get_cases hg with ⟨hf, rfl⟩ | ⟨_, v, hv, rfl, rfl⟩
  · have ht : Store.Values H Q n { s with cache := s.cache.touch i (LruCache.mem_of_find hf) } :=
      h.shrink hT _ [] rfl rfl (fun j hj => LruCache.touch_live.mp hj)
        fun j hj => absurd hj List.not_mem_nil
    split
    · exact ht
    · rename_i hr
      rw [if_neg hr, setMode_value] at hl
      rw [if_neg hr, setMode_keyOf] at hk
      refine ht.setMode hT i fun hw _ => ?_
      rw [hk]
      exact hm hw _ hl
  · exact h.insertHandle hT (h.db k v hv) m

end

/-! ## Rename's batch -/

/-- What a batch leaves under a key: the old record, a record it puts there, or
nothing. -/
theorem batch_get (ops : List BatchOp) (db : MetaDb) (k : Bytes) :
    (ops.foldl BatchOp.apply db).get k = db.get k ∨
      (∃ v, BatchOp.put k v ∈ ops ∧ (ops.foldl BatchOp.apply db).get k = some v) ∨
      (ops.foldl BatchOp.apply db).get k = none := by
  induction ops generalizing db with
  | nil => exact Or.inl rfl
  | cons op ops ih =>
      rw [List.foldl_cons]
      rcases ih (op.apply db) with h | ⟨v, hv, h⟩ | h
      · rw [h]
        cases op with
        | put k' v =>
            by_cases hk : k' = k
            · subst hk
              exact Or.inr (Or.inl ⟨v, List.mem_cons_self, SortedMap.get_put_self _ _ _⟩)
            · exact Or.inl (SortedMap.get_put_of_ne _ _ hk)
        | delete k' =>
            by_cases hk : k' = k
            · subst hk
              exact Or.inr (Or.inr (SortedMap.get_delete_self _ _))
            · exact Or.inl (SortedMap.get_delete_of_ne _ hk)
      · exact Or.inr (Or.inl ⟨v, List.mem_cons_of_mem _ hv, h⟩)
      · exact Or.inr (Or.inr h)

theorem Values.dbWrite (h : s.Values H Q n) {ops : List BatchOp}
    (hops : ∀ key v, BatchOp.put key v ∈ ops → ∃ k, key = MetaKey.toSlice k ∧ Q k v) :
    (s.dbWrite ops).1.Values H Q n where
  db := fun k v hdb => by
    have hcommit : ∀ t : Store, t.metadb = s.metadb →
        (t.commit (.batch ops)).dbGet k = some v → Q k v := fun t ht hv => by
      rw [dbGet, commit, ht] at hv
      rcases batch_get ops s.metadb k.toSlice with hb | ⟨v', hv', hb⟩ | hb
      · exact h.db k v (hb.symm.trans hv)
      · have : some v = some v' := hv.symm.trans hb
        obtain ⟨k', hk', hq⟩ := hops k.toSlice v' hv'
        rw [Option.some.inj this, MetaKey.toSlice_inj hk']
        exact hq
      · exact absurd (hv.symm.trans hb) (by simp)
    unfold Store.dbWrite Store.tryCommit at hdb
    split at hdb
    · exact h.db k v hdb
    · exact hcommit { s with dbFaults := _ } rfl hdb
    · exact hcommit s rfl hdb
  live := fun i hi => by
    rw [keyOf_congr (dbWrite_cache _ _), dbWrite_cache]
    exact h.live i (dbWrite_cache s ops ▸ hi)
  log := tryCommit_log h.log hops

section

variable (hT : Ties H Q)
include hT

/-- What `BatchCommit` does for one handle keeps the property, and so does the
operation it adds to the batch. -/
theorem Values.batchOne (h : s.Values H Q n) {i : ℕ} (hi : s.cache.Live i) :
    (s.batchOne i).1.Values H Q n ∧
      ∀ key v, BatchOp.put key v ∈ (s.batchOne i).2 → ∃ k, key = MetaKey.toSlice k ∧ Q k v := by
  unfold Store.batchOne
  split
  · rename_i hm
    refine ⟨h.setMode hT i (by simp), fun k v hv => ?_⟩
    simp only [List.mem_singleton, BatchOp.put.injEq] at hv
    exact ⟨s.keyOf i, hv.1, hv.2 ▸ hT.pending (h.live i hi) hm⟩
  · exact ⟨h.evict hT _, fun k v hv => by simp at hv⟩
  · exact ⟨h, fun k v hv => absurd hv List.not_mem_nil⟩

theorem Values.batchCommit (h : s.Values H Q n) {i j : ℕ} (hi : 0 < s.cache.pins i)
    (hj : 0 < s.cache.pins j) : (s.batchCommit i j).Values H Q n := by
  obtain ⟨h1, ho1⟩ := h.batchOne hT (Or.inr hi)
  obtain ⟨h2, ho2⟩ := h1.batchOne hT (i := j) (Or.inr (by rwa [batchOne_pins]))
  refine h2.dbWrite fun k v hv => ?_
  rcases List.mem_append.mp hv with hv | hv
  · exact ho1 k v hv
  · exact ho2 k v hv

end

theorem sync_ne_toSlice (k : MetaKey) : syncKey ≠ k.toSlice := by
  intro h
  have := congrArg List.length h
  rw [MetaKey.length_toSlice] at this
  exact absurd this (by decide)

/-- The record `Sync` stores is under no `tfs_meta_key_t`. -/
theorem dbSync_dbGet (s : Store) (k : MetaKey) : s.dbSync.1.dbGet k = s.dbGet k := by
  have hcommit : ∀ t : Store, t.metadb = s.metadb →
      (t.commit (.put syncKey [])).dbGet k = s.dbGet k := fun t ht => by
    rw [dbGet, commit, ht]
    exact SortedMap.get_put_of_ne _ _ (sync_ne_toSlice k)
  unfold dbSync tryCommit
  split
  · rfl
  · exact hcommit { s with dbFaults := _ } rfl
  · exact hcommit s rfl

theorem Values.dbSync (h : s.Values H Q n) : s.dbSync.1.Values H Q n where
  db := fun k v hv => h.db k v (by rwa [dbSync_dbGet] at hv)
  live := fun i hi => by
    rw [keyOf_congr (dbSync_cache _), dbSync_cache]
    exact h.live i (dbSync_cache s ▸ hi)
  log := tryCommit_log h.log (Or.inl rfl)

/-- The handles of a rename: the one under the old key, and a new one under the new. -/
theorem Values.renames (hT : Ties H Q) (h : s.Values H Q n) {i : ℕ} (hi : 0 < s.cache.pins i)
    {old_key new_key : MetaKey} {v : Bytes} (hv : Q new_key v) :
    (((((s.insert new_key v).1.batchCommit i (s.insert new_key v).2).release
      (s.insert new_key v).2).release i).evict old_key).Values H Q n := by
  have hne : i ≠ s.cache.next := fun he => by
    rw [he, s.cache.pins_fresh _ (Nat.le_refl _)] at hi
    omega
  have h1 := h.insertHandle hT hv .write
  have hp1 := s.insertHandle_pins new_key v .write
  generalize hs1 : (s.insertHandle new_key v .write).1 = s1 at h1 hp1
  have hi1 : 0 < s1.cache.pins i := by rwa [hp1, Function.update_of_ne hne]
  have hn1 : 0 < s1.cache.pins s.cache.next := by
    rw [hp1, Function.update_self]; exact Nat.one_pos
  have h2 := h1.batchCommit hT hi1 hn1
  have hp2 := s1.batchCommit_pins i s.cache.next
  have h3 := h2.release hT (i := s.cache.next) (Or.inr (by rwa [hp2]))
  have h4 := h3.release hT (i := i) (Or.inr (by
    rw [release_pins, Function.update_of_ne hne, hp2]; exact hi1))
  rw [Store.insert, hs1]
  exact h4.evict hT old_key

/-! ### One property of the values -/

/-- `Q` holds of every record, of the value of every handle, and of every record
the log says was put into the store, the first `n` writes apart. -/
structure AllValues (Q : MetaKey → Bytes → Prop) (n : ℕ) (s : Store) : Prop where
  db : ∀ k v, s.dbGet k = some v → Q k v
  live : ∀ i, s.cache.Live i → Q (s.keyOf i) (s.value i)
  log : ∀ e ∈ (dbEvents s.log).drop n, e.Puts Q

/-- It is the property of the handles that does not look at the mode. -/
theorem allValues_iff : s.AllValues Q n ↔ s.Values (fun k h => Q k h.value_) Q n :=
  ⟨fun h => ⟨h.db, h.live, h.log⟩, fun h => ⟨h.db, h.live, h.log⟩⟩

theorem ties_value (Q : MetaKey → Bytes → Prop) : Ties (fun k h => Q k h.value_) Q where
  stores := id
  loads := fun _ => id
  rests := fun h _ => h

theorem AllValues.congr {t : Store} (h : s.AllValues Q n) (hm : t.metadb = s.metadb)
    (hc : t.cache = s.cache) (hl : dbEvents t.log = dbEvents s.log) : t.AllValues Q n :=
  allValues_iff.mpr ((allValues_iff.mp h).congr hm hc hl)

/-- A property that implies another. -/
theorem AllValues.mono {Q' : MetaKey → Bytes → Prop} (h : s.AllValues Q n)
    (hQ : ∀ k v, Q k v → Q' k v) : s.AllValues Q' n where
  db := fun k v hv => hQ k v (h.db k v hv)
  live := fun i hi => hQ _ _ (h.live i hi)
  log := fun e he => by
    have := h.log e he
    cases e with
    | put key value => exact this.imp_right fun ⟨k, hk, h⟩ => ⟨k, hk, hQ _ _ h⟩
    | delete key => trivial
    | batch ops =>
        intro key v hv
        obtain ⟨k, hk, h⟩ := this key v hv
        exact ⟨k, hk, hQ _ _ h⟩

/-- What `Get` finds has the property. -/
theorem AllValues.lookup (h : s.AllValues Q n) {k : MetaKey} {v : Bytes}
    (hv : s.lookup k = some v) : Q k v := by
  unfold Store.lookup at hv
  split at hv
  · rename_i i hf
    have := h.live i (Or.inl (LruCache.mem_of_find hf))
    rw [keyOf, LruCache.key_of_find hf] at this
    rwa [← Option.some.inj hv]
  · exact h.db k v hv

theorem AllValues.shrink (h : s.AllValues Q n) (c' : LruCache MetaKey InodeCacheHandle)
    (freed : List ℕ) (hk : c'.key = s.cache.key) (hv : c'.val = s.cache.val)
    (hlive : ∀ i, c'.Live i → s.cache.Live i) (hfreed : ∀ i ∈ freed, s.cache.Live i) :
    ({ s with cache := c' }.cleanAll freed).AllValues Q n :=
  allValues_iff.mpr ((allValues_iff.mp h).shrink (ties_value Q) c' freed hk hv hlive hfreed)

theorem AllValues.release (h : s.AllValues Q n) {i : ℕ} (hi : s.cache.Live i) :
    (s.release i).AllValues Q n :=
  allValues_iff.mpr ((allValues_iff.mp h).release (ties_value Q) hi)

theorem AllValues.evict (h : s.AllValues Q n) (k : MetaKey) : (s.evict k).AllValues Q n :=
  allValues_iff.mpr ((allValues_iff.mp h).evict (ties_value Q) k)

theorem AllValues.setMode (h : s.AllValues Q n) (i : ℕ) (m : InodeAccessMode) :
    (s.setMode i m).AllValues Q n :=
  allValues_iff.mpr ((allValues_iff.mp h).setMode (ties_value Q) i fun _ hi => h.live i hi)

theorem AllValues.setValue (h : s.AllValues Q n) {i : ℕ} {v : Bytes} (hv : Q (s.keyOf i) v) :
    (s.setValue i v).AllValues Q n :=
  allValues_iff.mpr ((allValues_iff.mp h).setValue hv)

/-- A put that is about to fail needs nothing. -/
theorem AllValues.dbPut_of (h : s.AllValues Q n) {k : MetaKey} {v : Bytes}
    (hv : s.dbFaults.head? ≠ some true → Q k v) : (s.dbPut k v).1.AllValues Q n :=
  allValues_iff.mpr ((allValues_iff.mp h).dbPut_of hv)

theorem AllValues.dbPut (h : s.AllValues Q n) {k : MetaKey} {v : Bytes} (hv : Q k v) :
    (s.dbPut k v).1.AllValues Q n := h.dbPut_of fun _ => hv

theorem AllValues.writeBack (h : s.AllValues Q n) {i : ℕ} (hi : s.cache.Live i) :
    (s.writeBack i).AllValues Q n :=
  allValues_iff.mpr ((allValues_iff.mp h).writeBack (ties_value Q) hi)

theorem AllValues.get {s' : Store} (h : s.AllValues Q n) {k : MetaKey} {m : InodeAccessMode}
    {i : ℕ} (hg : s.get k m = (s', some i)) : s'.AllValues Q n :=
  allValues_iff.mpr ((allValues_iff.mp h).get (ties_value Q) hg fun _ _ hv => h.lookup hv)

theorem AllValues.dbSync (h : s.AllValues Q n) : s.dbSync.1.AllValues Q n :=
  allValues_iff.mpr (allValues_iff.mp h).dbSync

end Store

/-! ## Every effect keeps a property that its values have -/

/-- The values an effect brings in have the property. -/
def Effect.Keeps (Q : MetaKey → Bytes → Prop) (w : World) : Effect → Prop
  | .write fh value _ => ∀ f, w.files fh = some f → Q (w.store.keyOf f.handle_) value
  | .close fh value => ∀ f, w.files fh = some f → Q (w.store.keyOf f.handle_) value
  | .edit key value => Q key value
  | .create key value => w.store.dbFaults.head? ≠ some true → Q key value
  | .move old_key new_key filename =>
      ∀ v, w.store.lookup old_key = some v → Q new_key (renameInodeValue v filename)
  | _ => True

namespace World

open Store

variable {Q : MetaKey → Bytes → Prop} {n : ℕ} {w : World}

theorem cacheGet_allValues {w' : World} {k : MetaKey} {m : InodeAccessMode} {i : ℕ}
    (h : w.store.AllValues Q n) (hg : w.cacheGet k m = (w', some i)) :
    w'.store.AllValues Q n ∧ 0 < w'.store.cache.pins i ∧ w'.store.keyOf i = k := by
  have hp := cacheGet_pins hg
  obtain ⟨s, hs, rfl⟩ := cacheGet_some hg
  refine ⟨h.get hs, ?_, get_keyOf hs⟩
  rw [hp, Function.update_self]; omega

theorem renameHandles_allValues (h : w.store.AllValues Q n) {i : ℕ}
    (hi : 0 < w.store.cache.pins i) {old_key new_key : MetaKey} {filename : Bytes}
    (hv : Q new_key (renameInodeValue (w.store.value i) filename)) :
    (w.renameHandles i old_key new_key filename).store.AllValues Q n := by
  rw [renameHandles, setStore_store]
  exact allValues_iff.mpr ((allValues_iff.mp h).renames (ties_value Q) hi hv)

theorem perform_allValues (ha : w.Accounted) (h : w.store.AllValues Q n) (e : Effect)
    (hk : e.Keeps Q w) (hdir : ∀ i, e = .closeDir i → i ∈ w.dirs) :
    (w.perform e).store.AllValues Q n := by
  cases e with
  | idle => exact h
  | touch key mode =>
      simp only [World.perform]
      rcases hg : w.cacheGet key mode with ⟨w', _ | i⟩
      · rw [(cacheGet_none hg).1]; exact h
      · obtain ⟨h', hp, _⟩ := cacheGet_allValues h hg
        exact h'.release (Or.inr hp)
  | openFile key flags fd =>
      simp only [World.perform]
      rcases hg : w.cacheGet key (openMode flags) with ⟨w', _ | i⟩
      · rw [(cacheGet_none hg).1]; exact h
      · exact (cacheGet_allValues h hg).1
  | openDir key =>
      simp only [World.perform]
      rcases hg : w.cacheGet key .read with ⟨w', _ | i⟩
      · rw [(cacheGet_none hg).1]; exact h
      · exact (cacheGet_allValues h hg).1
  | setFd fh fd =>
      simp only [World.perform]
      cases hf : w.files fh with
      | none => exact h
      | some f => exact h
  | write fh value fd =>
      simp only [World.perform]
      cases hf : w.files fh with
      | none => exact h
      | some f => exact (h.setMode f.handle_ .write).setValue (hk f hf)
  | close fh value =>
      simp only [World.perform]
      cases hf : w.files fh with
      | none => exact h
      | some f =>
          have hp := ha.pinned_of_file hf
          have h1 := h.setValue (i := f.handle_) (hk f hf)
          have h2 := h1.writeBack (i := f.handle_) (Or.inr hp)
          have h3 := h2.release (i := f.handle_) (Or.inr (by rwa [writeBack_pins]))
          exact h3.evict _
  | closeDir i => exact h.release (Or.inr (ha.pinned_of_dir (hdir i rfl)))
  | edit key value =>
      simp only [World.perform]
      rcases hg : w.cacheGet key .write with ⟨w', _ | i⟩
      · rw [(cacheGet_none hg).1]; exact h
      · obtain ⟨h', hp, hkey⟩ := cacheGet_allValues h hg
        have h1 := h'.setValue (i := i) (v := value) (hkey ▸ hk)
        have h2 := h1.writeBack (i := i) (Or.inr hp)
        exact h2.release (Or.inr (by rwa [writeBack_pins]))
  | create key value => exact h.dbPut_of hk
  | remove key =>
      simp only [World.perform]
      rcases hg : w.cacheGet key .delete with ⟨w', _ | i⟩
      · rw [(cacheGet_none hg).1]; exact h
      · obtain ⟨h', hp, _⟩ := cacheGet_allValues h hg
        exact (h'.release (Or.inr hp)).evict key
  | move old_key new_key filename =>
      simp only [World.perform]
      rcases hg : w.cacheGet old_key .delete with ⟨w', _ | i⟩
      · rw [(cacheGet_none hg).1]; exact h
      · obtain ⟨h', hp, _⟩ := cacheGet_allValues h hg
        exact renameHandles_allValues h' hp (hk _ (cacheGet_lookup hg))
  | evict key => exact h.evict key
  | sync => exact h.dbSync
  | setEnv env => exact h
  | setFaults dbFaults => exact h.congr rfl rfl rfl

/-- The effect of a call keeps a property of values that edits keep and that the
records it creates or renames have. -/
theorem performs_allValues (hedit : ∀ k old new, Edited old new → Q k old → Q k new)
    (ha : w.Accounted) (h : w.store.AllValues Q n) {op : Op} (hwf : op.WellFormed) {w₁ : World}
    {e : Effect} (hl : w.Looked w₁) (hp : w.Performs op e)
    (hcreate : ∀ key value, e = .create key value → w.store.dbFaults.head? ≠ some true →
      Q key value)
    (hmove : ∀ old_key new_key filename, e = .move old_key new_key filename →
      ∀ v, w.store.lookup old_key = some v → Q new_key (renameInodeValue v filename)) :
    (w₁.perform e).store.AllValues Q n := by
  have ha₁ : w₁.Accounted := ha.congr (by rw [hl.cache]) hl.nextFile hl.files hl.dirs
  have h₁ : w₁.store.AllValues Q n := h.congr hl.metadb hl.cache hl.dbEvents
  have hfile : ∀ fh f, w.files fh = some f →
      Q (w.store.keyOf f.handle_) (w.store.value f.handle_) := fun fh f hf =>
    h.live _ (Or.inr (ha.pinned_of_file hf))
  have hkey : ∀ i, w₁.store.keyOf i = w.store.keyOf i := fun i => keyOf_congr hl.cache i
  refine perform_allValues ha₁ h₁ e ?_ ?_
  · cases hp with
    | write fd hf he =>
        intro f hf'
        rw [hl.files, hf] at hf'
        rw [hkey, ← Option.some.inj hf']
        exact hedit _ _ _ (he hwf) (hfile _ _ hf)
    | release hf he =>
        intro f hf'
        rw [hl.files, hf] at hf'
        rw [hkey, ← Option.some.inj hf']
        exact hedit _ _ _ he (hfile _ _ hf)
    | truncate hk ho he => exact hedit _ _ _ (he hwf) (h.lookup ho)
    | updateTimens hk ho he => exact hedit _ _ _ he (h.lookup ho)
    | chmod hk ho he => exact hedit _ _ _ he (h.lookup ho)
    | chown hk ho he => exact hedit _ _ _ he (h.lookup ho)
    | symlink hk => exact fun hf => hcreate _ _ rfl (hl.dbFaults ▸ hf)
    | makeNode hk => exact fun hf => hcreate _ _ rfl (hl.dbFaults ▸ hf)
    | makeDir hk => exact fun hf => hcreate _ _ rfl (hl.dbFaults ▸ hf)
    | rename ho hn =>
        intro v hv
        rw [hl.lookup] at hv
        exact hmove _ _ _ rfl v hv
    | _ => trivial
  · rintro i rfl
    cases hp with
    | releaseDir hh => rw [hl.dirs]; exact hh

/-- A property of values in a state is one in every state that agrees with it. -/
theorem UpToData.allValues {w' : World} (hu : w.UpToData w') (h : w.store.AllValues Q n) :
    w'.store.AllValues Q n := by
  obtain ⟨_, log, hlog, rfl⟩ := hu
  exact h.congr rfl rfl hlog

/-- What a create effect stores, and how the counter moves. -/
theorem Performs.create_value {op : Op} {key : MetaKey} {value : Bytes}
    (hp : w.Performs op (.create key value)) (hwf : op.WellFormed) :
    ∃ path mode dev rest, GoodPath path ∧ (w.pathLookup path).2 = some key ∧
      value = w.initInodeValue (w.max_inode_num + 1) mode dev (filenameOf path) rest := by
  cases hp with
  | symlink hk => exact ⟨_, _, _, _, hwf, hk, rfl⟩
  | makeNode hk => exact ⟨_, _, _, _, hwf, hk, rfl⟩
  | makeDir hk => exact ⟨_, _, _, _, hwf, hk, rfl⟩

/-- What a move effect does to the name. -/
theorem Performs.move_name {op : Op} {old_key new_key : MetaKey} {filename : Bytes}
    (hp : w.Performs op (.move old_key new_key filename)) (hwf : op.WellFormed) :
    ∃ old_path path, GoodPath path ∧ (w.pathLookup old_path).2 = some old_key ∧
      ((w.pathLookup old_path).1.pathLookup path).2 = some new_key ∧
      filename = filenameOf path := by
  cases hp with
  | rename ho hn => exact ⟨_, _, hwf, ho, hn, rfl⟩

theorem perform_max_inode_num (w : World) (e : Effect) :
    (w.perform e).max_inode_num = w.max_inode_num ∨
      (∃ key value, e = .create key value) ∧
        (w.perform e).max_inode_num = w.max_inode_num + 1 := by
  have hget : ∀ k m w' o, w.cacheGet k m = (w', o) → w'.max_inode_num = w.max_inode_num :=
    fun k m w' o hg => by rw [← (Prod.mk.inj hg).1]; rfl
  cases e with
  | create key value => exact Or.inr ⟨⟨key, value, rfl⟩, rfl⟩
  | touch key mode =>
      refine Or.inl ?_
      simp only [World.perform]
      rcases hg : w.cacheGet key mode with ⟨w', _ | i⟩ <;> exact (hget _ _ _ _ hg :)
  | openFile key flags fd =>
      refine Or.inl ?_
      simp only [World.perform]
      rcases hg : w.cacheGet key (openMode flags) with ⟨w', _ | i⟩ <;> exact (hget _ _ _ _ hg :)
  | openDir key =>
      refine Or.inl ?_
      simp only [World.perform]
      rcases hg : w.cacheGet key .read with ⟨w', _ | i⟩ <;> exact (hget _ _ _ _ hg :)
  | edit key value =>
      refine Or.inl ?_
      simp only [World.perform]
      rcases hg : w.cacheGet key .write with ⟨w', _ | i⟩ <;> exact (hget _ _ _ _ hg :)
  | remove key =>
      refine Or.inl ?_
      simp only [World.perform]
      rcases hg : w.cacheGet key .delete with ⟨w', _ | i⟩ <;> exact (hget _ _ _ _ hg :)
  | move old_key new_key filename =>
      refine Or.inl ?_
      simp only [World.perform]
      rcases hg : w.cacheGet old_key .delete with ⟨w', _ | i⟩
      · exact hget _ _ _ _ hg
      · rw [setDentry_max_inode_num, renameHandles_max_inode_num]
        exact hget _ _ _ _ hg
  | setFd fh fd =>
      refine Or.inl ?_
      simp only [World.perform]
      cases w.files fh <;> rfl
  | write fh value fd =>
      refine Or.inl ?_
      simp only [World.perform]
      cases w.files fh <;> rfl
  | close fh value =>
      refine Or.inl ?_
      simp only [World.perform]
      cases w.files fh <;> rfl
  | _ => exact Or.inl rfl

end World

/-! ## Names and inode numbers -/

/-- A value is a record whose name and inode number satisfy `q`. -/
def RecordIs (q : MetaKey → Bytes → UInt64 → Prop) (k : MetaKey) (v : Bytes) : Prop :=
  ∃ r : InodeRecord, r.value = v ∧ q k r.name r.header.fstat.st_ino

theorem RecordIs.record {q : MetaKey → Bytes → UInt64 → Prop} {k : MetaKey} {v : Bytes}
    (h : RecordIs q k v) : ∃ r : InodeRecord, r.value = v := by
  obtain ⟨r, hr, _⟩ := h
  exact ⟨r, hr⟩

theorem RecordIs.edit {q : MetaKey → Bytes → UInt64 → Prop} (k : MetaKey) (old new : Bytes)
    (he : Edited old new) (h : RecordIs q k old) : RecordIs q k new := by
  obtain ⟨r, hr, hq⟩ := h
  obtain ⟨r', hr', hn, hi⟩ := he r hr
  exact ⟨r', hr', by rwa [hn, hi]⟩

/-- A renamed record keeps its inode number. -/
theorem RecordIs.rename {q q' : MetaKey → Bytes → UInt64 → Prop} {k k' : MetaKey} {v : Bytes}
    {name : Bytes} (hn : name.length < 2 ^ 32) (h : RecordIs q k v)
    (hq : ∀ n i, q k n i → q' k' name i) : RecordIs q' k' (renameInodeValue v name) := by
  obtain ⟨r, rfl, hr⟩ := h
  exact ⟨r.setName name hn, (r.renameInodeValue_value name hn).symm, hq _ _ hr⟩

/-- A new record. -/
theorem World.initInodeValue_record (w : World) (inum : UInt64) (mode : UInt32) (dev : UInt64)
    (filename rest : Bytes) (hn : filename.length < 2 ^ 32) :
    ∃ r : InodeRecord, r.value = w.initInodeValue inum mode dev filename rest ∧
      r.name = filename ∧ r.inline = rest ∧ r.header.has_blob = 0 ∧
      r.header.fstat = w.initStat (getInodeHeader (w.newBuffer TFS_INODE_HEADER_SIZE)).fstat
        inum mode dev :=
  ⟨{ header :=
      { getInodeHeader (w.newBuffer TFS_INODE_HEADER_SIZE) with
        fstat := w.initStat (getInodeHeader (w.newBuffer TFS_INODE_HEADER_SIZE)).fstat
          inum mode dev
        has_blob := 0
        namelen := .ofNat filename.length }
     name := filename
     inline := rest
     namelen_eq := by rw [UInt32.toNat_ofNat']; omega }, rfl, rfl, rfl, rfl, rfl⟩

end Tablefs
