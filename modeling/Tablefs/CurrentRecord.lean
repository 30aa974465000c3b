/-
The current record of one key.

`Current k v` says that `v` is what the file system has under key `k`: the entry of the
table under `k`, if there is one, has value `v`, is not to be deleted, and has a store
pending unless the metadata store has `v` already; without an entry the store has `v`.
Taking a handle, giving it back, an eviction and a close keep it, an edit replaces `v`;
none of this depends on what the other entries hold.
-/
import Tablefs.Orphans
import Tablefs.FileData

set_option autoImplicit false

namespace Tablefs

open ByteString

namespace Store

variable {s s' t : Store} {k : MetaKey} {v : Bytes} {m : InodeAccessMode} {i : ℕ}

/-- `v` is the value under `k`. -/
structure Current (s : Store) (k : MetaKey) (v : Bytes) : Prop where
  cached : ∀ i ∈ s.cache.lru, s.keyOf i = k →
    s.value i = v ∧ s.mode i ≠ .delete ∧ (s.mode i = .read → s.dbGet k = some v)
  stored : (∀ i ∈ s.cache.lru, s.keyOf i ≠ k) → s.dbGet k = some v

theorem Current.congr (h : s.Current k v) (hc : t.cache = s.cache) (hm : t.metadb = s.metadb) :
    t.Current k v := by
  have hd : t.dbGet k = s.dbGet k := by rw [dbGet, hm]; rfl
  constructor
  · intro i hi hk
    rw [keyOf_congr hc] at hk
    rw [value_congr hc, mode_congr hc, hd]
    exact h.cached i (hc ▸ hi) hk
  · intro hn
    rw [hd]
    refine h.stored fun i hi => ?_
    rw [← keyOf_congr hc]
    exact hn i (hc ▸ hi)

/-- `Get` would find `v`. -/
theorem Current.lookup (h : s.Current k v) : s.lookup k = some v := by
  unfold Store.lookup
  cases hf : s.cache.find k with
  | none =>
      exact h.stored fun i hi => LruCache.find_eq_none_iff.mp hf i hi
  | some i =>
      exact congrArg some (h.cached i (LruCache.mem_of_find hf) (LruCache.key_of_find hf)).1

/-- A record that is stored, with a cached copy at most. -/
theorem current_of_stored (hd : s.dbGet k = some v)
    (hc : ∀ i ∈ s.cache.lru, s.keyOf i = k → s.value i = v ∧ s.mode i ≠ .delete) :
    s.Current k v :=
  ⟨fun i hi hk => ⟨(hc i hi hk).1, (hc i hi hk).2, fun _ => hd⟩, fun _ => hd⟩

/-- A new record under a key without an entry. -/
theorem current_dbPut (hn : ∀ i ∈ s.cache.lru, s.keyOf i ≠ k) (hr : (s.dbPut k v).2 = 0) :
    (s.dbPut k v).1.Current k v := by
  have hd : (s.dbPut k v).1.dbGet k = some v := by
    unfold dbPut tryCommit at hr ⊢
    split at hr
    · cases hr
    · rw [commit_put_dbGet, if_pos rfl]
    · rw [commit_put_dbGet, if_pos rfl]
  refine current_of_stored hd fun i hi hk => absurd hk ?_
  rw [keyOf_congr (dbPut_cache _ _ _)]
  exact hn i (dbPut_cache s k v ▸ hi)

/-! ## Taking a handle and giving it back -/

theorem Current.get (h : s.Current k v) (hm : m ≠ .delete) (hg : s.get k m = (s', some i)) :
    s'.Current k v ∧ s'.value i = v := by
  have hlook := h.lookup
  rw [get_lookup hg] at hlook
  have hval : s'.value i = v := Option.some.inj hlook
  refine ⟨⟨fun j hj hk => ?_, fun hn => ?_⟩, hval⟩
  · obtain rfl := get_lru_self hg hj hk
    refine ⟨hval, ?_⟩
    rw [get_dbGet hg]
    rcases get_cases hg with ⟨hf, _⟩ | ⟨hf, u, hu, _, _⟩
    · obtain ⟨_, hdel, hread⟩ := h.cached j (LruCache.mem_of_find hf) (LruCache.key_of_find hf)
      rcases get_mode hg with hmode | ⟨_, _, _, hmode⟩
      · refine ⟨hmode ▸ hm, fun hr => hread ?_⟩
        -- asked for in `INODE_READ`, the handle keeps the mode it has
        rcases get_cases hg with ⟨_, rfl⟩ | ⟨hf', _⟩
        · split at hr
          · exact hr
          · rename_i hne
            rw [setMode_mode_self] at hr
            exact absurd hr hne
        · rw [hf] at hf'
          cases hf'
      · rw [hmode]
        exact ⟨hdel, hread⟩
    · -- a handle that was not in the table comes from the store
      have hnone : ∀ l ∈ s.cache.lru, s.keyOf l ≠ k := LruCache.find_eq_none_iff.mp hf
      refine ⟨?_, fun _ => h.stored hnone⟩
      rcases get_mode hg with hmode | ⟨_, hl, hkl, _⟩
      · rwa [hmode]
      · exact absurd hkl (hnone j hl)
  · rw [get_dbGet hg]
    rcases get_cases hg with ⟨hf, hs⟩ | ⟨hf, _⟩
    · -- a handle found in the table stays there
      have hmem : i ∈ s'.cache.lru := by
        have hi := LruCache.mem_of_find hf
        rw [hs]
        split
        all_goals
          show i ∈ (s.cache.touch i hi).lru
          rw [LruCache.mem_touch_lru]
          exact hi
      exact absurd (get_keyOf hg) (hn i hmem)
    · exact h.stored (LruCache.find_eq_none_iff.mp hf)

/-- `WriteBack` takes entries out of the table at most. -/
theorem writeBack_lru {j : ℕ} (hj : j ∈ (s.writeBack i).cache.lru) : j ∈ s.cache.lru := by
  unfold Store.writeBack at hj
  split at hj
  · rw [setMode, LruCache.setVal_lru, dbPut_cache] at hj
    exact hj
  · exact (evict_keyOf _ hj).2
  · exact hj

theorem release_value (s : Store) (i j : ℕ) : (s.release i).value j = s.value j := by
  rw [Store.release, value_congr (cleanAll_cache _ _)]
  rfl

/-- Giving back a handle that has nothing pending under the key. -/
theorem Current.release (h : s.Current k v)
    (hi : i ∈ s.cache.lru ∨ s.keyOf i ≠ k ∨ s.mode i = .read) : (s.release i).Current k v := by
  have hd : (s.release i).dbGet k = s.dbGet k := by
    rcases cleanAll_dbGet { s with cache := (s.cache.release i).1 } (s.cache.release i).2 k with
      he | ⟨j, hj, hkj, he⟩
    · exact he
    · simp only [LruCache.release] at hj
      split at hj
      · rename_i hc
        obtain rfl := List.mem_singleton.mp hj
        rcases hi with hi | hi | hi
        · exact absurd hi hc.2
        · exact absurd hkj hi
        · rw [show Store.mode { s with cache := (s.cache.release j).1 } j = s.mode j from rfl,
            hi] at he
          rcases he with ⟨hw, _⟩ | ⟨hw, _⟩ <;> cases hw
      · exact absurd hj List.not_mem_nil
  constructor
  · intro j hj hk
    rw [release_lru] at hj
    rw [release_keyOf] at hk
    rw [release_value, release_mode, hd]
    exact h.cached j hj hk
  · intro hn
    rw [hd]
    refine h.stored fun j hj => ?_
    rw [← release_keyOf s i]
    exact hn j (by rwa [release_lru])

/-- An entry dropped from the table stores what it has pending. -/
theorem Current.evict (h : s.Current k v) (hf : s.dbFaults = []) (k' : MetaKey)
    (hp : ∀ i ∈ s.cache.lru, s.keyOf i = k' → s.cache.pins i = 0 ∨ s.mode i = .read) :
    (s.evict k').Current k v := by
  have hd := s.cache.erase_dropped k'
  have hkey : ∀ i, Store.keyOf { s with cache := (s.cache.erase k').1 } i = s.keyOf i :=
    fun i => congrFun hd.key i
  have hval : ∀ i, Store.value { s with cache := (s.cache.erase k').1 } i = s.value i :=
    fun i => congrArg InodeCacheHandle.value_ (congrFun hd.val i)
  have hmode : ∀ i, Store.mode { s with cache := (s.cache.erase k').1 } i = s.mode i :=
    fun i => congrArg InodeCacheHandle.mode_ (congrFun hd.val i)
  -- what was freed under `k` had the value `v`
  have hkeep : (s.evict k').dbGet k = s.dbGet k ∨ (s.evict k').dbGet k = some v := by
    rcases cleanAll_dbGet { s with cache := (s.cache.erase k').1 } (s.cache.erase k').2 k with
      he | ⟨i, hi, hik, he⟩
    · exact Or.inl he
    · obtain ⟨hil, _, _⟩ := (hd.freed i).mp hi
      rw [hkey] at hik
      obtain ⟨hv, hdel, _⟩ := h.cached i hil hik
      rw [hmode, hval] at he
      rcases he with ⟨_, he⟩ | ⟨he, _⟩
      · exact Or.inr (he.trans (congrArg some hv))
      · exact absurd he hdel
  constructor
  · intro i hi hk
    have hi' := (evict_keyOf s hi).2
    rw [evict_keyOf_eq] at hk
    obtain ⟨hv, hdel, hread⟩ := h.cached i hi' hk
    rw [evict_value, evict_mode]
    refine ⟨hv, hdel, fun hr => ?_⟩
    rcases hkeep with he | he
    · rw [he, hread hr]
    · exact he
  · intro hn
    by_cases hin : ∀ i ∈ s.cache.lru, s.keyOf i ≠ k
    · rcases hkeep with he | he
      · rw [he, h.stored hin]
      · exact he
    · -- the entry under `k` has left the table: it was the one dropped
      obtain ⟨i, hi⟩ := not_forall.mp hin
      obtain ⟨hil, hik⟩ := Classical.not_imp.mp hi
      have hik : s.keyOf i = k := not_not.mp hik
      have hout : i ∉ (s.cache.erase k').1.lru := by
        intro hmem
        refine hn i ?_ (by rw [evict_keyOf_eq, hik])
        rwa [Store.evict, cleanAll_cache]
      have hkk : s.keyOf i = k' := by
        by_contra hne
        exact hout ((LruCache.mem_erase_lru_of_ne hne).mpr hil)
      obtain ⟨hv, hdel, hread⟩ := h.cached i hil hik
      by_cases hr : s.mode i = .read
      · rcases hkeep with he | he
        · rw [he, hread hr]
        · exact he
      · have hp0 := (hp i hil hkk).resolve_right hr
        have hfind : s.cache.find k' = some i := LruCache.find_eq_some_iff.mpr ⟨hil, hkk⟩
        have herase : s.cache.erase k' = (s.cache.unlink i, [i]) := by
          rw [LruCache.erase, hfind]
          dsimp only
          rw [LruCache.freedBy, if_pos hp0]
        have hw : s.mode i = .write := by
          cases hm : s.mode i with
          | read => exact absurd hm hr
          | delete => exact absurd hm hdel
          | write => rfl
        rw [Store.evict, herase, cleanAll_cons, cleanAll_nil, cleanInodeHandle,
          show Store.mode { s with cache := s.cache.unlink i } i = .write from hw]
        dsimp only
        rw [dbPut_ok _ _ _ (show Store.dbFaults { s with cache := s.cache.unlink i } = [] from hf),
          commit_put_dbGet,
          if_pos (show Store.keyOf { s with cache := s.cache.unlink i } i = k from hik)]
        exact congrArg some hv

/-! ## Editing the record -/

/-- The value of the key's handle changes, with a store pending. -/
theorem current_write (hi : i ∈ s.cache.lru) (hk : s.keyOf i = k)
    (v' : Bytes) : ((s.setMode i .write).setValue i v').Current k v' := by
  have honly : ∀ j ∈ s.cache.lru, s.keyOf j = k → j = i := by
    intro j hj hkj
    exact LruCache.eq_of_key hj hi (hkj.trans hk.symm)
  have hm : ((s.setMode i .write).setValue i v').mode i = .write := by
    rw [setValue_mode, setMode_mode_self]
  constructor
  · intro j hj hkj
    obtain rfl := honly j hj hkj
    refine ⟨setValue_value_self _ _ _, ?_, ?_⟩
    · rw [hm]
      decide
    · intro hr
      rw [hm] at hr
      cases hr
  · intro hn
    exact absurd hk (hn i hi)

/-- A handle of the key is written back with a new value. -/
theorem current_writeBack (hk : s.keyOf i = k) (hm : s.mode i = .write) (hf : s.dbFaults = [])
    (hi : ∀ j ∈ s.cache.lru, s.keyOf j = k → j = i) (v' : Bytes) :
    ((s.setValue i v').writeBack i).Current k v' ∧
      ((s.setValue i v').writeBack i).mode i = .read := by
  have hm' : (s.setValue i v').mode i = .write := (setValue_mode ..).trans hm
  have hk' : (s.setValue i v').keyOf i = k := hk
  rw [writeBack_write hm', hk', setValue_value_self]
  have hc : ((s.setValue i v').dbPut k v').1.cache = (s.setValue i v').cache := dbPut_cache _ _ _
  refine ⟨current_of_stored ?_ fun j hj hkj => ?_, setMode_mode_self _ _ _⟩
  · show ((s.setValue i v').dbPut k v').1.dbGet k = _
    rw [dbPut_ok _ _ _ (show (s.setValue i v').dbFaults = [] from hf), commit_put_dbGet,
      if_pos rfl]
  · have hj' : j ∈ (s.setValue i v').cache.lru := hc ▸ hj
    rw [setMode_keyOf, keyOf_congr hc] at hkj
    obtain rfl := hi j hj' hkj
    refine ⟨?_, ?_⟩
    · rw [setMode_value, value_congr hc, setValue_value_self]
    · rw [setMode_mode_self]
      decide

theorem get_mode_write (hg : s.get k .write = (s', some i)) : s'.mode i = .write := by
  rcases get_mode hg with hm | ⟨hm, _⟩
  · exact hm
  · cases hm

/-- `Get`, an edit, `WriteBack` and `Release`. -/
theorem Current.edit (hf : s.dbFaults = []) (hg : s.get k .write = (s', some i)) (v' : Bytes) :
    (((s'.setValue i v').writeBack i).release i).Current k v' := by
  obtain ⟨hc, hr⟩ := current_writeBack (get_keyOf hg) (get_mode_write hg) (get_dbFaults hg hf)
    (fun j hj hkj => get_lru_self hg hj hkj) v'
  exact hc.release (Or.inr (Or.inr hr))

/-- `Release` of an open file whose handle is the key's entry. -/
theorem Current.close (h : s.Current k v) (hf : s.dbFaults = []) (hi : i ∈ s.cache.lru)
    (hk : s.keyOf i = k) {v' : Bytes} (hv : s.mode i ≠ .write → v' = v) :
    ((((s.setValue i v').writeBack i).release i).evict k).Current k v' := by
  have honly : ∀ j ∈ s.cache.lru, s.keyOf j = k → j = i := by
    intro j hj hkj
    exact LruCache.eq_of_key hj hi (hkj.trans hk.symm)
  have hback : ((s.setValue i v').writeBack i).Current k v' ∧
      ((s.setValue i v').writeBack i).mode i = .read ∧
      ((s.setValue i v').writeBack i).dbFaults = [] := by
    refine ⟨?_, ?_, writeBack_dbFaults _ _ hf⟩
    all_goals
      cases hm : s.mode i with
      | write =>
          have := current_writeBack hk hm hf honly v'
          first
            | exact this.1
            | exact this.2
      | delete => exact absurd hm (h.cached i hi hk).2.1
      | read =>
          -- nothing is pending, and the value is the one stored
          obtain rfl := hv (by rw [hm]; decide)
          have hval := (h.cached i hi hk).1
          have hself : s.setValue i v' = s := by
            rw [← hval]
            simp only [setValue, value, LruCache.setVal, Function.update_eq_self]
          rw [hself, Store.writeBack, hm]
          first
            | exact h
            | exact hm
  obtain ⟨hc, hr, hf'⟩ := hback
  have hrel := hc.release (i := i) (Or.inr (Or.inr hr))
  refine hrel.evict (release_dbFaults _ _ hf') k fun j hj hkj => Or.inr ?_
  rw [release_lru] at hj
  rw [release_keyOf, writeBack_keyOf] at hkj
  have hlru : ∀ l ∈ ((s.setValue i v').writeBack i).cache.lru, l ∈ s.cache.lru :=
    fun l hl => (writeBack_lru hl :)
  obtain rfl := honly j (hlru j hj) hkj
  rw [release_mode, hr]

/-! ## The entry of the key -/

/-- The table's entry under `k`. -/
def Entry (s : Store) (k : MetaKey) (i : ℕ) : Prop := i ∈ s.cache.lru ∧ s.keyOf i = k

theorem Current.entry_value (h : s.Current k v) (hi : s.Entry k i) : s.value i = v :=
  (h.cached i hi.1 hi.2).1

theorem Entry.congr (h : s.Entry k i) (hl : t.cache.lru = s.cache.lru)
    (hk : t.cache.key = s.cache.key) : t.Entry k i :=
  ⟨hl ▸ h.1, (congrFun hk i).trans h.2⟩

/-- `Get` finds the entry. -/
theorem Entry.get (h : s.Entry k i) {j : ℕ} (hg : s.get k m = (s', some j)) :
    j = i ∧ s'.Entry k i := by
  rcases get_cases hg with ⟨hf, hs⟩ | ⟨hf, _⟩
  · obtain rfl : j = i :=
      LruCache.eq_of_key (LruCache.mem_of_find hf) h.1 ((LruCache.key_of_find hf).trans h.2.symm)
    refine ⟨rfl, ?_, get_keyOf hg⟩
    rw [hs]
    split
    all_goals
      show j ∈ (s.cache.touch j (LruCache.mem_of_find hf)).lru
      rw [LruCache.mem_touch_lru]
      exact h.1
  · exact absurd h.2 (LruCache.find_eq_none_iff.mp hf i h.1)

/-- With nothing pinned, the handle `Get` returns is the entry. -/
theorem get_entry (hp : ∀ j, s.cache.pins j = 0) (hg : s.get k m = (s', some i)) :
    s'.Entry k i := by
  rcases get_cases hg with ⟨hf, _⟩ | ⟨hf, u, _, rfl, rfl⟩
  · exact (Entry.get ⟨LruCache.mem_of_find hf, LruCache.key_of_find hf⟩ hg).2
  · refine ⟨?_, get_keyOf hg⟩
    rw [insertHandle, cleanAll_cache]
    exact LruCache.next_mem_insert cacheShard shardCapacity (by decide) _ _ _ hp

theorem Entry.release (h : s.Entry k i) (j : ℕ) : (s.release j).Entry k i :=
  ⟨by rw [release_lru]; exact h.1, by rw [release_keyOf]; exact h.2⟩

theorem Entry.writeBack (h : s.Entry k i) {j : ℕ} (hm : s.mode j ≠ .delete) :
    (s.writeBack j).Entry k i := by
  refine ⟨?_, by rw [writeBack_keyOf]; exact h.2⟩
  unfold Store.writeBack
  split
  · rw [setMode, LruCache.setVal_lru, dbPut_cache]
    exact h.1
  · rename_i hd
    exact absurd hd hm
  · exact h.1

theorem Entry.evict (h : s.Entry k i) {k' : MetaKey} (hne : k' ≠ k) : (s.evict k').Entry k i := by
  refine ⟨?_, by rw [evict_keyOf_eq]; exact h.2⟩
  rw [Store.evict, cleanAll_cache]
  exact (LruCache.mem_erase_lru_of_ne fun hk => hne (hk.symm.trans h.2)).mpr h.1

end Store

end Tablefs
