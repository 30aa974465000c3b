/-
The inode cache against the metadata store.

`Store.Table R X` says that every entry of the cache's table, those in `X` apart,
has a record under its key to which its value stands in the relation `R`, and no
pending delete. With equality for `R` the table is a copy of the store; with
"same inode number" it agrees with the dentry cache.

An operation on a key can change that key's entries and its record at will, and
it can push entries under other keys out of the table, whose pending stores are
then carried out. `Store.Around K R` is what remains of a store when only the
keys in `K` are worked on: the entries under other keys are among the old ones
and unchanged, and the other records are unchanged up to `R`. So the table is
coherent off `K`, and what an operation must show is what it leaves under `K`.
-/
import Tablefs.Records

set_option autoImplicit false

namespace Tablefs

open ByteString

namespace Store

/-! ## A coherent table -/

/-- What coherence asks of one entry. -/
structure Matches (R : Bytes → Bytes → Prop) (s : Store) (i : ℕ) : Prop where
  mode : s.mode i ≠ .delete
  record : ∃ u, s.dbGet (s.keyOf i) = some u ∧ R (s.value i) u

/-- Every entry of the table outside `X` matches its record. -/
def Table (R : Bytes → Bytes → Prop) (X : MetaKey → ℕ → Prop) (s : Store) : Prop :=
  ∀ i ∈ s.cache.lru, ¬ X (s.keyOf i) i → s.Matches R i

/-- `t` is `s` after work on the keys in `K`. -/
structure Around (K : MetaKey → Prop) (R : Bytes → Bytes → Prop) (s t : Store) : Prop where
  entry : ∀ i ∈ t.cache.lru, ¬ K (t.keyOf i) → i ∈ s.cache.lru ∧ t.keyOf i = s.keyOf i ∧
    t.value i = s.value i ∧ t.mode i = s.mode i ∧ t.dbGet (s.keyOf i) = s.dbGet (s.keyOf i)
  near : ∀ k, ¬ K k → t.dbGet k = s.dbGet k ∨
    ∃ u v, s.dbGet k = some u ∧ t.dbGet k = some v ∧ R v u

variable {R : Bytes → Bytes → Prop} {X : MetaKey → ℕ → Prop} {K : MetaKey → Prop}
  {s t u : Store}

theorem Table.mono {X' : MetaKey → ℕ → Prop} (h : s.Table R X) (hX : ∀ k i, X k i → X' k i) :
    s.Table R X' := fun i hi hn => h i hi fun hx => hn (hX _ _ hx)

theorem Table.congr (h : s.Table R X) (hm : t.metadb = s.metadb) (hc : t.cache = s.cache) :
    t.Table R X := by
  intro i hi hn
  rw [keyOf_congr hc] at hn
  obtain ⟨hmode, u, hu, hr⟩ := h i (hc ▸ hi) hn
  refine ⟨by rwa [mode_congr hc], u, ?_, by rwa [value_congr hc]⟩
  rw [keyOf_congr hc, dbGet, hm]
  exact hu

theorem Around.refl (s : Store) : s.Around K R s :=
  ⟨fun _ hi _ => ⟨hi, rfl, rfl, rfl, rfl⟩, fun _ _ => Or.inl rfl⟩

theorem Around.trans (hR : Equivalence R) (h : s.Around K R t) (h' : t.Around K R u) :
    s.Around K R u where
  entry := fun i hi hn => by
    obtain ⟨hi', hk', hv', hm', hd'⟩ := h'.entry i hi hn
    rw [hk'] at hn
    obtain ⟨hi'', hk, hv, hm, hd⟩ := h.entry i hi' hn
    rw [hk] at hd'
    exact ⟨hi'', hk'.trans hk, hv'.trans hv, hm'.trans hm, hd'.trans hd⟩
  near := fun k hk => by
    rcases h.near k hk with h1 | ⟨a, b, ha, hb, hr⟩
    · rw [← h1]; exact h'.near k hk
    · rcases h'.near k hk with h2 | ⟨b', c, hb', hc, hr'⟩
      · exact Or.inr ⟨a, b, ha, by rw [h2, hb], hr⟩
      · rw [hb] at hb'
        rw [← Option.some.inj hb'] at hr'
        exact Or.inr ⟨a, c, ha, hc, hR.trans hr' hr⟩

theorem Around.mono {K' : MetaKey → Prop} (h : s.Around K R t) (hK : ∀ k, K k → K' k) :
    s.Around K' R t :=
  ⟨fun i hi hn => h.entry i hi fun hk => hn (hK _ hk), fun k hn => h.near k fun hk => hn (hK _ hk)⟩

/-- Off the keys that were worked on, the table is as coherent as it was. -/
theorem Around.table_off (h : s.Around K R t) (hs : s.Table R X) :
    t.Table R fun k i => X k i ∨ K k := by
  intro i hi hn
  rw [not_or] at hn
  obtain ⟨hi', hk, hv, hm, hd⟩ := h.entry i hi hn.2
  obtain ⟨hmode, u, hu, hr⟩ := hs i hi' (hk ▸ hn.1)
  exact ⟨by rwa [hm], u, by rw [hk, hd, hu], by rwa [hv]⟩

/-- A table that is coherent off the keys that were worked on stays so. -/
theorem Around.table_off_of_off (h : s.Around K R t) (hs : s.Table R fun k i => X k i ∨ K k) :
    t.Table R fun k i => X k i ∨ K k :=
  (h.table_off hs).mono fun _ _ hx => hx.elim id Or.inr

/-- The table is coherent off `K`, and so are its entries under `K`. -/
theorem Table.of_off (h : s.Table R fun k i => X k i ∨ K k)
    (hK : ∀ i ∈ s.cache.lru, K (s.keyOf i) → ¬ X (s.keyOf i) i → s.Matches R i) :
    s.Table R X := by
  intro i hi hn
  by_cases hk : K (s.keyOf i)
  · exact hK i hi hk hn
  · exact h i hi fun hx => hx.elim hn hk

/-! ## Work on a key -/

/-- A handle under a key in `K` is changed in place. -/
theorem around_setVal (s : Store) {i : ℕ} (hK : K (s.keyOf i)) (v : InodeCacheHandle) :
    s.Around K R { s with cache := s.cache.setVal i v } where
  entry := fun j hj hn => by
    have hji : j ≠ i := by
      rintro rfl
      exact hn hK
    refine ⟨hj, rfl, ?_, ?_, rfl⟩
    · simp only [value, LruCache.setVal_val, Function.update_of_ne hji]
    · simp only [mode, LruCache.setVal_val, Function.update_of_ne hji]
  near := fun _ _ => Or.inl rfl

theorem around_setMode (s : Store) {i : ℕ} (hK : K (s.keyOf i)) (m : InodeAccessMode) :
    s.Around K R (s.setMode i m) := around_setVal s hK _

theorem around_setValue (s : Store) {i : ℕ} (hK : K (s.keyOf i)) (v : Bytes) :
    s.Around K R (s.setValue i v) := around_setVal s hK _

/-- The records under keys off `K` stay, and the cache does. -/
theorem around_of_dbGet (hc : t.cache = s.cache) (hd : ∀ k, ¬ K k → t.dbGet k = s.dbGet k) :
    s.Around K R t where
  entry := fun i hi hn => by
    rw [keyOf_congr hc] at hn
    exact ⟨hc ▸ hi, keyOf_congr hc i, value_congr hc i, mode_congr hc i, hd _ hn⟩
  near := fun k hk => Or.inl (hd k hk)

theorem around_dbPut (s : Store) {k : MetaKey} (hK : K k) (v : Bytes) :
    s.Around K R (s.dbPut k v).1 := by
  refine around_of_dbGet (dbPut_cache s k v) fun k' hk' => ?_
  rcases s.dbPut_dbGet k k' v with h | ⟨rfl, _⟩
  · exact h
  · exact absurd hK hk'

theorem around_dbDelete (s : Store) {k : MetaKey} (hK : K k) : s.Around K R (s.dbDelete k) := by
  refine around_of_dbGet (dbDelete_cache s k) fun k' hk' => ?_
  rw [dbDelete_dbGet]
  exact if_neg fun h : k = k' => hk' (h ▸ hK)

/-- Handles under keys in `K` are cleaned. -/
theorem around_cleanAll (s : Store) {freed : List ℕ} (hK : ∀ i ∈ freed, K (s.keyOf i)) :
    s.Around K R (s.cleanAll freed) := by
  refine around_of_dbGet (cleanAll_cache s freed) fun k hk => ?_
  rcases s.cleanAll_dbGet freed k with h | ⟨i, hi, rfl, _⟩
  · exact h
  · exact absurd (hK i hi) hk

/-- The table loses entries, references change. -/
theorem around_cache (s : Store) (c' : LruCache MetaKey InodeCacheHandle)
    (hk : c'.key = s.cache.key) (hv : c'.val = s.cache.val)
    (hl : ∀ i ∈ c'.lru, i ∈ s.cache.lru) : s.Around K R { s with cache := c' } where
  entry := fun i hi _ => ⟨hl i hi, congrFun hk i, congrArg InodeCacheHandle.value_ (congrFun hv i),
    congrArg InodeCacheHandle.mode_ (congrFun hv i), rfl⟩
  near := fun _ _ => Or.inl rfl

theorem around_release (hR : Equivalence R) (s : Store) {i : ℕ} (hK : K (s.keyOf i)) :
    s.Around K R (s.release i) := by
  refine (around_cache s (s.cache.release i).1 rfl rfl fun _ h => h).trans hR
    (around_cleanAll { s with cache := (s.cache.release i).1 } fun j hj => ?_)
  simp only [LruCache.release] at hj
  split at hj
  · rw [List.mem_singleton.mp hj]; exact hK
  · exact absurd hj List.not_mem_nil

theorem around_evict (hR : Equivalence R) (s : Store) {k : MetaKey} (hK : K k) :
    s.Around K R (s.evict k) := by
  have hd := s.cache.erase_dropped k
  refine (around_cache s _ hd.key hd.val hd.lru).trans hR
    (around_cleanAll { s with cache := (s.cache.erase k).1 } fun j hj => ?_)
  -- what `Erase` takes out of the table is the entry under `k`
  obtain ⟨hjl, hjn, _⟩ := (hd.freed j).mp hj
  have hkey : s.cache.key j = k := by
    by_contra hne
    exact hjn ((LruCache.mem_erase_lru_of_ne hne).mpr hjl)
  rw [keyOf, show (s.cache.erase k).1.key j = s.cache.key j from congrFun hd.key j, hkey]
  exact hK

theorem around_writeBack (hR : Equivalence R) (s : Store) {i : ℕ} (hK : K (s.keyOf i)) :
    s.Around K R (s.writeBack i) := by
  unfold writeBack
  split
  · refine (around_dbPut s hK (s.value i)).trans hR (around_setMode _ ?_ .read)
    rw [keyOf_congr (dbPut_cache _ _ _)]
    exact hK
  · exact (around_dbDelete s hK).trans hR (around_evict hR _ hK)
  · exact Around.refl s

/-- After `Evict(k)` the table has no entry under `k`. -/
theorem evict_keyOf (s : Store) {k : MetaKey} {i : ℕ} (hi : i ∈ (s.evict k).cache.lru) :
    (s.evict k).keyOf i ≠ k ∧ i ∈ s.cache.lru := by
  have hd := s.cache.erase_dropped k
  have hc : (s.evict k).cache = (s.cache.erase k).1 := by rw [evict, cleanAll_cache]
  rw [hc] at hi
  refine ⟨fun hk => ?_, hd.lru i hi⟩
  have hk' : (s.cache.erase k).1.key i = k := hc ▸ hk
  exact LruCache.find_eq_none_iff.mp (s.cache.find_erase_self k) i hi hk'

/-! ### Insert and Get -/

/-- A new handle is put under a key in `K`. What the shard's capacity pushes out of
the table under another key was coherent, so storing it changes its record up to
`R` only. -/
theorem around_insertHandle (s : Store) {k : MetaKey} (hK : K k) (v : Bytes)
    (m : InodeAccessMode) (hs : s.Table R fun k i => X k i ∨ K k)
    (hX : ∀ k i, X k i → 0 < s.cache.pins i) : s.Around K R (s.insertHandle k v m).1 := by
  obtain ⟨c', freed, hins, he⟩ := s.insertHandle_spec k v m
  have hold : ∀ i ∈ s.cache.lru, c'.key i = s.cache.key i ∧ c'.val i = s.cache.val i :=
    fun i hi => by
      have := s.cache.lt_next i hi
      rw [hins.key, hins.val, Function.update_of_ne (by omega), Function.update_of_ne (by omega)]
      exact ⟨rfl, rfl⟩
  -- a freed entry off `K` was in the table, unpinned, so it matched its record
  have hfreed : ∀ i ∈ freed, i ∈ s.cache.lru ∧ i ∉ c'.lru ∧
      (¬ K (s.keyOf i) → s.Matches R i) := fun i hi => by
    obtain ⟨hil, hin, hp⟩ := (hins.freed i).mp hi
    refine ⟨hil, hin, fun hk => hs i hil fun hx => hx.elim (fun hx => ?_) hk⟩
    have := hX _ _ hx
    omega
  rw [he]
  refine ⟨fun i hi hn => ?_, fun k' hk' => ?_⟩
  · rw [cleanAll_cache] at hi
    rw [keyOf_congr (cleanAll_cache _ _)] at hn
    rcases hins.lru i hi with rfl | ⟨hil, _⟩
    · refine absurd ?_ hn
      rw [show Store.keyOf { s with cache := c' } s.cache.next = c'.key s.cache.next from rfl,
        hins.key, Function.update_self]
      exact hK
    · obtain ⟨hki, hvi⟩ := hold i hil
      refine ⟨hil, ?_, ?_, ?_, ?_⟩
      · rw [keyOf_congr (cleanAll_cache _ _)]; exact hki
      · rw [value_congr (cleanAll_cache _ _)]; exact congrArg InodeCacheHandle.value_ hvi
      · rw [mode_congr (cleanAll_cache _ _)]; exact congrArg InodeCacheHandle.mode_ hvi
      · rcases cleanAll_dbGet { s with cache := c' } freed (s.keyOf i) with h | ⟨j, hj, hkj, _⟩
        · exact h
        · -- a freed entry with the key of one still in the table would be that entry
          obtain ⟨hjl, hjn, _⟩ := hfreed j hj
          have hkj' : c'.key j = s.cache.key i := hkj
          rw [(hold j hjl).1] at hkj'
          exact absurd (LruCache.eq_of_key hjl hil hkj' ▸ hi) hjn
  · rcases cleanAll_dbGet { s with cache := c' } freed k' with h | ⟨i, hi, hki, h⟩
    · exact Or.inl h
    · obtain ⟨hil, _, hm⟩ := hfreed i hi
      obtain ⟨hki', hvi⟩ := hold i hil
      have hkey : s.keyOf i = k' := hki'.symm.trans hki
      obtain ⟨hmode, u, hu, hr⟩ := hm (hkey ▸ hk')
      have hmi : Store.mode { s with cache := c' } i = s.mode i :=
        congrArg InodeCacheHandle.mode_ hvi
      rcases h with ⟨_, h⟩ | ⟨hdel, _⟩
      · refine Or.inr ⟨u, s.value i, hkey ▸ hu, ?_, hr⟩
        rw [h]
        exact congrArg (some ∘ InodeCacheHandle.value_) hvi
      · exact absurd (hmi ▸ hdel) hmode

/-- What `insertHandle` leaves of the table under the key: the new entry at most. -/
theorem insertHandle_lru (s : Store) (k : MetaKey) (v : Bytes) (m : InodeAccessMode) {i : ℕ}
    (hi : i ∈ (s.insertHandle k v m).1.cache.lru) :
    i = s.cache.next ∨ i ∈ s.cache.lru ∧ s.keyOf i ≠ k ∧
      (s.insertHandle k v m).1.keyOf i = s.keyOf i := by
  obtain ⟨c', freed, hins, he⟩ := s.insertHandle_spec k v m
  rw [he, cleanAll_cache] at hi
  rcases hins.lru i hi with h | ⟨hil, hk⟩
  · exact Or.inl h
  · refine Or.inr ⟨hil, hk, ?_⟩
    have := s.cache.lt_next i hil
    rw [he, keyOf_congr (cleanAll_cache _ _)]
    show c'.key i = _
    rw [hins.key, Function.update_of_ne (by omega)]
    rfl

/-- The new handle. -/
theorem insertHandle_next (s : Store) (k : MetaKey) (v : Bytes) (m : InodeAccessMode) :
    (s.insertHandle k v m).1.keyOf s.cache.next = k ∧
      (s.insertHandle k v m).1.value s.cache.next = v ∧
      (s.insertHandle k v m).1.mode s.cache.next = m := by
  obtain ⟨c', freed, hins, he⟩ := s.insertHandle_spec k v m
  rw [he, keyOf_congr (cleanAll_cache _ _), value_congr (cleanAll_cache _ _),
    mode_congr (cleanAll_cache _ _)]
  refine ⟨?_, ?_, ?_⟩
  · show c'.key _ = _
    rw [hins.key, Function.update_self]
  · show (c'.val _).value_ = _
    rw [hins.val, Function.update_self]
  · show (c'.val _).mode_ = _
    rw [hins.val, Function.update_self]

theorem around_get (hR : Equivalence R) {s s' : Store} {k : MetaKey} {m : InodeAccessMode}
    {i : ℕ} (hg : s.get k m = (s', some i)) (hK : K k)
    (hs : s.Table R fun k i => X k i ∨ K k) (hX : ∀ k i, X k i → 0 < s.cache.pins i) :
    s.Around K R s' := by
  rcases get_cases hg with ⟨hf, rfl⟩ | ⟨_, v, _, rfl, rfl⟩
  · have ht : s.Around K R { s with cache := s.cache.touch i (LruCache.mem_of_find hf) } :=
      around_cache s _ rfl rfl fun j hj => LruCache.mem_touch_lru.mp hj
    split
    · exact ht
    · refine ht.trans hR (around_setMode _ ?_ m)
      show K (s.cache.key i)
      rw [LruCache.key_of_find hf]
      exact hK
  · exact around_insertHandle s hK v m hs hX

/-! ## Writes that succeed -/

theorem cleanAll_dbFaults (s : Store) (freed : List ℕ) (hf : s.dbFaults = []) :
    (s.cleanAll freed).dbFaults = [] := by
  refine cleanAll_induct (P := fun t => t.dbFaults = []) hf fun t _ ht i _ => ?_
  unfold cleanInodeHandle
  split
  · rw [dbPut_ok _ _ _ ht]; exact ht
  · exact ht
  · exact ht

theorem insertHandle_dbFaults (s : Store) (k : MetaKey) (v : Bytes) (m : InodeAccessMode)
    (hf : s.dbFaults = []) : (s.insertHandle k v m).1.dbFaults = [] := by
  rw [insertHandle]
  exact cleanAll_dbFaults _ _ hf

theorem release_dbFaults (s : Store) (i : ℕ) (hf : s.dbFaults = []) :
    (s.release i).dbFaults = [] := cleanAll_dbFaults _ _ hf

theorem evict_dbFaults (s : Store) (k : MetaKey) (hf : s.dbFaults = []) :
    (s.evict k).dbFaults = [] := cleanAll_dbFaults _ _ hf

theorem writeBack_dbFaults (s : Store) (i : ℕ) (hf : s.dbFaults = []) :
    (s.writeBack i).dbFaults = [] := by
  unfold writeBack
  split
  · rw [dbPut_ok _ _ _ hf]; exact hf
  · exact evict_dbFaults _ _ hf
  · exact hf

theorem get_dbFaults {s s' : Store} {k : MetaKey} {m : InodeAccessMode} {i : ℕ}
    (hg : s.get k m = (s', some i)) (hf : s.dbFaults = []) : s'.dbFaults = [] := by
  rcases get_cases hg with ⟨_, rfl⟩ | ⟨_, v, _, rfl, rfl⟩
  · split <;> exact hf
  · exact insertHandle_dbFaults s k v m hf

/-! ## The table after an operation -/

/-- What `Get` leaves of the table under its key is the handle it returns. -/
theorem get_lru_self {s s' : Store} {k : MetaKey} {m : InodeAccessMode} {i : ℕ}
    (hg : s.get k m = (s', some i)) {j : ℕ} (hj : j ∈ s'.cache.lru) (hk : s'.keyOf j = k) :
    j = i := by
  rcases get_cases hg with ⟨hf, rfl⟩ | ⟨_, v, _, rfl, rfl⟩
  · have hmem := LruCache.mem_of_find hf
    have hj' : j ∈ (s.cache.touch i hmem).lru ∧ s.cache.key j = k := by
      split at hj <;> split at hk <;> exact ⟨hj, hk⟩
    rw [LruCache.mem_touch_lru] at hj'
    exact LruCache.eq_of_key hj'.1 (LruCache.mem_of_find hf)
      (hj'.2.trans (LruCache.key_of_find hf).symm)
  · rcases insertHandle_lru s k v m hj with h | ⟨_, hne, hkey⟩
    · exact h
    · exact absurd (hkey.symm.trans hk) hne

/-- The handle `Get` returns is in the mode it was asked for, or, if that was
`INODE_READ`, in the one it had or in `INODE_READ`. -/
theorem get_mode {s s' : Store} {k : MetaKey} {m : InodeAccessMode} {i : ℕ}
    (hg : s.get k m = (s', some i)) :
    s'.mode i = m ∨ m = .read ∧ i ∈ s.cache.lru ∧ s.keyOf i = k ∧ s'.mode i = s.mode i := by
  rcases get_cases hg with ⟨hf, rfl⟩ | ⟨_, v, _, rfl, rfl⟩
  · by_cases hm : m = .read
    · rw [if_pos hm]
      exact Or.inr ⟨hm, LruCache.mem_of_find hf, LruCache.key_of_find hf, rfl⟩
    · rw [if_neg hm]
      refine Or.inl ?_
      simp only [mode, setMode, LruCache.setVal_val, Function.update_self]
  · exact Or.inl (insertHandle_next s k v m).2.2

/-- A new handle under a key that had no entry leaves the key's record alone. -/
theorem insertHandle_dbGet (s : Store) {k : MetaKey} (v : Bytes) (m : InodeAccessMode)
    (hf : s.cache.find k = none) : (s.insertHandle k v m).1.dbGet k = s.dbGet k := by
  obtain ⟨c', freed, hins, he⟩ := s.insertHandle_spec k v m
  rw [he]
  rcases cleanAll_dbGet { s with cache := c' } freed k with h | ⟨i, hi, hki, _⟩
  · exact h
  · obtain ⟨hil, _, _⟩ := (hins.freed i).mp hi
    have := s.cache.lt_next i hil
    have hki' : c'.key i = k := hki
    rw [hins.key, Function.update_of_ne (by omega)] at hki'
    exact absurd hki' (LruCache.find_eq_none_iff.mp hf i hil)

/-- `Get` leaves its key's record alone. -/
theorem get_dbGet {s s' : Store} {k : MetaKey} {m : InodeAccessMode} {i : ℕ}
    (hg : s.get k m = (s', some i)) : s'.dbGet k = s.dbGet k := by
  rcases get_cases hg with ⟨_, rfl⟩ | ⟨hf, v, _, rfl, rfl⟩
  · split <;> rfl
  · exact insertHandle_dbGet s v m hf

/-- The handle that `Get` for reading or writing returns matches its record. -/
theorem Table.get_matches (hR : Equivalence R) (h : s.Table R X) {s' : Store} {k : MetaKey}
    {m : InodeAccessMode} {i : ℕ} (hg : s.get k m = (s', some i)) (hm : m ≠ .delete)
    (hn : ¬ X k i) : s'.Matches R i := by
  have hk := get_keyOf hg
  have hmode : s'.mode i ≠ .delete := by
    rcases get_mode hg with hmode | ⟨_, hil, hki, hmode⟩
    · rwa [hmode]
    · rw [hmode]
      exact (h i hil (by rwa [hki])).mode
  have hdb : s'.dbGet (s'.keyOf i) = s.dbGet k := by rw [hk, get_dbGet hg]
  have hval := get_lookup hg
  rw [lookup] at hval
  refine ⟨hmode, ?_⟩
  rw [hdb]
  split at hval
  · rename_i j hf
    have hkey : s.keyOf j = k := LruCache.key_of_find hf
    rcases get_cases hg with ⟨hf', _⟩ | ⟨hf', _⟩
    · rw [hf] at hf'
      obtain rfl := Option.some.inj hf'
      obtain ⟨u, hu, hr⟩ := (h j (LruCache.mem_of_find hf) (by rwa [hkey])).record
      rw [hkey] at hu
      exact ⟨u, hu, Option.some.inj hval ▸ hr⟩
    · rw [hf] at hf'
      exact absurd hf' (by simp)
  · exact ⟨_, hval, hR.refl _⟩

/-- `Get` for reading or writing keeps the table coherent. -/
theorem Table.get (hR : Equivalence R) (h : s.Table R X) (hX : ∀ k i, X k i → 0 < s.cache.pins i)
    {s' : Store} {k : MetaKey} {m : InodeAccessMode} {i : ℕ} (hg : s.get k m = (s', some i))
    (hm : m ≠ .delete) : s'.Table R X := by
  have hoff : s.Table R fun j i => X j i ∨ j = k := h.mono fun _ _ => Or.inl
  refine ((around_get (K := fun j => j = k) hR hg rfl hoff hX).table_off h).of_off
    fun j hj hk hn => ?_
  obtain rfl := get_lru_self hg hj hk
  exact h.get_matches hR hg hm (hk ▸ hn)

/-- Giving back `i` would store or delete nothing that an entry of the table says
otherwise about. -/
def FreesSafely (R : Bytes → Bytes → Prop) (X : MetaKey → ℕ → Prop) (s : Store) (i : ℕ) : Prop :=
  s.cache.pins i = 1 → i ∉ s.cache.lru → ∀ j ∈ s.cache.lru, s.keyOf j = s.keyOf i →
    ¬ X (s.keyOf j) j → s.mode i ≠ .delete ∧ (s.mode i = .write → R (s.value j) (s.value i))

/-- No other entry of the table has the key of `i`. -/
theorem freesSafely_of_lru {i : ℕ} (h : ∀ j ∈ s.cache.lru, s.keyOf j = s.keyOf i → j = i) :
    s.FreesSafely R X i := fun _ hi j hj hk => absurd (h j hj hk ▸ hj) hi

theorem Table.release (h : s.Table R X) {i : ℕ} (hs : s.FreesSafely R X i) :
    (s.release i).Table R X := by
  obtain hfreed | ⟨hp, hi, hfreed⟩ : (s.cache.release i).2 = [] ∨
      s.cache.pins i = 1 ∧ i ∉ s.cache.lru ∧ (s.cache.release i).2 = [i] := by
    simp only [LruCache.release]
    split
    · rename_i hc; exact Or.inr ⟨hc.1, hc.2, rfl⟩
    · exact Or.inl rfl
  · have he : s.release i = { s with cache := (s.cache.release i).1 } := by
      rw [Store.release, hfreed, cleanAll_nil]
    rw [he]
    exact fun j hj hn => ⟨(h j hj hn).mode, (h j hj hn).record⟩
  · have he : s.release i
        = Store.cleanInodeHandle { s with cache := (s.cache.release i).1 } i := by
      rw [Store.release, hfreed]; rfl
    have hc : (s.release i).cache = (s.cache.release i).1 := by rw [he, cleanInodeHandle_cache]
    intro j hj hn
    rw [keyOf_congr (t := s.release i) (s := { s with cache := (s.cache.release i).1 }) hc] at hn
    have hj' : j ∈ s.cache.lru := by rw [hc] at hj; exact hj
    obtain ⟨hmode, u, hu, hr⟩ := h j hj' hn
    have hkey : (s.release i).keyOf j = s.keyOf j := by
      rw [keyOf, hc]; rfl
    have hval : (s.release i).value j = s.value j := by
      rw [value, hc]; rfl
    refine ⟨?_, ?_⟩
    · rw [mode, hc]; exact hmode
    · rw [hkey, hval, he]
      rcases cleanInodeHandle_dbGet { s with cache := (s.cache.release i).1 } i (s.keyOf j) with
        hdb | ⟨hki, hdb⟩
      · rw [hdb]; exact ⟨u, hu, hr⟩
      · obtain ⟨hdel, hwr⟩ := hs hp hi j hj' hki.symm hn
        rcases hdb with ⟨hm, hdb⟩ | ⟨hm, _⟩
        · exact ⟨_, hdb, hwr hm⟩
        · exact absurd hm hdel

/-- `Evict` keeps the table coherent. -/
theorem Table.evict (hR : Equivalence R) (h : s.Table R X) (k : MetaKey) :
    (s.evict k).Table R X :=
  ((around_evict (K := fun j => j = k) hR s rfl).table_off h).of_off
    fun _ hi hk _ => absurd hk (evict_keyOf s hi).1

/-- Work on a key after which its entry is dropped. -/
theorem Table.evict_around (hR : Equivalence R) (h : s.Table R X) {k : MetaKey}
    (ha : s.Around (fun j => j = k) R t) : (t.evict k).Table R X :=
  ((ha.trans hR (around_evict hR t rfl)).table_off h).of_off
    fun _ hi hk _ => absurd hk (evict_keyOf t hi).1

/-- A record is stored under a key that has none. -/
theorem Table.dbPut_new (h : s.Table R X) {k : MetaKey} (hk : s.dbGet k = none) (v : Bytes) :
    (s.dbPut k v).1.Table R X := by
  refine ((around_dbPut (K := fun j => j = k) s rfl v).table_off h).of_off fun i hi hik hn => ?_
  rw [keyOf_congr (dbPut_cache s k v)] at hik hn
  rw [dbPut_cache] at hi
  obtain ⟨u, hu, _⟩ := (h i hi hn).record
  rw [hik, hk] at hu
  exact absurd hu (by simp)

theorem writeBack_write {i : ℕ} (hm : s.mode i = .write) :
    s.writeBack i = (s.dbPut (s.keyOf i) (s.value i)).1.setMode i .read := by
  rw [writeBack, hm]

/-- A record gets a new value: a handle is taken, edited, written back and given
back. If the write fails the record keeps its old value. -/
theorem Table.edit (hR : Equivalence R) (h : s.Table R X)
    (hX : ∀ k i, X k i → 0 < s.cache.pins i) {s' : Store} {k : MetaKey} {i : ℕ}
    (hg : s.get k .write = (s', some i)) {v : Bytes}
    (hv : s.dbFaults = [] ∨ R v (s'.value i)) :
    (((s'.setValue i v).writeBack i).release i).Table R X := by
  have h' := h.get hR hX hg (by decide)
  have hki := get_keyOf hg
  have hmode : s'.mode i = .write := by
    rcases get_mode hg with hm | ⟨hm, _⟩
    · exact hm
    · exact absurd hm (by decide)
  have hw : (s'.setValue i v).writeBack i
      = ((s'.setValue i v).dbPut k v).1.setMode i .read := by
    rw [writeBack_write (by rw [setValue_mode, hmode]), setValue_keyOf, setValue_value_self, hki]
  have hc : ((s'.setValue i v).dbPut k v).1.cache = (s'.setValue i v).cache := dbPut_cache _ _ _
  have hlru : ∀ j ∈ ((s'.setValue i v).writeBack i).cache.lru,
      ((s'.setValue i v).writeBack i).keyOf j = k → j = i := fun j hj hk => by
    rw [hw, setMode_keyOf, keyOf_congr hc] at hk
    rw [hw] at hj
    have hj' : j ∈ ((s'.setValue i v).dbPut k v).1.cache.lru := hj
    rw [hc] at hj'
    exact get_lru_self hg hj' hk
  have hself : ((s'.setValue i v).writeBack i).keyOf i = k := by
    rw [hw, setMode_keyOf, keyOf_congr hc, setValue_keyOf, hki]
  have ht : ((s'.setValue i v).writeBack i).Table R X := by
    have ha : s'.Around (fun j => j = k) R ((s'.setValue i v).writeBack i) :=
      (around_setValue s' hki v).trans hR (around_writeBack hR _ hki)
    refine (ha.table_off h').of_off fun j hj hk hn => ?_
    obtain rfl := hlru j hj hk
    have hj' : j ∈ s'.cache.lru := by
      rw [hw] at hj
      have hj' : j ∈ ((s'.setValue j v).dbPut k v).1.cache.lru := hj
      rwa [hc] at hj'
    rw [hself] at hn
    obtain ⟨_, u, hu, hr⟩ := h' j hj' (by rwa [hki])
    rw [hki] at hu
    refine ⟨by rw [hw, setMode_mode_self]; decide, ?_⟩
    rw [hself, hw, setMode_value, value_congr hc, setValue_value_self]
    rcases hv with hf | hv
    · refine ⟨v, ?_, hR.refl v⟩
      show (((s'.setValue j v).dbPut k v).1).dbGet k = some v
      have hf' : (s'.setValue j v).dbFaults = [] := (get_dbFaults hg hf :)
      rw [dbPut_ok _ _ _ hf', commit_put_dbGet, if_pos rfl]
    · rcases (s'.setValue j v).dbPut_dbGet k k v with hd | ⟨_, hd⟩
      · exact ⟨u, hd.trans hu, hR.trans hv hr⟩
      · exact ⟨v, hd, hR.refl v⟩
  exact ht.release (freesSafely_of_lru fun j hj hk => hlru j hj (hk.trans hself))

/-! ## What happens to the records -/

/-- The records of `t` are those of `s`, up to `R`. -/
def Near (R : Bytes → Bytes → Prop) (s t : Store) : Prop :=
  ∀ k, t.dbGet k = s.dbGet k ∨ ∃ u v, s.dbGet k = some u ∧ t.dbGet k = some v ∧ R v u

theorem Near.of_eq (h : ∀ k, t.dbGet k = s.dbGet k) : s.Near R t := fun k => Or.inl (h k)

theorem Near.trans (hR : Equivalence R) (h : s.Near R t) (h' : t.Near R u) : s.Near R u := by
  intro k
  rcases h' k with h2 | ⟨a, b, ha, hb, hr⟩
  · rw [h2]; exact h k
  · rcases h k with h1 | ⟨a', b', ha', hb', hr'⟩
    · exact Or.inr ⟨a, b, h1 ▸ ha, hb, hr⟩
    · rw [hb'] at ha
      rw [← Option.some.inj ha] at hr
      exact Or.inr ⟨a', b, ha', hb, hR.trans hr hr'⟩

/-- Off the keys that were worked on and on them. -/
theorem Around.near_of (h : s.Around K R t)
    (hK : ∀ k, K k → t.dbGet k = s.dbGet k ∨
      ∃ u v, s.dbGet k = some u ∧ t.dbGet k = some v ∧ R v u) : s.Near R t := fun k => by
  by_cases hk : K k
  · exact hK k hk
  · exact h.near k hk

/-- What is pending in a handle agrees with its record, if anything is. -/
structure Agrees (R : Bytes → Bytes → Prop) (s : Store) (i : ℕ) : Prop where
  mode : s.mode i ≠ .delete
  record : s.mode i = .write → ∃ u, s.dbGet (s.keyOf i) = some u ∧ R (s.value i) u

theorem Matches.agrees {i : ℕ} (h : s.Matches R i) : s.Agrees R i := ⟨h.mode, fun _ => h.record⟩

/-- Cleaning handles that agree with their records changes no record but up to `R`. -/
theorem near_cleanAll (s : Store) {freed : List ℕ} (h : ∀ i ∈ freed, s.Agrees R i) :
    s.Near R (s.cleanAll freed) := fun k => by
  rcases s.cleanAll_dbGet freed k with hd | ⟨i, hi, rfl, hd⟩
  · exact Or.inl hd
  · obtain ⟨hm, hw⟩ := h i hi
    rcases hd with ⟨hwr, hd⟩ | ⟨hdel, _⟩
    · obtain ⟨u, hu, hr⟩ := hw hwr
      exact Or.inr ⟨u, _, hu, hd, hr⟩
    · exact absurd hdel hm

theorem Table.near_get (hR : Equivalence R) (h : s.Table R X)
    (hX : ∀ k i, X k i → 0 < s.cache.pins i) {s' : Store} {k : MetaKey} {m : InodeAccessMode}
    {i : ℕ} (hg : s.get k m = (s', some i)) : s.Near R s' := by
  have hoff : s.Table R fun j i => X j i ∨ j = k := h.mono fun _ _ => Or.inl
  refine (around_get (K := fun j => j = k) hR hg rfl hoff hX).near_of ?_
  rintro j rfl
  exact Or.inl (get_dbGet hg)

/-- A handle that agrees with its record, if it is freed, is given back. -/
theorem near_release (s : Store) {i : ℕ}
    (h : s.cache.pins i = 1 → i ∉ s.cache.lru → s.Agrees R i) : s.Near R (s.release i) := by
  refine near_cleanAll { s with cache := (s.cache.release i).1 } fun j hj => ?_
  simp only [LruCache.release] at hj
  split at hj
  · rename_i hc
    rw [List.mem_singleton.mp hj]
    exact ⟨(h hc.1 hc.2).mode, (h hc.1 hc.2).record⟩
  · exact absurd hj List.not_mem_nil

/-- A handle with nothing pending is given back. -/
theorem release_dbGet_of_read (s : Store) {i : ℕ} (hm : s.mode i = .read) (k : MetaKey) :
    (s.release i).dbGet k = s.dbGet k := by
  rcases near_release (R := fun _ _ => False) s (i := i)
    (fun _ _ => ⟨by rw [hm]; decide, fun h => by rw [hm] at h; cases h⟩) k with h | ⟨_, _, _, _, h⟩
  · exact h
  · exact h.elim

theorem Table.near_evict (h : s.Table R X) (hX : ∀ k i, X k i → 0 < s.cache.pins i)
    (k : MetaKey) : s.Near R (s.evict k) := by
  have hd := s.cache.erase_dropped k
  refine near_cleanAll { s with cache := (s.cache.erase k).1 } fun j hj => ?_
  obtain ⟨hjl, _, hp⟩ := (hd.freed j).mp hj
  have hmatch := h j hjl fun hx => by
    have := hX _ _ hx
    omega
  have hc : ∀ i, Store.keyOf { s with cache := (s.cache.erase k).1 } i = s.keyOf i :=
    fun i => congrFun hd.key i
  have hv : (s.cache.erase k).1.val j = s.cache.val j := congrFun hd.val j
  refine ⟨?_, fun _ => ?_⟩
  · show ((s.cache.erase k).1.val j).mode_ ≠ _
    rw [hv]; exact hmatch.mode
  · rw [hc]
    show ∃ u, s.dbGet (s.keyOf j) = some u ∧ R ((s.cache.erase k).1.val j).value_ u
    rw [hv]; exact hmatch.record

/-- The records changed up to `R` and the cache did not. -/
theorem Table.near (hR : Equivalence R) (h : s.Table R X) (hc : t.cache = s.cache)
    (hn : s.Near R t) : t.Table R X := by
  intro i hi hx
  rw [keyOf_congr hc] at hx
  obtain ⟨hm, u, hu, hr⟩ := h i (hc ▸ hi) hx
  refine ⟨by rwa [mode_congr hc], ?_⟩
  rw [keyOf_congr hc, value_congr hc]
  rcases hn (s.keyOf i) with hd | ⟨a, b, ha, hb, hr'⟩
  · exact ⟨u, hd.trans hu, hr⟩
  · rw [hu] at ha
    rw [← Option.some.inj ha] at hr'
    exact ⟨b, hb, hR.trans hr (hR.symm hr')⟩

/-! ### Rename's two handles -/

theorem evict_key (s : Store) (k : MetaKey) : (s.evict k).cache.key = s.cache.key := by
  rw [evict, cleanAll_cache]
  exact (s.cache.erase_dropped k).key

theorem evict_val (s : Store) (k : MetaKey) : (s.evict k).cache.val = s.cache.val := by
  rw [evict, cleanAll_cache]
  exact (s.cache.erase_dropped k).val

theorem evict_keyOf_eq (s : Store) (k : MetaKey) (i : ℕ) : (s.evict k).keyOf i = s.keyOf i :=
  congrFun (evict_key s k) i

theorem evict_value (s : Store) (k : MetaKey) (i : ℕ) : (s.evict k).value i = s.value i :=
  congrArg InodeCacheHandle.value_ (congrFun (evict_val s k) i)

theorem evict_mode (s : Store) (k : MetaKey) (i : ℕ) : (s.evict k).mode i = s.mode i :=
  congrArg InodeCacheHandle.mode_ (congrFun (evict_val s k) i)

theorem writeBack_keyOf (s : Store) (i j : ℕ) : (s.writeBack i).keyOf j = s.keyOf j := by
  unfold writeBack
  split
  · rw [setMode_keyOf, keyOf_congr (dbPut_cache _ _ _)]
  · rw [evict_keyOf_eq, keyOf_congr (dbDelete_cache _ _)]
  · rfl

theorem release_keyOf (s : Store) (i j : ℕ) : (s.release i).keyOf j = s.keyOf j := by
  rw [release, keyOf_congr (cleanAll_cache _ _)]; rfl

theorem release_mode (s : Store) (i j : ℕ) : (s.release i).mode j = s.mode j := by
  rw [release, mode_congr (cleanAll_cache _ _)]; rfl

theorem release_lru (s : Store) (i : ℕ) : (s.release i).cache.lru = s.cache.lru := by
  rw [release, cleanAll_cache]; rfl

/-- Without an entry under the key there is nothing to evict. -/
theorem evict_of_not_mem {k : MetaKey} (h : ∀ i ∈ s.cache.lru, s.keyOf i ≠ k) : s.evict k = s := by
  have hf : s.cache.find k = none := LruCache.find_eq_none_iff.mpr h
  have he : s.cache.erase k = (s.cache, []) := by
    rw [LruCache.erase, hf]
  rw [evict, he]
  rfl

/-- Rename's two handles before the batch: `i` is to be deleted under the old key,
`j` holds the new record under the new one. -/
structure Paired (s : Store) (i j : ℕ) (old_key new_key : MetaKey) (v : Bytes) : Prop where
  old_keyOf : s.keyOf i = old_key
  old_mode : s.mode i = .delete
  old_pinned : 0 < s.cache.pins i
  new_keyOf : s.keyOf j = new_key
  new_value : s.value j = v
  new_mode : s.mode j = .write
  new_pins : s.cache.pins j = 1
  ne : i ≠ j
  old_lru : ∀ m ∈ s.cache.lru, s.keyOf m = old_key → m = i ∨ m = j
  new_lru : ∀ m ∈ s.cache.lru, s.keyOf m = new_key → m = j

/-- `Get` of the old record and `Insert` of the new one. -/
theorem insert_paired {s s' : Store} {old_key : MetaKey} {i : ℕ}
    (hg : s.get old_key .delete = (s', some i)) (new_key : MetaKey) (v : Bytes) :
    (s'.insert new_key v).1.Paired i s'.cache.next old_key new_key v := by
  have hp : 0 < s'.cache.pins i := by
    rw [get_pins hg, Function.update_self]; omega
  have hil : i < s'.cache.next := LruCache.live_lt_next (Or.inr hp)
  have hmode : s'.mode i = .delete := by
    rcases get_mode hg with hm | ⟨hm, _⟩
    · exact hm
    · exact absurd hm (by decide)
  obtain ⟨hkj, hvj, hmj⟩ := insertHandle_next s' new_key v .write
  have hpins := insertHandle_pins s' new_key v .write
  have hold : (s'.insertHandle new_key v .write).1.keyOf i = s'.keyOf i ∧
      (s'.insertHandle new_key v .write).1.mode i = s'.mode i := by
    obtain ⟨c', freed, hins, he⟩ := s'.insertHandle_spec new_key v .write
    rw [he, keyOf_congr (cleanAll_cache _ _), mode_congr (cleanAll_cache _ _)]
    refine ⟨?_, ?_⟩
    · show c'.key i = _
      rw [hins.key, Function.update_of_ne (by omega)]; rfl
    · show (c'.val i).mode_ = _
      rw [hins.val, Function.update_of_ne (by omega)]; rfl
  refine ⟨hold.1.trans (get_keyOf hg), hold.2.trans hmode, ?_, hkj, hvj, hmj, ?_, by omega,
    fun m hm hk => ?_, fun m hm hk => ?_⟩
  · rw [insert, hpins, Function.update_of_ne (by omega)]; exact hp
  · rw [insert, hpins, Function.update_self]
  · rcases insertHandle_lru s' new_key v .write hm with hm | ⟨hml, _, he⟩
    · exact Or.inr hm
    · exact Or.inl (get_lru_self hg hml (he.symm.trans hk))
  · rcases insertHandle_lru s' new_key v .write hm with hm | ⟨_, hne, he⟩
    · exact hm
    · exact absurd (he.symm.trans hk) hne

variable {i j : ℕ} {old_key new_key : MetaKey} {v : Bytes}

/-- `BatchCommit` of a handle to delete and one to write. -/
theorem Paired.batchCommit (h : s.Paired i j old_key new_key v) :
    s.batchCommit i j = (((s.evict old_key).setMode j .read).dbWrite
      [.delete old_key.toSlice, .put new_key.toSlice v]).1 := by
  have hi : s.batchOne i = (s.evict old_key, [.delete old_key.toSlice]) := by
    rw [batchOne, h.old_mode, h.old_keyOf]
  have hj : (s.evict old_key).batchOne j
      = ((s.evict old_key).setMode j .read, [.put new_key.toSlice v]) := by
    rw [batchOne, evict_mode, h.new_mode, evict_keyOf_eq, h.new_keyOf, evict_value, h.new_value]
  rw [Store.batchCommit, hi]
  dsimp only
  rw [hj]
  rfl

/-- What Rename's batch leaves under a key. -/
theorem moveBatch_dbGet (s : Store) (hf : s.dbFaults = []) (old_key new_key : MetaKey) (v : Bytes)
    (k : MetaKey) :
    (s.dbWrite [.delete old_key.toSlice, .put new_key.toSlice v]).1.dbGet k
      = if new_key = k then some v else if old_key = k then none else s.dbGet k := by
  rw [dbWrite_ok _ _ hf]
  simp only [dbGet, commit, DbEffect.apply, List.foldl_cons, List.foldl_nil, BatchOp.apply,
    SortedMap.get_put, SortedMap.get_delete, MetaKey.toSlice_eq_iff]

section

variable (h : s.Paired i j old_key new_key v)
include h

theorem Paired.batch_cache : (s.batchCommit i j).cache = ((s.evict old_key).setMode j .read).cache := by
  rw [h.batchCommit, dbWrite_cache]

theorem Paired.batch_keyOf (m : ℕ) : (s.batchCommit i j).keyOf m = s.keyOf m := by
  rw [keyOf_congr h.batch_cache, setMode_keyOf, evict_keyOf_eq]

/-- After the batch the table has no entry under the old key. -/
theorem Paired.batch_lru {m : ℕ} (hm : m ∈ (s.batchCommit i j).cache.lru) :
    s.keyOf m ≠ old_key ∧ m ∈ s.cache.lru := by
  rw [h.batch_cache] at hm
  have := evict_keyOf s (k := old_key) hm
  rwa [evict_keyOf_eq] at this

theorem Paired.around (hR : Equivalence R) (hf : s.dbFaults = []) :
    s.Around (fun k => k = old_key ∨ k = new_key) R (s.batchCommit i j) := by
  have hf' : ((s.evict old_key).setMode j .read).dbFaults = [] := evict_dbFaults s old_key hf
  have hmode : (s.evict old_key).Around (fun k => k = old_key ∨ k = new_key) R
      ((s.evict old_key).setMode j .read) :=
    around_setMode _ (by rw [evict_keyOf_eq]; exact Or.inr h.new_keyOf) .read
  refine ((around_evict hR s (Or.inl rfl)).trans hR hmode).trans hR ?_
  rw [h.batchCommit]
  refine around_of_dbGet (dbWrite_cache _ _) fun k hk => ?_
  rw [moveBatch_dbGet _ hf', if_neg fun he : new_key = k => hk (Or.inr he.symm),
    if_neg fun he : old_key = k => hk (Or.inl he.symm)]

/-- After the batch the entry under the new key matches its record. -/
theorem Paired.batch_table (hR : Equivalence R) (hf : s.dbFaults = [])
    (hs : s.Table R fun k m => X k m ∨ (k = old_key ∨ k = new_key)) :
    (s.batchCommit i j).Table R X := by
  have hf' : ((s.evict old_key).setMode j .read).dbFaults = [] := evict_dbFaults s old_key hf
  refine ((h.around hR hf).table_off_of_off hs).of_off fun m hm hk _ => ?_
  obtain ⟨hne, hm1⟩ := h.batch_lru hm
  rw [h.batch_keyOf] at hk
  obtain rfl := h.new_lru m hm1 (hk.resolve_left hne)
  refine ⟨?_, v, ?_, ?_⟩
  · rw [mode_congr h.batch_cache, setMode_mode_self]; decide
  · rw [h.batch_keyOf, h.batchCommit, moveBatch_dbGet _ hf', if_pos h.new_keyOf.symm]
  · rw [value_congr h.batch_cache, setMode_value, evict_value, h.new_value]; exact hR.refl v

end

/-- Rename works on its two keys. -/
theorem move_around (hR : Equivalence R) (h : s.Table R X)
    (hX : ∀ k i, X k i → 0 < s.cache.pins i) {s' : Store}
    (hg : s.get old_key .delete = (s', some i)) (hf : s.dbFaults = []) (new_key : MetaKey)
    (v : Bytes) :
    s.Around (fun k => k = old_key ∨ k = new_key) R (s'.insert new_key v).1 ∧
    s.Around (fun k => k = old_key ∨ k = new_key) R
      (((((s'.insert new_key v).1.batchCommit i (s'.insert new_key v).2).release
        (s'.insert new_key v).2).release i).evict old_key) := by
  have hpair := insert_paired hg new_key v
  have hX' : ∀ k j, X k j → 0 < s'.cache.pins j := fun k j hx => by
    have := hX k j hx
    rw [get_pins hg]
    by_cases hj : j = i
    · subst hj; rw [Function.update_self]; omega
    · rwa [Function.update_of_ne hj]
  have ha' : s.Around (fun k => k = old_key ∨ k = new_key) R s' :=
    around_get hR hg (Or.inl rfl) (h.mono fun _ _ => Or.inl) hX
  have ha1 : s.Around (fun k => k = old_key ∨ k = new_key) R (s'.insert new_key v).1 :=
    ha'.trans hR (around_insertHandle s' (Or.inr rfl) v .write (ha'.table_off h) hX')
  have hf1 : (s'.insert new_key v).1.dbFaults = [] :=
    insertHandle_dbFaults s' new_key v .write (get_dbFaults hg hf)
  refine ⟨ha1, (((ha1.trans hR (hpair.around hR hf1)).trans hR (around_release hR _ ?_)).trans hR
    (around_release hR _ ?_)).trans hR (around_evict hR _ (Or.inl rfl))⟩
  · rw [hpair.batch_keyOf]; exact Or.inr hpair.new_keyOf
  · rw [release_keyOf, hpair.batch_keyOf]; exact Or.inl hpair.old_keyOf

/-- Rename keeps the table coherent. -/
theorem Table.move (hR : Equivalence R) (h : s.Table R X)
    (hX : ∀ k i, X k i → 0 < s.cache.pins i) {s' : Store}
    (hg : s.get old_key .delete = (s', some i)) (hf : s.dbFaults = []) (new_key : MetaKey)
    (v : Bytes) :
    (((((s'.insert new_key v).1.batchCommit i (s'.insert new_key v).2).release
      (s'.insert new_key v).2).release i).evict old_key).Table R X := by
  have hpair := insert_paired hg new_key v
  have hf1 : (s'.insert new_key v).1.dbFaults = [] :=
    insertHandle_dbFaults s' new_key v .write (get_dbFaults hg hf)
  have ht := hpair.batch_table hR hf1 ((move_around hR h hX hg hf new_key v).1.table_off h)
  show ((((((s'.insert new_key v).1.batchCommit i s'.cache.next).release
    s'.cache.next).release i).evict old_key).Table R X)
  refine ((ht.release (freesSafely_of_lru fun m hm hk => ?_)).release
    (freesSafely_of_lru fun m hm hk => ?_)).evict hR old_key
  · rw [hpair.batch_keyOf, hpair.batch_keyOf, hpair.new_keyOf] at hk
    exact hpair.new_lru m (hpair.batch_lru hm).2 hk
  · rw [release_lru] at hm
    rw [release_keyOf, release_keyOf, hpair.batch_keyOf, hpair.batch_keyOf, hpair.old_keyOf] at hk
    exact absurd hk (hpair.batch_lru hm).1

end Store

end Tablefs
