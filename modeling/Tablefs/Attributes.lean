/-
What a change of attributes leaves alone.

`Chmod`, `Chown` and `UpdateTimens` take the handle of their record from the inode cache,
change its header and store the record at once. That changes the record they are for in the
attributes they are for, cached and stored, with what is pending from open files
(`attributes_only_iff`).

Other records are in danger when the record is not cached. Room for it is made by dropping
other entries from the table, also those of open files. Such a file's pending bytes are not
stored then, but nobody else finds them any more: `GetAttr` reads the old record from the
store (`attributes_not_only`).
-/
import Tablefs.FileCalls

set_option autoImplicit false

namespace Tablefs

open ByteString

namespace Store

variable {s s' t : Store} {k key : MetaKey} {m : InodeAccessMode} {i : ℕ}

/-! ## What `Get` sees -/

theorem lookup_of_mem (hi : i ∈ s.cache.lru) : s.lookup (s.keyOf i) = some (s.value i) := by
  have hfind : s.cache.find (s.keyOf i) = some i := LruCache.find_eq_some_iff.mpr ⟨hi, rfl⟩
  rw [lookup, hfind]

theorem lookup_of_forall (hn : ∀ i ∈ s.cache.lru, s.keyOf i ≠ k) : s.lookup k = s.dbGet k := by
  rw [lookup, LruCache.find_eq_none_iff.mpr hn]

/-- `Get` sees the same under a key when its entry and its record stay. -/
theorem lookup_congr_off (hlru : ∀ j, j ∈ t.cache.lru ↔ j ∈ s.cache.lru)
    (hkey : ∀ j ∈ s.cache.lru, t.keyOf j = s.keyOf j)
    (hval : ∀ j ∈ s.cache.lru, s.keyOf j = k → t.value j = s.value j)
    (hdb : t.dbGet k = s.dbGet k) : t.lookup k = s.lookup k := by
  by_cases hin : ∃ j ∈ s.cache.lru, s.keyOf j = k
  · obtain ⟨j, hj, rfl⟩ := hin
    have hj' := lookup_of_mem ((hlru j).mpr hj)
    rw [hkey j hj, hval j hj rfl] at hj'
    rw [hj', lookup_of_mem hj]
  · have hs : ∀ j ∈ s.cache.lru, s.keyOf j ≠ k := fun j hj hk => hin ⟨j, hj, hk⟩
    rw [lookup_of_forall hs, lookup_of_forall, hdb]
    intro j hj
    rw [hkey j ((hlru j).mp hj)]
    exact hs j ((hlru j).mp hj)

theorem lookup_congr (hc : t.cache = s.cache) (hm : t.metadb = s.metadb) (k : MetaKey) :
    t.lookup k = s.lookup k := by
  have hdb : t.dbGet k = s.dbGet k := by rw [dbGet, hm]; rfl
  refine lookup_congr_off ?_ (fun j _ => keyOf_congr hc j) (fun j _ _ => value_congr hc j) hdb
  intro j
  rw [hc]

/-! ## Handles that are freed -/

/-- The record under a handle's key once the handle is cleaned. -/
def cleaned (s : Store) (i : ℕ) : Option Bytes :=
  match s.mode i with
  | .write => some (s.value i)
  | .delete => none
  | .read => s.dbGet (s.keyOf i)

theorem cleanInodeHandle_dbGet_self (hf : s.dbFaults = []) (i : ℕ) :
    (s.cleanInodeHandle i).dbGet (s.keyOf i) = s.cleaned i := by
  cases hm : s.mode i with
  | write =>
      simp only [cleanInodeHandle, cleaned, hm]
      rw [dbPut_ok _ _ _ hf, commit_put_dbGet, if_pos rfl]
  | delete =>
      simp only [cleanInodeHandle, cleaned, hm]
      rw [dbDelete_dbGet, if_pos rfl]
  | read => simp only [cleanInodeHandle, cleaned, hm]

/-- A handle that is freed with no other of its key leaves its record cleaned. -/
theorem cleanAll_dbGet_of_mem {freed : List ℕ} (hf : s.dbFaults = []) (hi : i ∈ freed)
    (honly : ∀ j ∈ freed, s.keyOf j = s.keyOf i → j = i) :
    (s.cleanAll freed).dbGet (s.keyOf i) = s.cleaned i := by
  induction freed generalizing s with
  | nil => exact absurd hi List.not_mem_nil
  | cons h hs ih =>
      have hc : (s.cleanInodeHandle h).cache = s.cache := cleanInodeHandle_cache s h
      have hkey : ∀ j, (s.cleanInodeHandle h).keyOf j = s.keyOf j := fun j => keyOf_congr hc j
      have hrest : ∀ j ∈ hs, (s.cleanInodeHandle h).keyOf j = (s.cleanInodeHandle h).keyOf i →
          j = i := by
        intro j hj hk
        rw [hkey, hkey] at hk
        exact honly j (List.mem_cons_of_mem h hj) hk
      -- cleaning the first handle does not change what cleaning `i` leaves
      have hfirst : h = i ∨ s.keyOf h ≠ s.keyOf i := by
        by_cases hk : s.keyOf h = s.keyOf i
        · exact Or.inl (honly h List.mem_cons_self hk)
        · exact Or.inr hk
      have hdb : (s.cleanInodeHandle h).dbGet (s.keyOf i)
          = if h = i then s.cleaned i else s.dbGet (s.keyOf i) := by
        rcases hfirst with rfl | hne
        · rw [if_pos rfl, cleanInodeHandle_dbGet_self hf]
        · rw [if_neg (by rintro rfl; exact hne rfl)]
          rcases s.cleanInodeHandle_dbGet h (s.keyOf i) with he | ⟨hk, _⟩
          · exact he
          · exact absurd hk hne
      have hclean : (s.cleanInodeHandle h).cleaned i = s.cleaned i := by
        unfold cleaned
        rw [mode_congr hc, value_congr hc, hkey, hdb]
        by_cases heq : h = i
        · rw [if_pos heq]
          cases hm : s.mode i <;> simp [cleaned, hm]
        · rw [if_neg heq]
      rw [cleanAll_cons]
      by_cases hmem : i ∈ hs
      · have hf' : (s.cleanInodeHandle h).dbFaults = [] := cleanAll_dbFaults s [h] hf
        rw [← hkey i, ih hf' hmem hrest, hclean]
      · obtain rfl : i = h := (List.mem_cons.mp hi).resolve_right hmem
        rw [if_pos rfl] at hdb
        rw [← hdb]
        rcases cleanAll_dbGet (s.cleanInodeHandle i) hs (s.keyOf i) with he | ⟨j, hj, hk, _⟩
        · exact he
        · exact absurd (hrest j hj (hk.trans (hkey i).symm) ▸ hj) hmem

/-! ## Making room for a handle -/

/-- A `Get` that finds its entry drops nothing. -/
theorem get_found {h : ℕ} (hg : s.get k m = (s', some h)) (hfind : s.cache.find k = some h) :
    (∀ j, j ∈ s'.cache.lru ↔ j ∈ s.cache.lru) ∧ (∀ j, s'.keyOf j = s.keyOf j) ∧
      (∀ j, s'.value j = s.value j) ∧ ∀ k, s'.dbGet k = s.dbGet k := by
  rcases get_cases hg with ⟨hf, hs⟩ | ⟨hnone, _⟩
  · have hlru : ∀ j, j ∈ (s.cache.touch h (LruCache.mem_of_find hf)).lru ↔ j ∈ s.cache.lru :=
      fun _ => LruCache.mem_touch_lru
    rw [hs]
    split
    · exact ⟨hlru, fun _ => rfl, fun _ => rfl, fun _ => rfl⟩
    · refine ⟨hlru, fun _ => rfl, ?_, fun _ => rfl⟩
      intro j
      rw [setMode_value]
      rfl
  · rw [hfind] at hnone
    cases hnone

/-- An entry that `Get` drops from the table: `Get` sees the record from then on, which has
been cleaned if nobody holds the handle. -/
theorem get_dropped (hf : s.dbFaults = []) {h : ℕ} (hg : s.get k m = (s', some h))
    (hi : i ∈ s.cache.lru) (hout : i ∉ s'.cache.lru) :
    s.keyOf i ≠ k ∧ s'.lookup (s.keyOf i) = s'.dbGet (s.keyOf i) ∧
      s'.dbGet (s.keyOf i)
        = if s.cache.pins i = 0 then s.cleaned i else s.dbGet (s.keyOf i) := by
  rcases get_cases hg with ⟨hfind, _⟩ | ⟨hnone, v, _, rfl, rfl⟩
  · exact absurd (((get_found hg hfind).1 i).mpr hi) hout
  have hne := LruCache.find_eq_none_iff.mp hnone
  obtain ⟨c', freed, hins, he⟩ := s.insertHandle_spec k v m
  have hlt : ∀ j ∈ s.cache.lru, j ≠ s.cache.next := by
    intro j hj
    have := s.cache.lt_next j hj
    omega
  have hkey : ∀ j ∈ s.cache.lru, c'.key j = s.keyOf j := by
    intro j hj
    rw [hins.key, Function.update_of_ne (hlt j hj)]
    rfl
  have hout' : i ∉ c'.lru := by
    rwa [he, cleanAll_cache] at hout
  have honly : ∀ j ∈ freed, c'.key j = s.keyOf i → j = i := by
    intro j hj hk
    have hjl := ((hins.freed j).mp hj).1
    rw [hkey j hjl] at hk
    exact LruCache.eq_of_key hjl hi hk
  refine ⟨hne i hi, ?_, ?_⟩
  · refine lookup_of_forall ?_
    intro j hj hk
    rcases insertHandle_lru s k v m hj with rfl | ⟨hjl, _, hkj⟩
    · rw [(insertHandle_next s k v m).1] at hk
      exact hne i hi hk.symm
    · obtain rfl : j = i := LruCache.eq_of_key hjl hi (hkj.symm.trans hk)
      exact hout hj
  · rw [he]
    have hik : Store.keyOf { s with cache := c' } i = s.keyOf i := hkey i hi
    by_cases hp : s.cache.pins i = 0
    · rw [if_pos hp, ← hik, cleanAll_dbGet_of_mem (s := { s with cache := c' }) hf
        ((hins.freed i).mpr ⟨hi, hout', hp⟩) fun j hj hk => honly j hj (hk.trans hik)]
      have hval : c'.val i = s.cache.val i := by
        rw [hins.val, Function.update_of_ne (hlt i hi)]
      simp only [cleaned, mode, value, hval, hik]
      rfl
    · rw [if_neg hp]
      rcases cleanAll_dbGet { s with cache := c' } freed (s.keyOf i) with hd | ⟨j, hj, hk, _⟩
      · exact hd
      · -- a freed entry of the key would be this one, which is held
        obtain rfl := honly j hj hk
        exact absurd ((hins.freed j).mp hj).2.2 hp

/-- What `Get` does not drop stays as it is. -/
theorem get_kept {h : ℕ} (hg : s.get k m = (s', some h)) {k' : MetaKey} (hne : k' ≠ k)
    (hkeep : ∀ i ∈ s.cache.lru, s.keyOf i = k' → i ∈ s'.cache.lru) :
    s'.lookup k' = s.lookup k' ∧ s'.dbGet k' = s.dbGet k' := by
  rcases get_cases hg with ⟨hfind, _⟩ | ⟨_, v, _, rfl, rfl⟩
  · obtain ⟨hlru, hkey, hval, hdb⟩ := get_found hg hfind
    exact ⟨lookup_congr_off hlru (fun j _ => hkey j) (fun j _ _ => hval j) (hdb k'), hdb k'⟩
  · obtain ⟨c', freed, hins, he⟩ := s.insertHandle_spec k v m
    have hdb : (s.insertHandle k v m).1.dbGet k' = s.dbGet k' := by
      rw [he]
      rcases cleanAll_dbGet { s with cache := c' } freed k' with hd | ⟨j, hj, hk, _⟩
      · exact hd
      · -- nothing under the key has been freed
        obtain ⟨hjl, hjn, _⟩ := (hins.freed j).mp hj
        have hlt := s.cache.lt_next j hjl
        have hk' : c'.key j = k' := hk
        rw [hins.key, Function.update_of_ne (by omega)] at hk'
        have hmem := hkeep j hjl hk'
        rw [he, cleanAll_cache] at hmem
        exact absurd hmem hjn
    refine ⟨?_, hdb⟩
    by_cases hin : ∃ j ∈ s.cache.lru, s.keyOf j = k'
    · obtain ⟨j, hj, rfl⟩ := hin
      have hj' := hkeep j hj rfl
      have hlt := s.cache.lt_next j hj
      have hseen := lookup_of_mem hj'
      have hval : (s.insertHandle k v m).1.value j = s.value j := by
        rw [he, value_congr (cleanAll_cache _ _)]
        show (c'.val j).value_ = _
        rw [hins.val, Function.update_of_ne (by omega)]
        rfl
      rcases insertHandle_lru s k v m hj' with heq | ⟨_, _, hkj⟩
      · omega
      · rw [hkj, hval] at hseen
        rw [hseen, lookup_of_mem hj]
    · have hs : ∀ j ∈ s.cache.lru, s.keyOf j ≠ k' := fun j hj hk => hin ⟨j, hj, hk⟩
      rw [lookup_of_forall hs, lookup_of_forall, hdb]
      intro j hj hk
      rcases insertHandle_lru s k v m hj with rfl | ⟨hjl, _, hkj⟩
      · rw [(insertHandle_next s k v m).1] at hk
        exact hne hk.symm
      · exact hs j hjl (hkj.symm.trans hk)

/-- What `Get` keeps of the table depends on the cache and the records. -/
theorem get_cache_congr (hc : t.cache = s.cache) (hm : t.metadb = s.metadb) (k : MetaKey)
    (m : InodeAccessMode) : (t.get k m).1.cache = (s.get k m).1.cache := by
  obtain ⟨db, c, ft, lt⟩ := t
  obtain ⟨_, _, fs, ls⟩ := s
  dsimp only at hc hm
  subst hc hm
  unfold get
  dsimp only
  split
  · have hdb : Store.dbGet ⟨db, c, ft, lt⟩ k = Store.dbGet ⟨db, c, fs, ls⟩ k := rfl
    rw [hdb]
    split
    · rfl
    · simp only [insertHandle, cleanAll_cache]
  · split <;> rfl

/-! ## The edit of a record -/

/-- `WriteBack` of an edited handle and `Release` store the record, and nothing is pending. -/
theorem edit_self (hf : s.dbFaults = []) (hm : s.mode i = .write) (v : Bytes) :
    (((s.setValue i v).writeBack i).release i).dbGet (s.keyOf i) = some v ∧
      (((s.setValue i v).writeBack i).release i).value i = v ∧
      (((s.setValue i v).writeBack i).release i).mode i = .read := by
  have hm' : (s.setValue i v).mode i = .write := (setValue_mode ..).trans hm
  have hback := writeBack_write hm'
  rw [setValue_keyOf, setValue_value_self] at hback
  have hread : ((s.setValue i v).writeBack i).mode i = .read := by
    rw [hback, setMode_mode_self]
  refine ⟨?_, ?_, by rw [release_mode, hread]⟩
  · rw [release_dbGet_of_read _ hread, hback]
    show ((s.setValue i v).dbPut (s.keyOf i) v).1.dbGet (s.keyOf i) = _
    rw [dbPut_ok _ _ _ (show (s.setValue i v).dbFaults = [] from hf), commit_put_dbGet,
      if_pos rfl]
  · rw [release_value, hback, setMode_value, value_congr (dbPut_cache _ _ _),
      setValue_value_self]

/-- `WriteBack` of an edited handle and `Release` touch its key only. -/
theorem edit_off (hf : s.dbFaults = []) (hm : s.mode i = .write) {k' : MetaKey}
    (hne : k' ≠ s.keyOf i) (v : Bytes) :
    (((s.setValue i v).writeBack i).release i).lookup k' = s.lookup k' ∧
      (((s.setValue i v).writeBack i).release i).dbGet k' = s.dbGet k' := by
  have hm' : (s.setValue i v).mode i = .write := (setValue_mode ..).trans hm
  have hback := writeBack_write hm'
  have hc : ((s.setValue i v).dbPut (s.keyOf i) v).1.cache = (s.setValue i v).cache :=
    dbPut_cache _ _ _
  rw [setValue_keyOf, setValue_value_self] at hback
  have hread : ((s.setValue i v).writeBack i).mode i = .read := by
    rw [hback, setMode_mode_self]
  have hdb : ((s.setValue i v).writeBack i).dbGet k' = s.dbGet k' := by
    rw [hback]
    show ((s.setValue i v).dbPut (s.keyOf i) v).1.dbGet k' = _
    rw [dbPut_ok _ _ _ (show (s.setValue i v).dbFaults = [] from hf), commit_put_dbGet,
      if_neg (Ne.symm hne)]
    rfl
  have hdb' := release_dbGet_of_read _ hread k'
  refine ⟨lookup_congr_off ?_ ?_ ?_ (hdb'.trans hdb), hdb'.trans hdb⟩
  · intro j
    rw [release_lru, hback, setMode, LruCache.setVal_lru, hc]
    rfl
  · intro j _
    rw [release_keyOf, writeBack_keyOf]
    rfl
  · intro j _ hk
    have hji : j ≠ i := by
      rintro rfl
      exact hne hk.symm
    rw [release_value, hback, setMode_value, value_congr hc, setValue_value_of_ne _ hji]

/-- What `Get` drops from the table to make room for a handle under the key is stored, with
nothing else pending. -/
def DropsStored (s : Store) (key : MetaKey) : Prop :=
  ∀ i ∈ s.cache.lru, i ∉ (s.get key .write).1.cache.lru →
    s.dbGet (s.keyOf i) = some (s.value i) ∧ (s.cache.pins i = 0 → s.mode i ≠ .delete)

theorem DropsStored.congr (hc : t.cache = s.cache) (hm : t.metadb = s.metadb) {key : MetaKey} :
    t.DropsStored key ↔ s.DropsStored key := by
  have hdb : ∀ k, t.dbGet k = s.dbGet k := fun k => by rw [dbGet, hm]; rfl
  unfold DropsStored
  rw [get_cache_congr hc hm, hc]
  refine forall_congr' fun i => ?_
  rw [keyOf_congr hc, value_congr hc, mode_congr hc, hdb]

/-- The edit leaves the other records alone exactly if `Get` does. -/
theorem edit_others_iff (hf : s.dbFaults = []) {h : ℕ}
    (hg : s.get key .write = (s', some h)) (v : Bytes) :
    (∀ k, k ≠ key → (((s'.setValue h v).writeBack h).release h).lookup k = s.lookup k ∧
      (((s'.setValue h v).writeBack h).release h).dbGet k = s.dbGet k) ↔ s.DropsStored key := by
  have hoff : ∀ k, k ≠ key →
      (((s'.setValue h v).writeBack h).release h).lookup k = s'.lookup k ∧
        (((s'.setValue h v).writeBack h).release h).dbGet k = s'.dbGet k := by
    intro k hne
    refine edit_off (get_dbFaults hg hf) (get_mode_write hg) ?_ v
    rwa [get_keyOf hg]
  unfold DropsStored
  rw [hg]
  constructor
  · intro hsame i hi hout
    obtain ⟨hne, hseen, hdb⟩ := get_dropped hf hg hi hout
    obtain ⟨h1, h2⟩ := hoff _ hne
    obtain ⟨h3, h4⟩ := hsame _ hne
    rw [h1, hseen, lookup_of_mem hi] at h3
    rw [h2] at h4
    refine ⟨h4.symm.trans h3, ?_⟩
    -- a pending delete would have been carried out
    intro hp hdel
    rw [if_pos hp, cleaned, hdel] at hdb
    rw [hdb] at h3
    cases h3
  · intro hdrops k hne
    obtain ⟨h1, h2⟩ := hoff k hne
    rw [h1, h2]
    by_cases hin : ∃ i ∈ s.cache.lru, s.keyOf i = k ∧ i ∉ s'.cache.lru
    · obtain ⟨i, hi, rfl, hout⟩ := hin
      obtain ⟨_, hseen, hdb⟩ := get_dropped hf hg hi hout
      obtain ⟨hstored, hdel⟩ := hdrops i hi hout
      have hsame : s'.dbGet (s.keyOf i) = some (s.value i) := by
        rw [hdb]
        split
        · rename_i hp
          cases hm : s.mode i with
          | read => rw [cleaned, hm, hstored]
          | write => rw [cleaned, hm]
          | delete => exact absurd hm (hdel hp)
        · exact hstored
      rw [hseen, hsame, lookup_of_mem hi, hstored]
      exact ⟨rfl, rfl⟩
    · refine get_kept hg hne ?_
      intro i hi hk
      by_contra hout
      exact hin ⟨i, hi, hk, hout⟩

/-- The record under the key is changed by `edit`, as `Get` sees it, in the store, and in the
handles of open files; nothing is pending in these. Every other record is as it was. -/
structure EditsOnly (s t : Store) (key : MetaKey) (edit : Stat → Stat) : Prop where
  edited : ∃ r : InodeRecord, s.lookup key = some r.value ∧
    t.lookup key = some (r.setStat (edit r.header.fstat)).value ∧
    t.dbGet key = some (r.setStat (edit r.header.fstat)).value
  held : ∀ i, 0 < s.cache.pins i → s.keyOf i = key → s.lookup key = some (s.value i) ∧
    t.lookup key = some (t.value i) ∧ t.mode i = .read
  others : ∀ k, k ≠ key → t.lookup k = s.lookup k ∧ t.dbGet k = s.dbGet k

end Store

/-- What a change of attributes is for: a path, and the attributes it sets. -/
def Op.attributeEdit : Op → Option (Bytes × (Stat → Stat))
  | .chmod path mode => some (path, fun s => { s with st_mode := mode })
  | .chown path uid gid => some (path, fun s => { s with st_uid := uid, st_gid := gid })
  | .updateTimens path atime mtime =>
      some (path, fun s => { s with st_atim_sec := atime, st_mtim_sec := mtime })
  | _ => none

namespace World

open Store

variable {w : World} {key : MetaKey} {path : Bytes}

/-- A change of attributes is an edit of the record under its path. -/
theorem step_attributeEdit {op : Op} {edit : Stat → Stat}
    (hop : op.attributeEdit = some (path, edit)) :
    ∃ unlocks, (w.step op).1 = (w.editAttribute path edit unlocks).1 ∧
      (w.step op).2.ret = (w.editAttribute path edit unlocks).2 := by
  cases op
  case chmod =>
    obtain ⟨rfl, rfl⟩ := Prod.mk.inj (Option.some.inj hop)
    exact ⟨true, rfl, rfl⟩
  case chown =>
    obtain ⟨rfl, rfl⟩ := Prod.mk.inj (Option.some.inj hop)
    exact ⟨false, rfl, rfl⟩
  case updateTimens =>
    obtain ⟨rfl, rfl⟩ := Prod.mk.inj (Option.some.inj hop)
    exact ⟨true, rfl, rfl⟩
  all_goals cases hop

/-- What an edit of a record's attributes does, as `Get` sees it and in the store. -/
theorem editAttribute_edits (hr : w.store.Records) (hdb : w.store.dbFaults = [])
    (hk : (w.pathLookup path).2 = some key) (hrec : w.store.lookup key ≠ none)
    (edit : Stat → Stat) (unlocks : Bool) {t : World}
    (ht : t = (w.editAttribute path edit unlocks).1) :
    (w.editAttribute path edit unlocks).2 = 0 ∧ t.files = w.files ∧
      (∃ r : InodeRecord, w.store.lookup key = some r.value ∧
        t.store.lookup key = some (r.setStat (edit r.header.fstat)).value ∧
        t.store.dbGet key = some (r.setStat (edit r.header.fstat)).value) ∧
      (∀ i, w.store.Entry key i →
        t.store.lookup key = some (t.store.value i) ∧ t.store.mode i = .read) ∧
      ((∀ k, k ≠ key → t.store.lookup k = w.store.lookup k ∧ t.store.dbGet k = w.store.dbGet k) ↔
        w.store.DropsStored key) := by
  have hl := w.pathLookup_looked path
  rcases hp : w.pathLookup path with ⟨w₁, o⟩
  rw [hp] at hk hl
  dsimp only at hk hl
  subst hk
  have hll := hl.trans (looked_writeLock w₁ key)
  have hf : (w₁.writeLock key).store.dbFaults = [] := hll.dbFaults.trans hdb
  obtain ⟨v, hv⟩ := Option.ne_none_iff_exists'.mp hrec
  obtain ⟨r, rfl⟩ := (hr.all.lookup hv).record
  -- `Get` finds the record
  rcases hg : (w₁.writeLock key).cacheGet key .write with ⟨w', _ | i⟩
  · have hnone := (cacheGet_none hg).2
    rw [hll.lookup, hv] at hnone
    cases hnone
  obtain ⟨s, hs, rfl⟩ := cacheGet_some hg
  have hval : s.value i = r.value := by
    have hlook := Store.get_lookup hs
    rw [hll.lookup, hv] at hlook
    exact (Option.some.inj hlook).symm
  have hedit : (w.editAttribute path edit unlocks).2 = 0 ∧
      (w.editAttribute path edit unlocks).1.files = w.files ∧
      (w.editAttribute path edit unlocks).1.store.metadb =
        (((s.setValue i (r.setStat (edit r.header.fstat)).value).writeBack i).release i).metadb ∧
      (w.editAttribute path edit unlocks).1.store.cache =
        (((s.setValue i (r.setStat (edit r.header.fstat)).value).writeBack i).release i).cache := by
    rw [editAttribute, hp]
    dsimp only
    rw [hg]
    dsimp only
    rw [setStore_store, hval, r.getAttribute_value, r.updateAttribute_value]
    split
    all_goals exact ⟨rfl, hll.files, rfl, rfl⟩
  rw [← ht] at hedit
  obtain ⟨hret, hfiles, hm, hc⟩ := hedit
  have hkey : s.keyOf i = key := Store.get_keyOf hs
  obtain ⟨hstored, hvalue, hmode⟩ := edit_self (get_dbFaults hs hf) (get_mode_write hs)
    (r.setStat (edit r.header.fstat)).value
  rw [hkey] at hstored
  have hseen := (Current.edit hf hs (r.setStat (edit r.header.fstat)).value).lookup
  have hothers := (edit_others_iff hf hs (r.setStat (edit r.header.fstat)).value).trans
    (DropsStored.congr hll.cache hll.metadb)
  -- the state after the call has the table and the records of the edit
  have hget : ∀ k, t.store.dbGet k =
      (((s.setValue i (r.setStat (edit r.header.fstat)).value).writeBack i).release i).dbGet k :=
    fun k => congrArg (fun db : MetaDb => db.get k.toSlice) hm
  have hbefore : ∀ k, (w₁.writeLock key).store.dbGet k = w.store.dbGet k :=
    fun k => congrArg (fun db : MetaDb => db.get k.toSlice) hll.metadb
  refine ⟨hret, hfiles, ⟨r, hv, ?_, ?_⟩, ?_, ?_⟩
  · rw [lookup_congr hc hm, hseen]
  · rw [hget, hstored]
  · intro j hj
    obtain ⟨rfl, _⟩ := (hll.entry hj).get hs
    rw [lookup_congr hc hm, hseen, value_congr hc, hvalue, mode_congr hc, hmode]
    exact ⟨rfl, rfl⟩
  · rw [← hothers]
    refine forall_congr' fun k => imp_congr_right fun _ => ?_
    rw [lookup_congr hc hm, hget, hll.lookup, hbefore]

/-- In every reachable state whose pinned handles are all in the cache's table: `Chmod`, `Chown`
and `UpdateTimens` of a path with a record succeed, and change the record's attributes and
nothing else, if and only if what the cache drops to make room for the record is stored. -/
theorem attributes_only_iff (h : w.Reachable) (hdb : w.store.dbFaults = [])
    (hheld : ∀ i, 0 < w.store.cache.pins i → i ∈ w.store.cache.lru) {op : Op}
    {edit : Stat → Stat} (hop : op.attributeEdit = some (path, edit))
    (hk : (w.pathLookup path).2 = some key) (hrec : w.store.lookup key ≠ none) :
    ((w.step op).2.ret = 0 ∧ w.store.EditsOnly (w.step op).1.store key edit) ↔
      w.store.DropsStored key := by
  obtain ⟨unlocks, hw, hret⟩ := step_attributeEdit (w := w) hop
  obtain ⟨hzero, _, hedited, hentry, hothers⟩ :=
    editAttribute_edits h.records hdb hk hrec edit unlocks hw
  constructor
  · rintro ⟨_, hedits⟩
    exact hothers.mp hedits.others
  · intro hdrops
    refine ⟨hret.trans hzero, hedited, ?_, hothers.mpr hdrops⟩
    intro i hp hk
    obtain ⟨hlook, hmode⟩ := hentry i ⟨hheld i hp, hk⟩
    exact ⟨hk ▸ lookup_of_mem (hheld i hp), hlook, hmode⟩

/-- A file is open, with bytes that are not stored. -/
def pendingRun : List Op := [.makeNode [47, 97] 0 0, .openFile [47, 97] O_RDWR, .write 0 [1] 0]

theorem pendingRun_attributes :
    (((mount Durable.empty plainConfig).run pendingRun).step (.chown [47, 97] 7 8)).2.ret = 0 ∧
      ((mount Durable.empty plainConfig).run pendingRun).store.EditsOnly
        (((mount Durable.empty plainConfig).run pendingRun).step (.chown [47, 97] 7 8)).1.store
        (buildMetaKey [97] 0) fun s => { s with st_uid := 7, st_gid := 8 } := by
  refine (attributes_only_iff ((Reachable.mount empty_records plainConfig).run (by decide))
    (by decide +kernel) ?_ rfl (by decide +kernel) (by decide +kernel)).mpr ?_
  · intro i hp
    have hlt := LruCache.live_lt_next (Or.inr hp)
    rw [show ((mount Durable.empty plainConfig).run pendingRun).store.cache.next = 1 by
      decide +kernel] at hlt
    obtain rfl : i = 0 := by omega
    decide +kernel
  · unfold DropsStored
    decide +kernel

/-- Names whose keys are in one shard of the inode cache. -/
def crowd : List Bytes :=
  [[97, 118], [99, 99], [99, 110], [100, 100], [100, 107], [101, 103], [101, 115], [101, 117],
    [102, 108], [103, 111], [103, 112], [103, 120], [104, 105], [104, 107], [104, 120],
    [106, 107], [107, 114], [108, 102], [109, 97], [109, 103], [110, 119], [111, 99],
    [111, 121], [112, 103], [112, 121], [113, 97], [113, 103], [113, 120], [113, 122],
    [116, 107], [118, 121]]

/-- A file is written to and not closed; then `GetAttr` brings the other records of its shard
into the cache, as many as fit. -/
def crowdedRun : List Op :=
  (crowd.map fun name => Op.makeNode (47 :: name) 0 0) ++
    [.makeNode [47, 97, 103] 0 0, .makeNode [47, 119, 104] 0 0, .openFile [47, 97, 103] O_RDWR,
      .write 0 [1] 0] ++
    crowd.map fun name => Op.getAttr (47 :: name)

/-- `Chmod` of one more record drops the open file's handle from the table, and `GetAttr` does
not see its pending bytes any more. -/
theorem attributes_not_only :
    ¬ ∀ (ops : List Op) (w : World) (path : Bytes) (mode : UInt32) (key : MetaKey),
      (∀ op ∈ ops, op.WellFormed ∧ StoreWorks op) →
      (mount Durable.empty plainConfig).Meets CreatesAbsent ops →
      w = (mount Durable.empty plainConfig).run ops →
      (∀ i, 0 < w.store.cache.pins i → i ∈ w.store.cache.lru) →
      (w.pathLookup path).2 = some key → w.store.dbGet key ≠ none →
      w.store.EditsOnly (w.step (.chmod path mode)).1.store key
        fun s => { s with st_mode := mode } := by
  intro h
  have hr : ((mount Durable.empty plainConfig).run crowdedRun).Reachable :=
    (Reachable.mount empty_records plainConfig).run (by decide)
  obtain ⟨hnext, hdirs, hfile, hmem, hk, hrec, hlost⟩ :
      ((mount Durable.empty plainConfig).run crowdedRun).nextFile = 1 ∧
      ((mount Durable.empty plainConfig).run crowdedRun).dirs = [] ∧
      (((mount Durable.empty plainConfig).run crowdedRun).files 0).map FileHandle.handle_
        = some 0 ∧
      0 ∈ ((mount Durable.empty plainConfig).run crowdedRun).store.cache.lru ∧
      (((mount Durable.empty plainConfig).run crowdedRun).pathLookup [47, 119, 104]).2
        = some (buildMetaKey [119, 104] 0) ∧
      ((mount Durable.empty plainConfig).run crowdedRun).store.dbGet (buildMetaKey [119, 104] 0)
        ≠ none ∧
      (((mount Durable.empty plainConfig).run crowdedRun).step
          (.chmod [47, 119, 104] 0x8180)).1.store.lookup (buildMetaKey [97, 103] 0)
        ≠ ((mount Durable.empty plainConfig).run crowdedRun).store.lookup
          (buildMetaKey [97, 103] 0) := by
    decide +kernel
  have hheld : ∀ i, 0 < ((mount Durable.empty plainConfig).run crowdedRun).store.cache.pins i →
      i ∈ ((mount Durable.empty plainConfig).run crowdedRun).store.cache.lru := by
    intro i hp
    -- the one open file has the only pinned handle
    rcases hr.accounted.open_of_pinned hp with ⟨n, hn, f, hf, rfl⟩ | hd
    · rw [hnext] at hn
      obtain rfl : n = 0 := by omega
      rw [hf] at hfile
      obtain hi := Option.some.inj hfile
      rwa [hi]
    · rw [hdirs] at hd
      cases hd
  have hedits := h crowdedRun _ [47, 119, 104] 0x8180 (buildMetaKey [119, 104] 0) (by decide)
    (by decide +kernel) rfl hheld hk hrec
  exact hlost (hedits.others (buildMetaKey [97, 103] 0) (by decide +kernel)).1

end World

end Tablefs
