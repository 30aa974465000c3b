/-
`InodeCache` (`icache.cpp`): the reference-counted write-back cache of inode
records over the metadata store.

The cache proper is the LRU cache of `Lib/LruCache.lean`; what is added here is
its deleter, `CleanInodeHandle`, which stores or deletes the record when the
last reference to a handle is dropped. A handle's `mode_` says which:
`INODE_WRITE` leaves a pending store, `INODE_DELETE` a pending delete.
-/
import Tablefs.World
import Mathlib.Data.List.Basic

set_option autoImplicit false

namespace Tablefs

open ByteString

/-- `MAX_OPEN_FILES`, the capacity `NewLRUCache` is called with. -/
def MAX_OPEN_FILES : ℕ := 512

/-- The capacity of each of the sixteen shards. -/
def shardCapacity : ℕ := (MAX_OPEN_FILES + 15) / 16

namespace Store

/-! ## The fields of a handle -/

/-- `handle->key_` -/
def keyOf (s : Store) (h : ℕ) : MetaKey := s.cache.key h

/-- `handle->value_` -/
def value (s : Store) (h : ℕ) : Bytes := (s.cache.val h).value_

/-- `handle->mode_` -/
def mode (s : Store) (h : ℕ) : InodeAccessMode := (s.cache.val h).mode_

/-- `handle->mode_ = m` -/
def setMode (s : Store) (h : ℕ) (m : InodeAccessMode) : Store :=
  { s with cache := s.cache.setVal h { s.cache.val h with mode_ := m } }

/-- `handle->value_ = v` -/
def setValue (s : Store) (h : ℕ) (v : Bytes) : Store :=
  { s with cache := s.cache.setVal h { s.cache.val h with value_ := v } }

/-! ### The fields after an assignment -/

theorem setMode_mode_self (s : Store) (i : ℕ) (m : InodeAccessMode) : (s.setMode i m).mode i = m := by
  simp only [mode, setMode, LruCache.setVal_val, Function.update_self]

theorem setMode_mode_of_ne (s : Store) {i j : ℕ} (h : j ≠ i) (m : InodeAccessMode) :
    (s.setMode i m).mode j = s.mode j := by
  simp only [mode, setMode, LruCache.setVal_val, Function.update_of_ne h]

theorem setMode_value (s : Store) (i j : ℕ) (m : InodeAccessMode) :
    (s.setMode i m).value j = s.value j := by
  by_cases h : j = i
  · subst h
    simp only [value, setMode, LruCache.setVal_val, Function.update_self]
  · simp only [value, setMode, LruCache.setVal_val, Function.update_of_ne h]

theorem setMode_keyOf (s : Store) (i j : ℕ) (m : InodeAccessMode) :
    (s.setMode i m).keyOf j = s.keyOf j := rfl

theorem setValue_value_self (s : Store) (i : ℕ) (v : Bytes) : (s.setValue i v).value i = v := by
  simp only [value, setValue, LruCache.setVal_val, Function.update_self]

theorem setValue_value_of_ne (s : Store) {i j : ℕ} (h : j ≠ i) (v : Bytes) :
    (s.setValue i v).value j = s.value j := by
  simp only [value, setValue, LruCache.setVal_val, Function.update_of_ne h]

theorem setValue_mode (s : Store) (i j : ℕ) (v : Bytes) :
    (s.setValue i v).mode j = s.mode j := by
  by_cases h : j = i
  · subst h
    simp only [mode, setValue, LruCache.setVal_val, Function.update_self]
  · simp only [mode, setValue, LruCache.setVal_val, Function.update_of_ne h]

theorem setValue_keyOf (s : Store) (i j : ℕ) (v : Bytes) :
    (s.setValue i v).keyOf j = s.keyOf j := rfl

/-! ## The operations -/

/-- `CleanInodeHandle`, the deleter of the cache. -/
def cleanInodeHandle (s : Store) (h : ℕ) : Store :=
  match s.mode h with
  | .write => (s.dbPut (s.keyOf h) (s.value h)).1
  | .delete => s.dbDelete (s.keyOf h)
  | .read => s

/-- The deleter runs on every entry an operation of the cache freed. -/
def cleanAll (s : Store) (freed : List ℕ) : Store := freed.foldl cleanInodeHandle s

/-- `cache->Insert` of a new handle; returns the handle. -/
def insertHandle (s : Store) (key : MetaKey) (value : Bytes) (mode : InodeAccessMode) :
    Store × ℕ :=
  let r := s.cache.insert cacheShard shardCapacity key ⟨value, mode⟩
  ({ s with cache := r.1 }.cleanAll r.2, s.cache.next)

/-- `InodeCache::Insert` -/
def insert (s : Store) (key : MetaKey) (value : Bytes) : Store × ℕ :=
  s.insertHandle key value .write

/-- `InodeCache::Get` -/
def get (s : Store) (key : MetaKey) (mode : InodeAccessMode) : Store × Option ℕ :=
  match hf : s.cache.find key with
  | none =>
      match s.dbGet key with
      | none => (s, none)
      | some value =>
          let r := s.insertHandle key value mode
          (r.1, some r.2)
  | some h =>
      let s := { s with cache := s.cache.touch h (LruCache.mem_of_find hf) }
      (if mode = .read then s else s.setMode h mode, some h)

/-- `InodeCache::Release` -/
def release (s : Store) (h : ℕ) : Store :=
  let r := s.cache.release h
  { s with cache := r.1 }.cleanAll r.2

/-- `InodeCache::Evict` -/
def evict (s : Store) (key : MetaKey) : Store :=
  let r := s.cache.erase key
  { s with cache := r.1 }.cleanAll r.2

/-- `InodeCache::WriteBack`. The status of the store's write is dropped. -/
def writeBack (s : Store) (h : ℕ) : Store :=
  match s.mode h with
  | .write => (s.dbPut (s.keyOf h) (s.value h)).1.setMode h .read
  | .delete => (s.dbDelete (s.keyOf h)).evict (s.keyOf h)
  | .read => s

/-- What `BatchCommit` does for one handle: the operation it adds to the batch. -/
def batchOne (s : Store) (h : ℕ) : Store × List BatchOp :=
  match s.mode h with
  | .write => (s.setMode h .read, [.put (s.keyOf h).toSlice (s.value h)])
  | .delete => (s.evict (s.keyOf h), [.delete (s.keyOf h).toSlice])
  | .read => (s, [])

/-- `InodeCache::BatchCommit`. The status of the store's write is dropped. -/
def batchCommit (s : Store) (h1 h2 : ℕ) : Store :=
  let r1 := s.batchOne h1
  let r2 := r1.1.batchOne h2
  (r2.1.dbWrite (r1.2 ++ r2.2)).1

/-! ## Store writes and the cache do not touch each other -/

@[simp] theorem tryCommit_cache (s : Store) (e : DbEffect) : (s.tryCommit e).1.cache = s.cache := by
  unfold tryCommit
  split <;> rfl

@[simp] theorem dbPut_cache (s : Store) (k : MetaKey) (v : Bytes) :
    (s.dbPut k v).1.cache = s.cache := tryCommit_cache s _

@[simp] theorem dbDelete_cache (s : Store) (k : MetaKey) : (s.dbDelete k).cache = s.cache := rfl

@[simp] theorem dbWrite_cache (s : Store) (ops : List BatchOp) :
    (s.dbWrite ops).1.cache = s.cache := tryCommit_cache s _

@[simp] theorem dbSync_cache (s : Store) : s.dbSync.1.cache = s.cache := tryCommit_cache s _

@[simp] theorem cleanInodeHandle_cache (s : Store) (h : ℕ) :
    (s.cleanInodeHandle h).cache = s.cache := by
  unfold cleanInodeHandle
  split
  · exact dbPut_cache s _ _
  · rfl
  · rfl

@[simp] theorem cleanAll_cache (s : Store) (freed : List ℕ) :
    (s.cleanAll freed).cache = s.cache := by
  induction freed generalizing s with
  | nil => rfl
  | cons h hs ih => rw [cleanAll, List.foldl_cons, ← cleanAll, ih, cleanInodeHandle_cache]

theorem cleanAll_cons (s : Store) (h : ℕ) (hs : List ℕ) :
    s.cleanAll (h :: hs) = (s.cleanInodeHandle h).cleanAll hs := rfl

@[simp] theorem cleanAll_nil (s : Store) : s.cleanAll [] = s := rfl

/-- An invariant the deleter keeps on each of the freed handles holds after the
deleter ran on all of them. -/
theorem cleanAll_induct {P : Store → Prop} {s : Store} {freed : List ℕ} (h0 : P s)
    (hstep : ∀ s', s'.cache = s.cache → P s' → ∀ h ∈ freed, P (s'.cleanInodeHandle h)) :
    P (s.cleanAll freed) := by
  suffices ∀ s', s'.cache = s.cache → P s' → P (s'.cleanAll freed) from this s rfl h0
  induction freed with
  | nil => exact fun s' _ h => h
  | cons h hs ih =>
      intro s' hc hs'
      rw [cleanAll_cons]
      refine ih (fun s'' hc'' hP h' hh' => hstep s'' hc'' hP h' (List.mem_cons_of_mem _ hh'))
        _ (by rw [cleanInodeHandle_cache, hc]) ?_
      exact hstep s' hc hs' h List.mem_cons_self

/-! ## The metadata map after a write -/

@[simp] theorem setMode_metadb (s : Store) (h : ℕ) (m : InodeAccessMode) :
    (s.setMode h m).metadb = s.metadb := rfl
@[simp] theorem setValue_metadb (s : Store) (h : ℕ) (v : Bytes) :
    (s.setValue h v).metadb = s.metadb := rfl
@[simp] theorem setMode_dbFaults (s : Store) (h : ℕ) (m : InodeAccessMode) :
    (s.setMode h m).dbFaults = s.dbFaults := rfl
@[simp] theorem setValue_dbFaults (s : Store) (h : ℕ) (v : Bytes) :
    (s.setValue h v).dbFaults = s.dbFaults := rfl

theorem tryCommit_ok (s : Store) (e : DbEffect) (hf : s.dbFaults = []) :
    s.tryCommit e = (s.commit e, 0) := by
  rw [tryCommit, hf]

theorem dbPut_ok (s : Store) (k : MetaKey) (v : Bytes) (hf : s.dbFaults = []) :
    s.dbPut k v = (s.commit (.put k.toSlice v), 0) := tryCommit_ok s _ hf

theorem dbWrite_ok (s : Store) (ops : List BatchOp) (hf : s.dbFaults = []) :
    s.dbWrite ops = (s.commit (.batch ops), 0) := tryCommit_ok s _ hf

@[simp] theorem commit_dbFaults (s : Store) (e : DbEffect) :
    (s.commit e).dbFaults = s.dbFaults := rfl

theorem commit_put_dbGet (s : Store) (k k' : MetaKey) (v : Bytes) :
    (s.commit (.put k.toSlice v)).dbGet k' = if k = k' then some v else s.dbGet k' := by
  simp only [dbGet, commit, DbEffect.apply, SortedMap.get_put, MetaKey.toSlice_eq_iff]

theorem dbDelete_dbGet (s : Store) (k k' : MetaKey) :
    (s.dbDelete k).dbGet k' = if k = k' then none else s.dbGet k' := by
  simp only [dbGet, dbDelete, commit, DbEffect.apply, SortedMap.get_delete,
    MetaKey.toSlice_eq_iff]

/-- A fallible put leaves each key with its old value or the new one. -/
theorem dbPut_dbGet (s : Store) (k k' : MetaKey) (v : Bytes) :
    (s.dbPut k v).1.dbGet k' = s.dbGet k' ∨
      k = k' ∧ (s.dbPut k v).1.dbGet k' = some v := by
  have hput : ∀ s' : Store, s'.dbGet k' = s.dbGet k' →
      (s'.commit (.put k.toSlice v)).dbGet k' = s.dbGet k' ∨
        k = k' ∧ (s'.commit (.put k.toSlice v)).dbGet k' = some v := fun s' h => by
    rw [commit_put_dbGet]
    by_cases hk : k = k'
    · exact Or.inr ⟨hk, if_pos hk⟩
    · exact Or.inl (by rw [if_neg hk, h])
  unfold dbPut tryCommit
  split
  · exact Or.inl rfl
  · exact hput _ rfl
  · exact hput _ rfl

/-! ## What `Get` does -/

/-- The value `Get` finds under a key: the cached one, or else the store's. -/
def lookup (s : Store) (k : MetaKey) : Option Bytes :=
  match s.cache.find k with
  | some i => some (s.value i)
  | none => s.dbGet k

/-- Inserting a handle puts it under its key and cleans what that freed. -/
theorem insertHandle_spec (s : Store) (k : MetaKey) (v : Bytes) (m : InodeAccessMode) :
    ∃ c' freed, LruCache.Inserted s.cache k ⟨v, m⟩ c' freed ∧
      s.insertHandle k v m = ({ s with cache := c' }.cleanAll freed, s.cache.next) :=
  ⟨_, _, LruCache.insert_inserted cacheShard shardCapacity s.cache k ⟨v, m⟩, rfl⟩

/-- `Get` found the handle in the table, or put a new one there. -/
theorem get_cases {s s' : Store} {k : MetaKey} {m : InodeAccessMode} {h : ℕ}
    (hg : s.get k m = (s', some h)) :
    (∃ hf : s.cache.find k = some h,
      s' = if m = .read then { s with cache := s.cache.touch h (LruCache.mem_of_find hf) }
        else setMode { s with cache := s.cache.touch h (LruCache.mem_of_find hf) } h m) ∨
    (s.cache.find k = none ∧ ∃ v, s.dbGet k = some v ∧ h = s.cache.next ∧
      s' = (s.insertHandle k v m).1) := by
  unfold get at hg
  split at hg
  · rename_i hf
    cases hdb : s.dbGet k with
    | none => rw [hdb] at hg; simp at hg
    | some v =>
        rw [hdb] at hg
        simp only [Prod.mk.injEq, Option.some.injEq] at hg
        exact Or.inr ⟨hf, v, rfl, hg.2.symm, hg.1.symm⟩
  · rename_i i hf
    simp only [Prod.mk.injEq, Option.some.injEq] at hg
    obtain ⟨hs, rfl⟩ := hg
    exact Or.inl ⟨hf, hs.symm⟩

/-- `Get` found nothing: the key has no entry and no record, and nothing changed. -/
theorem get_none_iff {s s' : Store} {k : MetaKey} {m : InodeAccessMode}
    (hg : s.get k m = (s', none)) : s' = s ∧ s.lookup k = none := by
  unfold get at hg
  split at hg
  · rename_i hf
    cases hdb : s.dbGet k with
    | none =>
        rw [hdb] at hg
        simp only [Prod.mk.injEq] at hg
        exact ⟨hg.1.symm, by rw [lookup, hf]; exact hdb⟩
    | some v => rw [hdb] at hg; simp at hg
  · simp at hg

/-- The handle `Get` returns has the value found under the key. -/
theorem get_lookup {s s' : Store} {k : MetaKey} {m : InodeAccessMode} {h : ℕ}
    (hg : s.get k m = (s', some h)) : s.lookup k = some (s'.value h) := by
  rcases get_cases hg with ⟨hf, rfl⟩ | ⟨hf, v, hv, rfl, rfl⟩
  · rw [lookup, hf]
    by_cases hm : m = .read
    · rw [if_pos hm]; rfl
    · rw [if_neg hm]
      simp only [value, setMode, LruCache.setVal_val, Function.update_self]; rfl
  · obtain ⟨c', freed, hins, he⟩ := s.insertHandle_spec k v m
    rw [lookup, hf]
    dsimp only
    rw [hv, he, value, cleanAll_cache, hins.val, Function.update_self]

/-- The handle `Get` returns is under the key. -/
theorem get_keyOf {s s' : Store} {k : MetaKey} {m : InodeAccessMode} {h : ℕ}
    (hg : s.get k m = (s', some h)) : s'.keyOf h = k := by
  rcases get_cases hg with ⟨hf, rfl⟩ | ⟨hf, v, hv, rfl, rfl⟩
  · have hk : s.cache.key h = k := LruCache.key_of_find hf
    split <;> exact hk
  · obtain ⟨c', freed, hins, he⟩ := s.insertHandle_spec k v m
    rw [he, keyOf, cleanAll_cache, hins.key, Function.update_self]

/-- `Get` adds one reference, to the handle it returns. -/
theorem get_pins {s s' : Store} {k : MetaKey} {m : InodeAccessMode} {h : ℕ}
    (hg : s.get k m = (s', some h)) :
    s'.cache.pins = Function.update s.cache.pins h (s.cache.pins h + 1) := by
  rcases get_cases hg with ⟨hf, rfl⟩ | ⟨hf, v, hv, rfl, rfl⟩
  · split <;> rfl
  · obtain ⟨c', freed, hins, he⟩ := s.insertHandle_spec k v m
    rw [he, cleanAll_cache, hins.pins, s.cache.pins_fresh _ (Nat.le_refl _)]

end Store

end Tablefs
