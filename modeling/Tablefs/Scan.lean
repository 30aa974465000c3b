/-
What `ReadDir` reads of the store.

The loop looks at the key of one entry past the directory's own before it stops. All keys
but one are those of records, 16 bytes long. The one is the four bytes `sync` that `Fsync`
leaves behind, and a loop that ends there reads the eight bytes of an inode number from it.
Whether it does depends on what else is stored between the directory and that key
(`scan_reads_records_iff`).
-/
import Tablefs.Listing

set_option autoImplicit false

namespace Tablefs

open ByteString World

/-! ## The loop -/

/-- The loop of `ReadDir` on the entries from the iterator's position: the keys that
`IsKeyInDir` is evaluated on, and the values whose names go to the filler. -/
def scan (filler : ℕ → Bool) (dirkey : MetaKey) :
    ℕ → List (Bytes × Bytes) → List Bytes × List Bytes
  | _, [] => ([], [])
  | n, e :: es =>
      if isKeyInDir e.1 dirkey then
        if filler n then
          (e.1 :: (scan filler dirkey (n + 1) es).1, e.2 :: (scan filler dirkey (n + 1) es).2)
        else ([e.1], [e.2])
      else ([e.1], [])

namespace World

/-- What `ReadDir` reads: nothing when the filler refuses `.` or `..`. -/
def readDirReads (w : World) (handle : ℕ) (filler : ℕ → Bool) : List Bytes × List Bytes :=
  let dirkey := childKey (getAttribute (w.store.value handle)).st_ino
  if filler 0 && filler 1 then scan filler dirkey 2 (w.store.metadb.seek dirkey.toSlice)
  else ([], [])

end World

/-- An entry whose key is looked at is one of the directory, or the first that is not. -/
theorem mem_scan_keys {filler : ℕ → Bool} {dirkey : MetaKey} {n : ℕ} {es : List (Bytes × Bytes)}
    {key : Bytes} (h : key ∈ (scan filler dirkey n es).1) :
    isKeyInDir key dirkey = true ∨
      ∃ v, es.find? (fun e => !isKeyInDir e.1 dirkey) = some (key, v) := by
  induction es generalizing n with
  | nil => simp [scan] at h
  | cons e es ih =>
      rw [scan] at h
      by_cases hin : isKeyInDir e.1 dirkey = true
      · rw [List.find?_cons_of_neg (by simp [hin])]
        rw [if_pos hin] at h
        split at h
        · rcases List.mem_cons.mp h with rfl | h
          · exact Or.inl hin
          · exact ih h
        · rw [List.mem_singleton.mp h]
          exact Or.inl hin
      · rw [if_neg hin, List.mem_singleton] at h
        rw [List.find?_cons_of_pos (by simpa using hin), h]
        exact Or.inr ⟨e.2, rfl⟩

/-- A filler that refuses nothing lets the loop come to the first key that is not in the
directory. -/
theorem find?_mem_scan_keys {dirkey : MetaKey} {es : List (Bytes × Bytes)} {e : Bytes × Bytes}
    (h : es.find? (fun e => !isKeyInDir e.1 dirkey) = some e) (n : ℕ) :
    e.1 ∈ (scan (fun _ => true) dirkey n es).1 := by
  induction es generalizing n with
  | nil => cases h
  | cons f es ih =>
      rw [scan]
      by_cases hin : isKeyInDir f.1 dirkey = true
      · rw [List.find?_cons_of_neg (by simp [hin])] at h
        rw [if_pos hin, if_pos rfl]
        exact List.mem_cons_of_mem _ (ih h (n + 1))
      · rw [List.find?_cons_of_pos (by simpa using hin)] at h
        rw [if_neg hin, ← Option.some.inj h]
        exact List.mem_singleton_self _

/-- The values are those of the directory's entries. -/
theorem mem_scan_values {filler : ℕ → Bool} {dirkey : MetaKey} {n : ℕ}
    {es : List (Bytes × Bytes)} {v : Bytes} (h : v ∈ (scan filler dirkey n es).2) :
    ∃ e ∈ es.takeWhile fun e => isKeyInDir e.1 dirkey, e.2 = v := by
  induction es generalizing n with
  | nil => simp [scan] at h
  | cons e es ih =>
      rw [scan] at h
      by_cases hin : isKeyInDir e.1 dirkey = true
      · rw [List.takeWhile_cons, if_pos hin]
        rw [if_pos hin] at h
        split at h
        · rcases List.mem_cons.mp h with rfl | h
          · exact ⟨e, List.mem_cons_self, rfl⟩
          · obtain ⟨f, hf, hv⟩ := ih h
            exact ⟨f, List.mem_cons_of_mem e hf, hv⟩
        · exact ⟨e, List.mem_cons_self, (List.mem_singleton.mp h).symm⟩
      · rw [if_neg hin] at h
        simp at h

/-- The names that the filler takes are those of the values it is called with, but for the
last one, which it may refuse. -/
theorem fillNames_prefix_scan (filler : ℕ → Bool) (dirkey : MetaKey) (n : ℕ)
    (es : List (Bytes × Bytes)) :
    (fillNames filler n ((es.takeWhile fun e => isKeyInDir e.1 dirkey).map fun e => nameOf e.2)).1
      <+: (scan filler dirkey n es).2.map nameOf := by
  induction es generalizing n with
  | nil => exact List.prefix_rfl
  | cons e es ih =>
      rw [scan]
      by_cases hin : isKeyInDir e.1 dirkey = true
      · rw [List.takeWhile_cons, if_pos hin, if_pos hin, List.map_cons, fillNames]
        by_cases hf : filler n = true
        · rw [if_pos hf, if_pos hf, List.map_cons]
          exact (List.prefix_cons_inj _).mpr (ih (n + 1))
        · rw [if_neg hf, if_neg hf]
          exact List.nil_prefix
      · rw [List.takeWhile_cons, if_neg hin, if_neg hin]
        exact List.prefix_rfl

/-! ## What should hold -/

/-- A value that `ReadDir` can take a name from: a header, and a NUL behind it. -/
def HasName (v : Bytes) : Prop :=
  TFS_INODE_HEADER_SIZE + 1 ≤ v.length ∧ ∃ i, TFS_INODE_HEADER_SIZE ≤ i ∧ v[i]? = some 0

namespace World

variable {w : World}

/-- Whatever the filler does, the keys looked at hold an inode number and the values a name. -/
structure ReadsRecords (w : World) (handle : ℕ) : Prop where
  keys : ∀ filler : ℕ → Bool, ∀ key ∈ (w.readDirReads handle filler).1, 8 ≤ key.length
  values : ∀ filler : ℕ → Bool, ∀ v ∈ (w.readDirReads handle filler).2, HasName v

/-- The key `sync` is not the one that ends the loop on the directory: it is not stored, or it
is below the directory, or a record of another directory is stored between them. -/
def SyncOutOfReach (w : World) (inode : UInt64) : Prop :=
  w.store.metadb.get syncKey = none ∨ syncKey < (childKey inode).toSlice ∨
    ∃ k, w.store.dbGet k ≠ none ∧ k.inode_id ≠ inode ∧
      ¬ k.toSlice < (childKey inode).toSlice ∧ k.toSlice < syncKey

end World

theorem RecordIs.hasName {k : MetaKey} {v : Bytes} (h : RecordIs Named k v) :
    HasName v :=
  have hl := h.listable
  ⟨by have := hl.long; omega, _, by omega, hl.nul⟩

namespace World

variable {w : World}

/-- What `ReadDir` looks at is stored. -/
theorem mem_readDirReads_keys {handle : ℕ} {filler : ℕ → Bool} {key : Bytes}
    (h : key ∈ (w.readDirReads handle filler).1) :
    isKeyInDir key (childKey (inoOf (w.store.value handle))) = true ∨
      ∃ v, (w.store.metadb.seek (childKey (inoOf (w.store.value handle))).toSlice).find?
        (fun e => !isKeyInDir e.1 (childKey (inoOf (w.store.value handle)))) = some (key, v) := by
  unfold readDirReads at h
  dsimp only at h
  split at h
  · exact mem_scan_keys h
  · simp at h

theorem mem_readDirReads_values {handle : ℕ} {filler : ℕ → Bool} {v : Bytes}
    (h : v ∈ (w.readDirReads handle filler).2) :
    ∃ e ∈ w.dirEntries (inoOf (w.store.value handle)), e.2 = v := by
  unfold readDirReads at h
  dsimp only at h
  split at h
  · exact mem_scan_values h
  · simp at h

/-- The loop ends at the key `sync` exactly if that is stored, is not below the directory, and
no record of another directory comes first. -/
theorem find?_sync_iff (hr : w.store.Records) (inode : UInt64) :
    (∃ v, (w.store.metadb.seek (childKey inode).toSlice).find?
        (fun e => !isKeyInDir e.1 (childKey inode)) = some (syncKey, v)) ↔
      ¬ w.SyncOutOfReach inode := by
  have hsync : isKeyInDir syncKey (childKey inode) = false := by simp [isKeyInDir, syncKey]
  have hchild : (childKey inode).inode_id = inode := rfl
  simp only [SortedMap.find?_seek_eq_some, SyncOutOfReach, not_or, not_exists, not_and]
  constructor
  · rintro ⟨v, ⟨hv, hge, -⟩, hmin⟩
    have hget := (SortedMap.mem_entries_iff _ _ _).mp hv
    refine ⟨by rw [hget]; exact Option.some_ne_none v, hge, ?_⟩
    intro k hk hino hk' hlt
    obtain ⟨v', hv'⟩ := Option.ne_none_iff_exists'.mp hk
    refine hmin (k.toSlice, v') ((SortedMap.mem_entries_iff _ _ _).mpr hv') hk' ?_ hlt
    rw [Bool.not_eq_true', ← Bool.not_eq_true, MetaKey.isKeyInDir_toSlice, hchild]
    exact hino
  · rintro ⟨hstored, hge, hno⟩
    obtain ⟨v, hv⟩ := Option.ne_none_iff_exists'.mp hstored
    refine ⟨v, ⟨(SortedMap.mem_entries_iff _ _ _).mpr hv, hge, by rw [hsync]; rfl⟩, ?_⟩
    intro f hf hf' hnot hlt
    -- what is stored is the record of some key, or `sync` itself
    rcases hr.keyed f.1 f.2 ((SortedMap.mem_entries_iff _ _ _).mp hf) with hs | ⟨k, hk, -⟩
    · rw [hs] at hlt
      exact lt_irrefl _ hlt
    · have hget := (SortedMap.mem_entries_iff _ _ _).mp hf
      rw [hk] at hget hf' hlt
      rw [hk, Bool.not_eq_true', ← Bool.not_eq_true, MetaKey.isKeyInDir_toSlice, hchild] at hnot
      have hstored : w.store.dbGet k ≠ none := fun h0 => Option.some_ne_none _ (hget.symm.trans h0)
      exact hno k hstored hnot hf' hlt

/-- In every reachable state, `ReadDir` on a handle reads records only exactly if its loop does
not come to the key `sync`. -/
theorem scan_reads_records_iff (h : w.Reachable) (handle : ℕ) :
    w.ReadsRecords handle ↔ w.SyncOutOfReach (inoOf (w.store.value handle)) := by
  have hfind := find?_sync_iff h.records (inoOf (w.store.value handle))
  constructor
  · intro hreads
    by_contra hreach
    obtain ⟨v, hv⟩ := hfind.mpr hreach
    have hlen := hreads.keys (fun _ => true) syncKey (find?_mem_scan_keys hv 2)
    exact absurd hlen (by decide)
  · intro hout
    constructor
    · intro filler key hkey
      rcases mem_readDirReads_keys hkey with hin | ⟨v, hv⟩
      · obtain ⟨rest, rfl⟩ := isKeyInDir_iff.mp hin
        rw [List.length_append, length_leBytes]
        omega
      · have hmem := (SortedMap.find?_seek_eq_some _ _).mp hv
        rcases h.records.keyed key v ((SortedMap.mem_entries_iff _ _ _).mp hmem.1.1) with
          rfl | ⟨k, rfl, -⟩
        · exact absurd hout (hfind.mp ⟨v, hv⟩)
        · rw [k.length_toSlice]
          omega
    · intro filler v hv
      obtain ⟨e, he, rfl⟩ := mem_readDirReads_values hv
      exact (h.records.all.db _ _ (dirEntries_resolve h.records he)).hasName

theorem filledRun_scan : ((mount Durable.empty plainConfig).run filledRun).ReadsRecords 0 :=
  (scan_reads_records_iff ((Reachable.mount empty_records plainConfig).run (by decide)) 0).mpr
    (Or.inl (by decide +kernel))

/-- A file is made, opened for writing and synced, and the root is opened. -/
def syncedRun : List Op :=
  [.makeNode [47, 97] 0 0, .openFile [47, 97] O_RDWR, .fsync 0 false, .openDir [47]]

/-- The root's entries are the only ones below `sync`. -/
theorem scan_reads_sync : ¬ ∀ (w : World) (handle : ℕ), w.Reachable → handle ∈ w.dirs →
    w.ReadsRecords handle := by
  intro hall
  have hr : ((mount Durable.empty plainConfig).run syncedRun).Reachable :=
    (Reachable.mount empty_records plainConfig).run (by decide)
  have hreads := hall _ 1 hr (by decide +kernel)
  exact absurd (hreads.keys (fun _ => true) syncKey (by decide +kernel)) (by decide)

end World

end Tablefs
