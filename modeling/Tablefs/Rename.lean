/-
`Rename`.

With no file open and a table that equals the store, `Rename` moves the one record
and changes the store by its one batch, whatever the caches hold (`rename_moves`).
What can come between the table and the store is `ReleaseDir`: a directory that is
removed while it is open, looked at again and then closed leaves its record in the
table and not in the store, and `Rename` finds it there (`rename_of_nothing`).
-/
import Tablefs.Quiet

set_option autoImplicit false

namespace Tablefs

open ByteString

/-! ## What Rename should do -/

/-- From `s` to `t` the record `v` has moved from one key to another under a new
name, and in one write. -/
structure Moved (s t : Store) (old_key new_key : MetaKey) (filename v : Bytes) : Prop where
  /-- the record as it was, but for its name -/
  record : ∃ r r' : InodeRecord, r.value = v ∧ t.dbGet new_key = some r'.value ∧
    r'.name = filename ∧ r'.inline = r.inline ∧
    r'.header = { r.header with namelen := r'.header.namelen }
  gone : t.dbGet old_key = none
  others : ∀ key, key ≠ old_key.toSlice → key ≠ new_key.toSlice →
    t.metadb.get key = s.metadb.get key
  oneWrite : ∃ ops, s.OneWrite (.batch ops) t
  crash : ∃ evs, dbEvents t.log = dbEvents s.log ++ evs ∧ ∀ n,
    (evs.take n).foldl (fun db e => e.apply db) s.metadb = s.metadb ∨
      (evs.take n).foldl (fun db e => e.apply db) s.metadb = t.metadb

/-- `Rename` of paths that lead to two keys moves the record under the first, or
fails without one. -/
def World.RenameMoves (w : World) (old_path new_path : Bytes) : Prop :=
  ∀ old_key new_key, (w.pathLookup old_path).2 = some old_key →
    ((w.pathLookup old_path).1.pathLookup new_path).2 = some new_key → old_key ≠ new_key →
    (∀ v, w.store.dbGet old_key = some v → (w.rename old_path new_path).2 = 0 ∧
      Moved w.store (w.rename old_path new_path).1.store old_key new_key
        (lastComponent new_path) v) ∧
    (w.store.dbGet old_key = none → (w.rename old_path new_path).2 = -ENOENT ∧
      (w.rename old_path new_path).1.store.metadb = w.store.metadb)

/-! ## What it does -/

/-- The store after a put of one key and a delete of another. -/
theorem moveBatch_get (db : MetaDb) {old_key new_key key : Bytes} (v : Bytes)
    (hold : key ≠ old_key) (hnew : key ≠ new_key) :
    ((DbEffect.batch [.delete old_key, .put new_key v]).apply db).get key = db.get key := by
  simp only [DbEffect.apply, List.foldl_cons, List.foldl_nil, BatchOp.apply]
  rw [SortedMap.get_put_of_ne _ _ (Ne.symm hnew), SortedMap.get_delete_of_ne _ (Ne.symm hold)]

theorem moved_of_oneWrite {s t : Store} {old_key new_key : MetaKey} {filename v : Bytes}
    (hv : ∃ r : InodeRecord, r.value = v) (hn : filename.length < 2 ^ 32)
    (hne : old_key ≠ new_key)
    (h : s.OneWrite (.batch [.delete old_key.toSlice,
      .put new_key.toSlice (renameInodeValue v filename)]) t) :
    Moved s t old_key new_key filename v where
  record := by
    obtain ⟨r, rfl⟩ := hv
    refine ⟨r, r.setName filename hn, rfl, ?_, rfl, rfl, rfl⟩
    rw [Store.dbGet, h.1, ← r.renameInodeValue_value filename hn]
    exact SortedMap.get_put_self _ _ _
  gone := by
    rw [Store.dbGet, h.1]
    simp only [DbEffect.apply, List.foldl_cons, List.foldl_nil, BatchOp.apply]
    rw [SortedMap.get_put_of_ne _ _ (fun he => hne (MetaKey.toSlice_inj he).symm),
      SortedMap.get_delete_self]
  others := by
    intro key hold hnew
    rw [h.1]
    exact moveBatch_get _ _ hold hnew
  oneWrite := ⟨_, h⟩
  crash := h.atomic

namespace World

open Store

variable {w : World}

/-- A move performed where the table equals the store. -/
theorem perform_move_exact (ht : w.store.Table (· = ·) fun _ _ => False)
    (hf : w.store.dbFaults = []) {old_key new_key : MetaKey} (hne : old_key ≠ new_key)
    (filename : Bytes) {v : Bytes} (hv : w.store.dbGet old_key = some v) :
    w.store.OneWrite (.batch [.delete old_key.toSlice,
      .put new_key.toSlice (renameInodeValue v filename)])
      (w.perform (.move old_key new_key filename)).store := by
  simp only [perform]
  rcases hg : w.cacheGet old_key .delete with ⟨w', _ | i⟩
  · have := (cacheGet_none hg).2
    rw [ht.lookup_eq, hv] at this
    cases this
  · have hval := cacheGet_lookup hg
    rw [ht.lookup_eq, hv] at hval
    obtain ⟨s, hs, rfl⟩ := cacheGet_some hg
    have hval' : v = s.value i := Option.some.inj hval
    dsimp only
    rw [setDentry_store, renameHandles, setStore_store]
    simp only [setStore_store]
    rw [hval']
    exact move_exact ht hf hs hne _

/-- With no file open and the table equal to the store, `Rename` does what it should. -/
theorem InStep.renameMoves (h : w.InStep) (hfiles : ∀ n, w.files n = none)
    {old_path new_path : Bytes} (hnew : GoodPath new_path) :
    w.RenameMoves old_path new_path := by
  intro old_key new_key ho hn hne
  have ht := h.table_all hfiles
  obtain ⟨w₂, hl, _, hu, hcase⟩ := rename_cases ho hn
  have ht₂ : w₂.store.Table (· = ·) fun _ _ => False := ht.congr hl.metadb hl.cache
  have hget : ∀ k, w₂.store.dbGet k = w.store.dbGet k := fun k => by
    rw [Store.dbGet, hl.metadb]; rfl
  rw [ht.lookup_eq] at hcase
  rw [hnew.filename] at hu
  constructor
  · intro v hv
    rcases hcase with ⟨hnone, _⟩ | ⟨_, hret⟩
    · rw [hv] at hnone; cases hnone
    · refine ⟨hret, ?_⟩
      have hone := perform_move_exact ht₂ (hl.dbFaults.trans h.dbFaults) hne (lastComponent new_path)
        ((hget old_key).trans hv)
      -- the lookup and the locks write nothing
      have hbefore : w.store.Silent w₂.store := .of_eq hl.metadb hl.dbEvents
      obtain ⟨os, log, hlog, hu⟩ := hu
      rw [hu]
      have hlen := hnew.goodName.short
      exact moved_of_oneWrite (h.records.all.db _ _ hv).record (by omega) hne
        (.of_silent hbefore hone (.of_eq rfl hlog))
  · intro hnone
    rcases hcase with ⟨_, hret, hidle⟩ | ⟨hsome, _⟩
    · refine ⟨hret, ?_⟩
      obtain ⟨os, log, _, hu⟩ := hidle
      rw [hu]
      exact hl.metadb
    · exact absurd hnone hsome

/-- In every run whose creators act on absent paths, whose store writes succeed, and
in which no `ReleaseDir` frees a handle with something pending that the table
contradicts: whenever no file is open, `Rename` moves exactly one record, atomically. -/
theorem rename_moves {d : Durable} (hd : d.Records) (cfg : MountConfig) (ops : List Op)
    (hwf : ∀ op ∈ ops, op.WellFormed) (hop : ∀ op ∈ ops, StoreWorks op)
    (hc : (mount d cfg).Meets CreatesAbsent ops) (hk : (mount d cfg).Meets KeepsRecords ops)
    (hfiles : ∀ n, ((mount d cfg).run ops).files n = none) (old_path new_path : Bytes)
    (hnew : GoodPath new_path) : ((mount d cfg).run ops).RenameMoves old_path new_path :=
  ((mount_inStep hd cfg).run hwf hop hc hk).renameMoves hfiles hnew

/-- A file and a directory are made, and the directory is opened and closed. -/
def closedRun : List Op :=
  [.makeNode [47, 97] 0 0, .makeDir [47, 100] 0, .openDir [47, 100], .releaseDir 0]

theorem closedRun_renameMoves :
    ((mount Durable.empty plainConfig).run closedRun).RenameMoves [47, 97] [47, 98] := by
  refine rename_moves empty_records plainConfig closedRun (by decide) (by decide)
    (by decide +kernel) ?_ ?_ [47, 97] [47, 98] (by decide)
  · refine ⟨trivial, trivial, trivial, fun _ _ hn => absurd ?_ hn, trivial⟩
    decide +kernel
  · exact mount_run_files _ _ _ (by decide +kernel)

/-- A directory is removed while it is open, looked at, and closed. -/
def emptiedRun : List Op :=
  [.makeDir [47, 100] 0, .openDir [47, 100], .removeDir [47, 100], .getAttr [47, 100],
    .releaseDir 0]

/-- Then `Rename` succeeds on a path that has no record. -/
theorem rename_of_nothing :
    ¬ ∀ (d : Durable) (cfg : MountConfig) (ops : List Op), d.Records →
      (∀ op ∈ ops, op.WellFormed) → (∀ op ∈ ops, StoreWorks op) →
      (mount d cfg).Meets CreatesAbsent ops → (∀ n, ((mount d cfg).run ops).files n = none) →
      ((mount d cfg).run ops).dirs = [] → ∀ old_path new_path, GoodPath new_path →
        ((mount d cfg).run ops).RenameMoves old_path new_path := by
  intro h
  have hfiles := mount_run_files Durable.empty plainConfig emptiedRun (by decide +kernel)
  have hrun := h Durable.empty plainConfig emptiedRun empty_records (by decide) (by decide)
    (by decide +kernel) hfiles (by decide +kernel) [47, 100] [47, 101] (by decide)
    (buildMetaKey [100] 0) (buildMetaKey [101] 0) (by decide +kernel) (by decide +kernel)
    (by decide +kernel)
  have hret := (hrun.2 (by decide +kernel)).1
  revert hret
  decide +kernel

end World

end Tablefs
