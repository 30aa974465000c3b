/-
The log of the metadata store tells the truth.

Every operation of the inode cache appends its writes to the log and changes the
store by exactly these writes (`Store.Extends`). So along a run the store is the
replay of what the log gained, and what the log's writes put is what can be stored.
-/
import Tablefs.Effect

set_option autoImplicit false

namespace Tablefs

open ByteString

namespace Store

/-- `t` comes from `s` by writes that are in the log. -/
def Extends (s t : Store) : Prop :=
  ∃ evs : List DbEffect, t.log = s.log ++ evs.map Event.db ∧
    t.metadb = evs.foldl (fun db e => e.apply db) s.metadb

theorem dbEvents_map_db (evs : List DbEffect) : dbEvents (evs.map Event.db) = evs := by
  induction evs with
  | nil => rfl
  | cons e evs ih =>
      rw [List.map_cons, show Event.db e :: evs.map Event.db = [Event.db e] ++ evs.map Event.db from
        rfl, dbEvents_append, dbEvents_db, ih]
      rfl

variable {s t u : Store}

theorem Extends.dbEvents (h : s.Extends t) :
    ∃ evs, Tablefs.dbEvents t.log = Tablefs.dbEvents s.log ++ evs ∧
      t.metadb = evs.foldl (fun db e => e.apply db) s.metadb := by
  obtain ⟨evs, hl, hm⟩ := h
  exact ⟨evs, by rw [hl, dbEvents_append, dbEvents_map_db], hm⟩

theorem Extends.of_eq (hl : t.log = s.log) (hm : t.metadb = s.metadb) : s.Extends t :=
  ⟨[], by rw [hl, List.map_nil, List.append_nil], hm⟩

theorem Extends.refl (s : Store) : s.Extends s := .of_eq rfl rfl

theorem Extends.trans (h : s.Extends t) (h' : t.Extends u) : s.Extends u := by
  obtain ⟨evs, hl, hm⟩ := h
  obtain ⟨evs', hl', hm'⟩ := h'
  refine ⟨evs ++ evs', ?_, ?_⟩
  · rw [hl', hl, List.map_append, List.append_assoc]
  · rw [hm', hm, List.foldl_append]

theorem extends_commit (s : Store) (e : DbEffect) : s.Extends (s.commit e) := ⟨[e], rfl, rfl⟩

theorem extends_tryCommit (s : Store) (e : DbEffect) : s.Extends (s.tryCommit e).1 := by
  unfold tryCommit
  split
  · exact .of_eq rfl rfl
  · exact extends_commit { s with dbFaults := _ } e
  · exact extends_commit s e

theorem extends_cleanAll (s : Store) (freed : List ℕ) : s.Extends (s.cleanAll freed) := by
  refine cleanAll_induct (P := fun t => s.Extends t) (Extends.refl s) ?_
  intro t _ ht i _
  refine ht.trans ?_
  unfold cleanInodeHandle
  split
  · exact extends_tryCommit t _
  · exact extends_commit t _
  · exact Extends.refl t

theorem extends_insertHandle (s : Store) (k : MetaKey) (v : Bytes) (m : InodeAccessMode) :
    s.Extends (s.insertHandle k v m).1 :=
  extends_cleanAll { s with cache := (s.cache.insert cacheShard shardCapacity k ⟨v, m⟩).1 } _

theorem extends_release (s : Store) (i : ℕ) : s.Extends (s.release i) :=
  extends_cleanAll { s with cache := (s.cache.release i).1 } _

theorem extends_evict (s : Store) (k : MetaKey) : s.Extends (s.evict k) :=
  extends_cleanAll { s with cache := (s.cache.erase k).1 } _

theorem extends_get {s s' : Store} {k : MetaKey} {m : InodeAccessMode} {i : ℕ}
    (hg : s.get k m = (s', some i)) : s.Extends s' := by
  rcases get_cases hg with ⟨_, rfl⟩ | ⟨_, v, _, _, rfl⟩
  · split <;> exact .of_eq rfl rfl
  · exact extends_insertHandle s k v m

theorem extends_writeBack (s : Store) (i : ℕ) : s.Extends (s.writeBack i) := by
  unfold writeBack
  split
  · exact (extends_tryCommit s _).trans (.of_eq rfl rfl)
  · exact (extends_commit s _).trans (extends_evict _ _)
  · exact Extends.refl s

theorem extends_batchOne (s : Store) (i : ℕ) : s.Extends (s.batchOne i).1 := by
  unfold batchOne
  split
  · exact .of_eq rfl rfl
  · exact extends_evict s _
  · exact Extends.refl s

theorem extends_batchCommit (s : Store) (i j : ℕ) : s.Extends (s.batchCommit i j) :=
  ((extends_batchOne s i).trans (extends_batchOne _ j)).trans (extends_tryCommit _ _)

end Store

namespace World

open Store

theorem extends_renameHandles (w : World) (i : ℕ) (old_key new_key : MetaKey) (filename : Bytes) :
    w.store.Extends (w.renameHandles i old_key new_key filename).store := by
  rw [renameHandles, setStore_store]
  exact ((((extends_insertHandle _ _ _ _).trans (extends_batchCommit _ _ _)).trans
    (extends_release _ _)).trans (extends_release _ _)).trans (extends_evict _ _)

/-- Every effect extends the log by its writes. -/
theorem perform_extends (w : World) (e : Effect) : w.store.Extends (w.perform e).store := by
  have hget : ∀ {k m w' o}, w.cacheGet k m = (w', o) → w.store.Extends w'.store := by
    intro k m w' o hg
    cases o with
    | none => rw [(cacheGet_none hg).1]; exact Extends.refl _
    | some i =>
        obtain ⟨s, hs, rfl⟩ := cacheGet_some hg
        exact extends_get hs
  cases e with
  | touch key mode =>
      simp only [perform]
      rcases hg : w.cacheGet key mode with ⟨w', _ | i⟩
      · exact (hget hg :)
      · exact (hget hg).trans (extends_release _ i)
  | openFile key flags fd =>
      simp only [perform]
      rcases hg : w.cacheGet key (openMode flags) with ⟨w', _ | i⟩ <;> exact (hget hg :)
  | openDir key =>
      simp only [perform]
      rcases hg : w.cacheGet key .read with ⟨w', _ | i⟩ <;> exact (hget hg :)
  | setFd fh fd =>
      simp only [perform]
      cases w.files fh <;> exact Extends.refl _
  | write fh value fd =>
      simp only [perform]
      cases w.files fh <;> exact .of_eq rfl rfl
  | close fh value =>
      simp only [perform]
      cases w.files fh with
      | none => exact Extends.refl _
      | some f =>
          have hv : w.store.Extends (w.store.setValue f.handle_ value) := .of_eq rfl rfl
          exact ((hv.trans (extends_writeBack _ f.handle_)).trans (extends_release _ _)).trans
            (extends_evict _ _)
  | closeDir i => exact extends_release _ i
  | edit key value =>
      simp only [perform]
      rcases hg : w.cacheGet key .write with ⟨w', _ | i⟩
      · exact (hget hg :)
      · have hv : w'.store.Extends (w'.store.setValue i value) := .of_eq rfl rfl
        exact (((hget hg).trans hv).trans (extends_writeBack _ i)).trans (extends_release _ i)
  | create key value => exact extends_tryCommit _ _
  | remove key =>
      simp only [perform]
      rcases hg : w.cacheGet key .delete with ⟨w', _ | i⟩
      · exact (hget hg :)
      · exact ((hget hg).trans (extends_release _ i)).trans (extends_evict _ key)
  | move old_key new_key filename =>
      simp only [perform]
      rcases hg : w.cacheGet old_key .delete with ⟨w', _ | i⟩
      · exact (hget hg :)
      · exact (hget hg).trans (extends_renameHandles w' i old_key new_key filename)
  | evict key => exact extends_evict _ key
  | sync => exact extends_tryCommit _ _
  | idle | setEnv => exact Extends.refl _
  | setFaults => exact .of_eq rfl rfl

/-- Along a call the store changes by the writes that the log gains. -/
theorem step_dbEvents (w : World) (op : Op) :
    ∃ evs, dbEvents (w.step op).1.store.log = dbEvents w.store.log ++ evs ∧
      (w.step op).1.store.metadb = evs.foldl (fun db e => e.apply db) w.store.metadb := by
  obtain ⟨w₁, e, hl, _, _, os, log, hlog, hu⟩ := w.step_steps op
  obtain ⟨evs, he, hm⟩ := (w₁.perform_extends e).dbEvents
  refine ⟨evs, ?_, ?_⟩
  · rw [hu, ← hl.dbEvents, ← he]
    exact hlog
  · rw [hu, ← hl.metadb]
    exact hm

end World

end Tablefs
