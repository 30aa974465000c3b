/-
Names that alias.

No operation compares the name in a record with the one it was asked for: a name is its
`murmur64`. Two names of 16 bytes can have the same one, and then either of them stands for
the record of the other (`names_alias`). Names of different hashes do not meet: the calls
that change the name space work on the keys their paths lead to, in the caches, in the store
and, for `Unlink`, on one disk file, and leave everything else alone (`names_apart`).
-/
import Tablefs.Answers
import Tablefs.Tree

set_option autoImplicit false

namespace Tablefs

open ByteString

/-- The paths of a call that changes the name space. -/
def Op.namePaths : Op → List Bytes
  | .makeNode path _ _ | .makeDir path _ | .symlink _ path | .unlink path | .removeDir path =>
      [path]
  | .rename old_path new_path => [old_path, new_path]
  | _ => []

namespace World

open Store

variable {w w' : World} {key : MetaKey} {path : Bytes} {op : Op}

/-! ## A walk that passes what has changed by -/

/-- One component, in a cache that agrees with `ino` on its key. -/
theorem findEntry_agrees {ino : MetaKey → Option UInt64} (hino : w.store.ino key = ino key)
    (hc : ∀ i, w.dentry_cache.peek key = some i → ino key = some i) :
    (w.findEntry key).2 = ino key ∧
      ∀ k i, (w.findEntry key).1.dentry_cache.peek k = some i →
        w.dentry_cache.peek k = some i ∨ k = key ∧ ino key = some i := by
  have hbump : ∀ k i, (w.dentry_cache.find key).1.peek k = some i →
      w.dentry_cache.peek k = some i := by
    intro k i hk
    rwa [DentryCache.peek_find] at hk
  unfold findEntry
  dsimp only
  rw [DentryCache.find_snd]
  cases hp : w.dentry_cache.peek key with
  | some i => exact ⟨(hc i hp).symm, fun k j hk => Or.inl (hbump k j hk)⟩
  | none =>
      dsimp only
      split
      · rename_i result hdb
        -- the answer comes from the store, and goes into the cache
        have hres : ino key = some (inoOf result) := by
          rw [← hino, Store.ino, show w.store.dbGet key = some result from hdb]
          rfl
        refine ⟨hres.symm, fun k i hk => ?_⟩
        rcases DentryCache.peek_of_peek_insert hk with ⟨rfl, rfl⟩ | ⟨_, hk⟩
        · exact Or.inr ⟨rfl, hres⟩
        · exact Or.inl (hbump k i hk)
      · rename_i hdb
        refine ⟨?_, fun k i hk => Or.inl (hbump k i hk)⟩
        rw [← hino, Store.ino, show w.store.dbGet key = none from hdb]
        rfl

/-- A walk depends on the records and the cached numbers of the keys it passes. -/
theorem walk_agrees {ino : MetaKey → Option UInt64} (items : List Bytes) (key : MetaKey)
    (inode : UInt64) (hino : ∀ k ∈ walkKeys ino inode items, w.store.ino k = ino k)
    (hc : ∀ k ∈ walkKeys ino inode items, ∀ i, w.dentry_cache.peek k = some i → ino k = some i) :
    (w.walk key inode items).2 = resolveWalk ino key inode items := by
  induction items generalizing w key inode with
  | nil => rfl
  | cons item items ih =>
      have hmem : buildMetaKey item inode ∈ walkKeys ino inode (item :: items) :=
        List.mem_cons_self
      obtain ⟨hres, hpeek⟩ := findEntry_agrees (hino _ hmem) (hc _ hmem)
      have hstore := (w.findEntry_looked (buildMetaKey item inode)).ino
      rw [walk, resolveWalk, ← hres]
      rcases hf : w.findEntry (buildMetaKey item inode) with ⟨w₁, _ | i⟩ <;>
        rw [hf] at hres hpeek hstore
      · rfl
      · have hrest : ∀ k ∈ walkKeys ino i items, k ∈ walkKeys ino inode (item :: items) := by
          intro k hk
          refine List.mem_cons_of_mem _ ?_
          rwa [← hres]
        refine ih _ i (fun k hk => ?_) fun k hk j hj => ?_
        · rw [hstore]
          exact hino k (hrest k hk)
        · rcases hpeek k j hj with h | ⟨rfl, h⟩
          · exact hc k (hrest k hk) j h
          · exact h

/-- A path leads to the same key when the directories on its way are as they were. -/
theorem pathLookup_agrees (hd : w.DentryCoherent)
    (hino : ∀ k ∈ w.store.dirKeys path, w'.store.ino k = w.store.ino k)
    (hc : ∀ k ∈ w.store.dirKeys path, ∀ i, w'.dentry_cache.peek k = some i →
      w.store.ino k = some i) : (w'.pathLookup path).2 = (w.pathLookup path).2 := by
  have hwalk := walk_agrees (components path).dropLast rootKey ROOT_INODE_ID hino hc
  rw [(pathLookup_eq hd path).1, resolve, ← hwalk, pathLookup, parentPathLookup]
  rcases w'.walk rootKey ROOT_INODE_ID (components path).dropLast with ⟨w₁, _ | p⟩
  · rfl
  · rfl

/-! ## What the calls leave alone -/

/-- The keys a call that changes the name space works on. -/
def callKeys (w : World) (op : Op) : List MetaKey :=
  op.namePaths.filterMap fun path => (w.pathLookup path).2

theorem mem_callKeys (hp : path ∈ op.namePaths) (hk : (w.pathLookup path).2 = some key) :
    key ∈ w.callKeys op := List.mem_filterMap.mpr ⟨path, hp, hk⟩

/-- What the caches and the store say of a key is the same in both states, and the dentry cache
says nothing else of it. -/
structure SameAt (w w' : World) (k : MetaKey) : Prop where
  dbGet : w'.store.dbGet k = w.store.dbGet k
  lookup : w'.store.lookup k = w.store.lookup k
  dentry : ∀ i, w'.dentry_cache.peek k = some i → w.store.ino k = some i

theorem UpToData.sameAt {w₁ : World} (hu : w₁.UpToData w') {k : MetaKey} (h : w.SameAt w₁ k) :
    w.SameAt w' k := by
  obtain ⟨os, log, _, rfl⟩ := hu
  exact ⟨h.dbGet, (lookup_congr rfl rfl k).trans h.lookup, h.dentry⟩

theorem Looked.sameAt {w₁ : World} (hl : w.Looked w₁) (hd : w₁.DentryCoherent) (k : MetaKey) :
    w.SameAt w₁ k where
  dbGet := hl.dbGet k
  lookup := congrFun hl.lookup k
  dentry := fun i hi => by rw [← hl.ino]; exact hd k i hi

/-- A record is stored, and the caches are not told. -/
theorem sameAt_create (hf : w.store.dbFaults = []) {w₁ : World} (hl : w.Looked w₁)
    (hd : w₁.DentryCoherent) {k : MetaKey} (hne : key ≠ k) (value : Bytes) :
    w.SameAt (w₁.perform (.create key value)) k := by
  have hdb : (w₁.perform (.create key value)).store.dbGet k = w₁.store.dbGet k := by
    rw [perform_create_dbGet (hl.dbFaults.trans hf), if_neg hne]
  have hcache : (w₁.perform (.create key value)).store.cache = w₁.store.cache :=
    dbPut_cache _ _ _
  have hl₁ := hl.sameAt hd k
  refine ⟨hdb.trans hl₁.dbGet, Eq.trans ?_ hl₁.lookup, hl₁.dentry⟩
  refine lookup_congr_off (fun j => by rw [hcache]) (fun j _ => keyOf_congr hcache j)
    (fun j _ _ => value_congr hcache j) hdb

/-- After a call that leaves both caches in step with the store, they say the same of a key
whose record is the same. -/
theorem Closed.sameAt_of_dbGet (h : w.Closed) (hwf : op.WellFormed) (hop : StoreWorks op)
    (hc : w.CreatesAbsent op) (hk : w.KeepsRecords op) (hkd : w.KeepsDentry op)
    (hfiles : (w.next op).files = w.files) {k : MetaKey}
    (hdb : (w.next op).store.dbGet k = w.store.dbGet k) : w.SameAt (w.next op) k := by
  have ht := (h.inStep.step hwf hop hc hk).table_all fun n => by rw [hfiles]; exact h.files n
  have hd := (h.dentry.step hwf hc hkd).dentry
  refine ⟨hdb, ?_, fun i hi => ?_⟩
  · rw [ht.lookup_eq, h.table.lookup_eq, hdb]
  · have hino := hd k i hi
    rwa [Store.ino, hdb] at hino

/-- A move leaves the records under other keys. -/
theorem perform_move_dbGet_of_ne (ht : w.store.Table (· = ·) fun _ _ => False)
    (hf : w.store.dbFaults = []) (hp : ∀ i, w.store.cache.pins i = 0) {old_key new_key : MetaKey}
    (filename : Bytes) {k : MetaKey} (ho : old_key ≠ k) (hn : new_key ≠ k) :
    (w.perform (.move old_key new_key filename)).store.dbGet k = w.store.dbGet k := by
  cases hv : w.store.dbGet old_key with
  | none => rw [perform_move_none_dbGet ht hv]
  | some v =>
      by_cases hne : old_key = new_key
      · subst hne
        rw [perform_move_self_dbGet ht hf hp old_key filename hv, if_neg ho]
      · rw [perform_move_dbGet ht hf hne filename hv, if_neg hn, if_neg ho]

/-- A call that changes the name space leaves a key alone that its paths do not lead to. -/
theorem Closed.sameAt (h : w.Closed) (hop : op.namePaths ≠ []) (hwf : op.WellFormed)
    {k : MetaKey} (hk : k ∉ w.callKeys op) : w.SameAt (w.next op) k := by
  obtain ⟨w₁, e, hl, hcoh, hp, hu⟩ := w.step_steps op
  have hd := hcoh h.dentry.dentry
  have hf := h.inStep.dbFaults
  have ht₁ := h.table.congr hl.metadb hl.cache
  have hp₁ : ∀ i, w₁.store.cache.pins i = 0 := fun i => by rw [hl.cache]; exact h.pins i
  have hne : ∀ {path key}, path ∈ op.namePaths → (w.pathLookup path).2 = some key → key ≠ k := by
    rintro path key hpath hkey rfl
    exact hk (mem_callKeys hpath hkey)
  have hnext : w.next op = (w.step op).1 := rfl
  cases hp with
  | idle => exact hu.sameAt (hl.sameAt hd k)
  | makeNode hk' | makeDir hk' | symlink hk' =>
      exact hu.sameAt (sameAt_create hf hl hd (hne List.mem_cons_self hk') _)
  | unlink hk' | removeDir hk' =>
      refine h.sameAt_of_dbGet hwf trivial trivial trivial trivial ?_ ?_
      · rw [hnext, hu.files, (perform_remove_opens w₁ _).1, hl.files]
      · rw [hnext, hu.dbGet, perform_remove_dbGet ht₁ hp₁, if_neg (hne List.mem_cons_self hk'),
          hl.dbGet]
  | rename ho hn =>
      rename_i old_path new_path old_key new_key
      have hn' : (w.pathLookup new_path).2 = some new_key := by
        rwa [(pathLookup_eq (pathLookup_eq h.dentry.dentry _).2 _).1,
          (w.pathLookup_looked _).ino, ← (pathLookup_eq h.dentry.dentry _).1] at hn
      refine h.sameAt_of_dbGet hwf trivial trivial trivial hf ?_ ?_
      · rw [hnext, hu.files, perform_files_of_move, hl.files]
      · rw [hnext, hu.dbGet, perform_move_dbGet_of_ne ht₁ (hl.dbFaults.trans hf) hp₁ _
          (hne List.mem_cons_self ho) (hne (List.mem_cons_of_mem _ List.mem_cons_self) hn'),
          hl.dbGet]
  | _ => exact absurd rfl hop

/-! ## The disk files -/

/-- The call leaves the disk file at `p` alone: `Unlink` is of a record with another disk file,
and the subdirectory that a new number may need is there for `p` already. -/
def SparesFile (w : World) (p : BlobPath) : Op → Prop
  | .makeNode _ _ _ | .makeDir _ _ | .symlink _ _ => w.os.disk.subdirs p.1 = true
  | .unlink path => ∀ key ∈ (w.pathLookup path).2, ∀ v ∈ w.store.dbGet key,
      getDiskFilePath (inoOf v) ≠ p
  | _ => True

theorem Looked.sameFile {w₁ : World} (hl : w.Looked w₁) (p : BlobPath) :
    SameFile p w.os w₁.os := by
  obtain ⟨_, _, _, _, rfl⟩ := hl
  exact .of_eq rfl rfl rfl rfl

/-- A new number may need a new subdirectory. -/
theorem newInode_sameFile {p : BlobPath} (hsub : w.os.disk.subdirs p.1 = true) :
    SameFile p w.os w.newInode.1.os := by
  unfold newInode
  dsimp only
  split
  · refine ⟨rfl, ?_, rfl, rfl, rfl, rfl, rfl⟩
    simp only [World.commit, DiskEffect.apply]
    rw [Function.update_apply, hsub, ite_self]
  · exact .of_eq rfl rfl rfl rfl

theorem makeInode_sameFile {p : BlobPath} (hsub : w.os.disk.subdirs p.1 = true) (path : Bytes)
    (mode : UInt32) (dev : UInt64) : SameFile p w.os (w.makeInode path mode dev).1.os := by
  have hl := w.pathLookup_looked path
  rw [makeInode]
  rcases hq : w.pathLookup path with ⟨w₁, _ | key⟩ <;> rw [hq] at hl
  · exact hl.sameFile p
  · have hs := (hl.sameFile p).trans (newInode_sameFile ((hl.sameFile p).subdir.trans hsub))
    dsimp only
    split
    · exact hs
    · exact ⟨hs.names, hs.subdir, hs.content, hs.nextFile, hs.fds, hs.fdBound, hs.ioFaults⟩

theorem symlink_sameFile {p : BlobPath} (hsub : w.os.disk.subdirs p.1 = true)
    (target path : Bytes) : SameFile p w.os (w.symlink target path).1.os := by
  have hl := w.pathLookup_looked path
  rw [symlink]
  rcases hq : w.pathLookup path with ⟨w₁, _ | key⟩ <;> rw [hq] at hl
  · exact hl.sameFile p
  · exact (hl.sameFile p).trans (newInode_sameFile ((hl.sameFile p).subdir.trans hsub))

theorem sysUnlink_sameFile (w : World) {p q : BlobPath} (hne : p ≠ q) :
    SameFile p w.os (w.sysUnlink q).os := by
  unfold sysUnlink
  split
  · exact .of_eq rfl rfl rfl rfl
  · refine ⟨?_, rfl, rfl, rfl, rfl, rfl, rfl⟩
    simp only [World.commit, DiskEffect.apply]
    rw [Function.update_of_ne hne]

/-- `Unlink` removes one disk file at most. -/
theorem unlink_sameFile {p : BlobPath} (path : Bytes)
    (hp : ∀ key ∈ (w.pathLookup path).2, ∀ v ∈ w.store.lookup key,
      getDiskFilePath (inoOf v) ≠ p) : SameFile p w.os (w.unlink path).1.os := by
  have hl := w.pathLookup_looked path
  rw [unlink]
  rcases hq : w.pathLookup path with ⟨w₁, _ | key⟩ <;> rw [hq] at hl hp
  · exact hl.sameFile p
  · dsimp only
    rcases hg : (w₁.writeLock key).cacheGet key .delete with ⟨w', _ | i⟩
    · rw [(cacheGet_none hg).1]
      exact (hl.sameFile p).trans (.of_eq rfl rfl rfl rfl)
    · have hval := cacheGet_lookup hg
      rw [(hl.trans (looked_writeLock w₁ key)).lookup] at hval
      have hne := hp key rfl _ hval
      obtain ⟨s, _, rfl⟩ := cacheGet_some hg
      have hs : SameFile p w.os ((w₁.writeLock key).setStore s).os := hl.sameFile p
      have hino : inoOf (s.value i)
          = (((w₁.writeLock key).setStore s).iheader i).fstat.st_ino := rfl
      rw [setStore_store, hino] at hne
      dsimp only
      split
      · exact hs.trans (sysUnlink_sameFile _ (Ne.symm hne))
      · exact hs

theorem removeDir_sameFile (w : World) (path : Bytes) (p : BlobPath) :
    SameFile p w.os (w.removeDir path).1.os := by
  have hl := w.pathLookup_looked path
  rw [removeDir]
  rcases hq : w.pathLookup path with ⟨w₁, _ | key⟩ <;> rw [hq] at hl
  · exact hl.sameFile p
  · dsimp only
    rcases hg : (w₁.writeLock key).cacheGet key .delete with ⟨w', _ | i⟩
    · rw [(cacheGet_none hg).1]
      exact hl.sameFile p
    · obtain ⟨s, _, rfl⟩ := cacheGet_some hg
      exact hl.sameFile p

theorem renameHandles_os (w : World) (i : ℕ) (k k' : MetaKey) (n : Bytes) :
    (w.renameHandles i k k' n).os = w.os := by
  rw [renameHandles, setStore_os]

theorem rename_sameFile (w : World) (old_path new_path : Bytes) (p : BlobPath) :
    SameFile p w.os (w.rename old_path new_path).1.os := by
  have hl := w.pathLookup_looked old_path
  have hl' := (w.pathLookup old_path).1.pathLookup_looked new_path
  rw [rename]
  rcases hq : w.pathLookup old_path with ⟨w₁, _ | old_key⟩ <;> rw [hq] at hl hl'
  · exact hl.sameFile p
  · dsimp only
    rcases hq' : w₁.pathLookup new_path with ⟨w₂, _ | new_key⟩ <;> rw [hq'] at hl'
    · exact (hl.trans hl').sameFile p
    · dsimp only
      generalize lockOrder old_key new_key = locks
      rcases hg : ((w₂.writeLock locks.1).writeLock locks.2).cacheGet old_key .delete with
        ⟨w', _ | i⟩
      · rw [(cacheGet_none hg).1]
        exact (hl.trans hl').sameFile p
      · obtain ⟨s, _, rfl⟩ := cacheGet_some hg
        have hos := renameHandles_os (((w₂.writeLock locks.1).writeLock locks.2).setStore s) i
          old_key new_key (filenameOf new_path)
        dsimp only
        rw [unlock_os, unlock_os, setDentry_os, hos]
        exact (hl.trans hl').sameFile p

theorem Closed.sameFile (h : w.Closed) (hop : op.namePaths ≠ []) {p : BlobPath}
    (hp : w.SparesFile p op) : SameFile p w.os (w.next op).os := by
  cases op with
  | makeNode | makeDir => exact makeInode_sameFile hp _ _ _
  | symlink => exact symlink_sameFile hp _ _
  | unlink =>
      refine unlink_sameFile _ fun key hk v hv => hp key hk v ?_
      rwa [h.table.lookup_eq] at hv
  | removeDir => exact w.removeDir_sameFile _ p
  | rename => exact w.rename_sameFile _ _ p
  | _ => exact absurd rfl hop

/-! ## Two names of a directory -/

/-- Paths of two names in one directory lead to keys of the same number. -/
theorem Closed.sibling (h : w.Closed) {dir : List Bytes} {name : Bytes} (hn : name ≠ [])
    (hdelim : ∀ c ∈ dir ++ [name], PATH_DELIMITER ∉ c) :
    (w.pathLookup (pathOf (dir ++ [name]))).2
      = (w.store.inodeOf ROOT_INODE_ID dir).map (buildMetaKey name) := by
  have hcomp := components_pathOf (by simp) hdelim
  rw [(pathLookup_eq h.dentry.dentry _).1, resolve, lastComponent, hcomp, List.getLastD_concat,
    List.dropLast_concat, ← resolveWalk_inodeOf w.store rootKey, Option.map_map]
  simp only [if_neg hn]
  rfl

/-- A call on the path of one name of a directory, made while nothing is open and both caches
agree with the store, leaves the answers on the path of another name alone whose hash is another
one. What else it is on must not be on the way to that path, or share its key or disk file. -/
theorem Closed.sameAnswers_of_hash (h : w.Closed) {dir : List Bytes} {name name' : Bytes}
    (hn : name ≠ []) (hn' : name' ≠ []) (hdelim : ∀ c ∈ dir ++ [name, name'], PATH_DELIMITER ∉ c)
    (hhash : murmur64 name 123 ≠ murmur64 name' 123) (hwf : op.WellFormed)
    (hop : pathOf (dir ++ [name]) ∈ op.namePaths)
    (helse : ∀ path ∈ op.namePaths, path ≠ pathOf (dir ++ [name]) →
      ∀ key ∈ (w.pathLookup path).2, (w.pathLookup (pathOf (dir ++ [name']))).2 ≠ some key)
    (hway : ∀ key ∈ w.callKeys op, key ∉ w.store.dirKeys (pathOf (dir ++ [name'])))
    (hfile : ∀ key ∈ (w.pathLookup (pathOf (dir ++ [name']))).2, ∀ v ∈ w.store.dbGet key,
      0 < (getInodeHeader v).has_blob → w.SparesFile (getDiskFilePath (inoOf v)) op) :
    w.SameAnswers (w.next op) (pathOf (dir ++ [name'])) := by
  have hmem : ∀ n ∈ [name, name'], ∀ c ∈ dir ++ [n], PATH_DELIMITER ∉ c := by
    intro n hn c hc
    rcases List.mem_append.mp hc with hc | hc
    · exact hdelim c (List.mem_append_left _ hc)
    · exact hdelim c (List.mem_append_right _ (List.mem_singleton.mp hc ▸ hn))
  have hk := h.sibling hn (hmem name List.mem_cons_self)
  have hk' := h.sibling hn' (hmem name' (List.mem_cons_of_mem _ List.mem_cons_self))
  have hnil : op.namePaths ≠ [] := List.ne_nil_of_mem hop
  have hsame : ∀ k, k ∉ w.callKeys op → w.SameAt (w.next op) k :=
    fun k hk => h.sameAt hnil hwf hk
  -- the call is on no directory on the way
  have hlookup : ((w.next op).pathLookup (pathOf (dir ++ [name']))).2
      = (w.pathLookup (pathOf (dir ++ [name']))).2 := by
    refine pathLookup_agrees h.dentry.dentry (fun k hkey => ?_) fun k hkey => ?_
    · have hs := hsame k fun hc => hway k hc hkey
      rw [Store.ino, Store.ino, hs.dbGet]
    · exact (hsame k fun hc => hway k hc hkey).dentry
  -- and not on the record
  have hother : ∀ key ∈ (w.pathLookup (pathOf (dir ++ [name']))).2, key ∉ w.callKeys op := by
    intro key hkey hc
    obtain ⟨path, hpath, hpk⟩ := List.mem_filterMap.mp hc
    by_cases heq : path = pathOf (dir ++ [name])
    · subst heq
      rw [hk, Option.map_eq_some_iff] at hpk
      obtain ⟨i, hi, rfl⟩ := hpk
      rw [hk', hi, Option.map_some] at hkey
      have hhash' := congrArg MetaKey.hash_id (Option.some.inj hkey)
      exact hhash hhash'.symm
    · exact helse path hpath heq key hpk hkey
  refine sameAnswers hlookup (fun key hkey => ?_) fun v hv hb => ?_
  · have hs := hsame key (hother key hkey)
    exact ⟨hs.lookup, hs.dbGet⟩
  · obtain ⟨key, hkey, hv⟩ := Option.bind_eq_some_iff.mp hv
    rw [h.table.lookup_eq] at hv
    exact h.sameFile hnil (hfile key hkey v hv hb)

/-- In every run whose creators act on absent paths, whose store writes succeed and whose late
give-backs agree with both caches, whenever nothing is open: a call on the path of one name of a
directory leaves what `GetAttr`, `Readlink` and `Read` answer on the path of another name alone
whose hash is another one. -/
theorem names_apart {d : Durable} (hd : d.Records) (cfg : MountConfig) (ops : List Op)
    (hwf : ∀ op ∈ ops, op.WellFormed) (hworks : ∀ op ∈ ops, StoreWorks op)
    (hc : (mount d cfg).Meets CreatesAbsent ops) (hk : (mount d cfg).Meets KeepsRecords ops)
    (hkd : (mount d cfg).Meets KeepsDentry ops) (hw : (mount d cfg).run ops = w)
    (hfiles : ∀ n, w.files n = none) (hdirs : w.dirs = []) (dir : List Bytes)
    (name name' : Bytes) (hn : name ≠ []) (hn' : name' ≠ [])
    (hdelim : ∀ c ∈ dir ++ [name, name'], PATH_DELIMITER ∉ c)
    (hhash : murmur64 name 123 ≠ murmur64 name' 123) {op : Op} (hop : op.WellFormed)
    (hon : pathOf (dir ++ [name]) ∈ op.namePaths)
    (helse : ∀ path ∈ op.namePaths, path ≠ pathOf (dir ++ [name]) →
      ∀ key ∈ (w.pathLookup path).2, (w.pathLookup (pathOf (dir ++ [name']))).2 ≠ some key)
    (hway : ∀ key ∈ w.callKeys op, key ∉ w.store.dirKeys (pathOf (dir ++ [name'])))
    (hfile : ∀ key ∈ (w.pathLookup (pathOf (dir ++ [name']))).2, ∀ v ∈ w.store.dbGet key,
      0 < (getInodeHeader v).has_blob → w.SparesFile (getDiskFilePath (inoOf v)) op) :
    w.SameAnswers (w.next op) (pathOf (dir ++ [name'])) := by
  have hclosed : w.Closed := by
    subst hw
    exact ⟨(mount_inStep hd cfg).run hwf hworks hc hk, (mount_dentryInv hd cfg).run hwf hc hkd,
      hfiles, hdirs⟩
  exact hclosed.sameAnswers_of_hash hn hn' hdelim hhash hop hon helse hway hfile

/-- Two files are made, and one of them is renamed. -/
def twoFilesRun : List Op :=
  [.makeNode [47, 97] 0 0, .makeNode [47, 98] 0 0, .rename [47, 98] [47, 99]]

theorem twoFilesRun_apart :
    ((mount Durable.empty plainConfig).run twoFilesRun).SameAnswers
      (((mount Durable.empty plainConfig).run twoFilesRun).next (.unlink [47, 97])) [47, 99] := by
  have hblob : ∀ key ∈ (((mount Durable.empty plainConfig).run twoFilesRun).pathLookup [47, 99]).2,
      ∀ v ∈ ((mount Durable.empty plainConfig).run twoFilesRun).store.dbGet key,
        ¬ 0 < (getInodeHeader v).has_blob := by
    decide +kernel
  exact names_apart empty_records plainConfig twoFilesRun (by decide) (by decide)
    (by decide +kernel) ⟨trivial, trivial, trivial, trivial⟩ (by decide +kernel) rfl
    (mount_run_files _ _ _ (by decide +kernel)) (by decide +kernel)
    [] [97] [99] (by decide) (by decide) (by decide) (by decide +kernel) trivial List.mem_cons_self
    (fun path hp hne => absurd (List.mem_singleton.mp hp) hne) (by decide +kernel)
    fun key hk v hv hb => absurd hb (hblob key hk v hv)

/-- `chapter-one.text` -/
def chapterOne : Bytes :=
  [99, 104, 97, 112, 116, 101, 114, 45, 111, 110, 101, 46, 116, 101, 120, 116]

/-- `aaaabhaaTS1Ud0rC`, which has the same hash. -/
def chapterOneTwin : Bytes :=
  [97, 97, 97, 97, 98, 104, 97, 97, 84, 83, 49, 85, 100, 48, 114, 67]

example : murmur64 chapterOneTwin 123 = murmur64 chapterOne 123 := by decide +kernel

/-- A file is made. -/
def chapterRun : List Op := [.makeNode (pathOf [chapterOne]) 0 0]

/-- `Unlink` of the name of the same hash removes it. -/
theorem names_alias : ¬ ∀ (d : Durable) (cfg : MountConfig) (ops : List Op) (w : World),
    d.Records → (∀ op ∈ ops, op.WellFormed) → (∀ op ∈ ops, StoreWorks op) →
    (mount d cfg).Meets CreatesAbsent ops → (mount d cfg).Meets KeepsRecords ops →
    (mount d cfg).Meets KeepsDentry ops → (mount d cfg).run ops = w →
    (∀ n, w.files n = none) → w.dirs = [] → ∀ (dir : List Bytes) (name name' : Bytes),
      name ≠ [] → name' ≠ [] → name ≠ name' → (∀ c ∈ dir ++ [name, name'], PATH_DELIMITER ∉ c) →
      0 ∉ name → 0 ∉ name' → ∀ path, path = pathOf (dir ++ [name]) →
        w.SameAnswers (w.next (.unlink path)) (pathOf (dir ++ [name'])) := by
  intro h
  have hsame := (h Durable.empty plainConfig chapterRun _ empty_records (by decide) (by decide)
    (by decide +kernel) ⟨trivial, trivial⟩ (by decide +kernel) rfl
    (mount_run_files _ _ _ (by decide +kernel)) (by decide +kernel) [] chapterOneTwin chapterOne
    (by decide) (by decide) (by decide) (by decide) (by decide) (by decide) _ rfl).getAttr
  revert hsame
  decide +kernel

end World

end Tablefs
