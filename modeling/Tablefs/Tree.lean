/-
The name space as a tree.

The tree exists in the keys alone: a record is in the directory whose inode number its key
starts with. Seen so the store is a forest in the sense of `Lib/Forest.lean`, and every call
that is made while nothing is open changes it by putting an entry, taking one out or moving
one (`Closed.create`, `Closed.remove`, `Closed.move`).

None of the calls looks below the entry it takes out. `RemoveDir` of a directory that is not
empty, and `Rename` onto one, leave its entries where no path leads. `KeepsTree` says when
they do not, and then a forest stays one, and every record has a path (`tree_kept`).
-/
import Tablefs.Lib.Forest
import Tablefs.SelfRename
import Tablefs.Symlinks
import Tablefs.Listing
import Tablefs.Paths

set_option autoImplicit false

namespace Tablefs

open ByteString

/-- The record is a directory's. -/
def isDir (value : Bytes) : Bool := (getAttribute value).st_mode &&& S_IFMT = S_IFDIR

/-- What a record is in the tree: a directory with its number, or anything else. -/
def entryOf (value : Bytes) : Option UInt64 := if isDir value then some (inoOf value) else none

/-- Another name does not make it something else. -/
theorem entryOf_rename {k : MetaKey} {v : Bytes} (h : RecordIs Named k v) {filename : Bytes}
    (hn : filename.length < 2 ^ 32) : entryOf (renameInodeValue v filename) = entryOf v := by
  obtain ⟨r, rfl⟩ := h.record
  rw [r.renameInodeValue_value filename hn, entryOf, entryOf, isDir, isDir, inoOf, inoOf,
    InodeRecord.getAttribute_value, InodeRecord.getAttribute_value]
  rfl

namespace Store

/-- The entries of the store. -/
def tree (s : Store) (k : MetaKey) : Option (Option UInt64) := (s.dbGet k).map entryOf

/-- The name space is a forest that hangs from the root's number. -/
def Rooted (s : Store) : Prop := Forest MetaKey.inode_id ROOT_INODE_ID s.tree

/-- No entries of directory `i` but those named. -/
def NothingBelow (s : Store) (i : UInt64) (but : List MetaKey) : Prop :=
  ∀ e ∈ s.metadb.entries, World.isKeyInDir e.1 ⟨i, 0⟩ = true → e.1 ∈ but.map MetaKey.toSlice

instance (s : Store) (i : UInt64) (but : List MetaKey) : Decidable (s.NothingBelow i but) :=
  inferInstanceAs (Decidable (∀ e ∈ s.metadb.entries, _ → _))

variable {s : Store} {k : MetaKey}

theorem tree_ne_none : s.tree k ≠ none ↔ s.dbGet k ≠ none := by
  rw [tree, Ne, Option.map_eq_none_iff]

theorem tree_eq_dir {i : UInt64} :
    s.tree k = some (some i) ↔ ∃ v, s.dbGet k = some v ∧ isDir v = true ∧ inoOf v = i := by
  rw [tree, Option.map_eq_some_iff]
  refine exists_congr fun v => and_congr_right fun _ => ?_
  rw [entryOf]
  by_cases hd : isDir v = true
  · simp [hd]
  · simp [hd]

theorem NothingBelow.inode_id_ne {i : UInt64} {but : List MetaKey} (h : s.NothingBelow i but)
    (hk : s.dbGet k ≠ none) (hbut : k ∉ but) : k.inode_id ≠ i := by
  intro hi
  obtain ⟨v, hv⟩ := Option.ne_none_iff_exists'.mp hk
  have hmem := h _ ((s.metadb.mem_entries_iff k.toSlice v).mpr hv)
    (MetaKey.isKeyInDir_toSlice.mpr hi)
  obtain ⟨k', hk', he⟩ := List.mem_map.mp hmem
  exact hbut (MetaKey.toSlice_inj he ▸ hk')

/-- One key's record changes. -/
theorem tree_update {t : Store} {o : Option Bytes}
    (h : ∀ k', t.dbGet k' = if k = k' then o else s.dbGet k') :
    t.tree = Function.update s.tree k (o.map entryOf) := by
  funext k'
  rw [tree, h]
  by_cases hk : k = k'
  · subst hk
    rw [if_pos rfl, Function.update_self]
  · rw [if_neg hk, Function.update_of_ne (Ne.symm hk)]
    rfl

end Store

/-! ## The directories a path leads through -/

/-- The keys of the directories that a walk enters. -/
def walkKeys (ino : MetaKey → Option UInt64) (inode : UInt64) : List Bytes → List MetaKey
  | [] => []
  | item :: items => buildMetaKey item inode ::
      (ino (buildMetaKey item inode)).elim [] fun i => walkKeys ino i items

/-- The keys of the directories on the way to a path. -/
def Store.dirKeys (s : Store) (path : Bytes) : List MetaKey :=
  walkKeys s.ino ROOT_INODE_ID (components path).dropLast

/-- The number a walk ends with is that of the last directory it enters. -/
theorem walkKeys_getLast {ino : MetaKey → Option UInt64} {key key' : MetaKey} {i j : UInt64}
    {items : List Bytes} (h : resolveWalk ino key i items = some (key', j)) :
    (walkKeys ino i items = [] ∧ j = i) ∨
      ∃ k, (walkKeys ino i items).getLast? = some k ∧ ino k = some j := by
  induction items generalizing key i with
  | nil =>
      obtain ⟨_, rfl⟩ := Prod.mk.inj (Option.some.inj h)
      exact Or.inl ⟨rfl, rfl⟩
  | cons item items ih =>
      obtain ⟨i', hi', hrest⟩ := Option.bind_eq_some_iff.mp h
      refine Or.inr ?_
      rw [walkKeys, hi', Option.elim_some]
      rcases ih hrest with ⟨hnil, rfl⟩ | ⟨k, hk, hj⟩
      · exact ⟨_, by rw [hnil]; rfl, hi'⟩
      · refine ⟨k, ?_, hj⟩
        rw [List.getLast?_cons, hk]
        rfl

/-- A walk through directories other than `a` needs no entry under `a`. -/
theorem Store.linked_of_walk {s : Store} {a key key' : MetaKey} {i j : UInt64}
    {items : List Bytes} (h : resolveWalk s.ino key i items = some (key', j))
    (hi : Linked MetaKey.inode_id ROOT_INODE_ID (Function.update s.tree a none) i)
    (hdirs : ∀ k ∈ walkKeys s.ino i items, ∀ v ∈ s.dbGet k, isDir v = true)
    (ha : a ∉ walkKeys s.ino i items) :
    Linked MetaKey.inode_id ROOT_INODE_ID (Function.update s.tree a none) j := by
  induction items generalizing key i with
  | nil =>
      obtain ⟨_, rfl⟩ := Prod.mk.inj (Option.some.inj h)
      exact hi
  | cons item items ih =>
      obtain ⟨i', hi', hrest⟩ := Option.bind_eq_some_iff.mp h
      rw [walkKeys, hi', Option.elim_some] at hdirs ha
      obtain ⟨v, hv, hino⟩ := Option.map_eq_some_iff.mp hi'
      have hne : buildMetaKey item i ≠ a := fun he => ha (he ▸ List.mem_cons_self)
      refine ih hrest ?_ (fun k hk => hdirs k (List.mem_cons_of_mem _ hk))
        fun hk => ha (List.mem_cons_of_mem _ hk)
      refine .child (k := buildMetaKey item i) ?_ hi
      rw [Function.update_of_ne hne]
      exact Store.tree_eq_dir.mpr ⟨v, hv, hdirs _ List.mem_cons_self v hv, hino⟩

namespace World

open Store

variable {w : World} {key : MetaKey}

/-! ## Calls made while nothing is open -/

/-- Nothing is open, and both caches agree with the store. -/
structure Closed (w : World) : Prop where
  inStep : w.InStep
  dentry : w.DentryInv
  files : ∀ n, w.files n = none
  dirs : w.dirs = []

theorem Closed.table (h : w.Closed) : w.store.Table (· = ·) fun _ _ => False :=
  h.inStep.table_all h.files

theorem Closed.pins (h : w.Closed) (i : ℕ) : w.store.cache.pins i = 0 :=
  h.inStep.accounted.pins_zero h.files h.dirs i

theorem mount_closed {d : Durable} (hd : d.Records) (cfg : MountConfig) : (mount d cfg).Closed :=
  ⟨mount_inStep hd cfg, mount_dentryInv hd cfg, (mount_open d cfg).1, (mount_open d cfg).2⟩

theorem Looked.dbGet {w₁ : World} (hl : w.Looked w₁) (k : MetaKey) :
    w₁.store.dbGet k = w.store.dbGet k :=
  congrArg (fun db : MetaDb => db.get k.toSlice) hl.metadb

theorem UpToData.dbGet {w' : World} (hu : w.UpToData w') (k : MetaKey) :
    w'.store.dbGet k = w.store.dbGet k := by
  obtain ⟨os, log, _, rfl⟩ := hu
  rfl

/-! ### The store after an effect -/

/-- Work on one key that keeps records leaves the others as they are. -/
theorem near_eq {s t : Store} {K : MetaKey → Prop} (h : s.Around K (· = ·) t) {k : MetaKey}
    (hk : ¬ K k) : t.dbGet k = s.dbGet k := by
  rcases h.near k hk with h | ⟨u, v, hu, hv, hr⟩
  · exact h
  · rw [hu, hv, hr]

theorem perform_create_dbGet (hf : w.store.dbFaults = []) (key : MetaKey) (value : Bytes)
    (k : MetaKey) : (w.perform (.create key value)).store.dbGet k
      = if key = k then some value else w.store.dbGet k := by
  show (w.store.dbPut key value).1.dbGet k = _
  rw [dbPut_ok _ _ _ hf, commit_put_dbGet]

theorem perform_remove_dbGet (ht : w.store.Table (· = ·) fun _ _ => False)
    (hp : ∀ i, w.store.cache.pins i = 0) (key k : MetaKey) :
    (w.perform (.remove key)).store.dbGet k = if key = k then none else w.store.dbGet k := by
  simp only [perform]
  rcases hg : w.cacheGet key .delete with ⟨w', _ | i⟩
  · -- without a record there is nothing to remove
    obtain ⟨hw, hnone⟩ := cacheGet_none hg
    rw [ht.lookup_eq] at hnone
    dsimp only
    rw [hw]
    by_cases hk : key = k
    · rw [if_pos hk, ← hk, hnone]
    · rw [if_neg hk]
  · obtain ⟨s, hs, rfl⟩ := cacheGet_some hg
    show ((s.release i).evict key).dbGet k = _
    by_cases hk : key = k
    · rw [if_pos hk, ← hk]
      exact (gone_of_remove (fun j hj => absurd hj (by rw [hp]; omega)) hs).dbGet
    · rw [if_neg hk]
      have hno : ∀ (_ : MetaKey) j, False → 0 < w.store.cache.pins j := fun _ _ hx => hx.elim
      exact near_eq (((around_get (K := fun j => j = key) eq_equivalence hs rfl
        (ht.mono fun _ _ => False.elim) hno).trans eq_equivalence
          (around_release eq_equivalence s (get_keyOf hs))).trans eq_equivalence
            (around_evict eq_equivalence _ rfl)) (Ne.symm hk)

/-- A move to another key. -/
theorem perform_move_dbGet (ht : w.store.Table (· = ·) fun _ _ => False)
    (hf : w.store.dbFaults = []) {old_key new_key : MetaKey} (hne : old_key ≠ new_key)
    (filename : Bytes) {v : Bytes} (hv : w.store.dbGet old_key = some v) (k : MetaKey) :
    (w.perform (.move old_key new_key filename)).store.dbGet k
      = if new_key = k then some (renameInodeValue v filename)
        else if old_key = k then none else w.store.dbGet k := by
  rw [Store.dbGet, (perform_move_exact ht hf hne filename hv).1]
  simp only [DbEffect.apply, List.foldl_cons, List.foldl_nil, BatchOp.apply, SortedMap.get_put,
    SortedMap.get_delete, MetaKey.toSlice_eq_iff]
  rfl

/-- A move to the same key removes the record. -/
theorem perform_move_self_dbGet (ht : w.store.Table (· = ·) fun _ _ => False)
    (hf : w.store.dbFaults = []) (hp : ∀ i, w.store.cache.pins i = 0) (key : MetaKey)
    (filename : Bytes) {v : Bytes} (hv : w.store.dbGet key = some v) (k : MetaKey) :
    (w.perform (.move key key filename)).store.dbGet k
      = if key = k then none else w.store.dbGet k := by
  rcases hs : w.store.get key .delete with ⟨s', _ | i⟩
  · have hnone := (get_none_iff hs).2
    rw [ht.lookup_eq, hv] at hnone
    cases hnone
  · rw [perform_move_store key filename hs]
    split
    · rename_i he
      rw [← he]
      exact (moved_self hs _).2.2 (hp i)
    · rename_i hne
      have hno : ∀ (_ : MetaKey) j, False → 0 < w.store.cache.pins j := fun _ _ hx => hx.elim
      refine near_eq (move_around eq_equivalence ht hno hs hf key _).2 ?_
      exact fun hk => hne (hk.elim Eq.symm Eq.symm)

/-- A move of a key without a record. -/
theorem perform_move_none_dbGet (ht : w.store.Table (· = ·) fun _ _ => False)
    {old_key : MetaKey} (hv : w.store.dbGet old_key = none) (new_key : MetaKey)
    (filename : Bytes) : w.perform (.move old_key new_key filename) = w := by
  rcases hs : w.store.get old_key .delete with ⟨s', _ | i⟩
  · have hg : w.cacheGet old_key .delete = (w.setStore s', none) := by rw [cacheGet, hs]
    simp only [perform, hg]
    exact (cacheGet_none hg).1
  · have hsome := get_lookup hs
    rw [ht.lookup_eq, hv] at hsome
    cases hsome

/-! ## The calls -/

/-- The directory of the path is one. -/
def ParentIsDir (w : World) (path : Bytes) : Prop :=
  ∀ key ∈ (w.store.dirKeys path).getLast?, ∀ v ∈ w.store.dbGet key, isDir v = true

instance (w : World) (path : Bytes) : Decidable (w.ParentIsDir path) :=
  inferInstanceAs (Decidable (∀ key ∈ (w.store.dirKeys path).getLast?, _))

/-- The calls that change the name space, as they are made of a tree: a new record has a new
path in a directory, what `Unlink` removes is not a directory and what `RemoveDir` removes
is one, and nothing is moved below itself. -/
def TreeCall (w : World) : Op → Prop
  | .makeNode path _ _ | .makeDir path _ | .symlink _ path =>
      GoodPath path ∧ (w.pathLookup path).2.bind w.store.dbGet = none ∧ w.ParentIsDir path
  | .unlink path => ∀ key ∈ (w.pathLookup path).2, ∀ v ∈ w.store.dbGet key, isDir v = false
  | .removeDir path => ∀ key ∈ (w.pathLookup path).2, ∀ v ∈ w.store.dbGet key, isDir v = true
  | .rename old_path new_path => GoodPath new_path ∧
      ∀ key ∈ (w.pathLookup old_path).2, key ≠ rootKey ∧ key ∉ w.store.dirKeys new_path
  | .evict _ => True
  | _ => False

instance (w : World) : DecidablePred w.TreeCall := fun op => match op with
  | .makeNode path _ _ | .makeDir path _ | .symlink _ path =>
      inferInstanceAs (Decidable (GoodPath path ∧
        (w.pathLookup path).2.bind w.store.dbGet = none ∧ w.ParentIsDir path))
  | .unlink path | .removeDir path => Option.decidableForallMem (w.pathLookup path).2
  | .rename old_path new_path => inferInstanceAs (Decidable (GoodPath new_path ∧
      ∀ key ∈ (w.pathLookup old_path).2, key ≠ rootKey ∧ key ∉ w.store.dirKeys new_path))
  | .evict _ => inferInstanceAs (Decidable True)
  | .getAttr _ | .openFile _ _ | .read _ _ _ | .write _ _ _ | .fsync _ _ | .release _
  | .truncate _ _ | .readlink _ _ | .openDir _ | .readDir _ _ | .releaseDir _ | .access _ _
  | .updateTimens _ _ _ | .chmod _ _ | .chown _ _ _ | .setEnv _ | .setFaults _ _ =>
      inferInstanceAs (Decidable False)

/-- What takes a directory out finds it empty: `RemoveDir`, and `Rename` in the place it moves
a record to, where the moved record may be. A record is moved into a directory. -/
def KeepsTree (w : World) : Op → Prop
  | .removeDir path => ∀ key ∈ (w.pathLookup path).2, ∀ v ∈ w.store.dbGet key,
      w.store.NothingBelow (inoOf v) [key]
  | .rename old_path new_path => ∀ old_key ∈ (w.pathLookup old_path).2,
      w.store.dbGet old_key ≠ none →
        (∀ k ∈ w.store.dirKeys new_path, ∀ v ∈ w.store.dbGet k, isDir v = true) ∧
        ∀ new_key ∈ (w.pathLookup new_path).2, ∀ v ∈ w.store.dbGet new_key, isDir v = true →
          w.store.NothingBelow (inoOf v) [old_key, new_key]
  | _ => True

instance (w : World) : DecidablePred w.KeepsTree := fun op => match op with
  | .removeDir path | .rename path _ => Option.decidableForallMem (w.pathLookup path).2
  | .makeNode _ _ _ | .makeDir _ _ | .symlink _ _ | .unlink _ | .evict _ | .getAttr _
  | .openFile _ _ | .read _ _ _ | .write _ _ _ | .fsync _ _ | .release _ | .truncate _ _
  | .readlink _ _ | .openDir _ | .readDir _ _ | .releaseDir _ | .access _ _
  | .updateTimens _ _ _ | .chmod _ _ | .chown _ _ _ | .setEnv _ | .setFaults _ _ =>
      inferInstanceAs (Decidable True)

theorem TreeCall.conditions {op : Op} (h : w.TreeCall op) (hf : w.store.dbFaults = []) :
    op.WellFormed ∧ StoreWorks op ∧ w.CreatesAbsent op ∧ w.KeepsRecords op ∧
      w.KeepsDentry op := by
  cases op with
  | makeNode | makeDir | symlink => exact ⟨h.1, trivial, h.2.1, trivial, trivial⟩
  | unlink | removeDir | evict => exact ⟨trivial, trivial, trivial, trivial, trivial⟩
  | rename => exact ⟨h.1, trivial, trivial, trivial, hf⟩
  | _ => exact h.elim

theorem perform_remove_opens (w : World) (key : MetaKey) :
    (w.perform (.remove key)).files = w.files ∧ (w.perform (.remove key)).dirs = w.dirs := by
  simp only [perform]
  rcases hg : w.cacheGet key .delete with ⟨w', _ | i⟩
  · rw [(cacheGet_none hg).1]
    exact ⟨rfl, rfl⟩
  · obtain ⟨s, _, rfl⟩ := cacheGet_some hg
    exact ⟨rfl, rfl⟩

theorem perform_move_dirs (w : World) (old_key new_key : MetaKey) (filename : Bytes) :
    (w.perform (.move old_key new_key filename)).dirs = w.dirs := by
  simp only [perform]
  rcases hg : w.cacheGet old_key .delete with ⟨w', _ | i⟩
  · rw [(cacheGet_none hg).1]
  · obtain ⟨s, _, rfl⟩ := cacheGet_some hg
    rw [setDentry_dirs, renameHandles_dirs]
    rfl

/-- The calls open nothing. -/
theorem TreeCall.opens {op : Op} (h : w.TreeCall op) :
    (w.next op).files = w.files ∧ (w.next op).dirs = w.dirs := by
  obtain ⟨w₁, e, hl, _, hp, os, log, _, hu⟩ := w.step_steps op
  have he : (w₁.perform e).files = w₁.files ∧ (w₁.perform e).dirs = w₁.dirs := by
    cases hp with
    | idle | symlink | makeNode | makeDir | evict => exact ⟨rfl, rfl⟩
    | unlink | removeDir => exact perform_remove_opens w₁ _
    | rename => exact ⟨perform_files_of_move w₁ _ _ _, perform_move_dirs w₁ _ _ _⟩
    | _ => exact h.elim
  rw [next, hu]
  exact ⟨he.1.trans hl.files, he.2.trans hl.dirs⟩

theorem Closed.step (h : w.Closed) {op : Op} (hop : w.TreeCall op) : (w.next op).Closed := by
  obtain ⟨hwf, hworks, hcreates, hkeeps, hdentry⟩ := hop.conditions h.inStep.dbFaults
  refine ⟨h.inStep.step hwf hworks hcreates hkeeps, h.dentry.step hwf hcreates hdentry, ?_,
    hop.opens.2.trans h.dirs⟩
  rw [hop.opens.1]
  exact h.files

/-! ### The tree after a call -/

/-- A path that is looked up leads to a key in the directory its last number is of. -/
theorem Closed.resolved (h : w.Closed) {path : Bytes} (hp : GoodPath path)
    (hk : (w.pathLookup path).2 = some key) :
    ∃ key', resolveWalk w.store.ino rootKey ROOT_INODE_ID (components path).dropLast
      = some (key', key.inode_id) := by
  rw [(pathLookup_eq h.dentry.dentry path).1, resolve] at hk
  obtain ⟨⟨key', j⟩, hw, he⟩ := Option.map_eq_some_iff.mp hk
  rw [if_neg hp.last] at he
  rw [← he]
  exact ⟨key', hw⟩

/-- A record is made in a directory. -/
theorem Closed.create (h : w.Closed) (hr : w.store.Rooted) {path : Bytes} (hp : GoodPath path)
    (hk : (w.pathLookup path).2 = some key) (hnone : w.store.dbGet key = none)
    (hdir : w.ParentIsDir path) {w₁ : World} (hl : w.Looked w₁) (value : Bytes) :
    (w₁.perform (.create key value)).store.Rooted := by
  have htree := tree_update (perform_create_dbGet (hl.dbFaults.trans h.inStep.dbFaults) key value)
  have hl₁ : w₁.store.tree = w.store.tree := funext fun k => by rw [tree, hl.dbGet, tree]
  rw [Rooted, htree, hl₁, Option.map_some]
  refine Forest.put hr (by rw [tree, hnone]; rfl) _ ?_
  obtain ⟨key', hw⟩ := h.resolved hp hk
  rcases walkKeys_getLast hw with ⟨_, hroot⟩ | ⟨k, hlast, hino⟩
  · rw [hroot]
    exact .root
  · -- the parent's record is a directory, and it is in one
    obtain ⟨v, hv, hi⟩ := Option.map_eq_some_iff.mp hino
    refine .child (tree_eq_dir.mpr ⟨v, hv, hdir k hlast v hv, hi⟩) (hr k ?_)
    rw [tree_ne_none, hv]
    exact Option.some_ne_none v

/-- A record that is not a directory, or one without entries, is removed. -/
theorem Closed.remove (h : w.Closed) (hr : w.store.Rooted)
    (hempty : ∀ v ∈ w.store.dbGet key, isDir v = true → w.store.NothingBelow (inoOf v) [key])
    {w₁ : World} (hl : w.Looked w₁) : (w₁.perform (.remove key)).store.Rooted := by
  have ht₁ := h.table.congr hl.metadb hl.cache
  have hp₁ : ∀ i, w₁.store.cache.pins i = 0 := fun i => by rw [hl.cache]; exact h.pins i
  have htree := tree_update (perform_remove_dbGet ht₁ hp₁ key)
  have hl₁ : w₁.store.tree = w.store.tree := funext fun k => by rw [tree, hl.dbGet, tree]
  rw [Rooted, htree, hl₁, Option.map_none]
  refine Forest.erase hr ?_
  intro i hi k hne hk
  obtain ⟨v, hv, hd, rfl⟩ := tree_eq_dir.mp hi
  exact (hempty v hv hd).inode_id_ne (tree_ne_none.mp hk) fun hmem =>
    hne (List.mem_singleton.mp hmem)

/-- A record is moved. -/
theorem Closed.move (h : w.Closed) (hr : w.store.Rooted) {old_path new_path : Bytes}
    {old_key new_key : MetaKey} (ho : (w.pathLookup old_path).2 = some old_key)
    (hn : (w.pathLookup new_path).2 = some new_key)
    (hop : w.TreeCall (.rename old_path new_path)) (hkeeps : w.KeepsTree (.rename old_path new_path))
    {w₁ : World} (hl : w.Looked w₁) :
    (w₁.perform (.move old_key new_key (filenameOf new_path))).store.Rooted := by
  have ht₁ := h.table.congr hl.metadb hl.cache
  have hf₁ := hl.dbFaults.trans h.inStep.dbFaults
  have hp₁ : ∀ i, w₁.store.cache.pins i = 0 := fun i => by rw [hl.cache]; exact h.pins i
  have hl₁ : w₁.store.tree = w.store.tree := funext fun k => by rw [tree, hl.dbGet, tree]
  obtain ⟨hgood, hbelow⟩ := hop
  cases hv : w.store.dbGet old_key with
  | none =>
      rw [perform_move_none_dbGet ht₁ ((hl.dbGet _).trans hv), Rooted, hl₁]
      exact hr
  | some v =>
      have hv₁ := (hl.dbGet old_key).trans hv
      obtain ⟨hdirs, hempty⟩ := hkeeps old_key ho (by rw [hv]; exact Option.some_ne_none v)
      by_cases hne : old_key = new_key
      · -- to its own key: the record goes
        subst hne
        rw [Rooted, tree_update (perform_move_self_dbGet ht₁ hf₁ hp₁ old_key _ hv₁), hl₁,
          Option.map_none]
        refine Forest.erase hr fun i hi k hka hk => ?_
        obtain ⟨v', hv', hd, rfl⟩ := tree_eq_dir.mp hi
        exact (hempty old_key hn v' hv' hd).inode_id_ne (tree_ne_none.mp hk) (by simpa using hka)
      · have hlen := hgood.goodName.short
        have hmoved : (w₁.perform (.move old_key new_key (filenameOf new_path))).store.tree
            = Function.update (Function.update w.store.tree old_key none) new_key
              (w.store.tree old_key) := by
          funext k
          rw [tree, perform_move_dbGet ht₁ hf₁ hne _ hv₁]
          by_cases hkn : new_key = k
          · subst hkn
            rw [if_pos rfl, Function.update_self, tree, hv, Option.map_some, Option.map_some,
              entryOf_rename (h.inStep.records.all.db _ _ hv) (by rw [hgood.filename]; omega)]
          · rw [if_neg hkn, Function.update_of_ne (Ne.symm hkn)]
            by_cases hko : old_key = k
            · rw [if_pos hko, hko, Function.update_self, Option.map_none]
            · rw [if_neg hko, Function.update_of_ne (Ne.symm hko), hl.dbGet, tree]
        rw [Rooted, hmoved]
        refine Forest.move hr hne ?_ ?_
        · obtain ⟨key', hw⟩ := h.resolved hgood hn
          exact Store.linked_of_walk hw .root hdirs (hbelow old_key ho).2
        · intro i hi k hka hkb hk
          obtain ⟨v', hv', hd, rfl⟩ := tree_eq_dir.mp hi
          exact (hempty new_key hn v' hv' hd).inode_id_ne (tree_ne_none.mp hk)
            (by simp [hka, hkb])

/-- The calls that keep the tree keep it. -/
theorem Closed.rooted_step (h : w.Closed) (hr : w.store.Rooted) {op : Op} (hop : w.TreeCall op)
    (hkeeps : w.KeepsTree op) : (w.next op).store.Rooted := by
  obtain ⟨w₁, e, hl, _, hp, hu⟩ := w.step_steps op
  have hl₁ : w₁.store.tree = w.store.tree := funext fun k => by rw [tree, hl.dbGet, tree]
  have hu₁ : (w.next op).store.tree = (w₁.perform e).store.tree :=
    funext fun k => by rw [tree, next, hu.dbGet, tree]
  rw [Rooted, hu₁]
  have habsent : ∀ {path key}, (w.pathLookup path).2.bind w.store.dbGet = none →
      (w.pathLookup path).2 = some key → w.store.dbGet key = none := by
    intro path key hnone hk
    rwa [hk] at hnone
  cases hp with
  | idle =>
      show Rooted w₁.store
      rw [Rooted, hl₁]
      exact hr
  | makeNode hk | makeDir hk | symlink hk =>
      exact h.create hr hop.1 hk (habsent hop.2.1 hk) hop.2.2 hl _
  | unlink hk =>
      refine h.remove hr ?_ hl
      intro v hv hd
      rw [hop _ hk v hv] at hd
      cases hd
  | removeDir hk => exact h.remove hr (fun v hv _ => hkeeps _ hk v hv) hl
  | rename ho hn =>
      refine h.move hr ho ?_ hop hkeeps hl
      rwa [(pathLookup_eq (pathLookup_eq h.dentry.dentry _).2 _).1,
        (w.pathLookup_looked _).ino, ← (pathLookup_eq h.dentry.dentry _).1] at hn
  | evict hf hpin =>
      rename_i key _
      have ht₁ := h.table.congr hl.metadb hl.cache
      have hsame : (w₁.store.evict key).tree = w.store.tree := by
        funext k
        rw [tree, (ht₁.silent_evict (fun _ _ hx => hx.elim) key).dbGet, hl.dbGet, tree]
      show Rooted (w₁.store.evict key)
      rw [Rooted, hsame]
      exact hr
  | _ => exact hop.elim

/-! ## Paths to the records -/

theorem inodeOf_append (s : Store) (i : UInt64) (cs : List Bytes) (c : Bytes) :
    s.inodeOf i (cs ++ [c])
      = (s.inodeOf i cs).bind fun j => (s.dbGet ⟨j, murmur64 c 123⟩).map inoOf := by
  induction cs generalizing i with
  | nil =>
      rw [List.nil_append, inodeOf, inodeOf, Option.bind_some]
      cases s.dbGet ⟨i, murmur64 c 123⟩ <;> rfl
  | cons d ds ih =>
      rw [List.cons_append, inodeOf, inodeOf]
      cases s.dbGet ⟨i, murmur64 d 123⟩ with
      | none => rfl
      | some v => exact ih _

/-- The names of the directories on a chain are a path. -/
theorem inodeOf_of_linked (hrec : w.store.Records) {i : UInt64}
    (h : Linked MetaKey.inode_id ROOT_INODE_ID w.store.tree i) :
    ∃ names : List Bytes, (∀ c ∈ names, PATH_DELIMITER ∉ c) ∧
      w.store.inodeOf ROOT_INODE_ID names = some i := by
  induction h with
  | root => exact ⟨[], fun _ hc => absurd hc List.not_mem_nil, rfl⟩
  | @child k i hd _ ih =>
      obtain ⟨names, hnames, hino⟩ := ih
      obtain ⟨v, hv, _, hi⟩ := tree_eq_dir.mp hd
      obtain ⟨r, _, hname, hhash⟩ := hrec.all.db _ _ hv
      have hkey : (⟨k.inode_id, murmur64 r.name 123⟩ : MetaKey) = k := by rw [← hhash]
      refine ⟨names ++ [r.name], ?_, ?_⟩
      · intro c hc
        rcases List.mem_append.mp hc with hc | hc
        · exact hnames c hc
        · rw [List.mem_singleton.mp hc]
          exact hname.noDelim
      · rw [inodeOf_append, hino, Option.bind_some, hkey, hv, Option.map_some, hi]

/-- Every record is where a path leads. Names can be empty: the directory then appears in the
path as an empty component. -/
theorem resolve_of_linked (hrec : w.store.Records) {v : Bytes} (hv : w.store.dbGet key = some v)
    (h : Linked MetaKey.inode_id ROOT_INODE_ID w.store.tree key.inode_id) :
    ∃ path, resolve w.store.ino path = some key := by
  obtain ⟨names, hnames, hino⟩ := inodeOf_of_linked hrec h
  obtain ⟨r, _, hname, hhash⟩ := hrec.all.db _ _ hv
  have hkey : (⟨key.inode_id, murmur64 r.name 123⟩ : MetaKey) = key := by rw [← hhash]
  -- the walk over some names
  have hwalk : ∀ {cs : List Bytes} {i : UInt64}, w.store.inodeOf ROOT_INODE_ID cs = some i →
      ∃ key', resolveWalk w.store.ino rootKey ROOT_INODE_ID cs = some (key', i) := by
    intro cs i hi
    rw [← resolveWalk_inodeOf w.store rootKey] at hi
    obtain ⟨⟨key', j⟩, hw, rfl⟩ := Option.map_eq_some_iff.mp hi
    exact ⟨key', hw⟩
  by_cases hempty : r.name = []
  · have hdir : w.store.inodeOf ROOT_INODE_ID (names ++ [[]]) = some (inoOf v) := by
      rw [inodeOf_append, hino, Option.bind_some, ← hempty, hkey, hv, Option.map_some]
    obtain ⟨key', hw⟩ := hwalk hdir
    obtain ⟨k', i', hw', rfl⟩ := resolveWalk_concat hw
    obtain ⟨k'', hw''⟩ := hwalk hino
    obtain ⟨_, rfl⟩ := Prod.mk.inj (Option.some.inj (hw'.symm.trans hw''))
    have hcomp : components (pathOf ((names ++ [[]]) ++ [[]])) = (names ++ [[]]) ++ [[]] := by
      refine components_pathOf (by simp) fun c hc => ?_
      rcases List.mem_append.mp hc with hc | hc
      · rcases List.mem_append.mp hc with hc | hc
        · exact hnames c hc
        · rw [List.mem_singleton.mp hc]
          exact List.not_mem_nil
      · rw [List.mem_singleton.mp hc]
        exact List.not_mem_nil
    refine ⟨pathOf ((names ++ [[]]) ++ [[]]), ?_⟩
    rw [resolve, lastComponent, hcomp, List.dropLast_concat, hw, List.getLastD_concat,
      Option.map_some, if_pos rfl, buildMetaKey, ← hempty, hkey]
  · have hcomp : components (pathOf (names ++ [r.name])) = names ++ [r.name] := by
      refine components_pathOf (by simp) fun c hc => ?_
      rcases List.mem_append.mp hc with hc | hc
      · exact hnames c hc
      · rw [List.mem_singleton.mp hc]
        exact hname.noDelim
    obtain ⟨key', hw⟩ := hwalk hino
    refine ⟨pathOf (names ++ [r.name]), ?_⟩
    rw [resolve, lastComponent, hcomp, List.dropLast_concat, hw, List.getLastD_concat,
      Option.map_some, if_neg hempty, buildMetaKey, hkey]

/-! ## Runs -/

/-- Every record but the root's is in the root or in a directory that has a record, and a path
leads to it. -/
structure TreeShaped (w : World) : Prop where
  parent : ∀ k v, k ≠ rootKey → w.store.dbGet k = some v → k.inode_id = ROOT_INODE_ID ∨
    ∃ k' v', w.store.dbGet k' = some v' ∧ isDir v' = true ∧ inoOf v' = k.inode_id
  reached : ∀ k v, w.store.dbGet k = some v → ∃ path, (w.pathLookup path).2 = some k

theorem Closed.treeShaped (h : w.Closed) (hr : w.store.Rooted) : w.TreeShaped where
  parent := by
    intro k v _ hv
    refine (hr k ?_).number.imp id fun ⟨k', hk'⟩ => ?_
    · rw [tree_ne_none, hv]
      exact Option.some_ne_none v
    · obtain ⟨v', hv', hd, hi⟩ := tree_eq_dir.mp hk'
      exact ⟨k', v', hv', hd, hi⟩
  reached := by
    intro k v hv
    have hk : w.store.tree k ≠ none := by
      rw [tree_ne_none, hv]
      exact Option.some_ne_none v
    obtain ⟨path, hpath⟩ := resolve_of_linked h.inStep.records hv (hr k hk)
    exact ⟨path, by rw [(pathLookup_eq h.dentry.dentry path).1, hpath]⟩

/-- The root's record is all that a first mount stores. -/
theorem mount_rooted (cfg : MountConfig) : (mount Durable.empty cfg).store.Rooted := by
  intro k hk
  have hk' : (mount Durable.empty cfg).store.dbGet k ≠ none := tree_ne_none.mp hk
  by_cases hroot : k = rootKey
  · rw [hroot]
    exact .root
  · rw [(mount_store Durable.empty cfg).2.2.2 k hroot] at hk'
    exact absurd rfl hk'

/-- In every run of the calls that change the name space in which what they take out has
nothing below it, every record keeps a place in the tree. -/
theorem tree_kept (cfg : MountConfig) (ops : List Op)
    (hcalls : (mount Durable.empty cfg).Meets TreeCall ops)
    (hkeeps : (mount Durable.empty cfg).Meets KeepsTree ops) :
    ((mount Durable.empty cfg).run ops).TreeShaped := by
  have hrun := Transition.run_invariant (P := fun w : World => w.Closed ∧ w.store.Rooted)
    (fun w op h hC => ⟨h.1.step hC.1, h.1.rooted_step h.2 hC.1 hC.2⟩)
    ⟨mount_closed empty_records cfg, mount_rooted cfg⟩ (hcalls.and hkeeps)
  exact hrun.1.treeShaped hrun.2

/-- Two directories and a file are made; the file is moved onto a link, the first directory
onto the second, and both are removed. -/
def movedTreeRun : List Op :=
  [.makeDir [47, 97] 0, .makeDir [47, 98] 0, .makeNode [47, 97, 47, 120] 0 0,
    .symlink [120] [47, 97, 47, 121], .rename [47, 97, 47, 120] [47, 97, 47, 121],
    .rename [47, 97] [47, 98], .unlink [47, 98, 47, 121], .removeDir [47, 98]]

theorem movedTreeRun_kept : ((mount Durable.empty plainConfig).run movedTreeRun).TreeShaped :=
  tree_kept plainConfig movedTreeRun (by decide +kernel) (by decide +kernel)

/-- A directory is removed with a file in it. -/
def orphanedTreeRun : List Op :=
  [.makeDir [47, 97] 0, .makeNode [47, 97, 47, 120] 0 0, .removeDir [47, 97]]

/-- The file's record is then in no directory. -/
theorem tree_orphans : ¬ ∀ (cfg : MountConfig) (ops : List Op),
    (mount Durable.empty cfg).Meets TreeCall ops →
    ((mount Durable.empty cfg).run ops).TreeShaped := by
  intro h
  have htree := h plainConfig orphanedTreeRun (by decide +kernel)
  obtain ⟨v, hv⟩ := Option.isSome_iff_exists.mp
    (show (((mount Durable.empty plainConfig).run orphanedTreeRun).store.dbGet
      (buildMetaKey [120] 1)).isSome = true by decide +kernel)
  rcases htree.parent _ v (by decide) hv with hroot | ⟨k', v', hv', hd, hi⟩
  · exact absurd hroot (by decide)
  · have hnone : ∀ e ∈ ((mount Durable.empty plainConfig).run orphanedTreeRun).store.metadb.entries,
        isDir e.2 = true → inoOf e.2 ≠ 1 := by
      decide +kernel
    exact hnone _ ((SortedMap.mem_entries_iff _ _ _).mpr hv') hd hi

end World

end Tablefs
