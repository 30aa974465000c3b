/-
What `ReadDir` lists.

The store keeps its entries in the bytewise order of their keys, and a key starts with the
bytes of its directory's inode number. So the entries of a directory stand together, and the
scan of `ReadDir` passes over those of them that are not below the key it seeks to
(`dirEntries_exact`). For a directory other than the root that is all of them
(`listing_exact`).

For the root the scan starts at hash 1 instead of 0, to leave out the root's own record. But
the hash of the empty name is not 0, and the order of the bytes is not that of the numbers:
the root's record is listed, and a name whose hash is a multiple of 256 is not
(`root_listing_iff`).
-/
import Tablefs.Names

set_option autoImplicit false

namespace Tablefs

open ByteString World

/-! ## The entries of a directory -/

/-- A key is in a directory if it starts with the directory's number. -/
theorem isKeyInDir_iff {key : Bytes} {dirkey : MetaKey} :
    isKeyInDir key dirkey = true ↔ ∃ rest, key = leBytes 8 dirkey.inode_id.toNat ++ rest := by
  rw [isKeyInDir, decide_eq_true_eq]
  constructor
  · rintro ⟨hlen, hnum⟩
    refine ⟨key.drop 8, ?_⟩
    have hpre : leBytes (key.take 8).length (leNat (key.take 8)) = key.take 8 :=
      leBytes_leNat _
    rw [List.length_take, Nat.min_eq_left hlen, hnum] at hpre
    rw [hpre, List.take_append_drop]
  · rintro ⟨rest, rfl⟩
    have hlen : (leBytes 8 dirkey.inode_id.toNat).length = 8 := length_leBytes _ _
    refine ⟨by rw [List.length_append]; omega, ?_⟩
    rw [List.take_left' hlen, leNat_leBytes _ _ dirkey.inode_id.toNat_lt]

theorem MetaKey.isKeyInDir_toSlice {k dirkey : MetaKey} :
    isKeyInDir k.toSlice dirkey = true ↔ k.inode_id = dirkey.inode_id := by
  have hlen : 8 ≤ k.toSlice.length := by
    rw [k.length_toSlice]
    omega
  rw [isKeyInDir, decide_eq_true_eq, k.leNat_toSlice]
  constructor
  · rintro ⟨_, h⟩
    exact UInt64.toNat_inj.mp h
  · intro h
    exact ⟨hlen, congrArg UInt64.toNat h⟩

namespace World

variable {w : World}

/-- The scan of `ReadDir` stops at the first key that is not in the directory, and no key in
the directory comes after it. -/
theorem dirEntries_eq_filter (w : World) (inode : UInt64) :
    w.dirEntries inode = w.store.metadb.entries.filter fun e =>
      ¬ e.1 < (childKey inode).toSlice ∧ isKeyInDir e.1 (childKey inode) = true := by
  unfold dirEntries
  rw [SortedMap.takeWhile_seek w.store.metadb (childKey inode).toSlice]
  · exact List.filter_congr fun e _ => by congr
  intro e f hge hlt hf
  obtain ⟨rest, hrest⟩ := isKeyInDir_iff.mp hf
  rw [hrest] at hlt
  exact isKeyInDir_iff.mpr (prefix_of_between hge hlt)

/-- The names are those of the records under the keys with `P`, each record once. -/
def ListsExactly (s : Store) (P : MetaKey → Prop) (names : List Bytes) : Prop :=
  ∃ records : List (MetaKey × Bytes), (records.map Prod.fst).Nodup ∧
    (∀ k v, (k, v) ∈ records ↔ s.dbGet k = some v ∧ P k) ∧
    names = records.map fun r => nameField r.2

/-- The names of a directory's entries. -/
theorem dirEntries_exact (hr : w.store.Records) (inode : UInt64) :
    ListsExactly w.store
      (fun k => k.inode_id = inode ∧ ¬ k.toSlice < (childKey inode).toSlice)
      ((w.dirEntries inode).map fun e => nameOf e.2) := by
  have hentries := w.dirEntries_eq_filter inode
  -- an entry's name leads back to its key
  have hkey : ∀ e ∈ w.dirEntries inode,
      e.1 = (buildMetaKey (nameOf e.2) inode).toSlice ∧ nameOf e.2 = nameField e.2 := by
    intro e he
    have hdb := dirEntries_resolve hr he
    rw [hentries, List.mem_filter] at he
    have hget : w.store.metadb.get e.1 = some e.2 := (SortedMap.mem_entries_iff _ _ _).mp he.1
    have hin := (of_decide_eq_true he.2).2
    rcases hr.keyed e.1 e.2 hget with hsync | ⟨k, hk, hrec⟩
    · rw [hsync] at hin
      exact absurd hin (by simp [isKeyInDir, syncKey])
    · rw [hk] at hin ⊢
      have hino : k.inode_id = inode := MetaKey.isKeyInDir_toSlice.mp hin
      have hlisted := hrec.listable.listed
      rw [hino] at hlisted
      refine ⟨by rw [hlisted], ?_⟩
      obtain ⟨r, hv, hname, _⟩ := hrec
      rw [← hv, r.nameOf_value hname.noNul, r.nameField_value]
  refine ⟨(w.dirEntries inode).map fun e => (buildMetaKey (nameOf e.2) inode, e.2), ?_, ?_, ?_⟩
  · rw [List.map_map]
    have hnodup : (w.dirEntries inode).Nodup := by
      rw [hentries]
      refine List.Nodup.filter _ (w.store.metadb.sorted.imp ?_)
      intro a b hlt heq
      rw [heq] at hlt
      exact lt_irrefl _ hlt
    refine hnodup.map_on ?_
    intro e he f hf heq
    have hef : e.1 = f.1 := by
      rw [(hkey e he).1, (hkey f hf).1]
      exact congrArg MetaKey.toSlice heq
    have hve := dirEntries_resolve hr he
    have hvf := dirEntries_resolve hr hf
    have hnames : buildMetaKey (nameOf e.2) inode = buildMetaKey (nameOf f.2) inode := heq
    rw [hnames, hvf] at hve
    exact Prod.ext hef (Option.some.inj hve).symm
  · intro k v
    constructor
    · intro hmem
      obtain ⟨e, he, heq⟩ := List.mem_map.mp hmem
      obtain ⟨rfl, rfl⟩ := Prod.mk.inj heq
      refine ⟨dirEntries_resolve hr he, rfl, ?_⟩
      rw [← (hkey e he).1]
      rw [hentries, List.mem_filter] at he
      exact (of_decide_eq_true he.2).1
    · rintro ⟨hdb, rfl, hge⟩
      have hmem : (k.toSlice, v) ∈ w.dirEntries k.inode_id := by
        rw [hentries, List.mem_filter]
        refine ⟨(SortedMap.mem_entries_iff _ _ _).mpr hdb, decide_eq_true ⟨hge, ?_⟩⟩
        exact MetaKey.isKeyInDir_toSlice.mpr rfl
      refine List.mem_map.mpr ⟨_, hmem, Prod.ext ?_ rfl⟩
      exact (MetaKey.toSlice_inj (hkey _ hmem).1).symm
  · rw [List.map_map]
    refine List.map_congr_left ?_
    intro e he
    exact (hkey e he).2

/-! ## The answers of `ReadDir` -/

/-- A filler that refuses nothing gets every name. -/
theorem fillNames_all {filler : ℕ → Bool} (hf : ∀ n, filler n = true) (n : ℕ)
    (names : List Bytes) : fillNames filler n names = (names, 0) := by
  induction names generalizing n with
  | nil => rfl
  | cons name names ih =>
      rw [fillNames, if_pos (hf n), ih (n + 1)]

/-- With a filler that refuses nothing, `ReadDir` on the handle lists `.`, `..` and the records
under the keys with `P`. -/
def DirListing (w : World) (handle : ℕ) (P : MetaKey → Prop) : Prop :=
  ∀ filler : ℕ → Bool, (∀ n, filler n = true) →
    ∃ names, (w.readDir handle filler).2 = (0, [46] :: [46, 46] :: names) ∧
      ListsExactly w.store P names

theorem readDir_all {filler : ℕ → Bool} (hf : ∀ n, filler n = true) (handle : ℕ) :
    (w.readDir handle filler).2 = (0, [46] :: [46, 46] ::
      (w.dirEntries (inoOf (w.store.value handle))).map fun e => nameOf e.2) := by
  unfold readDir
  dsimp only
  rw [if_pos (hf 0), if_pos (hf 1), fillNames_all hf]
  rfl

theorem dirListing_iff (w : World) (handle : ℕ) (P : MetaKey → Prop) :
    w.DirListing handle P ↔ ListsExactly w.store P
      ((w.dirEntries (inoOf (w.store.value handle))).map fun e => nameOf e.2) := by
  constructor
  · intro h
    obtain ⟨names, hans, hl⟩ := h (fun _ => true) fun _ => rfl
    rw [readDir_all fun _ => rfl] at hans
    have hnames := congrArg Prod.snd hans
    obtain rfl := (List.cons.inj (List.cons.inj hnames).2).2
    exact hl
  · intro hl filler hf
    exact ⟨_, readDir_all hf handle, hl⟩

theorem ListsExactly.congr {s : Store} {P Q : MetaKey → Prop} {names : List Bytes}
    (h : ListsExactly s P names) (hPQ : ∀ k v, s.dbGet k = some v → (P k ↔ Q k)) :
    ListsExactly s Q names := by
  obtain ⟨records, hnodup, hmem, hnames⟩ := h
  refine ⟨records, hnodup, ?_, hnames⟩
  intro k v
  rw [hmem]
  exact and_congr_right (hPQ k v)

/-- A list of names, each with the hash of its key, tells which keys it is about. -/
theorem ListsExactly.same {s : Store} (hr : s.Records) {P Q : MetaKey → Prop} {dir : UInt64}
    (hP : ∀ k, P k → k.inode_id = dir) (hQ : ∀ k, Q k → k.inode_id = dir) {names : List Bytes}
    (h : ListsExactly s P names) (h' : ListsExactly s Q names) (k : MetaKey) (v : Bytes)
    (hv : s.dbGet k = some v) : P k ↔ Q k := by
  have hmem : ∀ {P : MetaKey → Prop}, (∀ k, P k → k.inode_id = dir) →
      ListsExactly s P names → (P k ↔ k.inode_id = dir ∧ nameField v ∈ names) := by
    rintro P hP ⟨records, _, hrec, rfl⟩
    constructor
    · intro hk
      exact ⟨hP k hk, List.mem_map.mpr ⟨(k, v), (hrec k v).mpr ⟨hv, hk⟩, rfl⟩⟩
    · rintro ⟨hdir, hname⟩
      obtain ⟨⟨k', v'⟩, hin, hname'⟩ := List.mem_map.mp hname
      obtain ⟨hv', hk'⟩ := (hrec k' v').mp hin
      have hhash := (hr.all.db k v hv).listable.hash
      have hhash' := (hr.all.db k' v' hv').listable.hash
      have hkk : k' = k := by
        have hi := hP k' hk'
        have hn : nameField v' = nameField v := hname'
        rw [hn, ← hhash] at hhash'
        obtain ⟨i', d'⟩ := k'
        obtain ⟨i, d⟩ := k
        simp only at hi hdir hhash'
        rw [hi, hdir, hhash']
      exact hkk ▸ hk'
  rw [hmem hP h, hmem hQ h']

/-- In every reachable state, `ReadDir` on a handle of a directory other than the root lists
`.`, `..` and every record of the directory exactly once. -/
theorem listing_exact (h : w.Reachable) {handle : ℕ}
    (hino : inoOf (w.store.value handle) ≠ ROOT_INODE_ID) :
    w.DirListing handle fun k => k.inode_id = inoOf (w.store.value handle) := by
  rw [dirListing_iff]
  refine (dirEntries_exact h.records _).congr ?_
  intro k v _
  refine ⟨And.left, fun hk => ⟨hk, ?_⟩⟩
  -- the scan starts at hash 0
  rw [MetaKey.toSlice, MetaKey.toSlice, childKey, if_neg hino, hk, append_lt_append]
  have hzero : leBytes 8 (0 : UInt64).toNat = List.replicate 8 0 := rfl
  rw [hzero]
  exact not_lt_zeros (length_leBytes _ _)

/-- A directory is made, with two files in it, and opened. -/
def filledRun : List Op :=
  [.makeDir [47, 100] 0, .makeNode [47, 100, 47, 97] 0 0, .makeNode [47, 100, 47, 98] 0 0,
    .openDir [47, 100]]

theorem filledRun_listing :
    ((mount Durable.empty plainConfig).run filledRun).DirListing 0
      fun k => k.inode_id = inoOf (((mount Durable.empty plainConfig).run filledRun).store.value 0) :=
  listing_exact ((Reachable.mount empty_records plainConfig).run (by decide)) (by decide +kernel)

/-! ## The root -/

/-- The records that the scan of the root passes over. -/
theorem root_below_iff {k : MetaKey} (hk : k.inode_id = ROOT_INODE_ID) :
    k.toSlice < (childKey ROOT_INODE_ID).toSlice ↔ k.hash_id.toNat % 256 = 0 := by
  rw [MetaKey.toSlice, MetaKey.toSlice, childKey, if_pos rfl, hk, append_lt_append]
  exact leBytes_lt_one 7 k.hash_id.toNat

/-- In every reachable state, `ReadDir` on a handle of the root lists `.`, `..` and every record
of the root exactly once, but not the root's own, if and only if the root has no record of
its own and no child whose hash is a multiple of 256. -/
theorem root_listing_iff (h : w.Reachable) {handle : ℕ}
    (hino : inoOf (w.store.value handle) = ROOT_INODE_ID) :
    w.DirListing handle (fun k => k.inode_id = ROOT_INODE_ID ∧ k ≠ rootKey) ↔
      w.store.dbGet rootKey = none ∧ ∀ k v, w.store.dbGet k = some v →
        k.inode_id = ROOT_INODE_ID → k.hash_id.toNat % 256 ≠ 0 := by
  have hroot : rootKey.hash_id.toNat % 256 ≠ 0 := by decide +kernel
  have hexact := dirEntries_exact h.records ROOT_INODE_ID
  rw [dirListing_iff, hino]
  constructor
  · intro hl
    -- both lists have the same names, and so the same keys
    have hsame := hl.same h.records (fun _ => And.left) (fun _ => And.left) hexact
    constructor
    · by_contra hne
      obtain ⟨v, hv⟩ := Option.ne_none_iff_exists'.mp hne
      have hin := (hsame rootKey v hv).mpr ⟨rfl, fun hlt => hroot ((root_below_iff rfl).mp hlt)⟩
      exact hin.2 rfl
    · intro k v hv hk h0
      have hne : k ≠ rootKey := by
        rintro rfl
        exact hroot h0
      exact ((hsame k v hv).mp ⟨hk, hne⟩).2 ((root_below_iff hk).mpr h0)
  · rintro ⟨hnone, hhash⟩
    refine hexact.congr ?_
    intro k v hv
    refine and_congr_right fun hk => iff_of_true ?_ ?_
    · intro hlt
      exact hhash k v hv hk ((root_below_iff hk).mp hlt)
    · rintro rfl
      rw [hnone] at hv
      cases hv

/-- The root's own record is moved to a name in the root. -/
def rootMovedRun : List Op := [.openDir [47], .rename [47] [47, 97]]

theorem rootMovedRun_listing :
    ((mount Durable.empty plainConfig).run rootMovedRun).DirListing 0
      fun k => k.inode_id = ROOT_INODE_ID ∧ k ≠ rootKey := by
  refine (root_listing_iff ((Reachable.mount empty_records plainConfig).run (by decide))
    (by decide +kernel)).mpr ⟨by decide +kernel, ?_⟩
  -- the moved record is the only one
  have hkeys : ((mount Durable.empty plainConfig).run rootMovedRun).store.metadb.entries.map
      Prod.fst = [(buildMetaKey [97] 0).toSlice] := by
    decide +kernel
  intro k v hv _
  have hmem := List.mem_map_of_mem (f := Prod.fst) ((SortedMap.mem_entries_iff _ _ _).mpr hv)
  rw [hkeys, List.mem_singleton] at hmem
  rw [MetaKey.toSlice_inj hmem]
  decide +kernel

/-- A file whose name has a hash that is a multiple of 256. -/
def hiddenRun : List Op := [.makeNode [47, 116, 105, 97] 0 0, .openDir [47]]

/-- `ReadDir` lists the empty name and not the file. -/
theorem root_listing_wrong :
    ¬ ∀ (w : World) (handle : ℕ), w.Reachable → (∀ n, w.files n = none) → handle ∈ w.dirs →
      inoOf (w.store.value handle) = ROOT_INODE_ID →
      w.DirListing handle fun k => k.inode_id = ROOT_INODE_ID ∧ k ≠ rootKey := by
  intro h
  have hr : ((mount Durable.empty plainConfig).run hiddenRun).Reachable :=
    (Reachable.mount empty_records plainConfig).run (by decide)
  have hfiles := mount_run_files Durable.empty plainConfig hiddenRun (by decide +kernel)
  obtain ⟨names, hans, records, _, hmem, rfl⟩ :=
    h _ 0 hr hfiles (by decide +kernel) (by decide +kernel) (fun _ => true) fun _ => rfl
  have hreal : (((mount Durable.empty plainConfig).run hiddenRun).readDir 0
      fun _ => true).2.2 = [[46], [46, 46], []] := by
    decide +kernel
  have hnames := congrArg Prod.snd hans
  dsimp only at hnames
  rw [hreal] at hnames
  -- the file's record is one of those to be listed
  obtain ⟨v, hv⟩ := Option.ne_none_iff_exists'.mp (show
    ((mount Durable.empty plainConfig).run hiddenRun).store.dbGet (buildMetaKey [116, 105, 97] 0)
      ≠ none by decide +kernel)
  have hin := List.mem_map_of_mem (f := fun r : MetaKey × Bytes => nameField r.2)
    ((hmem _ v).mpr ⟨hv, rfl, by decide +kernel⟩)
  rw [← (List.cons.inj (List.cons.inj hnames).2).2, List.mem_singleton] at hin
  have hname : (((mount Durable.empty plainConfig).run hiddenRun).store.dbGet
      (buildMetaKey [116, 105, 97] 0)).map nameField = some [116, 105, 97] := by
    decide +kernel
  rw [hv] at hname
  rw [Option.map_some, Option.some.injEq] at hname
  exact absurd (hname.symm.trans hin) (by decide)

end World

end Tablefs
