/-
The states a run can reach.

Everything about the file system is claimed of the states a run reaches from a
mount, on whatever records earlier mounts left behind (`World.Reachable`). In all
of them the references on inode handles are accounted for and every value is a
record; what a crash or an unmount leaves behind is again a store of records.
-/
import Tablefs.Records
import Tablefs.Log

set_option autoImplicit false

namespace Tablefs

open ByteString

/-! ## Stores of records -/

/-- The record stored under a key. -/
def Durable.get (d : Durable) (k : MetaKey) : Option Bytes := d.metadb.get k.toSlice

/-- What is stored is what `Sync` puts there and values under keys of
`tfs_meta_key_t`, of which `Q` holds. -/
def Keyed (Q : MetaKey → Bytes → Prop) (db : MetaDb) : Prop :=
  ∀ key v, db.get key = some v → key = syncKey ∨ ∃ k, key = MetaKey.toSlice k ∧ Q k v

/-- A record's key carries the hash of its name, which can be a name. -/
def Named (k : MetaKey) (name : Bytes) (_ : UInt64) : Prop :=
  GoodName name ∧ k.hash_id = murmur64 name 123

/-- The stored values are records under their names. -/
def Durable.Records (d : Durable) : Prop := Keyed (RecordIs Named) d.metadb

theorem empty_records : Durable.empty.Records :=
  fun key v hv => absurd hv (by simp [Durable.empty])

theorem RecordIs.inoOf {q : MetaKey → Bytes → UInt64 → Prop} {k : MetaKey} {v : Bytes}
    (h : RecordIs q k v) : ∃ n, q k n (inoOf v) := by
  obtain ⟨r, rfl, hq⟩ := h
  exact ⟨r.name, by rwa [Tablefs.inoOf, r.getAttribute_value]⟩

theorem RecordIs.mono {q q' : MetaKey → Bytes → UInt64 → Prop} {k : MetaKey} {v : Bytes}
    (h : RecordIs q k v) (hq : ∀ n i, q k n i → q' k n i) : RecordIs q' k v := by
  obtain ⟨r, hr, h⟩ := h
  exact ⟨r, hr, hq _ _ h⟩

/-- The root's record has no name. -/
theorem named_root (i : UInt64) : Named rootKey [] i :=
  ⟨⟨by simp, List.not_mem_nil, List.not_mem_nil⟩, rfl⟩

/-- A name is hashed into the key it is looked up under. -/
theorem named_lookup {w : World} {path : Bytes} {key : MetaKey} (hp : GoodPath path)
    (hk : (w.pathLookup path).2 = some key) (i : UInt64) : Named key (filenameOf path) i := by
  rw [hp.filename, World.pathLookup_key hp.last hk]
  exact ⟨hp.goodName, rfl⟩

namespace Keyed

variable {Q : MetaKey → Bytes → Prop} {db : MetaDb}

theorem get (h : Keyed Q db) {k : MetaKey} {v : Bytes} (hv : db.get k.toSlice = some v) :
    Q k v := by
  rcases h _ v hv with hs | ⟨k', hk, hq⟩
  · exact absurd hs.symm (Store.sync_ne_toSlice k)
  · rwa [MetaKey.toSlice_inj hk]

theorem mono {Q' : MetaKey → Bytes → Prop} (h : Keyed Q db) (hQ : ∀ k v, Q k v → Q' k v) :
    Keyed Q' db := fun key v hv =>
  (h key v hv).imp_right fun ⟨k, hk, hq⟩ => ⟨k, hk, hQ k v hq⟩

/-- What a write leaves under a key is what was there, or what it put. -/
theorem apply (h : Keyed Q db) {e : DbEffect} (he : e.Puts Q) : Keyed Q (e.apply db) := by
  intro key v hv
  cases e with
  | put key' value =>
      by_cases hk : key' = key
      · subst hk
        have hput : (db.put key' value).get key' = some value := SortedMap.get_put_self _ _ _
        rw [Option.some.inj (hv.symm.trans hput)]
        exact he
      · exact h key v ((SortedMap.get_put_of_ne _ _ hk).symm.trans hv)
  | delete key' =>
      by_cases hk : key' = key
      · subst hk
        have hdel : (db.delete key').get key' = none := SortedMap.get_delete_self _ _
        exact absurd (hv.symm.trans hdel) (by simp)
      · exact h key v ((SortedMap.get_delete_of_ne _ hk).symm.trans hv)
  | batch ops =>
      rcases Store.batch_get ops db key with hb | ⟨v', hv', hb⟩ | hb
      · exact h key v (hb.symm.trans hv)
      · rw [Option.some.inj (hv.symm.trans hb)]
        exact Or.inr (he key v' hv')
      · exact absurd (hv.symm.trans hb) (by simp)

theorem foldl (h : Keyed Q db) {evs : List DbEffect} (he : ∀ e ∈ evs, e.Puts Q) :
    Keyed Q (evs.foldl (fun db e => e.apply db) db) := by
  induction evs generalizing db with
  | nil => exact h
  | cons e evs ih =>
      exact ih (h.apply (he e List.mem_cons_self)) fun e' h' => he e' (List.mem_cons_of_mem e h')

end Keyed

/-! ## Replaying a log -/

theorem replay_metadb (d : Durable) (log : List Event) :
    (d.replay log).metadb = (dbEvents log).foldl (fun db e => e.apply db) d.metadb := by
  induction log generalizing d with
  | nil => rfl
  | cons ev log ih =>
      rw [Durable.replay, List.foldl_cons, ← Durable.replay, ih]
      cases ev <;> rfl

/-- At every point of a log, the store holds what it held or what the log put. -/
theorem Keyed.replay_take {Q : MetaKey → Bytes → Prop} {base : Durable} {log : List Event}
    (hbase : Keyed Q base.metadb) (hlog : ∀ e ∈ dbEvents log, e.Puts Q) (point : ℕ) :
    Keyed Q (base.replay (log.take point)).metadb := by
  have hsub : ∀ e ∈ dbEvents (log.take point), e.Puts Q := by
    intro e he
    refine hlog e ?_
    rw [← List.take_append_drop point log, dbEvents_append]
    exact List.mem_append_left _ he
  rw [replay_metadb]
  exact hbase.foldl hsub

/-! ## Mounting -/

/-- The number `root.dat` gives the next mount. -/
def Durable.rootNumber (d : Durable) : ℕ := d.disk.rootDat.getD 0 % 2 ^ 32

theorem setup_store (d : Durable) (cfg : MountConfig) :
    (setup d cfg).store.metadb = d.metadb ∧ (setup d cfg).store.cache = LruCache.empty ∧
      dbEvents (setup d cfg).store.log = [] ∧
      (setup d cfg).max_inode_num = .ofNat d.rootNumber := by
  unfold setup Durable.rootNumber
  dsimp only
  cases d.disk.rootDat with
  | none => exact ⟨rfl, rfl, rfl, rfl⟩
  | some n => exact ⟨rfl, rfl, rfl, rfl⟩

theorem mount_max_inode_num (d : Durable) (cfg : MountConfig) :
    (mount d cfg).max_inode_num = .ofNat d.rootNumber := by
  rw [← (setup_store d cfg).2.2.2, mount, World.init]
  dsimp only
  split <;> rfl

/-- The values of a fresh mount are the stored records and the root's. -/
theorem mount_allValues {Q : MetaKey → Bytes → Prop} {d : Durable} (cfg : MountConfig)
    (hd : ∀ k v, d.get k = some v → Q k v)
    (hroot : Q rootKey (World.initInodeValue { setup d cfg with flag_fuse_enabled := cfg.fuse }
      ROOT_INODE_ID cfg.st_mode cfg.st_dev [] [])) : (mount d cfg).store.AllValues Q 0 := by
  obtain ⟨hm, hcache, hlog, _⟩ := setup_store d cfg
  have hsetup : (setup d cfg).store.AllValues Q 0 := by
    refine ⟨fun k v hv => hd k v ?_, fun i hi => ?_, ?_⟩
    · rw [← hv, Store.dbGet, hm]; rfl
    · rw [hcache] at hi
      rcases hi with hi | hi
      · exact absurd hi List.not_mem_nil
      · exact absurd hi (Nat.lt_irrefl 0)
    · rw [hlog]; exact fun e he => absurd he List.not_mem_nil
  rw [mount, World.init]
  dsimp only
  split
  · exact hsetup.dbPut hroot
  · exact hsetup

/-- A fresh mount has no entries in the cache, the root's record apart its records
are the stored ones, and no write of it fails. -/
theorem mount_store (d : Durable) (cfg : MountConfig) :
    (mount d cfg).store.cache = LruCache.empty ∧ (mount d cfg).store.dbFaults = [] ∧
      (mount d cfg).dentry_cache = DentryCache.empty 16384 ∧
      ∀ k, k ≠ rootKey → (mount d cfg).store.dbGet k = d.get k := by
  have hs : (setup d cfg).store.cache = LruCache.empty ∧ (setup d cfg).store.dbFaults = [] ∧
      (setup d cfg).dentry_cache = DentryCache.empty 16384 := by
    unfold setup
    dsimp only
    split <;> exact ⟨rfl, rfl, rfl⟩
  obtain ⟨hm, _⟩ := setup_store d cfg
  have hget : ∀ k, (setup d cfg).store.dbGet k = d.get k := fun k => by rw [Store.dbGet, hm]; rfl
  rw [mount, World.init]
  dsimp only
  split
  · rw [Store.dbPut_ok _ _ _ hs.2.1]
    refine ⟨hs.1, hs.2.1, hs.2.2, fun k hk => ?_⟩
    rw [World.setStore_store, Store.commit_put_dbGet, if_neg (Ne.symm hk)]
    exact hget k
  · exact ⟨hs.1, hs.2.1, hs.2.2, fun k _ => hget k⟩

/-- A mount with the default threshold. -/
def plainConfig : MountConfig where
  threshold := 4096
  fuse := false
  st_mode := 0x41FF
  st_dev := 0
  env := { now := 0, uid := 0, gid := 0, junk := fun _ => 0, junkInt := -1 }

/-! ## Reachable states -/

/-- The values of a state are records under their names. -/
structure Store.Records (s : Store) : Prop where
  keyed : Keyed (RecordIs Named) s.metadb
  all : s.AllValues (RecordIs Named) 0

theorem mount_keyed {Q : MetaKey → Bytes → Prop} {d : Durable} (hd : Keyed Q d.metadb)
    (cfg : MountConfig)
    (hroot : Q rootKey (World.initInodeValue { setup d cfg with flag_fuse_enabled := cfg.fuse }
      ROOT_INODE_ID cfg.st_mode cfg.st_dev [] [])) : Keyed Q (mount d cfg).store.metadb := by
  have hf : (setup d cfg).store.dbFaults = [] := by
    unfold setup
    dsimp only
    split <;> rfl
  rw [mount, World.init]
  dsimp only
  split
  · rw [Store.dbPut_ok _ _ _ hf]
    refine Keyed.apply ?_ (Store.puts_put hroot)
    rw [(setup_store d cfg).1]
    exact hd
  · rw [(setup_store d cfg).1]
    exact hd

theorem mount_records {d : Durable} (hd : d.Records) (cfg : MountConfig) :
    (mount d cfg).store.Records := by
  have hroot : RecordIs Named rootKey
      (World.initInodeValue { setup d cfg with flag_fuse_enabled := cfg.fuse }
        ROOT_INODE_ID cfg.st_mode cfg.st_dev [] []) := by
    obtain ⟨r, hr, hn, _⟩ := World.initInodeValue_record
      { setup d cfg with flag_fuse_enabled := cfg.fuse } ROOT_INODE_ID cfg.st_mode cfg.st_dev
      [] [] (by simp)
    exact ⟨r, hr, hn ▸ named_root _⟩
  exact ⟨mount_keyed hd cfg hroot, mount_allValues cfg (fun k v hv => Keyed.get hd hv) hroot⟩

/-- The values stay records. -/
theorem Store.Records.step {w : World} (ha : w.Accounted) (h : w.store.Records) {op : Op}
    (hwf : op.WellFormed) : (w.step op).1.store.Records := by
  have hall : (w.step op).1.store.AllValues (RecordIs Named) 0 := by
    obtain ⟨w₁, e, hl, _, hp, hu⟩ := w.step_steps op
    refine hu.allValues (World.performs_allValues (fun k old new => RecordIs.edit k old new) ha
      h.all hwf hl hp ?_ ?_)
    · rintro key value rfl _
      obtain ⟨path, mode, dev, rest, hpath, hk, rfl⟩ := hp.create_value hwf
      have := hpath.goodName.short
      obtain ⟨r, hr, hn, _⟩ := w.initInodeValue_record (w.max_inode_num + 1) mode dev
        (filenameOf path) rest (by rw [hpath.filename]; omega)
      exact ⟨r, hr, hn ▸ named_lookup hpath hk _⟩
    · rintro old_key new_key filename rfl v hv
      obtain ⟨_, path, hpath, _, hk, rfl⟩ := hp.move_name hwf
      have := hpath.goodName.short
      refine (h.all.lookup hv).rename (by rw [hpath.filename]; omega) ?_
      intro _ i _
      exact named_lookup hpath hk i
  -- the log gained only writes that put records
  obtain ⟨evs, hlog, hm⟩ := w.step_dbEvents op
  refine ⟨?_, hall⟩
  rw [hm]
  refine h.keyed.foldl ?_
  intro e he
  refine hall.log e ?_
  rw [List.drop_zero, hlog]
  exact List.mem_append_right _ he

/-- What is left of a state at a crash is a store of records. -/
theorem Durable.Records.replay_take {base : Durable} (hb : base.Records) {s : Store}
    (h : s.Records) (point : ℕ) : (base.replay (s.log.take point)).Records :=
  Keyed.replay_take hb h.all.log point

namespace World

/-- Deleting the cache stores what is pending in it. -/
theorem destroy_allValues {Q : MetaKey → Bytes → Prop} {n : ℕ} {w : World}
    (h : w.store.AllValues Q n) : (w.store.cleanAll w.tableByShard).AllValues Q n := by
  refine h.shrink w.store.cache _ rfl rfl (fun _ hi => hi) fun i hi => ?_
  obtain ⟨_, _, hi⟩ := List.mem_flatMap.mp hi
  exact Or.inl (List.mem_filter.mp hi).1

/-- What is left of a state at an unmount is a store of records. -/
theorem destroy_records {w : World} (h : w.store.Records) : w.destroy.durable.Records := by
  obtain ⟨evs, hlog, hm⟩ := Store.extends_cleanAll w.store w.tableByShard
  show Keyed _ (w.store.cleanAll w.tableByShard).metadb
  rw [hm]
  refine h.keyed.foldl ?_
  intro e he
  refine (destroy_allValues h.all).log e ?_
  rw [List.drop_zero, hlog, dbEvents_append, Store.dbEvents_map_db]
  exact List.mem_append_right _ he

/-- The states that well-formed calls reach from a mount. -/
inductive Reachable : World → Prop
  | mount {d : Durable} (hd : d.Records) (cfg : MountConfig) : Reachable (mount d cfg)
  | step {w : World} (h : Reachable w) {op : Op} (hwf : op.WellFormed) : Reachable (w.next op)

theorem Reachable.accounted {w : World} (h : w.Reachable) : w.Accounted := by
  induction h with
  | mount _ cfg => exact mount_accounted _ cfg
  | step _ _ ih => exact ih.step _

theorem Reachable.records {w : World} (h : w.Reachable) : w.store.Records := by
  induction h with
  | mount hd cfg => exact mount_records hd cfg
  | step h hwf ih => exact Store.Records.step h.accounted ih hwf

theorem Reachable.run {w : World} (h : w.Reachable) {ops : List Op}
    (hwf : ∀ op ∈ ops, op.WellFormed) : (w.run ops).Reachable :=
  Transition.run_invariant (P := Reachable) (C := fun _ op => op.WellFormed)
    (fun _ _ h hwf => h.step hwf) h (Transition.meets_of_forall hwf w)

end World

/-- The state of a machine that has been started on an empty disk is reachable, and
what it leaves on the disk is a store of records. -/
def Machine.Reached : Machine → Prop
  | .up base w => base.Records ∧ w.Reachable
  | .down d => d.Records

theorem machine_reached {ops : List MachineOp}
    (hwf : ∀ op, MachineOp.call op ∈ ops → op.WellFormed) :
    ((Machine.down Durable.empty).run ops).Reached := by
  have hcalls : ∀ mop ∈ ops, ∀ op, mop = .call op → op.WellFormed := by
    rintro mop hm op rfl
    exact hwf op hm
  refine Transition.run_invariant (P := Machine.Reached)
    (C := fun _ mop => ∀ op, mop = .call op → op.WellFormed) (fun m mop h hC => ?_)
    empty_records (Transition.meets_of_forall hcalls _)
  cases m with
  | down d =>
      cases mop with
      | mount cfg => exact ⟨h, .mount h cfg⟩
      | _ => exact h
  | up base w =>
      cases mop with
      | call op => exact ⟨h.1, h.2.step (hC op rfl)⟩
      | destroy => exact World.destroy_records h.2.records
      | crash point => exact h.1.replay_take h.2.records point
      | mount cfg => exact h

end Tablefs
