/-
Inode numbers across mounts.

`NewInode` counts in memory, and the count reaches `root.dat` only in `Destroy`;
records reach the store at once. Within one mount the counter is above every
number in use (`Counted`), in the store, in the cache and in what the log put.
Across mounts this survives when a mount ends so that `root.dat` covers what is
stored (`MachineOp.Saves`): a completed `Destroy` does, once a number has been
handed out, and a crash does only if no number above the stored one got a
record. `inode_numbers_reused` is the short run in which it does not.
-/
import Tablefs.Reachable

set_option autoImplicit false

namespace Tablefs

open ByteString

/-! ## What should hold -/

/-- The number `NewInode` returns in a call is no stored record's, and `Init` writes
nothing to a store that has a root record. -/
def MachineOp.InodesFresh : Machine → MachineOp → Prop
  | .up _ w, .call _ => ∀ k v, w.store.dbGet k = some v → inoOf v ≠ w.newInode.2
  | .down d, .mount cfg =>
      d.get rootKey ≠ none → dbEvents (Tablefs.mount d cfg).store.log = []
  | _, _ => True

/-! ## When it does -/

/-- `root.dat` covers what is stored: no record has a larger inode number, and
with a root record stored it does not hold 0. -/
structure Durable.Covered (d : Durable) : Prop where
  le : ∀ k v, d.get k = some v → (inoOf v).toNat ≤ d.rootNumber
  pos : d.get rootKey ≠ none → 0 < d.rootNumber

/-- The condition on a step: a crash leaves a covering `root.dat`, `Destroy` finds a
counter that has moved and fits `%u`, and a call finds one that does not wrap. -/
def MachineOp.Saves : Machine → MachineOp → Prop
  | .up base w, .crash point => (base.replay (w.store.log.take point)).Covered
  | .up _ w, .destroy => 0 < w.max_inode_num ∧ w.max_inode_num.toNat < 2 ^ 32
  | .up _ w, .call _ => w.max_inode_num.toNat + 1 < 2 ^ 64
  | _, _ => True

/-! ## The invariant -/

/-- The values of a state are records with inode numbers up to `b`. -/
abbrev Counted (b : UInt64) (s : Store) : Prop := s.AllValues (RecordIs fun _ _ i => i ≤ b) 0

/-- What holds of the machine between steps. -/
def Machine.Inv : Machine → Prop
  | .up base w => base.Records ∧ w.Accounted ∧ w.store.Records ∧ Counted w.max_inode_num w.store
  | .down d => d.Records ∧ d.Covered

/-- A record with a number below `b`, from its number alone. -/
theorem RecordIs.of_inoOf {b : UInt64} {k : MetaKey} {v : Bytes}
    (h : RecordIs Named k v) (hb : Tablefs.inoOf v ≤ b) :
    RecordIs (fun _ _ i => i ≤ b) k v := by
  obtain ⟨r, rfl, _⟩ := h
  exact ⟨r, rfl, by rwa [Tablefs.inoOf, r.getAttribute_value] at hb⟩

/-! ### Mounting -/

theorem rootNumber_lt (d : Durable) : d.rootNumber < 2 ^ 32 := Nat.mod_lt _ (by omega)

theorem mount_inv {d : Durable} (hr : d.Records) (hc : d.Covered) (cfg : MountConfig) :
    Machine.Inv (.up d (mount d cfg)) := by
  refine ⟨hr, mount_accounted d cfg, mount_records hr cfg, ?_⟩
  have hlt := rootNumber_lt d
  refine mount_allValues cfg (fun k v hv => ?_) ?_
  · refine RecordIs.of_inoOf (Keyed.get hr hv) ?_
    rw [mount_max_inode_num, UInt64.le_iff_toNat_le, UInt64.toNat_ofNat']
    have := hc.le k v hv
    omega
  · obtain ⟨r, hrv, _, _, _, hs⟩ := World.initInodeValue_record
      { setup d cfg with flag_fuse_enabled := cfg.fuse } ROOT_INODE_ID cfg.st_mode cfg.st_dev
      [] [] (by simp)
    exact ⟨r, hrv, by rw [hs]; exact UInt64.le_iff_toNat_le.mpr (Nat.zero_le _)⟩

/-! ### Calls -/

theorem step_counted {w : World} (ha : w.Accounted) (h : Counted w.max_inode_num w.store)
    {op : Op} (hwf : op.WellFormed) (hmax : w.max_inode_num.toNat + 1 < 2 ^ 64) :
    Counted (w.step op).1.max_inode_num (w.step op).1.store := by
  obtain ⟨w₁, e, hl, _, hp, hu⟩ := w.step_steps op
  have hstep : (w.step op).1.max_inode_num = (w₁.perform e).max_inode_num := by
    obtain ⟨_, _, _, h⟩ := hu
    rw [h]
  have hsucc : w.max_inode_num ≤ w.max_inode_num + 1 := by
    rw [UInt64.le_iff_toNat_le, UInt64.toNat_add]
    rw [Nat.mod_eq_of_lt (by simpa using hmax)]
    exact Nat.le_add_right _ _
  refine hu.allValues ?_
  rw [hstep]
  have hedit : ∀ b : UInt64, ∀ k old new, Edited old new →
      RecordIs (fun _ _ i => i ≤ b) k old → RecordIs (fun _ _ i => i ≤ b) k new :=
    fun b k old new => RecordIs.edit k old new
  have hmove : ∀ b : UInt64, ∀ old_key new_key filename, e = .move old_key new_key filename →
      ∀ v, w.store.lookup old_key = some v → RecordIs (fun _ _ i => i ≤ b) old_key v →
        RecordIs (fun _ _ i => i ≤ b) new_key (renameInodeValue v filename) := by
    rintro b old_key new_key filename rfl v _ hq
    obtain ⟨_, path, hpath, _, _, rfl⟩ := hp.move_name hwf
    have := hpath.goodName.short
    rw [hpath.filename]
    exact hq.rename (by omega) fun _ _ hi => hi
  rcases w₁.perform_max_inode_num e with hm | ⟨⟨key, value, rfl⟩, hm⟩
  · rw [hm, hl.max_inode_num]
    refine World.performs_allValues (hedit _) ha h hwf hl hp ?_ ?_
    · rintro key value rfl _
      -- a creation moves the counter
      have hm' : w₁.max_inode_num + 1 = w₁.max_inode_num := hm
      rw [hl.max_inode_num] at hm'
      have := congrArg UInt64.toNat hm'
      rw [UInt64.toNat_add, Nat.mod_eq_of_lt (by simpa using hmax)] at this
      simp at this
    · exact fun o n f he v hv => hmove _ o n f he v hv (h.lookup hv)
  · rw [hm, hl.max_inode_num]
    have h' : Counted (w.max_inode_num + 1) w.store :=
      h.mono fun k v ⟨r, hr, hi⟩ => ⟨r, hr, UInt64.le_trans hi hsucc⟩
    refine World.performs_allValues (hedit _) ha h' hwf hl hp ?_ ?_
    · rintro key' value' he _
      obtain ⟨rfl, rfl⟩ := Effect.create.inj he
      obtain ⟨path, mode, dev, rest, hpath, _, rfl⟩ := hp.create_value hwf
      have := hpath.goodName.short
      obtain ⟨r, hr, _, _, _, hs⟩ := w.initInodeValue_record (w.max_inode_num + 1) mode dev
        (filenameOf path) rest (by rw [hpath.filename]; omega)
      exact ⟨r, hr, by rw [hs]; exact UInt64.le_refl _⟩
    · exact fun o n f he => by cases he

/-! ### Unmounting -/

theorem destroy_inv {base : Durable} {w : World} (h : Machine.Inv (.up base w))
    (hpos : 0 < w.max_inode_num) (hlt : w.max_inode_num.toNat < 2 ^ 32) :
    Machine.Inv (.down w.destroy.durable) := by
  obtain ⟨_, _, hr, hc⟩ := h
  have hall := World.destroy_allValues hc
  have hnum : w.destroy.durable.rootNumber = w.max_inode_num.toNat := by
    show (w.max_inode_num.toNat % 2 ^ 32) % 2 ^ 32 = _
    omega
  refine ⟨World.destroy_records hr, ⟨fun k v hv => ?_, fun _ => ?_⟩⟩
  · obtain ⟨_, hi⟩ := (hall.db k v hv).inoOf
    rw [hnum]
    exact UInt64.le_iff_toNat_le.mp hi
  · rw [hnum]
    exact UInt64.lt_iff_toNat_lt.mp hpos

/-! ## Runs of the machine -/

/-- The calls of a run are the callers' well-formed ones. -/
def MachineOp.WellFormed : MachineOp → Prop
  | .call op => op.WellFormed
  | _ => True

instance : DecidablePred MachineOp.WellFormed := fun mop => match mop with
  | .call op => inferInstanceAs (Decidable op.WellFormed)
  | .mount _ | .destroy | .crash _ => inferInstanceAs (Decidable True)

theorem Machine.Inv.step {m : Machine} (h : m.Inv) {op : MachineOp} (hs : MachineOp.Saves m op)
    (hwf : op.WellFormed) : (m.step op).Inv := by
  cases m with
  | down d =>
      cases op with
      | mount cfg => exact mount_inv h.1 h.2 cfg
      | _ => exact h
  | up base w =>
      cases op with
      | call op =>
          exact ⟨h.1, h.2.1.step op, h.2.2.1.step h.2.1 hwf, step_counted h.2.1 h.2.2.2 hwf hs⟩
      | destroy => exact destroy_inv h hs.1 hs.2
      | crash point => exact ⟨h.1.replay_take h.2.2.1 point, hs⟩
      | mount cfg => exact h

/-- The counter is above every number in use, and an unmounted file system with a
root record does not look empty. -/
theorem Machine.Inv.inodesFresh {m : Machine} (h : m.Inv) {op : MachineOp}
    (hs : MachineOp.Saves m op) : MachineOp.InodesFresh m op := by
  cases m with
  | up base w =>
      cases op with
      | call op =>
          intro k v hv heq
          obtain ⟨_, hi⟩ := (h.2.2.2.db k v hv).inoOf
          have hmax : w.max_inode_num.toNat + 1 < 2 ^ 64 := hs
          rw [heq, World.newInode_snd, UInt64.le_iff_toNat_le, UInt64.toNat_add,
            Nat.mod_eq_of_lt (by simpa using hmax)] at hi
          simp at hi
      | _ => trivial
  | down d =>
      cases op with
      | mount cfg =>
          intro hroot
          obtain ⟨_, _, hlog, hm⟩ := setup_store d cfg
          have hpos := h.2.pos hroot
          have hlt := rootNumber_lt d
          have hne : (setup d cfg).max_inode_num ≠ 0 := by
            rw [hm]
            intro h0
            have := congrArg UInt64.toNat h0
            rw [UInt64.toNat_ofNat'] at this
            simp at this
            omega
          rw [mount, World.init]
          dsimp only
          rw [if_neg hne]
          exact hlog
      | _ => trivial

theorem empty_inv : (Machine.down Durable.empty).Inv :=
  ⟨empty_records, ⟨fun k v hv => absurd hv (by simp [Durable.get, Durable.empty]),
      fun h => absurd (SortedMap.get_empty _) h⟩⟩

/-- From an empty disk, in every run whose mounts end with a `root.dat` that covers
what is stored, no inode number is handed out twice and no root record is
overwritten. -/
theorem inode_numbers_fresh (ops : List MachineOp) (hwf : ∀ op ∈ ops, op.WellFormed)
    (hs : (Machine.down Durable.empty).Meets MachineOp.Saves ops) :
    (Machine.down Durable.empty).Meets MachineOp.InodesFresh ops := by
  have hw : (Machine.down Durable.empty).Meets (fun _ op => op.WellFormed) ops :=
    Transition.meets_of_forall hwf _
  exact Transition.meets_of_invariant (P := Machine.Inv) (fun _ _ h hc => h.step hc.1 hc.2)
    (fun _ _ h hc => h.inodesFresh hc.1) empty_inv (Transition.Meets.and hs hw)

/-! ### Runs -/

/-- One file is made, the file system is unmounted and mounted again, and another
file is made. -/
def remountRun : List MachineOp :=
  [.mount plainConfig, .call (.makeNode [47, 97] 0 0), .destroy, .mount plainConfig,
    .call (.makeNode [47, 98] 0 0)]

theorem remountRun_fresh :
    (Machine.down Durable.empty).Meets MachineOp.InodesFresh remountRun := by
  refine inode_numbers_fresh remountRun (by decide) ?_
  · refine ⟨trivial, ?_, ?_, trivial, ?_, trivial⟩
    · show _ < _
      decide +kernel
    · show _ ∧ _
      decide +kernel
    · show _ < _
      decide +kernel

/-- One file is made, the process dies, and after the next mount another file is
made: `root.dat` still holds 0. -/
def crashRun : List MachineOp :=
  [.mount plainConfig, .call (.makeNode [47, 97] 0 0), .crash 8, .mount plainConfig,
    .call (.makeNode [47, 98] 0 0)]

/-- What the crash leaves. -/
def crashedDisk : Durable :=
  Durable.empty.replay
    (((mount Durable.empty plainConfig).step (.makeNode [47, 97] 0 0)).1.store.log.take 8)

/-- The second file gets the number of the first. -/
theorem inode_numbers_reused :
    ¬ ∀ ops : List MachineOp, (∀ op ∈ ops, op.WellFormed) →
      (Machine.down Durable.empty).Meets MachineOp.InodesFresh ops := by
  intro h
  have hrun := h crashRun (by decide)
  obtain ⟨_, _, _, _, hlast, _⟩ := hrun
  have hsame : ((mount crashedDisk plainConfig).store.dbGet (buildMetaKey [97] 0)).map inoOf
      = some (mount crashedDisk plainConfig).newInode.2 := by decide +kernel
  obtain ⟨v, hv, hino⟩ := Option.map_eq_some_iff.mp hsame
  exact hlast _ v hv hino

end Tablefs
