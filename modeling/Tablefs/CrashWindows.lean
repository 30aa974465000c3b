/-
The window of a crash in `Unlink` and `Truncate`.

`Unlink` takes the disk file away while the record is still stored, and `Truncate` while the
stored record still has its data in the file. If the stored record points to the disk file
that the call takes, a crash right after `unlink` leaves it so. The condition of
`crashes_keep_data` on what a call takes is exact in this.
-/
import Tablefs.Crashes
import Tablefs.Coherence

set_option autoImplicit false

namespace Tablefs

open ByteString

namespace World

variable {w w' : World} {T : ℤ} {base : Durable} {p : BlobPath} {key : MetaKey} {r : InodeRecord}

/-- What there is at some point of a mount's log is what a crash can leave. -/
theorem crash_between (hr : Transition.run Durable.apply base w.store.log = w.durable)
    (hl : w.store.log <+: w'.store.log) : w.durable ∈ crashPoints base w'.store.log := by
  obtain ⟨evs, hevs⟩ := hl
  rw [← hevs, ← hr]
  have hself := Transition.always_append.mp (show Transition.Always Durable.apply
    (fun d => d ∈ crashPoints base (w.store.log ++ evs)) base (w.store.log ++ evs) from
      fun _ hd => hd)
  exact hself.1.last

theorem sysUnlink_replay (hr : Transition.run Durable.apply base w.store.log = w.durable)
    (p : BlobPath) : Transition.run Durable.apply base (w.sysUnlink p).store.log
      = (w.sysUnlink p).durable := by
  unfold World.sysUnlink
  split
  · exact hr
  · show Transition.run Durable.apply base (w.store.log ++ [.disk (.unlink p)]) = _
    rw [Transition.run_append, hr]
    rfl

/-- A stored record points to the disk file that is taken away. -/
theorem sysUnlink_loses (hv : w.store.dbGet key = some r.value) (hp : r.PointsTo p) :
    ¬ (w.sysUnlink p).durable.KeepsData := by
  intro h
  have hstored : (w.sysUnlink p).durable.get key = some r.value := by
    rw [← hv]
    unfold World.sysUnlink
    split <;> rfl
  refine (h key r hstored hp.1).1 hp.2.1 ?_
  rw [hp.2.2]
  show (w.sysUnlink p).os.disk.names p = none
  rw [(w.sysUnlink_data p).1]
  exact Function.update_self ..

/-- The log goes on behind a part of a call. -/
theorem log_cacheRelease (w : World) (i : ℕ) : w.store.log <+: (w.cacheRelease i).store.log := by
  obtain ⟨evs, hl, _⟩ := Store.extends_release w.store i
  exact ⟨_, hl.symm⟩

theorem log_cacheEvict (w : World) (k : MetaKey) :
    w.store.log <+: (w.cacheEvict k).store.log := by
  obtain ⟨evs, hl, _⟩ := Store.extends_evict w.store k
  exact ⟨_, hl.symm⟩

theorem log_cacheWriteBack (w : World) (i : ℕ) :
    w.store.log <+: (w.cacheWriteBack i).store.log := by
  obtain ⟨evs, hl, _⟩ := Store.extends_writeBack w.store i
  exact ⟨_, hl.symm⟩

theorem log_unlock (w : World) (k : MetaKey) : w.store.log <+: (w.unlock k).store.log :=
  List.prefix_append _ _

theorem Grows.log (h : w.Grows w') : w.store.log <+: w'.store.log := by
  obtain ⟨evs, hl, _⟩ := h
  exact ⟨evs, hl.symm⟩

/-- The record that a path leads to is as it was when its handle has been taken. -/
theorem cacheGet_dbGet {m : InodeAccessMode} {i : ℕ} (hg : w.cacheGet key m = (w', some i)) :
    w'.store.dbGet key = w.store.dbGet key := by
  obtain ⟨s, hs, rfl⟩ := cacheGet_some hg
  exact Store.get_dbGet hs

theorem Backed.unlink_loses (h : Backed T base w) {path : Bytes}
    (ht : w.takes (.unlink path) = some (key, p)) (hv : w.store.dbGet key = some r.value)
    (hp : r.PointsTo p) : ¬ (Machine.up base (w.unlink path).1).KeepsData := by
  rcases hpath : w.pathLookup path with ⟨w₁, _ | k⟩
  · rw [takes, hpath] at ht
    cases ht
  · obtain ⟨h₁, hl⟩ := h.pathLookup hpath
    have hl₁ : w.Looked (w₁.writeLock k) := hl.trans (looked_writeLock w₁ k)
    rw [takes, hpath] at ht
    change (w.store.lookup k).bind _ = _ at ht
    rcases hg : (w₁.writeLock k).cacheGet k .delete with ⟨w₂, _ | i⟩
    · rw [← hl₁.lookup, (cacheGet_none hg).2] at ht
      cases ht
    · obtain ⟨h₂, _, _, _, hval⟩ := (h₁.writeLock k).cacheGet hg nofun
      rw [← hl₁.lookup, hval, Option.bind_some] at ht
      change (if w.threshold_ < offT (w₂.iheader i).fstat.st_size then
        some (k, getDiskFilePath (w₂.iheader i).fstat.st_ino) else none) = _ at ht
      by_cases hbig : w.threshold_ < offT (w₂.iheader i).fstat.st_size
      · rw [if_pos hbig] at ht
        obtain ⟨rfl, rfl⟩ := Prod.mk.inj (Option.some.inj ht)
        have hbig₂ : w₂.threshold_ < offT (w₂.iheader i).fstat.st_size := by
          rwa [h₂.threshold, ← h.threshold]
        have hdb : w₂.store.dbGet k = some r.value := by
          rw [cacheGet_dbGet hg, ← hv, Store.dbGet, hl₁.metadb]
          rfl
        have hbad := sysUnlink_loses hdb hp
        have hr := sysUnlink_replay h₂.log.replay
          (getDiskFilePath (w₂.iheader i).fstat.st_ino)
        rw [World.unlink, hpath]
        dsimp only
        rw [hg]
        dsimp only
        rw [if_pos hbig₂]
        refine fun hk => hbad (hk _ (crash_between hr ?_))
        exact (log_cacheRelease _ i).trans ((log_cacheEvict _ k).trans (log_unlock _ k))
      · rw [if_neg hbig] at ht
        cases ht

theorem Backed.truncate_loses (h : Backed T base w) {path : Bytes} {n : ℤ}
    (hn : 0 ≤ n ∧ n < 2 ^ 63) (ht : w.takes (.truncate path n) = some (key, p))
    (hv : w.store.dbGet key = some r.value) (hp : r.PointsTo p) :
    ¬ (Machine.up base (w.truncate path n).1).KeepsData := by
  obtain ⟨m, rfl⟩ : ∃ m : ℕ, n = m := ⟨n.toNat, (Int.toNat_of_nonneg hn.1).symm⟩
  have hm : m < 2 ^ 63 := by exact_mod_cast hn.2
  rcases hpath : w.pathLookup path with ⟨w₁, _ | k⟩
  · rw [takes, hpath] at ht
    cases ht
  · obtain ⟨h₁, hl⟩ := h.pathLookup hpath
    rw [takes, hpath] at ht
    change (w.store.lookup k).bind _ = _ at ht
    rcases hlook : w.store.lookup k with _ | v
    · rw [hlook] at ht
      cases ht
    · obtain ⟨c, rfl, hs⟩ := h.lookup hlook
      rw [hlook, Option.bind_some, c.getInodeHeader_value] at ht
      by_cases hback : 0 < c.header.has_blob ∧ (m : ℤ) ≤ w.threshold_
      · rw [if_pos hback] at ht
        obtain ⟨rfl, hcp⟩ := Prod.mk.inj (Option.some.inj ht)
        have hpath_p : c.path = p := hcp
        -- the disk file is there, since a stored record points to it
        have hthere : w.os.disk.names p ≠ none := by
          obtain ⟨r', hr', _, hf⟩ := h.values.db k _ hv
          obtain rfl := InodeRecord.value_inj hr'
          exact hf p hp
        have hfile : c.HasFile w₁.os.disk := fun p' hp' => by
          rw [hl.disk, ← hp'.2.2, hpath_p]
          exact hthere
        have hlook₁ : w₁.store.lookup k = some c.value := by rw [hl.lookup, hlook]
        rcases hg : w₁.cacheGet k .write with ⟨wa, _ | i⟩
        · rw [(cacheGet_none hg).2] at hlook₁
          cases hlook₁
        · obtain ⟨ha, _, _, _, hval⟩ := h₁.cacheGet hg fun _ r' hr' => by
            rw [hlook₁] at hr'
            obtain rfl := InodeRecord.value_inj (Option.some.inj hr')
            exact hfile
          have hwl := ha.writeLock k
          have hva : (wa.writeLock k).store.value i = c.value := by
            rw [hlook₁] at hval
            exact (Option.some.inj hval).symm
          have hblob : c.header.has_blob = 1 := by
            cases hs with
            | small _ _ h0 _ =>
                rw [h0] at hback
                exact absurd hback.1 (by decide)
            | large _ _ h1 _ => exact h1
          obtain ⟨w₂, hg₁, hg₂, _⟩ := truncated_takes (n := m) hva hm
            (by rw [hwl.threshold]; exact hs) hblob
            (by rw [hwl.threshold, ← h.threshold]; exact hback.2)
          rw [hpath_p] at hg₂
          have hdb : w₂.store.dbGet k = some r.value := by
            rw [← hv, Store.dbGet, hg₁.names.1]
            show wa.store.dbGet k = w.store.dbGet k
            rw [cacheGet_dbGet hg, Store.dbGet, hl.metadb]
            rfl
          have hr := sysUnlink_replay (hwl.log.grows hg₁).replay p
          rw [(truncate_some hpath hg (m : ℤ)).1]
          refine fun hk => sysUnlink_loses hdb hp (hk _ (crash_between hr ?_))
          exact hg₂.log.trans ((log_cacheWriteBack _ i).trans
            ((log_cacheRelease _ i).trans (log_unlock _ k)))
      · rw [if_neg hback] at ht
        cases ht

end World

/-- A file whose data is in a disk file, closed. -/
def closedBlobRun : List MachineOp :=
  [.mount World.smallConfig, .call (.makeNode [47, 97] 0 0), .call (.openFile [47, 97] O_RDWR),
    .call (.write 0 [1, 2, 3, 4, 5] 0), .call (.release 0)]

/-- The file system with that file. -/
def closedBlob : World :=
  (mount Durable.empty World.smallConfig).run
    [.makeNode [47, 97] 0 0, .openFile [47, 97] O_RDWR, .write 0 [1, 2, 3, 4, 5] 0, .release 0]

theorem closedBlobRun_run :
    (Machine.down Durable.empty).run closedBlobRun = .up Durable.empty closedBlob := rfl

theorem closedBlobRun_spares :
    (Machine.down Durable.empty).Meets (MachineOp.SparesData 4) closedBlobRun :=
  meets_sparesData (by decide +kernel)

end Tablefs
