/-
What each call on a data file can come back with.

A call either fails, and then the data directory and the descriptors are as before, or
it does what it was asked to, perhaps on fewer bytes than it was given. `shortIo` tells
the two apart afterwards: as long as it is not set, every call so far did all that it was
asked to (`Failed.not_full`, `Wrote.full`, `Read.full`).
-/
import Tablefs.Frame

set_option autoImplicit false

namespace Tablefs

open ByteString

namespace World

/-! ## Outcomes -/

/-- What the surroundings have for the next system call. -/
def outcome (w : World) : IoOutcome := w.os.ioFaults.headD .ok

/-- The state with that outcome taken. -/
def afterIo (w : World) : World := { w with os := { w.os with ioFaults := w.os.ioFaults.tail } }

theorem afterIo_fdEntry (w : World) (fd : ℤ) : w.afterIo.fdEntry fd = w.fdEntry fd := rfl

theorem nextIo_eq (w : World) : w.nextIo = (w.outcome, w.afterIo) := by
  unfold nextIo outcome afterIo
  cases h : w.os.ioFaults with
  | nil =>
      obtain ⟨_, _, ⟨_, _, _, _, _, _, _⟩, _, _, _, _, _, _, _⟩ := w
      subst h
      rfl
  | cons o os => rfl

/-- `w'` is what a call that failed left of `w`. -/
structure Failed (w w' : World) : Prop where
  disk : w'.os.disk = w.os.disk
  fds : w'.os.fds = w.os.fds
  ioFaults : w'.os.ioFaults = w.os.ioFaults.tail
  shortIo : w'.os.shortIo = true
  errno : w'.os.errno ≠ 0

/-- A call that failed is not one that did all it was asked to. -/
theorem Failed.not_full {w w' : World} (h : w.Failed w') : w'.os.shortIo ≠ false := by
  rw [h.shortIo]
  decide

theorem failed_ioFail (w : World) {e : ℕ} (he : e ≠ 0) :
    w.Failed (w.afterIo.ioFail e) :=
  ⟨rfl, rfl, rfl, rfl, he⟩

/-! ## `open` and `close` -/

/-- The file was there, or has been made. -/
inductive Named (w w' : World) (path : BlobPath) (trunc creat : Bool) (file : ℕ) : Prop
  | old (hn : w.os.disk.names path = some file)
      (hd : w'.os.disk = if trunc then (DiskEffect.truncate file 0).apply w.os.disk else w.os.disk)
  | new (hn : w.os.disk.names path = none) (hc : creat = true)
      (hs : w.os.disk.subdirs path.1 = true) (hf : file = w.os.disk.nextFile)
      (hd : w'.os.disk = (DiskEffect.create path).apply w.os.disk)

/-- `w'` and `fd` are what an `open` that succeeded left. -/
structure Opened (w w' : World) (fd : ℤ) (path : BlobPath) (flags : OpenFlags) (creat : Bool)
    (file : ℕ) : Prop where
  fd_eq : fd = w.lowestFd
  named : w.Named w' path flags.trunc creat file
  fds : w'.os.fds = Function.update w.os.fds w.lowestFd (some ⟨file, flags.acc⟩)
  ioFaults : w'.os.ioFaults = w.os.ioFaults.tail
  shortIo : w'.os.shortIo = w.os.shortIo
  errno : w'.os.errno = w.os.errno

/-- The lowest descriptor is not open. -/
theorem lowestFd_free (w : World) : w.os.fds w.lowestFd = none := by
  unfold lowestFd
  cases h : (List.range w.os.fdBound).find? fun n => w.os.fds n = none with
  | none => exact w.os.fds_above _ (Nat.le_refl _)
  | some n => simpa using List.find?_some h

theorem sysOpen_cases (w : World) (path : BlobPath) (flags : OpenFlags) (creat : Bool) :
    ((w.sysOpen path flags creat).2 = -1 ∧ w.Failed (w.sysOpen path flags creat).1) ∨
      ∃ file, w.Opened (w.sysOpen path flags creat).1 (w.sysOpen path flags creat).2 path flags
        creat file := by
  rw [sysOpen, nextIo_eq]
  cases ho : w.outcome with
  | fail e => exact Or.inl ⟨rfl, w.failed_ioFail e.ne_zero⟩
  | _ =>
      dsimp only
      split
      · rename_i file hn
        right
        refine ⟨file, ?_⟩
        cases ht : flags.trunc with
        | true => exact ⟨rfl, .old hn (by rw [ht]; rfl), rfl, rfl, rfl, rfl⟩
        | false => exact ⟨rfl, .old hn (by rw [ht]; rfl), rfl, rfl, rfl, rfl⟩
      · rename_i hn
        split
        · rename_i hc
          exact Or.inr ⟨_, rfl, .new hn hc.1 hc.2 rfl rfl, rfl, rfl, rfl, rfl⟩
        · exact Or.inl ⟨rfl, w.failed_ioFail (by decide)⟩

/-- `close` changes the descriptors only, and of these the one it is given. -/
theorem sysClose_data (w : World) (fd : ℤ) :
    (w.sysClose fd).1.os.disk = w.os.disk ∧ (w.sysClose fd).1.os.shortIo = w.os.shortIo ∧
      (w.sysClose fd).1.os.ioFaults = w.os.ioFaults ∧
      ∀ n : ℕ, (n : ℤ) ≠ fd → (w.sysClose fd).1.os.fds n = w.os.fds n := by
  unfold sysClose
  split
  · exact ⟨rfl, rfl, rfl, fun _ _ => rfl⟩
  · refine ⟨rfl, rfl, rfl, fun n hn => ?_⟩
    rename_i f hf
    have hpos : 0 ≤ fd := by
      by_contra hneg
      rw [fdEntry, if_neg hneg] at hf
      cases hf
    exact Function.update_of_ne (by omega) _ _

/-! ## `pread`, `pwrite` and the rest -/

theorem transferred_le (o : IoOutcome) (size : ℕ) :
    transferred o size ≤ size ∧ transferred o size < 2 ^ 31 := by
  have hmax : MAX_RW_COUNT < 2 ^ 31 := by decide
  unfold transferred
  split <;> omega

/-- `w'`, `ret` and `data` are what a `pread` that succeeded left. -/
structure Read (w w' : World) (fd : ℤ) (size : ℕ) (offset : ℤ) (ret : ℤ) (data : Bytes) :
    Prop where
  open_file : ∃ f, w.fdEntry fd = some f ∧ f.acc ≠ .wrOnly ∧
    data <+: slice (w.os.disk.content f.file) offset.toNat size ∧
    (w'.os.shortIo = false → data = slice (w.os.disk.content f.file) offset.toNat size)
  offset : 0 ≤ offset
  ret_eq : ret = data.length
  lt : data.length < 2 ^ 31
  disk : w'.os.disk = w.os.disk
  fds : w'.os.fds = w.os.fds
  ioFaults : w'.os.ioFaults = w.os.ioFaults.tail
  shortIo : w'.os.shortIo = false → w.os.shortIo = false

theorem sysPread_cases (w : World) (fd : ℤ) (size : ℕ) (offset : ℤ) :
    ((w.sysPread fd size offset).2 = (-1, []) ∧ w.Failed (w.sysPread fd size offset).1) ∨
      w.Read (w.sysPread fd size offset).1 fd size offset (w.sysPread fd size offset).2.1
        (w.sysPread fd size offset).2.2 := by
  rw [sysPread, nextIo_eq]
  cases ho : w.outcome with
  | fail e => exact Or.inl ⟨rfl, w.failed_ioFail e.ne_zero⟩
  | _ =>
      dsimp only
      rw [afterIo_fdEntry]
      cases hf : w.fdEntry fd with
      | none => exact Or.inl ⟨rfl, w.failed_ioFail (by decide)⟩
      | some f =>
          dsimp only
          split
          · exact Or.inl ⟨rfl, w.failed_ioFail (by decide)⟩
          · rename_i hacc
            split
            · exact Or.inl ⟨rfl, w.failed_ioFail (by decide)⟩
            · rename_i hoff
              right
              refine ⟨⟨f, hf, hacc, List.take_prefix _ _, fun hs => ?_⟩, by omega, rfl,
                ?_, rfl, rfl, rfl, fun hs => ?_⟩
              · have hs' := (Bool.or_eq_false_iff.mp hs).2
                rw [decide_eq_false_iff_not, Nat.not_lt] at hs'
                exact (List.take_prefix _ _).eq_of_length_le hs'
              · rw [List.length_take]
                exact Nat.lt_of_le_of_lt (Nat.min_le_left _ _) (transferred_le _ _).2
              · exact (Bool.or_eq_false_iff.mp hs).1

/-- `w'` is what a `pwrite` left that wrote the first `n` bytes of `buf`. -/
structure Wrote (w w' : World) (fd : ℤ) (buf : Bytes) (offset : ℤ) (n : ℕ) : Prop where
  open_file : ∃ f, w.fdEntry fd = some f ∧ f.acc ≠ .rdOnly ∧
    w'.os.disk = if n = 0 then w.os.disk
      else (DiskEffect.pwrite f.file offset.toNat (buf.take n)).apply w.os.disk
  offset : 0 ≤ offset
  le : n ≤ buf.length
  lt : n < 2 ^ 31
  fds : w'.os.fds = w.os.fds
  ioFaults : w'.os.ioFaults = w.os.ioFaults.tail
  shortIo : w'.os.shortIo = (w.os.shortIo || decide (n < buf.length))
  errno : w'.os.errno = w.os.errno

theorem sysPwrite_cases (w : World) (fd : ℤ) (buf : Bytes) (offset : ℤ) :
    ((w.sysPwrite fd buf offset).2 = -1 ∧ w.Failed (w.sysPwrite fd buf offset).1) ∨
      ∃ n : ℕ, (w.sysPwrite fd buf offset).2 = n ∧
        w.Wrote (w.sysPwrite fd buf offset).1 fd buf offset n := by
  rw [sysPwrite, nextIo_eq]
  cases ho : w.outcome with
  | fail e => exact Or.inl ⟨rfl, w.failed_ioFail e.ne_zero⟩
  | _ =>
      dsimp only
      rw [afterIo_fdEntry]
      cases hf : w.fdEntry fd with
      | none => exact Or.inl ⟨rfl, w.failed_ioFail (by decide)⟩
      | some f =>
          dsimp only
          split
          · exact Or.inl ⟨rfl, w.failed_ioFail (by decide)⟩
          · rename_i hacc
            split
            · exact Or.inl ⟨rfl, w.failed_ioFail (by decide)⟩
            · rename_i hoff
              right
              refine ⟨_, rfl, ⟨f, hf, hacc, ?_⟩, by omega, (transferred_le _ _).1,
                (transferred_le _ _).2, ?_, ?_, ?_, ?_⟩
              all_goals (split <;> rfl)

/-- A `pwrite` of all its bytes. -/
theorem Wrote.full {w w' : World} {fd offset : ℤ} {buf : Bytes} {n : ℕ}
    (h : w.Wrote w' fd buf offset n) (hs : w'.os.shortIo = false) :
    n = buf.length ∧ w.os.shortIo = false := by
  have hs' := hs
  rw [h.shortIo, Bool.or_eq_false_iff, decide_eq_false_iff_not] at hs'
  exact ⟨Nat.le_antisymm h.le (by omega), hs'.1⟩

theorem sysFtruncate_cases (w : World) (fd size : ℤ) :
    ((w.sysFtruncate fd size).2 = -1 ∧ w.Failed (w.sysFtruncate fd size).1) ∨
      ((w.sysFtruncate fd size).2 = 0 ∧ 0 ≤ size ∧
        (w.sysFtruncate fd size).1.os.fds = w.os.fds ∧
        (w.sysFtruncate fd size).1.os.ioFaults = w.os.ioFaults.tail ∧
        (w.sysFtruncate fd size).1.os.shortIo = w.os.shortIo ∧
        ∃ f, w.fdEntry fd = some f ∧ (w.sysFtruncate fd size).1.os.disk
          = (DiskEffect.truncate f.file size.toNat).apply w.os.disk) := by
  rw [sysFtruncate, nextIo_eq]
  cases ho : w.outcome with
  | fail e => exact Or.inl ⟨rfl, w.failed_ioFail e.ne_zero⟩
  | _ =>
      dsimp only
      rw [afterIo_fdEntry]
      cases hf : w.fdEntry fd with
      | none => exact Or.inl ⟨rfl, w.failed_ioFail (by decide)⟩
      | some f =>
          dsimp only
          split
          · exact Or.inl ⟨rfl, w.failed_ioFail (by decide)⟩
          · exact Or.inr ⟨rfl, by omega, rfl, rfl, rfl, f, rfl, rfl⟩

theorem sysTruncate_cases (w : World) (path : BlobPath) (size : ℤ) :
    ((w.sysTruncate path size).2 = -1 ∧ w.Failed (w.sysTruncate path size).1) ∨
      ((w.sysTruncate path size).2 = 0 ∧ 0 ≤ size ∧
        (w.sysTruncate path size).1.os.fds = w.os.fds ∧
        (w.sysTruncate path size).1.os.ioFaults = w.os.ioFaults.tail ∧
        (w.sysTruncate path size).1.os.shortIo = w.os.shortIo ∧
        ∃ file, w.os.disk.names path = some file ∧ (w.sysTruncate path size).1.os.disk
          = (DiskEffect.truncate file size.toNat).apply w.os.disk) := by
  rw [sysTruncate, nextIo_eq]
  cases ho : w.outcome with
  | fail e => exact Or.inl ⟨rfl, w.failed_ioFail e.ne_zero⟩
  | _ =>
      dsimp only
      split
      · exact Or.inl ⟨rfl, w.failed_ioFail (by decide)⟩
      · rename_i file hn
        split
        · exact Or.inl ⟨rfl, w.failed_ioFail (by decide)⟩
        · exact Or.inr ⟨rfl, by omega, rfl, rfl, rfl, file, hn, rfl⟩

/-- `fsync` changes no data and no descriptor. -/
theorem sysFsync_data (w : World) (fd : ℤ) :
    (w.sysFsync fd).1.os.disk = w.os.disk ∧ (w.sysFsync fd).1.os.fds = w.os.fds ∧
      (w.sysFsync fd).1.os.shortIo = w.os.shortIo := by
  rw [sysFsync, nextIo_eq]
  cases ho : w.outcome with
  | fail e => exact ⟨rfl, rfl, rfl⟩
  | _ =>
      dsimp only
      split <;> exact ⟨rfl, rfl, rfl⟩

/-- After `unlink` the name is gone, whatever it stood for. -/
theorem sysUnlink_data (w : World) (path : BlobPath) :
    (w.sysUnlink path).os.disk = { w.os.disk with
        names := Function.update w.os.disk.names path none } ∧
      (w.sysUnlink path).os.fds = w.os.fds ∧ (w.sysUnlink path).os.shortIo = w.os.shortIo ∧
      (w.sysUnlink path).os.ioFaults = w.os.ioFaults := by
  unfold sysUnlink
  split
  · rename_i hn
    refine ⟨?_, rfl, rfl, rfl⟩
    rw [show Function.update w.os.disk.names path none = w.os.disk.names by
      rw [← hn, Function.update_eq_self]]
    rfl
  · exact ⟨rfl, rfl, rfl, rfl⟩

end World

end Tablefs
