/-
Failures of the calls on data files.

A file as its readers see it is a byte array and an `st_size`. `Write` and `Truncate` are
honest when a negative result means that neither has changed, and any other result says
what has been done. Whether they are depends on where the data is and on what the next
system calls come back with; `honest_iff` says exactly when.

The outcomes of the calls are those ahead in `ioFaults`; a call on a descriptor that is
open on the right file uses one of them up.
-/
import Tablefs.FileCalls
import Tablefs.BlobFlag

set_option autoImplicit false

namespace Tablefs

open ByteString

/-! ## The outcomes ahead -/

/-- The call fails. -/
def IoOutcome.Fails (o : IoOutcome) : Prop := ∃ e, o = .fail e

instance instDecidableFails (o : IoOutcome) : Decidable o.Fails :=
  match o with
  | .fail e => isTrue ⟨e, rfl⟩
  | .ok => isFalse (fun ⟨_, h⟩ => by cases h)
  | .short _ => isFalse (fun ⟨_, h⟩ => by cases h)

/-- How many of `size` bytes a `pwrite` writes through a descriptor opened for `acc`, if it
does not fail. -/
def IoOutcome.written (o : IoOutcome) (acc : AccMode) (size : ℕ) : Option ℕ :=
  if o.Fails ∨ acc = .rdOnly then none else some (World.transferred o size)

namespace World

variable {w : World}

/-- The outcome of the call after the next `i` ones. -/
def outcomeAt (w : World) (i : ℕ) : IoOutcome := (w.os.ioFaults.drop i).headD .ok

theorem outcome_of_drop {w' : World} {i : ℕ} (h : w'.os.ioFaults = w.os.ioFaults.drop i) :
    w'.outcome = w.outcomeAt i := by
  rw [outcome, h]
  rfl

theorem sysPwrite_outcome {fd offset : ℤ} {file : ℕ} {acc : AccMode}
    (hfd : w.fdEntry fd = some ⟨file, acc⟩) (hoff : 0 ≤ offset) (buf : Bytes) :
    (w.outcome.written acc buf.length = none ∧ (w.sysPwrite fd buf offset).2 = -1 ∧
        w.Failed (w.sysPwrite fd buf offset).1) ∨
      ∃ n, w.outcome.written acc buf.length = some n ∧ (w.sysPwrite fd buf offset).2 = n ∧
        w.Wrote (w.sysPwrite fd buf offset).1 fd buf offset n ∧
        (w.sysPwrite fd buf offset).1.os.disk = if n = 0 then w.os.disk
          else w.os.disk.setContent file
            (overlay (w.os.disk.content file) offset.toNat (buf.take n)) := by
  rcases w.sysPwrite_cases fd buf offset with ⟨hret, hf⟩ | ⟨n, hret, hw⟩
  · left
    refine ⟨?_, hret, hf⟩
    rw [IoOutcome.written, if_pos]
    by_contra hnot
    rw [not_or] at hnot
    -- the call had no reason to fail
    have hge : 0 ≤ (w.sysPwrite fd buf offset).2 := by
      rw [sysPwrite, nextIo_eq]
      cases ho : w.outcome with
      | fail e => exact absurd ⟨e, ho⟩ hnot.1
      | _ =>
          dsimp only
          rw [afterIo_fdEntry, hfd]
          dsimp only
          rw [if_neg hnot.2, if_neg (by omega)]
          exact Int.natCast_nonneg _
    rw [hret] at hge
    exact absurd hge (by decide)
  · right
    obtain ⟨g, hg, _, hd⟩ := hw.open_file
    rw [hfd] at hg
    obtain rfl := Option.some.inj hg
    refine ⟨n, ?_, hret, hw, hd⟩
    rw [sysPwrite, nextIo_eq] at hret
    cases ho : w.outcome with
    | fail e =>
        rw [ho] at hret
        exact absurd hret (by show ¬ (-1 : ℤ) = n; omega)
    | _ =>
        rw [ho] at hret
        dsimp only at hret
        rw [afterIo_fdEntry, hfd] at hret
        dsimp only at hret
        split at hret
        · exact absurd hret (by show ¬ (-1 : ℤ) = n; omega)
        · rename_i hacc
          rw [if_neg (by omega)] at hret
          rw [IoOutcome.written, if_neg]
          · exact congrArg some (Int.ofNat_inj.mp hret)
          · rintro (⟨e, he⟩ | he)
            · cases he
            · exact hacc he

/-- `open` of a file that is not there makes it, unless the call fails or there is no
directory for it. -/
def CreateFails (w : World) (path : BlobPath) : Prop :=
  w.outcome.Fails ∨ w.os.disk.subdirs path.1 = false

instance instDecidableCreateFails (w : World) (path : BlobPath) : Decidable (w.CreateFails path) :=
  inferInstanceAs (Decidable (_ ∨ _))

theorem sysOpen_create {path : BlobPath} (hname : w.os.disk.names path = none)
    (flags : OpenFlags) :
    (w.CreateFails path ∧ (w.sysOpen path flags true).2 = -1 ∧
        w.Failed (w.sysOpen path flags true).1) ∨
      (¬ w.CreateFails path ∧ w.Opened (w.sysOpen path flags true).1
          (w.sysOpen path flags true).2 path flags true w.os.disk.nextFile ∧
        (w.sysOpen path flags true).1.os.disk = w.os.disk.addFile path []) := by
  rcases w.sysOpen_cases path flags true with ⟨hret, hf⟩ | ⟨file, ho⟩
  · refine Or.inl ⟨?_, hret, hf⟩
    by_contra hnot
    rw [CreateFails, not_or, Bool.not_eq_false] at hnot
    -- the call had no reason to fail
    have hge : 0 ≤ (w.sysOpen path flags true).2 := by
      rw [sysOpen, nextIo_eq]
      cases hout : w.outcome with
      | fail e => exact absurd ⟨e, hout⟩ hnot.1
      | _ =>
          dsimp only
          rw [show w.afterIo.os.disk.names path = none from hname]
          dsimp only
          rw [if_pos ⟨rfl, hnot.2⟩]
          exact Int.natCast_nonneg _
    rw [hret] at hge
    exact absurd hge (by decide)
  · right
    have hnamed := ho.named
    cases hnamed with
    | old hn => rw [hname] at hn; cases hn
    | new hn hc hs hf hd =>
        subst hf
        refine ⟨?_, ho, hd⟩
        rintro (⟨e, he⟩ | hno)
        · -- a call that fails opens nothing
          have hneg : (w.sysOpen path flags true).2 = -1 := by
            rw [sysOpen, nextIo_eq, he]
          have := ho.fd_eq
          rw [hneg] at this
          omega
        · rw [hs] at hno
          cases hno

theorem sysOpen_existing {path : BlobPath} {file : ℕ} (hname : w.os.disk.names path = some file)
    {flags : OpenFlags} (ht : flags.trunc = false) (creat : Bool) :
    (w.outcome.Fails ∧ (w.sysOpen path flags creat).2 = -1 ∧
        w.Failed (w.sysOpen path flags creat).1) ∨
      (¬ w.outcome.Fails ∧ w.Opened (w.sysOpen path flags creat).1
          (w.sysOpen path flags creat).2 path flags creat file ∧
        (w.sysOpen path flags creat).1.os.disk = w.os.disk) := by
  rcases w.sysOpen_cases path flags creat with ⟨hret, hf⟩ | ⟨file', ho⟩
  · refine Or.inl ⟨?_, hret, hf⟩
    by_contra hnot
    have hge : 0 ≤ (w.sysOpen path flags creat).2 := by
      rw [sysOpen, nextIo_eq]
      cases hout : w.outcome with
      | fail e => exact absurd ⟨e, hout⟩ hnot
      | _ =>
          dsimp only
          rw [show w.afterIo.os.disk.names path = some file from hname]
          exact Int.natCast_nonneg _
    rw [hret] at hge
    exact absurd hge (by decide)
  · right
    have hnamed := ho.named
    cases hnamed with
    | new hn => rw [hname] at hn; cases hn
    | old hn hd =>
        rw [hname] at hn
        obtain rfl := Option.some.inj hn
        refine ⟨?_, ho, by rw [hd, ht]; rfl⟩
        rintro ⟨e, he⟩
        have hneg : (w.sysOpen path flags creat).2 = -1 := by
          rw [sysOpen, nextIo_eq, he]
        have := ho.fd_eq
        rw [hneg] at this
        omega

theorem sysPread_outcome {fd : ℤ} {file : ℕ} (hfd : w.fdEntry fd = some ⟨file, .rdOnly⟩)
    (size : ℕ) :
    (w.outcome.Fails ∧ (w.sysPread fd size 0).2.2 = []) ∨
      (¬ w.outcome.Fails ∧ (w.sysPread fd size 0).2.2
        = (slice (w.os.disk.content file) 0 size).take (transferred w.outcome size)) := by
  rw [sysPread, nextIo_eq]
  cases ho : w.outcome with
  | fail e => exact Or.inl ⟨⟨e, rfl⟩, rfl⟩
  | _ =>
      right
      refine ⟨?_, ?_⟩
      · rintro ⟨e, he⟩
        cases he
      · dsimp only
        rw [afterIo_fdEntry, hfd]
        rfl

/-- Nothing is read through a descriptor that is not one. -/
theorem sysPread_neg {fd : ℤ} (hfd : fd < 0) (size : ℕ) (offset : ℤ) :
    (w.sysPread fd size offset).2.2 = [] := by
  rw [sysPread, nextIo_eq]
  cases ho : w.outcome with
  | fail e => rfl
  | _ =>
      dsimp only
      rw [fdEntry, if_neg (by omega)]

theorem sysFtruncate_outcome {fd : ℤ} {file : ℕ} (hfd : w.fdEntry fd = some ⟨file, .wrOnly⟩)
    (n : ℕ) :
    (w.outcome.Fails ∧ (w.sysFtruncate fd n).2 = -1 ∧ w.Failed (w.sysFtruncate fd n).1) ∨
      (¬ w.outcome.Fails ∧ (w.sysFtruncate fd n).2 = 0 ∧ (w.sysFtruncate fd n).1.os.disk
        = w.os.disk.setContent file (resize (w.os.disk.content file) n)) := by
  rw [sysFtruncate, nextIo_eq]
  cases ho : w.outcome with
  | fail e => exact Or.inl ⟨⟨e, rfl⟩, rfl, w.failed_ioFail e.ne_zero⟩
  | _ =>
      right
      refine ⟨?_, ?_⟩
      · rintro ⟨e, he⟩
        cases he
      · dsimp only
        rw [afterIo_fdEntry, hfd]
        dsimp only
        rw [if_neg]
        · exact ⟨rfl, rfl⟩
        · rintro (h | h)
          · cases h
          · omega

theorem sysTruncate_outcome {path : BlobPath} {file : ℕ}
    (hname : w.os.disk.names path = some file) (n : ℕ) :
    (w.outcome.Fails ∧ w.Failed (w.sysTruncate path n).1) ∨
      (¬ w.outcome.Fails ∧ (w.sysTruncate path n).1.os.disk
        = w.os.disk.setContent file (resize (w.os.disk.content file) n)) := by
  rw [sysTruncate, nextIo_eq]
  cases ho : w.outcome with
  | fail e => exact Or.inl ⟨⟨e, rfl⟩, w.failed_ioFail e.ne_zero⟩
  | _ =>
      right
      refine ⟨?_, ?_⟩
      · rintro ⟨e, he⟩
        cases he
      · dsimp only
        rw [show w.afterIo.os.disk.names path = some file from hname]
        dsimp only
        rw [if_neg (by omega)]
        rfl

end World

/-! ## A file as its readers see it -/

/-- The data and the size of a file. -/
structure FileView where
  content : Bytes
  st_size : ℕ
  deriving DecidableEq, Repr

/-- What a negative or other result of `Write` stands for. -/
def WriteHonest (old new : FileView) (buf : Bytes) (offset : ℕ) (ret : ℤ) : Prop :=
  (ret < 0 → new = old) ∧ ∀ n : ℕ, ret = n → n ≤ buf.length ∧
    new.content = (if n = 0 then old.content else overlay old.content offset (buf.take n)) ∧
    (0 < n → new.st_size = max old.st_size (offset + n))

/-- What a negative result of `Truncate`, or 0, stands for. -/
def TruncateHonest (old new : FileView) (new_size : ℕ) (ret : ℤ) : Prop :=
  (ret < 0 → new = old) ∧ (ret = 0 → new.content = resize old.content new_size)

/-- The file of a record's bytes: a blob is read from its disk file, other data from behind
the name. -/
def viewOf (d : Disk) (value : Bytes) : FileView where
  content :=
    if 0 < (getInodeHeader value).has_blob then
      match d.names (getDiskFilePath (getInodeHeader value).fstat.st_ino) with
      | some file => d.content file
      | none => []
    else value.drop (realOffset value 0)
  st_size := (getInodeHeader value).fstat.st_size.toNat

namespace InodeRecord

variable {r : InodeRecord} {d : Disk}

theorem viewOf_inline (hb : r.header.has_blob = 0) : viewOf d r.value = ⟨r.inline, r.size⟩ := by
  have hstart := r.dataStart_lt
  have hfront := r.length_front
  unfold viewOf
  rw [r.getInodeHeader_value, if_neg (by rw [hb]; decide),
    r.realOffset_value 0 (by omega), Nat.add_zero, r.value_eq_front, List.drop_left]
  rfl

theorem viewOf_blob (hb : r.header.has_blob = 1) {file : ℕ} (hn : d.names r.path = some file) :
    viewOf d r.value = ⟨d.content file, r.size⟩ := by
  unfold viewOf
  rw [r.getInodeHeader_value, if_pos (by rw [hb]; decide),
    show d.names (getDiskFilePath r.header.fstat.st_ino) = some file from hn]
  rfl

theorem viewOf_lost (hb : r.header.has_blob = 1) (hn : d.names r.path = none) :
    viewOf d r.value = ⟨[], r.size⟩ := by
  unfold viewOf
  rw [r.getInodeHeader_value, if_pos (by rw [hb]; decide),
    show d.names (getDiskFilePath r.header.fstat.st_ino) = none from hn]
  rfl

theorem viewOf_setData_inline {n : ℕ} (hn : n < 2 ^ 63) (data : Bytes) :
    viewOf d (r.setData n 0 data).value = ⟨data, n⟩ := by
  rw [viewOf_inline (r.setData_has_blob n 0 data), setData_size r hn, setData_inline]

theorem viewOf_setData_blob {n : ℕ} (hn : n < 2 ^ 63) (data : Bytes) {file : ℕ}
    (hname : d.names r.path = some file) :
    viewOf d (r.setData n 1 data).value = ⟨d.content file, n⟩ := by
  have hname' : d.names (r.setData n 1 data).path = some file := hname
  rw [viewOf_blob (r.setData_has_blob n 1 data) hname', setData_size r hn]

theorem Holds.view {T : ℤ} {data : Bytes} (h : r.Holds T d data) :
    viewOf d r.value = ⟨data, data.length⟩ := by
  cases h with
  | small _ _ hsize hblob hinline _ => rw [viewOf_inline hblob, hinline, hsize]
  | large file _ _ hsize hblob _ hname hcontent => rw [viewOf_blob hblob hname, hcontent, hsize]

end InodeRecord

namespace World

variable {w : World} {i : ℕ} {r : InodeRecord}

/-! ## `MigrateToDiskFile` -/

/-- How much of `size` bytes of inline data reaches the new disk file, if the calls do not
fail. Empty data is not written. -/
def arrived (w : World) (size : ℕ) (acc : AccMode) : Option ℕ :=
  if size = 0 then some 0 else (w.outcomeAt 1).written acc size

/-- `errno` is 0 and stays so while `fd` is closed. -/
def ErrnoClear (w : World) (fd : ℤ) : Prop :=
  w.os.errno = 0 ∧ (0 ≤ fd → w.fdEntry fd ≠ none)

theorem closed_errno (w : World) (fd : ℤ) : (w.closed fd).os.errno = 0 ↔ w.ErrnoClear fd := by
  unfold closed ErrnoClear
  by_cases hfd : 0 ≤ fd
  · rw [if_pos hfd]
    unfold sysClose
    split
    · rename_i hnone
      refine ⟨fun h => ?_, fun h => absurd hnone (h.2 hfd)⟩
      exact absurd (show EBADF = 0 from h) (by decide)
    · rename_i f hsome
      refine ⟨fun h => ⟨h, fun _ => ?_⟩, fun h => h.1⟩
      rw [hsome]
      exact Option.some_ne_none f
  · rw [if_neg hfd]
    exact ⟨fun h => ⟨h, fun hpos => absurd hpos hfd⟩, fun h => h.1⟩

/-- `w'` is what a `MigrateToDiskFile` left that opened the new file as `fd` and got the
first `n` bytes into it. -/
structure Arrived (w : World) (i : ℕ) (r : InodeRecord) (acc : AccMode) (n : ℕ) (w' : World)
    (fd : ℤ) : Prop where
  value : w'.store.value i = (r.setInline []).value
  disk : w'.os.disk = w.os.disk.addFile r.path (r.inline.take n)
  fd : w'.fdEntry fd = some ⟨w.os.disk.nextFile, acc⟩
  ioFaults : w'.os.ioFaults = w.os.ioFaults.drop (if r.size = 0 then 1 else 2)
  threshold : w'.threshold_ = w.threshold_

theorem migrate_outcome (hv : w.store.value i = r.value) (hlt : r.size < 2 ^ 63)
    (hinline : r.inline.length = r.size) (hname : w.os.disk.names r.path = none) (fd : ℤ)
    (flags : OpenFlags) :
    (w.CreateFails r.path ∧ (w.migrateToDiskFile i fd flags).2.1 < 0 ∧
        (w.migrateToDiskFile i fd flags).1.store.value i = r.value ∧
        (w.migrateToDiskFile i fd flags).1.os.disk = w.os.disk ∧
        (w.migrateToDiskFile i fd flags).1.threshold_ = w.threshold_) ∨
      (¬ w.CreateFails r.path ∧ (w.migrateToDiskFile i fd flags).2.1 ≤ 0 ∧
        ((w.migrateToDiskFile i fd flags).2.1 = 0 ↔
          ∃ n, w.arrived r.size flags.acc = some n ∧ (n = r.size ∨ w.ErrnoClear fd)) ∧
        w.Arrived i r flags.acc ((w.arrived r.size flags.acc).getD 0)
          (w.migrateToDiskFile i fd flags).1 (w.migrateToDiskFile i fd flags).2.2) := by
  obtain ⟨hcd, _, _⟩ := w.closed_data fd
  have hcu := w.closed_upToData fd
  have hce := w.closed_errno fd
  have hcf : (w.closed fd).os.ioFaults = w.os.ioFaults := by
    unfold closed
    split
    · exact (w.sysClose_data fd).2.2.1
    · exact Eq.refl _
  unfold migrateToDiskFile
  dsimp only
  rw [iheader_of_value hv]
  rw [show (if 0 ≤ fd then (w.sysClose fd).1 else w) = w.closed fd from rfl]
  generalize w.closed fd = wc at *
  have hfails : wc.CreateFails r.path ↔ w.CreateFails r.path := by
    unfold CreateFails outcome
    rw [hcf, hcd]
  have hou : wc.UpToData (wc.sysOpen r.path flags true).1 := upToData_sysOpen _ _ _ _
  rw [show wc.openDiskFile r.header flags = wc.sysOpen r.path flags true from rfl]
  have hcname : wc.os.disk.names r.path = none := by
    rw [hcd]
    exact hname
  have ho := sysOpen_create hcname flags
  generalize wc.sysOpen r.path flags true = o at *
  obtain ⟨wo, ofd⟩ := o
  dsimp only at *
  have hvo : wo.store.value i = r.value := by rw [hou.value, hcu.value, hv]
  have htho : wo.threshold_ = w.threshold_ := hou.threshold.trans hcu.threshold
  rcases ho with ⟨hcf', hret, hfail⟩ | ⟨hnf, hopen, hdisk⟩
  · left
    rw [if_pos (by rw [hret]; decide)]
    refine ⟨hfails.mp hcf', ?_, hvo, hfail.disk.trans hcd, htho⟩
    have := hfail.errno
    show -(wo.os.errno : ℤ) < 0
    omega
  · right
    refine ⟨fun h => hnf (hfails.mpr h), ?_⟩
    have hpos : ¬ ofd < 0 := by
      rw [hopen.fd_eq]
      omega
    have hentry : wo.fdEntry ofd = some ⟨w.os.disk.nextFile, flags.acc⟩ := by
      rw [hopen.fd_eq, fdEntry_natCast, hopen.fds, Function.update_self, hcd]
    have hdisk' : wo.os.disk = w.os.disk.addFile r.path [] := by rw [hdisk, hcd]
    have hio : wo.os.ioFaults = w.os.ioFaults.drop 1 := by
      rw [hopen.ioFaults, hcf, List.drop_one]
    have herr : wo.os.errno = 0 ↔ w.ErrnoClear fd := by
      rw [hopen.errno]
      exact hce
    rw [if_neg hpos, offT_ofNat hlt]
    by_cases hsize : r.size = 0
    · -- there is nothing to write
      have hnil : r.inline = [] := List.eq_nil_of_length_eq_zero (by rw [hinline, hsize])
      have hself : r.setInline [] = r := InodeRecord.ext_fields rfl rfl hnil.symm
      have harr : w.arrived r.size flags.acc = some 0 := if_pos hsize
      rw [if_neg (by show ¬ (0 : ℤ) < (r.size : ℕ); omega)]
      refine ⟨Int.le_refl 0, ⟨fun _ => ⟨0, harr, Or.inl hsize.symm⟩, fun _ => rfl⟩, ?_⟩
      refine ⟨by rw [hself]; exact hvo, ?_, hentry, ?_, htho⟩
      · rw [hdisk', hnil, List.take_nil]
      · rw [hio, if_pos hsize]
    · rw [if_pos (by show (0 : ℤ) < (r.size : ℕ); omega)]
      have hbuf : resize ((wo.store.value i).drop
          (TFS_INODE_HEADER_SIZE + r.header.namelen.toNat + 1)) r.header.fstat.st_size.toNat
          = r.inline := by
        have hstart : TFS_INODE_HEADER_SIZE + r.header.namelen.toNat + 1 = r.front.length := by
          rw [r.length_front, InodeRecord.dataStart, r.namelen_eq]
        rw [hvo, hstart, r.value_eq_front, List.drop_left,
          show r.header.fstat.st_size.toNat = r.inline.length from hinline.symm, resize_length]
      rw [hbuf]
      have hout : wo.outcome = w.outcomeAt 1 := outcome_of_drop hio
      have harr : w.arrived r.size flags.acc = wo.outcome.written flags.acc r.inline.length := by
        rw [hout, hinline]
        exact if_neg hsize
      rw [harr]
      have hpu := wo.upToData_sysPwrite ofd r.inline 0
      have hp := sysPwrite_outcome hentry (Int.le_refl 0) r.inline
      generalize wo.sysPwrite ofd r.inline 0 = p at *
      obtain ⟨wp, pret⟩ := p
      dsimp only at *
      have hvp : wp.store.value i = r.value := by rw [hpu.value, hvo]
      have hval : (wp.setValue i (dropInlineData (wp.store.value i))).store.value i
          = (r.setInline []).value := by rw [setValue_value, hvp, r.dropInlineData_value]
      have hcast : ((r.header.fstat.st_size.toNat : ℕ) : ℤ) = r.size := rfl
      rw [hcast]
      rcases hp with ⟨hnone, hret, hfail⟩ | ⟨n, hsome, hret, hw, hd⟩
      · have hne : pret ≠ (r.size : ℤ) := by omega
        have hneg : -(wp.os.errno : ℤ) < 0 := by
          have := hfail.errno
          omega
        rw [if_pos hne, hnone]
        refine ⟨Int.le_of_lt hneg, ⟨fun h => ?_, ?_⟩, hval, ?_, ?_, ?_, ?_⟩
        · exact absurd h (Int.ne_of_lt hneg)
        · rintro ⟨n, hn, _⟩
          cases hn
        · show wp.os.disk = _
          rw [hfail.disk, hdisk', Option.getD_none, List.take_zero]
        · show wp.fdEntry ofd = _
          rw [fdEntry, hfail.fds]
          exact hentry
        · show wp.os.ioFaults = _
          rw [hfail.ioFaults, hio, if_neg hsize, List.tail_drop]
        · exact hpu.threshold.trans htho
      · rw [hsome, Option.getD_some]
        refine ⟨?_, ?_, hval, ?_, ?_, ?_, ?_⟩
        · split
          · show -(wp.os.errno : ℤ) ≤ 0
            omega
          · exact Int.le_refl 0
        · have herr' : wp.os.errno = 0 ↔ w.ErrnoClear fd := by
            rw [hw.errno]
            exact herr
          constructor
          · intro h
            refine ⟨n, rfl, ?_⟩
            by_cases hn : pret = (r.size : ℤ)
            · left
              omega
            · right
              rw [if_pos hn] at h
              have h' : -(wp.os.errno : ℤ) = 0 := h
              exact herr'.mp (by omega)
          · rintro ⟨k, hk, hk'⟩
            obtain rfl := Option.some.inj hk
            rcases hk' with rfl | hclear
            · rw [if_neg]
              rw [hret]
              exact not_not.mpr rfl
            · have hzero := herr'.mpr hclear
              split
              · show -(wp.os.errno : ℤ) = 0
                omega
              · exact Eq.refl _
        · show wp.os.disk = _
          rw [hd, hdisk']
          split
          · rename_i hn
            rw [hn, List.take_zero]
          · rw [Disk.addFile_content, Int.toNat_zero, overlay_zero [] _ (Nat.zero_le _),
              Disk.addFile_setContent]
        · show wp.fdEntry ofd = _
          rw [fdEntry, hw.fds]
          exact hentry
        · show wp.os.ioFaults = _
          rw [hw.ioFaults, hio, if_neg hsize, List.tail_drop]
        · exact hpu.threshold.trans htho

/-! ## `Write` -/

/-- When `Write` of `buf` at `offset` is honest about a file with the given data. -/
def WriteHonestWhen (w : World) (f : FileHandle) (path : BlobPath) (data buf : Bytes)
    (offset : ℕ) : Prop :=
  if w.threshold_ < data.length then
    -- a short `pwrite` is no excuse for the size
    ¬ (f.fd_ < 0 ∧ w.outcome.Fails) → data.length < offset + buf.length →
      ∀ n, (w.outcomeAt (if f.fd_ < 0 then 1 else 0)).written f.flags_.acc buf.length = some n →
        n = 0 ∨ n = buf.length
  else if w.threshold_ < (offset + buf.length : ℕ) then
    -- once the disk file is there, the inline data and `buf` have to reach it
    w.CreateFails path ∨ ∃ n m, w.arrived data.length f.flags_.acc = some n ∧
      (n = data.length ∨ w.ErrnoClear f.fd_) ∧
      (w.outcomeAt (if data.length = 0 then 1 else 2)).written f.flags_.acc buf.length = some m ∧
      (m = 0 ∧ n = data.length ∨ 0 < m ∧ m = buf.length ∧
        ∀ k, n ≤ k → k < data.length → k < offset → data[k]? = some 0)
  else buf = [] → offset ≤ data.length

theorem writeHonest_neg {old new : FileView} {buf : Bytes} {offset : ℕ} {ret : ℤ} (h : ret < 0) :
    WriteHonest old new buf offset ret ↔ new = old := by
  constructor
  · intro hw
    exact hw.1 h
  · intro heq
    exact ⟨fun _ => heq, fun n hn => by omega⟩

theorem writeHonest_nat {old new : FileView} {buf : Bytes} {offset n : ℕ} :
    WriteHonest old new buf offset n ↔ n ≤ buf.length ∧
      new.content = (if n = 0 then old.content else overlay old.content offset (buf.take n)) ∧
      (0 < n → new.st_size = max old.st_size (offset + n)) := by
  constructor
  · intro hw
    exact hw.2 n rfl
  · intro h
    refine ⟨fun hneg => by omega, fun k hk => ?_⟩
    obtain rfl : n = k := by omega
    exact h

/-- Of a front of the data, with `buf` over it, nothing is missing when `buf` or zeros make
up for it. -/
theorem overlay_take_iff {data buf : Bytes} {n offset : ℕ}
    (hover : data.length ≤ offset + buf.length) :
    overlay (data.take n) offset buf = overlay data offset buf ↔
      ∀ k, n ≤ k → k < data.length → k < offset → data[k]? = some 0 := by
  constructor
  · intro heq k hnk hk hoff
    have hget : (overlay (data.take n) offset buf)[k]? = (overlay data offset buf)[k]? := by
      rw [heq]
    rw [getElem?_overlay, getElem?_overlay, if_pos hoff, if_pos hoff, if_pos hk, if_neg] at hget
    · exact hget.symm
    · rw [List.length_take]
      omega
  · intro hz
    refine List.ext_getElem? fun k => ?_
    rw [getElem?_overlay, getElem?_overlay, List.length_take]
    by_cases hoff : k < offset
    · rw [if_pos hoff, if_pos hoff]
      by_cases hk : k < data.length
      · rw [if_pos hk]
        by_cases hn : k < n
        · rw [if_pos (by omega), List.getElem?_take_of_lt hn]
        · rw [if_neg (by omega), hz k (by omega) hk hoff]
      · rw [if_neg hk, if_neg (by omega)]
    · rw [if_neg hoff, if_neg hoff]
      by_cases hb : k < offset + buf.length
      · rw [if_pos hb, if_pos hb]
      · rw [if_neg hb, if_neg hb, List.getElem?_eq_none (by rw [List.length_take]; omega),
          List.getElem?_eq_none (by omega)]

variable {fh : ℕ} {f : FileHandle} {data : Bytes}

section

variable {buf : Bytes} {offset : ℕ} (hv : w.store.value f.handle_ = r.value)
include hv

/-- The data stays inline. -/
theorem written_inline_honest (hT : 0 ≤ w.threshold_ ∧ w.threshold_ < 2 ^ 31)
    (hlt : r.size < 2 ^ 63) (hsize : r.size = data.length) (hblob : r.header.has_blob = 0)
    (hinline : r.inline = data) (hle : ((offset + buf.length : ℕ) : ℤ) ≤ w.threshold_) :
    WriteHonest ⟨data, data.length⟩
        (viewOf (w.written fh f r.size buf offset (offset + buf.length)).1.os.disk
          ((w.written fh f r.size buf offset (offset + buf.length)).1.store.value f.handle_))
        buf offset (w.written fh f r.size buf offset (offset + buf.length)).2 ↔
      (buf = [] → offset ≤ data.length) := by
  have hthr : sizeT w.threshold_ = w.threshold_.toNat := sizeT_of_nonneg hT.1 (by omega)
  have hret : cInt buf.length = buf.length := cInt_of_lt (by omega)
  unfold written
  rw [writeData_small hv rfl hblob (by omega) (by omega) (by omega)]
  dsimp only
  rw [hret, Bool.not_false, Bool.and_true, decide_eq_true (Int.natCast_nonneg buf.length),
    Bool.true_and, Int.toNat_natCast]
  have hval := grown_value (w := w.setValue f.handle_ (r.setInline (overlay r.inline offset
    buf)).value) (n := offset + buf.length) (setValue_value ..) (b := decide (r.size < offset +
      buf.length)) rfl
  generalize ((w.setValue f.handle_ (r.setInline (overlay r.inline offset buf)).value).grown
    f.handle_ (offset + buf.length) (decide (r.size < offset + buf.length))) = wg at *
  have hmax : max r.size (offset + buf.length) < 2 ^ 63 := max_lt hlt (by omega)
  have hview : viewOf wg.os.disk (wg.store.value f.handle_)
      = ⟨overlay r.inline offset buf, max r.size (offset + buf.length)⟩ := by
    rw [hval, show (r.setInline (overlay r.inline offset buf)).header.has_blob = 0 from hblob]
    exact InodeRecord.viewOf_setData_inline hmax _
  rw [hview, writeHonest_nat, hinline, hsize, List.take_length]
  dsimp only
  constructor
  · rintro ⟨_, hc, _⟩ rfl
    rw [if_pos List.length_nil] at hc
    have hlen := congrArg List.length hc
    rw [length_overlay, List.length_nil] at hlen
    omega
  · intro h
    refine ⟨Nat.le_refl _, ?_, fun _ => rfl⟩
    split
    · rename_i hzero
      obtain rfl := List.eq_nil_of_length_eq_zero hzero
      exact overlay_nil _ _ (h rfl)
    · exact Eq.refl _

/-- The data is in a disk file. -/
theorem written_blob_honest (hf : w.files fh = some f) (hfd : w.FdOk r f) {file : ℕ}
    (hlen : offset + buf.length < 2 ^ 63) (hlt : r.size < 2 ^ 63) (hsize : r.size = data.length)
    (hblob : r.header.has_blob = 1) (hname : w.os.disk.names r.path = some file)
    (hcontent : w.os.disk.content file = data) :
    WriteHonest ⟨data, data.length⟩
        (viewOf (w.written fh f r.size buf offset (offset + buf.length)).1.os.disk
          ((w.written fh f r.size buf offset (offset + buf.length)).1.store.value f.handle_))
        buf offset (w.written fh f r.size buf offset (offset + buf.length)).2 ↔
      (¬ (f.fd_ < 0 ∧ w.outcome.Fails) → data.length < offset + buf.length →
        ∀ n, (w.outcomeAt (if f.fd_ < 0 then 1 else 0)).written f.flags_.acc buf.length = some n →
          n = 0 ∨ n = buf.length) := by
  unfold written
  rw [writeData_large hv hblob]
  unfold writeBlob
  dsimp only
  have hsame : viewOf w.os.disk r.value = ⟨data, data.length⟩ := by
    rw [InodeRecord.viewOf_blob hblob hname, hcontent, hsize]
  -- what `ensureFd` comes back with
  have he : (f.fd_ < 0 ∧ w.outcome.Fails ∧ (w.ensureFd fh f r.header).2 = -1 ∧
        (w.ensureFd fh f r.header).1.os.disk = w.os.disk) ∨
      (¬ (f.fd_ < 0 ∧ w.outcome.Fails) ∧ 0 ≤ (w.ensureFd fh f r.header).2 ∧
        (w.ensureFd fh f r.header).1.os.disk = w.os.disk ∧
        (w.ensureFd fh f r.header).1.fdEntry (w.ensureFd fh f r.header).2
          = some ⟨file, f.flags_.acc⟩ ∧
        (w.ensureFd fh f r.header).1.os.ioFaults
          = w.os.ioFaults.drop (if f.fd_ < 0 then 1 else 0)) := by
    unfold ensureFd
    by_cases hneg : f.fd_ < 0
    · rw [if_pos hneg, if_pos hneg]
      rcases sysOpen_existing hname hfd.trunc true with ⟨hfail, hret, hs⟩ | ⟨hnf, ho, hd⟩
      · exact Or.inl ⟨hneg, hfail, hret, hs.disk⟩
      · refine Or.inr ⟨fun h => hnf h.2, ?_, hd, ?_, ?_⟩
        · show 0 ≤ (w.sysOpen r.path f.flags_ true).2
          rw [ho.fd_eq]
          exact Int.natCast_nonneg _
        · show (w.sysOpen r.path f.flags_ true).1.fdEntry (w.sysOpen r.path f.flags_ true).2 = _
          rw [ho.fd_eq, fdEntry_natCast, ho.fds, Function.update_self]
        · exact ho.ioFaults.trans List.drop_one.symm
    · rw [if_neg hneg, if_neg hneg]
      obtain ⟨file', hn, hentry⟩ := hfd.fd (by omega)
      rw [hname] at hn
      obtain rfl := Option.some.inj hn
      exact Or.inr ⟨fun h => hneg h.1, by omega, rfl, hentry, List.drop_zero.symm⟩
  have hup := ensureFd_upToData hf r.header
  have hve : (w.ensureFd fh f r.header).1.store.value f.handle_ = r.value := by
    rw [hup.value]
    exact hv
  generalize w.ensureFd fh f r.header = e at *
  rcases he with ⟨hneg, hfail, hret, hd⟩ | ⟨hok, hpos, hd, hentry, hio⟩
  · -- nothing has been opened, and nothing changes
    rw [if_pos (by rw [hret]; decide)]
    have hEBADF : -(EBADF : ℤ) < 0 := by decide
    dsimp only
    rw [writeHonest_neg hEBADF, decide_eq_false (Int.not_le.mpr hEBADF), Bool.false_and]
    refine ⟨fun _ h => absurd ⟨hneg, hfail⟩ h, fun _ => ?_⟩
    rw [grown, if_neg Bool.false_ne_true, hve, hd]
    exact hsame
  · rw [if_neg (by omega)]
    have hout : e.1.outcome = w.outcomeAt (if f.fd_ < 0 then 1 else 0) := outcome_of_drop hio
    rw [← hout]
    have hpu := e.1.upToData_sysPwrite e.2 buf offset
    rcases sysPwrite_outcome hentry (Int.natCast_nonneg offset) buf with
      ⟨hnone, hret, hfail⟩ | ⟨n, hsome, hret, hw, hdw⟩
    · -- a `pwrite` that fails writes nothing
      have hcint : cInt (-1) = -1 := by decide
      rw [hret, hcint, hnone]
      dsimp only
      rw [writeHonest_neg (show (-1 : ℤ) < 0 by decide)]
      refine ⟨fun _ _ _ n hn => absurd hn.symm (Option.some_ne_none n), fun _ => ?_⟩
      rw [show decide (0 ≤ (-1 : ℤ)) = false from rfl, Bool.false_and]
      rw [grown, if_neg Bool.false_ne_true, hpu.value, hve, hfail.disk, hd]
      exact hsame
    · rw [hret, cInt_of_lt hw.lt, writeHonest_nat, hsome,
        decide_eq_true (Int.natCast_nonneg n), Bool.true_and, Bool.not_false, Bool.and_true]
      have hvp : (e.1.sysPwrite e.2 buf offset).1.store.value f.handle_ = r.value := by
        rw [hpu.value, hve]
      have hval := grown_value hvp (n := offset + buf.length) rfl
      have hos := grown_os (e.1.sysPwrite e.2 buf offset).1 f.handle_ (offset + buf.length)
        (decide (r.size < offset + buf.length))
      generalize ((e.1.sysPwrite e.2 buf offset).1.grown f.handle_ (offset + buf.length)
        (decide (r.size < offset + buf.length))) = wg at *
      have hmax : max r.size (offset + buf.length) < 2 ^ 63 := max_lt hlt hlen
      have hname' : wg.os.disk.names r.path = some file := by
        rw [hos, hdw, hd]
        split
        · exact hname
        · exact hname
      have hview : viewOf wg.os.disk (wg.store.value f.handle_)
          = ⟨wg.os.disk.content file, max r.size (offset + buf.length)⟩ := by
        rw [hval, hblob]
        exact InodeRecord.viewOf_setData_blob hmax _ hname'
      have hcont : wg.os.disk.content file
          = if n = 0 then data else overlay data offset (buf.take n) := by
        rw [hos, hdw, hd, hcontent]
        split
        · exact hcontent
        · rw [Disk.setContent_content, Int.toNat_natCast]
      rw [hview, hcont, hsize]
      dsimp only
      have hle := hw.le
      constructor
      · rintro ⟨_, _, hs⟩ _ hgrow m hm
        obtain rfl := Option.some.inj hm
        by_cases hn : n = 0
        · exact Or.inl hn
        · have := hs (by omega)
          omega
      · intro h
        refine ⟨hle, rfl, fun hpos' => ?_⟩
        by_cases hgrow : data.length < offset + buf.length
        · have := h hok hgrow n rfl
          omega
        · omega

/-- The data moves to a disk file. -/
theorem written_migrate_honest (hT : 0 ≤ w.threshold_ ∧ w.threshold_ < 2 ^ 31)
    (hlen : offset + buf.length < 2 ^ 63) (hlt : r.size < 2 ^ 63) (hsize : r.size = data.length)
    (hblob : r.header.has_blob = 0) (hinline : r.inline = data)
    (hname : w.os.disk.names r.path = none) (hle : (data.length : ℤ) ≤ w.threshold_)
    (hbig : w.threshold_ < (offset + buf.length : ℕ)) :
    WriteHonest ⟨data, data.length⟩
        (viewOf (w.written fh f r.size buf offset (offset + buf.length)).1.os.disk
          ((w.written fh f r.size buf offset (offset + buf.length)).1.store.value f.handle_))
        buf offset (w.written fh f r.size buf offset (offset + buf.length)).2 ↔
      (w.CreateFails r.path ∨ ∃ n m, w.arrived data.length f.flags_.acc = some n ∧
        (n = data.length ∨ w.ErrnoClear f.fd_) ∧
        (w.outcomeAt (if data.length = 0 then 1 else 2)).written f.flags_.acc buf.length
          = some m ∧
        (m = 0 ∧ n = data.length ∨ 0 < m ∧ m = buf.length ∧
          ∀ k, n ≤ k → k < data.length → k < offset → data[k]? = some 0)) := by
  have hthr : sizeT w.threshold_ = w.threshold_.toNat := sizeT_of_nonneg hT.1 (by omega)
  unfold written
  rw [writeData_migrate hv hblob (by omega)]
  unfold writeMigrate
  dsimp only
  have hm := migrate_outcome hv hlt (by rw [hinline, hsize]) hname f.fd_ f.flags_
  rw [hsize] at hm
  generalize w.migrateToDiskFile f.handle_ f.fd_ f.flags_ = m at *
  rcases hm with ⟨hcf, hneg, hval, hd, _⟩ | ⟨hncf, hret, hzero, ha⟩
  · -- without a disk file nothing happens
    rw [if_neg (by omega)]
    dsimp only
    rw [writeHonest_neg hneg, decide_eq_false (Int.not_le.mpr hneg), Bool.false_and]
    refine ⟨fun _ => Or.inl hcf, fun _ => ?_⟩
    rw [grown, if_neg Bool.false_ne_true]
    show viewOf m.1.os.disk (m.1.store.value f.handle_) = _
    rw [hd, hval, InodeRecord.viewOf_inline hblob, hinline, hsize]
  · obtain ⟨n?, hn?⟩ : ∃ n?, w.arrived data.length f.flags_.acc = n? := ⟨_, rfl⟩
    rw [hn?] at hzero ha ⊢
    by_cases hok : m.2.1 = 0
    · obtain ⟨n, hn, hclear⟩ := hzero.mp hok
      subst hn
      rw [Option.getD_some] at ha
      rw [if_pos hok]
      have hvm : (m.1.setFd fh f m.2.2).store.value f.handle_ = (r.setInline []).value := ha.value
      have hvh := setHeader_value hvm (offset + buf.length) 1
      generalize hwh : (m.1.setFd fh f m.2.2).setHeader f.handle_ (((m.1.setFd fh f
        m.2.2).iheader f.handle_).withSizeBlob (.ofNat (offset + buf.length)) 1) = wh at *
      have hos : wh.os = m.1.os := by
        rw [← hwh]
        rfl
      have hentry : wh.fdEntry m.2.2 = some ⟨w.os.disk.nextFile, f.flags_.acc⟩ := by
        rw [fdEntry, hos]
        exact ha.fd
      have hout : wh.outcome = w.outcomeAt (if data.length = 0 then 1 else 2) := by
        refine outcome_of_drop ?_
        rw [hos, ha.ioFaults, hsize]
      rw [← hout]
      have hpu := wh.upToData_sysPwrite m.2.2 buf offset
      have hp := sysPwrite_outcome hentry (Int.natCast_nonneg offset) buf
      generalize wh.sysPwrite m.2.2 buf offset = p at *
      obtain ⟨wp, pret⟩ := p
      dsimp only at *
      rw [Bool.not_true, Bool.and_false, Bool.and_false, grown, if_neg Bool.false_ne_true]
      have hvp : wp.store.value f.handle_ = (r.setData (offset + buf.length) 1 []).value :=
        (hpu.value f.handle_).trans hvh
      have hname' : ∀ d : Disk, d.names = (w.os.disk.addFile r.path []).names →
          d.names r.path = some w.os.disk.nextFile := by
        intro d hd
        rw [hd, Disk.addFile_names]
      have hgrow : data.length < offset + buf.length := by omega
      rcases hp with ⟨hnone, hpret, hfail⟩ | ⟨k, hsome, hpret, hw, hdw⟩
      · -- the size and the flag are in the record already
        have hcint : cInt (-1) = -1 := by decide
        rw [hpret, hcint, writeHonest_neg (show (-1 : ℤ) < 0 by decide), hnone, hvp]
        constructor
        · intro hview
          rw [InodeRecord.viewOf_setData_blob hlen _ (hname' _ (by
            rw [hfail.disk, hos, ha.disk]
            rfl))] at hview
          have := congrArg FileView.st_size hview
          dsimp only at this
          omega
        · rintro (h | ⟨_, _, _, _, h, _⟩)
          · exact absurd h hncf
          · cases h
      · have hnames : wp.os.disk.names = (w.os.disk.addFile r.path []).names := by
          rw [hdw, hos, ha.disk]
          split
          · exact Eq.refl _
          · exact Eq.refl _
        have hcont : wp.os.disk.content w.os.disk.nextFile
            = if k = 0 then data.take n else overlay (data.take n) offset (buf.take k) := by
          rw [hdw, hos, ha.disk, hinline]
          split
          · rw [Disk.addFile_content]
          · rw [Disk.setContent_content, Disk.addFile_content, Int.toNat_natCast]
        rw [hpret, cInt_of_lt hw.lt, writeHonest_nat, hsome, hvp,
          InodeRecord.viewOf_setData_blob hlen _ (hname' _ hnames), hcont]
        dsimp only
        have hle' := hw.le
        have hnle : n ≤ data.length := by
          have hn' := hn?
          unfold arrived at hn'
          split at hn'
          · obtain rfl := Option.some.inj hn'
            omega
          · unfold IoOutcome.written at hn'
            split at hn'
            · cases hn'
            · obtain rfl := Option.some.inj hn'
              exact (transferred_le _ _).1
        have htake : data.take n = data ↔ n = data.length := by
          rw [List.take_eq_self_iff]
          omega
        constructor
        · rintro ⟨_, hc, hs⟩
          refine Or.inr ⟨n, k, rfl, hclear, rfl, ?_⟩
          by_cases hk : k = 0
          · rw [if_pos hk, if_pos hk] at hc
            exact Or.inl ⟨hk, htake.mp hc⟩
          · have hsz := hs (by omega)
            have hkl : k = buf.length := by omega
            rw [if_neg hk, if_neg hk, hkl, List.take_length] at hc
            exact Or.inr ⟨by omega, hkl, (overlay_take_iff (by omega)).mp hc⟩
        · rintro (h | ⟨n', k', hn', _, hk', hcase⟩)
          · exact absurd h hncf
          · obtain rfl := Option.some.inj hn'
            obtain rfl := Option.some.inj hk'
            rcases hcase with ⟨rfl, hn'⟩ | ⟨hpos, rfl, hz⟩
            · refine ⟨hle', ?_, fun h => absurd h (Nat.lt_irrefl 0)⟩
              rw [if_pos (Eq.refl 0), if_pos (Eq.refl 0)]
              exact htake.mpr hn'
            · refine ⟨hle', ?_, fun _ => by omega⟩
              rw [if_neg (by omega), if_neg (by omega), List.take_length]
              exact (overlay_take_iff (by omega)).mpr hz
    · -- an error is reported, and the inline data is gone
      have hneg : m.2.1 < 0 := by omega
      rw [if_neg hok]
      dsimp only
      rw [writeHonest_neg hneg, decide_eq_false (Int.not_le.mpr hneg), Bool.false_and, grown,
        if_neg Bool.false_ne_true]
      constructor
      · intro hview
        have hlost : viewOf m.1.os.disk (m.1.store.value f.handle_) = ⟨data, data.length⟩ := hview
        rw [ha.value, InodeRecord.viewOf_inline (r := r.setInline []) hblob] at hlost
        have hnil : data = [] := (congrArg FileView.content hlost).symm
        -- but empty data is not lost
        refine absurd (hzero.mpr ⟨0, ?_, Or.inl (by rw [hnil]; rfl)⟩) hok
        rw [← hn?, arrived, hnil, if_pos List.length_nil]
      · rintro (h | ⟨n, _, hn, hclear, _⟩)
        · exact absurd h hncf
        · exact absurd (hzero.mpr ⟨n, hn, hclear⟩) hok

end

/-- `Write` to an open file is honest exactly in these states. -/
theorem write_honest_iff (hf : w.files fh = some f) (hv : w.store.value f.handle_ = r.value)
    (hH : r.Holds w.threshold_ w.os.disk data) (hfd : w.FdOk r f)
    (hT : 0 ≤ w.threshold_ ∧ w.threshold_ < 2 ^ 31) {buf : Bytes} {offset : ℕ}
    (hlen : offset + buf.length < 2 ^ 63) :
    WriteHonest ⟨data, data.length⟩
        (viewOf (w.write fh buf offset).1.os.disk
          ((w.write fh buf offset).1.store.value f.handle_)) buf offset (w.write fh buf offset).2 ↔
      w.WriteHonestWhen f r.path data buf offset := by
  have htot : sizeT ((offset : ℤ) + buf.length) = offset + buf.length := by
    rw [sizeT_of_nonneg (by omega) (by omega)]
    omega
  have hv₀ : (w.writeStart f).store.value f.handle_ = r.value := by rw [writeStart_value, hv]
  rw [write_eq hf, htot, iheader_of_value hv₀]
  rw [show r.header.fstat.st_size.toNat = r.size from rfl]
  -- what the start of `Write` changes, and the lock, do not matter here
  show WriteHonest _ (viewOf ((w.writeStart f).written fh f r.size buf offset
      (offset + buf.length)).1.os.disk (((w.writeStart f).written fh f r.size buf offset
        (offset + buf.length)).1.store.value f.handle_)) buf offset
          ((w.writeStart f).written fh f r.size buf offset (offset + buf.length)).2 ↔
    (w.writeStart f).WriteHonestWhen f r.path data buf offset
  replace hH : r.Holds (w.writeStart f).threshold_ (w.writeStart f).os.disk data := hH
  replace hT : 0 ≤ (w.writeStart f).threshold_ ∧ (w.writeStart f).threshold_ < 2 ^ 31 := hT
  replace hfd : (w.writeStart f).FdOk r f := hfd.congr rfl
  replace hf : (w.writeStart f).files fh = some f := hf
  generalize w.writeStart f = ws at *
  unfold WriteHonestWhen
  cases hH with
  | small hle hlt hsize hblob hinline hname =>
      rw [if_neg (by omega)]
      by_cases hbig : ws.threshold_ < (offset + buf.length : ℕ)
      · rw [if_pos hbig]
        exact written_migrate_honest hv₀ hT hlen (by rw [hsize]; exact hlt) hsize hblob hinline
          hname hle hbig
      · rw [if_neg hbig]
        exact written_inline_honest hv₀ hT (by rw [hsize]; exact hlt) hsize hblob hinline
          (by omega)
  | large file hle hlt hsize hblob hinline hname hcontent =>
      rw [if_pos hle]
      exact written_blob_honest hv₀ hf hfd hlen (by rw [hsize]; exact hlt) hsize hblob hname
        hcontent

/-! ## `Truncate` -/

/-- How many bytes of the disk file `MigrateDiskFileToBuffer` gets into a buffer of `n`
bytes. -/
def fetched (w : World) (n : ℕ) : ℕ :=
  if w.outcome.Fails ∨ (w.outcomeAt 1).Fails then 0 else transferred (w.outcomeAt 1) n

/-- When `Truncate` to `n` bytes is honest about a file with the given data. -/
def TruncateHonestWhen (w : World) (path : BlobPath) (data : Bytes) (n : ℕ) : Prop :=
  if w.threshold_ < data.length then
    if w.threshold_ < n then w.outcome.Fails → n = data.length
    else ∀ k, w.fetched n ≤ k → k < n → data[k]? = some (w.env.junk k)
  else if w.threshold_ < n then
    ¬ w.CreateFails path ∧ ¬ (w.outcomeAt (if data.length = 0 then 1 else 2)).Fails ∧
      ∃ m, w.arrived data.length .wrOnly = some m ∧ (m = data.length ∨
        w.ErrnoClear w.env.junkInt ∧ ∀ k, m ≤ k → k < data.length → data[k]? = some 0)
  else True

theorem truncateHonest_zero {old new : FileView} {n : ℕ} :
    TruncateHonest old new n 0 ↔ new.content = resize old.content n := by
  constructor
  · intro h
    exact h.2 rfl
  · intro h
    exact ⟨fun hneg => absurd hneg (by decide), fun _ => h⟩

/-- What a resize makes of a front of the data. -/
theorem resize_take_iff {data : Bytes} {m n : ℕ} (hn : data.length ≤ n) :
    resize (data.take m) n = resize data n ↔
      ∀ k, m ≤ k → k < data.length → data[k]? = some 0 := by
  have hget : ∀ (s : Bytes) (k : ℕ), s.length ≤ n → k < n →
      (resize s n)[k]? = if k < s.length then s[k]? else some 0 := by
    intro s k hs hk
    rw [resize, List.take_of_length_le hs]
    by_cases hks : k < s.length
    · rw [if_pos hks, List.getElem?_append_left hks]
    · rw [if_neg hks, List.getElem?_append_right (by omega), List.getElem?_replicate,
        if_pos (by omega)]
  have htl : (data.take m).length ≤ n := by
    rw [List.length_take]
    omega
  constructor
  · intro heq k hmk hk
    have h : (resize (data.take m) n)[k]? = (resize data n)[k]? := by rw [heq]
    rw [hget _ _ htl (by omega), hget _ _ hn (by omega), if_pos hk, if_neg] at h
    · exact h.symm
    · rw [List.length_take]
      omega
  · intro hz
    refine List.ext_getElem? fun k => ?_
    by_cases hk : k < n
    · rw [hget _ _ htl hk, hget _ _ hn hk, List.length_take]
      by_cases hkd : k < data.length
      · rw [if_pos hkd]
        by_cases hkm : k < m
        · rw [if_pos (by omega), List.getElem?_take_of_lt hkm]
        · rw [if_neg (by omega), hz k (by omega) hkd]
      · rw [if_neg hkd, if_neg (by omega)]
    · rw [List.getElem?_eq_none (by rw [length_resize]; omega),
        List.getElem?_eq_none (by rw [length_resize]; omega)]

/-- What `MigrateDiskFileToBuffer` comes back with. -/
theorem migrateBuffer_outcome {file : ℕ} (hname : w.os.disk.names r.path = some file)
    (buf : Bytes) :
    (w.migrateDiskFileToBuffer r.header.fstat.st_ino buf).2 = overlay buf 0
        ((slice (w.os.disk.content file) 0 buf.length).take (w.fetched buf.length)) ∧
      w.UpToData (w.migrateDiskFileToBuffer r.header.fstat.st_ino buf).1 := by
  unfold migrateDiskFileToBuffer
  dsimp only
  rw [show getDiskFilePath r.header.fstat.st_ino = r.path from rfl]
  have hou : w.UpToData (w.sysOpen r.path ⟨.rdOnly, false⟩ false).1 := upToData_sysOpen _ _ _ _
  have htrunc : (⟨.rdOnly, false⟩ : OpenFlags).trunc = false := rfl
  have ho := sysOpen_existing hname htrunc false
  generalize w.sysOpen r.path ⟨.rdOnly, false⟩ false = o at *
  have hup := ((hou.trans (o.1.upToData_sysPread o.2 buf.length 0)).trans
    (upToData_sysClose _ o.2)).trans (upToData_sysUnlink _ r.path)
  refine ⟨congrArg (overlay buf 0) ?_, hup⟩
  rcases ho with ⟨hfail, hret, _⟩ | ⟨hnf, hopen, hd⟩
  · rw [sysPread_neg (by rw [hret]; decide), fetched, if_pos (Or.inl hfail), List.take_zero]
  · have hentry : o.1.fdEntry o.2 = some ⟨file, .rdOnly⟩ := by
      rw [hopen.fd_eq, fdEntry_natCast, hopen.fds, Function.update_self]
    have hout : o.1.outcome = w.outcomeAt 1 := by
      refine outcome_of_drop ?_
      rw [hopen.ioFaults, List.drop_one]
    rcases sysPread_outcome hentry buf.length with ⟨hfail, hread⟩ | ⟨hok, hread⟩
    · rw [hout] at hfail
      rw [hread, fetched, if_pos (Or.inr hfail), List.take_zero]
    · rw [hout] at hok
      rw [hread, hout, hd, fetched, if_neg (not_or.mpr ⟨hnf, hok⟩)]

section

variable {n : ℕ} (hv : w.store.value i = r.value) (hn : n < 2 ^ 63) (hlt : r.size < 2 ^ 63)
  (hsize : r.size = data.length)
include hv hn hlt hsize

omit hsize in
/-- A blob stays one. -/
theorem truncated_blob_honest (hblob : r.header.has_blob = 1) (hinline : r.inline = [])
    {file : ℕ} (hname : w.os.disk.names r.path = some file)
    (hcontent : w.os.disk.content file = data) (hbig : w.threshold_ < n) :
    TruncateHonest ⟨data, data.length⟩
        (viewOf (w.truncated i n).1.os.disk ((w.truncated i n).1.store.value i)) n
        (w.truncated i n).2 ↔ (w.outcome.Fails → n = data.length) := by
  have hos := w.truncated_os i n
  have hval := truncated_value (d := []) (b := 1) hv hn hlt
  have hret := w.truncated_ret i n
  have heq : w.truncateData i n = ((w.sysTruncate r.path n).1, 0) := by
    rw [truncateData, iheader_of_value hv]
    dsimp only
    rw [if_pos (by rw [hblob]; decide), if_pos hbig]
    rfl
  rw [heq] at hos hval hret
  have hu := w.upToData_sysTruncate r.path n
  have hself : r.setInline [] = r := InodeRecord.ext_fields rfl rfl hinline.symm
  have hval' := hval (by rw [hself, ← hv]; exact hu.value i) hu.threshold
    (by rw [if_pos hbig]) fun _ => hblob
  generalize w.truncated i n = t at *
  have hview : ∀ d : Disk, d.names = w.os.disk.names → viewOf d (r.setData n 1 []).value
      = ⟨d.content file, n⟩ := by
    intro d hd
    refine InodeRecord.viewOf_setData_blob hn _ ?_
    rw [hd, hname]
  rw [hret, hval', truncateHonest_zero, hos]
  dsimp only
  rcases sysTruncate_outcome hname n with ⟨hfail, hs⟩ | ⟨hok, hd⟩
  · -- the result of the call is not looked at
    rw [hs.disk, hview _ rfl, hcontent]
    refine ⟨fun h _ => ?_, fun h => ?_⟩
    · have hlen := congrArg List.length h
      rw [length_resize] at hlen
      exact hlen.symm
    · rw [h hfail, resize_length]
  · rw [hd, hview (w.os.disk.setContent file _) (Disk.setContent_names ..),
      Disk.setContent_content, hcontent]
    exact ⟨fun _ h => absurd h hok, fun _ => rfl⟩

/-- A blob's data becomes inline. -/
theorem truncated_buffer_honest (hblob : r.header.has_blob = 1) (hinline : r.inline = [])
    {file : ℕ} (hname : w.os.disk.names r.path = some file)
    (hcontent : w.os.disk.content file = data) (hbig : w.threshold_ < data.length)
    (hle : n ≤ w.threshold_) :
    TruncateHonest ⟨data, data.length⟩
        (viewOf (w.truncated i n).1.os.disk ((w.truncated i n).1.store.value i)) n
        (w.truncated i n).2 ↔ ∀ k, w.fetched n ≤ k → k < n → data[k]? = some (w.env.junk k) := by
  have hstart := r.dataStart_lt
  have hret := w.truncated_ret i n
  have heq : w.truncateData i n =
      let m := w.migrateDiskFileToBuffer r.header.fstat.st_ino (w.newBuffer n)
      (m.1.setValue i (updateInlineData (m.1.store.value i) m.2 0), 0) := by
    rw [truncateData, iheader_of_value hv]
    dsimp only
    rw [if_pos (by rw [hblob]; decide), if_neg (by omega), Int.toNat_natCast]
  obtain ⟨hbuf, hup⟩ := migrateBuffer_outcome hname (w.newBuffer n)
  generalize w.migrateDiskFileToBuffer r.header.fstat.st_ino (w.newBuffer n) = m at *
  dsimp only at heq
  have hval := truncated_value (d := m.2) (b := 0) hv hn hlt
  rw [heq] at hret hval
  have hval' := hval (by
    rw [setValue_value, hup.value, hv, r.updateInlineData_value _ _ (by omega), hinline,
      overlay_zero [] m.2 (Nat.zero_le _)]) hup.threshold (by rw [if_neg (by omega)])
    fun h => absurd h (by omega)
  generalize w.truncated i n = t at *
  rw [hret, hval', truncateHonest_zero, InodeRecord.viewOf_setData_inline hn]
  dsimp only
  have hlen : (w.newBuffer n).length = n := by rw [newBuffer, List.length_map, List.length_range]
  rw [hlen, hcontent] at hbuf
  -- byte by byte: what has been read, then what the buffer held before
  have hcut : slice data 0 n = data.take n := by rw [slice, List.drop_zero]
  have hfetched : w.fetched n ≤ n := by
    unfold fetched
    split
    · omega
    · exact (transferred_le _ _).1
  rw [hbuf, hcut, List.take_take, Nat.min_eq_left hfetched]
  have hget : ∀ k, k < n → (overlay (w.newBuffer n) 0 (data.take (w.fetched n)))[k]?
      = if k < w.fetched n then data[k]? else some (w.env.junk k) := by
    intro k hk
    rw [getElem?_overlay, if_neg (by omega), Nat.zero_add, List.length_take,
      Nat.min_eq_left (by omega)]
    by_cases hkf : k < w.fetched n
    · rw [if_pos hkf, if_pos hkf, Nat.sub_zero, List.getElem?_take_of_lt hkf]
    · rw [if_neg hkf, if_neg hkf, newBuffer, List.getElem?_map, List.getElem?_range hk]
      rfl
  have hres : ∀ k, k < n → (resize data n)[k]? = data[k]? := by
    intro k hk
    rw [resize, List.getElem?_append_left (by rw [List.length_take]; omega),
      List.getElem?_take_of_lt hk]
  constructor
  · intro h k hfk hk
    have hk' := hget k hk
    rw [h, hres k hk, if_neg (by omega)] at hk'
    exact hk'
  · intro h
    refine List.ext_getElem? fun k => ?_
    by_cases hk : k < n
    · rw [hget k hk, hres k hk]
      by_cases hkf : k < w.fetched n
      · rw [if_pos hkf]
      · rw [if_neg hkf, h k (by omega) hk]
    · rw [List.getElem?_eq_none, List.getElem?_eq_none]
      · rw [length_resize]
        omega
      · rw [length_overlay, hlen, List.length_take]
        omega

omit hsize in
/-- Inline data stays inline. -/
theorem truncated_inline_honest (hblob : r.header.has_blob = 0) (hinline : r.inline = data)
    (hle : n ≤ w.threshold_) :
    TruncateHonest ⟨data, data.length⟩
        (viewOf (w.truncated i n).1.os.disk ((w.truncated i n).1.store.value i)) n
        (w.truncated i n).2 := by
  have hval := truncated_value (d := resize r.inline n) (b := 0) hv hn hlt
  have hret := w.truncated_ret i n
  have heq : w.truncateData i n = (w.setValue i (r.setInline (resize r.inline n)).value, 0) := by
    have hstart := r.dataStart_lt
    rw [truncateData, iheader_of_value hv]
    dsimp only
    rw [if_neg (by rw [hblob]; decide), if_neg (by omega), hv,
      sizeT_of_nonneg (Int.natCast_nonneg n) (by omega), Int.toNat_natCast,
      r.truncateInlineData_value n (by omega)]
  rw [heq] at hval hret
  have hval' := hval (setValue_value ..) rfl (by rw [if_neg (by omega)]) fun _ => hblob
  rw [hret, hval', truncateHonest_zero, InodeRecord.viewOf_setData_inline hn, hinline]

/-- Inline data moves to a disk file. -/
theorem truncated_migrate_honest (hblob : r.header.has_blob = 0) (hinline : r.inline = data)
    (hname : w.os.disk.names r.path = none) (hle : (data.length : ℤ) ≤ w.threshold_)
    (hbig : w.threshold_ < n) :
    TruncateHonest ⟨data, data.length⟩
        (viewOf (w.truncated i n).1.os.disk ((w.truncated i n).1.store.value i)) n
        (w.truncated i n).2 ↔
      (¬ w.CreateFails r.path ∧ ¬ (w.outcomeAt (if data.length = 0 then 1 else 2)).Fails ∧
        ∃ m, w.arrived data.length .wrOnly = some m ∧ (m = data.length ∨
          w.ErrnoClear w.env.junkInt ∧ ∀ k, m ≤ k → k < data.length → data[k]? = some 0)) := by
  have hos := w.truncated_os i n
  have hval := fun d => truncated_value (d := d) (b := 1) hv hn hlt
  have hret := w.truncated_ret i n
  have heq : w.truncateData i n = w.truncateMigrate i n := by
    rw [truncateData, iheader_of_value hv]
    dsimp only
    rw [if_neg (by rw [hblob]; decide), if_pos hbig]
  rw [heq] at hos hval hret
  unfold truncateMigrate at hos hval hret
  dsimp only at hos hval hret
  have hm := migrate_outcome hv hlt (by rw [hinline, hsize]) hname w.env.junkInt ⟨.wrOnly, true⟩
  rw [hsize] at hm
  generalize w.migrateToDiskFile i w.env.junkInt ⟨.wrOnly, true⟩ = m at *
  generalize w.truncated i n = t at *
  have hgrow : data.length < n := by omega
  have hsame : n = r.size → r.header.has_blob = 1 := fun h => absurd h (by omega)
  rcases hm with ⟨hcf, hneg, hvm, hdm, hthr⟩ | ⟨hncf, -, hzero, ha⟩
  · -- nothing is there for the flag that is set to stand for
    rw [if_neg (by omega)] at hos hval hret
    have hself : r.setInline r.inline = r := rfl
    rw [hret, hval r.inline (by rw [hself]; exact hvm) hthr (by rw [if_pos hbig]) hsame,
      truncateHonest_zero, hos, hdm, InodeRecord.viewOf_lost (r.setData_has_blob n 1 _) hname]
    refine ⟨fun h => ?_, fun h => absurd hcf h.1⟩
    have hlen := congrArg List.length h
    rw [length_resize, List.length_nil] at hlen
    omega
  · have hblobView : ∀ d : Disk, d.names r.path = some w.os.disk.nextFile →
        viewOf d (r.setData n 1 []).value = ⟨d.content w.os.disk.nextFile, n⟩ := fun d hd =>
      InodeRecord.viewOf_setData_blob hn _ hd
    by_cases hok : m.2.1 = 0
    · obtain ⟨k, hk, hclear⟩ := hzero.mp hok
      rw [hk, Option.getD_some] at ha
      rw [if_pos hok] at hos hval hret
      have hout : m.1.outcome = w.outcomeAt (if data.length = 0 then 1 else 2) := by
        refine outcome_of_drop ?_
        rw [ha.ioFaults, hsize]
      have hfu := m.1.upToData_sysFtruncate m.2.2 n
      have hft := sysFtruncate_outcome ha.fd n
      rw [hout] at hft
      generalize m.1.sysFtruncate m.2.2 n = ft at *
      -- `fsync` and `close` leave the data directory as it is
      obtain ⟨ws, hws⟩ : ∃ ws, (if ft.2 = 0 then (ft.1.sysFsync m.2.2).1 else ft.1) = ws :=
        ⟨_, rfl⟩
      have hsync : ws.os.disk = ft.1.os.disk ∧ ft.1.UpToData ws := by
        rw [← hws]
        split
        · exact ⟨(ft.1.sysFsync_data m.2.2).1, ft.1.upToData_sysFsync m.2.2⟩
        · exact ⟨rfl, UpToData.refl _⟩
      rw [hws] at hos hval hret
      have hcd := (ws.sysClose_data m.2.2).1
      have hcu := (hfu.trans hsync.2).trans (ws.upToData_sysClose m.2.2)
      generalize (ws.sysClose m.2.2).1 = wc at *
      rw [hret, hval [] (by rw [hcu.value]; exact ha.value) (hcu.threshold.trans ha.threshold)
        (by rw [if_pos hbig]) hsame, hos, hcd, hsync.1]
      rcases hft with ⟨hfail, hfret, hs⟩ | ⟨hnf, hfret, hd⟩
      · -- the header is changed although -1 is returned
        rw [hfret, hs.disk, ha.disk, hblobView _ (Disk.addFile_names ..)]
        refine ⟨fun h => ?_, fun h => absurd hfail h.2.1⟩
        have hst := congrArg FileView.st_size (h.1 (by decide))
        dsimp only at hst
        omega
      · rw [hfret, truncateHonest_zero, hd, ha.disk, hinline,
          hblobView _ (by rw [Disk.setContent_names, Disk.addFile_names]),
          Disk.setContent_content, Disk.addFile_content]
        dsimp only
        rw [resize_take_iff (by omega)]
        constructor
        · intro hz
          refine ⟨hncf, hnf, k, hk, ?_⟩
          rcases hclear with hclear | hclear
          · exact Or.inl hclear
          · exact Or.inr ⟨hclear, hz⟩
        · rintro ⟨_, _, j, hj, hcase⟩ l hl hld
          rw [hk] at hj
          obtain rfl := Option.some.inj hj
          rcases hcase with rfl | ⟨_, hz⟩
          · omega
          · exact hz l hl hld
    · -- the result of `MigrateToDiskFile` is not returned
      rw [if_neg hok] at hos hval hret
      rw [hret, hval [] ha.value ha.threshold (by rw [if_pos hbig]) hsame, truncateHonest_zero,
        hos, ha.disk, hblobView _ (Disk.addFile_names ..), Disk.addFile_content]
      refine ⟨fun h => ?_, fun h => ?_⟩
      · have hlen := congrArg List.length h
        rw [length_resize, List.length_take, hinline] at hlen
        omega
      · obtain ⟨_, _, j, hj, hcase⟩ := h
        refine absurd (hzero.mpr ⟨j, hj, ?_⟩) hok
        rcases hcase with hcase | ⟨hclear, _⟩
        · exact Or.inl hcase
        · exact Or.inr hclear

end

open Store

/-- `Truncate` is honest about the file under its path exactly in these states. -/
theorem truncate_honest_iff {key : MetaKey} {path : Bytes}
    (hk : (w.pathLookup path).2 = some key) (hl : w.store.lookup key = some r.value)
    (hdb : w.store.dbFaults = []) (hH : r.Holds w.threshold_ w.os.disk data) {n : ℕ}
    (hn : n < 2 ^ 63) :
    ∃ new, (w.truncate path n).1.store.lookup key = some new ∧
      (TruncateHonest ⟨data, data.length⟩ (viewOf (w.truncate path n).1.os.disk new) n
          (w.truncate path n).2 ↔ w.TruncateHonestWhen r.path data n) := by
  have hlk := w.pathLookup_looked path
  rcases hp : w.pathLookup path with ⟨w₁, o⟩
  rw [hp] at hk hlk
  dsimp only at hk hlk
  subst hk
  rcases hg : w₁.cacheGet key .write with ⟨wg, _ | i⟩
  · -- the record is there
    have hnone := (cacheGet_none hg).2
    rw [hlk.lookup, hl] at hnone
    cases hnone
  · obtain ⟨s, hs, hwg⟩ := cacheGet_some hg
    obtain ⟨hfst, hsnd⟩ := truncate_some hp hg n
    have hva : (wg.writeLock key).store.value i = r.value := by
      have hlook := get_lookup hs
      rw [hlk.lookup, hl] at hlook
      rw [hwg]
      exact (Option.some.inj hlook).symm
    have hback : ∀ v, ((((wg.writeLock key).setValue i v).cacheWriteBack i).cacheRelease
        i).store.Current key v := by
      intro v
      have hcur := Current.edit (hlk.dbFaults.trans hdb) hs v
      have hup : ((((w₁.setStore s).setValue i v).cacheWriteBack i).cacheRelease i).UpToData
          (((((w₁.setStore s).writeLock key).setValue i v).cacheWriteBack i).cacheRelease i) :=
        (((upToData_writeLock (w₁.setStore s) key).setValue i v).cacheWriteBack i).cacheRelease i
      rw [hwg]
      exact hup.current hcur
    have hbefore := cacheGet_surroundings hp hg
    obtain ⟨hos, hthr, henv⟩ : (wg.writeLock key).os = w.os ∧
        (wg.writeLock key).threshold_ = w.threshold_ ∧ (wg.writeLock key).env = w.env := hbefore
    have hsame : (wg.writeLock key).TruncateHonestWhen r.path data n ↔
        w.TruncateHonestWhen r.path data n := by
      unfold TruncateHonestWhen fetched CreateFails ErrnoClear arrived outcome outcomeAt fdEntry
      rw [hos, hthr, henv]
    rw [hfst, hsnd, ← hsame]
    have hH' : r.Holds (wg.writeLock key).threshold_ (wg.writeLock key).os.disk data := by
      rw [hthr, hos]
      exact hH
    have hed := (wg.writeLock key).truncated_editsTo i n
    generalize wg.writeLock key = wa at *
    have hmain : TruncateHonest ⟨data, data.length⟩
        (viewOf (wa.truncated i n).1.os.disk ((wa.truncated i n).1.store.value i)) n
        (wa.truncated i n).2 ↔ wa.TruncateHonestWhen r.path data n := by
      unfold TruncateHonestWhen
      cases hH' with
      | small hle hlt hsize hblob hinline hname =>
          rw [if_neg (by omega)]
          by_cases hbig : wa.threshold_ < n
          · rw [if_pos hbig]
            exact truncated_migrate_honest hva hn (by rw [hsize]; exact hlt) hsize hblob hinline
              hname hle hbig
          · rw [if_neg hbig, iff_true]
            exact truncated_inline_honest hva hn (by rw [hsize]; exact hlt) hblob hinline
              (by omega)
      | large file hle hlt hsize hblob hinline hname hcontent =>
          rw [if_pos hle]
          by_cases hbig : wa.threshold_ < n
          · rw [if_pos hbig]
            exact truncated_blob_honest hva hn (by rw [hsize]; exact hlt) hblob hinline hname
              hcontent hbig
          · rw [if_neg hbig]
            exact truncated_buffer_honest hva hn (by rw [hsize]; exact hlt) hsize hblob hinline
              hname hcontent hle (by omega)
    generalize wa.truncated i n = t at *
    obtain ⟨v, _, hu⟩ := hed
    have hv' : t.1.store.value i = v := by rw [hu.value, setValue_value]
    have hu' := ((hu.cacheWriteBack i).cacheRelease i).trans (upToData_unlock _ key)
    -- the write-back does not touch the data directory
    have hos' : (((t.1.cacheWriteBack i).cacheRelease i).unlock key).os = t.1.os := by
      rw [unlock_os, cacheRelease_os, cacheWriteBack_os]
    refine ⟨v, (hu'.current (hback v)).lookup, ?_⟩
    rw [hos', ← hv']
    exact hmain

/-! ## Open files -/

/-- A regular file that is open: its record, as its handle and a lookup see it, and its
data. -/
structure OpenRegular (w : World) (key : MetaKey) (fh : ℕ) (f : FileHandle) (r : InodeRecord)
    (data : Bytes) : Prop where
  file : w.files fh = some f
  value : w.store.value f.handle_ = r.value
  lookup : w.store.lookup key = some r.value
  holds : r.Holds w.threshold_ w.os.disk data
  fdOk : w.FdOk r f
  threshold : 0 ≤ w.threshold_ ∧ w.threshold_ < 2 ^ 31
  dbFaults : w.store.dbFaults = []

/-- A `Write` through `fh`, or a `Truncate` of a path that leads to `key`. -/
def DataOp (w : World) (key : MetaKey) (fh : ℕ) : Op → Prop
  | .write fh' buf offset => fh' = fh ∧ 0 ≤ offset ∧ offset + buf.length < 2 ^ 63
  | .truncate path n => (w.pathLookup path).2 = some key ∧ 0 ≤ n ∧ n < 2 ^ 63
  | _ => False

/-- The result says what has become of the file. -/
def Honest (w : World) (key : MetaKey) (f : FileHandle) (op : Op) : Prop :=
  match op with
  | .write _ buf offset =>
      WriteHonest (viewOf w.os.disk (w.store.value f.handle_))
        (viewOf (w.next op).os.disk ((w.next op).store.value f.handle_)) buf offset.toNat
        (w.step op).2.ret
  | .truncate _ n =>
      ∃ old new, w.store.lookup key = some old ∧ (w.next op).store.lookup key = some new ∧
        TruncateHonest (viewOf w.os.disk old) (viewOf (w.next op).os.disk new) n.toNat
          (w.step op).2.ret
  | _ => True

/-- The states and outcomes in which it does. -/
def HonestWhen (w : World) (f : FileHandle) (path : BlobPath) (data : Bytes) : Op → Prop
  | .write _ buf offset => w.WriteHonestWhen f path data buf offset.toNat
  | .truncate _ n => w.TruncateHonestWhen path data n.toNat
  | _ => True

/-- A file of two bytes is open; the next file can be made but not written to. -/
def fullDisk : World :=
  ((((mount Durable.empty smallConfig).next (.makeNode [47, 97] 0 0)).next
    (.openFile [47, 97] O_RDWR)).next (.write 0 [1, 2] 0)).next (.setFaults [] [.ok, .fail 28])

/-- The record of the file. -/
def fullDiskRecord : InodeRecord where
  header := fullDisk.iheader 0
  name := [97]
  inline := [1, 2]
  namelen_eq := by decide +kernel

theorem fullDisk_reachable : fullDisk.Reachable :=
  ((((Reachable.mount empty_records smallConfig).step (by decide)).step (by decide)).step
    (by decide)).step (by decide)

theorem fullDisk_open :
    fullDisk.OpenRegular (buildMetaKey [97] 0) 0 ⟨0, O_RDWR, -1⟩ fullDiskRecord [1, 2] where
  file := by decide +kernel
  value := by decide +kernel
  lookup := by decide +kernel
  holds := .small (by decide +kernel) (by decide) (by decide +kernel) (by decide +kernel) rfl
    (by decide +kernel)
  fdOk := ⟨fun h => absurd h (by decide), rfl, Int.le_refl _⟩
  threshold := by decide +kernel
  dbFaults := by decide +kernel

end World

end Tablefs
