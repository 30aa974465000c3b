/-
Where the data of a file is.

A record of at most `threshold_` bytes has its data inline; a larger one has
`has_blob` set and its data in the disk file of its inode number. `Agrees` says that
blob flag, size, inline data and the name of the disk file go together in this way, and
`Holds` that the file's data is a given byte array. The lemmas below say what `Write` and
`Truncate` make of such a record when every call on the data file does all that it is
asked to.
-/
import Tablefs.SysCalls
import Tablefs.Effect

set_option autoImplicit false

namespace Tablefs

open ByteString

/-! ## The data directory, file by file -/

namespace Disk

/-- A new file under a name. -/
def addFile (d : Disk) (path : BlobPath) (data : Bytes) : Disk :=
  { d with names := Function.update d.names path (some d.nextFile)
           content := Function.update d.content d.nextFile data
           nextFile := d.nextFile + 1 }

/-- A file with other content. -/
def setContent (d : Disk) (file : ℕ) (data : Bytes) : Disk :=
  { d with content := Function.update d.content file data }

/-- A name is taken away. -/
def removeName (d : Disk) (path : BlobPath) : Disk :=
  { d with names := Function.update d.names path none }

@[simp] theorem setContent_names (d : Disk) (file : ℕ) (data : Bytes) :
    (d.setContent file data).names = d.names := rfl
@[simp] theorem setContent_content (d : Disk) (file : ℕ) (data : Bytes) :
    (d.setContent file data).content file = data := Function.update_self ..
@[simp] theorem addFile_names (d : Disk) (path : BlobPath) (data : Bytes) :
    (d.addFile path data).names path = some d.nextFile := Function.update_self ..
theorem addFile_names_of_ne (d : Disk) {path p : BlobPath} (h : p ≠ path) (data : Bytes) :
    (d.addFile path data).names p = d.names p := Function.update_of_ne h _ _
@[simp] theorem addFile_content (d : Disk) (path : BlobPath) (data : Bytes) :
    (d.addFile path data).content d.nextFile = data := Function.update_self ..
@[simp] theorem removeName_names (d : Disk) (path : BlobPath) :
    (d.removeName path).names path = none := Function.update_self ..

theorem removeName_names_of_ne (d : Disk) {path p : BlobPath} (h : p ≠ path) :
    (d.removeName path).names p = d.names p := Function.update_of_ne h _ _

theorem addFile_setContent (d : Disk) (path : BlobPath) (data data' : Bytes) :
    (d.addFile path data).setContent d.nextFile data' = d.addFile path data' := by
  simp only [addFile, setContent, Function.update_idem]

theorem apply_pwrite (d : Disk) (file offset : ℕ) (data : Bytes) :
    (DiskEffect.pwrite file offset data).apply d
      = d.setContent file (overlay (d.content file) offset data) := rfl

theorem apply_truncate (d : Disk) (file size : ℕ) :
    (DiskEffect.truncate file size).apply d = d.setContent file (resize (d.content file) size) := rfl

end Disk

/-! ## Records and their data -/

/-- The attributes without the times. -/
def Stat.untimed (s : Stat) : Stat :=
  { s with
    st_atim_sec := 0, st_atim_nsec := 0, st_mtim_sec := 0, st_mtim_nsec := 0,
    st_ctim_sec := 0, st_ctim_nsec := 0 }

namespace InodeRecord

/-- The size in the header. -/
def size (r : InodeRecord) : ℕ := r.header.fstat.st_size.toNat

/-- The path of the disk file. -/
def path (r : InodeRecord) : BlobPath := getDiskFilePath r.header.fstat.st_ino

/-- The record with another size, blob flag and inline data. -/
def setData (r : InodeRecord) (n : ℕ) (has_blob : UInt32) (data : Bytes) : InodeRecord :=
  (r.setBlob { r.header.fstat with st_size := .ofNat n } has_blob).setInline data

@[simp] theorem setData_path (r : InodeRecord) (n : ℕ) (b : UInt32) (data : Bytes) :
    (r.setData n b data).path = r.path := rfl
@[simp] theorem setData_inline (r : InodeRecord) (n : ℕ) (b : UInt32) (data : Bytes) :
    (r.setData n b data).inline = data := rfl
@[simp] theorem setData_has_blob (r : InodeRecord) (n : ℕ) (b : UInt32) (data : Bytes) :
    (r.setData n b data).header.has_blob = b := rfl
theorem setData_size (r : InodeRecord) {n : ℕ} (hn : n < 2 ^ 63) (b : UInt32) (data : Bytes) :
    (r.setData n b data).size = n := UInt64.toNat_ofNat_of_lt' (Nat.lt_trans hn (by decide))

/-- Blob flag, size, inline data and the name of the disk file go together. -/
inductive Agrees (T : ℤ) (d : Disk) (r : InodeRecord) : Prop
  | small (hsize : (r.size : ℤ) ≤ T) (hlt : r.size < 2 ^ 63) (hblob : r.header.has_blob = 0)
      (hinline : r.inline.length = r.size) (hname : d.names r.path = none)
  | large (hsize : T < r.size) (hlt : r.size < 2 ^ 63) (hblob : r.header.has_blob = 1)
      (hinline : r.inline = []) (hname : d.names r.path ≠ none)

/-- The file's data is `data`. -/
inductive Holds (T : ℤ) (d : Disk) (r : InodeRecord) (data : Bytes) : Prop
  | small (hle : (data.length : ℤ) ≤ T) (hlt : data.length < 2 ^ 63)
      (hsize : r.size = data.length) (hblob : r.header.has_blob = 0) (hinline : r.inline = data)
      (hname : d.names r.path = none)
  | large (file : ℕ) (hle : T < data.length) (hlt : data.length < 2 ^ 63)
      (hsize : r.size = data.length) (hblob : r.header.has_blob = 1) (hinline : r.inline = [])
      (hname : d.names r.path = some file) (hcontent : d.content file = data)

theorem Holds.agrees {T : ℤ} {d : Disk} {r : InodeRecord} {data : Bytes} (h : r.Holds T d data) :
    r.Agrees T d := by
  cases h with
  | small hle hlt hsize hblob hinline hname =>
      exact .small (by rw [hsize]; exact hle) (by rw [hsize]; exact hlt) hblob
        (by rw [hinline, hsize]) hname
  | large file hle hlt hsize hblob hinline hname hcontent =>
      exact .large (by rw [hsize]; exact hle) (by rw [hsize]; exact hlt) hblob hinline
        (by rw [hname]; exact Option.some_ne_none file)

end InodeRecord

/-- Small numbers are their own remainders. -/
theorem bmod_of_lt {x : ℤ} {m : ℕ} (h0 : 0 ≤ x) (h : x * 2 < m) : Int.bmod x m = x :=
  Int.bmod_eq_of_le_mul_two (by omega) h

theorem offT_ofNat {x : UInt64} (h : x.toNat < 2 ^ 63) : offT x = x.toNat := by
  have h1 : (x.toNat : ℤ) < 2 ^ 63 := by exact_mod_cast h
  refine bmod_of_lt (Int.natCast_nonneg _) ?_
  generalize (x.toNat : ℤ) = z at h1 ⊢
  norm_num
  omega

theorem sizeT_of_nonneg {x : ℤ} (h0 : 0 ≤ x) (h : x < 2 ^ 64) : sizeT x = x.toNat := by
  rw [sizeT, Int.emod_eq_of_lt h0 h]

namespace World

variable {w : World} {i : ℕ} {r : InodeRecord}

/-! ## Edits of a handle's record -/

theorem iheader_of_value (hv : w.store.value i = r.value) : w.iheader i = r.header := by
  rw [iheader, hv, r.getInodeHeader_value]

theorem setHeader_value (hv : w.store.value i = r.value) (n : ℕ) (b : UInt32) :
    (w.setHeader i ((w.iheader i).withSizeBlob (.ofNat n) b)).store.value i
      = (r.setData n b r.inline).value := by
  rw [setHeader, setValue_value, iheader_of_value hv, hv]
  exact r.updateInodeHeader_value { r.header.fstat with st_size := .ofNat n } b

theorem setHeader_withSize_value (hv : w.store.value i = r.value) (n : ℕ) :
    (w.setHeader i ((w.iheader i).withSize (.ofNat n))).store.value i
      = (r.setData n r.header.has_blob r.inline).value := by
  rw [← setHeader_value hv n r.header.has_blob, iheader_of_value hv]
  rfl

/-! ## `MigrateToDiskFile` -/

/-- The descriptors after the one that is replaced is closed. -/
def closed (w : World) (fd : ℤ) : World := if 0 ≤ fd then (w.sysClose fd).1 else w

theorem closed_data (w : World) (fd : ℤ) :
    (w.closed fd).os.disk = w.os.disk ∧ (w.closed fd).os.shortIo = w.os.shortIo ∧
      ∀ n : ℕ, (n : ℤ) ≠ fd → (w.closed fd).os.fds n = w.os.fds n := by
  unfold closed
  split
  · obtain ⟨hd, hs, _, hf⟩ := w.sysClose_data fd
    exact ⟨hd, hs, hf⟩
  · exact ⟨rfl, rfl, fun _ _ => rfl⟩

theorem closed_upToData (w : World) (fd : ℤ) : w.UpToData (w.closed fd) := by
  unfold closed
  split
  · exact upToData_sysClose w fd
  · exact UpToData.refl w

/-- A descriptor as `fdEntry` sees it. -/
theorem fdEntry_natCast (w : World) (n : ℕ) : w.fdEntry n = w.os.fds n := by
  rw [fdEntry, if_pos (by omega), Int.toNat_natCast]

/-- The inline data moves to a new file, which gets a new descriptor. -/
structure Migrated (w : World) (i : ℕ) (r : InodeRecord) (fd : ℤ) (acc : AccMode) (w' : World)
    (n : ℕ) : Prop where
  value : w'.store.value i = (r.setInline []).value
  disk : w'.os.disk = w.os.disk.addFile r.path r.inline
  free : (w.closed fd).os.fds n = none
  fds : w'.os.fds = Function.update (w.closed fd).os.fds n (some ⟨w.os.disk.nextFile, acc⟩)
  upTo : (w.setValue i (r.setInline []).value).UpToData w'
  shortIo : w.os.shortIo = false

theorem migrate_full (hv : w.store.value i = r.value) (hlt : r.size < 2 ^ 63)
    (hinline : r.inline.length = r.size) (hname : w.os.disk.names r.path = none) {fd : ℤ}
    {flags : OpenFlags} (hok : (w.migrateToDiskFile i fd flags).1.os.shortIo = false) :
    (w.migrateToDiskFile i fd flags).2.1 = 0 ∧ ∃ n : ℕ, (w.migrateToDiskFile i fd flags).2.2 = n ∧
      w.Migrated i r fd flags.acc (w.migrateToDiskFile i fd flags).1 n := by
  obtain ⟨hcd, hcs, _⟩ := w.closed_data fd
  have hcu := w.closed_upToData fd
  unfold migrateToDiskFile at hok ⊢
  dsimp only at hok ⊢
  rw [iheader_of_value hv] at hok ⊢
  rw [show (if 0 ≤ fd then (w.sysClose fd).1 else w) = w.closed fd from rfl] at hok ⊢
  obtain ⟨wc, hwc⟩ : ∃ wc, w.closed fd = wc := ⟨_, rfl⟩
  rw [hwc] at hcd hcs hcu hok ⊢
  have hou : wc.UpToData (wc.openDiskFile r.header flags).1 := upToData_sysOpen _ _ _ _
  rcases wc.sysOpen_cases r.path flags true with ⟨hret, hfail⟩ | ⟨file, ho⟩
  · -- a failed `open` leaves its mark on what is returned at once
    rw [show wc.openDiskFile r.header flags = wc.sysOpen r.path flags true from rfl] at hok
    rw [if_pos (by rw [hret]; decide)] at hok
    exact absurd hok hfail.not_full
  · rw [show wc.openDiskFile r.header flags = wc.sysOpen r.path flags true from rfl] at hok hou ⊢
    generalize wc.sysOpen r.path flags true = o at *
    obtain ⟨wo, ofd⟩ := o
    obtain ⟨hfd, hnamed, hfds, _, hos, _⟩ := ho
    dsimp only at *
    subst hfd
    -- the name was not there, so the file is new
    obtain ⟨rfl, hdisk⟩ : file = w.os.disk.nextFile ∧ wo.os.disk = w.os.disk.addFile r.path [] := by
      cases hnamed with
      | old hn hd =>
          rw [hcd, hname] at hn
          cases hn
      | new hn hc hs hf hd => exact ⟨hcd ▸ hf, by rw [hd, hcd]; rfl⟩
    have hfree := wc.lowestFd_free
    have hvo : wo.store.value i = r.value := by rw [hou.value, hcu.value, hv]
    rw [if_neg (by omega)] at hok ⊢
    rw [offT_ofNat hlt] at hok ⊢
    split at hok
    · rename_i hpos
      rw [if_pos hpos]
      have hbuf : resize ((wo.store.value i).drop
          (TFS_INODE_HEADER_SIZE + r.header.namelen.toNat + 1)) r.header.fstat.st_size.toNat
          = r.inline := by
        have hstart : TFS_INODE_HEADER_SIZE + r.header.namelen.toNat + 1 = r.front.length := by
          rw [r.length_front, InodeRecord.dataStart, r.namelen_eq]
        rw [hvo, hstart, r.value_eq_front, List.drop_left,
          show r.header.fstat.st_size.toNat = r.inline.length from hinline.symm, resize_length]
      rw [hbuf] at hok ⊢
      have hpu := wo.upToData_sysPwrite wc.lowestFd r.inline 0
      rcases wo.sysPwrite_cases wc.lowestFd r.inline 0 with ⟨_, hfail⟩ | ⟨m, hret, hw⟩
      · exact absurd hok hfail.not_full
      · generalize wo.sysPwrite wc.lowestFd r.inline 0 = p at *
        obtain ⟨wp, pret⟩ := p
        dsimp only at *
        obtain ⟨hm, hso⟩ := hw.full hok
        subst hm hret
        obtain ⟨f, hf, _, hpd⟩ := hw.open_file
        rw [fdEntry_natCast, hfds, Function.update_self] at hf
        obtain rfl := Option.some.inj hf
        have hlen : r.inline.length ≠ 0 := by
          rw [hinline]
          show r.header.fstat.st_size.toNat ≠ 0
          omega
        rw [if_neg hlen, List.take_length, Disk.apply_pwrite, hdisk, Disk.addFile_content,
          Int.toNat_zero, overlay_zero [] r.inline (Nat.zero_le _), Disk.addFile_setContent] at hpd
        have hvp : wp.store.value i = r.value := by rw [hpu.value, hvo]
        refine ⟨?_, wc.lowestFd, rfl, ?_, hpd, by rw [hwc]; exact hfree, ?_, ?_, ?_⟩
        · rw [if_neg]
          rw [hinline]
          exact not_not.mpr rfl
        · rw [setValue_value, hvp, r.dropInlineData_value]
        · show wp.os.fds = _
          rw [hw.fds, hfds, hwc]
        · rw [hvp, r.dropInlineData_value]
          exact ((hcu.trans hou).trans hpu).setValue i _
        · rw [← hcs, ← hos, hso]
    · rename_i hzero
      rw [if_neg hzero]
      have hnil : r.inline = [] := by
        refine List.eq_nil_of_length_eq_zero ?_
        rw [hinline]
        show r.header.fstat.st_size.toNat = 0
        omega
      have hself : r.setInline [] = r := InodeRecord.ext_fields rfl rfl hnil.symm
      refine ⟨rfl, wc.lowestFd, rfl, by rw [hself]; exact hvo, by rw [hdisk, hnil],
        by rw [hwc]; exact hfree, by rw [hwc]; exact hfds, ?_, ?_⟩
      · rw [hself, ← hv, setValue_self]
        exact hcu.trans hou
      · rw [← hcs, ← hos]
        exact hok

/-! ## `Write` -/

theorem cInt_of_lt {n : ℕ} (h : n < 2 ^ 31) : cInt n = n :=
  cInt_of_fits ⟨by omega, by exact_mod_cast h⟩

/-- A record that keeps its size and flag. -/
theorem setData_self (r : InodeRecord) (data : Bytes) :
    r.setData r.size r.header.has_blob data = r.setInline data := by
  have hsize : UInt64.ofNat r.size = r.header.fstat.st_size := UInt64.ofNat_toNat
  rw [InodeRecord.setData, hsize]
  rfl

variable {fh : ℕ} {f : FileHandle}

/-- The data moves to a new file, and is written to there. -/
theorem writeMigrate_full (hv : w.store.value f.handle_ = r.value)
    (hlt : r.size < 2 ^ 63) (hinline : r.inline.length = r.size)
    (hname : w.os.disk.names r.path = none) {buf : Bytes} {offset : ℤ} (hbuf : buf ≠ [])
    {total : ℕ} (hok : (w.writeMigrate fh f buf offset total).1.os.shortIo = false) :
    (w.writeMigrate fh f buf offset total).2 = ((buf.length : ℤ), true) ∧
      (w.writeMigrate fh f buf offset total).1.store.value f.handle_ = (r.setData total 1 []).value ∧
      (w.writeMigrate fh f buf offset total).1.os.disk
        = w.os.disk.addFile r.path (overlay r.inline offset.toNat buf) ∧
      (∃ n : ℕ, (w.closed f.fd_).os.fds n = none ∧
        (w.writeMigrate fh f buf offset total).1.os.fds
          = Function.update (w.closed f.fd_).os.fds n (some ⟨w.os.disk.nextFile, f.flags_.acc⟩) ∧
        (w.writeMigrate fh f buf offset total).1.files
          = Function.update w.files fh (some { f with fd_ := n })) ∧
      w.os.shortIo = false := by
  unfold writeMigrate at hok ⊢
  dsimp only at hok ⊢
  generalize hm : w.migrateToDiskFile f.handle_ f.fd_ f.flags_ = m at hok ⊢
  have hokm : m.1.os.shortIo = false := by
    split at hok
    · -- a `pwrite` clears nothing
      rcases sysPwrite_cases _ m.2.2 buf offset with ⟨_, hfail⟩ | ⟨_, _, hw⟩
      · exact absurd hok hfail.not_full
      · exact (hw.full hok).2
    · exact hok
  rw [← hm] at hokm
  obtain ⟨hret, n, hfd, hmig⟩ := migrate_full hv hlt hinline hname hokm
  rw [hm] at hret hfd hmig
  rw [if_pos hret] at hok ⊢
  have hvm : (m.1.setFd fh f m.2.2).store.value f.handle_ = (r.setInline []).value := hmig.value
  have hv1 := setHeader_value hvm total 1
  have hup : m.1.files = w.files := by
    obtain ⟨_, _, _, hu⟩ := hmig.upTo
    rw [hu]
    rfl
  generalize hwh : (m.1.setFd fh f m.2.2).setHeader f.handle_
    (((m.1.setFd fh f m.2.2).iheader f.handle_).withSizeBlob (.ofNat total) 1) = wh at hok hv1 ⊢
  have hwd : wh.os = m.1.os := by rw [← hwh]; rfl
  have hwf : wh.files = Function.update w.files fh (some { f with fd_ := n }) := by
    rw [← hwh, ← hup, ← hfd]
    rfl
  have hpu := wh.upToData_sysPwrite m.2.2 buf offset
  rcases wh.sysPwrite_cases m.2.2 buf offset with ⟨_, hfail⟩ | ⟨k, hk, hw⟩
  · exact absurd hok hfail.not_full
  · obtain ⟨rfl, _⟩ := hw.full hok
    obtain ⟨g, hg, _, hd⟩ := hw.open_file
    rw [hfd, fdEntry_natCast, hwd, hmig.fds, Function.update_self] at hg
    obtain rfl := Option.some.inj hg
    have hne : buf.length ≠ 0 := fun h0 => hbuf (List.eq_nil_of_length_eq_zero h0)
    rw [if_neg hne, List.take_length, Disk.apply_pwrite, hwd, hmig.disk, Disk.addFile_content,
      Disk.addFile_setContent] at hd
    refine ⟨?_, ?_, hd, ⟨n, hmig.free, ?_, ?_⟩, hmig.shortIo⟩
    · rw [hk, cInt_of_lt hw.lt]
    · rw [hpu.value, hv1]
      rfl
    · rw [hw.fds, hwd, hmig.fds]
    · rw [← hwf]
      obtain ⟨_, _, _, hu⟩ := hpu
      rw [hu]

/-- The descriptor an open file has, if any, is on the disk file of its record, and
opening that file would not empty it. Without one `fd_` is -1. -/
structure FdOk (w : World) (r : InodeRecord) (f : FileHandle) : Prop where
  fd : 0 ≤ f.fd_ → ∃ file, w.os.disk.names r.path = some file ∧
    w.fdEntry f.fd_ = some ⟨file, f.flags_.acc⟩
  trunc : f.flags_.trunc = false
  low : -1 ≤ f.fd_

/-- The descriptor that `Read` and `Write` use for a blob. -/
structure Ensured (w : World) (fh : ℕ) (f : FileHandle) (r : InodeRecord) (file : ℕ)
    (w' : World) (fd : ℤ) : Prop where
  nonneg : 0 ≤ fd
  upTo : (w.setFd fh f fd).UpToData w'
  names : w'.os.disk.names = w.os.disk.names
  shortIo : w'.os.shortIo = w.os.shortIo
  keeps : ∀ n, w.os.fds n ≠ none → w'.os.fds n = w.os.fds n
  good : w.FdOk r f → w'.os.disk = w.os.disk ∧ w'.fdEntry fd = some ⟨file, f.flags_.acc⟩

theorem ensureFd_full (hf : w.files fh = some f) {file : ℕ}
    (hname : w.os.disk.names r.path = some file)
    (hok : (w.ensureFd fh f r.header).1.os.shortIo = false) :
    w.Ensured fh f r file (w.ensureFd fh f r.header).1 (w.ensureFd fh f r.header).2 := by
  have hup := ensureFd_upToData hf r.header
  unfold ensureFd at hok hup ⊢
  split at hok
  · rename_i hneg
    rw [if_pos hneg] at hup ⊢
    rw [show w.openDiskFile r.header f.flags_ = w.sysOpen r.path f.flags_ true from rfl] at *
    rcases w.sysOpen_cases r.path f.flags_ true with ⟨_, hfail⟩ | ⟨file', ho⟩
    · exact absurd hok hfail.not_full
    · generalize w.sysOpen r.path f.flags_ true = o at *
      obtain ⟨hfd, hnamed, hfds, _, hs, _⟩ := ho
      have hfree := w.lowestFd_free
      dsimp only at *
      cases hnamed with
      | new hn => rw [hname] at hn; cases hn
      | old hn hd =>
          rw [hname] at hn
          obtain rfl := Option.some.inj hn
          refine ⟨by omega, hup, ?_, hs, ?_, ?_⟩
          · show o.1.os.disk.names = _
            rw [hd]
            split <;> rfl
          · intro n hn'
            show o.1.os.fds n = _
            rw [hfds, Function.update_of_ne fun h : n = w.lowestFd => hn' (by rw [h, hfree])]
          · intro hok'
            refine ⟨?_, ?_⟩
            · show o.1.os.disk = _
              rw [hd, hok'.trunc]
              rfl
            · rw [hfd, fdEntry_natCast]
              show o.1.os.fds _ = _
              rw [hfds, Function.update_self]
  · rename_i hpos
    rw [if_neg hpos] at hup ⊢
    refine ⟨by omega, hup, rfl, rfl, fun _ _ => rfl, fun hok' => ⟨rfl, ?_⟩⟩
    obtain ⟨file', hn, hfd⟩ := hok'.fd (by omega)
    rw [hname] at hn
    obtain rfl := Option.some.inj hn
    exact hfd

/-- The data of a blob is written to its disk file. -/
theorem writeBlob_full (hf : w.files fh = some f) {file : ℕ}
    (hname : w.os.disk.names r.path = some file) {buf : Bytes} {offset : ℤ}
    (hok : (w.writeBlob fh f r.header buf offset).1.os.shortIo = false) :
    (w.writeBlob fh f r.header buf offset).2 = (buf.length : ℤ) ∧ w.os.shortIo = false ∧
      (w.writeBlob fh f r.header buf offset).1.os.disk.names = w.os.disk.names ∧
      ∃ fd, 0 ≤ fd ∧ (w.setFd fh f fd).UpToData (w.writeBlob fh f r.header buf offset).1 ∧
        (∀ n, w.os.fds n ≠ none →
          (w.writeBlob fh f r.header buf offset).1.os.fds n = w.os.fds n) ∧
        (w.FdOk r f → buf ≠ [] → (w.writeBlob fh f r.header buf offset).1.fdEntry fd
            = some ⟨file, f.flags_.acc⟩ ∧
          (w.writeBlob fh f r.header buf offset).1.os.disk = w.os.disk.setContent file
            (overlay (w.os.disk.content file) offset.toNat buf)) := by
  unfold writeBlob at hok ⊢
  dsimp only at hok ⊢
  have hoke : (w.ensureFd fh f r.header).1.os.shortIo = false := by
    split at hok
    · exact hok
    · rcases sysPwrite_cases _ (w.ensureFd fh f r.header).2 buf offset with ⟨_, hfail⟩ | ⟨_, _, hw⟩
      · exact absurd hok hfail.not_full
      · exact (hw.full hok).2
  have he := ensureFd_full hf hname hoke
  generalize w.ensureFd fh f r.header = e at *
  have hnn := he.nonneg
  rw [if_neg (by omega)] at hok ⊢
  have hpu := e.1.upToData_sysPwrite e.2 buf offset
  rcases e.1.sysPwrite_cases e.2 buf offset with ⟨_, hfail⟩ | ⟨k, hk, hw⟩
  · exact absurd hok hfail.not_full
  · obtain ⟨rfl, hs⟩ := hw.full hok
    obtain ⟨g, hg, _, hd⟩ := hw.open_file
    refine ⟨by rw [hk, cInt_of_lt hw.lt], he.shortIo ▸ hs, ?_, e.2, hnn, he.upTo.trans hpu, ?_, ?_⟩
    · rw [hd, ← he.names]
      split <;> rfl
    · intro n hn
      rw [hw.fds, he.keeps n hn]
    · intro hfo hbuf
      obtain ⟨hdisk, hentry⟩ := he.good hfo
      rw [hentry] at hg
      obtain rfl := Option.some.inj hg
      have hne : buf.length ≠ 0 := fun h0 => hbuf (List.eq_nil_of_length_eq_zero h0)
      rw [if_neg hne, List.take_length, Disk.apply_pwrite, hdisk] at hd
      refine ⟨?_, hd⟩
      rw [fdEntry, hw.fds]
      exact hentry

/-- What a `Write` or `Truncate` that does all it is asked to makes of record `r`: another
size, and the flag, the inline data and the disk file that go with it. -/
structure Resized (w w' : World) (r r' : InodeRecord) (n : ℕ) : Prop where
  agrees : r'.Agrees w.threshold_ w'.os.disk
  edit : ∃ b data, r' = r.setData n b data
  others : ∀ p, p ≠ r.path → w'.os.disk.names p = w.os.disk.names p

theorem FdOk.congr {g : FileHandle} {w' : World} (h : w.FdOk r g) (hos : w'.os = w.os) :
    w'.FdOk r g :=
  ⟨by rw [fdEntry, hos]; exact h.fd, h.trunc, h.low⟩

theorem FdOk.neg {g : FileHandle} (h : w.FdOk r g) (hname : w.os.disk.names r.path = none) :
    g.fd_ < 0 := by
  by_contra hn
  obtain ⟨file, hf, _⟩ := h.fd (by omega)
  rw [hname] at hf
  cases hf

/-- With a descriptor that is not one, there is nothing to keep. -/
theorem FdOk.of_neg {g : FileHandle} {r' : InodeRecord} {w' : World} (h : w.FdOk r g)
    (hneg : g.fd_ < 0) : w'.FdOk r' g :=
  ⟨fun hpos => absurd hpos (by omega), h.trunc, h.low⟩

theorem FdOk.keep {g : FileHandle} {r' : InodeRecord} {w' : World} (h : w.FdOk r g)
    (hpath : w'.os.disk.names r'.path = w.os.disk.names r.path)
    (hkeep : ∀ n, w.os.fds n ≠ none → w'.os.fds n = w.os.fds n) : w'.FdOk r' g := by
  refine ⟨fun hpos => ?_, h.trunc, h.low⟩
  obtain ⟨file, hn, hfd⟩ := h.fd hpos
  refine ⟨file, hpath.trans hn, ?_⟩
  rw [fdEntry, if_pos hpos] at hfd ⊢
  rw [hkeep _ (by rw [hfd]; exact Option.some_ne_none _), hfd]

/-- The state in which `Write` looks at the record. -/
def writeStart (w : World) (f : FileHandle) : World :=
  (w.setMode f.handle_ .write).readLock ((w.setMode f.handle_ .write).store.keyOf f.handle_)

theorem writeStart_value (w : World) (f : FileHandle) :
    (w.writeStart f).store.value f.handle_ = w.store.value f.handle_ := by
  show (w.store.setMode f.handle_ .write).value f.handle_ = _
  exact Store.setMode_value _ _ _ _

/-- What `Write` does to the header last. -/
def grown (w : World) (i n : ℕ) (grows : Bool) : World :=
  if grows then w.setHeader i ((w.iheader i).withSize (.ofNat n)) else w

theorem grown_os (w : World) (i n : ℕ) (b : Bool) : (w.grown i n b).os = w.os := by
  unfold grown
  split <;> rfl

theorem grown_files (w : World) (i n : ℕ) (b : Bool) : (w.grown i n b).files = w.files := by
  unfold grown
  split <;> rfl

/-- A record that grows to `n` bytes, if it has fewer. -/
theorem grown_value (hv : w.store.value i = r.value) {n : ℕ} {b : Bool}
    (hb : b = decide (r.size < n)) : (w.grown i n b).store.value i
      = (r.setData (max r.size n) r.header.has_blob r.inline).value := by
  subst hb
  unfold grown
  by_cases hlt : r.size < n
  · rw [if_pos (decide_eq_true hlt), setHeader_withSize_value hv, Nat.max_eq_right (by omega)]
  · rw [if_neg (fun h => hlt (of_decide_eq_true h)), hv, Nat.max_eq_left (by omega), setData_self]
    rfl

/-- The part of `Write` that stores the data and the size. -/
def written (w : World) (fh : ℕ) (f : FileHandle) (size : ℕ) (buf : Bytes) (offset : ℤ)
    (total : ℕ) : World × ℤ :=
  let d := w.writeData fh f buf offset total
  (d.1.grown f.handle_ total (decide (0 ≤ d.2.1) && (decide (size < total) && !d.2.2)), d.2.1)

theorem write_eq (hf : w.files fh = some f) (buf : Bytes) (offset : ℤ) :
    w.write fh buf offset =
      let e := (w.writeStart f).written fh f
        ((w.writeStart f).iheader f.handle_).fstat.st_size.toNat buf offset
        (sizeT (offset + buf.length))
      (e.1.unlock ((w.setMode f.handle_ .write).store.keyOf f.handle_), e.2) := by
  rw [write, hf]
  simp only [written, grown, Bool.and_eq_true, Bool.not_eq_true', decide_eq_true_eq,
    Bool.not_eq_true]
  rfl

theorem writeData_small (hv : w.store.value i = r.value) (hi : f.handle_ = i)
    (hblob : r.header.has_blob = 0) {buf : Bytes} {offset : ℤ} {total : ℕ}
    (hoff : 0 ≤ offset) (hlt : offset < 2 ^ 63) (hle : total ≤ sizeT w.threshold_) :
    w.writeData fh f buf offset total
      = (w.setValue i (r.setInline (overlay r.inline offset.toNat buf)).value, cInt buf.length,
        false) := by
  have hstart := r.dataStart_lt
  subst hi
  rw [writeData, iheader_of_value hv]
  dsimp only
  rw [if_neg (by rw [hblob]; decide), if_neg (by omega), hv, sizeT_of_nonneg hoff (by omega),
    r.updateInlineData_value buf offset.toNat (by omega)]

theorem writeData_migrate (hv : w.store.value f.handle_ = r.value)
    (hblob : r.header.has_blob = 0) {buf : Bytes} {offset : ℤ} {total : ℕ}
    (hlt : sizeT w.threshold_ < total) :
    w.writeData fh f buf offset total = w.writeMigrate fh f buf offset total := by
  rw [writeData, iheader_of_value hv]
  dsimp only
  rw [if_neg (by rw [hblob]; decide), if_pos hlt]

theorem writeData_large (hv : w.store.value f.handle_ = r.value)
    (hblob : r.header.has_blob = 1) {buf : Bytes} {offset : ℤ} {total : ℕ} :
    w.writeData fh f buf offset total = ((w.writeBlob fh f r.header buf offset).1,
      (w.writeBlob fh f r.header buf offset).2, false) := by
  rw [writeData, iheader_of_value hv]
  dsimp only
  rw [if_pos (by rw [hblob]; decide)]

/-- What a `Write` of `buf` that does all that it is asked to leaves. -/
structure Writes (w : World) (fh : ℕ) (f : FileHandle) (r : InodeRecord) (buf : Bytes)
    (offset : ℤ) (w' : World) (r' : InodeRecord) (fd : ℤ) : Prop where
  shortIo : w.os.shortIo = false
  value : w'.store.value f.handle_ = r'.value
  resized : w.Resized w' r r' (max r.size (offset.toNat + buf.length))
  fdOk : ∀ g, w.FdOk r g → w'.FdOk r' g
  files : w'.files = Function.update w.files fh (some { f with fd_ := fd })
  holds : ∀ data, r.Holds w.threshold_ w.os.disk data → w.FdOk r f →
    r'.Holds w.threshold_ w'.os.disk (overlay data offset.toNat buf) ∧
      w'.FdOk r' { f with fd_ := fd }

section

variable {buf : Bytes} {offset : ℤ} (hf : w.files fh = some f)
  (hv : w.store.value f.handle_ = r.value) (hT : 0 ≤ w.threshold_ ∧ w.threshold_ < 2 ^ 31)
  (hoff : 0 ≤ offset) (hlen : offset + buf.length < 2 ^ 63) (hbuf : buf ≠ [])
  (hlt : r.size < 2 ^ 63)
  (hok : (w.written fh f r.size buf offset (offset.toNat + buf.length)).1.os.shortIo = false)
include hf hv hT hoff hlen hlt hok

/-- The data stays inline. -/
theorem written_small (hblob : r.header.has_blob = 0)
    (hinline : r.inline.length = r.size) (hname : w.os.disk.names r.path = none)
    (hle : ((max r.size (offset.toNat + buf.length) : ℕ) : ℤ) ≤ w.threshold_) :
    (w.written fh f r.size buf offset (offset.toNat + buf.length)).2 = (buf.length : ℤ) ∧
      ∃ r' fd, w.Writes fh f r buf offset
        (w.written fh f r.size buf offset (offset.toNat + buf.length)).1 r' fd := by
  have hthr : sizeT w.threshold_ = w.threshold_.toNat := sizeT_of_nonneg hT.1 (by omega)
  have hret : cInt buf.length = buf.length := cInt_of_lt (by omega)
  unfold written at hok ⊢
  rw [writeData_small hv rfl hblob hoff (by omega) (by omega)] at hok ⊢
  dsimp only at hok ⊢
  rw [hret, Bool.not_false, Bool.and_true, decide_eq_true (Int.natCast_nonneg buf.length),
    Bool.true_and] at hok ⊢
  obtain ⟨wg, hwg⟩ : ∃ wg, (w.setValue f.handle_
      (r.setInline (overlay r.inline offset.toNat buf)).value).grown f.handle_
        (offset.toNat + buf.length) (decide (r.size < offset.toNat + buf.length)) = wg := ⟨_, rfl⟩
  have hval : wg.store.value f.handle_ = ((r.setInline (overlay r.inline offset.toNat
      buf)).setData (max r.size (offset.toNat + buf.length)) r.header.has_blob
        (overlay r.inline offset.toNat buf)).value := by
    rw [← hwg]
    exact grown_value (setValue_value ..) rfl
  have hos : wg.os = w.os := by
    rw [← hwg, grown_os]
    rfl
  have hfiles : wg.files = w.files := by
    rw [← hwg, grown_files]
    rfl
  rw [hwg] at hok ⊢
  have hlo : (overlay r.inline offset.toNat buf).length
      = max r.size (offset.toNat + buf.length) := by rw [length_overlay, hinline]
  generalize hn : max r.size (offset.toNat + buf.length) = n at hlo hle hval
  have hnlt : n < 2 ^ 63 := by
    rw [← hn]
    exact max_lt hlt (by omega)
  have hname' : wg.os.disk.names r.path = none := by
    rw [hos]
    exact hname
  refine ⟨rfl, r.setData n 0 (overlay r.inline offset.toNat buf), f.fd_, ?_, ?_,
    ⟨?_, ?_, ?_⟩, ?_, ?_, ?_⟩
  · rw [← hos]
    exact hok
  · rw [← hblob]
    exact hval
  · refine .small ?_ ?_ rfl ?_ hname'
    · rwa [InodeRecord.setData_size _ hnlt]
    · rwa [InodeRecord.setData_size _ hnlt]
    · rw [InodeRecord.setData_size _ hnlt]
      exact hlo
  · rw [hn]
    exact ⟨0, _, rfl⟩
  · intro p _
    rw [hos]
  · intro g hg
    exact hg.of_neg (hg.neg hname)
  · rw [hfiles, ← hf, Function.update_eq_self]
  · intro data hdata hfo
    cases hdata with
    | large file _ _ _ hblob' => rw [hblob] at hblob'; cases hblob'
    | small _ _ _ _ hinl =>
        subst hinl
        refine ⟨.small ?_ ?_ ?_ rfl rfl hname', hfo.of_neg (hfo.neg hname)⟩
        · rwa [hlo]
        · rwa [hlo]
        · rw [hlo, InodeRecord.setData_size _ hnlt]

include hbuf

omit hf in
/-- The data moves to a disk file. -/
theorem written_migrate (hblob : r.header.has_blob = 0)
    (hinline : r.inline.length = r.size) (hname : w.os.disk.names r.path = none)
    (hle : (r.size : ℤ) ≤ w.threshold_) (hbig : w.threshold_ < (offset.toNat + buf.length : ℕ)) :
    (w.written fh f r.size buf offset (offset.toNat + buf.length)).2 = (buf.length : ℤ) ∧
      ∃ r' fd, w.Writes fh f r buf offset
        (w.written fh f r.size buf offset (offset.toNat + buf.length)).1 r' fd := by
  have hthr : sizeT w.threshold_ = w.threshold_.toNat := sizeT_of_nonneg hT.1 (by omega)
  have hsum : offset.toNat + buf.length < 2 ^ 63 := by omega
  unfold written at hok ⊢
  rw [writeData_migrate hv hblob (by omega)] at hok ⊢
  dsimp only at hok ⊢
  have hok' : (w.writeMigrate fh f buf offset (offset.toNat + buf.length)).1.os.shortIo
      = false := by
    rw [← grown_os]
    exact hok
  obtain ⟨hret, hval, hdisk, ⟨n, _, hfds, hfiles⟩, hs⟩ :=
    writeMigrate_full hv hlt hinline hname hbuf hok'
  generalize w.writeMigrate fh f buf offset (offset.toNat + buf.length) = m at *
  obtain ⟨wm, ret, b⟩ := m
  obtain ⟨rfl, rfl⟩ := Prod.mk.inj hret
  dsimp only at hval hdisk hfds hfiles ⊢
  rw [Bool.not_true, Bool.and_false, Bool.and_false]
  have hmax : max r.size (offset.toNat + buf.length) = offset.toNat + buf.length := by omega
  have hname' : wm.os.disk.names r.path = some w.os.disk.nextFile := by
    rw [hdisk, Disk.addFile_names]
  refine ⟨rfl, r.setData (offset.toNat + buf.length) 1 [], n, hs, hval, ⟨?_, ?_, ?_⟩, ?_,
    hfiles, ?_⟩
  · refine .large ?_ ?_ rfl rfl ?_
    · rwa [InodeRecord.setData_size _ hsum]
    · rwa [InodeRecord.setData_size _ hsum]
    · show wm.os.disk.names r.path ≠ none
      rw [hname']
      exact Option.some_ne_none _
  · rw [hmax]
    exact ⟨1, [], rfl⟩
  · intro p hp
    show wm.os.disk.names p = _
    rw [hdisk, Disk.addFile_names_of_ne _ hp]
  · intro g hg
    exact hg.of_neg (hg.neg hname)
  · intro data hdata hfo
    cases hdata with
    | large file _ _ _ hblob' => rw [hblob] at hblob'; cases hblob'
    | small _ _ _ _ hinl =>
        subst hinl
        have hlo : (overlay r.inline offset.toNat buf).length = offset.toNat + buf.length := by
          rw [length_overlay, hinline, hmax]
        refine ⟨.large w.os.disk.nextFile ?_ ?_ ?_ rfl rfl hname' ?_, ⟨fun _ => ?_, hfo.trunc, ?_⟩⟩
        · rwa [hlo]
        · rwa [hlo]
        · rw [hlo, InodeRecord.setData_size _ hsum]
        · show wm.os.disk.content _ = _
          rw [hdisk, Disk.addFile_content]
        · refine ⟨w.os.disk.nextFile, hname', ?_⟩
          show wm.fdEntry n = _
          rw [fdEntry_natCast, hfds, Function.update_self]
        · show (-1 : ℤ) ≤ n
          omega

omit hT in
/-- The data is in a disk file. -/
theorem written_large (hblob : r.header.has_blob = 1)
    (hinline : r.inline = []) (hname : w.os.disk.names r.path ≠ none)
    (hbig : w.threshold_ < r.size) :
    (w.written fh f r.size buf offset (offset.toNat + buf.length)).2 = (buf.length : ℤ) ∧
      ∃ r' fd, w.Writes fh f r buf offset
        (w.written fh f r.size buf offset (offset.toNat + buf.length)).1 r' fd := by
  obtain ⟨file, hfile⟩ := Option.ne_none_iff_exists'.mp hname
  unfold written at hok ⊢
  rw [writeData_large hv hblob] at hok ⊢
  dsimp only at hok ⊢
  have hok' : (w.writeBlob fh f r.header buf offset).1.os.shortIo = false := by
    rw [← grown_os]
    exact hok
  obtain ⟨hret, hs, hnames, fd, hpos, hup, hkeep, hgood⟩ := writeBlob_full hf hfile hok'
  generalize w.writeBlob fh f r.header buf offset = b at *
  obtain ⟨wb, ret⟩ := b
  subst hret
  dsimp only at hok hnames hup hkeep hgood ⊢
  rw [Bool.not_false, Bool.and_true, decide_eq_true (Int.natCast_nonneg buf.length),
    Bool.true_and] at hok ⊢
  have hvb : wb.store.value f.handle_ = r.value := by
    rw [hup.value, ← hv]
    rfl
  have hfb : wb.files = Function.update w.files fh (some { f with fd_ := fd }) := by
    obtain ⟨_, _, _, hu⟩ := hup
    rw [hu]
    rfl
  obtain ⟨wg, hwg⟩ : ∃ wg, wb.grown f.handle_ (offset.toNat + buf.length)
      (decide (r.size < offset.toNat + buf.length)) = wg := ⟨_, rfl⟩
  have hval : wg.store.value f.handle_ = (r.setData (max r.size (offset.toNat + buf.length))
      r.header.has_blob r.inline).value := by
    rw [← hwg]
    exact grown_value hvb rfl
  have hos : wg.os = wb.os := by rw [← hwg, grown_os]
  have hfiles : wg.files = wb.files := by rw [← hwg, grown_files]
  rw [hwg] at hok ⊢
  generalize hn : max r.size (offset.toNat + buf.length) = n at hval
  have hnlt : n < 2 ^ 63 := by
    rw [← hn]
    exact max_lt hlt (by omega)
  have hnle : w.threshold_ < n := by
    rw [← hn, Nat.cast_max]
    exact lt_max_of_lt_left hbig
  have hnames' : wg.os.disk.names = w.os.disk.names := by rw [hos, hnames]
  refine ⟨rfl, r.setData n 1 [], fd, hs, ?_, ⟨?_, ?_, ?_⟩, ?_, ?_, ?_⟩
  · rw [← hblob, ← hinline]
    exact hval
  · refine .large ?_ ?_ rfl rfl ?_
    · rwa [InodeRecord.setData_size _ hnlt]
    · rwa [InodeRecord.setData_size _ hnlt]
    · show wg.os.disk.names r.path ≠ none
      rw [hnames']
      exact hname
  · rw [hn]
    exact ⟨1, [], rfl⟩
  · intro p _
    rw [hnames']
  · intro g hg
    refine hg.keep (congrFun hnames' r.path) fun k hk => ?_
    rw [hos]
    exact hkeep k hk
  · rw [hfiles, hfb]
  · intro data hdata hfo
    cases hdata with
    | small _ _ _ hblob' => rw [hblob] at hblob'; cases hblob'
    | large file' _ _ hsize' _ _ hfile' hcontent =>
        rw [hfile] at hfile'
        obtain rfl := Option.some.inj hfile'
        obtain ⟨hentry, hdisk⟩ := hgood hfo hbuf
        rw [hcontent] at hdisk
        have hname'' : wg.os.disk.names r.path = some file := by rw [hnames', hfile]
        have hlo : (overlay data offset.toNat buf).length = n := by
          rw [length_overlay, ← hsize', hn]
        refine ⟨.large file ?_ ?_ ?_ rfl rfl hname'' ?_, ⟨fun _ => ⟨file, hname'', ?_⟩,
          hfo.trunc, Int.le_trans (by decide) hpos⟩⟩
        · rwa [hlo]
        · rwa [hlo]
        · rw [hlo, InodeRecord.setData_size _ hnlt]
        · show wg.os.disk.content file = _
          rw [hos, hdisk, Disk.setContent_content]
        · show wg.fdEntry fd = _
          rw [fdEntry, hos]
          exact hentry

end

/-- `Write`, when every call on the data file does all that it is asked to. -/
theorem write_full (hf : w.files fh = some f) (hv : w.store.value f.handle_ = r.value)
    (hA : r.Agrees w.threshold_ w.os.disk) (hT : 0 ≤ w.threshold_ ∧ w.threshold_ < 2 ^ 31)
    {buf : Bytes} {offset : ℤ} (hoff : 0 ≤ offset) (hlen : offset + buf.length < 2 ^ 63)
    (hbuf : buf ≠ []) (hok : (w.write fh buf offset).1.os.shortIo = false) :
    (w.write fh buf offset).2 = (buf.length : ℤ) ∧
      ∃ r' fd, w.Writes fh f r buf offset (w.write fh buf offset).1 r' fd := by
  have htot : sizeT (offset + buf.length) = offset.toNat + buf.length := by
    rw [sizeT_of_nonneg (by omega) (by omega)]
    omega
  have hv₀ : (w.writeStart f).store.value f.handle_ = r.value := by rw [writeStart_value, hv]
  rw [write_eq hf, htot, iheader_of_value hv₀] at hok ⊢
  rw [show r.header.fstat.st_size.toNat = r.size from rfl] at hok ⊢
  -- what the start of `Write` changes, and the lock, do not matter here
  have hstart : ((w.writeStart f).written fh f r.size buf offset
      (offset.toNat + buf.length)).2 = (buf.length : ℤ) ∧
      ∃ r' fd, (w.writeStart f).Writes fh f r buf offset
        ((w.writeStart f).written fh f r.size buf offset (offset.toNat + buf.length)).1 r' fd := by
    cases hA with
    | small hle hlt hblob hinline hname =>
        by_cases hbig : (w.writeStart f).threshold_ < (offset.toNat + buf.length : ℕ)
        · exact written_migrate hv₀ hT hoff hlen hbuf hlt hok hblob hinline hname hle hbig
        · exact written_small hf hv₀ hT hoff hlen hlt hok hblob hinline hname
            (by rw [Nat.cast_max]; exact max_le hle (by omega))
    | large hle hlt hblob hinline hname =>
        exact written_large hf hv₀ hoff hlen hbuf hlt hok hblob hinline hname hle
  obtain ⟨hret, r', fd, hw⟩ := hstart
  refine ⟨hret, r', fd, hw.shortIo, hw.value, ⟨hw.resized.agrees, hw.resized.edit,
    hw.resized.others⟩, ?_, hw.files, ?_⟩
  · intro g hg
    exact (hw.fdOk g (hg.congr rfl)).congr rfl
  · intro data hdata hg
    obtain ⟨hdata', hg'⟩ := hw.holds data hdata (hg.congr rfl)
    exact ⟨hdata', hg'.congr rfl⟩

/-! ## `Truncate` -/

theorem UpToData.threshold {w w' : World} (h : w.UpToData w') : w'.threshold_ = w.threshold_ := by
  obtain ⟨_, _, _, rfl⟩ := h
  rfl

/-- The part of `Truncate` that moves the data and sets the size. -/
def truncated (w : World) (i : ℕ) (new_size : ℤ) : World × ℤ :=
  let d := w.truncateData i new_size
  (if new_size ≠ offT (w.iheader i).fstat.st_size then
    d.1.setHeader i ((d.1.iheader i).withSizeBlob (ofOffT new_size)
      (if d.1.threshold_ < new_size then 1 else 0))
  else d.1, d.2)

/-- What a `Truncate` to `n` bytes that does all that it is asked to leaves. -/
structure Truncates (w : World) (i : ℕ) (r : InodeRecord) (n : ℕ) (w' : World)
    (r' : InodeRecord) : Prop where
  shortIo : w.os.shortIo = false
  value : w'.store.value i = r'.value
  resized : w.Resized w' r r' n
  fdOk : ∀ g, w.FdOk r g → (w.threshold_ < r.size → n ≤ w.threshold_ → g.fd_ < 0) →
    w'.FdOk r' g
  holds : ∀ data, r.Holds w.threshold_ w.os.disk data →
    r'.Holds w.threshold_ w'.os.disk (resize data n)

/-- The header that `Truncate` sets. -/
theorem resized_value {wd : World} {rx : InodeRecord} (hv : wd.store.value i = rx.value) {n : ℕ}
    (hn : n < 2 ^ 63) {size : UInt64} (hsize : rx.header.fstat.st_size = size)
    (hlt : size.toNat < 2 ^ 63) {b : UInt32} (hb : n = size.toNat → rx.header.has_blob = b) :
    (if (n : ℤ) ≠ offT size then
        wd.setHeader i ((wd.iheader i).withSizeBlob (ofOffT n) b)
      else wd).store.value i = (rx.setData n b rx.inline).value := by
  rw [offT_ofNat hlt]
  by_cases hne : n = size.toNat
  · rw [if_neg (by rw [hne]; exact not_not.mpr rfl), hv, ← hb hne]
    have hself : rx.size = n := by rw [hne, ← hsize]; rfl
    rw [← hself, setData_self]
    rfl
  · rw [if_pos (by exact_mod_cast hne), ofOffT,
      sizeT_of_nonneg (Int.natCast_nonneg n) (by omega), Int.toNat_natCast]
    exact setHeader_value hv n b

/-- What the branches of `Truncate` leave is what the whole leaves, but for the header. -/
theorem truncated_os (w : World) (i : ℕ) (n : ℤ) :
    (w.truncated i n).1.os = (w.truncateData i n).1.os := by
  unfold truncated
  dsimp only
  split <;> rfl

theorem truncated_ret (w : World) (i : ℕ) (n : ℤ) :
    (w.truncated i n).2 = (w.truncateData i n).2 := by
  unfold truncated
  rfl

/-- The record that `Truncate` leaves, by the data the branches left in it. -/
theorem truncated_value (hv : w.store.value i = r.value) {n : ℕ} (hn : n < 2 ^ 63)
    (hlt : r.size < 2 ^ 63) {d : Bytes} {b : UInt32}
    (hd : (w.truncateData i n).1.store.value i = (r.setInline d).value)
    (ht : (w.truncateData i n).1.threshold_ = w.threshold_)
    (hb : b = if w.threshold_ < n then 1 else 0) (hsame : n = r.size → r.header.has_blob = b) :
    (w.truncated i n).1.store.value i = (r.setData n b d).value := by
  have hsize : (r.setInline d).header.fstat.st_size = r.header.fstat.st_size := rfl
  have hres := resized_value hd hn hsize hlt hsame
  rw [truncated, iheader_of_value hv]
  dsimp only
  rw [ht, ← hb]
  exact hres

/-- The data of a disk file moves to a buffer of `n` bytes, and the file loses its name. -/
structure Buffered (w : World) (r : InodeRecord) (file : ℕ) (buf : Bytes) (w' : World)
    (data : Bytes) : Prop where
  data_eq : data = overlay buf 0 (slice (w.os.disk.content file) 0 buf.length)
  disk : w'.os.disk = w.os.disk.removeName r.path
  upTo : w.UpToData w'
  shortIo : w.os.shortIo = false

theorem migrateBuffer_full {file : ℕ} (hname : w.os.disk.names r.path = some file) {buf : Bytes}
    (hok : (w.migrateDiskFileToBuffer r.header.fstat.st_ino buf).1.os.shortIo = false) :
    w.Buffered r file buf (w.migrateDiskFileToBuffer r.header.fstat.st_ino buf).1
      (w.migrateDiskFileToBuffer r.header.fstat.st_ino buf).2 := by
  unfold migrateDiskFileToBuffer at hok ⊢
  dsimp only at hok ⊢
  rw [show getDiskFilePath r.header.fstat.st_ino = r.path from rfl] at hok ⊢
  have hou : w.UpToData (w.sysOpen r.path ⟨.rdOnly, false⟩ false).1 := upToData_sysOpen _ _ _ _
  have ho := w.sysOpen_cases r.path ⟨.rdOnly, false⟩ false
  generalize w.sysOpen r.path ⟨.rdOnly, false⟩ false = o at *
  have hru := o.1.upToData_sysPread o.2 buf.length 0
  have hr := o.1.sysPread_cases o.2 buf.length 0
  generalize o.1.sysPread o.2 buf.length 0 = rd at *
  have hcu := rd.1.upToData_sysClose o.2
  obtain ⟨hcd, hcs, _⟩ := rd.1.sysClose_data o.2
  generalize (rd.1.sysClose o.2).1 = wc at *
  have huu := wc.upToData_sysUnlink r.path
  obtain ⟨hud, _, hus, _⟩ := wc.sysUnlink_data r.path
  rw [hus, hcs] at hok
  rcases hr with ⟨_, hfail⟩ | hread
  · exact absurd hok hfail.not_full
  · have hoks := hread.shortIo hok
    rcases ho with ⟨_, hfail⟩ | ⟨file', hopen⟩
    · exact absurd hoks hfail.not_full
    · -- the descriptor just opened is on the file under the name
      have hnamed := hopen.named
      cases hnamed with
      | new hn => rw [hname] at hn; cases hn
      | old hn hd =>
          rw [hname] at hn
          obtain rfl := Option.some.inj hn
          obtain ⟨g, hg, _, _, hall⟩ := hread.open_file
          rw [hopen.fd_eq, fdEntry_natCast, hopen.fds, Function.update_self] at hg
          obtain rfl := Option.some.inj hg
          have hdisk : o.1.os.disk = w.os.disk := hd
          refine ⟨?_, ?_, ((hou.trans hru).trans hcu).trans huu, ?_⟩
          · rw [hall hok, hdisk, Int.toNat_zero]
          · rw [hud, hcd, hread.disk, hdisk]
            rfl
          · rw [← hopen.shortIo]
            exact hoks

section

variable {n : ℕ} (hv : w.store.value i = r.value) (hn : n < 2 ^ 63) (hlt : r.size < 2 ^ 63)
  (hok : (w.truncated i n).1.os.shortIo = false)
include hv hn hlt hok

/-- A blob stays one. -/
theorem truncated_large (hblob : r.header.has_blob = 1) (hinline : r.inline = [])
    (hname : w.os.disk.names r.path ≠ none) (hbig : w.threshold_ < n) :
    (w.truncated i n).2 = 0 ∧ ∃ r', w.Truncates i r n (w.truncated i n).1 r' := by
  obtain ⟨file, hfile⟩ := Option.ne_none_iff_exists'.mp hname
  have hos := w.truncated_os i n
  have hval := truncated_value (d := []) (b := 1) hv hn hlt
  have hret := w.truncated_ret i n
  have heq : w.truncateData i n = ((w.sysTruncate r.path n).1, 0) := by
    rw [truncateData, iheader_of_value hv]
    dsimp only
    rw [if_pos (by rw [hblob]; decide), if_pos hbig]
    rfl
  rw [heq] at hos hval hret
  generalize w.truncated i n = t at *
  rw [hos] at hok
  have hu := w.upToData_sysTruncate r.path n
  have hthr : (w.sysTruncate r.path n).1.threshold_ = w.threshold_ := hu.threshold
  rcases w.sysTruncate_cases r.path n with ⟨_, hfail⟩ | ⟨_, _, hfds, _, hs, file', hf', hd⟩
  · exact absurd hok hfail.not_full
  · rw [hfile] at hf'
    obtain rfl := Option.some.inj hf'
    rw [Int.toNat_natCast, Disk.apply_truncate] at hd
    have hnames : t.1.os.disk.names = w.os.disk.names := by rw [hos, hd]; rfl
    have hself : r.setInline [] = r := InodeRecord.ext_fields rfl rfl hinline.symm
    refine ⟨hret, r.setData n 1 [], ?_, ?_, ⟨?_, ⟨1, [], rfl⟩, ?_⟩, ?_, ?_⟩
    · rw [← hs]
      exact hok
    · refine hval ?_ hthr (by rw [if_pos hbig]) fun _ => hblob
      rw [hself, ← hv]
      exact hu.value i
    · refine .large ?_ ?_ rfl rfl ?_
      · rwa [InodeRecord.setData_size _ hn]
      · rwa [InodeRecord.setData_size _ hn]
      · rw [InodeRecord.setData_path, hnames]
        exact hname
    · intro p _
      rw [hnames]
    · intro g hg _
      refine hg.keep (by rw [InodeRecord.setData_path, hnames]) fun k _ => ?_
      rw [hos, hfds]
    · intro data hdata
      cases hdata with
      | small _ _ _ hblob' => rw [hblob] at hblob'; cases hblob'
      | large file' _ _ _ _ _ hfile' hcontent =>
          rw [hfile] at hfile'
          obtain rfl := Option.some.inj hfile'
          refine .large file ?_ ?_ ?_ rfl rfl ?_ ?_
          · rwa [length_resize]
          · rwa [length_resize]
          · rw [length_resize, InodeRecord.setData_size _ hn]
          · rw [InodeRecord.setData_path, hnames, hfile]
          · rw [hos, hd, Disk.setContent_content, hcontent]

/-- A blob's data becomes inline. -/
theorem truncated_buffer (hblob : r.header.has_blob = 1) (hinline : r.inline = [])
    (hname : w.os.disk.names r.path ≠ none) (hbig : w.threshold_ < r.size)
    (hle : n ≤ w.threshold_) :
    (w.truncated i n).2 = 0 ∧ ∃ r', w.Truncates i r n (w.truncated i n).1 r' := by
  obtain ⟨file, hfile⟩ := Option.ne_none_iff_exists'.mp hname
  have hos := w.truncated_os i n
  have hret := w.truncated_ret i n
  have heq : w.truncateData i n =
      let m := w.migrateDiskFileToBuffer r.header.fstat.st_ino (w.newBuffer n)
      (m.1.setValue i (updateInlineData (m.1.store.value i) m.2 0), 0) := by
    rw [truncateData, iheader_of_value hv]
    dsimp only
    rw [if_pos (by rw [hblob]; decide), if_neg (by omega), Int.toNat_natCast]
  have hm := @migrateBuffer_full w r file hfile (w.newBuffer n)
  generalize w.migrateDiskFileToBuffer r.header.fstat.st_ino (w.newBuffer n) = m at *
  dsimp only at heq
  have hval := truncated_value (d := m.2) (b := 0) hv hn hlt
  rw [heq] at hos hret hval
  generalize w.truncated i n = t at *
  have hmos : t.1.os = m.1.os := hos
  rw [hmos] at hok
  have hbuf := hm hok
  have hlen : (w.newBuffer n).length = n := by rw [newBuffer, List.length_map, List.length_range]
  have hdata := hbuf.data_eq
  rw [hlen] at hdata
  -- what is read is at most the size of the buffer
  have hslice : (slice (w.os.disk.content file) 0 n).length ≤ n := by
    rw [slice, List.length_take]
    exact Nat.min_le_left _ _
  have hmlen : m.2.length = n := by
    rw [hdata, length_overlay, hlen]
    omega
  have hnone : t.1.os.disk.names (r.setData n 0 m.2).path = none := by
    rw [InodeRecord.setData_path, hmos, hbuf.disk, Disk.removeName_names]
  refine ⟨hret, r.setData n 0 m.2, hbuf.shortIo, ?_, ⟨?_, ⟨0, m.2, rfl⟩, ?_⟩, ?_, ?_⟩
  · refine hval ?_ hbuf.upTo.threshold (by rw [if_neg (by omega)]) fun h => ?_
    · have hstart := r.dataStart_lt
      rw [setValue_value, hbuf.upTo.value, hv, r.updateInlineData_value _ _ (by omega), hinline,
        overlay_zero [] m.2 (Nat.zero_le _)]
    · omega
  · refine .small ?_ ?_ rfl ?_ hnone
    · rwa [InodeRecord.setData_size _ hn]
    · rwa [InodeRecord.setData_size _ hn]
    · rw [InodeRecord.setData_size _ hn]
      exact hmlen
  · intro p hp
    rw [hmos, hbuf.disk, Disk.removeName_names_of_ne _ hp]
  · intro g hg hneg
    exact hg.of_neg (hneg hbig hle)
  · intro data hdata'
    cases hdata' with
    | small _ _ _ hblob' => rw [hblob] at hblob'; cases hblob'
    | large file' _ _ hsize _ _ hfile' hcontent =>
        rw [hfile] at hfile'
        obtain rfl := Option.some.inj hfile'
        have hcut : m.2 = resize data n := by
          have htake : slice data 0 n = data.take n := by rw [slice, List.drop_zero]
          have hl : (data.take n).length = n := by
            rw [List.length_take]
            omega
          rw [hdata, hcontent, htake, overlay_zero, resize, Nat.sub_eq_zero_of_le (by omega),
            List.replicate_zero, List.append_nil]
          omega
        refine .small ?_ ?_ ?_ rfl hcut hnone
        · rwa [length_resize]
        · rwa [length_resize]
        · rw [length_resize, InodeRecord.setData_size _ hn]

/-- Inline data stays inline. -/
theorem truncated_small (hblob : r.header.has_blob = 0)
    (hname : w.os.disk.names r.path = none) (hle : n ≤ w.threshold_) :
    (w.truncated i n).2 = 0 ∧ ∃ r', w.Truncates i r n (w.truncated i n).1 r' := by
  have hos := w.truncated_os i n
  have hval := truncated_value (d := resize r.inline n) (b := 0) hv hn hlt
  have hret := w.truncated_ret i n
  have heq : w.truncateData i n = (w.setValue i (r.setInline (resize r.inline n)).value, 0) := by
    have hstart := r.dataStart_lt
    rw [truncateData, iheader_of_value hv]
    dsimp only
    rw [if_neg (by rw [hblob]; decide), if_neg (by omega), hv,
      sizeT_of_nonneg (Int.natCast_nonneg n) (by omega), Int.toNat_natCast,
      r.truncateInlineData_value n (by omega)]
  rw [heq] at hos hval hret
  generalize w.truncated i n = t at *
  have hos' : t.1.os = w.os := hos
  have hnone : t.1.os.disk.names (r.setData n 0 (resize r.inline n)).path = none := by
    rw [InodeRecord.setData_path, hos', hname]
  refine ⟨hret, r.setData n 0 (resize r.inline n), ?_, ?_,
    ⟨?_, ⟨0, resize r.inline n, rfl⟩, ?_⟩, ?_, ?_⟩
  · rw [← hos']
    exact hok
  · exact hval (setValue_value ..) rfl (by rw [if_neg (by omega)]) fun _ => hblob
  · refine .small ?_ ?_ rfl ?_ hnone
    · rwa [InodeRecord.setData_size _ hn]
    · rwa [InodeRecord.setData_size _ hn]
    · rw [InodeRecord.setData_size _ hn]
      exact length_resize _ _
  · intro p _
    rw [hos']
  · intro g hg _
    exact hg.of_neg (hg.neg hname)
  · intro data hdata
    cases hdata with
    | large file _ _ _ hblob' => rw [hblob] at hblob'; cases hblob'
    | small _ _ _ _ hinl =>
        subst hinl
        refine .small ?_ ?_ ?_ rfl rfl hnone
        · rwa [length_resize]
        · rwa [length_resize]
        · rw [length_resize, InodeRecord.setData_size _ hn]

/-- Inline data moves to a disk file. -/
theorem truncated_migrate (hblob : r.header.has_blob = 0) (hinline : r.inline.length = r.size)
    (hname : w.os.disk.names r.path = none) (hsize : r.size ≤ w.threshold_)
    (hbig : w.threshold_ < n) :
    (w.truncated i n).2 = 0 ∧ ∃ r', w.Truncates i r n (w.truncated i n).1 r' := by
  have hos := w.truncated_os i n
  have hval := truncated_value (d := []) (b := 1) hv hn hlt
  have hret := w.truncated_ret i n
  have heq : w.truncateData i n = w.truncateMigrate i n := by
    rw [truncateData, iheader_of_value hv]
    dsimp only
    rw [if_neg (by rw [hblob]; decide), if_pos hbig]
  rw [heq] at hos hval hret
  generalize w.truncated i n = t at *
  rw [hos] at hok
  unfold truncateMigrate at hos hval hret hok
  dsimp only at hos hval hret hok
  have hm := @migrate_full w i r hv hlt hinline hname w.env.junkInt ⟨.wrOnly, true⟩
  generalize w.migrateToDiskFile i w.env.junkInt ⟨.wrOnly, true⟩ = m at *
  have hftu := m.1.upToData_sysFtruncate m.2.2 n
  have hft := m.1.sysFtruncate_cases m.2.2 n
  generalize m.1.sysFtruncate m.2.2 n = ft at *
  -- `fsync` and `close` leave the data directory as it is
  obtain ⟨ws, hws⟩ : ∃ ws, (if ft.2 = 0 then (ft.1.sysFsync m.2.2).1 else ft.1) = ws := ⟨_, rfl⟩
  have hsync : ws.os.disk = ft.1.os.disk ∧ ws.os.shortIo = ft.1.os.shortIo ∧
      ft.1.UpToData ws := by
    rw [← hws]
    split
    · obtain ⟨hd, _, hs⟩ := ft.1.sysFsync_data m.2.2
      exact ⟨hd, hs, ft.1.upToData_sysFsync m.2.2⟩
    · exact ⟨rfl, rfl, UpToData.refl _⟩
  obtain ⟨hsd, hss, hsu⟩ := hsync
  rw [hws] at hos hval hret hok
  obtain ⟨hcd, hcs, _⟩ := ws.sysClose_data m.2.2
  have hcu := ws.upToData_sysClose m.2.2
  generalize (ws.sysClose m.2.2).1 = wc at *
  have hokm : m.1.os.shortIo = false := by
    split at hok
    · rcases hft with ⟨_, hfail⟩ | ⟨_, _, _, _, hs, _⟩
      · rw [hcs, hss] at hok
        exact absurd hok hfail.not_full
      · rw [← hs, ← hss, ← hcs]
        exact hok
    · exact hok
  obtain ⟨hmret, fd, hfd, hmig⟩ := hm hokm
  rw [if_pos hmret] at hos hval hret hok
  rcases hft with ⟨_, hfail⟩ | ⟨hfret, _, _, _, _, file, hfile, hfd'⟩
  · rw [hcs, hss] at hok
    exact absurd hok hfail.not_full
  · rw [hfd, fdEntry_natCast, hmig.fds, Function.update_self] at hfile
    obtain rfl := Option.some.inj hfile
    have hdisk : t.1.os.disk = w.os.disk.addFile r.path (resize r.inline n) := by
      rw [hos, hcd, hsd, hfd', hmig.disk, Int.toNat_natCast, Disk.apply_truncate,
        Disk.addFile_content, Disk.addFile_setContent]
    have hname' : t.1.os.disk.names (r.setData n 1 []).path = some w.os.disk.nextFile := by
      rw [InodeRecord.setData_path, hdisk, Disk.addFile_names]
    refine ⟨hret.trans hfret, r.setData n 1 [], hmig.shortIo, ?_, ⟨?_, ⟨1, [], rfl⟩, ?_⟩,
      ?_, ?_⟩
    · refine hval ?_ ?_ (by rw [if_pos hbig]) fun h => ?_
      · rw [hcu.value, hsu.value, hftu.value, hmig.value]
      · rw [hcu.threshold, hsu.threshold, hftu.threshold, hmig.upTo.threshold]
        rfl
      · omega
    · refine .large ?_ ?_ rfl rfl ?_
      · rwa [InodeRecord.setData_size _ hn]
      · rwa [InodeRecord.setData_size _ hn]
      · rw [hname']
        exact Option.some_ne_none _
    · intro p hp
      rw [hdisk, Disk.addFile_names_of_ne _ hp]
    · intro g hg _
      exact hg.of_neg (hg.neg hname)
    · intro data hdata
      cases hdata with
      | large file _ _ _ hblob' => rw [hblob] at hblob'; cases hblob'
      | small _ _ _ _ hinl =>
          subst hinl
          refine .large w.os.disk.nextFile ?_ ?_ ?_ rfl rfl hname' ?_
          · rwa [length_resize]
          · rwa [length_resize]
          · rw [length_resize, InodeRecord.setData_size _ hn]
          · rw [hdisk, Disk.addFile_content]

end

/-- `Truncate`, when every call on the data file does all that it is asked to. -/
theorem truncated_full (hv : w.store.value i = r.value) (hA : r.Agrees w.threshold_ w.os.disk)
    {n : ℕ} (hn : n < 2 ^ 63) (hok : (w.truncated i n).1.os.shortIo = false) :
    (w.truncated i n).2 = 0 ∧ ∃ r', w.Truncates i r n (w.truncated i n).1 r' := by
  cases hA with
  | small hle hlt hblob hinline hname =>
      by_cases hbig : w.threshold_ < n
      · exact truncated_migrate hv hn hlt hok hblob hinline hname hle hbig
      · exact truncated_small hv hn hlt hok hblob hname (by omega)
  | large hle hlt hblob hinline hname =>
      by_cases hbig : w.threshold_ < n
      · exact truncated_large hv hn hlt hok hblob hinline hname hbig
      · exact truncated_buffer hv hn hlt hok hblob hinline hname hle (by omega)

end World

end Tablefs
