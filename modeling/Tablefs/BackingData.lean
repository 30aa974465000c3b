/-
`Write` and `Truncate`, and where they leave a record's data.

Whatever is in the data directory, a `Write` or `Truncate` whose calls on the data file do all
that they are asked to leaves the size, the blob flag and the inline data of the record in
keeping with each other, and a disk file where it leaves the flag set (`written_backed`,
`truncated_backed`). `Write` takes no disk file away, and `Truncate` one only when the data
moves back to the record.
-/
import Tablefs.Backing
import Tablefs.FileCalls

set_option autoImplicit false

namespace Tablefs

open ByteString

namespace InodeRecord

variable {T : ℤ} {r : InodeRecord} {n : ℕ} {data : Bytes}

/-- A record of another size, with its data inline. -/
theorem sized_inline (hn : n < 2 ^ 63) (hle : n ≤ T) (hd : r.Regular → data.length = n) :
    (r.setData n 0 data).Sized T := by
  refine .small ?_ ?_ rfl fun hr => ?_
  · rwa [setData_size _ hn]
  · rwa [setData_size _ hn]
  · rw [setData_size _ hn]
    exact hd hr

/-- A record of another size, with its data in a disk file. -/
theorem sized_blob (hn : n < 2 ^ 63) (hlt : T < n) (hd : r.Regular → data = []) :
    (r.setData n 1 data).Sized T := by
  refine .large ?_ ?_ rfl hd
  · rwa [setData_size _ hn]
  · rwa [setData_size _ hn]

end InodeRecord

namespace World

/-! ## Nothing goes -/

variable {w w' : World} {i fh : ℕ} {f : FileHandle} {r : InodeRecord} {T : ℤ}

theorem grows_sysOpen (w : World) (path : BlobPath) (flags : OpenFlags) (creat : Bool) :
    w.Grows (w.sysOpen path flags creat).1 :=
  grows_ioClosed.sysOpen w path flags creat trivial fun _ => trivial

theorem grows_sysPread (w : World) (fd : ℤ) (size : ℕ) (offset : ℤ) :
    w.Grows (w.sysPread fd size offset).1 := grows_ioClosed.quiet.sysPread w fd size offset

theorem grows_sysPwrite (w : World) (fd : ℤ) (buf : Bytes) (offset : ℤ) :
    w.Grows (w.sysPwrite fd buf offset).1 :=
  grows_ioClosed.quiet.sysPwrite w fd buf offset fun _ _ _ => trivial

theorem grows_closed (w : World) (fd : ℤ) : w.Grows (w.closed fd) := by
  unfold closed
  split
  · exact grows_ioClosed.sysClose w fd
  · exact .refl w

theorem grows_setHeader (w : World) (i : ℕ) (h : InodeHeader) : w.Grows (w.setHeader i h) :=
  .of_eq rfl rfl

theorem grows_migrateToDiskFile (w : World) (i : ℕ) (fd : ℤ) (flags : OpenFlags) :
    w.Grows (w.migrateToDiskFile i fd flags).1 := by
  unfold migrateToDiskFile
  dsimp only
  rw [show (if 0 ≤ fd then (w.sysClose fd).1 else w) = w.closed fd from rfl]
  have ho := (w.grows_closed fd).trans
    ((w.closed fd).grows_sysOpen (getDiskFilePath (w.iheader i).fstat.st_ino) flags true)
  split
  · exact ho
  · split
    · exact ho.trans ((grows_sysPwrite _ _ _ _).trans (.of_eq rfl rfl))
    · exact ho

theorem grows_ensureFd (w : World) (fh : ℕ) (f : FileHandle) (h : InodeHeader) :
    w.Grows (w.ensureFd fh f h).1 := by
  unfold ensureFd
  split
  · exact (grows_sysOpen _ _ _ _).trans (.of_eq rfl rfl)
  · exact .refl w

theorem grows_writeData (w : World) (fh : ℕ) (f : FileHandle) (buf : Bytes) (offset : ℤ)
    (total : ℕ) : w.Grows (w.writeData fh f buf offset total).1 := by
  unfold writeData
  dsimp only
  split
  · unfold writeBlob
    dsimp only
    have he := w.grows_ensureFd fh f (w.iheader f.handle_)
    split
    · exact he
    · exact he.trans (grows_sysPwrite _ _ _ _)
  · split
    · unfold writeMigrate
      dsimp only
      have hm : w.Grows ((w.migrateToDiskFile f.handle_ f.fd_ f.flags_).1.setFd fh f
          (w.migrateToDiskFile f.handle_ f.fd_ f.flags_).2.2) :=
        (w.grows_migrateToDiskFile f.handle_ f.fd_ f.flags_).trans (.of_eq rfl rfl)
      split
      · exact hm.trans ((grows_setHeader _ _ _).trans (grows_sysPwrite _ _ _ _))
      · exact hm
    · exact .of_eq rfl rfl

theorem grows_grown (w : World) (i n : ℕ) (b : Bool) : w.Grows (w.grown i n b) := by
  unfold grown
  split
  · exact w.grows_setHeader i _
  · exact .refl w

theorem grows_truncateMigrate (w : World) (i : ℕ) (n : ℤ) :
    w.Grows (w.truncateMigrate i n).1 := by
  unfold truncateMigrate
  dsimp only
  have hm := w.grows_migrateToDiskFile i w.env.junkInt ⟨.wrOnly, true⟩
  have hq := grows_ioClosed.quiet
  split
  · refine hm.trans (Grows.trans ?_ (grows_ioClosed.sysClose _ _))
    have ht := hq.sysFtruncate (w.migrateToDiskFile i w.env.junkInt ⟨.wrOnly, true⟩).1
      (w.migrateToDiskFile i w.env.junkInt ⟨.wrOnly, true⟩).2.2 n fun _ _ => trivial
    split
    · exact ht.trans (hq.sysFsync _ _)
    · exact ht
  · exact hm

/-! ## The record's data moves to a disk file -/

/-- After `open` that did not fail, the name is there. -/
theorem Opened.name {fd : ℤ} {path : BlobPath} {flags : OpenFlags} {creat : Bool} {file : ℕ}
    (h : w.Opened w' fd path flags creat file) : w'.os.disk.names path ≠ none := by
  cases h.named with
  | old hn hd =>
      have hnames : w'.os.disk.names path = w.os.disk.names path := by
        rw [hd]
        split <;> rfl
      rw [hnames, hn]
      exact Option.some_ne_none _
  | new _ _ _ _ hd =>
      have hnames : w'.os.disk.names path = some w.os.disk.nextFile := by
        rw [hd]
        exact Function.update_self ..
      rw [hnames]
      exact Option.some_ne_none _

/-- What `MigrateToDiskFile` leaves when its calls do all that they are asked to. -/
structure ToDisk (w : World) (i : ℕ) (r : InodeRecord) (w' : World) : Prop where
  value : ∃ data, w'.store.value i = (r.setInline data).value ∧
    (r.inline.length = r.size → data = [])
  name : w'.os.disk.names r.path ≠ none

theorem migrate_moved (hv : w.store.value i = r.value) (hlt : r.size < 2 ^ 63) (fd : ℤ)
    (flags : OpenFlags) (hok : (w.migrateToDiskFile i fd flags).1.os.shortIo = false) :
    (w.migrateToDiskFile i fd flags).2.1 = 0 ∧
      w.ToDisk i r (w.migrateToDiskFile i fd flags).1 := by
  have hcu := w.closed_upToData fd
  unfold migrateToDiskFile at hok ⊢
  dsimp only at hok ⊢
  rw [iheader_of_value hv] at hok ⊢
  rw [show (if 0 ≤ fd then (w.sysClose fd).1 else w) = w.closed fd from rfl] at hok ⊢
  generalize w.closed fd = wc at *
  have hou : wc.UpToData (wc.openDiskFile r.header flags).1 := upToData_sysOpen _ _ _ _
  rw [show wc.openDiskFile r.header flags = wc.sysOpen r.path flags true from rfl] at hok hou ⊢
  rcases wc.sysOpen_cases r.path flags true with ⟨hret, hfail⟩ | ⟨file, ho⟩
  · rw [if_pos (by rw [hret]; decide)] at hok
    exact absurd hok hfail.not_full
  · have hname := ho.name
    have hpos : ¬ (wc.sysOpen r.path flags true).2 < 0 := by
      rw [ho.fd_eq]
      omega
    generalize wc.sysOpen r.path flags true = o at *
    have hvo : o.1.store.value i = r.value := by rw [hou.value, hcu.value, hv]
    rw [if_neg hpos] at hok ⊢
    rw [offT_ofNat hlt] at hok ⊢
    split at hok
    · rename_i hsize
      rw [if_pos hsize]
      -- what is written is as long as the size says
      obtain ⟨buf, hbuf⟩ : ∃ buf, resize ((o.1.store.value i).drop
          (TFS_INODE_HEADER_SIZE + r.header.namelen.toNat + 1)) r.header.fstat.st_size.toNat
          = buf := ⟨_, rfl⟩
      have hlen : buf.length = r.header.fstat.st_size.toNat := by
        rw [← hbuf]
        exact length_resize _ _
      rw [hbuf] at hok ⊢
      have hpu := o.1.upToData_sysPwrite o.2 buf 0
      have hpg := (o.1.grows_sysPwrite o.2 buf 0).names.2
      rcases o.1.sysPwrite_cases o.2 buf 0 with ⟨_, hfail⟩ | ⟨n, hret, hw⟩
      · exact absurd hok hfail.not_full
      · generalize o.1.sysPwrite o.2 buf 0 = p at *
        obtain ⟨hn, -⟩ := hw.full hok
        refine ⟨?_, ⟨[], ?_, fun _ => rfl⟩, hpg _ hname⟩
        · rw [if_neg]
          rw [hret, hn, hlen]
          exact not_not.mpr rfl
        · rw [setValue_value, hpu.value, hvo, r.dropInlineData_value]
    · rename_i hsize
      rw [if_neg hsize]
      refine ⟨rfl, ⟨r.inline, hvo, fun h => ?_⟩, hname⟩
      have hzero : r.size = 0 := by
        show r.header.fstat.st_size.toNat = 0
        omega
      exact List.eq_nil_of_length_eq_zero (h.trans hzero)

/-! ## `Write` -/

/-- A record has its data where it says, and `w'` comes from `w` by giving it to the handle. -/
structure Puts (T : ℤ) (w : World) (i : ℕ) (r : InodeRecord) (w' : World) : Prop where
  cache : w'.store.cache = (w.store.setValue i r.value).cache
  threshold : w'.threshold_ = w.threshold_
  sized : r.Sized T
  hasFile : r.HasFile w'.os.disk

/-- `Write` gives the handle one more value. -/
theorem WritesTo.cache {P : Prop} (h : w.WritesTo P fh f w') :
    w'.store.cache = (w.store.setValue f.handle_ (w'.store.value f.handle_)).cache ∧
      w'.threshold_ = w.threshold_ := by
  obtain ⟨fd, v, _, hu⟩ := h
  have hv : w'.store.value f.handle_ = v := by
    rw [hu.value]
    exact setValue_value w f.handle_ v
  refine ⟨?_, hu.threshold⟩
  rw [hv]
  exact hu.cache

theorem written_writesTo (hf : w.files fh = some f) (size : ℕ) (buf : Bytes) (offset : ℤ)
    (total : ℕ) :
    w.WritesTo (0 ≤ offset ∧ offset < 2 ^ 63) fh f (w.written fh f size buf offset total).1 := by
  have hd := writeData_writesTo hf buf offset total
  unfold written grown
  dsimp only
  split
  · exact hd.trans_editsTo (editsTo_setValue fun _ => Edited.withSize _ _)
  · exact hd

theorem grows_written (w : World) (fh : ℕ) (f : FileHandle) (size : ℕ) (buf : Bytes) (offset : ℤ)
    (total : ℕ) : w.Grows (w.written fh f size buf offset total).1 :=
  (w.grows_writeData fh f buf offset total).trans (grows_grown _ _ _ _)

section

variable {buf : Bytes} {offset : ℤ} (hv : w.store.value f.handle_ = r.value)
  (hT : 0 ≤ w.threshold_ ∧ w.threshold_ < 2 ^ 31) (hoff : 0 ≤ offset)
  (hlen : offset + buf.length < 2 ^ 63)
include hv hoff hlen

/-- The data stays where it is. -/
theorem written_blob_sized (fh : ℕ) (hlt : r.size < 2 ^ 63) (hblob : r.header.has_blob = 1)
    (hinline : r.Regular → r.inline = []) (hbig : w.threshold_ < r.size) :
    ∃ r' : InodeRecord, (w.written fh f r.size buf offset
        (offset.toNat + buf.length)).1.store.value f.handle_ = r'.value ∧
      r'.Sized w.threshold_ ∧ (∀ p, r'.PointsTo p → r.PointsTo p) := by
  have hu : w.store.value f.handle_ = (w.writeData fh f buf offset
      (offset.toNat + buf.length)).1.store.value f.handle_ := by
    rw [writeData_large hv hblob]
    dsimp only
    unfold writeBlob
    dsimp only
    have he : w.store.value f.handle_ = (w.ensureFd fh f r.header).1.store.value f.handle_ := by
      unfold ensureFd
      split
      · exact ((w.upToData_sysOpen (getDiskFilePath r.header.fstat.st_ino) f.flags_
          true).value f.handle_).symm
      · rfl
    split
    · exact he
    · rw [he]
      exact ((upToData_sysPwrite _ _ _ _).value _).symm
  unfold written grown
  dsimp only
  split
  · rename_i hgrow
    rw [Bool.and_eq_true, Bool.and_eq_true, decide_eq_true_iff, decide_eq_true_iff] at hgrow
    have hsize := hgrow.2.1
    refine ⟨r.setData (offset.toNat + buf.length) 1 r.inline, ?_, ?_, ?_⟩
    · rw [setHeader_withSize_value (hu.symm.trans hv), hblob]
    · exact InodeRecord.sized_blob (by omega) (by omega) hinline
    · exact fun p hp => ⟨hp.1, hblob, hp.2.2⟩
  · exact ⟨r, hu.symm.trans hv, .large hbig hlt hblob hinline, fun p hp => hp⟩

include hT

/-- The data stays inline. -/
theorem written_inline_sized (fh : ℕ) (hblob : r.header.has_blob = 0)
    (hinline : r.Regular → r.inline.length = r.size) (hsmall : r.size ≤ w.threshold_)
    (hle : ((offset.toNat + buf.length : ℕ) : ℤ) ≤ w.threshold_) :
    ∃ r' : InodeRecord, (w.written fh f r.size buf offset
        (offset.toNat + buf.length)).1.store.value f.handle_ = r'.value ∧
      r'.Sized w.threshold_ ∧ r'.header.has_blob = 0 := by
  have hthr : sizeT w.threshold_ = w.threshold_.toNat := sizeT_of_nonneg hT.1 (by omega)
  have hret : cInt buf.length = buf.length := cInt_of_lt (by omega)
  have hd : w.writeData fh f buf offset (offset.toNat + buf.length) = _ :=
    writeData_small hv rfl hblob hoff (by omega) (by omega)
  unfold written
  rw [hd]
  dsimp only
  rw [hret, Bool.not_false, Bool.and_true, decide_eq_true (Int.natCast_nonneg buf.length),
    Bool.true_and]
  refine ⟨_, grown_value (r := r.setInline (overlay r.inline offset.toNat buf))
    (setValue_value ..) rfl, ?_, hblob⟩
  rw [show (r.setInline (overlay r.inline offset.toNat buf)).header.has_blob = 0 from hblob]
  refine InodeRecord.sized_inline (max_lt (by show r.size < 2 ^ 63; omega) (by omega)) ?_ fun hr => ?_
  · rw [Nat.cast_max]
    exact max_le hsmall hle
  · show (overlay r.inline offset.toNat buf).length = _
    rw [length_overlay, hinline hr]
    rfl

/-- The data moves to a disk file. -/
theorem written_migrate_sized (hlt : r.size < 2 ^ 63) (hblob : r.header.has_blob = 0)
    (hinline : r.Regular → r.inline.length = r.size)
    (hbig : w.threshold_ < (offset.toNat + buf.length : ℕ))
    (hok : (w.written fh f r.size buf offset
      (offset.toNat + buf.length)).1.os.shortIo = false) :
    ∃ r' : InodeRecord, (w.written fh f r.size buf offset
        (offset.toNat + buf.length)).1.store.value f.handle_ = r'.value ∧
      r'.Sized w.threshold_ ∧ r'.path = r.path ∧ (w.written fh f r.size buf offset
        (offset.toNat + buf.length)).1.os.disk.names r.path ≠ none := by
  have hthr : sizeT w.threshold_ = w.threshold_.toNat := sizeT_of_nonneg hT.1 (by omega)
  have hd : w.writeData fh f buf offset (offset.toNat + buf.length) = _ :=
    writeData_migrate hv hblob (by omega)
  unfold written at hok ⊢
  rw [hd] at hok ⊢
  dsimp only at hok ⊢
  rw [grown_os] at hok
  rw [grown_os]
  unfold writeMigrate at hok ⊢
  dsimp only at hok ⊢
  have hm := migrate_moved hv hlt f.fd_ f.flags_
  generalize w.migrateToDiskFile f.handle_ f.fd_ f.flags_ = m at *
  by_cases hret : m.2.1 = 0
  · rw [if_pos hret] at hok ⊢
    dsimp only at hok ⊢
    obtain ⟨wh, hwh⟩ : ∃ wh, (m.1.setFd fh f m.2.2).setHeader f.handle_
        (((m.1.setFd fh f m.2.2).iheader f.handle_).withSizeBlob
          (.ofNat (offset.toNat + buf.length)) 1) = wh := ⟨_, rfl⟩
    have hos : wh.os = m.1.os := by
      rw [← hwh]
      rfl
    rw [hwh] at hok ⊢
    have hpu := wh.upToData_sysPwrite m.2.2 buf offset
    have hpg := (wh.grows_sysPwrite m.2.2 buf offset).names.2
    rcases wh.sysPwrite_cases m.2.2 buf offset with ⟨_, hfail⟩ | ⟨n, _, hw⟩
    · exact absurd hok hfail.not_full
    · have hokm := (hw.full hok).2
      rw [hos] at hokm
      obtain ⟨-, ⟨data, hval, hdata⟩, hname⟩ := hm hokm
      have hvm : (m.1.setFd fh f m.2.2).store.value f.handle_ = (r.setInline data).value := hval
      have hvh := setHeader_value hvm (offset.toNat + buf.length) 1
      rw [hwh] at hvh
      refine ⟨r.setData (offset.toNat + buf.length) 1 data, ?_, ?_, rfl, hpg _ ?_⟩
      · rw [Bool.not_true, Bool.and_false, Bool.and_false]
        exact (hpu.value _).trans hvh
      · exact InodeRecord.sized_blob (by omega) hbig fun hr => hdata (hinline hr)
      · rw [hos]
        exact hname
  · rw [if_neg hret] at hok
    exact absurd (hm hok).1 hret

end

/-- `Write` keeps size, blob flag and inline data together, and a disk file where it says. -/
theorem written_puts (hf : w.files fh = some f) (hv : w.store.value f.handle_ = r.value)
    (hT : 0 ≤ w.threshold_ ∧ w.threshold_ < 2 ^ 31) (hs : r.Sized w.threshold_)
    (hr : r.HasFile w.os.disk) {buf : Bytes} {offset : ℤ} (hoff : 0 ≤ offset)
    (hlen : offset + buf.length < 2 ^ 63)
    (hok : (w.written fh f r.size buf offset
      (offset.toNat + buf.length)).1.os.shortIo = false) :
    ∃ r', Puts w.threshold_ w f.handle_ r' (w.written fh f r.size buf offset
      (offset.toNat + buf.length)).1 := by
  obtain ⟨hc, ht⟩ := (written_writesTo hf r.size buf offset (offset.toNat + buf.length)).cache
  have hn := (w.grows_written fh f r.size buf offset (offset.toNat + buf.length)).names.2
  suffices h : ∃ r' : InodeRecord, (w.written fh f r.size buf offset
      (offset.toNat + buf.length)).1.store.value f.handle_ = r'.value ∧
      r'.Sized w.threshold_ ∧ r'.HasFile (w.written fh f r.size buf offset
        (offset.toNat + buf.length)).1.os.disk by
    obtain ⟨r', hval, hsz, hfile⟩ := h
    rw [hval] at hc
    exact ⟨r', hc, ht, hsz, hfile⟩
  cases hs with
  | large hbig hlt hblob hinline =>
      obtain ⟨r', hval, hsz, hp⟩ := written_blob_sized hv hoff hlen fh hlt hblob hinline hbig
      exact ⟨r', hval, hsz, (hr.congr hp).mono hn⟩
  | small hsmall hlt hblob hinline =>
      by_cases hbig : w.threshold_ < (offset.toNat + buf.length : ℕ)
      · obtain ⟨r', hval, hsz, hpath, hname⟩ :=
          written_migrate_sized hv hT hoff hlen hlt hblob hinline hbig hok
        refine ⟨r', hval, hsz, InodeRecord.hasFile_of_name ?_⟩
        rw [hpath]
        exact hname
      · obtain ⟨r', hval, hsz, hb⟩ := written_inline_sized hv hT hoff hlen fh hblob
          hinline hsmall (by omega)
        exact ⟨r', hval, hsz, InodeRecord.hasFile_of_inline hb⟩

/-! ## `Truncate` -/

/-- `Truncate` gives the handle one more value. -/
theorem EditsTo.cache {P : Prop} (h : w.EditsTo P i w') :
    w'.store.cache = (w.store.setValue i (w'.store.value i)).cache ∧
      w'.threshold_ = w.threshold_ := by
  obtain ⟨v, _, hu⟩ := h
  have hv : w'.store.value i = v := by rw [hu.value, setValue_value]
  refine ⟨?_, hu.threshold⟩
  rw [hv]
  exact hu.cache

theorem grows_truncated {n : ℤ} (h : w.Grows (w.truncateData i n).1) :
    w.Grows (w.truncated i n).1 := by
  unfold truncated
  dsimp only
  split
  · exact h.trans (grows_setHeader _ _ _)
  · exact h

section

variable {n : ℕ} (hv : w.store.value i = r.value) (hn : n < 2 ^ 63)
include hv hn

/-- A blob stays one. -/
theorem truncated_blob_puts (hlt : r.size < 2 ^ 63) (hblob : r.header.has_blob = 1)
    (hinline : r.Regular → r.inline = []) (hr : r.HasFile w.os.disk) (hbig : w.threshold_ < n) :
    w.Grows (w.truncated i n).1 ∧ ∃ r', Puts w.threshold_ w i r' (w.truncated i n).1 := by
  obtain ⟨hc, ht⟩ := (w.truncated_editsTo i n).cache
  have hdata : w.truncateData i n = ((w.sysTruncate r.path n).1, 0) := by
    rw [truncateData, iheader_of_value hv]
    dsimp only
    rw [if_pos (by rw [hblob]; decide), if_pos hbig]
    rfl
  have hval := truncated_value (d := r.inline) (b := 1) hv hn hlt
  have hg : w.Grows (w.truncateData i n).1 := by
    rw [hdata]
    exact grows_ioClosed.quiet.sysTruncate w r.path n fun _ _ => trivial
  have hgt := grows_truncated hg
  rw [hdata] at hval
  have hu := w.upToData_sysTruncate r.path n
  have hself : r.setInline r.inline = r := InodeRecord.ext_fields rfl rfl rfl
  have hvt := hval (by rw [hself, ← hv]; exact hu.value i) hu.threshold (by rw [if_pos hbig])
    fun _ => hblob
  rw [hvt] at hc
  have hfile : (r.setData n 1 r.inline).HasFile w.os.disk :=
    hr.congr fun p hp => ⟨hp.1, hblob, hp.2.2⟩
  exact ⟨hgt, r.setData n 1 r.inline, hc, ht, InodeRecord.sized_blob hn hbig hinline,
    hfile.mono hgt.names.2⟩

/-- The data stays inline. -/
theorem truncated_inline_puts (hlt : r.size < 2 ^ 63) (hblob : r.header.has_blob = 0)
    (hle : n ≤ w.threshold_) :
    w.Grows (w.truncated i n).1 ∧ ∃ r', Puts w.threshold_ w i r' (w.truncated i n).1 := by
  obtain ⟨hc, ht⟩ := (w.truncated_editsTo i n).cache
  have hdata : w.truncateData i n = (w.setValue i (r.setInline (resize r.inline n)).value, 0) := by
    have hstart := r.dataStart_lt
    rw [truncateData, iheader_of_value hv]
    dsimp only
    rw [if_neg (by rw [hblob]; decide), if_neg (by omega), hv,
      sizeT_of_nonneg (Int.natCast_nonneg n) (by omega), Int.toNat_natCast,
      r.truncateInlineData_value n (by omega)]
  have hval := truncated_value (d := resize r.inline n) (b := 0) hv hn hlt
  have hg : w.Grows (w.truncateData i n).1 := by
    rw [hdata]
    exact .of_eq rfl rfl
  rw [hdata] at hval
  have hvt := hval (setValue_value ..) rfl (by rw [if_neg (by omega)]) fun _ => hblob
  rw [hvt] at hc
  exact ⟨grows_truncated hg, r.setData n 0 (resize r.inline n), hc, ht,
    InodeRecord.sized_inline hn hle fun _ => length_resize _ _, InodeRecord.hasFile_of_inline rfl⟩

/-- The data moves to a disk file. -/
theorem truncated_migrate_puts (hlt : r.size < 2 ^ 63) (hblob : r.header.has_blob = 0)
    (hinline : r.Regular → r.inline.length = r.size) (hsmall : r.size ≤ w.threshold_)
    (hbig : w.threshold_ < n) (hok : (w.truncated i n).1.os.shortIo = false) :
    w.Grows (w.truncated i n).1 ∧ ∃ r', Puts w.threshold_ w i r' (w.truncated i n).1 := by
  obtain ⟨hc, ht⟩ := (w.truncated_editsTo i n).cache
  have hdata : w.truncateData i n = w.truncateMigrate i n := by
    rw [truncateData, iheader_of_value hv]
    dsimp only
    rw [if_neg (by rw [hblob]; decide), if_pos hbig]
  have hg : w.Grows (w.truncateData i n).1 := by
    rw [hdata]
    exact w.grows_truncateMigrate i n
  have hgt := grows_truncated hg
  -- whatever comes after it, `MigrateToDiskFile` has done all that it was asked to
  have hmoved : w.ToDisk i r (w.truncateMigrate i n).1 := by
    rw [truncated_os, hdata] at hok
    unfold truncateMigrate at hok ⊢
    dsimp only at hok ⊢
    have hm := migrate_moved hv hlt w.env.junkInt ⟨.wrOnly, true⟩
    generalize w.migrateToDiskFile i w.env.junkInt ⟨.wrOnly, true⟩ = m at *
    by_cases hret : m.2.1 = 0
    · rw [if_pos hret] at hok ⊢
      dsimp only at hok ⊢
      have hq := grows_ioClosed.quiet
      have hfg := hq.sysFtruncate m.1 m.2.2 n fun _ _ => trivial
      have hfu := m.1.upToData_sysFtruncate m.2.2 n
      have hft := m.1.sysFtruncate_cases m.2.2 n
      generalize m.1.sysFtruncate m.2.2 n = ft at *
      obtain ⟨ws, hws⟩ : ∃ ws, (if ft.2 = 0 then (ft.1.sysFsync m.2.2).1 else ft.1) = ws :=
        ⟨_, rfl⟩
      have hsync : ft.1.Grows ws ∧ ws.os.shortIo = ft.1.os.shortIo ∧ ft.1.UpToData ws := by
        rw [← hws]
        split
        · exact ⟨hq.sysFsync _ _, (ft.1.sysFsync_data m.2.2).2.2, ft.1.upToData_sysFsync m.2.2⟩
        · exact ⟨.refl _, rfl, UpToData.refl _⟩
      rw [hws] at hok ⊢
      have hcs := (ws.sysClose_data m.2.2).2.1
      have hcg := grows_ioClosed.sysClose ws m.2.2
      have hcu := ws.upToData_sysClose m.2.2
      have hokm : m.1.os.shortIo = false := by
        rw [hcs, hsync.2.1] at hok
        rcases hft with ⟨_, hfail⟩ | ⟨_, _, _, _, hs, _⟩
        · exact absurd hok hfail.not_full
        · rw [← hs]
          exact hok
      obtain ⟨-, ⟨data, hval, hnil⟩, hname⟩ := hm hokm
      refine ⟨⟨data, ?_, hnil⟩, ((hfg.trans hsync.1).trans hcg).names.2 _ hname⟩
      rw [hcu.value, hsync.2.2.value, hfu.value, hval]
    · rw [if_neg hret] at hok
      exact absurd (hm hok).1 hret
  obtain ⟨⟨data, hval, hnil⟩, hname⟩ := hmoved
  have hthr := (truncateData_editsTo w i n).cache.2
  rw [← hdata] at hval
  have hvt := truncated_value (d := data) (b := 1) hv hn hlt hval hthr (by rw [if_pos hbig])
    fun h => by omega
  rw [hvt] at hc
  refine ⟨hgt, r.setData n 1 data, hc, ht,
    InodeRecord.sized_blob hn hbig fun hr => hnil (hinline hr), InodeRecord.hasFile_of_name ?_⟩
  rw [truncated_os, hdata]
  exact hname

/-- A `Truncate` that does not move data back to the record. -/
theorem truncated_puts (hs : r.Sized w.threshold_) (hr : r.HasFile w.os.disk)
    (hstay : r.header.has_blob = 1 → w.threshold_ < n)
    (hok : (w.truncated i n).1.os.shortIo = false) :
    w.Grows (w.truncated i n).1 ∧ ∃ r', Puts w.threshold_ w i r' (w.truncated i n).1 := by
  cases hs with
  | large hbig hlt hblob hinline =>
      exact truncated_blob_puts hv hn hlt hblob hinline hr (hstay hblob)
  | small hsmall hlt hblob hinline =>
      by_cases hbig : w.threshold_ < n
      · exact truncated_migrate_puts hv hn hlt hblob hinline hsmall hbig hok
      · exact truncated_inline_puts hv hn hlt hblob (by omega)

/-- A `Truncate` that moves the data back takes the disk file away before the record has the
data. -/
theorem truncated_takes (hs : r.Sized w.threshold_) (hblob : r.header.has_blob = 1)
    (hle : n ≤ w.threshold_) :
    ∃ w₁, w.Grows w₁ ∧ (w₁.sysUnlink r.path).Grows (w.truncated i n).1 ∧
      (w.truncated i n).1.threshold_ = w.threshold_ ∧ ∃ r' : InodeRecord,
        (w.truncated i n).1.store.cache = (w.store.setValue i r'.value).cache ∧
        r'.Sized w.threshold_ ∧ r'.header.has_blob = 0 := by
  obtain ⟨hc, ht⟩ := (w.truncated_editsTo i n).cache
  have hdata : w.truncateData i n =
      let m := w.migrateDiskFileToBuffer r.header.fstat.st_ino (w.newBuffer n)
      (m.1.setValue i (updateInlineData (m.1.store.value i) m.2 0), 0) := by
    rw [truncateData, iheader_of_value hv]
    dsimp only
    rw [if_pos (by rw [hblob]; decide), if_neg (by omega), Int.toNat_natCast]
  cases hs with
  | small _ _ hblob' => rw [hblob'] at hblob; cases hblob
  | large hbig hlt _ hinline =>
      have hval := truncated_value (d := (overlay r.inline 0 (w.migrateDiskFileToBuffer
        r.header.fstat.st_ino (w.newBuffer n)).2)) (b := 0) hv hn hlt
      have hu := w.migrateDiskFileToBuffer_upToData r.header.fstat.st_ino (w.newBuffer n)
      have hstart := r.dataStart_lt
      rw [hdata] at hval
      have hvt := hval (by
        rw [setValue_value, hu.value, hv, r.updateInlineData_value _ _ (by omega)]) hu.threshold
        (by rw [if_neg (by omega)]) fun h => by omega
      rw [hvt] at hc
      -- what is read is at most the size of the buffer
      have hbuf : (w.newBuffer n).length = n := by
        rw [newBuffer, List.length_map, List.length_range]
      have ho := w.grows_sysOpen r.path ⟨.rdOnly, false⟩ false
      have hmd : w.migrateDiskFileToBuffer r.header.fstat.st_ino (w.newBuffer n) =
          let o := w.sysOpen r.path ⟨.rdOnly, false⟩ false
          let p := o.1.sysPread o.2 (w.newBuffer n).length 0
          ((p.1.sysClose o.2).1.sysUnlink r.path, overlay (w.newBuffer n) 0 p.2.2) := rfl
      dsimp only at hmd
      have hp := (w.sysOpen r.path ⟨.rdOnly, false⟩ false).1.grows_sysPread
        (w.sysOpen r.path ⟨.rdOnly, false⟩ false).2 (w.newBuffer n).length 0
      have hpd := (w.sysOpen r.path ⟨.rdOnly, false⟩ false).1.sysPread_cases
        (w.sysOpen r.path ⟨.rdOnly, false⟩ false).2 (w.newBuffer n).length 0
      generalize w.sysOpen r.path ⟨.rdOnly, false⟩ false = o at *
      generalize o.1.sysPread o.2 (w.newBuffer n).length 0 = p at *
      have hread : p.2.2.length ≤ n := by
        rcases hpd with ⟨hret, _⟩ | hread
        · rw [hret]
          exact Nat.zero_le _
        · obtain ⟨g, _, _, hprefix, _⟩ := hread.open_file
          refine hprefix.length_le.trans ?_
          rw [slice, List.length_take, hbuf]
          exact Nat.min_le_left _ _
      have hlen : (w.migrateDiskFileToBuffer r.header.fstat.st_ino (w.newBuffer n)).2.length
          = n := by
        rw [hmd, length_overlay, hbuf, Nat.zero_add]
        exact Nat.max_eq_left hread
      refine ⟨(p.1.sysClose o.2).1, (ho.trans hp).trans (grows_ioClosed.sysClose _ _), ?_, ht,
        _, hc, InodeRecord.sized_inline hn hle fun hr => ?_, rfl⟩
      · unfold truncated
        rw [hdata, hmd]
        dsimp only
        generalize (p.1.sysClose o.2).1.sysUnlink r.path = wu
        split
        · exact .of_eq rfl rfl
        · exact .of_eq rfl rfl
      · rw [hinline hr, length_overlay, hlen, Nat.zero_add]
        exact Nat.max_eq_right (Nat.zero_le _)

end

end World

end Tablefs
