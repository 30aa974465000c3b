/-
The blob flag.

`Write`, `Read` and `Open` look at `has_blob`, `Unlink` at `st_size`, and the two are set
by different statements. They agree with each other, with the inline data and with the
data directory through every sequence of calls on a file, wherever it is in relation to
the threshold (`blob_flag_iff`) - given that `MakeNode` takes a number under which the data
directory has no file. After a crash it can take one again that has a file
(`blob_flag_wrong`).
-/
import Tablefs.FileCalls
import Tablefs.InodeNumbers

set_option autoImplicit false

namespace Tablefs

open ByteString

/-! ## The property -/

/-- Blob flag, size, inline data and disk file of a record agree. -/
structure InodeRecord.Consistent (T : ℤ) (d : Disk) (r : InodeRecord) : Prop where
  flag : r.header.has_blob = 0 ∨ r.header.has_blob = 1
  blob : r.header.has_blob = 1 ↔ T < r.size
  inline : r.header.has_blob = 0 → r.inline.length = r.size
  dropped : r.header.has_blob = 1 → r.inline = []
  file : d.names r.path ≠ none ↔ r.header.has_blob = 1

theorem InodeRecord.Agrees.consistent {T : ℤ} {d : Disk} {r : InodeRecord} (h : r.Agrees T d) :
    r.Consistent T d := by
  have hne : (0 : UInt32) ≠ 1 := by decide
  cases h with
  | small hsize hlt hblob hinline hname =>
      refine ⟨Or.inl hblob, ?_, fun _ => hinline, ?_, ?_⟩
      · rw [hblob]
        exact ⟨fun h => absurd h hne, fun h => by omega⟩
      · rw [hblob]
        exact fun h => absurd h hne
      · rw [hblob]
        exact ⟨fun h => absurd hname h, fun h => absurd h hne⟩
  | large hsize hlt hblob hinline hname =>
      refine ⟨Or.inr hblob, ⟨fun _ => hsize, fun _ => hblob⟩, ?_, fun _ => hinline,
        ⟨fun _ => hblob, fun _ => hname⟩⟩
      rw [hblob]
      exact fun h => absurd h.symm hne

/-- The agreement is about size, flag, inline data and the name of the disk file. -/
theorem InodeRecord.Agrees.congr {T : ℤ} {d d' : Disk} {r r' : InodeRecord} (h : r.Agrees T d)
    (hsize : r'.size = r.size) (hblob : r'.header.has_blob = r.header.has_blob)
    (hinline : r'.inline = r.inline) (hname : d'.names r'.path = d.names r.path) :
    r'.Agrees T d' := by
  cases h with
  | small h1 h2 h3 h4 h5 =>
      refine .small ?_ ?_ (hblob.trans h3) ?_ (hname.trans h5)
      · rwa [hsize]
      · rwa [hsize]
      · rw [hinline, h4, hsize]
  | large h1 h2 h3 h4 h5 =>
      refine .large ?_ ?_ (hblob.trans h3) (hinline.trans h4) ?_
      · rwa [hsize]
      · rwa [hsize]
      · rwa [hname]

namespace World

open Store

variable {w : World} {key : MetaKey} {path : Bytes}

/-- The file under `key` is consistent, as `Get` would find it. -/
def Consistent (w : World) (key : MetaKey) : Prop :=
  ∃ r : InodeRecord, w.store.lookup key = some r.value ∧ r.Consistent w.threshold_ w.os.disk

/-! ## Calls on one file -/

/-- The handle `fh` is on the cached record under `key`. -/
def OnRecord (w : World) (key : MetaKey) (fh : ℕ) : Prop :=
  ∃ f ∈ w.files fh, w.store.Entry key f.handle_

/-- A call on the file under `key`: through a path that leads there, or through a handle
on its cached record. Evictions and changes of the surroundings may come in between. -/
def OnFile (key : MetaKey) (w : World) : Op → Prop
  | .getAttr path | .openFile path _ | .chmod path _ | .chown path _ _
  | .updateTimens path _ _ => (w.pathLookup path).2 = some key
  | .read fh size offset => size < 2 ^ 63 ∧ 0 ≤ offset ∧ offset < 2 ^ 63 ∧ w.OnRecord key fh
  | .write fh buf offset =>
      buf ≠ [] ∧ 0 ≤ offset ∧ offset + buf.length < 2 ^ 63 ∧ w.OnRecord key fh
  | .release fh => w.OnRecord key fh
  | .truncate path n => 0 ≤ n ∧ n < 2 ^ 63 ∧ (w.pathLookup path).2 = some key
  | .evict _ | .setEnv _ => True
  | .setFaults dbFaults _ => dbFaults = []
  | _ => False

/-- The state, with no failed or short call on a data file on record. -/
def forgetIo (w : World) : World := { w with os := { w.os with shortIo := false } }

theorem forgetIo_store (w : World) : w.forgetIo.store = w.store := rfl
theorem forgetIo_disk (w : World) : w.forgetIo.os.disk = w.os.disk := rfl

/-- Every call on a data file has done all that it was asked to. -/
def FullIo (w : World) (op : Op) : Prop := (w.next op).os.shortIo = false

instance instDecidableFullIo (w : World) (op : Op) : Decidable (w.FullIo op) :=
  inferInstanceAs (Decidable (_ = _))

/-! ## One call -/

/-- The file under `key` has its data where its size says. -/
structure Kept (w : World) (key : MetaKey) : Prop where
  dbFaults : w.store.dbFaults = []
  threshold : 0 ≤ w.threshold_ ∧ w.threshold_ < 2 ^ 31
  file : ∃ r : InodeRecord, w.store.Current key r.value ∧ r.Agrees w.threshold_ w.os.disk

theorem Kept.consistent (h : w.Kept key) : w.Consistent key := by
  obtain ⟨r, hc, hA⟩ := h.file
  exact ⟨r, hc.lookup, hA.consistent⟩

theorem OnFile.storeWorks {op : Op} (h : w.OnFile key op) : StoreWorks op := by
  cases op with
  | setFaults => exact h
  | _ => trivial

/-- A call that leaves the record and the names of the disk files. -/
theorem Kept.same {w' : World} {r : InodeRecord} (hA : r.Agrees w.threshold_ w.os.disk)
    (hc : w'.store.Current key r.value) (hn : w'.os.disk.names = w.os.disk.names) :
    ∃ r : InodeRecord, w'.store.Current key r.value ∧ r.Agrees w.threshold_ w'.os.disk :=
  ⟨r, hc, hA.congr rfl rfl rfl (congrFun hn _)⟩

theorem Kept.step (h : w.Kept key) {op : Op} (hop : w.OnFile key op) (hok : w.FullIo op) :
    (w.next op).Kept key := by
  have hthr := w.step_threshold op
  refine ⟨step_dbFaults h.dbFaults hop.storeWorks, by rw [hthr]; exact h.threshold, ?_⟩
  rw [hthr]
  obtain ⟨r, hc, hA⟩ := h.file
  cases op with
  | getAttr path =>
      obtain ⟨_, hc', hs, _⟩ := getAttr_current hop hc
      exact Kept.same hA hc' (congrArg Disk.names hs.disk)
  | openFile path flags =>
      obtain ⟨_, i, fd, ho⟩ := openFile_current hop hc hA hok
      exact Kept.same hA ho.current ho.names
  | read fh size offset =>
      obtain ⟨hsize, hoff, hoff', f, hf, he⟩ := hop
      obtain ⟨⟨fd, hr⟩, _⟩ := read_full hf (hc.entry_value he) hA hoff hoff' hsize h.threshold.2 hok
      refine Kept.same hA (hr.upTo.current ?_) hr.names
      exact hc
  | write fh buf offset =>
      obtain ⟨hbuf, hoff, hlen, f, hf, he⟩ := hop
      obtain ⟨_, r', fd, hw⟩ :=
        write_full hf (hc.entry_value he) hA h.threshold hoff hlen hbuf hok
      exact ⟨r', (hw.current hf hc he).1, hw.resized.agrees⟩
  | release fh =>
      obtain ⟨f, hf, he⟩ := hop
      obtain ⟨hcl, _⟩ := release_current hf hc he h.dbFaults
      obtain ⟨s, hs, hc'⟩ := hcl.current
      have hsize : s.st_size = r.header.fstat.st_size := (congrArg Stat.st_size hs :)
      have hino : s.st_ino = r.header.fstat.st_ino := (congrArg Stat.st_ino hs :)
      refine ⟨r.setStat s, hc', hA.congr (congrArg UInt64.toNat hsize) rfl rfl ?_⟩
      show (w.release fh).1.os.disk.names (getDiskFilePath s.st_ino) = _
      rw [hcl.disk, hino]
      rfl
  | truncate path n =>
      obtain ⟨hn, hn', hk⟩ := hop
      obtain ⟨m, rfl⟩ := Int.eq_ofNat_of_zero_le hn
      obtain ⟨_, r', hr⟩ := truncate_current hk hc hA h.dbFaults (by omega) hok
      exact ⟨r', hr.current, hr.resized.agrees⟩
  | evict k =>
      obtain ⟨hc', hs, _⟩ := evictUnpinned_current hc h.dbFaults k
      exact Kept.same hA hc' (congrArg Disk.names hs.disk)
  | chmod path mode | chown path uid gid | updateTimens path atime mtime =>
      obtain ⟨_, hc', hs, _⟩ := editAttribute_current hop hc h.dbFaults _ _
      exact ⟨_, hc', hA.congr rfl rfl rfl (congrFun (congrArg Disk.names hs.disk) _)⟩
  | setEnv env => exact ⟨r, hc, hA⟩
  | setFaults db io =>
      exact ⟨r, hc.congr rfl rfl, hA.congr rfl rfl rfl rfl⟩
  | _ => exact hop.elim

/-! ## The file as `MakeNode` makes it -/

/-- `MakeNode` makes an empty file, and leaves alone what is under its number in the data
directory. -/
theorem makeNode_current (mode : UInt32) (dev : UInt64) (hdb : w.store.dbFaults = [])
    (hlen : path.length < 2 ^ 31) (hk : (w.pathLookup path).2 = some key)
    (hnew : w.store.cache.find key = none) :
    ∃ r : InodeRecord, (w.next (.makeNode path mode dev)).store.Current key r.value ∧ r.size = 0 ∧
      r.header.has_blob = 0 ∧ r.inline = [] ∧ r.path = getDiskFilePath (w.max_inode_num + 1) ∧
      (w.next (.makeNode path mode dev)).os.disk.names = w.os.disk.names ∧
      (w.next (.makeNode path mode dev)).files = w.files := by
  have hl := w.pathLookup_looked path
  rcases hp : w.pathLookup path with ⟨w₁, o⟩
  rw [hp] at hk hl
  dsimp only at hk hl
  subst hk
  have hname : (filenameOf path).length < 2 ^ 32 := by
    have hlast := (splitOn_mem _ _ _ (lastComponent_mem path)).1.length_le
    rw [List.length_drop] at hlast
    unfold filenameOf
    split
    · split
      · rw [List.length_take]
        omega
      · decide
    · omega
  obtain ⟨r, hr, -, hinline, hblob, hstat⟩ := w.initInodeValue_record (w.max_inode_num + 1)
    (mode ||| S_IFREG) dev (filenameOf path) [] hname
  -- a number is taken, perhaps with a new subdirectory
  obtain ⟨wn, hwn⟩ : ∃ wn, w₁.newInode.1.writeLock key = wn := ⟨_, rfl⟩
  have hun : { w₁ with max_inode_num := w₁.max_inode_num + 1 : World }.UpToData wn :=
    hwn ▸ w₁.newInode_upToData.trans (upToData_writeLock _ key)
  have hnn : wn.os.disk.names = w.os.disk.names := by
    rw [← hwn, ← hl.disk]
    show w₁.newInode.1.os.disk.names = _
    unfold newInode
    dsimp only
    split <;> rfl
  have hcn : wn.store.cache = w.store.cache := hun.cache.trans hl.cache
  have hfn : wn.store.dbFaults = [] := by
    obtain ⟨_, _, _, h⟩ := hun
    rw [h]
    exact hl.dbFaults.trans hdb
  have hput : (wn.store.dbPut key r.value).2 = 0 := by rw [dbPut_ok _ _ _ hfn]
  have hcur : (wn.store.dbPut key r.value).1.Current key r.value := by
    refine current_dbPut (fun i hi => ?_) hput
    rw [keyOf_congr hcn]
    exact LruCache.find_eq_none_iff.mp hnew i (hcn ▸ hi)
  have hnext : w.next (.makeNode path mode dev)
      = (wn.setStore (wn.store.dbPut key r.value).1).unlock key := by
    show (w.makeInode path (mode ||| S_IFREG) dev).1 = _
    rw [makeInode, hp]
    dsimp only
    rw [newInode_initInodeValue hl, ← hr, hwn, if_pos hput]
  rw [hnext]
  refine ⟨r, hcur.congr rfl rfl, ?_, hblob, hinline, ?_, hnn, hun.files.trans hl.files⟩
  · rw [InodeRecord.size, hstat]
    rfl
  · rw [InodeRecord.path, hstat]
    rfl

/-- A file that `MakeNode` made is consistent, and stays so through every run of calls on
it, if and only if the data directory had no file under its number. -/
theorem blob_flag_iff (hdb : w.store.dbFaults = [])
    (hT : 0 ≤ w.threshold_ ∧ w.threshold_ < 2 ^ 31) (hlen : path.length < 2 ^ 31)
    (hk : (w.pathLookup path).2 = some key) (hnew : w.store.cache.find key = none)
    (mode : UInt32) (dev : UInt64) :
    (∀ ops, (w.next (.makeNode path mode dev)).forgetIo.Meets
        (fun w op => w.OnFile key op ∧ w.FullIo op) ops →
      ((w.next (.makeNode path mode dev)).forgetIo.run ops).Consistent key) ↔
    w.os.disk.names (getDiskFilePath (w.max_inode_num + 1)) = none := by
  obtain ⟨r, hc, hsize, hblob, hinline, hpath, hnames, _⟩ :=
    makeNode_current mode dev hdb hlen hk hnew
  have hthr := w.step_threshold (.makeNode path mode dev)
  constructor
  · intro h
    -- right after `MakeNode` there is no blob, so there may be no file
    obtain ⟨r', hl, hcons⟩ := h [] trivial
    have hval : r'.value = r.value := by
      have hl' : (w.next (.makeNode path mode dev)).store.lookup key = some r'.value := hl
      rw [hc.lookup] at hl'
      exact (Option.some.inj hl').symm
    have hhead : r'.header = r.header := by
      rw [← r'.getInodeHeader_value, hval, r.getInodeHeader_value]
    by_contra hne
    have hfile := hcons.file.mp (by
      show (w.next (.makeNode path mode dev)).os.disk.names r'.path ≠ none
      rw [hnames, InodeRecord.path, hhead]
      rw [← hpath] at hne
      exact hne)
    rw [hhead, hblob] at hfile
    cases hfile
  · intro hnone ops hm
    refine (Transition.run_invariant (P := fun w : World => w.Kept key)
      (fun _ _ h hC => h.step hC.1 hC.2) ?_ hm).consistent
    have hworks : StoreWorks (.makeNode path mode dev) := trivial
    refine ⟨step_dbFaults hdb hworks, ?_, r, hc.congr rfl rfl, ?_⟩
    · show 0 ≤ (w.next _).threshold_ ∧ (w.next _).threshold_ < _
      rw [hthr]
      exact hT
    · refine .small ?_ ?_ hblob ?_ ?_
      · rw [hsize]
        show _ ≤ (w.next _).threshold_
        rw [hthr]
        exact hT.1
      · rw [hsize]
        decide
      · rw [hinline, hsize]
        rfl
      · show (w.next _).os.disk.names _ = _
        rw [hnames, hpath]
        exact hnone

/-! ## Runs -/

/-- A mount that keeps up to four bytes inline. -/
def smallConfig : MountConfig := { plainConfig with threshold := 4 }

/-- On an empty disk the first file is consistent through every run of calls on it. -/
theorem first_file_consistent :
    (∀ ops, ((mount Durable.empty smallConfig).next (.makeNode [47, 97] 0 0)).forgetIo.Meets
        (fun w op => w.OnFile (buildMetaKey [97] 0) op ∧ w.FullIo op) ops →
      (((mount Durable.empty smallConfig).next (.makeNode [47, 97] 0 0)).forgetIo.run
        ops).Consistent (buildMetaKey [97] 0)) ∧
      (mount Durable.empty smallConfig).os.disk.names (getDiskFilePath 1) = none :=
  ⟨(blob_flag_iff (by decide +kernel) (by decide +kernel) (by decide) (by decide +kernel)
    (by decide +kernel) 0 0).mpr (by decide +kernel), by decide +kernel⟩

/-- A process writes five bytes to its first file and dies. -/
def blobRun : List MachineOp :=
  [.mount smallConfig, .call (.makeNode [47, 97] 0 0), .call (.openFile [47, 97] O_RDWR),
    .call (.write 0 [1, 2, 3, 4, 5] 0), .crash 100, .mount smallConfig]

/-- What it leaves. -/
def leftBlob : Durable :=
  Durable.empty.replay
    (((((mount Durable.empty smallConfig).step (.makeNode [47, 97] 0 0)).1.step
      (.openFile [47, 97] O_RDWR)).1.step (.write 0 [1, 2, 3, 4, 5] 0)).1.store.log.take 100)

theorem blobRun_run : (Machine.down Durable.empty).run blobRun
    = .up leftBlob (mount leftBlob smallConfig) := by
  simp only [blobRun, Transition.run_cons, Transition.run_nil, Machine.step]
  rfl

/-- The next process gives the number out again: the file it makes is empty and has no
blob, and its disk file is there. -/
theorem blob_flag_wrong :
    ¬ ∀ (ops : List MachineOp) (base : Durable) (w : World) (path : Bytes) (key : MetaKey)
      (mode : UInt32) (dev : UInt64) (calls : List Op),
      (∀ op ∈ ops, op.WellFormed) → (Machine.down Durable.empty).run ops = .up base w →
      GoodPath path → (w.pathLookup path).2 = some key → w.store.lookup key = none →
      (w.next (.makeNode path mode dev)).forgetIo.Meets
        (fun w op => w.OnFile key op ∧ w.FullIo op) calls →
      ((w.next (.makeNode path mode dev)).forgetIo.run calls).Consistent key := by
  intro h
  obtain ⟨r, hl, hcons⟩ := h blobRun leftBlob (mount leftBlob smallConfig) [47, 98]
    (buildMetaKey [98] 0) 0 0 [] (by decide) blobRun_run (by decide)
    (by decide +kernel) (by decide +kernel) trivial
  -- the number of the first file, and no blob
  rw [run, Transition.run_nil, forgetIo_store] at hl
  rw [run, Transition.run_nil, forgetIo_disk] at hcons
  have hino : (((mount leftBlob smallConfig).next (.makeNode [47, 98] 0 0)).store.lookup
      (buildMetaKey [98] 0)).map (fun v => ((getInodeHeader v).fstat.st_ino,
        (getInodeHeader v).has_blob)) = some (1, 0) := by decide +kernel
  rw [hl, Option.map_some, r.getInodeHeader_value] at hino
  obtain ⟨hnum, hblob⟩ := Prod.mk.inj (Option.some.inj hino)
  have hfile := hcons.file.mp (by
    rw [InodeRecord.path, hnum]
    decide +kernel)
  rw [hblob] at hfile
  cases hfile

end World

end Tablefs
