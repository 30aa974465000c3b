/-
A file that several handles share.

What a file is for its users: one record, of which the times are left aside, and one
array of bytes, on which every call acts (`SharedFile`). `Shared` says that the file
under a key is such a file: its current record and its disk file hold the bytes, and every
descriptor of an open handle is on that disk file. A call through the record's entry in
the table keeps this and answers as the shared file does (`Shared.step`), as long as it
leaves no descriptor on a disk file that is gone.
-/
import Tablefs.BlobFlag

set_option autoImplicit false

namespace Tablefs

open ByteString

/-! ## Records without times and data -/

/-- The attributes without times and size. -/
def Stat.rest (s : Stat) : Stat := { s.untimed with st_size := 0 }

/-- What a record says besides its times and its data. -/
structure RecordRest where
  stat : Stat
  padding : BitVec (8 * 104)
  namelen : UInt32
  name : Bytes

namespace InodeRecord

/-- The record without its times. -/
def untimed (r : InodeRecord) : InodeRecord := r.setStat r.header.fstat.untimed

def rest (r : InodeRecord) : RecordRest :=
  ⟨r.header.fstat.rest, r.header.padding, r.header.namelen, r.name⟩

theorem setData_rest (r : InodeRecord) (n : ℕ) (b : UInt32) (data : Bytes) :
    (r.setData n b data).rest = r.rest := rfl

theorem setStat_rest (r : InodeRecord) (s : Stat) :
    (r.setStat s).rest = { r.rest with stat := s.rest } := rfl

/-- Records that agree but for times and data do so after the same change. -/
theorem setStat_rest_congr {r r' : InodeRecord} (h : r.rest = r'.rest) {edit : Stat → Stat}
    (hedit : ∀ s, (edit s).rest = (edit s.rest).rest) :
    (r.setStat (edit r.header.fstat)).rest = (r'.setStat (edit r'.header.fstat)).rest := by
  have hstat : r.header.fstat.rest = r'.header.fstat.rest := congrArg RecordRest.stat h
  rw [setStat_rest, setStat_rest, hedit, hstat, ← hedit, h]

/-- The file's data is about size, flag, inline data and disk file. -/
theorem Holds.congr {T : ℤ} {d d' : Disk} {r r' : InodeRecord} {data : Bytes}
    (h : r.Holds T d data) (hsize : r'.size = r.size)
    (hblob : r'.header.has_blob = r.header.has_blob) (hinline : r'.inline = r.inline)
    (hpath : r'.path = r.path) (hdisk : d' = d) : r'.Holds T d' data := by
  subst hdisk
  cases h with
  | small h1 h2 h3 h4 h5 h6 =>
      exact .small h1 h2 (hsize.trans h3) (hblob.trans h4) (hinline.trans h5)
        (by rw [hpath]; exact h6)
  | large file h1 h2 h3 h4 h5 h6 h7 =>
      exact .large file h1 h2 (hsize.trans h3) (hblob.trans h4) (hinline.trans h5)
        (by rw [hpath]; exact h6) h7

theorem Holds.size {T : ℤ} {d : Disk} {r : InodeRecord} {data : Bytes} (h : r.Holds T d data) :
    r.size = data.length ∧ data.length < 2 ^ 63 := by
  cases h with
  | small _ h2 h3 => exact ⟨h3, h2⟩
  | large _ _ h2 h3 => exact ⟨h3, h2⟩

end InodeRecord

/-! ## The shared file -/

/-- What all handles of a file and all its paths share: a record, of which times and data
are of no account, and the data. -/
structure SharedFile where
  base : InodeRecord
  data : Bytes

/-- What a caller sees of an answer: the number of a new handle and the times apart. -/
structure Seen where
  ret : ℤ
  data : Bytes
  stat : Option Stat
  deriving DecidableEq

/-- The part of an answer that does not depend on times. -/
def Output.seen (o : Output) : Seen := ⟨o.ret, o.data, o.stat.map Stat.untimed⟩

namespace SharedFile

/-- The attributes. -/
def stat (s : SharedFile) : Stat := { s.base.header.fstat with st_size := .ofNat s.data.length }

/-- The record under a threshold. -/
def record (s : SharedFile) (T : ℤ) : InodeRecord :=
  if T < s.data.length then s.base.setData s.data.length 1 []
  else s.base.setData s.data.length 0 s.data

/-- The file with other attributes. -/
def setStat (s : SharedFile) (edit : Stat → Stat) : SharedFile :=
  { s with base := s.base.setStat (edit s.base.header.fstat) }

/-- The file after a call. -/
def next (s : SharedFile) : Op → SharedFile
  | .write _ buf offset => { s with data := overlay s.data offset.toNat buf }
  | .truncate _ n => { s with data := resize s.data n.toNat }
  | .chmod _ mode => s.setStat fun s => { s with st_mode := mode }
  | .chown _ uid gid => s.setStat fun s => { s with st_uid := uid, st_gid := gid }
  | _ => s

/-- The answer of a call. -/
def answer (s : SharedFile) : Op → Seen
  | .getAttr _ => ⟨0, [], some s.stat.untimed⟩
  | .read _ size offset =>
      ⟨(slice s.data offset.toNat size).length, slice s.data offset.toNat size, none⟩
  | .write _ buf _ => ⟨buf.length, [], none⟩
  | _ => ⟨0, [], none⟩

end SharedFile

theorem Stat.untimed_of_rest {s t : Stat} (h : s.rest = t.rest) (hsize : s.st_size = t.st_size) :
    s.untimed = t.untimed := by
  have hs : ∀ u : Stat, u.untimed = { u.rest with st_size := u.st_size } := fun _ => rfl
  rw [hs s, hs t, h, hsize]

theorem InodeHeader.ext_fields {h h' : InodeHeader} (hs : h.fstat = h'.fstat)
    (hp : h.padding = h'.padding) (hb : h.has_blob = h'.has_blob) (hn : h.namelen = h'.namelen) :
    h = h' := by
  obtain ⟨⟩ := h
  obtain ⟨⟩ := h'
  simp only at hs hp hb hn
  rw [hs, hp, hb, hn]

/-- The record of a shared file, from what it holds. -/
theorem InodeRecord.Holds.untimed {T : ℤ} {d : Disk} {r : InodeRecord} {s : SharedFile}
    (h : r.Holds T d s.data) (hrest : r.rest = s.base.rest) :
    r.untimed = (s.record T).untimed ∧ r.header.fstat.untimed = s.stat.untimed := by
  have hsize : r.header.fstat.st_size = .ofNat s.data.length := by
    rw [← h.size.1]
    exact UInt64.ofNat_toNat.symm
  have hstat : r.header.fstat.untimed = s.stat.untimed :=
    Stat.untimed_of_rest (congrArg RecordRest.stat hrest) hsize
  -- field by field, with flag and inline data as the size says
  have hfields : ∀ (b : UInt32) (data : Bytes), r.header.has_blob = b → r.inline = data →
      r.untimed = (s.base.setData s.data.length b data).untimed := by
    intro b data hb hd
    have hheader : r.untimed.header = (s.base.setData s.data.length b data).untimed.header :=
      InodeHeader.ext_fields hstat (congrArg RecordRest.padding hrest) hb
        (congrArg RecordRest.namelen hrest)
    exact InodeRecord.ext_fields hheader (congrArg RecordRest.name hrest) hd
  refine ⟨?_, hstat⟩
  cases h with
  | small hle _ _ hblob hinline =>
      rw [SharedFile.record, if_neg (by omega)]
      exact hfields 0 s.data hblob hinline
  | large _ hlt _ _ hblob hinline =>
      rw [SharedFile.record, if_pos hlt]
      exact hfields 1 [] hblob hinline

namespace World

open Store

variable {w : World} {key : MetaKey} {s : SharedFile}

/-! ## The file system has the shared file -/

/-- The descriptors of the open files whose handle is the key's entry are on the record's
disk file. -/
def Descriptors (w : World) (key : MetaKey) (r : InodeRecord) : Prop :=
  ∀ fh f, w.files fh = some f → w.store.Entry key f.handle_ → w.FdOk r f

/-- The file under `key` is `s`. -/
structure Shared (w : World) (key : MetaKey) (s : SharedFile) : Prop where
  accounted : w.Accounted
  dbFaults : w.store.dbFaults = []
  threshold : 0 ≤ w.threshold_ ∧ w.threshold_ < 2 ^ 31
  file : ∃ r : InodeRecord, w.store.Current key r.value ∧ r.rest = s.base.rest ∧
    r.Holds w.threshold_ w.os.disk s.data ∧ w.Descriptors key r

/-- `Open` does not empty the disk file, and `Truncate` does not bring the data back into
the record while a handle on it has a descriptor. -/
def Gentle (key : MetaKey) (w : World) : Op → Prop
  | .openFile _ flags => flags.trunc = false
  | .truncate _ n => ∀ v, w.store.lookup key = some v →
      w.threshold_ < (getInodeHeader v).fstat.st_size.toNat → n ≤ w.threshold_ →
      ∀ fh f, w.files fh = some f → w.store.Entry key f.handle_ → f.fd_ < 0
  | _ => True

/-- The open files are as before, with the same descriptors. -/
theorem Descriptors.same {w' : World} {r' : InodeRecord} (hf : w'.files = w.files)
    (hk : ∀ fh f, w.files fh = some f → w'.store.Entry key f.handle_ → w.store.Entry key f.handle_)
    (hok : ∀ fh f, w.files fh = some f → w.store.Entry key f.handle_ → w'.FdOk r' f) :
    w'.Descriptors key r' := by
  intro fh f hfh he
  rw [hf] at hfh
  exact hok fh f hfh (hk fh f hfh he)

/-- One open file is new, or has a new descriptor. -/
theorem Descriptors.update {w' : World} {r' : InodeRecord} {fh : ℕ} {f : FileHandle}
    (hf : w'.files = Function.update w.files fh (some f))
    (hk : ∀ a g, w.files a = some g → w'.store.Entry key g.handle_ → w.store.Entry key g.handle_)
    (hok : ∀ a g, w.files a = some g → w.store.Entry key g.handle_ → w'.FdOk r' g)
    (hnew : w'.FdOk r' f) : w'.Descriptors key r' := by
  intro a g ha he
  rw [hf] at ha
  by_cases hafh : a = fh
  · rw [hafh, Function.update_self] at ha
    obtain rfl := Option.some.inj ha
    exact hnew
  · rw [Function.update_of_ne hafh] at ha
    exact hok a g ha (hk a g ha he)

/-- A descriptor of the file is in use. -/
theorem FdOk.inUse {r : InodeRecord} {f : FileHandle} (h : w.FdOk r f) (hpos : 0 ≤ f.fd_) :
    w.fdEntry f.fd_ ≠ none := by
  obtain ⟨file, _, hfd⟩ := h.fd hpos
  rw [hfd]
  exact Option.some_ne_none _

/-- A call that answers as the shared file does, and leaves it as the shared file is
left. -/
def Follows (w : World) (key : MetaKey) (s : SharedFile) (op : Op) : Prop :=
  (∃ r : InodeRecord, (w.next op).store.Current key r.value ∧ r.rest = (s.next op).base.rest ∧
    r.Holds w.threshold_ (w.next op).os.disk (s.next op).data ∧ (w.next op).Descriptors key r) ∧
    (w.step op).2.seen = s.answer op

/-- An open file is gone, its descriptor is closed, and the key has no entry. -/
theorem Descriptors.of_noEntry {r : InodeRecord} (h : ∀ i, ¬ w.store.Entry key i) :
    w.Descriptors key r := fun _ _ _ he => absurd he (h _)

/-- `Chmod`, `Chown` and `UpdateTimens`. -/
theorem Shared.follows_edit (h : w.Shared key s) {path : Bytes} (unlocks : Bool)
    (hk : (w.pathLookup path).2 = some key) (edit : Stat → Stat)
    (hrest : ∀ t, (edit t).rest = (edit t.rest).rest) (hsize : ∀ t, (edit t).st_size = t.st_size)
    (hino : ∀ t, (edit t).st_ino = t.st_ino)
    (hkey : ∀ a g, w.files a = some g →
      (w.editAttribute path edit unlocks).1.store.Entry key g.handle_ →
      w.store.Entry key g.handle_) :
    (∃ r : InodeRecord, (w.editAttribute path edit unlocks).1.store.Current key r.value ∧
      r.rest = (s.setStat edit).base.rest ∧
      r.Holds w.threshold_ (w.editAttribute path edit unlocks).1.os.disk s.data ∧
      (w.editAttribute path edit unlocks).1.Descriptors key r) ∧
      Output.seen { ret := (w.editAttribute path edit unlocks).2 } = ⟨0, [], none⟩ := by
  obtain ⟨r, hc, hr, hH, hd⟩ := h.file
  obtain ⟨hret, hc', hs, _⟩ := editAttribute_current hk hc h.dbFaults edit unlocks
  have hpath : (r.setStat (edit r.header.fstat)).path = r.path := congrArg getDiskFilePath (hino _)
  refine ⟨⟨_, hc', InodeRecord.setStat_rest_congr hr hrest, hH.congr
    (congrArg UInt64.toNat (hsize _)) rfl rfl hpath hs.disk, .same hs.files hkey ?_⟩, ?_⟩
  · intro a g ha hk'
    exact ((hd _ _ ha hk').sameData hs).keep (by rw [hpath]) fun _ _ => rfl
  · rw [hret]
    rfl

theorem Shared.follows (h : w.Shared key s) {op : Op} (hop : w.OnFile key op)
    (hg : w.Gentle key op) (hok : w.FullIo op) : w.Follows key s op := by
  obtain ⟨r, hc, hrest, hH, hd⟩ := h.file
  have hA := hH.agrees
  have hkey : ∀ a g, w.files a = some g → (w.next op).store.Entry key g.handle_ →
      w.store.Entry key g.handle_ := fun _ _ ha he => step_entry h.accounted ha he
  cases op with
  | getAttr path =>
      obtain ⟨hret, hc', hs, _⟩ := getAttr_current hop hc
      refine ⟨⟨r, hc', hrest, hH.congr rfl rfl rfl rfl hs.disk,
        .same hs.files hkey fun a g ha hk => (hd _ _ ha hk).sameData hs⟩, ?_⟩
      show Output.seen ⟨(w.getAttr path).2.1, [], (w.getAttr path).2.2, none, []⟩ = _
      rw [hret]
      exact congrArg (fun t => Seen.mk 0 [] (some t)) (hH.untimed hrest).2
  | openFile path flags =>
      obtain ⟨hret, i, fd, ho⟩ := openFile_current hop hc hA hok
      refine ⟨⟨r, ho.current, hrest, hH.congr rfl rfl rfl rfl (ho.disk hg),
        .update ho.files hkey ?_ (ho.fdOk hg)⟩, ?_⟩
      · intro a g ha hk
        exact (hd _ _ ha hk).keep (congrFun ho.names _) ho.fds
      · show Output.seen ⟨(w.openFile path flags).2.1, [], none, (w.openFile path flags).2.2, []⟩
          = _
        rw [hret]
        rfl
  | read fh size offset =>
      obtain ⟨hsize, hoff, hoff', f, hf, he⟩ := hop
      obtain ⟨⟨fd, hr⟩, hdata⟩ :=
        read_full hf (hc.entry_value he) hA hoff hoff' hsize h.threshold.2 hok
      have hfo := hd _ _ hf he
      refine ⟨⟨r, hr.upTo.current (v := r.value) hc, hrest,
        hH.congr rfl rfl rfl rfl (hr.disk hfo), .update hr.upTo.files hkey ?_ (hr.fdOk hfo)⟩, ?_⟩
      · intro a g ha hk
        exact (hd _ _ ha hk).keep (congrFun hr.names _) hr.fds
      · show Output.seen ⟨(w.read fh size offset).2.1, (w.read fh size offset).2.2, none, none, []⟩
          = _
        rw [hdata s.data hH hfo]
        rfl
  | write fh buf offset =>
      obtain ⟨hbuf, hoff, hlen, f, hf, he⟩ := hop
      obtain ⟨hret, r', fd, hw⟩ :=
        write_full hf (hc.entry_value he) hA h.threshold hoff hlen hbuf hok
      have hfo := hd _ _ hf he
      obtain ⟨hH', hnew⟩ := hw.holds s.data hH hfo
      obtain ⟨b, data, hedit⟩ := hw.resized.edit
      refine ⟨⟨r', (hw.current hf hc he).1, ?_, hH', .update hw.files hkey ?_ hnew⟩, ?_⟩
      · rw [hedit, InodeRecord.setData_rest]
        exact hrest
      · intro a g ha hk
        exact hw.fdOk g (hd _ _ ha hk)
      · show Output.seen ⟨(w.write fh buf offset).2, [], none, none, []⟩ = _
        rw [hret]
        rfl
  | release fh =>
      obtain ⟨f, hf, he⟩ := hop
      obtain ⟨hcl, hret⟩ := release_current hf hc he h.dbFaults
      obtain ⟨t, ht, hc'⟩ := hcl.current
      have hsize : t.st_size = r.header.fstat.st_size := (congrArg Stat.st_size ht :)
      have hino : t.st_ino = r.header.fstat.st_ino := (congrArg Stat.st_ino ht :)
      have hpath : (r.setStat t).path = r.path := congrArg getDiskFilePath hino
      refine ⟨⟨r.setStat t, hc', ?_, hH.congr (congrArg UInt64.toNat hsize) rfl rfl hpath hcl.disk,
        .of_noEntry hcl.noEntry⟩, ?_⟩
      · rw [InodeRecord.setStat_rest, Stat.rest, ht]
        exact hrest
      · show Output.seen ⟨(w.release fh).2, [], none, none, []⟩ = _
        rw [hret fun hne => (hd _ _ hf he).inUse ?_]
        · rfl
        · have := (hd _ _ hf he).low
          omega
  | truncate path n =>
      obtain ⟨hn, hn', hk⟩ := hop
      obtain ⟨m, rfl⟩ := Int.eq_ofNat_of_zero_le hn
      obtain ⟨hret, r', hr⟩ := truncate_current hk hc hA h.dbFaults (by omega) hok
      obtain ⟨b, data, hedit⟩ := hr.resized.edit
      refine ⟨⟨r', hr.current, ?_, hr.holds s.data hH, .same hr.files hkey ?_⟩, ?_⟩
      · rw [hedit, InodeRecord.setData_rest]
        exact hrest
      · intro a g ha hk'
        refine hr.fdOk g (hd _ _ ha hk') fun hbig hle => ?_
        refine hg r.value hc.lookup ?_ hle a g ha hk'
        rw [r.getInodeHeader_value]
        exact hbig
      · show Output.seen ⟨(w.truncate path m).2, [], none, none, []⟩ = _
        rw [hret]
        rfl
  | evict k =>
      obtain ⟨hc', hs, _⟩ := evictUnpinned_current hc h.dbFaults k
      exact ⟨⟨r, hc', hrest, hH.congr rfl rfl rfl rfl hs.disk,
        .same hs.files hkey fun a g ha hk => (hd _ _ ha hk).sameData hs⟩, rfl⟩
  | chmod path mode =>
      exact h.follows_edit true hop _ (fun _ => rfl) (fun _ => rfl) (fun _ => rfl) hkey
  | chown path uid gid =>
      exact h.follows_edit false hop _ (fun _ => rfl) (fun _ => rfl) (fun _ => rfl) hkey
  | updateTimens path atime mtime =>
      obtain ⟨⟨q, hc', hrest', hH', hd'⟩, hret⟩ :=
        h.follows_edit true hop
          (fun s => { s with st_atim_sec := atime, st_mtim_sec := mtime })
          (fun _ => rfl) (fun _ => rfl) (fun _ => rfl) hkey
      -- the times are not part of the rest
      exact ⟨⟨q, hc', hrest', hH', hd'⟩, hret⟩
  | setEnv env =>
      exact ⟨⟨r, hc, hrest, hH, .same rfl hkey fun _ _ ha hk => (hd _ _ ha hk).sameData
        ⟨rfl, rfl, rfl, rfl⟩⟩, rfl⟩
  | setFaults db io =>
      exact ⟨⟨r, hc.congr rfl rfl, hrest, hH, .same rfl hkey fun _ _ ha hk =>
        (hd _ _ ha hk).sameData ⟨rfl, rfl, rfl, rfl⟩⟩, rfl⟩
  | _ => exact hop.elim

/-- The file stays the shared file, and answers as it does. -/
theorem Shared.step (h : w.Shared key s) {op : Op} (hop : w.OnFile key op) (hg : w.Gentle key op)
    (hok : w.FullIo op) :
    (w.next op).Shared key (s.next op) ∧ (w.step op).2.seen = s.answer op := by
  obtain ⟨hfile, hans⟩ := h.follows hop hg hok
  have hthr := w.step_threshold op
  refine ⟨⟨h.accounted.step op, step_dbFaults h.dbFaults hop.storeWorks, ?_, ?_⟩, hans⟩
  · rw [hthr]
    exact h.threshold
  · rw [hthr]
    exact hfile

/-- The file that `MakeNode` makes, under a number without a disk file. -/
theorem makeNode_shared (ha : w.Accounted) (hdb : w.store.dbFaults = [])
    (hT : 0 ≤ w.threshold_ ∧ w.threshold_ < 2 ^ 31) {path : Bytes} (hlen : path.length < 2 ^ 31)
    (hk : (w.pathLookup path).2 = some key) (hnew : w.store.lookup key = none)
    (hfile : w.os.disk.names (getDiskFilePath (w.max_inode_num + 1)) = none) (mode : UInt32)
    (dev : UInt64) :
    ∃ r : InodeRecord, (w.next (.makeNode path mode dev)).store.lookup key = some r.value ∧
      (w.next (.makeNode path mode dev)).forgetIo.Shared key ⟨r, []⟩ ∧
      (w.next (.makeNode path mode dev)).files = w.files := by
  have hfind : w.store.cache.find key = none := by
    rw [Store.lookup] at hnew
    split at hnew
    · cases hnew
    · assumption
  obtain ⟨r, hc, hsize, hblob, hinline, hpath, hnames, hfiles⟩ :=
    makeNode_current mode dev hdb hlen hk hfind
  have hthr := w.step_threshold (.makeNode path mode dev)
  have hworks : StoreWorks (.makeNode path mode dev) := trivial
  have hacc : (w.next (.makeNode path mode dev)).forgetIo.Accounted :=
    (ha.step (.makeNode path mode dev)).congr rfl rfl rfl rfl
  have hempty : ([] : Bytes).length < 2 ^ 63 := by decide
  refine ⟨r, hc.lookup, ⟨hacc, step_dbFaults hdb hworks, ?_, ?_⟩, hfiles⟩
  · show 0 ≤ (w.next _).threshold_ ∧ (w.next _).threshold_ < _
    rw [hthr]
    exact hT
  · refine ⟨r, hc.congr rfl rfl, rfl, .small ?_ hempty hsize hblob hinline ?_, ?_⟩
    · show _ ≤ (w.next _).threshold_
      rw [hthr]
      exact hT.1
    · show (w.next _).os.disk.names _ = _
      rw [hnames, hpath]
      exact hfile
    · -- the key had no entry before, so no open file has it now
      intro fh f hf he
      have hf' : w.files fh = some f := hfiles ▸ hf
      obtain ⟨hi, hkey⟩ := step_entry ha hf' (he :)
      exact absurd hkey (LruCache.find_eq_none_iff.mp hfind _ hi)

end World

end Tablefs
