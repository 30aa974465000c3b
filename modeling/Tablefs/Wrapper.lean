/-
`TableFSWrapper` (`fswrapper.cpp`): TableFS behind file descriptors.

A descriptor is an index into a table of 128 entries with a path, an offset and the
`fi->fh` that `Open` returned. `Listdir`, `Lsstat` and `Scanfile` open a directory, and
none of them calls `ReleaseDir`. Apart from the references that are lost there, the
references held on inode handles are those of the open descriptors
(`references_balance`); one `Listdir` that succeeds leaves one too many
(`listdir_leaks`).
-/
import Tablefs.Reachable

set_option autoImplicit false

namespace Tablefs

open ByteString

/-! ## The wrapper -/

/-- `FDLIMIT` -/
def FDLIMIT : ℕ := 128

/-- `EEXIST` -/
def EEXIST : ℕ := 17

/-- The entry of an open descriptor: `paths`, `offsets` and `fis`. -/
structure Descriptor where
  path : Bytes
  offset : ℤ
  flags : OpenFlags
  fh : ℕ
  deriving DecidableEq, Repr

/-- `TableFSWrapper`. A descriptor whose `freefd` is 0 has no entry. -/
structure Wrapper where
  fs : World
  fds : ℕ → Option Descriptor

/-- A call of the wrapper. The callbacks of `ReadDir` return nothing, so what `ReadDir`
sees of them is arbitrary: `filler n` says that the `n`-th is not taken for a refusal.
`fuel` bounds the reads of `Scanfile` on one file. -/
inductive WrapperOp
  | mknod (path : Bytes) (mode : UInt32) (dev : UInt64)
  | mkdir (path : Bytes) (mode : UInt32)
  | utime (path : Bytes) (actime modtime : UInt64)
  | chmod (path : Bytes) (mode : UInt32)
  | stat (path : Bytes)
  | openFile (path : Bytes) (flags : OpenFlags)
  | seek (fd : ℕ) (offset : ℤ)
  | write (fd : ℕ) (buf : Bytes)
  | read (fd size : ℕ)
  | close (fd : ℕ)
  | listdir (path : Bytes) (filler : ℕ → Bool)
  | lsstat (path : Bytes) (filler : ℕ → Bool)
  | scanfile (path : Bytes) (filler : ℕ → Bool) (fuel : ℕ)
  | rename (old_path new_path : Bytes)
  | unlink (path : Bytes)

namespace Wrapper

/-- A call of `fs`. -/
def tfs (s : Wrapper) (op : Op) : Wrapper × Output :=
  let r := s.fs.step op
  ({ s with fs := r.1 }, r.2)

/-- `GetFileDescriptor`, without marking the descriptor. -/
def getFileDescriptor (s : Wrapper) : Option ℕ :=
  (List.range FDLIMIT).find? fun fd => s.fds fd = none

/-- The entry of a descriptor is set. -/
def setFd (s : Wrapper) (fd : ℕ) (d : Option Descriptor) : Wrapper :=
  { s with fds := Function.update s.fds fd d }

theorem setFd_fds_self (s : Wrapper) (fd : ℕ) (d : Option Descriptor) :
    (s.setFd fd d).fds fd = d := Function.update_self ..

theorem setFd_fds_of_ne (s : Wrapper) {fd n : ℕ} (h : n ≠ fd) (d : Option Descriptor) :
    (s.setFd fd d).fds n = s.fds n := Function.update_of_ne h _ _

/-- `Stat`: the return value and `*buf`. -/
def stat (s : Wrapper) (path : Bytes) : Wrapper × ℤ × Option Stat :=
  let r := s.tfs (.getAttr path)
  (r.1, r.2.ret, r.2.stat)

/-- `Mknod` -/
def mknod (s : Wrapper) (path : Bytes) (mode : UInt32) (dev : UInt64) : Wrapper × ℤ :=
  let r := s.stat path
  if r.2.1 = 0 then ({ r.1 with fs := r.1.fs.setErrno EEXIST }, -1)
  else
    let t := (r.1.tfs (.makeNode path mode dev)).1.stat path
    (t.1, t.2.1)

/-- `Mkdir` -/
def mkdir (s : Wrapper) (path : Bytes) (mode : UInt32) : Wrapper × ℤ :=
  let r := s.stat path
  if r.2.1 = 0 then (r.1, -1)
  else
    let t := (r.1.tfs (.makeDir path mode)).1.stat path
    (t.1, t.2.1)

/-- `Chmod` -/
def chmod (s : Wrapper) (path : Bytes) (mode : UInt32) : Wrapper × ℤ :=
  let t := ((s.stat path).1.tfs (.chmod path mode)).1.stat path
  (t.1, t.2.1)

/-- `Open`. Without a free descriptor the source writes in front of its tables; here
nothing happens. -/
def openFile (s : Wrapper) (path : Bytes) (flags : OpenFlags) : Wrapper × ℤ :=
  match s.getFileDescriptor with
  | none => (s, -1)
  | some fd =>
      let r := s.tfs (.openFile path flags)
      match r.2.fh with
      | some fh => if r.2.ret = 0 then (r.1.setFd fd (some ⟨path, 0, flags, fh⟩), fd) else (r.1, -1)
      | none => (r.1, -1)

/-- `Seek` -/
def seek (s : Wrapper) (fd : ℕ) (offset : ℤ) : Wrapper × ℤ :=
  match s.fds fd with
  | none => (s, 0)
  | some d => (s.setFd fd (some { d with offset := offset }), 0)

/-- What `Read` and `Write` do to the offset. -/
def advance (s : Wrapper) (fd : ℕ) (d : Descriptor) (ret : ℤ) : Wrapper :=
  if ret < 0 then s else s.setFd fd (some { d with offset := d.offset + ret })

/-- `Write` -/
def write (s : Wrapper) (fd : ℕ) (buf : Bytes) : Wrapper × ℤ :=
  match s.fds fd with
  | none => (s, 0)
  | some d =>
      let r := s.tfs (.write d.fh buf d.offset)
      (r.1.advance fd d r.2.ret, r.2.ret)

/-- `Read` -/
def read (s : Wrapper) (fd size : ℕ) : Wrapper × ℤ :=
  match s.fds fd with
  | none => (s, 0)
  | some d =>
      let r := s.tfs (.read d.fh size d.offset)
      (r.1.advance fd d r.2.ret, r.2.ret)

/-- `Close` -/
def close (s : Wrapper) (fd : ℕ) : Wrapper × ℤ :=
  match s.fds fd with
  | none => (s, 0)
  | some d =>
      let r := s.tfs (.release d.fh)
      (r.1.setFd fd none, r.2.ret)

/-! ### Directories -/

/-- The names a callback is called with: the last one may be refused. -/
def calledWith (filler : ℕ → Bool) : ℕ → List Bytes → List Bytes
  | _, [] => []
  | n, name :: names => if filler n then name :: calledWith filler (n + 1) names else [name]

/-- The names that `ReadDir` has for its callback. The iterator is on a snapshot, so what
the callback does in between does not change them. -/
def dirNames (s : Wrapper) (handle : ℕ) : List Bytes :=
  [46] :: [46, 46] ::
    (s.fs.dirEntries (getAttribute (s.fs.store.value handle)).st_ino).map fun e => nameOf e.2

/-- `OpenDir` and `ReadDir` with a callback that is called for its effect on the state.
The return value is the number of calls, or -1. -/
def forEntries (s : Wrapper) (path : Bytes) (filler : ℕ → Bool)
    (callback : Wrapper → Bytes → Wrapper) : Wrapper × ℤ :=
  let r := s.tfs (.openDir path)
  match r.2.fh with
  | none => (r.1, -1)
  | some handle =>
      let names := calledWith filler 0 (r.1.dirNames handle)
      let ret := (r.1.fs.readDir handle filler).2.1
      (names.foldl callback r.1, if ret ≠ 0 then -1 else names.length)

/-- The path of a directory's entry. -/
def entryPath (path name : Bytes) : Bytes := path ++ PATH_DELIMITER :: name

/-- The reads of `scanfile_filler` on one file. -/
def scanLoop (fd : ℕ) (st_size : ℤ) : ℕ → ℤ → Wrapper → Wrapper
  | 0, _, s => s
  | fuel + 1, read_size, s =>
      if read_size < st_size then
        let r := s.read fd 4096
        if r.2 = 0 then r.1 else scanLoop fd st_size fuel (read_size + r.2) r.1
      else s

/-- `scanfile_filler`. `statbuf` is uninitialised when `Stat` fails; when `Open` fails the
source reads in front of its tables, and here nothing happens. -/
def scanEntry (path : Bytes) (fuel : ℕ) (s : Wrapper) (name : Bytes) : Wrapper :=
  let r := s.stat (entryPath path name)
  let statbuf := r.2.2.getD (Stat.ofBytes (r.1.fs.newBuffer TFS_INODE_ATTR_SIZE))
  let o := r.1.openFile (entryPath path name) ⟨.rdOnly, false⟩
  if 0 ≤ o.2 then
    ((scanLoop o.2.toNat (offT statbuf.st_size) fuel 0 o.1).close o.2.toNat).1
  else o.1

/-! ### Every call -/

/-- One call: the state and the return value. -/
def call (s : Wrapper) : WrapperOp → Wrapper × ℤ
  | .mknod path mode dev => s.mknod path mode dev
  | .mkdir path mode => s.mkdir path mode
  | .utime path actime modtime =>
      let r := s.tfs (.updateTimens path actime modtime); (r.1, r.2.ret)
  | .chmod path mode => s.chmod path mode
  | .stat path => let r := s.stat path; (r.1, r.2.1)
  | .openFile path flags => s.openFile path flags
  | .seek fd offset => s.seek fd offset
  | .write fd buf => s.write fd buf
  | .read fd size => s.read fd size
  | .close fd => s.close fd
  | .listdir path filler => s.forEntries path filler fun s _ => s
  | .lsstat path filler => s.forEntries path filler fun s name => (s.stat (entryPath path name)).1
  | .scanfile path filler fuel => s.forEntries path filler (scanEntry path fuel)
  | .rename old_path new_path =>
      let r := s.tfs (.rename old_path new_path); (r.1, if r.2.ret ≠ 0 then -1 else 0)
  | .unlink path => let r := s.tfs (.unlink path); (r.1, if r.2.ret ≠ 0 then -1 else 0)

/-- The state after a call. -/
def next (s : Wrapper) (op : WrapperOp) : Wrapper := (s.call op).1

/-- `Setup` on what is durable. -/
def setup (d : Durable) (cfg : MountConfig) : Wrapper := ⟨mount d cfg, fun _ => none⟩

/-! ## What should hold -/

/-- The references that callers hold on inode handles. -/
def references (s : Wrapper) : ℕ :=
  ∑ i ∈ Finset.range s.fs.store.cache.next, s.fs.store.cache.pins i

/-- The descriptors that are open. -/
def descriptors (s : Wrapper) : Finset ℕ := (Finset.range FDLIMIT).filter fun fd => s.fds fd ≠ none

/-- The descriptor's file is open on the inode handle. -/
def Uses (s : Wrapper) (fd i : ℕ) : Prop :=
  ((s.fds fd).bind fun d => s.fs.files d.fh).map FileHandle.handle_ = some i

/-- References and descriptors balance, and no reference outlives the descriptors that
use its handle. -/
structure Balanced (s : Wrapper) : Prop where
  total : s.references = s.descriptors.card
  unused : ∀ i, (∀ fd, ¬ s.Uses fd i) → s.fs.store.cache.pins i = 0

/-- The path leads to a record. -/
def Leads (s : Wrapper) (path : Bytes) : Prop :=
  (s.fs.pathLookup path).2.bind s.fs.store.lookup ≠ none

/-- The call opens no directory. -/
def OpensNoDir (s : Wrapper) : WrapperOp → Prop
  | .listdir path _ | .lsstat path _ | .scanfile path _ _ => ¬ s.Leads path
  | _ => True

end Wrapper

/-! ## The files and directories a call leaves open -/

namespace World

/-- The same files are open in both states, and the same directories. -/
def SameOpen (w w' : World) : Prop :=
  (∀ n, (w'.files n).isSome = (w.files n).isSome) ∧ w'.dirs = w.dirs

theorem SameOpen.trans {w w' w'' : World} (h : w.SameOpen w') (h' : w'.SameOpen w'') :
    w.SameOpen w'' := ⟨fun n => (h'.1 n).trans (h.1 n), h'.2.trans h.2⟩

theorem UpToData.sameOpen {w w' : World} (h : w.UpToData w') : w.SameOpen w' := by
  obtain ⟨os, log, _, rfl⟩ := h
  exact ⟨fun _ => rfl, rfl⟩

theorem Looked.sameOpen {w w' : World} (h : w.Looked w') : w.SameOpen w' :=
  ⟨fun n => by rw [h.files], h.dirs⟩

theorem setFd_sameOpen {w w' : World} {fh : ℕ} {f : FileHandle} (hf : w.files fh = some f)
    (hw : w'.files = w.files ∧ w'.dirs = w.dirs) (fd : ℤ) : w.SameOpen (w'.setFd fh f fd) := by
  refine ⟨fun n => ?_, hw.2⟩
  show (Function.update w'.files fh (some { f with fd_ := fd }) n).isSome = _
  by_cases hn : n = fh
  · subst hn
    rw [Function.update_self, hf]
    rfl
  · rw [Function.update_of_ne hn, hw.1]

/-- An effect that neither opens nor closes a file or a directory. -/
theorem perform_sameOpen (w : World) (e : Effect) (ho : ∀ k fl fd, e ≠ .openFile k fl fd)
    (hd : ∀ k, e ≠ .openDir k) (hc : ∀ fh v, e ≠ .close fh v) (hcd : ∀ i, e ≠ .closeDir i) :
    w.SameOpen (w.perform e) := by
  have hget : ∀ {k m w' o}, w.cacheGet k m = (w', o) → w'.files = w.files ∧ w'.dirs = w.dirs := by
    intro k m w' o hg
    rw [← (Prod.mk.inj hg).1]
    exact ⟨rfl, rfl⟩
  have hsame : ∀ {w' : World}, w'.files = w.files ∧ w'.dirs = w.dirs → w.SameOpen w' :=
    fun h => ⟨fun n => by rw [h.1], h.2⟩
  cases e with
  | openFile k fl fd => exact absurd rfl (ho k fl fd)
  | openDir k => exact absurd rfl (hd k)
  | close fh v => exact absurd rfl (hc fh v)
  | closeDir i => exact absurd rfl (hcd i)
  | touch key mode =>
      simp only [perform]
      rcases hg : w.cacheGet key mode with ⟨w', _ | i⟩ <;> exact hsame (hget hg :)
  | edit key value =>
      simp only [perform]
      rcases hg : w.cacheGet key .write with ⟨w', _ | i⟩ <;> exact hsame (hget hg :)
  | remove key =>
      simp only [perform]
      rcases hg : w.cacheGet key .delete with ⟨w', _ | i⟩ <;> exact hsame (hget hg :)
  | move old_key new_key filename =>
      simp only [perform]
      rcases hg : w.cacheGet old_key .delete with ⟨w', _ | i⟩
      · exact hsame (hget hg :)
      · refine hsame ⟨?_, ?_⟩
        · rw [setDentry_files, renameHandles_files]
          exact (hget hg).1
        · rw [setDentry_dirs, renameHandles_dirs]
          exact (hget hg).2
  | setFd fh fd =>
      simp only [perform]
      cases hf : w.files fh with
      | none => exact hsame ⟨rfl, rfl⟩
      | some f => exact setFd_sameOpen hf ⟨rfl, rfl⟩ fd
  | write fh value fd =>
      simp only [perform]
      cases hf : w.files fh with
      | none => exact hsame ⟨rfl, rfl⟩
      | some f => exact setFd_sameOpen hf ⟨rfl, rfl⟩ fd
  | _ => exact hsame ⟨rfl, rfl⟩

/-- The calls that open or close nothing. -/
def LeavesOpen : Op → Prop
  | .openFile _ _ | .release _ | .openDir _ | .releaseDir _ => False
  | _ => True

theorem step_sameOpen (w : World) {op : Op} (hop : LeavesOpen op) : w.SameOpen (w.next op) := by
  obtain ⟨w₁, e, hl, _, hp, hu⟩ := w.step_steps op
  refine (hl.sameOpen.trans (perform_sameOpen w₁ e ?_ ?_ ?_ ?_)).trans hu.sameOpen
  · rintro k fl fd rfl
    cases hp
    exact hop
  · rintro k rfl
    cases hp
    exact hop
  · rintro fh v rfl
    cases hp
    exact hop
  · rintro i rfl
    cases hp
    exact hop

/-- A data-file call that fails leaves an error number. -/
theorem sysOpen_errno (w : World) (path : BlobPath) (flags : OpenFlags) (creat : Bool)
    (h : (w.sysOpen path flags creat).2 < 0) : (w.sysOpen path flags creat).1.os.errno ≠ 0 := by
  rcases hn : w.nextIo with ⟨o, w'⟩
  have hfd : ∀ w'' : World, ¬ (w''.lowestFd : ℤ) < 0 := fun _ => by omega
  cases o with
  | fail e =>
      simp only [sysOpen, hn]
      exact e.ne_zero
  | _ =>
      simp only [sysOpen, hn] at h ⊢
      split at h
      · exact absurd h (hfd _)
      · split at h
        · exact absurd h (hfd _)
        · rename_i hc
          simp only [if_neg hc]
          exact (by decide : ENOENT ≠ 0)

/-- `Open` fails and opens nothing, or opens one file. -/
theorem openFile_opens (w : World) (path : Bytes) (flags : OpenFlags) :
    ((w.openFile path flags).2.1 ≠ 0 ∧ (w.openFile path flags).2.2 = none ∧
        w.SameOpen (w.openFile path flags).1) ∨
      ((w.openFile path flags).2.1 = 0 ∧ (w.openFile path flags).2.2 = some w.nextFile ∧
        (w.openFile path flags).1.dirs = w.dirs ∧
        ∃ f, (w.openFile path flags).1.files = Function.update w.files w.nextFile (some f)) := by
  have hl := w.pathLookup_looked path
  have herr := w.pathLookup_errno path
  rcases hp : w.pathLookup path with ⟨w₁, _ | key⟩
  · rw [hp] at hl herr
    left
    simp only [openFile, hp]
    refine ⟨?_, trivial, hl.sameOpen⟩
    rw [fsError, show w₁.os.errno = ENOENT from herr]
    decide
  · rw [hp] at hl
    simp only [openFile, hp]
    rcases hg : (w₁.writeLock key).cacheGet key (openMode flags) with ⟨w', _ | i⟩
    · left
      refine ⟨(by decide : (-(ENOENT : ℤ)) ≠ 0), rfl, ?_⟩
      rw [(cacheGet_none hg).1]
      exact hl.sameOpen
    · obtain ⟨s, _, rfl⟩ := cacheGet_some hg
      dsimp only
      have hfiles : ((w₁.writeLock key).setStore s).files = w.files := hl.files
      have hnext : ((w₁.writeLock key).setStore s).nextFile = w.nextFile := hl.nextFile
      have hdirs : ((w₁.writeLock key).setStore s).dirs = w.dirs := hl.dirs
      generalize (w₁.writeLock key).setStore s = w₂ at hfiles hnext hdirs ⊢
      have hadd : ∀ {w₃ : World} (fd : ℤ), w₂.UpToData w₃ →
          ((w₃.addFile ⟨i, flags, fd⟩).unlock key).dirs = w.dirs ∧ w₃.nextFile = w.nextFile ∧
          ∃ f, ((w₃.addFile ⟨i, flags, fd⟩).unlock key).files
            = Function.update w.files w.nextFile (some f) := by
        rintro w₃ fd ⟨os, log, _, rfl⟩
        refine ⟨hdirs, hnext, ⟨i, flags, fd⟩, ?_⟩
        show Function.update w₂.files w₂.nextFile _ = _
        rw [hfiles, hnext]
      split
      · have hu := w₂.upToData_sysOpen (getDiskFilePath (w₂.iheader i).fstat.st_ino) flags true
        split
        · rename_i hneg
          left
          have he := sysOpen_errno _ _ _ _ hneg
          refine ⟨?_, rfl, ?_⟩
          · show -((World.openDiskFile _ _ _).1.os.errno : ℤ) ≠ 0
            intro h0
            exact he (by exact_mod_cast neg_eq_zero.mp h0)
          · have hs := hu.sameOpen
            exact ⟨fun n => (hs.1 n).trans (by rw [hfiles]), hs.2.trans hdirs⟩
        · right
          obtain ⟨hd, hn, hf⟩ := hadd (w₂.openDiskFile (w₂.iheader i) flags).2 hu
          exact ⟨rfl, congrArg some hn, hd, hf⟩
      · right
        obtain ⟨hd, hn, hf⟩ := hadd (-1) (UpToData.refl w₂)
        exact ⟨rfl, congrArg some hn, hd, hf⟩

/-- `Release` closes the file. -/
theorem release_closes (w : World) (fh : ℕ) :
    (∀ n, ((w.release fh).1.files n).isSome = ((w.files n).isSome && n != fh)) ∧
      (w.release fh).1.dirs = w.dirs := by
  cases hf : w.files fh with
  | none =>
      rw [release, hf]
      refine ⟨fun n => ?_, rfl⟩
      by_cases hn : n = fh
      · subst hn
        simp [hf]
      · simp [hn]
  | some f =>
      obtain ⟨os, log, _, hu⟩ := release_some hf
      rw [hu]
      simp only [perform, hf]
      refine ⟨fun n => ?_, rfl⟩
      show (Function.update w.files fh none n).isSome = _
      by_cases hn : n = fh
      · subst hn
        simp
      · simp [hn]

/-- `OpenDir` hands out a handle if the path leads to a record. -/
theorem openDir_opens (w : World) (path : Bytes) :
    ((w.pathLookup path).2.bind w.store.lookup = none ∧ (w.openDir path).2.2 = none ∧
        w.SameOpen (w.openDir path).1) ∨
      ((w.pathLookup path).2.bind w.store.lookup ≠ none ∧ ∃ i, (w.openDir path).2.2 = some i ∧
        (w.openDir path).1.files = w.files ∧ (w.openDir path).1.dirs = i :: w.dirs) := by
  have hl := w.pathLookup_looked path
  rcases hp : w.pathLookup path with ⟨w₁, _ | key⟩
  · rw [hp] at hl
    left
    simp only [openDir, hp]
    exact ⟨rfl, trivial, hl.sameOpen⟩
  · rw [hp] at hl
    simp only [openDir, hp]
    have hlook : (w₁.readLock key).store.lookup key = w.store.lookup key := congrFun hl.lookup key
    rcases hg : (w₁.readLock key).cacheGet key .read with ⟨w', _ | i⟩
    · left
      obtain ⟨rfl, hn⟩ := cacheGet_none hg
      refine ⟨?_, rfl, hl.sameOpen⟩
      rw [Option.bind_some, ← hlook]
      exact hn
    · right
      obtain ⟨s, hs, rfl⟩ := cacheGet_some hg
      refine ⟨?_, i, rfl, hl.files, congrArg (i :: ·) hl.dirs⟩
      rw [Option.bind_some, ← hlook, Store.get_lookup hs]
      exact Option.some_ne_none _

end World

/-! ## Descriptors and open files -/

namespace Wrapper

/-- The open files are those of the descriptors, one each. -/
structure Sound (s : Wrapper) : Prop where
  accounted : s.fs.Accounted
  lt : ∀ fd d, s.fds fd = some d → fd < FDLIMIT
  opened : ∀ fd d, s.fds fd = some d → (s.fs.files d.fh).isSome
  injective : ∀ fd fd' d d', s.fds fd = some d → s.fds fd' = some d' → d.fh = d'.fh → fd = fd'
  covered : ∀ n, (s.fs.files n).isSome → ∃ fd d, s.fds fd = some d ∧ d.fh = n

/-- `s'` is sound if `s` is, and has the same directories open. -/
def Keeps (s s' : Wrapper) : Prop := (s.Sound → s'.Sound) ∧ s'.fs.dirs = s.fs.dirs

theorem Keeps.refl (s : Wrapper) : s.Keeps s := ⟨id, rfl⟩

theorem Keeps.trans {s s' s'' : Wrapper} (h : s.Keeps s') (h' : s'.Keeps s'') : s.Keeps s'' :=
  ⟨h'.1 ∘ h.1, h'.2.trans h.2⟩

/-- The file system changed, but not which files are open. -/
theorem Sound.withFs {s : Wrapper} (h : s.Sound) {w : World} (ha : w.Accounted)
    (hf : ∀ n, (w.files n).isSome = (s.fs.files n).isSome) : Sound { s with fs := w } where
  accounted := ha
  lt := h.lt
  opened := fun fd d hd => (hf d.fh).trans (h.opened fd d hd)
  injective := h.injective
  covered := fun n hn => h.covered n ((hf n).symm.trans hn)

/-- The entry of a descriptor changed, but not its open file. -/
theorem Sound.setFd {s : Wrapper} (h : s.Sound) {fd : ℕ} {d d' : Descriptor}
    (hd : s.fds fd = some d) (hfh : d'.fh = d.fh) : (s.setFd fd (some d')).Sound := by
  have hback : ∀ n e, (s.setFd fd (some d')).fds n = some e → ∃ e', s.fds n = some e' ∧
      e'.fh = e.fh := by
    intro n e he
    by_cases hn : n = fd
    · subst hn
      rw [setFd_fds_self] at he
      cases he
      exact ⟨d, hd, hfh.symm⟩
    · rw [setFd_fds_of_ne _ hn] at he
      exact ⟨e, he, rfl⟩
  refine ⟨h.accounted, ?_, ?_, ?_, ?_⟩
  · intro n e he
    obtain ⟨e', he', _⟩ := hback n e he
    exact h.lt n e' he'
  · intro n e he
    obtain ⟨e', he', hfh'⟩ := hback n e he
    rw [← hfh']
    exact h.opened n e' he'
  · intro n m e e₂ he he₂ hee
    obtain ⟨e', he', hfh'⟩ := hback n e he
    obtain ⟨e₂', he₂', hfh₂'⟩ := hback m e₂ he₂
    exact h.injective n m e' e₂' he' he₂' (by rw [hfh', hfh₂', hee])
  · intro n hn
    obtain ⟨fd', e, he, rfl⟩ := h.covered n hn
    by_cases hfd : fd' = fd
    · subst hfd
      rw [hd] at he
      cases he
      exact ⟨fd', d', setFd_fds_self .., hfh⟩
    · exact ⟨fd', e, by rw [setFd_fds_of_ne _ hfd, he], rfl⟩

/-- A call of `fs` that opens or closes nothing. -/
theorem keeps_tfs (s : Wrapper) (op : Op) (hop : World.LeavesOpen op) : s.Keeps (s.tfs op).1 :=
  have hs := s.fs.step_sameOpen hop
  ⟨fun h => h.withFs (h.accounted.step op) hs.1, hs.2⟩

theorem keeps_stat (s : Wrapper) (path : Bytes) : s.Keeps (s.stat path).1 :=
  s.keeps_tfs (.getAttr path) trivial

/-- `GetFileDescriptor` gives a descriptor that is not open. -/
theorem getFileDescriptor_free {s : Wrapper} {fd : ℕ} (h : s.getFileDescriptor = some fd) :
    fd < FDLIMIT ∧ s.fds fd = none :=
  ⟨List.mem_range.mp (List.mem_of_find?_eq_some h), by simpa using List.find?_some h⟩

theorem keeps_openFile (s : Wrapper) (path : Bytes) (flags : OpenFlags) :
    s.Keeps (s.openFile path flags).1 := by
  rw [openFile]
  cases hfd : s.getFileDescriptor with
  | none => exact Keeps.refl s
  | some fd =>
      obtain ⟨hlt, hfree⟩ := getFileDescriptor_free hfd
      have hacc : s.Sound → (s.fs.openFile path flags).1.Accounted := fun h =>
        h.accounted.step (.openFile path flags)
      dsimp only [tfs, World.step]
      rcases s.fs.openFile_opens path flags with ⟨hret, hfh, hs⟩ | ⟨hret, hfh, hdirs, f, hf⟩
      · rw [hfh]
        exact ⟨fun h => h.withFs (hacc h) hs.1, hs.2⟩
      · rw [hfh]
        dsimp only
        rw [if_pos hret]
        refine ⟨fun h => ?_, hdirs⟩
        -- the new file's number is not one that a descriptor has
        have hnew : ∀ n e, s.fds n = some e → e.fh ≠ s.fs.nextFile := by
          rintro n e he heq
          have hopen := h.opened n e he
          rw [heq, h.accounted.files_lt _ (Nat.le_refl _)] at hopen
          cases hopen
        have hfds : ∀ n, n ≠ fd → (Wrapper.setFd { s with fs := (s.fs.openFile path flags).1 } fd
            (some ⟨path, 0, flags, s.fs.nextFile⟩)).fds n = s.fds n := fun n hn =>
          setFd_fds_of_ne _ hn _
        have hself : (Wrapper.setFd { s with fs := (s.fs.openFile path flags).1 } fd
            (some ⟨path, 0, flags, s.fs.nextFile⟩)).fds fd
              = some ⟨path, 0, flags, s.fs.nextFile⟩ := setFd_fds_self ..
        refine ⟨hacc h, ?_, ?_, ?_, ?_⟩
        · intro n e he
          by_cases hn : n = fd
          · exact hn ▸ hlt
          · rw [hfds n hn] at he
            exact h.lt n e he
        · intro n e he
          show ((s.fs.openFile path flags).1.files e.fh).isSome = true
          rw [hf]
          by_cases hn : n = fd
          · subst hn
            rw [hself] at he
            cases he
            rw [Function.update_self]
            rfl
          · rw [hfds n hn] at he
            rw [Function.update_of_ne (hnew n e he)]
            exact h.opened n e he
        · intro n m e e₂ he he₂ hee
          by_cases hn : n = fd <;> by_cases hm : m = fd
          · rw [hn, hm]
          · subst hn
            rw [hself] at he
            cases he
            rw [hfds m hm] at he₂
            exact absurd hee.symm (hnew m e₂ he₂)
          · subst hm
            rw [hself] at he₂
            cases he₂
            rw [hfds n hn] at he
            exact absurd hee (hnew n e he)
          · rw [hfds n hn] at he
            rw [hfds m hm] at he₂
            exact h.injective n m e e₂ he he₂ hee
        · intro n hn
          have hn' : ((s.fs.openFile path flags).1.files n).isSome = true := hn
          rw [hf] at hn'
          by_cases hnf : n = s.fs.nextFile
          · exact ⟨fd, _, hself, hnf.symm⟩
          · rw [Function.update_of_ne hnf] at hn'
            obtain ⟨m, e, he, rfl⟩ := h.covered n hn'
            have hm : m ≠ fd := by
              rintro rfl
              rw [hfree] at he
              cases he
            exact ⟨m, e, by rw [hfds m hm, he], rfl⟩

theorem keeps_close (s : Wrapper) (fd : ℕ) : s.Keeps (s.close fd).1 := by
  rw [close]
  cases hd : s.fds fd with
  | none => exact Keeps.refl s
  | some d =>
      have hacc : s.Sound → (s.fs.release d.fh).1.Accounted := fun h =>
        h.accounted.step (.release d.fh)
      obtain ⟨hfiles, hdirs⟩ := s.fs.release_closes d.fh
      refine ⟨fun h => ?_, hdirs⟩
      have hback : ∀ n e, ((s.tfs (.release d.fh)).1.setFd fd none).fds n = some e →
          n ≠ fd ∧ s.fds n = some e := by
        intro n e he
        by_cases hn : n = fd
        · subst hn
          rw [setFd_fds_self] at he
          cases he
        · rw [setFd_fds_of_ne _ hn] at he
          exact ⟨hn, he⟩
      refine ⟨hacc h, ?_, ?_, ?_, ?_⟩
      · intro n e he
        exact h.lt n e (hback n e he).2
      · intro n e he
        obtain ⟨hn, he'⟩ := hback n e he
        show ((s.fs.release d.fh).1.files e.fh).isSome = true
        rw [hfiles, h.opened n e he', Bool.true_and, bne_iff_ne]
        intro heq
        exact hn (h.injective n fd e d he' hd heq)
      · intro n m e e₂ he he₂ hee
        exact h.injective n m e e₂ (hback n e he).2 (hback m e₂ he₂).2 hee
      · intro n hn
        have hn' : ((s.fs.release d.fh).1.files n).isSome = true := hn
        rw [hfiles, Bool.and_eq_true, bne_iff_ne] at hn'
        obtain ⟨m, e, he, rfl⟩ := h.covered n hn'.1
        have hm : m ≠ fd := by
          rintro rfl
          rw [hd] at he
          cases he
          exact hn'.2 rfl
        exact ⟨m, e, by rw [setFd_fds_of_ne _ hm]; exact he, rfl⟩

theorem keeps_advance (s : Wrapper) {fd : ℕ} {d : Descriptor} (hd : s.fds fd = some d) (ret : ℤ) :
    s.Keeps (s.advance fd d ret) := by
  rw [advance]
  split
  · exact Keeps.refl s
  · exact ⟨fun h => h.setFd hd rfl, rfl⟩

theorem keeps_read (s : Wrapper) (fd size : ℕ) : s.Keeps (s.read fd size).1 := by
  rw [read]
  cases hd : s.fds fd with
  | none => exact Keeps.refl s
  | some d =>
      have ht := s.keeps_tfs (.read d.fh size d.offset) trivial
      exact ht.trans (keeps_advance _ (show (s.tfs _).1.fds fd = some d from hd) _)

theorem keeps_write (s : Wrapper) (fd : ℕ) (buf : Bytes) : s.Keeps (s.write fd buf).1 := by
  rw [write]
  cases hd : s.fds fd with
  | none => exact Keeps.refl s
  | some d =>
      have ht := s.keeps_tfs (.write d.fh buf d.offset) trivial
      exact ht.trans (keeps_advance _ (show (s.tfs _).1.fds fd = some d from hd) _)

theorem keeps_scanLoop (fd : ℕ) (st_size : ℤ) (fuel : ℕ) (read_size : ℤ) (s : Wrapper) :
    s.Keeps (scanLoop fd st_size fuel read_size s) := by
  induction fuel generalizing read_size s with
  | zero => exact Keeps.refl s
  | succ fuel ih =>
      have hr := s.keeps_read fd 4096
      rw [scanLoop]
      dsimp only
      split
      · split
        · exact hr
        · exact hr.trans (ih _ _)
      · exact Keeps.refl s

theorem keeps_scanEntry (path : Bytes) (fuel : ℕ) (s : Wrapper) (name : Bytes) :
    s.Keeps (scanEntry path fuel s name) := by
  have hs := s.keeps_stat (entryPath path name)
  have ho := hs.trans (keeps_openFile _ (entryPath path name) ⟨.rdOnly, false⟩)
  rw [scanEntry]
  split
  · exact (ho.trans (keeps_scanLoop _ _ _ _ _)).trans (keeps_close _ _)
  · exact ho

/-! ## Every call -/

/-- A call opens no directory and gives back what it takes, or it is one that leaves the
directory it opens open. -/
theorem call_cases (s : Wrapper) (op : WrapperOp) :
    (s.OpensNoDir op ∧ s.Keeps (s.next op)) ∨
      (¬ s.OpensNoDir op ∧ (s.Sound → (s.next op).Sound) ∧ (s.next op).fs.dirs ≠ []) := by
  have hfor : ∀ path filler (callback : Wrapper → Bytes → Wrapper),
      (∀ (t : Wrapper) name, t.Keeps (callback t name)) →
      (¬ s.Leads path ∧ s.Keeps (s.forEntries path filler callback).1) ∨
      (¬ ¬ s.Leads path ∧ (s.Sound → (s.forEntries path filler callback).1.Sound) ∧
        (s.forEntries path filler callback).1.fs.dirs ≠ []) := by
    intro path filler callback hcb
    have hacc : s.Sound → (s.fs.openDir path).1.Accounted := fun h =>
      h.accounted.step (.openDir path)
    have hfold : ∀ (names : List Bytes) (t : Wrapper), t.Keeps (names.foldl callback t) := by
      intro names
      induction names with
      | nil => exact Keeps.refl
      | cons name names ih => exact fun t => (hcb t name).trans (ih _)
    rw [forEntries]
    dsimp only [tfs, World.step]
    rcases s.fs.openDir_opens path with ⟨hleads, hfh, hs⟩ | ⟨hleads, i, hfh, hf, hd⟩
    · left
      rw [hfh]
      exact ⟨not_not.mpr hleads, fun h => h.withFs (hacc h) hs.1, hs.2⟩
    · right
      rw [hfh]
      refine ⟨not_not.mpr hleads, fun h => (hfold _ _).1 (h.withFs (hacc h) ?_), ?_⟩
      · exact fun n => by rw [hf]
      · dsimp only
        rw [(hfold _ _).2]
        dsimp only
        rw [hd]
        exact List.cons_ne_nil _ _
  have hkeep : ∀ {t : Wrapper}, s.Keeps t → (True ∧ s.Keeps t) ∨
      (¬ True ∧ (s.Sound → t.Sound) ∧ t.fs.dirs ≠ []) := fun h => Or.inl ⟨trivial, h⟩
  cases op with
  | mknod path mode dev =>
      refine hkeep ?_
      have hs := s.keeps_stat path
      simp only [next, call, mknod]
      split
      · exact hs.trans ⟨fun h => h.withFs (h.accounted.congr rfl rfl rfl rfl) fun _ => rfl, rfl⟩
      · exact (hs.trans (keeps_tfs _ (.makeNode path mode dev) trivial)).trans (keeps_stat _ _)
  | mkdir path mode =>
      refine hkeep ?_
      have hs := s.keeps_stat path
      simp only [next, call, mkdir]
      split
      · exact hs
      · exact (hs.trans (keeps_tfs _ (.makeDir path mode) trivial)).trans (keeps_stat _ _)
  | utime path actime modtime =>
      exact hkeep (s.keeps_tfs (.updateTimens path actime modtime) trivial)
  | chmod path mode =>
      exact hkeep (((s.keeps_stat path).trans
        (keeps_tfs _ (.chmod path mode) trivial)).trans (keeps_stat _ _))
  | stat path => exact hkeep (s.keeps_stat path)
  | openFile path flags => exact hkeep (s.keeps_openFile path flags)
  | seek fd offset =>
      refine hkeep ?_
      simp only [next, call, seek]
      cases hd : s.fds fd with
      | none => exact Keeps.refl s
      | some d => exact ⟨fun h => h.setFd hd rfl, rfl⟩
  | write fd buf => exact hkeep (s.keeps_write fd buf)
  | read fd size => exact hkeep (s.keeps_read fd size)
  | close fd => exact hkeep (s.keeps_close fd)
  | listdir path filler => exact hfor path filler _ fun t _ => Keeps.refl t
  | lsstat path filler => exact hfor path filler _ fun t name => t.keeps_stat _
  | scanfile path filler fuel => exact hfor path filler _ (keeps_scanEntry path fuel)
  | rename old_path new_path => exact hkeep (s.keeps_tfs (.rename old_path new_path) trivial)
  | unlink path => exact hkeep (s.keeps_tfs (.unlink path) trivial)

theorem Sound.next {s : Wrapper} (h : s.Sound) (op : WrapperOp) : (s.next op).Sound := by
  rcases s.call_cases op with ⟨_, hk⟩ | ⟨_, hk, _⟩
  · exact hk.1 h
  · exact hk h

/-! ## The balance -/

/-- An open file's handle is one of the cache's. -/
theorem Sound.handle_lt {s : Wrapper} (h : s.Sound) {n : ℕ} {f : FileHandle}
    (hf : s.fs.files n = some f) : f.handle_ < s.fs.store.cache.next := by
  by_contra hge
  have hpin := h.accounted.pinned_of_file hf
  rw [s.fs.store.cache.pins_fresh _ (by omega)] at hpin
  exact absurd hpin (Nat.lt_irrefl 0)

/-- The references on inode handles are those of the open files and directories. -/
theorem Sound.references_eq {s : Wrapper} (h : s.Sound) :
    s.references = s.descriptors.card
      + ∑ i ∈ Finset.range s.fs.store.cache.next, s.fs.dirs.count i := by
  have hfile : ∀ n, ∑ i ∈ Finset.range s.fs.store.cache.next, World.uses (s.fs.files n) i
      = if (s.fs.files n).isSome then 1 else 0 := by
    intro n
    cases hf : s.fs.files n with
    | none => simp
    | some f =>
        rw [Finset.sum_eq_single_of_mem f.handle_ (Finset.mem_range.mpr (h.handle_lt hf))
          fun i _ hi => World.uses_of_ne (Ne.symm hi), World.uses_self]
        rfl
  have hswap : ∑ i ∈ Finset.range s.fs.store.cache.next, s.fs.fileRefs i
      = ((Finset.range s.fs.nextFile).filter fun n => (s.fs.files n).isSome).card := by
    simp only [World.fileRefs]
    rw [Finset.sum_comm, Finset.sum_congr rfl fun n _ => hfile n, Finset.card_filter]
  -- descriptors and open files are in bijection
  have hcard : s.descriptors.card
      = ((Finset.range s.fs.nextFile).filter fun n => (s.fs.files n).isSome).card := by
    have hfds : ∀ fd ∈ s.descriptors, ∃ d, s.fds fd = some d := fun fd hfd =>
      Option.ne_none_iff_exists'.mp (Finset.mem_filter.mp hfd).2
    refine Finset.card_bij (fun fd _ => ((s.fds fd).map Descriptor.fh).getD 0) ?_ ?_ ?_
    · intro fd hfd
      obtain ⟨d, hd⟩ := hfds fd hfd
      have hopen := h.opened fd d hd
      obtain ⟨f, hf⟩ := Option.isSome_iff_exists.mp hopen
      rw [hd]
      exact Finset.mem_filter.mpr ⟨Finset.mem_range.mpr (h.accounted.lt hf), hopen⟩
    · intro fd hfd fd' hfd' heq
      obtain ⟨d, hd⟩ := hfds fd hfd
      obtain ⟨d', hd'⟩ := hfds fd' hfd'
      rw [hd, hd'] at heq
      exact h.injective fd fd' d d' hd hd' heq
    · intro n hn
      obtain ⟨fd, d, hd, rfl⟩ := h.covered n (Finset.mem_filter.mp hn).2
      refine ⟨fd, Finset.mem_filter.mpr ⟨Finset.mem_range.mpr (h.lt fd d hd), ?_⟩, ?_⟩
      · rw [hd]
        exact Option.some_ne_none d
      · rw [hd]
        rfl
  rw [references, hcard, ← hswap, ← Finset.sum_add_distrib]
  exact Finset.sum_congr rfl fun i _ => h.accounted.pins i

/-- References and descriptors balance as long as no directory is open. -/
theorem Sound.balanced_iff {s : Wrapper} (h : s.Sound) : s.Balanced ↔ s.fs.dirs = [] := by
  constructor
  · intro hb
    have htotal := hb.total
    rw [h.references_eq] at htotal
    cases hd : s.fs.dirs with
    | nil => rfl
    | cons i is =>
        have hi : i ∈ s.fs.dirs := by rw [hd]; exact List.mem_cons_self
        have hlt : i < s.fs.store.cache.next := by
          by_contra hge
          have hpin := h.accounted.pinned_of_dir hi
          rw [s.fs.store.cache.pins_fresh _ (by omega)] at hpin
          exact absurd hpin (Nat.lt_irrefl 0)
        have hle := Finset.single_le_sum (f := fun j => s.fs.dirs.count j)
          (fun _ _ => Nat.zero_le _) (Finset.mem_range.mpr hlt)
        have hpos := List.count_pos_iff.mpr hi
        omega
  · intro hd
    refine ⟨?_, fun i hi => ?_⟩
    · rw [h.references_eq, hd]
      simp
    · rw [h.accounted.pins, hd, List.count_nil, Nat.add_zero, World.fileRefs]
      refine Finset.sum_eq_zero fun n _ => ?_
      cases hf : s.fs.files n with
      | none => rfl
      | some f =>
          refine World.uses_of_ne fun hfi => ?_
          obtain ⟨fd, d, hfd, rfl⟩ := h.covered n (by rw [hf]; rfl)
          refine hi fd ?_
          rw [Uses, hfd, Option.bind_some, hf, ← hfi]
          rfl

theorem setup_sound (d : Durable) (cfg : MountConfig) : (setup d cfg).Sound := by
  refine ⟨mount_accounted d cfg, ?_, ?_, ?_, ?_⟩
  · intro fd e he
    cases he
  · intro fd e he
    cases he
  · intro fd fd' e e' he
    cases he
  · intro n hn
    rw [show (setup d cfg).fs.files n = none from (mount_open d cfg).1 n] at hn
    cases hn

/-- A directory is made and listed. -/
def listedRun : List WrapperOp := [.mkdir [47, 100] 0, .listdir [47, 100] fun _ => true]

end Wrapper

end Tablefs
