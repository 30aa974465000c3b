/-
What the calls that look at a path answer.

`GetAttr`, `Readlink` and `Read` of an opened file see of a state what the path leads to,
the record `Get` finds there and the one stored there, and the disk file of a record that
has a blob. Two states in which these are the same answer them alike (`sameAnswers`).
-/
import Tablefs.Attributes

set_option autoImplicit false

namespace Tablefs

open ByteString

/-- Two processes see the disk file at `path` alike, and have the same descriptors and the same
outcomes of system calls ahead. -/
structure SameFile (path : BlobPath) (o o' : Os) : Prop where
  names : o'.disk.names path = o.disk.names path
  subdir : o'.disk.subdirs path.1 = o.disk.subdirs path.1
  content : o'.disk.content = o.disk.content
  nextFile : o'.disk.nextFile = o.disk.nextFile
  fds : o'.fds = o.fds
  fdBound : o'.fdBound = o.fdBound
  ioFaults : o'.ioFaults = o.ioFaults

theorem SameFile.of_eq {path : BlobPath} {o o' : Os} (hd : o'.disk = o.disk) (hf : o'.fds = o.fds)
    (hb : o'.fdBound = o.fdBound) (hi : o'.ioFaults = o.ioFaults) : SameFile path o o' := by
  refine ⟨?_, ?_, ?_, ?_, hf, hb, hi⟩
  all_goals rw [hd]

theorem SameFile.trans {path : BlobPath} {o o' o'' : Os} (h : SameFile path o o')
    (h' : SameFile path o' o'') : SameFile path o o'' where
  names := h'.names.trans h.names
  subdir := h'.subdir.trans h.subdir
  content := h'.content.trans h.content
  nextFile := h'.nextFile.trans h.nextFile
  fds := h'.fds.trans h.fds
  fdBound := h'.fdBound.trans h.fdBound
  ioFaults := h'.ioFaults.trans h.ioFaults

namespace World

variable {w w' : World} {path : Bytes} {p : BlobPath}

/-! ## System calls on one file -/

theorem SameFile.lowestFd (h : SameFile p w.os w'.os) : w'.lowestFd = w.lowestFd := by
  rw [World.lowestFd, World.lowestFd, h.fds, h.fdBound]

theorem SameFile.fdEntry (h : SameFile p w.os w'.os) (fd : ℤ) : w'.fdEntry fd = w.fdEntry fd := by
  rw [World.fdEntry, World.fdEntry, h.fds]

theorem SameFile.openFd (h : SameFile p w.os w'.os) (file : ℕ) (acc : AccMode) :
    SameFile p (w.openFd file acc).os (w'.openFd file acc).os := by
  refine ⟨h.names, h.subdir, h.content, h.nextFile, ?_, ?_, h.ioFaults⟩
  · show Function.update w'.os.fds w'.lowestFd _ = Function.update w.os.fds w.lowestFd _
    rw [h.fds, SameFile.lowestFd h]
  · show max w'.os.fdBound (w'.lowestFd + 1) = max w.os.fdBound (w.lowestFd + 1)
    rw [h.fdBound, SameFile.lowestFd h]

theorem SameFile.truncate (h : SameFile p w.os w'.os) (file size : ℕ) :
    SameFile p (w.commit (.truncate file size)).os (w'.commit (.truncate file size)).os := by
  refine ⟨h.names, h.subdir, ?_, h.nextFile, h.fds, h.fdBound, h.ioFaults⟩
  simp only [World.commit, DiskEffect.apply, h.content]

theorem SameFile.create (h : SameFile p w.os w'.os) :
    SameFile p (w.commit (.create p)).os (w'.commit (.create p)).os := by
  refine ⟨?_, h.subdir, ?_, ?_, h.fds, h.fdBound, h.ioFaults⟩
  · simp only [World.commit, DiskEffect.apply, h.nextFile, Function.update_self]
  · simp only [World.commit, DiskEffect.apply, h.nextFile, h.content]
  · simp only [World.commit, DiskEffect.apply, h.nextFile]

theorem SameFile.afterIo (h : SameFile p w.os w'.os) : SameFile p w.afterIo.os w'.afterIo.os :=
  ⟨h.names, h.subdir, h.content, h.nextFile, h.fds, h.fdBound, congrArg List.tail h.ioFaults⟩

theorem SameFile.outcome (h : SameFile p w.os w'.os) : w'.outcome = w.outcome := by
  rw [World.outcome, World.outcome, h.ioFaults]

/-- `open` answers alike, and so do the calls that follow. -/
theorem SameFile.sysOpen (h : SameFile p w.os w'.os) (flags : OpenFlags) (creat : Bool) :
    (w'.sysOpen p flags creat).2 = (w.sysOpen p flags creat).2 ∧
      SameFile p (w.sysOpen p flags creat).1.os (w'.sysOpen p flags creat).1.os ∧
      ((w.sysOpen p flags creat).2 < 0 →
        (w'.sysOpen p flags creat).1.os.errno = (w.sysOpen p flags creat).1.os.errno) := by
  have ha := SameFile.afterIo h
  have hopen : ∀ n : ℕ, ¬ (n : ℤ) < 0 := fun n => by omega
  rw [World.sysOpen, World.sysOpen, nextIo_eq, nextIo_eq, SameFile.outcome h]
  cases w.outcome with
  | fail e =>
      exact ⟨rfl, ⟨ha.names, ha.subdir, ha.content, ha.nextFile, ha.fds, ha.fdBound, ha.ioFaults⟩,
        fun _ => rfl⟩
  | _ =>
      dsimp only
      rw [ha.names, ha.subdir]
      cases hn : w.afterIo.os.disk.names p with
      | some file =>
          dsimp only
          have ht : SameFile p
              (if flags.trunc then w.afterIo.commit (.truncate file 0) else w.afterIo).os
              (if flags.trunc then w'.afterIo.commit (.truncate file 0) else w'.afterIo).os := by
            split
            · exact SameFile.truncate ha file 0
            · exact ha
          rw [SameFile.lowestFd ht]
          exact ⟨rfl, SameFile.openFd ht file flags.acc, fun hneg => absurd hneg (hopen _)⟩
      | none =>
          dsimp only
          split
          · have hc := SameFile.create ha
            rw [SameFile.lowestFd hc, ha.nextFile]
            exact ⟨rfl, SameFile.openFd hc _ flags.acc, fun hneg => absurd hneg (hopen _)⟩
          · exact ⟨rfl, ⟨ha.names, ha.subdir, ha.content, ha.nextFile, ha.fds, ha.fdBound,
              ha.ioFaults⟩, fun _ => rfl⟩

/-- `pread` answers alike. -/
theorem SameFile.sysPread (h : SameFile p w.os w'.os) (fd : ℤ) (size : ℕ) (offset : ℤ) :
    (w'.sysPread fd size offset).2 = (w.sysPread fd size offset).2 := by
  have ha := SameFile.afterIo h
  rw [World.sysPread, World.sysPread, nextIo_eq, nextIo_eq, SameFile.outcome h]
  cases w.outcome with
  | fail e => rfl
  | _ =>
      dsimp only
      rw [SameFile.fdEntry ha, ha.content]
      cases w.afterIo.fdEntry fd with
      | none => rfl
      | some f =>
          dsimp only
          split
          · rfl
          · split <;> rfl

/-! ## The answers -/

/-- `Read` of what `Open` opens: the return value of `Open`, and that of `Read` with the bytes. -/
def readPath (w : World) (path : Bytes) (flags : OpenFlags) (size : ℕ) (offset : ℤ) :
    ℤ × Option (ℤ × Bytes) :=
  let o := w.openFile path flags
  (o.2.1, o.2.2.map fun fh => (o.1.read fh size offset).2)

/-- The calls that look at a path answer alike. -/
structure SameAnswers (w w' : World) (path : Bytes) : Prop where
  getAttr : (w'.getAttr path).2 = (w.getAttr path).2
  readlink : ∀ size, (w'.readlink path size).2 = (w.readlink path size).2
  read : ∀ flags size offset,
    w'.readPath path flags size offset = w.readPath path flags size offset

/-- The record `Get` finds for a path. -/
def seen (w : World) (path : Bytes) : Option Bytes := (w.pathLookup path).2.bind w.store.lookup

/-- What `Open` and `Read` answer for a record with a blob. -/
def readBlob (w : World) (p : BlobPath) (flags : OpenFlags) (size : ℕ) (offset : ℤ) :
    ℤ × Option (ℤ × Bytes) :=
  let o := w.sysOpen p flags true
  if o.2 < 0 then (o.1.fsError, none)
  else
    let r := o.1.sysPread o.2 size offset
    (0, some (cInt r.2.1, r.2.2))

theorem readBlob_congr (h : SameFile p w.os w'.os) (flags : OpenFlags) (size : ℕ) (offset : ℤ) :
    w'.readBlob p flags size offset = w.readBlob p flags size offset := by
  obtain ⟨hret, hsame, herr⟩ := SameFile.sysOpen h flags true
  rw [readBlob, readBlob, hret]
  dsimp only
  split
  · rename_i hneg
    rw [fsError, fsError, herr hneg]
  · rw [SameFile.sysPread hsame]

theorem fsError_of_pathLookup (hk : (w.pathLookup path).2 = none) :
    (w.pathLookup path).1.fsError = -(ENOENT : ℤ) := by
  rw [fsError, pathLookup_errno, if_pos hk]

theorem getAttr_seen (w : World) (path : Bytes) : (w.getAttr path).2
    = match w.seen path with
      | some v => (0, some (getAttribute v))
      | none => (-(ENOENT : ℤ), none) := by
  have hl := w.pathLookup_looked path
  have herr := @fsError_of_pathLookup w path
  rw [getAttr, seen]
  rcases hp : w.pathLookup path with ⟨w₁, _ | key⟩ <;> rw [hp] at hl herr
  · dsimp only
    rw [herr rfl]
    rfl
  · have hlook : (w₁.readLock key).store.lookup key = w.store.lookup key :=
      congrFun (hl.trans (looked_readLock w₁ key)).lookup key
    dsimp only
    rw [Option.bind_some, ← hlook]
    rcases hg : (w₁.readLock key).cacheGet key .read with ⟨w', _ | i⟩
    · rw [(cacheGet_none hg).2]
    · rw [cacheGet_lookup hg]

theorem readlink_seen (w : World) (path : Bytes) (size : ℕ) : (w.readlink path size).2
    = match (w.pathLookup path).2.bind w.store.dbGet with
      | some v => (0, (getInlineData v 0 (sizeT ((size : ℤ) - 1))).2)
      | none => (-(ENOENT : ℤ), []) := by
  have hl := w.pathLookup_looked path
  have herr := @fsError_of_pathLookup w path
  rw [readlink]
  rcases hp : w.pathLookup path with ⟨w₁, _ | key⟩ <;> rw [hp] at hl herr
  · dsimp only
    rw [herr rfl]
    rfl
  · have hdb : (w₁.readLock key).store.dbGet key = w.store.dbGet key :=
      congrArg (fun db : MetaDb => db.get key.toSlice) hl.metadb
    dsimp only
    rw [Option.bind_some, hdb]
    cases w.store.dbGet key with
    | none => rfl
    | some v => rfl

/-- `Read` of a handle that `Open` has just handed out. -/
theorem read_opened (wa : World) (i : ℕ) (flags : OpenFlags) (fd : ℤ)
    (hfd : 0 < (wa.iheader i).has_blob → ¬ fd < 0) (size : ℕ) (offset : ℤ) (key : MetaKey) :
    (((wa.addFile ⟨i, flags, fd⟩).unlock key).read wa.nextFile size offset).2
      = if 0 < (wa.iheader i).has_blob then
          (cInt (wa.sysPread fd size offset).2.1, (wa.sysPread fd size offset).2.2)
        else (cInt (getInlineData (wa.store.value i) (sizeT offset) size).1,
          (getInlineData (wa.store.value i) (sizeT offset) size).2) := by
  have hfile : ((wa.addFile ⟨i, flags, fd⟩).unlock key).files wa.nextFile
      = some ⟨i, flags, fd⟩ := Function.update_self ..
  rw [read, hfile]
  dsimp only
  have hhead : World.iheader ((((wa.addFile ⟨i, flags, fd⟩).unlock key)).readLock
      (((wa.addFile ⟨i, flags, fd⟩).unlock key).store.keyOf i)) i = wa.iheader i := rfl
  rw [hhead]
  by_cases hb : 0 < (wa.iheader i).has_blob
  · rw [if_pos hb, if_pos hb, ensureFd, if_neg (hfd hb)]
    dsimp only
    rw [if_neg (hfd hb)]
    have hsame : SameFile (0, 0) wa.os ((((wa.addFile ⟨i, flags, fd⟩).unlock key)).readLock
        (((wa.addFile ⟨i, flags, fd⟩).unlock key).store.keyOf i)).os := .of_eq rfl rfl rfl rfl
    dsimp only
    rw [SameFile.sysPread hsame]
  · rw [if_neg hb, if_neg hb]
    rfl

theorem readPath_seen (w : World) (path : Bytes) (flags : OpenFlags) (size : ℕ) (offset : ℤ) :
    w.readPath path flags size offset = match w.seen path with
      | some v =>
          if 0 < (getInodeHeader v).has_blob then
            w.readBlob (getDiskFilePath (inoOf v)) flags size offset
          else (0, some (cInt (getInlineData v (sizeT offset) size).1,
            (getInlineData v (sizeT offset) size).2))
      | none => (-(ENOENT : ℤ), none) := by
  have hl := w.pathLookup_looked path
  have herr := @fsError_of_pathLookup w path
  rw [readPath, openFile, seen]
  rcases hp : w.pathLookup path with ⟨w₁, _ | key⟩ <;> rw [hp] at hl herr
  · dsimp only
    rw [herr rfl]
    rfl
  · have hlook : (w₁.writeLock key).store.lookup key = w.store.lookup key :=
      congrFun (hl.trans (looked_writeLock w₁ key)).lookup key
    dsimp only
    rw [Option.bind_some, ← hlook]
    rcases hg : (w₁.writeLock key).cacheGet key (openMode flags) with ⟨w', _ | i⟩
    · rw [(cacheGet_none hg).2]
      rfl
    · rw [cacheGet_lookup hg]
      obtain ⟨s, hs, rfl⟩ := cacheGet_some hg
      dsimp only
      have hhead : ((w₁.writeLock key).setStore s).iheader i = getInodeHeader (s.value i) := rfl
      have hsame : SameFile (getDiskFilePath (inoOf (s.value i))) w.os
          ((w₁.writeLock key).setStore s).os :=
        .of_eq hl.disk hl.fds (by obtain ⟨_, _, _, _, rfl⟩ := hl; rfl) hl.ioFaults
      rw [hhead, setStore_store]
      split
      · rename_i hb
        rw [← readBlob_congr hsame, readBlob, openDiskFile]
        have hpath : getDiskFilePath (getInodeHeader (s.value i)).fstat.st_ino
            = getDiskFilePath (inoOf (s.value i)) := rfl
        rw [hpath]
        generalize ho : ((w₁.writeLock key).setStore s).sysOpen
          (getDiskFilePath (inoOf (s.value i))) flags true = o
        dsimp only
        split
        · rfl
        · rename_i hneg
          have hval : o.1.store.value i = s.value i := by
            have hu := upToData_sysOpen ((w₁.writeLock key).setStore s)
              (getDiskFilePath (inoOf (s.value i))) flags true
            rw [ho] at hu
            exact hu.value i
          have hblob : 0 < (o.1.iheader i).has_blob := by
            rw [iheader, hval]
            exact hb
          rw [Option.map_some, read_opened o.1 i flags o.2 (fun _ => hneg), if_pos hblob]
      · rename_i hb
        have hinline : ¬ 0 < (((w₁.writeLock key).setStore s).iheader i).has_blob := hb
        rw [Option.map_some, read_opened ((w₁.writeLock key).setStore s) i flags (-1)
          (fun h => absurd h hinline), if_neg hinline]
        rfl

/-- Two states answer alike on a path that leads to the same key, whose record is the same in
the cache, in the store and on the disk. -/
theorem sameAnswers (hkey : (w'.pathLookup path).2 = (w.pathLookup path).2)
    (hrec : ∀ key ∈ (w.pathLookup path).2,
      w'.store.lookup key = w.store.lookup key ∧ w'.store.dbGet key = w.store.dbGet key)
    (hfile : ∀ v ∈ w.seen path, 0 < (getInodeHeader v).has_blob →
      SameFile (getDiskFilePath (inoOf v)) w.os w'.os) : w.SameAnswers w' path := by
  have hseen : w'.seen path = w.seen path := by
    rw [seen, seen, hkey]
    exact Option.bind_congr fun key hk => (hrec key hk).1
  have hdb : (w'.pathLookup path).2.bind w'.store.dbGet
      = (w.pathLookup path).2.bind w.store.dbGet := by
    rw [hkey]
    exact Option.bind_congr fun key hk => (hrec key hk).2
  refine ⟨?_, fun size => ?_, fun flags size offset => ?_⟩
  · rw [getAttr_seen, getAttr_seen, hseen]
  · rw [readlink_seen, readlink_seen, hdb]
  · rw [readPath_seen, readPath_seen, hseen]
    cases hv : w.seen path with
    | none => rfl
    | some v =>
        dsimp only
        split
        · rename_i hb
          exact readBlob_congr (hfile v hv hb) flags size offset
        · rfl

end World

end Tablefs
