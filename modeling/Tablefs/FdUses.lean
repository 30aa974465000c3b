/-
What the operations do to the descriptors of the disk files.

The log says what is opened and closed, and `Fds` who owns it: from one state to a later one,
an operation that owned some descriptors comes to own others, or it closes one that is not its
own. `FdStep` says it of an operation with its file handle: `Open`, `Read`, `Write` and
`Release` own in the end what their file handle holds. `Truncate` has none, and owns nothing in
the end if and only if its uninitialised `fd` is no open descriptor and `MigrateToDiskFile` does
not leave it with one (`truncate_step`).
-/
import Tablefs.Lib.Ledger
import Tablefs.Locks
import Tablefs.IoFailures

set_option autoImplicit false

namespace Tablefs

open ByteString Ledger

/-! ## The descriptors in a log -/

/-- What an event does to the descriptors. -/
def Event.fdUse : Event → Option (Use ℕ)
  | .openFd fd => some (.acquire fd)
  | .closeFd fd => some (.free fd)
  | _ => none

/-- The descriptors that a log opens and closes. -/
def fdUses (log : List Event) : List (Use ℕ) := log.filterMap Event.fdUse

theorem fdUses_append (log log' : List Event) : fdUses (log ++ log') = fdUses log ++ fdUses log' :=
  List.filterMap_append ..

namespace World

/-- The descriptors that are open. Those of a process without open files are not the file
system's. -/
def openFds (w : World) : Set ℕ := {n | w.os.fds n ≠ none}

/-- The descriptor in `fd_`, if there is one. -/
def fdList (fd : ℤ) : List ℕ := if 0 ≤ fd then [fd.toNat] else []

/-- What a file handle holds. -/
def held (w : World) (fh : ℕ) : List ℕ := ((w.files fh).map fun f => fdList f.fd_).getD []

/-- From `w` to `w'`, an owner of `own` comes to own `own'`: nothing if it closes what it does not
own. -/
def Fds (own : List ℕ) (w : World) (own' : Option (List ℕ)) (w' : World) : Prop :=
  ∃ evs, w'.store.log = w.store.log ++ evs ∧ hold own (fdUses evs) = own' ∧
    Goes w.openFds (fdUses evs) w'.openFds

/-- No descriptor is opened or closed, and the file handles stay. -/
structure FdQuiet (w w' : World) : Prop where
  log : ∃ evs, w'.store.log = w.store.log ++ evs ∧ fdUses evs = []
  fds : w'.os.fds = w.os.fds
  files : w'.files = w.files
  nextFile : w'.nextFile = w.nextFile

variable {w w' w'' : World} {own own' : List ℕ} {own'' : Option (List ℕ)}

theorem FdQuiet.of_log (hl : w'.store.log = w.store.log) (hfds : w'.os.fds = w.os.fds)
    (hfiles : w'.files = w.files) (hnext : w'.nextFile = w.nextFile) : w.FdQuiet w' :=
  ⟨⟨[], by rw [hl, List.append_nil], rfl⟩, hfds, hfiles, hnext⟩

theorem FdQuiet.refl (w : World) : w.FdQuiet w := .of_log rfl rfl rfl rfl

theorem FdQuiet.trans (h : w.FdQuiet w') (h' : w'.FdQuiet w'') : w.FdQuiet w'' := by
  obtain ⟨evs, hl, he⟩ := h.log
  obtain ⟨evs', hl', he'⟩ := h'.log
  refine ⟨⟨evs ++ evs', by rw [hl', hl, List.append_assoc], ?_⟩, h'.fds.trans h.fds,
    h'.files.trans h.files, h'.nextFile.trans h.nextFile⟩
  rw [fdUses_append, he, he', List.append_nil]

theorem Fds.trans (h : Fds own w (some own') w') (h' : Fds own' w' own'' w'') :
    Fds own w own'' w'' := by
  obtain ⟨evs, hl, hh, hg⟩ := h
  obtain ⟨evs', hl', hh', hg'⟩ := h'
  refine ⟨evs ++ evs', by rw [hl', hl, List.append_assoc], ?_, ?_⟩
  · rw [fdUses_append, hold_append, hh]
    exact hh'
  · rw [fdUses_append]
    exact goes_append.mpr ⟨_, hg, hg'⟩

theorem FdQuiet.openFds (h : w.FdQuiet w') : w'.openFds = w.openFds := by
  rw [World.openFds, h.fds]
  rfl

theorem FdQuiet.fdsOwned (h : w.FdQuiet w') (own : List ℕ) : Fds own w (some own) w' := by
  obtain ⟨evs, hl, he⟩ := h.log
  refine ⟨evs, hl, by rw [he]; rfl, ?_⟩
  rw [he]
  exact h.openFds

/-! ### The parts of an operation -/

theorem fdQuiet_note (w : World) {ev : Event} (hev : ev.fdUse = none) : w.FdQuiet (w.note ev) :=
  ⟨⟨[ev], rfl, by rw [fdUses, List.filterMap_cons_none hev]; rfl⟩, rfl, rfl, rfl⟩

theorem fdQuiet_readLock (w : World) (k : MetaKey) : w.FdQuiet (w.readLock k) := w.fdQuiet_note rfl

theorem fdQuiet_writeLock (w : World) (k : MetaKey) : w.FdQuiet (w.writeLock k) :=
  w.fdQuiet_note rfl

theorem fdQuiet_unlock (w : World) (k : MetaKey) : w.FdQuiet (w.unlock k) := w.fdQuiet_note rfl

theorem fdQuiet_commit (w : World) (e : DiskEffect) : w.FdQuiet (w.commit e) :=
  ⟨⟨[.disk e], rfl, rfl⟩, rfl, rfl, rfl⟩

/-- A store with nothing new in its log but writes to the metadata. -/
theorem fdQuiet_setStore {s : Store} (h : w.store.Extends s) : w.FdQuiet (w.setStore s) := by
  obtain ⟨evs, hl, -⟩ := h
  refine ⟨⟨evs.map Event.db, hl, ?_⟩, rfl, rfl, rfl⟩
  apply List.filterMap_eq_nil_iff.mpr
  intro ev hev
  obtain ⟨e, -, rfl⟩ := List.mem_map.mp hev
  rfl

theorem Looked.fdQuiet (h : w.Looked w') : w.FdQuiet w' := by
  obtain ⟨evs, e, d, hevs, rfl⟩ := h
  refine ⟨⟨evs, rfl, ?_⟩, rfl, rfl, rfl⟩
  apply List.filterMap_eq_nil_iff.mpr
  intro ev hev
  have hlock := hevs ev hev
  cases ev with
  | openFd fd => exact hlock.elim
  | closeFd fd => exact hlock.elim
  | _ => rfl

theorem fdQuiet_pathLookup {path : Bytes} {o : Option MetaKey}
    (hp : w.pathLookup path = (w', o)) : w.FdQuiet w' := by
  have h := (w.pathLookup_looked path).fdQuiet
  rwa [hp] at h

theorem fdQuiet_cacheGet {k : MetaKey} {m : InodeAccessMode} {o : Option ℕ}
    (hg : w.cacheGet k m = (w', o)) : w.FdQuiet w' := by
  cases o with
  | none =>
      rw [(cacheGet_none hg).1]
      exact .refl w
  | some i =>
      obtain ⟨s, hs, rfl⟩ := cacheGet_some hg
      exact fdQuiet_setStore (Store.extends_get hs)

theorem fdQuiet_cacheRelease (w : World) (i : ℕ) : w.FdQuiet (w.cacheRelease i) :=
  fdQuiet_setStore (Store.extends_release _ _)

theorem fdQuiet_cacheEvict (w : World) (k : MetaKey) : w.FdQuiet (w.cacheEvict k) :=
  fdQuiet_setStore (Store.extends_evict _ _)

theorem fdQuiet_cacheWriteBack (w : World) (i : ℕ) : w.FdQuiet (w.cacheWriteBack i) :=
  fdQuiet_setStore (Store.extends_writeBack _ _)

theorem fdQuiet_setHeader (w : World) (i : ℕ) (h : InodeHeader) : w.FdQuiet (w.setHeader i h) :=
  .of_log rfl rfl rfl rfl

theorem fdQuiet_setMode (w : World) (i : ℕ) (m : InodeAccessMode) : w.FdQuiet (w.setMode i m) :=
  .of_log rfl rfl rfl rfl

/-! ### System calls -/

theorem fdQuiet_ioQuiet : IoQuiet (fun _ => True) FdQuiet where
  refl := .refl
  trans := .trans
  os := fun _ _ _ hfds => .of_log rfl hfds rfl rfl
  commit := fun w e _ => w.fdQuiet_commit e

/-- `open` and `close` leave the file handles as they are. -/
theorem files_ioClosed :
    IoClosed (fun _ => True) fun w w' => w'.files = w.files ∧ w'.nextFile = w.nextFile where
  refl := fun _ => ⟨rfl, rfl⟩
  trans := fun h h' => ⟨h'.1.trans h.1, h'.2.trans h.2⟩
  os := fun _ _ _ => ⟨rfl, rfl⟩
  note := fun _ _ _ _ _ => ⟨rfl, rfl⟩
  commit := fun _ _ _ => ⟨rfl, rfl⟩

theorem fdList_natCast (n : ℕ) : fdList (n : ℤ) = [n] := by
  rw [fdList, if_pos (Int.natCast_nonneg n), Int.toNat_natCast]

theorem fdList_neg {fd : ℤ} (h : fd < 0) : fdList fd = [] := if_neg (by omega)

/-- A new descriptor is the opener's. -/
theorem fds_openFd (w : World) (file : ℕ) (acc : AccMode) (own : List ℕ) :
    Fds own w (some (w.lowestFd :: own)) (w.openFd file acc) := by
  refine ⟨[.openFd w.lowestFd], rfl, rfl, ?_, ?_⟩
  · exact fun h => h w.lowestFd_free
  · ext n
    show Function.update w.os.fds w.lowestFd (some ⟨file, acc⟩) n ≠ none ↔ _
    rw [Set.mem_insert_iff]
    by_cases hn : n = w.lowestFd
    · rw [hn, Function.update_self]
      exact iff_of_true nofun (Or.inl rfl)
    · rw [Function.update_of_ne hn]
      exact (or_iff_right hn).symm

/-- `open` fails with -1, or the opener owns one descriptor more. -/
theorem sysOpen_fds (w : World) (path : BlobPath) (flags : OpenFlags) (creat : Bool)
    (own : List ℕ) :
    ((w.sysOpen path flags creat).2 = -1 ∨ 0 ≤ (w.sysOpen path flags creat).2) ∧
      Fds own w (some (fdList (w.sysOpen path flags creat).2 ++ own))
        (w.sysOpen path flags creat).1 := by
  -- however the file comes to be there, the descriptor is opened last
  have hopen : ∀ (v : World) (file : ℕ), w.FdQuiet v →
      Fds own w (some (fdList (v.lowestFd : ℤ) ++ own)) (v.openFd file flags.acc) := by
    intro v file hq
    rw [fdList_natCast]
    exact (hq.fdsOwned own).trans (v.fds_openFd file flags.acc own)
  unfold sysOpen
  split
  · rename_i hio
    have hq := fdQuiet_ioQuiet.nextIo w
    rw [hio] at hq
    exact ⟨Or.inl rfl, (hq.trans (fdQuiet_ioQuiet.os _ _ rfl rfl)).fdsOwned own⟩
  · rename_i hio
    have hq := fdQuiet_ioQuiet.nextIo w
    rw [hio] at hq
    split
    · refine ⟨Or.inr (Int.natCast_nonneg _), hopen _ _ (hq.trans ?_)⟩
      split
      · exact fdQuiet_commit _ _
      · exact .refl _
    · split
      · exact ⟨Or.inr (Int.natCast_nonneg _), hopen _ _ (hq.trans (fdQuiet_commit _ _))⟩
      · exact ⟨Or.inl rfl, (hq.trans (fdQuiet_ioQuiet.os _ _ rfl rfl)).fdsOwned own⟩

/-- `close` of what is not open does nothing. -/
theorem sysClose_quiet {fd : ℤ} (h : w.fdEntry fd = none) : w.FdQuiet (w.sysClose fd).1 := by
  rw [sysClose, h]
  exact .of_log rfl rfl rfl rfl

theorem fdEntry_mem {fd : ℤ} (h : w.fdEntry fd ≠ none) : 0 ≤ fd ∧ fd.toNat ∈ w.openFds := by
  rw [fdEntry] at h
  split at h
  · rename_i h0
    exact ⟨h0, h⟩
  · exact absurd rfl h

/-- `close` of an open descriptor takes it from its owner. -/
theorem sysClose_fds {fd : ℤ} (h : w.fdEntry fd ≠ none) (own : List ℕ) :
    Fds own w (if fd.toNat ∈ own then some (own.erase fd.toNat) else none) (w.sysClose fd).1 := by
  have hopen := (fdEntry_mem h).2
  cases he : w.fdEntry fd with
  | none => exact absurd he h
  | some f =>
    rw [sysClose, he]
    refine ⟨[.closeFd fd.toNat], rfl, rfl, hopen, ?_⟩
    ext n
    show Function.update w.os.fds fd.toNat none n ≠ none ↔ _
    rw [Set.mem_sdiff, Set.mem_singleton_iff]
    by_cases hn : n = fd.toNat
    · rw [hn, Function.update_self]
      exact iff_of_false (fun h => h rfl) fun h => h.2 rfl
    · rw [Function.update_of_ne hn]
      exact (and_iff_left hn).symm

/-- The owner of one descriptor, or of none, closes it. -/
theorem sysClose_own {fd : ℤ} (h : fd = -1 ∨ w.fdEntry fd ≠ none) :
    Fds (fdList fd) w (some []) (w.sysClose fd).1 := by
  rcases h with rfl | h
  · have hnone : w.fdEntry (-1) = none := rfl
    exact (sysClose_quiet hnone).fdsOwned []
  · obtain ⟨h0, -⟩ := fdEntry_mem h
    have hc := sysClose_fds h [fd.toNat]
    rw [if_pos List.mem_cons_self, List.erase_cons_head] at hc
    rwa [fdList, if_pos h0]

/-- After a descriptor of another owner has been closed, there is nothing to say. -/
theorem Fds.stuck {own₁ : List ℕ} {own₂ : Option (List ℕ)} (h : Fds own w none w')
    (h' : Fds own₁ w' own₂ w'') : Fds own w none w'' := by
  obtain ⟨evs, hl, hh, hg⟩ := h
  obtain ⟨evs', hl', -, hg'⟩ := h'
  refine ⟨evs ++ evs', by rw [hl', hl, List.append_assoc], ?_, ?_⟩
  · rw [fdUses_append, hold_append, hh]
    rfl
  · rw [fdUses_append]
    exact goes_append.mpr ⟨_, hg, hg'⟩

theorem Fds.quiet (h : Fds own w own'' w') (h' : w'.FdQuiet w'') : Fds own w own'' w'' := by
  cases own'' with
  | none => exact h.stuck (h'.fdsOwned [])
  | some own' => exact h.trans (h'.fdsOwned own')

/-- Whoever closes it, `close` closes at most one descriptor. -/
theorem sysClose_any (w : World) (fd : ℤ) (own : List ℕ) :
    ∃ own'', Fds own w own'' (w.sysClose fd).1 := by
  by_cases h : w.fdEntry fd = none
  · exact ⟨some own, (sysClose_quiet h).fdsOwned own⟩
  · exact ⟨_, sysClose_fds h own⟩

/-! ### Moving data -/

/-- `MigrateToDiskFile` closes no descriptor if it is given none. -/
theorem closed_quiet {fd : ℤ} (h : w.fdEntry fd = none) : w.FdQuiet (w.closed fd) := by
  rw [closed]
  split
  · exact sysClose_quiet h
  · exact .refl w

/-- The rest of it, on what `OpenDiskFile` returned. -/
def migrateOpened (handle : ℕ) (iheader : InodeHeader) (o : World × ℤ) : World × ℤ × ℤ :=
  if o.2 < 0 then (o.1, o.1.fsError, -1)
  else if 0 < offT iheader.fstat.st_size then
    let start := TFS_INODE_HEADER_SIZE + iheader.namelen.toNat + 1
    let buffer := resize ((o.1.store.value handle).drop start) iheader.fstat.st_size.toNat
    let p := o.1.sysPwrite o.2 buffer 0
    (p.1.setValue handle (dropInlineData (p.1.store.value handle)),
      if p.2 ≠ offT iheader.fstat.st_size then p.1.fsError else 0, o.2)
  else (o.1, 0, o.2)

theorem migrateToDiskFile_eq (w : World) (handle : ℕ) (fd : ℤ) (flags : OpenFlags) :
    w.migrateToDiskFile handle fd flags =
      migrateOpened handle (w.iheader handle)
        ((w.closed fd).openDiskFile (w.iheader handle) flags) := rfl

theorem migrateOpened_quiet (handle : ℕ) (iheader : InodeHeader) (o : World × ℤ) :
    o.1.FdQuiet (migrateOpened handle iheader o).1 := by
  rw [migrateOpened]
  split
  · exact .refl _
  · split
    · exact (fdQuiet_ioQuiet.sysPwrite _ _ _ _ fun _ _ _ => trivial).trans
        (.of_log rfl rfl rfl rfl)
    · exact .refl _

theorem migrateOpened_fd (handle : ℕ) (iheader : InodeHeader) {o : World × ℤ}
    (h : o.2 = -1 ∨ 0 ≤ o.2) : (migrateOpened handle iheader o).2.2 = o.2 := by
  rw [migrateOpened]
  split
  · rename_i hneg
    exact (h.resolve_right (not_le.mpr hneg)).symm
  · split
    · rfl
    · rfl

theorem openDiskFile_fds (w : World) (iheader : InodeHeader) (flags : OpenFlags) (own : List ℕ) :
    ((w.openDiskFile iheader flags).2 = -1 ∨ 0 ≤ (w.openDiskFile iheader flags).2) ∧
      Fds own w (some (fdList (w.openDiskFile iheader flags).2 ++ own))
        (w.openDiskFile iheader flags).1 := w.sysOpen_fds _ _ _ _

theorem openDiskFile_files (w : World) (iheader : InodeHeader) (flags : OpenFlags) :
    (w.openDiskFile iheader flags).1.files = w.files ∧
      (w.openDiskFile iheader flags).1.nextFile = w.nextFile :=
  files_ioClosed.sysOpen w _ flags true trivial fun _ => trivial

/-- Past the `close`, the caller of `MigrateToDiskFile` owns what it gets back. -/
theorem migrate_rest (w : World) (handle : ℕ) (fd : ℤ) (flags : OpenFlags) :
    ((w.migrateToDiskFile handle fd flags).2.2 = -1 ∨
        0 ≤ (w.migrateToDiskFile handle fd flags).2.2) ∧
      Fds [] (w.closed fd) (some (fdList (w.migrateToDiskFile handle fd flags).2.2))
        (w.migrateToDiskFile handle fd flags).1 := by
  obtain ⟨hvalid, hopen⟩ := (w.closed fd).openDiskFile_fds (w.iheader handle) flags []
  rw [migrateToDiskFile_eq, migrateOpened_fd handle _ hvalid]
  rw [List.append_nil] at hopen
  exact ⟨hvalid, hopen.trans ((migrateOpened_quiet _ _ _).fdsOwned _)⟩

theorem closed_files (w : World) (fd : ℤ) :
    (w.closed fd).files = w.files ∧ (w.closed fd).nextFile = w.nextFile := by
  rw [closed]
  split
  · exact files_ioClosed.sysClose w fd
  · exact ⟨rfl, rfl⟩

theorem migrate_files (w : World) (handle : ℕ) (fd : ℤ) (flags : OpenFlags) :
    (w.migrateToDiskFile handle fd flags).1.files = w.files ∧
      (w.migrateToDiskFile handle fd flags).1.nextFile = w.nextFile := by
  have hopen := files_ioClosed.trans (w.closed_files fd)
    ((w.closed fd).openDiskFile_files (w.iheader handle) flags)
  have hrest := migrateOpened_quiet handle (w.iheader handle)
    ((w.closed fd).openDiskFile (w.iheader handle) flags)
  exact ⟨hrest.files.trans hopen.1, hrest.nextFile.trans hopen.2⟩

/-- With the descriptor of a file handle, `MigrateToDiskFile` closes its own. -/
theorem migrate_own {fd : ℤ} (h : fd = -1 ∨ w.fdEntry fd ≠ none) (handle : ℕ)
    (flags : OpenFlags) :
    Fds (fdList fd) w (some (fdList (w.migrateToDiskFile handle fd flags).2.2))
      (w.migrateToDiskFile handle fd flags).1 := by
  refine Fds.trans ?_ (w.migrate_rest handle fd flags).2
  rw [closed]
  split
  · exact sysClose_own h
  · rename_i hneg
    rw [fdList, if_neg hneg]
    exact (FdQuiet.refl w).fdsOwned []

/-! ## Steps -/

/-- What the file handle holds, if there is one. -/
def heldBy (w : World) (fh? : Option ℕ) : List ℕ := (fh?.map w.held).getD []

/-- An operation with its own file handle, if it has one: from what that holds its descriptors
come to be `own`, and other file handles stay as they are. -/
structure FdStep (w : World) (fh? : Option ℕ) (own : Option (List ℕ)) (w' : World) : Prop where
  fds : Fds (w.heldBy fh?) w own w'
  others : ∀ g, fh? ≠ some g → w'.files g = w.files g
  nextFile_le : w.nextFile ≤ w'.nextFile
  valid : ∀ g f, fh? = some g → w'.files g = some f → f.fd_ = -1 ∨ 0 ≤ f.fd_
  below : ∀ g, fh? = some g → w'.nextFile ≤ g → w'.files g = none

/-- In the end the operation owns what its file handle holds. -/
abbrev FdKept (w : World) (fh? : Option ℕ) (w' : World) : Prop :=
  FdStep w fh? (some (w'.heldBy fh?)) w'

/-- The number is one of a file handle that holds -1 or an open descriptor, or of none. -/
structure HandleOk (w : World) (fh : ℕ) : Prop where
  valid : ∀ f, w.files fh = some f → f.fd_ = -1 ∨ w.fdEntry f.fd_ ≠ none
  below : w.nextFile ≤ fh → w.files fh = none

section Steps

variable {fh : ℕ} {fh? : Option ℕ} {f : FileHandle}

theorem held_of_files (hf : w.files fh = some f) : w.held fh = fdList f.fd_ := by
  rw [held, hf]
  rfl

theorem held_of_none (hf : w.files fh = none) : w.held fh = [] := by
  rw [held, hf]
  rfl

theorem FdQuiet.heldBy (h : w.FdQuiet w') (fh? : Option ℕ) : w'.heldBy fh? = w.heldBy fh? := by
  have hheld : w'.held = w.held := by
    funext fh
    rw [World.held, World.held, h.files]
  rw [World.heldBy, World.heldBy, hheld]

theorem FdQuiet.handleOk (h : w.FdQuiet w') (hok : w.HandleOk fh) : w'.HandleOk fh where
  valid := by
    intro f hf
    rw [h.files] at hf
    rw [show w'.fdEntry f.fd_ = w.fdEntry f.fd_ by rw [fdEntry, fdEntry, h.fds]]
    exact hok.valid f hf
  below := by
    rw [h.files, h.nextFile]
    exact hok.below

theorem FdQuiet.then (h : w.FdQuiet w') {own : Option (List ℕ)} (hs : FdStep w' fh? own w'') :
    FdStep w fh? own w'' where
  fds := by
    rw [← h.heldBy fh?]
    exact (h.fdsOwned _).trans hs.fds
  others := fun g hg => (hs.others g hg).trans (congrFun h.files g)
  nextFile_le := h.nextFile.ge.trans hs.nextFile_le
  valid := hs.valid
  below := hs.below

theorem FdStep.quiet {own : Option (List ℕ)} (hs : FdStep w fh? own w') (h : w'.FdQuiet w'') :
    FdStep w fh? own w'' where
  fds := hs.fds.quiet h
  others := fun g hg => (congrFun h.files g).trans (hs.others g hg)
  nextFile_le := hs.nextFile_le.trans h.nextFile.ge
  valid := by
    rw [h.files]
    exact hs.valid
  below := by
    rw [h.files, h.nextFile]
    exact hs.below

theorem FdStep.kept_quiet (hs : FdKept w fh? w') (h : w'.FdQuiet w'') : FdKept w fh? w'' := by
  rw [FdKept, h.heldBy fh?]
  exact FdStep.quiet hs h

/-- A step without a file handle. -/
theorem Fds.step_none (hfds : Fds [] w own'' w')
    (hfiles : w'.files = w.files ∧ w'.nextFile = w.nextFile) : FdStep w none own'' w' where
  fds := hfds
  others := fun g _ => congrFun hfiles.1 g
  nextFile_le := hfiles.2.ge
  valid := fun _ _ hg => absurd hg nofun
  below := fun _ hg => absurd hg nofun

theorem FdQuiet.kept_none (h : w.FdQuiet w') : FdKept w none w' :=
  (h.fdsOwned []).step_none ⟨h.files, h.nextFile⟩

/-- With one that stays as it is, it owns what that holds. -/
theorem Fds.kept_same (hok : w.HandleOk fh) (hfds : Fds (w.held fh) w (some (w.held fh)) w')
    (hfiles : w'.files = w.files ∧ w'.nextFile = w.nextFile) : FdKept w (some fh) w' where
  fds := by
    have hheld : w'.held fh = w.held fh := by rw [held, held, hfiles.1]
    rw [show w'.heldBy (some fh) = w.held fh from hheld]
    exact hfds
  others := fun g _ => congrFun hfiles.1 g
  nextFile_le := hfiles.2.ge
  valid := by
    rintro g f ⟨rfl⟩ hf
    rw [hfiles.1] at hf
    exact (hok.valid f hf).imp_right fun hne => (fdEntry_mem hne).1
  below := by
    rintro g ⟨rfl⟩
    rw [hfiles.1, hfiles.2]
    exact hok.below

theorem FdQuiet.kept_some (h : w.FdQuiet w') (hok : w.HandleOk fh) : FdKept w (some fh) w' :=
  Fds.kept_same hok (h.fdsOwned _) ⟨h.files, h.nextFile⟩

theorem setFd_files_self (w : World) (fh : ℕ) (f : FileHandle) (fd : ℤ) :
    (w.setFd fh f fd).files fh = some { f with fd_ := fd } := Function.update_self ..

/-- The file handle gets another descriptor instead of the one it had. -/
theorem Fds.kept_setFd (hf : w.files fh = some f) (hok : w.HandleOk fh) {fd : ℤ}
    (hfds : Fds (fdList f.fd_) w (some (fdList fd)) w')
    (hfiles : w'.files = w.files ∧ w'.nextFile = w.nextFile) (hvalid : fd = -1 ∨ 0 ≤ fd) :
    FdKept w (some fh) (w'.setFd fh f fd) where
  fds := by
    have hafter : (w'.setFd fh f fd).heldBy (some fh) = fdList fd :=
      held_of_files (w'.setFd_files_self fh f fd)
    have hbefore : w.heldBy (some fh) = fdList f.fd_ := held_of_files hf
    have hset : w'.openFds = (w'.setFd fh f fd).openFds := rfl
    rw [hafter, hbefore]
    obtain ⟨evs, hl, hh, hg⟩ := hfds
    exact ⟨evs, hl, hh, hset ▸ hg⟩
  others := fun g hg =>
    (Function.update_of_ne (fun he => hg (congrArg some he.symm)) _ _).trans (congrFun hfiles.1 g)
  nextFile_le := hfiles.2.ge
  valid := by
    rintro g f' ⟨rfl⟩ hf'
    rw [setFd_files_self] at hf'
    obtain rfl := Option.some.inj hf'
    exact hvalid
  below := by
    rintro g ⟨rfl⟩ hle
    exact absurd ((hok.below (hfiles.2 ▸ hle)).symm.trans hf) nofun

/-! ## The operations -/

/-- For a blob, the file handle has a descriptor before `Read` and `Write` go on, if it can get
one. -/
theorem ensureFd_kept (hf : w.files fh = some f) (hok : w.HandleOk fh) (iheader : InodeHeader) :
    FdKept w (some fh) (w.ensureFd fh f iheader).1 := by
  rw [ensureFd]
  dsimp only
  split
  · rename_i hneg
    obtain ⟨hvalid, hopen⟩ := w.openDiskFile_fds iheader f.flags_ []
    rw [List.append_nil, ← fdList_neg hneg] at hopen
    exact hopen.kept_setFd hf hok (w.openDiskFile_files iheader f.flags_) hvalid
  · exact (FdQuiet.refl w).kept_some hok

theorem read_kept (w : World) (size : ℕ) (offset : ℤ) (hok : w.HandleOk fh) :
    FdKept w (some fh) (w.read fh size offset).1 := by
  rw [read]
  cases hf : w.files fh with
  | none => exact (FdQuiet.refl w).kept_some hok
  | some f =>
      dsimp only
      have hlock := w.fdQuiet_readLock (w.store.keyOf f.handle_)
      split
      · refine hlock.then ?_
        have he := ensureFd_kept (w := w.readLock (w.store.keyOf f.handle_)) hf
          (hlock.handleOk hok) ((w.readLock (w.store.keyOf f.handle_)).iheader f.handle_)
        split
        · exact he.kept_quiet (fdQuiet_unlock _ _)
        · exact he.kept_quiet ((fdQuiet_ioQuiet.sysPread _ _ _ _).trans (fdQuiet_unlock _ _))
      · exact (hlock.trans (fdQuiet_unlock _ _)).kept_some hok

theorem writeData_kept (hf : w.files fh = some f) (hok : w.HandleOk fh) (buf : Bytes)
    (offset : ℤ) (total : ℕ) : FdKept w (some fh) (w.writeData fh f buf offset total).1 := by
  unfold writeData
  dsimp only
  split
  · -- a blob, whose descriptor may have to be opened first
    unfold writeBlob
    dsimp only
    have he := ensureFd_kept hf hok (w.iheader f.handle_)
    split
    · exact he
    · exact he.kept_quiet (fdQuiet_ioQuiet.sysPwrite _ _ _ _ fun _ _ _ => trivial)
  · split
    · -- the data moves to a disk file, and the handle gets a descriptor on that
      unfold writeMigrate
      dsimp only
      have hm := (migrate_own (hok.valid f hf) f.handle_ f.flags_).kept_setFd hf hok
        (w.migrate_files f.handle_ f.fd_ f.flags_)
        (w.migrate_rest f.handle_ f.fd_ f.flags_).1
      split
      · exact hm.kept_quiet ((fdQuiet_setHeader _ _ _).trans
          (fdQuiet_ioQuiet.sysPwrite _ _ _ _ fun _ _ _ => trivial))
      · exact hm
    · exact FdQuiet.kept_some (.of_log rfl rfl rfl rfl) hok

theorem write_kept (w : World) (buf : Bytes) (offset : ℤ) (hok : w.HandleOk fh) :
    FdKept w (some fh) (w.write fh buf offset).1 := by
  rw [write]
  cases hf : w.files fh with
  | none => exact (FdQuiet.refl w).kept_some hok
  | some f =>
      dsimp only
      have hlock : w.FdQuiet ((w.setMode f.handle_ .write).readLock
          ((w.setMode f.handle_ .write).store.keyOf f.handle_)) :=
        (w.fdQuiet_setMode f.handle_ .write).trans (fdQuiet_readLock _ _)
      refine hlock.then (FdStep.kept_quiet ?_ (fdQuiet_unlock _ _))
      have hdata := fun total => writeData_kept (w := (w.setMode f.handle_ .write).readLock
        ((w.setMode f.handle_ .write).store.keyOf f.handle_)) hf (hlock.handleOk hok) buf offset
        total
      split
      · exact (hdata _).kept_quiet (.of_log rfl rfl rfl rfl)
      · exact hdata _

/-- `Open`'s new file handle, which holds what was opened for it. -/
theorem Fds.kept_addFile (hnew : w.files w.nextFile = none)
    (hfds : Fds [] w (some (fdList f.fd_)) w')
    (hfiles : w'.files = w.files ∧ w'.nextFile = w.nextFile) (hvalid : f.fd_ = -1 ∨ 0 ≤ f.fd_) :
    FdKept w (some w.nextFile) (w'.addFile f) := by
  have hself : (w'.addFile f).files w.nextFile = some f := by
    rw [addFile, ← hfiles.2]
    exact Function.update_self ..
  refine ⟨?_, ?_, ?_, ?_, ?_⟩
  · have hafter : (w'.addFile f).heldBy (some w.nextFile) = fdList f.fd_ := held_of_files hself
    have hbefore : w.heldBy (some w.nextFile) = [] := held_of_none hnew
    have hset : w'.openFds = (w'.addFile f).openFds := rfl
    rw [hafter, hbefore]
    obtain ⟨evs, hl, hh, hg⟩ := hfds
    exact ⟨evs, hl, hh, hset ▸ hg⟩
  · intro g hg
    have hne : g ≠ w'.nextFile := fun he => hg (congrArg some (he.trans hfiles.2).symm)
    exact (Function.update_of_ne hne _ _).trans (congrFun hfiles.1 g)
  · show w.nextFile ≤ w'.nextFile + 1
    rw [hfiles.2]
    exact Nat.le_succ _
  · rintro g f' ⟨rfl⟩ hf'
    rw [hself] at hf'
    obtain rfl := Option.some.inj hf'
    exact hvalid
  · rintro g ⟨rfl⟩ hle
    rw [show (w'.addFile f).nextFile = w'.nextFile + 1 from rfl, hfiles.2] at hle
    omega

theorem openFile_kept (w : World) (path : Bytes) (flags : OpenFlags)
    (hnew : w.files w.nextFile = none) :
    FdKept w (some w.nextFile) (w.openFile path flags).1 := by
  have hok : w.HandleOk w.nextFile := by
    refine ⟨fun f hf => ?_, fun _ => hnew⟩
    rw [hnew] at hf
    cases hf
  rcases hp : w.pathLookup path with ⟨w₁, _ | key⟩
  · simp only [openFile, hp]
    exact (fdQuiet_pathLookup hp).kept_some hok
  · have hlock := (fdQuiet_pathLookup hp).trans (w₁.fdQuiet_writeLock key)
    rcases hg : (w₁.writeLock key).cacheGet key (openMode flags) with ⟨w₂, _ | i⟩
    · simp only [openFile, hp, hg]
      exact ((hlock.trans (fdQuiet_cacheGet hg)).trans (fdQuiet_unlock _ _)).kept_some hok
    · have hget := hlock.trans (fdQuiet_cacheGet hg)
      have hok₂ : w₂.HandleOk w₂.nextFile := by
        rw [hget.nextFile]
        exact hget.handleOk hok
      have hnew₂ : w₂.files w₂.nextFile = none := by
        rw [hget.files, hget.nextFile]
        exact hnew
      simp only [openFile, hp, hg]
      refine hget.then ?_
      rw [← hget.nextFile]
      split
      · -- a blob: the handle is given out with a descriptor, or not at all
        obtain ⟨hvalid, hopen⟩ := w₂.openDiskFile_fds (w₂.iheader i) flags []
        have hfiles := w₂.openDiskFile_files (w₂.iheader i) flags
        rw [List.append_nil] at hopen
        split
        · rename_i hneg
          rw [fdList_neg hneg, ← held_of_none hnew₂] at hopen
          exact (hopen.kept_same hok₂ hfiles).kept_quiet
            ((fdQuiet_cacheRelease _ i).trans (fdQuiet_unlock _ _))
        · exact (hopen.kept_addFile hnew₂ hfiles hvalid).kept_quiet (fdQuiet_unlock _ _)
      · have hadd : FdKept w₂ (some w₂.nextFile) (w₂.addFile ⟨i, flags, -1⟩) :=
          Fds.kept_addFile hnew₂ ((FdQuiet.refl w₂).fdsOwned []) ⟨rfl, rfl⟩ (Or.inl rfl)
        exact hadd.kept_quiet (fdQuiet_unlock _ _)

/-- Without its file handle, an operation owns nothing. -/
theorem Fds.kept_deleteFile (hf : w.files fh = some f) (hfds : Fds (fdList f.fd_) w (some []) w')
    (hfiles : w'.files = w.files ∧ w'.nextFile = w.nextFile) :
    FdKept w (some fh) (w'.deleteFile fh) where
  fds := by
    have hself : (w'.deleteFile fh).files fh = none := Function.update_self ..
    have hafter : (w'.deleteFile fh).heldBy (some fh) = [] := held_of_none hself
    have hbefore : w.heldBy (some fh) = fdList f.fd_ := held_of_files hf
    have hset : w'.openFds = (w'.deleteFile fh).openFds := rfl
    rw [hafter, hbefore]
    obtain ⟨evs, hl, hh, hg⟩ := hfds
    exact ⟨evs, hl, hh, hset ▸ hg⟩
  others := fun g hg =>
    (Function.update_of_ne (fun he => hg (congrArg some he.symm)) _ _).trans (congrFun hfiles.1 g)
  nextFile_le := hfiles.2.ge
  valid := by
    rintro g f' ⟨rfl⟩ hf'
    rw [show (w'.deleteFile fh).files fh = none from Function.update_self ..] at hf'
    cases hf'
  below := by
    rintro g ⟨rfl⟩ -
    exact Function.update_self ..

/-- `Release` closes what its file handle holds, and the file handle is gone. -/
theorem release_kept (w : World) (hok : w.HandleOk fh) :
    FdKept w (some fh) (w.release fh).1 := by
  cases hf : w.files fh with
  | none =>
      rw [release, hf]
      exact (FdQuiet.refl w).kept_some hok
  | some f =>
      rw [release, hf]
      dsimp only
      -- up to the `close`, only the times have been set
      generalize hwl : w.writeLock (w.store.keyOf f.handle_) = wl
      have hlock : w.FdQuiet wl := hwl ▸ fdQuiet_writeLock _ _
      have htimes : w.FdQuiet (if wl.store.mode f.handle_ = .write then
          wl.setValue f.handle_ (updateAttribute (wl.store.value f.handle_)
            { getAttribute (wl.store.value f.handle_) with
              st_atim_sec := wl.env.now, st_mtim_sec := wl.env.now })
        else wl) := by
        split
        · exact hlock.trans (.of_log rfl rfl rfl rfl)
        · exact hlock
      generalize (if wl.store.mode f.handle_ = .write then
          wl.setValue f.handle_ (updateAttribute (wl.store.value f.handle_)
            { getAttribute (wl.store.value f.handle_) with
              st_atim_sec := wl.env.now, st_mtim_sec := wl.env.now })
        else wl) = wt at htimes ⊢
      have hf' : wt.files fh = some f := (congrFun htimes.files fh).trans hf
      refine htimes.then (FdStep.kept_quiet (Fds.kept_deleteFile hf' ?_ ?_) (fdQuiet_unlock _ _))
      · refine Fds.trans ?_ (FdQuiet.fdsOwned (((fdQuiet_cacheWriteBack _ _).trans
          (fdQuiet_cacheRelease _ _)).trans (fdQuiet_cacheEvict _ _)) [])
        split
        · exact sysClose_own ((htimes.handleOk hok).valid f hf')
        · rename_i hneg
          rw [show f.fd_ = -1 from not_not.mp hneg]
          exact (FdQuiet.refl wt).fdsOwned []
      · split
        · exact files_ioClosed.sysClose wt f.fd_
        · exact ⟨rfl, rfl⟩

/-! ### `Truncate` -/

/-- What is owned at the end of a stretch that began with nothing is open. -/
theorem Fds.fdEntry {fd : ℤ} (h : Fds [] w (some (fdList fd)) w') (hvalid : fd = -1 ∨ 0 ≤ fd) :
    fd = -1 ∨ w'.fdEntry fd ≠ none := by
  refine hvalid.imp_right fun h0 => ?_
  obtain ⟨evs, -, hh, hg⟩ := h
  have hnone : Holds [] w.openFds := ⟨List.nodup_nil, fun _ h => absurd h List.not_mem_nil⟩
  have hmem : fd.toNat ∈ fdList fd := by
    rw [fdList, if_pos h0]
    exact List.mem_cons_self
  rw [World.fdEntry, if_pos h0]
  exact (hg.others hnone hh).1.inUse _ hmem

/-- `MigrateDiskFileToBuffer` closes what it opened. -/
theorem migrateDiskFileToBuffer_fds (w : World) (inode_id : UInt64) (buffer : Bytes) :
    Fds [] w (some []) (w.migrateDiskFileToBuffer inode_id buffer).1 ∧
      (w.migrateDiskFileToBuffer inode_id buffer).1.files = w.files ∧
      (w.migrateDiskFileToBuffer inode_id buffer).1.nextFile = w.nextFile := by
  unfold migrateDiskFileToBuffer
  dsimp only
  obtain ⟨hvalid, hopen⟩ := w.sysOpen_fds (getDiskFilePath inode_id) ⟨.rdOnly, false⟩ false []
  have hfiles := files_ioClosed.sysOpen w (getDiskFilePath inode_id) ⟨.rdOnly, false⟩ false
    trivial fun _ => trivial
  rw [List.append_nil] at hopen
  generalize w.sysOpen (getDiskFilePath inode_id) ⟨.rdOnly, false⟩ false = o at *
  have hread := fdQuiet_ioQuiet.sysPread o.1 o.2 buffer.length 0
  have hread' := hopen.trans (hread.fdsOwned _)
  generalize o.1.sysPread o.2 buffer.length 0 = r at *
  have hclose := files_ioClosed.sysClose r.1 o.2
  have hclosed := hread'.trans (sysClose_own (hread'.fdEntry hvalid))
  have hunlink := fdQuiet_ioQuiet.sysUnlink (r.1.sysClose o.2).1 (getDiskFilePath inode_id)
    trivial
  refine ⟨hclosed.trans (hunlink.fdsOwned []), ?_, ?_⟩
  · exact hunlink.files.trans (hclose.1.trans (hread.files.trans hfiles.1))
  · exact hunlink.nextFile.trans (hclose.2.trans (hread.nextFile.trans hfiles.2))

/-- `open` of the disk file under the path, with `O_CREAT`, fails. -/
def OpenFails (w : World) (path : BlobPath) : Prop :=
  w.outcome.Fails ∨ (w.os.disk.names path = none ∧ w.os.disk.subdirs path.1 = false)

/-- The disk file of the inode with the header `h` cannot be opened, or there is no data to write
to it, or all of it is written, or some of it and `errno` says nothing. -/
def MovedWhole (w : World) (h : InodeHeader) : Prop :=
  w.OpenFails (getDiskFilePath h.fstat.st_ino) ∨ offT h.fstat.st_size ≤ 0 ∨
    ∃ n ∈ (w.outcomeAt 1).written .wrOnly h.fstat.st_size.toNat,
      n = h.fstat.st_size.toNat ∨ w.ErrnoClear w.env.junkInt

/-- `Truncate` of the inline data under the header `h` to more than the threshold closes what it
opens and nothing else: what its `fd` happens to hold is no open descriptor, and it is not left
with one half-way. -/
def FdsApart (w : World) (h : InodeHeader) : Prop :=
  w.fdEntry w.env.junkInt = none ∧ w.MovedWhole h

/-- The `Truncate` takes the data of the inode with the header `h` to a disk file. -/
def MovesOut (w : World) (h : InodeHeader) (new_size : ℤ) : Prop :=
  ¬ 0 < h.has_blob ∧ w.threshold_ < new_size

/-- What a `Truncate` that takes the data of a file to a disk file needs. -/
def TruncateApart (w : World) (path : Bytes) (new_size : ℤ) : Prop :=
  ∀ value ∈ (w.pathLookup path).2.bind w.store.lookup,
    w.MovesOut (getInodeHeader value) new_size → w.FdsApart (getInodeHeader value)

instance instDecidableOpenFails (w : World) (path : BlobPath) : Decidable (w.OpenFails path) :=
  inferInstanceAs (Decidable (_ ∨ _))

instance instDecidableErrnoClear (w : World) (fd : ℤ) : Decidable (w.ErrnoClear fd) :=
  inferInstanceAs (Decidable (_ ∧ _))

instance instDecidableMovedWhole (w : World) (h : InodeHeader) : Decidable (w.MovedWhole h) :=
  inferInstanceAs (Decidable (_ ∨ _))

instance instDecidableFdsApart (w : World) (h : InodeHeader) : Decidable (w.FdsApart h) :=
  inferInstanceAs (Decidable (_ ∧ _))

instance instDecidableMovesOut (w : World) (h : InodeHeader) (new_size : ℤ) :
    Decidable (w.MovesOut h new_size) := inferInstanceAs (Decidable (_ ∧ _))

instance instDecidableTruncateApart (w : World) (path : Bytes) (new_size : ℤ) :
    Decidable (w.TruncateApart path new_size) :=
  inferInstanceAs (Decidable (∀ value ∈ (w.pathLookup path).2.bind w.store.lookup,
    w.MovesOut (getInodeHeader value) new_size → w.FdsApart (getInodeHeader value)))

theorem sysOpen_fails_iff (w : World) (path : BlobPath) (flags : OpenFlags) :
    (w.sysOpen path flags true).2 = -1 ↔ w.OpenFails path := by
  have hopened : ∀ n : ℕ, ((n : ℤ) = -1) = False := fun n => eq_false (by omega)
  rw [sysOpen, nextIo_eq, OpenFails]
  cases ho : w.outcome with
  | fail e => exact iff_of_true rfl (Or.inl ⟨e, rfl⟩)
  | _ =>
      dsimp only
      rw [or_iff_right (by rintro ⟨e, he⟩; cases he)]
      cases hname : w.os.disk.names path with
      | some file =>
          rw [show w.afterIo.os.disk.names path = some file from hname, hopened, false_iff]
          exact fun h => Option.some_ne_none file h.1
      | none =>
          rw [show w.afterIo.os.disk.names path = none from hname]
          dsimp only
          cases hdir : w.os.disk.subdirs path.1 with
          | true =>
              rw [if_pos ⟨rfl, hdir⟩, hopened, false_iff]
              exact fun h => Bool.noConfusion h.2
          | false =>
              rw [if_neg fun h => Bool.noConfusion (hdir.symm.trans h.2)]
              exact iff_of_true rfl ⟨rfl, rfl⟩

/-- A remainder that is positive is the number itself. -/
theorem bmod_of_pos {z : ℤ} {m : ℕ} (h0 : 0 ≤ z) (hlt : z < m) (h : 0 < Int.bmod z m) :
    Int.bmod z m = z := by
  rw [Int.bmod_def, Int.emod_eq_of_lt h0 hlt] at h ⊢
  split at h
  · rename_i hhalf
    rw [if_pos hhalf]
  · omega

theorem offT_of_pos {x : UInt64} (h : 0 < offT x) : offT x = x.toNat :=
  bmod_of_pos (Int.natCast_nonneg _) (Int.ofNat_lt.mpr x.toNat_lt) h

/-- When `MigrateToDiskFile` succeeds for `Truncate`, or opens no disk file. -/
theorem migrate_ret_iff (w : World) (handle : ℕ) :
    ((w.migrateToDiskFile handle w.env.junkInt ⟨.wrOnly, true⟩).2.2 = -1 ∨
        (w.migrateToDiskFile handle w.env.junkInt ⟨.wrOnly, true⟩).2.1 = 0) ↔
      w.MovedWhole (w.iheader handle) := by
  have herr := w.closed_errno w.env.junkInt
  have hio : (w.closed w.env.junkInt).os.ioFaults = w.os.ioFaults := by
    unfold closed
    split
    · exact (w.sysClose_data _).2.2.1
    · rfl
  have hfails : ∀ p, (w.closed w.env.junkInt).OpenFails p ↔ w.OpenFails p := by
    intro p
    unfold OpenFails outcome
    rw [hio, (w.closed_data w.env.junkInt).1]
  rw [migrateToDiskFile_eq, MovedWhole]
  generalize w.closed w.env.junkInt = wc at *
  generalize w.iheader handle = iheader at *
  rw [show wc.openDiskFile iheader ⟨.wrOnly, true⟩
    = wc.sysOpen (getDiskFilePath iheader.fstat.st_ino) ⟨.wrOnly, true⟩ true from rfl]
  have hopens := (wc.sysOpen_fails_iff (getDiskFilePath iheader.fstat.st_ino)
    ⟨.wrOnly, true⟩).trans (hfails _)
  rcases wc.sysOpen_cases (getDiskFilePath iheader.fstat.st_ino) ⟨.wrOnly, true⟩ true with
    ⟨hneg, -⟩ | ⟨file, hopen⟩
  · rw [migrateOpened_fd handle iheader (Or.inl hneg)]
    exact iff_of_true (Or.inl hneg) (Or.inl (hopens.mp hneg))
  · generalize wc.sysOpen (getDiskFilePath iheader.fstat.st_ino) ⟨.wrOnly, true⟩ true = o at *
    have hfd := hopen.fd_eq
    have hentry : o.1.fdEntry o.2 = some ⟨file, .wrOnly⟩ := by
      rw [hfd, fdEntry_natCast, hopen.fds, Function.update_self]
    have hne : o.2 ≠ -1 := by omega
    rw [migrateOpened_fd handle iheader (Or.inr (by omega)), or_iff_right hne,
      or_iff_right (mt hopens.mpr hne), migrateOpened, if_neg (by omega)]
    by_cases hsize : 0 < offT iheader.fstat.st_size
    · rw [if_pos hsize, or_iff_right (not_le.mpr hsize)]
      dsimp only
      have hlen := length_resize ((o.1.store.value handle).drop
        (TFS_INODE_HEADER_SIZE + iheader.namelen.toNat + 1)) iheader.fstat.st_size.toNat
      have hout : o.1.outcome = w.outcomeAt 1 := outcome_of_drop (by
        rw [hopen.ioFaults, hio, List.drop_one])
      have hwrite := sysPwrite_outcome hentry (Int.le_refl 0) (resize ((o.1.store.value handle).drop
        (TFS_INODE_HEADER_SIZE + iheader.namelen.toNat + 1)) iheader.fstat.st_size.toNat)
      rw [hlen, hout] at hwrite
      rw [offT_of_pos hsize]
      rcases hwrite with ⟨hnone, hret, hfail⟩ | ⟨n, hsome, hret, hwrote, -⟩
      · -- a `pwrite` that fails sets `errno`
        have herrno := hfail.errno
        rw [hret, hnone, if_pos (by omega), fsError]
        refine iff_of_false (by omega) ?_
        rintro ⟨n, hn, -⟩
        cases hn
      · -- one that is short leaves it as it was after the first `close`
        rw [hret, hsome, fsError, hwrote.errno, hopen.errno, ← herr]
        constructor
        · intro h
          refine ⟨n, rfl, ?_⟩
          split at h
          · exact Or.inr (by omega)
          · rename_i heq
            exact Or.inl (Int.ofNat_inj.mp (not_not.mp heq))
        · rintro ⟨n', hn', hwhole⟩
          obtain rfl := Option.some.inj hn'
          split
          · rename_i hpart
            rw [hwhole.resolve_left fun he => hpart (congrArg Nat.cast he)]
            rfl
          · rfl
    · rw [if_neg hsize]
      exact iff_of_true rfl (Or.inl (not_lt.mp hsize))

/-- What `Truncate` of inline data to more than the threshold owns in the end: nothing, if it
has closed no descriptor that it had not opened, and `MigrateToDiskFile` has succeeded or opened
none. -/
theorem truncateMigrate_fds (w : World) (handle : ℕ) (new_size : ℤ) :
    ∃ own'', Fds [] w own'' (w.truncateMigrate handle new_size).1 ∧
      (own'' = some [] ↔ w.FdsApart (w.iheader handle)) := by
  obtain ⟨hvalid, hrest⟩ := w.migrate_rest handle w.env.junkInt ⟨.wrOnly, true⟩
  have hret := w.migrate_ret_iff handle
  unfold truncateMigrate
  dsimp only
  generalize w.migrateToDiskFile handle w.env.junkInt ⟨.wrOnly, true⟩ = m at *
  have hsync : m.1.FdQuiet (if (m.1.sysFtruncate m.2.2 new_size).2 = 0 then
      ((m.1.sysFtruncate m.2.2 new_size).1.sysFsync m.2.2).1
      else (m.1.sysFtruncate m.2.2 new_size).1) := by
    have htrunc := fdQuiet_ioQuiet.sysFtruncate m.1 m.2.2 new_size fun _ _ => trivial
    split
    · exact htrunc.trans (fdQuiet_ioQuiet.sysFsync _ _)
    · exact htrunc
  by_cases hjunk : w.fdEntry w.env.junkInt = none
  · have hmoved := ((closed_quiet hjunk).fdsOwned []).trans hrest
    by_cases hzero : m.2.1 = 0
    · refine ⟨some [], ?_, iff_of_true rfl ⟨hjunk, hret.mp (Or.inr hzero)⟩⟩
      rw [if_pos hzero]
      have hkept := hmoved.trans (hsync.fdsOwned _)
      exact hkept.trans (sysClose_own (hkept.fdEntry hvalid))
    · refine ⟨some (fdList m.2.2), ?_, ?_⟩
      · rw [if_neg hzero]
        exact hmoved
      · -- it forgets the descriptor, if it got one
        have hnil : fdList m.2.2 = [] ↔ m.2.2 = -1 := by
          rcases hvalid with hneg | hpos
          · rw [hneg]
            exact iff_of_true rfl rfl
          · rw [fdList, if_pos hpos]
            exact iff_of_false nofun fun he => absurd (he ▸ hpos) (by decide)
        rw [Option.some.injEq, hnil]
        constructor
        · exact fun hneg => ⟨hjunk, hret.mp (Or.inl hneg)⟩
        · exact fun hap => (hret.mpr hap.2).resolve_right hzero
  · -- it closes a descriptor that it has not opened
    obtain ⟨h0, -⟩ := fdEntry_mem hjunk
    have hbad : Fds [] w none (w.closed w.env.junkInt) := by
      rw [closed, if_pos h0]
      exact sysClose_fds hjunk []
    refine ⟨none, ?_, iff_of_false nofun fun hap => hjunk hap.1⟩
    split
    · obtain ⟨own₁, hclose⟩ := sysClose_any (if (m.1.sysFtruncate m.2.2 new_size).2 = 0 then
        ((m.1.sysFtruncate m.2.2 new_size).1.sysFsync m.2.2).1
        else (m.1.sysFtruncate m.2.2 new_size).1) m.2.2 []
      exact ((hbad.stuck hrest).quiet hsync).stuck hclose
    · exact hbad.stuck hrest

theorem truncateMigrate_files (w : World) (handle : ℕ) (new_size : ℤ) :
    (w.truncateMigrate handle new_size).1.files = w.files ∧
      (w.truncateMigrate handle new_size).1.nextFile = w.nextFile := by
  have hm := w.migrate_files handle w.env.junkInt ⟨.wrOnly, true⟩
  unfold truncateMigrate
  dsimp only
  generalize w.migrateToDiskFile handle w.env.junkInt ⟨.wrOnly, true⟩ = m at *
  split
  · have htrunc := files_ioClosed.quiet.sysFtruncate m.1 m.2.2 new_size fun _ _ => trivial
    refine files_ioClosed.trans (files_ioClosed.trans hm ?_) (files_ioClosed.sysClose _ _)
    split
    · exact files_ioClosed.trans htrunc (files_ioClosed.quiet.sysFsync _ _)
    · exact htrunc
  · exact hm

theorem truncateData_fds (w : World) (handle : ℕ) (new_size : ℤ) :
    ∃ own'', Fds [] w own'' (w.truncateData handle new_size).1 ∧
      (own'' = some [] ↔
        (w.MovesOut (w.iheader handle) new_size → w.FdsApart (w.iheader handle))) := by
  unfold truncateData
  dsimp only
  split
  · rename_i hblob
    refine ⟨some [], ?_, iff_of_true rfl fun hmoves => absurd hblob hmoves.1⟩
    split
    · exact (fdQuiet_ioQuiet.sysTruncate _ _ _ fun _ _ => trivial).fdsOwned []
    · exact (w.migrateDiskFileToBuffer_fds _ _).1.quiet (.of_log rfl rfl rfl rfl)
  · rename_i hinline
    split
    · rename_i hbig
      rw [imp_iff_right ⟨hinline, hbig⟩]
      exact w.truncateMigrate_fds handle new_size
    · rename_i hsmall
      exact ⟨some [], FdQuiet.fdsOwned (.of_log rfl rfl rfl rfl) [],
        iff_of_true rfl fun hmoves => absurd hmoves.2 hsmall⟩

theorem truncateData_files (w : World) (handle : ℕ) (new_size : ℤ) :
    (w.truncateData handle new_size).1.files = w.files ∧
      (w.truncateData handle new_size).1.nextFile = w.nextFile := by
  unfold truncateData
  dsimp only
  split
  · split
    · exact files_ioClosed.quiet.sysTruncate _ _ _ fun _ _ => trivial
    · exact (w.migrateDiskFileToBuffer_fds _ _).2
  · split
    · exact w.truncateMigrate_files handle new_size
    · exact ⟨rfl, rfl⟩

theorem truncate_step (w : World) (path : Bytes) (new_size : ℤ) :
    ∃ own'', FdStep w none own'' (w.truncate path new_size).1 ∧
      (own'' = some [] ↔ w.TruncateApart path new_size) := by
  have hlooked := w.pathLookup_looked path
  rcases hp : w.pathLookup path with ⟨w₁, _ | key⟩
  · refine ⟨some [], ?_, iff_of_true rfl ?_⟩
    · rw [truncate, hp]
      exact (fdQuiet_pathLookup hp).kept_none
    · intro value hvalue
      rw [hp] at hvalue
      cases hvalue
  · rw [hp] at hlooked
    rcases hg : w₁.cacheGet key .write with ⟨w₂, _ | i⟩
    · refine ⟨some [], ?_, iff_of_true rfl ?_⟩
      · simp only [truncate, hp, hg]
        exact (((fdQuiet_pathLookup hp).trans (fdQuiet_cacheGet hg)).trans
          ((fdQuiet_writeLock _ _).trans (fdQuiet_unlock _ _))).kept_none
      · intro value hvalue
        have hnone := (cacheGet_none hg).2
        rw [hlooked.lookup] at hnone
        rw [hp, Option.bind_some, hnone] at hvalue
        cases hvalue
    · have hlock := ((fdQuiet_pathLookup hp).trans (fdQuiet_cacheGet hg)).trans
        (w₂.fdQuiet_writeLock key)
      have hbefore := cacheGet_surroundings hp hg
      obtain ⟨hos, hthr, henv⟩ : (w₂.writeLock key).os = w.os ∧
          (w₂.writeLock key).threshold_ = w.threshold_ ∧ (w₂.writeLock key).env = w.env := hbefore
      have hvalue : w.store.lookup key = some ((w₂.writeLock key).store.value i) := by
        have hl := cacheGet_lookup hg
        rw [hlooked.lookup] at hl
        exact hl
      obtain ⟨own'', hfds, hown⟩ := (w₂.writeLock key).truncateData_fds i new_size
      have hfiles := (w₂.writeLock key).truncateData_files i new_size
      refine ⟨own'', ?_, hown.trans ?_⟩
      · have hset : (((w₂.writeLock key).truncateData i new_size).1).FdQuiet
            ((w₂.writeLock key).truncated i new_size).1 := by
          rw [truncated]
          dsimp only
          split
          · exact fdQuiet_setHeader _ _ _
          · exact .refl _
        rw [(truncate_some hp hg new_size).1]
        exact hlock.then (((hfds.step_none hfiles).quiet hset).quiet
          (((fdQuiet_cacheWriteBack _ i).trans (fdQuiet_cacheRelease _ i)).trans
            (fdQuiet_unlock _ key)))
      · rw [TruncateApart, hp, Option.bind_some, hvalue]
        unfold MovesOut FdsApart MovedWhole OpenFails ErrnoClear outcome outcomeAt World.fdEntry
          iheader
        rw [hos, hthr, henv]
        simp only [Option.mem_some_iff, forall_eq']

end Steps

end World

end Tablefs
