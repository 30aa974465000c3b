/-
Symbolic links.

The target of a link is the inline data of its record, behind a header and a name. `Rename`
puts another name in front of it and a change of attributes rewrites the header; neither
touches the target, so `Readlink` finds the bytes that `Symlink` was given, after any number
of such edits (`symlink_survives`).

That takes caches that agree with the store when the link is made. A handle of another
record, given back late, can leave an entry of the inode cache under the link's key, and the
next change of the link's attributes stores that entry over the link (`symlink_lost`). And
`Rename` must not take the link to a path that leads through the link itself: the record is
moved, and the path leads nowhere.
-/
import Tablefs.Attributes
import Tablefs.Rename
import Tablefs.DentryCoherence

set_option autoImplicit false

namespace Tablefs

open ByteString

/-! ## Paths in a store that grows -/

theorem resolveWalk_mono {f g : MetaKey → Option UInt64} (h : ∀ k i, f k = some i → g k = some i)
    {key : MetaKey} {inode : UInt64} {items : List Bytes} {p : MetaKey × UInt64}
    (hf : resolveWalk f key inode items = some p) : resolveWalk g key inode items = some p := by
  induction items generalizing key inode with
  | nil => exact hf
  | cons item items ih =>
      rw [resolveWalk, Option.bind_eq_some_iff] at hf ⊢
      obtain ⟨i, hi, hrest⟩ := hf
      exact ⟨i, h _ _ hi, ih hrest⟩

/-- A path leads to the same key when there are more records. -/
theorem resolve_mono {f g : MetaKey → Option UInt64} (h : ∀ k i, f k = some i → g k = some i)
    {path : Bytes} {key : MetaKey} (hf : resolve f path = some key) : resolve g path = some key := by
  rw [resolve, Option.map_eq_some_iff] at hf ⊢
  obtain ⟨p, hp, rfl⟩ := hf
  exact ⟨p, resolveWalk_mono h hp, rfl⟩

/-! ## Calls on a link -/

/-- A call on the link: it is moved to another path, or an attribute is set. -/
inductive LinkOp
  | rename (new_path : Bytes)
  | chmod (mode : UInt32)
  | chown (uid gid : UInt32)
  | updateTimens (atime mtime : UInt64)

/-- The call, for the link at `path`. -/
def LinkOp.op (path : Bytes) : LinkOp → Op
  | .rename new_path => .rename path new_path
  | .chmod mode => .chmod path mode
  | .chown uid gid => .chown path uid gid
  | .updateTimens atime mtime => .updateTimens path atime mtime

/-- The path of the link after the call. -/
def LinkOp.pathAfter (path : Bytes) (ret : ℤ) : LinkOp → Bytes
  | .rename new_path => if ret = 0 then new_path else path
  | _ => path

namespace World

open Store

variable {w : World} {path target : Bytes} {key : MetaKey}

/-- The state and the path of the link after a call on it. -/
def linkStep (s : World × Bytes) (a : LinkOp) : World × Bytes :=
  (s.1.next (a.op s.2), a.pathAfter s.2 (s.1.step (a.op s.2)).2.ret)

/-- A `Rename` takes the link to a path without a record, which leads to its key also without
the link. -/
def KeepsLink (s : World × Bytes) : LinkOp → Prop
  | .rename new_path => GoodPath new_path ∧
      ∀ new_key ∈ (s.1.pathLookup new_path).2, s.1.store.dbGet new_key = none ∧
        ∀ key ∈ (s.1.pathLookup s.2).2,
          resolve (Function.update s.1.store.ino key none) new_path = some new_key
  | _ => True

instance (s : World × Bytes) : DecidablePred (KeepsLink s) := fun a => match a with
  | .rename _ => inferInstanceAs (Decidable (_ ∧ _))
  | .chmod _ | .chown _ _ | .updateTimens _ _ => inferInstanceAs (Decidable True)

/-- No file is open, the caches agree with the store, and the path leads to a record whose
inline data is the target. -/
structure LinkAt (target : Bytes) (s : World × Bytes) : Prop where
  inStep : s.1.InStep
  dentry : s.1.DentryInv
  files : ∀ n, s.1.files n = none
  link : ∃ key, ∃ r : InodeRecord, (s.1.pathLookup s.2).2 = some key ∧
    s.1.store.dbGet key = some r.value ∧ r.inline = target

theorem ino_of_dbGet {s : Store} {v : Bytes} (h : s.dbGet key = some v) :
    s.ino key = some (inoOf v) := by
  rw [Store.ino, h, Option.map_some]

/-! ## Each call -/

/-- With nothing open every entry of the table is stored. -/
theorem InStep.dropsStored (h : w.InStep) (hf : ∀ n, w.files n = none) (key : MetaKey) :
    w.store.DropsStored key := by
  intro i hi _
  obtain ⟨hmode, u, hu, hr⟩ := h.table_all hf i hi (fun hx => hx)
  have huv : w.store.value i = u := hr
  exact ⟨huv ▸ hu, fun _ => hmode⟩

/-- `Symlink` puts a record with the target as inline data. -/
theorem symlink_makes (hdb : w.store.dbFaults = []) (hgood : GoodPath path)
    (hk : (w.pathLookup path).2 = some key) (target : Bytes) :
    (w.symlink target path).1.files = w.files ∧
      (∃ r : InodeRecord, (w.symlink target path).1.store.dbGet key = some r.value ∧
        r.inline = target) ∧
      ∀ k, k ≠ key → (w.symlink target path).1.store.dbGet k = w.store.dbGet k := by
  have hl := w.pathLookup_looked path
  rcases hp : w.pathLookup path with ⟨w₁, o⟩
  rw [hp] at hk hl
  dsimp only at hk hl
  subst hk
  have hname : (filenameOf path).length < 2 ^ 32 := by
    have := hgood.goodName.short
    rw [hgood.filename]
    omega
  obtain ⟨r, hr, _, hinline, _⟩ :=
    w.initInodeValue_record (w.max_inode_num + 1) S_IFLNK 0 (filenameOf path) target hname
  have hu := (w₁.create_upToData key r.value).trans (upToData_unlock _ key)
  rw [symlink, hp]
  dsimp only
  rw [newInode_initInodeValue hl, ← hr]
  obtain ⟨os, log, _, hu⟩ := hu
  rw [hu]
  have hget : ∀ k, (w₁.store.dbPut key r.value).1.dbGet k
      = if key = k then some r.value else w₁.store.dbGet k := by
    intro k
    rw [dbPut_ok _ _ _ (hl.dbFaults.trans hdb), commit_put_dbGet]
  refine ⟨hl.files, ⟨r, (hget key).trans (if_pos rfl), hinline⟩, ?_⟩
  intro k hne
  refine ((hget k).trans (if_neg (Ne.symm hne))).trans ?_
  exact congrArg (fun db : MetaDb => db.get k.toSlice) hl.metadb

/-- A change of attributes can be made in any state. -/
theorem attributeEdit_keeps (w : World) {op : Op} {p : Bytes × (Stat → Stat)}
    (hop : op.attributeEdit = some p) : op.WellFormed ∧ StoreWorks op ∧ w.CreatesAbsent op ∧
      w.KeepsRecords op ∧ w.KeepsDentry op := by
  cases op
  case chmod => exact ⟨trivial, trivial, trivial, trivial, trivial⟩
  case chown => exact ⟨trivial, trivial, trivial, trivial, trivial⟩
  case updateTimens => exact ⟨trivial, trivial, trivial, trivial, trivial⟩
  all_goals cases hop

/-- A path that led to a key still does when no record has gone or got another number. -/
theorem pathLookup_mono {w' : World} (hd : w.DentryCoherent) (hd' : w'.DentryCoherent)
    (hino : ∀ k i, w.store.ino k = some i → w'.store.ino k = some i)
    (hk : (w.pathLookup path).2 = some key) : (w'.pathLookup path).2 = some key := by
  rw [(pathLookup_eq hd path).1] at hk
  rw [(pathLookup_eq hd' path).1]
  exact resolve_mono hino hk

/-- A change of attributes keeps the target. -/
theorem LinkAt.edit (h : LinkAt target (w, path)) {op : Op} {edit : Stat → Stat}
    (hop : op.attributeEdit = some (path, edit)) (hino : ∀ s, (edit s).st_ino = s.st_ino) :
    LinkAt target (w.next op, path) := by
  obtain ⟨hin, hd, hf, key, r, hk, hr, rfl⟩ := h
  dsimp only at hin hd hf hk hr
  obtain ⟨hwf, hworks, hcreates, hkeeps, hkeeps'⟩ := attributeEdit_keeps w hop
  have hd' := hd.step hwf hcreates hkeeps'
  have hlook : w.store.lookup key = some r.value := by
    rw [(hin.table_all hf).lookup_eq, hr]
  obtain ⟨unlocks, hw, _⟩ := step_attributeEdit (w := w) hop
  obtain ⟨_, hfiles, ⟨r', hr', _, hstored⟩, _, hothers⟩ :=
    editAttribute_edits hin.records hin.dbFaults hk (by rw [hlook]; simp) edit unlocks hw
  have hrest := hothers.mpr (hin.dropsStored hf key)
  obtain rfl : r' = r := InodeRecord.value_inj (Option.some.inj (hr'.symm.trans hlook))
  refine ⟨hin.step hwf hworks hcreates hkeeps, hd', ?_, key,
    r'.setStat (edit r'.header.fstat), ?_, hstored, rfl⟩
  · intro n
    exact (congrFun hfiles n).trans (hf n)
  · refine pathLookup_mono hd.dentry hd'.dentry ?_ hk
    intro k i hi
    by_cases hkk : k = key
    · -- the link's inode number stays
      subst hkk
      rw [ino_of_dbGet hr, inoOf, r'.getAttribute_value] at hi
      have hi' := ino_of_dbGet hstored
      rw [inoOf, InodeRecord.getAttribute_value] at hi'
      rw [← hi]
      exact hi'.trans (congrArg some (hino _))
    · rw [← hi, Store.ino, Store.ino]
      exact congrArg (Option.map inoOf) (hrest k hkk).2

/-- A `Rename` that fails to look a path up changes no record and no open file. -/
theorem rename_of_none {old_path new_path : Bytes}
    (hk : (w.pathLookup old_path).2 = some key)
    (hn : ((w.pathLookup old_path).1.pathLookup new_path).2 = none) :
    (w.rename old_path new_path).2 = -ENOENT ∧ w.Looked (w.rename old_path new_path).1 := by
  have hl := w.pathLookup_looked old_path
  rcases hp : w.pathLookup old_path with ⟨w₁, o⟩
  rw [hp] at hk hl hn
  dsimp only at hk hn
  subst hk
  have hl' := w₁.pathLookup_looked new_path
  have herr := w₁.pathLookup_errno new_path
  rcases hq : w₁.pathLookup new_path with ⟨w₂, o⟩
  rw [hq] at hn hl' herr
  dsimp only at hn
  subst hn
  rw [rename, hp]
  dsimp only
  rw [hq]
  dsimp only at herr ⊢
  rw [if_pos rfl] at herr
  exact ⟨by rw [fsError, herr], hl.trans hl'⟩

/-- `Rename` keeps the target. -/
theorem LinkAt.rename (h : LinkAt target (w, path)) {new_path : Bytes}
    (hkeeps : KeepsLink (w, path) (.rename new_path)) :
    LinkAt target (linkStep (w, path) (.rename new_path)) := by
  obtain ⟨hin, hd, hf, key, r, hk, hr, rfl⟩ := h
  obtain ⟨hgood, habsent⟩ := hkeeps
  dsimp only at hin hd hf hk hr habsent
  have hin' : (w.next (.rename path new_path)).InStep := hin.step hgood trivial trivial trivial
  have hd' : (w.next (.rename path new_path)).DentryInv := hd.step hgood trivial hin.dbFaults
  -- the second lookup answers like the first
  have hn : ((w.pathLookup path).1.pathLookup new_path).2 = (w.pathLookup new_path).2 := by
    rw [(pathLookup_eq (pathLookup_eq hd.dentry path).2 new_path).1,
      (pathLookup_eq hd.dentry new_path).1, (w.pathLookup_looked path).ino]
  cases hnew : (w.pathLookup new_path).2 with
  | none =>
      obtain ⟨hret, hl⟩ := rename_of_none hk (hn.trans hnew)
      have hpath : (linkStep (w, path) (.rename new_path)).2 = path := by
        show (if (w.rename path new_path).2 = 0 then new_path else path) = path
        rw [if_neg (by rw [hret]; decide)]
      refine ⟨hin', hd', fun n => (congrFun hl.files n).trans (hf n), key, r, ?_, ?_, rfl⟩
      · rw [hpath]
        refine pathLookup_mono hd.dentry hd'.dentry ?_ hk
        intro k i hi
        exact (congrFun hl.ino k).trans hi
      · rw [← hr]
        exact congrArg (fun db : MetaDb => db.get key.toSlice) hl.metadb
  | some new_key =>
      obtain ⟨hnone, hthrough⟩ := habsent new_key hnew
      have hne : key ≠ new_key := by
        rintro rfl
        rw [hr] at hnone
        cases hnone
      obtain ⟨hret, hmoved⟩ := (hin.renameMoves hf hgood key new_key hk (hn.trans hnew) hne).1 _ hr
      obtain ⟨r₀, r', hr₀, hr', _, hinline, _⟩ := hmoved.record
      obtain rfl := InodeRecord.value_inj hr₀
      have hpath : (linkStep (w, path) (.rename new_path)).2 = new_path := by
        show (if (w.rename path new_path).2 = 0 then new_path else path) = new_path
        rw [if_pos hret]
      refine ⟨hin', hd', ?_, new_key, r', ?_, hr', hinline⟩
      · intro n
        obtain ⟨w₂, hl, _, hu, _⟩ := rename_cases hk (hn.trans hnew)
        show (w.rename path new_path).1.files n = none
        rw [hu.files, perform_files_of_move, hl.files, hf]
      · -- the new path does not need the old record
        rw [hpath]
        show ((w.next (.rename path new_path)).pathLookup new_path).2 = some new_key
        rw [(pathLookup_eq hd'.dentry new_path).1]
        refine resolve_mono ?_ (hthrough key hk)
        intro k i hi
        by_cases hkk : k = key
        · rw [hkk, Function.update_self] at hi
          cases hi
        · rw [Function.update_of_ne hkk] at hi
          have hk' : k ≠ new_key := by
            rintro rfl
            rw [Store.ino, hnone] at hi
            cases hi
          rw [← hi, Store.ino, Store.ino]
          refine congrArg (Option.map inoOf) (hmoved.others k.toSlice ?_ ?_)
          · exact fun he => hkk (MetaKey.toSlice_inj he)
          · exact fun he => hk' (MetaKey.toSlice_inj he)

theorem LinkAt.step {s : World × Bytes} (h : LinkAt target s) {a : LinkOp} (ha : KeepsLink s a) :
    LinkAt target (linkStep s a) := by
  obtain ⟨w, path⟩ := s
  cases a with
  | rename new_path => exact h.rename ha
  | chmod mode =>
      have hedit : LinkAt target (w.next (.chmod path mode), path) := h.edit rfl fun _ => rfl
      exact hedit
  | chown uid gid =>
      have hedit : LinkAt target (w.next (.chown path uid gid), path) := h.edit rfl fun _ => rfl
      exact hedit
  | updateTimens atime mtime =>
      have hedit : LinkAt target (w.next (.updateTimens path atime mtime), path) :=
        h.edit rfl fun _ => rfl
      exact hedit

/-- A new link. -/
theorem LinkAt.made (hin : w.InStep) (hd : w.DentryInv) (hf : ∀ n, w.files n = none)
    (hgood : GoodPath path) (hk : (w.pathLookup path).2 = some key)
    (hnone : w.store.dbGet key = none) (target : Bytes) :
    LinkAt target (w.next (.symlink target path), path) := by
  have habsent : w.CreatesAbsent (.symlink target path) := by
    show (w.pathLookup path).2.bind w.store.dbGet = none
    rw [hk]
    exact hnone
  have hd' : (w.next (.symlink target path)).DentryInv := hd.step hgood habsent trivial
  have hin' : (w.next (.symlink target path)).InStep := hin.step hgood trivial habsent trivial
  obtain ⟨hfiles, ⟨r, hr, hinline⟩, hrest⟩ := symlink_makes hin.dbFaults hgood hk target
  refine ⟨hin', hd', ?_, key, r, ?_, hr, hinline⟩
  · intro n
    exact (congrFun hfiles n).trans (hf n)
  · refine pathLookup_mono hd.dentry hd'.dentry ?_ hk
    intro k i hi
    have hne : k ≠ key := by
      rintro rfl
      rw [Store.ino, hnone] at hi
      cases hi
    rw [← hi, Store.ino, Store.ino]
    exact congrArg (Option.map inoOf) (hrest k hne)

/-! ## Reading the link -/

/-- What `Readlink` stores in a buffer of `size` bytes when it succeeds. -/
def readlinkBuffer (w : World) (path : Bytes) (size : ℕ) : Bytes :=
  (w.readlink path size).2.2 ++ [0]

/-- `Readlink` of a link whose record, and a buffer which, fit the address space. -/
theorem LinkAt.readlink {s : World × Bytes} (h : LinkAt target s) (htarget : target.length < 2 ^ 62)
    {n : ℕ} (hn : 1 ≤ n) (hn' : n < 2 ^ 63) :
    (s.1.readlink s.2 n).2.1 = 0 ∧
      s.1.readlinkBuffer s.2 n = target.take (min target.length (n - 1)) ++ [0] ∧
      (s.1.readlinkBuffer s.2 n).length ≤ n := by
  obtain ⟨w, path⟩ := s
  obtain ⟨_, _, _, key, r, hk, hr, rfl⟩ := h
  dsimp only at hk hr ⊢
  have hl := w.pathLookup_looked path
  rcases hp : w.pathLookup path with ⟨w₁, o⟩
  rw [hp] at hk hl
  dsimp only at hk hl
  subst hk
  have hr₁ : (w₁.readLock key).store.dbGet key = some r.value := by
    rw [← hr]
    exact congrArg (fun db : MetaDb => db.get key.toSlice) hl.metadb
  have hsize : sizeT ((n : ℤ) - 1) = n - 1 := by
    unfold sizeT
    omega
  have hstart := r.dataStart_lt
  have hlen := r.length_value
  have hdata : (getInlineData r.value 0 (n - 1)).2 = r.inline.take (n - 1) := by
    rw [r.getInlineData_value 0 (n - 1) (by omega) (by omega)]
    rfl
  have hread : (w.readlink path n).2 = (0, r.inline.take (n - 1)) := by
    rw [World.readlink, hp]
    dsimp only
    rw [hr₁]
    dsimp only
    rw [hsize, hdata]
  have htake : r.inline.take (min r.inline.length (n - 1)) = r.inline.take (n - 1) := by
    rw [List.take_eq_take_iff]
    omega
  rw [readlinkBuffer, hread, htake]
  refine ⟨rfl, rfl, ?_⟩
  rw [List.length_append, List.length_take, List.length_singleton]
  omega

/-- In every run whose creators act on absent paths, whose store writes succeed and whose
handles given back late agree with the caches: when no file is open, `Readlink` finds the target
of a new link after any calls on the link that leave a way to it. -/
theorem symlink_survives {d : Durable} (hd : d.Records) (cfg : MountConfig) (ops : List Op)
    (hwf : ∀ op ∈ ops, op.WellFormed) (hop : ∀ op ∈ ops, StoreWorks op)
    (hc : (mount d cfg).Meets CreatesAbsent ops) (hk : (mount d cfg).Meets KeepsRecords ops)
    (hk' : (mount d cfg).Meets KeepsDentry ops)
    (hfiles : ∀ n, ((mount d cfg).run ops).files n = none) (htarget : target.length < 2 ^ 62)
    (hgood : GoodPath path) (hkey : (((mount d cfg).run ops).pathLookup path).2 = some key)
    (hnone : ((mount d cfg).run ops).store.dbGet key = none) (as : List LinkOp)
    (has : Transition.Meets linkStep KeepsLink
      (((mount d cfg).run ops).next (.symlink target path), path) as) {s : World × Bytes}
    (hs : s = Transition.run linkStep
      (((mount d cfg).run ops).next (.symlink target path), path) as)
    {n : ℕ} (hn : 1 ≤ n) (hn' : n < 2 ^ 63) :
    (s.1.readlink s.2 n).2.1 = 0 ∧
      s.1.readlinkBuffer s.2 n = target.take (min target.length (n - 1)) ++ [0] ∧
      (s.1.readlinkBuffer s.2 n).length ≤ n := by
  have hin := (mount_inStep hd cfg).run hwf hop hc hk
  have hdentry := (mount_dentryInv hd cfg).run hwf hc hk'
  have hlink : LinkAt target s := by
    rw [hs]
    exact Transition.run_invariant (P := LinkAt target) (fun _ _ h ha => h.step ha)
      (LinkAt.made hin hdentry hfiles hgood hkey hnone target) has
  exact hlink.readlink htarget hn hn'

/-- A link is made, moved into a directory under a longer name, and changed. -/
def movedLink : List LinkOp :=
  [.rename [47, 100, 47, 109, 110], .chmod 0xA1FF, .chown 1 2, .updateTimens 3 4]

theorem movedLink_survives :
    ((Transition.run linkStep (((mount Durable.empty plainConfig).run [.makeDir [47, 100] 0]).next
        (.symlink [120, 121, 122] [47, 108]), [47, 108]) movedLink).1.readlink
      (Transition.run linkStep (((mount Durable.empty plainConfig).run [.makeDir [47, 100] 0]).next
        (.symlink [120, 121, 122] [47, 108]), [47, 108]) movedLink).2 3).2.1 = 0 := by
  have hkey : (((mount Durable.empty plainConfig).run [.makeDir [47, 100] 0]).pathLookup
      [47, 108]).2 = some (buildMetaKey [108] 0) := by
    decide +kernel
  exact (symlink_survives empty_records plainConfig [.makeDir [47, 100] 0] (by decide) (by decide)
    (by decide +kernel) ⟨trivial, trivial⟩ ⟨trivial, trivial⟩ (fun _ => rfl) (by decide)
    (by decide) hkey (by decide +kernel) movedLink (by decide +kernel) rfl (by decide)
    (by decide)).1

/-- A directory is removed while it is open, looked at, and closed. -/
def leftRun : List Op :=
  [.makeDir [47, 97] 0, .openDir [47, 97], .removeDir [47, 97], .getAttr [47, 97], .releaseDir 0]

/-- Then a link of its name is overwritten with the directory by the next `Chmod`. -/
theorem symlink_lost :
    ¬ ∀ (ops : List Op) (w : World) (target path : Bytes) (key : MetaKey) (as : List LinkOp)
      (n : ℕ), (∀ op ∈ ops, op.WellFormed ∧ StoreWorks op) →
      (mount Durable.empty plainConfig).Meets CreatesAbsent ops →
      w = (mount Durable.empty plainConfig).run ops → (∀ m, w.files m = none) → w.dirs = [] →
      GoodPath path → (w.pathLookup path).2 = some key → w.store.dbGet key = none →
      Transition.Meets linkStep KeepsLink (w.next (.symlink target path), path) as → 1 ≤ n →
      ((Transition.run linkStep (w.next (.symlink target path), path) as).1.readlinkBuffer
        (Transition.run linkStep (w.next (.symlink target path), path) as).2 n)
        = target.take (min target.length (n - 1)) ++ [0] := by
  intro h
  have hread := h leftRun _ [120] [47, 97] (buildMetaKey [97] 0) [.chmod 0xA1FF] 2 (by decide)
    (by decide +kernel) rfl (fun _ => rfl) (by decide +kernel) (by decide) (by decide +kernel)
    (by decide +kernel) ⟨trivial, trivial⟩ (by decide)
  revert hread
  decide +kernel

end World

end Tablefs
