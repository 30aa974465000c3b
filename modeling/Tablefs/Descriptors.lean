/-
The descriptor tables of `TableFSWrapper` (`fswrapper.cpp`): `fis`, `paths`, `offsets` and
`freefd`, as `Open` and `Close` read and write them.

A descriptor is claimed before `TableFS::Open` is tried and handed back when it fails.
`GetFileDescriptor` has no descriptor to give when all are in use and says -1, and `Open`
indexes its tables with that (`openFile_full`). Until then the tables are what
`Wrapper` takes them for: a partial map from descriptors to entries (`Reads.openFile`,
`Reads.close`).
-/
import Tablefs.Wrapper
import Tablefs.Lib.Run

set_option autoImplicit false

namespace Tablefs

open ByteString

/-! ## The tables -/

/-- `struct fuse_file_info`, as far as it is used. -/
structure FileInfo where
  flags : OpenFlags
  fh : ℕ
  deriving DecidableEq, Repr

/-- The arrays of `TableFSWrapper`. -/
structure FdTables where
  fis : Fin FDLIMIT → FileInfo
  paths : Fin FDLIMIT → Bytes
  offsets : Fin FDLIMIT → ℤ
  freefd : Fin FDLIMIT → ℤ

/-- The element of an array that an `int` index is for. Any other index is undefined. -/
def slot (fd : ℤ) : Option (Fin FDLIMIT) :=
  if h : 0 ≤ fd ∧ fd < FDLIMIT then some ⟨fd.toNat, by omega⟩ else none

@[simp] theorem slot_fin (i : Fin FDLIMIT) : slot i = some i := by
  have hi : (0 : ℤ) ≤ i ∧ (i : ℤ) < FDLIMIT := ⟨by omega, by exact_mod_cast i.isLt⟩
  rw [slot, dif_pos hi]
  simp

namespace FdTables

/-- `GetFileDescriptor` -/
def getFileDescriptor (t : FdTables) : FdTables × ℤ :=
  match (List.finRange FDLIMIT).find? fun i => t.freefd i = 0 with
  | some i => ({ t with freefd := Function.update t.freefd i 1 }, i)
  | none => (t, -1)

/-- `ReleaseFileDescriptor` -/
def releaseFileDescriptor (t : FdTables) (fd : ℤ) : Option FdTables :=
  (slot fd).map fun i => { t with freefd := Function.update t.freefd i 0 }

/-- `Open`, where `TableFS::Open` returns `ret` and leaves `fh` in the `fuse_file_info`. There
is no result if an array is indexed outside its bounds. -/
def openFile (t : FdTables) (path : Bytes) (flags : OpenFlags) (ret : ℤ) (fh : ℕ) :
    Option (FdTables × ℤ) :=
  let (t, fd) := t.getFileDescriptor
  (slot fd).bind fun i =>
    let t := { t with
      paths := Function.update t.paths i path
      offsets := Function.update t.offsets i 0
      fis := Function.update t.fis i ⟨flags, fh⟩ }
    if ret ≠ 0 then (t.releaseFileDescriptor fd).map fun t => (t, -1) else some (t, fd)

/-- `Close`, where `TableFS::Release` returns `ret`. -/
def close (t : FdTables) (fd : ℤ) (ret : ℤ) : Option (FdTables × ℤ) :=
  (t.releaseFileDescriptor fd).map fun t => (t, ret)

/-- What the arrays hold for a descriptor. -/
def entry (t : FdTables) (fd : ℤ) : Option (FileInfo × Bytes × ℤ × ℤ) :=
  (slot fd).map fun i => (t.fis i, t.paths i, t.offsets i, t.freefd i)

/-- `TableFSWrapper()`: `memset(freefd, 0, sizeof(freefd))`. The other arrays are as they are. -/
def init (fis : Fin FDLIMIT → FileInfo) (paths : Fin FDLIMIT → Bytes)
    (offsets : Fin FDLIMIT → ℤ) : FdTables := ⟨fis, paths, offsets, fun _ => 0⟩

theorem getFileDescriptor_free {t : FdTables} {i : Fin FDLIMIT}
    (h : (List.finRange FDLIMIT).find? (fun i => t.freefd i = 0) = some i) : t.freefd i = 0 := by
  simpa using List.find?_some h

/-- With no descriptor free, `Open` writes in front of its tables. -/
theorem openFile_full {t : FdTables} (h : ∀ i, t.freefd i ≠ 0) (path : Bytes) (flags : OpenFlags)
    (ret : ℤ) (fh : ℕ) : t.openFile path flags ret fh = none := by
  have hnone : (List.finRange FDLIMIT).find? (fun i => t.freefd i = 0) = none := by
    rw [List.find?_eq_none]
    intro i _
    simpa using h i
  rw [openFile, getFileDescriptor, hnone]
  rfl

/-- The tables after an `Open` that got the descriptor `i`. -/
def filled (t : FdTables) (i : Fin FDLIMIT) (path : Bytes) (flags : OpenFlags) (fh : ℕ)
    (taken : ℤ) : FdTables where
  fis := Function.update t.fis i ⟨flags, fh⟩
  paths := Function.update t.paths i path
  offsets := Function.update t.offsets i 0
  freefd := Function.update t.freefd i taken

/-- With a descriptor free, `Open` fills its entry, and takes it or hands it back. -/
theorem openFile_free {t : FdTables} {i : Fin FDLIMIT}
    (h : (List.finRange FDLIMIT).find? (fun i => t.freefd i = 0) = some i) (path : Bytes)
    (flags : OpenFlags) (ret : ℤ) (fh : ℕ) : t.openFile path flags ret fh =
      if ret = 0 then some (t.filled i path flags fh 1, (i : ℤ))
      else some (t.filled i path flags fh 0, -1) := by
  rw [openFile, getFileDescriptor, h]
  by_cases hret : ret = 0
  · simp only [slot_fin, Option.bind_some, hret, ne_eq, not_true, if_false, if_true]
    rfl
  · simp only [slot_fin, Option.bind_some, hret, ne_eq, not_false_eq_true, if_true,
      releaseFileDescriptor, Option.map_some, if_false, Function.update_idem]
    rfl

/-- `GetFileDescriptor` finds a descriptor if there is one. -/
theorem find_free {t : FdTables} (h : ∃ i, t.freefd i = 0) :
    ∃ i, (List.finRange FDLIMIT).find? (fun i => t.freefd i = 0) = some i := by
  obtain ⟨i, hi⟩ := h
  rw [← Option.isSome_iff_exists, List.find?_isSome]
  exact ⟨i, List.mem_finRange i, decide_eq_true hi⟩

theorem close_fin (t : FdTables) (i : Fin FDLIMIT) (ret : ℤ) :
    t.close i ret = some ({ t with freefd := Function.update t.freefd i 0 }, ret) := by
  rw [close, releaseFileDescriptor, slot_fin]
  rfl

/-- Only the entry of `i` is another. -/
theorem entry_filled_of_ne (t : FdTables) {i j : Fin FDLIMIT} (hj : j ≠ i) (path : Bytes)
    (flags : OpenFlags) (fh : ℕ) (taken : ℤ) :
    (t.filled i path flags fh taken).entry j = t.entry j := by
  simp only [entry, filled, slot_fin, Option.map_some, Function.update_of_ne hj]

end FdTables

/-! ## Callers and their descriptors -/

/-- A call of the wrapper, with what the call of `fs` in it does. -/
inductive FdCall
  | openFile (path : Bytes) (flags : OpenFlags) (ret : ℤ) (fh : ℕ)
  | close (fd : ℤ) (ret : ℤ)
  deriving DecidableEq, Repr

/-- The tables, and the descriptors that `Open` has returned and `Close` has not been
called on. -/
structure FdState where
  tables : FdTables
  opened : Finset ℤ

namespace FdState

/-- One call. Nothing is left to say of the run after an index outside an array. -/
def step : Option FdState → FdCall → Option FdState
  | none, _ => none
  | some s, .openFile path flags ret fh =>
      (s.tables.openFile path flags ret fh).map fun r =>
        ⟨r.1, if r.2 < 0 then s.opened else insert r.2 s.opened⟩
  | some s, .close fd ret => (s.tables.close fd ret).map fun r => ⟨r.1, s.opened.erase fd⟩

/-- `Close` is only called on open descriptors. -/
def ClosesOpen : Option FdState → FdCall → Prop
  | some s, .close fd _ => fd ∈ s.opened
  | _, _ => True

instance : (s : Option FdState) → (c : FdCall) → Decidable (ClosesOpen s c)
  | some s, .close fd _ => inferInstanceAs (Decidable (fd ∈ s.opened))
  | some _, .openFile _ _ _ _ => inferInstanceAs (Decidable True)
  | none, .close _ _ => inferInstanceAs (Decidable True)
  | none, .openFile _ _ _ _ => inferInstanceAs (Decidable True)

/-- What should hold of a call: one that opens the file returns a descriptor that is not
open, unless all are; one that does not returns -1; no entry of an open descriptor changes;
and what `Close` makes reusable is its own descriptor. -/
def Sound : Option FdState → FdCall → Prop
  | none, _ => False
  | some s, .openFile path flags ret fh =>
      ∃ t r, s.tables.openFile path flags ret fh = some (t, r) ∧
        (∀ fd ∈ s.opened, t.entry fd = s.tables.entry fd) ∧
        if ret = 0 ∧ s.opened.card < FDLIMIT then 0 ≤ r ∧ r < FDLIMIT ∧ r ∉ s.opened else r = -1
  | some s, .close fd ret =>
      ∃ t r, s.tables.close fd ret = some (t, r) ∧
        (∀ fd' ∈ s.opened.erase fd, t.entry fd' = s.tables.entry fd') ∧
        ∀ i : Fin FDLIMIT, t.freefd i = 0 ↔ s.tables.freefd i = 0 ∨ (i : ℤ) = fd

/-- `Open` is called with a descriptor to spare. -/
def NotFull : Option FdState → FdCall → Prop
  | none, _ => False
  | some s, .openFile _ _ _ _ => s.opened.card < FDLIMIT
  | some _, .close _ _ => True

/-- A descriptor is open exactly if `freefd` says that it is taken. -/
def Marked (s : FdState) : Prop :=
  ∀ fd : ℤ, fd ∈ s.opened ↔ ∃ i : Fin FDLIMIT, fd = i ∧ s.tables.freefd i ≠ 0

/-- The descriptors whose `freefd` is not 0. -/
theorem Marked.opened_eq {s : FdState} (h : s.Marked) : s.opened =
    ((Finset.univ.filter fun i => s.tables.freefd i ≠ 0).image fun i : Fin FDLIMIT => (i : ℤ)) := by
  ext fd
  rw [h fd, Finset.mem_image]
  constructor
  · rintro ⟨i, rfl, hi⟩
    exact ⟨i, by simp [hi], rfl⟩
  · rintro ⟨i, hi, rfl⟩
    exact ⟨i, rfl, by simpa using hi⟩

/-- Some descriptor is free exactly if fewer than `FDLIMIT` are open. -/
theorem Marked.free_iff {s : FdState} (h : s.Marked) :
    (∃ i, s.tables.freefd i = 0) ↔ s.opened.card < FDLIMIT := by
  have hinj : Function.Injective fun i : Fin FDLIMIT => (i : ℤ) := fun i j hij => by
    exact Fin.ext (Int.natCast_inj.mp hij)
  rw [h.opened_eq, Finset.card_image_of_injective _ hinj]
  constructor
  · rintro ⟨i, hi⟩
    calc (Finset.univ.filter fun i => s.tables.freefd i ≠ 0).card
        < (Finset.univ : Finset (Fin FDLIMIT)).card := by
          refine Finset.card_lt_card (Finset.filter_ssubset.mpr ⟨i, Finset.mem_univ i, ?_⟩)
          exact not_not.mpr hi
      _ = FDLIMIT := Finset.card_fin FDLIMIT
  · intro hlt
    by_contra hno
    have hall : (Finset.univ.filter fun i => s.tables.freefd i ≠ 0) = Finset.univ :=
      Finset.filter_true_of_mem fun i _ hi => hno ⟨i, hi⟩
    rw [hall, Finset.card_fin] at hlt
    exact lt_irrefl _ hlt

/-- Every call keeps `freefd` true to what is open. -/
theorem Marked.step {s s' : FdState} (h : s.Marked) {c : FdCall} (hc : ClosesOpen (some s) c)
    (hs : FdState.step (some s) c = some s') : s'.Marked := by
  cases c with
  | openFile path flags ret fh =>
      obtain ⟨⟨t, r⟩, ho, rfl⟩ := Option.map_eq_some_iff.mp hs
      by_cases hfree : ∃ i, s.tables.freefd i = 0
      · obtain ⟨i, hi⟩ := FdTables.find_free hfree
        have hi0 := FdTables.getFileDescriptor_free hi
        rw [FdTables.openFile_free hi] at ho
        intro fd
        by_cases hret : ret = 0
        · rw [if_pos hret, Option.some.injEq, Prod.mk.injEq] at ho
          obtain ⟨rfl, rfl⟩ := ho
          have hneg : ¬ (i : ℤ) < 0 := by omega
          simp only [hneg, if_false, Finset.mem_insert, FdTables.filled]
          rw [h fd]
          constructor
          · rintro (rfl | ⟨j, rfl, hj⟩)
            · exact ⟨i, rfl, by rw [Function.update_self]; exact one_ne_zero⟩
            · have hne : j ≠ i := fun he => hj (he ▸ hi0)
              exact ⟨j, rfl, by rwa [Function.update_of_ne hne]⟩
          · rintro ⟨j, rfl, hj⟩
            by_cases hne : j = i
            · exact Or.inl (by rw [hne])
            · rw [Function.update_of_ne hne] at hj
              exact Or.inr ⟨j, rfl, hj⟩
        · rw [if_neg hret, Option.some.injEq, Prod.mk.injEq] at ho
          obtain ⟨rfl, rfl⟩ := ho
          dsimp only
          -- the descriptor was free before, and is free again
          have hsame : Function.update s.tables.freefd i 0 = s.tables.freefd :=
            Function.update_eq_self_iff.mpr hi0.symm
          have hneg : (-1 : ℤ) < 0 := by omega
          rw [if_pos hneg, FdTables.filled, hsame]
          exact h fd
      · rw [FdTables.openFile_full (not_exists.mp hfree)] at ho
        cases ho
  | close fd ret =>
      obtain ⟨i, rfl, -⟩ := (h fd).mp hc
      simp only [FdState.step, FdTables.close_fin, Option.map_some, Option.some.injEq] at hs
      subst hs
      intro fd
      simp only [Finset.mem_erase]
      rw [h fd]
      constructor
      · rintro ⟨hne, j, rfl, hj⟩
        have hji : j ≠ i := fun he => hne (by rw [he])
        exact ⟨j, rfl, by rwa [Function.update_of_ne hji]⟩
      · rintro ⟨j, rfl, hj⟩
        by_cases hji : j = i
        · rw [hji, Function.update_self] at hj
          exact absurd rfl hj
        · rw [Function.update_of_ne hji] at hj
          exact ⟨fun he => hji (Fin.ext (Int.natCast_inj.mp he)), j, rfl, hj⟩

/-- A call is sound exactly if it is no `Open` with all descriptors in use. -/
theorem Marked.sound_iff {s : FdState} (h : s.Marked) {c : FdCall} (hc : ClosesOpen (some s) c) :
    Sound (some s) c ↔ NotFull (some s) c := by
  cases c with
  | openFile path flags ret fh =>
      simp only [NotFull]
      rw [← h.free_iff]
      constructor
      · rintro ⟨t, r, ho, -⟩
        by_contra hfull
        rw [FdTables.openFile_full (not_exists.mp hfull)] at ho
        cases ho
      · intro hfree
        obtain ⟨i, hi⟩ := FdTables.find_free hfree
        have hi0 := FdTables.getFileDescriptor_free hi
        have hnew : (i : ℤ) ∉ s.opened := by
          rw [h i]
          rintro ⟨j, hj, hj0⟩
          rw [← Fin.ext (Int.natCast_inj.mp hj)] at hj0
          exact hj0 hi0
        have hframe : ∀ taken : ℤ, ∀ fd ∈ s.opened,
            (s.tables.filled i path flags fh taken).entry fd = s.tables.entry fd := by
          intro taken fd hfd
          obtain ⟨j, rfl, hj⟩ := (h fd).mp hfd
          have hne : j ≠ i := fun he => hj (he ▸ hi0)
          exact s.tables.entry_filled_of_ne hne path flags fh taken
        have hlt : (i : ℤ) < FDLIMIT := by exact_mod_cast i.isLt
        have hopen := FdTables.openFile_free hi path flags ret fh
        by_cases hret : ret = 0
        · rw [if_pos hret] at hopen
          refine ⟨_, _, hopen, hframe 1, ?_⟩
          rw [if_pos ⟨hret, h.free_iff.mp hfree⟩]
          exact ⟨by omega, hlt, hnew⟩
        · rw [if_neg hret] at hopen
          refine ⟨_, _, hopen, hframe 0, ?_⟩
          rw [if_neg fun hno => hret hno.1]
  | close fd ret =>
      obtain ⟨i, rfl, -⟩ := (h fd).mp hc
      refine iff_of_true ⟨_, _, s.tables.close_fin i ret, ?_, ?_⟩ trivial
      · intro fd' hfd'
        rw [Finset.mem_erase, h fd'] at hfd'
        obtain ⟨hne, j, rfl, -⟩ := hfd'
        have hji : j ≠ i := fun he => hne (by rw [he])
        simp only [FdTables.entry, slot_fin, Option.map_some, Function.update_of_ne hji]
      · intro j
        by_cases hji : j = i
        · simp [hji]
        · have hne : ¬ (j : ℤ) = i := fun he => hji (Fin.ext (Int.natCast_inj.mp he))
          simp [Function.update_of_ne hji, hne]

/-- A wrapper no descriptor of which is open. -/
def start (t : FdTables) : FdState := ⟨t, ∅⟩

theorem start_marked (fis : Fin FDLIMIT → FileInfo) (paths : Fin FDLIMIT → Bytes)
    (offsets : Fin FDLIMIT → ℤ) : (start (FdTables.init fis paths offsets)).Marked := by
  intro fd
  simp [start, FdTables.init]

/-- What holds along every run: the calls so far were defined, and `freefd` is true to what
is open. -/
def Good : Option FdState → Prop
  | none => True
  | some s => s.Marked

theorem Good.step {s : Option FdState} (h : Good s) {c : FdCall} (hc : ClosesOpen s c) :
    Good (FdState.step s c) := by
  cases s with
  | none => trivial
  | some s =>
      cases hs : FdState.step (some s) c with
      | none => trivial
      | some s' => exact Marked.step h hc hs

open Transition in
/-- Every call of a run is sound exactly if every `Open` finds a descriptor to spare. -/
theorem descriptors_sound_iff (fis : Fin FDLIMIT → FileInfo) (paths : Fin FDLIMIT → Bytes)
    (offsets : Fin FDLIMIT → ℤ) (calls : List FdCall)
    (hclose : Meets step ClosesOpen (some (start (FdTables.init fis paths offsets))) calls) :
    Meets step Sound (some (start (FdTables.init fis paths offsets))) calls ↔
      Meets step NotFull (some (start (FdTables.init fis paths offsets))) calls := by
  refine meets_congr (P := Good) (A := ClosesOpen) (fun s c h hc => h.step hc) ?_
    (start_marked fis paths offsets) hclose
  intro s c h hc
  cases s with
  | none => exact Iff.rfl
  | some s => exact Marked.sound_iff h hc

open Transition in
/-- A file is opened and closed, and the next `Open` fails. -/
theorem descriptors_sound_reopen :
    let t := FdTables.init (fun _ => ⟨⟨.rdOnly, false⟩, 0⟩) (fun _ => []) (fun _ => 0)
    let calls := [FdCall.openFile [47, 97] ⟨.rdOnly, false⟩ 0 7, .close 0 0,
      .openFile [47, 98] ⟨.rdOnly, false⟩ (-2) 7]
    Meets step ClosesOpen (some (start t)) calls ∧
      (Meets step Sound (some (start t)) calls ↔ Meets step NotFull (some (start t)) calls) :=
  ⟨by decide +kernel, descriptors_sound_iff _ _ _ _ (by decide +kernel)⟩

/-- `k` calls of `Open` that succeed, with all descriptors free at first. -/
theorem run_openFile (t : FdTables) (h : (start t).Marked) {k : ℕ} (hk : k ≤ FDLIMIT)
    (path : Bytes) (flags : OpenFlags) (fh : ℕ) :
    ∃ s, Transition.run step (some (start t)) (List.replicate k (.openFile path flags 0 fh)) =
      some s ∧ s.Marked ∧ s.opened.card = k := by
  induction k with
  | zero => exact ⟨start t, rfl, h, rfl⟩
  | succ k ih =>
      obtain ⟨s, hrun, hs, hcard⟩ := ih (by omega)
      have hspare : s.opened.card < FDLIMIT := by omega
      obtain ⟨t', r, ho, -, hr⟩ :=
        (hs.sound_iff (c := .openFile path flags 0 fh) trivial).mpr hspare
      rw [if_pos ⟨rfl, hspare⟩] at hr
      have hstep : FdState.step (some s) (.openFile path flags 0 fh) =
          some ⟨t', insert r s.opened⟩ := by
        simp only [FdState.step, ho, Option.map_some, not_lt.mpr hr.1, if_false]
      refine ⟨_, ?_, Marked.step (c := .openFile path flags 0 fh) hs trivial hstep, ?_⟩
      · rw [List.replicate_succ', Transition.run_append, hrun]
        exact hstep
      · rw [Finset.card_insert_of_notMem hr.2.2, hcard]

open Transition in
/-- A hundred and twenty-eight files are open, and one more is opened. -/
theorem descriptors_run_out : ¬ ∀ (fis : Fin FDLIMIT → FileInfo) (paths : Fin FDLIMIT → Bytes)
    (offsets : Fin FDLIMIT → ℤ) (calls : List FdCall),
    Meets step ClosesOpen (some (start (FdTables.init fis paths offsets))) calls →
      Meets step Sound (some (start (FdTables.init fis paths offsets))) calls := by
  intro hall
  let t := FdTables.init (fun _ => ⟨⟨.rdOnly, false⟩, 0⟩) (fun _ => []) (fun _ => 0)
  have ht : (start t).Marked := start_marked _ _ _
  let c := FdCall.openFile [47, 97] ⟨.rdOnly, false⟩ 0 0
  obtain ⟨s, hrun, hs, hcard⟩ := run_openFile t ht le_rfl [47, 97] ⟨.rdOnly, false⟩ 0
  have hclose : Meets step ClosesOpen (some (start t)) (List.replicate FDLIMIT c ++ [c]) := by
    refine (meets_of_forall (C := fun c' => c' = c) ?_ _).mono ?_
    · intro c' hc'
      rcases List.mem_append.mp hc' with hc' | hc'
      · exact List.eq_of_mem_replicate hc'
      · exact List.mem_singleton.mp hc'
    · rintro (_ | s) _ rfl <;> trivial
  have hsound := hall _ _ _ _ hclose
  rw [meets_append, hrun] at hsound
  have hlast := (hs.sound_iff (c := c) trivial).mp hsound.2.1
  rw [NotFull, hcard] at hlast
  exact lt_irrefl _ hlast

end FdState

/-! ## The tables behind `Wrapper` -/

namespace FdTables

/-- The tables hold what the wrapper has for its descriptors. -/
def Reads (t : FdTables) (s : Wrapper) : Prop :=
  ∀ i : Fin FDLIMIT, s.fds i = if t.freefd i = 0 then none
    else some ⟨t.paths i, t.offsets i, (t.fis i).flags, (t.fis i).fh⟩

/-- Both find the same descriptor. -/
theorem Reads.getFileDescriptor {t : FdTables} {s : Wrapper} (h : t.Reads s) :
    s.getFileDescriptor =
      ((List.finRange FDLIMIT).find? fun i => t.freefd i = 0).map Fin.val := by
  have hp : ∀ i : Fin FDLIMIT, decide (s.fds i = none) = decide (t.freefd i = 0) := by
    intro i
    rw [h i]
    by_cases hi : t.freefd i = 0 <;> simp [hi]
  rw [Wrapper.getFileDescriptor, ← List.map_coe_finRange_eq_range, List.find?_map]
  simp only [Function.comp_def, hp]

/-- `Open` on the tables is `Wrapper`'s, as long as there is a descriptor to spare. -/
theorem Reads.openFile {t : FdTables} {s : Wrapper} (h : t.Reads s)
    (hfree : ∃ i, t.freefd i = 0) (path : Bytes) (flags : OpenFlags) (junk : ℕ) :
    ∃ t', t.openFile path flags (s.tfs (.openFile path flags)).2.ret
        ((s.tfs (.openFile path flags)).2.fh.getD junk) = some (t', (s.openFile path flags).2) ∧
      t'.Reads (s.openFile path flags).1 := by
  obtain ⟨i, hi⟩ := find_free hfree
  have hi0 := getFileDescriptor_free hi
  have hget : s.getFileDescriptor = some (i : ℕ) := by rw [h.getFileDescriptor, hi]; rfl
  rcases s.fs.openFile_opens path flags with ⟨hret, hfh, -⟩ | ⟨hret, hfh, -⟩
  · have hret' : (s.tfs (.openFile path flags)).2.ret ≠ 0 := hret
    have hfh' : (s.tfs (.openFile path flags)).2.fh = none := hfh
    rw [openFile_free hi, if_neg hret', Wrapper.openFile, hget]
    dsimp only
    rw [hfh']
    refine ⟨_, rfl, fun j => ?_⟩
    have hj := h j
    by_cases hji : j = i
    · -- the entry was filled, but the descriptor is free again
      subst hji
      simpa [filled, hi0, Wrapper.tfs] using hj
    · simpa [filled, Function.update_of_ne hji, Wrapper.tfs] using hj
  · have hret' : (s.tfs (.openFile path flags)).2.ret = 0 := hret
    have hfh' : (s.tfs (.openFile path flags)).2.fh = some s.fs.nextFile := hfh
    rw [openFile_free hi, if_pos hret', Wrapper.openFile, hget]
    dsimp only
    rw [hfh']
    dsimp only
    rw [if_pos hret']
    refine ⟨_, rfl, fun j => ?_⟩
    by_cases hji : j = i
    · subst hji
      rw [Wrapper.setFd_fds_self]
      simp [filled]
    · have hne : (j : ℕ) ≠ i := fun he => hji (Fin.ext he)
      rw [Wrapper.setFd_fds_of_ne _ hne]
      simpa [filled, Function.update_of_ne hji, Wrapper.tfs] using h j

/-- `Close` of an open descriptor is `Wrapper`'s. -/
theorem Reads.close {t : FdTables} {s : Wrapper} (h : t.Reads s) {i : Fin FDLIMIT}
    (hi : t.freefd i ≠ 0) : ∃ t', t.close i (s.tfs (.release (t.fis i).fh)).2.ret =
        some (t', (s.close i).2) ∧ t'.Reads (s.close i).1 := by
  have hd := h i
  rw [if_neg hi] at hd
  rw [close_fin, Wrapper.close, hd]
  refine ⟨_, rfl, fun j => ?_⟩
  by_cases hji : j = i
  · subst hji
    rw [Wrapper.setFd_fds_self]
    simp
  · have hne : (j : ℕ) ≠ i := fun he => hji (Fin.ext he)
    rw [Wrapper.setFd_fds_of_ne _ hne]
    simpa [Function.update_of_ne hji, Wrapper.tfs] using h j

end FdTables

end Tablefs
