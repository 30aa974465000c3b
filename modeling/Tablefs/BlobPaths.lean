/-
The paths of disk files, and their directories.

An inode number is cut to an `int`, shifted for the directory and reduced for the file. The
shift rounds down and the remainder truncates, and still no two numbers of 32 bits share a
path (`getDiskFilePath_inj`). `NewInode` makes a directory when it hands out the first
number in it; what `root.dat` holds after a restart, old or new, is a number whose
directory has been made (`DataDir.Good`).
-/
import Tablefs.Step
import Tablefs.Lib.Run
import Mathlib.Tactic.Linarith

set_option autoImplicit false

namespace Tablefs

/-! ## The text of a path -/

/-- `%d` -/
def decimal (x : ℤ) : List Char :=
  if x < 0 then '-' :: Nat.toDigits 10 x.natAbs else Nat.toDigits 10 x.natAbs

/-- What `GetDiskFilePath` puts into `path`. -/
def diskFilePathText (datadir : List Char) (inode_id : UInt64) : List Char :=
  datadir ++ '/' :: (decimal (getDiskFilePath inode_id).1 ++
    '/' :: decimal (getDiskFilePath inode_id).2)

theorem notMem_toDigits {c : Char} (hc : c.isDigit = false) (n : ℕ) : c ∉ Nat.toDigits 10 n := by
  intro h
  rw [Nat.isDigit_of_mem_toDigits (by omega) (by omega) h] at hc
  cases hc

theorem slash_notMem_decimal (x : ℤ) : '/' ∉ decimal x := by
  have hdigits := notMem_toDigits (c := '/') rfl x.natAbs
  rw [decimal]
  split
  · rw [List.mem_cons, not_or]
    exact ⟨by decide, hdigits⟩
  · exact hdigits

theorem toDigits_inj {n m : ℕ} (h : Nat.toDigits 10 n = Nat.toDigits 10 m) : n = m := by
  rw [← Nat.ofDigitChars_toDigits (b := 10) (n := n) (by omega) (by omega), h,
    Nat.ofDigitChars_toDigits (by omega) (by omega)]

/-- `%d` loses nothing. -/
theorem decimal_inj {x y : ℤ} (h : decimal x = decimal y) : x = y := by
  -- a sign is not a digit
  have hsign : ∀ n m : ℕ, '-' :: Nat.toDigits 10 n ≠ Nat.toDigits 10 m := fun n m he =>
    notMem_toDigits (c := '-') rfl m (he ▸ List.mem_cons_self)
  rw [decimal, decimal] at h
  by_cases hx : x < 0 <;> by_cases hy : y < 0
  · rw [if_pos hx, if_pos hy] at h
    have := toDigits_inj (List.cons.inj h).2
    omega
  · rw [if_pos hx, if_neg hy] at h
    exact absurd h (hsign _ _)
  · rw [if_neg hx, if_pos hy] at h
    exact absurd h.symm (hsign _ _)
  · rw [if_neg hx, if_neg hy] at h
    have := toDigits_inj h
    omega

/-- The text determines directory and file. -/
theorem getDiskFilePath_of_text {datadir : List Char} {i j : UInt64}
    (h : diskFilePathText datadir i = diskFilePathText datadir j) :
    getDiskFilePath i = getDiskFilePath j := by
  rw [diskFilePathText, diskFilePathText, List.append_cancel_left_eq, List.cons.injEq] at h
  obtain ⟨hd, hf⟩ := ByteString.append_cons_inj (slash_notMem_decimal _) (slash_notMem_decimal _) h.2
  exact Prod.ext (decimal_inj hd) (decimal_inj hf)

/-! ## Numbers and paths -/

/-- Directory and file of an `int`: the quotient rounds down, the remainder truncates. -/
theorem int_path_inj {a b : ℤ} (hd : a / 16384 = b / 16384)
    (hf : a.tmod 16384 = b.tmod 16384) : a = b := by
  rw [Int.tmod_eq_emod, Int.tmod_eq_emod] at hf
  -- in one directory the signs agree, and so do the two roundings
  have hsign : 0 ≤ a ↔ 0 ≤ b := by omega
  have hmod : (16384 : ℤ) ∣ a ↔ (16384 : ℤ) ∣ b := by
    split at hf <;> split at hf <;> simp at hf <;> omega
  have hcond : (0 ≤ a ∨ (16384 : ℤ) ∣ a) ↔ (0 ≤ b ∨ (16384 : ℤ) ∣ b) := or_congr hsign hmod
  by_cases hb : 0 ≤ b ∨ (16384 : ℤ) ∣ b
  · rw [if_pos hb, if_pos (hcond.mpr hb)] at hf
    omega
  · rw [if_neg hb, if_neg (hcond.not.mpr hb)] at hf
    omega

/-- No two numbers of 32 bits share a path. -/
theorem getDiskFilePath_inj {i j : UInt64} (hi : i.toNat < 2 ^ 32) (hj : j.toNat < 2 ^ 32)
    (h : getDiskFilePath i = getDiskFilePath j) : i = j := by
  obtain ⟨hd, hf⟩ := Prod.mk.inj h
  have hint := int_path_inj hd hf
  rw [Int.bmod_def, Int.bmod_def] at hint
  refine UInt64.toNat_inj.mp ?_
  split at hint <;> split at hint <;> omega

theorem diskFilePathText_injective (datadir : List Char) :
    Function.Injective fun i : UInt32 => diskFilePathText datadir i.toUInt64 := by
  intro i j h
  have htext : diskFilePathText datadir i.toUInt64 = diskFilePathText datadir j.toUInt64 := h
  have hlt : ∀ k : UInt32, k.toUInt64.toNat < 2 ^ 32 := fun k => by
    rw [UInt32.toNat_toUInt64]
    exact k.toNat_lt
  have heq := congrArg UInt64.toNat
    (getDiskFilePath_inj (hlt i) (hlt j) (getDiskFilePath_of_text htext))
  rw [UInt32.toNat_toUInt64, UInt32.toNat_toUInt64] at heq
  exact UInt32.toNat_inj.mp heq

/-- A successor in the same row of 16384 is in the same row as an `int`, too. -/
theorem bmod_row {n : ℕ} (h : (n + 1) % 16384 ≠ 0) :
    Int.bmod ((n + 1 : ℕ) : ℤ) (2 ^ 32) / 16384 = Int.bmod (n : ℤ) (2 ^ 32) / 16384 := by
  rw [Int.bmod_def, Int.bmod_def]
  split <;> split <;> omega

theorem getDiskFilePath_fst (m : UInt64) :
    (getDiskFilePath m).1 = Int.bmod m.toNat (2 ^ 32) / 16384 := by
  unfold getDiskFilePath
  dsimp only

theorem getDiskFilePath_congr {i j : UInt64}
    (h : Int.bmod i.toNat (2 ^ 32) = Int.bmod j.toNat (2 ^ 32)) :
    getDiskFilePath i = getDiskFilePath j := by
  unfold getDiskFilePath
  dsimp only
  rw [h]

/-- Numbers in one row of 16384 have one directory. -/
theorem getDiskFilePath_fst_succ {m : UInt64} (h : (m + 1) % NUM_FILES_IN_DATADIR ≠ 0) :
    (getDiskFilePath (m + 1)).1 = (getDiskFilePath m).1 := by
  have hone : (1 : UInt64).toNat = 1 := rfl
  have hnum : NUM_FILES_IN_DATADIR.toNat = 16384 := rfl
  have hrow : (m + 1).toNat % 16384 ≠ 0 := by
    intro h0
    refine h (UInt64.toNat_inj.mp ?_)
    rw [UInt64.toNat_mod, hnum, h0]
    rfl
  have hm : (m + 1).toNat = m.toNat + 1 := by
    have hlt := m.toNat_lt
    rw [UInt64.toNat_add, hone] at hrow ⊢
    omega
  have hsucc := getDiskFilePath_fst (m + 1)
  rw [hm] at hrow hsucc
  rw [hsucc, getDiskFilePath_fst]
  exact bmod_row hrow

theorem bmod_low (n : ℕ) : Int.bmod ((n % 2 ^ 32 : ℕ) : ℤ) (2 ^ 32) = Int.bmod (n : ℤ) (2 ^ 32) := by
  rw [Int.bmod_def, Int.bmod_def]
  split <;> split <;> omega

/-- The path of a number is that of its low 32 bits. -/
theorem getDiskFilePath_mod (m : UInt64) :
    getDiskFilePath (.ofNat (m.toNat % 2 ^ 32 % 2 ^ 32)) = getDiskFilePath m := by
  have hlow : (UInt64.ofNat (m.toNat % 2 ^ 32 % 2 ^ 32)).toNat = m.toNat % 2 ^ 32 := by
    rw [UInt64.toNat_ofNat']
    omega
  refine getDiskFilePath_congr ?_
  rw [hlow]
  exact bmod_low m.toNat

/-! ## The data directory over mounts -/

/-- `FileSystemState::Destroy`, as far as the data directory goes. -/
def World.destroyState (w : World) : World := w.commit (.writeRoot (w.max_inode_num.toNat % 2 ^ 32))

theorem World.destroy_eq (w : World) :
    w.destroy = (w.setStore (w.store.cleanAll w.tableByShard)).destroyState := rfl

/-- A process that has the data directory open, or what is left without one. -/
inductive DataDir
  | up (w : World)
  | down (d : Durable)

/-- What happens to the data directory: `Setup`, `NewInode`, `Destroy`, or the process dies. -/
inductive DataDirOp
  | setup (cfg : MountConfig)
  | newInode
  | destroy
  | crash

namespace DataDir

/-- One step. -/
def step : DataDir → DataDirOp → DataDir
  | .down d, .setup cfg => .up (Tablefs.setup d cfg)
  | .up w, .newInode => .up w.newInode.1
  | .up w, .destroy => .down w.destroyState.durable
  | .up w, .crash => .down w.durable
  | s, _ => s

/-- When `NewInode` returns, the directory of the number has been made. -/
def DirectoryMade : DataDir → DataDirOp → Prop
  | .up w, .newInode =>
      w.newInode.1.os.disk.subdirs (getDiskFilePath w.newInode.2).1 = true
  | _, _ => True

/-- The directory of the number in `root.dat` has been made. -/
def RootMade (d : Disk) : Prop :=
  ∀ n, d.rootDat = some n → d.subdirs (getDiskFilePath (.ofNat (n % 2 ^ 32))).1 = true

/-- The directories of the counter and of the number in `root.dat` have been made. -/
def Good : DataDir → Prop
  | .up w => w.os.disk.subdirs (getDiskFilePath w.max_inode_num).1 = true ∧ RootMade w.os.disk
  | .down d => RootMade d.disk

theorem setup_good {d : Durable} (h : RootMade d.disk) (cfg : MountConfig) :
    (DataDir.up (Tablefs.setup d cfg)).Good := by
  have hdir : (getDiskFilePath 0).1 = 0 := by decide
  rw [Tablefs.setup]
  cases hroot : d.disk.rootDat with
  | none =>
      -- the first `Setup` makes directory 0
      dsimp only [Good, World.commit, DiskEffect.apply, Os.fresh]
      refine ⟨by rw [hdir, Function.update_self], fun n hn => ?_⟩
      have hn0 : n = 0 := (Option.some.inj hn).symm
      have hz : UInt64.ofNat (n % 2 ^ 32) = 0 := by rw [hn0, Nat.zero_mod]; rfl
      rw [hz, hdir]
      exact Function.update_self (0 : ℤ) true d.disk.subdirs
  | some n =>
      dsimp only [Good]
      exact ⟨h n hroot, h⟩

/-- `NewInode` leaves the counter, and every number in use, with a directory. -/
theorem newInode_made {w : World}
    (h : w.os.disk.subdirs (getDiskFilePath w.max_inode_num).1 = true) :
    w.newInode.1.os.disk.subdirs (getDiskFilePath w.newInode.2).1 = true ∧
      w.newInode.2 = w.newInode.1.max_inode_num ∧
      w.newInode.1.os.disk.rootDat = w.os.disk.rootDat ∧
      ∀ dir, w.os.disk.subdirs dir = true → w.newInode.1.os.disk.subdirs dir = true := by
  unfold World.newInode
  dsimp only
  split
  · simp only [World.commit, DiskEffect.apply]
    refine ⟨Function.update_self .., trivial, trivial, fun dir hdir => ?_⟩
    rw [Function.update_apply, hdir, ite_self]
  · rename_i hrow
    refine ⟨?_, rfl, rfl, fun dir hdir => hdir⟩
    rw [← h]
    exact congrArg w.os.disk.subdirs (getDiskFilePath_fst_succ hrow)

theorem Good.step {s : DataDir} (h : s.Good) (op : DataDirOp) : (s.step op).Good := by
  cases s with
  | down d =>
      cases op with
      | setup cfg => exact setup_good h cfg
      | newInode => exact h
      | destroy => exact h
      | crash => exact h
  | up w =>
      cases op with
      | setup cfg => exact h
      | newInode =>
          obtain ⟨hmade, hnum, hroot, hkeep⟩ := newInode_made h.1
          exact ⟨hnum ▸ hmade, fun n hn => hkeep _ (h.2 n (hroot ▸ hn))⟩
      | destroy =>
          -- what is written names the directory of the counter
          intro n hn
          cases Option.some.inj hn
          rw [getDiskFilePath_mod]
          exact h.1
      | crash => exact h.2

/-- From an empty data directory, every number that `NewInode` returns has its directory, and
no two numbers of 32 bits have one path. -/
theorem blob_paths_distinct (db : MetaDb) (ops : List DataDirOp) :
    Transition.Meets step DirectoryMade (.down ⟨db, Durable.empty.disk⟩) ops ∧
      ∀ datadir, Function.Injective fun i : UInt32 => diskFilePathText datadir i.toUInt64 := by
  refine ⟨?_, diskFilePathText_injective⟩
  refine Transition.meets_of_invariant (P := Good) (C := fun _ _ => True)
    (fun s op h _ => h.step op) ?_ ?_ (Transition.meets_of_forall (fun _ _ => trivial) _)
  · intro s op h _
    cases s with
    | down d => cases op <;> trivial
    | up w =>
        cases op with
        | newInode => exact (newInode_made h.1).1
        | setup cfg => trivial
        | destroy => trivial
        | crash => trivial
  · intro n hn
    cases hn

end DataDir

end Tablefs
