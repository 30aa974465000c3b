/-
Who owns the descriptors of the disk files.

A descriptor is open for an operation that is going on, or for the `tfs_file_handle_t` whose
`fd_` it is. Every operation but `Truncate` closes only what it opened itself or what its own
handle holds, and what it opens ends in its handle. `Truncate` of inline data past the threshold
hands a local `fd` to `MigrateToDiskFile` that is not initialised, and forgets the one it gets
back when the data could not be written. The runs in which neither happens are those in which
every descriptor is its handle's (`fds_owned_iff`).
-/
import Tablefs.FdUses

set_option autoImplicit false

namespace Tablefs

open ByteString Ledger

namespace World

section Calls

variable {w w' : World} {fh? : Option ℕ}

/-! ## Calls -/

/-- The file handle of a call. That of `Open` is the new one, and `Truncate` has none. -/
def handleOf (w : World) : Op → Option ℕ
  | .openFile _ _ => some w.nextFile
  | .read fh _ _ | .write fh _ _ | .release fh => some fh
  | _ => none

/-- The descriptors that a call opens and closes. -/
def callFds (w : World) (op : Op) : List (Use ℕ) := fdUses (w.newEvents op)

/-- The call closes only what it has opened itself or its own file handle holds, and what is left
of that its own file handle holds in the end. It closes no descriptor of another file handle, and
those of all file handles are open after it. -/
structure FdsOwned (w : World) (op : Op) : Prop where
  own : hold (w.heldBy (w.handleOf op)) (w.callFds op)
    = some ((w.next op).heldBy (w.handleOf op))
  others : ∀ g, w.handleOf op ≠ some g → ∀ n ∈ w.held g, Use.free n ∉ w.callFds op
  live : ∀ g f, (w.next op).files g = some f → f.fd_ = -1 ∨ (w.next op).fdEntry f.fd_ ≠ none

/-- A `Truncate` finds no open descriptor in its `fd`, and is not left with one half-way. -/
def FdsKeptApart (w : World) : Op → Prop
  | .truncate path new_size => w.TruncateApart path new_size
  | _ => True

/-- The descriptors opened and closed since `w₀`. -/
def fdsSince (w₀ w : World) : List (Use ℕ) := fdUses (w.store.log.drop w₀.store.log.length)

/-- Since `w₀` only what was closed has been opened, and only what was open has been closed; what
has been opened and not closed the file handles hold, each its own. -/
structure FdInv (w₀ w : World) : Prop where
  log : ∃ evs, w.store.log = w₀.store.log ++ evs ∧ Goes w₀.openFds (fdUses evs) w.openFds
  split : Split w₀.openFds w.held w.openFds
  valid : ∀ g f, w.files g = some f → f.fd_ = -1 ∨ 0 ≤ f.fd_
  below : ∀ g, w.nextFile ≤ g → w.files g = none

variable {w₀ : World}

theorem FdInv.handleOk (h : FdInv w₀ w) (g : ℕ) : w.HandleOk g where
  valid := by
    intro f hf
    refine (h.valid g f hf).imp_right fun h0 => ?_
    have hheld : f.fd_.toNat ∈ w.held g := by
      rw [held_of_files hf, fdList, if_pos h0]
      exact List.mem_cons_self
    rw [World.fdEntry, if_pos h0]
    exact (h.split.holds g).inUse _ hheld
  below := h.below g

/-- No file is open. -/
theorem fdInv_start (h0 : ∀ g, w₀.files g = none) : FdInv w₀ w₀ where
  log := ⟨[], (List.append_nil _).symm, rfl⟩
  split := .of_nil fun g => held_of_none (h0 g)
  valid := by
    intro g f hf
    rw [h0 g] at hf
    cases hf
  below := fun g _ => h0 g

/-- A step in which the operation owns in the end what its file handle holds. -/
theorem FdInv.step (h : FdInv w₀ w) (hs : FdKept w fh? w') : FdInv w₀ w' where
  log := by
    obtain ⟨evs, hl, hg⟩ := h.log
    obtain ⟨evs', hl', -, hg'⟩ := hs.fds
    refine ⟨evs ++ evs', by rw [hl', hl, List.append_assoc], ?_⟩
    rw [fdUses_append]
    exact goes_append.mpr ⟨_, hg, hg'⟩
  split := by
    obtain ⟨evs, -, hown, hg⟩ := hs.fds
    cases fh? with
    | none =>
        have hheld : w'.held = w.held := by
          funext g
          rw [held, held, hs.others g (Option.some_ne_none g).symm]
        rw [hheld]
        exact h.split.step_nil hg hown
    | some fh =>
        have hheld : w'.held = Function.update w.held fh (w'.held fh) := by
          funext g
          by_cases hgfh : g = fh
          · rw [hgfh, Function.update_self]
          · rw [Function.update_of_ne hgfh, held, held,
              hs.others g fun he => hgfh (Option.some.inj he).symm]
        rw [hheld]
        exact h.split.step hg fh hown
  valid := by
    intro g f hf
    by_cases hgfh : fh? = some g
    · exact hs.valid g f hgfh hf
    · rw [hs.others g hgfh] at hf
      exact h.valid g f hf
  below := by
    intro g hle
    by_cases hgfh : fh? = some g
    · exact hs.below g hgfh hle
    · rw [hs.others g hgfh]
      exact h.below g (hs.nextFile_le.trans hle)

/-- The descriptors of other file handles are not closed, and all file handles' are open. -/
theorem FdInv.owned (h : FdInv w₀ w) {op : Op} (hs : FdKept w (w.handleOf op) (w.next op)) :
    w.FdsOwned op := by
  obtain ⟨evs, hl, hown, hg⟩ := hs.fds
  have hnew : w.callFds op = fdUses evs := by
    rw [callFds, newEvents, hl, List.drop_left]
  refine ⟨by rw [hnew]; exact hown, ?_, fun g f hf => ((h.step hs).handleOk g).valid f hf⟩
  intro g hne n hn
  rw [hnew]
  refine hg.free_notMem hown ((h.split.holds g).inUse n hn) ?_
  cases hop : w.handleOf op with
  | none => exact List.not_mem_nil
  | some fh =>
      rw [hop] at hne
      exact h.split.apart g fh (fun he => hne (congrArg some he.symm)) n hn

/-- What a call owns in the end is what its log says. -/
theorem FdStep.owned_iff {op : Op} {own : Option (List ℕ)} (h : FdInv w₀ w)
    (hs : FdStep w (w.handleOf op) own (w.next op)) :
    w.FdsOwned op ↔ own = some ((w.next op).heldBy (w.handleOf op)) := by
  constructor
  · intro hown
    obtain ⟨evs, hl, hh, -⟩ := hs.fds
    have hold' := hown.own
    rw [callFds, newEvents, hl, List.drop_left] at hold'
    exact hh.symm.trans hold'
  · rintro rfl
    exact h.owned hs

end Calls

/-! ## Runs -/

/-- A call of `Open`, `Read`, `Write`, `Truncate` or `Release`, or new surroundings for them. -/
def FileCall : Op → Prop
  | .openFile _ _ | .read _ _ _ | .write _ _ _ | .truncate _ _ | .release _ => True
  | .setEnv _ | .setFaults _ _ => True
  | _ => False

/-- Each of them ends as the owner of what its file handle holds, but for a `Truncate` that moves
data and does not keep its descriptors apart. -/
theorem FdInv.callStep {w₀ w : World} (h : FdInv w₀ w) {op : Op} (hop : FileCall op) :
    ∃ own, FdStep w (w.handleOf op) own (w.next op) ∧
      (own = some ((w.next op).heldBy (w.handleOf op)) ↔ w.FdsKeptApart op) := by
  cases op with
  | openFile path flags =>
      exact ⟨_, w.openFile_kept path flags (h.below _ le_rfl), iff_of_true rfl trivial⟩
  | read fh size offset =>
      exact ⟨_, w.read_kept size offset (h.handleOk fh), iff_of_true rfl trivial⟩
  | write fh buf offset =>
      exact ⟨_, w.write_kept buf offset (h.handleOk fh), iff_of_true rfl trivial⟩
  | release fh => exact ⟨_, w.release_kept (h.handleOk fh), iff_of_true rfl trivial⟩
  | truncate path new_size => exact w.truncate_step path new_size
  | setEnv env =>
      have hq : w.FdQuiet (w.next (.setEnv env)) := .of_log rfl rfl rfl rfl
      exact ⟨_, hq.kept_none, iff_of_true rfl trivial⟩
  | setFaults dbFaults ioFaults =>
      have hq : w.FdQuiet (w.next (.setFaults dbFaults ioFaults)) := .of_log rfl rfl rfl rfl
      exact ⟨_, hq.kept_none, iff_of_true rfl trivial⟩
  | _ => exact hop.elim

theorem FdInv.owned_iff {w₀ w : World} (h : FdInv w₀ w) {op : Op} (hop : FileCall op) :
    w.FdsOwned op ↔ w.FdsKeptApart op := by
  obtain ⟨own, hs, hown⟩ := h.callStep hop
  exact (hs.owned_iff h).trans hown

theorem FdInv.next {w₀ w : World} (h : FdInv w₀ w) {op : Op} (hop : FileCall op)
    (hap : w.FdsKeptApart op) : FdInv w₀ (w.next op) := by
  obtain ⟨own, hs, hown⟩ := h.callStep hop
  rw [hown.mpr hap] at hs
  exact h.step hs

/-- When no file is open any more, each descriptor that has been opened has been closed, once. -/
theorem FdInv.allClosed {w₀ w : World} (h : FdInv w₀ w) (hnone : ∀ g, w.files g = none) :
    Goes w₀.openFds (w₀.fdsSince w) w₀.openFds ∧
      ∀ n, (w₀.fdsSince w).count (.acquire n) = (w₀.fdsSince w).count (.free n) := by
  obtain ⟨evs, hl, hg⟩ := h.log
  have hsince : w₀.fdsSince w = fdUses evs := by rw [fdsSince, hl, List.drop_left]
  rw [h.split.eq_of_nil fun g => held_of_none (hnone g)] at hg
  rw [hsince]
  exact ⟨hg, hg.balanced⟩

/-- The descriptors are owned in exactly the runs in which every `Truncate` that moves data to a
disk file finds no open descriptor in its uninitialised `fd`, and opens none that it then forgets.
In these, when all file handles are released, each descriptor that was opened has been closed
once. -/
theorem fds_owned_iff {w₀ : World} (h0 : ∀ g, w₀.files g = none) {ops : List Op}
    (hops : ∀ op ∈ ops, FileCall op) :
    (Meets FdsOwned w₀ ops ↔ Meets FdsKeptApart w₀ ops) ∧
      (Meets FdsKeptApart w₀ ops → (∀ g, (w₀.run ops).files g = none) →
        Goes w₀.openFds (w₀.fdsSince (w₀.run ops)) w₀.openFds ∧
          ∀ n, (w₀.fdsSince (w₀.run ops)).count (.acquire n)
            = (w₀.fdsSince (w₀.run ops)).count (.free n)) := by
  have hcalls : Meets (fun _ op => FileCall op) w₀ ops := Transition.meets_of_forall hops w₀
  have hstart := fdInv_start h0
  constructor
  · have hiff : Meets (fun w op => FileCall op ∧ w.FdsOwned op) w₀ ops ↔
        Meets (fun w op => FileCall op ∧ w.FdsKeptApart op) w₀ ops :=
      Transition.meets_iff_of_keeps (Q := FdInv w₀)
        (fun w op h => and_congr_right fun hop => h.owned_iff hop)
        (fun w op h hC => h.next hC.1 ((h.owned_iff hC.1).mp hC.2)) hstart
    constructor
    · exact fun h => (hiff.mp (hcalls.and h)).mono fun _ _ h => h.2
    · exact fun h => (hiff.mpr (hcalls.and h)).mono fun _ _ h => h.2
  · intro hap hnone
    refine FdInv.allClosed ?_ hnone
    exact Transition.run_invariant (fun w op h hC => h.next hC.1 hC.2) hstart (hcalls.and hap)

/-- Two files, and none of them open. -/
def twoFiles : World :=
  (mount Durable.empty smallConfig).run [.makeNode [47, 97] 0 0, .makeNode [47, 98] 0 0]

theorem twoFiles_closed (g : ℕ) : twoFiles.files g = none :=
  mount_run_files _ _ _ (by decide +kernel) g

/-- The second file gets a disk file through its handle, the first one through `Truncate`. -/
def apartRun : List Op :=
  [.openFile [47, 98] O_RDWR, .write 0 [1, 2, 3, 4, 5] 0, .truncate [47, 97] 5, .release 0]

theorem apartRun_owned : Meets FdsOwned twoFiles apartRun ∧
    ∀ n, (twoFiles.fdsSince (twoFiles.run apartRun)).count (.acquire n)
      = (twoFiles.fdsSince (twoFiles.run apartRun)).count (.free n) := by
  have hops : ∀ op ∈ apartRun, FileCall op := by
    simp only [apartRun, List.forall_mem_cons]
    exact ⟨trivial, trivial, trivial, trivial, nofun⟩
  have hmoved : ((twoFiles.next (.openFile [47, 98] O_RDWR)).next
      (.write 0 [1, 2, 3, 4, 5] 0)).TruncateApart [47, 97] 5 := by decide +kernel
  have hap : Meets FdsKeptApart twoFiles apartRun := ⟨trivial, trivial, hmoved, trivial, trivial⟩
  obtain ⟨howned, hclosed⟩ := fds_owned_iff twoFiles_closed hops
  refine ⟨howned.mpr hap, (hclosed hap ?_).2⟩
  intro g
  cases g with
  | zero => decide +kernel
  | succ g =>
      have hrun : twoFiles.run apartRun = (mount Durable.empty smallConfig).run
          ([.makeNode [47, 97] 0 0, .makeNode [47, 98] 0 0] ++ apartRun) :=
        (Transition.run_append _ _ _ _).symm
      have hnext : (twoFiles.run apartRun).nextFile = 1 := by decide +kernel
      rw [hrun] at hnext ⊢
      exact (mount_run_accounted _ _ _).files_lt _ (by omega)

/-- Here `Truncate` of the first file finds the descriptor of the second in its `fd`. -/
def strayRun : List Op :=
  [.openFile [47, 98] O_RDWR, .write 0 [1, 2, 3, 4, 5] 0,
    .setEnv { plainConfig.env with junkInt := 0 }, .truncate [47, 97] 5]

/-- It closes it. -/
theorem truncate_closes_other : ¬ ∀ (w₀ : World) (ops : List Op), (∀ g, w₀.files g = none) →
    (∀ op ∈ ops, FileCall op) → Meets FdsOwned w₀ ops := by
  intro hall
  have hops : ∀ op ∈ strayRun, FileCall op := by
    simp only [strayRun, List.forall_mem_cons]
    exact ⟨trivial, trivial, trivial, trivial, nofun⟩
  have howned := hall twoFiles strayRun twoFiles_closed hops
  have hkept := howned.2.2.2.1.others 0 (by decide) 0 (by decide +kernel)
  revert hkept
  decide +kernel

end World

end Tablefs
