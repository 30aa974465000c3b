/-
The calls of `Scanfile` on the entries of a directory, for any results of these calls.

`ReadDir` calls `scanfile_filler` for `.`, for `..` and for every entry until one is refused.
The filler calls `Stat`, `Open`, `Read` in a loop and `Close`, and it looks at no return value
but whether a `Read` returned 0: after a `Stat` that failed the loop's bound is what was in
`statbuf` before, after an `Open` that failed the descriptor is -1, and what a `Read` returns is
added to `read_size` even when it is an error. `scan_sound_iff` says for which results all goes
well. In a new directory it does not go well on the first name, since there is no record for `.`
(`scan_new_directory`).
-/
import Mathlib.Algebra.BigOperators.Group.Finset.Basic
import Mathlib.Algebra.Order.BigOperators.Group.Finset
import Tablefs.Wrapper

set_option autoImplicit false

namespace Tablefs

open ByteString

/-! ## The filler -/

/-- What the calls of one turn return. `stat` is the size that `Stat` fills in, if it does, and
`junk` what `statbuf.st_size` is before. `reads n` is the return value of the `n`-th `Read`. -/
structure ScanResults where
  stat : Option ℤ
  junk : ℤ
  fd : ℤ
  reads : ℕ → ℤ

/-- What the filler does to the file system. `loop` is the loop's test on `statbuf.st_size`,
with whether `Stat` filled that in. -/
inductive ScanCall
  | stat (path : Bytes)
  | openFile (path : Bytes) (fd : ℤ)
  | loop (filled : Bool)
  | read (fd ret : ℤ)
  | close (fd : ℤ)
  deriving DecidableEq, Repr

/-- The size of `scanfile_fpath`. -/
def FPATH_SIZE : ℕ := 1024

/-- The filler's loop from its `n`-th `Read` on: the calls it makes. There are none when the
fuel runs out, and when `read_size += ret` overflows. -/
def readLoop (fd st_size : ℤ) (reads : ℕ → ℤ) : ℕ → ℕ → ℤ → Option (List ScanCall)
  | 0, _, _ => none
  | fuel + 1, n, read_size =>
      if read_size < st_size then
        let ret := reads n
        if ret = 0 then some [.read fd ret]
        else if FitsInt (read_size + ret) then
          (readLoop fd st_size reads fuel (n + 1) (read_size + ret)).map (.read fd ret :: ·)
        else none
      else some []

/-- `scanfile_filler`, on the path that it makes in `scanfile_fpath`. A path that is too long for
that buffer has no calls. -/
def scanfileFiller (fpath : Bytes) (r : ScanResults) (fuel : ℕ) : Option (List ScanCall) :=
  if fpath.length + 1 ≤ FPATH_SIZE then
    (readLoop r.fd (r.stat.getD r.junk) r.reads fuel 0 0).map fun reads =>
      .stat fpath :: .openFile fpath r.fd :: .loop r.stat.isSome :: (reads ++ [.close r.fd])
  else none

/-- The filler's turns on the names, the first of them the `n`-th. -/
def scanTurns (path : Bytes) (results : ℕ → ScanResults) (fuel : ℕ) :
    ℕ → List Bytes → Option (List ScanCall)
  | _, [] => some []
  | n, name :: names => do
      let calls ← scanfileFiller (Wrapper.entryPath path name) (results n) fuel
      let rest ← scanTurns path results fuel (n + 1) names
      pure (calls ++ rest)

/-- The names that `ReadDir` calls the filler with. The filler returns nothing, so what
`ReadDir` sees of it is arbitrary. -/
def scanNames (entries : List Bytes) (filler : ℕ → Bool) : List Bytes :=
  Wrapper.calledWith filler 0 ([46] :: [46, 46] :: entries)

/-- `Scanfile` on a directory that it could open. -/
def scanfile (path : Bytes) (entries : List Bytes) (filler : ℕ → Bool)
    (results : ℕ → ScanResults) (fuel : ℕ) : Option (List ScanCall) :=
  if path.length + 2 ≤ FPATH_SIZE then scanTurns path results fuel 0 (scanNames entries filler)
  else none

/-! ## What should hold -/

/-- `Read` and `Close` are called on the descriptor of the last `Open`, which was valid and has
not been closed. The first argument is that descriptor. -/
def Owned : Option ℤ → List ScanCall → Prop
  | _, [] => True
  | fd?, .stat _ :: calls => Owned fd? calls
  | _, .openFile _ fd :: calls => Owned (if 0 ≤ fd then some fd else none) calls
  | fd?, .loop _ :: calls => Owned fd? calls
  | fd?, .read fd _ :: calls => fd? = some fd ∧ Owned fd? calls
  | fd?, .close fd :: calls => fd? = some fd ∧ Owned none calls

/-- No loop has a bound that `Stat` did not fill in. -/
def BoundsKnown (calls : List ScanCall) : Prop := .loop false ∉ calls

/-- The scan ends, uses its own descriptors only and knows the bounds of its loops. -/
def ScansSoundly (path : Bytes) (entries : List Bytes) (filler : ℕ → Bool)
    (results : ℕ → ScanResults) : Prop :=
  ∃ fuel calls, scanfile path entries filler results fuel = some calls ∧
    Owned none calls ∧ BoundsKnown calls

/-- What the first `n` reads return, in sum. -/
def readSum (reads : ℕ → ℤ) (n : ℕ) : ℤ := ∑ i ∈ Finset.range n, reads i

/-- Some `Read` returns 0 or comes when the size is reached, and up to it the sum is an `int`. -/
def ReadsEnd (st_size : ℤ) (reads : ℕ → ℤ) : Prop :=
  ∃ n, (reads n = 0 ∨ st_size ≤ readSum reads n) ∧ ∀ i ≤ n, FitsInt (readSum reads i)

/-- The results of one turn are those of a file that is there and can be read: the path fits in
the buffer, `Stat` and `Open` succeed, and the reads end. -/
structure TurnReads (path name : Bytes) (r : ScanResults) : Prop where
  path_fits : (Wrapper.entryPath path name).length < FPATH_SIZE
  opened : 0 ≤ r.fd
  sized : ∃ st_size, r.stat = some st_size ∧ ReadsEnd st_size r.reads

/-! ## The loop -/

theorem readSum_zero (reads : ℕ → ℤ) : readSum reads 0 = 0 := Finset.sum_range_zero reads

theorem readSum_succ (reads : ℕ → ℤ) (n : ℕ) :
    readSum reads (n + 1) = readSum reads n + reads n := Finset.sum_range_succ reads n

/-- With `fuel` the loop gets to the end of its reads if that is one of the next `fuel`. -/
theorem readLoop_isSome_iff (fd st_size : ℤ) (reads : ℕ → ℤ) (fuel n : ℕ)
    (hn : FitsInt (readSum reads n)) :
    (readLoop fd st_size reads fuel n (readSum reads n)).isSome ↔
      ∃ k, n ≤ k ∧ k < n + fuel ∧ (reads k = 0 ∨ st_size ≤ readSum reads k) ∧
        ∀ i, n ≤ i → i ≤ k → FitsInt (readSum reads i) := by
  induction fuel generalizing n with
  | zero =>
      rw [readLoop]
      simp only [Option.isSome_none, Bool.false_eq_true, false_iff, not_exists, not_and]
      intro k hnk hk
      omega
  | succ fuel ih =>
      -- the loop can end in front of its `n`-th read or with it
      have hnow : reads n = 0 ∨ st_size ≤ readSum reads n →
          ∃ k, n ≤ k ∧ k < n + (fuel + 1) ∧ (reads k = 0 ∨ st_size ≤ readSum reads k) ∧
            ∀ i, n ≤ i → i ≤ k → FitsInt (readSum reads i) := by
        intro hstop
        refine ⟨n, le_refl n, by omega, hstop, ?_⟩
        intro i hni hin
        rwa [Nat.le_antisymm hin hni]
      rw [readLoop]
      dsimp only
      split
      · rename_i hlt
        split
        · rename_i hret
          exact iff_of_true rfl (hnow (Or.inl hret))
        · rename_i hret
          have hlater : (∃ k, n ≤ k ∧ k < n + (fuel + 1) ∧
                (reads k = 0 ∨ st_size ≤ readSum reads k) ∧
                ∀ i, n ≤ i → i ≤ k → FitsInt (readSum reads i)) ↔
              ∃ k, n + 1 ≤ k ∧ k < n + 1 + fuel ∧
                (reads k = 0 ∨ st_size ≤ readSum reads k) ∧
                ∀ i, n + 1 ≤ i → i ≤ k → FitsInt (readSum reads i) := by
            constructor
            · rintro ⟨k, hnk, hk, hstop, hfit⟩
              have hne : k ≠ n := by
                rintro rfl
                rcases hstop with h | h
                · exact hret h
                · omega
              exact ⟨k, by omega, by omega, hstop, fun i hi => hfit i (by omega)⟩
            · rintro ⟨k, hnk, hk, hstop, hfit⟩
              refine ⟨k, by omega, by omega, hstop, fun i hi hik => ?_⟩
              rcases Nat.eq_or_lt_of_le hi with rfl | hi
              · exact hn
              · exact hfit i hi hik
          rw [hlater, ← readSum_succ]
          split
          · rename_i hfits
            rw [Option.isSome_map]
            exact ih (n + 1) hfits
          · rename_i hfits
            simp only [Option.isSome_none, Bool.false_eq_true, false_iff, not_exists, not_and]
            intro k hnk _ _ hfit
            exact hfits (hfit (n + 1) (le_refl _) hnk)
      · rename_i hge
        exact iff_of_true rfl (hnow (Or.inr (by omega)))

theorem fitsInt_zero : FitsInt 0 := by decide

/-- From its start on the loop ends if and only if its reads do. -/
theorem readLoop_ends_iff (fd st_size : ℤ) (reads : ℕ → ℤ) :
    (∃ fuel, (readLoop fd st_size reads fuel 0 0).isSome) ↔ ReadsEnd st_size reads := by
  have hstart : FitsInt (readSum reads 0) := by
    rw [readSum_zero]
    exact fitsInt_zero
  constructor
  · rintro ⟨fuel, h⟩
    rw [← readSum_zero reads, readLoop_isSome_iff _ _ _ _ _ hstart] at h
    obtain ⟨k, -, -, hstop, hfit⟩ := h
    exact ⟨k, hstop, fun i => hfit i (Nat.zero_le i)⟩
  · rintro ⟨k, hstop, hfit⟩
    refine ⟨k + 1, ?_⟩
    rw [← readSum_zero reads, readLoop_isSome_iff _ _ _ _ _ hstart]
    exact ⟨k, Nat.zero_le k, by omega, hstop, fun i _ => hfit i⟩

/-- More fuel does not change the calls. -/
theorem readLoop_mono {fd st_size : ℤ} {reads : ℕ → ℤ} {fuel fuel' n : ℕ} {read_size : ℤ}
    {calls : List ScanCall} (hle : fuel ≤ fuel')
    (h : readLoop fd st_size reads fuel n read_size = some calls) :
    readLoop fd st_size reads fuel' n read_size = some calls := by
  induction fuel generalizing fuel' n read_size calls with
  | zero => cases h
  | succ fuel ih =>
      obtain ⟨more, rfl⟩ : ∃ more, fuel' = more + 1 := ⟨fuel' - 1, by omega⟩
      rw [readLoop] at h ⊢
      dsimp only at h ⊢
      split at h
      · rename_i hlt
        rw [if_pos hlt]
        split at h
        · rename_i hret
          rw [if_pos hret]
          exact h
        · rename_i hret
          rw [if_neg hret]
          split at h
          · rename_i hfits
            obtain ⟨rest, hrest, rfl⟩ := Option.map_eq_some_iff.mp h
            rw [if_pos hfits, ih (by omega) hrest]
            rfl
          · cases h
      · rename_i hge
        rw [if_neg hge]
        exact h

/-- All that the loop does is to read from its descriptor. -/
theorem readLoop_reads {fd st_size : ℤ} {reads : ℕ → ℤ} {fuel n : ℕ} {read_size : ℤ}
    {calls : List ScanCall} (h : readLoop fd st_size reads fuel n read_size = some calls) :
    ∀ call ∈ calls, ∃ ret, call = .read fd ret := by
  induction fuel generalizing n read_size calls with
  | zero => cases h
  | succ fuel ih =>
      rw [readLoop] at h
      dsimp only at h
      split at h
      · split at h
        · cases h
          intro call hcall
          exact ⟨reads n, List.mem_singleton.mp hcall⟩
        · split at h
          · obtain ⟨rest, hrest, rfl⟩ := Option.map_eq_some_iff.mp h
            intro call hcall
            rcases List.mem_cons.mp hcall with rfl | hcall
            · exact ⟨reads n, rfl⟩
            · exact ih hrest call hcall
          · cases h
      · cases h
        intro call hcall
        exact absurd hcall List.not_mem_nil

/-- Reads that return between 0 and 4096 bytes end, if the size is an `int` with room for one
buffer more. -/
theorem readsEnd_of_nonneg {st_size : ℤ} {reads : ℕ → ℤ} (hsize : st_size ≤ 2 ^ 31 - 4096)
    (hret : ∀ n, 0 ≤ reads n ∧ reads n ≤ 4096) : ReadsEnd st_size reads := by
  -- until they end, every read adds at least one byte
  have hgrows : ∀ n : ℕ, (∃ k < n, reads k = 0 ∨ st_size ≤ readSum reads k) ∨
      (n : ℤ) ≤ readSum reads n := by
    intro n
    induction n with
    | zero => exact Or.inr (by rw [readSum_zero]; rfl)
    | succ n ih =>
        rcases ih with ⟨k, hk, hstop⟩ | hn
        · exact Or.inl ⟨k, by omega, hstop⟩
        · by_cases hzero : reads n = 0
          · exact Or.inl ⟨n, by omega, Or.inl hzero⟩
          · right
            have hpos := (hret n).1
            rw [readSum_succ]
            omega
  have hend : ∃ n, reads n = 0 ∨ st_size ≤ readSum reads n := by
    rcases hgrows st_size.toNat with ⟨k, -, hstop⟩ | hn
    · exact ⟨k, hstop⟩
    · exact ⟨st_size.toNat, Or.inr (by omega)⟩
  classical
  refine ⟨Nat.find hend, Nat.find_spec hend, fun i hi => ?_⟩
  have hnonneg : 0 ≤ readSum reads i := Finset.sum_nonneg fun j _ => (hret j).1
  refine ⟨by omega, ?_⟩
  cases i with
  | zero => rw [readSum_zero]; decide
  | succ i =>
      have hbefore := Nat.find_min hend (m := i) (by omega)
      have hlast := (hret i).2
      rw [readSum_succ]
      omega

/-- Reads that always fail do not, unless there is nothing to read. -/
theorem not_readsEnd_of_neg {st_size : ℤ} {reads : ℕ → ℤ} (hsize : 0 < st_size)
    (hret : ∀ n, reads n < 0) : ¬ ReadsEnd st_size reads := by
  rintro ⟨n, hstop, -⟩
  have hsum : readSum reads n ≤ 0 := Finset.sum_nonpos fun i _ => (hret i).le
  have := hret n
  omega

/-! ## One turn -/

theorem owned_reads {fd : ℤ} {reads : List ScanCall}
    (hreads : ∀ call ∈ reads, ∃ ret, call = .read fd ret) (fd? : Option ℤ)
    (calls : List ScanCall) :
    Owned fd? (reads ++ .close fd :: calls) ↔ fd? = some fd ∧ Owned none calls := by
  induction reads with
  | nil => exact Iff.rfl
  | cons call reads ih =>
      obtain ⟨ret, rfl⟩ := hreads call List.mem_cons_self
      have hrest := ih fun c hc => hreads c (List.mem_cons_of_mem _ hc)
      rw [List.cons_append, Owned, hrest]
      exact and_iff_right_of_imp And.left

/-- A turn uses its own descriptor if and only if it has one. -/
theorem filler_owned_iff {fpath : Bytes} {r : ScanResults} {fuel : ℕ} {calls : List ScanCall}
    (h : scanfileFiller fpath r fuel = some calls) (rest : List ScanCall) :
    Owned none (calls ++ rest) ↔ 0 ≤ r.fd ∧ Owned none rest := by
  rw [scanfileFiller] at h
  split at h
  · obtain ⟨reads, hreads, rfl⟩ := Option.map_eq_some_iff.mp h
    rw [List.cons_append, List.cons_append, List.cons_append, List.append_assoc, Owned, Owned,
      Owned, List.singleton_append, owned_reads (readLoop_reads hreads)]
    apply and_congr_left
    intro _
    split
    · rename_i hfd
      exact iff_of_true rfl hfd
    · rename_i hfd
      exact iff_of_false nofun hfd
  · cases h

theorem filler_bound_iff {fpath : Bytes} {r : ScanResults} {fuel : ℕ} {calls : List ScanCall}
    (h : scanfileFiller fpath r fuel = some calls) :
    BoundsKnown calls ↔ r.stat.isSome := by
  rw [scanfileFiller] at h
  split at h
  · obtain ⟨reads, hreads, rfl⟩ := Option.map_eq_some_iff.mp h
    have hloop : ScanCall.loop false ∉ reads := by
      intro hmem
      obtain ⟨ret, hret⟩ := readLoop_reads hreads _ hmem
      cases hret
    rw [BoundsKnown]
    cases r.stat with
    | none => simp
    | some st_size => simp [hloop]
  · cases h

theorem boundsKnown_append (calls rest : List ScanCall) :
    BoundsKnown (calls ++ rest) ↔ BoundsKnown calls ∧ BoundsKnown rest := by
  rw [BoundsKnown, List.mem_append, not_or]
  rfl

theorem filler_isSome_iff (fpath : Bytes) (r : ScanResults) (fuel : ℕ) :
    (scanfileFiller fpath r fuel).isSome ↔ fpath.length < FPATH_SIZE ∧
      (readLoop r.fd (r.stat.getD r.junk) r.reads fuel 0 0).isSome := by
  rw [scanfileFiller]
  split
  · rename_i hfits
    rw [Option.isSome_map]
    exact (and_iff_right hfits).symm
  · rename_i hlong
    exact iff_of_false Bool.noConfusion fun h => hlong h.1

/-- A turn is sound by itself if and only if its results are those of a file that is read. -/
theorem turnReads_iff (path name : Bytes) (r : ScanResults) :
    TurnReads path name r ↔
      (∃ fuel, (scanfileFiller (Wrapper.entryPath path name) r fuel).isSome) ∧
        0 ≤ r.fd ∧ r.stat.isSome := by
  constructor
  · rintro ⟨hpath, hfd, st_size, hstat, hreads⟩
    obtain ⟨fuel, hfuel⟩ := (readLoop_ends_iff r.fd st_size r.reads).mpr hreads
    refine ⟨⟨fuel, (filler_isSome_iff _ r fuel).mpr ⟨hpath, ?_⟩⟩, hfd, ?_⟩
    · rw [hstat, Option.getD_some]
      exact hfuel
    · rw [hstat, Option.isSome_some]
  · rintro ⟨⟨fuel, hfuel⟩, hfd, hstat⟩
    obtain ⟨st_size, hst_size⟩ := Option.isSome_iff_exists.mp hstat
    obtain ⟨hpath, hloop⟩ := (filler_isSome_iff _ r fuel).mp hfuel
    rw [hst_size, Option.getD_some] at hloop
    exact ⟨hpath, hfd, st_size, hst_size, (readLoop_ends_iff _ _ _).mp ⟨fuel, hloop⟩⟩

theorem filler_mono {fpath : Bytes} {r : ScanResults} {fuel fuel' : ℕ} {calls : List ScanCall}
    (hle : fuel ≤ fuel') (h : scanfileFiller fpath r fuel = some calls) :
    scanfileFiller fpath r fuel' = some calls := by
  rw [scanfileFiller] at h ⊢
  split at h
  · rename_i hfits
    obtain ⟨reads, hreads, rfl⟩ := Option.map_eq_some_iff.mp h
    rw [if_pos hfits, readLoop_mono hle hreads]
    rfl
  · cases h

/-! ## Every turn -/

theorem scanTurns_cons_eq_some {path name : Bytes} {names : List Bytes}
    {results : ℕ → ScanResults} {fuel n : ℕ} {calls : List ScanCall} :
    scanTurns path results fuel n (name :: names) = some calls ↔
      ∃ turn rest, scanfileFiller (Wrapper.entryPath path name) (results n) fuel = some turn ∧
        scanTurns path results fuel (n + 1) names = some rest ∧ turn ++ rest = calls := by
  simp only [scanTurns, Option.bind_eq_bind, Option.bind_eq_some_iff, Option.pure_def,
    Option.some.injEq, exists_and_left]

theorem scanTurns_mono {path : Bytes} {results : ℕ → ScanResults} {fuel fuel' n : ℕ}
    {names : List Bytes} {calls : List ScanCall} (hle : fuel ≤ fuel')
    (h : scanTurns path results fuel n names = some calls) :
    scanTurns path results fuel' n names = some calls := by
  induction names generalizing n calls with
  | nil => exact h
  | cons name names ih =>
      obtain ⟨turn, rest, hturn, hrest, rfl⟩ := scanTurns_cons_eq_some.mp h
      exact scanTurns_cons_eq_some.mpr ⟨turn, rest, filler_mono hle hturn, ih hrest, rfl⟩

/-- The turns are sound if and only if each of them is. -/
theorem scanTurns_sound_iff (path : Bytes) (results : ℕ → ScanResults) (n : ℕ)
    (names : List Bytes) :
    (∃ fuel calls, scanTurns path results fuel n names = some calls ∧
      Owned none calls ∧ BoundsKnown calls) ↔
      ∀ i name, names[i]? = some name → TurnReads path name (results (n + i)) := by
  induction names generalizing n with
  | nil =>
      refine iff_of_true ⟨0, [], rfl, trivial, List.not_mem_nil⟩ ?_
      intro i name h
      cases h
  | cons name names ih =>
      have hturns : (∀ i name', (name :: names)[i]? = some name' →
            TurnReads path name' (results (n + i))) ↔
          TurnReads path name (results n) ∧
            ∀ i name', names[i]? = some name' → TurnReads path name' (results (n + 1 + i)) := by
        constructor
        · intro h
          refine ⟨h 0 name rfl, fun i name' hi => ?_⟩
          rw [Nat.add_assoc, Nat.add_comm 1 i]
          exact h (i + 1) name' hi
        · rintro ⟨hfirst, hlater⟩ i name' hi
          cases i with
          | zero =>
              obtain rfl : name = name' := Option.some.inj hi
              exact hfirst
          | succ i =>
              have := hlater i name' hi
              rwa [Nat.add_assoc, Nat.add_comm 1 i] at this
      rw [hturns, ← ih]
      constructor
      · rintro ⟨fuel, calls, hcalls, howned, hbounds⟩
        obtain ⟨turn, rest, hturn, hrest, rfl⟩ := scanTurns_cons_eq_some.mp hcalls
        obtain ⟨hfd, hrestOwned⟩ := (filler_owned_iff hturn rest).mp howned
        obtain ⟨hbound, hrestBounds⟩ := (boundsKnown_append turn rest).mp hbounds
        refine ⟨?_, fuel, rest, hrest, hrestOwned, hrestBounds⟩
        rw [turnReads_iff]
        exact ⟨⟨fuel, Option.isSome_of_eq_some hturn⟩, hfd, (filler_bound_iff hturn).mp hbound⟩
      · rintro ⟨hfirst, fuel, rest, hrest, hrestOwned, hrestBounds⟩
        obtain ⟨⟨fuel', hfuel'⟩, hfd, hstat⟩ := (turnReads_iff _ _ _).mp hfirst
        obtain ⟨turn, hturn⟩ := Option.isSome_iff_exists.mp hfuel'
        refine ⟨max fuel' fuel, turn ++ rest, ?_, ?_, ?_⟩
        · have hturn' := filler_mono (le_max_left fuel' fuel) hturn
          have hrest' := scanTurns_mono (le_max_right fuel' fuel) hrest
          exact scanTurns_cons_eq_some.mpr ⟨turn, rest, hturn', hrest', rfl⟩
        · exact (filler_owned_iff hturn rest).mpr ⟨hfd, hrestOwned⟩
        · exact (boundsKnown_append turn rest).mpr
            ⟨(filler_bound_iff hturn).mpr hstat, hrestBounds⟩

/-- The first name is always `.`, so the path that `Scanfile` makes fits in the buffer when the
path of that does. -/
theorem scanNames_zero (entries : List Bytes) (filler : ℕ → Bool) :
    (scanNames entries filler)[0]? = some [46] := by
  rw [scanNames, Wrapper.calledWith]
  split
  · rfl
  · rfl

/-- A scan ends, on its own descriptors and with known bounds, if and only if each name that the
filler is called with is that of a file whose `Stat` and `Open` succeed and whose reads end. -/
theorem scan_sound_iff (path : Bytes) (entries : List Bytes) (filler : ℕ → Bool)
    (results : ℕ → ScanResults) :
    ScansSoundly path entries filler results ↔
      ∀ n name, (scanNames entries filler)[n]? = some name →
        TurnReads path name (results n) := by
  have hturns := scanTurns_sound_iff path results 0 (scanNames entries filler)
  simp only [Nat.zero_add] at hturns
  rw [ScansSoundly, ← hturns]
  constructor
  · rintro ⟨fuel, calls, hscan, hsound⟩
    rw [scanfile] at hscan
    split at hscan
    · exact ⟨fuel, calls, hscan, hsound⟩
    · cases hscan
  · rintro ⟨fuel, calls, hscan, hsound⟩
    have hdot := (hturns.mp ⟨fuel, calls, hscan, hsound⟩) 0 [46] (scanNames_zero entries filler)
    refine ⟨fuel, calls, ?_, hsound⟩
    have hfits := hdot.path_fits
    rw [Wrapper.entryPath, List.length_append] at hfits
    rw [scanfile, if_pos]
    · exact hscan
    · simp only [List.length_cons, List.length_nil] at hfits
      omega

/-- A directory with one file of three bytes, and records for `.` and `..`. -/
theorem scan_three_files :
    let file : ScanResults := ⟨some 3, 0, 5, fun n => if n = 0 then 2 else 1⟩
    ScansSoundly [47, 100] [[97]] (fun _ => true) fun _ => file := by
  refine (scan_sound_iff _ _ _ _).mpr ?_
  intro n name hname
  have hlen : ∀ m ∈ scanNames [[97]] fun _ => true, m.length ≤ 2 := by decide
  have hname' := hlen name (List.mem_of_getElem? hname)
  refine ⟨?_, by decide, 3, rfl, 2, Or.inr (by decide), by decide⟩
  rw [Wrapper.entryPath, List.length_append, List.length_cons, FPATH_SIZE]
  simp only [List.length_cons, List.length_nil]
  omega

/-! ## The wrapper's own results -/

namespace Wrapper

/-- The state after `n` reads from the descriptor. -/
def reading (s : Wrapper) (fd : ℕ) : ℕ → Wrapper
  | 0 => s
  | n + 1 => ((s.reading fd n).read fd 4096).1

/-- The results of the filler's calls on a path. -/
def scanResults (s : Wrapper) (fpath : Bytes) : ScanResults :=
  let r := s.stat fpath
  let o := r.1.openFile fpath ⟨.rdOnly, false⟩
  { stat := r.2.2.map fun st => offT st.st_size
    junk := offT (Stat.ofBytes (r.1.fs.newBuffer TFS_INODE_ATTR_SIZE)).st_size
    fd := o.2
    reads := fun n => ((o.1.reading o.2.toNat n).read o.2.toNat 4096).2 }

/-- The loop over the file system makes the reads that the loop over their results makes. -/
theorem scanLoop_eq_reading (s : Wrapper) (fd : ℕ) {label st_size : ℤ} {fuel n : ℕ}
    {read_size : ℤ} {calls : List ScanCall}
    (h : readLoop label st_size (fun i => ((s.reading fd i).read fd 4096).2) fuel n read_size =
      some calls) :
    scanLoop fd st_size fuel read_size (s.reading fd n) = s.reading fd (n + calls.length) := by
  induction fuel generalizing n read_size calls with
  | zero => cases h
  | succ fuel ih =>
      rw [readLoop] at h
      rw [scanLoop]
      dsimp only at h ⊢
      split at h
      · rename_i hlt
        rw [if_pos hlt]
        split at h
        · rename_i hret
          cases h
          rw [if_pos hret]
          rfl
        · rename_i hret
          rw [if_neg hret]
          split at h
          · obtain ⟨rest, hrest, rfl⟩ := Option.map_eq_some_iff.mp h
            rw [List.length_cons, Nat.add_comm rest.length 1, ← Nat.add_assoc]
            exact ih hrest
          · cases h
      · rename_i hge
        cases h
        rw [if_neg hge]
        rfl

/-- A turn of the filler over the file system is the one on its results, when `Open` succeeds
and the loop ends. -/
theorem scanEntry_eq_reading (s : Wrapper) (path name : Bytes) {fuel : ℕ}
    {calls : List ScanCall} (hfd : 0 ≤ (s.scanResults (entryPath path name)).fd)
    (h : scanfileFiller (entryPath path name) (s.scanResults (entryPath path name)) fuel =
      some calls) :
    let o := (s.stat (entryPath path name)).1.openFile (entryPath path name) ⟨.rdOnly, false⟩
    scanEntry path fuel s name =
      ((o.1.reading o.2.toNat (calls.length - 4)).close o.2.toNat).1 := by
  intro o
  rw [scanfileFiller] at h
  split at h
  · obtain ⟨reads, hreads, rfl⟩ := Option.map_eq_some_iff.mp h
    simp only [scanResults, Option.getD_map (fun st : Stat => offT st.st_size)] at hreads
    have hloop := scanLoop_eq_reading o.1 o.2.toNat hreads
    rw [Nat.zero_add, reading] at hloop
    have hlen : reads.length + 1 + 1 + 1 + 1 - 4 = reads.length := by omega
    rw [scanEntry]
    refine (if_pos hfd).trans ?_
    simp only [List.length_cons, List.length_append, List.length_nil, Nat.zero_add, hlen]
    rw [← hloop]
  · cases h

end Wrapper

/-- The directory `/d`, just made. -/
def newDirectory : Wrapper :=
  (Wrapper.setup Durable.empty plainConfig).next (.mkdir [47, 100] 0)

/-- On `/d/.` the filler's `Stat` and `Open` fail: it takes what is in `statbuf` for the size, and
calls `Close` on -1. -/
theorem scan_new_directory :
    ¬ ∀ (path : Bytes) (entries : List Bytes) (filler : ℕ → Bool) (results : ℕ → ScanResults),
      ScansSoundly path entries filler results := by
  intro hall
  obtain ⟨fuel, calls, hscan, howned, -⟩ :=
    hall [47, 100] [] (fun _ => true) fun _ => newDirectory.scanResults [47, 100, 47, 46]
  rw [scanfile, if_pos (by decide)] at hscan
  obtain ⟨turn, rest, hturn, -, rfl⟩ := scanTurns_cons_eq_some.mp hscan
  have hfd := ((filler_owned_iff hturn rest).mp howned).1
  revert hfd
  decide +kernel

end Tablefs
