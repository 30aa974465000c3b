/-
The order in which the benchmark (`fsbench.cpp`) visits the files it made.

The constructor shuffles the numbers below `create_numpaths` in place: turn `i` of its loop
moves one of the first `i` entries to the end and puts `i` in its place. Whatever `rand`
returns, the entries so far are those numbers in some order (`Shuffled`). `DeleteQueryTest`
and `RenameQueryTest` go through the order with one thread for each remainder modulo the
number of threads, so no two of their turns come to the same file.

All of this is with `int`: a thread whose last turn is at `i` still adds the number of
threads to it. If that is no `int` the loop has no defined end, and whether it happens to a
thread depends only on the number of queries and of threads (`files_visited_once_iff`).
-/
import Mathlib.Data.List.Perm.Subperm
import Mathlib.Data.List.Nodup
import Mathlib.Data.Nat.ModEq
import Mathlib.Logic.Function.Basic

set_option autoImplicit false

namespace Tablefs

namespace Benchmark

/-! ## `path_order` -/

/-- Turn `i` of the constructor's loop, where `rand` returns `r`. -/
def orderTurn (path_order : ℕ → ℕ) (i r : ℕ) : ℕ → ℕ :=
  let j := r % i
  let path_order := Function.update path_order i (path_order j)
  Function.update path_order j i

/-- `path_order` after turn `i`, from what `new int[npath]` has in it. Turn `i + 1` takes the
`i`-th value of `rand`. -/
def pathOrder (fresh rands : ℕ → ℕ) : ℕ → ℕ → ℕ
  | 0 => Function.update fresh 0 0
  | i + 1 => orderTurn (pathOrder fresh rands i) (i + 1) (rands i)

/-- The first `n` entries are the numbers below `n`, each once. -/
structure Shuffled (path_order : ℕ → ℕ) (n : ℕ) : Prop where
  lt : ∀ i < n, path_order i < n
  inj : ∀ i < n, ∀ j < n, path_order i = path_order j → i = j

/-- What is where after a turn. -/
theorem orderTurn_apply (path_order : ℕ → ℕ) {i : ℕ} (hi : 0 < i) (r k : ℕ) :
    orderTurn path_order i r k =
      if k = r % i then i else if k = i then path_order (r % i) else path_order k := by
  have hj : r % i ≠ i := (Nat.mod_lt r hi).ne
  rw [orderTurn]
  by_cases hkj : k = r % i
  · rw [if_pos hkj, hkj, Function.update_self]
  · rw [if_neg hkj, Function.update_of_ne hkj]
    by_cases hki : k = i
    · rw [if_pos hki, hki, Function.update_self]
    · rw [if_neg hki, Function.update_of_ne hki]

/-- A turn adds its own number to those that are there. -/
theorem Shuffled.turn {path_order : ℕ → ℕ} {i : ℕ} (h : Shuffled path_order i) (hi : 0 < i)
    (r : ℕ) : Shuffled (orderTurn path_order i r) (i + 1) := by
  have hj : r % i < i := Nat.mod_lt r hi
  constructor
  · intro k hk
    rw [orderTurn_apply path_order hi]
    split
    · exact Nat.lt_succ_self i
    · split
      · exact (h.lt _ hj).trans (Nat.lt_succ_self i)
      · exact (h.lt k (by omega)).trans (Nat.lt_succ_self i)
  · -- the new number stands at `j` alone, and the entry that was there now stands at `i`
    intro a ha b hb hab
    rw [orderTurn_apply path_order hi, orderTurn_apply path_order hi] at hab
    have hold : ∀ k < i, path_order k ≠ i := fun k hk => (h.lt k hk).ne
    by_cases haj : a = r % i <;> by_cases hbj : b = r % i
    · rw [haj, hbj]
    · rw [if_pos haj, if_neg hbj] at hab
      split at hab
      · exact absurd hab.symm (hold _ hj)
      · exact absurd hab.symm (hold b (by omega))
    · rw [if_neg haj, if_pos hbj] at hab
      split at hab
      · exact absurd hab (hold _ hj)
      · exact absurd hab (hold a (by omega))
    · rw [if_neg haj, if_neg hbj] at hab
      by_cases hai : a = i <;> by_cases hbi : b = i
      · rw [hai, hbi]
      · rw [if_pos hai, if_neg hbi] at hab
        exact absurd (h.inj _ hj b (by omega) hab).symm hbj
      · rw [if_neg hai, if_pos hbi] at hab
        exact absurd (h.inj a (by omega) _ hj hab) haj
      · rw [if_neg hai, if_neg hbi] at hab
        exact h.inj a (by omega) b (by omega) hab

/-- After turn `i` the first `i + 1` entries are shuffled, for any values of `rand`. -/
theorem pathOrder_shuffled (fresh rands : ℕ → ℕ) (i : ℕ) :
    Shuffled (pathOrder fresh rands i) (i + 1) := by
  induction i with
  | zero =>
      have hzero : ∀ k < 1, pathOrder fresh rands 0 k = 0 := by
        intro k hk
        rw [Nat.lt_one_iff.mp hk]
        exact Function.update_self ..
      exact ⟨fun k hk => by rw [hzero k hk]; exact Nat.one_pos, fun a ha b hb _ => by omega⟩
  | succ i ih => exact ih.turn (Nat.succ_pos i) (rands i)

theorem Shuffled.perm {path_order : ℕ → ℕ} {n : ℕ} (h : Shuffled path_order n) :
    ((List.range n).map path_order).Perm (List.range n) := by
  have hnodup : ((List.range n).map path_order).Nodup := by
    apply List.Nodup.map_on _ List.nodup_range
    intro a ha b hb hab
    exact h.inj a (List.mem_range.mp ha) b (List.mem_range.mp hb) hab
  have hsub : (List.range n).map path_order ⊆ List.range n := by
    intro k hk
    obtain ⟨i, hi, rfl⟩ := List.mem_map.mp hk
    exact List.mem_range.mpr (h.lt i (List.mem_range.mp hi))
  apply (List.subperm_of_subset hnodup hsub).perm_of_length_le
  rw [List.length_map]

/-! ## The turns of a thread -/

/-- `for (int i = thread->tid; i < numquery; i += thread->step)` from `i` on: the values of `i`
in its turns. There is no result if `i` leaves the range of `int`. `fuel` bounds the number
of turns. -/
def queryLoop (numquery step : ℕ) : ℕ → ℕ → Option (List ℕ)
  | 0, i => if i < numquery then none else some []
  | fuel + 1, i =>
      if i < numquery then
        if i + step < 2 ^ 31 then (queryLoop numquery step fuel (i + step)).map (i :: ·) else none
      else some []

/-- A turn, if there is one. -/
theorem queryLoop_cases {numquery step fuel i : ℕ} {is : List ℕ}
    (h : queryLoop numquery step fuel i = some is) :
    (numquery ≤ i ∧ is = []) ∨
      ∃ fuel' is', i < numquery ∧ i + step < 2 ^ 31 ∧ fuel = fuel' + 1 ∧
        queryLoop numquery step fuel' (i + step) = some is' ∧ is = i :: is' := by
  cases fuel with
  | zero =>
      rw [queryLoop] at h
      split at h
      · cases h
      · rename_i hi
        exact Or.inl ⟨not_lt.mp hi, (Option.some.inj h).symm⟩
  | succ fuel =>
      rw [queryLoop] at h
      by_cases hi : i < numquery
      · rw [if_pos hi] at h
        split at h
        · rename_i hint
          obtain ⟨is', his', rfl⟩ := Option.map_eq_some_iff.mp h
          exact Or.inr ⟨fuel, is', hi, hint, rfl, his', rfl⟩
        · cases h
      · rw [if_neg hi] at h
        exact Or.inl ⟨not_lt.mp hi, (Option.some.inj h).symm⟩

/-- A later number with the same remainder is at least one step away. -/
theorem step_le_of_mod {i x step : ℕ} (hix : i < x) (hmod : x % step = i % step) :
    i + step ≤ x := by
  have hdvd : step ∣ x - i := Nat.dvd_of_mod_eq_zero (Nat.sub_mod_eq_zero_of_mod_eq hmod)
  have := Nat.le_of_dvd (by omega) hdvd
  omega

/-- The turns are at the numbers below `numquery` with the remainder of `tid`. -/
theorem mem_queryLoop {numquery step fuel i : ℕ} {is : List ℕ} (hstep : 0 < step)
    (h : queryLoop numquery step fuel i = some is) (x : ℕ) :
    x ∈ is ↔ i ≤ x ∧ x < numquery ∧ x % step = i % step := by
  induction fuel generalizing i is with
  | zero =>
      obtain ⟨hi, rfl⟩ | ⟨_, _, _, _, hfuel, _⟩ := queryLoop_cases h
      · simp only [List.not_mem_nil, false_iff]
        omega
      · omega
  | succ fuel ih =>
      obtain ⟨hi, rfl⟩ | ⟨fuel', is', hi, -, hfuel, his', rfl⟩ := queryLoop_cases h
      · simp only [List.not_mem_nil, false_iff]
        omega
      obtain rfl : fuel' = fuel := by omega
      rw [List.mem_cons, ih his', Nat.add_mod_right]
      constructor
      · rintro (rfl | ⟨hle, hlt, hmod⟩)
        · exact ⟨le_rfl, hi, rfl⟩
        · exact ⟨by omega, hlt, hmod⟩
      · rintro ⟨hle, hlt, hmod⟩
        rcases hle.eq_or_lt with rfl | hix
        · exact Or.inl rfl
        · exact Or.inr ⟨step_le_of_mod hix hmod, hlt, hmod⟩

theorem queryLoop_nodup {numquery step fuel i : ℕ} {is : List ℕ} (hstep : 0 < step)
    (h : queryLoop numquery step fuel i = some is) : is.Nodup := by
  induction fuel generalizing i is with
  | zero =>
      obtain ⟨-, rfl⟩ | ⟨_, _, _, _, hfuel, _⟩ := queryLoop_cases h
      · exact List.nodup_nil
      · omega
  | succ fuel ih =>
      obtain ⟨-, rfl⟩ | ⟨fuel', is', -, -, hfuel, his', rfl⟩ := queryLoop_cases h
      · exact List.nodup_nil
      obtain rfl : fuel' = fuel := by omega
      refine List.nodup_cons.mpr ⟨?_, ih his'⟩
      rw [mem_queryLoop hstep his']
      omega

/-- After every turn `i` is still an `int`. -/
theorem queryLoop_int {numquery step fuel i : ℕ} {is : List ℕ}
    (h : queryLoop numquery step fuel i = some is) : ∀ x ∈ is, x + step < 2 ^ 31 := by
  induction fuel generalizing i is with
  | zero =>
      obtain ⟨-, rfl⟩ | ⟨_, _, _, _, hfuel, _⟩ := queryLoop_cases h
      · simp
      · omega
  | succ fuel ih =>
      obtain ⟨-, rfl⟩ | ⟨fuel', is', -, hint, hfuel, his', rfl⟩ := queryLoop_cases h
      · simp
      obtain rfl : fuel' = fuel := by omega
      exact List.forall_mem_cons.mpr ⟨hint, ih his'⟩

/-- The loop ends if the queries and one step fit in an `int`. -/
theorem queryLoop_ends {numquery step fuel i : ℕ} (hstep : 0 < step)
    (hint : numquery + step ≤ 2 ^ 31) (hfuel : numquery ≤ i + fuel) :
    ∃ is, queryLoop numquery step fuel i = some is := by
  induction fuel generalizing i with
  | zero => exact ⟨[], if_neg (by omega)⟩
  | succ fuel ih =>
      by_cases hi : i < numquery
      · obtain ⟨is, his⟩ := ih (i := i + step) (by omega)
        refine ⟨i :: is, ?_⟩
        rw [queryLoop, if_pos hi, if_pos (by omega), his]
        rfl
      · exact ⟨[], by rw [queryLoop, if_neg hi]⟩

/-! ## All threads -/

/-- The entries of `path_order` that thread `tid` asks `GetFilePath` for, in `DeleteQueryTest`
or `RenameQueryTest`. -/
def threadFiles (path_order : ℕ → ℕ) (numfiles numquery step tid : ℕ) : Option (List ℕ) :=
  (queryLoop numquery step numquery tid).map fun is => is.map fun i => path_order (i % numfiles)

/-- What should hold of the order and of the queries: the order is one of the files; the
threads' loops end; no file is asked for twice, by one thread or by two; and as many queries
as files ask for every file. -/
structure VisitsOnce (path_order : ℕ → ℕ) (numfiles numquery numthreads : ℕ) : Prop where
  perm : ((List.range numfiles).map path_order).Perm (List.range numfiles)
  visits : ∃ files : ℕ → List ℕ,
    (∀ tid < numthreads,
      threadFiles path_order numfiles numquery numthreads tid = some (files tid)) ∧
    ((List.range numthreads).flatMap files).Nodup ∧
    (numquery = numfiles → ∀ k < numfiles, k ∈ (List.range numthreads).flatMap files)

section

variable {path_order : ℕ → ℕ} {numfiles numquery numthreads : ℕ}

/-- What a thread asks for, by the turns it makes. -/
theorem threadFiles_eq_some {tid : ℕ} {files : List ℕ} :
    threadFiles path_order numfiles numquery numthreads tid = some files ↔
      ∃ is, queryLoop numquery numthreads numquery tid = some is ∧
        is.map (fun i => path_order (i % numfiles)) = files := Option.map_eq_some_iff

/-- The thread of the last query goes past the range of `int` if one step leads there. -/
theorem VisitsOnce.int (h : VisitsOnce path_order numfiles numquery numthreads)
    (hthreads : 0 < numthreads) (hquery : 0 < numquery) : numquery + numthreads ≤ 2 ^ 31 := by
  obtain ⟨files, hfiles, -⟩ := h.visits
  have htid : (numquery - 1) % numthreads < numthreads := Nat.mod_lt _ hthreads
  obtain ⟨is, his, -⟩ := threadFiles_eq_some.mp (hfiles _ htid)
  have hmem : numquery - 1 ∈ is := by
    rw [mem_queryLoop hthreads his]
    exact ⟨Nat.mod_le _ _, by omega, (Nat.mod_mod _ _).symm⟩
  have := queryLoop_int his _ hmem
  omega

/-- Where every loop ends, the files are visited once. -/
theorem Shuffled.visitsOnce (h : Shuffled path_order numfiles) (hq : numquery ≤ numfiles)
    (hthreads : 0 < numthreads)
    (hends : ∀ tid, ∃ is, queryLoop numquery numthreads numquery tid = some is) :
    VisitsOnce path_order numfiles numquery numthreads := by
  choose is his using hends
  let files : ℕ → List ℕ := fun tid => (is tid).map fun i => path_order (i % numfiles)
  have hturn : ∀ {tid i : ℕ}, i ∈ is tid → i < numquery ∧ i % numthreads = tid % numthreads :=
    fun hi => ((mem_queryLoop hthreads (his _) _).mp hi).2
  -- two turns that ask for the same file are at the same number
  have hsame : ∀ {t u i j : ℕ}, i ∈ is t → j ∈ is u →
      path_order (i % numfiles) = path_order (j % numfiles) → i = j := by
    intro t u i j hi hj hij
    have hin : i < numfiles := (hturn hi).1.trans_le hq
    have hjn : j < numfiles := (hturn hj).1.trans_le hq
    rw [Nat.mod_eq_of_lt hin, Nat.mod_eq_of_lt hjn] at hij
    exact h.inj i hin j hjn hij
  refine ⟨h.perm, files, fun tid _ => threadFiles_eq_some.mpr ⟨is tid, his tid, rfl⟩, ?_, ?_⟩
  · rw [List.nodup_flatMap]
    constructor
    · intro tid _
      exact List.Nodup.map_on (fun i hi j hj => hsame hi hj) (queryLoop_nodup hthreads (his tid))
    · apply List.nodup_range.imp_of_mem
      intro t u ht hu htu k hkt hku
      obtain ⟨i, hi, rfl⟩ := List.mem_map.mp hkt
      obtain ⟨j, hj, hij⟩ := List.mem_map.mp hku
      obtain rfl := hsame hj hi hij
      apply htu
      rw [← Nat.mod_eq_of_lt (List.mem_range.mp ht), ← Nat.mod_eq_of_lt (List.mem_range.mp hu),
        ← (hturn hi).2, ← (hturn hj).2]
  · intro hall k hk
    have hmem : k ∈ (List.range numfiles).map path_order :=
      h.perm.mem_iff.mpr (List.mem_range.mpr hk)
    obtain ⟨i, hi, rfl⟩ := List.mem_map.mp hmem
    have hin := List.mem_range.mp hi
    refine List.mem_flatMap.mpr ⟨i % numthreads, List.mem_range.mpr (Nat.mod_lt i hthreads), ?_⟩
    refine List.mem_map.mpr ⟨i, ?_, by rw [Nat.mod_eq_of_lt hin]⟩
    rw [mem_queryLoop hthreads (his _)]
    exact ⟨Nat.mod_le _ _, by omega, (Nat.mod_mod _ _).symm⟩

end

/-- With any values of `rand`, the order is one of the files, and the threads visit each file
at most once, and every file if there are as many queries, exactly if the last turn of every
thread leaves `i` an `int`, and there is a thread where every file is to be visited. -/
theorem files_visited_once_iff (fresh rands : ℕ → ℕ) (npath numquery numthreads : ℕ)
    (hpos : 1 ≤ npath) (hint : npath < 2 ^ 31) (hq : numquery ≤ npath) :
    VisitsOnce (pathOrder fresh rands (npath - 1)) npath numquery numthreads ↔
      (numquery = 0 ∨ numquery + numthreads ≤ 2 ^ 31) ∧ (numquery = npath → 0 < numthreads) := by
  have hshuffled : Shuffled (pathOrder fresh rands (npath - 1)) npath := by
    have hturns := pathOrder_shuffled fresh rands (npath - 1)
    rwa [Nat.sub_add_cancel hpos] at hturns
  rcases Nat.eq_zero_or_pos numthreads with rfl | hthreads
  · -- no thread asks for a file
    constructor
    · intro h
      refine ⟨Or.inr (by omega), fun hall => ?_⟩
      obtain ⟨files, -, -, hcover⟩ := h.visits
      have := hcover hall 0 hpos
      simp at this
    · rintro ⟨-, hall⟩
      refine ⟨hshuffled.perm, fun _ => [], fun tid htid => absurd htid (Nat.not_lt_zero tid),
        List.nodup_nil, fun h => ?_⟩
      exact absurd (hall h) (lt_irrefl 0)
  · constructor
    · intro h
      refine ⟨?_, fun _ => hthreads⟩
      rcases Nat.eq_zero_or_pos numquery with hzero | hquery
      · exact Or.inl hzero
      · exact Or.inr (h.int hthreads hquery)
    · rintro ⟨hfits, -⟩
      apply hshuffled.visitsOnce hq hthreads
      intro tid
      rcases hfits with rfl | hfits
      · exact ⟨[], rfl⟩
      · exact queryLoop_ends hthreads hfits (by omega)

/-- Five files, four queries, three threads. -/
theorem files_visited_once_small :
    VisitsOnce (pathOrder (fun _ => 7) (fun i => i * i + 3) 4) 5 4 3 :=
  (files_visited_once_iff _ _ 5 4 3 (by decide) (by decide) (by decide)).mpr (by decide)

/-- Two threads and as many queries as files as an `int` can count: the first thread's last
turn is at an even number, two below `2^31`. -/
theorem last_turn_overflows : ¬ ∀ (fresh rands : ℕ → ℕ) (npath numquery numthreads : ℕ),
    1 ≤ npath → npath < 2 ^ 31 → numquery ≤ npath → 1 ≤ numthreads →
      VisitsOnce (pathOrder fresh rands (npath - 1)) npath numquery numthreads := by
  intro hall
  have hvisits := hall id id (2 ^ 31 - 1) (2 ^ 31 - 1) 2 (by decide) (by decide) le_rfl (by decide)
  exact absurd (hvisits.int (by decide) (by decide)) (by decide)

end Benchmark

end Tablefs
