/-
Histories of updates, and stores that keep them all.

An update binds a key to a value or removes it. What a history leaves under a key is its last
update of that key (`last`, `get_foldl_apply`). A multi-version store keeps every update with its
number, sorted by key and, under one key, newest first; reading at a number is one search in that
list, and `readAt_eq` says that it finds the last update among the first ones.
-/
import Mathlib.Data.Prod.Lex
import Tablefs.Lib.SortedMap

set_option autoImplicit false

namespace Updates

variable {κ ν : Type*} [LinearOrder κ]

/-! ## Histories -/

/-- The last update of a key. -/
def last : List (κ × Option ν) → κ → Option (Option ν)
  | [], _ => none
  | u :: us, k => (last us k).or (if u.1 = k then some u.2 else none)

/-- A map after an update. -/
def apply (m : SortedMap κ ν) (u : κ × Option ν) : SortedMap κ ν :=
  match u.2 with
  | some v => m.put u.1 v
  | none => m.delete u.1

theorem last_append (us vs : List (κ × Option ν)) (k : κ) :
    last (us ++ vs) k = (last vs k).or (last us k) := by
  induction us with
  | nil => rw [List.nil_append, last, Option.or_none]
  | cons u us ih => rw [List.cons_append, last, last, ih, Option.or_assoc]

theorem last_eq_none {us : List (κ × Option ν)} {k : κ} (h : ∀ u ∈ us, u.1 ≠ k) :
    last us k = none := by
  induction us with
  | nil => rfl
  | cons u us ih =>
      rw [last, ih fun u' hu => h u' (List.mem_cons_of_mem u hu), Option.none_or,
        if_neg (h u List.mem_cons_self)]

/-- An update with none of its key behind it is the last one. -/
theorem last_eq_some {us : List (κ × Option ν)} {k : κ} {r : Option ν} {i : ℕ}
    (hi : us[i]? = some (k, r)) (h : ∀ j u, i < j → us[j]? = some u → u.1 ≠ k) :
    last us k = some r := by
  induction us generalizing i with
  | nil => cases hi
  | cons u us ih =>
      rw [last]
      cases i with
      | zero =>
          obtain rfl : u = (k, r) := Option.some.inj hi
          have hnone : last us k = none := by
            refine last_eq_none fun u' hu => ?_
            obtain ⟨j, hj⟩ := List.mem_iff_getElem?.mp hu
            exact h (j + 1) u' (Nat.succ_pos j) hj
          rw [hnone, Option.none_or, if_pos rfl]
      | succ i =>
          rw [ih hi fun j u' hj hu => h (j + 1) u' (Nat.succ_lt_succ hj) hu, Option.some_or]

theorem get_apply (m : SortedMap κ ν) (u : κ × Option ν) (k : κ) :
    (apply m u).get k = if u.1 = k then u.2 else m.get k := by
  obtain ⟨k', _ | v⟩ := u
  · exact m.get_delete k' k
  · exact m.get_put k' k v

/-- A history leaves its last updates. -/
theorem get_foldl_apply (us : List (κ × Option ν)) (m : SortedMap κ ν) (k : κ) :
    (us.foldl apply m).get k = (last us k).getD (m.get k) := by
  induction us generalizing m with
  | nil => rfl
  | cons u us ih =>
      rw [List.foldl_cons, ih, get_apply, last]
      cases last us k with
      | some r => rfl
      | none =>
          rw [Option.none_or, Option.getD_none]
          split <;> rfl

/-! ## Versions -/

/-- Where an update with its number is kept. -/
def rank (v : (κ × Option ν) × ℕ) : κ ×ₗ ℕᵒᵈ := toLex (v.1.1, OrderDual.toDual v.2)

theorem rank_lt_iff (v : (κ × Option ν) × ℕ) (k : κ) (n : ℕ) :
    rank v < toLex (k, OrderDual.toDual n) ↔ v.1.1 < k ∨ v.1.1 = k ∧ n < v.2 := by
  rw [rank, Prod.Lex.toLex_lt_toLex, OrderDual.toDual_lt_toDual]

/-- The update of `k` that a reader at the number `n` sees. -/
def readAt (vs : List ((κ × Option ν) × ℕ)) (k : κ) (n : ℕ) : Option (Option ν) :=
  match vs.find? fun v => ¬ rank v < toLex (k, OrderDual.toDual n) with
  | some v => if v.1.1 = k then some v.1.2 else none
  | none => none

/-- A reader at `n` sees the last of the updates up to `n`. -/
theorem readAt_eq {vs : List ((κ × Option ν) × ℕ)} {us : List (κ × Option ν)} {base : ℕ}
    (hs : vs.Pairwise fun v w => rank v < rank w) (hp : vs.Perm (us.zipIdx base)) (k : κ) (n : ℕ) :
    readAt vs k n = last (us.take (n + 1 - base)) k := by
  have hmem : ∀ v, v ∈ vs ↔ base ≤ v.2 ∧ us[v.2 - base]? = some v.1 := by
    intro v
    rw [hp.mem_iff]
    exact List.mem_zipIdx_iff_le_and_getElem?_sub
  -- the updates up to `n`, among the versions
  have htake : ∀ {j u}, (us.take (n + 1 - base))[j]? = some u → base + j ≤ n ∧
      (u, base + j) ∈ vs := by
    intro j u hj
    rw [List.getElem?_take] at hj
    split at hj
    · refine ⟨by omega, (hmem _).mpr ⟨Nat.le_add_right _ _, ?_⟩⟩
      rw [Nat.add_sub_cancel_left]
      exact hj
    · cases hj
  rw [readAt]
  cases hfind : vs.find? fun v => ¬ rank v < toLex (k, OrderDual.toDual n) with
  | none =>
      refine (last_eq_none fun u hu hk => ?_).symm
      obtain ⟨j, hj⟩ := List.mem_iff_getElem?.mp hu
      obtain ⟨hle, hv⟩ := htake hj
      have hbelow := List.find?_eq_none.mp hfind _ hv
      rw [decide_eq_true_iff, not_not, rank_lt_iff] at hbelow
      rcases hbelow with hlt | ⟨-, hlt⟩
      · exact absurd hk hlt.ne
      · dsimp only at hlt
        omega
  | some v =>
      obtain ⟨hv, as, bs, hsplit, has⟩ := List.find?_eq_some_iff_append.mp hfind
      rw [decide_eq_true_iff, rank_lt_iff, not_or] at hv
      -- it is the first of those that are not below
      have hfirst : ∀ w ∈ vs, ¬ rank w < toLex (k, OrderDual.toDual n) → rank v ≤ rank w := by
        intro w hw hnot
        rw [hsplit] at hw hs
        rcases List.mem_append.mp hw with hw | hw
        · have := has w hw
          simp only [decide_not, Bool.not_not, decide_eq_true_eq] at this
          exact absurd this hnot
        · rcases List.mem_cons.mp hw with rfl | hw
          · exact le_refl _
          · exact ((List.pairwise_cons.mp (List.pairwise_append.mp hs).2.1).1 w hw).le
      have hseen : ∀ {j u}, (us.take (n + 1 - base))[j]? = some u → u.1 = k →
          rank v ≤ toLex (k, OrderDual.toDual (base + j)) := by
        intro j u hj hk
        obtain ⟨hle, hw⟩ := htake hj
        have := hfirst _ hw (by
          rw [rank_lt_iff, not_or]
          exact ⟨fun hlt => absurd hk hlt.ne, fun hlt => by
            have := hlt.2
            dsimp only at this
            omega⟩)
        have hrank : rank (u, base + j) = toLex (k, OrderDual.toDual (base + j)) := by
          rw [rank, hk]
        rw [hrank] at this
        exact this
      by_cases hk : v.1.1 = k
      · dsimp only
        rw [if_pos hk]
        have hle : v.2 ≤ n := Nat.le_of_not_lt fun hlt => hv.2 ⟨hk, hlt⟩
        obtain ⟨hbase, hget⟩ := (hmem v).mp (hsplit ▸ List.mem_append_right as List.mem_cons_self)
        refine (last_eq_some (i := v.2 - base) ?_ fun j u hj hu hk' => ?_).symm
        · rw [List.getElem?_take_of_lt (by omega), hget, ← hk]
        · have := hseen hu hk'
          rw [rank, hk, Prod.Lex.toLex_le_toLex] at this
          rcases this with hlt | ⟨-, hle'⟩
          · exact lt_irrefl _ hlt
          · have := OrderDual.toDual_le_toDual.mp hle'
            omega
      · dsimp only
        rw [if_neg hk]
        refine (last_eq_none fun u hu hk' => ?_).symm
        obtain ⟨j, hj⟩ := List.mem_iff_getElem?.mp hu
        have := hseen hj hk'
        rw [rank, Prod.Lex.toLex_le_toLex] at this
        rcases this with hlt | ⟨he, -⟩
        · exact hv.1 hlt
        · exact hk he

/-- A reader at `n` sees this version: it is the newest of its key. -/
structure Seen (vs : List ((κ × Option ν) × ℕ)) (n : ℕ) (v : (κ × Option ν) × ℕ) : Prop where
  mem : v ∈ vs
  le : v.2 ≤ n
  newest : ∀ w ∈ vs, w.1.1 = v.1.1 → w.2 ≤ n → w.2 ≤ v.2

theorem rank_le_iff (v w : (κ × Option ν) × ℕ) :
    rank v ≤ rank w ↔ v.1.1 < w.1.1 ∨ v.1.1 = w.1.1 ∧ w.2 ≤ v.2 := by
  rw [rank, rank, Prod.Lex.toLex_le_toLex, OrderDual.toDual_le_toDual]

/-- Versions of one rank are one. -/
theorem eq_of_rank {vs : List ((κ × Option ν) × ℕ)}
    (hs : vs.Pairwise fun v w => rank v < rank w) {v w : (κ × Option ν) × ℕ} (hv : v ∈ vs)
    (hw : w ∈ vs) (h : rank v = rank w) : v = w := by
  induction vs with
  | nil => cases hv
  | cons x xs ih =>
      obtain ⟨hx, hs⟩ := List.pairwise_cons.mp hs
      rcases List.mem_cons.mp hv with rfl | hv'
      · rcases List.mem_cons.mp hw with rfl | hw'
        · rfl
        · exact absurd h (hx w hw').ne
      · rcases List.mem_cons.mp hw with rfl | hw'
        · exact absurd h (hx v hv').ne'
        · exact ih hs hv' hw'

/-- What a reader finds is what it sees. -/
theorem readAt_eq_some_iff {vs : List ((κ × Option ν) × ℕ)}
    (hs : vs.Pairwise fun v w => rank v < rank w) {k : κ} {n : ℕ} {r : Option ν} :
    readAt vs k n = some r ↔ ∃ i, Seen vs n ((k, r), i) := by
  have hsplit : ∀ {v}, (vs.find? fun v => ¬ rank v < toLex (k, OrderDual.toDual n)) = some v →
      v ∈ vs ∧ ¬ (v.1.1 < k ∨ v.1.1 = k ∧ n < v.2) ∧
        ∀ w ∈ vs, ¬ (w.1.1 < k ∨ w.1.1 = k ∧ n < w.2) → rank v ≤ rank w := by
    intro v hfind
    obtain ⟨hv, as, bs, rfl, has⟩ := List.find?_eq_some_iff_append.mp hfind
    rw [decide_eq_true_iff, rank_lt_iff] at hv
    refine ⟨List.mem_append_right as List.mem_cons_self, hv, fun w hw hwn => ?_⟩
    rcases List.mem_append.mp hw with hw | hw
    · have := has w hw
      simp only [decide_not, Bool.not_not, decide_eq_true_eq, rank_lt_iff] at this
      exact absurd this hwn
    · rcases List.mem_cons.mp hw with rfl | hw
      · exact le_refl _
      · exact ((List.pairwise_cons.mp (List.pairwise_append.mp hs).2.1).1 w hw).le
  rw [readAt]
  constructor
  · intro h
    cases hfind : vs.find? fun v => ¬ rank v < toLex (k, OrderDual.toDual n) with
    | none =>
        rw [hfind] at h
        cases h
    | some v =>
        obtain ⟨hv, hnot, hfirst⟩ := hsplit hfind
        rw [hfind] at h
        dsimp only at h
        split at h
        · rename_i hk
          obtain ⟨⟨k', r'⟩, i⟩ := v
          obtain rfl : k' = k := hk
          obtain rfl : r' = r := Option.some.inj h
          rw [not_or, not_and] at hnot
          refine ⟨i, hv, Nat.le_of_not_lt (hnot.2 rfl), fun w hw hwk hwn => ?_⟩
          have := hfirst w hw (by
            rw [not_or, not_and]
            exact ⟨fun hlt => hlt.ne hwk, fun _ => Nat.not_lt_of_le hwn⟩)
          rcases (rank_le_iff _ _).mp this with hlt | ⟨-, hle⟩
          · exact absurd hwk hlt.ne'
          · exact hle
        · cases h
  · rintro ⟨i, hseen⟩
    have hnot : ¬ (k < k ∨ k = k ∧ n < i) := by
      rw [not_or, not_and]
      exact ⟨lt_irrefl k, fun _ => Nat.not_lt_of_le hseen.le⟩
    cases hfind : vs.find? fun v => ¬ rank v < toLex (k, OrderDual.toDual n) with
    | none =>
        have := List.find?_eq_none.mp hfind _ hseen.mem
        rw [decide_eq_true_iff, not_not, rank_lt_iff] at this
        exact absurd this hnot
    | some v =>
        obtain ⟨hv, hvn, hfirst⟩ := hsplit hfind
        have hle := hfirst _ hseen.mem hnot
        rw [not_or, not_and] at hvn
        -- it has the key, and no newer version has
        obtain ⟨hk, hi⟩ : v.1.1 = k ∧ i ≤ v.2 := by
          rcases (rank_le_iff _ _).mp hle with hlt | h
          · exact absurd hlt hvn.1
          · exact h
        have hvi : v.2 ≤ i := hseen.newest v hv hk (Nat.le_of_not_lt (hvn.2 hk))
        have heq : v = ((k, r), i) := by
          refine eq_of_rank hs hv hseen.mem ?_
          rw [rank, rank, hk, le_antisymm hvi hi]
        rw [heq]
        exact if_pos rfl

/-- A history without a last update of a key has none of it. -/
theorem ne_of_last_eq_none {us : List (κ × Option ν)} {k : κ} (h : last us k = none)
    {u : κ × Option ν} (hu : u ∈ us) : u.1 ≠ k := by
  induction us with
  | nil => cases hu
  | cons u' us ih =>
      rw [last, Option.or_eq_none_iff] at h
      rcases List.mem_cons.mp hu with rfl | hu
      · intro hk
        rw [if_pos hk] at h
        cases h.2
      · exact ih h.1 hu

/-- Versions of a map with those of later updates over them: a reader at `n` finds the map after
the updates up to `n`. -/
theorem get_later {old new vs : List ((κ × Option ν) × ℕ)} {us : List (κ × Option ν)} {s n : ℕ}
    {m : SortedMap κ ν} (hmem : ∀ v, v ∈ vs ↔ v ∈ old ∨ v ∈ new) (hold : ∀ v ∈ old, v.2 ≤ s)
    (hs : new.Pairwise fun v w => rank v < rank w) (hp : new.Perm (us.zipIdx (s + 1)))
    (hn : s ≤ n) (hm : ∀ k r, m.get k = some r ↔ ∃ i, Seen old s ((k, some r), i)) (k : κ) (r : ν) :
    ((us.take (n - s)).foldl apply m).get k = some r ↔ ∃ i, Seen vs n ((k, some r), i) := by
  have hnew : ∀ v ∈ new, s < v.2 ∧ (v.2 ≤ n → v.1 ∈ us.take (n - s)) := by
    intro v hv
    obtain ⟨hle, hget⟩ := List.mem_zipIdx_iff_le_and_getElem?_sub.mp (hp.mem_iff.mp hv)
    refine ⟨hle, fun hvn => List.mem_iff_getElem?.mpr ⟨v.2 - (s + 1), ?_⟩⟩
    rw [List.getElem?_take_of_lt (by omega), hget]
  have hread := readAt_eq hs hp k n
  rw [Nat.add_sub_add_right] at hread
  rw [get_foldl_apply]
  cases hlast : last (us.take (n - s)) k with
  | none =>
      -- nothing new of this key is visible
      have hno : ∀ v ∈ new, v.2 ≤ n → v.1.1 ≠ k := fun v hv hvn =>
        ne_of_last_eq_none hlast ((hnew v hv).2 hvn)
      rw [Option.getD_none, hm]
      refine exists_congr fun i => ⟨fun h => ⟨(hmem _).mpr (Or.inl h.mem), h.le.trans hn, ?_⟩,
        fun h => ?_⟩
      · intro w hw hk hwn
        rcases (hmem w).mp hw with hw | hw
        · exact h.newest w hw hk (hold w hw)
        · exact absurd hk (hno w hw hwn)
      · have hmo : ((k, some r), i) ∈ old :=
          ((hmem _).mp h.mem).resolve_right fun hw => hno _ hw h.le rfl
        exact ⟨hmo, hold _ hmo, fun w hw hk hws =>
          h.newest w ((hmem w).mpr (Or.inl hw)) hk (hws.trans hn)⟩
  | some o =>
      rw [hlast] at hread
      obtain ⟨i, hseen⟩ := (readAt_eq_some_iff hs).mp hread
      have hi := (hnew _ hseen.mem).1
      have hvs : Seen vs n ((k, o), i) := by
        refine ⟨(hmem _).mpr (Or.inr hseen.mem), hseen.le, fun w hw hk hwn => ?_⟩
        rcases (hmem w).mp hw with hw | hw
        · exact (hold w hw).trans hi.le
        · exact hseen.newest w hw hk hwn
      rw [Option.getD_some]
      constructor
      · rintro rfl
        exact ⟨i, hvs⟩
      · rintro ⟨j, h⟩
        obtain rfl : j = i :=
          le_antisymm (hvs.newest _ h.mem rfl h.le) (h.newest _ hvs.mem rfl hvs.le)
        have hmn : ((k, some r), j) ∈ new :=
          ((hmem _).mp h.mem).resolve_left fun ho => absurd (hold _ ho) (Nat.not_le_of_lt hi)
        have heq := eq_of_rank hs hseen.mem hmn rfl
        exact (Prod.mk.inj (Prod.mk.inj heq).1).2

/-- Versions of which no two have one rank can be sorted. -/
theorem exists_sorted {vs : List ((κ × Option ν) × ℕ)}
    (h : vs.Pairwise fun v w => rank v ≠ rank w) :
    ∃ ws : List ((κ × Option ν) × ℕ), ws.Perm vs ∧ ws.Pairwise fun v w => rank v < rank w := by
  refine ⟨vs.mergeSort fun v w => rank v ≤ rank w, List.mergeSort_perm _ _, ?_⟩
  have hle : (vs.mergeSort fun v w => rank v ≤ rank w).Pairwise fun v w =>
      decide (rank v ≤ rank w) = true := by
    refine List.pairwise_mergeSort (fun a b c hab hbc => ?_) (fun a b => ?_) vs
    · exact decide_eq_true ((of_decide_eq_true hab).trans (of_decide_eq_true hbc))
    · rcases le_total (rank a) (rank b) with hab | hab
      · rw [decide_eq_true hab, Bool.true_or]
      · rw [decide_eq_true hab, Bool.or_true]
  have hne := ((List.mergeSort_perm vs fun v w => rank v ≤ rank w).pairwise_iff
    fun hvw => hvw.symm).mpr h
  exact (hle.and hne).imp fun hvw => lt_of_le_of_ne (of_decide_eq_true hvw.1) hvw.2

end Updates
