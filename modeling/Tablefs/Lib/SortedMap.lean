/-
An ordered key-value store: an association list kept strictly sorted by key.

The order is a field of the structure, so a map with two entries for one key,
or with its entries out of order, cannot be built. Two maps that answer every
`get` alike are then equal (`ext_get`), which is what lets a development state
"the store is unchanged" as an equation and prove it one key at a time.
-/
import Mathlib.Order.Lattice
import Mathlib.Data.List.Basic

set_option autoImplicit false

/-- A finite map whose entries are listed in the order of their keys. -/
structure SortedMap (κ ν : Type*) [LinearOrder κ] where
  entries : List (κ × ν)
  sorted : entries.Pairwise (fun a b => a.1 < b.1)

namespace SortedMap

variable {κ ν : Type*} [LinearOrder κ]

/-! ## The operations on bare entry lists -/

/-- The value under `k`. -/
def getEntry (k : κ) : List (κ × ν) → Option ν
  | [] => none
  | e :: es => if e.1 = k then some e.2 else getEntry k es

/-- The entries with `k` bound to `v`, in order. -/
def putEntry (k : κ) (v : ν) : List (κ × ν) → List (κ × ν)
  | [] => [(k, v)]
  | e :: es =>
      if k < e.1 then (k, v) :: e :: es
      else if e.1 < k then e :: putEntry k v es
      else (k, v) :: es

theorem getEntry_eq_none {k : κ} {es : List (κ × ν)} (h : ∀ e ∈ es, e.1 ≠ k) :
    getEntry k es = none := by
  induction es with
  | nil => rfl
  | cons e es ih =>
      rw [getEntry, if_neg (h e List.mem_cons_self),
        ih fun e' he' => h e' (List.mem_cons_of_mem e he')]

theorem mem_of_getEntry {k : κ} {v : ν} {es : List (κ × ν)} (h : getEntry k es = some v) :
    (k, v) ∈ es := by
  induction es with
  | nil => simp [getEntry] at h
  | cons e es ih =>
      rw [getEntry] at h
      by_cases hk : e.1 = k
      · rw [if_pos hk] at h
        obtain ⟨k', v'⟩ := e
        simp only [Option.some.injEq] at h hk
        rw [hk, h]; exact List.mem_cons_self
      · rw [if_neg hk] at h
        exact List.mem_cons_of_mem e (ih h)

theorem getEntry_of_mem {k : κ} {v : ν} {es : List (κ × ν)}
    (hs : es.Pairwise (fun a b => a.1 < b.1)) (h : (k, v) ∈ es) : getEntry k es = some v := by
  induction es with
  | nil => simp at h
  | cons e es ih =>
      obtain ⟨hlt, hs'⟩ := List.pairwise_cons.mp hs
      rcases List.mem_cons.mp h with rfl | h
      · rw [getEntry, if_pos rfl]
      · rw [getEntry, if_neg (ne_of_lt (hlt _ h)), ih hs' h]

theorem key_mem_putEntry {k : κ} {v : ν} {es : List (κ × ν)} {e : κ × ν}
    (h : e ∈ putEntry k v es) : e = (k, v) ∨ e ∈ es := by
  induction es with
  | nil => exact Or.inl (List.mem_singleton.mp h)
  | cons e' es ih =>
      rw [putEntry] at h
      split at h
      · exact List.mem_cons.mp h
      · split at h
        · rcases List.mem_cons.mp h with rfl | h
          · exact Or.inr List.mem_cons_self
          · exact (ih h).imp_right (List.mem_cons_of_mem e')
        · exact (List.mem_cons.mp h).imp_right (List.mem_cons_of_mem e')

theorem putEntry_sorted {k : κ} {v : ν} {es : List (κ × ν)}
    (hs : es.Pairwise (fun a b => a.1 < b.1)) :
    (putEntry k v es).Pairwise (fun a b => a.1 < b.1) := by
  induction es with
  | nil => exact List.pairwise_singleton _ _
  | cons e es ih =>
      obtain ⟨hlt, hs'⟩ := List.pairwise_cons.mp hs
      rw [putEntry]
      split
      · rename_i hk
        refine List.pairwise_cons.mpr ⟨fun e' he' => ?_, hs⟩
        rcases List.mem_cons.mp he' with rfl | he'
        · exact hk
        · exact lt_trans hk (hlt e' he')
      · split
        · rename_i _ hk
          refine List.pairwise_cons.mpr ⟨fun e' he' => ?_, ih hs'⟩
          rcases key_mem_putEntry he' with rfl | he'
          · exact hk
          · exact hlt e' he'
        · rename_i h1 h2
          have hk : k = e.1 := le_antisymm (not_lt.mp h2) (not_lt.mp h1)
          exact List.pairwise_cons.mpr ⟨fun e' he' => hk ▸ hlt e' he', hs'⟩

theorem getEntry_putEntry (k k' : κ) (v : ν) (es : List (κ × ν)) :
    getEntry k' (putEntry k v es) = if k = k' then some v else getEntry k' es := by
  induction es with
  | nil => rfl
  | cons e es ih =>
      rw [putEntry]
      split
      · rw [getEntry]
      · split
        · rename_i _ hlt
          rw [getEntry, ih, getEntry]
          by_cases hk : k = k'
          · simp only [if_pos hk, if_neg (hk ▸ ne_of_lt hlt)]
          · simp only [if_neg hk]
        · rename_i h1 h2
          have he : k = e.1 := le_antisymm (not_lt.mp h2) (not_lt.mp h1)
          rw [getEntry, getEntry, he]
          by_cases hk : e.1 = k' <;> simp [hk]

theorem getEntry_filter_ne (k k' : κ) (es : List (κ × ν)) :
    getEntry k' (es.filter fun e => e.1 ≠ k) = if k = k' then none else getEntry k' es := by
  induction es with
  | nil => simp [getEntry]
  | cons e es ih =>
      by_cases he : e.1 = k
      · rw [List.filter_cons_of_neg (by simp [he]), ih, getEntry, he]
        by_cases hk : k = k' <;> simp [hk]
      · rw [List.filter_cons_of_pos (by simp [he]), getEntry, ih, getEntry]
        by_cases hk : k = k'
        · simp only [if_pos hk, if_neg (hk ▸ he)]
        · simp only [if_neg hk]

/-! ## The map -/

/-- The map without entries. -/
def empty : SortedMap κ ν := ⟨[], List.Pairwise.nil⟩

/-- The value stored under `k`. -/
def get (m : SortedMap κ ν) (k : κ) : Option ν := getEntry k m.entries

/-- Store `v` under `k`. -/
def put (m : SortedMap κ ν) (k : κ) (v : ν) : SortedMap κ ν :=
  ⟨putEntry k v m.entries, putEntry_sorted m.sorted⟩

/-- Remove what is stored under `k`. -/
def delete (m : SortedMap κ ν) (k : κ) : SortedMap κ ν :=
  ⟨m.entries.filter fun e => e.1 ≠ k, m.sorted.filter _⟩

/-- The entries an iterator yields from `Seek(k)` on. -/
def seek (m : SortedMap κ ν) (k : κ) : List (κ × ν) := m.entries.dropWhile fun e => e.1 < k

@[simp] theorem get_empty (k : κ) : (empty : SortedMap κ ν).get k = none := rfl

theorem get_put (m : SortedMap κ ν) (k k' : κ) (v : ν) :
    (m.put k v).get k' = if k = k' then some v else m.get k' :=
  getEntry_putEntry k k' v m.entries

@[simp] theorem get_put_self (m : SortedMap κ ν) (k : κ) (v : ν) :
    (m.put k v).get k = some v := by
  rw [get_put, if_pos rfl]

theorem get_put_of_ne (m : SortedMap κ ν) {k k' : κ} (v : ν) (h : k ≠ k') :
    (m.put k v).get k' = m.get k' := by
  rw [get_put, if_neg h]

theorem get_delete (m : SortedMap κ ν) (k k' : κ) :
    (m.delete k).get k' = if k = k' then none else m.get k' :=
  getEntry_filter_ne k k' m.entries

@[simp] theorem get_delete_self (m : SortedMap κ ν) (k : κ) : (m.delete k).get k = none := by
  rw [get_delete, if_pos rfl]

theorem get_delete_of_ne (m : SortedMap κ ν) {k k' : κ} (h : k ≠ k') :
    (m.delete k).get k' = m.get k' := by
  rw [get_delete, if_neg h]

theorem mem_entries_iff (m : SortedMap κ ν) (k : κ) (v : ν) :
    (k, v) ∈ m.entries ↔ m.get k = some v :=
  ⟨getEntry_of_mem m.sorted, mem_of_getEntry⟩

theorem entries_eq_of_get {es fs : List (κ × ν)}
    (hes : es.Pairwise (fun a b => a.1 < b.1)) (hfs : fs.Pairwise (fun a b => a.1 < b.1))
    (h : ∀ k, getEntry k es = getEntry k fs) : es = fs := by
  have hmem : ∀ e : κ × ν, e ∈ es ↔ e ∈ fs := by
    rintro ⟨k, v⟩
    constructor
    · intro he; exact mem_of_getEntry (by rw [← h, getEntry_of_mem hes he])
    · intro he; exact mem_of_getEntry (by rw [h, getEntry_of_mem hfs he])
  have hnd : ∀ l : List (κ × ν), l.Pairwise (fun a b => a.1 < b.1) → l.Nodup := fun l hl =>
    hl.imp fun hab heq => absurd (heq ▸ hab) (lt_irrefl _)
  refine List.Perm.eq_of_pairwise (fun a b _ _ hab hba => absurd (lt_trans hab hba) (lt_irrefl _))
    hes hfs ((List.perm_ext_iff_of_nodup (hnd es hes) (hnd fs hfs)).mpr hmem)

/-- Maps that answer every `get` alike are equal. -/
theorem ext_get {m n : SortedMap κ ν} (h : ∀ k, m.get k = n.get k) : m = n := by
  obtain ⟨es, hes⟩ := m
  obtain ⟨fs, hfs⟩ := n
  have : es = fs := entries_eq_of_get hes hfs h
  subst this; rfl

/-- Storing what is already there changes nothing. -/
theorem put_of_get {m : SortedMap κ ν} {k : κ} {v : ν} (h : m.get k = some v) : m.put k v = m := by
  refine ext_get fun k' => ?_
  rw [get_put]
  by_cases hk : k = k'
  · rw [if_pos hk, ← hk, h]
  · rw [if_neg hk]

/-- Removing what is not there changes nothing. -/
theorem delete_of_get {m : SortedMap κ ν} {k : κ} (h : m.get k = none) : m.delete k = m := by
  refine ext_get fun k' => ?_
  rw [get_delete]
  by_cases hk : k = k'
  · rw [if_pos hk, ← hk, h]
  · rw [if_neg hk]

theorem get_foldl_put {es : List (κ × ν)} (hs : es.Pairwise (fun a b => a.1 < b.1))
    (m : SortedMap κ ν) (k : κ) :
    (es.foldl (fun n e => n.put e.1 e.2) m).get k = (getEntry k es).or (m.get k) := by
  induction es generalizing m with
  | nil => rfl
  | cons e es ih =>
      obtain ⟨hlt, hs'⟩ := List.pairwise_cons.mp hs
      rw [List.foldl_cons, ih hs', getEntry]
      by_cases hk : e.1 = k
      · -- the entries after `e` have larger keys
        have hnone : getEntry k es = none :=
          getEntry_eq_none fun e' he' => hk ▸ ne_of_gt (hlt e' he')
        rw [if_pos hk, hnone, hk, get_put_self]
        rfl
      · rw [if_neg hk, get_put_of_ne m e.2 hk]

/-- Storing the entries of a map one after the other builds the map. -/
theorem foldl_put_entries (m : SortedMap κ ν) :
    m.entries.foldl (fun n e => n.put e.1 e.2) empty = m := by
  refine ext_get fun k => ?_
  rw [get_foldl_put m.sorted, get_empty, Option.or_none]
  rfl

/-- Everything the iterator yields is stored. -/
theorem mem_of_mem_seek {m : SortedMap κ ν} {k k' : κ} {v : ν} (h : (k', v) ∈ m.seek k) :
    m.get k' = some v :=
  (m.mem_entries_iff k' v).mp ((List.dropWhile_sublist _).subset h)

/-! ## Scans -/

/-- In a sorted list the entries from a key on are those that are not below it. -/
theorem dropWhile_eq_filter {es : List (κ × ν)} (hs : es.Pairwise (fun a b => a.1 < b.1)) (k : κ) :
    (es.dropWhile fun e => e.1 < k) = es.filter fun e => ¬ e.1 < k := by
  induction es with
  | nil => rfl
  | cons e es ih =>
      obtain ⟨hlt, hs'⟩ := List.pairwise_cons.mp hs
      by_cases hk : e.1 < k
      · rw [List.dropWhile_cons_of_pos (by simpa using hk),
          List.filter_cons_of_neg (by simpa using hk), ih hs']
      · -- everything behind the first one that is not below the key is above it
        rw [List.dropWhile_cons_of_neg (by simpa using hk), List.filter_eq_self.mpr]
        intro f hf
        rcases List.mem_cons.mp hf with rfl | hf
        · simpa using hk
        · simpa using le_trans (not_lt.mp hk) (le_of_lt (hlt f hf))

/-- A scan that stops at the first entry without `P` misses none with `P`, if between the key
it seeks to and an entry with `P` there are only such entries. -/
theorem takeWhile_seek (m : SortedMap κ ν) (k : κ) {P : κ × ν → Bool}
    (h : ∀ e f, ¬ e.1 < k → e.1 < f.1 → P f = true → P e = true) :
    (m.seek k).takeWhile P = m.entries.filter fun e => ¬ e.1 < k ∧ P e = true := by
  have hfilter : ∀ {es : List (κ × ν)}, es.Pairwise (fun a b => a.1 < b.1) →
      (∀ e ∈ es, ¬ e.1 < k) → es.takeWhile P = es.filter P := by
    intro es hs hk
    induction es with
    | nil => rfl
    | cons e es ih =>
        obtain ⟨hlt, hs'⟩ := List.pairwise_cons.mp hs
        by_cases hP : P e = true
        · rw [List.takeWhile_cons_of_pos hP, List.filter_cons_of_pos hP,
            ih hs' fun f hf => hk f (List.mem_cons_of_mem e hf)]
        · rw [List.takeWhile_cons_of_neg hP, List.filter_cons_of_neg hP, List.filter_eq_nil_iff.mpr]
          intro f hf hPf
          exact hP (h e f (hk e List.mem_cons_self) (hlt f hf) hPf)
  rw [seek, dropWhile_eq_filter m.sorted, hfilter (m.sorted.filter _), List.filter_filter]
  · refine List.filter_congr ?_
    intro e _
    simp [and_comm]
  · intro e he
    simpa using (List.mem_filter.mp he).2

/-- The first entry with `P`, from a key on, is the least of them. -/
theorem find?_seek_eq_some (m : SortedMap κ ν) (k : κ) {P : κ × ν → Bool} {e : κ × ν} :
    (m.seek k).find? P = some e ↔ (e ∈ m.entries ∧ ¬ e.1 < k ∧ P e = true) ∧
      ∀ f ∈ m.entries, ¬ f.1 < k → P f = true → ¬ f.1 < e.1 := by
  have hfirst : ∀ {es : List (κ × ν)}, es.Pairwise (fun a b => a.1 < b.1) →
      (es.find? P = some e ↔ (e ∈ es ∧ P e = true) ∧ ∀ f ∈ es, P f = true → ¬ f.1 < e.1) := by
    intro es hs
    induction es with
    | nil => simp
    | cons f es ih =>
        obtain ⟨hlt, hs'⟩ := List.pairwise_cons.mp hs
        by_cases hf : P f = true
        · rw [List.find?_cons_of_pos hf]
          constructor
          · intro hfe
            cases Option.some.inj hfe
            refine ⟨⟨List.mem_cons_self, hf⟩, fun g hg _ => ?_⟩
            rcases List.mem_cons.mp hg with rfl | hg
            · exact lt_irrefl _
            · exact lt_asymm (hlt g hg)
          · rintro ⟨⟨he, _⟩, hmin⟩
            rcases List.mem_cons.mp he with rfl | he
            · rfl
            · exact absurd (hlt e he) (hmin f List.mem_cons_self hf)
        · rw [List.find?_cons_of_neg hf, ih hs']
          constructor
          · rintro ⟨⟨he, hP⟩, hmin⟩
            refine ⟨⟨List.mem_cons_of_mem f he, hP⟩, fun g hg hPg => ?_⟩
            rcases List.mem_cons.mp hg with rfl | hg
            · exact absurd hPg hf
            · exact hmin g hg hPg
          · rintro ⟨⟨he, hP⟩, hmin⟩
            rcases List.mem_cons.mp he with rfl | he
            · exact absurd hP hf
            · exact ⟨⟨he, hP⟩, fun g hg => hmin g (List.mem_cons_of_mem f hg)⟩
  rw [seek, dropWhile_eq_filter m.sorted, hfirst (m.sorted.filter _)]
  simp only [List.mem_filter, decide_eq_true_eq, and_assoc, and_imp]

end SortedMap
