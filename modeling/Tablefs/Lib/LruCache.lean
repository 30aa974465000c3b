/-
A reference-counted LRU cache with sharded capacity.

An entry is known by a number that is never given out twice, so an entry that
has been freed cannot be confused with a later one. The table and the recency
list of such a cache hold the same entries, so one list, oldest first, stands
for both. The table's own reference is "the entry is in that list"; `pins`
counts the references callers hold. An entry lives as long as either is left,
and every operation that may drop the last reference returns the entries it
freed, in the order their deleters run.

Capacity is per shard and counts live entries, pinned ones included: an insert
into a full shard drops the oldest entries of the shard from the table, pinned
or not, until the count fits or the table has none left. That is why a pinned
entry can stay alive after a second entry took its key.
-/
import Mathlib.Logic.Function.Basic
import Mathlib.Data.List.Nodup
import Mathlib.Data.List.Perm.Basic

set_option autoImplicit false

/-- The cache. No two entries of the table have one key, every entry in it has
been allocated, and nothing unallocated is pinned. -/
structure LruCache (κ β : Type*) where
  /-- `LRUHandle::key_data` -/
  key : ℕ → κ
  /-- `LRUHandle::value` -/
  val : ℕ → β
  /-- references held by callers -/
  pins : ℕ → ℕ
  /-- the table's entries, oldest first -/
  lru : List ℕ
  /-- the next entry to be allocated -/
  next : ℕ
  lt_next : ∀ i ∈ lru, i < next
  pins_fresh : ∀ i, next ≤ i → pins i = 0
  nodup : (lru.map key).Nodup

namespace LruCache

variable {κ β : Type*}

/-- The cache without entries. -/
def empty [Inhabited κ] [Inhabited β] : LruCache κ β where
  key := fun _ => default
  val := fun _ => default
  pins := fun _ => 0
  lru := []
  next := 0
  lt_next := by simp
  pins_fresh := fun _ _ => rfl
  nodup := List.nodup_nil

/-- `LRUHandle::refs`: the callers' references and the table's one. -/
def refs (c : LruCache κ β) (i : ℕ) : ℕ := c.pins i + if i ∈ c.lru then 1 else 0

/-- The entry has not been freed. -/
def Live (c : LruCache κ β) (i : ℕ) : Prop := i ∈ c.lru ∨ 0 < c.pins i

instance (c : LruCache κ β) (i : ℕ) : Decidable (c.Live i) := inferInstanceAs (Decidable (_ ∨ _))

theorem live_lt_next {c : LruCache κ β} {i : ℕ} (h : c.Live i) : i < c.next := by
  rcases h with h | h
  · exact c.lt_next i h
  · by_contra hn
    have := c.pins_fresh i (by omega)
    omega

/-! ## Mutating an entry in place -/

/-- The value object of entry `i` is changed through a pointer. -/
def setVal (c : LruCache κ β) (i : ℕ) (v : β) : LruCache κ β :=
  { c with val := Function.update c.val i v }

@[simp] theorem setVal_key (c : LruCache κ β) (i : ℕ) (v : β) : (c.setVal i v).key = c.key := rfl
@[simp] theorem setVal_pins (c : LruCache κ β) (i : ℕ) (v : β) :
    (c.setVal i v).pins = c.pins := rfl
@[simp] theorem setVal_lru (c : LruCache κ β) (i : ℕ) (v : β) : (c.setVal i v).lru = c.lru := rfl
@[simp] theorem setVal_next (c : LruCache κ β) (i : ℕ) (v : β) :
    (c.setVal i v).next = c.next := rfl
@[simp] theorem setVal_val (c : LruCache κ β) (i : ℕ) (v : β) :
    (c.setVal i v).val = Function.update c.val i v := rfl
@[simp] theorem setVal_live (c : LruCache κ β) (i j : ℕ) (v : β) :
    (c.setVal i v).Live j ↔ c.Live j := Iff.rfl

/-! ## Lookup -/

/-- `HandleTable::Lookup` -/
def find [DecidableEq κ] (c : LruCache κ β) (k : κ) : Option ℕ :=
  c.lru.find? fun i => c.key i = k

theorem mem_of_find [DecidableEq κ] {c : LruCache κ β} {k : κ} {i : ℕ} (h : c.find k = some i) :
    i ∈ c.lru :=
  List.mem_of_find?_eq_some h

theorem key_of_find [DecidableEq κ] {c : LruCache κ β} {k : κ} {i : ℕ} (h : c.find k = some i) :
    c.key i = k := by
  simpa using List.find?_some h

/-- Entries of the table with one key are one entry. -/
theorem eq_of_key {c : LruCache κ β} {i j : ℕ} (hi : i ∈ c.lru) (hj : j ∈ c.lru)
    (h : c.key i = c.key j) : i = j :=
  List.inj_on_of_nodup_map c.nodup hi hj h

theorem find_eq_some_iff [DecidableEq κ] {c : LruCache κ β} {k : κ} {i : ℕ} :
    c.find k = some i ↔ i ∈ c.lru ∧ c.key i = k := by
  refine ⟨fun h => ⟨mem_of_find h, key_of_find h⟩, fun ⟨hi, hk⟩ => ?_⟩
  cases hf : c.find k with
  | none =>
      have := List.find?_eq_none.mp hf i hi
      simp [hk] at this
  | some j =>
      rw [eq_of_key (mem_of_find hf) hi (by rw [key_of_find hf, hk])]

theorem find_eq_none_iff [DecidableEq κ] {c : LruCache κ β} {k : κ} :
    c.find k = none ↔ ∀ i ∈ c.lru, c.key i ≠ k := by
  rw [find, List.find?_eq_none]
  simp

/-- What `Lookup` does to an entry it found: one more reference, and the entry
becomes the newest. -/
def touch (c : LruCache κ β) (i : ℕ) (hi : i ∈ c.lru) : LruCache κ β where
  key := c.key
  val := c.val
  pins := Function.update c.pins i (c.pins i + 1)
  lru := c.lru.filter (· ≠ i) ++ [i]
  next := c.next
  lt_next := by
    intro j hj
    rcases List.mem_append.mp hj with h | h
    · exact c.lt_next j (List.mem_filter.mp h).1
    · rw [List.mem_singleton.mp h]; exact c.lt_next i hi
  pins_fresh := by
    intro j hj
    have hij : j ≠ i := by have := c.lt_next i hi; omega
    rw [Function.update_of_ne hij]; exact c.pins_fresh j hj
  nodup := by
    rw [List.map_append, List.map_singleton]
    refine List.Nodup.append (c.nodup.sublist (List.filter_sublist.map _))
      (List.nodup_singleton _) ?_
    intro k hk hki
    obtain ⟨j, hj, rfl⟩ := List.mem_map.mp hk
    rw [List.mem_filter] at hj
    have : j = i := eq_of_key hj.1 hi (List.mem_singleton.mp hki)
    simp [this] at hj

@[simp] theorem mem_touch_lru {c : LruCache κ β} {i j : ℕ} {hi : i ∈ c.lru} :
    j ∈ (c.touch i hi).lru ↔ j ∈ c.lru := by
  simp only [touch, List.mem_append, List.mem_filter, List.mem_singleton, decide_eq_true_eq]
  refine ⟨fun h => h.elim And.left (fun h => h ▸ hi), fun h => ?_⟩
  by_cases hij : j = i
  · exact Or.inr hij
  · exact Or.inl ⟨h, hij⟩

theorem touch_live {c : LruCache κ β} {i j : ℕ} {hi : i ∈ c.lru} :
    (c.touch i hi).Live j ↔ c.Live j := by
  rw [Live, mem_touch_lru, Live]
  by_cases hij : j = i
  · subst hij; exact ⟨fun _ => Or.inl hi, fun _ => Or.inl hi⟩
  · simp only [touch, Function.update_of_ne hij]

/-! ## Dropping references -/

/-- `LRU_Remove` and `HandleTable::Remove` of one entry: the table gives up its
reference. -/
def unlink (c : LruCache κ β) (i : ℕ) : LruCache κ β where
  key := c.key
  val := c.val
  pins := c.pins
  lru := c.lru.filter (· ≠ i)
  next := c.next
  lt_next := fun j hj => c.lt_next j (List.mem_filter.mp hj).1
  pins_fresh := c.pins_fresh
  nodup := c.nodup.sublist (List.filter_sublist.map _)

@[simp] theorem mem_unlink_lru {c : LruCache κ β} {i j : ℕ} :
    j ∈ (c.unlink i).lru ↔ j ∈ c.lru ∧ j ≠ i := by
  simp [unlink]

/-- What dropping the table's reference to `i` frees. -/
def freedBy (c : LruCache κ β) (i : ℕ) : List ℕ := if c.pins i = 0 then [i] else []

/-- `Release`: a caller gives up one reference. -/
def release (c : LruCache κ β) (i : ℕ) : LruCache κ β × List ℕ :=
  ({ c with
      pins := Function.update c.pins i (c.pins i - 1)
      pins_fresh := by
        intro j hj
        by_cases hij : j = i
        · rw [hij, Function.update_self, ← hij, c.pins_fresh j hj]
        · rw [Function.update_of_ne hij]; exact c.pins_fresh j hj },
   if c.pins i = 1 ∧ i ∉ c.lru then [i] else [])

/-- `Erase`: the table gives up the entry under `k`. -/
def erase [DecidableEq κ] (c : LruCache κ β) (k : κ) : LruCache κ β × List ℕ :=
  match c.find k with
  | some i => (c.unlink i, c.freedBy i)
  | none => (c, [])

/-! ## Insert -/

/-- Live entries of shard `s`: `usage_`, every charge being one. -/
def usage {σ : Type*} [DecidableEq σ] (shard : κ → σ) (c : LruCache κ β) (s : σ) : ℕ :=
  (List.range c.next).countP fun i => c.Live i ∧ shard (c.key i) = s

/-- The eviction loop of `Insert`, over the shard's entries, oldest first. -/
def evictOver {σ : Type*} [DecidableEq σ] (shard : κ → σ) (capacity : ℕ) (s : σ) :
    List ℕ → LruCache κ β → LruCache κ β × List ℕ
  | [], c => (c, [])
  | i :: is, c =>
      if capacity < c.usage shard s then
        let r := evictOver shard capacity s is (c.unlink i)
        (r.1, c.freedBy i ++ r.2)
      else (c, [])

/-- The new entry, pinned once for the caller, in the place of the old entry
under its key. -/
def alloc [DecidableEq κ] (c : LruCache κ β) (k : κ) (v : β) : LruCache κ β where
  key := Function.update c.key c.next k
  val := Function.update c.val c.next v
  pins := Function.update c.pins c.next 1
  lru := c.lru.filter (fun i => c.key i ≠ k) ++ [c.next]
  next := c.next + 1
  lt_next := by
    intro j hj
    rcases List.mem_append.mp hj with h | h
    · have := c.lt_next j (List.mem_filter.mp h).1
      omega
    · rw [List.mem_singleton.mp h]; omega
  pins_fresh := by
    intro j hj
    rw [Function.update_of_ne (by omega)]
    exact c.pins_fresh j (by omega)
  nodup := by
    have hkeys : ∀ j ∈ c.lru.filter (fun i => c.key i ≠ k),
        Function.update c.key c.next k j = c.key j := fun j hj => by
      have := c.lt_next j (List.mem_filter.mp hj).1
      rw [Function.update_of_ne (by omega)]
    rw [List.map_append, List.map_congr_left hkeys, List.map_singleton, Function.update_self]
    refine List.Nodup.append (c.nodup.sublist (List.filter_sublist.map _))
      (List.nodup_singleton _) ?_
    intro k' hk' hkk
    obtain ⟨j, hj, rfl⟩ := List.mem_map.mp hk'
    simp [List.mem_singleton.mp hkk] at hj

/-- `Insert`: the displaced entry loses the table's reference, then the shard is
brought back under its capacity. Returns the freed entries; the new entry is
`c.next`. -/
def insert {σ : Type*} [DecidableEq κ] [DecidableEq σ] (shard : κ → σ) (capacity : ℕ)
    (c : LruCache κ β) (k : κ) (v : β) : LruCache κ β × List ℕ :=
  let c1 := c.alloc k v
  let r := evictOver shard capacity (shard k)
    (c1.lru.filter fun i => shard (c1.key i) = shard k) c1
  (r.1, (c.lru.filter fun i => c.key i = k ∧ c.pins i = 0) ++ r.2)

/-! ## What the operations leave behind

Callers reason about the cache through the two relations below and never unfold
the eviction loop. -/

/-- `c'` is `c` after the table gave up some entries, and `freed` lists exactly
the unpinned ones among them. -/
structure Dropped (c c' : LruCache κ β) (freed : List ℕ) : Prop where
  key : c'.key = c.key
  val : c'.val = c.val
  pins : c'.pins = c.pins
  next : c'.next = c.next
  lru : ∀ j ∈ c'.lru, j ∈ c.lru
  freed : ∀ j, j ∈ freed ↔ j ∈ c.lru ∧ j ∉ c'.lru ∧ c.pins j = 0

theorem Dropped.refl (c : LruCache κ β) : Dropped c c [] :=
  ⟨rfl, rfl, rfl, rfl, fun _ h => h,
    fun _ => ⟨fun h => absurd h List.not_mem_nil, fun ⟨h, hn, _⟩ => absurd h hn⟩⟩

theorem Dropped.trans {c c' c'' : LruCache κ β} {fs gs : List ℕ} (h : Dropped c c' fs)
    (h' : Dropped c' c'' gs) : Dropped c c'' (fs ++ gs) where
  key := h'.key.trans h.key
  val := h'.val.trans h.val
  pins := h'.pins.trans h.pins
  next := h'.next.trans h.next
  lru := fun j hj => h.lru j (h'.lru j hj)
  freed := by
    intro j
    rw [List.mem_append, h.freed, h'.freed, h.pins]
    have h1 := h.lru j
    have h2 := h'.lru j
    tauto

theorem unlink_dropped {c : LruCache κ β} {i : ℕ} (hi : i ∈ c.lru) :
    Dropped c (c.unlink i) (c.freedBy i) where
  key := rfl
  val := rfl
  pins := rfl
  next := rfl
  lru := fun j hj => (mem_unlink_lru.mp hj).1
  freed := by
    intro j
    rw [mem_unlink_lru, freedBy]
    split
    · rename_i hp
      rw [List.mem_singleton]
      refine ⟨fun h => by subst h; exact ⟨hi, by simp, hp⟩, fun ⟨hj, hn, _⟩ => ?_⟩
      by_contra hij
      exact hn ⟨hj, hij⟩
    · rename_i hp
      refine ⟨fun h => absurd h List.not_mem_nil, fun ⟨hj, hn, hpj⟩ => ?_⟩
      by_cases hij : j = i
      · subst hij; exact absurd hpj hp
      · exact absurd ⟨hj, hij⟩ hn

theorem erase_dropped [DecidableEq κ] (c : LruCache κ β) (k : κ) :
    Dropped c (c.erase k).1 (c.erase k).2 := by
  rw [erase]
  cases hf : c.find k with
  | none => exact Dropped.refl c
  | some i => exact unlink_dropped (mem_of_find hf)

theorem evictOver_dropped {σ : Type*} [DecidableEq σ] (shard : κ → σ) (capacity : ℕ) (s : σ)
    (is : List ℕ) (c : LruCache κ β) (hsub : ∀ i ∈ is, i ∈ c.lru) (hnd : is.Nodup) :
    Dropped c (evictOver shard capacity s is c).1 (evictOver shard capacity s is c).2 := by
  induction is generalizing c with
  | nil => exact Dropped.refl c
  | cons i is ih =>
      obtain ⟨hni, hnd'⟩ := List.nodup_cons.mp hnd
      rw [evictOver]
      split
      · refine (unlink_dropped (hsub i List.mem_cons_self)).trans (ih _ (fun j hj => ?_) hnd')
        exact mem_unlink_lru.mpr ⟨hsub j (List.mem_cons_of_mem i hj), fun h => hni (h ▸ hj)⟩
      · exact Dropped.refl c

theorem find_erase_self [DecidableEq κ] (c : LruCache κ β) (k : κ) :
    (c.erase k).1.find k = none := by
  rw [erase]
  cases hf : c.find k with
  | none => exact hf
  | some i =>
      refine find_eq_none_iff.mpr fun j hj hk => ?_
      obtain ⟨hj, hne⟩ := mem_unlink_lru.mp hj
      exact hne (eq_of_key hj (mem_of_find hf) (by rw [key_of_find hf]; exact hk))

theorem mem_erase_lru_of_ne [DecidableEq κ] {c : LruCache κ β} {k : κ} {j : ℕ}
    (hk : c.key j ≠ k) : j ∈ (c.erase k).1.lru ↔ j ∈ c.lru := by
  rw [erase]
  cases hf : c.find k with
  | none => exact Iff.rfl
  | some i =>
      refine mem_unlink_lru.trans ⟨And.left, fun hj => ⟨hj, fun hji => hk ?_⟩⟩
      rw [hji, key_of_find hf]

/-- `c'` is `c` after the entry `c.next` was put under `k`. -/
structure Inserted (c : LruCache κ β) (k : κ) (v : β) (c' : LruCache κ β)
    (freed : List ℕ) : Prop where
  key : c'.key = Function.update c.key c.next k
  val : c'.val = Function.update c.val c.next v
  pins : c'.pins = Function.update c.pins c.next 1
  next : c'.next = c.next + 1
  lru : ∀ j ∈ c'.lru, j = c.next ∨ j ∈ c.lru ∧ c.key j ≠ k
  freed : ∀ j, j ∈ freed ↔ j ∈ c.lru ∧ j ∉ c'.lru ∧ c.pins j = 0

theorem mem_alloc_lru [DecidableEq κ] {c : LruCache κ β} {k : κ} {v : β} {j : ℕ} :
    j ∈ (c.alloc k v).lru ↔ j = c.next ∨ j ∈ c.lru ∧ c.key j ≠ k := by
  simp only [alloc, List.mem_append, List.mem_filter, List.mem_singleton, decide_eq_true_eq,
    or_comm]

theorem lru_nodup (c : LruCache κ β) : c.lru.Nodup := List.Nodup.of_map _ c.nodup

theorem insert_inserted {σ : Type*} [DecidableEq κ] [DecidableEq σ] (shard : κ → σ)
    (capacity : ℕ) (c : LruCache κ β) (k : κ) (v : β) :
    Inserted c k v (c.insert shard capacity k v).1 (c.insert shard capacity k v).2 := by
  have hd := evictOver_dropped shard capacity (shard k)
    ((c.alloc k v).lru.filter fun i => shard ((c.alloc k v).key i) = shard k) (c.alloc k v)
    (fun i hi => (List.mem_filter.mp hi).1) ((lru_nodup _).filter _)
  refine ⟨hd.key, hd.val, hd.pins, hd.next, fun j hj => mem_alloc_lru.mp (hd.lru j hj), ?_⟩
  intro j
  have hnext : c.next ∉ c.lru := fun h => absurd (c.lt_next _ h) (Nat.lt_irrefl _)
  rw [insert, List.mem_append, hd.freed j, mem_alloc_lru]
  simp only [List.mem_filter, decide_eq_true_eq, Bool.decide_and, Bool.and_eq_true]
  by_cases hjn : j = c.next
  · subst hjn
    simp [hnext, alloc]
  · have hpins : (c.alloc k v).pins j = c.pins j := Function.update_of_ne hjn _ _
    rw [hpins]
    constructor
    · rintro (⟨hj, hk, hp⟩ | ⟨hj, hn, hp⟩)
      · refine ⟨hj, fun hmem => ?_, hp⟩
        rcases mem_alloc_lru.mp (hd.lru j hmem) with h | ⟨_, h⟩
        · exact hjn h
        · exact h hk
      · exact ⟨(hj.resolve_left hjn).1, hn, hp⟩
    · rintro ⟨hj, hn, hp⟩
      by_cases hk : c.key j = k
      · exact Or.inl ⟨hj, hk, hp⟩
      · exact Or.inr ⟨Or.inr ⟨hj, hk⟩, hn, hp⟩

/-! ## The new entry keeps its place

With no entry pinned, every live entry is in the table, so the loop stops at
the latest when only the new entry is left. -/

/-- When every live entry is in the table, a shard's usage is the number of its
table entries. -/
theorem usage_eq_length {σ : Type*} [DecidableEq σ] (shard : κ → σ) (c : LruCache κ β) (s : σ)
    (hlive : ∀ j, shard (c.key j) = s → (c.Live j ↔ j ∈ c.lru)) :
    c.usage shard s = (c.lru.filter fun i => shard (c.key i) = s).length := by
  rw [usage, List.countP_eq_length_filter]
  refine List.Perm.length_eq ((List.perm_ext_iff_of_nodup
    (List.nodup_range.filter _) ((lru_nodup c).filter _)).mpr fun j => ?_)
  simp only [List.mem_filter, List.mem_range, decide_eq_true_eq]
  constructor
  · rintro ⟨_, hj, hs⟩
    exact ⟨(hlive j hs).mp hj, hs⟩
  · rintro ⟨hj, hs⟩
    exact ⟨c.lt_next j hj, Or.inl hj, hs⟩

theorem evictOver_keeps_last {σ : Type*} [DecidableEq σ] (shard : κ → σ) (capacity : ℕ) (s : σ)
    (hcap : 0 < capacity) (is : List ℕ) (n : ℕ) (c : LruCache κ β)
    (hlist : c.lru.filter (fun i => shard (c.key i) = s) = is ++ [n])
    (hlive : ∀ j, shard (c.key j) = s → (c.Live j ↔ j ∈ c.lru)) (hpin : ∀ j ∈ is, c.pins j = 0) :
    n ∈ (evictOver shard capacity s (is ++ [n]) c).1.lru := by
  induction is generalizing c with
  | nil =>
      have hn : n ∈ c.lru := by
        have : n ∈ c.lru.filter fun i => shard (c.key i) = s := by rw [hlist]; simp
        exact (List.mem_filter.mp this).1
      have husage : c.usage shard s = 1 := by rw [usage_eq_length shard c s hlive, hlist]; rfl
      rw [List.nil_append, evictOver, if_neg (by omega)]
      exact hn
  | cons i is ih =>
      have hmem : ∀ j ∈ i :: is ++ [n], j ∈ c.lru := fun j hj => by
        rw [← hlist] at hj; exact (List.mem_filter.mp hj).1
      have hnd : (i :: is ++ [n]).Nodup := hlist ▸ (lru_nodup c).filter _
      rw [List.cons_append] at hnd hmem ⊢
      obtain ⟨hni, hnd'⟩ := List.nodup_cons.mp hnd
      rw [evictOver]
      split
      · refine ih (c.unlink i) ?_ ?_ (fun j hj => hpin j (List.mem_cons_of_mem i hj))
        · -- the rest of the shard's list is what unlinking its head leaves
          have hcomm : (c.unlink i).lru.filter (fun j => shard ((c.unlink i).key j) = s)
              = (c.lru.filter fun j => shard (c.key j) = s).filter (· ≠ i) := by
            simp only [unlink, List.filter_filter, Bool.and_comm]
            rfl
          rw [hcomm, hlist, List.cons_append, List.filter_cons_of_neg (by simp),
            List.filter_eq_self.mpr]
          intro j hj
          simpa using fun h : j = i => hni (h ▸ hj)
        · intro j hs
          have hcl := hlive j hs
          rw [mem_unlink_lru]
          constructor
          · rintro (h | h)
            · exact mem_unlink_lru.mp h
            · refine ⟨hcl.mp (Or.inr h), fun hji => ?_⟩
              have := hpin i List.mem_cons_self
              rw [hji] at h
              exact absurd h (by simp [unlink, this])
          · exact fun h => Or.inl (mem_unlink_lru.mpr h)
      · exact hmem n (by simp)

/-- With nothing pinned in the shard of `k`, an inserted entry is in the table
afterwards. -/
theorem next_mem_insert {σ : Type*} [DecidableEq κ] [DecidableEq σ] (shard : κ → σ)
    (capacity : ℕ) (hcap : 0 < capacity) (c : LruCache κ β) (k : κ) (v : β)
    (hpin : ∀ j, c.pins j = 0) : c.next ∈ (c.insert shard capacity k v).1.lru := by
  have hkey : ∀ j ∈ c.lru, Function.update c.key c.next k j = c.key j := fun j hj => by
    have := c.lt_next j hj
    rw [Function.update_of_ne (by omega)]
  have hlist : (c.alloc k v).lru.filter (fun i => shard ((c.alloc k v).key i) = shard k)
      = (c.lru.filter fun i => c.key i ≠ k).filter
          (fun i => shard ((c.alloc k v).key i) = shard k) ++ [c.next] := by
    simp [alloc, List.filter_append]
  rw [insert]
  dsimp only
  rw [hlist]
  refine evictOver_keeps_last shard capacity (shard k) hcap _ c.next (c.alloc k v) hlist ?_ ?_
  · intro j _
    refine ⟨fun h => h.elim id fun hp => ?_, Or.inl⟩
    by_cases hjn : j = c.next
    · rw [hjn, mem_alloc_lru]; exact Or.inl rfl
    · rw [show (c.alloc k v).pins j = c.pins j from Function.update_of_ne hjn _ _, hpin j] at hp
      omega
  · intro j hj
    have hj' := (List.mem_filter.mp (List.mem_filter.mp hj).1).1
    have := c.lt_next j hj'
    rw [show (c.alloc k v).pins j = c.pins j from Function.update_of_ne (by omega) _ _, hpin j]

end LruCache
