/-
`DentryCache` (`dcache.cpp`): the bounded cache from keys to inode numbers that
`ParentPathLookup` walks paths with.

The source keeps a `std::list` of entries, newest first, and an `unordered_map`
from keys to iterators into it. A list node is known here by a number that is
never given out twice, so an iterator is the number of its node. `Evict` drops
only the map's entry and leaves the node behind, and `Insert` of a key whose
node was left behind adds a second node; the fields of the structure are what
survives of the list and the map agreeing: an iterator points to a node of the
list that carries the iterator's own key.
-/
import Tablefs.Hash
import Mathlib.Data.List.Nodup

set_option autoImplicit false

namespace Tablefs

/-- A node of the list: its number, its key and its inode number. -/
structure DentryNode where
  id : ℕ
  key : MetaKey
  inode : UInt64
  deriving DecidableEq, Repr

/-- `DentryCache` -/
structure DentryCache where
  maxsize : ℕ
  /-- the list, newest node first -/
  cache : List DentryNode
  /-- the map from keys to nodes -/
  lookup : List (MetaKey × ℕ)
  nextNode : ℕ
  ids_nodup : (cache.map DentryNode.id).Nodup
  ids_lt : ∀ e ∈ cache, e.id < nextNode
  keys_nodup : (lookup.map Prod.fst).Nodup
  points : ∀ p ∈ lookup, ∃ e ∈ cache, e.id = p.2 ∧ e.key = p.1
  bounded : cache.length ≤ maxsize

namespace DentryCache

/-- `DentryCache(size)` -/
def empty (maxsize : ℕ) : DentryCache where
  maxsize := maxsize
  cache := []
  lookup := []
  nextNode := 0
  ids_nodup := List.nodup_nil
  ids_lt := by simp
  keys_nodup := List.nodup_nil
  points := by simp
  bounded := Nat.zero_le _

/-- `lookup.find(key)` -/
def iter (c : DentryCache) (key : MetaKey) : Option ℕ :=
  (c.lookup.find? fun p => p.1 = key).map Prod.snd

/-- The node an iterator points to. -/
def node (c : DentryCache) (n : ℕ) : Option DentryNode := c.cache.find? fun e => e.id = n

/-- The inode number `Find(key)` would return. -/
def peek (c : DentryCache) (key : MetaKey) : Option UInt64 :=
  ((c.iter key).bind c.node).map DentryNode.inode

theorem mem_of_iter {c : DentryCache} {key : MetaKey} {n : ℕ} (h : c.iter key = some n) :
    (key, n) ∈ c.lookup := by
  rw [iter, Option.map_eq_some_iff] at h
  obtain ⟨⟨k, m⟩, hf, rfl⟩ := h
  have hk : k = key := by simpa using List.find?_some hf
  rw [← hk]; exact List.mem_of_find?_eq_some hf

theorem iter_eq_some_iff {c : DentryCache} {key : MetaKey} {n : ℕ} :
    c.iter key = some n ↔ (key, n) ∈ c.lookup := by
  refine ⟨mem_of_iter, fun h => ?_⟩
  cases hi : c.iter key with
  | none =>
      rw [iter, Option.map_eq_none_iff, List.find?_eq_none] at hi
      exact absurd (decide_eq_true rfl) (hi _ h)
  | some m =>
      have := List.inj_on_of_nodup_map c.keys_nodup (mem_of_iter hi) h rfl
      rw [(Prod.mk.injEq _ _ _ _ ▸ this : key = key ∧ m = n).2]

theorem node_eq_some_iff {c : DentryCache} {n : ℕ} {e : DentryNode} :
    c.node n = some e ↔ e ∈ c.cache ∧ e.id = n := by
  constructor
  · intro h
    exact ⟨List.mem_of_find?_eq_some h, by simpa using List.find?_some h⟩
  · rintro ⟨he, rfl⟩
    cases hn : c.node e.id with
    | none =>
        rw [node, List.find?_eq_none] at hn
        exact absurd (decide_eq_true rfl) (hn _ he)
    | some e' =>
        have hid : e'.id = e.id := by simpa using List.find?_some hn
        rw [List.inj_on_of_nodup_map c.ids_nodup (List.mem_of_find?_eq_some hn) he hid]

/-- What the cache can return is in a node the key's iterator points to. -/
theorem peek_eq_some_iff {c : DentryCache} {key : MetaKey} {i : UInt64} :
    c.peek key = some i ↔ ∃ e ∈ c.cache, (key, e.id) ∈ c.lookup ∧ e.inode = i := by
  simp only [peek, Option.map_eq_some_iff, Option.bind_eq_some_iff, iter_eq_some_iff,
    node_eq_some_iff]
  constructor
  · rintro ⟨e, ⟨n, hn, he, rfl⟩, hi⟩
    exact ⟨e, he, hn, hi⟩
  · rintro ⟨e, he, hl, hi⟩
    exact ⟨e, ⟨e.id, hl, he, rfl⟩, hi⟩

@[simp] theorem peek_empty (maxsize : ℕ) (key : MetaKey) : (empty maxsize).peek key = none := rfl

/-- `Find` on the key of node `e`: the entry moves to a new front node. -/
def bump (c : DentryCache) (e : DentryNode) (he : e ∈ c.cache) : DentryCache where
  maxsize := c.maxsize
  cache := { e with id := c.nextNode } :: c.cache.filter fun f => f.id ≠ e.id
  lookup := (e.key, c.nextNode) :: c.lookup.filter fun p => p.1 ≠ e.key
  nextNode := c.nextNode + 1
  ids_nodup := by
    rw [List.map_cons, List.nodup_cons]
    refine ⟨fun h => ?_, c.ids_nodup.sublist (List.filter_sublist.map _)⟩
    obtain ⟨f, hf, hid⟩ := List.mem_map.mp h
    have := c.ids_lt f (List.mem_filter.mp hf).1
    simp only at hid; omega
  ids_lt := by
    intro f hf
    rcases List.mem_cons.mp hf with rfl | hf
    · exact Nat.lt_succ_self _
    · exact Nat.lt_succ_of_lt (c.ids_lt f (List.mem_filter.mp hf).1)
  keys_nodup := by
    rw [List.map_cons, List.nodup_cons]
    refine ⟨fun h => ?_, c.keys_nodup.sublist (List.filter_sublist.map _)⟩
    obtain ⟨p, hp, hk⟩ := List.mem_map.mp h
    simp [hk] at hp
  points := by
    intro p hp
    rcases List.mem_cons.mp hp with rfl | hp
    · exact ⟨_, List.mem_cons_self, rfl, rfl⟩
    · rw [List.mem_filter, decide_eq_true_eq] at hp
      obtain ⟨f, hf, hid, hk⟩ := c.points p hp.1
      refine ⟨f, List.mem_cons_of_mem _ (List.mem_filter.mpr ⟨hf, ?_⟩), hid, hk⟩
      -- an iterator under another key is not into the erased node
      refine decide_eq_true fun hfe => hp.2 ?_
      rw [← hk, List.inj_on_of_nodup_map c.ids_nodup hf he hfe]
  bounded := by
    have hlt : (c.cache.filter fun f => f.id ≠ e.id).length < c.cache.length :=
      List.length_filter_lt_length_iff_exists.mpr ⟨e, he, by simp⟩
    have := c.bounded
    rw [List.length_cons]; omega

/-- `DentryCache::Find` -/
def find (c : DentryCache) (key : MetaKey) : DentryCache × Option UInt64 :=
  match c.iter key with
  | none => (c, none)
  | some n =>
      match h : c.node n with
      | none => (c, none) -- unreachable: `points`
      | some e => (c.bump e (node_eq_some_iff.mp h).1, some e.inode)

/-- `DentryCache::Evict` -/
def evict (c : DentryCache) (key : MetaKey) : DentryCache where
  maxsize := c.maxsize
  cache := c.cache
  lookup := c.lookup.filter fun p => p.1 ≠ key
  nextNode := c.nextNode
  ids_nodup := c.ids_nodup
  ids_lt := c.ids_lt
  keys_nodup := c.keys_nodup.sublist (List.filter_sublist.map _)
  points := fun p hp => c.points p (List.mem_filter.mp hp).1
  bounded := c.bounded

/-- The list and the map of `Insert` before its capacity test. -/
def pushed (c : DentryCache) (key : MetaKey) (value : UInt64) :
    List DentryNode × List (MetaKey × ℕ) :=
  (⟨c.nextNode, key, value⟩ :: c.cache,
   (key, c.nextNode) :: c.lookup.filter fun p => p.1 ≠ key)

theorem pushed_ne_nil (c : DentryCache) (key : MetaKey) (value : UInt64) :
    (c.pushed key value).1 ≠ [] := List.cons_ne_nil _ _

theorem pushed_ids_nodup (c : DentryCache) (key : MetaKey) (value : UInt64) :
    ((c.pushed key value).1.map DentryNode.id).Nodup := by
  rw [pushed, List.map_cons, List.nodup_cons]
  refine ⟨fun h => ?_, c.ids_nodup⟩
  obtain ⟨f, hf, hid⟩ := List.mem_map.mp h
  have := c.ids_lt f hf
  simp only at hid; omega

theorem pushed_ids_lt (c : DentryCache) (key : MetaKey) (value : UInt64) :
    ∀ e ∈ (c.pushed key value).1, e.id < c.nextNode + 1 := by
  intro e he
  rcases List.mem_cons.mp he with rfl | he
  · exact Nat.lt_succ_self _
  · exact Nat.lt_succ_of_lt (c.ids_lt e he)

theorem pushed_keys_nodup (c : DentryCache) (key : MetaKey) (value : UInt64) :
    ((c.pushed key value).2.map Prod.fst).Nodup := by
  rw [pushed, List.map_cons, List.nodup_cons]
  refine ⟨fun h => ?_, c.keys_nodup.sublist (List.filter_sublist.map _)⟩
  obtain ⟨p, hp, hk⟩ := List.mem_map.mp h
  simp [hk] at hp

theorem pushed_points (c : DentryCache) (key : MetaKey) (value : UInt64) :
    ∀ p ∈ (c.pushed key value).2,
      ∃ e ∈ (c.pushed key value).1, e.id = p.2 ∧ e.key = p.1 := by
  intro p hp
  rcases List.mem_cons.mp hp with rfl | hp
  · exact ⟨_, List.mem_cons_self, rfl, rfl⟩
  · obtain ⟨e, he, h⟩ := c.points p (List.mem_filter.mp hp).1
    exact ⟨e, List.mem_cons_of_mem _ he, h⟩

/-- `DentryCache::Insert`: past `maxsize` nodes the oldest one goes, and with it
whatever the map holds under its key. -/
def insert (c : DentryCache) (key : MetaKey) (value : UInt64) : DentryCache :=
  if h : (c.pushed key value).1.length ≤ c.maxsize then
    { maxsize := c.maxsize
      cache := (c.pushed key value).1
      lookup := (c.pushed key value).2
      nextNode := c.nextNode + 1
      ids_nodup := c.pushed_ids_nodup key value
      ids_lt := c.pushed_ids_lt key value
      keys_nodup := c.pushed_keys_nodup key value
      points := c.pushed_points key value
      bounded := h }
  else
    let back := (c.pushed key value).1.getLast (c.pushed_ne_nil key value)
    { maxsize := c.maxsize
      cache := (c.pushed key value).1.dropLast
      lookup := (c.pushed key value).2.filter fun p => p.1 ≠ back.key
      nextNode := c.nextNode + 1
      ids_nodup := (c.pushed_ids_nodup key value).sublist ((List.dropLast_sublist _).map _)
      ids_lt := fun e he => c.pushed_ids_lt key value e ((List.dropLast_sublist _).subset he)
      keys_nodup := (c.pushed_keys_nodup key value).sublist (List.filter_sublist.map _)
      points := by
        intro p hp
        rw [List.mem_filter] at hp
        obtain ⟨e, he, hid, hk⟩ := c.pushed_points key value p hp.1
        refine ⟨e, ?_, hid, hk⟩
        -- a node other than the last one survives `pop_back`
        rw [← List.dropLast_append_getLast (c.pushed_ne_nil key value), List.mem_append, List.mem_singleton] at he
        refine he.resolve_right fun hlast => ?_
        rw [decide_eq_true_eq] at hp
        exact hp.2 (by rw [← hk, hlast])
      bounded := by
        have := c.bounded
        rw [List.length_dropLast, pushed, List.length_cons]; omega }

/-! ## What the operations do to the answers -/

theorem find_snd (c : DentryCache) (key : MetaKey) : (c.find key).2 = c.peek key := by
  unfold find peek
  cases hi : c.iter key with
  | none => rfl
  | some n =>
      simp only [Option.bind_some]
      split
      · rename_i h; rw [h]; rfl
      · rename_i e h
        show some e.inode = Option.map _ _
        rw [h]; rfl

theorem peek_bump (c : DentryCache) (e : DentryNode) (he : e ∈ c.cache)
    (hl : (e.key, e.id) ∈ c.lookup) (key : MetaKey) : (c.bump e he).peek key = c.peek key := by
  have hiff : ∀ i, (c.bump e he).peek key = some i ↔ c.peek key = some i := by
    intro i
    rw [peek_eq_some_iff, peek_eq_some_iff]
    by_cases hk : key = e.key
    · subst hk
      have huniq : ∀ n, (e.key, n) ∈ c.lookup → n = e.id := fun n hn =>
        congrArg Prod.snd (List.inj_on_of_nodup_map c.keys_nodup hn hl rfl)
      constructor
      · rintro ⟨f, hf, hfl, rfl⟩
        simp only [bump, List.mem_cons, List.mem_filter, Prod.mk.injEq] at hf hfl
        rcases hf with rfl | ⟨hf, _⟩
        · exact ⟨e, he, hl, rfl⟩
        · rcases hfl with ⟨-, hid⟩ | ⟨-, hne⟩
          · have := c.ids_lt f hf; omega
          · simp at hne
      · rintro ⟨f, hf, hfl, rfl⟩
        have hfe : f = e := List.inj_on_of_nodup_map c.ids_nodup hf he (huniq _ hfl)
        subst hfe
        exact ⟨_, List.mem_cons_self, List.mem_cons_self, rfl⟩
    · constructor
      · rintro ⟨f, hf, hfl, rfl⟩
        simp only [bump, List.mem_cons, List.mem_filter, Prod.mk.injEq, hk, false_and,
          false_or, ne_eq, decide_eq_true_eq] at hf hfl
        rcases hf with rfl | ⟨hf, _⟩
        · obtain ⟨g, hg, hid, _⟩ := c.points _ hfl.1
          have := c.ids_lt g hg
          simp only at hid; omega
        · exact ⟨f, hf, hfl.1, rfl⟩
      · rintro ⟨f, hf, hfl, rfl⟩
        have hne : f.id ≠ e.id := by
          intro hid
          have hfe : f = e := List.inj_on_of_nodup_map c.ids_nodup hf he hid
          obtain ⟨g, hg, hgid, hgk⟩ := c.points _ hfl
          have : g = f := List.inj_on_of_nodup_map c.ids_nodup hg hf hgid
          exact hk (by rw [← hfe, ← this]; exact hgk.symm)
        refine ⟨f, List.mem_cons_of_mem _ (List.mem_filter.mpr ⟨hf, by simpa using hne⟩),
          List.mem_cons_of_mem _ (List.mem_filter.mpr ⟨hfl, by simpa using hk⟩), rfl⟩
  cases hp : c.peek key with
  | none =>
      cases hb : (c.bump e he).peek key with
      | none => rfl
      | some i => rw [(hiff i).mp hb] at hp; exact absurd hp (by simp)
  | some i => exact (hiff i).mpr hp

/-- `Find` moves nodes around and changes no answer. -/
theorem peek_find (c : DentryCache) (key key' : MetaKey) :
    (c.find key).1.peek key' = c.peek key' := by
  unfold find
  cases hi : c.iter key with
  | none => rfl
  | some n =>
      simp only
      split
      · rfl
      · rename_i e h
        obtain ⟨he, hid⟩ := node_eq_some_iff.mp h
        have hl := mem_of_iter hi
        obtain ⟨f, hf, hfid, hfk⟩ := c.points _ hl
        have hfe : f = e := List.inj_on_of_nodup_map c.ids_nodup hf he (by rw [hid]; exact hfid)
        refine peek_bump c e he ?_ key'
        rw [← hfe, hfk, hfid]; exact hl

@[simp] theorem peek_evict_self (c : DentryCache) (key : MetaKey) :
    (c.evict key).peek key = none := by
  cases h : (c.evict key).peek key with
  | none => rfl
  | some i =>
      obtain ⟨e, _, hl, _⟩ := peek_eq_some_iff.mp h
      simp [evict] at hl

theorem peek_evict_of_ne (c : DentryCache) {key key' : MetaKey} (h : key' ≠ key) :
    (c.evict key).peek key' = c.peek key' := by
  have hiff : ∀ i, (c.evict key).peek key' = some i ↔ c.peek key' = some i := by
    intro i
    simp [peek_eq_some_iff, evict, h]
  cases hp : c.peek key' with
  | none =>
      cases hb : (c.evict key).peek key' with
      | none => rfl
      | some i => rw [(hiff i).mp hb] at hp; exact absurd hp (by simp)
  | some i => exact (hiff i).mpr hp

/-- After `Evict` the cache returns at most what it returned before. -/
theorem peek_of_peek_evict {c : DentryCache} {key key' : MetaKey} {i : UInt64}
    (h : (c.evict key).peek key' = some i) : key' ≠ key ∧ c.peek key' = some i := by
  by_cases hk : key' = key
  · rw [hk, peek_evict_self] at h; exact absurd h (by simp)
  · exact ⟨hk, by rw [← peek_evict_of_ne c hk, h]⟩

/-- After `Insert` the cache returns the new value under the new key, and
elsewhere at most what it returned before. -/
theorem peek_of_peek_insert {c : DentryCache} {key key' : MetaKey} {value i : UInt64}
    (h : (c.insert key value).peek key' = some i) :
    key' = key ∧ i = value ∨ key' ≠ key ∧ c.peek key' = some i := by
  obtain ⟨e, he, hl, rfl⟩ := peek_eq_some_iff.mp h
  have hpush : e ∈ (c.pushed key value).1 ∧ (key', e.id) ∈ (c.pushed key value).2 := by
    unfold insert at he hl
    split at he
    · rename_i hle
      rw [dif_pos hle] at hl
      exact ⟨he, hl⟩
    · rename_i hle
      rw [dif_neg hle] at hl
      exact ⟨(List.dropLast_sublist _).subset he, (List.mem_filter.mp hl).1⟩
  obtain ⟨he', hl'⟩ := hpush
  simp only [pushed, List.mem_cons, List.mem_filter, Prod.mk.injEq, ne_eq,
    decide_eq_true_eq] at he' hl'
  rcases hl' with ⟨rfl, hid⟩ | ⟨hl', hne⟩
  · refine Or.inl ⟨rfl, ?_⟩
    rcases he' with rfl | he'
    · rfl
    · have := c.ids_lt e he'; omega
  · refine Or.inr ⟨hne, peek_eq_some_iff.mpr ⟨e, ?_, hl', rfl⟩⟩
    refine he'.resolve_left fun h => ?_
    obtain ⟨f, hf, hid, _⟩ := c.points _ hl'
    have := c.ids_lt f hf
    simp only [h] at hid; omega

end DentryCache

end Tablefs
