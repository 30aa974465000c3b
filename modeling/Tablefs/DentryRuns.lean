/-
Runs of the dentry cache.

`DentryCache` is a map of bounded size in front of the metadata store. Whatever it is
asked to do, it answers with what was last inserted, every iterator leads to a node of the
list, and there are no more iterators than nodes and no more nodes than `maxsize`
(`sound_bounded`).

What it keeps is another matter. `Evict` takes a key out of the map and leaves its node in
the list. A later `Insert` of the key adds a second node, and the first one still counts
against `maxsize` and still erases the key's map entry when it is dropped. As long as no
drop meets such a pair of nodes, the keys used last are the keys kept (`retains_iff`).
-/
import Tablefs.DentryCache
import Tablefs.Lib.Run
import Mathlib.Data.Finset.Card
import Mathlib.Data.Finset.Dedup
import Mathlib.Data.List.TakeWhile

set_option autoImplicit false

namespace Tablefs

/-! ## Calls -/

/-- A call of `DentryCache`. -/
inductive DentryOp
  | find (key : MetaKey)
  | insert (key : MetaKey) (value : UInt64)
  | evict (key : MetaKey)
  deriving DecidableEq, Repr

/-- The call is an `Insert` or an `Evict` of the key. -/
def DentryOp.Sets (key : MetaKey) : DentryOp → Prop
  | .find _ => False
  | .insert k _ => k = key
  | .evict k => k = key

namespace DentryCache

/-- The cache after a call. -/
def step (c : DentryCache) : DentryOp → DentryCache
  | .find key => (c.find key).1
  | .insert key value => c.insert key value
  | .evict key => c.evict key

/-- The cache after a run. -/
abbrev run (c : DentryCache) (ops : List DentryOp) : DentryCache := Transition.run step c ops

theorem find_maxsize (c : DentryCache) (key : MetaKey) : (c.find key).1.maxsize = c.maxsize := by
  unfold find
  split
  · rfl
  · split
    · rfl
    · rfl

theorem insert_maxsize (c : DentryCache) (key : MetaKey) (value : UInt64) :
    (c.insert key value).maxsize = c.maxsize := by
  unfold insert
  split
  · rfl
  · rfl

theorem step_maxsize (c : DentryCache) (op : DentryOp) : (c.step op).maxsize = c.maxsize := by
  cases op with
  | find key => exact c.find_maxsize key
  | insert key value => exact c.insert_maxsize key value
  | evict key => rfl

theorem run_maxsize (c : DentryCache) (ops : List DentryOp) :
    (c.run ops).maxsize = c.maxsize := by
  induction ops generalizing c with
  | nil => rfl
  | cons op ops ih => exact (ih _).trans (c.step_maxsize op)

/-! ## A sound map of bounded size -/

/-- The last call of the run that sets the key is `Insert(key, value)`. -/
def LastInsert (ops : List DentryOp) (key : MetaKey) (value : UInt64) : Prop :=
  ∃ before after, ops = before ++ .insert key value :: after ∧ ∀ op ∈ after, ¬ op.Sets key

theorem LastInsert.append {ops : List DentryOp} {key : MetaKey} {value : UInt64}
    (h : LastInsert ops key value) {op : DentryOp} (hop : ¬ op.Sets key) :
    LastInsert (ops ++ [op]) key value := by
  obtain ⟨before, after, rfl, hafter⟩ := h
  refine ⟨before, after ++ [op], ?_, ?_⟩
  · rw [List.append_assoc, List.cons_append]
  · intro op' hmem
    rcases List.mem_append.mp hmem with h | h
    · exact hafter op' h
    · rw [List.mem_singleton.mp h]
      exact hop

/-- What the cache can answer was there before the call, or the call inserted it. -/
theorem peek_step {c : DentryCache} {op : DentryOp} {key : MetaKey} {value : UInt64}
    (h : (c.step op).peek key = some value) :
    op = .insert key value ∨ ¬ op.Sets key ∧ c.peek key = some value := by
  cases op with
  | find k =>
      refine Or.inr ⟨id, ?_⟩
      rwa [step, peek_find] at h
  | insert k v =>
      rcases peek_of_peek_insert h with ⟨rfl, rfl⟩ | ⟨hne, hp⟩
      · exact Or.inl rfl
      · exact Or.inr ⟨fun hk => hne hk.symm, hp⟩
  | evict k =>
      obtain ⟨hne, hp⟩ := peek_of_peek_evict h
      exact Or.inr ⟨fun hk => hne hk.symm, hp⟩

/-- The cache answers with what was inserted last. -/
theorem peek_run {maxsize : ℕ} {ops : List DentryOp} {key : MetaKey} {value : UInt64}
    (h : ((empty maxsize).run ops).peek key = some value) : LastInsert ops key value := by
  -- from the right: the last call is the one that matters first
  induction ops using List.reverseRecOn with
  | nil =>
      rw [run, Transition.run_nil, peek_empty] at h
      cases h
  | append_singleton ops op ih =>
      rw [run, Transition.run_append] at h
      rcases peek_step h with rfl | ⟨hop, hp⟩
      · exact ⟨ops, [], rfl, fun _ hmem => absurd hmem List.not_mem_nil⟩
      · exact (ih hp).append hop

/-- Each iterator has a node of its own. -/
theorem length_lookup_le (c : DentryCache) : c.lookup.length ≤ c.cache.length := by
  have hnodup : (c.lookup.map Prod.snd).Nodup := by
    rw [List.nodup_map_iff_inj_on (List.Nodup.of_map _ c.keys_nodup)]
    intro p hp q hq hn
    -- iterators to one node carry that node's key
    obtain ⟨e, he, hid, hk⟩ := c.points p hp
    obtain ⟨f, hf, hid', hk'⟩ := c.points q hq
    have hef : e = f := List.inj_on_of_nodup_map c.ids_nodup he hf (by rw [hid, hid', hn])
    exact Prod.ext (by rw [← hk, ← hk', hef]) hn
  have hsub : c.lookup.map Prod.snd ⊆ c.cache.map DentryNode.id := by
    intro n hn
    obtain ⟨p, hp, rfl⟩ := List.mem_map.mp hn
    obtain ⟨e, he, hid, _⟩ := c.points p hp
    exact List.mem_map.mpr ⟨e, he, hid⟩
  have hle := (List.subperm_of_subset hnodup hsub).length_le
  rwa [List.length_map, List.length_map] at hle

/-- After every run, `Find` succeeds only with what was inserted last and not evicted
since, every iterator points to a node of the list that carries the iterator's key, and the
map is no larger than the list and the list no larger than `maxsize`. -/
theorem sound_bounded (maxsize : ℕ) (ops : List DentryOp) :
    (∀ key value, (((empty maxsize).run ops).find key).2 = some value →
      LastInsert ops key value) ∧
    (∀ p ∈ ((empty maxsize).run ops).lookup,
      ∃ e ∈ ((empty maxsize).run ops).cache, e.id = p.2 ∧ e.key = p.1) ∧
    ((empty maxsize).run ops).lookup.length ≤ ((empty maxsize).run ops).cache.length ∧
    ((empty maxsize).run ops).cache.length ≤ maxsize := by
  refine ⟨?_, ?_, ?_, ?_⟩
  · intro key value h
    rw [find_snd] at h
    exact peek_run h
  · exact ((empty maxsize).run ops).points
  · exact length_lookup_le _
  · have hb := ((empty maxsize).run ops).bounded
    rwa [run_maxsize] at hb

/-! ## What was used last -/

/-- The keys of the nodes in front of node `n`. -/
def keysBefore (n : ℕ) (nodes : List DentryNode) : Finset MetaKey :=
  ((nodes.takeWhile fun e => e.id ≠ n).map DentryNode.key).toFinset

/-- The key has an entry in the map. -/
def Mapped (c : DentryCache) (key : MetaKey) : Prop := ∃ n, (key, n) ∈ c.lookup

theorem peek_ne_none_iff {c : DentryCache} {key : MetaKey} :
    c.peek key ≠ none ↔ c.Mapped key := by
  constructor
  · intro h
    obtain ⟨i, hi⟩ := Option.ne_none_iff_exists'.mp h
    obtain ⟨e, _, hl, _⟩ := peek_eq_some_iff.mp hi
    exact ⟨e.id, hl⟩
  · rintro ⟨n, hn⟩ h
    obtain ⟨e, he, hid, _⟩ := c.points _ hn
    have hid' : e.id = n := hid
    rw [peek_eq_some_iff.mpr ⟨e, he, hid' ▸ hn, rfl⟩] at h
    cases h

theorem mapped_iff_iter {c : DentryCache} {key : MetaKey} :
    c.Mapped key ↔ (c.iter key).isSome = true := by
  rw [Option.isSome_iff_exists]
  exact exists_congr fun n => iter_eq_some_iff.symm

instance (c : DentryCache) : DecidablePred c.Mapped := fun key =>
  decidable_of_iff ((c.iter key).isSome = true) mapped_iff_iter.symm

end DentryCache

/-- What a run has done with the keys: which are inserted and not evicted since, and which
other keys were inserted or found since a key was. -/
structure DentryHistory where
  kept : MetaKey → Prop
  others : MetaKey → Finset MetaKey

namespace DentryHistory

/-- Before the first call. -/
def empty : DentryHistory := ⟨fun _ => False, fun _ => ∅⟩

/-- The key is inserted or found. -/
def use (h : DentryHistory) (key : MetaKey) : DentryHistory :=
  { h with others := fun k => if k = key then ∅ else insert key (h.others k) }

/-- The history after a call. -/
def after (h : DentryHistory) (c : DentryCache) : DentryOp → DentryHistory
  | .find key => if (c.find key).2 ≠ none then h.use key else h
  | .insert key _ => { h.use key with kept := Function.update h.kept key True }
  | .evict key => { h with kept := Function.update h.kept key False }

end DentryHistory

namespace DentryCache

/-- The cache and its history, after a call. -/
def stepWith (s : DentryCache × DentryHistory) (op : DentryOp) : DentryCache × DentryHistory :=
  (s.1.step op, s.2.after s.1 op)

/-- The cache finds every key that was inserted and not evicted since, if fewer than
`maxsize` other keys were inserted or found since it was. -/
def Retains (s : DentryCache × DentryHistory) : Prop :=
  ∀ key, s.2.kept key → (s.2.others key).card < s.1.maxsize → (s.1.find key).2 ≠ none

/-- If the call drops a node and the node's key will have an entry in the map, then no two
nodes carry the same key. -/
def DropsRightly (c : DentryCache) : DentryOp → Prop
  | .insert key _ => c.cache.length = c.maxsize → ∀ back ∈ c.cache.getLast?,
      back.key = key ∨ c.Mapped back.key → (key :: c.cache.map DentryNode.key).Nodup
  | _ => True

/-- The keys in front of a key's node are the ones used since the key was. -/
structure Tracks (s : DentryCache × DentryHistory) : Prop where
  kept : ∀ p ∈ s.1.lookup, s.2.kept p.1
  front : ∀ p ∈ s.1.lookup, keysBefore p.2 s.1.cache = s.2.others p.1
  irrefl : ∀ key, key ∉ s.2.others key

theorem tracks_empty (maxsize : ℕ) : Tracks (empty maxsize, .empty) where
  kept := fun _ hp => absurd hp List.not_mem_nil
  front := fun _ hp => absurd hp List.not_mem_nil
  irrefl := fun key => Finset.notMem_empty key

/-! ### In front of a node -/

theorem mem_keysBefore {n : ℕ} {nodes : List DentryNode} {key : MetaKey} :
    key ∈ keysBefore n nodes ↔ ∃ e ∈ nodes.takeWhile fun e => e.id ≠ n, e.key = key := by
  rw [keysBefore, List.mem_toFinset, List.mem_map]

theorem keysBefore_cons_self (e : DentryNode) (nodes : List DentryNode) :
    keysBefore e.id (e :: nodes) = ∅ := by
  rw [keysBefore, List.takeWhile_cons_of_neg (by simp)]
  rfl

theorem keysBefore_cons_of_ne {n : ℕ} {e : DentryNode} (h : e.id ≠ n)
    (nodes : List DentryNode) :
    keysBefore n (e :: nodes) = Insert.insert e.key (keysBefore n nodes) := by
  rw [keysBefore, List.takeWhile_cons_of_pos (by simpa using h), List.map_cons,
    List.toFinset_cons, keysBefore]

/-- Taking a node away from the list takes its key away, if anything. -/
theorem keysBefore_filter {n : ℕ} {nodes : List DentryNode} {e : DentryNode}
    (hids : (nodes.map DentryNode.id).Nodup) (he : e ∈ nodes) (hne : e.id ≠ n) :
    Insert.insert e.key (keysBefore n (nodes.filter fun f => f.id ≠ e.id))
      = Insert.insert e.key (keysBefore n nodes) := by
  have hpred : (fun f : DentryNode => !decide (f.id ≠ e.id) || decide (f.id ≠ n))
      = fun f => decide (f.id ≠ n) := by
    funext f
    by_cases hf : f.id = e.id
    · simp [hf, hne]
    · simp [hf]
  ext key
  rw [Finset.mem_insert, Finset.mem_insert, mem_keysBefore, mem_keysBefore,
    List.takeWhile_filter, hpred]
  constructor
  · rintro (h | ⟨f, hf, hk⟩)
    · exact Or.inl h
    · exact Or.inr ⟨f, (List.mem_filter.mp hf).1, hk⟩
  · rintro (h | ⟨f, hf, rfl⟩)
    · exact Or.inl h
    · -- the node itself is the one that was taken away
      by_cases hid : f.id = e.id
      · have hmem : f ∈ nodes := (List.takeWhile_sublist _).subset hf
        exact Or.inl (congrArg DentryNode.key (List.inj_on_of_nodup_map hids hmem he hid))
      · exact Or.inr ⟨f, List.mem_filter.mpr ⟨hf, by simpa using hid⟩, rfl⟩

/-- Nodes behind node `n` do not matter. -/
theorem keysBefore_append {n : ℕ} {nodes : List DentryNode} {e : DentryNode} (he : e ∈ nodes)
    (hid : e.id = n) (rest : List DentryNode) :
    keysBefore n (nodes ++ rest) = keysBefore n nodes := by
  rw [keysBefore, keysBefore, List.takeWhile_append, if_neg]
  intro hlen
  -- then the whole list would be in front of the node
  have hall := List.takeWhile_eq_self_iff.mp ((List.takeWhile_sublist _).eq_of_length hlen)
  have := hall e he
  simp [hid] at this

/-! ### What the calls do -/

theorem find_cases (c : DentryCache) (key : MetaKey) :
    (c.find key = (c, none) ∧ ¬ c.Mapped key) ∨
      ∃ e, ∃ he : e ∈ c.cache, e.key = key ∧ (key, e.id) ∈ c.lookup ∧
        c.find key = (c.bump e he, some e.inode) := by
  cases hi : c.iter key with
  | none =>
      refine Or.inl ⟨by rw [find, hi], ?_⟩
      rw [mapped_iff_iter, hi]
      simp
  | some n =>
      have hl := iter_eq_some_iff.mp hi
      obtain ⟨e, he, hid, hk⟩ := c.points _ hl
      have hid' : e.id = n := hid
      have hnode : c.node n = some e := node_eq_some_iff.mpr ⟨he, hid⟩
      refine Or.inr ⟨e, he, hk, hid' ▸ hl, ?_⟩
      unfold find
      rw [hi]
      dsimp only
      split
      · rename_i h
        rw [hnode] at h
        cases h
      · rename_i f h
        rw [hnode] at h
        obtain rfl := Option.some.inj h
        rfl

variable {c : DentryCache} {h : DentryHistory}

theorem Tracks.use_irrefl (ht : Tracks (c, h)) (key k : MetaKey) : k ∉ (h.use key).others k := by
  show k ∉ if k = key then ∅ else Insert.insert key (h.others k)
  split
  · exact Finset.notMem_empty k
  · rename_i hne
    rw [Finset.mem_insert, not_or]
    exact ⟨hne, ht.irrefl k⟩

theorem Tracks.bump (ht : Tracks (c, h)) {e : DentryNode} (he : e ∈ c.cache)
    (hl : (e.key, e.id) ∈ c.lookup) : Tracks (c.bump e he, h.use e.key) where
  kept := by
    intro p hp
    rcases List.mem_cons.mp hp with rfl | hp
    · exact ht.kept (e.key, e.id) hl
    · exact ht.kept p (List.mem_filter.mp hp).1
  front := by
    intro p hp
    rcases List.mem_cons.mp hp with rfl | hp
    · show keysBefore c.nextNode (_ :: _) = if e.key = e.key then ∅ else _
      rw [if_pos rfl]
      exact keysBefore_cons_self { e with id := c.nextNode } _
    · obtain ⟨hp, hne⟩ := List.mem_filter.mp hp
      have hpk : p.1 ≠ e.key := by simpa using hne
      obtain ⟨f, hf, hid, hk⟩ := c.points p hp
      have hnew : c.nextNode ≠ p.2 := by
        have := c.ids_lt f hf
        omega
      have hold : e.id ≠ p.2 := by
        intro heq
        have hfe := List.inj_on_of_nodup_map c.ids_nodup hf he (hid.trans heq.symm)
        exact hpk (by rw [← hk, hfe])
      show keysBefore p.2 (_ :: _) = if p.1 = e.key then ∅ else Insert.insert e.key (h.others p.1)
      rw [if_neg hpk, ← ht.front p hp, keysBefore_cons_of_ne hnew]
      exact keysBefore_filter c.ids_nodup he hold
  irrefl := ht.use_irrefl e.key

/-- The list and the map of `Insert` before its capacity test. -/
theorem Tracks.pushed (ht : Tracks (c, h)) (key : MetaKey) (value : UInt64) :
    (∀ p ∈ (c.pushed key value).2, (h.after c (.insert key value)).kept p.1) ∧
      ∀ p ∈ (c.pushed key value).2,
        keysBefore p.2 (c.pushed key value).1 = (h.use key).others p.1 := by
  constructor
  · intro p hp
    show Function.update h.kept key True p.1
    rcases List.mem_cons.mp hp with rfl | hp
    · rw [Function.update_self]
      trivial
    · obtain ⟨hp, hne⟩ := List.mem_filter.mp hp
      rw [Function.update_of_ne (by simpa using hne)]
      exact ht.kept p hp
  · intro p hp
    rcases List.mem_cons.mp hp with rfl | hp
    · show keysBefore c.nextNode (_ :: _) = if key = key then ∅ else _
      rw [if_pos rfl]
      exact keysBefore_cons_self ⟨c.nextNode, key, value⟩ _
    · obtain ⟨hp, hne⟩ := List.mem_filter.mp hp
      have hpk : p.1 ≠ key := by simpa using hne
      obtain ⟨f, hf, hid, _⟩ := c.points p hp
      have hnew : c.nextNode ≠ p.2 := by
        have := c.ids_lt f hf
        omega
      show keysBefore p.2 (_ :: _) = if p.1 = key then ∅ else Insert.insert key (h.others p.1)
      rw [if_neg hpk, ← ht.front p hp]
      exact keysBefore_cons_of_ne (e := ⟨c.nextNode, key, value⟩) hnew c.cache

/-- The node that `Insert` drops, and what stays. -/
theorem insert_cases (c : DentryCache) (key : MetaKey) (value : UInt64) :
    (c.cache.length < c.maxsize ∧ (c.insert key value).cache = (c.pushed key value).1 ∧
      (c.insert key value).lookup = (c.pushed key value).2) ∨
    ∃ back, c.cache.length = c.maxsize ∧
      (c.pushed key value).1 = (c.insert key value).cache ++ [back] ∧
      (c.insert key value).lookup = (c.pushed key value).2.filter fun p => p.1 ≠ back.key := by
  have hlen : (c.pushed key value).1.length = c.cache.length + 1 := rfl
  have hb := c.bounded
  by_cases hle : (c.pushed key value).1.length ≤ c.maxsize
  · have hins : c.insert key value = _ := dif_pos hle
    exact Or.inl ⟨by omega, by rw [hins], by rw [hins]⟩
  · have hins : c.insert key value = _ := dif_neg hle
    refine Or.inr ⟨(c.pushed key value).1.getLast (c.pushed_ne_nil key value), by omega, ?_, ?_⟩
    · rw [hins]
      exact (List.dropLast_append_getLast _).symm
    · rw [hins]

theorem Tracks.insert (ht : Tracks (c, h)) (key : MetaKey) (value : UInt64) :
    Tracks (c.insert key value, h.after c (.insert key value)) := by
  obtain ⟨hkept, hfront⟩ := ht.pushed key value
  refine ⟨?_, ?_, ht.use_irrefl key⟩
  · intro p hp
    rcases c.insert_cases key value with ⟨_, _, hl⟩ | ⟨back, _, _, hl⟩
    · exact hkept p (hl ▸ hp)
    · have hp' : p ∈ (c.insert key value).lookup := hp
      rw [hl] at hp'
      exact hkept p (List.mem_filter.mp hp').1
  · intro p hp
    obtain ⟨f, hf, hid, _⟩ := (c.insert key value).points p hp
    show keysBefore p.2 (c.insert key value).cache = (h.use key).others p.1
    rcases c.insert_cases key value with ⟨_, hc, hl⟩ | ⟨back, _, hc, hl⟩
    · rw [hc]
      exact hfront p (hl ▸ hp)
    · have hp' : p ∈ (c.insert key value).lookup := hp
      rw [hl] at hp'
      rw [← hfront p (List.mem_filter.mp hp').1, hc]
      exact (keysBefore_append hf hid [back]).symm

/-- Every call keeps the account. -/
theorem Tracks.step {s : DentryCache × DentryHistory} (ht : Tracks s) (op : DentryOp) :
    Tracks (stepWith s op) := by
  obtain ⟨c, h⟩ := s
  cases op with
  | find key =>
      rcases c.find_cases key with ⟨hf, _⟩ | ⟨e, he, rfl, hl, hf⟩
      · show Tracks ((c.find key).1, if (c.find key).2 ≠ none then h.use key else h)
        rw [hf, if_neg (by simp)]
        exact ht
      · show Tracks ((c.find e.key).1, if (c.find e.key).2 ≠ none then h.use e.key else h)
        rw [hf, if_pos (by simp)]
        exact ht.bump he hl
  | insert key value => exact ht.insert key value
  | evict key =>
      refine ⟨?_, ?_, ht.irrefl⟩
      · intro p hp
        obtain ⟨hp, hne⟩ := List.mem_filter.mp hp
        show Function.update h.kept key False p.1
        rw [Function.update_of_ne (by simpa using hne)]
        exact ht.kept p hp
      · intro p hp
        exact ht.front p (List.mem_filter.mp hp).1

/-! ### What is kept -/

theorem retains_iff_mapped {s : DentryCache × DentryHistory} :
    Retains s ↔ ∀ key, s.2.kept key → (s.2.others key).card < s.1.maxsize → s.1.Mapped key := by
  refine forall_congr' fun key => imp_congr_right fun _ => imp_congr_right fun _ => ?_
  rw [find_snd, peek_ne_none_iff]

theorem card_use_of_ne (h : DentryHistory) {key k : MetaKey} (hne : k ≠ key) :
    (h.others k).card ≤ ((h.use key).others k).card := by
  show _ ≤ (if k = key then ∅ else Insert.insert key (h.others k)).card
  rw [if_neg hne]
  exact Finset.card_le_card (Finset.subset_insert _ _)

/-- A key that was not set keeps its entry, or had used up its time before. -/
theorem Retains.pushed (hr : Retains (c, h)) {key k : MetaKey} (value : UInt64)
    (hk : (h.after c (.insert key value)).kept k)
    (hcard : ((h.use key).others k).card < c.maxsize) : ∃ n, (k, n) ∈ (c.pushed key value).2 := by
  by_cases hne : k = key
  · subst hne
    exact ⟨c.nextNode, List.mem_cons_self⟩
  · have hk' : Function.update h.kept key True k := hk
    rw [Function.update_of_ne hne] at hk'
    obtain ⟨n, hn⟩ := retains_iff_mapped.mp hr k hk' (Nat.lt_of_le_of_lt
      (card_use_of_ne h hne) hcard)
    exact ⟨n, List.mem_cons_of_mem _ (List.mem_filter.mpr ⟨hn, by simpa using hne⟩)⟩

/-- A node in a list of `n + 1` nodes has `n` different keys in front of it just if it is the
last one and no two nodes carry the same key. -/
theorem card_keysBefore {nodes : List DentryNode} {e back : DentryNode}
    (hids : ((nodes ++ [back]).map DentryNode.id).Nodup) (he : e ∈ nodes ++ [back])
    (hkey : e.key = back.key) (hn : e.key ∉ keysBefore e.id (nodes ++ [back])) :
    (keysBefore e.id (nodes ++ [back])).card < nodes.length ↔
      ¬ ((nodes ++ [back]).map DentryNode.key).Nodup := by
  rcases List.mem_append.mp he with hmem | hmem
  · -- the node is not the last one, which carries the same key
    have hdup : ¬ ((nodes ++ [back]).map DentryNode.key).Nodup := by
      intro hnodup
      rw [List.map_append, List.nodup_append] at hnodup
      exact hnodup.2.2 e.key (List.mem_map_of_mem hmem) back.key (List.mem_singleton.mpr rfl) hkey
    refine ⟨fun _ => hdup, fun _ => ?_⟩
    rw [keysBefore_append hmem rfl [back]]
    have hle := List.toFinset_card_le
      ((nodes.takeWhile fun f => f.id ≠ e.id).map DentryNode.key)
    have hshort : (nodes.takeWhile fun f => f.id ≠ e.id).length < nodes.length := by
      refine Nat.lt_of_le_of_ne (List.takeWhile_sublist _).length_le ?_
      intro hlen
      have := List.takeWhile_eq_self_iff.mp ((List.takeWhile_sublist _).eq_of_length hlen) e hmem
      simp at this
    rw [List.length_map] at hle
    show (List.toFinset _).card < _
    omega
  · obtain rfl := List.mem_singleton.mp hmem
    have hfront : (nodes ++ [e]).takeWhile (fun f => decide (f.id ≠ e.id)) = nodes := by
      rw [List.map_append, List.nodup_append] at hids
      rw [List.takeWhile_append_of_pos, List.takeWhile_cons_of_neg (by simp), List.append_nil]
      intro f hf
      rw [decide_eq_true_eq]
      exact hids.2.2 f.id (List.mem_map_of_mem hf) e.id (List.mem_singleton.mpr rfl)
    rw [keysBefore, hfront, List.mem_toFinset] at hn
    rw [keysBefore, hfront, List.map_append, List.nodup_append]
    have hle := List.toFinset_card_le (nodes.map DentryNode.key)
    rw [List.length_map] at hle
    constructor
    · rintro hlt ⟨hnodup, _⟩
      rw [List.toFinset_card_of_nodup hnodup, List.length_map] at hlt
      omega
    · intro hdup
      refine Nat.lt_of_le_of_ne hle fun heq => hdup ⟨?_, List.nodup_singleton _, ?_⟩
      · rw [List.card_toFinset, ← List.length_map (f := DentryNode.key)] at heq
        exact List.dedup_eq_self.mp ((List.dedup_sublist _).eq_of_length heq)
      · intro k hk k' hk'
        obtain rfl : k' = e.key := List.mem_singleton.mp hk'
        rintro rfl
        exact hn hk

/-- `Insert` drops what its last node's key has in the map. If that key's time is not up, it
is lost too early. -/
theorem retains_insert_iff (ht : Tracks (c, h)) (hr : Retains (c, h)) (key : MetaKey)
    (value : UInt64) :
    Retains (c.insert key value, h.after c (.insert key value)) ↔
      c.DropsRightly (.insert key value) := by
  obtain ⟨hkept, hfront⟩ := ht.pushed key value
  have hmap : ∀ k, (∃ n, (k, n) ∈ (c.pushed key value).2) ↔ k = key ∨ c.Mapped k := by
    intro k
    by_cases hk : k = key
    · subst hk
      exact ⟨fun _ => Or.inl rfl, fun _ => ⟨c.nextNode, List.mem_cons_self⟩⟩
    · refine ⟨?_, ?_⟩
      · rintro ⟨n, hn⟩
        rcases List.mem_cons.mp hn with hn | hn
        · exact absurd (congrArg Prod.fst hn) hk
        · exact Or.inr ⟨n, (List.mem_filter.mp hn).1⟩
      · rintro (hk' | ⟨n, hn⟩)
        · exact absurd hk' hk
        · exact ⟨n, List.mem_cons_of_mem _ (List.mem_filter.mpr ⟨hn, by simpa using hk⟩)⟩
  rw [retains_iff_mapped]
  dsimp only
  rw [insert_maxsize]
  rcases c.insert_cases key value with ⟨hlt, _, hl⟩ | ⟨back, hfull, hc, hl⟩
  · -- nothing is dropped
    constructor
    · intro _ hfull
      omega
    · intro _ k hk hcard
      obtain ⟨n, hn⟩ := hr.pushed value hk hcard
      exact ⟨n, hl ▸ hn⟩
  · have hlen : (c.insert key value).cache.length = c.maxsize := by
      have := congrArg List.length hc
      rw [List.length_append, show (c.pushed key value).1.length = c.cache.length + 1 from rfl,
        List.length_singleton] at this
      omega
    have hback : c.maxsize ≠ 0 → c.cache.getLast? = some back := by
      intro h0
      have hlast := congrArg List.getLast? hc
      rw [List.getLast?_append_of_ne_nil _ (List.cons_ne_nil _ _)] at hlast
      have hne : c.cache ≠ [] := by
        intro hnil
        rw [hnil, List.length_nil] at hfull
        exact h0 hfull.symm
      rw [show (c.pushed key value).1 = [⟨c.nextNode, key, value⟩] ++ c.cache from rfl,
        List.getLast?_append_of_ne_nil _ hne] at hlast
      exact hlast
    -- the one key that may be lost is the key of the node that goes
    have hlost : ¬ (c.insert key value).Mapped back.key := by
      rintro ⟨n, hn⟩
      rw [hl] at hn
      exact absurd (List.mem_filter.mp hn).2 (by simp)
    have hothers : ∀ k, k ≠ back.key → (h.after c (.insert key value)).kept k →
        ((h.use key).others k).card < c.maxsize → (c.insert key value).Mapped k := by
      intro k hne hk hcard
      obtain ⟨n, hn⟩ := hr.pushed value hk hcard
      exact ⟨n, by rw [hl]; exact List.mem_filter.mpr ⟨hn, by simpa using hne⟩⟩
    have hids := c.pushed_ids_nodup key value
    rw [hc] at hids
    constructor
    · intro hret _ back' hb' hin
      have h0 : c.maxsize ≠ 0 := by
        intro h0
        rw [List.eq_nil_of_length_eq_zero (hfull.trans h0)] at hb'
        cases hb'
      rw [hback h0] at hb'
      obtain rfl := Option.some.inj hb'
      obtain ⟨n, hn⟩ := (hmap back.key).mpr hin
      obtain ⟨e, he, hid, hk⟩ := c.pushed_points key value _ hn
      by_contra hdup
      refine hlost (hret back.key (hkept _ hn) ?_)
      have hf := hfront _ hn
      have hid' : e.id = n := hid
      have hk' : e.key = back.key := hk
      dsimp only at hf
      rw [show (h.after c (.insert key value)).others = (h.use key).others from rfl, ← hf, ← hlen,
        hc, ← hid']
      refine (card_keysBefore hids (hc ▸ he) hk' ?_).mpr ?_
      · rw [← hc, hid', hf, hk']
        exact ht.use_irrefl key back.key
      · rw [← hc]
        exact hdup
    · intro hd k hk hcard
      by_cases hne : k = back.key
      · exfalso
        subst hne
        have h0 : c.maxsize ≠ 0 := by omega
        have hin := hr.pushed value hk hcard
        have hnodup := hd hfull back (by rw [hback h0]; rfl) ((hmap back.key).mp hin)
        obtain ⟨n, hn⟩ := hin
        obtain ⟨e, he, hid, hk'⟩ := c.pushed_points key value _ hn
        have hf := hfront _ hn
        have hid' : e.id = n := hid
        have hk'' : e.key = back.key := hk'
        dsimp only at hf
        rw [show (h.after c (.insert key value)).others = (h.use key).others from rfl, ← hf,
          ← hlen, hc, ← hid'] at hcard
        refine (card_keysBefore hids (hc ▸ he) hk'' ?_).mp hcard ?_
        · rw [← hc, hid', hf, hk'']
          exact ht.use_irrefl key back.key
        · rw [← hc]
          exact hnodup
      · exact hothers k hne hk hcard

theorem Retains.find (hr : Retains (c, h)) (key : MetaKey) :
    Retains (stepWith (c, h) (.find key)) := by
  have hpeek : ∀ k, (c.find key).1.Mapped k ↔ c.Mapped k := by
    intro k
    rw [← peek_ne_none_iff, ← peek_ne_none_iff, peek_find]
  rw [retains_iff_mapped] at hr ⊢
  intro k hk hcard
  have hcard' : ((if (c.find key).2 ≠ none then h.use key else h).others k).card
      < (c.find key).1.maxsize := hcard
  have hk' : (if (c.find key).2 ≠ none then h.use key else h).kept k := hk
  rw [find_maxsize] at hcard'
  refine (hpeek k).mpr ?_
  split at hcard'
  · rename_i hfound
    by_cases hne : k = key
    · subst hne
      rwa [find_snd, peek_ne_none_iff] at hfound
    · rw [if_pos hfound] at hk'
      exact hr k hk' (Nat.lt_of_le_of_lt (card_use_of_ne h hne) hcard')
  · rename_i hfound
    rw [if_neg hfound] at hk'
    exact hr k hk' hcard'

theorem Retains.evict (hr : Retains (c, h)) (key : MetaKey) :
    Retains (stepWith (c, h) (.evict key)) := by
  rw [retains_iff_mapped] at hr ⊢
  intro k hk hcard
  have hk' : Function.update h.kept key False k := hk
  by_cases hne : k = key
  · rw [hne, Function.update_self] at hk'
    exact hk'.elim
  · rw [Function.update_of_ne hne] at hk'
    obtain ⟨n, hn⟩ := hr k hk' hcard
    exact ⟨n, List.mem_filter.mpr ⟨hn, by simpa using hne⟩⟩

theorem retains_step_iff {s : DentryCache × DentryHistory} (ht : Tracks s) (hr : Retains s)
    (op : DentryOp) : Retains (stepWith s op) ↔ s.1.DropsRightly op := by
  obtain ⟨c, h⟩ := s
  cases op with
  | find key => exact iff_of_true (hr.find key) trivial
  | insert key value => exact retains_insert_iff ht hr key value
  | evict key => exact iff_of_true (hr.evict key) trivial

/-- In every run, the cache keeps what was used last in every state reached, if and only if
no `Insert` drops a node whose key has an entry in the map while two nodes carry the same
key. -/
theorem retains_iff (maxsize : ℕ) (ops : List DentryOp) :
    Transition.Meets stepWith (fun s op => Retains (stepWith s op))
        (DentryCache.empty maxsize, DentryHistory.empty) ops ↔
      Transition.Meets stepWith (fun s op => s.1.DropsRightly op)
        (DentryCache.empty maxsize, DentryHistory.empty) ops := by
  refine Transition.meets_next_iff (P := Tracks) (fun s op ht => ht.step op) ?_
    (tracks_empty maxsize) ?_
  · intro s op ht hr
    exact retains_step_iff ht hr op
  · intro key hkept
    exact hkept.elim

/-- Every `Insert` comes right after a `Find` of its key that failed. -/
def InsertsMissed (c : DentryCache) : List DentryOp → Prop
  | [] => True
  | .find key :: .insert k value :: ops =>
      key = k ∧ (c.find key).2 = none ∧ InsertsMissed ((c.find key).1.insert k value) ops
  | .insert _ _ :: _ => False
  | op :: ops => InsertsMissed (c.step op) ops

/-- A key is inserted, evicted and inserted again. -/
def againRun (key : MetaKey) : List DentryOp :=
  [.find key, .insert key 1, .evict key, .find key, .insert key 1]

/-- The node of the first `Insert` takes the second one's entry with it. -/
theorem inserted_lost :
    ¬ ∀ (maxsize : ℕ) (ops : List DentryOp), 1 ≤ maxsize →
      (DentryCache.empty maxsize).InsertsMissed ops →
      Transition.Meets stepWith (fun s op => Retains (stepWith s op))
        (DentryCache.empty maxsize, DentryHistory.empty) ops := by
  intro hall
  have hrun := hall 1 (againRun ⟨0, 7⟩) (Nat.le_refl 1)
    ⟨rfl, by decide +kernel, rfl, by decide +kernel, trivial⟩
  have hlast := hrun.2.2.2.2.1 ⟨0, 7⟩ trivial (by decide +kernel)
  revert hlast
  decide +kernel

end DentryCache

end Tablefs
