/-
The iterators of the skip list and of the memtable.

The skip list's iterator is a node, and moves over the keys of the list (`SkipList.walks`). The
memtable's shows the internal key and the value that an entry holds, so it moves over the
encoded versions of what the memtable was given (`MemTable.walks`).
-/
import Tablefs.LevelDb.DbIter

set_option autoImplicit false

namespace Tablefs

namespace LevelDb

open ByteString

/-! ## `SkipList::Iterator` -/

namespace SkipList

variable {Key : Type*} (compare_ : Key → Key → ℤ)

/-- A node, or null for the head. -/
def notHead (x : ℕ) : Option ℕ := if x = 0 then none else some x

/-- `SkipList::Iterator`: the state is `node_`. The searches end (`search_spec`). -/
def iterator (s : SkipList Key) : Cursor (Option ℕ) Key Unit where
  seekToFirst _ := s.next 0 0
  seekToLast _ := s.findLast.bind notHead
  seek target _ := (s.findGreaterOrEqual compare_ target id).bind fun r => r.1
  next node_ := node_.bind fun x => s.next x 0
  prev node_ := node_.bind fun x => (s.findLessThan compare_ (s.key x)).bind notHead
  entry node_ := node_.map fun x => (s.key x, ())

variable {compare_} {κ : Type*} [LinearOrder κ] {rank : Key → κ} {s : SkipList Key}
  {order : List ℕ}

/-- The last of some nodes, or null for the head. -/
theorem notHead_getLastD (h : Inv rank s order) {as : List ℕ} (has : ∀ a ∈ as, a ∈ order) :
    notHead (as.getLastD 0) = as.reverse.head? := by
  rcases List.eq_nil_or_concat as with rfl | ⟨as', a, rfl⟩
  · rfl
  · rw [List.concat_eq_append] at has ⊢
    have ha := (h.fresh a (has a (List.mem_append_right as' (List.mem_singleton.mpr rfl)))).1
    rw [List.getLastD_concat, notHead, if_neg ha.ne', List.reverse_append]
    rfl

/-- The entries of the nodes. -/
def entries (s : SkipList Key) (order : List ℕ) : List (Key × Unit) :=
  order.map fun x => (s.key x, ())

theorem next_zero {as bs : List ℕ} {x : ℕ} (h : Inv rank s (as ++ x :: bs)) :
    s.next x 0 = bs.head? := by
  have hall : bs.filter (fun y => decide (0 < s.height y)) = bs :=
    List.filter_eq_self.mpr fun b hb => decide_eq_true
      (h.heights b (List.mem_append_right as (List.mem_cons_of_mem x hb))).1
  have hx := (h.heights x (List.mem_append_right as List.mem_cons_self)).1
  have hpath := (h.path_from (show 0 :: (as ++ x :: bs) = (0 :: as) ++ x :: bs from rfl)
    (by decide) hx).head
  rw [hall] at hpath
  exact hpath

theorem head_zero (h : Inv rank s order) : s.next 0 0 = order.head? := by
  have hpath := (h.path 0 (by decide)).head
  rw [List.filter_eq_self.mpr fun x hx => decide_eq_true (h.heights x hx).1] at hpath
  exact hpath

/-- The iterator moves over the keys of the list in their order. -/
theorem walks (hc : Ranks compare_ rank) (h : Inv rank s order) :
    (s.iterator compare_).Walks rank (s.entries order) (fun _ => True)
      fun node_ => ∀ x ∈ node_, x ∈ order := by
  have hsorted : Cursor.Sorted rank (s.entries order) := List.pairwise_map.mpr h.sorted
  have hhead : ∀ as : List ℕ, (as.map fun x => (s.key x, ())).head?
      = as.head?.map fun x => (s.key x, ()) := fun as => List.head?_map
  -- a node splits the list, and its neighbours are told by their ranks
  have hsplit : ∀ x ∈ order, ∃ as bs, order = as ++ x :: bs ∧
      (s.entries order).find? (fun y => rank (s.key x) < rank y.1)
        = bs.head?.map (fun y => (s.key y, ())) ∧
      (s.entries order).reverse.find? (fun y => rank y.1 < rank (s.key x))
        = as.reverse.head?.map fun y => (s.key y, ()) := by
    intro x hx
    obtain ⟨as, bs, rfl⟩ := List.append_of_mem hx
    have hmap : s.entries (as ++ x :: bs)
        = s.entries as ++ (s.key x, ()) :: s.entries bs := List.map_append
    rw [hmap] at hsorted ⊢
    refine ⟨as, bs, rfl, hsorted.find_above.trans (hhead bs), hsorted.find_below.trans ?_⟩
    rw [entries, ← List.map_reverse]
    exact hhead as.reverse
  exact
    { sorted := hsorted
      fits := fun _ _ => trivial
      mem := by
        intro node_ e hs he
        obtain ⟨x, hx, rfl⟩ := Option.map_eq_some_iff.mp he
        exact List.mem_map_of_mem (hs x hx)
      seekToFirst := by
        intro node_ _
        refine ⟨fun x hx => ?_, ?_⟩
        · have hx' : s.next 0 0 = some x := hx
          rw [head_zero h] at hx'
          exact List.mem_of_head? hx'
        · exact (congrArg (Option.map fun x => (s.key x, ())) (head_zero h)).trans
            (hhead order).symm
      seekToLast := by
        intro node_ _
        have hlast : s.findLast.bind notHead = order.reverse.head? := by
          rw [findLast_spec h]
          exact notHead_getLastD h fun a ha => ha
        refine ⟨fun x hx => ?_, ?_⟩
        · have hx' : s.findLast.bind notHead = some x := hx
          rw [hlast] at hx'
          exact List.mem_reverse.mp (List.mem_of_head? hx')
        · refine (congrArg (Option.map fun x => (s.key x, ())) hlast).trans ?_
          rw [entries, ← List.map_reverse]
          exact (hhead order.reverse).symm
      seek := by
        intro node_ t _ _
        obtain ⟨as, bs, rfl, has, hbs⟩ := h.split (rank t)
        obtain ⟨prev', hfind, -⟩ := findGreaterOrEqual_spec hc h has hbs id
        have hseek : (s.findGreaterOrEqual compare_ t id).bind (fun r => r.1) = bs.head? := by
          rw [hfind]
          rfl
        refine ⟨fun x hx => ?_, ?_⟩
        · have hx' : (s.findGreaterOrEqual compare_ t id).bind (fun r => r.1) = some x := hx
          rw [hseek] at hx'
          exact List.mem_append_right as (List.mem_of_head? hx')
        · refine (congrArg (Option.map fun x => (s.key x, ())) hseek).trans ?_
          rw [← hhead, entries, List.map_append]
          refine (Cursor.find_split (fun a ha => ?_) fun b hb => ?_).symm
          · obtain ⟨x, hx, rfl⟩ := List.mem_map.mp ha
            exact decide_eq_false (not_le_of_gt (has x hx))
          · obtain ⟨x, hx, rfl⟩ := List.mem_map.mp hb
            exact decide_eq_true (hbs x hx)
      next := by
        intro node_ e hs he
        obtain ⟨x, rfl, rfl⟩ := Option.map_eq_some_iff.mp he
        obtain ⟨as, bs, rfl, habove, -⟩ := hsplit x (hs x rfl)
        have hnext := next_zero h
        refine ⟨fun y hy => ?_, ?_⟩
        · have hy' : s.next x 0 = some y := hy
          rw [hnext] at hy'
          exact List.mem_append_right as (List.mem_cons_of_mem x (List.mem_of_head? hy'))
        · exact (congrArg (Option.map fun x => (s.key x, ())) hnext).trans habove.symm
      prev := by
        intro node_ e hs he
        obtain ⟨x, rfl, rfl⟩ := Option.map_eq_some_iff.mp he
        obtain ⟨as, bs, rfl, -, hbelow⟩ := hsplit x (hs x rfl)
        obtain ⟨-, hxs, hax⟩ := List.pairwise_append.mp h.sorted
        have hprev : (s.findLessThan compare_ (s.key x)).bind notHead = as.reverse.head? := by
          rw [findLessThan_spec hc h (fun a ha => hax a ha x List.mem_cons_self) fun b hb => by
            rcases List.mem_cons.mp hb with rfl | hb
            · exact le_refl _
            · exact ((List.pairwise_cons.mp hxs).1 b hb).le]
          exact notHead_getLastD h fun a ha => List.mem_append_left _ ha
        refine ⟨fun y hy => ?_, ?_⟩
        · have hy' : (s.findLessThan compare_ (s.key x)).bind notHead = some y := hy
          rw [hprev] at hy'
          exact List.mem_append_left _ (List.mem_reverse.mp (List.mem_of_head? hy'))
        · exact (congrArg (Option.map fun x => (s.key x, ())) hprev).trans hbelow.symm }

end SkipList

/-! ## `MemTableIterator` -/

namespace MemTable

/-- `EncodeKey` -/
def encodeKey (target : Bytes) : Bytes := encodeVarint32 (.ofNat target.length) ++ target

/-- `MemTableIterator`: the state is that of the skip list's iterator. -/
def iterator (m : MemTable) : Cursor (Option ℕ) Bytes Bytes :=
  (m.table_.iterator entryCompare).map
    (fun e => ((memSlice e.1).1, (memSlice (memSlice e.1).2).1)) encodeKey

/-- A key whose length the encoding of a target holds. -/
def TargetFits (key : Bytes) : Prop := key.length < 2 ^ 32

theorem entryRank_encodeKey {target : Bytes} (h : TargetFits target) :
    entryRank (encodeKey target) = internalRank target := by
  have hslice := memSlice_encode h []
  rw [List.append_nil] at hslice
  rw [entryRank, encodeKey, hslice]

/-- The iterator of a memtable moves over the versions of its updates. -/
theorem walks {m : MemTable} {base : ℕ} {us : List (Bytes × Option Bytes)} (h : m.Holds base us)
    (hf : ∀ u ∈ us, Fits u) (hb : base + us.length ≤ 2 ^ 56) :
    ∃ (vs : List DBIter.Version) (Good : Option ℕ → Prop), DBIter.Versions vs ∧
      vs.Perm (us.zipIdx base) ∧
      (iterator m).Walks internalRank (vs.map DBIter.encoded) TargetFits Good ∧ Good none := by
  obtain ⟨order, vs, hi, hkeys, hp⟩ := h
  have hwalks := SkipList.walks entryRanks hi
  have hfit := fun v hv => version_fits hp hf hb (v := v) hv
  refine ⟨vs, fun node_ => ∀ x ∈ node_, x ∈ order,
    ⟨versions_sorted hi hkeys hp hf hb, fun v hv => (hfit v hv).2.2.2⟩, hp, ?_, nofun⟩
  -- the slices of an entry are its internal key and its value
  have hslices : ∀ v ∈ vs, ((memSlice (entryOf v)).1, (memSlice (memSlice (entryOf v)).2).1)
      = DBIter.encoded v := by
    intro v hv
    obtain ⟨hkey, hvalue⟩ := memSlice_entryOf (hfit v hv).1
    rw [hkey, hvalue]
    rfl
  have hentries : (m.table_.entries order).map
      (fun e => ((memSlice e.1).1, (memSlice (memSlice e.1).2).1)) = vs.map DBIter.encoded := by
    have hmap : (m.table_.entries order).map
        (fun e => ((memSlice e.1).1, (memSlice (memSlice e.1).2).1))
          = (order.map m.table_.key).map
              fun e => ((memSlice e).1, (memSlice (memSlice e).2).1) := by
      rw [SkipList.entries, List.map_map, List.map_map]
      rfl
    rw [hmap, hkeys, List.map_map]
    exact List.map_congr_left hslices
  rw [← hentries]
  refine hwalks.map (fun x hx => ⟨rfl, ?_⟩) fun t ht => ⟨trivial, entryRank_encodeKey ht⟩
  obtain ⟨y, hy, rfl⟩ := List.mem_map.mp hx
  have hmem : m.table_.key y ∈ vs.map entryOf := hkeys ▸ List.mem_map_of_mem hy
  obtain ⟨v, hv, hve⟩ := List.mem_map.mp hmem
  have hlen := (hfit v hv).1.1
  dsimp only
  rw [← hve, (memSlice_entryOf (hfit v hv).1).1, TargetFits, List.length_append,
    length_encodeFixed64]
  exact hlen

end MemTable

end LevelDb

end Tablefs
