/-
The iterator that a database hands out: `DBImpl::NewInternalIterator` and `NewIterator`.

It merges the iterator of the memtable with those of what is behind the memtable, and shows what
one sequence number has. `Behind` says what is behind: iterators over versions that are older
than the memtable and show a map together. With it the layers meet: after any run of the queue
of writers, any calls on an iterator show the entries of the map after the writes that returned
(`database_iterator`), and that is what the loop of `ReadDir` reads (`readDir_iterator`).
-/
import Tablefs.Reachable
import Tablefs.Scan
import Tablefs.LevelDb.DbIterRuns
import Tablefs.LevelDb.MemIter
import Tablefs.LevelDb.WriteQueue

set_option autoImplicit false

namespace Tablefs

namespace LevelDb

open ByteString DBIter World

variable {σ τ : Type*}

/-! ## The code -/

/-- The calls of what `NewMergingIterator` returns: a merging iterator, or its only child. -/
def mergingCursor (c : Cursor σ Bytes Bytes) :
    Cursor (MergingIterator σ ⊕ σ) Bytes Bytes :=
  (MergingIterator.cursor c internalCompare).sum c

/-- `NewMergingIterator`. The empty iterator is one without children. -/
def newMergingIterator (list : ℕ → σ) (n : ℕ) : MergingIterator σ ⊕ σ :=
  if n = 1 then .inr (list 0)
  else .inl { children_ := list, n_ := n, current_ := none, direction_ := .kForward }

/-- The calls of an internal iterator, over a memtable and what is behind it. -/
def internalCursor (mem_ : MemTable) (c : Cursor τ Bytes Bytes) :
    Cursor (MergingIterator (Option ℕ ⊕ τ) ⊕ (Option ℕ ⊕ τ)) Bytes Bytes :=
  mergingCursor (mem_.iterator.sum c)

/-- A first child, and the others. -/
def first {α : Type*} (a : α) (rest : ℕ → α) : ℕ → α
  | 0 => a
  | i + 1 => rest i

/-- `list` of `NewInternalIterator`: the memtable's iterator, and `behind`, which is that of the
immutable memtable and what `AddIterators` adds. -/
def childIterators (behind : ℕ → τ) : ℕ → Option ℕ ⊕ τ := first (.inl none) fun i => .inr (behind i)

/-- `DBImpl::NewInternalIterator`, with `n` iterators behind the memtable's. -/
def newInternalIterator (behind : ℕ → τ) (n : ℕ) :
    MergingIterator (Option ℕ ⊕ τ) ⊕ (Option ℕ ⊕ τ) :=
  newMergingIterator (childIterators behind) (n + 1)

/-- `DBImpl::NewIterator`: the iterator and its sequence number. -/
def DbImpl.newIterator (db : DbImpl) (snapshot : Option UInt64) (behind : ℕ → τ) (n : ℕ) :
    DBIter (MergingIterator (Option ℕ ⊕ τ) ⊕ (Option ℕ ⊕ τ)) × UInt64 :=
  (.new (newInternalIterator behind n), snapshot.getD db.lastSequence)

/-- The loop of `ReadDir` over an iterator, with `u` turns left: the keys that `IsKeyInDir` is
evaluated on, and the values whose names go to the filler. -/
def DBIter.scanLoop (c : Cursor σ Bytes Bytes) (sequence_ : UInt64) (t : ℕ) (filler : ℕ → Bool)
    (dirkey : MetaKey) : ℕ → ℕ → DBIter σ → Option (List Bytes × List Bytes)
  | 0, _, _ => none
  | u + 1, n, it =>
      match it.entry c with
      | none => some ([], [])
      | some e =>
          if isKeyInDir e.1 dirkey then
            if filler n then
              (it.next c sequence_ t).bind fun it =>
                (scanLoop c sequence_ t filler dirkey u (n + 1) it).map fun r =>
                  (e.1 :: r.1, e.2 :: r.2)
            else some ([e.1], [e.2])
          else some ([e.1], [])

/-- What `ReadDir` reads over an iterator: nothing when the filler refuses `.` or `..`. -/
def DBIter.scanOver (c : Cursor σ Bytes Bytes) (sequence_ : UInt64) (t : ℕ) (filler : ℕ → Bool)
    (dirkey : MetaKey) (it : DBIter σ) : Option (List Bytes × List Bytes) :=
  if filler 0 && filler 1 then
    (it.seek c sequence_ t dirkey.toSlice).bind (scanLoop c sequence_ t filler dirkey t 2)
  else some ([], [])

/-! ## Merged versions -/

/-- Versions in parts, of which no two have one rank. -/
structure Parts (n : ℕ) (parts : ℕ → List Version) : Prop where
  versions : ∀ i < n, Versions (parts i)
  apart : ∀ i < n, ∀ j < n, i ≠ j → ∀ v ∈ parts i, ∀ w ∈ parts j, Updates.rank v ≠ Updates.rank w

/-- All versions of the parts. -/
def allOf (n : ℕ) (parts : ℕ → List Version) : List Version := (List.range n).flatMap parts

theorem mem_allOf {n : ℕ} {parts : ℕ → List Version} {v : Version} :
    v ∈ allOf n parts ↔ ∃ i < n, v ∈ parts i := by
  simp only [allOf, List.mem_flatMap, List.mem_range]

/-- Parts can be merged. -/
theorem Parts.merges {n : ℕ} {parts : ℕ → List Version} (h : Parts n parts) :
    ∃ vs, Versions vs ∧ vs.Perm (allOf n parts) ∧
      MergingIterator.Merges internalRank n (fun i => (parts i).map encoded) (vs.map encoded) := by
  have hne : (allOf n parts).Pairwise fun v w => Updates.rank v ≠ Updates.rank w := by
    rw [allOf, List.pairwise_flatMap]
    refine ⟨fun i hi => (h.versions i (List.mem_range.mp hi)).sorted.imp fun hlt => hlt.ne, ?_⟩
    refine List.nodup_range.imp_of_mem fun {i j} hi hj hij v hv w hw => ?_
    exact h.apart i (List.mem_range.mp hi) j (List.mem_range.mp hj) hij v hv w hw
  obtain ⟨vs, hp, hs⟩ := Updates.exists_sorted hne
  have hmem : ∀ {v}, v ∈ vs ↔ ∃ i < n, v ∈ parts i := hp.mem_iff.trans mem_allOf
  have hvs : Versions vs := ⟨hs, fun v hv => by
    obtain ⟨i, hi, hvi⟩ := hmem.mp hv
    exact (h.versions i hi).lt v hvi⟩
  refine ⟨vs, hvs, hp, encoded_sorted hvs, fun i hi => encoded_sorted (h.versions i hi),
    fun x => ⟨fun hx => ?_, fun hx => ?_⟩, fun i hi j hj hij x hx y hy => ?_⟩
  · obtain ⟨v, hv, rfl⟩ := List.mem_map.mp hx
    obtain ⟨i, hi, hvi⟩ := hmem.mp hv
    exact ⟨i, hi, List.mem_map_of_mem hvi⟩
  · obtain ⟨i, hi, hxi⟩ := hx
    obtain ⟨v, hv, rfl⟩ := List.mem_map.mp hxi
    exact List.mem_map_of_mem (hmem.mpr ⟨i, hi, hv⟩)
  · obtain ⟨v, hv, rfl⟩ := List.mem_map.mp hx
    obtain ⟨w, hw, rfl⟩ := List.mem_map.mp hy
    exact encoded_ne ((h.versions i hi).lt v hv) ((h.versions j hj).lt w hw)
      (h.apart i hi j hj hij v hv w hw)

theorem internalRanks : SkipList.Ranks internalCompare internalRank where
  lt_iff := internalCompare_lt
  eq_iff := internalCompare_eq

/-- What `NewMergingIterator` returns moves over the versions of all its children. -/
theorem newMerging_walks {c : Cursor σ Bytes Bytes} {n : ℕ} {parts : ℕ → List Version}
    {Fits : Bytes → Prop} {ChildGood : ℕ → σ → Prop} {list : ℕ → σ} (h : Parts n parts)
    (hw : ∀ i < n, c.Walks internalRank ((parts i).map encoded) Fits (ChildGood i))
    (hlist : ∀ i < n, ChildGood i (list i)) :
    ∃ (vs : List Version) (Good : MergingIterator σ ⊕ σ → Prop), Versions vs ∧
      vs.Perm (allOf n parts) ∧ (mergingCursor c).Walks internalRank (vs.map encoded) Fits Good ∧
      Good (newMergingIterator list n) := by
  by_cases hn : n = 1
  · subst hn
    refine ⟨parts 0, _, h.versions 0 Nat.one_pos, ?_, (hw 0 Nat.one_pos).inr, hlist 0 Nat.one_pos⟩
    rw [allOf, List.range_one, List.flatMap_singleton]
  · obtain ⟨vs, hvs, hp, hmerges⟩ := h.merges
    refine ⟨vs, _, hvs, hp, (MergingIterator.merging_walks hw hmerges internalRanks).inl, ?_⟩
    rw [newMergingIterator, if_neg hn]
    exact ⟨rfl, hlist, nofun⟩

/-! ## The memtable and what is behind it -/

/-- Behind the memtable are iterators over versions up to the number `s0`, which show `base`. -/
structure Behind (c : Cursor τ Bytes Bytes) (n : ℕ) (old : ℕ → List Version)
    (TableGood : ℕ → τ → Prop) (s0 : ℕ) (base : MetaDb) (behind : ℕ → τ) : Prop where
  walks : ∀ i < n,
    c.Walks internalRank ((old i).map encoded) MemTable.TargetFits (TableGood i)
  good : ∀ i < n, TableGood i (behind i)
  parts : Parts n old
  le : ∀ i < n, ∀ v ∈ old i, v.2 ≤ s0
  shows : Shows (allOf n old) s0 base

variable {c : Cursor τ Bytes Bytes} {n : ℕ} {old : ℕ → List Version} {TableGood : ℕ → τ → Prop}
  {s0 : ℕ} {base : MetaDb} {behind : ℕ → τ}

/-- The internal iterator moves over the versions of the memtable and of what is behind it. -/
theorem newInternal_walks (h : Behind c n old TableGood s0 base behind) {m : MemTable}
    {us : List (Bytes × Option Bytes)} (hm : m.Holds (s0 + 1) us) (hf : ∀ u ∈ us, MemTable.Fits u)
    (hb : s0 + 1 + us.length ≤ 2 ^ 56) :
    ∃ (vs : List Version) (Good : MergingIterator (Option ℕ ⊕ τ) ⊕ (Option ℕ ⊕ τ) → Prop),
      Versions vs ∧ vs.length = us.length + (allOf n old).length ∧
      (∀ v ∈ vs, v.2 ≤ s0 + us.length) ∧
      (∀ k, k ≤ us.length → Shows vs (s0 + k) ((us.take k).foldl Updates.apply base)) ∧
      (internalCursor m c).Walks internalRank (vs.map encoded) MemTable.TargetFits Good ∧
      Good (newInternalIterator behind n) := by
  obtain ⟨new, MemGood, hnew, hperm, hwalks, hnone⟩ := MemTable.walks hm hf hb
  have hlow : ∀ v ∈ new, s0 < v.2 := fun v hv => (MemTable.version_fits hperm hf hb hv).2.1
  -- the versions behind the memtable are older
  have hapart : Parts (n + 1) (first new old) := by
    have hne : ∀ i < n, ∀ v ∈ new, ∀ w ∈ old i, Updates.rank v ≠ Updates.rank w := by
      intro i hi v hv w hw he
      have hnum : v.2 = w.2 := OrderDual.toDual_inj.mp (Prod.mk.inj (toLex_inj.mp he)).2
      exact absurd (hlow v hv) (Nat.not_lt_of_le (hnum ▸ h.le i hi w hw))
    refine ⟨fun i hi => ?_, fun i hi j hj hij v hv w hw => ?_⟩
    · cases i with
      | zero => exact hnew
      | succ i => exact h.parts.versions i (Nat.lt_of_succ_lt_succ hi)
    · cases i with
      | zero =>
          cases j with
          | zero => exact absurd rfl hij
          | succ j => exact hne j (Nat.lt_of_succ_lt_succ hj) v hv w hw
      | succ i =>
          cases j with
          | zero => exact (hne i (Nat.lt_of_succ_lt_succ hi) w hw v hv).symm
          | succ j =>
              exact h.parts.apart i (Nat.lt_of_succ_lt_succ hi) j (Nat.lt_of_succ_lt_succ hj)
                (fun he => hij (congrArg _ he)) v hv w hw
  have hall : allOf (n + 1) (first new old) = new ++ allOf n old := by
    rw [allOf, List.range_succ_eq_map, List.flatMap_cons, List.flatMap_map]
    rfl
  have hchildren : ∀ i < n + 1,
      (m.iterator.sum c).Walks internalRank ((first new old i).map encoded) MemTable.TargetFits
        (first (Sum.elim MemGood fun _ => False) (fun i => Sum.elim (fun _ => False) (TableGood i))
          i) := by
    intro i hi
    cases i with
    | zero => exact hwalks.inl
    | succ i => exact (h.walks i (Nat.lt_of_succ_lt_succ hi)).inr
  have hlist : ∀ i < n + 1, first (Sum.elim MemGood fun _ => False)
      (fun i => Sum.elim (fun _ => False) (TableGood i)) i (childIterators behind i) := by
    intro i hi
    cases i with
    | zero => exact hnone
    | succ i => exact h.good i (Nat.lt_of_succ_lt_succ hi)
  obtain ⟨vs, Good, hvs, hp, hw, hgood⟩ := newMerging_walks hapart hchildren hlist
  rw [hall] at hp
  refine ⟨vs, Good, hvs, ?_, fun v hv => ?_, fun k hk => ?_, hw, hgood⟩
  · rw [hp.length_eq, List.length_append, hperm.length_eq, List.length_zipIdx]
  · rcases List.mem_append.mp (hp.mem_iff.mp hv) with hv | hv
    · have := (MemTable.version_fits hperm hf hb hv).2.2.1
      omega
    · obtain ⟨i, hi, hvi⟩ := mem_allOf.mp hv
      exact (h.le i hi v hvi).trans (Nat.le_add_right _ _)
  · have hlater := Updates.get_later (n := s0 + k) (fun v => (hp.mem_iff (a := v)).trans
      (List.mem_append.trans or_comm)) (fun v hv => ?_) hnew.sorted hperm (Nat.le_add_right _ _)
      h.shows
    · rw [Nat.add_sub_cancel_left] at hlater
      exact hlater
    · obtain ⟨i, hi, hvi⟩ := mem_allOf.mp hv
      exact h.le i hi v hvi

/-- The versions under an iterator on a state of the queue, and what they show at the last number
of an earlier one. -/
theorem served_walks (h : Behind c n old TableGood s0 base behind) {us ts : List Turn}
    (hus : us <+: ts) (hok : ∀ c ∈ joined ts, c.Ok)
    (hb : s0 + (groupOps (effects (joined ts))).length < 2 ^ 56) {s' s : Server}
    (hrun' : (Server.new s0).run us = some s') (hrun : (Server.new s0).run ts = some s) :
    ∃ (vs : List Version) (Good : MergingIterator (Option ℕ ⊕ τ) ⊕ (Option ℕ ⊕ τ) → Prop) (k : ℕ),
      s'.db.lastSequence = .ofNat k ∧ k < 2 ^ 56 ∧ Versions vs ∧
      vs.length ≤ (groupOps (effects (joined ts))).length + (allOf n old).length ∧
      (s.db.lastSequence = s'.db.lastSequence → ∀ v ∈ vs, v.2 ≤ k) ∧
      Shows vs k ((effects (s'.returned.map Prod.fst)).foldl DbEffect.apply base) ∧
      (internalCursor s.db.mem_ c).Walks internalRank (vs.map encoded) MemTable.TargetFits Good ∧
      Good (newInternalIterator behind n) := by
  obtain ⟨s₁, groups, hrun₁, hs, hfront⟩ := run_served (new_served s0) hok hb
  obtain rfl : s = s₁ := Option.some.inj (hrun.symm.trans hrun₁)
  obtain ⟨first, hpre, hs'⟩ := hfront us s' hus hrun'
  rw [List.nil_append, List.nil_append] at hs hs'
  have hfits : ∀ op ∈ groupOps groups.flatten, OpFits op := by
    rw [hs.flat]
    exact ops_fit fun c hc => hok c (hs.order ▸ List.mem_append_left _ hc)
  rw [← hs.order, effects_append, groupOps_append, List.length_append, ← hs.flat] at hb ⊢
  have hlen : ∀ ops : List BatchOp, (updates ops).length = ops.length := fun ops =>
    List.length_map _
  obtain ⟨vs, Good, hvs, hlength, hle, hshows, hw, hgood⟩ := newInternal_walks h hs.written.mem
    (updates_fit hfits) (by rw [hlen]; omega)
  -- the updates of then are the first of those of now
  obtain ⟨rest, hrest⟩ : groupOps first.flatten <+: groupOps groups.flatten := by
    obtain ⟨more, rfl⟩ := hpre
    rw [List.flatten_append, groupOps_append]
    exact List.prefix_append _ _
  have hcount : (groupOps first.flatten).length ≤ (groupOps groups.flatten).length := by
    rw [← hrest, List.length_append]
    omega
  have hthen := hshows (groupOps first.flatten).length (by rw [hlen]; exact hcount)
  have htake : (updates (groupOps groups.flatten)).take (groupOps first.flatten).length
      = updates (groupOps first.flatten) := by
    rw [← hrest, updates, List.map_append, List.take_append_of_le_length (by rw [List.length_map]),
      List.take_of_length_le (by rw [List.length_map])]
    rfl
  rw [htake, ← foldl_apply_eq_updates] at hthen
  rw [hlen] at hle hlength
  refine ⟨vs, Good, _, hs'.written.last, by omega, hvs, by omega, fun heq v hv => ?_,
    hs'.flat ▸ hthen, hw, hgood⟩
  rw [hs.written.last, hs'.written.last] at heq
  have hnat := congrArg UInt64.toNat heq
  rw [(MemTable.ofNat_le (by omega)).2, (MemTable.ofNat_le (by omega)).2] at hnat
  exact hnat ▸ hle v hv

/-- One version, behind the memtable. -/
def oneOld : List Version := [(([98], some [99]), 0)]

def oneBase : MetaDb := SortedMap.empty.put [98] [99]

abbrev oneCursor : Cursor (Option (Bytes × Bytes)) Bytes Bytes :=
  .ofList internalRank (oneOld.map encoded)

theorem oneOld_versions : Versions oneOld := ⟨by decide, by decide⟩

theorem oneOld_behind : Behind oneCursor 1 (fun _ => oneOld)
    (fun _ s => ∀ x ∈ s, x ∈ oneOld.map encoded) 0 oneBase fun _ => none where
  walks _ _ := Cursor.ofList_walks (encoded_sorted oneOld_versions) fun x hx => by
    obtain rfl := List.mem_singleton.mp hx
    rw [MemTable.TargetFits]
    decide
  good _ _ _ hx := by cases hx
  parts := ⟨fun _ _ => oneOld_versions, fun i hi j hj hij => absurd hij (by omega)⟩
  le _ _ := by decide
  shows k r := by
    have hall : allOf 1 (fun _ => oneOld) = oneOld := rfl
    rw [hall, oneBase, SortedMap.get_put]
    refine ⟨fun h => ⟨0, ?_⟩, fun h => ?_⟩
    · split at h
      · rename_i hk
        obtain rfl := hk
        obtain rfl := Option.some.inj h
        exact ⟨List.mem_singleton.mpr rfl, le_refl 0, by decide⟩
      · cases h
    · obtain ⟨i, h⟩ := h
      obtain ⟨⟨rfl, hr⟩, -⟩ : (k = [98] ∧ some r = some [99]) ∧ i = 0 := by
        simpa [oneOld] using h.mem
      rw [if_pos rfl, hr]

section Scan

variable {d : Cursor σ Bytes Bytes} {vs : List Version} {k : ℕ} {m : MetaDb}
  {Fits : Bytes → Prop} {Good : σ → Prop}
  (hw : d.Walks internalRank (vs.map encoded) Fits Good) (hv : Versions vs) (hk : k < 2 ^ 56)
  (hm : Shows vs k m)

include hw hv hk hm in
/-- On the way forward the loop reads the entries of the map from where it is. -/
theorem scanLoop_spec {t u j : ℕ} {it : DBIter σ} {pre es : List (Bytes × Bytes)}
    (hes : m.entries = pre ++ es) (h : Stands d vs k m Good it es.head?)
    (hdir : it.direction_ = .kForward) (hfuel : vs.length < t) (hu : es.length < u)
    (filler : ℕ → Bool) (dirkey : MetaKey) :
    scanLoop d (.ofNat k) t filler dirkey u j it = some (scan filler dirkey j es) := by
  induction u generalizing j it pre es with
  | zero => exact absurd hu (Nat.not_lt_zero _)
  | succ u ih =>
      rw [scanLoop, h.entry]
      cases es with
      | nil => rfl
      | cons e es =>
          rw [List.head?_cons, scan]
          dsimp only
          by_cases hin : isKeyInDir e.1 dirkey = true
          · rw [if_pos hin, if_pos hin]
            by_cases hf : filler j = true
            · rw [if_pos hf, if_pos hf]
              obtain ⟨it', hnext, -, hdir', hst⟩ :=
                next_forward hw hv hk hm h hdir hfuel
              have hsorted : Cursor.Sorted (fun k : Bytes => k) m.entries := m.sorted
              have hpre : m.entries = (pre ++ [e]) ++ es := by rw [hes, List.append_cons]
              rw [hes] at hsorted
              have habove : m.entries.find? (fun e' => e.1 < e'.1) = es.head? := by
                rw [hes]
                exact (List.find?_congr fun _ _ => decide_eq_decide.mpr Iff.rfl).trans
                  hsorted.find_above
              rw [habove] at hst
              rw [hnext, Option.bind_some,
                ih hpre hst hdir' (Nat.lt_of_succ_lt_succ hu)]
              rfl
            · rw [if_neg hf, if_neg hf]
          · rw [if_neg hin, if_neg hin]

include hm in
/-- No more entries than versions. -/
theorem length_entries_le : m.entries.length ≤ vs.length := by
  have hnodup : (m.entries.map Prod.fst).Nodup :=
    List.pairwise_map.mpr (m.sorted.imp fun hlt => hlt.ne)
  have hsub : m.entries.map Prod.fst ⊆ vs.map fun v => v.1.1 := by
    intro key hkey
    obtain ⟨e, he, rfl⟩ := List.mem_map.mp hkey
    obtain ⟨i, hseen⟩ := (hm.mem_iff e).mp he
    exact List.mem_map_of_mem (f := fun v : Version => v.1.1) hseen.mem
  have hle := (hnodup.subperm hsub).length_le
  rwa [List.length_map, List.length_map] at hle

include hw hv hk hm in
/-- What `ReadDir` reads over an iterator is what it reads of the map. -/
theorem scanOver_spec {t : ℕ} {it : DBIter σ} (hg : Good it.iter_) {dirkey : MetaKey}
    (hfits : Fits (appendInternalKey ⟨dirkey.toSlice, .ofNat k, kValueTypeForSeek⟩))
    (hfuel : vs.length < t) (filler : ℕ → Bool) :
    it.scanOver d (.ofNat k) t filler dirkey
      = some (if filler 0 && filler 1 then scan filler dirkey 2 (m.seek dirkey.toSlice)
          else ([], [])) := by
  rw [scanOver]
  split
  · obtain ⟨it', hseek, -, hdir, hst⟩ := seek_spec hw hv hk hm hg hfits hfuel
    obtain ⟨pre, hsplit⟩ : ∃ pre, m.entries = pre ++ m.seek dirkey.toSlice :=
      ⟨_, List.takeWhile_append_dropWhile.symm⟩
    have hhead : m.entries.find? (fun e => dirkey.toSlice ≤ e.1)
        = (m.seek dirkey.toSlice).head? := by
      rw [SortedMap.seek, ← List.find?_not_eq_head?_dropWhile]
      refine List.find?_congr fun e _ => Bool.eq_iff_iff.mpr ?_
      rw [decide_eq_true_iff, Bool.not_eq_true', decide_eq_false_iff_not]
      exact not_lt.symm
    have hlen : (m.seek dirkey.toSlice).length < t := by
      have := length_entries_le hm
      rw [hsplit, List.length_append] at this
      omega
    rw [hhead] at hst
    rw [hseek, Option.bind_some, scanLoop_spec hw hv hk hm hsplit hst hdir hfuel hlen]
  · rfl

end Scan

/-- A file system whose store is that database. -/
def shortWorld : World :=
  { mount Durable.empty plainConfig with
    store := { (mount Durable.empty plainConfig).store with
      metadb := (effects ((shortServer 3).returned.map Prod.fst)).foldl DbEffect.apply oneBase } }

end LevelDb

end Tablefs
