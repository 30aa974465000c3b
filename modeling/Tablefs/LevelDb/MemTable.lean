/-
The memtable of `db/memtable.cc`: encoded entries in a skip list.

`Holds` says what a memtable is for: it has the entries of a list of operations, each with its
sequence number. `Get` at a snapshot is then the last operation on the key that the snapshot has
(`get_spec`), whatever else was added and in whatever order.
-/
import Tablefs.Lib.Updates
import Tablefs.LevelDb.Format
import Tablefs.LevelDb.SkipList

set_option autoImplicit false

namespace Tablefs

namespace LevelDb

open ByteString

/-- `GetLengthPrefixedSlice` of the bytes at a pointer: the slice, and what is behind it. -/
def memSlice (data : Bytes) : Bytes × Bytes :=
  match getVarint32Ptr data with
  | some (len, p) => (p.take len.toNat, p.drop len.toNat)
  | none => ([], [])

/-- `MemTable::KeyComparator` -/
def entryCompare (aptr bptr : Bytes) : ℤ := internalCompare (memSlice aptr).1 (memSlice bptr).1

/-- `MemTable`: the skip list of pointers to entries. -/
structure MemTable where
  table_ : SkipList Bytes

namespace MemTable

/-- `MemTable::MemTable` -/
def new : MemTable := ⟨SkipList.new⟩

/-- The entry that `Add` formats. -/
def entry (s : UInt64) (type : ValueType) (key value : Bytes) : Bytes :=
  encodeVarint32 (.ofNat (key.length + 8)) ++
    (key ++ encodeFixed64 ((s <<< 8) ||| type.code.toUInt64) ++
      (encodeVarint32 (.ofNat value.length) ++ value))

/-- `Add`, where `prev` is what the array in `Insert` holds at first. -/
def add (m : MemTable) (prev : ℕ → ℕ) (s : UInt64) (type : ValueType) (key value : Bytes) :
    Option MemTable :=
  (m.table_.insert entryCompare prev (entry s type key value)).map fun t => ⟨t⟩

/-- `Get`: nothing, or the value, or `NotFound` for a deletion. -/
def get (m : MemTable) (user_key : Bytes) (s : UInt64) : Option (Option (Except Status Bytes)) :=
  (m.table_.findGreaterOrEqual entryCompare (memtableKey user_key s) id).map fun r =>
    match r.1 with
    | none => none
    | some node =>
        let entry := m.table_.key node
        let key := (memSlice entry).1
        if sliceCompare (key.take (key.length - 8)) user_key = 0 then
          let tag := decodeFixed64 (key.drop (key.length - 8))
          match ValueType.ofCode (tag &&& 0xff).toUInt8 with
          | some .kTypeValue => some (.ok (memSlice (memSlice entry).2).1)
          | some .kTypeDeletion => some (.error .notFound)
          | none => none
        else none

/-! ## Entries -/

/-- The update that an operation of a batch is. -/
def opUpdate : BatchOp → Bytes × Option Bytes
  | .put key value => (key, some value)
  | .delete key => (key, none)

/-- The type of an update. -/
def updateType (u : Bytes × Option Bytes) : ValueType :=
  if u.2.isSome then .kTypeValue else .kTypeDeletion

/-- The lengths of an entry fit their 32 bits. -/
def Fits (u : Bytes × Option Bytes) : Prop :=
  u.1.length + 8 < 2 ^ 32 ∧ (u.2.getD []).length < 2 ^ 32

/-- The entry of an update with its number. -/
def entryOf (v : (Bytes × Option Bytes) × ℕ) : Bytes :=
  entry (.ofNat v.2) (updateType v.1) v.1.1 (v.1.2.getD [])

/-- What entries are ordered by. -/
def entryRank (e : Bytes) : InternalOrder := internalRank (memSlice e).1

theorem entryRanks : SkipList.Ranks entryCompare entryRank where
  lt_iff _ _ := internalCompare_lt _ _
  eq_iff _ _ := internalCompare_eq _ _

theorem memSlice_encode {bs : Bytes} (h : bs.length < 2 ^ 32) (rest : Bytes) :
    memSlice (encodeVarint32 (.ofNat bs.length) ++ (bs ++ rest)) = (bs, rest) := by
  have hlen : (UInt32.ofNat bs.length).toNat = bs.length := by
    rw [UInt32.toNat_ofNat']
    omega
  rw [memSlice, getVarint32Ptr_encode]
  dsimp only
  rw [hlen, List.take_left, List.drop_left]

/-- Key and value of an entry. -/
theorem memSlice_entryOf {v : (Bytes × Option Bytes) × ℕ} (h : Fits v.1) :
    (memSlice (entryOf v)).1
        = v.1.1 ++ encodeFixed64 (packSequenceAndType (.ofNat v.2) (updateType v.1)) ∧
      (memSlice (memSlice (entryOf v)).2).1 = v.1.2.getD [] := by
  have hlen : (v.1.1 ++ encodeFixed64 (packSequenceAndType (.ofNat v.2) (updateType v.1))).length
      = v.1.1.length + 8 := by
    rw [List.length_append, length_encodeFixed64]
  have hkey := memSlice_encode (show (v.1.1 ++
    encodeFixed64 (packSequenceAndType (.ofNat v.2) (updateType v.1))).length < 2 ^ 32 from
      hlen ▸ h.1)
    (encodeVarint32 (.ofNat (v.1.2.getD []).length) ++ v.1.2.getD [])
  have hvalue := memSlice_encode h.2 []
  rw [hlen] at hkey
  rw [List.append_nil] at hvalue
  have hentry : memSlice (entryOf v)
      = (v.1.1 ++ encodeFixed64 (packSequenceAndType (.ofNat v.2) (updateType v.1)),
        encodeVarint32 (.ofNat (v.1.2.getD []).length) ++ v.1.2.getD []) := hkey
  rw [hentry]
  exact ⟨rfl, congrArg Prod.fst hvalue⟩

theorem code_le (t : ValueType) : t.code.toNat ≤ 1 := by cases t <;> decide

theorem ofNat_le {n : ℕ} (h : n < 2 ^ 56) :
    UInt64.ofNat n ≤ kMaxSequenceNumber ∧ (UInt64.ofNat n).toNat = n := by
  have hn : (UInt64.ofNat n).toNat = n := by
    rw [UInt64.toNat_ofNat']
    omega
  refine ⟨UInt64.le_iff_toNat_le.mpr ?_, hn⟩
  have hmax : kMaxSequenceNumber.toNat = 2 ^ 56 - 1 := rfl
  omega

theorem entryRank_entryOf {v : (Bytes × Option Bytes) × ℕ} (h : Fits v.1) (hn : v.2 < 2 ^ 56) :
    entryRank (entryOf v)
      = toLex (v.1.1, OrderDual.toDual (v.2 * 256 + (updateType v.1).code.toNat)) := by
  obtain ⟨hle, hnat⟩ := ofNat_le hn
  rw [entryRank, (memSlice_entryOf h).1, internalRank_append, toNat_packSequenceAndType hle, hnat]

theorem entryRank_memtableKey {key : Bytes} (h : key.length + 8 < 2 ^ 32) {n : ℕ}
    (hn : n < 2 ^ 56) :
    entryRank (memtableKey key (.ofNat n)) = toLex (key, OrderDual.toDual (n * 256 + 1)) := by
  obtain ⟨hle, hnat⟩ := ofNat_le hn
  have hlen : (key ++ encodeFixed64 (packSequenceAndType (.ofNat n) kValueTypeForSeek)).length
      = key.length + 8 := by
    rw [List.length_append, length_encodeFixed64]
  have hkey := memSlice_encode (show (key ++
    encodeFixed64 (packSequenceAndType (.ofNat n) kValueTypeForSeek)).length < 2 ^ 32 from
      hlen ▸ h) []
  rw [hlen, List.append_nil] at hkey
  rw [entryRank, memtableKey, hkey, internalRank_append, toNat_packSequenceAndType hle, hnat]
  rfl

/-- The entries below a key of a search are the versions below it. -/
theorem entryRank_lt_iff {v : (Bytes × Option Bytes) × ℕ} (h : Fits v.1) (hv : v.2 < 2 ^ 56)
    {key : Bytes} (hkey : key.length + 8 < 2 ^ 32) {n : ℕ} (hn : n < 2 ^ 56) :
    entryRank (entryOf v) < entryRank (memtableKey key (.ofNat n)) ↔
      Updates.rank v < toLex (key, OrderDual.toDual n) := by
  have hcode := code_le (updateType v.1)
  rw [entryRank_entryOf h hv, entryRank_memtableKey hkey hn, Updates.rank_lt_iff,
    Prod.Lex.toLex_lt_toLex, OrderDual.toDual_lt_toDual]
  dsimp only
  refine or_congr_right (and_congr_right fun _ => ?_)
  omega

/-! ## What a memtable holds -/

/-- The memtable has the updates `us`, numbered from `base`. -/
def Holds (m : MemTable) (base : ℕ) (us : List (Bytes × Option Bytes)) : Prop :=
  ∃ (order : List ℕ) (vs : List ((Bytes × Option Bytes) × ℕ)),
    SkipList.Inv entryRank m.table_ order ∧ order.map m.table_.key = vs.map entryOf ∧
      vs.Perm (us.zipIdx base)

theorem new_holds (base : ℕ) : new.Holds base [] :=
  ⟨[], [], SkipList.new_inv entryRank, rfl, List.Perm.refl _⟩

section Holds

variable {m : MemTable} {base : ℕ} {us : List (Bytes × Option Bytes)}

/-- Versions of a history that can be encoded. -/
theorem version_fits {vs : List ((Bytes × Option Bytes) × ℕ)} (hp : vs.Perm (us.zipIdx base))
    (hf : ∀ u ∈ us, Fits u) (hb : base + us.length ≤ 2 ^ 56) {v : (Bytes × Option Bytes) × ℕ}
    (hv : v ∈ vs) : Fits v.1 ∧ base ≤ v.2 ∧ v.2 < base + us.length ∧ v.2 < 2 ^ 56 := by
  obtain ⟨hle, hget⟩ := List.mem_zipIdx_iff_le_and_getElem?_sub.mp (hp.mem_iff.mp hv)
  have hlt := (List.getElem?_eq_some_iff.mp hget).1
  exact ⟨hf _ (List.mem_of_getElem? hget), hle, by omega, by omega⟩

/-- The versions are in the order of the entries. -/
theorem versions_sorted {order : List ℕ} {vs : List ((Bytes × Option Bytes) × ℕ)}
    (hi : SkipList.Inv entryRank m.table_ order) (hkeys : order.map m.table_.key = vs.map entryOf)
    (hp : vs.Perm (us.zipIdx base)) (hf : ∀ u ∈ us, Fits u) (hb : base + us.length ≤ 2 ^ 56) :
    vs.Pairwise fun v w => Updates.rank v < Updates.rank w := by
  have hs : (order.map m.table_.key).Pairwise fun e f => entryRank e < entryRank f :=
    List.pairwise_map.mpr hi.sorted
  rw [hkeys, List.pairwise_map] at hs
  refine hs.imp_of_mem fun {v w} hv hw hlt => ?_
  obtain ⟨hfv, -, -, hnv⟩ := version_fits hp hf hb hv
  obtain ⟨hfw, -, -, hnw⟩ := version_fits hp hf hb hw
  have hcv := code_le (updateType v.1)
  have hcw := code_le (updateType w.1)
  rw [entryRank_entryOf hfv hnv, entryRank_entryOf hfw hnw, Prod.Lex.toLex_lt_toLex,
    OrderDual.toDual_lt_toDual] at hlt
  rw [Updates.rank, Updates.rank, Prod.Lex.toLex_lt_toLex, OrderDual.toDual_lt_toDual]
  refine hlt.imp_right fun h => ⟨h.1, ?_⟩
  obtain ⟨hkey, hnum⟩ := h
  rcases Nat.lt_trichotomy w.2 v.2 with h | h | h
  · exact h
  · -- one number, one update
    obtain ⟨-, hgv⟩ := List.mem_zipIdx_iff_le_and_getElem?_sub.mp (hp.mem_iff.mp hv)
    obtain ⟨-, hgw⟩ := List.mem_zipIdx_iff_le_and_getElem?_sub.mp (hp.mem_iff.mp hw)
    rw [h, hgv] at hgw
    have he : v.1 = w.1 := Option.some.inj hgw
    rw [he, h] at hnum
    exact absurd hnum (Nat.lt_irrefl _)
  · omega

/-- `Add` with the next number. -/
theorem add_holds (h : m.Holds base us) (hf : ∀ u ∈ us, Fits u) {u : Bytes × Option Bytes}
    (hu : Fits u) (hb : base + us.length < 2 ^ 56) (prev : ℕ → ℕ) :
    ∃ m', m.add prev (.ofNat (base + us.length)) (updateType u) u.1 (u.2.getD []) = some m' ∧
      m'.Holds base (us ++ [u]) := by
  obtain ⟨order, vs, hi, hkeys, hp⟩ := h
  have hnew : entryRank (entryOf (u, base + us.length)) = toLex (u.1,
      OrderDual.toDual ((base + us.length) * 256 + (updateType u).code.toNat)) :=
    entryRank_entryOf (v := (u, base + us.length)) hu hb
  obtain ⟨as, bs, rfl, has, hbs⟩ := hi.split (entryRank (entryOf (u, base + us.length)))
  rw [List.map_append] at hkeys
  obtain ⟨vas, vbs, rfl, hvas, hvbs⟩ := List.map_eq_append_iff.mp hkeys.symm
  -- no entry has the new number
  have hbs' : ∀ b ∈ bs, entryRank (entryOf (u, base + us.length)) < entryRank (m.table_.key b) := by
    intro b hb'
    refine lt_of_le_of_ne (hbs b hb') fun he => ?_
    have hmem : m.table_.key b ∈ vbs.map entryOf := hvbs ▸ List.mem_map_of_mem hb'
    obtain ⟨v, hv, hve⟩ := List.mem_map.mp hmem
    obtain ⟨hfv, -, hlt, hnv⟩ := version_fits hp hf (by omega) (List.mem_append_right vas hv)
    have hc := code_le (updateType v.1)
    have hc' := code_le (updateType u)
    rw [hnew, ← hve, entryRank_entryOf hfv hnv, toLex_inj, Prod.mk.injEq, OrderDual.toDual_inj]
      at he
    omega
  obtain ⟨t, hins, hit, hkt⟩ := SkipList.insert_inv entryRanks hi has hbs' prev
  refine ⟨⟨t⟩, ?_, as ++ m.table_.allocated :: bs, vas ++ (u, base + us.length) :: vbs, hit, ?_, ?_⟩
  · rw [add]
    exact congrArg (Option.map fun t => (⟨t⟩ : MemTable)) hins
  · have hold : ∀ y ∈ as ++ bs, t.key y = m.table_.key y := fun y hy => by
      rw [hkt]
      exact Function.update_of_ne (hi.fresh y hy).2.ne _ _
    show (as ++ m.table_.allocated :: bs).map t.key = _
    rw [List.map_append, List.map_cons, List.map_append, List.map_cons, hvas, hvbs, hkt,
      Function.update_self, ← hkt,
      List.map_congr_left fun a ha => hold a (List.mem_append_left bs ha),
      List.map_congr_left fun b hb => hold b (List.mem_append_right as hb)]
  · rw [List.zipIdx_append, List.zipIdx_singleton]
    exact (List.perm_middle.trans ((hp.cons _).trans
      (List.perm_append_singleton _ _).symm))

/-- What `Get` says of the last update that it sees. -/
def answer : Option (Option Bytes) → Option (Except Status Bytes)
  | none => none
  | some (some v) => some (.ok v)
  | some none => some (.error .notFound)

/-- `Get` at a snapshot is the last update of the key that the snapshot has. -/
theorem get_holds (h : m.Holds base us) (hf : ∀ u ∈ us, Fits u) (hb : base + us.length ≤ 2 ^ 56)
    {key : Bytes} (hkey : key.length + 8 < 2 ^ 32) {n : ℕ} (hn : n < 2 ^ 56) :
    m.get key (.ofNat n) = some (answer (Updates.last (us.take (n + 1 - base)) key)) := by
  obtain ⟨order, vs, hi, hkeys, hp⟩ := h
  have hsorted := versions_sorted hi hkeys hp hf hb
  rw [← Updates.readAt_eq hsorted hp]
  obtain ⟨as, bs, rfl, has, hbs⟩ := hi.split (entryRank (memtableKey key (.ofNat n)))
  rw [List.map_append] at hkeys
  obtain ⟨vas, vbs, rfl, hvas, hvbs⟩ := List.map_eq_append_iff.mp hkeys.symm
  obtain ⟨prev, hfind, -⟩ := SkipList.findGreaterOrEqual_spec entryRanks hi has hbs id
  -- what is below the key of the search is below it as a version
  have hbelow : ∀ v ∈ vas ++ vbs, entryRank (entryOf v) < entryRank (memtableKey key (.ofNat n)) ↔
      Updates.rank v < toLex (key, OrderDual.toDual n) := by
    intro v hv
    obtain ⟨hfv, -, -, hnv⟩ := version_fits hp hf hb hv
    exact entryRank_lt_iff hfv hnv hkey hn
  have hnone : vas.find? (fun v => ¬ Updates.rank v < toLex (key, OrderDual.toDual n)) = none := by
    refine List.find?_eq_none.mpr fun v hv => ?_
    have hmem : entryOf v ∈ as.map m.table_.key := hvas ▸ List.mem_map_of_mem hv
    obtain ⟨a, ha, hae⟩ := List.mem_map.mp hmem
    have := has a ha
    rw [hae, hbelow v (List.mem_append_left vbs hv)] at this
    simpa using this
  rw [get, hfind, Updates.readAt, List.find?_append, hnone, Option.none_or]
  cases vbs with
  | nil =>
      cases bs with
      | nil => rfl
      | cons b bs => cases hvbs
  | cons v vbs =>
      cases bs with
      | nil => cases hvbs
      | cons b bs =>
          have hbv : m.table_.key b = entryOf v := (List.cons.inj hvbs).1.symm
          have hmem : v ∈ vas ++ v :: vbs := List.mem_append_right vas List.mem_cons_self
          obtain ⟨hfv, -, -, hnv⟩ := version_fits hp hf hb hmem
          obtain ⟨hle, hnat⟩ := ofNat_le hnv
          obtain ⟨hslice, hvalue⟩ := memSlice_entryOf hfv
          have hnot : ¬ Updates.rank v < toLex (key, OrderDual.toDual n) := by
            rw [← hbelow v hmem, ← hbv, not_lt]
            exact hbs b List.mem_cons_self
          have huser := extractUserKey_append v.1.1
            (packSequenceAndType (.ofNat v.2) (updateType v.1))
          have htag := extractTag_append v.1.1
            (packSequenceAndType (.ofNat v.2) (updateType v.1))
          rw [extractUserKey] at huser
          rw [extractTag] at htag
          rw [List.find?_cons_of_pos (by simpa using hnot)]
          refine congrArg some ?_
          show (if sliceCompare _ key = 0 then _ else none : Option (Except Status Bytes)) = _
          rw [hbv, hslice, huser, htag]
          dsimp only
          rw [packed_type hle, ofCode_code, hvalue]
          simp only [sliceCompare_eq]
          by_cases hk : v.1.1 = key
          · rw [if_pos hk, if_pos hk]
            rcases hr : v.1.2 with _ | value <;> rw [updateType, hr] <;> rfl
          · rw [if_neg hk, if_neg hk]
            rfl

end Holds

end MemTable

end LevelDb

end Tablefs
