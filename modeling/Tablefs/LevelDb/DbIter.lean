/-
The iterator of a database, `db/db_iter.cc`.

It moves an iterator over all versions of all keys, and is to show, of each key, the newest
version that its sequence number has, deleted keys left out. `Stands` says where it is in terms
of the map `m` of what is to be shown; each call is then a search in the entries of `m`.

One call is not: `Next` after a move backward takes for its own key that of the version behind the
place where the inner iterator stopped, and this can be a smaller one, of which the iterator sees
no version. It then shows its entry again (`next_turn`).
-/
import Tablefs.Lib.Cursor
import Tablefs.LevelDb.MemTable
import Tablefs.LevelDb.Merger

set_option autoImplicit false

namespace Tablefs

namespace LevelDb

open ByteString

/-- `DBIter` -/
structure DBIter (σ : Type*) where
  iter_ : σ
  status_ : Status
  saved_key_ : Bytes
  saved_value_ : Bytes
  direction_ : Direction
  valid_ : Bool

namespace DBIter

variable {σ : Type*}

/-! ## The code -/

section Code

variable (c : Cursor σ Bytes Bytes) (sequence_ : UInt64)

/-- `DBIter::DBIter` -/
def new (iter : σ) : DBIter σ := ⟨iter, .ok, [], [], .kForward, false⟩

/-- `key` and `value` of a valid iterator. -/
def entry (it : DBIter σ) : Option (Bytes × Bytes) :=
  if it.valid_ then
    match it.direction_ with
    | .kForward => (c.entry it.iter_).map fun e => (extractUserKey e.1, e.2)
    | .kReverse => some (it.saved_key_, it.saved_value_)
  else none

/-- What `ParseKey` leaves when it fails. -/
def corrupt (it : DBIter σ) : DBIter σ :=
  { it with status_ := .corruption "corrupted internal key in DBIter" }

/-- The inner iterator one on. -/
def stepNext (it : DBIter σ) : DBIter σ := { it with iter_ := c.next it.iter_ }

/-- The inner iterator one back. -/
def stepPrev (it : DBIter σ) : DBIter σ := { it with iter_ := c.prev it.iter_ }

/-- `FindNextUserEntry`, with `n` turns left. The key to skip is always in `saved_key_`. -/
def findNextUserEntry : ℕ → Bool → DBIter σ → Option (DBIter σ)
  | 0, _, _ => none
  | n + 1, skipping, it =>
      match c.entry it.iter_ with
      | none => some { it with saved_key_ := [], valid_ := false }
      | some e =>
          match parseInternalKey e.1 with
          | none => findNextUserEntry n skipping (it.corrupt.stepNext c)
          | some ikey =>
              if ikey.sequence ≤ sequence_ then
                match ikey.type with
                | .kTypeDeletion =>
                    findNextUserEntry n true { it.stepNext c with saved_key_ := ikey.user_key }
                | .kTypeValue =>
                    if skipping && sliceCompare ikey.user_key it.saved_key_ ≤ 0 then
                      findNextUserEntry n skipping (it.stepNext c)
                    else some { it with valid_ := true, saved_key_ := [] }
              else findNextUserEntry n skipping (it.stepNext c)

/-- The loop of `FindPrevUserEntry`, with `n` turns left: `value_type`, and the iterator. -/
def prevLoop : ℕ → ValueType → DBIter σ → Option (ValueType × DBIter σ)
  | 0, _, _ => none
  | n + 1, value_type, it =>
      match c.entry it.iter_ with
      | none => some (value_type, it)
      | some e =>
          match parseInternalKey e.1 with
          | none => prevLoop n value_type (it.corrupt.stepPrev c)
          | some ikey =>
              if ikey.sequence ≤ sequence_ then
                if value_type ≠ .kTypeDeletion ∧ sliceCompare ikey.user_key it.saved_key_ < 0 then
                  some (value_type, it)
                else
                  match ikey.type with
                  | .kTypeDeletion =>
                      prevLoop n .kTypeDeletion
                        { it.stepPrev c with saved_key_ := [], saved_value_ := [] }
                  | .kTypeValue =>
                      prevLoop n .kTypeValue
                        { it.stepPrev c with
                          saved_key_ := extractUserKey e.1
                          saved_value_ := e.2 }
              else prevLoop n value_type (it.stepPrev c)

/-- `FindPrevUserEntry` -/
def findPrevUserEntry (n : ℕ) (it : DBIter σ) : Option (DBIter σ) :=
  (prevLoop c sequence_ n .kTypeDeletion it).map fun r =>
    if r.1 = .kTypeDeletion then
      { r.2 with
        valid_ := false
        saved_key_ := []
        saved_value_ := []
        direction_ := .kForward }
    else { r.2 with valid_ := true }

/-- The loop of `Prev` that leaves the entries of the current key, with `n` turns left; it ends
with nothing before them, or in `FindPrevUserEntry` with `m` turns. -/
def leaveKey (m : ℕ) : ℕ → DBIter σ → Option (DBIter σ)
  | 0, _ => none
  | n + 1, it =>
      let it := it.stepPrev c
      match c.entry it.iter_ with
      | none => some { it with valid_ := false, saved_key_ := [], saved_value_ := [] }
      | some e =>
          if sliceCompare (extractUserKey e.1) it.saved_key_ < 0 then
            findPrevUserEntry c sequence_ m { it with direction_ := .kReverse }
          else leaveKey m n it

/-- `Next` of a valid iterator. -/
def next (n : ℕ) (it : DBIter σ) : Option (DBIter σ) :=
  let it :=
    if it.direction_ = .kReverse then
      { it with
        direction_ := .kForward
        iter_ := if (c.entry it.iter_).isSome then c.next it.iter_ else c.seekToFirst it.iter_ }
    else it
  match c.entry it.iter_ with
  | none => some { it with valid_ := false, saved_key_ := [] }
  | some e => findNextUserEntry c sequence_ n true { it with saved_key_ := extractUserKey e.1 }

/-- `Prev` of a valid iterator. -/
def prev (n : ℕ) (it : DBIter σ) : Option (DBIter σ) :=
  match it.direction_, c.entry it.iter_ with
  | .kForward, some e =>
      leaveKey c sequence_ n n { it with saved_key_ := extractUserKey e.1 }
  | _, _ => findPrevUserEntry c sequence_ n it

/-- `Seek` -/
def seek (n : ℕ) (target : Bytes) (it : DBIter σ) : Option (DBIter σ) :=
  let saved_key_ := appendInternalKey ⟨target, sequence_, kValueTypeForSeek⟩
  let it : DBIter σ :=
    { it with
      direction_ := .kForward
      saved_value_ := []
      saved_key_ := saved_key_
      iter_ := c.seek saved_key_ it.iter_ }
  if (c.entry it.iter_).isSome then findNextUserEntry c sequence_ n false it
  else some { it with valid_ := false }

/-- `SeekToFirst` -/
def seekToFirst (n : ℕ) (it : DBIter σ) : Option (DBIter σ) :=
  let it : DBIter σ :=
    { it with
      direction_ := .kForward
      saved_value_ := []
      iter_ := c.seekToFirst it.iter_ }
  if (c.entry it.iter_).isSome then findNextUserEntry c sequence_ n false it
  else some { it with valid_ := false }

/-- `SeekToLast` -/
def seekToLast (n : ℕ) (it : DBIter σ) : Option (DBIter σ) :=
  findPrevUserEntry c sequence_ n
    { it with
      direction_ := .kReverse
      saved_value_ := []
      iter_ := c.seekToLast it.iter_ }

end Code

/-! ## Versions -/

/-- A version: a key, a value or its deletion, and a number. -/
abbrev Version := (Bytes × Option Bytes) × ℕ

/-- The internal key and the value of a version. -/
def encoded (v : Version) : Bytes × Bytes :=
  (appendInternalKey ⟨v.1.1, .ofNat v.2, MemTable.updateType v.1⟩, v.1.2.getD [])

/-- The versions of a database in their order, with numbers that their eight bytes hold. -/
structure Versions (vs : List Version) : Prop where
  sorted : vs.Pairwise fun v w => Updates.rank v < Updates.rank w
  lt : ∀ v ∈ vs, v.2 < 2 ^ 56

/-- `m` is what the number `n` shows of the versions. -/
def Shows (vs : List Version) (n : ℕ) (m : SortedMap Bytes Bytes) : Prop :=
  ∀ k val, m.get k = some val ↔ ∃ i, Updates.Seen vs n ((k, some val), i)

theorem parse_encoded {v : Version} (h : v.2 < 2 ^ 56) :
    parseInternalKey (encoded v).1 = some ⟨v.1.1, .ofNat v.2, MemTable.updateType v.1⟩ :=
  parseInternalKey_append _ (MemTable.ofNat_le h).1

theorem user_encoded (v : Version) : extractUserKey (encoded v).1 = v.1.1 :=
  extractUserKey_append _ _

theorem sequence_le_iff {i n : ℕ} (hi : i < 2 ^ 56) (hn : n < 2 ^ 56) :
    UInt64.ofNat i ≤ .ofNat n ↔ i ≤ n := by
  rw [UInt64.le_iff_toNat_le, (MemTable.ofNat_le hi).2, (MemTable.ofNat_le hn).2]

theorem encodedRank {v : Version} (hv : v.2 < 2 ^ 56) :
    internalRank (encoded v).1 = toLex (v.1.1,
      OrderDual.toDual (v.2 * 256 + (MemTable.updateType v.1).code.toNat)) := by
  obtain ⟨hle, hnat⟩ := MemTable.ofNat_le hv
  rw [encoded, appendInternalKey, internalRank_append, toNat_packSequenceAndType hle, hnat]

/-- The encodings are in the order of the versions. -/
theorem encoded_lt {v w : Version} (hv : v.2 < 2 ^ 56) (hw : w.2 < 2 ^ 56)
    (h : Updates.rank v < Updates.rank w) :
    internalRank (encoded v).1 < internalRank (encoded w).1 := by
  have hcv := MemTable.code_le (MemTable.updateType v.1)
  have hcw := MemTable.code_le (MemTable.updateType w.1)
  rw [Updates.rank, Updates.rank, Prod.Lex.toLex_lt_toLex, OrderDual.toDual_lt_toDual] at h
  rw [encodedRank hv, encodedRank hw, Prod.Lex.toLex_lt_toLex, OrderDual.toDual_lt_toDual]
  refine h.imp_right fun h => ⟨h.1, ?_⟩
  have := h.2
  omega

theorem encoded_ne {v w : Version} (hv : v.2 < 2 ^ 56) (hw : w.2 < 2 ^ 56)
    (h : Updates.rank v ≠ Updates.rank w) :
    internalRank (encoded v).1 ≠ internalRank (encoded w).1 := by
  rcases lt_or_gt_of_ne h with h | h
  · exact (encoded_lt hv hw h).ne
  · exact (encoded_lt hw hv h).ne'

theorem encoded_sorted {vs : List Version} (h : Versions vs) :
    Cursor.Sorted internalRank (vs.map encoded) :=
  List.pairwise_map.mpr (h.sorted.imp_of_mem fun hv hw => encoded_lt (h.lt _ hv) (h.lt _ hw))

theorem encodedRank_lt {v : Version} (hv : v.2 < 2 ^ 56) (target : Bytes) {n : ℕ}
    (hn : n < 2 ^ 56) :
    internalRank (encoded v).1
        < internalRank (appendInternalKey ⟨target, .ofNat n, kValueTypeForSeek⟩) ↔
      v.1.1 < target ∨ v.1.1 = target ∧ n < v.2 := by
  obtain ⟨hle, hnat⟩ := MemTable.ofNat_le hn
  have hcode := MemTable.code_le (MemTable.updateType v.1)
  have hseek : kValueTypeForSeek.code.toNat = 1 := rfl
  rw [encodedRank hv, appendInternalKey, internalRank_append, toNat_packSequenceAndType hle, hnat,
    hseek, Prod.Lex.toLex_lt_toLex, OrderDual.toDual_lt_toDual]
  dsimp only
  refine or_congr_right (and_congr_right fun _ => ?_)
  omega

/-- Keys of a front and a back of the versions. -/
theorem Versions.key_le {vs as bs : List Version} (h : Versions vs) (hsplit : vs = as ++ bs)
    {v w : Version} (hv : v ∈ as) (hw : w ∈ bs) : v.1.1 ≤ w.1.1 := by
  have hs := h.sorted
  rw [hsplit] at hs
  have hlt := (List.pairwise_append.mp hs).2.2 v hv w hw
  rcases (Updates.rank_le_iff v w).mp hlt.le with hk | ⟨hk, -⟩
  · exact hk.le
  · exact hk.le

/-- Of one key, what stands behind is older. -/
theorem Versions.newer {vs as bs : List Version} (h : Versions vs) (hsplit : vs = as ++ bs)
    {v w : Version} (hv : v ∈ as) (hw : w ∈ bs) (hk : w.1.1 = v.1.1) : w.2 < v.2 := by
  have hs := h.sorted
  rw [hsplit] at hs
  have hlt := (List.pairwise_append.mp hs).2.2 v hv w hw
  rw [Updates.rank, Updates.rank, Prod.Lex.toLex_lt_toLex, OrderDual.toDual_lt_toDual] at hlt
  rcases hlt with hlt | ⟨-, hlt⟩
  · exact absurd hk hlt.ne'
  · exact hlt

/-! ## Where the iterator stands -/

section Spec

variable {c : Cursor σ Bytes Bytes} {vs : List Version} {n : ℕ} {m : SortedMap Bytes Bytes}
  {Fits : Bytes → Prop} {Good : σ → Prop}

/-- The inner iterator is at the first version of `bs`. -/
abbrev Head (c : Cursor σ Bytes Bytes) (vs : List Version) (Good : σ → Prop) (it : DBIter σ)
    (as bs : List Version) : Prop :=
  vs = as ++ bs ∧
    c.AtHead (vs.map encoded) Good it.iter_ (as.map encoded) (bs.map encoded)

/-- The inner iterator is at the last version of `as`. -/
abbrev Last (c : Cursor σ Bytes Bytes) (vs : List Version) (Good : σ → Prop) (it : DBIter σ)
    (as bs : List Version) : Prop :=
  vs = as ++ bs ∧
    c.AtLast (vs.map encoded) Good it.iter_ (as.map encoded) (bs.map encoded)

/-- The iterator shows this entry, or none. -/
inductive Stands (c : Cursor σ Bytes Bytes) (vs : List Version) (n : ℕ)
    (m : SortedMap Bytes Bytes) (Good : σ → Prop) (it : DBIter σ) :
    Option (Bytes × Bytes) → Prop
  | ended (good : Good it.iter_) (valid : it.valid_ = false) : Stands c vs n m Good it none
  /-- on the way forward, at the version that shows it -/
  | forward {as bs : List Version} {k val : Bytes} {i : ℕ} (valid : it.valid_ = true)
      (direction : it.direction_ = .kForward) (seen : Updates.Seen vs n ((k, some val), i))
      (at_ : Head c vs Good it as (((k, some val), i) :: bs)) :
      Stands c vs n m Good it (some (k, val))
  /-- on the way back, at the last version it sees of a smaller key -/
  | reverse {as bs : List Version} (valid : it.valid_ = true)
      (direction : it.direction_ = .kReverse) (shown : m.get it.saved_key_ = some it.saved_value_)
      (below : ∀ a ∈ as, a.1.1 < it.saved_key_)
      (above : ∀ b ∈ bs, b.2 ≤ n → it.saved_key_ ≤ b.1.1)
      (stop : ∀ a ∈ as.reverse.head?, a.2 ≤ n) (at_ : Last c vs Good it as bs) :
      Stands c vs n m Good it (some (it.saved_key_, it.saved_value_))

theorem Stands.entry {it : DBIter σ} {o : Option (Bytes × Bytes)}
    (h : Stands c vs n m Good it o) : it.entry c = o := by
  cases h with
  | ended good valid => rw [DBIter.entry, valid]; rfl
  | forward valid direction seen at_ =>
      rw [DBIter.entry, valid, direction, if_pos rfl]
      dsimp only
      rw [at_.2.entry, List.map_cons, List.head?_cons, Option.map_some, user_encoded]
      rfl
  | reverse valid direction shown below above stop at_ =>
      rw [DBIter.entry, valid, direction]
      rfl

variable (hw : c.Walks internalRank (vs.map encoded) Fits Good) (hv : Versions vs) (hn : n < 2 ^ 56)
  (hm : Shows vs n m)

include hw in
theorem Head.next {it : DBIter σ} {as bs : List Version} {v : Version}
    (h : Head c vs Good it as (v :: bs)) : Head c vs Good (it.stepNext c) (as ++ [v]) bs := by
  refine ⟨by rw [h.1, List.append_cons], ?_⟩
  rw [List.map_append]
  exact h.2.next hw

include hw in
theorem Head.prev {it : DBIter σ} {as bs : List Version} {v : Version}
    (h : Head c vs Good it as (v :: bs)) : Last c vs Good (it.stepPrev c) as (v :: bs) :=
  ⟨h.1, h.2.prev hw⟩

theorem Last.head {it : DBIter σ} {as bs : List Version} {v : Version}
    (h : Last c vs Good it (as ++ [v]) bs) : Head c vs Good it as (v :: bs) := by
  refine ⟨by rw [h.1, List.append_assoc]; rfl, ?_⟩
  have h2 := h.2
  rw [List.map_append] at h2
  exact h2.atHead

/-! ## Forward -/

/-- What the loop of `FindNextUserEntry` knows: `P` are the keys that may still be shown, and
`skip` the key up to which entries are hidden. -/
structure Scan (n : ℕ) (as bs : List Version) (skip : Option Bytes) (P : Bytes → Bool) : Prop where
  up : ∀ k k', P k = true → k ≤ k' → P k' = true
  passed : ∀ v ∈ as, v.2 ≤ n → P v.1.1 = false
  hidden : ∀ v ∈ bs, v.2 ≤ n → (P v.1.1 = true ↔ ∀ k ∈ skip, k < v.1.1)
  low : ∀ k ∈ skip, ∀ v ∈ bs, k ≤ v.1.1

theorem Scan.move {as bs : List Version} {skip : Option Bytes} {P : Bytes → Bool} {v : Version}
    (h : Scan n as (v :: bs) skip P) (hv : v.2 ≤ n → P v.1.1 = false) :
    Scan n (as ++ [v]) bs skip P where
  up := h.up
  passed := by
    intro w hw hwn
    rcases List.mem_append.mp hw with hw | hw
    · exact h.passed w hw hwn
    · rw [List.mem_singleton] at hw
      subst hw
      exact hv hwn
  hidden w hw := h.hidden w (List.mem_cons_of_mem v hw)
  low k hk w hw := h.low k hk w (List.mem_cons_of_mem v hw)

/-- The entries of `m`, by their versions. -/
theorem Shows.mem_iff (hm : Shows vs n m) (e : Bytes × Bytes) :
    e ∈ m.entries ↔ ∃ i, Updates.Seen vs n ((e.1, some e.2), i) :=
  (m.mem_entries_iff e.1 e.2).trans (hm e.1 e.2)

include hv hm in
/-- A deletion that is reached hides its key, and nothing between is shown. -/
theorem Scan.deletion {as bs : List Version} {skip : Option Bytes} {P : Bytes → Bool} {k : Bytes}
    {i : ℕ} (hsplit : vs = as ++ ((k, none), i) :: bs) (h : Scan n as (((k, none), i) :: bs) skip P)
    (hi : i ≤ n) :
    Scan n (as ++ [((k, none), i)]) bs (some k) (fun k' => decide (k < k')) ∧
      m.entries.find? (fun e => P e.1) = m.entries.find? fun e => decide (k < e.1) := by
  have hsplit' : vs = (as ++ [((k, none), i)]) ++ bs := by rw [hsplit, List.append_cons]
  refine ⟨⟨fun a b ha hab => decide_eq_true ((of_decide_eq_true ha).trans_le hab),
    fun w hw _ => decide_eq_false (not_lt_of_ge ?_), fun w hw _ => ?_, fun k' hk' w hw => ?_⟩,
    List.find?_congr fun e he => ?_⟩
  · rcases List.mem_append.mp hw with hw | hw
    · exact hv.key_le hsplit hw List.mem_cons_self
    · rw [List.mem_singleton.mp hw]
  · simp
  · obtain rfl : k = k' := Option.some.inj hk'
    exact hv.key_le hsplit' (List.mem_append_right as (List.mem_singleton.mpr rfl)) hw
  · obtain ⟨j, hseen⟩ := (hm.mem_iff e).mp he
    have hmem := hseen.mem
    rw [hsplit'] at hmem
    have hdel : (((k, none), i) : Version) ∈ vs := by
      rw [hsplit]
      exact List.mem_append_right as List.mem_cons_self
    refine Bool.eq_iff_iff.mpr (Iff.trans ⟨fun hP => ?_, fun hlt => ?_⟩ decide_eq_true_iff.symm)
    · -- its version is not before the deletion, and not under the deleted key
      rcases List.mem_append.mp hmem with hmem | hmem
      · rcases List.mem_append.mp hmem with hmem | hmem
        · exact absurd hP (by rw [h.passed _ hmem hseen.le]; exact Bool.false_ne_true)
        · exact absurd (List.mem_singleton.mp hmem) (by simp)
      · refine lt_of_le_of_ne
          (hv.key_le hsplit' (List.mem_append_right as (List.mem_singleton.mpr rfl)) hmem) ?_
        intro he
        have hnewer := hv.newer hsplit' (List.mem_append_right as (List.mem_singleton.mpr rfl))
          hmem he.symm
        exact absurd (hseen.newest _ hdel he hi) (Nat.not_le_of_lt hnewer)
    · -- a key behind the deletion is behind what is skipped
      rcases List.mem_append.mp hmem with hmem | hmem
      · exfalso
        rcases List.mem_append.mp hmem with hmem | hmem
        · exact absurd (hv.key_le hsplit hmem List.mem_cons_self) (not_le_of_gt hlt)
        · exact absurd (List.mem_singleton.mp hmem) (by simp)
      · refine (h.hidden _ (List.mem_cons_of_mem _ hmem) hseen.le).mpr fun k' hk' => ?_
        exact lt_of_le_of_lt (h.low k' hk' _ List.mem_cons_self) hlt

include hv hm in
/-- The first visible value that is not hidden is the entry that is looked for. -/
theorem Scan.found {as bs : List Version} {skip : Option Bytes} {P : Bytes → Bool} {k val : Bytes}
    {i : ℕ} (hsplit : vs = as ++ ((k, some val), i) :: bs)
    (h : Scan n as (((k, some val), i) :: bs) skip P) (hi : i ≤ n) (hP : P k = true) :
    Updates.Seen vs n ((k, some val), i) ∧
      m.entries.find? (fun e => P e.1) = some (k, val) := by
  have hmem : (((k, some val), i) : Version) ∈ vs := by
    rw [hsplit]
    exact List.mem_append_right as List.mem_cons_self
  have hseen : Updates.Seen vs n ((k, some val), i) := by
    refine ⟨hmem, hi, fun w hw hk hwn => ?_⟩
    rw [hsplit] at hw
    rcases List.mem_append.mp hw with hw | hw
    · have hno := h.passed w hw hwn
      rw [hk] at hno
      exact absurd hP (by rw [hno]; exact Bool.false_ne_true)
    · rcases List.mem_cons.mp hw with rfl | hw
      · exact le_refl _
      · have hsplit' : vs = (as ++ [((k, some val), i)]) ++ bs := by rw [hsplit, List.append_cons]
        exact (hv.newer hsplit' (List.mem_append_right as (List.mem_singleton.mpr rfl)) hw hk).le
  have hsorted : Cursor.Sorted (fun k : Bytes => k) m.entries := m.sorted
  refine ⟨hseen, (hsorted.find_eq_some (x := (k, val))).mpr
    ⟨(hm.mem_iff (k, val)).mpr ⟨i, hseen⟩, hP, fun e he hPe => ?_⟩⟩
  obtain ⟨j, hseen'⟩ := (hm.mem_iff e).mp he
  have hmem' := hseen'.mem
  rw [hsplit] at hmem'
  rcases List.mem_append.mp hmem' with hmem' | hmem'
  · exact absurd hPe (by rw [h.passed _ hmem' hseen'.le]; exact Bool.false_ne_true)
  · rcases List.mem_cons.mp hmem' with he' | hmem'
    · have hk : e.1 = k := congrArg (fun v : Version => v.1.1) he'
      rw [hk]
    · have hsplit' : vs = (as ++ [((k, some val), i)]) ++ bs := by rw [hsplit, List.append_cons]
      exact hv.key_le hsplit' (List.mem_append_right as (List.mem_singleton.mpr rfl)) hmem'

include hm in
/-- Behind the last version nothing is left to show. -/
theorem Scan.done {as : List Version} {skip : Option Bytes} {P : Bytes → Bool}
    (hsplit : vs = as ++ []) (h : Scan n as [] skip P) :
    m.entries.find? (fun e => P e.1) = none := by
  refine List.find?_eq_none.mpr fun e he hP => ?_
  obtain ⟨i, hseen⟩ := (hm.mem_iff e).mp he
  have hmem := hseen.mem
  rw [hsplit, List.append_nil] at hmem
  exact absurd hP (by rw [h.passed _ hmem hseen.le]; exact Bool.false_ne_true)

include hw hv hn hm in
theorem findNext_spec {t : ℕ} {skipping : Bool} {it : DBIter σ} {as bs : List Version}
    {P : Bytes → Bool} (hat : Head c vs Good it as bs) (hdir : it.direction_ = .kForward)
    (hscan : Scan n as bs (if skipping then some it.saved_key_ else none) P)
    (hfuel : bs.length < t) :
    ∃ it', findNextUserEntry c (.ofNat n) t skipping it = some it' ∧ it'.status_ = it.status_ ∧
      it'.direction_ = .kForward ∧ Stands c vs n m Good it' (m.entries.find? fun e => P e.1) := by
  induction t generalizing skipping it as bs P with
  | zero => exact absurd hfuel (Nat.not_lt_zero _)
  | succ t ih =>
      rw [findNextUserEntry]
      have hentry := hat.2.entry
      cases bs with
      | nil =>
          rw [List.map_nil, List.head?_nil] at hentry
          rw [hentry, hscan.done hm hat.1]
          exact ⟨_, rfl, rfl, hdir, .ended hat.2.good rfl⟩
      | cons v bs =>
          obtain ⟨⟨k, r⟩, i⟩ := v
          have hmem : (((k, r), i) : Version) ∈ vs := by
            rw [hat.1]
            exact List.mem_append_right as List.mem_cons_self
          have hi := hv.lt _ hmem
          have hnext := Head.next hw hat
          have hfuel' : bs.length < t := Nat.lt_of_succ_lt_succ hfuel
          rw [List.map_cons, List.head?_cons] at hentry
          rw [hentry]
          dsimp only
          rw [parse_encoded hi]
          dsimp only
          by_cases hin : i ≤ n
          · rw [if_pos ((sequence_le_iff hi hn).mpr hin)]
            cases r with
            | none =>
                obtain ⟨hscan', hfind⟩ := hscan.deletion hv hm hat.1 hin
                rw [hfind]
                have hskip : Scan n (as ++ [((k, none), i)]) bs
                    (if true = true then some k else none) fun k' => decide (k < k') := hscan'
                have hnext' : Head c vs Good { it.stepNext c with saved_key_ := k }
                    (as ++ [((k, none), i)]) bs := hnext
                exact ih hnext' hdir hskip hfuel'
            | some val =>
                show ∃ it', (if (skipping && decide (sliceCompare k it.saved_key_ ≤ 0)) = true
                  then findNextUserEntry c (.ofNat n) t skipping (it.stepNext c)
                  else some { it with valid_ := true, saved_key_ := [] }) = some it' ∧ _
                have hle : sliceCompare k it.saved_key_ ≤ 0 ↔ ¬ it.saved_key_ < k := by
                  rw [le_iff_lt_or_eq, sliceCompare_lt, sliceCompare_eq, ← le_iff_lt_or_eq, not_lt]
                have hhid := hscan.hidden _ List.mem_cons_self hin
                by_cases hP : P k = true
                · have hshow :
                    ¬ (skipping && decide (sliceCompare k it.saved_key_ ≤ 0)) = true := by
                    rw [Bool.and_eq_true, decide_eq_true_iff, hle]
                    rintro ⟨hskip, hnot⟩
                    exact hnot (hhid.mp hP _ (by rw [hskip]; rfl))
                  obtain ⟨hseen, hfind⟩ := hscan.found hv hm hat.1 hin hP
                  rw [if_neg hshow, hfind]
                  exact ⟨_, rfl, rfl, hdir, .forward rfl hdir hseen hat⟩
                · have hhide : (skipping && decide (sliceCompare k it.saved_key_ ≤ 0)) = true := by
                    have hex := mt hhid.mpr hP
                    rw [Bool.and_eq_true, decide_eq_true_iff, hle]
                    cases skipping with
                    | false => exact absurd (fun k' hk' => by cases hk') hex
                    | true =>
                        exact ⟨rfl, fun hlt => hex fun k' hk' => by
                          obtain rfl : it.saved_key_ = k' := Option.some.inj hk'
                          exact hlt⟩
                  rw [if_pos hhide]
                  exact ih hnext hdir (hscan.move fun _ => Bool.eq_false_iff.mpr hP) hfuel'
          · rw [if_neg fun h => hin ((sequence_le_iff hi hn).mp h)]
            exact ih hnext hdir (hscan.move fun h => absurd h hin) hfuel'

include hw hv hn hm in
/-- Skipping the key of the version it is at. -/
theorem findNext_skip {t : ℕ} {it : DBIter σ} {as bs : List Version} {v : Version}
    (hat : Head c vs Good it as (v :: bs)) (hdir : it.direction_ = .kForward)
    (hkey : it.saved_key_ = v.1.1) (hfuel : vs.length < t) :
    ∃ it', findNextUserEntry c (.ofNat n) t true it = some it' ∧ it'.status_ = it.status_ ∧
      it'.direction_ = .kForward ∧
      Stands c vs n m Good it' (m.entries.find? fun e => v.1.1 < e.1) := by
  have hscan : Scan n as (v :: bs) (if true = true then some it.saved_key_ else none)
      fun k => decide (v.1.1 < k) := by
    rw [if_pos rfl, hkey]
    refine ⟨fun a b ha hab => decide_eq_true ((of_decide_eq_true ha).trans_le hab),
      fun w hw _ => decide_eq_false (not_lt_of_ge (hv.key_le hat.1 hw List.mem_cons_self)),
      fun w hw _ => by simp, fun k' hk' w hw => ?_⟩
    obtain rfl : v.1.1 = k' := Option.some.inj hk'
    have hsplit : vs = (as ++ [v]) ++ bs := by rw [hat.1, List.append_cons]
    rcases List.mem_cons.mp hw with rfl | hw
    · exact le_refl _
    · exact hv.key_le hsplit (List.mem_append_right as (List.mem_singleton.mpr rfl)) hw
  refine findNext_spec hw hv hn hm hat hdir hscan ?_
  rw [hat.1, List.length_append] at hfuel
  omega

include hw hv hn hm in
/-- `Next` on the way forward. -/
theorem next_forward {t : ℕ} {it : DBIter σ} {e : Bytes × Bytes}
    (h : Stands c vs n m Good it (some e)) (hdir : it.direction_ = .kForward)
    (hfuel : vs.length < t) :
    ∃ it', next c (.ofNat n) t it = some it' ∧ it'.status_ = it.status_ ∧
      it'.direction_ = .kForward ∧
      Stands c vs n m Good it' (m.entries.find? fun e' => e.1 < e'.1) := by
  cases h with
  | reverse valid direction => exact absurd (direction.symm.trans hdir) (by decide)
  | forward valid direction seen at_ =>
      rename_i as bs k val i
      have hentry : c.entry it.iter_ = some (encoded ((k, some val), i)) := at_.2.entry
      rw [next, if_neg (by rw [hdir]; decide)]
      dsimp only
      rw [hentry]
      dsimp only
      rw [user_encoded]
      have hat : Head c vs Good { it with saved_key_ := k } as (((k, some val), i) :: bs) := at_
      exact findNext_skip hw hv hn hm hat hdir rfl hfuel

include hw hv hn hm in
/-- `Next` after a move backward: with `b` the version behind the place where the inner iterator
stopped, it goes to the first key above that of `b`. That key is not above the current one. -/
theorem next_reverse {t : ℕ} {it : DBIter σ} {as bs : List Version}
    (direction : it.direction_ = .kReverse) (shown : m.get it.saved_key_ = some it.saved_value_)
    (below : ∀ a ∈ as, a.1.1 < it.saved_key_) (at_ : Last c vs Good it as bs)
    (hfuel : vs.length < t) :
    ∃ b ∈ bs.head?, b.1.1 ≤ it.saved_key_ ∧
      ∃ it', next c (.ofNat n) t it = some it' ∧ it'.status_ = it.status_ ∧
        it'.direction_ = .kForward ∧
        Stands c vs n m Good it' (m.entries.find? fun e => b.1.1 < e.1) := by
  -- the version that is shown is not before the inner iterator
  obtain ⟨i, hseen⟩ := (hm _ _).mp shown
  have hshown : (((it.saved_key_, some it.saved_value_), i) : Version) ∈ bs := by
    have hmem := hseen.mem
    rw [at_.1] at hmem
    rcases List.mem_append.mp hmem with hmem | hmem
    · exact absurd (below _ hmem) (lt_irrefl _)
    · exact hmem
  cases bs with
  | nil => cases hshown
  | cons b bs =>
      have hle : b.1.1 ≤ it.saved_key_ := by
        rcases List.mem_cons.mp hshown with he | hmem
        · rw [← he]
        · have hsplit : vs = (as ++ [b]) ++ bs := by rw [at_.1, List.append_cons]
          exact hv.key_le hsplit (List.mem_append_right as (List.mem_singleton.mpr rfl)) hmem
      refine ⟨b, rfl, hle, ?_⟩
      have hnext : c.AtHead (vs.map encoded) Good
          (if (c.entry it.iter_).isSome then c.next it.iter_ else c.seekToFirst it.iter_)
          (as.map encoded) ((b :: bs).map encoded) := by
        rcases List.eq_nil_or_concat as with rfl | ⟨as', a, rfl⟩
        · have hnone : c.entry it.iter_ = none := at_.2.entry
          have hfirst := hw.atHead_seekToFirst at_.2.good
          rw [hnone]
          rw [show vs.map encoded = (b :: bs).map encoded by rw [at_.1]; rfl] at hfirst ⊢
          exact hfirst
        · rw [List.concat_eq_append] at at_ ⊢
          have hhead := Last.head at_
          have hsome : c.entry it.iter_ = some (encoded a) := hhead.2.entry
          rw [hsome]
          rw [List.map_append]
          exact hhead.2.next hw
      have hentry := hnext.entry
      rw [List.map_cons, List.head?_cons] at hentry
      rw [next, if_pos direction]
      dsimp only
      rw [hentry]
      dsimp only
      rw [user_encoded]
      have hat : Head c vs Good { it with
          direction_ := .kForward
          iter_ := if (c.entry it.iter_).isSome then c.next it.iter_ else c.seekToFirst it.iter_
          saved_key_ := b.1.1 } as (b :: bs) := ⟨at_.1, hnext⟩
      exact findNext_skip hw hv hn hm hat rfl rfl hfuel

/-- The last version of a smaller key is newer than the iterator. -/
def newBelow (vs : List Version) (n : ℕ) (k : Bytes) : Bool :=
  (vs.filter fun v => v.1.1 < k).reverse.head?.any fun v => n < v.2

/-- What `Next` shows after a move backward. -/
def turned (vs : List Version) (n : ℕ) (m : SortedMap Bytes Bytes) (e : Bytes × Bytes) :
    Option (Bytes × Bytes) :=
  if newBelow vs n e.1 then some e else m.entries.find? fun e' => e.1 < e'.1

include hv hm in
theorem find_turned {as bs : List Version} {b : Version} {e : Bytes × Bytes}
    (hsplit : vs = as ++ b :: bs) (hget : m.get e.1 = some e.2) (below : ∀ a ∈ as, a.1.1 < e.1)
    (above : ∀ v ∈ b :: bs, v.2 ≤ n → e.1 ≤ v.1.1) (stop : ∀ a ∈ as.reverse.head?, a.2 ≤ n)
    (hle : b.1.1 ≤ e.1) :
    m.entries.find? (fun e' => b.1.1 < e'.1) = turned vs n m e := by
  have hsplit' : vs = (as ++ [b]) ++ bs := by rw [hsplit, List.append_cons]
  have hb : b ∈ as ++ [b] := List.mem_append_right as (List.mem_singleton.mpr rfl)
  have hfilter : vs.filter (fun v => v.1.1 < e.1)
      = as ++ (b :: bs).filter fun v => v.1.1 < e.1 := by
    rw [hsplit, List.filter_append, List.filter_eq_self.mpr fun a ha => decide_eq_true (below a ha)]
  rcases hle.lt_or_eq with hlt | heq
  · -- the versions from `b` up to the key are hidden
    have hnew : newBelow vs n e.1 = true := by
      have hmem : b ∈ (b :: bs).filter fun v => v.1.1 < e.1 :=
        List.mem_filter.mpr ⟨List.mem_cons_self, decide_eq_true hlt⟩
      rw [newBelow, hfilter, List.reverse_append, List.head?_append_of_ne_nil _
        (List.ne_nil_of_mem (List.mem_reverse.mpr hmem))]
      cases hhead : ((b :: bs).filter fun v => v.1.1 < e.1).reverse.head? with
      | none =>
          rw [List.head?_eq_none_iff.mp hhead |> List.reverse_eq_nil_iff.mp] at hmem
          cases hmem
      | some w =>
          obtain ⟨hw, hwk⟩ := List.mem_filter.mp (List.mem_reverse.mp (List.mem_of_head? hhead))
          refine decide_eq_true (Nat.lt_of_not_le fun hwn => ?_)
          exact absurd (of_decide_eq_true hwk) (not_lt_of_ge (above w hw hwn))
    have hsorted : Cursor.Sorted (fun k : Bytes => k) m.entries := m.sorted
    rw [turned, if_pos hnew]
    refine hsorted.find_eq_some.mpr
      ⟨(m.mem_entries_iff e.1 e.2).mpr hget, decide_eq_true hlt, fun e' he' hlt' => ?_⟩
    obtain ⟨i, hseen⟩ := (hm.mem_iff e').mp he'
    have hmem := hseen.mem
    rw [hsplit] at hmem
    rcases List.mem_append.mp hmem with hmem | hmem
    · exact absurd (of_decide_eq_true hlt')
        (not_lt_of_ge (hv.key_le hsplit hmem List.mem_cons_self))
    · exact above _ hmem hseen.le
  · -- `b` has the key, so the versions before it are those of smaller keys
    have hnone : (b :: bs).filter (fun v => v.1.1 < e.1) = [] := by
      refine List.filter_eq_nil_iff.mpr fun v hvb hlt => ?_
      rcases List.mem_cons.mp hvb with rfl | hvb
      · exact absurd (of_decide_eq_true hlt) heq.not_lt
      · exact absurd (of_decide_eq_true hlt) (not_lt_of_ge (heq ▸ hv.key_le hsplit' hb hvb))
    have hold : newBelow vs n e.1 = false := by
      rw [newBelow, hfilter, hnone, List.append_nil]
      cases hhead : as.reverse.head? with
      | none => rfl
      | some a => exact decide_eq_false (Nat.not_lt_of_le (stop a hhead))
    rw [turned, hold, heq]
    rfl

include hw hv hn hm in
/-- `Next` after a move backward shows the same entry again, if the last version of a smaller key
is newer than the iterator. -/
theorem next_turn {t : ℕ} {it : DBIter σ} {e : Bytes × Bytes}
    (h : Stands c vs n m Good it (some e)) (hdir : it.direction_ = .kReverse)
    (hfuel : vs.length < t) :
    ∃ it', next c (.ofNat n) t it = some it' ∧ it'.status_ = it.status_ ∧
      it'.direction_ = .kForward ∧ Stands c vs n m Good it' (turned vs n m e) := by
  cases h with
  | forward valid direction => exact absurd (direction.symm.trans hdir) (by decide)
  | reverse valid direction shown below above stop at_ =>
      rename_i as bs
      obtain ⟨b, hb, hle, hnext⟩ := next_reverse hw hv hn hm direction shown below at_ hfuel
      cases bs with
      | nil => cases hb
      | cons b' bs =>
          obtain rfl : b' = b := Option.some.inj hb
          rw [find_turned hv hm (e := (it.saved_key_, it.saved_value_)) at_.1 shown below above stop
            hle] at hnext
          exact hnext

include hw hv hn hm in
theorem seek_spec {t : ℕ} {it : DBIter σ} (hg : Good it.iter_) {target : Bytes}
    (htarget : Fits (appendInternalKey ⟨target, .ofNat n, kValueTypeForSeek⟩))
    (hfuel : vs.length < t) :
    ∃ it', seek c (.ofNat n) t target it = some it' ∧ it'.status_ = it.status_ ∧
      it'.direction_ = .kForward ∧
      Stands c vs n m Good it' (m.entries.find? fun e => target ≤ e.1) := by
  obtain ⟨xs, ys, hat, hlow, hhigh⟩ :=
    hw.atHead_seek hg htarget
  obtain ⟨as, bs, hsplit, rfl, rfl⟩ := List.map_eq_append_iff.mp hat.split
  have hscan : ∀ k₀ : Bytes, Scan n as bs (if false = true then some k₀ else none)
      fun k => decide (target ≤ k) := by
    refine fun k₀ => ⟨fun a b ha hab => decide_eq_true (le_trans (of_decide_eq_true ha) hab),
      fun w hw hwn => decide_eq_false fun hle => ?_, fun w hw hwn => ?_, fun k' hk' => by cases hk'⟩
    · have hmem : w ∈ vs := hsplit ▸ List.mem_append_left bs hw
      have hlt := hlow _ (List.mem_map_of_mem hw)
      rcases (encodedRank_lt (hv.lt w hmem) target hn).mp hlt with hlt | ⟨-, hlt⟩
      · exact not_lt_of_ge hle hlt
      · omega
    · have hmem : w ∈ vs := hsplit ▸ List.mem_append_right as hw
      have hge := hhigh _ (List.mem_map_of_mem hw)
      rw [← not_lt, encodedRank_lt (hv.lt w hmem) target hn, not_or] at hge
      refine iff_of_true (decide_eq_true (le_of_not_gt hge.1)) fun k' hk' => ?_
      cases hk'
  have hfuel' : bs.length < t := by
    rw [hsplit, List.length_append] at hfuel
    omega
  rw [seek]
  dsimp only
  split
  · have hhead : Head c vs Good { it with
        direction_ := .kForward
        saved_value_ := []
        saved_key_ := appendInternalKey ⟨target, .ofNat n, kValueTypeForSeek⟩
        iter_ := c.seek (appendInternalKey ⟨target, .ofNat n, kValueTypeForSeek⟩) it.iter_ }
        as bs := ⟨hsplit, hat⟩
    exact findNext_spec hw hv hn hm hhead rfl (hscan _) hfuel'
  · rename_i hnone
    have hentry := hat.entry
    rw [Option.not_isSome_iff_eq_none.mp hnone] at hentry
    obtain rfl : bs = [] := by
      cases bs with
      | nil => rfl
      | cons b bs => cases hentry
    rw [(hscan []).done hm hsplit]
    exact ⟨_, rfl, rfl, rfl, .ended hat.good rfl⟩

include hw hv hn hm in
theorem seekToFirst_spec {t : ℕ} {it : DBIter σ} (hg : Good it.iter_) (hfuel : vs.length < t) :
    ∃ it', seekToFirst c (.ofNat n) t it = some it' ∧ it'.status_ = it.status_ ∧
      it'.direction_ = .kForward ∧ Stands c vs n m Good it' m.entries.head? := by
  have hat := hw.atHead_seekToFirst hg
  have hscan : Scan n [] vs (if false = true then some it.saved_key_ else none) fun _ => true :=
    ⟨fun _ _ _ _ => rfl, nofun, fun w _ _ => iff_of_true rfl nofun, nofun⟩
  have hhead : m.entries.head? = m.entries.find? fun _ => true :=
    (Cursor.find_split (show ∀ a ∈ [], _ = false from nofun) fun _ _ => rfl).symm
  rw [seekToFirst]
  dsimp only
  split
  · have hstart : Head c vs Good { it with
        direction_ := .kForward
        saved_value_ := []
        iter_ := c.seekToFirst it.iter_ } [] vs := ⟨rfl, hat⟩
    rw [hhead]
    exact findNext_spec hw hv hn hm hstart rfl hscan hfuel
  · rename_i hnone
    have hentry := hat.entry
    rw [Option.not_isSome_iff_eq_none.mp hnone] at hentry
    obtain rfl : vs = [] := by
      cases vs with
      | nil => rfl
      | cons b bs => cases hentry
    rw [hhead, hscan.done hm rfl]
    exact ⟨_, rfl, rfl, rfl, .ended hat.good rfl⟩

end Spec

end DBIter

end LevelDb

end Tablefs
