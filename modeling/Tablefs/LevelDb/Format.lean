/-
Internal keys: `db/dbformat.h`, `db/dbformat.cc`, and the comparison of slices.

An internal key is a user key with a sequence number and a type packed into eight bytes behind
it. The keys are in the order of the user keys, and under one user key the newest is first:
`internalCompare_lt` and `internalCompare_eq` say that the comparison of the encodings is this
order of what they encode.
-/
import Mathlib.Data.Prod.Lex
import Tablefs.LevelDb.WriteBatch

set_option autoImplicit false

namespace Tablefs

namespace LevelDb

open ByteString

/-! ## `Slice::compare` -/

/-- `memcmp` of as many bytes as both have. -/
def memcmp : Bytes → Bytes → ℤ
  | a :: as, b :: bs => if a = b then memcmp as bs else (a.toNat : ℤ) - b.toNat
  | _, _ => 0

/-- `Slice::compare`, and `BytewiseComparator`'s `Compare`. -/
def sliceCompare (a b : Bytes) : ℤ :=
  let min_len := if a.length < b.length then a.length else b.length
  let r := memcmp (a.take min_len) (b.take min_len)
  if r = 0 then if a.length < b.length then -1 else if b.length < a.length then 1 else r
  else r

/-! ## Internal keys -/

def kValueTypeForSeek : ValueType := .kTypeValue

def kMaxSequenceNumber : UInt64 := ((1 : UInt64) <<< 56) - 1

/-- `PackSequenceAndType` -/
def packSequenceAndType (seq : UInt64) (t : ValueType) : UInt64 := (seq <<< 8) ||| t.code.toUInt64

/-- `ParsedInternalKey` -/
structure ParsedInternalKey where
  user_key : Bytes
  sequence : UInt64
  type : ValueType
  deriving DecidableEq, Repr

/-- `AppendInternalKey`: what is appended. -/
def appendInternalKey (key : ParsedInternalKey) : Bytes :=
  key.user_key ++ encodeFixed64 (packSequenceAndType key.sequence key.type)

/-- The enumerator of a byte. -/
def ValueType.ofCode (c : UInt8) : Option ValueType :=
  if c = 0 then some .kTypeDeletion else if c = 1 then some .kTypeValue else none

/-- `ParseInternalKey` -/
def parseInternalKey (internal_key : Bytes) : Option ParsedInternalKey :=
  let n := internal_key.length
  if n < 8 then none
  else
    let num := decodeFixed64 (internal_key.drop (n - 8))
    let c := (num &&& 0xff).toUInt8
    (ValueType.ofCode c).map fun type =>
      { user_key := internal_key.take (n - 8)
        sequence := num >>> 8
        type := type }

/-- `ExtractUserKey` -/
def extractUserKey (internal_key : Bytes) : Bytes := internal_key.take (internal_key.length - 8)

/-- The eight bytes behind the user key. -/
def extractTag (internal_key : Bytes) : UInt64 :=
  decodeFixed64 (internal_key.drop (internal_key.length - 8))

/-- `InternalKeyComparator::Compare` -/
def internalCompare (akey bkey : Bytes) : ℤ :=
  let r := sliceCompare (extractUserKey akey) (extractUserKey bkey)
  if r = 0 then
    let anum := extractTag akey
    let bnum := extractTag bkey
    if bnum < anum then -1 else if anum < bnum then 1 else r
  else r

/-- `LookupKey`: the key of a memtable that it makes. -/
def memtableKey (user_key : Bytes) (s : UInt64) : Bytes :=
  encodeVarint32 (.ofNat (user_key.length + 8)) ++
    (user_key ++ encodeFixed64 (packSequenceAndType s kValueTypeForSeek))

/-! ## The orders -/

theorem sliceCompare_cons (x y : UInt8) (a b : Bytes) :
    sliceCompare (x :: a) (y :: b)
      = if x = y then sliceCompare a b else (x.toNat : ℤ) - y.toNat := by
  have hmin : (if (x :: a).length < (y :: b).length then (x :: a).length else (y :: b).length)
      = (if a.length < b.length then a.length else b.length) + 1 := by
    rw [List.length_cons, List.length_cons]
    split_ifs <;> omega
  rw [sliceCompare, sliceCompare, hmin, List.take_succ_cons, List.take_succ_cons, memcmp]
  by_cases hxy : x = y
  · simp [hxy]
  · have hne : x.toNat ≠ y.toNat := fun he => hxy (UInt8.toNat_inj.mp he)
    rw [if_neg hxy, if_neg hxy, if_neg (by omega)]

/-- `Slice::compare` is the order of byte strings. -/
theorem sliceCompare_spec (a b : Bytes) :
    (sliceCompare a b < 0 ↔ a < b) ∧ (sliceCompare a b = 0 ↔ a = b) := by
  induction a generalizing b with
  | nil =>
      cases b with
      | nil => exact ⟨iff_of_false (by decide) (lt_irrefl _), iff_of_true rfl rfl⟩
      | cons y b =>
          have h : sliceCompare [] (y :: b) = -1 := rfl
          rw [h]
          exact ⟨iff_of_true (by decide) (List.nil_lt_cons y b), iff_of_false (by decide) nofun⟩
  | cons x a ih =>
      cases b with
      | nil =>
          have h : sliceCompare (x :: a) [] = 1 := rfl
          rw [h]
          exact ⟨iff_of_false (by decide) (List.not_lt_nil _), iff_of_false (by decide) nofun⟩
      | cons y b =>
          obtain ⟨hlt, heq⟩ := ih b
          rw [sliceCompare_cons, cons_lt_cons]
          by_cases hxy : x = y
          · subst hxy
            rw [if_pos rfl, hlt, heq]
            simp
          · have hne : x.toNat ≠ y.toNat := fun he => hxy (UInt8.toNat_inj.mp he)
            rw [if_neg hxy, UInt8.lt_iff_toNat_lt]
            refine ⟨?_, iff_of_false (by omega) fun he => hxy (List.cons.inj he).1⟩
            simp only [hxy, false_and, or_false]
            omega

theorem sliceCompare_lt {a b : Bytes} : sliceCompare a b < 0 ↔ a < b := (sliceCompare_spec a b).1

theorem sliceCompare_eq {a b : Bytes} : sliceCompare a b = 0 ↔ a = b := (sliceCompare_spec a b).2

/-- What internal keys are ordered by. -/
abbrev InternalOrder := Bytes ×ₗ ℕᵒᵈ

/-- The place of an internal key. -/
def internalRank (internal_key : Bytes) : InternalOrder :=
  toLex (extractUserKey internal_key, OrderDual.toDual (extractTag internal_key).toNat)

theorem internalCompare_lt (a b : Bytes) :
    internalCompare a b < 0 ↔ internalRank a < internalRank b := by
  have hlt : extractTag b < extractTag a ↔ (extractTag b).toNat < (extractTag a).toNat :=
    UInt64.lt_iff_toNat_lt
  rw [internalRank, internalRank, Prod.Lex.toLex_lt_toLex, OrderDual.toDual_lt_toDual, ← hlt,
    ← sliceCompare_lt, ← sliceCompare_eq, internalCompare]
  dsimp only
  by_cases hr : sliceCompare (extractUserKey a) (extractUserKey b) = 0
  · rw [if_pos hr]
    by_cases htag : extractTag b < extractTag a
    · simp [htag, hr]
    · rw [if_neg htag]
      split <;> simp [htag, hr]
  · rw [if_neg hr]
    simp [hr]

theorem internalCompare_eq (a b : Bytes) :
    internalCompare a b = 0 ↔ internalRank a = internalRank b := by
  have heq : internalRank a = internalRank b ↔
      extractUserKey a = extractUserKey b ∧ (extractTag a).toNat = (extractTag b).toNat := by
    rw [internalRank, internalRank, toLex_inj, Prod.mk.injEq, OrderDual.toDual_inj]
  rw [heq, ← sliceCompare_eq, internalCompare]
  dsimp only
  by_cases hr : sliceCompare (extractUserKey a) (extractUserKey b) = 0
  · rw [if_pos hr]
    have htag : extractTag b < extractTag a ↔ (extractTag b).toNat < (extractTag a).toNat :=
      UInt64.lt_iff_toNat_lt
    have htag' : extractTag a < extractTag b ↔ (extractTag a).toNat < (extractTag b).toNat :=
      UInt64.lt_iff_toNat_lt
    simp only [htag, htag', hr, true_and]
    split_ifs <;> simp <;> omega
  · rw [if_neg hr]
    simp [hr]

/-! ## Encoded keys -/

theorem extractUserKey_append (user_key : Bytes) (tag : UInt64) :
    extractUserKey (user_key ++ encodeFixed64 tag) = user_key := by
  rw [extractUserKey, List.length_append, length_encodeFixed64, Nat.add_sub_cancel, List.take_left]

theorem extractTag_append (user_key : Bytes) (tag : UInt64) :
    extractTag (user_key ++ encodeFixed64 tag) = tag := by
  have h := decodeFixed64_encode tag []
  rw [List.append_nil] at h
  rw [extractTag, List.length_append, length_encodeFixed64, Nat.add_sub_cancel, List.drop_left, h]

theorem internalRank_append (user_key : Bytes) (tag : UInt64) :
    internalRank (user_key ++ encodeFixed64 tag)
      = toLex (user_key, OrderDual.toDual tag.toNat) := by
  rw [internalRank, extractUserKey_append, extractTag_append]

/-- Sequence number and type side by side. -/
theorem toNat_packSequenceAndType {seq : UInt64} (h : seq ≤ kMaxSequenceNumber) (t : ValueType) :
    (packSequenceAndType seq t).toNat = seq.toNat * 256 + t.code.toNat := by
  have hseq : seq.toNat < 2 ^ 56 := by
    have : seq.toNat ≤ kMaxSequenceNumber.toNat := UInt64.le_iff_toNat_le.mp h
    have hmax : kMaxSequenceNumber.toNat = 2 ^ 56 - 1 := rfl
    omega
  have hcode : t.code.toNat < 2 ^ 8 := t.code.toNat_lt
  rw [packSequenceAndType, UInt64.toNat_or, UInt64.toNat_shiftLeft, UInt8.toNat_toUInt64]
  show seq.toNat <<< 8 % 2 ^ 64 ||| t.code.toNat = _
  rw [Nat.shiftLeft_eq, Nat.mod_eq_of_lt (by omega), Nat.mul_comm,
    ← Nat.two_pow_add_eq_or_of_lt hcode]

theorem packed_type {seq : UInt64} (h : seq ≤ kMaxSequenceNumber) (t : ValueType) :
    (packSequenceAndType seq t &&& 0xff).toUInt8 = t.code := by
  have hcode : t.code.toNat < 2 := by cases t <;> decide
  refine UInt8.toNat_inj.mp ?_
  rw [UInt64.toNat_toUInt8, UInt64.toNat_and, toNat_packSequenceAndType h]
  show ((seq.toNat * 256 + t.code.toNat) &&& 255) % 2 ^ 8 = _
  rw [Nat.and_two_pow_sub_one_eq_mod _ 8]
  omega

theorem packed_sequence {seq : UInt64} (h : seq ≤ kMaxSequenceNumber) (t : ValueType) :
    packSequenceAndType seq t >>> 8 = seq := by
  have hcode : t.code.toNat < 2 := by cases t <;> decide
  refine UInt64.toNat_inj.mp ?_
  rw [UInt64.toNat_shiftRight, toNat_packSequenceAndType h]
  show (seq.toNat * 256 + t.code.toNat) >>> 8 = _
  rw [Nat.shiftRight_eq_div_pow]
  omega

theorem ofCode_code (t : ValueType) : ValueType.ofCode t.code = some t := by cases t <;> rfl

/-- What is appended is parsed. -/
theorem parseInternalKey_append (key : ParsedInternalKey) (h : key.sequence ≤ kMaxSequenceNumber) :
    parseInternalKey (appendInternalKey key) = some key := by
  have htag := extractTag_append key.user_key (packSequenceAndType key.sequence key.type)
  have huser := extractUserKey_append key.user_key (packSequenceAndType key.sequence key.type)
  rw [extractTag] at htag
  rw [extractUserKey] at huser
  rw [parseInternalKey, appendInternalKey, if_neg (by
    rw [List.length_append, length_encodeFixed64]
    omega), htag]
  dsimp only
  rw [packed_type h, packed_sequence h, huser, ofCode_code]
  rfl

end LevelDb

end Tablefs
