/-
`WriteBatch` of `db/write_batch.cc`: a sequence number, a count and the records of the
operations, in one string.

`Made b ops` says how the store's client and its writer build a batch: from a cleared one, by
`Put`, `Delete`, `Append` of another batch and `SetSequence`. The first result is that
`Iterate` of such a batch makes exactly the calls `ops` and ends well; the second, that no
proper front of its string does.
-/
import Tablefs.World
import Tablefs.LevelDb.Coding

set_option autoImplicit false

namespace Tablefs

namespace LevelDb

open ByteString

/-- The statuses the modelled functions return. -/
inductive Status
  | ok
  | notFound
  | corruption (msg : String)
  deriving DecidableEq, Repr

/-- `ValueType` -/
inductive ValueType
  | kTypeDeletion
  | kTypeValue
  deriving DecidableEq, Repr

/-- The value of the enumerator. -/
def ValueType.code : ValueType → UInt8
  | .kTypeDeletion => 0
  | .kTypeValue => 1

/-- `rep_` of a `WriteBatch`. -/
structure WriteBatch where
  rep_ : Bytes
  deriving DecidableEq, Repr

namespace WriteBatch

def kHeader : ℕ := 12

/-- `Clear` -/
def clear : WriteBatch := ⟨List.replicate kHeader 0⟩

/-- `WriteBatchInternal::Count`, an `int`. -/
def count (b : WriteBatch) : ℤ := (decodeFixed32 (b.rep_.drop 8)).toInt32.toInt

/-- `WriteBatchInternal::SetCount` -/
def setCount (b : WriteBatch) (n : ℤ) : WriteBatch :=
  ⟨replace b.rep_ 8 4 (encodeFixed32 (.ofInt n))⟩

/-- `WriteBatchInternal::Sequence` -/
def sequence (b : WriteBatch) : UInt64 := decodeFixed64 b.rep_

/-- `WriteBatchInternal::SetSequence` -/
def setSequence (b : WriteBatch) (seq : UInt64) : WriteBatch :=
  ⟨replace b.rep_ 0 8 (encodeFixed64 seq)⟩

/-- `WriteBatch::Put` -/
def put (b : WriteBatch) (key value : Bytes) : WriteBatch :=
  let b := b.setCount (b.count + 1)
  ⟨b.rep_ ++ ValueType.kTypeValue.code :: putLengthPrefixedSlice key
    ++ putLengthPrefixedSlice value⟩

/-- `WriteBatch::Delete` -/
def delete (b : WriteBatch) (key : Bytes) : WriteBatch :=
  let b := b.setCount (b.count + 1)
  ⟨b.rep_ ++ ValueType.kTypeDeletion.code :: putLengthPrefixedSlice key⟩

/-- `WriteBatchInternal::Append` -/
def append (dst src : WriteBatch) : WriteBatch :=
  let dst := dst.setCount (dst.count + src.count)
  ⟨dst.rep_ ++ src.rep_.drop kHeader⟩

/-- One turn of the loop of `Iterate`: the call on the handler and the rest of the input. -/
def iterateTurn (tag : UInt8) (input : Bytes) : Except Status (BatchOp × Bytes) :=
  if tag = ValueType.kTypeValue.code then
    match getLengthPrefixedSlice input with
    | some (key, input) =>
        match getLengthPrefixedSlice input with
        | some (value, input) => .ok (.put key value, input)
        | none => .error (.corruption "bad WriteBatch Put")
    | none => .error (.corruption "bad WriteBatch Put")
  else if tag = ValueType.kTypeDeletion.code then
    match getLengthPrefixedSlice input with
    | some (key, input) => .ok (.delete key, input)
    | none => .error (.corruption "bad WriteBatch Delete")
  else .error (.corruption "unknown WriteBatch tag")

/-- The loop of `Iterate`: the calls on the handler, and the status when it returns from
inside. A turn takes a byte or more, so as many turns as there are bytes are enough. -/
def iterateLoop : ℕ → Bytes → List BatchOp × Status
  | _, [] => ([], .ok)
  | 0, _ :: _ => ([], .ok)
  | n + 1, tag :: input =>
      match iterateTurn tag input with
      | .error s => ([], s)
      | .ok (op, input) => (op :: (iterateLoop n input).1, (iterateLoop n input).2)

/-- `WriteBatch::Iterate`: the calls on the handler, and the status. -/
def iterate (b : WriteBatch) : List BatchOp × Status :=
  if b.rep_.length < kHeader then ([], .corruption "malformed WriteBatch (too small)")
  else
    let r := iterateLoop (b.rep_.length - kHeader) (b.rep_.drop kHeader)
    if r.2 ≠ .ok then r
    else if (r.1.length : ℤ) ≠ b.count then (r.1, .corruption "WriteBatch has wrong count")
    else (r.1, .ok)

/-! ## The records -/

/-- The record of an operation. -/
def record : BatchOp → Bytes
  | .put key value =>
      ValueType.kTypeValue.code :: (putLengthPrefixedSlice key ++ putLengthPrefixedSlice value)
  | .delete key => ValueType.kTypeDeletion.code :: putLengthPrefixedSlice key

/-- The lengths of the operation's strings fit their 32 bits. -/
def Small : BatchOp → Prop
  | .put key value => key.length < 2 ^ 32 ∧ value.length < 2 ^ 32
  | .delete key => key.length < 2 ^ 32

instance : (op : BatchOp) → Decidable (Small op)
  | .put _ _ => inferInstanceAs (Decidable (_ ∧ _))
  | .delete _ => inferInstanceAs (Decidable (_ < _))

theorem record_ne_nil (op : BatchOp) : record op ≠ [] := by
  cases op <;> exact List.cons_ne_nil _ _

theorem record_cons (op : BatchOp) : ∃ tag input, record op = tag :: input := by
  cases op <;> exact ⟨_, _, rfl⟩

/-- A turn reads the record in front. -/
theorem iterateTurn_record {op : BatchOp} (h : Small op) {tag : UInt8} {input : Bytes}
    (hr : record op = tag :: input) (rest : Bytes) :
    iterateTurn tag (input ++ rest) = .ok (op, rest) := by
  cases op with
  | put key value =>
      obtain ⟨rfl, rfl⟩ := List.cons.inj hr
      rw [iterateTurn, if_pos rfl, List.append_assoc, getLengthPrefixedSlice_put h.1]
      dsimp only
      rw [getLengthPrefixedSlice_put h.2]
  | delete key =>
      obtain ⟨rfl, rfl⟩ := List.cons.inj hr
      rw [iterateTurn, if_neg (by decide), if_pos rfl, getLengthPrefixedSlice_put h]

/-- A turn sees that a record is cut short. -/
theorem iterateTurn_torn {op : BatchOp} (h : Small op) {tag : UInt8} {input : Bytes}
    (hr : record op = tag :: input) {k : ℕ} (hk : k < input.length) :
    ∃ msg, iterateTurn tag (input.take k) = .error (.corruption msg) := by
  cases op with
  | put key value =>
      obtain ⟨rfl, rfl⟩ := List.cons.inj hr
      refine ⟨"bad WriteBatch Put", ?_⟩
      rw [iterateTurn, if_pos rfl]
      rw [List.length_append] at hk
      by_cases hkey : k < (putLengthPrefixedSlice key).length
      · rw [List.take_append_of_le_length hkey.le, getLengthPrefixedSlice_torn h.1 hkey]
      · rw [List.take_append, List.take_of_length_le (by omega), getLengthPrefixedSlice_put h.1]
        dsimp only
        rw [getLengthPrefixedSlice_torn h.2 (by omega)]
  | delete key =>
      obtain ⟨rfl, rfl⟩ := List.cons.inj hr
      refine ⟨"bad WriteBatch Delete", ?_⟩
      rw [iterateTurn, if_neg (by decide), if_pos rfl, getLengthPrefixedSlice_torn h hk]

/-- The loop makes one call a record. -/
theorem iterateLoop_records {ops : List BatchOp} (h : ∀ op ∈ ops, Small op) {n : ℕ}
    (hn : (ops.flatMap record).length ≤ n) :
    iterateLoop n (ops.flatMap record) = (ops, .ok) := by
  induction ops generalizing n with
  | nil => cases n <;> rfl
  | cons op ops ih =>
      obtain ⟨tag, input, hr⟩ := record_cons op
      rw [List.flatMap_cons, hr] at hn ⊢
      rw [List.cons_append, List.length_cons, List.length_append] at hn
      cases n with
      | zero => omega
      | succ n =>
          rw [List.cons_append, iterateLoop, iterateTurn_record (h op List.mem_cons_self) hr]
          dsimp only
          rw [ih (fun op' h' => h op' (List.mem_cons_of_mem op h')) (by omega)]

/-- On a proper front of the records the loop makes the calls of some of them, and if it ends
well, not of all. -/
theorem iterateLoop_torn {ops : List BatchOp} (h : ∀ op ∈ ops, Small op) {n k : ℕ}
    (hn : k ≤ n) (hk : k < (ops.flatMap record).length) :
    (iterateLoop n ((ops.flatMap record).take k)).1 <+: ops ∧
      ((iterateLoop n ((ops.flatMap record).take k)).2 = .ok →
        (iterateLoop n ((ops.flatMap record).take k)).1.length < ops.length) := by
  induction ops generalizing n k with
  | nil => exact absurd hk (Nat.not_lt_zero k)
  | cons op ops ih =>
      obtain ⟨tag, input, hr⟩ := record_cons op
      rw [List.flatMap_cons, hr] at hk ⊢
      rw [List.cons_append, List.length_cons, List.length_append] at hk
      cases k with
      | zero =>
          rw [List.take_zero, iterateLoop]
          exact ⟨List.nil_prefix, fun _ => Nat.succ_pos _⟩
      | succ k =>
          cases n with
          | zero => omega
          | succ n =>
              rw [List.cons_append, List.take_succ_cons, iterateLoop]
              by_cases hin : k < input.length
              · obtain ⟨msg, hmsg⟩ := iterateTurn_torn (h op List.mem_cons_self) hr hin
                rw [List.take_append_of_le_length hin.le, hmsg]
                exact ⟨List.nil_prefix, fun he => by cases he⟩
              · obtain ⟨hpre, hlen⟩ := ih (fun op' h' => h op' (List.mem_cons_of_mem op h'))
                  (n := n) (k := k - input.length) (by omega) (by omega)
                rw [List.take_append, List.take_of_length_le (by omega),
                  iterateTurn_record (h op List.mem_cons_self) hr]
                dsimp only
                refine ⟨List.cons_prefix_cons.mpr ⟨rfl, hpre⟩, fun he => ?_⟩
                rw [List.length_cons, List.length_cons]
                exact Nat.succ_lt_succ (hlen he)

/-! ## The batches that are built -/

/-- The batch of a sequence number and operations. -/
def build (seq : UInt64) (ops : List BatchOp) : WriteBatch :=
  ⟨encodeFixed64 seq ++ (encodeFixed32 (.ofNat ops.length) ++ ops.flatMap record)⟩

/-- `b` was built by the functions of its interface, from `ops`. -/
inductive Made : WriteBatch → List BatchOp → Prop
  | clear : Made clear []
  | put {b : WriteBatch} {ops : List BatchOp} (h : Made b ops) (key value : Bytes) :
      Made (b.put key value) (ops ++ [.put key value])
  | delete {b : WriteBatch} {ops : List BatchOp} (h : Made b ops) (key : Bytes) :
      Made (b.delete key) (ops ++ [.delete key])
  | append {b b' : WriteBatch} {ops ops' : List BatchOp} (h : Made b ops) (h' : Made b' ops') :
      Made (b.append b') (ops ++ ops')
  | setSequence {b : WriteBatch} {ops : List BatchOp} (h : Made b ops) (seq : UInt64) :
      Made (b.setSequence seq) ops

theorem build_rep_drop (seq : UInt64) (ops : List BatchOp) :
    (build seq ops).rep_.drop 8 = encodeFixed32 (.ofNat ops.length) ++ ops.flatMap record :=
  List.drop_left' (length_encodeFixed64 seq)

theorem build_data (seq : UInt64) (ops : List BatchOp) :
    (build seq ops).rep_.drop kHeader = ops.flatMap record := by
  rw [show kHeader = 8 + 4 from rfl, ← List.drop_drop, build_rep_drop]
  exact List.drop_left' (length_encodeFixed32 _)

theorem build_length (seq : UInt64) (ops : List BatchOp) :
    (build seq ops).rep_.length = kHeader + (ops.flatMap record).length := by
  rw [build, List.length_append, List.length_append, length_encodeFixed64, length_encodeFixed32,
    kHeader]
  omega

/-- The count as the 32 bits it is stored in. -/
theorem ofInt_toInt (x : UInt32) : UInt32.ofInt x.toInt32.toInt = x := by
  refine UInt32.toNat_inj.mp ?_
  have h : x.toInt32.toInt = (x.toNat : ℤ).bmod (2 ^ 32) := by
    rw [UInt32.toInt32, ← Int32.toInt_toBitVec]
    exact BitVec.toInt_eq_toNat_bmod _
  have hmod : (x.toNat : ℤ).bmod (2 ^ 32) % 2 ^ 32 = (x.toNat : ℤ) % 2 ^ 32 := Int.bmod_emod
  rw [h, UInt32.ofInt, UInt32.toNat_ofNat', hmod]
  have hx := x.toNat_lt
  omega

theorem build_count (seq : UInt64) (ops : List BatchOp) :
    UInt32.ofInt (build seq ops).count = .ofNat ops.length := by
  rw [count, build_rep_drop, decodeFixed32_encode, ofInt_toInt]

theorem build_count_of_lt (seq : UInt64) {ops : List BatchOp} (h : ops.length < 2 ^ 31) :
    (build seq ops).count = ops.length := by
  rw [count, build_rep_drop, decodeFixed32_encode, UInt32.toInt32, ← Int32.toInt_toBitVec]
  refine (BitVec.toInt_ofNat' (n := 32) ops.length).trans ?_
  exact Int.bmod_eq_of_le (by omega) (by omega)

theorem setCount_build (seq : UInt64) (ops : List BatchOp) (n : ℤ) :
    ((build seq ops).setCount n).rep_
      = encodeFixed64 seq ++ (encodeFixed32 (.ofInt n) ++ ops.flatMap record) := by
  have h := replace_append (encodeFixed64 seq)
    (encodeFixed32 (.ofNat ops.length) ++ ops.flatMap record) (encodeFixed32 (.ofInt n)) 0 4
  rw [length_encodeFixed64, replace_front _ _ _ 4 (length_encodeFixed32 _)] at h
  exact h

theorem put_build (seq : UInt64) (ops : List BatchOp) (key value : Bytes) :
    (build seq ops).put key value = build seq (ops ++ [.put key value]) := by
  rw [put, WriteBatch.mk.injEq, setCount_build, UInt32.ofInt_add, build_count, build,
    List.length_append, List.flatMap_append, UInt32.ofNat_add]
  simp [record]

theorem delete_build (seq : UInt64) (ops : List BatchOp) (key : Bytes) :
    (build seq ops).delete key = build seq (ops ++ [.delete key]) := by
  rw [delete, WriteBatch.mk.injEq, setCount_build, UInt32.ofInt_add, build_count, build,
    List.length_append, List.flatMap_append, UInt32.ofNat_add]
  simp [record]

theorem append_build (seq seq' : UInt64) (ops ops' : List BatchOp) :
    (build seq ops).append (build seq' ops') = build seq (ops ++ ops') := by
  rw [append, WriteBatch.mk.injEq, setCount_build, UInt32.ofInt_add, build_count, build_count,
    build_data, build, List.length_append, List.flatMap_append, UInt32.ofNat_add]
  simp

theorem setSequence_build (seq seq' : UInt64) (ops : List BatchOp) :
    (build seq ops).setSequence seq' = build seq' ops := by
  rw [setSequence, WriteBatch.mk.injEq]
  exact replace_front _ _ _ 8 (length_encodeFixed64 seq)

theorem Made.build {b : WriteBatch} {ops : List BatchOp} (h : Made b ops) :
    ∃ seq, b = build seq ops := by
  induction h with
  | clear => exact ⟨0, rfl⟩
  | put _ key value ih =>
      obtain ⟨seq, rfl⟩ := ih
      exact ⟨seq, put_build seq _ key value⟩
  | delete _ key ih =>
      obtain ⟨seq, rfl⟩ := ih
      exact ⟨seq, delete_build seq _ key⟩
  | append _ _ ih ih' =>
      obtain ⟨seq, rfl⟩ := ih
      obtain ⟨seq', rfl⟩ := ih'
      exact ⟨seq, append_build seq seq' _ _⟩
  | setSequence _ seq' ih =>
      obtain ⟨seq, rfl⟩ := ih
      exact ⟨seq', setSequence_build seq seq' _⟩

theorem sequence_build (seq : UInt64) (ops : List BatchOp) : (build seq ops).sequence = seq :=
  decodeFixed64_encode seq _

theorem iterate_build (seq : UInt64) {ops : List BatchOp} (h : ∀ op ∈ ops, Small op)
    (hlen : ops.length < 2 ^ 31) : (build seq ops).iterate = (ops, .ok) := by
  rw [iterate, if_neg (by rw [build_length]; omega), build_data, build_length,
    iterateLoop_records h (by omega)]
  dsimp only
  rw [if_neg (not_not.mpr rfl), build_count_of_lt seq hlen, if_neg (not_not.mpr rfl)]

/-- `Iterate` of a batch that was built makes the calls it was built by, in their order. -/
theorem iterate_made {b : WriteBatch} {ops : List BatchOp} (h : Made b ops)
    (hs : ∀ op ∈ ops, Small op) (hlen : ops.length < 2 ^ 31) : b.iterate = (ops, .ok) := by
  obtain ⟨seq, rfl⟩ := h.build
  exact iterate_build seq hs hlen

theorem putDelete_iterate :
    ((clear.put [1] [2]).delete [3]).iterate = ([.put [1] [2], .delete [3]], .ok) :=
  iterate_made (.delete (.put .clear [1] [2]) [3]) (by decide) (by decide)

/-- No proper front of a batch iterates well. -/
theorem iterate_torn {b : WriteBatch} {ops : List BatchOp} (h : Made b ops)
    (hs : ∀ op ∈ ops, Small op) (hlen : ops.length < 2 ^ 31) {k : ℕ} (hk : k < b.rep_.length) :
    (WriteBatch.mk (b.rep_.take k)).iterate.1 <+: ops ∧
      (WriteBatch.mk (b.rep_.take k)).iterate.2 ≠ .ok := by
  obtain ⟨seq, rfl⟩ := h.build
  rw [iterate]
  dsimp only
  have hlk : ((build seq ops).rep_.take k).length = k := by
    rw [List.length_take]
    omega
  rw [hlk]
  by_cases hhead : k < kHeader
  · rw [if_pos hhead]
    exact ⟨List.nil_prefix, fun he => by cases he⟩
  · rw [if_neg hhead, List.drop_take, build_data]
    rw [build_length] at hk
    obtain ⟨hpre, hlt⟩ := iterateLoop_torn hs (le_refl (k - kHeader)) (by omega)
    -- the count is still that of all operations
    have hcount : (WriteBatch.mk ((build seq ops).rep_.take k)).count = ops.length := by
      rw [← build_count_of_lt seq hlen, count, count]
      dsimp only
      rw [List.drop_take, build_rep_drop, decodeFixed32, decodeFixed32, List.take_take,
        Nat.min_eq_left (by rw [kHeader] at hhead; omega)]
    rw [hcount]
    generalize iterateLoop (k - kHeader) ((ops.flatMap record).take (k - kHeader)) = r at *
    split
    · rename_i hne
      exact ⟨hpre, hne⟩
    · rename_i hok
      rw [if_pos (fun he => by
        have := hlt (not_not.mp hok)
        omega)]
      exact ⟨hpre, fun he => by cases he⟩

theorem putDelete_torn :
    (WriteBatch.mk (((clear.put [1] [2]).delete [3]).rep_.take 14)).iterate.1
        <+: [.put [1] [2], .delete [3]] ∧
      (WriteBatch.mk (((clear.put [1] [2]).delete [3]).rep_.take 14)).iterate.2 ≠ .ok :=
  iterate_torn (.delete (.put .clear [1] [2]) [3]) (by decide) (by decide) (by decide)

end WriteBatch

end LevelDb

end Tablefs
