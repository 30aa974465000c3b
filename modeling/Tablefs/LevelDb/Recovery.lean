/-
Recovery: `RecoverLogFile`, and what is left of a log that was cut short.

The log is read up to its first bad record, and what the records hold goes into a memtable.
`crash_recovers` is what the model of a crash above takes for granted of its metadata store: a
front of the writes is there, each of them wholly, and with it every write that had returned while
the log was no longer than what is left of it.

The memtable is not written out in between, and the checks are not paranoid.
-/
import Tablefs.LevelDb.TornLog
import Tablefs.LevelDb.WriteQueue

set_option autoImplicit false

namespace Tablefs

namespace LevelDb

open ByteString

/-! ## The code -/

/-- The loop of `RecoverLogFile` over the records that are read; errors are ignored. -/
def recoverLoop (prev : ℕ → ℕ) : List Bytes → MemTable → UInt64 → Option (MemTable × UInt64)
  | [], m, max_sequence => some (m, max_sequence)
  | record :: records, m, max_sequence =>
      if record.length < 12 then recoverLoop prev records m max_sequence
      else
        let batch : WriteBatch := ⟨record⟩
        match insertInto prev batch m with
        | some (m, _) =>
            let last_seq := batch.sequence + .ofInt batch.count - 1
            recoverLoop prev records m (if max_sequence < last_seq then last_seq else max_sequence)
        | none => none

/-- `RecoverLogFile`: the memtable that is filled, and `max_sequence`. -/
def recoverLogFile (prev : ℕ → ℕ) (file : Bytes) (max_sequence : UInt64) :
    Option (MemTable × UInt64) :=
  recoverLoop prev (Log.readLog file) .new max_sequence

/-- The database that `Recover` makes of one log, where the files behind it are at a number. -/
def recover (prev : ℕ → ℕ) (lastSequence : ℕ) (file : Bytes) : Option DbImpl :=
  (recoverLogFile prev file 0).map fun r =>
    { log_ := .new
      mem_ := r.1
      lastSequence := if .ofNat lastSequence < r.2 then r.2 else .ofNat lastSequence }

/-! ## The records of groups -/

theorem max_ofNat {a b : ℕ} (ha : a < 2 ^ 64) (hb : b < 2 ^ 64) :
    (if UInt64.ofNat a < .ofNat b then UInt64.ofNat b else .ofNat a) = .ofNat (max a b) := by
  have hlt : UInt64.ofNat a < .ofNat b ↔ a < b := by
    rw [UInt64.lt_iff_toNat_lt, UInt64.toNat_ofNat_of_lt' ha, UInt64.toNat_ofNat_of_lt' hb]
  split
  · rename_i h
    rw [Nat.max_eq_right (hlt.mp h).le]
  · rename_i h
    rw [Nat.max_eq_left (Nat.le_of_not_lt fun h' => h (hlt.mpr h'))]

/-- The records of groups go into the memtable as their writes did. -/
theorem recoverLoop_contents {m : MemTable} {s0 mx : ℕ} {done : List BatchOp}
    {groups : List (List DbEffect)} (h : Keeps m s0 done)
    (hfits : ∀ op ∈ done ++ groupOps groups.flatten, OpFits op)
    (hshort : ∀ g ∈ groups, (groupOps g).length < 2 ^ 31)
    (hb : s0 + (done ++ groupOps groups.flatten).length < 2 ^ 56) (hmx : mx ≤ s0 + done.length)
    (prev : ℕ → ℕ) :
    ∃ m' mx', recoverLoop prev (contents (s0 + done.length) groups) m (.ofNat mx)
        = some (m', .ofNat mx') ∧
      Keeps m' s0 (done ++ groupOps groups.flatten) ∧
      mx' = if groups = [] then mx else s0 + (done ++ groupOps groups.flatten).length := by
  induction groups generalizing m mx done with
  | nil =>
      refine ⟨m, mx, rfl, ?_, (if_pos rfl).symm⟩
      rw [List.flatten_nil, groupOps, List.flatMap_nil, List.append_nil]
      exact h
  | cons g gs ih =>
      rw [List.flatten_cons, groupOps_append, ← List.append_assoc] at hfits hb ⊢
      have hg := hshort g List.mem_cons_self
      have hlen : (done ++ groupOps g).length = done.length + (groupOps g).length :=
        List.length_append
      have hle : (done ++ groupOps g ++ groupOps gs.flatten).length
          = (done ++ groupOps g).length + (groupOps gs.flatten).length := List.length_append
      obtain ⟨m', hins, hm'⟩ := insertInto_keeps h
        (fun op ho => hfits op (List.mem_append_left _ ho)) hg (by omega) prev
      have hseq : UInt64.ofNat (s0 + done.length + 1) + .ofInt (groupOps g).length - 1
          = .ofNat (s0 + (done ++ groupOps g).length) := by
        rw [ofInt_natCast, ← UInt64.ofNat_add, hlen,
          show s0 + done.length + 1 + (groupOps g).length
            = s0 + (done.length + (groupOps g).length) + 1 by omega, ← ofNat_succ]
        exact UInt64.add_sub_cancel _ _
      have hmax : (if UInt64.ofNat mx < .ofNat (s0 + (done ++ groupOps g).length)
            then UInt64.ofNat (s0 + (done ++ groupOps g).length) else .ofNat mx)
          = .ofNat (s0 + (done ++ groupOps g).length) := by
        rw [max_ofNat (by omega) (by omega), Nat.max_eq_right (by omega)]
      obtain ⟨m'', mx'', hloop, hm'', hmx''⟩ := ih hm' hfits
        (fun g' hg' => hshort g' (List.mem_cons_of_mem g hg')) hb
        (le_refl (s0 + (done ++ groupOps g).length))
      refine ⟨m'', mx'', ?_, hm'', ?_⟩
      · rw [contents, recoverLoop, if_neg (by
          rw [WriteBatch.build_length, WriteBatch.kHeader]
          omega)]
        dsimp only
        rw [show (WriteBatch.mk (WriteBatch.build (.ofNat (s0 + done.length + 1))
            (groupOps g)).rep_) = .build (.ofNat (s0 + done.length + 1)) (groupOps g) from rfl,
          hins]
        dsimp only
        rw [WriteBatch.sequence_build, WriteBatch.build_count_of_lt _ hg, hseq, hmax,
          Nat.add_assoc, ← hlen]
        exact hloop
      · rw [hmx'', if_neg (List.cons_ne_nil g gs)]
        split
        · rename_i hnil
          rw [hnil, List.flatten_nil, groupOps, groupOps, List.flatMap_nil, List.append_nil]
        · rfl

/-- Recovery of a log with the records of groups: their writes are there, and their numbers are
taken. -/
theorem recover_contents {s0 : ℕ} {groups : List (List DbEffect)} {file : Bytes}
    (hread : Log.readLog file = contents s0 groups)
    (hfits : ∀ op ∈ groupOps groups.flatten, OpFits op)
    (hshort : ∀ g ∈ groups, (groupOps g).length < 2 ^ 31)
    (hb : s0 + (groupOps groups.flatten).length < 2 ^ 56) (prev : ℕ → ℕ) :
    ∃ m, recover prev s0 file = some ⟨.new, m, .ofNat (s0 + (groupOps groups.flatten).length)⟩ ∧
      Keeps m s0 (groupOps groups.flatten) := by
  have hnew : Keeps .new s0 [] := MemTable.new_holds (s0 + 1)
  obtain ⟨m, mx, hloop, hm, hmx⟩ := recoverLoop_contents hnew hfits hshort hb (Nat.zero_le _) prev
  refine ⟨m, ?_, hm⟩
  rw [recover, recoverLogFile, hread]
  rw [List.length_nil, Nat.add_zero] at hloop
  rw [show (0 : UInt64) = .ofNat 0 from rfl, hloop, Option.map_some, Option.some.injEq,
    DbImpl.mk.injEq]
  refine ⟨rfl, rfl, ?_⟩
  dsimp only
  rw [List.nil_append] at hmx
  have hmax : max s0 mx = s0 + (groupOps groups.flatten).length := by
    rw [hmx]
    split
    · rename_i hnil
      rw [hnil, List.flatten_nil, groupOps, List.flatMap_nil, List.length_nil]
      omega
    · omega
  have hle : mx ≤ s0 + (groupOps groups.flatten).length := hmax ▸ Nat.le_max_right s0 mx
  rw [max_ofNat (by omega) (by omega), hmax]

/-! ## After a crash -/

/-- The records of a log that was cut: those of the first groups, all that were there whole. -/
theorem torn_contents (s0 : ℕ) (groups : List (List DbEffect)) (n k : ℕ)
    (hsees : k = 0 ∨ ∀ f ∈ Log.logFragments 0 (contents s0 groups), Log.Sees f) :
    ∃ j, Log.readLog ((Log.writeLog (contents s0 groups)).take n ++ List.replicate k 0)
        = contents s0 (groups.take j) ∧
      ∀ first, first <+: groups → (Log.writeLog (contents s0 first)).length ≤ n →
        first <+: groups.take j := by
  obtain ⟨j, -, hread, hall, -⟩ := Log.readLog_torn (contents s0 groups) n k hsees
  refine ⟨j, by rw [hread, contents_take], fun first hpre hlen => ?_⟩
  have hfirst := List.prefix_iff_eq_take.mp hpre
  have hle := hall first.length (by rw [length_contents]; exact hpre.length_le) (by
    rw [contents_take, ← hfirst]
    exact hlen)
  rw [hfirst]
  exact List.take_prefix_take_left hle

end LevelDb

end Tablefs
