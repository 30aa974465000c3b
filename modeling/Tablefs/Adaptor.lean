/-
The writes of `LevelDBAdaptor` (`leveldb_adaptor.cpp`) and how much of them is not synced.

With `leveldb.sync.size.limit` set, `Put` adds up the sizes of its records in
`async_data_size` and issues a write with `sync = true` when the sum passes the limit.
`Delete` and `Write` issue theirs without counting them, and the sum is an `int` that
records of any size are added to. So what is not synced stays below the limit exactly in
those sequences of calls whose records keep the count in an `int` and, counted or not, fit
in what the limit leaves (`unsynced_bounded_iff`); for `Put` and `Sync` alone the second is
no condition (`fits_of_counted`).

`logon` only makes the functions write to the log, and is left out.
-/
import Tablefs.World
import Tablefs.Lib.Run

set_option autoImplicit false

namespace Tablefs

open ByteString

/-! ## What is handed to LevelDB -/

/-- `leveldb::WriteOptions` -/
structure WriteOptions where
  sync : Bool
  writeahead : Bool
  deriving DecidableEq, Repr

/-- `WriteOptions()` -/
def WriteOptions.default : WriteOptions := ⟨false, true⟩

/-- The key and value bytes of an operation of a batch. -/
def BatchOp.bytes : BatchOp → ℕ
  | .put key value => key.length + value.length
  | .delete key => key.length

/-- The key and value bytes of a write. -/
def DbEffect.bytes : DbEffect → ℕ
  | .put key value => key.length + value.length
  | .delete key => key.length
  | .batch ops => (ops.map BatchOp.bytes).sum

/-- A write as it is issued, and whether LevelDB says that it went well. -/
structure IssuedWrite where
  options : WriteOptions
  effect : DbEffect
  ok : Bool
  deriving DecidableEq, Repr

/-- The bytes handed over since the last write that was issued with `sync = true`. -/
def unsyncedBytes (issued : List IssuedWrite) : ℕ :=
  issued.foldl (fun n w => if w.options.sync then 0 else n + w.effect.bytes) 0

theorem unsyncedBytes_snoc (issued : List IssuedWrite) (w : IssuedWrite) :
    unsyncedBytes (issued ++ [w]) =
      if w.options.sync then 0 else unsyncedBytes issued + w.effect.bytes := by
  rw [unsyncedBytes, List.foldl_append, List.foldl_cons, List.foldl_nil, unsyncedBytes]

/-! ## `LevelDBAdaptor` -/

/-- `LevelDBAdaptor`, and the writes it has issued. `async_data_size` and `sync_size_limit` are
of type `int`. -/
structure LevelDBAdaptor where
  writeahead : Bool
  last_sync_time : ℤ
  sync_time_limit : ℤ
  async_data_size : ℤ
  sync_size_limit : ℤ
  issued : List IssuedWrite

namespace LevelDBAdaptor

/-- `Init`, with the options it finds, at the time `now`. -/
def init (writeahead : Bool) (sync_time_limit sync_size_limit now : ℤ) : LevelDBAdaptor :=
  ⟨writeahead, now, sync_time_limit, 0, sync_size_limit, []⟩

/-- A write of `db_`, and the status turned into a return value. -/
def issue (s : LevelDBAdaptor) (options : WriteOptions) (effect : DbEffect) (ok : Bool) :
    LevelDBAdaptor × ℤ :=
  ({ s with issued := s.issued ++ [⟨options, effect, ok⟩] }, if ok then 0 else -1)

/-- `async_data_size += key.size() + value.size()`: a sum of type `size_t`, cut to an `int`. -/
def addSize (s : LevelDBAdaptor) (key value : Bytes) : ℤ :=
  Int.bmod (s.async_data_size + key.length + value.length) (2 ^ 32)

/-- `Put` -/
def put (s : LevelDBAdaptor) (key value : Bytes) (now : ℤ) (ok : Bool) : LevelDBAdaptor × ℤ :=
  let (s, sync) :=
    if 0 < s.sync_size_limit then
      if s.sync_size_limit < s.addSize key value then ({ s with async_data_size := 0 }, true)
      else ({ s with async_data_size := s.addSize key value }, false)
    else if 0 < s.sync_time_limit then
      if s.sync_time_limit < now - s.last_sync_time then ({ s with last_sync_time := now }, true)
      else (s, false)
    else (s, false)
  s.issue ⟨sync, s.writeahead⟩ (.put key value) ok

/-- `Delete`, which drops the status. -/
def delete (s : LevelDBAdaptor) (key : Bytes) (ok : Bool) : LevelDBAdaptor × ℤ :=
  ((s.issue .default (.delete key) ok).1, 0)

/-- `Write` -/
def write (s : LevelDBAdaptor) (ops : List BatchOp) (ok : Bool) : LevelDBAdaptor × ℤ :=
  s.issue .default (.batch ops) ok

/-- `Sync` -/
def sync (s : LevelDBAdaptor) (ok : Bool) : LevelDBAdaptor × ℤ :=
  s.issue { WriteOptions.default with sync := true } (.put syncKey []) ok

end LevelDBAdaptor

/-- A call, with the time it is made at where that is looked at, and LevelDB's status. -/
inductive AdaptorCall
  | put (key value : Bytes) (now : ℤ) (ok : Bool)
  | delete (key : Bytes) (ok : Bool)
  | write (ops : List BatchOp) (ok : Bool)
  | sync (ok : Bool)
  deriving DecidableEq, Repr

namespace LevelDBAdaptor

/-- The state after a call. -/
def step (s : LevelDBAdaptor) : AdaptorCall → LevelDBAdaptor
  | .put key value now ok => (s.put key value now ok).1
  | .delete key ok => (s.delete key ok).1
  | .write ops ok => (s.write ops ok).1
  | .sync ok => (s.sync ok).1

/-- The bytes that are not synced. -/
def unsynced (s : LevelDBAdaptor) : ℕ := unsyncedBytes s.issued

/-! ### What each call does -/

theorem issue_unsynced (s : LevelDBAdaptor) (options : WriteOptions) (effect : DbEffect)
    (ok : Bool) : (s.issue options effect ok).1.unsynced =
      if options.sync then 0 else s.unsynced + effect.bytes :=
  unsyncedBytes_snoc s.issued ⟨options, effect, ok⟩

/-- `Put` past the limit syncs, and starts to count again. -/
theorem put_sync (s : LevelDBAdaptor) (key value : Bytes) (hl : 0 < s.sync_size_limit)
    (h : s.sync_size_limit < s.addSize key value) (now : ℤ) (ok : Bool) :
    (s.put key value now ok).1.async_data_size = 0 ∧
      (s.put key value now ok).1.sync_size_limit = s.sync_size_limit ∧
      (s.put key value now ok).1.unsynced = 0 := by
  rw [put, if_pos hl, if_pos h]
  exact ⟨rfl, rfl, issue_unsynced _ _ _ _⟩

/-- Up to the limit it counts. -/
theorem put_async (s : LevelDBAdaptor) (key value : Bytes) (hl : 0 < s.sync_size_limit)
    (h : ¬ s.sync_size_limit < s.addSize key value) (now : ℤ) (ok : Bool) :
    (s.put key value now ok).1.async_data_size = s.addSize key value ∧
      (s.put key value now ok).1.sync_size_limit = s.sync_size_limit ∧
      (s.put key value now ok).1.unsynced = s.unsynced + (key.length + value.length) := by
  rw [put, if_pos hl, if_neg h]
  exact ⟨rfl, rfl, issue_unsynced _ _ _ _⟩

/-! ## The unsynced window -/

/-- The sum that `Put` takes is an `int`. -/
def NoOverflow (s : LevelDBAdaptor) : AdaptorCall → Prop
  | .put key value _ _ =>
      0 < s.sync_size_limit → s.async_data_size + key.length + value.length < 2 ^ 31
  | _ => True

/-- What should hold of a call: the counter does not overflow, and after it no more than the
limit is not synced. -/
def Bounded (s : LevelDBAdaptor) (c : AdaptorCall) : Prop :=
  s.NoOverflow c ∧ ((s.step c).unsynced : ℤ) ≤ s.sync_size_limit

/-- The calls fit under the limit `L`, where `counted` bytes are on `Put`'s account and `room`
is what the limit leaves: every record but one that makes `Put` sync takes its size out of
the room, and no record takes the account out of the range of `int`. -/
def Fits (L : ℕ) : ℕ → ℕ → List AdaptorCall → Prop
  | _, _, [] => True
  | counted, room, .put key value _ _ :: calls =>
      counted + key.length + value.length < 2 ^ 31 ∧
        if L < counted + key.length + value.length then Fits L 0 L calls
        else key.length + value.length ≤ room ∧
          Fits L (counted + key.length + value.length) (room - (key.length + value.length)) calls
  | counted, room, .delete key _ :: calls =>
      key.length ≤ room ∧ Fits L counted (room - key.length) calls
  | counted, room, .write ops _ :: calls =>
      (DbEffect.batch ops).bytes ≤ room ∧ Fits L counted (room - (DbEffect.batch ops).bytes) calls
  | counted, _, .sync _ :: calls => Fits L counted L calls

/-- The account and the room, in a state. -/
structure Account (s : LevelDBAdaptor) (L counted room : ℕ) : Prop where
  limit : s.sync_size_limit = L
  counted : s.async_data_size = counted
  room : s.unsynced + room = L

theorem Account.addSize {s : LevelDBAdaptor} {L counted room : ℕ} (h : s.Account L counted room)
    {key value : Bytes} (hfit : counted + key.length + value.length < 2 ^ 31) :
    s.addSize key value = (counted + key.length + value.length : ℕ) := by
  rw [LevelDBAdaptor.addSize, h.counted, Int.bmod_eq_of_le] <;> omega

/-- A write that is not synced takes its bytes out of the room. -/
theorem Account.issue {s : LevelDBAdaptor} {L counted room : ℕ} (h : s.Account L counted room)
    {effect : DbEffect} (hroom : effect.bytes ≤ room) (ok : Bool) :
    (s.issue .default effect ok).1.Account L counted (room - effect.bytes) := by
  refine ⟨h.limit, h.counted, ?_⟩
  have hun : (s.issue .default effect ok).1.unsynced = s.unsynced + effect.bytes :=
    s.issue_unsynced .default effect ok
  have := h.room
  omega

/-- A write that is not synced and has no room passes the limit. -/
theorem Account.issue_bounded_iff {s : LevelDBAdaptor} {L counted room : ℕ}
    (h : s.Account L counted room) (effect : DbEffect) (ok : Bool) :
    ((s.issue .default effect ok).1.unsynced : ℤ) ≤ s.sync_size_limit ↔ effect.bytes ≤ room := by
  have hun : (s.issue .default effect ok).1.unsynced = s.unsynced + effect.bytes :=
    s.issue_unsynced .default effect ok
  have := h.room
  rw [hun, h.limit]
  omega

/-- The runs from a state whose calls are all bounded are those that fit. -/
theorem Account.bounded_iff {s : LevelDBAdaptor} {L counted room : ℕ} (hL : 0 < L)
    (h : s.Account L counted room) (calls : List AdaptorCall) :
    Transition.Meets step Bounded s calls ↔ Fits L counted room calls := by
  -- a call fits exactly if it is bounded, and the account goes on after one that fits
  induction calls generalizing s counted room with
  | nil => exact Iff.rfl
  | cons c calls ih =>
      have hl : 0 < s.sync_size_limit := by
        rw [h.limit]
        exact_mod_cast hL
      cases c with
      | put key value now ok =>
          have hfit : s.NoOverflow (.put key value now ok) ↔
              counted + key.length + value.length < 2 ^ 31 := by
            simp only [NoOverflow, h.counted]
            omega
          rw [Transition.Meets, Fits, Bounded, hfit, and_assoc, and_congr_right_iff]
          intro hint
          have hsum := h.addSize hint
          by_cases hpast : L < counted + key.length + value.length
          · obtain ⟨hcount, hlim, hun⟩ := put_sync s key value hl
              (by rw [hsum, h.limit]; exact_mod_cast hpast) now ok
            have hnext : (s.step (.put key value now ok)).Account L 0 L :=
              ⟨hlim.trans h.limit, hcount, by rw [step, hun, Nat.zero_add]⟩
            rw [if_pos hpast, ← ih hnext, and_iff_right]
            rw [step, hun]
            exact hl.le
          · obtain ⟨hcount, hlim, hun⟩ := put_async s key value hl
              (by rw [hsum, h.limit]; exact_mod_cast hpast) now ok
            have hbound : ((s.step (.put key value now ok)).unsynced : ℤ) ≤ s.sync_size_limit ↔
                key.length + value.length ≤ room := by
              have := h.room
              rw [step, hun, h.limit]
              omega
            rw [if_neg hpast, hbound, and_congr_right_iff]
            intro hroom
            apply ih
            refine ⟨hlim.trans h.limit, hcount.trans hsum, ?_⟩
            have := h.room
            rw [step, hun]
            omega
      | delete key ok =>
          rw [Transition.Meets, Fits, Bounded]
          refine and_congr ?_ Iff.rfl |>.trans (and_congr_right fun hroom => ?_)
          · exact (true_and _).to_iff.trans (h.issue_bounded_iff (.delete key) ok)
          · apply ih
            exact h.issue (show (DbEffect.delete key).bytes ≤ room from hroom) ok
      | write ops ok =>
          rw [Transition.Meets, Fits, Bounded]
          refine and_congr ?_ Iff.rfl |>.trans (and_congr_right fun hroom => ?_)
          · exact (true_and _).to_iff.trans (h.issue_bounded_iff (.batch ops) ok)
          · exact ih (h.issue hroom ok)
      | sync ok =>
          have hun : (s.step (.sync ok)).unsynced = 0 := s.issue_unsynced _ _ ok
          have hnext : (s.step (.sync ok)).Account L counted L :=
            ⟨h.limit, h.counted, by rw [hun, Nat.zero_add]⟩
          rw [Transition.Meets, Fits, ← ih hnext, and_iff_right]
          refine ⟨trivial, ?_⟩
          rw [hun]
          exact hl.le

/-- In every sequence of calls under a limit `L`, the counter never overflows and never more
than `L` bytes are not synced, if and only if the calls fit. -/
theorem unsynced_bounded_iff (writeahead : Bool) (sync_time_limit now : ℤ) (L : ℕ) (hL : 0 < L)
    (calls : List AdaptorCall) :
    Transition.Meets step Bounded (init writeahead sync_time_limit L now) calls ↔
      Fits L 0 L calls := by
  have hstart : (init writeahead sync_time_limit L now).Account L 0 L :=
    ⟨rfl, rfl, Nat.zero_add L⟩
  exact hstart.bounded_iff hL calls

/-- A record, a rename in a batch and a record that passes the limit of 64 bytes. -/
theorem unsynced_bounded_rename :
    let calls : List AdaptorCall := [.put [1, 2] [3, 4, 5] 0 true,
      .write [.delete [1, 2], .put [6, 7] [3, 4, 5]] true, .put [8] (List.replicate 60 9) 0 true]
    0 < 64 ∧ Transition.Meets step Bounded (init true 5 (64 : ℕ) 0) calls := by
  refine ⟨by decide, (unsynced_bounded_iff true 5 0 64 (by decide) _).mpr ?_⟩
  simp [Fits, DbEffect.bytes, BatchOp.bytes]

/-- A limit of 8 bytes, and one `Delete` with a key of 16. -/
theorem delete_passes_limit : ¬ ∀ (writeahead : Bool) (sync_time_limit now : ℤ) (L : ℕ), 0 < L →
    ∀ calls : List AdaptorCall,
      Transition.Meets step Bounded (init writeahead sync_time_limit L now) calls := by
  intro hall
  have hmet := hall true 5 0 8 (by decide) [.delete (List.replicate 16 1) true]
  exact absurd hmet.1.2 (by decide)

/-! ## What the account is good for -/

/-- The call is on the account: a `Put` whose record fits in an `int` on top of the limit, or
`Sync`. -/
def Counted (L : ℕ) : AdaptorCall → Prop
  | .put key value _ _ => L + key.length + value.length < 2 ^ 31
  | .sync _ => True
  | _ => False

/-- `Put` and `Sync` alone always fit. -/
theorem fits_of_counted {L counted room : ℕ} {calls : List AdaptorCall}
    (hcalls : ∀ c ∈ calls, Counted L c) (hcount : counted ≤ L) (hroom : L ≤ counted + room) :
    Fits L counted room calls := by
  induction calls generalizing counted room with
  | nil => trivial
  | cons c calls ih =>
      have hc := hcalls c List.mem_cons_self
      have hrest : ∀ c ∈ calls, Counted L c := fun c hc => hcalls c (List.mem_cons_of_mem _ hc)
      cases c with
      | put key value now ok =>
          have hsize : L + key.length + value.length < 2 ^ 31 := hc
          refine ⟨by omega, ?_⟩
          by_cases hpast : L < counted + key.length + value.length
          · rw [if_pos hpast]
            exact ih hrest (Nat.zero_le L) (by omega)
          · rw [if_neg hpast]
            exact ⟨by omega, ih hrest (by omega) (by omega)⟩
      | sync ok => exact ih hrest hcount (by omega)
      | delete key ok => exact hc.elim
      | write ops ok => exact hc.elim

end LevelDBAdaptor

/-! ## The adaptor under the store's model -/

/-- The metadata store after the writes that LevelDB has carried out. -/
def replayWrites (db : MetaDb) (issued : List IssuedWrite) : MetaDb :=
  issued.foldl (fun db w => if w.ok then w.effect.apply db else db) db

/-- A write of the store's model is one that the adaptor issues, with the same return value
and the same effect. -/
theorem Store.tryCommit_issue (s : Store) (a : LevelDBAdaptor) (options : WriteOptions)
    (e : DbEffect) (ok : Bool) (db : MetaDb) (hdb : replayWrites db a.issued = s.metadb) :
    replayWrites db (a.issue options e ok).1.issued =
        ({ s with dbFaults := [!ok] }.tryCommit e).1.metadb ∧
      (a.issue options e ok).2 = ({ s with dbFaults := [!ok] }.tryCommit e).2 := by
  have hreplay : replayWrites db (a.issue options e ok).1.issued =
      if ok then e.apply s.metadb else s.metadb := by
    rw [← hdb, replayWrites, replayWrites, LevelDBAdaptor.issue, List.foldl_append]
    rfl
  rw [hreplay]
  cases ok <;> exact ⟨rfl, rfl⟩

end Tablefs
