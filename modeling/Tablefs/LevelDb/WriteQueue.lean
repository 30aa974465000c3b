/-
Writing: `DBImpl::Write`, `BuildBatchGroup`, `InsertInto`, and the memtable's part of `Get`.

The calls of `Write` wait in a queue. The one in front joins the batches behind it to its own,
numbers their operations, appends the joined batch to the log and puts it into the memtable; all
of them return with it. `Served` says what a run of such steps has done: every call that returned
was written once, in the order of the queue, and the log is the records of the groups.

Room is made for every write, and the calls of the log's file are good.
-/
import Tablefs.Records
import Tablefs.LevelDb.LogFile
import Tablefs.LevelDb.MemTable
import Tablefs.LevelDb.WriteBatch

set_option autoImplicit false

namespace Tablefs

namespace LevelDb

open ByteString

/-! ## The code -/

/-- The calls of `MemTableInserter` from a sequence number on; `prev` is what the array in
`SkipList::Insert` holds at first. -/
def insertLoop (prev : ℕ → ℕ) : UInt64 → List BatchOp → MemTable → Option MemTable
  | _, [], m => some m
  | sequence_, .put key value :: ops, m =>
      match m.add prev sequence_ .kTypeValue key value with
      | some m => insertLoop prev (sequence_ + 1) ops m
      | none => none
  | sequence_, .delete key :: ops, m =>
      match m.add prev sequence_ .kTypeDeletion key [] with
      | some m => insertLoop prev (sequence_ + 1) ops m
      | none => none

/-- `WriteBatchInternal::InsertInto` -/
def insertInto (prev : ℕ → ℕ) (b : WriteBatch) (m : MemTable) : Option (MemTable × Status) :=
  (insertLoop prev b.sequence b.iterate.1 m).map fun m => (m, b.iterate.2)

/-- A `DBImpl::Writer` in the queue. -/
structure Writer where
  batch : Option WriteBatch
  sync : Bool

/-- `max_size` of `BuildBatchGroup`. -/
def maxGroupSize (size : ℕ) : ℕ := if size ≤ 128 <<< 10 then size + (128 <<< 10) else 1 <<< 20

/-- The loop of `BuildBatchGroup`: `tmp_batch_`, once it is used, and how many of the writers
behind the first are taken. -/
def groupLoop (first : WriteBatch) (sync : Bool) :
    ℕ → Option WriteBatch → List Writer → Option WriteBatch × ℕ
  | _, result, [] => (result, 0)
  | size, result, w :: ws =>
      if w.sync && !sync then (result, 0)
      else
        match w.batch with
        | some b =>
            let size := size + b.rep_.length
            if maxGroupSize first.rep_.length < size then (result, 0)
            else
              -- the first time, `tmp_batch_` takes the place of the caller's batch
              let result := (result.getD (WriteBatch.clear.append first)).append b
              let r := groupLoop first sync size (some result) ws
              (r.1, r.2 + 1)
        | none =>
            let r := groupLoop first sync size result ws
            (r.1, r.2 + 1)

/-- `BuildBatchGroup`: the batch to write, and how many of the writers behind are in it. -/
def buildBatchGroup (first : WriteBatch) (sync : Bool) (ws : List Writer) : WriteBatch × ℕ :=
  let r := groupLoop first sync first.rep_.length none ws
  (r.1.getD first, r.2)

/-- The parts of `DBImpl` that a write changes. -/
structure DbImpl where
  log_ : Log.Writer
  mem_ : MemTable
  lastSequence : UInt64

/-- `DBImpl::Write` by the writer in front of the queue: the status, and how many behind it are
done as well. -/
def DbImpl.write (db : DbImpl) (prev : ℕ → ℕ) (my_batch : WriteBatch) (sync writeahead : Bool)
    (ws : List Writer) : Option (DbImpl × Status × ℕ) :=
  let group := buildBatchGroup my_batch sync ws
  let updates := group.1.setSequence (db.lastSequence + 1)
  (insertInto prev updates db.mem_).map fun r =>
    ({ log_ := if writeahead then db.log_.addRecord updates.rep_ else db.log_
       mem_ := r.1
       lastSequence := db.lastSequence + .ofInt updates.count }, r.2, group.2)

/-- `DBImpl::Get` without a snapshot, where `tables` is what the files behind the memtable
have. -/
def DbImpl.get (db : DbImpl) (tables : Bytes → Option Bytes) (key : Bytes) :
    Option (Option Bytes) :=
  (db.mem_.get key db.lastSequence).map fun r =>
    match r with
    | some (.ok value) => some value
    | some (.error _) => none
    | none => tables key

/-- `DB::Put`, `DB::Delete` and the caller of `DB::Write`: the batch of a write. -/
def effectBatch : DbEffect → WriteBatch
  | .put key value => WriteBatch.clear.put key value
  | .delete key => WriteBatch.clear.delete key
  | .batch ops => ops.foldl (fun b op => match op with
      | .put key value => b.put key value
      | .delete key => b.delete key) .clear

/-- A call of `Write`: a compaction has nothing to write. -/
structure Call where
  effect : Option DbEffect
  sync : Bool
  writeahead : Bool
  deriving DecidableEq, Repr

/-- The `Writer` of a call. -/
def Call.writer (c : Call) : Writer := ⟨c.effect.map effectBatch, c.sync⟩

/-- The database, the calls in `writers_`, and those that have returned. -/
structure Server where
  db : DbImpl
  writers_ : List Call
  returned : List (Call × Status)

/-- An open database with a new log and memtable. -/
def Server.new (lastSequence : ℕ) : Server := ⟨⟨.new, .new, .ofNat lastSequence⟩, [], []⟩

inductive Turn
  /-- A call joins the queue. -/
  | join (c : Call)
  /-- The call in front does its work. -/
  | serve (prev : ℕ → ℕ)

/-- A step of the queue. Others may join while the front writes; they are behind its group. -/
def Server.step (s : Server) : Turn → Option Server
  | .join c => some { s with writers_ := s.writers_ ++ [c] }
  | .serve prev =>
      match s.writers_ with
      | [] => some s
      | c :: cs =>
          match c.effect with
          | none => some { s with writers_ := cs, returned := s.returned ++ [(c, .ok)] }
          | some e =>
              (s.db.write prev (effectBatch e) c.sync c.writeahead (cs.map Call.writer)).map
                fun r =>
                  { db := r.1
                    writers_ := cs.drop r.2.2
                    returned := s.returned ++ (c :: cs.take r.2.2).map fun c => (c, r.2.1) }

/-- The calls that join in a run. -/
def joined : List Turn → List Call
  | [] => []
  | .join c :: ts => c :: joined ts
  | .serve _ :: ts => joined ts

/-! ## Batches into the memtable -/

theorem ofNat_succ (n : ℕ) : UInt64.ofNat n + 1 = .ofNat (n + 1) := (UInt64.ofNat_add n 1).symm

theorem ofInt_natCast (n : ℕ) : UInt64.ofInt (n : ℤ) = .ofNat n := by
  refine UInt64.toNat_inj.mp ?_
  rw [UInt64.ofInt, UInt64.toNat_ofNat', UInt64.toNat_ofNat']
  omega

/-- The operations that a write makes. -/
def effectOps : DbEffect → List BatchOp
  | .put key value => [.put key value]
  | .delete key => [.delete key]
  | .batch ops => ops

theorem effectBatch_made (e : DbEffect) : WriteBatch.Made (effectBatch e) (effectOps e) := by
  cases e with
  | put key value => exact .put .clear key value
  | delete key => exact .delete .clear key
  | batch ops =>
      have h : ∀ (ops done : List BatchOp) (b : WriteBatch), WriteBatch.Made b done →
          WriteBatch.Made (ops.foldl (fun b op => match op with
            | .put key value => b.put key value
            | .delete key => b.delete key) b) (done ++ ops) := by
        intro ops
        induction ops with
        | nil =>
            intro done b h
            rw [List.append_nil]
            exact h
        | cons op ops ih =>
            intro done b h
            rw [List.foldl_cons, List.append_cons]
            refine ih _ _ ?_
            cases op with
            | put key value => exact .put h key value
            | delete key => exact .delete h key
      exact h ops [] .clear .clear

/-- The updates of some operations. -/
def updates (ops : List BatchOp) : List (Bytes × Option Bytes) := ops.map MemTable.opUpdate

/-- The strings of an operation can be put into a batch and into an entry. -/
def OpFits (op : BatchOp) : Prop := MemTable.Fits (MemTable.opUpdate op)

instance (op : BatchOp) : Decidable (OpFits op) :=
  inferInstanceAs (Decidable (_ ∧ _))

theorem OpFits.small {op : BatchOp} (h : OpFits op) : WriteBatch.Small op := by
  cases op with
  | put key value => exact ⟨by have := h.1; dsimp only [MemTable.opUpdate] at this; omega, h.2⟩
  | delete key => exact (by have := h.1; dsimp only [MemTable.opUpdate] at this; omega :
      key.length < 2 ^ 32)

theorem updates_fit {ops : List BatchOp} (h : ∀ op ∈ ops, OpFits op) :
    ∀ u ∈ updates ops, MemTable.Fits u := by
  intro u hu
  obtain ⟨op, hop, rfl⟩ := List.mem_map.mp hu
  exact h op hop

/-- `m` holds the operations `ops`, numbered from behind `s0`. -/
def Keeps (m : MemTable) (s0 : ℕ) (ops : List BatchOp) : Prop :=
  m.Holds (s0 + 1) (updates ops)

theorem insertLoop_keeps {m : MemTable} {s0 : ℕ} {done : List BatchOp} (h : Keeps m s0 done)
    {ops : List BatchOp} (hfits : ∀ op ∈ done ++ ops, OpFits op)
    (hb : s0 + (done ++ ops).length < 2 ^ 56) (prev : ℕ → ℕ) :
    ∃ m', insertLoop prev (.ofNat (s0 + done.length + 1)) ops m = some m' ∧
      Keeps m' s0 (done ++ ops) := by
  induction ops generalizing m done with
  | nil =>
      refine ⟨m, rfl, ?_⟩
      rw [List.append_nil]
      exact h
  | cons op ops ih =>
      have hlen : (updates done).length = done.length := List.length_map _
      rw [List.length_append, List.length_cons] at hb
      have hop : MemTable.Fits (MemTable.opUpdate op) :=
        hfits op (List.mem_append_right _ List.mem_cons_self)
      have hdone := updates_fit fun o ho => hfits o (List.mem_append_left _ ho)
      obtain ⟨m', hadd, hm'⟩ := MemTable.add_holds h hdone hop (by omega) prev
      rw [hlen, Nat.add_right_comm] at hadd
      have hkeeps : Keeps m' s0 (done ++ [op]) := by
        rw [Keeps, updates, List.map_append]
        exact hm'
      rw [List.append_cons] at hfits ⊢
      obtain ⟨m'', hloop, hm''⟩ := ih hkeeps hfits (by
        rw [List.length_append, List.length_append, List.length_singleton]
        omega)
      rw [List.length_append, List.length_singleton, ← Nat.add_assoc, ← ofNat_succ] at hloop
      refine ⟨m'', ?_, hm''⟩
      cases op with
      | put key value =>
          rw [insertLoop, show m.add prev _ .kTypeValue key value = some m' from hadd]
          exact hloop
      | delete key =>
          rw [insertLoop, show m.add prev _ .kTypeDeletion key [] = some m' from hadd]
          exact hloop

/-- `InsertInto` of a batch that has the next number. -/
theorem insertInto_keeps {m : MemTable} {s0 : ℕ} {done : List BatchOp} (h : Keeps m s0 done)
    {ops : List BatchOp} (hfits : ∀ op ∈ done ++ ops, OpFits op) (hlen : ops.length < 2 ^ 31)
    (hb : s0 + (done ++ ops).length < 2 ^ 56) (prev : ℕ → ℕ) :
    ∃ m', insertInto prev (.build (.ofNat (s0 + done.length + 1)) ops) m = some (m', .ok) ∧
      Keeps m' s0 (done ++ ops) := by
  obtain ⟨m', hloop, hm'⟩ := insertLoop_keeps h hfits hb prev
  refine ⟨m', ?_, hm'⟩
  rw [insertInto, WriteBatch.sequence_build, WriteBatch.iterate_build _
    (fun op ho => (hfits op (List.mem_append_right _ ho)).small) hlen, hloop]
  rfl

/-! ## Groups -/

/-- The operations of some writes. -/
def groupOps (es : List DbEffect) : List BatchOp := es.flatMap effectOps

/-- What calls write. -/
def effects (cs : List Call) : List DbEffect := cs.filterMap Call.effect

theorem length_le_of_made {b : WriteBatch} {ops : List BatchOp} (h : WriteBatch.Made b ops) :
    ops.length ≤ b.rep_.length := by
  obtain ⟨seq, rfl⟩ := h.build
  have hrecords : ops.length ≤ (ops.flatMap WriteBatch.record).length := by
    clear h
    induction ops with
    | nil => exact Nat.zero_le _
    | cons op ops ih =>
        have hone : 1 ≤ (WriteBatch.record op).length := by cases op <;> exact Nat.succ_pos _
        rw [List.flatMap_cons, List.length_append, List.length_cons]
        omega
  rw [WriteBatch.build_length]
  omega

theorem maxGroupSize_le (size : ℕ) : maxGroupSize size ≤ 1 <<< 20 := by
  rw [maxGroupSize]
  split
  · rename_i h
    simp only [Nat.shiftLeft_eq] at h ⊢
    omega
  · exact le_refl _

/-- `tmp_batch_` has the operations of `es` behind the first ones, or it was not needed. -/
def Joins (ops : List BatchOp) (es : List DbEffect) : Option WriteBatch → Prop
  | some b => b.Made (ops ++ groupOps es) ∧ (ops ++ groupOps es).length ≤ 1 <<< 20
  | none => es = []

/-- What the loop joins; only the first batch may be longer than a group. -/
theorem groupLoop_joins {first : WriteBatch} {ops : List BatchOp}
    (h : WriteBatch.Made first ops) (sync : Bool) (cs : List Call) {size : ℕ}
    {result : Option WriteBatch} {es : List DbEffect} (hr : Joins ops es result)
    (hsize : (ops ++ groupOps es).length ≤ size) :
    ∃ result' n, groupLoop first sync size result (cs.map Call.writer) = (result', n) ∧
      Joins ops (es ++ effects (cs.take n)) result' := by
  induction cs generalizing size result es with
  | nil => exact ⟨result, 0, rfl, (List.append_nil es).symm ▸ hr⟩
  | cons c cs ih =>
      have hstop : Joins ops (es ++ effects ((c :: cs).take 0)) result :=
        (List.append_nil es).symm ▸ hr
      rw [List.map_cons, groupLoop]
      split
      · exact ⟨result, 0, rfl, hstop⟩
      · rcases hc : c.effect with _ | e
        · have hw : c.writer.batch = none := by rw [Call.writer, hc]; rfl
          obtain ⟨result', n, hloop, hjoins⟩ := ih hr hsize
          rw [hw]
          refine ⟨result', n + 1, by dsimp only; rw [hloop], ?_⟩
          rw [List.take_succ_cons, effects, List.filterMap_cons_none hc]
          exact hjoins
        · have hw : c.writer.batch = some (effectBatch e) := by rw [Call.writer, hc]; rfl
          rw [hw]
          dsimp only
          split
          · exact ⟨result, 0, rfl, hstop⟩
          · rename_i hmax
            have hops : ops ++ groupOps (es ++ [e]) = ops ++ groupOps es ++ effectOps e := by
              rw [groupOps, List.flatMap_append, List.flatMap_singleton, List.append_assoc]
              rfl
            have hmade : WriteBatch.Made
                ((result.getD (WriteBatch.clear.append first)).append (effectBatch e))
                (ops ++ groupOps (es ++ [e])) := by
              rw [hops]
              refine .append ?_ (effectBatch_made e)
              cases result with
              | some b => exact hr.1
              | none =>
                  obtain rfl : es = [] := hr
                  rw [groupOps, List.flatMap_nil, List.append_nil]
                  exact .append .clear h
            have hlong : (ops ++ groupOps (es ++ [e])).length
                ≤ size + (effectBatch e).rep_.length := by
              have := length_le_of_made (effectBatch_made e)
              rw [hops, List.length_append]
              omega
            have hle := maxGroupSize_le first.rep_.length
            have hnext : Joins ops (es ++ [e])
                (some ((result.getD (WriteBatch.clear.append first)).append (effectBatch e))) :=
              ⟨hmade, by omega⟩
            obtain ⟨result', n, hloop, hjoins⟩ := ih hnext hlong
            refine ⟨result', n + 1, by rw [hloop], ?_⟩
            rw [List.take_succ_cons, effects, List.filterMap_cons_some hc, List.append_cons]
            exact hjoins

/-- `BuildBatchGroup` joins the operations of the calls it takes, in their order. -/
theorem buildBatchGroup_made (e : DbEffect) (hlen : (effectOps e).length < 2 ^ 31) (sync : Bool)
    (cs : List Call) :
    ∃ b n, buildBatchGroup (effectBatch e) sync (cs.map Call.writer) = (b, n) ∧
      WriteBatch.Made b (groupOps (e :: effects (cs.take n))) ∧
      (groupOps (e :: effects (cs.take n))).length < 2 ^ 31 := by
  have h := effectBatch_made e
  have hnil : effectOps e ++ groupOps [] = effectOps e := List.append_nil _
  have hnone : Joins (effectOps e) [] none := rfl
  obtain ⟨result, n, hloop, hmade⟩ := groupLoop_joins h sync cs hnone
    (hnil.symm ▸ length_le_of_made h)
  rw [buildBatchGroup, hloop]
  refine ⟨result.getD (effectBatch e), n, rfl, ?_⟩
  rw [groupOps, List.flatMap_cons]
  cases result with
  | some b => exact ⟨hmade.1, lt_of_le_of_lt hmade.2 (by decide)⟩
  | none =>
      rw [show effects (cs.take n) = [] from hmade, List.flatMap_nil, List.append_nil]
      exact ⟨h, hlen⟩

/-! ## Writing -/

/-- The records of groups whose operations are numbered from behind `s`. -/
def contents : ℕ → List (List DbEffect) → List Bytes
  | _, [] => []
  | s, g :: gs =>
      (WriteBatch.build (.ofNat (s + 1)) (groupOps g)).rep_
        :: contents (s + (groupOps g).length) gs

theorem contents_append (s : ℕ) (gs hs : List (List DbEffect)) :
    contents s (gs ++ hs) = contents s gs ++ contents (s + (groupOps gs.flatten).length) hs := by
  induction gs generalizing s with
  | nil => rfl
  | cons g gs ih =>
      rw [List.cons_append, contents, contents, ih, List.cons_append, List.flatten_cons, groupOps,
        groupOps, groupOps, List.flatMap_append, List.length_append, Nat.add_assoc]

theorem contents_take (s : ℕ) (gs : List (List DbEffect)) (j : ℕ) :
    (contents s gs).take j = contents s (gs.take j) := by
  induction gs generalizing s j with
  | nil => simp [contents]
  | cons g gs ih =>
      cases j with
      | zero => rfl
      | succ j => rw [contents, List.take_succ_cons, List.take_succ_cons, ih, contents]

theorem length_contents (s : ℕ) (gs : List (List DbEffect)) :
    (contents s gs).length = gs.length := by
  induction gs generalizing s with
  | nil => rfl
  | cons g gs ih => rw [contents, List.length_cons, List.length_cons, ih]

/-- The writes in `groups` are done, from a new log and memtable at the number `s0` on. -/
structure Written (s0 : ℕ) (groups : List (List DbEffect)) (db : DbImpl) : Prop where
  log : db.log_ = (contents s0 groups).foldl Log.Writer.addRecord .new
  mem : Keeps db.mem_ s0 (groupOps groups.flatten)
  last : db.lastSequence = .ofNat (s0 + (groupOps groups.flatten).length)
  short : ∀ g ∈ groups, (groupOps g).length < 2 ^ 31

/-- A write that goes to the log. -/
theorem write_written {s0 : ℕ} {groups : List (List DbEffect)} {db : DbImpl}
    (h : Written s0 groups db) {e : DbEffect} (hlen : (effectOps e).length < 2 ^ 31)
    {cs : List Call}
    (hfits : ∀ op ∈ groupOps (groups.flatten ++ e :: effects cs), OpFits op)
    (hb : s0 + (groupOps (groups.flatten ++ e :: effects cs)).length < 2 ^ 56) (sync : Bool)
    (prev : ℕ → ℕ) :
    ∃ db' n, db.write prev (effectBatch e) sync true (cs.map Call.writer) = some (db', .ok, n) ∧
      Written s0 (groups ++ [e :: effects (cs.take n)]) db' := by
  obtain ⟨b, n, hgroup, hmade, hshort⟩ := buildBatchGroup_made e hlen sync cs
  have hpre : e :: effects (cs.take n) <+: e :: effects cs :=
    List.cons_prefix_cons.mpr ⟨rfl, (List.take_prefix n cs).filterMap _⟩
  obtain ⟨rest, hrest⟩ := hpre
  rw [← hrest] at hfits hb
  obtain ⟨g, hg⟩ : ∃ g, g = e :: effects (cs.take n) := ⟨_, rfl⟩
  rw [← hg] at hfits hb hmade hshort
  have hall : groupOps (groups.flatten ++ (g ++ rest))
      = groupOps groups.flatten ++ groupOps g ++ groupOps rest := by
    rw [groupOps, List.flatMap_append, List.flatMap_append, ← List.append_assoc]
    rfl
  rw [hall] at hfits hb
  obtain ⟨seq, rfl⟩ := hmade.build
  obtain ⟨m', hins, hm'⟩ := insertInto_keeps h.mem
    (fun op ho => hfits op (List.mem_append_left _ ho)) hshort
    (by rw [List.length_append] at hb; omega) prev
  refine ⟨⟨db.log_.addRecord (WriteBatch.build (.ofNat (s0 + (groupOps groups.flatten).length + 1))
    (groupOps g)).rep_, m', .ofNat (s0 + (groupOps groups.flatten).length) +
      .ofInt (WriteBatch.build (.ofNat (s0 + (groupOps groups.flatten).length + 1))
        (groupOps g)).count⟩, n, ?_, ?_⟩
  · rw [DbImpl.write, hgroup]
    dsimp only
    rw [WriteBatch.setSequence_build, h.last, ofNat_succ, hins]
    rfl
  · rw [← hg]
    have hflat : groupOps (groups ++ [g]).flatten = groupOps groups.flatten ++ groupOps g := by
      rw [List.flatten_append, List.flatten_singleton, groupOps, List.flatMap_append]
      rfl
    constructor
    · rw [contents_append, List.foldl_append, ← h.log]
      rfl
    · rw [hflat]
      exact hm'
    · dsimp only
      rw [hflat, WriteBatch.build_count_of_lt _ hshort, ofInt_natCast, ← UInt64.ofNat_add,
        List.length_append, Nat.add_assoc]
    · intro g' hg'
      rcases List.mem_append.mp hg' with hg' | hg'
      · exact h.short g' hg'
      · rw [List.mem_singleton.mp hg']
        exact hshort

/-! ## Runs of the queue -/

/-- A call that the formats have room for, and that is for the log. -/
structure Call.Ok (c : Call) : Prop where
  writeahead : c.writeahead = true
  fits : ∀ e, c.effect = some e →
    (∀ op ∈ effectOps e, OpFits op) ∧ (effectOps e).length < 2 ^ 31

/-- The calls `calls` have joined, and the writes of those that returned are in `groups`. -/
structure Served (s0 : ℕ) (calls : List Call) (groups : List (List DbEffect)) (s : Server) :
    Prop where
  order : s.returned.map Prod.fst ++ s.writers_ = calls
  good : ∀ r ∈ s.returned, r.2 = .ok
  flat : groups.flatten = effects (s.returned.map Prod.fst)
  written : Written s0 groups s.db

theorem new_served (s0 : ℕ) : Served s0 [] [] (.new s0) where
  order := rfl
  good _ hr := by cases hr
  flat := rfl
  written := ⟨rfl, MemTable.new_holds _, rfl, fun _ hg => by cases hg⟩

theorem ops_fit {cs : List Call} (h : ∀ c ∈ cs, c.Ok) :
    ∀ op ∈ groupOps (effects cs), OpFits op := by
  intro op hop
  obtain ⟨e, he, hop⟩ := List.mem_flatMap.mp hop
  obtain ⟨c, hc, hce⟩ := List.mem_filterMap.mp he
  exact ((h c hc).fits e hce).1 op hop

/-- A step of the queue serves, in its order, all the calls of a group, or none. -/
theorem step_served {s0 : ℕ} {calls : List Call} {groups : List (List DbEffect)} {s : Server}
    (h : Served s0 calls groups s) (t : Turn) (hok : ∀ c ∈ calls ++ joined [t], c.Ok)
    (hb : s0 + (groupOps (effects (calls ++ joined [t]))).length < 2 ^ 56) :
    ∃ s' more, s.step t = some s' ∧ Served s0 (calls ++ joined [t]) (groups ++ more) s' := by
  have hnone : groups ++ [] = groups := List.append_nil groups
  cases t with
  | join c =>
      refine ⟨_, [], rfl, ?_, h.good, ?_, ?_⟩
      · rw [← h.order, List.append_assoc]
        rfl
      · rw [hnone]
        exact h.flat
      · rw [hnone]
        exact h.written
  | serve prev =>
      have hjoin : calls ++ joined [.serve prev] = calls := List.append_nil calls
      rw [hjoin] at hok hb ⊢
      rw [Server.step]
      split
      · refine ⟨s, [], rfl, ?_⟩
        rw [hnone]
        exact h
      · rename_i c cs hcs
        have horder := h.order
        rw [hcs] at horder
        split
        · rename_i hc
          refine ⟨_, [], rfl, ?_, ?_, ?_, ?_⟩
          · rw [List.map_append, List.append_assoc]
            exact horder
          · intro r hr
            rcases List.mem_append.mp hr with hr | hr
            · exact h.good r hr
            · rw [List.mem_singleton.mp hr]
          · rw [hnone, h.flat, List.map_append, effects, effects, List.filterMap_append]
            simp [hc]
          · rw [hnone]
            exact h.written
        · rename_i e hc
          have hmem : c ∈ calls := horder ▸ List.mem_append_right _ List.mem_cons_self
          have hall : effects calls = groups.flatten ++ e :: effects cs := by
            rw [← horder, h.flat, effects, List.filterMap_append, List.filterMap_cons_some hc]
            rfl
          have hfits := ops_fit hok
          rw [hall] at hfits hb
          obtain ⟨db', n, hwrite, hwritten⟩ :=
            write_written h.written ((hok c hmem).fits e hc).2 hfits hb c.sync prev
          rw [(hok c hmem).writeahead, hwrite]
          refine ⟨_, _, rfl, ?_, ?_, ?_, hwritten⟩
          · rw [List.map_append, List.map_map, Function.comp_def]
            dsimp only
            rw [List.map_id', List.append_assoc, List.cons_append, List.take_append_drop]
            exact horder
          · intro r hr
            rcases List.mem_append.mp hr with hr | hr
            · exact h.good r hr
            · obtain ⟨_, -, rfl⟩ := List.mem_map.mp hr
              rfl
          · rw [List.flatten_append, List.flatten_singleton, h.flat, List.map_append,
              List.map_map, Function.comp_def]
            dsimp only
            rw [List.map_id', effects, effects, effects, List.filterMap_append,
              List.filterMap_cons_some hc]

/-- A run of the queue. -/
def Server.run (s : Server) (ts : List Turn) : Option Server := ts.foldlM Server.step s

theorem joined_cons (t : Turn) (ts : List Turn) : joined (t :: ts) = joined [t] ++ joined ts := by
  cases t <;> rfl

theorem joined_append (ts us : List Turn) : joined (ts ++ us) = joined ts ++ joined us := by
  induction ts with
  | nil => rfl
  | cons t ts ih => rw [List.cons_append, joined_cons, ih, ← List.append_assoc, ← joined_cons]

theorem groupOps_append (es fs : List DbEffect) :
    groupOps (es ++ fs) = groupOps es ++ groupOps fs := List.flatMap_append

theorem effects_append (cs ds : List Call) : effects (cs ++ ds) = effects cs ++ effects ds :=
  List.filterMap_append

/-- A run of the queue serves groups of calls, and each front of it the first of them. -/
theorem run_served {s0 : ℕ} {ts : List Turn} {calls : List Call} {groups : List (List DbEffect)}
    {s : Server} (h : Served s0 calls groups s) (hok : ∀ c ∈ calls ++ joined ts, c.Ok)
    (hb : s0 + (groupOps (effects (calls ++ joined ts))).length < 2 ^ 56) :
    ∃ s' more, s.run ts = some s' ∧ Served s0 (calls ++ joined ts) (groups ++ more) s' ∧
      ∀ us s₁, us <+: ts → s.run us = some s₁ →
        ∃ first, first <+: more ∧ Served s0 (calls ++ joined us) (groups ++ first) s₁ := by
  have hstart : Served s0 (calls ++ joined []) (groups ++ []) s := by
    rw [joined, List.append_nil, List.append_nil]
    exact h
  induction ts generalizing calls groups s with
  | nil =>
      refine ⟨s, [], rfl, hstart, fun us s₁ hus hrun => ?_⟩
      obtain rfl := List.prefix_nil.mp hus
      obtain rfl : s = s₁ := Option.some.inj hrun
      exact ⟨[], List.prefix_refl _, hstart⟩
  | cons t ts ih =>
      rw [joined_cons, ← List.append_assoc] at hok hb ⊢
      obtain ⟨s', more, hstep, h'⟩ := step_served h t
        (fun c hc => hok c (List.mem_append_left _ hc)) (by
          rw [effects_append, groupOps_append, List.length_append] at hb
          omega)
      have hcons : ∀ us, s.run (t :: us) = s'.run us := by
        intro us
        rw [Server.run, List.foldlM_cons, hstep]
        rfl
      obtain ⟨s'', more', hrun, h'', hfront⟩ := ih h' hok hb (by
        rw [joined, List.append_nil, List.append_nil]
        exact h')
      refine ⟨s'', more ++ more', (hcons ts).trans hrun, ?_, fun us s₁ hus hrun₁ => ?_⟩
      · rw [← List.append_assoc]
        exact h''
      · cases us with
        | nil =>
            obtain rfl : s = s₁ := Option.some.inj hrun₁
            exact ⟨[], List.nil_prefix, hstart⟩
        | cons u us =>
            obtain ⟨rfl, hus'⟩ := List.cons_prefix_cons.mp hus
            obtain ⟨first, hpre, h₁⟩ := hfront us s₁ hus' ((hcons us).symm.trans hrun₁)
            refine ⟨more ++ first, (List.prefix_append_right_inj more).mpr hpre, ?_⟩
            rw [joined_cons, ← List.append_assoc, ← List.append_assoc]
            exact h₁

/-! ## What a reader finds -/

theorem apply_eq_foldl (db : MetaDb) (e : DbEffect) :
    e.apply db = (updates (effectOps e)).foldl Updates.apply db := by
  have hop : ∀ (db : MetaDb) (op : BatchOp),
      BatchOp.apply db op = Updates.apply db (MemTable.opUpdate op) := by
    intro db op
    cases op <;> rfl
  cases e with
  | put key value => rfl
  | delete key => rfl
  | batch ops =>
      rw [DbEffect.apply, updates, effectOps, List.foldl_map]
      exact List.foldl_ext _ _ _ fun db op _ => hop db op

theorem foldl_apply_eq_updates (es : List DbEffect) (db : MetaDb) :
    es.foldl DbEffect.apply db = (updates (groupOps es)).foldl Updates.apply db := by
  induction es generalizing db with
  | nil => rfl
  | cons e es ih =>
      have hcons : updates (groupOps (e :: es))
          = updates (effectOps e) ++ updates (groupOps es) := by
        rw [groupOps, List.flatMap_cons, updates, List.map_append]
        rfl
      rw [List.foldl_cons, ih, apply_eq_foldl, hcons, List.foldl_append]

/-- Reading a memtable over tables, at the last number, is reading the map after the writes. -/
theorem get_keeps {m : MemTable} {s0 : ℕ} {es : List DbEffect} (h : Keeps m s0 (groupOps es))
    (hfits : ∀ op ∈ groupOps es, OpFits op) (hb : s0 + (groupOps es).length < 2 ^ 56)
    (log : Log.Writer) (base : MetaDb) {key : Bytes} (hkey : key.length + 8 < 2 ^ 32) :
    (DbImpl.mk log m (.ofNat (s0 + (groupOps es).length))).get base.get key
      = some ((es.foldl DbEffect.apply base).get key) := by
  have hlen : (updates (groupOps es)).length = (groupOps es).length := List.length_map _
  rw [DbImpl.get, MemTable.get_holds h (updates_fit hfits) (by omega) hkey hb,
    List.take_of_length_le (by omega), foldl_apply_eq_updates, Updates.get_foldl_apply]
  rcases Updates.last (updates (groupOps es)) key with _ | _ | value <;> rfl

/-- A call that puts one binding. -/
def putCall : Call := ⟨some (.put [97] [98]), true, true⟩

theorem putCall_ok : putCall.Ok where
  writeahead := rfl
  fits := fun e he => by
    obtain rfl : DbEffect.put [97] [98] = e := Option.some.inj he
    decide

/-- Two calls, and one of them after the queue was served. -/
def shortRun : List Turn := [.join putCall, .serve id, .join putCall]

theorem shortRun_ok : ∀ c ∈ joined shortRun, c.Ok := by
  intro c hc
  have : c = putCall := by
    rw [shortRun, joined, joined, joined, joined] at hc
    simpa using hc
  exact this ▸ putCall_ok

/-- The state after a front of it. -/
def shortServer (n : ℕ) : Server := ((Server.new 0).run (shortRun.take n)).getD (.new 0)

theorem shortRun_run (n : ℕ) : (Server.new 0).run (shortRun.take n) = some (shortServer n) := by
  have hok : ∀ c ∈ [] ++ joined (shortRun.take n), c.Ok := by
    intro c hc
    refine shortRun_ok c ?_
    rw [← List.take_append_drop n shortRun, joined_append]
    exact List.mem_append_left _ hc
  have hb : 0 + (groupOps (effects ([] ++ joined (shortRun.take n)))).length < 2 ^ 56 := by
    have hall : (groupOps (effects (joined shortRun))).length = 2 := rfl
    rw [← List.take_append_drop n shortRun, joined_append, effects_append, groupOps_append,
      List.length_append] at hall
    rw [List.nil_append]
    omega
  obtain ⟨s, _, hrun, _⟩ := run_served (new_served 0) hok hb
  rw [shortServer, hrun]
  rfl

end LevelDb

end Tablefs
