/-
The C port: `tablefs.c` and `icache.c` beside `tablefs.cpp` and `icache.cpp`.

Two functions of the port compute something else than the originals. `GetInlineData` takes
the length of a value from `strlen`: the name ends with a NUL in front of the inline data,
so the port never gets that far, and reads nothing (`port_getInlineData_iff`).
`InodeCache_WriteBack` tests `handle->mode_ = INODE_DELETE`, an assignment: a handle with
nothing pending comes out of it with a deletion pending (`modes_kept_iff`).

`InodeCacheHandle_constructor_mode` copies the value to where the new handle's `value_`
points; there is taken to be room for it. The store's calls are commented out in the port,
so a handle is its key and its mode here.
-/
import Tablefs.Coherence
import Tablefs.Lib.Run

set_option autoImplicit false

namespace Tablefs

open ByteString

/-! ## `GetInlineData` -/

namespace CPort

/-- `strlen` -/
def strlen (value : Bytes) : ℕ := (value.takeWhile (· ≠ 0)).length

/-- `GetInlineData` of `tablefs.c`: the count it returns and the bytes it copies. -/
def getInlineData (value : Bytes) (offset size : ℕ) : ℕ × Bytes :=
  let realoffset := realOffset value offset
  if realoffset < strlen value then
    let size := if strlen value < (realoffset + size) % 2 ^ 64 then strlen value - realoffset
      else size
    (size, slice value realoffset size)
  else (0, [])

/-- No NUL, no end. -/
theorem strlen_le {value front rest : Bytes} (h : value = front ++ 0 :: rest) :
    strlen value ≤ front.length := by
  rw [strlen, h, List.takeWhile_append]
  split
  · -- `front` has no NUL, and the next byte is one
    rw [List.takeWhile_cons_of_neg (by decide), List.append_nil]
  · exact (List.takeWhile_sublist _).length_le

end CPort

namespace InodeRecord

/-- The header does not depend on the NUL after the value. -/
theorem realOffset_terminated (r : InodeRecord) (offset : ℕ) :
    realOffset (r.value ++ [0]) offset = realOffset r.value offset := by
  have hheader : getInodeHeader (r.value ++ [0]) = getInodeHeader r.value := by
    rw [getInodeHeader_value, value, List.append_assoc]
    exact InodeHeader.ofBytes_bytes r.header _
  rw [realOffset, realOffset, hheader]

/-- The NUL after the name is in front of every offset. -/
theorem port_getInlineData (r : InodeRecord) (offset size : ℕ)
    (hoff : r.dataStart + offset < 2 ^ 64) :
    CPort.getInlineData (r.value ++ [0]) offset size = (0, []) := by
  have hsplit : r.value ++ [0] = (r.header.bytes ++ r.name) ++ 0 :: (r.inline ++ [0]) := by
    simp [value]
  have hlen := CPort.strlen_le hsplit
  have hstart := r.length_front
  rw [front, ← List.append_assoc, List.length_append, List.length_singleton] at hstart
  rw [CPort.getInlineData, r.realOffset_terminated, r.realOffset_value offset hoff]
  exact if_neg (by rw [r.length_front]; omega)

/-- The port reads what the original reads exactly if the original reads nothing. -/
theorem port_getInlineData_iff (r : InodeRecord) (offset size : ℕ)
    (hwrap : r.dataStart + offset + size < 2 ^ 64) :
    CPort.getInlineData (r.value ++ [0]) offset size = getInlineData r.value offset size ↔
      size = 0 ∨ r.inline.length ≤ offset := by
  rw [r.port_getInlineData offset size (by omega),
    r.getInlineData_slice offset size (by omega) fun _ => hwrap]
  have hcount : (slice r.inline offset size).length = min size (r.inline.length - offset) := by
    rw [slice, List.length_take, List.length_drop]
  constructor
  · intro heq
    have hzero := congrArg Prod.fst heq
    dsimp only at hzero
    omega
  · intro h
    have hnil : slice r.inline offset size = [] := List.eq_nil_of_length_eq_zero (by omega)
    rw [hnil]
    rfl

/-- The first byte of the data of a file `a`. -/
theorem port_getInlineData_past_end :
    let r : InodeRecord := ⟨{ (default : InodeHeader) with namelen := 1 }, [97], [98], rfl⟩
    r.dataStart + 1 + 1 < 2 ^ 64 ∧
      CPort.getInlineData (r.value ++ [0]) 1 1 = getInlineData r.value 1 1 :=
  ⟨by decide, (port_getInlineData_iff _ 1 1 (by decide)).mpr (Or.inr (by decide))⟩

theorem port_reads_nothing : ¬ ∀ (r : InodeRecord) (offset size : ℕ),
    r.dataStart + offset + size < 2 ^ 64 →
      CPort.getInlineData (r.value ++ [0]) offset size = getInlineData r.value offset size := by
  intro hall
  let r : InodeRecord := ⟨{ (default : InodeHeader) with namelen := 1 }, [97], [98], rfl⟩
  have hboth := hall r 0 1 (by decide)
  rw [r.port_getInlineData 0 1 (by decide),
    r.getInlineData_slice 0 1 (by decide) fun _ => by decide] at hboth
  exact absurd (congrArg Prod.fst hboth) (by decide)

end InodeRecord

/-! ## `InodeCache_WriteBack` -/

/-- The numbers of `enum InodeAccessMode`. -/
def InodeAccessMode.code : InodeAccessMode → ℕ
  | .read => 0
  | .delete => 1
  | .write => 2

/-- An `InodeCacheHandle`: `key_` and `mode_`. -/
structure ModeHandle where
  key_ : MetaKey
  mode_ : InodeAccessMode
  deriving DecidableEq, Repr

/-- The handles of one version in the order they were made in, and the keys that its `Evict`
was called with. -/
structure ModeTable where
  handles : List ModeHandle
  evicted : List MetaKey
  deriving DecidableEq, Repr

namespace ModeTable

/-- `handle->mode_` -/
def mode (s : ModeTable) (h : ℕ) : Option InodeAccessMode := (s.handles[h]?).map ModeHandle.mode_

/-- `handle->mode_ = mode` -/
def setMode (s : ModeTable) (h : ℕ) (mode : InodeAccessMode) : ModeTable :=
  { s with handles := s.handles.modify h fun x => { x with mode_ := mode } }

/-- `InodeCacheHandle(key, value, mode)`, or `InodeCacheHandle_constructor_mode`. -/
def create (s : ModeTable) (key : MetaKey) (mode : InodeAccessMode) : ModeTable :=
  { s with handles := s.handles ++ [⟨key, mode⟩] }

/-- `Evict`, or `InodeCache_Evict`: the call. -/
def evict (s : ModeTable) (key : MetaKey) : ModeTable := { s with evicted := s.evicted ++ [key] }

/-- `InodeCache::WriteBack` -/
def writeBack (s : ModeTable) (h : ℕ) : ModeTable :=
  match s.handles[h]? with
  | none => s
  | some x =>
      if x.mode_ = .write then s.setMode h .read
      else if x.mode_ = .delete then s.evict x.key_
      else s

/-- `InodeCache_WriteBack`. The second condition is the value of an assignment. -/
def portWriteBack (s : ModeTable) (h : ℕ) : ModeTable :=
  match s.handles[h]? with
  | none => s
  | some x =>
      if x.mode_ = .write then s.setMode h .read
      else
        let s := s.setMode h .delete
        if InodeAccessMode.delete.code ≠ 0 then s.evict x.key_ else s

theorem mode_setMode (s : ModeTable) (h i : ℕ) (m : InodeAccessMode) :
    (s.setMode h m).mode i = if h = i then (s.mode i).map fun _ => m else s.mode i := by
  rw [mode, setMode, List.getElem?_modify, mode]
  by_cases hi : h = i
  · simp only [hi, if_true]
    cases s.handles[i]? <;> rfl
  · simp [hi]

/-- An assignment of the mode that the handle has. -/
theorem setMode_self {s : ModeTable} {h : ℕ} {m : InodeAccessMode} (hm : s.mode h = some m) :
    s.setMode h m = s := by
  obtain ⟨x, hx, rfl⟩ := Option.map_eq_some_iff.mp hm
  have hsame : s.handles.modify h (fun y => { y with mode_ := x.mode_ }) = s.handles := by
    apply List.ext_getElem?
    intro i
    rw [List.getElem?_modify]
    by_cases hi : h = i
    · rw [← hi, hx]
      simp
    · simp [hi]
  rw [setMode, hsame]

end ModeTable

/-- A call that makes a handle, changes a mode, or writes back: `Write` asks for `INODE_WRITE`,
`Unlink` and `Rename` for `INODE_DELETE`. -/
inductive ModeCall
  | create (key : MetaKey) (mode : InodeAccessMode)
  | write (h : ℕ)
  | delete (h : ℕ)
  | writeBack (h : ℕ)
  deriving DecidableEq, Repr

namespace ModeTable

/-- One call, with the `WriteBack` of either version. -/
def step (writeBack : ModeTable → ℕ → ModeTable) (s : ModeTable) : ModeCall → ModeTable
  | .create key mode => s.create key mode
  | .write h => s.setMode h .write
  | .delete h => s.setMode h .delete
  | .writeBack h => writeBack s h

/-- The call asks for the deletion of handle `i`. -/
def AsksDelete (s : ModeTable) : ModeCall → ℕ → Prop
  | .create _ mode, i => i = s.handles.length ∧ mode = .delete
  | .delete h, i => i = h
  | _, _ => False

/-- In the original a deletion is only pending where a caller asked for it. -/
theorem step_delete {s : ModeTable} {c : ModeCall} {i : ℕ}
    (h : (s.step writeBack c).mode i = some .delete) :
    s.mode i = some .delete ∨ s.AsksDelete c i := by
  have hset : ∀ {j : ℕ} {m : InodeAccessMode}, m ≠ .delete →
      (s.setMode j m).mode i = some .delete → s.mode i = some .delete := by
    intro j m hm hd
    rw [mode_setMode] at hd
    by_cases hj : j = i
    · rw [if_pos hj, Option.map_eq_some_iff] at hd
      obtain ⟨_, _, hmd⟩ := hd
      exact absurd hmd hm
    · rwa [if_neg hj] at hd
  cases c with
  | create key mode =>
      simp only [step, ModeTable.mode, create, List.getElem?_append] at h
      split at h
      · exact Or.inl h
      · rename_i hi
        have hlast : i = s.handles.length := by
          by_contra hne
          rw [List.getElem?_eq_none (by simp; omega)] at h
          cases h
        subst hlast
        rw [Nat.sub_self] at h
        exact Or.inr ⟨rfl, Option.some.inj h⟩
  | write j => exact Or.inl (hset (by decide) h)
  | delete j =>
      rw [step, mode_setMode] at h
      by_cases hj : j = i
      · exact Or.inr hj.symm
      · rw [if_neg hj] at h
        exact Or.inl h
  | writeBack j =>
      apply Or.inl
      simp only [step, writeBack] at h
      split at h
      · exact h
      · split at h
        · exact hset (by decide) h
        · split at h <;> exact h

end ModeTable

/-- Both versions, after the same calls. -/
structure BothModes where
  port : ModeTable
  orig : ModeTable
  deriving DecidableEq, Repr

namespace BothModes

/-- One call to both. -/
def step (s : BothModes) (c : ModeCall) : BothModes :=
  ⟨s.port.step ModeTable.portWriteBack c, s.orig.step ModeTable.writeBack c⟩

/-- No handle yet. -/
def start : BothModes := ⟨⟨[], []⟩, ⟨[], []⟩⟩

/-- What should hold of a call: afterwards the handles have the same modes in both versions,
`Evict` was called for the same keys, and no handle of the port has come to `INODE_DELETE`
unless the call asks for it. -/
def Kept (s : BothModes) (c : ModeCall) : Prop :=
  (s.step c).port = (s.step c).orig ∧
    ∀ i, (s.step c).port.mode i = some .delete → s.port.mode i = some .delete ∨
      s.port.AsksDelete c i

/-- The call is no `WriteBack` of a handle that has nothing pending. -/
def Pending (s : BothModes) : ModeCall → Prop
  | .writeBack h => s.orig.mode h ≠ some .read
  | _ => True

instance (s : BothModes) : (c : ModeCall) → Decidable (s.Pending c)
  | .writeBack h => inferInstanceAs (Decidable (s.orig.mode h ≠ some .read))
  | .create _ _ => inferInstanceAs (Decidable True)
  | .write _ => inferInstanceAs (Decidable True)
  | .delete _ => inferInstanceAs (Decidable True)

/-- The two versions write back alike exactly if something is pending. -/
theorem portWriteBack_eq_iff (s : ModeTable) (h : ℕ) :
    s.portWriteBack h = s.writeBack h ↔ s.mode h ≠ some .read := by
  rw [ModeTable.portWriteBack, ModeTable.writeBack, ModeTable.mode]
  cases hx : s.handles[h]? with
  | none => simp
  | some x =>
      have hmode : s.mode h = some x.mode_ := by rw [ModeTable.mode, hx]; rfl
      simp only [Option.map_some, ne_eq, Option.some.injEq]
      cases hm : x.mode_ with
      | write => simp
      | delete =>
          rw [hm] at hmode
          simp [InodeAccessMode.code, ModeTable.setMode_self hmode]
      | read =>
          -- the original does nothing, the port calls `Evict`
          simp only [reduceCtorEq, if_false, not_true, iff_false]
          intro heq
          have hlen := congrArg (fun t => t.evicted.length) heq
          simp [InodeAccessMode.code, ModeTable.evict, ModeTable.setMode] at hlen

/-- As long as the two agree, a call keeps them so exactly if it is no `WriteBack` of a clean
handle. -/
theorem kept_iff {s : BothModes} (hs : s.port = s.orig) (c : ModeCall) :
    s.Kept c ↔ s.Pending c := by
  have hstep : (s.step c).port = (s.step c).orig ↔ s.Pending c := by
    rw [step, hs]
    cases c with
    | writeBack h => exact portWriteBack_eq_iff s.orig h
    | _ => exact iff_of_true rfl trivial
  rw [← hstep, Kept, and_iff_left_iff_imp]
  intro heq i hi
  rw [heq] at hi
  rw [hs]
  exact ModeTable.step_delete hi

/-- Along every run, the port's modes and evictions are the original's exactly if nothing is
written back that has nothing pending. -/
theorem modes_kept_iff (calls : List ModeCall) :
    Transition.Meets step Kept start calls ↔ Transition.Meets step Pending start calls :=
  Transition.meets_iff_of_keeps (fun _ c hs => kept_iff hs c) (fun _ _ _ hk => hk.1) rfl

/-- A handle is written back, and written back again. -/
theorem modes_lost : ¬ ∀ calls : List ModeCall, Transition.Meets step Kept start calls := by
  intro hall
  have hmet := hall [.create ⟨0, 1⟩ .write, .writeBack 0, .writeBack 0]
  exact absurd hmet.2.2.1.1 (by decide)

end BothModes

/-! ## The original's modes in the store's model -/

/-- The mode of a handle after `WriteBack`. -/
def InodeAccessMode.writtenBack : InodeAccessMode → InodeAccessMode
  | .write => .read
  | m => m

theorem ModeTable.writeBack_mode (s : ModeTable) (h : ℕ) :
    (s.writeBack h).mode h = (s.mode h).map InodeAccessMode.writtenBack := by
  rw [writeBack]
  cases hx : s.handles[h]? with
  | none => simp [mode, hx]
  | some x =>
      have hmode : s.mode h = some x.mode_ := by rw [mode, hx]; rfl
      dsimp only
      cases hm : x.mode_ with
      | write => rw [if_pos rfl, mode_setMode, if_pos rfl, hmode, hm]; rfl
      | delete =>
          rw [if_neg (by decide), if_pos rfl, hmode, hm]
          exact hmode.trans (by rw [hm]; rfl)
      | read => rw [if_neg (by decide), if_neg (by decide), hmode, hm]; rfl

namespace Store

/-- `WriteBack` over the store and the cache does to a mode what it does to the table's. -/
theorem writeBack_mode (s : Store) (h : ℕ) :
    (s.writeBack h).mode h = (s.mode h).writtenBack := by
  rw [writeBack]
  cases hm : s.mode h with
  | write => exact setMode_mode_self _ h _
  | delete => exact (evict_mode _ _ h).trans hm
  | read => exact hm

end Store

end Tablefs
