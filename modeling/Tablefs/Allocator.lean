/-
`Allocator` (`util/allocator.cpp`): the arena that the benchmark's trace loader
draws its strings from.

A locked allocator hands out the bytes of its pages one after the other, and asks the
system for a block of its own when the pages are used up. That block joins the same
vector as the pages, and the next call takes it for a page nobody has used yet
(`run_overflow_not_sound`). What the regions are worth therefore depends on how the
sizes pack into the locked pages, which is what `allocations_disjoint_iff` says.
-/
import Mathlib.Data.List.Basic
import Mathlib.Algebra.Order.BigOperators.Group.List
import Mathlib.Algebra.Order.Group.Nat
import Mathlib.Algebra.Order.Ring.Nat

set_option autoImplicit false

namespace Tablefs

/-! ## Regions of memory -/

/-- The bytes `[base, base + size)`. -/
structure Region where
  base : ℕ
  size : ℕ
  deriving DecidableEq, Repr

namespace Region

/-- No byte is in both regions. -/
def Disjoint (r s : Region) : Prop := r.base + r.size ≤ s.base ∨ s.base + s.size ≤ r.base

/-- Every byte of `r` is one of `s`. -/
def Within (r s : Region) : Prop := s.base ≤ r.base ∧ r.base + r.size ≤ s.base + s.size

instance (r s : Region) : Decidable (r.Disjoint s) := inferInstanceAs (Decidable (_ ∨ _))

instance (r s : Region) : Decidable (r.Within s) := inferInstanceAs (Decidable (_ ∧ _))

theorem Disjoint.symm {r s : Region} (h : r.Disjoint s) : s.Disjoint r := Or.symm h

theorem Within.refl (r : Region) : r.Within r := ⟨le_rfl, le_rfl⟩

theorem Within.trans {r s t : Region} (h : r.Within s) (h' : s.Within t) : r.Within t :=
  ⟨h'.1.trans h.1, h.2.trans h'.2⟩

/-- Parts of disjoint regions are disjoint. -/
theorem Disjoint.mono {r s r' s' : Region} (h : r.Disjoint s) (hr : r'.Within r)
    (hs : s'.Within s) : r'.Disjoint s' := by
  rcases h with h | h
  · exact Or.inl (hr.2.trans (h.trans hs.1))
  · exact Or.inr (hs.2.trans (h.trans hr.1))

end Region

/-- The system's allocator: where a new block goes, given the blocks in use. What it
hands out is fresh. -/
structure Heap where
  place : List Region → ℕ → ℕ
  fresh : ∀ (owned : List Region) (size : ℕ), ∀ b ∈ owned, Region.Disjoint ⟨place owned size, size⟩ b

namespace Heap

/-- An address behind every block in use. -/
def top (owned : List Region) : ℕ := (owned.map fun b => b.base + b.size).sum

theorem end_le_top {owned : List Region} {b : Region} (hb : b ∈ owned) :
    b.base + b.size ≤ top owned :=
  List.single_le_sum (by simp) _ (List.mem_map_of_mem hb)

/-- A system that puts every block after the ones in use. -/
def upwards : Heap where
  place owned _ := top owned
  fresh _ _ _ hb := Or.inr (end_le_top hb)

/-- `blocks.push_back` of a block of `size` bytes that the system hands out. -/
def push (h : Heap) (blocks : List Region) (size : ℕ) : List Region :=
  blocks ++ [⟨h.place blocks size, size⟩]

end Heap

/-! ## The allocator -/

/-- `MemoryPageSize` -/
def MemoryPageSize : ℕ := 128 * 1024 * 1024

/-- `Allocator`. A block of `blocks` is its address and the size it was asked for with;
the source keeps the address only. -/
structure Allocator where
  blocks : List Region
  current_block : ℕ
  remaining_bytes : ℕ
  flag_using_lock_memory : Bool
  deriving Repr

/-- Why a call does not return: `exit(1)`, or `blocks[current_block]` past the end of the
vector, which is undefined. -/
inductive AllocatorFault
  | exit
  | outOfRange
  deriving DecidableEq, Repr

namespace Allocator

/-- `num_memory_pages`: `size_t` arithmetic, cut to an `int`. -/
def numMemoryPages (lock_size : UInt64) : ℤ :=
  ((lock_size * 1024 * 1024 - 1) / .ofNat MemoryPageSize + 1).toUInt32.toInt32.toInt

/-- The loop of the constructor: `n` pages, one `posix_memalign` each. -/
def lockedPages (h : Heap) : ℕ → List Region
  | 0 => []
  | n + 1 => h.push (lockedPages h n) MemoryPageSize

/-- `Allocator::Allocator(lock_size)`, where `posix_memalign` and `mlock` succeed. -/
def construct (h : Heap) (lock_size : UInt64) : Allocator :=
  if 0 < lock_size then
    ⟨lockedPages h (numMemoryPages lock_size).toNat, 0, MemoryPageSize, true⟩
  else ⟨[], 0, 0, false⟩

/-- `blocks[current_block] + (MemoryPageSize - remaining_bytes)`, and `remaining_bytes` less
by `bytes`: the end of `Allocate`'s locked branch. -/
def carve (a : Allocator) (bytes : ℕ) : Except AllocatorFault (ℕ × Allocator) :=
  match a.blocks[a.current_block]? with
  | none => .error .outOfRange
  | some b => .ok (b.base + (MemoryPageSize - a.remaining_bytes),
      { a with remaining_bytes := a.remaining_bytes - bytes })

/-- `Allocator::Allocate(bytes)` -/
def allocate (h : Heap) (a : Allocator) (bytes : ℕ) : Except AllocatorFault (ℕ × Allocator) :=
  if MemoryPageSize < bytes then .error .exit
  else if a.flag_using_lock_memory then
    if a.remaining_bytes < bytes then
      if a.current_block + 1 < a.blocks.length then
        carve { a with
          current_block := a.current_block + 1
          remaining_bytes := MemoryPageSize } bytes
      else
        .ok (h.place a.blocks bytes,
          { a with blocks := h.push a.blocks bytes, remaining_bytes := 0 })
    else a.carve bytes
  else .ok (h.place a.blocks bytes, { a with blocks := h.push a.blocks bytes })

/-- Calls of `Allocate` one after the other: the regions they return, and the allocator
after them. -/
def run (h : Heap) : Allocator → List ℕ → Except AllocatorFault (List Region × Allocator)
  | a, [] => .ok ([], a)
  | a, bytes :: sizes =>
      match a.allocate h bytes with
      | .error e => .error e
      | .ok (p, a') =>
          match run h a' sizes with
          | .error e => .error e
          | .ok (rs, a'') => .ok (⟨p, bytes⟩ :: rs, a'')

/-! ## What the regions should be -/

/-- Every region lies in one block, with the size the block really has, and no two regions
share a byte. -/
def Apart (blocks rs : List Region) : Prop :=
  (∀ r ∈ rs, ∃ b ∈ blocks, r.Within b) ∧ rs.Pairwise Region.Disjoint

instance (blocks rs : List Region) : Decidable (Apart blocks rs) :=
  inferInstanceAs (Decidable (_ ∧ _))

/-- All calls return, with regions of the allocator's blocks that are apart. -/
def Sound : Except AllocatorFault (List Region × Allocator) → Prop
  | .error _ => False
  | .ok (rs, a) => Apart a.blocks rs

instance : DecidablePred Sound
  | .error _ => inferInstanceAs (Decidable False)
  | .ok (_, _) => inferInstanceAs (Decidable (Apart _ _))

/-- The sizes, packed in order into pages, need no page beyond the current one, of which
`room` bytes are left, and `pages` more. -/
def fits : ℕ → ℕ → List ℕ → Bool
  | _, _, [] => true
  | pages, room, n :: ns =>
      if n ≤ room then fits pages (room - n) ns
      else
        match pages with
        | 0 => false
        | pages + 1 => fits pages (MemoryPageSize - n) ns

theorem fits_of_le {pages room n : ℕ} (hn : n ≤ room) (ns : List ℕ) :
    fits pages room (n :: ns) = fits pages (room - n) ns := by
  cases pages <;> simp [fits, hn]

theorem fits_of_lt {pages room n : ℕ} (hn : room < n) (ns : List ℕ) :
    fits (pages + 1) room (n :: ns) = fits pages (MemoryPageSize - n) ns := by
  simp [fits, Nat.not_le.mpr hn]

theorem fits_zero_of_lt {room n : ℕ} (hn : room < n) (ns : List ℕ) :
    fits 0 room (n :: ns) = false := by
  simp [fits, Nat.not_le.mpr hn]

/-- A fresh block is a region apart from all others. -/
theorem Apart.push {h : Heap} {blocks rs : List Region} (ha : Apart blocks rs) (n : ℕ) :
    Apart (h.push blocks n) (rs ++ [⟨h.place blocks n, n⟩]) := by
  constructor
  · intro r hr
    rcases List.mem_append.mp hr with hr | hr
    · obtain ⟨b, hb, hw⟩ := ha.1 r hr
      exact ⟨b, List.mem_append_left _ hb, hw⟩
    · exact ⟨r, List.mem_append_right _ hr, Region.Within.refl r⟩
  · refine List.pairwise_append.mpr ⟨ha.2, List.pairwise_singleton _ _, ?_⟩
    intro r hr s hs
    rw [List.mem_singleton.mp hs]
    obtain ⟨b, hb, hw⟩ := ha.1 r hr
    exact ((h.fresh blocks n b hb).mono (Region.Within.refl _) hw).symm

/-- The regions that are left of some that are apart. -/
theorem Apart.sublist {blocks rs rs' : List Region} (ha : Apart blocks rs)
    (hs : rs'.Sublist rs) : Apart blocks rs' :=
  ⟨fun r hr => ha.1 r (hs.subset hr), ha.2.sublist hs⟩

/-! ## An allocator without locked pages -/

section

variable {h : Heap} {a : Allocator}

theorem allocate_unlocked (hf : a.flag_using_lock_memory = false) {n : ℕ}
    (hn : n ≤ MemoryPageSize) :
    a.allocate h n = .ok (h.place a.blocks n, { a with blocks := h.push a.blocks n }) := by
  rw [allocate, if_neg (by omega), if_neg (by simp [hf])]

/-- Every call has a block to itself. -/
theorem run_unlocked {sizes : List ℕ} (hf : a.flag_using_lock_memory = false)
    (hs : ∀ n ∈ sizes, n ≤ MemoryPageSize) {used : List Region} (ha : Apart a.blocks used) :
    ∃ rs a', a.run h sizes = .ok (rs, a') ∧ Apart a'.blocks (used ++ rs) := by
  induction sizes generalizing a used with
  | nil => exact ⟨[], a, rfl, by rwa [List.append_nil]⟩
  | cons n ns ih =>
      have hn := hs n List.mem_cons_self
      obtain ⟨rs, a', hrun, ha'⟩ :=
        ih (a := { a with blocks := h.push a.blocks n }) hf
          (fun m hm => hs m (List.mem_cons_of_mem n hm)) (ha.push n)
      refine ⟨⟨h.place a.blocks n, n⟩ :: rs, a', ?_, ?_⟩
      · rw [run, allocate_unlocked hf hn]
        simp only [hrun]
      · rwa [List.append_assoc] at ha'

end

/-! ## An allocator with locked pages -/

/-- The bytes no call has got yet: the rest of the current page, and the pages after it. -/
def free (a : Allocator) : List Region :=
  match a.blocks[a.current_block]? with
  | none => []
  | some b => ⟨b.base + (MemoryPageSize - a.remaining_bytes), a.remaining_bytes⟩ ::
      a.blocks.drop (a.current_block + 1)

/-- The pages after the current one. -/
def pagesLeft (a : Allocator) : ℕ := a.blocks.length - (a.current_block + 1)

/-- The allocator with `n` bytes less left of its current page. -/
def spend (a : Allocator) (n : ℕ) : Allocator :=
  { a with remaining_bytes := a.remaining_bytes - n }

/-- The allocator with the next block as its current page. -/
def turn (a : Allocator) : Allocator :=
  { a with current_block := a.current_block + 1, remaining_bytes := MemoryPageSize }

/-- The allocator after a block of its own for the caller. -/
def overflow (h : Heap) (a : Allocator) (n : ℕ) : Allocator :=
  { a with blocks := h.push a.blocks n, remaining_bytes := 0 }

/-- All blocks are locked pages still, and the regions in use are apart from each other and
from what is free. -/
structure Paged (a : Allocator) (used : List Region) : Prop where
  locked : a.flag_using_lock_memory = true
  page : ∀ b ∈ a.blocks, b.size = MemoryPageSize
  current : a.current_block < a.blocks.length
  room : a.remaining_bytes ≤ MemoryPageSize
  apart : Apart a.blocks (used ++ a.free)

section

variable {h : Heap} {a : Allocator} {used : List Region} {b : Region}

theorem free_eq (hb : a.blocks[a.current_block]? = some b) :
    a.free = ⟨b.base + (MemoryPageSize - a.remaining_bytes), a.remaining_bytes⟩ ::
      a.blocks.drop (a.current_block + 1) := by
  rw [free, hb]

theorem carve_eq (hb : a.blocks[a.current_block]? = some b) (n : ℕ) :
    a.carve n = .ok (b.base + (MemoryPageSize - a.remaining_bytes), a.spend n) := by
  rw [carve, hb]; rfl

/-- The front of a region and the rest of it. -/
theorem Apart.split {blocks rs ss : List Region} {p n m : ℕ} (hn : n ≤ m)
    (ha : Apart blocks (rs ++ ⟨p, m⟩ :: ss)) :
    Apart blocks (rs ++ ⟨p, n⟩ :: ⟨p + n, m - n⟩ :: ss) := by
  have hfront : Region.Within ⟨p, n⟩ ⟨p, m⟩ := ⟨le_rfl, Nat.add_le_add_left hn p⟩
  have hrest : Region.Within ⟨p + n, m - n⟩ ⟨p, m⟩ := by
    constructor
    · exact Nat.le_add_right p n
    · simp only; omega
  obtain ⟨hin, hpw⟩ := ha
  rw [List.pairwise_append, List.pairwise_cons] at hpw
  obtain ⟨hrs, ⟨hm, hss⟩, hcross⟩ := hpw
  constructor
  · intro r hr
    have hwhole := hin ⟨p, m⟩ (by simp)
    simp only [List.mem_append, List.mem_cons] at hr
    rcases hr with hr | rfl | rfl | hr
    · exact hin r (List.mem_append_left _ hr)
    · exact hwhole.imp fun b hb => ⟨hb.1, hfront.trans hb.2⟩
    · exact hwhole.imp fun b hb => ⟨hb.1, hrest.trans hb.2⟩
    · exact hin r (by simp [hr])
  · rw [List.pairwise_append, List.pairwise_cons, List.pairwise_cons]
    refine ⟨hrs, ⟨?_, ?_, hss⟩, ?_⟩
    · intro s hs
      rcases List.mem_cons.mp hs with rfl | hs
      · exact Or.inl le_rfl
      · exact (hm s hs).mono hfront (Region.Within.refl s)
    · intro s hs
      exact (hm s hs).mono hrest (Region.Within.refl s)
    · intro r hr s hs
      have hwhole := hcross r hr ⟨p, m⟩ List.mem_cons_self
      simp only [List.mem_cons] at hs
      rcases hs with rfl | rfl | hs
      · exact hwhole.mono (Region.Within.refl r) hfront
      · exact hwhole.mono (Region.Within.refl r) hrest
      · exact hcross r hr s (List.mem_cons_of_mem _ hs)

/-- The caller gets the front of what is free. -/
theorem Paged.spend (hp : a.Paged used) (hb : a.blocks[a.current_block]? = some b) {n : ℕ}
    (hn : n ≤ a.remaining_bytes) : (a.spend n).Paged
      (used ++ [⟨b.base + (MemoryPageSize - a.remaining_bytes), n⟩]) where
  locked := hp.locked
  page := hp.page
  current := hp.current
  room := (Nat.sub_le _ _).trans hp.room
  apart := by
    have hsplit := Apart.split hn (free_eq hb ▸ hp.apart)
    have hb' : (a.spend n).blocks[(a.spend n).current_block]? = some b := hb
    have hroom := hp.room
    have hend : b.base + (MemoryPageSize - a.remaining_bytes) + n =
        b.base + (MemoryPageSize - (a.remaining_bytes - n)) := by omega
    rw [free_eq hb', List.append_assoc]
    rw [hend] at hsplit
    exact hsplit

/-- The rest of a page is given up for the next one. -/
theorem Paged.turn (hp : a.Paged used) (hc : a.current_block + 1 < a.blocks.length) :
    a.turn.Paged used where
  locked := hp.locked
  page := hp.page
  current := hc
  room := le_rfl
  apart := by
    have hb := List.getElem?_eq_getElem hp.current
    have hb' : a.turn.blocks[a.turn.current_block]? = some a.blocks[a.current_block + 1] :=
      List.getElem?_eq_getElem hc
    have hsize : a.blocks[a.current_block + 1].size = MemoryPageSize :=
      hp.page _ (List.getElem_mem hc)
    refine hp.apart.sublist ?_
    rw [free_eq hb, free_eq hb', List.drop_eq_getElem_cons hc]
    refine List.Sublist.append_left ?_ used
    refine List.Sublist.cons _ ?_
    -- the next page is whole: its free part is the page itself
    have hwhole : (⟨a.blocks[a.current_block + 1].base + (MemoryPageSize - a.turn.remaining_bytes),
        a.turn.remaining_bytes⟩ : Region) = a.blocks[a.current_block + 1] := by
      rw [Region.mk.injEq]
      exact ⟨by simp [Allocator.turn], hsize.symm⟩
    rw [hwhole]
    exact List.Sublist.refl _

/-! ## `Allocate` with locked pages -/

theorem allocate_fit (hf : a.flag_using_lock_memory = true) {n : ℕ} (hn : n ≤ MemoryPageSize)
    (hroom : n ≤ a.remaining_bytes) : a.allocate h n = a.carve n := by
  rw [allocate, if_neg (by omega), if_pos hf, if_neg (by omega)]

theorem allocate_turn (hf : a.flag_using_lock_memory = true) {n : ℕ} (hn : n ≤ MemoryPageSize)
    (hroom : a.remaining_bytes < n) (hc : a.current_block + 1 < a.blocks.length) :
    a.allocate h n = a.turn.carve n := by
  rw [allocate, if_neg (by omega), if_pos hf, if_pos hroom, if_pos hc]; rfl

theorem allocate_overflow (hf : a.flag_using_lock_memory = true) {n : ℕ}
    (hn : n ≤ MemoryPageSize) (hroom : a.remaining_bytes < n)
    (hc : a.blocks.length ≤ a.current_block + 1) :
    a.allocate h n = .ok (h.place a.blocks n, a.overflow h n) := by
  rw [allocate, if_neg (by omega), if_pos hf, if_pos hroom, if_neg (by omega)]; rfl

/-- A call that the pages have room for, in the current one or the next. -/
theorem Paged.allocate (hp : a.Paged used) {n : ℕ} (hn : n ≤ MemoryPageSize)
    (hfit : n ≤ a.remaining_bytes ∨ 0 < a.pagesLeft) :
    ∃ (p : ℕ) (a' : Allocator), a.allocate h n = .ok (p, a') ∧ a'.Paged (used ++ [⟨p, n⟩]) ∧
      ∀ ns, fits a'.pagesLeft a'.remaining_bytes ns =
        fits a.pagesLeft a.remaining_bytes (n :: ns) := by
  by_cases hroom : n ≤ a.remaining_bytes
  · have hb := List.getElem?_eq_getElem hp.current
    refine ⟨_, _, (allocate_fit hp.locked hn hroom).trans (carve_eq hb n), hp.spend hb hroom, ?_⟩
    intro ns
    exact (fits_of_le hroom ns).symm
  · have hleft := hfit.resolve_left hroom
    have hc : a.current_block + 1 < a.blocks.length := by
      rw [pagesLeft] at hleft; omega
    have hpt := hp.turn hc
    have hb := List.getElem?_eq_getElem hpt.current
    refine ⟨_, _, (allocate_turn hp.locked hn (by omega) hc).trans (carve_eq hb n),
      hpt.spend hb hn, ?_⟩
    intro ns
    have hpages : a.pagesLeft = a.turn.pagesLeft + 1 := by
      simp only [pagesLeft, Allocator.turn] at hleft ⊢; omega
    rw [hpages, fits_of_lt (by omega)]; rfl

/-- `run`, one call after the others. -/
theorem run_cons_ok {n p : ℕ} {a' : Allocator} (hal : a.allocate h n = .ok (p, a'))
    (ns : List ℕ) : a.run h (n :: ns) =
      (a'.run h ns).map fun out => (⟨p, n⟩ :: out.1, out.2) := by
  rw [run, hal]
  simp only
  cases a'.run h ns <;> rfl

/-- Calls that fit in the pages. -/
theorem Paged.run (hp : a.Paged used) {sizes : List ℕ} (hs : ∀ n ∈ sizes, n ≤ MemoryPageSize)
    (hfit : fits a.pagesLeft a.remaining_bytes sizes) (last : List ℕ) :
    ∃ (rs : List Region) (a' : Allocator), a'.Paged (used ++ rs) ∧ a.run h (sizes ++ last) =
      (a'.run h last).map fun out => (rs ++ out.1, out.2) := by
  induction sizes generalizing a used with
  | nil =>
      refine ⟨[], a, by rwa [List.append_nil], ?_⟩
      rw [List.nil_append]
      cases a.run h last <;> rfl
  | cons n ns ih =>
      have hn := hs n List.mem_cons_self
      have hroom : n ≤ a.remaining_bytes ∨ 0 < a.pagesLeft := by
        by_contra hno
        rw [not_or, not_le, not_lt, Nat.le_zero] at hno
        rw [hno.2, fits_zero_of_lt hno.1] at hfit
        exact Bool.false_ne_true hfit
      obtain ⟨p, a1, hal, hp1, hfits⟩ := hp.allocate (h := h) hn hroom
      obtain ⟨rs, a', hp', hrun⟩ := ih hp1 (fun m hm => hs m (List.mem_cons_of_mem n hm))
        ((hfits ns).trans hfit)
      refine ⟨⟨p, n⟩ :: rs, a', by rwa [List.append_assoc] at hp', ?_⟩
      rw [List.cons_append, run_cons_ok hal, hrun]
      cases a'.run h last <;> rfl

/-! ## When the regions are apart -/

theorem Sound.tail {n p : ℕ} {a' : Allocator} {ns : List ℕ} (hs : Sound (a.run h (n :: ns)))
    (hal : a.allocate h n = .ok (p, a')) : Sound (a'.run h ns) := by
  rw [run_cons_ok hal] at hs
  cases hrun : a'.run h ns with
  | error e => rw [hrun] at hs; exact hs.elim
  | ok out =>
      rw [hrun] at hs
      exact Apart.sublist hs (List.sublist_cons_self _ _)

/-- The last call may be one that the pages have no room for. -/
theorem Paged.sound_last (hp : a.Paged used) {n : ℕ} (hn : n ≤ MemoryPageSize) :
    ∃ p a', a.allocate h n = .ok (p, a') ∧ Apart a'.blocks (used ++ [⟨p, n⟩]) := by
  by_cases hfit : n ≤ a.remaining_bytes ∨ 0 < a.pagesLeft
  · obtain ⟨p, a', hal, hp', -⟩ := hp.allocate (h := h) hn hfit
    exact ⟨p, a', hal, hp'.apart.sublist (List.sublist_append_left _ _)⟩
  · rw [not_or, not_le, not_lt, Nat.le_zero] at hfit
    have hc : a.blocks.length ≤ a.current_block + 1 := by
      have := hfit.2
      rw [pagesLeft] at this; omega
    refine ⟨_, _, allocate_overflow hp.locked hn hfit.1 hc, ?_⟩
    exact (hp.apart.sublist (List.sublist_append_left _ _)).push n

theorem Paged.sound (hp : a.Paged []) {sizes : List ℕ} {last : ℕ}
    (hs : ∀ n ∈ sizes, n ≤ MemoryPageSize) (hlast : last ≤ MemoryPageSize)
    (hfit : fits a.pagesLeft a.remaining_bytes sizes) : Sound (a.run h (sizes ++ [last])) := by
  obtain ⟨rs, a1, hp1, hrun⟩ := hp.run (h := h) hs hfit [last]
  obtain ⟨p, a', hal, hapart⟩ := hp1.sound_last (h := h) hlast
  rw [hrun, run_cons_ok hal]
  exact hapart

/-- After a call that got a block of its own, the next one gets the same bytes. -/
theorem Paged.run_overflow_not_sound (hp : a.Paged used) {n m : ℕ} {ns : List ℕ}
    (hn : 1 ≤ n ∧ n ≤ MemoryPageSize) (hm : 1 ≤ m ∧ m ≤ MemoryPageSize)
    (hroom : a.remaining_bytes < n) (hc : a.blocks.length ≤ a.current_block + 1) :
    ¬ Sound (a.run h (n :: m :: ns)) := by
  intro hs
  have hlen : a.blocks.length = a.current_block + 1 := le_antisymm hc hp.current
  -- the block of the first call is the one after the last page
  have hb : (a.overflow h n).turn.blocks[(a.overflow h n).turn.current_block]? =
      some ⟨h.place a.blocks n, n⟩ := by
    simp only [Allocator.turn, Allocator.overflow, Heap.push]
    rw [← hlen, List.getElem?_concat_length]
  have hnext : (a.overflow h n).allocate h m =
      .ok (h.place a.blocks n, (a.overflow h n).turn.spend m) := by
    have hc' : (a.overflow h n).current_block + 1 < (a.overflow h n).blocks.length := by
      simp only [Allocator.overflow, Heap.push, List.length_append, List.length_singleton]
      omega
    have hroom' : (a.overflow h n).remaining_bytes < m := hm.1
    rw [allocate_turn (a := a.overflow h n) hp.locked hm.2 hroom' hc', carve_eq hb]
    simp [Allocator.turn]
  rw [run_cons_ok (allocate_overflow hp.locked hn.2 hroom hc), run_cons_ok hnext] at hs
  cases hrun : ((a.overflow h n).turn.spend m).run h ns with
  | error e => rw [hrun] at hs; exact hs.elim
  | ok out =>
      rw [hrun] at hs
      have hdis := (List.pairwise_cons.mp hs.2).1 _ List.mem_cons_self
      rcases hdis with hdis | hdis <;> simp only at hdis <;> omega

theorem Paged.not_sound (hp : a.Paged used) {sizes : List ℕ} {last : ℕ}
    (hs : ∀ n ∈ sizes, 1 ≤ n ∧ n ≤ MemoryPageSize) (hlast : 1 ≤ last ∧ last ≤ MemoryPageSize)
    (hfit : ¬ fits a.pagesLeft a.remaining_bytes sizes) :
    ¬ Sound (a.run h (sizes ++ [last])) := by
  induction sizes generalizing a used with
  | nil => exact absurd rfl hfit
  | cons n ns ih =>
      have hn := hs n List.mem_cons_self
      have hns : ∀ m ∈ ns, 1 ≤ m ∧ m ≤ MemoryPageSize := fun m hm =>
        hs m (List.mem_cons_of_mem n hm)
      by_cases hroom : n ≤ a.remaining_bytes ∨ 0 < a.pagesLeft
      · obtain ⟨p, a', hal, hp', hfits⟩ := hp.allocate (h := h) hn.2 hroom
        intro hsound
        exact ih hp' hns (by rwa [hfits ns]) (Sound.tail hsound hal)
      · rw [not_or, not_le, not_lt, Nat.le_zero] at hroom
        have hc : a.blocks.length ≤ a.current_block + 1 := by
          have := hroom.2
          rw [pagesLeft] at this; omega
        cases ns with
        | nil => exact hp.run_overflow_not_sound hn hlast hroom.1 hc
        | cons m ms =>
            exact hp.run_overflow_not_sound hn (hns m List.mem_cons_self) hroom.1 hc

end

/-! ## The constructor -/

@[simp] theorem length_lockedPages (h : Heap) (n : ℕ) : (lockedPages h n).length = n := by
  induction n with
  | zero => rfl
  | succ n ih => rw [lockedPages, Heap.push, List.length_append, ih, List.length_singleton]

theorem lockedPages_size (h : Heap) {n : ℕ} {b : Region} (hb : b ∈ lockedPages h n) :
    b.size = MemoryPageSize := by
  induction n with
  | zero => simp [lockedPages] at hb
  | succ n ih =>
      rw [lockedPages, Heap.push, List.mem_append, List.mem_singleton] at hb
      rcases hb with hb | rfl
      · exact ih hb
      · rfl

/-- The pages themselves are apart. -/
theorem lockedPages_apart (h : Heap) (n : ℕ) : Apart (lockedPages h n) (lockedPages h n) := by
  induction n with
  | zero => exact ⟨by simp [lockedPages], by simp [lockedPages]⟩
  | succ n ih => exact ih.push MemoryPageSize

theorem construct_locked (h : Heap) {lock_size : UInt64} (hl : lock_size ≠ 0) :
    construct h lock_size =
      ⟨lockedPages h (numMemoryPages lock_size).toNat, 0, MemoryPageSize, true⟩ := by
  rw [construct, if_pos (by rwa [← UInt64.pos_iff_ne_zero] at hl)]

theorem construct_paged (h : Heap) {lock_size : UInt64} (hl : lock_size ≠ 0)
    (hpages : 0 < numMemoryPages lock_size) : (construct h lock_size).Paged [] := by
  rw [construct_locked h hl]
  have hlen : 0 < (lockedPages h (numMemoryPages lock_size).toNat).length := by
    rw [length_lockedPages]; omega
  refine ⟨rfl, fun b hb => lockedPages_size h hb, hlen, le_rfl, ?_⟩
  have hb := List.getElem?_eq_getElem hlen
  have hsize := lockedPages_size h (List.getElem_mem hlen)
  rw [List.nil_append, free_eq hb]
  have hwhole : ∀ b : Region, b.size = MemoryPageSize →
      (⟨b.base + (MemoryPageSize - MemoryPageSize), MemoryPageSize⟩ : Region) = b := by
    intro b hb
    rw [Region.mk.injEq]
    exact ⟨by simp, hb.symm⟩
  rw [hwhole _ hsize, ← List.drop_eq_getElem_cons hlen, List.drop_zero]
  exact lockedPages_apart h _

/-- Without a page, the first call reads past the end of the vector. -/
theorem run_no_page (h : Heap) {a : Allocator} (hf : a.flag_using_lock_memory = true)
    (hb : a.blocks = []) (hr : a.remaining_bytes = MemoryPageSize) {n : ℕ}
    (hn : n ≤ MemoryPageSize) (ns : List ℕ) : a.run h (n :: ns) = .error .outOfRange := by
  rw [run, allocate_fit hf hn (hr ▸ hn), carve, hb]
  rfl

/-- What the calls return is apart exactly if nothing is locked, or all sizes but the last
pack into the pages that are. -/
theorem allocations_disjoint_iff (h : Heap) (lock_size : UInt64) (sizes : List ℕ)
    (hs : ∀ n ∈ sizes, 1 ≤ n ∧ n ≤ MemoryPageSize) :
    Sound ((construct h lock_size).run h sizes) ↔
      sizes = [] ∨ lock_size = 0 ∨ 0 < numMemoryPages lock_size ∧
        fits ((numMemoryPages lock_size).toNat - 1) MemoryPageSize sizes.dropLast := by
  rcases List.eq_nil_or_concat' sizes with rfl | ⟨ns, last, rfl⟩
  · simp [run, Sound, Apart]
  by_cases hl : lock_size = 0
  · -- every call has a block to itself
    subst hl
    have hfresh : Apart (construct h 0).blocks [] := by simp [Apart]
    obtain ⟨rs, a', hrun, hapart⟩ := run_unlocked (h := h) rfl (fun n hn => (hs n hn).2) hfresh
    simp only [hrun, true_or, or_true, iff_true]
    exact hapart
  have hlast : 1 ≤ last ∧ last ≤ MemoryPageSize := hs last (by simp)
  have hns : ∀ n ∈ ns, 1 ≤ n ∧ n ≤ MemoryPageSize := fun n hn => hs n (by simp [hn])
  by_cases hpages : 0 < numMemoryPages lock_size
  · have hp := construct_paged h hl hpages
    have hleft : (construct h lock_size).pagesLeft = (numMemoryPages lock_size).toNat - 1 := by
      rw [construct_locked h hl, pagesLeft, length_lockedPages]
    have hroom : (construct h lock_size).remaining_bytes = MemoryPageSize := by
      rw [construct_locked h hl]
    have hiff : Sound ((construct h lock_size).run h (ns ++ [last])) ↔
        fits ((numMemoryPages lock_size).toNat - 1) MemoryPageSize ns := by
      rw [← hleft, ← hroom]
      refine ⟨fun hsound => ?_, hp.sound (fun n hn => (hns n hn).2) hlast.2⟩
      by_contra hfit
      exact hp.not_sound hns hlast hfit hsound
    simp [hiff, hl, hpages]
  · simp only [List.append_eq_nil_iff, List.cons_ne_nil, and_false, hl, hpages, false_and, or_self,
      iff_false]
    have hzero : (numMemoryPages lock_size).toNat = 0 := by omega
    have hrun : (construct h lock_size).run h (ns ++ [last]) = .error .outOfRange := by
      rw [construct_locked h hl, hzero]
      cases ns with
      | nil => exact run_no_page h rfl rfl rfl hlast.2 []
      | cons n ns => exact run_no_page h rfl rfl rfl (hns n List.mem_cons_self).2 _
    rw [hrun]
    exact id

/-- One page, filled by the first call: the second gets a block of one byte, and the third
the same byte again. -/
theorem allocations_overlap : ¬ ∀ (h : Heap) (lock_size : UInt64) (sizes : List ℕ),
    (∀ n ∈ sizes, 1 ≤ n ∧ n ≤ MemoryPageSize) →
      Sound ((construct h lock_size).run h sizes) := by
  intro hall
  have hbad := hall Heap.upwards 1 [MemoryPageSize, 1, 1] (by decide)
  revert hbad
  decide +kernel

/-- Two calls that one page has room for. -/
theorem allocations_disjoint_small : (∀ n ∈ [16, 32], 1 ≤ n ∧ n ≤ MemoryPageSize) ∧
    Sound ((construct Heap.upwards 1).run Heap.upwards [16, 32]) :=
  ⟨by decide, (allocations_disjoint_iff Heap.upwards 1 [16, 32] (by decide)).mpr
    (by decide +kernel)⟩

end Allocator

end Tablefs
