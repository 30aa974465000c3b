/-
The merging iterator of `table/merger.cc`.

Its children are iterators over sequences that share no key; the merged sequence has the entries
of all of them. The current child is at the lowest entry on the way forward and at the highest on
the way back, and the others are just behind it in that direction (`Good`), so a change of
direction must move them all. `merging_walks` is that the calls move over the merged sequence, in
any order.
-/
import Mathlib.Data.List.Find
import Mathlib.Data.List.Induction
import Tablefs.Lib.Cursor
import Tablefs.LevelDb.SkipList

set_option autoImplicit false

namespace Tablefs

namespace LevelDb

/-- The direction of an iterator. -/
inductive Direction
  | kForward
  | kReverse
  deriving DecidableEq, Repr

/-- `MergingIterator` over `n_` children. -/
structure MergingIterator (σ : Type*) where
  children_ : ℕ → σ
  n_ : ℕ
  current_ : Option ℕ
  direction_ : Direction

namespace MergingIterator

variable {σ Key Value : Type*}

/-! ## The code -/

/-- The loops of `FindSmallest` and `FindLargest`: the child with the best of the keys. -/
def pick (better : Key → Key → Bool) (key : ℕ → Option Key) (is : List ℕ) : Option ℕ :=
  is.foldl (fun best i =>
    match key i with
    | none => best
    | some k =>
        match best.bind key with
        | none => some i
        | some k' => if better k k' then some i else best) none

variable (c : Cursor σ Key Value) (compare_ : Key → Key → ℤ)

/-- The key of a child that is valid. -/
def childKey (s : MergingIterator σ) (i : ℕ) : Option Key := (c.entry (s.children_ i)).map Prod.fst

/-- `FindSmallest` -/
def findSmallest (s : MergingIterator σ) : MergingIterator σ :=
  { s with current_ := pick (fun a b => compare_ a b < 0) (s.childKey c) (List.range s.n_) }

/-- `FindLargest` -/
def findLargest (s : MergingIterator σ) : MergingIterator σ :=
  { s with
    current_ := pick (fun a b => 0 < compare_ a b) (s.childKey c) (List.range s.n_).reverse }

/-- A call on every child. -/
def each (s : MergingIterator σ) (f : σ → σ) : MergingIterator σ :=
  { s with children_ := fun i => f (s.children_ i) }

/-- A call on every child but the current one. -/
def others (s : MergingIterator σ) (i : ℕ) (f : σ → σ) : MergingIterator σ :=
  { s with children_ := fun j => if j = i then s.children_ j else f (s.children_ j) }

/-- A call on the current child. -/
def onCurrent (s : MergingIterator σ) (i : ℕ) (f : σ → σ) : MergingIterator σ :=
  { s with children_ := Function.update s.children_ i (f (s.children_ i)) }

/-- `SeekToFirst` -/
def seekToFirst (s : MergingIterator σ) : MergingIterator σ :=
  { (s.each c.seekToFirst).findSmallest c compare_ with direction_ := .kForward }

/-- `SeekToLast` -/
def seekToLast (s : MergingIterator σ) : MergingIterator σ :=
  { (s.each c.seekToLast).findLargest c compare_ with direction_ := .kReverse }

/-- `Seek` -/
def seek (target : Key) (s : MergingIterator σ) : MergingIterator σ :=
  { (s.each (c.seek target)).findSmallest c compare_ with direction_ := .kForward }

/-- How `Next` positions another child behind the key. -/
def positionAfter (key : Key) (child : σ) : σ :=
  let child := c.seek key child
  match c.entry child with
  | some e => if compare_ key e.1 = 0 then c.next child else child
  | none => child

/-- How `Prev` positions another child before the key. -/
def positionBefore (key : Key) (child : σ) : σ :=
  let child := c.seek key child
  match c.entry child with
  | some _ => c.prev child
  | none => c.seekToLast child

/-- `Next` of a valid iterator. -/
def next (s : MergingIterator σ) : MergingIterator σ :=
  match s.current_, s.current_.bind (s.childKey c) with
  | some i, some key =>
      let s :=
        if s.direction_ ≠ .kForward then
          { s.others i (positionAfter c compare_ key) with direction_ := .kForward }
        else s
      (s.onCurrent i c.next).findSmallest c compare_
  | _, _ => s

/-- `Prev` of a valid iterator. -/
def prev (s : MergingIterator σ) : MergingIterator σ :=
  match s.current_, s.current_.bind (s.childKey c) with
  | some i, some key =>
      let s :=
        if s.direction_ ≠ .kReverse then
          { s.others i (positionBefore c key) with direction_ := .kReverse }
        else s
      (s.onCurrent i c.prev).findLargest c compare_
  | _, _ => s

/-- The iterator as a cursor. -/
def cursor : Cursor (MergingIterator σ) Key Value where
  seekToFirst := seekToFirst c compare_
  seekToLast := seekToLast c compare_
  seek := seek c compare_
  next := next c compare_
  prev := prev c compare_
  entry s := s.current_.bind fun i => c.entry (s.children_ i)

/-! ## The best child -/

variable {κ : Type*} [LinearOrder κ]

theorem pick_append (better : Key → Key → Bool) (key : ℕ → Option Key) (is : List ℕ) (i : ℕ) :
    pick better key (is ++ [i]) =
      match key i with
      | none => pick better key is
      | some k =>
          match (pick better key is).bind key with
          | none => some i
          | some k' => if better k k' then some i else pick better key is := by
  rw [pick, List.foldl_append]
  rfl

/-- The loop ends with a best valid child, if any child is valid. -/
theorem pick_best {rank : Key → κ} {better : Key → Key → Bool}
    (hbetter : ∀ a b, better a b = true ↔ rank a < rank b) (key : ℕ → Option Key)
    (is : List ℕ) :
    (pick better key is = none ∧ ∀ i ∈ is, key i = none) ∨
      ∃ i ∈ is, ∃ k, pick better key is = some i ∧ key i = some k ∧
        ∀ j ∈ is, ∀ k', key j = some k' → rank k ≤ rank k' := by
  induction is using List.reverseRecOn with
  | nil => exact Or.inl ⟨rfl, nofun⟩
  | append_singleton is i ih =>
      rw [pick_append]
      rcases hk : key i with _ | k
      · dsimp only
        rcases ih with ⟨hnone, hall⟩ | ⟨b, hb, kb, hpick, hkb, hmin⟩
        · refine Or.inl ⟨hnone, fun j hj => ?_⟩
          rcases List.mem_append.mp hj with hj | hj
          · exact hall j hj
          · rw [List.mem_singleton.mp hj, hk]
        · refine Or.inr ⟨b, List.mem_append_left _ hb, kb, hpick, hkb, fun j hj k' hk' => ?_⟩
          rcases List.mem_append.mp hj with hj | hj
          · exact hmin j hj k' hk'
          · rw [List.mem_singleton.mp hj, hk] at hk'
            cases hk'
      · dsimp only
        have hi : i ∈ is ++ [i] := List.mem_append_right _ (List.mem_singleton.mpr rfl)
        rcases ih with ⟨hnone, hall⟩ | ⟨b, hb, kb, hpick, hkb, hmin⟩
        · rw [hnone]
          refine Or.inr ⟨i, hi, k, rfl, hk, fun j hj k' hk' => ?_⟩
          rcases List.mem_append.mp hj with hj | hj
          · rw [hall j hj] at hk'
            cases hk'
          · rw [List.mem_singleton.mp hj, hk] at hk'
            rw [Option.some.inj hk']
        · rw [hpick, Option.bind_some, hkb]
          dsimp only
          by_cases hlt : rank k < rank kb
          · rw [if_pos ((hbetter k kb).mpr hlt)]
            refine Or.inr ⟨i, hi, k, rfl, hk, fun j hj k' hk' => ?_⟩
            rcases List.mem_append.mp hj with hj | hj
            · exact hlt.le.trans (hmin j hj k' hk')
            · rw [List.mem_singleton.mp hj, hk] at hk'
              rw [Option.some.inj hk']
          · rw [if_neg fun h => hlt ((hbetter k kb).mp h)]
            refine Or.inr ⟨b, List.mem_append_left _ hb, kb, rfl, hkb, fun j hj k' hk' => ?_⟩
            rcases List.mem_append.mp hj with hj | hj
            · exact hmin j hj k' hk'
            · rw [List.mem_singleton.mp hj, hk] at hk'
              rw [← Option.some.inj hk']
              exact le_of_not_gt hlt

/-! ## Merged sequences -/

/-- `ys` has the entries of the sequences `xs i`, which share no rank. -/
structure Merges (rank : Key → κ) (n : ℕ) (xs : ℕ → List (Key × Value))
    (ys : List (Key × Value)) : Prop where
  sorted : Cursor.Sorted rank ys
  parts : ∀ i < n, Cursor.Sorted rank (xs i)
  mem_iff : ∀ x, x ∈ ys ↔ ∃ i < n, x ∈ xs i
  apart : ∀ i < n, ∀ j < n, i ≠ j → ∀ x ∈ xs i, ∀ y ∈ xs j, rank x.1 ≠ rank y.1

theorem Merges.reverse {rank : Key → κ} {n : ℕ} {xs : ℕ → List (Key × Value)}
    {ys : List (Key × Value)} (h : Merges rank n xs ys) :
    Merges (fun k => OrderDual.toDual (rank k)) n (fun i => (xs i).reverse) ys.reverse where
  sorted := List.pairwise_reverse.mpr h.sorted
  parts i hi := List.pairwise_reverse.mpr (h.parts i hi)
  mem_iff x := by simp only [List.mem_reverse, h.mem_iff]
  apart i hi j hj hij x hx y hy :=
    h.apart i hi j hj hij x (List.mem_reverse.mp hx) y (List.mem_reverse.mp hy)

/-- The children have each searched for the first entry with a property that holds from some
rank on. The best of them is at the first in the merged sequence, and the others are at the first
behind it. -/
theorem settle {rank : Key → κ} {n : ℕ} {xs : ℕ → List (Key × Value)} {ys : List (Key × Value)}
    (h : Merges rank n xs ys) {better : Key → Key → Bool}
    (hbetter : ∀ a b, better a b = true ↔ rank a < rank b) {p : Key × Value → Bool}
    (hp : ∀ x y, p x = true → rank x.1 ≤ rank y.1 → p y = true)
    {entry : ℕ → Option (Key × Value)} (hentry : ∀ i < n, entry i = (xs i).find? p)
    {is : List ℕ} (his : ∀ i, i ∈ is ↔ i < n) :
    (pick better (fun i => (entry i).map Prod.fst) is = none ∧ ys.find? p = none) ∨
      ∃ i < n, ∃ x, pick better (fun i => (entry i).map Prod.fst) is = some i ∧
        entry i = some x ∧ ys.find? p = some x ∧
        ∀ j < n, j ≠ i → entry j = (xs j).find? fun y => rank x.1 < rank y.1 := by
  rcases pick_best hbetter (fun i => (entry i).map Prod.fst) is with
    ⟨hnone, hall⟩ | ⟨i, hi, k, hpick, hk, hmin⟩
  · refine Or.inl ⟨hnone, List.find?_eq_none.mpr fun y hy hpy => ?_⟩
    obtain ⟨i, hi, hyi⟩ := (h.mem_iff y).mp hy
    have he := Option.map_eq_none_iff.mp (hall i ((his i).mpr hi))
    rw [hentry i hi] at he
    exact List.find?_eq_none.mp he y hyi hpy
  · have hin := (his i).mp hi
    obtain ⟨x, hx, rfl⟩ := Option.map_eq_some_iff.mp hk
    have hfind := hx
    rw [hentry i hin, (h.parts i hin).find_eq_some] at hfind
    -- it is the lowest of all that pass
    have hlow : ∀ j < n, ∀ y ∈ xs j, p y = true → rank x.1 ≤ rank y.1 := by
      intro j hj y hy hpy
      rcases he : (xs j).find? p with _ | z
      · exact absurd hpy (List.find?_eq_none.mp he y hy)
      · have hz := ((h.parts j hj).find_eq_some.mp he).2.2 y hy hpy
        refine (hmin j ((his j).mpr hj) z.1 ?_).trans hz
        rw [hentry j hj, he]
        rfl
    refine Or.inr ⟨i, hin, x, hpick, hx, ?_, fun j hj hji => ?_⟩
    · rw [h.sorted.find_eq_some]
      refine ⟨(h.mem_iff x).mpr ⟨i, hin, hfind.1⟩, hfind.2.1, fun y hy hpy => ?_⟩
      obtain ⟨j, hj, hyj⟩ := (h.mem_iff y).mp hy
      exact hlow j hj y hyj hpy
    · rw [hentry j hj]
      refine List.find?_congr fun y hy => ?_
      have hne := h.apart i hin j hj hji.symm x hfind.1 y hy
      refine Bool.eq_iff_iff.mpr (Iff.trans ⟨fun hpy => ?_, fun hlt => ?_⟩ decide_eq_true_iff.symm)
      · exact lt_of_le_of_ne (hlow j hj y hy hpy) hne
      · exact hp x y hfind.2.1 hlt.le

/-! ## The spec -/

section Spec

variable {c : Cursor σ Key Value} {compare_ : Key → Key → ℤ} {rank : Key → κ} {n : ℕ}
  {xs : ℕ → List (Key × Value)} {ys : List (Key × Value)} {Fits : Key → Prop}
  {ChildGood : ℕ → σ → Prop}

/-- Where another child stands when the current one is at `x`. -/
def behind (rank : Key → κ) (d : Direction) (zs : List (Key × Value)) (x : Key × Value) :
    Option (Key × Value) :=
  match d with
  | .kForward => zs.find? fun y => rank x.1 < rank y.1
  | .kReverse => zs.reverse.find? fun y => rank y.1 < rank x.1

/-- The children are good, and where the direction wants them. -/
structure Good (c : Cursor σ Key Value) (rank : Key → κ) (n : ℕ) (xs : ℕ → List (Key × Value))
    (ChildGood : ℕ → σ → Prop) (s : MergingIterator σ) : Prop where
  count : s.n_ = n
  children : ∀ i < n, ChildGood i (s.children_ i)
  current : ∀ i, s.current_ = some i → i < n ∧ ∃ x, c.entry (s.children_ i) = some x ∧
    ∀ j < n, j ≠ i → c.entry (s.children_ j) = behind rank s.direction_ (xs j) x

/-- After every child has searched forward from a rank on. -/
theorem findSmallest_good (h : Merges rank n xs ys) (hc : SkipList.Ranks compare_ rank)
    {s : MergingIterator σ} (hn : s.n_ = n) (hgood : ∀ i < n, ChildGood i (s.children_ i))
    {p : Key × Value → Bool} (hp : ∀ x y, p x = true → rank x.1 ≤ rank y.1 → p y = true)
    (hentry : ∀ i < n, c.entry (s.children_ i) = (xs i).find? p) :
    let t : MergingIterator σ := { s.findSmallest c compare_ with direction_ := .kForward }
    Good c rank n xs ChildGood t ∧ (cursor c compare_).entry t = ys.find? p := by
  have hsettle := settle h (fun a b => decide_eq_true_iff.trans (hc.lt_iff a b)) hp hentry
    (fun i => List.mem_range)
  rw [← hn] at hsettle
  rcases hsettle with ⟨hnone, hys⟩ | ⟨i, hi, x, hpick, hx, hys, hrest⟩
  · refine ⟨⟨hn, hgood, fun i hi => ?_⟩, ?_⟩
    · exact absurd (hi.symm.trans hnone) nofun
    · exact (congrArg (Option.bind · _) hnone).trans hys.symm
  · refine ⟨⟨hn, hgood, fun j hj => ?_⟩, ?_⟩
    · obtain rfl : i = j := Option.some.inj (hpick.symm.trans hj)
      rw [hn] at hi hrest
      exact ⟨hi, x, hx, hrest⟩
    · exact (congrArg (Option.bind · _) hpick).trans (hx.trans hys.symm)

/-- After every child has searched backward from a rank on. -/
theorem findLargest_good (h : Merges rank n xs ys) (hc : SkipList.Ranks compare_ rank)
    {s : MergingIterator σ} (hn : s.n_ = n) (hgood : ∀ i < n, ChildGood i (s.children_ i))
    {p : Key × Value → Bool} (hp : ∀ x y, p x = true → rank y.1 ≤ rank x.1 → p y = true)
    (hentry : ∀ i < n, c.entry (s.children_ i) = (xs i).reverse.find? p) :
    let t : MergingIterator σ := { s.findLargest c compare_ with direction_ := .kReverse }
    Good c rank n xs ChildGood t ∧ (cursor c compare_).entry t = ys.reverse.find? p := by
  have hgt : ∀ a b, decide (0 < compare_ a b) = true ↔
      OrderDual.toDual (rank a) < OrderDual.toDual (rank b) := by
    intro a b
    rw [decide_eq_true_iff, OrderDual.toDual_lt_toDual, ← not_le, ← not_le, not_iff_not,
      le_iff_lt_or_eq, le_iff_lt_or_eq, hc.lt_iff, hc.eq_iff]
  have hrange : ∀ i, i ∈ (List.range n).reverse ↔ i < n := fun _ =>
    List.mem_reverse.trans List.mem_range
  have hsettle := settle h.reverse hgt (fun x y hx hle => hp x y hx hle) hentry hrange
  rw [← hn] at hsettle
  rcases hsettle with ⟨hnone, hys⟩ | ⟨i, hi, x, hpick, hx, hys, hrest⟩
  · refine ⟨⟨hn, hgood, fun i hi => ?_⟩, ?_⟩
    · exact absurd (hi.symm.trans hnone) nofun
    · exact (congrArg (Option.bind · _) hnone).trans hys.symm
  · refine ⟨⟨hn, hgood, fun j hj => ?_⟩, ?_⟩
    · obtain rfl : i = j := Option.some.inj (hpick.symm.trans hj)
      rw [hn] at hi hrest
      exact ⟨hi, x, hx, hrest⟩
    · exact (congrArg (Option.bind · _) hpick).trans (hx.trans hys.symm)

variable (hw : ∀ i < n, c.Walks rank (xs i) Fits (ChildGood i))

include hw

/-- `Next` puts another child behind the key. -/
theorem positionAfter_spec (hc : SkipList.Ranks compare_ rank) {i : ℕ} (hi : i < n) {child : σ}
    (hg : ChildGood i child) {key : Key} (hkey : Fits key)
    (hne : ∀ y ∈ xs i, rank key ≠ rank y.1) :
    ChildGood i (positionAfter c compare_ key child) ∧
      c.entry (positionAfter c compare_ key child)
        = (xs i).find? fun y => rank key < rank y.1 := by
  obtain ⟨hg', he⟩ := (hw i hi).seek hkey hg
  have hcongr : (xs i).find? (fun y => decide (rank key ≤ rank y.1))
      = (xs i).find? fun y => decide (rank key < rank y.1) :=
    List.find?_congr fun y hy => decide_eq_decide.mpr
      ⟨fun hle => lt_of_le_of_ne hle (hne y hy), le_of_lt⟩
  rw [positionAfter]
  cases hs : c.entry (c.seek key child) with
  | none =>
      dsimp only
      exact ⟨hg', he.trans hcongr⟩
  | some e =>
      have hmem := (hw i hi).mem hg' hs
      dsimp only
      rw [if_neg fun h0 => hne e hmem ((hc.eq_iff key e.1).mp h0)]
      exact ⟨hg', he.trans hcongr⟩

/-- `Prev` puts another child before the key. -/
theorem positionBefore_spec {i : ℕ} (hi : i < n) {child : σ} (hg : ChildGood i child)
    {key : Key} (hkey : Fits key) :
    ChildGood i (positionBefore c key child) ∧
      c.entry (positionBefore c key child)
        = (xs i).reverse.find? fun y => rank y.1 < rank key := by
  obtain ⟨hg', he⟩ := (hw i hi).seek hkey hg
  rw [positionBefore]
  cases hs : c.entry (c.seek key child) with
  | some e =>
      dsimp only
      obtain ⟨hg'', he'⟩ := (hw i hi).prev hg' hs
      refine ⟨hg'', he'.trans (List.find?_congr fun y hy => decide_eq_decide.mpr ?_)⟩
      -- nothing lies between the key and the entry
      rw [hs, eq_comm, (hw i hi).sorted.find_eq_some] at he
      obtain ⟨-, hle, hmin⟩ := he
      rw [decide_eq_true_iff] at hle
      refine ⟨fun hlt => ?_, fun hlt => hlt.trans_le hle⟩
      refine lt_of_not_ge fun hge => ?_
      exact absurd (hmin y (List.mem_reverse.mp hy) (decide_eq_true hge)) (not_le_of_gt hlt)
  | none =>
      dsimp only
      obtain ⟨hg'', he'⟩ := (hw i hi).seekToLast hg'
      refine ⟨hg'', he'.trans ?_⟩
      rw [hs, eq_comm, List.find?_eq_none] at he
      refine (Cursor.find_split (show ∀ a ∈ [], _ = false from nofun) fun y hy => ?_).symm
      exact decide_eq_true (lt_of_not_ge fun hle =>
        he y (List.mem_reverse.mp hy) (decide_eq_true hle))

omit hw in
/-- What holds of every child after a call on the current one. -/
theorem onCurrent_children {d : MergingIterator σ} {i : ℕ} {f : σ → σ} {P : ℕ → σ → Prop}
    (hi : P i (f (d.children_ i))) (hrest : ∀ j < n, j ≠ i → P j (d.children_ j)) :
    ∀ j < n, P j ((d.onCurrent i f).children_ j) := by
  intro j hj
  show P j (Function.update d.children_ i (f (d.children_ i)) j)
  rcases eq_or_ne j i with rfl | hji
  · rw [Function.update_self]
    exact hi
  · rw [Function.update_of_ne hji]
    exact hrest j hj hji

/-- `Next` of a good state. -/
theorem next_good (h : Merges rank n xs ys) (hc : SkipList.Ranks compare_ rank)
    {s : MergingIterator σ} (hs : Good c rank n xs ChildGood s) {x : Key × Value}
    (hx : (cursor c compare_).entry s = some x) :
    Good c rank n xs ChildGood (next c compare_ s) ∧
      (cursor c compare_).entry (next c compare_ s)
        = ys.find? fun y => rank x.1 < rank y.1 := by
  obtain ⟨i, hcur, hi⟩ := Option.bind_eq_some_iff.mp hx
  obtain ⟨hin, x', hx', hothers⟩ := hs.current i hcur
  obtain rfl : x' = x := Option.some.inj (hx'.symm.trans hi)
  have hkey : s.current_.bind (s.childKey c) = some x'.1 := by
    rw [hcur, Option.bind_some, childKey, hi]
    rfl
  have hmem := (hw i hin).mem (hs.children i hin) hi
  -- before the step, every other child is behind the key
  have hready : ∀ d : MergingIterator σ, d.n_ = n → d.children_ i = s.children_ i →
      d.direction_ = .kForward → (∀ j < n, j ≠ i → ChildGood j (d.children_ j) ∧
        c.entry (d.children_ j) = (xs j).find? fun y => rank x'.1 < rank y.1) →
      Good c rank n xs ChildGood ((d.onCurrent i c.next).findSmallest c compare_) ∧
        (cursor c compare_).entry ((d.onCurrent i c.next).findSmallest c compare_)
          = ys.find? fun y => rank x'.1 < rank y.1 := by
    intro d hn hdi hdir hall
    obtain ⟨hgood, hentry⟩ := (hw i hin).next (hs.children i hin) hi
    rw [← hdi] at hgood hentry
    have hchild := onCurrent_children (n := n) (P := fun j child => ChildGood j child ∧
      c.entry child = (xs j).find? fun y => rank x'.1 < rank y.1) ⟨hgood, hentry⟩ hall
    have := findSmallest_good h hc (s := d.onCurrent i c.next) hn (fun j hj => (hchild j hj).1)
      (fun a b ha hab => decide_eq_true ((of_decide_eq_true ha).trans_le hab))
      (fun j hj => (hchild j hj).2)
    rw [show ({ (d.onCurrent i c.next).findSmallest c compare_ with direction_ := .kForward } :
        MergingIterator σ) = (d.onCurrent i c.next).findSmallest c compare_ by
      rw [findSmallest, onCurrent, hdir]] at this
    exact this
  rw [next, hkey, hcur]
  dsimp only
  split
  · refine hready _ hs.count (if_pos rfl) rfl fun j hj hji => ?_
    have hne : ∀ y ∈ xs j, rank x'.1 ≠ rank y.1 :=
      h.apart i hin j hj hji.symm x' hmem
    show ChildGood j (if j = i then _ else _) ∧ c.entry (if j = i then _ else _) = _
    rw [if_neg hji]
    exact positionAfter_spec hw hc hj (hs.children j hj) ((hw i hin).fits x' hmem) hne
  · rename_i hdir
    rw [not_not] at hdir
    refine hready s hs.count rfl hdir fun j hj hji => ⟨hs.children j hj, ?_⟩
    rw [hothers j hj hji, hdir]
    rfl

/-- `Prev` of a good state. -/
theorem prev_good (h : Merges rank n xs ys) (hc : SkipList.Ranks compare_ rank)
    {s : MergingIterator σ} (hs : Good c rank n xs ChildGood s) {x : Key × Value}
    (hx : (cursor c compare_).entry s = some x) :
    Good c rank n xs ChildGood (prev c compare_ s) ∧
      (cursor c compare_).entry (prev c compare_ s)
        = ys.reverse.find? fun y => rank y.1 < rank x.1 := by
  obtain ⟨i, hcur, hi⟩ := Option.bind_eq_some_iff.mp hx
  obtain ⟨hin, x', hx', hothers⟩ := hs.current i hcur
  obtain rfl : x' = x := Option.some.inj (hx'.symm.trans hi)
  have hkey : s.current_.bind (s.childKey c) = some x'.1 := by
    rw [hcur, Option.bind_some, childKey, hi]
    rfl
  have hmem := (hw i hin).mem (hs.children i hin) hi
  have hready : ∀ d : MergingIterator σ, d.n_ = n → d.children_ i = s.children_ i →
      d.direction_ = .kReverse → (∀ j < n, j ≠ i → ChildGood j (d.children_ j) ∧
        c.entry (d.children_ j) = (xs j).reverse.find? fun y => rank y.1 < rank x'.1) →
      Good c rank n xs ChildGood ((d.onCurrent i c.prev).findLargest c compare_) ∧
        (cursor c compare_).entry ((d.onCurrent i c.prev).findLargest c compare_)
          = ys.reverse.find? fun y => rank y.1 < rank x'.1 := by
    intro d hn hdi hdir hall
    obtain ⟨hgood, hentry⟩ := (hw i hin).prev (hs.children i hin) hi
    rw [← hdi] at hgood hentry
    have hchild := onCurrent_children (n := n) (P := fun j child => ChildGood j child ∧
      c.entry child = (xs j).reverse.find? fun y => rank y.1 < rank x'.1) ⟨hgood, hentry⟩ hall
    have := findLargest_good h hc (s := d.onCurrent i c.prev) hn (fun j hj => (hchild j hj).1)
      (fun a b ha hab => decide_eq_true (hab.trans_lt (of_decide_eq_true ha)))
      (fun j hj => (hchild j hj).2)
    rw [show ({ (d.onCurrent i c.prev).findLargest c compare_ with direction_ := .kReverse } :
        MergingIterator σ) = (d.onCurrent i c.prev).findLargest c compare_ by
      rw [findLargest, onCurrent, hdir]] at this
    exact this
  rw [prev, hkey, hcur]
  dsimp only
  split
  · refine hready _ hs.count (if_pos rfl) rfl fun j hj hji => ?_
    show ChildGood j (if j = i then _ else _) ∧ c.entry (if j = i then _ else _) = _
    rw [if_neg hji]
    exact positionBefore_spec hw hj (hs.children j hj) ((hw i hin).fits x' hmem)
  · rename_i hdir
    rw [not_not] at hdir
    refine hready s hs.count rfl hdir fun j hj hji => ⟨hs.children j hj, ?_⟩
    rw [hothers j hj hji, hdir]
    rfl

/-- The merging iterator moves over the merged sequence, whatever calls are made, in whatever
order and direction. -/
theorem merging_walks (h : Merges rank n xs ys) (hc : SkipList.Ranks compare_ rank) :
    (cursor c compare_).Walks rank ys Fits (Good c rank n xs ChildGood) where
  sorted := h.sorted
  fits := by
    intro x hx
    obtain ⟨i, hi, hxi⟩ := (h.mem_iff x).mp hx
    exact (hw i hi).fits x hxi
  mem := by
    intro s x hs hx
    obtain ⟨i, hcur, hi⟩ := Option.bind_eq_some_iff.mp hx
    obtain ⟨hin, -⟩ := hs.current i hcur
    exact (h.mem_iff x).mpr ⟨i, hin, (hw i hin).mem (hs.children i hin) hi⟩
  seekToFirst := by
    intro s hs
    have hfirst : ∀ zs : List (Key × Value), zs.head? = zs.find? fun _ => true := fun zs =>
      (Cursor.find_split (show ∀ a ∈ [], _ = false from nofun) fun _ _ => rfl).symm
    rw [hfirst ys]
    refine findSmallest_good h hc (s := s.each c.seekToFirst) hs.count
      (fun i hi => ((hw i hi).seekToFirst (hs.children i hi)).1) (fun _ _ _ _ => rfl)
      fun i hi => ?_
    rw [← hfirst]
    exact ((hw i hi).seekToFirst (hs.children i hi)).2
  seekToLast := by
    intro s hs
    have hfirst : ∀ zs : List (Key × Value), zs.head? = zs.find? fun _ => true := fun zs =>
      (Cursor.find_split (show ∀ a ∈ [], _ = false from nofun) fun _ _ => rfl).symm
    rw [hfirst ys.reverse]
    refine findLargest_good h hc (s := s.each c.seekToLast) hs.count
      (fun i hi => ((hw i hi).seekToLast (hs.children i hi)).1) (fun _ _ _ _ => rfl)
      fun i hi => ?_
    rw [← hfirst]
    exact ((hw i hi).seekToLast (hs.children i hi)).2
  seek := by
    intro s t ht hs
    exact findSmallest_good h hc (s := s.each (c.seek t)) hs.count
      (fun i hi => ((hw i hi).seek ht (hs.children i hi)).1)
      (fun a b ha hab => decide_eq_true (le_trans (of_decide_eq_true ha) hab))
      fun i hi => ((hw i hi).seek ht (hs.children i hi)).2
  next := fun hs hx => next_good hw h hc hs hx
  prev := fun hs hx => prev_good hw h hc hs hx

/-- A new merging iterator shows, after any calls, what the merged sequence itself does. -/
theorem run_merges (h : Merges rank n xs ys) (hc : SkipList.Ranks compare_ rank)
    {children : ℕ → σ} (hchildren : ∀ i < n, ChildGood i (children i))
    (calls : List (Cursor.Call Key)) (hfit : ∀ t, .seek t ∈ calls → Fits t) :
    (cursor c compare_).entry (calls.foldl (cursor c compare_).call
        { children_ := children, n_ := n, current_ := none, direction_ := .kForward })
      = calls.foldl (Cursor.ofList rank ys).call none :=
  ((merging_walks hw h hc).run calls hfit ⟨rfl, hchildren, fun _ hi => by cases hi⟩).2

end Spec

/-- Two lists, as children of a merging iterator. -/
abbrev pairCursor : Cursor (Option (ℕ × ℕ) ⊕ Option (ℕ × ℕ)) ℕ ℕ :=
  (Cursor.ofList id [(1, 10), (3, 30)]).sum (.ofList id [(2, 20)])

def pairLists (i : ℕ) : List (ℕ × ℕ) := if i = 0 then [(1, 10), (3, 30)] else [(2, 20)]

def pairChildren (i : ℕ) : Option (ℕ × ℕ) ⊕ Option (ℕ × ℕ) :=
  if i = 0 then .inl none else .inr none

theorem pair_merges : Merges id 2 pairLists [(1, 10), (2, 20), (3, 30)] where
  sorted := by
    rw [Cursor.Sorted]
    decide
  parts i _ := by
    rw [pairLists, Cursor.Sorted]
    split <;> decide
  mem_iff x := by
    refine ⟨fun hx => ?_, fun h => ?_⟩
    · simp only [List.mem_cons, List.not_mem_nil, or_false] at hx
      rcases hx with rfl | rfl | rfl
      · exact ⟨0, by decide, by decide⟩
      · exact ⟨1, by decide, by decide⟩
      · exact ⟨0, by decide, by decide⟩
    · obtain ⟨i, -, hx⟩ := h
      rw [pairLists] at hx
      split at hx <;> simp only [List.mem_cons, List.not_mem_nil, or_false] at hx ⊢ <;> tauto
  apart := by decide

theorem pair_walks (i : ℕ) (_ : i < 2) : pairCursor.Walks id (pairLists i) (fun _ => True)
    (if i = 0 then Sum.elim (fun s => ∀ x ∈ s, x ∈ [(1, 10), (3, 30)]) fun _ => False
      else Sum.elim (fun _ => False) fun s => ∀ x ∈ s, x ∈ [(2, 20)]) := by
  rw [pairLists]
  split
  · exact (Cursor.ofList_walks (by rw [Cursor.Sorted]; decide) fun _ _ => trivial).inl
  · exact (Cursor.ofList_walks (by rw [Cursor.Sorted]; decide) fun _ _ => trivial).inr

theorem pair_run :
    (cursor pairCursor fun a b => (a : ℤ) - b).entry
        ([Cursor.Call.seekToFirst, .next, .next, .prev].foldl
          (cursor pairCursor fun a b => (a : ℤ) - b).call
          { children_ := pairChildren, n_ := 2, current_ := none, direction_ := .kForward })
      = [Cursor.Call.seekToFirst, .next, .next, .prev].foldl
          (Cursor.ofList id [(1, 10), (2, 20), (3, 30)]).call none :=
  run_merges pair_walks pair_merges ⟨fun _ _ => by simp, fun _ _ => by simp [sub_eq_zero]⟩
    (fun i hi => by
      rw [pairChildren]
      split <;> exact fun _ h => by cases h) _ fun _ _ => trivial

end MergingIterator

end LevelDb

end Tablefs
