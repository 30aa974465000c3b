/-
Cursors over ordered sequences.

A cursor is a state with the calls to go to the first entry, to the last, to the first whose key
is not below a target, one on and one back. `Walks` says that these calls move it over a given
list of entries, sorted by the rank of their keys: where the cursor is after a call is told by
the entry there, since no two entries have one rank.

The positions are written as searches in the list (`find?`), forward in the list and backward in
its reverse, so that a cursor built from others needs facts about searches only.
-/
import Mathlib.Data.List.Basic
import Mathlib.Data.List.Find
import Mathlib.Data.List.TakeWhile
import Mathlib.Order.OrderDual

set_option autoImplicit false

variable {σ Key Value κ : Type*}

/-- The calls of a cursor whose states are `σ`. -/
structure Cursor (σ Key Value : Type*) where
  seekToFirst : σ → σ
  seekToLast : σ → σ
  seek : Key → σ → σ
  next : σ → σ
  prev : σ → σ
  /-- the entry it is at, if it is valid -/
  entry : σ → Option (Key × Value)

namespace Cursor

variable [LinearOrder κ] (rank : Key → κ)

/-- The entries are in the order of their ranks. -/
def Sorted (xs : List (Key × Value)) : Prop := xs.Pairwise fun x y => rank x.1 < rank y.1

/-- From every good state the calls move over `xs`; targets are keys that fit. -/
structure Walks (c : Cursor σ Key Value) (xs : List (Key × Value)) (Fits : Key → Prop)
    (Good : σ → Prop) : Prop where
  sorted : Sorted rank xs
  fits : ∀ x ∈ xs, Fits x.1
  mem : ∀ {s x}, Good s → c.entry s = some x → x ∈ xs
  seekToFirst : ∀ {s}, Good s → Good (c.seekToFirst s) ∧ c.entry (c.seekToFirst s) = xs.head?
  seekToLast : ∀ {s}, Good s →
    Good (c.seekToLast s) ∧ c.entry (c.seekToLast s) = xs.reverse.head?
  seek : ∀ {s t}, Fits t → Good s → Good (c.seek t s) ∧
    c.entry (c.seek t s) = xs.find? fun y => rank t ≤ rank y.1
  next : ∀ {s x}, Good s → c.entry s = some x → Good (c.next s) ∧
    c.entry (c.next s) = xs.find? fun y => rank x.1 < rank y.1
  prev : ∀ {s x}, Good s → c.entry s = some x → Good (c.prev s) ∧
    c.entry (c.prev s) = xs.reverse.find? fun y => rank y.1 < rank x.1

/-! ## Searches in sorted lists -/

variable {rank} {xs as bs : List (Key × Value)} {x : Key × Value}

theorem Sorted.nodup (h : Sorted rank xs) : (xs.map fun x => rank x.1).Nodup :=
  List.pairwise_map.mpr (h.imp ne_of_lt)

/-- In a sorted list, the entries behind one are those above it. -/
theorem Sorted.find_above (h : Sorted rank (as ++ x :: bs)) :
    (as ++ x :: bs).find? (fun y => rank x.1 < rank y.1) = bs.head? := by
  obtain ⟨-, hx, hax⟩ := List.pairwise_append.mp h
  have has : as.find? (fun y => decide (rank x.1 < rank y.1)) = none :=
    List.find?_eq_none.mpr fun a ha => by
      simpa using (hax a ha x List.mem_cons_self).le
  rw [List.find?_append, has, Option.none_or, List.find?_cons_of_neg (by simp)]
  cases bs with
  | nil => rfl
  | cons b bs =>
      have hb := (List.pairwise_cons.mp hx).1 b List.mem_cons_self
      rw [List.find?_cons_of_pos (by simpa using hb)]
      rfl

/-- The entries before one, from the last on, are those below it. -/
theorem Sorted.find_below (h : Sorted rank (as ++ x :: bs)) :
    (as ++ x :: bs).reverse.find? (fun y => rank y.1 < rank x.1) = as.reverse.head? := by
  obtain ⟨-, hx, hax⟩ := List.pairwise_append.mp h
  have hbs : (bs.reverse ++ [x]).find? (fun y => decide (rank y.1 < rank x.1)) = none := by
    refine List.find?_eq_none.mpr fun b hb => ?_
    rcases List.mem_append.mp hb with hb | hb
    · simpa using ((List.pairwise_cons.mp hx).1 b (List.mem_reverse.mp hb)).le
    · rw [List.mem_singleton.mp hb]
      simp
  rw [List.reverse_append, List.reverse_cons, List.find?_append, hbs, Option.none_or]
  cases hr : as.reverse with
  | nil => rfl
  | cons a as' =>
      have ha : a ∈ as := List.mem_reverse.mp (hr ▸ List.mem_cons_self)
      rw [List.find?_cons_of_pos (by simpa using hax a ha x List.mem_cons_self)]
      rfl

/-- Where the test holds from some entry on, it finds that entry. -/
theorem find_split {p : Key × Value → Bool} (has : ∀ a ∈ as, p a = false)
    (hbs : ∀ b ∈ bs, p b = true) : (as ++ bs).find? p = bs.head? := by
  rw [List.find?_append, List.find?_eq_none.mpr fun a ha => by simp [has a ha], Option.none_or]
  cases bs with
  | nil => rfl
  | cons b bs =>
      rw [List.find?_cons_of_pos (hbs b List.mem_cons_self)]
      rfl

/-- A search finds the lowest entry that passes. -/
theorem Sorted.find_eq_some (h : Sorted rank xs) {p : Key × Value → Bool} :
    xs.find? p = some x ↔ x ∈ xs ∧ p x = true ∧ ∀ y ∈ xs, p y = true → rank x.1 ≤ rank y.1 := by
  constructor
  · intro hf
    obtain ⟨hp, as, bs, rfl, has⟩ := List.find?_eq_some_iff_append.mp hf
    refine ⟨List.mem_append_right as List.mem_cons_self, hp, fun y hy hpy => ?_⟩
    rcases List.mem_append.mp hy with hy | hy
    · exact absurd hpy (by simpa using has y hy)
    · rcases List.mem_cons.mp hy with rfl | hy
      · exact le_refl _
      · have hs := (List.pairwise_append.mp h).2.1
        exact ((List.pairwise_cons.mp hs).1 y hy).le
  · rintro ⟨hx, hp, hmin⟩
    cases hf : xs.find? p with
    | none => exact absurd hp (List.find?_eq_none.mp hf x hx)
    | some y =>
        obtain ⟨hpy, as, bs, rfl, has⟩ := List.find?_eq_some_iff_append.mp hf
        rcases List.mem_append.mp hx with hx | hx
        · exact absurd hp (by simpa using has x hx)
        · rcases List.mem_cons.mp hx with rfl | hx
          · rfl
          · have hs := (List.pairwise_append.mp h).2.1
            have hlt := (List.pairwise_cons.mp hs).1 x hx
            exact absurd (hmin y (List.mem_append_right as List.mem_cons_self) hpy)
              (not_le_of_gt hlt)

/-- Backward, it finds the highest. -/
theorem Sorted.find_reverse_eq_some (h : Sorted rank xs) {p : Key × Value → Bool} :
    xs.reverse.find? p = some x ↔
      x ∈ xs ∧ p x = true ∧ ∀ y ∈ xs, p y = true → rank y.1 ≤ rank x.1 := by
  have hr : Sorted (fun k => OrderDual.toDual (rank k)) xs.reverse := List.pairwise_reverse.mpr h
  rw [hr.find_eq_some]
  simp only [List.mem_reverse, OrderDual.toDual_le_toDual]

/-! ## Positions between two parts -/

variable {c : Cursor σ Key Value} {Fits : Key → Prop} {Good : σ → Prop} {s : σ}

/-- The cursor is at the first entry of `bs`, with `as` before it. -/
structure AtHead (c : Cursor σ Key Value) (xs : List (Key × Value)) (Good : σ → Prop) (s : σ)
    (as bs : List (Key × Value)) : Prop where
  good : Good s
  split : xs = as ++ bs
  entry : c.entry s = bs.head?

/-- The cursor is at the last entry of `as`, with `bs` behind it. -/
structure AtLast (c : Cursor σ Key Value) (xs : List (Key × Value)) (Good : σ → Prop) (s : σ)
    (as bs : List (Key × Value)) : Prop where
  good : Good s
  split : xs = as ++ bs
  entry : c.entry s = as.reverse.head?

namespace Walks

variable (h : c.Walks rank xs Fits Good)

include h

theorem atHead_seekToFirst (hs : Good s) : AtHead c xs Good (c.seekToFirst s) [] xs :=
  ⟨(h.seekToFirst hs).1, rfl, (h.seekToFirst hs).2⟩

theorem atLast_seekToLast (hs : Good s) : AtLast c xs Good (c.seekToLast s) xs [] :=
  ⟨(h.seekToLast hs).1, (List.append_nil xs).symm, (h.seekToLast hs).2⟩

theorem atHead_seek (hs : Good s) {t : Key} (ht : Fits t) :
    ∃ as bs, AtHead c xs Good (c.seek t s) as bs ∧ (∀ a ∈ as, rank a.1 < rank t) ∧
      ∀ b ∈ bs, rank t ≤ rank b.1 := by
  have hsplit := (List.takeWhile_append_dropWhile (p := fun y => decide (rank y.1 < rank t))
    (l := xs)).symm
  have has : ∀ a ∈ xs.takeWhile (fun y => decide (rank y.1 < rank t)), rank a.1 < rank t :=
    fun a ha => by simpa using List.mem_takeWhile_imp ha
  have hbs : ∀ b ∈ xs.dropWhile (fun y => decide (rank y.1 < rank t)), rank t ≤ rank b.1 := by
    intro b hb
    have hsort := h.sorted
    rw [Sorted, hsplit, List.pairwise_append] at hsort
    cases hd : xs.dropWhile (fun y => decide (rank y.1 < rank t)) with
    | nil =>
        rw [hd] at hb
        cases hb
    | cons d ds =>
        have hle : rank t ≤ rank d.1 := by
          have := List.head_dropWhile_not (fun y => decide (rank y.1 < rank t)) (l := xs)
            (by rw [hd]; exact List.cons_ne_nil d ds)
          simpa [hd] using this
        rw [hd] at hb hsort
        rcases List.mem_cons.mp hb with rfl | hb
        · exact hle
        · exact hle.trans ((List.pairwise_cons.mp hsort.2.1).1 b hb).le
  refine ⟨_, _, ⟨(h.seek ht hs).1, hsplit, (h.seek ht hs).2.trans ?_⟩, has, hbs⟩
  refine Eq.trans ?_ (find_split (fun a ha => decide_eq_false (not_le_of_gt (has a ha)))
    fun b hb => decide_eq_true (hbs b hb))
  rw [← hsplit]

end Walks

theorem AtHead.next (hs : AtHead c xs Good s as (x :: bs)) (h : c.Walks rank xs Fits Good) :
    AtHead c xs Good (c.next s) (as ++ [x]) bs := by
  obtain ⟨hgood, hentry⟩ := h.next hs.good hs.entry
  refine ⟨hgood, by rw [hs.split, List.append_cons], hentry.trans ?_⟩
  have hsort := h.sorted
  rw [hs.split] at hsort ⊢
  exact hsort.find_above

theorem AtHead.prev (hs : AtHead c xs Good s as (x :: bs)) (h : c.Walks rank xs Fits Good) :
    AtLast c xs Good (c.prev s) as (x :: bs) := by
  obtain ⟨hgood, hentry⟩ := h.prev hs.good hs.entry
  refine ⟨hgood, hs.split, hentry.trans ?_⟩
  have hsort := h.sorted
  rw [hs.split] at hsort ⊢
  exact hsort.find_below

omit [LinearOrder κ] in
/-- The last entry of `as` is the first of what is from it on. -/
theorem AtLast.atHead (hs : AtLast c xs Good s (as ++ [x]) bs) :
    AtHead c xs Good s as (x :: bs) :=
  ⟨hs.good, by rw [hs.split, List.append_assoc]; rfl, hs.entry.trans (by simp)⟩

/-! ## Cursors from cursors -/

section Map

variable {Key' Value' : Type*} {rank' : Key' → κ}

/-- A cursor that shows its entries through `f` and takes its targets through `g`. -/
def map (c : Cursor σ Key Value) (f : Key × Value → Key' × Value') (g : Key' → Key) :
    Cursor σ Key' Value' where
  seekToFirst := c.seekToFirst
  seekToLast := c.seekToLast
  seek t := c.seek (g t)
  next := c.next
  prev := c.prev
  entry s := (c.entry s).map f

theorem find_map {f : Key × Value → Key' × Value'} {p : Key × Value → Bool}
    {p' : Key' × Value' → Bool} (h : ∀ x ∈ xs, p' (f x) = p x) :
    (xs.map f).find? p' = (xs.find? p).map f := by
  rw [List.find?_map]
  exact congrArg (Option.map f) (List.find?_congr h)

/-- Where ranks stay what they are, the cursor moves over the entries that are shown. -/
theorem Walks.map {Fits' : Key' → Prop} (h : c.Walks rank xs Fits Good)
    {f : Key × Value → Key' × Value'} {g : Key' → Key}
    (hf : ∀ x ∈ xs, rank' (f x).1 = rank x.1 ∧ Fits' (f x).1)
    (hg : ∀ t, Fits' t → Fits (g t) ∧ rank (g t) = rank' t) :
    (c.map f g).Walks rank' (xs.map f) Fits' Good where
  sorted := List.pairwise_map.mpr (h.sorted.imp_of_mem fun {x y} hx hy hlt => by
    rw [(hf x hx).1, (hf y hy).1]
    exact hlt)
  fits := List.forall_mem_map.mpr fun x hx => (hf x hx).2
  mem := by
    intro s x' hs hx'
    obtain ⟨x, hx, rfl⟩ := Option.map_eq_some_iff.mp hx'
    exact List.mem_map_of_mem (h.mem hs hx)
  seekToFirst := fun hs => ⟨(h.seekToFirst hs).1,
    (congrArg (Option.map f) (h.seekToFirst hs).2).trans List.head?_map.symm⟩
  seekToLast := fun hs => ⟨(h.seekToLast hs).1,
    (congrArg (Option.map f) (h.seekToLast hs).2).trans (by
      rw [← List.map_reverse, List.head?_map])⟩
  seek := by
    intro s t ht hs
    obtain ⟨hfit, hrank⟩ := hg t ht
    refine ⟨(h.seek hfit hs).1, (congrArg (Option.map f) (h.seek hfit hs).2).trans
      (find_map fun x hx => ?_).symm⟩
    rw [(hf x hx).1, hrank]
  next := by
    intro s x' hs hx'
    obtain ⟨x, hx, rfl⟩ := Option.map_eq_some_iff.mp hx'
    refine ⟨(h.next hs hx).1, (congrArg (Option.map f) (h.next hs hx).2).trans
      (find_map fun y hy => ?_).symm⟩
    rw [(hf y hy).1, (hf x (h.mem hs hx)).1]
  prev := by
    intro s x' hs hx'
    obtain ⟨x, hx, rfl⟩ := Option.map_eq_some_iff.mp hx'
    refine ⟨(h.prev hs hx).1, (congrArg (Option.map f) (h.prev hs hx).2).trans ?_⟩
    rw [← List.map_reverse]
    refine (find_map fun y hy => ?_).symm
    rw [(hf y (List.mem_reverse.mp hy)).1, (hf x (h.mem hs hx)).1]

end Map

section Sum

variable {τ : Type*} {d : Cursor τ Key Value} {GoodD : τ → Prop}

/-- One of two kinds of cursor. -/
def sum (c : Cursor σ Key Value) (d : Cursor τ Key Value) : Cursor (σ ⊕ τ) Key Value where
  seekToFirst := Sum.map c.seekToFirst d.seekToFirst
  seekToLast := Sum.map c.seekToLast d.seekToLast
  seek t := Sum.map (c.seek t) (d.seek t)
  next := Sum.map c.next d.next
  prev := Sum.map c.prev d.prev
  entry := Sum.elim c.entry d.entry

theorem Walks.inl (h : c.Walks rank xs Fits Good) :
    (c.sum d).Walks rank xs Fits (Sum.elim Good fun _ => False) where
  sorted := h.sorted
  fits := h.fits
  mem {s x} hs hx := by
    cases s with
    | inl s => exact h.mem hs hx
    | inr s => exact hs.elim
  seekToFirst {s} hs := by
    cases s with
    | inl s => exact h.seekToFirst hs
    | inr s => exact hs.elim
  seekToLast {s} hs := by
    cases s with
    | inl s => exact h.seekToLast hs
    | inr s => exact hs.elim
  seek {s t} ht hs := by
    cases s with
    | inl s => exact h.seek ht hs
    | inr s => exact hs.elim
  next {s x} hs hx := by
    cases s with
    | inl s => exact h.next hs hx
    | inr s => exact hs.elim
  prev {s x} hs hx := by
    cases s with
    | inl s => exact h.prev hs hx
    | inr s => exact hs.elim

theorem Walks.inr (h : d.Walks rank xs Fits GoodD) :
    (c.sum d).Walks rank xs Fits (Sum.elim (fun _ => False) GoodD) where
  sorted := h.sorted
  fits := h.fits
  mem {s x} hs hx := by
    cases s with
    | inl s => exact hs.elim
    | inr s => exact h.mem hs hx
  seekToFirst {s} hs := by
    cases s with
    | inl s => exact hs.elim
    | inr s => exact h.seekToFirst hs
  seekToLast {s} hs := by
    cases s with
    | inl s => exact hs.elim
    | inr s => exact h.seekToLast hs
  seek {s t} ht hs := by
    cases s with
    | inl s => exact hs.elim
    | inr s => exact h.seek ht hs
  next {s x} hs hx := by
    cases s with
    | inl s => exact hs.elim
    | inr s => exact h.next hs hx
  prev {s x} hs hx := by
    cases s with
    | inl s => exact hs.elim
    | inr s => exact h.prev hs hx

end Sum

/-- A list itself, as a cursor: the state is what the cursor is at. -/
def ofList (rank : Key → κ) (xs : List (Key × Value)) :
    Cursor (Option (Key × Value)) Key Value where
  seekToFirst _ := xs.head?
  seekToLast _ := xs.reverse.head?
  seek t _ := xs.find? fun y => rank t ≤ rank y.1
  next s := s.bind fun x => xs.find? fun y => rank x.1 < rank y.1
  prev s := s.bind fun x => xs.reverse.find? fun y => rank y.1 < rank x.1
  entry s := s

theorem ofList_walks {Fits : Key → Prop} (hs : Sorted rank xs) (hf : ∀ x ∈ xs, Fits x.1) :
    (ofList rank xs).Walks rank xs Fits fun s => ∀ x ∈ s, x ∈ xs where
  sorted := hs
  fits := hf
  mem h hx := h _ hx
  seekToFirst _ := ⟨fun _ hx => List.mem_of_head? hx, rfl⟩
  seekToLast _ := ⟨fun _ hx => List.mem_reverse.mp (List.mem_of_head? hx), rfl⟩
  seek _ _ := ⟨fun _ hx => List.mem_of_find?_eq_some hx, rfl⟩
  next := by
    rintro s x - hx
    obtain rfl : s = some x := hx
    exact ⟨fun _ hy => List.mem_of_find?_eq_some hy, rfl⟩
  prev := by
    rintro s x - hx
    obtain rfl : s = some x := hx
    exact ⟨fun _ hy => List.mem_reverse.mp (List.mem_of_find?_eq_some hy), rfl⟩

/-! ## Runs of calls -/

/-- A call on a cursor. -/
inductive Call (Key : Type*)
  | seekToFirst
  | seekToLast
  | seek (target : Key)
  | next
  | prev

/-- The calls that look forward. -/
def Call.Forward : Call Key → Prop
  | .seekToFirst => True
  | .seek _ => True
  | .next => True
  | _ => False

/-- A call; one on and one back are for a cursor that is at an entry. -/
def call (c : Cursor σ Key Value) (s : σ) : Call Key → σ
  | .seekToFirst => c.seekToFirst s
  | .seekToLast => c.seekToLast s
  | .seek target => c.seek target s
  | .next => if (c.entry s).isSome then c.next s else s
  | .prev => if (c.entry s).isSome then c.prev s else s

/-- A cursor over a list shows, after every run of calls, what the list itself does. -/
theorem Walks.run (h : c.Walks rank xs Fits Good) (calls : List (Call Key))
    (hfit : ∀ t, .seek t ∈ calls → Fits t) (hs : Good s) :
    Good (calls.foldl c.call s) ∧
      c.entry (calls.foldl c.call s) = calls.foldl (ofList rank xs).call (c.entry s) := by
  induction calls generalizing s with
  | nil => exact ⟨hs, rfl⟩
  | cons a calls ih =>
      have hstep : Good (c.call s a) ∧
          c.entry (c.call s a) = (ofList rank xs).call (c.entry s) a := by
        cases a with
        | seekToFirst => exact h.seekToFirst hs
        | seekToLast => exact h.seekToLast hs
        | seek t => exact h.seek (hfit t List.mem_cons_self) hs
        | next =>
            rw [call, call]
            cases he : c.entry s with
            | none => exact ⟨hs, he⟩
            | some x => exact h.next hs he
        | prev =>
            rw [call, call]
            cases he : c.entry s with
            | none => exact ⟨hs, he⟩
            | some x => exact h.prev hs he
      rw [List.foldl_cons, List.foldl_cons, ← hstep.2]
      exact ih (fun t ht => hfit t (List.mem_cons_of_mem a ht)) hstep.1

/-- One on from a place in the list is the next place. -/
theorem ofList_next (hs : Sorted rank xs) (i : ℕ) :
    (ofList rank xs).call xs[i]? .next = xs[i + 1]? := by
  cases hx : xs[i]? with
  | none => exact (List.getElem?_eq_none ((List.getElem?_eq_none_iff.mp hx).trans i.le_succ)).symm
  | some x =>
      obtain ⟨hi, rfl⟩ := List.getElem?_eq_some_iff.mp hx
      have hsplit : xs = xs.take i ++ xs[i] :: xs.drop (i + 1) := by
        rw [← List.drop_eq_getElem_cons hi, List.take_append_drop]
      have habove := Sorted.find_above (hsplit ▸ hs)
      rw [← hsplit] at habove
      refine habove.trans ?_
      rw [List.head?_drop]

/-- Steps from a place in the list. -/
theorem ofList_steps (hs : Sorted rank xs) (i j : ℕ) :
    (List.replicate j Call.next).foldl (ofList rank xs).call xs[i]? = xs[i + j]? := by
  induction j generalizing i with
  | zero => rfl
  | succ j ih =>
      rw [List.replicate_succ, List.foldl_cons, ofList_next hs, ih, Nat.add_assoc, Nat.add_comm 1]

/-- A search for a target and some steps from there. -/
theorem ofList_seek_steps (hs : Sorted rank xs) (t : Key) (s : Option (Key × Value)) (j : ℕ) :
    (Call.seek t :: List.replicate j .next).foldl (ofList rank xs).call s
      = (xs.dropWhile fun y => rank y.1 < rank t)[j]? := by
  obtain ⟨as, bs, hxs, hbs⟩ : ∃ as bs, xs = as ++ bs ∧
      bs = xs.dropWhile fun y => rank y.1 < rank t :=
    ⟨_, _, List.takeWhile_append_dropWhile.symm, rfl⟩
  have hfind : xs.find? (fun y => rank t ≤ rank y.1) = xs[as.length]? := by
    have hhead : xs.find? (fun y => rank t ≤ rank y.1) = bs.head? := by
      rw [hbs, ← List.find?_not_eq_head?_dropWhile]
      refine List.find?_congr fun y _ => ?_
      rw [← decide_not, decide_eq_decide, not_lt]
    rw [hhead]
    conv_rhs => rw [hxs]
    rw [List.getElem?_append_right (Nat.le_refl _), Nat.sub_self, List.head?_eq_getElem?]
  rw [List.foldl_cons]
  refine (congrArg (List.foldl _ · _) hfind).trans ((ofList_steps hs as.length j).trans ?_)
  rw [← hbs]
  conv_lhs => rw [hxs]
  rw [List.getElem?_append_right (Nat.le_add_right _ _), Nat.add_sub_cancel_left]

end Cursor
