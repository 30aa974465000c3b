/-
The skip list of `db/skiplist.h`, with the generator that draws its heights.

A node is a number, the head is node 0, and the memory of the nodes is a function from node and
level to the next node. The searches are one walk with a test: along a level while the next node
passes, then down a level. The representation is a list of the nodes in the order of their keys:
the nodes on a level are those of the list that are high enough (`Inv`), so no more than the
order and the heights need to be said. Searching is splitting that list (`walk_spec`), inserting
is inserting into it (`insert_inv`), for every run of heights.

Nothing is said about readers beside a writer: the loads and stores are plain here.
-/
import Tablefs.LevelDb.Coding

set_option autoImplicit false

namespace Tablefs

namespace LevelDb

/-! ## `Random` -/

/-- `Random` of `util/random.h`. -/
structure Random where
  seed_ : UInt32
  deriving DecidableEq, Repr

/-- `Random::Random` -/
def Random.new (s : UInt32) : Random := ⟨s &&& 0x7fffffff⟩

/-- `Next` -/
def Random.next (r : Random) : Random × UInt32 :=
  let M : UInt32 := 2147483647
  let A : UInt64 := 16807
  let product := r.seed_.toUInt64 * A
  let seed_ := ((product >>> 31) + (product &&& M.toUInt64)).toUInt32
  let seed_ := if M < seed_ then seed_ - M else seed_
  (⟨seed_⟩, seed_)

/-! ## The list -/

def kMaxHeight : ℕ := 12

def kBranching : UInt32 := 4

/-- `SkipList`. A node's block has as many links as its height. -/
structure SkipList (Key : Type*) where
  key : ℕ → Key
  height : ℕ → ℕ
  next : ℕ → ℕ → Option ℕ
  allocated : ℕ
  max_height_ : ℕ
  rnd_ : Random

namespace SkipList

variable {Key : Type*}

/-- `SkipList::SkipList`: the head, node 0, with any key. -/
def new [Inhabited Key] : SkipList Key where
  key _ := default
  height _ := kMaxHeight
  next _ _ := none
  allocated := 1
  max_height_ := 1
  rnd_ := .new 0xdeadbeef

/-- The loop of `RandomHeight`, with `n` turns left. -/
def heightLoop : ℕ → ℕ → Random → ℕ × Random
  | 0, height, rnd => (height, rnd)
  | n + 1, height, rnd =>
      if height < kMaxHeight then
        let (rnd, x) := rnd.next
        if x % kBranching = 0 then heightLoop n (height + 1) rnd else (height, rnd)
      else (height, rnd)

/-- `RandomHeight` -/
def randomHeight (rnd : Random) : ℕ × Random := heightLoop kMaxHeight 1 rnd

/-- The loop of the searches, with `n` turns left: along the level while `after` holds of the
next node, else down. The node it ends at, the one behind it, and `prev`. -/
def walk (s : SkipList Key) (after : ℕ → Bool) :
    ℕ → ℕ → ℕ → (ℕ → ℕ) → Option (ℕ × Option ℕ × (ℕ → ℕ))
  | 0, _, _, _ => none
  | n + 1, x, level, prev =>
      let next := s.next x level
      match next.filter after with
      | some y => walk s after n y level prev
      | none =>
          let prev := Function.update prev level x
          if level = 0 then some (x, next, prev) else walk s after n x (level - 1) prev

/-- A search from the head, with turns enough for every node and every level. -/
def search (s : SkipList Key) (after : ℕ → Bool) (prev : ℕ → ℕ) :
    Option (ℕ × Option ℕ × (ℕ → ℕ)) :=
  s.walk after (s.allocated + s.max_height_) 0 (s.max_height_ - 1) prev

variable (compare_ : Key → Key → ℤ)

/-- `FindGreaterOrEqual`: the node, and `prev`. -/
def findGreaterOrEqual (s : SkipList Key) (key : Key) (prev : ℕ → ℕ) :
    Option (Option ℕ × (ℕ → ℕ)) :=
  (s.search (fun n => compare_ (s.key n) key < 0) prev).map fun r => r.2

/-- `FindLessThan` -/
def findLessThan (s : SkipList Key) (key : Key) : Option ℕ :=
  (s.search (fun n => compare_ (s.key n) key < 0) id).map fun r => r.1

/-- `FindLast` -/
def findLast (s : SkipList Key) : Option ℕ := (s.search (fun _ => true) id).map fun r => r.1

/-- A store to a link. -/
def setNext (next : ℕ → ℕ → Option ℕ) (x level : ℕ) (v : Option ℕ) : ℕ → ℕ → Option ℕ :=
  fun y l => if y = x ∧ l = level then v else next y l

/-- The turn of the loop of `Insert` for a level. -/
def link (prev : ℕ → ℕ) (x : ℕ) (next : ℕ → ℕ → Option ℕ) (i : ℕ) : ℕ → ℕ → Option ℕ :=
  setNext (setNext next x i (next (prev i) i)) (prev i) i (some x)

/-- `prev` for the levels that the list did not have. -/
def raisePrev (s : SkipList Key) (height : ℕ) (prev : ℕ → ℕ) : ℕ → ℕ :=
  fun i => if s.max_height_ ≤ i ∧ i < height then 0 else prev i

/-- A new node of a height, linked in behind `prev`. -/
def insertNode (s : SkipList Key) (prev : ℕ → ℕ) (key : Key) (height : ℕ) (rnd_ : Random) :
    SkipList Key where
  key := Function.update s.key s.allocated key
  height := Function.update s.height s.allocated height
  next := (List.range height).foldl (link (s.raisePrev height prev) s.allocated) s.next
  allocated := s.allocated + 1
  max_height_ := if s.max_height_ < height then height else s.max_height_
  rnd_ := rnd_

/-- `Insert`, where `prev` holds anything at first. -/
def insert (s : SkipList Key) (prev : ℕ → ℕ) (key : Key) : Option (SkipList Key) :=
  (s.findGreaterOrEqual compare_ key prev).map fun r =>
    s.insertNode r.2 key (randomHeight s.rnd_).1 (randomHeight s.rnd_).2

/-- `Contains` -/
def contains (s : SkipList Key) (key : Key) : Option Bool :=
  (s.findGreaterOrEqual compare_ key id).map fun r =>
    match r.1 with
    | some x => compare_ key (s.key x) = 0
    | none => false

/-! ## Paths -/

/-- From `a` the links lead through `ys` to the end. -/
def Path (f : ℕ → Option ℕ) : ℕ → List ℕ → Prop
  | a, [] => f a = none
  | a, y :: ys => f a = some y ∧ Path f y ys

theorem Path.head {f : ℕ → Option ℕ} {a : ℕ} {ys : List ℕ} (h : Path f a ys) :
    f a = ys.head? := by
  cases ys with
  | nil => exact h
  | cons y ys => exact h.1

theorem Path.suffix {f : ℕ → Option ℕ} {a x : ℕ} {ps qs : List ℕ}
    (h : Path f a (ps ++ x :: qs)) : Path f x qs := by
  induction ps generalizing a with
  | nil => exact h.2
  | cons p ps ih => exact ih h.2

theorem Path.congr {f g : ℕ → Option ℕ} {a b : ℕ} {ys : List ℕ} (h : Path f a ys)
    (hab : g b = f a) (hys : ∀ y ∈ ys, g y = f y) : Path g b ys := by
  induction ys generalizing a b with
  | nil => exact hab.trans h
  | cons y ys ih =>
      exact ⟨hab.trans h.1, ih h.2 (hys y List.mem_cons_self)
        fun z hz => hys z (List.mem_cons_of_mem y hz)⟩

/-- A node linked in behind the last of `ps`. -/
theorem Path.insert {f g : ℕ → Option ℕ} {a z x : ℕ} {ps qs : List ℕ} (h : Path f a (ps ++ qs))
    (hlast : (a :: ps).getLast (List.cons_ne_nil a ps) = z) (hnodup : (a :: (ps ++ qs)).Nodup)
    (hx : x ∉ a :: (ps ++ qs)) (hz : g z = some x) (hnew : g x = f z)
    (hrest : ∀ y, y ≠ x → y ≠ z → g y = f y) : Path g a (ps ++ x :: qs) := by
  induction ps generalizing a with
  | nil =>
      obtain rfl : a = z := hlast
      refine ⟨hz, h.congr hnew fun y hy => hrest y ?_ ?_⟩
      · rintro rfl
        exact hx (List.mem_cons_of_mem a hy)
      · rintro rfl
        exact (List.nodup_cons.mp hnodup).1 hy
  | cons p ps ih =>
      obtain ⟨hnot, hnodup'⟩ := List.nodup_cons.mp hnodup
      have hlast' : (p :: ps).getLast (List.cons_ne_nil p ps) = z := by
        rw [← hlast, List.getLast_cons (List.cons_ne_nil p ps)]
      refine ⟨(hrest a ?_ ?_).trans h.1, ih h.2 hlast' hnodup' fun hm =>
        hx (List.mem_cons_of_mem a hm)⟩
      · rintro rfl
        exact hx List.mem_cons_self
      · rintro rfl
        rw [← hlast'] at hnot
        exact hnot (List.mem_append_left qs (List.getLast_mem _))

/-! ## The representation -/

variable {κ : Type*} [LinearOrder κ] (rank : Key → κ)

/-- The comparison orders keys by their rank. -/
structure Ranks : Prop where
  lt_iff : ∀ a b, compare_ a b < 0 ↔ rank a < rank b
  eq_iff : ∀ a b, compare_ a b = 0 ↔ rank a = rank b

/-- `order` are the nodes in the order of their keys. -/
structure Inv (s : SkipList Key) (order : List ℕ) : Prop where
  sorted : order.Pairwise fun x y => rank (s.key x) < rank (s.key y)
  fresh : ∀ x ∈ order, 0 < x ∧ x < s.allocated
  count : order.length + 1 = s.allocated
  heights : ∀ x ∈ order, 0 < s.height x ∧ s.height x ≤ s.max_height_
  maxHeight : 0 < s.max_height_ ∧ s.max_height_ ≤ kMaxHeight
  head : s.height 0 = kMaxHeight
  /-- on a level are the nodes that are high enough -/
  path : ∀ l < kMaxHeight, Path (fun x => s.next x l) 0 (order.filter fun x => l < s.height x)

theorem new_inv [Inhabited Key] : Inv rank (new : SkipList Key) [] where
  sorted := .nil
  fresh x hx := by cases hx
  count := rfl
  heights x hx := by cases hx
  maxHeight := ⟨Nat.one_pos, Nat.le_add_left 1 11⟩
  head := rfl
  path _ _ := rfl

variable {rank} {s : SkipList Key} {order : List ℕ}

namespace Inv

theorem nodup (h : Inv rank s order) : (0 :: order).Nodup := by
  refine List.nodup_cons.mpr ⟨fun h0 => absurd (h.fresh 0 h0).1 (Nat.lt_irrefl 0), ?_⟩
  exact h.sorted.imp fun hlt he => by
    rw [he] at hlt
    exact lt_irrefl _ hlt

/-- The links from a node that is high enough. -/
theorem path_from (h : Inv rank s order) {ps qs : List ℕ} {x l : ℕ}
    (hsplit : 0 :: order = ps ++ x :: qs) (hl : l < kMaxHeight) (hx : l < s.height x) :
    Path (fun y => s.next y l) x (qs.filter fun y => l < s.height y) := by
  have hpath := h.path l hl
  cases ps with
  | nil =>
      obtain ⟨rfl, rfl⟩ := List.cons.inj hsplit
      exact hpath
  | cons p ps =>
      obtain ⟨rfl, hord⟩ := List.cons.inj hsplit
      rw [show order = ps ++ x :: qs from hord, List.filter_append,
        List.filter_cons_of_pos (by simpa using hx)] at hpath
      exact hpath.suffix

/-- The nodes before and behind a place in the order. -/
theorem split (h : Inv rank s order) (t : κ) :
    ∃ as bs, order = as ++ bs ∧ (∀ a ∈ as, rank (s.key a) < t) ∧ ∀ b ∈ bs, t ≤ rank (s.key b) := by
  have hs := h.sorted
  clear h
  induction order with
  | nil => exact ⟨[], [], rfl, nofun, nofun⟩
  | cons x xs ih =>
      obtain ⟨hx, hs⟩ := List.pairwise_cons.mp hs
      by_cases hlt : rank (s.key x) < t
      · obtain ⟨as, bs, rfl, has, hbs⟩ := ih hs
        refine ⟨x :: as, bs, rfl, fun a ha => ?_, hbs⟩
        rcases List.mem_cons.mp ha with rfl | ha
        · exact hlt
        · exact has a ha
      · refine ⟨[], x :: xs, rfl, nofun, fun b hb => ?_⟩
        rcases List.mem_cons.mp hb with rfl | hb
        · exact not_lt.mp hlt
        · exact (not_lt.mp hlt).trans (hx b hb).le

end Inv

/-- The last node of a level before the place that is searched. -/
def lastOn (s : SkipList Key) (as : List ℕ) (l : ℕ) : ℕ :=
  ((0 :: as).filter fun x => l < s.height x).getLastD 0

theorem lastOn_eq {as ps qs : List ℕ} {x l : ℕ} (hsplit : 0 :: as = ps ++ x :: qs)
    (hx : l < s.height x) (hqs : qs.filter (fun y => l < s.height y) = []) :
    s.lastOn as l = x := by
  rw [lastOn, hsplit, List.filter_append, List.filter_cons_of_pos (by simpa using hx), hqs,
    List.getLastD_eq_getLast?, List.getLast?_append]
  rfl

/-- What a walk finds: the nodes `as` pass the test and the nodes `bs` do not; it is at `x`, with
`qs` of `as` before it. -/
theorem walk_spec {as bs : List ℕ} (h : Inv rank s (as ++ bs)) {after : ℕ → Bool}
    (hafter : ∀ a ∈ as, after a = true) (hbefore : ∀ b ∈ bs, after b = false) {n x level : ℕ}
    {ps qs : List ℕ} (hsplit : 0 :: as = ps ++ x :: qs) (hx : level < s.height x)
    (hlevel : level < s.max_height_) (hn : qs.length + level < n) (prev : ℕ → ℕ) :
    ∃ prev', s.walk after n x level prev = some (s.lastOn as 0, bs.head?, prev') ∧
      (∀ l ≤ level, prev' l = s.lastOn as l) ∧ ∀ l, level < l → prev' l = prev l := by
  induction n generalizing x level ps qs prev with
  | zero => omega
  | succ n ih =>
      have hlt : level < kMaxHeight := Nat.lt_of_lt_of_le hlevel h.maxHeight.2
      have hmem : ∀ y ∈ qs, y ∈ as := by
        intro y hy
        cases ps with
        | nil =>
            rw [(List.cons.inj hsplit).2]
            exact hy
        | cons p ps =>
            rw [(List.cons.inj hsplit).2]
            exact List.mem_append_right ps (List.mem_cons_of_mem x hy)
      have hall : 0 :: (as ++ bs) = ps ++ x :: (qs ++ bs) := by
        rw [← List.cons_append, hsplit, List.append_assoc, List.cons_append]
      have hnext := (h.path_from hall hlt hx).head
      rw [List.filter_append] at hnext
      rw [walk]
      dsimp only
      cases hqs : qs.filter fun y => decide (level < s.height y) with
      | cons y ys =>
          -- along the level
          obtain ⟨cs, ds, rfl, hcs, hy, -⟩ := List.filter_eq_cons_iff.mp hqs
          rw [hqs] at hnext
          have hya : after y = true :=
            hafter y (hmem y (List.mem_append_right cs List.mem_cons_self))
          have hstep : (s.next x level).filter after = some y := by
            rw [hnext]
            simp [hya]
          rw [hstep]
          have hsplit' : 0 :: as = (ps ++ x :: cs) ++ y :: ds := by
            rw [hsplit, List.append_assoc, List.cons_append]
          refine ih hsplit' (by simpa using hy) hlevel ?_ prev
          · rw [List.length_append, List.length_cons] at hn
            omega
      | nil =>
          -- down a level
          rw [hqs, List.nil_append] at hnext
          have hlast := lastOn_eq hsplit hx hqs
          have hstop : (s.next x level).filter after = none := by
            rw [hnext]
            cases hb : bs.filter fun y => decide (level < s.height y) with
            | nil => rfl
            | cons b bs' =>
                have hbm : b ∈ bs := List.mem_of_mem_filter (by rw [hb]; exact List.mem_cons_self)
                simp [hbefore b hbm]
          rw [hstop]
          dsimp only
          by_cases h0 : level = 0
          · subst h0
            have hall : bs.filter (fun y => decide (0 < s.height y)) = bs :=
              List.filter_eq_self.mpr fun b hb =>
                decide_eq_true (h.heights b (List.mem_append_right as hb)).1
            rw [hall] at hnext
            rw [if_pos rfl, hnext, hlast]
            refine ⟨_, rfl, fun l hl => ?_, fun l hl => Function.update_of_ne (by omega) _ _⟩
            obtain rfl : l = 0 := Nat.le_zero.mp hl
            rw [Function.update_self, hlast]
          · rw [if_neg h0]
            obtain ⟨prev', hwalk, hlow, hhigh⟩ := ih hsplit
              (show level - 1 < s.height x by omega) (by omega) (by omega)
              (Function.update prev level x)
            refine ⟨prev', hwalk, fun l hl => ?_, fun l hl => ?_⟩
            · by_cases hll : l ≤ level - 1
              · exact hlow l hll
              · obtain rfl : l = level := by omega
                rw [hhigh l (by omega), Function.update_self, hlast]
            · rw [hhigh l (by omega), Function.update_of_ne (by omega)]

theorem search_spec {as bs : List ℕ} (h : Inv rank s (as ++ bs)) {after : ℕ → Bool}
    (hafter : ∀ a ∈ as, after a = true) (hbefore : ∀ b ∈ bs, after b = false) (prev : ℕ → ℕ) :
    ∃ prev', s.search after prev = some (s.lastOn as 0, bs.head?, prev') ∧
      (∀ l < s.max_height_, prev' l = s.lastOn as l) ∧
      ∀ l, s.max_height_ ≤ l → prev' l = prev l := by
  have hmax := h.maxHeight
  have hcount := h.count
  rw [List.length_append] at hcount
  have hhead := h.head
  have htop : s.max_height_ - 1 < s.height 0 := by omega
  have hfuel : as.length + (s.max_height_ - 1) < s.allocated + s.max_height_ := by omega
  obtain ⟨prev', hwalk, hlow, hhigh⟩ :=
    walk_spec h hafter hbefore (List.nil_append (0 :: as)).symm htop (by omega) hfuel prev
  exact ⟨prev', hwalk, fun l hl => hlow l (by omega), fun l hl => hhigh l (by omega)⟩

/-- The head is on every level. -/
theorem lastOn_getLast (h : Inv rank s order) (as : List ℕ) {l : ℕ} (hl : l < kMaxHeight) :
    s.lastOn as l
      = (0 :: as.filter fun x => decide (l < s.height x)).getLast (List.cons_ne_nil _ _) := by
  rw [lastOn, List.filter_cons, if_pos (by rw [h.head]; exact decide_eq_true hl),
    List.getLastD_cons, List.getLast_eq_getLastD]

/-- The lowest level has every node. -/
theorem lastOn_zero {as bs : List ℕ} (h : Inv rank s (as ++ bs)) :
    s.lastOn as 0 = as.getLastD 0 := by
  have hall : (0 :: as).filter (fun x => decide (0 < s.height x)) = 0 :: as := by
    refine List.filter_eq_self.mpr fun a ha => decide_eq_true ?_
    rcases List.mem_cons.mp ha with rfl | ha
    · rw [h.head]
      exact Nat.succ_pos _
    · exact (h.heights a (List.mem_append_left bs ha)).1
  rw [lastOn, hall]
  cases as <;> rfl

/-- Above the highest node is only the head. -/
theorem lastOn_high {as bs : List ℕ} (h : Inv rank s (as ++ bs)) {l : ℕ}
    (hl : s.max_height_ ≤ l) : s.lastOn as l = 0 := by
  have hnone : as.filter (fun x => decide (l < s.height x)) = [] := by
    refine List.filter_eq_nil_iff.mpr fun a ha => ?_
    have := (h.heights a (List.mem_append_left bs ha)).2
    simp
    omega
  rw [lastOn, List.filter_cons, hnone]
  split <;> rfl

variable {compare_}

/-- The test of the searches by key. -/
theorem Ranks.after (hc : Ranks compare_ rank) {as bs : List ℕ} {key : Key}
    (has : ∀ a ∈ as, rank (s.key a) < rank key) (hbs : ∀ b ∈ bs, rank key ≤ rank (s.key b)) :
    (∀ a ∈ as, decide (compare_ (s.key a) key < 0) = true) ∧
      ∀ b ∈ bs, decide (compare_ (s.key b) key < 0) = false :=
  ⟨fun a ha => decide_eq_true ((hc.lt_iff _ _).mpr (has a ha)),
    fun b hb => decide_eq_false fun hlt => not_lt_of_ge (hbs b hb) ((hc.lt_iff _ _).mp hlt)⟩

theorem findGreaterOrEqual_spec (hc : Ranks compare_ rank) {as bs : List ℕ}
    (h : Inv rank s (as ++ bs)) {key : Key} (has : ∀ a ∈ as, rank (s.key a) < rank key)
    (hbs : ∀ b ∈ bs, rank key ≤ rank (s.key b)) (prev : ℕ → ℕ) :
    ∃ prev', s.findGreaterOrEqual compare_ key prev = some (bs.head?, prev') ∧
      (∀ l < s.max_height_, prev' l = s.lastOn as l) ∧
      ∀ l, s.max_height_ ≤ l → prev' l = prev l := by
  obtain ⟨hafter, hbefore⟩ := hc.after has hbs
  obtain ⟨prev', hsearch, hlow, hhigh⟩ := search_spec h hafter hbefore prev
  exact ⟨prev', by rw [findGreaterOrEqual, hsearch]; rfl, hlow, hhigh⟩

theorem findLessThan_spec (hc : Ranks compare_ rank) {as bs : List ℕ}
    (h : Inv rank s (as ++ bs)) {key : Key} (has : ∀ a ∈ as, rank (s.key a) < rank key)
    (hbs : ∀ b ∈ bs, rank key ≤ rank (s.key b)) :
    s.findLessThan compare_ key = some (as.getLastD 0) := by
  obtain ⟨hafter, hbefore⟩ := hc.after has hbs
  obtain ⟨prev', hsearch, -⟩ := search_spec h hafter hbefore id
  rw [findLessThan, hsearch, lastOn_zero h]
  rfl

theorem findLast_spec (h : Inv rank s order) : s.findLast = some (order.getLastD 0) := by
  rw [← List.append_nil order] at h
  have hall : ∀ a ∈ order, (fun _ : ℕ => true) a = true := fun _ _ => rfl
  obtain ⟨prev', hsearch, -⟩ := search_spec h hall (fun b hb => by cases hb) id
  rw [findLast, hsearch, lastOn_zero h]
  rfl

/-! ## Inserting -/

theorem heightLoop_bounds (n : ℕ) {height : ℕ} (rnd : Random) (h : height ≤ kMaxHeight) :
    height ≤ (heightLoop n height rnd).1 ∧ (heightLoop n height rnd).1 ≤ kMaxHeight := by
  induction n generalizing height rnd with
  | zero => exact ⟨le_refl _, h⟩
  | succ n ih =>
      rw [heightLoop]
      by_cases hlt : height < kMaxHeight
      · rw [if_pos hlt]
        dsimp only
        split
        · have hnext := ih rnd.next.1 (Nat.succ_le_of_lt hlt)
          exact ⟨(Nat.le_succ height).trans hnext.1, hnext.2⟩
        · exact ⟨le_refl _, h⟩
      · rw [if_neg hlt]
        exact ⟨le_refl _, h⟩

/-- The links after the loop of `Insert`. -/
theorem foldl_link (prev : ℕ → ℕ) (x : ℕ) (f : ℕ → ℕ → Option ℕ) (n y l : ℕ) :
    (List.range n).foldl (link prev x) f y l =
      if l < n then if y = prev l then some x else if y = x then f (prev l) l else f y l
      else f y l := by
  induction n generalizing y l with
  | zero => rfl
  | succ n ih =>
      rw [List.range_succ, List.foldl_append, List.foldl_cons, List.foldl_nil, link, setNext,
        setNext]
      by_cases hl : l = n
      · subst hl
        rw [if_pos (Nat.lt_succ_self l)]
        simp only [and_true, ih, if_neg (Nat.lt_irrefl l)]
      · have hiff : l < n + 1 ↔ l < n := by omega
        simp only [hl, and_false, if_false, ih, hiff]

section InsertNode

variable {as bs : List ℕ} {key : Key} {prev : ℕ → ℕ} {height : ℕ} {rnd_ : Random}

/-- The nodes that were there are other ones. -/
theorem Inv.old (h : Inv rank s (as ++ bs)) {y : ℕ} (hy : y ∈ as ++ bs) :
    (s.insertNode prev key height rnd_).key y = s.key y ∧
      (s.insertNode prev key height rnd_).height y = s.height y :=
  ⟨Function.update_of_ne (h.fresh y hy).2.ne _ _, Function.update_of_ne (h.fresh y hy).2.ne _ _⟩

theorem insertNode_new : (s.insertNode prev key height rnd_).key s.allocated = key ∧
    (s.insertNode prev key height rnd_).height s.allocated = height :=
  ⟨Function.update_self .., Function.update_self ..⟩

theorem insertNode_sorted (h : Inv rank s (as ++ bs)) (has : ∀ a ∈ as, rank (s.key a) < rank key)
    (hbs : ∀ b ∈ bs, rank key < rank (s.key b)) :
    (as ++ s.allocated :: bs).Pairwise fun x y =>
      rank ((s.insertNode prev key height rnd_).key x)
        < rank ((s.insertNode prev key height rnd_).key y) := by
  obtain ⟨hsa, hsb, hab⟩ := List.pairwise_append.mp h.sorted
  have hold : ∀ y ∈ as ++ bs, (s.insertNode prev key height rnd_).key y = s.key y :=
    fun y hy => (h.old hy).1
  refine List.pairwise_append.mpr ⟨?_, List.pairwise_cons.mpr ⟨fun b hb => ?_, ?_⟩,
    fun a ha y hy => ?_⟩
  · refine hsa.imp_of_mem fun ha ha' hlt => ?_
    rw [hold _ (List.mem_append_left bs ha), hold _ (List.mem_append_left bs ha')]
    exact hlt
  · rw [insertNode_new.1, hold b (List.mem_append_right as hb)]
    exact hbs b hb
  · refine hsb.imp_of_mem fun hb hb' hlt => ?_
    rw [hold _ (List.mem_append_right as hb), hold _ (List.mem_append_right as hb')]
    exact hlt
  · rw [hold a (List.mem_append_left bs ha)]
    rcases List.mem_cons.mp hy with rfl | hy
    · rw [insertNode_new.1]
      exact has a ha
    · rw [hold y (List.mem_append_right as hy)]
      exact hab a ha y hy

/-- On a level of the new node it is linked in behind the last node before its place; the other
levels stay as they are. -/
theorem insertNode_path (h : Inv rank s (as ++ bs))
    (hprev : ∀ l < s.max_height_, prev l = s.lastOn as l) {l : ℕ} (hl : l < kMaxHeight) :
    Path (fun x => (s.insertNode prev key height rnd_).next x l) 0
      ((as ++ s.allocated :: bs).filter fun x =>
        l < (s.insertNode prev key height rnd_).height x) := by
  have hfilter : ∀ ys : List ℕ, (∀ y ∈ ys, y ∈ as ++ bs) →
      ys.filter (fun y => decide (l < (s.insertNode prev key height rnd_).height y))
        = ys.filter fun y => decide (l < s.height y) :=
    fun ys hys => List.filter_congr fun y hy => by rw [(h.old (hys y hy)).2]
  have hpath := h.path l hl
  rw [List.filter_append] at hpath
  rw [List.filter_append, List.filter_cons, insertNode_new.2,
    hfilter as fun y hy => List.mem_append_left bs hy,
    hfilter bs fun y hy => List.mem_append_right as hy]
  have hnext : ∀ y, (s.insertNode prev key height rnd_).next y l =
      if l < height then if y = s.raisePrev height prev l then some s.allocated
        else if y = s.allocated then s.next (s.raisePrev height prev l) l else s.next y l
      else s.next y l :=
    fun y => foldl_link _ _ _ _ _ _
  simp only [hnext]
  by_cases hheight : l < height
  · have hlast : s.raisePrev height prev l = s.lastOn as l := by
      rw [raisePrev]
      split
      · rename_i habove
        exact (lastOn_high h habove.1).symm
      · exact hprev l (by omega)
    have hsub : (0 :: (as.filter (fun y => decide (l < s.height y)) ++
        bs.filter fun y => decide (l < s.height y))).Sublist (0 :: (as ++ bs)) :=
      (List.filter_sublist.append List.filter_sublist).cons_cons 0
    have hnew : s.allocated ∉ 0 :: (as ++ bs) := by
      intro hm
      rcases List.mem_cons.mp hm with h0 | hm
      · have := h.count
        omega
      · exact absurd (h.fresh _ hm).2 (Nat.lt_irrefl _)
    have hz : s.lastOn as l ∈ 0 :: (as ++ bs) := by
      rw [lastOn_getLast h as hl]
      refine (List.Sublist.cons_cons 0 ?_).subset (List.getLast_mem _)
      exact List.filter_sublist.trans (List.sublist_append_left as bs)
    simp only [hheight, decide_true, if_true, hlast]
    refine hpath.insert (z := s.lastOn as l) (x := s.allocated) ?_ (hsub.nodup h.nodup)
      (fun hm => hnew (hsub.subset hm)) (if_pos rfl) ?_ fun y hyx hyz => ?_
    · exact (lastOn_getLast h as hl).symm
    · rw [if_neg (by
        rintro he
        rw [he] at hnew
        exact hnew hz), if_pos rfl]
    · rw [if_neg hyz, if_neg hyx]
  · simp only [hheight, decide_false, Bool.false_eq_true, if_false]
    exact hpath

theorem insertNode_inv (h : Inv rank s (as ++ bs)) (has : ∀ a ∈ as, rank (s.key a) < rank key)
    (hbs : ∀ b ∈ bs, rank key < rank (s.key b))
    (hprev : ∀ l < s.max_height_, prev l = s.lastOn as l) (hpos : 1 ≤ height)
    (hle : height ≤ kMaxHeight) :
    Inv rank (s.insertNode prev key height rnd_) (as ++ s.allocated :: bs) := by
  have hmem : ∀ y, y ∈ as ++ s.allocated :: bs → y = s.allocated ∨ y ∈ as ++ bs := by
    intro y hy
    simp only [List.mem_append, List.mem_cons] at hy ⊢
    tauto
  have hcount := h.count
  have hmax : (s.insertNode prev key height rnd_).max_height_
      = if s.max_height_ < height then height else s.max_height_ := rfl
  exact
    { sorted := insertNode_sorted h has hbs
      fresh := by
        intro y hy
        rcases hmem y hy with rfl | hy
        · exact ⟨by omega, Nat.lt_succ_self _⟩
        · exact ⟨(h.fresh y hy).1, Nat.lt_succ_of_lt (h.fresh y hy).2⟩
      count := by
        show _ = s.allocated + 1
        rw [List.length_append] at hcount ⊢
        rw [List.length_cons]
        omega
      heights := by
        intro y hy
        rw [hmax]
        rcases hmem y hy with rfl | hy
        · rw [insertNode_new.2]
          exact ⟨hpos, by split <;> omega⟩
        · rw [(h.old hy).2]
          have := h.heights y hy
          exact ⟨this.1, by split <;> omega⟩
      maxHeight := by
        have := h.maxHeight
        rw [hmax]
        split <;> omega
      head := (Function.update_of_ne (by omega) _ _).trans h.head
      path := fun l hl => insertNode_path h hprev hl }

end InsertNode

theorem insert_inv (hc : Ranks compare_ rank) {as bs : List ℕ} (h : Inv rank s (as ++ bs))
    {key : Key} (has : ∀ a ∈ as, rank (s.key a) < rank key)
    (hbs : ∀ b ∈ bs, rank key < rank (s.key b)) (prev : ℕ → ℕ) :
    ∃ t, s.insert compare_ prev key = some t ∧ Inv rank t (as ++ s.allocated :: bs) ∧
      t.key = Function.update s.key s.allocated key := by
  obtain ⟨prev', hfind, hlow, -⟩ :=
    findGreaterOrEqual_spec hc h has (fun b hb => (hbs b hb).le) prev
  obtain ⟨hpos, hle⟩ : 1 ≤ (randomHeight s.rnd_).1 ∧ (randomHeight s.rnd_).1 ≤ kMaxHeight :=
    heightLoop_bounds kMaxHeight s.rnd_ (by decide)
  rw [insert, hfind]
  exact ⟨_, rfl, insertNode_inv h has hbs hlow hpos hle, rfl⟩

theorem contains_spec (hc : Ranks compare_ rank) (h : Inv rank s order) (key : Key) :
    s.contains compare_ key = some (decide (∃ x ∈ order, rank (s.key x) = rank key)) := by
  obtain ⟨as, bs, rfl, has, hbs⟩ := h.split (rank key)
  obtain ⟨prev', hfind, -⟩ := findGreaterOrEqual_spec hc h has hbs id
  have hiff : (∃ x ∈ as ++ bs, rank (s.key x) = rank key) ↔
      ∃ b ∈ bs.head?, rank (s.key b) = rank key := by
    constructor
    · rintro ⟨x, hx, hxk⟩
      rcases List.mem_append.mp hx with hx | hx
      · exact absurd hxk (has x hx).ne
      · cases bs with
        | nil => cases hx
        | cons b bs =>
            refine ⟨b, rfl, le_antisymm ?_ (hbs b List.mem_cons_self)⟩
            rcases List.mem_cons.mp hx with rfl | hx
            · exact hxk.le
            · have hs := (List.pairwise_append.mp h.sorted).2.1
              exact ((List.pairwise_cons.mp hs).1 x hx).le.trans hxk.le
    · rintro ⟨b, hb, hbk⟩
      exact ⟨b, List.mem_append_right as (List.mem_of_mem_head? hb), hbk⟩
  rw [contains, hfind]
  refine congrArg some (Bool.eq_iff_iff.mpr ?_)
  rw [decide_eq_true_iff, hiff]
  cases bs with
  | nil => simp
  | cons b bs => simp [hc.eq_iff, eq_comm]

/-- `Insert` of some keys, each with what its array holds at first. -/
def insertAll (compare_ : Key → Key → ℤ) (s : SkipList Key) (ks : List (Key × (ℕ → ℕ))) :
    Option (SkipList Key) :=
  ks.foldlM (fun s k => s.insert compare_ k.2 k.1) s

theorem insertAll_inv (hc : Ranks compare_ rank) (ks : List (Key × (ℕ → ℕ)))
    (h : Inv rank s order)
    (hd : (order.map (fun x => rank (s.key x)) ++ ks.map fun k => rank k.1).Nodup) :
    ∃ t order', s.insertAll compare_ ks = some t ∧ Inv rank t order' ∧
      (order'.map t.key).Perm (order.map s.key ++ ks.map Prod.fst) := by
  induction ks generalizing s order with
  | nil =>
      refine ⟨s, order, rfl, h, ?_⟩
      rw [List.map_nil, List.append_nil]
  | cons k ks ih =>
      obtain ⟨as, bs, rfl, has, hbs⟩ := h.split (rank k.1)
      have hnew : ∀ b ∈ bs, rank k.1 < rank (s.key b) := by
        refine fun b hb => lt_of_le_of_ne (hbs b hb) fun he => ?_
        rw [List.map_cons] at hd
        exact (List.nodup_append.mp hd).2.2 _
          (List.mem_map_of_mem (List.mem_append_right as hb)) _ List.mem_cons_self he.symm
      obtain ⟨t, hins, ht, hkey⟩ := insert_inv hc h has hnew k.2
      have hold : ∀ y ∈ as ++ bs, t.key y = s.key y := fun y hy => by
        rw [hkey]
        exact Function.update_of_ne (h.fresh y hy).2.ne _ _
      have hself : t.key s.allocated = k.1 := by rw [hkey, Function.update_self]
      have hperm : ((as ++ s.allocated :: bs).map t.key).Perm ((as ++ bs).map s.key ++ [k.1]) := by
        refine (List.perm_middle.map t.key).trans ?_
        rw [List.map_cons, hself, List.map_congr_left hold]
        exact (List.perm_append_singleton _ _).symm
      obtain ⟨u, order', hall, hu, hp⟩ := ih ht (by
        have hm := (hperm.map rank).append_right (ks.map fun k => rank k.1)
        rw [List.map_map] at hm
        refine hm.nodup_iff.mpr ?_
        rw [List.map_append, List.map_map, List.append_assoc]
        exact hd)
      refine ⟨u, order', ?_, hu, ?_⟩
      · rw [insertAll, List.foldlM_cons, hins]
        exact hall
      · rw [List.map_cons, List.append_cons]
        exact hp.trans (hperm.append_right _)

/-- Keys go in in any order and with any heights: the lowest level leads through them in
ascending order, and `Contains` finds them and no other. -/
theorem insertAll_sorts [Inhabited Key] (hc : Ranks compare_ rank) (ks : List (Key × (ℕ → ℕ)))
    (hd : (ks.map fun k => rank k.1).Nodup) :
    ∃ t order, (new : SkipList Key).insertAll compare_ ks = some t ∧
      Path (fun x => t.next x 0) 0 order ∧ (order.map t.key).Perm (ks.map Prod.fst) ∧
      (order.Pairwise fun x y => rank (t.key x) < rank (t.key y)) ∧
      ∀ key, t.contains compare_ key = some (decide (∃ k ∈ ks, rank k.1 = rank key)) := by
  obtain ⟨t, order, hall, h, hp⟩ := insertAll_inv hc ks (new_inv rank) hd
  rw [List.map_nil, List.nil_append] at hp
  refine ⟨t, order, hall, ?_, hp, h.sorted, fun key => ?_⟩
  · have hpath := h.path 0 (by decide)
    rw [List.filter_eq_self.mpr fun x hx => decide_eq_true (h.heights x hx).1] at hpath
    exact hpath
  · rw [contains_spec hc h key]
    refine congrArg some (decide_eq_decide.mpr ?_)
    constructor
    · rintro ⟨x, hx, hk⟩
      obtain ⟨k, hk', he⟩ := List.mem_map.mp (hp.mem_iff.mp (List.mem_map_of_mem hx))
      exact ⟨k, hk', he ▸ hk⟩
    · rintro ⟨k, hk, he⟩
      obtain ⟨x, hx, hxk⟩ := List.mem_map.mp (hp.mem_iff.mpr (List.mem_map_of_mem hk))
      exact ⟨x, hx, hxk.symm ▸ he⟩

/-- A comparison of numbers. -/
def natCompare (a b : ℕ) : ℤ := (a : ℤ) - (b : ℤ)

theorem natRanks : Ranks natCompare (id : ℕ → ℕ) where
  lt_iff a b := by
    rw [natCompare, id, id]
    omega
  eq_iff a b := by
    rw [natCompare, id, id]
    omega

theorem threeKeys_sorts : ∃ t order,
    (new : SkipList ℕ).insertAll natCompare [(5, id), (1, id), (3, id)] = some t ∧
      Path (fun x => t.next x 0) 0 order ∧ (order.map t.key).Perm [5, 1, 3] ∧
      (order.Pairwise fun x y => id (t.key x) < id (t.key y)) ∧
      ∀ key, t.contains natCompare key
        = some (decide (∃ k ∈ [((5 : ℕ), (id : ℕ → ℕ)), (1, id), (3, id)], id k.1 = id key)) :=
  insertAll_sorts natRanks [(5, id), (1, id), (3, id)] (by decide)

end SkipList

end LevelDb

end Tablefs
