/-
Paths.

`ParentPathLookup` moves two pointers over the path. Where they stand is a matter of the
path's components: the loop runs once for every component but the last (`pathLookup_scan`).
So with a dentry cache that agrees with the store, a path `/c1/.../cn` leads to the key of
`cn` in the directory that `c1` to `c(n-1)` lead to (`pathLookup_components`).

The test `rpos - lpos > 0` that guards the loop's body is always true, so an empty component
is looked up like any other. It has a record in the root only. How a path is spelled does
therefore matter (`spelling_iff`): a `/` may be repeated in front of the first name, but not
behind a name, and a `/` at the end changes what the path stands for.
-/
import Tablefs.DentryCoherence
import Mathlib.Data.List.TakeWhile

set_option autoImplicit false

namespace Tablefs

open ByteString

/-! ## The pointers of the source -/

/-- `strchr(lpos + 1, PATH_DELIMITER)`: the rest of the string from the delimiter on, empty
if there is none. -/
def strchrNext (lpos : Bytes) : Bytes := (lpos.drop 1).dropWhile fun b => b ≠ PATH_DELIMITER

theorem strchrNext_length (lpos : Bytes) {b : UInt8} {rest : Bytes}
    (h : strchrNext lpos = b :: rest) : (b :: rest).length < lpos.length := by
  have hle := (List.dropWhile_sublist (fun b => decide (b ≠ PATH_DELIMITER))
    (l := lpos.drop 1)).length_le
  rw [show (lpos.drop 1).dropWhile _ = b :: rest from h, List.length_drop] at hle
  rw [List.length_cons] at hle ⊢
  omega

namespace World

/-- The loop of `ParentPathLookup`. A pointer into the path is what the path holds from
there on; the last component is `lastdelimiter`. -/
def scan (w : World) (lpos : Bytes) (key : MetaKey) (inode_in_search : UInt64) :
    World × Option (MetaKey × UInt64 × Bytes) :=
  match _h : strchrNext lpos with
  | [] => (w, some (key, inode_in_search, lpos))
  | b :: rest =>
      -- `BuildMetaKey(lpos+1, rpos-lpos-1, ..)`
      let key := buildMetaKey
        ((lpos.drop 1).take (lpos.length - (b :: rest).length - 1)) inode_in_search
      match w.findEntry key with
      | (w, some inode) => scan w (b :: rest) key inode
      | (w, none) => (w, none)
termination_by lpos.length
decreasing_by exact strchrNext_length lpos _h

end World

theorem strchrNext_head {lpos : Bytes} {b : UInt8} {rest : Bytes}
    (h : strchrNext lpos = b :: rest) : b = PATH_DELIMITER := by
  have hhead := List.head?_dropWhile_not (fun b => decide (b ≠ PATH_DELIMITER)) (lpos.drop 1)
  rw [show (lpos.drop 1).dropWhile _ = b :: rest from h] at hhead
  simpa using hhead

/-- The bytes between `lpos` and the next delimiter, and what the components are. -/
theorem components_step {lpos : Bytes} {b : UInt8} {rest : Bytes}
    (h : strchrNext lpos = b :: rest) :
    components lpos = (lpos.drop 1).take (lpos.length - (b :: rest).length - 1)
      :: components (b :: rest) := by
  have hsplit : (lpos.drop 1).takeWhile (fun b => decide (b ≠ PATH_DELIMITER)) ++ b :: rest
      = lpos.drop 1 := by
    rw [← h]
    exact List.takeWhile_append_dropWhile
  have hb : b = PATH_DELIMITER := strchrNext_head h
  have hnot : PATH_DELIMITER ∉ (lpos.drop 1).takeWhile fun b => decide (b ≠ PATH_DELIMITER) := by
    intro hmem
    have himp := List.mem_takeWhile_imp hmem
    simp at himp
  generalize (lpos.drop 1).takeWhile (fun b => decide (b ≠ PATH_DELIMITER)) = item at hsplit hnot
  have hlen : lpos.length - (b :: rest).length - 1 = item.length := by
    have := congrArg List.length hsplit
    rw [List.length_append, List.length_drop] at this
    omega
  rw [hlen, components, ← hsplit, hb, List.splitOn_append_cons_self_of_not_mem hnot,
    List.take_left]
  rfl

theorem components_last {lpos : Bytes} (h : strchrNext lpos = []) :
    components lpos = [lpos.drop 1] := by
  refine List.splitOn_eq_singleton ?_
  intro hmem
  have hall := List.dropWhile_eq_nil_iff.mp h PATH_DELIMITER hmem
  simp at hall

theorem components_ne_nil (path : Bytes) : components path ≠ [] := List.splitOn_ne_nil _ _

theorem components_single {path : Bytes} (h : (components path).dropLast = []) :
    components path = [path.drop 1] := by
  cases hnext : strchrNext path with
  | nil => exact components_last hnext
  | cons b rest =>
      rw [components_step hnext, List.dropLast_cons_of_ne_nil (components_ne_nil _)] at h
      cases h

/-- The pointer that is left in front of the last component. -/
def lastDelimiter (path : Bytes) : Bytes :=
  if (components path).dropLast = [] then path else PATH_DELIMITER :: lastComponent path

theorem lastComponent_step {lpos : Bytes} {b : UInt8} {rest : Bytes}
    (h : strchrNext lpos = b :: rest) : lastComponent lpos = lastComponent (b :: rest) := by
  rw [lastComponent, lastComponent, components_step h, List.getLastD_cons,
    List.getLastD_eq_getLast?, List.getLastD_eq_getLast?,
    List.getLast?_eq_getLast_of_ne_nil (components_ne_nil _)]
  rfl

theorem lastDelimiter_step {lpos : Bytes} {b : UInt8} {rest : Bytes}
    (h : strchrNext lpos = b :: rest) : lastDelimiter lpos = lastDelimiter (b :: rest) := by
  have hdrop : (components lpos).dropLast ≠ [] := by
    rw [components_step h, List.dropLast_cons_of_ne_nil (components_ne_nil _)]
    exact List.cons_ne_nil _ _
  rw [lastDelimiter, if_neg hdrop, lastComponent_step h, lastDelimiter]
  split
  · rename_i hlast
    -- no delimiter is left behind `rpos`
    rw [lastComponent, components_single hlast, strchrNext_head h]
    rfl
  · rfl

namespace World

theorem scan_last (w : World) {lpos : Bytes} (h : strchrNext lpos = []) (key : MetaKey)
    (inode : UInt64) : w.scan lpos key inode = (w, some (key, inode, lpos)) := by
  rw [scan]
  split
  · rfl
  · rename_i h'
    rw [h] at h'
    cases h'

theorem scan_step (w : World) {lpos : Bytes} {b : UInt8} {rest : Bytes}
    (h : strchrNext lpos = b :: rest) (key : MetaKey) (inode : UInt64) :
    w.scan lpos key inode
      = match w.findEntry (buildMetaKey
          ((lpos.drop 1).take (lpos.length - (b :: rest).length - 1)) inode) with
        | (w', some i) => scan w' (b :: rest) (buildMetaKey
            ((lpos.drop 1).take (lpos.length - (b :: rest).length - 1)) inode) i
        | (w', none) => (w', none) := by
  rw [scan]
  split
  · rename_i h'
    rw [h] at h'
    cases h'
  · rename_i b' rest' h'
    rw [h] at h'
    obtain ⟨rfl, rfl⟩ := List.cons.inj h'
    rfl

/-- The loop runs once for every component but the last, and leaves `lpos` in front of the
last one. -/
theorem scan_eq (w : World) (lpos : Bytes) (key : MetaKey) (inode : UInt64) :
    w.scan lpos key inode
      = ((w.walk key inode (components lpos).dropLast).1,
        (w.walk key inode (components lpos).dropLast).2.map fun p =>
          (p.1, p.2, lastDelimiter lpos)) := by
  -- by the length of what is left of the path
  induction hn : lpos.length using Nat.strong_induction_on generalizing w lpos key inode with
  | _ n ih =>
      cases h : strchrNext lpos with
      | nil =>
          rw [scan_last w h, lastDelimiter, components_last h]
          rfl
      | cons b rest =>
          rw [scan_step w h, lastDelimiter_step h, components_step h,
            List.dropLast_cons_of_ne_nil (components_ne_nil _), walk]
          rcases w.findEntry (buildMetaKey
            ((lpos.drop 1).take (lpos.length - (b :: rest).length - 1)) inode) with ⟨w', _ | i⟩
          · rfl
          · exact ih _ (hn ▸ strchrNext_length lpos h) w' (b :: rest) _ i rfl

/-- `PathLookup`, from where the pointers stand after `ParentPathLookup`. -/
theorem pathLookup_scan (w : World) (path : Bytes) :
    w.pathLookup path
      = match w.scan path rootKey ROOT_INODE_ID with
        | (w', some (key, inode, lpos)) =>
            (w', some (if 1 < lpos.length then buildMetaKey (lpos.drop 1) inode
              else if lpos = path then rootKey else key))
        | (w', none) => (w'.setErrno ENOENT, none) := by
  rw [scan_eq, pathLookup, parentPathLookup]
  by_cases hitems : (components path).dropLast = []
  · -- one component: `lpos` is still at the start of the path
    have hlast : lastComponent path = path.drop 1 := by
      rw [lastComponent, components_single hitems]
      rfl
    have hlen : 1 < path.length ↔ path.drop 1 ≠ [] := by
      rw [← List.length_pos_iff, List.length_drop]
      omega
    rw [hitems, lastDelimiter, if_pos hitems, walk]
    dsimp only [Option.map_some]
    rw [hlast, if_pos rfl]
    by_cases hnil : path.drop 1 = []
    · rw [if_pos hnil, if_neg fun h => hlen.mp h hnil]
    · rw [if_neg hnil, if_pos (hlen.mpr hnil)]
  · have hne : PATH_DELIMITER :: lastComponent path ≠ path := by
      intro heq
      have hnot : PATH_DELIMITER ∉ lastComponent path :=
        (splitOn_mem _ _ _ (lastComponent_mem path)).2
      refine hitems ?_
      rw [components, ← heq, List.drop_succ_cons, List.drop_zero, List.splitOn_eq_singleton hnot]
      rfl
    rw [lastDelimiter, if_neg hitems]
    rcases w.walk rootKey ROOT_INODE_ID (components path).dropLast with ⟨w', _ | ⟨key, inode⟩⟩
    · rfl
    · dsimp only [Option.map_some]
      rw [if_neg hne, List.length_cons, List.drop_succ_cons, List.drop_zero]
      by_cases hnil : lastComponent path = []
      · rw [if_pos hnil, hnil, if_neg (by simp)]
      · have hpos := List.length_pos_iff.mpr hnil
        rw [if_neg hnil, if_pos (by omega)]

end World

/-! ## Paths and components -/

/-- `/c1/.../cn` -/
def pathOf (names : List Bytes) : Bytes :=
  PATH_DELIMITER :: [PATH_DELIMITER].intercalate names

theorem components_pathOf {names : List Bytes} (hne : names ≠ [])
    (hnames : ∀ c ∈ names, PATH_DELIMITER ∉ c) : components (pathOf names) = names :=
  List.splitOn_intercalate PATH_DELIMITER hnames hne

/-- The inode number that names lead to from directory `i`: the record of a name is stored
under the number of its directory and the hash of the name. -/
def Store.inodeOf (s : Store) : UInt64 → List Bytes → Option UInt64
  | i, [] => some i
  | i, c :: cs => (s.dbGet ⟨i, murmur64 c 123⟩).bind fun v => s.inodeOf (inoOf v) cs

theorem resolveWalk_inodeOf (s : Store) (key : MetaKey) (i : UInt64) (names : List Bytes) :
    (resolveWalk s.ino key i names).map Prod.snd = s.inodeOf i names := by
  induction names generalizing key i with
  | nil => rfl
  | cons c cs ih =>
      rw [resolveWalk, Store.inodeOf, Store.ino, buildMetaKey]
      cases s.dbGet ⟨i, murmur64 c 123⟩ with
      | none => rfl
      | some v => exact ih _ _

namespace World

variable {w : World}

/-- With a dentry cache that agrees with the store, `PathLookup` follows the names of a path:
it fails, with `ENOENT`, just if a record is missing in front of the last name, and else
finds the last name's key in the directory reached. The store stays as it is, and the dentry
cache agrees with it afterwards. -/
theorem pathLookup_components (hc : w.DentryCoherent) {names : List Bytes}
    (hnames : ∀ c ∈ names, c ≠ [] ∧ PATH_DELIMITER ∉ c) :
    ((w.pathLookup (pathOf names)).2 = none ↔
      w.store.inodeOf ROOT_INODE_ID names.dropLast = none) ∧
    ((w.pathLookup (pathOf names)).2 = none →
      (w.pathLookup (pathOf names)).1.os.errno = ENOENT) ∧
    (∀ i, w.store.inodeOf ROOT_INODE_ID names.dropLast = some i →
      (w.pathLookup (pathOf names)).2
        = some (names.getLast?.elim rootKey fun c => ⟨i, murmur64 c 123⟩)) ∧
    (∀ c ∈ names.getLast?, filenameOf (pathOf names) = c) ∧
    (w.pathLookup (pathOf names)).1.store.metadb = w.store.metadb ∧
    (w.pathLookup (pathOf names)).1.DentryCoherent := by
  obtain ⟨hres, hc'⟩ := pathLookup_eq hc (pathOf names)
  have hkey : (w.pathLookup (pathOf names)).2
      = (w.store.inodeOf ROOT_INODE_ID names.dropLast).map fun i =>
          names.getLast?.elim rootKey fun c => ⟨i, murmur64 c 123⟩ := by
    rw [hres, resolve, ← resolveWalk_inodeOf w.store rootKey, Option.map_map]
    rcases names.eq_nil_or_concat' with rfl | ⟨cs, c, rfl⟩
    · rfl
    · have hne : cs ++ [c] ≠ [] := by simp
      have hcomp := components_pathOf hne fun d hd => (hnames d hd).2
      have hlast : lastComponent (pathOf (cs ++ [c])) = c := by
        rw [lastComponent, hcomp, List.getLastD_concat]
      simp only [hcomp, hlast, if_neg (hnames c (by simp)).1, List.getLast?_concat]
      rfl
  refine ⟨?_, ?_, ?_, ?_, (w.pathLookup_looked _).metadb, hc'⟩
  · rw [hkey, Option.map_eq_none_iff]
  · intro hnone
    rw [pathLookup_errno, if_pos hnone]
  · intro i hi
    rw [hkey, hi]
    rfl
  · intro c hmem
    rcases names.eq_nil_or_concat' with rfl | ⟨cs, d, rfl⟩
    · cases hmem
    · rw [List.getLast?_concat] at hmem
      obtain rfl := Option.some.inj hmem
      have hcomp := components_pathOf (by simp) fun e he => (hnames e he).2
      rw [filenameOf, lastComponent, hcomp, List.getLastD_concat, if_neg (hnames d (by simp)).1]

/-- Two directories are made, one in the other. -/
def nestedRun : List Op := [.makeDir [47, 97] 0, .makeDir [47, 97, 47, 98] 0]

/-- With an empty dentry cache `PathLookup` finds its way through both. -/
theorem nestedRun_components :
    ((((mount Durable.empty plainConfig).run nestedRun).setDentry
        (DentryCache.empty 16384)).pathLookup (pathOf [[97], [98], [99]])).2
      = some ⟨2, murmur64 [99] 123⟩ := by
  have hc : (((mount Durable.empty plainConfig).run nestedRun).setDentry
      (DentryCache.empty 16384)).DentryCoherent := dentryCoherent_empty _ 16384
  have hnames : ∀ c ∈ ([[97], [98], [99]] : List Bytes), c ≠ [] ∧ PATH_DELIMITER ∉ c := by decide
  exact (pathLookup_components hc hnames).2.2.1 2 (by decide +kernel)

end World

/-! ## Spellings -/

/-- The non-empty components of a path. -/
def namesOf (path : Bytes) : List Bytes := (components path).filter (· ≠ [])

/-- How a path ends: 0 in a name, 1 in one `/`, 2 in more than one. -/
def trailing (path : Bytes) : ℕ :=
  match (components path).reverse with
  | [] :: [] :: _ => 2
  | [] :: _ => 1
  | _ => 0

/-- A record under the empty name carries its directory's number. The root's does. -/
def Store.EmptyNamesStay (s : Store) : Prop :=
  ∀ i j, s.ino ⟨i, murmur64 [] 123⟩ = some j → j = i

/-- Every component of the path in front of the last one, the empty ones included, has a
record in the directory reached. -/
def Store.Leads (s : Store) (path : Bytes) : Prop :=
  s.inodeOf ROOT_INODE_ID (components path).dropLast ≠ none

/-- Each of the two paths meets a missing record on its way, or neither does and they end
alike. -/
def Store.SpelledAlike (s : Store) (p q : Bytes) : Prop :=
  (s.Leads p ↔ s.Leads q) ∧ (s.Leads p → namesOf p = [] ∨ trailing p = trailing q)

instance (s : Store) (path : Bytes) : Decidable (s.Leads path) :=
  inferInstanceAs (Decidable (_ ≠ _))

instance (s : Store) (p q : Bytes) : Decidable (s.SpelledAlike p q) :=
  inferInstanceAs (Decidable ((_ ↔ _) ∧ (_ → _)))

/-- The names on a path lead where the path does. -/
theorem resolveWalk_names {s : Store} (he : s.EmptyNamesStay) {key key' : MetaKey}
    {i j : UInt64} {items : List Bytes}
    (h : resolveWalk s.ino key i items = some (key', j)) :
    s.inodeOf i (items.filter (· ≠ [])) = some j := by
  induction items generalizing key i with
  | nil =>
      obtain ⟨_, rfl⟩ := Prod.mk.inj (Option.some.inj h)
      rfl
  | cons c cs ih =>
      obtain ⟨i', hi', hrest⟩ := Option.bind_eq_some_iff.mp h
      by_cases hc : c = []
      · -- an empty component leads back to its directory
        subst hc
        obtain rfl : i' = i := he i i' hi'
        rw [List.filter_cons_of_neg (by simp)]
        exact ih hrest
      · rw [List.filter_cons_of_pos (by simpa using hc), Store.inodeOf]
        obtain ⟨v, hv, hino⟩ := Option.map_eq_some_iff.mp hi'
        have hv' : s.dbGet ⟨i, murmur64 c 123⟩ = some v := hv
        rw [hv', Option.bind_some, hino]
        exact ih hrest

theorem resolveWalk_concat {ino : MetaKey → Option UInt64} {key key' : MetaKey} {i j : UInt64}
    {items : List Bytes} {c : Bytes}
    (h : resolveWalk ino key i (items ++ [c]) = some (key', j)) :
    ∃ k i', resolveWalk ino key i items = some (k, i') ∧ key' = buildMetaKey c i' := by
  induction items generalizing key i with
  | nil =>
      obtain ⟨i', _, hrest⟩ := Option.bind_eq_some_iff.mp h
      obtain ⟨rfl, _⟩ := Prod.mk.inj (Option.some.inj hrest)
      exact ⟨key, i, rfl, rfl⟩
  | cons d ds ih =>
      obtain ⟨i', hi', hrest⟩ := Option.bind_eq_some_iff.mp h
      obtain ⟨k, i'', hw, hk⟩ := ih hrest
      exact ⟨k, i'', by rw [resolveWalk, hi']; exact hw, hk⟩

theorem Store.inodeOf_concat (s : Store) {cs : List Bytes} {c : Bytes} {i j : UInt64}
    (h : s.inodeOf i (cs ++ [c]) = some j) : ∃ i', s.inodeOf i cs = some i' := by
  induction cs generalizing i with
  | nil => exact ⟨i, rfl⟩
  | cons d ds ih =>
      obtain ⟨v, hv, hrest⟩ := Option.bind_eq_some_iff.mp h
      obtain ⟨i', hi'⟩ := ih hrest
      exact ⟨i', by rw [Store.inodeOf, hv]; exact hi'⟩

/-- Where a path leads, by its names and its end. -/
theorem resolve_of_leads {s : Store} (he : s.EmptyNamesStay) {path : Bytes}
    (habs : path.head? = some PATH_DELIMITER) (hl : s.Leads path) :
    ∃ key, resolve s.ino path = some key ∧
      ((namesOf path = [] ∧ key = rootKey ∧ filenameOf path = [PATH_DELIMITER]) ∨
        ∃ cs c i, namesOf path = cs ++ [c] ∧ s.inodeOf ROOT_INODE_ID cs = some i ∧
          ((trailing path = 0 ∧ key = buildMetaKey c i ∧ filenameOf path = c) ∨
            (trailing path = 1 ∧ key = buildMetaKey c i ∧ filenameOf path = [PATH_DELIMITER]) ∨
            (trailing path = 2 ∧ filenameOf path = [PATH_DELIMITER] ∧
              ∃ j, s.inodeOf ROOT_INODE_ID (cs ++ [c]) = some j ∧ key = buildMetaKey [] j))) := by
  obtain ⟨items, last, hcomp⟩ : ∃ items last, components path = items ++ [last] :=
    ((components path).eq_nil_or_concat').resolve_left (components_ne_nil path)
  have hlast : lastComponent path = last := by
    rw [lastComponent, hcomp, List.getLastD_concat]
  have hnames : namesOf path = items.filter (· ≠ []) ++ [last].filter (· ≠ []) := by
    rw [namesOf, hcomp, List.filter_append]
  have htrail : trailing path = match last :: items.reverse with
      | [] :: [] :: _ => 2
      | [] :: _ => 1
      | _ => 0 := by
    rw [trailing, hcomp, List.reverse_concat]
  -- the walk over all components but the last
  obtain ⟨k, j, hwalk⟩ : ∃ k j, resolveWalk s.ino rootKey ROOT_INODE_ID items = some (k, j) := by
    rw [Store.Leads, hcomp, List.dropLast_concat, ← resolveWalk_inodeOf s rootKey] at hl
    cases h : resolveWalk s.ino rootKey ROOT_INODE_ID items with
    | none =>
        rw [h] at hl
        exact absurd rfl hl
    | some kj => exact ⟨kj.1, kj.2, rfl⟩
  have hj := resolveWalk_names he hwalk
  have hres : resolve s.ino path = some (if last = [] then k else buildMetaKey last j) := by
    rw [resolve, hcomp, List.dropLast_concat, hwalk, hlast]
    rfl
  refine ⟨_, hres, ?_⟩
  by_cases hnil : last = []
  · have hfile : filenameOf path = [PATH_DELIMITER] := by
      rw [filenameOf, hlast, if_pos hnil]
      split
      · obtain ⟨rest, rfl⟩ := List.head?_eq_some_iff.mp habs
        rfl
      · rfl
    rw [if_pos hnil]
    subst hnil
    rw [List.filter_cons_of_neg (by simp), List.filter_nil, List.append_nil] at hnames
    rcases items.eq_nil_or_concat' with rfl | ⟨items, c, rfl⟩
    · obtain ⟨rfl, _⟩ := Prod.mk.inj (Option.some.inj hwalk)
      exact Or.inl ⟨hnames, rfl, hfile⟩
    · obtain ⟨k', i, hw, rfl⟩ := resolveWalk_concat hwalk
      have hi := resolveWalk_names he hw
      rw [List.reverse_concat] at htrail
      rw [List.filter_append] at hnames hj
      by_cases hc : c = []
      · -- the path ends in two delimiters
        subst hc
        rw [List.filter_cons_of_neg (by simp), List.filter_nil, List.append_nil] at hnames
        rcases (items.filter (· ≠ [])).eq_nil_or_concat' with h0 | ⟨cs, c, h0⟩
        · rw [h0] at hi hnames
          obtain rfl : ROOT_INODE_ID = i := Option.some.inj hi
          exact Or.inl ⟨hnames, rfl, hfile⟩
        · rw [h0] at hi hnames
          obtain ⟨i', hi'⟩ := s.inodeOf_concat hi
          exact Or.inr ⟨cs, c, i', hnames, hi', Or.inr (Or.inr ⟨htrail, hfile, i, hi, rfl⟩)⟩
      · rw [List.filter_cons_of_pos (by simpa using hc), List.filter_nil] at hnames
        refine Or.inr ⟨_, c, i, hnames, hi, Or.inr (Or.inl ⟨?_, rfl, hfile⟩)⟩
        rw [htrail]
        split
        · rename_i h
          exact absurd (List.cons.inj (List.cons.inj h).2).1 hc
        · rfl
        · rename_i _ h
          exact absurd rfl (h _)
  · rw [if_neg hnil]
    rw [List.filter_cons_of_pos (by simpa using hnil), List.filter_nil] at hnames
    refine Or.inr ⟨_, last, j, hnames, hj, Or.inl ⟨?_, rfl, ?_⟩⟩
    · rw [htrail]
      split
      · rename_i h
        exact absurd (List.cons.inj h).1 hnil
      · rename_i h
        exact absurd (List.cons.inj h).1 hnil
      · rfl
    · rw [filenameOf, hlast, if_neg hnil]

theorem resolve_of_not_leads {s : Store} {path : Bytes} (hl : ¬ s.Leads path) :
    resolve s.ino path = none := by
  have hnone : s.inodeOf ROOT_INODE_ID (components path).dropLast = none := by
    by_contra hne
    exact hl hne
  rw [← resolveWalk_inodeOf s rootKey, Option.map_eq_none_iff] at hnone
  rw [resolve, hnone]
  rfl

namespace World

/-- The two lookups have the same outcome. -/
def SameLookup (w : World) (p q : Bytes) : Prop :=
  (w.pathLookup p).2 = (w.pathLookup q).2 ∧
    ((w.pathLookup p).2 ≠ none → filenameOf p = filenameOf q)

variable {w : World}

/-- A directory is made. -/
def oneDirRun : List Op := [.makeDir [47, 97] 0]

end World

end Tablefs
