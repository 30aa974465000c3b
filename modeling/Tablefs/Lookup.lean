/-
Path lookup: `ParentPathLookup` and the two `PathLookup`s of `tablefs.cpp`.

A path is cut at every `/` after its first byte; every component but the last is
looked up in the directory found so far, in the dentry cache first and in the
metadata store if that misses. `resolve` is the same walk over a plain map from
keys to inode numbers: with a dentry cache that agrees with the store the code
computes it (`pathLookup_eq`).
-/
import Tablefs.InodeCache
import Mathlib.Data.List.Infix

set_option autoImplicit false

namespace Tablefs

open ByteString

/-! ## The code -/

/-- `PATH_DELIMITER` -/
def PATH_DELIMITER : UInt8 := 47

/-- The components of a path; its first byte is not looked at. -/
def components (path : Bytes) : List Bytes := (path.drop 1).splitOn PATH_DELIMITER

/-- What follows the last delimiter of a path. -/
def lastComponent (path : Bytes) : Bytes := (components path).getLastD []

/-- The `filename` of the three-argument `PathLookup`: without a last component
it is the one byte at `lastdelimiter`. -/
def filenameOf (path : Bytes) : Bytes :=
  if lastComponent path = [] then
    if (components path).dropLast = [] then path.take 1 else [PATH_DELIMITER]
  else lastComponent path

/-! ### Components -/

/-- The pieces of a list cut at `a` are parts of it without `a`. -/
theorem splitOn_mem {α : Type*} [BEq α] [LawfulBEq α] (a : α) (xs c : List α)
    (hc : c ∈ xs.splitOn a) : c.Sublist xs ∧ a ∉ c := by
  induction xs generalizing c with
  | nil =>
      rw [List.splitOn_nil, List.mem_singleton] at hc
      subst hc
      exact ⟨List.Sublist.refl _, List.not_mem_nil⟩
  | cons x xs ih =>
      rw [List.splitOn_cons_eq_if_modifyHead] at hc
      split at hc
      · rcases List.mem_cons.mp hc with rfl | hc
        · exact ⟨List.nil_sublist _, List.not_mem_nil⟩
        · exact ⟨(ih c hc).1.cons x, (ih c hc).2⟩
      · rename_i hx
        obtain ⟨d, ds, hd⟩ := List.exists_cons_of_ne_nil (List.splitOn_ne_nil a xs)
        rw [hd, List.modifyHead_cons] at hc
        have hmem : ∀ e, e ∈ d :: ds → e ∈ xs.splitOn a := fun e he => hd ▸ he
        rcases List.mem_cons.mp hc with rfl | hc
        · obtain ⟨hs, hn⟩ := ih d (hmem d List.mem_cons_self)
          refine ⟨hs.cons_cons x, fun h => ?_⟩
          rcases List.mem_cons.mp h with h | h
          · exact hx (h ▸ beq_self_eq_true _)
          · exact hn h
        · obtain ⟨hs, hn⟩ := ih c (hmem c (List.mem_cons_of_mem _ hc))
          exact ⟨hs.cons x, hn⟩

theorem lastComponent_mem (path : Bytes) : lastComponent path ∈ components path := by
  have hne : components path ≠ [] := List.splitOn_ne_nil _ _
  rw [lastComponent, List.getLastD_eq_getLast?, List.getLast?_eq_getLast_of_ne_nil hne]
  exact List.getLast_mem hne

/-- A path as the callers pass it: not longer than an `int` counts, no NUL in it,
something behind the last delimiter. -/
structure GoodPath (path : Bytes) : Prop where
  short : path.length < 2 ^ 31
  noNul : 0 ∉ path
  last : lastComponent path ≠ []

instance (path : Bytes) : Decidable (GoodPath path) :=
  decidable_of_iff (path.length < 2 ^ 31 ∧ 0 ∉ path ∧ lastComponent path ≠ [])
    ⟨fun h => ⟨h.1, h.2.1, h.2.2⟩, fun h => ⟨h.short, h.noNul, h.last⟩⟩

/-- What can be the name of a record. -/
structure GoodName (name : Bytes) : Prop where
  short : name.length < 2 ^ 31
  noNul : 0 ∉ name
  noDelim : PATH_DELIMITER ∉ name

theorem GoodPath.filename {path : Bytes} (h : GoodPath path) :
    filenameOf path = lastComponent path := if_neg h.last

theorem GoodPath.goodName {path : Bytes} (h : GoodPath path) : GoodName (lastComponent path) := by
  obtain ⟨hs, hd⟩ := splitOn_mem _ _ _ (lastComponent_mem path)
  have hs' : (lastComponent path).Sublist path := hs.trans (List.drop_sublist 1 path)
  have := hs'.length_le
  have := h.short
  exact ⟨by omega, fun h0 => h.noNul (hs'.subset h0), hd⟩

namespace World

/-- `FSError`: the error number, negated. -/
def fsError (w : World) : ℤ := -w.os.errno

/-- The body of `ParentPathLookup`'s loop, for the component under `key`. -/
def findEntry (w : World) (key : MetaKey) : World × Option UInt64 :=
  let r := w.dentry_cache.find key
  let w := w.setDentry r.1
  match r.2 with
  | some inode => (w, some inode)
  | none =>
      let w := w.readLock key
      match w.store.dbGet key with
      | some result =>
          let inode := (getAttribute result).st_ino
          let w := w.setDentry (w.dentry_cache.insert key inode)
          (w.unlock key, some inode)
      | none => ((w.setErrno ENOENT).unlock key, none)

/-- The loop of `ParentPathLookup`. -/
def walk (w : World) (key : MetaKey) (inode_in_search : UInt64) :
    List Bytes → World × Option (MetaKey × UInt64)
  | [] => (w, some (key, inode_in_search))
  | item :: items =>
      let key := buildMetaKey item inode_in_search
      match w.findEntry key with
      | (w, some inode) => walk w key inode items
      | (w, none) => (w, none)

/-- `ParentPathLookup`: the key and the inode number it leaves behind. -/
def parentPathLookup (w : World) (path : Bytes) : World × Option (MetaKey × UInt64) :=
  w.walk rootKey ROOT_INODE_ID (components path).dropLast

/-- `PathLookup`. The three-argument version also sets `filename` to
`filenameOf path`. -/
def pathLookup (w : World) (path : Bytes) : World × Option MetaKey :=
  match w.parentPathLookup path with
  | (w, some (key, inode_in_search)) =>
      (w, some (if lastComponent path = [] then key
        else buildMetaKey (lastComponent path) inode_in_search))
  | (w, none) => (w.setErrno ENOENT, none)

theorem pathLookup_key {w : World} {path : Bytes} {key : MetaKey} (hp : lastComponent path ≠ [])
    (hk : (w.pathLookup path).2 = some key) :
    key = buildMetaKey (lastComponent path) key.inode_id := by
  rw [pathLookup] at hk
  generalize w.parentPathLookup path = r at hk
  obtain ⟨w', _ | ⟨k, i⟩⟩ := r
  · cases hk
  · dsimp only at hk
    rw [if_neg hp] at hk
    obtain rfl := Option.some.inj hk
    rfl

end World

/-! ## The walk over a map -/

/-- The walk of `ParentPathLookup` over a map from keys to inode numbers. -/
def resolveWalk (ino : MetaKey → Option UInt64) (key : MetaKey) (inode : UInt64) :
    List Bytes → Option (MetaKey × UInt64)
  | [] => some (key, inode)
  | item :: items =>
      (ino (buildMetaKey item inode)).bind fun i =>
        resolveWalk ino (buildMetaKey item inode) i items

/-- The key a path leads to. -/
def resolve (ino : MetaKey → Option UInt64) (path : Bytes) : Option MetaKey :=
  (resolveWalk ino rootKey ROOT_INODE_ID (components path).dropLast).map fun p =>
    if lastComponent path = [] then p.1 else buildMetaKey (lastComponent path) p.2

/-- The inode number a value carries. -/
def inoOf (value : Bytes) : UInt64 := (getAttribute value).st_ino

/-- The inode numbers in the metadata store, by key. -/
def Store.ino (s : Store) (k : MetaKey) : Option UInt64 := (s.dbGet k).map inoOf

/-- Every answer of the dentry cache is the inode number the store has. -/
def World.DentryCoherent (w : World) : Prop :=
  ∀ k i, w.dentry_cache.peek k = some i → w.store.ino k = some i

/-! ## What a lookup does to the state -/

/-- Taking and releasing locks. -/
def Event.IsLock : Event → Prop
  | .readLock _ | .writeLock _ | .unlock _ => True
  | _ => False

instance : DecidablePred Event.IsLock := fun e => by
  cases e <;> simp only [Event.IsLock] <;> infer_instance

theorem dbEvents_of_isLock {evs : List Event} (h : ∀ ev ∈ evs, ev.IsLock) : dbEvents evs = [] := by
  refine List.filterMap_eq_nil_iff.mpr fun ev hev => ?_
  have := h ev hev
  cases ev with
  | db e => exact absurd this id
  | _ => rfl

/-- `w'` is `w` up to `errno`, the order and fill of the dentry cache, and locks
taken and released. -/
def World.Looked (w w' : World) : Prop :=
  ∃ (evs : List Event) (e : ℕ) (d : DentryCache), (∀ ev ∈ evs, ev.IsLock) ∧
    w' = { w with
      store := { w.store with log := w.store.log ++ evs }
      os := { w.os with errno := e }
      dentry_cache := d }

namespace World

theorem Looked.refl (w : World) : w.Looked w :=
  ⟨[], w.os.errno, w.dentry_cache, fun _ h => absurd h List.not_mem_nil, by rw [List.append_nil]⟩

theorem Looked.trans {w w' w'' : World} (h : w.Looked w') (h' : w'.Looked w'') :
    w.Looked w'' := by
  obtain ⟨evs, e, d, hevs, rfl⟩ := h
  obtain ⟨evs', e', d', hevs', rfl⟩ := h'
  refine ⟨evs ++ evs', e', d', fun ev hev => ?_, ?_⟩
  · exact (List.mem_append.mp hev).elim (hevs ev) (hevs' ev)
  · simp only [List.append_assoc]

theorem looked_setDentry (w : World) (d : DentryCache) : w.Looked (w.setDentry d) :=
  ⟨[], w.os.errno, d, fun _ h => absurd h List.not_mem_nil, by rw [List.append_nil]; rfl⟩

theorem looked_note (w : World) (ev : Event) (h : ev.IsLock) : w.Looked (w.note ev) :=
  ⟨[ev], w.os.errno, w.dentry_cache, fun _ h' => List.mem_singleton.mp h' ▸ h, rfl⟩

theorem looked_readLock (w : World) (k : MetaKey) : w.Looked (w.readLock k) :=
  looked_note w _ trivial

theorem looked_writeLock (w : World) (k : MetaKey) : w.Looked (w.writeLock k) :=
  looked_note w _ trivial

theorem looked_unlock (w : World) (k : MetaKey) : w.Looked (w.unlock k) :=
  looked_note w _ trivial

theorem looked_setErrno (w : World) (e : ℕ) : w.Looked (w.setErrno e) :=
  ⟨[], e, w.dentry_cache, fun _ h => absurd h List.not_mem_nil, by rw [List.append_nil]; rfl⟩

theorem findEntry_looked (w : World) (key : MetaKey) : w.Looked (w.findEntry key).1 := by
  have hd := w.looked_setDentry (w.dentry_cache.find key).1
  unfold findEntry
  dsimp only
  split
  · exact hd
  · have hr := hd.trans (looked_readLock _ key)
    split
    · exact (hr.trans (looked_setDentry _ _)).trans (looked_unlock _ key)
    · exact (hr.trans (looked_setErrno _ ENOENT)).trans (looked_unlock _ key)

theorem walk_looked (items : List Bytes) (w : World) (key : MetaKey) (inode : UInt64) :
    w.Looked (w.walk key inode items).1 := by
  induction items generalizing w key inode with
  | nil => exact Looked.refl w
  | cons item items ih =>
      have hf := w.findEntry_looked (buildMetaKey item inode)
      rw [walk]
      generalize w.findEntry (buildMetaKey item inode) = r at hf
      obtain ⟨w', o⟩ := r
      cases o with
      | none => exact hf
      | some i => exact hf.trans (ih w' _ i)

theorem pathLookup_looked (w : World) (path : Bytes) : w.Looked (w.pathLookup path).1 := by
  have hw := w.walk_looked (components path).dropLast rootKey ROOT_INODE_ID
  rw [pathLookup, parentPathLookup]
  generalize w.walk rootKey ROOT_INODE_ID (components path).dropLast = r at hw
  obtain ⟨w', o⟩ := r
  cases o with
  | none => exact hw.trans (looked_setErrno w' ENOENT)
  | some p => exact hw

/-- A component that is found leaves `errno` alone. -/
theorem findEntry_errno (w : World) (key : MetaKey) (h : (w.findEntry key).2 ≠ none) :
    (w.findEntry key).1.os.errno = w.os.errno := by
  unfold findEntry at h ⊢
  dsimp only at h ⊢
  split
  · rfl
  · split
    · rfl
    · rename_i hf _ hg
      rw [hf] at h
      dsimp only at h
      rw [hg] at h
      exact absurd rfl h

theorem walk_errno (items : List Bytes) (w : World) (key : MetaKey) (inode : UInt64)
    (h : (w.walk key inode items).2 ≠ none) :
    (w.walk key inode items).1.os.errno = w.os.errno := by
  induction items generalizing w key inode with
  | nil => rfl
  | cons item items ih =>
      have hf := findEntry_errno w (buildMetaKey item inode)
      rw [walk] at h ⊢
      generalize w.findEntry (buildMetaKey item inode) = r at h hf
      obtain ⟨w', _ | i⟩ := r
      · exact absurd rfl h
      · exact (ih _ _ _ h).trans (hf (by simp))

/-- A lookup that succeeds leaves `errno` alone; one that fails sets it. -/
theorem pathLookup_errno (w : World) (path : Bytes) :
    (w.pathLookup path).1.os.errno
      = if (w.pathLookup path).2 = none then ENOENT else w.os.errno := by
  have hw := walk_errno (components path).dropLast w rootKey ROOT_INODE_ID
  rw [pathLookup, parentPathLookup]
  generalize w.walk rootKey ROOT_INODE_ID (components path).dropLast = r at hw
  obtain ⟨w', _ | p⟩ := r
  · rfl
  · exact hw (by simp)

/-! ### The parts a lookup leaves alone -/

section

variable {w w' : World} (h : w.Looked w')
include h

theorem Looked.metadb : w'.store.metadb = w.store.metadb := by
  obtain ⟨_, _, _, _, rfl⟩ := h; rfl
theorem Looked.cache : w'.store.cache = w.store.cache := by
  obtain ⟨_, _, _, _, rfl⟩ := h; rfl
theorem Looked.dbEvents : dbEvents w'.store.log = dbEvents w.store.log := by
  obtain ⟨_, _, _, hevs, rfl⟩ := h
  dsimp only
  rw [dbEvents_append, dbEvents_of_isLock hevs, List.append_nil]
theorem Looked.dbFaults : w'.store.dbFaults = w.store.dbFaults := by
  obtain ⟨_, _, _, _, rfl⟩ := h; rfl
theorem Looked.files : w'.files = w.files := by obtain ⟨_, _, _, _, rfl⟩ := h; rfl
theorem Looked.nextFile : w'.nextFile = w.nextFile := by obtain ⟨_, _, _, _, rfl⟩ := h; rfl
theorem Looked.dirs : w'.dirs = w.dirs := by obtain ⟨_, _, _, _, rfl⟩ := h; rfl
theorem Looked.max_inode_num : w'.max_inode_num = w.max_inode_num := by
  obtain ⟨_, _, _, _, rfl⟩ := h; rfl
theorem Looked.threshold_ : w'.threshold_ = w.threshold_ := by
  obtain ⟨_, _, _, _, rfl⟩ := h; rfl
theorem Looked.flag_fuse_enabled : w'.flag_fuse_enabled = w.flag_fuse_enabled := by
  obtain ⟨_, _, _, _, rfl⟩ := h; rfl
theorem Looked.env : w'.env = w.env := by obtain ⟨_, _, _, _, rfl⟩ := h; rfl
theorem Looked.disk : w'.os.disk = w.os.disk := by obtain ⟨_, _, _, _, rfl⟩ := h; rfl
theorem Looked.fds : w'.os.fds = w.os.fds := by obtain ⟨_, _, _, _, rfl⟩ := h; rfl
theorem Looked.ioFaults : w'.os.ioFaults = w.os.ioFaults := by
  obtain ⟨_, _, _, _, rfl⟩ := h; rfl
theorem Looked.shortIo : w'.os.shortIo = w.os.shortIo := by
  obtain ⟨_, _, _, _, rfl⟩ := h; rfl
theorem Looked.lookup : w'.store.lookup = w.store.lookup := by
  obtain ⟨_, _, _, _, rfl⟩ := h; rfl
theorem Looked.ino : w'.store.ino = w.store.ino := by obtain ⟨_, _, _, _, rfl⟩ := h; rfl

end

/-! ## With a coherent dentry cache the code resolves against the store -/

/-- One component: the answer is the store's, and the cache stays coherent. -/
theorem findEntry_coherent {w : World} (hc : w.DentryCoherent) (key : MetaKey) :
    (w.findEntry key).2 = w.store.ino key ∧ (w.findEntry key).1.DentryCoherent := by
  unfold findEntry
  dsimp only
  rw [DentryCache.find_snd]
  have hbump : ∀ k i, (w.dentry_cache.find key).1.peek k = some i → w.store.ino k = some i := by
    intro k i hk
    rw [DentryCache.peek_find] at hk
    exact hc k i hk
  cases hp : w.dentry_cache.peek key with
  | some i => exact ⟨(hc key i hp).symm, hbump⟩
  | none =>
      dsimp only
      split
      · rename_i result hdb
        have hino : w.store.ino key = some (inoOf result) := by
          rw [Store.ino, show w.store.dbGet key = some result from hdb]; rfl
        refine ⟨hino.symm, fun k i hk => ?_⟩
        rcases DentryCache.peek_of_peek_insert hk with ⟨rfl, rfl⟩ | ⟨_, hk⟩
        · exact hino
        · exact hbump k i hk
      · rename_i hdb
        exact ⟨by rw [Store.ino, show w.store.dbGet key = none from hdb]; rfl, hbump⟩

theorem walk_coherent (items : List Bytes) {w : World} (hc : w.DentryCoherent) (key : MetaKey)
    (inode : UInt64) :
    (w.walk key inode items).2 = resolveWalk w.store.ino key inode items ∧
      (w.walk key inode items).1.DentryCoherent := by
  induction items generalizing w key inode with
  | nil => exact ⟨rfl, hc⟩
  | cons item items ih =>
      obtain ⟨hres, hc'⟩ := findEntry_coherent hc (buildMetaKey item inode)
      have hino := (w.findEntry_looked (buildMetaKey item inode)).ino
      rw [walk, resolveWalk, ← hres]
      generalize w.findEntry (buildMetaKey item inode) = r at hres hc' hino
      obtain ⟨w', o⟩ := r
      cases o with
      | none => exact ⟨rfl, hc'⟩
      | some i => rw [← hino]; exact ih hc' _ i

/-- With a coherent dentry cache `PathLookup` resolves the path against the
store, and leaves the cache coherent. -/
theorem pathLookup_eq {w : World} (hc : w.DentryCoherent) (path : Bytes) :
    (w.pathLookup path).2 = resolve w.store.ino path ∧ (w.pathLookup path).1.DentryCoherent := by
  obtain ⟨hres, hc'⟩ :=
    walk_coherent (components path).dropLast hc rootKey ROOT_INODE_ID
  rw [pathLookup, parentPathLookup, resolve, ← hres]
  generalize w.walk rootKey ROOT_INODE_ID (components path).dropLast = r at hc'
  obtain ⟨w', o⟩ := r
  cases o with
  | none => exact ⟨rfl, hc'⟩
  | some p => exact ⟨rfl, hc'⟩

end World

end Tablefs
