/-
Records and the disk files they point to, at every durable effect.

A crash keeps the durable effects of a mount up to some point of its log. What is left is
sound (`Durable.Sound`) if every stored record has its data where it says: inline, or in a
disk file that is there. `Backed` says it of all points of the log so far, and of the
handles that wait to be stored. This module says which parts of an operation keep it:
whatever adds to the data directory, every operation of the inode cache, and `unlink` of a
file that no record points to.
-/
import Tablefs.FileData
import Tablefs.Reachable

set_option autoImplicit false

namespace Tablefs

open ByteString

/-! ## Records -/

namespace InodeRecord

/-- `S_ISREG` of the record's mode. -/
def Regular (r : InodeRecord) : Prop := isReg r.header.fstat.st_mode = true

/-- The data of a regular file is in the disk file under `p`. -/
def PointsTo (r : InodeRecord) (p : BlobPath) : Prop :=
  r.Regular ∧ r.header.has_blob = 1 ∧ r.path = p

/-- The disk file that the record points to is there. -/
def HasFile (d : Disk) (r : InodeRecord) : Prop := ∀ p, r.PointsTo p → d.names p ≠ none

/-- Size and blob flag go together, and for a regular file the inline data with them. -/
inductive Sized (T : ℤ) (r : InodeRecord) : Prop
  | small (hsize : (r.size : ℤ) ≤ T) (hlt : r.size < 2 ^ 63) (hblob : r.header.has_blob = 0)
      (hinline : r.Regular → r.inline.length = r.size)
  | large (hsize : T < r.size) (hlt : r.size < 2 ^ 63) (hblob : r.header.has_blob = 1)
      (hinline : r.Regular → r.inline = [])

variable {T : ℤ} {d d' : Disk} {r r' : InodeRecord}

/-- What is said of a record is about its size, blob flag, type and inline data. -/
theorem Sized.congr (h : r.Sized T) (hsize : r'.size = r.size)
    (hblob : r'.header.has_blob = r.header.has_blob) (hreg : r'.Regular ↔ r.Regular)
    (hinline : r'.inline = r.inline) : r'.Sized T := by
  cases h with
  | small h1 h2 h3 h4 =>
      refine .small ?_ ?_ (hblob.trans h3) fun hr => ?_
      · rwa [hsize]
      · rwa [hsize]
      · rw [hinline, hsize]
        exact h4 (hreg.mp hr)
  | large h1 h2 h3 h4 =>
      refine .large ?_ ?_ (hblob.trans h3) fun hr => ?_
      · rwa [hsize]
      · rwa [hsize]
      · rw [hinline]
        exact h4 (hreg.mp hr)

theorem Sized.lt (h : r.Sized T) : r.size < 2 ^ 63 := by
  cases h with
  | small _ h _ _ => exact h
  | large _ h _ _ => exact h

/-- `d'` has every disk file of `d`. -/
theorem HasFile.mono (h : r.HasFile d) (hd : ∀ p, d.names p ≠ none → d'.names p ≠ none) :
    r.HasFile d' := fun p hp => hd p (h p hp)

theorem HasFile.congr (h : r.HasFile d) (hp : ∀ p, r'.PointsTo p → r.PointsTo p) :
    r'.HasFile d := fun p hp' => h p (hp p hp')

/-- A record without a blob points to nothing. -/
theorem hasFile_of_inline (hblob : r.header.has_blob = 0) : r.HasFile d := by
  intro p hp
  have h := hp.2.1
  rw [hblob] at h
  cases h

theorem hasFile_of_name (h : d.names r.path ≠ none) : r.HasFile d := by
  rintro p ⟨_, _, rfl⟩
  exact h

end InodeRecord

/-- The value of a record that has its data where it says. -/
def StoredOk (T : ℤ) (d : Disk) (_ : MetaKey) (v : Bytes) : Prop :=
  ∃ r : InodeRecord, r.value = v ∧ r.Sized T ∧ r.HasFile d

/-- The same of a handle, whose disk file has to be there only if it is to be written. -/
def HandleOk (T : ℤ) (d : Disk) (_ : MetaKey) (h : InodeCacheHandle) : Prop :=
  ∃ r : InodeRecord, r.value = h.value_ ∧ r.Sized T ∧ (h.mode_ = .write → r.HasFile d)

section

variable {T : ℤ} {d d' : Disk}

theorem ties_backing (T : ℤ) (d : Disk) : Store.Ties (HandleOk T d) (StoredOk T d) where
  stores := fun ⟨r, hr, hs, hf⟩ => ⟨r, hr, hs, hf rfl⟩
  loads := fun _ ⟨r, hr, hs, hf⟩ => ⟨r, hr, hs, fun _ => hf⟩
  rests := fun ⟨r, hr, hs, _⟩ hm => ⟨r, hr, hs, fun h => absurd h hm⟩

theorem StoredOk.mono {k : MetaKey} {v : Bytes} (h : StoredOk T d k v)
    (hd : ∀ p, d.names p ≠ none → d'.names p ≠ none) : StoredOk T d' k v := by
  obtain ⟨r, hr, hs, hf⟩ := h
  exact ⟨r, hr, hs, hf.mono hd⟩

theorem HandleOk.mono {k : MetaKey} {h : InodeCacheHandle} (hh : HandleOk T d k h)
    (hd : ∀ p, d.names p ≠ none → d'.names p ≠ none) : HandleOk T d' k h := by
  obtain ⟨r, hr, hs, hf⟩ := hh
  exact ⟨r, hr, hs, fun hm => (hf hm).mono hd⟩

end

/-! ## Events -/

/-- Every stored record has its data where it says. -/
def Durable.Sound (T : ℤ) (d : Durable) : Prop := Keyed (StoredOk T d.disk) d.metadb

/-- An event that puts no record and takes no disk file away. -/
def Event.Adds : Event → Prop
  | .db _ | .disk (.unlink _) => False
  | _ => True

/-- The disk files that were there still are, and there is nothing new in the store. -/
theorem Event.Adds.apply {ev : Event} (h : ev.Adds) (d : Durable) :
    (d.apply ev).metadb = d.metadb ∧
      ∀ p, d.disk.names p ≠ none → (d.apply ev).disk.names p ≠ none := by
  cases ev with
  | db e => exact h.elim
  | disk e =>
      refine ⟨rfl, fun p hp => ?_⟩
      cases e with
      | unlink path => exact h.elim
      | create path =>
          by_cases hpath : p = path
          · rw [hpath]
            show Function.update d.disk.names path (some d.disk.nextFile) path ≠ none
            rw [Function.update_self]
            exact Option.some_ne_none _
          · show Function.update d.disk.names path (some d.disk.nextFile) p ≠ none
            rw [Function.update_of_ne hpath]
            exact hp
      | _ => exact hp
  | _ => exact ⟨rfl, fun _ h => h⟩

theorem Durable.Sound.adds {T : ℤ} {d : Durable} (h : d.Sound T) {ev : Event} (he : ev.Adds) :
    (d.apply ev).Sound T := by
  obtain ⟨hm, hn⟩ := he.apply d
  rw [Sound, hm]
  exact Keyed.mono h fun _ _ hv => hv.mono hn

/-- A write of records that have their data where they say. -/
theorem Durable.Sound.put {T : ℤ} {d : Durable} (h : d.Sound T) {e : DbEffect}
    (he : e.Puts (StoredOk T d.disk)) : (d.apply (.db e)).Sound T := Keyed.apply h he

/-- A disk file that no stored record points to can go. -/
theorem Durable.Sound.unlink {T : ℤ} {d : Durable} (h : d.Sound T) {p : BlobPath}
    (hp : ∀ k (r : InodeRecord), d.get k = some r.value → ¬ r.PointsTo p) :
    (d.apply (.disk (.unlink p))).Sound T := by
  intro key v hv
  refine (h key v hv).imp_right ?_
  rintro ⟨k, rfl, r, rfl, hs, hf⟩
  refine ⟨k, rfl, r, rfl, hs, fun p' hp' => ?_⟩
  have hne : p' ≠ p := by
    rintro rfl
    exact hp k r hv hp'
  show Function.update d.disk.names p none p' ≠ none
  rw [Function.update_of_ne hne]
  exact hf p' hp'

namespace World

/-! ## Parts of an operation that add to the data directory -/

/-- From `w` to `w'` no record is put and no disk file goes. -/
def Grows (w w' : World) : Prop :=
  ∃ evs : List Event, w'.store.log = w.store.log ++ evs ∧
    Transition.run Durable.apply w.durable evs = w'.durable ∧ ∀ ev ∈ evs, ev.Adds

variable {w w' w'' : World}

theorem Grows.of_eq (hl : w'.store.log = w.store.log) (hd : w'.durable = w.durable) :
    w.Grows w' := ⟨[], by rw [hl, List.append_nil], hd.symm, fun _ h => absurd h List.not_mem_nil⟩

theorem Grows.refl (w : World) : w.Grows w := .of_eq rfl rfl

theorem Grows.trans (h : w.Grows w') (h' : w'.Grows w'') : w.Grows w'' := by
  obtain ⟨evs, hl, hr, ha⟩ := h
  obtain ⟨evs', hl', hr', ha'⟩ := h'
  refine ⟨evs ++ evs', by rw [hl', hl, List.append_assoc], ?_, ?_⟩
  · rw [Transition.run_append, hr, hr']
  · intro ev hev
    exact (List.mem_append.mp hev).elim (ha ev) (ha' ev)

theorem grows_commit (w : World) {e : DiskEffect} (he : (Event.disk e).Adds) :
    w.Grows (w.commit e) := by
  refine ⟨[.disk e], rfl, rfl, fun ev hev => ?_⟩
  rwa [List.mem_singleton.mp hev]

theorem grows_passing (w : World) (os : Os) {ev : Event} (hd : os.disk = w.os.disk)
    (hev : ev.Passing) :
    w.Grows { w with os := os, store := { w.store with log := w.store.log ++ [ev] } } := by
  refine ⟨[ev], rfl, ?_, fun ev' h => ?_⟩
  · rw [Transition.run_cons, hev.apply]
    exact congrArg (Durable.mk w.store.metadb) hd.symm
  · rw [List.mem_singleton.mp h]
    cases ev with
    | db e => exact hev
    | disk e => exact hev.elim
    | _ => trivial

theorem grows_note (w : World) {ev : Event} (hev : ev.Passing) : w.Grows (w.note ev) :=
  w.grows_passing w.os rfl hev

/-- System calls that take no name away. -/
theorem grows_ioClosed : IoClosed (fun e => (Event.disk e).Adds) Grows where
  refl := .refl
  trans := .trans
  os := fun _ _ hd => .of_eq rfl (congrArg (Durable.mk _) hd)
  note := fun w os ev hd hev => w.grows_passing os hd (by
    cases ev with
    | openFd fd => trivial
    | closeFd fd => trivial
    | _ => exact hev.elim)
  commit := fun w _ he => w.grows_commit he

theorem Looked.grows (h : w.Looked w') : w.Grows w' := by
  obtain ⟨evs, e, d, hevs, rfl⟩ := h
  have hpass : ∀ ev ∈ evs, ev.Passing := by
    intro ev hev
    have hlock := hevs ev hev
    cases ev with
    | db e => exact hlock
    | disk e => exact hlock
    | _ => trivial
  refine ⟨evs, rfl, ?_, fun ev hev => ?_⟩
  · show Transition.run Durable.apply w.durable evs = w.durable
    clear hevs
    induction evs with
    | nil => rfl
    | cons ev evs ih =>
        rw [Transition.run_cons, (hpass ev List.mem_cons_self).apply]
        exact ih fun ev' h => hpass ev' (List.mem_cons_of_mem _ h)
  · have hp := hpass ev hev
    cases ev with
    | db e => exact hp
    | disk e => exact hp.elim
    | _ => trivial

/-- The store is as it was, and so is the data directory up to what is new in it. -/
theorem Grows.names (h : w.Grows w') :
    w'.store.metadb = w.store.metadb ∧
      ∀ p, w.os.disk.names p ≠ none → w'.os.disk.names p ≠ none := by
  obtain ⟨evs, -, hr, ha⟩ := h
  have hrun : ∀ (evs : List Event) (d : Durable), (∀ ev ∈ evs, ev.Adds) →
      (Transition.run Durable.apply d evs).metadb = d.metadb ∧
        ∀ p, d.disk.names p ≠ none →
          (Transition.run Durable.apply d evs).disk.names p ≠ none := by
    intro evs
    induction evs with
    | nil => exact fun d _ => ⟨rfl, fun _ h => h⟩
    | cons ev evs ih =>
        intro d ha
        obtain ⟨hm, hn⟩ := (ha ev List.mem_cons_self).apply d
        obtain ⟨hm', hn'⟩ := ih (d.apply ev) fun ev' h => ha ev' (List.mem_cons_of_mem _ h)
        exact ⟨hm'.trans hm, fun p hp => hn' p (hn p hp)⟩
  obtain ⟨hm, hn⟩ := hrun evs w.durable ha
  rw [hr] at hm hn
  exact ⟨hm, hn⟩

/-! ## The points of the log -/

/-- The log since `base` is what happened, and what every part of it leaves is sound. -/
structure LogSound (T : ℤ) (base : Durable) (w : World) : Prop where
  replay : Transition.run Durable.apply base w.store.log = w.durable
  points : Transition.Always Durable.apply (Durable.Sound T) base w.store.log

variable {T : ℤ} {base : Durable}

theorem LogSound.sound (h : LogSound T base w) : w.durable.Sound T := h.replay ▸ h.points.last

/-- More events, each of which leaves what is sound. -/
theorem LogSound.append (h : LogSound T base w) {evs : List Event}
    (hl : w'.store.log = w.store.log ++ evs)
    (hr : Transition.run Durable.apply w.durable evs = w'.durable)
    (hp : Transition.Always Durable.apply (Durable.Sound T) w.durable evs) :
    LogSound T base w' where
  replay := by rw [hl, Transition.run_append, h.replay, hr]
  points := by
    rw [hl]
    refine Transition.always_append.mpr ⟨h.points, ?_⟩
    rw [h.replay]
    exact hp

theorem LogSound.grows (h : LogSound T base w) (hg : w.Grows w') : LogSound T base w' := by
  obtain ⟨evs, hl, hr, ha⟩ := hg
  exact h.append hl hr (Transition.always_of_keeps (C := fun _ ev => Event.Adds ev)
    (fun _ _ hd he => hd.adds he) h.sound (Transition.meets_of_forall ha _))

/-- Writes to the metadata store put what has its data where it says. -/
theorem LogSound.extends (h : LogSound T base w) {s : Store} (he : w.store.Extends s)
    (hputs : ∀ e ∈ (dbEvents s.log).drop (dbEvents w.store.log).length,
      e.Puts (StoredOk T w.os.disk)) : LogSound T base (w.setStore s) := by
  obtain ⟨evs, hl, hm⟩ := he
  rw [hl, dbEvents_append, Store.dbEvents_map_db, List.drop_left] at hputs
  -- the data directory stays the same all along
  have hrun : ∀ (evs : List DbEffect) (d : Durable), d.Sound T → d.disk = w.os.disk →
      (∀ e ∈ evs, e.Puts (StoredOk T w.os.disk)) →
      Transition.run Durable.apply d (evs.map Event.db)
          = ⟨evs.foldl (fun db e => e.apply db) d.metadb, d.disk⟩ ∧
        Transition.Always Durable.apply (Durable.Sound T) d (evs.map Event.db) := by
    intro evs
    induction evs with
    | nil => exact fun d hd _ _ => ⟨rfl, Transition.always_nil.mpr hd⟩
    | cons e evs ih =>
        intro d hd hdisk hp
        have hput := hp e List.mem_cons_self
        rw [← hdisk] at hput
        obtain ⟨hr, ha⟩ := ih (d.apply (.db e)) (hd.put hput) hdisk
          fun e' h => hp e' (List.mem_cons_of_mem _ h)
        exact ⟨hr, Transition.always_cons.mpr ⟨hd, ha⟩⟩
  obtain ⟨hr, ha⟩ := hrun evs w.durable h.sound rfl hputs
  refine h.append hl ?_ ha
  rw [hr]
  show _ = Durable.mk s.metadb w.os.disk
  rw [hm]
  rfl

/-- `unlink` of a disk file that no stored record points to. -/
theorem LogSound.sysUnlink (h : LogSound T base w) {p : BlobPath}
    (hp : ∀ k (r : InodeRecord), w.store.dbGet k = some r.value → ¬ r.PointsTo p) :
    LogSound T base (w.sysUnlink p) := by
  unfold World.sysUnlink
  split
  · exact h.grows (.of_eq rfl rfl)
  · refine LogSound.append h (rfl : _ = w.store.log ++ [.disk (.unlink p)]) rfl
      (Transition.always_cons.mpr ⟨h.sound, Transition.always_nil.mpr (h.sound.unlink hp)⟩)

/-! ## States -/

/-- At every point of the log the stored records have their data where they say, and so have
the handles that wait to be stored. -/
structure Backed (T : ℤ) (base : Durable) (w : World) : Prop where
  threshold : w.threshold_ = T
  log : LogSound T base w
  live : ∀ i, w.store.cache.Live i →
    HandleOk T w.os.disk (w.store.keyOf i) (w.store.cache.val i)

/-- The property of all values, from here on. -/
theorem Backed.values (h : Backed T base w) :
    w.store.Values (HandleOk T w.os.disk) (StoredOk T w.os.disk)
      (dbEvents w.store.log).length where
  db := fun _ _ hv => Keyed.get h.log.sound hv
  live := h.live
  log := fun e he => by
    rw [List.drop_length] at he
    exact absurd he List.not_mem_nil

/-- What `Get` would find has its size, and its disk file is there unless it is cached. -/
theorem Backed.lookup (h : Backed T base w) {k : MetaKey} {v : Bytes}
    (hv : w.store.lookup k = some v) : ∃ r : InodeRecord, r.value = v ∧ r.Sized T := by
  unfold Store.lookup at hv
  split at hv
  · rename_i i hf
    obtain ⟨r, hr, hs, _⟩ := h.live i (Or.inl (LruCache.mem_of_find hf))
    exact ⟨r, hr.trans (Option.some.inj hv), hs⟩
  · obtain ⟨r, hr, hs, _⟩ := h.values.db k v hv
    exact ⟨r, hr, hs⟩

/-- An operation of the inode cache. -/
theorem Backed.setStore (h : Backed T base w) {s : Store} (he : w.store.Extends s)
    (hv : s.Values (HandleOk T w.os.disk) (StoredOk T w.os.disk)
      (dbEvents w.store.log).length) : Backed T base (w.setStore s) :=
  ⟨h.threshold, h.log.extends he hv.log, hv.live⟩

/-- A part of an operation that leaves the cache as it is and adds to the data directory. -/
theorem Backed.grows (h : Backed T base w) (hg : w.Grows w') (hc : w'.store.cache = w.store.cache)
    (ht : w'.threshold_ = w.threshold_) : Backed T base w' where
  threshold := ht.trans h.threshold
  log := h.log.grows hg
  live := fun i hi => by
    rw [Store.keyOf_congr hc, hc]
    exact (h.live i (hc ▸ hi)).mono hg.names.2

/-- A part of an operation that in the end has given a handle another value. -/
theorem Backed.edited (h : Backed T base w) (hg : w.Grows w') {i : ℕ} {v : Bytes}
    (hc : w'.store.cache = (w.store.setValue i v).cache) (ht : w'.threshold_ = w.threshold_)
    (hv : w.store.cache.Live i →
      HandleOk T w'.os.disk (w.store.keyOf i) ⟨v, w.store.mode i⟩) : Backed T base w' where
  threshold := ht.trans h.threshold
  log := h.log.grows hg
  live := fun j hj => by
    rw [hc] at hj
    rw [Store.keyOf_congr hc, Store.setValue_keyOf, hc]
    by_cases hij : j = i
    · subst hij
      have hval : (w.store.setValue j v).cache.val j = ⟨v, w.store.mode j⟩ :=
        Function.update_self ..
      rw [hval]
      exact hv hj
    · have hval : (w.store.setValue i v).cache.val j = w.store.cache.val j :=
        Function.update_of_ne hij _ _
      rw [hval]
      exact (h.live j hj).mono hg.names.2

theorem Backed.looked (h : Backed T base w) (hl : w.Looked w') : Backed T base w' :=
  h.grows hl.grows hl.cache hl.threshold_

theorem Backed.lock (h : Backed T base w) {ev : Event} (hev : ev.IsLock) :
    Backed T base (w.note ev) := h.looked (looked_note w ev hev)

/-- `Get` to write is for a record whose disk file is there. -/
theorem Backed.cacheGet (h : Backed T base w) {k : MetaKey} {m : InodeAccessMode} {i : ℕ}
    (hg : w.cacheGet k m = (w', some i))
    (hm : m = .write → ∀ r : InodeRecord, w.store.lookup k = some r.value →
      r.HasFile w.os.disk) :
    Backed T base w' ∧ 0 < w'.store.cache.pins i ∧ w'.store.keyOf i = k ∧
      w'.os = w.os ∧ w'.store.value i ∈ w.store.lookup k := by
  have hp := cacheGet_pins hg
  have hl := cacheGet_lookup hg
  obtain ⟨s, hs, rfl⟩ := cacheGet_some hg
  refine ⟨h.setStore (Store.extends_get hs) (h.values.get (ties_backing T _) hs fun hw v hv => ?_),
    ?_, Store.get_keyOf hs, rfl, hl⟩
  · obtain ⟨r, rfl, hsz⟩ := h.lookup hv
    exact ⟨r, rfl, hsz, hm hw r hv⟩
  · rw [hp, Function.update_self]
    omega

theorem Backed.cacheRelease (h : Backed T base w) {i : ℕ} (hi : 0 < w.store.cache.pins i) :
    Backed T base (w.cacheRelease i) :=
  h.setStore (Store.extends_release _ i) (h.values.release (ties_backing T _) (Or.inr hi))

theorem Backed.cacheEvict (h : Backed T base w) (k : MetaKey) : Backed T base (w.cacheEvict k) :=
  h.setStore (Store.extends_evict _ k) (h.values.evict (ties_backing T _) k)

theorem Backed.cacheWriteBack (h : Backed T base w) {i : ℕ} (hi : 0 < w.store.cache.pins i) :
    Backed T base (w.cacheWriteBack i) :=
  h.setStore (Store.extends_writeBack _ i) (h.values.writeBack (ties_backing T _) (Or.inr hi))

/-- A record is put that has its data where it says. -/
theorem Backed.dbPut (h : Backed T base w) {k : MetaKey} {v : Bytes}
    (hv : StoredOk T w.os.disk k v) : Backed T base (w.setStore (w.store.dbPut k v).1) :=
  h.setStore (Store.extends_tryCommit _ _) (h.values.dbPut hv)

end World

end Tablefs
