/-
The dentry cache along a run.

The dentry cache holds inode numbers, and no edit of a record changes its number.
So it suffices to look at where records come and go. `Unlink`, `RemoveDir` and
`Rename` evict what they are about to change, but a handle that is still held
carries out its store or delete when it is given back: in `Release` and
`ReleaseDir`, long after, and with no eviction. By then a lookup may have put the
key back (`dentry_cache_stale`). `KeepsDentry` is the condition that such a late
change agrees with what the dentry cache holds; in every run that meets it the
dentry cache agrees with the store (`dentry_cache_transparent`).
-/
import Tablefs.Table

set_option autoImplicit false

namespace Tablefs

open ByteString

/-! ## Values with one inode number -/

/-- Two values carry one inode number. -/
def SameIno (u v : Bytes) : Prop := inoOf u = inoOf v

instance (u v : Bytes) : Decidable (SameIno u v) := inferInstanceAs (Decidable (inoOf u = inoOf v))

theorem sameIno_equivalence : Equivalence SameIno := ⟨fun _ => rfl, Eq.symm, Eq.trans⟩

theorem sameIno_editsKeep : World.EditsKeep SameIno := by
  rintro old new ⟨r, rfl⟩ he
  obtain ⟨r', rfl, _, hi⟩ := he r rfl
  rw [SameIno, inoOf, inoOf, r'.getAttribute_value, r.getAttribute_value, hi]

namespace Store

variable {s t : Store}

/-- Records up to their inode numbers have the same inode numbers. -/
theorem ino_eq_of_near {k : MetaKey} (h : t.dbGet k = s.dbGet k ∨
    ∃ u v, s.dbGet k = some u ∧ t.dbGet k = some v ∧ SameIno v u) : t.ino k = s.ino k := by
  rcases h with h | ⟨u, v, hu, hv, hr⟩
  · rw [ino, h, ino]
  · rw [ino, hv, ino, hu]
    exact congrArg some hr

/-! ## Giving back an open file's handle -/

variable {R : Bytes → Bytes → Prop}

theorem Table.setValue (hR : Equivalence R) {X : MetaKey → ℕ → Prop} (h : s.Table R X) {i : ℕ}
    {v : Bytes} (hv : R v (s.value i)) : (s.setValue i v).Table R X := by
  intro j hj hn
  obtain ⟨hm, u, hu, hr⟩ := h j hj hn
  refine ⟨by rwa [setValue_mode], u, hu, ?_⟩
  by_cases hji : j = i
  · subst hji
    rw [setValue_value_self]
    exact hR.trans hv hr
  · rwa [setValue_value_of_ne s hji]

theorem Table.setMode {X : MetaKey → ℕ → Prop} (h : s.Table R X) (i : ℕ) {m : InodeAccessMode}
    (hm : m ≠ .delete) : (s.setMode i m).Table R X := by
  intro j hj hn
  obtain ⟨hmj, u, hu, hr⟩ := h j hj hn
  refine ⟨?_, u, hu, by rwa [setMode_value]⟩
  by_cases hji : j = i
  · subst hji; rwa [setMode_mode_self]
  · rwa [setMode_mode_of_ne s hji]

/-- A handle whose pending store agrees with the record is written back, given
back and evicted: the records stay as they are, up to `R`. -/
theorem close_near (hR : Equivalence R) (h : s.Table R fun _ _ => False) {i : ℕ} {v : Bytes}
    (hv : R v (s.value i)) (ha : s.Agrees R i) (k : MetaKey) :
    s.Near R ((((s.setValue i v).writeBack i).release i).evict k) := by
  have h1 := h.setValue hR hv
  obtain ⟨hn2, ht2, hm2⟩ : s.Near R ((s.setValue i v).writeBack i) ∧
      ((s.setValue i v).writeBack i).Table R (fun _ _ => False) ∧
      ((s.setValue i v).writeBack i).mode i = .read := by
    cases hmi : s.mode i with
    | delete => exact absurd hmi ha.mode
    | read =>
        have he : (s.setValue i v).writeBack i = s.setValue i v := by
          rw [writeBack, setValue_mode, hmi]
        rw [he]
        exact ⟨.of_eq fun _ => rfl, h1, by rw [setValue_mode, hmi]⟩
    | write =>
        rw [writeBack_write (by rw [setValue_mode, hmi]), setValue_value_self, setValue_keyOf]
        have hnear : (s.setValue i v).Near R ((s.setValue i v).dbPut (s.keyOf i) v).1 :=
          fun k => by
            rcases (s.setValue i v).dbPut_dbGet (s.keyOf i) k v with hd | ⟨rfl, hd⟩
            · exact Or.inl hd
            · obtain ⟨u, hu, hr⟩ := ha.record hmi
              exact Or.inr ⟨u, v, hu, hd, hR.trans hv hr⟩
        have hput := h1.near hR (dbPut_cache (s.setValue i v) (s.keyOf i) v) hnear
        exact ⟨fun k => hnear k, hput.setMode i (by decide), setMode_mode_self _ _ _⟩
  have ht3 : (((s.setValue i v).writeBack i).release i).Table R fun _ _ => False :=
    ht2.release fun _ _ _ _ _ _ => ⟨by rw [hm2]; decide, fun hw => by rw [hm2] at hw; cases hw⟩
  exact (hn2.trans hR (.of_eq (release_dbGet_of_read _ hm2))).trans hR
    (ht3.near_evict (fun _ _ hx => hx.elim) k)

end Store

namespace World

open Store

/-! ## What a late change must agree with -/

/-- The store or delete that handle `i` has pending agrees with the dentry cache. -/
def AgreesWithDentry (w : World) (i : ℕ) : Prop :=
  ∀ n ∈ w.dentry_cache.peek (w.store.keyOf i),
    w.store.mode i ≠ .delete ∧ (w.store.mode i = .write → inoOf (w.store.value i) = n)

instance (w : World) (i : ℕ) : Decidable (w.AgreesWithDentry i) :=
  Option.decidableForallMem (w.dentry_cache.peek (w.store.keyOf i))

/-- What a call must meet to keep the dentry cache coherent: a handle that `Release`
gives back, or that `ReleaseDir` frees, agrees with the dentry cache, and the
latter with the table; the batch of a `Rename` is written. -/
def KeepsDentry (w : World) : Op → Prop
  | .release fh => ∀ f ∈ w.files fh, w.AgreesWithDentry f.handle_
  | .releaseDir handle =>
      handle ∈ w.dirs → w.store.cache.pins handle = 1 → handle ∉ w.store.cache.lru →
        w.AgreesWithDentry handle ∧ ∀ j ∈ w.store.cache.lru, w.store.keyOf j = w.store.keyOf handle →
          w.store.mode handle ≠ .delete ∧
            (w.store.mode handle = .write → SameIno (w.store.value j) (w.store.value handle))
  | .rename _ _ => w.store.dbFaults = []
  | _ => True

instance (w : World) : DecidablePred w.KeepsDentry := fun op => match op with
  | .release fh => Option.decidableForallMem (w.files fh)
  | .releaseDir handle => inferInstanceAs (Decidable (handle ∈ w.dirs → _ → _ → _ ∧ _))
  | .rename _ _ => inferInstanceAs (Decidable (w.store.dbFaults = []))
  | .getAttr _ | .openFile _ _ | .read _ _ _ | .write _ _ _ | .fsync _ _ | .truncate _ _
  | .readlink _ _ | .symlink _ _ | .unlink _ | .makeNode _ _ _ | .makeDir _ _ | .openDir _
  | .readDir _ _ | .removeDir _ | .access _ _ | .updateTimens _ _ _ | .chmod _ _ | .chown _ _ _
  | .evict _ | .setEnv _ | .setFaults _ _ => inferInstanceAs (Decidable True)

theorem KeepsDentry.keepsTable {w : World} {op : Op} (h : w.KeepsDentry op) :
    w.KeepsTable SameIno False op := by
  cases op with
  | rename => exact h
  | releaseDir handle => exact fun hh hp hl j hj hkj _ => (h hh hp hl).2 j hj hkj
  | _ => trivial

/-! ## Every effect -/

/-- A state whose dentry cache has lost entries, and whose store has the old inode
numbers under the keys that are left. -/
theorem DentryCoherent.mono {w w' : World} (h : w.DentryCoherent)
    (hd : ∀ k i, w'.dentry_cache.peek k = some i →
      w.dentry_cache.peek k = some i ∧ w'.store.ino k = w.store.ino k) : w'.DentryCoherent :=
  fun k i hk => by
    obtain ⟨hk', he⟩ := hd k i hk
    rw [he]
    exact h k i hk'

variable {w : World}

theorem AgreesWithDentry.agrees {i : ℕ} (h : w.AgreesWithDentry i) (hd : w.DentryCoherent)
    {n : UInt64} (hn : w.dentry_cache.peek (w.store.keyOf i) = some n) :
    w.store.Agrees SameIno i := by
  obtain ⟨hm, hw⟩ := h n hn
  refine ⟨hm, fun hwr => ?_⟩
  obtain ⟨u, hu, hi⟩ := Option.map_eq_some_iff.mp (hd _ _ hn)
  exact ⟨u, hu, (hw hwr).trans hi.symm⟩

/-- `Release` and `ReleaseDir` work on the key of their handle and keep the dentry
cache coherent if the handle agrees with it. -/
theorem DentryCoherent.drop (hd : w.DentryCoherent) {i : ℕ} {s : Store}
    (ha : w.store.Around (fun k => k = w.store.keyOf i) SameIno s)
    (hi : ∀ n, w.dentry_cache.peek (w.store.keyOf i) = some n → w.store.Near SameIno s) :
    (w.setStore s).DentryCoherent := by
  refine hd.mono fun k n hk => ⟨hk, ino_eq_of_near ?_⟩
  by_cases hki : k = w.store.keyOf i
  · subst hki
    exact hi n hk _
  · exact ha.near k hki

/-- What an effect must meet to keep the dentry cache coherent. -/
def KeepsDentryEffect (w : World) : Effect → Prop
  | .close fh value => ∀ f, w.files fh = some f →
      SameIno value (w.store.value f.handle_) ∧ w.AgreesWithDentry f.handle_
  | .closeDir handle => w.store.cache.pins handle = 1 → handle ∉ w.store.cache.lru →
      w.AgreesWithDentry handle
  | .edit key value => ∀ old, w.store.lookup key = some old → SameIno value old
  | _ => True

theorem perform_dentry (ht : w.store.Table SameIno fun _ _ => False)
    (hd : w.DentryCoherent) (e : Effect) (hk : e.KeepsTable SameIno False w)
    (hk' : w.KeepsDentryEffect e) : (w.perform e).DentryCoherent := by
  have hR := sameIno_equivalence
  have hX : ∀ (_ : MetaKey) i, False → 0 < w.store.cache.pins i := fun _ _ hx => hx.elim
  have hnear : ∀ {w' : World}, w'.dentry_cache = w.dentry_cache → w.store.Near SameIno w'.store →
      w'.DentryCoherent := fun hc hn =>
    hd.mono fun k i hki => ⟨by rwa [hc] at hki, ino_eq_of_near (hn k)⟩
  cases e with
  | idle => exact hd
  | touch key mode =>
      simp only [perform]
      rcases hg : w.cacheGet key mode with ⟨w', _ | i⟩
      · rw [(cacheGet_none hg).1]; exact hd
      · obtain ⟨s, hs, rfl⟩ := cacheGet_some hg
        exact hnear rfl ((ht.near_get hR hX hs).trans hR
          (near_release s fun _ _ => (ht.get_matches hR hs hk id).agrees))
  | openFile key flags fd =>
      simp only [perform]
      rcases hg : w.cacheGet key (openMode flags) with ⟨w', _ | i⟩
      · rw [(cacheGet_none hg).1]; exact hd
      · obtain ⟨s, hs, rfl⟩ := cacheGet_some hg
        exact hnear rfl (ht.near_get hR hX hs)
  | openDir key =>
      simp only [perform]
      rcases hg : w.cacheGet key .read with ⟨w', _ | i⟩
      · rw [(cacheGet_none hg).1]; exact hd
      · obtain ⟨s, hs, rfl⟩ := cacheGet_some hg
        exact hnear rfl (ht.near_get hR hX hs)
  | setFd fh fd =>
      simp only [perform]
      cases w.files fh <;> exact hd
  | write fh value fd =>
      simp only [perform]
      cases w.files fh <;> exact hd
  | close fh value =>
      simp only [perform]
      cases hf : w.files fh with
      | none => exact hd
      | some f =>
          obtain ⟨hv, hag⟩ := hk' f hf
          refine hd.drop (i := f.handle_) ((close_around hR w.store rfl value).trans hR
            (around_evict hR _ rfl)) fun n hn => ?_
          exact close_near hR ht hv (hag.agrees hd hn) _
  | closeDir i =>
      exact hd.drop (i := i) (around_release hR w.store rfl) fun n hn =>
        near_release w.store fun hp hl => (hk' hp hl).agrees hd hn
  | edit key value =>
      simp only [perform]
      rcases hg : w.cacheGet key .write with ⟨w', _ | i⟩
      · rw [(cacheGet_none hg).1]; exact hd
      · obtain ⟨s, hs, rfl⟩ := cacheGet_some hg
        have hmode : s.mode i = .write := (get_mode hs).resolve_right fun h => by cases h.1
        have hm : (s.setValue i value).mode i = .write := by rw [setValue_mode, hmode]
        have hput : s.Near SameIno ((s.setValue i value).writeBack i) := fun k => by
          rw [writeBack_write hm, setValue_value_self, setValue_keyOf]
          rcases (s.setValue i value).dbPut_dbGet (s.keyOf i) k value with h | ⟨rfl, h⟩
          · exact Or.inl h
          · obtain ⟨u, hu, hr⟩ := (ht.get_matches hR hs (by decide) id).record
            exact Or.inr ⟨u, value, hu, h, hR.trans (hk' _ (get_lookup hs)) hr⟩
        refine hnear rfl (((ht.near_get hR hX hs).trans hR hput).trans hR
          (.of_eq (release_dbGet_of_read _ ?_)))
        show ((s.setValue i value).writeBack i).mode i = .read
        rw [writeBack_write hm, setMode_mode_self]
  | create key value =>
      refine hd.mono fun k n hkn => ⟨hkn, ?_⟩
      have hne : key ≠ k := by
        rintro rfl
        have := hd _ n hkn
        rw [Store.ino, hk] at this
        exact absurd this (by simp)
      rcases w.store.dbPut_dbGet key k value with h | ⟨h, _⟩
      · exact ino_eq_of_near (Or.inl h)
      · exact absurd h hne
  | remove key =>
      simp only [perform]
      rcases hg : w.cacheGet key .delete with ⟨w', _ | i⟩
      · rw [(cacheGet_none hg).1]; exact hd
      · obtain ⟨s, hs, rfl⟩ := cacheGet_some hg
        have har : w.store.Around (fun k => k = key) SameIno ((s.release i).evict key) :=
          ((around_get (K := fun k => k = key) hR hs rfl (ht.mono fun _ _ => False.elim) hX).trans
            hR (around_release hR s (get_keyOf hs))).trans hR (around_evict hR _ rfl)
        refine hd.mono fun k n hkn => ?_
        obtain ⟨hne, hkn⟩ := DentryCache.peek_of_peek_evict hkn
        exact ⟨hkn, ino_eq_of_near (har.near k hne)⟩
  | move old_key new_key filename =>
      simp only [perform]
      rcases hg : w.cacheGet old_key .delete with ⟨w', _ | i⟩
      · rw [(cacheGet_none hg).1]; exact hd
      · obtain ⟨s, hs, rfl⟩ := cacheGet_some hg
        have har := (move_around hR ht hX hs hk new_key
          (renameInodeValue (s.value i) filename)).2
        refine hd.mono fun k n hkn => ?_
        dsimp only at hkn ⊢
        rw [setDentry_dentry_cache, renameHandles_dentry_cache] at hkn
        obtain ⟨hnew, hkn⟩ := DentryCache.peek_of_peek_evict hkn
        obtain ⟨hold, hkn⟩ := DentryCache.peek_of_peek_evict hkn
        refine ⟨hkn, ino_eq_of_near ?_⟩
        rw [setDentry_store, renameHandles, setStore_store]
        exact har.near k fun h => h.elim hold hnew
  | evict key => exact hnear rfl (ht.near_evict hX key)
  | sync => exact hnear rfl (.of_eq fun k => dbSync_dbGet _ k)
  | setEnv env => exact hd
  | setFaults dbFaults => exact hnear rfl (.of_eq fun _ => rfl)

/-! ## Every call -/

/-- What holds of the dentry cache, with what that rests on. -/
structure DentryInv (w : World) : Prop where
  accounted : w.Accounted
  records : w.store.Records
  table : w.store.Table SameIno (w.Exempt False)
  dentry : w.DentryCoherent

/-- The lookup and the effect of a call that meets the condition. -/
theorem keepsDentry_effect (ha : w.Accounted) (hr : w.store.Records) {op : Op}
    (hwf : op.WellFormed) (hk : w.KeepsDentry op) :
    ∃ w₁ e, w.Looked w₁ ∧ (w.DentryCoherent → w₁.DentryCoherent) ∧ w.Performs op e ∧
      (w₁.perform e).UpToData (w.step op).1 ∧ w₁.KeepsDentryEffect e := by
  have hedit : ∀ {w₁ : World} {key old value}, w.Looked w₁ → w.store.lookup key = some old →
      Edited old value → w₁.KeepsDentryEffect (.edit key value) := by
    intro w₁ key old value hl ho he old' ho'
    rw [hl.lookup, ho] at ho'
    obtain rfl := Option.some.inj ho'
    exact sameIno_editsKeep old value (hr.all.lookup ho).record he
  by_cases hrel : ∃ fh, op = .release fh
  · obtain ⟨fh, rfl⟩ := hrel
    obtain ⟨e, hp, hu⟩ := w.release_acts fh
    refine ⟨w, e, Looked.refl w, id, hp, hu, ?_⟩
    cases hp with
    | idle => trivial
    | release hf he =>
        intro g hg
        refine ⟨?_, hk g hg⟩
        rw [hf] at hg
        obtain rfl := Option.some.inj hg
        exact sameIno_editsKeep _ _ (hr.all.live _ (Or.inr (ha.pinned_of_file hf))).record he
  · by_cases hdir : ∃ i, op = .releaseDir i
    · obtain ⟨i, rfl⟩ := hdir
      obtain ⟨e, hp, hu⟩ := w.releaseDir_acts i
      refine ⟨w, e, Looked.refl w, id, hp, hu, ?_⟩
      cases hp with
      | idle => trivial
      | releaseDir hh => exact fun hp hl => (hk hh hp hl).1
    · obtain ⟨w₁, e, hl, hc, hp, hu⟩ := w.step_steps op
      refine ⟨w₁, e, hl, hc, hp, hu, ?_⟩
      cases hp with
      | release => exact absurd ⟨_, rfl⟩ hrel
      | releaseDir => exact absurd ⟨_, rfl⟩ hdir
      | truncate _ ho he => exact hedit hl ho (he hwf)
      | updateTimens _ ho he => exact hedit hl ho he
      | chmod _ ho he => exact hedit hl ho he
      | chown _ ho he => exact hedit hl ho he
      | _ => trivial

theorem DentryInv.step (h : w.DentryInv) {op : Op} (hwf : op.WellFormed)
    (hc : w.CreatesAbsent op) (hk : w.KeepsDentry op) : (w.next op).DentryInv := by
  refine ⟨h.accounted.step op, Store.Records.step h.accounted h.records hwf,
    table_step sameIno_equivalence h.accounted h.records h.table hwf (Or.inr sameIno_editsKeep)
      hc hk.keepsTable, ?_⟩
  obtain ⟨w₁, e, hl, hcoh, hp, hu, hke⟩ := keepsDentry_effect h.accounted h.records hwf hk
  have ht : w₁.store.Table SameIno fun _ _ => False :=
    (h.table.congr hl.metadb hl.cache).mono fun _ _ hx => hx.1
  obtain ⟨os, log, _, hu⟩ := hu
  have hd := perform_dentry ht (hcoh h.dentry) e
    (hp.keepsTable hwf hl h.accounted h.records (Or.inr sameIno_editsKeep) hc hk.keepsTable) hke
  rw [next, hu]
  exact hd

theorem DentryInv.run (h : w.DentryInv) {ops : List Op} (hwf : ∀ op ∈ ops, op.WellFormed)
    (hc : w.Meets CreatesAbsent ops) (hk : w.Meets KeepsDentry ops) : (w.run ops).DentryInv :=
  Transition.run_invariant (P := DentryInv) (fun _ _ h hC => h.step hC.1 hC.2.1 hC.2.2) h
    ((Transition.meets_of_forall hwf w).and (hc.and hk))

theorem dentryCoherent_empty (w : World) (n : ℕ) :
    (w.setDentry (DentryCache.empty n)).DentryCoherent := fun k i hk => by
  rw [setDentry_dentry_cache, DentryCache.peek_empty] at hk
  exact absurd hk (by simp)

theorem mount_dentryInv {d : Durable} (hd : d.Records) (cfg : MountConfig) :
    (mount d cfg).DentryInv := by
  refine ⟨mount_accounted d cfg, mount_records hd cfg, mount_table d cfg _, fun k i hk => ?_⟩
  rw [(mount_store d cfg).2.2.1, DentryCache.peek_empty] at hk
  exact absurd hk (by simp)

/-! ## Runs -/

/-- `PathLookup` answers as it would with the dentry cache emptied. -/
def DentryTransparent (w : World) : Prop :=
  ∀ path, (w.pathLookup path).2 = ((w.setDentry (DentryCache.empty 16384)).pathLookup path).2

/-- With a coherent dentry cache, both lookups resolve the path against the store. -/
theorem DentryCoherent.transparent (h : w.DentryCoherent) : w.DentryTransparent := fun path => by
  rw [(pathLookup_eq h path).1, (pathLookup_eq (dentryCoherent_empty w 16384) path).1]
  rfl

/-- In every run whose late stores and deletes agree with the dentry cache when they
come, the dentry cache holds what the store does, and lookups do not depend on it. -/
theorem dentry_cache_transparent {d : Durable} (hd : d.Records) (cfg : MountConfig)
    (ops : List Op) (hwf : ∀ op ∈ ops, op.WellFormed)
    (hc : (mount d cfg).Meets CreatesAbsent ops) (hk : (mount d cfg).Meets KeepsDentry ops) :
    ((mount d cfg).run ops).DentryTransparent ∧ ((mount d cfg).run ops).DentryCoherent := by
  have h := (mount_dentryInv hd cfg).run hwf hc hk
  exact ⟨h.dentry.transparent, h.dentry⟩

/-- A directory is removed while it is open, and closed. -/
def heldRun : List Op := [.makeDir [47, 97] 0, .openDir [47, 97], .removeDir [47, 97], .releaseDir 0]

theorem heldRun_transparent : ((mount Durable.empty plainConfig).run heldRun).DentryTransparent ∧
    ((mount Durable.empty plainConfig).run heldRun).DentryCoherent :=
  dentry_cache_transparent empty_records plainConfig heldRun (by decide) (by decide +kernel)
    (by decide +kernel)

/-- The same, with a lookup below the directory before it is closed. The record is
still there for the lookup to find. -/
def staleRun : List Op :=
  [.makeDir [47, 97] 0, .openDir [47, 97], .removeDir [47, 97], .getAttr [47, 97, 47, 98],
    .releaseDir 0]

/-- Afterwards `PathLookup` finds its way through a directory that is gone. -/
theorem dentry_cache_stale :
    ¬ ∀ (d : Durable) (cfg : MountConfig) (ops : List Op), d.Records →
      (∀ op ∈ ops, op.WellFormed) → (mount d cfg).Meets CreatesAbsent ops →
        ((mount d cfg).run ops).DentryTransparent := fun h => by
  have hrun := h Durable.empty plainConfig staleRun empty_records (by decide) (by decide +kernel)
    [47, 97, 47, 98]
  revert hrun
  decide +kernel

end World

end Tablefs
