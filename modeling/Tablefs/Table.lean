/-
The cache's table along a run.

`perform_table` says of every effect when it keeps the table coherent with the
store. Two readings of "coherent" are used: up to equality of records, where the
handles of open files are exempt because a `Write` stays in the cache until the
file is closed, and up to inode numbers, where nothing is exempt because no edit
changes a number. `Exempt p` is the exemption, `p` saying which reading it is.

The one effect that can leave an entry of the table contradicting the store
without working on its key is `ReleaseDir`: it drops a handle that may have left
the table long ago, with a store or a delete still pending (`FreesSafely`).
-/
import Tablefs.Coherence
import Tablefs.Reachable

set_option autoImplicit false

namespace Tablefs

open ByteString

namespace World

open Store

/-- With `p`, the handles of open files are exempt from coherence. -/
def Exempt (p : Prop) (w : World) (_ : MetaKey) (i : ℕ) : Prop :=
  p ∧ ∃ n f, w.files n = some f ∧ f.handle_ = i

theorem Exempt.pinned {p : Prop} {w : World} (ha : w.Accounted) {k : MetaKey} {i : ℕ}
    (h : w.Exempt p k i) : 0 < w.store.cache.pins i := by
  obtain ⟨_, n, f, hf, rfl⟩ := h
  exact ha.pinned_of_file hf

theorem exempt_congr {p : Prop} {w w' : World} (h : w'.files = w.files) :
    w'.Exempt p = w.Exempt p := by
  funext k i
  rw [Exempt, h, Exempt]

end World

/-- What an effect must meet to keep the table coherent. -/
def Effect.KeepsTable (R : Bytes → Bytes → Prop) (p : Prop) (w : World) : Effect → Prop
  | .touch _ mode => mode ≠ .delete
  | .write fh value _ => ∀ f, w.files fh = some f → p ∨ R value (w.store.value f.handle_)
  | .closeDir handle => w.store.FreesSafely R (w.Exempt p) handle
  | .edit key value => w.store.dbFaults = [] ∨
      ∀ old, w.store.lookup key = some old → R value old
  | .create key _ => w.store.dbGet key = none
  | .move _ _ _ => w.store.dbFaults = []
  | _ => True

theorem openMode_ne_delete (flags : OpenFlags) : World.openMode flags ≠ .delete := by
  unfold World.openMode
  split <;> decide

namespace World

open Store

variable {R : Bytes → Bytes → Prop} {p : Prop} {w : World}

/-- A handle exempt for an open file stays exempt when the file's descriptor changes. -/
theorem exempt_setFd {fh : ℕ} {f : FileHandle} (hf : w.files fh = some f) (fd : ℤ) {k : MetaKey}
    {i : ℕ} (h : w.Exempt p k i) : (w.setFd fh f fd).Exempt p k i := by
  obtain ⟨hp, n, g, hg, hgi⟩ := h
  by_cases hn : n = fh
  · subst hn
    rw [hf] at hg
    obtain rfl := Option.some.inj hg
    exact ⟨hp, n, { f with fd_ := fd }, Function.update_self .., hgi⟩
  · exact ⟨hp, n, g, (Function.update_of_ne hn ..).trans hg, hgi⟩

/-- The effect of `Release` on its handle. -/
theorem close_around (hR : Equivalence R) (s : Store) {i : ℕ} {k : MetaKey} (hk : s.keyOf i = k)
    (v : Bytes) : s.Around (fun j => j = k) R (((s.setValue i v).writeBack i).release i) := by
  refine ((around_setValue s hk v).trans hR (around_writeBack hR _ hk)).trans hR
    (around_release hR _ ?_)
  rwa [writeBack_keyOf]

theorem perform_table (hR : Equivalence R) (ha : w.Accounted)
    (h : w.store.Table R (w.Exempt p)) (e : Effect) (hk : e.KeepsTable R p w) :
    (w.perform e).store.Table R ((w.perform e).Exempt p) := by
  have hX : ∀ k i, w.Exempt p k i → 0 < w.store.cache.pins i := fun k i hx => hx.pinned ha
  cases e with
  | idle => exact h
  | touch key mode =>
      simp only [perform]
      rcases hg : w.cacheGet key mode with ⟨w', _ | i⟩
      · rw [(cacheGet_none hg).1]; exact h
      · obtain ⟨s, hs, rfl⟩ := cacheGet_some hg
        exact (h.get hR hX hs hk).release
          (freesSafely_of_lru fun j hj hkj => get_lru_self hs hj (hkj.trans (get_keyOf hs)))
  | openFile key flags fd =>
      simp only [perform]
      rcases hg : w.cacheGet key (openMode flags) with ⟨w', _ | i⟩
      · rw [(cacheGet_none hg).1]; exact h
      · obtain ⟨s, hs, rfl⟩ := cacheGet_some hg
        refine (h.get hR hX hs (openMode_ne_delete flags)).mono fun k j hx => ?_
        obtain ⟨hp, n, f, hf, hfj⟩ := hx
        refine ⟨hp, n, f, ?_, hfj⟩
        have hn := ha.lt hf
        show Function.update w.files w.nextFile _ n = _
        rw [Function.update_of_ne (by omega), hf]
  | openDir key =>
      simp only [perform]
      rcases hg : w.cacheGet key .read with ⟨w', _ | i⟩
      · rw [(cacheGet_none hg).1]; exact h
      · obtain ⟨s, hs, rfl⟩ := cacheGet_some hg
        exact h.get hR hX hs (by decide)
  | setFd fh fd =>
      simp only [perform]
      cases hf : w.files fh with
      | none => exact h
      | some f => exact h.mono fun k j hx => exempt_setFd hf fd hx
  | write fh value fd =>
      simp only [perform]
      cases hf : w.files fh with
      | none => exact h
      | some f =>
          refine Table.mono (X := w.Exempt p) ?_ fun k j hx =>
            exempt_setFd (w := (w.setMode f.handle_ .write).setValue f.handle_ value) hf fd hx
          refine fun j hj hn => ?_
          by_cases hji : j = f.handle_
          · subst hji
            obtain ⟨_, u, hu, hr⟩ := h f.handle_ hj hn
            refine ⟨?_, u, hu, ?_⟩
            · show (Store.setValue _ _ _).mode _ ≠ _
              rw [setValue_mode, World.setMode, setStore_store, setMode_mode_self]
              decide
            · rcases hk f hf with hp | hv
              · exact absurd ⟨hp, fh, f, hf, rfl⟩ hn
              · show R ((Store.setValue _ _ _).value _) u
                rw [setValue_value_self]
                exact hR.trans hv hr
          · obtain ⟨hm, u, hu, hr⟩ := h j hj hn
            refine ⟨?_, u, hu, ?_⟩
            · show (Store.setValue _ _ _).mode _ ≠ _
              rw [setValue_mode, World.setMode, setStore_store, setMode_mode_of_ne _ hji]
              exact hm
            · show R ((Store.setValue _ _ _).value _) u
              rw [setValue_value_of_ne _ hji, World.setMode, setStore_store, setMode_value]
              exact hr
  | close fh value =>
      simp only [perform]
      cases hf : w.files fh with
      | none => exact h
      | some f =>
          have ht := h.evict_around hR (close_around hR w.store (i := f.handle_) rfl value)
          intro j hj hn
          refine ht j hj fun hx => ?_
          obtain ⟨hp, n, g, hg, hgj⟩ := hx
          by_cases hnf : n = fh
          · -- the entry under the closed file's key has been evicted
            subst hnf
            rw [hf] at hg
            obtain rfl := Option.some.inj hg
            refine (evict_keyOf _ hj).1 ?_
            rw [evict_keyOf_eq, ← hgj]
            show (((w.store.setValue f.handle_ value).writeBack f.handle_).release
              f.handle_).keyOf f.handle_ = _
            rw [release_keyOf, writeBack_keyOf]
            rfl
          · refine hn ⟨hp, n, g, ?_, hgj⟩
            show Function.update w.files fh none n = _
            rw [Function.update_of_ne hnf, hg]
  | closeDir i => exact h.release hk
  | edit key value =>
      simp only [perform]
      rcases hg : w.cacheGet key .write with ⟨w', _ | i⟩
      · rw [(cacheGet_none hg).1]; exact h
      · obtain ⟨s, hs, rfl⟩ := cacheGet_some hg
        exact h.edit hR hX hs (hk.imp id fun hv => hv _ (get_lookup hs))
  | create key value => exact h.dbPut_new hk value
  | remove key =>
      simp only [perform]
      rcases hg : w.cacheGet key .delete with ⟨w', _ | i⟩
      · rw [(cacheGet_none hg).1]; exact h
      · obtain ⟨s, hs, rfl⟩ := cacheGet_some hg
        refine h.evict_around hR ?_
        exact (around_get (K := fun j => j = key) hR hs rfl (h.mono fun _ _ => Or.inl) hX).trans hR
          (around_release hR s (get_keyOf hs))
  | move old_key new_key filename =>
      simp only [perform]
      rcases hg : w.cacheGet old_key .delete with ⟨w', _ | i⟩
      · rw [(cacheGet_none hg).1]; exact h
      · obtain ⟨s, hs, rfl⟩ := cacheGet_some hg
        dsimp only
        rw [exempt_congr (w := w) (by rw [setDentry_files, renameHandles_files]; rfl),
          setDentry_store, renameHandles, setStore_store]
        exact h.move hR hX hs hk new_key _
  | evict key => exact h.evict hR key
  | sync =>
      have hc : w.store.dbSync.1.cache = w.store.cache := dbSync_cache _
      intro j hj hn
      obtain ⟨hm, u, hu, hr⟩ := h j (hc ▸ hj) (by
        rwa [show (w.perform .sync).store = w.store.dbSync.1 from rfl, keyOf_congr hc] at hn)
      refine ⟨by rwa [show (w.perform .sync).store = w.store.dbSync.1 from rfl, mode_congr hc], u,
        ?_, ?_⟩
      · show w.store.dbSync.1.dbGet _ = _
        rw [dbSync_dbGet, show (w.perform .sync).store = w.store.dbSync.1 from rfl,
          keyOf_congr hc, hu]
      · rwa [show (w.perform .sync).store = w.store.dbSync.1 from rfl, value_congr hc]
  | setEnv env => exact h
  | setFaults dbFaults => exact h.congr rfl rfl

/-! ## Along a run -/

/-- The creators of the call act on paths that have no record. -/
def CreatesAbsent (w : World) : Op → Prop
  | .symlink _ path | .makeNode path _ _ | .makeDir path _ =>
      (w.pathLookup path).2.bind w.store.dbGet = none
  | _ => True

instance (w : World) : DecidablePred w.CreatesAbsent := fun op => match op with
  | .symlink _ path | .makeNode path _ _ | .makeDir path _ =>
      inferInstanceAs (Decidable ((w.pathLookup path).2.bind w.store.dbGet = none))
  | .getAttr _ | .openFile _ _ | .read _ _ _ | .write _ _ _ | .fsync _ _ | .release _
  | .truncate _ _ | .readlink _ _ | .unlink _ | .openDir _ | .readDir _ _ | .releaseDir _
  | .removeDir _ | .rename _ _ | .access _ _ | .updateTimens _ _ _ | .chmod _ _ | .chown _ _ _
  | .evict _ | .setEnv _ | .setFaults _ _ => inferInstanceAs (Decidable True)

theorem absent_of_createsAbsent {w : World} {path : Bytes} {key : MetaKey}
    (h : (w.pathLookup path).2.bind w.store.dbGet = none) (hk : (w.pathLookup path).2 = some key) :
    w.store.dbGet key = none := by
  rwa [hk] at h

/-- What a call must meet to keep the table coherent: `Rename`'s batch is written,
and a handle that `ReleaseDir` frees contradicts no entry of the table. -/
def KeepsTable (R : Bytes → Bytes → Prop) (p : Prop) (w : World) : Op → Prop
  | .rename _ _ => w.store.dbFaults = []
  | .releaseDir handle => handle ∈ w.dirs → w.store.FreesSafely R (w.Exempt p) handle
  | _ => True

/-- Edits of records keep `R`. -/
def EditsKeep (R : Bytes → Bytes → Prop) : Prop :=
  ∀ old new, (∃ r : InodeRecord, r.value = old) → Edited old new → R new old

theorem Performs.keepsTable {op : Op} {e : Effect} {w₁ : World} (hp : w.Performs op e)
    (hwf : op.WellFormed) (hl : w.Looked w₁) (ha : w.Accounted) (hr : w.store.Records)
    (hedit : p ∧ w.store.dbFaults = [] ∨ EditsKeep R) (hc : w.CreatesAbsent op)
    (hkeeps : w.KeepsTable R p op) : e.KeepsTable R p w₁ := by
  have hval : ∀ i, w₁.store.value i = w.store.value i := fun i => value_congr hl.cache i
  have hget : ∀ k, w₁.store.dbGet k = w.store.dbGet k := fun k => by
    rw [dbGet, hl.metadb]; rfl
  have hlook : ∀ key old value, w.store.lookup key = some old → Edited old value →
      w₁.store.dbFaults = [] ∨ ∀ old, w₁.store.lookup key = some old → R value old := by
    intro key old value ho he
    rcases hedit with ⟨_, hf⟩ | hedit
    · exact Or.inl (hl.dbFaults.trans hf)
    · refine Or.inr fun old' ho' => ?_
      rw [hl.lookup, ho] at ho'
      obtain rfl := Option.some.inj ho'
      exact hedit old value (hr.all.lookup ho).record he
  cases hp with
  | getAttr hk => exact fun h => by cases h
  | openFail hk => exact openMode_ne_delete _
  | write fd hf he =>
      intro g hg
      rw [hl.files, hf] at hg
      obtain rfl := Option.some.inj hg
      rw [hval]
      rcases hedit with ⟨hp, _⟩ | hedit
      · exact Or.inl hp
      · exact Or.inr (hedit _ _ (hr.all.live _ (Or.inr (ha.pinned_of_file hf))).record (he hwf))
  | truncate hk ho he => exact hlook _ _ _ ho (he hwf)
  | updateTimens hk ho he => exact hlook _ _ _ ho he
  | chmod hk ho he => exact hlook _ _ _ ho he
  | chown hk ho he => exact hlook _ _ _ ho he
  | symlink hk => exact (hget _).trans (absent_of_createsAbsent hc hk)
  | makeNode hk => exact (hget _).trans (absent_of_createsAbsent hc hk)
  | makeDir hk => exact (hget _).trans (absent_of_createsAbsent hc hk)
  | rename ho hn => exact hl.dbFaults.trans hkeeps
  | releaseDir hh =>
      have hs := hkeeps hh
      intro hp1 hnl j hj hkj hnx
      rw [hl.cache] at hp1 hnl hj
      rw [keyOf_congr hl.cache, keyOf_congr hl.cache] at hkj
      rw [exempt_congr hl.files, keyOf_congr hl.cache] at hnx
      rw [mode_congr hl.cache, hval, hval]
      exact hs hp1 hnl j hj hkj hnx
  | _ => trivial

/-- A call that meets the condition keeps the table coherent. -/
theorem table_step (hR : Equivalence R) (ha : w.Accounted) (hr : w.store.Records)
    (h : w.store.Table R (w.Exempt p)) {op : Op} (hwf : op.WellFormed)
    (hedit : p ∧ w.store.dbFaults = [] ∨ EditsKeep R) (hc : w.CreatesAbsent op)
    (hk : w.KeepsTable R p op) :
    (w.step op).1.store.Table R ((w.step op).1.Exempt p) := by
  obtain ⟨w₁, e, hl, _, hp, os, log, _, hu⟩ := w.step_steps op
  have h₁ : w₁.store.Table R (w₁.Exempt p) := by
    rw [exempt_congr hl.files]
    exact h.congr hl.metadb hl.cache
  have ha₁ : w₁.Accounted := ha.congr (by rw [hl.cache]) hl.nextFile hl.files hl.dirs
  have h₂ := perform_table hR ha₁ h₁ e (hp.keepsTable hwf hl ha hr hedit hc hk)
  rw [hu]
  exact h₂.congr rfl rfl

/-- A fresh mount has no table. -/
theorem mount_table (d : Durable) (cfg : MountConfig) (X : MetaKey → ℕ → Prop) :
    (mount d cfg).store.Table R X := fun i hi => by
  rw [(mount_store d cfg).1] at hi
  exact absurd hi List.not_mem_nil

end World

end Tablefs
