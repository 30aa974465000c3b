/-
What each call on one file does to it.

The record of the file is the current one of its key (`Current`), and each lemma says what
the call answers and what it leaves of the record, of the disk file and of the handles
open on it. The calls on the data file do all they are asked to: that is what
`shortIo = false` afterwards stands for.
-/
import Tablefs.CurrentRecord
import Tablefs.Reachable

set_option autoImplicit false

namespace Tablefs

open ByteString

namespace World

open Store

variable {w : World} {key : MetaKey} {r : InodeRecord} {path : Bytes} {fh : ℕ} {f : FileHandle}

/-! ## Parts of the calls -/

theorem setValue_files (w : World) (i : ℕ) (v : Bytes) : (w.setValue i v).files = w.files :=
  setStore_files w _
theorem cacheWriteBack_os (w : World) (i : ℕ) : (w.cacheWriteBack i).os = w.os := setStore_os w _
theorem cacheWriteBack_files (w : World) (i : ℕ) : (w.cacheWriteBack i).files = w.files :=
  setStore_files w _
theorem cacheRelease_os (w : World) (i : ℕ) : (w.cacheRelease i).os = w.os := setStore_os w _
theorem cacheRelease_files (w : World) (i : ℕ) : (w.cacheRelease i).files = w.files :=
  setStore_files w _
theorem unlock_os (w : World) (k : MetaKey) : (w.unlock k).os = w.os := rfl

theorem UpToData.cache {w' : World} (h : w.UpToData w') : w'.store.cache = w.store.cache := by
  obtain ⟨_, _, _, rfl⟩ := h
  rfl

/-- The threshold is fixed. -/
theorem perform_threshold (w : World) (e : Effect) : (w.perform e).threshold_ = w.threshold_ := by
  -- a handle is taken first
  have hget : ∀ {k m w' i}, w.cacheGet k m = (w', some i) → w'.threshold_ = w.threshold_ := by
    intro k m w' i hg
    obtain ⟨s, _, rfl⟩ := cacheGet_some hg
    rfl
  have hnone : ∀ {k m w'}, w.cacheGet k m = (w', none) → w'.threshold_ = w.threshold_ := by
    intro k m w' hg
    rw [(cacheGet_none hg).1]
  cases e with
  | touch key mode =>
      simp only [perform]
      rcases hg : w.cacheGet key mode with ⟨w', _ | i⟩
      · exact hnone hg
      · exact (hget hg :)
  | openFile key flags fd =>
      simp only [perform]
      rcases hg : w.cacheGet key (openMode flags) with ⟨w', _ | i⟩
      · exact hnone hg
      · exact (hget hg :)
  | openDir key =>
      simp only [perform]
      rcases hg : w.cacheGet key .read with ⟨w', _ | i⟩
      · exact hnone hg
      · exact (hget hg :)
  | edit key value =>
      simp only [perform]
      rcases hg : w.cacheGet key .write with ⟨w', _ | i⟩
      · exact hnone hg
      · exact (hget hg :)
  | remove key =>
      simp only [perform]
      rcases hg : w.cacheGet key .delete with ⟨w', _ | i⟩
      · exact hnone hg
      · exact (hget hg :)
  | move old_key new_key filename =>
      simp only [perform]
      rcases hg : w.cacheGet old_key .delete with ⟨w', _ | i⟩
      · exact hnone hg
      · dsimp only
        rw [setDentry_threshold_, renameHandles, setStore_threshold_]
        exact hget hg
  | setFd fh fd =>
      simp only [perform]
      split <;> rfl
  | write fh value fd =>
      simp only [perform]
      split <;> rfl
  | close fh value =>
      simp only [perform]
      split <;> rfl
  | _ => rfl

theorem step_threshold (w : World) (op : Op) : (w.next op).threshold_ = w.threshold_ := by
  obtain ⟨w₁, e, hl, _, _, hu⟩ := w.step_steps op
  rw [next, hu.threshold, perform_threshold, hl.threshold_]

/-- A handle keeps its key. -/
theorem perform_keyOf (w : World) (e : Effect) {j : ℕ} (hj : j < w.store.cache.next) :
    (w.perform e).store.keyOf j = w.store.keyOf j := by
  have hget : ∀ {k m w' i}, w.cacheGet k m = (w', some i) →
      w'.store.keyOf j = w.store.keyOf j := by
    intro k m w' i hg
    obtain ⟨s, hs, rfl⟩ := cacheGet_some hg
    exact get_keyOf_of_lt hs hj
  have hnone : ∀ {k m w'}, w.cacheGet k m = (w', none) → w'.store.keyOf j = w.store.keyOf j := by
    intro k m w' hg
    rw [(cacheGet_none hg).1]
  cases e with
  | touch key mode =>
      simp only [perform]
      rcases hg : w.cacheGet key mode with ⟨w', _ | i⟩
      · exact hnone hg
      · exact (release_keyOf _ _ _).trans (hget hg)
  | openFile key flags fd =>
      simp only [perform]
      rcases hg : w.cacheGet key (openMode flags) with ⟨w', _ | i⟩
      · exact hnone hg
      · exact (hget hg :)
  | openDir key =>
      simp only [perform]
      rcases hg : w.cacheGet key .read with ⟨w', _ | i⟩
      · exact hnone hg
      · exact (hget hg :)
  | edit key value =>
      simp only [perform]
      rcases hg : w.cacheGet key .write with ⟨w', _ | i⟩
      · exact hnone hg
      · refine (release_keyOf _ _ _).trans ((writeBack_keyOf _ _ _).trans ?_)
        exact (hget hg :)
  | remove key =>
      simp only [perform]
      rcases hg : w.cacheGet key .delete with ⟨w', _ | i⟩
      · exact hnone hg
      · refine (evict_keyOf_eq _ _ _).trans ((release_keyOf _ _ _).trans ?_)
        exact (hget hg :)
  | move old_key new_key filename =>
      rcases hg : w.cacheGet old_key .delete with ⟨w', _ | i⟩
      · simp only [perform, hg]
        exact hnone hg
      · obtain ⟨s, hs, _⟩ := cacheGet_some hg
        rw [perform_move_store new_key filename hs]
        exact moved_keyOf hs _ hj
  | setFd fh fd =>
      simp only [perform]
      split <;> rfl
  | write fh value fd =>
      simp only [perform]
      split <;> rfl
  | close fh value =>
      simp only [perform]
      split
      · refine (evict_keyOf_eq _ _ _).trans ((release_keyOf _ _ _).trans ?_)
        exact writeBack_keyOf _ _ _
      · rfl
  | closeDir handle => exact release_keyOf _ _ _
  | evict key => exact evict_keyOf_eq _ _ _
  | sync => exact keyOf_congr (dbSync_cache _) j
  | create key value => exact keyOf_congr (dbPut_cache _ _ _) j
  | _ => rfl

/-- A handle that has no entry does not get one. -/
theorem perform_lru (w : World) (e : Effect) {j : ℕ} (hj : j < w.store.cache.next)
    (hmem : j ∈ (w.perform e).store.cache.lru) : j ∈ w.store.cache.lru := by
  have hget : ∀ {k m w' i}, w.cacheGet k m = (w', some i) → j ∈ w'.store.cache.lru →
      j ∈ w.store.cache.lru := by
    intro k m w' i hg hm
    obtain ⟨s, hs, rfl⟩ := cacheGet_some hg
    rcases get_lru hs hm with h | ⟨_, h⟩
    · exact h
    · omega
  have hnone : ∀ {k m w'}, w.cacheGet k m = (w', none) → j ∈ w'.store.cache.lru →
      j ∈ w.store.cache.lru := by
    intro k m w' hg hm
    rwa [(cacheGet_none hg).1] at hm
  have hrelease : ∀ {s : Store} {i}, j ∈ (s.release i).cache.lru → j ∈ s.cache.lru := by
    intro s i hm
    rwa [release_lru] at hm
  cases e with
  | touch key mode =>
      simp only [perform] at hmem
      rcases hg : w.cacheGet key mode with ⟨w', _ | i⟩
      · rw [hg] at hmem
        exact hnone hg hmem
      · rw [hg] at hmem
        exact hget hg (hrelease hmem)
  | openFile key flags fd =>
      simp only [perform] at hmem
      rcases hg : w.cacheGet key (openMode flags) with ⟨w', _ | i⟩
      · rw [hg] at hmem
        exact hnone hg hmem
      · rw [hg] at hmem
        exact hget hg hmem
  | openDir key =>
      simp only [perform] at hmem
      rcases hg : w.cacheGet key .read with ⟨w', _ | i⟩
      · rw [hg] at hmem
        exact hnone hg hmem
      · rw [hg] at hmem
        exact hget hg hmem
  | edit key value =>
      simp only [perform] at hmem
      rcases hg : w.cacheGet key .write with ⟨w', _ | i⟩
      · rw [hg] at hmem
        exact hnone hg hmem
      · rw [hg] at hmem
        exact hget hg (writeBack_lru (s := w'.store.setValue i value) (hrelease hmem) :)
  | remove key =>
      simp only [perform] at hmem
      rcases hg : w.cacheGet key .delete with ⟨w', _ | i⟩
      · rw [hg] at hmem
        exact hnone hg hmem
      · rw [hg] at hmem
        have hrel := (evict_keyOf _ hmem).2
        exact hget hg (hrelease (s := w'.store) hrel)
  | move old_key new_key filename =>
      rcases hg : w.cacheGet old_key .delete with ⟨w', _ | i⟩
      · simp only [perform, hg] at hmem
        exact hnone hg hmem
      · obtain ⟨s, hs, _⟩ := cacheGet_some hg
        rw [perform_move_store new_key filename hs] at hmem
        rcases (moved_lru hs _ hmem).2 with ⟨h, _⟩ | ⟨h, _⟩
        · omega
        · exact h
  | setFd fh fd =>
      simp only [perform] at hmem
      split at hmem <;> exact hmem
  | write fh value fd =>
      simp only [perform] at hmem
      split at hmem <;> exact hmem
  | close fh value =>
      simp only [perform] at hmem
      split at hmem
      · have hrel := (evict_keyOf _ hmem).2
        exact (writeBack_lru (hrelease hrel) :)
      · exact hmem
  | closeDir handle => exact hrelease hmem
  | evict key => exact (evict_keyOf _ hmem).2
  | sync => exact dbSync_cache _ ▸ hmem
  | create key value => exact dbPut_cache _ _ _ ▸ hmem
  | _ => exact hmem

/-- The handle of an open file is the entry of a key only if it was before. -/
theorem step_entry (ha : w.Accounted) (hf : w.files fh = some f) {op : Op}
    (he : (w.next op).store.Entry key f.handle_) : w.store.Entry key f.handle_ := by
  have hlt : f.handle_ < w.store.cache.next :=
    LruCache.live_lt_next (Or.inr (ha.pinned_of_file hf))
  obtain ⟨w₁, e, hl, _, _, hu⟩ := w.step_steps op
  have hlt₁ : f.handle_ < w₁.store.cache.next := by rwa [hl.cache]
  obtain ⟨hmem, hk⟩ := he
  rw [next, hu.cache] at hmem
  rw [next, keyOf_congr hu.cache, perform_keyOf w₁ e hlt₁, keyOf_congr hl.cache] at hk
  refine ⟨?_, hk⟩
  rw [← hl.cache]
  exact perform_lru w₁ e hlt₁ hmem

/-- The data directory and the open files are as they were. -/
structure SameData (w w' : World) : Prop where
  disk : w'.os.disk = w.os.disk
  fds : w'.os.fds = w.os.fds
  shortIo : w'.os.shortIo = w.os.shortIo
  files : w'.files = w.files

theorem Looked.sameData {w' : World} (h : w.Looked w') : w.SameData w' :=
  ⟨h.disk, h.fds, h.shortIo, h.files⟩

theorem FdOk.sameData {w' : World} (h : w.FdOk r f) (hs : w.SameData w') : w'.FdOk r f :=
  ⟨fun hpos => by rw [hs.disk, fdEntry, hs.fds]; exact h.fd hpos, h.trunc, h.low⟩

/-- `Get` of the current record. -/
theorem cacheGet_current {v : Bytes} (hc : w.store.Current key v) {m : InodeAccessMode}
    (hm : m ≠ .delete) : ∃ s i, w.cacheGet key m = (w.setStore s, some i) ∧
      w.store.get key m = (s, some i) ∧ s.Current key v ∧ s.value i = v := by
  rcases hg : w.cacheGet key m with ⟨w', _ | i⟩
  · have := (cacheGet_none hg).2
    rw [hc.lookup] at this
    cases this
  · obtain ⟨s, hs, rfl⟩ := cacheGet_some hg
    obtain ⟨hcur, hval⟩ := hc.get hm hs
    exact ⟨s, i, rfl, hs, hcur, hval⟩

theorem Looked.current {w' : World} (h : w.Looked w') {v : Bytes} (hc : w.store.Current key v) :
    w'.store.Current key v := hc.congr h.cache h.metadb

theorem UpToData.current {w' : World} (h : w.UpToData w') {v : Bytes}
    (hc : w.store.Current key v) : w'.store.Current key v := by
  obtain ⟨_, _, _, rfl⟩ := h
  exact hc.congr rfl rfl

theorem UpToData.files {w' : World} (h : w.UpToData w') : w'.files = w.files := by
  obtain ⟨_, _, _, rfl⟩ := h
  rfl

theorem UpToData.entry {w' : World} (h : w.UpToData w') {i : ℕ} (hi : w.store.Entry key i) :
    w'.store.Entry key i := hi.congr (by rw [h.cache]) (by rw [h.cache])

theorem Looked.entry {w' : World} (h : w.Looked w') {i : ℕ} (hi : w.store.Entry key i) :
    w'.store.Entry key i := hi.congr (by rw [h.cache]) (by rw [h.cache])

/-! ## `GetAttr` -/

/-- `GetAttr` answers with the stat of the current record. -/
theorem getAttr_current (hk : (w.pathLookup path).2 = some key)
    (hc : w.store.Current key r.value) :
    (w.getAttr path).2 = (0, some r.header.fstat) ∧
      (w.getAttr path).1.store.Current key r.value ∧ w.SameData (w.getAttr path).1 ∧
      ∀ i, w.store.Entry key i → (w.getAttr path).1.store.Entry key i := by
  have hl := w.pathLookup_looked path
  rcases hp : w.pathLookup path with ⟨w₁, o⟩
  rw [hp] at hk hl
  dsimp only at hk
  subst hk
  have hll := hl.trans (looked_readLock w₁ key)
  obtain ⟨s, i, hg, hs, hcur, hval⟩ := cacheGet_current (hll.current hc) (m := .read) (by decide)
  rw [getAttr, hp]
  dsimp only
  rw [hg]
  dsimp only
  refine ⟨?_, ?_, ⟨hll.disk, hll.fds, hll.shortIo, hll.files⟩, ?_⟩
  · rw [setStore_store, hval, r.getAttribute_value]
  · refine (hcur.release ?_).congr rfl rfl
    -- the handle is the entry, or it has been read from the store just now
    rcases get_cases hs with ⟨hf, _⟩ | ⟨_, v, _, rfl, rfl⟩
    · exact Or.inl (Entry.get ⟨LruCache.mem_of_find hf, LruCache.key_of_find hf⟩ hs).2.1
    · exact Or.inr (Or.inr (insertHandle_next _ _ _ _).2.2)
  · intro j hj
    exact (((hll.entry hj).get hs).2.release i).congr rfl rfl

/-! ## `Open` -/

/-- What `Open` does to the file: `i` is its handle, `fd` its descriptor. -/
structure OpensFile (w : World) (key : MetaKey) (r : InodeRecord) (flags : OpenFlags)
    (w' : World) (i : ℕ) (fd : ℤ) : Prop where
  shortIo : w.os.shortIo = false
  current : w'.store.Current key r.value
  keyOf : w'.store.keyOf i = key
  entry : ∀ j, w.store.Entry key j → j = i ∧ w'.store.Entry key i
  first : (∀ j, w.store.cache.pins j = 0) → w'.store.Entry key i
  files : w'.files = Function.update w.files w.nextFile (some ⟨i, flags, fd⟩)
  names : w'.os.disk.names = w.os.disk.names
  fds : ∀ n, w.os.fds n ≠ none → w'.os.fds n = w.os.fds n
  disk : flags.trunc = false → w'.os.disk = w.os.disk
  fdOk : flags.trunc = false → w'.FdOk r ⟨i, flags, fd⟩

theorem openFile_current (hk : (w.pathLookup path).2 = some key)
    (hc : w.store.Current key r.value) (hA : r.Agrees w.threshold_ w.os.disk) {flags : OpenFlags}
    (hok : (w.openFile path flags).1.os.shortIo = false) :
    (w.openFile path flags).2 = (0, some w.nextFile) ∧
      ∃ i fd, w.OpensFile key r flags (w.openFile path flags).1 i fd := by
  have hl := w.pathLookup_looked path
  rcases hp : w.pathLookup path with ⟨w₁, o⟩
  rw [hp] at hk hl
  dsimp only at hk
  subst hk
  have hll := hl.trans (looked_writeLock w₁ key)
  obtain ⟨s, i, hg, hs, hcur, hval⟩ :=
    cacheGet_current (hll.current hc) (m := openMode flags) (openMode_ne_delete flags)
  rw [openFile, hp] at hok ⊢
  dsimp only at hok ⊢
  rw [hg] at hok ⊢
  dsimp only at hok ⊢
  have hval' : ((w₁.writeLock key).setStore s).store.value i = r.value := hval
  rw [iheader_of_value hval'] at hok ⊢
  have hentry : ∀ j, w.store.Entry key j → j = i ∧ s.Entry key i := by
    intro j hj
    obtain ⟨rfl, he⟩ := (hll.entry hj).get hs
    exact ⟨rfl, he⟩
  have hfirst : (∀ j, w.store.cache.pins j = 0) → s.Entry key i := by
    intro hp0
    refine get_entry (fun j => ?_) hs
    rw [hll.cache]
    exact hp0 j
  have hnext : ((w₁.writeLock key).setStore s).nextFile = w.nextFile := hll.nextFile
  have hfiles : ((w₁.writeLock key).setStore s).files = w.files := hll.files
  have hdisk : ((w₁.writeLock key).setStore s).os.disk = w.os.disk := hll.disk
  have hfds : ((w₁.writeLock key).setStore s).os.fds = w.os.fds := hll.fds
  have hshort : ((w₁.writeLock key).setStore s).os.shortIo = w.os.shortIo := hll.shortIo
  have hstore : ((w₁.writeLock key).setStore s).store = s := rfl
  generalize (w₁.writeLock key).setStore s = wa at *
  subst hstore
  cases hA with
  | small hsize hlt hblob hinline hname =>
      rw [if_neg (by rw [hblob]; decide)] at hok ⊢
      refine ⟨by rw [hnext], i, -1, ?_, hcur.congr rfl rfl, (get_keyOf hs :), ?_, ?_, ?_, ?_, ?_,
        ?_, ?_⟩
      · rw [← hshort]
        exact hok
      · intro j hj
        exact ⟨(hentry j hj).1, (hentry j hj).2.congr rfl rfl⟩
      · intro hp0
        exact (hfirst hp0).congr rfl rfl
      · rw [← hfiles, ← hnext]
        rfl
      · rw [← hdisk]
        rfl
      · intro n _
        rw [← hfds]
        rfl
      · intro _
        exact hdisk
      · intro htr
        exact ⟨fun h : (0 : ℤ) ≤ -1 => absurd h (by decide), htr, Int.le_refl _⟩
  | large hsize hlt hblob hinline hname =>
      obtain ⟨file, hfile⟩ := Option.ne_none_iff_exists'.mp hname
      rw [if_pos (by rw [hblob]; decide)] at hok ⊢
      rw [show wa.openDiskFile r.header flags = wa.sysOpen r.path flags true from rfl] at hok ⊢
      have hu := wa.upToData_sysOpen r.path flags true
      rcases wa.sysOpen_cases r.path flags true with ⟨hret, hfail⟩ | ⟨file', ho⟩
      · rw [if_pos (by rw [hret]; decide)] at hok
        exact absurd hok hfail.not_full
      · generalize wa.sysOpen r.path flags true = o at *
        obtain ⟨wo, fd⟩ := o
        obtain ⟨hfd, hnamed, hofds, _, hos, _⟩ := ho
        dsimp only at *
        have hfree := wa.lowestFd_free
        subst hfd
        rw [if_neg (by omega)] at hok ⊢
        cases hnamed with
        | new hn => rw [hdisk, hfile] at hn; cases hn
        | old hn hd =>
            rw [hdisk, hfile] at hn
            obtain rfl := Option.some.inj hn
            have hof : wo.files = w.files := hu.files.trans hfiles
            have hon : wo.nextFile = w.nextFile := by
              obtain ⟨_, _, _, h⟩ := hu
              rw [h]
              exact hnext
            have hnames : wo.os.disk.names = w.os.disk.names := by
              rw [hd, ← hdisk]
              split <;> rfl
            refine ⟨by rw [hon], i, wa.lowestFd, ?_, (hu.current hcur).congr rfl rfl, ?_, ?_, ?_, ?_,
              hnames, ?_, ?_, ?_⟩
            · rw [← hshort, ← hos]
              exact hok
            · show wo.store.keyOf i = key
              rw [keyOf_congr hu.cache]
              exact get_keyOf hs
            · intro j hj
              exact ⟨(hentry j hj).1, (hu.entry (hentry j hj).2).congr rfl rfl⟩
            · intro hp0
              exact (hu.entry (hfirst hp0)).congr rfl rfl
            · rw [← hof, ← hon]
              rfl
            · intro n hn
              show wo.os.fds n = _
              rw [hofds, Function.update_of_ne, hfds]
              rintro rfl
              rw [hfds] at hfree
              exact hn hfree
            · intro htr
              show wo.os.disk = _
              rw [hd, htr, ← hdisk]
              rfl
            · intro htr
              refine ⟨fun _ => ⟨file, ?_, ?_⟩, htr, ?_⟩
              · show wo.os.disk.names r.path = _
                rw [hnames, hfile]
              · show wo.fdEntry wa.lowestFd = _
                rw [fdEntry_natCast, hofds, Function.update_self]
              · show (-1 : ℤ) ≤ wa.lowestFd
                omega

/-! ## `Read` -/

/-- `Read` keeps the record and the disk files, and may give the handle a descriptor. -/
structure ReadsFile (w : World) (fh : ℕ) (f : FileHandle) (r : InodeRecord) (w' : World)
    (fd : ℤ) : Prop where
  shortIo : w.os.shortIo = false
  upTo : (w.setFd fh f fd).UpToData w'
  names : w'.os.disk.names = w.os.disk.names
  fds : ∀ n, w.os.fds n ≠ none → w'.os.fds n = w.os.fds n
  disk : w.FdOk r f → w'.os.disk = w.os.disk
  fdOk : w.FdOk r f → w'.FdOk r { f with fd_ := fd }

theorem read_full (hf : w.files fh = some f) (hv : w.store.value f.handle_ = r.value)
    (hA : r.Agrees w.threshold_ w.os.disk) {size : ℕ} {offset : ℤ} (hoff : 0 ≤ offset)
    (hoff' : offset < 2 ^ 63) (hsize : size < 2 ^ 63) (hT : w.threshold_ < 2 ^ 31)
    (hok : (w.read fh size offset).1.os.shortIo = false) :
    (∃ fd, w.ReadsFile fh f r (w.read fh size offset).1 fd) ∧
      ∀ data, r.Holds w.threshold_ w.os.disk data → w.FdOk r f →
        (w.read fh size offset).2
          = (((slice data offset.toNat size).length : ℤ), slice data offset.toNat size) := by
  unfold read at hok ⊢
  rw [hf] at hok ⊢
  dsimp only at hok ⊢
  obtain ⟨wl, hwl⟩ : ∃ wl, w.readLock (w.store.keyOf f.handle_) = wl := ⟨_, rfl⟩
  have hul : w.UpToData wl := hwl ▸ upToData_readLock _ _
  have hos : wl.os = w.os := by rw [← hwl]; rfl
  have hfl : wl.files fh = some f := by rw [hul.files, hf]
  have hvl : wl.store.value f.handle_ = r.value := by rw [hul.value, hv]
  rw [hwl, iheader_of_value hvl] at hok ⊢
  cases hA with
  | small hle hlt hblob hinline hname =>
      rw [if_neg (by rw [hblob]; decide)] at hok ⊢
      dsimp only at hok ⊢
      refine ⟨⟨f.fd_, ?_, ?_, ?_, ?_, ?_, ?_⟩, ?_⟩
      · rw [← hos]
        exact hok
      · rw [setFd_self hf]
        exact hul.trans (upToData_unlock _ _)
      · rw [← hos]
        rfl
      · intro n _
        rw [← hos]
        rfl
      · intro _
        rw [← hos]
        rfl
      · intro hg
        exact hg.congr (hos ▸ rfl)
      · intro data hdata _
        cases hdata with
        | large file _ _ _ hblob' => rw [hblob] at hblob'; cases hblob'
        | small hle' _ _ _ hinl =>
            subst hinl
            have hstart := r.dataStart_lt
            have hlen := r.length_value
            rw [hvl, sizeT_of_nonneg hoff (by omega),
              r.getInlineData_value _ _ (by omega) (by omega)]
            have hcut : (slice r.inline offset.toNat size).length ≤ r.inline.length := by
              rw [slice, List.length_take, List.length_drop]
              omega
            rw [cInt_of_lt (by omega)]
  | large hle hlt hblob hinline hname =>
      obtain ⟨file, hfile⟩ := Option.ne_none_iff_exists'.mp hname
      rw [if_pos (by rw [hblob]; decide)] at hok ⊢
      have hoke : (wl.ensureFd fh f r.header).1.os.shortIo = false := by
        split at hok
        · exact hok
        · rcases sysPread_cases _ (wl.ensureFd fh f r.header).2 size offset with
            ⟨_, hfail⟩ | hread
          · exact absurd hok hfail.not_full
          · exact hread.shortIo hok
      have he := ensureFd_full hfl (by rw [hos]; exact hfile) hoke
      generalize wl.ensureFd fh f r.header = e at *
      have hnn := he.nonneg
      rw [if_neg (by omega)] at hok ⊢
      dsimp only at hok ⊢
      have hpu := e.1.upToData_sysPread e.2 size offset
      rcases e.1.sysPread_cases e.2 size offset with ⟨_, hfail⟩ | hread
      · exact absurd hok hfail.not_full
      · generalize e.1.sysPread e.2 size offset = p at *
        have hgood : w.FdOk r f → p.1.os.disk = w.os.disk ∧
            e.1.fdEntry e.2 = some ⟨file, f.flags_.acc⟩ := by
          intro hg
          obtain ⟨hd, hfd⟩ := he.good (hg.congr hos)
          exact ⟨by rw [hread.disk, hd, hos], hfd⟩
        refine ⟨⟨e.2, ?_, ?_, ?_, ?_, ?_, ?_⟩, ?_⟩
        · rw [← hos, ← he.shortIo]
          exact hread.shortIo hok
        · exact (((hul.setFd fh f e.2).trans he.upTo).trans hpu).trans (upToData_unlock _ _)
        · show p.1.os.disk.names = _
          rw [hread.disk, he.names, hos]
        · intro n hn
          show p.1.os.fds n = _
          rw [hread.fds, he.keeps n (by rw [hos]; exact hn), hos]
        · exact fun hg => (hgood hg).1
        · intro hg
          refine ⟨fun _ => ⟨file, ?_, ?_⟩, hg.trunc, Int.le_trans (by decide) he.nonneg⟩
          · show p.1.os.disk.names _ = _
            rw [(hgood hg).1]
            exact hfile
          · show p.1.fdEntry e.2 = _
            rw [fdEntry, hread.fds]
            exact (hgood hg).2
        · intro data hdata hg
          cases hdata with
          | small _ _ _ hblob' => rw [hblob] at hblob'; cases hblob'
          | large file' _ _ _ _ _ hfile' hcontent =>
              rw [hfile] at hfile'
              obtain rfl := Option.some.inj hfile'
              obtain ⟨g, hfd, _, hpre, hall⟩ := hread.open_file
              rw [(hgood hg).2] at hfd
              obtain rfl := Option.some.inj hfd
              have hdata : p.2.2 = slice data offset.toNat size := by
                rw [hall hok, ← hread.disk, (hgood hg).1, hcontent]
              have hlt31 := hread.lt
              rw [hdata] at hlt31
              rw [hread.ret_eq, hdata, cInt_of_lt hlt31]

/-! ## `Write` -/

/-- After `Write` through the key's entry its new value is the current one. -/
theorem Writes.current {buf : Bytes} {offset : ℤ} {r' : InodeRecord} {fd : ℤ}
    (hw : w.Writes fh f r buf offset (w.write fh buf offset).1 r' fd) (hf : w.files fh = some f)
    (hc : w.store.Current key r.value) (he : w.store.Entry key f.handle_) :
    (w.write fh buf offset).1.store.Current key r'.value ∧
      ∀ i, w.store.Entry key i → (w.write fh buf offset).1.store.Entry key i := by
  have hval := hw.value
  obtain ⟨e, hp, hu⟩ := w.write_acts fh buf offset
  cases hp with
  | idle =>
      refine ⟨?_, fun i hi => hu.entry hi⟩
      rw [← hval, hu.value]
      simp only [perform]
      rw [hc.entry_value he]
      exact hu.current hc
  | write fd' hf' _ =>
      simp only [perform, hf] at hu
      rw [← hval, hu.value]
      have hself : ∀ v, (((w.setMode f.handle_ .write).setValue f.handle_ v).setFd fh f
          fd').store.value f.handle_ = v := fun v => setValue_value _ _ _
      rw [hself]
      refine ⟨hu.current (current_write he.1 he.2 _), fun i hi => hu.entry (hi.congr rfl rfl)⟩

/-! ## `Release` -/

/-- `Release` sets times, closes the descriptor and takes the entry out of the table. -/
structure ClosesFile (w : World) (key : MetaKey) (fh : ℕ) (f : FileHandle) (r : InodeRecord)
    (w' : World) : Prop where
  current : ∃ s : Stat, s.untimed = r.header.fstat.untimed ∧
    w'.store.Current key (r.setStat s).value
  noEntry : ∀ i, ¬ w'.store.Entry key i
  files : w'.files = Function.update w.files fh none
  disk : w'.os.disk = w.os.disk
  shortIo : w'.os.shortIo = w.os.shortIo
  fds : ∀ n : ℕ, (n : ℤ) ≠ f.fd_ → w'.os.fds n = w.os.fds n

theorem release_current (hf : w.files fh = some f) (hc : w.store.Current key r.value)
    (he : w.store.Entry key f.handle_) (hdb : w.store.dbFaults = []) :
    w.ClosesFile key fh f r (w.release fh).1 ∧
      ((f.fd_ ≠ -1 → w.fdEntry f.fd_ ≠ none) → (w.release fh).2 = 0) := by
  have hu := release_some hf
  have hval := hc.entry_value he
  refine ⟨⟨?_, ?_, ?_, ?_, ?_, ?_⟩, ?_⟩
  · simp only [perform, hf] at hu
    -- the value written back differs in its times at most
    have hclose : ∃ s : Stat, s.untimed = r.header.fstat.untimed ∧
        w.closeValue f.handle_ = (r.setStat s).value ∧
        (w.store.mode f.handle_ ≠ .write → (r.setStat s).value = r.value) := by
      unfold closeValue
      split
      · rename_i hm
        refine ⟨{ r.header.fstat with st_atim_sec := w.env.now, st_mtim_sec := w.env.now }, rfl,
          ?_, fun h => absurd hm h⟩
        rw [hval, r.getAttribute_value, r.updateAttribute_value]
      · exact ⟨r.header.fstat, rfl, hval, fun _ => rfl⟩
    obtain ⟨s, huntimed, hv, hsame⟩ := hclose
    refine ⟨s, huntimed, hu.current ?_⟩
    rw [hv]
    have := hc.close hdb he.1 he.2 hsame
    rw [show w.store.keyOf f.handle_ = key from he.2]
    exact this
  · simp only [perform, hf] at hu
    rintro i ⟨hi, hk⟩
    rw [hu.cache] at hi
    rw [keyOf_congr hu.cache] at hk
    exact (evict_keyOf _ hi).1 (hk.trans he.2.symm)
  · simp only [perform, hf] at hu
    rw [hu.files]
    rfl
  all_goals
    rw [release, hf]
    dsimp only
    generalize hwl : w.writeLock (w.store.keyOf f.handle_) = wl
    have hos : wl.os = w.os := by rw [← hwl]; rfl
    obtain ⟨wt, hwt⟩ : ∃ wt, (if wl.store.mode f.handle_ = .write then
        wl.setValue f.handle_ (updateAttribute (wl.store.value f.handle_)
          { getAttribute (wl.store.value f.handle_) with
            st_atim_sec := wl.env.now, st_mtim_sec := wl.env.now })
      else wl) = wt := ⟨_, rfl⟩
    have host : wt.os = w.os := by
      rw [← hwt, ← hos]
      split <;> rfl
    rw [hwt]
    obtain ⟨hcd, hcs, _, hcf⟩ := wt.sysClose_data f.fd_
  · show (if f.fd_ ≠ -1 then wt.sysClose f.fd_ else (wt, 0)).1.os.disk = _
    split
    · rw [hcd, host]
    · rw [host]
  · show (if f.fd_ ≠ -1 then wt.sysClose f.fd_ else (wt, 0)).1.os.shortIo = _
    split
    · rw [hcs, host]
    · rw [host]
  · intro n hn
    show (if f.fd_ ≠ -1 then wt.sysClose f.fd_ else (wt, 0)).1.os.fds n = _
    split
    · rw [hcf n hn, host]
    · rw [host]
  · intro hopen
    rw [if_neg]
    split
    · rename_i hne
      have hopen' : wt.fdEntry f.fd_ ≠ none := by
        rw [fdEntry, host]
        exact hopen hne
      unfold sysClose
      split
      · rename_i hnone
        exact absurd hnone hopen'
      · exact not_not.mpr rfl
    · exact not_not.mpr rfl

/-! ## `Truncate` -/

/-- What `Truncate` to `n` bytes leaves of the file. -/
structure CutsFile (w : World) (key : MetaKey) (r : InodeRecord) (n : ℕ) (w' : World)
    (r' : InodeRecord) : Prop where
  shortIo : w.os.shortIo = false
  current : w'.store.Current key r'.value
  entry : ∀ i, w.store.Entry key i → w'.store.Entry key i
  files : w'.files = w.files
  resized : w.Resized w' r r' n
  fdOk : ∀ g, w.FdOk r g → (w.threshold_ < r.size → n ≤ w.threshold_ → g.fd_ < 0) →
    w'.FdOk r' g
  holds : ∀ data, r.Holds w.threshold_ w.os.disk data →
    r'.Holds w.threshold_ w'.os.disk (resize data n)

/-- The part of `Truncate` that moves the data edits the handle's record. -/
theorem truncated_editsTo (w : World) (i : ℕ) (n : ℤ) :
    w.EditsTo (0 ≤ n ∧ n < 2 ^ 63) i (w.truncated i n).1 := by
  unfold truncated
  dsimp only
  split
  · exact (truncateData_editsTo w i n).trans (editsTo_setValue fun _ => Edited.withSizeBlob _ _ _)
  · exact truncateData_editsTo w i n

/-- When a record is found, the surroundings are those before the lookup. -/
theorem cacheGet_surroundings {w₁ wa : World} {m : InodeAccessMode} {i : ℕ}
    (hp : w.pathLookup path = (w₁, some key)) (hg : w₁.cacheGet key m = (wa, some i)) :
    wa.os = w.os ∧ wa.threshold_ = w.threshold_ ∧ wa.env = w.env := by
  have hlooked := w.pathLookup_looked path
  have herrno := w.pathLookup_errno path
  rw [if_neg (by rw [hp]; exact Option.some_ne_none key)] at herrno
  rw [hp] at hlooked herrno
  obtain ⟨s, -, rfl⟩ := cacheGet_some hg
  refine ⟨?_, hlooked.threshold_, hlooked.env⟩
  obtain ⟨_, e, _, _, rfl⟩ := hlooked
  -- a lookup sets `errno` only when it fails
  have he : e = w.os.errno := herrno
  rw [he]
  rfl

theorem truncate_some {w₁ wa : World} {i : ℕ} (hp : w.pathLookup path = (w₁, some key))
    (hg : w₁.cacheGet key .write = (wa, some i)) (n : ℤ) :
    (w.truncate path n).1 = ((((wa.writeLock key).truncated i n).1.cacheWriteBack i).cacheRelease
        i).unlock key ∧
      (w.truncate path n).2 = ((wa.writeLock key).truncated i n).2 := by
  rw [truncate, hp]
  dsimp only
  rw [hg]
  exact ⟨rfl, rfl⟩

/-- The rest of `Truncate`, with the record's handle taken. -/
theorem truncated_current (wa : World) {i : ℕ} (hsame : w.SameData wa)
    (hthr : wa.threshold_ = w.threshold_) (hva : wa.store.value i = r.value)
    (hback : ∀ v, (((wa.setValue i v).cacheWriteBack i).cacheRelease i).store.Current key v)
    (hentry : ∀ j, w.store.Entry key j →
      ∀ v, (((wa.setValue i v).cacheWriteBack i).cacheRelease i).store.Entry key j)
    (hA : r.Agrees w.threshold_ w.os.disk) {n : ℕ} (hn : n < 2 ^ 63)
    (hok : (wa.truncated i n).1.os.shortIo = false) :
    (wa.truncated i n).2 = 0 ∧ ∃ r', w.CutsFile key r n
      ((((wa.truncated i n).1.cacheWriteBack i).cacheRelease i).unlock key) r' := by
  have hfull := truncated_full (r := r) hva (by rw [hthr, hsame.disk]; exact hA) hn hok
  have hed := wa.truncated_editsTo i n
  generalize wa.truncated i n = t at *
  obtain ⟨hret, r', ht⟩ := hfull
  obtain ⟨v, _, hu⟩ := hed
  have hv' : v = r'.value := by rw [← ht.value, hu.value, setValue_value]
  subst hv'
  have hu' := ((hu.cacheWriteBack i).cacheRelease i).trans (upToData_unlock _ key)
  -- the write-back does not touch the data directory
  have hos : (((t.1.cacheWriteBack i).cacheRelease i).unlock key).os = t.1.os := by
    rw [unlock_os, cacheRelease_os, cacheWriteBack_os]
  generalize ((t.1.cacheWriteBack i).cacheRelease i).unlock key = wf at *
  refine ⟨hret, r', ?_, hu'.current (hback _), ?_, ?_, ⟨?_, ht.resized.edit, ?_⟩, ?_, ?_⟩
  · rw [← hsame.shortIo]
    exact ht.shortIo
  · intro j hj
    exact hu'.entry (hentry j hj _)
  · rw [hu'.files, cacheRelease_files, cacheWriteBack_files, setValue_files, hsame.files]
  · rw [← hthr, hos]
    exact ht.resized.agrees
  · intro p hne
    rw [← hsame.disk, hos]
    exact ht.resized.others p hne
  · intro g hg hneg
    rw [← hthr] at hneg
    exact (ht.fdOk g (hg.sameData hsame) hneg).congr hos
  · intro data hdata
    rw [← hthr, ← hsame.disk] at hdata
    rw [← hthr, hos]
    exact ht.holds data hdata

theorem truncate_current (hk : (w.pathLookup path).2 = some key)
    (hc : w.store.Current key r.value) (hA : r.Agrees w.threshold_ w.os.disk)
    (hdb : w.store.dbFaults = []) {n : ℕ} (hn : n < 2 ^ 63)
    (hok : (w.truncate path n).1.os.shortIo = false) :
    (w.truncate path n).2 = 0 ∧ ∃ r', w.CutsFile key r n (w.truncate path n).1 r' := by
  have hl := w.pathLookup_looked path
  rcases hp : w.pathLookup path with ⟨w₁, o⟩
  rw [hp] at hk hl
  dsimp only at hk hl
  subst hk
  obtain ⟨s, i, hg, hs, hcur, hval⟩ :=
    cacheGet_current (hl.current hc) (m := .write) (by decide)
  have hdb₁ : w₁.store.dbFaults = [] := hl.dbFaults.trans hdb
  obtain ⟨hfst, hsnd⟩ := truncate_some hp hg n
  rw [hfst, unlock_os, cacheRelease_os, cacheWriteBack_os] at hok
  rw [hfst, hsnd]
  have hlock : ∀ v, ((((w₁.setStore s).setValue i v).cacheWriteBack i).cacheRelease i).UpToData
      (((((w₁.setStore s).writeLock key).setValue i v).cacheWriteBack i).cacheRelease i) := fun v =>
    (((upToData_writeLock (w₁.setStore s) key).setValue i v).cacheWriteBack i).cacheRelease i
  refine truncated_current ((w₁.setStore s).writeLock key)
    ⟨hl.disk, hl.fds, hl.shortIo, hl.files⟩ hl.threshold_ hval ?_ ?_ hA hn hok
  · exact fun v => (hlock v).current (Current.edit hdb₁ hs v)
  · intro j hj v
    obtain ⟨_, he⟩ := Entry.get (hl.entry hj) hs
    have hmode : (s.setValue i v).mode i ≠ .delete := by
      rw [setValue_mode, get_mode_write hs]
      decide
    have hset : (s.setValue i v).Entry key j := he.congr rfl rfl
    exact (hlock v).entry ((hset.writeBack hmode).release i)

/-! ## Attributes -/

/-- A change of attributes is stored at once. -/
theorem editAttribute_current (hk : (w.pathLookup path).2 = some key)
    (hc : w.store.Current key r.value) (hdb : w.store.dbFaults = []) (edit : Stat → Stat)
    (unlocks : Bool) :
    (w.editAttribute path edit unlocks).2 = 0 ∧
      (w.editAttribute path edit unlocks).1.store.Current key
        (r.setStat (edit r.header.fstat)).value ∧
      w.SameData (w.editAttribute path edit unlocks).1 ∧
      ∀ i, w.store.Entry key i → (w.editAttribute path edit unlocks).1.store.Entry key i := by
  have hl := w.pathLookup_looked path
  rcases hp : w.pathLookup path with ⟨w₁, o⟩
  rw [hp] at hk hl
  dsimp only at hk hl
  subst hk
  have hll := hl.trans (looked_writeLock w₁ key)
  obtain ⟨s, i, hg, hs, _, hval⟩ := cacheGet_current (hll.current hc) (m := .write) (by decide)
  rw [editAttribute, hp]
  dsimp only
  rw [hg]
  dsimp only
  rw [setStore_store, hval, r.getAttribute_value, r.updateAttribute_value]
  have hedit := Current.edit (hll.dbFaults.trans hdb) hs (r.setStat (edit r.header.fstat)).value
  -- the lock does not matter
  have hun : ((((((w₁.writeLock key).setStore s).setValue i
      (r.setStat (edit r.header.fstat)).value).cacheWriteBack i).cacheRelease i)).UpToData
      (if unlocks then (((((w₁.writeLock key).setStore s).setValue i
        (r.setStat (edit r.header.fstat)).value).cacheWriteBack i).cacheRelease i).unlock key
      else ((((w₁.writeLock key).setStore s).setValue i
        (r.setStat (edit r.header.fstat)).value).cacheWriteBack i).cacheRelease i) := by
    split
    · exact upToData_unlock _ _
    · exact UpToData.refl _
  refine ⟨rfl, hun.current hedit, ?_, ?_⟩
  · split
    all_goals exact ⟨hll.disk, hll.fds, hll.shortIo, hll.files⟩
  · intro j hj
    obtain ⟨_, he⟩ := Entry.get (hll.entry hj) hs
    have hmode : (s.setValue i (r.setStat (edit r.header.fstat)).value).mode i ≠ .delete := by
      rw [setValue_mode, get_mode_write hs]
      decide
    have hset : (s.setValue i (r.setStat (edit r.header.fstat)).value).Entry key j :=
      he.congr rfl rfl
    exact hun.entry ((hset.writeBack hmode).release i)

/-! ## Evictions -/

/-- The cache drops an entry nobody holds, of this file or another. -/
theorem evictUnpinned_current {v : Bytes} (hc : w.store.Current key v)
    (hdb : w.store.dbFaults = []) (k : MetaKey) :
    (w.evictUnpinned k).store.Current key v ∧ w.SameData (w.evictUnpinned k) ∧
      ∀ i, w.store.Entry key i → 0 < w.store.cache.pins i →
        (w.evictUnpinned k).store.Entry key i := by
  unfold evictUnpinned
  cases hf : w.store.cache.find k with
  | none => exact ⟨hc, ⟨rfl, rfl, rfl, rfl⟩, fun i hi _ => hi⟩
  | some j =>
      dsimp only
      split
      · rename_i hp
        refine ⟨?_, ⟨rfl, rfl, rfl, rfl⟩, ?_⟩
        · refine hc.evict hdb k fun i hi hk => Or.inl ?_
          obtain rfl : i = j := LruCache.eq_of_key hi (LruCache.mem_of_find hf)
            (hk.trans (LruCache.key_of_find hf).symm)
          exact hp
        · intro i hi hpin
          refine hi.evict fun hk => ?_
          -- an entry that is held is not the one dropped
          obtain rfl : i = j := LruCache.eq_of_key hi.1 (LruCache.mem_of_find hf)
            ((hi.2.trans hk.symm).trans (LruCache.key_of_find hf).symm)
          omega
      · exact ⟨hc, ⟨rfl, rfl, rfl, rfl⟩, fun i hi _ => hi⟩

end World

end Tablefs
