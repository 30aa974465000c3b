/-
Inlining.

Small files live in their record, large ones in a disk file, and `Write` and `Truncate`
move them back and forth at the threshold. With one handle at a time, and the calls on the
data file doing all they are asked to, none of this can be seen: every answer is the one
an array of bytes gives, whatever the threshold is (`inlining_transparent`).
-/
import Tablefs.SharedFile

set_option autoImplicit false

namespace Tablefs

open ByteString

/-! ## Files as arrays of bytes -/

/-- The array after a call. -/
def plainNext (data : Bytes) : Op → Bytes
  | .write _ buf offset => overlay data offset.toNat buf
  | .truncate _ n => resize data n.toNat
  | _ => data

/-- What a caller sees of an answer: return value, bytes, and size. -/
structure PlainAnswer where
  ret : ℤ
  data : Bytes
  size : Option ℕ
  deriving DecidableEq

/-- The answer that an array of bytes gives. -/
def plainAnswer (data : Bytes) : Op → PlainAnswer
  | .getAttr _ => ⟨0, [], some data.length⟩
  | .read _ size offset =>
      ⟨(slice data offset.toNat size).length, slice data offset.toNat size, none⟩
  | .write _ buf _ => ⟨buf.length, [], none⟩
  | _ => ⟨0, [], none⟩

/-- The return value, the bytes and the size in an answer. -/
def Seen.plain (a : Seen) : PlainAnswer := ⟨a.ret, a.data, a.stat.map fun s => s.st_size.toNat⟩

/-- The return value, the bytes and the size in an answer. -/
def Output.plain (o : Output) : PlainAnswer :=
  ⟨o.ret, o.data, o.stat.map fun s => s.st_size.toNat⟩

theorem Output.seen_plain (o : Output) : o.seen.plain = o.plain := by
  unfold Output.seen Seen.plain Output.plain
  rw [Option.map_map]
  rfl

/-- A shared file is an array of bytes to those who do not look at its attributes. -/
theorem SharedFile.answer_plain {s : SharedFile} (hs : s.data.length < 2 ^ 63) (op : Op) :
    (s.answer op).plain = plainAnswer s.data op ∧ (s.next op).data = plainNext s.data op := by
  cases op with
  | getAttr path =>
      refine ⟨?_, rfl⟩
      show PlainAnswer.mk 0 [] (some (UInt64.ofNat s.data.length).toNat) = _
      rw [UInt64.toNat_ofNat_of_lt' (Nat.lt_trans hs (by decide))]
      rfl
  | _ => exact ⟨rfl, rfl⟩

namespace World

open Store

variable {w : World} {key : MetaKey} {s : SharedFile} {path : Bytes}

/-! ## One handle at a time -/

/-- A call on the file under `key` when at most one handle is open at a time, and none
during `Truncate`. The cache may drop unpinned entries in between. -/
def SoloCall (key : MetaKey) (w : World) : Op → Prop
  | .getAttr path => (w.pathLookup path).2 = some key
  | .openFile path flags =>
      (w.pathLookup path).2 = some key ∧ flags = O_RDWR ∧ ∀ n, w.files n = none
  | .read fh size offset => size < 2 ^ 63 ∧ 0 ≤ offset ∧ offset < 2 ^ 63 ∧ w.files fh ≠ none
  | .write fh buf offset =>
      buf ≠ [] ∧ 0 ≤ offset ∧ offset + buf.length < 2 ^ 63 ∧ w.files fh ≠ none
  | .release fh => w.files fh ≠ none
  | .truncate path n =>
      0 ≤ n ∧ n < 2 ^ 63 ∧ (w.pathLookup path).2 = some key ∧ ∀ n, w.files n = none
  | .evict _ | .setEnv _ => True
  | .setFaults dbFaults _ => dbFaults = []
  | _ => False

/-- At most one handle is open, and it is the entry of `key`. -/
structure Single (w : World) (key : MetaKey) : Prop where
  entry : ∀ n f, w.files n = some f → w.store.Entry key f.handle_
  one : ∀ n m, w.files n ≠ none → w.files m ≠ none → n = m

/-- The file under `key` is `s`, and nothing is open but one handle on it. -/
structure Solo (w : World) (key : MetaKey) (s : SharedFile) : Prop where
  shared : w.Shared key s
  dirs : w.dirs = []
  single : w.Single key

theorem Solo.onRecord (h : w.Solo key s) {fh : ℕ} (hf : w.files fh ≠ none) :
    w.OnRecord key fh := by
  obtain ⟨f, hf⟩ := Option.ne_none_iff_exists'.mp hf
  exact ⟨f, hf, h.single.entry fh f hf⟩

theorem Solo.onFile (h : w.Solo key s) {op : Op} (hop : w.SoloCall key op) : w.OnFile key op := by
  cases op with
  | openFile => exact hop.1
  | read => exact ⟨hop.1, hop.2.1, hop.2.2.1, h.onRecord hop.2.2.2⟩
  | write => exact ⟨hop.1, hop.2.1, hop.2.2.1, h.onRecord hop.2.2.2⟩
  | release => exact h.onRecord hop
  | truncate => exact ⟨hop.1, hop.2.1, hop.2.2.1⟩
  | chmod | chown | updateTimens => exact hop.elim
  | _ => exact hop

theorem SoloCall.gentle {op : Op} (hop : w.SoloCall key op) : w.Gentle key op := by
  cases op with
  | openFile path flags =>
      show flags.trunc = false
      rw [hop.2.1]
      rfl
  | truncate path n =>
      intro v _ _ _ fh f hf
      rw [hop.2.2.2 fh] at hf
      cases hf
  | _ => trivial

theorem Single.same {w' : World} (h : w.Single key) (hf : w'.files = w.files)
    (he : ∀ n f, w.files n = some f → w.store.Entry key f.handle_ →
      w'.store.Entry key f.handle_) : w'.Single key where
  entry := by
    intro n f hn
    rw [hf] at hn
    exact he n f hn (h.entry n f hn)
  one := by
    rw [hf]
    exact h.one

/-- The handle has a new descriptor. -/
theorem Single.setFd {w' : World} (h : w.Single key) {fh : ℕ} {f : FileHandle}
    (hfh : w.files fh = some f) {fd : ℤ}
    (hf : w'.files = Function.update w.files fh (some { f with fd_ := fd }))
    (he : w.store.Entry key f.handle_ → w'.store.Entry key f.handle_) : w'.Single key := by
  have hopen : ∀ n, w'.files n ≠ none → n = fh := by
    intro n hn
    by_contra hne
    rw [hf, Function.update_of_ne hne] at hn
    exact hne (h.one n fh hn (by rw [hfh]; exact Option.some_ne_none f))
  constructor
  · intro n g hn
    obtain rfl := hopen n (by rw [hn]; exact Option.some_ne_none g)
    rw [hf, Function.update_self] at hn
    obtain rfl := Option.some.inj hn
    exact he (h.entry n f hfh)
  · intro n m hn hm
    rw [hopen n hn, hopen m hm]

/-- Nothing was open, and now a handle is. -/
theorem single_of_update {w' : World} {fh : ℕ} {f : FileHandle} (hnone : ∀ n, w.files n = none)
    (hf : w'.files = Function.update w.files fh (some f)) (he : w'.store.Entry key f.handle_) :
    w'.Single key := by
  have hopen : ∀ n, w'.files n ≠ none → n = fh := by
    intro n hn
    by_contra hne
    rw [hf, Function.update_of_ne hne, hnone n] at hn
    exact hn rfl
  constructor
  · intro n g hn
    obtain rfl := hopen n (by rw [hn]; exact Option.some_ne_none g)
    rw [hf, Function.update_self] at hn
    obtain rfl := Option.some.inj hn
    exact he
  · intro n m hn hm
    rw [hopen n hn, hopen m hm]

theorem single_of_none (h : ∀ n, w.files n = none) : w.Single key where
  entry n f hn := by
    rw [h n] at hn
    cases hn
  one n m hn := absurd (h n) hn

theorem Solo.single_step (h : w.Solo key s) {op : Op} (hop : w.SoloCall key op)
    (hok : w.FullIo op) : (w.next op).Single key := by
  obtain ⟨r, hc, hrest, hH, hd⟩ := h.shared.file
  have hA := hH.agrees
  have hdb := h.shared.dbFaults
  cases op with
  | getAttr path =>
      obtain ⟨_, _, hs, he⟩ := getAttr_current hop hc
      exact h.single.same hs.files fun _ f _ => he f.handle_
  | openFile path flags =>
      obtain ⟨hk, _, hnone⟩ := hop
      obtain ⟨_, i, fd, ho⟩ := openFile_current hk hc hA hok
      -- nothing is pinned, so the table takes the handle
      exact single_of_update hnone ho.files
        (ho.first (h.shared.accounted.pins_zero hnone h.dirs))
  | read fh size offset =>
      obtain ⟨hsize, hoff, hoff', hf⟩ := hop
      obtain ⟨f, hf⟩ := Option.ne_none_iff_exists'.mp hf
      have he := h.single.entry fh f hf
      obtain ⟨⟨fd, hr⟩, _⟩ :=
        read_full hf (hc.entry_value he) hA hoff hoff' hsize h.shared.threshold.2 hok
      exact h.single.setFd hf hr.upTo.files fun he => hr.upTo.entry (he.congr rfl rfl)
  | write fh buf offset =>
      obtain ⟨hbuf, hoff, hlen, hf⟩ := hop
      obtain ⟨f, hf⟩ := Option.ne_none_iff_exists'.mp hf
      have he := h.single.entry fh f hf
      obtain ⟨_, r', fd, hw⟩ :=
        write_full hf (hc.entry_value he) hA h.shared.threshold hoff hlen hbuf hok
      exact h.single.setFd hf hw.files ((hw.current hf hc he).2 _)
  | release fh =>
      obtain ⟨f, hf⟩ := Option.ne_none_iff_exists'.mp (show w.files fh ≠ none from hop)
      obtain ⟨hcl, _⟩ := release_current hf hc (h.single.entry fh f hf) hdb
      -- it was the only one
      refine single_of_none fun n => ?_
      rw [show (w.next (.release fh)).files = _ from hcl.files]
      by_cases hn : n = fh
      · rw [hn, Function.update_self]
      · rw [Function.update_of_ne hn]
        by_contra hopen
        exact hn (h.single.one n fh hopen hop)
  | truncate path n =>
      obtain ⟨hn, hn', hk, hnone⟩ := hop
      obtain ⟨m, rfl⟩ := Int.eq_ofNat_of_zero_le hn
      obtain ⟨_, r', hr⟩ := truncate_current hk hc hA hdb (by omega) hok
      exact h.single.same hr.files fun _ f _ => hr.entry f.handle_
  | evict k =>
      obtain ⟨_, hs, he⟩ := evictUnpinned_current hc hdb k
      exact h.single.same hs.files fun _ f hf hf' =>
        he f.handle_ hf' (h.shared.accounted.pinned_of_file hf)
  | setEnv => exact h.single.same rfl fun _ _ _ he => he
  | setFaults => exact h.single.same rfl fun _ _ _ he => he.congr rfl rfl
  | _ => exact hop.elim

/-- The open directories change in `OpenDir` and `ReleaseDir` only. -/
theorem perform_dirs {e : Effect} (hopen : ∀ k, e ≠ .openDir k) (hclose : ∀ i, e ≠ .closeDir i) :
    (w.perform e).dirs = w.dirs := by
  have hget : ∀ {k m w' i}, w.cacheGet k m = (w', some i) → w'.dirs = w.dirs := by
    intro k m w' i hg
    obtain ⟨s, _, rfl⟩ := cacheGet_some hg
    rfl
  have hnone : ∀ {k m w'}, w.cacheGet k m = (w', none) → w'.dirs = w.dirs := by
    intro k m w' hg
    rw [(cacheGet_none hg).1]
  cases e with
  | openDir k => exact absurd rfl (hopen k)
  | closeDir i => exact absurd rfl (hclose i)
  | touch key mode =>
      simp only [perform]
      rcases hg : w.cacheGet key mode with ⟨w', _ | i⟩
      · exact hnone hg
      · exact (hget hg :)
  | openFile key flags fd =>
      simp only [perform]
      rcases hg : w.cacheGet key (openMode flags) with ⟨w', _ | i⟩
      · exact hnone hg
      · exact (hget hg :)
  | edit key value =>
      simp only [perform]
      rcases hg : w.cacheGet key .write with ⟨w', _ | i⟩
      · exact hnone hg
      · exact (hget hg :)
  | remove key =>
      simp only [perform]
      rcases hg : w.cacheGet key .delete with ⟨w', _ | i⟩
      · exact hnone hg
      · exact (hget hg :)
  | move old_key new_key filename =>
      simp only [perform]
      rcases hg : w.cacheGet old_key .delete with ⟨w', _ | i⟩
      · exact hnone hg
      · unfold renameHandles
        exact (hget hg :)
  | setFd fh fd =>
      simp only [perform]
      split <;> rfl
  | write fh value fd =>
      simp only [perform]
      split <;> rfl
  | close fh value =>
      simp only [perform]
      split <;> rfl
  | _ => rfl

theorem step_dirs {op : Op} (hopen : ∀ path, op ≠ .openDir path)
    (hclose : ∀ handle, op ≠ .releaseDir handle) : (w.next op).dirs = w.dirs := by
  obtain ⟨w₁, e, hl, _, hp, _, _, _, hu⟩ := w.step_steps op
  rw [next, hu]
  show (w₁.perform e).dirs = _
  rw [perform_dirs, hl.dirs]
  · rintro k rfl
    cases hp
    exact hopen _ rfl
  · rintro i rfl
    cases hp
    exact hclose _ rfl

theorem SoloCall.dirs {op : Op} (hop : w.SoloCall key op) : (w.next op).dirs = w.dirs := by
  refine step_dirs ?_ ?_
  · rintro path rfl
    exact hop
  · rintro handle rfl
    exact hop

theorem Solo.step (h : w.Solo key s) {op : Op} (hop : w.SoloCall key op) (hok : w.FullIo op) :
    (w.next op).Solo key (s.next op) ∧ (w.step op).2.seen = s.answer op := by
  obtain ⟨hs, hans⟩ := h.shared.step (h.onFile hop) hop.gentle hok
  exact ⟨⟨hs, hop.dirs.trans h.dirs, h.single_step hop hok⟩, hans⟩

/-! ## Transparency -/

/-- In every run of `Open`, `Read`, `Write`, `GetAttr` and `Release` on a file, from the
making of the file on, with one handle at a time, and of `Truncate` with none: every call
answers as on an array of bytes. -/
theorem inlining_transparent (h : w.Reachable) (hfiles : ∀ n, w.files n = none)
    (hdirs : w.dirs = []) (hdb : w.store.dbFaults = [])
    (hT : 0 ≤ w.threshold_ ∧ w.threshold_ < 2 ^ 31) (hlen : path.length < 2 ^ 31)
    (hk : (w.pathLookup path).2 = some key) (hnew : w.store.lookup key = none)
    (hfile : w.os.disk.names (getDiskFilePath (w.max_inode_num + 1)) = none) (mode : UInt32)
    (dev : UInt64) (ops : List Op)
    (hm : (w.next (.makeNode path mode dev)).forgetIo.Meets
      (fun w op => SoloCall key w op ∧ FullIo w op) ops) :
    Transition.answers next (fun w op => (w.step op).2.plain)
        (w.next (.makeNode path mode dev)).forgetIo ops
      = Transition.answers plainNext plainAnswer [] ops := by
  obtain ⟨r, _, hs, hf⟩ := makeNode_shared h.accounted hdb hT hlen hk hnew hfile mode dev
  have hd : (w.next (.makeNode path mode dev)).dirs = w.dirs :=
    step_dirs (fun _ h => by cases h) (fun _ h => by cases h)
  have hsolo : (w.next (.makeNode path mode dev)).forgetIo.Solo key ⟨r, []⟩ :=
    ⟨hs, hd.trans hdirs, single_of_none fun n => (congrFun hf n).trans (hfiles n)⟩
  refine (Transition.simulates (R := fun w data => ∃ s : SharedFile, Solo w key s ∧ s.data = data)
    ?_ ⟨_, hsolo, rfl⟩ hm).2
  rintro w data op ⟨s, hs, rfl⟩ ⟨hop, hok⟩
  obtain ⟨hs', hans⟩ := hs.step hop hok
  obtain ⟨_, _, _, hH, _⟩ := hs.shared.file
  obtain ⟨hplain, hnext⟩ := SharedFile.answer_plain hH.size.2 op
  refine ⟨⟨_, hs', hnext⟩, ?_⟩
  rw [← Output.seen_plain, hans, hplain]

/-- Six bytes go into a file with a threshold of four, and are read back in part. -/
def growRun : List Op :=
  [.openFile [47, 97] O_RDWR, .write 0 [1, 2] 0, .write 0 [3, 4, 5, 6] 2, .read 0 3 2, .release 0,
    .evict (buildMetaKey [97] 0), .getAttr [47, 97]]

theorem growRun_transparent :
    Transition.answers next (fun w op => (w.step op).2.plain)
        ((mount Durable.empty smallConfig).next (.makeNode [47, 97] 0 0)).forgetIo growRun
      = Transition.answers plainNext plainAnswer [] growRun := by
  have hmount := mount_run_files Durable.empty smallConfig [] (by decide +kernel)
  have hnone := mount_run_files Durable.empty smallConfig [.makeNode [47, 97] 0 0]
    (by decide +kernel)
  refine inlining_transparent (.mount empty_records smallConfig) hmount (by decide +kernel)
    (by decide +kernel) (by decide +kernel) (by decide)
    (show _ = some (buildMetaKey [97] 0) by decide +kernel) (by decide +kernel)
    (by decide +kernel) 0 0 growRun ?_
  exact ⟨⟨⟨by decide +kernel, rfl, hnone⟩, by decide +kernel⟩,
    ⟨⟨by decide, by decide, by decide, by decide +kernel⟩, by decide +kernel⟩,
    ⟨⟨by decide, by decide, by decide, by decide +kernel⟩, by decide +kernel⟩,
    ⟨⟨by decide, by decide, by decide, by decide +kernel⟩, by decide +kernel⟩,
    ⟨(show _ ≠ none by decide +kernel), by decide +kernel⟩, ⟨trivial, by decide +kernel⟩,
    ⟨(show _ = _ by decide +kernel), by decide +kernel⟩, trivial⟩

end World

end Tablefs
