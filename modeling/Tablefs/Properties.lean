/-
`Properties` (`util/properties.cpp`): the options a benchmark runs with, and the file
they are kept in.

`store` writes one line for each entry, `load` reads lines into a buffer of 1024 bytes.
A line that does not fit in the buffer ends the loop, so what `load` makes of a file
is the entries before the first such line, and what is left of that line
(`load_store`).
-/
import Tablefs.Lib.Bytes
import Tablefs.Lib.SortedMap
import Mathlib.Data.List.TakeWhile

set_option autoImplicit false

namespace Tablefs

open ByteString

/-! ## Reading lines -/

/-- `'\n'` -/
def newline : UInt8 := 10

/-- An `ifstream`: the bytes not read yet, and two of its state bits. -/
structure IStream where
  rest : Bytes
  eofbit : Bool
  failbit : Bool
  deriving DecidableEq, Repr

namespace IStream

/-- `ifstream::open` of a file that is there. -/
def openFile (file : Bytes) : IStream := ⟨file, false, false⟩

/-- `is.good()` -/
def good (is : IStream) : Bool := !is.eofbit && !is.failbit

/-- The loop of `istream::getline`, where the buffer has room for `room` bytes more: what
it stores and the stream after it. The end of the file is looked for first, the newline
next, the room last. -/
def getlineLoop : ℕ → Bytes → Bytes × IStream
  | _, [] => ([], ⟨[], true, false⟩)
  | 0, c :: rest => if c = newline then ([], ⟨rest, false, false⟩) else ([], ⟨c :: rest, false, true⟩)
  | room + 1, c :: rest =>
      if c = newline then ([], ⟨rest, false, false⟩)
      else (c :: (getlineLoop room rest).1, (getlineLoop room rest).2)

/-- `is.getline(line, n)` on a good stream. One byte of the buffer is for the NUL; a call
that reads no byte, not even a newline, sets `failbit`. -/
def getline (is : IStream) (n : ℕ) : Bytes × IStream :=
  let (line, is') := getlineLoop (n - 1) is.rest
  (line, { is' with failbit := is'.failbit || is.rest.isEmpty })

theorem getlineLoop_line {line : Bytes} (hl : newline ∉ line) (rest : Bytes) {room : ℕ}
    (hr : line.length ≤ room) :
    getlineLoop room (line ++ newline :: rest) = (line, ⟨rest, false, false⟩) := by
  induction line generalizing room with
  | nil => cases room <;> simp [getlineLoop]
  | cons c line ih =>
      obtain ⟨hc, hl'⟩ := not_or.mp (List.mem_cons.not.mp hl)
      obtain ⟨room, rfl⟩ : ∃ k, room = k + 1 := ⟨room - 1, by simp at hr; omega⟩
      have hr' : line.length ≤ room := by simpa using hr
      rw [List.cons_append, getlineLoop, if_neg (Ne.symm hc), ih hl' hr']

theorem getlineLoop_long {line : Bytes} (hl : newline ∉ line) (rest : Bytes) {room : ℕ}
    (hr : room < line.length) : getlineLoop room (line ++ rest) =
      (line.take room, ⟨line.drop room ++ rest, false, true⟩) := by
  induction line generalizing room with
  | nil => simp at hr
  | cons c line ih =>
      obtain ⟨hc, hl'⟩ := not_or.mp (List.mem_cons.not.mp hl)
      cases room with
      | zero => rw [List.cons_append, getlineLoop, if_neg (Ne.symm hc)]; rfl
      | succ room =>
          have hr' : room < line.length := by simpa using hr
          rw [List.cons_append, getlineLoop, if_neg (Ne.symm hc), ih hl' hr']
          rfl

/-- Every turn of the loop reads something. -/
theorem getlineLoop_rest (room : ℕ) (c : UInt8) (rest : Bytes) :
    (getlineLoop room (c :: rest)).2.rest.length ≤ rest.length ∨
      (getlineLoop room (c :: rest)).2.good = false := by
  induction room generalizing c rest with
  | zero =>
      rw [getlineLoop]
      by_cases hc : c = newline
      · rw [if_pos hc]; exact Or.inl le_rfl
      · rw [if_neg hc]; exact Or.inr rfl
  | succ room ih =>
      rw [getlineLoop]
      by_cases hc : c = newline
      · rw [if_pos hc]; exact Or.inl le_rfl
      · rw [if_neg hc]
        cases rest with
        | nil => cases room <;> exact Or.inl le_rfl
        | cons c' rest => exact (ih c' rest).imp_left fun h => h.trans (Nat.le_succ _)

/-- A good stream after a `getline` has fewer bytes to read. -/
theorem getline_rest {is : IStream} {n : ℕ} (hg : (is.getline n).2.good) :
    (is.getline n).2.rest.length < is.rest.length := by
  obtain ⟨rest, eofbit, failbit⟩ := is
  cases rest with
  | nil => simp [getline, good] at hg
  | cons c rest =>
      rcases getlineLoop_rest (n - 1) c rest with h | h
      · simp only [getline, List.length_cons]
        exact Nat.lt_succ_of_le h
      · simp only [getline, List.isEmpty_cons, Bool.or_false] at hg
        exact absurd hg (by simp [h])

end IStream

/-! ## `Properties` -/

/-- `Properties` -/
@[ext] structure Properties where
  plist : SortedMap Bytes Bytes

namespace Properties

/-- `'='` -/
def equals : UInt8 := 61

/-- `Properties()` -/
def empty : Properties := ⟨SortedMap.empty⟩

/-- `Properties::setProperty` -/
def setProperty (p : Properties) (key value : Bytes) : Properties := ⟨p.plist.put key value⟩

/-- A turn of `load`'s loop, after the `getline`: the C string in the buffer is cut at its
first `'='`. -/
def loadLine (p : Properties) (line : Bytes) : Properties :=
  let s := line.takeWhile (· ≠ 0)
  match s.dropWhile (· ≠ equals) with
  | [] => p
  | _ :: val => p.setProperty (s.takeWhile (· ≠ equals)) val

/-- `while (is.good())`, for `fuel` turns at most. -/
def loadLoop : ℕ → Properties → IStream → Properties
  | 0, p, _ => p
  | fuel + 1, p, is =>
      if is.good then loadLoop fuel (p.loadLine (is.getline 1024).1) (is.getline 1024).2 else p

/-- `Properties::load` of a file with these bytes. -/
def load (p : Properties) (file : Bytes) : Properties :=
  loadLoop (file.length + 1) p (IStream.openFile file)

/-- `os << it->first << '=' << it->second << std::endl` -/
def storeLine (e : Bytes × Bytes) : Bytes := e.1 ++ equals :: e.2 ++ [newline]

/-- `Properties::store`: the bytes of the file. -/
def store (p : Properties) : Bytes := p.plist.entries.flatMap storeLine

theorem loadLoop_good {is : IStream} (hg : is.good) (fuel : ℕ) (p : Properties) :
    loadLoop (fuel + 1) p is =
      loadLoop fuel (p.loadLine (is.getline 1024).1) (is.getline 1024).2 := by
  rw [loadLoop, if_pos hg]

theorem loadLoop_over {is : IStream} (hg : ¬ is.good) (fuel : ℕ) (p : Properties) :
    loadLoop fuel p is = p := by
  cases fuel with
  | zero => rfl
  | succ fuel => rw [loadLoop, if_neg hg]

/-- The file's length is fuel enough: every turn but the last reads a byte. -/
theorem loadLoop_succ {fuel : ℕ} {p : Properties} {is : IStream} (hf : is.rest.length < fuel) :
    loadLoop (fuel + 1) p is = loadLoop fuel p is := by
  induction fuel generalizing p is with
  | zero => omega
  | succ fuel ih =>
      by_cases hg : is.good
      · rw [loadLoop_good hg, loadLoop_good hg]
        by_cases hg' : (is.getline 1024).2.good
        · exact ih (by have := IStream.getline_rest hg'; omega)
        · rw [loadLoop_over hg', loadLoop_over hg']
      · rw [loadLoop_over hg, loadLoop_over hg]

theorem loadLoop_add {fuel : ℕ} {p : Properties} {is : IStream} (hf : is.rest.length < fuel)
    (n : ℕ) : loadLoop (fuel + n) p is = loadLoop fuel p is := by
  induction n with
  | zero => rfl
  | succ n ih => rw [← Nat.add_assoc, loadLoop_succ (by omega), ih]

/-! ## One line -/

/-- What a line of the file may hold: a key and a value that `load` can tell apart. -/
def Plain (e : Bytes × Bytes) : Prop :=
  (equals ∉ e.1 ∧ newline ∉ e.1 ∧ 0 ∉ e.1) ∧ newline ∉ e.2 ∧ 0 ∉ e.2

instance : DecidablePred Plain := fun _ => inferInstanceAs (Decidable (_ ∧ _))

/-- The line without its newline. -/
def text (e : Bytes × Bytes) : Bytes := e.1 ++ equals :: e.2

theorem storeLine_eq (e : Bytes × Bytes) : storeLine e = text e ++ [newline] := by
  simp [storeLine, text]

theorem length_text (e : Bytes × Bytes) : (text e).length = e.1.length + 1 + e.2.length := by
  rw [text, List.length_append, List.length_cons]; omega

theorem Plain.newline_notMem {e : Bytes × Bytes} (h : Plain e) : newline ∉ text e := by
  have hne : newline ≠ equals := by decide
  simp [text, h.1.2.1, h.2.1, hne]

theorem Plain.nul_notMem {e : Bytes × Bytes} (h : Plain e) : 0 ∉ text e := by
  have hne : (0 : UInt8) ≠ equals := by decide
  simp [text, h.1.2.2, h.2.2, hne]

/-- The buffer's text is cut where the key ends. -/
theorem loadLine_split {key val : Bytes} (hk : equals ∉ key) (h0 : 0 ∉ key ++ equals :: val)
    (p : Properties) : p.loadLine (key ++ equals :: val) = p.setProperty key val := by
  have hs : (key ++ equals :: val).takeWhile (· ≠ 0) = key ++ equals :: val := by
    refine List.takeWhile_eq_self_iff.mpr fun c hc => ?_
    rw [decide_eq_true_eq]
    exact fun h => h0 (h ▸ hc)
  have hkey : ∀ c ∈ key, decide (c ≠ equals) = true := fun c hc => by
    rw [decide_eq_true_eq]
    exact fun h => hk (h ▸ hc)
  rw [loadLine, hs, List.dropWhile_append_of_pos hkey, List.takeWhile_append_of_pos hkey]
  simp

/-- A text without `'='` sets nothing. -/
theorem loadLine_key {key : Bytes} (hk : equals ∉ key) (p : Properties) : p.loadLine key = p := by
  have hs : (key.takeWhile (· ≠ 0)).dropWhile (· ≠ equals) = [] := by
    refine List.dropWhile_eq_nil_iff.mpr fun c hc => ?_
    rw [decide_eq_true_eq]
    exact fun h => hk (h ▸ (List.takeWhile_sublist _).subset hc)
  rw [loadLine, hs]

/-- What `load` makes of a line too long for its buffer. -/
def cutLine (p : Properties) (e : Bytes × Bytes) : Properties :=
  if e.1.length < 1023 then p.setProperty e.1 (e.2.take (1022 - e.1.length)) else p

theorem loadLine_cut {e : Bytes × Bytes} (he : Plain e) (p : Properties) :
    p.loadLine ((text e).take 1023) = p.cutLine e := by
  rw [cutLine]
  by_cases hk : e.1.length < 1023
  · have htake : (text e).take 1023 = e.1 ++ equals :: e.2.take (1022 - e.1.length) := by
      have hpos : 1023 - e.1.length = (1022 - e.1.length) + 1 := by omega
      rw [text, List.take_append, List.take_of_length_le (by omega), hpos, List.take_succ_cons]
    have h0 : 0 ∉ e.1 ++ equals :: e.2.take (1022 - e.1.length) := by
      rw [← htake]
      exact fun h => he.nul_notMem (List.mem_of_mem_take h)
    rw [if_pos hk, htake, loadLine_split he.1.1 h0]
  · -- the buffer is full before the key ends
    have htake : (text e).take 1023 = e.1.take 1023 := by
      rw [text, List.take_append, Nat.sub_eq_zero_of_le (by omega), List.take_zero,
        List.append_nil]
    rw [if_neg hk, htake, loadLine_key fun h => he.1.1 (List.mem_of_mem_take h)]

/-! ## The whole file -/

/-- The properties after `load` of a file with these lines. -/
def loaded (p : Properties) : List (Bytes × Bytes) → Properties
  | [] => p
  | e :: es =>
      if (text e).length ≤ 1023 then loaded (p.setProperty e.1 e.2) es else p.cutLine e

theorem loadLoop_lines {es : List (Bytes × Bytes)} (hes : ∀ e ∈ es, Plain e) (p : Properties)
    {fuel : ℕ} (hf : (es.flatMap storeLine).length < fuel) :
    loadLoop fuel p (IStream.openFile (es.flatMap storeLine)) = loaded p es := by
  induction es generalizing p fuel with
  | nil =>
      obtain ⟨fuel, rfl⟩ : ∃ k, fuel = k + 1 := ⟨fuel - 1, by simp at hf; omega⟩
      have hover : ¬ ((IStream.openFile []).getline 1024).2.good := by decide
      have hline : ((IStream.openFile []).getline 1024).1 = [] := rfl
      rw [List.flatMap_nil, loadLoop_good rfl, loadLoop_over hover, hline, loaded]
      rfl
  | cons e es ih =>
      have he := hes e List.mem_cons_self
      have hfile : (e :: es).flatMap storeLine = text e ++ newline :: es.flatMap storeLine := by
        rw [List.flatMap_cons, storeLine_eq, List.append_assoc]; rfl
      rw [hfile, List.length_append, List.length_cons] at hf
      obtain ⟨fuel, rfl⟩ : ∃ k, fuel = k + 1 := ⟨fuel - 1, by omega⟩
      rw [hfile, loadLoop_good rfl, loaded]
      have hne : (text e ++ newline :: es.flatMap storeLine).isEmpty = false := by
        cases text e <;> rfl
      by_cases hlen : (text e).length ≤ 1023
      · have hget : (IStream.openFile (text e ++ newline :: es.flatMap storeLine)).getline 1024 =
            (text e, IStream.openFile (es.flatMap storeLine)) := by
          simp only [IStream.getline, IStream.openFile,
            IStream.getlineLoop_line he.newline_notMem _ hlen, hne, Bool.or_false]
        rw [hget, if_pos hlen, text, loadLine_split he.1.1 he.nul_notMem]
        exact ih (fun e' he' => hes e' (List.mem_cons_of_mem e he')) _ (by omega)
      · have hget : (IStream.openFile (text e ++ newline :: es.flatMap storeLine)).getline 1024 =
            ((text e).take 1023, ⟨(text e).drop 1023 ++ newline :: es.flatMap storeLine,
              false, true⟩) := by
          simp only [IStream.getline, IStream.openFile,
            IStream.getlineLoop_long he.newline_notMem (newline :: es.flatMap storeLine)
              (not_le.mp hlen), hne, Bool.or_false]
        rw [hget, if_neg hlen, loadLine_cut he, loadLoop_over (by simp [IStream.good])]

/-- `load` of what `store` wrote. -/
theorem load_store {p : Properties} (hp : ∀ e ∈ p.plist.entries, Plain e) (q : Properties) :
    q.load p.store = q.loaded p.plist.entries :=
  loadLoop_lines hp q (Nat.lt_succ_self _)

theorem loaded_short {es : List (Bytes × Bytes)} (hes : ∀ e ∈ es, (text e).length ≤ 1023)
    (p : Properties) :
    p.loaded es = ⟨es.foldl (fun m e => m.put e.1 e.2) p.plist⟩ := by
  induction es generalizing p with
  | nil => rfl
  | cons e es ih =>
      rw [loaded, if_pos (hes e List.mem_cons_self),
        ih fun e' he' => hes e' (List.mem_cons_of_mem e he')]
      rfl

/-- A line too long for the buffer loses its entry. -/
theorem loaded_long {es : List (Bytes × Bytes)} (hs : es.Pairwise fun a b => a.1 < b.1)
    (hlong : ∃ e ∈ es, 1023 < (text e).length) {p : Properties}
    (hnew : ∀ e ∈ es, p.plist.get e.1 = none) :
    ∃ e ∈ es, (p.loaded es).plist.get e.1 ≠ some e.2 := by
  induction es generalizing p with
  | nil => obtain ⟨e, he, -⟩ := hlong; simp at he
  | cons e es ih =>
      obtain ⟨hlt, hs'⟩ := List.pairwise_cons.mp hs
      rw [loaded]
      by_cases hlen : (text e).length ≤ 1023
      · rw [if_pos hlen]
        have hlong' : ∃ e' ∈ es, 1023 < (text e').length := by
          obtain ⟨e', he', hl⟩ := hlong
          rcases List.mem_cons.mp he' with rfl | he'
          · omega
          · exact ⟨e', he', hl⟩
        obtain ⟨e', he', hget⟩ := ih hs' hlong' (p := p.setProperty e.1 e.2) fun e' he' => by
          have hne : e.1 ≠ e'.1 := ne_of_lt (hlt e' he')
          exact (p.plist.get_put_of_ne e.2 hne).trans (hnew e' (List.mem_cons_of_mem e he'))
        exact ⟨e', List.mem_cons_of_mem e he', hget⟩
      · rw [if_neg hlen, cutLine]
        refine ⟨e, List.mem_cons_self, ?_⟩
        by_cases hk : e.1.length < 1023
        · rw [if_pos hk, setProperty, SortedMap.get_put_self]
          intro h
          -- the value that was read is shorter than the one written
          have hcut := congrArg List.length (Option.some.inj h)
          rw [List.length_take] at hcut
          rw [length_text] at hlen
          omega
        · rw [if_neg hk, hnew e List.mem_cons_self]
          exact (Option.some_ne_none _).symm

/-- `load` gives back what `store` wrote exactly if every line fits in the buffer. -/
theorem load_store_iff (p : Properties) (hp : ∀ e ∈ p.plist.entries, Plain e) :
    empty.load p.store = p ↔
      ∀ e ∈ p.plist.entries, e.1.length + 1 + e.2.length ≤ 1023 := by
  rw [load_store hp]
  constructor
  · intro hload
    by_contra hno
    obtain ⟨e, he, hlen⟩ : ∃ e ∈ p.plist.entries, 1023 < (text e).length := by
      simpa only [length_text, not_forall, not_le, exists_prop] using hno
    obtain ⟨e', he', hget⟩ :=
      loaded_long p.plist.sorted ⟨e, he, hlen⟩ (p := empty) fun _ _ => rfl
    rw [hload] at hget
    exact hget ((SortedMap.mem_entries_iff _ _ _).mp he')
  · intro hshort
    rw [loaded_short fun e he => (length_text e).trans_le (hshort e he)]
    exact Properties.ext (SortedMap.foldl_put_entries p.plist)

/-- One entry, `a` with a value of 1022 bytes: its line does not fit, and the value comes
back one byte shorter. -/
theorem load_loses_long_value : ¬ ∀ p : Properties, (∀ e ∈ p.plist.entries, Plain e) →
    empty.load p.store = p := by
  intro hall
  let p : Properties := empty.setProperty [97] (List.replicate 1022 98)
  have hplain : ∀ e ∈ p.plist.entries, Plain e := by decide +kernel
  have hget : (empty.load p.store).plist.get [97] = p.plist.get [97] := by rw [hall p hplain]
  revert hget
  decide +kernel

/-- Two short options. -/
theorem load_store_small :
    let p := (empty.setProperty [97] [98, 61]).setProperty [99] []
    (∀ e ∈ p.plist.entries, Plain e) ∧ empty.load p.store = p :=
  ⟨by decide, (load_store_iff _ (by decide)).mpr (by decide)⟩

end Properties

end Tablefs
