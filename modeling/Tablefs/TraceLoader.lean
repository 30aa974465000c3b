/-
`TraceLoader` (`util/traceloader.cpp`): the paths of a trace file.

The file has a header `n m` and a line `path type` for each of its `n` paths, the `m` files
after the directories. `LoadTrace` reads the lines byte by byte into a buffer and finds path and
type from the line's end. It leaves early where the file ends, but `num_paths` is what the
header says, and so are the bounds that `GetPath`, `GetDirPath` and `GetFilePath` check.
`entries_of_file_iff` says for which files all goes well.
-/
import Tablefs.FileOps
import Tablefs.Properties

set_option autoImplicit false

namespace Tablefs

open ByteString

/-! ## `fscanf` -/

/-- `isspace` -/
def isSpace (c : UInt8) : Bool := c = 32 || (9 ≤ c && c ≤ 13)

/-- `isdigit` -/
def isDigit (c : UInt8) : Bool := 48 ≤ c && c ≤ 57

/-- The number that the digits are. -/
def digitsValue (digits : Bytes) : ℕ := digits.foldl (fun v c => 10 * v + (c.toNat - 48)) 0

/-- The nearest `long`. -/
def clampLong (x : ℤ) : ℤ := max (-2 ^ 63) (min x (2 ^ 63 - 1))

/-- `%ld`: white space, a sign and digits. -/
def scanLong (file : Bytes) : Option (ℤ × Bytes) :=
  let file := file.dropWhile isSpace
  let negative := file.head? = some 45
  let unsigned := if file.head? = some 45 ∨ file.head? = some 43 then file.drop 1 else file
  let digits := unsigned.takeWhile isDigit
  let value := if negative then -(digitsValue digits : ℤ) else digitsValue digits
  if digits = [] then none else some (clampLong value, unsigned.dropWhile isDigit)

/-- The two numbers of the header and what is behind them. -/
def scanHeader (file : Bytes) : Option (ℤ × ℤ × Bytes) := do
  let (num_paths, file) ← scanLong file
  let (num_file_paths, file) ← scanLong file
  pure (num_paths, num_file_paths, file)

/-! ## `LoadTrace` -/

/-- Why `LoadTrace` has no defined result: it leaves its line buffer, or `paths`, or the `int`
that it counts with. -/
inductive Fault
  | lineBuffer
  | paths
  | overflow
  deriving DecidableEq, Repr

/-- The size of `pathname`. -/
def PATHNAME_SIZE : ℕ := 4096

/-- `EOF` in a `char`: what `fgetc` returns at the end of the file, and for this byte. -/
def EOF : UInt8 := 255

/-- The bytes that `fgetc` puts into a buffer with `room` bytes left, and the file after them. -/
def readLine : ℕ → Bytes → Except Fault (Bytes × Bytes)
  | 0, _ => .error .lineBuffer
  | _ + 1, [] => .ok ([EOF], [])
  | room + 1, c :: file =>
      if c = newline ∨ c = EOF then .ok ([c], file)
      else (readLine room file).map fun r => (c :: r.1, r.2)

/-- The path and the type of a line that has three bytes or more: `pathname[len-3]='\0'`, and
the path ends at the first NUL. -/
def lineEntry (line : Bytes) : Bytes × UInt8 :=
  ((line.set (line.length - 3) 0).takeWhile (· ≠ 0), line.getD (line.length - 2) 0)

/-- The turns `i`, `i + 1`, ..., `i + k - 1` of the loop over the lines: what they store. `paths`
has room for `slots` pointers. -/
def loadLines (slots : ℕ) : ℕ → ℕ → Bytes → Except Fault (List (Bytes × UInt8))
  | 0, _, _ => .ok []
  | k + 1, i, file =>
      match readLine PATHNAME_SIZE file with
      | .error e => .error e
      | .ok (line, file) =>
          if line.getLast? = some EOF then .ok []
          else if line.length < 3 then .error .lineBuffer
          else if slots ≤ i then .error .paths
          -- `++i`
          else if i + 1 = 2 ^ 31 then .error .overflow
          else (loadLines slots k (i + 1) file).map (lineEntry line :: ·)

/-- `TraceLoader`. `stored` has what `paths` and `filetypes` were filled with. The rest of what
they point to, if anything, is as `Allocate` returned it. -/
structure TraceLoader where
  stored : List (Bytes × UInt8)
  num_paths : ℕ
  num_dir_paths : ℕ
  num_file_paths : ℕ
  deriving DecidableEq, Repr

namespace TraceLoader

/-- The constructor leaves two of the numbers as they are in memory. -/
def construct (num_dir_paths num_file_paths : ℕ) : TraceLoader :=
  ⟨[], 0, num_dir_paths, num_file_paths⟩

/-- `LoadTrace`, on a file that is there if it could be opened. `Allocate` gets the size of
`paths` as a `size_t`. -/
def loadTrace (t : TraceLoader) (file : Option Bytes) : Except Fault TraceLoader :=
  match file with
  | none => .ok t
  | some file =>
      match scanLong file with
      | none => .ok t
      | some (num_paths, file) =>
          match scanLong file with
          | none => .ok { t with num_paths := sizeT num_paths }
          | some (num_file_paths, file) =>
              let slots := sizeT (sizeT num_paths * 8) / 8
              (loadLines slots (sizeT num_paths) 0 (file.dropWhile isSpace)).map fun stored =>
                { stored
                  num_paths := sizeT num_paths
                  num_dir_paths := sizeT (sizeT num_paths - sizeT num_file_paths)
                  num_file_paths := sizeT num_file_paths }

/-! ## The getters -/

/-- A pointer that a getter returns: NULL, a path that `LoadTrace` stored, or whatever was read
from memory that it did not set. -/
inductive Pointer
  | null
  | path (p : Bytes)
  | wild
  deriving DecidableEq, Repr

/-- `paths[i]` -/
def slot (t : TraceLoader) (i : ℤ) : Pointer :=
  if 0 ≤ i then
    match t.stored[i.toNat]? with
    | some e => .path e.1
    | none => .wild
  else .wild

/-- `GetPath`: the path, and `filetype` if it is one that `LoadTrace` stored. An `int` is compared
with a `size_t`. -/
def getPath (t : TraceLoader) (index : ℤ) : Pointer × Option UInt8 :=
  if sizeT index < t.num_paths then (t.slot index, (t.stored[index.toNat]?).map Prod.snd)
  else (.null, none)

/-- `GetDirPath` -/
def getDirPath (t : TraceLoader) (dindex : ℤ) : Pointer :=
  if 0 ≤ dindex ∧ sizeT dindex < t.num_dir_paths then t.slot dindex else .null

/-- `GetFilePath`. The sum of two `int` may be none. -/
def getFilePath (t : TraceLoader) (findex : ℤ) : Pointer :=
  if 0 ≤ findex ∧ sizeT findex < t.num_file_paths then
    if FitsInt (findex + cInt t.num_dir_paths) then t.slot (findex + cInt t.num_dir_paths)
    else .wild
  else .null

end TraceLoader

/-! ## What should hold -/

/-- The lines of entries: path, blank, type and newline. -/
def linesText : List (Bytes × UInt8) → Bytes
  | [] => []
  | e :: es => e.1 ++ [32, e.2, newline] ++ linesText es

/-- Behind its header, the file has the lines of these entries, `n` in all. -/
structure HasLines (n : ℤ) (rest : Bytes) (es : List (Bytes × UInt8)) : Prop where
  count : (es.length : ℤ) = n
  text : ∃ blanks trailing, rest = blanks ++ newline :: (linesText es ++ trailing) ∧
    newline ∉ blanks ∧ ∀ c ∈ blanks, isSpace c
  paths : ∀ e ∈ es, e.1 ≠ [] ∧ newline ∉ e.1 ∧ e.1.length ≤ 4000
  types : ∀ e ∈ es, e.2 ≠ newline

/-- The `i`-th path, NULL if there is none. -/
def pathAt (es : List (Bytes × UInt8)) (i : ℤ) : TraceLoader.Pointer :=
  match es[i.toNat]? with
  | some e => .path e.1
  | none => .null

/-- The pointer is NULL or the path of a line of the file. -/
def FromLine (file : Bytes) (p : TraceLoader.Pointer) : Prop :=
  p = .null ∨ ∃ front line back, file = front ++ line ++ newline :: back ∧ newline ∉ line ∧
    p = .path (lineEntry (line ++ [newline])).1

namespace TraceLoader

/-- The getters return the entries: all `n`, the first `n - m` and the last `m`. -/
def Returns (t : TraceLoader) (n m : ℤ) (es : List (Bytes × UInt8)) : Prop :=
  ∀ index, FitsInt index →
    t.getPath index =
      (if 0 ≤ index then (pathAt es index, (es[index.toNat]?).map Prod.snd) else (.null, none)) ∧
    t.getDirPath index = (if 0 ≤ index ∧ index < n - m then pathAt es index else .null) ∧
    t.getFilePath index = if 0 ≤ index ∧ index < m then pathAt es (n - m + index) else .null

/-- The getters return NULL or a path of the file. -/
def ReturnsLines (t : TraceLoader) (file : Bytes) : Prop :=
  ∀ index, FitsInt index → FromLine file (t.getPath index).1 ∧
    FromLine file (t.getDirPath index) ∧ FromLine file (t.getFilePath index)

end TraceLoader

/-- `LoadTrace` keeps to its memory, and the getters return the entries of the file if it has
them all and paths of the file if it has not. -/
def EntriesOfFile (t : TraceLoader) (file : Bytes) (n m : ℤ) (rest : Bytes) : Prop :=
  ∃ t', t.loadTrace (some file) = .ok t' ∧
    (∀ es, HasLines n rest es → t'.Returns n m es) ∧
      ((¬ ∃ es, HasLines n rest es) → t'.ReturnsLines file)

/-! ## Lines -/

/-- The file begins with a line that `LoadTrace` reads into its buffer and finds a path and a
type in. -/
structure ReadsLine (file line rest : Bytes) : Prop where
  text : file = line ++ newline :: rest
  newline_notMem : newline ∉ line
  eof_notMem : EOF ∉ line
  two_le : 2 ≤ line.length
  fits : line.length < PATHNAME_SIZE

/-- The file begins with `k` such lines. -/
def Readable : ℕ → Bytes → Prop
  | 0, _ => True
  | k + 1, file => ∃ line rest, ReadsLine file line rest ∧ Readable k rest

theorem readLine_line {line : Bytes} (hl : newline ∉ line) (he : EOF ∉ line) {room : ℕ}
    (hroom : line.length < room) (rest : Bytes) :
    readLine room (line ++ newline :: rest) = .ok (line ++ [newline], rest) := by
  induction line generalizing room with
  | nil =>
      obtain ⟨room, rfl⟩ : ∃ k, room = k + 1 := ⟨room - 1, by simp at hroom; omega⟩
      rw [List.nil_append, readLine, if_pos (Or.inl rfl)]
      rfl
  | cons c line ih =>
      obtain ⟨room, rfl⟩ : ∃ k, room = k + 1 := ⟨room - 1, by omega⟩
      obtain ⟨hcl, hl'⟩ := not_or.mp (List.mem_cons.not.mp hl)
      obtain ⟨hce, he'⟩ := not_or.mp (List.mem_cons.not.mp he)
      have hroom' : line.length < room := by
        rw [List.length_cons] at hroom
        omega
      have hc : ¬(c = newline ∨ c = EOF) := by
        rintro (rfl | rfl)
        · exact hcl rfl
        · exact hce rfl
      rw [List.cons_append, readLine, if_neg hc, ih hl' he' hroom']
      rfl

/-- What is read is a line, or it ends with what is taken for the end of the file. -/
theorem readLine_cases {room : ℕ} {file line rest : Bytes}
    (h : readLine room file = .ok (line, rest)) :
    line.getLast? = some EOF ∨ ∃ l, line = l ++ [newline] ∧ file = l ++ newline :: rest ∧
      newline ∉ l ∧ EOF ∉ l ∧ l.length < room := by
  induction room generalizing file line with
  | zero => cases h
  | succ room ih =>
      cases file with
      | nil =>
          cases h
          exact Or.inl rfl
      | cons c file =>
          rw [readLine] at h
          split at h
          · rename_i hc
            cases h
            rcases hc with rfl | rfl
            · exact Or.inr ⟨[], rfl, rfl, List.not_mem_nil, List.not_mem_nil, Nat.succ_pos _⟩
            · exact Or.inl rfl
          · rename_i hc
            obtain ⟨hcl, hce⟩ := not_or.mp hc
            cases hline : readLine room file with
            | error e =>
                rw [hline] at h
                cases h
            | ok r =>
                rw [hline] at h
                cases h
                rcases ih hline with hlast | ⟨l, hl, rfl, hln, hle, hlen⟩
                · left
                  rw [List.getLast?_cons, hlast]
                  rfl
                · refine Or.inr ⟨c :: l, by rw [hl]; rfl, rfl, ?_, ?_, ?_⟩
                  · exact List.not_mem_cons_of_ne_of_not_mem (Ne.symm hcl) hln
                  · exact List.not_mem_cons_of_ne_of_not_mem (Ne.symm hce) hle
                  · rw [List.length_cons]
                    omega

/-- A turn stores an entry if and only if the file begins with a line that can be read and there
is room for one more. -/
theorem loadLines_cons_iff {slots k i : ℕ} {file : Bytes} {e : Bytes × UInt8}
    {es : List (Bytes × UInt8)} :
    loadLines slots (k + 1) i file = .ok (e :: es) ↔
      ∃ line rest, ReadsLine file line rest ∧ i < slots ∧ i + 1 ≠ 2 ^ 31 ∧
        loadLines slots k (i + 1) rest = .ok es ∧ e = lineEntry (line ++ [newline]) := by
  constructor
  · intro h
    rw [loadLines] at h
    cases hread : readLine PATHNAME_SIZE file with
    | error f =>
        rw [hread] at h
        cases h
    | ok r =>
        obtain ⟨line, rest⟩ := r
        rw [hread] at h
        dsimp only at h
        rcases readLine_cases hread with hlast | ⟨l, rfl, hfile, hln, hle, hlen⟩
        · rw [if_pos hlast] at h
          cases h
        · split at h
          · cases h
          · split at h
            · cases h
            · rename_i hlong
              split at h
              · cases h
              · rename_i hslot
                split at h
                · cases h
                · rename_i hint
                  cases hrest : loadLines slots k (i + 1) rest with
                  | error f =>
                      rw [hrest] at h
                      cases h
                  | ok es' =>
                      rw [hrest] at h
                      cases h
                      rw [List.length_append, List.length_singleton] at hlong
                      refine ⟨l, rest, ⟨hfile, hln, hle, ?_, hlen⟩, ?_, hint, hrest, rfl⟩
                      · omega
                      · omega
  · rintro ⟨line, rest, hl, hslot, hint, hrest, rfl⟩
    have hlast : (line ++ [newline]).getLast? ≠ some EOF := by
      rw [List.getLast?_concat]
      decide
    have htwo := hl.two_le
    rw [loadLines, hl.text, readLine_line hl.newline_notMem hl.eof_notMem hl.fits]
    dsimp only
    rw [if_neg hlast, if_neg, if_neg (not_le.mpr hslot), if_neg hint, hrest]
    · rfl
    · rw [List.length_append, List.length_singleton]
      omega

/-- The loop stores no more than its turns, and counts them with an `int`. -/
theorem loadLines_length {slots k i : ℕ} {file : Bytes} {es : List (Bytes × UInt8)}
    (hi : i < 2 ^ 31) (h : loadLines slots k i file = .ok es) :
    es.length ≤ k ∧ i + es.length < 2 ^ 31 := by
  induction es generalizing k i file with
  | nil => exact ⟨Nat.zero_le k, hi⟩
  | cons e es ih =>
      cases k with
      | zero => cases h
      | succ k =>
          obtain ⟨line, rest, -, -, hint, hrest, -⟩ := loadLines_cons_iff.mp h
          obtain ⟨hk, hlt⟩ := ih (by omega) hrest
          rw [List.length_cons]
          omega

/-- All turns store an entry if and only if there is a line for each, with room for them all. -/
theorem loadLines_all_iff {slots k i : ℕ} {file : Bytes} (hi : i < 2 ^ 31) :
    (∃ es, loadLines slots k i file = .ok es ∧ es.length = k) ↔
      Readable k file ∧ i + k < 2 ^ 31 ∧ (k = 0 ∨ i + k ≤ slots) := by
  induction k generalizing i file with
  | zero => exact iff_of_true ⟨[], rfl, rfl⟩ ⟨trivial, hi, Or.inl rfl⟩
  | succ k ih =>
      constructor
      · rintro ⟨es, hes, hlen⟩
        cases es with
        | nil => cases hlen
        | cons e es =>
            obtain ⟨line, rest, hl, hslot, hint, hrest, -⟩ := loadLines_cons_iff.mp hes
            obtain ⟨hread, hfit, hroom⟩ :=
              (ih (show i + 1 < 2 ^ 31 by omega)).mp ⟨es, hrest, Nat.succ.inj hlen⟩
            refine ⟨⟨line, rest, hl, hread⟩, by omega, ?_⟩
            omega
      · rintro ⟨⟨line, rest, hl, hread⟩, hfit, hroom⟩
        obtain ⟨es, hes, hlen⟩ :=
          (ih (show i + 1 < 2 ^ 31 by omega)).mpr ⟨hread, by omega, by omega⟩
        refine ⟨lineEntry (line ++ [newline]) :: es, ?_, congrArg Nat.succ hlen⟩
        exact loadLines_cons_iff.mpr ⟨line, rest, hl, by omega, by omega, hes, rfl⟩

/-! ## Entries -/

/-- The path is what is in front of the last two bytes, up to the first NUL. -/
theorem lineEntry_path {line : Bytes} (h : 2 ≤ line.length) :
    (lineEntry (line ++ [newline])).1 = (line.take (line.length - 2)).takeWhile (· ≠ 0) := by
  have hpos : (line ++ [newline]).length - 3 = line.length - 2 := by
    rw [List.length_append, List.length_singleton]
    omega
  have hlt : line.length - 2 < (line ++ [newline]).length := by
    rw [List.length_append]
    omega
  rw [lineEntry, hpos, List.set_eq_take_append_cons_drop, if_pos hlt,
    List.take_append_of_le_length (Nat.sub_le _ _), List.takeWhile_append]
  split
  · -- no NUL in front of the one that was put there
    rename_i hall
    rw [List.takeWhile_cons_of_neg (by decide), List.append_nil]
    exact ((List.takeWhile_prefix _).eq_of_length hall).symm
  · rfl

theorem lineEntry_path_front {line : Bytes} (h : 2 ≤ line.length) :
    (lineEntry (line ++ [newline])).1 <+: line := by
  rw [lineEntry_path h]
  exact (List.takeWhile_prefix _).trans (List.take_prefix _ _)

theorem nul_notMem_lineEntry (line : Bytes) : 0 ∉ (lineEntry line).1 := by
  intro h
  have := List.mem_takeWhile_imp h
  exact absurd this (by decide)

/-- The line of an entry gives the entry back, if its path has no NUL. -/
theorem lineEntry_line {e : Bytes × UInt8} (hnul : 0 ∉ e.1) :
    lineEntry (e.1 ++ [32, e.2] ++ [newline]) = e := by
  have htwo : 2 ≤ (e.1 ++ [32, e.2]).length := by
    rw [List.length_append]
    exact Nat.le_add_left 2 _
  have hlen : (e.1 ++ [32, e.2]).length - 2 = e.1.length := by
    rw [List.length_append]
    exact Nat.add_sub_cancel _ 2
  refine Prod.ext ?_ ?_
  · rw [lineEntry_path htwo, hlen, List.take_left, List.takeWhile_eq_self_iff.mpr]
    intro c hc
    exact decide_eq_true fun h => hnul (h ▸ hc)
  · simp [lineEntry]

/-- Each entry comes from a line of the file. -/
theorem loadLines_fromLine {slots k i : ℕ} {file : Bytes} {es : List (Bytes × UInt8)}
    (h : loadLines slots k i file = .ok es) :
    ∀ e ∈ es, 0 ∉ e.1 ∧ ∃ front line back, file = front ++ line ++ newline :: back ∧
      newline ∉ line ∧ e = lineEntry (line ++ [newline]) := by
  induction es generalizing k i file with
  | nil => exact fun e he => absurd he List.not_mem_nil
  | cons e es ih =>
      cases k with
      | zero => cases h
      | succ k =>
          obtain ⟨line, rest, hl, -, -, hrest, rfl⟩ := loadLines_cons_iff.mp h
          intro e' he'
          rcases List.mem_cons.mp he' with rfl | he'
          · exact ⟨nul_notMem_lineEntry _, [], line, rest, hl.text, hl.newline_notMem, rfl⟩
          · obtain ⟨hnul, front, line', back, rfl, hline'⟩ := ih hrest e' he'
            refine ⟨hnul, line ++ newline :: front, line', back, ?_, hline'⟩
            rw [hl.text]
            simp

/-- The first entry's path is in front of the file. -/
theorem loadLines_head_prefix {slots k i : ℕ} {file : Bytes} {e : Bytes × UInt8}
    {es : List (Bytes × UInt8)} (h : loadLines slots k i file = .ok (e :: es)) : e.1 <+: file := by
  cases k with
  | zero => cases h
  | succ k =>
      obtain ⟨line, rest, hl, -, -, -, rfl⟩ := loadLines_cons_iff.mp h
      rw [hl.text]
      exact (lineEntry_path_front hl.two_le).trans (List.prefix_append _ _)

theorem linesText_cons (e : Bytes × UInt8) (es : List (Bytes × UInt8)) (trailing : Bytes) :
    linesText (e :: es) ++ trailing =
      (e.1 ++ [32, e.2]) ++ newline :: (linesText es ++ trailing) := by
  simp [linesText]

theorem mem_linesText {es : List (Bytes × UInt8)} {e : Bytes × UInt8} (he : e ∈ es) {c : UInt8}
    (hc : c ∈ e.1) : c ∈ linesText es := by
  induction es with
  | nil => exact absurd he List.not_mem_nil
  | cons e' es ih =>
      rw [linesText, List.append_assoc]
      rcases List.mem_cons.mp he with rfl | he
      · exact List.mem_append_left _ hc
      · exact List.mem_append_right _ (List.mem_append_right _ (ih he))

/-- From the lines of entries, the loop that stores as many stores these. -/
theorem loadLines_linesText {slots k i : ℕ} {es es' : List (Bytes × UInt8)} {trailing : Bytes}
    (hes : ∀ e ∈ es, newline ∉ e.1 ∧ e.2 ≠ newline ∧ 0 ∉ e.1)
    (h : loadLines slots k i (linesText es ++ trailing) = .ok es')
    (hlen : es'.length = es.length) : es' = es := by
  induction es generalizing k i es' with
  | nil => exact List.length_eq_zero_iff.mp hlen
  | cons e es ih =>
      cases es' with
      | nil => cases hlen
      | cons e' es' =>
          cases k with
          | zero => cases h
          | succ k =>
              obtain ⟨line, rest, hl, -, -, hrest, rfl⟩ := loadLines_cons_iff.mp h
              obtain ⟨hpath, htype, hnul⟩ := hes e List.mem_cons_self
              have hnotMem : newline ∉ e.1 ++ [32, e.2] := by
                intro hmem
                rcases List.mem_append.mp hmem with hmem | hmem
                · exact hpath hmem
                · rcases List.mem_pair.mp hmem with h32 | hty
                  · exact absurd h32 (by decide)
                  · exact htype hty.symm
              have htext := hl.text
              rw [linesText_cons] at htext
              obtain ⟨rfl, rfl⟩ := append_cons_inj hnotMem hl.newline_notMem htext
              rw [lineEntry_line hnul,
                ih (fun e he => hes e (List.mem_cons_of_mem _ he)) hrest (Nat.succ.inj hlen)]

/-! ## The header -/

theorem scanLong_range {file rest : Bytes} {x : ℤ} (h : scanLong file = some (x, rest)) :
    -2 ^ 63 ≤ x ∧ x < 2 ^ 63 := by
  have hclamp : ∀ y : ℤ, -2 ^ 63 ≤ clampLong y ∧ clampLong y < 2 ^ 63 := by
    intro y
    rw [clampLong]
    omega
  simp only [scanLong, Option.ite_none_left_eq_some, Option.some.injEq, Prod.mk.injEq] at h
  obtain ⟨-, rfl, -⟩ := h
  exact hclamp _

theorem scanLong_suffix {file rest : Bytes} {x : ℤ} (h : scanLong file = some (x, rest)) :
    rest <:+ file := by
  simp only [scanLong, Option.ite_none_left_eq_some, Option.some.injEq, Prod.mk.injEq] at h
  obtain ⟨-, -, rfl⟩ := h
  refine (List.dropWhile_suffix _).trans ?_
  split
  · exact (List.drop_suffix _ _).trans (List.dropWhile_suffix _)
  · exact List.dropWhile_suffix _

theorem scanHeader_eq_some {file rest : Bytes} {n m : ℤ}
    (h : scanHeader file = some (n, m, rest)) :
    ∃ file', scanLong file = some (n, file') ∧ scanLong file' = some (m, rest) := by
  rw [scanHeader] at h
  cases hn : scanLong file with
  | none =>
      rw [hn] at h
      cases h
  | some r =>
      obtain ⟨n', file'⟩ := r
      rw [hn] at h
      cases hm : scanLong file' with
      | none => simp [hm] at h
      | some r' =>
          obtain ⟨m', rest'⟩ := r'
          simp only [Option.bind_eq_bind, Option.bind_some, hm, Option.pure_def,
            Option.some.injEq, Prod.mk.injEq] at h
          obtain ⟨rfl, rfl, rfl⟩ := h
          exact ⟨file', rfl, hm⟩

/-- The lines are at the end of the file. -/
theorem header_suffix {file rest : Bytes} {n m : ℤ} (h : scanHeader file = some (n, m, rest)) :
    rest.dropWhile isSpace <:+ file := by
  obtain ⟨file', hn, hm⟩ := scanHeader_eq_some h
  exact (List.dropWhile_suffix _).trans ((scanLong_suffix hm).trans (scanLong_suffix hn))

namespace TraceLoader

/-- What `LoadTrace` makes of the header's numbers and the entries. -/
def loaded (n m : ℤ) (stored : List (Bytes × UInt8)) : TraceLoader :=
  ⟨stored, sizeT n, sizeT (sizeT n - sizeT m), sizeT m⟩

theorem loadTrace_eq (t : TraceLoader) {file rest : Bytes} {n m : ℤ}
    (h : scanHeader file = some (n, m, rest)) :
    t.loadTrace (some file) =
      (loadLines (sizeT (sizeT n * 8) / 8) (sizeT n) 0 (rest.dropWhile isSpace)).map
        (loaded n m) := by
  obtain ⟨file', hn, hm⟩ := scanHeader_eq_some h
  rw [loadTrace]
  dsimp only
  rw [hn]
  dsimp only
  rw [hm]
  rfl

/-- A load that is well defined stores what the loop does. -/
theorem loadTrace_eq_ok {t t' : TraceLoader} {file rest : Bytes} {n m : ℤ}
    (h : scanHeader file = some (n, m, rest)) (ht : t.loadTrace (some file) = .ok t') :
    ∃ stored, loadLines (sizeT (sizeT n * 8) / 8) (sizeT n) 0 (rest.dropWhile isSpace) =
      .ok stored ∧ t' = loaded n m stored := by
  rw [loadTrace_eq t h] at ht
  cases hl : loadLines (sizeT (sizeT n * 8) / 8) (sizeT n) 0 (rest.dropWhile isSpace) with
  | error e =>
      rw [hl] at ht
      cases ht
  | ok stored =>
      rw [hl] at ht
      exact ⟨stored, rfl, (Except.ok.inj ht).symm⟩

/-! ## The getters -/

section Full

variable {n m : ℤ} {stored : List (Bytes × UInt8)}

/-- A slot that is filled has the path that is there. -/
theorem slot_of_lt {t : TraceLoader} {i : ℤ} (h0 : 0 ≤ i) (hi : i < t.stored.length) :
    t.slot i = pathAt t.stored i := by
  have hlt : i.toNat < t.stored.length := by omega
  rw [slot, if_pos h0, pathAt, List.getElem?_eq_getElem hlt]

/-- A slot that is not is read nevertheless. -/
theorem slot_of_le {t : TraceLoader} {i : ℤ} (hi : t.stored.length ≤ i) : t.slot i = .wild := by
  have hge : t.stored.length ≤ i.toNat := by omega
  rw [slot, if_pos (by omega), List.getElem?_eq_none hge]

theorem pathAt_of_le {es : List (Bytes × UInt8)} {i : ℤ} (hi : es.length ≤ i) :
    pathAt es i = .null := by
  have hge : es.length ≤ i.toNat := by omega
  rw [pathAt, List.getElem?_eq_none hge]

theorem pathAt_ne_wild (es : List (Bytes × UInt8)) (i : ℤ) : pathAt es i ≠ .wild := by
  rw [pathAt]
  split
  · exact nofun
  · exact nofun

/-- An `int` and a bound that is one compare as `size_t` do, but for the sign. -/
theorem sizeT_lt_iff {index : ℤ} (h : FitsInt index) {bound : ℕ} (hb : bound < 2 ^ 31) :
    sizeT index < bound ↔ 0 ≤ index ∧ index < bound := by
  have hlow := h.1
  have hhigh := h.2
  rw [sizeT]
  omega

/-- With all entries stored and sensible numbers, the getters return the entries. -/
theorem returns_stored {t : TraceLoader} (hpaths : (t.num_paths : ℤ) = n)
    (hdirs : (t.num_dir_paths : ℤ) = n - m) (hfiles : (t.num_file_paths : ℤ) = m)
    (hlen : (t.stored.length : ℤ) = n) (hn : n < 2 ^ 31) : t.Returns n m t.stored := by
  intro index hindex
  refine ⟨?_, ?_, ?_⟩
  · have hcond := sizeT_lt_iff hindex (show t.num_paths < 2 ^ 31 by omega)
    rw [getPath]
    by_cases h0 : 0 ≤ index
    · rw [if_pos h0]
      by_cases hlt : index < n
      · rw [if_pos (hcond.mpr ⟨h0, by omega⟩), slot_of_lt h0 (by omega)]
      · have hge : t.stored.length ≤ index.toNat := by omega
        rw [if_neg (fun h => hlt (by have := (hcond.mp h).2; omega)), pathAt_of_le (by omega),
          List.getElem?_eq_none hge]
        rfl
    · -- a negative index is a large `size_t`
      rw [if_neg h0, if_neg fun h => h0 (hcond.mp h).1]
  · have hcond : (0 ≤ index ∧ sizeT index < t.num_dir_paths) ↔ 0 ≤ index ∧ index < n - m := by
      rw [sizeT_lt_iff hindex (show t.num_dir_paths < 2 ^ 31 by omega)]
      omega
    rw [getDirPath]
    by_cases hin : 0 ≤ index ∧ index < n - m
    · rw [if_pos hin, if_pos (hcond.mpr hin), slot_of_lt hin.1 (by omega)]
    · rw [if_neg hin, if_neg fun h => hin (hcond.mp h)]
  · have hcond : (0 ≤ index ∧ sizeT index < t.num_file_paths) ↔ 0 ≤ index ∧ index < m := by
      rw [sizeT_lt_iff hindex (show t.num_file_paths < 2 ^ 31 by omega)]
      omega
    have hcInt : cInt t.num_dir_paths = n - m := by
      rw [cInt_of_fits ⟨by omega, by omega⟩, hdirs]
    rw [getFilePath, hcInt, Int.add_comm index]
    by_cases hin : 0 ≤ index ∧ index < m
    · have hfits : FitsInt (n - m + index) := ⟨by omega, by omega⟩
      rw [if_pos hin, if_pos (hcond.mpr hin), if_pos hfits, slot_of_lt (by omega) (by omega)]
    · rw [if_neg hin, if_neg fun h => hin (hcond.mp h)]

theorem pathAt_fromLine {file : Bytes}
    (hes : ∀ e ∈ stored, ∃ front line back, file = front ++ line ++ newline :: back ∧
      newline ∉ line ∧ e = lineEntry (line ++ [newline])) (i : ℤ) :
    FromLine file (pathAt stored i) := by
  rw [pathAt]
  split
  · rename_i e he
    obtain ⟨front, line, back, hfile, hline, rfl⟩ := hes e (List.mem_of_getElem? he)
    exact Or.inr ⟨front, line, back, hfile, hline, rfl⟩
  · exact Or.inl rfl

/-- What the getters return of entries that come from lines, comes from lines. -/
theorem Returns.lines {t : TraceLoader} (h : t.Returns n m stored) {file : Bytes}
    (hes : ∀ e ∈ stored, ∃ front line back, file = front ++ line ++ newline :: back ∧
      newline ∉ line ∧ e = lineEntry (line ++ [newline])) : t.ReturnsLines file := by
  intro index hindex
  obtain ⟨hpath, hdir, hfilePath⟩ := h index hindex
  rw [hpath, hdir, hfilePath]
  refine ⟨?_, ?_, ?_⟩
  · split
    · exact pathAt_fromLine hes index
    · exact Or.inl rfl
  · split
    · exact pathAt_fromLine hes index
    · exact Or.inl rfl
  · split
    · exact pathAt_fromLine hes _
    · exact Or.inl rfl

theorem ne_wild_of_fromLine {file : Bytes} {p : Pointer} (h : FromLine file p) : p ≠ .wild := by
  rcases h with rfl | ⟨_, _, _, _, _, rfl⟩
  · exact nofun
  · exact nofun

/-- Sensible numbers in the header are what `LoadTrace` keeps. -/
theorem loaded_numbers (stored : List (Bytes × UInt8)) (hm : 0 ≤ m) (hle : m ≤ n)
    (hn : n < 2 ^ 31) : ((loaded n m stored).num_paths : ℤ) = n ∧
      ((loaded n m stored).num_dir_paths : ℤ) = n - m ∧
      ((loaded n m stored).num_file_paths : ℤ) = m := by
  rw [loaded]
  dsimp only
  rw [sizeT, sizeT, sizeT]
  omega

end Full

/-! ## The entries of the file -/

/-- Where the getters do what they should, none of them reads memory that is not set. -/
theorem getters_ne_wild {t : TraceLoader} {file rest : Bytes} {n m : ℤ}
    (h : EntriesOfFile t file n m rest) :
    ∃ t', t.loadTrace (some file) = .ok t' ∧ ∀ index, FitsInt index →
      (t'.getPath index).1 ≠ .wild ∧ t'.getDirPath index ≠ .wild := by
  obtain ⟨t', hload, hlines, hother⟩ := h
  refine ⟨t', hload, fun index hindex => ?_⟩
  by_cases hes : ∃ es, HasLines n rest es
  · obtain ⟨es, hes⟩ := hes
    obtain ⟨hpath, hdir, -⟩ := hlines es hes index hindex
    rw [hpath, hdir]
    constructor
    · split
      · exact pathAt_ne_wild es index
      · exact nofun
    · split
      · exact pathAt_ne_wild es index
      · exact nofun
  · obtain ⟨hpath, hdir, -⟩ := hother hes index hindex
    exact ⟨ne_wild_of_fromLine hpath, ne_wild_of_fromLine hdir⟩

/-- Then the header's numbers are sensible, and the file has a line for each path. -/
theorem numbers_of_entries {t : TraceLoader} {file rest : Bytes} {n m : ℤ}
    (hheader : scanHeader file = some (n, m, rest)) (h : EntriesOfFile t file n m rest) :
    0 ≤ m ∧ n < 2 ^ 31 ∧ Readable n.toNat (rest.dropWhile isSpace) := by
  obtain ⟨t', hload, hwild⟩ := getters_ne_wild h
  obtain ⟨stored, hstored, rfl⟩ := loadTrace_eq_ok hheader hload
  obtain ⟨hmost, hint⟩ := loadLines_length (by decide) hstored
  obtain ⟨file', hn, hm⟩ := scanHeader_eq_some hheader
  obtain ⟨hnlow, hnhigh⟩ := scanLong_range hn
  obtain ⟨hmlow, hmhigh⟩ := scanLong_range hm
  -- the first slot that is not filled would be read
  have hall : stored.length = sizeT n := by
    by_contra hne
    have hlt : stored.length < sizeT n := lt_of_le_of_ne hmost hne
    have hfits : FitsInt (stored.length : ℤ) := ⟨by omega, by omega⟩
    have hsize : sizeT (stored.length : ℤ) < (loaded n m stored).num_paths := by
      rw [loaded, sizeT]
      dsimp only
      omega
    refine (hwild stored.length hfits).1 ?_
    rw [getPath, if_pos hsize]
    exact slot_of_le le_rfl
  have hn0 : n = stored.length := by
    rw [sizeT] at hall
    omega
  have hm0 : 0 ≤ m := by
    by_contra hneg
    have hfits : FitsInt n := ⟨by omega, by omega⟩
    have hdirs : sizeT n < (loaded n m stored).num_dir_paths := by
      rw [loaded]
      dsimp only
      rw [sizeT, sizeT, sizeT]
      omega
    refine (hwild n hfits).2 ?_
    rw [getDirPath, if_pos ⟨by omega, hdirs⟩]
    exact slot_of_le hn0.ge
  have hread := (loadLines_all_iff (by decide)).mp ⟨stored, hstored, hall⟩
  refine ⟨hm0, by omega, ?_⟩
  rw [hn0, Int.toNat_natCast, hall]
  exact hread.1

/-- With sensible numbers and a line for each path, all entries are stored. -/
theorem load_of_readable (t : TraceLoader) {file rest : Bytes} {n m : ℤ}
    (hheader : scanHeader file = some (n, m, rest)) (hm : 0 ≤ m) (hle : m ≤ n)
    (hn : n < 2 ^ 31) (hread : Readable n.toNat (rest.dropWhile isSpace)) :
    ∃ stored slots, loadLines slots n.toNat 0 (rest.dropWhile isSpace) = .ok stored ∧
      (stored.length : ℤ) = n ∧ t.loadTrace (some file) = .ok (loaded n m stored) := by
  have hsize : sizeT n = n.toNat := by
    rw [sizeT]
    omega
  have hslots : sizeT (sizeT n * 8) / 8 = n.toNat := by
    rw [hsize, sizeT]
    omega
  have hall : ∃ stored, loadLines n.toNat n.toNat 0 (rest.dropWhile isSpace) = .ok stored ∧
      stored.length = n.toNat :=
    (loadLines_all_iff (by decide)).mpr ⟨hread, by omega, Or.inr (by omega)⟩
  obtain ⟨stored, hstored, hlen⟩ := hall
  refine ⟨stored, n.toNat, hstored, by omega, ?_⟩
  rw [loadTrace_eq t hheader, hslots, hsize, hstored]
  rfl

/-- What is behind the header's white space. -/
theorem dropWhile_of_hasLines {n : ℤ} {rest : Bytes} {es : List (Bytes × UInt8)}
    (h : HasLines n rest es) : ∃ trailing,
      rest.dropWhile isSpace = (linesText es ++ trailing).dropWhile isSpace := by
  obtain ⟨blanks, trailing, rfl, -, hblanks⟩ := h.text
  refine ⟨trailing, ?_⟩
  rw [List.dropWhile_append_of_pos hblanks, List.dropWhile_cons_of_pos (by decide)]

end TraceLoader

/-- The paths are C strings, and the first of them does not begin with white space. -/
structure PlainPaths (es : List (Bytes × UInt8)) : Prop where
  nul_notMem : ∀ e ∈ es, 0 ∉ e.1
  not_space : ∀ e ∈ es.head?, ∀ c ∈ e.1.head?, isSpace c = false

namespace TraceLoader

/-- Only such paths are returned. -/
theorem plain_of_returns {t : TraceLoader} {slots k : ℕ} {file : Bytes} {n m : ℤ}
    {es : List (Bytes × UInt8)}
    (hload : loadLines slots k 0 (file.dropWhile isSpace) = .ok t.stored)
    (hlen : (t.stored.length : ℤ) = t.num_paths) (hsize : t.num_paths < 2 ^ 31)
    (hes : HasLines n file es) (hcount : n = t.num_paths) (h : t.Returns n m es) :
    PlainPaths es := by
  have hsame : ∀ (i : ℕ) (e : Bytes × UInt8), es[i]? = some e →
      ∃ e' : Bytes × UInt8, t.stored[i]? = some e' ∧ e'.1 = e.1 := by
    intro i e he
    have hi : i < es.length := (List.getElem?_eq_some_iff.mp he).1
    have hint : (i : ℤ) < t.num_paths := by
      have := hes.count
      omega
    have hfits : FitsInt (i : ℤ) := ⟨by omega, by omega⟩
    have hpath := (h i hfits).1
    have hlt : i < t.stored.length := by omega
    have hcond : sizeT (i : ℤ) < t.num_paths := by
      rw [sizeT]
      omega
    rw [getPath, if_pos hcond, if_pos (by omega), slot_of_lt (by omega) (by omega)] at hpath
    have hptr := congrArg Prod.fst hpath
    simp only [pathAt, Int.toNat_natCast, he, List.getElem?_eq_getElem hlt] at hptr
    exact ⟨t.stored[i], List.getElem?_eq_getElem hlt, Pointer.path.inj hptr⟩
  constructor
  · intro e he
    obtain ⟨i, hi⟩ := List.getElem?_of_mem he
    obtain ⟨e', he', hpath⟩ := hsame i e hi
    rw [← hpath]
    exact (loadLines_fromLine hload e' (List.mem_of_getElem? he')).1
  · intro e he c hc
    rw [List.head?_eq_getElem?] at he
    obtain ⟨e', he', hpath⟩ := hsame 0 e he
    -- the path is in front of a file that does not begin with white space
    cases hstored : t.stored with
    | nil =>
        rw [hstored] at he'
        cases he'
    | cons e₀ es₀ =>
        rw [hstored] at he' hload
        obtain rfl : e₀ = e' := Option.some.inj he'
        have hprefix := loadLines_head_prefix hload
        rw [hpath] at hprefix
        obtain ⟨back, hback⟩ := hprefix
        have hhead := List.head?_dropWhile_not isSpace file
        have hfirst : (file.dropWhile isSpace).head? = some c := by
          rw [← hback, List.head?_append_of_ne_nil, hc]
          rintro hnil
          rw [hnil] at hc
          cases hc
        rw [hfirst] at hhead
        exact hhead

/-- Such paths are stored as they are in the file. -/
theorem stored_of_plain {slots k : ℕ} {file : Bytes} {n : ℤ} {es stored : List (Bytes × UInt8)}
    (hes : HasLines n file es) (hplain : PlainPaths es)
    (hload : loadLines slots k 0 (file.dropWhile isSpace) = .ok stored)
    (hlen : (stored.length : ℤ) = n) : stored = es := by
  have hcount := hes.count
  obtain ⟨trailing, hdrop⟩ := dropWhile_of_hasLines hes
  have hkeep : (linesText es ++ trailing).dropWhile isSpace = linesText es ++ trailing ∨
      es = [] := by
    cases es with
    | nil => exact Or.inr rfl
    | cons e es =>
        left
        obtain ⟨c, path, hpath⟩ := List.exists_cons_of_ne_nil (hes.paths e List.mem_cons_self).1
        have hc : isSpace c = false := hplain.not_space e rfl c (by rw [hpath]; rfl)
        rw [linesText_cons, hpath, List.cons_append, List.cons_append,
          List.dropWhile_cons_of_neg (by rw [hc]; decide)]
  rcases hkeep with hkeep | rfl
  · rw [hdrop, hkeep] at hload
    apply loadLines_linesText ?_ hload (by omega)
    intro e he
    exact ⟨(hes.paths e he).2.1, hes.types e he, hplain.nul_notMem e he⟩
  · apply List.length_eq_zero_iff.mp
    rw [List.length_nil] at hcount
    omega

/-- For a header `n m` with `m ≤ n`, the getters return the entries of the file, and paths of the
file if it has not all, exactly when the numbers are sensible, there is a line that can be read
for each path, and the file's paths are plain. -/
theorem entries_of_file_iff (t : TraceLoader) (file rest : Bytes) (n m : ℤ)
    (hheader : scanHeader file = some (n, m, rest)) (hle : m ≤ n) :
    EntriesOfFile t file n m rest ↔
      0 ≤ m ∧ n < 2 ^ 31 ∧ Readable n.toNat (rest.dropWhile isSpace) ∧
        ∀ es, HasLines n rest es → PlainPaths es := by
  constructor
  · intro h
    obtain ⟨hm, hn, hread⟩ := numbers_of_entries hheader h
    refine ⟨hm, hn, hread, fun es hes => ?_⟩
    obtain ⟨stored, slots, hload, hlen, hok⟩ := load_of_readable t hheader hm hle hn hread
    obtain ⟨t', ht', hlines, -⟩ := h
    obtain rfl : t' = loaded n m stored := Except.ok.inj (ht'.symm.trans hok)
    have hnum := (loaded_numbers stored hm hle hn).1
    exact plain_of_returns hload (hlen.trans hnum.symm) (by omega) hes hnum.symm (hlines es hes)
  · rintro ⟨hm, hn, hread, hplain⟩
    obtain ⟨stored, slots, hload, hlen, hok⟩ := load_of_readable t hheader hm hle hn hread
    obtain ⟨hpaths, hdirs, hfiles⟩ := loaded_numbers stored hm hle hn
    have hreturns : (loaded n m stored).Returns n m stored :=
      returns_stored hpaths hdirs hfiles hlen hn
    refine ⟨loaded n m stored, hok, fun es hes => ?_, fun _ => hreturns.lines fun e he => ?_⟩
    · rw [← stored_of_plain hes (hplain es hes) hload hlen]
      exact hreturns
    · obtain ⟨front, line, back, htext, hline⟩ := (loadLines_fromLine hload e he).2
      obtain ⟨header, hheader⟩ := header_suffix hheader
      refine ⟨header ++ front, line, back, ?_, hline⟩
      rw [← hheader, htext]
      simp

/-- A file without a NUL, and with no white space behind the header's newline, has plain paths. -/
theorem plain_of_hasLines {n : ℤ} {text : Bytes} {es : List (Bytes × UInt8)}
    (h : HasLines n (newline :: text) es) (hnul : 0 ∉ text)
    (hspace : ∀ c ∈ text.head?, isSpace c = false) : PlainPaths es := by
  obtain ⟨blanks, trailing, htext, hblanks, -⟩ := h.text
  have hlines : text = linesText es ++ trailing := by
    cases blanks with
    | nil => exact (List.cons.inj htext).2
    | cons c blanks => exact absurd (List.cons.inj htext).1 (List.ne_of_not_mem_cons hblanks)
  constructor
  · intro e he h0
    exact hnul (hlines ▸ List.mem_append_left _ (mem_linesText he h0))
  · intro e he c hc
    apply hspace
    cases es with
    | nil => cases he
    | cons e₀ es =>
        obtain rfl : e₀ = e := Option.some.inj he
        rw [hlines, linesText_cons, List.append_assoc, List.head?_append_of_ne_nil, hc]
        · rfl
        · rintro hnil
          rw [hnil] at hc
          cases hc

/-- The file `2 1`, `/a d`, `/b f`. -/
theorem entries_of_two :
    EntriesOfFile (construct 0 0) [50, 32, 49, 10, 47, 97, 32, 100, 10, 47, 98, 32, 102, 10] 2 1
      [10, 47, 97, 32, 100, 10, 47, 98, 32, 102, 10] := by
  refine (entries_of_file_iff _ _ _ 2 1 (by decide) (by decide)).mpr
    ⟨by decide, by decide, ?_, fun es hes => plain_of_hasLines hes (by decide) ?_⟩
  · refine ⟨[47, 97, 32, 100], [47, 98, 32, 102, 10], ⟨rfl, ?_, ?_, ?_, ?_⟩,
      [47, 98, 32, 102], [], ⟨rfl, ?_, ?_, ?_, ?_⟩, trivial⟩
    all_goals decide
  · intro c hc
    obtain rfl : 47 = c := Option.some.inj hc
    rfl

/-- The header says that there is one path, and the file ends: `GetPath(0)` returns what
`Allocate` left in `paths`. -/
theorem entries_missing :
    ¬ ∀ (t : TraceLoader) (file rest : Bytes) (n m : ℤ),
      scanHeader file = some (n, m, rest) → m ≤ n → EntriesOfFile t file n m rest := by
  intro hall
  have h := hall (construct 0 0) [49, 32, 48, 10] [10] 1 0 (by decide) (by decide)
  obtain ⟨t', hload, hwild⟩ := getters_ne_wild h
  have hok : (construct 0 0).loadTrace (some [49, 32, 48, 10]) = .ok ⟨[], 1, 1, 0⟩ := by rfl
  obtain rfl : t' = ⟨[], 1, 1, 0⟩ := Except.ok.inj (hload.symm.trans hok)
  exact (hwild 0 (by decide)).1 (by decide)

end TraceLoader

end Tablefs
