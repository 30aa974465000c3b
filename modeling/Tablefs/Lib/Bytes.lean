/-
Byte strings: the order a byte-keyed store iterates in, the little-endian
reading of a machine word, structures laid out field after field, and the two
edits `std::string` is used for, `resize` and `replace`.

Nothing here names a file system. A fixed layout is a list of field widths, and
`packFields`/`unpackFields` are mutually inverse on it; every C structure a
development reads by `reinterpret_cast` is then one application of the two
round-trip lemmas at its own list of widths.
-/
import Mathlib.Data.List.Lex
import Mathlib.Data.List.Basic
import Mathlib.Tactic.Ring
import Mathlib.Tactic.Linarith

set_option autoImplicit false

/-- Bytes are ordered as the numbers they are; the byte-string order a store
compares keys by is then the lexicographic one Mathlib gives lists. -/
instance byteLinearOrder : LinearOrder UInt8 where
  le_refl _ := UInt8.le_refl _
  le_trans _ _ _ := UInt8.le_trans
  le_antisymm _ _ := UInt8.le_antisymm
  lt_iff_le_not_ge a b := by
    simp only [UInt8.le_iff_toNat_le, UInt8.lt_iff_toNat_lt]; omega
  le_total := UInt8.le_total
  toDecidableLE := inferInstance
  toDecidableLT := inferInstance
  min_def _ _ := rfl
  max_def _ _ := rfl

namespace ByteString

/-- A byte string. -/
abbrev Bytes := List UInt8

/-! ## Separators -/

/-- A string has one part in front of its first separator and one behind it. -/
theorem append_cons_inj {α : Type*} {c : α} {xs ys zs ws : List α} (hx : c ∉ xs) (hy : c ∉ ys)
    (h : xs ++ c :: zs = ys ++ c :: ws) : xs = ys ∧ zs = ws := by
  induction xs generalizing ys with
  | nil =>
      cases ys with
      | nil => exact ⟨rfl, (List.cons.inj h).2⟩
      | cons y ys => exact absurd (List.cons.inj h).1 fun he => hy (he ▸ List.mem_cons_self)
  | cons x xs ih =>
      cases ys with
      | nil => exact absurd (List.cons.inj h).1 fun he => hx (he ▸ List.mem_cons_self)
      | cons y ys =>
          obtain ⟨hxy, h⟩ := List.cons.inj h
          obtain ⟨hxs, hzs⟩ := ih (fun hc => hx (List.mem_cons_of_mem x hc))
            (fun hc => hy (List.mem_cons_of_mem y hc)) h
          exact ⟨by rw [hxy, hxs], hzs⟩

/-! ## Little-endian words -/

/-- The `n` low bytes of `x`, least significant first. -/
def leBytes : ℕ → ℕ → Bytes
  | 0, _ => []
  | n + 1, x => UInt8.ofNat (x % 256) :: leBytes n (x / 256)

/-- The number a little-endian byte string spells. -/
def leNat : Bytes → ℕ
  | [] => 0
  | b :: bs => b.toNat + 256 * leNat bs

@[simp] theorem length_leBytes (n x : ℕ) : (leBytes n x).length = n := by
  induction n generalizing x with
  | zero => rfl
  | succ n ih => rw [leBytes, List.length_cons, ih]

theorem leNat_lt (bs : Bytes) : leNat bs < 256 ^ bs.length := by
  induction bs with
  | nil => simp [leNat]
  | cons b bs ih =>
      have hb := b.toNat_lt
      rw [leNat, List.length_cons, pow_succ]
      omega

/-- Writing a word and reading it back loses only what does not fit. -/
theorem leNat_leBytes (n x : ℕ) (hx : x < 256 ^ n) : leNat (leBytes n x) = x := by
  induction n generalizing x with
  | zero =>
      rw [pow_zero] at hx
      rw [leBytes, leNat]; omega
  | succ n ih =>
      have hq : x / 256 < 256 ^ n := by rw [pow_succ] at hx; omega
      have hlow : (UInt8.ofNat (x % 256)).toNat = x % 256 := by
        rw [UInt8.toNat_ofNat']; omega
      rw [leBytes, leNat, ih _ hq, hlow]
      omega

/-- Reading a word and writing it back gives the same bytes. -/
theorem leBytes_leNat (bs : Bytes) : leBytes bs.length (leNat bs) = bs := by
  induction bs with
  | nil => rfl
  | cons b bs ih =>
      have hb := b.toNat_lt
      have hlow : (b.toNat + 256 * leNat bs) % 256 = b.toNat := by omega
      have hhigh : (b.toNat + 256 * leNat bs) / 256 = leNat bs := by omega
      rw [leNat, List.length_cons, leBytes, hlow, hhigh, ih, UInt8.ofNat_toNat]

/-- Two words that fit are equal when their bytes are. -/
theorem leBytes_inj {n x y : ℕ} (hx : x < 256 ^ n) (hy : y < 256 ^ n)
    (h : leBytes n x = leBytes n y) : x = y := by
  rw [← leNat_leBytes n x hx, ← leNat_leBytes n y hy, h]

/-- Two strings of one length are equal when the numbers they spell are. -/
theorem leNat_inj {a b : Bytes} (hlen : a.length = b.length) (h : leNat a = leNat b) : a = b := by
  rw [← leBytes_leNat a, ← leBytes_leNat b, hlen, h]

/-! ## Structures of fixed-width fields -/

/-- The bytes of a structure with the given field widths. -/
def packFields : List ℕ → List ℕ → Bytes
  | w :: ws, x :: xs => leBytes w x ++ packFields ws xs
  | _, _ => []

/-- The fields of a structure read off the front of a byte string. Bytes past
the end of the string read as absent, so a short string gives zeros. -/
def unpackFields : List ℕ → Bytes → List ℕ
  | [], _ => []
  | w :: ws, bs => leNat (bs.take w) :: unpackFields ws (bs.drop w)

@[simp] theorem length_unpackFields (ws : List ℕ) (bs : Bytes) :
    (unpackFields ws bs).length = ws.length := by
  induction ws generalizing bs with
  | nil => rfl
  | cons w ws ih => rw [unpackFields, List.length_cons, ih, List.length_cons]

theorem length_packFields (ws xs : List ℕ) (h : ws.length = xs.length) :
    (packFields ws xs).length = ws.sum := by
  induction ws generalizing xs with
  | nil => simp [packFields]
  | cons w ws ih =>
      cases xs with
      | nil => simp at h
      | cons x xs =>
          rw [packFields, List.length_append, length_leBytes, List.sum_cons,
            ih xs (by simpa using h)]

/-- A structure written and read back is the same structure, whatever follows
it in memory. -/
theorem unpack_pack (ws xs : List ℕ) (rest : Bytes)
    (h : List.Forall₂ (fun w x => x < 256 ^ w) ws xs) :
    unpackFields ws (packFields ws xs ++ rest) = xs := by
  induction h with
  | nil => rfl
  | @cons w x ws xs hx _ ih =>
      rw [packFields, unpackFields, List.append_assoc,
        List.take_left' (length_leBytes w x), List.drop_left' (length_leBytes w x),
        leNat_leBytes w x hx, ih]

/-- What is read fits the width it was read from. -/
theorem unpack_fit (ws : List ℕ) (bs : Bytes) :
    List.Forall₂ (fun w x => x < 256 ^ w) ws (unpackFields ws bs) := by
  induction ws generalizing bs with
  | nil => exact .nil
  | cons w ws ih =>
      have hlen : (bs.take w).length ≤ w := by rw [List.length_take]; omega
      exact .cons ((leNat_lt _).trans_le (Nat.pow_le_pow_right (by omega) hlen)) (ih _)

/-- A structure read and written back is the bytes it was read from. -/
theorem pack_unpack (ws : List ℕ) (bs : Bytes) (h : ws.sum ≤ bs.length) :
    packFields ws (unpackFields ws bs) = bs.take ws.sum := by
  induction ws generalizing bs with
  | nil => simp [packFields]
  | cons w ws ih =>
      rw [List.sum_cons] at h
      have hw : (bs.take w).length = w := by rw [List.length_take]; omega
      have hrest : ws.sum ≤ (bs.drop w).length := by rw [List.length_drop]; omega
      have hword : leBytes w (leNat (bs.take w)) = bs.take w := by
        have := leBytes_leNat (bs.take w)
        rwa [hw] at this
      rw [unpackFields, packFields, hword, ih _ hrest, List.sum_cons, List.take_add]

/-! ## `std::string::resize` and `std::string::replace` -/

/-- `resize(n)`: cut, or pad with NUL bytes. -/
def resize (s : Bytes) (n : ℕ) : Bytes := s.take n ++ List.replicate (n - s.length) 0

/-- `replace(pos, len, buf, size)`: the `len` bytes at `pos`, as far as they
exist, give way to `buf`. -/
def replace (s : Bytes) (pos len : ℕ) (buf : Bytes) : Bytes :=
  s.take pos ++ buf ++ s.drop (pos + len)

@[simp] theorem length_resize (s : Bytes) (n : ℕ) : (resize s n).length = n := by
  rw [resize, List.length_append, List.length_take, List.length_replicate]; omega

@[simp] theorem resize_length (s : Bytes) : resize s s.length = s := by
  simp [resize]

/-- Resizing past a known front resizes what follows it. -/
theorem resize_append (s t : Bytes) (n : ℕ) :
    resize (s ++ t) (s.length + n) = s ++ resize t n := by
  rw [resize, resize, List.take_append, List.take_of_length_le (by omega),
    Nat.add_sub_cancel_left, List.length_append, List.append_assoc, Nat.add_sub_add_left]

/-- Replacing past a known front replaces in what follows it. -/
theorem replace_append (s t buf : Bytes) (pos len : ℕ) :
    replace (s ++ t) (s.length + pos) len buf = s ++ replace t pos len buf := by
  have htake : (s ++ t).take (s.length + pos) = s ++ t.take pos := by
    rw [List.take_append, List.take_of_length_le (by omega), Nat.add_sub_cancel_left]
  have hdrop : (s ++ t).drop (s.length + pos + len) = t.drop (pos + len) := by
    rw [List.drop_append, List.drop_eq_nil_of_le (by omega), List.nil_append]
    congr 1; omega
  rw [replace, replace, htake, hdrop]
  simp only [List.append_assoc]

/-- Replacing exactly the front. -/
theorem replace_front (s t buf : Bytes) (len : ℕ) (h : s.length = len) :
    replace (s ++ t) 0 len buf = buf ++ t := by
  rw [replace, List.take_zero, List.nil_append, Nat.zero_add, List.drop_left' h]

theorem getElem?_resize {s : Bytes} {n i : ℕ} (hs : i < s.length) (hn : i < n) :
    (resize s n)[i]? = s[i]? := by
  rw [resize, List.getElem?_append_left (by rw [List.length_take]; omega),
    List.getElem?_take_of_lt hn]

/-- `buf` over as many bytes at `pos`: it is read inside the range, the string outside. -/
theorem getElem?_replace {s : Bytes} {pos : ℕ} (h : pos ≤ s.length) (buf : Bytes) (i : ℕ) :
    (replace s pos buf.length buf)[i]? =
      if pos ≤ i ∧ i < pos + buf.length then buf[i - pos]? else s[i]? := by
  have hpos : (s.take pos).length = pos := by rw [List.length_take]; omega
  rw [replace, List.append_assoc]
  by_cases hi : i < pos
  · rw [if_neg (by omega), List.getElem?_append_left (by omega), List.getElem?_take_of_lt hi]
  · rw [List.getElem?_append_right (by omega), hpos]
    by_cases hb : i < pos + buf.length
    · rw [if_pos (by omega), List.getElem?_append_left (by omega)]
    · rw [if_neg (by omega), List.getElem?_append_right (by omega), List.getElem?_drop]
      congr 1; omega

/-! ## A plain byte array -/

/-- Writing `buf` at `off` into a byte array: the overlay, with the gap before
it zero-filled. -/
def overlay (s : Bytes) (off : ℕ) (buf : Bytes) : Bytes :=
  (resize s (max off s.length)).take off ++ buf ++ s.drop (off + buf.length)

/-- Reading `size` bytes at `off`, short at the end of the array. -/
def slice (s : Bytes) (off size : ℕ) : Bytes := (s.drop off).take size

theorem overlay_eq_replace (s : Bytes) (off : ℕ) (buf : Bytes) :
    overlay s off buf = replace (resize s (max off s.length)) off buf.length buf := by
  rcases Nat.le_total off s.length with h | h
  · rw [overlay, replace, Nat.max_eq_right h, resize_length]
  · rw [overlay, replace, Nat.max_eq_left h,
      List.drop_eq_nil_of_le (show s.length ≤ off + buf.length by omega),
      List.drop_eq_nil_of_le (by rw [length_resize]; omega)]

@[simp] theorem length_overlay (s : Bytes) (off : ℕ) (buf : Bytes) :
    (overlay s off buf).length = max s.length (off + buf.length) := by
  simp only [overlay, List.length_append, List.length_take, length_resize, List.length_drop]
  omega

/-- The byte a write leaves at index `i`: the written one inside the range, the
old one elsewhere, NUL in a gap. -/
theorem getElem?_overlay (s : Bytes) (off : ℕ) (buf : Bytes) (i : ℕ) :
    (overlay s off buf)[i]? =
      if i < off then (if i < s.length then s[i]? else some 0)
      else if i < off + buf.length then buf[i - off]? else s[i]? := by
  have hfront : ((resize s (max off s.length)).take off).length = off := by
    rw [List.length_take, length_resize]; omega
  rw [overlay, List.append_assoc]
  by_cases hi : i < off
  · rw [if_pos hi, List.getElem?_append_left (by rw [hfront]; exact hi),
      List.getElem?_take_of_lt hi, resize]
    by_cases hs : i < s.length
    · rw [if_pos hs, List.getElem?_append_left (by rw [List.length_take]; omega),
        List.getElem?_take_of_lt (by omega)]
    · rw [if_neg hs, List.getElem?_append_right (by rw [List.length_take]; omega),
        List.length_take, List.getElem?_replicate, if_pos (by omega)]
  · rw [if_neg hi, List.getElem?_append_right (by rw [hfront]; omega), hfront]
    by_cases hb : i < off + buf.length
    · rw [if_pos hb, List.getElem?_append_left (by omega)]
    · rw [if_neg hb, List.getElem?_append_right (by omega), List.getElem?_drop]
      congr 1; omega

/-- A write of no bytes inside the array changes nothing. -/
theorem overlay_nil (s : Bytes) (off : ℕ) (h : off ≤ s.length) : overlay s off [] = s := by
  rw [overlay, Nat.max_eq_right h, resize_length, List.append_nil, List.length_nil,
    Nat.add_zero, List.take_append_drop]

/-- Writing the whole of an array over an array no longer than it. -/
theorem overlay_zero (s buf : Bytes) (h : s.length ≤ buf.length) : overlay s 0 buf = buf := by
  rw [overlay, List.take_zero, List.nil_append, Nat.zero_add, List.drop_eq_nil_of_le h,
    List.append_nil]

/-! ## The order of byte strings -/

section Order

variable {α : Type*} [LinearOrder α]

theorem cons_lt_cons {x y : α} {xs ys : List α} :
    x :: xs < y :: ys ↔ x < y ∨ x = y ∧ xs < ys := List.cons_lt_cons_iff

theorem append_lt_append {p xs ys : List α} : p ++ xs < p ++ ys ↔ xs < ys := by
  induction p with
  | nil => exact Iff.rfl
  | cons x p ih =>
      rw [List.cons_append, List.cons_append, cons_lt_cons, ih]
      simp

/-- What lies between strings with a prefix has the prefix. -/
theorem prefix_of_between {p xs ys zs : List α} (h : ¬ zs < p ++ xs) (h' : zs < p ++ ys) :
    ∃ rest, zs = p ++ rest := by
  induction p generalizing zs with
  | nil => exact ⟨zs, rfl⟩
  | cons x p ih =>
      cases zs with
      | nil => exact absurd (List.nil_lt_cons x (p ++ xs)) h
      | cons z zs =>
          rw [List.cons_append, cons_lt_cons, not_or] at h
          rw [List.cons_append, cons_lt_cons] at h'
          obtain ⟨rfl, hlt⟩ := h'.resolve_left h.1
          obtain ⟨rest, rfl⟩ := ih (fun h' => h.2 ⟨rfl, h'⟩) hlt
          exact ⟨rest, rfl⟩

end Order

/-- No string of a length is below the zeros of that length. -/
theorem not_lt_zeros {bs : Bytes} {n : ℕ} (h : bs.length = n) : ¬ bs < List.replicate n 0 := by
  induction bs generalizing n with
  | nil =>
      subst h
      exact List.not_lt_nil []
  | cons b bs ih =>
      subst h
      rw [List.length_cons, List.replicate_succ, cons_lt_cons]
      rintro (hb | ⟨_, hlt⟩)
      · exact absurd hb (UInt8.not_lt_zero)
      · exact ih rfl hlt

/-- The little-endian words below 1, as strings, are those with a first byte of 0. -/
theorem leBytes_lt_one (n x : ℕ) : leBytes (n + 1) x < leBytes (n + 1) 1 ↔ x % 256 = 0 := by
  have hzero : ∀ m, leBytes m 0 = List.replicate m 0 := by
    intro m
    induction m with
    | zero => rfl
    | succ m ih => rw [leBytes, ih]; rfl
  have hone : leBytes (n + 1) 1 = 1 :: List.replicate n 0 := by
    rw [leBytes, hzero]
    rfl
  rw [hone, leBytes, cons_lt_cons]
  have hbyte : (UInt8.ofNat (x % 256) < 1) ↔ x % 256 = 0 := by
    rw [UInt8.lt_iff_toNat_lt, UInt8.toNat_ofNat']
    show x % 256 % 256 < 1 ↔ _
    omega
  constructor
  · rintro (h | ⟨_, h⟩)
    · exact hbyte.mp h
    · exact absurd h (not_lt_zeros (length_leBytes _ _))
  · intro h
    exact Or.inl (hbyte.mpr h)

end ByteString
