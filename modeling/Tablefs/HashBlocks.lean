/-
`murmur64` on strings that differ in one block.

The loop takes a string eight bytes at a time, and every step of it is a bijection of the
hash for a fixed block, and of the block for a fixed hash. So two strings of one length that
agree outside one aligned block of eight bytes never collide, and neither do two that agree
outside the last `len % 8` bytes (`one_block_apart`). The bytes at index `j` belong to block
`j / 8`; the bytes after the whole blocks are the block `len / 8`.
-/
import Tablefs.Hash
import Tablefs.Lib.Words

set_option autoImplicit false

namespace Tablefs

open ByteString Function

/-! ## The steps of `murmur64` -/

theorem murmurMul_injective : Injective fun x : UInt64 => x * murmurMul :=
  Words.uint64_mul_injective (by decide)

/-- `h ^= h >> r` -/
theorem murmurShift_injective : Injective fun x : UInt64 => x ^^^ x >>> 47 :=
  Words.uint64_xorShift_injective (by decide) (by decide)

/-- Another hash before a block is another hash after it. -/
theorem murmurBlock_injective_hash (k : UInt64) : Injective fun h => murmurBlock h k :=
  murmurMul_injective.comp (Words.uint64_xor_left_injective _)

/-- Another block is another hash. -/
theorem murmurBlock_injective_block (h : UInt64) : Injective (murmurBlock h) := by
  have hmix : Injective fun k : UInt64 => (k * murmurMul ^^^ (k * murmurMul) >>> 47) * murmurMul :=
    murmurMul_injective.comp (murmurShift_injective.comp murmurMul_injective)
  exact murmurMul_injective.comp ((Words.uint64_xor_right_injective h).comp hmix)

/-! ## The tail -/

/-- The shifts put the bytes side by side: the tail goes in as a little-endian number. -/
theorem toNat_murmurXorTail (h : UInt64) {i : ℕ} {bs : Bytes} (hi : i + bs.length ≤ 8) :
    (murmurXorTail h i bs).toNat = h.toNat ^^^ 2 ^ (8 * i) * leNat bs := by
  induction bs generalizing i with
  | nil => simp [murmurXorTail, leNat]
  | cons b bs ih =>
      rw [List.length_cons] at hi
      have hb : b.toNat < 2 ^ 8 := b.toNat_lt
      have hrest : (murmurXorTail h (i + 1) bs).toNat = h.toNat ^^^ 2 ^ (8 * (i + 1)) * leNat bs :=
        ih (by omega)
      -- the shift keeps all eight bits of the byte
      have hshift : (b.toUInt64 <<< (8 * UInt64.ofNat i)).toNat = 2 ^ (8 * i) * b.toNat := by
        have hamount : (8 * UInt64.ofNat i).toNat % 64 = 8 * i := by
          rw [UInt64.toNat_mul, UInt64.toNat_ofNat']
          show 8 * (i % 2 ^ 64) % 2 ^ 64 % 64 = _
          omega
        have hfit : 2 ^ (8 * i) * b.toNat < 2 ^ 64 := by
          calc 2 ^ (8 * i) * b.toNat < 2 ^ (8 * i) * 2 ^ 8 :=
                Nat.mul_lt_mul_of_pos_left hb (Nat.two_pow_pos _)
            _ = 2 ^ (8 * i + 8) := (pow_add 2 (8 * i) 8).symm
            _ ≤ 2 ^ 64 := Nat.pow_le_pow_right (by omega) (by omega)
        rw [UInt64.toNat_shiftLeft, hamount, UInt8.toNat_toUInt64, Nat.shiftLeft_eq,
          Nat.mul_comm, Nat.mod_eq_of_lt hfit]
      have hsplit : 2 ^ (8 * i) * leNat (b :: bs) =
          2 ^ (8 * (i + 1)) * leNat bs ^^^ 2 ^ (8 * i) * b.toNat := by
        have hlow : 2 ^ (8 * i) * b.toNat < 2 ^ (8 * (i + 1)) := by
          rw [Nat.mul_succ, pow_add]
          exact Nat.mul_lt_mul_of_pos_left hb (Nat.two_pow_pos _)
        rw [Words.xor_eq_add _ hlow, leNat, Nat.mul_succ, pow_add]
        ring
      rw [murmurXorTail, UInt64.toNat_xor, hrest, hshift, hsplit, Nat.xor_assoc]

theorem murmurXorTail_inj {h : UInt64} {a b : Bytes} (hlen : a.length = b.length)
    (ha : a.length ≤ 8) (hab : murmurXorTail h 0 a = murmurXorTail h 0 b) : a = b := by
  apply leNat_inj hlen
  have hnat := congrArg UInt64.toNat hab
  rw [toNat_murmurXorTail h (by omega), toNat_murmurXorTail h (by omega)] at hnat
  simpa using Nat.xor_right_injective hnat

theorem murmurXorTail_injective_hash {a : Bytes} (ha : a.length ≤ 8) :
    Injective fun h => murmurXorTail h 0 a := by
  intro h h' heq
  have hnat := congrArg UInt64.toNat heq
  dsimp only at hnat
  rw [toNat_murmurXorTail h (by omega), toNat_murmurXorTail h' (by omega)] at hnat
  exact UInt64.toNat_inj.mp (Nat.xor_left_injective hnat)

/-! ## The whole string -/

/-- `murmur64` from the hash `h` that the seed and the length give. -/
def murmurFrom (h : UInt64) (key : Bytes) : UInt64 :=
  let (h, tail) := murmurBlocks h key
  let h := if tail = [] then h else murmurXorTail h 0 tail * murmurMul
  let h := h ^^^ (h >>> 47)
  let h := h * murmurMul
  h ^^^ (h >>> 47)

theorem murmur64_eq (key : Bytes) (seed : UInt64) :
    murmur64 key seed = murmurFrom (seed ^^^ (UInt64.ofNat key.length * murmurMul)) key := rfl

/-- The lines after the loop and the tail. -/
def murmurFinish (h : UInt64) : UInt64 :=
  (h ^^^ h >>> 47) * murmurMul ^^^ ((h ^^^ h >>> 47) * murmurMul) >>> 47

theorem murmurFinish_injective : Injective murmurFinish :=
  murmurShift_injective.comp (murmurMul_injective.comp murmurShift_injective)

/-- The word that a block of eight bytes is loaded as. -/
def blockWord (block : Bytes) : UInt64 := .ofNat (leNat block)

theorem blockWord_inj {a b : Bytes} (ha : a.length = 8) (hb : b.length = 8)
    (h : blockWord a = blockWord b) : a = b := by
  have hword : ∀ c : Bytes, c.length = 8 → (blockWord c).toNat = leNat c := by
    intro c hc
    have hlt := leNat_lt c
    rw [hc] at hlt
    rw [blockWord, UInt64.toNat_ofNat']
    exact Nat.mod_eq_of_lt hlt
  apply leNat_inj (ha.trans hb.symm)
  rw [← hword a ha, ← hword b hb, h]

theorem murmurBlocks_block (h : UInt64) {block : Bytes} (hb : block.length = 8) (rest : Bytes) :
    murmurBlocks h (block ++ rest) = murmurBlocks (murmurBlock h (blockWord block)) rest := by
  match block, hb with
  | [_, _, _, _, _, _, _, _], _ => rfl

theorem murmurBlocks_tail (h : UInt64) {tail : Bytes} (ht : tail.length < 8) :
    murmurBlocks h tail = (h, tail) := by
  unfold murmurBlocks
  split
  · simp at ht
    omega
  · rfl

/-- One turn of the loop. -/
theorem murmurFrom_block (h : UInt64) {block : Bytes} (hb : block.length = 8) (rest : Bytes) :
    murmurFrom h (block ++ rest) = murmurFrom (murmurBlock h (blockWord block)) rest := by
  rw [murmurFrom, murmurBlocks_block h hb, murmurFrom]

/-- No turn is left. -/
theorem murmurFrom_tail (h : UInt64) {tail : Bytes} (ht : tail.length < 8) :
    murmurFrom h tail =
      murmurFinish (if tail = [] then h else murmurXorTail h 0 tail * murmurMul) := by
  rw [murmurFrom, murmurBlocks_tail h ht]
  rfl

/-- A string is a tail, or a block and a string. -/
theorem block_cases (s : Bytes) :
    s.length < 8 ∨ ∃ block rest, block.length = 8 ∧ s = block ++ rest := by
  by_cases hs : s.length < 8
  · exact Or.inl hs
  · refine Or.inr ⟨s.take 8, s.drop 8, ?_, (List.take_append_drop 8 s).symm⟩
    rw [List.length_take]
    omega

/-- Different hashes stay different through everything that follows. -/
theorem murmurFrom_injective (key : Bytes) : Injective fun h => murmurFrom h key := by
  -- block by block, down to the tail
  induction hn : key.length using Nat.strong_induction_on generalizing key with
  | _ n ih =>
      rcases block_cases key with ht | ⟨block, rest, hb, rfl⟩
      · intro h h' heq
        dsimp only at heq
        rw [murmurFrom_tail h ht, murmurFrom_tail h' ht] at heq
        have hstate := murmurFinish_injective heq
        by_cases hnil : key = []
        · rwa [if_pos hnil, if_pos hnil] at hstate
        · rw [if_neg hnil, if_neg hnil] at hstate
          exact murmurXorTail_injective_hash ht.le (murmurMul_injective hstate)
      · have hrest : Injective fun h => murmurFrom h rest := by
          apply ih rest.length _ rest rfl
          rw [← hn, List.length_append, hb]
          omega
        intro h h' heq
        dsimp only at heq
        rw [murmurFrom_block h hb, murmurFrom_block h' hb] at heq
        exact murmurBlock_injective_hash _ (hrest heq)

/-- The two strings agree at every index outside block `c`. -/
def AgreeOutside (c : ℕ) (a b : Bytes) : Prop := ∀ j, j / 8 ≠ c → a[j]? = b[j]?

/-- Strings that agree outside a later block have the same first block. -/
theorem AgreeOutside.succ {c : ℕ} {x y s t : Bytes} (h : AgreeOutside (c + 1) (x ++ s) (y ++ t))
    (hx : x.length = 8) (hy : y.length = 8) : x = y ∧ AgreeOutside c s t := by
  constructor
  · apply List.ext_getElem?
    intro j
    by_cases hj : j < 8
    · have hagree := h j (by omega)
      rwa [List.getElem?_append_left (by omega), List.getElem?_append_left (by omega)] at hagree
    · rw [List.getElem?_eq_none (by omega), List.getElem?_eq_none (by omega)]
  · intro j hj
    have hagree := h (8 + j) (by omega)
    rwa [List.getElem?_append_right (by omega), List.getElem?_append_right (by omega), hx, hy,
      Nat.add_sub_cancel_left] at hagree

/-- Strings that agree outside the first block have the same rest. -/
theorem AgreeOutside.zero {x y s t : Bytes} (h : AgreeOutside 0 (x ++ s) (y ++ t))
    (hx : x.length = 8) (hy : y.length = 8) : s = t := by
  apply List.ext_getElem?
  intro j
  have hagree := h (8 + j) (by omega)
  rwa [List.getElem?_append_right (by omega), List.getElem?_append_right (by omega), hx, hy,
    Nat.add_sub_cancel_left] at hagree

/-- Strings shorter than a block differ in no other block than the first. -/
theorem AgreeOutside.eq_of_short {c : ℕ} {a b : Bytes} (h : AgreeOutside (c + 1) a b)
    (hlen : a.length = b.length) (ha : a.length < 8) : a = b := by
  apply List.ext_getElem?
  intro j
  by_cases hj : j < 8
  · exact h j (by omega)
  · rw [List.getElem?_eq_none (by omega), List.getElem?_eq_none (by omega)]

/-- Two tails of one length give two hashes. -/
theorem murmurFrom_tail_ne (h : UInt64) {a b : Bytes} (hlen : a.length = b.length)
    (ha : a.length < 8) (hne : a ≠ b) : murmurFrom h a ≠ murmurFrom h b := by
  intro heq
  have hnil : a ≠ [] := by
    rintro rfl
    exact hne (List.eq_nil_of_length_eq_zero hlen.symm).symm
  have hnil' : b ≠ [] := by
    rintro rfl
    exact hnil (List.eq_nil_of_length_eq_zero hlen)
  rw [murmurFrom_tail h ha, murmurFrom_tail h (hlen ▸ ha), if_neg hnil, if_neg hnil'] at heq
  exact hne (murmurXorTail_inj hlen ha.le (murmurMul_injective (murmurFinish_injective heq)))

/-- From the same hash, strings that differ in block `c` alone end in different ones: the
blocks before `c` change the hash in the same way, block `c` takes it apart, and it stays
apart. -/
theorem murmurFrom_ne {c : ℕ} {a b : Bytes} (hlen : a.length = b.length)
    (hagree : AgreeOutside c a b) (hne : a ≠ b) (h : UInt64) : murmurFrom h a ≠ murmurFrom h b := by
  induction c generalizing a b h with
  | zero =>
      rcases block_cases a with ht | ⟨x, s, hx, rfl⟩
      · exact murmurFrom_tail_ne h hlen ht hne
      rcases block_cases b with ht | ⟨y, t, hy, rfl⟩
      · exact murmurFrom_tail_ne h hlen (hlen ▸ ht) hne
      have hst : s = t := hagree.zero hx hy
      subst hst
      have hxy : x ≠ y := fun heq => hne (by rw [heq])
      rw [murmurFrom_block h hx, murmurFrom_block h hy]
      intro heq
      have hblock := murmurFrom_injective s heq
      exact hxy (blockWord_inj hx hy (murmurBlock_injective_block h hblock))
  | succ c ih =>
      rcases block_cases a with ht | ⟨x, s, hx, rfl⟩
      · exact absurd (hagree.eq_of_short hlen ht) hne
      rcases block_cases b with ht | ⟨y, t, hy, rfl⟩
      · exact absurd (hagree.eq_of_short hlen (hlen ▸ ht)) hne
      obtain ⟨hxy, hst⟩ := hagree.succ hx hy
      subst hxy
      rw [List.length_append, List.length_append] at hlen
      rw [murmurFrom_block h hx, murmurFrom_block h hx]
      exact ih (by omega) hst (fun heq => hne (by rw [heq])) _

/-- Strings of one length that differ in one block of eight bytes, or in the bytes after the
last one, have different hashes. -/
theorem murmur64_ne {c : ℕ} {a b : Bytes} (hlen : a.length = b.length)
    (hagree : AgreeOutside c a b) (hne : a ≠ b) (seed : UInt64) :
    murmur64 a seed ≠ murmur64 b seed := by
  rw [murmur64_eq, murmur64_eq, hlen]
  exact murmurFrom_ne hlen hagree hne _

/-- A name of at most eight bytes is one block. -/
theorem agreeOutside_zero {a b : Bytes} (hlen : a.length = b.length) (ha : a.length ≤ 8) :
    AgreeOutside 0 a b := by
  intro j hj
  rw [List.getElem?_eq_none (by omega), List.getElem?_eq_none (by omega)]

/-- Strings that differ in one block do not collide, whatever the seed and the length, and
so names of one length up to eight have keys of their own in every directory. -/
theorem one_block_apart :
    (∀ (seed : UInt64) (c : ℕ) (a b : Bytes), a.length = b.length → AgreeOutside c a b → a ≠ b →
      murmur64 a seed ≠ murmur64 b seed) ∧
    ∀ (dir : UInt64) (a b : Bytes), a.length = b.length → a.length ≤ 8 → a ≠ b →
      buildMetaKey a dir ≠ buildMetaKey b dir := by
  refine ⟨fun seed c a b hlen hagree hne => murmur64_ne hlen hagree hne seed, ?_⟩
  intro dir a b hlen ha hne hkey
  have hhash : murmur64 a 123 = murmur64 b 123 := congrArg MetaKey.hash_id hkey
  exact murmur64_ne hlen (agreeOutside_zero hlen ha) hne 123 hhash

/-- `dir-000001` and `dir-000002` differ in their last two bytes, `a` and `b` in their only
one. -/
theorem one_block_apart_names :
    murmur64 [100, 105, 114, 45, 48, 48, 48, 48, 48, 49] 123 ≠
      murmur64 [100, 105, 114, 45, 48, 48, 48, 48, 48, 50] 123 ∧
    buildMetaKey [97] 7 ≠ buildMetaKey [98] 7 := by
  refine ⟨one_block_apart.1 123 1 _ _ rfl ?_ (by decide),
    one_block_apart.2 7 _ _ rfl (by decide) (by decide)⟩
  intro j hj
  by_cases hlt : j < 8
  · have hfront : ∀ j < 8, [100, 105, 114, 45, 48, 48, 48, 48, 48, (49 : UInt8)][j]? =
        [100, 105, 114, 45, 48, 48, 48, 48, 48, 50][j]? := by decide
    exact hfront j hlt
  · have hlong : 10 ≤ j := by omega
    rw [List.getElem?_eq_none hlong, List.getElem?_eq_none hlong]

end Tablefs
