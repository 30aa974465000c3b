/-
Cyclic redundancy checks in reflected bit order, as division of bit vectors.

`bitStep poly` divides by the polynomial once: the low bit is shifted out, and the polynomial
is taken away when it was set. The step is linear over `^^^`, so the remainder of a word is
the `^^^` of the remainders of its parts (`divide_xor`, `divide_split`), which is what lets a
table of the 256 remainders of a byte stand in for eight steps. A polynomial with its top bit
set makes the step injective (`divide_injective`), so no two words have one remainder.

`feed` takes in a byte. As many bytes as the register holds are one word taken in at once
(`foldl_feed`), and damage within so many neighbouring bytes never goes unseen
(`foldl_feed_burst`).
-/
import Tablefs.Lib.Bytes
import Mathlib.Logic.Function.Iterate

set_option autoImplicit false

namespace Crc

variable {w : ℕ} (poly : BitVec w)

/-- One division step. -/
def bitStep (x : BitVec w) : BitVec w := (x >>> 1) ^^^ (if x.getLsbD 0 then poly else 0)

/-- `n` division steps. -/
def divide (n : ℕ) : BitVec w → BitVec w := (bitStep poly)^[n]

@[simp] theorem divide_zero (x : BitVec w) : divide poly 0 x = x := rfl

theorem divide_succ (n : ℕ) (x : BitVec w) :
    divide poly (n + 1) x = divide poly n (bitStep poly x) :=
  rfl

theorem divide_add (m n : ℕ) (x : BitVec w) :
    divide poly (m + n) x = divide poly m (divide poly n x) :=
  Function.iterate_add_apply _ m n x

/-! ## Linearity -/

theorem bitStep_xor (x y : BitVec w) :
    bitStep poly (x ^^^ y) = bitStep poly x ^^^ bitStep poly y := by
  have hpoly : ∀ a b : Bool, (if (a ^^ b) = true then poly else 0)
      = (if a = true then poly else 0) ^^^ (if b = true then poly else 0) := by
    intro a b
    cases a <;> cases b <;> simp
  rw [bitStep, bitStep, bitStep, BitVec.ushiftRight_xor_distrib, BitVec.getLsbD_xor, hpoly]
  ac_rfl

theorem divide_xor (n : ℕ) (x y : BitVec w) :
    divide poly n (x ^^^ y) = divide poly n x ^^^ divide poly n y := by
  induction n generalizing x y with
  | zero => rfl
  | succ n ih => rw [divide_succ, bitStep_xor, ih, divide_succ, divide_succ]

/-! ## Words with zeros below -/

/-- As long as zeros are shifted out, dividing is shifting. -/
theorem divide_shr {n : ℕ} {x : BitVec w} (h : ∀ i < n, x.getLsbD i = false) :
    divide poly n x = x >>> n := by
  induction n generalizing x with
  | zero => rw [divide_zero, BitVec.ushiftRight_zero]
  | succ n ih =>
      have hstep : bitStep poly x = x >>> 1 := by
        rw [bitStep, h 0 (Nat.succ_pos n), if_neg Bool.false_ne_true]
        exact BitVec.xor_zero
      rw [divide_succ, hstep, ih fun i hi => ?_, ← BitVec.shiftRight_add, Nat.add_comm]
      rw [BitVec.getLsbD_ushiftRight, Nat.add_comm]
      exact h (i + 1) (Nat.succ_lt_succ hi)

/-- The remainder of a word is that of its low bits, put over the others. -/
theorem divide_split (n : ℕ) (x : BitVec w) :
    divide poly n x = divide poly n (x &&& BitVec.ofNat w (2 ^ n - 1)) ^^^ (x >>> n) := by
  have hmask : ∀ i, (BitVec.ofNat w (2 ^ n - 1)).getLsbD i
      = (decide (i < w) && decide (i < n)) := by
    intro i
    rw [BitVec.getLsbD_ofNat, Nat.testBit_two_pow_sub_one]
  have hsplit : x = (x &&& BitVec.ofNat w (2 ^ n - 1))
      ^^^ (x &&& ~~~ BitVec.ofNat w (2 ^ n - 1)) := by
    ext i hi
    simp only [BitVec.getElem_xor, BitVec.getElem_and, BitVec.getElem_not]
    cases x[i] <;> cases (BitVec.ofNat w (2 ^ n - 1))[i] <;> rfl
  have hhigh : divide poly n (x &&& ~~~ BitVec.ofNat w (2 ^ n - 1)) = x >>> n := by
    rw [divide_shr]
    · ext i hi
      rw [BitVec.getElem_ushiftRight, BitVec.getElem_ushiftRight, BitVec.getLsbD_and,
        BitVec.getLsbD_not, hmask]
      by_cases hw : n + i < w
      · simp [hw]
      · rw [BitVec.getLsbD_of_ge x (n + i) (by omega), Bool.false_and]
    · intro i hi
      rw [BitVec.getLsbD_and, BitVec.getLsbD_not, hmask]
      by_cases hw : i < w
      · simp [hw, hi]
      · simp [hw]
  conv_lhs => rw [hsplit, divide_xor, hhigh]

/-! ## Injectivity -/

/-- A step can be taken back when the polynomial has its top bit. -/
theorem bitStep_injective (hpoly : poly.msb = true) : Function.Injective (bitStep poly) := by
  intro x y h
  have hlow : x.getLsbD 0 = y.getLsbD 0 := by
    have hmsb := congrArg BitVec.msb h
    rw [bitStep, bitStep, BitVec.msb_xor, BitVec.msb_xor] at hmsb
    have hshift : ∀ z : BitVec w, (z >>> 1).msb = false := by
      intro z
      rw [BitVec.msb_ushiftRight]
      rfl
    rw [hshift, hshift] at hmsb
    cases hx : x.getLsbD 0 <;> cases hy : y.getLsbD 0 <;> simp_all
  have hrest : x >>> 1 = y >>> 1 := by
    rw [bitStep, bitStep, hlow] at h
    exact (BitVec.xor_left_inj _).mp h
  refine BitVec.eq_of_getLsbD_eq fun i hi => ?_
  cases i with
  | zero => exact hlow
  | succ i =>
      have := congrArg (fun z : BitVec w => z.getLsbD i) hrest
      simpa [BitVec.getLsbD_ushiftRight, Nat.add_comm] using this

theorem divide_injective (hpoly : poly.msb = true) (n : ℕ) :
    Function.Injective (divide poly n) :=
  (bitStep_injective poly hpoly).iterate n

/-! ## Strings of bytes -/

/-- A byte is taken in. -/
def feed (l : BitVec w) (b : UInt8) : BitVec w := divide poly 8 (l ^^^ b.toBitVec.setWidth w)

theorem mask_byte (i : ℕ) :
    (BitVec.ofNat w 255).getLsbD i = (decide (i < w) && decide (i < 8)) := by
  rw [BitVec.getLsbD_ofNat, show 255 = 2 ^ 8 - 1 from rfl, Nat.testBit_two_pow_sub_one]

/-- A byte taken in goes through the low byte of the register only. -/
theorem feed_split (l : BitVec w) (b : UInt8) :
    feed poly l b
      = divide poly 8 ((l &&& BitVec.ofNat w 255) ^^^ b.toBitVec.setWidth w) ^^^ (l >>> 8) := by
  have hlow : (l ^^^ b.toBitVec.setWidth w) &&& BitVec.ofNat w (2 ^ 8 - 1)
      = (l &&& BitVec.ofNat w 255) ^^^ b.toBitVec.setWidth w := by
    refine BitVec.eq_of_getLsbD_eq fun i hi => ?_
    simp only [BitVec.getLsbD_and, BitVec.getLsbD_xor, BitVec.getLsbD_setWidth]
    rw [show (2 : ℕ) ^ 8 - 1 = 255 from rfl, mask_byte]
    by_cases h8 : i < 8
    · simp [hi, h8]
    · rw [BitVec.getLsbD_of_ge b.toBitVec i (by omega)]
      simp [h8]
  have hhigh : (l ^^^ b.toBitVec.setWidth w) >>> 8 = l >>> 8 := by
    refine BitVec.eq_of_getLsbD_eq fun i hi => ?_
    rw [BitVec.getLsbD_ushiftRight, BitVec.getLsbD_ushiftRight, BitVec.getLsbD_xor,
      BitVec.getLsbD_setWidth, BitVec.getLsbD_of_ge b.toBitVec (8 + i) (by omega), Bool.and_false,
      Bool.xor_false]
  rw [feed, divide_split, hlow, hhigh]

/-- Bytes as one word, low byte first. -/
def word : List UInt8 → BitVec w
  | [] => 0
  | b :: bs => b.toBitVec.setWidth w ^^^ (word bs <<< 8)

theorem word_high {bs : List UInt8} {i : ℕ} (h : 8 * bs.length ≤ i) :
    (word bs : BitVec w).getLsbD i = false := by
  induction bs generalizing i with
  | nil => exact BitVec.getLsbD_zero
  | cons b bs ih =>
      rw [List.length_cons] at h
      rw [word, BitVec.getLsbD_xor, BitVec.getLsbD_setWidth, BitVec.getLsbD_shiftLeft,
        BitVec.getLsbD_of_ge b.toBitVec i (by omega), ih (by omega)]
      simp

/-- The word is the little-endian number of its bytes. -/
theorem word_eq_ofNat (bs : List UInt8) :
    (word bs : BitVec w) = BitVec.ofNat w (ByteString.leNat bs) := by
  induction bs with
  | nil => rfl
  | cons b bs ih =>
      refine BitVec.eq_of_getLsbD_eq fun i hi => ?_
      have hb : b.toNat < 2 ^ 8 := b.toNat_lt
      rw [word, ih, BitVec.getLsbD_xor, BitVec.getLsbD_setWidth, BitVec.getLsbD_shiftLeft,
        BitVec.getLsbD_ofNat, BitVec.getLsbD_ofNat, ByteString.leNat, Nat.add_comm,
        show (256 : ℕ) = 2 ^ 8 from rfl, Nat.testBit_two_pow_mul_add _ hb]
      by_cases h8 : i < 8
      · simp [h8, hi, ← UInt8.toNat_toBitVec, BitVec.testBit_toNat]
      · rw [BitVec.getLsbD_of_ge b.toBitVec i (by omega)]
        simp [h8, hi, show i - 8 < w by omega]

/-- The remainder of a word, one byte of it taken off. -/
theorem divide_byte (n : ℕ) (x : BitVec w) :
    divide poly (n + 8) x
      = divide poly (n + 8) (x &&& BitVec.ofNat w 255) ^^^ divide poly n (x >>> 8) := by
  rw [divide_add, divide_split poly 8 x, divide_xor, ← divide_add]
  rfl

theorem word_shl_shr {bs : List UInt8} (h : 8 * (bs.length + 1) ≤ w) :
    divide poly 8 (word bs <<< 8) = word bs := by
  rw [divide_shr]
  · refine BitVec.eq_of_getLsbD_eq fun i hi => ?_
    rw [BitVec.getLsbD_ushiftRight, BitVec.getLsbD_shiftLeft]
    by_cases hw : 8 + i < w
    · simp [hw]
    · have hz : (word bs : BitVec w).getLsbD i = false := word_high (by omega)
      simp [hw, hz]
  · intro i hi
    rw [BitVec.getLsbD_shiftLeft]
    simp [hi]

/-- As many bytes as fit the register are one word. -/
theorem foldl_feed {bs : List UInt8} (h : 8 * bs.length ≤ w) (l : BitVec w) :
    bs.foldl (feed poly) l = divide poly (8 * bs.length) (l ^^^ word bs) := by
  induction bs generalizing l with
  | nil =>
      rw [word, List.foldl_nil, List.length_nil, Nat.mul_zero, divide_zero]
      exact BitVec.xor_zero.symm
  | cons b bs ih =>
      rw [List.length_cons] at h
      rw [List.foldl_cons, ih (by omega), List.length_cons, Nat.mul_succ, divide_add, word,
        ← BitVec.xor_assoc, divide_xor poly 8, word_shl_shr poly h, feed]

theorem word_injective {bs bs' : List UInt8} (hlen : bs.length = bs'.length)
    (h : 8 * bs.length ≤ w) (he : (word bs : BitVec w) = word bs') : bs = bs' := by
  induction bs generalizing bs' with
  | nil => exact (List.length_eq_zero_iff.mp hlen.symm).symm
  | cons b bs ih =>
      cases bs' with
      | nil => cases hlen
      | cons b' bs' =>
          rw [List.length_cons] at h
          have hbit : ∀ i, (word (b :: bs) : BitVec w).getLsbD i
              = (word (b' :: bs') : BitVec w).getLsbD i := fun i => by rw [he]
          simp only [word, BitVec.getLsbD_xor, BitVec.getLsbD_setWidth,
            BitVec.getLsbD_shiftLeft] at hbit
          have hb : b = b' := by
            refine UInt8.toBitVec_inj.mp (BitVec.eq_of_getLsbD_eq fun i hi => ?_)
            have := hbit i
            simpa [show i < w by omega, hi] using this
          have hbs : (word bs : BitVec w) = word bs' := by
            refine BitVec.eq_of_getLsbD_eq fun i hi => ?_
            by_cases hw : i + 8 < w
            · have := hbit (i + 8)
              simpa [hw, hb] using this
            · rw [word_high (by omega), word_high (by
                have := Nat.succ.inj hlen
                omega)]
          rw [hb, ih (Nat.succ.inj hlen) (by omega) hbs]

theorem foldl_feed_injective (hpoly : poly.msb = true) (bs : List UInt8) :
    Function.Injective fun l => bs.foldl (feed poly) l := by
  induction bs with
  | nil => exact fun _ _ h => h
  | cons b bs ih =>
      intro l l' h
      have := divide_injective poly hpoly 8 (ih h)
      exact (BitVec.xor_left_inj _).mp this

/-- Two strings that differ within as many neighbouring bytes as fit the register, and only
there, have two remainders. -/
theorem foldl_feed_burst (hpoly : poly.msb = true) (front back : List UInt8)
    {bs bs' : List UInt8} (hlen : bs.length = bs'.length) (h : 8 * bs.length ≤ w)
    (hne : bs ≠ bs') (l : BitVec w) :
    (front ++ bs ++ back).foldl (feed poly) l ≠ (front ++ bs' ++ back).foldl (feed poly) l := by
  intro he
  simp only [List.foldl_append] at he
  have hmid := foldl_feed_injective poly hpoly back he
  rw [foldl_feed poly h (front.foldl _ l), foldl_feed poly (by omega) (front.foldl _ l),
    ← hlen] at hmid
  have hword := divide_injective poly hpoly _ hmid
  exact hne (word_injective hlen h ((BitVec.xor_right_inj _).mp hword))

end Crc
