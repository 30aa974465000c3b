/-
Machine words under the steps that mixing functions are made of.

Multiplication by an odd number, exclusive or with a fixed word, and exclusive or of a word
with its own right shift by at least half the width all lose nothing. A hash that is built
of such steps therefore keeps two different states apart, however many steps follow; the
lemmas are one injectivity statement a step, to be composed with `Injective.comp`.

A little-endian word put together byte by byte with exclusive or is the same as the sum,
since the bytes do not overlap (`xor_eq_add`).
-/
import Mathlib.Data.Nat.ModEq
import Mathlib.Data.Nat.Prime.Basic
import Mathlib.Data.Nat.Bitwise

set_option autoImplicit false

namespace Words

open Function

/-! ## Steps on words of any width -/

variable {w : ℕ}

/-- An odd factor is prime to the modulus, so it cancels. -/
theorem mul_odd_injective {m : BitVec w} (hm : Odd m.toNat) : Injective fun x => x * m := by
  intro x y h
  have hmod : x.toNat * m.toNat ≡ y.toNat * m.toNat [MOD 2 ^ w] := by
    have hnat := congrArg BitVec.toNat h
    rwa [BitVec.toNat_mul, BitVec.toNat_mul] at hnat
  have hcop : Nat.gcd (2 ^ w) m.toNat = 1 := Nat.Coprime.pow_left w (Nat.coprime_two_left.mpr hm)
  have hxy := Nat.ModEq.cancel_right_of_coprime hcop hmod
  apply BitVec.eq_of_toNat_eq
  rwa [Nat.ModEq, Nat.mod_eq_of_lt x.isLt, Nat.mod_eq_of_lt y.isLt] at hxy

/-- A shift by at least half the width is undone by the same step: what the second shift
brings down of the first has left the word. -/
theorem xorShift_xorShift {r : ℕ} (hr : w ≤ r + r) (x : BitVec w) :
    (x ^^^ x >>> r) ^^^ (x ^^^ x >>> r) >>> r = x := by
  have hgone : x >>> r >>> r = 0#w := by
    rw [← BitVec.shiftRight_add]
    exact BitVec.ushiftRight_eq_zero hr
  rw [BitVec.ushiftRight_xor_distrib, hgone, BitVec.xor_zero, BitVec.xor_assoc, BitVec.xor_self,
    BitVec.xor_zero]

theorem xorShift_injective {r : ℕ} (hr : w ≤ r + r) :
    Injective fun x : BitVec w => x ^^^ x >>> r := by
  intro x y h
  dsimp only at h
  rw [← xorShift_xorShift hr x, h, xorShift_xorShift hr y]

/-! ## The same steps on `UInt64` -/

theorem uint64_mul_injective {m : UInt64} (hm : Odd m.toBitVec.toNat) :
    Injective fun x => x * m := by
  intro x y h
  apply UInt64.toBitVec_inj.mp
  apply mul_odd_injective hm
  exact congrArg UInt64.toBitVec h

theorem uint64_xorShift_injective {r : UInt64} (hlow : 32 ≤ r.toNat) (hhigh : r.toNat < 64) :
    Injective fun x => x ^^^ x >>> r := by
  intro x y h
  have hshift : (r.toBitVec % 64).toNat = r.toNat := by
    rw [BitVec.toNat_umod]
    exact Nat.mod_eq_of_lt hhigh
  have hbits : ∀ z : UInt64, (z ^^^ z >>> r).toBitVec = z.toBitVec ^^^ z.toBitVec >>> r.toNat := by
    intro z
    rw [UInt64.toBitVec_xor, UInt64.toBitVec_shiftRight, BitVec.ushiftRight_eq', hshift]
  have hxy : x.toBitVec ^^^ x.toBitVec >>> r.toNat = y.toBitVec ^^^ y.toBitVec >>> r.toNat := by
    rw [← hbits x, ← hbits y]
    exact congrArg UInt64.toBitVec h
  apply UInt64.toBitVec_inj.mp
  exact xorShift_injective (by omega) hxy

theorem uint64_xor_left_injective (k : UInt64) : Injective fun x => x ^^^ k := by
  intro x y h
  dsimp only at h
  rw [← UInt64.xor_zero (a := x), ← UInt64.xor_zero (a := y), ← UInt64.xor_self (a := k),
    ← UInt64.xor_assoc, ← UInt64.xor_assoc, h]

theorem uint64_xor_right_injective (k : UInt64) : Injective fun x => k ^^^ x := by
  intro x y h
  dsimp only at h
  rw [UInt64.xor_comm k x, UInt64.xor_comm k y] at h
  exact uint64_xor_left_injective k h

/-! ## Putting a word together -/

/-- Without a carry, exclusive or adds. -/
theorem xor_eq_add (n : ℕ) {b i : ℕ} (hb : b < 2 ^ i) : 2 ^ i * n ^^^ b = 2 ^ i * n + b := by
  apply Nat.eq_of_testBit_eq
  intro j
  rw [Nat.testBit_xor, Nat.testBit_two_pow_mul, Nat.testBit_two_pow_mul_add n hb]
  by_cases hj : j < i
  · rw [if_pos hj, decide_eq_false (by omega), Bool.false_and, Bool.false_xor]
  · -- the bits of `b` end before `i`
    have hzero : b.testBit j = false :=
      Nat.testBit_lt_two_pow (hb.trans_le (Nat.pow_le_pow_right (by omega) (by omega)))
    rw [if_neg hj, hzero, Bool.xor_false, decide_eq_true (by omega), Bool.true_and]

end Words
