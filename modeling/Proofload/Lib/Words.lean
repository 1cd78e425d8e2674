import Proofload.Lib.Machine
import Mathlib.Data.UInt
import Mathlib.Data.Nat.Bitwise
import Mathlib.Data.Nat.Prime.Basic
import Mathlib.Tactic.Ring

/-!
# Permutations of machine words

The stages of multiply-and-shift mixing functions on 64-bit words, each of which loses nothing, and the two words of a
128-bit linear congruential step.

* `mul_odd_inj` : multiplication by an odd word;
* `xorShift_inj` : xor with the own upper bits;
* `low_xor_shiftLeft`, `low_of_mul_odd` : what happens in the lower half of a word;
* `step128_high`, `step128_low` : the words of `state * m + c` modulo `2^128`; the low word of the result does not
  depend on the high word of the state, which enters the high word through a multiplication.
-/

namespace Lib

set_option autoImplicit false

/-! ## Words and integers -/

theorem toNat_ofInt (x : Int) : ((UInt64.ofInt x).toNat : Int) = x % 2 ^ 64 := by
  unfold UInt64.ofInt
  rw [UInt64.toNat_ofNat']
  have := Int.emod_nonneg x (show (2 ^ 64 : Int) ≠ 0 by norm_num)
  have := Int.emod_lt_of_pos x (show (0 : Int) < 2 ^ 64 by norm_num)
  omega

theorem ofInt_inj {x y : Int} (h : UInt64.ofInt x = UInt64.ofInt y) (hle : x - y < 2 ^ 64) (hge : y - x < 2 ^ 64) :
    x = y := by
  have hmod : x % 2 ^ 64 = y % 2 ^ 64 := by rw [← toNat_ofInt, ← toNat_ofInt, h]
  omega

/-! ## Multiplication by an odd word -/

theorem mod_two_pow_cancel {m n c k : Nat} (hc : c % 2 = 1) (h : m * c % 2 ^ k = n * c % 2 ^ k) :
    m % 2 ^ k = n % 2 ^ k := by
  have hcoprime : Nat.gcd (2 ^ k) c = 1 := by
    apply Nat.Coprime.pow_left
    rw [Nat.coprime_two_left]
    exact Nat.odd_iff.mpr hc
  apply Nat.ModEq.cancel_left_of_coprime hcoprime
  rw [Nat.mul_comm c m, Nat.mul_comm c n]
  exact h

/-- **Multiplication by an odd word loses nothing.** -/
theorem mul_odd_inj {x y c : UInt64} (hc : c.toNat % 2 = 1) (h : x * c = y * c) : x = y := by
  have hmul := congrArg UInt64.toNat h
  rw [UInt64.toNat_mul, UInt64.toNat_mul] at hmul
  have hmod := mod_two_pow_cancel hc hmul
  rw [Nat.mod_eq_of_lt x.toNat_lt, Nat.mod_eq_of_lt y.toNat_lt] at hmod
  exact UInt64.toNat_inj.mp hmod

/-! ## Xor with the own upper bits -/

/-- A word shifted twice by at least half its width is empty, so a second xor takes the first one back. -/
theorem xorShift_xorShift (x : Nat) {s : Nat} (hx : x < 2 ^ 64) (hs : 32 ≤ s) :
    (x ^^^ x >>> s) ^^^ (x ^^^ x >>> s) >>> s = x := by
  apply Nat.eq_of_testBit_eq
  intro i
  have htop : x.testBit (s + (s + i)) = false :=
    Nat.testBit_lt_two_pow (lt_of_lt_of_le hx (Nat.pow_le_pow_right (by decide) (by omega)))
  simp [Nat.testBit_xor, Nat.testBit_shiftRight, htop]

/-- **Xor with the upper half or less loses nothing.** -/
theorem xorShift_inj {x y s : UInt64} (hlow : 32 ≤ s.toNat) (hhigh : s.toNat < 64)
    (h : x ^^^ x >>> s = y ^^^ y >>> s) : x = y := by
  have hnat := congrArg UInt64.toNat h
  simp only [UInt64.toNat_xor, UInt64.toNat_shiftRight, Nat.mod_eq_of_lt hhigh] at hnat
  apply UInt64.toNat_inj.mp
  rw [← xorShift_xorShift x.toNat x.toNat_lt hlow, hnat, xorShift_xorShift y.toNat y.toNat_lt hlow]

/-! ## The lower half of a word -/

theorem low_xor_shiftLeft (w y : UInt64) : ((w <<< 32) ^^^ y).toNat % 2 ^ 32 = y.toNat % 2 ^ 32 := by
  have hshift : (w <<< 32).toNat % 2 ^ 32 = 0 := by
    rw [UInt64.toNat_shiftLeft, Nat.shiftLeft_eq, show (32 : UInt64).toNat % 64 = 32 by rfl]
    omega
  rw [UInt64.toNat_xor, Nat.xor_mod_two_pow, hshift, Nat.zero_xor]

/-- The low half of a product with an odd word determines the low half of the factor. -/
theorem low_of_mul_odd {x y c : UInt64} (hc : c.toNat % 2 = 1)
    (h : (x * c).toNat % 2 ^ 32 = (y * c).toNat % 2 ^ 32) : x.toNat % 2 ^ 32 = y.toNat % 2 ^ 32 := by
  apply mod_two_pow_cancel hc
  rw [UInt64.toNat_mul, UInt64.toNat_mul] at h
  omega

/-! ## A 128-bit linear congruential step -/

section Step128
variable (hi lo : UInt64) (m c : Nat)

theorem step128_split :
    (hi.toNat * 2 ^ 64 + lo.toNat) * m + c = 2 ^ 64 * (hi.toNat * m) + (lo.toNat * m + c) := by
  ring

theorem step128_low :
    UInt64.ofNat (((hi.toNat * 2 ^ 64 + lo.toNat) * m + c) % 2 ^ 128 % 2 ^ 64) =
      lo * UInt64.ofNat m + UInt64.ofNat c := by
  have hword : ((hi.toNat * 2 ^ 64 + lo.toNat) * m + c) % 2 ^ 128 % 2 ^ 64 = (lo.toNat * m + c) % 2 ^ 64 := by
    rw [step128_split]
    omega
  rw [hword, ← UInt64.ofNat_toNat (x := lo), ← UInt64.ofNat_mul, ← UInt64.ofNat_add, UInt64.ofNat_toNat]
  exact UInt64.ofNat_mod_size

theorem step128_high :
    UInt64.ofNat (((hi.toNat * 2 ^ 64 + lo.toNat) * m + c) % 2 ^ 128 / 2 ^ 64) =
      hi * UInt64.ofNat m + UInt64.ofNat ((lo.toNat * m + c) / 2 ^ 64) := by
  have hword : ((hi.toNat * 2 ^ 64 + lo.toNat) * m + c) % 2 ^ 128 / 2 ^ 64 =
      (hi.toNat * m + (lo.toNat * m + c) / 2 ^ 64) % 2 ^ 64 := by
    rw [step128_split]
    omega
  rw [hword, ← UInt64.ofNat_toNat (x := hi), ← UInt64.ofNat_mul, ← UInt64.ofNat_add, UInt64.ofNat_toNat]
  exact UInt64.ofNat_mod_size

end Step128

end Lib
