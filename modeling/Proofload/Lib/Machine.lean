import Mathlib.Data.Int.GCD
import Mathlib.Data.Nat.Prime.Basic
import Mathlib.Tactic.LinearCombination
import Mathlib.Tactic.NormNum
import Mathlib.Tactic.Ring

/-!
# 64-bit machine integers

`wrap64` is two's complement reduction to `[-2^63, 2^63)`. An `I64` is an integer with the proof
that it is in that range, so a configuration value cannot be built out of range.

* `wrap64_eq_self` : no wraparound inside the range;
* `wrap64_inj` : `wrap64` separates integers that are less than `2^64` apart;
* `I64.exists_le_ofInt_iff` : how high a progression comes whose additions wrap around.
-/

namespace Lib

/-- Two's complement reduction of an integer to 64 bits. -/
def wrap64 (x : Int) : Int := Int.bmod x (2 ^ 64)

theorem wrap64_range (x : Int) : -2 ^ 63 ≤ wrap64 x ∧ wrap64 x < 2 ^ 63 := by
  unfold wrap64
  have h₁ := Int.le_bmod (x := x) (m := 2 ^ 64) (by decide)
  have h₂ := Int.bmod_lt (x := x) (m := 2 ^ 64) (by decide)
  norm_num at h₁ h₂ ⊢
  omega

theorem wrap64_eq_self {x : Int} (h₁ : -2 ^ 63 ≤ x) (h₂ : x < 2 ^ 63) : wrap64 x = x := by
  unfold wrap64
  apply Int.bmod_eq_of_le <;> norm_num <;> omega

theorem wrap64_sub_turn (x : Int) : wrap64 (x - 2 ^ 64) = wrap64 x := by
  unfold wrap64
  exact Int.sub_bmod_right x (2 ^ 64)

theorem wrap64_add_left (x y : Int) : wrap64 (wrap64 x + y) = wrap64 (x + y) := Int.bmod_add_bmod

theorem wrap64_add_right (x y : Int) : wrap64 (x + wrap64 y) = wrap64 (x + y) := Int.add_bmod_bmod

theorem wrap64_wrap64 (x : Int) : wrap64 (wrap64 x) = wrap64 x := Int.bmod_bmod

theorem wrap64_add_congr {x y : Int} (h : wrap64 x = wrap64 y) (z : Int) : wrap64 (x + z) = wrap64 (y + z) := by
  rw [← wrap64_add_left, h, wrap64_add_left]

theorem wrap64_inj {x y : Int} (h : wrap64 x = wrap64 y) (hle : x - y < 2 ^ 64) (hge : y - x < 2 ^ 64) :
    x = y := by
  have hdvd : ((2 ^ 64 : Nat) : Int) ∣ x - y :=
    Int.dvd_of_bmod_eq_zero (Int.bmod_eq_bmod_iff_bmod_sub_eq_zero.mp h)
  obtain ⟨k, hk⟩ := hdvd
  norm_num at hk
  omega

/-- A 64-bit integer: the value with the proof of its range. -/
structure I64 where
  val : Int
  ge : -2 ^ 63 ≤ val
  lt : val < 2 ^ 63

namespace I64

instance : DecidableEq I64 := fun a b =>
  decidable_of_iff (a.val = b.val) ⟨fun h => by cases a; cases b; cases h; rfl, fun h => h ▸ rfl⟩

/-- The 64-bit integer an arbitrary integer wraps to. -/
def ofInt (x : Int) : I64 := ⟨wrap64 x, (wrap64_range x).1, (wrap64_range x).2⟩

instance (n : Nat) : OfNat I64 n := ⟨ofInt n⟩

theorem ofInt_val {x : Int} (h₁ : -2 ^ 63 ≤ x) (h₂ : x < 2 ^ 63) : (ofInt x).val = x :=
  wrap64_eq_self h₁ h₂

theorem ofInt_self (a : I64) : ofInt a.val = a := by
  cases a with
  | mk val ge lt => simp only [ofInt, wrap64_eq_self ge lt]

/-- Wrapping addition. -/
instance : Add I64 := ⟨fun a b => ofInt (a.val + b.val)⟩

instance : LE I64 := ⟨fun a b => a.val ≤ b.val⟩

instance : LT I64 := ⟨fun a b => a.val < b.val⟩

instance (a b : I64) : Decidable (a ≤ b) := inferInstanceAs (Decidable (a.val ≤ b.val))

instance (a b : I64) : Decidable (a < b) := inferInstanceAs (Decidable (a.val < b.val))

theorem le_def {a b : I64} : a ≤ b ↔ a.val ≤ b.val := Iff.rfl

theorem lt_def {a b : I64} : a < b ↔ a.val < b.val := Iff.rfl

theorem eq_def {a b : I64} : a = b ↔ a.val = b.val :=
  ⟨congrArg val, fun h => by cases a; cases b; cases h; rfl⟩

theorem zero_val : (0 : I64).val = 0 := rfl

theorem ofInt_ofInt_add (x y : Int) : ofInt ((ofInt x).val + y) = ofInt (x + y) := by
  simp only [ofInt, wrap64_add_left]

theorem ofInt_add_turns (x y : Int) : ofInt (x + 2 ^ 64 * y) = ofInt x := by
  have h : wrap64 (x + 2 ^ 64 * y) = wrap64 x := Int.add_mul_bmod_self_left x (2 ^ 64) y
  simp only [ofInt, h]

/-! ### Wrapping progressions -/

/-- The greatest power of two that divides `r`, unless that is zero. -/
def stride (r : I64) : Int := Int.gcd r.val (2 ^ 64)

/-- The greatest value that wrapping steps of `r` from `a` come to: the last one below `2^63` in the residue class of
`a` modulo the stride. -/
def highest (a r : I64) : Int := 2 ^ 63 - r.stride + a.val % r.stride

theorem stride_pos (r : I64) : 0 < r.stride :=
  Int.natCast_pos.mpr (Int.gcd_pos_of_ne_zero_right _ (by decide))

theorem stride_dvd_half {r : I64} (hr : 0 < r) : r.stride ∣ 2 ^ 63 := by
  rw [lt_def, zero_val] at hr
  have hpow : Int.gcd r.val (2 ^ 64) ∣ 2 ^ 64 := Int.natCast_dvd_natCast.mp (Int.gcd_dvd_right r.val (2 ^ 64))
  obtain ⟨j, hj, heq⟩ := (Nat.dvd_prime_pow Nat.prime_two).mp hpow
  have hle : (Int.gcd r.val (2 ^ 64) : Int) ≤ r.val := Int.le_of_dvd hr (Int.gcd_dvd_left r.val (2 ^ 64))
  have hj' : j ≤ 63 := by
    by_contra hgt
    obtain rfl : j = 64 := by omega
    have hlt := r.lt
    rw [heq] at hle
    norm_num at hle
    omega
  unfold stride
  rw [heq]
  push_cast
  exact pow_dvd_pow 2 hj'

theorem wrap64_emod_stride (r : I64) (x : Int) : wrap64 x % r.stride = x % r.stride := by
  obtain ⟨q, hq⟩ : ((2 ^ 64 : Nat) : Int) ∣ wrap64 x - x :=
    Int.dvd_of_bmod_eq_zero (Int.bmod_eq_bmod_iff_bmod_sub_eq_zero.mp (wrap64_wrap64 x))
  apply Int.emod_eq_emod_iff_emod_sub_eq_zero.mpr
  apply Int.emod_eq_zero_of_dvd
  rw [hq]
  exact Dvd.dvd.mul_right (Int.gcd_dvd_right r.val (2 ^ 64)) q

theorem ofInt_le_highest {a r : I64} (hr : 0 < r) (k : Nat) : (ofInt (a.val + k * r.val)).val ≤ highest a r := by
  obtain ⟨h, hh⟩ := stride_dvd_half hr
  obtain ⟨c, hc⟩ : r.stride ∣ r.val := Int.gcd_dvd_left r.val (2 ^ 64)
  have hpos := stride_pos r
  have hclass : (ofInt (a.val + k * r.val)).val % r.stride = a.val % r.stride := by
    change wrap64 (a.val + k * r.val) % r.stride = _
    rw [wrap64_emod_stride, hc, show a.val + k * (r.stride * c) = a.val + r.stride * (k * c) by ring,
      Int.add_mul_emod_self_left]
  have hdiv := Int.mul_ediv_add_emod (ofInt (a.val + k * r.val)).val r.stride
  have hrest := Int.emod_nonneg a.val hpos.ne'
  have hlt : (ofInt (a.val + k * r.val)).val < 2 ^ 63 := (ofInt _).lt
  have hquot : (ofInt (a.val + k * r.val)).val / r.stride + 1 ≤ h := by
    apply Int.lt_of_mul_lt_mul_left (a := r.stride) _ hpos.le
    omega
  have hmul := Int.mul_le_mul_of_nonneg_left hquot hpos.le
  rw [Int.mul_add, Int.mul_one, ← hh] at hmul
  unfold highest
  omega

theorem exists_ofInt_eq_highest {a r : I64} (hr : 0 < r) :
    ∃ k : Nat, (ofInt (a.val + k * r.val)).val = highest a r := by
  obtain ⟨h, hh⟩ := stride_dvd_half hr
  have hpos := stride_pos r
  have hdiv := Int.mul_ediv_add_emod a.val r.stride
  have hbezout : r.stride = r.val * Int.gcdA r.val (2 ^ 64) + 2 ^ 64 * Int.gcdB r.val (2 ^ 64) :=
    Int.gcd_eq_gcd_ab r.val (2 ^ 64)
  obtain ⟨steps, hsteps⟩ : ∃ steps, steps = (h - 1 - a.val / r.stride) * Int.gcdA r.val (2 ^ 64) := ⟨_, rfl⟩
  have hturns := Int.mul_ediv_add_emod steps (2 ^ 64)
  refine ⟨(steps % 2 ^ 64).toNat, ?_⟩
  rw [Int.toNat_of_nonneg (Int.emod_nonneg _ (by decide))]
  have hvalue : a.val + steps % 2 ^ 64 * r.val = highest a r +
      2 ^ 64 * (-((h - 1 - a.val / r.stride) * Int.gcdB r.val (2 ^ 64)) - steps / 2 ^ 64 * r.val) := by
    unfold highest
    rw [hh]
    linear_combination r.val * hturns + r.val * hsteps - (h - 1 - a.val / r.stride) * hbezout - hdiv
  rw [hvalue, ofInt_add_turns]
  have hrest := Int.emod_nonneg a.val hpos.ne'
  have hrest' := Int.emod_lt_of_pos a.val hpos
  have hle : r.stride ≤ 2 ^ 63 := Int.le_of_dvd (by decide) (stride_dvd_half hr)
  apply ofInt_val
  · unfold highest
    omega
  · unfold highest
    omega

theorem exists_le_ofInt_iff {a r : I64} (hr : 0 < r) (w : Int) :
    (∃ k : Nat, w ≤ (ofInt (a.val + k * r.val)).val) ↔ w ≤ highest a r := by
  constructor
  · rintro ⟨k, hk⟩
    exact hk.trans (ofInt_le_highest hr k)
  · intro hw
    obtain ⟨k, hk⟩ := exists_ofInt_eq_highest (a := a) hr
    exact ⟨k, hk ▸ hw⟩

end I64

end Lib
