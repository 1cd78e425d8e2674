import Proofload.Schedule.Scheduler

/-!
# Exactness of the schedule arithmetic (`core/schedule/scheduler.go`, `ramp.go`)

`offsetFor` and `opsInStep` split a product into whole seconds and a remainder, `LinearRamp` interpolates its rates by
a truncating division. As long as the results are representable, nothing overflows on the way and nothing is lost
beyond the final floor.

* `offsetFor_exact`, `opsInStep_exact` : the floors, and that every intermediate value is representable;
* `offsetFor_le_of_lt_opsInStep` : the operations of a step fall into it;
* `schedule_arithmetic_exact` : the three together, for every rate up to `9223372036`;
* `lerp_mono`, `lerp_anti`, `lerp_between` : integer interpolation, truncated towards its start;
* `linearRate_eq` : the rates of a linear ramp are interpolated without overflow.
-/

namespace Proofload.Schedule
open Lib

set_option autoImplicit false

/-! ## Offsets and step counts -/

/-- The products and the sum that `offsetFor` computes, over the integers. -/
def offsetTerms (n ops : Int) : List Int :=
  [n.tdiv ops * second, n.tmod ops * second, n.tdiv ops * second + (n.tmod ops * second).tdiv ops]

/-- The products and the sum that `opsInStep` computes, over the integers. -/
def stepTerms (rate dur : Int) : List Int :=
  [rate * dur.tdiv second, rate * dur.tmod second, rate * dur.tdiv second + (rate * dur.tmod second).tdiv second]

section Exact
variable {n ops d : Int}

theorem wrap64_terms {a b r : Int} (ha : 0 ≤ a) (hr : 0 ≤ r) (hrfit : r < 2 ^ 63) (hb : 0 ≤ b) (hsum : a + b < 2 ^ 63) :
    ∀ x ∈ [a, r, a + b], wrap64 x = x := by
  intro x hx
  simp only [List.mem_cons, List.not_mem_nil, or_false] at hx
  rcases hx with rfl | rfl | rfl
  · exact wrap64_eq_self (by omega) (by omega)
  · exact wrap64_eq_self (by omega) hrfit
  · exact wrap64_eq_self (by omega) hsum

/-- **The offset of an index is the floor**, and no intermediate value overflows. -/
theorem offsetFor_exact (hops : 0 < ops) (hmax : ops ≤ 9223372036) (hn : 0 ≤ n) (hfit : n * second / ops < 2 ^ 63) :
    offsetFor n ops = n * second / ops ∧ ∀ x ∈ offsetTerms n ops, wrap64 x = x := by
  have hnonneg : 0 ≤ n * second / ops := Int.ediv_nonneg (Int.mul_nonneg hn (by decide)) hops.le
  have hworst : (ops - 1) * second < 2 ^ 63 := by
    unfold second
    omega
  refine ⟨?_, ?_⟩
  · rw [offsetFor_eq hn hops hworst]
    exact wrap64_eq_self (by omega) hfit
  · have hsecs := Int.ediv_nonneg hn hops.le
    have hrem := Int.emod_nonneg n (by omega : ops ≠ 0)
    have hlt := Int.emod_lt_of_pos n hops
    have hprod : 0 ≤ n % ops * second := Int.mul_nonneg hrem (by decide)
    unfold offsetTerms
    rw [Int.tdiv_eq_ediv_of_nonneg hn, Int.tmod_eq_emod_of_nonneg hn, Int.tdiv_eq_ediv_of_nonneg hprod]
    apply wrap64_terms
    · exact Int.mul_nonneg hsecs (by decide)
    · exact hprod
    · unfold second at *
      omega
    · exact Int.ediv_nonneg hprod hops.le
    · rw [div_add_mod_mul_div n second hops]
      exact hfit

/-- **The operations of a step are the floor**, and no intermediate value overflows. -/
theorem opsInStep_exact (hops : 0 < ops) (hmax : ops ≤ 9223372036) (hd : 0 < d) (hfit : ops * d / second < 2 ^ 63) :
    opsInStep ops d = ops * d / second ∧ ∀ x ∈ stepTerms ops d, wrap64 x = x := by
  have hnonneg : 0 ≤ ops * d / second := Int.ediv_nonneg (Int.mul_nonneg hops.le hd.le) (by decide)
  have hworst : (ops - 1) * second < 2 ^ 63 := by
    unfold second
    omega
  refine ⟨?_, ?_⟩
  · rw [opsInStep_eq hops hd hworst]
    exact wrap64_eq_self (by omega) hfit
  · have hsecs := Int.ediv_nonneg hd.le (show 0 ≤ second by decide)
    have hrem := Int.emod_nonneg d (by decide : second ≠ 0)
    have hlt : d % second ≤ second - 1 := Int.le_sub_one_of_lt (Int.emod_lt_of_pos d (by decide))
    have hprod : 0 ≤ ops * (d % second) := Int.mul_nonneg hops.le hrem
    have hhigh : ops * (d % second) ≤ ops * (second - 1) := Int.mul_le_mul_of_nonneg_left hlt hops.le
    unfold stepTerms
    rw [Int.tdiv_eq_ediv_of_nonneg hd.le, Int.tmod_eq_emod_of_nonneg hd.le, Int.tdiv_eq_ediv_of_nonneg hprod]
    apply wrap64_terms
    · exact Int.mul_nonneg hops.le hsecs
    · exact hprod
    · unfold second at *
      omega
    · exact Int.ediv_nonneg hprod (by decide)
    · rw [Int.mul_comm ops (d / second), Int.mul_comm ops (d % second), div_add_mod_mul_div d ops (by decide),
        Int.mul_comm d]
      exact hfit

theorem offset_fits_of_le {m : Int} (hops : 0 < ops) (hmn : m ≤ n) (hfit : n * second / ops < 2 ^ 63) :
    m * second / ops ≤ n * second / ops ∧ m * second / ops < 2 ^ 63 := by
  have hle : m * second / ops ≤ n * second / ops :=
    Int.ediv_le_ediv hops (Int.mul_le_mul_of_nonneg_right hmn (by decide))
  exact ⟨hle, by omega⟩

theorem offsetFor_mono {m : Int} (hops : 0 < ops) (hmax : ops ≤ 9223372036) (hm : 0 ≤ m) (hmn : m ≤ n)
    (hfit : n * second / ops < 2 ^ 63) : offsetFor m ops ≤ offsetFor n ops := by
  obtain ⟨hle, hmfit⟩ := offset_fits_of_le hops hmn hfit
  rw [(offsetFor_exact hops hmax hm hmfit).1, (offsetFor_exact hops hmax (by omega) hfit).1]
  exact hle

theorem offsetFor_strictMono {m : Int} (hops : 0 < ops) (hnano : ops ≤ second) (hm : 0 ≤ m) (hmn : m < n)
    (hfit : n * second / ops < 2 ^ 63) : offsetFor m ops < offsetFor n ops := by
  have hmax : ops ≤ 9223372036 := by
    unfold second at hnano
    omega
  obtain ⟨-, hmfit⟩ := offset_fits_of_le hops hmn.le hfit
  rw [(offsetFor_exact hops hmax hm hmfit).1, (offsetFor_exact hops hmax (by omega) hfit).1]
  have hnum : m * second + ops * 1 ≤ n * second := by
    unfold second at *
    omega
  have hquot : (m * second + ops * 1) / ops ≤ n * second / ops := Int.ediv_le_ediv hops hnum
  rw [Int.add_mul_ediv_left _ _ (by omega)] at hquot
  omega

/-- **The operations of a step fall into it**: the last of them ends no later than the step. -/
theorem offsetFor_le_of_lt_opsInStep (hops : 0 < ops) (hmax : ops ≤ 9223372036) (hd : 0 < d) (hdmax : d < 2 ^ 63)
    (hfit : ops * d / second < 2 ^ 63) (hn : 0 ≤ n) (hlt : n < opsInStep ops d) : offsetFor (n + 1) ops ≤ d := by
  rw [(opsInStep_exact hops hmax hd hfit).1] at hlt
  have hprod : (n + 1) * second ≤ ops * d := (Int.le_ediv_iff_mul_le (by decide)).mp hlt
  have hle : (n + 1) * second / ops ≤ d := by
    apply Int.ediv_le_of_le_mul hops
    rw [Int.mul_comm d]
    exact hprod
  rw [(offsetFor_exact hops hmax (by omega) (by omega)).1]
  exact hle

end Exact

/-- **The schedule arithmetic is exact.** For every rate up to `9223372036` operations a second, whenever the result
is representable: the offset of an index is `⌊n * 10^9 / ops⌋` and the count of a step `⌊ops * d / 10^9⌋`, with every
intermediate value representable; offsets are monotone in the index, strictly up to one operation a nanosecond; and
the operations of a step fall into it. -/
theorem schedule_arithmetic_exact (ops : Int) (hops : 0 < ops) (hmax : ops ≤ 9223372036) :
    (∀ n, 0 ≤ n → n * second / ops < 2 ^ 63 →
      offsetFor n ops = n * second / ops ∧ ∀ x ∈ offsetTerms n ops, wrap64 x = x) ∧
    (∀ m n, 0 ≤ m → m ≤ n → n * second / ops < 2 ^ 63 → offsetFor m ops ≤ offsetFor n ops) ∧
    (ops ≤ second → ∀ m n, 0 ≤ m → m < n → n * second / ops < 2 ^ 63 → offsetFor m ops < offsetFor n ops) ∧
    ∀ d, 0 < d → d < 2 ^ 63 → ops * d / second < 2 ^ 63 →
      (opsInStep ops d = ops * d / second ∧ ∀ x ∈ stepTerms ops d, wrap64 x = x) ∧
      ∀ n, 0 ≤ n → n < opsInStep ops d → offsetFor (n + 1) ops ≤ d := by
  refine ⟨?_, ?_, ?_, ?_⟩
  · intro n hn hfit
    exact offsetFor_exact hops hmax hn hfit
  · intro m n hm hmn hfit
    exact offsetFor_mono hops hmax hm hmn hfit
  · intro hnano m n hm hmn hfit
    exact offsetFor_strictMono hops hnano hm hmn hfit
  · intro d hd hdmax hfit
    refine ⟨opsInStep_exact hops hmax hd hfit, ?_⟩
    intro n hn hlt
    exact offsetFor_le_of_lt_opsInStep hops hmax hd hdmax hfit hn hlt

/-- At the largest rate, with the largest remainder, and over a step of a second. -/
theorem schedule_arithmetic_exact_largest :
    offsetFor 9223372035 9223372036 = 999999999 ∧ opsInStep 9223372036 second = 9223372036 ∧
      offsetFor (9223372035 + 1) 9223372036 ≤ second := by
  obtain ⟨hoffset, -, -, hstep⟩ := schedule_arithmetic_exact 9223372036 (by decide) (by decide)
  obtain ⟨hcount, hinside⟩ := hstep second (by decide) (by decide) (by decide)
  refine ⟨(hoffset 9223372035 (by decide) (by decide)).1, hcount.1, ?_⟩
  exact hinside 9223372035 (by decide) (by rw [hcount.1]; decide)

/-! ## The rates of a linear ramp -/

/-- Integer interpolation: `i` of `m` parts of the way from `low` to `high`. -/
def lerp (low high m i : Int) : Int := low + ((high - low) * i).tdiv m

section Lerp
variable {low high m i j : Int}

@[simp]
theorem lerp_zero : lerp low high m 0 = low := by
  unfold lerp
  rw [Int.mul_zero, Int.zero_tdiv, Int.add_zero]

theorem lerp_last (hm : 0 < m) : lerp low high m m = high := by
  unfold lerp
  rw [Int.mul_tdiv_cancel _ (by omega)]
  omega

theorem lerp_mono (hm : 0 < m) (hle : low ≤ high) (hij : i ≤ j) : lerp low high m i ≤ lerp low high m j := by
  unfold lerp
  apply Int.add_le_add_left
  apply Int.tdiv_le_tdiv hm
  exact Int.mul_le_mul_of_nonneg_left hij (by omega)

theorem lerp_anti (hm : 0 < m) (hle : high ≤ low) (hij : i ≤ j) : lerp low high m j ≤ lerp low high m i := by
  unfold lerp
  apply Int.add_le_add_left
  apply Int.tdiv_le_tdiv hm
  exact Int.mul_le_mul_of_nonpos_left (by omega) hij

theorem lerp_between (hm : 0 < m) (hi : 0 ≤ i) (him : i ≤ m) :
    min low high ≤ lerp low high m i ∧ lerp low high m i ≤ max low high := by
  rcases Int.le_total low high with hle | hle
  · have hfirst := lerp_mono hm hle hi
    have hlast := lerp_mono hm hle him
    rw [lerp_zero] at hfirst
    rw [lerp_last hm] at hlast
    omega
  · have hfirst := lerp_anti hm hle hi
    have hlast := lerp_anti hm hle him
    rw [lerp_zero] at hfirst
    rw [lerp_last hm] at hlast
    omega

theorem mul_part_range (x : Int) (hi : 0 ≤ i) (him : i ≤ m) :
    min 0 (x * m) ≤ x * i ∧ x * i ≤ max 0 (x * m) := by
  rcases Int.le_total 0 x with hx | hx
  · have := Int.mul_nonneg hx hi
    have := Int.mul_le_mul_of_nonneg_left him hx
    omega
  · have := Int.mul_nonpos_of_nonpos_of_nonneg hx hi
    have := Int.mul_le_mul_of_nonpos_left hx him
    omega

end Lerp

/-- The ends of a ramp are rates of `int64`, and so is the product with the last step number. -/
structure LinearFits (low high nsteps : Int) : Prop where
  low_pos : 1 ≤ low
  low_lt : low < 2 ^ 63
  high_pos : 1 ≤ high
  high_lt : high < 2 ^ 63
  two_le : 2 ≤ nsteps
  product_ge : -2 ^ 63 ≤ (high - low) * (nsteps - 1)
  product_lt : (high - low) * (nsteps - 1) < 2 ^ 63

/-- **The rates of a linear ramp are interpolated without overflow.** -/
theorem linearRate_eq {low high nsteps i : Int} (h : LinearFits low high nsteps) (hi : 0 ≤ i) (hlast : i < nsteps) :
    linearRate low high nsteps i = lerp low high (nsteps - 1) i := by
  obtain ⟨hlow, hlowlt, hhigh, hhighlt, htwo, hge, hlt⟩ := h
  have hprod := mul_part_range (high - low) hi (show i ≤ nsteps - 1 by omega)
  have hbetween : min low high ≤ lerp low high (nsteps - 1) i ∧ lerp low high (nsteps - 1) i ≤ max low high :=
    lerp_between (by omega) hi (by omega)
  unfold linearRate
  rw [wrap64_eq_self (x := high - low) (by omega) (by omega), wrap64_eq_self (x := (high - low) * i) (by omega)
    (by omega)]
  exact wrap64_eq_self (x := lerp low high (nsteps - 1) i) (by omega) (by omega)

end Proofload.Schedule
