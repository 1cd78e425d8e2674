import Proofload.Cli.Load
import Proofload.Schedule.Exact
import Proofload.Schedule.Ramp

/-!
# The rates of a stress ramp (`core/schedule/ramp.go`, `core/cli/testtype.go`)

`LinearRamp` hands interpolated rates to `NewRamp`; the stress test asks it for five steps from a fifth of its
ceiling up to the ceiling.

* `map_rate_rampSegs` : the segments of a ramp have the rates of its usable steps;
* `linear_stress_ramp_iff` : how a linear ramp interpolates, and for which ceilings the stress ramp is the one
  that is announced.
-/

namespace Proofload.Cli
open Lib Schedule

set_option autoImplicit false

/-! ## Linear ramps -/

/-- The rates of the steps that `LinearRamp` builds. -/
def linearRates (low high : Int) (nsteps : Nat) : List Int :=
  (List.range nsteps).map fun i : Nat => linearRate low high nsteps i

/-- The steps that `LinearRamp` hands to `NewRamp`. -/
def linearSteps (low high : Int) (nsteps : Nat) (each : Int) : List RateStep :=
  (linearRates low high nsteps).map (⟨·, each⟩)

theorem linearRamp_eq {nsteps : Nat} (hn : 2 ≤ nsteps) (start low high each : Int) :
    linearRamp start low high nsteps each = newRamp start (linearSteps low high nsteps each) := by
  unfold linearRamp linearSteps linearRates
  rw [if_neg (by omega), List.map_map]
  rfl

@[simp]
theorem map_opsPerSec_linearSteps (low high : Int) (nsteps : Nat) (each : Int) :
    (linearSteps low high nsteps each).map (·.opsPerSec) = linearRates low high nsteps := by
  unfold linearSteps
  rw [List.map_map]
  exact List.map_id _

theorem duration_linearSteps {low high each : Int} {nsteps : Nat} {s : RateStep}
    (hs : s ∈ linearSteps low high nsteps each) : s.duration = each ∧ s.opsPerSec ∈ linearRates low high nsteps := by
  obtain ⟨r, hr, rfl⟩ := List.mem_map.mp hs
  exact ⟨rfl, hr⟩

/-- The interpolation a ramp is meant to have. -/
structure Interpolates (low high : Int) (nsteps : Nat) (rates : List Int) : Prop where
  length : rates.length = nsteps
  first : rates.head? = some low
  last : rates.getLast? = some high
  increasing : low ≤ high → rates.Pairwise (· ≤ ·)
  decreasing : high ≤ low → rates.Pairwise (· ≥ ·)
  between : ∀ r ∈ rates, min low high ≤ r ∧ r ≤ max low high

theorem linearRates_interpolates {low high : Int} {nsteps : Nat} (h : LinearFits low high nsteps) :
    Interpolates low high nsteps (linearRates low high nsteps) := by
  have htwo := h.two_le
  have heq : linearRates low high nsteps = (List.range nsteps).map fun i : Nat => lerp low high (nsteps - 1) i := by
    apply List.map_congr_left
    intro i hi
    have := List.mem_range.mp hi
    exact linearRate_eq h (by omega) (by omega)
  rw [heq]
  refine ⟨by simp, ?_, ?_, ?_, ?_, ?_⟩
  · rw [List.head?_map, List.head?_range, if_neg (by omega)]
    simp
  · rw [List.getLast?_map, List.getLast?_range, if_neg (by omega), Option.map_some, Nat.cast_sub (by omega)]
    exact congrArg some (lerp_last (by omega))
  · intro hle
    refine List.pairwise_map.mpr (List.pairwise_lt_range.imp ?_)
    intro i j hij
    exact lerp_mono (by omega) hle (by omega)
  · intro hle
    refine List.pairwise_map.mpr (List.pairwise_lt_range.imp ?_)
    intro i j hij
    exact lerp_anti (by omega) hle (by omega)
  · intro r hr
    obtain ⟨i, hi, rfl⟩ := List.mem_map.mp hr
    have := List.mem_range.mp hi
    exact lerp_between (by omega) (by omega) (by omega)

theorem map_rate_rampSegs (count offset : Int) (steps : List RateStep) :
    (rampSegs count offset steps).map (·.rate) = (usableSteps steps).map (·.opsPerSec) := by
  unfold usableSteps
  induction steps generalizing count offset with
  | nil => rfl
  | cons s steps ih =>
      unfold rampSegs
      by_cases hs : s.Usable
      · have hkept := hs
        unfold RateStep.Usable at hkept
        rw [if_neg (by omega), List.filter_cons_of_pos (by simpa using hs), List.map_cons, List.map_cons, ih]
      · have hskipped := hs
        unfold RateStep.Usable at hskipped
        rw [if_pos (by omega), List.filter_cons_of_neg (by simpa using hs), ih]

/-! ## The stress ramp -/

/-- The announced length of a step: a fifth of the run, a second if that is nothing. -/
def fifth (duration : I64) : Int := if duration.val / 5 = 0 then second else duration.val / 5

/-- The announced stress ramp: five steps of equal length with non-decreasing rates, from a fifth of the ceiling (at
least one) to the ceiling. -/
structure StressRamp (R : Int) (duration : I64) (segs : List RampSeg) : Prop where
  length : segs.length = 5
  increasing : (segs.map (·.rate)).Pairwise (· ≤ ·)
  first : (segs.map (·.rate)).head? = some (max 1 (R / 5))
  last : (segs.map (·.rate)).getLast? = some R
  offsets : segs.map (·.startOffset) = (List.range 5).map fun i : Nat => i * fifth duration

section Stress
variable {R : Int} {duration : I64}

theorem stressFrom_eq (hR : 1 ≤ R) : stressFrom R = max 1 (R / 5) := by
  unfold stressFrom
  rw [Int.tdiv_eq_ediv_of_nonneg (by omega)]
  split_ifs <;> omega

theorem stressStep_eq_fifth (hD : 0 < duration.val) : stressStep duration = fifth duration := by
  rw [stressStep_eq]
  unfold fifth
  split_ifs <;> omega

theorem linearFits_stress (hR : 1 ≤ R) (hlt : R < 2 ^ 63) (hfit : 4 * (R - max 1 (R / 5)) < 2 ^ 63) :
    LinearFits (stressFrom R) R (5 : Nat) := by
  rw [stressFrom_eq hR]
  constructor <;> omega

theorem map_startOffset_rampSegs {rates : List Int} {each : Int} (hlen : rates.length = 5) (hpos : ∀ r ∈ rates, 0 < r)
    (heach : 0 < each) (hfit : 4 * each < 2 ^ 63) :
    (rampSegs 0 0 (rates.map (⟨·, each⟩))).map (·.startOffset) = (List.range 5).map fun i : Nat => i * each := by
  have husable : ∀ s ∈ rates.map (RateStep.mk · each), 0 < s.opsPerSec ∧ 0 < s.duration := by
    intro s hs
    obtain ⟨r, hr, rfl⟩ := List.mem_map.mp hs
    exact ⟨hpos r hr, heach⟩
  apply List.ext_getElem?
  intro i
  rw [List.getElem?_map, List.getElem?_map, rampSegs_getElem? husable rfl rfl, List.getElem?_map]
  by_cases hi : i < 5
  · have htime : timeBefore (rates.map (RateStep.mk · each)) i = i * each := by
      unfold timeBefore
      rw [← List.map_take, List.map_map]
      show ((rates.take i).map fun _ => each).sum = _
      rw [List.map_const', List.sum_replicate, List.length_take, hlen, Nat.min_eq_left hi.le, nsmul_eq_mul]
    have hlow : 0 ≤ i * each := Int.mul_nonneg (by omega) heach.le
    have hhigh : i * each ≤ 4 * each := Int.mul_le_mul_of_nonneg_right (by omega) heach.le
    rw [List.getElem?_eq_getElem (by omega), List.getElem?_range hi]
    simp only [Option.map_some, htime, Int.zero_add]
    rw [wrap64_eq_self (by omega) (by omega)]
  · rw [List.getElem?_eq_none (by omega), List.getElem?_eq_none (by simp; omega)]
    rfl

theorem stressRamp_of_fits (hR : 1 ≤ R) (hlt : R < 2 ^ 63) (hD : 0 < duration.val)
    (hfit : 4 * (R - max 1 (R / 5)) < 2 ^ 63) (start : Int) (mode : RateMode) :
    ∃ segs, buildScheduler start .stress ⟨mode, R⟩ duration = .ramp start segs ∧ StressRamp R duration segs := by
  have hrates := linearRates_interpolates (linearFits_stress hR hlt hfit)
  have hstep := stressStep_pos duration
  have hfrom := stressFrom_eq hR
  have hpos : ∀ r ∈ linearRates (stressFrom R) R 5, 0 < r := by
    intro r hr
    have := hrates.between r hr
    omega
  have husable : usableSteps (linearSteps (stressFrom R) R 5 (stressStep duration)) =
      linearSteps (stressFrom R) R 5 (stressStep duration) := by
    refine List.filter_eq_self.mpr ?_
    intro s hs
    obtain ⟨hd, hr⟩ := duration_linearSteps hs
    exact decide_eq_true ⟨hpos _ hr, by omega⟩
  have hne : usableSteps (linearSteps (stressFrom R) R 5 (stressStep duration)) ≠ [] := by
    rw [husable]
    intro hnil
    have hlength := congrArg (fun l : List RateStep => (l.map (·.opsPerSec)).length) hnil
    simp [hrates.length] at hlength
  have hbuild : buildScheduler start .stress ⟨mode, R⟩ duration =
      newRamp start (linearSteps (stressFrom R) R 5 (stressStep duration)) := linearRamp_eq (by omega) ..
  have hmap : (rampSegs 0 0 (linearSteps (stressFrom R) R 5 (stressStep duration))).map (·.rate) =
      linearRates (stressFrom R) R 5 := by
    rw [map_rate_rampSegs, husable, map_opsPerSec_linearSteps]
  refine ⟨_, hbuild.trans (newRamp_eq hne start).1, ?_⟩
  rw [husable]
  constructor
  · have hlength := congrArg List.length hmap
    rw [List.length_map, hrates.length] at hlength
    exact hlength
  · rw [hmap]
    exact hrates.increasing (by omega)
  · rw [hmap, hrates.first, hfrom]
  · rw [hmap, hrates.last]
  · rw [← stressStep_eq_fifth hD]
    exact map_startOffset_rampSegs hrates.length hpos hstep (four_stressStep_lt duration)

/-- Once the product for the last step overflows, the last rate is not the ceiling. -/
theorem linearRate_overflow (hR : 1 ≤ R) (hlt : R < 2 ^ 63) (hover : 2 ^ 63 ≤ 4 * (R - max 1 (R / 5))) :
    linearRate (stressFrom R) R (5 : Nat) (4 : Nat) ≠ R := by
  rw [stressFrom_eq hR]
  show wrap64 (max 1 (R / 5) + (wrap64 (wrap64 (R - max 1 (R / 5)) * 4)).tdiv 4) ≠ R
  generalize hx : R - max 1 (R / 5) = x at hover
  obtain ⟨k, hone, htwo, hwrap⟩ : ∃ k : Int, 1 ≤ k ∧ k ≤ 2 ∧ wrap64 (x * 4) = (x - 2 ^ 62 * k) * 4 := by
    by_cases hsecond : x * 4 < 3 * 2 ^ 63
    · refine ⟨1, by omega, by omega, ?_⟩
      rw [← wrap64_sub_turn, wrap64_eq_self (by omega) (by omega)]
      omega
    · refine ⟨2, by omega, by omega, ?_⟩
      rw [← wrap64_sub_turn, ← wrap64_sub_turn, wrap64_eq_self (by omega) (by omega)]
      omega
  rw [wrap64_eq_self (x := x) (by omega) (by omega), hwrap, Int.mul_tdiv_cancel _ (by decide),
    wrap64_eq_self (by omega) (by omega)]
  omega

theorem eq_rampSegs_of_newRamp {start : Int} {steps : List RateStep} {segs : List RampSeg}
    (h : newRamp start steps = .ramp start segs) : segs = rampSegs 0 0 steps := by
  unfold newRamp at h
  split at h
  · cases h
  · next hsegs =>
      cases h
      exact hsegs.symm

theorem fits_of_stressRamp (hR : 1 ≤ R) (hlt : R < 2 ^ 63) {start : Int} {mode : RateMode} {segs : List RampSeg}
    (hbuild : buildScheduler start .stress ⟨mode, R⟩ duration = .ramp start segs) (h : StressRamp R duration segs) :
    4 * (R - max 1 (R / 5)) < 2 ^ 63 := by
  by_contra hover
  have hnew : newRamp start (linearSteps (stressFrom R) R 5 (stressStep duration)) = .ramp start segs :=
    (linearRamp_eq (by omega) ..).symm.trans hbuild
  have hmap : segs.map (·.rate) =
      (usableSteps (linearSteps (stressFrom R) R 5 (stressStep duration))).map (·.opsPerSec) := by
    rw [eq_rampSegs_of_newRamp hnew, map_rate_rampSegs]
  have hall : usableSteps (linearSteps (stressFrom R) R 5 (stressStep duration)) =
      linearSteps (stressFrom R) R 5 (stressStep duration) := by
    apply List.filter_sublist.eq_of_length
    have hlength := congrArg List.length hmap
    rw [List.length_map, List.length_map, h.length] at hlength
    rw [usableSteps] at hlength
    rw [← hlength]
    simp [linearSteps, linearRates]
  have hlast := h.last
  rw [hmap, hall, map_opsPerSec_linearSteps, linearRates, List.getLast?_map] at hlast
  exact linearRate_overflow hR hlt (by omega) (Option.some.inj hlast)

end Stress

/-- **Linear ramps interpolate faithfully.** While the products with the step numbers do not overflow, the rates of
`LinearRamp` start at `low`, end at `high`, go monotonically from the one to the other and stay between them. The
stress ramp of a ceiling `R` is the announced one, with five segments and nothing skipped, exactly if four times the
difference to its first rate does not overflow. -/
theorem linear_stress_ramp_iff :
    (∀ (low high : Int) (nsteps : Nat), LinearFits low high nsteps → ∀ start each : Int,
      linearRamp start low high nsteps each = newRamp start (linearSteps low high nsteps each) ∧
        Interpolates low high nsteps ((linearSteps low high nsteps each).map (·.opsPerSec))) ∧
    ∀ (R duration : I64) (start : Int) (mode : RateMode), 1 ≤ R.val → 0 < duration.val →
      ((∃ segs, buildScheduler start .stress ⟨mode, R.val⟩ duration = .ramp start segs ∧
        StressRamp R.val duration segs) ↔ 4 * (R.val - max 1 (R.val / 5)) < 2 ^ 63) := by
  refine ⟨?_, ?_⟩
  · intro low high nsteps hfits start each
    have htwo := hfits.two_le
    refine ⟨linearRamp_eq (by omega) .., ?_⟩
    rw [map_opsPerSec_linearSteps]
    exact linearRates_interpolates hfits
  · intro R duration start mode hR hD
    constructor
    · rintro ⟨segs, hbuild, hramp⟩
      exact fits_of_stressRamp hR R.lt hbuild hramp
    · intro hfit
      exact stressRamp_of_fits hR R.lt hD hfit start mode

/-- At the largest ceiling the rates go up and down, and the last one comes out as -1, so that its step is
skipped. -/
theorem largest_ceiling_skips_a_step :
    linearRates (stressFrom (2 ^ 63 - 1)) (2 ^ 63 - 1) 5 =
      [1844674407370955161, 3689348814741910322, 922337203685477580, 2767011611056432741, -1] ∧
    ∃ segs, buildScheduler 0 .stress ⟨.fixed, 2 ^ 63 - 1⟩ ⟨5000000000, by decide, by decide⟩ = .ramp 0 segs ∧
      segs.map (·.rate) =
        [1844674407370955161, 3689348814741910322, 922337203685477580, 2767011611056432741] := by
  refine ⟨by decide +kernel, rampSegs 0 0 (linearSteps (stressFrom (2 ^ 63 - 1)) (2 ^ 63 - 1) 5 second), ?_, ?_⟩
  · decide +kernel
  · decide +kernel

/-- A ramp down from 10 to 3 in four steps, and the stress ramp of a ceiling below five. -/
theorem linear_stress_ramp_small :
    Interpolates 10 3 4 ((linearSteps 10 3 4 second).map (·.opsPerSec)) ∧
      ∃ segs, buildScheduler 0 .stress ⟨.fixed, 3⟩ ⟨7, by decide, by decide⟩ = .ramp 0 segs ∧
        StressRamp 3 ⟨7, by decide, by decide⟩ segs := by
  have hfits : LinearFits 10 3 (4 : Nat) := by constructor <;> decide
  refine ⟨(linear_stress_ramp_iff.1 10 3 4 hfits 0 second).2, ?_⟩
  exact (linear_stress_ramp_iff.2 ⟨3, by decide, by decide⟩ ⟨7, by decide, by decide⟩ 0 .fixed (by decide)
    (by decide)).mpr (by decide)

example : linearRates 10 3 4 = [10, 8, 6, 3] := by decide

end Proofload.Cli
