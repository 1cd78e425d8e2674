import Proofload.Cli.Load
import Proofload.Schedule.Ramp

/-!
# The stress ramp and the measure phase (`core/cli/run.go`, `testtype.go`, `core/runner/runner.go`)

`drive` anchors the ramp at the start of the run, `runner.Run` measures from the end of the warmup on. The ramp has
five steps of a fifth of the measure duration each.

* `stress_step_of_index` : the step that issues an index, and the offsets of the step;
* `stress_covers_measure_iff` : when each fifth of the measure window is driven at its own rate.
-/

namespace Proofload.Cli
open Lib Schedule

set_option autoImplicit false

/-- The intended time `t` is in the `i`-th fifth of the measure window of a run that starts at `start`. -/
def InFifth (pp : DriveParams) (start : Int) (i : Nat) (t : Int) : Prop :=
  start + pp.warmup.val + i * (pp.duration.val / 5) ≤ t ∧ t < start + pp.warmup.val + (i + 1) * (pp.duration.val / 5)

/-- Every intended time in the `i`-th fifth of the measure window is issued at the `i`-th rate of the ramp. -/
def CoversMeasure (pp : DriveParams) (start : Int) (segs : List RampSeg) : Prop :=
  ∀ n, Placed (stressSteps pp.rate.opsPerSec pp.duration) n → ∀ i : Nat, i < 5 → ∀ now t seg,
    (Scheduler.ramp start segs).next now n = some t → InFifth pp start i t → segmentFor segs n = some seg →
      seg.rate = stressRate pp.rate.opsPerSec i

/-- There is no warmup, or the ramp is flat, or the warmup outlasts the first four steps and none of the operations of
the last step whose index and offset fit comes in the first four fifths of the measure window. -/
def LateOrFlat (pp : DriveParams) : Prop :=
  pp.warmup.val = 0 ∨ pp.rate.opsPerSec = 1 ∨
    (4 * (pp.duration.val / 5) < pp.warmup.val ∧ ∀ k : Nat,
      Placed (stressSteps pp.rate.opsPerSec pp.duration)
        (opsBefore (stressSteps pp.rate.opsPerSec pp.duration) 4 + k) →
      ¬ (pp.warmup.val - 4 * (pp.duration.val / 5) ≤ k * second / pp.rate.opsPerSec ∧
        k * second / pp.rate.opsPerSec < pp.warmup.val))

section Steps
variable {R : Int} {duration : I64}

theorem stressSteps_getElem? {i : Nat} (hi : i < 5) :
    (stressSteps R duration)[i]? = some ⟨stressRate R i, stressStep duration⟩ := by
  unfold stressSteps
  rw [List.getElem?_map, List.getElem?_range hi]
  rfl

theorem timeBefore_stressSteps {i : Nat} (hi : i ≤ 5) :
    timeBefore (stressSteps R duration) i = i * stressStep duration := by
  unfold timeBefore stressSteps
  rw [← List.map_take, List.take_range, Nat.min_eq_left hi, List.map_map]
  simp [Function.comp_def]

theorem stressRate_four (R : Int) : stressRate R 4 = R := by
  unfold stressRate
  omega

/-- Above one operation a second the ramp reaches its ceiling in the last step only. -/
theorem stressRate_lt (hR : 2 ≤ R) {i : Nat} (hi : i < 4) : stressRate R i < R := by
  obtain ⟨-, hle, hflat⟩ := stressFrom_range (show 0 < R by omega)
  have hne : stressFrom R ≠ R := fun h => absurd (hflat.mp h) (by omega)
  have hhigh : (R - stressFrom R) * i ≤ (R - stressFrom R) * 3 := Int.mul_le_mul_of_nonneg_left (by omega) (by omega)
  unfold stressRate
  omega

variable (hR : 0 < R)

include hR

theorem opsBefore_stressSteps_mul_le {i : Nat} (hi : i ≤ 5) :
    opsBefore (stressSteps R duration) i * second ≤ R * (i * stressStep duration) := by
  rw [← timeBefore_stressSteps hi]
  apply opsUpTo_mul_le (by decide) (stressSteps_usable duration hR) _ hi
  intro s hs
  obtain ⟨j, hj, rfl⟩ := List.mem_map.mp hs
  exact (stressRate_range hR (by have := List.mem_range.mp hj; omega)).2

theorem exactOffset_last_step (k : Nat) :
    exactOffset (stressSteps R duration) (opsBefore (stressSteps R duration) 4 + k) =
      4 * stressStep duration + k * second / R := by
  have hlast : exactOffset (stressSteps R duration) (opsBefore (stressSteps R duration) 4 + k) =
      timeBefore (stressSteps R duration) 4 +
        (opsBefore (stressSteps R duration) 4 + k - opsBefore (stressSteps R duration) 4) * second / stressRate R 4 :=
    arrival_eq (by decide) (stressSteps_usable duration hR) (stressSteps_getElem? (by omega))
      (show opsBefore (stressSteps R duration) 4 ≤ opsBefore (stressSteps R duration) 4 + k by omega)
      (fun h => absurd h (show ¬ 4 + 1 < 5 by omega))
  rw [hlast, timeBefore_stressSteps (by omega), stressRate_four, add_sub_cancel_left]
  rfl

theorem exists_last_index {n : Int} (hn : 0 ≤ n)
    (hlast : 4 * stressStep duration ≤ exactOffset (stressSteps R duration) n) :
    ∃ k : Nat, n = opsBefore (stressSteps R duration) 4 + k := by
  have hstart : timeBefore (stressSteps R duration) 4 ≤ exactOffset (stressSteps R duration) n ↔
      opsBefore (stressSteps R duration) 4 ≤ n :=
    le_arrival_iff (by decide) (stressSteps_usable duration hR) (show 4 < 5 by omega) hn
  rw [timeBefore_stressSteps (by omega)] at hstart
  have hbegun := hstart.mp (by push_cast; exact hlast)
  exact ⟨(n - opsBefore (stressSteps R duration) 4).toNat, by omega⟩

/-- An index of the last step is placed exactly if it fits and so does its offset. -/
theorem placed_last_step_iff (k : Nat) :
    Placed (stressSteps R duration) (opsBefore (stressSteps R duration) 4 + k) ↔
      opsBefore (stressSteps R duration) 4 + k < 2 ^ 63 ∧ 4 * stressStep duration + k * second / R < 2 ^ 63 := by
  have hnonneg := opsBefore_nonneg (stressSteps_usable duration hR) 4
  rw [← exactOffset_last_step hR]
  exact ⟨fun h => ⟨h.index, h.offset⟩, fun h => ⟨by omega, h.1, h.2⟩⟩

/-- An index of the last step within `w` of its start is placed, if the operations up to there fit. -/
theorem placed_last_step {w : Int} {k : Nat} (hw : k * second / R < w)
    (hops : R * (4 * stressStep duration + w) < 2 ^ 63 * second) (hend : 4 * stressStep duration + w < 2 ^ 63) :
    Placed (stressSteps R duration) (opsBefore (stressSteps R duration) 4 + k) := by
  rw [placed_last_step_iff hR]
  have hbefore : opsBefore (stressSteps R duration) 4 * second ≤ R * ((4 : Nat) * stressStep duration) :=
    opsBefore_stressSteps_mul_le hR (by omega)
  have hk : k * second < w * R := Int.lt_mul_of_ediv_lt hR hw
  rw [Int.mul_add, Int.mul_comm R w] at hops
  unfold second at *
  push_cast at hbefore
  omega

theorem fits_stressSteps (hfit : (R - 1) * second < 2 ^ 63)
    (htotal : R * (4 * stressStep duration) < 2 ^ 63 * second) : Fits (stressSteps R duration) where
  rates s hs := by
    obtain ⟨j, hj, rfl⟩ := List.mem_map.mp hs
    have := (stressRate_range hR (show j ≤ 4 by have := List.mem_range.mp hj; omega)).2
    unfold second at *
    show (stressRate R j - 1) * _ < _
    omega
  counts i hi := by
    change i < 5 at hi
    have hbound : opsBefore (stressSteps R duration) 4 * second ≤ R * ((4 : Nat) * stressStep duration) :=
      opsBefore_stressSteps_mul_le hR (by omega)
    have hmono : opsBefore (stressSteps R duration) i ≤ opsBefore (stressSteps R duration) 4 :=
      opsUpTo_mono (by decide) (stressSteps_usable duration hR) (by omega)
    unfold second at *
    push_cast at hbound
    omega
  offsets i hi := by
    change i < 5 at hi
    have hlast := four_stressStep_lt duration
    have hmono : (i : Int) * stressStep duration ≤ 4 * stressStep duration :=
      Int.mul_le_mul_of_nonneg_right (by omega) (stressStep_pos duration).le
    rw [timeBefore_stressSteps (by omega)]
    omega

theorem stress_step_of_index (hfits : Fits (stressSteps R duration)) {n : Int}
    (hn : Placed (stressSteps R duration) n) :
    ∃ j : Nat, j < 5 ∧
      offsetForIndex (rampSegs 0 0 (stressSteps R duration)) n = some (exactOffset (stressSteps R duration) n) ∧
      (∃ seg, segmentFor (rampSegs 0 0 (stressSteps R duration)) n = some seg ∧ seg.rate = stressRate R j) ∧
      j * stressStep duration ≤ exactOffset (stressSteps R duration) n ∧
      (j < 4 → exactOffset (stressSteps R duration) n < (j + 1) * stressStep duration) := by
  have husable := stressSteps_usable duration hR
  have hne : stressSteps R duration ≠ [] := by simp [stressSteps]
  obtain ⟨j, s, hs, hbegun, hnext⟩ := exists_step second RateStep.opsPerSec RateStep.duration hne hn.nonneg
  have hj : j < 5 := (List.getElem?_eq_some_iff.mp hs).1
  have hstart := (le_arrival_iff (by decide) husable hj hn.nonneg).mpr hbegun
  change timeBefore (stressSteps R duration) j ≤ exactOffset (stressSteps R duration) n at hstart
  rw [timeBefore_stressSteps (by omega)] at hstart
  refine ⟨j, hj, offsetForIndex_rampSegs husable hfits hne hn,
    ⟨_, segmentFor_rampSegs husable (hfits.countsFit husable) hs hbegun hnext, ?_⟩,
    hstart, fun hj₄ => ?_⟩
  · rw [stressSteps_getElem? hj] at hs
    obtain rfl := Option.some.inj hs
    rfl
  · have hlater := hnext (show j + 1 < 5 by omega)
    have hend : timeBefore (stressSteps R duration) (j + 1) ≤ exactOffset (stressSteps R duration) n ↔
        opsBefore (stressSteps R duration) (j + 1) ≤ n :=
      le_arrival_iff (by decide) husable (show j + 1 < 5 by omega) hn.nonneg
    rw [timeBefore_stressSteps (by omega)] at hend
    push_cast at hend
    change n < opsBefore _ _ at hlater
    omega

end Steps

section Measure
variable {pp : DriveParams}

theorem scheduler_stress (hR : 0 < pp.rate.opsPerSec) (hfit : (pp.rate.opsPerSec - 1) * second < 2 ^ 63)
    (hstress : pp.testType = .stress) (start : Int) :
    pp.scheduler start = .ramp start (rampSegs 0 0 (stressSteps pp.rate.opsPerSec pp.duration)) := by
  unfold DriveParams.scheduler
  rw [hstress]
  exact buildScheduler_stress hR hfit start pp.rate.mode

theorem exists_fifth {d x : Int} (hd : 0 < d) (hx : 0 ≤ x) (hlt : x < 4 * d) :
    ∃ i : Nat, i < 4 ∧ i * d ≤ x ∧ x < (i + 1) * d := by
  have hquot : x / d < 4 := Int.ediv_lt_of_lt_mul hd hlt
  have hnonneg : 0 ≤ x / d := Int.ediv_nonneg hx hd.le
  refine ⟨(x / d).toNat, by omega, ?_, ?_⟩
  · rw [Int.toNat_of_nonneg hnonneg]
    exact Int.ediv_mul_le x hd.ne'
  · rw [Int.toNat_of_nonneg hnonneg]
    exact Int.lt_ediv_add_one_mul_self x hd

theorem eq_of_fifth {d x : Int} {i j : Nat} (hd : 0 < d) (hi : i < 5) (hbegin : j * d ≤ x)
    (hbefore : j < 4 → x < (j + 1) * d) (hlow : i * d ≤ x) (hhigh : x < (i + 1) * d) : i = j := by
  have hji : (j : Int) < i + 1 := lt_of_mul_lt_mul_right (lt_of_le_of_lt hbegin hhigh) hd.le
  have hij : j < 4 → (i : Int) < j + 1 := fun hj => lt_of_mul_lt_mul_right (lt_of_le_of_lt hlow (hbefore hj)) hd.le
  omega

theorem ceiling_fits {R : Int} {duration : I64} (hfits : Fits (stressSteps R duration)) :
    (R - 1) * second < 2 ^ 63 := by
  have hlast := hfits.rates _ (List.mem_of_getElem? (stressSteps_getElem? (show 4 < 5 by omega)))
  rwa [stressRate_four] at hlast

/-- An index of the last step in front of the last fifth of the measure window is issued at a rate that is too high. -/
theorem not_coversMeasure {start : Int} (hR : 2 ≤ pp.rate.opsPerSec)
    (hfits : Fits (stressSteps pp.rate.opsPerSec pp.duration)) (hstep : stressStep pp.duration = pp.duration.val / 5)
    {k : Nat} (hplaced : Placed (stressSteps pp.rate.opsPerSec pp.duration)
      (opsBefore (stressSteps pp.rate.opsPerSec pp.duration) 4 + k))
    (hlow : pp.warmup.val - 4 * stressStep pp.duration ≤ k * second / pp.rate.opsPerSec)
    (hhigh : k * second / pp.rate.opsPerSec < pp.warmup.val) :
    ¬ CoversMeasure pp start (rampSegs 0 0 (stressSteps pp.rate.opsPerSec pp.duration)) := by
  intro hcovers
  have hpos : 0 < pp.rate.opsPerSec := by omega
  have husable := stressSteps_usable pp.duration hpos
  have hcode := offsetForIndex_rampSegs husable hfits (by simp [stressSteps]) hplaced
  rw [exactOffset_last_step hpos] at hcode
  have hseg := segmentFor_rampSegs husable (hfits.countsFit husable) (i := 4) (stressSteps_getElem? (by omega))
    (Int.le_add_of_nonneg_right (Int.natCast_nonneg k)) (fun h => absurd h (show ¬ 4 + 1 < 5 by omega))
  obtain ⟨i, hi, hbegin, hbefore⟩ := exists_fifth (stressStep_pos pp.duration)
    (show 0 ≤ 4 * stressStep pp.duration + k * second / pp.rate.opsPerSec - pp.warmup.val by omega) (by omega)
  have hrate := hcovers _ hplaced i (by omega) start _ _ (congrArg (Option.map (start + ·)) hcode) ?_ hseg
  · have := stressRate_lt hR hi
    rw [← hrate] at this
    change stressRate pp.rate.opsPerSec 4 < _ at this
    rw [stressRate_four] at this
    omega
  · unfold InFifth
    rw [← hstep]
    dsimp only
    constructor <;> omega

/-- Behind a warmup that outlasts the first four steps, with no operation in the first four fifths of the window: an
index in the window belongs to the last step, and to the last fifth. -/
theorem last_of_late {duration : I64} {R W x : Int} {i j : Nat} (hR : 0 < R) (hi : i < 5) (hj : j < 5)
    (hlong : 4 * stressStep duration < W)
    (hnone : ∀ k : Nat, Placed (stressSteps R duration) (opsBefore (stressSteps R duration) 4 + k) →
      ¬ (W - 4 * stressStep duration ≤ k * second / R ∧ k * second / R < W)) {n : Int}
    (hn : Placed (stressSteps R duration) n) (hx : x = exactOffset (stressSteps R duration) n)
    (hbefore : j < 4 → x < (j + 1) * stressStep duration)
    (hlow : W + i * stressStep duration ≤ x) (hhigh : x < W + (i + 1) * stressStep duration) : i = 4 ∧ j = 4 := by
  have hs := stressStep_pos duration
  have hle : ∀ m : Nat, m < 4 → ((m : Int) + 1) * stressStep duration ≤ 4 * stressStep duration :=
    fun m hm => Int.mul_le_mul_of_nonneg_right (by omega) hs.le
  have hnonneg : 0 ≤ (i : Int) * stressStep duration := Int.mul_nonneg (by omega) hs.le
  constructor
  · by_contra hne
    obtain ⟨k, rfl⟩ := exists_last_index hR hn.nonneg (show 4 * stressStep duration ≤ _ by omega)
    rw [exactOffset_last_step hR] at hx
    have := hle i (by omega)
    exact hnone k hn (by omega)
  · by_contra hne
    have := hle j (by omega)
    have := hbefore (by omega)
    omega

/-- **The stress ramp and the measure phase.** Where the ramp does not overflow, each fifth of the measure window is
driven at its own rate exactly if there is no warmup, or the ramp is flat, or the warmup outlasts the first four steps
and no operation at the full rate is intended in the first four fifths of the window. -/
theorem stress_covers_measure_iff (htest : pp.testType = .stress) (hR : 1 ≤ pp.rate.opsPerSec)
    (hW : 0 ≤ pp.warmup.val) (hD : 0 < pp.duration.val) (hfifth : 5 ∣ pp.duration.val) (start : Int) :
    (Fits (stressSteps pp.rate.opsPerSec pp.duration) ∧ LateOrFlat pp →
      ∃ segs, pp.scheduler start = .ramp start segs ∧ CoversMeasure pp start segs) ∧
    (Fits (stressSteps pp.rate.opsPerSec pp.duration) →
      (∃ segs, pp.scheduler start = .ramp start segs ∧ CoversMeasure pp start segs) → LateOrFlat pp) := by
  have hstep : stressStep pp.duration = pp.duration.val / 5 := by
    rw [stressStep_eq, if_neg (by omega)]
  have hs := stressStep_pos pp.duration
  have hpos : 0 < pp.rate.opsPerSec := by omega
  unfold LateOrFlat
  rw [← hstep]
  constructor
  · rintro ⟨hfits, hcond⟩
    refine ⟨_, scheduler_stress hpos (ceiling_fits hfits) htest start, ?_⟩
    intro n hn i hi now t seg hnext hin hseg
    obtain ⟨j, hj, hcode, ⟨seg', hseg', hrate⟩, hbegin, hbefore⟩ := stress_step_of_index hpos hfits hn
    rw [hseg'] at hseg
    obtain rfl := Option.some.inj hseg
    rw [hrate]
    change (offsetForIndex _ _).map (start + ·) = some t at hnext
    rw [hcode] at hnext
    obtain rfl := Option.some.inj hnext
    unfold InFifth at hin
    rw [← hstep] at hin
    dsimp only at hin
    rcases hcond with hzero | hflat | ⟨hlong, hnone⟩
    · rw [eq_of_fifth hs hi hbegin hbefore (by omega) (by omega)]
    · rw [hflat, stressRate_one (by omega), stressRate_one (by omega)]
    · obtain ⟨rfl, rfl⟩ := last_of_late hpos hi hj hlong hnone hn rfl hbefore (by omega) (by omega)
      rfl
  · rintro hfits ⟨segs, hsegs, hcovers⟩
    rw [scheduler_stress hpos (ceiling_fits hfits) htest start, Scheduler.ramp.injEq] at hsegs
    obtain ⟨-, rfl⟩ := hsegs
    by_contra hnot
    push Not at hnot
    obtain ⟨hwarm, hramped, hlate⟩ := hnot
    obtain ⟨k, hplaced, hlow, hhigh⟩ : ∃ k : Nat, Placed (stressSteps pp.rate.opsPerSec pp.duration)
        (opsBefore (stressSteps pp.rate.opsPerSec pp.duration) 4 + k) ∧
        pp.warmup.val - 4 * stressStep pp.duration ≤ k * second / pp.rate.opsPerSec ∧
        k * second / pp.rate.opsPerSec < pp.warmup.val := by
      by_cases hshort : pp.warmup.val ≤ 4 * stressStep pp.duration
      · have hcount := hfits.counts 4 (show 4 < 5 by omega)
        have hfour := four_stressStep_lt pp.duration
        refine ⟨0, (placed_last_step_iff hpos 0).mpr ?_, ?_, ?_⟩ <;> simp <;> omega
      · exact hlate (by omega)
    exact not_coversMeasure (by omega) hfits hstep hplaced hlow hhigh hcovers

end Measure

/-- A stress run up to ten operations a second with the given warmup, measured for five seconds. -/
def stressRun (warmup : I64) : DriveParams :=
  { rate := ⟨.fixed, 10⟩, connections := 1, warmup := warmup, duration := 5000000000, seed := 42, workerID := 0,
    workerCount := 1, startAt := none, testType := .stress }

/-- After one second of warmup the measure phase begins with the second step: index 2 is intended at its start and
issued at four operations a second, the rate of the second fifth, and index 20 at the full rate in the fourth fifth. -/
theorem warmup_shifts_ramp :
    (stressRun 1000000000).scheduler 0 = .ramp 0 (rampSegs 0 0 (stressSteps 10 5000000000)) ∧
    ((Scheduler.ramp 0 (rampSegs 0 0 (stressSteps 10 5000000000))).next 0 2 = some 1000000000 ∧
      segmentFor (rampSegs 0 0 (stressSteps 10 5000000000)) 2 = some ⟨2, 1000000000, 4⟩ ∧
      InFifth (stressRun 1000000000) 0 0 1000000000 ∧ stressRate 10 0 = 2) ∧
    ((Scheduler.ramp 0 (rampSegs 0 0 (stressSteps 10 5000000000))).next 0 20 = some 4000000000 ∧
      segmentFor (rampSegs 0 0 (stressSteps 10 5000000000)) 20 = some ⟨20, 4000000000, 10⟩ ∧
      InFifth (stressRun 1000000000) 0 3 4000000000 ∧ stressRate 10 3 = 8) := by
  unfold InFifth
  decide +kernel

theorem stress_covers_measure_iff_without_warmup :
    ∃ segs, (stressRun 0).scheduler 0 = .ramp 0 segs ∧ CoversMeasure (stressRun 0) 0 segs := by
  have htest : (stressRun 0).testType = .stress := rfl
  have hfits : Fits (stressSteps (stressRun 0).rate.opsPerSec (stressRun 0).duration) :=
    fits_stressSteps (by decide) (by decide) (by decide)
  exact (stress_covers_measure_iff htest (by decide) (by decide) (by decide) (by decide) 0).1 ⟨hfits, Or.inl rfl⟩

end Proofload.Cli
