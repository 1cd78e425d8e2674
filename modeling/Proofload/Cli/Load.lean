import Proofload.Schedule.Scheduler
import Proofload.Cluster.Coordinator
import Mathlib.Tactic.IntervalCases

/-!
# The load of a run (`core/cli/testtype.go`, `run.go`, `distributed.go`)

How the flags and the resolved configuration become an arrival schedule, on a single node and through the
`RunSpec` that a coordinator broadcasts to its workers. Left out: what does not reach the schedule (schema,
verification, faults, output).

* `sum_workerRates`, `worker_isOpenLoop_iff` : what the workers of a fixed-rate run are given;
* `split_rate_iff` : the aggregate rate survives the split exactly if the workers divide it evenly;
* `offsetForIndex_last_step` : where the last step of a stress ramp starts;
* `one_worker_load_iff` : when one distributed worker drives the load of the single-node run.
-/

namespace Proofload.Cli
open Lib Schedule

set_option autoImplicit false

/-! ## Flags, configuration and schedules -/

/-- The flags of `run` that the load depends on. -/
structure RunFlags where
  workload : String
  rate : I64
  seed : I64
  workers : Int
  test : String
deriving DecidableEq

def resolveTestType (f : RunFlags) : Except String TestType :=
  if f.test = "" then .ok (if 0 < f.rate.val then .load else .benchmark)
  else if f.test = "benchmark" then .ok .benchmark
  else if f.test = "load" then
    if f.rate.val ≤ 0 then .error "--test load requires --rate (the constant arrival rate)" else .ok .load
  else if f.test = "stress" then
    if f.rate.val ≤ 0 then .error "--test stress requires --rate (the ramp ceiling)" else .ok .stress
  else if f.test = "acid" then .ok .acid
  else if f.test = "combined" then .ok .combined
  else .error s!"unknown --test {String.quote f.test} (want benchmark|load|stress|acid|combined)"

/-- The values below the `--rate` flag: files, environment and the other flags. -/
structure Layers where
  connections : Int
  duration : I64
  warmup : I64
  consistency : String
  endpoints : List String
  opsPerSec : I64
deriving DecidableEq

structure Settings where
  connections : Int
  duration : I64
  warmup : I64
  consistency : String
  endpoints : List String
  rate : RateSpec
deriving DecidableEq

/-- `overrides`: only a positive `--rate` is set over the layers below. -/
def overrides (k : Layers) (f : RunFlags) : Layers := if 0 < f.rate.val then { k with opsPerSec := f.rate } else k

def readSettings (k : Layers) : Settings :=
  { connections := k.connections, duration := k.duration, warmup := k.warmup, consistency := k.consistency,
    endpoints := k.endpoints, rate := if 0 < k.opsPerSec.val then ⟨.fixed, k.opsPerSec.val⟩ else ⟨.unset, 0⟩ }

def resolve (k : Layers) (f : RunFlags) : Settings := readSettings (overrides k f)

/-- The duration of a step of the stress ramp. -/
def stressStep (duration : I64) : Int :=
  let step := duration.val.tdiv 5
  if step ≤ 0 then second else step

/-- The rate of the first step. -/
def stressFrom (top : Int) : Int := if top.tdiv 5 < 1 then 1 else top.tdiv 5

def buildScheduler (start : Int) (tt : TestType) (rate : RateSpec) (duration : I64) : Scheduler :=
  match tt with
  | .benchmark => newClosedLoop start
  | .stress => linearRamp start (stressFrom rate.opsPerSec) rate.opsPerSec 5 (stressStep duration)
  | .unset | .load | .acid | .combined => newOpenLoop start rate

/-- The parameters of `drive` that it passes on to the schedule, the workload and the runner. -/
structure DriveParams where
  rate : RateSpec
  connections : Int
  warmup : I64
  duration : I64
  seed : I64
  workerID : Int
  workerCount : Int
  startAt : Option Int
  testType : TestType
deriving DecidableEq

/-- The schedule of `drive`. -/
def DriveParams.scheduler (pp : DriveParams) (start : Int) : Scheduler :=
  buildScheduler start pp.testType pp.rate pp.duration

/-- What `doRun` drives on a single node. -/
def runParams (f : RunFlags) (s : Settings) (tt : TestType) : DriveParams :=
  { rate := s.rate, connections := s.connections, warmup := s.warmup, duration := s.duration, seed := f.seed,
    workerID := 0, workerCount := 1, startAt := none, testType := tt }

/-- What `coordinate` broadcasts. -/
def runSpec (target : String) (f : RunFlags) (s : Settings) : Cluster.RunSpec :=
  { target := target, workload := f.workload, endpoints := s.endpoints, consistency := s.consistency,
    connections := s.connections, warmup := s.warmup, duration := s.duration, rateOpsPerSec := s.rate.opsPerSec,
    seed := f.seed, workerCount := f.workers }

def workerRate (spec : Cluster.RunSpec) : RateSpec :=
  if spec.rateOpsPerSec ≤ 0 ∨ spec.workerCount ≤ 0 then ⟨.unset, 0⟩
  else ⟨.fixed, spec.rateOpsPerSec.tdiv spec.workerCount⟩

/-- What `doWorker` drives; the test type stays at its zero value. -/
def workerParams (spec : Cluster.RunSpec) (id : Int) (startAt : Option Int) : DriveParams :=
  { rate := workerRate spec, connections := spec.connections, warmup := spec.warmup, duration := spec.duration,
    seed := spec.seed, workerID := id, workerCount := spec.workerCount, startAt := startAt, testType := .unset }

/-! ## Splitting a fixed rate -/

section Split
variable {spec : Cluster.RunSpec}

theorem workerRate_eq (hrate : 0 < spec.rateOpsPerSec) (hcount : 1 ≤ spec.workerCount) :
    workerRate spec = ⟨.fixed, spec.rateOpsPerSec / spec.workerCount⟩ := by
  unfold workerRate
  rw [if_neg (by omega), Int.tdiv_eq_ediv_of_nonneg hrate.le]

/-- Together the workers get the multiple of their number below the aggregate rate. -/
theorem sum_workerRates (hrate : 0 < spec.rateOpsPerSec) (hcount : 1 ≤ spec.workerCount) (startAt : Option Int) :
    ((List.range spec.workerCount.toNat).map fun id : Nat => (workerParams spec id startAt).rate.opsPerSec).sum =
      spec.workerCount * (spec.rateOpsPerSec / spec.workerCount) := by
  have hconst : ∀ id : Nat, (workerParams spec id startAt).rate.opsPerSec = spec.rateOpsPerSec / spec.workerCount := by
    intro id
    show (workerRate spec).opsPerSec = _
    rw [workerRate_eq hrate hcount]
  simp only [hconst, List.map_const', List.sum_replicate, List.length_range, nsmul_eq_mul]
  rw [Int.toNat_of_nonneg (by omega)]

/-- A worker is driven at a rate if every worker gets at least one operation a second. -/
theorem worker_isOpenLoop_iff (hrate : 0 < spec.rateOpsPerSec) (hcount : 1 ≤ spec.workerCount) (id : Int)
    (startAt : Option Int) (start : Int) :
    ((workerParams spec id startAt).scheduler start).isOpenLoop = true ↔ spec.workerCount ≤ spec.rateOpsPerSec := by
  show (newOpenLoop start (workerRate spec)).isOpenLoop = true ↔ _
  rw [workerRate_eq hrate hcount]
  unfold newOpenLoop
  by_cases hle : spec.workerCount ≤ spec.rateOpsPerSec
  · have hpos : 1 ≤ spec.rateOpsPerSec / spec.workerCount := Int.le_ediv_of_mul_le (by omega) (by omega)
    rw [if_neg (by simp; omega)]
    simp [Scheduler.isOpenLoop, hle]
  · rw [Int.ediv_eq_zero_of_lt hrate.le (by omega)]
    simp [newClosedLoop, Scheduler.isOpenLoop, hle]

/-- A broadcast with the given rate and number of workers. -/
def fixedRateSpec (rate workers : Int) : Cluster.RunSpec :=
  { target := "redis", workload := "kv", endpoints := ["127.0.0.1:6379"], consistency := "", connections := 1,
    warmup := 0, duration := 10000000000, rateOpsPerSec := rate, seed := 42, workerCount := workers }

/-- **Splitting a fixed rate.** The rates of the workers sum to the aggregate rate, with every worker driven at its
rate, exactly if the number of workers divides the aggregate rate. -/
theorem split_rate_iff (hrate : 0 < spec.rateOpsPerSec) (hcount : 1 ≤ spec.workerCount) (startAt : Option Int)
    (start : Int) :
    (((List.range spec.workerCount.toNat).map fun id : Nat => (workerParams spec id startAt).rate.opsPerSec).sum =
        spec.rateOpsPerSec ∧
      ∀ id : Nat, id < spec.workerCount.toNat → ((workerParams spec id startAt).scheduler start).isOpenLoop = true) ↔
    spec.workerCount ∣ spec.rateOpsPerSec := by
  rw [sum_workerRates hrate hcount]
  constructor
  · rintro ⟨hsum, -⟩
    exact ⟨_, hsum.symm⟩
  · intro hdvd
    refine ⟨Int.mul_ediv_cancel' hdvd, fun id _ => ?_⟩
    rw [worker_isOpenLoop_iff hrate hcount]
    exact Int.le_of_dvd hrate hdvd

/-- Ten operations a second over three workers: one is lost. One over two workers: neither worker is driven at a
rate. -/
theorem uneven_rate_lost :
    ((List.range 3).map fun id : Nat => (workerParams (fixedRateSpec 10 3) id none).rate.opsPerSec).sum = 9 ∧
    ((workerParams (fixedRateSpec 1 2) 0 none).scheduler 0) = .closedLoop ∧
    ((workerParams (fixedRateSpec 1 2) 1 none).scheduler 0) = .closedLoop := by
  decide +kernel

theorem split_rate_iff_on_three_workers :
    ((List.range 3).map fun id : Nat => (workerParams (fixedRateSpec 12 3) id none).rate.opsPerSec).sum = 12 ∧
      ∀ id : Nat, id < 3 → ((workerParams (fixedRateSpec 12 3) id none).scheduler 0).isOpenLoop = true := by
  have hrate : 0 < (fixedRateSpec 12 3).rateOpsPerSec := by decide
  have hcount : 1 ≤ (fixedRateSpec 12 3).workerCount := by decide
  exact (split_rate_iff hrate hcount none 0).mpr (by decide)

end Split

/-! ## The stress ramp -/

section Stress
variable {R : Int} {duration : I64}

theorem stressStep_eq (duration : I64) :
    stressStep duration = if duration.val < 5 then second else duration.val / 5 := by
  unfold stressStep
  dsimp only
  by_cases hneg : duration.val < 0
  · have hquot : duration.val.tdiv 5 = -(-duration.val / 5) := by
      rw [← Int.tdiv_eq_ediv_of_nonneg (by omega), Int.neg_tdiv, Int.neg_neg]
    rw [if_pos (by omega), if_pos (by omega)]
  · rw [Int.tdiv_eq_ediv_of_nonneg (by omega)]
    exact if_congr (by omega) rfl rfl

theorem stressStep_pos (duration : I64) : 0 < stressStep duration := by
  rw [stressStep_eq]
  unfold second
  split <;> omega

theorem four_stressStep_lt (duration : I64) : 4 * stressStep duration < 2 ^ 63 := by
  have := duration.lt
  rw [stressStep_eq]
  unfold second
  split <;> omega

theorem stressFrom_range (hR : 0 < R) : 1 ≤ stressFrom R ∧ stressFrom R ≤ R ∧ (stressFrom R = R ↔ R = 1) := by
  unfold stressFrom
  rw [Int.tdiv_eq_ediv_of_nonneg hR.le]
  split <;> omega

/-- The rate of step `i`. -/
def stressRate (R : Int) (i : Nat) : Int := stressFrom R + (R - stressFrom R) * i / 4

theorem stressRate_range (hR : 0 < R) {i : Nat} (hi : i ≤ 4) : 1 ≤ stressRate R i ∧ stressRate R i ≤ R := by
  obtain ⟨hone, hle, -⟩ := stressFrom_range hR
  have hlow : 0 ≤ (R - stressFrom R) * i := Int.mul_nonneg (by omega) (by omega)
  have hhigh : (R - stressFrom R) * i ≤ (R - stressFrom R) * 4 := Int.mul_le_mul_of_nonneg_left (by omega) (by omega)
  unfold stressRate
  omega

/-- The steps of the ramp. -/
def stressSteps (R : Int) (duration : I64) : List RateStep :=
  (List.range 5).map fun i => ⟨stressRate R i, stressStep duration⟩

theorem stressSteps_usable (duration : I64) (hR : 0 < R) :
    ∀ s ∈ stressSteps R duration, 0 < s.opsPerSec ∧ 0 < s.duration := by
  intro s hs
  obtain ⟨i, hi, rfl⟩ := List.mem_map.mp hs
  have := List.mem_range.mp hi
  have := stressRate_range hR (show i ≤ 4 by omega)
  exact ⟨by show 0 < stressRate R i; omega, stressStep_pos duration⟩

theorem linearRate_stress (hR : 0 < R) (hfit : (R - 1) * second < 2 ^ 63) {i : Nat} (hi : i ≤ 4) :
    linearRate (stressFrom R) R 5 i = stressRate R i := by
  obtain ⟨hone, hle, -⟩ := stressFrom_range hR
  have hrange := stressRate_range hR hi
  have hlow : 0 ≤ (R - stressFrom R) * i := Int.mul_nonneg (by omega) (by omega)
  have hhigh : (R - stressFrom R) * i ≤ (R - stressFrom R) * 4 := Int.mul_le_mul_of_nonneg_left (by omega) (by omega)
  unfold second at hfit
  unfold linearRate
  rw [wrap64_eq_self (x := R - stressFrom R) (by omega) (by omega),
    wrap64_eq_self (x := (R - stressFrom R) * i) (by omega) (by omega), Int.tdiv_eq_ediv_of_nonneg hlow]
  exact wrap64_eq_self (x := stressRate R i) (by omega) (by omega)

/-- Below the overflow of its rates a stress schedule is the ramp over `stressSteps`. -/
theorem buildScheduler_stress (hR : 0 < R) (hfit : (R - 1) * second < 2 ^ 63) (start : Int) (mode : RateMode) :
    buildScheduler start .stress ⟨mode, R⟩ duration = .ramp start (rampSegs 0 0 (stressSteps R duration)) := by
  have hsteps : ((List.range 5).map fun i : Nat =>
      (⟨linearRate (stressFrom R) R (5 : Nat) i, stressStep duration⟩ : RateStep)) = stressSteps R duration := by
    refine List.map_congr_left fun i hi => ?_
    have := List.mem_range.mp hi
    exact congrArg (RateStep.mk · _) (linearRate_stress hR hfit (by omega))
  show newRamp start _ = _
  rw [hsteps]
  unfold newRamp
  have hlength := length_rampSegs (stressSteps_usable duration hR) 0 0
  split
  · next h => rw [h] at hlength; cases hlength
  · next h => rw [h]

/-- The operations of the first `i` steps. -/
def stressCount (R : Int) (duration : I64) (i : Nat) : Int :=
  ((List.range i).map fun j => opsInStep (stressRate R j) (stressStep duration)).sum

theorem stressCount_succ (R : Int) (duration : I64) (i : Nat) :
    stressCount R duration (i + 1) = stressCount R duration i + opsInStep (stressRate R i) (stressStep duration) := by
  unfold stressCount
  rw [List.range_succ, List.map_append, List.sum_append]
  simp

theorem stress_segment (duration : I64) (hR : 0 < R) {i : Nat} (hi : i ≤ 4) :
    (rampSegs 0 0 (stressSteps R duration))[i]? =
      some ⟨wrap64 (stressCount R duration i), wrap64 (i * stressStep duration), stressRate R i⟩ := by
  have hget : (stressSteps R duration)[i]? = some ⟨stressRate R i, stressStep duration⟩ := by
    unfold stressSteps
    rw [List.getElem?_map, List.getElem?_range (by omega)]
    rfl
  have htake : (stressSteps R duration).take i = (List.range i).map fun j => ⟨stressRate R j, stressStep duration⟩ := by
    unfold stressSteps
    rw [← List.map_take, List.take_range, Nat.min_eq_left (by omega)]
  rw [rampSegs_getElem? (stressSteps_usable duration hR) rfl rfl, hget, Option.map_some, Int.zero_add, Int.zero_add]
  congr 2
  · unfold countBefore stressCount
    rw [htake, List.map_map]
    rfl
  · unfold timeBefore
    rw [htake, List.map_map]
    simp [Function.comp_def]

/-- A step has the operations of its rate, with no wraparound if four steps at the full rate fit. -/
theorem stress_opsInStep (hR : 0 < R) (hfit : R * second < 2 ^ 63)
    (htotal : R * (4 * stressStep duration) < 2 ^ 63 * second) {j : Nat} (hj : j ≤ 4) :
    opsInStep (stressRate R j) (stressStep duration) = stressRate R j * stressStep duration / second := by
  have hd := stressStep_pos duration
  obtain ⟨hone, hle⟩ := stressRate_range hR hj
  have hprod : stressRate R j * stressStep duration ≤ R * stressStep duration :=
    Int.mul_le_mul_of_nonneg_right hle hd.le
  have hlow : 0 ≤ stressRate R j * stressStep duration := Int.mul_nonneg (by omega) hd.le
  rw [Int.mul_left_comm] at htotal
  unfold second at *
  rw [opsInStep_eq (by omega) hd (by unfold second; omega)]
  unfold second
  exact wrap64_eq_self (by omega) (by omega)

/-- The first steps fall behind the full rate, by the deficit of the first one at least. -/
theorem stressCount_range (hR : 0 < R) (hfit : R * second < 2 ^ 63)
    (htotal : R * (4 * stressStep duration) < 2 ^ 63 * second) {i : Nat} (hi : i ≤ 3) :
    0 ≤ stressCount R duration i ∧ stressCount R duration i ≤ stressCount R duration (i + 1) ∧
      stressCount R duration (i + 1) * second ≤ stressFrom R * stressStep duration + i * (R * stressStep duration) := by
  have hd := stressStep_pos duration
  have hstep : ∀ j ≤ 4, 0 ≤ opsInStep (stressRate R j) (stressStep duration) ∧
      opsInStep (stressRate R j) (stressStep duration) * second ≤ stressRate R j * stressStep duration := by
    intro j hj
    rw [stress_opsInStep hR hfit htotal hj]
    exact ⟨Int.ediv_nonneg (Int.mul_nonneg (by have := stressRate_range hR hj; omega) hd.le) (by decide),
      Int.ediv_mul_le _ (by decide)⟩
  induction i with
  | zero =>
      obtain ⟨hnonneg, hle⟩ := hstep 0 (by omega)
      rw [stressCount_succ]
      have hzero : stressCount R duration 0 = 0 := rfl
      have hfrom : stressRate R 0 = stressFrom R := by simp [stressRate]
      rw [hfrom] at hle hnonneg ⊢
      rw [hzero]
      refine ⟨by omega, by omega, by simpa using hle⟩
  | succ i ih =>
      obtain ⟨hnonneg, hmono, hbound⟩ := ih (by omega)
      obtain ⟨hops, hle⟩ := hstep (i + 1) (by omega)
      have hrate : stressRate R (i + 1) * stressStep duration ≤ R * stressStep duration :=
        Int.mul_le_mul_of_nonneg_right (stressRate_range hR (by omega)).2 hd.le
      rw [stressCount_succ R duration (i + 1)]
      refine ⟨by omega, by omega, ?_⟩
      push_cast
      linarith [Int.add_mul (stressCount R duration (i + 1))
          (opsInStep (stressRate R (i + 1)) (stressStep duration)) second,
        Int.add_mul (i : Int) 1 (R * stressStep duration)]

theorem stressCount_le (hR : 0 < R) (hfit : R * second < 2 ^ 63)
    (htotal : R * (4 * stressStep duration) < 2 ^ 63 * second) {i : Nat} (hi : i ≤ 4) :
    0 ≤ stressCount R duration i ∧ stressCount R duration i ≤ stressCount R duration 4 := by
  have h₀ := stressCount_range hR hfit htotal (show 0 ≤ 3 by omega)
  have h₁ := stressCount_range hR hfit htotal (show 1 ≤ 3 by omega)
  have h₂ := stressCount_range hR hfit htotal (show 2 ≤ 3 by omega)
  have h₃ := stressCount_range hR hfit htotal (show 3 ≤ 3 by omega)
  simp only [Nat.reduceAdd] at h₀ h₁ h₂ h₃
  interval_cases i <;> omega

theorem stressCount_deficit (hR : 0 < R) (hfit : R * second < 2 ^ 63)
    (htotal : R * (4 * stressStep duration) < 2 ^ 63 * second) :
    stressCount R duration 4 < 2 ^ 63 ∧ stressCount R duration 4 * second ≤ R * (4 * stressStep duration) ∧
      (stressCount R duration 4 * second = R * (4 * stressStep duration) → R = 1) := by
  have hd := stressStep_pos duration
  obtain ⟨hone, hle, hflat⟩ := stressFrom_range hR
  have hfirst : stressFrom R * stressStep duration ≤ R * stressStep duration := Int.mul_le_mul_of_nonneg_right hle hd.le
  have hbound := (stressCount_range hR hfit htotal (show 3 ≤ 3 by omega)).2.2
  rw [Int.mul_left_comm] at htotal ⊢
  push_cast at hbound
  have hdeficit : stressCount R duration 4 * second ≤ 4 * (R * stressStep duration) := by omega
  refine ⟨?_, hdeficit, fun heq => ?_⟩
  · unfold second at hdeficit htotal
    omega
  · apply hflat.mp
    exact Int.eq_of_mul_eq_mul_right hd.ne' (by omega)

theorem offsetForIndex_last_step (hR : 0 < R) (hfit : R * second < 2 ^ 63)
    (htotal : R * (4 * stressStep duration) < 2 ^ 63 * second) :
    offsetForIndex (rampSegs 0 0 (stressSteps R duration)) (stressCount R duration 4) =
      some (4 * stressStep duration) := by
  have hd := stressStep_pos duration
  have hshort := four_stressStep_lt duration
  have hcount := stressCount_le hR hfit htotal (Nat.le_refl 4)
  obtain ⟨hlt, -, -⟩ := stressCount_deficit hR hfit htotal
  have hlength := length_rampSegs (stressSteps_usable duration hR) 0 0
  rw [offsetForIndex_eq (stress_segment duration hR (Nat.le_refl 4))]
  · dsimp only
    rw [wrap64_eq_self (x := stressCount R duration 4) (by omega) hlt, Int.sub_self,
      show offsetFor (wrap64 0) (stressRate R 4) = 0 by simp [offsetFor, wrap64], Int.add_zero,
      wrap64_eq_self (wrap64_range _).1 (wrap64_range _).2, wrap64_eq_self (by omega) (by omega)]
    rfl
  · intro j hj s hs
    rw [stress_segment duration hR hj] at hs
    obtain rfl := Option.some.inj hs
    have := stressCount_le hR hfit htotal hj
    show wrap64 (stressCount R duration j) ≤ _
    rw [wrap64_eq_self (by omega) (by omega)]
    exact this.2
  · intro j s hj hs
    have := (List.getElem?_eq_some_iff.mp hs).1
    rw [hlength] at this
    change j < 5 at this
    omega

theorem stressRate_one {i : Nat} (hi : i ≤ 4) : stressRate 1 i = 1 := by
  have := stressRate_range one_pos hi
  omega

theorem stressCount_one {i : Nat} (hi : i ≤ 4) : stressCount 1 duration i = i * (stressStep duration / second) := by
  have hshort := four_stressStep_lt duration
  have htotal : 1 * (4 * stressStep duration) < 2 ^ 63 * second := by unfold second; omega
  induction i with
  | zero => simp [stressCount]
  | succ i ih =>
      rw [stressCount_succ, ih (by omega), stress_opsInStep one_pos (by decide) htotal (by omega),
        stressRate_one (by omega), Int.one_mul]
      push_cast
      ring

/-- **A stress ramp is not a constant schedule**, unless it is flat with steps of whole seconds: when its last step
starts, the full rate is ahead of it. -/
theorem stress_sameArrivals (hR : 0 < R) (hfit : R * second < 2 ^ 63)
    (htotal : R * (4 * stressStep duration) < 2 ^ 63 * second) {start : Int}
    (h : SameArrivals (.ramp start (rampSegs 0 0 (stressSteps R duration))) (.openLoop start R)) :
    R = 1 ∧ second ∣ stressStep duration := by
  have hd := stressStep_pos duration
  have hshort := four_stressStep_lt duration
  have hcount := stressCount_le hR hfit htotal (Nat.le_refl 4)
  obtain ⟨hlt, hdeficit, hflat⟩ := stressCount_deficit hR hfit htotal
  have hnext : (offsetForIndex _ _).map (start + ·) = some (start + offsetFor _ _) := h start _ hcount.1 hlt
  rw [offsetForIndex_last_step hR hfit htotal, offsetFor_eq hcount.1 hR (by unfold second at *; omega)] at hnext
  simp only [Option.map_some, Option.some.injEq, add_right_inj] at hnext
  have hquot : stressCount R duration 4 * second / R ≤ 4 * stressStep duration :=
    Int.ediv_le_of_le_mul hR (by rw [Int.mul_comm _ R]; exact hdeficit)
  have hnonneg : 0 ≤ stressCount R duration 4 * second / R :=
    Int.ediv_nonneg (Int.mul_nonneg hcount.1 (by decide)) hR.le
  rw [wrap64_eq_self (by omega) (by omega)] at hnext
  have hfull : stressCount R duration 4 * second = R * (4 * stressStep duration) := by
    refine le_antisymm hdeficit ?_
    rw [hnext]
    exact Int.mul_ediv_self_le hR.ne'
  obtain rfl := hflat hfull
  refine ⟨rfl, ?_⟩
  rw [stressCount_one (Nat.le_refl 4)] at hfull
  unfold second at hfull ⊢
  push_cast at hfull
  omega

/-- **A flat ramp of whole seconds is the constant schedule**: whatever segment an index is looked up in. -/
theorem flat_sameArrivals (hwhole : second ∣ stressStep duration) (start : Int) :
    SameArrivals (.ramp start (rampSegs 0 0 (stressSteps 1 duration))) (.openLoop start 1) := by
  have hd := stressStep_pos duration
  have hshort := four_stressStep_lt duration
  intro now n hn hlt
  show (offsetForIndex _ _).map (start + ·) = some (start + offsetFor n 1)
  obtain ⟨i, seg, hseg, hstarted, hoffset⟩ := offsetForIndex_spec
    (stress_segment duration one_pos (Nat.zero_le 4)) (show wrap64 (stressCount 1 duration 0) ≤ n from hn)
  have hi := (List.getElem?_eq_some_iff.mp hseg).1
  rw [length_rampSegs (stressSteps_usable duration one_pos)] at hi
  change i < 5 at hi
  rw [stress_segment duration one_pos (by omega), stressCount_one (by omega)] at hseg
  obtain rfl := Option.some.inj hseg
  rw [hoffset]
  dsimp only at hstarted ⊢
  obtain ⟨k, hk⟩ := hwhole
  have hquot : stressStep duration / second = k := by
    rw [hk]
    exact Int.mul_ediv_cancel_left k (by decide)
  have hik : 0 ≤ (i : Int) * k ∧ (i : Int) * k ≤ 4 * k := by
    have hk₀ : 0 ≤ k := by unfold second at hk; omega
    exact ⟨Int.mul_nonneg (by omega) hk₀, Int.mul_le_mul_of_nonneg_right (by omega) hk₀⟩
  have hrange : (i : Int) * k < 2 ^ 63 := by unfold second at hk; omega
  rw [hquot, wrap64_eq_self (by omega) hrange] at hstarted ⊢
  rw [stressRate_one (by omega), wrap64_eq_self (x := n - i * k) (by omega) (by omega),
    offsetFor_eq (by omega) one_pos (by decide), offsetFor_eq hn one_pos (by decide), Int.ediv_one, Int.ediv_one,
    wrap64_add_left, wrap64_add_right, hk, Option.map_some]
  congr 3
  ring

theorem stress_total (hR : 0 < R) (hfit : R * second < 2 ^ 63) (hops : R * (duration.val / second + 1) < 2 ^ 63) :
    R * (4 * stressStep duration) < 2 ^ 63 * second := by
  rw [stressStep_eq]
  by_cases hshort : duration.val < 5
  · rw [if_pos hshort, Int.mul_left_comm]
    unfold second at *
    omega
  · rw [if_neg hshort]
    have hle : 4 * (duration.val / 5) ≤ (duration.val / second + 1) * second := by
      unfold second
      omega
    calc R * (4 * (duration.val / 5)) ≤ R * ((duration.val / second + 1) * second) :=
          Int.mul_le_mul_of_nonneg_left hle hR.le
      _ = R * (duration.val / second + 1) * second := by ring
      _ < 2 ^ 63 * second := Int.mul_lt_mul_of_pos_right hops (by decide)

end Stress

/-! ## One worker -/

/-- The schedule of the single-node run. -/
def singleNode (k : Layers) (f : RunFlags) (tt : TestType) (start : Int) : Scheduler :=
  (runParams f (resolve k f) tt).scheduler start

/-- The schedule of the only worker, for the same flags. -/
def oneWorker (target : String) (k : Layers) (f : RunFlags) (id : Int) (startAt : Option Int) (start : Int) :
    Scheduler :=
  (workerParams (runSpec target { f with workers := 1 } (resolve k { f with workers := 1 })) id startAt).scheduler start

/-- The flags and the configuration that give one worker the load of a single node: a benchmark without any rate, or a
flat ramp of whole seconds, or any other type of test. -/
def Carried (k : Layers) (f : RunFlags) : Prop :=
  (f.test = "" → 0 < f.rate.val ∨ k.opsPerSec.val ≤ 0) ∧
  (f.test = "benchmark" → f.rate.val ≤ 0 ∧ k.opsPerSec.val ≤ 0) ∧
  (f.test = "stress" → f.rate.val = 1 ∧ (k.duration.val < 5 ∨ second ∣ k.duration.val / 5))

instance (k : Layers) (f : RunFlags) : Decidable (Carried k f) := by
  unfold Carried
  infer_instance

section OneWorker
variable {k : Layers} {f : RunFlags} {tt : TestType}

theorem resolve_rate (k : Layers) (f : RunFlags) : (resolve k f).rate =
    if 0 < (overrides k f).opsPerSec.val then ⟨.fixed, (overrides k f).opsPerSec.val⟩ else ⟨.unset, 0⟩ := rfl

theorem overrides_nonpos_iff : (overrides k f).opsPerSec.val ≤ 0 ↔ f.rate.val ≤ 0 ∧ k.opsPerSec.val ≤ 0 := by
  unfold overrides
  split
  · next h => exact ⟨fun hle => absurd hle (by show ¬f.rate.val ≤ 0; omega), fun hle => absurd hle.1 (by omega)⟩
  · next h => exact ⟨fun hle => ⟨by omega, hle⟩, fun hle => hle.2⟩

/-- The only worker runs an open loop at the resolved rate, whatever the test type. -/
theorem oneWorker_eq (target : String) (k : Layers) (f : RunFlags) (id : Int) (startAt : Option Int) (start : Int) :
    oneWorker target k f id startAt start = newOpenLoop start (resolve k f).rate := by
  show newOpenLoop start (workerRate (runSpec target { f with workers := 1 } (resolve k f))) = _
  have hrate : workerRate (runSpec target { f with workers := 1 } (resolve k f)) = (resolve k f).rate := by
    unfold workerRate runSpec
    rw [resolve_rate]
    split
    · next h => simp [h]
    · simp
  rw [hrate]

theorem newOpenLoop_resolved (k : Layers) (f : RunFlags) (start : Int) : newOpenLoop start (resolve k f).rate =
    if (overrides k f).opsPerSec.val ≤ 0 then .closedLoop else .openLoop start (overrides k f).opsPerSec.val := by
  rw [resolve_rate]
  unfold newOpenLoop newClosedLoop
  by_cases h : (overrides k f).opsPerSec.val ≤ 0
  · simp [h, Int.not_lt.mpr h]
  · simp [h, Int.not_le.mp h]

theorem closedLoop_sameArrivals_iff {start : Int} : SameArrivals .closedLoop (newOpenLoop start (resolve k f).rate) ↔
    f.rate.val ≤ 0 ∧ k.opsPerSec.val ≤ 0 := by
  rw [newOpenLoop_resolved, ← overrides_nonpos_iff]
  constructor
  · intro h
    by_contra hpos
    rw [if_neg hpos] at h
    have hfirst : some (start + 1) = some (start + offsetFor 0 (overrides k f).opsPerSec.val) :=
      h (start + 1) 0 (by decide) (by decide)
    have hzero : offsetFor 0 (overrides k f).opsPerSec.val = 0 := by simp [offsetFor, wrap64]
    rw [hzero] at hfirst
    have := Option.some.inj hfirst
    omega
  · intro hle
    rw [if_pos hle]
    exact fun _ _ _ _ => rfl

theorem resolveTestType_ok (h : resolveTestType f = .ok tt) :
    (tt = .benchmark ∧ (f.test = "" ∧ f.rate.val ≤ 0 ∨ f.test = "benchmark")) ∨
    (tt = .stress ∧ f.test = "stress" ∧ 0 < f.rate.val) ∨
    ((tt = .load ∨ tt = .acid ∨ tt = .combined) ∧ f.test ≠ "benchmark" ∧ f.test ≠ "stress" ∧
      (f.test = "" → 0 < f.rate.val)) := by
  unfold resolveTestType at h
  split_ifs at h <;> cases h <;> simp_all

theorem whole_step_iff (duration : I64) :
    second ∣ stressStep duration ↔ duration.val < 5 ∨ second ∣ duration.val / 5 := by
  rw [stressStep_eq]
  by_cases h : duration.val < 5
  · simp [h]
  · simp [h]

theorem carried_benchmark_iff (htest : f.test = "" ∧ f.rate.val ≤ 0 ∨ f.test = "benchmark") :
    Carried k f ↔ f.rate.val ≤ 0 ∧ k.opsPerSec.val ≤ 0 := by
  unfold Carried
  rcases htest with ⟨htest, hrate⟩ | htest
  · simp only [htest]
    simp [hrate, Int.not_lt.mpr hrate]
  · simp [htest]

theorem carried_stress_iff (htest : f.test = "stress") :
    Carried k f ↔ f.rate.val = 1 ∧ second ∣ stressStep k.duration := by
  rw [whole_step_iff]
  simp [Carried, htest]

theorem carried_of_other (hbenchmark : f.test ≠ "benchmark") (hstress : f.test ≠ "stress")
    (hempty : f.test = "" → 0 < f.rate.val) : Carried k f :=
  ⟨fun h => Or.inl (hempty h), fun h => absurd h hbenchmark, fun h => absurd h hstress⟩

theorem overrides_of_pos (hrate : 0 < f.rate.val) : (overrides k f).opsPerSec = f.rate := by
  unfold overrides
  rw [if_pos hrate]

theorem singleNode_stress (hrate : 0 < f.rate.val) (hfit : f.rate.val * second < 2 ^ 63) (start : Int) :
    singleNode k f .stress start = .ramp start (rampSegs 0 0 (stressSteps f.rate.val k.duration)) := by
  have hduration : (resolve k f).duration = k.duration := by
    show (overrides k f).duration = _
    unfold overrides
    rw [if_pos hrate]
  show buildScheduler start .stress (resolve k f).rate (resolve k f).duration = _
  rw [hduration, resolve_rate, overrides_of_pos hrate, if_pos hrate]
  exact buildScheduler_stress hrate (by unfold second at *; omega) start .fixed

theorem oneWorker_of_pos (hrate : 0 < f.rate.val) (start : Int) :
    newOpenLoop start (resolve k f).rate = .openLoop start f.rate.val := by
  rw [newOpenLoop_resolved, overrides_of_pos hrate, if_neg (by omega)]

/-- **One worker and one node.** For every accepted combination of flags and configuration, one distributed worker is
given the arrival schedule of the single-node run if the load is `Carried`, and, as long as the rate and the
operations of a stress run stay in the 64-bit range, only then. -/
theorem one_worker_load_iff (target : String) (k : Layers) (htt : resolveTestType f = .ok tt) (id : Int)
    (startAt : Option Int) :
    (Carried k f → ∀ start, SameArrivals (singleNode k f tt start) (oneWorker target k f id startAt start)) ∧
    ((f.test = "stress" → f.rate.val * second < 2 ^ 63 ∧ f.rate.val * (k.duration.val / second + 1) < 2 ^ 63) →
      (∀ start, SameArrivals (singleNode k f tt start) (oneWorker target k f id startAt start)) → Carried k f) := by
  simp only [oneWorker_eq]
  rcases resolveTestType_ok htt with ⟨rfl, htest⟩ | ⟨rfl, htest, hrate⟩ | ⟨htype, hbenchmark, hstress, hempty⟩
  · rw [carried_benchmark_iff htest]
    exact ⟨fun h start => closedLoop_sameArrivals_iff.mpr h, fun _ h => closedLoop_sameArrivals_iff.mp (h 0)⟩
  · rw [carried_stress_iff htest]
    simp only [oneWorker_of_pos hrate]
    refine ⟨fun ⟨hone, hwhole⟩ start => ?_, fun hfits h => ?_⟩
    · rw [singleNode_stress hrate (by rw [hone]; decide), hone]
      exact flat_sameArrivals hwhole start
    · obtain ⟨hfit, hops⟩ := hfits htest
      have hsame := h 0
      rw [singleNode_stress hrate hfit] at hsame
      exact stress_sameArrivals hrate hfit (stress_total hrate hfit hops) hsame
  · refine ⟨fun _ start => ?_, fun _ _ => carried_of_other hbenchmark hstress hempty⟩
    rcases htype with rfl | rfl | rfl <;> exact fun _ _ _ _ => rfl

/-- Files and environment without a rate, for ten seconds. -/
def tenSeconds : Layers :=
  { connections := 1, duration := 10000000000, warmup := 0, consistency := "", endpoints := ["127.0.0.1:6379"],
    opsPerSec := 0 }

def flags (test : String) (rate : I64) : RunFlags :=
  { workload := "kv", rate := rate, seed := 42, workers := 0, test := test }

/-- A stress run that ramps up to ten operations a second starts at two; its only worker starts at ten. A benchmark with
a rate saturates the target; its only worker holds the rate. -/
theorem test_type_not_broadcast :
    (resolveTestType (flags "stress" 10) = .ok .stress ∧
      (singleNode tenSeconds (flags "stress" 10) .stress 0).next 0 1 = some 500000000 ∧
      (oneWorker "redis" tenSeconds (flags "stress" 10) 0 none 0).next 0 1 = some 100000000) ∧
    (resolveTestType (flags "benchmark" 10) = .ok .benchmark ∧
      singleNode tenSeconds (flags "benchmark" 10) .benchmark 0 = .closedLoop ∧
      oneWorker "redis" tenSeconds (flags "benchmark" 10) 0 none 0 = .openLoop 0 10) := by
  decide +kernel

theorem one_worker_load_iff_on_flat_ramp :
    SameArrivals (singleNode tenSeconds (flags "stress" 1) .stress 0)
      (oneWorker "redis" tenSeconds (flags "stress" 1) 0 none 0) := by
  have htt : resolveTestType (flags "stress" 1) = .ok .stress := rfl
  exact (one_worker_load_iff "redis" tenSeconds htt 0 none).1 (by decide +kernel) 0

end OneWorker

end Proofload.Cli
