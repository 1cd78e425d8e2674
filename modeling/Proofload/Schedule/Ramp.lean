import Proofload.Lib.Arrivals
import Proofload.Schedule.Scheduler
import Mathlib.Data.Set.Card
import Mathlib.Order.Interval.Set.Nat

/-!
# The ramp schedule (`core/schedule/ramp.go`)

A ramp against the arrivals of its usable steps in exact arithmetic. `Fits` says that the cumulative counts and
offsets, and the products the code forms on the way, stay below `2^63`; `Placed` that the offset of an index does.

* `offsetForIndex_rampSegs` : the code computes the exact arrival of every placed index;
* `ramp_exact` : the arrivals of a ramp, step by step;
* `step_on_time_iff` : which steps have an arrival at their start.
-/

namespace Proofload.Schedule
open Lib

set_option autoImplicit false

/-! ## Exact counts and offsets -/

/-- `NewRamp` keeps the step. -/
def RateStep.Usable (s : RateStep) : Prop := 0 < s.opsPerSec ∧ 0 < s.duration

instance : DecidablePred RateStep.Usable := fun s => inferInstanceAs (Decidable (0 < s.opsPerSec ∧ 0 < s.duration))

def usableSteps (steps : List RateStep) : List RateStep := steps.filter RateStep.Usable

/-- `⌊rate * duration⌋`, the operations of a step. -/
def RateStep.ops (s : RateStep) : Int := opsIn second RateStep.opsPerSec RateStep.duration s

/-- The operations of the first `i` steps. -/
def opsBefore (steps : List RateStep) (i : Nat) : Int := opsUpTo second RateStep.opsPerSec RateStep.duration steps i

/-- The intended offset of an operation index. -/
def exactOffset (steps : List RateStep) (n : Int) : Int := arrival second RateStep.opsPerSec RateStep.duration steps n

/-- The cumulative counts and offsets of the steps fit into 64 bits, and so do the products that the code forms: of
a remainder below the rate with `10^9`, and of the rate with a remainder below `10^9`. -/
structure Fits (steps : List RateStep) : Prop where
  rates : ∀ s ∈ steps, (s.opsPerSec - 1) * second < 2 ^ 63
  counts : ∀ i < steps.length, opsBefore steps i < 2 ^ 63
  offsets : ∀ i < steps.length, timeBefore steps i < 2 ^ 63

/-- The cumulative counts fit into 64 bits, and so does the product of each rate before the last with what its duration
has beyond whole seconds. -/
structure CountsFit (steps : List RateStep) : Prop where
  products : ∀ (i : Nat) s, steps[i]? = some s → i + 1 < steps.length → s.opsPerSec * (s.duration % second) < 2 ^ 63
  counts : ∀ i < steps.length, opsBefore steps i < 2 ^ 63

/-- An operation index whose offset fits into 64 bits. -/
structure Placed (steps : List RateStep) (n : Int) : Prop where
  nonneg : 0 ≤ n
  index : n < 2 ^ 63
  offset : exactOffset steps n < 2 ^ 63

theorem usableSteps_usable {steps : List RateStep} : ∀ s ∈ usableSteps steps, 0 < s.opsPerSec ∧ 0 < s.duration :=
  fun _ hs => of_decide_eq_true (List.mem_filter.mp hs).2

theorem rampSegs_usableSteps (count offset : Int) (steps : List RateStep) :
    rampSegs count offset (usableSteps steps) = rampSegs count offset steps := by
  unfold usableSteps
  induction steps generalizing count offset with
  | nil => rfl
  | cons s steps ih =>
      by_cases hs : s.Usable
      · have hkept : ¬(s.opsPerSec ≤ 0 ∨ s.duration ≤ 0) := by unfold RateStep.Usable at hs; omega
        rw [List.filter_cons_of_pos (by simpa using hs), rampSegs, rampSegs, if_neg hkept, if_neg hkept, ih]
      · have hskipped : s.opsPerSec ≤ 0 ∨ s.duration ≤ 0 := by unfold RateStep.Usable at hs; omega
        rw [List.filter_cons_of_neg (by simpa using hs), ih, rampSegs, if_pos hskipped]

/-! ## The code computes them -/

section Refinement
variable {steps : List RateStep} (husable : ∀ s ∈ steps, 0 < s.opsPerSec ∧ 0 < s.duration)

include husable

theorem opsBefore_nonneg (i : Nat) : 0 ≤ opsBefore steps i := opsUpTo_nonneg (by decide) husable i

theorem timeBefore_nonneg (i : Nat) : 0 ≤ timeBefore steps i := timeUpTo_nonneg husable i

theorem exactOffset_mono {n m : Int} (hn : 0 ≤ n) (hnm : n ≤ m) : exactOffset steps n ≤ exactOffset steps m :=
  arrival_mono (by decide) husable hn hnm

theorem Fits.countsFit (hfits : Fits steps) : CountsFit steps where
  products _ s hs _ := mul_emod_second_lt s.duration (husable s (List.mem_of_getElem? hs)).1
    (hfits.rates s (List.mem_of_getElem? hs))
  counts := hfits.counts

theorem countBefore_eq (hfits : CountsFit steps) {i : Nat} (hi : i < steps.length) :
    countBefore steps i = opsBefore steps i := by
  induction i with
  | zero => rfl
  | succ i ih =>
      obtain ⟨s, hs⟩ : ∃ s, steps[i]? = some s := ⟨_, List.getElem?_eq_getElem (by omega)⟩
      have hmem := List.mem_of_getElem? hs
      have hsucc : opsBefore steps (i + 1) = opsBefore steps i + s.ops := opsUpTo_succ second _ _ hs
      have hops : 0 ≤ s.ops := opsIn_nonneg (by decide) husable hmem
      have hnonneg := opsBefore_nonneg husable i
      have hfit := hfits.counts (i + 1) hi
      have hstep : opsInStep s.opsPerSec s.duration = s.ops := by
        rw [opsInStep_eq_of_fits (husable s hmem).1 (husable s hmem).2 (hfits.products i s hs hi)]
        exact wrap64_eq_self (x := s.ops) (by omega) (by omega)
      have hcount : countBefore steps (i + 1) = countBefore steps i + opsInStep s.opsPerSec s.duration := by
        unfold countBefore
        rw [List.take_add_one, hs, List.map_append, List.sum_append]
        simp
      rw [hcount, ih (by omega), hstep, hsucc]

theorem rampSegs_getElem?_counts (hfits : CountsFit steps) (i : Nat) :
    (rampSegs 0 0 steps)[i]? =
      steps[i]?.map fun s => ⟨opsBefore steps i, wrap64 (timeBefore steps i), s.opsPerSec⟩ := by
  rw [rampSegs_getElem? husable rfl rfl]
  by_cases hi : i < steps.length
  · have hcount := opsBefore_nonneg husable i
    rw [Int.zero_add, Int.zero_add, countBefore_eq husable hfits hi, wrap64_eq_self (by omega) (hfits.counts i hi)]
  · rw [List.getElem?_eq_none (by omega)]
    rfl

theorem segmentFor_rampSegs (hfits : CountsFit steps) {i : Nat} {s : RateStep} {n : Int} (hs : steps[i]? = some s)
    (hbegun : opsBefore steps i ≤ n) (hnext : i + 1 < steps.length → n < opsBefore steps (i + 1)) :
    segmentFor (rampSegs 0 0 steps) n = some ⟨opsBefore steps i, wrap64 (timeBefore steps i), s.opsPerSec⟩ := by
  apply segmentFor_eq (i := i)
  · rw [rampSegs_getElem?_counts husable hfits, hs]
    rfl
  · intro j hj seg hseg
    rw [rampSegs_getElem?_counts husable hfits] at hseg
    obtain ⟨-, -, rfl⟩ := Option.map_eq_some_iff.mp hseg
    exact le_trans (opsUpTo_mono (by decide) husable hj) hbegun
  · intro j seg hj hseg
    rw [rampSegs_getElem?_counts husable hfits] at hseg
    obtain ⟨_, hget, rfl⟩ := Option.map_eq_some_iff.mp hseg
    have := (List.getElem?_eq_some_iff.mp hget).1
    exact lt_of_lt_of_le (hnext (by omega)) (opsUpTo_mono (by decide) husable hj)

/-- **The code computes the exact offset** of every index whose offset fits. -/
theorem offsetForIndex_rampSegs (hfits : Fits steps) (hne : steps ≠ []) {n : Int} (hn : Placed steps n) :
    offsetForIndex (rampSegs 0 0 steps) n = some (exactOffset steps n) := by
  obtain ⟨i, s, hs, hbegun, hnext⟩ := exists_step second RateStep.opsPerSec RateStep.duration hne hn.nonneg
  change opsBefore steps i ≤ n at hbegun
  have hmem := List.mem_of_getElem? hs
  have hnonneg := opsBefore_nonneg husable i
  have htime := timeBefore_nonneg husable i
  have hindex := hn.index
  have hexact : exactOffset steps n = timeBefore steps i + (n - opsBefore steps i) * second / s.opsPerSec :=
    arrival_eq (by decide) husable hs hbegun hnext
  have hquot : 0 ≤ (n - opsBefore steps i) * second / s.opsPerSec :=
    Int.ediv_nonneg (Int.mul_nonneg (by omega) (by decide)) (husable s hmem).1.le
  have hoffset := hn.offset
  rw [offsetForIndex_eq_map, segmentFor_rampSegs husable (hfits.countsFit husable) hs hbegun hnext, Option.map_some]
  dsimp only
  rw [wrap64_eq_self (x := n - opsBefore steps i) (by omega) (by omega),
    offsetFor_eq (by omega) (husable s hmem).1 (hfits.rates s hmem), wrap64_add_left, wrap64_add_right, ← hexact]
  exact congrArg some (wrap64_eq_self (by omega) hoffset)

/-- The window of a step before the last holds the offsets of its own indices and no others. -/
theorem exactOffset_mem_step {i : Nat} {s : RateStep} (hs : steps[i]? = some s) (hi : i + 1 < steps.length) {n : Int}
    (hn : 0 ≤ n) : (timeBefore steps i ≤ exactOffset steps n ∧ exactOffset steps n < timeBefore steps i + s.duration) ↔
      opsBefore steps i ≤ n ∧ n < opsBefore steps i + s.ops := by
  have htime : timeBefore steps (i + 1) = timeBefore steps i + s.duration := timeUpTo_succ RateStep.duration hs
  have hops : opsBefore steps (i + 1) = opsBefore steps i + s.ops := opsUpTo_succ second _ _ hs
  have hstart : timeBefore steps i ≤ exactOffset steps n ↔ opsBefore steps i ≤ n :=
    le_arrival_iff (by decide) husable (by omega) hn
  have hend : timeBefore steps (i + 1) ≤ exactOffset steps n ↔ opsBefore steps (i + 1) ≤ n :=
    le_arrival_iff (by decide) husable hi hn
  rw [← htime, ← hops]
  omega

omit husable in
theorem first_lt_next {i : Nat} {s : RateStep} (hs : steps[i]? = some s)
    (hany : i + 1 = steps.length ∨ second ≤ s.opsPerSec * s.duration) (hi : i + 1 < steps.length) :
    opsBefore steps i < opsBefore steps (i + 1) := by
  have hops : 1 ≤ s.ops := Int.le_ediv_of_mul_le (by decide) (by rw [Int.one_mul]; exact hany.resolve_left (by omega))
  have hsucc : opsBefore steps (i + 1) = opsBefore steps i + s.ops := opsUpTo_succ second _ _ hs
  omega

theorem exactOffset_first {i : Nat} {s : RateStep} (hs : steps[i]? = some s)
    (hany : i + 1 = steps.length ∨ second ≤ s.opsPerSec * s.duration) :
    exactOffset steps (opsBefore steps i) = timeBefore steps i := by
  have hfirst : exactOffset steps (opsBefore steps i) =
      timeBefore steps i + (opsBefore steps i - opsBefore steps i) * second / s.opsPerSec :=
    arrival_eq (by decide) husable hs (le_refl _) (first_lt_next hs hany)
  rw [hfirst, Int.sub_self, Int.zero_mul, Int.zero_ediv, Int.add_zero]

/-- The code places the first index of a step at its start, also where later offsets of the step overflow. -/
theorem offsetForIndex_first (hfits : CountsFit steps) {i : Nat} {s : RateStep} (hs : steps[i]? = some s)
    (htime : timeBefore steps i < 2 ^ 63) (hany : i + 1 = steps.length ∨ second ≤ s.opsPerSec * s.duration) :
    Placed steps (opsBefore steps i) ∧
      offsetForIndex (rampSegs 0 0 steps) (opsBefore steps i) = some (timeBefore steps i) := by
  have hnonneg := timeBefore_nonneg husable i
  refine ⟨⟨opsBefore_nonneg husable i, hfits.counts i (List.getElem?_eq_some_iff.mp hs).1, ?_⟩, ?_⟩
  · rw [exactOffset_first husable hs hany]
    exact htime
  · have hzero : offsetFor 0 s.opsPerSec = 0 := by
      unfold offsetFor
      rw [if_neg (by have := (husable s (List.mem_of_getElem? hs)).1; omega)]
      simp [wrap64_eq_self]
    rw [offsetForIndex_eq_map, segmentFor_rampSegs husable hfits hs (le_refl _) (first_lt_next hs hany),
      Option.map_some, Int.sub_self]
    dsimp only
    rw [wrap64_eq_self (x := 0) (by decide) (by decide), hzero, Int.add_zero, wrap64_wrap64,
      wrap64_eq_self (by omega) htime]

theorem indices_of_step (hfits : Fits steps) (hne : steps ≠ []) {i : Nat} {s : RateStep} (hs : steps[i]? = some s)
    (hi : i + 1 < steps.length) :
    {n : Nat | Placed steps n ∧ ∃ off, offsetForIndex (rampSegs 0 0 steps) n = some off ∧
      timeBefore steps i ≤ off ∧ off < timeBefore steps i + s.duration} =
        Set.Ico (opsBefore steps i).toNat (opsBefore steps i + s.ops).toNat := by
  have hops : 0 ≤ s.ops := opsIn_nonneg (by decide) husable (List.mem_of_getElem? hs)
  have hcount := opsBefore_nonneg husable i
  have hsucc : opsBefore steps (i + 1) = opsBefore steps i + s.ops := opsUpTo_succ second _ _ hs
  have htime : timeBefore steps (i + 1) = timeBefore steps i + s.duration := timeUpTo_succ RateStep.duration hs
  ext n
  have hmem := exactOffset_mem_step husable hs hi (Int.natCast_nonneg n)
  rw [Set.mem_ofPred_eq, Set.mem_Ico]
  constructor
  · rintro ⟨hn, off, hoff, hin⟩
    rw [offsetForIndex_rampSegs husable hfits hne hn] at hoff
    obtain rfl := Option.some.inj hoff
    have := hmem.mp hin
    omega
  · intro hn
    have hin := hmem.mpr (by omega)
    have hnextCount := hfits.counts (i + 1) hi
    have hnextTime := hfits.offsets (i + 1) hi
    have hplaced : Placed steps n := ⟨by omega, by omega, by omega⟩
    exact ⟨hplaced, _, offsetForIndex_rampSegs husable hfits hne hplaced, hin⟩

theorem long_of_exists_offset (hfits : Fits steps) (hne : steps ≠ []) {i : Nat} {s : RateStep} (hs : steps[i]? = some s)
    (hexists : ∃ n, Placed steps n ∧ offsetForIndex (rampSegs 0 0 steps) n = some (timeBefore steps i)) :
    i + 1 = steps.length ∨ second ≤ s.opsPerSec * s.duration := by
  obtain ⟨n, hn, hoffset⟩ := hexists
  have hlength := (List.getElem?_eq_some_iff.mp hs).1
  obtain ⟨hrate, hdur⟩ := husable s (List.mem_of_getElem? hs)
  rw [offsetForIndex_rampSegs husable hfits hne hn, Option.some.injEq] at hoffset
  by_contra hshort
  have hops : s.ops = 0 := Int.ediv_eq_zero_of_lt (Int.mul_nonneg hrate.le hdur.le) (by omega)
  have hwindow := (exactOffset_mem_step husable hs (by omega) hn.nonneg).mp ⟨hoffset.ge, by omega⟩
  omega

theorem exactOffset_zero (hne : steps ≠ []) : ∃ i < steps.length, exactOffset steps 0 = timeBefore steps i := by
  obtain ⟨i, s, hs, hbegun, hnext⟩ := exists_step second RateStep.opsPerSec RateStep.duration hne (le_refl 0)
  change opsBefore steps i ≤ 0 at hbegun
  have hzero : opsBefore steps i = 0 := le_antisymm hbegun (opsBefore_nonneg husable i)
  have hexact : exactOffset steps 0 = timeBefore steps i + (0 - opsBefore steps i) * second / s.opsPerSec :=
    arrival_eq (by decide) husable hs hbegun hnext
  refine ⟨i, (List.getElem?_eq_some_iff.mp hs).1, ?_⟩
  rw [hexact, hzero, Int.sub_self, Int.zero_mul, Int.zero_ediv, Int.add_zero]

end Refinement

/-! ## The arrivals of a ramp -/

section Ramp
variable {steps : List RateStep} (hne : usableSteps steps ≠ [])

include hne

/-- A ramp with a usable step is the ramp over its usable steps, and its first segment starts at index 0. -/
theorem newRamp_eq (start : Int) : newRamp start steps = .ramp start (rampSegs 0 0 (usableSteps steps)) ∧
    ∃ first, (rampSegs 0 0 (usableSteps steps))[0]? = some first ∧ first.startCount = 0 := by
  obtain ⟨s, rest, hsteps⟩ := List.exists_cons_of_ne_nil hne
  have hget : (usableSteps steps)[0]? = some s := by rw [hsteps]; rfl
  have hfirst : (rampSegs 0 0 (usableSteps steps))[0]? = some ⟨0, 0, s.opsPerSec⟩ := by
    rw [rampSegs_getElem? usableSteps_usable rfl rfl, hget]
    rfl
  refine ⟨?_, _, hfirst, rfl⟩
  unfold newRamp
  rw [rampSegs_usableSteps] at hfirst ⊢
  split
  · next h => rw [h] at hfirst; cases hfirst
  · next h => rw [h]

/-- **A ramp keeps to its steps.** Every operation index finds a segment. Offsets do not decrease, and increase at
rates up to `10^9`. The window of a step before the last holds `⌊rate * duration⌋` offsets. From the last step on the
offsets are those of its rate. -/
theorem ramp_exact (start : Int) (hfits : Fits (usableSteps steps)) :
    ∃ segs, newRamp start steps = .ramp start segs ∧
      (∀ n, 0 ≤ n → n < 2 ^ 63 → ∃ off, offsetForIndex segs n = some off) ∧
      (∀ n m off off', 0 ≤ n → n ≤ m → Placed (usableSteps steps) m → offsetForIndex segs n = some off →
        offsetForIndex segs m = some off' →
          off ≤ off' ∧ ((∀ s ∈ usableSteps steps, s.opsPerSec ≤ 1000000000) → n < m → off < off')) ∧
      (∀ (i : Nat) s, (usableSteps steps)[i]? = some s → i + 1 < (usableSteps steps).length →
        {n : Nat | Placed (usableSteps steps) n ∧ ∃ off, offsetForIndex segs n = some off ∧
          timeBefore (usableSteps steps) i ≤ off ∧ off < timeBefore (usableSteps steps) i + s.duration}.ncard =
            (s.opsPerSec * s.duration / 1000000000).toNat) ∧
      (∀ (i : Nat) s, (usableSteps steps)[i]? = some s → i + 1 = (usableSteps steps).length → ∀ k : Nat,
        Placed (usableSteps steps) (opsBefore (usableSteps steps) i + k) →
          offsetForIndex segs (opsBefore (usableSteps steps) i + k) =
            some (timeBefore (usableSteps steps) i + k * 1000000000 / s.opsPerSec)) := by
  have husable : ∀ s ∈ usableSteps steps, 0 < s.opsPerSec ∧ 0 < s.duration := usableSteps_usable
  obtain ⟨hramp, first, hfirst, hzero⟩ := newRamp_eq hne start
  have hplaced : ∀ {n m : Int}, 0 ≤ n → n ≤ m → Placed (usableSteps steps) m → Placed (usableSteps steps) n :=
    fun hn hnm hm => ⟨hn, by have := hm.index; omega, lt_of_le_of_lt (exactOffset_mono husable hn hnm) hm.offset⟩
  have hcode : ∀ {n : Int}, Placed (usableSteps steps) n →
      offsetForIndex (rampSegs 0 0 (usableSteps steps)) n = some (exactOffset (usableSteps steps) n) :=
    fun hn => offsetForIndex_rampSegs husable hfits hne hn
  generalize usableSteps steps = u at *
  refine ⟨_, hramp, fun n hn _ => ?_, fun n m off off' hn hnm hm hoff hoff' => ?_, fun i s hs hi => ?_,
    fun i s hs hi k hk => ?_⟩
  · obtain ⟨_, _, -, -, hoffset⟩ := offsetForIndex_spec hfirst (by omega : first.startCount ≤ n)
    exact ⟨_, hoffset⟩
  · rw [hcode (hplaced hn hnm hm)] at hoff
    rw [hcode hm] at hoff'
    obtain rfl := Option.some.inj hoff
    obtain rfl := Option.some.inj hoff'
    exact ⟨exactOffset_mono husable hn hnm,
      fun hslow hlt => arrival_strictMono (by decide) husable hslow hne hn hlt⟩
  · have hcount := opsBefore_nonneg husable i
    rw [indices_of_step husable hfits hne hs hi, Set.ncard_eq_toFinset_card', Set.toFinset_Ico, Nat.card_Ico]
    show _ = s.ops.toNat
    omega
  · rw [hcode hk]
    have hlast : exactOffset u (opsBefore u i + k) =
        timeBefore u i + (opsBefore u i + k - opsBefore u i) * second / s.opsPerSec :=
      arrival_eq (by decide) husable hs (show opsBefore u i ≤ opsBefore u i + k by omega) (by omega)
    rw [hlast, add_sub_cancel_left]
    rfl

/-- **Which steps start on time.** A usable step has an operation at its start if the counts and its offset fit and it
is the last one or long enough for one operation at its rate, and where nothing overflows only then; the first
operation of the ramp is at the start of the ramp if this holds of the first usable step, and only then. -/
theorem step_on_time_iff (start : Int) :
    ∃ segs, newRamp start steps = .ramp start segs ∧
      (∀ (i : Nat) s, (usableSteps steps)[i]? = some s →
        (CountsFit (usableSteps steps) ∧ timeBefore (usableSteps steps) i < 2 ^ 63 ∧
            (i + 1 = (usableSteps steps).length ∨ 1000000000 ≤ s.opsPerSec * s.duration) →
          ∃ n, Placed (usableSteps steps) n ∧ offsetForIndex segs n = some (timeBefore (usableSteps steps) i)) ∧
        (Fits (usableSteps steps) →
          (∃ n, Placed (usableSteps steps) n ∧ offsetForIndex segs n = some (timeBefore (usableSteps steps) i)) →
            i + 1 = (usableSteps steps).length ∨ 1000000000 ≤ s.opsPerSec * s.duration)) ∧
      (∀ s now, (usableSteps steps)[0]? = some s →
        (CountsFit (usableSteps steps) ∧
            ((usableSteps steps).length = 1 ∨ 1000000000 ≤ s.opsPerSec * s.duration) →
          (newRamp start steps).next now 0 = some start) ∧
        (Fits (usableSteps steps) → (newRamp start steps).next now 0 = some start →
          (usableSteps steps).length = 1 ∨ 1000000000 ≤ s.opsPerSec * s.duration)) := by
  have husable : ∀ s ∈ usableSteps steps, 0 < s.opsPerSec ∧ 0 < s.duration := usableSteps_usable
  obtain ⟨hramp, -⟩ := newRamp_eq hne start
  have hnext : ∀ now, (newRamp start steps).next now 0 = some start ↔
      offsetForIndex (rampSegs 0 0 (usableSteps steps)) 0 = some 0 := by
    intro now
    rw [hramp]
    show (offsetForIndex _ _).map (start + ·) = some start ↔ _
    simp [Option.map_eq_some_iff]
  refine ⟨_, hramp, fun i s hs => ⟨?_, fun hfits h => long_of_exists_offset husable hfits hne hs h⟩,
    fun s now hs => ⟨?_, ?_⟩⟩
  · rintro ⟨hfits, htime, hany⟩
    exact ⟨_, offsetForIndex_first husable hfits hs htime hany⟩
  · rintro ⟨hfits, hany⟩
    rw [hnext]
    exact (offsetForIndex_first husable hfits hs (by simp [timeBefore]) (hany.imp Eq.symm id)).2
  · intro hfits h
    obtain ⟨j, hj, hzero⟩ := exactOffset_zero husable hne
    have hplaced : Placed (usableSteps steps) 0 := ⟨le_refl 0, by decide, by rw [hzero]; exact hfits.offsets j hj⟩
    exact (long_of_exists_offset husable hfits hne hs ⟨0, hplaced, (hnext now).mp h⟩).imp Eq.symm id

end Ramp

/-- Twenty billion operations a second for half a second, then one. -/
def fastThenSlow : List RateStep := [⟨20000000000, 500000000⟩, ⟨1, 1000000000⟩]

/-- The counts and the offsets fit, but a product on the way does not: index 0 is placed hundreds of years after the
start, and index 800000000 before it. -/
theorem fast_step_miscounted :
    usableSteps fastThenSlow = fastThenSlow ∧ opsBefore fastThenSlow 2 = 10000000001 ∧
      timeBefore fastThenSlow 2 = 1500000000 ∧
      offsetForIndex (rampSegs 0 0 fastThenSlow) 0 = some 8446744073500000000 ∧
      offsetForIndex (rampSegs 0 0 fastThenSlow) 800000000 = some (-9200000000209551616) ∧
      exactOffset fastThenSlow 0 = 0 ∧ exactOffset fastThenSlow 800000000 = 40000000 := by
  decide +kernel

/-- A skipped step, two operations a second, then three. -/
def skipTwoThree : List RateStep := [⟨0, 1000000000⟩, ⟨2, 1500000000⟩, ⟨3, 1000000000⟩]

theorem ramp_exact_on_skipped_step :
    ∃ segs, newRamp 0 skipTwoThree = .ramp 0 segs ∧
      {n : Nat | Placed (usableSteps skipTwoThree) n ∧ ∃ off, offsetForIndex segs n = some off ∧
        0 ≤ off ∧ off < 0 + 1500000000}.ncard = 3 ∧
      offsetForIndex segs (3 + (1 : Nat)) = some 1833333333 := by
  have hne : usableSteps skipTwoThree ≠ [] := by decide
  have hfits : Fits (usableSteps skipTwoThree) := ⟨by decide +kernel, by decide +kernel, by decide +kernel⟩
  obtain ⟨segs, hramp, -, -, hwindow, hlast⟩ := ramp_exact hne 0 hfits
  refine ⟨segs, hramp, hwindow 0 ⟨2, 1500000000⟩ (by decide +kernel) (by decide +kernel), ?_⟩
  have hplaced : Placed (usableSteps skipTwoThree) (opsBefore (usableSteps skipTwoThree) 1 + (1 : Nat)) :=
    ⟨by decide +kernel, by decide +kernel, by decide +kernel⟩
  exact hlast 1 ⟨3, 1000000000⟩ (by decide +kernel) (by decide +kernel) 1 hplaced

/-- Half a second at one operation a second, then one second at two. -/
def shortFirstStep : List RateStep := [⟨1, 500000000⟩, ⟨2, 1000000000⟩]

/-- The short step has no operation, and the first operation of the ramp comes half a second late. -/
theorem short_step_skipped :
    usableSteps shortFirstStep = shortFirstStep ∧
      (¬ ∃ n, Placed shortFirstStep n ∧ offsetForIndex (rampSegs 0 0 shortFirstStep) n = some 0) ∧
      (newRamp 0 shortFirstStep).next 0 0 = some 500000000 := by
  have hfits : Fits shortFirstStep := ⟨by decide +kernel, by decide +kernel, by decide +kernel⟩
  refine ⟨by decide +kernel, fun h => ?_, by decide +kernel⟩
  have := long_of_exists_offset (i := 0) (by decide) hfits (by decide) rfl h
  exact absurd this (by decide)

theorem step_on_time_iff_on_skipped_step :
    ∃ segs, newRamp 0 skipTwoThree = .ramp 0 segs ∧
      ∃ n, Placed (usableSteps skipTwoThree) n ∧
        offsetForIndex segs n = some (timeBefore (usableSteps skipTwoThree) 0) := by
  have hne : usableSteps skipTwoThree ≠ [] := by decide
  have hfits : CountsFit (usableSteps skipTwoThree) :=
    Fits.countsFit usableSteps_usable ⟨by decide +kernel, by decide +kernel, by decide +kernel⟩
  obtain ⟨segs, hramp, hstart, -⟩ := step_on_time_iff hne 0
  exact ⟨segs, hramp, (hstart 0 ⟨2, 1500000000⟩ (by decide +kernel)).1 ⟨hfits, by decide +kernel, by decide +kernel⟩⟩

end Proofload.Schedule
