import Proofload.Domain
import Proofload.Lib.Search
import Mathlib.Algebra.Order.BigOperators.Group.List
import Mathlib.Tactic.Ring
import Mathlib.Tactic.Linarith

/-!
# Arrival schedules (`core/schedule/scheduler.go`, `ramp.go`)

The closed loop, the constant open loop and the stepped ramp, with their 64-bit arithmetic. Instants and durations
are nanoseconds; an intended time is a function of the claimed index, and of the clock for the closed loop only.

* `offsetFor_eq` : up to wraparound of the result the offset of an index is `⌊n * 10^9 / ops⌋`;
* `opsInStep_eq` : likewise the number of operations of a step is `⌊rate * d / 10^9⌋`;
* `rampSegs_getElem?` : where the segments of a ramp start;
* `offsetForIndex_spec` : an index always finds a segment that has started.
-/

namespace Proofload.Schedule
open Lib

set_option autoImplicit false

/-! ## The code -/

/-- `time.Second`. -/
def second : Int := 1000000000

/-- The offset `n/λ`, whole seconds and remainder apart. -/
def offsetFor (n ops : Int) : Int :=
  if ops ≤ 0 then 0
  else
    let secs := n.tdiv ops
    let rem := n.tmod ops
    wrap64 (wrap64 (secs * second) + (wrap64 (rem * second)).tdiv ops)

/-- A constant-rate segment of a ramp. -/
structure RateStep where
  opsPerSec : Int
  duration : Int
deriving DecidableEq

/-- A precomputed segment: its first index, that index's offset, and its rate. -/
structure RampSeg where
  startCount : Int
  startOffset : Int
  rate : Int
deriving DecidableEq

/-- The operations of a step. -/
def opsInStep (rate dur : Int) : Int :=
  if rate ≤ 0 ∨ dur ≤ 0 then 0
  else
    let secs := dur.tdiv second
    let rem := dur.tmod second
    wrap64 (wrap64 (rate * secs) + (wrap64 (rate * rem)).tdiv second)

inductive Scheduler where
  | closedLoop
  | openLoop (start ops : Int)
  | ramp (start : Int) (segs : List RampSeg)
deriving DecidableEq

def newClosedLoop (_start : Int) : Scheduler := .closedLoop

def newOpenLoop (start : Int) (rate : RateSpec) : Scheduler :=
  if rate.mode ≠ .fixed ∨ rate.opsPerSec ≤ 0 then newClosedLoop start else .openLoop start rate.opsPerSec

/-- The loop of `NewRamp`; a step without rate or duration is skipped. -/
def rampSegs (count offset : Int) : List RateStep → List RampSeg
  | [] => []
  | s :: steps =>
      if s.opsPerSec ≤ 0 ∨ s.duration ≤ 0 then rampSegs count offset steps
      else ⟨count, offset, s.opsPerSec⟩ ::
        rampSegs (wrap64 (count + opsInStep s.opsPerSec s.duration)) (wrap64 (offset + s.duration)) steps

def newRamp (start : Int) (steps : List RateStep) : Scheduler :=
  match rampSegs 0 0 steps with
  | [] => newClosedLoop start
  | seg :: segs => .ramp start (seg :: segs)

/-- The rates of `LinearRamp` are interpolated in integers. -/
def linearRate (low high nsteps i : Int) : Int :=
  wrap64 (low + (wrap64 (wrap64 (high - low) * i)).tdiv (nsteps - 1))

def linearRamp (start low high : Int) (nsteps : Nat) (each : Int) : Scheduler :=
  if nsteps ≤ 1 then newRamp start [⟨high, each⟩]
  else newRamp start ((List.range nsteps).map fun i : Nat => ⟨linearRate low high nsteps i, each⟩)

/-- `none` where indexing the segments would panic. -/
def offsetForIndex (segs : List RampSeg) (n : Int) : Option Int :=
  match search segs.length fun k => segs[k]?.any fun seg => n < seg.startCount with
  | 0 => none
  | i + 1 => segs[i]?.map fun seg => wrap64 (seg.startOffset + offsetFor (wrap64 (n - seg.startCount)) seg.rate)

/-- `Next` on the claimed index `n`, called at the instant `now`. -/
def Scheduler.next (now n : Int) : Scheduler → Option Int
  | .closedLoop => some now
  | .openLoop start ops => some (start + offsetFor n ops)
  | .ramp start segs => (offsetForIndex segs n).map (start + ·)

def Scheduler.isOpenLoop : Scheduler → Bool
  | .openLoop _ _ => true
  | .closedLoop | .ramp _ _ => false

/-- The same intended time for every index, whenever it is asked for. -/
def SameArrivals (a b : Scheduler) : Prop := ∀ now n : Int, 0 ≤ n → n < 2 ^ 63 → a.next now n = b.next now n

/-! ## Exact arithmetic -/

theorem div_add_mod_mul_div (n : Int) {d : Int} (u : Int) (hd : 0 < d) : n / d * u + n % d * u / d = n * u / d := by
  have hsplit : n * u = n % d * u + d * (n / d * u) := by
    calc n * u = (n % d + d * (n / d)) * u := by rw [Int.emod_add_mul_ediv]
      _ = n % d * u + d * (n / d * u) := by ring
  rw [hsplit, Int.add_mul_ediv_left _ _ (by omega), Int.add_comm]

/-- The offset is `⌊n * 10^9 / ops⌋`, wrapped only at the end: the product with the remainder fits. -/
theorem offsetFor_eq {n ops : Int} (hn : 0 ≤ n) (hops : 0 < ops) (hfit : (ops - 1) * second < 2 ^ 63) :
    offsetFor n ops = wrap64 (n * second / ops) := by
  have hrem := Int.emod_nonneg n (by omega : ops ≠ 0)
  have hlt := Int.emod_lt_of_pos n hops
  unfold offsetFor
  rw [if_neg (by omega)]
  dsimp only
  have hprod : 0 ≤ n % ops * second ∧ n % ops * second < 2 ^ 63 := by
    unfold second at *
    constructor <;> omega
  rw [Int.tdiv_eq_ediv_of_nonneg hn, Int.tmod_eq_emod_of_nonneg hn, wrap64_eq_self (by omega) hprod.2,
    Int.tdiv_eq_ediv_of_nonneg hprod.1, wrap64_add_left, div_add_mod_mul_div n second hops]

/-- A step of length `d` has `⌊rate * d / 10^9⌋` operations, wrapped only at the end, if the product with the
remainder fits. -/
theorem opsInStep_eq_of_fits {rate d : Int} (hrate : 0 < rate) (hd : 0 < d) (hfit : rate * (d % second) < 2 ^ 63) :
    opsInStep rate d = wrap64 (rate * d / second) := by
  have hlow : 0 ≤ rate * (d % second) := Int.mul_nonneg hrate.le (Int.emod_nonneg d (by decide))
  unfold opsInStep
  rw [if_neg (by omega)]
  dsimp only
  rw [Int.tdiv_eq_ediv_of_nonneg hd.le, Int.tmod_eq_emod_of_nonneg hd.le, wrap64_eq_self (by omega) hfit,
    Int.tdiv_eq_ediv_of_nonneg hlow, wrap64_add_left, Int.mul_comm rate, Int.mul_comm rate,
    div_add_mod_mul_div d rate (by decide), Int.mul_comm d]

theorem mul_emod_second_lt {rate : Int} (d : Int) (hrate : 0 < rate) (hfit : (rate - 1) * second < 2 ^ 63) :
    rate * (d % second) < 2 ^ 63 := by
  have hlt : d % second ≤ second - 1 := Int.le_sub_one_of_lt (Int.emod_lt_of_pos d (by decide))
  have hhigh : rate * (d % second) ≤ rate * (second - 1) := Int.mul_le_mul_of_nonneg_left hlt hrate.le
  unfold second at *
  omega

theorem opsInStep_eq {rate d : Int} (hrate : 0 < rate) (hd : 0 < d) (hfit : (rate - 1) * second < 2 ^ 63) :
    opsInStep rate d = wrap64 (rate * d / second) :=
  opsInStep_eq_of_fits hrate hd (mul_emod_second_lt d hrate hfit)

/-! ## The segments of a ramp -/

/-- The operations of the first `i` steps. -/
def countBefore (steps : List RateStep) (i : Nat) : Int :=
  ((steps.take i).map fun s => opsInStep s.opsPerSec s.duration).sum

/-- The scheduled time of the first `i` steps. -/
def timeBefore (steps : List RateStep) (i : Nat) : Int := ((steps.take i).map (·.duration)).sum

theorem rampSegs_getElem? {steps : List RateStep} (husable : ∀ s ∈ steps, 0 < s.opsPerSec ∧ 0 < s.duration)
    {count offset : Int} (hcount : wrap64 count = count) (hoffset : wrap64 offset = offset) (i : Nat) :
    (rampSegs count offset steps)[i]? = steps[i]?.map fun s =>
      ⟨wrap64 (count + countBefore steps i), wrap64 (offset + timeBefore steps i), s.opsPerSec⟩ := by
  induction steps generalizing count offset i with
  | nil => rfl
  | cons s steps ih =>
      have hs := husable s List.mem_cons_self
      have hrange := wrap64_range
      unfold rampSegs
      rw [if_neg (by omega)]
      cases i with
      | zero => simp [countBefore, timeBefore, hcount, hoffset]
      | succ i =>
          rw [List.getElem?_cons_succ, List.getElem?_cons_succ, ih (fun s hs => husable s (List.mem_cons_of_mem _ hs))
            (wrap64_eq_self (hrange _).1 (hrange _).2) (wrap64_eq_self (hrange _).1 (hrange _).2)]
          simp only [wrap64_add_left, countBefore, timeBefore, List.take_succ_cons, List.map_cons, List.sum_cons,
            Int.add_assoc]

theorem length_rampSegs {steps : List RateStep} (husable : ∀ s ∈ steps, 0 < s.opsPerSec ∧ 0 < s.duration)
    (count offset : Int) : (rampSegs count offset steps).length = steps.length := by
  induction steps generalizing count offset with
  | nil => rfl
  | cons s steps ih =>
      have hs := husable s List.mem_cons_self
      unfold rampSegs
      rw [if_neg (by omega), List.length_cons, ih fun s hs => husable s (List.mem_cons_of_mem _ hs)]
      rfl

theorem offsetForIndex_spec {segs : List RampSeg} {first : RampSeg} {n : Int} (hfirst : segs[0]? = some first)
    (hn : first.startCount ≤ n) : ∃ (i : Nat) (seg : RampSeg), segs[i]? = some seg ∧ seg.startCount ≤ n ∧
      offsetForIndex segs n = some (wrap64 (seg.startOffset + offsetFor (wrap64 (n - seg.startCount)) seg.rate)) := by
  obtain ⟨-, hhigh, hbelow, hat⟩ := searchLoop_spec (p := fun k => segs[k]?.any fun seg => n < seg.startCount)
    (Nat.zero_le segs.length)
  have hlength := (List.getElem?_eq_some_iff.mp hfirst).1
  unfold offsetForIndex search
  generalize searchLoop (fun k => segs[k]?.any fun seg => n < seg.startCount) 0 segs.length = r at *
  cases r with
  | zero =>
      have := hat hlength
      rw [hfirst] at this
      simp only [Option.any_some, decide_eq_true_eq] at this
      omega
  | succ i =>
      obtain ⟨seg, hseg⟩ : ∃ seg, segs[i]? = some seg := ⟨_, List.getElem?_eq_getElem (by omega)⟩
      have := hbelow (Nat.succ_pos i)
      rw [Nat.add_sub_cancel, hseg] at this
      simp only [Option.any_some, decide_eq_false_iff_not, not_lt] at this
      refine ⟨i, seg, hseg, this, ?_⟩
      dsimp only
      rw [hseg]
      rfl

/-- The segment an index is looked up in. -/
def segmentFor (segs : List RampSeg) (n : Int) : Option RampSeg :=
  match search segs.length fun k => segs[k]?.any fun seg => n < seg.startCount with
  | 0 => none
  | i + 1 => segs[i]?

theorem offsetForIndex_eq_map (segs : List RampSeg) (n : Int) : offsetForIndex segs n =
    (segmentFor segs n).map fun seg => wrap64 (seg.startOffset + offsetFor (wrap64 (n - seg.startCount)) seg.rate) := by
  unfold offsetForIndex segmentFor
  split <;> rfl

theorem segmentFor_eq {segs : List RampSeg} {seg : RampSeg} {n : Int} {i : Nat} (hseg : segs[i]? = some seg)
    (hstarted : ∀ j ≤ i, ∀ s, segs[j]? = some s → s.startCount ≤ n)
    (hahead : ∀ (j : Nat) (s : RampSeg), i < j → segs[j]? = some s → n < s.startCount) :
    segmentFor segs n = some seg := by
  have hlength := (List.getElem?_eq_some_iff.mp hseg).1
  unfold segmentFor
  rw [search_eq (k := i + 1) (by omega)]
  · exact hseg
  · intro j hj
    have hget := List.getElem?_eq_getElem (show j < segs.length by omega)
    have := hstarted j (by omega) _ hget
    rw [hget]
    simpa using this
  · intro j hij hj
    have hget := List.getElem?_eq_getElem hj
    have := hahead j _ (by omega) hget
    rw [hget]
    simpa using this

theorem offsetForIndex_eq {segs : List RampSeg} {seg : RampSeg} {n : Int} {i : Nat} (hseg : segs[i]? = some seg)
    (hstarted : ∀ j ≤ i, ∀ s, segs[j]? = some s → s.startCount ≤ n)
    (hahead : ∀ (j : Nat) (s : RampSeg), i < j → segs[j]? = some s → n < s.startCount) :
    offsetForIndex segs n = some (wrap64 (seg.startOffset + offsetFor (wrap64 (n - seg.startCount)) seg.rate)) := by
  rw [offsetForIndex_eq_map, segmentFor_eq hseg hstarted hahead]
  rfl

end Proofload.Schedule
