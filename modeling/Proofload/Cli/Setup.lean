import Proofload.Cli.Stress
import Proofload.Runner.Timed

/-!
# Connection setup and the schedule (`core/cli/run.go`, `core/runner/runner.go`)

`drive` anchors the schedule and then calls `runner.Run`, which opens and prepares the connections before it takes
its clock base. A setup of length `setup` puts the anchor at `-setup` on the runner's clock.

* `exists_reach`, `sample_exact` : up to any time in range, the claimed indices are intended at their exact offsets;
* `setup_in_latency_iff` : when no measured operation is intended before the clock base, and where latencies begin.
-/

namespace Proofload.Cli
open Lib Schedule Runner

set_option autoImplicit false

/-- What `drive` passes to `runner.Run`. -/
def DriveParams.options (pp : DriveParams) : Options :=
  { connections := pp.connections.toNat, warmup := pp.warmup.val.toNat }

/-- A run with an arrival schedule: at a constant rate, or a ramp. -/
def DriveParams.OpenLoop (pp : DriveParams) : Prop :=
  0 < pp.rate.opsPerSec ∧ (pp.testType = .stress ∨ (pp.testType ≠ .benchmark ∧ pp.rate.mode = .fixed))

/-- The offset of an index from the anchor of the schedule, in exact arithmetic. -/
def DriveParams.arrivalOffset (pp : DriveParams) (n : Int) : Int :=
  if pp.testType = .stress then exactOffset (stressSteps pp.rate.opsPerSec pp.duration) n
  else n * second / pp.rate.opsPerSec

/-- The time for which indices are claimed up to `t` after the anchor, the ramp and one second per connection
included. -/
def DriveParams.span (pp : DriveParams) (t : Int) : Int :=
  4 * stressStep pp.duration + (t + (pp.options.connections + 2) * second)

/-- The offsets and the indices that come up until `t` after the anchor fit into 64 bits. -/
structure DriveParams.InRange (pp : DriveParams) (t : Int) : Prop where
  rate : (pp.rate.opsPerSec - 1) * second < 2 ^ 63
  time : pp.span t < 2 ^ 63
  index : pp.rate.opsPerSec * pp.span t < 2 ^ 63 * second

section Reach
variable {pp : DriveParams} {t : Int}

/-- The intended time of an index on the clock of a runner whose setup took `setup`. -/
def DriveParams.intended (pp : DriveParams) (setup : Int) (n : Nat) : Int := ((pp.scheduler (-setup)).next 0 n).getD 0

/-- Index `m` is past the time `t` after the anchor; up to one claim per connection behind it the intended times are
exact, and none comes before that of the first index. -/
def DriveParams.Reach (pp : DriveParams) (setup t : Int) (m : Nat) : Prop :=
  ∀ n ≤ m + pp.options.connections, pp.intended setup n = pp.arrivalOffset n - setup ∧
    pp.arrivalOffset 0 ≤ pp.arrivalOffset n ∧ (m ≤ n → t < pp.arrivalOffset n)

theorem scheduler_constant (hopen : pp.OpenLoop) (hstress : pp.testType ≠ .stress) (start : Int) :
    pp.scheduler start = .openLoop start pp.rate.opsPerSec := by
  obtain ⟨hR, hkind⟩ := hopen
  obtain ⟨hbench, hmode⟩ := hkind.resolve_left hstress
  have hloop : newOpenLoop start pp.rate = .openLoop start pp.rate.opsPerSec := by
    unfold newOpenLoop
    rw [if_neg (by simp only [hmode, ne_eq, not_true_eq_false, false_or]; omega)]
  unfold DriveParams.scheduler buildScheduler
  cases htt : pp.testType <;> simp_all

theorem mul_second_div_le {R c k : Int} (hR : 0 < R) (hc : 0 ≤ c) (hk : k ≤ (t / second + 1) * R + c) :
    k * second / R ≤ t + (c + 1) * second := by
  apply Int.ediv_le_of_le_mul hR
  have hfloor : t / second * second ≤ t := Int.ediv_mul_le t (by decide)
  have hcR : c * 1 ≤ c * R := Int.mul_le_mul_of_nonneg_left hR hc
  calc k * second ≤ ((t / second + 1) * R + c * R) * second := by
        apply Int.mul_le_mul_of_nonneg_right _ (by decide)
        omega
    _ = (t / second * second + (c + 1) * second) * R := by ring
    _ ≤ (t + (c + 1) * second) * R := by
        apply Int.mul_le_mul_of_nonneg_right _ hR.le
        omega

theorem lt_mul_second_div {R k : Int} (hR : 0 < R) (hk : (t / second + 1) * R ≤ k) : t < k * second / R := by
  have hfloor : t < (t / second + 1) * second := Int.lt_ediv_add_one_mul_self t (by decide)
  have hle : (t / second + 1) * second ≤ k * second / R := by
    apply Int.le_ediv_of_mul_le hR
    calc (t / second + 1) * second * R = (t / second + 1) * R * second := by ring
      _ ≤ k * second := Int.mul_le_mul_of_nonneg_right hk (by decide)
  omega

theorem nextSecond_nonneg {R : Int} (ht : 0 ≤ t) (hR : 0 ≤ R) : 0 ≤ (t / second + 1) * R :=
  Int.mul_nonneg (Int.le_trans (Int.ediv_nonneg ht (by decide)) (Int.le_add_one (le_refl _))) hR

theorem exists_reach_constant (hopen : pp.OpenLoop) (hstress : pp.testType ≠ .stress) (ht : 0 ≤ t)
    (hrange : pp.InRange t) (setup : Int) :
    ∃ m, pp.Reach setup t m := by
  have hR := hopen.1
  have hstep := stressStep_pos pp.duration
  obtain ⟨hrate, htime, -⟩ := hrange
  refine ⟨((t / second + 1) * pp.rate.opsPerSec).toNat, fun n hn => ?_⟩
  have hm := nextSecond_nonneg ht hR.le
  have hlow : 0 ≤ (n : Int) * second / pp.rate.opsPerSec := by
    apply Int.ediv_nonneg _ hR.le
    exact Int.mul_nonneg (Int.natCast_nonneg n) (by decide)
  have hhigh : (n : Int) * second / pp.rate.opsPerSec ≤ t + (pp.options.connections + 1) * second :=
    mul_second_div_le hR (by omega) (by omega)
  simp only [DriveParams.arrivalOffset, if_neg hstress]
  refine ⟨?_, by simpa using hlow, fun hmn => lt_mul_second_div hR (by omega)⟩
  have hnext : (pp.scheduler (-setup)).next 0 n = some (-setup + offsetFor n pp.rate.opsPerSec) := by
    rw [scheduler_constant hopen hstress]
    rfl
  unfold DriveParams.span at htime
  unfold DriveParams.intended second at *
  rw [hnext, offsetFor_eq (by omega) hR (by unfold second; omega)]
  unfold second
  rw [wrap64_eq_self (by omega) (by omega), Option.getD_some]
  omega

theorem DriveParams.InRange.fits (hrange : pp.InRange t) (hR : 0 < pp.rate.opsPerSec) (ht : 0 ≤ t) :
    Fits (stressSteps pp.rate.opsPerSec pp.duration) := by
  apply fits_stressSteps hR hrange.rate
  refine lt_of_le_of_lt (Int.mul_le_mul_of_nonneg_left ?_ hR.le) hrange.index
  unfold DriveParams.span second
  omega

theorem DriveParams.InRange.placed (hrange : pp.InRange t) (hR : 0 < pp.rate.opsPerSec) (ht : 0 ≤ t) {n : Nat}
    (hn : (n : Int) ≤ opsBefore (stressSteps pp.rate.opsPerSec pp.duration) 4 +
      ((t / second + 1) * pp.rate.opsPerSec + pp.options.connections)) :
    Placed (stressSteps pp.rate.opsPerSec pp.duration) n := by
  have husable := stressSteps_usable pp.duration hR
  have hsecond := nextSecond_nonneg ht hR.le
  have hlast : Placed (stressSteps pp.rate.opsPerSec pp.duration)
      (opsBefore (stressSteps pp.rate.opsPerSec pp.duration) 4 +
        ((t / second + 1) * pp.rate.opsPerSec + pp.options.connections).toNat) := by
    apply placed_last_step hR _ hrange.index hrange.time
    refine lt_of_le_of_lt (mul_second_div_le (t := t) hR (Int.natCast_nonneg pp.options.connections) (by omega)) ?_
    unfold second
    omega
  refine ⟨by omega, lt_of_le_of_lt ?_ hlast.index, lt_of_le_of_lt (exactOffset_mono husable ?_ ?_) hlast.offset⟩
  · omega
  · omega
  · omega

theorem exists_reach_stress (hR : 0 < pp.rate.opsPerSec) (hstress : pp.testType = .stress) (ht : 0 ≤ t)
    (hrange : pp.InRange t) (setup : Int) :
    ∃ m, pp.Reach setup t m := by
  have husable := stressSteps_usable pp.duration hR
  have hstep := stressStep_pos pp.duration
  have hsecond := nextSecond_nonneg ht hR.le
  have hbase := opsBefore_nonneg husable 4
  refine ⟨(opsBefore (stressSteps pp.rate.opsPerSec pp.duration) 4 + (t / second + 1) * pp.rate.opsPerSec).toNat,
    fun n hn => ?_⟩
  simp only [DriveParams.arrivalOffset, if_pos hstress]
  refine ⟨?_, exactOffset_mono husable (le_refl 0) (by omega), fun hmn => ?_⟩
  · have hexact := offsetForIndex_rampSegs husable (hrange.fits hR ht) (by simp [stressSteps])
      (hrange.placed hR ht (n := n) (by omega))
    have hnext : (pp.scheduler (-setup)).next 0 n =
        some (-setup + exactOffset (stressSteps pp.rate.opsPerSec pp.duration) n) := by
      rw [scheduler_stress hR hrange.rate hstress, Scheduler.next, hexact]
      rfl
    unfold DriveParams.intended
    rw [hnext, Option.getD_some]
    omega
  · have hmono : exactOffset (stressSteps pp.rate.opsPerSec pp.duration)
        (opsBefore (stressSteps pp.rate.opsPerSec pp.duration) 4 + ((t / second + 1) * pp.rate.opsPerSec).toNat) ≤
          exactOffset (stressSteps pp.rate.opsPerSec pp.duration) n := exactOffset_mono husable (by omega) (by omega)
    rw [exactOffset_last_step hR] at hmono
    have hpast := lt_mul_second_div (t := t) (k := ((t / second + 1) * pp.rate.opsPerSec).toNat) hR (by omega)
    omega

theorem exists_reach (hopen : pp.OpenLoop) (ht : 0 ≤ t) (hrange : pp.InRange t) (setup : Int) :
    ∃ m, pp.Reach setup t m := by
  by_cases hstress : pp.testType = .stress
  · exact exists_reach_stress hopen.1 hstress ht hrange setup
  · exact exists_reach_constant hopen hstress ht hrange setup

theorem next_intended (hopen : pp.OpenLoop) (hrate : (pp.rate.opsPerSec - 1) * second < 2 ^ 63) (setup now : Int)
    (n : Nat) :
    (pp.scheduler (-setup)).next now n = some (pp.intended setup n) := by
  unfold DriveParams.intended
  by_cases hstress : pp.testType = .stress
  · have husable := stressSteps_usable pp.duration hopen.1
    have hfirst : (rampSegs 0 0 (stressSteps pp.rate.opsPerSec pp.duration))[0]? =
        some ⟨0, 0, stressRate pp.rate.opsPerSec 0⟩ := by
      rw [rampSegs_getElem? husable rfl rfl, stressSteps_getElem? (by omega)]
      rfl
    obtain ⟨i, seg, -, -, hoffset⟩ := offsetForIndex_spec hfirst (Int.natCast_nonneg n)
    simp only [scheduler_stress hopen.1 hrate hstress, Scheduler.next, hoffset, Option.map_some, Option.getD_some]
  · rw [scheduler_constant hopen hstress]
    rfl

end Reach

/-- Every sample is intended at the exact offset of its index, and not before the first index. -/
theorem sample_exact {T : Type} {d : Deps T} {pp : DriveParams} {setup : Nat} (hopen : pp.OpenLoop) {s : TimedState T}
    (hs : Reachable (timedStep d pp.options (pp.scheduler (-setup))) (timedInit d) s)
    (hrange : pp.InRange (setup + s.run.now)) : ∀ smp ∈ s.samples,
      smp.claim.intended = pp.arrivalOffset smp.claim.index - setup ∧
        pp.arrivalOffset 0 ≤ pp.arrivalOffset smp.claim.index := by
  intro smp hsmp
  have hsched := next_intended hopen hrange.rate setup
  have hclock := clock_nonneg hs
  obtain ⟨m, hm⟩ := exists_reach hopen (by omega) hrange setup
  have hahead : ∀ n, m ≤ n → n ≤ m + pp.options.connections → s.run.now < pp.intended setup n := by
    intro n hmn hn
    obtain ⟨hexact, -, hpast⟩ := hm n hn
    have := hpast hmn
    omega
  obtain ⟨hoff, hindex⟩ := sample_in_reach hsched hahead hs (le_refl _) smp hsmp
  obtain ⟨hexact, hfirst, -⟩ := hm smp.claim.index hindex
  exact ⟨hoff.trans hexact, hfirst⟩

/-- **Connection setup stays out of the latencies only if it takes no time.** As long as nothing overflows, no operation
is measured from before the clock base if the setup is over by the first intended time of the schedule, which is its
anchor unless a ramp begins with steps without operations; with a longer setup some run measures one that is. A latency
begins at the offset of its index from the anchor, which is the length of the setup before the clock base. -/
theorem setup_in_latency_iff {T : Type} (d : Deps T) {pp : DriveParams} {setup : Nat} (hopen : pp.OpenLoop)
    (hconns : 1 ≤ pp.connections) (hwarmup : 0 ≤ pp.warmup.val) :
    (∀ s, Reachable (timedStep d pp.options (pp.scheduler (-setup))) (timedInit d) s →
      pp.InRange (setup + s.run.now) ∧ setup ≤ pp.arrivalOffset 0 → ∀ smp ∈ s.samples, 0 ≤ smp.claim.intended) ∧
    (pp.InRange (setup + pp.warmup.val) →
      (∀ s, Reachable (timedStep d pp.options (pp.scheduler (-setup))) (timedInit d) s →
        pp.InRange (setup + s.run.now) → ∀ smp ∈ s.samples, 0 ≤ smp.claim.intended) → setup ≤ pp.arrivalOffset 0) ∧
    ∀ s, Reachable (timedStep d pp.options (pp.scheduler (-setup))) (timedInit d) s → pp.InRange (setup + s.run.now) →
      ∀ smp ∈ s.samples, smp.latency = smp.obs.complete - (pp.arrivalOffset smp.claim.index - setup) := by
  refine ⟨fun s hs ⟨hs', hsetup⟩ smp hsmp => ?_, fun hrange hnever => ?_, fun s hs hs' smp hsmp => ?_⟩
  · obtain ⟨hexact, hfirst⟩ := sample_exact hopen hs hs' smp hsmp
    omega
  · have hsched := next_intended hopen hrange.rate setup
    obtain ⟨m, hm⟩ := exists_reach hopen (by omega) hrange setup
    have hzero : pp.intended setup 0 = pp.arrivalOffset 0 - setup := (hm 0 (Nat.zero_le _)).1
    by_contra hlate
    have hwarm : ((pp.options.warmup : Nat) : Int) = pp.warmup.val := Int.toNat_of_nonneg hwarmup
    obtain ⟨s, hs, hnow, smp, hsmp, hclaim⟩ :=
      exists_first_sample hsched d (show 0 < pp.connections.toNat by omega) (by rw [hzero, hwarm]; omega)
    have hge := hnever s hs (by rw [hnow, hwarm]; exact hrange) smp hsmp
    rw [hclaim] at hge
    change 0 ≤ pp.intended setup 0 at hge
    omega
  · obtain ⟨hexact, -⟩ := sample_exact hopen hs hs' smp hsmp
    unfold Sample.latency
    omega

/-- One operation a second on one connection, for five seconds after a second of warmup. -/
def oneAtATime : DriveParams :=
  { rate := ⟨.fixed, 1⟩, connections := 1, warmup := 1000000000, duration := 5000000000, seed := 42, workerID := 0,
    workerCount := 1, startAt := none, testType := .load }

/-- A target that answers every operation. -/
def answering : Deps Unit where
  gen _ _ := { type := "select", key := 0, value := [], seq := 0 }
  execute t op := (t, { type := op.type, rows := 1, observed := .nil, err := none })
  empty := ()

/-- The connection serves its next index at once, in the time `service`. -/
def serve (service : Nat) : List TimedAction :=
  [.claim 0, .act (.wake 0), .act (.dispatch 0), .act (.exec 0), .act (.tick service), .act (.ret 0), .act (.finish 0)]

/-- The connection takes five seconds to prepare and then catches up with the schedule. The first measured operation,
served in a tenth of a second, is recorded with a latency of more than three seconds. -/
theorem setup_measured_as_latency :
    ∃ s, Reachable (timedStep answering oneAtATime.options (oneAtATime.scheduler (-5000000000)))
        (timedInit answering) s ∧
      s.samples.map (fun smp => (smp.claim.intended, smp.obs.invoke, smp.obs.complete, smp.latency)) =
        [(-2000000000, 1200000000, 1300000000, 3300000000)] :=
  exists_reachable (serve 400000000 ++ serve 400000000 ++ serve 400000000 ++ serve 100000000) (by decide +kernel)

theorem setup_in_latency_iff_without_setup :
    ∃ s, Reachable (timedStep answering oneAtATime.options (oneAtATime.scheduler (-(0 : Nat))))
        (timedInit answering) s ∧
      s.samples.length = 1 ∧ ∀ smp ∈ s.samples, 0 ≤ smp.claim.intended ∧
        smp.latency = smp.obs.complete - (oneAtATime.arrivalOffset smp.claim.index - (0 : Nat)) := by
  have hrun : ∃ s, Reachable (timedStep answering oneAtATime.options (oneAtATime.scheduler (-(0 : Nat))))
      (timedInit answering) s ∧ s.samples.length = 1 ∧ s.run.now = 1400000000 :=
    exists_reachable (serve 400000000 ++ [.claim 0, .act (.tick 600000000)] ++ (serve 400000000).tail)
      (by decide +kernel)
  have hopen : oneAtATime.OpenLoop := ⟨by decide, Or.inr ⟨by decide, rfl⟩⟩
  obtain ⟨hfrom, -, hlatency⟩ := @setup_in_latency_iff Unit answering oneAtATime 0 hopen (by decide) (by decide)
  obtain ⟨s, hs, hlength, hnow⟩ := hrun
  have hrange : oneAtATime.InRange ((0 : Nat) + s.run.now) := by
    rw [hnow]
    exact ⟨by decide +kernel, by decide +kernel, by decide +kernel⟩
  refine ⟨s, hs, hlength, fun smp hsmp => ⟨hfrom s hs ⟨hrange, by decide +kernel⟩ smp hsmp, ?_⟩⟩
  exact hlatency s hs hrange smp hsmp

end Proofload.Cli
