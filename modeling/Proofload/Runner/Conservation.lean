import Proofload.Runner.Timed
import Mathlib.Data.List.Perm.Subperm

/-!
# No arrival is skipped (`core/runner/worker.go`)

The load loop under an open-loop schedule, with a history of the arrivals whose operation has returned; nothing in the
runner reads it. However slow the target is, the loop works off the arrivals in the order of the schedule and never
skips one to catch up: an arrival that is not measured was dispatched during the warmup, or the end of the run took it,
and the end takes at most one from every connection.

* `Conserved` : what every step keeps;
* `every_arrival_accounted` : the claimed arrivals, the samples and their latencies, and what the end of the run takes.
-/

namespace Proofload.Runner
open Lib Schedule

set_option autoImplicit false

variable {T : Type}

/-- An arrival whose operation has returned, and whether the context was still alive behind `Execute`. -/
structure Arrival where
  sample : Sample
  alive : Bool
deriving DecidableEq

structure Ledger (T : Type) where
  timed : TimedState T
  ended : List Arrival

/-- The arrival that ends with an action. -/
def endedBy (s : TimedState T) : TimedAction → List Arrival
  | .act (.finish c) =>
      match s.run.phase c, s.claimed c with
      | .returned op dispatch res exec done, some cl => [⟨⟨cl, ⟨c, op, res, dispatch, done, exec⟩⟩, !s.run.ctxDone⟩]
      | _, _ => []
  | _ => []

def ledgerInit (d : Deps T) : Ledger T := ⟨timedInit d, []⟩

def ledgerStep (d : Deps T) (o : Options) (sched : Scheduler) (l : Ledger T) (a : TimedAction) : Option (Ledger T) :=
  (timedStep d o sched l.timed a).map fun t => ⟨t, l.ended ++ endedBy l.timed a⟩

/-- The indices that the workers hold. -/
def held (o : Options) (claimed : Nat → Option Claim) : List Nat :=
  (List.range o.connections).filterMap fun c => (claimed c).map Claim.index

/-- The operation ended in the measure phase. -/
def Arrival.measured (o : Options) (x : Arrival) : Bool := x.alive && decide ((o.warmup : Int) ≤ x.sample.obs.invoke)

/-- The operation was dispatched before the end of the warmup. -/
def Arrival.warmup (o : Options) (x : Arrival) : Bool := x.alive && decide (x.sample.obs.invoke < o.warmup)

/-! ## Steps of the load loop -/

section Steps
variable {d : Deps T} {o : Options} {s t : State T}

theorem finish_phase {c : Nat} (h : step d o s (.finish c) = some t) :
    t.phase = Function.update s.phase c (if s.ctxDone then .stopped else .idle) := by
  simp only [step] at h
  split at h
  · split_ifs at h with hdone <;> obtain rfl := Option.some.inj h <;> simp [hdone]
  · cases h

theorem stopped_of_step {a : Action} (h : step d o s a = some t) {c : Nat} (hc : s.phase c = .stopped) :
    t.phase c = .stopped := by
  have hmoves : ∀ {c' : Nat} {p : Phase}, s.phase c' ≠ .stopped → Function.update s.phase c' p c = .stopped := by
    intro c' p hc'
    have hne : c ≠ c' := by
      rintro rfl
      exact hc' hc
    rw [Function.update_of_ne hne]
    exact hc
  cases a with
  | tick n =>
      obtain rfl := Option.some.inj h
      exact hc
  | endCtx =>
      obtain rfl := Option.some.inj h
      exact hc
  | wake c' =>
      simp only [step] at h
      split_ifs at h with hguard
      obtain rfl := Option.some.inj h
      exact hmoves (by simp [hguard.2.1])
  | dispatch c' =>
      simp only [step] at h
      split at h
      · next hphase =>
          obtain rfl := Option.some.inj h
          exact hmoves (by simp [hphase])
      · cases h
  | exec c' =>
      obtain ⟨op, dispatch, hphase, rfl⟩ := step_exec h
      exact hmoves (by simp [hphase])
  | ret c' =>
      obtain ⟨op, dispatch, res, i, hphase, rfl⟩ := step_ret h
      exact hmoves (by simp [hphase])
  | finish c' =>
      obtain ⟨op, dispatch, res, i, done, hphase, -⟩ := step_finish h
      rw [finish_phase h]
      exact hmoves (by simp [hphase])
  | stop c' =>
      simp only [step] at h
      split_ifs at h with hguard
      obtain rfl := Option.some.inj h
      exact hmoves (by simp [hguard.1])

end Steps

/-! ## The held indices -/

theorem held_update (o : Options) (claimed : Nat → Option Claim) {c : Nat} (hc : c < o.connections) (cl : Claim) :
    (held o (Function.update claimed c (some cl))).Perm (cl.index :: held o (Function.update claimed c none)) := by
  obtain ⟨l₁, l₂, hsplit⟩ := List.append_of_mem (List.mem_range.mpr hc)
  have hnodup := List.nodup_range (n := o.connections)
  rw [hsplit, List.nodup_append_comm, List.cons_append, List.nodup_cons, List.mem_append, not_or] at hnodup
  obtain ⟨⟨h₂, h₁⟩, -⟩ := hnodup
  have hother : ∀ (v : Option Claim) {l : List Nat}, c ∉ l →
      (l.filterMap fun c' => (Function.update claimed c v c').map Claim.index) =
        l.filterMap fun c' => (claimed c').map Claim.index := by
    intro v l hl
    refine List.filterMap_congr fun c' hc' => ?_
    have hne : c' ≠ c := by
      rintro rfl
      exact hl hc'
    rw [Function.update_of_ne hne]
  unfold held
  rw [hsplit, List.filterMap_append, List.filterMap_append, List.filterMap_cons, List.filterMap_cons,
    Function.update_self, Function.update_self, hother _ h₁, hother _ h₂, hother _ h₁, hother _ h₂]
  exact List.perm_middle

/-! ## What every step keeps -/

/-- Every claimed index is ended or held, once. The samples are the measured arrivals. A worker whose operation was
interrupted has stopped and holds nothing. -/
structure Conserved (o : Options) (l : Ledger T) : Prop where
  indices : (l.ended.map (·.sample.claim.index) ++ held o l.timed.claimed).Perm (List.range l.timed.nextIdx)
  samples : l.timed.samples = (l.ended.filter (Arrival.measured o)).map (·.sample)
  holders : ∀ c cl, l.timed.claimed c = some cl → c < o.connections
  stopped : ∀ x ∈ l.ended, x.alive = false → l.timed.run.phase x.sample.obs.shard = .stopped ∧
    l.timed.claimed x.sample.obs.shard = none ∧ x.sample.obs.shard < o.connections
  once : ((l.ended.filter fun x => !x.alive).map (·.sample.obs.shard)).Nodup

section Conserved
variable {d : Deps T} {o : Options} {sched : Scheduler} {l l' : Ledger T}

theorem Conserved.claim (h : Conserved o l) {c : Nat} {t : TimedState T}
    (ht : timedStep d o sched l.timed (.claim c) = some t) : Conserved o ⟨t, l.ended⟩ := by
  obtain ⟨hc, hidle, hfree, intended, -, rfl⟩ := timedStep_claim ht
  refine ⟨?_, h.samples, fun c' cl hcl => ?_, fun x hx hdead => ?_, h.once⟩
  · have hsame : Function.update l.timed.claimed c none = l.timed.claimed := by
      rw [← hfree, Function.update_eq_self]
    have hheld := held_update o l.timed.claimed hc ⟨l.timed.nextIdx, intended⟩
    rw [hsame] at hheld
    dsimp only
    rw [List.range_succ]
    refine ((hheld.append_left _).trans List.perm_middle).trans ?_
    exact (h.indices.cons _).trans (List.perm_append_singleton _ _).symm
  · dsimp only at hcl
    by_cases hcc : c' = c
    · rwa [hcc]
    · rw [Function.update_of_ne hcc] at hcl
      exact h.holders c' cl hcl
  · obtain ⟨hphase, hnone, hlt⟩ := h.stopped x hx hdead
    have hne : x.sample.obs.shard ≠ c := by
      intro heq
      rw [heq, hidle] at hphase
      cases hphase
    refine ⟨hphase, ?_, hlt⟩
    dsimp only
    rw [Function.update_of_ne hne]
    exact hnone

theorem Conserved.move (h : Conserved o l) {a : Action} (ha : ∀ c, a ≠ .finish c) {r : State T}
    (hr : step d o l.timed.run a = some r) :
    Conserved o ⟨{ l.timed with
      run := r
      claimed := release l.timed.claimed a
      samples := l.timed.samples ++ measured o l.timed a }, l.ended⟩ := by
  have hrelease : release l.timed.claimed a = l.timed.claimed := by
    funext c
    exact release_of_ne_finish l.timed.claimed (ha c)
  rw [hrelease, measured_of_ne_finish ha, List.append_nil]
  refine ⟨h.indices, h.samples, h.holders, fun x hx hdead => ?_, h.once⟩
  obtain ⟨hphase, hnone, hlt⟩ := h.stopped x hx hdead
  exact ⟨stopped_of_step hr hphase, hnone, hlt⟩

theorem Conserved.finish (h : Conserved o l) (hsampled : Sampled l.timed) {c : Nat} {r : State T}
    (hr : step d o l.timed.run (.finish c) = some r) :
    Conserved o ⟨{ l.timed with
        run := r, claimed := release l.timed.claimed (.finish c)
        samples := l.timed.samples ++ measured o l.timed (.finish c) },
      l.ended ++ endedBy l.timed (.act (.finish c))⟩ := by
  obtain ⟨op, dispatch, res, exec, done, hphase, -⟩ := step_finish hr
  obtain ⟨cl, hcl, -⟩ := hsampled.due c (by rw [hphase]; rfl)
  have hc := h.holders c cl hcl
  have hended : endedBy l.timed (.act (.finish c)) =
      [⟨⟨cl, ⟨c, op, res, dispatch, done, exec⟩⟩, !l.timed.run.ctxDone⟩] := by
    simp only [endedBy, hphase, hcl]
  have hmeasured : measured o l.timed (.finish c) =
      if l.timed.run.ctxDone ∨ dispatch < o.warmup then [] else [⟨cl, ⟨c, op, res, dispatch, done, exec⟩⟩] := by
    simp only [measured, hphase, hcl]
  rw [hended, hmeasured]
  have hother : ∀ x ∈ l.ended, x.alive = false → x.sample.obs.shard ≠ c := by
    intro x hx hdead heq
    have hnone := (h.stopped x hx hdead).2.1
    rw [heq, hcl] at hnone
    cases hnone
  refine ⟨?_, ?_, fun c' cl' hcl' => ?_, fun x hx hdead => ?_, ?_⟩
  · have hsame : Function.update l.timed.claimed c (some cl) = l.timed.claimed := by
      rw [← hcl, Function.update_eq_self]
    have hheld := held_update o l.timed.claimed hc cl
    rw [hsame] at hheld
    refine List.Perm.trans ?_ h.indices
    simp only [release, List.map_append, List.map_cons, List.map_nil, List.append_assoc, List.singleton_append]
    exact (hheld.symm).append_left _
  · dsimp only
    rw [h.samples, List.filter_append, List.map_append]
    congr 1
    cases hdone : l.timed.run.ctxDone with
    | true => simp [Arrival.measured]
    | false =>
        by_cases hwarm : dispatch < o.warmup
        · simp [Arrival.measured, hwarm]
        · simp [Arrival.measured, hwarm, not_lt.mp hwarm]
  · dsimp only at hcl'
    exact h.holders c' cl' (release_eq_some hcl').1
  · rcases List.mem_append.mp hx with hx | hx
    · obtain ⟨hstopped, hnone, hlt⟩ := h.stopped x hx hdead
      refine ⟨stopped_of_step hr hstopped, ?_, hlt⟩
      exact (Function.update_of_ne (hother x hx hdead) _ _).trans hnone
    · rw [List.mem_singleton.mp hx] at hdead ⊢
      simp only [Bool.not_eq_false'] at hdead
      refine ⟨?_, Function.update_self .., hc⟩
      dsimp only
      rw [finish_phase hr, Function.update_self, hdead]
      rfl
  · rw [List.filter_append, List.map_append]
    cases hdone : l.timed.run.ctxDone with
    | false => simpa using h.once
    | true =>
        simp only [Bool.not_true, Bool.not_false, List.filter_cons, List.filter_nil, if_true, List.map_cons,
          List.map_nil]
        refine List.nodup_append.mpr ⟨h.once, List.nodup_singleton _, fun a ha b hb => ?_⟩
        obtain ⟨x, hx, rfl⟩ := List.mem_map.mp ha
        obtain ⟨hx, hdead⟩ := List.mem_filter.mp hx
        rw [List.mem_singleton.mp hb]
        exact hother x hx (by simpa using hdead)

theorem Conserved.step (h : Conserved o l) (hsampled : Sampled l.timed) {a : TimedAction}
    (hstep : ledgerStep d o sched l a = some l') : Conserved o l' := by
  obtain ⟨t, ht, rfl⟩ := Option.map_eq_some_iff.mp hstep
  cases a with
  | claim c =>
      have hclaim := h.claim ht
      rwa [← List.append_nil l.ended] at hclaim
  | act a =>
      obtain ⟨-, r, hr, rfl⟩ := timedStep_act ht
      by_cases ha : ∃ c, a = .finish c
      · obtain ⟨c, rfl⟩ := ha
        exact h.finish hsampled hr
      · have hno : ∀ c, a ≠ .finish c := fun c hc => ha ⟨c, hc⟩
        have hended : endedBy l.timed (.act a) = [] := by
          cases a with
          | finish c => exact absurd rfl (hno c)
          | _ => rfl
        rw [hended, List.append_nil]
        exact h.move hno hr

theorem Conserved.init : Conserved o (ledgerInit d) where
  indices := by simp [ledgerInit, timedInit, held]
  samples := rfl
  holders c cl h := by cases h
  stopped x hx := by cases hx
  once := List.nodup_nil

theorem timed_of_ledger (h : Reachable (ledgerStep d o sched) (ledgerInit d) l) :
    Reachable (timedStep d o sched) (timedInit d) l.timed := by
  refine h.invariant (P := fun l => Reachable (timedStep d o sched) (timedInit d) l.timed) ⟨[], rfl⟩
    fun l a l' hl hl' => ?_
  obtain ⟨t, ht, rfl⟩ := Option.map_eq_some_iff.mp hl'
  exact hl.next ht

theorem conserved (h : Reachable (ledgerStep d o sched) (ledgerInit d) l) : Conserved o l := by
  have hboth : Sampled l.timed ∧ Conserved o l := by
    refine h.invariant (P := fun l => Sampled l.timed ∧ Conserved o l) ⟨Sampled.init, Conserved.init⟩
      fun l a l' hl hl' => ?_
    obtain ⟨t, ht, rfl⟩ := Option.map_eq_some_iff.mp hl'
    exact ⟨hl.1.step ht, hl.2.step hl.1 hl'⟩
  exact hboth.2

theorem Conserved.taken_le (h : Conserved o l) :
    (l.ended.countP fun x => !x.alive) + (held o l.timed.claimed).length ≤ o.connections := by
  have hholding : (held o l.timed.claimed).length =
      ((List.range o.connections).filter fun c => (l.timed.claimed c).isSome).length := by
    unfold held
    rw [List.length_filterMap_eq_countP, List.countP_eq_length_filter]
    simp only [Option.isSome_map]
  have hnodup : ((l.ended.filter fun x => !x.alive).map (·.sample.obs.shard) ++
      (List.range o.connections).filter fun c => (l.timed.claimed c).isSome).Nodup := by
    refine List.nodup_append.mpr ⟨h.once, List.nodup_range.filter _, fun a ha b hb heq => ?_⟩
    obtain ⟨x, hx, rfl⟩ := List.mem_map.mp ha
    obtain ⟨hx, hdead⟩ := List.mem_filter.mp hx
    have hnone := (h.stopped x hx (by simpa using hdead)).2.1
    have hsome := (List.mem_filter.mp hb).2
    rw [← heq, hnone] at hsome
    cases hsome
  have hsub : ((l.ended.filter fun x => !x.alive).map (·.sample.obs.shard) ++
      (List.range o.connections).filter fun c => (l.timed.claimed c).isSome) ⊆ List.range o.connections := by
    intro c hc
    rcases List.mem_append.mp hc with hc | hc
    · obtain ⟨x, hx, rfl⟩ := List.mem_map.mp hc
      obtain ⟨hx, hdead⟩ := List.mem_filter.mp hx
      exact List.mem_range.mpr (h.stopped x hx (by simpa using hdead)).2.2
    · exact (List.mem_filter.mp hc).1
  have hlength := (List.subperm_of_subset hnodup hsub).length_le
  rwa [List.length_append, List.length_map, List.length_range, ← hholding, ← List.countP_eq_length_filter] at hlength

end Conserved

/-- **No arrival is skipped.** In every run of the load loop under an open-loop schedule, whatever the target does and
however the workers interleave: the claimed arrivals are exactly the first ones of the schedule, each of them ended
once or held by one worker; the samples are exactly those that ended in the measure phase, and their latency counts
from their own intended time; and all but as many as there are connections are measured or belong to the warmup. -/
theorem every_arrival_accounted {d : Deps T} {o : Options} {sched : Scheduler} {off : Nat → Int}
    (hsched : ∀ now (n : Nat), sched.next now n = some (off n)) {l : Ledger T}
    (h : Reachable (ledgerStep d o sched) (ledgerInit d) l) :
    (l.ended.map (·.sample.claim.index) ++ held o l.timed.claimed).Perm (List.range l.timed.nextIdx) ∧
    l.timed.samples = (l.ended.filter (Arrival.measured o)).map (·.sample) ∧
    (∀ smp ∈ l.timed.samples, smp.latency = smp.obs.complete - off smp.claim.index) ∧
    l.timed.nextIdx ≤ l.timed.samples.length + l.ended.countP (Arrival.warmup o) + o.connections := by
  have hconserved := conserved h
  refine ⟨hconserved.indices, hconserved.samples, fun smp hsmp => ?_, ?_⟩
  · unfold Sample.latency
    rw [((paced hsched (timed_of_ledger h)).samples smp hsmp).1]
  · have hlength := hconserved.indices.length_eq
    rw [List.length_append, List.length_map, List.length_range] at hlength
    have hparts : l.ended.length = l.ended.countP (Arrival.measured o) + l.ended.countP (Arrival.warmup o) +
        l.ended.countP fun x => !x.alive := by
      clear h hconserved hlength
      induction l.ended with
      | nil => rfl
      | cons x xs ih =>
          rw [List.length_cons, List.countP_cons, List.countP_cons, List.countP_cons, ih]
          cases halive : x.alive with
          | false => simp [Arrival.measured, Arrival.warmup, halive]; omega
          | true =>
              by_cases hwarm : x.sample.obs.invoke < o.warmup
              · simp [Arrival.measured, Arrival.warmup, halive, hwarm, not_le.mpr hwarm]; omega
              · simp [Arrival.measured, Arrival.warmup, halive, hwarm, not_lt.mp hwarm]; omega
    have htaken := hconserved.taken_le
    rw [hconserved.samples, List.length_map, ← List.countP_eq_length_filter]
    omega

/-- Reads on a target without state. -/
def plainReads : Deps Unit :=
  { gen := fun _ _ => ⟨"read", 0, [], 0⟩, execute := fun _ op => ((), ⟨op.type, 0, .nil, none⟩), empty := () }

/-- One arrival per nanosecond; worker 1 never wakes, and the end of the run interrupts worker 0. -/
def stalledRun : List TimedAction :=
  [.claim 0, .claim 1, .act (.tick 3), .act (.wake 0), .act (.dispatch 0), .act (.exec 0), .act (.ret 0),
    .act (.finish 0), .claim 0, .act (.wake 0), .act (.dispatch 0), .act (.exec 0), .act (.ret 0), .act .endCtx,
    .act (.finish 0)]

/-- Of three arrivals one is measured, three nanoseconds after its intended time; one is held and one interrupted. -/
theorem every_arrival_accounted_when_stalled :
    ∃ l, Reachable (ledgerStep plainReads ⟨2, 0⟩ (.openLoop 0 1000000000)) (ledgerInit plainReads) l ∧
      l.timed.samples.map Sample.latency = [3] ∧ held ⟨2, 0⟩ l.timed.claimed = [1] ∧ l.timed.nextIdx = 3 ∧
      (l.ended.map (·.sample.claim.index) ++ held ⟨2, 0⟩ l.timed.claimed).Perm (List.range l.timed.nextIdx) := by
  obtain ⟨l, hreach, hspec⟩ :
      ∃ l, Reachable (ledgerStep plainReads ⟨2, 0⟩ (.openLoop 0 1000000000)) (ledgerInit plainReads) l ∧
        l.timed.samples.map Sample.latency = [3] ∧ held ⟨2, 0⟩ l.timed.claimed = [1] ∧ l.timed.nextIdx = 3 :=
    exists_reachable stalledRun (by decide +kernel)
  have hsched : ∀ now (n : Nat), Scheduler.next now n (.openLoop 0 1000000000) = some (0 + offsetFor n 1000000000) :=
    fun _ _ => rfl
  exact ⟨l, hreach, hspec.1, hspec.2.1, hspec.2.2, (every_arrival_accounted hsched hreach).1⟩

end Proofload.Runner
