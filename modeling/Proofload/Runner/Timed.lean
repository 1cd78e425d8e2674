import Proofload.Runner.Worker
import Proofload.Schedule.Scheduler
import Mathlib.Order.Interval.Finset.Nat

/-!
# The load loop under its schedule (`core/runner/worker.go`)

The load loop together with what it reads from the scheduler: a worker claims the next index before it sleeps, wakes
when the index is due, and the latency of a measured operation counts from the intended time of its index. The
scheduler may be anchored before the runner's clock base.

* `reachable_run` : forgetting the claims leaves a run of the load loop, `sampled` : its samples are the observations;
* `Paced` : every index that no worker holds has been due;
* `claims_bounded` : how far the claims can run ahead of the clock;
* `sample_in_reach` : what this says about the samples;
* `exists_first_sample` : the operation of index 0 can be measured.
-/

namespace Proofload.Runner
open Lib Schedule

set_option autoImplicit false

/-- An index and its intended start, as a worker holds them between two calls of `Next`. -/
structure Claim where
  index : Nat
  intended : Int
deriving DecidableEq

/-- One call of `sink.Record`. -/
structure Sample where
  claim : Claim
  obs : Observation
deriving DecidableEq

def Sample.latency (smp : Sample) : Int := smp.obs.complete - smp.claim.intended

structure TimedState (T : Type) where
  run : State T
  /-- `n` of the scheduler -/
  nextIdx : Nat
  claimed : Nat → Option Claim
  samples : List Sample

inductive TimedAction where
  | claim (c : Nat)
  | act (a : Action)

variable {T : Type}

def timedInit (d : Deps T) : TimedState T :=
  { run := init d, nextIdx := 0, claimed := fun _ => none, samples := [] }

/-- `sleepUntil` returns when the claimed index is due. -/
def awake (s : TimedState T) : Action → Bool
  | .wake c => (s.claimed c).any fun cl => cl.intended ≤ s.run.now
  | _ => true

/-- The next iteration claims a new index. -/
def release (claimed : Nat → Option Claim) : Action → Nat → Option Claim
  | .finish c => Function.update claimed c none
  | _ => claimed

/-- What `observe` hands to the sink. -/
def measured (o : Options) (s : TimedState T) : Action → List Sample
  | .finish c =>
      match s.run.phase c, s.claimed c with
      | .returned op dispatch res exec done, some cl =>
          if s.run.ctxDone ∨ dispatch < o.warmup then [] else [⟨cl, ⟨c, op, res, dispatch, done, exec⟩⟩]
      | _, _ => []
  | _ => []

/-- One step of the load loop under the scheduler `sched`. -/
def timedStep (d : Deps T) (o : Options) (sched : Scheduler) (s : TimedState T) : TimedAction → Option (TimedState T)
  | .claim c =>
      if c < o.connections ∧ s.run.phase c = .idle ∧ s.run.ctxDone = false ∧ s.claimed c = none then
        (sched.next s.run.now s.nextIdx).map fun intended =>
          { s with nextIdx := s.nextIdx + 1, claimed := Function.update s.claimed c (some ⟨s.nextIdx, intended⟩) }
      else none
  | .act a =>
      if awake s a then
        (step d o s.run a).map fun r =>
          { s with run := r, claimed := release s.claimed a, samples := s.samples ++ measured o s a }
      else none

/-! ## What a step does -/

section Steps
variable {d : Deps T} {o : Options} {sched : Scheduler} {s t : TimedState T}

theorem timedStep_claim {c : Nat} (h : timedStep d o sched s (.claim c) = some t) :
    c < o.connections ∧ s.run.phase c = .idle ∧ s.claimed c = none ∧ ∃ intended,
      sched.next s.run.now s.nextIdx = some intended ∧
      t = { s with nextIdx := s.nextIdx + 1, claimed := Function.update s.claimed c (some ⟨s.nextIdx, intended⟩) } := by
  simp only [timedStep] at h
  split_ifs at h with hc
  obtain ⟨intended, hnext, rfl⟩ := Option.map_eq_some_iff.mp h
  exact ⟨hc.1, hc.2.1, hc.2.2.2, intended, hnext, rfl⟩

theorem timedStep_act {a : Action} (h : timedStep d o sched s (.act a) = some t) :
    awake s a = true ∧ ∃ r, step d o s.run a = some r ∧
      t = { s with run := r, claimed := release s.claimed a, samples := s.samples ++ measured o s a } := by
  simp only [timedStep] at h
  split_ifs at h with ha
  obtain ⟨r, hr, rfl⟩ := Option.map_eq_some_iff.mp h
  exact ⟨ha, r, hr, rfl⟩

/-- A worker between its wake-up and the end of its operation. -/
def Phase.busy : Phase → Bool
  | .idle | .stopped => false
  | _ => true

theorem busy_of_update {phase : Nat → Phase} {c c' : Nat} {p : Phase}
    (h : (Function.update phase c' p c).busy = true) : (c = c' ∧ p.busy = true) ∨ (c ≠ c' ∧ (phase c).busy = true) := by
  by_cases hc : c = c'
  · rw [hc, Function.update_self] at h
    exact Or.inl ⟨hc, h⟩
  · rw [Function.update_of_ne hc] at h
    exact Or.inr ⟨hc, h⟩

/-- What a step of the load loop does to the clock, to the workers and to the observer. A worker becomes busy by waking
up and is busy until it has finished. -/
structure Effect (r u : State T) (a : Action) : Prop where
  now : r.now ≤ u.now
  busy : ∀ c, (u.phase c).busy = true → a ≠ .finish c ∧ ((r.phase c).busy = true ∨ a = .wake c)
  observed : (∀ c, a ≠ .finish c) → u.observed = r.observed

theorem Effect.of_update {r u : State T} {a : Action} {c' : Nat} {p : Phase} (hold : (r.phase c').busy = true)
    (hphase : u.phase = Function.update r.phase c' p) (hnow : u.now = r.now) (hobserved : u.observed = r.observed)
    (ha : ∀ c, a ≠ .finish c) : Effect r u a := by
  refine ⟨hnow.ge, fun c hbusy => ⟨ha c, Or.inl ?_⟩, fun _ => hobserved⟩
  rw [hphase] at hbusy
  rcases busy_of_update hbusy with ⟨rfl, -⟩ | ⟨-, hother⟩
  · exact hold
  · exact hother

theorem Effect.of_rest {r u : State T} {a : Action} {c' : Nat} {p : Phase} (hrest : p.busy = false)
    (hphase : u.phase = Function.update r.phase c' p) (hnow : u.now = r.now)
    (hobserved : (∀ c, a ≠ .finish c) → u.observed = r.observed) (ha : ∀ c, a = .finish c → c = c') : Effect r u a := by
  refine ⟨hnow.ge, fun c hbusy => ?_, hobserved⟩
  rw [hphase] at hbusy
  rcases busy_of_update hbusy with ⟨-, hbusy⟩ | ⟨hne, hother⟩
  · rw [hrest] at hbusy
    cases hbusy
  · exact ⟨fun heq => hne (ha c heq), Or.inl hother⟩

theorem step_effect {r u : State T} {a : Action} (h : step d o r a = some u) : Effect r u a := by
  cases a with
  | tick n =>
      obtain rfl := Option.some.inj h
      exact ⟨Int.le_add_of_nonneg_right (Int.natCast_nonneg n), fun c hbusy => ⟨by simp, Or.inl hbusy⟩, fun _ => rfl⟩
  | endCtx =>
      obtain rfl := Option.some.inj h
      exact ⟨le_refl _, fun c hbusy => ⟨by simp, Or.inl hbusy⟩, fun _ => rfl⟩
  | wake c' =>
      obtain rfl := step_wake h
      refine ⟨le_refl _, fun c hbusy => ⟨by simp, ?_⟩, fun _ => rfl⟩
      rcases busy_of_update hbusy with ⟨rfl, -⟩ | ⟨-, hother⟩
      · exact Or.inr rfl
      · exact Or.inl hother
  | dispatch c' =>
      have hready : r.phase c' = .ready := by
        simp only [step] at h
        split at h
        · assumption
        · cases h
      obtain rfl := step_dispatch h
      exact Effect.of_update (by rw [hready]; rfl) rfl rfl rfl (by simp)
  | exec c' =>
      obtain ⟨op, dispatch, hcalled, rfl⟩ := step_exec h
      exact Effect.of_update (by rw [hcalled]; rfl) rfl rfl rfl (by simp)
  | ret c' =>
      obtain ⟨op, dispatch, res, i, hexecuted, rfl⟩ := step_ret h
      exact Effect.of_update (by rw [hexecuted]; rfl) rfl rfl rfl (by simp)
  | finish c' =>
      have hself : (∀ c, Action.finish c' ≠ .finish c) → u.observed = r.observed := fun hno => absurd rfl (hno c')
      obtain ⟨op, dispatch, res, i, done, -, rfl | rfl | rfl⟩ := step_finish h <;>
        exact Effect.of_rest rfl rfl rfl hself fun c heq => (Action.finish.inj heq).symm
  | stop c' =>
      obtain rfl := step_stop h
      exact Effect.of_rest rfl rfl rfl (fun _ => rfl) (by simp)

theorem release_of_ne_finish (claimed : Nat → Option Claim) {a : Action} {c : Nat} (h : a ≠ .finish c) :
    release claimed a c = claimed c := by
  cases a with
  | finish c' => exact Function.update_of_ne (fun heq => h (by rw [heq])) _ _
  | _ => rfl

theorem release_eq_some {claimed : Nat → Option Claim} {a : Action} {c : Nat} {cl : Claim}
    (h : release claimed a c = some cl) : claimed c = some cl ∧ a ≠ .finish c := by
  have hne : a ≠ .finish c := by
    rintro rfl
    rw [release, Function.update_self] at h
    cases h
  rw [release_of_ne_finish claimed hne] at h
  exact ⟨h, hne⟩

theorem measured_of_ne_finish {a : Action} (h : ∀ c, a ≠ .finish c) : measured o s a = [] := by
  cases a with
  | finish c => exact absurd rfl (h c)
  | _ => rfl

theorem mem_measured {a : Action} {smp : Sample} (h : smp ∈ measured o s a) :
    ∃ c, a = .finish c ∧ s.claimed c = some smp.claim := by
  cases a with
  | finish c =>
      refine ⟨c, rfl, ?_⟩
      simp only [measured] at h
      split at h
      · next hcl =>
          split_ifs at h
          · cases h
          · rw [List.mem_singleton.mp h]
            exact hcl
      · cases h
  | _ => cases h

end Steps

/-! ## The load loop below -/

section Refinement
variable {d : Deps T} {o : Options} {sched : Scheduler} {s t : TimedState T}

theorem reachable_run (h : Reachable (timedStep d o sched) (timedInit d) s) : Reachable (step d o) (init d) s.run := by
  refine h.invariant (P := fun s => Reachable (step d o) (init d) s.run) ⟨[], rfl⟩ fun s a t hs ht => ?_
  cases a with
  | claim c =>
      obtain ⟨-, -, -, intended, -, rfl⟩ := timedStep_claim ht
      exact hs
  | act a =>
      obtain ⟨-, r, hr, rfl⟩ := timedStep_act ht
      obtain ⟨acts, hacts⟩ := hs
      refine ⟨acts ++ [a], ?_⟩
      rw [run_append, hacts, Option.bind_some, run_cons, hr]
      rfl

theorem clock_nonneg (h : Reachable (timedStep d o sched) (timedInit d) s) : 0 ≤ s.run.now := by
  refine h.invariant (P := fun s => 0 ≤ s.run.now) (le_refl _) fun s a t hs ht => ?_
  cases a with
  | claim c =>
      obtain ⟨-, -, -, intended, -, rfl⟩ := timedStep_claim ht
      exact hs
  | act a =>
      obtain ⟨-, r, hr, rfl⟩ := timedStep_act ht
      exact le_trans hs ((step_effect hr).now)

/-- Busy workers hold a claim that was due, and the sink has been handed what the observer has. -/
structure Sampled (s : TimedState T) : Prop where
  due : ∀ c, (s.run.phase c).busy = true → ∃ cl, s.claimed c = some cl ∧ cl.intended ≤ s.run.now
  observed : s.samples.map (·.obs) = s.run.observed

theorem Sampled.observed_step (h : Sampled s) {a : Action} {r : State T} (hr : step d o s.run a = some r) :
    r.observed = s.run.observed ++ (measured o s a).map (·.obs) := by
  by_cases ha : ∃ c, a = .finish c
  · obtain ⟨c, rfl⟩ := ha
    simp only [Runner.step, observe] at hr
    split at hr
    · next op dispatch res exec done hphase =>
        obtain ⟨cl, hcl, -⟩ := h.due c (by rw [hphase]; rfl)
        simp only [measured, hphase, hcl]
        split_ifs at hr with hdone hwarm
        · obtain rfl := Option.some.inj hr
          simp [hdone]
        · obtain rfl := Option.some.inj hr
          simp [hwarm]
        · obtain rfl := Option.some.inj hr
          simp [hdone, hwarm]
    · cases hr
  · have hno : ∀ c, a ≠ .finish c := fun c hc => ha ⟨c, hc⟩
    rw [(step_effect hr).observed hno, measured_of_ne_finish hno, List.map_nil, List.append_nil]

theorem Sampled.step (h : Sampled s) {a : TimedAction} (ht : timedStep d o sched s a = some t) : Sampled t := by
  cases a with
  | claim c =>
      obtain ⟨-, hidle, -, intended, -, rfl⟩ := timedStep_claim ht
      refine ⟨fun c' hbusy => ?_, h.observed⟩
      have hne : c' ≠ c := by
        rintro rfl
        rw [hidle] at hbusy
        cases hbusy
      dsimp only
      rw [Function.update_of_ne hne]
      exact h.due c' hbusy
  | act a =>
      obtain ⟨hawake, r, hr, rfl⟩ := timedStep_act ht
      have hnow := (step_effect hr).now
      refine ⟨fun c hbusy => ?_, ?_⟩
      · obtain ⟨hne, hold⟩ := (step_effect hr).busy c hbusy
        dsimp only
        rw [release_of_ne_finish s.claimed hne]
        rcases hold with hold | rfl
        · obtain ⟨cl, hcl, hdue⟩ := h.due c hold
          exact ⟨cl, hcl, le_trans hdue hnow⟩
        · obtain ⟨cl, hcl, hdue⟩ := (Option.any_eq_true _ _).mp hawake
          exact ⟨cl, hcl, le_trans (of_decide_eq_true hdue) hnow⟩
      · dsimp only
        rw [h.observed_step hr, List.map_append, h.observed]

theorem Sampled.init : Sampled (timedInit d) where
  due c hbusy := by cases hbusy
  observed := rfl

theorem sampled (h : Reachable (timedStep d o sched) (timedInit d) s) : Sampled s :=
  h.invariant Sampled.init fun _ _ _ hs ht => hs.step ht

end Refinement

/-! ## How far the claims run ahead -/

section Pace
variable {d : Deps T} {o : Options} {sched : Scheduler} {s t : TimedState T} {off : Nat → Int}

/-- The claims and samples of an open-loop schedule with the intended times `off`, in which every index that no worker
holds has been due. -/
structure Paced (o : Options) (off : Nat → Int) (s : TimedState T) : Prop where
  claims : ∀ c cl, s.claimed c = some cl → c < o.connections ∧ cl.intended = off cl.index ∧ cl.index < s.nextIdx
  passed : ∀ n < s.nextIdx, (∃ c cl, s.claimed c = some cl ∧ cl.index = n) ∨ off n ≤ s.run.now
  samples : ∀ smp ∈ s.samples, smp.claim.intended = off smp.claim.index ∧ smp.claim.index < s.nextIdx

theorem Paced.claim (h : Paced o off s) {c : Nat} (hc : c < o.connections) (hfree : s.claimed c = none) :
    Paced o off { s with
      nextIdx := s.nextIdx + 1, claimed := Function.update s.claimed c (some ⟨s.nextIdx, off s.nextIdx⟩) } := by
  refine ⟨fun c' cl hcl => ?_, fun n hn => ?_, fun smp hsmp => ?_⟩
  · dsimp only at hcl
    by_cases hcc : c' = c
    · rw [hcc, Function.update_self] at hcl
      obtain rfl := Option.some.inj hcl
      exact ⟨hcc ▸ hc, rfl, Nat.lt_succ_self _⟩
    · rw [Function.update_of_ne hcc] at hcl
      obtain ⟨hlt, hoff, hindex⟩ := h.claims c' cl hcl
      exact ⟨hlt, hoff, Nat.lt_succ_of_lt hindex⟩
  · rcases Nat.lt_succ_iff_lt_or_eq.mp hn with hn | rfl
    · rcases h.passed n hn with ⟨c', cl, hcl, hindex⟩ | hdue
      · have hcc : c' ≠ c := by
          rintro rfl
          rw [hfree] at hcl
          cases hcl
        exact Or.inl ⟨c', cl, by dsimp only; rw [Function.update_of_ne hcc, hcl], hindex⟩
      · exact Or.inr hdue
    · exact Or.inl ⟨c, ⟨s.nextIdx, off s.nextIdx⟩, Function.update_self .., rfl⟩
  · obtain ⟨hoff, hindex⟩ := h.samples smp hsmp
    exact ⟨hoff, Nat.lt_succ_of_lt hindex⟩

theorem Paced.act (h : Paced o off s) (hsampled : Sampled s) {a : Action} {r : State T}
    (hr : Runner.step d o s.run a = some r) : Paced o off { s with
      run := r, claimed := release s.claimed a, samples := s.samples ++ measured o s a } := by
  refine ⟨fun c cl hcl => h.claims c cl (release_eq_some hcl).1, fun n hn => ?_, fun smp hsmp => ?_⟩
  · have hnow := (step_effect hr).now
    rcases h.passed n hn with ⟨c, cl, hcl, rfl⟩ | hdue
    · by_cases ha : a = .finish c
      · subst ha
        obtain ⟨op, dispatch, res, i, done, hphase, -⟩ := step_finish hr
        obtain ⟨cl', hcl', hdue⟩ := hsampled.due c (by rw [hphase]; rfl)
        obtain rfl := Option.some.inj (hcl.symm.trans hcl')
        refine Or.inr (le_trans ?_ hnow)
        rw [← (h.claims c cl hcl).2.1]
        exact hdue
      · exact Or.inl ⟨c, cl, (release_of_ne_finish s.claimed ha).trans hcl, rfl⟩
    · exact Or.inr (le_trans hdue hnow)
  · rcases List.mem_append.mp hsmp with hsmp | hsmp
    · exact h.samples smp hsmp
    · obtain ⟨c, -, hcl⟩ := mem_measured hsmp
      exact (h.claims c smp.claim hcl).2

variable (hsched : ∀ now (n : Nat), sched.next now n = some (off n))

include hsched

theorem Paced.step (h : Paced o off s) (hsampled : Sampled s) {a : TimedAction}
    (ht : timedStep d o sched s a = some t) : Paced o off t := by
  cases a with
  | claim c =>
      obtain ⟨hc, -, hfree, intended, hnext, rfl⟩ := timedStep_claim ht
      obtain rfl := Option.some.inj ((hsched _ _).symm.trans hnext)
      exact h.claim hc hfree
  | act a =>
      obtain ⟨-, r, hr, rfl⟩ := timedStep_act ht
      exact h.act hsampled hr

omit hsched in
theorem Paced.init : Paced o off (timedInit d) where
  claims c cl h := by cases h
  passed n h := by cases h
  samples smp h := by cases h

theorem paced (h : Reachable (timedStep d o sched) (timedInit d) s) : Paced o off s := by
  have hboth : Sampled s ∧ Paced o off s := by
    refine h.invariant (P := fun s => Sampled s ∧ Paced o off s) ⟨Sampled.init, Paced.init⟩ fun s a t hs ht => ?_
    exact ⟨hs.1.step ht, hs.2.step hsched hs.1 ht⟩
  exact hboth.2

omit hsched in
theorem Paced.nextIdx_le (h : Paced o off s) {m : Nat} (hahead : ∀ n, m ≤ n → n < s.nextIdx → s.run.now < off n) :
    s.nextIdx ≤ m + o.connections := by
  have hsub : Finset.Ico m s.nextIdx ⊆
      (Finset.range o.connections).image fun c => ((s.claimed c).map Claim.index).getD 0 := by
    intro n hn
    obtain ⟨hmn, hlt⟩ := Finset.mem_Ico.mp hn
    rcases h.passed n hlt with ⟨c, cl, hcl, rfl⟩ | hdue
    · exact Finset.mem_image.mpr ⟨c, Finset.mem_range.mpr (h.claims c cl hcl).1, by rw [hcl]; rfl⟩
    · exact absurd hdue (not_le.mpr (hahead n hmn hlt))
  have hcard := (Finset.card_le_card hsub).trans Finset.card_image_le
  rw [Nat.card_Ico, Finset.card_range] at hcard
  omega

/-- **Claims stay near the clock**: while index `m` and those behind it are not due, at most one of them per
connection is claimed. -/
theorem claims_bounded {m : Nat} {horizon : Int} (hahead : ∀ n, m ≤ n → n ≤ m + o.connections → horizon < off n)
    (h : Reachable (timedStep d o sched) (timedInit d) s) (hnow : s.run.now ≤ horizon) :
    s.nextIdx ≤ m + o.connections + 1 := by
  have hinv : Sampled s ∧ Paced o off s ∧ (s.run.now ≤ horizon → s.nextIdx ≤ m + o.connections + 1) := by
    refine h.invariant
      (P := fun s => Sampled s ∧ Paced o off s ∧ (s.run.now ≤ horizon → s.nextIdx ≤ m + o.connections + 1))
      ⟨Sampled.init, Paced.init, fun _ => Nat.zero_le _⟩ fun s a t hs ht => ?_
    obtain ⟨hsampled, hpaced, hbound⟩ := hs
    refine ⟨hsampled.step ht, hpaced.step hsched hsampled ht, fun hnow => ?_⟩
    cases a with
    | claim c =>
        obtain ⟨-, -, -, intended, -, rfl⟩ := timedStep_claim ht
        have hbound := hbound hnow
        apply Nat.succ_le_succ
        apply hpaced.nextIdx_le
        intro n hmn hn
        exact lt_of_le_of_lt hnow (hahead n hmn (by omega))
    | act a =>
        obtain ⟨-, r, hr, rfl⟩ := timedStep_act ht
        exact hbound (le_trans ((step_effect hr).now) hnow)
  exact hinv.2.2 hnow

theorem sample_in_reach {m : Nat} {horizon : Int} (hahead : ∀ n, m ≤ n → n ≤ m + o.connections → horizon < off n)
    (h : Reachable (timedStep d o sched) (timedInit d) s) (hnow : s.run.now ≤ horizon) :
    ∀ smp ∈ s.samples, smp.claim.intended = off smp.claim.index ∧ smp.claim.index ≤ m + o.connections := by
  intro smp hsmp
  obtain ⟨hoff, hindex⟩ := (paced hsched h).samples smp hsmp
  have hbound := claims_bounded hsched hahead h hnow
  exact ⟨hoff, by omega⟩

/-- The first operation can be dispatched as late as the end of the warmup, and is measured then. -/
theorem exists_first_sample (d : Deps T) (hconns : 0 < o.connections) (hdue : off 0 ≤ o.warmup) :
    ∃ s, Reachable (timedStep d o sched) (timedInit d) s ∧ s.run.now = o.warmup ∧
      ∃ smp ∈ s.samples, smp.claim = ⟨0, off 0⟩ := by
  have hfirst : sched.next 0 0 = some (off 0) := hsched 0 0
  have hrun : ∃ s, run (timedStep d o sched) (timedInit d) [.claim 0, .act (.tick o.warmup), .act (.wake 0),
      .act (.dispatch 0), .act (.exec 0), .act (.ret 0), .act (.finish 0)] = some s ∧ s.run.now = o.warmup ∧
        ∃ smp ∈ s.samples, smp.claim = ⟨0, off 0⟩ := by
    simp [run, timedStep, timedInit, step, init, awake, release, measured, observe, hconns, hfirst, hdue]
  obtain ⟨s, hs, hspec⟩ := hrun
  exact ⟨s, ⟨_, hs⟩, hspec⟩

end Pace

end Proofload.Runner
