import Proofload.Domain
import Mathlib.Data.List.Induction
import Mathlib.Data.List.Sort
import Mathlib.Tactic.Ring

/-!
# The fault plan (`core/nemesis/scheduler.go`, `rand.go`, `core/cli/faults.go`)

`Scheduler.plan` unrolls every fault spec over the window, picks a node for each occurrence and sorts
the inject and heal actions by their offset. The window is the deadline of the context or, without one,
the end of the last spec; `NemesisRun.begin` starts the scheduler without a deadline.

* `unrollLoop_eq_none` : the unrolling loop has ended after `2^64` rounds or never does;
* `mem_unroll` : the offsets the loop yields, also when an addition overflows;
* `mem_plan_inject` : the injections of a plan;
* `repeats_planned_iff` : how long a repeating fault repeats.
-/

namespace Proofload.Nemesis
open Lib

set_option autoImplicit false

/-! ## The pseudo-random generator -/

/-- SplitMix64. -/
structure PRNG where
  state : UInt64

def newPRNG (seed : I64) : PRNG := ⟨UInt64.ofInt seed.val⟩

def PRNG.next (p : PRNG) : UInt64 × PRNG :=
  let state := p.state + 0x9E3779B97F4A7C15
  let z := (state ^^^ (state >>> 30)) * 0xBF58476D1CE4E5B9
  let z := (z ^^^ (z >>> 27)) * 0x94D049BB133111EB
  (z ^^^ (z >>> 31), ⟨state⟩)

def PRNG.intn (p : PRNG) (n : Nat) : Nat × PRNG :=
  if n = 0 then (0, p) else (p.next.1.toNat % n, p.next.2)

theorem PRNG.intn_lt (p : PRNG) {n : Nat} (h : 0 < n) : (p.intn n).1 < n := by
  unfold PRNG.intn
  rw [if_neg h.ne']
  exact Nat.mod_lt _ h

/-! ## The plan -/

structure Scheduler where
  nodes : List Node
  seed : I64

/-- A planned inject or heal. `idx` is ghost: the spec the action comes from, which the source keeps on
the occurrence only. -/
structure Action where
  at' : I64
  inject : Bool
  ft : String
  node : Node
  params : List (String × Param)
  idx : Nat
deriving DecidableEq

/-- One occurrence of the spec at index `idx`. -/
structure Occ where
  at' : I64
  idx : Nat
  spec : FaultSpec

/-- The window relative to the start: the time to the deadline, or the last end of a spec. -/
def window (deadline : Option I64) (specs : List FaultSpec) : I64 :=
  match deadline with
  | some d => if 0 < d then d else 0
  | none => specs.foldl (fun last sp => if last < sp.at' + sp.duration then sp.at' + sp.duration else last) 0

/-- The unrolling loop from offset `at`, `none` when the rounds are used up. -/
def unrollLoop (window rep : I64) : Nat → I64 → Option (List I64)
  | 0, _ => none
  | rounds + 1, at' =>
      if 0 < window ∧ window ≤ at' then some []
      else if rep ≤ 0 ∨ window ≤ 0 then some [at']
      else (unrollLoop window rep rounds (at' + rep)).map (at' :: ·)

/-- The offsets of a spec's occurrences; `none` when the loop never ends, which takes an overflow of
`at += sp.Repeat` (`unrollLoop_eq_none`). -/
def unroll (window : I64) (sp : FaultSpec) : Option (List I64) :=
  unrollLoop window sp.repeat' (2 ^ 64) sp.at'

/-- The occurrences of all specs, in the order of the two nested loops. -/
def occurrences (window : I64) : Nat → List FaultSpec → Option (List Occ)
  | _, [] => some []
  | i, sp :: specs => do
      let offsets ← unroll window sp
      let occs ← occurrences window (i + 1) specs
      return offsets.map (fun t => { at' := t, idx := i, spec := sp }) ++ occs

/-- The order of the occurrences: by offset, then by the index of the spec. -/
def Occ.notAfter (o o' : Occ) : Prop := o.at' < o'.at' ∨ (o.at' = o'.at' ∧ o.idx ≤ o'.idx)

instance : DecidableRel Occ.notAfter := fun o o' =>
  inferInstanceAs (Decidable (o.at' < o'.at' ∨ (o.at' = o'.at' ∧ o.idx ≤ o'.idx)))

/-- The node that is known by its id only. -/
def bareNode (id : String) : Node :=
  { id := id, client := "", control := { method := .none, ref := "", nspace := "" } }

def Scheduler.pick (s : Scheduler) (f : Fault) (rng : PRNG) : Node × PRNG :=
  if f.target ≠ "" then
    (((s.nodes.find? fun n => n.id == f.target).getD (bareNode f.target)), rng)
  else if h : s.nodes = [] then (bareNode "", rng)
  else (s.nodes.get ⟨(rng.intn s.nodes.length).1, rng.intn_lt (List.length_pos_iff.mpr h)⟩,
    (rng.intn s.nodes.length).2)

/-- The actions of the sorted occurrences: the injection and, for a positive duration, the heal. -/
def Scheduler.schedule (s : Scheduler) : List Occ → PRNG → List Action
  | [], _ => []
  | o :: occs, rng =>
      let (node, rng) := s.pick o.spec.fault rng
      { at' := o.at', inject := true, ft := o.spec.fault.type, node := node, params := o.spec.fault.params,
        idx := o.idx } ::
        (if 0 < o.spec.duration then
          [{ at' := o.at' + o.spec.duration, inject := false, ft := "", node := node, params := [], idx := o.idx }]
        else []) ++ s.schedule occs rng

/-- The time-ordered actions; both sorts are stable. -/
def Scheduler.plan (s : Scheduler) (specs : List FaultSpec) (window : I64) : Option (List Action) := do
  let occs ← occurrences window 0 specs
  let acts := s.schedule (occs.insertionSort Occ.notAfter) (newPRNG s.seed)
  return acts.insertionSort fun a b => a.at' ≤ b.at'

/-! ## The fault runner of the CLI -/

/-- A call of `Scheduler.Run`: the scheduler, the deadline of its context and the specs. -/
structure RunCall where
  sched : Scheduler
  deadline : Option I64
  specs : List FaultSpec

def RunCall.plan (c : RunCall) : Option (List Action) := c.sched.plan c.specs (window c.deadline c.specs)

/-- The fault runner of one run; `sched` is absent when no schedule was configured. -/
structure NemesisRun where
  sched : Option Scheduler
  specs : List FaultSpec
  started : Bool

/-- `begin` runs the scheduler under a context that has a cancel function and no deadline. -/
def NemesisRun.begin (n : NemesisRun) : NemesisRun × Option RunCall :=
  match n.sched with
  | none => (n, none)
  | some s =>
      if n.started then (n, none)
      else ({ n with started := true }, some { sched := s, deadline := none, specs := n.specs })

/-! ## The unrolling loop -/

/-- The loop breaks at offset `at`, before or after it records the occurrence. -/
def Breaks (window rep at' : I64) : Prop := (0 < window ∧ window ≤ at') ∨ rep ≤ 0 ∨ window ≤ 0

theorem ofInt_next (at' rep : I64) (j : Nat) :
    I64.ofInt ((at' + rep).val + j * rep.val) = I64.ofInt (at'.val + (j + 1 : Nat) * rep.val) := by
  have h : I64.ofInt (at'.val + rep.val) = at' + rep := rfl
  have hstep := I64.ofInt_ofInt_add (at'.val + rep.val) (j * rep.val)
  rw [← h, hstep]
  congr 1
  push_cast
  ring

theorem unrollLoop_eq_none_iff (window rep : I64) (rounds : Nat) (at' : I64) :
    unrollLoop window rep rounds at' = none ↔
      ∀ j : Nat, j < rounds → ¬ Breaks window rep (I64.ofInt (at'.val + j * rep.val)) := by
  induction rounds generalizing at' with
  | zero => simp [unrollLoop]
  | succ rounds ih =>
      have hfirst : I64.ofInt (at'.val + (0 : Nat) * rep.val) = at' := by simp [I64.ofInt_self]
      rw [Nat.forall_lt_succ_left, hfirst]
      simp only [← ofInt_next]
      rw [← ih]
      simp only [unrollLoop, Breaks]
      split_ifs with hend hone
      · simp [hend]
      · simp [hone]
      · simp [hend, hone]

/-- After `2^64` rounds the offsets come round again: a loop that has not ended by then never ends. -/
theorem unrollLoop_eq_none {window rep at' : I64} (h : unrollLoop window rep (2 ^ 64) at' = none) (rounds : Nat) :
    unrollLoop window rep rounds at' = none := by
  rw [unrollLoop_eq_none_iff] at h ⊢
  intro j _
  have hturn : I64.ofInt (at'.val + j * rep.val) = I64.ofInt (at'.val + (j % 2 ^ 64 : Nat) * rep.val) := by
    rw [← I64.ofInt_add_turns (at'.val + (j % 2 ^ 64 : Nat) * rep.val) ((j / 2 ^ 64 : Nat) * rep.val)]
    have hj : (j : Int) = (j % 2 ^ 64 : Nat) + 2 ^ 64 * (j / 2 ^ 64 : Nat) := by omega
    congr 1
    calc at'.val + j * rep.val
        = at'.val + ((j % 2 ^ 64 : Nat) + 2 ^ 64 * (j / 2 ^ 64 : Nat)) * rep.val := by rw [← hj]
      _ = at'.val + (j % 2 ^ 64 : Nat) * rep.val + 2 ^ 64 * ((j / 2 ^ 64 : Nat) * rep.val) := by ring
  rw [hturn]
  exact h _ (Nat.mod_lt _ (by decide))

/-- What a finished loop over a positive window with a positive repeat has recorded. -/
theorem unrollLoop_offsets {window rep : I64} (hw : 0 < window) (hr : 0 < rep) {rounds : Nat} {at' : I64}
    {l : List I64} (h : unrollLoop window rep rounds at' = some l) :
    ∃ n : Nat, l = (List.range n).map (fun j : Nat => I64.ofInt (at'.val + j * rep.val)) ∧
      (∀ t ∈ l, t < window) ∧ window ≤ I64.ofInt (at'.val + n * rep.val) := by
  induction rounds generalizing at' l with
  | zero => cases h
  | succ rounds ih =>
      rw [I64.lt_def, I64.zero_val] at hw hr
      have hgo : ¬ (rep ≤ 0 ∨ window ≤ 0) := by
        simp only [I64.le_def, I64.zero_val]
        omega
      have hfirst : I64.ofInt (at'.val + (0 : Nat) * rep.val) = at' := by simp [I64.ofInt_self]
      simp only [unrollLoop, if_neg hgo] at h
      split_ifs at h with hend
      · obtain rfl := Option.some.inj h
        exact ⟨0, rfl, by simp, by rw [hfirst]; exact hend.2⟩
      · obtain ⟨l', hl', rfl⟩ := Option.map_eq_some_iff.mp h
        obtain ⟨n, rfl, hlt, hn⟩ := ih hl'
        refine ⟨n + 1, ?_, ?_, ?_⟩
        · simp only [ofInt_next]
          rw [List.range_succ_eq_map, List.map_cons, hfirst, List.map_map]
          rfl
        · intro t ht
          rcases List.mem_cons.mp ht with rfl | ht
          · simp only [I64.lt_def, I64.le_def, I64.zero_val] at hend ⊢
            omega
          · exact hlt t ht
        · rw [← ofInt_next]
          exact hn

/-- **The occurrences of a repeating spec.** Over a positive window they are the offsets before its end; an
overflowing addition may add earlier offsets, never a later one. -/
theorem mem_unroll {window : I64} {sp : FaultSpec} (hr : 0 < sp.repeat') {l : List I64} (h : unroll window sp = some l)
    (k : Nat) : (∃ t ∈ l, t.val = sp.at'.val + k * sp.repeat'.val) ↔
      if 0 < window then sp.at'.val + k * sp.repeat'.val < window.val else k = 0 := by
  have hr' : 0 < sp.repeat'.val := hr
  split_ifs with hw
  · obtain ⟨n, rfl, hlt, hn⟩ := unrollLoop_offsets hw hr h
    constructor
    · rintro ⟨t, ht, hval⟩
      rw [← hval]
      exact hlt t ht
    · intro hk
      have hge : sp.at'.val ≤ sp.at'.val + k * sp.repeat'.val := by
        have : 0 ≤ (k : Int) * sp.repeat'.val := by positivity
        omega
      have hval : (I64.ofInt (sp.at'.val + k * sp.repeat'.val)).val = sp.at'.val + k * sp.repeat'.val :=
        I64.ofInt_val (by have := sp.at'.ge; omega) (by have := window.lt; omega)
      have hkn : k < n := by
        by_contra hle
        have hmul : (n : Int) * sp.repeat'.val ≤ k * sp.repeat'.val :=
          Int.mul_le_mul_of_nonneg_right (by omega) hr'.le
        have hnonneg : 0 ≤ (n : Int) * sp.repeat'.val := by positivity
        rw [I64.le_def, I64.ofInt_val (by have := sp.at'.ge; omega) (by have := window.lt; omega)] at hn
        omega
      exact ⟨_, List.mem_map.mpr ⟨k, List.mem_range.mpr hkn, rfl⟩, hval⟩
  · have hl : l = [sp.at'] := by
      rw [unroll, show 2 ^ 64 = (2 ^ 64 - 1) + 1 from rfl, unrollLoop, if_neg (by tauto), if_pos] at h
      · exact (Option.some.inj h).symm
      · right
        simp only [I64.lt_def, I64.le_def] at hw ⊢
        omega
    subst hl
    simp only [List.mem_singleton, exists_eq_left]
    constructor
    · intro h
      have : (k : Int) * sp.repeat'.val = 0 := by omega
      rcases Int.mul_eq_zero.mp this with h | h <;> omega
    · rintro rfl
      simp

/-- A progression with a positive difference meets the first interval of that length past a bound. -/
theorem exists_first_past {a w r : Int} (hr : 0 < r) (haw : a < w) :
    ∃ j : Nat, w ≤ a + j * r ∧ a + j * r < w + r := by
  have hdiv := Int.mul_ediv_add_emod (w - a - 1) r
  have hmod := Int.emod_nonneg (w - a - 1) hr.ne'
  have hlt := Int.emod_lt_of_pos (w - a - 1) hr
  have hnonneg : 0 ≤ (w - a - 1) / r := Int.ediv_nonneg (by omega) hr.le
  refine ⟨((w - a - 1) / r + 1).toNat, ?_⟩
  rw [Int.toNat_of_nonneg (by omega), Int.add_mul, Int.one_mul, Int.mul_comm _ r]
  omega

/-- The loop ends exactly if its offsets come to the end of the window, perhaps after an overflow. -/
theorem unroll_isSome_iff (window : I64) (sp : FaultSpec) :
    (∃ l, unroll window sp = some l) ↔
      (0 < window → 0 < sp.repeat' → ∃ k : Nat, window ≤ I64.ofInt (sp.at'.val + k * sp.repeat'.val)) := by
  rw [← Option.ne_none_iff_exists', unroll]
  constructor
  · intro hends hw hrep
    by_contra hnever
    push Not at hnever
    apply hends
    rw [unrollLoop_eq_none_iff]
    rintro j - (⟨-, hpast⟩ | hone)
    · exact hnever j hpast
    · simp only [I64.lt_def, I64.le_def] at hw hrep hone
      omega
  · intro hreach hnone
    have hnever : ∀ j : Nat, ¬ Breaks window sp.repeat' (I64.ofInt (sp.at'.val + j * sp.repeat'.val)) := fun j =>
      (unrollLoop_eq_none_iff _ _ _ _).mp (unrollLoop_eq_none hnone (j + 1)) j (Nat.lt_succ_self j)
    have hgo := hnever 0
    simp only [Breaks, I64.lt_def, I64.le_def, I64.zero_val] at hgo
    obtain ⟨k, hk⟩ := hreach (by rw [I64.lt_def, I64.zero_val]; omega) (by rw [I64.lt_def, I64.zero_val]; omega)
    exact hnever k (Or.inl ⟨by rw [I64.lt_def, I64.zero_val]; omega, hk⟩)

theorem unroll_isSome {window : I64} {sp : FaultSpec}
    (hnext : ∀ k : Nat, sp.at'.val + k * sp.repeat'.val < window.val → sp.at'.val + (k + 1) * sp.repeat'.val < 2 ^ 63) :
    ∃ l, unroll window sp = some l := by
  rw [unroll_isSome_iff]
  intro hw hrep
  rw [I64.lt_def, I64.zero_val] at hw hrep
  have hat := sp.at'.ge
  by_cases hpast : window.val ≤ sp.at'.val
  · exact ⟨0, by simpa [I64.ofInt_self, I64.le_def] using hpast⟩
  obtain ⟨j, hle, hfirst⟩ := exists_first_past (a := sp.at'.val) (w := window.val) hrep (by omega)
  have hfits : sp.at'.val + j * sp.repeat'.val < 2 ^ 63 := by
    cases j with
    | zero => simpa using sp.at'.lt
    | succ j =>
        push_cast at hfirst ⊢
        apply hnext j
        rw [Int.add_mul] at hfirst
        omega
  refine ⟨j, ?_⟩
  rw [I64.le_def, I64.ofInt_val (by omega) hfits]
  exact hle

/-! ## The plan -/

theorem mem_occurrences {window : I64} {i : Nat} {specs : List FaultSpec} {occs : List Occ}
    (h : occurrences window i specs = some occs) (o : Occ) :
    o ∈ occs ↔ ∃ n l, specs[n]? = some o.spec ∧ unroll window o.spec = some l ∧ o.at' ∈ l ∧ o.idx = i + n := by
  induction specs generalizing i occs with
  | nil =>
      obtain rfl := Option.some.inj h
      simp
  | cons sp specs ih =>
      simp only [occurrences, Option.bind_eq_bind, Option.bind_eq_some_iff] at h
      obtain ⟨offsets, hoffsets, rest, hrest, hoccs⟩ := h
      obtain rfl := Option.some.inj hoccs
      rw [List.mem_append, ih hrest, List.mem_map]
      constructor
      · rintro (⟨t, ht, rfl⟩ | ⟨n, l, hn, hl, ht, hidx⟩)
        · exact ⟨0, offsets, rfl, hoffsets, ht, rfl⟩
        · exact ⟨n + 1, l, hn, hl, ht, by omega⟩
      · rintro ⟨n, l, hn, hl, ht, hidx⟩
        cases n with
        | zero =>
            obtain rfl : sp = o.spec := by simpa using hn
            obtain rfl : offsets = l := Option.some.inj (hoffsets.symm.trans hl)
            exact Or.inl ⟨o.at', ht, by cases o; simp_all⟩
        | succ n => exact Or.inr ⟨n, l, by simpa using hn, hl, ht, by omega⟩

theorem occurrences_isSome_iff (window : I64) (i : Nat) (specs : List FaultSpec) :
    (∃ occs, occurrences window i specs = some occs) ↔ ∀ sp ∈ specs, ∃ l, unroll window sp = some l := by
  induction specs generalizing i with
  | nil => simp [occurrences]
  | cons sp specs ih =>
      rw [List.forall_mem_cons, ← ih (i + 1)]
      constructor
      · rintro ⟨occs, h⟩
        simp only [occurrences, Option.bind_eq_bind, Option.bind_eq_some_iff] at h
        obtain ⟨l, hl, rest, hrest, -⟩ := h
        exact ⟨⟨l, hl⟩, rest, hrest⟩
      · rintro ⟨⟨l, hl⟩, rest, hrest⟩
        exact ⟨_, by simp only [occurrences, hl, hrest]; rfl⟩

theorem mem_schedule_inject (s : Scheduler) (occs : List Occ) (rng : PRNG) (i : Nat) (t : I64) :
    (∃ a ∈ s.schedule occs rng, a.inject ∧ a.idx = i ∧ a.at' = t) ↔ ∃ o ∈ occs, o.idx = i ∧ o.at' = t := by
  induction occs generalizing rng with
  | nil => simp [Scheduler.schedule]
  | cons o occs ih =>
      rw [List.exists_mem_cons_iff, ← ih (s.pick o.spec.fault rng).2]
      simp only [Scheduler.schedule, List.cons_append, List.exists_mem_cons_iff]
      split_ifs <;> simp

/-- **The injections of a plan**: one for every offset the loop over its spec yields. -/
theorem mem_plan_inject {s : Scheduler} {specs : List FaultSpec} {window : I64} {acts : List Action}
    (h : s.plan specs window = some acts) {i : Nat} {sp : FaultSpec} (hi : specs[i]? = some sp) :
    ∃ l, unroll window sp = some l ∧ ∀ t, (∃ a ∈ acts, a.inject ∧ a.idx = i ∧ a.at' = t) ↔ t ∈ l := by
  obtain ⟨occs, hoccs, hacts⟩ := Option.bind_eq_some_iff.mp h
  obtain rfl := Option.some.inj hacts
  obtain ⟨l, hl⟩ := (occurrences_isSome_iff window 0 specs).mp ⟨occs, hoccs⟩ sp (List.mem_of_getElem? hi)
  refine ⟨l, hl, fun t => ?_⟩
  simp only [List.mem_insertionSort, mem_schedule_inject, mem_occurrences hoccs]
  constructor
  · rintro ⟨o, ⟨n, l', hn, hl', ht, hidx⟩, rfl, rfl⟩
    rw [Nat.zero_add] at hidx
    rw [hidx, hn] at hi
    obtain rfl := Option.some.inj hi
    rwa [Option.some.inj (hl.symm.trans hl')]
  · intro ht
    exact ⟨{ at' := t, idx := i, spec := sp }, ⟨i, l, hi, hl, ht, (Nat.zero_add i).symm⟩, rfl, rfl⟩

/-- The plan exists exactly if the offsets of every repeating spec come to the end of a positive window. -/
theorem plan_isSome_iff (s : Scheduler) (specs : List FaultSpec) (window : I64) :
    (∃ acts, s.plan specs window = some acts) ↔
      ∀ sp ∈ specs, 0 < window → 0 < sp.repeat' → window.val ≤ I64.highest sp.at' sp.repeat' := by
  have hloop : (∃ acts, s.plan specs window = some acts) ↔ ∃ occs, occurrences window 0 specs = some occs := by
    constructor
    · rintro ⟨acts, h⟩
      obtain ⟨occs, hoccs, -⟩ := Option.bind_eq_some_iff.mp h
      exact ⟨occs, hoccs⟩
    · rintro ⟨occs, hoccs⟩
      exact ⟨_, by simp only [Scheduler.plan, hoccs]; rfl⟩
  rw [hloop, occurrences_isSome_iff]
  refine forall_congr' fun sp => imp_congr_right fun _ => ?_
  rw [unroll_isSome_iff]
  refine imp_congr_right fun _ => imp_congr_right fun hrep => ?_
  rw [← I64.exists_le_ofInt_iff hrep]
  rfl

/-! ## The window without a deadline -/

theorem window_concat (specs : List FaultSpec) (sp : FaultSpec) :
    window none (specs ++ [sp]) =
      if window none specs < sp.at' + sp.duration then sp.at' + sp.duration else window none specs := by
  simp only [window, List.foldl_append]
  rfl

/-- Without a deadline the window is positive and reaches past `x` exactly if some spec ends that late. -/
theorem lt_window_iff (specs : List FaultSpec) (x : Int) :
    (0 < window none specs ∧ x < (window none specs).val) ↔
      ∃ sp ∈ specs, 0 < sp.at' + sp.duration ∧ x < (sp.at' + sp.duration).val := by
  induction specs using List.reverseRecOn with
  | nil => simp [window, I64.lt_def]
  | append_singleton specs sp ih =>
      simp only [List.mem_append, List.mem_singleton, or_and_right, exists_or, exists_eq_left]
      rw [← ih, window_concat]
      simp only [I64.lt_def, I64.zero_val]
      split_ifs <;> omega

theorem window_nonpos_iff (specs : List FaultSpec) :
    ¬ 0 < window none specs ↔ ∀ sp ∈ specs, sp.at' + sp.duration ≤ 0 := by
  have hpos := lt_window_iff specs 0
  simp only [I64.lt_def, I64.le_def, I64.zero_val, and_self] at hpos ⊢
  rw [hpos]
  push Not
  rfl

/-! ## Repeating faults -/

theorem window_le_iff (specs : List FaultSpec) (bound : Int) :
    (0 < window none specs → (window none specs).val ≤ bound) ↔
      ∀ sp ∈ specs, 0 < sp.at' + sp.duration → (sp.at' + sp.duration).val ≤ bound := by
  have hpast := not_congr (lt_window_iff specs bound)
  push Not at hpast
  exact hpast

/-- **How long a repeating fault repeats.** The plan that `begin` starts is computed without a deadline. It exists and
has all offsets of the spec before `D` exactly if the unrolling loops end and each of the offsets is before the positive
end of the first occurrence of some spec, or there is no positive end and only the first occurrence is before `D`. -/
theorem repeats_planned_iff {n : NemesisRun} {s : Scheduler} (hs : n.sched = some s) (hfresh : n.started = false)
    {i : Nat} {sp : FaultSpec} (hi : n.specs[i]? = some sp) (hrep : 0 < sp.repeat') (D : Int) :
    ∃ call, n.begin.2 = some call ∧
      ((∃ acts, call.plan = some acts ∧ ∀ k : Nat, sp.at'.val + k * sp.repeat'.val < D →
          ∃ a ∈ acts, a.inject ∧ a.idx = i ∧ a.at'.val = sp.at'.val + k * sp.repeat'.val) ↔
        (∀ sp₂ ∈ n.specs, 0 < sp₂.repeat' → ∀ sp₁ ∈ n.specs, 0 < sp₁.at' + sp₁.duration →
          (sp₁.at' + sp₁.duration).val ≤ I64.highest sp₂.at' sp₂.repeat') ∧
        ∀ k : Nat, sp.at'.val + k * sp.repeat'.val < D →
          (∃ sp' ∈ n.specs, 0 < sp'.at' + sp'.duration ∧
            sp.at'.val + k * sp.repeat'.val < (sp'.at' + sp'.duration).val) ∨
          (k = 0 ∧ ∀ sp' ∈ n.specs, sp'.at' + sp'.duration ≤ 0)) := by
  refine ⟨{ sched := s, deadline := none, specs := n.specs }, by simp [NemesisRun.begin, hs, hfresh], ?_⟩
  have hexists : (∃ acts, s.plan n.specs (window none n.specs) = some acts) ↔
      ∀ sp₂ ∈ n.specs, 0 < sp₂.repeat' → ∀ sp₁ ∈ n.specs, 0 < sp₁.at' + sp₁.duration →
        (sp₁.at' + sp₁.duration).val ≤ I64.highest sp₂.at' sp₂.repeat' := by
    rw [plan_isSome_iff]
    refine forall_congr' fun sp₂ => imp_congr_right fun _ => ?_
    rw [← window_le_iff]
    tauto
  have hplanned : ∀ acts, s.plan n.specs (window none n.specs) = some acts → ∀ k : Nat,
      ((∃ a ∈ acts, a.inject ∧ a.idx = i ∧ a.at'.val = sp.at'.val + k * sp.repeat'.val) ↔
        (∃ sp' ∈ n.specs, 0 < sp'.at' + sp'.duration ∧
          sp.at'.val + k * sp.repeat'.val < (sp'.at' + sp'.duration).val) ∨
        (k = 0 ∧ ∀ sp' ∈ n.specs, sp'.at' + sp'.duration ≤ 0)) := by
    intro acts hacts k
    obtain ⟨l, hl, hmem⟩ := mem_plan_inject hacts hi
    have hoffset : (∃ a ∈ acts, a.inject ∧ a.idx = i ∧ a.at'.val = sp.at'.val + k * sp.repeat'.val) ↔
        ∃ t ∈ l, t.val = sp.at'.val + k * sp.repeat'.val := by
      constructor
      · rintro ⟨a, ha, hinj, hidx, hat⟩
        exact ⟨a.at', (hmem a.at').mp ⟨a, ha, hinj, hidx, rfl⟩, hat⟩
      · rintro ⟨t, ht, hat⟩
        obtain ⟨a, ha, hinj, hidx, rfl⟩ := (hmem t).mpr ht
        exact ⟨a, ha, hinj, hidx, hat⟩
    rw [hoffset, mem_unroll hrep hl, ← lt_window_iff, ← window_nonpos_iff]
    split_ifs with hw
    · simp [hw]
    · simp [hw]
  rw [← hexists]
  constructor
  · rintro ⟨acts, hacts, hall⟩
    exact ⟨⟨acts, hacts⟩, fun k hk => (hplanned acts hacts k).mp (hall k hk)⟩
  · rintro ⟨⟨acts, hacts⟩, hall⟩
    exact ⟨acts, hacts, fun k hk => (hplanned acts hacts k).mpr (hall k hk)⟩

/-- Every 10s from 5s on for 2s, until the end of the run. -/
def everyTenSeconds : FaultSpec :=
  { fault := { type := "kill-node", target := "n1", params := [] }
    at' := 5000000000, duration := 2000000000, repeat' := 10000000000 }

/-- Once at 58s for 5s. -/
def nearTheEnd : FaultSpec :=
  { fault := { type := "pause-node", target := "", params := [] }
    at' := 58000000000, duration := 5000000000, repeat' := 0 }

/-- The runner of a one-node cluster, before `begin`. -/
def oneNode (specs : List FaultSpec) : NemesisRun :=
  { sched := some { nodes := [bareNode "n1"], seed := 7 }, specs := specs, started := false }

/-- One injection at 5s and its heal at 7s. -/
def killOnce : List Action :=
  [{ at' := 5000000000, inject := true, ft := "kill-node", node := bareNode "n1", params := [], idx := 0 },
    { at' := 7000000000, inject := false, ft := "", node := bareNode "n1", params := [], idx := 0 }]

/-- A fault that repeats every 10s is injected once in a run of 60s. -/
theorem repeat_after_last_end_dropped :
    (oneNode [everyTenSeconds]).begin.2.bind RunCall.plan = some killOnce ∧
      ¬ ∀ k : Nat, everyTenSeconds.at'.val + k * everyTenSeconds.repeat'.val < 60000000000 →
        ∃ a ∈ killOnce, a.inject ∧ a.idx = 0 ∧
          a.at'.val = everyTenSeconds.at'.val + k * everyTenSeconds.repeat'.val := by
  refine ⟨by decide +kernel, fun h => ?_⟩
  exact absurd (h 1) (by decide +kernel)

/-- With a second fault that ends after 60s the first one repeats for the whole run. -/
theorem repeats_planned_iff_until_later_end :
    ∃ call acts, (oneNode [everyTenSeconds, nearTheEnd]).begin.2 = some call ∧ call.plan = some acts ∧
      ∀ k : Nat, everyTenSeconds.at'.val + k * everyTenSeconds.repeat'.val < 60000000000 →
        ∃ a ∈ acts, a.inject ∧ a.idx = 0 ∧
          a.at'.val = everyTenSeconds.at'.val + k * everyTenSeconds.repeat'.val := by
  have hstart : (oneNode [everyTenSeconds, nearTheEnd]).sched = some { nodes := [bareNode "n1"], seed := 7 } := rfl
  have hspec : (oneNode [everyTenSeconds, nearTheEnd]).specs[0]? = some everyTenSeconds := rfl
  obtain ⟨call, hcall, hiff⟩ := repeats_planned_iff hstart rfl hspec (by decide +kernel) 60000000000
  obtain ⟨acts, hacts, hall⟩ := hiff.mpr ⟨by decide +kernel, fun k hk => Or.inl
    ⟨nearTheEnd, by simp [oneNode], by decide +kernel, hk.trans (by decide +kernel)⟩⟩
  exact ⟨call, acts, hcall, hacts, hall⟩

end Proofload.Nemesis
