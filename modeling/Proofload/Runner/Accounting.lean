import Proofload.Domain
import Proofload.Lib.Run
import Proofload.Lib.Atomics
import Mathlib.Algebra.Order.BigOperators.Group.List
import Mathlib.Data.Rat.Floor
import Mathlib.Order.Bounds.Basic

/-!
# The accumulator of a run (`core/runner/worker.go`)

`observe` hands an operation to the worker's sink and observer and then updates seven accumulators that all workers
share, each by an atomic step of its own; the extremes of the intended times are kept by a load and a compare-and-swap.
The steps of the workers interleave in any way, and the run context ends at any point.

The operations and their times are arbitrary. An operation is complete when its worker has seen behind `Execute` that
the run context is alive; a worker that is overtaken by the end of the context there discards it. `ended` is the history
of these checks; nothing in the runner reads it.

* `observe` : the atomic steps of one call;
* `Kept` : what every step keeps: the workers have submitted what their operations ask for, and nothing else;
* `accounting_exact` : the report of a run whose workers have all returned.
-/

namespace Proofload.Runner.Accumulator
open Lib

set_option autoImplicit false

/-! ## The code -/

/-- An operation whose `Execute` has returned. The times are readings of the monotonic clock, `unixNano` is the wall
clock reading of the intended time. -/
structure Completion where
  op : Operation
  res : OpResult
  intended : Int
  dispatch : Int
  done : Int
  unixNano : I64
deriving DecidableEq

structure Options where
  connections : Nat
  warmupEnd : Int
  duration : Int
  latenessThreshold : Int
  /-- the shards with an observer -/
  observer : Nat → Bool

/-- The counters of the accumulator. -/
inductive Counter where
  | total
  | errors
  | latenessSum
  | serviceSum
  | records
deriving DecidableEq

/-- Its extremes. -/
inductive Extreme where
  | minIntended
  | maxIntended
deriving DecidableEq

/-- A call of a sink or of an observer. -/
inductive Call where
  | record (shard : Nat) (op : OpType) (latency : Int) (isErr : Bool)
  | observe (shard : Nat) (op : Operation) (res : OpResult) (invoke complete : Int)
deriving DecidableEq

def Call.isRecord : Call → Bool
  | .record .. => true
  | .observe .. => false

/-- `Time.Sub`: a difference out of range is the nearest duration. -/
def sub (t u : Int) : Int := max (-2 ^ 63) (min (2 ^ 63 - 1) (t - u))

/-- The loops of `atomicMin` and `atomicMax` leave a value that is as good. -/
def ranking : Ranking Extreme where
  keeps
    | .minIntended, old, v => old ≤ v
    | .maxIntended, old, v => v ≤ old
  refl m a := by cases m <;> simp
  trans {m a b c} := by cases m <;> simp <;> omega
  total {m a b} := by cases m <;> simp <;> omega

/-- The atomic steps of `observe`; none for an operation of the warmup. -/
def observe (o : Options) (shard : Nat) (x : Completion) : List (Instr Counter Extreme Call) :=
  if x.dispatch < o.warmupEnd then []
  else
    let latency := sub x.done x.intended
    let isErr := x.res.err.isSome
    let rows := if x.res.rows < 1 then 1 else x.res.rows
    let lateness := if sub x.dispatch x.intended < 0 then 0 else sub x.dispatch x.intended
    let svc := sub x.done x.dispatch
    List.flatten
      [[.call (.record shard x.res.type latency isErr)],
        if o.observer shard then [.call (.observe shard x.op x.res x.dispatch x.done)] else [],
        [.add .total 1],
        if isErr then [.add .errors 1] else [.add .records rows],
        [.add .latenessSum lateness],
        if 0 < svc then [.add .serviceSum svc] else [],
        [.offer .minIntended x.unixNano.val, .offer .maxIntended x.unixNano.val]]

/-- Where a worker stands. -/
inductive Phase where
  | looping
  | returned (x : Completion)
  | observing
  | stopped
deriving DecidableEq

/-- An operation at the check of the context behind `Execute`. -/
structure Ended where
  shard : Nat
  x : Completion
  alive : Bool
deriving DecidableEq

structure State where
  ctxDone : Bool
  phase : Nat → Phase
  pool : Pool Counter Extreme Call
  ended : List Ended

inductive Action where
  | endCtx
  | ret (c : Nat) (x : Completion)
  | check (c : Nat)
  | micro (c : Nat) (a : Micro)
  | loop (c : Nat)
  | stop (c : Nat)

/-- The accumulator of a new run. -/
def newAccumulator : Memory Counter Extreme Call where
  sums _ := 0
  cells
    | .minIntended => 2 ^ 63 - 1
    | .maxIntended => -2 ^ 63
  calls := []

def init (o : Options) : State :=
  { ctxDone := false, phase := fun c => if c < o.connections then .looping else .stopped,
    pool := .start newAccumulator, ended := [] }

/-- One step of a worker, or the end of the context. -/
def step (o : Options) (s : State) : Action → Option State
  | .endCtx => some { s with ctxDone := true }
  | .ret c x =>
      if s.phase c = .looping then some { s with phase := Function.update s.phase c (.returned x) } else none
  | .check c =>
      match s.phase c with
      | .returned x =>
          -- interrupted in flight: the operation is discarded
          if s.ctxDone then some { s with
            phase := Function.update s.phase c .stopped
            ended := s.ended ++ [⟨c, x, false⟩] }
          else some { s with
            phase := Function.update s.phase c .observing
            pool := s.pool.submit c (observe o c x)
            ended := s.ended ++ [⟨c, x, true⟩] }
      | _ => none
  | .micro c a =>
      if s.phase c = .observing then (s.pool.micro ranking c a).map fun p => { s with pool := p } else none
  | .loop c =>
      if s.phase c = .observing ∧ (s.pool.threads c).todo = [] then
        some { s with phase := Function.update s.phase c .looping }
      else none
  | .stop c =>
      -- `ctx.Err()` at the head of the loop, or `sleepUntil`
      if s.phase c = .looping ∧ s.ctxDone = true then
        some { s with phase := Function.update s.phase c .stopped }
      else none

/-- The summary of the measure phase. -/
structure RunReport where
  total : Int
  errors : Int
  records : Int
  clientBound : Bool
  meanLateness : Int
  meanService : Int
  duration : Int
deriving DecidableEq

/-- The mean gap between intended times, from the extremes. -/
def interArrival (lo hi total : Int) : Int :=
  if total < 2 then 0
  else
    let span := wrap64 (hi - lo)
    if span ≤ 0 then 0 else span.tdiv (total - 1)

def meanInterArrival (a : Memory Counter Extreme Call) (total : Int) : Int :=
  interArrival (a.cells .minIntended) (a.cells .maxIntended) total

/-- The time since the end of the warmup, clamped to the measure phase. -/
def measureElapsed (d limit : Int) : Int := if d < 0 then 0 else if limit < d then limit else d

/-- `report`, `since` after the end of the warmup. -/
def report (o : Options) (since : Int) (a : Memory Counter Extreme Call) : RunReport :=
  let total := a.sums .total
  let rep : RunReport :=
    { total, errors := a.sums .errors, records := a.sums .records, clientBound := false, meanLateness := 0,
      meanService := 0, duration := measureElapsed since o.duration }
  if total = 0 then rep
  else
    let meanLateness := (a.sums .latenessSum).tdiv total
    let meanService := (a.sums .serviceSum).tdiv total
    let threshold := if o.latenessThreshold ≤ 0 then meanInterArrival a total else o.latenessThreshold
    let lowErrors := wrap64 (rep.errors * 20) < total
    { rep with
      meanLateness, meanService,
      clientBound := 0 < threshold ∧ threshold < meanLateness ∧ meanService < meanLateness ∧ lowErrors }

/-! ## What the steps of a call add up to -/

/-- How late an operation was dispatched. -/
def Completion.lateness (x : Completion) : Int := max 0 (sub x.dispatch x.intended)

def Completion.service (x : Completion) : Int := max 0 (sub x.done x.dispatch)

def Completion.isErr (x : Completion) : Bool := x.res.err.isSome

/-- The records that a successful operation touches: at least one. -/
def Completion.rows (x : Completion) : Int := max 1 x.res.rows

/-- What a measured operation adds to a counter. -/
def Completion.weight (x : Completion) : Counter → Int
  | .total => 1
  | .errors => if x.isErr then 1 else 0
  | .latenessSum => x.lateness
  | .serviceSum => x.service
  | .records => if x.isErr then 0 else x.rows

variable {o : Options} {s t : State}

section Observe
variable {shard : Nat} {x : Completion} (hx : o.warmupEnd ≤ x.dispatch)
include hx

theorem observe_eq : observe o shard x = List.flatten
    [[.call (.record shard x.res.type (sub x.done x.intended) x.isErr)],
      if o.observer shard then [.call (.observe shard x.op x.res x.dispatch x.done)] else [],
      [.add .total 1],
      if x.isErr then [.add .errors 1] else [.add .records x.rows],
      [.add .latenessSum x.lateness],
      if 0 < sub x.done x.dispatch then [.add .serviceSum (sub x.done x.dispatch)] else [],
      [.offer .minIntended x.unixNano.val, .offer .maxIntended x.unixNano.val]] := by
  have hrows : (if x.res.rows < 1 then 1 else x.res.rows) = x.rows := by
    unfold Completion.rows
    split <;> omega
  have hlateness : (if sub x.dispatch x.intended < 0 then 0 else sub x.dispatch x.intended) = x.lateness := by
    unfold Completion.lateness
    split <;> omega
  unfold observe
  rw [if_neg (by omega)]
  dsimp only
  rw [hrows, hlateness]
  rfl

theorem amounts_observe (k : Counter) : amounts k (observe o shard x) = x.weight k := by
  have hservice : amounts k (if 0 < sub x.done x.dispatch then
      ([.add .serviceSum (sub x.done x.dispatch)] : List (Instr Counter Extreme Call)) else []) =
      if Counter.serviceSum = k then x.service else 0 := by
    unfold Completion.service
    split <;> simp only [amounts, List.map_cons, List.map_nil, List.sum_cons, List.sum_nil, Instr.amount] <;> split <;>
      omega
  have hobserver : amounts k (if o.observer shard then
      ([.call (.observe shard x.op x.res x.dispatch x.done)] : List (Instr Counter Extreme Call)) else []) = 0 := by
    split <;> rfl
  rw [observe_eq hx]
  simp only [List.flatten_cons, amounts_append, hservice, hobserver]
  unfold Completion.weight
  cases k <;> cases x.isErr <;> simp [amounts, Instr.amount]

theorem offers_observe (m : Extreme) : offers m (observe o shard x) = [x.unixNano.val] := by
  rw [observe_eq hx]
  cases m <;> split_ifs <;> rfl

theorem calls_observe : calls (observe o shard x) =
    .record shard x.res.type (sub x.done x.intended) x.isErr ::
      if o.observer shard then [.observe shard x.op x.res x.dispatch x.done] else [] := by
  rw [observe_eq hx]
  split_ifs <;> rfl

end Observe

/-! ## The invariant -/

/-- The operations dispatched at or after the end of the warmup and completed before the context ended. -/
def counted (o : Options) (s : State) : List Ended :=
  s.ended.filter fun e => e.alive && decide (o.warmupEnd ≤ e.x.dispatch)

/-- What every step keeps. -/
structure Kept (o : Options) (s : State) : Prop where
  accounted : Accounted ranking o.connections newAccumulator s.pool
  idle : ∀ c, s.phase c ≠ .observing → (s.pool.threads c).todo = []
  outside : ∀ c, o.connections ≤ c → s.phase c = .stopped
  submitted : s.pool.submitted = (counted o s).flatMap fun e => observe o e.shard e.x
  shards : ∀ e ∈ s.ended, e.shard < o.connections

theorem kept_init (o : Options) : Kept o (init o) where
  accounted := accounted_start ranking o.connections fun k => rfl
  idle _ _ := rfl
  outside c hc := if_neg (by omega)
  submitted := rfl
  shards e he := by cases he

theorem Kept.lt_connections (h : Kept o s) {c : Nat} (hc : s.phase c ≠ .stopped) : c < o.connections := by
  by_contra hout
  exact hc (h.outside c (by omega))

theorem Kept.move (h : Kept o s) {c : Nat} {ph : Phase} (hc : s.phase c ≠ .stopped)
    (hidle : (s.pool.threads c).todo = []) : Kept o { s with phase := Function.update s.phase c ph } := by
  refine ⟨h.accounted, fun c' hc' => ?_, fun c' hout => ?_, h.submitted, h.shards⟩
  · by_cases heq : c' = c
    · rw [heq]
      exact hidle
    · dsimp only at hc'
      rw [Function.update_of_ne heq] at hc'
      exact h.idle c' hc'
  · have := h.lt_connections hc
    dsimp only
    rw [Function.update_of_ne (by omega)]
    exact h.outside c' hout

theorem Kept.shards_concat (h : Kept o s) {c : Nat} (hc : c < o.connections) (x : Completion) (alive : Bool) :
    ∀ e ∈ s.ended ++ [⟨c, x, alive⟩], e.shard < o.connections := by
  intro e he
  obtain he | he := List.mem_append.mp he
  · exact h.shards e he
  · obtain rfl := List.mem_singleton.mp he
    exact hc

theorem Kept.submit (h : Kept o s) {c : Nat} {x : Completion} (hphase : s.phase c = .returned x) :
    Kept o { s with
      phase := Function.update s.phase c .observing
      pool := s.pool.submit c (observe o c x)
      ended := s.ended ++ [⟨c, x, true⟩] } := by
  have hc := h.lt_connections (c := c) (by rw [hphase]; simp)
  have hidle : (s.pool.threads c).todo = [] := h.idle c (by rw [hphase]; simp)
  refine ⟨h.accounted.submit hc hidle _, fun c' hc' => ?_, fun c' hout => ?_, ?_, h.shards_concat hc x true⟩
  · have heq : c' ≠ c := by
      rintro rfl
      exact hc' (Function.update_self ..)
    dsimp only at hc'
    rw [Function.update_of_ne heq] at hc'
    show (Function.update s.pool.threads c _ c').todo = []
    rw [Function.update_of_ne heq]
    exact h.idle c' hc'
  · dsimp only
    rw [Function.update_of_ne (by omega)]
    exact h.outside c' hout
  · show s.pool.submitted ++ observe o c x = _
    rw [h.submitted]
    unfold counted
    rw [List.filter_append, List.flatMap_append]
    congr 1
    by_cases hx : o.warmupEnd ≤ x.dispatch
    · simp [hx]
    · have hnone : observe o c x = [] := if_pos (by omega)
      simp [hx, hnone]

theorem Kept.micro (h : Kept o s) {c : Nat} {a : Micro} {p : Pool Counter Extreme Call}
    (hphase : s.phase c = .observing) (hmicro : s.pool.micro ranking c a = some p) : Kept o { s with pool := p } := by
  have hc := h.lt_connections (c := c) (by rw [hphase]; simp)
  have haccounted := h.accounted.micro hc hmicro
  obtain ⟨r, -, rfl⟩ := Option.map_eq_some_iff.mp hmicro
  refine ⟨haccounted, fun c' hc' => ?_, h.outside, h.submitted, h.shards⟩
  have heq : c' ≠ c := by
    rintro rfl
    exact hc' hphase
  show (Function.update s.pool.threads c _ c').todo = []
  rw [Function.update_of_ne heq]
  exact h.idle c' hc'

/-- **Every step keeps the accounts.** -/
theorem Kept.step (h : Kept o s) {a : Action} (hstep : step o s a = some t) : Kept o t := by
  cases a with
  | endCtx =>
      obtain rfl := Option.some.inj hstep
      exact ⟨h.accounted, h.idle, h.outside, h.submitted, h.shards⟩
  | ret c x =>
      simp only [Accumulator.step] at hstep
      split at hstep
      · next hphase =>
        obtain rfl := Option.some.inj hstep
        exact h.move (by rw [hphase]; simp) (h.idle c (by rw [hphase]; simp))
      · cases hstep
  | check c =>
      simp only [Accumulator.step] at hstep
      split at hstep
      · next x hphase =>
        have hidle := h.idle c (by rw [hphase]; simp)
        have hc : s.phase c ≠ .stopped := by rw [hphase]; simp
        split at hstep
        · obtain rfl := Option.some.inj hstep
          have hmove : Kept o { s with phase := Function.update s.phase c .stopped } := h.move hc hidle
          refine ⟨hmove.accounted, hmove.idle, hmove.outside, ?_, h.shards_concat (h.lt_connections hc) x false⟩
          rw [h.submitted]
          unfold counted
          rw [List.filter_append]
          simp
        · obtain rfl := Option.some.inj hstep
          exact h.submit hphase
      · cases hstep
  | micro c a =>
      simp only [Accumulator.step] at hstep
      split at hstep
      · next hphase =>
        obtain ⟨p, hmicro, rfl⟩ := Option.map_eq_some_iff.mp hstep
        exact h.micro hphase hmicro
      · cases hstep
  | loop c =>
      simp only [Accumulator.step] at hstep
      split at hstep
      · next hphase =>
        obtain rfl := Option.some.inj hstep
        exact h.move (by rw [hphase.1]; simp) hphase.2
      · cases hstep
  | stop c =>
      simp only [Accumulator.step] at hstep
      split at hstep
      · next hphase =>
        obtain rfl := Option.some.inj hstep
        exact h.move (by rw [hphase.1]; simp) (h.idle c (by rw [hphase.1]; simp))
      · cases hstep

/-! ## The report -/

theorem dispatch_of_counted {e : Ended} (he : e ∈ counted o s) : o.warmupEnd ≤ e.x.dispatch := by
  have := (List.mem_filter.mp he).2
  simp only [Bool.and_eq_true, decide_eq_true_eq] at this
  exact this.2

theorem Kept.amounts_submitted (h : Kept o s) (k : Counter) :
    amounts k s.pool.submitted = ((counted o s).map fun e => e.x.weight k).sum := by
  rw [h.submitted, amounts_flatMap]
  congr 1
  exact List.map_congr_left fun e he => amounts_observe (dispatch_of_counted he) k

theorem Kept.offers_submitted (h : Kept o s) (m : Extreme) :
    offers m s.pool.submitted = (counted o s).map fun e => e.x.unixNano.val := by
  rw [h.submitted, offers_flatMap, List.map_eq_flatMap]
  exact List.flatMap_congr fun e he => offers_observe (dispatch_of_counted he) m

section Done
variable (h : Kept o s) (hdone : ∀ c < o.connections, s.phase c = .stopped)
include h hdone

theorem Kept.idle_of_done : ∀ c < o.connections, (s.pool.threads c).todo = [] :=
  fun c hc => h.idle c (by rw [hdone c hc]; simp)

theorem Kept.sums_of_done {k : Counter} {n : Int} (hn : ((counted o s).map fun e => e.x.weight k).sum = n)
    (hlow : 0 ≤ n) (hfit : n < 2 ^ 63) : s.pool.memory.sums k = n := by
  rw [h.accounted.sums_of_done (h.idle_of_done hdone) k, h.amounts_submitted k, hn]
  show wrap64 (0 + n) = n
  rw [Int.zero_add, wrap64_eq_self (by omega) hfit]

theorem Kept.countP_calls {p : Call → Bool}
    (hp : ∀ e ∈ counted o s, (calls (observe o e.shard e.x)).countP p = 1) :
    s.pool.memory.calls.countP p = (counted o s).length := by
  have hcalls := h.accounted.calls_of_done (h.idle_of_done hdone)
  rw [show (newAccumulator.calls : Multiset Call) = 0 from rfl, zero_add] at hcalls
  have hones : (counted o s).map (List.countP p ∘ fun e => calls (observe o e.shard e.x)) =
      (counted o s).map fun _ => 1 := List.map_congr_left hp
  rw [(Multiset.coe_eq_coe.mp hcalls).countP_eq, h.submitted, calls_flatMap, List.countP_flatMap, hones,
    List.map_const', List.sum_replicate_nat, Nat.mul_one]

theorem Kept.cell_of_done {m : Extreme} {e : Ended} (he : e ∈ counted o s)
    (hbest : ∀ e' ∈ counted o s, ranking.keeps m e.x.unixNano.val e'.x.unixNano.val = true) :
    s.pool.memory.cells m = e.x.unixNano.val := by
  obtain ⟨hsource, -, hcell⟩ := h.accounted.cells_of_done (h.idle_of_done hdone) m
  rw [h.offers_submitted] at hsource hcell
  have hkeeps := hcell _ (List.mem_map.mpr ⟨e, he, rfl⟩)
  have hkept : ranking.keeps m e.x.unixNano.val (s.pool.memory.cells m) = true := by
    obtain hinit | hmem := hsource
    · rw [hinit]
      cases m with
      | minIntended => exact decide_eq_true (Int.le_sub_one_of_lt e.x.unixNano.lt)
      | maxIntended => exact decide_eq_true e.x.unixNano.ge
    · obtain ⟨e', he', hv⟩ := List.mem_map.mp hmem
      rw [← hv]
      exact hbest e' he'
  cases m with
  | minIntended => exact le_antisymm (of_decide_eq_true hkeeps) (of_decide_eq_true hkept)
  | maxIntended => exact le_antisymm (of_decide_eq_true hkept) (of_decide_eq_true hkeeps)

theorem Kept.extremes_of_done {lo hi : Int} (hlo : IsLeast {v | ∃ e ∈ counted o s, e.x.unixNano.val = v} lo)
    (hhi : IsGreatest {v | ∃ e ∈ counted o s, e.x.unixNano.val = v} hi) :
    s.pool.memory.cells .minIntended = lo ∧ s.pool.memory.cells .maxIntended = hi := by
  obtain ⟨⟨e, he, rfl⟩, hleast⟩ := hlo
  obtain ⟨⟨e', he', rfl⟩, hgreatest⟩ := hhi
  constructor
  · apply h.cell_of_done hdone he
    exact fun x hx => decide_eq_true (hleast ⟨x, hx, rfl⟩)
  · apply h.cell_of_done hdone he'
    exact fun x hx => decide_eq_true (hgreatest ⟨x, hx, rfl⟩)

end Done

theorem sum_map_nonneg {l : List Ended} {f : Ended → Int} (hf : ∀ e, 0 ≤ f e) : 0 ≤ (l.map f).sum := by
  refine List.sum_nonneg fun x hx => ?_
  obtain ⟨e, -, rfl⟩ := List.mem_map.mp hx
  exact hf e

/-- The fields of a report; without operations the means are zero, as is a quotient by zero. -/
theorem report_fields (o : Options) (since : Int) (a : Memory Counter Extreme Call) :
    (report o since a).total = a.sums .total ∧ (report o since a).errors = a.sums .errors ∧
    (report o since a).records = a.sums .records ∧
    (report o since a).meanLateness = (a.sums .latenessSum).tdiv (a.sums .total) ∧
    (report o since a).meanService = (a.sums .serviceSum).tdiv (a.sums .total) := by
  unfold report
  dsimp only
  split
  · next hzero =>
    rw [hzero, Int.tdiv_zero, Int.tdiv_zero]
    exact ⟨rfl, rfl, rfl, rfl, rfl⟩
  · exact ⟨rfl, rfl, rfl, rfl, rfl⟩

theorem tdiv_eq_floor {x : Int} (hx : 0 ≤ x) (n : Nat) : x.tdiv n = ⌊(x : ℚ) / (n : ℚ)⌋ := by
  rw [Int.tdiv_eq_ediv_of_nonneg hx, Rat.floor_intCast_div_natCast]

/-- **The accounts of a run are exact under any interleaving.** In a run whose workers have all returned, if the sums
fit: the report counts the operations that were dispatched at or after the end of the warmup and completed before the
context ended, each of which went to the sink and the observer once; errors, records and the means are theirs; and the
inter-arrival estimate comes from their smallest and greatest intended times. -/
theorem accounting_exact (hreach : Reachable (step o) (init o) s)
    (hdone : ∀ c < o.connections, s.phase c = .stopped)
    (htotal : ((counted o s).length : Int) < 2 ^ 63)
    (hrecords : (((counted o s).filter fun e => !e.x.isErr).map fun e => e.x.rows).sum < 2 ^ 63)
    (hlateness : ((counted o s).map fun e => e.x.lateness).sum < 2 ^ 63)
    (hservice : ((counted o s).map fun e => e.x.service).sum < 2 ^ 63) (since : Int) :
    (report o since s.pool.memory).total = (counted o s).length ∧
    s.pool.memory.calls.countP Call.isRecord = (counted o s).length ∧
    ((∀ c < o.connections, o.observer c = true) →
      s.pool.memory.calls.countP (fun call => !call.isRecord) = (counted o s).length) ∧
    (report o since s.pool.memory).errors = ((counted o s).filter fun e => e.x.isErr).length ∧
    (report o since s.pool.memory).records =
      (((counted o s).filter fun e => !e.x.isErr).map fun e => e.x.rows).sum ∧
    (report o since s.pool.memory).meanLateness =
      ⌊((((counted o s).map fun e => e.x.lateness).sum : Int) : ℚ) / ((counted o s).length : ℚ)⌋ ∧
    (report o since s.pool.memory).meanService =
      ⌊((((counted o s).map fun e => e.x.service).sum : Int) : ℚ) / ((counted o s).length : ℚ)⌋ ∧
    ∀ lo hi, IsLeast {v | ∃ e ∈ counted o s, e.x.unixNano.val = v} lo →
      IsGreatest {v | ∃ e ∈ counted o s, e.x.unixNano.val = v} hi →
      meanInterArrival s.pool.memory (report o since s.pool.memory).total =
        interArrival lo hi (counted o s).length := by
  have h : Kept o s := hreach.invariant (kept_init o) fun s a t hs hstep => hs.step hstep
  have hlate₀ : ∀ e : Ended, 0 ≤ e.x.lateness := fun e => le_max_left 0 _
  have hserv₀ : ∀ e : Ended, 0 ≤ e.x.service := fun e => le_max_left 0 _
  have hsum : s.pool.memory.sums .total = (counted o s).length :=
    h.sums_of_done hdone (by simp [Completion.weight]) (Int.natCast_nonneg _) htotal
  have hfilter := List.length_filter_le (fun e : Ended => e.x.isErr) (counted o s)
  have herrs : s.pool.memory.sums .errors = ((counted o s).filter fun e => e.x.isErr).length := by
    refine h.sums_of_done hdone ?_ (Int.natCast_nonneg _) (by omega)
    show ((counted o s).map fun e => if e.x.isErr = true then (1 : Int) else 0).sum = _
    rw [List.sum_map_ite]
    simp
  have hrows : s.pool.memory.sums .records =
      (((counted o s).filter fun e => !e.x.isErr).map fun e => e.x.rows).sum := by
    refine h.sums_of_done hdone ?_ ?_ hrecords
    · show ((counted o s).map fun e => if e.x.isErr = true then (0 : Int) else e.x.rows).sum = _
      rw [List.sum_map_ite]
      simp
    · exact sum_map_nonneg fun e => le_trans Int.one_nonneg (le_max_left 1 e.x.res.rows)
  have hlate : s.pool.memory.sums .latenessSum = ((counted o s).map fun e => e.x.lateness).sum :=
    h.sums_of_done hdone rfl (sum_map_nonneg hlate₀) hlateness
  have hserv : s.pool.memory.sums .serviceSum = ((counted o s).map fun e => e.x.service).sum :=
    h.sums_of_done hdone rfl (sum_map_nonneg hserv₀) hservice
  obtain ⟨hrtotal, hrerrors, hrrecords, hrlateness, hrservice⟩ := report_fields o since s.pool.memory
  rw [hrtotal, hrerrors, hrrecords, hrlateness, hrservice, hsum, herrs, hrows, hlate, hserv,
    tdiv_eq_floor (sum_map_nonneg hlate₀), tdiv_eq_floor (sum_map_nonneg hserv₀)]
  refine ⟨rfl, ?_, fun hobs => ?_, rfl, rfl, rfl, rfl, fun lo hi hlo hhi => ?_⟩
  · apply h.countP_calls hdone
    intro e he
    rw [calls_observe (dispatch_of_counted he)]
    split <;> rfl
  · apply h.countP_calls hdone
    intro e he
    rw [calls_observe (dispatch_of_counted he), if_pos (hobs e.shard (h.shards e (List.mem_of_mem_filter he)))]
    rfl
  · obtain ⟨hmin, hmax⟩ := h.extremes_of_done hdone hlo hhi
    unfold meanInterArrival
    rw [hmin, hmax]

/-! ### A contended run -/

/-- A run of two workers with observers whose warmup ends at 10. -/
def twoWorkers : Options := ⟨2, 10, 100, 0, fun _ => true⟩

/-- An operation without payload. -/
def plainOp (rows : Int) (err : Option String) (intended dispatch done : Int) : Completion :=
  ⟨⟨"write", 0, [], 0⟩, ⟨"write", rows, .nil, err⟩, intended, dispatch, done, .ofInt (100 + intended)⟩

/-- A batch of three rows and a failed operation are measured, an operation of the warmup and one that is overtaken by
the end of the context are not. Both workers load the smallest intended time; worker 1 swaps first, so the swap of
worker 0 fails. For the greatest it is the other way round. -/
def contendedRun : List Action := List.flatten
  [[.ret 0 (plainOp 1 none 0 5 6), .check 0, .loop 0, .ret 0 (plainOp 3 none 15 17 20),
      .ret 1 (plainOp 0 (some "refused") 10 11 15), .check 0, .check 1],
    List.replicate 6 (.micro 0 .next), List.replicate 6 (.micro 1 .next),
    [.micro 0 .load, .micro 1 .load, .micro 1 .swap, .micro 0 .swap, .micro 0 .load, .micro 0 .load, .micro 1 .load,
      .micro 0 .swap, .micro 1 .swap, .micro 1 .load],
    [.loop 0, .loop 1, .ret 1 (plainOp 1 none 21 22 30), .endCtx, .check 1, .stop 0]]

/-- The operations that it measures. -/
def contendedOps : List Ended :=
  [⟨0, plainOp 3 none 15 17 20, true⟩, ⟨1, plainOp 0 (some "refused") 10 11 15, true⟩]

theorem accounting_exact_on_contended_run :
    ∃ s, Reachable (step twoWorkers) (init twoWorkers) s ∧ counted twoWorkers s = contendedOps ∧
      (report twoWorkers 0 s.pool.memory).total = contendedOps.length ∧
      (report twoWorkers 0 s.pool.memory).records = 3 ∧
      meanInterArrival s.pool.memory (report twoWorkers 0 s.pool.memory).total = interArrival 110 115 2 := by
  obtain ⟨s, hreach, hdone, hcounted⟩ : ∃ s, Reachable (step twoWorkers) (init twoWorkers) s ∧
      (∀ c < twoWorkers.connections, s.phase c = .stopped) ∧ counted twoWorkers s = contendedOps :=
    exists_reachable contendedRun (by decide +kernel)
  have hexact := accounting_exact hreach hdone (by rw [hcounted]; decide) (by rw [hcounted]; decide)
    (by rw [hcounted]; decide) (by rw [hcounted]; decide) 0
  rw [hcounted] at hexact
  refine ⟨s, hreach, hcounted, hexact.1, hexact.2.2.2.2.1, hexact.2.2.2.2.2.2.2 110 115 ?_ ?_⟩
  · exact ⟨⟨_, List.mem_cons_of_mem _ List.mem_cons_self, rfl⟩, by rintro v ⟨e, he, rfl⟩; revert e; decide⟩
  · exact ⟨⟨_, List.mem_cons_self, rfl⟩, by rintro v ⟨e, he, rfl⟩; revert e; decide⟩

end Proofload.Runner.Accumulator
