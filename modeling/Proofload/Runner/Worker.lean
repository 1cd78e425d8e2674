import Proofload.Domain
import Proofload.Lib.Run
import Mathlib.Data.List.Basic

/-!
# The load loop (`core/runner/runner.go`, `worker.go`)

One goroutine per connection loops: check the run context, wait for the intended start, draw an
operation, read the clock, execute, read the clock again, and unless the context has ended meanwhile
hand the operation to `observe`, which drops what was dispatched before the end of the warmup. The
goroutines interleave in any way, the clock advances at any point, and the run context ends at any
point (measure deadline or cancelled parent). The target executes one operation atomically between
the two clock readings.

`execs` is the history of these atomic executions; nothing in the runner reads it.

* `replayed` : the target's state and every result come from replaying the executions in order;
* `exists_exec` : the execution behind an observation;
* `tracked` : executions happen in clock order, every observed operation is one of them and lies inside
  the recorded interval, and no execution is observed twice.
-/

namespace Proofload.Runner
open Lib

set_option autoImplicit false

/-- The collaborators of a run: the operations each connection's generator yields, and the target. -/
structure Deps (T : Type) where
  gen : Nat → Nat → Operation
  execute : T → Operation → T × OpResult
  empty : T

structure Options where
  connections : Nat
  warmup : Nat
deriving DecidableEq

/-- Where a worker goroutine stands. -/
inductive Phase where
  | idle
  | ready
  | called (op : Operation) (dispatch : Int)
  | executed (op : Operation) (dispatch : Int) (res : OpResult) (exec : Nat)
  | returned (op : Operation) (dispatch : Int) (res : OpResult) (exec : Nat) (done : Int)
  | stopped
deriving DecidableEq

/-- One atomic execution on the target. -/
structure Exec where
  shard : Nat
  op : Operation
  res : OpResult
  time : Int
deriving DecidableEq

/-- One call of `obs.Observe`, with the number of the execution it reports. -/
structure Observation where
  shard : Nat
  op : Operation
  res : OpResult
  invoke : Int
  complete : Int
  exec : Nat
deriving DecidableEq

/-- The state of a run; the clock starts at zero, the runner's `base`. -/
structure State (T : Type) where
  now : Int
  ctxDone : Bool
  target : T
  drawn : Nat → Nat
  phase : Nat → Phase
  execs : List Exec
  observed : List Observation

inductive Action where
  | tick (d : Nat)
  | endCtx
  | wake (c : Nat)
  | dispatch (c : Nat)
  | exec (c : Nat)
  | ret (c : Nat)
  | finish (c : Nat)
  | stop (c : Nat)

variable {T : Type}

def init (d : Deps T) : State T :=
  { now := 0, ctxDone := false, target := d.empty, drawn := fun _ => 0, phase := fun _ => .idle, execs := [],
    observed := [] }

/-- `observe`: drops the operations dispatched before the end of the warmup. -/
def observe (o : Options) (observed : List Observation) (ob : Observation) : List Observation :=
  if ob.invoke < o.warmup then observed else observed ++ [ob]

/-- One step of the run. -/
def step (d : Deps T) (o : Options) (s : State T) : Action → Option (State T)
  | .tick n => some { s with now := s.now + n }
  | .endCtx => some { s with ctxDone := true }
  | .wake c =>
      -- `ctx.Err()` and `sleepUntil` let the worker go on only while the context is alive
      if c < o.connections ∧ s.phase c = .idle ∧ s.ctxDone = false then
        some { s with phase := Function.update s.phase c .ready }
      else none
  | .dispatch c =>
      match s.phase c with
      | .ready => some { s with
          phase := Function.update s.phase c (.called (d.gen c (s.drawn c)) s.now)
          drawn := Function.update s.drawn c (s.drawn c + 1) }
      | _ => none
  | .exec c =>
      match s.phase c with
      | .called op dispatch => some { s with
          phase := Function.update s.phase c (.executed op dispatch (d.execute s.target op).2 s.execs.length)
          target := (d.execute s.target op).1
          execs := s.execs ++ [⟨c, op, (d.execute s.target op).2, s.now⟩] }
      | _ => none
  | .ret c =>
      match s.phase c with
      | .executed op dispatch res exec =>
          some { s with phase := Function.update s.phase c (.returned op dispatch res exec s.now) }
      | _ => none
  | .finish c =>
      match s.phase c with
      | .returned op dispatch res exec done =>
          -- interrupted in flight: the operation is discarded
          if s.ctxDone then some { s with phase := Function.update s.phase c .stopped }
          else some { s with
            phase := Function.update s.phase c .idle
            observed := observe o s.observed ⟨c, op, res, dispatch, done, exec⟩ }
      | _ => none
  | .stop c =>
      if s.phase c = .idle ∧ s.ctxDone = true then some { s with phase := Function.update s.phase c .stopped } else none

variable {d : Deps T} {o : Options} {s t : State T}

/-! ## What a step does -/

theorem step_wake {c : Nat} (h : step d o s (.wake c) = some t) :
    t = { s with phase := Function.update s.phase c .ready } := by
  simp only [step] at h
  split_ifs at h
  exact (Option.some.inj h).symm

theorem step_dispatch {c : Nat} (h : step d o s (.dispatch c) = some t) :
    t = { s with
      phase := Function.update s.phase c (.called (d.gen c (s.drawn c)) s.now)
      drawn := Function.update s.drawn c (s.drawn c + 1) } := by
  simp only [step] at h
  split at h
  · exact (Option.some.inj h).symm
  · cases h

theorem step_exec {c : Nat} (h : step d o s (.exec c) = some t) : ∃ op dispatch, s.phase c = .called op dispatch ∧
    t = { s with
      phase := Function.update s.phase c (.executed op dispatch (d.execute s.target op).2 s.execs.length)
      target := (d.execute s.target op).1
      execs := s.execs ++ [⟨c, op, (d.execute s.target op).2, s.now⟩] } := by
  simp only [step] at h
  split at h
  · exact ⟨_, _, by assumption, (Option.some.inj h).symm⟩
  · cases h

theorem step_ret {c : Nat} (h : step d o s (.ret c) = some t) : ∃ op dispatch res exec,
    s.phase c = .executed op dispatch res exec ∧
    t = { s with phase := Function.update s.phase c (.returned op dispatch res exec s.now) } := by
  simp only [step] at h
  split at h
  · exact ⟨_, _, _, _, by assumption, (Option.some.inj h).symm⟩
  · cases h

theorem step_finish {c : Nat} (h : step d o s (.finish c) = some t) : ∃ op dispatch res exec done,
    s.phase c = .returned op dispatch res exec done ∧
    (t = { s with phase := Function.update s.phase c .stopped } ∨
      t = { s with phase := Function.update s.phase c .idle } ∨
      t = { s with
        phase := Function.update s.phase c .idle
        observed := s.observed ++ [⟨c, op, res, dispatch, done, exec⟩] }) := by
  simp only [step, observe] at h
  split at h
  · refine ⟨_, _, _, _, _, by assumption, ?_⟩
    split_ifs at h
    · exact Or.inl (Option.some.inj h).symm
    · exact Or.inr (Or.inl (Option.some.inj h).symm)
    · exact Or.inr (Or.inr (Option.some.inj h).symm)
  · cases h

theorem step_stop {c : Nat} (h : step d o s (.stop c) = some t) :
    t = { s with phase := Function.update s.phase c .stopped } := by
  simp only [step] at h
  split_ifs at h
  exact (Option.some.inj h).symm

/-! ## Replay -/

/-- The target after a list of executions. -/
def Deps.after (d : Deps T) (execs : List Exec) : T := execs.foldl (fun t e => (d.execute t e.op).1) d.empty

@[simp] theorem after_nil : d.after [] = d.empty := rfl

theorem after_concat (execs : List Exec) (e : Exec) : d.after (execs ++ [e]) = (d.execute (d.after execs) e.op).1 := by
  unfold Deps.after
  rw [List.foldl_append]
  rfl

/-- State and results come from replaying the executions, and their operations from the generators. -/
structure Replayed (d : Deps T) (s : State T) : Prop where
  target : s.target = d.after s.execs
  result : ∀ pre e post, s.execs = pre ++ e :: post → e.res = (d.execute (d.after pre) e.op).2
  drawn : ∀ e ∈ s.execs, ∃ i, e.op = d.gen e.shard i
  called : ∀ c op dispatch, s.phase c = .called op dispatch → ∃ i, op = d.gen c i

theorem Replayed.setPhase (h : Replayed d s) (c : Nat) {p : Phase} (hp : ∀ op dispatch, p ≠ .called op dispatch) :
    ∀ c' op dispatch, Function.update s.phase c p c' = .called op dispatch → ∃ i, op = d.gen c' i := by
  refine (Function.forall_update_iff s.phase fun c' q =>
    ∀ op dispatch, q = .called op dispatch → ∃ i, op = d.gen c' i).mpr
    ⟨fun op dispatch heq => absurd heq (hp op dispatch), fun c' _ => h.called c'⟩

theorem Replayed.exec (h : Replayed d s) {c : Nat} (ht : step d o s (.exec c) = some t) : Replayed d t := by
  obtain ⟨op, dispatch, hphase, rfl⟩ := step_exec ht
  refine ⟨?_, fun pre e post heq => ?_, fun e he => ?_, h.setPhase c (by simp)⟩
  · dsimp only
    rw [after_concat, h.target]
  · dsimp only at heq
    rcases List.append_eq_append_iff.mp heq with ⟨as, rfl, hlast⟩ | ⟨bs, hexecs, hlast⟩
    · cases as with
      | nil =>
          obtain ⟨rfl, -⟩ := List.cons.inj hlast
          rw [List.append_nil, h.target]
      | cons a as =>
          have := congrArg List.length (List.cons.inj hlast).2
          simp at this
    · cases bs with
      | nil =>
          obtain ⟨rfl, -⟩ := List.cons.inj hlast
          rw [h.target, hexecs, List.append_nil]
      | cons b bs =>
          obtain ⟨rfl, -⟩ := List.cons.inj hlast
          exact h.result pre e bs hexecs
  · rcases List.mem_append.mp he with he | he
    · exact h.drawn e he
    · rw [List.mem_singleton.mp he]
      exact h.called c op dispatch hphase

theorem Replayed.step (h : Replayed d s) {a : Action} (ht : step d o s a = some t) : Replayed d t := by
  cases a with
  | tick n =>
      obtain rfl := Option.some.inj ht
      exact ⟨h.target, h.result, h.drawn, h.called⟩
  | endCtx =>
      obtain rfl := Option.some.inj ht
      exact ⟨h.target, h.result, h.drawn, h.called⟩
  | wake c =>
      obtain rfl := step_wake ht
      exact ⟨h.target, h.result, h.drawn, h.setPhase c (by simp)⟩
  | dispatch c =>
      obtain rfl := step_dispatch ht
      refine ⟨h.target, h.result, h.drawn, ?_⟩
      refine (Function.forall_update_iff s.phase fun c' q =>
        ∀ op dispatch, q = .called op dispatch → ∃ i, op = d.gen c' i).mpr
        ⟨fun op dispatch heq => ?_, fun c' _ => h.called c'⟩
      exact ⟨_, (Phase.called.inj heq).1.symm⟩
  | exec c => exact h.exec ht
  | ret c =>
      obtain ⟨op, dispatch, res, i, -, rfl⟩ := step_ret ht
      exact ⟨h.target, h.result, h.drawn, h.setPhase c (by simp)⟩
  | finish c =>
      obtain ⟨op, dispatch, res, i, done, -, rfl | rfl | rfl⟩ := step_finish ht <;>
        exact ⟨h.target, h.result, h.drawn, h.setPhase c (by simp)⟩
  | stop c =>
      obtain rfl := step_stop ht
      exact ⟨h.target, h.result, h.drawn, h.setPhase c (by simp)⟩

theorem replayed (h : Reachable (step d o) (init d) s) : Replayed d s := by
  refine h.invariant ?_ fun s a t hs ht => hs.step ht
  exact ⟨rfl, fun pre e post heq => by simp [init] at heq, fun e he => absurd he List.not_mem_nil,
    fun c op dispatch heq => by cases heq⟩

theorem Replayed.forall_execs (h : Replayed d s) {P : Operation → Prop} (hgen : ∀ c i, P (d.gen c i)) :
    ∀ e ∈ s.execs, P e.op := by
  intro e he
  obtain ⟨i, hi⟩ := h.drawn e he
  rw [hi]
  exact hgen e.shard i

/-! ## Timing and numbering -/

/-- The executions already observed. -/
def State.observedExecs (s : State T) : List Nat := s.observed.map (·.exec)

/-- Execution number `i` is that of `op` on `shard` with result `res`, at a time in `[invoke, complete]`. -/
def Inside (execs : List Exec) (shard : Nat) (op : Operation) (res : OpResult) (i : Nat) (invoke complete : Int) :
    Prop :=
  ∃ time, execs[i]? = some ⟨shard, op, res, time⟩ ∧ invoke ≤ time ∧ time ≤ complete

/-- What a worker's phase says about the run: its execution lies behind the dispatch, and is not
observed yet. -/
def PhaseOk (s : State T) (c : Nat) : Phase → Prop
  | .called _ dispatch => dispatch ≤ s.now
  | .executed op dispatch res i => Inside s.execs c op res i dispatch s.now ∧ i ∉ s.observedExecs
  | .returned op dispatch res i done => Inside s.execs c op res i dispatch done ∧ i ∉ s.observedExecs
  | _ => True

/-- Executions follow the clock; every observed operation is one of them, inside its interval, and is
observed once. -/
structure Tracked (s : State T) : Prop where
  clock : s.execs.Pairwise fun a b => a.time ≤ b.time
  past : ∀ e ∈ s.execs, e.time ≤ s.now
  phases : ∀ c, PhaseOk s c (s.phase c)
  observed : ∀ ob ∈ s.observed, Inside s.execs ob.shard ob.op ob.res ob.exec ob.invoke ob.complete
  once : s.observedExecs.Nodup

theorem Inside.mono {execs execs' : List Exec} {shard : Nat} {op : Operation} {res : OpResult} {i : Nat}
    {invoke complete complete' : Int} (h : Inside execs shard op res i invoke complete) (hexecs : execs <+: execs')
    (hle : complete ≤ complete') : Inside execs' shard op res i invoke complete' := by
  obtain ⟨time, hget, hge, hle'⟩ := h
  obtain ⟨rest, rfl⟩ := hexecs
  refine ⟨time, ?_, hge, le_trans hle' hle⟩
  rw [List.getElem?_append_left (List.getElem?_eq_some_iff.mp hget).1, hget]

/-- A phase stays true while time passes, executions are added, and only executions of other workers
are observed. -/
theorem PhaseOk.mono {c : Nat} {p : Phase} (h : PhaseOk s c p) (hnow : s.now ≤ t.now) (hexecs : s.execs <+: t.execs)
    (hobs : ∀ i op res invoke complete, Inside s.execs c op res i invoke complete → i ∉ s.observedExecs →
      i ∉ t.observedExecs) : PhaseOk t c p := by
  cases p with
  | called op dispatch => exact le_trans h hnow
  | executed op dispatch res i => exact ⟨h.1.mono hexecs hnow, hobs i op res _ _ h.1 h.2⟩
  | returned op dispatch res i done => exact ⟨h.1.mono hexecs (le_refl _), hobs i op res _ _ h.1 h.2⟩
  | idle => trivial
  | ready => trivial
  | stopped => trivial

theorem phaseOk_update {c : Nat} {p : Phase} (ht : t.phase = Function.update s.phase c p) (hp : PhaseOk t c p)
    (hother : ∀ c', c' ≠ c → PhaseOk t c' (s.phase c')) (c' : Nat) : PhaseOk t c' (t.phase c') := by
  rw [ht]
  exact (Function.forall_update_iff s.phase fun c' q => PhaseOk t c' q).mpr ⟨hp, hother⟩ c'

theorem Tracked.move (h : Tracked s) {c : Nat} {p : Phase} (hp : PhaseOk s c p)
    (ht : t = { s with phase := Function.update s.phase c p, drawn := t.drawn }) : Tracked t := by
  rw [ht]
  refine ⟨h.clock, h.past, phaseOk_update rfl ?_ fun c' _ => ?_, h.observed, h.once⟩
  · exact hp.mono (le_refl _) (List.prefix_refl _) fun _ _ _ _ _ _ hi => hi
  · exact (h.phases c').mono (le_refl _) (List.prefix_refl _) fun _ _ _ _ _ _ hi => hi

theorem Tracked.exec (h : Tracked s) {c : Nat} (ht : step d o s (.exec c) = some t) : Tracked t := by
  obtain ⟨op, dispatch, hphase, rfl⟩ := step_exec ht
  have hdispatch : PhaseOk s c (.called op dispatch) := hphase ▸ h.phases c
  have hgrow : s.execs <+: s.execs ++ [⟨c, op, (d.execute s.target op).2, s.now⟩] := List.prefix_append _ _
  refine ⟨?_, fun e he => ?_, phaseOk_update rfl ?_ fun c' _ => ?_,
    fun ob hob => (h.observed ob hob).mono hgrow (le_refl _), h.once⟩
  · refine List.pairwise_append.mpr ⟨h.clock, List.pairwise_singleton _ _, fun a ha b hb => ?_⟩
    rw [List.mem_singleton.mp hb]
    exact h.past a ha
  · rcases List.mem_append.mp he with he | he
    · exact h.past e he
    · rw [List.mem_singleton.mp he]
  · refine ⟨⟨s.now, by simp, hdispatch, le_refl _⟩, fun hmem => ?_⟩
    obtain ⟨ob, hob, heq⟩ := List.mem_map.mp hmem
    obtain ⟨time, hget, -⟩ := h.observed ob hob
    have := (List.getElem?_eq_some_iff.mp hget).1
    omega
  · exact (h.phases c').mono (le_refl _) hgrow fun _ _ _ _ _ _ hi => hi

theorem Tracked.observe (h : Tracked s) {c : Nat} {op : Operation} {dispatch done : Int} {res : OpResult} {i : Nat}
    (hphase : s.phase c = .returned op dispatch res i done) :
    Tracked { s with
      phase := Function.update s.phase c .idle
      observed := s.observed ++ [⟨c, op, res, dispatch, done, i⟩] } := by
  obtain ⟨hinside, hfresh⟩ : PhaseOk s c (.returned op dispatch res i done) := hphase ▸ h.phases c
  refine ⟨h.clock, h.past, phaseOk_update rfl trivial fun c' hc => ?_, fun ob hob => ?_, ?_⟩
  · refine (h.phases c').mono (le_refl _) (List.prefix_refl _) fun j op' res' _ _ hj hnot hmem => ?_
    simp only [State.observedExecs, List.map_append, List.mem_append, List.map_cons, List.map_nil,
      List.mem_singleton] at hmem
    rcases hmem with hmem | rfl
    · exact hnot hmem
    · obtain ⟨time, hget, -⟩ := hinside
      obtain ⟨time', hget', -⟩ := hj
      rw [hget] at hget'
      exact hc (congrArg Exec.shard (Option.some.inj hget')).symm
  · rcases List.mem_append.mp hob with hob | hob
    · exact h.observed ob hob
    · rw [List.mem_singleton.mp hob]
      exact hinside
  · simp only [State.observedExecs, List.map_append, List.map_cons, List.map_nil]
    exact List.nodup_append.mpr ⟨h.once, List.nodup_singleton _, fun a ha b hb =>
      fun heq => hfresh (by rw [List.mem_singleton.mp hb] at heq; exact heq ▸ ha)⟩

theorem Tracked.step (h : Tracked s) {a : Action} (ht : step d o s a = some t) : Tracked t := by
  cases a with
  | tick n =>
      obtain rfl := Option.some.inj ht
      have hnow : s.now ≤ s.now + n := by omega
      exact ⟨h.clock, fun e he => le_trans (h.past e he) hnow,
        fun c => (h.phases c).mono hnow (List.prefix_refl _) fun _ _ _ _ _ _ hi => hi, h.observed, h.once⟩
  | endCtx =>
      obtain rfl := Option.some.inj ht
      exact ⟨h.clock, h.past, fun c => (h.phases c).mono (le_refl _) (List.prefix_refl _) fun _ _ _ _ _ _ hi => hi,
        h.observed, h.once⟩
  | wake c =>
      obtain rfl := step_wake ht
      exact h.move (p := .ready) trivial rfl
  | dispatch c =>
      obtain rfl := step_dispatch ht
      exact h.move (p := .called _ s.now) (le_refl s.now) rfl
  | exec c => exact h.exec ht
  | ret c =>
      obtain ⟨op, dispatch, res, i, hphase, rfl⟩ := step_ret ht
      have hp : PhaseOk s c (.executed op dispatch res i) := hphase ▸ h.phases c
      exact h.move (p := .returned op dispatch res i s.now) hp rfl
  | finish c =>
      obtain ⟨op, dispatch, res, i, done, hphase, rfl | rfl | rfl⟩ := step_finish ht
      · exact h.move (p := .stopped) trivial rfl
      · exact h.move (p := .idle) trivial rfl
      · exact h.observe hphase
  | stop c =>
      obtain rfl := step_stop ht
      exact h.move (p := .stopped) trivial rfl

theorem tracked (h : Reachable (step d o) (init d) s) : Tracked s := by
  refine h.invariant ?_ fun s a t hs ht => hs.step ht
  exact ⟨List.Pairwise.nil, fun e he => absurd he List.not_mem_nil, fun c => trivial,
    fun ob hob => absurd hob List.not_mem_nil, List.nodup_nil⟩

theorem exists_exec (htracked : Tracked s) {ob : Observation} (hob : ob ∈ s.observed) :
    ∃ e post, s.execs = s.execs.take ob.exec ++ e :: post ∧ ob.exec < s.execs.length ∧
      e.op = ob.op ∧ e.res = ob.res ∧ ob.invoke ≤ e.time ∧ e.time ≤ ob.complete ∧ s.execs[ob.exec]? = some e := by
  obtain ⟨time, hget, hge, hle⟩ := htracked.observed ob hob
  obtain ⟨hlt, heq⟩ := List.getElem?_eq_some_iff.mp hget
  refine ⟨_, s.execs.drop (ob.exec + 1), ?_, hlt, rfl, rfl, hge, hle, hget⟩
  rw [← heq, ← List.drop_eq_getElem_cons hlt, List.take_append_drop]

/-- An observed operation was executed, and its result is what the target answered. -/
theorem observed_executed (h : Reachable (step d o) (init d) s) {ob : Observation} (hob : ob ∈ s.observed) :
    ∃ e ∈ s.execs, e.op = ob.op ∧ ∃ target, ob.res = (d.execute target ob.op).2 := by
  obtain ⟨e, post, hsplit, -, hop, hres, -, -, hget⟩ := exists_exec (tracked h) hob
  have hresult := (replayed h).result _ _ _ hsplit
  rw [hres, hop] at hresult
  exact ⟨e, List.mem_of_getElem? hget, hop, _, hresult⟩

/-- What every drawn operation has, every observed one has; and if the target accepts such operations, it is observed
without an error. -/
theorem observed_spec (h : Reachable (step d o) (init d) s) {P : Operation → Prop} (hgen : ∀ c i, P (d.gen c i))
    (haccepts : ∀ target op, P op → (d.execute target op).2.err = none) {ob : Observation} (hob : ob ∈ s.observed) :
    P ob.op ∧ ob.res.err = none ∧ ∃ e ∈ s.execs, e.op = ob.op := by
  obtain ⟨e, he, hop, target, hres⟩ := observed_executed h hob
  have hdrawn : P ob.op := by
    rw [← hop]
    exact (replayed h).forall_execs hgen e he
  refine ⟨hdrawn, ?_, e, he, hop⟩
  rw [hres]
  exact haccepts target ob.op hdrawn

end Proofload.Runner
