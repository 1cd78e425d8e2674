import Proofload.Runner.Worker
import Mathlib.Data.List.Range
import Mathlib.Data.List.Perm.Basic

/-!
# The connections of a run (`core/runner/runner.go`)

`Run` opens and prepares its connections one after the other, drives the load on them and closes them again: at once
if one of them cannot be opened or prepared, by its deferred `closeAll` behind `wg.Wait` otherwise. What is visible
from outside is kept as a list of events. Which `Connect` and `Prepare` calls fail is arbitrary, and so is the
interleaving of the workers.

* `connectLoop_add` : what the loop of `connectAll` does while nothing fails;
* `exists_stopping` : from every state the workers can be brought to their end, so that `Run` returns;
* `no_connection_leaks` : every opened connection is closed exactly once before `Run` returns.
-/

namespace Proofload.Runner.Lifecycle
open Lib

set_option autoImplicit false

/-! ## The code -/

/-- The errors of the driver's calls for the `i`-th connection. -/
structure Outcomes where
  connect : Nat → Option String
  prepare : Nat → Option String

/-- What a run does to its connections; `work` is a step of the worker goroutines. -/
inductive Event where
  | connect (i : Nat) (err : Option String)
  | prepare (i : Nat) (err : Option String)
  | work (a : Action)
  | close (i : Nat)

def closeAll (conns : List Nat) : List Event := conns.map .close

/-- The loop of `connectAll` from connection `i` on, with `left` connections to go. -/
def connectLoop (w : Outcomes) : Nat → Nat → List Nat → List Event × Except String (List Nat)
  | 0, _, conns => ([], .ok conns)
  | left + 1, i, conns =>
      match w.connect i with
      | some e => (.connect i (some e) :: closeAll conns, .error s!"runner: connect {i}: {e}")
      | none =>
          match w.prepare i with
          | some e =>
              (.connect i none :: .prepare i (some e) :: .close i :: closeAll conns,
                .error s!"runner: prepare {i}: {e}")
          | none =>
              let (events, res) := connectLoop w left (i + 1) (conns ++ [i])
              (.connect i none :: .prepare i none :: events, res)

def connectAll (w : Outcomes) (n : Nat) : List Event × Except String (List Nat) := connectLoop w n 0 []

/-- What `validate` looks at. The lengths of the phases are nanoseconds, `showDuration` prints them. -/
structure Setup where
  driver : Bool
  sched : Bool
  gen : Bool
  connections : Int
  duration : Int
  warmup : Int
  showDuration : Int → String

def validate (u : Setup) : Option String :=
  if u.driver = false then some "runner: nil Driver"
  else if u.sched = false then some "runner: nil Scheduler"
  else if u.gen = false then some "runner: nil Gen"
  else if u.connections < 1 then some s!"runner: Connections must be >= 1, got {u.connections}"
  else if u.duration ≤ 0 then some s!"runner: Duration must be > 0, got {u.showDuration u.duration}"
  else if u.warmup < 0 then some s!"runner: Warmup must be >= 0, got {u.showDuration u.warmup}"
  else none

def Setup.options (u : Setup) : Options := ⟨u.connections.toNat, u.warmup.toNat⟩

/-- What `Run` has done when it returns: its events, the state the workers left behind (if there was a load phase) and
its error. -/
structure Returned (T : Type) where
  events : List Event
  load : Option (State T)
  err : Option String

variable {T : Type}

/-- `wg.Wait` lets `Run` go on. -/
def AllStopped (o : Options) (s : State T) : Prop := ∀ c < o.connections, s.phase c = .stopped

instance (o : Options) (s : State T) : Decidable (AllStopped o s) :=
  inferInstanceAs (Decidable (∀ c < o.connections, s.phase c = .stopped))

/-- `Run`, with the steps of its workers given by `schedule`; `ctxErr` is the error of the caller's context at the
end. It has not returned (`none`) while the schedule leaves a worker running. -/
def run (u : Setup) (w : Outcomes) (d : Deps T) (schedule : List Action) (ctxErr : Option String) :
    Option (Returned T) :=
  match validate u with
  | some e => some ⟨[], none, some e⟩
  | none =>
      match connectAll w u.options.connections with
      | (events, .error e) => some ⟨events, none, some e⟩
      | (events, .ok conns) =>
          (Lib.run (step d u.options) (init d) schedule).bind fun s =>
            if AllStopped u.options s then
              some ⟨events ++ schedule.map .work ++ closeAll conns, some s, ctxErr⟩
            else none

/-! ## What the events say -/

/-- The connections that were opened. -/
def opens (events : List Event) : List Nat :=
  events.filterMap fun
    | .connect i none => some i
    | _ => none

/-- The connections that were closed, once for every `Close`. -/
def closes (events : List Event) : List Nat :=
  events.filterMap fun
    | .close i => some i
    | _ => none

/-- The load. -/
def loads (events : List Event) : List Action :=
  events.filterMap fun
    | .work a => some a
    | _ => none

section Events
variable (events events' : List Event) (conns : List Nat) (schedule : List Action)

@[simp]
theorem opens_append : opens (events ++ events') = opens events ++ opens events' := List.filterMap_append

@[simp]
theorem closes_append : closes (events ++ events') = closes events ++ closes events' := List.filterMap_append

@[simp]
theorem loads_append : loads (events ++ events') = loads events ++ loads events' := List.filterMap_append

@[simp]
theorem closeAll_events :
    opens (closeAll conns) = [] ∧ closes (closeAll conns) = conns ∧ loads (closeAll conns) = [] := by
  induction conns with
  | nil => exact ⟨rfl, rfl, rfl⟩
  | cons c conns ih => exact ⟨ih.1, congrArg (c :: ·) ih.2.1, ih.2.2⟩

@[simp]
theorem work_events :
    opens (schedule.map .work) = [] ∧ closes (schedule.map .work) = [] ∧ loads (schedule.map .work) = schedule := by
  induction schedule with
  | nil => exact ⟨rfl, rfl, rfl⟩
  | cons a schedule ih => exact ⟨ih.1, ih.2.1, congrArg (a :: ·) ih.2.2⟩

end Events

/-- The events of `m` connections from `i` on that are opened and prepared. -/
def opening (i m : Nat) : List Event := (List.range' i m).flatMap fun j => [.connect j none, .prepare j none]

@[simp]
theorem opening_events (i m : Nat) :
    opens (opening i m) = List.range' i m ∧ closes (opening i m) = [] ∧ loads (opening i m) = [] := by
  induction m generalizing i with
  | zero => exact ⟨rfl, rfl, rfl⟩
  | succ m ih =>
      obtain ⟨hopens, hcloses, hloads⟩ := ih (i + 1)
      exact ⟨congrArg (i :: ·) hopens, hcloses, hloads⟩

/-- The events if the first failure is the `k`-th `Connect`. -/
def connectFailed (k : Nat) (e : String) : List Event :=
  opening 0 k ++ [.connect k (some e)] ++ closeAll (List.range k)

/-- The events if the first failure is the `k`-th `Prepare`. -/
def prepareFailed (k : Nat) (e : String) : List Event :=
  opening 0 k ++ [.connect k none, .prepare k (some e), .close k] ++ closeAll (List.range k)

/-- The events if nothing fails. -/
def completed (n : Nat) (schedule : List Action) : List Event :=
  opening 0 n ++ schedule.map .work ++ closeAll (List.range n)

theorem connectFailed_spec (k : Nat) (e : String) :
    opens (connectFailed k e) = List.range k ∧ closes (connectFailed k e) = List.range k ∧
      loads (connectFailed k e) = [] := by
  have hfailed : opens [.connect k (some e)] = [] ∧ closes [.connect k (some e)] = [] ∧
      loads [.connect k (some e)] = [] := ⟨rfl, rfl, rfl⟩
  simp only [connectFailed, opens_append, closes_append, loads_append, opening_events, closeAll_events, hfailed,
    ← List.range_eq_range', List.append_nil, List.nil_append, and_self]

theorem prepareFailed_spec (k : Nat) (e : String) :
    opens (prepareFailed k e) = List.range (k + 1) ∧ closes (prepareFailed k e) = k :: List.range k ∧
      loads (prepareFailed k e) = [] := by
  have hfailed : opens [.connect k none, .prepare k (some e), .close k] = [k] ∧
      closes [.connect k none, .prepare k (some e), .close k] = [k] ∧
      loads [.connect k none, .prepare k (some e), .close k] = [] := ⟨rfl, rfl, rfl⟩
  simp only [prepareFailed, opens_append, closes_append, loads_append, opening_events, closeAll_events, hfailed,
    ← List.range_eq_range', List.range_succ, List.append_nil, List.nil_append, List.singleton_append, and_self]

theorem completed_spec (n : Nat) (schedule : List Action) :
    opens (completed n schedule) = List.range n ∧ closes (completed n schedule) = List.range n := by
  unfold completed
  simp [← List.range_eq_range']

/-! ## The loop of `connectAll` -/

section Connect
variable {w : Outcomes}

/-- Both calls for the `i`-th connection succeed. -/
def Outcomes.Ok (w : Outcomes) (i : Nat) : Prop := w.connect i = none ∧ w.prepare i = none

theorem connectLoop_add {i m : Nat} (hok : ∀ j, i ≤ j → j < i + m → w.Ok j) (left : Nat) (conns : List Nat) :
    connectLoop w (m + left) i conns =
      (opening i m ++ (connectLoop w left (i + m) (conns ++ List.range' i m)).1,
        (connectLoop w left (i + m) (conns ++ List.range' i m)).2) := by
  induction m generalizing i conns with
  | zero => simp [opening]
  | succ m ih =>
      have hi := hok i (by omega) (by omega)
      have hrest := ih (i := i + 1) (fun j hij hj => hok j (by omega) (by omega)) (conns ++ [i])
      rw [show m + 1 + left = m + left + 1 by omega, connectLoop, hi.1]
      dsimp only
      rw [hi.2]
      dsimp only
      rw [hrest, show i + 1 + m = i + (m + 1) by omega, List.append_assoc]
      rfl

theorem connectAll_from {n k : Nat} (hk : k ≤ n) (hok : ∀ i < k, w.Ok i) :
    connectAll w n = (opening 0 k ++ (connectLoop w (n - k) k (List.range k)).1,
      (connectLoop w (n - k) k (List.range k)).2) := by
  have h := connectLoop_add (w := w) (i := 0) (m := k) (fun j _ hj => hok j (by omega)) (n - k) []
  rwa [show k + (n - k) = n by omega, Nat.zero_add, List.nil_append, ← List.range_eq_range'] at h

theorem connectAll_ok {n : Nat} (hok : ∀ i < n, w.Ok i) : connectAll w n = (opening 0 n, .ok (List.range n)) := by
  rw [connectAll_from le_rfl hok, Nat.sub_self, connectLoop, List.append_nil]

/-- If the first failure is the `k`-th `Connect`, the `k` connections opened before are closed. -/
theorem connectAll_connect_fails {n k : Nat} (hk : k < n) (hok : ∀ i < k, w.Ok i) {e : String}
    (hfail : w.connect k = some e) :
    connectAll w n = (connectFailed k e, .error s!"runner: connect {k}: {e}") := by
  rw [connectAll_from hk.le hok, show n - k = n - k - 1 + 1 by omega, connectLoop, hfail, connectFailed,
    List.append_assoc]
  rfl

/-- If the first failure is the `k`-th `Prepare`, its connection is closed in front of the others. -/
theorem connectAll_prepare_fails {n k : Nat} (hk : k < n) (hok : ∀ i < k, w.Ok i) {e : String}
    (hconnect : w.connect k = none) (hfail : w.prepare k = some e) :
    connectAll w n = (prepareFailed k e, .error s!"runner: prepare {k}: {e}") := by
  rw [connectAll_from hk.le hok, show n - k = n - k - 1 + 1 by omega, connectLoop, hconnect]
  dsimp only
  rw [hfail, prepareFailed, List.append_assoc]
  rfl

theorem exists_first_failure (w : Outcomes) (n : Nat) :
    (∀ i < n, w.Ok i) ∨ ∃ k < n, (∀ i < k, w.Ok i) ∧
      ((∃ e, w.connect k = some e) ∨ w.connect k = none ∧ ∃ e, w.prepare k = some e) := by
  induction n with
  | zero => exact Or.inl fun i hi => absurd hi (Nat.not_lt_zero i)
  | succ n ih =>
      rcases ih with hok | ⟨k, hk, h⟩
      · cases hconnect : w.connect n with
        | some e => exact Or.inr ⟨n, by omega, hok, Or.inl ⟨e, hconnect⟩⟩
        | none =>
            cases hprepare : w.prepare n with
            | some e => exact Or.inr ⟨n, by omega, hok, Or.inr ⟨hconnect, e, hprepare⟩⟩
            | none =>
                left
                intro i hi
                rcases Nat.lt_succ_iff_lt_or_eq.mp hi with hi | rfl
                · exact hok i hi
                · exact ⟨hconnect, hprepare⟩
      · exact Or.inr ⟨k, by omega, h⟩

end Connect

/-! ## The workers can always stop -/

section Stopping
variable {d : Deps T} {o : Options}

/-- Some schedule stops worker `c`, and leaves the others where they are. -/
def CanStop (d : Deps T) (o : Options) (s : State T) (c : Nat) : Prop :=
  ∃ acts t, Lib.run (step d o) s acts = some t ∧ t.phase = Function.update s.phase c .stopped ∧ t.ctxDone = true

theorem CanStop.of_step {s u : State T} {c : Nat} {a : Action} {p : Phase} (h : step d o s a = some u)
    (hphase : u.phase = Function.update s.phase c p) (hu : CanStop d o u c) : CanStop d o s c := by
  obtain ⟨acts, t, hrun, ht, hctx⟩ := hu
  refine ⟨a :: acts, t, ?_, ?_, hctx⟩
  · rw [run_cons, h]
    exact hrun
  · rw [ht, hphase, Function.update_idem]

theorem canStop {s : State T} (hctx : s.ctxDone = true) (c : Nat) : CanStop d o s c := by
  have hreturned : ∀ {s : State T} {op dispatch res exec done}, s.ctxDone = true →
      s.phase c = .returned op dispatch res exec done → CanStop d o s c := by
    intro s op dispatch res exec done hctx hphase
    refine ⟨[.finish c], { s with phase := Function.update s.phase c .stopped }, ?_, rfl, hctx⟩
    simp [run_cons, step, hphase, hctx]
  have hexecuted : ∀ {s : State T} {op dispatch res exec}, s.ctxDone = true →
      s.phase c = .executed op dispatch res exec → CanStop d o s c := by
    intro s op dispatch res exec hctx hphase
    refine CanStop.of_step (a := .ret c) (by simp only [step, hphase]; rfl) rfl ?_
    exact hreturned hctx (Function.update_self ..)
  have hcalled : ∀ {s : State T} {op dispatch}, s.ctxDone = true → s.phase c = .called op dispatch →
      CanStop d o s c := by
    intro s op dispatch hctx hphase
    refine CanStop.of_step (a := .exec c) (by simp only [step, hphase]; rfl) rfl ?_
    exact hexecuted hctx (Function.update_self ..)
  cases hphase : s.phase c with
  | idle =>
      refine ⟨[.stop c], { s with phase := Function.update s.phase c .stopped }, ?_, rfl, hctx⟩
      simp [run_cons, step, hphase, hctx]
  | ready =>
      refine CanStop.of_step (a := .dispatch c) (by simp only [step, hphase]; rfl) rfl ?_
      exact hcalled hctx (Function.update_self ..)
  | called op dispatch => exact hcalled hctx hphase
  | executed op dispatch res exec => exact hexecuted hctx hphase
  | returned op dispatch res exec done => exact hreturned hctx hphase
  | stopped => exact ⟨[], s, rfl, by rw [← hphase, Function.update_eq_self], hctx⟩

/-- **From every state the workers can be brought to their end.** -/
theorem exists_stopping (d : Deps T) (o : Options) (s : State T) :
    ∃ acts t, Lib.run (step d o) s acts = some t ∧ AllStopped o t := by
  have hprefix : ∀ n, ∃ acts t, Lib.run (step d o) s acts = some t ∧ t.ctxDone = true ∧
      ∀ c < n, t.phase c = .stopped := by
    intro n
    induction n with
    | zero => exact ⟨[.endCtx], { s with ctxDone := true }, rfl, rfl, fun c hc => absurd hc (Nat.not_lt_zero c)⟩
    | succ n ih =>
        obtain ⟨acts, t, hrun, hctx, hstopped⟩ := ih
        obtain ⟨more, u, hmore, hphase, hctx⟩ := canStop (d := d) (o := o) hctx n
        refine ⟨acts ++ more, u, ?_, hctx, ?_⟩
        · rw [run_append, hrun]
          exact hmore
        · intro c hc
          rw [hphase]
          by_cases hcn : c = n
          · rw [hcn, Function.update_self]
          · rw [Function.update_of_ne hcn]
            exact hstopped c (by omega)
  obtain ⟨acts, t, hrun, -, hstopped⟩ := hprefix o.connections
  exact ⟨acts, t, hrun, hstopped⟩

end Stopping

/-! ## The whole run -/

section Run
variable {u : Setup} {w : Outcomes} {d : Deps T} {schedule : List Action} {ctxErr : Option String} {r : Returned T}

theorem run_invalid {e : String} (h : validate u = some e) : run u w d schedule ctxErr = some ⟨[], none, some e⟩ := by
  unfold run
  rw [h]

/-- If nothing fails, `Run` returns once its workers have stopped, and not before. -/
theorem run_ok (hvalid : validate u = none) (hok : ∀ i < u.options.connections, w.Ok i) :
    run u w d schedule ctxErr = some r ↔ ∃ s, Lib.run (step d u.options) (init d) schedule = some s ∧
      AllStopped u.options s ∧ r = ⟨completed u.options.connections schedule, some s, ctxErr⟩ := by
  unfold run
  rw [hvalid, connectAll_ok hok]
  dsimp only
  rw [Option.bind_eq_some_iff]
  refine exists_congr fun s => and_congr_right fun _ => ?_
  by_cases hstopped : AllStopped u.options s
  · rw [if_pos hstopped]
    simp [hstopped, completed, eq_comm]
  · rw [if_neg hstopped]
    simp [hstopped]

theorem run_connect_fails (hvalid : validate u = none) {k : Nat} (hk : k < u.options.connections)
    (hok : ∀ i < k, w.Ok i) {e : String} (hfail : w.connect k = some e) :
    run u w d schedule ctxErr = some ⟨connectFailed k e, none, some s!"runner: connect {k}: {e}"⟩ := by
  unfold run
  rw [hvalid, connectAll_connect_fails hk hok hfail]

theorem run_prepare_fails (hvalid : validate u = none) {k : Nat} (hk : k < u.options.connections)
    (hok : ∀ i < k, w.Ok i) {e : String} (hconnect : w.connect k = none) (hfail : w.prepare k = some e) :
    run u w d schedule ctxErr = some ⟨prepareFailed k e, none, some s!"runner: prepare {k}: {e}"⟩ := by
  unfold run
  rw [hvalid, connectAll_prepare_fails hk hok hconnect hfail]

/-- Whatever happened, the connections that were closed are those that were opened, each once. -/
theorem closes_perm_opens (h : run u w d schedule ctxErr = some r) :
    (closes r.events).Perm (opens r.events) ∧ (opens r.events).Nodup := by
  cases hvalid : validate u with
  | some e =>
      rw [run_invalid hvalid] at h
      obtain rfl := Option.some.inj h
      exact ⟨List.Perm.refl _, List.nodup_nil⟩
  | none =>
      rcases exists_first_failure w u.options.connections with hok | ⟨k, hk, hok, ⟨e, hfail⟩ | ⟨hconnect, e, hfail⟩⟩
      · obtain ⟨s, -, -, rfl⟩ := (run_ok hvalid hok).mp h
        obtain ⟨hopens, hcloses⟩ := completed_spec u.options.connections schedule
        rw [hopens, hcloses]
        exact ⟨List.Perm.refl _, List.nodup_range⟩
      · rw [run_connect_fails hvalid hk hok hfail] at h
        obtain rfl := Option.some.inj h
        obtain ⟨hopens, hcloses, -⟩ := connectFailed_spec k e
        rw [hopens, hcloses]
        exact ⟨List.Perm.refl _, List.nodup_range⟩
      · rw [run_prepare_fails hvalid hk hok hconnect hfail] at h
        obtain rfl := Option.some.inj h
        obtain ⟨hopens, hcloses, -⟩ := prepareFailed_spec k e
        rw [hopens, hcloses, List.range_succ]
        exact ⟨(List.perm_append_singleton k (List.range k)).symm, List.range_succ ▸ List.nodup_range⟩

theorem exists_return (hvalid : validate u = none) (hok : ∀ i < u.options.connections, w.Ok i) {s : State T}
    (hrun : Lib.run (step d u.options) (init d) schedule = some s) (ctxErr : Option String) :
    ∃ more r, run u w d (schedule ++ more) ctxErr = some r := by
  obtain ⟨more, t, hmore, hstopped⟩ := exists_stopping d u.options s
  refine ⟨more, _, (run_ok hvalid hok).mpr ⟨t, ?_, hstopped, rfl⟩⟩
  rw [run_append, hrun]
  exact hmore

end Run

/-- **No connection leaks.** For every number of connections, every pattern of failing `Connect` and `Prepare` calls
and every interleaving of the workers: when `Run` returns, the connections it has closed are those it has opened, each
exactly once. If the first failure is the `k`-th `Connect`, it returns with exactly the first `k` connections opened
and closed, and without load; if it is the `k`-th `Prepare`, likewise with the `k`-th connection among them. If nothing
fails, it returns with all of them closed behind the last step of the workers, which have all stopped, and it can
return from every state of the workers. -/
theorem no_connection_leaks (u : Setup) (w : Outcomes) (d : Deps T) (ctxErr : Option String) :
    (∀ schedule r, run u w d schedule ctxErr = some r →
      (closes r.events).Perm (opens r.events) ∧ (opens r.events).Nodup) ∧
    (∀ e, validate u = some e → ∀ schedule, run u w d schedule ctxErr = some ⟨[], none, some e⟩) ∧
    (validate u = none → ∀ k < u.options.connections, (∀ i < k, w.Ok i) → ∀ e, w.connect k = some e →
      ∀ schedule, ∃ r, run u w d schedule ctxErr = some r ∧ r.err = some s!"runner: connect {k}: {e}" ∧
        opens r.events = List.range k ∧ closes r.events = List.range k ∧ loads r.events = [] ∧ r.load = none) ∧
    (validate u = none → ∀ k < u.options.connections, (∀ i < k, w.Ok i) → w.connect k = none →
      ∀ e, w.prepare k = some e →
      ∀ schedule, ∃ r, run u w d schedule ctxErr = some r ∧ r.err = some s!"runner: prepare {k}: {e}" ∧
        opens r.events = List.range (k + 1) ∧ closes r.events = k :: List.range k ∧ loads r.events = [] ∧
        r.load = none) ∧
    (validate u = none → (∀ i < u.options.connections, w.Ok i) →
      (∀ schedule r, run u w d schedule ctxErr = some r → ∃ s before,
        Lib.run (step d u.options) (init d) schedule = some s ∧ AllStopped u.options s ∧ r.load = some s ∧
        r.events = before ++ closeAll (List.range u.options.connections) ∧
        opens before = List.range u.options.connections ∧ loads before = schedule ∧ closes before = []) ∧
      ∀ schedule s, Lib.run (step d u.options) (init d) schedule = some s →
        ∃ more r, run u w d (schedule ++ more) ctxErr = some r) := by
  refine ⟨?_, ?_, ?_, ?_, ?_⟩
  · intro schedule r h
    exact closes_perm_opens h
  · intro e he schedule
    exact run_invalid he
  · intro hvalid k hk hok e hfail schedule
    obtain ⟨hopens, hcloses, hloads⟩ := connectFailed_spec k e
    exact ⟨_, run_connect_fails hvalid hk hok hfail, rfl, hopens, hcloses, hloads, rfl⟩
  · intro hvalid k hk hok hconnect e hfail schedule
    obtain ⟨hopens, hcloses, hloads⟩ := prepareFailed_spec k e
    exact ⟨_, run_prepare_fails hvalid hk hok hconnect hfail, rfl, hopens, hcloses, hloads, rfl⟩
  · intro hvalid hok
    refine ⟨?_, ?_⟩
    · intro schedule r h
      obtain ⟨s, hrun, hstopped, rfl⟩ := (run_ok hvalid hok).mp h
      refine ⟨s, opening 0 u.options.connections ++ schedule.map .work, hrun, hstopped, rfl, rfl, ?_, ?_, ?_⟩
      · simp [← List.range_eq_range']
      · simp
      · simp
    · intro schedule s hrun
      exact exists_return hvalid hok hrun ctxErr

/-- A run over three connections, and a target that only counts. -/
def threeConnections : Setup := ⟨true, true, true, 3, 1000, 0, fun ns => s!"{ns}ns"⟩

def countingDeps : Deps Nat :=
  { gen := fun c i => ⟨"insert", c, [], i⟩, execute := fun n op => (n + 1, ⟨op.type, 1, .nil, none⟩), empty := 0 }

/-- The third connection cannot be prepared; without a failure, the context ends before the first operation. -/
theorem no_connection_leaks_on_three_connections :
    (∃ r, run threeConnections ⟨fun _ => none, fun i => if i = 2 then some "no table" else none⟩ countingDeps []
        none = some r ∧ r.err = some "runner: prepare 2: no table" ∧
      opens r.events = [0, 1, 2] ∧ closes r.events = [2, 0, 1] ∧ loads r.events = []) ∧
    ∃ r, run threeConnections ⟨fun _ => none, fun _ => none⟩ countingDeps [.endCtx, .stop 1, .stop 0, .stop 2]
        none = some r ∧ (closes r.events).Perm (opens r.events) := by
  refine ⟨?_, ?_⟩
  · obtain ⟨-, -, -, hprepare, -⟩ := no_connection_leaks threeConnections
      ⟨fun _ => none, fun i => if i = 2 then some "no table" else none⟩ countingDeps none
    obtain ⟨r, hr, herr, hopens, hcloses, hloads, -⟩ :=
      hprepare rfl 2 (by decide) (fun i hi => ⟨rfl, if_neg (by omega)⟩) rfl "no table" rfl []
    exact ⟨r, hr, herr.trans (by decide +kernel), hopens, hcloses, hloads⟩
  · obtain ⟨hall, -⟩ := no_connection_leaks threeConnections ⟨fun _ => none, fun _ => none⟩ countingDeps none
    exact ⟨_, rfl, (hall [.endCtx, .stop 1, .stop 0, .stop 2] _ rfl).1⟩

end Proofload.Runner.Lifecycle
