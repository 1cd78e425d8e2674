import Proofload.Lib.Lists
import Proofload.Nemesis.Plan

/-!
# A run of the fault scheduler (`core/nemesis/scheduler.go`)

`RunCall.run` executes a plan against a controller that may fail at every call and under a context that
may end before any action, and heals what is outstanding at the end. `Env` holds what the source leaves to
its surroundings.

* `runLoop_eq` : the loop is one pass over the executed steps;
* `mem_outstanding_of_no_heal`, `not_mem_outstanding_of_heal` : what the last steps on a node leave behind;
* `heal_attempted` : every injected fault is followed by an attempt to heal its node;
* `healed_iff` : when every injected fault is healed.
-/

namespace Proofload.Nemesis
open Lib

set_option autoImplicit false

/-! ## The loop and the cleanup -/

inductive Kind where
  | inject
  | heal
deriving DecidableEq

/-- One entry of the fault timeline. `ok` and `cleanup` are ghosts: the call returned no error, and the
call was made by `healAll`. -/
structure Event where
  at' : I64
  action : Kind
  type : String
  node : String
  err : String
  ok : Bool
  cleanup : Bool
deriving DecidableEq

/-- What a run meets: whether the wait for the `i`-th action reaches its time before the context ends, the
error of the `i`-th call of the controller, and time and error of the cleanup of a node. -/
structure Env where
  reached : Nat → Bool
  outcome : Nat → Option String
  cleanupAt : String → I64
  cleanupErr : String → Option String

def errStr (err : Option String) : String := err.getD ""

/-- The loop of `Run` over the actions from the `i`-th on. -/
def runLoop (env : Env) : Nat → List Action → List Event → Map String Node → List Event × Map String Node
  | _, [], events, outstanding => (events, outstanding)
  | i, a :: acts, events, outstanding =>
      if env.reached i = false then (events, outstanding)
      else
        let err := env.outcome i
        if a.inject then
          runLoop env (i + 1) acts
            (events ++ [{ at' := a.at', action := .inject, type := a.ft, node := a.node.id, err := errStr err,
                          ok := err.isNone, cleanup := false }])
            (if err = none then outstanding.insert a.node.id a.node else outstanding)
        else
          -- the node leaves the map also when the heal has failed
          runLoop env (i + 1) acts
            (events ++ [{ at' := a.at', action := .heal, type := "", node := a.node.id, err := errStr err,
                          ok := err.isNone, cleanup := false }])
            (outstanding.erase a.node.id)

def healAll (env : Env) (outstanding : Map String Node) (events : List Event) : List Event :=
  if outstanding.keys.length = 0 then events
  else
    let ids := outstanding.keys.insertionSort (· ≤ ·)
    events ++ ids.map fun id =>
      { at' := env.cleanupAt id, action := .heal, type := "", node := id, err := errStr (env.cleanupErr id),
        ok := (env.cleanupErr id).isNone, cleanup := true }

/-- `Run`: the fault timeline, once the plan is there. -/
def RunCall.run (c : RunCall) (env : Env) : Option (List Event) := do
  let acts ← c.plan
  let (events, outstanding) := runLoop env 0 acts [] ∅
  return healAll env outstanding events

/-! ## The executed steps -/

/-- An executed action with the error of its call. -/
structure Step where
  action : Action
  err : Option String
deriving DecidableEq

/-- The actions before the first one whose time is not reached, with the errors of their calls. -/
def executed (env : Env) : Nat → List Action → List Step
  | _, [] => []
  | i, a :: acts =>
      if env.reached i = false then [] else { action := a, err := env.outcome i } :: executed env (i + 1) acts

/-- The step injected a fault into node `n`. -/
def Step.Injects (n : String) (x : Step) : Prop := x.action.inject = true ∧ x.err = none ∧ x.action.node.id = n

/-- The step tried to heal node `n`. -/
def Step.TriesHeal (n : String) (x : Step) : Prop := x.action.inject = false ∧ x.action.node.id = n

/-- The step healed node `n`. -/
def Step.Heals (n : String) (x : Step) : Prop := x.TriesHeal n ∧ x.err = none

instance (n : String) : DecidablePred (Step.Injects n) := fun x =>
  inferInstanceAs (Decidable (x.action.inject = true ∧ x.err = none ∧ x.action.node.id = n))

instance (n : String) : DecidablePred (Step.TriesHeal n) := fun x =>
  inferInstanceAs (Decidable (x.action.inject = false ∧ x.action.node.id = n))

instance (n : String) : DecidablePred (Step.Heals n) := fun x =>
  inferInstanceAs (Decidable (x.TriesHeal n ∧ x.err = none))

def Step.event (x : Step) : Event :=
  { at' := x.action.at', action := if x.action.inject then .inject else .heal,
    type := if x.action.inject then x.action.ft else "", node := x.action.node.id, err := errStr x.err,
    ok := x.err.isNone, cleanup := false }

/-- What one step does to the outstanding nodes. -/
def Step.track (outstanding : Map String Node) (x : Step) : Map String Node :=
  if x.action.inject then
    if x.err = none then outstanding.insert x.action.node.id x.action.node else outstanding
  else outstanding.erase x.action.node.id

theorem runLoop_eq (env : Env) (i : Nat) (acts : List Action) (events : List Event) (outstanding : Map String Node) :
    runLoop env i acts events outstanding =
      (events ++ (executed env i acts).map Step.event, (executed env i acts).foldl Step.track outstanding) := by
  induction acts generalizing i events outstanding with
  | nil => simp [runLoop, executed]
  | cons a acts ih =>
      simp only [runLoop, executed]
      split_ifs with hreached hinject herr
      · simp
      all_goals
        rw [ih, List.map_cons, List.foldl_cons, List.append_assoc]
        simp [Step.event, Step.track, *]

/-! ## Outstanding nodes -/

theorem track_keys (outstanding : Map String Node) (x : Step) (n : String) :
    n ∈ (x.track outstanding).keys ↔ x.Injects n ∨ (n ∈ outstanding.keys ∧ ¬ x.TriesHeal n) := by
  simp only [Map.mem_keys_iff, Step.track, Step.Injects, Step.TriesHeal]
  cases hinject : x.action.inject with
  | false =>
      simp only [Bool.false_eq_true, if_false, Map.lookup_erase_eq]
      split_ifs with h
      · simp [h]
      · simp [Ne.symm h]
  | true =>
      by_cases herr : x.err = none
      · simp only [if_true, if_pos herr, Map.lookup_insert_eq]
        split_ifs with h
        · simp [h, herr]
        · simp [Ne.symm h]
      · simp [herr]

theorem mem_outstanding_of_no_heal {n : String} {steps : List Step} (hno : ∀ x ∈ steps, ¬ x.TriesHeal n)
    {outstanding : Map String Node} (h : n ∈ outstanding.keys ∨ ∃ x ∈ steps, x.Injects n) :
    n ∈ (steps.foldl Step.track outstanding).keys := by
  induction steps generalizing outstanding with
  | nil => simpa using h
  | cons x steps ih =>
      rw [List.forall_mem_cons] at hno
      rw [List.exists_mem_cons_iff] at h
      refine ih hno.2 ?_
      rw [track_keys]
      tauto

/-- A node that a step tries to heal, and no step injects a fault into, is not outstanding. -/
theorem not_mem_outstanding_of_heal {n : String} {steps : List Step} (hno : ∀ x ∈ steps, ¬ x.Injects n)
    {outstanding : Map String Node} (h : n ∉ outstanding.keys ∨ ∃ x ∈ steps, x.TriesHeal n) :
    n ∉ (steps.foldl Step.track outstanding).keys := by
  induction steps generalizing outstanding with
  | nil => simpa using h
  | cons x steps ih =>
      rw [List.forall_mem_cons] at hno
      rw [List.exists_mem_cons_iff] at h
      refine ih hno.2 ?_
      rw [track_keys]
      tauto

/-- The events of the cleanup. -/
def cleanupEvents (env : Env) (outstanding : Map String Node) : List Event :=
  (outstanding.keys.insertionSort (· ≤ ·)).map fun id =>
    { at' := env.cleanupAt id, action := .heal, type := "", node := id, err := errStr (env.cleanupErr id),
      ok := (env.cleanupErr id).isNone, cleanup := true }

theorem healAll_eq (env : Env) (outstanding : Map String Node) (events : List Event) :
    healAll env outstanding events = events ++ cleanupEvents env outstanding := by
  unfold healAll
  split_ifs with h
  · rw [cleanupEvents, List.length_eq_zero_iff.mp h]
    simp
  · rfl

theorem mem_cleanupEvents {env : Env} {outstanding : Map String Node} {e : Event}
    (h : e ∈ cleanupEvents env outstanding) : e.action = .heal ∧ e.cleanup ∧ e.node ∈ outstanding.keys := by
  obtain ⟨id, hid, rfl⟩ := List.mem_map.mp h
  exact ⟨rfl, rfl, (List.mem_insertionSort _).mp hid⟩

theorem exists_cleanupEvent (env : Env) {outstanding : Map String Node} {n : String} (h : n ∈ outstanding.keys) :
    ∃ e ∈ cleanupEvents env outstanding, e.action = .heal ∧ e.node = n ∧ e.cleanup :=
  ⟨_, List.mem_map.mpr ⟨n, (List.mem_insertionSort _).mpr h, rfl⟩, rfl, rfl, rfl⟩

/-! ## Every fault is healed -/

/-- Every successful injection is followed by a heal of the node that succeeded or was part of the cleanup. -/
def EveryFaultHealed (events : List Event) : Prop :=
  ∀ pre e post, events = pre ++ e :: post → e.action = .inject → e.ok →
    ∃ h ∈ post, h.action = .heal ∧ h.node = e.node ∧ (h.ok ∨ h.cleanup)

/-- After the last injection into a node no attempt to heal it was made, or one succeeded. -/
def LastHealsSucceed (steps : List Step) : Prop :=
  ∀ n pre x post, steps = pre ++ x :: post → x.Injects n → (∀ y ∈ post, ¬ y.Injects n) →
    (∃ y ∈ post, y.TriesHeal n) → ∃ y ∈ post, y.Heals n

theorem event_inject {x : Step} {n : String} :
    x.Injects n ↔ x.event.action = .inject ∧ x.event.ok ∧ x.event.node = n := by
  cases h : x.action.inject <;> simp [Step.Injects, Step.event, h]

theorem event_heals {x : Step} {n : String} :
    x.Heals n ↔ x.event.action = .heal ∧ x.event.node = n ∧ x.event.ok := by
  cases h : x.action.inject <;> simp [Step.Heals, Step.TriesHeal, Step.event, h]

theorem split_at_inject {steps : List Step} {cleanup pre post : List Event} {e : Event}
    (hcleanup : ∀ h ∈ cleanup, h.action = .heal) (h : steps.map Step.event ++ cleanup = pre ++ e :: post)
    (he : e.action = .inject) :
    ∃ before x after, steps = before ++ x :: after ∧ e = x.event ∧ post = after.map Step.event ++ cleanup := by
  rcases List.append_eq_append_iff.mp h with ⟨mid, rfl, hmid⟩ | ⟨mid, hsteps, hmid⟩
  · have := hcleanup e (by simp [hmid])
    rw [he] at this
    cases this
  · cases mid with
    | nil =>
        have := hcleanup e (by rw [← List.nil_append cleanup, ← hmid]; exact List.mem_cons_self)
        rw [he] at this
        cases this
    | cons e' mid =>
        obtain ⟨rfl, rfl⟩ := List.cons.inj hmid
        obtain ⟨before, rest, rfl, rfl, hrest⟩ := List.map_eq_append_iff.mp hsteps
        obtain ⟨x, after, rfl, rfl, rfl⟩ := List.map_eq_cons_iff.mp hrest
        exact ⟨before, x, after, rfl, rfl, rfl⟩

/-- After a successful injection the node is asked to heal, by a scheduled action or by the cleanup. -/
theorem heal_attempted {c : RunCall} {env : Env} {events pre post : List Event} {e : Event}
    (hrun : c.run env = some events) (hsplit : events = pre ++ e :: post) (he : e.action = .inject) (hok : e.ok) :
    ∃ h ∈ post, h.action = .heal ∧ h.node = e.node := by
  obtain ⟨acts, -, hevents⟩ := Option.bind_eq_some_iff.mp hrun
  simp only [runLoop_eq, healAll_eq] at hevents
  obtain rfl := Option.some.inj hevents
  obtain ⟨before, x, after, hsteps, rfl, rfl⟩ := split_at_inject (fun h hh => (mem_cleanupEvents hh).1) hsplit he
  have hx : x.Injects x.event.node := event_inject.mpr ⟨he, hok, rfl⟩
  by_cases htried : ∃ y ∈ after, y.TriesHeal x.event.node
  · obtain ⟨y, hy, hheal, hnode⟩ := htried
    refine ⟨y.event, List.mem_append_left _ (List.mem_map_of_mem hy), ?_, hnode⟩
    simp [Step.event, hheal]
  · have hno : ∀ y ∈ after, ¬ y.TriesHeal x.event.node := fun y hy h => htried ⟨y, hy, h⟩
    have hout : x.event.node ∈ (after.foldl Step.track (x.track (before.foldl Step.track ∅))).keys :=
      mem_outstanding_of_no_heal hno (Or.inl ((track_keys _ _ _).mpr (Or.inl hx)))
    obtain ⟨h, hh, hheal, hnode, -⟩ := exists_cleanupEvent env hout
    refine ⟨h, List.mem_append_right _ ?_, hheal, hnode⟩
    rw [hsteps, List.foldl_append, List.foldl_cons]
    exact hh

/-- **Every fault is healed** exactly if, for every node, some heal after the last successful injection
succeeded or none was tried: a failed heal takes the node off the outstanding map all the same. -/
theorem healed_iff {c : RunCall} {acts : List Action} (hplan : c.plan = some acts) (env : Env) :
    ∃ events, c.run env = some events ∧ (EveryFaultHealed events ↔ LastHealsSucceed (executed env 0 acts)) := by
  have hrun : c.run env = some ((executed env 0 acts).map Step.event ++
      cleanupEvents env ((executed env 0 acts).foldl Step.track ∅)) := by
    simp only [RunCall.run, hplan, runLoop_eq, healAll_eq]
    rfl
  refine ⟨_, hrun, ?_⟩
  generalize executed env 0 acts = steps
  constructor
  · rintro hall n pre x post rfl hx hlast htried
    obtain ⟨hinject, hok, rfl⟩ := event_inject.mp hx
    obtain ⟨h, hmem, hheal, hnode, hgood⟩ := hall (pre.map Step.event) x.event (post.map Step.event ++
      cleanupEvents env ((pre ++ x :: post).foldl Step.track ∅)) (by simp) hinject hok
    rcases List.mem_append.mp hmem with hmem | hmem
    · obtain ⟨y, hy, rfl⟩ := List.mem_map.mp hmem
      refine ⟨y, hy, event_heals.mpr ⟨hheal, hnode, ?_⟩⟩
      simpa [Step.event] using hgood
    · have hout := (mem_cleanupEvents hmem).2.2
      rw [hnode, List.foldl_append, List.foldl_cons] at hout
      exact absurd hout (not_mem_outstanding_of_heal hlast (Or.inr htried))
  · intro hlasts pre e post hsplit he hok
    obtain ⟨before, x, after, rfl, rfl, rfl⟩ := split_at_inject (fun h hh => (mem_cleanupEvents hh).1) hsplit he
    have hx : ∃ y ∈ x :: after, y.Injects x.event.node := ⟨x, List.mem_cons_self, event_inject.mpr ⟨he, hok, rfl⟩⟩
    obtain ⟨skipped, last, rest, hrest, hinj, hnone⟩ := exists_last hx
    have hsub : ∀ y ∈ rest, y ∈ after := by
      intro y hy
      cases skipped with
      | nil => exact (List.cons.inj hrest).2 ▸ hy
      | cons z skipped =>
          rw [(List.cons.inj hrest).2]
          exact List.mem_append_right _ (List.mem_cons_of_mem _ hy)
    by_cases htried : ∃ y ∈ rest, y.TriesHeal x.event.node
    · obtain ⟨y, hy, hheals⟩ := hlasts _ (before ++ skipped) last rest (by simp [hrest]) hinj hnone htried
      obtain ⟨hheal, hnode, hok⟩ := event_heals.mp hheals
      exact ⟨y.event, List.mem_append_left _ (List.mem_map_of_mem (hsub y hy)), hheal, hnode, Or.inl hok⟩
    · have hno : ∀ y ∈ rest, ¬ y.TriesHeal x.event.node := fun y hy h => htried ⟨y, hy, h⟩
      have hout : x.event.node ∈ ((before ++ x :: after).foldl Step.track ∅).keys := by
        rw [hrest, ← List.append_assoc, List.foldl_append, List.foldl_cons]
        exact mem_outstanding_of_no_heal hno (Or.inl ((track_keys _ _ _).mpr (Or.inl hinj)))
      obtain ⟨h, hh, hheal, hnode, hclean⟩ := exists_cleanupEvent env hout
      exact ⟨h, List.mem_append_right _ hh, hheal, hnode, Or.inr hclean⟩

/-- A call of `Run` for the plan `killOnce`: one fault at 5s on one node, to be healed at 7s. -/
def killCall : RunCall :=
  { sched := { nodes := [bareNode "n1"], seed := 7 }, deadline := none, specs := [everyTenSeconds] }

/-- The context is cancelled while the scheduled heal runs, so the heal fails. -/
def cancelledHeal : Env :=
  { reached := fun _ => true
    outcome := fun i => if i = 1 then some "signal: killed" else none
    cleanupAt := fun _ => 7000000000
    cleanupErr := fun _ => none }

/-- The timeline of the run. -/
def failedHeal : List Event :=
  [{ at' := 5000000000, action := .inject, type := "kill-node", node := "n1", err := "", ok := true, cleanup := false },
    { at' := 7000000000, action := .heal, type := "", node := "n1", err := "signal: killed", ok := false,
      cleanup := false }]

/-- After a scheduled heal that failed nothing heals the node any more. -/
theorem failed_heal_not_retried : killCall.run cancelledHeal = some failedHeal ∧ ¬ EveryFaultHealed failedHeal := by
  refine ⟨by decide +kernel, fun h => ?_⟩
  have hhealed := h [] _ _ rfl rfl rfl
  revert hhealed
  decide +kernel

/-- The context is cancelled before the scheduled heal. -/
def cancelledEarly : Env := { cancelledHeal with reached := fun i => i = 0 }

/-- The cleanup heals the node when the scheduled heal was never reached. -/
theorem healed_iff_on_early_cancel :
    ∃ events, killCall.run cancelledEarly = some events ∧ EveryFaultHealed events := by
  have hplan : killCall.plan = some killOnce := by decide +kernel
  obtain ⟨events, hrun, hiff⟩ := healed_iff hplan cancelledEarly
  refine ⟨events, hrun, hiff.mpr ?_⟩
  rintro n pre x post hsplit - - ⟨y, hy, -⟩
  have hlength := congrArg List.length hsplit
  have hpost := List.length_pos_of_mem hy
  rw [List.length_append, List.length_cons, show (executed cancelledEarly 0 killOnce).length = 1 by decide] at hlength
  omega

end Proofload.Nemesis
