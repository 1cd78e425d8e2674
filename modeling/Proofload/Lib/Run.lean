import Mathlib.Data.List.Induction

/-!
# Runs of a guarded step function

A system is a partial step function `step : S → A → Option S`: `none` means the action is not
enabled. `run` folds it over a schedule, `Reachable` are the states some schedule leads to.

* `run_append` : schedules compose;
* `run_preserves` : what every step preserves, every run preserves;
* `run_trace` : the induction rule for properties of the schedule and the state it leads to;
* `Reachable.invariant` : the induction rule for safety properties, `Reachable.next` : one step more;
* `exists_reachable` : a concrete schedule exhibits a reachable state.
-/

namespace Lib

variable {S A : Type}

/-- Executes the actions of a schedule in order; `none` as soon as one is not enabled. -/
def run (step : S → A → Option S) : S → List A → Option S
  | s, [] => some s
  | s, a :: as => (step s a).bind fun t => run step t as

/-- The states that some schedule reaches from `init`. -/
def Reachable (step : S → A → Option S) (init s : S) : Prop := ∃ as, run step init as = some s

variable {step : S → A → Option S}

@[simp] theorem run_nil (s : S) : run step s [] = some s := rfl

theorem run_cons (s : S) (a : A) (as : List A) :
    run step s (a :: as) = (step s a).bind fun t => run step t as := rfl

theorem run_append (s : S) (as bs : List A) :
    run step s (as ++ bs) = (run step s as).bind fun t => run step t bs := by
  induction as generalizing s with
  | nil => rfl
  | cons a as ih =>
      rw [List.cons_append, run_cons, run_cons]
      cases step s a with
      | none => rfl
      | some t => exact ih t

theorem run_preserves {P : S → Prop} (hstep : ∀ s a t, P s → step s a = some t → P t) :
    ∀ {as : List A} {s t : S}, P s → run step s as = some t → P t := by
  intro as
  induction as with
  | nil =>
      intro s t hs h
      obtain rfl : s = t := Option.some.inj h
      exact hs
  | cons a as ih =>
      intro s t hs h
      rw [run_cons, Option.bind_eq_some_iff] at h
      obtain ⟨u, hu, h⟩ := h
      exact ih (hstep s a u hs hu) h

/-- What the empty schedule has and every enabled step carries over, every run has. -/
theorem run_trace {P : List A → S → Prop} {init : S} (hinit : P [] init)
    (hstep : ∀ as s a t, P as s → step s a = some t → P (as ++ [a]) t) {as : List A} {s : S}
    (h : run step init as = some s) : P as s := by
  induction as using List.reverseRecOn generalizing s with
  | nil =>
      obtain rfl := Option.some.inj h
      exact hinit
  | append_singleton as a ih =>
      rw [run_append, Option.bind_eq_some_iff] at h
      obtain ⟨u, hu, h⟩ := h
      rw [run_cons, Option.bind_eq_some_iff] at h
      obtain ⟨t, ht, h⟩ := h
      obtain rfl := Option.some.inj h
      exact hstep as u a t (ih hu) ht

/-- The invariant rule: `P` holds initially and is kept by every step, so it holds of every
reachable state. -/
theorem Reachable.invariant {P : S → Prop} {init s : S} (h : Reachable step init s) (hinit : P init)
    (hstep : ∀ s a t, P s → step s a = some t → P t) : P s := by
  obtain ⟨as, has⟩ := h
  exact run_preserves hstep hinit has

theorem Reachable.next {init s t : S} (h : Reachable step init s) {a : A} (ha : step s a = some t) :
    Reachable step init t := by
  obtain ⟨as, has⟩ := h
  refine ⟨as ++ [a], ?_⟩
  rw [run_append, has, Option.bind_some, run_cons, ha]
  rfl

/-- A property checked on the outcome of one schedule is met by a reachable state. -/
theorem exists_reachable {P : S → Prop} [DecidablePred P] {init : S} (as : List A)
    (h : (run step init as).any (fun s => P s) = true) : ∃ s, Reachable step init s ∧ P s := by
  cases hrun : run step init as with
  | none => simp [hrun] at h
  | some s =>
      rw [hrun, Option.any_some, decide_eq_true_eq] at h
      exact ⟨s, ⟨as, hrun⟩, h⟩

end Lib
