import Proofload.Verify.Register
import Proofload.Lib.Locality

/-!
# The register checker on a whole history

`CheckRegister` looks at one key at a time. For successful reads and writes with proper intervals nothing is
lost by that: the orders Porcupine finds for the keys merge into one order of the whole history.

* `checkRegister_ne_unknown` : Porcupine decides, so no verdict is unknown;
* `explains_iff` : an order explains the history exactly when the registers of all keys together accept it;
* `whole_history_pass_iff` : the verdict is pass exactly when some order explains the history, else fail.
-/

namespace Proofload.Verify
open Lib

set_option autoImplicit false

/-- The token of the latest write to `key` among `events`, zero if there is none. -/
def latestWrite (key : Int) (events : List Event) : UInt64 :=
  ((events.filter fun e => e.f = .write ∧ e.key = key).getLast?.map (·.wVal)).getD 0

/-- `order` is a total order of `events` that respects real time and in which every read returns the token of
the latest write to its key before it. -/
structure Explains (order events : List Event) : Prop where
  perm : order.Perm events
  realTime : order.Pairwise fun a b => ¬b.precedes a
  reads : ∀ pre e post, order = pre ++ e :: post → e.f = .read → e.rVal = latestWrite e.key pre

/-! ## The registers of all keys -/

/-- A write to the key is the latest one, any other event leaves the latest write alone. -/
theorem latestWrite_concat (key : Int) (events : List Event) (e : Event) :
    latestWrite key (events ++ [e]) = if e.f = .write ∧ e.key = key then e.wVal else latestWrite key events := by
  unfold latestWrite
  rw [List.filter_append]
  by_cases h : e.f = .write ∧ e.key = key
  · rw [List.filter_cons_of_pos (by simpa using h), if_pos h]
    simp
  · rw [List.filter_cons_of_neg (by simpa using h), if_neg h]
    simp

/-- What an accepted event leaves in the registers, if they held the latest writes before it. -/
theorem keyedStep_registerStep_eq_some {pre : List Event} {e : Event} {t : Int → UInt64}
    (h : keyedStep Event.key registerStep (fun k => latestWrite k pre) e = some t) :
    t = fun k => latestWrite k (pre ++ [e]) := by
  obtain ⟨st, hst, rfl⟩ := Option.map_eq_some_iff.mp h
  funext k
  rw [latestWrite_concat]
  cases hf : e.f with
  | write =>
      simp only [registerStep, hf, Option.some.injEq] at hst
      by_cases hk : e.key = k
      · subst hk
        simp [hst]
      · simp [hk, Function.update_of_ne (Ne.symm hk)]
  | read =>
      simp only [registerStep, hf] at hst
      split_ifs at hst
      obtain rfl := Option.some.inj hst
      simp
  | append =>
      simp only [registerStep, hf] at hst
      obtain rfl := Option.some.inj hst
      simp

/-- In the registers of the latest writes an event is accepted unless it is a read of another token. -/
theorem keyedStep_registerStep_isSome (pre : List Event) (e : Event) :
    (keyedStep Event.key registerStep (fun k => latestWrite k pre) e).isSome ↔
      (e.f = .read → e.rVal = latestWrite e.key pre) := by
  unfold keyedStep
  rw [Option.isSome_map]
  cases hf : e.f with
  | write => simp [registerStep, hf]
  | read =>
      simp only [registerStep, hf, forall_const]
      split_ifs with h <;> simp [h]
  | append => simp [registerStep, hf]

theorem explains_iff (order events : List Event) :
    Explains order events ↔ order.Perm events ∧ order.Pairwise (fun a b => ¬b.precedes a) ∧
      (run (keyedStep Event.key registerStep) (fun _ => 0) order).isSome := by
  have hrun : (run (keyedStep Event.key registerStep) (fun _ => 0) order).isSome ↔
      ∀ pre e post, order = pre ++ e :: post →
      (keyedStep Event.key registerStep (fun k => latestWrite k pre) e).isSome :=
    run_isSome_iff (fun pre k => latestWrite k pre) rfl (fun pre e t h => keyedStep_registerStep_eq_some h) order
  simp only [keyedStep_registerStep_isSome] at hrun
  rw [hrun]
  exact ⟨fun h => ⟨h.perm, h.realTime, h.reads⟩, fun h => ⟨h.1, h.2.1, h.2.2⟩⟩

/-- An order of the whole history exists exactly when every key linearizes by itself. -/
theorem exists_explains_iff {events : List Event} (hinterval : ∀ e ∈ events, e.invoke ≤ e.complete) :
    (∃ order, Explains order events) ↔
      ∀ k, Linearizable Event.precedes registerStep 0 (events.filter fun e => e.key = k) := by
  simp only [explains_iff]
  show Linearizable Event.precedes (keyedStep Event.key registerStep) (fun _ => 0) events ↔ _
  exact linearizable_keyedStep_iff hinterval

/-! ## The verdict -/

theorem step_sawUnknown (p : Porcupine) (h : History) (st : RegisterScan) (key : Int) :
    (st.step p h key).sawUnknown = st.sawUnknown := by
  unfold RegisterScan.step
  split_ifs
  · rfl
  · cases hcheck : p.check (registerOps (h.byKey key)) with
    | ok => rfl
    | illegal => rfl
    | unknown => exact absurd hcheck (p.decides _)

theorem foldl_sawUnknown (p : Porcupine) (h : History) (keys : List Int) (st : RegisterScan) :
    (keys.foldl (RegisterScan.step p h) st).sawUnknown = st.sawUnknown := by
  induction keys generalizing st with
  | nil => rfl
  | cons k keys ih => rw [List.foldl_cons, ih, step_sawUnknown]

theorem checkRegister_ne_unknown (p : Porcupine) (h : History) : (checkRegister p h).verdict ≠ .unknown := by
  have hscan : (h.keys.foldl (RegisterScan.step p h) ⟨false, false, 0, []⟩).sawUnknown = false :=
    foldl_sawUnknown p h h.keys _
  unfold checkRegister
  dsimp only
  rw [hscan, if_neg Bool.false_ne_true]
  split_ifs <;> simp

/-- **The whole history.** On every history of reads and writes with proper intervals, of any number of keys
and whatever their ok flags, the verdict is pass exactly when one order of all events respects real time and
explains every read; otherwise it is fail. -/
theorem whole_history_pass_iff (p : Porcupine) (h : History) (hfamily : ∀ e ∈ h.events, e.f = .read ∨ e.f = .write)
    (hinterval : ∀ e ∈ h.events, e.invoke ≤ e.complete) :
    ((checkRegister p h).verdict = .pass ↔ ∃ order, Explains order h.events) ∧
      ((¬∃ order, Explains order h.events) → (checkRegister p h).verdict = .fail) := by
  have hkeys : (∃ order, Explains order h.events) ↔ ∀ k, KeyLinearizable (h.byKey k) := by
    rw [exists_explains_iff hinterval]
    refine forall_congr' fun k => ?_
    have hall : registerEvents (h.byKey k) = h.byKey k := by
      refine List.filter_eq_self.mpr fun e he => ?_
      rcases hfamily e (List.mem_filter.mp he).1 with hf | hf <;> simp [hf]
    rw [keyLinearizable_iff, LinearizableAsRecorded, hall]
    rfl
  have hfail : (checkRegister p h).verdict = .fail ↔ ¬∃ order, Explains order h.events := by
    rw [checkRegister_fail_iff, hkeys, not_forall]
  refine ⟨?_, hfail.mpr⟩
  have hunknown := checkRegister_ne_unknown p h
  cases hverdict : (checkRegister p h).verdict with
  | pass => simpa [hverdict] using hfail
  | fail => simpa [hverdict] using hfail
  | unknown => exact absurd hverdict hunknown

/-- Writes and reads of two keys; the read of key 1 overlaps the write it does not see. -/
def twoKeys : History :=
  ⟨[{ process := 0, f := .write, key := 0, wVal := 5, rVal := 0, rList := [], invoke := 0, complete := 4, ok := true },
    { process := 1, f := .read, key := 0, wVal := 0, rVal := 5, rList := [], invoke := 1, complete := 2, ok := true },
    { process := 1, f := .write, key := 1, wVal := 7, rVal := 0, rList := [], invoke := 3, complete := 5, ok := true },
    { process := 0, f := .read, key := 1, wVal := 0, rVal := 0, rList := [], invoke := 5, complete := 6, ok := true }]⟩

theorem whole_history_pass_iff_on_two_keys :
    (checkRegister exhaustive twoKeys).verdict = .pass ∧ ∃ order, Explains order twoKeys.events := by
  have hpass : (checkRegister exhaustive twoKeys).verdict = .pass := by decide +kernel
  exact ⟨hpass, (whole_history_pass_iff exhaustive twoKeys (by decide) (by decide)).1.mp hpass⟩

end Proofload.Verify
