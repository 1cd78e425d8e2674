import Proofload.Verify.History
import Proofload.Lib.Linearizability
import Proofload.Lib.Lists
import Mathlib.Data.List.Sort

/-!
# The register checker (`core/verify/porcupine.go`)

`checkRegister` turns the events of every key into operations of a read/write register and asks
Porcupine, which `Porcupine` describes as an exact decision of linearizability.

* `checkRegister_fail_iff` : the verdict is fail exactly when the operations of some key are not
  linearizable;
* `keyLinearizable_iff` : in terms of the events themselves, with failed events standing for
  successful ones;
* `failed_events_iff` : which failed events leave the verdict alone.
-/

namespace Proofload.Verify
open Lib

set_option autoImplicit false

/-! ## Histories -/

/-- A parsed history: the recorded events in file order. -/
structure History where
  events : List Event

def History.byKey (h : History) (k : Int) : List Event := h.events.filter fun e => e.key = k

/-- The distinct keys, ascending. -/
def History.keys (h : History) : List Int := (h.events.map (·.key)).dedup.insertionSort (· ≤ ·)

theorem History.mem_keys (h : History) (k : Int) : k ∈ h.keys ↔ h.byKey k ≠ [] := by
  unfold History.keys History.byKey
  rw [List.mem_insertionSort, List.mem_dedup]
  simp [List.filter_eq_nil_iff]

/-! ## Porcupine -/

/-- `porcupine.Model`: an initial state and a step that tells whether it is legal. -/
structure Model (σ ι ο : Type) where
  init : σ
  step : σ → ι → ο → Bool × σ

/-- `porcupine.Operation`. -/
structure PorcOp (ι ο : Type) where
  clientId : Nat
  input : ι
  output : ο
  call : Int
  ret : Int
deriving DecidableEq

def Model.apply {σ ι ο : Type} (m : Model σ ι ο) (s : σ) (op : PorcOp ι ο) : Option σ :=
  if (m.step s op.input op.output).1 then some (m.step s op.input op.output).2 else none

/-- The first operation returned before the second one was called. -/
def PorcOp.precedes {ι ο : Type} (a b : PorcOp ι ο) : Prop := a.ret < b.call

instance {ι ο : Type} : DecidableRel (PorcOp.precedes (ι := ι) (ο := ο)) := fun a b =>
  inferInstanceAs (Decidable (a.ret < b.call))

inductive CheckResult where
  | ok
  | illegal
  | unknown
deriving DecidableEq

structure RegInput where
  write : Bool
  key : Int
  value : UInt64
deriving DecidableEq

/-- A single register whose state is the last written token, zero when never written. -/
def registerModel : Model UInt64 RegInput UInt64 where
  init := 0
  step st inp out := if inp.write then (true, inp.value) else (out == st, st)

/-- Porcupine on the register model: it answers within the timeout, and answers ok exactly on the
linearizable operation lists. -/
structure Porcupine where
  check : List (PorcOp RegInput UInt64) → CheckResult
  check_ok : ∀ ops, check ops = .ok ↔ Linearizable PorcOp.precedes registerModel.apply registerModel.init ops
  decides : ∀ ops, check ops ≠ .unknown

/-- The exhaustive search over all arrangements. -/
def exhaustive : Porcupine where
  check ops := if Linearizable PorcOp.precedes registerModel.apply registerModel.init ops then .ok else .illegal
  check_ok ops := by simp
  decides ops := by split <;> simp

/-! ## The checker -/

/-- Writes become puts and reads become gets of the observed token; appends are left out. -/
def registerOp (e : Event) : Option (PorcOp RegInput UInt64) :=
  match e.f with
  | .write =>
      some { clientId := e.process, input := ⟨true, e.key, e.wVal⟩, output := 0, call := e.invoke, ret := e.complete }
  | .read =>
      some { clientId := e.process, input := ⟨false, e.key, 0⟩, output := e.rVal, call := e.invoke, ret := e.complete }
  | .append => none

def registerOps (events : List Event) : List (PorcOp RegInput UInt64) := events.filterMap registerOp

def witnessCap : Nat := 32

/-- The trace of a broken key, cut off behind `witnessCap` operations. -/
def registerWitness (key : Int) (events : List Event) : List String :=
  go [s!"key={key}"] events
where
  go (out : List String) : List Event → List String
    | [] => out
    | e :: es =>
        if out.length > witnessCap then out ++ ["..."]
        else match e.f with
          | .write => go (out ++ [s!"p{e.process}:w{e.wVal}@[{e.invoke},{e.complete}]"]) es
          | .read => go (out ++ [s!"p{e.process}:r{e.rVal}@[{e.invoke},{e.complete}]"]) es
          | .append => go out es

/-- The accumulators of the per-key loop. -/
structure RegisterScan where
  sawIllegal : Bool
  sawUnknown : Bool
  orderingViol : Int
  anomalies : List Anomaly

def RegisterScan.step (p : Porcupine) (h : History) (st : RegisterScan) (key : Int) : RegisterScan :=
  if registerOps (h.byKey key) = [] then st
  else match p.check (registerOps (h.byKey key)) with
    | .ok => st
    | .illegal =>
        { st with
          sawIllegal := true
          orderingViol := st.orderingViol + 1
          anomalies := st.anomalies ++ [⟨"non-linearizable", s!"key {key} register history is not linearizable",
            registerWitness key (h.byKey key)⟩] }
    | .unknown =>
        { st with
          sawUnknown := true
          anomalies := st.anomalies ++ [⟨"unknown", s!"key {key} linearizability check timed out after 5s",
            [s!"key={key}"]⟩] }

/-- `CheckRegister`. -/
def checkRegister (p : Porcupine) (h : History) : VerifyReport :=
  let st := h.keys.foldl (RegisterScan.step p h) ⟨false, false, 0, []⟩
  { model := .register
    verdict := if st.sawIllegal then .fail else if st.sawUnknown then .unknown else .pass
    anomalies := st.anomalies
    checked := h.keys.length
    lost := 0
    duplicated := 0
    orderingViol := st.orderingViol }

/-- The operations of a key can be linearized. -/
def KeyLinearizable (events : List Event) : Prop :=
  Linearizable PorcOp.precedes registerModel.apply registerModel.init (registerOps events)

theorem keyLinearizable_of_nil {events : List Event} (h : registerOps events = []) : KeyLinearizable events := by
  unfold KeyLinearizable
  rw [h]
  exact ⟨[], List.Perm.refl _, List.Pairwise.nil, rfl⟩

theorem Porcupine.check_illegal (p : Porcupine) (events : List Event) :
    p.check (registerOps events) = .illegal ↔ ¬KeyLinearizable events := by
  unfold KeyLinearizable
  rw [← p.check_ok]
  cases h : p.check (registerOps events) with
  | ok => simp
  | illegal => simp
  | unknown => exact absurd h (p.decides _)

theorem step_sawIllegal (p : Porcupine) (h : History) (st : RegisterScan) (key : Int) :
    (st.step p h key).sawIllegal = true ↔ st.sawIllegal = true ∨ ¬KeyLinearizable (h.byKey key) := by
  unfold RegisterScan.step
  split_ifs with hnil
  · simp [keyLinearizable_of_nil hnil]
  · rw [← p.check_illegal]
    cases p.check (registerOps (h.byKey key)) <;> simp

theorem foldl_sawIllegal (p : Porcupine) (h : History) (keys : List Int) (st : RegisterScan) :
    (keys.foldl (RegisterScan.step p h) st).sawIllegal = true ↔
      st.sawIllegal = true ∨ ∃ k ∈ keys, ¬KeyLinearizable (h.byKey k) := by
  induction keys generalizing st with
  | nil => simp
  | cons k keys ih =>
      rw [List.foldl_cons, ih, step_sawIllegal, or_assoc]
      simp

/-- **The verdict.** It is fail exactly when the operations of some key cannot be linearized. -/
theorem checkRegister_fail_iff (p : Porcupine) (h : History) :
    (checkRegister p h).verdict = .fail ↔ ∃ k, ¬KeyLinearizable (h.byKey k) := by
  have hscan := foldl_sawIllegal p h h.keys ⟨false, false, 0, []⟩
  have hkeys : (∃ k ∈ h.keys, ¬KeyLinearizable (h.byKey k)) ↔ ∃ k, ¬KeyLinearizable (h.byKey k) := by
    refine ⟨fun ⟨k, _, hk⟩ => ⟨k, hk⟩, fun ⟨k, hk⟩ => ⟨k, (h.mem_keys k).mpr fun hnil => hk ?_, hk⟩⟩
    rw [hnil]
    exact keyLinearizable_of_nil rfl
  rw [hkeys, or_iff_right (by simp)] at hscan
  rw [← hscan]
  unfold checkRegister
  dsimp only
  split_ifs with hillegal hunknown <;> simp [hillegal]

/-! ## Histories with failed events -/

/-- The first event completed before the second one was invoked. -/
def Event.precedes (a b : Event) : Prop := a.complete < b.invoke

instance : DecidableRel Event.precedes := fun a b => inferInstanceAs (Decidable (a.complete < b.invoke))

/-- The register on events: a write sets the token, a read has to observe it. -/
def registerStep (st : UInt64) (e : Event) : Option UInt64 :=
  match e.f with
  | .write => some e.wVal
  | .read => if e.rVal = st then some st else none
  | .append => some st

/-- The register events of a key. -/
def registerEvents (events : List Event) : List Event := events.filter fun e => e.f ≠ .append

/-- The events of a key linearize with every failed event taken for a successful one: a failed write
takes effect inside its interval, a failed read observes its recorded token. -/
def LinearizableAsRecorded (events : List Event) : Prop :=
  Linearizable Event.precedes registerStep 0 (registerEvents events)

instance (events : List Event) : Decidable (LinearizableAsRecorded events) :=
  inferInstanceAs (Decidable (Linearizable Event.precedes registerStep 0 (registerEvents events)))

/-- The successful events of a key linearize together with some of the failed writes, each of them at
any point after its invocation; failed reads are left out. -/
def Admissible (events : List Event) : Prop :=
  ∃ kept : List Event, kept.Sublist (registerEvents events) ∧
    kept.filter (·.ok) = (registerEvents events).filter (·.ok) ∧ (∀ e ∈ kept, e.ok ∨ e.f = .write) ∧
    Linearizable (fun a b => a.ok ∧ a.precedes b) registerStep 0 kept

/-- The operation of a register event. -/
def toOp (e : Event) : PorcOp RegInput UInt64 :=
  if e.f = .write then
    { clientId := e.process, input := ⟨true, e.key, e.wVal⟩, output := 0, call := e.invoke, ret := e.complete }
  else { clientId := e.process, input := ⟨false, e.key, 0⟩, output := e.rVal, call := e.invoke, ret := e.complete }

theorem registerOps_eq_map (events : List Event) : registerOps events = (registerEvents events).map toOp := by
  induction events with
  | nil => rfl
  | cons e events ih =>
      unfold registerOps registerEvents at *
      cases hf : e.f <;> simp [registerOp, hf, ih, toOp]

theorem keyLinearizable_iff (events : List Event) : KeyLinearizable events ↔ LinearizableAsRecorded events := by
  unfold KeyLinearizable
  rw [registerOps_eq_map]
  refine linearizable_map (fun a _ b _ => ?_) fun st e he => ?_
  · unfold PorcOp.precedes Event.precedes toOp
    split_ifs <;> rfl
  · have happend : e.f ≠ .append := by simpa using (List.mem_filter.mp he).2
    cases hf : e.f with
    | write => simp [Model.apply, registerModel, toOp, registerStep, hf]
    | read => simp [Model.apply, registerModel, toOp, registerStep, hf]
    | append => exact absurd hf happend

theorem admissible_iff_of_all_ok {events : List Event} (hok : ∀ e ∈ registerEvents events, e.ok) :
    Admissible events ↔ LinearizableAsRecorded events := by
  have hsame : Linearizable (fun a b => a.ok ∧ a.precedes b) registerStep 0 (registerEvents events) ↔
      LinearizableAsRecorded events := linearizable_congr fun a ha b _ => and_iff_right (hok a ha)
  rw [← hsame]
  constructor
  · rintro ⟨kept, hsub, hall, -, hlin⟩
    rw [List.filter_eq_self.mpr hok, List.filter_eq_self.mpr fun e he => hok e (hsub.subset he)] at hall
    rwa [hall] at hlin
  · exact fun hlin => ⟨_, List.Sublist.refl _, rfl, fun e he => Or.inl (hok e he), hlin⟩

/-! ### A history around given failed events -/

def History.failed (h : History) : List Event := h.events.filter fun e => !e.ok

/-- A successful write of a token at one instant. -/
def writeAt (k : Int) (x : UInt64) (t : Int) : Event :=
  { process := 0, f := .write, key := k, wVal := x, rVal := 0, rList := [], invoke := t, complete := t, ok := true }

/-- A successful read of a token at one instant. -/
def readAt (k : Int) (x : UInt64) (t : Int) : Event :=
  { process := 0, f := .read, key := k, wVal := 0, rVal := x, rList := [], invoke := t, complete := t, ok := true }

/-- The events `bad` between a write of the token `x` and a read that observes it. -/
def surround (k : Int) (x : UInt64) (t t' : Int) (bad : List Event) : History :=
  ⟨writeAt k x t :: bad ++ [readAt k x t']⟩

section Surround
variable {bad : List Event} {k : Int} {x : UInt64} {t t' : Int}

theorem surround_failed (hbad : ∀ e ∈ bad, e.ok = false) : (surround k x t t' bad).failed = bad := by
  have hall : bad.filter (fun e => !e.ok) = bad := List.filter_eq_self.mpr fun e he => by simp [hbad e he]
  simp [surround, History.failed, writeAt, readAt, hall]

theorem registerEvents_surround_same :
    registerEvents ((surround k x t t' bad).byKey k) =
      (writeAt k x t :: registerEvents (bad.filter fun e => e.key = k)) ++ [readAt k x t'] := by
  simp [surround, History.byKey, registerEvents, writeAt, readAt]

theorem byKey_surround_other {j : Int} (hj : j ≠ k) :
    (surround k x t t' bad).byKey j = bad.filter fun e => e.key = j := by
  simp [surround, History.byKey, writeAt, readAt, hj.symm]

theorem admissible_surround (hbad : ∀ e ∈ bad, e.ok = false) (htimes : t < t') (j : Int) :
    Admissible ((surround k x t t' bad).byKey j) := by
  have hnone : ∀ j, (registerEvents (bad.filter fun e => e.key = j)).filter (·.ok) = [] := by
    intro j
    apply List.filter_eq_nil_iff.mpr
    intro e he
    simp [hbad e (List.mem_filter.mp (List.mem_filter.mp he).1).1]
  by_cases hj : j = k
  · subst hj
    refine ⟨[writeAt j x t, readAt j x t'], ?_, ?_, by simp [writeAt, readAt], ?_⟩
    · rw [registerEvents_surround_same]
      exact List.Sublist.cons_cons _ (List.sublist_append_right _ _)
    · rw [registerEvents_surround_same]
      simp [writeAt, readAt, hnone]
    · refine ⟨_, List.Perm.refl _, ?_, by simp [run_cons, registerStep, writeAt, readAt, run_nil]⟩
      simp [writeAt, readAt, Event.precedes]
      omega
  · refine ⟨[], List.nil_sublist _, ?_, by simp, [], List.Perm.refl _, List.Pairwise.nil, rfl⟩
    rw [byKey_surround_other hj, hnone]
    rfl

/-- Behind events that neither write nor observe `x` the register does not hold `x`. -/
theorem run_registerStep_ne {l : List Event} (hne : l ≠ [])
    (hfresh : ∀ e ∈ l, e.f ≠ .append ∧ e.wVal ≠ x ∧ e.rVal ≠ x) {st st' : UInt64}
    (h : run registerStep st l = some st') : st' ≠ x := by
  obtain ⟨l, e, rfl⟩ := (List.eq_nil_or_concat l).resolve_left hne
  rw [List.concat_eq_append] at h hfresh
  rw [run_concat, Option.bind_eq_some_iff] at h
  obtain ⟨mid, -, hlast⟩ := h
  obtain ⟨happend, hw, hr⟩ := hfresh e (by simp)
  unfold registerStep at hlast
  cases hf : e.f with
  | write =>
      rw [hf] at hlast
      exact Option.some.inj hlast ▸ hw
  | read =>
      rw [hf] at hlast
      dsimp only at hlast
      split_ifs at hlast with hseen
      rw [← Option.some.inj hlast, ← hseen]
      exact hr
  | append => exact absurd hf happend

/-- As recorded, the failed events come in between: the read cannot observe `x` any more. -/
theorem not_linearizable_surround (hbefore : ∀ e ∈ bad, t < e.invoke) (hafter : ∀ e ∈ bad, e.complete < t')
    (htimes : t < t') (hfresh : ∀ e ∈ bad, e.wVal ≠ x ∧ e.rVal ≠ x) (hany : ∃ e ∈ bad, e.key = k ∧ e.f ≠ .append) :
    ¬LinearizableAsRecorded ((surround k x t t' bad).byKey k) := by
  unfold LinearizableAsRecorded
  rw [registerEvents_surround_same]
  rintro ⟨l, hperm, horder, hlegal⟩
  have hmem : ∀ e ∈ registerEvents (bad.filter fun e => e.key = k), e ∈ bad ∧ e.f ≠ .append := by
    intro e he
    obtain ⟨he, hf⟩ := List.mem_filter.mp he
    exact ⟨(List.mem_filter.mp he).1, by simpa using hf⟩
  have hlast : ∀ e ∈ writeAt k x t :: registerEvents (bad.filter fun e => e.key = k), e.precedes (readAt k x t') := by
    rw [List.forall_mem_cons]
    exact ⟨htimes, fun e he => hafter e (hmem e he).1⟩
  obtain ⟨l, rfl, hfront⟩ :=
    eq_concat_of_precedes (hperm.trans (List.perm_append_singleton (readAt k x t') _)) horder hlast
  obtain ⟨mid, rfl, hmid⟩ := eq_cons_of_precedes hfront (List.pairwise_append.mp horder).1
    (fun e he => hbefore e (hmem e he).1)
  have hne : mid ≠ [] := by
    rintro rfl
    obtain ⟨e, he, hkey, hf⟩ := hany
    have : e ∈ registerEvents (bad.filter fun e => e.key = k) :=
      List.mem_filter.mpr ⟨List.mem_filter.mpr ⟨he, by simpa using hkey⟩, by simpa using hf⟩
    rw [← hmid.mem_iff] at this
    cases this
  rw [run_concat] at hlegal
  cases hrun : run registerStep 0 (writeAt k x t :: mid) with
  | none => simp [hrun] at hlegal
  | some st =>
      have hst : st ≠ x := by
        rw [run_cons] at hrun
        exact run_registerStep_ne hne (fun e he => ⟨(hmem e (hmid.mem_iff.mp he)).2,
          hfresh e (hmem e (hmid.mem_iff.mp he)).1⟩) hrun
      simp [hrun, registerStep, readAt, hst.symm] at hlegal

end Surround

theorem exists_around (bad : List Event) : ∃ t t', t < t' ∧ ∀ e ∈ bad, t < e.invoke ∧ e.complete < t' := by
  induction bad with
  | nil => exact ⟨0, 1, by decide, by simp⟩
  | cons e bad ih =>
      obtain ⟨t, t', htimes, hall⟩ := ih
      refine ⟨min t (e.invoke - 1), max t' (e.complete + 1), by omega, ?_⟩
      rw [List.forall_mem_cons]
      refine ⟨by omega, fun e' he' => ?_⟩
      have := hall e' he'
      omega

theorem exists_fresh_token {bad : List Event} (hlength : bad.length < 2 ^ 63) :
    ∃ x, ∀ e ∈ bad, e.wVal ≠ x ∧ e.rVal ≠ x := by
  obtain ⟨n, hn, hfresh⟩ := exists_lt_notMem (n := 2 ^ 64)
    (l := bad.map (·.wVal.toNat) ++ bad.map (·.rVal.toNat)) (by simp; omega)
  have hn' : (UInt64.ofNat n).toNat = n := UInt64.toNat_ofNat_of_lt' hn
  refine ⟨UInt64.ofNat n, fun e he => ⟨?_, ?_⟩⟩
  · rintro h
    exact hfresh (List.mem_append_left _ (List.mem_map.mpr ⟨e, he, by rw [h, hn']⟩))
  · rintro h
    exact hfresh (List.mem_append_right _ (List.mem_map.mpr ⟨e, he, by rw [h, hn']⟩))

/-- **Failed events.** Whatever the successful events are, admissibility of every key spares the history a fail verdict
exactly if none of its failed events is a read or a write. -/
theorem failed_events_iff (p : Porcupine) {bad : List Event} (hbad : ∀ e ∈ bad, e.ok = false)
    (hlength : bad.length < 2 ^ 63) :
    (∀ h : History, h.failed = bad → (∀ k, Admissible (h.byKey k)) → (checkRegister p h).verdict ≠ .fail) ↔
      ∀ e ∈ bad, e.f = .append := by
  simp only [ne_eq, checkRegister_fail_iff, not_exists, not_not, keyLinearizable_iff]
  constructor
  · intro hspared
    by_contra hsome
    push Not at hsome
    obtain ⟨e, he, hf⟩ := hsome
    obtain ⟨x, hfresh⟩ := exists_fresh_token hlength
    obtain ⟨t, t', htimes, haround⟩ := exists_around bad
    exact not_linearizable_surround (k := e.key) (fun e he => (haround e he).1) (fun e he => (haround e he).2) htimes
      hfresh ⟨e, he, rfl, hf⟩
      (hspared (surround e.key x t t' bad) (surround_failed hbad) (admissible_surround hbad htimes) e.key)
  · rintro happend h rfl hadmissible k
    refine (admissible_iff_of_all_ok fun e he => ?_).mp (hadmissible k)
    obtain ⟨hkey, hf⟩ := List.mem_filter.mp he
    by_contra hfailed
    have hmem : e ∈ h.failed := List.mem_filter.mpr ⟨(List.mem_filter.mp hkey).1, by simpa using hfailed⟩
    simp [happend e hmem] at hf

/-- A successful write of token 5, and after it a failed read, recorded with token zero as a failed
read is. -/
def failedRead : History :=
  ⟨[{ process := 0, f := .write, key := 0, wVal := 5, rVal := 0, rList := [], invoke := 0, complete := 1, ok := true },
    { process := 1, f := .read, key := 0, wVal := 0, rVal := 0, rList := [], invoke := 2, complete := 3, ok := false }]⟩

theorem failed_read_reported :
    (∀ k, Admissible (failedRead.byKey k)) ∧ ∀ p : Porcupine, (checkRegister p failedRead).verdict = .fail := by
  constructor
  · intro k
    by_cases hk : k = 0
    · subst hk
      exact ⟨failedRead.events.take 1, by decide, by decide, by decide, by decide +kernel⟩
    · have hnone : failedRead.byKey k = [] := by
        simp [History.byKey, failedRead, Ne.symm hk]
      rw [hnone]
      exact ⟨[], List.Sublist.refl _, rfl, by simp, [], List.Perm.refl _, List.Pairwise.nil, rfl⟩
  · intro p
    rw [checkRegister_fail_iff]
    refine ⟨0, ?_⟩
    rw [keyLinearizable_iff]
    decide +kernel

/-- A failed write of token 7. -/
def failedWrite : Event :=
  { process := 1, f := .write, key := 0, wVal := 7, rVal := 0, rList := [], invoke := 2, complete := 3, ok := false }

theorem failed_events_iff_on_failed_write :
    ∃ h : History, h.failed = [failedWrite] ∧ (∀ k, Admissible (h.byKey k)) ∧
      (checkRegister exhaustive h).verdict = .fail := by
  have hiff := @failed_events_iff exhaustive [failedWrite] (by decide) (by decide)
  by_contra hnone
  push Not at hnone
  exact absurd (hiff.mp hnone) (by decide)

end Proofload.Verify
