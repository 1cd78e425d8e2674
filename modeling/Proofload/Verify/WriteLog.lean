import Proofload.Runner.Worker
import Proofload.Verify.Reconcile
import Proofload.Workload.Config

/-!
# The expectation log of a run

Every connection of a run hands its measured operations to `writeLogObserver`; the records end up in one log,
in any order, with sequence numbers that collide between connections. If every write carries the payload of
its key, the reduced log does not depend on that.

* `mem_expectationLog` : the records are those of the measured writes;
* `readLog_expectationLog` : the reduced log expects the payload of exactly the keys with a measured write;
* `committed_writes_expected_iff` : a generated write is recorded as one exactly if the workload has a value size.
-/

namespace Proofload.Verify
open Lib WorkloadGen Runner Config

set_option autoImplicit false

variable {T : Type}

/-- The lines of the expectation log after a run. -/
def expectationLog (s : State T) : List WriteRecord := s.observed.filterMap fun ob => writeLogObserve ob.op ob.res

/-- The labels in `sets` come with the payload of the key, all others without payload. -/
def CarriesPayload (sets : OpType → Prop) (size : Int) (op : Operation) : Prop :=
  ¬sets op.type ∧ op.value = [] ∨ sets op.type ∧ op.value = value op.key size

variable {sets : OpType → Prop} {size : Int} {s : State T}

theorem mem_expectationLog (hsize : 1 ≤ size)
    (hobserved : ∀ ob ∈ s.observed, CarriesPayload sets size ob.op ∧ ob.res.err = none) {rec : WriteRecord} :
    rec ∈ expectationLog s ↔
      ∃ ob ∈ s.observed, sets ob.op.type ∧ rec = ⟨ob.op.key, checksum (value ob.op.key size), ob.op.seq⟩ := by
  unfold expectationLog
  rw [List.mem_filterMap]
  refine exists_congr fun ob => and_congr_right fun hob => ?_
  obtain ⟨hop, herr⟩ := hobserved ob hob
  unfold writeLogObserve
  rw [herr]
  rcases hop with ⟨htype, hvalue⟩ | ⟨htype, hvalue⟩
  · rw [hvalue]
    simp [htype]
  · have hne : value ob.op.key size ≠ [] := value_ne_nil _ (by omega)
    rw [hvalue, if_neg (by simp [hne]), Option.some_inj]
    exact ⟨fun h => ⟨htype, h.symm⟩, fun h => h.2.symm⟩

theorem readLog_expectationLog (hsize : 1 ≤ size)
    (hobserved : ∀ ob ∈ s.observed, CarriesPayload sets size ob.op ∧ ob.res.err = none) (k : Int) :
    (((readLog (expectationLog s)).lookup k).isSome ↔ ∃ ob ∈ s.observed, sets ob.op.type ∧ ob.op.key = k) ∧
      ∀ rec, (readLog (expectationLog s)).lookup k = some rec → rec.checksum = checksum (value k size) := by
  refine ⟨?_, fun rec hrec => ?_⟩
  · rw [← Option.ne_none_iff_isSome, ne_eq, readLog_lookup_eq_none]
    push Not
    refine ⟨fun ⟨rec, hrec, hkey⟩ => ?_, fun ⟨ob, hob, htype, hkey⟩ => ?_⟩
    · obtain ⟨ob, hob, htype, rfl⟩ := (mem_expectationLog hsize hobserved).mp hrec
      exact ⟨ob, hob, htype, hkey⟩
    · exact ⟨_, (mem_expectationLog hsize hobserved).mpr ⟨ob, hob, htype, rfl⟩, hkey⟩
  · obtain ⟨hmem, hkey⟩ := readLog_lookup_eq_some hrec
    obtain ⟨ob, -, -, rfl⟩ := (mem_expectationLog hsize hobserved).mp hmem
    dsimp only at hkey ⊢
    rw [hkey]

/-! ## Generated writes -/

/-- A committed write is recorded as such: with a line in the expectation log, and in the history as a write or an
append. -/
def RecordedAsWrite (op : Operation) (res : OpResult) (process : Nat) (invoke complete : Int) : Prop :=
  (∃ rec, writeLogObserve op res = some rec) ∧
    ((observe process op res invoke complete).f = .write ∨ (observe process op res invoke complete).f = .append)

theorem recordedAsWrite_iff {op : Operation} {res : OpResult} (hok : res.err = none) (process : Nat)
    (invoke complete : Int) : RecordedAsWrite op res process invoke complete ↔ op.value ≠ [] := by
  have hlog : (∃ rec, writeLogObserve op res = some rec) ↔ op.value ≠ [] := by
    rw [← Option.ne_none_iff_exists', ne_eq, writeLogObserve_eq_none_iff]
    simp [hok]
  unfold RecordedAsWrite
  rw [hlog, and_iff_left_iff_imp]
  intro hvalue
  rw [observe_family, if_neg hvalue]
  split_ifs <;> simp

/-- A generated write carries a payload exactly if the workload has a value size; other operations carry none. -/
theorem emits_value_ne_nil_iff (R : RandV2) {w : Workload} {seed id n : I64} {f : Factory}
    (hnew : new w seed id n = .ok f) (shard : Int) (i : Nat) :
    (f.emits R shard i).value ≠ [] ↔ isWrite (f.emits R shard i).type = true ∧ 0 < w.valueSize.val := by
  rw [(emits_spec R hnew shard i).2]
  split
  · next hwrite => simp [hwrite, value_ne_nil_iff]
  · next hwrite => simp [hwrite]

/-- If `sets` are the labels that write, the generated operations carry their payloads. -/
theorem emits_carriesPayload (R : RandV2) {w : Workload} {seed id n : I64} {f : Factory}
    (hnew : new w seed id n = .ok f) {labels : List OpType} (hlabels : ∀ op ∈ w.operations, op.type ∈ labels)
    (hsets : ∀ type ∈ labels, sets type ↔ isWrite type = true) (shard : Int) (i : Nat) :
    CarriesPayload sets w.valueSize.val (f.emits R shard i) := by
  have hvalue := (emits_spec R hnew shard i).2
  unfold CarriesPayload
  rw [hsets _ (emits_label R hnew hlabels shard i)]
  split at hvalue
  · next hwrite => exact Or.inr ⟨hwrite, hvalue⟩
  · next hwrite => exact Or.inl ⟨hwrite, hvalue⟩

/-- Reconciliation of an empty log passes on any target that accepts the connection. -/
theorem empty_log_passes (o : ReconcileOptions) (iter sampling : IterOrder Int) :
    ∃ b rep, reconcile b (readLog []) o iter sampling = .ok rep ∧ rep.verdict = .pass ∧ rep.checked = 0 := by
  let b : Backend := ⟨.ok (), .ok (), fun op => ⟨op.type, 0, .nil, none⟩, none⟩
  obtain ⟨rep, hrep, -, hpass⟩ := reconcile_pass_iff (b := b) rfl rfl (readLog []) o iter sampling
  refine ⟨b, rep, hrep, hpass.mpr ⟨fun k want hwant => ?_, fun c hc => ?_⟩, ?_⟩
  · cases hwant
  · cases hc
  · rw [reconcile_checked hrep]
    exact Int.natCast_eq_zero.mpr ((readLog_size_eq_zero_iff []).mpr rfl)

/-- **Committed writes are expected.** For a workload that the configuration and `New` accept, a successful write of a
generator is recorded as a write exactly if the value size is positive; and a run with a measured write never
passes reconciliation with nothing checked, exactly under the same condition. -/
theorem committed_writes_expected_iff {wf : WorkloadFile} {w : Workload} (hmap : mapWorkload wf = .ok w)
    {seed id n : I64} {f : Factory} (hnew : new w seed id n = .ok f) (R : RandV2) :
    (∀ (shard : Int) (i : Nat) (res : OpResult) (process : Nat) (invoke complete : Int),
      isWrite (f.emits R shard i).type = true → res.err = none →
      (RecordedAsWrite (f.emits R shard i) res process invoke complete ↔ 0 < wf.valueSize.val)) ∧
    ∀ (T : Type) (d : Deps T) (o : Runner.Options) (s : State T), (∀ c i, d.gen c i = f.emits R c i) →
      Reachable (step d o) (init d) s → (∃ ob ∈ s.observed, isWrite ob.op.type = true ∧ ob.res.err = none) →
      ((∀ b opts iter sampling rep, reconcile b (readLog (expectationLog s)) opts iter sampling = .ok rep →
        rep.verdict = .pass → rep.checked ≠ 0) ↔ 0 < wf.valueSize.val) := by
  obtain ⟨-, -, -, -, -, hsize, -⟩ := mapWorkload_ok hmap
  rw [← hsize]
  refine ⟨fun shard i res process invoke complete hwrite hok => ?_, fun T d o s hgen hreach hmeasured => ?_⟩
  · rw [recordedAsWrite_iff hok, emits_value_ne_nil_iff R hnew]
    simp [hwrite]
  · have hvalue : ∀ ob ∈ s.observed, ob.op.value ≠ [] ↔ isWrite ob.op.type = true ∧ 0 < w.valueSize.val := by
      intro ob hob
      obtain ⟨e, he, hop, -⟩ := observed_executed hreach hob
      rw [← hop]
      refine (replayed hreach).forall_execs (P := fun op => op.value ≠ [] ↔ isWrite op.type = true ∧ _)
        (fun c i => ?_) e he
      rw [hgen]
      exact emits_value_ne_nil_iff R hnew c i
    constructor
    · intro hnever
      by_contra hzero
      have hempty : expectationLog s = [] := by
        refine List.filterMap_eq_nil_iff.mpr fun ob hob => ?_
        rw [writeLogObserve_eq_none_iff]
        exact Or.inr (not_not.mp fun hne => hzero ((hvalue ob hob).mp hne).2)
      obtain ⟨b, rep, hrep, hpass, hchecked⟩ :=
        empty_log_passes ⟨"read", 0, 0, ""⟩ (IterOrder.stored Int) (IterOrder.stored Int)
      exact hnever b _ _ _ rep (by rw [hempty]; exact hrep) hpass hchecked
    · intro hpos b opts iter sampling rep hrep _ hchecked
      obtain ⟨ob, hob, hwrite, hok⟩ := hmeasured
      rw [reconcile_checked hrep, Int.natCast_eq_zero, readLog_size_eq_zero_iff] at hchecked
      have hnone := List.filterMap_eq_nil_iff.mp hchecked ob hob
      rw [writeLogObserve_eq_none_iff, hok] at hnone
      exact (hvalue ob hob).mpr ⟨hwrite, hpos⟩ (by simpa using hnone)

/-- Inserts into one key, with payloads of the given size. -/
def insertsFile (valueSize : I64) : WorkloadFile :=
  { name := "inserts", mode := "correctness", keySpace := 1, keyDist := "uniform", valueSize,
    verifyModel := "reconciliation", operations := [⟨"insert", 1⟩], params := ∅ }

def insertsFactory (valueSize : I64) : Factory :=
  { w := { name := "inserts", mode := .correctness, operations := [⟨"insert", 1⟩], keySpace := 1, keyDist := .uniform,
           valueSize, verifyModel := .reconciliation, params := ∅ }
    seed := 0, workerID := 0, strideN := 1, base := 0, localSpace := 1, zipfS := defaultZipfS, cum := [1], total := 1 }

theorem mapWorkload_insertsFile (valueSize : I64) :
    mapWorkload (insertsFile valueSize) = .ok (insertsFactory valueSize).w := rfl

theorem new_insertsFactory (valueSize : I64) :
    new (insertsFactory valueSize).w 0 0 1 = .ok (insertsFactory valueSize) := rfl

/-- A target that accepts every operation. -/
def acceptsAll (valueSize : I64) : Deps Unit :=
  { gen := fun c i => (insertsFactory valueSize).emits pcgRand c i
    execute := fun _ op => ((), ⟨op.type, 1, .nil, none⟩)
    empty := () }

/-- One insert, measured. -/
def oneInsert : List Action := [.wake 0, .dispatch 0, .exec 0, .ret 0, .finish 0]

/-- With payloads of eight bytes the measured insert is expected. -/
theorem committed_writes_expected_iff_on_one_insert :
    ∃ s, Reachable (step (acceptsAll 8) ⟨1, 0⟩) (init (acceptsAll 8)) s ∧
      s.observed.map (fun ob => (ob.op.type, ob.op.value.length)) = [("insert", 8)] ∧
      ∀ b opts iter sampling rep, reconcile b (readLog (expectationLog s)) opts iter sampling = .ok rep →
        rep.verdict = .pass → rep.checked ≠ 0 := by
  obtain ⟨s, hreach, hobserved, hwrite⟩ : ∃ s, Reachable (step (acceptsAll 8) ⟨1, 0⟩) (init (acceptsAll 8)) s ∧
      s.observed.map (fun ob => (ob.op.type, ob.op.value.length)) = [("insert", 8)] ∧
      ∃ ob ∈ s.observed, isWrite ob.op.type = true ∧ ob.res.err = none :=
    exists_reachable oneInsert (by decide +kernel)
  exact ⟨s, hreach, hobserved, ((committed_writes_expected_iff (mapWorkload_insertsFile 8) (new_insertsFactory 8)
    pcgRand).2 _ (acceptsAll 8) _ s (fun _ _ => rfl) hreach hwrite).mpr (by decide)⟩

/-- Without a value size the measured insert leaves no line and is recorded as a read, and reconciliation passes with
nothing checked. -/
theorem unsized_insert_not_expected :
    mapWorkload (insertsFile 0) = .ok (insertsFactory 0).w ∧
    new (insertsFactory 0).w 0 0 1 = .ok (insertsFactory 0) ∧
    ∃ s, Reachable (step (acceptsAll 0) ⟨1, 0⟩) (init (acceptsAll 0)) s ∧
      s.observed.map (fun ob => (isWrite ob.op.type, ob.res.err, writeLogObserve ob.op ob.res,
        (observe ob.shard ob.op ob.res ob.invoke ob.complete).f)) = [(true, none, none, .read)] ∧
      ∃ b opts iter sampling rep, reconcile b (readLog (expectationLog s)) opts iter sampling = .ok rep ∧
        rep.verdict = .pass ∧ rep.checked = 0 := by
  obtain ⟨s, hreach, hobserved, hempty⟩ : ∃ s, Reachable (step (acceptsAll 0) ⟨1, 0⟩) (init (acceptsAll 0)) s ∧
      s.observed.map (fun ob => (isWrite ob.op.type, ob.res.err, writeLogObserve ob.op ob.res,
        (observe ob.shard ob.op ob.res ob.invoke ob.complete).f)) = [(true, none, none, .read)] ∧
      expectationLog s = [] := exists_reachable oneInsert (by decide +kernel)
  obtain ⟨b, rep, hrep, hpass, hchecked⟩ :=
    empty_log_passes ⟨"read", 0, 0, ""⟩ (IterOrder.stored Int) (IterOrder.stored Int)
  rw [← hempty] at hrep
  exact ⟨mapWorkload_insertsFile 0, new_insertsFactory 0, s, hreach, hobserved, b, _, _, _, rep, hrep, hpass, hchecked⟩

end Proofload.Verify
