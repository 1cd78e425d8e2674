import Proofload.Domain

/-!
# Workload files (`core/config/workload.go`)

`mapWorkload` turns a parsed workload file into a workload. The fields that name one of a few alternatives are looked
up in a table, all others are taken over as they are.

* `mapWorkload_ok` : what an accepted file leads to.
-/

namespace Proofload.Config
open Lib

set_option autoImplicit false

/-- The fields of a workload file. -/
structure WorkloadFile where
  name : String
  mode : String
  keySpace : I64
  keyDist : String
  valueSize : I64
  verifyModel : String
  operations : List OpSpec
  params : Map String Param

def validModes : List (String × RunMode) := [("performance", .performance), ("correctness", .correctness)]

def validDists : List (String × KeyDistribution) :=
  [("uniform", .uniform), ("zipfian", .zipfian), ("latest", .latest), ("sequential", .sequential)]

def validModels : List (String × VerifyModel) :=
  [("", .none), ("reconciliation", .reconciliation), ("register", .register), ("list-append", .listAppend),
    ("kafka-log", .kafkaLog)]

def mapWorkload (wf : WorkloadFile) : Except String Workload :=
  match validModes.lookup wf.mode with
  | none => .error s!"invalid mode {String.quote wf.mode}"
  | some mode =>
      match validDists.lookup wf.keyDist with
      | none => .error s!"invalid key_dist {String.quote wf.keyDist}"
      | some dist =>
          match validModels.lookup wf.verifyModel with
          | none => .error s!"invalid verify_model {String.quote wf.verifyModel}"
          | some model =>
              .ok { name := wf.name, mode, operations := wf.operations, keySpace := wf.keySpace, keyDist := dist,
                    valueSize := wf.valueSize, verifyModel := model, params := wf.params }

/-- An accepted file has its alternatives in the tables, and its other fields are taken over. -/
theorem mapWorkload_ok {wf : WorkloadFile} {w : Workload} (h : mapWorkload wf = .ok w) :
    validModes.lookup wf.mode = some w.mode ∧ validDists.lookup wf.keyDist = some w.keyDist ∧
      validModels.lookup wf.verifyModel = some w.verifyModel ∧ w.operations = wf.operations ∧
      w.keySpace = wf.keySpace ∧ w.valueSize = wf.valueSize ∧ w.params = wf.params := by
  unfold mapWorkload at h
  split at h
  · cases h
  · next hmode =>
    split at h
    · cases h
    · next hdist =>
      split at h
      · cases h
      · next hmodel =>
        obtain rfl := Except.ok.inj h
        exact ⟨hmode, hdist, hmodel, rfl, rfl, rfl, rfl⟩

end Proofload.Config
