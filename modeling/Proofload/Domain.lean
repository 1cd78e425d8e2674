import Proofload.Lib.Machine
import Proofload.Lib.Maps
import Mathlib.Data.Rat.Defs

/-!
# The shared vocabulary of `core/domain`

Workloads, operations, results and verification reports, with the fields that the modelled functions
read or write. Left out: `Operation.Args`, `VerifyReport.Extra` and the two measured durations
`ConvergedIn` and `MaxStaleness`, which no modelled function reads.
-/

namespace Proofload
open Lib

/-- An operation label: an open set of strings that every driver interprets for itself. -/
abbrev OpType := String

/-- A byte slice. -/
abbrev Bytes := List UInt8

/-- A value of a `map[string]any` decoded from YAML; a float is its exact rational value. -/
inductive Param where
  | bool (b : Bool)
  | int (n : Int)
  | float (q : Rat)
  | str (s : String)
deriving DecidableEq

inductive RunMode where
  | performance
  | correctness
deriving DecidableEq

/-- The four named distributions; any other name falls back to uniform. -/
inductive KeyDistribution where
  | uniform
  | zipfian
  | latest
  | sequential
  | other (name : String)
deriving DecidableEq

inductive VerifyModel where
  | none
  | reconciliation
  | register
  | listAppend
  | kafkaLog
deriving DecidableEq

structure OpSpec where
  type : OpType
  weight : I64
deriving DecidableEq

structure Workload where
  name : String
  mode : RunMode
  operations : List OpSpec
  keySpace : I64
  keyDist : KeyDistribution
  valueSize : I64
  verifyModel : VerifyModel
  params : Map String Param

/-- One concrete operation. `key` and `seq` are `int64` in the source; a counter such as `seq` is
unbounded here. -/
structure Operation where
  type : OpType
  key : Int
  value : Bytes
  seq : Int
deriving DecidableEq

/-- The dynamic types a driver may put into `OpResult.Observed`. -/
inductive Observed where
  | nil
  | bytes (b : Option Bytes)  -- `[]byte`; `none` is the typed nil slice
  | string (s : Bytes)
  | int64s (l : List Int)
  | uint64s (l : List UInt64)
  | ints (l : List Int)
  | byteSlices (l : List Bytes)
  | other
deriving DecidableEq

structure OpResult where
  type : OpType
  rows : Int
  observed : Observed
  err : Option String
deriving DecidableEq

inductive Verdict where
  | pass
  | fail
  | unknown
deriving DecidableEq

structure Anomaly where
  kind : String
  detail : String
  witness : List String
deriving DecidableEq

structure VerifyReport where
  model : VerifyModel
  verdict : Verdict
  anomalies : List Anomaly
  checked : Int
  lost : Int
  duplicated : Int
  orderingViol : Int
deriving DecidableEq

/-! ## Load -/

/-- The archetype of a run; `unset` is the empty string. -/
inductive TestType where
  | unset
  | benchmark
  | load
  | stress
  | acid
  | combined
deriving DecidableEq

/-- `unset` is the zero value, which reads as a closed loop like `max`. -/
inductive RateMode where
  | unset
  | fixed
  | max
deriving DecidableEq

structure RateSpec where
  mode : RateMode
  opsPerSec : Int
deriving DecidableEq

/-! ## Clusters and faults -/

inductive ControlMethod where
  | k8s
  | docker
  | ssh
  | none
deriving DecidableEq

structure ControlEndpoint where
  method : ControlMethod
  ref : String
  nspace : String
deriving DecidableEq

structure Node where
  id : String
  client : String
  control : ControlEndpoint
deriving DecidableEq

/-- A nemesis action; an empty `target` leaves the choice of the node to the scheduler. -/
structure Fault where
  type : String
  target : String
  params : List (String × Param)
deriving DecidableEq

/-- A fault scheduled relative to the start of the measure phase; durations are nanoseconds. -/
structure FaultSpec where
  fault : Fault
  at' : I64
  duration : I64
  repeat' : I64
deriving DecidableEq

end Proofload
