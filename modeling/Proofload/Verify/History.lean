import Proofload.Workload.Generator

/-!
# Recording a run (`core/verify/history.go`, `checksum.go`, `core/cli/verify.go`)

The two observers that a verification run attaches to the connections: `HistoryRecorder` classifies an
operation into a history event, `writeLogObserver` keeps the committed writes.

* `observe_family` : the family of the recorded event depends on the label and on whether the
  operation carries a payload, on nothing else;
* `observe_read` : what a read event carries;
* `writeLogObserve_eq_none_iff` : which operations leave no record in the expectation log.
-/

namespace Proofload.Verify
open Lib WorkloadGen

set_option autoImplicit false

/-! ## Checksums -/

def fnvOffset : UInt64 := 14695981039346656037

def fnvPrime : UInt64 := 1099511628211

/-- `Checksum`: FNV-1a over 64 bits. -/
def checksum (b : Bytes) : UInt64 := b.foldl (fun h x => (h ^^^ x.toUInt64) * fnvPrime) fnvOffset

/-- The conversion `int64(u)`. -/
def toInt64 (u : UInt64) : Int := wrap64 u.toNat

/-! ## Events -/

inductive Family where
  | read
  | write
  | append
deriving DecidableEq

structure Event where
  process : Nat
  f : Family
  key : Int
  wVal : UInt64
  rVal : UInt64
  rList : List Int
  invoke : Int
  complete : Int
  ok : Bool
deriving DecidableEq

/-- The label contains "append", in any case. -/
def isAppendOp (t : OpType) : Bool := "append".toList <:+: toLower t

/-- The observed value as a token list; `none` for anything that is not a slice of tokens. -/
def observedList : Observed → Option (List Int)
  | .int64s l => some l
  | .uint64s l => some (l.map toInt64)
  | .ints l => some l
  | .byteSlices l => some (l.map fun e => toInt64 (checksum e))
  | _ => none

/-- The observed value as bytes; `none` when the key is absent. -/
def coerceBytes : Observed → Option Bytes
  | .bytes b => b
  | .string s => some s
  | _ => none

/-- `HistoryRecorder.Observe`: the event that is appended for one operation of `process`. -/
def observe (process : Nat) (op : Operation) (res : OpResult) (invoke complete : Int) : Event :=
  let e : Event :=
    { process, f := .write, key := op.key, wVal := 0, rVal := 0, rList := [], invoke, complete, ok := res.err.isNone }
  if isAppendOp op.type then
    { e with f := .append, wVal := checksum op.value, rList := (observedList res.observed).getD [] }
  else if op.value.length = 0 then
    match observedList res.observed with
    | some list => { e with f := .read, rList := list }
    | none => { e with f := .read, rVal := ((coerceBytes res.observed).map checksum).getD 0 }
  else { e with f := .write, wVal := checksum op.value }

/-- A line of the expectation log. -/
structure WriteRecord where
  key : Int
  checksum : UInt64
  seq : Int
deriving DecidableEq

/-- `writeLogObserver.Observe`: the record appended for one operation, if any. -/
def writeLogObserve (op : Operation) (res : OpResult) : Option WriteRecord :=
  if res.err.isSome ∨ op.value.length = 0 then none
  else some { key := op.key, checksum := checksum op.value, seq := op.seq }

/-! ## What is recorded -/

section
variable (process : Nat) (op : Operation) (res : OpResult) (invoke complete : Int)

theorem observe_family : (observe process op res invoke complete).f =
    if isAppendOp op.type then .append else if op.value = [] then .read else .write := by
  unfold observe
  simp only [List.length_eq_zero_iff]
  split_ifs
  · rfl
  · cases observedList res.observed <;> rfl
  · rfl

@[simp] theorem observe_key : (observe process op res invoke complete).key = op.key := by
  unfold observe
  split_ifs
  · rfl
  · cases observedList res.observed <;> rfl
  · rfl

@[simp] theorem observe_interval : (observe process op res invoke complete).invoke = invoke ∧
    (observe process op res invoke complete).complete = complete := by
  unfold observe
  split_ifs
  · exact ⟨rfl, rfl⟩
  · cases observedList res.observed <;> exact ⟨rfl, rfl⟩
  · exact ⟨rfl, rfl⟩

/-- An operation without payload and without an append label is a read of what it observed. -/
theorem observe_read (hlabel : isAppendOp op.type = false) (hvalue : op.value = [])
    (hscalar : observedList res.observed = none) :
    observe process op res invoke complete =
      { process, f := .read, key := op.key, wVal := 0, rVal := ((coerceBytes res.observed).map checksum).getD 0,
        rList := [], invoke, complete, ok := res.err.isNone } := by
  unfold observe
  simp [hlabel, hvalue, hscalar]

/-- An operation with a payload and without an append label is a write of its payload. -/
theorem observe_write (hlabel : isAppendOp op.type = false) (hvalue : op.value ≠ []) :
    observe process op res invoke complete =
      { process, f := .write, key := op.key, wVal := checksum op.value, rVal := 0, rList := [], invoke, complete,
        ok := res.err.isNone } := by
  unfold observe
  simp [hlabel, hvalue]

theorem writeLogObserve_eq_none_iff : writeLogObserve op res = none ↔ res.err.isSome ∨ op.value = [] := by
  unfold writeLogObserve
  simp only [List.length_eq_zero_iff]
  split_ifs with h <;> simp [h]

end

end Proofload.Verify
