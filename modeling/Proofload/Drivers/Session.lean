import Proofload.Drivers.Plan
import Proofload.Verify.Acknowledged

/-!
# Sessions of the database drivers (`conn.go` of `cassandradriver` and `clickhousedriver`)

The two `Execute` are the same switch over the same three calls of a client library. The library and the servers
behind it are not part of this repository: `Session` says what they offer, and each driver's module states what it
assumes of them.

* `reconcile_durable` : reconciliation of a run on a target that keeps what it acknowledged.
-/

namespace Proofload.Drivers
open Lib WorkloadGen Verify Runner

set_option autoImplicit false

/-- A statement that reads one row into a `V`, if there is one, a statement that reads the rows of a range, and a
statement that reads none. `σ` is all that decides the answers, and every statement may change it. -/
structure Session (σ V : Type) where
  row : σ → String → List Arg → σ × Except String (Option V)
  rows : σ → String → List Arg → σ × Except String (List (Int × Bytes))
  exec : σ → String → List Arg → σ × Except String Unit

variable {σ V : Type}

def execRead (observed : V → Option Bytes) (type : OpType) : Except String (Option V) → OpResult
  | .error err => readResult type (.failed err)
  | .ok none => readResult type .noRows
  | .ok (some v) => readResult type (.row (observed v))

def execWrite (type : OpType) : Except String Unit → OpResult
  | .error err => { type, rows := 0, observed := .nil, err := some err }
  | .ok () => { type, rows := 1, observed := .nil, err := none }

def execScan (type : OpType) : Except String (List (Int × Bytes)) → OpResult
  | .error err => { type, rows := 0, observed := .nil, err := some err }
  | .ok out => { type, rows := out.length, observed := .byteSlices (out.map (·.2)), err := none }

/-- `Execute` of a driver with the plans `planFor`. -/
def executeWith (planFor : Operation → Int → Except String OpPlan) (observed : V → Option Bytes) (db : Session σ V)
    (scanLimit : Int) (t : σ) (op : Operation) : σ × OpResult :=
  match planFor op scanLimit with
  | .error err => (t, { type := op.type, rows := 0, observed := .nil, err := some err })
  | .ok plan =>
      match plan.kind with
      | .read => Prod.map id (execRead observed op.type) (db.row t plan.stmt plan.args)
      | .scan => Prod.map id (execScan op.type) (db.rows t plan.stmt plan.args)
      | .write => Prod.map id (execWrite op.type) (db.exec t plan.stmt plan.args)

theorem execWrite_err {type : OpType} {answer : Except String Unit} (h : (execWrite type answer).err = none) :
    answer = .ok () := by
  cases answer with
  | error err => cases h
  | ok u => rfl

theorem execRead_err {observed : V → Option Bytes} {type : OpType} {answer : Except String (Option V)}
    (h : (execRead observed type answer).err = none) : ∃ r, answer = .ok r := by
  cases answer with
  | error err => cases h
  | ok r => exact ⟨r, rfl⟩

/-- The labels that write a key. -/
def Sets (type : OpType) : Prop := type = "insert" ∨ type = "update" ∨ type = "w"

instance : DecidablePred Sets := fun type =>
  inferInstanceAs (Decidable (type = "insert" ∨ type = "update" ∨ type = "w"))

/-- The labels under consideration. -/
def labels : List OpType := ["read", "scan", "insert", "update", "w"]

/-- An operation of a workload over these labels. -/
structure Drawn (size : Int) (op : Operation) : Prop where
  label : op.type ∈ labels
  payload : CarriesPayload Sets size op

theorem emits_drawn (R : RandV2) {w : Workload} {seed id n : I64} {f : Factory} (hnew : new w seed id n = .ok f)
    (hlabels : ∀ op ∈ w.operations, op.type ∈ labels) (shard : Int) (i : Nat) :
    Drawn w.valueSize.val (f.emits R shard i) := by
  have hsets : ∀ type ∈ labels, Sets type ↔ isWrite type = true := by decide
  exact ⟨emits_label R hnew hlabels shard i, emits_carriesPayload R hnew hlabels hsets shard i⟩

/-- Reconciliation of a run on a target that keeps what it acknowledged and answers a read of it with the payload. -/
theorem reconcile_durable {d : Deps σ} {size : Int} {I : σ → Prop} {Held : σ → Int → Prop}
    (hdurable : Durable d (Drawn size) Sets I Held) (hgen : ∀ shard i, Drawn size (d.gen shard i)) (hsize : 1 ≤ size)
    {o : Runner.Options} {s : State σ} (hreach : Reachable (step d o) (init d) s) {opts : ReconcileOptions}
    (hread : opts.readOp = "read")
    (hanswer : ∀ t k, I t → Held t k → (d.execute t ⟨"read", k, [], 0⟩).2.err = none →
      (d.execute t ⟨"read", k, [], 0⟩).2 = readResult "read" (.row (some (value k size))))
    (before : Int → List Int) :
    (∀ k, ((readLog (expectationLog s)).lookup k).isSome ↔ ∃ ob ∈ s.observed, Acknowledged Sets k ob) ∧
    (∀ k rec, (readLog (expectationLog s)).lookup k = some rec → rec.checksum = checksum (value k size)) ∧
    ∀ (iter : IterOrder Int) (report : VerifyReport),
      readBack (readBackOn d opts.readOp s.target before) (readLog (expectationLog s)) opts iter report = report ↔
        ∀ k, ((readLog (expectationLog s)).lookup k).isSome →
          (readBackOn d opts.readOp s.target before ⟨opts.readOp, k, [], 0⟩).err = none := by
  have hobserved : ∀ ob ∈ s.observed, CarriesPayload Sets size ob.op := by
    intro ob hob
    obtain ⟨e, he, hop, -⟩ := observed_executed hreach hob
    exact hop ▸ ((replayed hreach).forall_execs hgen e he).payload
  refine reconcile_acknowledged hsize hobserved fun k ob hob hack herr => ?_
  rw [hread] at herr ⊢
  have hop : ∀ k', Drawn size ⟨"read", k', [], 0⟩ := fun k' =>
    ⟨by simp [labels], Or.inl ⟨(by decide : ¬Sets "read"), rfl⟩⟩
  obtain ⟨hinv, hheld⟩ := hdurable.held hgen hreach hob hack
  obtain ⟨hinv, hheld⟩ := hdurable.reads hop (before k) hinv hheld
  have hres : readBackOn d "read" s.target before ⟨"read", k, [], 0⟩ = _ := hanswer _ k hinv hheld herr
  rw [hres]
  rfl

end Proofload.Drivers
