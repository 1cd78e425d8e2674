import Proofload.Drivers.Plan
import Proofload.Verify.WriteLog

/-!
# Reconciliation of a PostgreSQL run (`targets/postgresql/pgdriver/conn.go`, `core/cli/verify.go`)

`serve` is the table `proofload_kv` under the driver's four prepared statements, `execute` the driver's
`Execute` on top of it.

* `execute_lookup` : what an operation does to a key of the table;
* `after_lookup` : after a run a key is present exactly when an insert on it was executed, and then
  holds the payload of the key;
* `reconcile_run_iff` : reconciliation of a faultless run passes exactly when every key with a recorded
  update was inserted during the run.
-/

namespace Proofload.Drivers.Postgresql
open Lib WorkloadGen Verify Runner

set_option autoImplicit false

structure Row where
  v : Bytes
  seq : Int
deriving DecidableEq

/-- The table, by primary key. -/
abbrev Table := Map Int Row

/-- What the server returns for a statement. -/
inductive Answer where
  | rows (l : List (Int × Bytes))
  | affected (n : Int)
  | failed (err : String)

/-- The prepared statements on the table: a point read, an upsert, an update that leaves an absent key
alone, and an ordered range read. -/
def serve (t : Table) (stmt : String) : List Arg → Table × Answer
  | [.int k] =>
      if stmt = stmtRead then (t, .rows ((t.lookup k).toList.map fun r => (k, r.v)))
      else (t, .failed "wrong arguments")
  | [.int k, .bytes v, .int seq] =>
      if stmt = stmtUpsert then (t.insert k ⟨v, seq⟩, .affected 1)
      else if stmt = stmtUpdate then
        if (t.lookup k).isSome then (t.insert k ⟨v, seq⟩, .affected 1) else (t, .affected 0)
      else (t, .failed "wrong arguments")
  | [.int k, .int limit] =>
      if stmt = stmtScan then
        (t, .rows ((((t.keys.filter fun k' => k ≤ k').insertionSort (· ≤ ·)).take limit.toNat).filterMap fun k' =>
          (t.lookup k').map fun r => (k', r.v)))
      else (t, .failed "wrong arguments")
  | _ => (t, .failed "wrong arguments")

/-- `execRead`, from the server's answer. -/
def execRead (type : OpType) : Answer → OpResult
  | .rows ((_, v) :: _) => readResult type (.row (some v))
  | .rows [] => readResult type .noRows
  | .affected _ => readResult type .noRows
  | .failed err => readResult type (.failed err)

def execWrite (type : OpType) : Answer → OpResult
  | .affected n => { type, rows := n, observed := .nil, err := none }
  | .rows _ => { type, rows := 0, observed := .nil, err := none }
  | .failed err => { type, rows := 0, observed := .nil, err := some err }

def execScan (type : OpType) : Answer → OpResult
  | .rows l => { type, rows := l.length, observed := .byteSlices (l.map (·.2)), err := none }
  | .affected _ => { type, rows := 0, observed := .byteSlices [], err := none }
  | .failed err => { type, rows := 0, observed := .nil, err := some err }

/-- `pgConn.Execute`. -/
def execute (scanLimit : Int) (t : Table) (op : Operation) : Table × OpResult :=
  match planFor op scanLimit with
  | .error err => (t, { type := op.type, rows := 0, observed := .nil, err := some err })
  | .ok plan =>
      let (t, answer) := serve t plan.stmt plan.args
      match plan.kind with
      | .read => (t, execRead op.type answer)
      | .scan => (t, execScan op.type answer)
      | .write => (t, execWrite op.type answer)

/-- A run of a workload's generators against the empty table. -/
def deps (R : RandV2) (f : Factory) (scanLimit : Int) : Deps Table where
  gen c i := f.emits R c i
  execute := execute scanLimit
  empty := ∅

/-- The operation that reads values back, by the labels of the workload. -/
def pickReadOp (w : Workload) : OpType :=
  (["read", "r", "get"].find? fun cand => w.operations.any fun op => op.type == cand).getD "read"

/-! ## One operation -/

/-- The labels under consideration. -/
def labels : List OpType := ["read", "scan", "insert", "update"]

theorem execute_read (scanLimit : Int) (t : Table) {op : Operation} (h : op.type = "read") :
    execute scanLimit t op = (t, readResult "read" (match t.lookup op.key with
      | none => .noRows
      | some r => .row (some r.v))) := by
  unfold execute planFor planWith
  rw [h]
  simp only [true_or, if_true, serve]
  cases t.lookup op.key <;> rfl

theorem execute_scan (scanLimit : Int) (t : Table) {op : Operation} (h : op.type = "scan") :
    (execute scanLimit t op).1 = t ∧ (execute scanLimit t op).2.err = none := by
  unfold execute planFor planWith
  rw [h]
  simp [serve, execScan]

theorem execute_insert (scanLimit : Int) (t : Table) {op : Operation} (h : op.type = "insert") :
    (execute scanLimit t op).1 = t.insert op.key ⟨op.value, op.seq⟩ ∧ (execute scanLimit t op).2.err = none := by
  unfold execute planFor planWith
  rw [h]
  simp [serve, execWrite]

theorem execute_update (scanLimit : Int) (t : Table) {op : Operation} (h : op.type = "update") :
    (execute scanLimit t op).1 = (if (t.lookup op.key).isSome then t.insert op.key ⟨op.value, op.seq⟩ else t) ∧
      (execute scanLimit t op).2.err = none := by
  unfold execute planFor planWith
  rw [h]
  simp only [serve]
  by_cases hsome : (t.lookup op.key).isSome <;> simp [hsome, execWrite, stmtUpdate, stmtUpsert]

/-- An operation of a workload over these labels: reads and scans come without payload, inserts and
updates with the payload of their key. -/
def Drawn (size : Int) (op : Operation) : Prop :=
  (op.type = "read" ∨ op.type = "scan") ∧ op.value = [] ∨
    (op.type = "insert" ∨ op.type = "update") ∧ op.value = value op.key size

theorem Drawn.carriesPayload {size : Int} {op : Operation} (h : Drawn size op) :
    CarriesPayload (fun type => type = "insert" ∨ type = "update") size op := by
  rcases h with ⟨htype, hvalue⟩ | h
  · refine Or.inl ⟨?_, hvalue⟩
    rcases htype with htype | htype <;> rw [htype] <;> decide
  · exact Or.inr h

theorem emits_drawn (R : RandV2) {w : Workload} {seed id n : I64} {f : Factory} (hnew : new w seed id n = .ok f)
    (hlabels : ∀ op ∈ w.operations, op.type ∈ labels) (shard : Int) (i : Nat) :
    Drawn w.valueSize.val (f.emits R shard i) := by
  have hsets : ∀ type ∈ labels, (type = "insert" ∨ type = "update") ↔ isWrite type = true := by decide
  have hlabel := emits_label R hnew hlabels shard i
  obtain ⟨hreads, hvalue⟩ | hwrites := emits_carriesPayload R hnew hlabels hsets shard i
  · refine Or.inl ⟨?_, hvalue⟩
    simp only [labels, List.mem_cons, List.not_mem_nil, or_false] at hlabel
    tauto
  · exact Or.inr hwrites

/-- What an operation does to a key: an insert sets it, an update sets it if it is present. -/
theorem execute_lookup {size : Int} (scanLimit : Int) (t : Table) {op : Operation} (h : Drawn size op) (k : Int) :
    (execute scanLimit t op).1.lookup k =
      (if op.key = k ∧ (op.type = "insert" ∨ op.type = "update" ∧ (t.lookup k).isSome) then some ⟨op.value, op.seq⟩
      else t.lookup k) ∧ (execute scanLimit t op).2.err = none := by
  rcases h with ⟨htype | htype, -⟩ | ⟨htype | htype, -⟩
  · rw [execute_read scanLimit t htype, htype]
    cases t.lookup op.key <;> simp [readResult]
  · obtain ⟨ht, herr⟩ := execute_scan scanLimit t htype
    rw [ht, htype]
    simp [herr]
  · obtain ⟨ht, herr⟩ := execute_insert scanLimit t htype
    rw [ht, htype, Map.lookup_insert_eq]
    by_cases hk : op.key = k
    · simp [hk, herr]
    · simp [hk, Ne.symm hk, herr]
  · obtain ⟨ht, herr⟩ := execute_update scanLimit t htype
    rw [ht, htype]
    refine ⟨?_, herr⟩
    by_cases hk : op.key = k
    · subst hk
      by_cases hsome : (t.lookup op.key).isSome
      · simp [hsome]
      · simp [hsome]
    · by_cases hsome : (t.lookup op.key).isSome
      · rw [if_pos hsome, Map.lookup_insert_eq]
        simp [hk, Ne.symm hk]
      · simp [hsome, hk]

/-! ## A whole run -/

section Run
variable {R : RandV2} {f : Factory} {scanLimit size : Int}

/-- **The table after a run.** A key is present exactly when an insert on it was executed, and holds the
payload of the key. -/
theorem after_lookup {execs : List Exec} (h : ∀ e ∈ execs, Drawn size e.op) (k : Int) :
    ((((deps R f scanLimit).after execs).lookup k).isSome ↔ ∃ e ∈ execs, e.op.type = "insert" ∧ e.op.key = k) ∧
      ∀ r, ((deps R f scanLimit).after execs).lookup k = some r → r.v = value k size := by
  induction execs using List.reverseRecOn with
  | nil =>
      refine ⟨?_, fun r hr => by cases hr⟩
      simp [deps]
  | append_singleton execs e ih =>
      have hlast : Drawn size e.op := h e (by simp)
      obtain ⟨hsome, hval⟩ := ih fun x hx => h x (List.mem_append_left _ hx)
      have hlook : ((deps R f scanLimit).after (execs ++ [e])).lookup k = _ :=
        (congrArg (AList.lookup k) (after_concat execs e)).trans (execute_lookup scanLimit _ hlast k).1
      rw [hlook]
      simp only [List.mem_append, List.mem_singleton, or_and_right, exists_or, exists_eq_left]
      rw [← hsome]
      split_ifs with hset
      · refine ⟨?_, fun r hr => ?_⟩
        · rcases hset with ⟨hk, hinsert | ⟨hupdate, hpresent⟩⟩
          · simp [hk, hinsert]
          · simp [hpresent]
        · obtain rfl := Option.some.inj hr
          rcases hlast with ⟨htype, -⟩ | ⟨-, hvalue⟩
          · rcases hset.2 with hinsert | hupdate
            · rw [hinsert] at htype
              exact absurd htype (by decide)
            · rw [hupdate.1] at htype
              exact absurd htype (by decide)
          · dsimp only
            rw [hvalue, hset.1]
      · refine ⟨(or_iff_left fun hinsert => hset ⟨hinsert.2, Or.inl hinsert.1⟩).symm, hval⟩

end Run

/-- Reading a key of the table, as the driver's read and `ReadKeyFrom` return it. -/
def readKey (t : Table) (k : Int) : OpResult :=
  readResult "read" (match t.lookup k with
    | none => .noRows
    | some r => .row (some r.v))

/-- The target after the run: connections are accepted, reads go to the table, and so do the nodes of a
cluster, if there is one. -/
def backend (scanLimit : Int) (t : Table) (cluster : Option Cluster) : Backend where
  connect := .ok ()
  prepare := .ok ()
  execute op := (execute scanLimit t op).2
  cluster := cluster

/-- If the workload lists neither "r" nor "get", values are read back with "read". -/
theorem pickReadOp_of_labels {w : Workload} {labels : List OpType} (hlabels : ∀ op ∈ w.operations, op.type ∈ labels)
    (hr : "r" ∉ labels) (hget : "get" ∉ labels) : pickReadOp w = "read" := by
  have habsent : ∀ cand : OpType, cand ∉ labels → (w.operations.any fun op => op.type == cand) = false := by
    intro cand hcand
    rw [List.any_eq_false]
    intro op hop heq
    exact hcand (by rw [← eq_of_beq heq]; exact hlabels op hop)
  unfold pickReadOp
  rw [List.find?_cons, List.find?_cons, List.find?_cons, habsent "r" hr, habsent "get" hget]
  cases w.operations.any fun op => op.type == "read" <;> rfl

/-- An expected key is found exactly when it is in the table with the expected checksum. -/
theorem found_iff (scanLimit : Int) (t : Table) (cluster : Option Cluster) {opts : ReconcileOptions}
    (hread : opts.readOp = "read") (k : Int) (want : WriteRecord) :
    Found (backend scanLimit t cluster).execute opts k want ↔
      ∃ r, t.lookup k = some r ∧ checksum r.v = want.checksum := by
  unfold Found backend
  dsimp only
  rw [execute_read scanLimit t hread]
  cases t.lookup k <;> simp [readResult, coerceBytes]

/-- **Reconciliation of a run on PostgreSQL.** For every workload over these labels with payloads, any
connections, warmup and interleaving, and whatever the iteration orders: the report passes with nothing
lost exactly when every key with a recorded update was inserted by some operation of the run. -/
theorem reconcile_run_iff (R : RandV2) {w : Workload} {seed id n : I64} {f : Factory} (hnew : new w seed id n = .ok f)
    (hlabels : ∀ op ∈ w.operations, op.type ∈ labels) (hsize : 1 ≤ w.valueSize.val) {scanLimit : Int} {o : Options}
    {s : State Table} (hreach : Reachable (step (deps R f scanLimit) o) (init (deps R f scanLimit)) s)
    {cluster : Option Cluster} (hcluster : ∀ c, cluster = some c → ∀ i node k, node ∈ c.nodes →
      c.readKeyFrom i node k = .ok (readKey s.target k))
    {opts : ReconcileOptions} (hread : opts.readOp = pickReadOp w) (iter sampling : IterOrder Int) :
    ∃ rep, reconcile (backend scanLimit s.target cluster) (readLog (expectationLog s)) opts iter sampling = .ok rep ∧
      ((rep.verdict = .pass ∧ rep.lost = 0) ↔
        ∀ ob ∈ s.observed, ob.op.type = "update" → ∃ e ∈ s.execs, e.op.type = "insert" ∧ e.op.key = ob.op.key) := by
  have hgen : ∀ c i, Drawn w.valueSize.val ((deps R f scanLimit).gen c i) :=
    fun c i => emits_drawn R hnew hlabels c i
  have hdrawn := (replayed hreach).forall_execs hgen
  have hobserved := fun ob (hob : ob ∈ s.observed) =>
    observed_spec hreach hgen (fun t op h => (execute_lookup scanLimit t h 0).2) hob
  have hlog := readLog_expectationLog hsize fun ob hob =>
    ⟨(hobserved ob hob).1.carriesPayload, (hobserved ob hob).2.1⟩
  rw [pickReadOp_of_labels hlabels (by decide) (by decide)] at hread
  obtain ⟨rep, hrep, hlost, hpass⟩ := reconcile_pass_iff (b := backend scanLimit s.target cluster) rfl rfl
    (readLog (expectationLog s)) opts iter sampling
  refine ⟨rep, hrep, ?_⟩
  have hconv : ∀ c, (backend scanLimit s.target cluster).cluster = some c →
      Converges c (readLog (expectationLog s)) opts sampling :=
    fun c hc => converges_of_forall (hcluster c hc) _ opts sampling
  rw [and_iff_left_of_imp hlost, hpass, and_iff_left hconv]
  have htable : ∀ k, ((s.target.lookup k).isSome ↔ ∃ e ∈ s.execs, e.op.type = "insert" ∧ e.op.key = k) ∧
      ∀ r, s.target.lookup k = some r → r.v = value k w.valueSize.val := by
    intro k
    rw [(replayed hreach).target]
    exact after_lookup hdrawn k
  simp only [found_iff scanLimit s.target cluster hread]
  constructor
  · intro h ob hob hupdate
    obtain ⟨want, hwant⟩ := Option.isSome_iff_exists.mp ((hlog ob.op.key).1.mpr ⟨ob, hob, Or.inr hupdate, rfl⟩)
    obtain ⟨r, hr, -⟩ := h _ want hwant
    exact (htable _).1.mp (by rw [hr]; rfl)
  · intro h k want hwant
    obtain ⟨ob, hob, htype, rfl⟩ := (hlog k).1.mp (Option.isSome_iff_exists.mpr ⟨want, hwant⟩)
    have hinserted : ∃ e ∈ s.execs, e.op.type = "insert" ∧ e.op.key = ob.op.key := by
      rcases htype with hinsert | hupdate
      · obtain ⟨-, -, e, he, hop⟩ := hobserved ob hob
        exact ⟨e, he, hop ▸ hinsert, hop ▸ rfl⟩
      · exact h ob hob hupdate
    obtain ⟨r, hr⟩ := Option.isSome_iff_exists.mp ((htable ob.op.key).1.mpr hinserted)
    exact ⟨r, hr, by rw [(htable ob.op.key).2 r hr, (hlog ob.op.key).2 want hwant]⟩

/-- A workload that only updates, on a single key. -/
def updatesOnly : Workload :=
  { name := "updates", mode := .correctness, operations := [⟨"update", 1⟩], keySpace := 1, keyDist := .uniform,
    valueSize := 8, verifyModel := .reconciliation, params := ∅ }

def updatesFactory : Factory :=
  { w := updatesOnly, seed := 0, workerID := 0, strideN := 1, base := 0, localSpace := 1, zipfS := defaultZipfS,
    cum := [1], total := 1 }

/-- The options of the command line. -/
def cliOptions (w : Workload) : ReconcileOptions :=
  { readOp := pickReadOp w, convergenceSample := 200, convergenceTimeout := 5000000000, timeoutText := "5s" }

/-- One connection, no warmup, one update of the absent key. -/
def updateRun : List Action := [.wake 0, .dispatch 0, .exec 0, .ret 0, .finish 0]

/-- The update affects no row and is recorded, so the key is reported lost. -/
theorem update_of_absent_reported_lost :
    new updatesOnly 0 0 1 = .ok updatesFactory ∧
    ∃ s, Reachable (step (deps pcgRand updatesFactory 0) ⟨1, 0⟩) (init (deps pcgRand updatesFactory 0)) s ∧
      s.observed.map (·.res.rows) = [0] ∧
      (reconcile (backend 0 s.target none) (readLog (expectationLog s)) (cliOptions updatesOnly) (IterOrder.stored Int)
        (IterOrder.stored Int)).toOption.map (fun rep => (rep.verdict, rep.lost)) = some (.fail, 1) :=
  ⟨rfl, exists_reachable updateRun (by decide +kernel)⟩

theorem reconcile_run_iff_on_updates :
    ∃ s, Reachable (step (deps pcgRand updatesFactory 0) ⟨1, 0⟩) (init (deps pcgRand updatesFactory 0)) s ∧
      s.observed.length = 1 ∧
      ∃ rep, reconcile (backend 0 s.target none) (readLog (expectationLog s)) (cliOptions updatesOnly)
          (IterOrder.stored Int) (IterOrder.stored Int) = .ok rep ∧
        ((rep.verdict = .pass ∧ rep.lost = 0) ↔
          ∀ ob ∈ s.observed, ob.op.type = "update" → ∃ e ∈ s.execs, e.op.type = "insert" ∧ e.op.key = ob.op.key) := by
  obtain ⟨s, hreach, hlength⟩ : ∃ s, Reachable (step (deps pcgRand updatesFactory 0) ⟨1, 0⟩)
      (init (deps pcgRand updatesFactory 0)) s ∧ s.observed.length = 1 := exists_reachable updateRun (by decide +kernel)
  have hnew : new updatesOnly 0 0 1 = .ok updatesFactory := rfl
  exact ⟨s, hreach, hlength, reconcile_run_iff pcgRand hnew (by decide) (by decide) hreach (by simp) rfl _ _⟩

end Proofload.Drivers.Postgresql
