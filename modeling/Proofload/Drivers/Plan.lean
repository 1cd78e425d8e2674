import Proofload.Verify.History

/-!
# Operation plans of the key/value drivers

The `planFor` of the PostgreSQL, Redis, Cassandra and ClickHouse drivers: one switch over the
operation label, with each driver's own statements. `Target` names the four drivers.

* `readsKey_iff` : a driver plans a single-key read for the labels "read" and "r" only;
* `read_recorded_iff` : such an operation of a generator is recorded as a read exactly when its label
  is not "r".
-/

namespace Proofload.Drivers
open Lib WorkloadGen Verify

set_option autoImplicit false

def defaultScanLimit : Int := 100

/-- The switch all four `planFor` share: the plan of each branch is the driver's own. -/
def planWith {P : Type} (driver : String) (read insert update : Operation → P) (scan : Operation → Int → P)
    (op : Operation) (scanLimit : Int) : Except String P :=
  if op.type = "read" ∨ op.type = "r" then .ok (read op)
  else if op.type = "insert" ∨ op.type = "w" then .ok (insert op)
  else if op.type = "update" then .ok (update op)
  else if op.type = "scan" then .ok (scan op (if scanLimit ≤ 0 then defaultScanLimit else scanLimit))
  else .error s!"{driver}: unsupported op type {String.quote op.type}"

/-- A positional argument of a statement. -/
inductive Arg where
  | int (n : Int)
  | bytes (b : Bytes)
  | text (b : Bytes)
deriving DecidableEq

inductive OpKind where
  | read
  | write
  | scan
deriving DecidableEq

structure OpPlan where
  stmt : String
  args : List Arg
  kind : OpKind
deriving DecidableEq

namespace Postgresql

def stmtRead : String := "pl_read"
def stmtUpsert : String := "pl_upsert"
def stmtUpdate : String := "pl_update"
def stmtScan : String := "pl_scan"

def planFor : Operation → Int → Except String OpPlan :=
  planWith "pgdriver"
    (fun op => { stmt := stmtRead, args := [.int op.key], kind := .read })
    (fun op => { stmt := stmtUpsert, args := [.int op.key, .bytes op.value, .int op.seq], kind := .write })
    (fun op => { stmt := stmtUpdate, args := [.int op.key, .bytes op.value, .int op.seq], kind := .write })
    (fun op limit => { stmt := stmtScan, args := [.int op.key, .int limit], kind := .scan })

end Postgresql

namespace Cassandra

def readCQL : String := "SELECT v FROM kv WHERE k = ?"
def insertCQL : String := "INSERT INTO kv (k, v, seq) VALUES (?, ?, ?)"
def updateCQL : String := "UPDATE kv SET v = ?, seq = ? WHERE k = ?"
def scanCQL : String := "SELECT k, v FROM kv WHERE token(k) >= token(?) LIMIT ?"

def planFor : Operation → Int → Except String OpPlan :=
  planWith "cassandradriver"
    (fun op => { stmt := readCQL, args := [.int op.key], kind := .read })
    (fun op => { stmt := insertCQL, args := [.int op.key, .bytes op.value, .int op.seq], kind := .write })
    (fun op => { stmt := updateCQL, args := [.bytes op.value, .int op.seq, .int op.key], kind := .write })
    (fun op limit => { stmt := scanCQL, args := [.int op.key, .int limit], kind := .scan })

end Cassandra

namespace Clickhouse

def readSQL : String := "SELECT v FROM proofload_kv WHERE k = ? ORDER BY seq DESC LIMIT 1"
def insertSQL : String := "INSERT INTO proofload_kv (k, v, seq) VALUES (?, ?, ?)"
def scanSQL : String := "SELECT k, v FROM proofload_kv WHERE k >= ? ORDER BY k LIMIT ?"

/-- The append-only insert that serves "insert", "w" and "update". -/
def insertPlan (op : Operation) : OpPlan :=
  { stmt := insertSQL, args := [.int op.key, .text op.value, .int op.seq], kind := .write }

def planFor : Operation → Int → Except String OpPlan :=
  planWith "clickhousedriver"
    (fun op => { stmt := readSQL, args := [.int op.key], kind := .read }) insertPlan insertPlan
    (fun op limit => { stmt := scanSQL, args := [.int op.key, .int limit], kind := .scan })

end Clickhouse

namespace Redis

inductive CmdKind where
  | get
  | set
  | scan
deriving DecidableEq

structure OpPlan where
  kind : CmdKind
  key : String
  keys : List String
  value : Bytes
deriving DecidableEq

def keyName (k : Int) : String := "proofload:\x7b" ++ toString k ++ "\x7d"

/-- The contiguous key range of an MGET scan. -/
def scanKeys (start n : Int) : List String := (List.range n.toNat).map fun i : Nat => keyName (wrap64 (start + i))

/-- The SET that serves "insert", "w" and "update". -/
def setPlan (op : Operation) : OpPlan := { kind := .set, key := keyName op.key, keys := [], value := op.value }

def planFor : Operation → Int → Except String OpPlan :=
  planWith "redisdriver"
    (fun op => { kind := .get, key := keyName op.key, keys := [], value := [] }) setPlan setPlan
    (fun op limit => { kind := .scan, key := "", keys := scanKeys op.key limit, value := [] })

end Redis

/-! ## Single-key reads -/

inductive Target where
  | postgresql
  | redis
  | cassandra
  | clickhouse
deriving DecidableEq

/-- The driver plans a single-key read for the operation. -/
def Target.ReadsKey (t : Target) (op : Operation) (scanLimit : Int) : Prop :=
  match t with
  | .postgresql => ∃ p, Postgresql.planFor op scanLimit = .ok p ∧ p.kind = .read
  | .redis => ∃ p, Redis.planFor op scanLimit = .ok p ∧ p.kind = .get
  | .cassandra => ∃ p, Cassandra.planFor op scanLimit = .ok p ∧ p.kind = .read
  | .clickhouse => ∃ p, Clickhouse.planFor op scanLimit = .ok p ∧ p.kind = .read

theorem planWith_isRead {P : Type} {driver : String} {read insert update : Operation → P} {scan : Operation → Int → P}
    {isRead : P → Prop} (hread : ∀ op, isRead (read op)) (hinsert : ∀ op, ¬isRead (insert op))
    (hupdate : ∀ op, ¬isRead (update op)) (hscan : ∀ op l, ¬isRead (scan op l)) (op : Operation) (scanLimit : Int) :
    (∃ p, planWith driver read insert update scan op scanLimit = .ok p ∧ isRead p) ↔
      op.type = "read" ∨ op.type = "r" := by
  unfold planWith
  split_ifs with h₁ h₂ h₃ h₄
  · exact ⟨fun _ => h₁, fun _ => ⟨_, rfl, hread op⟩⟩
  all_goals
    refine ⟨?_, fun h => absurd h h₁⟩
    rintro ⟨p, hp, hr⟩
    cases hp
  · exact absurd hr (hinsert op)
  · exact absurd hr (hupdate op)
  · exact absurd hr (hscan op _)
  · exact absurd hr (hscan op _)

theorem readsKey_iff (t : Target) (op : Operation) (scanLimit : Int) :
    t.ReadsKey op scanLimit ↔ op.type = "read" ∨ op.type = "r" := by
  cases t <;> exact planWith_isRead (by simp) (by simp [Redis.setPlan, Clickhouse.insertPlan])
    (by simp [Redis.setPlan, Clickhouse.insertPlan]) (by simp) op scanLimit

/-- How the server answers a single-key read. -/
inductive Reply where
  | row (v : Option Bytes)
  | noRows
  | failed (err : String)
deriving DecidableEq

/-- The result a driver returns for a single-key read (`execRead`, `execGet`): a missing key is no error. -/
def readResult (t : OpType) : Reply → OpResult
  | .row v => { type := t, rows := 1, observed := .bytes v, err := none }
  | .noRows => { type := t, rows := 0, observed := .nil, err := none }
  | .failed err => { type := t, rows := 0, observed := .nil, err := some err }

/-- The token of an answer: the checksum of the observed value, or zero when there is none. -/
def Reply.token : Reply → UInt64
  | .row (some v) => checksum v
  | _ => 0

/-- The operation is recorded as a read carrying `token`, and leaves no record of a write. -/
def RecordedAsRead (op : Operation) (res : OpResult) (token : UInt64) : Prop :=
  (∀ process invoke complete, (observe process op res invoke complete).f = .read ∧
    (observe process op res invoke complete).rVal = token) ∧ writeLogObserve op res = none

theorem isAppendOp_of_read {t : OpType} (h : t = "read" ∨ t = "r") : isAppendOp t = false := by
  rcases h with rfl | rfl <;> decide

theorem coerceBytes_readResult (t : OpType) (reply : Reply) :
    observedList (readResult t reply).observed = none ∧
      ((coerceBytes (readResult t reply).observed).map checksum).getD 0 = reply.token := by
  cases reply with
  | row v => cases v <;> exact ⟨rfl, rfl⟩
  | noRows => exact ⟨rfl, rfl⟩
  | failed err => exact ⟨rfl, rfl⟩

/-- A planned read is recorded as one exactly when the operation carries no payload. -/
theorem recordedAsRead_iff {op : Operation} (hread : op.type = "read" ∨ op.type = "r") (reply : Reply) :
    RecordedAsRead op (readResult op.type reply) reply.token ↔ op.value = [] := by
  have hlabel := isAppendOp_of_read hread
  constructor
  · rintro ⟨h, -⟩
    have hfamily := (h 0 0 0).1
    rw [observe_family, hlabel] at hfamily
    by_contra hvalue
    rw [if_neg (by simp), if_neg hvalue] at hfamily
    cases hfamily
  · intro hvalue
    obtain ⟨hscalar, htoken⟩ := coerceBytes_readResult op.type reply
    refine ⟨fun process invoke complete => ?_, ?_⟩
    · rw [observe_read _ _ _ _ _ hlabel hvalue hscalar]
      exact ⟨rfl, htoken⟩
    · exact (writeLogObserve_eq_none_iff _ _).mpr (Or.inr hvalue)

/-- **Reads of a generator.** Whatever driver plans a single-key read for an operation that a generator
of an accepted workload with payloads emits, and whatever the server answers, the operation is recorded
as a read exactly when its label is not "r". -/
theorem read_recorded_iff (R : RandV2) {w : Workload} {seed id n : I64} {f : Factory} (hnew : new w seed id n = .ok f)
    (hsize : 1 ≤ w.valueSize.val) (shard : Int) (i : Nat) (t : Target) (scanLimit : Int)
    (hread : t.ReadsKey (f.emits R shard i) scanLimit) (reply : Reply) :
    RecordedAsRead (f.emits R shard i) (readResult (f.emits R shard i).type reply) reply.token ↔
      (f.emits R shard i).type ≠ "r" := by
  rw [readsKey_iff] at hread
  rw [recordedAsRead_iff hread, (emits_spec R hnew shard i).2]
  rcases hread with h | h <;> rw [h]
  · exact ⟨fun _ => by decide, fun _ => if_neg (by decide)⟩
  · rw [if_pos (by decide)]
    exact ⟨fun hnil => absurd hnil (value_ne_nil _ (by omega)), fun hne => absurd rfl hne⟩

/-- A register workload in which the label "r" is the only operation. -/
def shortReads : Workload :=
  { name := "register", mode := .correctness, operations := [⟨"r", 1⟩], keySpace := 1, keyDist := .uniform,
    valueSize := 8, verifyModel := .register, params := ∅ }

def shortReadsFactory : Factory :=
  { w := shortReads, seed := 0, workerID := 0, strideN := 1, base := 0, localSpace := 1, zipfS := defaultZipfS,
    cum := [1], total := 1 }

/-- The first "r" of that workload is planned as a read by every driver, and both observers take it for
a write. -/
theorem short_read_recorded_as_write :
    new shortReads 0 0 1 = .ok shortReadsFactory ∧
    (∀ t : Target, t.ReadsKey (shortReadsFactory.emits pcgRand 0 0) 0) ∧
    (observe 0 (shortReadsFactory.emits pcgRand 0 0) (readResult "r" .noRows) 0 1).f = .write ∧
    writeLogObserve (shortReadsFactory.emits pcgRand 0 0) (readResult "r" .noRows) ≠ none ∧
    ¬RecordedAsRead (shortReadsFactory.emits pcgRand 0 0) (readResult "r" .noRows) Reply.noRows.token := by
  have hfamily : (observe 0 (shortReadsFactory.emits pcgRand 0 0) (readResult "r" .noRows) 0 1).f = .write := by
    decide +kernel
  refine ⟨rfl, fun t => (readsKey_iff t _ _).mpr (by decide +kernel), hfamily, by decide +kernel, fun h => ?_⟩
  rw [(h.1 0 0 1).1] at hfamily
  cases hfamily

theorem read_recorded_iff_on_short_reads :
    RecordedAsRead (shortReadsFactory.emits pcgRand 0 0)
        (readResult (shortReadsFactory.emits pcgRand 0 0).type (.row (some [7]))) (Reply.row (some [7])).token ↔
      (shortReadsFactory.emits pcgRand 0 0).type ≠ "r" := by
  have hnew : new shortReads 0 0 1 = .ok shortReadsFactory := rfl
  exact read_recorded_iff pcgRand hnew (by decide) 0 0 .postgresql 0 ((readsKey_iff _ _ _).mpr (by decide +kernel)) _

end Proofload.Drivers
