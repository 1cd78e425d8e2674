import Proofload.Drivers.Postgres
import Proofload.Drivers.Session
import Proofload.Lib.Encoding

/-!
# Reconciliation of a Redis run (`targets/redis/redisdriver/cmd.go`, `conn.go`)

The commands of the driver on a store that executes each of them atomically, and the driver's `Execute` on
top of it. Sequence numbers collide between connections and warmup writes leave no record, so the reduced log
does not tell which write came last; it does not have to, since all writes of a key carry the same payload.

* `execute_lookup` : what an operation does to a key of the store;
* `after_lookup` : after a run a key is present exactly when it was set, and holds the payload of the key;
* `reconcile_sound` : the log of any run expects exactly the measured writes, and read-back finds all of them.
-/

namespace Proofload.Drivers.Redis
open Lib WorkloadGen Verify Runner

set_option autoImplicit false

/-! ## The store -/

/-- The string keys and their values. -/
abbrev Store := Map String Bytes

def Store.get (t : Store) (key : String) : Option Bytes := t.lookup key

def Store.set (t : Store) (key : String) (value : Bytes) : Store := t.insert key value

/-- One entry for every requested key. -/
def Store.mget (t : Store) (keys : List String) : List (Option Bytes) := keys.map t.get

/-- WAIT reports how many replicas acknowledged in time; too few of them are no error. -/
def Store.wait (_ : Store) (_replicas _timeout : Int) : Except String Int := .ok 0

/-! ## The driver -/

inductive ConsistencyLevel where
  | none
  | wait
deriving DecidableEq

/-- The resolved durability policy of a connection. -/
structure Consistency where
  level : ConsistencyLevel
  replicas : Int
  timeout : Int
deriving DecidableEq

/-- What `Prepare` and `Connect` set up. -/
structure Conn where
  scanLimit : Int
  cons : Consistency
deriving DecidableEq

def execGet (t : Store) (type : OpType) (plan : OpPlan) : Store × OpResult :=
  match t.get plan.key with
  | some v => (t, readResult type (.row (some v)))
  | none => (t, readResult type .noRows)

def execSet (c : Conn) (t : Store) (type : OpType) (plan : OpPlan) : Store × OpResult :=
  let t := t.set plan.key plan.value
  let err := if c.cons.level = .wait then
      match t.wait c.cons.replicas c.cons.timeout with
      | .ok _ => none
      | .error e => some e
    else none
  (t, { type, rows := 1, observed := .nil, err })

/-- Missing members are skipped. -/
def execScan (t : Store) (type : OpType) (plan : OpPlan) : Store × OpResult :=
  let out := (t.mget plan.keys).filterMap id
  (t, { type, rows := out.length, observed := .byteSlices out, err := none })

/-- `redisConn.Execute`. -/
def execute (c : Conn) (t : Store) (op : Operation) : Store × OpResult :=
  match planFor op c.scanLimit with
  | .error err => (t, { type := op.type, rows := 0, observed := .nil, err := some err })
  | .ok plan =>
      match plan.kind with
      | .get => execGet t op.type plan
      | .scan => execScan t op.type plan
      | .set => execSet c t op.type plan

/-- A run of a workload's generators against the empty store. -/
def deps (R : RandV2) (f : Factory) (c : Conn) : Deps Store where
  gen shard i := f.emits R shard i
  execute := execute c
  empty := ∅

/-! ## One operation -/

theorem keyName_injective {k k' : Int} (h : keyName k = keyName k') : k = k' := by
  unfold keyName at h
  apply toString_int_injective
  exact String.append_right_inj _ |>.mp (String.append_left_inj _ |>.mp h)

theorem execute_read (c : Conn) (t : Store) {op : Operation} (h : op.type = "read") :
    execute c t op = (t, readResult "read" (match t.lookup (keyName op.key) with
      | none => .noRows
      | some v => .row (some v))) := by
  unfold execute planFor planWith
  rw [h]
  simp only [true_or, if_true, execGet, Store.get]
  cases t.lookup (keyName op.key) <;> rfl

theorem execute_scan (c : Conn) (t : Store) {op : Operation} (h : op.type = "scan") :
    (execute c t op).1 = t ∧ (execute c t op).2.err = none := by
  unfold execute planFor planWith
  rw [h]
  exact ⟨rfl, rfl⟩

theorem execute_set (c : Conn) (t : Store) {op : Operation} (h : Sets op.type) :
    (execute c t op).1 = t.insert (keyName op.key) op.value ∧ (execute c t op).2.err = none := by
  have herr : ∀ t : Store, (execSet c t op.type (setPlan op)).2.err = none := by
    intro t
    simp [execSet, Store.wait]
  have hexec : execute c t op = execSet c t op.type (setPlan op) := by
    unfold execute planFor planWith
    rcases h with h | h | h <;> rw [h] <;> rfl
  rw [hexec]
  exact ⟨rfl, herr t⟩

/-- What an operation does to a key: a set replaces its value, nothing else touches it, and nothing fails. -/
theorem execute_lookup {size : Int} (c : Conn) (t : Store) {op : Operation} (h : Drawn size op) (k : Int) :
    (execute c t op).1.lookup (keyName k) =
      (if op.key = k ∧ Sets op.type then some op.value else t.lookup (keyName k)) ∧ (execute c t op).2.err = none := by
  have hlabel := h.label
  by_cases hsets : Sets op.type
  · obtain ⟨ht, herr⟩ := execute_set c t hsets
    rw [ht, Map.lookup_insert_eq]
    refine ⟨?_, herr⟩
    by_cases hk : op.key = k
    · simp [hk, hsets]
    · rw [if_neg fun heq => hk (keyName_injective heq).symm, if_neg fun hand => hk hand.1]
  · rw [if_neg fun hand => hsets hand.2]
    simp only [labels, List.mem_cons, List.not_mem_nil, or_false] at hlabel
    rcases hlabel with htype | htype | htype | htype | htype
    · rw [execute_read c t htype]
      cases t.lookup (keyName op.key) <;> exact ⟨rfl, rfl⟩
    · obtain ⟨ht, herr⟩ := execute_scan c t htype
      rw [ht]
      exact ⟨rfl, herr⟩
    · exact absurd (Or.inl htype) hsets
    · exact absurd (Or.inr (Or.inl htype)) hsets
    · exact absurd (Or.inr (Or.inr htype)) hsets

/-! ## A whole run -/

section Run
variable {R : RandV2} {f : Factory} {c : Conn} {size : Int}

/-- **The store after a run.** A key is present exactly when it was set, and holds the payload of the key. -/
theorem after_lookup {execs : List Exec} (h : ∀ e ∈ execs, Drawn size e.op) (k : Int) :
    ((((deps R f c).after execs).lookup (keyName k)).isSome ↔ ∃ e ∈ execs, Sets e.op.type ∧ e.op.key = k) ∧
      ∀ v, ((deps R f c).after execs).lookup (keyName k) = some v → v = value k size := by
  induction execs using List.reverseRecOn with
  | nil =>
      refine ⟨?_, fun v hv => by cases hv⟩
      simp [deps]
  | append_singleton execs e ih =>
      have hlast : Drawn size e.op := h e (by simp)
      obtain ⟨hsome, hval⟩ := ih fun x hx => h x (List.mem_append_left _ hx)
      have hlook : ((deps R f c).after (execs ++ [e])).lookup (keyName k) = _ :=
        (congrArg (AList.lookup (keyName k)) (after_concat execs e)).trans (execute_lookup c _ hlast k).1
      rw [hlook]
      simp only [List.mem_append, List.mem_singleton, or_and_right, exists_or, exists_eq_left]
      rw [← hsome]
      split_ifs with hset
      · refine ⟨iff_of_true rfl (Or.inr ⟨hset.2, hset.1⟩), fun v hv => ?_⟩
        obtain rfl := Option.some.inj hv
        rcases hlast.payload with ⟨hnot, -⟩ | ⟨-, hvalue⟩
        · exact absurd hset.2 hnot
        · rw [hvalue, hset.1]
      · exact ⟨(or_iff_left fun hlast => hset ⟨hlast.2, hlast.1⟩).symm, hval⟩

end Run

/-- **Reconciliation of a run on Redis.** For every workload over these labels with payloads, any connections,
warmup, durability policy and interleaving: the reduced log expects the payload of exactly the keys with a measured
write, and read-back over it, in any order, adds neither a loss nor a corruption to the report. -/
theorem reconcile_sound (R : RandV2) {w : Workload} {seed id n : I64} {f : Factory} (hnew : new w seed id n = .ok f)
    (hlabels : ∀ op ∈ w.operations, op.type ∈ labels) (hsize : 1 ≤ w.valueSize.val) {c : Conn} {o : Options}
    {s : State Store} (hreach : Reachable (step (deps R f c) o) (init (deps R f c)) s)
    {opts : ReconcileOptions} (hread : opts.readOp = Postgresql.pickReadOp w) :
    (∀ k, ((readLog (expectationLog s)).lookup k).isSome ↔ ∃ ob ∈ s.observed, Sets ob.op.type ∧ ob.op.key = k) ∧
    (∀ k rec, (readLog (expectationLog s)).lookup k = some rec → rec.checksum = checksum (value k w.valueSize.val)) ∧
    ∀ (iter : IterOrder Int) (report : VerifyReport),
      readBack (fun op => (execute c s.target op).2) (readLog (expectationLog s)) opts iter report = report := by
  have hgen : ∀ shard i, Drawn w.valueSize.val ((deps R f c).gen shard i) :=
    fun shard i => emits_drawn R hnew hlabels shard i
  have hdrawn := (replayed hreach).forall_execs hgen
  have hobserved := fun ob (hob : ob ∈ s.observed) =>
    observed_spec hreach hgen (fun t op h => (execute_lookup c t h 0).2) hob
  have hlog := readLog_expectationLog hsize fun ob hob => ⟨(hobserved ob hob).1.payload, (hobserved ob hob).2.1⟩
  refine ⟨fun k => (hlog k).1, fun k => (hlog k).2, fun iter report => ?_⟩
  apply (readBack_spec _ _ _ _ _).2
  intro k want hwant
  obtain ⟨ob, hob, htype, hkey⟩ := (hlog k).1.mp (by rw [hwant]; rfl)
  obtain ⟨-, -, e, he, hop⟩ := hobserved ob hob
  have hstore := after_lookup (R := R) (f := f) (c := c) hdrawn k
  rw [show (deps R f c).after s.execs = s.target from (replayed hreach).target.symm] at hstore
  rw [← hop] at htype hkey
  obtain ⟨v, hv⟩ := Option.isSome_iff_exists.mp (hstore.1.mpr ⟨e, he, htype, hkey⟩)
  have hexec := execute_read c s.target (show (⟨opts.readOp, k, [], 0⟩ : Operation).type = "read" from
    hread.trans (Postgresql.pickReadOp_of_labels hlabels (by decide) (by decide)))
  unfold Found
  dsimp only at hexec ⊢
  rw [hexec, hv]
  refine ⟨rfl, v, rfl, ?_⟩
  rw [hstore.2 v hv, (hlog k).2 want hwant]

/-- Sets on a single key. -/
def setsOnly : Workload :=
  { name := "sets", mode := .correctness, operations := [⟨"w", 1⟩], keySpace := 1, keyDist := .uniform, valueSize := 8,
    verifyModel := .reconciliation, params := ∅ }

def setsFactory : Factory :=
  { w := setsOnly, seed := 0, workerID := 0, strideN := 1, base := 0, localSpace := 1, zipfS := defaultZipfS,
    cum := [1], total := 1 }

def waitConn : Conn := { scanLimit := 100, cons := { level := .wait, replicas := 1, timeout := 100000000 } }

/-- Two connections set the only key with the same sequence number, and finish in the other order. -/
def crossedSets : List Action :=
  [.wake 0, .wake 1, .dispatch 0, .dispatch 1, .exec 1, .exec 0, .ret 0, .ret 1, .finish 0, .finish 1]

theorem reconcile_sound_on_crossed_sets :
    ∃ s, Reachable (step (deps pcgRand setsFactory waitConn) ⟨2, 0⟩) (init (deps pcgRand setsFactory waitConn)) s ∧
      s.observed.map (fun ob => (ob.op.key, ob.op.seq)) = [(0, 1), (0, 1)] ∧
      ((readLog (expectationLog s)).lookup 0).isSome ∧
      ∀ (iter : IterOrder Int) (report : VerifyReport),
        readBack (fun op => (execute waitConn s.target op).2) (readLog (expectationLog s))
          (Postgresql.cliOptions setsOnly) iter report = report := by
  obtain ⟨s, hreach, hobserved, hlog⟩ : ∃ s, Reachable (step (deps pcgRand setsFactory waitConn) ⟨2, 0⟩)
      (init (deps pcgRand setsFactory waitConn)) s ∧
      s.observed.map (fun ob => (ob.op.key, ob.op.seq)) = [(0, 1), (0, 1)] ∧
      ((readLog (expectationLog s)).lookup 0).isSome := exists_reachable crossedSets (by decide +kernel)
  have hnew : new setsOnly 0 0 1 = .ok setsFactory := rfl
  exact ⟨s, hreach, hobserved, hlog, (reconcile_sound pcgRand hnew (by decide) (by decide) hreach rfl).2.2⟩

end Proofload.Drivers.Redis
