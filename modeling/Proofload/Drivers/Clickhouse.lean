import Proofload.Drivers.Postgres
import Proofload.Drivers.Session
import Mathlib.Data.Set.Insert

/-!
# Runs on ClickHouse (`targets/clickhouse/clickhousedriver/sql.go`, `conn.go`)

Every connection of a run talks to the first endpoint. `ReplacingDocumented` says what the driver relies on there: the
table keeps, of the rows of a key, at least one that is as new by `seq` as any insert it acknowledged, and a read
returns a row with the greatest `seq`. The row of an insert that was answered with an error may appear later or never,
and the table may hold rows of earlier runs.

* `stands_after` : what the table stands for after a run;
* `no_stale_read` : a read never returns a row older, by `seq`, than an insert acknowledged before it began;
* `reconcile_exact_despite_merges` : read-back finds an acknowledged write whenever the read is answered.
-/

namespace Proofload.Drivers.Clickhouse
open Lib WorkloadGen Verify Runner

set_option autoImplicit false

/-! ## The driver -/

variable {σ : Type}

/-- `chConn.Execute`; the column `v` is scanned into a string. -/
def execute : Session σ Bytes → Int → σ → Operation → σ × OpResult := executeWith planFor some

/-- A run against a table in any state. -/
def deps (gen : Nat → Nat → Operation) (db : Session σ Bytes) (scanLimit : Int) (start : σ) : Deps σ where
  gen := gen
  execute := execute db scanLimit
  empty := start

/-- A row of `proofload_kv`. -/
structure Row where
  k : Int
  v : Bytes
  seq : Int
deriving DecidableEq

/-- The row that an operation inserts. -/
def rowOf (op : Operation) : Row := ⟨op.key, op.value, op.seq⟩

/-- The arguments of the insert. -/
def Row.args (r : Row) : List Arg := [.int r.k, .text r.v, .int r.seq]

section Execute
variable (db : Session σ Bytes) (limit : Int) (t : σ) {op : Operation}

theorem execute_set (h : Sets op.type) :
    execute db limit t op = Prod.map id (execWrite op.type) (db.exec t insertSQL (rowOf op).args) := by
  unfold execute executeWith planFor planWith
  rcases h with h | h | h <;> rw [h] <;> rfl

theorem execute_read (h : op.type = "read" ∨ op.type = "r") :
    execute db limit t op = Prod.map id (execRead some op.type) (db.row t readSQL [.int op.key]) := by
  unfold execute executeWith planFor planWith
  rcases h with h | h <;> rw [h] <;> rfl

theorem execute_other (h : ¬Sets op.type) :
    (execute db limit t op).1 = t ∨ (∃ args, (execute db limit t op).1 = (db.row t readSQL args).1) ∨
      ∃ args, (execute db limit t op).1 = (db.rows t scanSQL args).1 := by
  unfold Sets at h
  push Not at h
  by_cases hread : op.type = "read" ∨ op.type = "r"
  · rw [execute_read db limit t hread]
    exact Or.inr (Or.inl ⟨_, rfl⟩)
  · by_cases hscan : op.type = "scan"
    · refine Or.inr (Or.inr ?_)
      unfold execute executeWith planFor planWith
      rw [hscan]
      exact ⟨_, rfl⟩
    · refine Or.inl ?_
      unfold execute executeWith planFor planWith
      rw [if_neg hread, if_neg (by simp [h.1, h.2.2]), if_neg h.2.1, if_neg hscan]

end Execute

/-! ## The servers -/

/-- What the documentation of ClickHouse and of its client says of the driver's statements on a ReplacingMergeTree with
version column `seq`. `sent t` are the rows that the table had or that were sent to it since, and `kept t` are those of
them it stands for: a merge may drop such a row, but only in favour of one of the key that is not older. -/
structure ReplacingDocumented (db : Session σ Bytes) (sent kept : σ → Set Row) : Prop where
  exec_sent : ∀ t r, sent (db.exec t insertSQL (Row.args r)).1 ⊆ insert r (sent t)
  exec_kept : ∀ t r, kept t ⊆ kept (db.exec t insertSQL (Row.args r)).1
  exec_ok : ∀ t r, (db.exec t insertSQL (Row.args r)).2 = .ok () → r ∈ kept (db.exec t insertSQL (Row.args r)).1
  row_sent : ∀ t args, sent (db.row t readSQL args).1 ⊆ sent t
  row_kept : ∀ t args, kept t ⊆ kept (db.row t readSQL args).1
  row_none : ∀ t k, (db.row t readSQL [.int k]).2 = .ok none → ∀ r ∈ kept t, r.k ≠ k
  row_some : ∀ t k v, (db.row t readSQL [.int k]).2 = .ok (some v) →
    ∃ r ∈ sent t, r.k = k ∧ r.v = v ∧ ∀ r' ∈ kept t, r'.k = k → r'.seq ≤ r.seq
  rows_sent : ∀ t args, sent (db.rows t scanSQL args).1 ⊆ sent t
  rows_kept : ∀ t args, kept t ⊆ kept (db.rows t scanSQL args).1

section Documented
variable {db : Session σ Bytes} {sent kept : σ → Set Row}

theorem execute_other_views (hdb : ReplacingDocumented db sent kept) {limit : Int} (t : σ) {op : Operation}
    (h : ¬Sets op.type) :
    sent (execute db limit t op).1 ⊆ sent t ∧ kept t ⊆ kept (execute db limit t op).1 := by
  rcases execute_other db limit t h with heq | ⟨args, heq⟩ | ⟨args, heq⟩ <;> rw [heq]
  · exact ⟨subset_rfl, subset_rfl⟩
  · exact ⟨hdb.row_sent t args, hdb.row_kept t args⟩
  · exact ⟨hdb.rows_sent t args, hdb.rows_kept t args⟩

theorem execute_kept (hdb : ReplacingDocumented db sent kept) {limit : Int} (t : σ) (op : Operation) :
    kept t ⊆ kept (execute db limit t op).1 := by
  by_cases hset : Sets op.type
  · rw [execute_set db limit t hset]
    exact hdb.exec_kept t _
  · exact (execute_other_views hdb t hset).2

theorem execute_sent (hdb : ReplacingDocumented db sent kept) {limit : Int} {t : σ} {op : Operation} {r : Row}
    (hr : r ∈ sent (execute db limit t op).1) : r ∈ sent t ∨ (Sets op.type ∧ r = rowOf op) := by
  by_cases hset : Sets op.type
  · rw [execute_set db limit t hset] at hr
    exact (hdb.exec_sent t _ hr).symm.imp id fun heq => ⟨hset, heq⟩
  · exact Or.inl ((execute_other_views hdb t hset).1 hr)

theorem execute_acknowledged (hdb : ReplacingDocumented db sent kept) {limit : Int} {t : σ} {op : Operation}
    (hset : Sets op.type) (herr : (execute db limit t op).2.err = none) :
    rowOf op ∈ kept (execute db limit t op).1 := by
  rw [execute_set db limit t hset] at herr ⊢
  exact hdb.exec_ok t _ (execWrite_err herr)

theorem execute_read_spec (hdb : ReplacingDocumented db sent kept) {limit : Int} {t : σ} {op : Operation}
    (hread : op.type = "read" ∨ op.type = "r") (herr : (execute db limit t op).2.err = none) :
    ((execute db limit t op).2 = readResult op.type .noRows ∧ ∀ r ∈ kept t, r.k ≠ op.key) ∨
      ∃ r ∈ sent t, r.k = op.key ∧ (∀ r' ∈ kept t, r'.k = op.key → r'.seq ≤ r.seq) ∧
        (execute db limit t op).2 = readResult op.type (.row (some r.v)) := by
  rw [execute_read db limit t hread] at herr ⊢
  obtain ⟨answer, hrow⟩ := execRead_err herr
  rw [Prod.map_snd, hrow]
  cases answer with
  | none => exact Or.inl ⟨rfl, hdb.row_none t _ hrow⟩
  | some v =>
      obtain ⟨r, hr, hkey, rfl, hmax⟩ := hdb.row_some t _ v hrow
      exact Or.inr ⟨r, hr, hkey, hmax, rfl⟩

/-! ## A whole run -/

/-- All rows were there at the start or belong to an executed insert, and the acknowledged ones are kept. -/
structure Stands (sent kept : σ → Set Row) (start t : σ) (execs : List Exec) : Prop where
  sent : ∀ r ∈ sent t, r ∈ sent start ∨ ∃ e ∈ execs, Sets e.op.type ∧ r = rowOf e.op
  kept : ∀ e ∈ execs, Sets e.op.type → e.res.err = none → rowOf e.op ∈ kept t

/-- **What the table stands for after a run.** -/
theorem stands_after (hdb : ReplacingDocumented db sent kept) {gen : Nat → Nat → Operation} {limit : Int} {start : σ}
    {execs : List Exec}
    (h : ∀ pre e post, execs = pre ++ e :: post →
      e.res = ((deps gen db limit start).execute ((deps gen db limit start).after pre) e.op).2) :
    Stands sent kept start ((deps gen db limit start).after execs) execs := by
  induction execs using List.reverseRecOn with
  | nil => exact ⟨fun r hr => Or.inl hr, fun e he => absurd he List.not_mem_nil⟩
  | append_singleton execs e ih =>
      have hbefore := ih fun pre e' post heq => h pre e' (post ++ [e]) (by rw [heq]; simp)
      have hres := h execs e [] rfl
      rw [after_concat]
      refine ⟨fun r hr => ?_, fun e' he' hset hok => ?_⟩
      · rcases execute_sent hdb hr with hr | ⟨hset, rfl⟩
        · refine (hbefore.sent r hr).imp id ?_
          rintro ⟨e', he', hset, heq⟩
          exact ⟨e', List.mem_append_left _ he', hset, heq⟩
        · exact Or.inr ⟨e, by simp, hset, rfl⟩
      · rcases List.mem_append.mp he' with he' | he'
        · exact execute_kept hdb _ _ (hbefore.kept e' he' hset hok)
        · obtain rfl := List.mem_singleton.mp he'
          rw [hres] at hok
          exact execute_acknowledged hdb hset hok

end Documented

/-! ## One server -/

/-- The row of every key and the number of inserts so far. -/
abbrev Merged := Map Int (Bytes × Int) × Nat

/-- A row that is merged at once with the one of its key. -/
def Merged.add (t : Merged) (r : Row) : Map Int (Bytes × Int) :=
  match t.1.lookup r.k with
  | some old => if r.seq ≤ old.2 then t.1 else t.1.insert r.k (r.v, r.seq)
  | none => t.1.insert r.k (r.v, r.seq)

/-- The answer to the second insert is lost. -/
def mergedTable : Session Merged Bytes where
  row t _ args := match args with
    | [.int k] => (t, .ok ((t.1.lookup k).map Prod.fst))
    | _ => (t, .error "clickhouse: expected 1 arguments")
  rows t _ _ := (t, .error "read: connection reset by peer")
  exec t _ args := match args with
    | [.int k, .text v, .int seq] =>
        ((t.add ⟨k, v, seq⟩, t.2 + 1), if t.2 = 1 then .error "read: connection reset by peer" else .ok ())
    | _ => (t, .error "clickhouse: expected 3 arguments")

def Merged.sent (t : Merged) : Set Row := {r | t.1.lookup r.k = some (r.v, r.seq)}

def Merged.kept (t : Merged) : Set Row := {r | ∃ row, t.1.lookup r.k = some row ∧ r.seq ≤ row.2}

theorem Merged.lookup_add (t : Merged) (r : Row) (k : Int) :
    (t.add r).lookup k = t.1.lookup k ∧ (k = r.k → r ∈ t.kept) ∨
      k = r.k ∧ (t.add r).lookup k = some (r.v, r.seq) ∧ ∀ old, t.1.lookup k = some old → old.2 ≤ r.seq := by
  unfold Merged.add
  cases hold : t.1.lookup r.k with
  | none =>
      dsimp only
      rw [Map.lookup_insert_eq]
      split_ifs with hk
      · refine Or.inr ⟨hk, rfl, fun old hlook => ?_⟩
        rw [hk, hold] at hlook
        cases hlook
      · exact Or.inl ⟨rfl, fun heq => absurd heq hk⟩
  | some old =>
      dsimp only
      split_ifs with hle
      · exact Or.inl ⟨rfl, fun _ => ⟨old, hold, hle⟩⟩
      · rw [Map.lookup_insert_eq]
        split_ifs with hk
        · refine Or.inr ⟨hk, rfl, fun old' hlook => ?_⟩
          rw [hk, hold, Option.some_inj] at hlook
          rw [← hlook]
          omega
        · exact Or.inl ⟨rfl, fun heq => absurd heq hk⟩

theorem mergedTable_documented : ReplacingDocumented mergedTable Merged.sent Merged.kept where
  exec_sent t r r' hr' := by
    have hlook : (t.add r).lookup r'.k = some (r'.v, r'.seq) := hr'
    rcases t.lookup_add r r'.k with ⟨hsame, -⟩ | ⟨hk, hnew, -⟩
    · exact Or.inr (hsame.symm.trans hlook)
    · rw [hnew, Option.some_inj, Prod.mk.injEq] at hlook
      obtain ⟨k, v, seq⟩ := r'
      obtain ⟨rfl, rfl⟩ := hlook
      exact Or.inl (congrArg (Row.mk · r.v r.seq) hk)
  exec_kept t r r' := by
    rintro ⟨row, hrow, hle⟩
    rcases t.lookup_add r r'.k with ⟨hsame, -⟩ | ⟨-, hnew, hold⟩
    · exact ⟨row, hsame.trans hrow, hle⟩
    · exact ⟨_, hnew, hle.trans (hold row hrow)⟩
  exec_ok t r _ := by
    rcases t.lookup_add r r.k with ⟨hsame, hkept⟩ | ⟨-, hnew, -⟩
    · obtain ⟨row, hrow, hle⟩ := hkept rfl
      exact ⟨row, hsame.trans hrow, hle⟩
    · exact ⟨_, hnew, le_refl _⟩
  row_sent t args := by
    unfold mergedTable
    dsimp only
    split <;> exact subset_rfl
  row_kept t args := by
    unfold mergedTable
    dsimp only
    split <;> exact subset_rfl
  row_none t k h := by
    rintro r ⟨row, hrow, -⟩ rfl
    simp [mergedTable, hrow] at h
  row_some t k v h := by
    obtain ⟨seq, hlook⟩ : ∃ seq, t.1.lookup k = some (v, seq) := by
      simpa [mergedTable] using h
    refine ⟨⟨k, v, seq⟩, hlook, rfl, rfl, ?_⟩
    rintro r' ⟨row, hrow, hle⟩ rfl
    rw [hlook, Option.some_inj] at hrow
    rwa [← hrow] at hle
  rows_sent t args := subset_rfl
  rows_kept t args := subset_rfl

/-- **No stale reads.** In every run of the load loop, with any operations, on a table in any state, whatever is merged
and whichever statements fail: a measured read that was answered returns the value of a row of its key which was
there at the start or inserted by the run, and which is not older, by `seq`, than any measured insert of the key that
was acknowledged before the read began; it finds no row only if there is no such insert. -/
theorem no_stale_read {db : Session σ Bytes} {sent kept : σ → Set Row} (hdb : ReplacingDocumented db sent kept)
    (gen : Nat → Nat → Operation) (limit : Int) (start : σ) {o : Options} {s : State σ}
    (hreach : Reachable (step (deps gen db limit start) o) (init (deps gen db limit start)) s) {ob : Observation}
    (hob : ob ∈ s.observed) (hread : ob.op.type = "read" ∨ ob.op.type = "r") (hok : ob.res.err = none) :
    (ob.res = readResult ob.op.type .noRows ∧
      ∀ ob' ∈ s.observed, Acknowledged Sets ob.op.key ob' → ob.invoke ≤ ob'.complete) ∨
    ∃ r : Row, r.k = ob.op.key ∧ ob.res = readResult ob.op.type (.row (some r.v)) ∧
      (r ∈ sent start ∨ ∃ e ∈ s.execs, Sets e.op.type ∧ r = rowOf e.op ∧ e.time ≤ ob.complete) ∧
      ∀ ob' ∈ s.observed, Acknowledged Sets ob.op.key ob' → ob'.complete < ob.invoke → ob'.op.seq ≤ r.seq := by
  have htracked := tracked hreach
  have hreplayed := replayed hreach
  obtain ⟨e₀, post, hsplit, -, hop, hres, -, hle, -⟩ := exists_exec htracked hob
  generalize hpre : s.execs.take ob.exec = pre at hsplit
  have hresult := hreplayed.result _ _ _ hsplit
  have hstands : Stands sent kept start ((deps gen db limit start).after pre) pre := by
    refine stands_after hdb fun pre' e' post' heq => hreplayed.result pre' e' (post' ++ e₀ :: post) ?_
    rw [hsplit, heq]
    simp
  have hacked : ∀ ob' ∈ s.observed, Acknowledged Sets ob.op.key ob' → ob'.complete < ob.invoke →
      rowOf ob'.op ∈ kept ((deps gen db limit start).after pre) := by
    rintro ob' hob' ⟨herr, hset, -⟩ hlt
    obtain ⟨e', he', hop', hres'⟩ := executed_before htracked hob hob' hlt
    rw [hpre] at he'
    have hkept := hstands.kept e' he' (by rwa [hop']) (by rwa [hres'])
    rwa [hop'] at hkept
  have hexec : ob.res = (execute db limit ((deps gen db limit start).after pre) ob.op).2 := by
    rw [← hres, hresult, hop]
    rfl
  rw [hexec] at hok
  rcases execute_read_spec hdb hread hok with ⟨hnone, hkeys⟩ | ⟨r, hr, hkey, hmax, hrow⟩
  · refine Or.inl ⟨hexec.trans hnone, fun ob' hob' hack => ?_⟩
    by_contra hlt
    exact hkeys _ (hacked ob' hob' hack (by omega)) hack.2.2
  · refine Or.inr ⟨r, hkey, hexec.trans hrow, (hstands.sent r hr).imp id ?_, fun ob' hob' hack hlt => ?_⟩
    · rintro ⟨e, he, hset, heq⟩
      have htime : e.time ≤ e₀.time := by
        have hclock := htracked.clock
        rw [hsplit] at hclock
        exact (List.pairwise_append.mp hclock).2.2 e he e₀ List.mem_cons_self
      refine ⟨e, ?_, hset, heq, htime.trans hle⟩
      rw [hsplit]
      exact List.mem_append_left _ he
    · exact hmax _ (hacked ob' hob' hack hlt) hack.2.2

/-- Connection 1 inserts the key with a smaller sequence number than connection 0, which then reads it. -/
def crossedInserts (shard i : Nat) : Operation :=
  if shard = 1 then ⟨"insert", 1, [9], 3⟩ else if i = 0 then ⟨"insert", 1, [7], 5⟩ else ⟨"read", 1, [], 0⟩

def crossedRun : List Action :=
  [.wake 0, .dispatch 0, .exec 0, .ret 0, .finish 0, .tick 1, .wake 1, .dispatch 1, .exec 1, .ret 1, .finish 1, .tick 1,
   .wake 0, .dispatch 0, .exec 0, .ret 0, .finish 0]

/-- The read returns the value of the first insert, which has the greater sequence number. -/
theorem no_stale_read_after_merge :
    ∃ s, Reachable (step (deps crossedInserts mergedTable 100 (∅, 0)) ⟨2, 0⟩)
        (init (deps crossedInserts mergedTable 100 (∅, 0))) s ∧
      ∃ ob ∈ s.observed, ob.res = readResult "read" (.row (some [7])) ∧
        ∃ r : Row, ob.res = readResult ob.op.type (.row (some r.v)) ∧
          ∀ ob' ∈ s.observed, Acknowledged Sets ob.op.key ob' → ob'.complete < ob.invoke → ob'.op.seq ≤ r.seq := by
  obtain ⟨s, hreach, ob, hob, hread, hres⟩ :
      ∃ s, Reachable (step (deps crossedInserts mergedTable 100 (∅, 0)) ⟨2, 0⟩)
        (init (deps crossedInserts mergedTable 100 (∅, 0))) s ∧
      ∃ ob ∈ s.observed, (ob.op.type = "read" ∨ ob.op.type = "r") ∧ ob.res = readResult "read" (.row (some [7])) :=
    exists_reachable crossedRun (by decide +kernel)
  have hok : ob.res.err = none := by
    rw [hres]
    rfl
  refine ⟨s, hreach, ob, hob, hres, ?_⟩
  rcases no_stale_read mergedTable_documented crossedInserts 100 (∅, 0) hreach hob hread hok with ⟨hnone, -⟩ | h
  · rw [hres] at hnone
    exact absurd (congrArg OpResult.rows hnone) (by simp [readResult])
  · obtain ⟨r, -, hrow, -, hmax⟩ := h
    exact ⟨r, hrow, hmax⟩

/-! ## Reconciliation -/

section Reconcile
variable {db : Session σ Bytes} {sent kept : σ → Set Row}

/-- Every row holds the payload of its key. -/
def Payloads (sent : σ → Set Row) (size : Int) (t : σ) : Prop := ∀ r ∈ sent t, r.v = value r.k size

/-- The table stands for a row of the key. -/
def Held (kept : σ → Set Row) (t : σ) (k : Int) : Prop := ∃ r ∈ kept t, r.k = k

theorem durable (hdb : ReplacingDocumented db sent kept) (gen : Nat → Nat → Operation) (limit : Int) {size : Int}
    {start : σ} (hstart : Payloads sent size start) :
    Durable (deps gen db limit start) (Drawn size) Sets (Payloads sent size) (Held kept) where
  start := hstart
  keeps t op hop ht r hr := by
    rcases execute_sent hdb hr with hr | ⟨hset, rfl⟩
    · exact ht r hr
    · exact (hop.payload.resolve_left fun hnot => hnot.1 hset).2
  kept t op k _ _ hk := hk.imp fun r hr => ⟨execute_kept hdb t op hr.1, hr.2⟩
  made t op _ _ hset herr := ⟨rowOf op, execute_acknowledged hdb hset herr, rfl⟩

theorem read_of_held (hdb : ReplacingDocumented db sent kept) {size limit : Int} {t : σ} (ht : Payloads sent size t)
    {op : Operation} (hheld : Held kept t op.key) (hread : op.type = "read")
    (herr : (execute db limit t op).2.err = none) :
    (execute db limit t op).2 = readResult op.type (.row (some (value op.key size))) := by
  rcases execute_read_spec hdb (Or.inl hread) herr with ⟨-, hkeys⟩ | ⟨r, hr, hkey, -, hrow⟩
  · obtain ⟨r, hr, hkey⟩ := hheld
    exact absurd hkey (hkeys r hr)
  · rw [hrow, ht r hr, hkey]

end Reconcile

/-- **Reconciliation of a run on ClickHouse.** For every workload over these labels with payloads, any connections,
warmup and interleaving, on a table in which earlier runs left at most the same payloads, whatever is merged and
whichever statements fail: the reduced log expects the payload of exactly the keys with an acknowledged measured
write, and read-back, in any order, adds nothing to the report exactly if all its reads are answered. -/
theorem reconcile_exact_despite_merges (R : RandV2) {w : Workload} {seed id stride : I64} {f : Factory}
    (hnew : new w seed id stride = .ok f) (hlabels : ∀ op ∈ w.operations, op.type ∈ labels)
    (hsize : 1 ≤ w.valueSize.val) {db : Session σ Bytes} {sent kept : σ → Set Row}
    (hdb : ReplacingDocumented db sent kept) {limit : Int} {start : σ}
    (hstart : ∀ r ∈ sent start, r.v = value r.k w.valueSize.val) {o : Options} {s : State σ}
    (hreach : Reachable (step (deps (fun shard i => f.emits R shard i) db limit start) o)
      (init (deps (fun shard i => f.emits R shard i) db limit start)) s)
    {opts : ReconcileOptions} (hread : opts.readOp = Postgresql.pickReadOp w) (before : Int → List Int) :
    (∀ k, ((readLog (expectationLog s)).lookup k).isSome ↔ ∃ ob ∈ s.observed, Acknowledged Sets k ob) ∧
    (∀ k rec, (readLog (expectationLog s)).lookup k = some rec → rec.checksum = checksum (value k w.valueSize.val)) ∧
    ∀ (iter : IterOrder Int) (report : VerifyReport),
      readBack (readBackOn (deps (fun shard i => f.emits R shard i) db limit start) opts.readOp s.target before)
          (readLog (expectationLog s)) opts iter report = report ↔
        ∀ k, ((readLog (expectationLog s)).lookup k).isSome →
          (readBackOn (deps (fun shard i => f.emits R shard i) db limit start) opts.readOp s.target before
            ⟨opts.readOp, k, [], 0⟩).err = none := by
  have hgen : ∀ shard i : Nat, Drawn w.valueSize.val (f.emits R shard i) :=
    fun shard i => emits_drawn R hnew hlabels shard i
  rw [Postgresql.pickReadOp_of_labels hlabels (by decide) (by decide)] at hread
  exact reconcile_durable (durable hdb (fun shard i => f.emits R shard i) limit hstart) hgen hsize hreach hread
    (fun t k ht hk herr => read_of_held hdb ht hk rfl herr) before

def insertsGen (shard i : Nat) : Operation := (insertsFactory 8).emits pcgRand shard i

def insertTwice : List Action :=
  [.wake 0, .dispatch 0, .exec 0, .ret 0, .finish 0, .wake 0, .dispatch 0, .exec 0, .ret 0, .finish 0]

/-- The answer to the second insert is lost; read-back is about the first. -/
theorem reconcile_exact_on_lost_answer :
    ∃ s, Reachable (step (deps insertsGen mergedTable 100 (∅, 0)) ⟨1, 0⟩)
        (init (deps insertsGen mergedTable 100 (∅, 0))) s ∧
      s.observed.map (fun ob => (ob.op.key, ob.res.err.isSome)) = [(0, false), (0, true)] ∧
      ((readLog (expectationLog s)).lookup 0).isSome ∧
      ∀ (iter : IterOrder Int) (report : VerifyReport),
        readBack (readBackOn (deps insertsGen mergedTable 100 (∅, 0))
            (Postgresql.cliOptions (insertsFactory 8).w).readOp s.target fun _ => [])
            (readLog (expectationLog s)) (Postgresql.cliOptions (insertsFactory 8).w) iter report = report ↔
          ∀ k, ((readLog (expectationLog s)).lookup k).isSome →
            (readBackOn (deps insertsGen mergedTable 100 (∅, 0))
              (Postgresql.cliOptions (insertsFactory 8).w).readOp s.target (fun _ => [])
              ⟨(Postgresql.cliOptions (insertsFactory 8).w).readOp, k, [], 0⟩).err = none := by
  obtain ⟨s, hreach, hobserved, hlog⟩ : ∃ s,
      Reachable (step (deps insertsGen mergedTable 100 (∅, 0)) ⟨1, 0⟩)
        (init (deps insertsGen mergedTable 100 (∅, 0))) s ∧
      s.observed.map (fun ob => (ob.op.key, ob.res.err.isSome)) = [(0, false), (0, true)] ∧
      ((readLog (expectationLog s)).lookup 0).isSome := exists_reachable insertTwice (by decide +kernel)
  exact ⟨s, hreach, hobserved, hlog, (reconcile_exact_despite_merges pcgRand (new_insertsFactory 8) (by decide)
    (by decide) mergedTable_documented (fun r hr => by cases hr) hreach rfl _).2.2⟩

end Proofload.Drivers.Clickhouse
