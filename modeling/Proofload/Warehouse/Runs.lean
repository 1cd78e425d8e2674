import Proofload.Emit.Layout
import Proofload.Lib.Maps
import Proofload.Lib.Tables
import Mathlib.Data.List.Sort
import Mathlib.Data.String.Basic

/-!
# The warehouse of runs (`core/warehouse/ingest.go`, `query.go`)

`Ingest` reads the artifacts of a run directory and replaces the row of the run inside a transaction; any read and any
statement can fail, and the deferred rollback then drops what the transaction did. `Runs` filters, orders and cuts the
table.

DuckDB is not part of the repository: `Database` takes its calls as arbitrary functions on the texts of the statements,
and `DuckDBDocumented` says what the warehouse relies on. Nothing is assumed about when a call succeeds, or about the
rows that a database holds when it is opened.

* `ingest_spec` : a call replaces the row of its run or leaves the table alone;
* `mem_table_ingestAll` : the table after any history of calls;
* `runs_lists_latest` : what a listing shows after any history.
-/

namespace Proofload.Warehouse
open Lib Lib.Paths Emit

set_option autoImplicit false

variable {F : Type}

/-- The manifest as far as `Ingest` reads it; the creation time in nanoseconds. -/
structure Manifest where
  runID : String
  target : String
  workload : String
  mode : String
  createdAt : Int
deriving DecidableEq

/-- The summary as far as `Ingest` reads it. -/
structure Summary (F : Type) where
  throughput : F
  p50 : F
  p99 : F
  p999 : F
  max : F
  total : Int
  errors : Int
  clientBound : Bool
deriving DecidableEq

/-- A row of the table `runs`. The creation time is a TIMESTAMP, in microseconds. -/
structure Row (F : Type) where
  runID : String
  target : String
  workload : String
  mode : String
  createdAt : Int
  summary : Summary F
  verdict : Option String
deriving DecidableEq

/-- The JSON decoders of the three artifacts; of the verification report only the verdict is read. -/
structure Decoders (F : Type) where
  manifest : Bytes → Except String Manifest
  summary : Bytes → Except String (Summary F)
  verdict : Bytes → Except String String

/-- One call of `Ingest`, with the files as they are then. -/
structure Attempt where
  runDir : Path
  files : Path → Except String Bytes

def readJSON {α : Type} (files : Path → Except String Bytes) (decode : Bytes → Except String α) (p : Path) :
    Except String α := files p >>= decode

/-- NULL when there is no readable report. -/
def verdictOf (D : Decoders F) (files : Path → Except String Bytes) (p : Paths) : Option String :=
  (readJSON files D.verdict p.verifyJSON).toOption

/-! ## Statements -/

/-- A value of a placeholder or of a column; times in nanoseconds. -/
inductive Value (F : Type) where
  | text (s : String)
  | int (n : Int)
  | float (x : F)
  | bool (b : Bool)
  | time (ns : Int)
  | null
deriving DecidableEq

def deleteText : String := "DELETE FROM runs WHERE run_id = ?"

def insertText : String :=
  "INSERT INTO runs\n\t\t(run_id, target, workload, mode, created_at, throughput, p50, p99, p999, max,\n\t\t " ++
    "total, errors, client_bound, verify_verdict)\n\t\tVALUES (?, ?, ?, ?, ?, ?, ?, ?, ?, ?, ?, ?, ?, ?)"

/-- What the INSERT binds to its placeholders. -/
def insertArgs (m : Manifest) (r : Summary F) (verdict : Option String) : List (Value F) :=
  [.text m.runID, .text m.target, .text m.workload, .text m.mode, .time m.createdAt, .float r.throughput, .float r.p50,
    .float r.p99, .float r.p999, .float r.max, .int r.total, .int r.errors, .bool r.clientBound,
    verdict.elim .null .text]

/-- The row that the INSERT enters. -/
def rowOf (m : Manifest) (r : Summary F) (verdict : Option String) : Row F :=
  { runID := m.runID, target := m.target, workload := m.workload, mode := m.mode, createdAt := m.createdAt / 1000,
    summary := r, verdict }

/-- The text of a listing, with the conditions that are not empty and a limit that is positive. -/
def queryText (byTarget byWorkload limited : Bool) : String :=
  let conds := (if byTarget then ["target = ?"] else []) ++ (if byWorkload then ["workload = ?"] else [])
  "SELECT run_id, target, workload, mode, created_at, throughput,\n\t\t" ++
    "p50, p99, p999, max, total, errors, client_bound, verify_verdict FROM runs" ++
    (if conds = [] then "" else " WHERE " ++ " AND ".intercalate conds) ++ " ORDER BY created_at DESC, run_id DESC" ++
    (if limited then " LIMIT ?" else "")

/-- The values of its placeholders. -/
def queryArgs (target workload : String) (limit : Int) : List (Value F) :=
  (if target ≠ "" then [.text target] else []) ++ (if workload ≠ "" then [.text workload] else []) ++
    (if 0 < limit then [.int limit] else [])

/-- The columns of the SELECT. -/
def Row.columns (r : Row F) : List (Value F) :=
  [.text r.runID, .text r.target, .text r.workload, .text r.mode, .time (r.createdAt * 1000),
    .float r.summary.throughput, .float r.summary.p50, .float r.summary.p99, .float r.summary.p999,
    .float r.summary.max, .int r.summary.total, .int r.summary.errors, .bool r.summary.clientBound,
    r.verdict.elim .null .text]

/-- A listed run. -/
structure RunRow (F : Type) where
  runID : String
  target : String
  workload : String
  mode : String
  createdAt : Int
  summary : Summary F
  verifyVerdict : String
deriving DecidableEq

/-- A NULL verdict is scanned as the empty text. -/
def scanRun : List (Value F) → Except String (RunRow F)
  | [.text runID, .text target, .text workload, .text mode, .time createdAt, .float throughput, .float p50, .float p99,
      .float p999, .float max, .int total, .int errors, .bool clientBound, verdict] =>
      let run := fun verifyVerdict =>
        { runID, target, workload, mode, createdAt, verifyVerdict,
          summary := { throughput, p50, p99, p999, max, total, errors, clientBound } }
      match verdict with
      | .text v => .ok (run v)
      | .null => .ok (run "")
      | _ => .error "sql: Scan error"
  | _ => .error "sql: Scan error"

/-! ## The warehouse -/

/-- The calls of the database: `σ` is the type of its states, `τ` of its transactions. -/
structure Database (F σ τ : Type) where
  begin : σ → Except String τ
  exec : τ → String → List (Value F) → Except String τ
  commit : σ → τ → σ × Option String
  rollback : σ → τ → σ
  query : σ → String → List (Value F) → Except String (List (List (Value F)))

section Calls
variable {σ τ : Type} (db : Database F σ τ) (D : Decoders F)

/-- What a run directory says about its run. -/
def readRun (a : Attempt) : Except String (Manifest × Summary F × Option String) := do
  let p := pathsFor a.runDir
  let m ← readJSON a.files D.manifest p.manifest
  let r ← readJSON a.files D.summary p.summary
  return (m, r, verdictOf D a.files p)

/-- `Ingest`: the database and the error. The deferred rollback has no effect behind `Commit`. -/
def ingest (s : σ) (a : Attempt) : σ × Option String :=
  match readRun D a with
  | .error err => (s, some err)
  | .ok (m, r, verdict) =>
      match db.begin s with
      | .error err => (s, some err)
      | .ok tx =>
          match db.exec tx deleteText [.text m.runID] with
          | .error err => (db.rollback s tx, some err)
          | .ok tx' =>
              match db.exec tx' insertText (insertArgs m r verdict) with
              | .error err => (db.rollback s tx', some err)
              | .ok tx'' => db.commit s tx''

def ingestAll (s : σ) (as : List Attempt) : σ := as.foldl (fun s a => (ingest db D s a).1) s

def runs (s : σ) (target workload : String) (limit : Int) : Except String (List (RunRow F)) := do
  let rows ← db.query s (queryText (target ≠ "") (workload ≠ "") (0 < limit)) (queryArgs target workload limit)
  rows.mapM scanRun

end Calls

/-! ## What is relied on -/

/-- ORDER BY created_at DESC, run_id DESC -/
def Latest (a b : Row F) : Prop := b.createdAt < a.createdAt ∨ (b.createdAt = a.createdAt ∧ b.runID ≤ a.runID)

/-- A row passes the filters of a query. -/
def Passes (target workload : String) (r : Row F) : Prop :=
  (target = "" ∨ r.target = target) ∧ (workload = "" ∨ r.workload = workload)

/-- A limit that is not positive cuts nothing. -/
def cut {α : Type} (limit : Int) (l : List α) : List α := if 0 < limit then l.take limit.toNat else l

/-- DuckDB as documented: a transaction sees the table, and it sees its own statements, which take effect when it is
committed and not otherwise; `run_id` is a primary key; the SELECT returns the rows with the given values, each once, in
the given order and cut at the limit. -/
structure DuckDBDocumented {σ τ : Type} (db : Database F σ τ) (table : σ → Set (Row F)) (view : τ → Set (Row F)) :
    Prop where
  begin_ok : ∀ {s tx}, db.begin s = .ok tx → view tx = table s
  delete_ok : ∀ {tx tx' id}, db.exec tx deleteText [.text id] = .ok tx' → view tx' = {r ∈ view tx | r.runID ≠ id}
  insert_ok : ∀ {tx tx' m r verdict}, db.exec tx insertText (insertArgs m r verdict) = .ok tx' →
    view tx' = insert (rowOf m r verdict) (view tx)
  commit_ok : ∀ {s s' tx}, db.commit s tx = (s', none) → table s' = view tx
  commit_failed : ∀ {s s' tx err}, db.commit s tx = (s', some err) → table s' = table s
  rolled_back : ∀ s tx, table (db.rollback s tx) = table s
  primary_key : ∀ {s r r'}, r ∈ table s → r' ∈ table s → r.runID = r'.runID → r = r'
  select_ok : ∀ {s target workload limit rows},
    db.query s (queryText (target ≠ "") (workload ≠ "") (0 < limit)) (queryArgs target workload limit) = .ok rows →
      ∃ full : List (Row F), full.Nodup ∧ (∀ r, r ∈ full ↔ r ∈ table s ∧ Passes target workload r) ∧
        full.Pairwise Latest ∧ rows = (cut limit full).map Row.columns

/-! ## Histories -/

section Histories
variable {σ τ : Type} (db : Database F σ τ) (D : Decoders F)

/-- The rows of the calls that succeed, in order. -/
def committedRows : σ → List Attempt → List (Row F)
  | _, [] => []
  | s, a :: as =>
      (if (ingest db D s a).2 = none then (readRun D a).toOption.toList.map fun (m, r, v) => rowOf m r v else []) ++
        committedRows (ingest db D s a).1 as

variable {db D} {table : σ → Set (Row F)} {view : τ → Set (Row F)} (hdb : DuckDBDocumented db table view)

include hdb

/-- **One call** replaces the row of its run, or fails and leaves the table alone. -/
theorem ingest_spec (s : σ) (a : Attempt) :
    ((ingest db D s a).2 = none ∧ ∃ m r v, readRun D a = .ok (m, r, v) ∧
      table (ingest db D s a).1 = upsert Row.runID (table s) (rowOf m r v)) ∨
    ((ingest db D s a).2 ≠ none ∧ table (ingest db D s a).1 = table s) := by
  unfold ingest
  cases hread : readRun D a with
  | error err => exact Or.inr ⟨nofun, rfl⟩
  | ok row =>
      obtain ⟨m, r, v⟩ := row
      dsimp only
      cases hbegin : db.begin s with
      | error err => exact Or.inr ⟨nofun, rfl⟩
      | ok tx =>
          dsimp only
          cases hdelete : db.exec tx deleteText [.text m.runID] with
          | error err => exact Or.inr ⟨nofun, hdb.rolled_back s tx⟩
          | ok tx' =>
              dsimp only
              cases hinsert : db.exec tx' insertText (insertArgs m r v) with
              | error err => exact Or.inr ⟨nofun, hdb.rolled_back s tx'⟩
              | ok tx'' =>
                  dsimp only
                  rcases hcommit : db.commit s tx'' with ⟨s', _ | err⟩
                  · refine Or.inl ⟨rfl, m, r, v, rfl, ?_⟩
                    rw [hdb.commit_ok hcommit, hdb.insert_ok hinsert, hdb.delete_ok hdelete, hdb.begin_ok hbegin]
                    rfl
                  · exact Or.inr ⟨nofun, hdb.commit_failed hcommit⟩

theorem table_ingestAll (s : σ) (as : List Attempt) :
    table (ingestAll db D s as) = (committedRows db D s as).foldl (upsert Row.runID) (table s) := by
  induction as generalizing s with
  | nil => rfl
  | cons a as ih =>
      have hnext : ingestAll db D s (a :: as) = ingestAll db D (ingest db D s a).1 as := rfl
      rw [hnext, ih, committedRows, List.foldl_append]
      rcases ingest_spec (D := D) hdb s a with ⟨hok, m, r, v, hread, htable⟩ | ⟨hfailed, htable⟩
      · rw [if_pos hok, htable, hread]
        rfl
      · rw [if_neg hfailed, htable]
        rfl

/-- **The table after any history** holds, for every run, the row of the last call that succeeded for it, or else the
row that was there before. -/
theorem mem_table_ingestAll (s : σ) (as : List Attempt) (r : Row F) :
    r ∈ table (ingestAll db D s as) ↔ LastOf Row.runID (committedRows db D s as) r ∨
      (r ∈ table s ∧ ∀ r' ∈ committedRows db D s as, r'.runID ≠ r.runID) := by
  rw [table_ingestAll hdb, mem_foldl_upsert]

end Histories

/-! ## Listings -/

/-- The order of a listing, in which no two runs tie. -/
def Before (a b : Row F) : Prop := b.createdAt < a.createdAt ∨ (b.createdAt = a.createdAt ∧ b.runID < a.runID)

theorem before_of_latest {a b : Row F} (h : Latest a b) (hne : a.runID ≠ b.runID) : Before a b := by
  rcases h with hlt | ⟨heq, hle⟩
  · exact Or.inl hlt
  · exact Or.inr ⟨heq, lt_of_le_of_ne hle hne.symm⟩

/-- What a listing shows of a row. -/
def Row.listed (r : Row F) : RunRow F :=
  { runID := r.runID, target := r.target, workload := r.workload, mode := r.mode, createdAt := r.createdAt * 1000,
    summary := r.summary, verifyVerdict := r.verdict.getD "" }

theorem scanRun_columns (r : Row F) : scanRun r.columns = .ok r.listed := by
  cases hverdict : r.verdict <;> simp [Row.columns, scanRun, Row.listed, hverdict]

theorem mapM_scanRun (rows : List (Row F)) : (rows.map Row.columns).mapM scanRun = .ok (rows.map Row.listed) := by
  induction rows with
  | nil => rfl
  | cons r rows ih =>
      rw [List.map_cons, List.mapM_cons, scanRun_columns, ih]
      rfl

/-- **A listing shows the latest of every run.** With a database as documented, whatever it held when it was opened,
after any history of `Ingest` calls with any files and any of their reads and statements failing, a listing that is
returned is cut from a list of exactly the runs that pass the filters, each once, with the row of the last call that
succeeded for it or, without one, the row from before, in strictly descending order of creation time and run id. -/
theorem runs_lists_latest {σ τ : Type} {db : Database F σ τ} {table : σ → Set (Row F)} {view : τ → Set (Row F)}
    (hdb : DuckDBDocumented db table view) (D : Decoders F) (s : σ) (as : List Attempt) {target workload : String}
    {limit : Int} {listing : List (RunRow F)}
    (hlisting : runs db (ingestAll db D s as) target workload limit = .ok listing) :
    ∃ full : List (Row F),
      (∀ r, r ∈ full ↔ (LastOf Row.runID (committedRows db D s as) r ∨
        (r ∈ table s ∧ ∀ r' ∈ committedRows db D s as, r'.runID ≠ r.runID)) ∧ Passes target workload r) ∧
      full.Pairwise Before ∧ listing = (cut limit full).map Row.listed := by
  unfold runs at hlisting
  cases hquery : db.query (ingestAll db D s as) (queryText (target ≠ "") (workload ≠ "") (0 < limit))
      (queryArgs target workload limit) with
  | error err =>
      rw [hquery] at hlisting
      cases hlisting
  | ok rows =>
      obtain ⟨full, hnodup, hmem, hsorted, rfl⟩ := hdb.select_ok hquery
      refine ⟨full, fun r => ?_, ?_, ?_⟩
      · rw [hmem, mem_table_ingestAll hdb]
      · refine (hsorted.and hnodup).imp_of_mem fun {a b} ha hb hab => before_of_latest hab.1 fun heq => hab.2 ?_
        exact hdb.primary_key ((hmem a).mp ha).1 ((hmem b).mp hb).1 heq
      · rw [hquery] at hlisting
        change ((cut limit full).map Row.columns).mapM scanRun = .ok listing at hlisting
        rw [mapM_scanRun] at hlisting
        exact (Except.ok.inj hlisting).symm

/-! ### A database in memory -/

instance : DecidableRel (Latest (F := F)) := fun a b =>
  inferInstanceAs (Decidable (b.createdAt < a.createdAt ∨ (b.createdAt = a.createdAt ∧ b.runID ≤ a.runID)))

instance : Std.Total (Latest (F := F)) where
  total a b := by
    rcases lt_trichotomy a.createdAt b.createdAt with hlt | heq | hgt
    · exact Or.inr (Or.inl hlt)
    · rcases le_total a.runID b.runID with hle | hle
      · exact Or.inr (Or.inr ⟨heq, hle⟩)
      · exact Or.inl (Or.inr ⟨heq.symm, hle⟩)
    · exact Or.inl (Or.inl hgt)

instance : IsTrans (Row F) Latest where
  trans a b c hab hbc := by
    rcases hab with hab | ⟨hab, hab'⟩ <;> rcases hbc with hbc | ⟨hbc, hbc'⟩
    · exact Or.inl (lt_trans hbc hab)
    · exact Or.inl (hbc ▸ hab)
    · exact Or.inl (hab ▸ hbc)
    · exact Or.inr ⟨hbc.trans hab, le_trans hbc' hab'⟩

/-- A table with its primary key. -/
abbrev Keyed (F : Type) := {t : List (Row F) // (t.map Row.runID).Nodup}

def Keyed.delete (t : Keyed F) (id : String) : Keyed F :=
  ⟨t.1.filter fun r => r.runID ≠ id, (List.filter_sublist.map Row.runID).nodup t.2⟩

def Keyed.insert (t : Keyed F) (r : Row F) : Except String (Keyed F) :=
  if h : r.runID ∈ t.1.map Row.runID then .error "Constraint Error: Duplicate key"
  else .ok ⟨r :: t.1, List.nodup_cons.mpr ⟨h, t.2⟩⟩

/-- The row of the values of an INSERT. -/
def rowOfArgs : List (Value F) → Option (Row F)
  | [.text runID, .text target, .text workload, .text mode, .time createdAt, .float throughput, .float p50, .float p99,
      .float p999, .float max, .int total, .int errors, .bool clientBound, verdict] =>
      some (rowOf ⟨runID, target, workload, mode, createdAt⟩
        ⟨throughput, p50, p99, p999, max, total, errors, clientBound⟩
        (match verdict with
        | .text v => some v
        | _ => none))
  | _ => none

theorem rowOfArgs_insertArgs (m : Manifest) (r : Summary F) (v : Option String) :
    rowOfArgs (insertArgs m r v) = some (rowOf m r v) := by
  cases v <;> rfl

/-- It lists without filters only. -/
def inMemory : Database F (Keyed F) (Keyed F) where
  begin t := .ok t
  exec t q args :=
    if q = deleteText then
      match args with
      | [.text id] => .ok (t.delete id)
      | _ => .error "Binder Error"
    else if q = insertText then
      match rowOfArgs args with
      | some r => t.insert r
      | none => .error "Binder Error"
    else .error "Parser Error"
  commit _ t := (t, none)
  rollback t _ := t
  query t q _ :=
    if q = queryText false false false then .ok ((t.1.insertionSort Latest).map Row.columns) else .error "Parser Error"

theorem queryText_eq_plain {byTarget byWorkload limited : Bool}
    (h : queryText byTarget byWorkload limited = queryText false false false) :
    byTarget = false ∧ byWorkload = false ∧ limited = false := by
  revert h
  cases byTarget <;> cases byWorkload <;> cases limited <;> decide +kernel

theorem duckDBDocumented_inMemory :
    DuckDBDocumented (inMemory (F := F)) (fun t => {r | r ∈ t.1}) (fun t => {r | r ∈ t.1}) where
  begin_ok h := by
    cases h
    rfl
  delete_ok {tx tx' id} h := by
    obtain rfl := Except.ok.inj h
    ext r
    simp [Keyed.delete]
  insert_ok {tx tx' m r v} h := by
    have hdo : (inMemory (F := F)).exec tx insertText (insertArgs m r v) = tx.insert (rowOf m r v) := by
      unfold inMemory
      dsimp only
      rw [if_neg (by decide +kernel), if_pos rfl, rowOfArgs_insertArgs]
    rw [hdo, Keyed.insert] at h
    split_ifs at h
    obtain rfl := Except.ok.inj h
    ext x
    simp
  commit_ok h := by
    cases h
    rfl
  commit_failed h := nomatch (Prod.mk.inj h).2
  rolled_back _ _ := rfl
  primary_key {t r r'} hr hr' hid := List.inj_on_of_nodup_map t.2 hr hr' hid
  select_ok {t target workload limit rows} h := by
    unfold inMemory at h
    dsimp only at h
    split_ifs at h with htext
    obtain ⟨htarget, hworkload, hlimit⟩ := queryText_eq_plain htext
    obtain rfl := Except.ok.inj h
    refine ⟨t.1.insertionSort Latest, ?_, fun r => ?_, List.pairwise_insertionSort _ _, ?_⟩
    · exact (List.perm_insertionSort _ _).nodup_iff.mpr (List.Nodup.of_map _ t.2)
    · simp_all [Passes]
    · rw [cut, if_neg (by simpa using hlimit)]

/-- A run that was measured twice: the total is the length of its artifacts. -/
def lengths : Decoders Int where
  manifest _ := .ok ⟨"r1", "redis", "kv", "single", 1700000000000000000⟩
  summary bytes := .ok ⟨0, 0, 0, 0, 0, bytes.length, 0, false⟩
  verdict _ := .error "no such file"

def attempt (bytes : Bytes) : Attempt := ⟨[], fun _ => .ok bytes⟩

theorem runs_lists_latest_of_two :
    ∃ listing, runs inMemory (ingestAll inMemory lengths ⟨[], List.nodup_nil⟩ [attempt [1], attempt [1, 2]]) "" "" 0 =
        .ok listing ∧ listing.map (·.summary.total) = [2] ∧
      ∃ full : List (Row Int), full.Pairwise Before ∧ listing = (cut 0 full).map Row.listed := by
  have htotal : (runs inMemory (ingestAll inMemory lengths ⟨[], List.nodup_nil⟩ [attempt [1], attempt [1, 2]])
      "" "" 0).toOption.map (fun listing => listing.map (·.summary.total)) = some [2] := by decide +kernel
  cases hlisting : runs inMemory (ingestAll inMemory lengths ⟨[], List.nodup_nil⟩ [attempt [1], attempt [1, 2]])
      "" "" 0 with
  | error err =>
      rw [hlisting] at htotal
      cases htotal
  | ok listing =>
      rw [hlisting] at htotal
      obtain ⟨full, -, hsorted, hcut⟩ := runs_lists_latest duckDBDocumented_inMemory lengths _ _ hlisting
      exact ⟨listing, rfl, Option.some.inj htotal, full, hsorted, hcut⟩

end Proofload.Warehouse
