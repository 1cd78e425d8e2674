import Proofload.Drivers.Postgres
import Proofload.Drivers.Session
import Mathlib.Data.Fintype.Card

/-!
# Reconciliation of a Cassandra run (`targets/cassandra/cassandradriver/cql.go`, `conn.go`)

Every statement of a run goes through a session of gocql at one consistency level. `CassandraDocumented` says what the
driver relies on, in terms of the `n` replicas of a key: a write is acknowledged once as many of them hold the row as
the level asks for, a read is answered by as many of them, and rows do not disappear. A write that failed may have
reached any replica, then or later, and the keyspace may hold rows of earlier runs.

* `need_overlap` : at every level but ONE two such sets of replicas have one in common;
* `durable` : a key whose write was acknowledged is held by as many replicas as the level asks for, to the end;
* `reconcile_exact` : at every level but ONE, read-back finds an acknowledged write whenever the read is answered.
-/

namespace Proofload.Drivers.Cassandra
open Lib WorkloadGen Verify Runner

set_option autoImplicit false

/-! ## Consistency -/

inductive Consistency where
  | one
  | quorum
  | localQuorum
  | all
deriving DecidableEq

/-- The empty text stands for QUORUM. -/
def consistencyLevel (consistency : String) : Except String Consistency :=
  if consistency = "" ∨ consistency = "quorum" then .ok .quorum
  else if consistency = "one" then .ok .one
  else if consistency = "local_quorum" ∨ consistency = "local-quorum" then .ok .localQuorum
  else if consistency = "all" then .ok .all
  else .error s!"cassandradriver: unsupported consistency {String.quote consistency}"

theorem level_ne_one {consistency : String} {level : Consistency} (h : consistencyLevel consistency = .ok level)
    (hone : consistency ≠ "one") : level ≠ .one := by
  unfold consistencyLevel at h
  split_ifs at h <;> cases h <;> decide

/-! ## The driver -/

variable {σ : Type}

/-- `cassConn.Execute`; the column `v` is scanned into a byte slice, which is nil for null. -/
def execute : Session σ (Option Bytes) → Int → σ → Operation → σ × OpResult := executeWith planFor id

/-- A run of a workload's generators against a keyspace in any state. -/
def deps (R : RandV2) (f : Factory) (db : Session σ (Option Bytes)) (scanLimit : Int) (start : σ) : Deps σ where
  gen shard i := f.emits R shard i
  execute := execute db scanLimit
  empty := start

/-- The two statements that write a value to a key. -/
inductive Writes (k : Int) (v : Bytes) : String → List Arg → Prop where
  | insert (seq : Int) : Writes k v insertCQL [.int k, .bytes v, .int seq]
  | update (seq : Int) : Writes k v updateCQL [.bytes v, .int seq, .int k]

section Execute
variable (db : Session σ (Option Bytes)) (limit : Int) (t : σ) {op : Operation}

theorem execute_read (h : op.type = "read") :
    execute db limit t op = Prod.map id (execRead id "read") (db.row t readCQL [.int op.key]) := by
  unfold execute executeWith planFor planWith
  rw [h]
  rfl

theorem execute_scan (h : op.type = "scan") :
    ∃ args, execute db limit t op = Prod.map id (execScan "scan") (db.rows t scanCQL args) := by
  unfold execute executeWith planFor planWith
  rw [h]
  exact ⟨_, rfl⟩

theorem execute_set (h : Sets op.type) :
    ∃ stmt args, Writes op.key op.value stmt args ∧
      execute db limit t op = Prod.map id (execWrite op.type) (db.exec t stmt args) := by
  unfold execute executeWith planFor planWith
  rcases h with h | h | h <;> rw [h]
  · exact ⟨_, _, .insert op.seq, rfl⟩
  · exact ⟨_, _, .update op.seq, rfl⟩
  · exact ⟨_, _, .insert op.seq, rfl⟩

end Execute

/-! ## The servers -/

variable {n : Nat}

/-- What the documentation of Cassandra and of gocql says of the driver's statements on a table without deletes and
expiry, in a keyspace with one data center. `held t k` are the replicas that have a row for the key, `sent t k` are the
values that the table had for it or that were sent for it since, and `need` is how many replicas a level asks for: so
many have the row when a write is acknowledged, and so many had none when a read that finds none began. -/
structure CassandraDocumented (db : Session σ (Option Bytes)) (level : Consistency) (need : Consistency → Nat)
    (held : σ → Int → Finset (Fin n)) (sent : σ → Int → Set Bytes) : Prop where
  need_quorum : need .quorum = n / 2 + 1
  need_localQuorum : need .localQuorum = n / 2 + 1
  need_all : need .all = n
  exec_sent : ∀ t k v stmt args, Writes k v stmt args →
    ∀ k' v', v' ∈ sent (db.exec t stmt args).1 k' → v' ∈ sent t k' ∨ (k' = k ∧ v' = v)
  exec_held : ∀ t k v stmt args, Writes k v stmt args → ∀ k', held t k' ⊆ held (db.exec t stmt args).1 k'
  exec_ok : ∀ t k v stmt args, Writes k v stmt args → (db.exec t stmt args).2 = .ok () →
    need level ≤ (held (db.exec t stmt args).1 k).card
  row_sent : ∀ t args k, sent (db.row t readCQL args).1 k ⊆ sent t k
  row_held : ∀ t args k, held t k ⊆ held (db.row t readCQL args).1 k
  row_none : ∀ t k, (db.row t readCQL [.int k]).2 = .ok none →
    ∃ asked : Finset (Fin n), need level ≤ asked.card ∧ ∀ i ∈ asked, i ∉ held t k
  row_some : ∀ t k v, (db.row t readCQL [.int k]).2 = .ok (some v) → v.getD [] ∈ sent t k
  rows_sent : ∀ t args k, sent (db.rows t scanCQL args).1 k ⊆ sent t k
  rows_held : ∀ t args k, held t k ⊆ held (db.rows t scanCQL args).1 k

section Documented
variable {db : Session σ (Option Bytes)} {level : Consistency} {need : Consistency → Nat}
  {held : σ → Int → Finset (Fin n)} {sent : σ → Int → Set Bytes}

theorem need_overlap (hdb : CassandraDocumented db level need held sent) (hlevel : level ≠ .one) (hn : 1 ≤ n) :
    n < need level + need level := by
  cases level with
  | one => exact absurd rfl hlevel
  | quorum =>
      rw [hdb.need_quorum]
      omega
  | localQuorum =>
      rw [hdb.need_localQuorum]
      omega
  | all =>
      rw [hdb.need_all]
      omega

theorem row_found (hdb : CassandraDocumented db level need held sent) (hoverlap : n < need level + need level)
    {t : σ} {k : Int} (hheld : need level ≤ (held t k).card) {r : Option (Option Bytes)}
    (hrow : (db.row t readCQL [.int k]).2 = .ok r) : ∃ v, r = some v ∧ v.getD [] ∈ sent t k := by
  cases r with
  | some v => exact ⟨v, rfl, hdb.row_some t k v hrow⟩
  | none =>
      obtain ⟨asked, hasked, hnone⟩ := hdb.row_none t k hrow
      have hcard : (Finset.univ : Finset (Fin n)).card < (held t k).card + asked.card := by
        rw [Finset.card_univ, Fintype.card_fin]
        omega
      obtain ⟨i, hi⟩ :=
        Finset.inter_nonempty_of_card_lt_card_add_card (Finset.subset_univ _) (Finset.subset_univ _) hcard
      rw [Finset.mem_inter] at hi
      exact absurd hi.1 (hnone i hi.2)

/-! ## A whole run -/

/-- Every value that was sent for a key is the payload of the key. -/
def Payloads (sent : σ → Int → Set Bytes) (size : Int) (t : σ) : Prop := ∀ k, ∀ v ∈ sent t k, v = value k size

/-- The key is on as many replicas as the level asks for. -/
def Held (need : Consistency → Nat) (level : Consistency) (held : σ → Int → Finset (Fin n)) (t : σ) (k : Int) : Prop :=
  need level ≤ (held t k).card

theorem execute_held (hdb : CassandraDocumented db level need held sent) {size limit : Int} {op : Operation}
    (hop : Drawn size op) (t : σ) (k : Int) : held t k ⊆ held (execute db limit t op).1 k := by
  have hlabel := hop.label
  simp only [labels, List.mem_cons, List.not_mem_nil, or_false] at hlabel
  rcases hlabel with h | h | hset
  · rw [execute_read db limit t h]
    exact hdb.row_held t _ k
  · obtain ⟨args, heq⟩ := execute_scan db limit t h
    rw [heq]
    exact hdb.rows_held t _ k
  · obtain ⟨stmt, args, hwrites, heq⟩ := execute_set db limit t hset
    rw [heq]
    exact hdb.exec_held t _ _ stmt args hwrites k

theorem execute_payloads (hdb : CassandraDocumented db level need held sent) {size limit : Int} {op : Operation}
    (hop : Drawn size op) {t : σ} (ht : Payloads sent size t) : Payloads sent size (execute db limit t op).1 := by
  intro k v hv
  have hlabel := hop.label
  simp only [labels, List.mem_cons, List.not_mem_nil, or_false] at hlabel
  rcases hlabel with h | h | hset
  · rw [execute_read db limit t h] at hv
    exact ht k v (hdb.row_sent t _ k hv)
  · obtain ⟨args, heq⟩ := execute_scan db limit t h
    rw [heq] at hv
    exact ht k v (hdb.rows_sent t _ k hv)
  · obtain ⟨stmt, args, hwrites, heq⟩ := execute_set db limit t hset
    rw [heq] at hv
    rcases hdb.exec_sent t _ _ stmt args hwrites k v hv with hv | ⟨rfl, rfl⟩
    · exact ht k v hv
    · exact hop.payload.resolve_left (fun hnot => hnot.1 hset) |>.2

theorem durable (hdb : CassandraDocumented db level need held sent) (R : RandV2) (f : Factory) (limit : Int)
    {size : Int} {start : σ} (hstart : Payloads sent size start) :
    Durable (deps R f db limit start) (Drawn size) Sets (Payloads sent size) (Held need level held) where
  start := hstart
  keeps t op hop ht := execute_payloads hdb hop ht
  kept t op k hop _ hk := hk.trans (Finset.card_le_card (execute_held hdb hop t k))
  made t op hop _ hset herr := by
    obtain ⟨stmt, args, hwrites, heq⟩ := execute_set db limit t hset
    have hexec : (deps R f db limit start).execute t op = _ := heq
    rw [hexec] at herr ⊢
    exact hdb.exec_ok t _ _ stmt args hwrites (execWrite_err herr)

theorem read_of_held (hdb : CassandraDocumented db level need held sent) (hoverlap : n < need level + need level)
    {size limit : Int} (hsize : 1 ≤ size) {t : σ} (ht : Payloads sent size t) {k : Int}
    (hheld : Held need level held t k) {op : Operation} (hread : op.type = "read") (hkey : op.key = k)
    (herr : (execute db limit t op).2.err = none) :
    (execute db limit t op).2 = readResult "read" (.row (some (value k size))) := by
  rw [execute_read db limit t hread, hkey] at herr ⊢
  obtain ⟨r, hrow⟩ := execRead_err herr
  obtain ⟨v, rfl, hv⟩ := row_found hdb hoverlap hheld hrow
  have hvalue : v = some (value k size) := by
    have hpayload := ht k _ hv
    cases v with
    | none => exact absurd hpayload.symm (value_ne_nil _ (by omega))
    | some b => exact congrArg some hpayload
  rw [Prod.map_snd, hrow, hvalue]
  rfl

end Documented

/-- **Reconciliation of a run on Cassandra.** For every workload over these labels with payloads, every consistency
level that the driver accepts but ONE, any number of replicas, any connections, warmup and interleaving, on a
keyspace in which earlier runs left at most the same payloads, whichever statements fail: the reduced log expects the
payload of exactly the keys with an acknowledged measured write, and read-back, in any order, adds nothing to the
report exactly if all its reads are answered. -/
theorem reconcile_exact (R : RandV2) {w : Workload} {seed id stride : I64} {f : Factory}
    (hnew : new w seed id stride = .ok f) (hlabels : ∀ op ∈ w.operations, op.type ∈ labels)
    (hsize : 1 ≤ w.valueSize.val) (hn : 1 ≤ n) {consistency : String} {level : Consistency}
    (hlevel : consistencyLevel consistency = .ok level) (hone : consistency ≠ "one")
    {db : Session σ (Option Bytes)} {need : Consistency → Nat} {held : σ → Int → Finset (Fin n)}
    {sent : σ → Int → Set Bytes} (hdb : CassandraDocumented db level need held sent) {limit : Int} {start : σ}
    (hstart : ∀ k, ∀ v ∈ sent start k, v = value k w.valueSize.val) {o : Options} {s : State σ}
    (hreach : Reachable (step (deps R f db limit start) o) (init (deps R f db limit start)) s)
    {opts : ReconcileOptions} (hread : opts.readOp = Postgresql.pickReadOp w) (before : Int → List Int) :
    (∀ k, ((readLog (expectationLog s)).lookup k).isSome ↔ ∃ ob ∈ s.observed, Acknowledged Sets k ob) ∧
    (∀ k rec, (readLog (expectationLog s)).lookup k = some rec → rec.checksum = checksum (value k w.valueSize.val)) ∧
    ∀ (iter : IterOrder Int) (report : VerifyReport),
      readBack (readBackOn (deps R f db limit start) opts.readOp s.target before) (readLog (expectationLog s)) opts
          iter report = report ↔
        ∀ k, ((readLog (expectationLog s)).lookup k).isSome →
          (readBackOn (deps R f db limit start) opts.readOp s.target before ⟨opts.readOp, k, [], 0⟩).err = none := by
  have hgen : ∀ shard i, Drawn w.valueSize.val ((deps R f db limit start).gen shard i) :=
    fun shard i => emits_drawn R hnew hlabels shard i
  have hoverlap := need_overlap hdb (level_ne_one hlevel hone) hn
  rw [Postgresql.pickReadOp_of_labels hlabels (by decide) (by decide)] at hread
  exact reconcile_durable (durable hdb R f limit hstart) hgen hsize hreach hread
    (fun t k ht hk herr => read_of_held hdb hoverlap hsize ht hk rfl rfl herr) before

/-! ## Three replicas -/

/-- The rows of three replicas, the latest first, and the number of writes so far. -/
abbrev Ring := (Fin 3 → List (Int × Bytes)) × Nat

/-- A write reaches the first two replicas; the second write of all only reaches the third and times out. -/
def Ring.Reaches (s : Ring) (i : Fin 3) : Prop := if s.2 = 1 then i = 2 else i ≠ 2

instance (s : Ring) (i : Fin 3) : Decidable (s.Reaches i) :=
  inferInstanceAs (Decidable (if s.2 = 1 then i = 2 else i ≠ 2))

def Ring.write (s : Ring) (k : Int) (v : Bytes) : Ring × Except String Unit :=
  ((fun i => if s.Reaches i then (k, v) :: s.1 i else s.1 i, s.2 + 1),
    if s.2 = 1 then .error "Operation timed out - received only 1 responses." else .ok ())

def Ring.value (s : Ring) (i : Fin 3) (k : Int) : Option Bytes := (s.1 i).lookup k

def Ring.held (s : Ring) (k : Int) : Finset (Fin 3) := Finset.univ.filter fun i => (s.value i k).isSome

def Ring.sent (s : Ring) (k : Int) : Set Bytes := {v | ∃ i, (k, v) ∈ s.1 i}

/-- Reads ask the last two replicas. -/
def laggingRing : Session Ring (Option Bytes) where
  row s _ args := match args with
    | [.int k] => (s, .ok (((s.value 1 k).or (s.value 2 k)).map some))
    | _ => (s, .error "gocql: expected 1 values send got different")
  rows s _ _ := (s, .error "Operation timed out - received only 0 responses.")
  exec s _ args := match args with
    | [.int k, .bytes v, .int _] => s.write k v
    | [.bytes v, .int _, .int k] => s.write k v
    | _ => (s, .error "gocql: expected 3 values send got different")

def needOfThree : Consistency → Nat
  | .one => 1
  | .quorum => 2
  | .localQuorum => 2
  | .all => 3

theorem Ring.held_write (s : Ring) (k k' : Int) (v : Bytes) : s.held k' ⊆ (s.write k v).1.held k' := by
  intro i hi
  rw [Ring.held, Finset.mem_filter] at hi ⊢
  refine ⟨hi.1, ?_⟩
  unfold Ring.write Ring.value
  dsimp only
  split_ifs
  · rw [List.lookup_cons]
    cases k' == k
    · exact hi.2
    · rfl
  · exact hi.2

theorem Ring.sent_write {s : Ring} {k k' : Int} {v v' : Bytes} (h : v' ∈ (s.write k v).1.sent k') :
    v' ∈ s.sent k' ∨ (k' = k ∧ v' = v) := by
  obtain ⟨i, hi⟩ := h
  unfold Ring.write at hi
  dsimp only at hi
  split_ifs at hi
  · rcases List.mem_cons.mp hi with heq | hi
    · exact Or.inr (Prod.mk.inj heq)
    · exact Or.inl ⟨i, hi⟩
  · exact Or.inl ⟨i, hi⟩

theorem Ring.held_of_ok {s : Ring} {k : Int} {v : Bytes} (h : (s.write k v).2 = .ok ()) :
    {0, 1} ⊆ (s.write k v).1.held k := by
  intro i hi
  have hreaches : s.Reaches i := by
    unfold Ring.write at h
    unfold Ring.Reaches
    split_ifs at h ⊢
    rintro rfl
    exact absurd hi (by decide)
  unfold Ring.held Ring.value Ring.write
  rw [Finset.mem_filter]
  dsimp only
  rw [if_pos hreaches, List.lookup_cons_self]
  exact ⟨Finset.mem_univ i, rfl⟩

theorem Ring.value_sent {s : Ring} {i : Fin 3} {k : Int} {v : Bytes} (h : s.value i k = some v) : v ∈ s.sent k := by
  obtain ⟨l₁, l₂, hsplit, -⟩ := List.lookup_eq_some_iff.mp h
  exact ⟨i, by rw [hsplit]; simp⟩

theorem laggingRing_documented : CassandraDocumented laggingRing .quorum needOfThree Ring.held Ring.sent where
  need_quorum := rfl
  need_localQuorum := rfl
  need_all := rfl
  exec_sent t k v stmt args hwrites k' v' h := by
    cases hwrites <;> exact Ring.sent_write h
  exec_held t k v stmt args hwrites k' := by
    cases hwrites <;> exact Ring.held_write t k k' v
  exec_ok t k v stmt args hwrites h := by
    have hcard : needOfThree .quorum = ({0, 1} : Finset (Fin 3)).card := rfl
    rw [hcard]
    apply Finset.card_le_card
    cases hwrites <;> exact Ring.held_of_ok h
  row_sent t args k := by
    unfold laggingRing
    dsimp only
    split <;> exact subset_rfl
  row_held t args k := by
    unfold laggingRing
    dsimp only
    split <;> exact subset_rfl
  row_none t k h := by
    have hnone : t.value 1 k = none ∧ t.value 2 k = none := by
      simpa [laggingRing] using h
    refine ⟨{1, 2}, le_refl 2, fun i hi => ?_⟩
    rw [Ring.held, Finset.mem_filter]
    rcases Finset.mem_insert.mp hi with rfl | hi
    · simp [hnone.1]
    · rw [Finset.mem_singleton.mp hi]
      simp [hnone.2]
  row_some t k v h := by
    have hsome : ∃ b, (t.value 1 k).or (t.value 2 k) = some b ∧ some b = v := by
      simpa [laggingRing] using h
    obtain ⟨b, hb, rfl⟩ := hsome
    rcases Option.or_eq_some_iff.mp hb with h1 | ⟨-, h2⟩
    · exact Ring.value_sent h1
    · exact Ring.value_sent h2
  rows_sent t args k := subset_rfl
  rows_held t args k := subset_rfl

def twoInserts : List Action :=
  [.wake 0, .dispatch 0, .exec 0, .ret 0, .finish 0, .wake 0, .dispatch 0, .exec 0, .ret 0, .finish 0]

/-- One insert is acknowledged and one is not; read-back is about the acknowledged one. -/
theorem reconcile_exact_on_lagging_ring :
    ∃ s, Reachable (step (deps pcgRand (insertsFactory 8) laggingRing 100 (fun _ => [], 0)) ⟨1, 0⟩)
        (init (deps pcgRand (insertsFactory 8) laggingRing 100 (fun _ => [], 0))) s ∧
      s.observed.map (fun ob => (ob.op.key, ob.res.err.isSome)) = [(0, false), (0, true)] ∧
      ((readLog (expectationLog s)).lookup 0).isSome ∧
      ∀ (iter : IterOrder Int) (report : VerifyReport),
        readBack (readBackOn (deps pcgRand (insertsFactory 8) laggingRing 100 (fun _ => [], 0))
            (Postgresql.cliOptions (insertsFactory 8).w).readOp s.target fun _ => [])
            (readLog (expectationLog s)) (Postgresql.cliOptions (insertsFactory 8).w) iter report = report ↔
          ∀ k, ((readLog (expectationLog s)).lookup k).isSome →
            (readBackOn (deps pcgRand (insertsFactory 8) laggingRing 100 (fun _ => [], 0))
              (Postgresql.cliOptions (insertsFactory 8).w).readOp s.target (fun _ => [])
              ⟨(Postgresql.cliOptions (insertsFactory 8).w).readOp, k, [], 0⟩).err = none := by
  obtain ⟨s, hreach, hobserved, hlog⟩ :
      ∃ s, Reachable (step (deps pcgRand (insertsFactory 8) laggingRing 100 (fun _ => [], 0)) ⟨1, 0⟩)
        (init (deps pcgRand (insertsFactory 8) laggingRing 100 (fun _ => [], 0))) s ∧
      s.observed.map (fun ob => (ob.op.key, ob.res.err.isSome)) = [(0, false), (0, true)] ∧
      ((readLog (expectationLog s)).lookup 0).isSome := exists_reachable twoInserts (by decide +kernel)
  have hlevel : consistencyLevel "" = .ok .quorum := rfl
  exact ⟨s, hreach, hobserved, hlog, (reconcile_exact pcgRand (new_insertsFactory 8) (by decide) (by decide) (by decide)
    hlevel (by decide) laggingRing_documented (by rintro k v ⟨i, hi⟩; cases hi) hreach rfl _).2.2⟩

end Proofload.Drivers.Cassandra
