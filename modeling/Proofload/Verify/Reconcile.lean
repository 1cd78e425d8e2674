import Proofload.Verify.History

/-!
# Reconciliation (`core/verify/log.go`, `reconcile.go`)

`readLog` reduces the expectation log to the last write of every key, `reconcile` reads every expected
key back and samples keys for replica convergence.

* `readLog_lookup_eq_some`, `readLog_lookup_eq_none` : what the reduced log expects;
* `readBack_eq`, `checkConvergence_eq` : what the two loops add to the report;
* `readBack_spec` : read-back finds nothing exactly when every expected key is there with its checksum;
* `reconcile_pass_iff` : the verdict, for replicas that agree.
-/

namespace Proofload.Verify
open Lib

set_option autoImplicit false

/-! ## The expectation log -/

/-- The body of the loop of `readLog`: the highest sequence number wins, the later record among equals. -/
def keepLatest (expected : Map Int WriteRecord) (rec : WriteRecord) : Map Int WriteRecord :=
  match expected.lookup rec.key with
  | none => expected.insert rec.key rec
  | some cur => if rec.seq ≥ cur.seq then expected.insert rec.key rec else expected

/-- The reduction of `readLog`. -/
def readLog (recs : List WriteRecord) : Map Int WriteRecord := recs.foldl keepLatest ∅

theorem readLog_concat (recs : List WriteRecord) (rec : WriteRecord) :
    readLog (recs ++ [rec]) = keepLatest (readLog recs) rec := by
  unfold readLog
  rw [List.foldl_append]
  rfl

theorem readLog_lookup_eq_some {recs : List WriteRecord} {k : Int} {rec : WriteRecord}
    (h : (readLog recs).lookup k = some rec) : rec ∈ recs ∧ rec.key = k := by
  induction recs using List.reverseRecOn with
  | nil => cases h
  | append_singleton recs last ih =>
      have hold : (readLog recs).lookup k = some rec → rec ∈ recs ++ [last] ∧ rec.key = k := fun h =>
        ⟨List.mem_append_left _ (ih h).1, (ih h).2⟩
      have hnew : ((readLog recs).insert last.key last).lookup k = some rec → rec ∈ recs ++ [last] ∧ rec.key = k := by
        intro h
        rw [Map.lookup_insert_eq] at h
        split_ifs at h with hk
        · obtain rfl := Option.some.inj h
          exact ⟨by simp, hk.symm⟩
        · exact hold h
      rw [readLog_concat, keepLatest] at h
      cases hcur : (readLog recs).lookup last.key with
      | none => rw [hcur] at h; exact hnew h
      | some cur =>
          rw [hcur] at h
          dsimp only at h
          split_ifs at h
          · exact hnew h
          · exact hold h

theorem readLog_lookup_eq_none {recs : List WriteRecord} {k : Int} :
    (readLog recs).lookup k = none ↔ ∀ rec ∈ recs, rec.key ≠ k := by
  induction recs using List.reverseRecOn with
  | nil => simp [readLog]
  | append_singleton recs last ih =>
      have hinsert : ((readLog recs).insert last.key last).lookup k = none ↔
          (readLog recs).lookup k = none ∧ last.key ≠ k := by
        rw [Map.lookup_insert_eq]
        split_ifs with hk
        · simp [hk]
        · simp [Ne.symm hk]
      simp only [List.mem_append, List.mem_singleton, or_imp, forall_and, forall_eq]
      rw [← ih, readLog_concat, keepLatest]
      cases hcur : (readLog recs).lookup last.key with
      | none => exact hinsert
      | some cur =>
          dsimp only
          split_ifs
          · exact hinsert
          · refine ⟨fun h => ⟨h, fun hk => ?_⟩, fun h => h.1⟩
            rw [← hk, hcur] at h
            cases h

theorem readLog_size_eq_zero_iff (recs : List WriteRecord) : (readLog recs).size = 0 ↔ recs = [] := by
  rw [Map.size, List.length_eq_zero_iff, List.eq_nil_iff_forall_not_mem]
  simp only [Map.mem_keys_iff, Option.not_isSome_iff_eq_none, readLog_lookup_eq_none]
  constructor
  · intro h
    exact List.eq_nil_iff_forall_not_mem.mpr fun rec hrec => h rec.key rec hrec rfl
  · rintro rfl k rec hrec
    cases hrec

/-! ## The checker -/

structure ReconcileOptions where
  readOp : OpType
  convergenceSample : Int
  convergenceTimeout : Int
  timeoutText : String  -- the timeout as it is printed

/-- The replicas of a cluster-aware target: what a node returns for a key at the `i`-th poll, how many
polls of a key start before the deadline, and whether the context ends while waiting behind a poll. -/
structure Cluster where
  nodes : List Node
  readKeyFrom : Nat → Node → Int → Except String OpResult
  polls : Int → Nat
  cancelled : Int → Nat → Bool

/-- The target as reconciliation sees it. Nothing writes during the pass. -/
structure Backend where
  connect : Except String Unit
  prepare : Except String Unit
  execute : Operation → OpResult
  cluster : Option Cluster

/-- One key of the read-back loop. -/
def readBackKey (execute : Operation → OpResult) (o : ReconcileOptions) (report : VerifyReport) (key : Int)
    (want : WriteRecord) : VerifyReport :=
  let res := execute { type := o.readOp, key := key, value := [], seq := 0 }
  match coerceBytes res.observed with
  | some b =>
      if res.err.isSome then lost report
      else if checksum b ≠ want.checksum then
        { report with anomalies := report.anomalies ++
            [⟨"corruption", s!"key {key} checksum {checksum b}, expected {want.checksum}", [toString key]⟩] }
      else report
  | none => lost report
where
  lost (report : VerifyReport) : VerifyReport :=
    { report with
      lost := report.lost + 1
      anomalies := report.anomalies ++ [⟨"data-loss", s!"key {key} absent on read-back", [toString key]⟩] }

/-- `readBack`, in the iteration order `iter` of the expected map. -/
def readBack (execute : Operation → OpResult) (expected : Map Int WriteRecord) (o : ReconcileOptions)
    (iter : IterOrder Int) (report : VerifyReport) : VerifyReport :=
  (iter.order expected.keys).foldl (fun report key =>
    match expected.lookup key with
    | some want => readBackKey execute o report key want
    | none => report) report

/-- Every node returns the same value; the first error ends the loop. -/
def nodesAgree (read : Node → Except String OpResult) (nodes : List Node) : Except String Bool :=
  go none nodes
where
  go (first : Option UInt64) : List Node → Except String Bool
    | [] => .ok true
    | n :: ns => do
        let res ← read n
        let sum := checksum ((coerceBytes res.observed).getD [])
        match first with
        | none => go (some sum) ns
        | some f => if sum ≠ f then return false else go (some f) ns

/-- The polling loop of `convergeKey`, at its `i`-th poll with `left` further polls before the deadline. -/
def convergeKey (c : Cluster) (timeout key : Int) (i : Nat) : Nat → Except String Bool
  | 0 => nodesAgree (fun n => c.readKeyFrom i n key) c.nodes
  | left + 1 => do
      let agree ← nodesAgree (fun n => c.readKeyFrom i n key) c.nodes
      if agree then return true
      else if timeout ≤ 0 then return false
      else if c.cancelled key i then .error "context canceled"
      else convergeKey c timeout key (i + 1) left

def sampleKeys (expected : Map Int WriteRecord) (n : Int) (iter : IterOrder Int) : List Int :=
  (iter.order expected.keys).take n.toNat

/-- `checkConvergence`: one anomaly for every sampled key whose replicas do not agree in time. -/
def checkConvergence (c : Cluster) (expected : Map Int WriteRecord) (o : ReconcileOptions) (iter : IterOrder Int)
    (report : VerifyReport) : VerifyReport :=
  if c.nodes.length ≤ 1 ∨ o.convergenceSample ≤ 0 then report
  else (sampleKeys expected o.convergenceSample iter).foldl (fun report key =>
    match convergeKey c o.convergenceTimeout key 0 (c.polls key) with
    | .ok true => report
    | _ => { report with anomalies := report.anomalies ++
        [⟨"divergence", s!"key {key} replicas did not converge within {o.timeoutText}", [toString key]⟩] }) report

/-- `Reconcile`; `iter` and `sampling` are the orders of its two loops over the expected map. -/
def reconcile (b : Backend) (expected : Map Int WriteRecord) (o : ReconcileOptions) (iter sampling : IterOrder Int) :
    Except String VerifyReport := do
  let report : VerifyReport :=
    { model := .reconciliation, verdict := .unknown, anomalies := [], checked := expected.size, lost := 0,
      duplicated := 0, orderingViol := 0 }
  match b.connect with
  | .error e => .error s!"verify: connect: {e}"
  | .ok _ => match b.prepare with
    | .error e => .error s!"verify: prepare read-back connection: {e}"
    | .ok _ =>
        let report := readBack b.execute expected o iter report
        let report := match b.cluster with
          | some c => checkConvergence c expected o sampling report
          | none => report
        return { report with verdict := if report.lost > 0 ∨ report.anomalies.length > 0 then .fail else .pass }

/-! ## What the loops report -/

/-- The read-back of a key fails or finds no value. -/
def absent (execute : Operation → OpResult) (o : ReconcileOptions) (key : Int) : Bool :=
  let res := execute { type := o.readOp, key := key, value := [], seq := 0 }
  res.err.isSome || (coerceBytes res.observed).isNone

/-- The anomaly that read-back reports for a key. -/
def keyAnomaly (execute : Operation → OpResult) (o : ReconcileOptions) (key : Int) (want : WriteRecord) :
    Option Anomaly :=
  let sum := checksum ((coerceBytes (execute { type := o.readOp, key := key, value := [], seq := 0 }).observed).getD [])
  if absent execute o key then some ⟨"data-loss", s!"key {key} absent on read-back", [toString key]⟩
  else if sum ≠ want.checksum then
    some ⟨"corruption", s!"key {key} checksum {sum}, expected {want.checksum}", [toString key]⟩
  else none

theorem readBackKey_eq (execute : Operation → OpResult) (o : ReconcileOptions) (report : VerifyReport) (key : Int)
    (want : WriteRecord) :
    readBackKey execute o report key want =
      { report with
        lost := report.lost + if absent execute o key then 1 else 0
        anomalies := report.anomalies ++ (keyAnomaly execute o key want).toList } := by
  cases hb : coerceBytes (execute { type := o.readOp, key := key, value := [], seq := 0 }).observed with
  | none => simp [readBackKey, readBackKey.lost, keyAnomaly, absent, hb]
  | some b =>
      cases herr : (execute { type := o.readOp, key := key, value := [], seq := 0 }).err with
      | some e => simp [readBackKey, readBackKey.lost, keyAnomaly, absent, hb, herr]
      | none =>
          by_cases hsum : checksum b = want.checksum <;> simp [readBackKey, keyAnomaly, absent, hb, herr, hsum]

theorem foldl_report {body : VerifyReport → Int → VerifyReport} (gone : Int → Bool) (anomaly : Int → Option Anomaly)
    (hbody : ∀ r k, body r k =
      { r with lost := r.lost + if gone k then 1 else 0, anomalies := r.anomalies ++ (anomaly k).toList })
    (keys : List Int) (report : VerifyReport) :
    keys.foldl body report =
      { report with
        lost := report.lost + keys.countP gone
        anomalies := report.anomalies ++ keys.filterMap anomaly } := by
  induction keys generalizing report with
  | nil => simp
  | cons k keys ih =>
      rw [List.foldl_cons, ih, hbody, List.countP_cons, List.filterMap_cons]
      congr 1
      · cases anomaly k <;> simp
      · split
        · simp
          omega
        · simp

theorem readBack_eq (execute : Operation → OpResult) (expected : Map Int WriteRecord) (o : ReconcileOptions)
    (iter : IterOrder Int) (report : VerifyReport) :
    readBack execute expected o iter report =
      { report with
        lost := report.lost +
          (iter.order expected.keys).countP fun k => (expected.lookup k).isSome && absent execute o k
        anomalies := report.anomalies ++
          (iter.order expected.keys).filterMap fun k => (expected.lookup k).bind (keyAnomaly execute o k) } := by
  unfold readBack
  refine foldl_report (fun k => (expected.lookup k).isSome && absent execute o k)
    (fun k => (expected.lookup k).bind (keyAnomaly execute o k)) (fun r k => ?_) _ report
  cases expected.lookup k with
  | none => simp
  | some want =>
      show readBackKey execute o r k want = _
      rw [readBackKey_eq]
      simp

/-- The anomaly that the convergence check reports for a sampled key. -/
def divergence (c : Cluster) (o : ReconcileOptions) (key : Int) : Option Anomaly :=
  match convergeKey c o.convergenceTimeout key 0 (c.polls key) with
  | .ok true => none
  | _ => some ⟨"divergence", s!"key {key} replicas did not converge within {o.timeoutText}", [toString key]⟩

theorem divergence_eq_none_iff (c : Cluster) (o : ReconcileOptions) (key : Int) :
    divergence c o key = none ↔ convergeKey c o.convergenceTimeout key 0 (c.polls key) = .ok true := by
  unfold divergence
  cases convergeKey c o.convergenceTimeout key 0 (c.polls key) with
  | error e => simp
  | ok agree => cases agree <;> simp

theorem checkConvergence_eq {c : Cluster} {o : ReconcileOptions} (hnodes : 2 ≤ c.nodes.length)
    (hsample : 0 < o.convergenceSample) (expected : Map Int WriteRecord) (sampling : IterOrder Int)
    (report : VerifyReport) :
    checkConvergence c expected o sampling report =
      { report with anomalies := report.anomalies ++
          (sampleKeys expected o.convergenceSample sampling).filterMap (divergence c o) } := by
  unfold checkConvergence
  rw [if_neg (by omega), foldl_report (fun _ => false) (divergence c o)]
  · simp
  · intro r k
    unfold divergence
    cases convergeKey c o.convergenceTimeout k 0 (c.polls k) with
    | error e => simp
    | ok agree => cases agree <;> simp

/-! ## The verdict -/

/-- The key reads back with the expected checksum. -/
def Found (execute : Operation → OpResult) (o : ReconcileOptions) (key : Int) (want : WriteRecord) : Prop :=
  (execute { type := o.readOp, key := key, value := [], seq := 0 }).err = none ∧
    ∃ b, coerceBytes (execute { type := o.readOp, key := key, value := [], seq := 0 }).observed = some b ∧
      checksum b = want.checksum

theorem keyAnomaly_eq_none_iff (execute : Operation → OpResult) (o : ReconcileOptions) (key : Int)
    (want : WriteRecord) :
    keyAnomaly execute o key want = none ↔ Found execute o key want := by
  cases hb : coerceBytes (execute { type := o.readOp, key := key, value := [], seq := 0 }).observed with
  | none => simp [keyAnomaly, absent, Found, hb]
  | some b =>
      cases herr : (execute { type := o.readOp, key := key, value := [], seq := 0 }).err with
      | some e => simp [keyAnomaly, absent, Found, hb, herr]
      | none => simp [keyAnomaly, absent, Found, hb, herr]

theorem absent_of_found {execute : Operation → OpResult} {o : ReconcileOptions} {key : Int} {want : WriteRecord}
    (h : Found execute o key want) : absent execute o key = false := by
  obtain ⟨herr, b, hb, -⟩ := h
  simp [absent, herr, hb]

/-- **Read-back finds nothing exactly when every expected key is found.** -/
theorem readBack_spec (execute : Operation → OpResult) (expected : Map Int WriteRecord) (o : ReconcileOptions)
    (iter : IterOrder Int) (report : VerifyReport) :
    ((readBack execute expected o iter report).anomalies = [] ↔
      report.anomalies = [] ∧ ∀ k want, expected.lookup k = some want → Found execute o k want) ∧
    ((∀ k want, expected.lookup k = some want → Found execute o k want) →
      readBack execute expected o iter report = report) := by
  rw [readBack_eq]
  have hanomalies : ((iter.order expected.keys).filterMap fun k =>
      (expected.lookup k).bind (keyAnomaly execute o k)) = [] ↔
      ∀ k want, expected.lookup k = some want → Found execute o k want := by
    rw [List.filterMap_eq_nil_iff]
    constructor
    · intro h k want hk
      have hmem : k ∈ iter.order expected.keys := by
        rw [iter.mem_order, Map.mem_keys_iff, hk]
        rfl
      have hnone := h k hmem
      rw [hk] at hnone
      exact (keyAnomaly_eq_none_iff execute o k want).mp hnone
    · intro h k _
      cases hk : expected.lookup k with
      | none => rfl
      | some want => exact (keyAnomaly_eq_none_iff execute o k want).mpr (h k want hk)
  refine ⟨?_, fun h => ?_⟩
  · dsimp only
    rw [List.append_eq_nil_iff, hanomalies]
  · have hlost : ((iter.order expected.keys).countP fun k => (expected.lookup k).isSome && absent execute o k) = 0 := by
      rw [List.countP_eq_zero]
      intro k _
      cases hk : expected.lookup k with
      | none => simp
      | some want => simp [absent_of_found (h k want hk)]
    rw [hanomalies.mpr h, hlost, List.append_nil]
    simp

/-- The sampled keys agree on all replicas in time, or no convergence check is made. -/
def Converges (c : Cluster) (expected : Map Int WriteRecord) (o : ReconcileOptions) (sampling : IterOrder Int) : Prop :=
  c.nodes.length ≤ 1 ∨ o.convergenceSample ≤ 0 ∨
    ∀ k ∈ sampleKeys expected o.convergenceSample sampling,
      convergeKey c o.convergenceTimeout k 0 (c.polls k) = .ok true

theorem checkConvergence_spec (c : Cluster) (expected : Map Int WriteRecord) (o : ReconcileOptions)
    (sampling : IterOrder Int) (report : VerifyReport) :
    ((checkConvergence c expected o sampling report).anomalies = [] ↔
      report.anomalies = [] ∧ Converges c expected o sampling) ∧
    (Converges c expected o sampling → checkConvergence c expected o sampling report = report) := by
  unfold Converges
  by_cases hskip : c.nodes.length ≤ 1 ∨ o.convergenceSample ≤ 0
  · unfold checkConvergence
    rw [if_pos hskip, ← or_assoc]
    simp [hskip]
  · rw [← or_assoc]
    simp only [hskip, false_or]
    rw [checkConvergence_eq (by omega) (by omega)]
    have hanomalies : ((sampleKeys expected o.convergenceSample sampling).filterMap (divergence c o)) = [] ↔
        ∀ k ∈ sampleKeys expected o.convergenceSample sampling,
          convergeKey c o.convergenceTimeout k 0 (c.polls k) = .ok true := by
      rw [List.filterMap_eq_nil_iff]
      exact forall₂_congr fun k _ => divergence_eq_none_iff c o k
    refine ⟨?_, fun h => ?_⟩
    · dsimp only
      rw [List.append_eq_nil_iff, hanomalies]
    · rw [hanomalies.mpr h, List.append_nil]

theorem verdict_pass_iff (r : VerifyReport) :
    (if r.lost > 0 ∨ r.anomalies.length > 0 then Verdict.fail else Verdict.pass) = .pass ↔
      r.lost ≤ 0 ∧ r.anomalies = [] := by
  rw [ite_eq_right_iff]
  constructor
  · intro h
    by_contra hne
    rw [not_and_or, not_le] at hne
    exact absurd (h (hne.imp id fun h => List.length_pos_iff.mpr h)) (by decide)
  · rintro ⟨hlost, hnil⟩ hbad
    rw [hnil] at hbad
    simp at hbad
    omega

theorem reconcile_checked {b : Backend} {expected : Map Int WriteRecord} {o : ReconcileOptions}
    {iter sampling : IterOrder Int} {rep : VerifyReport} (h : reconcile b expected o iter sampling = .ok rep) :
    rep.checked = expected.size := by
  have hback : ∀ report, (readBack b.execute expected o iter report).checked = report.checked := fun report => by
    rw [readBack_eq]
  have hconv : ∀ c report, (checkConvergence c expected o sampling report).checked = report.checked := by
    intro c report
    by_cases hskip : c.nodes.length ≤ 1 ∨ o.convergenceSample ≤ 0
    · rw [checkConvergence, if_pos hskip]
    · rw [checkConvergence_eq (by omega) (by omega)]
  unfold reconcile at h
  dsimp only at h
  split at h
  · cases h
  · split at h
    · cases h
    · obtain rfl := Except.ok.inj h
      dsimp only
      split
      · rw [hconv, hback]
      · rw [hback]

/-- **The verdict of a pass on a target that accepts the connection.** It is pass exactly when every
expected key is found and the sampled replicas converge; then nothing is counted as lost. -/
theorem reconcile_pass_iff {b : Backend} (hconnect : b.connect = .ok ()) (hprepare : b.prepare = .ok ())
    (expected : Map Int WriteRecord) (o : ReconcileOptions) (iter sampling : IterOrder Int) :
    ∃ rep, reconcile b expected o iter sampling = .ok rep ∧ (rep.verdict = .pass → rep.lost = 0) ∧
      (rep.verdict = .pass ↔ (∀ k want, expected.lookup k = some want → Found b.execute o k want) ∧
        ∀ c, b.cluster = some c → Converges c expected o sampling) := by
  unfold reconcile
  rw [hconnect, hprepare]
  refine ⟨_, rfl, ?_⟩
  dsimp only
  rw [verdict_pass_iff]
  generalize hstart : VerifyReport.mk .reconciliation .unknown [] expected.size 0 0 0 = start
  have hquiet : start.anomalies = [] ∧ start.lost = 0 := by
    rw [← hstart]
    exact ⟨rfl, rfl⟩
  obtain ⟨hback, hsame⟩ := readBack_spec b.execute expected o iter start
  generalize hfinal : (match b.cluster with
    | some c => checkConvergence c expected o sampling (readBack b.execute expected o iter start)
    | none => readBack b.execute expected o iter start) = final
  have hboth : (final.anomalies = [] ↔ (∀ k want, expected.lookup k = some want → Found b.execute o k want) ∧
      ∀ c, b.cluster = some c → Converges c expected o sampling) ∧ (final.anomalies = [] → final = start) := by
    cases hc : b.cluster with
    | none =>
        rw [hc] at hfinal
        subst hfinal
        simp only [hback, hquiet.1, true_and, reduceCtorEq, false_imp_iff, implies_true, and_true, true_and]
        exact hsame
    | some c =>
        rw [hc] at hfinal
        subst hfinal
        obtain ⟨hconv, hkept⟩ := checkConvergence_spec c expected o sampling (readBack b.execute expected o iter start)
        simp only [hconv, hback, hquiet.1, true_and, Option.some.injEq, forall_eq']
        exact fun h => (hkept h.2).trans (hsame h.1)
  refine ⟨fun h => ?_, ?_⟩
  · rw [hboth.2 h.2]
    exact hquiet.2
  · rw [← hboth.1]
    refine ⟨fun h => h.2, fun h => ⟨?_, h⟩⟩
    rw [hboth.2 h, hquiet.2]

/-! ## Replicas that agree -/

theorem nodesAgree_of_forall {read : Node → Except String OpResult} {nodes : List Node} {res : OpResult}
    (h : ∀ n ∈ nodes, read n = .ok res) : nodesAgree read nodes = .ok true := by
  have hgo : ∀ ns : List Node, (∀ n ∈ ns, read n = .ok res) →
      ∀ first, first = none ∨ first = some (checksum ((coerceBytes res.observed).getD [])) →
        nodesAgree.go read first ns = .ok true := by
    intro ns
    induction ns with
    | nil => exact fun _ _ _ => rfl
    | cons n ns ih =>
        intro hns first hfirst
        have hrest := ih (fun m hm => hns m (List.mem_cons_of_mem _ hm)) _ (Or.inr rfl)
        unfold nodesAgree.go
        rw [hns n List.mem_cons_self]
        rcases hfirst with rfl | rfl
        · exact hrest
        · simpa [bind, Except.bind] using hrest
  exact hgo nodes h none (Or.inl rfl)

theorem converges_of_forall {c : Cluster} {value : Int → OpResult}
    (h : ∀ i n k, n ∈ c.nodes → c.readKeyFrom i n k = .ok (value k)) (expected : Map Int WriteRecord)
    (o : ReconcileOptions) (sampling : IterOrder Int) : Converges c expected o sampling := by
  refine Or.inr (Or.inr fun k _ => ?_)
  have hagree : nodesAgree (fun n => c.readKeyFrom 0 n k) c.nodes = .ok true :=
    nodesAgree_of_forall fun n hn => h 0 n k hn
  cases c.polls k with
  | zero => exact hagree
  | succ left =>
      unfold convergeKey
      rw [hagree]
      rfl

end Proofload.Verify
