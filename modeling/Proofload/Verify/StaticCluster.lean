import Proofload.Verify.Reconcile
import Proofload.Lib.Encoding

/-!
# Reconciliation on a cluster whose contents do not change

Read-back compares one node with the log and calls an absent value lost; the convergence check compares
the nodes with each other and takes an absent value for an empty one. Together they are exact, as long as no
expected checksum is that of the empty value.

* `converges_iff` : the sampled replicas converge exactly when their checksums agree;
* `static_cluster_exact` : the verdict, the number of lost keys and the anomalies of a key.
-/

namespace Proofload.Verify
open Lib

set_option autoImplicit false

/-! ## Replicas that do not change -/

/-- Every read of a node succeeds and returns what the node holds, at whatever poll. -/
def Static (c : Cluster) (contents : Node → Int → Option Bytes) : Prop :=
  ∀ i n k, n ∈ c.nodes → ∃ res, c.readKeyFrom i n k = .ok res ∧ coerceBytes res.observed = contents n k

/-- The read-back connection reads the node without error. -/
def ReadsFrom (execute : Operation → OpResult) (o : ReconcileOptions) (contents : Int → Option Bytes) : Prop :=
  ∀ k, (execute { type := o.readOp, key := k, value := [], seq := 0 }).err = none ∧
    coerceBytes (execute { type := o.readOp, key := k, value := [], seq := 0 }).observed = contents k

/-- The node holds a value with the checksum. -/
def Holds (value : Option Bytes) (sum : UInt64) : Prop := ∃ v, value = some v ∧ checksum v = sum

/-- What the convergence check compares. -/
def nodeSum (value : Option Bytes) : UInt64 := checksum (value.getD [])

/-- Unless the checksum is that of the empty value, comparing sums is comparing present values. -/
theorem nodeSum_eq_iff {sum : UInt64} (hsum : sum ≠ checksum []) (value : Option Bytes) :
    nodeSum value = sum ↔ Holds value sum := by
  cases value with
  | none => simp [nodeSum, Holds, Ne.symm hsum]
  | some v => simp [nodeSum, Holds]

section Agreement
variable {read : Node → Except String OpResult} {value : Node → Option Bytes}

theorem nodesAgree_go {nodes : List Node} (f : UInt64)
    (h : ∀ n ∈ nodes, ∃ res, read n = .ok res ∧ coerceBytes res.observed = value n) :
    nodesAgree.go read (some f) nodes = .ok (decide (∀ n ∈ nodes, nodeSum (value n) = f)) := by
  induction nodes with
  | nil => simp [nodesAgree.go]
  | cons n ns ih =>
      obtain ⟨res, hres, hvalue⟩ := h n List.mem_cons_self
      have hsum : checksum ((coerceBytes res.observed).getD []) = nodeSum (value n) := by rw [hvalue, nodeSum]
      rw [nodesAgree.go, hres]
      simp only [bind, Except.bind, hsum]
      by_cases hf : nodeSum (value n) = f
      · rw [if_neg (not_not.mpr hf), ih fun m hm => h m (List.mem_cons_of_mem _ hm)]
        simp [hf]
      · rw [if_pos hf]
        simp [hf, pure, Except.pure]

theorem nodesAgree_iff {nodes : List Node} {home : Node} (hhome : home ∈ nodes)
    (h : ∀ n ∈ nodes, ∃ res, read n = .ok res ∧ coerceBytes res.observed = value n) :
    nodesAgree read nodes = .ok true ∧ (∀ n ∈ nodes, nodeSum (value n) = nodeSum (value home)) ∨
      nodesAgree read nodes = .ok false ∧ ¬∀ n ∈ nodes, nodeSum (value n) = nodeSum (value home) := by
  cases nodes with
  | nil => cases hhome
  | cons first ns =>
      obtain ⟨res, hres, hvalue⟩ := h first List.mem_cons_self
      have hgo : nodesAgree read (first :: ns) =
          .ok (decide (∀ n ∈ ns, nodeSum (value n) = nodeSum (value first))) := by
        rw [nodesAgree, nodesAgree.go, hres]
        simp only [bind, Except.bind, hvalue]
        exact nodesAgree_go _ fun n hn => h n (List.mem_cons_of_mem _ hn)
      have hsame : (∀ n ∈ ns, nodeSum (value n) = nodeSum (value first)) ↔
          ∀ n ∈ first :: ns, nodeSum (value n) = nodeSum (value home) := by
        have hall : (∀ n ∈ ns, nodeSum (value n) = nodeSum (value first)) ↔
            ∀ n ∈ first :: ns, nodeSum (value n) = nodeSum (value first) := by simp
        rw [hall]
        exact ⟨fun h n hn => (h n hn).trans (h home hhome).symm,
          fun h n hn => (h n hn).trans (h first List.mem_cons_self).symm⟩
      rw [hgo, ← hsame]
      by_cases hagree : ∀ n ∈ ns, nodeSum (value n) = nodeSum (value first)
      · exact Or.inl ⟨by rw [decide_eq_true hagree], hagree⟩
      · exact Or.inr ⟨by rw [decide_eq_false hagree], hagree⟩

end Agreement

section Static
variable {c : Cluster} {contents : Node → Int → Option Bytes} {home : Node}

/-- However often it polls, the check of a key succeeds exactly when the sums of the nodes agree. -/
theorem convergeKey_iff (hstatic : Static c contents) (hhome : home ∈ c.nodes) (timeout key : Int) (i left : Nat) :
    convergeKey c timeout key i left = .ok true ↔
      ∀ n ∈ c.nodes, nodeSum (contents n key) = nodeSum (contents home key) := by
  induction left generalizing i with
  | zero =>
      rw [convergeKey]
      rcases nodesAgree_iff hhome (fun n hn => hstatic i n key hn) with ⟨h, hsum⟩ | ⟨h, hsum⟩
      · exact iff_of_true h hsum
      · exact iff_of_false (by simp [h]) hsum
  | succ left ih =>
      rw [convergeKey]
      rcases nodesAgree_iff hhome (fun n hn => hstatic i n key hn) with ⟨h, hsum⟩ | ⟨h, hsum⟩
      · exact iff_of_true (by simp [h, bind, Except.bind, pure, Except.pure]) hsum
      · rw [h]
        simp only [bind, Except.bind, pure, Except.pure, Bool.false_eq_true, if_false]
        split_ifs
        · exact iff_of_false (by simp) hsum
        · exact iff_of_false (by simp) hsum
        · exact ih (i + 1)

theorem converges_iff (hstatic : Static c contents) (hhome : home ∈ c.nodes) (hnodes : 2 ≤ c.nodes.length)
    {expected : Map Int WriteRecord} {o : ReconcileOptions} (hsample : expected.size ≤ o.convergenceSample)
    (sampling : IterOrder Int) :
    Converges c expected o sampling ↔
      ∀ k, (expected.lookup k).isSome → ∀ n ∈ c.nodes, nodeSum (contents n k) = nodeSum (contents home k) := by
  have hall : sampleKeys expected o.convergenceSample sampling = sampling.order expected.keys := by
    refine List.take_of_length_le ?_
    rw [(sampling.perm _).length_eq]
    unfold Map.size at hsample
    omega
  have hkeys : (∀ k ∈ sampleKeys expected o.convergenceSample sampling,
      convergeKey c o.convergenceTimeout k 0 (c.polls k) = .ok true) ↔
      ∀ k, (expected.lookup k).isSome → ∀ n ∈ c.nodes, nodeSum (contents n k) = nodeSum (contents home k) := by
    rw [hall]
    refine forall_congr' fun k => ?_
    rw [sampling.mem_order, Map.mem_keys_iff, convergeKey_iff hstatic hhome]
  unfold Converges
  rw [hkeys]
  refine ⟨?_, fun h => Or.inr (Or.inr h)⟩
  rintro (h | h | h)
  · omega
  · intro k hk
    rw [← Map.mem_keys_iff] at hk
    have := List.length_pos_of_mem hk
    unfold Map.size at hsample
    omega
  · exact h

theorem found_iff_holds {execute : Operation → OpResult} {o : ReconcileOptions} {contents : Int → Option Bytes}
    (hread : ReadsFrom execute o contents) (k : Int) (want : WriteRecord) :
    Found execute o k want ↔ Holds (contents k) want.checksum := by
  obtain ⟨herr, hvalue⟩ := hread k
  unfold Found Holds
  rw [herr, hvalue]
  simp

end Static

/-! ## The report -/

theorem reconcile_report {b : Backend} {c : Cluster} (hconnect : b.connect = .ok ()) (hprepare : b.prepare = .ok ())
    (hcluster : b.cluster = some c) {expected : Map Int WriteRecord} {o : ReconcileOptions}
    {iter sampling : IterOrder Int} {rep : VerifyReport} (hrep : reconcile b expected o iter sampling = .ok rep) :
    rep.lost = (iter.order expected.keys).countP (fun k => (expected.lookup k).isSome && absent b.execute o k) ∧
      ∃ rest, (∀ a ∈ rest, a.kind = "divergence") ∧
        rep.anomalies = ((iter.order expected.keys).filterMap fun k =>
          (expected.lookup k).bind (keyAnomaly b.execute o k)) ++ rest := by
  unfold reconcile at hrep
  rw [hconnect, hprepare, hcluster] at hrep
  obtain rfl := Except.ok.inj hrep
  dsimp only
  by_cases hskip : c.nodes.length ≤ 1 ∨ o.convergenceSample ≤ 0
  · rw [checkConvergence, if_pos hskip, readBack_eq]
    exact ⟨by simp, [], fun a ha => absurd ha List.not_mem_nil, by simp⟩
  · rw [checkConvergence_eq (by omega) (by omega), readBack_eq]
    refine ⟨by simp, (sampleKeys expected o.convergenceSample sampling).filterMap (divergence c o), fun a ha => ?_,
      by simp⟩
    obtain ⟨k, -, hk⟩ := List.mem_filterMap.mp ha
    unfold divergence at hk
    split at hk
    · cases hk
    · rw [← Option.some.inj hk]

theorem keyAnomaly_spec {execute : Operation → OpResult} {o : ReconcileOptions} {key : Int} {want : WriteRecord}
    {a : Anomaly} (h : keyAnomaly execute o key want = some a) : a.witness = [toString key] := by
  unfold keyAnomaly at h
  dsimp only at h
  split_ifs at h
  · rw [← Option.some.inj h]
  · rw [← Option.some.inj h]

theorem countP_keyAnomaly_le_one (execute : Operation → OpResult) (expected : Map Int WriteRecord)
    (o : ReconcileOptions) {keys : List Int} (hnodup : keys.Nodup) (k : Int) :
    (keys.filterMap fun k => (expected.lookup k).bind (keyAnomaly execute o k)).countP
      (fun a => a.witness = [toString k]) ≤ 1 := by
  have hwitness :
      ((keys.filterMap fun k => (expected.lookup k).bind (keyAnomaly execute o k)).map (·.witness)).Nodup := by
    rw [List.map_filterMap]
    refine hnodup.filterMap fun k k' wit hk hk' => ?_
    have hof : ∀ {k}, wit ∈ ((expected.lookup k).bind (keyAnomaly execute o k)).map (·.witness) →
        wit = [toString k] := by
      intro k hk
      obtain ⟨a, ha, rfl⟩ := Option.map_eq_some_iff.mp hk
      obtain ⟨want, -, ha⟩ := Option.bind_eq_some_iff.mp ha
      exact keyAnomaly_spec ha
    exact toString_int_injective (List.cons.inj ((hof hk).symm.trans (hof hk'))).1
  have hcount := List.nodup_iff_count_le_one.mp hwitness [toString k]
  rw [List.count, List.countP_map] at hcount
  refine le_trans (le_of_eq (List.countP_congr fun a _ => ?_)) hcount
  simp

/-- **Reconciliation on a static cluster.** For every expected map without the checksum of the empty value, any
iteration orders, a sample of all keys, and any two or more nodes with unchanging contents of which the
read-back connection reads one: the verdict is pass exactly when every node holds every expected key with its
checksum, the lost keys are those absent on the read-back node, and no key has two read-back anomalies. -/
theorem static_cluster_exact {b : Backend} {c : Cluster} (hconnect : b.connect = .ok ()) (hprepare : b.prepare = .ok ())
    (hcluster : b.cluster = some c) (hnodes : 2 ≤ c.nodes.length) {contents : Node → Int → Option Bytes}
    (hstatic : Static c contents) {home : Node} (hhome : home ∈ c.nodes) {o : ReconcileOptions}
    (hread : ReadsFrom b.execute o (contents home)) {expected : Map Int WriteRecord}
    (hsample : expected.size ≤ o.convergenceSample)
    (hempty : ∀ k want, expected.lookup k = some want → want.checksum ≠ checksum []) (iter sampling : IterOrder Int) :
    ∃ rep, reconcile b expected o iter sampling = .ok rep ∧
      (rep.verdict = .pass ↔
        ∀ n ∈ c.nodes, ∀ k want, expected.lookup k = some want → Holds (contents n k) want.checksum) ∧
      rep.lost = expected.keys.countP (fun k => (contents home k).isNone) ∧
      ∀ k : Int, rep.anomalies.countP (fun a => a.kind ≠ "divergence" ∧ a.witness = [toString k]) ≤ 1 := by
  obtain ⟨rep, hrep, -, hpass⟩ := reconcile_pass_iff hconnect hprepare expected o iter sampling
  obtain ⟨hlost, rest, hrest, hanomalies⟩ := reconcile_report hconnect hprepare hcluster hrep
  refine ⟨rep, hrep, ?_, ?_, fun k => ?_⟩
  · rw [hpass]
    simp only [hcluster, Option.some.injEq, forall_eq', found_iff_holds hread,
      converges_iff hstatic hhome hnodes hsample]
    refine ⟨fun ⟨hfound, hagree⟩ n hn k want hk => ?_,
      fun h => ⟨fun k want hk => h home hhome k want hk, fun k hk n hn => ?_⟩⟩
    · rw [← nodeSum_eq_iff (hempty k want hk), hagree k (by rw [hk]; rfl) n hn, nodeSum_eq_iff (hempty k want hk)]
      exact hfound k want hk
    · obtain ⟨want, hwant⟩ := Option.isSome_iff_exists.mp hk
      have hsum := fun m (hm : m ∈ c.nodes) => (nodeSum_eq_iff (hempty k want hwant) _).mpr (h m hm k want hwant)
      rw [hsum n hn, hsum home hhome]
  · rw [hlost, (iter.perm _).countP_eq]
    congr 1
    refine List.countP_congr fun k hk => ?_
    obtain ⟨herr, hvalue⟩ := hread k
    rw [Map.mem_keys_iff] at hk
    simp [absent, herr, hvalue, hk]
  · rw [hanomalies, List.countP_append]
    have hnone : rest.countP (fun a => a.kind ≠ "divergence" ∧ a.witness = [toString k]) = 0 := by
      rw [List.countP_eq_zero]
      intro a ha
      simp [hrest a ha]
    rw [hnone, Nat.add_zero]
    refine le_trans (List.countP_mono_left fun a _ h => ?_)
      (countP_keyAnomaly_le_one b.execute expected o ((iter.perm _).nodup_iff.mpr expected.nodupKeys) k)
    simpa using (of_decide_eq_true h).2

def nodeNamed (id : String) : Node := { id, client := id, control := { method := .none, ref := "", nspace := "" } }

/-- Of the nodes, only the one named "a" holds the key. -/
def staleContents (n : Node) (k : Int) : Option Bytes := if n.id = "a" ∧ k = 1 then some [7] else none

def staleReplica : Cluster where
  nodes := [nodeNamed "a", nodeNamed "b"]
  readKeyFrom _ n k := .ok { type := "read", rows := 0, observed := .bytes (staleContents n k), err := none }
  polls _ := 3
  cancelled _ _ := false

def staleBackend : Backend where
  connect := .ok ()
  prepare := .ok ()
  execute op := { type := op.type, rows := 0, observed := .bytes (staleContents (nodeNamed "a") op.key), err := none }
  cluster := some staleReplica

/-- The read-back node has the key, so nothing is lost, and still the pass fails. -/
theorem static_cluster_exact_on_stale_replica :
    ∃ rep, reconcile staleBackend (readLog [⟨1, checksum [7], 1⟩])
        { readOp := "read", convergenceSample := 200, convergenceTimeout := 5000000000, timeoutText := "5s" }
        (IterOrder.stored Int) (IterOrder.stored Int) = .ok rep ∧ rep.verdict ≠ .pass ∧ rep.lost = 0 := by
  have hlog : ∀ k want, (readLog [⟨1, checksum [7], 1⟩]).lookup k = some want → want = ⟨1, checksum [7], 1⟩ := by
    intro k want h
    exact List.mem_singleton.mp (readLog_lookup_eq_some h).1
  have hstatic : Static staleReplica staleContents := fun i n k _ => ⟨_, rfl, rfl⟩
  have hhome : nodeNamed "a" ∈ staleReplica.nodes := by decide
  have hread : ReadsFrom staleBackend.execute
      { readOp := "read", convergenceSample := 200, convergenceTimeout := 5000000000, timeoutText := "5s" }
      (staleContents (nodeNamed "a")) := fun k => ⟨rfl, rfl⟩
  have hsample : ((readLog [⟨1, checksum [7], 1⟩]).size : Int) ≤ 200 := by decide +kernel
  obtain ⟨rep, hrep, hpass, hlost, -⟩ := static_cluster_exact (b := staleBackend) rfl rfl rfl (by decide) hstatic hhome
    hread
    hsample (fun k want h => by rw [hlog k want h]; decide +kernel) (IterOrder.stored Int) (IterOrder.stored Int)
  refine ⟨rep, hrep, fun h => ?_, hlost.trans (by decide +kernel)⟩
  obtain ⟨v, hv, -⟩ := hpass.mp h (nodeNamed "b") (by decide) 1 ⟨1, checksum [7], 1⟩ (by decide +kernel)
  cases hv

end Proofload.Verify
