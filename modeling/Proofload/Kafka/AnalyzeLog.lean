import Proofload.Domain
import Proofload.Lib.Stream
import Mathlib.Algebra.Order.BigOperators.Group.Finset

/-!
# The kafka-log verifier (`targets/kafka/kafkadriver/verify.go`)

`analyzeLog` sorts the drained records by partition and offset, scans them once for ordering
violations while collecting each key's sequence stream, then tallies gaps and repeats key by key.

* `scan_spec` : what the scan knows after a list of records, in terms of the keys' streams;
* `analyzeLog_tallies` : `Lost`, `Duplicated` and `OrderingViol` are the sums over the keys of the
  gaps, repeats and descents of their streams, for every iteration order of the map;
* `analyzeLog_pass_iff` : a nonempty log passes exactly when every key's stream is consecutive;
* `stream_sortRecords` : on a log whose keys stay in one partition the sorted streams are the streams
  in append order, whatever order the records were drained in.
-/

namespace Proofload.Kafka
open Lib

set_option autoImplicit false

/-- `logRecord`: the projection of a record that the analysis needs. -/
structure LogRecord where
  partition : Int
  offset : Int
  key : Int
  seq : Int
deriving DecidableEq

def maxWitness : Nat := 10

/-- The comparison `analyzeLog` sorts by: partition first, then offset. -/
def less (a b : LogRecord) : Bool :=
  if a.partition ≠ b.partition then a.partition < b.partition else a.offset < b.offset

/-- `a` may stand before `b` in the sorted log. -/
def NotAfter (a b : LogRecord) : Prop := less b a = false

instance : DecidableRel NotAfter := fun a b => inferInstanceAs (Decidable (less b a = false))

/-- `sort.Slice` by `less`; in a topic no two records share partition and offset. -/
def sortRecords (recs : List LogRecord) : List LogRecord := recs.insertionSort NotAfter

/-- The state of the ordering scan. -/
structure Scan where
  seqsByKey : Map Int (List Int)
  lastSeq : Map Int Int
  ordering : Int
  orderWitness : List String

def Scan.init : Scan := ⟨∅, ∅, 0, []⟩

/-- One record of the scan loop. -/
def Scan.step (st : Scan) (r : LogRecord) : Scan :=
  let st := match st.lastSeq.lookup r.key with
    | some prev =>
        if r.seq < prev then
          { st with
            ordering := st.ordering + 1
            orderWitness := if st.orderWitness.length < maxWitness then
              st.orderWitness ++ [s!"key={r.key} p={r.partition} off={r.offset} seq={r.seq}<prev={prev}"]
              else st.orderWitness }
        else st
    | none => st
  { st with
    lastSeq := st.lastSeq.insert r.key r.seq
    seqsByKey := st.seqsByKey.insert r.key ((st.seqsByKey.lookup r.key).getD [] ++ [r.seq]) }

def scan (recs : List LogRecord) : Scan := recs.foldl Scan.step Scan.init

/-- The accumulators of the per-key loop. -/
structure Tally where
  lost : Int
  dup : Int
  lossWitness : List String
  dupWitness : List String

def Tally.init : Tally := ⟨0, 0, [], []⟩

/-- One key of the tally loop: `gaps` is `(maxS - minS + 1) - len(uniq)`, `repeats` is
`len(seqs) - len(uniq)`. -/
def Tally.step (t : Tally) (key : Int) (seqs : List Int) : Tally :=
  let keyLost := gaps seqs
  let keyDup := repeats seqs
  let t := if keyLost > 0 then
    { t with
      lost := t.lost + keyLost
      lossWitness := if t.lossWitness.length < maxWitness then
        t.lossWitness ++ [s!"key={key} gaps={keyLost} range=[{lowest seqs},{highest seqs}]"]
        else t.lossWitness }
    else t
  if keyDup > 0 then
    { t with
      dup := t.dup + keyDup
      dupWitness := if t.dupWitness.length < maxWitness then t.dupWitness ++ [s!"key={key} dups={keyDup}"]
        else t.dupWitness }
  else t

/-- The per-key loop, in the iteration order `o` of the map. -/
def tally (o : IterOrder Int) (seqsByKey : Map Int (List Int)) : Tally :=
  (o.order seqsByKey.keys).foldl (fun t key => t.step key ((seqsByKey.lookup key).getD [])) Tally.init

def buildAnomalies (lost dup ordering : Int) (lossW dupW orderW : List String) : List Anomaly :=
  (if lost > 0 then [⟨"message-loss", s!"{lost} lost", lossW⟩] else []) ++
  (if dup > 0 then [⟨"duplication", s!"{dup} duplicated", dupW⟩] else []) ++
  (if ordering > 0 then [⟨"ordering", s!"{ordering} ordering violations", orderW⟩] else [])

/-- `analyzeLog`, for an iteration order of the map `seqsByKey`. -/
def analyzeLog (o : IterOrder Int) (recs : List LogRecord) : VerifyReport :=
  if recs = [] then
    { model := .kafkaLog, verdict := .unknown, anomalies := [], checked := 0, lost := 0, duplicated := 0,
      orderingViol := 0 }
  else
    let sc := scan (sortRecords recs)
    let t := tally o sc.seqsByKey
    { model := .kafkaLog
      verdict := if t.lost = 0 ∧ t.dup = 0 ∧ sc.ordering = 0 then .pass else .fail
      anomalies := buildAnomalies t.lost t.dup sc.ordering t.lossWitness t.dupWitness sc.orderWitness
      checked := recs.length
      lost := t.lost
      duplicated := t.dup
      orderingViol := sc.ordering }

/-- The sequence stream of a key in a list of records. -/
def stream (k : Int) (recs : List LogRecord) : List Int := (recs.filter fun r => r.key = k).map (·.seq)

/-- The keys that occur. -/
def keySet (recs : List LogRecord) : Finset Int := (recs.map (·.key)).toFinset

/-! ## The scan -/

theorem stream_concat (k : Int) (recs : List LogRecord) (r : LogRecord) :
    stream k (recs ++ [r]) = stream k recs ++ (if r.key = k then [r.seq] else []) := by
  unfold stream
  rw [List.filter_append, List.map_append]
  congr 1
  split <;> simp [*]

theorem stream_ne_nil {k : Int} {recs : List LogRecord} : stream k recs ≠ [] ↔ k ∈ keySet recs := by
  simp [stream, keySet, List.filter_eq_nil_iff]

theorem keySet_concat (recs : List LogRecord) (r : LogRecord) :
    keySet (recs ++ [r]) = insert r.key (keySet recs) := by
  ext k
  simp [keySet]

theorem step_ordering (st : Scan) (r : LogRecord) :
    (st.step r).ordering = st.ordering + (if ∃ a ∈ st.lastSeq.lookup r.key, r.seq < a then 1 else 0) := by
  unfold Scan.step
  cases h : st.lastSeq.lookup r.key with
  | none => simp
  | some prev =>
      by_cases hlt : r.seq < prev <;> simp [hlt]

theorem step_lastSeq (st : Scan) (r : LogRecord) (k : Int) :
    (st.step r).lastSeq.lookup k = if k = r.key then some r.seq else st.lastSeq.lookup k := by
  have h : (st.step r).lastSeq = st.lastSeq.insert r.key r.seq := by
    unfold Scan.step
    cases st.lastSeq.lookup r.key with
    | none => rfl
    | some prev => by_cases hlt : r.seq < prev <;> simp [hlt]
  rw [h, Map.lookup_insert_eq]

theorem step_seqsByKey (st : Scan) (r : LogRecord) (k : Int) :
    (st.step r).seqsByKey.lookup k =
      if k = r.key then some ((st.seqsByKey.lookup r.key).getD [] ++ [r.seq]) else st.seqsByKey.lookup k := by
  have h : (st.step r).seqsByKey =
      st.seqsByKey.insert r.key ((st.seqsByKey.lookup r.key).getD [] ++ [r.seq]) := by
    unfold Scan.step
    cases st.lastSeq.lookup r.key with
    | none => rfl
    | some prev => by_cases hlt : r.seq < prev <;> simp [hlt]
  rw [h, Map.lookup_insert_eq]

/-- The state of the scan after `recs`, read off the keys' streams. -/
structure ScanSpec (recs : List LogRecord) (st : Scan) : Prop where
  lastSeq : ∀ k, st.lastSeq.lookup k = (stream k recs).getLast?
  seqsByKey : ∀ k, st.seqsByKey.lookup k = if stream k recs = [] then none else some (stream k recs)
  ordering : st.ordering = ∑ k ∈ keySet recs, descents (stream k recs)

theorem scan_spec (recs : List LogRecord) : ScanSpec recs (scan recs) := by
  induction recs using List.reverseRecOn with
  | nil => exact ⟨fun k => rfl, fun k => rfl, rfl⟩
  | append_singleton recs r ih =>
      have hscan : scan (recs ++ [r]) = (scan recs).step r := by
        simp [scan, List.foldl_append]
      rw [hscan]
      refine ⟨fun k => ?_, fun k => ?_, ?_⟩
      · rw [step_lastSeq, ih.lastSeq, stream_concat]
        by_cases hk : r.key = k
        · simp [hk]
        · simp [hk, Ne.symm hk]
      · rw [step_seqsByKey, ih.seqsByKey, ih.seqsByKey, stream_concat]
        by_cases hk : r.key = k
        · subst hk
          by_cases hnil : stream r.key recs = [] <;> simp [hnil]
        · simp [hk, Ne.symm hk]
      · rw [step_ordering, ih.lastSeq, ih.ordering, keySet_concat]
        have hrest : ∀ k ∈ (keySet recs).erase r.key,
            descents (stream k (recs ++ [r])) = descents (stream k recs) := by
          intro k hk
          rw [stream_concat, if_neg (Ne.symm (Finset.ne_of_mem_erase hk)), List.append_nil]
        have hself : descents (stream r.key (recs ++ [r])) = descents (stream r.key recs) +
            (if ∃ a ∈ (stream r.key recs).getLast?, r.seq < a then 1 else 0) := by
          rw [stream_concat, if_pos rfl, descents_concat]
        have hout : r.key ∉ keySet recs → descents (stream r.key recs) = 0 := by
          intro hnot
          rw [not_ne_iff.mp (mt stream_ne_nil.mp hnot)]
          rfl
        rw [← Finset.insert_erase (Finset.mem_insert_self r.key (keySet recs)), Finset.erase_insert_eq_erase,
          Finset.sum_insert (Finset.notMem_erase _ _), Finset.sum_congr rfl hrest, hself]
        by_cases hmem : r.key ∈ keySet recs
        · rw [← Finset.add_sum_erase _ _ hmem, add_right_comm]
        · rw [Finset.erase_eq_of_notMem hmem, hout hmem, zero_add, add_comm]

/-! ## The tallies -/

theorem tally_step_lost (t : Tally) (key : Int) {seqs : List Int} (hs : seqs ≠ []) :
    (t.step key seqs).lost = t.lost + gaps seqs ∧ (t.step key seqs).dup = t.dup + repeats seqs := by
  have hgaps := gaps_nonneg hs
  have hrepeats := repeats_nonneg seqs
  unfold Tally.step
  by_cases hg : gaps seqs > 0 <;> by_cases hr : repeats seqs > 0 <;> simp [hg, hr] <;> omega

theorem tally_foldl (seqsOf : Int → List Int) {keys : List Int} (hs : ∀ k ∈ keys, seqsOf k ≠ []) (t : Tally) :
    (keys.foldl (fun t key => t.step key (seqsOf key)) t).lost = t.lost + (keys.map fun k => gaps (seqsOf k)).sum ∧
    (keys.foldl (fun t key => t.step key (seqsOf key)) t).dup =
      t.dup + (keys.map fun k => repeats (seqsOf k)).sum := by
  induction keys generalizing t with
  | nil => simp
  | cons k keys ih =>
      obtain ⟨hlost, hdup⟩ := tally_step_lost t k (hs k List.mem_cons_self)
      obtain ⟨ihlost, ihdup⟩ := ih (fun j hj => hs j (List.mem_cons_of_mem _ hj)) (t.step k (seqsOf k))
      simp only [List.foldl_cons, List.map_cons, List.sum_cons]
      rw [ihlost, ihdup, hlost, hdup]
      omega

theorem scan_keys (recs : List LogRecord) : (scan recs).seqsByKey.keys.toFinset = keySet recs := by
  ext k
  rw [List.mem_toFinset, Map.mem_keys_iff, (scan_spec recs).seqsByKey, ← stream_ne_nil]
  by_cases h : stream k recs = [] <;> simp [h]

theorem keySet_sortRecords (recs : List LogRecord) : keySet (sortRecords recs) = keySet recs :=
  List.toFinset_eq_of_perm _ _ ((recs.perm_insertionSort NotAfter).map _)

/-- The keys that the tally loop visits: each has a stream, and a sum over them is the sum over the key set. -/
theorem visited_keys (o : IterOrder Int) (recs : List LogRecord) :
    (∀ k ∈ o.order (scan (sortRecords recs)).seqsByKey.keys,
      ((scan (sortRecords recs)).seqsByKey.lookup k).getD [] ≠ []) ∧
    ∀ F : List Int → Int, ((o.order (scan (sortRecords recs)).seqsByKey.keys).map fun k =>
      F (((scan (sortRecords recs)).seqsByKey.lookup k).getD [])).sum =
        ∑ k ∈ keySet recs, F (stream k (sortRecords recs)) := by
  have hspec := scan_spec (sortRecords recs)
  have hkeys := scan_keys (sortRecords recs)
  rw [keySet_sortRecords] at hkeys
  generalize scan (sortRecords recs) = sc at hspec hkeys
  have hseqs : ∀ k ∈ keySet recs, (sc.seqsByKey.lookup k).getD [] = stream k (sortRecords recs) := by
    intro k hk
    rw [← keySet_sortRecords, ← stream_ne_nil] at hk
    rw [hspec.seqsByKey, if_neg hk, Option.getD_some]
  refine ⟨fun k hk => ?_, fun F => ?_⟩
  · have hmem : k ∈ keySet recs := by
      rw [← hkeys, List.mem_toFinset]
      exact o.mem_order.mp hk
    rw [hseqs k hmem, stream_ne_nil, keySet_sortRecords]
    exact hmem
  · rw [((o.perm _).map _).sum_eq, ← List.sum_toFinset _ sc.seqsByKey.keys_nodup, hkeys]
    exact Finset.sum_congr rfl fun k hk => by rw [hseqs k hk]

/-- **The report's counters.** For every iteration order of the map they are the sums, over the keys
of the log, of the gaps, the repeats and the descents of the key's stream in partition and offset
order. -/
theorem analyzeLog_tallies (o : IterOrder Int) {recs : List LogRecord} (hne : recs ≠ []) :
    (analyzeLog o recs).lost = ∑ k ∈ keySet recs, gaps (stream k (sortRecords recs)) ∧
    (analyzeLog o recs).duplicated = ∑ k ∈ keySet recs, repeats (stream k (sortRecords recs)) ∧
    (analyzeLog o recs).orderingViol = ∑ k ∈ keySet recs, descents (stream k (sortRecords recs)) := by
  have hordering := (scan_spec (sortRecords recs)).ordering
  obtain ⟨hnonempty, hsum⟩ := visited_keys o recs
  unfold analyzeLog
  rw [if_neg hne]
  generalize scan (sortRecords recs) = sc at *
  obtain ⟨hlost, hdup⟩ := tally_foldl (fun k => (sc.seqsByKey.lookup k).getD []) hnonempty Tally.init
  refine ⟨?_, ?_, ?_⟩
  · exact (hlost.trans (zero_add _)).trans (hsum gaps)
  · exact (hdup.trans (zero_add _)).trans (hsum repeats)
  · dsimp only
    rw [hordering, keySet_sortRecords]

/-- A report without any finding: pass, and every counter at zero. -/
def Clean (rep : VerifyReport) : Prop :=
  rep.verdict = .pass ∧ rep.lost = 0 ∧ rep.duplicated = 0 ∧ rep.orderingViol = 0

instance (rep : VerifyReport) : Decidable (Clean rep) := inferInstanceAs (Decidable (_ ∧ _ ∧ _ ∧ _))

theorem analyzeLog_verdict (o : IterOrder Int) {recs : List LogRecord} (hne : recs ≠ []) :
    (analyzeLog o recs).verdict =
      if (analyzeLog o recs).lost = 0 ∧ (analyzeLog o recs).duplicated = 0 ∧ (analyzeLog o recs).orderingViol = 0
      then .pass else .fail := by
  unfold analyzeLog
  rw [if_neg hne]

theorem analyzeLog_clean_iff_pass (o : IterOrder Int) (recs : List LogRecord) :
    Clean (analyzeLog o recs) ↔ (analyzeLog o recs).verdict = .pass := by
  refine ⟨fun h => h.1, fun h => ⟨h, ?_⟩⟩
  by_cases hne : recs = []
  · subst hne
    simp [analyzeLog] at h
  · rw [analyzeLog_verdict o hne] at h
    by_contra hcounts
    rw [if_neg hcounts] at h
    exact absurd h (by decide)

/-- **The verdict.** `analyzeLog` passes exactly the nonempty logs in which every key's stream, in
partition and offset order, counts up by one from wherever it starts. -/
theorem analyzeLog_pass_iff (o : IterOrder Int) (recs : List LogRecord) :
    (analyzeLog o recs).verdict = .pass ↔ recs ≠ [] ∧ ∀ k, Consecutive (stream k (sortRecords recs)) := by
  by_cases hne : recs = []
  · subst hne
    simp [analyzeLog]
  have hstream : ∀ k ∈ keySet recs, stream k (sortRecords recs) ≠ [] := by
    intro k hk
    rwa [stream_ne_nil, keySet_sortRecords]
  obtain ⟨hlost, hdup, hord⟩ := analyzeLog_tallies o hne
  have hverdict : (analyzeLog o recs).verdict = .pass ↔
      ∀ k ∈ keySet recs, Consecutive (stream k (sortRecords recs)) := by
    rw [analyzeLog_verdict o hne, hlost, hdup, hord, ite_eq_left_iff]
    rw [Finset.sum_eq_zero_iff_of_nonneg fun k hk => gaps_nonneg (hstream k hk),
      Finset.sum_eq_zero_iff_of_nonneg fun k _ => repeats_nonneg _,
      Finset.sum_eq_zero_iff_of_nonneg fun k _ => descents_nonneg _]
    simp only [reduceCtorEq, imp_false, not_not]
    constructor
    · rintro ⟨hg, hr, hd⟩ k hk
      exact (clean_iff_consecutive (hstream k hk)).mp ⟨hg k hk, hr k hk, hd k hk⟩
    · intro h
      have hclean := fun k hk => (clean_iff_consecutive (hstream k hk)).mpr (h k hk)
      exact ⟨fun k hk => (hclean k hk).1, fun k hk => (hclean k hk).2.1, fun k hk => (hclean k hk).2.2⟩
  rw [hverdict]
  refine ⟨fun h => ⟨hne, fun k => ?_⟩, fun h k _ => h.2 k⟩
  by_cases hk : k ∈ keySet recs
  · exact h k hk
  · rw [← keySet_sortRecords, ← stream_ne_nil, not_ne_iff] at hk
    rw [hk]
    exact List.IsChain.nil

/-! ## Logs of a topic -/

instance : Std.Total NotAfter := ⟨fun a b => by
  unfold NotAfter less
  split_ifs <;> simp only [decide_eq_false_iff_not] <;> omega⟩

instance : IsTrans LogRecord NotAfter := ⟨fun a b c hab hbc => by
  unfold NotAfter less at *
  split_ifs at * <;> simp only [decide_eq_false_iff_not] at * <;> omega⟩

/-- A list of records in append order: offsets grow in every partition, and a key keeps to one. -/
structure Topic (log : List LogRecord) : Prop where
  offsets : log.Pairwise fun a b => a.partition = b.partition → a.offset < b.offset
  routed : ∀ a ∈ log, ∀ b ∈ log, a.key = b.key → a.partition = b.partition

theorem Topic.sublist {log recs : List LogRecord} (h : Topic log) (hsub : recs.Sublist log) : Topic recs :=
  ⟨h.offsets.sublist hsub, fun a ha b hb => h.routed a (hsub.subset ha) b (hsub.subset hb)⟩

theorem Topic.eq_of_position {log : List LogRecord} (h : Topic log) {a b : LogRecord} (ha : a ∈ log) (hb : b ∈ log)
    (hp : a.partition = b.partition) (ho : a.offset = b.offset) : a = b := by
  by_contra hne
  have hsymm : Std.Symm fun a b : LogRecord => ¬(a.partition = b.partition ∧ a.offset = b.offset) :=
    ⟨fun a b hab hba => hab ⟨hba.1.symm, hba.2.symm⟩⟩
  have hpair : log.Pairwise fun a b => ¬(a.partition = b.partition ∧ a.offset = b.offset) :=
    h.offsets.imp fun hlt hpos => absurd (hlt hpos.1) (by omega)
  exact hpair.forall ha hb hne ⟨hp, ho⟩

/-- **Sorting recovers the append order of every key**, in whatever order the topic was drained. -/
theorem stream_sortRecords {log recs : List LogRecord} (h : Topic log) (hperm : recs.Perm log) (k : Int) :
    stream k (sortRecords recs) = stream k log := by
  unfold stream
  congr 1
  have hsorted : ((sortRecords recs).filter fun r => r.key = k).Pairwise NotAfter :=
    (List.pairwise_insertionSort NotAfter recs).sublist List.filter_sublist
  have happend : (log.filter fun r => r.key = k).Pairwise NotAfter := by
    refine (h.offsets.sublist List.filter_sublist).imp_of_mem fun {a b} ha hb hlt => ?_
    simp only [List.mem_filter, decide_eq_true_eq] at ha hb
    have hp := h.routed a ha.1 b hb.1 (ha.2.trans hb.2.symm)
    have := hlt hp
    simp only [NotAfter, less, hp, ne_eq, not_true, if_false, decide_eq_false_iff_not]
    omega
  refine List.Perm.eq_of_pairwise (fun a b ha hb hab hba => ?_) hsorted happend
    (((recs.perm_insertionSort NotAfter).trans hperm).filter _)
  have hmem : a ∈ log := (((recs.perm_insertionSort NotAfter).trans hperm).mem_iff).mp (List.mem_filter.mp ha).1
  have hpos : a.partition = b.partition ∧ a.offset = b.offset := by
    unfold NotAfter less at hab hba
    split_ifs at hab hba <;> simp only [decide_eq_false_iff_not] at hab hba <;> omega
  exact h.eq_of_position hmem (List.mem_filter.mp hb).1 hpos.1 hpos.2

/-- The verdict on a drained topic, in terms of the keys' streams in append order. -/
theorem Topic.pass_iff {log recs : List LogRecord} (h : Topic log) (hperm : recs.Perm log) (o : IterOrder Int) :
    (analyzeLog o recs).verdict = .pass ↔ log ≠ [] ∧ ∀ k, Consecutive (stream k log) := by
  have hnil : recs = [] ↔ log = [] := ⟨fun h => (h ▸ hperm).nil_eq.symm, fun h => (h ▸ hperm).eq_nil⟩
  rw [analyzeLog_pass_iff, ne_eq, hnil]
  simp only [stream_sortRecords h hperm]

end Proofload.Kafka
