import Proofload.Kafka.AnalyzeLog

/-!
# The kafka-log verifier in 64-bit arithmetic (`targets/kafka/kafkadriver/verify.go`)

`analyzeLog64` is `analyzeLog` with the `int64` arithmetic of the lost sequence numbers, which are not bounded by the
length of the log: a range of sequence numbers is as wide as its ends are apart. Counts of records stay unbounded.

* `analyzeLog64_eq` : both agree while the total of lost numbers fits;
* `totalGaps_le` : it does for the numbers of a run;
* `stream_sortRecords_eq` : the scan sees every key in offset order;
* `analyze_exact` : what the report says about a log.
-/

namespace Proofload.Kafka
open Lib

set_option autoImplicit false

/-! ## The code -/

/-- One key of the tally loop. -/
def Tally.step64 (t : Tally) (key : Int) (seqs : List Int) : Tally :=
  let keyLost := wrap64 (gaps seqs)
  let keyDup := repeats seqs
  let t := if keyLost > 0 then
    { t with
      lost := wrap64 (t.lost + keyLost)
      lossWitness := if t.lossWitness.length < maxWitness then
        t.lossWitness ++ [s!"key={key} gaps={keyLost} range=[{lowest seqs},{highest seqs}]"]
        else t.lossWitness }
    else t
  if keyDup > 0 then
    { t with
      dup := t.dup + keyDup
      dupWitness := if t.dupWitness.length < maxWitness then t.dupWitness ++ [s!"key={key} dups={keyDup}"]
        else t.dupWitness }
  else t

def tally64 (o : IterOrder Int) (seqsByKey : Map Int (List Int)) : Tally :=
  (o.order seqsByKey.keys).foldl (fun t key => t.step64 key ((seqsByKey.lookup key).getD [])) Tally.init

def analyzeLog64 (o : IterOrder Int) (recs : List LogRecord) : VerifyReport :=
  if recs = [] then
    { model := .kafkaLog, verdict := .unknown, anomalies := [], checked := 0, lost := 0, duplicated := 0,
      orderingViol := 0 }
  else
    let sc := scan (sortRecords recs)
    let t := tally64 o sc.seqsByKey
    { model := .kafkaLog
      verdict := if t.lost = 0 ∧ t.dup = 0 ∧ sc.ordering = 0 then .pass else .fail
      anomalies := buildAnomalies t.lost t.dup sc.ordering t.lossWitness t.dupWitness sc.orderWitness
      checked := recs.length
      lost := t.lost
      duplicated := t.dup
      orderingViol := sc.ordering }

/-! ## While the total fits -/

theorem step64_eq {t : Tally} (key : Int) {seqs : List Int} (hs : seqs ≠ []) (hlost : 0 ≤ t.lost)
    (hfits : t.lost + gaps seqs < 2 ^ 63) : t.step64 key seqs = t.step key seqs := by
  have hgaps := gaps_nonneg hs
  have hkey : wrap64 (gaps seqs) = gaps seqs := wrap64_eq_self (by omega) (by omega)
  have hsum : wrap64 (t.lost + gaps seqs) = t.lost + gaps seqs := wrap64_eq_self (by omega) hfits
  unfold Tally.step64 Tally.step
  dsimp only
  rw [hkey, hsum]

/-- The loops agree as long as what is lost on the visited keys fits on top of what is there. -/
theorem foldl_step64 (seqsOf : Int → List Int) {keys : List Int} (hs : ∀ k ∈ keys, seqsOf k ≠ []) (t : Tally)
    (hlost : 0 ≤ t.lost) (hfits : t.lost + (keys.map fun k => gaps (seqsOf k)).sum < 2 ^ 63) :
    keys.foldl (fun t key => t.step64 key (seqsOf key)) t = keys.foldl (fun t key => t.step key (seqsOf key)) t := by
  induction keys generalizing t with
  | nil => rfl
  | cons k keys ih =>
      have hk := hs k List.mem_cons_self
      have hrest : ∀ j ∈ keys, seqsOf j ≠ [] := fun j hj => hs j (List.mem_cons_of_mem _ hj)
      have hgaps := gaps_nonneg hk
      have hsum : 0 ≤ (keys.map fun k => gaps (seqsOf k)).sum := by
        apply List.sum_nonneg
        intro x hx
        obtain ⟨j, hj, rfl⟩ := List.mem_map.mp hx
        exact gaps_nonneg (hrest j hj)
      rw [List.map_cons, List.sum_cons] at hfits
      rw [List.foldl_cons, List.foldl_cons, step64_eq k hk hlost (by omega)]
      obtain ⟨hstep, -⟩ := tally_step_lost t k hk
      exact ih hrest _ (by omega) (by omega)

/-- The sequence numbers that are missing from a key's stream, over all keys. -/
def totalGaps (recs : List LogRecord) : Int := ∑ k ∈ keySet recs, gaps (stream k (sortRecords recs))

theorem analyzeLog64_eq (o : IterOrder Int) {recs : List LogRecord} (hfits : totalGaps recs < 2 ^ 63) :
    analyzeLog64 o recs = analyzeLog o recs := by
  by_cases hne : recs = []
  · rw [hne]
    rfl
  have htally : tally64 o (scan (sortRecords recs)).seqsByKey = tally o (scan (sortRecords recs)).seqsByKey := by
    obtain ⟨hmem, hsum⟩ := visited_keys o recs
    apply foldl_step64
    · exact hmem
    · exact le_refl _
    · rw [hsum gaps]
      show 0 + totalGaps recs < 2 ^ 63
      rwa [Int.zero_add]
  unfold analyzeLog64 analyzeLog
  dsimp only
  rw [htally]

theorem totalGaps_le {recs : List LogRecord} {n : Nat} (h : ∀ r ∈ recs, 1 ≤ r.seq ∧ r.seq ≤ n) :
    totalGaps recs ≤ (recs.length * n : Nat) := by
  have hgaps : ∀ k ∈ keySet recs, gaps (stream k (sortRecords recs)) ≤ n := by
    intro k hk
    have hrange : ∀ x ∈ stream k (sortRecords recs), 1 ≤ x ∧ x ≤ n := by
      intro x hx
      obtain ⟨r, hr, rfl⟩ := List.mem_map.mp hx
      exact h r ((List.mem_insertionSort _).mp (List.mem_filter.mp hr).1)
    have hne : stream k (sortRecords recs) ≠ [] := by rwa [stream_ne_nil, keySet_sortRecords]
    have hlow := (hrange _ (lowest_mem hne)).1
    have hhigh := (hrange _ (highest_mem hne)).2
    unfold gaps
    omega
  calc totalGaps recs
      ≤ (keySet recs).card • (n : Int) := Finset.sum_le_card_nsmul _ _ _ hgaps
    _ = ((keySet recs).card * n : Nat) := by rw [nsmul_eq_mul, Nat.cast_mul]
    _ ≤ (recs.length * n : Nat) := by
      have hcard : (keySet recs).card ≤ recs.length := by
        simpa [keySet] using List.toFinset_card_le (recs.map (·.key))
      exact_mod_cast Nat.mul_le_mul_right n hcard

/-! ## Keys in offset order -/

/-- The sequence numbers of a key, in the order of the offsets. -/
def offsetStream (k : Int) (recs : List LogRecord) : List Int :=
  ((recs.filter fun r => r.key = k).insertionSort fun a b => a.offset ≤ b.offset).map (·.seq)

instance : Std.Total fun a b : LogRecord => a.offset ≤ b.offset := ⟨fun a b => le_total a.offset b.offset⟩

instance : IsTrans LogRecord fun a b => a.offset ≤ b.offset := ⟨fun _ _ _ => le_trans⟩

/-- A drained log: no two records at one position, and every key in one partition. -/
structure Drained (recs : List LogRecord) : Prop where
  positions : (recs.map fun r => (r.partition, r.offset)).Nodup
  routed : ∀ a ∈ recs, ∀ b ∈ recs, a.key = b.key → a.partition = b.partition

theorem Drained.perm {recs recs' : List LogRecord} (h : Drained recs) (hperm : recs'.Perm recs) : Drained recs' where
  positions := (hperm.map _).nodup_iff.mpr h.positions
  routed a ha b hb := h.routed a (hperm.mem_iff.mp ha) b (hperm.mem_iff.mp hb)

/-- **The scan sees every key in offset order.** -/
theorem stream_sortRecords_eq {recs : List LogRecord} (h : Drained recs) (k : Int) :
    stream k (sortRecords recs) = offsetStream k recs := by
  unfold stream offsetStream
  congr 1
  have hperm := recs.perm_insertionSort NotAfter
  have hmem : ∀ r ∈ (sortRecords recs).filter (fun r => r.key = k), r ∈ recs ∧ r.key = k := by
    intro r hr
    rw [List.mem_filter, decide_eq_true_eq] at hr
    exact ⟨hperm.mem_iff.mp hr.1, hr.2⟩
  have hsorted : ((sortRecords recs).filter fun r => r.key = k).Pairwise fun a b => a.offset ≤ b.offset := by
    refine ((List.pairwise_insertionSort NotAfter recs).sublist List.filter_sublist).imp_of_mem
      fun {a b} ha hb hab => ?_
    have hpartition := h.routed a (hmem a ha).1 b (hmem b hb).1 ((hmem a ha).2.trans (hmem b hb).2.symm)
    simp only [NotAfter, less, hpartition, ne_eq, not_true, if_false, decide_eq_false_iff_not] at hab
    omega
  refine List.Perm.eq_of_pairwise (fun a b ha hb hab hba => ?_) hsorted
    (List.pairwise_insertionSort (fun a b : LogRecord => a.offset ≤ b.offset) _)
    ((hperm.filter _).trans (List.perm_insertionSort _ _).symm)
  have hb' : b ∈ recs ∧ b.key = k := by
    rw [List.mem_insertionSort, List.mem_filter, decide_eq_true_eq] at hb
    exact hb
  have hpartition := h.routed a (hmem a ha).1 b hb'.1 ((hmem a ha).2.trans hb'.2.symm)
  exact List.inj_on_of_nodup_map h.positions (hmem a ha).1 hb'.1 (Prod.ext hpartition (le_antisymm hab hba))

theorem keySet_perm {recs recs' : List LogRecord} (hperm : recs'.Perm recs) : keySet recs' = keySet recs :=
  List.toFinset_eq_of_perm _ _ (hperm.map _)

theorem Drained.offsetStream_perm {recs recs' : List LogRecord} (h : Drained recs) (hperm : recs'.Perm recs) (k : Int) :
    offsetStream k recs' = offsetStream k recs := by
  rw [← stream_sortRecords_eq h, ← stream_sortRecords_eq (h.perm hperm)]
  have hsorted := List.pairwise_insertionSort NotAfter
  unfold stream sortRecords
  congr 2
  refine List.Perm.eq_of_pairwise (fun a b ha hb hab hba => ?_) (hsorted recs') (hsorted recs)
    (((recs'.perm_insertionSort NotAfter).trans hperm).trans (recs.perm_insertionSort NotAfter).symm)
  rw [List.mem_insertionSort] at ha hb
  apply List.inj_on_of_nodup_map h.positions (hperm.mem_iff.mp ha) hb
  unfold NotAfter less at hab hba
  split_ifs at hab hba <;> simp only [decide_eq_false_iff_not] at hab hba <;> ext <;> omega

/-! ## The report -/

/-- The integers between the extremes of a key's sequence numbers that do not occur. -/
noncomputable def missing (k : Int) (recs : List LogRecord) : Finset Int :=
  (Finset.Icc (lowest (offsetStream k recs)) (highest (offsetStream k recs))).filter (· ∉ offsetStream k recs)

theorem gaps_offsetStream {recs : List LogRecord} (h : Drained recs) {k : Int} (hk : k ∈ keySet recs) :
    gaps (offsetStream k recs) = (missing k recs).card := by
  apply gaps_eq_card
  rw [← stream_sortRecords_eq h, stream_ne_nil, keySet_sortRecords]
  exact hk

/-- **The report of a drained log.** Whatever the order of the records and of the map, `Lost` counts the missing
sequence numbers of all keys, `Duplicated` the records beyond the distinct ones, `OrderingViol` the descents in offset
order, and the log passes exactly if every key counts up by one. -/
theorem analyze_exact (o : IterOrder Int) {recs recs' : List LogRecord} (hne : recs ≠ []) (h : Drained recs)
    (hfits : ∑ k ∈ keySet recs, ((missing k recs).card : Int) < 2 ^ 63) (hperm : recs'.Perm recs) :
    (analyzeLog64 o recs').lost = ∑ k ∈ keySet recs, ((missing k recs).card : Int) ∧
    (analyzeLog64 o recs').duplicated =
      ∑ k ∈ keySet recs, (((offsetStream k recs).length : Int) - (offsetStream k recs).toFinset.card) ∧
    (analyzeLog64 o recs').orderingViol = ∑ k ∈ keySet recs, descents (offsetStream k recs) ∧
    ((analyzeLog64 o recs').verdict = .pass ↔ ∀ k, Consecutive (offsetStream k recs)) := by
  have hne' : recs' ≠ [] := fun hnil => hne (hnil ▸ hperm).symm.eq_nil
  have hstream : ∀ k, stream k (sortRecords recs') = offsetStream k recs :=
    fun k => (stream_sortRecords_eq (h.perm hperm) k).trans (h.offsetStream_perm hperm k)
  have hmissing : ∑ k ∈ keySet recs, gaps (offsetStream k recs) = ∑ k ∈ keySet recs, ((missing k recs).card : Int) :=
    Finset.sum_congr rfl fun k hk => gaps_offsetStream h hk
  have htotal : totalGaps recs' < 2 ^ 63 := by
    unfold totalGaps
    simp only [hstream]
    rw [keySet_perm hperm, hmissing]
    exact hfits
  obtain ⟨hlost, hdup, hordering⟩ := analyzeLog_tallies o hne'
  have hpass := analyzeLog_pass_iff o recs'
  simp only [hstream] at hlost hdup hordering hpass
  rw [keySet_perm hperm] at hlost hdup hordering
  rw [analyzeLog64_eq o htotal]
  refine ⟨hlost.trans hmissing, hdup.trans ?_, hordering, ?_⟩
  · refine Finset.sum_congr rfl fun k _ => ?_
    rw [repeats, List.card_toFinset]
  · rw [hpass]
    exact ⟨fun hall => hall.2, fun hall => ⟨hne', hall⟩⟩

/-- Four keys, each in a partition of its own, with two sequence numbers `2^62 + 1` apart. -/
def wideGaps : List LogRecord :=
  [⟨0, 0, 0, 0⟩, ⟨0, 1, 0, 4611686018427387905⟩, ⟨1, 0, 1, 0⟩, ⟨1, 1, 1, 4611686018427387905⟩,
    ⟨2, 0, 2, 0⟩, ⟨2, 1, 2, 4611686018427387905⟩, ⟨3, 0, 3, 0⟩, ⟨3, 1, 3, 4611686018427387905⟩]

/-- Every key has `2^62` missing numbers, `max - min + 1` fits for each of them, and the total wraps to zero. -/
theorem total_loss_wraps :
    (wideGaps.map fun r => (r.partition, r.offset)).Nodup ∧
      (∀ a ∈ wideGaps, ∀ b ∈ wideGaps, a.key = b.key → a.partition = b.partition) ∧
      (∀ k ∈ [0, 1, 2, 3], offsetStream k wideGaps = [0, 4611686018427387905]) ∧
      (4611686018427387905 - 0 + 1 : Int) < 2 ^ 63 ∧
      (analyzeLog64 (IterOrder.stored Int) wideGaps).lost = 0 ∧
      (analyzeLog64 (IterOrder.stored Int) wideGaps).verdict = .pass ∧ ¬ Consecutive [0, 4611686018427387905] := by
  decide +kernel

/-- Key 7 without number 2, and key 8 with a repeat and a descent, drained out of order. -/
def smallLog : List LogRecord := [⟨1, 2, 8, 1⟩, ⟨0, 0, 7, 1⟩, ⟨1, 0, 8, 1⟩, ⟨1, 1, 8, 2⟩, ⟨0, 1, 7, 3⟩]

theorem analyze_exact_on_small_log :
    (analyzeLog64 (IterOrder.stored Int) smallLog.reverse).lost =
        ∑ k ∈ keySet smallLog, ((missing k smallLog).card : Int) ∧
      ∑ k ∈ keySet smallLog, ((missing k smallLog).card : Int) = 1 := by
  have hdrained : Drained smallLog := ⟨by decide +kernel, by decide +kernel⟩
  have hone : ∑ k ∈ keySet smallLog, ((missing k smallLog).card : Int) = 1 := by decide +kernel
  obtain ⟨hlost, -⟩ := analyze_exact (IterOrder.stored Int) (by decide) hdrained (by rw [hone]; decide)
    smallLog.reverse_perm
  exact ⟨hlost, hone⟩

end Proofload.Kafka
