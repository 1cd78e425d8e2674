import Proofload.Kafka.Soundness
import Mathlib.Algebra.BigOperators.Ring.Finset

/-!
# The number of lost records (`targets/kafka/kafkadriver/verify.go`)

Records may be missing from the topic for whatever reason: never stored although acknowledged, truncated with a leader,
deleted by retention. On one producing connection the counters of the report are exact for the records that lie between
two others of their key, and nothing else is reported.

* `LostBetween` : the missing records that the log still shows;
* `losses_counted` : the counters of the report on what is left of the topic.
-/

namespace Proofload.Kafka
open Lib WorkloadGen

set_option autoImplicit false

variable {R : RandV2} {cfg : Setup} {s : State R} {w : Workload} {seed id n : I64}

/-- A missing record with a remaining one of its key before it and one after it. -/
def LostBetween (s : State R) (missing : Stored → Bool) (e : Stored) : Prop :=
  missing e = true ∧
    (∃ a ∈ s.log, a.record.key = e.record.key ∧ missing a = false ∧ a.op.seq < e.op.seq) ∧
    ∃ b ∈ s.log, b.record.key = e.record.key ∧ missing b = false ∧ e.op.seq < b.op.seq

instance (missing : Stored → Bool) (e : Stored) : Decidable (LostBetween s missing e) :=
  inferInstanceAs (Decidable (_ ∧ _ ∧ _))

/-- Among the records of a key, they are the ones that the remaining records enclose. -/
theorem enclosed_iff (missing : Stored → Bool) {e : Stored} {K : Int} (hK : e.record.key = K) :
    Enclosed (fun e : Stored => e.op.seq) (s.log.filter fun e => e.record.key = K) (fun e => !missing e) e ↔
      LostBetween s missing e := by
  subst hK
  unfold Enclosed LostBetween
  simp only [List.mem_filter, decide_eq_true_eq, Bool.not_eq_true', Bool.not_eq_false', and_assoc]

theorem mem_keySet_remaining (missing : Stored → Bool) {recs : List LogRecord}
    (hdrain : recs.Perm (s.remaining missing)) {a : Stored} (ha : a ∈ s.log) (hleft : missing a = false) :
    a.record.key ∈ keySet recs := by
  unfold keySet
  rw [List.mem_toFinset]
  have hmem : a.logRecord ∈ s.remaining missing :=
    List.mem_map_of_mem (List.mem_filter.mpr ⟨ha, by simpa using hleft⟩)
  exact List.mem_map_of_mem (hdrain.mem_iff.mpr hmem)

/-- **Losses are counted exactly.** On one producing connection whose calls were all acknowledged, whatever records
are missing from the topic, in whatever order the rest was drained: below the 64-bit range of record keys the report
counts as lost exactly the missing records that lie between two remaining ones of their key, and no record as
duplicated or out of order. -/
theorem losses_counted (hnew : new w seed id n = .ok cfg.f)
    (hproduce : ∀ op ∈ w.operations, role op.type = .produce) (hconns : cfg.conns = 1)
    (hfit : w.keySpace.val * batchCount cfg.batchSize ≤ 2 ^ 63)
    (hreach : Reachable (step cfg) (init R cfg) s) (hquiet : s.Quiet cfg) (missing : Stored → Bool)
    {recs : List LogRecord} (hdrain : recs.Perm (s.remaining missing)) (hleft : recs ≠ []) (o : IterOrder Int) :
    (analyzeLog o recs).lost = s.log.countP (fun e => LostBetween s missing e) ∧
    (analyzeLog o recs).duplicated = 0 ∧ (analyzeLog o recs).orderingViol = 0 := by
  obtain ⟨rfl, hf⟩ := new_accepted hnew
  have hplaced := placed hreach
  have hdrawn := drawn hf hreach
  have htopic : Topic (s.remaining missing) := hplaced.topic.sublist (List.filter_sublist.map _)
  have hstream : ∀ K, stream K (sortRecords recs) =
      ((s.log.filter fun e => e.record.key = K).filter fun e => !missing e).map fun e => e.op.seq := by
    intro K
    rw [stream_sortRecords htopic hdrain, stream_remaining hplaced]
  have hclean : ∀ K, Consecutive ((s.log.filter fun e => e.record.key = K).map fun e => e.op.seq) := by
    intro K
    rw [← stream_topic hplaced]
    exact (hdrawn.separate hconns hfit).consecutive hplaced (shipped hreach) hdrawn hquiet hproduce K
  have hsorted : ∀ K, (stream K (sortRecords recs)).SortedLT := by
    intro K
    rw [hstream, List.sortedLT_iff_pairwise]
    exact (List.sortedLT_iff_pairwise.mp (hclean K).sortedLT).sublist (List.filter_sublist.map _)
  obtain ⟨hlost, hdup, hord⟩ := analyzeLog_tallies o hleft
  refine ⟨?_, ?_, ?_⟩
  · rw [hlost, ← sum_countP_keys (fun e : Stored => e.record.key) _ (keySet recs) s.log fun e _ he => ?_]
    · rw [Nat.cast_sum]
      refine Finset.sum_congr rfl fun K hK => ?_
      have hne : (s.log.filter fun e => e.record.key = K).filter (fun e => !missing e) ≠ [] := by
        intro hnil
        rw [← keySet_sortRecords, ← stream_ne_nil, hstream, hnil] at hK
        exact hK rfl
      rw [hstream, gaps_filter (hclean K) _ hne]
      congr 1
      refine List.countP_congr fun e he => ?_
      rw [decide_eq_true_eq, decide_eq_true_eq]
      exact enclosed_iff missing (by simpa using (List.mem_filter.mp he).2)
    · obtain ⟨-, ⟨a, ha, hkey, hleft, -⟩, -⟩ := of_decide_eq_true he
      rw [← hkey]
      exact mem_keySet_remaining missing hdrain ha hleft
  · rw [hdup]
    exact Finset.sum_eq_zero fun K _ =>
      repeats_eq_zero.mpr (List.sortedLT_iff_nodup_and_sortedLE.mp (hsorted K)).1
  · rw [hord]
    exact Finset.sum_eq_zero fun K _ =>
      descents_eq_zero.mpr (List.sortedLT_iff_nodup_and_sortedLE.mp (hsorted K)).2

/-- Of four acknowledged records the second and the last are missing: one of them is reported. -/
theorem losses_counted_on_one_producer :
    ∃ s : State pcgRand, Reachable (step oneProducer) (init pcgRand oneProducer) s ∧
      (s.log.filter fun e => e.offset = 1 ∨ e.offset = 3).length = 2 ∧
      (analyzeLog (IterOrder.stored Int) (s.remaining fun e => e.offset = 1 ∨ e.offset = 3)).lost = 1 := by
  obtain ⟨s, hreach, hquiet, hlength, hleft, hcount⟩ : ∃ s : State pcgRand,
      Reachable (step oneProducer) (init pcgRand oneProducer) s ∧ s.Quiet oneProducer ∧
      (s.log.filter fun e => e.offset = 1 ∨ e.offset = 3).length = 2 ∧
      s.remaining (fun e => e.offset = 1 ∨ e.offset = 3) ≠ [] ∧
      s.log.countP (fun e => LostBetween s (fun e => e.offset = 1 ∨ e.offset = 3) e) = 1 :=
    exists_reachable [.call 0, .store 0 0, .ack 0, .call 0, .store 0 0, .ack 0, .call 0, .store 0 0, .ack 0,
      .call 0, .store 0 0, .ack 0] (by decide +kernel)
  have hnew : new (oneKey ["produce"]) 0 0 1 = .ok oneProducer.f := rfl
  refine ⟨s, hreach, hlength, ?_⟩
  rw [(losses_counted hnew (by decide) rfl (by decide) hreach hquiet _ (List.Perm.refl _) hleft _).1, hcount]
  rfl

end Proofload.Kafka
