import Proofload.Kafka.Broker

/-!
# What the kafka-log verdict says about a faultless topic

The generators number their operations per generator and key, over all labels; `analyzeLog` expects
the numbers of a key to be consecutive over the whole topic. The two agree on a single producing
connection, and the theorems say how far they agree beyond it.

* `concurrent_clean_iff` : with several producing connections the report is clean exactly when no
  record key is shared between them;
* `mixed_pass_iff` : on one connection that also consumes, exactly when the produces on a record key are
  numbered consecutively, that is, when no consume on a key falls between two produces on it;
* `loss_detected_iff` : on one producing connection, lost records are noticed exactly when nothing
  remains or a lost record lies between two remaining records of its key.
-/

namespace Proofload.Kafka
open Lib WorkloadGen

set_option autoImplicit false

variable {R : RandV2} {cfg : Setup} {s : State R} {w : Workload} {seed id n : I64}

/-! ## The stream of a record key -/

theorem mem_keysOf {op : Operation} {K : Int} :
    K ∈ cfg.keysOf op ↔ role op.type = .produce ∧ K ∈ recordKeys cfg.batchSize op.key := by
  unfold Setup.keysOf
  by_cases h : role op.type = .produce
  · rw [execute_map_key h]
    simp [h]
  · rw [execute_of_not_produce h]
    simp [h]

/-- If one connection wrote all records with key `K`, their stream is what it drew for `K`. -/
theorem stream_of_conn (hplaced : Placed cfg s) (hshipped : Shipped cfg s) (hquiet : s.Quiet cfg) {K : Int} {c : Nat}
    (hconn : ∀ e ∈ s.log, e.record.key = K → e.conn = c) :
    stream K s.topic = ((s.emitted c).filter fun op => K ∈ cfg.keysOf op).map (·.seq) := by
  rw [stream_topic hplaced, ← hshipped.writes_eq hplaced hquiet c K, State.writes, List.map_map]
  congr 1
  refine List.filter_congr fun e he => ?_
  by_cases hK : e.record.key = K
  · simp [hK, hconn e he hK]
  · simp [hK]

/-- If moreover one operation key `k` feeds `K`, the stream is that of the produces among the draws
on `k`. -/
theorem stream_of_key (hplaced : Placed cfg s) (hshipped : Shipped cfg s) (hquiet : s.Quiet cfg) {K k : Int} {c : Nat}
    (hconn : ∀ e ∈ s.log, e.record.key = K → e.conn = c) (hK : K ∈ recordKeys cfg.batchSize k)
    (hkey : ∀ op ∈ s.emitted c, K ∈ cfg.keysOf op → op.key = k) :
    stream K s.topic =
      (((s.emitted c).filter fun op => op.key = k).filter fun op => role op.type = .produce).map (·.seq) := by
  rw [stream_of_conn hplaced hshipped hquiet hconn, List.filter_filter]
  congr 1
  refine List.filter_congr fun op hop => ?_
  rw [← Bool.decide_and, decide_eq_decide]
  refine ⟨fun h => ⟨(mem_keysOf.mp h).1, hkey op hop h⟩, fun h => mem_keysOf.mpr ⟨h.1, ?_⟩⟩
  rwa [h.2]

theorem Shipped.mem_emitted (h : Shipped cfg s) {e : Stored} (he : e ∈ s.log) :
    e.op ∈ s.emitted e.conn ∧ e.record.key ∈ cfg.keysOf e.op := by
  have hmem : e.op ∈ s.writes e.conn e.record.key ++ s.inFlight e.conn e.record.key :=
    List.mem_append_left _ (List.mem_map_of_mem (List.mem_filter.mpr ⟨he, by simp⟩))
  rw [h] at hmem
  simpa using hmem

theorem Shipped.exists_stored (h : Shipped cfg s) (hplaced : Placed cfg s) (hquiet : s.Quiet cfg) {c : Nat}
    {op : Operation} {K : Int} (hop : op ∈ s.emitted c) (hK : K ∈ cfg.keysOf op) :
    ∃ e ∈ s.log, e.conn = c ∧ e.record.key = K ∧ e.op = op := by
  have hmem : op ∈ s.writes c K := by
    rw [h.writes_eq hplaced hquiet c K]
    exact List.mem_filter.mpr ⟨hop, by simpa using hK⟩
  obtain ⟨e, he, rfl⟩ := List.mem_map.mp hmem
  obtain ⟨helog, hce⟩ := List.mem_filter.mp he
  simp only [decide_eq_true_eq] at hce
  exact ⟨e, helog, hce.1, hce.2, rfl⟩

theorem exists_first_draw {g : Gen R} {ops : List Operation} (h : Counted g ops) {op : Operation} (hop : op ∈ ops) :
    ∃ first ∈ ops, first.key = op.key ∧ first.seq = 1 := by
  obtain ⟨-, hseqs⟩ := h op.key
  have hmem : op ∈ ops.filter fun o => o.key = op.key := List.mem_filter.mpr ⟨hop, by simp⟩
  have hpos : 1 ≤ (g.seqOf op.key).toNat := by
    by_contra hzero
    rw [show (g.seqOf op.key).toNat = 0 by omega] at hseqs
    rw [List.map_eq_nil_iff.mp hseqs] at hmem
    exact absurd hmem List.not_mem_nil
  have hone : (1 : Int) ∈ (ops.filter fun o => o.key = op.key).map (·.seq) := by
    rw [hseqs, mem_upTo]
    omega
  obtain ⟨first, hfirst, hseq⟩ := List.mem_map.mp hone
  obtain ⟨hfirst, hkey⟩ := List.mem_filter.mp hfirst
  exact ⟨first, hfirst, by simpa using hkey, hseq⟩

theorem role_of_listed (hdrawn : Drawn cfg s) (hproduce : ∀ op ∈ cfg.f.w.operations, role op.type = .produce) {c : Nat}
    {op : Operation} (hop : op ∈ s.emitted c) : role op.type = .produce := by
  obtain ⟨spec, hspec, htype⟩ := List.mem_map.mp (hdrawn.listed c op hop).1
  rw [← htype]
  exact hproduce spec hspec

theorem stream_of_unwritten (hplaced : Placed cfg s) {K : Int} (h : ∀ e ∈ s.log, e.record.key ≠ K) :
    stream K s.topic = [] := by
  rw [stream_topic hplaced, List.filter_eq_nil_iff.mpr fun e he hK => h e he (by simpa using hK)]
  rfl

theorem Placed.conn_eq_zero (hplaced : Placed cfg s) (hconns : cfg.conns = 1) {e : Stored} (he : e ∈ s.log) :
    e.conn = 0 := by
  have := (hplaced.sent e he).1
  omega

/-! ## Several producing connections -/

/-- No two draws of different connections, or on different keys, write to one record key. -/
def Separate (cfg : Setup) (s : State R) : Prop :=
  ∀ c c', ∀ a ∈ s.emitted c, ∀ b ∈ s.emitted c', ∀ K,
    K ∈ recordKeys cfg.batchSize a.key → K ∈ recordKeys cfg.batchSize b.key → c = c' ∧ a.key = b.key

theorem Separate.consecutive (hplaced : Placed cfg s) (hshipped : Shipped cfg s) (hdrawn : Drawn cfg s)
    (hquiet : s.Quiet cfg) (hproduce : ∀ op ∈ cfg.f.w.operations, role op.type = .produce) (h : Separate cfg s)
    (K : Int) : Consecutive (stream K s.topic) := by
  by_cases hwritten : ∃ e ∈ s.log, e.record.key = K
  · obtain ⟨e, he, rfl⟩ := hwritten
    obtain ⟨hop, hK⟩ := hshipped.mem_emitted he
    have hrec := (mem_keysOf.mp hK).2
    have hconn : ∀ e' ∈ s.log, e'.record.key = e.record.key → e'.conn = e.conn := by
      intro e' he' hkey
      obtain ⟨hop', hK'⟩ := hshipped.mem_emitted he'
      rw [hkey] at hK'
      exact (h _ _ _ hop' _ hop _ (mem_keysOf.mp hK').2 hrec).1
    have hkey : ∀ op ∈ s.emitted e.conn, e.record.key ∈ cfg.keysOf op → op.key = e.op.key :=
      fun op hop' hK' => (h _ _ _ hop' _ hop _ (mem_keysOf.mp hK').2 hrec).2
    rw [stream_of_key hplaced hshipped hquiet hconn hrec hkey, List.filter_eq_self.mpr, ((hdrawn.counted e.conn) _).2]
    · exact consecutive_upTo _
    · intro op hop'
      simpa using role_of_listed hdrawn hproduce (List.mem_filter.mp hop').1
  · rw [stream_of_unwritten hplaced fun e he hK => hwritten ⟨e, he, hK⟩]
    exact List.IsChain.nil

/-- A record key that two connections, or two operation keys, write to sees the number one twice. -/
theorem separate_of_nodup (hplaced : Placed cfg s) (hshipped : Shipped cfg s) (hdrawn : Drawn cfg s)
    (hquiet : s.Quiet cfg) (hproduce : ∀ op ∈ cfg.f.w.operations, role op.type = .produce)
    (h : ∀ K, (stream K s.topic).Nodup) : Separate cfg s := by
  intro c c' a ha b hb K hKa hKb
  have hstored : ∀ c, ∀ op ∈ s.emitted c, K ∈ recordKeys cfg.batchSize op.key →
      ∃ e ∈ s.log, e.record.key = K ∧ e.conn = c ∧ e.op.key = op.key ∧ e.op.seq = 1 := by
    intro c op hop hK
    obtain ⟨first, hfirst, hkey, hseq⟩ := exists_first_draw (hdrawn.counted c) hop
    rw [← hkey] at hK
    obtain ⟨e, he, hc, hrec, rfl⟩ := hshipped.exists_stored hplaced hquiet hfirst
      (mem_keysOf.mpr ⟨role_of_listed hdrawn hproduce hfirst, hK⟩)
    exact ⟨e, he, hrec, hc, hkey, hseq⟩
  obtain ⟨e, he, hrec, hc, hkey, hseq⟩ := hstored c a ha hKa
  obtain ⟨e', he', hrec', hc', hkey', hseq'⟩ := hstored c' b hb hKb
  have hnodup := h K
  rw [stream_topic hplaced] at hnodup
  have heq : e = e' := List.inj_on_of_nodup_map hnodup (List.mem_filter.mpr ⟨he, by simpa using hrec⟩)
    (List.mem_filter.mpr ⟨he', by simpa using hrec'⟩) (hseq.trans hseq'.symm)
  rw [← hc, ← hc', ← hkey, ← hkey', heq]
  exact ⟨rfl, rfl⟩

/-- **Concurrent producers.** In every quiet state of every run of a produce-only workload, on any
number of connections, the report on the drained topic is clean exactly when the connections write to
separate record keys. -/
theorem concurrent_clean_iff (hnew : new w seed id n = .ok cfg.f)
    (hproduce : ∀ op ∈ w.operations, role op.type = .produce)
    (hreach : Reachable (step cfg) (init R cfg) s) (hquiet : s.Quiet cfg) (hne : s.log ≠ [])
    {recs : List LogRecord} (hdrain : recs.Perm s.topic) (o : IterOrder Int) :
    Clean (analyzeLog o recs) ↔ Separate cfg s := by
  obtain ⟨rfl, hf⟩ := new_accepted hnew
  have hplaced := placed hreach
  have hshipped := shipped hreach
  have hdrawn := drawn hf hreach
  have htopic : s.topic ≠ [] := fun h => hne (List.map_eq_nil_iff.mp h)
  rw [analyzeLog_clean_iff_pass, hplaced.topic.pass_iff hdrain o]
  constructor
  · rintro ⟨-, hconsec⟩
    refine separate_of_nodup hplaced hshipped hdrawn hquiet hproduce fun K => ?_
    exact (List.sortedLT_iff_nodup_and_sortedLE.mp (hconsec K).sortedLT).1
  · intro h
    exact ⟨htopic, h.consecutive hplaced hshipped hdrawn hquiet hproduce⟩

/-- A workload with the given labels, each of weight one, on a single key. -/
def oneKey (labels : List OpType) : Workload :=
  { name := "one-key", mode := .correctness, operations := labels.map fun t => ⟨t, 1⟩, keySpace := 1,
    keyDist := .uniform, valueSize := 16, verifyModel := .kafkaLog, params := ∅ }

/-- The factory `new` builds for `oneKey` as the only worker. -/
def oneKeyFactory (labels : List OpType) (seed : Int) : Factory :=
  { w := oneKey labels, seed := seed, workerID := 0, strideN := 1, base := 0, localSpace := 1, zipfS := defaultZipfS,
    cum := (List.range labels.length).map fun i : Nat => (i : Int) + 1, total := labels.length }

/-- A run of `oneKey` with unbatched produces. -/
def oneKeySetup (labels : List OpType) (seed : Int) (conns : Nat) : Setup :=
  { f := oneKeyFactory labels seed, conns := conns, topic := "proofload", batchSize := 1, partitionOf := fun _ => 0 }

/-- Two connections producing on the only key. -/
def twoProducers : Setup := oneKeySetup ["produce"] 0 2

/-- Two connections that each produce once on the only key both send the number one. -/
theorem shared_key_reported :
    new (oneKey ["produce"]) 0 0 1 = .ok twoProducers.f ∧
    ∃ s : State pcgRand, Reachable (step twoProducers) (init pcgRand twoProducers) s ∧ s.Quiet twoProducers ∧
      s.log ≠ [] ∧ s.topic = [⟨0, 0, 0, 1⟩, ⟨0, 1, 0, 1⟩] ∧ ¬Clean (analyzeLog (IterOrder.stored Int) s.topic) :=
  ⟨rfl, exists_reachable [.call 0, .call 1, .store 0 0, .store 1 0, .ack 1, .ack 0] (by decide +kernel)⟩

/-- Two connections producing on two keys. -/
def twoKeys : Workload := { oneKey ["produce"] with name := "two-keys", keySpace := 2 }

def twoKeyProducers : Setup :=
  { oneKeySetup ["produce"] 2 2 with f := { oneKeyFactory ["produce"] 2 with w := twoKeys, localSpace := 2 } }

/-- With this seed each connection draws a key of its own. -/
theorem concurrent_clean_iff_on_two_connections :
    ∃ s : State pcgRand, Reachable (step twoKeyProducers) (init pcgRand twoKeyProducers) s ∧
      s.topic = [⟨0, 0, 1, 1⟩, ⟨0, 1, 0, 1⟩] ∧
      (Clean (analyzeLog (IterOrder.stored Int) s.topic) ↔ Separate twoKeyProducers s) := by
  obtain ⟨s, hreach, hquiet, hne, htopic⟩ : ∃ s : State pcgRand,
      Reachable (step twoKeyProducers) (init pcgRand twoKeyProducers) s ∧ s.Quiet twoKeyProducers ∧ s.log ≠ [] ∧
        s.topic = [⟨0, 0, 1, 1⟩, ⟨0, 1, 0, 1⟩] :=
    exists_reachable [.call 0, .call 1, .store 1 0, .store 0 0, .ack 0, .ack 1] (by decide +kernel)
  have hnew : new twoKeys 2 0 1 = .ok twoKeyProducers.f := rfl
  exact ⟨s, hreach, htopic, concurrent_clean_iff hnew (by decide) hreach hquiet hne (List.Perm.refl _) _⟩

/-! ## One connection -/

/-- With a single connection, and record keys inside the 64-bit range, the stream of a record key is
that of the produces among the draws on one operation key. -/
theorem single_stream (hplaced : Placed cfg s) (hshipped : Shipped cfg s) (hdrawn : Drawn cfg s) (hquiet : s.Quiet cfg)
    (hconns : cfg.conns = 1) (hfit : cfg.f.w.keySpace.val * batchCount cfg.batchSize ≤ 2 ^ 63) {op : Operation}
    (hop : op ∈ s.emitted 0) {K : Int} (hK : K ∈ recordKeys cfg.batchSize op.key) :
    stream K s.topic =
      (((s.emitted 0).filter fun o => o.key = op.key).filter fun o => role o.type = .produce).map (·.seq) := by
  refine stream_of_key hplaced hshipped hquiet (fun e he _ => ?_) hK fun o ho hKo => ?_
  · exact hplaced.conn_eq_zero hconns he
  · exact recordKeys_disjoint hfit (hdrawn.listed 0 o ho).2 (hdrawn.listed 0 op hop).2 (mem_keysOf.mp hKo).2 hK

theorem single_streams_iff (hplaced : Placed cfg s) (hshipped : Shipped cfg s) (hdrawn : Drawn cfg s)
    (hquiet : s.Quiet cfg) (hconns : cfg.conns = 1)
    (hfit : cfg.f.w.keySpace.val * batchCount cfg.batchSize ≤ 2 ^ 63) :
    (∀ K, Consecutive (stream K s.topic)) ↔ ∀ k, Consecutive
      ((((s.emitted 0).filter fun o => o.key = k).filter fun o => role o.type = .produce).map (·.seq)) := by
  have hstream := fun {op} (hop : op ∈ s.emitted 0) {K} (hK : K ∈ recordKeys cfg.batchSize op.key) =>
    single_stream hplaced hshipped hdrawn hquiet hconns hfit hop hK
  constructor
  · intro h k
    by_cases hdraw : ∃ op ∈ s.emitted 0, op.key = k
    · obtain ⟨op, hop, rfl⟩ := hdraw
      obtain ⟨K, hK⟩ := List.exists_mem_of_ne_nil _ (recordKeys_ne_nil cfg.batchSize op.key)
      rw [← hstream hop hK]
      exact h K
    · rw [List.filter_eq_nil_iff.mpr fun op hop hk => hdraw ⟨op, hop, by simpa using hk⟩]
      exact List.IsChain.nil
  · intro h K
    by_cases hwritten : ∃ e ∈ s.log, e.record.key = K
    · obtain ⟨e, he, rfl⟩ := hwritten
      obtain ⟨hop, hK⟩ := hshipped.mem_emitted he
      rw [hplaced.conn_eq_zero hconns he] at hop
      rw [hstream hop (mem_keysOf.mp hK).2]
      exact h e.op.key
    · rw [stream_of_unwritten hplaced fun e he hK => hwritten ⟨e, he, hK⟩]
      exact List.IsChain.nil

/-- **One connection that also consumes.** In every quiet state with a nonempty topic the verdict is pass
exactly when the produces that write to a record key carry consecutive numbers; below the 64-bit range of
record keys, exactly when no other operation on a key was drawn between two produces on it. -/
theorem mixed_pass_iff (hnew : new w seed id n = .ok cfg.f) (hconns : cfg.conns = 1)
    (hreach : Reachable (step cfg) (init R cfg) s) (hquiet : s.Quiet cfg) (hne : s.log ≠ [])
    {recs : List LogRecord} (hdrain : recs.Perm s.topic) (o : IterOrder Int) :
    ((analyzeLog o recs).verdict = .pass ↔
      ∀ K, Consecutive (((s.emitted 0).filter fun op =>
        role op.type = .produce ∧ K ∈ recordKeys cfg.batchSize op.key).map (·.seq))) ∧
    (w.keySpace.val * batchCount cfg.batchSize ≤ 2 ^ 63 →
      ((analyzeLog o recs).verdict = .pass ↔
        ∀ a c b, [a, c, b].Sublist (s.emitted 0) → a.key = c.key → c.key = b.key →
          role a.type = .produce → role b.type = .produce → role c.type = .produce)) := by
  obtain ⟨rfl, hf⟩ := new_accepted hnew
  have hplaced := placed hreach
  have hshipped := shipped hreach
  have hdrawn := drawn hf hreach
  have htopic : s.topic ≠ [] := fun h => hne (List.map_eq_nil_iff.mp h)
  rw [hplaced.topic.pass_iff hdrain o, and_iff_right htopic]
  refine ⟨?_, fun hfit => ?_⟩
  · simp only [stream_of_conn hplaced hshipped hquiet fun e he _ => hplaced.conn_eq_zero hconns he, mem_keysOf]
  · have hcounted : ∀ k, Consecutive (((s.emitted 0).filter fun o => o.key = k).map (·.seq)) := by
      intro k
      rw [(hdrawn.counted 0 k).2]
      exact consecutive_upTo _
    rw [single_streams_iff hplaced hshipped hdrawn hquiet hconns hfit, forall_consecutive_filter_iff hcounted]
    simp only [decide_eq_true_eq]

/-- One connection drawing produces and consumes on the only key. -/
def producerConsumer : Setup := oneKeySetup ["produce", "consume"] 1 1

/-- The draws produce, consume, produce leave the numbers one and three on the topic. -/
theorem consume_reported_as_loss :
    new (oneKey ["produce", "consume"]) 1 0 1 = .ok producerConsumer.f ∧
    ∃ s : State pcgRand, Reachable (step producerConsumer) (init pcgRand producerConsumer) s ∧
      s.Quiet producerConsumer ∧
      (s.emitted 0).map (·.type) = ["produce", "consume", "produce"] ∧ s.topic = [⟨0, 0, 0, 1⟩, ⟨0, 1, 0, 3⟩] ∧
      (analyzeLog (IterOrder.stored Int) s.topic).verdict = .fail ∧
      (analyzeLog (IterOrder.stored Int) s.topic).lost = 1 :=
  ⟨rfl, exists_reachable [.call 0, .store 0 0, .ack 0, .call 0, .ack 0, .call 0, .store 0 0, .ack 0]
    (by decide +kernel)⟩

theorem mixed_pass_iff_on_produce_consume :
    ∃ s : State pcgRand, Reachable (step producerConsumer) (init pcgRand producerConsumer) s ∧
      ((analyzeLog (IterOrder.stored Int) s.topic).verdict = .pass ↔
        ∀ a c b, [a, c, b].Sublist (s.emitted 0) → a.key = c.key → c.key = b.key →
          role a.type = .produce → role b.type = .produce → role c.type = .produce) := by
  obtain ⟨s, hreach, hquiet, hne⟩ : ∃ s : State pcgRand, Reachable (step producerConsumer)
      (init pcgRand producerConsumer) s ∧ s.Quiet producerConsumer ∧ s.log ≠ [] :=
    exists_reachable [.call 0, .store 0 0, .ack 0, .call 0, .ack 0] (by decide +kernel)
  have hnew : new (oneKey ["produce", "consume"]) 1 0 1 = .ok producerConsumer.f := rfl
  exact ⟨s, hreach, (mixed_pass_iff hnew rfl hreach hquiet hne (List.Perm.refl _) _).2 (by decide)⟩

/-! ## Lost records -/

/-- Below the 64-bit range a single connection writes every record key for one operation key only. -/
theorem Drawn.separate (h : Drawn cfg s) (hconns : cfg.conns = 1)
    (hfit : cfg.f.w.keySpace.val * batchCount cfg.batchSize ≤ 2 ^ 63) : Separate cfg s := by
  intro c c' a ha b hb K hKa hKb
  have hc := h.silent c (List.ne_nil_of_mem ha)
  have hc' := h.silent c' (List.ne_nil_of_mem hb)
  exact ⟨by omega, recordKeys_disjoint hfit (h.listed c a ha).2 (h.listed c' b hb).2 hKa hKb⟩

/-- What is left of the topic when the records selected by `missing` are gone. -/
def State.remaining (s : State R) (missing : Stored → Bool) : List LogRecord :=
  (s.log.filter fun e => !missing e).map Stored.logRecord

theorem stream_remaining (h : Placed cfg s) (missing : Stored → Bool) (K : Int) :
    stream K (s.remaining missing) =
      ((s.log.filter fun e => e.record.key = K).filter fun e => !missing e).map fun e => e.op.seq := by
  unfold stream State.remaining
  rw [List.filter_map, List.map_map, List.filter_filter, List.filter_filter]
  rw [List.filter_congr fun e _ => Bool.and_comm _ _]
  refine List.map_congr_left fun e he => ?_
  exact execute_seq (h.sent e (List.mem_filter.mp he).1).2

/-- **Lost records.** On one producing connection whose calls were all acknowledged, whatever records
are missing from the topic: the verdict on the rest is not pass exactly when nothing is left, or the remaining
records of some key are not numbered consecutively; below the 64-bit range of record keys, exactly when
nothing is left or a missing record lies between two remaining records of its key. -/
theorem loss_detected_iff (hnew : new w seed id n = .ok cfg.f)
    (hproduce : ∀ op ∈ w.operations, role op.type = .produce) (hconns : cfg.conns = 1)
    (hreach : Reachable (step cfg) (init R cfg) s) (hquiet : s.Quiet cfg) (missing : Stored → Bool)
    {recs : List LogRecord} (hdrain : recs.Perm (s.remaining missing)) (o : IterOrder Int) :
    ((analyzeLog o recs).verdict ≠ .pass ↔
      (∀ e ∈ s.log, missing e) ∨
      ∃ K, ¬Consecutive (((s.log.filter fun e => e.record.key = K).filter fun e => !missing e).map fun e => e.op.seq)) ∧
    (w.keySpace.val * batchCount cfg.batchSize ≤ 2 ^ 63 →
      ((analyzeLog o recs).verdict ≠ .pass ↔
        (∀ e ∈ s.log, missing e) ∨
        ∃ a c b, [a, c, b].Sublist s.log ∧ a.record.key = c.record.key ∧ c.record.key = b.record.key ∧
          missing a = false ∧ missing c = true ∧ missing b = false)) := by
  obtain ⟨rfl, hf⟩ := new_accepted hnew
  have hplaced := placed hreach
  have hdrawn := drawn hf hreach
  have htopic : Topic (s.remaining missing) := hplaced.topic.sublist (List.filter_sublist.map _)
  have hempty : s.remaining missing = [] ↔ ∀ e ∈ s.log, missing e := by
    simp [State.remaining, List.filter_eq_nil_iff]
  rw [ne_eq, htopic.pass_iff hdrain o, not_and_or, not_ne_iff, hempty]
  simp only [stream_remaining hplaced]
  refine ⟨or_congr_right not_forall, fun hfit => or_congr_right ?_⟩
  have hclean : ∀ K, Consecutive ((s.log.filter fun e => e.record.key = K).map fun e => e.op.seq) := by
    intro K
    rw [← stream_topic hplaced]
    exact (hdrawn.separate hconns hfit).consecutive hplaced (shipped hreach) hdrawn hquiet hproduce K
  rw [forall_consecutive_filter_iff hclean]
  push Not
  simp only [Bool.not_eq_eq_eq_not, Bool.not_true, Bool.not_eq_false, ne_eq]
  refine exists_congr fun a => exists_congr fun c => exists_congr fun b => ?_
  tauto

/-- One connection producing on the only key. -/
def oneProducer : Setup := oneKeySetup ["produce"] 0 1

/-- Two acknowledged records, the second one missing: the verdict on the rest is pass. -/
theorem tail_loss_passes :
    new (oneKey ["produce"]) 0 0 1 = .ok oneProducer.f ∧
    ∃ s : State pcgRand, Reachable (step oneProducer) (init pcgRand oneProducer) s ∧ s.Quiet oneProducer ∧
      s.topic = [⟨0, 0, 0, 1⟩, ⟨0, 1, 0, 2⟩] ∧ s.remaining (fun e => e.offset = 1) = [⟨0, 0, 0, 1⟩] ∧
      (analyzeLog (IterOrder.stored Int) (s.remaining fun e => e.offset = 1)).verdict = .pass :=
  ⟨rfl, exists_reachable [.call 0, .store 0 0, .ack 0, .call 0, .store 0 0, .ack 0] (by decide +kernel)⟩

theorem loss_detected_iff_on_one_producer :
    ∃ s : State pcgRand, Reachable (step oneProducer) (init pcgRand oneProducer) s ∧
      ((analyzeLog (IterOrder.stored Int) (s.remaining fun e => e.offset = 1)).verdict ≠ .pass ↔
        (∀ e ∈ s.log, decide (e.offset = 1) = true) ∨
        ∃ a c b, [a, c, b].Sublist s.log ∧ a.record.key = c.record.key ∧ c.record.key = b.record.key ∧
          decide (a.offset = 1) = false ∧ decide (c.offset = 1) = true ∧ decide (b.offset = 1) = false) := by
  obtain ⟨s, hreach, hquiet, -⟩ : ∃ s : State pcgRand, Reachable (step oneProducer) (init pcgRand oneProducer) s ∧
      s.Quiet oneProducer ∧ s.log.length = 2 :=
    exists_reachable [.call 0, .store 0 0, .ack 0, .call 0, .store 0 0, .ack 0] (by decide +kernel)
  have hnew : new (oneKey ["produce"]) 0 0 1 = .ok oneProducer.f := rfl
  exact ⟨s, hreach, (loss_detected_iff hnew (by decide) rfl hreach hquiet _ (List.Perm.refl _) _).2 (by decide)⟩

end Proofload.Kafka
