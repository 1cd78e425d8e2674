import Proofload.Kafka.Soundness
import Proofload.Kafka.Exact
import Proofload.Lib.Encoding

/-!
# Draining a topic (`targets/kafka/kafkadriver/record.go`, `verify.go`)

What a record carries on the wire, its key as decimal text and its sequence number as an eight byte header, and
the poll loop that decodes the records again. On one producing connection nothing is lost on the way, and
the drained log is clean.

* `decodeRecord_fetched` : decoding recovers the key and the sequence number of a stored record;
* `drainTopic_records` : a drain returns all records of its polls;
* `analyzeLog64_of_run` : the report on a run is the same in 64-bit arithmetic;
* `batch_stream` : on one producing connection a derived key carries the numbers `1, 2, ..., m`;
* `batched_produce_clean` : distinct derived keys, exact decoding and a passing verdict for every such run.
-/

namespace Proofload.Kafka
open Lib WorkloadGen

set_option autoImplicit false

/-! ## The wire form of a record -/

def seqHeaderKey : String := "pl-seq"

structure RecordHeader where
  key : String
  value : Bytes
deriving DecidableEq

/-- A `kgo.Record` as the consumer gets it. -/
structure KgoRecord where
  topic : String
  key : Bytes
  value : Bytes
  headers : List RecordHeader
  partition : Int
  offset : Int
deriving DecidableEq

def keyBytes (key : Int) : Bytes := formatInt key

/-- The drain only asks whether `strconv.ParseInt` failed. -/
def keyFromBytes (b : Bytes) : Option Int := parseInt64 b

/-- The conversion `uint64(seq)`, as eight big-endian bytes. -/
def encodeSeq (seq : Int) : Bytes := toBigEndian 8 (seq % 2 ^ 64).toNat

def decodeSeq (b : Bytes) : Except String Int :=
  if b.length ≠ 8 then .error s!"kafkadriver: seq header has {b.length} bytes, want 8"
  else .ok (wrap64 (ofBigEndian b))

/-- The first header with the sequence key decides. -/
def seqFromHeaders : List RecordHeader → Except String Int
  | [] => .error s!"kafkadriver: record missing {String.quote seqHeaderKey} header"
  | h :: hs => if h.key = seqHeaderKey then decodeSeq h.value else seqFromHeaders hs

/-- A stored record as it is fetched: `recordFrom` and `batchRecordAt` render key and sequence number, the broker
adds the position. -/
def Stored.fetched (e : Stored) : KgoRecord :=
  { topic := e.record.topic, key := keyBytes e.record.key, value := e.record.value,
    headers := [⟨seqHeaderKey, encodeSeq e.record.seq⟩], partition := e.partition, offset := e.offset }

/-! ## The drain -/

/-- What one poll returns: records, an error (the idle window has passed), or a cancelled context. -/
inductive Poll where
  | records (recs : List KgoRecord)
  | failed (err : String)
  | cancelled (err : String)

/-- Records that do not decode are skipped. -/
def decodeRecord (r : KgoRecord) : Option LogRecord :=
  match keyFromBytes r.key, seqFromHeaders r.headers with
  | some key, .ok seq => some { partition := r.partition, offset := r.offset, key, seq }
  | _, _ => none

/-- `drainTopic`: the loop over the polls, with the records decoded so far. When nothing more comes, the idle
window ends the drain. -/
def drainTopic (out : List LogRecord) : List Poll → List LogRecord × Option String
  | [] => (out, none)
  | .cancelled err :: _ => (out, some err)
  | .failed _ :: _ => (out, none)
  | .records recs :: polls =>
      if recs = [] then (out, none) else drainTopic (out ++ recs.filterMap decodeRecord) polls

/-! ## Decoding -/

theorem keyFromBytes_keyBytes {key : Int} (hlow : -2 ^ 63 ≤ key) (hhigh : key < 2 ^ 63) :
    keyFromBytes (keyBytes key) = some key :=
  parseInt64_formatInt hlow hhigh

theorem decodeSeq_encodeSeq {seq : Int} (hlow : -2 ^ 63 ≤ seq) (hhigh : seq < 2 ^ 63) :
    decodeSeq (encodeSeq seq) = .ok seq := by
  have hrange : 0 ≤ seq % 2 ^ 64 ∧ seq % 2 ^ 64 < 2 ^ 64 := by omega
  unfold decodeSeq encodeSeq
  rw [if_neg (by rw [length_toBigEndian]; decide), ofBigEndian_toBigEndian, Nat.mod_eq_of_lt (by omega),
    Int.toNat_of_nonneg hrange.1]
  congr 1
  by_cases hneg : seq < 0
  · rw [show seq % 2 ^ 64 = seq + 2 ^ 64 by omega, ← wrap64_sub_turn, wrap64_eq_self (by omega) (by omega)]
    omega
  · rw [show seq % 2 ^ 64 = seq by omega, wrap64_eq_self hlow hhigh]

/-- **Decoding a fetched record gives the key and the sequence number that were produced.** -/
theorem decodeRecord_fetched {e : Stored} (hkey : -2 ^ 63 ≤ e.record.key ∧ e.record.key < 2 ^ 63)
    (hseq : -2 ^ 63 ≤ e.record.seq ∧ e.record.seq < 2 ^ 63) : decodeRecord e.fetched = some e.logRecord := by
  have hheader : seqFromHeaders e.fetched.headers = .ok e.record.seq := decodeSeq_encodeSeq hseq.1 hseq.2
  have hbytes : keyFromBytes e.fetched.key = some e.record.key := keyFromBytes_keyBytes hkey.1 hkey.2
  unfold decodeRecord
  rw [hbytes, hheader]
  rfl

theorem drainTopic_records {batches : List (List KgoRecord)} (hne : ∀ recs ∈ batches, recs ≠ [])
    (out : List LogRecord) :
    drainTopic out (batches.map .records) = (out ++ batches.flatten.filterMap decodeRecord, none) := by
  induction batches generalizing out with
  | nil =>
      show (out, none) = _
      simp
  | cons recs batches ih =>
      show (if recs = [] then (out, none)
        else drainTopic (out ++ recs.filterMap decodeRecord) (batches.map .records)) = _
      rw [if_neg (hne recs List.mem_cons_self), ih fun r hr => hne r (List.mem_cons_of_mem _ hr)]
      simp

/-! ## Derived keys -/

theorem recordKeys_inj {b : I64} {keySpace k k' K : Int} {i j : Nat} (hfit : keySpace * batchCount b ≤ 2 ^ 63)
    (hk : 0 ≤ k ∧ k < keySpace) (hk' : 0 ≤ k' ∧ k' < keySpace) (hi : (recordKeys b k)[i]? = some K)
    (hj : (recordKeys b k')[j]? = some K) : k = k' ∧ i = j := by
  obtain rfl := recordKeys_disjoint hfit hk hk' (List.mem_of_getElem? hi) (List.mem_of_getElem? hj)
  refine ⟨rfl, ?_⟩
  have hlt := (List.getElem?_eq_some_iff.mp hi).1
  exact (List.getElem?_inj hlt (recordKeys_nodup b k)).mp (hi.trans hj.symm)

theorem recordKeys_range {b : I64} {k K : Int} (hk : -2 ^ 63 ≤ k ∧ k < 2 ^ 63) (hK : K ∈ recordKeys b k) :
    -2 ^ 63 ≤ K ∧ K < 2 ^ 63 := by
  unfold recordKeys at hK
  dsimp only at hK
  split at hK
  · rw [List.mem_singleton.mp hK]
    exact hk
  · obtain ⟨i, -, rfl⟩ := List.mem_map.mp hK
    exact wrap64_range _

/-! ## One producing connection -/

section Batch
variable {R : RandV2} {cfg : Setup} {s : State R}

theorem emitted_seqs (hdrawn : Drawn cfg s) (c : Nat) (k : Int) :
    ((s.emitted c).filter fun o => o.key = k).map (·.seq) = upTo ((s.emitted c).countP fun o => o.key = k) := by
  obtain ⟨-, hseqs⟩ := hdrawn.counted c k
  have hlength := congrArg List.length hseqs
  rw [List.length_map, upTo, List.length_map, List.length_range] at hlength
  rw [hseqs, List.countP_eq_length_filter, hlength]

theorem batch_stream (hplaced : Placed cfg s) (hshipped : Shipped cfg s) (hdrawn : Drawn cfg s) (hquiet : s.Quiet cfg)
    (hproduce : ∀ op ∈ cfg.f.w.operations, role op.type = .produce) (hconns : cfg.conns = 1)
    (hfit : cfg.f.w.keySpace.val * batchCount cfg.batchSize ≤ 2 ^ 63) {k K : Int}
    (hk : 0 ≤ k ∧ k < cfg.f.w.keySpace.val) (hK : K ∈ recordKeys cfg.batchSize k) :
    stream K s.topic = upTo ((s.emitted 0).countP fun o => o.key = k) := by
  rw [stream_of_key hplaced hshipped hquiet (fun e he _ => hplaced.conn_eq_zero hconns he) hK fun o ho hKo =>
    recordKeys_disjoint hfit (hdrawn.listed 0 o ho).2 hk (mem_keysOf.mp hKo).2 hK]
  rw [List.filter_eq_self.mpr, emitted_seqs hdrawn]
  intro o ho
  exact decide_eq_true (role_of_listed hdrawn hproduce (List.mem_filter.mp ho).1)

theorem seq_range (hdrawn : Drawn cfg s) {op : Operation} {c : Nat} (hop : op ∈ s.emitted c) :
    1 ≤ op.seq ∧ op.seq ≤ (s.emitted c).countP fun o => o.key = op.key := by
  have hmem : op.seq ∈ ((s.emitted c).filter fun o => o.key = op.key).map (·.seq) :=
    List.mem_map_of_mem (List.mem_filter.mpr ⟨hop, by simp⟩)
  rw [emitted_seqs hdrawn, mem_upTo] at hmem
  omega

/-- **The 64-bit report of a run.** On whatever part of the topic a drain returns, the report is the unbounded one,
if records times draws of a connection stay below `2^63`. -/
theorem analyzeLog64_of_run {w : Workload} {seed id n : I64} (hnew : new w seed id n = .ok cfg.f)
    (hreach : Reachable (step cfg) (init R cfg) s) {draws : Nat} (hdraws : ∀ c, (s.emitted c).length ≤ draws)
    (hfits : s.log.length * draws < 2 ^ 63) {recs : List LogRecord} (hdrain : recs.Subperm s.topic)
    (o : IterOrder Int) : analyzeLog64 o recs = analyzeLog o recs := by
  obtain ⟨rfl, hf⟩ := new_accepted hnew
  have hseqs : ∀ r ∈ recs, 1 ≤ r.seq ∧ r.seq ≤ draws := by
    intro r hr
    obtain ⟨e, he, rfl⟩ := List.mem_map.mp (hdrain.subset hr)
    have hseq := seq_range (drawn hf hreach) ((shipped hreach).mem_emitted he).1
    have hcount := List.countP_le_length (p := fun o : Operation => decide (o.key = e.op.key)) (l := s.emitted e.conn)
    have hdraws := hdraws e.conn
    change 1 ≤ e.record.seq ∧ e.record.seq ≤ draws
    rw [execute_seq ((placed hreach).sent e he).2]
    omega
  have hlength : recs.length ≤ s.log.length := by
    simpa [State.topic] using hdrain.length_le
  have hgaps := totalGaps_le hseqs
  have hmul := Nat.mul_le_mul_right draws hlength
  exact analyzeLog64_eq o (by omega)

theorem decodeRecord_of_run (hplaced : Placed cfg s) (hshipped : Shipped cfg s) (hdrawn : Drawn cfg s)
    (hconns : cfg.conns = 1) (hdraws : ∀ k, ((s.emitted 0).countP fun op => op.key = k) < 2 ^ 63) {e : Stored}
    (he : e ∈ s.log) :
    decodeRecord e.fetched = some e.logRecord := by
  obtain ⟨hop, hK⟩ := hshipped.mem_emitted he
  rw [hplaced.conn_eq_zero hconns he] at hop
  have hkey := (hdrawn.listed 0 _ hop).2
  have hspace := cfg.f.w.keySpace.lt
  have hseq := seq_range hdrawn hop
  have hdraws := hdraws e.op.key
  rw [← execute_seq (hplaced.sent e he).2] at hseq
  exact decodeRecord_fetched (recordKeys_range (by omega) (mem_keysOf.mp hK).2) (by omega)

/-- **Batched produce on one connection.** For every run of a produce-only workload on one connection, of at least
one operation and fewer than `2^63` on each key, all acknowledged, with a batch size of at least one whose product
with the key space stays below `2^63`, and however the polls cut and order the stored records: distinct pairs of
operation key and index have distinct derived keys; the drain recovers exactly the keys and sequence numbers produced;
in offset order a derived key carries `1, 2, ..., m`; and the verdict is pass. -/
theorem batched_produce_clean {w : Workload} {seed id n : I64} (hnew : new w seed id n = .ok cfg.f)
    (hlabels : ∀ op ∈ w.operations, op.type ∈ ["produce", "w", "produce_batch", "wb"]) (hconns : cfg.conns = 1)
    (hbatch : 1 ≤ cfg.batchSize.val) (hfit : w.keySpace.val * cfg.batchSize.val < 2 ^ 63)
    (hreach : Reachable (step cfg) (init R cfg) s) (hquiet : s.Quiet cfg) (hne : s.emitted 0 ≠ [])
    (hdraws : ∀ k, ((s.emitted 0).countP fun op => op.key = k) < 2 ^ 63)
    {polls : List (List KgoRecord)} (hpolls : ∀ recs ∈ polls, recs ≠ [])
    (hdrain : polls.flatten.Perm (s.log.map Stored.fetched)) (o : IterOrder Int) :
    (∀ (k k' : Int) (i j : Nat) (K : Int), (0 ≤ k ∧ k < w.keySpace.val) → (0 ≤ k' ∧ k' < w.keySpace.val) →
      (recordKeys cfg.batchSize k)[i]? = some K → (recordKeys cfg.batchSize k')[j]? = some K → k = k' ∧ i = j) ∧
    ∃ recs, drainTopic [] (polls.map .records) = (recs, none) ∧ recs.Perm (s.log.map Stored.logRecord) ∧
      (∀ k K, (0 ≤ k ∧ k < w.keySpace.val) → K ∈ recordKeys cfg.batchSize k →
        stream K (sortRecords recs) = upTo ((s.emitted 0).countP fun op => op.key = k)) ∧
      (analyzeLog o recs).verdict = .pass := by
  obtain ⟨rfl, hf⟩ := new_accepted hnew
  have hplaced := placed hreach
  have hshipped := shipped hreach
  have hdrawn := drawn hf hreach
  have hproduce : ∀ op ∈ cfg.f.w.operations, role op.type = .produce := by
    intro op hop
    have hmem := hlabels op hop
    simp only [List.mem_cons, List.not_mem_nil, or_false] at hmem
    rcases hmem with h | h | h | h <;> rw [h] <;> decide
  have hcount : batchCount cfg.batchSize = cfg.batchSize.val := if_neg (by omega)
  have hfit' : cfg.f.w.keySpace.val * batchCount cfg.batchSize ≤ 2 ^ 63 := by
    rw [hcount]
    omega
  have hrecs : (polls.flatten.filterMap decodeRecord).Perm (s.log.map Stored.logRecord) := by
    refine (hdrain.filterMap decodeRecord).trans (List.Perm.of_eq ?_)
    rw [List.filterMap_map, ← List.filterMap_eq_map]
    exact List.filterMap_congr fun e he => decodeRecord_of_run hplaced hshipped hdrawn hconns hdraws he
  refine ⟨fun k k' i j K hk hk' hi hj => recordKeys_inj hfit' hk hk' hi hj, _, ?_, hrecs, fun k K hk hK => ?_, ?_⟩
  · rw [drainTopic_records hpolls, List.nil_append]
  · rw [stream_sortRecords hplaced.topic hrecs]
    exact batch_stream hplaced hshipped hdrawn hquiet hproduce hconns hfit' hk hK
  · apply (hplaced.topic.pass_iff hrecs o).mpr
    refine ⟨fun hnil => ?_, (hdrawn.separate hconns hfit').consecutive hplaced hshipped hdrawn hquiet hproduce⟩
    obtain ⟨op, hop⟩ := List.exists_mem_of_ne_nil _ hne
    obtain ⟨K, hK⟩ := List.exists_mem_of_ne_nil _ (recordKeys_ne_nil cfg.batchSize op.key)
    obtain ⟨e, he, -⟩ := hshipped.exists_stored hplaced hquiet hop
      (mem_keysOf.mpr ⟨role_of_listed hdrawn hproduce hop, hK⟩)
    rw [List.map_eq_nil_iff.mp hnil] at he
    cases he

end Batch

/-- One connection producing batches of two on the only key. -/
def batchProducer : Setup := { oneKeySetup ["produce_batch", "wb"] 0 1 with batchSize := 2 }

/-- Nothing drawn, nothing to drain: the verdict on the empty run is unknown. -/
theorem empty_run_unknown :
    new (oneKey ["produce_batch", "wb"]) 0 0 1 = .ok batchProducer.f ∧
    Reachable (step batchProducer) (init pcgRand batchProducer) (init pcgRand batchProducer) ∧
    (init pcgRand batchProducer).Quiet batchProducer ∧ (init pcgRand batchProducer).log = [] ∧
    drainTopic [] [] = ([], none) ∧ (analyzeLog (IterOrder.stored Int) []).verdict = .unknown :=
  ⟨rfl, ⟨[], rfl⟩, by decide +kernel, rfl, rfl, rfl⟩

/-- Two batches of two records, fetched in one poll. -/
theorem batched_produce_clean_on_two_batches :
    ∃ s : State pcgRand, Reachable (step batchProducer) (init pcgRand batchProducer) s ∧ s.log.length = 4 ∧
      ∃ recs, drainTopic [] ([s.log.map Stored.fetched].map .records) = (recs, none) ∧
        (analyzeLog (IterOrder.stored Int) recs).verdict = .pass := by
  obtain ⟨s, hreach, hquiet, hlog, hemitted, hfetched⟩ : ∃ s : State pcgRand,
      Reachable (step batchProducer) (init pcgRand batchProducer) s ∧ s.Quiet batchProducer ∧ s.log.length = 4 ∧
      (s.emitted 0).length = 2 ∧ s.log.map Stored.fetched ≠ [] :=
    exists_reachable [.call 0, .store 0 0, .store 0 0, .ack 0, .call 0, .store 0 0, .store 0 0, .ack 0]
      (by decide +kernel)
  have hnew : new (oneKey ["produce_batch", "wb"]) 0 0 1 = .ok batchProducer.f := rfl
  have hdraws : ∀ k, ((s.emitted 0).countP fun op => op.key = k) < 2 ^ 63 := by
    intro k
    have := List.countP_le_length (p := fun op : Operation => decide (op.key = k)) (l := s.emitted 0)
    omega
  obtain ⟨-, recs, hrecs, -, -, hpass⟩ := batched_produce_clean hnew (by decide) rfl (by decide) (by decide) hreach
    hquiet (fun h => by rw [h] at hemitted; cases hemitted) hdraws
    (show ∀ recs ∈ [s.log.map Stored.fetched], recs ≠ [] from fun _ h => by rwa [List.mem_singleton.mp h])
    (by rw [List.flatten_singleton]) (IterOrder.stored Int)
  exact ⟨s, hreach, hlog, recs, hrecs, hpass⟩

end Proofload.Kafka
