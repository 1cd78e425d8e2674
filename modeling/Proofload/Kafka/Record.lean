import Proofload.Workload.Generator

/-!
# Records of a produce call (`targets/kafka/kafkadriver/record.go`, `conn.go`)

The records that one `Execute` hands to the client, and the keys they carry. A key travels as its
decimal form and a sequence number as an eight byte header; both stand here as the numbers they
encode (`Proofload.Kafka.Drain` has the bytes).

* `execute_map_key`, `execute_seq` : the keys of the produced records are `recordKeys`, and all
  of them carry the operation's sequence number;
* `recordKeys_nodup` : the keys of one batch are distinct, wraparound included;
* `recordKeys_disjoint` : below the 64-bit range distinct operation keys have disjoint batches.
-/

namespace Proofload.Kafka
open Lib

set_option autoImplicit false

/-- The fields of a `kgo.Record` that the driver fills in. -/
structure Record where
  topic : String
  key : Int
  value : Bytes
  seq : Int
deriving DecidableEq

/-- The record of a single produce. -/
def recordFrom (topic : String) (op : Operation) : Record := ⟨topic, op.key, op.value, op.seq⟩

/-- The `i`-th record of a batch: `key := op.Key*int64(batch) + int64(i)` in 64-bit arithmetic. -/
def batchRecordAt (topic : String) (op : Operation) (i batch : Int) : Record :=
  ⟨topic, wrap64 (op.key * batch + i), op.value, op.seq⟩

def isProduce (t : OpType) : Bool := t == "produce" || t == "w"

def isConsume (t : OpType) : Bool := t == "consume" || t == "r"

def isProduceBatch (t : OpType) : Bool := t == "produce_batch" || t == "wb"

/-- The three branches of `kafkaConn.Execute`. -/
inductive Role where
  | produce
  | consume
  | unsupported
deriving DecidableEq

def role (t : OpType) : Role :=
  if isProduce t || isProduceBatch t then .produce
  else if isConsume t then .consume
  else .unsupported

/-- The number of records of a produce call: a batch size below one counts as one. -/
def batchCount (batchSize : I64) : Int := if batchSize.val < 1 then 1 else batchSize.val

/-- The records `kafkaConn.produce` builds. -/
def produceRecords (topic : String) (batchSize : I64) (op : Operation) : List Record :=
  let n := batchCount batchSize
  if n = 1 then [recordFrom topic op]
  else (List.range n.toNat).map fun i : Nat => batchRecordAt topic op i n

/-- The records `kafkaConn.Execute` sends for an operation: a consume polls and an unsupported label
errors, neither writes. -/
def execute (topic : String) (batchSize : I64) (op : Operation) : List Record :=
  match role op.type with
  | .produce => produceRecords topic batchSize op
  | .consume | .unsupported => []

/-- The keys of the records of a produce on key `k`. -/
def recordKeys (batchSize : I64) (k : Int) : List Int :=
  let n := batchCount batchSize
  if n = 1 then [k] else (List.range n.toNat).map fun i : Nat => wrap64 (k * n + i)

theorem batchCount_range (b : I64) : 1 ≤ batchCount b ∧ batchCount b < 2 ^ 63 := by
  have := b.lt
  unfold batchCount
  split <;> constructor <;> omega

theorem execute_map_key {topic : String} {b : I64} {op : Operation} (h : role op.type = .produce) :
    (execute topic b op).map (·.key) = recordKeys b op.key := by
  unfold execute recordKeys
  rw [h]
  dsimp only [produceRecords]
  split
  · rfl
  · rw [List.map_map]
    rfl

theorem execute_of_not_produce {topic : String} {b : I64} {op : Operation} (h : role op.type ≠ .produce) :
    execute topic b op = [] := by
  unfold execute
  cases hr : role op.type with
  | produce => exact absurd hr h
  | consume => rfl
  | unsupported => rfl

theorem execute_seq {topic : String} {b : I64} {op : Operation} {r : Record} (h : r ∈ execute topic b op) :
    r.seq = op.seq := by
  unfold execute at h
  cases hr : role op.type with
  | produce =>
      rw [hr] at h
      dsimp only [produceRecords] at h
      split at h
      · rw [List.mem_singleton.mp h]
        rfl
      · obtain ⟨i, -, rfl⟩ := List.mem_map.mp h
        rfl
  | consume => rw [hr] at h; cases h
  | unsupported => rw [hr] at h; cases h

theorem recordKeys_ne_nil (b : I64) (k : Int) : recordKeys b k ≠ [] := by
  have := batchCount_range b
  unfold recordKeys
  dsimp only
  split
  · exact List.cons_ne_nil _ _
  · intro h
    rw [List.map_eq_nil_iff, List.range_eq_nil] at h
    omega

/-- The keys of one batch are distinct: they are consecutive integers, fewer than a full turn of the
64-bit range. -/
theorem recordKeys_nodup (b : I64) (k : Int) : (recordKeys b k).Nodup := by
  have hrange := batchCount_range b
  unfold recordKeys
  dsimp only
  split
  · exact List.nodup_singleton k
  · refine List.Nodup.map_on (fun i hi j hj h => ?_) List.nodup_range
    rw [List.mem_range] at hi hj
    have := wrap64_inj h (by omega) (by omega)
    omega

/-- The key of a record determines the operation key, as long as no record key leaves the 64-bit
range. -/
theorem recordKeys_disjoint {b : I64} {keySpace k k' K : Int} (hfit : keySpace * batchCount b ≤ 2 ^ 63)
    (hk : 0 ≤ k ∧ k < keySpace) (hk' : 0 ≤ k' ∧ k' < keySpace)
    (hK : K ∈ recordKeys b k) (hK' : K ∈ recordKeys b k') : k = k' := by
  have hrange := batchCount_range b
  unfold recordKeys at hK hK'
  generalize batchCount b = n at *
  dsimp only at hK hK'
  split at hK
  · rw [if_pos (by assumption)] at hK'
    rw [← List.mem_singleton.mp hK, ← List.mem_singleton.mp hK']
  · rw [if_neg (by assumption)] at hK'
    have hflat : ∀ x, 0 ≤ x ∧ x < keySpace → K ∈ ((List.range n.toNat).map fun i : Nat => wrap64 (x * n + i)) →
        K / n = x := by
      intro x hx hmem
      obtain ⟨i, hi, rfl⟩ := List.mem_map.mp hmem
      rw [List.mem_range] at hi
      have hlow : 0 ≤ x * n := Int.mul_nonneg hx.1 (by omega)
      have hhigh : (x + 1) * n ≤ keySpace * n := Int.mul_le_mul_of_nonneg_right hx.2 (by omega)
      rw [Int.add_mul, Int.one_mul] at hhigh
      rw [wrap64_eq_self (by omega) (by omega), Int.add_comm,
        Int.add_mul_ediv_right _ _ (by omega), Int.ediv_eq_zero_of_lt (by omega) (by omega), Int.zero_add]
    rw [← hflat k hk hK, ← hflat k' hk' hK']

end Proofload.Kafka
