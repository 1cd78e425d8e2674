import Proofload.Workload.Value
import Proofload.Lib.Stream
import Mathlib.Tactic.Linarith

/-!
# The workload generator (`core/workload/generator.go`, `keydist.go`)

`RandV2` is `math/rand/v2` as the generators use it: a seeded source, `IntN`/`Int64N` and Zipf draws,
with the documented ranges as fields. `new` is `New`, `Factory.generator` seeds one generator per
shard, `Gen.next` is `generator.Next`.

* `new_accepted` : the partition of a factory that `new` accepts lies inside the key space;
* `next_type_mem`, `next_key_range` : the label is a listed one, the key lies in the key space;
* `emits_spec` : the label and the payload of every operation of a run;
* `Counted.next` : along a run the sequence numbers of every key are `1, 2, 3, ...`;
* `emits64_eq` : the `int64` counters of the code give the same operations until `2^63 - 1` are drawn;
* `seeds_distinct` : the generators of one seed are seeded with different words.
-/

namespace Proofload.WorkloadGen
open Lib

/-- `math/rand/v2`: a source seeded by two words, bounded draws and Zipf draws up to `imax`. -/
structure RandV2 where
  Source : Type
  newPCG : UInt64 → UInt64 → Source
  int64N : Int → Source → Int × Source
  zipf : Rat → Int → Source → Int × Source
  int64N_range : ∀ n s, 0 < n → 0 ≤ (int64N n s).1 ∧ (int64N n s).1 < n
  zipf_range : ∀ q imax s, 0 ≤ imax → 0 ≤ (zipf q imax s).1 ∧ (zipf q imax s).1 ≤ imax

/-- `uint64n` for a bound that is no power of two: the high word of the product, redrawn while the low
word falls below the threshold, at most `retries` times. -/
def PCG.uint64n (n : Nat) : Nat → PCG → Nat × PCG
  | 0, src => (src.uint64.1.toNat * n / 2 ^ 64, src.uint64.2)
  | retries + 1, src =>
      if src.uint64.1.toNat * n % 2 ^ 64 < (2 ^ 64 - n) % n then PCG.uint64n n retries src.uint64.2
      else (src.uint64.1.toNat * n / 2 ^ 64, src.uint64.2)

theorem PCG.uint64n_lt {n : Nat} (hn : 0 < n) (retries : Nat) (src : PCG) : (PCG.uint64n n retries src).1 < n := by
  have hword : ∀ src : PCG, src.uint64.1.toNat * n / 2 ^ 64 < n := fun src =>
    Nat.div_lt_of_lt_mul (Nat.mul_lt_mul_of_pos_right src.uint64.1.toNat_lt hn)
  induction retries generalizing src with
  | zero => exact hword src
  | succ retries ih =>
      unfold PCG.uint64n
      split
      · exact ih _
      · exact hword src

/-- The package itself over `PCG`: a power of two masks the word, other bounds go through `uint64n`.
The Zipf draws are pinned to their mode. -/
def pcgRand : RandV2 where
  Source := PCG
  newPCG := PCG.mk
  int64N n src :=
    if n.toNat &&& (n.toNat - 1) = 0 then ((src.uint64.1.toNat &&& (n.toNat - 1) : Nat), src.uint64.2)
    else ((PCG.uint64n n.toNat 64 src).1, (PCG.uint64n n.toNat 64 src).2)
  zipf _ _ src := (0, src)
  int64N_range n src hn := by
    split
    · have := Nat.and_le_right (n := src.uint64.1.toNat) (m := n.toNat - 1)
      dsimp only
      omega
    · have := PCG.uint64n_lt (n := n.toNat) (by omega) 64 src
      dsimp only
      omega
  zipf_range _ _ _ h := ⟨le_refl 0, h⟩

/-! ## Key distributions -/

/-- `keyGen`: the state of one key distribution over the local space `[0, span)`. The position `cur` of a
sequential scan and the counters of `Gen` are unbounded here; `Gen.next64` has them at their width. -/
inductive KeyGen where
  | constKeys
  | uniformKeys (span : Int)
  | sequentialKeys (span cur : Int)
  | zipfKeys (zipfS : Rat) (imax : Int)
  | latestKeys (zipfS : Rat) (imax span head : Int)

def newKeyGen (dist : KeyDistribution) (span : Int) (zipfS : Rat) : KeyGen :=
  if span ≤ 1 then .constKeys
  else match dist with
    | .zipfian => .zipfKeys zipfS (span - 1)
    | .latest => .latestKeys zipfS (span - 1) span 1
    | .sequential => .sequentialKeys span 0
    | .uniform | .other _ => .uniformKeys span

/-- The next local index, the advanced state and the advanced source. -/
def KeyGen.next (R : RandV2) : KeyGen → R.Source → Int × KeyGen × R.Source
  | .constKeys, r => (0, .constKeys, r)
  | .uniformKeys span, r => ((R.int64N span r).1, .uniformKeys span, (R.int64N span r).2)
  | .sequentialKeys span cur, r => (cur.tmod span, .sequentialKeys span (cur + 1), r)
  | .zipfKeys q imax, r => ((R.zipf q imax r).1, .zipfKeys q imax, (R.zipf q imax r).2)
  | .latestKeys q imax span head, r =>
      let head := if head < span then head + 1 else head
      let off := (R.zipf q imax r).1
      let off := if off ≥ head then head - 1 else off
      (head - 1 - off, .latestKeys q imax span head, (R.zipf q imax r).2)

/-! ## The factory -/

structure Factory where
  w : Workload
  seed : Int
  workerID : Int
  strideN : Int
  base : Int
  localSpace : Int
  zipfS : Rat
  cum : List Int
  total : Int

def paramBool (p : Map String Param) (key : String) : Bool :=
  match p.lookup key with
  | some (.bool b) => b
  | _ => false

def defaultZipfS : Rat := 11 / 10

def zipfExponent (p : Map String Param) : Rat :=
  match p.lookup "zipf_s" with
  | some (.float q) => if q > 1 then q else defaultZipfS
  | _ => defaultZipfS

/-- The stride, base offset and local key count of a worker. -/
def partition (w : Workload) (workerID workerCount : Int) : Int × Int × Int :=
  if paramBool w.params "shared_keys" then (1, 0, w.keySpace.val)
  else if workerID ≥ w.keySpace.val then (workerCount, workerID, 0)
  else (workerCount, workerID, (wrap64 (w.keySpace.val - workerID + workerCount - 1)).tdiv workerCount)

/-- The running weight sums; the first non-positive weight stops the loop. -/
def cumulate (name : String) : Int → List OpSpec → Except String (List Int)
  | _, [] => .ok []
  | total, op :: ops =>
      if op.weight.val ≤ 0 then
        .error
          s!"workload {String.quote name}: operation {String.quote op.type} has non-positive weight {op.weight.val}"
      else do
        let rest ← cumulate name (wrap64 (total + op.weight.val)) ops
        return wrap64 (total + op.weight.val) :: rest

/-- `New`: validates the workload and computes this worker's key partition. -/
def new (w : Workload) (seed workerID workerCount : I64) : Except String Factory :=
  if w.operations = [] then .error s!"workload {String.quote w.name}: no operations"
  else if workerCount.val < 1 then .error s!"workerCount must be >= 1, got {workerCount.val}"
  else if workerID.val < 0 ∨ workerID.val ≥ workerCount.val then
    .error s!"workerID {workerID.val} out of range [0,{workerCount.val})"
  else if w.keySpace.val < 1 then
    .error s!"workload {String.quote w.name}: key space must be >= 1, got {w.keySpace.val}"
  else do
    let cum ← cumulate w.name 0 w.operations
    let (strideN, base, localSpace) := partition w workerID.val workerCount.val
    if localSpace < 1 then
      .error
        s!"workload {String.quote w.name}: worker {workerID.val}/{workerCount.val} owns no keys of {w.keySpace.val}"
    else
      return { w, seed := seed.val, workerID := workerID.val, strideN, base, localSpace,
               zipfS := zipfExponent w.params, cum, total := cum.getLastD 0 }

/-! ## The generator -/

/-- One goroutine's operation source: the random source, the key state and the per-key counters. -/
structure Gen (R : RandV2) where
  r : R.Source
  keys : KeyGen
  seqOf : Int → Int

/-- The two PCG words of `Factory.Generator`, in wrapping 64-bit arithmetic. -/
def Factory.seeds (f : Factory) (shard : Int) : UInt64 × UInt64 :=
  (UInt64.ofInt (f.seed + f.workerID + shard) * 0x9E3779B97F4A7C15,
    UInt64.ofInt f.seed ^^^ (UInt64.ofInt f.workerID <<< 32) ^^^ (UInt64.ofInt shard * 0xD1B54A32D192ED03))

/-- `Factory.Generator`: the generator of goroutine `shard`. -/
def Factory.generator (R : RandV2) (f : Factory) (shard : Int) : Gen R :=
  { r := R.newPCG (f.seeds shard).1 (f.seeds shard).2
    keys := newKeyGen f.w.keyDist f.localSpace f.zipfS
    seqOf := fun _ => 0 }

/-- The labels treated as reads. -/
def readOps : List (List Char) := ["read", "get", "scan", "count", "query"].map String.toList

/-- Lower-casing a label. Only ASCII letters map onto the letters of the labels it is compared with. -/
def toLower (t : OpType) : List Char := t.toList.map Char.toLower

def isWrite (t : OpType) : Bool := !readOps.contains (toLower t)

/-- The selection loop of `pickOp` for the draw `x`: the first operation whose running sum exceeds
`x`, else the last one. -/
def selectOp (x : Int) : List Int → List OpSpec → OpType
  | c :: cum, op :: ops => if x < c then op.type else if cum = [] then op.type else selectOp x cum ops
  | _, _ => ""

/-- `pickOp`: a label drawn with the listed weights. -/
def Gen.pickOp {R : RandV2} (f : Factory) (g : Gen R) : OpType × R.Source :=
  (selectOp (R.int64N f.total g.r).1 f.cum f.w.operations, (R.int64N f.total g.r).2)

/-- `generator.Next`. -/
def Gen.next {R : RandV2} (f : Factory) (g : Gen R) : Operation × Gen R :=
  let (op, r) := g.pickOp f
  let (i, keys, r) := g.keys.next R r
  let key := i * f.strideN + f.base
  let seq := g.seqOf key + 1
  let val := if isWrite op then value key f.w.valueSize.val else []
  ({ type := op, key, value := val, seq }, { r, keys, seqOf := Function.update g.seqOf key seq })

/-- The operation of the `n`-th `Next` call of the generator of `shard`. -/
def Factory.emits (R : RandV2) (f : Factory) (shard : Int) (n : Nat) : Operation :=
  (((fun g : Gen R => (g.next f).2)^[n] (f.generator R shard)).next f).1

/-! ## The factory -/

/-- What `new` establishes: a weight sum for every listed operation and a partition whose last key
is inside the key space. -/
structure Factory.Accepted (f : Factory) : Prop where
  operations : f.w.operations ≠ []
  cum_length : f.cum.length = f.w.operations.length
  strideN_pos : 1 ≤ f.strideN
  base_nonneg : 0 ≤ f.base
  local_pos : 1 ≤ f.localSpace
  last_key : (f.localSpace - 1) * f.strideN + f.base < f.w.keySpace.val

theorem cumulate_length {name : String} : ∀ {ops : List OpSpec} {total : Int} {cum : List Int},
    cumulate name total ops = .ok cum → cum.length = ops.length
  | [], total, cum, h => by
      cases h
      rfl
  | op :: ops, total, cum, h => by
      unfold cumulate at h
      split at h
      · cases h
      · cases hrest : cumulate name (wrap64 (total + op.weight.val)) ops with
        | error e => rw [hrest] at h; cases h
        | ok rest =>
            rw [hrest] at h
            cases h
            simp [cumulate_length hrest]

/-- A worker's partition ends below the key space, unless the local count wrapped to no key at all. -/
theorem partition_last_key {w : Workload} {id n : I64} (hid : 0 ≤ id.val) (hn : id.val < n.val)
    (hkeys : 1 ≤ w.keySpace.val) (hlocal : 1 ≤ (partition w id.val n.val).2.2) :
    1 ≤ (partition w id.val n.val).1 ∧ 0 ≤ (partition w id.val n.val).2.1 ∧
      ((partition w id.val n.val).2.2 - 1) * (partition w id.val n.val).1 + (partition w id.val n.val).2.1
        < w.keySpace.val := by
  unfold partition at hlocal ⊢
  split_ifs at hlocal ⊢ with hshared hnone
  · simp
  · simp at hlocal
  · have hks := w.keySpace.lt
    have hnlt := n.lt
    dsimp only at hlocal ⊢
    refine ⟨by omega, hid, ?_⟩
    generalize hx : w.keySpace.val - id.val + n.val - 1 = x at hlocal ⊢
    by_cases hwrap : x < 2 ^ 63
    · rw [wrap64_eq_self (by omega) hwrap, Int.tdiv_eq_ediv_of_nonneg (by omega)] at hlocal ⊢
      have := Int.ediv_mul_le x (show n.val ≠ 0 by omega)
      linarith [Int.sub_mul (x / n.val) 1 n.val]
    · -- past the range the count is negative, and `New` rejects a worker without keys
      exfalso
      rw [← wrap64_sub_turn, wrap64_eq_self (by omega) (by omega)] at hlocal
      have := Int.tdiv_le_tdiv (a := x - 2 ^ 64) (b := 0) (c := n.val) (by omega) (by omega)
      rw [Int.zero_tdiv] at this
      omega

/-- The workload of an accepted factory is the given one, and its partition is well formed. -/
theorem new_accepted {w : Workload} {seed id n : I64} {f : Factory} (h : new w seed id n = .ok f) :
    f.w = w ∧ f.Accepted := by
  unfold new at h
  split_ifs at h with hops hn hid hkeys
  cases hcum : cumulate w.name 0 w.operations with
  | error e => rw [hcum] at h; cases h
  | ok cum =>
      rw [hcum] at h
      simp only [bind, Except.bind] at h
      split_ifs at h with hlocal
      cases h
      obtain ⟨h₁, h₂, h₃⟩ := partition_last_key (w := w) (n := n) (by omega) (by omega) (by omega)
        (Int.not_lt.mp hlocal)
      exact ⟨rfl, hops, cumulate_length hcum, h₁, h₂, Int.not_lt.mp hlocal, h₃⟩

/-! ## One `Next` -/

theorem selectOp_mem (x : Int) {cum : List Int} {ops : List OpSpec} (hlen : cum.length = ops.length)
    (hne : ops ≠ []) : selectOp x cum ops ∈ ops.map (·.type) := by
  induction cum generalizing ops with
  | nil => exact absurd (List.length_eq_zero_iff.mp hlen.symm) hne
  | cons c cum ih =>
      cases ops with
      | nil => exact absurd rfl hne
      | cons op ops =>
          unfold selectOp
          split_ifs with hlt hlast
          · exact List.mem_cons_self
          · exact List.mem_cons_self
          · have hlen : cum.length = ops.length := Nat.succ.inj hlen
            have hops : ops ≠ [] := fun hops => hlast (List.length_eq_zero_iff.mp (by rw [hlen, hops]; rfl))
            exact List.mem_cons_of_mem _ (ih hlen hops)

/-- The states of a key distribution over `[0, span)`. -/
def KeyGen.Ok (span : Int) : KeyGen → Prop
  | .constKeys => 1 ≤ span
  | .uniformKeys s => s = span ∧ 1 ≤ span
  | .sequentialKeys s cur => s = span ∧ 1 ≤ span ∧ 0 ≤ cur
  | .zipfKeys _ imax => imax = span - 1 ∧ 1 ≤ span
  | .latestKeys _ imax s head => imax = span - 1 ∧ s = span ∧ 1 ≤ head ∧ head ≤ span

theorem newKeyGen_ok (dist : KeyDistribution) {span : Int} (zipfS : Rat) (h : 1 ≤ span) :
    (newKeyGen dist span zipfS).Ok span := by
  unfold newKeyGen
  split
  · exact h
  · next hspan =>
    cases dist with
    | uniform => exact ⟨rfl, h⟩
    | zipfian => exact ⟨rfl, h⟩
    | latest => exact ⟨rfl, rfl, le_refl 1, h⟩
    | sequential => exact ⟨rfl, h, le_refl 0⟩
    | other => exact ⟨rfl, h⟩

theorem KeyGen.next_range (R : RandV2) {span : Int} {k : KeyGen} (h : k.Ok span) (r : R.Source) :
    (0 ≤ (k.next R r).1 ∧ (k.next R r).1 < span) ∧ (k.next R r).2.1.Ok span := by
  cases k with
  | constKeys =>
      simp only [KeyGen.Ok, KeyGen.next] at h ⊢
      omega
  | uniformKeys s =>
      obtain ⟨rfl, hspan⟩ := h
      exact ⟨R.int64N_range s r (by omega), rfl, hspan⟩
  | sequentialKeys s cur =>
      obtain ⟨rfl, hspan, hcur⟩ := h
      refine ⟨⟨Int.tmod_nonneg s hcur, Int.tmod_lt_of_pos cur (by omega)⟩, rfl, hspan, by omega⟩
  | zipfKeys q imax =>
      obtain ⟨rfl, hspan⟩ := h
      have := R.zipf_range q (span - 1) r (by omega)
      exact ⟨⟨this.1, by simp only [KeyGen.next]; omega⟩, rfl, hspan⟩
  | latestKeys q imax s head =>
      obtain ⟨rfl, rfl, hlow, hhigh⟩ := h
      have := R.zipf_range q (s - 1) r (by omega)
      dsimp only [KeyGen.next, KeyGen.Ok]
      refine ⟨?_, rfl, rfl, ?_⟩ <;> split_ifs <;> omega

section Next
variable {R : RandV2} {f : Factory}

theorem next_seq (g : Gen R) : (g.next f).1.seq = g.seqOf (g.next f).1.key + 1 := rfl

theorem next_seqOf (g : Gen R) :
    (g.next f).2.seqOf = Function.update g.seqOf (g.next f).1.key ((g.next f).1.seq) := rfl

theorem next_value (g : Gen R) : (g.next f).1.value =
    if isWrite (g.next f).1.type then value (g.next f).1.key f.w.valueSize.val else [] := rfl

theorem next_type_mem (hf : f.Accepted) (g : Gen R) : (g.next f).1.type ∈ f.w.operations.map (·.type) :=
  selectOp_mem _ hf.cum_length hf.operations

theorem next_key_range (hf : f.Accepted) {g : Gen R} (hg : g.keys.Ok f.localSpace) :
    (0 ≤ (g.next f).1.key ∧ (g.next f).1.key < f.w.keySpace.val) ∧ (g.next f).2.keys.Ok f.localSpace := by
  obtain ⟨⟨hge, hlt⟩, hok⟩ := KeyGen.next_range R hg (g.pickOp f).2
  refine ⟨?_, hok⟩
  change 0 ≤ (g.keys.next R (g.pickOp f).2).1 * f.strideN + f.base ∧
    (g.keys.next R (g.pickOp f).2).1 * f.strideN + f.base < f.w.keySpace.val
  generalize (g.keys.next R (g.pickOp f).2).1 = i at hge hlt
  have hstride := hf.strideN_pos
  have hbase := hf.base_nonneg
  have hlast := hf.last_key
  constructor
  · nlinarith
  · nlinarith

theorem emits_spec (R : RandV2) {w : Workload} {seed id n : I64} (hnew : new w seed id n = .ok f) (shard : Int)
    (i : Nat) :
    (f.emits R shard i).type ∈ w.operations.map (·.type) ∧
      (f.emits R shard i).value =
        if isWrite (f.emits R shard i).type then value (f.emits R shard i).key w.valueSize.val else [] := by
  obtain ⟨rfl, hf⟩ := new_accepted hnew
  exact ⟨next_type_mem hf _, next_value _⟩

theorem emits_label (R : RandV2) {w : Workload} {seed id n : I64} (hnew : new w seed id n = .ok f)
    {labels : List OpType} (hlabels : ∀ op ∈ w.operations, op.type ∈ labels) (shard : Int) (i : Nat) :
    (f.emits R shard i).type ∈ labels := by
  obtain ⟨spec, hspec, heq⟩ := List.mem_map.mp (emits_spec R hnew shard i).1
  rw [← heq]
  exact hlabels spec hspec

end Next

/-! ## Sequence numbers along a run -/

/-- `ops` are the operations drawn so far: per key they are numbered `1, 2, ..., seqOf key`. -/
def Counted {R : RandV2} (g : Gen R) (ops : List Operation) : Prop :=
  ∀ k, 0 ≤ g.seqOf k ∧ (ops.filter fun o => o.key = k).map (·.seq) = upTo (g.seqOf k).toNat

theorem counted_generator (R : RandV2) (f : Factory) (shard : Int) : Counted (f.generator R shard) [] :=
  fun _ => ⟨le_refl 0, rfl⟩

theorem Counted.next {R : RandV2} {g : Gen R} {ops : List Operation} (h : Counted g ops) (f : Factory) :
    Counted (g.next f).2 (ops ++ [(g.next f).1]) := by
  intro k
  obtain ⟨hnonneg, hseqs⟩ := h k
  rw [next_seqOf, List.filter_append, List.map_append, hseqs]
  by_cases hk : (g.next f).1.key = k
  · have hseq := next_seq (f := f) g
    rw [hk] at hseq
    subst hk
    simp only [Function.update_self, List.filter_cons, List.filter_nil, decide_true, if_true, List.map_cons,
      List.map_nil, hseq]
    refine ⟨by omega, ?_⟩
    rw [show (g.seqOf (g.next f).1.key + 1).toNat = (g.seqOf (g.next f).1.key).toNat + 1 by omega, upTo_succ]
    congr 2
    omega
  · rw [Function.update_of_ne (Ne.symm hk)]
    simp [hk, hnonneg]

/-! ## At the width of the code -/

/-- `KeyGen.next` with the position of a sequential scan in an `int64`. -/
def KeyGen.next64 (R : RandV2) : KeyGen → R.Source → Int × KeyGen × R.Source
  | .sequentialKeys span cur, r => (cur.tmod span, .sequentialKeys span (wrap64 (cur + 1)), r)
  | k, r => k.next R r

/-- `Gen.next` with the key and the per-key counters in an `int64`. -/
def Gen.next64 {R : RandV2} (f : Factory) (g : Gen R) : Operation × Gen R :=
  let (op, r) := g.pickOp f
  let (i, keys, r) := g.keys.next64 R r
  let key := wrap64 (wrap64 (i * f.strideN) + f.base)
  let seq := wrap64 (g.seqOf key + 1)
  let val := if isWrite op then value key f.w.valueSize.val else []
  ({ type := op, key, value := val, seq }, { r, keys, seqOf := Function.update g.seqOf key seq })

def Factory.emits64 (R : RandV2) (f : Factory) (shard : Int) (n : Nat) : Operation :=
  (((fun g : Gen R => (g.next64 f).2)^[n] (f.generator R shard)).next64 f).1

/-- The position of a sequential scan. -/
def KeyGen.position : KeyGen → Int
  | .sequentialKeys _ cur => cur
  | _ => 0

/-- After `n` draws no counter of a generator exceeds `n`. -/
structure Gen.Bounded {R : RandV2} (f : Factory) (n : Nat) (g : Gen R) : Prop where
  ok : g.keys.Ok f.localSpace
  position : g.keys.position ≤ n
  seqOf : ∀ k, 0 ≤ g.seqOf k ∧ g.seqOf k ≤ n

section Width
variable {R : RandV2} {f : Factory}

theorem bounded_generator (hf : f.Accepted) (shard : Int) : (f.generator R shard).Bounded f 0 where
  ok := newKeyGen_ok _ _ hf.local_pos
  position := by
    change (newKeyGen _ _ _).position ≤ 0
    unfold newKeyGen
    split
    · exact le_refl 0
    · cases f.w.keyDist <;> exact le_refl 0
  seqOf _ := ⟨le_refl 0, le_refl 0⟩

theorem KeyGen.next_position (k : KeyGen) (r : R.Source) : (k.next R r).2.1.position ≤ max 0 (k.position + 1) := by
  cases k with
  | sequentialKeys span cur => exact le_max_right _ _
  | _ => exact le_max_left _ _

theorem Gen.Bounded.next (hf : f.Accepted) {n : Nat} {g : Gen R} (h : g.Bounded f n) :
    (g.next f).2.Bounded f (n + 1) where
  ok := (next_key_range hf h.ok).2
  position := by
    have hnext := KeyGen.next_position g.keys (g.pickOp f).2
    have hposition := h.position
    change (g.keys.next R (g.pickOp f).2).2.1.position ≤ ((n + 1 : Nat) : Int)
    push_cast
    omega
  seqOf k := by
    rw [next_seqOf, next_seq]
    by_cases hk : k = (g.next f).1.key
    · subst hk
      have hseq := h.seqOf (g.next f).1.key
      rw [Function.update_self]
      push_cast
      omega
    · have hseq := h.seqOf k
      rw [Function.update_of_ne hk]
      push_cast
      omega

theorem KeyGen.next64_eq (k : KeyGen) (r : R.Source) (hlow : 0 ≤ k.position) (hfits : k.position + 1 < 2 ^ 63) :
    k.next64 R r = k.next R r := by
  cases k with
  | sequentialKeys span cur =>
      change 0 ≤ cur at hlow
      change cur + 1 < 2 ^ 63 at hfits
      unfold KeyGen.next64 KeyGen.next
      dsimp only
      rw [wrap64_eq_self (by omega) hfits]
  | _ => rfl

theorem KeyGen.Ok.position_nonneg {span : Int} {k : KeyGen} (h : k.Ok span) : 0 ≤ k.position := by
  cases k with
  | sequentialKeys s cur => exact h.2.2
  | _ => exact le_refl 0

theorem Gen.Bounded.next64_eq (hf : f.Accepted) {n : Nat} {g : Gen R} (h : g.Bounded f n) (hn : n + 1 < 2 ^ 63) :
    g.next64 f = g.next f := by
  have hkeys : g.keys.next64 R (g.pickOp f).2 = g.keys.next R (g.pickOp f).2 := by
    have hposition := h.position
    exact KeyGen.next64_eq _ _ h.ok.position_nonneg (by omega)
  have hkey : wrap64 (wrap64 ((g.keys.next R (g.pickOp f).2).1 * f.strideN) + f.base) = (g.next f).1.key := by
    obtain ⟨hlow, hhigh⟩ := (next_key_range hf h.ok).1
    have hspace := f.w.keySpace.lt
    rw [wrap64_add_left]
    exact wrap64_eq_self (show -2 ^ 63 ≤ (g.next f).1.key by omega) (show (g.next f).1.key < 2 ^ 63 by omega)
  have hseq : wrap64 (g.seqOf (g.next f).1.key + 1) = (g.next f).1.seq := by
    have hseq := h.seqOf (g.next f).1.key
    exact wrap64_eq_self (by omega) (by omega)
  unfold Gen.next64
  dsimp only
  rw [hkeys, hkey, hseq]
  rfl

/-- The first `2^63 - 1` operations of a generator are those of the unbounded counters. -/
theorem emits64_eq {w : Workload} {seed id n : I64} (hnew : new w seed id n = .ok f) (shard : Int) {i : Nat}
    (hi : i + 1 < 2 ^ 63) : f.emits64 R shard i = f.emits R shard i := by
  obtain ⟨rfl, hf⟩ := new_accepted hnew
  have hstates : ∀ j, j ≤ i →
      (fun g : Gen R => (g.next64 f).2)^[j] (f.generator R shard) =
        (fun g : Gen R => (g.next f).2)^[j] (f.generator R shard) ∧
      ((fun g : Gen R => (g.next f).2)^[j] (f.generator R shard)).Bounded f j := by
    intro j hj
    induction j with
    | zero => exact ⟨rfl, bounded_generator hf shard⟩
    | succ j ih =>
        obtain ⟨heq, hbounded⟩ := ih (by omega)
        rw [Function.iterate_succ_apply', Function.iterate_succ_apply', heq,
          hbounded.next64_eq hf (by omega)]
        exact ⟨rfl, hbounded.next hf⟩
  obtain ⟨heq, hbounded⟩ := hstates i (le_refl i)
  unfold Factory.emits64 Factory.emits
  rw [heq, hbounded.next64_eq hf hi]

end Width

/-! ## Random streams -/

theorem shard_of_seeds {f g : Factory} (hseed : f.seed = g.seed) {i j : Int} (hi : 0 ≤ i ∧ i < 2 ^ 32)
    (hj : 0 ≤ j ∧ j < 2 ^ 32) (h : (f.seeds i).2 = (g.seeds j).2) : i = j := by
  unfold Factory.seeds at h
  dsimp only at h
  rw [hseed, UInt64.xor_assoc, UInt64.xor_assoc, UInt64.xor_right_inj] at h
  have hlow := congrArg (fun x : UInt64 => x.toNat % 2 ^ 32) h
  rw [low_xor_shiftLeft, low_xor_shiftLeft] at hlow
  have hshard := low_of_mul_odd (by decide) hlow
  have hi' := toNat_ofInt i
  have hj' := toNat_ofInt j
  omega

/-- **No two generators share a random stream.** Factories of one seed seed their generators with different words,
unless worker and shard are the same. -/
theorem seeds_distinct {f g : Factory} (hseed : f.seed = g.seed) {i j : Int}
    (hf : 0 ≤ f.workerID ∧ f.workerID < 2 ^ 32) (hg : 0 ≤ g.workerID ∧ g.workerID < 2 ^ 32)
    (hi : 0 ≤ i ∧ i < 2 ^ 32) (hj : 0 ≤ j ∧ j < 2 ^ 32) (hne : (f.workerID, i) ≠ (g.workerID, j)) :
    f.seeds i ≠ g.seeds j := by
  intro h
  obtain rfl : i = j := shard_of_seeds hseed hi hj (congrArg Prod.snd h)
  have hfirst : UInt64.ofInt (f.seed + f.workerID + i) = UInt64.ofInt (g.seed + g.workerID + i) :=
    mul_odd_inj (by decide) (congrArg Prod.fst h)
  rw [hseed] at hfirst
  have hsum := ofInt_inj hfirst (by omega) (by omega)
  exact hne (Prod.ext (by omega) rfl)

/-- The factory of one of two workers. -/
def workerFactory (workerID : Int) : Factory :=
  { w := { name := "streams", mode := .performance, operations := [⟨"insert", 1⟩], keySpace := 2, keyDist := .uniform,
           valueSize := 8, verifyModel := .none, params := ∅ }
    seed := 1, workerID, strideN := 2, base := workerID, localSpace := 1, zipfS := defaultZipfS, cum := [1]
    total := 1 }

/-- Shard one of worker zero and shard zero of worker one, whose sums are the same. -/
theorem seeds_distinct_on_crossed_shards : (workerFactory 0).seeds 1 ≠ (workerFactory 1).seeds 0 :=
  seeds_distinct (f := workerFactory 0) (g := workerFactory 1) rfl (by decide) (by decide) (by decide) (by decide)
    (by decide)

end Proofload.WorkloadGen
