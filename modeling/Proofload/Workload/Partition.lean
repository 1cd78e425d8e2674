import Proofload.Workload.Generator

/-!
# The key partition of distributed workers (`core/workload/generator.go`, `keydist.go`)

Worker `id` of `n` draws local indices and maps index `i` to the key `i * n + id`. Without `shared_keys` this
cuts the key space into disjoint parts.

* `lt_localSpace_iff` : the local count is that of the indices whose key lies in the space;
* `new_error_iff` : for a valid operation list `New` rejects exactly the workers without a key;
* `emits_key` : every draw of every run is the key of an index below the local count;
* `key_partition` : the parts cover the space exactly once, and every emitted key is in its worker's part.
-/

namespace Proofload.WorkloadGen
open Lib

set_option autoImplicit false

/-- The number of keys of worker `id` among `n`. -/
def localSpace (w : Workload) (id n : Int) : Int := (partition w id n).2.2

section Arithmetic
variable {w : Workload} {id n : Int}

theorem partition_eq (hshared : paramBool w.params "shared_keys" = false) :
    (partition w id n).1 = n ∧ (partition w id n).2.1 = id := by
  unfold partition
  rw [hshared, if_neg Bool.false_ne_true]
  split_ifs
  · exact ⟨rfl, rfl⟩
  · exact ⟨rfl, rfl⟩

/-- The local count is the rounded up quotient: an index is below it exactly when its key is in the space. -/
theorem lt_localSpace_iff (hshared : paramBool w.params "shared_keys" = false) (hid : 0 ≤ id) (hlt : id < n)
    (hfit : w.keySpace.val + n < 2 ^ 63) {i : Int} (hi : 0 ≤ i) :
    i < localSpace w id n ↔ i * n + id < w.keySpace.val := by
  have hmul : 0 ≤ i * n := Int.mul_nonneg hi (by omega)
  unfold localSpace partition
  rw [hshared, if_neg Bool.false_ne_true]
  split_ifs with hnone
  · show i < 0 ↔ _
    omega
  · show i < (wrap64 (w.keySpace.val - id + n - 1)).tdiv n ↔ _
    rw [wrap64_eq_self (by omega) (by omega), Int.tdiv_eq_ediv_of_nonneg (by omega)]
    show i + 1 ≤ _ ↔ _
    rw [Int.le_ediv_iff_mul_le (by omega), Int.add_mul]
    omega

theorem exists_unique_owner (hshared : paramBool w.params "shared_keys" = false) (hn : 1 ≤ n)
    (hfit : w.keySpace.val + n < 2 ^ 63) {k : Int} (hk : 0 ≤ k) (hlt : k < w.keySpace.val) :
    ∃! p : Int × Int, (0 ≤ p.1 ∧ p.1 < n) ∧ (0 ≤ p.2 ∧ p.2 < localSpace w p.1 n) ∧ k = p.2 * n + p.1 := by
  have hmod := Int.emod_nonneg k (show n ≠ 0 by omega)
  have hmod' := Int.emod_lt_of_pos k (show 0 < n by omega)
  have hdiv : 0 ≤ k / n := Int.ediv_nonneg hk (by omega)
  have hsplit : k = k / n * n + k % n := by
    have := Int.mul_ediv_add_emod k n
    rw [Int.mul_comm] at this
    omega
  refine ⟨(k % n, k / n), ⟨⟨hmod, hmod'⟩, ⟨hdiv, ?_⟩, hsplit⟩, ?_⟩
  · apply (lt_localSpace_iff hshared hmod hmod' hfit hdiv).mpr
    omega
  · rintro ⟨id, i⟩ ⟨⟨hid, hidn⟩, -, heq⟩
    dsimp only at hid hidn heq
    have hid' : k % n = id := by
      rw [heq, Int.mul_comm, Int.mul_add_emod_self_left, Int.emod_eq_of_lt hid hidn]
    have hi' : k / n = i := by
      rw [heq, Int.add_comm, Int.add_mul_ediv_right _ _ (by omega), Int.ediv_eq_zero_of_lt hid hidn, Int.zero_add]
    rw [hid', hi']

end Arithmetic

/-! ## What `New` accepts -/

section New
variable {w : Workload} {seed id n : I64}

theorem cumulate_ok (name : String) {ops : List OpSpec} (h : ∀ op ∈ ops, 0 < op.weight.val) (total : Int) :
    ∃ cum, cumulate name total ops = .ok cum := by
  induction ops generalizing total with
  | nil => exact ⟨[], rfl⟩
  | cons op ops ih =>
      have hpos := h op List.mem_cons_self
      obtain ⟨rest, hrest⟩ := ih (fun o ho => h o (List.mem_cons_of_mem _ ho)) (wrap64 (total + op.weight.val))
      refine ⟨wrap64 (total + op.weight.val) :: rest, ?_⟩
      rw [cumulate, if_neg (by omega), hrest]
      rfl

theorem new_partition {f : Factory} (h : new w seed id n = .ok f) :
    (f.strideN, f.base, f.localSpace) = partition w id.val n.val := by
  unfold new at h
  split_ifs at h
  cases hcum : cumulate w.name 0 w.operations with
  | error e =>
      rw [hcum] at h
      cases h
  | ok cum =>
      rw [hcum] at h
      simp only [bind, Except.bind] at h
      split_ifs at h
      cases h
      rfl

/-- **A valid operation list is rejected exactly for a worker without keys.** -/
theorem new_error_iff (hops : w.operations ≠ []) (hweights : ∀ op ∈ w.operations, 0 < op.weight.val)
    (hkeys : 1 ≤ w.keySpace.val) (hid : 0 ≤ id.val) (hlt : id.val < n.val) :
    (∃ e, new w seed id n = .error e) ↔ localSpace w id.val n.val < 1 := by
  obtain ⟨cum, hcum⟩ := cumulate_ok w.name hweights 0
  unfold new localSpace
  rw [if_neg hops, if_neg (by omega), if_neg (by omega), if_neg (by omega), hcum]
  simp only [bind, Except.bind]
  split_ifs with hlocal
  · exact iff_of_true ⟨_, rfl⟩ hlocal
  · refine iff_of_false ?_ hlocal
    rintro ⟨e, he⟩
    cases he

end New

/-! ## Runs of a generator -/

section Emits
variable {f : Factory} (R : RandV2)

theorem iterate_next_ok (hlocal : 1 ≤ f.localSpace) (shard : Int) (m : Nat) :
    ((fun g : Gen R => (g.next f).2)^[m] (f.generator R shard)).keys.Ok f.localSpace := by
  induction m with
  | zero => exact newKeyGen_ok _ _ hlocal
  | succ m ih =>
      rw [Function.iterate_succ_apply']
      exact (KeyGen.next_range R ih _).2

theorem emits_key (hlocal : 1 ≤ f.localSpace) (shard : Int) (m : Nat) :
    ∃ i, (0 ≤ i ∧ i < f.localSpace) ∧ (f.emits R shard m).key = i * f.strideN + f.base :=
  ⟨_, (KeyGen.next_range R (iterate_next_ok R hlocal shard m) _).1, rfl⟩

/-- Without shared keys the emitted keys lie in the space, and in the part of their worker. -/
theorem emits_in_part {w : Workload} {seed id n : I64} (hfit : w.keySpace.val + n.val < 2 ^ 63)
    (hshared : paramBool w.params "shared_keys" = false) (hnew : new w seed id n = .ok f) (shard : Int) (m : Nat) :
    (0 ≤ (f.emits R shard m).key ∧ (f.emits R shard m).key < w.keySpace.val) ∧
      (f.emits R shard m).key % n.val = id.val := by
  obtain ⟨hid, hlt⟩ : 0 ≤ id.val ∧ id.val < n.val := by
    unfold new at hnew
    split_ifs at hnew
    omega
  obtain ⟨hstride, hbase⟩ := partition_eq (w := w) (n := n.val) hshared
  have hpart := new_partition hnew
  rw [Prod.ext_iff, Prod.ext_iff] at hpart
  obtain ⟨hs, hb, hl⟩ := hpart
  dsimp only at hs hb hl
  obtain ⟨i, ⟨hi, hilt⟩, hkey⟩ := emits_key R (new_accepted hnew).2.local_pos shard m
  rw [hs, hb, hstride, hbase] at hkey
  rw [hl] at hilt
  have hrange := (lt_localSpace_iff hshared hid hlt hfit hi).mp hilt
  have hmul : 0 ≤ i * n.val := Int.mul_nonneg hi (by omega)
  rw [hkey]
  refine ⟨⟨by omega, hrange⟩, ?_⟩
  rw [Int.mul_comm, Int.mul_add_emod_self_left, Int.emod_eq_of_lt hid hlt]

end Emits

/-- **The key partition.** For every key space and worker count whose sum fits into 64 bits, without shared keys:
every key belongs to one index of one worker; for a valid operation list the workers without a key, and only
they, are rejected; in runs of any length, of any shard and distribution, the emitted keys lie in the space and in
the part of their worker; so two workers never emit the same key. -/
theorem key_partition (R : RandV2) {w : Workload} {n : I64} (hkeys : 1 ≤ w.keySpace.val) (hn : 1 ≤ n.val)
    (hfit : w.keySpace.val + n.val < 2 ^ 63) (hshared : paramBool w.params "shared_keys" = false) :
    (∀ k, 0 ≤ k → k < w.keySpace.val →
      ∃! p : Int × Int, (0 ≤ p.1 ∧ p.1 < n.val) ∧ (0 ≤ p.2 ∧ p.2 < localSpace w p.1 n.val) ∧ k = p.2 * n.val + p.1) ∧
    (w.operations ≠ [] → (∀ op ∈ w.operations, 0 < op.weight.val) → ∀ seed id : I64, 0 ≤ id.val → id.val < n.val →
      ((∃ e, new w seed id n = .error e) ↔
        ¬∃ k i, (0 ≤ k ∧ k < w.keySpace.val) ∧ (0 ≤ i ∧ i < localSpace w id.val n.val) ∧ k = i * n.val + id.val)) ∧
    (∀ (seed id : I64) (f : Factory), new w seed id n = .ok f → ∀ (shard : Int) (m : Nat),
      (0 ≤ (f.emits R shard m).key ∧ (f.emits R shard m).key < w.keySpace.val) ∧
        (f.emits R shard m).key % n.val = id.val) ∧
    (∀ (seed seed' id id' : I64) (f f' : Factory), new w seed id n = .ok f → new w seed' id' n = .ok f' →
      id.val ≠ id'.val → ∀ (shard shard' : Int) (m m' : Nat),
        (f.emits R shard m).key ≠ (f'.emits R shard' m').key) := by
  refine ⟨fun k hk hlt => exists_unique_owner hshared hn hfit hk hlt, fun hops hweights seed id hid hlt => ?_,
    fun seed id f hnew shard m => emits_in_part R hfit hshared hnew shard m, ?_⟩
  · rw [new_error_iff hops hweights hkeys hid hlt]
    refine ⟨fun hnone => ?_, fun hnone => ?_⟩
    · rintro ⟨k, i, -, ⟨hi, hilt⟩, -⟩
      omega
    · by_contra hlocal
      have hfirst := (lt_localSpace_iff hshared hid hlt hfit (le_refl 0)).mp (by omega)
      exact hnone ⟨id.val, 0, by omega, by omega, by omega⟩
  · intro seed seed' id id' f f' hnew hnew' hne shard shard' m m' heq
    apply hne
    rw [← (emits_in_part R hfit hshared hnew shard m).2, ← (emits_in_part R hfit hshared hnew' shard' m').2, heq]

/-- Five sequential keys, of which the second of two workers owns two. -/
def fiveKeys : Workload :=
  { name := "five-keys", mode := .performance, operations := [⟨"insert", 1⟩], keySpace := 5, keyDist := .sequential,
    valueSize := 8, verifyModel := .none, params := ∅ }

def fiveKeysFactory : Factory :=
  { w := fiveKeys, seed := 0, workerID := 1, strideN := 2, base := 1, localSpace := 2, zipfS := defaultZipfS,
    cum := [1], total := 1 }

theorem key_partition_on_five_keys :
    (List.range 5).map (fun m => (fiveKeysFactory.emits pcgRand 0 m).key) = [1, 3, 1, 3, 1] ∧
    (∀ k, 0 ≤ k → k < 5 →
      ∃! p : Int × Int, (0 ≤ p.1 ∧ p.1 < 2) ∧ (0 ≤ p.2 ∧ p.2 < localSpace fiveKeys p.1 2) ∧ k = p.2 * 2 + p.1) ∧
    ∀ shard m, (fiveKeysFactory.emits pcgRand shard m).key % 2 = 1 := by
  have hnew : new fiveKeys 0 1 2 = .ok fiveKeysFactory := rfl
  obtain ⟨hcover, -, hdraw, -⟩ := key_partition pcgRand (w := fiveKeys) (n := 2) (by decide) (by decide) (by decide)
    (by decide)
  exact ⟨by decide +kernel, hcover, fun shard m => (hdraw 0 1 _ hnew shard m).2⟩

end Proofload.WorkloadGen
