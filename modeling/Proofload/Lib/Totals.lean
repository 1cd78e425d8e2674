import Proofload.Lib.Maps
import Mathlib.Algebra.BigOperators.Group.Finset.Basic
import Mathlib.Algebra.BigOperators.Group.Finset.Sigma
import Mathlib.Algebra.Ring.Int.Defs

/-!
# Sums over finite maps

The sum of a weight over the entries of a finite map depends on the lookups only, so it can be taken over any set that
has the keys.

* `total_eq_sum` : the sum over a set that has the keys;
* `total_sum` : sums of weights;
* `total_add` : if the weights of every key add up, the sums do;
* `total_insert` : what changing one entry does to the sum.
-/

namespace Lib.Map

set_option autoImplicit false

variable {κ ν ν₁ ν₂ : Type} [DecidableEq κ]

/-- The weight of a key: zero where the map has no entry. -/
def weightAt (m : Map κ ν) (w : ν → Int) (k : κ) : Int := ((m.lookup k).map w).getD 0

/-- The sum of the weights of all entries. -/
def total (m : Map κ ν) (w : ν → Int) : Int := (m.keys.map (weightAt m w)).sum

theorem weightAt_of_not_mem {m : Map κ ν} {k : κ} (hk : k ∉ m.keys) (w : ν → Int) : weightAt m w k = 0 := by
  rw [mem_keys_iff, Option.not_isSome_iff_eq_none] at hk
  rw [weightAt, hk]
  rfl

theorem total_eq_sum (m : Map κ ν) (w : ν → Int) {s : Finset κ} (hs : ∀ k ∈ m.keys, k ∈ s) :
    total m w = ∑ k ∈ s, weightAt m w k := by
  have hkeys : total m w = ∑ k ∈ m.keys.toFinset, weightAt m w k := (List.sum_toFinset _ m.nodupKeys).symm
  rw [hkeys]
  refine Finset.sum_subset (fun k hk => hs k (List.mem_toFinset.mp hk)) fun k _ hk => ?_
  exact weightAt_of_not_mem (fun h => hk (List.mem_toFinset.mpr h)) w

theorem total_zero (m : Map κ ν) : total m (fun _ => 0) = 0 := by
  refine List.sum_eq_zero fun x hx => ?_
  obtain ⟨k, -, rfl⟩ := List.mem_map.mp hx
  unfold weightAt
  cases m.lookup k <;> rfl

theorem total_congr {m : Map κ ν} {w w' : ν → Int} (h : ∀ k v, m.lookup k = some v → w v = w' v) :
    total m w = total m w' := by
  unfold total
  congr 1
  refine List.map_congr_left fun k _ => ?_
  unfold weightAt
  cases hk : m.lookup k with
  | none => rfl
  | some v => exact h k v hk

theorem total_sum {ι : Type} (m : Map κ ν) (s : Finset ι) (w : ι → ν → Int) :
    total m (fun v => ∑ i ∈ s, w i v) = ∑ i ∈ s, total m (w i) := by
  have hweight : ∀ k, weightAt m (fun v => ∑ i ∈ s, w i v) k = ∑ i ∈ s, weightAt m (w i) k := by
    intro k
    unfold weightAt
    cases m.lookup k with
    | none => exact Finset.sum_const_zero.symm
    | some v => rfl
  have hkeys : ∀ k ∈ m.keys, k ∈ m.keys.toFinset := fun k => List.mem_toFinset.mpr
  rw [total_eq_sum m _ hkeys, Finset.sum_congr rfl fun k _ => hweight k, Finset.sum_comm]
  exact Finset.sum_congr rfl fun i _ => (total_eq_sum m (w i) hkeys).symm

theorem total_eq_of_lookup {m m' : Map κ ν} (h : ∀ k, m.lookup k = m'.lookup k) (w : ν → Int) :
    total m w = total m' w := by
  have hkeys : ∀ k ∈ m.keys, k ∈ m'.keys.toFinset := by
    intro k hk
    rw [List.mem_toFinset, mem_keys_iff, ← h k, ← mem_keys_iff]
    exact hk
  rw [total_eq_sum m w hkeys, total_eq_sum m' w fun k => List.mem_toFinset.mpr]
  refine Finset.sum_congr rfl fun k _ => ?_
  rw [weightAt, h k, weightAt]

/-- **Weights that add up key by key add up in total.** -/
theorem total_add {m : Map κ ν} {m₁ : Map κ ν₁} {m₂ : Map κ ν₂} {w : ν → Int} {w₁ : ν₁ → Int} {w₂ : ν₂ → Int}
    (h : ∀ k, weightAt m w k = weightAt m₁ w₁ k + weightAt m₂ w₂ k) : total m w = total m₁ w₁ + total m₂ w₂ := by
  rw [total_eq_sum m w (s := (m.keys ++ (m₁.keys ++ m₂.keys)).toFinset) (by simp +contextual),
    total_eq_sum m₁ w₁ (s := (m.keys ++ (m₁.keys ++ m₂.keys)).toFinset) (by simp +contextual),
    total_eq_sum m₂ w₂ (s := (m.keys ++ (m₁.keys ++ m₂.keys)).toFinset) (by simp +contextual),
    ← Finset.sum_add_distrib]
  exact Finset.sum_congr rfl fun k _ => h k

theorem total_insert (m : Map κ ν) (w : ν → Int) (k : κ) (v : ν) :
    total (m.insert k v) w = total m w + (w v - weightAt m w k) := by
  generalize hδ : w v - weightAt m w k = δ
  have hweight : ∀ k', weightAt ((∅ : Map κ Int).insert k δ) id k' = if k' = k then δ else 0 := by
    intro k'
    rw [weightAt, lookup_insert_eq]
    split <;> rfl
  have hone : total ((∅ : Map κ Int).insert k δ) id = δ := by
    rw [total_eq_sum _ id (s := {k}), Finset.sum_singleton, hweight, if_pos rfl]
    intro k' hk'
    rw [mem_keys_iff, lookup_insert_eq] at hk'
    by_contra hne
    rw [if_neg (by simpa using hne)] at hk'
    cases hk'
  rw [← hone]
  refine total_add fun k' => ?_
  rw [hweight, weightAt, lookup_insert_eq]
  by_cases hk : k' = k
  · subst hk
    rw [if_pos rfl, if_pos rfl, ← hδ]
    show w v = _
    omega
  · rw [if_neg hk, if_neg hk, Int.add_zero]
    rfl

end Lib.Map
