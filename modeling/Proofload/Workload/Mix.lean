import Proofload.Lib.Cumulative
import Proofload.Workload.Generator

/-!
# The operation mix (`core/workload/generator.go`)

`New` accumulates the weights of the listed operations, `pickOp` looks a uniform draw up in the running sums.

* `cumulate_eq_runningSums` : what `New` accumulates;
* `selectOp_of_position` : the loop of `pickOp` stops at the position of the draw;
* `new_table`, `exists_pick` : the table of an accepted workload, and that every draw stops in it;
* `operation_mix_exact` : every listed operation is picked by exactly as many draws as it weighs.
-/

namespace Proofload.WorkloadGen
open Lib

set_option autoImplicit false

/-- The weights of the listed operations. -/
def weights (ops : List OpSpec) : List Int := ops.map fun op => op.weight.val

theorem weights_pos_of_cumulate {name : String} {ops : List OpSpec} {total : Int} {cum : List Int}
    (h : cumulate name total ops = .ok cum) : ∀ w ∈ weights ops, 0 < w := by
  induction ops generalizing total cum with
  | nil => intro w hw; cases hw
  | cons op ops ih =>
      unfold cumulate at h
      split at h
      · cases h
      · next hpos =>
        cases hrest : cumulate name (wrap64 (total + op.weight.val)) ops with
        | error e => rw [hrest] at h; cases h
        | ok rest =>
            intro w hw
            rcases List.mem_cons.mp hw with rfl | hw
            · exact Int.not_le.mp hpos
            · exact ih hrest w hw

/-- The accumulated table is that of the running sums, as long as the total fits. -/
theorem cumulate_eq_runningSums {name : String} {ops : List OpSpec} {total : Int} {cum : List Int} (htotal : 0 ≤ total)
    (hfit : total + (weights ops).sum < 2 ^ 63) (h : cumulate name total ops = .ok cum) :
    cum = runningSums total (weights ops) := by
  induction ops generalizing total cum with
  | nil => cases h; rfl
  | cons op ops ih =>
      have hpos := weights_pos_of_cumulate h
      have hw : 0 < op.weight.val := hpos _ List.mem_cons_self
      have hrest : 0 ≤ (weights ops).sum :=
        List.sum_nonneg fun w hw => (hpos w (List.mem_cons_of_mem _ hw)).le
      have hsum : (weights (op :: ops)).sum = op.weight.val + (weights ops).sum := List.sum_cons
      have hwrap : wrap64 (total + op.weight.val) = total + op.weight.val := wrap64_eq_self (by omega) (by omega)
      unfold cumulate at h
      rw [if_neg (by omega), hwrap] at h
      cases htail : cumulate name (total + op.weight.val) ops with
      | error e => rw [htail] at h; cases h
      | ok rest =>
          rw [htail] at h
          cases h
          rw [ih (by omega) (by omega) htail]
          rfl

/-- The loop of `pickOp` returns at the position of the draw, in front of the fallback. -/
theorem selectOp_of_position {x : Int} {cum : List Int} {ops : List OpSpec} {i : Nat} {op : OpSpec}
    (hi : position x cum = some i) (hop : ops[i]? = some op) : selectOp x cum ops = op.type := by
  induction cum generalizing ops i with
  | nil => cases hi
  | cons c cum ih =>
      obtain ⟨first, rest, rfl⟩ : ∃ first rest, ops = first :: rest := by
        cases ops with
        | nil => cases hop
        | cons first rest => exact ⟨first, rest, rfl⟩
      rw [position_cons] at hi
      unfold selectOp
      split_ifs at hi ⊢ with hlt hlast
      · cases hi
        cases hop
        rfl
      · rw [hlast] at hi
        cases hi
      · obtain ⟨j, hj, rfl⟩ := Option.map_eq_some_iff.mp hi
        exact ih hj hop

theorem new_cum {w : Workload} {seed id n : I64} {f : Factory} (h : new w seed id n = .ok f) :
    cumulate w.name 0 w.operations = .ok f.cum ∧ f.total = f.cum.getLastD 0 := by
  unfold new at h
  split_ifs at h
  cases hcum : cumulate w.name 0 w.operations with
  | error e => rw [hcum] at h; cases h
  | ok cum =>
      rw [hcum] at h
      simp only [bind, Except.bind] at h
      split_ifs at h
      cases h
      exact ⟨rfl, rfl⟩

section Table
variable {w : Workload} {seed id n : I64} {f : Factory}

theorem new_table (hnew : new w seed id n = .ok f) (hfit : (weights w.operations).sum < 2 ^ 63) :
    (∀ x ∈ weights w.operations, 0 < x) ∧ f.cum = runningSums 0 (weights w.operations) ∧
      f.total = (weights w.operations).sum ∧ f.cum ≠ [] ∧ 0 < f.total := by
  obtain ⟨hw, hacc⟩ := new_accepted hnew
  obtain ⟨hcumulate, hlast⟩ := new_cum hnew
  have hpos := weights_pos_of_cumulate hcumulate
  have hcum := cumulate_eq_runningSums le_rfl (by omega) hcumulate
  have htotal : f.total = (weights w.operations).sum := by
    rw [hlast, hcum, getLastD_runningSums, Int.zero_add]
  obtain ⟨op, ops, hops⟩ := List.exists_cons_of_ne_nil (hw ▸ hacc.operations : w.operations ≠ [])
  refine ⟨hpos, hcum, htotal, ?_, ?_⟩
  · rw [hcum, hops]
    exact List.cons_ne_nil _ _
  · rw [htotal]
    apply List.sum_pos _ hpos
    rw [hops]
    exact List.cons_ne_nil _ _

/-- A draw below the total stops at a listed operation, in front of the fallback. -/
theorem exists_pick (hnew : new w seed id n = .ok f) (hfit : (weights w.operations).sum < 2 ^ 63) {x : Int}
    (hx : 0 ≤ x) (hlt : x < f.total) : ∃ (i : Nat) (op : OpSpec),
      position x f.cum = some i ∧ w.operations[i]? = some op ∧ selectOp x f.cum w.operations = op.type := by
  obtain ⟨hpos, hcum, htotal, -⟩ := new_table hnew hfit
  have hbelow : x < 0 + (weights w.operations).sum := by omega
  obtain ⟨i, hi⟩ := exists_position hbelow hx
  have hlength := ((position_runningSums hpos hx i).mp hi).1
  rw [weights, List.length_map] at hlength
  have hop := List.getElem?_eq_getElem hlength
  rw [← hcum] at hi
  exact ⟨i, _, hi, hop, selectOp_of_position hi hop⟩

end Table

/-- **The operation mix is exact.** For every workload that `New` accepts, if its weights sum to an `int`: the table
increases strictly up to the total weight; list position `i` is the one that exactly `Weight_i` of the draws in
`[0, total)` stop at; every such draw stops in front of the fallback, and so does every draw that `pickOp` makes. -/
theorem operation_mix_exact (w : Workload) (seed id n : I64) (f : Factory) (hnew : new w seed id n = .ok f)
    (hfit : (weights w.operations).sum < 2 ^ 63) :
    f.total = (weights w.operations).sum ∧ f.cum.Pairwise (· < ·) ∧ f.cum.getLast? = some f.total ∧
    (∀ (i : Nat) (op : OpSpec), w.operations[i]? = some op →
      (((Finset.Ico 0 f.total).filter fun x => position x f.cum = some i).card : Int) = op.weight.val) ∧
    (∀ x, 0 ≤ x → x < f.total → ∃ (i : Nat) (op : OpSpec),
      position x f.cum = some i ∧ w.operations[i]? = some op ∧ selectOp x f.cum w.operations = op.type) ∧
    ∀ (R : RandV2) (g : Gen R), ∃ (x : Int) (i : Nat) (op : OpSpec),
      x = (R.int64N f.total g.r).1 ∧ position x f.cum = some i ∧ w.operations[i]? = some op ∧
        (g.pickOp f).1 = op.type := by
  obtain ⟨hpos, hcum, htotal, hne, htotalpos⟩ := new_table hnew hfit
  refine ⟨htotal, ?_, ?_, ?_, ?_, ?_⟩
  · rw [hcum]
    exact runningSums_pairwise hpos 0
  · rw [(new_cum hnew).2, List.getLastD_eq_getLast?, List.getLast?_eq_some_getLast hne]
    rfl
  · intro i op hop
    rw [htotal, hcum]
    apply card_draws hpos
    rw [weights, List.getElem?_map, hop]
    rfl
  · intro x hx hlt
    exact exists_pick hnew hfit hx hlt
  · intro R g
    have hrange := R.int64N_range f.total g.r htotalpos
    obtain ⟨i, op, hi, hop, hselect⟩ := exists_pick hnew hfit hrange.1 hrange.2
    refine ⟨_, i, op, rfl, hi, hop, ?_⟩
    rw [← hselect, ← (new_accepted hnew).1]
    rfl

/-- Three operations, one of them listed twice. -/
def weightedMix : Workload :=
  { name := "weighted-mix", mode := .performance, operations := [⟨"read", 5⟩, ⟨"update", 3⟩, ⟨"read", 2⟩],
    keySpace := 5, keyDist := .sequential, valueSize := 8, verifyModel := .none, params := ∅ }

def weightedMixFactory : Factory :=
  { w := weightedMix, seed := 0, workerID := 0, strideN := 1, base := 0, localSpace := 5, zipfS := defaultZipfS,
    cum := [5, 8, 10], total := 10 }

theorem operation_mix_on_weightedMix :
    new weightedMix 0 0 1 = .ok weightedMixFactory ∧
      (((Finset.Ico 0 10).filter fun x => position x [5, 8, 10] = some 1).card : Int) = 3 ∧
      ∃ (i : Nat) (op : OpSpec), position 9 [5, 8, 10] = some i ∧ weightedMix.operations[i]? = some op ∧
        selectOp 9 [5, 8, 10] weightedMix.operations = op.type := by
  have hnew : new weightedMix 0 0 1 = .ok weightedMixFactory := rfl
  obtain ⟨-, -, -, hcount, hpick, -⟩ := operation_mix_exact weightedMix 0 0 1 weightedMixFactory hnew (by decide)
  exact ⟨hnew, hcount 1 ⟨"update", 3⟩ rfl, hpick 9 (by decide) (by decide)⟩

end Proofload.WorkloadGen
