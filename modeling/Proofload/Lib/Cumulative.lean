import Mathlib.Order.ConditionallyCompleteLattice.Basic
import Mathlib.Algebra.BigOperators.Group.List.Basic
import Mathlib.Algebra.Order.BigOperators.Group.List
import Mathlib.Data.Int.ConditionallyCompleteOrder
import Mathlib.Data.Int.Interval

/-!
# Running sums and the draws they own

A list of positive weights cuts the integers from `start` on into intervals, one for each weight, as long as the
weight. A draw is looked up as the first running sum above it.

* `runningSums_pairwise`, `getLastD_runningSums` : running sums increase, up to the total;
* `position_runningSums` : the interval of a position;
* `card_draws` : a position owns as many draws as its weight says;
* `exists_position` : every draw below the total has a position.
-/

namespace Lib

set_option autoImplicit false

/-- The sums of the first weights, over `start`. -/
def runningSums : Int → List Int → List Int
  | _, [] => []
  | start, w :: ws => (start + w) :: runningSums (start + w) ws

/-- The position of the first sum above the draw `x`. -/
def position (x : Int) (sums : List Int) : Option Nat := sums.findIdx? fun c => x < c

section Positive
variable {ws : List Int}

theorem getLastD_runningSums (start : Int) (ws : List Int) :
    (runningSums start ws).getLastD start = start + ws.sum := by
  induction ws generalizing start with
  | nil => simp [runningSums]
  | cons w ws ih =>
      rw [runningSums, List.getLastD_cons, ih, List.sum_cons, Int.add_assoc]

theorem position_cons (x c : Int) (sums : List Int) :
    position x (c :: sums) = if x < c then some 0 else (position x sums).map (· + 1) := by
  unfold position
  rw [List.findIdx?_cons]
  simp

theorem sum_take_nonneg (hpos : ∀ w ∈ ws, 0 < w) (i : Nat) : 0 ≤ (ws.take i).sum :=
  List.sum_nonneg fun w hw => (hpos w (List.mem_of_mem_take hw)).le

theorem lt_of_mem_runningSums {start c : Int} (hpos : ∀ w ∈ ws, 0 < w) (hc : c ∈ runningSums start ws) : start < c := by
  induction ws generalizing start with
  | nil => cases hc
  | cons w ws ih =>
      have hw := hpos w List.mem_cons_self
      rcases List.mem_cons.mp hc with rfl | hc
      · omega
      · have := ih (fun w hw => hpos w (List.mem_cons_of_mem _ hw)) hc
        omega

theorem runningSums_pairwise (hpos : ∀ w ∈ ws, 0 < w) (start : Int) : (runningSums start ws).Pairwise (· < ·) := by
  induction ws generalizing start with
  | nil => exact List.Pairwise.nil
  | cons w ws ih =>
      have htail : ∀ w ∈ ws, 0 < w := fun w hw => hpos w (List.mem_cons_of_mem _ hw)
      refine List.pairwise_cons.mpr ⟨?_, ih htail (start + w)⟩
      intro c hc
      exact lt_of_mem_runningSums htail hc

/-- The draws of a position are the interval between the sums of the weights in front of it and up to it. -/
theorem position_runningSums (hpos : ∀ w ∈ ws, 0 < w) {start x : Int} (hx : start ≤ x) (i : Nat) :
    position x (runningSums start ws) = some i ↔
      i < ws.length ∧ start + (ws.take i).sum ≤ x ∧ x < start + (ws.take (i + 1)).sum := by
  induction ws generalizing start i with
  | nil => simp [runningSums, position]
  | cons w ws ih =>
      have htail : ∀ w ∈ ws, 0 < w := fun w hw => hpos w (List.mem_cons_of_mem _ hw)
      rw [runningSums, position_cons]
      split_ifs with hlt
      · cases i with
        | zero => simpa using ⟨hx, hlt⟩
        | succ i =>
            have := sum_take_nonneg htail i
            simp only [List.take_succ_cons, List.sum_cons, Option.some.injEq]
            omega
      · cases i with
        | zero =>
            simp only [List.take_succ_cons, List.take_zero, List.sum_cons, List.sum_nil, Option.map_eq_some_iff]
            constructor
            · rintro ⟨j, -, hj⟩
              omega
            · omega
        | succ i =>
            have := ih htail (show start + w ≤ x by omega) i
            simp only [List.take_succ_cons, List.sum_cons, List.length_cons, Option.map_eq_some_iff,
              Nat.add_right_cancel_iff, exists_eq_right, Nat.add_lt_add_iff_right] at this ⊢
            rw [this, Int.add_assoc, Int.add_assoc]

/-- **A position owns as many draws as its weight says.** -/
theorem card_draws (hpos : ∀ w ∈ ws, 0 < w) {i : Nat} {w : Int} (hi : ws[i]? = some w) :
    (((Finset.Ico 0 ws.sum).filter fun x => position x (runningSums 0 ws) = some i).card : Int) = w := by
  obtain ⟨hlt, hget⟩ := List.getElem?_eq_some_iff.mp hi
  have hupto : (ws.take (i + 1)).sum = (ws.take i).sum + w := by
    rw [List.take_succ_eq_append_getElem hlt, List.sum_append, hget, List.sum_singleton]
  have hlow := sum_take_nonneg hpos i
  have htotal : (ws.take (i + 1)).sum ≤ ws.sum := by
    have hrest : 0 ≤ (ws.drop (i + 1)).sum := List.sum_nonneg fun w hw => (hpos w (List.mem_of_mem_drop hw)).le
    have hsplit := congrArg List.sum (List.take_append_drop (i + 1) ws)
    rw [List.sum_append] at hsplit
    omega
  have hinterval : ((Finset.Ico 0 ws.sum).filter fun x => position x (runningSums 0 ws) = some i) =
      Finset.Ico (ws.take i).sum (ws.take (i + 1)).sum := by
    ext x
    simp only [Finset.mem_filter, Finset.mem_Ico]
    constructor
    · rintro ⟨⟨hx, -⟩, hpick⟩
      have := (position_runningSums hpos hx i).mp hpick
      omega
    · rintro ⟨hge, hlast⟩
      refine ⟨by omega, (position_runningSums hpos (by omega) i).mpr ⟨hlt, by omega, by omega⟩⟩
  have hw := hpos w (List.mem_of_getElem? hi)
  rw [hinterval, Int.card_Ico]
  omega

theorem exists_position {start x : Int} (hx : x < start + ws.sum) (hstart : start ≤ x) :
    ∃ i, position x (runningSums start ws) = some i := by
  induction ws generalizing start with
  | nil =>
      rw [List.sum_nil] at hx
      omega
  | cons w ws ih =>
      rw [runningSums, position_cons]
      split_ifs with hlt
      · exact ⟨0, rfl⟩
      · rw [List.sum_cons] at hx
        obtain ⟨i, hi⟩ := ih (show x < start + w + ws.sum by omega) (by omega)
        exact ⟨i + 1, by rw [hi]; rfl⟩

end Positive

end Lib
