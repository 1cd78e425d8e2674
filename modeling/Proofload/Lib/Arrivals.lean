import Mathlib.Algebra.Order.BigOperators.Group.List
import Mathlib.Tactic.Ring
import Mathlib.Tactic.Linarith

/-!
# Arrivals at a stepwise constant rate

A step holds a rate for a length of time; `u` units of time make the period that rates refer to. A step before the
last has `⌊rate * len / u⌋` arrivals, the last one has no end, and the `k`-th arrival of a step is `⌊k * u / rate⌋`
after its start.

* `le_arrival_iff` : an arrival is in or after a step exactly if its index is;
* `arrival_eq` : the arrival of an index, in the step of the index;
* `arrival_mono`, `arrival_strictMono` : arrivals never go back, and are distinct at rates up to `u`.
-/

namespace Lib

set_option autoImplicit false

variable {α : Type} (u : Int) (rate len : α → Int)

/-- The arrivals of a step that is not the last. -/
def opsIn (s : α) : Int := rate s * len s / u

/-- The arrivals of the first `i` steps. -/
def opsUpTo (steps : List α) (i : Nat) : Int := ((steps.take i).map (opsIn u rate len)).sum

/-- The time of the first `i` steps. -/
def timeUpTo (steps : List α) (i : Nat) : Int := ((steps.take i).map len).sum

/-- The time of the arrival with index `k`. -/
def arrival : List α → Int → Int
  | [], _ => 0
  | [s], k => k * u / rate s
  | s :: t :: steps, k =>
      if opsIn u rate len s ≤ k then len s + arrival (t :: steps) (k - opsIn u rate len s) else k * u / rate s

/-! ## Sums over the first steps -/

section Sums
variable (s : α) (steps : List α) (i : Nat)

@[simp] theorem opsUpTo_zero : opsUpTo u rate len steps 0 = 0 := rfl

@[simp] theorem timeUpTo_zero : timeUpTo len steps 0 = 0 := rfl

@[simp] theorem opsUpTo_cons_succ :
    opsUpTo u rate len (s :: steps) (i + 1) = opsIn u rate len s + opsUpTo u rate len steps i := by
  simp [opsUpTo]

@[simp] theorem timeUpTo_cons_succ : timeUpTo len (s :: steps) (i + 1) = len s + timeUpTo len steps i := by
  simp [timeUpTo]

variable {s steps i}

theorem opsUpTo_succ (h : steps[i]? = some s) :
    opsUpTo u rate len steps (i + 1) = opsUpTo u rate len steps i + opsIn u rate len s := by
  unfold opsUpTo
  rw [List.take_add_one, h, List.map_append, List.sum_append]
  simp

theorem timeUpTo_succ (h : steps[i]? = some s) : timeUpTo len steps (i + 1) = timeUpTo len steps i + len s := by
  unfold timeUpTo
  rw [List.take_add_one, h, List.map_append, List.sum_append]
  simp

end Sums

/-! ## Where the arrivals are -/

theorem exists_step {steps : List α} (hne : steps ≠ []) {k : Int} (hk : 0 ≤ k) :
    ∃ (i : Nat) (s : α), steps[i]? = some s ∧ opsUpTo u rate len steps i ≤ k ∧
      (i + 1 < steps.length → k < opsUpTo u rate len steps (i + 1)) := by
  induction steps generalizing k with
  | nil => exact absurd rfl hne
  | cons s steps ih =>
      by_cases hlast : steps = []
      · subst hlast
        exact ⟨0, s, rfl, hk, fun h => absurd h (by simp)⟩
      · by_cases h : opsIn u rate len s ≤ k
        · obtain ⟨i, t, ht, hbegun, hnext⟩ := ih hlast (show 0 ≤ k - opsIn u rate len s by omega)
          refine ⟨i + 1, t, ht, ?_, fun hi => ?_⟩
          · rw [opsUpTo_cons_succ]
            omega
          · have := hnext (by simpa using hi)
            rw [opsUpTo_cons_succ]
            omega
        · refine ⟨0, s, rfl, hk, fun _ => ?_⟩
          rw [opsUpTo_cons_succ, opsUpTo_zero]
          omega

section Positive
variable {u rate len} {steps : List α}

theorem timeUpTo_nonneg (hpos : ∀ s ∈ steps, 0 < rate s ∧ 0 < len s) (i : Nat) : 0 ≤ timeUpTo len steps i := by
  apply List.sum_nonneg
  intro d hd
  obtain ⟨s, hs, rfl⟩ := List.mem_map.mp hd
  exact (hpos s (List.mem_of_mem_take hs)).2.le

variable (hu : 0 < u) (hpos : ∀ s ∈ steps, 0 < rate s ∧ 0 < len s)

include hu

theorem mul_ediv_lt {r d k : Int} (hr : 0 < r) (h : k < r * d / u) : k * u / r < d := by
  apply Int.ediv_lt_of_lt_mul hr
  have hfit : (k + 1) * u ≤ r * d := by
    calc (k + 1) * u ≤ r * d / u * u := Int.mul_le_mul_of_nonneg_right h hu.le
      _ ≤ r * d := Int.ediv_mul_le _ hu.ne'
  linarith [Int.add_mul k 1 u, Int.mul_comm r d]

include hpos

theorem opsIn_nonneg {s : α} (hs : s ∈ steps) : 0 ≤ opsIn u rate len s :=
  Int.ediv_nonneg (Int.mul_nonneg (hpos s hs).1.le (hpos s hs).2.le) hu.le

theorem opsUpTo_mono {i j : Nat} (hij : i ≤ j) : opsUpTo u rate len steps i ≤ opsUpTo u rate len steps j := by
  induction j, hij using Nat.le_induction with
  | base => exact le_refl _
  | succ j _ ih =>
      by_cases hj : j < steps.length
      · have hget := List.getElem?_eq_getElem hj
        rw [opsUpTo_succ u rate len hget]
        have := opsIn_nonneg hu hpos (List.mem_of_getElem? hget)
        omega
      · have hall : ∀ m, j ≤ m → steps.take m = steps := fun m hm => List.take_of_length_le (by omega)
        unfold opsUpTo at ih ⊢
        rw [hall j le_rfl] at ih
        rwa [hall (j + 1) (by omega)]

theorem opsUpTo_nonneg (i : Nat) : 0 ≤ opsUpTo u rate len steps i := opsUpTo_mono hu hpos (Nat.zero_le i)

theorem opsUpTo_mul_le {r : Int} (hr : ∀ s ∈ steps, rate s ≤ r) {i : Nat} (hi : i ≤ steps.length) :
    opsUpTo u rate len steps i * u ≤ r * timeUpTo len steps i := by
  induction i with
  | zero => simp
  | succ i ih =>
      have hget := List.getElem?_eq_getElem (show i < steps.length by omega)
      have hmem := List.mem_of_getElem? hget
      have hstep : opsIn u rate len steps[i] * u ≤ r * len steps[i] := by
        calc opsIn u rate len steps[i] * u ≤ rate steps[i] * len steps[i] := Int.ediv_mul_le _ hu.ne'
          _ ≤ r * len steps[i] := Int.mul_le_mul_of_nonneg_right (hr _ hmem) (hpos _ hmem).2.le
      rw [opsUpTo_succ u rate len hget, timeUpTo_succ len hget, Int.add_mul, Int.mul_add]
      have := ih (by omega)
      omega

theorem arrival_nonneg {k : Int} (hk : 0 ≤ k) : 0 ≤ arrival u rate len steps k := by
  induction steps generalizing k with
  | nil => exact le_refl _
  | cons s steps ih =>
      have hs := hpos s List.mem_cons_self
      have hquot : 0 ≤ k * u / rate s := Int.ediv_nonneg (Int.mul_nonneg hk hu.le) hs.1.le
      cases steps with
      | nil => exact hquot
      | cons t steps =>
          rw [arrival]
          split_ifs with h
          · have := ih (fun s hs => hpos s (List.mem_cons_of_mem _ hs)) (show 0 ≤ k - opsIn u rate len s by omega)
            omega
          · exact hquot

/-- **Arrivals and indices cross the start of a step together.** -/
theorem le_arrival_iff {i : Nat} (hi : i < steps.length) {k : Int} (hk : 0 ≤ k) :
    timeUpTo len steps i ≤ arrival u rate len steps k ↔ opsUpTo u rate len steps i ≤ k := by
  induction steps generalizing i k with
  | nil => cases hi
  | cons s steps ih =>
      have hs := hpos s List.mem_cons_self
      have hrest : ∀ s ∈ steps, 0 < rate s ∧ 0 < len s := fun s hs => hpos s (List.mem_cons_of_mem _ hs)
      cases i with
      | zero => simp [hk, arrival_nonneg hu hpos hk]
      | succ i =>
          obtain ⟨t, steps, rfl⟩ : ∃ t rest, steps = t :: rest :=
            List.exists_cons_of_length_pos (by simp only [List.length_cons] at hi; omega)
          rw [timeUpTo_cons_succ, opsUpTo_cons_succ, arrival]
          split_ifs with h
          · have := ih hrest (i := i) (by simpa using hi) (show 0 ≤ k - opsIn u rate len s by omega)
            omega
          · have hbefore : k * u / rate s < len s := mul_ediv_lt hu hs.1 (by unfold opsIn at h; omega)
            have htime := timeUpTo_nonneg hrest i
            have hops := opsUpTo_nonneg hu hrest i
            constructor <;> intro <;> omega

theorem arrival_eq {i : Nat} {s : α} {k : Int} (hs : steps[i]? = some s) (hbegun : opsUpTo u rate len steps i ≤ k)
    (hnext : i + 1 < steps.length → k < opsUpTo u rate len steps (i + 1)) :
    arrival u rate len steps k = timeUpTo len steps i + (k - opsUpTo u rate len steps i) * u / rate s := by
  induction steps generalizing i k with
  | nil => cases hs
  | cons r steps ih =>
      have hrest : ∀ s ∈ steps, 0 < rate s ∧ 0 < len s := fun s hs => hpos s (List.mem_cons_of_mem _ hs)
      cases i with
      | zero =>
          obtain rfl := Option.some.inj hs
          rw [timeUpTo_zero, opsUpTo_zero, Int.zero_add, Int.sub_zero]
          cases steps with
          | nil => rfl
          | cons t steps =>
              have := hnext (by simp)
              rw [opsUpTo_cons_succ, opsUpTo_zero, Int.add_zero] at this
              rw [arrival, if_neg (by omega)]
      | succ i =>
          rw [List.getElem?_cons_succ] at hs
          have hlength := (List.getElem?_eq_some_iff.mp hs).1
          obtain ⟨t, steps, rfl⟩ : ∃ t rest, steps = t :: rest := List.exists_cons_of_length_pos (by omega)
          rw [opsUpTo_cons_succ] at hbegun
          have hops := opsUpTo_nonneg hu hrest i
          rw [arrival, if_pos (by omega), timeUpTo_cons_succ, opsUpTo_cons_succ, ih hrest hs (by omega), Int.add_assoc]
          · congr 4
            omega
          · intro hi
            have := hnext (by simpa using hi)
            rw [opsUpTo_cons_succ] at this
            omega

/-! ## The order of the arrivals -/

theorem arrival_mono {k l : Int} (hk : 0 ≤ k) (hkl : k ≤ l) :
    arrival u rate len steps k ≤ arrival u rate len steps l := by
  induction steps generalizing k l with
  | nil => exact le_refl _
  | cons s steps ih =>
      have hs := hpos s List.mem_cons_self
      have hrest : ∀ s ∈ steps, 0 < rate s ∧ 0 < len s := fun s hs => hpos s (List.mem_cons_of_mem _ hs)
      have hquot : k * u / rate s ≤ l * u / rate s :=
        Int.ediv_le_ediv hs.1 (Int.mul_le_mul_of_nonneg_right hkl hu.le)
      cases steps with
      | nil => exact hquot
      | cons t steps =>
          rw [arrival, arrival]
          split_ifs with h h'
          · have := ih hrest (show 0 ≤ k - opsIn u rate len s by omega)
              (show k - opsIn u rate len s ≤ l - opsIn u rate len s by omega)
            omega
          · omega
          · have hbefore : k * u / rate s < len s := mul_ediv_lt hu hs.1 (by unfold opsIn at h; omega)
            have := arrival_nonneg hu hrest (show 0 ≤ l - opsIn u rate len s by omega)
            omega
          · exact hquot

theorem arrival_strictMono (hslow : ∀ s ∈ steps, rate s ≤ u) (hne : steps ≠ []) {k l : Int} (hk : 0 ≤ k) (hkl : k < l) :
    arrival u rate len steps k < arrival u rate len steps l := by
  induction steps generalizing k l with
  | nil => exact absurd rfl hne
  | cons s steps ih =>
      have hs := hpos s List.mem_cons_self
      have hrest : ∀ s ∈ steps, 0 < rate s ∧ 0 < len s := fun s hs => hpos s (List.mem_cons_of_mem _ hs)
      have hquot : k * u / rate s < l * u / rate s := by
        have hstep : k * u + 1 * rate s ≤ l * u := by
          have := Int.mul_le_mul_of_nonneg_right (show k + 1 ≤ l from hkl) hu.le
          rw [Int.add_mul] at this
          have := hslow s List.mem_cons_self
          omega
        have := Int.ediv_le_ediv hs.1 hstep
        rw [Int.add_mul_ediv_right _ _ hs.1.ne'] at this
        omega
      cases steps with
      | nil => exact hquot
      | cons t steps =>
          rw [arrival, arrival]
          split_ifs with h h'
          · have := ih hrest (fun s hs => hslow s (List.mem_cons_of_mem _ hs)) (List.cons_ne_nil t steps)
              (show 0 ≤ k - opsIn u rate len s by omega)
              (show k - opsIn u rate len s < l - opsIn u rate len s by omega)
            omega
          · omega
          · have hbefore : k * u / rate s < len s := mul_ediv_lt hu hs.1 (by unfold opsIn at h; omega)
            have := arrival_nonneg hu hrest (show 0 ≤ l - opsIn u rate len s by omega)
            omega
          · exact hquot

end Positive

end Lib
