import Mathlib.Data.Nat.Basic

/-!
# Binary search

`search n p` narrows `[0, n)` by halves to a place where the predicate turns from false to true.

* `searchLoop_spec` : what holds at the result, for every predicate;
* `search_eq` : on a predicate that turns once, the result is the turning point.
-/

namespace Lib

variable {p : Nat → Bool}

/-- The loop on `[i, j)`. -/
def searchLoop (p : Nat → Bool) (i j : Nat) : Nat :=
  if i < j then
    let h := (i + j) / 2
    if p h then searchLoop p i h else searchLoop p (h + 1) j
  else i
termination_by j - i

def search (n : Nat) (p : Nat → Bool) : Nat := searchLoop p 0 n

/-- In front of the result the predicate is false, at the result it is true, the ends of the range apart. -/
theorem searchLoop_spec {i j : Nat} (hij : i ≤ j) :
    i ≤ searchLoop p i j ∧ searchLoop p i j ≤ j ∧ (i < searchLoop p i j → p (searchLoop p i j - 1) = false) ∧
      (searchLoop p i j < j → p (searchLoop p i j) = true) := by
  induction hd : j - i using Nat.strongRecOn generalizing i j with
  | ind d ih =>
      rw [searchLoop]
      by_cases hlt : i < j
      · rw [if_pos hlt]
        dsimp only
        by_cases hp : p ((i + j) / 2) = true
        · rw [if_pos hp]
          obtain ⟨hlow, hhigh, hfalse, htrue⟩ := ih ((i + j) / 2 - i) (by omega) (show i ≤ (i + j) / 2 by omega) rfl
          refine ⟨hlow, by omega, hfalse, fun _ => ?_⟩
          rcases Nat.lt_or_eq_of_le hhigh with h | h
          · exact htrue h
          · rw [h]
            exact hp
        · rw [if_neg hp]
          obtain ⟨hlow, hhigh, hfalse, htrue⟩ := ih (j - ((i + j) / 2 + 1)) (by omega)
            (show (i + j) / 2 + 1 ≤ j by omega) rfl
          refine ⟨by omega, hhigh, fun _ => ?_, htrue⟩
          rcases Nat.lt_or_eq_of_le hlow with h | h
          · exact hfalse h
          · rw [← h, Nat.add_sub_cancel]
            exact (Bool.not_eq_true _).mp hp
      · rw [if_neg hlt]
        exact ⟨Nat.le_refl i, hij, fun h => absurd h (Nat.lt_irrefl i), fun h => absurd h hlt⟩

theorem search_eq {n k : Nat} (hk : k ≤ n) (hfalse : ∀ i < k, p i = false) (htrue : ∀ i, k ≤ i → i < n → p i = true) :
    search n p = k := by
  obtain ⟨-, hhigh, hbelow, hat⟩ := searchLoop_spec (p := p) (Nat.zero_le n)
  show searchLoop p 0 n = k
  generalize searchLoop p 0 n = r at *
  rcases Nat.lt_trichotomy r k with h | h | h
  · have := hfalse r h
    rw [hat (by omega)] at this
    cases this
  · exact h
  · have := htrue (r - 1) (by omega) (by omega)
    rw [hbelow (by omega)] at this
    cases this

end Lib
