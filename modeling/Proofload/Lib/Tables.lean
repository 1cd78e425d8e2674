import Mathlib.Data.List.Induction
import Mathlib.Data.Set.Insert

/-!
# Keyed tables

A table is a set of rows; `upsert` replaces the row of a key. A log of rows that are entered one after the other leaves
the last row of every key, and of the rows before it those whose key it does not have.

* `mem_foldl_upsert` : the rows that a log leaves.
-/

namespace Lib

set_option autoImplicit false

variable {ρ κ : Type} {key : ρ → κ}

/-- Deletes the row with the key and enters the new one. -/
def upsert (key : ρ → κ) (t : Set ρ) (r : ρ) : Set ρ := insert r {x ∈ t | key x ≠ key r}

theorem mem_upsert {t : Set ρ} {r x : ρ} : x ∈ upsert key t r ↔ x = r ∨ (x ∈ t ∧ key x ≠ key r) := Iff.rfl

/-- The row is in the log, and no later row of the log has its key. -/
def LastOf (key : ρ → κ) (log : List ρ) (r : ρ) : Prop :=
  ∃ pre post, log = pre ++ r :: post ∧ ∀ y ∈ post, key y ≠ key r

theorem lastOf_concat {log : List ρ} {r x : ρ} :
    LastOf key (log ++ [r]) x ↔ x = r ∨ (LastOf key log x ∧ key r ≠ key x) := by
  constructor
  · rintro ⟨pre, post, heq, hpost⟩
    rcases List.eq_nil_or_concat post with rfl | ⟨post, y, rfl⟩
    · exact Or.inl (List.cons.inj (List.append_inj' heq rfl).2).1.symm
    · rw [List.concat_eq_append, ← List.cons_append, ← List.append_assoc] at heq
      obtain ⟨hlog, hlast⟩ := List.append_inj' heq rfl
      obtain rfl := (List.cons.inj hlast).1
      rw [List.concat_eq_append, List.forall_mem_append] at hpost
      exact Or.inr ⟨⟨pre, post, hlog, hpost.1⟩, hpost.2 r (List.mem_singleton_self r)⟩
  · rintro (rfl | ⟨⟨pre, post, rfl, hpost⟩, hne⟩)
    · exact ⟨log, [], rfl, fun y hy => absurd hy List.not_mem_nil⟩
    · refine ⟨pre, post ++ [r], by simp, ?_⟩
      rw [List.forall_mem_append, List.forall_mem_singleton]
      exact ⟨hpost, hne⟩

/-- A row is there if it is the last one of its key in the log, or was there before and the log lacks its key. -/
theorem mem_foldl_upsert (t : Set ρ) (log : List ρ) (x : ρ) :
    x ∈ log.foldl (upsert key) t ↔ LastOf key log x ∨ (x ∈ t ∧ ∀ y ∈ log, key y ≠ key x) := by
  induction log using List.reverseRecOn with
  | nil => simp [LastOf]
  | append_singleton log r ih =>
      rw [List.foldl_append, List.foldl_cons, List.foldl_nil, mem_upsert, ih, lastOf_concat, List.forall_mem_append,
        List.forall_mem_singleton]
      constructor
      · rintro (rfl | ⟨hlast | ⟨hmem, hlog⟩, hne⟩)
        · exact Or.inl (Or.inl rfl)
        · exact Or.inl (Or.inr ⟨hlast, hne.symm⟩)
        · exact Or.inr ⟨hmem, hlog, hne.symm⟩
      · rintro ((rfl | ⟨hlast, hne⟩) | ⟨hmem, hlog, hne⟩)
        · exact Or.inl rfl
        · exact Or.inr ⟨Or.inl hlast, hne.symm⟩
        · exact Or.inr ⟨Or.inr ⟨hmem, hlog⟩, hne.symm⟩

end Lib
