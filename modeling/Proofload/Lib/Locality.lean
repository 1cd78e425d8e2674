import Proofload.Lib.Linearizability
import Mathlib.Data.List.MinMax

/-!
# Locality of linearizability

A system of objects, one for every key, in which an operation acts on the object of its key. Operations are
intervals of a linear time, and one precedes another if it stopped before the other started.

* `run_keyedStep_isSome` : the system accepts a list of operations exactly when every object accepts its part;
* `exists_merge` : arrangements of the parts that respect the precedence merge into one of all operations;
* `linearizable_keyedStep_iff` : a history is linearizable exactly when its restriction to every key is.
-/

namespace Lib

set_option autoImplicit false

variable {S A κ τ : Type} [DecidableEq κ] [LinearOrder τ] {step : S → A → Option S} {key : A → κ} {start stop : A → τ}

/-- One object for every key: an operation acts on the object of its key. -/
def keyedStep (key : A → κ) (step : S → A → Option S) (s : κ → S) (a : A) : Option (κ → S) :=
  (step (s (key a)) a).map (Function.update s (key a))

theorem run_keyedStep_isSome (s : κ → S) (l : List A) :
    (run (keyedStep key step) s l).isSome ↔ ∀ k, (run step (s k) (l.filter fun a => key a = k)).isSome := by
  induction l generalizing s with
  | nil => simp
  | cons a l ih =>
      rw [run_cons, keyedStep]
      cases hstep : step (s (key a)) a with
      | none =>
          refine ⟨fun h => by simp at h, fun h => ?_⟩
          have hpart := h (key a)
          rw [List.filter_cons_of_pos (by simp), run_cons, hstep] at hpart
          simp at hpart
      | some t =>
          rw [Option.map_some, Option.bind_some, ih]
          refine forall_congr' fun k => ?_
          by_cases hk : key a = k
          · subst hk
            rw [Function.update_self, List.filter_cons_of_pos (by simp), run_cons, hstep, Option.bind_some]
          · rw [Function.update_of_ne (Ne.symm hk), List.filter_cons_of_neg (by simpa using hk)]

section Merge
variable {ops : List A} {parts : κ → List A}

/-- Some part begins with an operation that nothing precedes: the part of the operation that stopped
first. -/
theorem exists_unpreceded_head (hne : ops ≠ []) (hinterval : ∀ a ∈ ops, start a ≤ stop a)
    (hperm : ∀ k, (parts k).Perm (ops.filter fun a => key a = k))
    (horder : ∀ k, (parts k).Pairwise fun a b => ¬stop b < start a) :
    ∃ head rest, parts (key head) = head :: rest ∧ head ∈ ops ∧ ∀ b ∈ ops, ¬stop b < start head := by
  obtain ⟨first, hfirst⟩ : ∃ a, a ∈ ops.argmin stop := by
    cases harg : ops.argmin stop with
    | none => exact absurd (List.argmin_eq_none.mp harg) hne
    | some a => exact ⟨a, rfl⟩
  have hmem : first ∈ ops := List.argmin_mem hfirst
  have hpart : first ∈ parts (key first) := (hperm _).mem_iff.mpr (List.mem_filter.mpr ⟨hmem, by simp⟩)
  have hsorted := horder (key first)
  cases hparts : parts (key first) with
  | nil =>
      rw [hparts] at hpart
      cases hpart
  | cons head rest =>
      obtain ⟨hhead, hkey⟩ : head ∈ ops ∧ key head = key first := by
        have : head ∈ parts (key first) := hparts ▸ List.mem_cons_self
        simpa using (hperm _).mem_iff.mp this
      rw [hparts] at hpart hsorted
      have hlow : start head ≤ stop first := by
        rcases List.mem_cons.mp hpart with rfl | hrest
        · exact hinterval first hmem
        · exact not_lt.mp ((List.pairwise_cons.mp hsorted).1 first hrest)
      refine ⟨head, rest, hkey ▸ hparts, hhead, fun b hb => ?_⟩
      exact not_lt.mpr (le_trans hlow (List.le_of_mem_argmin hb hfirst))

/-- Taking the head of a part away leaves arrangements of the remaining operations. -/
theorem perm_update_of_head [DecidableEq A] (hperm : ∀ k, (parts k).Perm (ops.filter fun a => key a = k)) {head : A}
    {rest : List A} (hparts : parts (key head) = head :: rest) (hhead : head ∈ ops) (k : κ) :
    (Function.update parts (key head) rest k).Perm ((ops.erase head).filter fun a => key a = k) := by
  have hk := (hperm k).trans ((List.perm_cons_erase hhead).filter fun a => decide (key a = k))
  by_cases hkey : key head = k
  · subst hkey
    rw [hparts, List.filter_cons_of_pos (by simp)] at hk
    rw [Function.update_self]
    exact hk.cons_inv
  · rw [List.filter_cons_of_neg (by simpa using hkey)] at hk
    rwa [Function.update_of_ne (Ne.symm hkey)]

theorem exists_merge (hinterval : ∀ a ∈ ops, start a ≤ stop a)
    (hperm : ∀ k, (parts k).Perm (ops.filter fun a => key a = k))
    (horder : ∀ k, (parts k).Pairwise fun a b => ¬stop b < start a) :
    ∃ l : List A, l.Perm ops ∧ l.Pairwise (fun a b => ¬stop b < start a) ∧
      ∀ k, (l.filter fun a => key a = k) = parts k := by
  classical
  -- on the number of operations left to place; each time an unpreceded head goes first
  induction hn : ops.length generalizing ops parts with
  | zero =>
      obtain rfl := List.length_eq_zero_iff.mp hn
      exact ⟨[], List.Perm.refl _, List.Pairwise.nil, fun k => (List.perm_nil.mp (hperm k)).symm⟩
  | succ n ih =>
      have hne : ops ≠ [] := by
        rintro rfl
        cases hn
      obtain ⟨head, rest, hparts, hhead, hfree⟩ := exists_unpreceded_head hne hinterval hperm horder
      have herase := List.perm_cons_erase hhead
      have hlength : (ops.erase head).length = n := by
        rw [List.length_erase_of_mem hhead]
        omega
      have horder' : ∀ k, (Function.update parts (key head) rest k).Pairwise fun a b => ¬stop b < start a := by
        refine (Function.forall_update_iff parts fun _ l => l.Pairwise fun a b => ¬stop b < start a).mpr
          ⟨?_, fun k _ => horder k⟩
        have hsorted := horder (key head)
        rw [hparts] at hsorted
        exact (List.pairwise_cons.mp hsorted).2
      obtain ⟨l, hl, hpair, hfilter⟩ := ih (fun a ha => hinterval a (List.mem_of_mem_erase ha))
        (perm_update_of_head hperm hparts hhead) horder' hlength
      refine ⟨head :: l, (hl.cons head).trans herase.symm, List.pairwise_cons.mpr ⟨fun b hb => ?_, hpair⟩, fun k => ?_⟩
      · exact hfree b (List.mem_of_mem_erase (hl.mem_iff.mp hb))
      · by_cases hk : key head = k
        · subst hk
          rw [List.filter_cons_of_pos (by simp), hfilter, Function.update_self, hparts]
        · rw [List.filter_cons_of_neg (by simpa using hk), hfilter, Function.update_of_ne (Ne.symm hk)]

end Merge

/-- **Locality.** Operations with proper intervals linearize on the system exactly when the operations of
every key linearize on the object of that key. -/
theorem linearizable_keyedStep_iff {init : κ → S} {ops : List A} (hinterval : ∀ a ∈ ops, start a ≤ stop a) :
    Linearizable (fun a b => stop a < start b) (keyedStep key step) init ops ↔
      ∀ k, Linearizable (fun a b => stop a < start b) step (init k) (ops.filter fun a => key a = k) := by
  constructor
  · rintro ⟨l, hperm, horder, hlegal⟩ k
    exact ⟨_, hperm.filter _, horder.filter _, (run_keyedStep_isSome init l).mp hlegal k⟩
  · intro h
    choose parts hperm horder hlegal using h
    obtain ⟨l, hl, hpair, hfilter⟩ := exists_merge hinterval hperm horder
    refine ⟨l, hl, hpair, (run_keyedStep_isSome init l).mpr fun k => ?_⟩
    rw [hfilter]
    exact hlegal k

end Lib
