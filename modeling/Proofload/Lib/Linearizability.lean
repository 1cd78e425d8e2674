import Proofload.Lib.Run
import Mathlib.Data.List.Perm.Basic
import Mathlib.Data.List.Permutation

/-!
# Linearizability of a finite set of operations

Operations of a type `A` with a real-time precedence, and a sequential object given by a partial step
function. A linearization is an arrangement of the operations that never puts an operation after one
it precedes and that the object accepts.

* `linearizable_map`, `linearizable_congr` : transport along a map, or to another precedence;
* `Linearizable.perm` : the order in which the operations are listed does not matter;
* `eq_cons_of_precedes`, `eq_concat_of_precedes` : where the first and the last operation in real time go;
* `linearizable_iff_permutations` : a finite search decides it (`decidableLinearizable`);
* `run_eq_some_of_forall`, `run_isSome_iff` : a replay is accepted if, and only if, the object accepts every
  operation in the state of the operations before it.
-/

namespace Lib

variable {S T A B : Type}

/-- Some arrangement of `ops` respects the precedence and is accepted from `init`. -/
def Linearizable (precedes : A → A → Prop) (step : S → A → Option S) (init : S) (ops : List A) : Prop :=
  ∃ l : List A, l.Perm ops ∧ l.Pairwise (fun a b => ¬precedes b a) ∧ (run step init l).isSome

variable {precedes : A → A → Prop} {step : S → A → Option S} {init : S}

theorem Linearizable.perm {ops ops' : List A} (h : Linearizable precedes step init ops) (hperm : ops.Perm ops') :
    Linearizable precedes step init ops' := by
  obtain ⟨l, hl, horder, hlegal⟩ := h
  exact ⟨l, hl.trans hperm, horder, hlegal⟩

/-! ## Transport -/

theorem run_map {step' : S → B → Option S} {f : A → B} {l : List A} (h : ∀ s, ∀ a ∈ l, step' s (f a) = step s a)
    (s : S) : run step' s (l.map f) = run step s l := by
  induction l generalizing s with
  | nil => rfl
  | cons a l ih =>
      rw [List.map_cons, run_cons, run_cons, h s a List.mem_cons_self]
      congr 1
      funext t
      exact ih (fun s b hb => h s b (List.mem_cons_of_mem _ hb)) t

/-- A map that keeps precedence and steps on the given operations keeps their linearizability. -/
theorem linearizable_map {precedes' : B → B → Prop} {step' : S → B → Option S} {f : A → B} {ops : List A}
    (hprec : ∀ a ∈ ops, ∀ b ∈ ops, precedes' (f a) (f b) ↔ precedes a b)
    (hstep : ∀ s, ∀ a ∈ ops, step' s (f a) = step s a) :
    Linearizable precedes' step' init (ops.map f) ↔ Linearizable precedes step init ops := by
  constructor
  · rintro ⟨l, hperm, horder, hlegal⟩
    obtain ⟨l', rfl, hperm'⟩ : Relation.Comp (fun l l' => l = List.map f l') List.Perm l ops := by
      rw [List.eq_map_comp_perm]
      exact hperm
    have hmem : ∀ a ∈ l', a ∈ ops := fun a ha => hperm'.mem_iff.mp ha
    refine ⟨l', hperm', ?_, ?_⟩
    · exact (List.pairwise_map.mp horder).imp_of_mem fun {a b} ha hb h hba =>
        h ((hprec b (hmem b hb) a (hmem a ha)).mpr hba)
    · rwa [run_map fun s a ha => hstep s a (hmem a ha)] at hlegal
  · rintro ⟨l, hperm, horder, hlegal⟩
    have hmem : ∀ a ∈ l, a ∈ ops := fun a ha => hperm.mem_iff.mp ha
    refine ⟨l.map f, hperm.map f, ?_, ?_⟩
    · refine List.pairwise_map.mpr (horder.imp_of_mem fun {a b} ha hb h hba => ?_)
      exact h ((hprec b (hmem b hb) a (hmem a ha)).mp hba)
    · rwa [run_map fun s a ha => hstep s a (hmem a ha)]

theorem linearizable_congr {precedes' : A → A → Prop} {ops : List A}
    (h : ∀ a ∈ ops, ∀ b ∈ ops, precedes' a b ↔ precedes a b) :
    Linearizable precedes' step init ops ↔ Linearizable precedes step init ops := by
  have hid : Linearizable precedes' step init (ops.map id) ↔ Linearizable precedes step init ops :=
    linearizable_map h fun _ _ _ => rfl
  rwa [List.map_id] at hid

/-! ## The ends of an arrangement -/

theorem eq_cons_of_precedes {a : A} {ops l : List A} (hperm : l.Perm (a :: ops))
    (horder : l.Pairwise (fun a b => ¬precedes b a)) (hfirst : ∀ b ∈ ops, precedes a b) :
    ∃ l', l = a :: l' ∧ l'.Perm ops := by
  obtain ⟨pre, post, rfl⟩ := List.append_of_mem (hperm.mem_iff.mpr List.mem_cons_self)
  have hrest : (pre ++ post).Perm ops := (List.perm_middle.symm.trans hperm).cons_inv
  have hpre : pre = [] := by
    apply List.eq_nil_iff_forall_not_mem.mpr
    intro b hb
    have hbefore := (List.pairwise_append.mp horder).2.2 b hb a List.mem_cons_self
    exact hbefore (hfirst b (hrest.mem_iff.mp (List.mem_append_left _ hb)))
  subst hpre
  exact ⟨post, rfl, hrest⟩

theorem eq_concat_of_precedes {a : A} {ops l : List A} (hperm : l.Perm (a :: ops))
    (horder : l.Pairwise (fun a b => ¬precedes b a)) (hlast : ∀ b ∈ ops, precedes b a) :
    ∃ l', l = l' ++ [a] ∧ l'.Perm ops := by
  obtain ⟨pre, post, rfl⟩ := List.append_of_mem (hperm.mem_iff.mpr List.mem_cons_self)
  have hrest : (pre ++ post).Perm ops := (List.perm_middle.symm.trans hperm).cons_inv
  have hpost : post = [] := by
    apply List.eq_nil_iff_forall_not_mem.mpr
    intro b hb
    have hafter := List.rel_of_pairwise_cons (List.pairwise_append.mp horder).2.1 hb
    exact hafter (hlast b (hrest.mem_iff.mp (List.mem_append_right _ hb)))
  subst hpost
  exact ⟨pre, rfl, by rwa [List.append_nil] at hrest⟩

/-! ## Deciding by search -/

theorem linearizable_iff_permutations (ops : List A) :
    Linearizable precedes step init ops ↔
      ∃ l ∈ ops.permutations', l.Pairwise (fun a b => ¬precedes b a) ∧ (run step init l).isSome := by
  simp only [List.mem_permutations']
  rfl

instance decidableLinearizable [DecidableRel precedes] (ops : List A) :
    Decidable (Linearizable precedes step init ops) :=
  decidable_of_iff _ (linearizable_iff_permutations ops).symm

/-! ## Replays -/

theorem run_concat (s : S) (l : List A) (a : A) : run step s (l ++ [a]) = (run step s l).bind fun t => step t a := by
  rw [run_append]
  congr 1
  funext t
  rw [run_cons]
  cases step t a <;> rfl

/-- A replay is accepted, and ends in `state l`, if `state` tells the state after every prefix. -/
theorem run_eq_some_of_forall (state : List A → S) (hinit : state [] = init) {l : List A}
    (hstep : ∀ pre a post, l = pre ++ a :: post → step (state pre) a = some (state (pre ++ [a]))) :
    run step init l = some (state l) := by
  induction l using List.reverseRecOn with
  | nil => rw [run_nil, hinit]
  | append_singleton l a ih =>
      have hl : run step init l = some (state l) :=
        ih fun pre b post h => hstep pre b (post ++ [a]) (by rw [h]; simp)
      rw [run_concat, hl]
      exact hstep l a [] rfl

/-- If `state` tells the state after every prefix, a replay is accepted exactly when the object accepts every
operation in the state of the operations before it. -/
theorem run_isSome_iff (state : List A → S) (hinit : state [] = init)
    (hnext : ∀ pre a t, step (state pre) a = some t → t = state (pre ++ [a])) (l : List A) :
    (run step init l).isSome ↔ ∀ pre a post, l = pre ++ a :: post → (step (state pre) a).isSome := by
  have hstate : ∀ {l s}, run step init l = some s → s = state l := by
    intro l
    induction l using List.reverseRecOn with
    | nil =>
        intro s h
        rw [← Option.some.inj h, hinit]
    | append_singleton l a ih =>
        intro s h
        rw [run_concat, Option.bind_eq_some_iff] at h
        obtain ⟨t, ht, h⟩ := h
        rw [ih ht] at h
        exact hnext l a s h
  constructor
  · intro h pre a post hl
    rw [hl, run_append] at h
    cases hpre : run step init pre with
    | none => simp [hpre] at h
    | some t =>
        rw [hpre, Option.bind_some, run_cons, hstate hpre] at h
        cases hstep : step (state pre) a with
        | none => simp [hstep] at h
        | some u => rfl
  · intro h
    rw [run_eq_some_of_forall state hinit fun pre a post hl => ?_]
    · rfl
    · obtain ⟨t, ht⟩ := Option.isSome_iff_exists.mp (h pre a post hl)
      rw [ht, hnext pre a t ht]

end Lib
