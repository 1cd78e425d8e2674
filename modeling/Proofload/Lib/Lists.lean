import Mathlib.Data.List.Induction
import Mathlib.Data.List.Perm.Subperm
import Mathlib.Data.List.Sort

/-!
# Splitting lists

* `exists_last` : the last element with a property;
* `mem_front_iff` : in a strictly increasing list, the elements in front of one are the smaller ones;
* `mem_between` : what an index between two others points to;
* `filterMap_set` : replacing an element by one with the same image;
* `mem_of_full` : distinct slots that are as many as there are slots are all of them;
* `index_unique_of_nodup_filterMap` : the position of a value that is given once;
* `pairwise_insertionSort_of_swap` : what a stable sort keeps of the order of its input;
* `filterMap_eq_self_iff`, `erase_concat_eq_iff` : when a change of a list leaves it as it was;
* `foldl_ne_of_one_change` : a fold whose steps lose nothing tells lists apart that differ in one place;
* `nodup_flatMap_of_tag` : no repetitions among parts that are told apart by a tag;
* `weave_lefts`, `weave_rights` : an interleaving keeps both lists in order.
-/

namespace Lib

variable {α β : Type}

theorem exists_last {p : α → Prop} {l : List α} (h : ∃ x ∈ l, p x) :
    ∃ pre x post, l = pre ++ x :: post ∧ p x ∧ ∀ y ∈ post, ¬ p y := by
  induction l using List.reverseRecOn with
  | nil => simp at h
  | append_singleton l a ih =>
      by_cases ha : p a
      · exact ⟨l, a, [], rfl, ha, by simp⟩
      · obtain ⟨x, hx, hpx⟩ := h
        have hxl : x ∈ l := by
          rcases List.mem_append.mp hx with hx | hx
          · exact hx
          · exact absurd (List.mem_singleton.mp hx ▸ hpx) ha
        obtain ⟨pre, b, post, rfl, hb, hpost⟩ := ih ⟨x, hxl, hpx⟩
        refine ⟨pre, b, post ++ [a], by simp, hb, fun y hy => ?_⟩
        rcases List.mem_append.mp hy with hy | hy
        · exact hpost y hy
        · exact List.mem_singleton.mp hy ▸ ha

/-- In front of an element of a list that increases strictly by `f` stand exactly the smaller ones. -/
theorem mem_front_iff {f : α → Nat} {pre post : List α} {b x : α}
    (h : (pre ++ b :: post).Pairwise fun a b => f a < f b) :
    x ∈ pre ↔ x ∈ pre ++ b :: post ∧ f x < f b := by
  obtain ⟨-, hpost, hpre⟩ := List.pairwise_append.mp h
  constructor
  · intro hx
    exact ⟨List.mem_append_left _ hx, hpre x hx b List.mem_cons_self⟩
  · rintro ⟨hx, hlt⟩
    rcases List.mem_append.mp hx with hx | hx
    · exact hx
    · rcases List.mem_cons.mp hx with rfl | hx
      · omega
      · have := (List.pairwise_cons.mp hpost).1 x hx
        omega

theorem mem_between {before between after : List α} {w r e : α} {i : Nat}
    (hget : (before ++ w :: (between ++ r :: after))[i]? = some e) (hlt : before.length < i)
    (hbound : i < before.length + 1 + between.length) : e ∈ between := by
  obtain ⟨n, rfl⟩ : ∃ n, i = before.length + (n + 1) := ⟨i - before.length - 1, by omega⟩
  rw [List.getElem?_append_right (by omega), Nat.add_sub_cancel_left, List.getElem?_cons_succ,
    List.getElem?_append_left (by omega)] at hget
  exact List.mem_of_getElem? hget

theorem filterMap_set (f : α → Option β) {l : List α} {i : Nat} {x y : α} (hx : l[i]? = some x) (hf : f y = f x) :
    (l.set i y).filterMap f = l.filterMap f := by
  induction l generalizing i with
  | nil => rfl
  | cons a l ih =>
      cases i with
      | zero =>
          obtain rfl : a = x := by simpa using hx
          rw [List.set_cons_zero, List.filterMap_cons, List.filterMap_cons, hf]
      | succ i => rw [List.set_cons_succ, List.filterMap_cons, List.filterMap_cons, ih (by simpa using hx)]

theorem index_unique_of_nodup_filterMap {f : α → Option β} {l : List α} (h : (l.filterMap f).Nodup)
    {i j : Nat} {a a' : α} {b : β} (hi : l[i]? = some a) (hj : l[j]? = some a') (ha : f a = some b)
    (ha' : f a' = some b) : i = j := by
  have hpair := List.pairwise_iff_getElem.mp (List.pairwise_filterMap.mp h)
  obtain ⟨hilen, rfl⟩ := List.getElem?_eq_some_iff.mp hi
  obtain ⟨hjlen, rfl⟩ := List.getElem?_eq_some_iff.mp hj
  rcases Nat.lt_trichotomy i j with hlt | heq | hgt
  · exact absurd rfl (hpair i j hilen hjlen hlt b ha b ha')
  · exact heq
  · exact absurd rfl (hpair j i hjlen hilen hgt b ha' b ha)

theorem mem_of_full {ids : List Int} {n : Int} (hnodup : ids.Nodup) (hrange : ∀ id ∈ ids, 0 ≤ id ∧ id < n)
    (hfull : (ids.length : Int) = n) {i : Int} (h₀ : 0 ≤ i) (hn : i < n) : i ∈ ids := by
  have hsub : ids.Subperm ((List.range n.toNat).map Int.ofNat) := by
    refine List.subperm_of_subset hnodup fun id hid => ?_
    obtain ⟨hid₀, hidn⟩ := hrange id hid
    exact List.mem_map.mpr ⟨id.toNat, List.mem_range.mpr (by omega), Int.toNat_of_nonneg hid₀⟩
  have hperm := hsub.perm_of_length_le (by rw [List.length_map, List.length_range]; omega)
  rw [hperm.mem_iff]
  exact List.mem_map.mpr ⟨i.toNat, List.mem_range.mpr (by omega), Int.toNat_of_nonneg h₀⟩

theorem exists_lt_notMem {l : List Nat} {n : Nat} (hlength : l.length < n) : ∃ i < n, i ∉ l := by
  by_contra hall
  push Not at hall
  have hsub : (List.range n).Subperm l := List.subperm_of_subset List.nodup_range fun i hi =>
    hall i (List.mem_range.mp hi)
  have hle := hsub.length_le
  rw [List.length_range] at hle
  omega

/-- A stable sort keeps a relation between earlier and later elements that holds of every pair it may swap. -/
theorem pairwise_insertionSort_of_swap {r : α → α → Prop} [DecidableRel r] {q : α → α → Prop}
    (hswap : ∀ a b, ¬ r a b → q b a) {l : List α} (hl : l.Pairwise q) : (l.insertionSort r).Pairwise q := by
  have hinsert : ∀ (a : α) (l : List α), (∀ b ∈ l, q a b) → l.Pairwise q → (l.orderedInsert r a).Pairwise q := by
    intro a l
    induction l with
    | nil => simp
    | cons b l ih =>
        intro ha hl
        obtain ⟨hb, hrest⟩ := List.pairwise_cons.mp hl
        rw [List.orderedInsert_cons]
        split_ifs with hab
        · exact List.pairwise_cons.mpr ⟨ha, hl⟩
        · refine List.pairwise_cons.mpr ⟨fun c hc => ?_, ih (fun c hc => ha c (List.mem_cons_of_mem _ hc)) hrest⟩
          rcases (List.mem_orderedInsert r).mp hc with rfl | hc
          · exact hswap _ _ hab
          · exact hb c hc
  induction l with
  | nil => exact List.Pairwise.nil
  | cons a l ih =>
      obtain ⟨ha, hrest⟩ := List.pairwise_cons.mp hl
      exact hinsert a _ (fun b hb => ha b ((l.perm_insertionSort r).mem_iff.mp hb)) (ih hrest)

theorem filterMap_eq_self_iff (f : α → Option α) (l : List α) : l.filterMap f = l ↔ ∀ x ∈ l, f x = some x := by
  constructor
  · intro h
    induction l with
    | nil => simp
    | cons a l ih =>
        cases hfa : f a with
        | none =>
            rw [List.filterMap_cons_none hfa] at h
            have hlen := congrArg List.length h
            have hle := List.length_filterMap_le f l
            rw [List.length_cons] at hlen
            omega
        | some b =>
            rw [List.filterMap_cons_some hfa] at h
            obtain ⟨rfl, htail⟩ := List.cons.inj h
            exact List.forall_mem_cons.mpr ⟨hfa, ih htail⟩
  · intro h
    rw [List.filterMap_congr h, List.filterMap_some]

section OneChange

variable {σ : Type} {l l' : List α}

theorem split_of_one_change (hlen : l.length = l'.length) (h : ∃! i : Nat, l[i]? ≠ l'[i]?) :
    ∃ before a b after, l = before ++ a :: after ∧ l' = before ++ b :: after ∧ a ≠ b := by
  obtain ⟨i, hi, hother⟩ := h
  have hlt : i < l.length := by
    by_contra hge
    rw [List.getElem?_eq_none (by omega), List.getElem?_eq_none (by omega)] at hi
    exact hi rfl
  have heq : ∀ j, j ≠ i → l[j]? = l'[j]? := fun j hj => by_contra fun hne => hj (hother j hne)
  have hbefore : l.take i = l'.take i := by
    apply List.ext_getElem?
    intro j
    simp only [List.getElem?_take]
    split_ifs with hj
    · exact heq j (by omega)
    · rfl
  have hafter : l.drop (i + 1) = l'.drop (i + 1) := by
    apply List.ext_getElem?
    intro j
    simp only [List.getElem?_drop]
    exact heq _ (by omega)
  refine ⟨l.take i, l[i], l'[i], l.drop (i + 1), ?_, ?_, ?_⟩
  · rw [List.getElem_cons_drop, List.take_append_drop]
  · rw [hbefore, hafter, List.getElem_cons_drop, List.take_append_drop]
  · intro hab
    rw [List.getElem?_eq_getElem hlt, List.getElem?_eq_getElem (hlen ▸ hlt), hab] at hi
    exact hi rfl

theorem foldl_injective {f : σ → α → σ} (hstate : ∀ a, Function.Injective fun s => f s a) :
    ∀ l : List α, Function.Injective fun s => l.foldl f s
  | [] => Function.injective_id
  | a :: l => (foldl_injective hstate l).comp (hstate a)

/-- **A fold whose step loses neither the state nor the element separates lists that differ in one place.** -/
theorem foldl_ne_of_one_change {f : σ → α → σ} (hstate : ∀ a, Function.Injective fun s => f s a)
    (helem : ∀ s, Function.Injective (f s)) (hlen : l.length = l'.length) (h : ∃! i : Nat, l[i]? ≠ l'[i]?) (s : σ) :
    l.foldl f s ≠ l'.foldl f s := by
  obtain ⟨before, a, b, after, rfl, rfl, hab⟩ := split_of_one_change hlen h
  rw [List.foldl_append, List.foldl_append, List.foldl_cons, List.foldl_cons]
  intro hfold
  apply hab
  apply helem (before.foldl f s)
  exact foldl_injective hstate after hfold

end OneChange

/-! ## Parts told apart by a tag -/

/-- Parts without repetitions, each with a tag of its own on all its elements, have none together. -/
theorem nodup_flatMap_of_tag {γ : Type} {l : List α} {f : α → List β} (tag : α → γ) (read : β → γ)
    (hread : ∀ a ∈ l, ∀ b ∈ f a, read b = tag a) (htags : (l.map tag).Nodup) (hparts : ∀ a ∈ l, (f a).Nodup) :
    (l.flatMap f).Nodup := by
  refine List.nodup_flatMap.mpr ⟨hparts, ?_⟩
  refine (List.pairwise_map.mp htags).imp_of_mem ?_
  intro a a' ha ha' hne b hb hb'
  exact hne ((hread a ha b hb).symm.trans (hread a' ha' b hb'))

/-! ## Interleavings -/

/-- The elements of `xs` in order, among them the first ones of `ys` as chosen (`true` takes one of `ys`), and what is
left of `ys`. -/
def weave : List Bool → List α → List β → List (α ⊕ β) × List β
  | [], xs, ys => (xs.map .inl, ys)
  | true :: choices, xs, y :: ys => (.inr y :: (weave choices xs ys).1, (weave choices xs ys).2)
  | true :: choices, xs, [] => weave choices xs []
  | false :: choices, x :: xs, ys => (.inl x :: (weave choices xs ys).1, (weave choices xs ys).2)
  | false :: choices, [], ys => weave choices [] ys

theorem weave_lefts (choices : List Bool) (xs : List α) (ys : List β) :
    (weave choices xs ys).1.filterMap Sum.getLeft? = xs := by
  fun_induction weave choices xs ys with
  | case1 xs ys => simp [List.filterMap_map, Function.comp_def]
  | case2 choices xs y ys ih => exact ih
  | case3 choices xs ih => exact ih
  | case4 choices x xs ys ih => exact congrArg (x :: ·) ih
  | case5 choices ys ih => exact ih

theorem weave_rights (choices : List Bool) (xs : List α) (ys : List β) :
    (weave choices xs ys).1.filterMap Sum.getRight? ++ (weave choices xs ys).2 = ys := by
  fun_induction weave choices xs ys with
  | case1 xs ys => simp [List.filterMap_map, Function.comp_def]
  | case2 choices xs y ys ih => exact congrArg (y :: ·) ih
  | case3 choices xs ih => exact ih
  | case4 choices x xs ys ih => exact ih
  | case5 choices ys ih => exact ih

end Lib
