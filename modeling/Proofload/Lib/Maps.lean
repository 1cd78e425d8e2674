import Mathlib.Data.List.AList
import Mathlib.Data.List.Induction
import Mathlib.Data.List.Perm.Basic

/-!
# Finite maps and their iteration orders

A finite map is an association list with distinct keys (`AList`). A `range` loop visits the keys in
an order the language leaves open: `IterOrder` is any choice of it, one permutation for every key
list.

* `lookup_mergeWith` : a loop that folds one map into another updates every key once, in any order;
* `mapExcept_rel` : a loop that translates every entry keeps the keys;
* `lookup_foldl_push` : a loop that collects values by key;
* `lookup_foldl_accumulate` : a loop that folds values into the entry of their key.
-/

namespace Lib

theorem except_bind_eq_ok {ε α β : Type} {x : Except ε α} {f : α → Except ε β} {b : β} :
    (x >>= f) = .ok b ↔ ∃ a, x = .ok a ∧ f a = .ok b := by
  cases x with
  | error e => simp [bind, Except.bind]
  | ok a => simp [bind, Except.bind]

/-- A finite map from `κ` to `ν`. -/
abbrev Map (κ ν : Type) := AList fun _ : κ => ν

/-- The number of entries. -/
def Map.size {κ ν : Type} (m : Map κ ν) : Nat := m.keys.length

/-- An iteration order over the keys of finite maps. -/
structure IterOrder (κ : Type) where
  order : List κ → List κ
  perm : ∀ l, (order l).Perm l

namespace IterOrder

variable {κ : Type}

/-- The order in which the keys are stored. -/
def stored (κ : Type) : IterOrder κ := ⟨id, fun _ => List.Perm.refl _⟩

theorem mem_order (o : IterOrder κ) {l : List κ} {k : κ} : k ∈ o.order l ↔ k ∈ l := (o.perm l).mem_iff

end IterOrder

namespace Map

variable {κ ν : Type} [DecidableEq κ]

theorem mem_keys_iff (m : Map κ ν) (k : κ) : k ∈ m.keys ↔ (m.lookup k).isSome := by
  rw [AList.lookup_isSome, AList.mem_keys]

theorem lookup_insert_eq (m : Map κ ν) (k k' : κ) (v : ν) :
    (m.insert k v).lookup k' = if k' = k then some v else m.lookup k' := by
  split
  · next h => subst h; exact AList.lookup_insert m
  · next h => exact AList.lookup_insert_ne h

theorem lookup_union_eq (m m' : Map κ ν) (k : κ) : (m ∪ m').lookup k = (m.lookup k).or (m'.lookup k) := by
  by_cases hk : k ∈ m
  · obtain ⟨v, hv⟩ := Option.isSome_iff_exists.mp (AList.lookup_isSome.mpr hk)
    rw [AList.lookup_union_left hk, hv]
    rfl
  · rw [AList.lookup_union_right hk, AList.lookup_eq_none.mpr hk]
    rfl

theorem lookup_erase_eq (m : Map κ ν) (k k' : κ) :
    (m.erase k).lookup k' = if k' = k then none else m.lookup k' := by
  split
  · next h => subst h; exact AList.lookup_erase k' m
  · next h => exact AList.lookup_erase_ne h

variable {ν' : Type}

/-- The loop that folds a map into another: every entry of the source updates the entry of its key. -/
def mergeWith (o : IterOrder κ) (f : Option ν → ν' → ν) (src : Map κ ν') (dst : Map κ ν) : Map κ ν :=
  (o.order src.keys).foldl (fun dst k =>
    match src.lookup k with
    | none => dst
    | some v => dst.insert k (f (dst.lookup k) v)) dst

theorem lookup_mergeWith (o : IterOrder κ) (f : Option ν → ν' → ν) (src : Map κ ν') (dst : Map κ ν) (k : κ) :
    (mergeWith o f src dst).lookup k =
      match src.lookup k with
      | none => dst.lookup k
      | some v => some (f (dst.lookup k) v) := by
  have hloop : ∀ (keys : List κ) (dst : Map κ ν), keys.Nodup → (∀ k ∈ keys, (src.lookup k).isSome) →
      (keys.foldl (fun dst k =>
        match src.lookup k with
        | none => dst
        | some v => dst.insert k (f (dst.lookup k) v)) dst).lookup k =
      if k ∈ keys then (src.lookup k).map (f (dst.lookup k)) else dst.lookup k := by
    intro keys
    induction keys with
    | nil =>
        intro dst _ _
        simp
    | cons a keys ih =>
        intro dst hnodup hsome
        obtain ⟨hnot, hnodup⟩ := List.nodup_cons.mp hnodup
        obtain ⟨v, hv⟩ := Option.isSome_iff_exists.mp (hsome a List.mem_cons_self)
        rw [List.foldl_cons, ih _ hnodup fun k hk => hsome k (List.mem_cons_of_mem a hk), hv]
        dsimp only
        rw [lookup_insert_eq]
        by_cases hk : k = a
        · subst hk
          simp [hnot, hv]
        · simp [hk]
  have hnodup : (o.order src.keys).Nodup := (o.perm _).nodup_iff.mpr src.nodupKeys
  unfold mergeWith
  rw [hloop _ _ hnodup fun k hk => (mem_keys_iff src k).mp (o.mem_order.mp hk)]
  cases hk : src.lookup k with
  | none => rw [if_neg (by rw [o.mem_order, mem_keys_iff, hk]; simp)]
  | some v => rw [if_pos (by rw [o.mem_order, mem_keys_iff, hk]; rfl)]; rfl

variable {ε : Type}

/-- The loop that translates every entry of a map, and fails at the first entry that does not translate. -/
def mapExcept (o : IterOrder κ) (f : κ → ν → Except ε ν') (src : Map κ ν) : Except ε (Map κ ν') :=
  (o.order src.keys).foldlM (fun dst k =>
    match src.lookup k with
    | none => .ok dst
    | some v => (f k v).map (dst.insert k)) ∅

/-- If every entry translates, the result has the same keys, with the translated values. -/
theorem mapExcept_rel (o : IterOrder κ) (f : κ → ν → Except ε ν') (src : Map κ ν) {R : ν → ν' → Prop}
    (h : ∀ k v, src.lookup k = some v → ∃ w, f k v = .ok w ∧ R v w) :
    ∃ dst, mapExcept o f src = .ok dst ∧ ∀ k, Option.Rel R (src.lookup k) (dst.lookup k) := by
  have hloop : ∀ (keys : List κ) (acc : Map κ ν'), keys.Nodup → (∀ k ∈ keys, (src.lookup k).isSome) →
      ∃ dst, keys.foldlM (fun dst k =>
        match src.lookup k with
        | none => Except.ok dst
        | some v => (f k v).map (dst.insert k)) acc = .ok dst ∧
      ∀ k, if k ∈ keys then Option.Rel R (src.lookup k) (dst.lookup k) else dst.lookup k = acc.lookup k := by
    intro keys
    induction keys with
    | nil => exact fun acc _ _ => ⟨acc, rfl, fun k => by simp⟩
    | cons a keys ih =>
        intro acc hnodup hsome
        obtain ⟨hnot, hnodup⟩ := List.nodup_cons.mp hnodup
        obtain ⟨v, hv⟩ := Option.isSome_iff_exists.mp (hsome a List.mem_cons_self)
        obtain ⟨w, hw, hR⟩ := h a v hv
        obtain ⟨dst, hdst, hspec⟩ := ih (acc.insert a w) hnodup fun k hk => hsome k (List.mem_cons_of_mem a hk)
        refine ⟨dst, ?_, fun k => ?_⟩
        · rw [List.foldlM_cons, hv]
          dsimp only
          rw [hw]
          exact hdst
        · have hk := hspec k
          by_cases hka : k = a
          · subst hka
            rw [if_neg hnot, lookup_insert_eq, if_pos rfl] at hk
            rw [if_pos List.mem_cons_self, hv, hk]
            exact .some hR
          · by_cases hmem : k ∈ keys
            · rw [if_pos hmem] at hk
              rw [if_pos (List.mem_cons_of_mem a hmem)]
              exact hk
            · rw [if_neg hmem, lookup_insert_eq, if_neg hka] at hk
              rw [if_neg (by simp [hka, hmem])]
              exact hk
  have hnodup : (o.order src.keys).Nodup := (o.perm _).nodup_iff.mpr src.nodupKeys
  obtain ⟨dst, hdst, hspec⟩ := hloop _ ∅ hnodup fun k hk => (mem_keys_iff src k).mp (o.mem_order.mp hk)
  refine ⟨dst, hdst, fun k => ?_⟩
  have hk := hspec k
  split at hk
  · exact hk
  · next hnot =>
    rw [o.mem_order, mem_keys_iff, Option.not_isSome_iff_eq_none] at hnot
    rw [hnot, hk]
    exact .none

/-! ## Grouping -/

/-- Appends a value to the list of its key. -/
def push (m : Map κ (List ν)) (k : κ) (v : ν) : Map κ (List ν) := m.insert k ((m.lookup k).getD [] ++ [v])

/-- The lists of a map that was filled by `push` are the values of each key, in order; other keys have no list. -/
theorem lookup_foldl_push (key : ν → κ) (vs : List ν) (k : κ) :
    (vs.foldl (fun m v => push m (key v) v) ∅).lookup k =
      if (vs.filter fun v => key v = k) = [] then none else some (vs.filter fun v => key v = k) := by
  induction vs using List.reverseRecOn with
  | nil => rfl
  | append_singleton vs v ih =>
      rw [List.foldl_append, List.foldl_cons, List.foldl_nil, push, lookup_insert_eq, List.filter_append]
      by_cases hk : k = key v
      · subst hk
        rw [if_pos rfl, ih]
        by_cases hnil : (vs.filter fun w => key w = key v) = []
        · simp [hnil]
        · simp [hnil]
      · rw [if_neg hk, ih]
        simp [Ne.symm hk]

/-- Adds a value to what is accumulated for its key, `first` if that is nothing yet. -/
def accumulate {ρ : Type} (first : ν → ρ) (add : ρ → ν → ρ) (m : Map κ ρ) (k : κ) (v : ν) : Map κ ρ :=
  m.insert k (add ((m.lookup k).getD (first v)) v)

theorem lookup_foldl_accumulate {ρ : Type} (first : ν → ρ) (add : ρ → ν → ρ) (key : ν → κ) (vs : List ν) (k : κ) :
    (vs.foldl (fun m v => accumulate first add m (key v) v) ∅).lookup k =
      (vs.filter fun v => key v = k).head?.map fun v => (vs.filter fun v => key v = k).foldl add (first v) := by
  induction vs using List.reverseRecOn with
  | nil => rfl
  | append_singleton vs v ih =>
      rw [List.foldl_append, List.foldl_cons, List.foldl_nil, accumulate, lookup_insert_eq, List.filter_append]
      by_cases hk : k = key v
      · subst hk
        rw [if_pos rfl, ih, List.filter_cons_of_pos (by simp), List.filter_nil]
        cases vs.filter fun w => key w = key v with
        | nil => rfl
        | cons w ws => simp
      · rw [if_neg hk, ih, List.filter_cons_of_neg (by simpa using Ne.symm hk), List.filter_nil, List.append_nil]

end Map

end Lib
