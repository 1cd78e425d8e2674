import Mathlib.Algebra.BigOperators.Group.Finset.Basic
import Mathlib.Algebra.BigOperators.Group.Finset.Piecewise
import Mathlib.Data.Int.ConditionallyCompleteOrder
import Mathlib.Data.Int.Interval
import Mathlib.Data.Int.SuccPred
import Mathlib.Data.List.Sort
import Mathlib.Order.ConditionallyCompletePartialOrder.Defs

/-!
# Integer streams: gaps, repeats and descents

Three tallies over a list of integers read as a numbered stream, and the streams on which all three
vanish.

* `gaps` counts the integers of `[lowest, highest]` that do not occur (`gaps_eq_card`);
* `repeats` counts the elements beyond the first of each value (`repeats_eq_zero`);
* `descents` counts the adjacent pairs that go down (`descents_eq_zero`, `descents_concat`);
* `Consecutive` : every element is the previous one plus one. `clean_iff_consecutive` : a nonempty
  stream has no gap, no repeat and no descent exactly when it is consecutive, and
  `consecutive_iff` : exactly when it is strictly increasing and convex (`Convex`);
* `consecutive_filter_iff` : a part of a consecutive stream stays consecutive exactly when nothing is
  left out between two elements of the part; `forall_consecutive_filter_iff` : the same on every key;
* `gaps_filter` : its gaps are what is left out there; `sum_countP_keys` : counting key by key.
-/

namespace Lib

/-- The minimum of a nonempty list, as a running minimum from its head. -/
def lowest (s : List Int) : Int := s.foldl (fun m x => if x < m then x else m) (s.headD 0)

/-- The maximum of a nonempty list, as a running maximum from its head. -/
def highest (s : List Int) : Int := s.foldl (fun m x => if x > m then x else m) (s.headD 0)

/-- Integers between the extremes of the stream that do not occur in it. -/
def gaps (s : List Int) : Int := (highest s - lowest s + 1) - s.dedup.length

/-- Elements that repeat a value seen before. -/
def repeats (s : List Int) : Int := s.length - s.dedup.length

/-- Adjacent pairs that go down. -/
def descents : List Int → Int
  | [] => 0
  | [_] => 0
  | a :: b :: s => (if b < a then 1 else 0) + descents (b :: s)

/-- Every element is the previous one plus one. -/
def Consecutive (s : List Int) : Prop := s.IsChain fun a b => b = a + 1

instance (s : List Int) : Decidable (Consecutive s) :=
  inferInstanceAs (Decidable (s.IsChain fun a b => b = a + 1))

/-- Every integer between two elements occurs. -/
def Convex (s : List Int) : Prop := ∀ a ∈ s, ∀ b ∈ s, ∀ x, a ≤ x → x ≤ b → x ∈ s

/-- The stream `1, 2, ..., n`. -/
def upTo (n : Nat) : List Int := (List.range n).map fun i : Nat => (i : Int) + 1

/-! ## The extremes -/

/-- A running extreme: `f` keeps one of its arguments, the one that bounds both in the order `R`. -/
theorem foldl_extreme {R : Int → Int → Prop} [IsPreorder Int R] {f : Int → Int → Int}
    (hf : ∀ m x, R (f m x) m ∧ R (f m x) x ∧ (f m x = m ∨ f m x = x)) (s : List Int) (m : Int) :
    (∀ x ∈ m :: s, R (s.foldl f m) x) ∧ s.foldl f m ∈ m :: s := by
  induction s generalizing m with
  | nil =>
      refine ⟨fun x hx => ?_, List.mem_cons_self⟩
      obtain rfl := List.mem_singleton.mp hx
      exact refl x
  | cons a s ih =>
      obtain ⟨hle, hmem⟩ := ih (f m a)
      obtain ⟨hm, ha, heq⟩ := hf m a
      have hhead := hle _ List.mem_cons_self
      rw [List.foldl_cons]
      refine ⟨fun x hx => ?_, ?_⟩
      · rcases List.mem_cons.mp hx with rfl | hx
        · exact IsTrans.trans _ _ _ hhead hm
        · rcases List.mem_cons.mp hx with rfl | hx
          · exact IsTrans.trans _ _ _ hhead ha
          · exact hle x (List.mem_cons_of_mem _ hx)
      · rcases List.mem_cons.mp hmem with h | h
        · rw [h]
          rcases heq with heq | heq <;> simp [heq]
        · exact List.mem_cons_of_mem _ (List.mem_cons_of_mem _ h)

theorem lowest_spec (s : List Int) : (∀ x ∈ s.headD 0 :: s, lowest s ≤ x) ∧ lowest s ∈ s.headD 0 :: s :=
  foldl_extreme (R := fun a b => a ≤ b) (fun m x => by split <;> omega) s _

theorem highest_spec (s : List Int) : (∀ x ∈ s.headD 0 :: s, x ≤ highest s) ∧ highest s ∈ s.headD 0 :: s :=
  foldl_extreme (R := fun a b => b ≤ a) (fun m x => by split <;> omega) s _

theorem lowest_le {s : List Int} {x : Int} (hx : x ∈ s) : lowest s ≤ x :=
  (lowest_spec s).1 x (List.mem_cons_of_mem _ hx)

theorem le_highest {s : List Int} {x : Int} (hx : x ∈ s) : x ≤ highest s :=
  (highest_spec s).1 x (List.mem_cons_of_mem _ hx)

theorem lowest_mem {s : List Int} (hs : s ≠ []) : lowest s ∈ s := by
  cases s with
  | nil => exact absurd rfl hs
  | cons a s => simpa using (lowest_spec (a :: s)).2

theorem highest_mem {s : List Int} (hs : s ≠ []) : highest s ∈ s := by
  cases s with
  | nil => exact absurd rfl hs
  | cons a s => simpa using (highest_spec (a :: s)).2

/-! ## Gaps -/

theorem gaps_eq_card {s : List Int} (hs : s ≠ []) :
    gaps s = ((Finset.Icc (lowest s) (highest s)).filter fun x => x ∉ s).card := by
  have hle : lowest s ≤ highest s := lowest_le (highest_mem hs)
  have hsplit := Finset.card_filter_add_card_filter_not (s := Finset.Icc (lowest s) (highest s)) fun x => x ∈ s
  have hmem : (Finset.Icc (lowest s) (highest s)).filter (fun x => x ∈ s) = s.toFinset := by
    ext x
    simp only [Finset.mem_filter, Finset.mem_Icc, List.mem_toFinset, and_iff_right_iff_imp]
    exact fun hx => ⟨lowest_le hx, le_highest hx⟩
  rw [hmem, List.card_toFinset, Int.card_Icc] at hsplit
  unfold gaps
  omega

theorem gaps_nonneg {s : List Int} (hs : s ≠ []) : 0 ≤ gaps s := by
  rw [gaps_eq_card hs]
  exact Int.natCast_nonneg _

theorem gaps_eq_zero {s : List Int} (hs : s ≠ []) : gaps s = 0 ↔ Convex s := by
  rw [gaps_eq_card hs, Int.natCast_eq_zero, Finset.card_eq_zero, Finset.filter_eq_empty_iff]
  simp only [Finset.mem_Icc, not_not, and_imp]
  constructor
  · intro h a ha b hb x hax hxb
    exact h (le_trans (lowest_le ha) hax) (le_trans hxb (le_highest hb))
  · intro h x hlo hhi
    exact h _ (lowest_mem hs) _ (highest_mem hs) x hlo hhi

/-! ## Repeats -/

theorem repeats_nonneg (s : List Int) : 0 ≤ repeats s := by
  have := s.dedup_sublist.length_le
  unfold repeats
  omega

theorem repeats_eq_zero {s : List Int} : repeats s = 0 ↔ s.Nodup := by
  have hle := s.dedup_sublist.length_le
  constructor
  · intro h
    have hlen : s.length ≤ s.dedup.length := by
      unfold repeats at h
      omega
    rw [← s.dedup_sublist.eq_of_length_le hlen]
    exact s.nodup_dedup
  · intro h
    unfold repeats
    rw [h.dedup]
    omega

/-! ## Descents -/

theorem descents_nonneg : ∀ s : List Int, 0 ≤ descents s
  | [] => le_refl 0
  | [_] => le_refl 0
  | a :: b :: s => by
      have := descents_nonneg (b :: s)
      unfold descents
      split <;> omega

theorem descents_eq_zero : ∀ {s : List Int}, descents s = 0 ↔ s.SortedLE
  | [] => by simp [descents, List.sortedLE_iff_isChain]
  | [a] => by simp [descents, List.sortedLE_iff_isChain]
  | a :: b :: s => by
      have ih := descents_eq_zero (s := b :: s)
      have hnonneg := descents_nonneg (b :: s)
      rw [List.sortedLE_iff_isChain] at ih ⊢
      rw [List.isChain_cons_cons, ← ih, descents]
      split <;> omega

theorem descents_concat (s : List Int) (x : Int) :
    descents (s ++ [x]) = descents s + (if ∃ a ∈ s.getLast?, x < a then 1 else 0) := by
  induction s with
  | nil => simp [descents]
  | cons a s ih =>
      cases s with
      | nil => simp [descents]
      | cons b s =>
          rw [List.cons_append, List.cons_append, descents, ← List.cons_append, ih, descents,
            List.getLast?_cons_cons, Int.add_assoc]

/-! ## Consecutive streams -/

theorem Consecutive.sortedLT {s : List Int} (h : Consecutive s) : s.SortedLT := by
  rw [List.sortedLT_iff_isChain]
  exact h.imp fun a b hab => by omega

theorem Consecutive.upTo : ∀ {s : List Int} {a : Int}, Consecutive (a :: s) →
    ∀ b ∈ a :: s, ∀ x, a ≤ x → x ≤ b → x ∈ a :: s
  | [], a, _, b, hb, x, hax, hxb => by
      obtain rfl := List.mem_singleton.mp hb
      have : x = b := by omega
      simp [this]
  | c :: s, a, h, b, hb, x, hax, hxb => by
      obtain ⟨rfl, htail⟩ := List.isChain_cons_cons.mp h
      by_cases hx : x = a
      · simp [hx]
      · rcases List.mem_cons.mp hb with rfl | hb
        · omega
        · exact List.mem_cons_of_mem _ (Consecutive.upTo htail b hb x (by omega) hxb)

theorem Consecutive.convex : ∀ {s : List Int}, Consecutive s → Convex s
  | [], _, a, ha, _, _, _, _, _ => absurd ha List.not_mem_nil
  | c :: s, h, a, ha, b, hb, x, hax, hxb => by
      have hca : c ≤ a := by
        rcases List.mem_cons.mp ha with rfl | ha
        · exact le_refl _
        · have := (List.pairwise_cons.mp (List.sortedLT_iff_pairwise.mp h.sortedLT)).1 a ha
          omega
      exact h.upTo b hb x (by omega) hxb

theorem consecutive_of_convex : ∀ {s : List Int}, s.SortedLT → Convex s → Consecutive s
  | [], _, _ => List.IsChain.nil
  | [_], _, _ => List.IsChain.singleton _
  | a :: b :: s, hs, hc => by
      have hpair := List.sortedLT_iff_pairwise.mp hs
      obtain ⟨hhead, htail⟩ := List.pairwise_cons.mp hpair
      have hab : a < b := hhead b List.mem_cons_self
      refine List.isChain_cons_cons.mpr ⟨?_, consecutive_of_convex (List.sortedLT_iff_pairwise.mpr htail) ?_⟩
      · have hmem := hc a List.mem_cons_self b (by simp) (a + 1) (by omega) (by omega)
        have hne : a + 1 ≠ a := by omega
        rcases List.mem_cons.mp ((List.mem_cons.mp hmem).resolve_left hne) with h | h
        · exact h.symm
        · have := (List.pairwise_cons.mp htail).1 _ h
          omega
      · intro c hcm d hdm x hcx hxd
        have hac := hhead c hcm
        have hx := hc c (List.mem_cons_of_mem _ hcm) d (List.mem_cons_of_mem _ hdm) x hcx hxd
        exact (List.mem_cons.mp hx).resolve_left (by omega)

theorem consecutive_iff {s : List Int} : Consecutive s ↔ s.SortedLT ∧ Convex s :=
  ⟨fun h => ⟨h.sortedLT, h.convex⟩, fun h => consecutive_of_convex h.1 h.2⟩

/-- **The three tallies vanish exactly on the consecutive streams.** -/
theorem clean_iff_consecutive {s : List Int} (hs : s ≠ []) :
    (gaps s = 0 ∧ repeats s = 0 ∧ descents s = 0) ↔ Consecutive s := by
  rw [gaps_eq_zero hs, repeats_eq_zero, descents_eq_zero, consecutive_iff, List.sortedLT_iff_nodup_and_sortedLE]
  tauto

/-! ## Parts of a consecutive stream -/

section Part
variable {α : Type} {f : α → Int}

theorem pairwise_of_sortedLT {l : List α} (h : (l.map f).SortedLT) : l.Pairwise fun a b => f a < f b :=
  List.pairwise_map.mp (List.sortedLT_iff_pairwise.mp h)

theorem eq_of_sortedLT {l : List α} (h : (l.map f).SortedLT) {a b : α} (ha : a ∈ l) (hb : b ∈ l) (hab : f a = f b) :
    a = b := by
  have hnodup : (l.map f).Nodup := (List.sortedLT_iff_nodup_and_sortedLE.mp h).1
  exact List.inj_on_of_nodup_map hnodup ha hb hab

theorem sublist_of_sortedLT {l : List α} (h : (l.map f).SortedLT) {a b c : α} (ha : a ∈ l) (hc : c ∈ l) (hb : b ∈ l)
    (hac : f a < f c) (hcb : f c < f b) : [a, c, b].Sublist l := by
  have hanti : Std.Antisymm fun a b : α => f a < f b := ⟨fun a b hab hba => absurd hab (by omega)⟩
  have hpair : [a, c, b].Pairwise fun a b => f a < f b := by
    simp only [List.pairwise_cons, List.mem_cons, List.not_mem_nil, or_false, forall_eq_or_imp, forall_eq]
    exact ⟨⟨hac, by omega⟩, hcb, fun _ h => h.elim, List.Pairwise.nil⟩
  have hnodup : [a, c, b].Nodup := hpair.imp fun hlt heq => by rw [heq] at hlt; omega
  refine List.sublist_of_subperm_of_pairwise (hnodup.subperm fun x hx => ?_) hpair (pairwise_of_sortedLT h)
  simp only [List.mem_cons, List.not_mem_nil, or_false] at hx
  rcases hx with rfl | rfl | rfl <;> assumption

/-- **A part of a consecutive stream is consecutive exactly when nothing is left out between two of
its elements.** -/
theorem consecutive_filter_iff {l : List α} (h : Consecutive (l.map f)) (p : α → Bool) :
    Consecutive ((l.filter p).map f) ↔ ∀ a c b, [a, c, b].Sublist l → p a → p b → p c := by
  have hsorted := h.sortedLT
  rw [consecutive_iff]
  constructor
  · rintro ⟨-, hconvex⟩ a c b hsub hpa hpb
    have hpair := (pairwise_of_sortedLT hsorted).sublist hsub
    simp only [List.pairwise_cons, List.mem_cons, List.not_mem_nil, or_false, forall_eq_or_imp, forall_eq] at hpair
    have hmem : ∀ x ∈ [a, c, b], x ∈ l := fun x hx => hsub.subset hx
    have hfa : f a ∈ (l.filter p).map f := List.mem_map_of_mem (List.mem_filter.mpr ⟨hmem a (by simp), hpa⟩)
    have hfb : f b ∈ (l.filter p).map f := List.mem_map_of_mem (List.mem_filter.mpr ⟨hmem b (by simp), hpb⟩)
    obtain ⟨c', hc', heq⟩ := List.mem_map.mp (hconvex _ hfa _ hfb (f c) (by omega) (by omega))
    obtain ⟨hc'l, hpc'⟩ := List.mem_filter.mp hc'
    rwa [eq_of_sortedLT hsorted hc'l (hmem c (by simp)) heq] at hpc'
  · intro hbetween
    refine ⟨?_, fun x hx y hy z hxz hzy => ?_⟩
    · rw [List.sortedLT_iff_pairwise] at hsorted ⊢
      exact hsorted.sublist (List.filter_sublist.map f)
    · obtain ⟨a, ha, rfl⟩ := List.mem_map.mp hx
      obtain ⟨b, hb, rfl⟩ := List.mem_map.mp hy
      obtain ⟨hal, hpa⟩ := List.mem_filter.mp ha
      obtain ⟨hbl, hpb⟩ := List.mem_filter.mp hb
      obtain ⟨c, hcl, rfl⟩ := List.mem_map.mp
        (h.convex _ (List.mem_map_of_mem hal) _ (List.mem_map_of_mem hbl) z hxz hzy)
      by_cases hca : f c = f a
      · rwa [hca]
      by_cases hcb : f c = f b
      · rwa [hcb]
      have hsub := sublist_of_sortedLT hsorted hal hcl hbl (by omega) (by omega)
      exact List.mem_map_of_mem (List.mem_filter.mpr ⟨hcl, hbetween a c b hsub hpa hpb⟩)

/-- The same for a list of streams, one for every key: the part is consecutive on every key exactly when
nothing is left out between two of its elements with one key. -/
theorem forall_consecutive_filter_iff {κ : Type} [DecidableEq κ] {l : List α} {key : α → κ}
    (h : ∀ k, Consecutive ((l.filter fun a => key a = k).map f)) (p : α → Bool) :
    (∀ k, Consecutive (((l.filter fun a => key a = k).filter p).map f)) ↔
      ∀ a c b, [a, c, b].Sublist l → key a = key c → key c = key b → p a → p b → p c := by
  constructor
  · intro hpart a c b hsub hac hcb
    refine (consecutive_filter_iff (h (key a)) p).mp (hpart (key a)) a c b ?_
    have := hsub.filter fun x => key x = key a
    simpa [hac, hcb] using this
  · intro hbetween k
    rw [consecutive_filter_iff (h k)]
    intro a c b hsub
    have hkeys : ∀ x ∈ [a, c, b], key x = k := fun x hx => by simpa using (List.mem_filter.mp (hsub.subset hx)).2
    exact hbetween a c b (hsub.trans List.filter_sublist) ((hkeys a (by simp)).trans (hkeys c (by simp)).symm)
      ((hkeys c (by simp)).trans (hkeys b (by simp)).symm)

/-- An element of `l` that `p` leaves out, between two that it keeps. -/
def Enclosed (f : α → Int) (l : List α) (p : α → Bool) (c : α) : Prop :=
  p c = false ∧ (∃ a ∈ l, p a = true ∧ f a < f c) ∧ ∃ b ∈ l, p b = true ∧ f c < f b

instance (l : List α) (p : α → Bool) (c : α) : Decidable (Enclosed f l p c) := inferInstanceAs (Decidable (_ ∧ _ ∧ _))

/-- **The gaps of a part of a consecutive stream are what is left out between two of its elements.** -/
theorem gaps_filter {l : List α} (h : Consecutive (l.map f)) (p : α → Bool) (hne : l.filter p ≠ []) :
    gaps ((l.filter p).map f) = l.countP fun c => Enclosed f l p c := by
  have hpart : (l.filter p).map f ≠ [] := fun hnil => hne (List.map_eq_nil_iff.mp hnil)
  have hnodup : ((l.filter fun c => Enclosed f l p c).map f).Nodup :=
    (List.sortedLT_iff_nodup_and_sortedLE.mp h.sortedLT).1.sublist (List.filter_sublist.map f)
  have hset : ((Finset.Icc (lowest ((l.filter p).map f)) (highest ((l.filter p).map f))).filter fun x =>
      x ∉ (l.filter p).map f) = ((l.filter fun c => Enclosed f l p c).map f).toFinset := by
    ext x
    simp only [Finset.mem_filter, Finset.mem_Icc, List.mem_toFinset]
    constructor
    · rintro ⟨⟨hlow, hhigh⟩, hout⟩
      obtain ⟨a, ha, hlowest⟩ := List.mem_map.mp (lowest_mem hpart)
      obtain ⟨b, hb, hhighest⟩ := List.mem_map.mp (highest_mem hpart)
      obtain ⟨hal, hpa⟩ := List.mem_filter.mp ha
      obtain ⟨hbl, hpb⟩ := List.mem_filter.mp hb
      obtain ⟨c, hcl, rfl⟩ := List.mem_map.mp (h.convex _ (List.mem_map_of_mem hal) _ (List.mem_map_of_mem hbl) x
        (hlowest.trans_le hlow) (hhigh.trans_eq hhighest.symm))
      have hpc : p c = false := by
        by_contra hpc
        exact hout (List.mem_map_of_mem (List.mem_filter.mpr ⟨hcl, by simpa using hpc⟩))
      refine List.mem_map_of_mem (List.mem_filter.mpr ⟨hcl, decide_eq_true ⟨hpc, ⟨a, hal, hpa, ?_⟩, b, hbl, hpb, ?_⟩⟩)
      · refine lt_of_le_of_ne (hlowest.trans_le hlow) fun heq => hout ?_
        rw [← heq]
        exact List.mem_map_of_mem ha
      · refine lt_of_le_of_ne (hhigh.trans_eq hhighest.symm) fun heq => hout ?_
        rw [heq]
        exact List.mem_map_of_mem hb
    · intro hx
      obtain ⟨c, hc, rfl⟩ := List.mem_map.mp hx
      obtain ⟨hcl, henclosed⟩ := List.mem_filter.mp hc
      obtain ⟨hpc, ⟨a, hal, hpa, hac⟩, b, hbl, hpb, hcb⟩ := of_decide_eq_true henclosed
      have hlow := lowest_le (List.mem_map_of_mem (f := f) (List.mem_filter.mpr ⟨hal, hpa⟩))
      have hhigh := le_highest (List.mem_map_of_mem (f := f) (List.mem_filter.mpr ⟨hbl, hpb⟩))
      refine ⟨⟨by omega, by omega⟩, fun hin => ?_⟩
      obtain ⟨d, hd, hdc⟩ := List.mem_map.mp hin
      obtain ⟨hdl, hpd⟩ := List.mem_filter.mp hd
      rw [eq_of_sortedLT h.sortedLT hdl hcl hdc, hpc] at hpd
      cases hpd
  rw [gaps_eq_card hpart, hset, List.toFinset_card_of_nodup hnodup, List.length_map, List.countP_eq_length_filter]

theorem sum_countP_keys {κ : Type} [DecidableEq κ] (key : α → κ) (q : α → Bool) (keys : Finset κ) (l : List α)
    (hkeys : ∀ a ∈ l, q a = true → key a ∈ keys) :
    ∑ k ∈ keys, (l.filter fun a => key a = k).countP q = l.countP q := by
  induction l with
  | nil => simp
  | cons a l ih =>
      rw [List.forall_mem_cons] at hkeys
      have hone : ∀ k, ((a :: l).filter fun a => key a = k).countP q =
          (if key a = k then (if q a then 1 else 0) else 0) + (l.filter fun a => key a = k).countP q := by
        intro k
        by_cases hk : key a = k <;> by_cases hq : q a <;> simp [hk, hq, Nat.add_comm]
      rw [Finset.sum_congr rfl fun k _ => hone k, Finset.sum_add_distrib, ih hkeys.2, Finset.sum_ite_eq,
        List.countP_cons, Nat.add_comm]
      by_cases hq : q a = true
      · simp [hq, hkeys.1 hq]
      · simp [hq]

end Part

/-! ## The stream `1, 2, ..., n` -/

theorem upTo_succ (n : Nat) : upTo (n + 1) = upTo n ++ [(n : Int) + 1] := by
  simp [upTo, List.range_succ]

theorem mem_upTo {n : Nat} {x : Int} : x ∈ upTo n ↔ 1 ≤ x ∧ x ≤ n := by
  simp only [upTo, List.mem_map, List.mem_range]
  constructor
  · rintro ⟨i, hi, rfl⟩
    omega
  · rintro ⟨h1, hn⟩
    exact ⟨(x - 1).toNat, by omega, by omega⟩

theorem consecutive_upTo (n : Nat) : Consecutive (upTo n) := by
  refine consecutive_of_convex ?_ fun a ha b hb x hax hxb => ?_
  · rw [List.sortedLT_iff_pairwise, upTo, List.pairwise_map]
    exact List.pairwise_lt_range.imp fun h => by omega
  · rw [mem_upTo] at ha hb ⊢
    omega

end Lib
