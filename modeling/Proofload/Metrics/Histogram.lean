import Proofload.Domain
import Mathlib.Data.Multiset.Filter
import Mathlib.Data.Multiset.AddSub
import Mathlib.Algebra.Order.BigOperators.Group.List
import Mathlib.Algebra.BigOperators.Group.Finset.Piecewise
import Mathlib.Algebra.BigOperators.Group.Finset.Sigma
import Mathlib.Algebra.Order.BigOperators.Group.Finset

/-!
# Histograms (`hdrhistogram-go`)

The library is a parameter. A `Layout` places values in bins and takes a bin back to a value; recording adds to a
bin, merging records the value of every bin again. The counters are unbounded integers.

* `Layout` : what is assumed of the placement: a bin's own value falls into it, and the range up to the highest
  value is tracked;
* `merge_landing` : what merging does to the bins, for any two geometries;
* `tally` : the histogram of a multiset of values, with `record_tally`, `merge_tally`, `totalCount_tally` and
  `deltaHist_tally` as the meaning of the operations on it.
-/

namespace Proofload.Metrics
open Lib

set_option autoImplicit false

/-! ## The library -/

/-- The parameters of a histogram. -/
structure Geometry where
  low : Int
  high : Int
  sig : Int
deriving DecidableEq

/-- The placement of values: `indexOf` fails where recording a value returns an error. -/
structure Layout where
  bins : Geometry → Nat
  indexOf : Geometry → Int → Option Nat
  valueAt : Geometry → Nat → Int
  indexOf_lt : ∀ {g v i}, indexOf g v = some i → i < bins g
  indexOf_valueAt : ∀ {g i}, i < bins g → indexOf g (valueAt g i) = some i
  tracked : ∀ {g v}, 0 ≤ v → v ≤ g.high → (indexOf g v).isSome = true

/-- A histogram: the counts of its bins, zero outside its range. -/
@[ext] structure Histogram (L : Layout) where
  geometry : Geometry
  counts : Nat → Int
  outside : ∀ i, L.bins geometry ≤ i → counts i = 0

/-- An exported histogram. -/
structure Snapshot where
  geometry : Geometry
  counts : List Int
deriving DecidableEq

variable {L : Layout}

namespace Histogram

def new (L : Layout) (g : Geometry) : Histogram L := ⟨g, fun _ => 0, fun _ _ => rfl⟩

/-- Records `n` occurrences of a value; `none` is the error of a value out of range. -/
def recordValues (h : Histogram L) (v n : Int) : Option (Histogram L) :=
  match hi : L.indexOf h.geometry v with
  | none => none
  | some i =>
      some ⟨h.geometry, Function.update h.counts i (h.counts i + n), fun j hj => by
        have := L.indexOf_lt hi
        rw [Function.update_of_ne (by omega)]
        exact h.outside j hj⟩

/-- Records the value of every used bin again; what is out of range is dropped. -/
def merge (h k : Histogram L) : Histogram L :=
  (List.range (L.bins k.geometry)).foldl
    (fun h i => if k.counts i = 0 then h else (h.recordValues (L.valueAt k.geometry i) (k.counts i)).getD h) h

def totalCount (h : Histogram L) : Int := ((List.range (L.bins h.geometry)).map h.counts).sum

/-- `Export`. -/
def toSnapshot (h : Histogram L) : Snapshot := ⟨h.geometry, (List.range (L.bins h.geometry)).map h.counts⟩

/-- `Import`. -/
def ofSnapshot (L : Layout) (s : Snapshot) : Histogram L :=
  ⟨s.geometry, fun i => if i < L.bins s.geometry then s.counts[i]?.getD 0 else 0, fun _ hi => if_neg (by omega)⟩

end Histogram

/-- `deltaHist`: bin by bin, never below zero. -/
def deltaHist (cur : Histogram L) : Option Snapshot → Histogram L
  | none => .ofSnapshot L cur.toSnapshot
  | some prev =>
      let cs := cur.toSnapshot
      .ofSnapshot L { cs with
        counts := (List.range cs.counts.length).map fun i =>
          let d := cs.counts[i]?.getD 0 - (if i < prev.counts.length then prev.counts[i]?.getD 0 else 0)
          if d < 0 then 0 else d }

/-! ## Operations on bins -/

namespace Histogram

theorem recordValues_of_index {h : Histogram L} {v n : Int} {i : Nat} (hi : L.indexOf h.geometry v = some i) :
    ∃ t, h.recordValues v n = some t ∧ t.geometry = h.geometry ∧
      t.counts = Function.update h.counts i (h.counts i + n) := by
  unfold recordValues
  split
  · next hnone =>
    rw [hnone] at hi
    cases hi
  · next j hj =>
    obtain rfl : j = i := Option.some.inj (hj.symm.trans hi)
    exact ⟨_, rfl, rfl, rfl⟩

theorem recordValues_of_none {h : Histogram L} {v n : Int} (hi : L.indexOf h.geometry v = none) :
    h.recordValues v n = none := by
  unfold recordValues
  split
  · rfl
  · next j hj =>
    rw [hj] at hi
    cases hi

/-- What a bin of a histogram of geometry `g` gains when the value of every bin of `k` is recorded again: `n` bins of
`k` are through. -/
def landing (g : Geometry) (k : Histogram L) (n j : Nat) : Int :=
  ∑ i ∈ Finset.range n, if L.indexOf g (L.valueAt k.geometry i) = some j then k.counts i else 0

/-- **Merging records the value of every bin again**, whatever the geometries are. -/
theorem merge_landing (h k : Histogram L) :
    (h.merge k).geometry = h.geometry ∧
      ∀ j, (h.merge k).counts j = h.counts j + landing h.geometry k (L.bins k.geometry) j := by
  unfold merge
  generalize L.bins k.geometry = n
  induction n with
  | zero => exact ⟨rfl, fun j => by simp [landing]⟩
  | succ n ih =>
      obtain ⟨hgeom, hcounts⟩ := ih
      rw [List.range_succ, List.foldl_append, List.foldl_cons, List.foldl_nil]
      generalize (List.range n).foldl _ h = s at hgeom hcounts ⊢
      have hstep : ∀ j, landing h.geometry k (n + 1) j =
          landing h.geometry k n j + if L.indexOf h.geometry (L.valueAt k.geometry n) = some j then k.counts n else 0 :=
        fun j => Finset.sum_range_succ _ n
      by_cases hzero : k.counts n = 0
      · rw [if_pos hzero]
        refine ⟨hgeom, fun j => ?_⟩
        rw [hcounts, hstep, hzero, ite_self, Int.add_zero]
      · rw [if_neg hzero]
        cases hidx : L.indexOf h.geometry (L.valueAt k.geometry n) with
        | none =>
            rw [recordValues_of_none (by rw [hgeom]; exact hidx), Option.getD_none]
            refine ⟨hgeom, fun j => ?_⟩
            rw [hcounts, hstep, hidx]
            simp
        | some i =>
            obtain ⟨t, ht, htgeom, htcounts⟩ := recordValues_of_index (h := s) (n := k.counts n)
              (by rw [hgeom]; exact hidx)
            rw [ht, Option.getD_some]
            refine ⟨htgeom.trans hgeom, fun j => ?_⟩
            rw [htcounts, hstep, hidx]
            by_cases hj : j = i
            · subst hj
              rw [Function.update_self, hcounts, if_pos rfl]
              omega
            · rw [Function.update_of_ne hj, hcounts, if_neg fun h => hj (Option.some.inj h).symm, Int.add_zero]

/-- **Merging adds bins** for equal geometry: the value of a bin is recorded into the bin it comes from. -/
theorem merge_counts {h k : Histogram L} (hg : h.geometry = k.geometry) :
    (h.merge k).geometry = h.geometry ∧ ∀ i, (h.merge k).counts i = h.counts i + k.counts i := by
  obtain ⟨hgeom, hcounts⟩ := merge_landing h k
  refine ⟨hgeom, fun j => ?_⟩
  have hown : landing h.geometry k (L.bins k.geometry) j =
      ∑ i ∈ Finset.range (L.bins k.geometry), if i = j then k.counts i else 0 := by
    refine Finset.sum_congr rfl fun i hi => ?_
    rw [hg, L.indexOf_valueAt (Finset.mem_range.mp hi)]
    simp
  rw [hcounts j, hown, Finset.sum_ite_eq']
  split
  · rfl
  · next hj => rw [k.outside j (by simpa using hj)]

theorem totalCount_eq_sum (h : Histogram L) : h.totalCount = ∑ i ∈ Finset.range (L.bins h.geometry), h.counts i := rfl

/-- What a histogram of geometry `g` can take over of `k`: the counts of the bins whose value it tracks. -/
def kept (g : Geometry) (k : Histogram L) : Int :=
  ∑ i ∈ Finset.range (L.bins k.geometry), if (L.indexOf g (L.valueAt k.geometry i)).isSome then k.counts i else 0

theorem totalCount_merge (h k : Histogram L) : (h.merge k).totalCount = h.totalCount + kept h.geometry k := by
  obtain ⟨hgeom, hcounts⟩ := merge_landing h k
  rw [totalCount_eq_sum, totalCount_eq_sum, hgeom, Finset.sum_congr rfl fun j _ => hcounts j, Finset.sum_add_distrib]
  unfold landing kept
  rw [Finset.sum_comm]
  congr 1
  refine Finset.sum_congr rfl fun i _ => ?_
  cases hidx : L.indexOf h.geometry (L.valueAt k.geometry i) with
  | none => simp
  | some j =>
      have hj := L.indexOf_lt hidx
      simp [hj]

theorem kept_eq_totalCount_iff {g : Geometry} {k : Histogram L} (hnonneg : ∀ i, 0 ≤ k.counts i) :
    kept g k = k.totalCount ↔
      ∀ i, k.counts i ≠ 0 → (L.indexOf g (L.valueAt k.geometry i)).isSome := by
  unfold kept
  rw [totalCount_eq_sum, Finset.sum_eq_sum_iff_of_le]
  · constructor
    · intro hall i hi
      by_contra hnone
      have hlt : i < L.bins k.geometry := by
        by_contra hge
        exact hi (k.outside i (by omega))
      have := hall i (Finset.mem_range.mpr hlt)
      rw [if_neg hnone] at this
      exact hi this.symm
    · intro hall i _
      by_cases hi : k.counts i = 0
      · rw [hi, ite_self]
      · rw [if_pos (hall i hi)]
  · intro i _
    split
    · exact Int.le_refl _
    · exact hnonneg i

theorem toSnapshot_getElem? (h : Histogram L) {i : Nat} (hi : i < L.bins h.geometry) :
    h.toSnapshot.counts[i]? = some (h.counts i) := by
  unfold toSnapshot
  rw [List.getElem?_map, List.getElem?_range hi]
  rfl

theorem length_toSnapshot (h : Histogram L) : h.toSnapshot.counts.length = L.bins h.geometry := by
  unfold toSnapshot
  rw [List.length_map, List.length_range]

theorem ofSnapshot_toSnapshot (h : Histogram L) : ofSnapshot L h.toSnapshot = h := by
  apply Histogram.ext
  · rfl
  · funext i
    show (if i < L.bins h.geometry then h.toSnapshot.counts[i]?.getD 0 else 0) = h.counts i
    split
    · next hi => rw [toSnapshot_getElem? h hi, Option.getD_some]
    · next hi => rw [h.outside i (by omega)]

end Histogram

theorem deltaHist_counts {cur prev : Histogram L} (hg : prev.geometry = cur.geometry)
    (hle : ∀ i, prev.counts i ≤ cur.counts i) :
    (deltaHist cur (some prev.toSnapshot)).geometry = cur.geometry ∧
      ∀ i, (deltaHist cur (some prev.toSnapshot)).counts i = cur.counts i - prev.counts i := by
  refine ⟨rfl, fun i => ?_⟩
  show (if i < L.bins cur.geometry then ((List.range cur.toSnapshot.counts.length).map _)[i]?.getD 0 else 0) = _
  split
  · next hi =>
    have hprev : i < L.bins prev.geometry := by rw [hg]; exact hi
    have hdiff : ¬cur.counts i - prev.counts i < 0 := by
      have := hle i
      omega
    rw [List.getElem?_map, List.getElem?_range (by rw [Histogram.length_toSnapshot]; exact hi), Option.map_some,
      Option.getD_some, Histogram.toSnapshot_getElem? cur hi, Histogram.length_toSnapshot, if_pos hprev,
      Histogram.toSnapshot_getElem? prev hprev]
    exact if_neg hdiff
  · next hi => rw [cur.outside i (by omega), prev.outside i (by rw [hg]; omega), Int.sub_zero]

/-! ## The histogram of a multiset of values -/

/-- The histogram that holds the given values: an abstract histogram counts them by bin. -/
def tally (L : Layout) (g : Geometry) (vs : Multiset Int) : Histogram L :=
  ⟨g, fun i => (vs.countP fun v => L.indexOf g v = some i : Nat), fun i hi => by
    rw [Multiset.countP_eq_zero.mpr]
    · rfl
    · intro v _ hv
      have := L.indexOf_lt hv
      omega⟩

variable {g : Geometry} {vs ws : Multiset Int}

theorem tally_zero (L : Layout) (g : Geometry) : tally L g 0 = .new L g := by
  apply Histogram.ext
  · rfl
  · funext i
    show ((Multiset.countP _ 0 : Nat) : Int) = 0
    rw [Multiset.countP_zero]
    rfl

theorem record_tally (v : Int) : ((tally L g vs).recordValues v 1).getD (tally L g vs) = tally L g (v ::ₘ vs) := by
  cases hi : L.indexOf g v with
  | none =>
      rw [Histogram.recordValues_of_none hi, Option.getD_none]
      apply Histogram.ext
      · rfl
      · funext j
        show ((Multiset.countP _ vs : Nat) : Int) = (Multiset.countP _ (v ::ₘ vs) : Nat)
        rw [Multiset.countP_cons_of_neg _ (by rw [hi]; exact nofun)]
  | some i =>
      obtain ⟨t, ht, hgeom, hcounts⟩ := Histogram.recordValues_of_index (h := tally L g vs) (n := 1) hi
      rw [ht, Option.getD_some]
      apply Histogram.ext
      · exact hgeom
      · rw [hcounts]
        funext j
        change _ = ((Multiset.countP _ (v ::ₘ vs) : Nat) : Int)
        by_cases hj : j = i
        · subst hj
          rw [Function.update_self, Multiset.countP_cons_of_pos (p := fun v => L.indexOf g v = some j) _ hi]
          rfl
        · rw [Function.update_of_ne hj, Multiset.countP_cons_of_neg (p := fun v => L.indexOf g v = some j) _
            (by rw [hi]; exact fun h => hj (Option.some.inj h).symm)]
          rfl

theorem merge_tally : (tally L g vs).merge (tally L g ws) = tally L g (vs + ws) := by
  obtain ⟨hgeom, hcounts⟩ := Histogram.merge_counts (h := tally L g vs) (k := tally L g ws) rfl
  apply Histogram.ext
  · exact hgeom
  · funext i
    rw [hcounts i]
    show ((Multiset.countP _ vs : Nat) : Int) + (Multiset.countP _ ws : Nat) = (Multiset.countP _ (vs + ws) : Nat)
    rw [Multiset.countP_add]
    push_cast
    rfl

theorem sum_indicator {α : Type} [DecidableEq α] {l : List α} (hnodup : l.Nodup) {a : α} (ha : a ∈ l) (w : Int) :
    (l.map fun b => if a = b then w else 0).sum = w := by
  induction l with
  | nil => cases ha
  | cons b l ih =>
      obtain ⟨hnot, hnodup⟩ := List.nodup_cons.mp hnodup
      rw [List.map_cons, List.sum_cons]
      by_cases hab : a = b
      · have hzero : (l.map fun c => if a = c then w else 0).sum = 0 := by
          refine List.sum_eq_zero fun x hx => ?_
          obtain ⟨c, hc, rfl⟩ := List.mem_map.mp hx
          refine if_neg fun h => hnot ?_
          rw [← hab, h]
          exact hc
        rw [if_pos hab, hzero, Int.add_zero]
      · rw [if_neg hab, ih hnodup ((List.mem_cons.mp ha).resolve_left hab), Int.zero_add]

theorem totalCount_tally (hvs : ∀ v ∈ vs, (L.indexOf g v).isSome = true) :
    (tally L g vs).totalCount = (vs.card : Int) := by
  show ((List.range (L.bins g)).map (tally L g vs).counts).sum = _
  induction vs using Multiset.induction_on with
  | empty => simp [tally]
  | cons v vs ih =>
      obtain ⟨i, hi⟩ := Option.isSome_iff_exists.mp (hvs v (Multiset.mem_cons_self v vs))
      have hcounts : (tally L g (v ::ₘ vs)).counts = fun j => (tally L g vs).counts j + if i = j then 1 else 0 := by
        funext j
        change ((Multiset.countP _ (v ::ₘ vs) : Nat) : Int) = (Multiset.countP _ vs : Nat) + _
        rw [Multiset.countP_cons, hi]
        simp
      rw [hcounts, List.sum_map_add, ih fun w hw => hvs w (Multiset.mem_cons_of_mem hw),
        sum_indicator List.nodup_range (List.mem_range.mpr (L.indexOf_lt hi)), Multiset.card_cons]
      push_cast
      rfl

theorem counts_tally_ne_zero_iff {i : Nat} : (tally L g vs).counts i ≠ 0 ↔ ∃ v ∈ vs, L.indexOf g v = some i := by
  show ((Multiset.countP _ vs : Nat) : Int) ≠ 0 ↔ _
  rw [Int.natCast_ne_zero, ← Nat.pos_iff_ne_zero, Multiset.countP_pos]

end Proofload.Metrics
