import Proofload.Export.Influx
import Mathlib.Data.List.Dedup
import Mathlib.Data.List.MinMax

/-!
# The time series of a report (`core/report/charts.go`)

`aggregate` folds the snapshots of all operations into one series. It collects them in a map by their microsecond,
adds up the throughput, keeps the percentiles of the snapshot with the most samples, and sorts what it finds in the
map, in whatever order the map is walked.

* `lookup_collect` : what the map holds for a microsecond;
* `aggregate_eq_timeline` : the series is the timeline of the snapshots, for every order of the map.
-/

namespace Proofload.Report
open Lib Export

set_option autoImplicit false

variable {F : Type}

/-! ## The code -/

/-- One point of the series; `t` is in nanoseconds since the epoch. -/
structure TPoint (F : Type) where
  t : Int
  throughput : F
  p50 : F
  p99 : F
  p999 : F
deriving DecidableEq

structure Acc (F : Type) where
  tp : TPoint F
  bestCount : Int

/-- `Time.UnixMicro`. -/
def unixMicro (t : Int) : Int := t / 1000

section Code
variable [Zero F] [Add F]

/-- The accumulator of a microsecond at its first snapshot. -/
def Acc.new (s : LatencySnapshot F) : Acc F := ⟨⟨s.t, 0, 0, 0, 0⟩, -1⟩

def Acc.add (a : Acc F) (s : LatencySnapshot F) : Acc F :=
  let tp := { a.tp with throughput := a.tp.throughput + s.throughput }
  if a.bestCount < s.pct.count then
    ⟨{ tp with p50 := s.pct.p50, p99 := s.pct.p99, p999 := s.pct.p999 }, s.pct.count⟩
  else ⟨tp, a.bestCount⟩

def collect (snaps : List (LatencySnapshot F)) : Map Int (Acc F) :=
  snaps.foldl (fun byT s => Map.accumulate Acc.new Acc.add byT (unixMicro s.t) s) ∅

/-- `aggregate`, for an iteration order of the map. -/
def aggregate (iter : IterOrder Int) (snaps : List (LatencySnapshot F)) : List (TPoint F) :=
  let byT := collect snaps
  ((iter.order byT.keys).filterMap fun k => (byT.lookup k).map Acc.tp).insertionSort fun a b => a.t ≤ b.t

end Code

/-! ## The timeline -/

/-- The snapshots of a microsecond. -/
def during (snaps : List (LatencySnapshot F)) (k : Int) : List (LatencySnapshot F) :=
  snaps.filter fun s => unixMicro s.t = k

/-- The microseconds in which there are snapshots. -/
def instants (snaps : List (LatencySnapshot F)) : List Int :=
  (snaps.map fun s => unixMicro s.t).dedup.insertionSort (· ≤ ·)

/-- The first of the snapshots with the most samples. -/
def busiest (l : List (LatencySnapshot F)) : Option (LatencySnapshot F) :=
  (l.filter fun s => 0 ≤ s.pct.count).foldl (List.argAux fun b c => c.pct.count < b.pct.count) none

section Timeline
variable [Zero F] [Add F]

/-- The point of the snapshots of a microsecond, if there are any. -/
def pointOf (l : List (LatencySnapshot F)) : Option (TPoint F) :=
  l.head?.map fun s =>
    { t := s.t
      throughput := (l.map LatencySnapshot.throughput).foldl (· + ·) 0
      p50 := (busiest l).elim 0 fun b => b.pct.p50
      p99 := (busiest l).elim 0 fun b => b.pct.p99
      p999 := (busiest l).elim 0 fun b => b.pct.p999 }

/-- One point for every microsecond with snapshots, in ascending order. -/
def timeline (snaps : List (LatencySnapshot F)) : List (TPoint F) :=
  (instants snaps).filterMap fun k => pointOf (during snaps k)

end Timeline

/-! ## The series is the timeline -/

theorem count_of_busiest {l : List (LatencySnapshot F)} {b : LatencySnapshot F} (h : busiest l = some b) :
    0 ≤ b.pct.count := by
  have hmem : b ∈ l.filter fun s => 0 ≤ s.pct.count :=
    List.argmax_mem (f := fun s : LatencySnapshot F => s.pct.count) h
  simpa using (List.mem_filter.mp hmem).2

theorem busiest_concat (l : List (LatencySnapshot F)) (s : LatencySnapshot F) :
    busiest (l ++ [s]) = if (busiest l).elim (-1) (fun b => b.pct.count) < s.pct.count then some s else busiest l := by
  by_cases hs : 0 ≤ s.pct.count
  · have hstep : busiest (l ++ [s]) = List.argAux (fun b c => c.pct.count < b.pct.count) (busiest l) s := by
      unfold busiest
      rw [List.filter_append, List.filter_cons_of_pos (by simpa using hs), List.filter_nil, List.foldl_append,
        List.foldl_cons, List.foldl_nil]
    rw [hstep]
    cases busiest l with
    | none => exact (if_pos (by simpa using by omega)).symm
    | some b => rfl
  · have hkeep : busiest (l ++ [s]) = busiest l := by
      unfold busiest
      rw [List.filter_append, List.filter_cons_of_neg (by simpa using hs), List.filter_nil, List.append_nil]
    rw [hkeep, if_neg]
    cases hb : busiest l with
    | none => simpa using by omega
    | some b =>
        have hcount := count_of_busiest hb
        simpa using by omega

theorem instants_ascending (snaps : List (LatencySnapshot F)) : (instants snaps).Pairwise (· < ·) := by
  have hsorted : (instants snaps).Pairwise (· ≤ ·) := List.pairwise_insertionSort _ _
  have hnodup : (instants snaps).Nodup := (List.perm_insertionSort _ _).nodup_iff.mpr (List.nodup_dedup _)
  exact (hsorted.and hnodup).imp fun h => lt_of_le_of_ne h.1 h.2

section Series
variable [Zero F] [Add F]

/-- What is accumulated over snapshots: their sum, and the percentiles of the busiest. -/
theorem foldl_add_eq (s : LatencySnapshot F) (l : List (LatencySnapshot F)) :
    l.foldl Acc.add (Acc.new s) =
      ⟨{ t := s.t
         throughput := (l.map LatencySnapshot.throughput).foldl (· + ·) 0
         p50 := (busiest l).elim 0 fun b => b.pct.p50
         p99 := (busiest l).elim 0 fun b => b.pct.p99
         p999 := (busiest l).elim 0 fun b => b.pct.p999 }, (busiest l).elim (-1) fun b => b.pct.count⟩ := by
  induction l using List.reverseRecOn with
  | nil => rfl
  | append_singleton l s' ih =>
      rw [List.foldl_append, ih, List.foldl_cons, List.foldl_nil, Acc.add, busiest_concat, List.map_append,
        List.foldl_append]
      split
      · rfl
      · rfl

theorem lookup_collect (snaps : List (LatencySnapshot F)) (k : Int) :
    ((collect snaps).lookup k).map Acc.tp = pointOf (during snaps k) := by
  unfold collect pointOf during
  rw [Map.lookup_foldl_accumulate Acc.new Acc.add (fun s : LatencySnapshot F => unixMicro s.t), Option.map_map]
  congr 1
  funext s
  rw [Function.comp_apply, foldl_add_eq]

theorem pointOf_t {snaps : List (LatencySnapshot F)} {k : Int} {p : TPoint F}
    (h : pointOf (during snaps k) = some p) : unixMicro p.t = k := by
  obtain ⟨s, hs, rfl⟩ := Option.map_eq_some_iff.mp h
  have hmem := List.mem_of_mem_head? (Option.mem_def.mpr hs)
  simpa using (List.mem_filter.mp hmem).2

theorem keys_collect_perm (snaps : List (LatencySnapshot F)) : (collect snaps).keys.Perm (instants snaps) := by
  apply List.Perm.trans _ (List.perm_insertionSort _ _).symm
  apply (List.perm_ext_iff_of_nodup (collect snaps).nodupKeys (List.nodup_dedup _)).mpr
  intro k
  have hsome : ((collect snaps).lookup k).isSome = (pointOf (during snaps k)).isSome := by
    rw [← lookup_collect, Option.isSome_map]
  apply (Map.mem_keys_iff _ k).trans
  rw [hsome, List.mem_dedup, pointOf, Option.isSome_map, List.isSome_head?, during]
  simp

theorem timeline_ascending (snaps : List (LatencySnapshot F)) : (timeline snaps).Pairwise fun a b => a.t < b.t := by
  apply List.Pairwise.filterMap _ _ (instants_ascending snaps)
  intro k k' hlt p hp q hq
  have hp := pointOf_t (Option.mem_def.mp hp)
  have hq := pointOf_t (Option.mem_def.mp hq)
  unfold unixMicro at hp hq
  omega

/-- **One point for every microsecond, in order.** -/
theorem aggregate_eq_timeline (iter : IterOrder Int) (snaps : List (LatencySnapshot F)) :
    aggregate iter snaps = timeline snaps := by
  unfold aggregate
  have hperm : ((iter.order (collect snaps).keys).filterMap fun k => ((collect snaps).lookup k).map Acc.tp).Perm
      (timeline snaps) := by
    simp only [lookup_collect]
    exact ((iter.perm _).trans (keys_collect_perm snaps)).filterMap _
  refine List.Perm.eq_of_pairwise (fun a b ha hb hab hba => ?_) (List.pairwise_insertionSort _ _)
    ((timeline_ascending snaps).imp le_of_lt) ((List.perm_insertionSort _ _).trans hperm)
  have ha := hperm.mem_iff.mp ((List.mem_insertionSort _).mp ha)
  have hnodup : ((timeline snaps).map TPoint.t).Nodup :=
    List.pairwise_map.mpr ((timeline_ascending snaps).imp fun h => ne_of_lt h)
  exact List.inj_on_of_nodup_map hnodup ha hb (Int.le_antisymm hab hba)

end Series

end Proofload.Report
