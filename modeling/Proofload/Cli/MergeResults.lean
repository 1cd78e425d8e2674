import Proofload.Metrics.Codec
import Proofload.Metrics.Hdr
import Proofload.Cluster.Coordinator

/-!
# Merging the workers' results (`core/cli/distributed.go`)

The coordinator decodes the blob of every worker and merges the Recorders; the scalar reports are summed.

* `mergeHistograms_held` : the loop merges what the blobs hold;
* `distributed_metrics_eq` : the merged metrics are those of one Recorder that recorded all operations.
-/

namespace Proofload.Cli
open Lib Metrics

set_option autoImplicit false

/-- The scalar tallies of `runner.RunReport` that the workers report. -/
structure RunReport where
  total : Int
  errors : Int
  clientBound : Bool
deriving DecidableEq

/-- The loop over the blobs behind the first. The `i`-th decoding and merging walk their maps in orders of their own. -/
def mergeHistograms (D : Hdr) (decoding merging : Nat → IterOrder OpType) (merged : Recorder D.toLayout) (i : Nat) :
    List Bytes → Except String (Recorder D.toLayout)
  | [] => .ok merged
  | b :: blobs => do
      let r ← withContext s!"decode worker {i}" (decode D (decoding i) b)
      mergeHistograms D decoding merging (merged.merge (merging i) r) (i + 1) blobs

def sumReports (reports : List Cluster.WorkerReport) : RunReport :=
  reports.foldl (fun rep wr => ⟨rep.total + wr.total, rep.errors + wr.errors, rep.clientBound || wr.clientBound⟩)
    ⟨0, 0, false⟩

def mergeResults (D : Hdr) (decoding merging : Nat → IterOrder OpType) (res : Cluster.Result) :
    Except String (Recorder D.toLayout × RunReport) :=
  match res.histograms with
  | [] => .error "no worker results"
  | b :: blobs => do
      let first ← withContext "decode worker 0" (decode D (decoding 0) b)
      let merged ← mergeHistograms D decoding merging first 1 blobs
      .ok (merged, sumReports res.reports)

variable {D : Hdr}

/-- The blob decodes to a Recorder of the geometry `(high, sig)` that holds `ms`. -/
def Carries (D : Hdr) (high sig : Int) (b : Bytes) (ms : Multiset Measured) : Prop :=
  ∀ o, ∃ r, decode D o b = .ok r ∧ r.high = high ∧ r.sig = sig ∧ r.locals.length = 1 ∧ Held r fun _ => ms

theorem collect_of_single (o : IterOrder OpType) {r : Recorder D.toLayout} {ms : Multiset Measured}
    (hlength : r.locals.length = 1) (h : Held r fun _ => ms) : Tallied r.geometry (r.collect o) ms := by
  have hcollect := h.collect o
  rw [hlength, Finset.sum_range_one] at hcollect
  exact hcollect

theorem Held.merge {o : IterOrder OpType} {r other : Recorder D.toLayout} {contents : Nat → Multiset Measured}
    {ms : Multiset Measured} (h : Held r contents) (hhigh : other.high = r.high) (hsig : other.sig = r.sig)
    (hother : Tallied other.geometry (other.collect o) ms) :
    Held (r.merge o other) (Function.update contents r.locals.length ms) := by
  have hgeom : other.geometry = r.geometry := by
    unfold Recorder.geometry
    rw [hhigh, hsig]
  rw [hgeom] at hother
  exact h.concat rfl rfl hother

theorem mergeHistograms_held {high sig : Int} {blobs : List Bytes} {contents : List (Multiset Measured)}
    (hblobs : List.Forall₂ (Carries D high sig) blobs contents) (decoding merging : Nat → IterOrder OpType)
    {merged : Recorder D.toLayout} {held : Nat → Multiset Measured} (hhigh : merged.high = high)
    (hsig : merged.sig = sig) (h : Held merged held) (i : Nat) :
    ∃ r held', mergeHistograms D decoding merging merged i blobs = .ok r ∧ r.high = high ∧ r.sig = sig ∧ Held r held' ∧
      ∑ j ∈ Finset.range r.locals.length, held' j =
        ∑ j ∈ Finset.range merged.locals.length, held j + contents.sum := by
  induction hblobs generalizing merged held i with
  | nil => exact ⟨merged, held, rfl, hhigh, hsig, h, by simp⟩
  | @cons b ms blobs contents hb hblobs ih =>
      obtain ⟨r, hdecode, hrhigh, hrsig, hlength, hr⟩ := hb (decoding i)
      have hmerge : Held (merged.merge (merging i) r) _ := Held.merge h (hrhigh.trans hhigh.symm)
        (hrsig.trans hsig.symm) (collect_of_single (merging i) hlength hr)
      obtain ⟨t, held', ht, hthigh, htsig, hheld', hsum⟩ := ih (show (merged.merge (merging i) r).high = _ from hhigh)
        hsig hmerge (i + 1)
      refine ⟨t, held', ?_, hthigh, htsig, hheld', ?_⟩
      · unfold mergeHistograms
        rw [hdecode]
        exact ht
      · have hlen : (merged.merge (merging i) r).locals.length = merged.locals.length + 1 := List.length_append
        rw [hsum, hlen, Finset.sum_range_succ, sum_update_outside, Function.update_self, List.sum_cons, add_assoc]

/-- Merging the results of workers whose blobs hold `contents` gives a Recorder that holds them all. -/
theorem mergeResults_tallied {high sig : Int} {blobs : List Bytes} {contents : List (Multiset Measured)}
    (hne : blobs ≠ []) (hblobs : List.Forall₂ (Carries D high sig) blobs contents)
    (decoding merging : Nat → IterOrder OpType) (reports : List Cluster.WorkerReport) :
    ∃ r, mergeResults D decoding merging ⟨reports, blobs⟩ = .ok (r, sumReports reports) ∧ r.high = high ∧
      r.sig = sig ∧ ∀ o, Tallied r.geometry (r.collect o) contents.sum := by
  cases hblobs with
  | nil => exact absurd rfl hne
  | @cons b ms blobs contents hb hblobs =>
      obtain ⟨first, hdecode, hhigh, hsig, hlength, hfirst⟩ := hb (decoding 0)
      obtain ⟨r, held, hr, hrhigh, hrsig, hheld, hsum⟩ :=
        mergeHistograms_held hblobs decoding merging hhigh hsig hfirst 1
      refine ⟨r, ?_, hrhigh, hrsig, fun o => ?_⟩
      · unfold mergeResults
        dsimp only
        rw [hdecode]
        show (mergeHistograms D decoding merging first 1 blobs).bind _ = _
        rw [hr]
        rfl
      · have hcollect := hheld.collect o
        rw [hsum, hlength, Finset.sum_range_one] at hcollect
        exact hcollect

theorem carries_of_run {acts : List Act} {r : Recorder D.toLayout}
    (hrun : run Recorder.act (Metrics.new D.toLayout ⟨0, 0⟩) acts = some r) (o : IterOrder OpType) :
    ∃ b, r.encode D o = .ok b ∧ Carries D defaultMaxLatency defaultSigFigs b (recorded acts) := by
  obtain ⟨hhigh, hsig, htallied⟩ := collect_of_run hrun
  have hrange : 1 ≤ r.sig ∧ r.sig ≤ 5 := by
    rw [hsig]
    show 1 ≤ defaultSigFigs ∧ defaultSigFigs ≤ 5
    decide
  obtain ⟨b, -, hencode, -⟩ := decode_encode hrange (htallied o) o
  refine ⟨b, hencode, fun o' => ?_⟩
  obtain ⟨b', r', hencode', hdecode, hhigh', hsig', hlength, hheld⟩ := decode_encode hrange (htallied o) o'
  obtain rfl := Except.ok.inj (hencode.symm.trans hencode')
  exact ⟨r', hdecode, hhigh'.trans hhigh, hsig'.trans hsig, hlength, hheld⟩

/-- **Distributed metrics equal central metrics.** However the operations are split over workers and their Locals, and
in whatever orders the maps are walked: every worker's Recorder is encoded, and merging the blobs gives a Recorder that
agrees with any Recorder that recorded all of them, in the whole histogram, in the histogram of every label, in the
labels and in the errors, and so in its snapshots. -/
theorem distributed_metrics_eq (D : Hdr) {workers : List (List Act)}
    {recorders : List (Recorder D.toLayout)} (hne : workers ≠ [])
    (hruns : List.Forall₂ (fun acts r => run Recorder.act (Metrics.new D.toLayout ⟨0, 0⟩) acts = some r) workers
      recorders)
    {central : List Act} {whole : Recorder D.toLayout}
    (hcentral : run Recorder.act (Metrics.new D.toLayout ⟨0, 0⟩) central = some whole)
    (hsplit : recorded central = (workers.map recorded).sum) (reports : List Cluster.WorkerReport) :
    (∀ r ∈ recorders, ∀ o, ∃ b, Recorder.encode D o r = .ok b) ∧
    ∀ blobs, List.Forall₂ (fun r b => ∃ o, Recorder.encode D o r = .ok b) recorders blobs →
      ∀ decoding merging, ∃ merged,
        mergeResults D decoding merging ⟨reports, blobs⟩ = .ok (merged, sumReports reports) ∧
        ∀ o o', (merged.collect o).overall = (whole.collect o').overall ∧
          (merged.collect o).errTotal = (whole.collect o').errTotal ∧
          (∀ op, (merged.collect o).byOp.lookup op = (whole.collect o').byOp.lookup op) ∧
          (∀ op, (merged.collect o).errByOp.lookup op = (whole.collect o').errByOp.lookup op) ∧
          ∀ phase dur,
            (merged.snapshot D o phase dur).total = (whole.snapshot D o' phase dur).total ∧
            (merged.snapshot D o phase dur).errors = (whole.snapshot D o' phase dur).errors ∧
            (merged.snapshot D o phase dur).throughput = (whole.snapshot D o' phase dur).throughput ∧
            (merged.snapshot D o phase dur).overall = (whole.snapshot D o' phase dur).overall ∧
            ∀ op, (merged.snapshot D o phase dur).byOp.lookup op =
              (whole.snapshot D o' phase dur).byOp.lookup op := by
  refine ⟨fun r hr o => ?_, fun blobs hencodes decoding merging => ?_⟩
  · clear hne hsplit
    induction hruns with
    | nil => exact absurd hr List.not_mem_nil
    | cons hrun _ ih =>
        rcases List.mem_cons.mp hr with rfl | hr
        · obtain ⟨b, hencode, -⟩ := carries_of_run hrun o
          exact ⟨b, hencode⟩
        · exact ih hr
  have hblobs : List.Forall₂ (Carries D defaultMaxLatency defaultSigFigs) blobs (workers.map recorded) := by
    clear hne hsplit
    induction hruns generalizing blobs with
    | nil =>
        cases hencodes
        exact .nil
    | cons hrun _ ih =>
        cases hencodes with
        | cons hencode hencodes =>
            obtain ⟨o, hencode⟩ := hencode
            obtain ⟨b, hb, hcarries⟩ := carries_of_run hrun o
            obtain rfl := Except.ok.inj (hb.symm.trans hencode)
            exact .cons hcarries (ih _ hencodes)
  have hblobsne : blobs ≠ [] := by
    rintro rfl
    exact hne (List.map_eq_nil_iff.mp (List.forall₂_nil_left_iff.mp hblobs))
  obtain ⟨merged, hmerge, hhigh, hsig, htallied⟩ := mergeResults_tallied hblobsne hblobs decoding merging reports
  obtain ⟨hwhigh, hwsig, hwhole⟩ := collect_of_run hcentral
  have hgeom : merged.geometry = whole.geometry := by
    unfold Recorder.geometry
    rw [hhigh, hsig, hwhigh, hwsig]
    rfl
  rw [hgeom, ← hsplit] at htallied
  refine ⟨merged, hmerge, fun o o' => ?_⟩
  obtain ⟨hoverall, herrTotal, hbyOp, herrByOp⟩ := (htallied o).unique (hwhole o')
  exact ⟨hoverall, herrTotal, hbyOp, herrByOp, fun phase dur => snapshot_eq (htallied o) (hwhole o') phase dur⟩

/-- Two workers, one of them with two Locals. -/
def splitRun : List (List Act) :=
  [[.addLocal, .addLocal, .record 0 ⟨"read", 5000, false⟩, .record 1 ⟨"write", 7000, true⟩],
    [.addLocal, .record 0 ⟨"read", 100000000000, false⟩]]

/-- The same operations in one Local. -/
def centralRun : List Act :=
  [.addLocal, .record 0 ⟨"read", 100000000000, false⟩, .record 0 ⟨"write", 7000, true⟩, .record 0 ⟨"read", 5000, false⟩]

/-- The other way round. -/
def backwards : IterOrder OpType := ⟨List.reverse, List.reverse_perm⟩

theorem distributed_metrics_eq_on_two_workers :
    ∃ blobs merged whole, run Recorder.act (Metrics.new layout ⟨0, 0⟩) centralRun = some whole ∧
      mergeResults hdr (fun _ => IterOrder.stored OpType) (fun _ => backwards) ⟨[], blobs⟩ =
        .ok (merged, ⟨0, 0, false⟩) ∧
      (merged.collect backwards).overall = (whole.collect (IterOrder.stored OpType)).overall := by
  obtain ⟨whole, hwhole⟩ : ∃ whole, run Recorder.act (Metrics.new layout ⟨0, 0⟩) centralRun = some whole := ⟨_, rfl⟩
  obtain ⟨first, second, hfirst, hsecond⟩ : ∃ first second,
      run Recorder.act (Metrics.new layout ⟨0, 0⟩) splitRun[0] = some first ∧
      run Recorder.act (Metrics.new layout ⟨0, 0⟩) splitRun[1] = some second := ⟨_, _, rfl, rfl⟩
  have hsplit : recorded centralRun = (splitRun.map recorded).sum := by decide +kernel
  obtain ⟨hencodes, hmerges⟩ := distributed_metrics_eq hdr (List.cons_ne_nil _ _)
    (show List.Forall₂ _ splitRun [first, second] from .cons hfirst (.cons hsecond .nil)) hwhole hsplit []
  obtain ⟨b, hb⟩ := hencodes first List.mem_cons_self backwards
  obtain ⟨b', hb'⟩ := hencodes second (List.mem_cons_of_mem _ List.mem_cons_self)
    (IterOrder.stored OpType)
  obtain ⟨merged, hmerge, hagree⟩ := hmerges [b, b'] (.cons ⟨_, hb⟩ (.cons ⟨_, hb'⟩ .nil))
    (fun _ => IterOrder.stored OpType) fun _ => backwards
  exact ⟨[b, b'], merged, whole, hwhole, hmerge, (hagree backwards (IterOrder.stored OpType)).1⟩

end Proofload.Cli
