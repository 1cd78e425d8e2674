import Proofload.Metrics.Codec
import Proofload.Metrics.Hdr
import Proofload.Lib.Totals

/-!
# Recorders that are merged and sent (`core/metrics/recorder.go`, `codec.go`)

A program holds several Recorders, which need not have the same options. It takes Locals and records into them,
merges one Recorder into another, and decodes what it has encoded. The Local that a merge or a decoding installs is
never handed out, so nothing is recorded into it.

* `call` : the calls on the Recorders of a program;
* `merge_lossless_iff` : when a merge counts everything that the merged Recorder counts;
* `Balanced` : an aggregate whose overall counts are the sums of its counts by label, with `Balanced.record` and
  `Balanced.mergeLocal`;
* `aggregates_balanced` : every aggregate of every Recorder is balanced.
-/

namespace Proofload.Metrics
open Lib

set_option autoImplicit false

/-! ## The Recorders of a program -/

/-- A Recorder, and the positions of the Locals that `Local` has handed out. -/
structure InUse (L : Layout) where
  recorder : Recorder L
  issued : List Nat

/-- The calls of a program. The positions name Recorders and Locals; an iteration order belongs to every aggregate
that a call computes. -/
inductive Call where
  | new (o : Options)
  | takeLocal (i : Nat)
  | record (i k : Nat) (x : Measured)
  | merge (i j : Nat) (o : IterOrder OpType)
  | transfer (i : Nat) (o o' : IterOrder OpType)

/-- One call; `transfer` decodes what it has encoded, into a new Recorder. -/
def call (D : Hdr) (s : List (InUse D.toLayout)) : Call → Option (List (InUse D.toLayout))
  | .new o => some (s ++ [⟨new D.toLayout o, []⟩])
  | .takeLocal i => s[i]?.map fun u => s.set i ⟨u.recorder.addLocal, u.recorder.locals.length :: u.issued⟩
  | .record i k x =>
      s[i]?.bind fun u =>
        if k ∈ u.issued then (u.recorder.act (.record k x)).map fun r => s.set i ⟨r, u.issued⟩ else none
  | .merge i j o =>
      s[i]?.bind fun u => s[j]?.map fun other => s.set i ⟨u.recorder.merge o other.recorder, u.issued⟩
  | .transfer i o o' =>
      s[i]?.bind fun u =>
        match u.recorder.encode D o with
        | .error _ => none
        | .ok b =>
            match decode D o' b with
            | .error _ => none
            | .ok r => some (s ++ [⟨r, []⟩])

theorem call_merge (D : Hdr) (s : List (InUse D.toLayout)) (i j : Nat) (o : IterOrder OpType) :
    call D s (.merge i j o) =
      s[i]?.bind fun u => s[j]?.map fun other => s.set i ⟨u.recorder.merge o other.recorder, u.issued⟩ := rfl

/-! ## What a merge takes over -/

variable {L : Layout} {D : Hdr}

/-- The count of a label in a snapshot; a label without operations has none. -/
def RunResult.opCount (res : RunResult) (op : OpType) : Int := Map.weightAt res.byOp (·.count) op

theorem collect_merge (o o' : IterOrder OpType) (r other : Recorder L) :
    (r.merge o other).collect o' =
      mergeLocal o' r.geometry (r.collect o') { other.collect o with high := r.high, sig := r.sig } := by
  show (r.locals ++ [_]).foldl (mergeLocal o' r.geometry) _ = _
  rw [List.foldl_append]
  rfl

theorem opCount_snapshot (o : IterOrder OpType) (r : Recorder D.toLayout) (phase : Phase) (dur : Int) (op : OpType) :
    (r.snapshot D o phase dur).opCount op = Map.weightAt (r.collect o).byOp (·.totalCount) op := by
  unfold RunResult.opCount Map.weightAt
  rw [lookup_snapshot_byOp, Option.map_map]
  rfl

theorem totalCount_new (L : Layout) (g : Geometry) : (Histogram.new L g).totalCount = 0 := by
  rw [Histogram.totalCount_eq_sum]
  exact Finset.sum_const_zero

theorem weightAt_mergeLocal (o : IterOrder OpType) {g : Geometry} {m : Merged L}
    (hgeom : ∀ op h, m.byOp.lookup op = some h → h.geometry = g) (l : Local L) (op : OpType) :
    Map.weightAt (mergeLocal o g m l).byOp (·.totalCount) op =
      Map.weightAt m.byOp (·.totalCount) op + Map.weightAt l.byOp (Histogram.kept g) op := by
  unfold Map.weightAt mergeLocal
  dsimp only
  rw [Map.lookup_mergeWith]
  cases l.byOp.lookup op with
  | none => exact (Int.add_zero _).symm
  | some h =>
      cases hdst : m.byOp.lookup op with
      | none =>
          show ((Histogram.new L g).merge h).totalCount = 0 + h.kept g
          rw [Histogram.totalCount_merge, totalCount_new]
          rfl
      | some dst =>
          show (dst.merge h).totalCount = dst.totalCount + h.kept g
          rw [Histogram.totalCount_merge, hgeom op dst hdst]

/-- A merge takes over everything that a histogram counts, if the values of its bins are tracked. -/
theorem kept_tally_iff (L : Layout) (g g' : Geometry) (ms : Multiset Measured) :
    (tally L g' (values g' ms)).kept g = (tally L g' (values g' ms)).totalCount ↔
      ∀ x ∈ ms, ∀ i, L.indexOf g' (clamp g'.high x.latency) = some i → (L.indexOf g (L.valueAt g' i)).isSome := by
  rw [Histogram.kept_eq_totalCount_iff fun i => Int.natCast_nonneg _]
  constructor
  · intro hall x hx i hi
    apply hall i
    rw [counts_tally_ne_zero_iff]
    exact ⟨_, Multiset.mem_map_of_mem _ hx, hi⟩
  · intro hall i hi
    obtain ⟨v, hv, hidx⟩ := counts_tally_ne_zero_iff.mp hi
    obtain ⟨x, hx, rfl⟩ := Multiset.mem_map.mp hv
    exact hall x hx i hidx

theorem Tallied.geometry_byOp {g : Geometry} {m : Merged L} {ms : Multiset Measured} (h : Tallied g m ms) (op : OpType)
    (hist : Histogram L) (hlookup : m.byOp.lookup op = some hist) : hist.geometry = g := by
  rw [h.byOp op] at hlookup
  split at hlookup
  · cases hlookup
  · obtain rfl := Option.some.inj hlookup
    rfl

/-- What one label of the merged Recorder loses: nothing, if nothing of the whole is lost. -/
theorem Tallied.weightAt_kept {g g' : Geometry} {m : Merged L} {ms : Multiset Measured} (h : Tallied g' m ms)
    (hall : ∀ x ∈ ms, ∀ i, L.indexOf g' (clamp g'.high x.latency) = some i → (L.indexOf g (L.valueAt g' i)).isSome)
    (op : OpType) : Map.weightAt m.byOp (Histogram.kept g) op = Map.weightAt m.byOp (·.totalCount) op := by
  unfold Map.weightAt
  rw [h.byOp op]
  split
  · rfl
  · exact (kept_tally_iff L _ _ _).mpr fun x hx => hall x (Multiset.mem_of_mem_filter hx)

/-- **A merge is lossless exactly if the receiver tracks the value of every bin that the other Recorder uses.** The
two Recorders come from `New` with any options and hold the operations that their runs recorded. -/
theorem merge_lossless_iff {s s' : List (InUse D.toLayout)} {i j : Nat} {u other u' : InUse D.toLayout}
    {opts opts' : Options} {acts acts' : List Act} {o o₁ o₂ o₃ : IterOrder OpType} (phase : Phase) (dur : Int)
    (hij : i ≠ j) (hu : s[i]? = some u) (hother : s[j]? = some other)
    (hrun : run Recorder.act (new D.toLayout opts) acts = some u.recorder)
    (hrun' : run Recorder.act (new D.toLayout opts') acts' = some other.recorder)
    (hmerge : call D s (.merge i j o) = some s') (hu' : s'[i]? = some u') :
    ((u'.recorder.snapshot D o₃ phase dur).total =
        (u.recorder.snapshot D o₁ phase dur).total + (other.recorder.snapshot D o₂ phase dur).total ∧
      (u'.recorder.snapshot D o₃ phase dur).errors =
        (u.recorder.snapshot D o₁ phase dur).errors + (other.recorder.snapshot D o₂ phase dur).errors ∧
      (∀ op, (u'.recorder.snapshot D o₃ phase dur).opCount op =
        (u.recorder.snapshot D o₁ phase dur).opCount op + (other.recorder.snapshot D o₂ phase dur).opCount op) ∧
      s'[j]? = some other) ↔
    ∀ x ∈ recorded acts', ∀ b, D.indexOf (new D.toLayout opts').geometry
        (clamp (new D.toLayout opts').high x.latency) = some b →
      (D.indexOf (new D.toLayout opts).geometry (D.valueAt (new D.toLayout opts').geometry b)).isSome := by
  have hcall : s' = s.set i ⟨u.recorder.merge o other.recorder, u.issued⟩ := by
    have heffect := call_merge D s i j o
    rw [hu, Option.bind_some, hother, Option.map_some, hmerge] at heffect
    exact Option.some.inj heffect
  have hsame : s'[j]? = some other := by
    rw [hcall, List.getElem?_set_ne hij]
    exact hother
  have hrec : u'.recorder = u.recorder.merge o other.recorder := by
    rw [hcall, List.getElem?_set_self (List.getElem?_eq_some_iff.mp hu).1] at hu'
    rw [← Option.some.inj hu']
  obtain ⟨hhigh, hsig, htallied⟩ := collect_of_run hrun
  obtain ⟨hhigh', hsig', htallied'⟩ := collect_of_run hrun'
  have hgeom : (new D.toLayout opts).geometry = u.recorder.geometry := by
    unfold Recorder.geometry
    rw [hhigh, hsig]
  have hgeom' : (new D.toLayout opts').geometry = other.recorder.geometry := by
    unfold Recorder.geometry
    rw [hhigh', hsig']
  rw [hgeom, hgeom', ← hhigh', hrec]
  have hcollect := collect_merge o o₃ u.recorder other.recorder
  have hsame₁ := (htallied o₃).unique (htallied o₁)
  have hsame₂ := (htallied' o).unique (htallied' o₂)
  have htotal : ((u.recorder.merge o other.recorder).snapshot D o₃ phase dur).total =
      (u.recorder.snapshot D o₁ phase dur).total +
        (tally D.toLayout other.recorder.geometry (values other.recorder.geometry (recorded acts'))).kept
          u.recorder.geometry := by
    show ((u.recorder.merge o other.recorder).collect o₃).overall.totalCount =
      (u.recorder.collect o₁).overall.totalCount + _
    rw [hcollect, ← hsame₁.1, ← (htallied' o).overall]
    show ((u.recorder.collect o₃).overall.merge (other.recorder.collect o).overall).totalCount = _
    rw [Histogram.totalCount_merge, (htallied o₃).overall]
    rfl
  have hother₂ : (other.recorder.snapshot D o₂ phase dur).total =
      (tally D.toLayout other.recorder.geometry (values other.recorder.geometry (recorded acts'))).totalCount := by
    show (other.recorder.collect o₂).overall.totalCount = _
    rw [(htallied' o₂).overall]
  have hdecides := kept_tally_iff D.toLayout u.recorder.geometry other.recorder.geometry (recorded acts')
  constructor
  · rintro ⟨hlossless, -⟩
    rw [htotal, hother₂] at hlossless
    exact hdecides.mp (Int.add_left_cancel hlossless)
  · intro hall
    refine ⟨?_, ?_, fun op => ?_, hsame⟩
    · rw [htotal, hother₂, hdecides.mpr hall]
    · show ((u.recorder.merge o other.recorder).collect o₃).errTotal =
        (u.recorder.collect o₁).errTotal + (other.recorder.collect o₂).errTotal
      rw [hcollect, ← hsame₁.2.1, ← hsame₂.2.1]
      rfl
    · rw [opCount_snapshot, opCount_snapshot, opCount_snapshot, hcollect,
        weightAt_mergeLocal o₃ (htallied o₃).geometry_byOp, (htallied' o).weightAt_kept hall op]
      unfold Map.weightAt
      rw [hsame₁.2.2.1 op, hsame₂.2.2.1 op]

/-- A Recorder that holds one operation. -/
def oneOperation (o : Options) (x : Measured) : Recorder layout :=
  { new layout o with locals := [(newLocal layout (new layout o).high (new layout o).sig).record x] }

theorem run_oneOperation (o : Options) (x : Measured) :
    run Recorder.act (new layout o) [.addLocal, .record 0 x] = some (oneOperation o x) := rfl

/-- An operation of half a second. -/
def slowRead : Measured := ⟨"read", 500000000, false⟩

/-- A Recorder for latencies up to a second next to one for latencies up to ten milliseconds, which holds a read of
half a second as one of ten milliseconds: the wider Recorder takes all of it over. -/
theorem merge_lossless_iff_on_wider_receiver :
    ∃ s s' : List (InUse hdr.toLayout), ∃ u other u' : InUse hdr.toLayout,
      s[0]? = some u ∧ s[1]? = some other ∧ call hdr s (.merge 0 1 (.stored OpType)) = some s' ∧ s'[0]? = some u' ∧
      other.recorder = oneOperation ⟨1, 10000000⟩ slowRead ∧
      (u'.recorder.snapshot hdr (.stored OpType) .measure 0).total =
        (u.recorder.snapshot hdr (.stored OpType) .measure 0).total +
          (other.recorder.snapshot hdr (.stored OpType) .measure 0).total := by
  refine ⟨[⟨oneOperation ⟨1, 1000000000⟩ slowRead, [0]⟩, ⟨oneOperation ⟨1, 10000000⟩ slowRead, [0]⟩], _, _, _, _, rfl,
    rfl, rfl, rfl, rfl, ?_⟩
  refine ((merge_lossless_iff (D := hdr) (i := 0) (j := 1) (o := .stored OpType)
    (s := [⟨oneOperation ⟨1, 1000000000⟩ slowRead, [0]⟩, ⟨oneOperation ⟨1, 10000000⟩ slowRead, [0]⟩]) .measure 0
    (by decide) rfl rfl (run_oneOperation ⟨1, 1000000000⟩ slowRead) (run_oneOperation ⟨1, 10000000⟩ slowRead)
    rfl rfl).mpr ?_).1
  decide +kernel

/-- The other way round the read is lost: the merged Recorder counts nothing. -/
theorem slow_read_dropped :
    ∃ s s' : List (InUse hdr.toLayout), ∃ u other u' : InUse hdr.toLayout,
      s[0]? = some u ∧ s[1]? = some other ∧ call hdr s (.merge 0 1 (.stored OpType)) = some s' ∧ s'[0]? = some u' ∧
      u.recorder = new hdr.toLayout ⟨1, 10000000⟩ ∧
      run Recorder.act (new hdr.toLayout ⟨1, 1000000000⟩) [.addLocal, .record 0 slowRead] = some other.recorder ∧
      (u.recorder.snapshot hdr (.stored OpType) .measure 0).total = 0 ∧
      (other.recorder.snapshot hdr (.stored OpType) .measure 0).total = 1 ∧
      (u'.recorder.snapshot hdr (.stored OpType) .measure 0).total = 0 ∧
      (u'.recorder.snapshot hdr (.stored OpType) .measure 0).opCount "read" = 0 := by
  refine ⟨[⟨new hdr.toLayout ⟨1, 10000000⟩, []⟩, ⟨oneOperation ⟨1, 1000000000⟩ slowRead, [0]⟩], _, _, _, _, rfl, rfl,
    rfl, rfl, rfl, rfl, ?_⟩
  decide +kernel

/-! ## Overall counts and counts by label -/

/-- The overall histogram counts in every bin what the labels count there, and the errors are those of the labels. -/
structure Balanced (g : Geometry) (m : Merged L) : Prop where
  overall : m.overall.geometry = g
  byOp : ∀ op h, m.byOp.lookup op = some h → h.geometry = g
  bins : ∀ j, m.overall.counts j = m.byOp.total fun h => h.counts j
  errors : m.errTotal = m.errByOp.total id

variable {g g' : Geometry} {m : Merged L}

theorem balanced_new (L : Layout) (g : Geometry) : Balanced g (newMerged L g) :=
  ⟨rfl, fun _ _ h => (by cases h), fun _ => rfl, rfl⟩

theorem counts_recordValue (h : Histogram L) (ns : Int) :
    (recordValue h ns).geometry = h.geometry ∧
      ∀ j, (recordValue h ns).counts j = h.counts j + if L.indexOf h.geometry ns = some j then 1 else 0 := by
  unfold recordValue
  cases hidx : L.indexOf h.geometry ns with
  | none =>
      rw [Histogram.recordValues_of_none hidx]
      exact ⟨rfl, fun j => (Int.add_zero _).symm⟩
  | some i =>
      obtain ⟨t, ht, hgeom, hcounts⟩ := Histogram.recordValues_of_index (n := 1) hidx
      rw [ht, Option.getD_some]
      refine ⟨hgeom, fun j => ?_⟩
      rw [hcounts]
      by_cases hj : j = i
      · subst hj
        rw [Function.update_self, if_pos rfl]
      · rw [Function.update_of_ne hj, if_neg fun h => hj (Option.some.inj h).symm, Int.add_zero]

/-- The histogram of a label that a Local records into: a new one counts nothing. -/
theorem Balanced.label (h : Balanced g m) (op : OpType) :
    ((m.byOp.lookup op).getD (.new L g)).geometry = g ∧
      ∀ j, ((m.byOp.lookup op).getD (.new L g)).counts j = Map.weightAt m.byOp (fun h => h.counts j) op := by
  unfold Map.weightAt
  cases hlookup : m.byOp.lookup op with
  | none => exact ⟨rfl, fun j => rfl⟩
  | some hist => exact ⟨h.byOp op hist hlookup, fun j => rfl⟩

/-- **Recording keeps an aggregate balanced**: the value falls into one bin of both histograms, or into none. -/
theorem Balanced.record {l : Local L} (h : Balanced (geometry l.high l.sig) l.toMerged) (x : Measured) :
    Balanced (geometry l.high l.sig) (l.record x).toMerged := by
  obtain ⟨hlgeom, hlabel⟩ := h.label x.op
  obtain ⟨hgeom, hcounts⟩ := counts_recordValue l.overall (clamp l.high x.latency)
  obtain ⟨hgeom', hcounts'⟩ := counts_recordValue ((l.byOp.lookup x.op).getD (.new L (geometry l.high l.sig)))
    (clamp l.high x.latency)
  refine ⟨hgeom.trans h.overall, fun op hist hlookup => ?_, fun j => ?_, ?_⟩
  · rw [show (l.record x).byOp = l.byOp.insert _ _ from rfl, Map.lookup_insert_eq] at hlookup
    split at hlookup
    · obtain rfl := Option.some.inj hlookup
      exact hgeom'.trans hlgeom
    · exact h.byOp op hist hlookup
  · show (recordValue l.overall _).counts j = Map.total (l.byOp.insert _ _) _
    rw [Map.total_insert, hcounts, hcounts', hlabel, h.bins, h.overall, hlgeom]
    omega
  · show (if x.isErr then l.errTotal + 1 else l.errTotal) =
      Map.total (if x.isErr then l.errByOp.insert x.op ((l.errByOp.lookup x.op).getD 0 + 1) else l.errByOp) id
    split
    · rw [Map.total_insert, h.errors, Map.weightAt, Option.map_id]
      simp only [id]
      omega
    · exact h.errors

theorem Balanced.landing (h : Balanced g' m) (g : Geometry) (j : Nat) :
    m.overall.landing g (L.bins g') j = m.byOp.total fun h => h.landing g (L.bins h.geometry) j := by
  have hsame : (m.byOp.total fun h => h.landing g (L.bins h.geometry) j) =
      m.byOp.total fun h => ∑ i ∈ Finset.range (L.bins g'),
        if L.indexOf g (L.valueAt g' i) = some j then h.counts i else 0 := by
    apply Map.total_congr
    intro op hist hlookup
    unfold Histogram.landing
    rw [h.byOp op hist hlookup]
  rw [hsame, Map.total_sum]
  unfold Histogram.landing
  rw [h.overall]
  refine Finset.sum_congr rfl fun i _ => ?_
  split
  · exact h.bins i
  · exact (Map.total_zero _).symm

/-- **Merging a balanced Local keeps an aggregate balanced**, also if the geometries differ. -/
theorem Balanced.mergeLocal (o : IterOrder OpType) (h : Balanced g m) {l : Local L} (hl : Balanced g' l.toMerged) :
    Balanced g (Metrics.mergeLocal o g m l) := by
  obtain ⟨hgeom, hcounts⟩ := Histogram.merge_landing m.overall l.overall
  have hlookup : ∀ op, (Metrics.mergeLocal o g m l).byOp.lookup op = (l.byOp.lookup op).elim (m.byOp.lookup op)
      fun h => some (((m.byOp.lookup op).getD (.new L g)).merge h) := by
    intro op
    refine (Map.lookup_mergeWith o _ l.byOp m.byOp op).trans ?_
    cases l.byOp.lookup op <;> rfl
  refine ⟨hgeom.trans h.overall, fun op hist hhist => ?_, fun j => ?_, ?_⟩
  · rw [hlookup] at hhist
    cases hl' : l.byOp.lookup op with
    | none =>
        rw [hl'] at hhist
        exact h.byOp op hist hhist
    | some x =>
        rw [hl'] at hhist
        obtain rfl := Option.some.inj hhist
        exact (Histogram.merge_landing _ _).1.trans (h.label op).1
  · show (m.overall.merge l.overall).counts j = _
    rw [hcounts j, h.overall, h.bins, hl.overall, hl.landing g j]
    refine (Map.total_add fun op => ?_).symm
    unfold Map.weightAt
    rw [hlookup]
    cases l.byOp.lookup op with
    | none => exact (Int.add_zero _).symm
    | some hist =>
        show (Histogram.merge _ hist).counts j = _
        rw [(Histogram.merge_landing _ _).2, (h.label op).1, (h.label op).2]
        rfl
  · show m.errTotal + l.errTotal = _
    rw [h.errors, hl.errors]
    refine (Map.total_add fun op => ?_).symm
    show Map.weightAt (Map.mergeWith _ _ _ _) id op = _
    unfold Map.weightAt
    rw [Map.lookup_mergeWith]
    cases l.errByOp.lookup op with
    | none => exact (Int.add_zero _).symm
    | some c => cases m.errByOp.lookup op <;> rfl

theorem Balanced.foldl (o : IterOrder OpType) {ls : List (Local L)} (hls : ∀ l ∈ ls, ∃ g', Balanced g' l.toMerged)
    (h : Balanced g m) : Balanced g (ls.foldl (Metrics.mergeLocal o g) m) := by
  induction ls generalizing m with
  | nil => exact h
  | cons l ls ih =>
      obtain ⟨g', hl⟩ := hls l List.mem_cons_self
      exact ih (fun l' hl' => hls l' (List.mem_cons_of_mem l hl')) (h.mergeLocal o hl)

/-- What every Recorder of a program keeps: its Locals are balanced, and those it has handed out have the geometry
that their clamp belongs to. -/
structure InUse.Sound (u : InUse L) : Prop where
  issued : ∀ k ∈ u.issued, k < u.recorder.locals.length
  locals : ∀ k l, u.recorder.locals[k]? = some l →
    ∃ g, Balanced g l.toMerged ∧ (k ∈ u.issued → g = geometry l.high l.sig)

variable {u : InUse L}

/-- **A Recorder collects a balanced aggregate.** -/
theorem InUse.Sound.collect (h : u.Sound) (o : IterOrder OpType) :
    Balanced u.recorder.geometry (u.recorder.collect o) := by
  apply Balanced.foldl o
  · intro l hl
    obtain ⟨k, hk⟩ := List.getElem?_of_mem hl
    obtain ⟨g, hg, -⟩ := h.locals k l hk
    exact ⟨g, hg⟩
  · exact balanced_new L _

theorem InUse.Sound.concat (h : u.Sound) {l : Local L} (hl : Balanced g l.toMerged) :
    InUse.Sound ⟨{ u.recorder with locals := u.recorder.locals ++ [l] }, u.issued⟩ := by
  refine ⟨fun k hk => ?_, fun k l' hget => ?_⟩
  · have := h.issued k hk
    show k < (u.recorder.locals ++ [l]).length
    rw [List.length_append]
    omega
  · by_cases hk : k < u.recorder.locals.length
    · rw [List.getElem?_append_left hk] at hget
      exact h.locals k l' hget
    · rw [List.getElem?_append_right (by omega)] at hget
      obtain ⟨-, rfl⟩ : _ ∧ l = l' := by simpa [List.getElem?_singleton] using hget
      exact ⟨g, hl, fun hissued => absurd (h.issued k hissued) hk⟩

theorem InUse.Sound.takeLocal (h : u.Sound) :
    InUse.Sound ⟨u.recorder.addLocal, u.recorder.locals.length :: u.issued⟩ := by
  have hconcat := h.concat (l := newLocal L u.recorder.high u.recorder.sig) (balanced_new L _)
  refine ⟨fun k hk => ?_, fun k l hget => ?_⟩
  · obtain rfl | hk := List.mem_cons.mp hk
    · show u.recorder.locals.length < (u.recorder.locals ++ [_]).length
      rw [List.length_append]
      exact Nat.lt_succ_self _
    · exact hconcat.issued k hk
  · by_cases hk : k = u.recorder.locals.length
    · subst hk
      rw [show u.recorder.addLocal.locals = u.recorder.locals ++ [_] from rfl, List.getElem?_concat_length] at hget
      obtain rfl := Option.some.inj hget
      exact ⟨_, balanced_new L _, fun _ => rfl⟩
    · obtain ⟨g, hg, hissued⟩ := hconcat.locals k l hget
      exact ⟨g, hg, fun hmem => hissued ((List.mem_cons.mp hmem).resolve_left hk)⟩

theorem InUse.Sound.record (h : u.Sound) {k : Nat} {x : Measured} {r : Recorder L} (hk : k ∈ u.issued)
    (hact : u.recorder.act (.record k x) = some r) : InUse.Sound ⟨r, u.issued⟩ := by
  obtain ⟨l, hget, rfl⟩ := Option.map_eq_some_iff.mp hact
  obtain ⟨g, hg, hgeom⟩ := h.locals k l hget
  obtain rfl := hgeom hk
  have hlt := (List.getElem?_eq_some_iff.mp hget).1
  refine ⟨fun j hj => ?_, fun j l' hget' => ?_⟩
  · show j < (u.recorder.locals.set k _).length
    rw [List.length_set]
    exact h.issued j hj
  · by_cases hj : j = k
    · subst hj
      rw [List.getElem?_set_self hlt] at hget'
      obtain rfl := Option.some.inj hget'
      exact ⟨_, hg.record x, fun _ => rfl⟩
    · rw [List.getElem?_set_ne (Ne.symm hj)] at hget'
      exact h.locals j l' hget'

theorem InUse.Sound.transfer {u : InUse D.toLayout} (h : u.Sound) {o o' : IterOrder OpType} {b : Bytes}
    {r : Recorder D.toLayout} (hencode : u.recorder.encode D o = .ok b) (hdecode : decode D o' b = .ok r) :
    InUse.Sound ⟨r, []⟩ := by
  obtain ⟨b', r', l, hencode', hdecode', hlocals, -, -, -, -, hoverall, hbyOp, herrByOp, herrTotal⟩ :=
    decode_encode_local D o o' u.recorder
  obtain rfl := Except.ok.inj (hencode.symm.trans hencode')
  obtain rfl := Except.ok.inj (hdecode.symm.trans hdecode')
  have hcollect := h.collect o
  refine ⟨fun k hk => (by cases hk), fun k l' hget => ⟨u.recorder.geometry, ?_, fun hk => (by cases hk)⟩⟩
  dsimp only at hget
  rw [hlocals] at hget
  obtain ⟨-, rfl⟩ : k = 0 ∧ l = l' := by simpa [List.getElem?_singleton] using hget
  refine ⟨?_, fun op hist hlookup => ?_, fun j => ?_, ?_⟩
  · rw [hoverall]
    exact hcollect.overall
  · rw [hbyOp] at hlookup
    exact hcollect.byOp op hist hlookup
  · rw [hoverall, Map.total_eq_of_lookup hbyOp]
    exact hcollect.bins j
  · rw [herrTotal, Map.total_eq_of_lookup herrByOp]
    exact hcollect.errors

/-- **Every call keeps the Recorders sound.** -/
theorem sound_call {s s' : List (InUse D.toLayout)} {c : Call} (h : ∀ u ∈ s, u.Sound) (hcall : call D s c = some s') :
    ∀ u ∈ s', u.Sound := by
  have hset : ∀ (i : Nat) (v : InUse D.toLayout), v.Sound → ∀ u ∈ s.set i v, u.Sound := by
    intro i v hv u hu
    obtain hu | rfl := List.mem_or_eq_of_mem_set hu
    · exact h u hu
    · exact hv
  have hconcat : ∀ v : InUse D.toLayout, v.Sound → ∀ u ∈ s ++ [v], u.Sound := by
    intro v hv u hu
    obtain hu | hu := List.mem_append.mp hu
    · exact h u hu
    · obtain rfl := List.mem_singleton.mp hu
      exact hv
  cases c with
  | new o =>
      obtain rfl := Option.some.inj hcall
      apply hconcat
      exact ⟨fun k hk => (by cases hk), fun k l hget => (by cases hget)⟩
  | takeLocal i =>
      obtain ⟨u, hu, rfl⟩ := Option.map_eq_some_iff.mp hcall
      apply hset
      exact (h u (List.mem_of_getElem? hu)).takeLocal
  | record i k x =>
      obtain ⟨u, hu, hcall⟩ := Option.bind_eq_some_iff.mp hcall
      split at hcall
      · next hk =>
        obtain ⟨r, hact, rfl⟩ := Option.map_eq_some_iff.mp hcall
        apply hset
        exact (h u (List.mem_of_getElem? hu)).record hk hact
      · cases hcall
  | merge i j o =>
      obtain ⟨u, hu, hcall⟩ := Option.bind_eq_some_iff.mp hcall
      obtain ⟨other, hother, rfl⟩ := Option.map_eq_some_iff.mp hcall
      apply hset
      exact (h u (List.mem_of_getElem? hu)).concat ((h other (List.mem_of_getElem? hother)).collect o)
  | transfer i o o' =>
      obtain ⟨u, hu, hcall⟩ := Option.bind_eq_some_iff.mp hcall
      split at hcall
      · cases hcall
      · next b hencode =>
        split at hcall
        · cases hcall
        · next r hdecode =>
          obtain rfl := Option.some.inj hcall
          apply hconcat
          exact (h u (List.mem_of_getElem? hu)).transfer hencode hdecode

/-- **Overall counts and counts by label never drift apart**: whatever a program has done with its Recorders, each
collects in every bin the sum of what the labels have there, and as many errors as the labels together. -/
theorem aggregates_balanced {s : List (InUse D.toLayout)} (hreach : Reachable (call D) [] s) {u : InUse D.toLayout}
    (hu : u ∈ s) (o : IterOrder OpType) :
    (∀ b, (u.recorder.collect o).overall.counts b = (u.recorder.collect o).byOp.total fun h => h.counts b) ∧
      (u.recorder.collect o).errTotal = (u.recorder.collect o).errByOp.total id := by
  have hsound : ∀ u ∈ s, u.Sound :=
    hreach.invariant (fun u hu => (by cases hu)) fun s c t hs hstep => sound_call hs hstep
  have hcollect := (hsound u hu).collect o
  exact ⟨hcollect.bins, hcollect.errors⟩

/-- Two Recorders with different options: latencies below zero and above the range are recorded, the wider Recorder is
merged into the narrower one, and the result is encoded and decoded. -/
def mergeAndSend : List Call :=
  [.new ⟨1, 10⟩, .new ⟨1, 100⟩, .takeLocal 0, .takeLocal 1, .record 0 0 ⟨"read", -5, true⟩,
    .record 1 0 ⟨"write", 1000, true⟩, .record 1 0 ⟨"read", 3, false⟩, .merge 0 1 (.stored OpType),
    .transfer 0 (.stored OpType) (.stored OpType)]

theorem aggregates_balanced_when_sent :
    ∃ s : List (InUse hdr.toLayout), ∃ u ∈ s.drop 2, Reachable (call hdr) [] s ∧
      (u.recorder.collect (.stored OpType)).overall.totalCount = 2 ∧
      (u.recorder.collect (.stored OpType)).errTotal = 2 ∧
      (∀ b, (u.recorder.collect (.stored OpType)).overall.counts b =
        (u.recorder.collect (.stored OpType)).byOp.total fun h => h.counts b) ∧
      (u.recorder.collect (.stored OpType)).errTotal = (u.recorder.collect (.stored OpType)).errByOp.total id := by
  obtain ⟨s, hreach, u, hu, hcounts⟩ : ∃ s, Reachable (call hdr) [] s ∧
      ∃ u ∈ s.drop 2, (u.recorder.collect (.stored OpType)).overall.totalCount = 2 ∧
        (u.recorder.collect (.stored OpType)).errTotal = 2 :=
    exists_reachable mergeAndSend (by decide +kernel)
  exact ⟨s, u, hu, hreach, hcounts.1, hcounts.2,
    aggregates_balanced hreach (List.mem_of_mem_drop hu) (.stored OpType)⟩

end Proofload.Metrics
