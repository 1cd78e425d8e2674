import Proofload.Metrics.Histogram
import Proofload.Lib.Run
import Mathlib.Algebra.BigOperators.Group.Finset.Piecewise
import Mathlib.Algebra.Order.Group.Multiset

/-!
# Recorders (`core/metrics/local.go`, `recorder.go`, `percentiles.go`)

Every load goroutine records into its own Local; a Recorder merges its Locals when it is asked for an aggregate.
A latency is clamped into the tracked range, a failed operation also counts as an error of its label.

* `Tallied` : an aggregate that holds a given multiset of measured operations: its bins, its labels and its errors
  are determined by it (`Tallied.unique`);
* `Tallied.record`, `Tallied.mergeLocal` : recording adds an operation, merging adds multisets;
* `Held.collect` : a Recorder whose Locals hold the given multisets collects their sum;
* `Held.act` : what recording does to the Locals.
-/

namespace Proofload.Metrics
open Lib

set_option autoImplicit false

/-! ## The code -/

def defaultSigFigs : Int := 3

/-- Sixty seconds in nanoseconds. -/
def defaultMaxLatency : Int := 60000000000

def lowestDiscernible : Int := 1

/-- The geometry of `newHist`. -/
def geometry (high sig : Int) : Geometry := ⟨lowestDiscernible, high, sig⟩

/-- The histograms and error counters that `merged` and a Local have in common. -/
structure Merged (L : Layout) where
  overall : Histogram L
  byOp : Map OpType (Histogram L)
  errByOp : Map OpType Int
  errTotal : Int

structure Local (L : Layout) extends Merged L where
  high : Int
  sig : Int

/-- One measured operation. -/
structure Measured where
  op : OpType
  latency : Int
  isErr : Bool
deriving DecidableEq

structure Options where
  significantFigures : Int
  maxLatency : Int
deriving DecidableEq

structure Recorder (L : Layout) where
  high : Int
  sig : Int
  locals : List (Local L)
  prevSnap : Map OpType Snapshot
  prevErr : Map OpType Int

variable {L : Layout}

def newMerged (L : Layout) (g : Geometry) : Merged L := ⟨.new L g, ∅, ∅, 0⟩

def newLocal (L : Layout) (high sig : Int) : Local L := { newMerged L (geometry high sig) with high, sig }

/-- The latency in the tracked range. -/
def clamp (high latency : Int) : Int :=
  let ns := if latency < 0 then 0 else latency
  if high < ns then high else ns

/-- `RecordValue` with its error ignored. -/
def recordValue (h : Histogram L) (ns : Int) : Histogram L := (h.recordValues ns 1).getD h

def Local.record (l : Local L) (x : Measured) : Local L :=
  let ns := clamp l.high x.latency
  { l with
    overall := recordValue l.overall ns
    byOp := l.byOp.insert x.op (recordValue ((l.byOp.lookup x.op).getD (.new L (geometry l.high l.sig))) ns)
    errByOp := if x.isErr then l.errByOp.insert x.op ((l.errByOp.lookup x.op).getD 0 + 1) else l.errByOp
    errTotal := if x.isErr then l.errTotal + 1 else l.errTotal }

/-- `New`: unset or invalid options fall back to the defaults. -/
def new (L : Layout) (o : Options) : Recorder L :=
  { high := if o.maxLatency ≤ 0 then defaultMaxLatency else o.maxLatency,
    sig := if o.significantFigures < 1 ∨ 5 < o.significantFigures then defaultSigFigs else o.significantFigures,
    locals := [], prevSnap := ∅, prevErr := ∅ }

def Recorder.geometry (r : Recorder L) : Geometry := Metrics.geometry r.high r.sig

/-- `Recorder.Local`. -/
def Recorder.addLocal (r : Recorder L) : Recorder L := { r with locals := r.locals ++ [newLocal L r.high r.sig] }

/-- One Local in the loop of `collect`. -/
def mergeLocal (o : IterOrder OpType) (g : Geometry) (m : Merged L) (l : Local L) : Merged L :=
  { overall := m.overall.merge l.overall,
    byOp := Map.mergeWith o (fun dst h => (dst.getD (.new L g)).merge h) l.byOp m.byOp,
    errByOp := Map.mergeWith o (fun dst c => dst.getD 0 + c) l.errByOp m.errByOp,
    errTotal := m.errTotal + l.errTotal }

def Recorder.collect (o : IterOrder OpType) (r : Recorder L) : Merged L :=
  r.locals.foldl (mergeLocal o r.geometry) (newMerged L r.geometry)

/-- `Recorder.Merge`: the aggregate of the other Recorder becomes one more Local. -/
def Recorder.merge (o : IterOrder OpType) (r other : Recorder L) : Recorder L :=
  { r with locals := r.locals ++ [{ other.collect o with high := r.high, sig := r.sig }] }

/-! ## Snapshots -/

/-- What else is used of the library: statistics of a histogram, and its encoding, which is lossless. -/
structure Hdr extends Layout where
  mean : Histogram toLayout → Rat
  valueAtQuantile : Histogram toLayout → Rat → Int
  max : Histogram toLayout → Int
  encode : Histogram toLayout → Except String Bytes
  decode : Bytes → Except String (Histogram toLayout)
  lossless : ∀ h, ∃ bs, encode h = .ok bs ∧ decode bs = .ok h

/-- A latency summary in milliseconds. -/
structure Percentiles where
  count : Int
  mean : Rat
  p50 : Rat
  p90 : Rat
  p95 : Rat
  p99 : Rat
  p999 : Rat
  p9999 : Rat
  max : Rat
deriving DecidableEq

def nsPerMs : Rat := 1000000

def msAt (D : Hdr) (h : Histogram D.toLayout) (p : Rat) : Rat := D.valueAtQuantile h p / nsPerMs

def toPercentiles (D : Hdr) (h : Histogram D.toLayout) : Percentiles :=
  { count := h.totalCount, mean := D.mean h / nsPerMs, p50 := msAt D h 50, p90 := msAt D h 90, p95 := msAt D h 95,
    p99 := msAt D h 99, p999 := msAt D h (999 / 10), p9999 := msAt D h (9999 / 100), max := D.max h / nsPerMs }

inductive Phase where
  | warmup
  | measure
deriving DecidableEq

/-- The aggregate of a phase; the caller sets the run's id. -/
structure RunResult where
  phase : Phase
  total : Int
  errors : Int
  duration : Int
  throughput : Rat
  overall : Percentiles
  byOp : Map OpType Percentiles

/-- `Duration.Seconds`. -/
def seconds (d : Int) : Rat := d / 1000000000

def Recorder.snapshot (D : Hdr) (o : IterOrder OpType) (r : Recorder D.toLayout) (phase : Phase) (dur : Int) :
    RunResult :=
  let m := r.collect o
  { phase, total := m.overall.totalCount, errors := m.errTotal, duration := dur,
    throughput := if 0 < dur then m.overall.totalCount / seconds dur else 0,
    overall := toPercentiles D m.overall,
    byOp := Map.mergeWith o (fun _ h => toPercentiles D h) m.byOp ∅ }

/-! ## The multiset an aggregate holds -/

/-- The operations with a label. -/
def ofOp (op : OpType) (ms : Multiset Measured) : Multiset Measured := ms.filter fun x => x.op = op

/-- The values recorded for operations. -/
def values (g : Geometry) (ms : Multiset Measured) : Multiset Int := ms.map fun x => clamp g.high x.latency

def errors (ms : Multiset Measured) : Int := (ms.countP fun x => x.isErr = true : Nat)

/-- The aggregate `m` holds the operations `ms`. -/
structure Tallied (g : Geometry) (m : Merged L) (ms : Multiset Measured) : Prop where
  overall : m.overall = tally L g (values g ms)
  byOp : ∀ op, m.byOp.lookup op = if ofOp op ms = 0 then none else some (tally L g (values g (ofOp op ms)))
  errByOp : ∀ op, m.errByOp.lookup op = if errors (ofOp op ms) = 0 then none else some (errors (ofOp op ms))
  errTotal : m.errTotal = errors ms

variable {g : Geometry} {ms ns : Multiset Measured} {m : Merged L}

theorem Tallied.unique {m' : Merged L} (h : Tallied g m ms) (h' : Tallied g m' ms) :
    m.overall = m'.overall ∧ m.errTotal = m'.errTotal ∧ (∀ op, m.byOp.lookup op = m'.byOp.lookup op) ∧
      ∀ op, m.errByOp.lookup op = m'.errByOp.lookup op :=
  ⟨h.overall.trans h'.overall.symm, h.errTotal.trans h'.errTotal.symm,
    fun op => (h.byOp op).trans (h'.byOp op).symm, fun op => (h.errByOp op).trans (h'.errByOp op).symm⟩

theorem tallied_zero (L : Layout) (g : Geometry) : Tallied g (newMerged L g) 0 :=
  ⟨(tally_zero L g).symm, fun _ => rfl, fun _ => rfl, rfl⟩

theorem errors_nonneg (ms : Multiset Measured) : 0 ≤ errors ms := Int.natCast_nonneg _

theorem errors_cons (x : Measured) (ms : Multiset Measured) :
    errors (x ::ₘ ms) = errors ms + if x.isErr = true then 1 else 0 := by
  unfold errors
  rw [Multiset.countP_cons]
  push_cast
  rfl

theorem errors_add (ms ns : Multiset Measured) : errors (ms + ns) = errors ms + errors ns := by
  unfold errors
  rw [Multiset.countP_add]
  push_cast
  rfl

theorem ofOp_cons (op : OpType) (x : Measured) (ms : Multiset Measured) :
    ofOp op (x ::ₘ ms) = if x.op = op then x ::ₘ ofOp op ms else ofOp op ms := by
  unfold ofOp
  split
  · next h => exact Multiset.filter_cons_of_pos ms h
  · next h => exact Multiset.filter_cons_of_neg ms h

theorem ofOp_add (op : OpType) (ms ns : Multiset Measured) : ofOp op (ms + ns) = ofOp op ms + ofOp op ns :=
  Multiset.filter_add _ ms ns

theorem Tallied.getD_byOp (h : Tallied g m ms) (op : OpType) :
    (m.byOp.lookup op).getD (.new L g) = tally L g (values g (ofOp op ms)) := by
  rw [h.byOp op]
  split
  · next hzero =>
    rw [hzero]
    exact (tally_zero L g).symm
  · rfl

theorem Tallied.getD_errByOp (h : Tallied g m ms) (op : OpType) :
    (m.errByOp.lookup op).getD 0 = errors (ofOp op ms) := by
  rw [h.errByOp op]
  split
  · next hzero => rw [hzero]; rfl
  · rfl

theorem recordValue_tally (v : Int) (vs : Multiset Int) :
    recordValue (tally L g vs) v = tally L g (v ::ₘ vs) := record_tally v

theorem Tallied.record {l : Local L} (h : Tallied (geometry l.high l.sig) l.toMerged ms) (x : Measured) :
    Tallied (geometry l.high l.sig) (l.record x).toMerged (x ::ₘ ms) := by
  have hvalues : ∀ ns : Multiset Measured, values (geometry l.high l.sig) (x ::ₘ ns) =
      clamp l.high x.latency ::ₘ values (geometry l.high l.sig) ns := fun ns => Multiset.map_cons _ x ns
  refine ⟨?_, fun op => ?_, fun op => ?_, ?_⟩
  · show recordValue l.overall _ = _
    rw [h.overall, recordValue_tally, hvalues]
  · show (l.byOp.insert _ _).lookup op = _
    rw [Map.lookup_insert_eq, h.getD_byOp, recordValue_tally, ofOp_cons]
    by_cases hop : x.op = op
    · rw [if_pos hop.symm, if_pos hop, if_neg Multiset.cons_ne_zero, hvalues, hop]
    · rw [if_neg (Ne.symm hop), if_neg hop, h.byOp op]
  · have herrors := errors_nonneg (ofOp op ms)
    show (if x.isErr = true then _ else _ : Map OpType Int).lookup op = _
    by_cases herr : x.isErr = true
    · rw [if_pos herr, Map.lookup_insert_eq, h.getD_errByOp, ofOp_cons]
      by_cases hop : x.op = op
      · rw [if_pos hop.symm, if_pos hop, errors_cons, if_pos herr, if_neg (by omega), hop]
      · rw [if_neg (Ne.symm hop), if_neg hop, h.errByOp op]
    · have hsame : errors (ofOp op (x ::ₘ ms)) = errors (ofOp op ms) := by
        rw [ofOp_cons]
        split
        · rw [errors_cons, if_neg herr, Int.add_zero]
        · rfl
      rw [if_neg herr, h.errByOp op, hsame]
  · show (if x.isErr = true then _ else _) = _
    rw [errors_cons, h.errTotal]
    split <;> omega

theorem Tallied.mergeLocal (o : IterOrder OpType) (h : Tallied g m ms) {l : Local L} (hl : Tallied g l.toMerged ns) :
    Tallied g (mergeLocal o g m l) (ms + ns) := by
  have hvalues : ∀ ps qs : Multiset Measured, values g (ps + qs) = values g ps + values g qs :=
    fun ps qs => Multiset.map_add _ ps qs
  refine ⟨?_, fun op => ?_, fun op => ?_, ?_⟩
  · show m.overall.merge l.overall = _
    rw [h.overall, hl.overall, merge_tally, hvalues]
  · show (Map.mergeWith _ _ _ _).lookup op = _
    rw [Map.lookup_mergeWith, hl.byOp op, ofOp_add, hvalues]
    by_cases hzero : ofOp op ns = 0
    · rw [if_pos hzero, hzero, Multiset.add_zero]
      dsimp only
      rw [h.byOp op]
      simp [values]
    · have hsum : ofOp op ms + ofOp op ns ≠ 0 := fun hsum =>
        hzero (Multiset.le_zero.mp ((Multiset.le_add_left _ (ofOp op ms)).trans_eq hsum))
      rw [if_neg hzero, if_neg hsum]
      dsimp only
      rw [h.getD_byOp, merge_tally]
  · have herrors := errors_nonneg (ofOp op ms)
    have herrors' := errors_nonneg (ofOp op ns)
    show (Map.mergeWith _ _ _ _).lookup op = _
    rw [Map.lookup_mergeWith, hl.errByOp op, ofOp_add, errors_add]
    by_cases hzero : errors (ofOp op ns) = 0
    · rw [if_pos hzero, hzero, Int.add_zero]
      exact h.errByOp op
    · rw [if_neg hzero]
      dsimp only
      rw [h.getD_errByOp, if_neg (by omega)]
  · show m.errTotal + l.errTotal = _
    rw [h.errTotal, hl.errTotal, errors_add]

/-! ## Counting operations -/

theorem clamp_range {high : Int} (hhigh : 0 ≤ high) (latency : Int) :
    0 ≤ clamp high latency ∧ clamp high latency ≤ high := by
  unfold clamp
  dsimp only
  split <;> split <;> omega

theorem totalCount_values (L : Layout) {g : Geometry} (hhigh : 0 ≤ g.high) (ms : Multiset Measured) :
    (tally L g (values g ms)).totalCount = (ms.card : Int) := by
  rw [totalCount_tally, values, Multiset.card_map]
  intro v hv
  obtain ⟨x, -, rfl⟩ := Multiset.mem_map.mp hv
  obtain ⟨hlow, hle⟩ := clamp_range hhigh x.latency
  exact L.tracked hlow hle

theorem sum_over_labels (count : Multiset Measured → Int) {weight : Measured → Int} (hzero : count 0 = 0)
    (hcons : ∀ x ms, count (x ::ₘ ms) = count ms + weight x) {ops : List OpType} (hnodup : ops.Nodup)
    {ms : Multiset Measured} (hops : ∀ x ∈ ms, x.op ∈ ops) : (ops.map fun op => count (ofOp op ms)).sum = count ms := by
  induction ms using Multiset.induction_on with
  | empty =>
      rw [hzero]
      refine List.sum_eq_zero fun y hy => ?_
      obtain ⟨op, -, rfl⟩ := List.mem_map.mp hy
      exact hzero
  | cons x ms ih =>
      have hlabel : ∀ op, count (ofOp op (x ::ₘ ms)) = count (ofOp op ms) + if x.op = op then weight x else 0 := by
        intro op
        rw [ofOp_cons]
        split
        · exact hcons _ _
        · exact (Int.add_zero _).symm
      simp only [hlabel]
      rw [List.sum_map_add, ih fun y hy => hops y (Multiset.mem_cons_of_mem hy),
        sum_indicator hnodup (hops x (Multiset.mem_cons_self x ms)), hcons]

/-! ## The Locals of a Recorder -/

/-- The Locals have the Recorder's geometry and hold the operations `contents`, by position. -/
def Held (r : Recorder L) (contents : Nat → Multiset Measured) : Prop :=
  ∀ (i : Nat) (l : Local L), r.locals[i]? = some l →
    l.high = r.high ∧ l.sig = r.sig ∧ Tallied r.geometry l.toMerged (contents i)

variable {r : Recorder L} {contents : Nat → Multiset Measured}

theorem Held.collect_take (o : IterOrder OpType) (h : Held r contents) {k : Nat} (hk : k ≤ r.locals.length) :
    Tallied r.geometry ((r.locals.take k).foldl (Metrics.mergeLocal o r.geometry) (newMerged L r.geometry))
      (∑ i ∈ Finset.range k, contents i) := by
  induction k with
  | zero => exact tallied_zero L r.geometry
  | succ k ih =>
      obtain ⟨l, hget⟩ : ∃ l, r.locals[k]? = some l := ⟨_, List.getElem?_eq_getElem (by omega)⟩
      rw [List.take_add_one, hget, List.foldl_append, Finset.sum_range_succ]
      exact (ih (by omega)).mergeLocal o (h k l hget).2.2

/-- **A Recorder collects what its Locals hold.** -/
theorem Held.collect (o : IterOrder OpType) (h : Held r contents) :
    Tallied r.geometry (r.collect o) (∑ i ∈ Finset.range r.locals.length, contents i) := by
  have := h.collect_take o (Nat.le_refl r.locals.length)
  rw [List.take_length] at this
  exact this

theorem Held.concat (h : Held r contents) {l : Local L} (hhigh : l.high = r.high) (hsig : l.sig = r.sig)
    (hl : Tallied r.geometry l.toMerged ns) :
    Held { r with locals := r.locals ++ [l] } (Function.update contents r.locals.length ns) := by
  intro i l' hget
  by_cases hi : i = r.locals.length
  · subst hi
    rw [List.getElem?_concat_length] at hget
    obtain rfl := Option.some.inj hget
    rw [Function.update_self]
    exact ⟨hhigh, hsig, hl⟩
  · have hlt : i < r.locals.length := by
      have := (List.getElem?_eq_some_iff.mp hget).1
      rw [List.length_append] at this
      simp only [List.length_singleton] at this
      omega
    rw [List.getElem?_append_left hlt] at hget
    rw [Function.update_of_ne hi]
    exact h i l' hget

theorem Held.addLocal (h : Held r contents) : Held r.addLocal (Function.update contents r.locals.length 0) :=
  h.concat rfl rfl (tallied_zero L r.geometry)

theorem Held.record (h : Held r contents) {i : Nat} {l : Local L} (hget : r.locals[i]? = some l) (x : Measured) :
    Held { r with locals := r.locals.set i (l.record x) } (Function.update contents i (x ::ₘ contents i)) := by
  obtain ⟨hhigh, hsig, hl⟩ := h i l hget
  have hlt := (List.getElem?_eq_some_iff.mp hget).1
  intro j l' hget'
  by_cases hj : j = i
  · subst hj
    rw [List.getElem?_set_self hlt] at hget'
    obtain rfl := Option.some.inj hget'
    rw [Function.update_self]
    have hgeom : r.geometry = Metrics.geometry l.high l.sig := by
      unfold Recorder.geometry
      rw [hhigh, hsig]
    refine ⟨hhigh, hsig, ?_⟩
    show Tallied r.geometry _ _
    rw [hgeom] at hl ⊢
    exact hl.record x
  · rw [List.getElem?_set_ne (Ne.symm hj)] at hget'
    rw [Function.update_of_ne hj]
    exact h j l' hget'

theorem sum_update_cons {n i : Nat} (hi : i < n) (x : Measured) (contents : Nat → Multiset Measured) :
    ∑ j ∈ Finset.range n, Function.update contents i (x ::ₘ contents i) j = x ::ₘ ∑ j ∈ Finset.range n, contents j := by
  have hmem : i ∈ Finset.range n := Finset.mem_range.mpr hi
  rw [Finset.sum_update_of_mem hmem, Finset.sum_eq_add_sum_sdiff_singleton i contents fun h => absurd hmem h,
    Multiset.cons_add]

theorem sum_update_outside {n : Nat} (c : Multiset Measured) (contents : Nat → Multiset Measured) :
    ∑ j ∈ Finset.range n, Function.update contents n c j = ∑ j ∈ Finset.range n, contents j :=
  Finset.sum_congr rfl fun j hj => Function.update_of_ne (by have := Finset.mem_range.mp hj; omega) _ _

/-! ## Runs of a Recorder -/

/-- What load goroutines do: take a Local, and record into the Local at a position. -/
inductive Act where
  | addLocal
  | record (i : Nat) (x : Measured)
deriving DecidableEq

def Recorder.act (r : Recorder L) : Act → Option (Recorder L)
  | .addLocal => some r.addLocal
  | .record i x => r.locals[i]?.map fun l => { r with locals := r.locals.set i (l.record x) }

/-- The operations that a run records. -/
def recorded : List Act → Multiset Measured
  | [] => 0
  | .addLocal :: acts => recorded acts
  | .record _ x :: acts => x ::ₘ recorded acts

theorem Held.act (h : Held r contents) {a : Act} {r' : Recorder L} (hstep : r.act a = some r') :
    ∃ contents', Held r' contents' ∧ r'.high = r.high ∧ r'.sig = r.sig ∧
      ∑ i ∈ Finset.range r'.locals.length, contents' i =
        ∑ i ∈ Finset.range r.locals.length, contents i + recorded [a] := by
  cases a with
  | addLocal =>
      obtain rfl := Option.some.inj hstep
      refine ⟨_, h.addLocal, rfl, rfl, ?_⟩
      have hlength : r.addLocal.locals.length = r.locals.length + 1 := List.length_append
      rw [hlength, Finset.sum_range_succ, sum_update_outside, Function.update_self]
      rfl
  | record i x =>
      obtain ⟨l, hget, rfl⟩ := Option.map_eq_some_iff.mp hstep
      refine ⟨_, h.record hget x, rfl, rfl, ?_⟩
      dsimp only
      rw [List.length_set, sum_update_cons (List.getElem?_eq_some_iff.mp hget).1]
      show _ = _ + (x ::ₘ 0)
      rw [Multiset.add_cons, add_zero]

/-- **Over a run, a Recorder comes to hold what the run records.** -/
theorem Held.run {acts : List Act} {r r' : Recorder L} {contents : Nat → Multiset Measured} (h : Held r contents)
    (hrun : run Recorder.act r acts = some r') :
    ∃ contents', Held r' contents' ∧ r'.high = r.high ∧ r'.sig = r.sig ∧
      ∑ i ∈ Finset.range r'.locals.length, contents' i =
        ∑ i ∈ Finset.range r.locals.length, contents i + recorded acts := by
  induction acts generalizing r contents with
  | nil =>
      obtain rfl : r = r' := Option.some.inj hrun
      exact ⟨contents, h, rfl, rfl, (add_zero _).symm⟩
  | cons a acts ih =>
      rw [run_cons, Option.bind_eq_some_iff] at hrun
      obtain ⟨t, hstep, hrun⟩ := hrun
      obtain ⟨contents₁, h₁, hhigh₁, hsig₁, hsum₁⟩ := h.act hstep
      obtain ⟨contents₂, h₂, hhigh₂, hsig₂, hsum₂⟩ := ih h₁ hrun
      refine ⟨contents₂, h₂, hhigh₂.trans hhigh₁, hsig₂.trans hsig₁, ?_⟩
      have hsplit : recorded (a :: acts) = recorded [a] + recorded acts := by
        cases a with
        | addLocal => exact (zero_add _).symm
        | record i x =>
            show x ::ₘ _ = (x ::ₘ 0) + _
            rw [Multiset.cons_add, zero_add]
      rw [hsum₂, hsum₁, hsplit, add_assoc]

theorem collect_of_run {o : Options} {acts : List Act} (hrun : run Recorder.act (new L o) acts = some r) :
    r.high = (new L o).high ∧ r.sig = (new L o).sig ∧ ∀ ord, Tallied r.geometry (r.collect ord) (recorded acts) := by
  have hstart : Held (new L o) fun _ => 0 := fun i l hget => by cases hget
  obtain ⟨contents, h, hhigh, hsig, hsum⟩ := hstart.run hrun
  refine ⟨hhigh, hsig, fun ord => ?_⟩
  have hcollect := h.collect ord
  rw [hsum] at hcollect
  simpa using hcollect

/-! ## Equal snapshots -/

theorem lookup_snapshot_byOp {D : Hdr} (o : IterOrder OpType) (r : Recorder D.toLayout) (phase : Phase) (dur : Int)
    (op : OpType) :
    (r.snapshot D o phase dur).byOp.lookup op = ((r.collect o).byOp.lookup op).map (toPercentiles D) := by
  show (Map.mergeWith _ _ _ _).lookup op = _
  rw [Map.lookup_mergeWith]
  cases (r.collect o).byOp.lookup op <;> rfl

/-- Recorders that hold the same operations have the same snapshots, up to the order of the labels. -/
theorem snapshot_eq {D : Hdr} {g : Geometry} {ms : Multiset Measured} {o o' : IterOrder OpType}
    {r r' : Recorder D.toLayout} (h : Tallied g (r.collect o) ms) (h' : Tallied g (r'.collect o') ms) (phase : Phase)
    (dur : Int) :
    (r.snapshot D o phase dur).total = (r'.snapshot D o' phase dur).total ∧
    (r.snapshot D o phase dur).errors = (r'.snapshot D o' phase dur).errors ∧
    (r.snapshot D o phase dur).throughput = (r'.snapshot D o' phase dur).throughput ∧
    (r.snapshot D o phase dur).overall = (r'.snapshot D o' phase dur).overall ∧
    ∀ op, (r.snapshot D o phase dur).byOp.lookup op = (r'.snapshot D o' phase dur).byOp.lookup op := by
  obtain ⟨hoverall, herr, hbyOp, -⟩ := h.unique h'
  refine ⟨congrArg Histogram.totalCount hoverall, herr, ?_, congrArg (toPercentiles D) hoverall, fun op => ?_⟩
  · show (if 0 < dur then _ else _) = if 0 < dur then _ else _
    rw [hoverall]
  · rw [lookup_snapshot_byOp, lookup_snapshot_byOp, hbyOp op]

end Proofload.Metrics
