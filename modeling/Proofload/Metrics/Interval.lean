import Proofload.Metrics.Recorder
import Mathlib.Data.List.Sort

/-!
# Interval deltas (`core/metrics/interval.go`)

`TakeInterval` diffs the collected histograms against the ones it captured the time before.

* `Reported` : the captured histograms are those of a given multiset of operations;
* `diff_spec` : if that multiset is a part of what was collected now, the deltas are what came in between, in every
  bin of every label, in the errors and in the totals, and the collected histograms are captured;
* `Sums.diff` : so the deltas of all calls together account for everything reported.
-/

namespace Proofload.Metrics
open Lib

set_option autoImplicit false

variable {L : Layout}

/-! ## The code -/

/-- What `TakeInterval` computes for a label: the delta histogram and the errors since the last call. -/
structure Delta (L : Layout) where
  op : OpType
  hist : Histogram L
  errors : Int

/-- The body of the loop, for a label with the collected histogram `cur`. -/
def takeDelta (m : Merged L) (r : Recorder L) (op : OpType) (cur : Histogram L) : Delta L × Recorder L :=
  let errs := (m.errByOp.lookup op).getD 0
  ({ op, hist := deltaHist cur (r.prevSnap.lookup op), errors := errs - (r.prevErr.lookup op).getD 0 },
    { r with prevSnap := r.prevSnap.insert op cur.toSnapshot, prevErr := r.prevErr.insert op errs })

def takeDeltas (m : Merged L) (r : Recorder L) : List OpType → List (Delta L) × Recorder L
  | [] => ([], r)
  | op :: ops =>
      match m.byOp.lookup op with
      | none => takeDeltas m r ops
      | some cur =>
          let (d, r) := takeDelta m r op cur
          let (ds, r) := takeDeltas m r ops
          (d :: ds, r)

/-- The labels of an aggregate in order. -/
def Merged.ops (m : Merged L) : List OpType := m.byOp.keys.insertionSort (· ≤ ·)

/-- The part of `TakeInterval` behind `collect`. -/
def Recorder.diff (m : Merged L) (r : Recorder L) : List (Delta L) × Recorder L := takeDeltas m r m.ops

structure LatencySnapshot where
  t : Int
  opType : OpType
  throughput : Rat
  errors : Int
  pct : Percentiles
deriving DecidableEq

def latencySnapshot (D : Hdr) (now dt : Int) (d : Delta D.toLayout) : LatencySnapshot :=
  { t := now, opType := d.op, errors := d.errors, pct := toPercentiles D d.hist,
    throughput := if 0 < dt then d.hist.totalCount / seconds dt else 0 }

def Recorder.takeInterval (D : Hdr) (o : IterOrder OpType) (r : Recorder D.toLayout) (now dt : Int) :
    List LatencySnapshot × Recorder D.toLayout :=
  let (ds, r) := r.diff (r.collect o)
  (ds.map (latencySnapshot D now dt), r)

/-! ## Sums of deltas -/

/-- The sum of the deltas of a label in a bin. -/
def binSum (ds : List (Delta L)) (op : OpType) (i : Nat) : Int :=
  ((ds.filter fun d => d.op = op).map fun d => d.hist.counts i).sum

/-- The sum of the counts of all deltas. -/
def countSum (ds : List (Delta L)) : Int := (ds.map fun d => d.hist.totalCount).sum

def errSum (ds : List (Delta L)) (op : OpType) : Int := ((ds.filter fun d => d.op = op).map (·.errors)).sum

theorem binSum_append (ds es : List (Delta L)) (op : OpType) (i : Nat) :
    binSum (ds ++ es) op i = binSum ds op i + binSum es op i := by
  unfold binSum
  rw [List.filter_append, List.map_append, List.sum_append]

theorem errSum_append (ds es : List (Delta L)) (op : OpType) : errSum (ds ++ es) op = errSum ds op + errSum es op := by
  unfold errSum
  rw [List.filter_append, List.map_append, List.sum_append]

theorem binSum_cons (d : Delta L) (ds : List (Delta L)) (op : OpType) (i : Nat) :
    binSum (d :: ds) op i = (if d.op = op then d.hist.counts i else 0) + binSum ds op i := by
  unfold binSum
  rw [List.filter_cons]
  by_cases h : d.op = op
  · simp [h]
  · simp [h]

theorem errSum_cons (d : Delta L) (ds : List (Delta L)) (op : OpType) :
    errSum (d :: ds) op = (if d.op = op then d.errors else 0) + errSum ds op := by
  unfold errSum
  rw [List.filter_cons]
  by_cases h : d.op = op
  · simp [h]
  · simp [h]

/-! ## What was captured -/

/-- The histogram of a label in the abstract aggregate of `ms`. -/
def opTally (L : Layout) (g : Geometry) (ms : Multiset Measured) (op : OpType) : Histogram L :=
  tally L g (values g (ofOp op ms))

/-- The captured state of a label is that of `ps`. -/
def ReportedOp (r : Recorder L) (ps : Multiset Measured) (op : OpType) : Prop :=
  r.prevSnap.lookup op = (if ofOp op ps = 0 then none else some (opTally L r.geometry ps op).toSnapshot) ∧
    (r.prevErr.lookup op).getD 0 = errors (ofOp op ps)

/-- The last `TakeInterval` reported up to `ps`. -/
def Reported (r : Recorder L) (ps : Multiset Measured) : Prop := ∀ op, ReportedOp r ps op

variable {g : Geometry} {m : Merged L} {ms ps : Multiset Measured} {r : Recorder L}

theorem reported_new (L : Layout) (o : Options) : Reported (new L o) 0 := fun _ => ⟨rfl, rfl⟩

theorem ofOp_le (hle : ps ≤ ms) (op : OpType) : ofOp op ps ≤ ofOp op ms := Multiset.filter_le_filter _ hle

theorem values_le (g : Geometry) (hle : ps ≤ ms) : values g ps ≤ values g ms := Multiset.map_le_map hle

theorem opTally_le (g : Geometry) (hle : ps ≤ ms) (op : OpType) (i : Nat) :
    (opTally L g ps op).counts i ≤ (opTally L g ms op).counts i :=
  Int.ofNat_le.mpr (Multiset.countP_le_of_le _ (values_le g (ofOp_le hle op)))

theorem opTally_of_zero {op : OpType} (hzero : ofOp op ps = 0) (i : Nat) : (opTally L g ps op).counts i = 0 := by
  unfold opTally
  rw [hzero]
  exact congrFun (congrArg Histogram.counts (tally_zero L g)) i

theorem captured_le {op : OpType} (hprev : ReportedOp r ps op) (hle : ps ≤ ms) {s : Snapshot}
    (hs : r.prevSnap.lookup op = some s) (i : Nat) : s.counts[i]?.getD 0 ≤ (opTally L r.geometry ms op).counts i := by
  obtain ⟨hsnap, -⟩ := hprev
  rw [hs] at hsnap
  split at hsnap
  · cases hsnap
  · obtain rfl := Option.some.inj hsnap
    refine le_trans (le_of_eq ?_) (opTally_le r.geometry hle op i)
    by_cases hi : i < L.bins r.geometry
    · rw [Histogram.toSnapshot_getElem? _ hi]
      rfl
    · rw [List.getElem?_eq_none (by rw [Histogram.length_toSnapshot]; exact Nat.le_of_not_lt hi),
        (opTally L r.geometry ps op).outside i (Nat.le_of_not_lt hi)]
      rfl

/-- **The delta of a label is exact**: the difference of the two tallies in every bin. -/
theorem deltaHist_reported {op : OpType} (hprev : ReportedOp r ps op) (hle : ps ≤ ms) (i : Nat) :
    (deltaHist (opTally L r.geometry ms op) (r.prevSnap.lookup op)).counts i =
      (opTally L r.geometry ms op).counts i - (opTally L r.geometry ps op).counts i := by
  rw [hprev.1]
  by_cases hzero : ofOp op ps = 0
  · rw [if_pos hzero, opTally_of_zero hzero, Int.sub_zero]
    show (Histogram.ofSnapshot L _).counts i = _
    rw [Histogram.ofSnapshot_toSnapshot]
  · have hg : (opTally L r.geometry ps op).geometry = (opTally L r.geometry ms op).geometry := rfl
    rw [if_neg hzero]
    exact (deltaHist_counts hg (opTally_le r.geometry hle op)).2 i

theorem sum_map_sub {α : Type} (l : List α) (f h : α → Int) :
    (l.map fun x => f x - h x).sum = (l.map f).sum - (l.map h).sum := by
  induction l with
  | nil => rfl
  | cons x l ih =>
      simp only [List.map_cons, List.sum_cons]
      omega

theorem totalCount_sub {d cur prev : Histogram L} (hd : d.geometry = g) (hcur : cur.geometry = g)
    (hprev : prev.geometry = g) (h : ∀ i, d.counts i = cur.counts i - prev.counts i) :
    d.totalCount = cur.totalCount - prev.totalCount := by
  unfold Histogram.totalCount
  rw [hd, hcur, hprev, funext h]
  exact sum_map_sub _ cur.counts prev.counts

theorem errors_sub_le (hle : ps ≤ ms) :
    0 ≤ errors ms - errors ps ∧ errors ms - errors ps ≤ (ms.card : Int) - ps.card := by
  obtain ⟨ns, rfl⟩ := Multiset.le_iff_exists_add.mp hle
  have hnonneg := errors_nonneg ns
  have hcard : errors ns ≤ (ns.card : Int) := Int.ofNat_le.mpr (Multiset.countP_le_card _ ns)
  rw [errors_add, Multiset.card_add]
  omega

/-! ## The loop over the labels -/

/-- The captured state of a label is left alone. -/
def KeepsOp (r t : Recorder L) (op : OpType) : Prop :=
  t.prevSnap.lookup op = r.prevSnap.lookup op ∧ t.prevErr.lookup op = r.prevErr.lookup op

/-- Only the captured state changes. -/
def KeepsLocals (r t : Recorder L) : Prop := t.locals = r.locals ∧ t.high = r.high ∧ t.sig = r.sig

theorem KeepsLocals.geometry {t : Recorder L} (h : KeepsLocals r t) : t.geometry = r.geometry := by
  unfold Recorder.geometry
  rw [h.2.1, h.2.2]

/-- What the loop's body leaves and returns for the label `a`. -/
structure OpDiffed (r : Recorder L) (ms ps : Multiset Measured) (a : OpType) (d : Delta L) (t : Recorder L) :
    Prop where
  op : d.op = a
  geometry : d.hist.geometry = r.geometry
  bins : ∀ i, d.hist.counts i = (opTally L r.geometry ms a).counts i - (opTally L r.geometry ps a).counts i
  errs : d.errors = errors (ofOp a ms) - errors (ofOp a ps)
  keeps : KeepsLocals r t
  captured : ReportedOp t ms a
  kept : ∀ op, op ≠ a → KeepsOp r t op

theorem takeDelta_spec (hm : Tallied r.geometry m ms) (hle : ps ≤ ms) {a : OpType} (ha : ofOp a ms ≠ 0)
    (hprev : ReportedOp r ps a) {d : Delta L} {t : Recorder L}
    (htake : takeDelta m r a (opTally L r.geometry ms a) = (d, t)) : OpDiffed r ms ps a d t := by
  obtain ⟨rfl, rfl⟩ := Prod.mk.inj htake
  refine ⟨rfl, ?_, deltaHist_reported hprev hle, ?_, ⟨rfl, rfl, rfl⟩, ⟨?_, ?_⟩, fun op hop => ⟨?_, ?_⟩⟩
  · cases r.prevSnap.lookup a <;> rfl
  · show (m.errByOp.lookup a).getD 0 - (r.prevErr.lookup a).getD 0 = _
    rw [hm.getD_errByOp, hprev.2]
  · show (r.prevSnap.insert a _).lookup a = _
    rw [Map.lookup_insert_eq, if_pos rfl, if_neg ha]
    rfl
  · show ((r.prevErr.insert a _).lookup a).getD 0 = _
    rw [Map.lookup_insert_eq, if_pos rfl, Option.getD_some, hm.getD_errByOp]
  · show (r.prevSnap.insert a _).lookup op = _
    rw [Map.lookup_insert_eq, if_neg hop]
  · show (r.prevErr.insert a _).lookup op = _
    rw [Map.lookup_insert_eq, if_neg hop]

theorem ReportedOp.of_keeps {t : Recorder L} {op : OpType} (h : ReportedOp r ps op) (hkeeps : KeepsLocals r t)
    (hkept : KeepsOp r t op) : ReportedOp t ps op := by
  obtain ⟨hsnap, herr⟩ := hkept
  unfold ReportedOp
  rw [hsnap, herr, hkeeps.geometry]
  exact h

/-- What the loop over the labels `ops` leaves and returns, label by label. -/
structure Diffed (r : Recorder L) (ms ps : Multiset Measured) (ops : List OpType) (ds : List (Delta L))
    (t : Recorder L) : Prop where
  keeps : KeepsLocals r t
  captured : ∀ op ∈ ops, ReportedOp t ms op
  kept : ∀ op, op ∉ ops → KeepsOp r t op
  bins : ∀ op i, binSum ds op i =
    if op ∈ ops then (opTally L r.geometry ms op).counts i - (opTally L r.geometry ps op).counts i else 0
  errs : ∀ op, errSum ds op = if op ∈ ops then errors (ofOp op ms) - errors (ofOp op ps) else 0
  total : countSum ds =
    (ops.map fun op => (opTally L r.geometry ms op).totalCount - (opTally L r.geometry ps op).totalCount).sum
  errTotal : (ds.map (·.errors)).sum = (ops.map fun op => errors (ofOp op ms) - errors (ofOp op ps)).sum
  each : ∀ d ∈ ds, 0 ≤ d.errors ∧ d.errors ≤ d.hist.totalCount

theorem diffed_nil (r : Recorder L) (ms ps : Multiset Measured) : Diffed r ms ps [] [] r :=
  ⟨⟨rfl, rfl, rfl⟩, nofun, fun _ _ => ⟨rfl, rfl⟩, fun _ _ => rfl, fun _ => rfl, rfl, rfl, nofun⟩

theorem ite_mem_cons {a : OpType} {ops : List OpType} (hnot : a ∉ ops) (f : OpType → Int) (op : OpType) :
    (if a = op then f a else 0) + (if op ∈ ops then f op else 0) = if op ∈ a :: ops then f op else 0 := by
  by_cases h : a = op
  · subst h
    rw [if_pos rfl, if_neg hnot, if_pos List.mem_cons_self, Int.add_zero]
  · rw [if_neg h, Int.zero_add]
    exact if_congr (by simp [Ne.symm h]) rfl rfl

theorem Diffed.cons {a : OpType} {ops : List OpType} {d : Delta L} {ds : List (Delta L)} {t u : Recorder L}
    (h : Diffed t ms ps ops ds u) (hd : OpDiffed r ms ps a d t) (hnot : a ∉ ops) (hhigh : 0 ≤ r.high) (hle : ps ≤ ms) :
    Diffed r ms ps (a :: ops) (d :: ds) u := by
  have hgeom := hd.keeps.geometry
  have htotal : d.hist.totalCount = (opTally L r.geometry ms a).totalCount - (opTally L r.geometry ps a).totalCount :=
    totalCount_sub hd.geometry rfl rfl hd.bins
  refine ⟨?_, fun op hmem => ?_, fun op hmem => ?_, fun op i => ?_, fun op => ?_, ?_, ?_, fun e hmem => ?_⟩
  · obtain ⟨hlocals, hhigh, hsig⟩ := h.keeps
    exact ⟨hlocals.trans hd.keeps.1, hhigh.trans hd.keeps.2.1, hsig.trans hd.keeps.2.2⟩
  · by_cases hmem' : op ∈ ops
    · exact h.captured op hmem'
    · obtain rfl : op = a := (List.mem_cons.mp hmem).resolve_right hmem'
      exact hd.captured.of_keeps h.keeps (h.kept op hmem')
  · rw [List.mem_cons, not_or] at hmem
    obtain ⟨hsnap, herr⟩ := h.kept op hmem.2
    obtain ⟨hsnap', herr'⟩ := hd.kept op hmem.1
    exact ⟨hsnap.trans hsnap', herr.trans herr'⟩
  · rw [binSum_cons, hd.op, hd.bins, h.bins, hgeom]
    exact ite_mem_cons hnot
      (fun op => (opTally L r.geometry ms op).counts i - (opTally L r.geometry ps op).counts i) op
  · rw [errSum_cons, hd.op, hd.errs, h.errs]
    exact ite_mem_cons hnot (fun op => errors (ofOp op ms) - errors (ofOp op ps)) op
  · have hrest := h.total
    rw [hgeom] at hrest
    show d.hist.totalCount + countSum ds = _
    rw [hrest, List.map_cons, List.sum_cons, htotal]
  · show d.errors + (ds.map (·.errors)).sum = _
    rw [h.errTotal, hd.errs, List.map_cons, List.sum_cons]
  · obtain rfl | hmem := List.mem_cons.mp hmem
    · have hgeomHigh : 0 ≤ r.geometry.high := hhigh
      rw [hd.errs, htotal, opTally, opTally, totalCount_values L hgeomHigh, totalCount_values L hgeomHigh]
      exact errors_sub_le (ofOp_le hle a)
    · exact h.each e hmem

theorem takeDeltas_spec (hm : Tallied r.geometry m ms) (hhigh : 0 ≤ r.high) (hle : ps ≤ ms) {ops : List OpType}
    (hnodup : ops.Nodup) (hops : ∀ op ∈ ops, ofOp op ms ≠ 0) (hprev : ∀ op ∈ ops, ReportedOp r ps op) :
    ∃ ds t, takeDeltas m r ops = (ds, t) ∧ Diffed r ms ps ops ds t := by
  induction ops generalizing r with
  | nil => exact ⟨[], r, rfl, diffed_nil r ms ps⟩
  | cons a ops ih =>
      obtain ⟨hnot, hnodup⟩ := List.nodup_cons.mp hnodup
      have ha := hops a List.mem_cons_self
      have hcur : m.byOp.lookup a = some (opTally L r.geometry ms a) := by
        rw [hm.byOp a, if_neg ha]
        rfl
      obtain ⟨d, t, hstep⟩ : ∃ d t, takeDelta m r a (opTally L r.geometry ms a) = (d, t) := ⟨_, _, rfl⟩
      have hd := takeDelta_spec hm hle ha (hprev a List.mem_cons_self) hstep
      have hprevt : ∀ op ∈ ops, ReportedOp t ps op := fun op hmem =>
        (hprev op (List.mem_cons_of_mem a hmem)).of_keeps hd.keeps (hd.kept op fun h => hnot (h ▸ hmem))
      obtain ⟨ds, u, hloop, hdiffed⟩ := ih (by rw [hd.keeps.geometry]; exact hm) (by rw [hd.keeps.2.1]; exact hhigh)
        hnodup (fun op hmem => hops op (List.mem_cons_of_mem a hmem)) hprevt
      refine ⟨d :: ds, u, ?_, hdiffed.cons hd hnot hhigh hle⟩
      unfold takeDeltas
      rw [hcur]
      dsimp only
      rw [hstep]
      dsimp only
      rw [hloop]

/-! ## A whole diff -/

theorem mem_ops (hm : Tallied g m ms) (op : OpType) : op ∈ m.ops ↔ ofOp op ms ≠ 0 := by
  unfold Merged.ops
  rw [(List.perm_insertionSort _ _).mem_iff, Map.mem_keys_iff, hm.byOp op]
  by_cases h : ofOp op ms = 0
  · simp [h]
  · simp [h]

theorem nodup_ops (m : Merged L) : m.ops.Nodup := (List.perm_insertionSort _ _).nodup_iff.mpr m.byOp.nodupKeys

theorem op_mem_ops (hm : Tallied g m ms) (hle : ps ≤ ms) {x : Measured} (hx : x ∈ ps) : x.op ∈ m.ops := by
  rw [mem_ops hm]
  intro hzero
  have hmem : x ∈ ofOp x.op ms := Multiset.mem_filter.mpr ⟨Multiset.mem_of_le hle hx, rfl⟩
  rw [hzero] at hmem
  exact Multiset.notMem_zero x hmem

theorem sum_ops_total (hm : Tallied g m ms) (hhigh : 0 ≤ g.high) (hle : ps ≤ ms) :
    (m.ops.map fun op => (opTally L g ps op).totalCount).sum = (ps.card : Int) := by
  have hcons : ∀ (x : Measured) (qs : Multiset Measured), ((x ::ₘ qs).card : Int) = qs.card + 1 := by
    intro x qs
    rw [Multiset.card_cons, Nat.cast_succ]
  simp only [opTally, totalCount_values L hhigh]
  exact sum_over_labels (fun qs => (qs.card : Int)) rfl hcons (nodup_ops m) fun _ hx => op_mem_ops hm hle hx

theorem sum_ops_errors (hm : Tallied g m ms) (hle : ps ≤ ms) :
    (m.ops.map fun op => errors (ofOp op ps)).sum = errors ps :=
  sum_over_labels errors rfl errors_cons (nodup_ops m) fun _ hx => op_mem_ops hm hle hx

/-- **What a diff reports.** If the last report went up to `ps`, a part of the operations `ms` of the aggregate, the
deltas are the difference in every bin of every label and in the errors, and the report now goes up to `ms`. -/
theorem diff_spec (hm : Tallied r.geometry m ms) (hhigh : 0 ≤ r.high) (hprev : Reported r ps) (hle : ps ≤ ms) :
    ∃ ds t, r.diff m = (ds, t) ∧ KeepsLocals r t ∧ Reported t ms ∧
      (∀ op i, binSum ds op i = (opTally L r.geometry ms op).counts i - (opTally L r.geometry ps op).counts i) ∧
      (∀ op, errSum ds op = errors (ofOp op ms) - errors (ofOp op ps)) ∧
      countSum ds = (ms.card : Int) - ps.card ∧ (ds.map (·.errors)).sum = errors ms - errors ps ∧
      ∀ d ∈ ds, 0 ≤ d.errors ∧ d.errors ≤ d.hist.totalCount := by
  obtain ⟨ds, t, hdiff, hdiffed⟩ := takeDeltas_spec hm hhigh hle (nodup_ops m) (fun op => (mem_ops hm op).mp)
    fun op _ => hprev op
  have hpart : ∀ op, op ∉ m.ops → ofOp op ms = 0 ∧ ofOp op ps = 0 := by
    intro op hop
    rw [mem_ops hm, not_not] at hop
    exact ⟨hop, Multiset.le_zero.mp (hop ▸ ofOp_le hle op)⟩
  refine ⟨ds, t, hdiff, hdiffed.keeps, fun op => ?_, fun op i => ?_, fun op => ?_, ?_, ?_, hdiffed.each⟩
  · by_cases hmem : op ∈ m.ops
    · exact hdiffed.captured op hmem
    · obtain ⟨hms, hps⟩ := hpart op hmem
      have hkept := (hprev op).of_keeps hdiffed.keeps (hdiffed.kept op hmem)
      unfold ReportedOp at hkept ⊢
      rw [hms, if_pos rfl]
      rw [hps, if_pos rfl] at hkept
      exact hkept
  · rw [hdiffed.bins op i]
    by_cases hmem : op ∈ m.ops
    · rw [if_pos hmem]
    · obtain ⟨hms, hps⟩ := hpart op hmem
      rw [if_neg hmem, opTally_of_zero hms, opTally_of_zero hps, Int.sub_zero]
  · rw [hdiffed.errs op]
    by_cases hmem : op ∈ m.ops
    · rw [if_pos hmem]
    · obtain ⟨hms, hps⟩ := hpart op hmem
      rw [if_neg hmem, hms, hps, Int.sub_self]
  · rw [hdiffed.total, sum_map_sub, sum_ops_total hm hhigh (le_refl ms), sum_ops_total hm hhigh hle]
  · rw [hdiffed.errTotal, sum_map_sub, sum_ops_errors hm (le_refl ms), sum_ops_errors hm hle]

/-! ## All calls together -/

/-- The deltas of all calls so far account for the operations `ps`. -/
structure Sums (g : Geometry) (ds : List (Delta L)) (ps : Multiset Measured) : Prop where
  bins : ∀ op i, binSum ds op i = (opTally L g ps op).counts i
  errs : ∀ op, errSum ds op = errors (ofOp op ps)
  total : countSum ds = (ps.card : Int)
  errTotal : (ds.map (·.errors)).sum = errors ps
  each : ∀ d ∈ ds, 0 ≤ d.errors ∧ d.errors ≤ d.hist.totalCount

theorem sums_nil (L : Layout) (g : Geometry) : Sums g ([] : List (Delta L)) 0 :=
  ⟨fun _ i => (opTally_of_zero rfl i).symm, fun _ => rfl, rfl, rfl, nofun⟩

/-- **The deltas telescope**: one more call takes the account from `ps` to `ms`. -/
theorem Sums.diff {taken : List (Delta L)} (h : Sums r.geometry taken ps) (hm : Tallied r.geometry m ms)
    (hhigh : 0 ≤ r.high) (hprev : Reported r ps) (hle : ps ≤ ms) :
    ∃ ds t, r.diff m = (ds, t) ∧ KeepsLocals r t ∧ Reported t ms ∧ Sums r.geometry (taken ++ ds) ms := by
  obtain ⟨ds, t, hdiff, hkeeps, hreported, hbins, herrs, htotal, herrTotal, heach⟩ := diff_spec hm hhigh hprev hle
  refine ⟨ds, t, hdiff, hkeeps, hreported, fun op i => ?_, fun op => ?_, ?_, ?_, fun d hmem => ?_⟩
  · rw [binSum_append, h.bins, hbins]
    omega
  · rw [errSum_append, h.errs, herrs]
    omega
  · have hsplit : countSum (taken ++ ds) = countSum taken + countSum ds := by
      unfold countSum
      rw [List.map_append, List.sum_append]
    rw [hsplit, h.total, htotal]
    omega
  · rw [List.map_append, List.sum_append, h.errTotal, herrTotal]
    omega
  · exact (List.mem_append.mp hmem).elim (h.each d) (heach d)

end Proofload.Metrics
