import Proofload.Export.Influx
import Proofload.Lib.Lists

/-!
# The Pushgateway exporter (`core/export/pushgateway.go`)

`Export` pushes the last snapshot of every operation type in the Prometheus text exposition format: five metrics, the
first with one sample for every quantile. A gateway refuses a body with two samples of one series. Label values are
quoted, with backslashes, quotes and line breaks escaped.

* `mem_latestPerOp`, `nodup_ops_latestPerOp` : which snapshots are pushed;
* `parseSample_text` : a sample line is read back as its sample;
* `series_injective` : the series of a sample determines its metric, operation type and quantile;
* `pushgateway_no_duplicate_series` : the samples of a body.
-/

namespace Proofload.Export
open Lib

set_option autoImplicit false

variable {F : Type}

/-! ## The code -/

def metricLatency : Bytes := stringBytes "proofload_latency_ms"

def metricLatencyMax : Bytes := stringBytes "proofload_latency_max_ms"

def metricThroughput : Bytes := stringBytes "proofload_throughput"

def metricInFlight : Bytes := stringBytes "proofload_in_flight"

def metricErrors : Bytes := stringBytes "proofload_errors"

/-- The quantile labels with their percentiles. -/
def quantiles (F : Type) : List (Bytes × (Percentiles F → F)) :=
  [(stringBytes "0.5", (·.p50)), (stringBytes "0.9", (·.p90)), (stringBytes "0.95", (·.p95)),
    (stringBytes "0.99", (·.p99)), (stringBytes "0.999", (·.p999)), (stringBytes "0.9999", (·.p9999))]

/-- The last snapshot of every operation type. -/
def byOp (snaps : List (LatencySnapshot F)) : Map Bytes (LatencySnapshot F) :=
  snaps.foldl (fun m s => m.insert s.opType s) ∅

def latestPerOp (snaps : List (LatencySnapshot F)) : List (LatencySnapshot F) :=
  ((byOp snaps).keys.insertionSort fun a b => bytesLE a b = true).filterMap fun op => (byOp snaps).lookup op

/-- The replacer of the label values. -/
def escapePromLabelValue (s : Bytes) : Bytes :=
  s.flatMap fun b => if b = 92 then [92, 92] else if b = 34 then [92, 34] else if b = 10 then [92, 110] else [b]

/-- The labels of a sample: the operation type, overlaid with the caller's labels, and a quantile unless it is empty. -/
def promSet (op : Bytes) (labels : Map Bytes Bytes) (quantile : Bytes) : Map Bytes Bytes :=
  if quantile ≠ [] then (tagMap op labels).insert (stringBytes "quantile") quantile else tagMap op labels

/-- One label. -/
def promLabel (p : Bytes × Bytes) : Bytes := p.1 ++ 61 :: 34 :: escapePromLabelValue p.2 ++ [34]

def promLabels (op : Bytes) (labels : Map Bytes Bytes) (quantile : Bytes) : Bytes :=
  let set := promSet op labels quantile
  123 :: List.intercalate [44] ((sortedKeys set).map fun k => promLabel (k, (set.lookup k).getD [])) ++ [125]

def typeLine (name : Bytes) : Bytes := stringBytes "# TYPE " ++ name ++ stringBytes " gauge"

def writeQuantileFamily (fmt : FloatText F) (snaps : List (LatencySnapshot F)) (labels : Map Bytes Bytes) : Bytes :=
  typeLine metricLatency ++ [10] ++ snaps.flatMap fun s => (quantiles F).flatMap fun q =>
    metricLatency ++ promLabels s.opType labels q.1 ++ 32 :: fmt.f (q.2 s.pct) ++ [10]

def writeScalarFamily (name : Bytes) (snaps : List (LatencySnapshot F)) (labels : Map Bytes Bytes)
    (val : LatencySnapshot F → Bytes) : Bytes :=
  typeLine name ++ [10] ++ snaps.flatMap fun s => name ++ promLabels s.opType labels [] ++ 32 :: val s ++ [10]

def buildExposition (fmt : FloatText F) (snaps : List (LatencySnapshot F)) (labels : Map Bytes Bytes) : Bytes :=
  writeQuantileFamily fmt snaps labels ++
    writeScalarFamily metricLatencyMax snaps labels (fun s => fmt.f s.pct.max) ++
    writeScalarFamily metricThroughput snaps labels (fun s => fmt.f s.throughput) ++
    writeScalarFamily metricInFlight snaps labels (fun s => formatInt s.inFlight) ++
    writeScalarFamily metricErrors snaps labels (fun s => formatInt s.errors)

/-! ## The exposition format -/

/-- In a quoted value a backslash escapes backslashes, quotes and the letter of the line break. -/
def labelCode : Code UInt8 where
  esc := 92
  letter b := if b = 92 then some 92 else if b = 34 then some 34 else if b = 10 then some 110 else none
  symbol b := if b = 92 then some 92 else if b = 34 then some 34 else if b = 110 then some 10 else none
  lenient := false

/-- The labels up to the closing brace, at most `fuel` of them, and the text behind it. -/
def decodeLabels : Nat → Bytes → Option (List (Bytes × Bytes) × Bytes)
  | 0, _ => none
  | fuel + 1, l =>
      if (l.dropWhile (· ≠ 61)).take 2 = [61, 34] then
        (labelCode.scan (· = 34) ((l.dropWhile (· ≠ 61)).drop 2)).bind fun value =>
          if value.2.take 2 = [34, 44] then
            (decodeLabels fuel (value.2.drop 2)).map (Prod.map ((l.takeWhile (· ≠ 61), value.1) :: ·) id)
          else if value.2.take 2 = [34, 125] then some ([(l.takeWhile (· ≠ 61), value.1)], value.2.drop 2)
          else none
      else none

/-- The metric, the labels and the value of a sample line. -/
def parseSample (line : Bytes) : Option (Bytes × List (Bytes × Bytes) × Bytes) :=
  if (line.dropWhile (· ≠ 123)).head? = some 123 then
    (decodeLabels line.length (line.dropWhile (· ≠ 123)).tail).bind fun labels =>
      if labels.2.head? = some 32 then some (line.takeWhile (· ≠ 123), labels.1, labels.2.tail) else none
  else none

/-- The lines of a body that are no comments. -/
def sampleLines (body : Bytes) : List Bytes := (lines 10 body).filter fun line => line.head? ≠ some 35

/-- The metric name and the label set text of a sample line: what stands in front of its value. -/
def seriesOf (line : Bytes) : Bytes := ((splitLast 32 line).map Prod.fst).getD []

def isNameByte (b : UInt8) : Bool :=
  (97 ≤ b && b ≤ 122) || (65 ≤ b && b ≤ 90) || (48 ≤ b && b ≤ 57) || b = 95

/-- A valid label name: letters, digits and underscores, no digit in front. -/
def isLabelName (name : Bytes) : Bool :=
  name.all isNameByte && name.head?.any fun b => !(48 ≤ b && b ≤ 57)

/-! ## The pushed snapshots -/

section Latest
variable {snaps : List (LatencySnapshot F)} {s : LatencySnapshot F}

/-- The last snapshot of its operation type. -/
def LastOf (snaps : List (LatencySnapshot F)) (s : LatencySnapshot F) : Prop :=
  ∃ before after, snaps = before ++ s :: after ∧ ∀ s' ∈ after, s'.opType ≠ s.opType

theorem lastOf_concat {last : LatencySnapshot F} :
    LastOf (snaps ++ [last]) s ↔ s = last ∨ LastOf snaps s ∧ last.opType ≠ s.opType := by
  constructor
  · rintro ⟨before, after, hsplit, hafter⟩
    rcases List.eq_nil_or_concat after with rfl | ⟨after, x, rfl⟩
    · exact Or.inl (List.singleton_injective (List.append_inj' hsplit rfl).2).symm
    · right
      have hsplit : snaps ++ [last] = (before ++ s :: after) ++ [x] := by
        rw [hsplit, List.append_assoc]
        simp
      obtain ⟨hsnaps, hlast⟩ := List.append_inj' hsplit rfl
      obtain rfl : last = x := List.singleton_injective hlast
      refine ⟨⟨before, after, hsnaps, ?_⟩, hafter last (by simp)⟩
      intro s' hs'
      exact hafter s' (by simp [hs'])
  · rintro (rfl | ⟨⟨before, after, rfl, hafter⟩, hlast⟩)
    · exact ⟨snaps, [], rfl, fun s' hs' => absurd hs' List.not_mem_nil⟩
    · refine ⟨before, after ++ [last], by simp, ?_⟩
      intro s' hs'
      rcases List.mem_append.mp hs' with hs' | hs'
      · exact hafter s' hs'
      · rw [List.mem_singleton.mp hs']
        exact hlast

theorem lookup_byOp (op : Bytes) : (byOp snaps).lookup op = some s ↔ s.opType = op ∧ LastOf snaps s := by
  induction snaps using List.reverseRecOn with
  | nil =>
      refine ⟨fun h => (by cases h), ?_⟩
      rintro ⟨-, before, after, h, -⟩
      simp at h
  | append_singleton snaps last ih =>
      have hfold : byOp (snaps ++ [last]) = (byOp snaps).insert last.opType last := by
        unfold byOp
        rw [List.foldl_append]
        rfl
      rw [hfold, Map.lookup_insert_eq, lastOf_concat]
      split_ifs with hop
      · subst hop
        constructor
        · intro h
          obtain rfl := Option.some.inj h
          exact ⟨rfl, Or.inl rfl⟩
        · rintro ⟨hop, rfl | ⟨-, hne⟩⟩
          · rfl
          · exact absurd hop.symm hne
      · rw [ih]
        constructor
        · rintro ⟨rfl, hlast⟩
          exact ⟨rfl, Or.inr ⟨hlast, Ne.symm hop⟩⟩
        · rintro ⟨rfl, rfl | ⟨hlast, -⟩⟩
          · exact absurd rfl hop
          · exact ⟨rfl, hlast⟩

theorem mem_latestPerOp : s ∈ latestPerOp snaps ↔ LastOf snaps s := by
  unfold latestPerOp
  simp only [List.mem_filterMap, List.mem_insertionSort, Map.mem_keys_iff]
  constructor
  · rintro ⟨op, -, hs⟩
    exact ((lookup_byOp op).mp hs).2
  · intro hs
    have hlookup := (lookup_byOp s.opType).mpr ⟨rfl, hs⟩
    exact ⟨s.opType, by rw [hlookup]; rfl, hlookup⟩

theorem nodup_ops_latestPerOp (snaps : List (LatencySnapshot F)) :
    ((latestPerOp snaps).map (·.opType)).Nodup := by
  have hops : (latestPerOp snaps).map (·.opType) = (byOp snaps).keys.insertionSort fun a b => bytesLE a b = true := by
    unfold latestPerOp
    rw [List.map_filterMap]
    refine (filterMap_eq_self_iff _ _).mpr ?_
    intro op hop
    rw [List.mem_insertionSort, Map.mem_keys_iff] at hop
    obtain ⟨s, hs⟩ := Option.isSome_iff_exists.mp hop
    rw [hs, Option.map_some, ((lookup_byOp op).mp hs).1]
  rw [hops]
  exact (List.perm_insertionSort _ _).nodup_iff.mpr (AList.keys_nodup _)

end Latest

/-! ## Label sets -/

theorem labelCode_complete : labelCode.Complete (· = 34) where
  symbol_letter a b h := by
    simp only [labelCode] at h ⊢
    split_ifs at h with h₁ h₂ h₃
    · cases h
      rw [h₁]
      rfl
    · cases h
      rw [h₂]
      rfl
    · cases h
      rw [h₃]
      rfl
  stop_letter a h := by
    rw [of_decide_eq_true h]
    rfl
  esc_letter := rfl

theorem escapePromLabelValue_eq (s : Bytes) : escapePromLabelValue s = labelCode.escape s := by
  unfold escapePromLabelValue Code.escape
  apply List.flatMap_congr
  intro b _
  simp only [labelCode]
  split_ifs <;> rfl

theorem scan_labelValue (v rest : Bytes) :
    labelCode.scan (· = 34) (escapePromLabelValue v ++ 34 :: rest) = some (v, 34 :: rest) := by
  rw [escapePromLabelValue_eq]
  exact labelCode_complete.scan_escape v (by decide) (by decide) rest

theorem newline_notMem_escapePromLabelValue (s : Bytes) : 10 ∉ escapePromLabelValue s := by
  intro h
  obtain ⟨b, -, h⟩ := List.mem_flatMap.mp h
  split_ifs at h with h₁ h₂ h₃
  · simp at h
  · simp at h
  · simp at h
  · exact h₃ (List.mem_singleton.mp h).symm

/-- Labels as they are written between the braces. -/
def writeLabels (pairs : List (Bytes × Bytes)) : Bytes := List.intercalate [44] (pairs.map promLabel)

theorem writeLabels_cons_cons (p q : Bytes × Bytes) (pairs : List (Bytes × Bytes)) :
    writeLabels (p :: q :: pairs) = promLabel p ++ 44 :: writeLabels (q :: pairs) := by
  unfold writeLabels
  rw [List.map_cons, List.map_cons, List.intercalate_cons_cons, List.append_assoc]
  rfl

theorem writeLabels_singleton (p : Bytes × Bytes) : writeLabels [p] = promLabel p := List.intercalate_singleton

theorem decodeLabels_label {key : Bytes} (hkey : 61 ∉ key) (value rest : Bytes) (fuel : Nat) :
    decodeLabels (fuel + 1) (promLabel (key, value) ++ rest) =
      if rest.head? = some 44 then (decodeLabels fuel rest.tail).map (Prod.map ((key, value) :: ·) id)
      else if rest.head? = some 125 then some ([(key, value)], rest.tail)
      else none := by
  have hword : ∀ b ∈ key, decide (b ≠ 61) = true := by
    intro b hb
    exact decide_eq_true fun h => hkey (h ▸ hb)
  have htext : promLabel (key, value) ++ rest = key ++ 61 :: 34 :: (escapePromLabelValue value ++ 34 :: rest) := by
    simp [promLabel]
  rw [htext, decodeLabels, dropWhile_append_stop hword (by decide), takeWhile_append_stop hword (by decide)]
  simp only [List.take_succ_cons, List.take_zero, List.drop_succ_cons, List.drop_zero, if_true, scan_labelValue,
    Option.bind_some]
  cases rest with
  | nil => simp
  | cons b rest => simp

/-- **Written labels are read back**, if no key has an equals sign. -/
theorem decodeLabels_writeLabels {p : Bytes × Bytes} {pairs : List (Bytes × Bytes)}
    (hkeys : ∀ q ∈ p :: pairs, 61 ∉ q.1) {fuel : Nat} (hfuel : pairs.length < fuel) (rest : Bytes) :
    decodeLabels fuel (writeLabels (p :: pairs) ++ 125 :: rest) = some (p :: pairs, rest) := by
  induction pairs generalizing p fuel with
  | nil =>
      cases fuel with
      | zero => cases hfuel
      | succ fuel =>
          rw [writeLabels_singleton, decodeLabels_label (hkeys p List.mem_cons_self)]
          rfl
  | cons q pairs ih =>
      cases fuel with
      | zero => cases hfuel
      | succ fuel =>
          have hrest := ih (fun x hx => hkeys x (List.mem_cons_of_mem p hx)) (Nat.lt_of_succ_lt_succ hfuel)
          rw [writeLabels_cons_cons, List.append_assoc, List.cons_append,
            decodeLabels_label (hkeys p List.mem_cons_self), List.head?_cons, if_pos rfl, List.tail_cons, hrest]
          rfl

theorem length_le_writeLabels (pairs : List (Bytes × Bytes)) : pairs.length ≤ (writeLabels pairs).length := by
  have hlabel : ∀ x ∈ pairs.map promLabel, x ≠ [] := by
    rw [List.forall_mem_map]
    intro p _
    simp [promLabel]
  have hle : (pairs.map promLabel).length ≤ (writeLabels pairs).length := length_le_intercalate hlabel
  rwa [List.length_map] at hle

/-! ## Samples -/

/-- A sample: its metric, the operation type and quantile among its labels (no quantile is an empty one), its value. -/
structure Sample where
  metric : Bytes
  op : Bytes
  quantile : Bytes
  value : Bytes
deriving DecidableEq

/-- The samples of a snapshot. -/
def readings (fmt : FloatText F) (s : LatencySnapshot F) : List Sample :=
  [⟨metricLatency, s.opType, stringBytes "0.5", fmt.f s.pct.p50⟩,
    ⟨metricLatency, s.opType, stringBytes "0.9", fmt.f s.pct.p90⟩,
    ⟨metricLatency, s.opType, stringBytes "0.95", fmt.f s.pct.p95⟩,
    ⟨metricLatency, s.opType, stringBytes "0.99", fmt.f s.pct.p99⟩,
    ⟨metricLatency, s.opType, stringBytes "0.999", fmt.f s.pct.p999⟩,
    ⟨metricLatency, s.opType, stringBytes "0.9999", fmt.f s.pct.p9999⟩,
    ⟨metricLatencyMax, s.opType, [], fmt.f s.pct.max⟩,
    ⟨metricThroughput, s.opType, [], fmt.f s.throughput⟩,
    ⟨metricInFlight, s.opType, [], formatInt s.inFlight⟩,
    ⟨metricErrors, s.opType, [], formatInt s.errors⟩]

/-- The labels of a sample. -/
def IsLabel (op : Bytes) (labels : Map Bytes Bytes) (quantile k v : Bytes) : Prop :=
  k = stringBytes "op" ∧ v = op ∨ quantile ≠ [] ∧ k = stringBytes "quantile" ∧ v = quantile ∨ labels.lookup k = some v

/-- Labels with valid names, apart from those that the exporter sets itself. -/
structure Usable (labels : Map Bytes Bytes) : Prop where
  name : ∀ k ∈ labels.keys, isLabelName k = true
  no_op : stringBytes "op" ∉ labels.keys
  no_quantile : stringBytes "quantile" ∉ labels.keys

section Sample
variable {labels : Map Bytes Bytes} (hlabels : Usable labels)

/-- The metric name and the label set text of a sample. -/
def seriesText (labels : Map Bytes Bytes) (metric op quantile : Bytes) : Bytes :=
  metric ++ promLabels op labels quantile

def Sample.text (labels : Map Bytes Bytes) (x : Sample) : Bytes :=
  seriesText labels x.metric x.op x.quantile ++ 32 :: x.value

theorem promLabels_eq (op quantile : Bytes) :
    promLabels op labels quantile = 123 :: writeLabels (tagPairs (promSet op labels quantile)) ++ [125] := by
  unfold promLabels writeLabels tagPairs
  rw [List.map_map]
  rfl

include hlabels

theorem lookup_reserved {k : Bytes} (hk : k = stringBytes "op" ∨ k = stringBytes "quantile") :
    labels.lookup k = none := by
  rw [AList.lookup_eq_none, AList.mem_keys]
  rcases hk with rfl | rfl
  · exact hlabels.no_op
  · exact hlabels.no_quantile

theorem lookup_promSet (op quantile k v : Bytes) :
    (promSet op labels quantile).lookup k = some v ↔ IsLabel op labels quantile k v := by
  have hne : stringBytes "op" ≠ stringBytes "quantile" := by decide +kernel
  have hop := lookup_reserved hlabels (Or.inl rfl)
  have hquantile := lookup_reserved hlabels (Or.inr rfl)
  have htags : (tagMap op labels).lookup k = some v ↔ k = stringBytes "op" ∧ v = op ∨ labels.lookup k = some v := by
    unfold tagMap
    rw [Map.lookup_union_eq, Map.lookup_insert_eq]
    by_cases hk : k = stringBytes "op"
    · rw [hk, hop]
      simp [eq_comm]
    · simp [hk]
  unfold promSet IsLabel
  split_ifs with hq
  · rw [Map.lookup_insert_eq]
    split_ifs with hk
    · subst hk
      simp [hquantile, hne.symm, hq, eq_comm]
    · rw [htags]
      simp [hk]
  · rw [htags]
    simp [hq]

theorem name_of_lookup {op quantile k v : Bytes} (h : (promSet op labels quantile).lookup k = some v) :
    isLabelName k = true := by
  rcases (lookup_promSet hlabels op quantile k v).mp h with ⟨rfl, -⟩ | ⟨-, rfl, -⟩ | h
  · decide +kernel
  · decide +kernel
  · apply hlabels.name
    rw [Map.mem_keys_iff, h]
    rfl

omit hlabels in
theorem notMem_of_isLabelName {name : Bytes} (h : isLabelName name = true) {b : UInt8} (hb : isNameByte b = false) :
    b ∉ name := by
  intro hmem
  rw [isLabelName, Bool.and_eq_true, List.all_eq_true] at h
  rw [h.1 b hmem] at hb
  cases hb

theorem tagPairs_promSet (op quantile : Bytes) : ∃ p pairs, tagPairs (promSet op labels quantile) = p :: pairs ∧
    ∀ q ∈ p :: pairs, isLabelName q.1 = true := by
  have hop : (stringBytes "op", op) ∈ tagPairs (promSet op labels quantile) := by
    rw [mem_tagPairs, lookup_promSet hlabels]
    exact Or.inl ⟨rfl, rfl⟩
  obtain ⟨p, pairs, hpairs⟩ := List.exists_cons_of_ne_nil (List.ne_nil_of_mem hop)
  refine ⟨p, pairs, hpairs, ?_⟩
  rintro ⟨k, v⟩ hq
  rw [← hpairs, mem_tagPairs] at hq
  exact name_of_lookup hlabels hq

/-- **A sample line is read back** as the metric, the labels and the value of its sample. -/
theorem parseSample_text {x : Sample} (hmetric : 123 ∉ x.metric) : parseSample (x.text labels) =
    some (x.metric, tagPairs (promSet x.op labels x.quantile), x.value) := by
  obtain ⟨p, pairs, hpairs, hnames⟩ := tagPairs_promSet hlabels x.op x.quantile
  have hword : ∀ b ∈ x.metric, decide (b ≠ 123) = true := by
    intro b hb
    exact decide_eq_true fun h => hmetric (h ▸ hb)
  have hkeys : ∀ q ∈ p :: pairs, 61 ∉ q.1 := by
    intro q hq
    exact notMem_of_isLabelName (hnames q hq) (by decide)
  have htext : x.text labels = x.metric ++ 123 :: (writeLabels (p :: pairs) ++ 125 :: 32 :: x.value) := by
    rw [Sample.text, seriesText, promLabels_eq, hpairs]
    simp
  have hfuel : pairs.length < (x.text labels).length := by
    have := length_le_writeLabels (p :: pairs)
    rw [htext]
    simp only [List.length_append, List.length_cons] at this ⊢
    omega
  unfold parseSample
  rw [htext, dropWhile_append_stop hword (by decide), takeWhile_append_stop hword (by decide), ← htext, hpairs,
    List.head?_cons, if_pos rfl, List.tail_cons, decodeLabels_writeLabels hkeys hfuel]
  rfl

/-- **The series of a sample determines** its metric, its operation type and its quantile. -/
theorem series_injective {metric op quantile metric' op' quantile' : Bytes} (hmetric : 123 ∉ metric)
    (hmetric' : 123 ∉ metric') (h : seriesText labels metric op quantile = seriesText labels metric' op' quantile') :
    metric = metric' ∧ op = op' ∧ quantile = quantile' := by
  have hne : stringBytes "op" ≠ stringBytes "quantile" := by decide +kernel
  have hparse := parseSample_text hlabels (x := ⟨metric, op, quantile, []⟩) hmetric
  have hparse' := parseSample_text hlabels (x := ⟨metric', op', quantile', []⟩) hmetric'
  rw [Sample.text, h] at hparse
  rw [Sample.text, hparse] at hparse'
  obtain ⟨hname, hpairs⟩ := Prod.mk.inj (Option.some.inj hparse')
  have hlookup : ∀ k v, IsLabel op labels quantile k v ↔ IsLabel op' labels quantile' k v := by
    intro k v
    rw [← lookup_promSet hlabels, ← lookup_promSet hlabels, ← mem_tagPairs, ← mem_tagPairs, (Prod.mk.inj hpairs).1]
  refine ⟨hname, ?_, ?_⟩
  · have := (hlookup (stringBytes "op") op).mp (Or.inl ⟨rfl, rfl⟩)
    simpa [IsLabel, hne, lookup_reserved hlabels (Or.inl rfl)] using this
  · have hquantile : ∀ q, IsLabel op labels quantile (stringBytes "quantile") q ↔ quantile ≠ [] ∧ q = quantile := by
      intro q
      simp [IsLabel, hne.symm, lookup_reserved hlabels (Or.inr rfl)]
    have hquantile' : ∀ q, IsLabel op' labels quantile' (stringBytes "quantile") q ↔
        quantile' ≠ [] ∧ q = quantile' := by
      intro q
      simp [IsLabel, hne.symm, lookup_reserved hlabels (Or.inr rfl)]
    have hboth : ∀ q, quantile ≠ [] ∧ q = quantile ↔ quantile' ≠ [] ∧ q = quantile' := by
      intro q
      rw [← hquantile, ← hquantile', hlookup]
    by_cases hq : quantile = []
    · by_contra hq'
      exact ((hboth quantile').mpr ⟨fun h => hq' (hq.trans h.symm), rfl⟩).1 hq
    · exact ((hboth quantile).mp ⟨hq, rfl⟩).2

end Sample

/-! ## The lines of a body -/

/-- The metrics with the quantiles and values of their samples. -/
def families (fmt : FloatText F) : List (Bytes × List (Bytes × (LatencySnapshot F → Bytes))) :=
  [(metricLatency, (quantiles F).map fun q => (q.1, fun s => fmt.f (q.2 s.pct))),
    (metricLatencyMax, [([], fun s => fmt.f s.pct.max)]),
    (metricThroughput, [([], fun s => fmt.f s.throughput)]),
    (metricInFlight, [([], fun s => formatInt s.inFlight)]),
    (metricErrors, [([], fun s => formatInt s.errors)])]

section Body
variable (fmt : FloatText F) (snaps : List (LatencySnapshot F)) (labels : Map Bytes Bytes)

/-- The samples of a family of metrics. -/
def familySamples (snaps : List (LatencySnapshot F)) (fam : Bytes × List (Bytes × (LatencySnapshot F → Bytes))) :
    List Sample :=
  snaps.flatMap fun s => fam.2.map fun p => ⟨fam.1, s.opType, p.1, p.2 s⟩

/-- The samples of a body. -/
def samples : List Sample := (families fmt).flatMap (familySamples snaps)

/-- A family with its comment. -/
def familyLines (fam : Bytes × List (Bytes × (LatencySnapshot F → Bytes))) : List Bytes :=
  typeLine fam.1 :: (familySamples snaps fam).map (Sample.text labels)

theorem buildExposition_eq :
    buildExposition fmt snaps labels = ((families fmt).flatMap (familyLines snaps labels)).flatMap (· ++ [10]) := by
  have hquantiles : writeQuantileFamily fmt snaps labels = (familyLines snaps labels
      (metricLatency, (quantiles F).map fun q => (q.1, fun s => fmt.f (q.2 s.pct)))).flatMap (· ++ [10]) := by
    simp [writeQuantileFamily, familyLines, familySamples, Sample.text, seriesText, List.flatMap_map, List.map_flatMap,
      List.flatMap_assoc]
  have hscalar : ∀ (name : Bytes) (val : LatencySnapshot F → Bytes), writeScalarFamily name snaps labels val =
      (familyLines snaps labels (name, [([], val)])).flatMap (· ++ [10]) := by
    intro name val
    simp [writeScalarFamily, familyLines, familySamples, Sample.text, seriesText, List.map_flatMap, List.flatMap_assoc]
  unfold buildExposition families
  rw [hquantiles, hscalar, hscalar, hscalar, hscalar]
  simp only [List.flatMap_cons, List.flatMap_nil, List.flatMap_append, List.append_nil, List.append_assoc]

/-- The names of the metrics have neither braces nor line breaks, and do not look like a comment. -/
theorem metric_of_families {fam : Bytes × List (Bytes × (LatencySnapshot F → Bytes))} (hfam : fam ∈ families fmt) :
    123 ∉ fam.1 ∧ 10 ∉ fam.1 ∧ 10 ∉ typeLine fam.1 ∧ fam.1.head? = some 112 ∧ (typeLine fam.1).head? = some 35 := by
  have hnames : (families fmt).map (·.1) =
      [metricLatency, metricLatencyMax, metricThroughput, metricInFlight, metricErrors] := rfl
  have hall : ∀ name ∈ [metricLatency, metricLatencyMax, metricThroughput, metricInFlight, metricErrors],
      123 ∉ name ∧ 10 ∉ name ∧ 10 ∉ typeLine name ∧ name.head? = some 112 ∧ (typeLine name).head? = some 35 := by
    decide +kernel
  apply hall
  rw [← hnames]
  exact List.mem_map_of_mem hfam

theorem value_of_families {fam : Bytes × List (Bytes × (LatencySnapshot F → Bytes))} (hfam : fam ∈ families fmt)
    {p : Bytes × (LatencySnapshot F → Bytes)} (hp : p ∈ fam.2) (s : LatencySnapshot F) :
    10 ∉ p.2 s ∧ 32 ∉ p.2 s := by
  have hnumber : ∀ n, 10 ∉ formatInt n ∧ 32 ∉ formatInt n := by
    intro n
    exact ⟨notMem_formatInt (by decide) n, notMem_formatInt (by decide) n⟩
  have hall : ∀ fam ∈ families fmt, ∀ p ∈ fam.2, 10 ∉ p.2 s ∧ 32 ∉ p.2 s := by
    simp only [families, List.forall_mem_cons, List.forall_mem_map, fmt.no_newline, fmt.no_space, hnumber,
      not_false_eq_true, and_true, implies_true, List.not_mem_nil, false_implies]
  exact hall fam hfam p hp

theorem mem_samples {x : Sample} : x ∈ samples fmt snaps ↔ ∃ s ∈ snaps, x ∈ readings fmt s := by
  have hreadings : ∀ s, readings fmt s = (families fmt).flatMap fun fam =>
      fam.2.map fun p => ⟨fam.1, s.opType, p.1, p.2 s⟩ := fun _ => rfl
  unfold samples familySamples
  simp only [hreadings, List.mem_flatMap]
  constructor
  · rintro ⟨fam, hfam, s, hs, hx⟩
    exact ⟨s, hs, fam, hfam, hx⟩
  · rintro ⟨s, hs, fam, hfam, hx⟩
    exact ⟨fam, hfam, s, hs, hx⟩

theorem sample_spec {x : Sample} (hx : x ∈ samples fmt snaps) :
    123 ∉ x.metric ∧ 10 ∉ x.metric ∧ x.metric.head? = some 112 ∧ 10 ∉ x.value ∧ 32 ∉ x.value := by
  obtain ⟨fam, hfam, hx⟩ := List.mem_flatMap.mp hx
  obtain ⟨s, -, hx⟩ := List.mem_flatMap.mp hx
  obtain ⟨p, hp, rfl⟩ := List.mem_map.mp hx
  obtain ⟨hbrace, hbreak, -, hhead, -⟩ := metric_of_families fmt hfam
  obtain ⟨hvalue, hspace⟩ := value_of_families fmt hfam hp s
  exact ⟨hbrace, hbreak, hhead, hvalue, hspace⟩

theorem newline_notMem_text (hlabels : Usable labels) {x : Sample} (hx : x ∈ samples fmt snaps) :
    10 ∉ x.text labels := by
  obtain ⟨-, hmetric, -, hvalue, -⟩ := sample_spec fmt snaps hx
  have hpairs : 10 ∉ writeLabels (tagPairs (promSet x.op labels x.quantile)) := by
    obtain ⟨p, pairs, hpairs, hnames⟩ := tagPairs_promSet hlabels x.op x.quantile
    have hlabel : ∀ q ∈ p :: pairs, 10 ∉ promLabel q := by
      intro q hq
      have hname : 10 ∉ q.1 := notMem_of_isLabelName (hnames q hq) (by decide)
      have hquoted := newline_notMem_escapePromLabelValue q.2
      simp [promLabel, hname, hquoted]
    rw [hpairs]
    exact notMem_intercalate (by decide) (List.forall_mem_map.mpr hlabel)
  rw [Sample.text, seriesText, promLabels_eq]
  simp [hmetric, hvalue, hpairs]

/-- **The sample lines of a body** are the texts of its samples. -/
theorem sampleLines_eq (hlabels : Usable labels) :
    sampleLines (buildExposition fmt snaps labels) = (samples fmt snaps).map (Sample.text labels) := by
  have hlines : ∀ line ∈ (families fmt).flatMap (familyLines snaps labels), 10 ∉ line := by
    intro line hline
    obtain ⟨fam, hfam, hline⟩ := List.mem_flatMap.mp hline
    rcases List.mem_cons.mp hline with rfl | hline
    · exact (metric_of_families fmt hfam).2.2.1
    · obtain ⟨x, hx, rfl⟩ := List.mem_map.mp hline
      exact newline_notMem_text fmt snaps labels hlabels (List.mem_flatMap.mpr ⟨fam, hfam, hx⟩)
  unfold sampleLines samples
  rw [buildExposition_eq, lines_flatMap hlines, List.filter_flatMap, List.map_flatMap]
  apply List.flatMap_congr
  intro fam hfam
  have hcomment := (metric_of_families fmt hfam).2.2.2.2
  rw [familyLines, List.filter_cons_of_neg (by simp [hcomment]), List.filter_eq_self]
  intro line hline
  obtain ⟨x, hx, rfl⟩ := List.mem_map.mp hline
  obtain ⟨-, -, hhead, -, -⟩ := sample_spec fmt snaps (List.mem_flatMap.mpr ⟨fam, hfam, hx⟩)
  obtain ⟨rest, hmetric⟩ := List.head?_eq_some_iff.mp hhead
  simp [Sample.text, seriesText, hmetric]

theorem seriesOf_text {x : Sample} (hx : x ∈ samples fmt snaps) :
    seriesOf (x.text labels) = seriesText labels x.metric x.op x.quantile := by
  obtain ⟨-, -, -, -, hspace⟩ := sample_spec fmt snaps hx
  unfold seriesOf Sample.text
  rw [splitLast_append _ hspace]
  rfl

/-- Metric, operation type and quantile tell the samples of a body apart, if the operation types are distinct. -/
theorem nodup_samples (hops : (snaps.map (·.opType)).Nodup) :
    ((samples fmt snaps).map fun x => (x.metric, x.op, x.quantile)).Nodup := by
  have hmetrics : ((families fmt).map (·.1)).Nodup := by
    show [metricLatency, metricLatencyMax, metricThroughput, metricInFlight, metricErrors].Nodup
    decide +kernel
  have hquantiles : ∀ fam ∈ families fmt, (fam.2.map (·.1)).Nodup := by
    have hsix : [stringBytes "0.5", stringBytes "0.9", stringBytes "0.95", stringBytes "0.99", stringBytes "0.999",
      stringBytes "0.9999"].Nodup := by decide +kernel
    simpa [families, quantiles] using hsix
  unfold samples
  rw [List.map_flatMap]
  refine nodup_flatMap_of_tag (·.1) (·.1) ?_ hmetrics ?_
  · intro fam _ y hy
    obtain ⟨x, hx, rfl⟩ := List.mem_map.mp hy
    obtain ⟨s, -, hx⟩ := List.mem_flatMap.mp hx
    obtain ⟨p, -, rfl⟩ := List.mem_map.mp hx
    rfl
  · intro fam hfam
    unfold familySamples
    rw [List.map_flatMap]
    refine nodup_flatMap_of_tag (·.opType) (·.2.1) ?_ hops ?_
    · intro s _ y hy
      obtain ⟨x, hx, rfl⟩ := List.mem_map.mp hy
      obtain ⟨p, -, rfl⟩ := List.mem_map.mp hx
      rfl
    · intro s _
      rw [List.map_map]
      refine List.Nodup.of_map (·.2.2) ?_
      rw [List.map_map]
      exact hquantiles fam hfam

end Body

/-- **Pushgateway bodies have no duplicate series.** For every list of snapshots and all labels with valid names other
than `op` and `quantile`: no two sample lines of the body share their metric name and label set text; every sample line
is read as a reading of the last snapshot of some operation type, with exactly the labels op, quantile (if there is
one) and the given ones; and every reading of the last snapshot of every operation type has such a line. -/
theorem pushgateway_no_duplicate_series (fmt : FloatText F) (snaps : List (LatencySnapshot F))
    (labels : Map Bytes Bytes) (hlabels : Usable labels) :
    ((sampleLines (buildExposition fmt (latestPerOp snaps) labels)).map seriesOf).Nodup ∧
    (∀ line ∈ sampleLines (buildExposition fmt (latestPerOp snaps) labels), ∃ s x pairs,
      LastOf snaps s ∧ x ∈ readings fmt s ∧ parseSample line = some (x.metric, pairs, x.value) ∧
        ∀ k v, (k, v) ∈ pairs ↔ IsLabel s.opType labels x.quantile k v) ∧
    ∀ s, LastOf snaps s → ∀ x ∈ readings fmt s,
      ∃ line ∈ sampleLines (buildExposition fmt (latestPerOp snaps) labels), ∃ pairs,
        parseSample line = some (x.metric, pairs, x.value) ∧
          ∀ k v, (k, v) ∈ pairs ↔ IsLabel s.opType labels x.quantile k v := by
  have hop : ∀ s : LatencySnapshot F, ∀ x ∈ readings fmt s, x.op = s.opType := by
    intro s
    simp [readings]
  rw [sampleLines_eq fmt _ labels hlabels]
  refine ⟨?_, ?_, ?_⟩
  · have hseries : ((samples fmt (latestPerOp snaps)).map (Sample.text labels)).map seriesOf =
        ((samples fmt (latestPerOp snaps)).map fun x => (x.metric, x.op, x.quantile)).map fun key =>
          seriesText labels key.1 key.2.1 key.2.2 := by
      rw [List.map_map, List.map_map]
      apply List.map_congr_left
      intro x hx
      exact seriesOf_text fmt _ labels hx
    rw [hseries]
    refine List.Nodup.map_on ?_ (nodup_samples fmt _ (nodup_ops_latestPerOp snaps))
    intro key hkey key' hkey' heq
    obtain ⟨x, hx, rfl⟩ := List.mem_map.mp hkey
    obtain ⟨y, hy, rfl⟩ := List.mem_map.mp hkey'
    obtain ⟨hmetric, hop, hquantile⟩ :=
      series_injective hlabels (sample_spec fmt _ hx).1 (sample_spec fmt _ hy).1 heq
    exact Prod.ext hmetric (Prod.ext hop hquantile)
  · intro line hline
    obtain ⟨x, hx, rfl⟩ := List.mem_map.mp hline
    obtain ⟨s, hs, hreading⟩ := (mem_samples fmt _).mp hx
    refine ⟨s, x, _, mem_latestPerOp.mp hs, hreading, parseSample_text hlabels (sample_spec fmt _ hx).1, ?_⟩
    intro k v
    rw [mem_tagPairs, lookup_promSet hlabels, hop s x hreading]
  · intro s hs x hreading
    have hx : x ∈ samples fmt (latestPerOp snaps) :=
      (mem_samples fmt _).mpr ⟨s, mem_latestPerOp.mpr hs, hreading⟩
    refine ⟨x.text labels, List.mem_map_of_mem hx, _, parseSample_text hlabels (sample_spec fmt _ hx).1, ?_⟩
    intro k v
    rw [mem_tagPairs, lookup_promSet hlabels, hop s x hreading]

/-- A label with a line break, a quote and a backslash in its value. -/
def oddLabels : Map Bytes Bytes := (∅ : Map Bytes Bytes).insert (stringBytes "run") (stringBytes "a\n\"b\\")

def oddSnapshots : List (LatencySnapshot Int) :=
  [wholeSnapshot "read", wholeSnapshot "op\"\x7d", wholeSnapshot "read"]

theorem no_duplicate_series_on_oddSnapshots :
    ((sampleLines (buildExposition wholeText (latestPerOp oddSnapshots) oddLabels)).map seriesOf).Nodup ∧
      (sampleLines (buildExposition wholeText (latestPerOp oddSnapshots) oddLabels)).length = 20 := by
  have hlabels : Usable oddLabels := ⟨by decide +kernel, by decide +kernel, by decide +kernel⟩
  exact ⟨(pushgateway_no_duplicate_series wholeText oddSnapshots oddLabels hlabels).1, by decide +kernel⟩

example : parseSample (Sample.text oddLabels ⟨metricErrors, stringBytes "op\"\x7d", [], formatInt 3⟩) =
    some (metricErrors, [(stringBytes "op", stringBytes "op\"\x7d"), (stringBytes "run", stringBytes "a\n\"b\\")],
      formatInt 3) := by decide +kernel

end Proofload.Export
