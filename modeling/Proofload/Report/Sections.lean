import Proofload.Lib.Markup
import Proofload.Report.Timeline
import Mathlib.Data.String.Basic

/-!
# The sections of a report (`core/report`)

`Render` writes a run as one HTML document: every section is a text that is put together from fixed markup and from
the values of the run. Strings go through `esc`; coordinates and colors are written as they are.

The texts the code leaves to the standard library (numbers, durations, times) and the arithmetic of `float64` are
those of a `GoLib`, of which two things are known: a written number holds none of the symbols that `esc` escapes, and
counting up from one finite logarithm passes another. The loop over the powers of ten runs with fuel, because it does
not end on an infinite scale. The style sheet is any text without `<`.
-/

namespace Proofload.Report
open Lib Export

set_option autoImplicit false

/-- The value of `p` after `n` rounds of `p++`. -/
def countUp {F : Type} [Add F] (one start : F) : Nat → F
  | 0 => start
  | n + 1 => countUp one (start + one) n

/-- What the report takes from `float64` and from the standard library; `format v n` is
`strconv.FormatFloat(v, 'f', n, 64)`. -/
class GoLib (F : Type) extends Zero F, Add F, Sub F, Mul F, Div F where
  const : Int → F
  posInf : F
  negInf : F
  fmin : F → F → F
  fmax : F → F → F
  lt : F → F → Bool
  le : F → F → Bool
  eq : F → F → Bool
  isNaN : F → Bool
  isInf : F → Bool
  isPosInf : F → Bool
  abs : F → F
  log10 : F → F
  pow : F → F → F
  ceil : F → F
  floor : F → F
  round : F → F
  toInt : F → Int
  seconds : Int → F
  format : F → Nat → String
  format_plain : ∀ v n, ∀ c ∈ (format v n).toList, Markup.entity c = none
  counts_past : ∀ a b, isInf (log10 a) = false → isInf (log10 b) = false →
    ∃ n, le (countUp (const 1) (ceil (log10 a)) n) (floor (log10 b)) = false
  durationString : Int → String
  formatTime : Int → String

open GoLib

/-! ## Formats (`core/report/format.go`) -/

/-- `html.EscapeString`. -/
def esc (s : String) : String := String.ofList (Markup.escape s.toList)

/-- The keys of a map in ascending order, for an iteration order of the map. -/
def sortedKeys {ν : Type} (iter : IterOrder String) (m : Map String ν) : List String :=
  (iter.order m.keys).insertionSort (· ≤ ·)

/-- A comma stands in front of every digit but the first whose distance to the end is a multiple of three. -/
def groupDigits (s : List Char) : List Char :=
  s.zipIdx.flatMap fun ci => if 0 < ci.2 ∧ (s.length - ci.2) % 3 = 0 then [',', ci.1] else [ci.1]

def fmtInt (n : Int) : String :=
  match (toString n).toList with
  | '-' :: s => "-" ++ String.ofList (groupDigits s)
  | s => String.ofList (groupDigits s)

variable {F : Type} [GoLib F]

def fmtFloat (v : F) : String :=
  if isNaN v || isInf v then "-"
  else if eq (abs v) 0 then "0"
  else if lt (abs v) (const 1) then format v 3
  else if lt (abs v) (const 100) then format v 2
  else if lt (abs v) (const 10000) then format v 1
  else fmtInt (toInt (round v))

def fmtMs (v : F) : String := fmtFloat v ++ " ms"

def coord (v : F) : String := format v 2

section Times
variable (F)

def fmtDur (d : Int) : String := if d = 0 then "0s" else durationString F d

/-- `none` is the zero time. -/
def fmtTime (t : Option Int) : String := t.elim "-" (formatTime F)

end Times

/-! ## Charts (`core/report/charts.go`) -/

structure LabeledValue (F : Type) where
  label : String
  value : F

/-- The range of the positive values, widened if it is a single value. -/
def logRange (vals : List (LabeledValue F)) : Option (F × F) :=
  let r := vals.foldl
    (fun (r : F × F) v => if lt 0 v.value then (fmin r.1 v.value, fmax r.2 v.value) else r) (posInf, negInf)
  if isPosInf r.1 then none
  else if eq r.1 r.2 then some (r.1 / const 10, r.2 * const 10)
  else some r

/-- The horizontal position of a value on the logarithmic scale of a range. -/
def logX (r : F × F) (v : F) : F :=
  if le v 0 then const 70
  else const 70 + (log10 v - log10 r.1) / (log10 r.2 - log10 r.1) * const 520

def lollipopHeight (vals : List (LabeledValue F)) : F := const 26 + const vals.length * const 30 + const 12

def rowY (i : Nat) : F := const 26 + const i * const 30 + const 15

/-- A gridline at a power of ten with its label. -/
def gridlineSVG (r : F × F) (h p : F) : String :=
  let gx := logX r (pow (const 10) p)
  "<line x1=\"" ++ coord gx ++ "\" y1=\"" ++ coord (const 20 : F) ++ "\" x2=\"" ++ coord gx ++ "\" y2=\"" ++
    coord (h - const 16) ++ "\" stroke=\"var(--grid)\" stroke-width=\"1\"/>" ++
  "<text x=\"" ++ coord gx ++ "\" y=\"" ++ coord (h - const 4) ++
    "\" fill=\"var(--muted)\" font-size=\"10\" text-anchor=\"middle\">" ++
    esc (fmtFloat (pow (const 10) p)) ++ "</text>"

def lollipopRowSVG (r : F × F) (v : LabeledValue F × Nat) : String :=
  let y : F := rowY v.2
  let px := logX r v.1.value
  "<text x=\"" ++ coord (const 60 : F) ++ "\" y=\"" ++ coord y ++
    "\" fill=\"var(--ink2)\" font-size=\"12\" text-anchor=\"end\" dominant-baseline=\"middle\">" ++ esc v.1.label ++
    "</text>" ++
  "<line x1=\"" ++ coord (const 70 : F) ++ "\" y1=\"" ++ coord y ++ "\" x2=\"" ++ coord px ++ "\" y2=\"" ++ coord y ++
    "\" stroke=\"var(--series-1)\" stroke-width=\"2\"/>" ++
  "<circle cx=\"" ++ coord px ++ "\" cy=\"" ++ coord y ++ "\" r=\"4.5\" fill=\"var(--series-1)\"/>" ++
  "<text x=\"" ++ coord (px + const 9) ++ "\" y=\"" ++ coord y ++
    "\" fill=\"var(--ink)\" font-size=\"12\" text-anchor=\"start\" dominant-baseline=\"middle\">" ++
    esc (fmtMs v.1.value) ++ "</text>"

/-- The rounds of `for p := p; p <= hi; p++`, if there are less than `fuel` of them. -/
def ticks (hi : F) : Nat → F → Option (List F)
  | 0, _ => none
  | fuel + 1, p => if le p hi then (ticks hi fuel (p + const 1)).map (p :: ·) else some []

def drawLollipop (vals : List (LabeledValue F)) (r : F × F) (grid : List F) : String :=
  let h := lollipopHeight vals
  "<svg viewBox=\"0 0 " ++ coord (const 680 : F) ++ " " ++ coord h ++
    "\" role=\"img\" aria-label=\"latency percentiles\">" ++
  String.join (grid.map (gridlineSVG r h)) ++
  String.join (vals.zipIdx.map (lollipopRowSVG r)) ++
  "</svg>"

/-- Empty if there is no positive value. -/
def lollipopSVG (fuel : Nat) (vals : List (LabeledValue F)) : Option String :=
  match logRange vals with
  | none => some ""
  | some r => (ticks (floor (log10 r.2)) fuel (ceil (log10 r.1))).map (drawLollipop vals r)

structure LineSeries (F : Type) where
  name : String
  color : String
  pts : List (F × F)

def niceMax (v : F) : F :=
  if le v 0 then const 1
  else
    let base := pow (const 10) (floor (log10 v))
    if le (v / base) (const 1) then base
    else if le (v / base) (const 2) then const 2 * base
    else if le (v / base) (const 5) then const 5 * base
    else const 10 * base

/-- The ends of the axes, if there is a point. -/
def axes (series : List (LineSeries F)) : Option (F × F) :=
  let pts := series.flatMap LineSeries.pts
  let m := pts.foldl (fun (m : F × F) p => (fmax m.1 p.1, fmax m.2 p.2)) (0, 0)
  if pts.isEmpty then none
  else some (if eq m.1 0 then const 1 else m.1, niceMax (if eq m.2 0 then const 1 else m.2))

def plotX (m : F × F) (v : F) : F := const 60 + v / m.1 * const 604

def plotY (m : F × F) (v : F) : F := const 16 + const 204 - v / m.2 * const 204

def yTickSVG (m : F × F) (i : Nat) : String :=
  let yv := m.2 * const i / const 4
  let gy := plotY m yv
  "<line x1=\"" ++ coord (const 60 : F) ++ "\" y1=\"" ++ coord gy ++ "\" x2=\"" ++ coord (const 664 : F) ++
    "\" y2=\"" ++ coord gy ++ "\" stroke=\"var(--grid)\" stroke-width=\"1\"/>" ++
  "<text x=\"" ++ coord (const 52 : F) ++ "\" y=\"" ++ coord gy ++
    "\" fill=\"var(--muted)\" font-size=\"10\" text-anchor=\"end\" dominant-baseline=\"middle\">" ++
    esc (fmtFloat yv) ++ "</text>"

def xTickSVG (m : F × F) (i : Nat) : String :=
  let xv := m.1 * const i / const 4
  "<text x=\"" ++ coord (plotX m xv) ++ "\" y=\"" ++ coord (const 242 : F) ++
    "\" fill=\"var(--muted)\" font-size=\"10\" text-anchor=\"middle\">" ++ esc (fmtFloat xv) ++ "s</text>"

/-- `strings.TrimSpace`. -/
def trimSpace (s : String) : String :=
  String.ofList (((s.toList.dropWhile Char.isWhitespace).reverse.dropWhile Char.isWhitespace).reverse)

def pointsText (m : F × F) (pts : List (F × F)) : String :=
  trimSpace (String.join (pts.map fun p => coord (plotX m p.1) ++ "," ++ coord (plotY m p.2) ++ " "))

def polylineSVG (m : F × F) (s : LineSeries F) : String :=
  if s.pts.isEmpty then ""
  else
    "<polyline fill=\"none\" stroke=\"" ++ s.color ++
      "\" stroke-width=\"2\" stroke-linejoin=\"round\" stroke-linecap=\"round\" points=\"" ++
      pointsText m s.pts ++ "\"/>"

def drawLines (unit : String) (series : List (LineSeries F)) (m : F × F) : String :=
  "<svg viewBox=\"0 0 " ++ coord (const 680 : F) ++ " " ++ coord (const 250 : F) ++
    "\" role=\"img\" aria-label=\"time series (" ++ esc unit ++ ")\">" ++
  String.join ((List.range 5).map (yTickSVG m)) ++
  String.join ((List.range 5).map (xTickSVG m)) ++
  "<line x1=\"" ++ coord (const 60 : F) ++ "\" y1=\"" ++ coord (const 16 + const 204 : F) ++ "\" x2=\"" ++
    coord (const 664 : F) ++ "\" y2=\"" ++ coord (const 16 + const 204 : F) ++
    "\" stroke=\"var(--axis)\" stroke-width=\"1\"/>" ++
  String.join (series.map (polylineSVG m)) ++
  "</svg>"

/-- Empty if there is no point. -/
def lineChartSVG (unit : String) (series : List (LineSeries F)) : String :=
  (axes series).elim "" (drawLines unit series)

/-! ## Sections (`core/report/sections.go`) -/

structure RateSpec where
  mode : String
  opsPerSec : Int

structure ClientInfo where
  hostname : String
  os : String
  arch : String
  cpus : Int

/-- The manifest as far as a report shows it; `nodes` counts the nodes of the cluster. -/
structure Manifest where
  runID : String
  target : String
  targetVersion : String
  workload : String
  mode : String
  rate : RateSpec
  duration : Int
  warmup : Int
  connections : Int
  seed : Int
  trials : Int
  consistency : String
  replicationFactor : Int
  nodes : Nat
  engineVersion : String
  gitSHA : String
  client : ClientInfo
  labels : Map String String
  createdAt : Option Int

structure RunResult (F : Type) where
  total : Int
  errors : Int
  duration : Int
  throughput : F
  overall : Percentiles F
  byOp : Map String (Percentiles F)
  clientBound : Bool

/-- The verification report as it is read from its file, where the verdict and the model are any strings. -/
structure VerifyReport where
  model : String
  verdict : String
  anomalies : List Anomaly
  checked : Int
  lost : Int
  duplicated : Int
  orderingViol : Int
  convergedIn : Int
  maxStaleness : Int

def rateLabel (r : RateSpec) : String :=
  if r.mode = "fixed" then "fixed " ++ fmtInt r.opsPerSec ++ " ops/s" else r.mode

/-- The pairs of a list that have a value. -/
def present (rows : List (String × String)) : List (String × String) := rows.filter fun r => r.2 ≠ ""

def pills (m : Manifest) : List (String × String) :=
  present [("workload", m.workload), ("mode", m.mode), ("rate", rateLabel m.rate), ("consistency", m.consistency)]

def pillHTML (p : String × String) : String := "<span class=\"pill\">" ++ esc p.1 ++ ": " ++ esc p.2 ++ "</span>"

def headerHTML (m : Manifest) : String :=
  "<h1>" ++ esc m.target ++ "</h1>" ++
  "<p class=\"sub\">Run report &middot; " ++ esc m.runID ++ "</p>" ++
  String.join ((pills m).map pillHTML)

def clientLabel (c : ClientInfo) : String :=
  if c.hostname = "" then ""
  else c.hostname ++ " (" ++ c.os ++ "/" ++ c.arch ++ ", " ++ fmtInt c.cpus ++ " CPUs)"

section Metadata
variable (F)

def metadataRows (m : Manifest) : List (String × String) :=
  present [("Target", m.target), ("Target version", m.targetVersion), ("Workload", m.workload), ("Mode", m.mode),
    ("Rate", rateLabel m.rate), ("Duration", fmtDur F m.duration), ("Warmup", fmtDur F m.warmup),
    ("Connections", fmtInt m.connections), ("Seed", fmtInt m.seed), ("Trials", fmtInt m.trials),
    ("Consistency", m.consistency), ("Replication factor", fmtInt m.replicationFactor),
    ("Cluster nodes", fmtInt m.nodes), ("Engine version", m.engineVersion), ("Git SHA", m.gitSHA),
    ("Client", clientLabel m.client), ("Created at", fmtTime F m.createdAt)]

def metadataRowHTML (r : String × String) : String :=
  "<tr><th>" ++ esc r.1 ++ "</th><td>" ++ esc r.2 ++ "</td></tr>"

def labelRowHTML (m : Manifest) (k : String) : String :=
  "<tr><th>label: " ++ esc k ++ "</th><td>" ++ esc ((m.labels.lookup k).getD "") ++ "</td></tr>"

def metadataHTML (iter : IterOrder String) (m : Manifest) : String :=
  "<h2>Run metadata</h2><div class=\"card\"><div class=\"tblwrap\"><table><tbody>" ++
  String.join ((metadataRows F m).map metadataRowHTML) ++
  String.join ((sortedKeys iter m.labels).map (labelRowHTML m)) ++
  "</tbody></table></div></div>"

end Metadata

def statHTML (k v : String) : String :=
  "<div class=\"stat\"><div class=\"k\">" ++ esc k ++ "</div><div class=\"v\">" ++ esc v ++ "</div></div>"

def percentileRows (p : Percentiles F) : List (LabeledValue F) :=
  [⟨"p50", p.p50⟩, ⟨"p90", p.p90⟩, ⟨"p95", p.p95⟩, ⟨"p99", p.p99⟩, ⟨"p99.9", p.p999⟩, ⟨"max", p.max⟩]

def chartCaptionHTML : String :=
  "<p class=\"muted\" style=\"margin:8px 0 2px;font-size:.85rem\">Overall latency (log scale)</p>"

def summaryHTML (r : RunResult F) (svg : String) : String :=
  "<h2>Summary</h2><div class=\"card\">" ++ "<div class=\"stats\">" ++
  statHTML "Throughput" (fmtFloat r.throughput ++ " ops/s") ++
  statHTML "Total ops" (fmtInt r.total) ++
  statHTML "Errors" (fmtInt r.errors) ++
  statHTML "Duration" (fmtDur F r.duration) ++
  "</div>" ++
  (if svg ≠ "" then chartCaptionHTML ++ svg else "") ++
  "</div>"

def opCellHTML (v : F) : String := "<td class=\"num\">" ++ esc (fmtFloat v) ++ "</td>"

def zeroPercentiles : Percentiles F := ⟨0, 0, 0, 0, 0, 0, 0, 0, 0⟩

def opCells (p : Percentiles F) : List F := [p.p50, p.p90, p.p95, p.p99, p.p999, p.p9999, p.max]

def opRowHTML (r : RunResult F) (op : String) : String :=
  let p := (r.byOp.lookup op).getD zeroPercentiles
  "<tr><td>" ++ esc op ++ "</td><td class=\"num\">" ++ esc (fmtInt p.count) ++ "</td>" ++
  String.join ((opCells p).map opCellHTML) ++ "</tr>"

def byOpHTML (iter : IterOrder String) (r : RunResult F) : String :=
  "<h2>Per-operation latency</h2><div class=\"card\"><div class=\"tblwrap\"><table>" ++
  "<thead><tr><th>Op</th><th class=\"num\">Count</th><th class=\"num\">p50</th>" ++
  "<th class=\"num\">p90</th><th class=\"num\">p95</th><th class=\"num\">p99</th>" ++
  "<th class=\"num\">p99.9</th><th class=\"num\">p99.99</th><th class=\"num\">Max</th></tr></thead><tbody>" ++
  String.join ((sortedKeys iter r.byOp).map (opRowHTML r)) ++
  "</tbody></table></div>" ++
  "<p class=\"muted\" style=\"font-size:.8rem;margin:8px 0 0\">Latencies in milliseconds.</p></div>"

/-- The points of one line: seconds since the first point, and a value. -/
def linePoints (start : Int) (value : TPoint F → F) (pts : List (TPoint F)) : List (F × F) :=
  pts.map fun p => (seconds (p.t - start), value p)

def throughputSeries (start : Int) (pts : List (TPoint F)) : List (LineSeries F) :=
  [⟨"throughput", "var(--series-1)", linePoints start TPoint.throughput pts⟩]

def latencySeries (start : Int) (pts : List (TPoint F)) : List (LineSeries F) :=
  [⟨"p50", "var(--series-1)", linePoints start TPoint.p50 pts⟩,
   ⟨"p99", "var(--series-2)", linePoints start TPoint.p99 pts⟩,
   ⟨"p99.9", "var(--series-3)", linePoints start TPoint.p999 pts⟩]

def legendHTML (s : LineSeries F) : String :=
  "<span><span class=\"swatch\" style=\"background:" ++ s.color ++ "\"></span>" ++ esc s.name ++ "</span>"

def seriesHTML (pts : List (TPoint F)) (start : Int) : String :=
  "<h2>Throughput over time</h2><div class=\"card\">" ++
  lineChartSVG "ops/s" (throughputSeries start pts) ++
  "<p class=\"muted\" style=\"font-size:.8rem;margin:8px 0 0\">Completed ops/sec per interval.</p></div>" ++
  "<h2>Latency over time</h2><div class=\"card\">" ++
  lineChartSVG "ms" (latencySeries start pts) ++
  "<div class=\"legend\">" ++
  String.join ((latencySeries start pts).map legendHTML) ++
  "</div></div>"

/-- Empty if there is no point; the time of the first one starts the axis. -/
def timeseriesHTML (iter : IterOrder Int) (snaps : List (LatencySnapshot F)) : String :=
  let pts := aggregate iter snaps
  pts.head?.elim "" fun p => seriesHTML pts p.t

/-- The class and the label of a verdict. -/
def verdictLabel (verdict : String) : String × String :=
  if verdict = "pass" then ("pass", "PASS") else if verdict = "fail" then ("fail", "FAIL") else ("unknown", "UNKNOWN")

def anomalyHTML (a : Anomaly) : String :=
  "<li>" ++ "<strong>" ++ esc a.kind ++ "</strong>: " ++ esc a.detail ++
  (if a.witness = [] then "" else " <code>" ++ esc (", ".intercalate a.witness) ++ "</code>") ++ "</li>"

section Correctness
variable (F)

/-- The statistics of a verification; those of a convergence are left out if there was none. -/
def verifyStats (v : VerifyReport) : List (String × String) :=
  [("Checked", fmtInt v.checked), ("Lost", fmtInt v.lost), ("Duplicated", fmtInt v.duplicated),
    ("Ordering viol.", fmtInt v.orderingViol)] ++
  (if 0 < v.convergedIn then [("Converged in", fmtDur F v.convergedIn)] else []) ++
  (if 0 < v.maxStaleness then [("Max staleness", fmtDur F v.maxStaleness)] else [])

def correctnessHTML (v : VerifyReport) : String :=
  "<h2>Correctness</h2>" ++
  "<div class=\"banner " ++ (verdictLabel v.verdict).1 ++ "\">Verdict: " ++ esc (verdictLabel v.verdict).2 ++
    " &middot; model " ++ esc v.model ++ "</div>" ++
  "<div class=\"card\"><div class=\"stats\">" ++
  String.join ((verifyStats F v).map fun s => statHTML s.1 s.2) ++
  "</div>" ++
  (if v.anomalies = [] then
    "<p class=\"muted\" style=\"font-size:.85rem;margin:4px 0 0\">No anomalies reported.</p>"
  else "<ul class=\"anom\">" ++ String.join (v.anomalies.map anomalyHTML) ++ "</ul>") ++
  "</div>"

end Correctness

/-! ## The document (`core/report/report.go`) -/

/-- The iteration orders of the maps that a report walks. -/
structure Orders where
  ops : IterOrder String
  labels : IterOrder String
  times : IterOrder Int

def document (css : Markup.Literal) (m : Manifest) (body : String) : String :=
  let title := esc (m.target ++ " — proofload run " ++ m.runID)
  "<!DOCTYPE html><html lang=\"en\"><head><meta charset=\"utf-8\">" ++
    "<meta name=\"viewport\" content=\"width=device-width, initial-scale=1\">" ++
    "<title>" ++ title ++ "</title>" ++ ("<style>" ++ String.ofList css.symbols ++ "</style>") ++
    "</head><body><main class=\"wrap\">" ++
    body ++
    "<footer>Generated by proofload &middot; self-contained offline report.</footer>" ++
    "</main></body></html>"

/-- What the readers of the artifacts return; `verify` is `none` if its file does not exist. -/
structure Artifacts (F : Type) where
  manifest : Except String Manifest
  summary : Except String (RunResult F)
  timeseries : Except String (List (LatencySnapshot F))
  verify : Option (Except String VerifyReport)

/-- The banner of a run whose bottleneck was the client. -/
def clientBoundHTML : String :=
  "<div class=\"banner warn\">Client-bound: the load client, not the target, " ++
    "was the bottleneck for this run. Throughput and latency numbers do not reflect the target.</div>"

def body (o : Orders) (a : Artifacts F) (m : Manifest) (r : RunResult F) (svg : String) : String :=
  headerHTML m ++
    (if r.clientBound then clientBoundHTML else "") ++
    summaryHTML r svg ++
    (if 0 < r.byOp.size then byOpHTML o.ops r else "") ++
    a.timeseries.toOption.elim "" (timeseriesHTML o.times) ++
    (a.verify.bind Except.toOption).elim "" (correctnessHTML F) ++
    metadataHTML F o.labels m

/-- `none` if it does not return within the fuel. -/
def render (fuel : Nat) (css : Markup.Literal) (o : Orders) (a : Artifacts F) : Option (Except String String) :=
  match a.manifest, a.summary with
  | .error e, _ => some (.error e)
  | .ok _, .error e => some (.error e)
  | .ok m, .ok r => (lollipopSVG fuel (percentileRows r.overall)).map fun svg => .ok (document css m (body o a m r svg))

end Proofload.Report
