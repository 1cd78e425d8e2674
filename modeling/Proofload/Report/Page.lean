import Proofload.Report.Sections

/-!
# What a report shows

The page of a run as a tree of elements, over the few elements and attributes a report has. The texts of the page are
the values of the run themselves. Nothing else can stand in it: there is no element of a script among its tags.

* `sortedKeys_eq` : the order in which a map is walked does not show;
* `html_header`, `html_lollipop`, `html_lineChart`, … : a section's text is the written form of its part of the page;
* `html_page` : and so is the document;
* `report_reads_back` : **a reader of the report finds the page**, whatever the values of the run are.
-/

namespace Proofload.Report
open Lib Export GoLib

set_option autoImplicit false
set_option maxRecDepth 8000

/-! ## The vocabulary -/

inductive Tag where
  | h1 | h2 | p | span | div | table | thead | tbody | tr | th | td | ul | li | strong | code | svg | text | html | head
  | title | body | main | footer
deriving DecidableEq

inductive Leaf where
  | metaInfo | line | circle | polyline
deriving DecidableEq

inductive Raw where
  | style
deriving DecidableEq

inductive Attr where
  | cls | style | viewBox | role | ariaLabel | x1 | y1 | x2 | y2 | x | y | cx | cy | r | fill | stroke | strokeWidth
  | fontSize | textAnchor | dominantBaseline | strokeLinejoin | strokeLinecap | points | lang | charset | name | content
deriving DecidableEq

inductive Ref where
  | middot
deriving DecidableEq

def Tag.word : Tag → String
  | .h1 => "h1" | .h2 => "h2" | .p => "p" | .span => "span" | .div => "div" | .table => "table" | .thead => "thead"
  | .tbody => "tbody" | .tr => "tr" | .th => "th" | .td => "td" | .ul => "ul" | .li => "li" | .strong => "strong"
  | .code => "code" | .svg => "svg" | .text => "text" | .html => "html" | .head => "head" | .title => "title"
  | .body => "body" | .main => "main" | .footer => "footer"

def Leaf.word : Leaf → String
  | .metaInfo => "meta" | .line => "line" | .circle => "circle" | .polyline => "polyline"

def Raw.word : Raw → String
  | .style => "style"

def Attr.word : Attr → String
  | .cls => "class" | .style => "style" | .viewBox => "viewBox" | .role => "role" | .ariaLabel => "aria-label"
  | .x1 => "x1" | .y1 => "y1" | .x2 => "x2" | .y2 => "y2" | .x => "x" | .y => "y" | .cx => "cx" | .cy => "cy"
  | .r => "r" | .fill => "fill" | .stroke => "stroke" | .strokeWidth => "stroke-width" | .fontSize => "font-size"
  | .textAnchor => "text-anchor" | .dominantBaseline => "dominant-baseline" | .strokeLinejoin => "stroke-linejoin"
  | .strokeLinecap => "stroke-linecap" | .points => "points" | .lang => "lang" | .charset => "charset"
  | .name => "name" | .content => "content"

def Ref.word : Ref → String
  | .middot => "middot"

def Tag.all : List Tag :=
  [.h1, .h2, .p, .span, .div, .table, .thead, .tbody, .tr, .th, .td, .ul, .li, .strong, .code, .svg, .text, .html,
    .head, .title, .body, .main, .footer]

def Leaf.all : List Leaf := [.metaInfo, .line, .circle, .polyline]

def Attr.all : List Attr :=
  [.cls, .style, .viewBox, .role, .ariaLabel, .x1, .y1, .x2, .y2, .x, .y, .cx, .cy, .r, .fill, .stroke, .strokeWidth,
    .fontSize, .textAnchor, .dominantBaseline, .strokeLinejoin, .strokeLinecap, .points, .lang, .charset, .name,
    .content]

def tagNames : Markup.Names Tag :=
  .ofWords Tag.word Tag.all (by intro t; cases t <;> decide) (by intro t; cases t <;> decide)

def leafNames : Markup.Names Leaf :=
  .ofWords Leaf.word Leaf.all (by intro t; cases t <;> decide) (by intro t; cases t <;> decide)

def rawNames : Markup.Names Raw :=
  .ofWords Raw.word [.style] (by intro t; cases t; decide) (by intro t; cases t; decide)

def attrNames : Markup.Names Attr :=
  .ofWords Attr.word Attr.all (by intro t; cases t <;> decide) (by intro t; cases t <;> decide)

def refNames : Markup.Names Ref :=
  .ofWords Ref.word [.middot] (by intro t; cases t; decide) (by intro t; cases t; decide)

def vocabulary : Markup.Vocabulary Tag Leaf Raw Attr Ref where
  tags := tagNames
  leaves := leafNames
  raws := rawNames
  attrs := attrNames
  refs := refNames
  slash l := l != .metaInfo
  leaf_tag := by intro t; cases t <;> decide
  raw_tag := by intro t; cases t <;> decide
  raw_leaf := by intro l; cases l <;> decide
  entity_ref := by intro r; cases r; decide

abbrev HtmlNode := Markup.Node Tag Leaf Raw Attr Ref

/-- The written form of nodes. -/
def html (ns : List HtmlNode) : String := String.ofList (Markup.printAll vocabulary ns)

/-! ## Elements and their written form -/

def txt (s : String) : List HtmlNode := Markup.text s.toList

def middot : List HtmlNode := [.ref .middot]

def attributes (as : List (Attr × String)) : List (Attr × List Char) := as.map fun a => (a.1, a.2.toList)

def el (t : Tag) (as : List (Attr × String)) (ks : List HtmlNode) : List HtmlNode := [.elem t (attributes as) ks]

def leaf (l : Leaf) (as : List (Attr × String)) : List HtmlNode := [.leaf l (attributes as)]

def attrText (a : Attr × String) : String := " " ++ a.1.word ++ "=\"" ++ esc a.2 ++ "\""

@[simp]
theorem html_nil : html [] = "" := rfl

@[simp]
theorem html_append (ns ms : List HtmlNode) : html (ns ++ ms) = html ns ++ html ms := by
  unfold html
  rw [Markup.printAll_append, String.ofList_append]

@[simp]
theorem html_txt (s : String) : html (txt s) = esc s := by
  unfold html txt esc
  rw [Markup.printAll_text]

@[simp]
theorem html_middot : html middot = "&middot;" := rfl

theorem html_flatMap {α : Type} {f : α → String} {g : α → List HtmlNode} {l : List α}
    (h : ∀ a ∈ l, html (g a) = f a) : html (l.flatMap g) = String.join (l.map f) := by
  induction l with
  | nil => rfl
  | cons a l ih =>
      obtain ⟨ha, hl⟩ := List.forall_mem_cons.mp h
      rw [List.map_cons, String.join_cons, ← ih hl, List.flatMap_cons, html_append, ha]

theorem toList_attrText (a : Attr × String) :
    (attrText a).toList = Markup.printAttr vocabulary (a.1, a.2.toList) := by
  simp only [attrText, esc, Markup.printAttr, String.toList_append, String.toList_ofList, List.append_assoc]
  rfl

theorem toList_attributes (as : List (Attr × String)) :
    (String.join (as.map attrText)).toList = Markup.printAttrs vocabulary (attributes as) := by
  rw [String.toList_join, List.flatMap_map, attributes, Markup.printAttrs, List.flatMap_map]
  congr 1
  funext a
  exact toList_attrText a

@[simp]
theorem html_el (t : Tag) (as : List (Attr × String)) (ks : List HtmlNode) :
    html (el t as ks) =
      "<" ++ t.word ++ String.join (as.map attrText) ++ ">" ++ html ks ++ "</" ++ t.word ++ ">" := by
  apply String.toList_inj.mp
  simp only [html, el, String.toList_append, String.toList_ofList, toList_attributes, Markup.printAll,
    Markup.Node.print, List.append_nil, List.append_assoc]
  rfl

@[simp]
theorem html_leaf (l : Leaf) (as : List (Attr × String)) :
    html (leaf l as) =
      "<" ++ l.word ++ String.join (as.map attrText) ++ if l = .metaInfo then ">" else "/>" := by
  apply String.toList_inj.mp
  simp only [html, leaf, String.toList_append, String.toList_ofList, toList_attributes, Markup.printAll,
    Markup.Node.print, Markup.printLeaf, List.append_nil, List.append_assoc]
  cases l <;> rfl

/-! ## Texts that need no escape -/

theorem esc_append (s t : String) : esc (s ++ t) = esc s ++ esc t := by
  unfold esc Markup.escape
  rw [String.toList_append, List.flatMap_append, String.ofList_append]

theorem esc_plain {s : String} (h : ∀ c ∈ s.toList, Markup.entity c = none) : esc s = s := by
  rw [esc, Markup.escape_plain h, String.ofList_toList]

theorem esc_of_plain {s : String} (h : Markup.plain s = true) : esc s = s := esc_plain (Markup.entity_of_plain h)

variable {F : Type} [GoLib F]

theorem esc_coord (v : F) : esc (coord v) = coord v := esc_plain (format_plain v 2)

/-! ## Header -/

def pillNodes (p : String × String) : List HtmlNode := el .span [(.cls, "pill")] (txt p.1 ++ txt ": " ++ txt p.2)

def header (m : Manifest) : List HtmlNode :=
  el .h1 [] (txt m.target) ++
  el .p [(.cls, "sub")] (txt "Run report " ++ middot ++ txt " " ++ txt m.runID) ++
  (pills m).flatMap pillNodes

theorem html_pillNodes (p : String × String) : html (pillNodes p) = pillHTML p := by
  simp (disch := decide) [pillNodes, attrText, esc_of_plain, String.append_assoc]
  unfold pillHTML
  conv_rhs => simp only [String.append_assoc]
  rfl

theorem html_header (m : Manifest) : html (header m) = headerHTML m := by
  simp (disch := decide) [header, html_flatMap fun p _ => html_pillNodes p, attrText, esc_of_plain,
    String.append_assoc]
  unfold headerHTML
  conv_rhs => simp only [String.append_assoc]
  rfl

/-! ## Charts -/

def gridline (r : F × F) (h p : F) : List HtmlNode :=
  let gx := logX r (pow (const 10) p)
  leaf .line [(.x1, coord gx), (.y1, coord (const 20 : F)), (.x2, coord gx), (.y2, coord (h - const 16)),
    (.stroke, "var(--grid)"), (.strokeWidth, "1")] ++
  el .text [(.x, coord gx), (.y, coord (h - const 4)), (.fill, "var(--muted)"), (.fontSize, "10"),
    (.textAnchor, "middle")] (txt (fmtFloat (pow (const 10) p)))

def lollipopRow (r : F × F) (v : LabeledValue F × Nat) : List HtmlNode :=
  let y : F := rowY v.2
  let px := logX r v.1.value
  el .text [(.x, coord (const 60 : F)), (.y, coord y), (.fill, "var(--ink2)"), (.fontSize, "12"), (.textAnchor, "end"),
    (.dominantBaseline, "middle")] (txt v.1.label) ++
  leaf .line [(.x1, coord (const 70 : F)), (.y1, coord y), (.x2, coord px), (.y2, coord y),
    (.stroke, "var(--series-1)"), (.strokeWidth, "2")] ++
  leaf .circle [(.cx, coord px), (.cy, coord y), (.r, "4.5"), (.fill, "var(--series-1)")] ++
  el .text [(.x, coord (px + const 9)), (.y, coord y), (.fill, "var(--ink)"), (.fontSize, "12"),
    (.textAnchor, "start"), (.dominantBaseline, "middle")] (txt (fmtMs v.1.value))

def lollipop (vals : List (LabeledValue F)) (r : F × F) (grid : List F) : List HtmlNode :=
  el .svg [(.viewBox, "0 0 " ++ coord (const 680 : F) ++ " " ++ coord (lollipopHeight vals)), (.role, "img"),
    (.ariaLabel, "latency percentiles")]
    (grid.flatMap (gridline r (lollipopHeight vals)) ++
      vals.zipIdx.flatMap (lollipopRow r))

theorem html_gridline (r : F × F) (h p : F) : html (gridline r h p) = gridlineSVG r h p := by
  simp (disch := decide) [gridline, attrText, esc_of_plain, esc_coord, String.append_assoc]
  unfold gridlineSVG
  conv_rhs => simp only [String.append_assoc]
  rfl

theorem html_lollipopRow (r : F × F) (v : LabeledValue F × Nat) : html (lollipopRow r v) = lollipopRowSVG r v := by
  simp (disch := decide) [lollipopRow, attrText, esc_of_plain, esc_coord, String.append_assoc]
  unfold lollipopRowSVG
  conv_rhs => simp only [String.append_assoc]
  rfl

theorem html_lollipop (vals : List (LabeledValue F)) (r : F × F) (grid : List F) :
    html (lollipop vals r grid) = drawLollipop vals r grid := by
  simp (disch := decide) [lollipop, html_flatMap fun p _ => html_gridline r _ p,
    html_flatMap fun v _ => html_lollipopRow r v, attrText, esc_append, esc_of_plain, esc_coord, String.append_assoc]
  unfold drawLollipop
  conv_rhs => simp only [String.append_assoc]
  rfl

theorem drawLollipop_ne (vals : List (LabeledValue F)) (r : F × F) (grid : List F) : drawLollipop vals r grid ≠ "" := by
  intro h
  exact absurd (String.append_eq_empty_iff.mp h).2 (by decide)

def yTick (m : F × F) (i : Nat) : List HtmlNode :=
  let yv := m.2 * const i / const 4
  let gy := plotY m yv
  leaf .line [(.x1, coord (const 60 : F)), (.y1, coord gy), (.x2, coord (const 664 : F)), (.y2, coord gy),
    (.stroke, "var(--grid)"), (.strokeWidth, "1")] ++
  el .text [(.x, coord (const 52 : F)), (.y, coord gy), (.fill, "var(--muted)"), (.fontSize, "10"),
    (.textAnchor, "end"), (.dominantBaseline, "middle")] (txt (fmtFloat yv))

def xTick (m : F × F) (i : Nat) : List HtmlNode :=
  let xv := m.1 * const i / const 4
  el .text [(.x, coord (plotX m xv)), (.y, coord (const 242 : F)), (.fill, "var(--muted)"), (.fontSize, "10"),
    (.textAnchor, "middle")] (txt (fmtFloat xv) ++ txt "s")

def polyline (m : F × F) (s : LineSeries F) : List HtmlNode :=
  if s.pts.isEmpty then []
  else
    leaf .polyline [(.fill, "none"), (.stroke, s.color), (.strokeWidth, "2"), (.strokeLinejoin, "round"),
      (.strokeLinecap, "round"), (.points, pointsText m s.pts)]

def lineChart (unit : String) (series : List (LineSeries F)) (m : F × F) : List HtmlNode :=
  el .svg [(.viewBox, "0 0 " ++ coord (const 680 : F) ++ " " ++ coord (const 250 : F)), (.role, "img"),
    (.ariaLabel, "time series (" ++ unit ++ ")")]
    ((List.range 5).flatMap (yTick m) ++ (List.range 5).flatMap (xTick m) ++
      leaf .line [(.x1, coord (const 60 : F)), (.y1, coord (const 16 + const 204 : F)), (.x2, coord (const 664 : F)),
        (.y2, coord (const 16 + const 204 : F)), (.stroke, "var(--axis)"), (.strokeWidth, "1")] ++
      series.flatMap (polyline m))

theorem html_yTick (m : F × F) (i : Nat) : html (yTick m i) = yTickSVG m i := by
  simp (disch := decide) [yTick, attrText, esc_of_plain, esc_coord, String.append_assoc]
  unfold yTickSVG
  conv_rhs => simp only [String.append_assoc]
  rfl

theorem html_xTick (m : F × F) (i : Nat) : html (xTick m i) = xTickSVG m i := by
  simp (disch := decide) [xTick, attrText, esc_of_plain, esc_coord, String.append_assoc]
  unfold xTickSVG
  conv_rhs => simp only [String.append_assoc]
  rfl

theorem mem_of_mem_trimSpace {s : String} {c : Char} (h : c ∈ (trimSpace s).toList) : c ∈ s.toList := by
  rw [trimSpace, String.toList_ofList, List.mem_reverse] at h
  have h := (List.dropWhile_suffix _).subset h
  exact (List.dropWhile_suffix _).subset (List.mem_reverse.mp h)

theorem esc_pointsText (m : F × F) (pts : List (F × F)) : esc (pointsText m pts) = pointsText m pts := by
  apply esc_plain
  intro c hc
  have hc := mem_of_mem_trimSpace hc
  rw [String.toList_join, List.mem_flatMap] at hc
  obtain ⟨t, ht, hc⟩ := hc
  obtain ⟨p, -, rfl⟩ := List.mem_map.mp ht
  simp only [String.toList_append, List.mem_append] at hc
  obtain ((hc | hc) | hc) | hc := hc
  · exact format_plain _ 2 c hc
  · exact Markup.entity_of_plain (by decide) c hc
  · exact format_plain _ 2 c hc
  · exact Markup.entity_of_plain (by decide) c hc

theorem html_polyline (m : F × F) {s : LineSeries F} (hcolor : esc s.color = s.color) :
    html (polyline m s) = polylineSVG m s := by
  unfold polyline polylineSVG
  split
  · rfl
  · simp (disch := decide) only [html_leaf, attrText, List.map_cons, List.map_nil, String.join_cons, hcolor,
      esc_pointsText, esc_of_plain]
    conv_lhs => simp only [String.append_assoc]
    conv_rhs => simp only [String.append_assoc]
    rfl

theorem html_lineChart (unit : String) {series : List (LineSeries F)} (hcolor : ∀ s ∈ series, esc s.color = s.color)
    (m : F × F) : html (lineChart unit series m) = drawLines unit series m := by
  simp (disch := decide) [lineChart, html_flatMap fun i _ => html_yTick m i,
    html_flatMap fun i _ => html_xTick m i, html_flatMap fun s hs => html_polyline m (hcolor s hs), attrText,
    esc_append, esc_of_plain, esc_coord, String.append_assoc]
  unfold drawLines
  conv_rhs => simp only [String.append_assoc]
  rfl

/-! ## Sections -/

def stat (k v : String) : List HtmlNode :=
  el .div [(.cls, "stat")] (el .div [(.cls, "k")] (txt k) ++ el .div [(.cls, "v")] (txt v))

theorem html_stat (k v : String) : html (stat k v) = statHTML k v := by
  simp (disch := decide) [stat, attrText, esc_of_plain, String.append_assoc]
  unfold statHTML
  conv_rhs => simp only [String.append_assoc]
  rfl

def caption (style text : String) : List HtmlNode := el .p [(.cls, "muted"), (.style, style)] (txt text)

/-- The powers of ten of a scale: one for each of the rounds until the end of the scale is passed. -/
structure Decades (r : F × F) (rounds : Nat) : Prop where
  within : ∀ i < rounds, le (countUp (const 1) (ceil (log10 r.1)) i) (floor (log10 r.2)) = true
  passed : le (countUp (const 1) (ceil (log10 r.1)) rounds) (floor (log10 r.2)) = false

/-- The exponents of the powers of ten. -/
def exponents (r : F × F) (rounds : Nat) : List F := (List.range rounds).map (countUp (const 1) (ceil (log10 r.1)))

theorem ticks_eq {hi : F} {rounds : Nat} {start : F}
    (hwithin : ∀ i < rounds, le (countUp (const 1) start i) hi = true)
    (hpassed : le (countUp (const 1) start rounds) hi = false) {fuel : Nat} (hfuel : rounds < fuel) :
    ticks hi fuel start = some ((List.range rounds).map (countUp (const 1) start)) := by
  induction rounds generalizing start fuel with
  | zero =>
      obtain ⟨fuel, rfl⟩ := Nat.exists_eq_succ_of_ne_zero (by omega : fuel ≠ 0)
      have hstop : le start hi = false := hpassed
      rw [Nat.succ_eq_add_one, ticks, hstop]
      rfl
  | succ rounds ih =>
      obtain ⟨fuel, rfl⟩ := Nat.exists_eq_succ_of_ne_zero (by omega : fuel ≠ 0)
      have hgo : le start hi = true := hwithin 0 (by omega)
      have hrest : ∀ i < rounds, le (countUp (const 1) (start + const 1) i) hi = true := fun i hi' =>
        hwithin (i + 1) (by omega)
      rw [Nat.succ_eq_add_one, ticks, hgo, if_pos rfl, ih hrest hpassed (by omega), List.range_succ_eq_map,
        List.map_cons, List.map_map]
      rfl

/-- The logarithms of the scale of the latency chart, if it is drawn, are finite. -/
def FiniteScale (p : Percentiles F) : Prop :=
  ∀ r, logRange (percentileRows p) = some r → isInf (log10 r.1) = false ∧ isInf (log10 r.2) = false

theorem FiniteScale.exists_decades {p : Percentiles F} (h : FiniteScale p) :
    ∃ rounds, ∀ r, logRange (percentileRows p) = some r → Decades r rounds := by
  cases hrange : logRange (percentileRows p) with
  | none => exact ⟨0, fun r hr => by cases hr⟩
  | some r =>
      obtain ⟨hlo, hhi⟩ := h r hrange
      have hpast := counts_past r.1 r.2 hlo hhi
      refine ⟨Nat.find hpast, fun r' hr' => ?_⟩
      cases hr'
      refine ⟨fun i hi => ?_, Nat.find_spec hpast⟩
      exact Bool.eq_true_of_not_eq_false (Nat.find_min hpast hi)

/-- The latency chart with its caption, if there is something to show. -/
def latencyChart (vals : List (LabeledValue F)) (rounds : Nat) : List HtmlNode :=
  (logRange vals).elim [] fun r =>
    caption "margin:8px 0 2px;font-size:.85rem" "Overall latency (log scale)" ++ lollipop vals r (exponents r rounds)

def summary (r : RunResult F) (rounds : Nat) : List HtmlNode :=
  el .h2 [] (txt "Summary") ++
  el .div [(.cls, "card")]
    (el .div [(.cls, "stats")]
      (stat "Throughput" (fmtFloat r.throughput ++ " ops/s") ++ stat "Total ops" (fmtInt r.total) ++
        stat "Errors" (fmtInt r.errors) ++ stat "Duration" (fmtDur F r.duration)) ++
      latencyChart (percentileRows r.overall) rounds)

/-- With fuel for the decades the chart is drawn, and it is the written form of its part of the page. -/
theorem lollipopSVG_eq {vals : List (LabeledValue F)} {rounds : Nat}
    (h : ∀ r, logRange vals = some r → Decades r rounds) {fuel : Nat} (hfuel : rounds < fuel) :
    ∃ svg, lollipopSVG fuel vals = some svg ∧
      html (latencyChart vals rounds) = if svg ≠ "" then chartCaptionHTML ++ svg else "" := by
  have hcaption : html (caption "margin:8px 0 2px;font-size:.85rem" "Overall latency (log scale)") =
      chartCaptionHTML := by
    simp (disch := decide) [caption, attrText, esc_of_plain]
    rfl
  unfold latencyChart lollipopSVG
  cases hrange : logRange vals with
  | none => exact ⟨"", rfl, rfl⟩
  | some r =>
      obtain ⟨hwithin, hpassed⟩ := h r hrange
      refine ⟨drawLollipop vals r (exponents r rounds), ?_, ?_⟩
      · dsimp only
        rw [ticks_eq hwithin hpassed hfuel]
        rfl
      · rw [Option.elim_some, if_pos (drawLollipop_ne vals r _), html_append, html_lollipop, hcaption]

theorem html_summary {r : RunResult F} {rounds : Nat} {svg : String}
    (hsvg : html (latencyChart (percentileRows r.overall) rounds) = if svg ≠ "" then chartCaptionHTML ++ svg else "") :
    html (summary r rounds) = summaryHTML r svg := by
  simp (disch := decide) only [summary, html_el, html_append, html_stat, hsvg, html_txt, attrText,
    List.map_cons, List.map_nil, String.join_cons, String.join_nil, esc_of_plain, String.append_assoc]
  unfold summaryHTML
  conv_rhs => simp only [String.append_assoc]
  rfl

def opRow (r : RunResult F) (op : String) : List HtmlNode :=
  let p := (r.byOp.lookup op).getD zeroPercentiles
  el .tr [] (el .td [] (txt op) ++ el .td [(.cls, "num")] (txt (fmtInt p.count)) ++
    (opCells p).flatMap fun v => el .td [(.cls, "num")] (txt (fmtFloat v)))

/-- The keys of a map in ascending order. -/
def ascending {ν : Type} (m : Map String ν) : List String := m.keys.insertionSort (· ≤ ·)

def byOp (r : RunResult F) : List HtmlNode :=
  el .h2 [] (txt "Per-operation latency") ++
  el .div [(.cls, "card")]
    (el .div [(.cls, "tblwrap")]
      (el .table []
        (el .thead [] (el .tr [] (el .th [] (txt "Op") ++
          ["Count", "p50", "p90", "p95", "p99", "p99.9", "p99.99", "Max"].flatMap fun c =>
            el .th [(.cls, "num")] (txt c))) ++
        el .tbody [] ((ascending r.byOp).flatMap (opRow r)))) ++
    caption "font-size:.8rem;margin:8px 0 0" "Latencies in milliseconds.")

theorem sortedKeys_eq {ν : Type} (iter : IterOrder String) (m : Map String ν) : sortedKeys iter m = ascending m := by
  apply List.Perm.eq_of_pairwise' (List.pairwise_insertionSort _ _) (List.pairwise_insertionSort _ _)
  exact (List.perm_insertionSort _ _).trans ((iter.perm _).trans (List.perm_insertionSort _ _).symm)

theorem html_opRow (r : RunResult F) (op : String) : html (opRow r op) = opRowHTML r op := by
  have hcell : ∀ v : F, html (el .td [(.cls, "num")] (txt (fmtFloat v))) = opCellHTML v := by
    intro v
    simp (disch := decide) [attrText, esc_of_plain, String.append_assoc]
    rfl
  simp (disch := decide) only [opRow, html_el, html_append, html_flatMap fun v _ => hcell v, html_txt, attrText,
    List.map_cons, List.map_nil, String.join_cons, String.join_nil, esc_of_plain, String.append_assoc]
  unfold opRowHTML
  conv_rhs => simp only [String.append_assoc]
  rfl

theorem html_byOp (iter : IterOrder String) (r : RunResult F) : html (byOp r) = byOpHTML iter r := by
  simp (disch := decide) [byOp, caption, html_flatMap fun op _ => html_opRow r op, attrText, esc_of_plain,
    String.append_assoc]
  unfold byOpHTML
  rw [sortedKeys_eq]
  conv_rhs => simp only [String.append_assoc]
  rfl

def chart (unit : String) (series : List (LineSeries F)) : List HtmlNode :=
  (axes series).elim [] (lineChart unit series)

theorem html_chart (unit : String) {series : List (LineSeries F)} (hcolor : ∀ s ∈ series, esc s.color = s.color) :
    html (chart unit series) = lineChartSVG unit series := by
  unfold chart lineChartSVG
  cases axes series with
  | none => rfl
  | some m => exact html_lineChart unit hcolor m

section Legend

omit [GoLib F]

def legend (s : LineSeries F) : List HtmlNode :=
  el .span [] (el .span [(.cls, "swatch"), (.style, "background:" ++ s.color)] [] ++ txt s.name)

theorem html_legend {s : LineSeries F} (hcolor : esc s.color = s.color) : html (legend s) = legendHTML s := by
  simp (disch := decide) [legend, attrText, esc_append, hcolor, esc_of_plain, String.append_assoc]
  unfold legendHTML
  conv_rhs => simp only [String.append_assoc]
  rfl

end Legend

theorem throughputSeries_color (start : Int) (pts : List (TPoint F)) :
    ∀ s ∈ throughputSeries start pts, esc s.color = s.color := by
  intro s hs
  cases List.mem_singleton.mp hs
  exact esc_of_plain (s := "var(--series-1)") (by decide)

theorem latencySeries_color (start : Int) (pts : List (TPoint F)) :
    ∀ s ∈ latencySeries start pts, esc s.color = s.color := by
  unfold latencySeries
  refine List.forall_mem_cons.mpr ⟨?_, List.forall_mem_cons.mpr ⟨?_, List.forall_mem_singleton.mpr ?_⟩⟩
  · exact esc_of_plain (s := "var(--series-1)") (by decide)
  · exact esc_of_plain (s := "var(--series-2)") (by decide)
  · exact esc_of_plain (s := "var(--series-3)") (by decide)

def series (pts : List (TPoint F)) (start : Int) : List HtmlNode :=
  el .h2 [] (txt "Throughput over time") ++
  el .div [(.cls, "card")] (chart "ops/s" (throughputSeries start pts) ++
    caption "font-size:.8rem;margin:8px 0 0" "Completed ops/sec per interval.") ++
  el .h2 [] (txt "Latency over time") ++
  el .div [(.cls, "card")] (chart "ms" (latencySeries start pts) ++
    el .div [(.cls, "legend")] ((latencySeries start pts).flatMap legend))

/-- The charts over time, if there are snapshots. -/
def timeseries (snaps : List (LatencySnapshot F)) : List HtmlNode :=
  (timeline snaps).head?.elim [] fun p => series (timeline snaps) p.t

theorem html_series (pts : List (TPoint F)) (start : Int) : html (series pts start) = seriesHTML pts start := by
  simp (disch := decide) [series, caption, html_chart _ (throughputSeries_color start pts),
    html_chart _ (latencySeries_color start pts),
    html_flatMap fun s hs => html_legend (latencySeries_color start pts s hs), attrText, esc_of_plain,
    String.append_assoc]
  unfold seriesHTML
  conv_rhs => simp only [String.append_assoc]
  rfl

theorem html_timeseries (iter : IterOrder Int) (snaps : List (LatencySnapshot F)) :
    html (timeseries snaps) = timeseriesHTML iter snaps := by
  unfold timeseries timeseriesHTML
  simp only [aggregate_eq_timeline]
  cases (timeline snaps).head? with
  | none => rfl
  | some p => exact html_series _ _

def anomaly (a : Anomaly) : List HtmlNode :=
  el .li [] (el .strong [] (txt a.kind) ++ txt ": " ++ txt a.detail ++
    if a.witness = [] then [] else txt " " ++ el .code [] (txt (", ".intercalate a.witness)))

theorem html_anomaly (a : Anomaly) : html (anomaly a) = anomalyHTML a := by
  have hwitness : html (if a.witness = [] then [] else txt " " ++ el .code [] (txt (", ".intercalate a.witness))) =
      if a.witness = [] then "" else " <code>" ++ esc (", ".intercalate a.witness) ++ "</code>" := by
    split
    · rfl
    · simp (disch := decide) only [html_append, html_txt, html_el, List.map_nil, String.join_nil, esc_of_plain]
      conv_lhs => simp only [String.append_assoc]
      conv_rhs => simp only [String.append_assoc]
      rfl
  simp (disch := decide) only [anomaly, html_el, html_append, hwitness, html_txt, List.map_nil, String.join_nil,
    esc_of_plain, String.append_assoc]
  unfold anomalyHTML
  conv_rhs => simp only [String.append_assoc]
  rfl

section Correctness
variable (F)

def correctness (v : VerifyReport) : List HtmlNode :=
  el .h2 [] (txt "Correctness") ++
  el .div [(.cls, "banner " ++ (verdictLabel v.verdict).1)]
    (txt "Verdict: " ++ txt (verdictLabel v.verdict).2 ++ txt " " ++ middot ++ txt " model " ++ txt v.model) ++
  el .div [(.cls, "card")]
    (el .div [(.cls, "stats")] ((verifyStats F v).flatMap fun s => stat s.1 s.2) ++
      if v.anomalies = [] then caption "font-size:.85rem;margin:4px 0 0" "No anomalies reported."
      else el .ul [(.cls, "anom")] (v.anomalies.flatMap anomaly))

theorem esc_verdictLabel (verdict : String) : esc (verdictLabel verdict).1 = (verdictLabel verdict).1 := by
  unfold verdictLabel
  split_ifs
  all_goals exact esc_of_plain (by decide)

theorem html_correctness (v : VerifyReport) : html (correctness F v) = correctnessHTML F v := by
  have hanomalies : html (if v.anomalies = [] then caption "font-size:.85rem;margin:4px 0 0" "No anomalies reported."
      else el .ul [(.cls, "anom")] (v.anomalies.flatMap anomaly)) =
      if v.anomalies = [] then "<p class=\"muted\" style=\"font-size:.85rem;margin:4px 0 0\">No anomalies reported.</p>"
      else "<ul class=\"anom\">" ++ String.join (v.anomalies.map anomalyHTML) ++ "</ul>" := by
    split
    · simp (disch := decide) only [caption, html_txt, html_el, attrText, List.map_cons, List.map_nil,
        String.join_cons, String.join_nil, esc_of_plain]
      rfl
    · simp (disch := decide) only [html_flatMap fun a _ => html_anomaly a, html_el, attrText, List.map_cons,
        List.map_nil, String.join_cons, String.join_nil, esc_of_plain]
      conv_lhs => simp only [String.append_assoc]
      conv_rhs => simp only [String.append_assoc]
      rfl
  have hstats : html ((verifyStats F v).flatMap fun s => stat s.1 s.2) =
      String.join ((verifyStats F v).map fun s => statHTML s.1 s.2) := html_flatMap fun s _ => html_stat s.1 s.2
  simp (disch := decide) only [correctness, html_el, html_append, hanomalies, hstats, html_txt, html_middot, attrText,
    List.map_cons, List.map_nil, String.join_cons, String.join_nil, esc_append, esc_verdictLabel, esc_of_plain,
    String.append_assoc]
  unfold correctnessHTML
  conv_rhs => simp only [String.append_assoc]
  rfl

def tableRow (k : List HtmlNode) (v : String) : List HtmlNode := el .tr [] (el .th [] k ++ el .td [] (txt v))

def metadata (m : Manifest) : List HtmlNode :=
  el .h2 [] (txt "Run metadata") ++
  el .div [(.cls, "card")]
    (el .div [(.cls, "tblwrap")]
      (el .table []
        (el .tbody []
          (((metadataRows F m).flatMap fun r => tableRow (txt r.1) r.2) ++
            (ascending m.labels).flatMap fun k =>
              tableRow (txt "label: " ++ txt k) ((m.labels.lookup k).getD "")))))

theorem html_metadata (iter : IterOrder String) (m : Manifest) : html (metadata F m) = metadataHTML F iter m := by
  have hrow : ∀ r : String × String, html (tableRow (txt r.1) r.2) = metadataRowHTML r := by
    intro r
    simp [tableRow, String.append_assoc]
    unfold metadataRowHTML
    conv_rhs => simp only [String.append_assoc]
    rfl
  have hlabel : ∀ k, html (tableRow (txt "label: " ++ txt k) ((m.labels.lookup k).getD "")) = labelRowHTML m k := by
    intro k
    simp (disch := decide) only [tableRow, html_el, html_append, html_txt, List.map_nil, String.join_nil,
      esc_of_plain, String.append_assoc]
    unfold labelRowHTML
    conv_rhs => simp only [String.append_assoc]
    rfl
  simp (disch := decide) only [metadata, html_el, html_append, html_flatMap fun r _ => hrow r,
    html_flatMap fun k _ => hlabel k, html_txt, attrText, List.map_cons, List.map_nil, String.join_cons,
    String.join_nil, esc_of_plain, String.append_assoc]
  unfold metadataHTML
  rw [sortedKeys_eq]
  conv_rhs => simp only [String.append_assoc]
  rfl

end Correctness

/-! ## The document -/

def clientBound : List HtmlNode :=
  el .div [(.cls, "banner warn")]
    (txt ("Client-bound: the load client, not the target, was the bottleneck for this run. " ++
      "Throughput and latency numbers do not reflect the target."))

theorem html_clientBound : html clientBound = clientBoundHTML := by
  simp (disch := decide) only [clientBound, html_el, html_txt, attrText, List.map_cons, List.map_nil, String.join_cons,
    String.join_nil, esc_of_plain]
  rfl

/-- What a report shows between its head and its foot. -/
def content (m : Manifest) (r : RunResult F) (rounds : Nat) (snaps : Option (List (LatencySnapshot F)))
    (v : Option VerifyReport) : List HtmlNode :=
  header m ++ (if r.clientBound then clientBound else []) ++ summary r rounds ++
    (if 0 < r.byOp.size then byOp r else []) ++ snaps.elim [] timeseries ++ v.elim [] (correctness F) ++ metadata F m

/-- The page of a report. -/
def page (css : Markup.Literal) (m : Manifest) (body : List HtmlNode) : List HtmlNode :=
  el .html [(.lang, "en")]
    (el .head []
      (leaf .metaInfo [(.charset, "utf-8")] ++
        leaf .metaInfo [(.name, "viewport"), (.content, "width=device-width, initial-scale=1")] ++
        el .title [] (txt (m.target ++ " — proofload run " ++ m.runID)) ++
        [.raw .style [] css]) ++
      el .body [] (el .main [(.cls, "wrap")]
        (body ++ el .footer [] (txt "Generated by proofload " ++ middot ++ txt " self-contained offline report."))))

@[simp]
theorem html_style (css : Markup.Literal) :
    html [.raw .style [] css] = "<style>" ++ String.ofList css.symbols ++ "</style>" := by
  apply String.toList_inj.mp
  simp only [html, String.toList_append, String.toList_ofList, Markup.printAll, Markup.Node.print, Markup.printRaw,
    List.append_nil, List.append_assoc]
  rfl

theorem html_page (css : Markup.Literal) (m : Manifest) (body : List HtmlNode) :
    "<!DOCTYPE html>" ++ html (page css m body) = document css m (html body) := by
  simp (disch := decide) [page, attrText, esc_of_plain, String.append_assoc]
  unfold document
  conv_rhs => simp only [String.append_assoc]
  rfl

/-! ## Reading a report -/

def readReport (s : String) : Option (List HtmlNode) :=
  Markup.parseDocument vocabulary "<!DOCTYPE html>".toList s.toList

theorem readReport_document (css : Markup.Literal) (m : Manifest) (body : List HtmlNode) :
    readReport (document css m (html body)) = some (page css m body) := by
  have hprint : (html (page css m body)).toList = Markup.printAll vocabulary (page css m body) := String.toList_ofList
  unfold readReport
  rw [← html_page, String.toList_append, hprint, Markup.parseDocument_printAll]

theorem html_content (o : Orders) (a : Artifacts F) (m : Manifest) {r : RunResult F} {rounds : Nat} {svg : String}
    (hsvg : html (latencyChart (percentileRows r.overall) rounds) = if svg ≠ "" then chartCaptionHTML ++ svg else "") :
    html (content m r rounds a.timeseries.toOption (a.verify.bind Except.toOption)) = body o a m r svg := by
  have htimes : html (a.timeseries.toOption.elim [] timeseries) =
      a.timeseries.toOption.elim "" (timeseriesHTML o.times) := by
    cases a.timeseries.toOption with
    | none => rfl
    | some snaps => exact html_timeseries o.times snaps
  have hverify : html ((a.verify.bind Except.toOption).elim [] (correctness F)) =
      (a.verify.bind Except.toOption).elim "" (correctnessHTML F) := by
    cases a.verify.bind Except.toOption with
    | none => rfl
    | some v => exact html_correctness F v
  simp only [content, body, html_append, html_header, html_summary hsvg, htimes, hverify, html_metadata F o.labels,
    apply_ite html, html_clientBound, html_byOp o.ops, html_nil]

/-- **A reader of the report finds the page.** Whatever the artifacts of a run hold, as long as the scale of the latency
chart is finite, and in whatever order its maps are walked: `Render` returns; it fails if and only if the manifest or
the summary cannot be read, and what it writes is read as the page of the run, every text of which is the value
itself. -/
theorem report_reads_back (css : Markup.Literal) (o : Orders) (a : Artifacts F)
    (hscale : ∀ r, a.summary = .ok r → FiniteScale r.overall) :
    ∃ rounds, (∀ r scale, a.summary = .ok r → logRange (percentileRows r.overall) = some scale → Decades scale rounds) ∧
      ∀ fuel, rounds < fuel → (render fuel css o a).map (Except.map readReport) = some do
        let m ← a.manifest
        let r ← a.summary
        return some (page css m (content m r rounds a.timeseries.toOption (a.verify.bind Except.toOption))) := by
  obtain ⟨rounds, hrounds⟩ : ∃ rounds, ∀ r scale, a.summary = .ok r →
      logRange (percentileRows r.overall) = some scale → Decades scale rounds := by
    cases hr : a.summary with
    | error e => exact ⟨0, fun r scale h => by cases h⟩
    | ok r =>
        obtain ⟨rounds, hdecades⟩ := (hscale r hr).exists_decades
        refine ⟨rounds, fun r' scale h => ?_⟩
        cases h
        exact hdecades scale
  refine ⟨rounds, hrounds, fun fuel hfuel => ?_⟩
  unfold render
  cases a.manifest with
  | error e => rfl
  | ok m =>
      cases hr : a.summary with
      | error e => rfl
      | ok r =>
          obtain ⟨svg, hdraw, hsvg⟩ := lollipopSVG_eq (fun scale => hrounds r scale hr) hfuel
          have hread := readReport_document css m
            (content m r rounds a.timeseries.toOption (a.verify.bind Except.toOption))
          rw [html_content o a m hsvg] at hread
          dsimp only
          rw [hdraw]
          exact congrArg some (congrArg Except.ok hread)

/-! ## A report in whole numbers -/

theorem entity_toString (n : Int) : ∀ c ∈ (toString n).toList, Markup.entity c = none := by
  intro c hc
  have hdigits : ∀ m : Nat, c ∈ Nat.toDigits 10 m → Markup.entity c = none := by
    intro m hm
    have hdigit := Nat.isDigit_of_mem_toDigits (by decide) (by decide) hm
    unfold Markup.entity
    split <;> first | rfl | exact absurd hdigit (by decide)
  rw [Int.toString_eq_repr, Int.repr_eq_if] at hc
  split_ifs at hc
  · rw [Nat.toList_repr] at hc
    exact hdigits _ hc
  · rw [String.toList_append, List.mem_append, Nat.toList_repr] at hc
    rcases hc with hc | hc
    · exact Markup.entity_of_plain (by decide) c hc
    · exact hdigits _ hc

theorem countUp_int (start : Int) (n : Nat) : countUp 1 start n = start + n := by
  induction n generalizing start with
  | zero => simp [countUp]
  | succ n ih =>
      rw [countUp, ih]
      push_cast
      ring

/-- Whole numbers, with `2 ^ 1024` for infinity. As long as all results are whole they are those of `float64`. -/
@[reducible] def wholeNumbers : GoLib Int where
  const := id
  posInf := 2 ^ 1024
  negInf := -2 ^ 1024
  fmin := min
  fmax := max
  lt a b := a < b
  le a b := a ≤ b
  eq a b := a == b
  isNaN _ := false
  isInf a := 2 ^ 1024 ≤ |a|
  isPosInf a := a == 2 ^ 1024
  abs a := |a|
  log10 a := ((Nat.toDigits 10 a.toNat).length - 1 : Nat)
  pow a b := a ^ b.toNat
  ceil := id
  floor := id
  round := id
  toInt := id
  seconds d := d / 1000000000
  format v n := toString v ++ "." ++ String.ofList (List.replicate n '0')
  format_plain v n c hc := by
    simp only [String.toList_append, String.toList_ofList, List.mem_append] at hc
    rcases hc with (hc | hc) | hc
    · exact entity_toString v c hc
    · exact Markup.entity_of_plain (by decide) c hc
    · rw [List.eq_of_mem_replicate hc]
      rfl
  counts_past a b _ _ := by
    refine ⟨(Nat.toDigits 10 b.toNat).length, decide_eq_false ?_⟩
    simp only [id_eq]
    rw [countUp_int]
    have hpos := Nat.length_toDigits_pos (b := 10) (n := b.toNat)
    omega
  durationString d := toString d ++ "ns"
  formatTime t := toString t

/-- Nine operations, one of which took ten milliseconds and the others one. -/
def oneSlow : RunResult Int :=
  { total := 9, errors := 0, duration := 1000000000, throughput := 9, overall := ⟨9, 2, 1, 10, 10, 10, 10, 10, 10⟩
    byOp := ∅, clientBound := false }

def someManifest : Manifest :=
  { runID := "r1", target := "redis", targetVersion := "7", workload := "<kv>", mode := "perf", rate := ⟨"max", 0⟩
    duration := 1000000000, warmup := 0, connections := 1, seed := 1, trials := 1, consistency := ""
    replicationFactor := 0, nodes := 1, engineVersion := "dev", gitSHA := "", client := ⟨"", "", "", 0⟩, labels := ∅
    createdAt := none }

def oneSlowRun : Artifacts Int :=
  { manifest := .ok someManifest, summary := .ok oneSlow, timeseries := .error "no such file", verify := none }

def storedOrders : Orders := ⟨IterOrder.stored String, IterOrder.stored String, IterOrder.stored Int⟩

theorem logRange_oneSlow : @logRange Int wholeNumbers (percentileRows oneSlow.overall) = some (1, 10) := by
  decide +kernel

theorem report_reads_back_on_one_slow :
    ∃ rounds, @Decades Int wholeNumbers (1, 10) rounds ∧ ∀ fuel, rounds < fuel →
      (@render Int wholeNumbers fuel ⟨[], List.not_mem_nil⟩ storedOrders oneSlowRun).map (Except.map readReport) =
        some (.ok (some (page ⟨[], List.not_mem_nil⟩ someManifest
          (@content Int wholeNumbers someManifest oneSlow rounds none none)))) := by
  have hscale : ∀ r, oneSlowRun.summary = .ok r → @FiniteScale Int wholeNumbers r.overall := by
    intro r hr scale hrange
    cases hr
    rw [logRange_oneSlow] at hrange
    cases hrange
    decide +kernel
  obtain ⟨rounds, hdecades, hrender⟩ :=
    @report_reads_back Int wholeNumbers ⟨[], List.not_mem_nil⟩ storedOrders oneSlowRun hscale
  exact ⟨rounds, hdecades oneSlow _ rfl logRange_oneSlow, hrender⟩

end Proofload.Report
