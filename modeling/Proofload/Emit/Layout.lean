import Proofload.Domain
import Proofload.Lib.Paths

/-!
# Where the artifacts of a run are (`core/emit/layout.go`, `core/warehouse/ingest.go`, `core/report/report.go`)

`Layout` derives every artifact path from the base directory, the target and the run id. The warehouse and the report
get only the run directory and recover the other paths from it.

* `text_layout_dir` : the run directory is the base with three names behind it;
* `pathsFor_finds_run` : what `pathsFor` makes of any spelling of a directory three names below a base.
-/

namespace Proofload.Emit
open Lib Lib.Paths

set_option autoImplicit false

/-- The artifact paths of one run. -/
structure Paths where
  dir : Path
  manifest : Path
  summary : Path
  timeseriesNDJSON : Path
  timeseriesParquet : Path
  hLog : Path
  verifyJSON : Path
  serverStats : Path
deriving DecidableEq

def layout (base target id : Path) : Paths :=
  let dir := join [base, stringBytes "results", target, id]
  { dir
    manifest := join [dir, stringBytes "manifest.json"]
    summary := join [dir, stringBytes "summary.json"]
    timeseriesNDJSON := join [dir, stringBytes "timeseries.ndjson"]
    timeseriesParquet := join [dir, stringBytes "timeseries.parquet"]
    hLog := join [dir, stringBytes "latency.hlog"]
    verifyJSON := join [dir, stringBytes "verify.json"]
    serverStats := join [dir, stringBytes "server_stats.json"] }

/-- `pathsFor` of the warehouse and of the report. -/
def pathsFor (runDir : Path) : Paths :=
  let clean := (clean runDir).text
  let id := base clean
  let target := base (dir clean)
  let base := dir (dir (dir clean))
  layout base target id

theorem name_results : Name (stringBytes "results") := by decide +kernel

theorem names_below {target id : Path} (ht : Name target) (hid : Name id) :
    ∀ n ∈ [stringBytes "results", target, id], Name n :=
  List.forall_mem_cons.mpr ⟨name_results, List.forall_mem_cons.mpr ⟨ht, List.forall_mem_singleton.mpr hid⟩⟩

theorem text_layout_dir (b : Path) {target id : Path} (ht : Name target) (hid : Name id) :
    (layout b target id).dir = ((((clean b).child name_results).child ht).child hid).text :=
  join_names b (names_below ht hid) (List.cons_ne_nil _ _)

theorem layout_congr {b b' : Path} (h : clean b = clean b') {target id : Path} (ht : Name target) (hid : Name id) :
    layout b target id = layout b' target id := by
  have hdir : (layout b target id).dir = (layout b' target id).dir := by
    rw [text_layout_dir b ht hid, text_layout_dir b' ht hid, h]
  have hdir' : join [b, stringBytes "results", target, id] = join [b', stringBytes "results", target, id] := hdir
  unfold layout
  rw [hdir']

theorem pathsFor_below (c : Cleaned) {parent target id : Path} (hp : Name parent) (ht : Name target) (hid : Name id)
    {runDir : Path} (h : clean runDir = ((c.child hp).child ht).child hid) :
    pathsFor runDir = layout c.text target id := by
  unfold pathsFor
  rw [h]
  simp only [base_child, dir_child]

theorem Cleaned.text_injective {c c' : Cleaned} (h : c.text = c'.text) : c = c' := by
  rw [← clean_text c, h, clean_text]

/-- **Finding a run again.** Take any base directory, any three names below it and any spelling of the path they form
(repeated slashes, dots, detours through `..`). `pathsFor` answers with the layout of the last two names under the base;
this is the layout that was written there, with all its artifacts, if the first name is "results", and it points into
another directory than the one that was given otherwise. -/
theorem pathsFor_finds_run (b : Path) {parent target id : Path} (hp : Name parent) (ht : Name target) (hid : Name id)
    {runDir : Path} (hrun : clean runDir = clean (join [b, parent, target, id])) :
    pathsFor runDir = layout b target id ∧
      ((pathsFor runDir).dir = (clean runDir).text ↔ parent = stringBytes "results") := by
  have hnames : ∀ n ∈ [parent, target, id], Name n :=
    List.forall_mem_cons.mpr ⟨hp, List.forall_mem_cons.mpr ⟨ht, List.forall_mem_singleton.mpr hid⟩⟩
  have hclean : clean runDir = (((clean b).child hp).child ht).child hid := by
    rw [hrun, join_names b hnames (List.cons_ne_nil _ _), clean_text]
    rfl
  have hfound : pathsFor runDir = layout b target id := by
    rw [pathsFor_below (clean b) hp ht hid hclean]
    exact layout_congr (clean_text (clean b)) ht hid
  refine ⟨hfound, ?_⟩
  rw [hfound, text_layout_dir b ht hid, hclean]
  constructor
  · intro htext
    have hstack := congrArg Cleaned.stack (Cleaned.text_injective htext)
    exact (List.cons.inj (List.cons.inj (List.cons.inj hstack).2).2).1.symm
  · rintro rfl
    rfl

/-- A directory below the current one, spelled with a trailing slash and a detour. -/
theorem pathsFor_finds_detour :
    pathsFor (stringBytes "./results/redis/../redis//run-1/") = layout (stringBytes ".") (stringBytes "redis")
      (stringBytes "run-1") :=
  (pathsFor_finds_run (stringBytes ".") name_results (by decide +kernel) (by decide +kernel)
    (by apply Cleaned.ext <;> decide +kernel)).1

end Proofload.Emit
