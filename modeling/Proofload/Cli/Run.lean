import Proofload.Cli.Load
import Proofload.Lib.Deferred
import Proofload.Lib.Lists
import Proofload.Nemesis.Run
import Proofload.Runner.Lifecycle

/-!
# The run command (`core/cli/run.go`, `verify.go`, `faults.go`, `results.go`, `distributed.go`)

`doRun` materializes the assets, provisions a cluster, prepares recording and faults, drives the load, writes the
artifacts, verifies and reports; what it acquired on the way is released by deferred calls. Every call may fail, and
the faults come at any points of the load. Signals, the output on the console, and what the run keeps for its user (the
artifacts, and what the provisioner writes) are left out.

* `doRun_stages` : the stages of a run, one after the other;
* `nothing_left_behind` : which temporary files and clusters are there after a run that were not there before;
* `faults_end_before_checks` : load and faults are over before anything is measured, checked or torn down.
-/

namespace Proofload.Cli.Run
open Lib

set_option autoImplicit false

/-! ## What a run reads, meets and does -/

/-- The part of `domain.Topology` that the run changes or hands on by name. -/
structure Topology where
  name : String
  bundle : String
deriving DecidableEq

structure Flags extends RunFlags where
  provision : String
  keep : Bool
  verify : String
  fault : String
  exportTo : String
deriving DecidableEq

structure Resolved where
  topology : Topology
  endpoints : List String
  nodes : List Node
  workload : Workload

/-- A `domain.VerifyModel`: one of the named ones, or another text. -/
abbrev Model := VerifyModel ⊕ String

structure Report where
  model : Model
  verdict : Verdict
  anomalies : List Anomaly
deriving DecidableEq

inductive Artifact where
  | dir
  | manifest
  | summary
  | timeseriesNDJSON
  | timeseriesParquet
  | hlog
deriving DecidableEq

inductive Event where
  | makeAssets (dir : String)
  | removeAssets (dir : String)
  | up (t : Topology)
  | down (t : Topology)
  | schema
  | serve
  | createTemp (path : String)
  | openWriter (path : String)
  | load (e : Runner.Lifecycle.Event)
  | control (e : Nemesis.Event)
  | artifact (a : Artifact)
  | closeWriter (path : String)
  | check
  | writeVerify (r : Report)
  | writeFaults (timeline : List Nemesis.Event)
  | push
  | report
  | removeTemp (path : String)

/-- The names that `os.CreateTemp` and `os.MkdirTemp` find for a pattern, given what exists. -/
structure TempNames where
  pick : String → (String → Bool) → Except String String
  fresh : ∀ {pattern files path}, pick pattern files = .ok path → files path = false ∧ path ≠ ""

/-- A fault schedule whose plan ends; with any other one the run waits for its scheduler forever. -/
structure Schedule where
  specs : List FaultSpec
  ends : ∀ sched : Nemesis.Scheduler, (sched.plan specs (Nemesis.window none specs)).isSome

/-- The outcomes of the calls of a run. -/
structure Env where
  temps : TempNames
  /-- whether a removal of the path succeeds -/
  remove : String → Bool
  copyAssets : Option String
  resolve : Except String Resolved
  provisioner : Option String
  bundled : Bool
  /-- whether anything of the topology runs after `Up`, and the result of `Up` -/
  up : Topology → Bool × Except String (List Node)
  /-- whether anything of the topology still runs after `Down` -/
  down : Topology → Bool
  schema : Option String
  serve : Option String
  merge : Option String
  closeTemp : Option String
  openWriter : Option String
  faultSchedule : Except String Schedule
  script : Option String
  buildWorkload : Option String
  /-- what the fault scheduler meets -/
  faults : Nemesis.Env
  /-- what `runner.Run` does, and its error -/
  load : List Runner.Lifecycle.Event × Option String
  /-- how the faults come between the events of the load -/
  choices : List Bool
  artifact : Artifact → Option String
  /-- the model of the driver's own verifier, if it has one -/
  native : Option Model
  nativeVerify : Except String Report
  closeWriter : Option String
  readRecording : Option String
  reconcile : Except String Report
  register : Report
  writeEDN : Option String
  elle : Report
  writeVerify : Option String
  exporter : Bool

/-- What the fault scheduler does when it is called. -/
def Env.timeline (env : Env) (c : Nemesis.RunCall) : List Nemesis.Event := (c.run env.faults).getD []

/-- `nemesisRun`, with the goroutine that `begin` starts: its call and what it has still to do. -/
structure NemesisState where
  run : Nemesis.NemesisRun
  stopped : Bool
  call : Option Nemesis.RunCall
  pending : List Nemesis.Event
  timeline : List Nemesis.Event

def noNemesis : NemesisState := ⟨⟨none, [], false⟩, false, none, [], []⟩

structure World where
  /-- the entries of the temporary directory -/
  files : String → Bool
  running : Topology → Bool
  nemesis : NemesisState
  events : List Event

namespace World

def emit (s : World) (e : Event) : World := { s with events := s.events ++ [e] }

def setFile (s : World) (path : String) (there : Bool) : World :=
  { s with files := Function.update s.files path there }

def remove (env : Env) (s : World) (path : String) : World := s.setFile path (s.files path && !env.remove path)

def setRunning (s : World) (t : Topology) (up : Bool) : World :=
  { s with running := Function.update s.running t up }

end World

/-- A call that leaves a trace. -/
def call (e : Event) (err : Option String) : Act World Unit := do
  .update (·.emit e)
  .check err

/-! ## Assets and the cluster -/

def materialize (env : Env) : Act World String := do
  let files ← .gets World.files
  let dir ← .result (env.temps.pick "proofload-assets-" files)
  .update fun s => (s.setFile dir true).emit (.makeAssets dir)
  match env.copyAssets with
  | none => return dir
  | some e =>
      .update fun s => (s.remove env dir).emit (.removeAssets dir)
      .fail e

/-- The topology that is brought up: a bundle of the target is preferred. -/
def bundled (env : Env) (target : String) (f : Flags) (t : Topology) : Topology :=
  if f.provision = "compose" ∧ env.bundled then { t with bundle := s!"targets/{target}/infrastructure" } else t

/-- The clients of the nodes, without coordination-only nodes. -/
def clients (nodes : List Node) : List String := (nodes.map (·.client)).filter (· ≠ "")

/-- The cluster that the teardown function takes down. -/
def Flags.teardown (f : Flags) (t : Topology) : Option Topology := if f.keep then none else some t

/-- The `--provision` branch of `ensureEndpoints`: the configuration with the cluster, and what to tear down. -/
def provisioned (env : Env) (target : String) (f : Flags) (r : Resolved) : Act World (Resolved × Option Topology) := do
  .check env.provisioner
  let topo := bundled env target f r.topology
  .update fun s => (s.setRunning topo (env.up topo).1).emit (.up topo)
  let nodes ← (Act.result (env.up topo).2).wrap s!"provision {f.provision}: "
  return ({ r with topology := topo, nodes := nodes, endpoints := clients nodes }, f.teardown topo)

def ensureEndpoints (env : Env) (target : String) (f : Flags) (r : Resolved) :
    Act World (Resolved × Option Topology) := do
  let r ← (if f.provision = "" then pure (r, none) else provisioned env target f r : Act World _)
  if r.1.endpoints = [] then .fail "no endpoints: pass --endpoints host:port or --provision compose" else pure r

/-! ## Verification -/

def modelOf (name : String) : Model :=
  if name = "" then .inl .none
  else if name = "reconciliation" then .inl .reconciliation
  else if name = "register" then .inl .register
  else if name = "list-append" then .inl .listAppend
  else if name = "kafka-log" then .inl .kafkaLog
  else .inr name

def modelName : Model → String
  | .inl .none => ""
  | .inl .reconciliation => "reconciliation"
  | .inl .register => "register"
  | .inl .listAppend => "list-append"
  | .inl .kafkaLog => "kafka-log"
  | .inr name => name

def resolveVerifyModel (f : Flags) (w : Workload) : Model :=
  if f.verify ≠ "" then modelOf f.verify else .inl w.verifyModel

structure Verification where
  model : Model
  /-- the recording, empty without one -/
  path : String
deriving DecidableEq

def tempFile (env : Env) (pattern : String) : Act World String := do
  let files ← .gets World.files
  let path ← .result (env.temps.pick pattern files)
  .update fun s => (s.setFile path true).emit (.createTemp path)
  .check env.closeTemp
  return path

/-- A recording and its writer. -/
def recording (env : Env) (model : Model) (pattern : String) : Act World Verification := do
  let path ← tempFile env pattern
  .check env.openWriter
  .update (·.emit (.openWriter path))
  return ⟨model, path⟩

def newVerification (env : Env) (model : Model) : Act World Verification :=
  match model with
  | .inl .reconciliation => recording env model "proofload-expect-*.ndjson"
  | .inl .register => recording env model "proofload-history-*.ndjson"
  | .inl .listAppend => recording env model "proofload-history-*.ndjson"
  | _ => return ⟨model, ""⟩

namespace Verification

/-- The writer is flushed and the recording read. -/
def readRecording (env : Env) (v : Verification) : Act World Unit := do
  call (.closeWriter v.path) env.closeWriter
  .check env.readRecording

def reconcile (env : Env) (v : Verification) : Act World Report := do
  v.readRecording env
  .update (·.emit .check)
  .result env.reconcile

def checkRegister (env : Env) (v : Verification) : Act World Report := do
  v.readRecording env
  .update (·.emit .check)
  return env.register

def checkListAppend (env : Env) (v : Verification) : Act World Report := do
  v.readRecording env
  .update (·.setFile (v.path ++ ".edn") true)
  .check env.writeEDN
  .update (·.emit .check)
  return env.elle

/-- The report on a model without a checker. -/
def unsupported (target : String) (v : Verification) : Report :=
  { model := v.model, verdict := .unknown
    anomalies :=
      [⟨"unsupported", "no checker available for model " ++ modelName v.model ++ " on target " ++ target, []⟩] }

def run (env : Env) (target : String) (v : Verification) : Act World (Option Report) :=
  if v.model = .inl .none then return none
  else if env.native = some v.model then do
    .update (·.emit .check)
    return some (← .result env.nativeVerify)
  else match v.model with
    | .inl .reconciliation => return some (← v.reconcile env)
    | .inl .register => return some (← v.checkRegister env)
    | .inl .listAppend => return some (← v.checkListAppend env)
    | _ => return some (v.unsupported target)

def cleanup (env : Env) (v : Verification) (s : World) : World :=
  if v.path = "" then s
  else ((s.remove env v.path).remove env (v.path ++ ".edn")).emit (.removeTemp v.path)

end Verification

/-! ## Faults -/

def newNemesis (env : Env) (target : String) (f : Flags) (r : Resolved) : Act World Unit :=
  if f.fault = "" then .update fun s => { s with nemesis := noNemesis }
  else do
    let schedule ← (Act.result env.faultSchedule).wrap "load fault schedule: "
    if r.nodes = [] then .fail "--fault needs cluster nodes with control endpoints; run with --provision"
    else do
      (Act.check env.script).wrap s!"fault script targets/{target}/faults/fault.sh: "
      .update fun s => { s with nemesis := { noNemesis with run := ⟨some ⟨r.nodes, f.seed⟩, schedule.specs, false⟩ } }

namespace World

def begin (env : Env) (s : World) : World :=
  match s.nemesis.run.begin with
  | (_, none) => s
  | (n, some c) => { s with nemesis := { s.nemesis with run := n, call := some c, pending := env.timeline c } }

/-- The scheduler is cancelled and its goroutine ends. -/
def stop (env : Env) (s : World) : World :=
  if s.nemesis.run.started = false ∨ s.nemesis.stopped then s
  else
    { s with
      nemesis := { s.nemesis with
        stopped := true, pending := [], timeline := (s.nemesis.call.map env.timeline).getD [] }
      events := s.events ++ s.nemesis.pending.map .control }

def persist (s : World) : World :=
  if s.nemesis.run.started = false ∨ s.nemesis.timeline = [] then s else s.emit (.writeFaults s.nemesis.timeline)

/-- The load, and what the fault scheduler does meanwhile. -/
def drive (env : Env) (s : World) : World :=
  let woven := weave env.choices env.load.1 s.nemesis.pending
  { s with
    nemesis := { s.nemesis with pending := woven.2 }
    events := s.events ++ woven.1.map (Sum.elim .load .control) }

end World

def drive (env : Env) : Act World Unit := do
  (Act.check env.buildWorkload).wrap "build workload: "
  .update (·.begin env)
  .update (·.drive env)
  (Act.check env.load.2).wrap "run: "

/-! ## Artifacts and the run -/

/-- What stands in front of the error of a write. -/
def Artifact.failure : Artifact → String
  | .dir => "create results dir: "
  | .manifest => "write manifest: "
  | .summary => "write summary: "
  | .timeseriesNDJSON => "write timeseries ndjson: "
  | .timeseriesParquet => "write timeseries parquet: "
  | .hlog => "write hlog: "

def artifacts : List Artifact := [.dir, .manifest, .summary, .timeseriesNDJSON, .timeseriesParquet, .hlog]

/-- The writes of `writeArtifacts` from one on. -/
def writeEach (env : Env) : List Artifact → Act World Unit
  | [] => return ()
  | a :: rest => do
      (call (.artifact a) (env.artifact a)).wrap a.failure
      writeEach env rest

def writeArtifacts (env : Env) : Act World Unit := writeEach env artifacts

def exportMetrics (env : Env) (f : Flags) : Act World Unit :=
  if f.exportTo = "" ∨ env.exporter = false then return () else .update (·.emit .push)

def finalize : Act World Unit := .update (·.emit .report)

def coordinate (env : Env) : Act World Unit := do
  (call .schema env.schema).wrap "apply schema: "
  (call .serve env.serve).wrap "coordinator: "
  .check env.merge
  writeArtifacts env
  finalize

/-- `WriteVerify`, if there is a report. -/
def writeVerify (env : Env) : Option Report → Act World Unit
  | none => return ()
  | some r => (call (.writeVerify r) env.writeVerify).wrap "write verify: "

inductive Deferred where
  | removeAssets (dir : String)
  | teardown (t : Option Topology)
  | cleanup (v : Verification)
  | stopNemesis

def Deferred.exec (env : Env) : Deferred → World → World
  | .removeAssets dir, s => (s.remove env dir).emit (.removeAssets dir)
  | .teardown none, s => s
  | .teardown (some t), s => (s.setRunning t (env.down t)).emit (.down t)
  | .cleanup v, s => v.cleanup env s
  | .stopNemesis, s => s.stop env

open Body (act defer)

/-- `doRun` once the load is over and the faults are healed. -/
def finish (env : Env) (target : String) (f : Flags) (ver : Verification) : Body Deferred World Unit := do
  act (writeArtifacts env)
  let vr ← act ((ver.run env target).wrap "verify: ")
  act (writeVerify env vr)
  act (.update (·.persist))
  act (exportMetrics env f)
  act finalize

/-- `doRun` once the recording is there. -/
def measure (env : Env) (target : String) (f : Flags) (resolved : Resolved) (ver : Verification) :
    Body Deferred World Unit := do
  act (newNemesis env target f resolved)
  defer .stopNemesis
  act (drive env)
  act (.update (·.stop env))
  finish env target f ver

/-- `doRun` without other workers. -/
def single (env : Env) (target : String) (f : Flags) (resolved : Resolved) : Body Deferred World Unit := do
  act ((call .schema env.schema).wrap "apply schema: ")
  let ver ← act (newVerification env (resolveVerifyModel f resolved.workload))
  defer (.cleanup ver)
  measure env target f resolved ver

/-- `doRun` once the cluster is there. -/
def launch (env : Env) (target : String) (f : Flags) (resolved : Resolved) : Body Deferred World Unit := do
  let _ ← act (.result (resolveTestType f.toRunFlags))
  if 0 < f.workers then act (coordinate env) else single env target f resolved

def doRun (env : Env) (target : String) (f : Flags) : Body Deferred World Unit := do
  let dir ← act ((materialize env).wrap "load assets: ")
  defer (.removeAssets dir)
  let resolved ← act ((Act.result env.resolve).wrap "resolve config: ")
  let (resolved, teardown) ← act (ensureEndpoints env target f resolved)
  defer (.teardown teardown)
  launch env target f resolved

/-- A run of the command: its outcome and the state it leaves. -/
def execute (env : Env) (target : String) (f : Flags) (s : World) : Except String Unit × World :=
  (doRun env target f).scope (Deferred.exec env) s

/-! ## What the events say -/

/-- The stages of a run, in order; the last three are the deferred calls. -/
def Event.phase : Event → Nat
  | .makeAssets _ => 0
  | .up _ => 1
  | .schema => 2
  | .serve | .createTemp _ | .openWriter _ => 3
  | .load _ | .control _ => 4
  | .artifact _ => 5
  | .closeWriter _ => 6
  | .check => 7
  | .writeVerify _ => 8
  | .writeFaults _ => 9
  | .push => 10
  | .report => 11
  | .removeTemp _ => 12
  | .down _ => 13
  | .removeAssets _ => 14

def Event.load? : Event → Option Runner.Lifecycle.Event
  | .load e => some e
  | _ => none

def Event.control? : Event → Option Nemesis.Event
  | .control e => some e
  | _ => none

def loads (events : List Event) : List Runner.Lifecycle.Event := events.filterMap Event.load?

def controls (events : List Event) : List Nemesis.Event := events.filterMap Event.control?

/-- The calls of `Up` and `Down`, and the recordings that were created and opened. -/
structure Trail where
  ups : List Topology
  downs : List Topology
  created : List String
  opened : List String
deriving DecidableEq

def Trail.add (h : Trail) : Event → Trail
  | .up t => { h with ups := h.ups ++ [t] }
  | .down t => { h with downs := h.downs ++ [t] }
  | .createTemp p => { h with created := h.created ++ [p] }
  | .openWriter p => { h with opened := h.opened ++ [p] }
  | _ => h

def trail (events : List Event) : Trail := events.foldl Trail.add ⟨[], [], [], []⟩

/-- An event of neither the load nor the faults. -/
def Event.Plain (e : Event) : Prop := e.load? = none ∧ e.control? = none

theorem trail_append_singleton (events : List Event) (e : Event) : trail (events ++ [e]) = (trail events).add e := by
  unfold trail
  rw [List.foldl_append]
  rfl

theorem trail_append_work (events : List Event) (work : List (Runner.Lifecycle.Event ⊕ Nemesis.Event)) :
    trail (events ++ work.map (Sum.elim .load .control)) = trail events := by
  unfold trail
  rw [List.foldl_append]
  generalize List.foldl Trail.add _ events = h
  induction work with
  | nil => rfl
  | cons x work ih => cases x <;> exact ih

theorem loads_work (work : List (Runner.Lifecycle.Event ⊕ Nemesis.Event)) :
    loads (work.map (Sum.elim .load .control)) = work.filterMap Sum.getLeft? := by
  unfold loads
  rw [List.filterMap_map]
  congr 1
  funext x
  cases x <;> rfl

theorem controls_work (work : List (Runner.Lifecycle.Event ⊕ Nemesis.Event)) :
    controls (work.map (Sum.elim .load .control)) = work.filterMap Sum.getRight? := by
  unfold controls
  rw [List.filterMap_map]
  congr 1
  funext x
  cases x <;> rfl

/-! ## The stages -/

/-- A run in stage `n`: its events are in order and have not got beyond it; `A` and `G` say what is known of the files
and of the fault runner, `K` and `L` are the faults that have been or will be injected and the load so far. -/
structure At (n : Nat) (A : (String → Bool) → Prop) (G : NemesisState → Prop) (R : Topology → Bool) (h : Trail)
    (K : List Nemesis.Event) (L : List Runner.Lifecycle.Event) (s : World) : Prop where
  sorted : s.events.Pairwise fun a b => a.phase ≤ b.phase
  bound : ∀ e ∈ s.events, e.phase ≤ n
  files : A s.files
  nemesis : G s.nemesis
  running : s.running = R
  trail_eq : trail s.events = h
  faults : controls s.events ++ s.nemesis.pending = K
  loads_eq : loads s.events = L

section Stages
variable {n m : Nat} {A A' : (String → Bool) → Prop} {G G' : NemesisState → Prop} {R : Topology → Bool} {h : Trail}
  {K : List Nemesis.Event} {L : List Runner.Lifecycle.Event} {s : World}

theorem At.mono (hs : At n A G R h K L s) (hn : n ≤ m) : At m A G R h K L s :=
  { hs with bound := fun e he => (hs.bound e he).trans hn }

theorem order_append {events later : List Event} (hsorted : events.Pairwise fun a b => a.phase ≤ b.phase)
    (hbound : ∀ e ∈ events, e.phase ≤ n) (hm : n ≤ m) (hphase : ∀ e ∈ later, e.phase = m) :
    ((events ++ later).Pairwise fun a b => a.phase ≤ b.phase) ∧ ∀ e ∈ events ++ later, e.phase ≤ m := by
  refine ⟨List.pairwise_append.mpr ⟨hsorted, ?_, fun a ha b hb => ?_⟩, fun e he => ?_⟩
  · apply List.pairwise_of_forall_mem_list
    intro a ha b hb
    exact ((hphase a ha).trans (hphase b hb).symm).le
  · exact ((hbound a ha).trans hm).trans (hphase b hb).ge
  · rcases List.mem_append.mp he with he | he
    · exact (hbound e he).trans hm
    · exact (hphase e he).le

theorem plain_append {e : Event} (he : e.Plain) (events : List Event) :
    loads (events ++ [e]) = loads events ∧ controls (events ++ [e]) = controls events := by
  unfold loads controls
  rw [List.filterMap_append, List.filterMap_append, List.filterMap_cons_none he.1, List.filterMap_cons_none he.2]
  simp

theorem At.emit (hs : At n A G R h K L s) {e : Event} (hn : n ≤ e.phase) (he : e.Plain) :
    At e.phase A G R (h.add e) K L (s.emit e) := by
  have hphase : ∀ a ∈ [e], a.phase = e.phase := fun a ha => congrArg Event.phase (List.mem_singleton.mp ha)
  obtain ⟨hsorted, hbound⟩ := order_append hs.sorted hs.bound hn hphase
  obtain ⟨hloads, hcontrols⟩ := plain_append he s.events
  refine ⟨hsorted, hbound, hs.files, hs.nemesis, hs.running, ?_, ?_, hloads.trans hs.loads_eq⟩
  · exact (trail_append_singleton s.events e).trans (congrArg (·.add e) hs.trail_eq)
  · exact (congrArg (· ++ s.nemesis.pending) hcontrols).trans hs.faults

theorem At.setFiles (hs : At n A G R h K L s) {path : String} {there : Bool}
    (hA : A' (Function.update s.files path there)) : At n A' G R h K L (s.setFile path there) :=
  { hs with files := hA }

/-! ## Calls that only leave a trace -/

theorem call_meets {e : Event} (hn : n ≤ e.phase) (he : e.Plain) (err : Option String) :
    (call e err).Meets (At n A G R h K L) (fun _ => At e.phase A G R (h.add e) K L)
      (At e.phase A G R (h.add e) K L) := by
  apply Act.Meets.bind (Q := fun _ => At e.phase A G R (h.add e) K L)
  · exact .update fun s hs => hs.emit hn he
  · intro _
    exact .check (fun s hs => hs) fun s hs => hs

theorem emit_meets {e : Event} {E : World → Prop} (hn : n ≤ e.phase) (he : e.Plain) :
    (Act.update (·.emit e)).Meets (At n A G R h K L) (fun _ => At e.phase A G R (h.add e) K L) E :=
  .update fun _ hs => hs.emit hn he

theorem writeEach_meets (env : Env) (as : List Artifact) :
    (writeEach env as).Meets (At 5 A G R h K L) (fun _ => At 5 A G R h K L) (At 5 A G R h K L) := by
  induction as with
  | nil => exact .pure fun s hs => hs
  | cons a as ih =>
      apply Act.Meets.bind (Q := fun _ => At 5 A G R h K L)
      · exact (call_meets (e := .artifact a) le_rfl ⟨rfl, rfl⟩ _).wrap
      · exact fun _ => ih

theorem writeArtifacts_meets (env : Env) (hn : n ≤ 5) :
    (writeArtifacts env).Meets (At n A G R h K L) (fun _ => At 5 A G R h K L) (At 5 A G R h K L) :=
  (writeEach_meets env artifacts).mono (fun _ hs => hs.mono hn) (fun _ _ hs => hs) fun _ hs => hs

theorem finalize_meets {E : World → Prop} (hn : n ≤ 11) :
    finalize.Meets (At n A G R h K L) (fun _ => At 11 A G R h K L) E :=
  emit_meets (e := .report) hn ⟨rfl, rfl⟩

theorem coordinate_meets (env : Env) :
    (coordinate env).Meets (At 1 A G R h K L) (fun _ => At 11 A G R h K L) (At 11 A G R h K L) := by
  apply Act.Meets.bind (Q := fun _ => At 2 A G R h K L)
  · exact (call_meets (e := .schema) (by decide) ⟨rfl, rfl⟩ _).wrap.mono (fun _ hs => hs) (fun _ _ hs => hs)
      fun _ hs => hs.mono (by decide)
  intro _
  apply Act.Meets.bind (Q := fun _ => At 3 A G R h K L)
  · exact (call_meets (e := .serve) (by decide) ⟨rfl, rfl⟩ _).wrap.mono (fun _ hs => hs) (fun _ _ hs => hs)
      fun _ hs => hs.mono (by decide)
  intro _
  apply Act.Meets.bind (Q := fun _ => At 3 A G R h K L)
  · exact .check (fun _ hs => hs) fun _ hs => hs.mono (by decide)
  intro _
  apply Act.Meets.bind (Q := fun _ => At 5 A G R h K L)
  · exact (writeArtifacts_meets env (by decide)).mono (fun _ hs => hs) (fun _ _ hs => hs)
      fun _ hs => hs.mono (by decide)
  · exact fun _ => finalize_meets (by decide)

theorem writeVerify_meets (env : Env) (vr : Option Report) :
    (writeVerify env vr).Meets (At 7 A G R h K L) (fun _ => At 8 A G R h K L) (At 8 A G R h K L) := by
  cases vr with
  | none => exact .pure fun _ hs => hs.mono (by decide)
  | some r => exact (call_meets (e := .writeVerify r) (Nat.le_succ 7) ⟨rfl, rfl⟩ _).wrap

theorem persist_at (hs : At 8 A G R h K L s) : At 9 A G R h K L s.persist := by
  unfold World.persist
  split_ifs
  · exact hs.mono (by decide)
  · exact hs.emit (e := .writeFaults _) (Nat.le_succ 8) ⟨rfl, rfl⟩

theorem exportMetrics_meets {E : World → Prop} (env : Env) (f : Flags) :
    (exportMetrics env f).Meets (At 9 A G R h K L) (fun _ => At 10 A G R h K L) E := by
  unfold exportMetrics
  split_ifs
  · exact .pure fun _ hs => hs.mono (by decide)
  · exact emit_meets (e := .push) (by decide) ⟨rfl, rfl⟩

/-! ## Assets, cluster and recording -/

/-- The entries `g` are those of `F`, as far as they can be removed. -/
def Same (env : Env) (F g : String → Bool) : Prop := ∀ q, env.remove q = true → g q = F q

/-- A name that was free, if the entry can be removed. -/
def Free (env : Env) (F : String → Bool) (path : String) : Prop := env.remove path = true → F path = false

theorem Same.free {env : Env} {F g : String → Bool} (hg : Same env F g) {path : String} (h : g path = false) :
    Free env F path := fun hremove => (hg path hremove).symm.trans h

theorem Same.create {env : Env} {F g : String → Bool} (hg : Same env F g) (path : String) :
    Same env (Function.update F path true) (Function.update g path true) := by
  intro q hq
  rw [Function.update_apply, Function.update_apply, hg q hq]

theorem update_remove {env : Env} (g : String → Bool) (path : String) {q : String} (hremove : env.remove q = true) :
    Function.update g path (g path && !env.remove path) q = if q = path then false else g q := by
  rw [Function.update_apply]
  split_ifs with hpath
  · rw [← hpath, hremove, Bool.not_true, Bool.and_false]
  · rfl

theorem Same.remove {env : Env} {F g : String → Bool} {path : String}
    (hg : Same env (Function.update F path true) g) (hfree : Free env F path) :
    Same env F (Function.update g path (g path && !env.remove path)) := by
  intro q hq
  rw [update_remove g path hq]
  split_ifs with hpath
  · rw [hpath, hfree (hpath ▸ hq)]
  · rw [hg q hq, Function.update_of_ne hpath]

theorem materialize_meets (env : Env) {F : String → Bool} :
    (materialize env).Meets (At 0 (Same env F) G R h K L)
      (fun dir s => Free env F dir ∧ At 0 (Same env (Function.update F dir true)) G R h K L s)
      (At 14 (Same env F) G R h K L) := by
  apply Act.Meets.bind (Q := fun files s => files = s.files ∧ At 0 (Same env F) G R h K L s)
  · exact .gets fun s hs => ⟨rfl, hs⟩
  rintro files
  apply Act.Meets.bind (Q := fun dir s => Free env F dir ∧ At 0 (Same env F) G R h K L s)
  · refine .result (fun dir hdir s hs => ?_) fun e he s hs => hs.2.mono (by decide)
    obtain ⟨rfl, hs⟩ := hs
    exact ⟨hs.files.free (env.temps.fresh hdir).1, hs⟩
  intro dir
  apply Act.Meets.bind (Q := fun _ s => Free env F dir ∧ At 0 (Same env (Function.update F dir true)) G R h K L s)
  · refine .update fun s hs => ⟨hs.1, ?_⟩
    exact At.emit (e := .makeAssets dir) (hs.2.setFiles (hs.2.files.create dir)) le_rfl ⟨rfl, rfl⟩
  intro _
  cases env.copyAssets with
  | none => exact .pure fun s hs => hs
  | some e =>
      apply Act.Meets.bind (Q := fun _ => At 14 (Same env F) G R h K L)
      · refine .update fun s hs => ?_
        exact At.emit (e := .removeAssets dir) (hs.2.setFiles (hs.2.files.remove hs.1)) (Nat.zero_le _) ⟨rfl, rfl⟩
      · exact fun _ => .fail fun s hs => hs

/-- A cluster that `Up` has brought up with a node to put load on. -/
def Usable (env : Env) (t : Topology) : Prop := ∃ nodes, (env.up t).2 = .ok nodes ∧ ∃ n ∈ nodes, n.client ≠ ""

theorem clients_eq_nil_iff (nodes : List Node) : clients nodes = [] ↔ ¬∃ n ∈ nodes, n.client ≠ "" := by
  unfold clients
  rw [List.filter_eq_nil_iff]
  simp

def fresh : Trail := ⟨[], [], [], []⟩

/-- `Up` has been called for topology `t`. -/
def Brought (env : Env) (A : (String → Bool) → Prop) (G : NemesisState → Prop) (R : Topology → Bool)
    (K : List Nemesis.Event) (L : List Runner.Lifecycle.Event) (t : Topology) : World → Prop :=
  At 1 A G (Function.update R t (env.up t).1) (fresh.add (.up t)) K L

theorem provisioned_meets (env : Env) (target : String) (f : Flags) (r : Resolved) :
    (provisioned env target f r).Meets (At 0 A G R fresh K L)
      (fun x s => ∃ t nodes, (env.up t).2 = .ok nodes ∧ x.1.endpoints = clients nodes ∧
        x.2 = f.teardown t ∧ Brought env A G R K L t s)
      (fun s => At 0 A G R fresh K L s ∨ ∃ t, ¬Usable env t ∧ Brought env A G R K L t s) := by
  apply Act.Meets.bind (Q := fun _ => At 0 A G R fresh K L)
  · exact .check (fun _ hs => hs) fun _ hs => .inl hs
  intro _
  apply Act.Meets.bind (Q := fun _ => Brought env A G R K L (bundled env target f r.topology))
  · refine .update fun s hs => ?_
    apply At.emit (e := .up _) ?_ (Nat.zero_le 1) ⟨rfl, rfl⟩
    exact { hs with running := by rw [← hs.running]; rfl }
  intro _
  apply Act.Meets.bind (Q := fun nodes s => (env.up (bundled env target f r.topology)).2 = .ok nodes ∧
    Brought env A G R K L (bundled env target f r.topology) s)
  · refine Act.Meets.wrap (.result (fun nodes hnodes s hs => ⟨hnodes, hs⟩) fun e he s hs => .inr ⟨_, ?_, hs⟩)
    rintro ⟨nodes, hnodes, -⟩
    rw [he] at hnodes
    cases hnodes
  · exact fun nodes => .pure fun s hs => ⟨_, nodes, hs.1, rfl, rfl, hs.2⟩

theorem ensureEndpoints_meets (env : Env) (target : String) (f : Flags) (r : Resolved) :
    (ensureEndpoints env target f r).Meets (At 0 A G R fresh K L)
      (fun x s => (x.2 = none ∧ At 1 A G R fresh K L s) ∨
        ∃ t, x.2 = f.teardown t ∧ Usable env t ∧ Brought env A G R K L t s)
      (fun s => At 1 A G R fresh K L s ∨ ∃ t, ¬Usable env t ∧ Brought env A G R K L t s) := by
  apply Act.Meets.bind (Q := fun (x : Resolved × Option Topology) s => (x.2 = none ∧ At 1 A G R fresh K L s) ∨
    ∃ t nodes, (env.up t).2 = .ok nodes ∧ x.1.endpoints = clients nodes ∧
      x.2 = f.teardown t ∧ Brought env A G R K L t s)
  · split_ifs
    · exact .pure fun s hs => .inl ⟨rfl, hs.mono (by decide)⟩
    · exact (provisioned_meets env target f r).mono (fun _ hs => hs) (fun _ _ hs => .inr hs)
        fun _ hs => hs.imp_left fun hs => hs.mono (by decide)
  intro x
  split_ifs with hnone
  · refine .fail fun s hs => ?_
    rcases hs with ⟨-, hs⟩ | ⟨t, nodes, hup, hclients, -, hs⟩
    · exact .inl hs
    · refine .inr ⟨t, ?_, hs⟩
      rintro ⟨nodes', hnodes', hclient⟩
      obtain rfl : nodes = nodes' := Except.ok.inj (hup.symm.trans hnodes')
      exact (clients_eq_nil_iff nodes).mp (hclients.symm.trans hnone) hclient
  · refine .pure fun s hs => hs.imp_right ?_
    rintro ⟨t, nodes, hup, hclients, hteardown, hs⟩
    refine ⟨t, hteardown, ⟨nodes, hup, ?_⟩, hs⟩
    by_contra hclient
    exact hnone (hclients.trans ((clients_eq_nil_iff nodes).mpr hclient))

/-- The files in a run that records into `path`. -/
def Recording (F : String → Bool) (path : String) : String → Bool :=
  if path = "" then F else Function.update F path true

/-- The trail of a run that records into `path`. -/
def Trail.record (h : Trail) (path : String) : Trail :=
  if path = "" then h else (h.add (.createTemp path)).add (.openWriter path)

/-- A verification as `newVerification` makes them. -/
structure Prepared (env : Env) (F : String → Bool) (v : Verification) : Prop where
  path : v.path ≠ "" → Free env F v.path
  recorded : v.path = "" → v.model ≠ .inl .listAppend

theorem recording_meets (env : Env) (model : Model) (pattern : String) {F : String → Bool} :
    (recording env model pattern).Meets (At 2 (Same env F) G R h K L)
      (fun v s => Prepared env F v ∧ At 3 (Same env (Recording F v.path)) G R (h.record v.path) K L s)
      (fun s => At 3 (Same env F) G R h K L s ∨
        ∃ p, Free env F p ∧ At 3 (Same env (Function.update F p true)) G R (h.add (.createTemp p)) K L s) := by
  apply Act.Meets.bind (Q := fun path s => path ≠ "" ∧ Free env F path ∧
    At 3 (Same env (Function.update F path true)) G R (h.add (.createTemp path)) K L s)
  · apply Act.Meets.bind (Q := fun files s => files = s.files ∧ At 2 (Same env F) G R h K L s)
    · exact .gets fun s hs => ⟨rfl, hs⟩
    intro files
    apply Act.Meets.bind (Q := fun path s => path ≠ "" ∧ Free env F path ∧ At 2 (Same env F) G R h K L s)
    · refine .result (fun path hpath s hs => ?_) fun e he s hs => .inl (hs.2.mono (by decide))
      obtain ⟨rfl, hs⟩ := hs
      exact ⟨(env.temps.fresh hpath).2, hs.files.free (env.temps.fresh hpath).1, hs⟩
    intro path
    apply Act.Meets.bind (Q := fun _ s => path ≠ "" ∧ Free env F path ∧
      At 3 (Same env (Function.update F path true)) G R (h.add (.createTemp path)) K L s)
    · refine .update fun s hs => ⟨hs.1, hs.2.1, ?_⟩
      exact At.emit (e := .createTemp path) (hs.2.2.setFiles (hs.2.2.files.create path)) (Nat.le_succ 2) ⟨rfl, rfl⟩
    intro _
    apply Act.Meets.bind (Q := fun _ s => path ≠ "" ∧ Free env F path ∧
      At 3 (Same env (Function.update F path true)) G R (h.add (.createTemp path)) K L s)
    · exact .check (fun _ hs => hs) fun s hs => .inr ⟨path, hs.2⟩
    · exact fun _ => .pure fun s hs => hs
  intro path
  apply Act.Meets.bind (Q := fun _ s => path ≠ "" ∧ Free env F path ∧
    At 3 (Same env (Function.update F path true)) G R (h.add (.createTemp path)) K L s)
  · exact .check (fun _ hs => hs) fun s hs => .inr ⟨path, hs.2⟩
  intro _
  apply Act.Meets.bind (Q := fun _ s => Prepared env F ⟨model, path⟩ ∧
    At 3 (Same env (Recording F path)) G R (h.record path) K L s)
  · refine .update fun s hs => ⟨⟨fun _ => hs.2.1, fun hpath => absurd hpath hs.1⟩, ?_⟩
    unfold Recording Trail.record
    rw [if_neg hs.1, if_neg hs.1]
    exact hs.2.2.emit (e := .openWriter path) le_rfl ⟨rfl, rfl⟩
  · exact fun _ => .pure fun s hs => hs

theorem newVerification_meets (env : Env) (model : Model) {F : String → Bool} :
    (newVerification env model).Meets (At 2 (Same env F) G R h K L)
      (fun v s => Prepared env F v ∧ At 3 (Same env (Recording F v.path)) G R (h.record v.path) K L s)
      (fun s => At 3 (Same env F) G R h K L s ∨
        ∃ p, Free env F p ∧ At 3 (Same env (Function.update F p true)) G R (h.add (.createTemp p)) K L s) := by
  unfold newVerification
  split
  · exact recording_meets env _ _
  · exact recording_meets env _ _
  · exact recording_meets env _ _
  · rename_i hlist
    exact .pure fun s hs => ⟨⟨fun hne => absurd rfl hne, fun _ => hlist⟩, hs.mono (by decide)⟩

/-! ## Verification -/

/-- As `Same`, but for what is written for Elle. -/
def Upto (env : Env) (path : String) (F g : String → Bool) : Prop :=
  ∀ q, env.remove q = true → (path ≠ "" → q ≠ path ++ ".edn") → g q = F q

namespace Verification
variable (env : Env) (v : Verification) {F : String → Bool}

theorem readRecording_meets :
    (v.readRecording env).Meets (At 5 A G R h K L) (fun _ => At 6 A G R h K L) (At 7 A G R h K L) := by
  apply Act.Meets.bind (Q := fun _ => At 6 A G R h K L)
  · exact (call_meets (e := .closeWriter v.path) (Nat.le_succ 5) ⟨rfl, rfl⟩ _).mono (fun _ hs => hs)
      (fun _ _ hs => hs) fun _ hs => hs.mono (Nat.le_succ 6)
  · exact fun _ => .check (fun _ hs => hs) fun _ hs => hs.mono (by decide)

theorem reconcile_meets :
    (v.reconcile env).Meets (At 5 A G R h K L) (fun _ => At 7 A G R h K L) (At 7 A G R h K L) := by
  apply Act.Meets.bind (v.readRecording_meets env)
  intro _
  apply Act.Meets.bind (emit_meets (e := .check) (by decide) ⟨rfl, rfl⟩)
  exact fun _ => .result (fun _ _ _ hs => hs) fun _ _ _ hs => hs

theorem checkRegister_meets :
    (v.checkRegister env).Meets (At 5 A G R h K L) (fun _ => At 7 A G R h K L) (At 7 A G R h K L) := by
  apply Act.Meets.bind (v.readRecording_meets env)
  intro _
  apply Act.Meets.bind (emit_meets (e := .check) (by decide) ⟨rfl, rfl⟩)
  exact fun _ => .pure fun _ hs => hs

theorem checkListAppend_meets (hpath : v.path ≠ "") :
    (v.checkListAppend env).Meets (At 5 (Upto env v.path F) G R h K L) (fun _ => At 7 (Upto env v.path F) G R h K L)
      (At 7 (Upto env v.path F) G R h K L) := by
  apply Act.Meets.bind (v.readRecording_meets env)
  intro _
  apply Act.Meets.bind (Q := fun _ => At 6 (Upto env v.path F) G R h K L)
  · refine .update fun s hs => hs.setFiles fun q hremove hq => ?_
    rw [Function.update_of_ne (hq hpath)]
    exact hs.files q hremove hq
  intro _
  apply Act.Meets.bind (Q := fun _ => At 6 (Upto env v.path F) G R h K L)
  · exact .check (fun _ hs => hs) fun _ hs => hs.mono (by decide)
  intro _
  apply Act.Meets.bind (emit_meets (e := .check) (by decide) ⟨rfl, rfl⟩)
  exact fun _ => .pure fun _ hs => hs

theorem run_meets (hv : v.path = "" → v.model ≠ .inl .listAppend) (target : String) :
    (v.run env target).Meets (At 5 (Upto env v.path F) G R h K L) (fun _ => At 7 (Upto env v.path F) G R h K L)
      (At 7 (Upto env v.path F) G R h K L) := by
  unfold Verification.run
  split_ifs
  · exact .pure fun _ hs => hs.mono (by decide)
  · apply Act.Meets.bind (emit_meets (e := .check) (by decide) ⟨rfl, rfl⟩)
    intro _
    apply Act.Meets.bind (Act.Meets.result (fun _ _ _ hs => hs) fun _ _ _ hs => hs)
    exact fun _ => .pure fun _ hs => hs
  · split
    · exact .bind (v.reconcile_meets env) fun _ => .pure fun _ hs => hs
    · exact .bind (v.checkRegister_meets env) fun _ => .pure fun _ hs => hs
    · rename_i hlist
      exact .bind (v.checkListAppend_meets env fun hpath => hv hpath hlist) fun _ => .pure fun _ hs => hs
    · exact .pure fun _ hs => hs.mono (by decide)

end Verification

/-! ## Faults -/

namespace NemesisState

def Idle (ν : NemesisState) : Prop := ν.pending = []

/-- Not started yet, and the call that would start it is one of `C`. -/
structure Unstarted (C : Nemesis.RunCall → Prop) (ν : NemesisState) : Prop where
  started : ν.run.started = false
  stopped : ν.stopped = false
  pending : ν.pending = []
  call : ∀ n c, ν.run.begin = (n, some c) → C c

def Running (ν : NemesisState) : Prop := (ν.run.started = false → ν.pending = []) ∧ ν.stopped = false

/-- A further `stop` does nothing. -/
def Over (ν : NemesisState) : Prop := ν.pending = [] ∧ (ν.run.started = false ∨ ν.stopped = true)

end NemesisState

open NemesisState

/-- The call of the scheduler that a run makes, for the nodes of its cluster. -/
def Called (env : Env) (f : Flags) (c : Nemesis.RunCall) : Prop :=
  ∃ nodes schedule, env.faultSchedule = .ok schedule ∧
    c = { sched := ⟨nodes, f.seed⟩, deadline := none, specs := schedule.specs }

theorem Called.run {env : Env} {f : Flags} {c : Nemesis.RunCall} (h : Called env f c) :
    c.run env.faults = some (env.timeline c) := by
  obtain ⟨nodes, schedule, -, rfl⟩ := h
  obtain ⟨acts, hacts⟩ := Option.isSome_iff_exists.mp (schedule.ends ⟨nodes, f.seed⟩)
  have hplan : Nemesis.RunCall.plan { sched := ⟨nodes, f.seed⟩, deadline := none, specs := schedule.specs } =
      some acts := hacts
  unfold Env.timeline Nemesis.RunCall.run
  rw [hplan]
  rfl

/-- The faults are those of a call of the scheduler, if any, and the load that of the runner. -/
structure Fate (env : Env) (f : Flags) (K : List Nemesis.Event) (L : List Runner.Lifecycle.Event) : Prop where
  faults : K = [] ∨ ∃ c, Called env f c ∧ K = env.timeline c
  load : L = [] ∨ L = env.load.1

theorem newNemesis_meets (env : Env) (target : String) (f : Flags) (r : Resolved) :
    (newNemesis env target f r).Meets (At 3 A Idle R h [] L) (fun _ => At 3 A (Unstarted (Called env f)) R h [] L)
      (At 3 A Idle R h [] L) := by
  have hreplace : ∀ {ν : NemesisState} {s : World}, ν.Unstarted (Called env f) → At 3 A Idle R h [] L s →
      At 3 A (Unstarted (Called env f)) R h [] L { s with nemesis := ν } := by
    intro ν s hν hs
    have hcontrols : controls s.events = [] := List.append_eq_nil_iff.mp hs.faults |>.1
    exact { hs with nemesis := hν, faults := by rw [hcontrols, hν.pending]; rfl }
  unfold newNemesis
  split
  · exact .update fun s hs => hreplace ⟨rfl, rfl, rfl, fun n c hbegin => by cases hbegin⟩ hs
  · apply Act.Meets.bind (Q := fun schedule s => env.faultSchedule = .ok schedule ∧ At 3 A Idle R h [] L s)
    · exact Act.Meets.wrap (.result (fun _ hschedule _ hs => ⟨hschedule, hs⟩) fun _ _ _ hs => hs)
    intro schedule
    split
    · exact .fail fun _ hs => hs.2
    · apply Act.Meets.bind (Q := fun _ s => env.faultSchedule = .ok schedule ∧ At 3 A Idle R h [] L s)
      · exact Act.Meets.wrap (.check (fun _ hs => hs) fun _ hs => hs.2)
      · refine fun _ => .update fun s hs => hreplace ⟨rfl, rfl, rfl, fun n c hbegin => ?_⟩ hs.2
        exact ⟨r.nodes, schedule, hs.1, (Option.some.inj (Prod.mk.inj hbegin).2).symm⟩

theorem begin_at (env : Env) {f : Flags} (hs : At 3 A (Unstarted (Called env f)) R h [] L s) :
    ∃ K, (K = [] ∨ ∃ c, Called env f c ∧ K = env.timeline c) ∧ At 3 A Running R h K L (s.begin env) := by
  obtain ⟨hstarted, hstopped, hpending, hcall⟩ := hs.nemesis
  have hcontrols : controls s.events = [] := List.append_eq_nil_iff.mp hs.faults |>.1
  unfold World.begin
  split
  · exact ⟨[], .inl rfl, { hs with nemesis := ⟨fun _ => hpending, hstopped⟩ }⟩
  · rename_i n c hbegin
    refine ⟨env.timeline c, .inr ⟨c, hcall n c hbegin, rfl⟩,
      { hs with nemesis := ⟨fun hn => ?_, hstopped⟩, faults := ?_ }⟩
    · unfold Nemesis.NemesisRun.begin at hbegin
      split at hbegin
      · cases hbegin
      · rw [if_neg (by simp [hstarted])] at hbegin
        obtain ⟨rfl, -⟩ := Prod.mk.inj hbegin
        cases hn
    · show controls s.events ++ env.timeline c = env.timeline c
      rw [hcontrols, List.nil_append]

theorem drive_at (env : Env) (hs : At 3 A Running R h K [] s) : At 4 A Running R h K env.load.1 (s.drive env) := by
  have hphase : ∀ e ∈ (weave env.choices env.load.1 s.nemesis.pending).1.map (Sum.elim Event.load Event.control),
      e.phase = 4 := by
    intro e he
    obtain ⟨x, -, rfl⟩ := List.mem_map.mp he
    cases x <;> rfl
  obtain ⟨hsorted, hbound⟩ := order_append hs.sorted hs.bound (Nat.le_succ 3) hphase
  have hrights := weave_rights env.choices env.load.1 s.nemesis.pending
  refine ⟨hsorted, hbound, hs.files, ⟨fun hstarted => ?_, hs.nemesis.2⟩, hs.running, ?_, ?_, ?_⟩
  · rw [hs.nemesis.1 hstarted] at hrights
    show (weave env.choices env.load.1 s.nemesis.pending).2 = []
    rw [hs.nemesis.1 hstarted]
    exact (List.append_eq_nil_iff.mp hrights).2
  · show trail (s.events ++ _) = h
    rw [trail_append_work, hs.trail_eq]
  · show controls (s.events ++ _) ++ (weave env.choices env.load.1 s.nemesis.pending).2 = K
    rw [controls, List.filterMap_append, List.append_assoc]
    show controls s.events ++ (controls _ ++ _) = K
    rw [controls_work, hrights, hs.faults]
  · show loads (s.events ++ _) = env.load.1
    rw [loads, List.filterMap_append]
    show loads s.events ++ loads _ = env.load.1
    rw [hs.loads_eq, loads_work, weave_lefts, List.nil_append]

theorem drive_meets (env : Env) {f : Flags} :
    (drive env).Meets (At 3 A (Unstarted (Called env f)) R h [] [])
      (fun _ s => ∃ K L, Fate env f K L ∧ At 4 A Running R h K L s)
      (fun s => ∃ K L, Fate env f K L ∧ At 4 A Running R h K L s) := by
  apply Act.Meets.bind (Q := fun _ => At 3 A (Unstarted (Called env f)) R h [] [])
  · refine Act.Meets.wrap (.check (fun _ hs => hs) fun s hs => ⟨[], [], ⟨.inl rfl, .inl rfl⟩, ?_⟩)
    exact { hs.mono (Nat.le_succ 3) with nemesis := ⟨fun _ => hs.nemesis.pending, hs.nemesis.stopped⟩ }
  intro _
  apply Act.Meets.bind (Q := fun _ s => ∃ K, (K = [] ∨ ∃ c, Called env f c ∧ K = env.timeline c) ∧
    At 3 A Running R h K [] s)
  · exact .update fun s hs => begin_at env hs
  intro _
  apply Act.Meets.bind (Q := fun _ s => ∃ K L, Fate env f K L ∧ At 4 A Running R h K L s)
  · refine .update fun s hs => ?_
    obtain ⟨K, hK, hs⟩ := hs
    exact ⟨K, env.load.1, ⟨hK, .inr rfl⟩, drive_at env hs⟩
  · exact fun _ => Act.Meets.wrap (.check (fun _ hs => hs) fun _ hs => hs)

theorem stop_at (env : Env) (hs : At 4 A Running R h K L s) : At 4 A Over R h K L (s.stop env) := by
  unfold World.stop
  split_ifs with hstopped
  · have hstarted : s.nemesis.run.started = false := by simpa [hs.nemesis.2] using hstopped
    exact { hs with nemesis := ⟨hs.nemesis.1 hstarted, .inl hstarted⟩ }
  · have hwork : s.nemesis.pending.map Event.control =
        (s.nemesis.pending.map Sum.inr).map (Sum.elim Event.load Event.control) := by
      rw [List.map_map]
      rfl
    have hphase : ∀ e ∈ s.nemesis.pending.map Event.control, e.phase = 4 := by
      intro e he
      obtain ⟨x, -, rfl⟩ := List.mem_map.mp he
      rfl
    obtain ⟨hsorted, hbound⟩ := order_append hs.sorted hs.bound le_rfl hphase
    refine ⟨hsorted, hbound, hs.files, ⟨rfl, .inr rfl⟩, hs.running, ?_, ?_, ?_⟩
    · show trail (s.events ++ _) = h
      rw [hwork, trail_append_work, hs.trail_eq]
    · show controls (s.events ++ _) ++ [] = K
      rw [List.append_nil, controls, List.filterMap_append]
      show controls s.events ++ controls _ = K
      rw [hwork, controls_work, List.filterMap_map, ← hs.faults]
      exact congrArg (controls s.events ++ ·) List.filterMap_some
    · show loads (s.events ++ _) = L
      rw [loads, List.filterMap_append]
      show loads s.events ++ loads _ = L
      rw [hwork, loads_work, List.filterMap_map, hs.loads_eq]
      have hnone : (s.nemesis.pending.filterMap (Sum.getLeft? ∘ Sum.inr) : List Runner.Lifecycle.Event) = [] :=
        List.filterMap_eq_nil_iff.mpr fun _ _ => rfl
      rw [hnone, List.append_nil]

theorem stop_over (env : Env) (hs : s.nemesis.Over) : s.stop env = s := by
  unfold World.stop
  exact if_pos hs.2

/-! ## A whole run -/

/-- What a run leaves behind that has found the files `F`: `R` is running, and `Up` and `Down` were called for these
topologies. -/
structure Left (env : Env) (f : Flags) (F : String → Bool) (R : Topology → Bool) (ups downs : List Topology) (n : Nat)
    (s : World) : Prop where
  sorted : s.events.Pairwise fun a b => a.phase ≤ b.phase
  bound : ∀ e ∈ s.events, e.phase ≤ n
  files : ∀ q, F q = false → env.remove q = true →
    (s.files q = true ↔ q ∈ (trail s.events).created ∧ q ∉ (trail s.events).opened)
  created : ∀ q ∈ (trail s.events).created, Free env F q
  running : s.running = R
  ups_eq : (trail s.events).ups = ups
  downs_eq : (trail s.events).downs = downs
  faults : controls s.events = [] ∨ ∃ c, Called env f c ∧ controls s.events = env.timeline c
  idle : s.nemesis.pending = []
  load : loads s.events = [] ∨ loads s.events = env.load.1

variable {env : Env} {f : Flags} {F : String → Bool} {ups downs : List Topology}

theorem At.left (hs : At n A Idle R h K L s) (hfate : Fate env f K L) (hn : n ≤ m)
    (hfiles : ∀ g, A g → ∀ q, F q = false → env.remove q = true → (g q = true ↔ q ∈ h.created ∧ q ∉ h.opened))
    (hcreated : ∀ q ∈ h.created, Free env F q) : Left env f F R h.ups h.downs m s := by
  have hcontrols : controls s.events = K := by
    rw [← hs.faults, hs.nemesis, List.append_nil]
  refine ⟨hs.sorted, (hs.mono hn).bound, ?_, ?_, hs.running, ?_, ?_, ?_, hs.nemesis, ?_⟩
  · rw [hs.trail_eq]
    exact hfiles s.files hs.files
  · rw [hs.trail_eq]
    exact hcreated
  · rw [hs.trail_eq]
  · rw [hs.trail_eq]
  · rw [hcontrols]
    exact hfate.faults
  · rw [hs.loads_eq]
    exact hfate.load

theorem Fate.nothing : Fate env f [] [] := ⟨.inl rfl, .inl rfl⟩

theorem At.left_of_files (hs : At n (Same env F) Idle R h [] [] s) (hcreated : h.created = []) (hn : n ≤ m) :
    Left env f F R h.ups h.downs m s := by
  apply hs.left .nothing hn
  · intro g hg q hq hremove
    simp [hg q hremove, hq, hcreated]
  · simp [hcreated]

theorem At.left_created {p : String} (hp : Free env F p)
    (hs : At n (Same env (Function.update F p true)) Idle R (h.add (.createTemp p)) [] [] s) (hcreated : h.created = [])
    (hopened : h.opened = []) (hn : n ≤ m) : Left env f F R h.ups h.downs m s := by
  have hadd : h.add (.createTemp p) = { h with created := [p] } := by
    unfold Trail.add
    rw [hcreated]
    rfl
  rw [hadd] at hs
  apply hs.left .nothing hn
  · intro g hg q hq hremove
    simp [hg q hremove, Function.update_apply, hq, hopened]
  · simpa using hp

/-- Nothing new is left of a recording that was opened, nor of what was written for Elle. -/
theorem cleanup_at {v : Verification}
    (hs : At 11 (Upto env v.path (Recording F v.path)) Idle R h K L s) :
    At 12 (fun g => ∀ q, F q = false → env.remove q = true → g q = false) Idle R h K L (v.cleanup env s) := by
  unfold Verification.cleanup
  split_ifs with hpath
  · refine { hs.mono (Nat.le_succ 11) with files := fun q hq hremove => ?_ }
    rw [hs.files q hremove fun hne => absurd hpath hne, Recording, if_pos hpath, hq]
  · refine At.emit (e := .removeTemp v.path) (n := 11) ?_ (Nat.le_succ 11) ⟨rfl, rfl⟩
    refine { hs with files := fun q hq hremove => ?_ }
    unfold World.remove World.setFile
    dsimp only
    rw [update_remove _ _ hremove, update_remove _ _ hremove]
    split_ifs with hedn hrecorded
    · rfl
    · rfl
    · rw [hs.files q hremove fun _ => hedn, Recording, if_neg hpath, Function.update_of_ne hrecorded, hq]

theorem cleanup_left {v : Verification} (hv : Prepared env F v) (hfate : Fate env f K L)
    (hs : At 11 (Upto env v.path (Recording F v.path)) Idle R (h.record v.path) K L s) (hcreated : h.created = [])
    (hopened : h.opened = []) : Left env f F R h.ups h.downs 12 (v.cleanup env s) := by
  have hclean := cleanup_at hs
  unfold Trail.record at hclean
  split_ifs at hclean with hpath
  · apply hclean.left hfate le_rfl
    · intro g hg q hq hremove
      simp [hg q hq hremove, hcreated]
    · simp [hcreated]
  · have hadd : (h.add (.createTemp v.path)).add (.openWriter v.path) =
        { h with created := [v.path], opened := [v.path] } := by
      unfold Trail.add
      rw [hcreated, hopened]
      rfl
    rw [hadd] at hclean
    apply hclean.left hfate le_rfl
    · intro g hg q hq hremove
      simp [hg q hq hremove]
    · simpa using hv.path hpath

theorem Left.mono (hs : Left env f F R ups downs n s) (hn : n ≤ m) : Left env f F R ups downs m s :=
  { hs with bound := fun e he => (hs.bound e he).trans hn }

theorem Left.emit {u : World} {H : String → Bool} {e : Event} (hs : Left env f F R ups downs n s)
    (hevents : u.events = s.events ++ [e]) (hnemesis : u.nemesis = s.nemesis) (hn : n ≤ e.phase) (he : e.Plain)
    (hadd : ∀ h : Trail, (h.add e).created = h.created ∧ (h.add e).opened = h.opened)
    (hcreated : ∀ q ∈ (trail s.events).created, Free env H q)
    (hfiles : ∀ q, H q = false → env.remove q = true →
      (u.files q = true ↔ q ∈ (trail s.events).created ∧ q ∉ (trail s.events).opened)) :
    Left env f H u.running ((trail s.events).add e).ups ((trail s.events).add e).downs e.phase u := by
  have hphase : ∀ a ∈ [e], a.phase = e.phase := fun a ha => congrArg Event.phase (List.mem_singleton.mp ha)
  have htrail := trail_append_singleton s.events e
  obtain ⟨hsorted, hbound⟩ := order_append hs.sorted hs.bound hn hphase
  obtain ⟨hloads, hcontrols⟩ := plain_append he s.events
  rw [← hevents] at hsorted hbound hloads hcontrols htrail
  refine ⟨hsorted, hbound, ?_, ?_, rfl, ?_, ?_, ?_, ?_, ?_⟩
  · rw [htrail, (hadd _).1, (hadd _).2]
    exact hfiles
  · rw [htrail, (hadd _).1]
    exact hcreated
  · rw [htrail]
  · rw [htrail]
  · rw [hcontrols]
    exact hs.faults
  · rw [hnemesis]
    exact hs.idle
  · rw [hloads]
    exact hs.load

theorem teardown_left {t : Topology} (hs : Left env f F R ups [] 12 s) :
    Left env f F (Function.update R t (env.down t)) ups [t] 13 ((Deferred.teardown (some t)).exec env s) := by
  have hleft := hs.emit (u := (Deferred.teardown (some t)).exec env s) (e := .down t) rfl rfl (Nat.le_succ 12)
    ⟨rfl, rfl⟩ (fun _ => ⟨rfl, rfl⟩) hs.created hs.files
  have hdowns : (trail s.events).downs ++ [t] = [t] := by
    rw [hs.downs_eq]
    rfl
  rw [← hs.running, ← hs.ups_eq, ← hdowns]
  exact hleft

theorem removeAssets_left {dir : String} (hdir : Free env F dir)
    (hs : Left env f (Function.update F dir true) R ups downs 13 s) :
    Left env f F R ups downs 14 ((Deferred.removeAssets dir).exec env s) := by
  have hother : ∀ q ∈ (trail s.events).created, env.remove q = true → q ≠ dir := by
    rintro q hq hremove rfl
    have := hs.created q hq hremove
    rw [Function.update_self] at this
    cases this
  have hleft := hs.emit (u := (Deferred.removeAssets dir).exec env s) (H := F) (e := .removeAssets dir) rfl rfl
    (Nat.le_succ 13) ⟨rfl, rfl⟩ (fun _ => ⟨rfl, rfl⟩) (fun q hq hremove => ?_) fun q hq hremove => ?_
  · rw [← hs.running, ← hs.ups_eq, ← hs.downs_eq]
    exact hleft
  · have hfresh := hs.created q hq hremove
    rwa [Function.update_of_ne (hother q hq hremove)] at hfresh
  · show Function.update s.files dir (s.files dir && !env.remove dir) q = true ↔ _
    rw [update_remove s.files dir hremove]
    split_ifs with hq'
    · exact iff_of_false not_false fun h => absurd hq' (hother q h.1 hremove)
    · exact hs.files q (by rwa [Function.update_of_ne hq']) hremove

end Stages

/-- What becomes of the clusters that were running before. -/
def ClusterFate (env : Env) (f : Flags) (R R' : Topology → Bool) (ups downs : List Topology) : Prop :=
  (ups = [] ∧ downs = [] ∧ R' = R) ∨
    ∃ t, ups = [t] ∧
      (Usable env t ∧ f.keep = false ∧ downs = [t] ∧ R' = Function.update R t (env.down t) ∨
        ¬(Usable env t ∧ f.keep = false) ∧ downs = [] ∧ R' = Function.update R t (env.up t).1)

theorem Same.upto {env : Env} {F g : String → Bool} (h : Same env F g) (path : String) : Upto env path F g :=
  fun q hremove _ => h q hremove

section Run
open NemesisState
variable (env : Env) (target : String) (f : Flags) {F : String → Bool} {R : Topology → Bool} {h : Trail}
  {K : List Nemesis.Event} {L : List Runner.Lifecycle.Event}

theorem finish_stages {v : Verification} (hv : v.path = "" → v.model ≠ .inl .listAppend) :
    (finish env target f v).Meets (Deferred.exec env) (At 4 (Upto env v.path F) Over R h K L)
      (fun _ => At 11 (Upto env v.path F) Over R h K L) := by
  refine .act (writeArtifacts_meets env (by decide)) (fun _ => ?_) fun _ _ hs => hs.mono (by decide)
  refine .act (v.run_meets env hv target).wrap (fun vr => ?_) fun _ _ hs => hs.mono (by decide)
  refine .act (writeVerify_meets env vr) (fun _ => ?_) fun _ _ hs => hs.mono (by decide)
  refine .act (R := fun _ => At 9 (Upto env v.path F) Over R h K L) (E := fun _ => False)
    (.update fun s hs => persist_at hs) (fun _ => ?_) fun _ _ hs => hs.elim
  refine .act (E := fun _ => False) (exportMetrics_meets env f) (fun _ => ?_) fun _ _ hs => hs.elim
  exact .last (E := fun _ => False) (finalize_meets (by decide)) (fun _ _ hs => hs) fun _ _ hs => hs.elim

/-- Either the faults are over, or the run has not got beyond the load and `stop` waits for them. -/
theorem stopNemesis_at {A : (String → Bool) → Prop} {s : World}
    (hs : At 4 A Running R h K L s ∨ At 11 A Over R h K L s) :
    At 11 A Idle R h K L (Deferred.stopNemesis.exec env s) := by
  rcases hs with hs | hs
  · have hstop := stop_at env hs
    exact { hstop.mono (by decide : 4 ≤ 11) with nemesis := hstop.nemesis.1 }
  · have hstop : Deferred.stopNemesis.exec env s = s := stop_over env hs.nemesis
    rw [hstop]
    exact { hs with nemesis := hs.nemesis.1 }

theorem measure_stages (resolved : Resolved) {v : Verification} (hv : v.path = "" → v.model ≠ .inl .listAppend) :
    (measure env target f resolved v).Meets (Deferred.exec env) (At 3 (Upto env v.path F) Idle R h [] [])
      (fun _ s => ∃ K L, Fate env f K L ∧ At 11 (Upto env v.path F) Idle R h K L s) := by
  refine .act (newNemesis_meets env target f resolved) (fun _ => ?_) fun _ s hs => ?_
  · refine .defer (R := fun _ s => ∃ K L, Fate env f K L ∧
      (At 4 (Upto env v.path F) Running R h K L s ∨ At 11 (Upto env v.path F) Over R h K L s)) ?_ ?_
    · refine .act (drive_meets env) (fun _ => ?_) fun _ s hs => ?_
      · refine .act (R := fun _ s => ∃ K L, Fate env f K L ∧ At 4 (Upto env v.path F) Over R h K L s)
          (E := fun _ => False) (.update fun s hs => ?_) (fun _ => ?_) fun _ _ hs => hs.elim
        · obtain ⟨K, L, hfate, hs⟩ := hs
          exact ⟨K, L, hfate, stop_at env hs⟩
        · rintro s ⟨K, L, hfate, hs⟩
          exact ⟨K, L, hfate, .inr (finish_stages env target f hv s hs)⟩
      · obtain ⟨K, L, hfate, hs⟩ := hs
        exact ⟨K, L, hfate, .inl hs⟩
    · rintro _ s ⟨K, L, hfate, hs⟩
      exact ⟨K, L, hfate, stopNemesis_at env hs⟩
  · exact ⟨[], [], .nothing, hs.mono (by decide)⟩

theorem single_stages (resolved : Resolved) (hcreated : h.created = []) (hopened : h.opened = []) :
    (single env target f resolved).Meets (Deferred.exec env) (At 1 (Same env F) Idle R h [] [])
      (fun _ => Left env f F R h.ups h.downs 12) := by
  refine .act (R := fun _ => At 2 (Same env F) Idle R h [] [])
    (call_meets (e := .schema) (by decide) ⟨rfl, rfl⟩ _).wrap (fun _ => ?_) fun _ _ hs => ?_
  · refine .act (newVerification_meets env _) (fun v => .given fun hv => ?_) fun _ _ hs => ?_
    · have hmeasure := measure_stages (F := Recording F v.path) (R := R) (h := h.record v.path) env target f resolved
        hv.recorded
      refine .defer (hmeasure.pre fun s hs => { hs with files := hs.files.upto _ }) ?_
      rintro _ s ⟨K, L, hfate, hs⟩
      exact cleanup_left hv hfate hs hcreated hopened
    · rcases hs with hs | ⟨p, hp, hs⟩
      · exact hs.left_of_files hcreated (by decide)
      · exact hs.left_created hp hcreated hopened (by decide)
  · exact hs.left_of_files hcreated (by decide)

theorem launch_stages (resolved : Resolved) (hcreated : h.created = []) (hopened : h.opened = []) :
    (launch env target f resolved).Meets (Deferred.exec env) (At 1 (Same env F) Idle R h [] [])
      (fun _ => Left env f F R h.ups h.downs 12) := by
  refine .act (R := fun _ => At 1 (Same env F) Idle R h [] []) (.result (fun _ _ _ hs => hs) fun _ _ _ hs => hs)
    (fun _ => ?_) fun _ _ hs => hs.left_of_files hcreated (by decide)
  split
  · exact .last (coordinate_meets env) (fun _ _ hs => hs.left_of_files hcreated (by decide))
      fun _ _ hs => hs.left_of_files hcreated (by decide)
  · exact single_stages env target f resolved hcreated hopened

theorem teardown_stages (resolved : Resolved) {t : Topology} (husable : Usable env t) :
    Body.Meets (Deferred.exec env) (Brought env (Same env F) Idle R [] [] t)
      (do
        defer (.teardown (f.teardown t))
        launch env target f resolved)
      (fun _ s => ∃ R' ups downs, ClusterFate env f R R' ups downs ∧ Left env f F R' ups downs 13 s) := by
  refine .defer (launch_stages env target f resolved rfl rfl) fun _ s hs => ?_
  unfold Flags.teardown
  split_ifs with hkeep
  · refine ⟨_, [t], [], .inr ⟨t, rfl, .inr ⟨fun h => ?_, rfl, rfl⟩⟩, hs.mono (by decide)⟩
    rw [hkeep] at h
    cases h.2
  · refine ⟨_, [t], [t], .inr ⟨t, rfl, .inl ⟨husable, by simpa using hkeep, rfl, rfl⟩⟩, ?_⟩
    have hleft := teardown_left (t := t) hs
    rwa [Function.update_idem] at hleft

/-- **The stages of a run**, on every path through it. -/
theorem doRun_stages (F : String → Bool) (R : Topology → Bool) :
    (doRun env target f).Meets (Deferred.exec env) (At 0 (Same env F) Idle R fresh [] [])
      (fun _ s => ∃ R' ups downs, ClusterFate env f R R' ups downs ∧ Left env f F R' ups downs 14 s) := by
  refine .act (materialize_meets env).wrap (fun dir => .given fun hdir => ?_) fun _ _ hs => ?_
  · refine .defer (R := fun _ s => ∃ R' ups downs, ClusterFate env f R R' ups downs ∧
      Left env f (Function.update F dir true) R' ups downs 13 s) ?_ ?_
    · refine .act (R := fun _ => At 0 (Same env (Function.update F dir true)) Idle R fresh [] [])
        (Act.Meets.wrap (.result (fun _ _ _ hs => hs) fun _ _ _ hs => hs)) (fun resolved => ?_) fun _ _ hs => ?_
      · refine .act (ensureEndpoints_meets env target f resolved) (fun x => ?_) fun _ s hs => ?_
        · obtain ⟨resolved, teardown⟩ := x
          rintro s (⟨rfl, hs⟩ | ⟨t, rfl, husable, hs⟩)
          · exact ⟨R, [], [], .inl ⟨rfl, rfl, rfl⟩,
              (launch_stages env target f resolved rfl rfl s hs).mono (by decide)⟩
          · exact teardown_stages env target f resolved husable s hs
        · rcases hs with hs | ⟨t, husable, hs⟩
          · exact ⟨R, [], [], .inl ⟨rfl, rfl, rfl⟩, hs.left_of_files rfl (by decide)⟩
          · exact ⟨_, [t], [], .inr ⟨t, rfl, .inr ⟨fun h => husable h.1, rfl, rfl⟩⟩,
              At.left_of_files hs rfl (by decide)⟩
      · exact ⟨R, [], [], .inl ⟨rfl, rfl, rfl⟩, hs.left_of_files rfl (by decide)⟩
    · rintro _ s ⟨R', ups, downs, hfate, hs⟩
      exact ⟨R', ups, downs, hfate, removeAssets_left hdir hs⟩
  · exact ⟨R, [], [], .inl ⟨rfl, rfl, rfl⟩, hs.left_of_files rfl le_rfl⟩

/-- The state in which a run starts. -/
def World.start (files : String → Bool) (running : Topology → Bool) : World := ⟨files, running, noNemesis, []⟩

theorem execute_left (files : String → Bool) (running : Topology → Bool) :
    ∃ R ups downs, ClusterFate env f running R ups downs ∧
      Left env f files R ups downs 14 (execute env target f (.start files running)).2 := by
  apply doRun_stages env target f files running
  exact ⟨List.Pairwise.nil, by simp [World.start], fun _ _ => rfl, rfl, rfl, rfl, rfl, rfl⟩

/-- **What a run leaves behind.** Whatever fails and wherever the faults come: of the entries of the temporary directory
that were not there before and that can be removed, exactly a recording that was created and could not be opened stays;
the cluster of the only `Up` call is taken down, once, if it was usable and is not to be kept, and otherwise stays as
`Up` left it; every connection that the load opened is closed; and the fault scheduler has ended. -/
theorem nothing_left_behind (files : String → Bool) (running : Topology → Bool) {s : World}
    (hs : (execute env target f (.start files running)).2 = s) :
    (∀ q, files q = false → env.remove q = true →
      (s.files q = true ↔ q ∈ (trail s.events).created ∧ q ∉ (trail s.events).opened)) ∧
    ClusterFate env f running s.running (trail s.events).ups (trail s.events).downs ∧
    (∀ {T : Type} {u w schedule ctxErr} {d : Runner.Deps T} {r : Runner.Lifecycle.Returned T},
      Runner.Lifecycle.run u w d schedule ctxErr = some r → env.load = (r.events, r.err) →
        (Runner.Lifecycle.closes (loads s.events)).Perm (Runner.Lifecycle.opens (loads s.events))) ∧
    s.nemesis.pending = [] := by
  obtain ⟨R, ups, downs, hfate, hleft⟩ := execute_left env target f files running
  rw [hs] at hleft
  refine ⟨hleft.files, ?_, fun {T u w schedule ctxErr d r} hrun hload => ?_, hleft.idle⟩
  · rw [hleft.running, hleft.ups_eq, hleft.downs_eq]
    exact hfate
  · rcases hleft.load with hnone | hall
    · rw [hnone]
      exact .nil
    · rw [hall, hload]
      exact (Runner.Lifecycle.closes_perm_opens hrun).1

/-- **Faults end before the checks.** Whatever fails: the events of a run come in the order of its stages, so that load
and faults are over before artifacts are written, the recording is closed and checked, and the cluster is taken down;
the faults are none, or all that the scheduler does with the schedule of the run; and after every successful injection
its node was asked to heal. -/
theorem faults_end_before_checks (files : String → Bool) (running : Topology → Bool) {s : World}
    (hs : (execute env target f (.start files running)).2 = s) :
    s.events.Pairwise (fun a b => a.phase ≤ b.phase) ∧
    (controls s.events = [] ∨ ∃ c, Called env f c ∧ c.run env.faults = some (controls s.events)) ∧
    ∀ pre e post, controls s.events = pre ++ e :: post → e.action = .inject → e.ok →
      ∃ h ∈ post, h.action = .heal ∧ h.node = e.node := by
  obtain ⟨R, ups, downs, hfate, hleft⟩ := execute_left env target f files running
  rw [hs] at hleft
  have hfaults : controls s.events = [] ∨ ∃ c, Called env f c ∧ c.run env.faults = some (controls s.events) := by
    refine hleft.faults.imp_right ?_
    rintro ⟨c, hcalled, heq⟩
    exact ⟨c, hcalled, heq ▸ hcalled.run⟩
  refine ⟨hleft.sorted, hfaults, fun pre e post hsplit => ?_⟩
  rcases hfaults with hnone | ⟨c, -, hrun⟩
  · rw [hnone] at hsplit
    exact absurd hsplit.symm (by simp)
  · exact Nemesis.heal_attempted hrun hsplit

end Run

/-! ## Two runs -/

/-- The pattern itself is the name, if it is free. -/
def patternNames : TempNames where
  pick pattern files := if files pattern = false ∧ pattern ≠ "" then .ok pattern else .error "file exists"
  fresh := by
    intro pattern files path h
    split_ifs at h with hfree
    obtain rfl := Except.ok.inj h
    exact hfree

def oneNode : Node := { id := "redis-0", client := "127.0.0.1:16379", control := ⟨.docker, "redis-0", ""⟩ }

def redisTopology : Topology := ⟨"redis", ""⟩

def recordedWorkload : Workload :=
  { name := "lists", mode := .correctness, operations := [⟨"append", 1⟩], keySpace := 1, keyDist := .uniform,
    valueSize := 8, verifyModel := .listAppend, params := ∅ }

def someReport : Report := ⟨.inl .listAppend, .pass, []⟩

def everyTenSeconds : Schedule where
  specs := [Nemesis.everyTenSeconds]
  ends sched := by
    rw [Option.isSome_iff_exists, Nemesis.plan_isSome_iff]
    decide +kernel

/-- Every call succeeds, and the fault is injected before the load starts. -/
def calm : Env where
  temps := patternNames
  remove _ := true
  copyAssets := none
  resolve := .ok ⟨redisTopology, [], [], recordedWorkload⟩
  provisioner := none
  bundled := false
  up _ := (true, .ok [oneNode])
  down _ := false
  schema := none
  serve := none
  merge := none
  closeTemp := none
  openWriter := none
  faultSchedule := .ok everyTenSeconds
  script := none
  buildWorkload := none
  faults := Nemesis.cancelledEarly
  load := ([.connect 0 none, .prepare 0 none, .close 0], none)
  choices := [true]
  artifact _ := none
  native := none
  nativeVerify := .ok someReport
  closeWriter := none
  readRecording := none
  reconcile := .ok someReport
  register := someReport
  writeEDN := none
  elle := someReport
  writeVerify := none
  exporter := false

def provisionedRun (fault : String) : Flags :=
  { workload := "lists", rate := 0, seed := 42, workers := 0, test := "", provision := "compose", keep := false,
    verify := "", fault := fault, exportTo := "" }

/-- The history cannot be opened: its file stays, the cluster goes. -/
theorem nothing_left_behind_but_history :
    let s := (execute { calm with openWriter := some "too many open files" } "redis" (provisionedRun "")
      (.start (fun _ => false) fun _ => false)).2
    s.files "proofload-history-*.ndjson" = true ∧ s.files "proofload-assets-" = false ∧
      s.running redisTopology = false ∧ (trail s.events).downs = [redisTopology] := by
  intro s
  obtain ⟨hfiles, -, -, -⟩ := nothing_left_behind { calm with openWriter := some "too many open files" } "redis"
    (provisionedRun "") (fun _ => false) (fun _ => false) (s := s) rfl
  refine ⟨(hfiles _ rfl rfl).mpr (by decide +kernel), ?_, by decide +kernel, by decide +kernel⟩
  rw [← Bool.not_eq_true, hfiles _ rfl rfl]
  decide +kernel

/-- The load fails while a fault is active: the fault is healed before the cluster goes. -/
theorem faults_end_before_checks_on_failed_load :
    let s := (execute { calm with load := ([.connect 0 (some "refused")], some "runner: connect 0: refused") } "redis"
      (provisionedRun "faults.yaml") (.start (fun _ => false) fun _ => false)).2
    (controls s.events).map (·.action) = [.inject, .heal] ∧ (trail s.events).downs = [redisTopology] ∧
      s.events.Pairwise fun a b => a.phase ≤ b.phase := by
  intro s
  refine ⟨by decide +kernel, by decide +kernel, ?_⟩
  exact (faults_end_before_checks { calm with load := ([.connect 0 (some "refused")],
    some "runner: connect 0: refused") } "redis" (provisionedRun "faults.yaml") (fun _ => false) (fun _ => false)
    (s := s) rfl).1

end Proofload.Cli.Run
