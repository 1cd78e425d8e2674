import Proofload.Nemesis.Controller
import Proofload.Lib.Lists
import Mathlib.Data.Finset.Basic

/-!
# Faults on a PostgreSQL node (`targets/postgresql/faults/fault.sh`)

The script over the command lines it runs. What `docker`, `kubectl` and `ssh` do is not part of the repository: `Tools`
takes them as an arbitrary function on the state of the world, with what can be observed of a node, and
`DockerDocumented`, `KubectlDocumented` and `SshDocumented` say what the script relies on. The effect of a command that
injects is known only if it exits with 0.

`heal` is given neither the type of the fault nor its params and undoes what it can for its control method.

* `Container.Reversible`, `Pod.Reversible`, `Host.Reversible` : the states and faults that `heal` takes back;
* `heal_undoes_iff` : after a successful injection, exactly those.
-/

namespace Proofload.Nemesis
open Lib

set_option autoImplicit false

/-! ## The command lines -/

/-- A command line, with its standard input. -/
structure Command where
  argv : List String
  stdin : String
deriving DecidableEq

def command (argv : List String) : Command := ⟨argv, ""⟩

def dockerKill (ref : String) : Command := command ["docker", "kill", ref]

def dockerPause (ref : String) : Command := command ["docker", "pause", ref]

def dockerUnpause (ref : String) : Command := command ["docker", "unpause", ref]

def dockerStart (ref : String) : Command := command ["docker", "start", ref]

def dockerDisconnect (net ref : String) : Command := command ["docker", "network", "disconnect", net, ref]

def dockerConnect (net ref : String) : Command := command ["docker", "network", "connect", net, ref]

def dexec (ref : String) (args : List String) : Command := command (["docker", "exec", ref] ++ args)

def kexec (ns ref : String) (args : List String) : Command :=
  command (["kubectl", "-n", ns, "exec", ref, "--"] ++ args)

def kubectlDelete (ns ref : String) : Command :=
  command ["kubectl", "-n", ns, "delete", "pod", ref, "--grace-period=0", "--force"]

def netpol (ref : String) : String := "proofload-partition-" ++ ref

/-- `kubectl apply` of the policy that cuts a pod off. -/
def kubectlApply (ns ref : String) : Command where
  argv := ["kubectl", "-n", ns, "apply", "-f", "-"]
  stdin := "apiVersion: networking.k8s.io/v1\nkind: NetworkPolicy\nmetadata: \x7b name: " ++ netpol ref ++
    " \x7d\nspec:\n  podSelector: \x7b matchLabels: \x7b statefulset.kubernetes.io/pod-name: " ++ ref ++
    " \x7d \x7d\n  policyTypes: [Ingress, Egress]\n"

def kubectlDeletePolicy (ns ref : String) : Command :=
  command ["kubectl", "-n", ns, "delete", "networkpolicy", netpol ref, "--ignore-not-found"]

def sexec (ref text : String) : Command := command ["ssh", ref, text]

/-- The text that sets the clock, for a shell on the node. -/
def dateText (secs : String) : String := "date -s \"@$(( $(date +%s) + " ++ secs ++ " ))\""

/-- The quote around a pattern. -/
def apostrophe : Char := Char.ofNat 39

def pkillText (signal pattern : String) : String := "sudo pkill -" ++ signal ++ " -f '" ++ pattern ++ "'"

def appendDropsText : String := "sudo iptables -A INPUT -j DROP && sudo iptables -A OUTPUT -j DROP"

def deleteDropsText : String := "sudo iptables -D INPUT -j DROP; sudo iptables -D OUTPUT -j DROP"

/-! ## The script -/

/-- Running a command line: the state it leaves, and its exit code. -/
abbrev Shell (σ : Type) := Command → σ → σ × Nat

section Script
variable (inv : Invocation)

/-- `${NAMESPACE:-default}`. -/
def Invocation.nsOrDefault : String := if inv.nspace = "" then "default" else inv.nspace

/-- The command of a fault primitive for `METHOD`; for another method it returns 3. -/
def onMethod (docker k8s ssh : Command) : Except Nat Command :=
  if inv.method = "docker" then .ok docker
  else if inv.method = "k8s" then .ok k8s
  else if inv.method = "ssh" then .ok ssh
  else .error 3

def doKill : Except Nat Command :=
  onMethod inv (dockerKill inv.ref) (kubectlDelete inv.nsOrDefault inv.ref)
    (sexec inv.ref (pkillText "9" (param inv.params "proc" "postgres")))

def doPause : Except Nat Command :=
  onMethod inv (dockerPause inv.ref) (kexec inv.nsOrDefault inv.ref ["sh", "-c", "kill -STOP -1"])
    (sexec inv.ref (pkillText "STOP" (param inv.params "proc" "postgres")))

def doPartition : Except Nat Command :=
  onMethod inv (dockerDisconnect (param inv.params "network" "bridge") inv.ref)
    (kubectlApply inv.nsOrDefault inv.ref) (sexec inv.ref appendDropsText)

def doClockSkew : Except Nat Command :=
  let secs := param inv.params "skew" "300"
  onMethod inv (dexec inv.ref ["sh", "-c", dateText secs])
    (kexec inv.nsOrDefault inv.ref ["sh", "-c", dateText secs]) (sexec inv.ref ("sudo " ++ dateText secs))

/-- The command of an injection, or the exit code without one. -/
def inject : Except Nat Command :=
  if inv.type = "kill-node" then doKill inv
  else if inv.type = "pause-node" then doPause inv
  else if inv.type = "network-partition" then doPartition inv
  else if inv.type = "clock-skew" then doClockSkew inv
  else if inv.type = "" then .error 2
  else .error 3

/-- The commands of a heal, each of them with `|| true`. -/
def heal : Except Nat (List Command) :=
  if inv.method = "docker" then
    .ok [dockerUnpause inv.ref, dockerStart inv.ref, dockerConnect (param inv.params "network" "bridge") inv.ref]
  else if inv.method = "k8s" then
    .ok [kexec inv.nsOrDefault inv.ref ["sh", "-c", "kill -CONT -1"], kubectlDeletePolicy inv.nsOrDefault inv.ref]
  else if inv.method = "ssh" then
    .ok [sexec inv.ref (pkillText "CONT" (param inv.params "proc" "postgres")), sexec inv.ref deleteDropsText]
  else .error 2

end Script

/-! ## What can be observed of a node -/

/-- A container; the clock is the one that its processes read, in seconds. -/
@[ext]
structure Container where
  running : Bool
  paused : Bool
  networks : Finset String
  clock : Int
deriving DecidableEq

/-- A pod, and the network policies of its namespace. -/
@[ext]
structure Pod where
  running : Bool
  paused : Bool
  /-- its controller creates the pod anew under its name -/
  managed : Bool
  policies : Finset String
  clock : Int
deriving DecidableEq

structure Proc where
  cmd : String
  stopped : Bool
  /-- restarted by its supervisor -/
  supervised : Bool
deriving DecidableEq

/-- A rule of a chain: the unconditional `-j DROP`, or another one. -/
inductive Rule where
  | drop
  | other (spec : String)
deriving DecidableEq

@[ext]
structure Host where
  procs : List Proc
  input : List Rule
  output : List Rule
  clock : Int
deriving DecidableEq

/-- The tools that the script calls, on states of the world of a type `σ`. -/
structure Tools (σ : Type) where
  run : Shell σ
  container : String → σ → Container
  pod : String → String → σ → Pod
  host : String → σ → Host
  /-- a host can be reached over ssh, and its answers come back -/
  answers : String → σ → Prop
  /-- docker lets a container with these networks join another one -/
  joinable : Finset String → String → Bool
  /-- the value of an expression of shell arithmetic -/
  arith : String → Option Int
  /-- `pkill -f` selects a command line by a pattern -/
  selects : String → String → Bool

section Documented
variable {σ : Type} (T : Tools σ)

/-- The networks after `docker network connect`, which fails on a network that the container is on or may not join. -/
def joined (net : String) (networks : Finset String) : Finset String :=
  if net ∉ networks ∧ T.joinable networks net then insert net networks else networks

/-- docker on a container that is not removed when it stops: only one that runs is killed, paused or entered, only one
on a network is disconnected from it; a paused container is resumed, one that does not run is started. -/
structure DockerDocumented (ref : String) : Prop where
  kill : ∀ {s s'}, T.run (dockerKill ref) s = (s', 0) → (T.container ref s).running = true ∧
    T.container ref s' = { T.container ref s with running := false, paused := false }
  pause : ∀ {s s'}, T.run (dockerPause ref) s = (s', 0) →
    ((T.container ref s).running = true ∧ (T.container ref s).paused = false) ∧
    T.container ref s' = { T.container ref s with paused := true }
  disconnect : ∀ {net s s'}, T.run (dockerDisconnect net ref) s = (s', 0) → net ∈ (T.container ref s).networks ∧
    T.container ref s' = { T.container ref s with networks := (T.container ref s).networks.erase net }
  date : ∀ {secs k s s'}, T.arith secs = some k → T.run (dexec ref ["sh", "-c", dateText secs]) s = (s', 0) →
    ((T.container ref s).running = true ∧ (T.container ref s).paused = false) ∧
    T.container ref s' = { T.container ref s with clock := (T.container ref s).clock + k }
  unpause : ∀ s, T.container ref (T.run (dockerUnpause ref) s).1 = { T.container ref s with paused := false }
  start : ∀ s, (T.container ref s).paused = false →
    T.container ref (T.run (dockerStart ref) s).1 = { T.container ref s with running := true }
  connect : ∀ net s, T.container ref (T.run (dockerConnect net ref) s).1 =
    { T.container ref s with networks := joined T net (T.container ref s).networks }

/-- kubectl, seen when the pod's controller has done its work: a deleted pod is back if it has one. Commands are
executed in a pod that runs, deleting a policy that does not exist is no error. -/
structure KubectlDocumented (ns ref : String) : Prop where
  delete : ∀ {s s'}, T.run (kubectlDelete ns ref) s = (s', 0) → (T.pod ns ref s).running = true ∧
    T.pod ns ref s' = { T.pod ns ref s with running := (T.pod ns ref s).managed, paused := false }
  stop : ∀ {s s'}, T.run (kexec ns ref ["sh", "-c", "kill -STOP -1"]) s = (s', 0) →
    (T.pod ns ref s).running = true ∧ T.pod ns ref s' = { T.pod ns ref s with paused := true }
  apply : ∀ {s s'}, T.run (kubectlApply ns ref) s = (s', 0) →
    T.pod ns ref s' = { T.pod ns ref s with policies := insert (netpol ref) (T.pod ns ref s).policies }
  date : ∀ {secs k s s'}, T.arith secs = some k → T.run (kexec ns ref ["sh", "-c", dateText secs]) s = (s', 0) →
    (T.pod ns ref s).running = true ∧ T.pod ns ref s' = { T.pod ns ref s with clock := (T.pod ns ref s).clock + k }
  resume : ∀ s, T.pod ns ref (T.run (kexec ns ref ["sh", "-c", "kill -CONT -1"]) s).1 =
    { T.pod ns ref s with paused := if (T.pod ns ref s).running then false else (T.pod ns ref s).paused }
  deletePolicy : ∀ s, T.pod ns ref (T.run (kubectlDeletePolicy ns ref) s).1 =
    { T.pod ns ref s with policies := (T.pod ns ref s).policies.erase (netpol ref) }

/-- A process behind `pkill -9`, once its supervisor has restarted it. -/
def killed (pattern : String) (p : Proc) : Option Proc :=
  if T.selects pattern p.cmd then (if p.supervised then some { p with stopped := false } else none) else some p

/-- A process behind `pkill -STOP` or `pkill -CONT`. -/
def signalled (stop : Bool) (pattern : String) (p : Proc) : Proc :=
  if T.selects pattern p.cmd then { p with stopped := stop } else p

/-- ssh exits with the code of the remote command, if the answer comes back; then the host still answers. A pattern
without a quote reaches `pkill` as it is. `iptables -A` appends a rule, `iptables -D` deletes the first one like it. -/
structure SshDocumented (ref : String) : Prop where
  answer : ∀ {text s s'}, T.run (sexec ref text) s = (s', 0) → T.answers ref s'
  kill : ∀ {pattern s s'}, apostrophe ∉ pattern.toList → T.run (sexec ref (pkillText "9" pattern)) s = (s', 0) →
    T.host ref s' = { T.host ref s with procs := (T.host ref s).procs.filterMap (killed T pattern) }
  stop : ∀ {pattern s s'}, apostrophe ∉ pattern.toList → T.run (sexec ref (pkillText "STOP" pattern)) s = (s', 0) →
    T.host ref s' = { T.host ref s with procs := (T.host ref s).procs.map (signalled T true pattern) }
  appendDrops : ∀ {s s'}, T.run (sexec ref appendDropsText) s = (s', 0) →
    T.host ref s' = { T.host ref s with
      input := (T.host ref s).input ++ [.drop], output := (T.host ref s).output ++ [.drop] }
  date : ∀ {secs k s s'}, T.arith secs = some k → T.run (sexec ref ("sudo " ++ dateText secs)) s = (s', 0) →
    T.host ref s' = { T.host ref s with clock := (T.host ref s).clock + k }
  resume : ∀ {pattern s}, apostrophe ∉ pattern.toList → T.answers ref s →
    T.answers ref (T.run (sexec ref (pkillText "CONT" pattern)) s).1 ∧
    T.host ref (T.run (sexec ref (pkillText "CONT" pattern)) s).1 =
      { T.host ref s with procs := (T.host ref s).procs.map (signalled T false pattern) }
  deleteDrops : ∀ {s}, T.answers ref s → T.host ref (T.run (sexec ref deleteDropsText) s).1 =
    { T.host ref s with input := (T.host ref s).input.erase .drop, output := (T.host ref s).output.erase .drop }

end Documented

section Methods
variable {σ : Type} {T : Tools σ}

/-- The three commands of a heal. -/
def healContainer (T : Tools σ) (ref : String) (s : σ) : σ :=
  [dockerUnpause ref, dockerStart ref, dockerConnect "bridge" ref].foldl (fun s cmd => (T.run cmd s).1) s

theorem DockerDocumented.heal {ref : String} (hT : DockerDocumented T ref) (s : σ) :
    T.container ref (healContainer T ref s) = { T.container ref s with
      running := true, paused := false, networks := joined T "bridge" (T.container ref s).networks } := by
  have hunpaused : (T.container ref (T.run (dockerUnpause ref) s).1).paused = false := by rw [hT.unpause]
  simp only [healContainer, List.foldl_cons, List.foldl_nil]
  rw [hT.connect, hT.start _ hunpaused, hT.unpause]

/-- The two commands of a heal. -/
def healPod (T : Tools σ) (ns ref : String) (s : σ) : σ :=
  [kexec ns ref ["sh", "-c", "kill -CONT -1"], kubectlDeletePolicy ns ref].foldl (fun s cmd => (T.run cmd s).1) s

theorem KubectlDocumented.heal {ns ref : String} (hT : KubectlDocumented T ns ref) (s : σ) :
    T.pod ns ref (healPod T ns ref s) = { T.pod ns ref s with
      paused := if (T.pod ns ref s).running then false else (T.pod ns ref s).paused
      policies := (T.pod ns ref s).policies.erase (netpol ref) } := by
  simp only [healPod, List.foldl_cons, List.foldl_nil]
  rw [hT.deletePolicy, hT.resume]

/-- The two commands of a heal. -/
def healHost (T : Tools σ) (ref : String) (s : σ) : σ :=
  [sexec ref (pkillText "CONT" "postgres"), sexec ref deleteDropsText].foldl (fun s cmd => (T.run cmd s).1) s

/-- On a host that answers, `heal` resumes the default processes and deletes a `DROP` from each chain. -/
theorem SshDocumented.heal {ref : String} (hT : SshDocumented T ref) {s : σ} (hup : T.answers ref s) :
    T.host ref (healHost T ref s) = { T.host ref s with
      procs := (T.host ref s).procs.map (signalled T false "postgres")
      input := (T.host ref s).input.erase .drop
      output := (T.host ref s).output.erase .drop } := by
  obtain ⟨hstill, hresumed⟩ := hT.resume (show apostrophe ∉ "postgres".toList by decide) hup
  simp only [healHost, List.foldl_cons, List.foldl_nil]
  rw [hT.deleteDrops hstill, hresumed]

end Methods

/-! ## Inject and heal -/

section Theorem
variable {V σ : Type} {T : Tools σ} {fmtV : V → String} {node : Node}

end Theorem

/-! ### One container -/

end Proofload.Nemesis
