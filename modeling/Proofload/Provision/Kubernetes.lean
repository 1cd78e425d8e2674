import Proofload.Domain
import Proofload.Lib.Texts
import Mathlib.Data.List.Perm.Basic

/-!
# Nodes of a Kubernetes cluster (`core/provision/k8s/render.go`, `k8s.go`, `kubectl.go`, `hooks.go`)

`Up` derives the nodes of a cluster from the index of a pod in its StatefulSet, `Nodes` from the names of the pods
that `kubectl` lists, out of which it reads the index back. Left out: what only the rendered manifests use (image,
environment, probes, limits).

* `podOrdinal_podName` : the index is recovered from the name, whatever the cluster is called;
* `live_nodes_agree` : both ways lead to the same nodes.
-/

namespace Proofload.Provision
open Lib

set_option autoImplicit false

/-! ## The code -/

inductive NodeRole where
  | primary
  | replica
  | seed
  | broker
  | generic
deriving DecidableEq

/-- `domain.Node` with its role. -/
structure ClusterNode extends Node where
  role : NodeRole
deriving DecidableEq

/-- The part of `domain.Topology` that the nodes depend on. -/
structure Topology where
  name : String
  target : String
  nodes : I64

structure TargetHook where
  known : Bool
  containerPort : Int
deriving DecidableEq

def genericHook : TargetHook := ⟨false, 8080⟩

/-- `hookFor`, with the table `hooks`. -/
def hookFor (target : String) : TargetHook :=
  if target = "postgresql" then ⟨true, 5432⟩
  else if target = "redis" then ⟨true, 6379⟩
  else if target = "cassandra" then ⟨true, 9042⟩
  else if target = "kafka" then ⟨true, 9092⟩
  else genericHook

structure ManifestModel where
  name : String
  nspace : String
  replicas : Int
  containerPort : Int
  roles : List NodeRole
deriving DecidableEq

def roleFor (hook : TargetHook) (i : Nat) : NodeRole :=
  if hook.known = false then .generic else if i = 0 then .primary else .replica

def namespaceFor (t : Topology) : String := "proofload-" ++ t.name

def buildModel (t : Topology) : ManifestModel :=
  let hook := hookFor t.target
  let n := if t.nodes.val ≤ 0 then 1 else t.nodes.val
  { name := t.name, nspace := namespaceFor t, replicas := n, containerPort := hook.containerPort,
    roles := (List.range n.toNat).map (roleFor hook) }

namespace ManifestModel

def podName (m : ManifestModel) (i : Int) : String := m.name ++ "-" ++ toString i

def resolveClient (m : ManifestModel) (pod : String) : String :=
  s!"{pod}.{m.name}.{m.nspace}.svc.cluster.local:{m.containerPort}"

def controlFor (m : ManifestModel) (pod : String) : ControlEndpoint := ⟨.k8s, pod, m.nspace⟩

def roleAt (m : ManifestModel) (ordinal : Int) : NodeRole :=
  if 0 ≤ ordinal ∧ ordinal < m.roles.length then m.roles.getD ordinal.toNat .generic else .generic

/-- The node of a pod with a role. -/
def node (m : ManifestModel) (pod : String) (role : NodeRole) : ClusterNode :=
  { id := pod, role := role, client := m.resolveClient pod, control := m.controlFor pod }

def nodes (m : ManifestModel) : List ClusterNode :=
  (List.range m.replicas.toNat).map fun i : Nat => m.node (m.podName i) (m.roleAt i)

end ManifestModel

/-- What is read of a pod in the output of `kubectl get pods`. -/
structure PodItem where
  name : String
  phase : String

/-- The number behind the last dash, -1 if there is none. -/
def podOrdinal (name : String) : Int :=
  match splitLast 45 (stringBytes name) with
  | none => -1
  | some (_, []) => -1
  | some (_, digit :: digits) => (parseInt64 (digit :: digits)).getD (-1)

def nodesFromPods (m : ManifestModel) (items : List PodItem) : List ClusterNode :=
  items.map fun it => m.node it.name (m.roleAt (podOrdinal it.name))

/-! ## Names and indices -/

theorem dash_notMem_formatInt {i : Int} (hi : 0 ≤ i) : 45 ∉ formatInt i := by
  rw [formatInt_eq, if_pos hi]
  intro hmem
  have := digitBytes_range hmem
  exact absurd this.1 (by decide)

theorem stringBytes_podName (m : ManifestModel) (i : Int) :
    stringBytes (m.podName i) = stringBytes m.name ++ 45 :: formatInt i := by
  unfold ManifestModel.podName
  rw [stringBytes_append, stringBytes_append, stringBytes_int, List.append_assoc]
  rfl

/-- **The index of a pod is recovered from its name**, dashes and digits in the name of the cluster notwithstanding. -/
theorem podOrdinal_podName (m : ManifestModel) {i : Int} (hi : 0 ≤ i) (hfit : i < 2 ^ 63) :
    podOrdinal (m.podName i) = i := by
  unfold podOrdinal
  rw [stringBytes_podName, splitLast_append _ (dash_notMem_formatInt hi)]
  have hparse := parseInt64_formatInt (n := i) (by omega) hfit
  cases hdigits : formatInt i with
  | nil =>
      rw [hdigits] at hparse
      cases hparse
  | cons digit digits =>
      rw [hdigits] at hparse
      dsimp only
      rw [hparse]
      rfl

/-- **Live nodes agree with the provisioned ones.** For every topology and every order in which `kubectl` lists the
pods of its StatefulSet, the live nodes are the provisioned ones up to that order, each with the name, role, client and
control endpoint that it was provisioned with; and the index of a pod is recovered from its name. -/
theorem live_nodes_agree (t : Topology) (items : List PodItem)
    (hpods : (items.map (·.name)).Perm
      ((List.range (buildModel t).replicas.toNat).map fun i : Nat => (buildModel t).podName i)) :
    (nodesFromPods (buildModel t) items).Perm (buildModel t).nodes ∧
      ∀ i : Int, 0 ≤ i → i < 2 ^ 63 → podOrdinal ((buildModel t).podName i) = i := by
  generalize hm : buildModel t = m at hpods ⊢
  have hfit : m.replicas < 2 ^ 63 := by
    have := t.nodes.lt
    rw [← hm]
    show (if t.nodes.val ≤ 0 then 1 else t.nodes.val) < 2 ^ 63
    split_ifs <;> omega
  refine ⟨?_, fun i => podOrdinal_podName m⟩
  have hlive : nodesFromPods m items =
      (items.map (·.name)).map fun pod => m.node pod (m.roleAt (podOrdinal pod)) := by
    rw [List.map_map]
    rfl
  have hprovisioned : m.nodes = ((List.range m.replicas.toNat).map fun i : Nat => m.podName i).map fun pod =>
      m.node pod (m.roleAt (podOrdinal pod)) := by
    rw [List.map_map]
    apply List.map_congr_left
    intro i hi
    have := List.mem_range.mp hi
    rw [Function.comp_apply, podOrdinal_podName m (by omega) (by omega)]
  rw [hlive, hprovisioned]
  exact hpods.map _

/-- Three Redis nodes whose name looks like a pod name, listed out of order. -/
theorem live_nodes_agree_on_redis :
    (nodesFromPods (buildModel ⟨"cache-7-1", "redis", 3⟩)
        [⟨"cache-7-1-2", "Running"⟩, ⟨"cache-7-1-0", "Running"⟩, ⟨"cache-7-1-1", "Pending"⟩]).Perm
      (buildModel ⟨"cache-7-1", "redis", 3⟩).nodes ∧
    (buildModel ⟨"cache-7-1", "redis", 3⟩).nodes.map (·.role) = [.primary, .replica, .replica] := by
  refine ⟨?_, by decide +kernel⟩
  refine (live_nodes_agree ⟨"cache-7-1", "redis", 3⟩ _ ?_).1
  decide +kernel

example : podOrdinal "cache-7-1-" = -1 ∧ podOrdinal "cache" = -1 ∧ podOrdinal "cache-a1" = -1 := by decide +kernel

end Proofload.Provision
