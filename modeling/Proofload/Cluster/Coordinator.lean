import Proofload.Domain
import Proofload.Lib.Lists

/-!
# The coordinator's registers (`core/cluster/protocol.go`, `coordinator.go`, `handlers.go`)

The fields of `Coordinator` that its lock guards, and the three functions that run under the lock:
`register` assigns a worker id and opens the join barrier, `recordSubmit` stores a submission and opens
the completion barrier, `result` takes the snapshot.

* `Joined` : the registered ids and the join barrier, kept by `Joined.register`;
* `Joined.register_full` : a full cluster registers nobody;
* `Collected` : the stored submissions and the completion barrier, kept by `Collected.recordSubmit`;
* `Collected.result` : the snapshot after the completion barrier.
-/

namespace Proofload.Cluster
open Lib

set_option autoImplicit false

/-! ## Messages -/

/-- The load definition that the coordinator broadcasts. -/
structure RunSpec where
  target : String
  workload : String
  endpoints : List String
  consistency : String
  connections : Int
  warmup : I64
  duration : I64
  rateOpsPerSec : Int
  seed : I64
  workerCount : Int
deriving DecidableEq

structure WorkerReport where
  workerID : Int
  total : Int
  errors : Int
  clientBound : Bool
deriving DecidableEq

structure Result where
  reports : List WorkerReport
  histograms : List Bytes
deriving DecidableEq

structure JoinRequest where
  requestedID : Int
deriving DecidableEq

/-- `startAt` is an instant in nanoseconds, `none` the zero time. -/
structure JoinResponse where
  workerID : Int
  spec : RunSpec
  startAt : Option Int
deriving DecidableEq

structure SubmitRequest where
  report : WorkerReport
  histogram : Bytes
deriving DecidableEq

/-! ## The coordinator -/

/-- What is set before `Serve`. -/
structure Config where
  spec : RunSpec
  workerCount : Int
  startLead : Int

/-- The guarded fields. `joinedAll`, `submittedAll` and `stop` tell whether the channel is closed,
`joinOnce` and `submitOnce` whether the `sync.Once` has fired. -/
structure Coordinator where
  joined : Map Int Bool
  startAt : Option Int
  reports : Map Int WorkerReport
  histos : Map Int Bytes
  joinedAll : Bool
  submittedAll : Bool
  stop : Bool
  joinOnce : Bool
  submitOnce : Bool

def newCoordinator : Coordinator :=
  { joined := ∅, startAt := none, reports := ∅, histos := ∅, joinedAll := false, submittedAll := false, stop := false,
    joinOnce := false, submitOnce := false }

def defaultStartLead : Int := 500000000

def Config.lead (cfg : Config) : Int := if cfg.startLead ≤ 0 then defaultStartLead else cfg.startLead

namespace Coordinator

variable (cfg : Config) (c : Coordinator)

/-- The map access `c.joined[id]`. -/
def isJoined (id : Int) : Bool := (c.joined.lookup id).getD false

/-- The id for a join request: the requested one if it is free and in range, else the lowest free slot. -/
def assign (requested : Int) : Option Int :=
  if 0 ≤ requested ∧ requested < cfg.workerCount ∧ c.isJoined requested = false then some requested
  else ((List.range cfg.workerCount.toNat).map Int.ofNat).find? fun i => !c.isJoined i

def register (requested now : Int) : Coordinator × Option Int :=
  match c.assign cfg requested with
  | none => (c, none)
  | some id =>
      let c := { c with joined := c.joined.insert id true }
      if c.joined.keys.length = cfg.workerCount ∧ c.joinOnce = false then
        ({ c with joinOnce := true, startAt := some (now + cfg.lead), joinedAll := true }, some id)
      else (c, some id)

def recordSubmit (req : SubmitRequest) : Coordinator × Bool :=
  if c.isJoined req.report.workerID = false then (c, false)
  else
    let c := { c with
      reports := c.reports.insert req.report.workerID req.report
      histos := c.histos.insert req.report.workerID req.histogram }
    if c.reports.keys.length = cfg.workerCount ∧ c.submitOnce = false then
      ({ c with submitOnce := true, submittedAll := true }, true)
    else (c, true)

def result : Result :=
  ((List.range cfg.workerCount.toNat).map Int.ofNat).foldl (fun res i =>
    match c.reports.lookup i with
    | none => res
    | some rep =>
        { reports := res.reports ++ [rep], histograms := res.histograms ++ [(c.histos.lookup i).getD []] })
    { reports := [], histograms := [] }

end Coordinator

/-! ## The join barrier -/

/-- The coordinator has registered the ids `ids`. -/
structure Joined (cfg : Config) (c : Coordinator) (ids : List Int) : Prop where
  isJoined : ∀ id, c.isJoined id = true ↔ id ∈ ids
  keys : c.joined.keys.Perm ids
  range : ∀ id ∈ ids, 0 ≤ id ∧ id < cfg.workerCount
  opened : c.joinedAll = true → (ids.length : Int) = cfg.workerCount
  once : c.joinOnce = c.joinedAll
  startAt : c.startAt.isSome = c.joinedAll

namespace Joined

variable {cfg : Config} {c : Coordinator} {ids : List Int}

theorem nodup (h : Joined cfg c ids) : ids.Nodup := h.keys.nodup_iff.mp (AList.keys_nodup c.joined)

theorem init : Joined cfg newCoordinator [] where
  isJoined _ := by simp [Coordinator.isJoined, newCoordinator]
  keys := List.Perm.refl _
  range := by simp
  opened h := by cases h
  once := rfl
  startAt := rfl

theorem assign (h : Joined cfg c ids) {requested id : Int} (hid : c.assign cfg requested = some id) :
    id ∉ ids ∧ 0 ≤ id ∧ id < cfg.workerCount := by
  rw [← h.isJoined]
  unfold Coordinator.assign at hid
  split_ifs at hid with hreq
  · obtain rfl := Option.some.inj hid
    exact ⟨by simp [hreq.2.2], hreq.1, hreq.2.1⟩
  · have hfree := List.find?_some hid
    obtain ⟨i, hi, rfl⟩ := List.mem_map.mp (List.mem_of_find?_eq_some hid)
    rw [List.mem_range] at hi
    refine ⟨by simpa using hfree, Int.natCast_nonneg i, ?_⟩
    rw [Int.ofNat_eq_natCast]
    omega

/-- **A full cluster registers nobody.** -/
theorem register_full (h : Joined cfg c ids) (hfull : (ids.length : Int) = cfg.workerCount) (requested now : Int) :
    c.register cfg requested now = (c, none) := by
  have hnone : c.assign cfg requested = none := by
    cases hassign : c.assign cfg requested with
    | none => rfl
    | some id =>
        obtain ⟨hfree, h₀, hn⟩ := h.assign hassign
        exact absurd (mem_of_full h.nodup h.range hfull h₀ hn) hfree
  simp [Coordinator.register, hnone]

theorem enter (h : Joined cfg c ids) {id : Int} (hfree : id ∉ ids) :
    (∀ x, ({ c with joined := c.joined.insert id true } : Coordinator).isJoined x = true ↔ x ∈ ids ++ [id]) ∧
      (c.joined.insert id true).keys.Perm (ids ++ [id]) := by
  constructor
  · intro x
    simp only [Coordinator.isJoined, Map.lookup_insert_eq, List.mem_append, List.mem_singleton, ← h.isJoined]
    split_ifs with hx
    · simp [hx]
    · simp [hx]
  · have hkeys : id ∉ c.joined.keys := fun hk => hfree (h.keys.mem_iff.mp hk)
    rw [AList.keys_insert, List.erase_of_not_mem hkeys]
    exact (h.keys.cons id).trans (List.perm_append_singleton id ids).symm

theorem closed_of_register (h : Joined cfg c ids) {requested now id : Int} {c' : Coordinator}
    (hreg : c.register cfg requested now = (c', some id)) : c.joinedAll = false := by
  by_contra hopen
  rw [Bool.not_eq_false] at hopen
  rw [h.register_full (h.opened hopen)] at hreg
  cases hreg

/-- A registration adds one id, opens the barrier with the last one and fixes the start time then. -/
theorem register (h : Joined cfg c ids) {requested now id : Int} {c' : Coordinator}
    (hreg : c.register cfg requested now = (c', some id)) : Joined cfg c' (ids ++ [id]) := by
  have hclosed := h.closed_of_register hreg
  unfold Coordinator.register at hreg
  cases hassign : c.assign cfg requested with
  | none => simp [hassign] at hreg
  | some id' =>
      obtain ⟨hfree, hin⟩ := h.assign hassign
      obtain ⟨hjoined, hkeys⟩ := h.enter hfree
      have hrange : ∀ x ∈ ids ++ [id'], 0 ≤ x ∧ x < cfg.workerCount := by
        simpa [or_imp, forall_and] using ⟨⟨fun x hx => (h.range x hx).1, hin.1⟩, fun x hx => (h.range x hx).2, hin.2⟩
      simp only [hassign] at hreg
      split_ifs at hreg with hlast
      · obtain ⟨rfl, hid⟩ := Prod.mk.inj hreg
        obtain rfl := Option.some.inj hid
        exact ⟨hjoined, hkeys, hrange, fun _ => hkeys.length_eq ▸ hlast.1, rfl, rfl⟩
      · obtain ⟨rfl, hid⟩ := Prod.mk.inj hreg
        obtain rfl := Option.some.inj hid
        exact ⟨hjoined, hkeys, hrange, fun hopen => absurd hopen (by simp [hclosed]), h.once, h.startAt⟩

theorem congr (h : Joined cfg c ids) {c' : Coordinator}
    (hframe : c'.joined = c.joined ∧ c'.startAt = c.startAt ∧ c'.joinedAll = c.joinedAll ∧ c'.joinOnce = c.joinOnce) :
    Joined cfg c' ids := by
  obtain ⟨hjoined, hstart, hall, honce⟩ := hframe
  refine ⟨?_, hjoined ▸ h.keys, h.range, hall ▸ h.opened, ?_, ?_⟩
  · simpa only [Coordinator.isJoined, hjoined] using h.isJoined
  · rw [honce, hall, h.once]
  · rw [hstart, hall, h.startAt]

/-- A submission of an id that was never assigned is rejected and changes nothing. -/
theorem recordSubmit_unknown (h : Joined cfg c ids) {req : SubmitRequest} (hid : req.report.workerID ∉ ids) :
    c.recordSubmit cfg req = (c, false) := by
  have hunknown : c.isJoined req.report.workerID = false := by
    rw [← Bool.not_eq_true, h.isJoined]
    exact hid
  simp [Coordinator.recordSubmit, hunknown]

end Joined

theorem recordSubmit_frame {cfg : Config} {c c' : Coordinator} {req : SubmitRequest} {ok : Bool}
    (h : c.recordSubmit cfg req = (c', ok)) :
    c'.joined = c.joined ∧ c'.startAt = c.startAt ∧ c'.joinedAll = c.joinedAll ∧ c'.joinOnce = c.joinOnce := by
  simp only [Coordinator.recordSubmit] at h
  split_ifs at h <;> obtain rfl := (Prod.mk.inj h).1 <;> exact ⟨rfl, rfl, rfl, rfl⟩

theorem recordSubmit_submittedAll {cfg : Config} {c c' : Coordinator} {req : SubmitRequest} {ok : Bool}
    (h : c.recordSubmit cfg req = (c', ok)) (hall : c.submittedAll = true) : c'.submittedAll = true := by
  simp only [Coordinator.recordSubmit] at h
  split_ifs at h <;> obtain rfl := (Prod.mk.inj h).1
  · exact hall
  · rfl
  · exact hall

theorem recordSubmit_rejected {cfg : Config} {c c' : Coordinator} {req : SubmitRequest}
    (h : c.recordSubmit cfg req = (c', false)) : c' = c := by
  simp only [Coordinator.recordSubmit] at h
  split_ifs at h <;> simp_all

theorem register_rejected {cfg : Config} {c c' : Coordinator} {requested now : Int}
    (h : c.register cfg requested now = (c', none)) : c' = c := by
  unfold Coordinator.register at h
  cases hassign : c.assign cfg requested with
  | none =>
      simp only [hassign] at h
      exact (Prod.mk.inj h).1.symm
  | some id =>
      simp only [hassign] at h
      split_ifs at h <;> cases (Prod.mk.inj h).2

theorem register_frame {cfg : Config} {c c' : Coordinator} {requested now : Int} {id : Option Int}
    (h : c.register cfg requested now = (c', id)) :
    c'.reports = c.reports ∧ c'.histos = c.histos ∧ c'.submittedAll = c.submittedAll := by
  unfold Coordinator.register at h
  cases hassign : c.assign cfg requested with
  | none =>
      simp only [hassign] at h
      obtain rfl := (Prod.mk.inj h).1
      exact ⟨rfl, rfl, rfl⟩
  | some id' =>
      simp only [hassign] at h
      split_ifs at h <;> obtain rfl := (Prod.mk.inj h).1 <;> exact ⟨rfl, rfl, rfl⟩

/-! ## The completion barrier -/

/-- The coordinator has stored submissions out of `accepted`, each under its own id. -/
structure Collected (cfg : Config) (c : Coordinator) (ids : List Int) (accepted : List SubmitRequest) : Prop where
  stored : ∀ i rep, c.reports.lookup i = some rep →
    i ∈ ids ∧ ∃ req ∈ accepted, req.report = rep ∧ rep.workerID = i ∧ c.histos.lookup i = some req.histogram
  complete : c.submittedAll = true →
    0 ≤ cfg.workerCount ∧ ∀ i, 0 ≤ i → i < cfg.workerCount → (c.reports.lookup i).isSome

/-- A complete result: one submission for every id, in the order of the ids. -/
structure Complete (cfg : Config) (accepted : List SubmitRequest) (res : Result) : Prop where
  reports : (res.reports.length : Int) = cfg.workerCount
  histograms : (res.histograms.length : Int) = cfg.workerCount
  aligned : ∀ i : Nat, (i : Int) < cfg.workerCount → ∃ req ∈ accepted, req.report.workerID = i ∧
    res.reports[i]? = some req.report ∧ res.histograms[i]? = some req.histogram

theorem Complete.mono {cfg : Config} {accepted accepted' : List SubmitRequest} {res : Result}
    (h : Complete cfg accepted res) (hsub : accepted ⊆ accepted') : Complete cfg accepted' res :=
  ⟨h.reports, h.histograms, fun i hi => by
    obtain ⟨req, hreq, haligned⟩ := h.aligned i hi
    exact ⟨req, hsub hreq, haligned⟩⟩

namespace Collected

variable {cfg : Config} {c : Coordinator} {ids : List Int} {accepted : List SubmitRequest}

theorem init : Collected cfg newCoordinator [] [] where
  stored i rep h := by simp [newCoordinator] at h
  complete h := by cases h

theorem mono (h : Collected cfg c ids accepted) {c' : Coordinator} {ids' : List Int} {accepted' : List SubmitRequest}
    (hids : ids ⊆ ids') (haccepted : accepted ⊆ accepted')
    (hframe : c'.reports = c.reports ∧ c'.histos = c.histos ∧ c'.submittedAll = c.submittedAll) :
    Collected cfg c' ids' accepted' where
  stored i rep hrep := by
    rw [hframe.1] at hrep
    obtain ⟨hi, req, hreq, hsame⟩ := h.stored i rep hrep
    rw [hframe.2.1]
    exact ⟨hids hi, req, haccepted hreq, hsame⟩
  complete hall := by
    rw [hframe.2.2] at hall
    rw [hframe.1]
    exact h.complete hall

theorem store (h : Collected cfg c ids accepted) {req : SubmitRequest} (hid : req.report.workerID ∈ ids) (i : Int)
    (rep : WorkerReport) (hrep : (c.reports.insert req.report.workerID req.report).lookup i = some rep) :
    i ∈ ids ∧ ∃ req' ∈ accepted ++ [req], req'.report = rep ∧ rep.workerID = i ∧
      (c.histos.insert req.report.workerID req.histogram).lookup i = some req'.histogram := by
  rw [Map.lookup_insert_eq] at hrep ⊢
  split_ifs at hrep with hi
  · obtain rfl := Option.some.inj hrep
    exact ⟨hi ▸ hid, req, by simp, rfl, hi.symm, if_pos hi⟩
  · obtain ⟨hmem, req', hreq', hsame, hwid, hhist⟩ := h.stored i rep hrep
    exact ⟨hmem, req', List.mem_append_left _ hreq', hsame, hwid, by rw [if_neg hi, hhist]⟩

/-- A submission of a registered id is stored, and with the last missing one the barrier opens. -/
theorem recordSubmit (h : Collected cfg c ids accepted) (hjoined : Joined cfg c ids) {req : SubmitRequest}
    {c' : Coordinator} (hsub : c.recordSubmit cfg req = (c', true)) : Collected cfg c' ids (accepted ++ [req]) := by
  by_cases hunknown : c.isJoined req.report.workerID = false
  · simp [Coordinator.recordSubmit, hunknown] at hsub
  have hid : req.report.workerID ∈ ids := (hjoined.isJoined _).mp (by simpa using hunknown)
  simp only [Coordinator.recordSubmit, if_neg hunknown] at hsub
  split_ifs at hsub with hlast
  · obtain rfl := (Prod.mk.inj hsub).1
    refine ⟨h.store hid, fun _ => ⟨by omega, fun i h₀ hn => ?_⟩⟩
    rw [← Map.mem_keys_iff]
    refine mem_of_full (AList.keys_nodup _) (fun k hk => ?_) hlast.1 h₀ hn
    obtain ⟨rep, hrep⟩ := Option.isSome_iff_exists.mp ((Map.mem_keys_iff _ _).mp hk)
    exact hjoined.range k (h.store hid k rep hrep).1
  · obtain rfl := (Prod.mk.inj hsub).1
    refine ⟨h.store hid, fun hall => ⟨(h.complete hall).1, fun i h₀ hn => ?_⟩⟩
    rw [Map.lookup_insert_eq]
    split_ifs
    · rfl
    · exact (h.complete hall).2 i h₀ hn

end Collected

theorem foldl_result (c : Coordinator) (sub : Int → SubmitRequest) (is : List Int)
    (h : ∀ i ∈ is, c.reports.lookup i = some (sub i).report ∧ c.histos.lookup i = some (sub i).histogram)
    (res : Result) :
    is.foldl (fun res i =>
      match c.reports.lookup i with
      | none => res
      | some rep =>
          { reports := res.reports ++ [rep], histograms := res.histograms ++ [(c.histos.lookup i).getD []] }) res =
      { reports := res.reports ++ is.map fun i => (sub i).report
        histograms := res.histograms ++ is.map fun i => (sub i).histogram } := by
  induction is generalizing res with
  | nil => simp
  | cons i is ih =>
      rw [List.forall_mem_cons] at h
      rw [List.foldl_cons, ih h.2, h.1.1, h.1.2]
      simp

/-- **The snapshot behind the completion barrier is complete.** -/
theorem Collected.result {cfg : Config} {c : Coordinator} {ids : List Int} {accepted : List SubmitRequest}
    (h : Collected cfg c ids accepted) (hall : c.submittedAll = true) : Complete cfg accepted (c.result cfg) := by
  obtain ⟨hN, hsome⟩ := h.complete hall
  have hsub : ∀ i, ∃ req : SubmitRequest, 0 ≤ i ∧ i < cfg.workerCount → req ∈ accepted ∧ req.report.workerID = i ∧
      c.reports.lookup i = some req.report ∧ c.histos.lookup i = some req.histogram := by
    intro i
    by_cases hi : 0 ≤ i ∧ i < cfg.workerCount
    · obtain ⟨rep, hrep⟩ := Option.isSome_iff_exists.mp (hsome i hi.1 hi.2)
      obtain ⟨-, req, hreq, rfl, hwid, hhist⟩ := h.stored i rep hrep
      exact ⟨req, fun _ => ⟨hreq, hwid, hrep, hhist⟩⟩
    · exact ⟨{ report := { workerID := 0, total := 0, errors := 0, clientBound := false }, histogram := [] },
        fun h => absurd h hi⟩
  choose sub hsub using hsub
  have hslots : ∀ i ∈ (List.range cfg.workerCount.toNat).map Int.ofNat, 0 ≤ i ∧ i < cfg.workerCount := by
    intro i hi
    obtain ⟨j, hj, rfl⟩ := List.mem_map.mp hi
    rw [List.mem_range] at hj
    exact ⟨Int.natCast_nonneg j, by rw [Int.ofNat_eq_natCast]; omega⟩
  have hres := foldl_result c sub _ (fun i hi => (hsub i (hslots i hi)).2.2) { reports := [], histograms := [] }
  rw [Coordinator.result, hres]
  refine ⟨by simpa using hN, by simpa using hN, fun i hi => ?_⟩
  obtain ⟨hreq, hwid, -, -⟩ := hsub i ⟨Int.natCast_nonneg i, hi⟩
  have hlt : i < cfg.workerCount.toNat := by omega
  exact ⟨sub i, hreq, hwid, by simp [hlt], by simp [hlt]⟩

end Proofload.Cluster
