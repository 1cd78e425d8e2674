import Proofload.Cluster.Coordinator
import Proofload.Lib.Run

/-!
# The control plane (`core/cluster/handlers.go`, `coordinator.go`)

`Serve` and the handlers of any number of `/join` and `/submit` requests, interleaved in any way: a join
registers and then waits for the barrier, for its client to go away or for the shutdown; a submission is
recorded in one step; `Serve` waits for the completion barrier, its context, its timer or the server, and
takes the snapshot after it has told the handlers to stop, while requests may still be served.

* `Safe` : the invariant of a run, kept by every step (`Safe.step`);
* `coordinator_safe` : the guarantees of the coordinator in every reachable state.
-/

namespace Proofload.Cluster
open Lib

set_option autoImplicit false

/-! ## Requests and the server -/

/-- Where a registered join stands. -/
inductive JoinStatus where
  | waiting
  | answered (r : JoinResponse)
  | gone
  | failed (code : Nat) (text : String)
deriving DecidableEq

/-- A served join request: refused at once, or registered under an id. -/
inductive JoinCall where
  | refused (code : Nat) (text : String)
  | registered (id : Int) (status : JoinStatus)
deriving DecidableEq

/-- The reply to a submission. -/
inductive SubmitReply where
  | noContent
  | failed (code : Nat) (text : String)
deriving DecidableEq

/-- A served submission; the body is absent if it does not decode. -/
structure SubmitCall where
  body : Option SubmitRequest
  reply : SubmitReply
deriving DecidableEq

/-- Where `Serve` stands: before the listener is bound, in its `select`, shutting down, and after it. -/
inductive Phase where
  | unbound
  | serving
  | stopping (err : Option String)
  | returned (res : Except String Result)
deriving DecidableEq

structure State where
  coord : Coordinator
  joins : List JoinCall
  submits : List SubmitCall
  phase : Phase

/-- What ends the `select` of `Serve`. -/
inductive Wake where
  | submittedAll
  | ctxDone (err : String)
  | timer
  | serveErr (err : String)

inductive Action where
  | listen
  | listenErr (err : String)
  | join (post : Bool) (body : Option JoinRequest) (now : Int)
  | answer (i : Nat)
  | disconnect (i : Nat)
  | release (i : Nat)
  | submit (post : Bool) (body : Option SubmitRequest)
  | wake (w : Wake)
  | finish

def errIncomplete : String := "cluster: deadline reached before all workers submitted"

def init : State := { coord := newCoordinator, joins := [], submits := [], phase := .unbound }

/-- `handleJoin` up to its `select`. -/
def handleJoin (cfg : Config) (c : Coordinator) (post : Bool) (body : Option JoinRequest) (now : Int) :
    Coordinator × JoinCall :=
  if post = false then (c, .refused 405 "method not allowed")
  else
    match body with
    | none => (c, .refused 400 "bad join body")
    | some req =>
        match c.register cfg req.requestedID now with
        | (c, none) => (c, .refused 409 "cluster full: late join rejected")
        | (c, some id) => (c, .registered id .waiting)

def handleSubmit (cfg : Config) (c : Coordinator) (post : Bool) (body : Option SubmitRequest) :
    Coordinator × SubmitReply :=
  if post = false then (c, .failed 405 "method not allowed")
  else
    match body with
    | none => (c, .failed 400 "bad submit body")
    | some req =>
        match c.recordSubmit cfg req with
        | (c, false) => (c, .failed 409 "unknown worker id")
        | (c, true) => (c, .noContent)

/-- The branches of the `select` of `handleJoin`, for the join call `i` that waits there. -/
def settle (s : State) (i : Nat) (status : Int → JoinStatus) : Option State :=
  match s.joins[i]? with
  | some (.registered id .waiting) => some { s with joins := s.joins.set i (.registered id (status id)) }
  | _ => none

/-- One step of the control plane. -/
def step (cfg : Config) (s : State) : Action → Option State
  | .listen =>
      match s.phase with
      | .unbound => some { s with phase := .serving }
      | _ => none
  | .listenErr err =>
      match s.phase with
      | .unbound => some { s with phase := .returned (.error err) }
      | _ => none
  | .join post body now =>
      match s.phase with
      | .unbound => none
      | _ =>
          let (c, call) := handleJoin cfg s.coord post body now
          some { s with coord := c, joins := s.joins ++ [call] }
  | .answer i =>
      if s.coord.joinedAll then
        settle s i fun id => .answered { workerID := id, spec := cfg.spec, startAt := s.coord.startAt }
      else none
  | .disconnect i => settle s i fun _ => .gone
  | .release i => if s.coord.stop then settle s i fun _ => .failed 503 "coordinator shutting down" else none
  | .submit post body =>
      match s.phase with
      | .unbound => none
      | _ =>
          let (c, reply) := handleSubmit cfg s.coord post body
          some { s with coord := c, submits := s.submits ++ [{ body := body, reply := reply }] }
  | .wake w =>
      match s.phase with
      | .serving =>
          let closing (err : Option String) : State :=
            { s with coord := { s.coord with stop := true }, phase := .stopping err }
          match w with
          | .submittedAll => if s.coord.submittedAll then some (closing none) else none
          | .ctxDone err => some (closing (some err))
          | .timer => some (closing (some errIncomplete))
          | .serveErr err => some (closing (some err))
      | _ => none
  | .finish =>
      match s.phase with
      | .stopping none => some { s with phase := .returned (.ok (s.coord.result cfg)) }
      | .stopping (some err) => some { s with phase := .returned (.error err) }
      | _ => none

/-! ## What a step does -/

section Steps

variable {cfg : Config} {s t : State}

theorem step_join {post : Bool} {body : Option JoinRequest} {now : Int}
    (h : step cfg s (.join post body now) = some t) :
    ∃ c call, handleJoin cfg s.coord post body now = (c, call) ∧
      t = { s with coord := c, joins := s.joins ++ [call] } := by
  simp only [step] at h
  split at h
  · cases h
  · exact ⟨_, _, rfl, (Option.some.inj h).symm⟩

theorem step_submit {post : Bool} {body : Option SubmitRequest} (h : step cfg s (.submit post body) = some t) :
    ∃ c reply, handleSubmit cfg s.coord post body = (c, reply) ∧
      t = { s with coord := c, submits := s.submits ++ [{ body := body, reply := reply }] } := by
  simp only [step] at h
  split at h
  · cases h
  · exact ⟨_, _, rfl, (Option.some.inj h).symm⟩

theorem step_answer {i : Nat} (h : step cfg s (.answer i) = some t) :
    s.coord.joinedAll = true ∧ settle s i (fun id =>
      .answered { workerID := id, spec := cfg.spec, startAt := s.coord.startAt }) = some t := by
  simp only [step] at h
  split_ifs at h with hopen
  exact ⟨hopen, h⟩

theorem step_release {i : Nat} (h : step cfg s (.release i) = some t) :
    settle s i (fun _ => .failed 503 "coordinator shutting down") = some t := by
  simp only [step] at h
  split_ifs at h
  exact h

theorem step_wake {w : Wake} (h : step cfg s (.wake w) = some t) :
    ∃ err, (err = none → s.coord.submittedAll = true) ∧
      t = { s with coord := { s.coord with stop := true }, phase := .stopping err } := by
  simp only [step] at h
  split at h
  · cases w with
    | submittedAll =>
        dsimp only at h
        split_ifs at h with hall
        exact ⟨none, fun _ => hall, (Option.some.inj h).symm⟩
    | ctxDone err => exact ⟨some err, nofun, (Option.some.inj h).symm⟩
    | timer => exact ⟨some errIncomplete, nofun, (Option.some.inj h).symm⟩
    | serveErr err => exact ⟨some err, nofun, (Option.some.inj h).symm⟩
  · cases h

/-- The other steps of `Serve` only move it on, to a result only from behind the completion barrier. -/
theorem step_serve {a : Action} (ha : a = .listen ∨ (∃ err, a = .listenErr err) ∨ a = .finish)
    (h : step cfg s a = some t) :
    ∃ p, t = { s with phase := p } ∧ p ≠ .stopping none ∧
      ∀ res, p = .returned (.ok res) → s.phase = .stopping none ∧ res = s.coord.result cfg := by
  rcases ha with rfl | ⟨err, rfl⟩ | rfl
  · simp only [step] at h
    split at h
    · exact ⟨_, (Option.some.inj h).symm, nofun, nofun⟩
    · cases h
  · simp only [step] at h
    split at h
    · exact ⟨_, (Option.some.inj h).symm, nofun, nofun⟩
    · cases h
  · simp only [step] at h
    split at h
    · next hphase =>
        refine ⟨_, (Option.some.inj h).symm, nofun, fun res hres => ⟨hphase, ?_⟩⟩
        exact (Except.ok.inj (Phase.returned.inj hres)).symm
    · exact ⟨_, (Option.some.inj h).symm, nofun, nofun⟩
    · cases h

end Steps

/-! ## What a run has registered and accepted -/

def JoinCall.id? : JoinCall → Option Int
  | .refused _ _ => none
  | .registered id _ => some id

/-- The submission, if it was accepted. -/
def SubmitCall.accepted? (call : SubmitCall) : Option SubmitRequest :=
  match call.reply with
  | .noContent => call.body
  | .failed _ _ => none

/-- The ids of the registered joins, in the order of registration. -/
def State.assigned (s : State) : List Int := s.joins.filterMap JoinCall.id?

/-- The accepted submissions, in the order of arrival. -/
def State.accepted (s : State) : List SubmitRequest := s.submits.filterMap SubmitCall.accepted?

/-- A join is refused without a trace, or registered while the barrier is closed. -/
theorem handleJoin_cases {cfg : Config} {c c' : Coordinator} {ids : List Int} (h : Joined cfg c ids) {post : Bool}
    {body : Option JoinRequest} {now : Int} {call : JoinCall} (hjoin : handleJoin cfg c post body now = (c', call)) :
    (c' = c ∧ ∃ code text, call = .refused code text) ∨
      (c.joinedAll = false ∧ ∃ requested id, c.register cfg requested now = (c', some id) ∧
        call = .registered id .waiting) := by
  unfold handleJoin at hjoin
  split_ifs at hjoin
  · obtain ⟨rfl, rfl⟩ := Prod.mk.inj hjoin
    exact Or.inl ⟨rfl, _, _, rfl⟩
  · cases body with
    | none =>
        obtain ⟨rfl, rfl⟩ := Prod.mk.inj hjoin
        exact Or.inl ⟨rfl, _, _, rfl⟩
    | some req =>
        dsimp only at hjoin
        rcases hreg : c.register cfg req.requestedID now with ⟨c₁, none | id⟩
        · rw [hreg] at hjoin
          obtain ⟨rfl, rfl⟩ := Prod.mk.inj hjoin
          exact Or.inl ⟨register_rejected hreg, _, _, rfl⟩
        · rw [hreg] at hjoin
          obtain ⟨rfl, rfl⟩ := Prod.mk.inj hjoin
          exact Or.inr ⟨h.closed_of_register hreg, _, id, hreg, rfl⟩

theorem handleSubmit_cases {cfg : Config} {c c' : Coordinator} {post : Bool} {body : Option SubmitRequest}
    {reply : SubmitReply} (hsubmit : handleSubmit cfg c post body = (c', reply)) :
    (c' = c ∧ ∃ code text, reply = .failed code text) ∨
      ∃ req, body = some req ∧ c.recordSubmit cfg req = (c', true) ∧ reply = .noContent := by
  unfold handleSubmit at hsubmit
  split_ifs at hsubmit
  · obtain ⟨rfl, rfl⟩ := Prod.mk.inj hsubmit
    exact Or.inl ⟨rfl, _, _, rfl⟩
  · cases body with
    | none =>
        obtain ⟨rfl, rfl⟩ := Prod.mk.inj hsubmit
        exact Or.inl ⟨rfl, _, _, rfl⟩
    | some req =>
        dsimp only at hsubmit
        rcases hrec : c.recordSubmit cfg req with ⟨c₁, _ | _⟩
        · rw [hrec] at hsubmit
          obtain ⟨rfl, rfl⟩ := Prod.mk.inj hsubmit
          exact Or.inl ⟨recordSubmit_rejected hrec, _, _, rfl⟩
        · rw [hrec] at hsubmit
          obtain ⟨rfl, rfl⟩ := Prod.mk.inj hsubmit
          exact Or.inr ⟨req, rfl, hrec, rfl⟩

theorem settle_eq {s t : State} {i : Nat} {status : Int → JoinStatus} (h : settle s i status = some t) :
    ∃ id, s.joins[i]? = some (.registered id .waiting) ∧
      t = { s with joins := s.joins.set i (.registered id (status id)) } := by
  unfold settle at h
  split at h
  · next id hi => exact ⟨id, hi, (Option.some.inj h).symm⟩
  · cases h

theorem assigned_settle {s t : State} {i : Nat} {status : Int → JoinStatus} (h : settle s i status = some t) :
    t.assigned = s.assigned := by
  obtain ⟨id, hi, rfl⟩ := settle_eq h
  exact filterMap_set JoinCall.id? hi rfl

/-! ## The invariant -/

structure Safe (cfg : Config) (s : State) : Prop where
  joined : Joined cfg s.coord s.assigned
  collected : Collected cfg s.coord s.assigned s.accepted
  answers : ∀ id r, .registered id (.answered r) ∈ s.joins →
    s.coord.joinedAll = true ∧ r = { workerID := id, spec := cfg.spec, startAt := s.coord.startAt }
  stopping : s.phase = .stopping none → s.coord.submittedAll = true
  returned : ∀ res, s.phase = .returned (.ok res) → Complete cfg s.accepted res

namespace Safe

variable {cfg : Config} {s t : State}

theorem init : Safe cfg init where
  joined := Joined.init
  collected := Collected.init
  answers _ _ h := by cases h
  stopping h := by cases h
  returned _ h := by cases h

/-- Joins that leave their `select` keep the invariant, if those that are answered are answered as the
open barrier says. -/
theorem settle (h : Safe cfg s) {i : Nat} {status : Int → JoinStatus} (hsettle : settle s i status = some t)
    (hanswer : ∀ id r, status id = .answered r →
      s.coord.joinedAll = true ∧ r = { workerID := id, spec := cfg.spec, startAt := s.coord.startAt }) :
    Safe cfg t := by
  have hassigned := assigned_settle hsettle
  obtain ⟨id, hi, rfl⟩ := settle_eq hsettle
  refine ⟨hassigned ▸ h.joined, hassigned ▸ h.collected, fun id' r hmem => ?_, h.stopping, h.returned⟩
  rcases List.mem_or_eq_of_mem_set hmem with hmem | heq
  · exact h.answers id' r hmem
  · obtain ⟨rfl, hstatus⟩ := JoinCall.registered.inj heq
    exact hanswer id' r hstatus.symm

theorem join (h : Safe cfg s) {post : Bool} {body : Option JoinRequest} {now : Int} {c : Coordinator} {call : JoinCall}
    (hjoin : handleJoin cfg s.coord post body now = (c, call)) :
    Safe cfg { s with coord := c, joins := s.joins ++ [call] } := by
  rcases handleJoin_cases h.joined hjoin with ⟨rfl, code, text, rfl⟩ | ⟨hclosed, requested, id, hreg, rfl⟩
  · have hassigned : State.assigned { s with joins := s.joins ++ [.refused code text] } = s.assigned := by
      simp [State.assigned, JoinCall.id?]
    refine ⟨hassigned.symm ▸ h.joined, hassigned.symm ▸ h.collected, fun id r hmem => ?_, h.stopping, h.returned⟩
    exact h.answers id r (by simpa using hmem)
  · have hassigned : State.assigned { s with coord := c, joins := s.joins ++ [.registered id .waiting] } =
        s.assigned ++ [id] := by
      simp [State.assigned, JoinCall.id?]
    have hframe := register_frame hreg
    refine ⟨hassigned ▸ h.joined.register hreg, ?_, fun id' r hmem => ?_, fun hphase => ?_, h.returned⟩
    · rw [hassigned]
      exact h.collected.mono (List.subset_append_left _ _) (List.Subset.refl _) hframe
    · have hopen := (h.answers id' r (by simpa using hmem)).1
      rw [hclosed] at hopen
      cases hopen
    · exact hframe.2.2.trans (h.stopping hphase)

theorem submit (h : Safe cfg s) {post : Bool} {body : Option SubmitRequest} {c : Coordinator} {reply : SubmitReply}
    (hsubmit : handleSubmit cfg s.coord post body = (c, reply)) :
    Safe cfg { s with coord := c, submits := s.submits ++ [{ body := body, reply := reply }] } := by
  rcases handleSubmit_cases hsubmit with ⟨rfl, code, text, rfl⟩ | ⟨req, rfl, hrec, rfl⟩
  · have haccepted : State.accepted { s with submits := s.submits ++ [{ body := body, reply := .failed code text }] } =
        s.accepted := by
      simp [State.accepted, SubmitCall.accepted?]
    exact ⟨h.joined, haccepted.symm ▸ h.collected, h.answers, h.stopping, haccepted.symm ▸ h.returned⟩
  · have haccepted : State.accepted { s with coord := c, submits := s.submits ++ [⟨some req, .noContent⟩] } =
        s.accepted ++ [req] := by
      simp [State.accepted, SubmitCall.accepted?]
    have hframe := recordSubmit_frame hrec
    refine ⟨h.joined.congr hframe, haccepted ▸ h.collected.recordSubmit h.joined hrec, fun id r hmem => ?_,
      fun hphase => recordSubmit_submittedAll hrec (h.stopping hphase), fun res hres => ?_⟩
    · dsimp only
      rw [hframe.2.1, hframe.2.2.1]
      exact h.answers id r hmem
    · rw [haccepted]
      exact (h.returned res hres).mono (List.subset_append_left _ _)

theorem phase (h : Safe cfg s) {p : Phase} (hstop : p = .stopping none → s.coord.submittedAll = true)
    (hres : ∀ res, p = .returned (.ok res) → Complete cfg s.accepted res) : Safe cfg { s with phase := p } :=
  ⟨h.joined, h.collected, h.answers, hstop, hres⟩

theorem wake (h : Safe cfg s) {err : Option String} (hall : err = none → s.coord.submittedAll = true) :
    Safe cfg { s with coord := { s.coord with stop := true }, phase := .stopping err } where
  joined := h.joined.congr ⟨rfl, rfl, rfl, rfl⟩
  collected := h.collected.mono (List.Subset.refl _) (List.Subset.refl _) ⟨rfl, rfl, rfl⟩
  answers := h.answers
  stopping hphase := hall (Phase.stopping.inj hphase)
  returned _ hphase := by cases hphase

theorem serve (h : Safe cfg s) {a : Action} (ha : a = .listen ∨ (∃ err, a = .listenErr err) ∨ a = .finish)
    (hstep : step cfg s a = some t) : Safe cfg t := by
  obtain ⟨p, rfl, hstop, hres⟩ := step_serve ha hstep
  refine h.phase (fun hp => absurd hp hstop) fun res hp => ?_
  obtain ⟨hphase, rfl⟩ := hres res hp
  exact h.collected.result (h.stopping hphase)

theorem step (h : Safe cfg s) {a : Action} (hstep : step cfg s a = some t) : Safe cfg t := by
  cases a with
  | listen => exact h.serve (Or.inl rfl) hstep
  | listenErr err => exact h.serve (Or.inr (Or.inl ⟨err, rfl⟩)) hstep
  | finish => exact h.serve (Or.inr (Or.inr rfl)) hstep
  | join post body now =>
      obtain ⟨c, call, hjoin, rfl⟩ := step_join hstep
      exact h.join hjoin
  | submit post body =>
      obtain ⟨c, reply, hsubmit, rfl⟩ := step_submit hstep
      exact h.submit hsubmit
  | answer i =>
      obtain ⟨hopen, hsettle⟩ := step_answer hstep
      exact h.settle hsettle fun id r hr => ⟨hopen, (JoinStatus.answered.inj hr).symm⟩
  | disconnect i => exact h.settle hstep fun _ _ hr => nomatch hr
  | release i => exact h.settle (step_release hstep) fun _ _ hr => nomatch hr
  | wake w =>
      obtain ⟨err, hall, rfl⟩ := step_wake hstep
      exact h.wake hall

end Safe

theorem safe {cfg : Config} {s : State} (h : Reachable (step cfg) init s) : Safe cfg s :=
  h.invariant Safe.init fun _ _ _ hs hstep => hs.step hstep

/-! ## The guarantees -/

namespace Safe

variable {cfg : Config} {s t : State}

theorem join_full (h : Safe cfg s) (hfull : (s.assigned.length : Int) = cfg.workerCount) {post : Bool}
    {body : Option JoinRequest} {now : Int} (hstep : Cluster.step cfg s (.join post body now) = some t) :
    ∃ code text, t = { s with joins := s.joins ++ [.refused code text] } := by
  obtain ⟨c, call, hjoin, rfl⟩ := step_join hstep
  rcases handleJoin_cases h.joined hjoin with ⟨rfl, code, text, rfl⟩ | ⟨-, requested, id, hreg, -⟩
  · exact ⟨code, text, rfl⟩
  · rw [h.joined.register_full hfull] at hreg
    cases hreg

/-- A submission for an id that was never assigned is refused and leaves no trace. -/
theorem submit_unknown (h : Safe cfg s) {post : Bool} {req : SubmitRequest} (hid : req.report.workerID ∉ s.assigned)
    (hstep : Cluster.step cfg s (.submit post (some req)) = some t) :
    ∃ code text, t = { s with submits := s.submits ++ [{ body := some req, reply := .failed code text }] } := by
  obtain ⟨c, reply, hsubmit, rfl⟩ := step_submit hstep
  rcases handleSubmit_cases hsubmit with ⟨rfl, code, text, rfl⟩ | ⟨req', hreq, hrec, -⟩
  · exact ⟨code, text, rfl⟩
  · obtain rfl := Option.some.inj hreq
    rw [h.joined.recordSubmit_unknown hid] at hrec
    cases hrec

theorem startAt_fixed (h : Safe cfg s) {a : Action} (hstep : Cluster.step cfg s a = some t)
    (hset : s.coord.startAt.isSome) : t.coord.startAt = s.coord.startAt := by
  have hopen : s.coord.joinedAll = true := h.joined.startAt ▸ hset
  have hsettle : ∀ {i status}, Cluster.settle s i status = some t → t.coord.startAt = s.coord.startAt := by
    intro i status hs
    obtain ⟨id, -, rfl⟩ := settle_eq hs
    rfl
  have hserve : (a = .listen ∨ (∃ err, a = .listenErr err) ∨ a = .finish) → t.coord.startAt = s.coord.startAt := by
    intro ha
    obtain ⟨p, rfl, -⟩ := step_serve ha hstep
    rfl
  cases a with
  | listen => exact hserve (Or.inl rfl)
  | listenErr err => exact hserve (Or.inr (Or.inl ⟨err, rfl⟩))
  | finish => exact hserve (Or.inr (Or.inr rfl))
  | join post body now =>
      obtain ⟨code, text, rfl⟩ := h.join_full (h.joined.opened hopen) hstep
      rfl
  | submit post body =>
      obtain ⟨c, reply, hsubmit, rfl⟩ := step_submit hstep
      rcases handleSubmit_cases hsubmit with ⟨rfl, -⟩ | ⟨req, -, hrec, -⟩
      · rfl
      · exact (recordSubmit_frame hrec).2.1
  | answer i => exact hsettle (step_answer hstep).2
  | disconnect i => exact hsettle hstep
  | release i => exact hsettle (step_release hstep)
  | wake w =>
      obtain ⟨err, -, rfl⟩ := step_wake hstep
      rfl

end Safe

/-- **Safety of the coordinator**, in every reachable state: the assigned ids are distinct slots; a join is
answered only when all slots are assigned, always with the same spec and start time, and the start time never
changes once it is set; then further joins are refused; a submission for an unassigned id is refused; and a
successful `Serve` returns one report for every id, in the order of the ids, each with the histogram of its
own submission. -/
theorem coordinator_safe {cfg : Config} {s : State} (h : Reachable (step cfg) init s) :
    (s.assigned.Nodup ∧ ∀ id ∈ s.assigned, 0 ≤ id ∧ id < cfg.workerCount) ∧
    (∀ id r, .registered id (.answered r) ∈ s.joins → (s.assigned.length : Int) = cfg.workerCount ∧
      s.coord.startAt.isSome ∧ r = { workerID := id, spec := cfg.spec, startAt := s.coord.startAt }) ∧
    (∀ a t, step cfg s a = some t → s.coord.startAt.isSome → t.coord.startAt = s.coord.startAt) ∧
    ((s.assigned.length : Int) = cfg.workerCount → ∀ post body now t, step cfg s (.join post body now) = some t →
      ∃ code text, t = { s with joins := s.joins ++ [.refused code text] }) ∧
    (∀ post req t, req.report.workerID ∉ s.assigned → step cfg s (.submit post (some req)) = some t →
      ∃ code text, t = { s with submits := s.submits ++ [{ body := some req, reply := .failed code text }] }) ∧
    (∀ res, s.phase = .returned (.ok res) → (res.reports.length : Int) = cfg.workerCount ∧
      (res.histograms.length : Int) = cfg.workerCount ∧
      ∀ i : Nat, (i : Int) < cfg.workerCount → ∃ req ∈ s.accepted, req.report.workerID = i ∧
        res.reports[i]? = some req.report ∧ res.histograms[i]? = some req.histogram) := by
  have hsafe := safe h
  refine ⟨⟨hsafe.joined.nodup, hsafe.joined.range⟩, fun id r hmem => ?_, fun _ _ => hsafe.startAt_fixed,
    fun hfull _ _ _ _ => hsafe.join_full hfull, fun _ _ _ hid => hsafe.submit_unknown hid, fun res hres => ?_⟩
  · obtain ⟨hopen, hr⟩ := hsafe.answers id r hmem
    exact ⟨hsafe.joined.opened hopen, hsafe.joined.startAt ▸ hopen, hr⟩
  · have hcomplete := hsafe.returned res hres
    exact ⟨hcomplete.reports, hcomplete.histograms, hcomplete.aligned⟩

/-- Two workers, started as the CLI does. -/
def twoWorkers : Config :=
  { spec := { target := "postgresql", workload := "oltp", endpoints := ["db:5432"], consistency := "", connections := 4,
              warmup := 0, duration := 60000000000, rateOpsPerSec := 0, seed := 42, workerCount := 2 }
    workerCount := 2, startLead := defaultStartLead }

/-- A submission with `total` operations and a one-byte histogram. -/
def submission (id total : Int) (blob : UInt8) : SubmitRequest :=
  { report := { workerID := id, total := total, errors := 0, clientBound := false }, histogram := [blob] }

/-- Two joins that ask for the same id, a late one, an unknown id, and a worker that submits again while
`Serve` shuts down. -/
def contendedRun : List Action :=
  [.listen, .join true (some ⟨0⟩) 10, .submit true (some (submission 1 5 1)), .join true (some ⟨0⟩) 20,
    .join true (some ⟨-1⟩) 30, .answer 1, .answer 0, .submit true (some (submission 7 6 2)),
    .submit true (some (submission 1 7 3)), .submit true (some (submission 0 8 4)), .wake .submittedAll,
    .submit true (some (submission 0 9 5)), .finish]

/-- The late submission has replaced both the report and the histogram of worker 0. -/
def contendedResult : Result :=
  { reports := [(submission 0 9 5).report, (submission 1 7 3).report], histograms := [[5], [3]] }

theorem coordinator_safe_on_contended_run :
    ∃ s, Reachable (step twoWorkers) init s ∧ s.phase = .returned (.ok contendedResult) ∧ s.assigned = [0, 1] ∧
      ∀ i : Nat, (i : Int) < 2 → ∃ req ∈ s.accepted, req.report.workerID = i ∧
        contendedResult.reports[i]? = some req.report ∧ contendedResult.histograms[i]? = some req.histogram := by
  have hrun : ∃ s, Reachable (step twoWorkers) init s ∧
      s.phase = .returned (.ok contendedResult) ∧ s.assigned = [0, 1] :=
    exists_reachable contendedRun (by decide +kernel)
  obtain ⟨s, hreach, hphase, hassigned⟩ := hrun
  exact ⟨s, hreach, hphase, hassigned, ((coordinator_safe hreach).2.2.2.2.2 _ hphase).2.2⟩

end Proofload.Cluster
