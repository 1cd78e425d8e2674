import Proofload.Cli.MergeResults
import Proofload.Cluster.Barrier
import Mathlib.Algebra.BigOperators.Group.List.Basic
import Mathlib.Algebra.Ring.Int.Defs

/-!
# A distributed run (`core/cli/distributed.go`, `core/cluster/worker.go`)

The coordinator and any number of worker processes, each of which runs `doWorker`: it joins, drives its load, encodes
its Recorder and submits it. Requests and replies travel at their own pace, a process may fail or be killed at any
point, and a reply may never arrive. `sent` is the history of the submissions; nothing reads it.

* `Wired` : how the processes, the join calls of the coordinator and the submissions belong together;
* `Wired.sent_order` : the result of a successful `Serve` are the submissions, in the order of the ids;
* `distributed_run_exact` : no submission is lost, counted twice or taken from a process that did not finish.
-/

namespace Proofload.Cli.Distributed
open Lib Metrics

set_option autoImplicit false

/-! ## The code -/

/-- `resp.Status` of the replies that the coordinator gives. -/
def httpStatus (code : Nat) : String :=
  if code = 400 then "400 Bad Request"
  else if code = 405 then "405 Method Not Allowed"
  else if code = 409 then "409 Conflict"
  else if code = 503 then "503 Service Unavailable"
  else toString code

/-- The error of `post` for a status from 300 on. -/
def postError (path : String) (code : Nat) (text : String) : String :=
  s!"cluster: {path}: {httpStatus code}: {text}"

/-- The reply to a join, once there is one. -/
def joinReply : Cluster.JoinCall → Option (Except String Cluster.JoinResponse)
  | .refused code text => some (.error (postError "/join" code text))
  | .registered _ (.answered r) => some (.ok r)
  | .registered _ (.failed code text) => some (.error (postError "/join" code text))
  | .registered _ .waiting => none
  | .registered _ .gone => none

/-- Where a worker process stands: in `Join`, in `drive`, in `Submit`, or behind `doWorker`. -/
inductive Process where
  | unlaunched
  | joining (call : Nat)
  | running (call : Nat) (id : Int)
  | submitting (call : Nat)
  | exited (err : Option String)
deriving DecidableEq

/-- A call of `Submit`: the process, its join call and id, what its Recorder recorded, and the encoded Recorder. -/
structure Submission where
  process : Nat
  call : Nat
  id : Int
  ops : List Act
  report : RunReport
  blob : Bytes

def Submission.request (x : Submission) : Cluster.SubmitRequest :=
  { report :=
      { workerID := x.id, total := x.report.total, errors := x.report.errors, clientBound := x.report.clientBound }
    histogram := x.blob }

structure Deployment where
  coord : Cluster.State
  process : Nat → Process
  sent : List Submission

/-- A worker that submits walks the maps of its Recorder in the order `o`. -/
inductive Event where
  | coordinator (a : Cluster.Action)
  | launch (p : Nat) (requested now : Int)
  | joined (p : Nat)
  | submit (p : Nat) (ops : List Act) (report : RunReport) (o : IterOrder OpType)
  | replied (p : Nat)
  | fail (p : Nat) (err : String)

/-- The actions of the coordinator that are not requests. -/
def internal : Cluster.Action → Bool
  | .join .. => false
  | .submit .. => false
  | _ => true

def Deployment.init : Deployment := { coord := Cluster.init, process := fun _ => .unlaunched, sent := [] }

def Deployment.exit (w : Deployment) (p : Nat) (err : Option String) : Deployment :=
  { w with process := Function.update w.process p (.exited err) }

/-- One step of a worker process or of the coordinator. -/
def Deployment.step (D : Hdr) (cfg : Cluster.Config) (w : Deployment) :
    Event → Option Deployment
  | .coordinator a =>
      if internal a then (Cluster.step cfg w.coord a).map fun c => { w with coord := c } else none
  | .launch p requested now =>
      match w.process p with
      | .unlaunched => (Cluster.step cfg w.coord (.join true (some ⟨requested⟩) now)).map fun c =>
          { w with coord := c, process := Function.update w.process p (.joining w.coord.joins.length) }
      | _ => none
  | .joined p =>
      match w.process p with
      | .joining call =>
          match w.coord.joins[call]?.bind joinReply with
          | some (.ok r) => some { w with process := Function.update w.process p (.running call r.workerID) }
          | some (.error e) => some (w.exit p (some s!"join coordinator: {e}"))
          | none => none
      | _ => none
  | .submit p ops report o =>
      match w.process p with
      | .running call id =>
          match run Recorder.act (Metrics.new D.toLayout ⟨0, 0⟩) ops with
          | none => none
          | some r =>
              match r.encode D o with
              | .error e => some (w.exit p (some s!"encode histogram: {e}"))
              | .ok blob =>
                  let x : Submission := { process := p, call, id, ops, report, blob }
                  (Cluster.step cfg w.coord (.submit true (some x.request))).map fun c =>
                    { coord := c, process := Function.update w.process p (.submitting w.coord.submits.length)
                      sent := w.sent ++ [x] }
      | _ => none
  | .replied p =>
      match w.process p with
      | .submitting call =>
          match w.coord.submits[call]? with
          | some ⟨_, .noContent⟩ => some (w.exit p none)
          | some ⟨_, .failed code text⟩ =>
              some (w.exit p (some ("submit results: " ++ postError "/submit" code text)))
          | none => none
      | _ => none
  | .fail p err =>
      match w.process p with
      | .unlaunched => none
      | .exited _ => none
      | _ => some (w.exit p (some err))

/-! ## Steps of the coordinator -/

/-- What a step of the coordinator leaves: answered joins stay, and only `extra` is newly accepted. -/
structure Grown (c c' : Cluster.State) (extra : List Cluster.SubmitRequest) : Prop where
  answered : ∀ (i : Nat) id r, c.joins[i]? = some (.registered id (.answered r)) →
    c'.joins[i]? = some (.registered id (.answered r))
  length : c.joins.length ≤ c'.joins.length
  accepted : c'.accepted ⊆ c.accepted ++ extra

section Coordinator
variable {cfg : Cluster.Config} {c c' : Cluster.State}

theorem grown_of_settle {i : Nat} {status : Int → Cluster.JoinStatus} (h : Cluster.settle c i status = some c') :
    Grown c c' [] := by
  obtain ⟨id, hi, rfl⟩ := Cluster.settle_eq h
  refine ⟨fun j id' r hj => ?_, by simp, fun req hreq => List.mem_append_left _ hreq⟩
  have hne : i ≠ j := by
    rintro rfl
    rw [hi] at hj
    cases hj
  exact (List.getElem?_set_ne hne).trans hj

theorem grown_of_internal {a : Cluster.Action} (ha : internal a = true) (h : Cluster.step cfg c a = some c') :
    Grown c c' [] := by
  have hsame : ∀ {p : Cluster.Phase} {k : Cluster.Coordinator}, Grown c { c with coord := k, phase := p } [] :=
    ⟨fun _ _ _ h => h, le_refl _, fun req hreq => List.mem_append_left _ hreq⟩
  have hserve : ∀ {a : Cluster.Action}, a = .listen ∨ (∃ err, a = .listenErr err) ∨ a = .finish →
      Cluster.step cfg c a = some c' → Grown c c' [] := by
    intro a ha h
    obtain ⟨p, rfl, -⟩ := Cluster.step_serve ha h
    exact hsame
  cases a with
  | listen => exact hserve (Or.inl rfl) h
  | listenErr err => exact hserve (Or.inr (Or.inl ⟨err, rfl⟩)) h
  | finish => exact hserve (Or.inr (Or.inr rfl)) h
  | join post body now => cases ha
  | submit post body => cases ha
  | answer i => exact grown_of_settle (Cluster.step_answer h).2
  | disconnect i => exact grown_of_settle h
  | release i => exact grown_of_settle (Cluster.step_release h)
  | wake wk =>
      obtain ⟨err, -, rfl⟩ := Cluster.step_wake h
      exact hsame

theorem grown_of_join {post : Bool} {body : Option Cluster.JoinRequest} {now : Int}
    (h : Cluster.step cfg c (.join post body now) = some c') :
    Grown c c' [] ∧ c'.joins.length = c.joins.length + 1 := by
  obtain ⟨k, call, -, rfl⟩ := Cluster.step_join h
  refine ⟨⟨fun i id r hi => ?_, by simp, fun req hreq => List.mem_append_left _ hreq⟩, by simp⟩
  dsimp only
  rw [List.getElem?_append_left (List.getElem?_eq_some_iff.mp hi).1, hi]

theorem grown_of_submit {req : Cluster.SubmitRequest}
    (h : Cluster.step cfg c (.submit true (some req)) = some c') : Grown c c' [req] := by
  obtain ⟨k, reply, -, rfl⟩ := Cluster.step_submit h
  refine ⟨fun i id r hi => hi, le_refl _, fun req' hreq' => ?_⟩
  unfold Cluster.State.accepted at hreq'
  rw [List.filterMap_append, List.mem_append] at hreq'
  rcases hreq' with hreq' | hreq'
  · exact List.mem_append_left _ hreq'
  · refine List.mem_append_right _ ?_
    cases reply with
    | noContent => simpa [Cluster.SubmitCall.accepted?] using hreq'
    | failed code text => simp [Cluster.SubmitCall.accepted?] at hreq'

end Coordinator

/-! ## Processes and submissions -/

/-- The join call that a process has open or has been answered on. -/
def Process.call? : Process → Option Nat
  | .joining call => some call
  | .running call _ => some call
  | _ => none

/-- Every process works on a join call of its own, under the id that the coordinator has answered there, until it
submits; and it submits the encoding of its Recorder, once. -/
structure Wired (D : Hdr) (cfg : Cluster.Config) (w : Deployment) : Prop where
  coord : Reachable (Cluster.step cfg) Cluster.init w.coord
  open_call : ∀ p call, (w.process p).call? = some call → call < w.coord.joins.length ∧
    (∀ q, (w.process q).call? = some call → q = p) ∧ ∀ x ∈ w.sent, x.call ≠ call
  running : ∀ p call id, w.process p = .running call id →
    ∃ r, w.coord.joins[call]? = some (.registered id (.answered r))
  answered : ∀ x ∈ w.sent, ∃ r, w.coord.joins[x.call]? = some (.registered x.id (.answered r))
  done : ∀ x ∈ w.sent, (w.process x.process).call? = none ∧ w.process x.process ≠ .unlaunched
  calls : (w.sent.map Submission.call).Nodup
  processes : (w.sent.map Submission.process).Nodup
  encoded : ∀ x ∈ w.sent, ∃ r o, run Recorder.act (Metrics.new D.toLayout ⟨0, 0⟩) x.ops = some r ∧
    r.encode D o = .ok x.blob
  accepted : w.coord.accepted ⊆ w.sent.map Submission.request

section Wired
variable {D : Hdr} {cfg : Cluster.Config} {w w' : Deployment}

theorem Wired.init : Wired D cfg Deployment.init where
  coord := ⟨[], rfl⟩
  open_call p call h := by cases h
  running p call id h := by cases h
  answered x hx := by cases hx
  done x hx := by cases hx
  calls := List.nodup_nil
  processes := List.nodup_nil
  encoded x hx := by cases hx
  accepted req h := by cases h

theorem Wired.grow (h : Wired D cfg w) {a : Cluster.Action} {c : Cluster.State}
    (hc : Cluster.step cfg w.coord a = some c) (hgrown : Grown w.coord c []) :
    Wired D cfg { w with coord := c } := by
  refine ⟨?_, fun p call hcall => ?_, fun p call id hp => ?_, fun x hx => ?_, h.done, h.calls, h.processes, h.encoded,
    ?_⟩
  · exact h.coord.next hc
  · obtain ⟨hlt, hrest⟩ := h.open_call p call hcall
    exact ⟨lt_of_lt_of_le hlt hgrown.length, hrest⟩
  · obtain ⟨r, hr⟩ := h.running p call id hp
    exact ⟨r, hgrown.answered _ _ _ hr⟩
  · obtain ⟨r, hr⟩ := h.answered x hx
    exact ⟨r, hgrown.answered _ _ _ hr⟩
  · intro req hreq
    have hreq := hgrown.accepted hreq
    rw [List.append_nil] at hreq
    exact h.accepted hreq

theorem Wired.move (h : Wired D cfg w) {p : Nat} {q : Process}
    (hcall : ∀ call, q.call? = some call → call < w.coord.joins.length ∧ (∀ x ∈ w.sent, x.call ≠ call) ∧
      ∀ p', p' ≠ p → (w.process p').call? ≠ some call)
    (hrunning : ∀ call id, q = .running call id → ∃ r, w.coord.joins[call]? = some (.registered id (.answered r)))
    (hdone : ∀ x ∈ w.sent, x.process = p → q.call? = none) (hq : q ≠ .unlaunched) :
    Wired D cfg { w with process := Function.update w.process p q } := by
  refine ⟨h.coord, fun p' call hp' => ?_, fun p' call id hp' => ?_, h.answered, fun x hx => ?_, h.calls, h.processes,
    h.encoded, h.accepted⟩
  · dsimp only at hp' ⊢
    by_cases hpp : p' = p
    · subst hpp
      rw [Function.update_self] at hp'
      obtain ⟨hlt, hsent, hothers⟩ := hcall call hp'
      refine ⟨hlt, fun q' hq' => ?_, hsent⟩
      by_contra hne
      rw [Function.update_of_ne hne] at hq'
      exact hothers q' hne hq'
    · rw [Function.update_of_ne hpp] at hp'
      obtain ⟨hlt, honly, hsent⟩ := h.open_call p' call hp'
      refine ⟨hlt, fun q' hq' => ?_, hsent⟩
      by_cases hqp : q' = p
      · subst hqp
        rw [Function.update_self] at hq'
        exact absurd hp' ((hcall call hq').2.2 p' hpp)
      · rw [Function.update_of_ne hqp] at hq'
        exact honly q' hq'
  · dsimp only at hp'
    by_cases hpp : p' = p
    · subst hpp
      rw [Function.update_self] at hp'
      exact hrunning call id hp'
    · rw [Function.update_of_ne hpp] at hp'
      exact h.running p' call id hp'
  · dsimp only
    by_cases hpp : x.process = p
    · rw [hpp, Function.update_self]
      exact ⟨hdone x hx hpp, hq⟩
    · rw [Function.update_of_ne hpp]
      exact h.done x hx

theorem Wired.exit (h : Wired D cfg w) (p : Nat) (err : Option String) : Wired D cfg (w.exit p err) :=
  h.move (q := .exited err) (fun call hcall => by cases hcall) (fun call id heq => by cases heq) (fun _ _ _ => rfl)
    (fun heq => by cases heq)

theorem Wired.launch (h : Wired D cfg w) {p : Nat} {requested now : Int} {c : Cluster.State}
    (hp : w.process p = .unlaunched) (hc : Cluster.step cfg w.coord (.join true (some ⟨requested⟩) now) = some c) :
    Wired D cfg
      { w with coord := c, process := Function.update w.process p (.joining w.coord.joins.length) } := by
  obtain ⟨hgrown, hlength⟩ := grown_of_join hc
  refine (h.grow hc hgrown).move (q := .joining w.coord.joins.length) (fun call hcall => ?_)
    (fun call id heq => by cases heq) (fun x hx hxp => ?_) (fun heq => by cases heq)
  · obtain rfl := Option.some.inj hcall
    refine ⟨by dsimp only; omega, fun x hx heq => ?_, fun p' _ hp' => ?_⟩
    · obtain ⟨r, hr⟩ := h.answered x hx
      have := (List.getElem?_eq_some_iff.mp hr).1
      omega
    · exact absurd (h.open_call p' _ hp').1 (lt_irrefl _)
  · exact absurd (hxp ▸ hp) (h.done x hx).2

theorem Wired.joined (h : Wired D cfg w) {p call : Nat} {r : Cluster.JoinResponse}
    (hp : w.process p = .joining call) (hr : w.coord.joins[call]?.bind joinReply = some (.ok r)) :
    Wired D cfg { w with process := Function.update w.process p (.running call r.workerID) } := by
  have hpcall : (w.process p).call? = some call := by rw [hp]; rfl
  obtain ⟨hlt, honly, hsent⟩ := h.open_call p call hpcall
  have hanswered : w.coord.joins[call]? = some (.registered r.workerID (.answered r)) := by
    obtain ⟨j, hj, hreply⟩ := Option.bind_eq_some_iff.mp hr
    cases j with
    | refused code text => cases hreply
    | registered id status =>
        cases status with
        | waiting => cases hreply
        | gone => cases hreply
        | failed code text => cases hreply
        | answered r' =>
            obtain rfl : r' = r := Except.ok.inj (Option.some.inj hreply)
            have hid := ((Cluster.safe h.coord).answers id r' (List.mem_of_getElem? hj)).2
            rw [hj, hid]
  refine h.move (q := .running call r.workerID) (fun call' hcall' => ?_) (fun call' id heq => ?_) (fun x hx hxp => ?_)
    (fun heq => by cases heq)
  · obtain rfl := Option.some.inj hcall'
    exact ⟨hlt, hsent, fun p' hne hp' => hne (honly p' hp')⟩
  · obtain ⟨rfl, rfl⟩ := Process.running.inj heq
    exact ⟨r, hanswered⟩
  · have hnone := (h.done x hx).1
    rw [hxp, hp] at hnone
    cases hnone

theorem Wired.submit (h : Wired D cfg w) {x : Submission} {n : Nat} {c : Cluster.State}
    (hp : w.process x.process = .running x.call x.id)
    (hencoded : ∃ r o, run Recorder.act (Metrics.new D.toLayout ⟨0, 0⟩) x.ops = some r ∧ r.encode D o = .ok x.blob)
    (hc : Cluster.step cfg w.coord (.submit true (some x.request)) = some c) :
    Wired D cfg { coord := c, process := Function.update w.process x.process (.submitting n)
                  sent := w.sent ++ [x] } := by
  have hgrown := grown_of_submit hc
  have hpcall : (w.process x.process).call? = some x.call := by rw [hp]; rfl
  obtain ⟨-, honly, hsent⟩ := h.open_call x.process x.call hpcall
  have hfresh : ∀ y ∈ w.sent, y.process ≠ x.process := by
    intro y hy heq
    have hnone := (h.done y hy).1
    rw [heq, hp] at hnone
    cases hnone
  refine ⟨?_, fun p call hcall => ?_, fun p call id hrun => ?_, fun y hy => ?_, fun y hy => ?_, ?_, ?_, fun y hy => ?_,
    ?_⟩
  · exact h.coord.next hc
  · dsimp only at hcall ⊢
    have hne : p ≠ x.process := by
      rintro rfl
      rw [Function.update_self] at hcall
      cases hcall
    rw [Function.update_of_ne hne] at hcall
    obtain ⟨hlt, honly', hsent'⟩ := h.open_call p call hcall
    refine ⟨lt_of_lt_of_le hlt hgrown.length, fun q hq => ?_, fun y hy => ?_⟩
    · have hqne : q ≠ x.process := by
        rintro rfl
        rw [Function.update_self] at hq
        cases hq
      rw [Function.update_of_ne hqne] at hq
      exact honly' q hq
    · rcases List.mem_append.mp hy with hy | hy
      · exact hsent' y hy
      · rw [List.mem_singleton.mp hy]
        rintro rfl
        exact hne (honly p hcall)
  · dsimp only at hrun
    have hne : p ≠ x.process := by
      rintro rfl
      rw [Function.update_self] at hrun
      cases hrun
    rw [Function.update_of_ne hne] at hrun
    obtain ⟨r, hr⟩ := h.running p call id hrun
    exact ⟨r, hgrown.answered _ _ _ hr⟩
  · have hold : ∃ r, w.coord.joins[y.call]? = some (.registered y.id (.answered r)) := by
      rcases List.mem_append.mp hy with hy | hy
      · exact h.answered y hy
      · rw [List.mem_singleton.mp hy]
        exact h.running _ _ _ hp
    obtain ⟨r, hr⟩ := hold
    exact ⟨r, hgrown.answered _ _ _ hr⟩
  · dsimp only
    rcases List.mem_append.mp hy with hy | hy
    · rw [Function.update_of_ne (hfresh y hy)]
      exact h.done y hy
    · rw [List.mem_singleton.mp hy, Function.update_self]
      exact ⟨rfl, fun heq => by cases heq⟩
  · rw [List.map_append, List.map_singleton, List.nodup_append]
    refine ⟨h.calls, List.nodup_singleton _, fun a ha b hb => ?_⟩
    obtain ⟨y, hy, rfl⟩ := List.mem_map.mp ha
    rw [List.mem_singleton.mp hb]
    exact hsent y hy
  · rw [List.map_append, List.map_singleton, List.nodup_append]
    refine ⟨h.processes, List.nodup_singleton _, fun a ha b hb => ?_⟩
    obtain ⟨y, hy, rfl⟩ := List.mem_map.mp ha
    rw [List.mem_singleton.mp hb]
    exact hfresh y hy
  · rcases List.mem_append.mp hy with hy | hy
    · exact h.encoded y hy
    · rw [List.mem_singleton.mp hy]
      exact hencoded
  · intro req hreq
    rw [List.map_append, List.map_singleton]
    rcases List.mem_append.mp (hgrown.accepted hreq) with hreq | hreq
    · exact List.mem_append_left _ (h.accepted hreq)
    · exact List.mem_append_right _ hreq

theorem Wired.step (h : Wired D cfg w) {ev : Event} (hstep : w.step D cfg ev = some w') : Wired D cfg w' := by
  cases ev with
  | coordinator a =>
      simp only [Deployment.step] at hstep
      split_ifs at hstep with ha
      obtain ⟨c, hc, rfl⟩ := Option.map_eq_some_iff.mp hstep
      exact h.grow hc (grown_of_internal ha hc)
  | launch p requested now =>
      simp only [Deployment.step] at hstep
      split at hstep
      · next hp =>
          obtain ⟨c, hc, rfl⟩ := Option.map_eq_some_iff.mp hstep
          exact h.launch hp hc
      · cases hstep
  | joined p =>
      simp only [Deployment.step] at hstep
      split at hstep
      · next call hp =>
          split at hstep
          · next r hr =>
              obtain rfl := Option.some.inj hstep
              exact h.joined hp hr
          · obtain rfl := Option.some.inj hstep
            exact h.exit p _
          · cases hstep
      · cases hstep
  | submit p ops report o =>
      simp only [Deployment.step] at hstep
      split at hstep
      · next call id hp =>
          split at hstep
          · cases hstep
          · next r hrun =>
              split at hstep
              · obtain rfl := Option.some.inj hstep
                exact h.exit p _
              · next blob hblob =>
                  obtain ⟨c, hc, rfl⟩ := Option.map_eq_some_iff.mp hstep
                  exact h.submit (x := ⟨p, call, id, ops, report, blob⟩) hp ⟨r, o, hrun, hblob⟩ hc
      · cases hstep
  | replied p =>
      simp only [Deployment.step] at hstep
      split at hstep
      · split at hstep
        · obtain rfl := Option.some.inj hstep
          exact h.exit p _
        · obtain rfl := Option.some.inj hstep
          exact h.exit p _
        · cases hstep
      · cases hstep
  | fail p err =>
      simp only [Deployment.step] at hstep
      split at hstep
      · cases hstep
      · cases hstep
      · obtain rfl := Option.some.inj hstep
        exact h.exit p _

theorem wired (h : Reachable (Deployment.step D cfg) Deployment.init w) : Wired D cfg w :=
  h.invariant Wired.init fun _ _ _ hw hstep => hw.step hstep

/-! ## The result -/

theorem Wired.eq_of_id (h : Wired D cfg w) {x y : Submission} (hx : x ∈ w.sent) (hy : y ∈ w.sent)
    (hid : x.id = y.id) : x = y := by
  obtain ⟨r, hr⟩ := h.answered x hx
  obtain ⟨r', hr'⟩ := h.answered y hy
  rw [hid] at hr
  have hcall := (Cluster.safe h.coord).slot_unique hr hr'
  exact List.inj_on_of_nodup_map h.calls hx hy hcall

/-- **The result of a successful `Serve` are the submissions**, all of them, in the order of the ids. -/
theorem Wired.sent_order (h : Wired D cfg w) {res : Cluster.Result} (hres : w.coord.phase = .returned (.ok res)) :
    ∃ order : List Submission, order.Perm w.sent ∧ (order.length : Int) = max 0 cfg.workerCount ∧
      res.reports = order.map (fun x => x.request.report) ∧ res.histograms = order.map Submission.blob := by
  have hsafe := Cluster.safe h.coord
  have hcomplete := hsafe.returned res hres
  have hexists : ∀ i : Nat, ∃ x, (i : Int) < cfg.workerCount → x ∈ w.sent ∧ x.id = i ∧
      res.reports[i]? = some x.request.report ∧ res.histograms[i]? = some x.blob := by
    intro i
    by_cases hi : (i : Int) < cfg.workerCount
    · obtain ⟨req, hreq, hid, hreport, hhisto⟩ := hcomplete.aligned i hi
      obtain ⟨x, hx, rfl⟩ := List.mem_map.mp (h.accepted hreq)
      exact ⟨x, fun _ => ⟨hx, hid, hreport, hhisto⟩⟩
    · exact ⟨⟨0, 0, 0, [], ⟨0, 0, false⟩, []⟩, fun hlt => absurd hlt hi⟩
  choose f hf using hexists
  have hreports := hcomplete.reports
  have hhistograms := hcomplete.histograms
  refine ⟨(List.range cfg.workerCount.toNat).map f, ?_, ?_, ?_, ?_⟩
  · refine (List.perm_ext_iff_of_nodup ?_ (List.Nodup.of_map _ h.calls)).mpr fun x => ?_
    · refine (List.nodup_map_iff_inj_on List.nodup_range).mpr fun i hi j hj heq => ?_
      have hidi := (hf i (by have := List.mem_range.mp hi; omega)).2.1
      have hidj := (hf j (by have := List.mem_range.mp hj; omega)).2.1
      rw [heq, hidj] at hidi
      omega
    · constructor
      · intro hx
        obtain ⟨i, hi, rfl⟩ := List.mem_map.mp hx
        exact (hf i (by have := List.mem_range.mp hi; omega)).1
      · intro hx
        obtain ⟨r, hr⟩ := h.answered x hx
        obtain ⟨hlow, hhigh⟩ := hsafe.slot_range hr
        obtain ⟨hmem, hid, -⟩ := hf x.id.toNat (by omega)
        refine List.mem_map.mpr ⟨x.id.toNat, List.mem_range.mpr (by omega), ?_⟩
        exact h.eq_of_id hmem hx (by rw [hid]; omega)
  · rw [List.length_map, List.length_range]
    omega
  · refine List.ext_getElem? fun i => ?_
    rw [List.getElem?_map, List.getElem?_map]
    by_cases hi : i < cfg.workerCount.toNat
    · rw [List.getElem?_range hi, (hf i (by omega)).2.2.1]
      rfl
    · rw [List.getElem?_eq_none (by omega), List.getElem?_eq_none (by rw [List.length_range]; omega)]
      rfl
  · refine List.ext_getElem? fun i => ?_
    rw [List.getElem?_map, List.getElem?_map]
    by_cases hi : i < cfg.workerCount.toNat
    · rw [List.getElem?_range hi, (hf i (by omega)).2.2.2]
      rfl
    · rw [List.getElem?_eq_none (by omega), List.getElem?_eq_none (by rw [List.length_range]; omega)]
      rfl

theorem Wired.carries (h : Wired D cfg w) {order : List Submission} (hsub : order ⊆ w.sent) :
    List.Forall₂ (Carries D defaultMaxLatency defaultSigFigs) (order.map Submission.blob)
      (order.map fun x => recorded x.ops) := by
  rw [List.forall₂_map_left_iff, List.forall₂_map_right_iff, List.forall₂_same]
  intro x hx
  obtain ⟨r, o, hrun, hencode⟩ := h.encoded x (hsub hx)
  obtain ⟨b, hb, hcarries⟩ := carries_of_run hrun o
  obtain rfl := Except.ok.inj (hb.symm.trans hencode)
  exact hcarries

end Wired

theorem sumReports_eq (reports : List Cluster.WorkerReport) :
    sumReports reports = ⟨(reports.map (·.total)).sum, (reports.map (·.errors)).sum, reports.any (·.clientBound)⟩ := by
  have hfold : ∀ acc : RunReport,
      reports.foldl (fun rep wr => ⟨rep.total + wr.total, rep.errors + wr.errors, rep.clientBound || wr.clientBound⟩)
          acc =
        ⟨acc.total + (reports.map (·.total)).sum, acc.errors + (reports.map (·.errors)).sum,
          acc.clientBound || reports.any (·.clientBound)⟩ := by
    induction reports with
    | nil => simp
    | cons wr reports ih =>
        intro acc
        rw [List.foldl_cons, ih, List.map_cons, List.map_cons, List.sum_cons, List.sum_cons, List.any_cons]
        dsimp only
        rw [add_assoc, add_assoc, Bool.or_assoc]
  unfold sumReports
  rw [hfold]
  simp

/-- **A distributed run is exact.** For any number of worker processes, whatever ids they ask for, however their
requests and replies interleave with the coordinator, whichever of them fail, are killed or never get a reply, and in
whatever orders the maps are walked: if `Serve` returns a result, then exactly as many processes as there are slots
have submitted, each of them once, and merging the result gives their summed tallies and a Recorder that agrees with
any one that recorded all their operations. -/
theorem distributed_run_exact (D : Hdr) {cfg : Cluster.Config} (hworkers : 1 ≤ cfg.workerCount)
    {w : Deployment} (hreach : Reachable (Deployment.step D cfg) Deployment.init w) {res : Cluster.Result}
    (hres : w.coord.phase = .returned (.ok res)) (decoding merging : Nat → IterOrder OpType) :
    (w.sent.length : Int) = cfg.workerCount ∧ (w.sent.map Submission.process).Nodup ∧
    ∃ merged rep, mergeResults D decoding merging res = .ok (merged, rep) ∧
      rep.total = (w.sent.map (·.report.total)).sum ∧ rep.errors = (w.sent.map (·.report.errors)).sum ∧
      rep.clientBound = w.sent.any (·.report.clientBound) ∧
      ∀ central whole, run Recorder.act (Metrics.new D.toLayout ⟨0, 0⟩) central = some whole →
        recorded central = (w.sent.map fun x => recorded x.ops).sum → ∀ o o',
        (merged.collect o).overall = (whole.collect o').overall ∧
        (merged.collect o).errTotal = (whole.collect o').errTotal ∧
        (∀ op, (merged.collect o).byOp.lookup op = (whole.collect o').byOp.lookup op) ∧
        ∀ op, (merged.collect o).errByOp.lookup op = (whole.collect o').errByOp.lookup op := by
  have hwired := wired hreach
  obtain ⟨order, hperm, hlength, hreports, hhistograms⟩ := hwired.sent_order hres
  have hne : order.map Submission.blob ≠ [] := by
    intro hnil
    rw [List.map_eq_nil_iff] at hnil
    rw [hnil, List.length_nil] at hlength
    omega
  obtain ⟨merged, hmerge, hhigh, hsig, htallied⟩ :=
    mergeResults_tallied hne (hwired.carries hperm.subset) decoding merging (order.map fun x => x.request.report)
  have hresult : res = ⟨order.map fun x => x.request.report, order.map Submission.blob⟩ := by
    rw [← hreports, ← hhistograms]
  rw [← hresult] at hmerge
  refine ⟨by rw [← hperm.length_eq]; omega, hwired.processes, merged, _, hmerge, ?_, ?_, ?_, ?_⟩
  · rw [sumReports_eq]
    dsimp only
    rw [List.map_map]
    exact (hperm.map fun x => x.report.total).sum_eq
  · rw [sumReports_eq]
    dsimp only
    rw [List.map_map]
    exact (hperm.map fun x => x.report.errors).sum_eq
  · rw [sumReports_eq, List.any_map]
    exact hperm.any_eq
  · intro central whole hcentral hsplit o o'
    obtain ⟨hwhigh, hwsig, hwhole⟩ := collect_of_run hcentral
    have hgeom : merged.geometry = whole.geometry := by
      unfold Recorder.geometry
      rw [hhigh, hsig, hwhigh, hwsig]
      rfl
    rw [hgeom, (hperm.map fun x => recorded x.ops).sum_eq, ← hsplit] at htallied
    exact (htallied o).unique (hwhole o')

/-- Three processes ask for the same id, one of them is refused; one submission gets no reply. -/
def contendedDeployment : List Event :=
  [.coordinator .listen, .launch 4 1 10, .launch 2 1 20, .launch 7 1 30, .joined 7, .coordinator (.answer 1),
    .coordinator (.answer 0), .joined 2, .joined 4,
    .submit 2 [.addLocal, .record 0 ⟨"read", 5000, false⟩] ⟨1, 0, false⟩ backwards,
    .fail 2 "connection reset by peer",
    .submit 4 [.addLocal, .record 0 ⟨"write", 7000, true⟩] ⟨1, 1, true⟩ (IterOrder.stored OpType),
    .coordinator (.wake .submittedAll), .replied 4,
    .coordinator .finish]

def succeeded : Cluster.Phase → Bool
  | .returned (.ok _) => true
  | _ => false

theorem distributed_run_exact_when_contended :
    ∃ w, Reachable (Deployment.step hdr Cluster.twoWorkers) Deployment.init w ∧
      w.sent.map (fun x => (x.process, x.id)) = [(2, 0), (4, 1)] ∧
      ∃ res merged rep, w.coord.phase = .returned (.ok res) ∧
        mergeResults hdr (fun _ => IterOrder.stored OpType) (fun _ => backwards) res = .ok (merged, rep) ∧
        rep.total = (w.sent.map (·.report.total)).sum := by
  obtain ⟨w, hreach, hsent, hphase⟩ :
      ∃ w, Reachable (Deployment.step hdr Cluster.twoWorkers) Deployment.init w ∧
        w.sent.map (fun x => (x.process, x.id)) = [(2, 0), (4, 1)] ∧ succeeded w.coord.phase = true :=
    exists_reachable contendedDeployment (by decide +kernel)
  obtain ⟨res, hres⟩ : ∃ res, w.coord.phase = .returned (.ok res) := by
    unfold succeeded at hphase
    split at hphase
    · next res h => exact ⟨res, h⟩
    · cases hphase
  obtain ⟨-, -, merged, rep, hmerge, htotal, -⟩ :=
    distributed_run_exact hdr (by decide) hreach hres (fun _ => IterOrder.stored OpType) fun _ => backwards
  exact ⟨w, hreach, hsent, res, merged, rep, hres, hmerge, htotal⟩

end Proofload.Cli.Distributed
