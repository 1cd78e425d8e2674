import Proofload.Cluster.Serve

/-!
# Who stands behind the join barrier (`core/cluster/handlers.go`)

A join that is abandoned during its long poll leaves the handler, but not the map of joined workers: its slot stays
taken and counts towards the barrier. So does the slot of a join that a shutdown turns away with a 503.

* `ended_iff` : the joins of a run that have ended without an id, by the action that ended them;
* `barrier_live_iff` : when every slot belongs to a live join at the moment the barrier opens.
-/

namespace Proofload.Cluster
open Lib

set_option autoImplicit false

/-- The client went away, or the handler answered 503. -/
def JoinStatus.over : JoinStatus → Bool
  | .waiting | .answered _ => false
  | .gone | .failed _ _ => true

/-- Join call `i` holds a slot in one of the given states. -/
def Ended (p : JoinStatus → Bool) (s : State) (i : Nat) : Prop :=
  ∃ id status, s.joins[i]? = some (.registered id status) ∧ p status = true

/-- Every slot belongs to a join in none of the given states. -/
def Slots (p : JoinStatus → Bool) (cfg : Config) (s : State) : Prop :=
  ∀ id, 0 ≤ id → id < cfg.workerCount → ∃ (i : Nat) (status : JoinStatus), s.joins[i]? = some (.registered id status) ∧
    p status = false

/-- Every slot belongs to a join whose client has not disconnected. -/
def ConnectedSlots (cfg : Config) (s : State) : Prop := Slots (fun status => decide (status = .gone)) cfg s

/-- Every slot belongs to a join that waits for its id or has it. -/
def LiveSlots (cfg : Config) (s : State) : Prop := Slots JoinStatus.over cfg s

section Steps
variable {cfg : Config} {s t : State} {p : JoinStatus → Bool}

theorem ended_settle (hwaiting : p .waiting = false) {i : Nat} {status : Int → JoinStatus}
    (h : settle s i status = some t) (j : Nat) :
    Ended p t j ↔ Ended p s j ∨
      (j = i ∧ ∃ id, s.joins[i]? = some (.registered id .waiting) ∧ p (status id) = true) := by
  obtain ⟨id, hi, rfl⟩ := settle_eq h
  unfold Ended
  by_cases hj : j = i
  · subst hj
    have hset : (s.joins.set j (.registered id (status id)))[j]? = some (.registered id (status id)) := by
      rw [List.getElem?_set_self (List.getElem?_eq_some_iff.mp hi).1]
    simp [hset, hi, hwaiting]
  · rw [List.getElem?_set_ne (Ne.symm hj)]
    simp [hj]

theorem handleJoin_waiting {c c' : Coordinator} {post : Bool} {body : Option JoinRequest} {now : Int} {id : Int}
    {status : JoinStatus} (h : handleJoin cfg c post body now = (c', .registered id status)) : status = .waiting := by
  unfold handleJoin at h
  split_ifs at h
  · cases h
  · split at h
    · cases h
    · split at h <;> cases h
      rfl

/-- **Only a disconnect or a release ends a join without an id**, and nothing brings it back. -/
theorem ended_step (hwaiting : p .waiting = false) (hanswered : ∀ r, p (.answered r) = false) {a : Action}
    (h : step cfg s a = some t) (i : Nat) :
    Ended p t i ↔ Ended p s i ∨ (a = .disconnect i ∧ p .gone = true) ∨
      (a = .release i ∧ p (.failed 503 "coordinator shutting down") = true) := by
  have hserve : (a = .listen ∨ (∃ err, a = .listenErr err) ∨ a = .finish) → (Ended p t i ↔ Ended p s i) := by
    intro ha
    obtain ⟨p, rfl, -⟩ := step_serve ha h
    rfl
  cases a with
  | listen => simpa using hserve (Or.inl rfl)
  | listenErr err => simpa using hserve (Or.inr (Or.inl ⟨err, rfl⟩))
  | finish => simpa using hserve (Or.inr (Or.inr rfl))
  | join post body now =>
      obtain ⟨c, call, hjoin, rfl⟩ := step_join h
      have hnew : ∀ id status, call = .registered id status → p status = false := by
        rintro id status rfl
        rw [handleJoin_waiting hjoin, hwaiting]
      simp only [reduceCtorEq, false_and, or_false]
      unfold Ended
      dsimp only
      by_cases hi : i < s.joins.length
      · rw [List.getElem?_append_left hi]
      · rw [List.getElem?_append_right (by omega), List.getElem?_eq_none (l := s.joins) (by omega)]
        cases i - s.joins.length with
        | zero => simpa using hnew
        | succ n => simp
  | submit post body =>
      obtain ⟨c, reply, -, rfl⟩ := step_submit h
      simp [Ended]
  | answer j =>
      rw [ended_settle hwaiting (step_answer h).2]
      simp [hanswered]
  | disconnect j =>
      rw [ended_settle hwaiting h]
      obtain ⟨id, hj, -⟩ := settle_eq h
      simp [hj, eq_comm (a := i)]
  | release j =>
      rw [ended_settle hwaiting (step_release h)]
      obtain ⟨id, hj, -⟩ := settle_eq (step_release h)
      simp [hj, eq_comm (a := i)]
  | wake w =>
      obtain ⟨err, -, rfl⟩ := step_wake h
      simp [Ended]

theorem ended_iff (hwaiting : p .waiting = false) (hanswered : ∀ r, p (.answered r) = false) {acts : List Action}
    (h : run (step cfg) init acts = some s) (i : Nat) :
    Ended p s i ↔ (.disconnect i ∈ acts ∧ p .gone = true) ∨
      (.release i ∈ acts ∧ p (.failed 503 "coordinator shutting down") = true) := by
  refine run_trace (P := fun acts s => Ended p s i ↔ (.disconnect i ∈ acts ∧ p .gone = true) ∨
    (.release i ∈ acts ∧ p (.failed 503 "coordinator shutting down") = true)) ?_ (fun acts s a t ih ht => ?_) h
  · simp [Ended, init]
  · rw [ended_step hwaiting hanswered ht, ih]
    simp only [List.mem_append, List.mem_singleton, eq_comm (a := a)]
    tauto

end Steps

section Slots
variable {cfg : Config} {s t : State} {p : JoinStatus → Bool}

theorem Safe.slot (h : Safe cfg s) (hopen : s.coord.joinedAll = true) {id : Int} (hlow : 0 ≤ id)
    (hhigh : id < cfg.workerCount) : ∃ (i : Nat) (status : JoinStatus), s.joins[i]? = some (.registered id status) := by
  have hmem : id ∈ s.assigned := mem_of_full h.joined.nodup h.joined.range (h.joined.opened hopen) hlow hhigh
  obtain ⟨call, hcall, hid⟩ := List.mem_filterMap.mp hmem
  obtain ⟨i, hi⟩ := List.mem_iff_getElem?.mp hcall
  cases call with
  | refused code text => cases hid
  | registered id' status =>
      obtain rfl := Option.some.inj hid
      exact ⟨i, status, hi⟩

theorem Safe.slot_unique (h : Safe cfg s) {i j : Nat} {id : Int} {status status' : JoinStatus}
    (hi : s.joins[i]? = some (.registered id status)) (hj : s.joins[j]? = some (.registered id status')) : i = j :=
  index_unique_of_nodup_filterMap h.joined.nodup hi hj rfl rfl

theorem Safe.slot_range (h : Safe cfg s) {i : Nat} {id : Int} {status : JoinStatus}
    (hi : s.joins[i]? = some (.registered id status)) : 0 ≤ id ∧ id < cfg.workerCount :=
  h.joined.range id (List.mem_filterMap.mpr ⟨_, List.mem_of_getElem? hi, rfl⟩)

theorem Safe.slots_iff (h : Safe cfg s) (hopen : s.coord.joinedAll = true) : Slots p cfg s ↔ ∀ i, ¬ Ended p s i := by
  constructor
  · rintro hslots i ⟨id, status, hi, hp⟩
    obtain ⟨hlow, hhigh⟩ := h.slot_range hi
    obtain ⟨j, status', hj, hp'⟩ := hslots id hlow hhigh
    obtain rfl := h.slot_unique hi hj
    rw [hi] at hj
    cases hj
    rw [hp] at hp'
    cases hp'
  · intro hnone id hlow hhigh
    obtain ⟨i, status, hi⟩ := h.slot hopen hlow hhigh
    refine ⟨i, status, hi, ?_⟩
    rw [← Bool.not_eq_true]
    exact fun hp => hnone i ⟨id, status, hi, hp⟩

theorem not_settle_of_opens (hclosed : s.coord.joinedAll = false) (hopen : t.coord.joinedAll = true) {i : Nat}
    {status : Int → JoinStatus} : settle s i status ≠ some t := by
  intro hsettle
  obtain ⟨id, -, rfl⟩ := settle_eq hsettle
  rw [hclosed] at hopen
  cases hopen

/-- Behind an open barrier, a join that still waits can be answered with its slot. -/
theorem step_answer_of_waiting (hopen : s.coord.joinedAll = true) {i : Nat} {id : Int}
    (hi : s.joins[i]? = some (.registered id .waiting)) :
    step cfg s (.answer i) = some { s with joins := s.joins.set i (.registered id
      (.answered { workerID := id, spec := cfg.spec, startAt := s.coord.startAt })) } := by
  simp only [step, hopen, if_true, settle, hi]

/-- **The barrier counts connected workers exactly if no client has left its long poll before it opens**: an abandoned
join keeps its slot, no retry is given that slot back, and the barrier opens over it. It counts live ones exactly if,
besides, no join was turned away by a shutdown. A join that still waits is answered with its slot. -/
theorem barrier_live_iff {acts : List Action} {a : Action}
    (hrun : run (step cfg) init acts = some s) (hclosed : s.coord.joinedAll = false) (hstep : step cfg s a = some t)
    (hopen : t.coord.joinedAll = true) :
    (ConnectedSlots cfg t ↔ ∀ i, .disconnect i ∉ acts) ∧
      (LiveSlots cfg t ↔ ∀ i, .disconnect i ∉ acts ∧ .release i ∉ acts) ∧
      ∀ i id, t.joins[i]? = some (.registered id .waiting) → ∃ u startAt, step cfg t (.answer i) = some u ∧
        u.joins[i]? = some (.registered id (.answered { workerID := id, spec := cfg.spec, startAt := startAt })) := by
  have hsafe : Safe cfg t := (safe ⟨acts, hrun⟩).step hstep
  have hended : ∀ {p : JoinStatus → Bool}, p .waiting = false → (∀ r, p (.answered r) = false) →
      ∀ i, Ended p t i ↔ (.disconnect i ∈ acts ∧ p .gone = true) ∨
        (.release i ∈ acts ∧ p (.failed 503 "coordinator shutting down") = true) := by
    intro p hwaiting hanswered i
    rw [ended_step hwaiting hanswered hstep, ended_iff hwaiting hanswered hrun, or_iff_left]
    rintro (⟨rfl, -⟩ | ⟨rfl, -⟩)
    · exact not_settle_of_opens hclosed hopen hstep
    · exact not_settle_of_opens hclosed hopen (step_release hstep)
  refine ⟨?_, ?_, fun i id hi => ?_⟩
  · unfold ConnectedSlots
    rw [hsafe.slots_iff hopen]
    simp only [hended (p := fun status => decide (status = .gone)) rfl fun _ => rfl]
    simp
  · unfold LiveSlots
    rw [hsafe.slots_iff hopen]
    simp only [hended (p := JoinStatus.over) rfl fun _ => rfl]
    simp [JoinStatus.over]
  · refine ⟨_, t.coord.startAt, step_answer_of_waiting hopen hi, ?_⟩
    exact List.getElem?_set_self (List.getElem?_eq_some_iff.mp hi).1

end Slots

/-- A lone worker whose first join is abandoned retries under the same id: the retry takes the other slot and opens
the barrier, and the second worker is refused. -/
theorem retry_opens_barrier :
    ∃ s t u, run (step twoWorkers) init [.listen, .join true (some ⟨0⟩) 10, .disconnect 0] = some s ∧
      s.coord.joinedAll = false ∧ step twoWorkers s (.join true (some ⟨0⟩) 20) = some t ∧
      t.coord.joinedAll = true ∧ ¬ ConnectedSlots twoWorkers t ∧ step twoWorkers t (.join true (some ⟨1⟩) 30) = some u ∧
      u.joins = [.registered 0 .gone, .registered 1 .waiting, .refused 409 "cluster full: late join rejected"] := by
  refine ⟨_, _, _, rfl, by decide +kernel, rfl, by decide +kernel, fun hslots => ?_, rfl, rfl⟩
  obtain ⟨i, status, hi, hstatus⟩ := hslots 0 (by decide) (by decide)
  match i with
  | 0 => exact of_decide_eq_false hstatus (JoinCall.registered.inj (Option.some.inj hi)).2.symm
  | 1 => exact absurd (JoinCall.registered.inj (Option.some.inj hi)).1 (by decide)
  | i + 2 => cases hi

theorem barrier_live_iff_on_two_joins :
    ∃ s t, run (step twoWorkers) init [.listen, .join true (some ⟨1⟩) 10, .join true none 15] = some s ∧
      s.coord.joinedAll = false ∧ step twoWorkers s (.join true (some ⟨1⟩) 20) = some t ∧
      t.coord.joinedAll = true ∧ ConnectedSlots twoWorkers t ∧ LiveSlots twoWorkers t := by
  obtain ⟨s, t, hrun, hclosed, hjoin, hopen⟩ :
      ∃ s t, run (step twoWorkers) init [.listen, .join true (some ⟨1⟩) 10, .join true none 15] = some s ∧
        s.coord.joinedAll = false ∧ step twoWorkers s (.join true (some ⟨1⟩) 20) = some t ∧
        t.coord.joinedAll = true := ⟨_, _, rfl, by decide +kernel, rfl, by decide +kernel⟩
  obtain ⟨hconnected, hlive, -⟩ := barrier_live_iff hrun hclosed hjoin hopen
  exact ⟨s, t, hrun, hclosed, hjoin, hopen, hconnected.mpr (by simp), hlive.mpr (by simp)⟩

end Proofload.Cluster
