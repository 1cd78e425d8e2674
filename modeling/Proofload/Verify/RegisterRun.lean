import Proofload.Verify.Register
import Proofload.Drivers.Plan
import Proofload.Lib.Lists
import Proofload.Runner.Worker

/-!
# Register verification of a whole run

Runs of the load loop against a target in which every key is an atomic register, with a
`HistoryRecorder` on every connection. The recorded history leaves out what was dispatched during the
warmup and what was in flight when the context ended, while the checked register starts out absent.

* `after_register` : a register holds the value of the last executed write to its key;
* `register_run_not_fail` : the checker does not fail a run in which no recorded read observed a write
  that was left out.
-/

namespace Proofload.Verify
open Lib Runner Drivers

set_option autoImplicit false

/-- How a store answers a read of a cell. -/
def reply : Option Bytes → Reply
  | none => .noRows
  | some v => .row (some v)

/-- An operation on atomic registers, one per key: without payload it reads, with a payload it writes. -/
def registerExecute (t : Int → Option Bytes) (op : Operation) : (Int → Option Bytes) × OpResult :=
  if op.value = [] then (t, readResult op.type (reply (t op.key)))
  else (Function.update t op.key (some op.value), { type := op.type, rows := 1, observed := .nil, err := none })

/-- A target of atomic registers, all absent at first. -/
def registerTarget (gen : Nat → Nat → Operation) : Deps (Int → Option Bytes) where
  gen := gen
  execute := registerExecute
  empty := fun _ => none

/-- The event that the recorder of a connection appends for an observation. -/
def recordEvent (ob : Observation) : Event := observe ob.shard ob.op ob.res ob.invoke ob.complete

/-- The history file after the run: the events in the order of the `Observe` calls. -/
def recordHistory {T : Type} (s : State T) : History := ⟨s.observed.map recordEvent⟩

/-- A write to `k`. -/
def WritesTo (k : Int) (op : Operation) : Prop := op.key = k ∧ op.value ≠ []

instance (k : Int) : DecidablePred (WritesTo k) := fun _ => inferInstanceAs (Decidable (_ ∧ _))

/-- No recorded read observed a write that is missing from the record: whenever `w` is the last write to
the key of a recorded read `r` before it, `w` is recorded too. -/
def ReadsRecordedWrites {T : Type} (s : State T) : Prop :=
  ∀ before w between r after, s.execs = before ++ w :: (between ++ r :: after) →
    r.op.value = [] → before.length + 1 + between.length ∈ s.observedExecs →
    WritesTo r.op.key w.op → (∀ e ∈ between, ¬WritesTo r.op.key e.op) → before.length ∈ s.observedExecs

variable {gen : Nat → Nat → Operation} {o : Options} {s : State (Int → Option Bytes)}

/-! ## The last write -/

/-- The last write to `k` in a list of operations, if there is one. -/
def lastWrite (k : Int) (ops : List Operation) : Option Operation := (ops.filter (WritesTo k)).getLast?

theorem lastWrite_concat (k : Int) (ops : List Operation) (op : Operation) :
    lastWrite k (ops ++ [op]) = if WritesTo k op then some op else lastWrite k ops := by
  unfold lastWrite
  rw [List.filter_append]
  by_cases h : WritesTo k op <;> simp [h]

theorem lastWrite_eq_none {k : Int} {ops : List Operation} : lastWrite k ops = none ↔ ∀ op ∈ ops, ¬WritesTo k op := by
  unfold lastWrite
  rw [List.getLast?_eq_none_iff, List.filter_eq_nil_iff]
  simp only [decide_eq_true_eq]

theorem lastWrite_eq_of_split {k : Int} {before after : List Operation} {w : Operation} (hw : WritesTo k w)
    (hafter : ∀ op ∈ after, ¬WritesTo k op) : lastWrite k (before ++ w :: after) = some w := by
  have hnone : after.filter (WritesTo k) = [] := by
    rw [List.filter_eq_nil_iff]
    simpa using hafter
  unfold lastWrite
  rw [List.filter_append, List.filter_cons_of_pos (by simpa using hw), hnone, List.getLast?_concat]

theorem lastWrite_eq_some {k : Int} {ops : List Operation} {w : Operation} :
    lastWrite k ops = some w ↔
      ∃ before after, ops = before ++ w :: after ∧ WritesTo k w ∧ ∀ op ∈ after, ¬WritesTo k op := by
  constructor
  · intro h
    have hex : ∃ op ∈ ops, WritesTo k op := by
      by_contra hno
      rw [lastWrite_eq_none.mpr fun op hop hw => hno ⟨op, hop, hw⟩] at h
      cases h
    obtain ⟨before, w', after, rfl, hw, hafter⟩ := exists_last hex
    rw [lastWrite_eq_of_split hw hafter] at h
    obtain rfl := Option.some.inj h
    exact ⟨before, after, rfl, hw, hafter⟩
  · rintro ⟨before, after, rfl, hw, hafter⟩
    exact lastWrite_eq_of_split hw hafter

/-- The token of a write, zero when there is none. -/
def token (w : Option Operation) : UInt64 := (w.map fun op => checksum op.value).getD 0

/-! ## The target -/

/-- **A register holds the last executed write.** -/
theorem after_register (k : Int) (execs : List Exec) :
    (registerTarget gen).after execs k = (lastWrite k (execs.map (·.op))).map (·.value) := by
  induction execs using List.reverseRecOn with
  | nil => rfl
  | append_singleton execs e ih =>
      rw [after_concat, List.map_append, List.map_singleton, lastWrite_concat]
      change (registerExecute _ e.op).1 k = _
      unfold registerExecute
      by_cases hvalue : e.op.value = []
      · rw [if_pos hvalue, if_neg fun h => h.2 hvalue]
        exact ih
      · rw [if_neg hvalue]
        dsimp only
        by_cases hk : k = e.op.key
        · rw [hk, Function.update_self, if_pos ⟨rfl, hvalue⟩]
          rfl
        · rw [Function.update_of_ne hk, if_neg fun h => hk h.1.symm]
          exact ih

theorem read_token (gen : Nat → Nat → Operation) (execs : List Exec) {op : Operation} (hread : op.value = []) :
    observedList (registerExecute ((registerTarget gen).after execs) op).2.observed = none ∧
    ((coerceBytes (registerExecute ((registerTarget gen).after execs) op).2.observed).map checksum).getD 0 =
      token (lastWrite op.key (execs.map (·.op))) := by
  unfold registerExecute
  rw [if_pos hread]
  obtain ⟨hscalar, htoken⟩ := coerceBytes_readResult op.type (reply ((registerTarget gen).after execs op.key))
  refine ⟨hscalar, htoken.trans ?_⟩
  rw [after_register]
  unfold token
  cases lastWrite op.key (execs.map (·.op)) <;> rfl

/-! ## The record -/

theorem registerStep_record (htracked : Tracked s) (hreplayed : Replayed (registerTarget gen) s) {ob : Observation}
    (hob : ob ∈ s.observed) (hlabel : isAppendOp ob.op.type = false) (st : UInt64) :
    registerStep st (recordEvent ob) =
      if ob.op.value = [] then
        if token (lastWrite ob.op.key ((s.execs.take ob.exec).map (·.op))) = st then some st else none
      else some (checksum ob.op.value) := by
  unfold recordEvent registerStep
  by_cases hvalue : ob.op.value = []
  · obtain ⟨e, post, hexecs, -, hop, hres, -⟩ := exists_exec htracked hob
    have hresult : ob.res = (registerExecute ((registerTarget gen).after (s.execs.take ob.exec)) ob.op).2 := by
      rw [← hres, ← hop]
      exact hreplayed.result _ _ _ hexecs
    obtain ⟨hscalar, htoken⟩ := read_token gen (s.execs.take ob.exec) hvalue
    rw [observe_read _ _ _ _ _ hlabel hvalue (hresult ▸ hscalar), if_pos hvalue, hresult]
    dsimp only
    rw [htoken]
  · rw [observe_write _ _ _ _ _ hlabel hvalue, if_neg hvalue]

/-- The observations on a key, in the order of their executions. -/
def byExec (s : State (Int → Option Bytes)) (k : Int) : List Observation :=
  (s.observed.filter fun ob => ob.op.key = k).insertionSort fun a b => a.exec ≤ b.exec

theorem mem_byExec {k : Int} {ob : Observation} : ob ∈ byExec s k ↔ ob ∈ s.observed ∧ ob.op.key = k := by
  unfold byExec
  rw [List.mem_insertionSort, List.mem_filter, decide_eq_true_eq]

theorem byExec_ordered (htracked : Tracked s) (k : Int) : (byExec s k).Pairwise fun a b => a.exec < b.exec := by
  have htotal : Std.Total fun a b : Observation => a.exec ≤ b.exec := ⟨fun a b => le_total a.exec b.exec⟩
  have htrans : IsTrans Observation fun a b => a.exec ≤ b.exec := ⟨fun _ _ _ => le_trans⟩
  have hle := List.pairwise_insertionSort (fun a b : Observation => a.exec ≤ b.exec)
    (s.observed.filter fun ob => ob.op.key = k)
  have hnodup : ((byExec s k).map (·.exec)).Nodup := by
    have hperm := (List.perm_insertionSort (fun a b : Observation => a.exec ≤ b.exec)
      (s.observed.filter fun ob => ob.op.key = k)).map (·.exec)
    exact hperm.nodup_iff.mpr (htracked.once.sublist (List.filter_sublist.map _))
  exact (hle.and (List.pairwise_map.mp hnodup)).imp fun h => lt_of_le_of_ne h.1 h.2

/-- The last write among executions, with what was executed before and behind it. -/
theorem exists_lastWrite {k : Int} {execs : List Exec} {w : Operation} (h : lastWrite k (execs.map (·.op)) = some w) :
    ∃ before we between, execs = before ++ we :: between ∧ we.op = w ∧ WritesTo k w ∧
      ∀ e ∈ between, ¬WritesTo k e.op := by
  obtain ⟨before, after, hsplit, hw, hafter⟩ := lastWrite_eq_some.mp h
  obtain ⟨before', rest, rfl, rfl, hrest⟩ := List.map_eq_append_iff.mp hsplit
  obtain ⟨we, between, rfl, hwe, rfl⟩ := List.map_eq_cons_iff.mp hrest
  exact ⟨before', we, between, rfl, hwe, hw, fun e he => hafter e.op (List.mem_map_of_mem he)⟩

/-- The recorded operations before a recorded one, in the order of execution, were executed before it. -/
theorem mem_pre {k : Int} {pre post : List Observation} {ob : Observation} (htracked : Tracked s)
    (hsplit : byExec s k = pre ++ ob :: post) {x : Observation} :
    x ∈ pre ↔ (x ∈ s.observed ∧ x.op.key = k) ∧ x.exec < ob.exec := by
  have hordered := byExec_ordered htracked k
  rw [hsplit] at hordered
  rw [mem_front_iff hordered, ← hsplit, mem_byExec]

theorem exists_recorded_write (htracked : Tracked s) (hreads : ReadsRecordedWrites s) {ob : Observation}
    (hob : ob ∈ s.observed) (hread : ob.op.value = []) {before between : List Exec} {w : Exec}
    (htake : s.execs.take ob.exec = before ++ w :: between) (hw : WritesTo ob.op.key w.op)
    (hbetween : ∀ e ∈ between, ¬WritesTo ob.op.key e.op) :
    before.length + 1 + between.length = ob.exec ∧
      (∃ r after, s.execs = before ++ w :: (between ++ r :: after)) ∧
      ∃ x ∈ s.observed, x.exec = before.length ∧ x.op = w.op := by
  obtain ⟨r, after, hexecs, hlt, hop, -⟩ := exists_exec htracked hob
  have hlength : before.length + 1 + between.length = ob.exec := by
    have := congrArg List.length htake
    rw [List.length_take_of_le (le_of_lt hlt), List.length_append, List.length_cons] at this
    omega
  rw [htake, List.append_assoc, List.cons_append] at hexecs
  have hrecorded := hreads before w between r after hexecs (hop ▸ hread) (hlength ▸ List.mem_map_of_mem hob)
    (hop ▸ hw) (hop ▸ hbetween)
  obtain ⟨x, hx, hxexec⟩ := List.mem_map.mp hrecorded
  obtain ⟨e, -, -, -, hxop, -, -, -, hget⟩ := exists_exec htracked hx
  rw [hxexec, hexecs, List.getElem?_append_right (le_refl _), Nat.sub_self] at hget
  obtain rfl : w = e := Option.some.inj hget
  exact ⟨hlength, ⟨r, after, hexecs⟩, x, hx, hxexec, hxop.symm⟩

/-- **What a recorded read observed is the last recorded write before it**, if it observed no write that
was left out. -/
theorem lastWrite_recorded (htracked : Tracked s) (hreads : ReadsRecordedWrites s) {k : Int}
    {pre post : List Observation} {ob : Observation} (hsplit : byExec s k = pre ++ ob :: post)
    (hread : ob.op.value = []) :
    lastWrite k (pre.map (·.op)) = lastWrite k ((s.execs.take ob.exec).map (·.op)) := by
  obtain ⟨hob, rfl⟩ := mem_byExec.mp (hsplit ▸ List.mem_append_right pre List.mem_cons_self : ob ∈ byExec s k)
  have hearlier : ∀ x ∈ pre, ∃ e, s.execs[x.exec]? = some e ∧ e.op = x.op ∧ x.exec < ob.exec := by
    intro x hx
    obtain ⟨⟨hmem, -⟩, hlt⟩ := (mem_pre htracked hsplit).mp hx
    obtain ⟨e, -, -, -, hop, -, -, -, hget⟩ := exists_exec htracked hmem
    exact ⟨e, hget, hop, hlt⟩
  cases hlast : lastWrite ob.op.key ((s.execs.take ob.exec).map (·.op)) with
  | none =>
      rw [lastWrite_eq_none] at hlast ⊢
      intro op hop
      obtain ⟨x, hx, rfl⟩ := List.mem_map.mp hop
      obtain ⟨e, hget, hop, hlt⟩ := hearlier x hx
      rw [← hop]
      refine hlast e.op (List.mem_map_of_mem (List.mem_of_getElem? (i := x.exec) ?_))
      rwa [List.getElem?_take_of_lt hlt]
  | some w =>
      obtain ⟨before, we, between, htake, rfl, hw, hbetween⟩ := exists_lastWrite hlast
      obtain ⟨hlength, ⟨r, after, hexecs⟩, x, hx, hxexec, hxop⟩ :=
        exists_recorded_write htracked hreads hob hread htake hw hbetween
      have hxpre : x ∈ pre := (mem_pre htracked hsplit).mpr ⟨⟨hx, hxop ▸ hw.1⟩, by omega⟩
      obtain ⟨front, back, rfl⟩ := List.append_of_mem hxpre
      rw [List.map_append, List.map_cons, hxop]
      refine lastWrite_eq_of_split hw fun op hback => ?_
      obtain ⟨y, hy, rfl⟩ := List.mem_map.mp hback
      obtain ⟨e, hget, hyop, hylt⟩ := hearlier y (List.mem_append_right _ (List.mem_cons_of_mem _ hy))
      have hxy : x.exec < y.exec := by
        have hordered := byExec_ordered htracked ob.op.key
        rw [hsplit] at hordered
        have := (List.pairwise_append.mp (List.pairwise_append.mp hordered).1).2.1
        exact (List.pairwise_cons.mp this).1 y hy
      rw [hexecs] at hget
      exact hyop ▸ hbetween e (mem_between hget (by omega) (by omega))

/-! ## Linearizing the record -/

/-- Replaying the record of a key in execution order is accepted by the register. -/
theorem run_byExec (htracked : Tracked s) (hreplayed : Replayed (registerTarget gen) s)
    (hlabels : ∀ ob ∈ s.observed, isAppendOp ob.op.type = false) (hreads : ReadsRecordedWrites s) (k : Int) :
    (run registerStep 0 ((byExec s k).map recordEvent)).isSome := by
  have hmap : run registerStep 0 ((byExec s k).map recordEvent) =
      run (fun st ob => registerStep st (recordEvent ob)) 0 (byExec s k) := run_map (fun _ _ _ => rfl) 0
  have hrun : run (fun st ob => registerStep st (recordEvent ob)) 0 (byExec s k) =
      some (token (lastWrite k ((byExec s k).map (·.op)))) := by
    refine run_eq_some_of_forall (fun pre : List Observation => token (lastWrite k (pre.map (·.op)))) rfl
      fun pre ob post hsplit => ?_
    obtain ⟨hob, hkey⟩ := mem_byExec.mp (hsplit ▸ List.mem_append_right pre List.mem_cons_self : ob ∈ byExec s k)
    rw [registerStep_record htracked hreplayed hob (hlabels ob hob), List.map_append, List.map_singleton,
      lastWrite_concat, hkey]
    by_cases hvalue : ob.op.value = []
    · rw [if_pos hvalue, lastWrite_recorded htracked hreads hsplit hvalue, if_pos rfl, if_neg fun h => h.2 hvalue]
    · rw [if_neg hvalue, if_pos ⟨hkey, hvalue⟩]
      rfl
  rw [hmap, hrun]
  rfl

theorem byKey_recordHistory (hlabels : ∀ ob ∈ s.observed, isAppendOp ob.op.type = false) (k : Int) :
    registerEvents ((recordHistory s).byKey k) = (s.observed.filter fun ob => ob.op.key = k).map recordEvent := by
  unfold registerEvents History.byKey recordHistory
  rw [List.filter_eq_self.mpr]
  · rw [List.filter_map]
    congr 1
    refine List.filter_congr fun ob _ => ?_
    simp [recordEvent]
  · intro e he
    obtain ⟨ob, hob, rfl⟩ := List.mem_map.mp (List.mem_filter.mp he).1
    unfold recordEvent
    rw [observe_family, hlabels ob hob]
    by_cases hvalue : ob.op.value = [] <;> simp [hvalue]

theorem recorded_linearizable (htracked : Tracked s) (hreplayed : Replayed (registerTarget gen) s)
    (hlabels : ∀ ob ∈ s.observed, isAppendOp ob.op.type = false) (hreads : ReadsRecordedWrites s) (k : Int) :
    LinearizableAsRecorded ((recordHistory s).byKey k) := by
  unfold LinearizableAsRecorded
  rw [byKey_recordHistory hlabels]
  refine ⟨(byExec s k).map recordEvent, (List.perm_insertionSort _ _).map _, ?_,
    run_byExec htracked hreplayed hlabels hreads k⟩
  refine List.pairwise_map.mpr ((byExec_ordered htracked k).imp_of_mem fun {a b} ha hb hlt hprec => ?_)
  obtain ⟨ea, -, -, -, -, -, hinvoke, -, hgeta⟩ := exists_exec htracked (mem_byExec.mp ha).1
  obtain ⟨eb, -, -, hltb, -, -, -, hcomplete, hgetb⟩ := exists_exec htracked (mem_byExec.mp hb).1
  -- `a` was executed before `b`, so `b` cannot have completed before `a` was invoked
  have htime : ea.time ≤ eb.time := by
    obtain ⟨ha', rfl⟩ := List.getElem?_eq_some_iff.mp hgeta
    obtain ⟨hb', rfl⟩ := List.getElem?_eq_some_iff.mp hgetb
    exact List.pairwise_iff_getElem.mp htracked.clock _ _ ha' hb' hlt
  simp only [Event.precedes, recordEvent, observe_interval] at hprec
  omega

/-- **Register verification of a run.** In every run against atomic registers, with any generators of
reads and writes, any number of connections, any warmup and any end of the run context: if no recorded
read observed a write that was left out of the record, the checker does not fail. -/
theorem register_run_not_fail (p : Porcupine) (hlabels : ∀ c i, isAppendOp (gen c i).type = false)
    (hreach : Reachable (step (registerTarget gen) o) (init (registerTarget gen)) s) (hreads : ReadsRecordedWrites s) :
    (checkRegister p (recordHistory s)).verdict ≠ .fail := by
  have htracked := tracked hreach
  have hreplayed := replayed hreach
  have hobserved : ∀ ob ∈ s.observed, isAppendOp ob.op.type = false := by
    intro ob hob
    obtain ⟨e, -, -, -, hop, -, -, -, hget⟩ := exists_exec htracked hob
    obtain ⟨i, hi⟩ := hreplayed.drawn e (List.mem_of_getElem? hget)
    rw [← hop, hi]
    exact hlabels _ _
  rw [ne_eq, checkRegister_fail_iff, not_exists]
  intro k
  rw [not_not, keyLinearizable_iff]
  exact recorded_linearizable htracked hreplayed hobserved hreads k

/-- One connection that writes during the warmup and then reads. -/
def warmupWrite : Nat → Nat → Operation := fun _ i =>
  if i = 0 then { type := "write", key := 0, value := [1], seq := 1 }
  else { type := "read", key := 0, value := [], seq := i + 1 }

/-- The write is dispatched at time zero, inside the warmup of ten, the read behind it. -/
def warmupRun : List Action :=
  [.wake 0, .dispatch 0, .exec 0, .ret 0, .finish 0, .tick 10, .wake 0, .dispatch 0, .exec 0, .ret 0, .finish 0]

theorem warmup_write_reported :
    ∃ s, Reachable (step (registerTarget warmupWrite) ⟨1, 10⟩) (init (registerTarget warmupWrite)) s ∧
      s.execs.length = 2 ∧ ∀ p : Porcupine, (checkRegister p (recordHistory s)).verdict = .fail := by
  obtain ⟨s, hreach, hlength, hhistory⟩ : ∃ s, Reachable (step (registerTarget warmupWrite) ⟨1, 10⟩)
      (init (registerTarget warmupWrite)) s ∧ s.execs.length = 2 ∧
        ¬LinearizableAsRecorded ((recordHistory s).byKey 0) :=
    exists_reachable warmupRun (by decide +kernel)
  refine ⟨s, hreach, hlength, fun p => ?_⟩
  rw [checkRegister_fail_iff]
  exact ⟨0, by rwa [keyLinearizable_iff]⟩

theorem readsRecordedWrites_of_overwritten {T : Type} {s : State T}
    (h : ∀ i (hi : i < s.execs.length), i ∈ s.observedExecs ∨
      ∃ hnext : i + 1 < s.execs.length, s.execs[i + 1].op.value ≠ [] ∧ s.execs[i + 1].op.key = s.execs[i].op.key) :
    ReadsRecordedWrites s := by
  intro before w between r after heq hread _ hwrites hbetween
  have hi : before.length < s.execs.length := by
    rw [heq, List.length_append, List.length_cons]
    omega
  rcases h before.length hi with hobserved | ⟨hnext, hvalue, hkey⟩
  · exact hobserved
  · exfalso
    have hw : s.execs[before.length] = w := by simp [heq]
    rw [hw] at hkey
    cases between with
    | nil =>
        have hr : s.execs[before.length + 1] = r := by simp [heq]
        rw [hr] at hvalue
        exact hvalue hread
    | cons e between =>
        have he : s.execs[before.length + 1] = e := by simp [heq]
        rw [he] at hvalue hkey
        exact hbetween e List.mem_cons_self ⟨hkey.trans hwrites.1, hvalue⟩

/-- One connection that writes during the warmup, writes again and then reads. -/
def rewritten : Nat → Nat → Operation := fun c i =>
  if i = 1 then { type := "write", key := 0, value := [2], seq := 2 } else warmupWrite c i

def rewrittenRun : List Action := warmupRun ++ [.wake 0, .dispatch 0, .exec 0, .ret 0, .finish 0]

/-- The first write is discarded, and overwritten before the read. -/
theorem register_run_not_fail_after_warmup :
    ∃ s, Reachable (step (registerTarget rewritten) ⟨1, 10⟩) (init (registerTarget rewritten)) s ∧
      s.execs.length = 3 ∧ s.observed.length = 2 ∧ (checkRegister exhaustive (recordHistory s)).verdict ≠ .fail := by
  obtain ⟨s, hreach, hexecs, hlength, hover⟩ : ∃ s, Reachable (step (registerTarget rewritten) ⟨1, 10⟩)
      (init (registerTarget rewritten)) s ∧ s.execs.length = 3 ∧ s.observed.length = 2 ∧
      ∀ i (hi : i < s.execs.length), i ∈ s.observedExecs ∨
        ∃ hnext : i + 1 < s.execs.length, s.execs[i + 1].op.value ≠ [] ∧ s.execs[i + 1].op.key = s.execs[i].op.key :=
    exists_reachable rewrittenRun (by decide +kernel)
  have hlabels : ∀ c i, isAppendOp (rewritten c i).type = false := by
    intro c i
    unfold rewritten warmupWrite
    split_ifs
    · decide
    · decide
    · exact (by decide : isAppendOp "read" = false)
  exact ⟨s, hreach, hexecs, hlength, register_run_not_fail exhaustive hlabels hreach
    (readsRecordedWrites_of_overwritten hover)⟩

end Proofload.Verify
