import Proofload.Verify.WriteLog

/-!
# Expectation logs of runs with failures

A target may answer an operation with an error and still have applied it, in part or as a whole; `writeLogObserver`
takes the acknowledged writes only. What such a target owes to a run is that an acknowledged write stays.

* `readLog_acknowledged` : the reduced log expects the payload of exactly the keys with an acknowledged measured write;
* `readBack_eq_self_iff` : when read-back adds nothing to the report;
* `reconcile_acknowledged` : read-back over it, if the target keeps what it acknowledged;
* `executed_before` : the recorded intervals and the order of the executions;
* `Durable.held` : what an acknowledged write establishes holds at the end of the run, and `Durable.reads` : so it does
  during the read-back.
-/

namespace Proofload.Verify
open Lib WorkloadGen Runner

set_option autoImplicit false

variable {T : Type} {sets : OpType → Prop} {size : Int} {d : Deps T} {o : Runner.Options} {s : State T}

/-- A write of the key that the target acknowledged. -/
def Acknowledged (sets : OpType → Prop) (k : Int) (ob : Observation) : Prop :=
  ob.res.err = none ∧ sets ob.op.type ∧ ob.op.key = k

theorem writeLogObserve_eq_some_iff (hsize : 1 ≤ size) {op : Operation} (hop : CarriesPayload sets size op)
    (res : OpResult) (rec : WriteRecord) :
    writeLogObserve op res = some rec ↔
      res.err = none ∧ sets op.type ∧ rec = ⟨op.key, checksum (value op.key size), op.seq⟩ := by
  unfold writeLogObserve
  cases res.err with
  | some e => simp
  | none =>
      rcases hop with ⟨htype, hvalue⟩ | ⟨htype, hvalue⟩
      · rw [hvalue]
        simp [htype]
      · have hne : value op.key size ≠ [] := value_ne_nil _ (by omega)
        rw [hvalue, if_neg (by simp [hne]), Option.some_inj]
        exact ⟨fun h => ⟨rfl, htype, h.symm⟩, fun h => h.2.2.symm⟩

theorem readLog_acknowledged (hsize : 1 ≤ size) (hobserved : ∀ ob ∈ s.observed, CarriesPayload sets size ob.op)
    (k : Int) :
    (((readLog (expectationLog s)).lookup k).isSome ↔ ∃ ob ∈ s.observed, Acknowledged sets k ob) ∧
      ∀ rec, (readLog (expectationLog s)).lookup k = some rec → rec.checksum = checksum (value k size) := by
  have hmem : ∀ rec, rec ∈ expectationLog s ↔ ∃ ob ∈ s.observed, ob.res.err = none ∧ sets ob.op.type ∧
      rec = ⟨ob.op.key, checksum (value ob.op.key size), ob.op.seq⟩ := by
    intro rec
    unfold expectationLog
    rw [List.mem_filterMap]
    exact exists_congr fun ob => and_congr_right fun hob =>
      writeLogObserve_eq_some_iff hsize (hobserved ob hob) ob.res rec
  refine ⟨?_, fun rec hrec => ?_⟩
  · rw [← Option.ne_none_iff_isSome, ne_eq, readLog_lookup_eq_none]
    push Not
    constructor
    · rintro ⟨rec, hrec, hkey⟩
      obtain ⟨ob, hob, herr, htype, rfl⟩ := (hmem rec).mp hrec
      exact ⟨ob, hob, herr, htype, hkey⟩
    · rintro ⟨ob, hob, herr, htype, hkey⟩
      exact ⟨_, (hmem _).mpr ⟨ob, hob, herr, htype, rfl⟩, hkey⟩
  · obtain ⟨hrec, hkey⟩ := readLog_lookup_eq_some hrec
    obtain ⟨ob, -, -, -, rfl⟩ := (hmem rec).mp hrec
    dsimp only at hkey ⊢
    rw [hkey]

theorem readBack_eq_self_iff (execute : Operation → OpResult) (expected : Map Int WriteRecord) (o : ReconcileOptions)
    (iter : IterOrder Int) (report : VerifyReport) :
    readBack execute expected o iter report = report ↔
      ∀ k want, expected.lookup k = some want → Found execute o k want := by
  refine ⟨fun h k want hwant => ?_, (readBack_spec execute expected o iter report).2⟩
  rw [readBack_eq] at h
  have hnil := List.append_right_eq_self.mp (congrArg VerifyReport.anomalies h)
  have hmem : k ∈ iter.order expected.keys := by
    rw [iter.mem_order, Map.mem_keys_iff, hwant]
    rfl
  have hnone := List.filterMap_eq_nil_iff.mp hnil k hmem
  rw [hwant, Option.bind_some] at hnone
  exact (keyAnomaly_eq_none_iff execute o k want).mp hnone

/-- Reconciliation of a run whose acknowledged writes are there: if an answered read of such a key returns the payload,
read-back adds nothing to the report exactly if all its reads are answered. -/
theorem reconcile_acknowledged (hsize : 1 ≤ size) (hobserved : ∀ ob ∈ s.observed, CarriesPayload sets size ob.op)
    {answer : Operation → OpResult} {opts : ReconcileOptions}
    (hanswer : ∀ k, ∀ ob ∈ s.observed, Acknowledged sets k ob → (answer ⟨opts.readOp, k, [], 0⟩).err = none →
      coerceBytes (answer ⟨opts.readOp, k, [], 0⟩).observed = some (value k size)) :
    (∀ k, ((readLog (expectationLog s)).lookup k).isSome ↔ ∃ ob ∈ s.observed, Acknowledged sets k ob) ∧
    (∀ k rec, (readLog (expectationLog s)).lookup k = some rec → rec.checksum = checksum (value k size)) ∧
    ∀ (iter : IterOrder Int) (report : VerifyReport),
      readBack answer (readLog (expectationLog s)) opts iter report = report ↔
        ∀ k, ((readLog (expectationLog s)).lookup k).isSome → (answer ⟨opts.readOp, k, [], 0⟩).err = none := by
  have hlog := readLog_acknowledged hsize hobserved
  refine ⟨fun k => (hlog k).1, fun k => (hlog k).2, fun iter report => ?_⟩
  rw [readBack_eq_self_iff]
  refine forall_congr' fun k => ⟨fun h hsome => ?_, fun h want hwant => ?_⟩
  · obtain ⟨want, hwant⟩ := Option.isSome_iff_exists.mp hsome
    exact (h want hwant).1
  · have hsome : ((readLog (expectationLog s)).lookup k).isSome := by
      rw [hwant]
      rfl
    obtain ⟨ob, hob, hack⟩ := (hlog k).1.mp hsome
    refine ⟨h hsome, _, hanswer k ob hob hack (h hsome), ?_⟩
    rw [(hlog k).2 want hwant]

/-- An operation that was observed to end before another one began was executed before it. -/
theorem executed_before (h : Tracked s) {ob ob' : Observation} (hob : ob ∈ s.observed) (hob' : ob' ∈ s.observed)
    (hlt : ob'.complete < ob.invoke) : ∃ e ∈ s.execs.take ob.exec, e.op = ob'.op ∧ e.res = ob'.res := by
  obtain ⟨e, -, -, hi, -, -, hge, -, hget⟩ := exists_exec h hob
  obtain ⟨e', -, -, hj, hop', hres', -, hle', hget'⟩ := exists_exec h hob'
  refine ⟨e', ?_, hop', hres'⟩
  have horder : ob'.exec < ob.exec := by
    by_contra hnot
    have hne : ob.exec ≠ ob'.exec := by
      intro heq
      rw [heq] at hget
      have hsame : e' = e := Option.some.inj (hget'.symm.trans hget)
      rw [hsame] at hle'
      omega
    have htime := List.pairwise_iff_getElem.mp h.clock ob.exec ob'.exec hi hj (by omega)
    rw [(List.getElem?_eq_some_iff.mp hget).2, (List.getElem?_eq_some_iff.mp hget').2] at htime
    omega
  rw [List.mem_iff_getElem?]
  exact ⟨ob'.exec, by rw [List.getElem?_take_of_lt horder, hget']⟩

/-- The target after reads of these keys. -/
def afterReads (d : Deps T) (readOp : OpType) (t : T) (keys : List Int) : T :=
  keys.foldl (fun t k => (d.execute t ⟨readOp, k, [], 0⟩).1) t

/-- The answer to an operation of the read-back; `before` are the keys that were read before its key. -/
def readBackOn (d : Deps T) (readOp : OpType) (t : T) (before : Int → List Int) (op : Operation) : OpResult :=
  (d.execute (afterReads d readOp t (before op.key)) op).2

/-- Among the operations in `P`, an acknowledged write makes its key held, and no operation ends that. `I` is what
the operations keep of the target. -/
structure Durable (d : Deps T) (P : Operation → Prop) (sets : OpType → Prop) (I : T → Prop) (Held : T → Int → Prop) :
    Prop where
  start : I d.empty
  keeps : ∀ t op, P op → I t → I (d.execute t op).1
  kept : ∀ t op k, P op → I t → Held t k → Held (d.execute t op).1 k
  made : ∀ t op, P op → I t → sets op.type → (d.execute t op).2.err = none → Held (d.execute t op).1 op.key

namespace Durable

variable {P : Operation → Prop} {I : T → Prop} {Held : T → Int → Prop}

theorem invariant (h : Durable d P sets I Held) {execs : List Exec} (hexecs : ∀ e ∈ execs, P e.op) :
    I (d.after execs) := by
  induction execs using List.reverseRecOn with
  | nil => exact h.start
  | append_singleton execs e ih =>
      rw [after_concat]
      exact h.keeps _ _ (hexecs e (by simp)) (ih fun x hx => hexecs x (List.mem_append_left _ hx))

theorem held_append (h : Durable d P sets I Held) {pre post : List Exec} (hexecs : ∀ e ∈ pre ++ post, P e.op) {k : Int}
    (hk : Held (d.after pre) k) : Held (d.after (pre ++ post)) k := by
  induction post using List.reverseRecOn with
  | nil => rwa [List.append_nil]
  | append_singleton post e ih =>
      rw [← List.append_assoc] at hexecs ⊢
      have hbefore : ∀ x ∈ pre ++ post, P x.op := fun x hx => hexecs x (List.mem_append_left _ hx)
      rw [after_concat]
      exact h.kept _ _ _ (hexecs e (by simp)) (h.invariant hbefore) (ih hbefore)

/-- **Acknowledged writes last.** In every run, the key of an acknowledged measured write is held at the end. -/
theorem held (h : Durable d P sets I Held) (hgen : ∀ c i, P (d.gen c i)) (hreach : Reachable (step d o) (init d) s)
    {k : Int} {ob : Observation} (hob : ob ∈ s.observed) (hack : Acknowledged sets k ob) :
    I s.target ∧ Held s.target k := by
  have hexecs := (replayed hreach).forall_execs hgen
  obtain ⟨e, post, hsplit, -, hop, hres, -⟩ := exists_exec (tracked hreach) hob
  have hresult := (replayed hreach).result _ _ _ hsplit
  generalize hpre : s.execs.take ob.exec = pre at hsplit hresult
  obtain ⟨herr, htype, rfl⟩ := hack
  rw [← hres] at herr
  rw [← hop] at htype ⊢
  rw [(replayed hreach).target]
  refine ⟨h.invariant hexecs, ?_⟩
  rw [hsplit, List.append_cons] at hexecs ⊢
  apply h.held_append hexecs
  rw [after_concat]
  refine h.made _ _ (hexecs e (by simp)) (h.invariant fun x hx => hexecs x (by simp [hx])) htype ?_
  rw [← hresult, herr]

theorem reads (h : Durable d P sets I Held) {readOp : OpType} (hread : ∀ k, P ⟨readOp, k, [], 0⟩) (keys : List Int)
    {t : T} (ht : I t) {k : Int} (hk : Held t k) :
    I (afterReads d readOp t keys) ∧ Held (afterReads d readOp t keys) k := by
  induction keys generalizing t with
  | nil => exact ⟨ht, hk⟩
  | cons k' keys ih => exact ih (h.keeps t _ (hread k') ht) (h.kept t _ k (hread k') ht hk)

end Durable
end Proofload.Verify
