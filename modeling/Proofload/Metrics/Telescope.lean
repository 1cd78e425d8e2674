import Proofload.Metrics.Hdr
import Proofload.Metrics.Interval
import Mathlib.Algebra.Order.BigOperators.Group.Finset

/-!
# Intervals under concurrent recording (`core/metrics/interval.go`, `recorder.go`)

Any number of goroutines record, each into its own Local, take new Locals and merge whole Recorders in, while one
goroutine takes intervals. A `collect` locks the Locals one after another, so it may see a later state of one Local than
of another; it holds the Recorder's lock, so no Local is added meanwhile.

* `Account` : what every Local holds, and what of it was reported; every step keeps it (`Account.step`);
* `interval_sums_telescope` : the deltas returned so far sum to what the last `TakeInterval` saw, no bin is cut off at
  zero, and one more call after the recording has stopped brings the sums to the snapshot's.
-/

namespace Proofload.Metrics.Telescope
open Lib

set_option autoImplicit false

/-! ## The system -/

/-- Where the goroutine that takes intervals stands: in `collect` with `k` Locals merged, or behind it. -/
inductive Task (L : Layout) where
  | idle
  | collecting (k : Nat) (m : Merged L)
  | collected (m : Merged L)

/-- The Recorder, the deltas of the calls so far, and the aggregate that the last call saw. -/
structure State (L : Layout) where
  recorder : Recorder L
  task : Task L
  taken : List (Delta L)
  seen : Merged L

/-- What `collect` may return for another Recorder of the geometry `g`. -/
structure Aggregate (L : Layout) (g : Geometry) where
  merged : Merged L
  held : Multiset Measured
  tallied : Tallied g merged held

inductive Action (L : Layout) (g : Geometry) where
  | addLocal
  | record (i : Nat) (x : Measured)
  | merge (other : Aggregate L g)
  | collect
  | scan (k : Nat)
  | finish
  | diff

/-- The Recorder's lock is held by `collect`. -/
def State.locked {L : Layout} (s : State L) : Bool :=
  match s.task with
  | .collecting _ _ => true
  | .idle | .collected _ => false

/-- Before the first call nothing was seen. -/
def init (L : Layout) (opts : Options) : State L :=
  { recorder := new L opts, task := .idle, taken := [], seen := newMerged L (new L opts).geometry }

/-- One step of a recording goroutine or of the one that takes intervals. -/
def step {L : Layout} {g : Geometry} (o : IterOrder OpType) (s : State L) : Action L g → Option (State L)
  | .addLocal => if s.locked then none else some { s with recorder := s.recorder.addLocal }
  | .record i x => s.recorder.locals[i]?.map fun l =>
      { s with recorder := { s.recorder with locals := s.recorder.locals.set i (l.record x) } }
  | .merge other =>
      if s.locked then none
      else
        let l : Local L := { other.merged with high := s.recorder.high, sig := s.recorder.sig }
        some { s with recorder := { s.recorder with locals := s.recorder.locals ++ [l] } }
  | .collect =>
      match s.task with
      | .idle => some { s with task := .collecting 0 (newMerged L s.recorder.geometry) }
      | .collecting _ _ | .collected _ => none
  | .scan k =>
      match s.task with
      | .collecting k' m =>
          if k' = k then
            s.recorder.locals[k]?.map fun l =>
              { s with task := .collecting (k + 1) (mergeLocal o s.recorder.geometry m l) }
          else none
      | .idle | .collected _ => none
  | .finish =>
      match s.task with
      | .collecting k m => if k = s.recorder.locals.length then some { s with task := .collected m } else none
      | .idle | .collected _ => none
  | .diff =>
      match s.task with
      | .collected m =>
          let (ds, r) := s.recorder.diff m
          some { recorder := r, task := .idle, taken := s.taken ++ ds, seen := m }
      | .idle | .collecting _ _ => none

/-! ## What a step does -/

section Steps
variable {L : Layout} {g : Geometry} {o : IterOrder OpType} {s t : State L}

theorem step_addLocal (h : step o s (.addLocal : Action L g) = some t) :
    s.locked = false ∧ t = { s with recorder := s.recorder.addLocal } := by
  dsimp only [step] at h
  split at h
  · cases h
  · next hfree => exact ⟨by simpa using hfree, (Option.some.inj h).symm⟩

theorem step_record {i : Nat} {x : Measured} (h : step o s (.record i x : Action L g) = some t) :
    ∃ l, s.recorder.locals[i]? = some l ∧
      t = { s with recorder := { s.recorder with locals := s.recorder.locals.set i (l.record x) } } := by
  obtain ⟨l, hget, rfl⟩ := Option.map_eq_some_iff.mp h
  exact ⟨l, hget, rfl⟩

theorem step_merge {other : Aggregate L g} (h : step o s (.merge other) = some t) :
    s.locked = false ∧ t = { s with recorder := { s.recorder with
      locals := s.recorder.locals ++ [{ other.merged with high := s.recorder.high, sig := s.recorder.sig }] } } := by
  dsimp only [step] at h
  split at h
  · cases h
  · next hfree => exact ⟨by simpa using hfree, (Option.some.inj h).symm⟩

theorem step_collect (h : step o s (.collect : Action L g) = some t) :
    s.task = .idle ∧ t = { s with task := .collecting 0 (newMerged L s.recorder.geometry) } := by
  dsimp only [step] at h
  split at h
  · next hidle => exact ⟨hidle, (Option.some.inj h).symm⟩
  · cases h
  · cases h

theorem step_scan {k : Nat} (h : step o s (.scan k : Action L g) = some t) :
    ∃ m l, s.task = .collecting k m ∧ s.recorder.locals[k]? = some l ∧
      t = { s with task := .collecting (k + 1) (mergeLocal o s.recorder.geometry m l) } := by
  dsimp only [step] at h
  split at h
  · next k' m hs =>
    split at h
    · next hk =>
      subst hk
      obtain ⟨l, hget, rfl⟩ := Option.map_eq_some_iff.mp h
      exact ⟨m, l, hs, hget, rfl⟩
    · cases h
  · cases h
  · cases h

theorem step_finish (h : step o s (.finish : Action L g) = some t) :
    ∃ m, s.task = .collecting s.recorder.locals.length m ∧ t = { s with task := .collected m } := by
  dsimp only [step] at h
  split at h
  · next k m hs =>
    split at h
    · next hk =>
      subst hk
      exact ⟨m, hs, (Option.some.inj h).symm⟩
    · cases h
  · cases h
  · cases h

theorem step_diff (h : step o s (.diff : Action L g) = some t) :
    ∃ m, s.task = .collected m ∧
      t = ⟨(s.recorder.diff m).2, .idle, s.taken ++ (s.recorder.diff m).1, m⟩ := by
  dsimp only [step] at h
  split at h
  · next m hs => exact ⟨m, hs, (Option.some.inj h).symm⟩
  · cases h
  · cases h

theorem step_taken {a : Action L g} (h : step o s a = some t) (ha : a ≠ .diff) : t.taken = s.taken := by
  cases a with
  | addLocal =>
      obtain ⟨-, rfl⟩ := step_addLocal h
      rfl
  | record i x =>
      obtain ⟨l, -, rfl⟩ := step_record h
      rfl
  | merge other =>
      obtain ⟨-, rfl⟩ := step_merge h
      rfl
  | collect =>
      obtain ⟨-, rfl⟩ := step_collect h
      rfl
  | scan k =>
      obtain ⟨m, l, -, -, rfl⟩ := step_scan h
      rfl
  | finish =>
      obtain ⟨m, -, rfl⟩ := step_finish h
      rfl
  | diff => exact absurd rfl ha

end Steps

/-! ## The account of a run -/

/-- The first `n` positions together. -/
def sumTo (c : Nat → Multiset Measured) (n : Nat) : Multiset Measured := ∑ i ∈ Finset.range n, c i

theorem sumTo_succ (c : Nat → Multiset Measured) (n : Nat) : sumTo c (n + 1) = sumTo c n + c n :=
  Finset.sum_range_succ c n

theorem sumTo_congr {c c' : Nat → Multiset Measured} {n : Nat} (h : ∀ i < n, c i = c' i) : sumTo c n = sumTo c' n :=
  Finset.sum_congr rfl fun i hi => h i (Finset.mem_range.mp hi)

theorem sumTo_le {c c' : Nat → Multiset Measured} (n : Nat) (h : ∀ i, c i ≤ c' i) : sumTo c n ≤ sumTo c' n :=
  Finset.sum_le_sum fun i _ => h i

theorem new_high_pos (L : Layout) (opts : Options) : 0 < (new L opts).high := by
  show 0 < if opts.maxLatency ≤ 0 then defaultMaxLatency else opts.maxLatency
  split
  · decide
  · omega

section Account
variable {L : Layout} {g : Geometry} {opts : Options} {s t : State L} {contents base cut : Nat → Multiset Measured}

/-- The running `TakeInterval` takes the reported operations from `base` to `cut`; of the Locals that it has not
locked yet nothing was added. -/
def TaskAccount (g : Geometry) (n : Nat) (base cut : Nat → Multiset Measured) : Task L → Prop
  | .idle => cut = base
  | .collecting k m => k ≤ n ∧ (∀ i, k ≤ i → cut i = base i) ∧ Tallied g m (sumTo cut k)
  | .collected m => Tallied g m (sumTo cut n)

/-- The Locals hold `contents`, of which `base` was reported, and `cut` when the running `TakeInterval` is over. -/
structure Account (opts : Options) (s : State L) (contents base cut : Nat → Multiset Measured) : Prop where
  high : s.recorder.high = (new L opts).high
  sig : s.recorder.sig = (new L opts).sig
  held : Held s.recorder contents
  outside : ∀ i, s.recorder.locals.length ≤ i → contents i = 0
  base_le : ∀ i, base i ≤ cut i
  cut_le : ∀ i, cut i ≤ contents i
  reported : Reported s.recorder (sumTo base s.recorder.locals.length)
  sums : Sums s.recorder.geometry s.taken (sumTo base s.recorder.locals.length)
  seen : Tallied s.recorder.geometry s.seen (sumTo base s.recorder.locals.length)
  task : TaskAccount s.recorder.geometry s.recorder.locals.length base cut s.task

theorem Account.geometry (h : Account opts s contents base cut) : s.recorder.geometry = (new L opts).geometry := by
  unfold Recorder.geometry
  rw [h.high, h.sig]

theorem Account.high_nonneg (h : Account opts s contents base cut) : 0 ≤ s.recorder.geometry.high := by
  show 0 ≤ s.recorder.high
  rw [h.high]
  exact Int.le_of_lt (new_high_pos L opts)

theorem account_init (L : Layout) (opts : Options) :
    Account opts (init L opts) (fun _ => 0) (fun _ => 0) fun _ => 0 where
  high := rfl
  sig := rfl
  held := fun i l hget => by cases hget
  outside := fun _ _ => rfl
  base_le := fun _ => le_refl _
  cut_le := fun _ => le_refl _
  reported := reported_new L opts
  sums := sums_nil L _
  seen := tallied_zero L _
  task := rfl

/-! ## Steps of the recording goroutines -/

theorem Account.record (h : Account opts s contents base cut) {i : Nat} {l : Local L}
    (hget : s.recorder.locals[i]? = some l) (x : Measured) :
    Account opts { s with recorder := { s.recorder with locals := s.recorder.locals.set i (l.record x) } }
      (Function.update contents i (x ::ₘ contents i)) base cut := by
  have hlt := (List.getElem?_eq_some_iff.mp hget).1
  have hlength : (s.recorder.locals.set i (l.record x)).length = s.recorder.locals.length := List.length_set
  refine ⟨h.high, h.sig, h.held.record hget x, fun j hj => ?_, h.base_le, fun j => ?_, ?_, ?_, ?_, ?_⟩
  · dsimp only at hj
    rw [hlength] at hj
    rw [Function.update_of_ne (by omega)]
    exact h.outside j hj
  · by_cases hj : j = i
    · subst hj
      rw [Function.update_self]
      exact (h.cut_le j).trans (Multiset.le_cons_self _ x)
    · rw [Function.update_of_ne hj]
      exact h.cut_le j
  all_goals
    dsimp only
    rw [hlength]
  · exact h.reported
  · exact h.sums
  · exact h.seen
  · exact h.task

/-- One more Local that holds `ns`, while `collect` does not run: nothing of it was reported. -/
theorem Account.concat (h : Account opts s contents base cut) (hfree : s.locked = false) {l : Local L}
    (hhigh : l.high = s.recorder.high) (hsig : l.sig = s.recorder.sig) {ns : Multiset Measured}
    (hl : Tallied s.recorder.geometry l.toMerged ns) :
    Account opts { s with recorder := { s.recorder with locals := s.recorder.locals ++ [l] } }
      (Function.update contents s.recorder.locals.length ns) base cut := by
  have hlength : (s.recorder.locals ++ [l]).length = s.recorder.locals.length + 1 := List.length_append
  have hcut : cut s.recorder.locals.length = 0 :=
    Multiset.le_zero.mp ((h.cut_le _).trans_eq (h.outside _ (Nat.le_refl _)))
  have hbase : base s.recorder.locals.length = 0 := Multiset.le_zero.mp ((h.base_le _).trans_eq hcut)
  have hsum : sumTo base (s.recorder.locals.length + 1) = sumTo base s.recorder.locals.length := by
    rw [sumTo_succ, hbase, add_zero]
  refine ⟨h.high, h.sig, h.held.concat hhigh hsig hl, fun j hj => ?_, h.base_le, fun j => ?_, ?_, ?_, ?_, ?_⟩
  · dsimp only at hj
    rw [hlength] at hj
    rw [Function.update_of_ne (by omega)]
    exact h.outside j (by omega)
  · by_cases hj : j = s.recorder.locals.length
    · subst hj
      rw [hcut]
      exact Multiset.zero_le _
    · rw [Function.update_of_ne hj]
      exact h.cut_le j
  all_goals
    dsimp only
    rw [hlength]
  · rw [hsum]
    exact h.reported
  · rw [hsum]
    exact h.sums
  · rw [hsum]
    exact h.seen
  · have htask := h.task
    unfold State.locked at hfree
    cases hs : s.task with
    | idle =>
        rw [hs] at htask
        exact htask
    | collecting k m =>
        rw [hs] at hfree
        cases hfree
    | collected m =>
        rw [hs] at htask
        show Tallied s.recorder.geometry m (sumTo cut (s.recorder.locals.length + 1))
        rw [sumTo_succ, hcut, add_zero]
        exact htask

/-! ## Steps of the goroutine that takes intervals -/

theorem Account.collect (h : Account opts s contents base cut) (hidle : s.task = .idle) :
    Account opts { s with task := .collecting 0 (newMerged L s.recorder.geometry) } contents base cut := by
  have htask := h.task
  rw [hidle] at htask
  exact { h with task := ⟨Nat.zero_le _, fun i _ => congrFun htask i, tallied_zero L _⟩ }

theorem Account.scan (h : Account opts s contents base cut) (o : IterOrder OpType) {k : Nat} {m : Merged L}
    (hs : s.task = .collecting k m) {l : Local L} (hget : s.recorder.locals[k]? = some l) :
    Account opts { s with task := .collecting (k + 1) (mergeLocal o s.recorder.geometry m l) } contents base
      (Function.update cut k (contents k)) := by
  have htask := h.task
  rw [hs] at htask
  obtain ⟨-, hrest, hm⟩ := htask
  obtain ⟨-, -, hl⟩ := h.held k l hget
  refine { h with base_le := fun i => ?_, cut_le := fun i => ?_, task := ⟨?_, fun i hi => ?_, ?_⟩ }
  · by_cases hi : i = k
    · subst hi
      rw [Function.update_self]
      exact (h.base_le i).trans (h.cut_le i)
    · rw [Function.update_of_ne hi]
      exact h.base_le i
  · by_cases hi : i = k
    · subst hi
      rw [Function.update_self]
    · rw [Function.update_of_ne hi]
      exact h.cut_le i
  · exact (List.getElem?_eq_some_iff.mp hget).1
  · rw [Function.update_of_ne (by omega)]
    exact hrest i (by omega)
  · have hbefore : sumTo (Function.update cut k (contents k)) k = sumTo cut k :=
      sumTo_congr fun i hi => Function.update_of_ne (Nat.ne_of_lt hi) _ _
    rw [sumTo_succ, Function.update_self, hbefore]
    exact hm.mergeLocal o hl

theorem Account.finish (h : Account opts s contents base cut) {m : Merged L}
    (hs : s.task = .collecting s.recorder.locals.length m) :
    Account opts { s with task := .collected m } contents base cut := by
  have htask := h.task
  rw [hs] at htask
  exact { h with task := htask.2.2 }

theorem Account.diff (h : Account opts s contents base cut) {m : Merged L} (hs : s.task = .collected m) :
    ∃ ds r, s.recorder.diff m = (ds, r) ∧ KeepsLocals s.recorder r ∧
      Account opts ⟨r, .idle, s.taken ++ ds, m⟩ contents cut cut := by
  have htask := h.task
  rw [hs] at htask
  obtain ⟨ds, r, hdiff, hkeeps, hreported, hsums⟩ := h.sums.diff htask h.high_nonneg h.reported (sumTo_le _ h.base_le)
  have hgeom := hkeeps.geometry
  obtain ⟨hlocals, hrhigh, hrsig⟩ := hkeeps
  refine ⟨ds, r, hdiff, ⟨hlocals, hrhigh, hrsig⟩, hrhigh.trans h.high, hrsig.trans h.sig, ?_, ?_, fun _ => le_refl _,
    h.cut_le, ?_, ?_, ?_, rfl⟩
  all_goals dsimp only
  · unfold Held
    rw [hlocals, hrhigh, hrsig, hgeom]
    exact h.held
  · rw [hlocals]
    exact h.outside
  · rw [hlocals]
    exact hreported
  · rw [hlocals, hgeom]
    exact hsums
  · rw [hlocals, hgeom]
    exact htask

/-! ## All steps -/

/-- How a step moves what the Locals hold and what was merged of it. -/
def Moves (contents cut contents' cut' : Nat → Multiset Measured) : Action L g → Prop
  | .record i x => contents' = Function.update contents i (x ::ₘ contents i) ∧ cut' = cut
  | .merge _ => cut' = cut
  | .scan k => contents' = contents ∧ cut' = Function.update cut k (contents k)
  | .addLocal | .collect | .finish | .diff => contents' = contents ∧ cut' = cut

theorem Account.step (h : Account opts s contents base cut) {o : IterOrder OpType}
    {a : Action L (new L opts).geometry} (hstep : Telescope.step o s a = some t) :
    ∃ contents' base' cut', Account opts t contents' base' cut' ∧ Moves contents cut contents' cut' a := by
  cases a with
  | addLocal =>
      obtain ⟨hfree, rfl⟩ := step_addLocal hstep
      have hl : Tallied s.recorder.geometry (newLocal L s.recorder.high s.recorder.sig).toMerged 0 := tallied_zero L _
      have hnew := h.concat hfree rfl rfl hl
      rw [← h.outside _ (Nat.le_refl _), Function.update_eq_self] at hnew
      exact ⟨contents, base, cut, hnew, rfl, rfl⟩
  | record i x =>
      obtain ⟨l, hget, rfl⟩ := step_record hstep
      exact ⟨_, base, cut, h.record hget x, rfl, rfl⟩
  | merge other =>
      obtain ⟨hfree, rfl⟩ := step_merge hstep
      let l : Local L := { other.merged with high := s.recorder.high, sig := s.recorder.sig }
      have hl : Tallied s.recorder.geometry l.toMerged other.held := by
        rw [h.geometry]
        exact other.tallied
      exact ⟨_, base, cut, h.concat hfree rfl rfl hl, rfl⟩
  | collect =>
      obtain ⟨hidle, rfl⟩ := step_collect hstep
      exact ⟨contents, base, cut, h.collect hidle, rfl, rfl⟩
  | scan k =>
      obtain ⟨m, l, hs, hget, rfl⟩ := step_scan hstep
      exact ⟨contents, base, _, h.scan o hs hget, rfl, rfl⟩
  | finish =>
      obtain ⟨m, hs, rfl⟩ := step_finish hstep
      exact ⟨contents, base, cut, h.finish hs, rfl, rfl⟩
  | diff =>
      obtain ⟨m, hs, rfl⟩ := step_diff hstep
      obtain ⟨ds, r, hdiff, -, hnew⟩ := h.diff hs
      rw [hdiff]
      exact ⟨contents, cut, cut, hnew, rfl, rfl⟩

theorem account_of_reachable {o : IterOrder OpType}
    (h : Reachable (Telescope.step (g := (new L opts).geometry) o) (init L opts) s) :
    ∃ contents base cut, Account opts s contents base cut := by
  refine h.invariant (P := fun s => ∃ contents base cut, Account opts s contents base cut)
    ⟨_, _, _, account_init L opts⟩ fun s a t hs hstep => ?_
  obtain ⟨contents, base, cut, hs⟩ := hs
  obtain ⟨contents', base', cut', ht, -⟩ := hs.step hstep
  exact ⟨contents', base', cut', ht⟩

/-- What another Recorder collects, itself under concurrent recording, may be merged in. -/
theorem exists_aggregate {o : IterOrder OpType}
    (h : Reachable (Telescope.step (g := (new L opts).geometry) o) (init L opts) s) {m : Merged L}
    (hs : s.task = .collected m) : ∃ other : Aggregate L (new L opts).geometry, other.merged = m := by
  obtain ⟨contents, base, cut, haccount⟩ := account_of_reachable h
  have htask := haccount.task
  rw [hs, haccount.geometry] at htask
  exact ⟨⟨m, _, htask⟩, rfl⟩

/-! ## What an account says -/

/-- The collected count of a label in a bin. -/
def binCount (g : Geometry) (m : Merged L) (op : OpType) (i : Nat) : Int :=
  ((m.byOp.lookup op).getD (.new L g)).counts i

theorem Account.binSum_eq (h : Account opts s contents base cut) (op : OpType) (i : Nat) :
    binSum s.taken op i = binCount s.recorder.geometry s.seen op i := by
  unfold binCount
  rw [h.sums.bins, h.seen.getD_byOp]
  rfl

theorem Account.errSum_eq (h : Account opts s contents base cut) (op : OpType) :
    errSum s.taken op = (s.seen.errByOp.lookup op).getD 0 := by
  rw [h.sums.errs, h.seen.getD_errByOp]

theorem Account.countSum_eq (h : Account opts s contents base cut) :
    countSum s.taken = s.seen.overall.totalCount ∧ (s.taken.map (·.errors)).sum = s.seen.errTotal := by
  rw [h.sums.total, h.sums.errTotal, h.seen.overall, h.seen.errTotal, totalCount_values L h.high_nonneg]
  exact ⟨rfl, rfl⟩

theorem Account.call (h : Account opts s contents base cut) (o : IterOrder OpType) :
    ∃ ds r, s.recorder.diff (s.recorder.collect o) = (ds, r) ∧ KeepsLocals s.recorder r ∧
      Account opts ⟨r, .idle, s.taken ++ ds, s.recorder.collect o⟩ contents contents contents := by
  have hcollected : Account opts { s with task := .collected (s.recorder.collect o) } contents base contents :=
    { h with
      base_le := fun i => (h.base_le i).trans (h.cut_le i)
      cut_le := fun _ => le_refl _
      task := h.held.collect o }
  exact hcollected.diff rfl

end Account

/-! ## One more call -/

section Call
variable {L : Layout} {g : Geometry} (o : IterOrder OpType) (s : State L)

/-- The steps of a `TakeInterval` with `n` Locals. -/
def takeSteps (L : Layout) (g : Geometry) (n : Nat) : List (Action L g) :=
  .collect :: ((List.range n).map .scan ++ [.finish, .diff])

theorem run_scan {n : Nat} (hn : n ≤ s.recorder.locals.length) :
    run (step (g := g) o) { s with task := .collecting 0 (newMerged L s.recorder.geometry) }
        ((List.range n).map .scan) =
      some { s with task := .collecting n ((s.recorder.locals.take n).foldl (mergeLocal o s.recorder.geometry)
        (newMerged L s.recorder.geometry)) } := by
  induction n with
  | zero => rfl
  | succ n ih =>
      have hget : s.recorder.locals[n]? = some (s.recorder.locals[n]) := List.getElem?_eq_getElem hn
      rw [List.range_succ, List.map_append, run_append, ih (Nat.le_of_succ_le hn)]
      show run (step (g := g) o) _ [.scan n] = _
      rw [run_cons]
      dsimp only [step]
      rw [if_pos rfl, hget]
      show some _ = some _
      rw [List.take_add_one, hget, Option.toList_some, List.foldl_append]
      rfl

theorem run_takeSteps (hidle : s.task = .idle) :
    run (step (g := g) o) s (takeSteps L g s.recorder.locals.length) =
      some ⟨(s.recorder.diff (s.recorder.collect o)).2, .idle,
        s.taken ++ (s.recorder.diff (s.recorder.collect o)).1, s.recorder.collect o⟩ := by
  have hscan := run_scan (g := g) o s (Nat.le_refl _)
  rw [List.take_length] at hscan
  unfold takeSteps
  rw [run_cons]
  dsimp only [step]
  rw [hidle, Option.bind_some, run_append, hscan]
  show run (step (g := g) o) _ [.finish, .diff] = _
  rw [run_cons]
  dsimp only [step]
  rw [if_pos rfl]
  rfl

end Call

/-- **Interval deltas telescope under concurrent recording.** In every reachable state:
the deltas returned so far sum, in every bin of every label and in the errors, to what the last `TakeInterval` saw;
the captured bin is never above the collected one when the bins are subtracted; and from a state in which no
`TakeInterval` runs, the steps of one more call with no recording in between return what `takeInterval` computes and
make the sums equal to what `Snapshot` shows. -/
theorem interval_sums_telescope (D : Hdr) (opts : Options) (o : IterOrder OpType) {s : State D.toLayout}
    (hreach : Reachable (step (g := (new D.toLayout opts).geometry) o) (init D.toLayout opts) s) :
    ((∀ op i, binSum s.taken op i = binCount s.recorder.geometry s.seen op i) ∧
      ∀ op, errSum s.taken op = (s.seen.errByOp.lookup op).getD 0) ∧
    (∀ m, s.task = .collected m → ∀ op snap, s.recorder.prevSnap.lookup op = some snap → ∀ i,
      snap.counts[i]?.getD 0 ≤ binCount s.recorder.geometry m op i) ∧
    (s.task = .idle → ∃ t ds,
      run (step (g := (new D.toLayout opts).geometry) o) s (takeSteps _ _ s.recorder.locals.length) = some t ∧
      t.taken = s.taken ++ ds ∧
      (∀ now dt, s.recorder.takeInterval D o now dt = (ds.map (latencySnapshot D now dt), t.recorder)) ∧
      t.recorder.locals = s.recorder.locals ∧
      (∀ op i, binSum t.taken op i = binCount t.recorder.geometry (t.recorder.collect o) op i) ∧
      (∀ op, errSum t.taken op = ((t.recorder.collect o).errByOp.lookup op).getD 0) ∧
      ∀ phase dur, countSum t.taken = (t.recorder.snapshot D o phase dur).total ∧
        (t.taken.map (·.errors)).sum = (t.recorder.snapshot D o phase dur).errors) := by
  obtain ⟨contents, base, cut, h⟩ := account_of_reachable hreach
  refine ⟨⟨h.binSum_eq, h.errSum_eq⟩, fun m hm op snap hsnap i => ?_, fun hidle => ?_⟩
  · have htask := h.task
    rw [hm] at htask
    unfold binCount
    rw [htask.getD_byOp]
    exact captured_le (h.reported op) (sumTo_le _ h.base_le) hsnap i
  · obtain ⟨ds, r, hdiff, hkeeps, h'⟩ := h.call o
    have hcollect : r.collect o = s.recorder.collect o := by
      unfold Recorder.collect
      rw [hkeeps.1, hkeeps.geometry]
    have htake : ∀ now dt, s.recorder.takeInterval D o now dt = (ds.map (latencySnapshot D now dt), r) := by
      intro now dt
      unfold Recorder.takeInterval
      rw [hdiff]
    refine ⟨_, ds, run_takeSteps o s hidle, ?_⟩
    rw [hdiff]
    dsimp only
    rw [hcollect]
    refine ⟨rfl, htake, hkeeps.1, h'.binSum_eq, h'.errSum_eq, fun phase dur => ?_⟩
    show _ = (r.collect o).overall.totalCount ∧ _ = (r.collect o).errTotal
    rw [hcollect]
    exact h'.countSum_eq

/-- An operation that is recorded into the first Local after `collect` has passed it, one into the second before that,
and an empty Recorder that is merged in later. -/
def overtakenRun : List (Action layout (new layout ⟨0, 0⟩).geometry) :=
  [.addLocal, .addLocal, .record 0 ⟨"read", 5000, false⟩, .collect, .scan 0, .record 0 ⟨"read", 6000, true⟩,
    .record 1 ⟨"write", 7000, false⟩, .scan 1, .finish, .merge ⟨_, 0, tallied_zero layout _⟩, .diff]

theorem interval_sums_telescope_on_overtaken_run :
    ∃ s, run (step (IterOrder.stored OpType)) (init layout ⟨0, 0⟩) overtakenRun = some s ∧
      (∀ op i, binSum s.taken op i = binCount s.recorder.geometry s.seen op i) ∧
      ∃ t, run (step (g := (new layout ⟨0, 0⟩).geometry) (IterOrder.stored OpType)) s
          (takeSteps layout _ s.recorder.locals.length) = some t ∧
        countSum t.taken = (t.recorder.snapshot hdr (IterOrder.stored OpType) .measure 0).total := by
  obtain ⟨s, hrun, hidle⟩ : ∃ s, run (step (IterOrder.stored OpType)) (init layout ⟨0, 0⟩) overtakenRun = some s ∧
      s.task = .idle := ⟨_, rfl, rfl⟩
  obtain ⟨⟨hbins, -⟩, -, hcall⟩ := interval_sums_telescope hdr ⟨0, 0⟩ (IterOrder.stored OpType) ⟨overtakenRun, hrun⟩
  obtain ⟨t, ds, ht, -, -, -, -, -, htotal⟩ := hcall hidle
  exact ⟨s, hrun, hbins, t, ht, (htotal .measure 0).1⟩

end Proofload.Metrics.Telescope
