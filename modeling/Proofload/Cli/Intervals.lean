import Proofload.Metrics.Telescope
import Proofload.Schedule.Scheduler

/-!
# The time series of a run (`core/cli/run.go`: `collectIntervals`)

A goroutine waits for a tick or for the end of the run. On a tick it takes an interval and keeps the snapshots with a
count; at the end it returns, without taking a last interval.

* `Tracked` : a Local has been merged completely if and only if no Record came after it was locked last;
* `series_complete_iff` : the series accounts for every operation if and only if every Record is followed by a
  `TakeInterval` that locks its Local.
-/

namespace Proofload.Cli
open Lib Metrics

set_option autoImplicit false

/-! ## The code -/

/-- The Recorder with the goroutine's `TakeInterval`, the ticker's channel, which holds one tick, the tick being
served, the `done` and `fin` channels, and the series. -/
structure Sampler (D : Hdr) where
  sys : Telescope.State D.toLayout
  tick : Option Int
  now : Int
  done : Bool
  fin : Bool
  snaps : List LatencySnapshot

inductive Event where
  | addLocal
  | record (i : Nat) (x : Measured)
  | fire (now : Int)
  | receive
  | scan (k : Nat)
  | finish
  | diff
  | stop
  | exit
deriving DecidableEq

/-- The snapshots of an interval that are kept. -/
def kept (D : Hdr) (now : Int) (ds : List (Delta D.toLayout)) : List LatencySnapshot :=
  (ds.map (latencySnapshot D now Schedule.second)).filter fun s => 0 < s.pct.count

/-- The geometry of `metrics.New(metrics.Options{})`. -/
abbrev defaultGeometry (D : Hdr) : Geometry := (Metrics.new D.toLayout ⟨0, 0⟩).geometry

/-- A step of the Recorder or of `TakeInterval`. -/
def Sampler.inner (D : Hdr) (o : IterOrder OpType) (s : Sampler D)
    (a : Telescope.Action D.toLayout (defaultGeometry D)) : Option (Sampler D) :=
  (Telescope.step o s.sys a).map fun sys => { s with sys }

/-- One event: of the workers until `stop`, of the ticker and of the goroutine until it returns. With a tick and `done`
both ready, `select` takes either. -/
def Sampler.step (D : Hdr) (o : IterOrder OpType) (s : Sampler D) : Event → Option (Sampler D)
  | .addLocal => if s.done then none else s.inner D o .addLocal
  | .record i x => if s.done then none else s.inner D o (.record i x)
  | .fire now => if s.fin then none else some { s with tick := some (s.tick.getD now) }
  | .receive =>
      if s.fin then none
      else s.tick.bind fun now => (s.inner D o .collect).map fun t => { t with tick := none, now }
  | .scan k => s.inner D o (.scan k)
  | .finish => s.inner D o .finish
  | .diff =>
      match s.sys.task with
      | .collected m =>
          (s.inner D o .diff).map fun t => { t with snaps := s.snaps ++ kept D s.now (s.sys.recorder.diff m).1 }
      | .idle | .collecting _ _ => none
  | .stop => if s.done then none else some { s with done := true }
  | .exit =>
      match s.sys.task with
      | .idle => if s.done ∧ ¬ s.fin then some { s with fin := true } else none
      | .collecting _ _ | .collected _ => none

/-- `collectIntervals` on the Recorder of `drive`. -/
def Sampler.start (D : Hdr) : Sampler D :=
  { sys := Telescope.init D.toLayout ⟨0, 0⟩, tick := none, now := 0, done := false, fin := false, snaps := [] }

/-! ## The snapshots that are dropped -/

variable {D : Hdr}

def seriesCount (snaps : List LatencySnapshot) : Int := (snaps.map fun s => s.pct.count).sum

def seriesErrors (snaps : List LatencySnapshot) : Int := (snaps.map fun s => s.errors).sum

theorem kept_sums (now : Int) {ds : List (Delta D.toLayout)}
    (heach : ∀ d ∈ ds, 0 ≤ d.errors ∧ d.errors ≤ d.hist.totalCount) :
    seriesCount (kept D now ds) = countSum ds ∧ seriesErrors (kept D now ds) = (ds.map (·.errors)).sum := by
  induction ds with
  | nil => exact ⟨rfl, rfl⟩
  | cons d ds ih =>
      obtain ⟨hcount, herrors⟩ := ih fun e he => heach e (List.mem_cons_of_mem d he)
      obtain ⟨hlow, hhigh⟩ := heach d List.mem_cons_self
      have hpct : (latencySnapshot D now Schedule.second d).pct.count = d.hist.totalCount := rfl
      have hsum : countSum (d :: ds) = d.hist.totalCount + countSum ds := rfl
      unfold kept at hcount herrors ⊢
      rw [List.map_cons, List.filter_cons, hpct, hsum, List.map_cons, List.sum_cons]
      by_cases hpos : 0 < d.hist.totalCount
      · rw [if_pos (decide_eq_true hpos)]
        exact ⟨congrArg (d.hist.totalCount + ·) hcount, congrArg (d.errors + ·) herrors⟩
      · rw [if_neg (by simpa using hpos), hcount, herrors]
        omega

/-! ## The Records that were merged -/

/-- Every Record into the Local `i` is followed by a lock of it in `collect`. -/
def SampledAt (as : List Event) (i : Nat) : Prop := ∀ pre x post, as = pre ++ .record i x :: post → .scan i ∈ post

theorem sampledAt_concat (as : List Event) (a : Event) (i : Nat) :
    SampledAt (as ++ [a]) i ↔ (∀ x, a ≠ .record i x) ∧ (a = .scan i ∨ SampledAt as i) := by
  constructor
  · intro h
    refine ⟨fun x ha => ?_, ?_⟩
    · subst ha
      exact absurd (h as x [] rfl) List.not_mem_nil
    · by_cases ha : a = .scan i
      · exact Or.inl ha
      · refine Or.inr fun pre x post has => ?_
        have hmem := h pre x (post ++ [a]) (by rw [has, List.append_assoc]; rfl)
        rw [List.mem_append, List.mem_singleton] at hmem
        exact hmem.resolve_right (Ne.symm ha)
  · rintro ⟨hrecord, h⟩ pre x post hsplit
    obtain rfl | ⟨post, b, rfl⟩ := List.eq_nil_or_concat post
    · obtain ⟨-, ha⟩ := List.append_inj' hsplit rfl
      exact absurd (List.cons.inj ha).1 (hrecord x)
    · rw [List.concat_eq_append] at hsplit ⊢
      rw [← List.cons_append, ← List.append_assoc] at hsplit
      obtain ⟨has, hb⟩ := List.append_inj' hsplit rfl
      obtain rfl := (List.cons.inj hb).1
      rw [List.mem_append, List.mem_singleton]
      exact h.elim (fun ha => Or.inr ha.symm) fun h => Or.inl (h pre x post has)

/-- The step of the Recorder or of `TakeInterval` that an event is. -/
def Event.action (D : Hdr) : Event → Option (Telescope.Action D.toLayout (defaultGeometry D))
  | .addLocal => some .addLocal
  | .record i x => some (.record i x)
  | .receive => some .collect
  | .scan k => some (.scan k)
  | .finish => some .finish
  | .diff => some .diff
  | .fire _ | .stop | .exit => none

section Steps
variable {o : IterOrder OpType} {s t : Sampler D} {e : Event}

theorem inner_eq_some {a : Telescope.Action D.toLayout (defaultGeometry D)} (h : s.inner D o a = some t) :
    Telescope.step o s.sys a = some t.sys ∧ t = { s with sys := t.sys } := by
  obtain ⟨sys, hsys, rfl⟩ := Option.map_eq_some_iff.mp h
  exact ⟨hsys, rfl⟩

/-- What an event does: it is a step of the Recorder or leaves it alone, the kept snapshots are those of the deltas it
takes, and it keeps that nothing is under way when the goroutine has returned. -/
structure Stepped (D : Hdr) (o : IterOrder OpType) (s : Sampler D) (e : Event) (t : Sampler D) : Prop where
  sys : match e.action D with
    | some a => Telescope.step o s.sys a = some t.sys
    | none => t.sys = s.sys
  series : ∃ ds, t.sys.taken = s.sys.taken ++ ds ∧ t.snaps = s.snaps ++ kept D s.now ds
  final : (s.fin = true → s.done = true ∧ s.sys.task = .idle) → t.fin = true → t.done = true ∧ t.sys.task = .idle

theorem Stepped.of_inner {a : Telescope.Action D.toLayout (defaultGeometry D)} (he : e.action D = some a)
    (hdiff : a ≠ .diff) (h : s.inner D o a = some t)
    (hfinal : s.fin = true → ¬ (s.done = true ∧ s.sys.task = .idle)) : Stepped D o s e t := by
  obtain ⟨hsys, ht⟩ := inner_eq_some h
  refine ⟨?_, ⟨[], ?_, ?_⟩, fun hs hfin => ?_⟩
  · rw [he]
    exact hsys
  · rw [List.append_nil]
    exact Telescope.step_taken hsys hdiff
  · rw [ht]
    exact (List.append_nil s.snaps).symm
  · rw [ht] at hfin
    exact absurd (hs hfin) (hfinal hfin)

theorem Stepped.of_outer (he : e.action D = none) (hsys : t.sys = s.sys) (hsnaps : t.snaps = s.snaps)
    (hfinal : (s.fin = true → s.done = true ∧ s.sys.task = .idle) → t.fin = true → t.done = true ∧ s.sys.task = .idle) :
    Stepped D o s e t := by
  refine ⟨?_, ⟨[], ?_, ?_⟩, ?_⟩
  · rw [he]
    exact hsys
  · rw [hsys, List.append_nil]
  · rw [hsnaps]
    exact (List.append_nil s.snaps).symm
  · rw [hsys]
    exact hfinal

theorem stepped (hstep : s.step D o e = some t) : Stepped D o s e t := by
  cases e with
  | addLocal | record i x =>
      dsimp only [Sampler.step] at hstep
      split at hstep
      · cases hstep
      · next hdone => exact .of_inner rfl nofun hstep fun _ h => hdone h.1
  | fire now =>
      dsimp only [Sampler.step] at hstep
      split at hstep
      · cases hstep
      · obtain rfl := Option.some.inj hstep
        exact .of_outer rfl rfl rfl fun h => h
  | receive =>
      dsimp only [Sampler.step] at hstep
      split at hstep
      · cases hstep
      · next hfin =>
        obtain ⟨now, -, hstep⟩ := Option.bind_eq_some_iff.mp hstep
        obtain ⟨u, hu, rfl⟩ := Option.map_eq_some_iff.mp hstep
        obtain ⟨hsys, hseries, -⟩ := Stepped.of_inner (e := .receive) rfl nofun hu fun h => absurd h hfin
        obtain ⟨-, hu⟩ := inner_eq_some hu
        refine ⟨hsys, hseries, fun _ h => ?_⟩
        rw [hu] at h
        exact absurd h hfin
  | scan k =>
      refine .of_inner rfl nofun hstep fun _ h => ?_
      obtain ⟨m, l, hs, -⟩ := Telescope.step_scan (inner_eq_some hstep).1
      rw [h.2] at hs
      cases hs
  | finish =>
      refine .of_inner rfl nofun hstep fun _ h => ?_
      obtain ⟨m, hs, -⟩ := Telescope.step_finish (inner_eq_some hstep).1
      rw [h.2] at hs
      cases hs
  | diff =>
      dsimp only [Sampler.step] at hstep
      split at hstep
      · next m hm =>
        obtain ⟨u, hu, rfl⟩ := Option.map_eq_some_iff.mp hstep
        obtain ⟨hsys, hu⟩ := inner_eq_some hu
        refine ⟨hsys, ⟨(s.sys.recorder.diff m).1, ?_, rfl⟩, fun h hfin => ?_⟩
        · obtain ⟨m', hm', ht⟩ := Telescope.step_diff hsys
          obtain rfl := Telescope.Task.collected.inj (hm.symm.trans hm')
          exact congrArg Telescope.State.taken ht
        · rw [hu] at hfin
          have hidle := (h hfin).2
          rw [hm] at hidle
          cases hidle
      · cases hstep
      · cases hstep
  | stop =>
      dsimp only [Sampler.step] at hstep
      split at hstep
      · cases hstep
      · obtain rfl := Option.some.inj hstep
        exact .of_outer rfl rfl rfl fun h hfin => ⟨rfl, (h hfin).2⟩
  | exit =>
      dsimp only [Sampler.step] at hstep
      split at hstep
      · next hidle =>
        split at hstep
        · next hdone =>
          obtain rfl := Option.some.inj hstep
          exact .of_outer rfl rfl rfl fun _ _ => ⟨hdone.1, hidle⟩
        · cases hstep
      · cases hstep
      · cases hstep

end Steps

/-! ## Whole runs -/

/-- A Local has been merged completely if and only if no Record came after it was locked last. -/
structure Tracked (as : List Event) (s : Sampler D) (contents base cut : Nat → Multiset Measured) : Prop where
  account : Telescope.Account ⟨0, 0⟩ s.sys contents base cut
  count : seriesCount s.snaps = countSum s.sys.taken
  errors : seriesErrors s.snaps = (s.sys.taken.map (·.errors)).sum
  final : s.fin = true → s.done = true ∧ s.sys.task = .idle
  sampled : ∀ i, cut i = contents i ↔ SampledAt as i

/-- An event that is no Record and no lock of a Local changes nothing about what is merged. -/
theorem sampledAt_other {as : List Event} {e : Event} {i : Nat} (hrecord : ∀ x, e ≠ .record i x) (hscan : e ≠ .scan i) :
    SampledAt (as ++ [e]) i ↔ SampledAt as i := by
  rw [sampledAt_concat]
  exact ⟨fun h => h.2.resolve_left hscan, fun h => ⟨hrecord, Or.inr h⟩⟩

theorem sampled_step {as : List Event} {e : Event} {a : Telescope.Action D.toLayout (defaultGeometry D)}
    {contents cut contents' cut' : Nat → Multiset Measured} (he : e.action D = some a)
    (hmoves : Telescope.Moves contents cut contents' cut' a) (hle : ∀ i, cut i ≤ contents i)
    (h : ∀ i, cut i = contents i ↔ SampledAt as i) (i : Nat) : cut' i = contents' i ↔ SampledAt (as ++ [e]) i := by
  cases e with
  | fire _ | stop | exit => cases he
  | addLocal | receive | finish | diff =>
      obtain rfl := Option.some.inj he
      obtain ⟨rfl, rfl⟩ := hmoves
      apply (h i).trans
      symm
      apply sampledAt_other
      · exact fun _ => nofun
      · exact nofun
  | record j x =>
      obtain rfl := Option.some.inj he
      obtain ⟨rfl, rfl⟩ := hmoves
      by_cases hi : i = j
      · subst hi
        rw [Function.update_self, sampledAt_concat]
        refine ⟨fun heq => ?_, fun hsampled => absurd rfl (hsampled.1 x)⟩
        exact absurd (hle i) (not_le_of_gt (heq ▸ Multiset.lt_cons_self _ x))
      · rw [Function.update_of_ne hi]
        apply (h i).trans
        symm
        apply sampledAt_other
        · exact fun y heq => hi (Event.record.inj heq).1.symm
        · exact nofun
  | scan k =>
      obtain rfl := Option.some.inj he
      obtain ⟨rfl, rfl⟩ := hmoves
      by_cases hi : i = k
      · subst hi
        rw [Function.update_self, sampledAt_concat]
        exact ⟨fun _ => ⟨fun _ => nofun, Or.inl rfl⟩, fun _ => rfl⟩
      · rw [Function.update_of_ne hi]
        apply (h i).trans
        symm
        apply sampledAt_other
        · exact fun _ => nofun
        · exact fun heq => hi (Event.scan.inj heq).symm

theorem Tracked.step {o : IterOrder OpType} {as : List Event} {s t : Sampler D} {e : Event}
    {contents base cut : Nat → Multiset Measured} (h : Tracked as s contents base cut) (hstep : s.step D o e = some t) :
    ∃ contents' base' cut', Tracked (as ++ [e]) t contents' base' cut' := by
  obtain ⟨hsys, ⟨ds, htaken, hsnaps⟩, hfinal⟩ := stepped hstep
  obtain ⟨contents', base', cut', haccount, hsampled⟩ : ∃ contents' base' cut',
      Telescope.Account ⟨0, 0⟩ t.sys contents' base' cut' ∧ ∀ i, cut' i = contents' i ↔ SampledAt (as ++ [e]) i := by
    cases he : e.action D with
    | none =>
        rw [he] at hsys
        refine ⟨contents, base, cut, hsys ▸ h.account, fun i => ?_⟩
        refine (h.sampled i).trans (sampledAt_other (fun x heq => ?_) fun heq => ?_).symm
        · rw [heq] at he
          cases he
        · rw [heq] at he
          cases he
    | some a =>
        rw [he] at hsys
        obtain ⟨contents', base', cut', haccount, hmoves⟩ := h.account.step hsys
        exact ⟨contents', base', cut', haccount, sampled_step he hmoves h.account.cut_le h.sampled⟩
  have heach : ∀ d ∈ ds, 0 ≤ d.errors ∧ d.errors ≤ d.hist.totalCount := fun d hd =>
    haccount.sums.each d (by rw [htaken]; exact List.mem_append_right _ hd)
  obtain ⟨hcount, herrors⟩ := kept_sums s.now heach
  refine ⟨contents', base', cut', haccount, ?_, ?_, hfinal h.final, hsampled⟩
  · rw [hsnaps, htaken]
    unfold seriesCount countSum at hcount ⊢
    rw [List.map_append, List.map_append, List.sum_append, List.sum_append, hcount]
    exact congrArg (· + _) h.count
  · rw [hsnaps, htaken]
    unfold seriesErrors at herrors ⊢
    rw [List.map_append, List.map_append, List.sum_append, List.sum_append, herrors]
    exact congrArg (· + _) h.errors

theorem tracked_of_run {o : IterOrder OpType} {as : List Event} {s : Sampler D}
    (hrun : run (Sampler.step D o) (Sampler.start D) as = some s) :
    ∃ contents base cut, Tracked as s contents base cut := by
  refine run_trace (P := fun as s => ∃ contents base cut, Tracked as s contents base cut) ?_ ?_ hrun
  · refine ⟨fun _ => 0, fun _ => 0, fun _ => 0, Telescope.account_init D.toLayout ⟨0, 0⟩, rfl, rfl, nofun, fun i => ?_⟩
    exact ⟨fun _ pre x post h => absurd h.symm (by simp), fun _ => rfl⟩
  · intro as s e t hs hstep
    obtain ⟨contents, base, cut, h⟩ := hs
    exact h.step hstep

/-- **The time series is complete if and only if the last Records were sampled.** When `stop` returns, the counts and
the errors of the series sum to those of the Recorder if and only if every Record was followed by a `TakeInterval` that
locked its Local. -/
theorem series_complete_iff (D : Hdr) (o : IterOrder OpType) {as : List Event} {s : Sampler D}
    (hrun : run (Sampler.step D o) (Sampler.start D) as = some s) (hfin : s.fin = true) :
    (seriesCount s.snaps = (s.sys.recorder.collect o).overall.totalCount ∧
      seriesErrors s.snaps = (s.sys.recorder.collect o).errTotal) ↔
    ∀ pre i x post, as = pre ++ .record i x :: post → .scan i ∈ post := by
  obtain ⟨contents, base, cut, h⟩ := tracked_of_run hrun
  have hsampled : (∀ pre i x post, as = pre ++ .record i x :: post → .scan i ∈ post) ↔ ∀ i, cut i = contents i :=
    ⟨fun hpost i => (h.sampled i).mpr fun pre x post => hpost pre i x post,
      fun heq pre i x post => (h.sampled i).mp (heq i) pre x post⟩
  obtain rfl : cut = base := by
    have htask := h.account.task
    rw [(h.final hfin).2] at htask
    exact htask
  have hcollect := h.account.held.collect o
  rw [h.count, h.errors, h.account.sums.total, h.account.sums.errTotal, hcollect.overall, hcollect.errTotal,
    totalCount_values D.toLayout h.account.high_nonneg, hsampled]
  constructor
  · rintro ⟨hcard, -⟩ i
    have hsum := Multiset.eq_of_le_of_card_le (Telescope.sumTo_le s.sys.recorder.locals.length h.account.cut_le)
      (Int.ofNat_le.mp (le_of_eq hcard.symm))
    by_cases hi : i < s.sys.recorder.locals.length
    · exact (Finset.sum_eq_sum_iff_of_le fun j _ => h.account.cut_le j).mp hsum i (Finset.mem_range.mpr hi)
    · have hzero := h.account.outside i (Nat.le_of_not_lt hi)
      rw [hzero]
      exact Multiset.le_zero.mp (hzero ▸ h.account.cut_le i)
  · intro heq
    obtain rfl : cut = contents := funext heq
    exact ⟨rfl, rfl⟩

/-- One operation, and a tick that is served before the end. -/
def servedRun : List Event :=
  [.addLocal, .record 0 ⟨"read", 5000, false⟩, .fire 1, .receive, .scan 0, .finish, .diff, .stop, .exit]

theorem series_complete_iff_on_served_tick :
    ∃ s, run (Sampler.step hdr (IterOrder.stored OpType)) (Sampler.start hdr) servedRun = some s ∧ s.fin = true ∧
      seriesCount s.snaps = (s.sys.recorder.collect (IterOrder.stored OpType)).overall.totalCount := by
  obtain ⟨s, hrun, hfin⟩ : ∃ s,
      run (Sampler.step hdr (IterOrder.stored OpType)) (Sampler.start hdr) servedRun = some s ∧ s.fin = true :=
    ⟨_, rfl, rfl⟩
  refine ⟨s, hrun, hfin, ((series_complete_iff hdr (IterOrder.stored OpType) hrun hfin).mpr ?_).1⟩
  intro pre i x post hsplit
  rcases pre with _ | ⟨a, _ | ⟨b, pre⟩⟩
  · cases hsplit
  · obtain ⟨-, hsplit⟩ := List.cons.inj hsplit
    obtain ⟨hrecord, rfl⟩ := List.cons.inj hsplit
    obtain ⟨rfl, -⟩ := Event.record.inj hrecord
    decide
  · obtain ⟨-, hsplit⟩ := List.cons.inj hsplit
    obtain ⟨-, hsplit⟩ := List.cons.inj hsplit
    have hmem : Event.record i x ∈ pre ++ .record i x :: post := List.mem_append_right _ List.mem_cons_self
    rw [← List.append_eq, ← hsplit] at hmem
    simp at hmem

/-- A run that ends before the first tick: the Recorder has counted an operation, the series is empty. -/
theorem short_run_not_sampled :
    ∃ s, run (Sampler.step hdr (IterOrder.stored OpType)) (Sampler.start hdr)
        [.addLocal, .record 0 ⟨"read", 5000, false⟩, .stop, .exit] = some s ∧
      s.fin = true ∧ seriesCount s.snaps = 0 ∧
      (s.sys.recorder.collect (IterOrder.stored OpType)).overall.totalCount = 1 := by
  obtain ⟨s, hrun, hfin, hsnaps, hrecorder⟩ : ∃ s, run (Sampler.step hdr (IterOrder.stored OpType)) (Sampler.start hdr)
        [.addLocal, .record 0 ⟨"read", 5000, false⟩, .stop, .exit] = some s ∧ s.fin = true ∧ s.snaps = [] ∧
      run Recorder.act (Metrics.new hdr.toLayout ⟨0, 0⟩) [.addLocal, .record 0 ⟨"read", 5000, false⟩] =
        some s.sys.recorder :=
    ⟨_, rfl, rfl, rfl, rfl⟩
  obtain ⟨hhigh, -, htallied⟩ := collect_of_run hrecorder
  have hnonneg : 0 ≤ s.sys.recorder.geometry.high := by
    show 0 ≤ s.sys.recorder.high
    rw [hhigh]
    decide
  refine ⟨s, hrun, hfin, by rw [hsnaps]; rfl, ?_⟩
  rw [(htallied _).overall, totalCount_values hdr.toLayout hnonneg]
  rfl

end Proofload.Cli
