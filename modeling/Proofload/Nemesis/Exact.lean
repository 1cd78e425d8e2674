import Proofload.Nemesis.Run

/-!
# The plan, action by action (`core/nemesis/scheduler.go`)

What `plan` holds for each spec, where the heals are, and in which order the actions stand.

* `unroll_eq` : the offsets of a spec, when no sum overflows;
* `mem_schedule`, `heals_schedule` : the actions of the sorted occurrences;
* `plan_exact` : the whole plan over a positive window;
* `one_shot_planned_iff` : which one-shot faults the plan of `begin` holds.
-/

namespace Proofload.Nemesis
open Lib

set_option autoImplicit false

/-! ## The occurrences of a spec -/

/-- Occurrence `k` of a spec is before the end of the window. -/
def Occurs (window : I64) (sp : FaultSpec) (k : Nat) : Prop :=
  (k = 0 ∨ 0 < sp.repeat'.val) ∧ sp.at'.val + k * sp.repeat'.val < window.val

instance (window : I64) (sp : FaultSpec) : DecidablePred (Occurs window sp) := fun k =>
  inferInstanceAs (Decidable ((k = 0 ∨ 0 < sp.repeat'.val) ∧ sp.at'.val + k * sp.repeat'.val < window.val))

/-- No sum that the plan forms overflows: neither the offset that ends an unrolling loop nor the offset of a heal. -/
structure NoOverflow (window : I64) (specs : List FaultSpec) : Prop where
  next : ∀ sp ∈ specs, 0 < sp.repeat'.val → ∀ k : Nat, sp.at'.val + k * sp.repeat'.val < window.val →
    sp.at'.val + (k + 1) * sp.repeat'.val < 2 ^ 63
  heal : ∀ sp ∈ specs, 0 < sp.duration.val → ∀ k, Occurs window sp k →
    sp.at'.val + k * sp.repeat'.val + sp.duration.val < 2 ^ 63

theorem Occurs.val_ofInt {window : I64} {sp : FaultSpec} {k : Nat} (h : Occurs window sp k) :
    (I64.ofInt (sp.at'.val + k * sp.repeat'.val)).val = sp.at'.val + k * sp.repeat'.val := by
  have hat := sp.at'.ge
  have hwindow := window.lt
  obtain ⟨hk, hlt⟩ := h
  apply I64.ofInt_val _ (by omega)
  rcases hk with rfl | hpos
  · simpa using hat
  · have : 0 ≤ (k : Int) * sp.repeat'.val := Int.mul_nonneg (by omega) hpos.le
    omega

theorem unroll_once {window : I64} {sp : FaultSpec} (hrep : sp.repeat'.val ≤ 0) :
    unroll window sp = some (if 0 < window.val ∧ window.val ≤ sp.at'.val then [] else [sp.at']) := by
  have hround : unroll window sp = unrollLoop window sp.repeat' (2 ^ 64 - 1 + 1) sp.at' := rfl
  rw [hround, unrollLoop]
  simp only [I64.lt_def, I64.le_def, I64.zero_val, hrep, true_or, if_true]
  split_ifs <;> rfl

section Unroll
variable {window : I64} {sp : FaultSpec}

/-- Every offset up to the one that ends the loop is exact, if none of the loop's sums overflows. -/
theorem offset_exact (hrep : 0 < sp.repeat'.val)
    (hnext : ∀ k : Nat, sp.at'.val + k * sp.repeat'.val < window.val → sp.at'.val + (k + 1) * sp.repeat'.val < 2 ^ 63)
    {n : Nat} (hbefore : ∀ k < n, I64.ofInt (sp.at'.val + k * sp.repeat'.val) < window) {j : Nat} (hj : j ≤ n) :
    sp.at'.val + j * sp.repeat'.val < 2 ^ 63 ∧
      (I64.ofInt (sp.at'.val + j * sp.repeat'.val)).val = sp.at'.val + j * sp.repeat'.val := by
  have hat := sp.at'.ge
  have hnonneg : ∀ j : Nat, 0 ≤ (j : Int) * sp.repeat'.val := fun j => Int.mul_nonneg (Int.natCast_nonneg j) hrep.le
  have hlt : sp.at'.val + j * sp.repeat'.val < 2 ^ 63 := by
    induction j with
    | zero => simpa using sp.at'.lt
    | succ j ih =>
        have hin := hbefore j (by omega)
        rw [I64.lt_def, I64.ofInt_val (by have := hnonneg j; omega) (ih (by omega))] at hin
        push_cast
        exact hnext j hin
  exact ⟨hlt, I64.ofInt_val (by have := hnonneg j; omega) hlt⟩

theorem unroll_eq_repeated (hw : 0 < window.val) (hrep : 0 < sp.repeat'.val)
    (hnext : ∀ k : Nat, sp.at'.val + k * sp.repeat'.val < window.val → sp.at'.val + (k + 1) * sp.repeat'.val < 2 ^ 63) :
    ∃ n : Nat, unroll window sp = some ((List.range n).map fun k : Nat => I64.ofInt (sp.at'.val + k * sp.repeat'.val)) ∧
      ∀ k, k < n ↔ Occurs window sp k := by
  obtain ⟨l, hl⟩ := unroll_isSome hnext
  obtain ⟨n, rfl, hmem, hpast⟩ := unrollLoop_offsets hw hrep hl
  have hbefore : ∀ k < n, I64.ofInt (sp.at'.val + k * sp.repeat'.val) < window :=
    fun k hk => hmem _ (List.mem_map.mpr ⟨k, List.mem_range.mpr hk, rfl⟩)
  refine ⟨n, hl, fun k => ⟨fun hk => ⟨Or.inr hrep, ?_⟩, fun hk => ?_⟩⟩
  · have hin := hbefore k hk
    rwa [I64.lt_def, (offset_exact hrep hnext hbefore hk.le).2] at hin
  · by_contra hge
    rw [I64.le_def, (offset_exact hrep hnext hbefore le_rfl).2] at hpast
    have : (n : Int) * sp.repeat'.val ≤ k * sp.repeat'.val := Int.mul_le_mul_of_nonneg_right (by omega) hrep.le
    have := hk.2
    omega

theorem unroll_eq_once (hw : 0 < window.val) (hrep : ¬ 0 < sp.repeat'.val) :
    ∃ n : Nat, unroll window sp = some ((List.range n).map fun k : Nat => I64.ofInt (sp.at'.val + k * sp.repeat'.val)) ∧
      ∀ k, k < n ↔ Occurs window sp k := by
  have hfirst : I64.ofInt (sp.at'.val + (0 : Nat) * sp.repeat'.val) = sp.at' := by simp [I64.ofInt_self]
  rw [unroll_once (by omega)]
  by_cases hin : sp.at'.val < window.val
  · refine ⟨1, ?_, fun k => ⟨fun hk => ?_, fun hk => by have := hk.1.resolve_right hrep; omega⟩⟩
    · rw [if_neg (by omega), List.range_one, List.map_singleton, hfirst]
    · obtain rfl : k = 0 := by omega
      exact ⟨Or.inl rfl, by simpa using hin⟩
  · refine ⟨0, ?_, fun k => ⟨fun hk => absurd hk (by omega), fun hk => ?_⟩⟩
    · rw [if_pos (by omega)]
      rfl
    · obtain rfl : k = 0 := hk.1.resolve_right hrep
      have := hk.2
      simp only [Nat.cast_zero, Int.zero_mul, Int.add_zero] at this
      omega

/-- **The occurrences of a spec.** Over a positive window they are the offsets before its end, in order. -/
theorem unroll_eq (hw : 0 < window.val)
    (hnext : 0 < sp.repeat'.val → ∀ k : Nat, sp.at'.val + k * sp.repeat'.val < window.val →
      sp.at'.val + (k + 1) * sp.repeat'.val < 2 ^ 63) :
    ∃ n : Nat, unroll window sp = some ((List.range n).map fun k : Nat => I64.ofInt (sp.at'.val + k * sp.repeat'.val)) ∧
      ∀ k, k < n ↔ Occurs window sp k := by
  by_cases hrep : 0 < sp.repeat'.val
  · exact unroll_eq_repeated hw hrep (hnext hrep)
  · exact unroll_eq_once hw hrep

end Unroll

theorem occurrence_spec {window : I64} {specs : List FaultSpec} (hw : 0 < window.val) (hno : NoOverflow window specs)
    {occs : List Occ} (hoccs : occurrences window 0 specs = some occs) (i : Nat) (sp : FaultSpec) (t : Int) :
    (∃ o ∈ occs, o.idx = i ∧ o.spec = sp ∧ o.at'.val = t) ↔
      specs[i]? = some sp ∧ ∃ k, Occurs window sp k ∧ t = sp.at'.val + k * sp.repeat'.val := by
  constructor
  · rintro ⟨o, ho, rfl, rfl, rfl⟩
    obtain ⟨n, l, hspec, hl, hmem, hidx⟩ := (mem_occurrences hoccs o).mp ho
    rw [Nat.zero_add] at hidx
    rw [hidx]
    obtain ⟨m, hunroll, hrange⟩ := unroll_eq hw (hno.next o.spec (List.mem_of_getElem? hspec))
    obtain rfl := Option.some.inj (hl.symm.trans hunroll)
    obtain ⟨k, hk, hat⟩ := List.mem_map.mp hmem
    have hoccurs := (hrange k).mp (List.mem_range.mp hk)
    exact ⟨hspec, k, hoccurs, by rw [← hat, hoccurs.val_ofInt]⟩
  · rintro ⟨hspec, k, hoccurs, rfl⟩
    obtain ⟨m, hunroll, hrange⟩ := unroll_eq hw (hno.next sp (List.mem_of_getElem? hspec))
    refine ⟨{ at' := I64.ofInt (sp.at'.val + k * sp.repeat'.val), idx := i, spec := sp }, ?_, rfl, rfl,
      hoccurs.val_ofInt⟩
    refine (mem_occurrences hoccs _).mpr ⟨i, _, hspec, hunroll, ?_, (Nat.zero_add i).symm⟩
    exact List.mem_map.mpr ⟨k, List.mem_range.mpr ((hrange k).mpr hoccurs), rfl⟩

theorem occurrences_nodup {window : I64} {specs : List FaultSpec} (hw : 0 < window.val) (hno : NoOverflow window specs)
    {i : Nat} {occs : List Occ} (hoccs : occurrences window i specs = some occs) :
    (occs.map fun o => (o.idx, o.at'.val)).Nodup := by
  induction specs generalizing i occs with
  | nil =>
      obtain rfl := Option.some.inj hoccs
      exact List.nodup_nil
  | cons sp specs ih =>
      simp only [occurrences, Option.bind_eq_bind, Option.bind_eq_some_iff] at hoccs
      obtain ⟨offsets, hoffsets, rest, hrest, hoccs⟩ := hoccs
      obtain rfl := Option.some.inj hoccs
      have hlater : NoOverflow window specs :=
        ⟨fun sp hsp => hno.next sp (List.mem_cons_of_mem _ hsp), fun sp hsp => hno.heal sp (List.mem_cons_of_mem _ hsp)⟩
      obtain ⟨n, hunroll, hrange⟩ := unroll_eq hw (hno.next sp List.mem_cons_self)
      obtain rfl := Option.some.inj (hoffsets.symm.trans hunroll)
      rw [List.map_append, List.map_map, List.map_map]
      refine List.nodup_append.mpr ⟨List.nodup_range.map_on fun k hk l hl hkl => ?_, ih hlater hrest,
        fun p hp q hq hpq => ?_⟩
      · have hk := (hrange k).mp (List.mem_range.mp hk)
        have hl := (hrange l).mp (List.mem_range.mp hl)
        have hsame := (Prod.mk.inj hkl).2
        dsimp only at hsame
        rw [hk.val_ofInt, hl.val_ofInt] at hsame
        rcases hk.1 with rfl | hpos
        · rcases hl.1 with rfl | hpos
          · rfl
          · have : ((0 : Nat) : Int) = l := mul_right_cancel₀ hpos.ne' (Int.add_left_cancel hsame)
            omega
        · have : (k : Int) = l := mul_right_cancel₀ hpos.ne' (Int.add_left_cancel hsame)
          omega
      · obtain ⟨k, -, rfl⟩ := List.mem_map.mp hp
        obtain ⟨o, ho, rfl⟩ := List.mem_map.mp hq
        obtain ⟨m, -, -, -, -, hidx⟩ := (mem_occurrences hrest o).mp ho
        have := (Prod.mk.inj hpq).1
        dsimp only at this
        omega

/-! ## The actions of the occurrences -/

section Schedule
variable (s : Scheduler)

theorem pick_mem {f : Fault} (htarget : f.target = "") (hnodes : s.nodes ≠ []) (rng : PRNG) :
    (s.pick f rng).1 ∈ s.nodes := by
  unfold Scheduler.pick
  rw [if_neg (by simpa using htarget), dif_neg hnodes]
  exact List.get_mem _ _

/-- The injection and the heal of an occurrence on a node. -/
def Occ.injectAction (o : Occ) (node : Node) : Action :=
  { at' := o.at', inject := true, ft := o.spec.fault.type, node := node, params := o.spec.fault.params, idx := o.idx }

def Occ.healAction (o : Occ) (node : Node) : Action :=
  { at' := o.at' + o.spec.duration, inject := false, ft := "", node := node, params := [], idx := o.idx }

theorem schedule_cons (o : Occ) (occs : List Occ) (rng : PRNG) : s.schedule (o :: occs) rng =
    o.injectAction (s.pick o.spec.fault rng).1 ::
      ((if 0 < o.spec.duration then [o.healAction (s.pick o.spec.fault rng).1] else []) ++
        s.schedule occs (s.pick o.spec.fault rng).2) := rfl

theorem mem_schedule {occs : List Occ} {rng : PRNG} {a : Action} (ha : a ∈ s.schedule occs rng) :
    ∃ o ∈ occs, ∃ rng', a = o.injectAction (s.pick o.spec.fault rng').1 ∨
      (0 < o.spec.duration ∧ a = o.healAction (s.pick o.spec.fault rng').1) := by
  induction occs generalizing rng with
  | nil => cases ha
  | cons o occs ih =>
      rw [schedule_cons, List.mem_cons, List.mem_append] at ha
      rcases ha with rfl | ha | ha
      · exact ⟨o, List.mem_cons_self, rng, Or.inl rfl⟩
      · split_ifs at ha with hdur
        · exact ⟨o, List.mem_cons_self, rng, Or.inr ⟨hdur, List.mem_singleton.mp ha⟩⟩
        · cases ha
      · obtain ⟨o', ho', hfrom⟩ := ih ha
        exact ⟨o', List.mem_cons_of_mem _ ho', hfrom⟩

theorem injects_schedule (occs : List Occ) (rng : PRNG) :
    ((s.schedule occs rng).filter (·.inject)).map (fun a => (a.idx, a.at'.val)) =
      occs.map fun o => (o.idx, o.at'.val) := by
  induction occs generalizing rng with
  | nil => rfl
  | cons o occs ih =>
      rw [schedule_cons, List.filter_cons_of_pos rfl, List.filter_append, List.map_cons, List.map_append, ih]
      split_ifs <;> rfl

/-- The heal of an injection: its spec, its node and the exact end of the fault. -/
def healOf (specs : List FaultSpec) (a : Action) : Option (Nat × Node × Int) :=
  match specs[a.idx]? with
  | some sp => if 0 < sp.duration.val then some (a.idx, a.node, a.at'.val + sp.duration.val) else none
  | none => none

/-- Every injection of a fault with a duration is followed by its heal, and there are no others. -/
theorem heals_schedule {specs : List FaultSpec} {occs : List Occ} (hspec : ∀ o ∈ occs, specs[o.idx]? = some o.spec)
    (hfits : ∀ o ∈ occs, 0 < o.spec.duration.val → o.at'.val + o.spec.duration.val < 2 ^ 63) (rng : PRNG) :
    ((s.schedule occs rng).filter (!·.inject)).map (fun a => (a.idx, a.node, a.at'.val)) =
      ((s.schedule occs rng).filter (·.inject)).filterMap (healOf specs) := by
  induction occs generalizing rng with
  | nil => rfl
  | cons o occs ih =>
      have hrest := ih (fun o ho => hspec o (List.mem_cons_of_mem _ ho))
        (fun o ho => hfits o (List.mem_cons_of_mem _ ho))
        (s.pick o.spec.fault rng).2
      have hat := o.at'.ge
      rw [schedule_cons, List.filter_cons_of_neg (by simp [Occ.injectAction]), List.filter_cons_of_pos rfl,
        List.filter_append, List.filter_append, List.map_append, List.filterMap_cons, List.filterMap_append, hrest]
      have hheal : healOf specs (o.injectAction (s.pick o.spec.fault rng).1) =
          if 0 < o.spec.duration.val then
            some (o.idx, (s.pick o.spec.fault rng).1, o.at'.val + o.spec.duration.val) else none := by
        unfold healOf
        rw [show (o.injectAction (s.pick o.spec.fault rng).1).idx = o.idx from rfl, hspec o List.mem_cons_self]
        rfl
      rw [hheal]
      by_cases hdur : 0 < o.spec.duration.val
      · have hsum : (o.at' + o.spec.duration).val = o.at'.val + o.spec.duration.val :=
          I64.ofInt_val (by omega) (hfits o List.mem_cons_self hdur)
        rw [if_pos hdur, if_pos (show 0 < o.spec.duration from hdur)]
        simp [Occ.healAction, hsum]
      · rw [if_neg hdur, if_neg (show ¬ 0 < o.spec.duration from hdur)]
        simp

/-- Before the second sort, no injection stands in front of a heal at the same offset. -/
theorem schedule_healFirst {occs : List Occ} (hsorted : occs.Pairwise fun o o' => o.at'.val ≤ o'.at'.val)
    (hfits : ∀ o ∈ occs, 0 < o.spec.duration.val → o.at'.val + o.spec.duration.val < 2 ^ 63) (rng : PRNG) :
    (s.schedule occs rng).Pairwise fun a b => a.at' = b.at' → a.inject = true → b.inject = true := by
  induction occs generalizing rng with
  | nil => exact List.Pairwise.nil
  | cons o occs ih =>
      obtain ⟨hfirst, hrest⟩ := List.pairwise_cons.mp hsorted
      have hlater : ∀ o' ∈ o :: occs, ∀ node, 0 < o'.spec.duration → o.at' ≠ (o'.healAction node).at' := by
        intro o' ho' node hdur hsame
        have hat := o'.at'.ge
        have hsum : (o'.at' + o'.spec.duration).val = o'.at'.val + o'.spec.duration.val := by
          apply I64.ofInt_val _ (hfits o' ho' hdur)
          have : 0 < o'.spec.duration.val := hdur
          omega
        have hle : o.at'.val ≤ o'.at'.val := by
          rcases List.mem_cons.mp ho' with rfl | ho'
          · exact le_rfl
          · exact hfirst o' ho'
        have : 0 < o'.spec.duration.val := hdur
        have := congrArg I64.val hsame
        change o.at'.val = (o'.at' + o'.spec.duration).val at this
        omega
      rw [schedule_cons, List.pairwise_cons, List.pairwise_append]
      refine ⟨fun b hb hsame _ => ?_, ?_, ih hrest (fun o ho => hfits o (List.mem_cons_of_mem _ ho)) _,
        fun a ha b _ _ hinject => ?_⟩
      · have hb' : b ∈ s.schedule (o :: occs) rng := List.mem_cons_of_mem _ hb
        obtain ⟨o', ho', rng', rfl | ⟨hdur, rfl⟩⟩ := mem_schedule s hb'
        · rfl
        · exact absurd hsame (hlater o' ho' _ hdur)
      · split_ifs
        · exact List.pairwise_singleton _ _
        · exact List.Pairwise.nil
      · split_ifs at ha
        · rw [List.mem_singleton.mp ha] at hinject
          cases hinject
        · cases ha

end Schedule

/-! ## The plan -/

instance : Std.Total Occ.notAfter := ⟨fun o o' => by
  simp only [Occ.notAfter, I64.lt_def, I64.eq_def]
  omega⟩

instance : IsTrans Occ Occ.notAfter := ⟨fun o₁ o₂ o₃ h h' => by
  simp only [Occ.notAfter, I64.lt_def, I64.eq_def] at *
  omega⟩

instance : Std.Total fun a b : Action => a.at' ≤ b.at' := ⟨fun a b => by
  simp only [I64.le_def]
  omega⟩

instance : IsTrans Action fun a b => a.at' ≤ b.at' := ⟨fun a b c h h' => by
  simp only [I64.le_def] at *
  omega⟩

/-- The number of injections of spec `i` at offset `t`. -/
def injectionsAt (acts : List Action) (i : Nat) (t : Int) : Nat :=
  acts.countP fun a => a.inject ∧ a.idx = i ∧ a.at'.val = t

theorem injectionsAt_eq_count (acts : List Action) (i : Nat) (t : Int) :
    injectionsAt acts i t = ((acts.filter (·.inject)).map fun a => (a.idx, a.at'.val)).count (i, t) := by
  unfold injectionsAt
  rw [List.count, List.countP_map, List.countP_filter]
  apply List.countP_congr
  intro a _
  simp [and_comm]

/-- The occurrences in the order in which they are scheduled: by time, each one of its spec, with an end that fits. -/
theorem sorted_occurrences {window : I64} {specs : List FaultSpec} (hw : 0 < window.val) (hno : NoOverflow window specs)
    {occs : List Occ} (hoccs : occurrences window 0 specs = some occs) :
    (occs.insertionSort Occ.notAfter).Pairwise (fun o o' => o.at'.val ≤ o'.at'.val) ∧
      (∀ o ∈ occs.insertionSort Occ.notAfter, specs[o.idx]? = some o.spec ∧
        ∃ k, Occurs window o.spec k ∧ o.at'.val = o.spec.at'.val + k * o.spec.repeat'.val) ∧
      ∀ o ∈ occs.insertionSort Occ.notAfter, 0 < o.spec.duration.val → o.at'.val + o.spec.duration.val < 2 ^ 63 := by
  have hspec : ∀ o ∈ occs.insertionSort Occ.notAfter, specs[o.idx]? = some o.spec ∧
      ∃ k, Occurs window o.spec k ∧ o.at'.val = o.spec.at'.val + k * o.spec.repeat'.val := by
    intro o ho
    apply (occurrence_spec hw hno hoccs o.idx o.spec o.at'.val).mp
    exact ⟨o, (occs.perm_insertionSort Occ.notAfter).mem_iff.mp ho, rfl, rfl, rfl⟩
  refine ⟨?_, hspec, fun o ho hdur => ?_⟩
  · refine (List.pairwise_insertionSort Occ.notAfter occs).imp fun {o o'} h => ?_
    simp only [Occ.notAfter, I64.lt_def, I64.eq_def] at h
    omega
  · obtain ⟨hmem, k, hk, hat⟩ := hspec o ho
    rw [hat]
    exact hno.heal o.spec (List.mem_of_getElem? hmem) hdur k hk

/-- **The plan over a positive window.** It exists. Its injections are one for each spec and each of its occurrences,
with the fault of the spec. Each injection of a fault with a duration has one heal on the same node at the end of the
fault, and there are no others. The actions stand in the order of time, at equal times the heals first. An untargeted
fault is injected into a node of the list. -/
theorem plan_exact (s : Scheduler) {window : I64} {specs : List FaultSpec} (hw : 0 < window.val)
    (hno : NoOverflow window specs) :
    ∃ acts, s.plan specs window = some acts ∧
      (∀ i sp k, specs[i]? = some sp → Occurs window sp k →
        injectionsAt acts i (sp.at'.val + k * sp.repeat'.val) = 1) ∧
      (∀ a ∈ acts, a.inject = true → ∃ sp k, specs[a.idx]? = some sp ∧ Occurs window sp k ∧
        a.at'.val = sp.at'.val + k * sp.repeat'.val ∧ a.ft = sp.fault.type ∧ a.params = sp.fault.params ∧
        (sp.fault.target = "" → s.nodes ≠ [] → a.node ∈ s.nodes)) ∧
      ((acts.filter (!·.inject)).map fun a => (a.idx, a.node, a.at'.val)).Perm
        ((acts.filter (·.inject)).filterMap (healOf specs)) ∧
      acts.Pairwise (fun a b => a.at'.val ≤ b.at'.val) ∧
      acts.Pairwise (fun a b => a.at' = b.at' → a.inject = true → b.inject = true) := by
  obtain ⟨occs, hoccs⟩ := (occurrences_isSome_iff window 0 specs).mpr fun sp hsp => by
    obtain ⟨n, hn, -⟩ := unroll_eq hw (hno.next sp hsp)
    exact ⟨_, hn⟩
  have hocc := occurrence_spec hw hno hoccs
  have hnodup := occurrences_nodup hw hno hoccs
  have hsort := occs.perm_insertionSort Occ.notAfter
  obtain ⟨hsorted, hspec, hfits⟩ := sorted_occurrences hw hno hoccs
  generalize hsched : s.schedule (occs.insertionSort Occ.notAfter) (newPRNG s.seed) = acts
  have hperm := acts.perm_insertionSort fun a b => a.at' ≤ b.at'
  have hinjects := injects_schedule s (occs.insertionSort Occ.notAfter) (newPRNG s.seed)
  rw [hsched] at hinjects
  refine ⟨acts.insertionSort fun a b => a.at' ≤ b.at', ?_, fun i sp k hi hk => ?_, fun a ha hinject => ?_, ?_,
    ?_, ?_⟩
  · rw [← hsched]
    simp only [Scheduler.plan, hoccs]
    rfl
  · rw [injectionsAt, hperm.countP_eq, ← injectionsAt, injectionsAt_eq_count, hinjects, (hsort.map _).count_eq]
    obtain ⟨o, ho, rfl, -, hat⟩ := (hocc i sp _).mpr ⟨hi, k, hk, rfl⟩
    apply List.count_eq_one_of_mem hnodup
    rw [← hat]
    exact List.mem_map.mpr ⟨o, ho, rfl⟩
  · have hmem : a ∈ s.schedule (occs.insertionSort Occ.notAfter) (newPRNG s.seed) := by
      rw [hsched]
      exact hperm.mem_iff.mp ha
    obtain ⟨o, ho, rng, rfl | ⟨-, rfl⟩⟩ := mem_schedule s hmem
    · obtain ⟨hget, k, hk, hat⟩ := hspec o ho
      exact ⟨o.spec, k, hget, hk, hat, rfl, rfl, fun htarget hnodes => pick_mem s htarget hnodes rng⟩
    · cases hinject
  · have hheals := heals_schedule s (fun o ho => (hspec o ho).1) hfits (newPRNG s.seed)
    rw [hsched] at hheals
    refine ((hperm.filter _).map _).trans ?_
    rw [hheals]
    exact ((hperm.filter _).filterMap _).symm
  · exact List.pairwise_insertionSort (fun a b : Action => a.at' ≤ b.at') acts
  · apply pairwise_insertionSort_of_swap
    · intro a b hlt hsame _
      rw [hsame] at hlt
      exact absurd (le_refl a.at'.val) hlt
    · rw [← hsched]
      exact schedule_healFirst s hsorted hfits (newPRNG s.seed)

/-- Every `2^61` ns from the start on, for `2^63 - 2^61` ns. -/
def centuries : FaultSpec :=
  { fault := { type := "kill-node", target := "n1", params := [] }
    at' := 0, duration := 6917529027641081856, repeat' := 2305843009213693952 }

/-- The offsets of the spec and the end of its first occurrence fit, but the end of the second one does not: its heal
is planned `2^63` ns before the start. -/
theorem heal_of_repeat_overflows :
    centuries.at'.val + 2 * centuries.repeat'.val < 2 ^ 63 ∧ centuries.at'.val + centuries.duration.val < 2 ^ 63 ∧
      Scheduler.plan { nodes := [bareNode "n1"], seed := 7 } [centuries] 2305843009213693953 = some
        [{ at' := I64.ofInt (-2 ^ 63), inject := false, ft := "", node := bareNode "n1", params := [], idx := 0 },
          { at' := 0, inject := true, ft := "kill-node", node := bareNode "n1", params := [], idx := 0 },
          { at' := 2305843009213693952, inject := true, ft := "kill-node", node := bareNode "n1", params := [],
            idx := 0 },
          { at' := 6917529027641081856, inject := false, ft := "", node := bareNode "n1", params := [],
            idx := 0 }] := by
  decide +kernel

theorem plan_exact_on_two_faults :
    ∃ acts, Scheduler.plan { nodes := [bareNode "n1"], seed := 7 } [everyTenSeconds, nearTheEnd] 60000000000 =
      some acts ∧
      injectionsAt acts 0 (5000000000 + (5 : Nat) * 10000000000) = 1 := by
  have hat : everyTenSeconds.at'.val = 5000000000 := by decide +kernel
  have hrep : everyTenSeconds.repeat'.val = 10000000000 := by decide +kernel
  have hdur : everyTenSeconds.duration.val = 2000000000 := by decide +kernel
  have hwin : (60000000000 : I64).val = 60000000000 := by decide +kernel
  have hnever : nearTheEnd.repeat'.val = 0 := by decide +kernel
  have hlate : nearTheEnd.at'.val = 58000000000 ∧ nearTheEnd.duration.val = 5000000000 := by decide +kernel
  have hno : NoOverflow 60000000000 [everyTenSeconds, nearTheEnd] := by
    constructor
    · intro sp hsp hpos k hk
      rcases List.mem_pair.mp hsp with rfl | rfl
      · rw [hrep] at hk ⊢
        omega
      · omega
    · rintro sp hsp hpos k ⟨-, hk⟩
      rcases List.mem_pair.mp hsp with rfl | rfl
      · omega
      · rw [hnever] at hk ⊢
        omega
  obtain ⟨acts, hplan, honce, -⟩ := plan_exact { nodes := [bareNode "n1"], seed := 7 } (by decide +kernel) hno
  refine ⟨acts, hplan, ?_⟩
  rw [← hat, ← hrep]
  exact honce 0 everyTenSeconds 5 rfl ⟨Or.inr (by omega), by omega⟩

/-! ## One-shot faults -/

/-- The number of injections of spec `i`. -/
def injectionsOf (acts : List Action) (i : Nat) : Nat := acts.countP fun a => a.inject ∧ a.idx = i

theorem injectionsOf_eq_count (acts : List Action) (i : Nat) :
    injectionsOf acts i = ((acts.filter (·.inject)).map fun a => (a.idx, a.at'.val)).countP fun p => p.1 = i := by
  unfold injectionsOf
  rw [List.countP_map, List.countP_filter]
  apply List.countP_congr
  intro a _
  simp [and_comm]

theorem countP_occurrences {window : I64} {i j : Nat} {specs : List FaultSpec} {occs : List Occ}
    (hoccs : occurrences window j specs = some occs) {sp : FaultSpec} (hi : specs[i]? = some sp) {l : List I64}
    (hl : unroll window sp = some l) :
    (occs.map fun o => (o.idx, o.at'.val)).countP (fun p => p.1 = j + i) = l.length := by
  induction specs generalizing i j occs with
  | nil => cases hi
  | cons sp' specs ih =>
      simp only [occurrences, Option.bind_eq_bind, Option.bind_eq_some_iff] at hoccs
      obtain ⟨offsets, hoffsets, rest, hrest, hoccs⟩ := hoccs
      obtain rfl := Option.some.inj hoccs
      rw [List.map_append, List.countP_append, List.map_map]
      cases i with
      | zero =>
          obtain rfl := Option.some.inj hi
          obtain rfl := Option.some.inj (hoffsets.symm.trans hl)
          have hnone : (rest.map fun o => (o.idx, o.at'.val)).countP (fun p => p.1 = j + 0) = 0 := by
            apply List.countP_eq_zero.mpr
            intro p hp
            obtain ⟨o, ho, rfl⟩ := List.mem_map.mp hp
            obtain ⟨n, -, -, -, -, hidx⟩ := (mem_occurrences hrest o).mp ho
            simp only [decide_eq_true_eq]
            omega
          rw [hnone, List.countP_map, Nat.add_zero]
          exact List.countP_eq_length.mpr fun t _ => by simp
      | succ i =>
          have hnone : (offsets.map
              ((fun o : Occ => (o.idx, o.at'.val)) ∘ fun t => { at' := t, idx := j, spec := sp' })).countP
              (fun p => p.1 = j + (i + 1)) = 0 := by
            apply List.countP_eq_zero.mpr
            intro p hp
            obtain ⟨t, -, rfl⟩ := List.mem_map.mp hp
            simp
          rw [hnone, Nat.zero_add, show j + (i + 1) = j + 1 + i by omega]
          exact ih hrest hi

theorem injectionsOf_plan {s : Scheduler} {specs : List FaultSpec} {window : I64} {acts : List Action}
    (h : s.plan specs window = some acts) {i : Nat} {sp : FaultSpec} (hi : specs[i]? = some sp) {l : List I64}
    (hl : unroll window sp = some l) : injectionsOf acts i = l.length := by
  obtain ⟨occs, hoccs, hacts⟩ := Option.bind_eq_some_iff.mp h
  obtain rfl := Option.some.inj hacts
  have hcount := countP_occurrences hoccs hi hl
  rw [Nat.zero_add] at hcount
  rw [injectionsOf, (List.perm_insertionSort _ _).countP_eq, ← injectionsOf, injectionsOf_eq_count, injects_schedule,
    ((List.perm_insertionSort _ _).map _).countP_eq, hcount]

theorem executed_of_reached {env : Env} (hreached : ∀ i, env.reached i = true) (i : Nat) (acts : List Action) :
    (executed env i acts).map (·.action) = acts := by
  induction acts generalizing i with
  | nil => rfl
  | cons a acts ih => simp [executed, hreached, ih]

theorem injects_events (steps : List Step) :
    ((steps.map Step.event).filter fun e => e.action = .inject).map (fun e => (e.at', e.type, e.node)) =
      ((steps.map (·.action)).filter (·.inject)).map fun a => (a.at', a.ft, a.node.id) := by
  induction steps with
  | nil => rfl
  | cons x steps ih =>
      rw [List.map_cons, List.map_cons]
      by_cases hx : x.action.inject = true
      · rw [List.filter_cons_of_pos (by simp [Step.event, hx]), List.filter_cons_of_pos hx, List.map_cons,
          List.map_cons, ih]
        simp [Step.event, hx]
      · rw [List.filter_cons_of_neg (by simp [Step.event, hx]), List.filter_cons_of_neg hx, ih]

theorem run_injects {c : RunCall} {acts : List Action} (hplan : c.plan = some acts) {env : Env}
    (hreached : ∀ i, env.reached i = true) : ∃ events, c.run env = some events ∧
      (events.filter fun e => e.action = .inject).map (fun e => (e.at', e.type, e.node)) =
        (acts.filter (·.inject)).map fun a => (a.at', a.ft, a.node.id) := by
  refine ⟨_, by simp only [RunCall.run, hplan]; rfl, ?_⟩
  have hcleanup : ∀ outstanding, (cleanupEvents env outstanding).filter (fun e => e.action = .inject) = [] := by
    intro outstanding
    apply List.filter_eq_nil_iff.mpr
    intro e he
    simp [(mem_cleanupEvents he).1]
  rw [healAll_eq, runLoop_eq, List.nil_append, List.filter_append, hcleanup, List.append_nil, injects_events,
    executed_of_reached hreached]

/-- **One-shot faults.** In the plan that `begin` starts, a spec without repeat has one injection exactly if it starts
before the end of some spec, or no spec has a positive end; otherwise it has none. A run that is not cancelled injects
what is planned. -/
theorem one_shot_planned_iff {n : NemesisRun} {s : Scheduler} (hs : n.sched = some s) (hfresh : n.started = false)
    (hspecs : ∀ sp ∈ n.specs, sp.repeat'.val = 0 ∧ 0 ≤ sp.at'.val ∧ 0 ≤ sp.duration.val) :
    ∃ call acts, n.begin.2 = some call ∧ call.plan = some acts ∧
      (∀ i sp, n.specs[i]? = some sp →
        (injectionsOf acts i = 1 ↔
          (∃ sp' ∈ n.specs, sp.at'.val < (sp'.at' + sp'.duration).val) ∨
            ∀ sp' ∈ n.specs, (sp'.at' + sp'.duration).val ≤ 0)) ∧
      ∀ env, (∀ i, env.reached i = true) → ∃ events, call.run env = some events ∧
        (events.filter fun e => e.action = .inject).map (fun e => (e.at', e.type, e.node)) =
          (acts.filter (·.inject)).map fun a => (a.at', a.ft, a.node.id) := by
  have hunroll : ∀ sp ∈ n.specs, unroll (window none n.specs) sp =
      some (if 0 < (window none n.specs).val ∧ (window none n.specs).val ≤ sp.at'.val then [] else [sp.at']) :=
    fun sp hsp => unroll_once (hspecs sp hsp).1.le
  obtain ⟨occs, hoccs⟩ := (occurrences_isSome_iff (window none n.specs) 0 n.specs).mpr fun sp hsp => ⟨_, hunroll sp hsp⟩
  obtain ⟨acts, hacts⟩ : ∃ acts, s.plan n.specs (window none n.specs) = some acts :=
    ⟨_, by simp only [Scheduler.plan, hoccs]; rfl⟩
  have hplan : RunCall.plan { sched := s, deadline := none, specs := n.specs } = some acts := hacts
  refine ⟨_, acts, ?_, hplan, fun i sp hi => ?_, fun env hreached => run_injects hplan hreached⟩
  · simp [NemesisRun.begin, hs, hfresh]
  · have hsp := List.mem_of_getElem? hi
    have hat := (hspecs sp hsp).2.1
    have hbefore := lt_window_iff n.specs sp.at'.val
    have hempty := window_nonpos_iff n.specs
    simp only [I64.lt_def, I64.le_def, I64.zero_val] at hbefore hempty
    rw [injectionsOf_plan hacts hi (hunroll sp hsp), ← hempty]
    have hlater : (∃ sp' ∈ n.specs, sp.at'.val < (sp'.at' + sp'.duration).val) ↔
        0 < (window none n.specs).val ∧ sp.at'.val < (window none n.specs).val := by
      rw [hbefore]
      constructor
      · rintro ⟨sp', hsp', hlt⟩
        exact ⟨sp', hsp', by omega, hlt⟩
      · rintro ⟨sp', hsp', -, hlt⟩
        exact ⟨sp', hsp', hlt⟩
    rw [hlater]
    clear hbefore hempty hlater
    by_cases hdropped : 0 < (window none n.specs).val ∧ (window none n.specs).val ≤ sp.at'.val
    · rw [if_pos hdropped, List.length_nil]
      omega
    · rw [if_neg hdropped, List.length_singleton]
      omega

/-- Once at 5s, with no duration: the fault stays until the end of the run. -/
def killAtFive : FaultSpec :=
  { fault := { type := "kill-node", target := "n1", params := [] }, at' := 5000000000, duration := 0, repeat' := 0 }

/-- A single fault without duration is never injected. -/
theorem lone_fault_dropped : (oneNode [killAtFive]).begin.2.bind RunCall.plan = some [] ∧ injectionsOf [] 0 = 0 := by
  decide +kernel

/-- With a later fault in the schedule it is injected once. -/
theorem one_shot_planned_iff_before_later_fault :
    ∃ call acts, (oneNode [killAtFive, nearTheEnd]).begin.2 = some call ∧ call.plan = some acts ∧
      injectionsOf acts 0 = 1 := by
  have hs : (oneNode [killAtFive, nearTheEnd]).sched = some { nodes := [bareNode "n1"], seed := 7 } := rfl
  obtain ⟨call, acts, hcall, hplan, hiff, -⟩ := one_shot_planned_iff hs rfl (by decide +kernel)
  have honce := (hiff 0 killAtFive rfl).mpr (Or.inl ⟨nearTheEnd, by decide +kernel, by decide +kernel⟩)
  exact ⟨call, acts, hcall, hplan, honce⟩

end Proofload.Nemesis
