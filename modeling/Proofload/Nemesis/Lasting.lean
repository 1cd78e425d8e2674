import Proofload.Nemesis.Exact

/-!
# How long a fault lasts (`core/nemesis/scheduler.go`)

A heal carries no fault type: it ends every fault on its node, also those of other occurrences. The fault of an
occurrence therefore lasts until the first heal of its node behind the injection, be it its own, that of another
occurrence or the cleanup. The time is the offset of the timeline: an action takes effect at its planned offset, the
cleanup at the offset that it records.

* `Planned` : the order of a plan, and the injection that each heal belongs to; `planned` : every plan has it;
* `InEffect` : the fault of an injection is in effect at an offset;
* `fault_lasts_iff` : when a fault lasts for its whole duration.
-/

namespace Proofload.Nemesis
open Lib

set_option autoImplicit false

/-! ## Injections and heals of a plan -/

section Schedule
variable (s : Scheduler)

/-- An action belongs to an occurrence, which is injected into its node and, if it has a duration, healed there. -/
theorem exists_occurrence {occs : List Occ} {rng : PRNG} {b : Action} (hb : b ∈ s.schedule occs rng) :
    ∃ o ∈ occs, (b = o.injectAction b.node ∨ 0 < o.spec.duration ∧ b = o.healAction b.node) ∧
      o.injectAction b.node ∈ s.schedule occs rng ∧
      (0 < o.spec.duration → o.healAction b.node ∈ s.schedule occs rng) := by
  induction occs generalizing rng with
  | nil => cases hb
  | cons o occs ih =>
      rw [schedule_cons] at hb ⊢
      have hheal : ∀ node, 0 < o.spec.duration → o.healAction node ∈
          if 0 < o.spec.duration then [o.healAction node] else [] := by
        intro node hdur
        rw [if_pos hdur]
        exact List.mem_singleton_self _
      obtain rfl | hb := List.mem_cons.mp hb
      · exact ⟨o, List.mem_cons_self, Or.inl rfl, List.mem_cons_self,
          fun hdur => List.mem_cons_of_mem _ (List.mem_append_left _ (hheal _ hdur))⟩
      obtain hb | hb := List.mem_append.mp hb
      · split_ifs at hb with hdur
        · obtain rfl := List.mem_singleton.mp hb
          exact ⟨o, List.mem_cons_self, Or.inr ⟨hdur, rfl⟩, List.mem_cons_self,
            fun hdur => List.mem_cons_of_mem _ (List.mem_append_left _ (hheal _ hdur))⟩
        · cases hb
      · obtain ⟨o', ho', hown, hinject, hlater⟩ := ih hb
        exact ⟨o', List.mem_cons_of_mem _ ho', hown, List.mem_cons_of_mem _ (List.mem_append_right _ hinject),
          fun hdur => List.mem_cons_of_mem _ (List.mem_append_right _ (hlater hdur))⟩

/-- The offset of the occurrence that an action belongs to. -/
def startOf (specs : List FaultSpec) (a : Action) : Int :=
  if a.inject then a.at'.val
  else wrap64 (a.at'.val - ((specs[a.idx]?).map fun sp => sp.duration.val).getD 0)

theorem startOf_healAction {specs : List FaultSpec} {o : Occ} (hspec : specs[o.idx]? = some o.spec) (node : Node) :
    startOf specs (o.healAction node) = o.at'.val := by
  have hat := o.at'.ge
  have hlt := o.at'.lt
  show wrap64 (wrap64 (o.at'.val + o.spec.duration.val) - ((specs[o.idx]?).map fun sp => sp.duration.val).getD 0) = _
  rw [hspec, Option.map_some, Option.getD_some, Int.sub_eq_add_neg, wrap64_add_left, Int.add_neg_cancel_right]
  exact wrap64_eq_self hat hlt

theorem schedule_startOf {specs : List FaultSpec} {occs : List Occ}
    (hsorted : occs.Pairwise fun o o' => o.at'.val ≤ o'.at'.val) (hspec : ∀ o ∈ occs, specs[o.idx]? = some o.spec)
    (rng : PRNG) : (s.schedule occs rng).Pairwise fun a b => startOf specs a ≤ startOf specs b := by
  induction occs generalizing rng with
  | nil => exact List.Pairwise.nil
  | cons o occs ih =>
      obtain ⟨hfirst, hrest⟩ := List.pairwise_cons.mp hsorted
      have hlater : ∀ b ∈ s.schedule occs (s.pick o.spec.fault rng).2, o.at'.val ≤ startOf specs b := by
        intro b hb
        obtain ⟨o', ho', rng', rfl | ⟨-, rfl⟩⟩ := mem_schedule s hb
        · exact hfirst o' ho'
        · rw [startOf_healAction (hspec o' (List.mem_cons_of_mem _ ho'))]
          exact hfirst o' ho'
      have hown := startOf_healAction (hspec o List.mem_cons_self)
      rw [schedule_cons, List.pairwise_cons, List.pairwise_append]
      refine ⟨fun b hb => ?_, ?_, ih hrest (fun o ho => hspec o (List.mem_cons_of_mem _ ho)) _, fun a ha b hb => ?_⟩
      · obtain hb | hb := List.mem_append.mp hb
        · split_ifs at hb
          · rw [List.mem_singleton.mp hb, hown]
            exact le_refl _
          · cases hb
        · exact hlater b hb
      · split_ifs
        · exact List.pairwise_singleton _ _
        · exact List.Pairwise.nil
      · split_ifs at ha
        · rw [List.mem_singleton.mp ha, hown]
          exact hlater b hb
        · cases ha

end Schedule

/-- What is used of a plan: its actions stand in the order of time and, at equal times, in the order of their
occurrences; and each injection of a fault with a duration has its heal, each heal its injection. -/
structure Planned (specs : List FaultSpec) (acts : List Action) : Prop where
  sorted : acts.Pairwise fun a b => a.at'.val ≤ b.at'.val
  stable : acts.Pairwise fun a b => a.at' = b.at' → startOf specs a ≤ startOf specs b
  healed : ∀ b ∈ acts, b.inject = true → ∀ sp, specs[b.idx]? = some sp → 0 < sp.duration →
    ∃ h ∈ acts, h.inject = false ∧ h.node = b.node ∧ h.at' = b.at' + sp.duration ∧ startOf specs h = b.at'.val
  injected : ∀ h ∈ acts, h.inject = false → ∃ b ∈ acts, ∃ sp, b.inject = true ∧ b.node = h.node ∧
    specs[b.idx]? = some sp ∧ 0 < sp.duration ∧ h.at' = b.at' + sp.duration ∧ startOf specs h = b.at'.val

/-- **Every plan is in order.** -/
theorem planned {s : Scheduler} {specs : List FaultSpec} {window : I64} {acts : List Action}
    (h : s.plan specs window = some acts) : Planned specs acts := by
  obtain ⟨occs, hoccs, hacts⟩ := Option.bind_eq_some_iff.mp h
  obtain rfl := Option.some.inj hacts
  have hspec : ∀ o ∈ occs.insertionSort Occ.notAfter, specs[o.idx]? = some o.spec := by
    intro o ho
    obtain ⟨n, l, hn, -, -, hidx⟩ := (mem_occurrences hoccs o).mp ((List.mem_insertionSort _).mp ho)
    rw [hidx, Nat.zero_add]
    exact hn
  have hsorted : (occs.insertionSort Occ.notAfter).Pairwise fun o o' => o.at'.val ≤ o'.at'.val := by
    refine (List.pairwise_insertionSort Occ.notAfter occs).imp fun {o o'} h => ?_
    simp only [Occ.notAfter, I64.lt_def, I64.eq_def] at h
    omega
  refine ⟨List.pairwise_insertionSort (fun a b : Action => a.at' ≤ b.at') _, ?_, fun b hb hinject sp hsp hdur => ?_,
    fun h hh hheal => ?_⟩
  · apply pairwise_insertionSort_of_swap
    · intro a b hlt hsame
      rw [hsame] at hlt
      exact absurd (le_refl a.at'.val) hlt
    · refine (schedule_startOf s hsorted hspec (newPRNG s.seed)).imp ?_
      intro a b hle _
      exact hle
  · obtain ⟨o, ho, heq | ⟨-, heq⟩, -, hheal⟩ := exists_occurrence s ((List.mem_insertionSort _).mp hb)
    · have hidx : b.idx = o.idx := congrArg Action.idx heq
      have hat : b.at' = o.at' := congrArg Action.at' heq
      rw [hidx, hspec o ho] at hsp
      obtain rfl := Option.some.inj hsp
      refine ⟨o.healAction b.node, (List.mem_insertionSort _).mpr (hheal hdur), rfl, rfl, by rw [hat]; rfl, ?_⟩
      rw [startOf_healAction (hspec o ho), hat]
    · rw [heq] at hinject
      cases hinject
  · obtain ⟨o, ho, heq | ⟨hdur, heq⟩, hinject, -⟩ := exists_occurrence s ((List.mem_insertionSort _).mp hh)
    · rw [heq] at hheal
      cases hheal
    · refine ⟨o.injectAction h.node, (List.mem_insertionSort _).mpr hinject, o.spec, rfl, rfl, hspec o ho, hdur,
        congrArg Action.at' heq, ?_⟩
      rw [heq]
      exact startOf_healAction (hspec o ho) _

/-! ## The timeline -/

/-- A run that is not cancelled and whose calls succeed; the cleanup follows the last action. -/
structure Undisturbed (env : Env) (acts : List Action) : Prop where
  reached : ∀ i, env.reached i = true
  succeeds : ∀ i, env.outcome i = none
  cleanup : ∀ id, env.cleanupErr id = none
  late : ∀ a ∈ acts, ∀ id, a.at'.val ≤ (env.cleanupAt id).val

/-- The fault that the `i`-th entry of the timeline injects is in effect at offset `t`: it has been injected, and no
heal of its node behind it has come yet. -/
def InEffect (events : List Event) (i : Nat) (t : Int) : Prop :=
  ∃ e, events[i]? = some e ∧ e.action = .inject ∧ e.ok = true ∧ e.at'.val ≤ t ∧
    ∀ h ∈ events.drop (i + 1), h.action = .heal → h.node = e.node → h.ok = true → t < h.at'.val

/-- The steps of an undisturbed run. -/
def succeeded (acts : List Action) : List Step := acts.map fun a => ⟨a, none⟩

theorem executed_undisturbed {env : Env} {acts : List Action} (h : Undisturbed env acts) (i : Nat) (l : List Action) :
    executed env i l = succeeded l := by
  induction l generalizing i with
  | nil => rfl
  | cons a l ih => simp [executed, h.reached, h.succeeds, succeeded, ih]

theorem run_undisturbed {c : RunCall} {acts : List Action} (hplan : c.plan = some acts) {env : Env}
    (h : Undisturbed env acts) : c.run env = some ((succeeded acts).map Step.event ++
      cleanupEvents env ((succeeded acts).foldl Step.track ∅)) := by
  simp only [RunCall.run, hplan, runLoop_eq, healAll_eq, executed_undisturbed h]
  rfl

/-- A fault is in effect from its injection until the next heal of its node, planned or part of the cleanup. -/
theorem inEffect_iff {env : Env} {pre post : List Action} {a : Action} (h : Undisturbed env (pre ++ a :: post))
    (hinject : a.inject = true) (t : Int) :
    InEffect ((succeeded (pre ++ a :: post)).map Step.event ++
        cleanupEvents env ((succeeded (pre ++ a :: post)).foldl Step.track ∅)) pre.length t ↔
      a.at'.val ≤ t ∧ (∀ b ∈ post, b.inject = false → b.node.id = a.node.id → t < b.at'.val) ∧
        (a.node.id ∈ ((succeeded (pre ++ a :: post)).foldl Step.track ∅).keys →
          t < (env.cleanupAt a.node.id).val) := by
  generalize hout : (succeeded (pre ++ a :: post)).foldl Step.track ∅ = outstanding
  have hsplit : (succeeded (pre ++ a :: post)).map Step.event ++ cleanupEvents env outstanding =
      (succeeded pre).map Step.event ++ Step.event ⟨a, none⟩ ::
        ((succeeded post).map Step.event ++ cleanupEvents env outstanding) := by
    simp [succeeded]
  have hlength : ((succeeded pre).map Step.event).length = pre.length := by simp [succeeded]
  have hget : ((succeeded pre).map Step.event ++ Step.event ⟨a, none⟩ ::
      ((succeeded post).map Step.event ++ cleanupEvents env outstanding))[pre.length]? =
      some (Step.event ⟨a, none⟩) := by
    rw [← hlength, List.getElem?_append_right (le_refl _), Nat.sub_self]
    rfl
  have hdrop : ((succeeded pre).map Step.event ++ Step.event ⟨a, none⟩ ::
      ((succeeded post).map Step.event ++ cleanupEvents env outstanding)).drop (pre.length + 1) =
      (succeeded post).map Step.event ++ cleanupEvents env outstanding := by
    rw [← hlength, List.drop_append, List.drop_of_length_le (by omega), Nat.add_sub_cancel_left]
    rfl
  have hevent : (Step.event ⟨a, none⟩).action = .inject ∧ (Step.event ⟨a, none⟩).ok = true := by
    simp [Step.event, hinject]
  rw [hsplit]
  unfold InEffect
  rw [hget, hdrop]
  constructor
  · rintro ⟨e, he, -, -, hat, hheals⟩
    obtain rfl := Option.some.inj he
    refine ⟨hat, fun b hb hheal hnode => ?_, fun hkey => ?_⟩
    · have hmem : Step.event ⟨b, none⟩ ∈ (succeeded post).map Step.event :=
        List.mem_map_of_mem (List.mem_map_of_mem hb)
      exact hheals _ (List.mem_append_left _ hmem) (by simp [Step.event, hheal]) hnode rfl
    · refine hheals _ (List.mem_append_right _ (List.mem_map.mpr ⟨a.node.id, ?_, rfl⟩)) rfl rfl ?_
      · exact (List.mem_insertionSort _).mpr hkey
      · rw [h.cleanup]
        rfl
  · rintro ⟨hat, hplan, hcleanup⟩
    refine ⟨_, rfl, hevent.1, hevent.2, hat, fun ev hev hheal hnode _ => ?_⟩
    obtain hev | hev := List.mem_append.mp hev
    · obtain ⟨x, hx, rfl⟩ := List.mem_map.mp hev
      obtain ⟨b, hb, rfl⟩ := List.mem_map.mp hx
      refine hplan b hb ?_ hnode
      cases hb' : b.inject with
      | false => rfl
      | true =>
          simp [Step.event, hb'] at hheal
    · obtain ⟨id, hid, rfl⟩ := List.mem_map.mp hev
      obtain rfl : id = a.node.id := hnode
      exact hcleanup ((List.mem_insertionSort _).mp hid)

theorem outstanding_of_no_heal {pre post : List Action} {a : Action} (hinject : a.inject = true)
    (hno : ∀ x ∈ post, x.inject = false → x.node.id ≠ a.node.id) :
    a.node.id ∈ ((succeeded (pre ++ a :: post)).foldl Step.track ∅).keys := by
  have hsplit : succeeded (pre ++ a :: post) = succeeded pre ++ ⟨a, none⟩ :: succeeded post := by simp [succeeded]
  rw [hsplit, List.foldl_append, List.foldl_cons]
  apply mem_outstanding_of_no_heal
  · rintro x hx ⟨hheal, hnode⟩
    obtain ⟨b, hb, rfl⟩ := List.mem_map.mp hx
    exact hno b hb hheal hnode
  · exact Or.inl ((track_keys _ _ _).mpr (Or.inl ⟨hinject, rfl, rfl⟩))

theorem add_duration_ne (x : I64) {d : I64} (hd : 0 < d) : (x + d).val ≠ x.val := by
  intro hsame
  have hd' : 0 < d.val := hd
  have hlt := d.lt
  have hwrap : wrap64 (x.val + d.val) = wrap64 x.val := by
    rw [wrap64_eq_self x.ge x.lt]
    exact hsame
  have := wrap64_inj hwrap (by omega) (by omega)
  omega

section Order
variable {specs : List FaultSpec} {pre post : List Action} {a : Action} (h : Planned specs (pre ++ a :: post))
  (hinject : a.inject = true)
include h hinject

theorem Planned.behind {b : Action} (hb : b ∈ post) :
    a.at'.val ≤ b.at'.val ∧ (b.at' = a.at' → a.at'.val ≤ startOf specs b) := by
  have hstart : startOf specs a = a.at'.val := if_pos hinject
  refine ⟨?_, fun hsame => ?_⟩
  · exact (List.pairwise_cons.mp (List.pairwise_append.mp h.sorted).2.1).1 b hb
  · rw [← hstart]
    exact (List.pairwise_cons.mp (List.pairwise_append.mp h.stable).2.1).1 b hb hsame.symm

theorem Planned.front {b : Action} (hb : b ∈ pre) :
    b.at'.val ≤ a.at'.val ∧ (b.at' = a.at' → startOf specs b ≤ a.at'.val) := by
  have hstart : startOf specs a = a.at'.val := if_pos hinject
  refine ⟨?_, fun hsame => ?_⟩
  · exact (List.pairwise_append.mp h.sorted).2.2 b hb a List.mem_cons_self
  · rw [← hstart]
    exact (List.pairwise_append.mp h.stable).2.2 b hb a List.mem_cons_self hsame

/-- A heal stands in front of an injection exactly if it comes earlier, or at the same time from an occurrence that
began earlier. -/
theorem Planned.heal_mem_post_iff {b x : Action} {d : I64} (hd : 0 < d) (hx : x ∈ pre ++ a :: post)
    (hheal : x.inject = false) (hat : x.at' = b.at' + d) (hstart : startOf specs x = b.at'.val) :
    x ∈ post ↔ ¬ ((b.at' + d).val < a.at'.val ∨ ((b.at' + d).val = a.at'.val ∧ b.at'.val < a.at'.val)) := by
  have hne := add_duration_ne b.at' hd
  rw [← hat] at hne ⊢
  constructor
  · intro hpost
    obtain ⟨hle, hsame⟩ := h.behind hinject hpost
    rw [hstart] at hsame
    rintro (hlt | ⟨heq, hlt⟩)
    · omega
    · have := hsame (I64.eq_def.mpr heq)
      omega
  · intro hnot
    obtain hpre | hx := List.mem_append.mp hx
    · obtain ⟨hle, hsame⟩ := h.front hinject hpre
      rw [hstart] at hsame
      refine absurd ?_ hnot
      by_cases heq : x.at'.val = a.at'.val
      · have := hsame (I64.eq_def.mpr heq)
        exact Or.inr ⟨heq, by omega⟩
      · exact Or.inl (by omega)
    · obtain rfl | hpost := List.mem_cons.mp hx
      · rw [hinject] at hheal
        cases hheal
      · exact hpost

end Order

/-- **A fault lasts for its whole duration** exactly if its end does not overflow and no occurrence on the same node
ends in between: not after its start and before its end, and not at its start unless it began earlier. -/
theorem fault_lasts_iff {c : RunCall} {acts : List Action} (hplan : c.plan = some acts) {env : Env}
    (henv : Undisturbed env acts) {i : Nat} {a : Action} (hi : acts[i]? = some a) (hinject : a.inject = true)
    {sp : FaultSpec} (hsp : c.specs[a.idx]? = some sp) (hdur : 0 < sp.duration) :
    ∃ events, c.run env = some events ∧
      ((∀ t : Int, a.at'.val ≤ t → t < a.at'.val + sp.duration.val → InEffect events i t) ↔
        a.at'.val + sp.duration.val < 2 ^ 63 ∧
        ∀ b ∈ acts, b.inject = true → b.node.id = a.node.id → ∀ sp', c.specs[b.idx]? = some sp' → 0 < sp'.duration →
          (b.at' + sp'.duration).val < a.at'.val ∨
          a.at'.val + sp.duration.val ≤ (b.at' + sp'.duration).val ∨
          ((b.at' + sp'.duration).val = a.at'.val ∧ b.at'.val < a.at'.val)) := by
  refine ⟨_, run_undisturbed hplan henv, ?_⟩
  have hplanned : Planned c.specs acts := planned hplan
  obtain ⟨pre, post, rfl, rfl⟩ : ∃ pre post, acts = pre ++ a :: post ∧ i = pre.length := by
    obtain ⟨hlt, hget⟩ := List.getElem?_eq_some_iff.mp hi
    refine ⟨acts.take i, acts.drop (i + 1), ?_, by rw [List.length_take]; omega⟩
    rw [← hget, List.getElem_cons_drop, List.take_append_drop]
  have hmem : a ∈ pre ++ a :: post := List.mem_append_right _ List.mem_cons_self
  have hdur' : 0 < sp.duration.val := hdur
  have hat := a.at'.ge
  simp only [inEffect_iff henv hinject]
  constructor
  · intro hlasts
    have hlater : ∀ x ∈ post, x.inject = false → x.node.id = a.node.id →
        a.at'.val + sp.duration.val ≤ x.at'.val := by
      intro x hx hheal hnode
      by_contra hlt
      have hle := (hplanned.behind hinject hx).1
      have := (hlasts x.at'.val hle (by omega)).2.1 x hx hheal hnode
      omega
    refine ⟨?_, fun b hb hbinject hnode sp' hsp' hdur'' => ?_⟩
    · by_contra hover
      by_cases hheals : ∃ x ∈ post, x.inject = false ∧ x.node.id = a.node.id
      · obtain ⟨x, hx, hheal, hnode⟩ := hheals
        have := hlater x hx hheal hnode
        have := x.at'.lt
        omega
      · have hout : a.node.id ∈ ((succeeded (pre ++ a :: post)).foldl Step.track ∅).keys :=
          outstanding_of_no_heal hinject fun x hx hheal hnode => hheals ⟨x, hx, hheal, hnode⟩
        have hle := henv.late a hmem a.node.id
        have hlt := (env.cleanupAt a.node.id).lt
        have := (hlasts (env.cleanupAt a.node.id).val hle (by omega)).2.2 hout
        omega
    · obtain ⟨x, hx, hheal, hxnode, hxat, hxstart⟩ := hplanned.healed b hb hbinject sp' hsp' hdur''
      by_cases hpost : x ∈ post
      · right; left
        have := hlater x hpost hheal (by rw [hxnode]; exact hnode)
        rw [← hxat]
        exact this
      · rw [hplanned.heal_mem_post_iff hinject hdur'' hx hheal hxat hxstart, not_not] at hpost
        obtain hlt | heq := hpost
        · exact Or.inl hlt
        · exact Or.inr (Or.inr heq)
  · rintro ⟨hfits, hothers⟩ t hle hlt
    refine ⟨hle, fun x hx hheal hnode => ?_, fun _ => ?_⟩
    · have hx' : x ∈ pre ++ a :: post := List.mem_append_right _ (List.mem_cons_of_mem _ hx)
      obtain ⟨b, hb, sp', hbinject, hbnode, hsp', hdur'', hxat, hxstart⟩ := hplanned.injected x hx' hheal
      have hbehind := (hplanned.heal_mem_post_iff hinject hdur'' hx' hheal hxat hxstart).mp hx
      have := hothers b hb hbinject (by rw [hbnode]; exact hnode) sp' hsp' hdur''
      rw [hxat]
      omega
    · obtain ⟨x, hx, -, -, hxat, -⟩ := hplanned.healed a hmem hinject sp hsp hdur
      have hend : (a.at' + sp.duration).val = a.at'.val + sp.duration.val := I64.ofInt_val (by omega) hfits
      have := henv.late x hx a.node.id
      rw [hxat, hend] at this
      omega

/-! ### Two faults on one node -/

/-- Paused from 5s on for 10s. -/
def longPause : FaultSpec :=
  { fault := { type := "pause-node", target := "n1", params := [] }
    at' := 5000000000, duration := 10000000000, repeat' := 0 }

/-- Partitioned from `at` on for 2s. -/
def shortPartition (at' : I64) : FaultSpec :=
  { fault := { type := "network-partition", target := "n1", params := [] }, at', duration := 2000000000, repeat' := 0 }

def twoFaults (at' : I64) : RunCall :=
  { sched := { nodes := [bareNode "n1"], seed := 7 }, deadline := none, specs := [longPause, shortPartition at'] }

/-- A run without errors, with the cleanup after a minute. -/
def calmRun : Env :=
  { reached := fun _ => true, outcome := fun _ => none, cleanupAt := fun _ => 60000000000, cleanupErr := fun _ => none }

def healAt (at' : I64) (idx : Nat) : Action :=
  { at', inject := false, ft := "", node := bareNode "n1", params := [], idx }

/-- The pause, the partition and two heals. -/
def twoFaultsPlan (at' : I64) (first second : Action) : List Action :=
  [{ at' := 5000000000, inject := true, ft := "pause-node", node := bareNode "n1", params := [], idx := 0 },
    { at', inject := true, ft := "network-partition", node := bareNode "n1", params := [], idx := 1 }, first, second]

theorem undisturbed_calmRun {acts : List Action} (h : ∀ a ∈ acts, a.at' ≤ 60000000000) : Undisturbed calmRun acts :=
  ⟨fun _ => rfl, fun _ => rfl, fun _ => rfl, fun a ha _ => h a ha⟩

/-- The partition from 6s to 8s ends the pause: at 9s the node runs again, six seconds before the pause should end. -/
theorem pause_ends_with_partition :
    (twoFaults 6000000000).plan = some (twoFaultsPlan 6000000000 (healAt 8000000000 1) (healAt 15000000000 0)) ∧
      Undisturbed calmRun (twoFaultsPlan 6000000000 (healAt 8000000000 1) (healAt 15000000000 0)) ∧
      ∃ events, (twoFaults 6000000000).run calmRun = some events ∧
        longPause.at'.val ≤ 9000000000 ∧ (9000000000 : Int) < longPause.at'.val + longPause.duration.val ∧
        ¬ InEffect events 0 9000000000 := by
  have hplan : (twoFaults 6000000000).plan =
      some (twoFaultsPlan 6000000000 (healAt 8000000000 1) (healAt 15000000000 0)) := by
    decide +kernel
  have henv : Undisturbed calmRun (twoFaultsPlan 6000000000 (healAt 8000000000 1) (healAt 15000000000 0)) :=
    undisturbed_calmRun (by decide +kernel)
  refine ⟨hplan, henv, _, run_undisturbed hplan henv, by decide +kernel, by decide +kernel, ?_⟩
  rintro ⟨e, he, -, -, -, hheals⟩
  obtain rfl := Option.some.inj he
  have hheal := hheals (Step.event ⟨healAt 8000000000 1, none⟩) (by decide +kernel) rfl rfl rfl
  revert hheal
  decide +kernel

/-- A partition from 14s to 16s begins in the pause and ends behind it: the pause lasts. -/
theorem fault_lasts_iff_on_later_partition :
    ∃ events, (twoFaults 14000000000).run calmRun = some events ∧
      ∀ t : Int, 5000000000 ≤ t → t < 15000000000 → InEffect events 0 t := by
  have hplan : (twoFaults 14000000000).plan =
      some (twoFaultsPlan 14000000000 (healAt 15000000000 0) (healAt 16000000000 1)) := by
    decide +kernel
  have henv : Undisturbed calmRun (twoFaultsPlan 14000000000 (healAt 15000000000 0) (healAt 16000000000 1)) :=
    undisturbed_calmRun (by decide +kernel)
  have hpause : (twoFaults 14000000000).specs[0]? = some longPause := rfl
  obtain ⟨events, hrun, hiff⟩ := fault_lasts_iff hplan henv (i := 0) rfl rfl hpause (by decide +kernel)
  refine ⟨events, hrun, fun t hle hlt => hiff.mpr ⟨by decide +kernel, ?_⟩ t ?_ ?_⟩
  · decide +kernel
  · exact hle
  · exact hlt

end Proofload.Nemesis
