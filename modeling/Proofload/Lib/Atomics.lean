import Proofload.Lib.Machine
import Mathlib.Algebra.BigOperators.Group.Finset.Piecewise
import Mathlib.Algebra.Order.Group.Multiset
import Mathlib.Tactic.Abel

/-!
# Threads over shared accumulators

Threads work off programs of atomic instructions over a shared memory. They add to 64-bit sums, offer values to cells
that keep the better one, and make calls. An offer is a loop: the cell is loaded, and unless it already holds a better
value the new one is swapped in, which fails and starts over if another thread has changed the cell meanwhile.

* `Thread.step` : one atomic step of a thread; `Applied` : what it does, and leaves to do;
* `Pool` : the memory and its threads, with all that was ever submitted to them;
* `Accounted` : nothing that was submitted is lost or applied twice; `Accounted.submit`, `Accounted.micro` : every step
  keeps it;
* `Accounted.sums_of_done`, `Accounted.calls_of_done`, `Accounted.cells_of_done` : what the memory holds when the
  threads are done, in whatever order they worked.
-/

namespace Lib

set_option autoImplicit false

/-! ## Instructions -/

inductive Instr (κ μ ε : Type) where
  | call (e : ε)
  | add (k : κ) (n : Int)
  | offer (m : μ) (v : Int)
deriving DecidableEq

/-- The order in which a cell prefers values: `keeps m a b` if a cell with `a` keeps it when `b` is offered. -/
structure Ranking (μ : Type) where
  keeps : μ → Int → Int → Bool
  refl : ∀ m a, keeps m a a = true
  trans : ∀ {m a b c}, keeps m a b = true → keeps m b c = true → keeps m a c = true
  total : ∀ {m a b}, keeps m a b = false → keeps m b a = true

structure Memory (κ μ ε : Type) where
  sums : κ → Int
  cells : μ → Int
  calls : List ε

/-- What a thread has still to do, and the value that the loop of its next instruction has loaded. -/
structure Thread (κ μ ε : Type) where
  todo : List (Instr κ μ ε)
  loaded : Option Int

inductive Micro where
  | next
  | load
  | swap
deriving DecidableEq

variable {κ μ ε : Type}

/-- One atomic step of a thread. -/
def Thread.step [DecidableEq κ] [DecidableEq μ] (R : Ranking μ) (mem : Memory κ μ ε) (t : Thread κ μ ε) :
    Micro → Option (Memory κ μ ε × Thread κ μ ε)
  | .next =>
      match t.todo with
      | .call e :: rest => some ({ mem with calls := mem.calls ++ [e] }, ⟨rest, none⟩)
      | .add k n :: rest =>
          some ({ mem with sums := Function.update mem.sums k (wrap64 (mem.sums k + n)) }, ⟨rest, none⟩)
      | _ => none
  | .load =>
      match t.todo, t.loaded with
      | .offer m v :: rest, none =>
          if R.keeps m (mem.cells m) v then some (mem, ⟨rest, none⟩)
          else some (mem, ⟨.offer m v :: rest, some (mem.cells m)⟩)
      | _, _ => none
  | .swap =>
      match t.todo, t.loaded with
      | .offer m v :: rest, some old =>
          if mem.cells m = old then some ({ mem with cells := Function.update mem.cells m v }, ⟨rest, none⟩)
          else some (mem, ⟨.offer m v :: rest, none⟩)
      | _, _ => none

/-! ## What a program adds, calls and offers -/

section Amounts
variable [DecidableEq κ]

/-- What an instruction adds to a sum. -/
def Instr.amount (k : κ) : Instr κ μ ε → Int
  | .add k' n => if k' = k then n else 0
  | _ => 0

def amounts (k : κ) (is : List (Instr κ μ ε)) : Int := (is.map (Instr.amount k)).sum

theorem amounts_cons (k : κ) (i : Instr κ μ ε) (is : List (Instr κ μ ε)) :
    amounts k (i :: is) = i.amount k + amounts k is := List.sum_cons

theorem amounts_offer (k : κ) (m : μ) (v : Int) (is : List (Instr κ μ ε)) :
    amounts k (.offer m v :: is) = amounts k is := (amounts_cons k _ is).trans (Int.zero_add _)

theorem amounts_append (k : κ) (is js : List (Instr κ μ ε)) :
    amounts k (is ++ js) = amounts k is + amounts k js := by
  unfold amounts
  rw [List.map_append, List.sum_append]

theorem amounts_flatMap {α : Type} (k : κ) (l : List α) (f : α → List (Instr κ μ ε)) :
    amounts k (l.flatMap f) = (l.map fun a => amounts k (f a)).sum := by
  induction l with
  | nil => rfl
  | cons a l ih => rw [List.flatMap_cons, amounts_append, ih, List.map_cons, List.sum_cons]

end Amounts

def Instr.call? : Instr κ μ ε → Option ε
  | .call e => some e
  | _ => none

def calls (is : List (Instr κ μ ε)) : List ε := is.filterMap Instr.call?

theorem calls_append (is js : List (Instr κ μ ε)) : calls (is ++ js) = calls is ++ calls js :=
  List.filterMap_append

theorem calls_flatMap {α : Type} (l : List α) (f : α → List (Instr κ μ ε)) :
    calls (l.flatMap f) = l.flatMap fun a => calls (f a) := List.filterMap_flatMap

section Offers
variable [DecidableEq μ]

/-- The value that an instruction offers to a cell. -/
def Instr.offer? (m : μ) : Instr κ μ ε → Option Int
  | .offer m' v => if m' = m then some v else none
  | _ => none

def offers (m : μ) (is : List (Instr κ μ ε)) : List Int := is.filterMap (Instr.offer? m)

theorem offers_append (m : μ) (is js : List (Instr κ μ ε)) : offers m (is ++ js) = offers m is ++ offers m js :=
  List.filterMap_append

theorem offers_flatMap {α : Type} (m : μ) (l : List α) (f : α → List (Instr κ μ ε)) :
    offers m (l.flatMap f) = l.flatMap fun a => offers m (f a) := List.filterMap_flatMap

theorem mem_offers_cons {m m' : μ} {v w : Int} {is : List (Instr κ μ ε)} :
    w ∈ offers m' (.offer m v :: is) ↔ m' = m ∧ w = v ∨ w ∈ offers m' is := by
  simp [offers, Instr.offer?, eq_comm]

end Offers

/-! ## One step of a thread -/

/-- A thread in the loop of an offer has loaded a value that gives way to the offered one. -/
def Thread.Ready (R : Ranking μ) (t : Thread κ μ ε) : Prop :=
  ∀ old, t.loaded = some old → ∃ m v rest, t.todo = .offer m v :: rest ∧ R.keeps m old v = false

theorem ready_of_none {R : Ranking μ} (todo : List (Instr κ μ ε)) : Thread.Ready R ⟨todo, none⟩ :=
  fun _ h => by cases h

variable [DecidableEq κ] [DecidableEq μ]

/-- What a step of a thread does to the memory and to what it has still to do. -/
structure Applied (R : Ranking μ) (mem : Memory κ μ ε) (t : Thread κ μ ε) (mem' : Memory κ μ ε)
    (t' : Thread κ μ ε) : Prop where
  ready : t'.Ready R
  sums : ∀ k, wrap64 (mem'.sums k + amounts k t'.todo) = wrap64 (mem.sums k + amounts k t.todo)
  range : ∀ k, mem'.sums k = mem.sums k ∨ wrap64 (mem'.sums k) = mem'.sums k
  calls : (mem'.calls : Multiset ε) + calls t'.todo = mem.calls + calls t.todo
  pending : ∀ m, offers m t'.todo ⊆ offers m t.todo
  settled : ∀ m, ∀ v ∈ offers m t.todo, v ∈ offers m t'.todo ∨ R.keeps m (mem'.cells m) v = true
  cells : ∀ m, mem'.cells m = mem.cells m ∨
    mem'.cells m ∈ offers m t.todo ∧ R.keeps m (mem'.cells m) (mem.cells m) = true

variable {R : Ranking μ} {mem mem' : Memory κ μ ε} {t t' : Thread κ μ ε}

theorem Applied.of_call {e : ε} {rest : List (Instr κ μ ε)} (htodo : t.todo = .call e :: rest) :
    Applied R mem t { mem with calls := mem.calls ++ [e] } ⟨rest, none⟩ := by
  refine ⟨ready_of_none rest, fun k => ?_, fun k => Or.inl rfl, ?_, fun m => ?_, fun m v hv => ?_,
    fun m => Or.inl rfl⟩
  · rw [htodo, amounts_cons]
    show _ = wrap64 (mem.sums k + (0 + _))
    rw [Int.zero_add]
  · rw [htodo]
    show (↑(mem.calls ++ [e]) : Multiset ε) + ↑(Lib.calls rest) = ↑mem.calls + ↑(e :: Lib.calls rest)
    rw [Multiset.coe_add, Multiset.coe_add, List.append_assoc]
    rfl
  · rw [htodo]
    exact List.Subset.refl _
  · rw [htodo] at hv
    exact Or.inl hv

theorem Applied.of_add {k : κ} {n : Int} {rest : List (Instr κ μ ε)} (htodo : t.todo = .add k n :: rest) :
    Applied R mem t { mem with sums := Function.update mem.sums k (wrap64 (mem.sums k + n)) } ⟨rest, none⟩ := by
  refine ⟨ready_of_none rest, fun k' => ?_, fun k' => ?_, by rw [htodo]; rfl, fun m => ?_, fun m v hv => ?_,
    fun m => Or.inl rfl⟩
  · dsimp only
    rw [htodo, amounts_cons, Instr.amount]
    by_cases hk : k' = k
    · subst hk
      rw [Function.update_self, if_pos rfl, wrap64_add_left, Int.add_assoc]
    · rw [Function.update_of_ne hk, if_neg (Ne.symm hk), Int.zero_add]
  · dsimp only
    by_cases hk : k' = k
    · subst hk
      rw [Function.update_self]
      exact Or.inr (wrap64_wrap64 _)
    · exact Or.inl (Function.update_of_ne hk _ _)
  · rw [htodo]
    exact List.Subset.refl _
  · rw [htodo] at hv
    exact Or.inl hv

theorem Applied.of_kept {m : μ} {v : Int} {rest : List (Instr κ μ ε)} (htodo : t.todo = .offer m v :: rest)
    (hkeeps : R.keeps m (mem.cells m) v = true) : Applied R mem t mem ⟨rest, none⟩ := by
  refine ⟨ready_of_none rest, fun k => ?_, fun k => Or.inl rfl, by rw [htodo]; rfl, fun m' w hw => ?_,
    fun m' w hw => ?_, fun m => Or.inl rfl⟩
  · rw [htodo, amounts_offer]
  · rw [htodo]
    exact mem_offers_cons.mpr (Or.inr hw)
  · rw [htodo, mem_offers_cons] at hw
    obtain ⟨rfl, rfl⟩ | hw := hw
    · exact Or.inr hkeeps
    · exact Or.inl hw

theorem Applied.of_retry {loaded : Option Int} (hready : Thread.Ready R ⟨t.todo, loaded⟩) :
    Applied R mem t mem ⟨t.todo, loaded⟩ :=
  ⟨hready, fun _ => rfl, fun _ => Or.inl rfl, rfl, fun _ => List.Subset.refl _, fun _ _ hv => Or.inl hv,
    fun _ => Or.inl rfl⟩

theorem Applied.of_swap {m : μ} {v : Int} {rest : List (Instr κ μ ε)} (htodo : t.todo = .offer m v :: rest)
    (hworse : R.keeps m (mem.cells m) v = false) :
    Applied R mem t { mem with cells := Function.update mem.cells m v } ⟨rest, none⟩ := by
  refine ⟨ready_of_none rest, fun k => ?_, fun k => Or.inl rfl, by rw [htodo]; rfl, fun m' w hw => ?_,
    fun m' w hw => ?_, fun m' => ?_⟩
  · rw [htodo, amounts_offer]
  · rw [htodo]
    exact mem_offers_cons.mpr (Or.inr hw)
  · rw [htodo, mem_offers_cons] at hw
    obtain ⟨rfl, rfl⟩ | hw := hw
    · right
      dsimp only
      rw [Function.update_self]
      exact R.refl _ _
    · exact Or.inl hw
  · dsimp only
    by_cases hm : m' = m
    · subst hm
      rw [Function.update_self, htodo]
      exact Or.inr ⟨mem_offers_cons.mpr (Or.inl ⟨rfl, rfl⟩), R.total hworse⟩
    · exact Or.inl (Function.update_of_ne hm _ _)

/-- **What one atomic step does.** -/
theorem Thread.step_applied {a : Micro} (hready : t.Ready R) (h : t.step R mem a = some (mem', t')) :
    Applied R mem t mem' t' := by
  cases a with
  | next =>
      simp only [Thread.step] at h
      split at h
      · next e rest htodo =>
        obtain ⟨rfl, rfl⟩ := Prod.mk.inj (Option.some.inj h)
        exact Applied.of_call htodo
      · next k n rest htodo =>
        obtain ⟨rfl, rfl⟩ := Prod.mk.inj (Option.some.inj h)
        exact Applied.of_add htodo
      · cases h
  | load =>
      simp only [Thread.step] at h
      split at h
      · next m v rest htodo _ =>
        split at h
        · next hkeeps =>
          obtain ⟨rfl, rfl⟩ := Prod.mk.inj (Option.some.inj h)
          exact Applied.of_kept htodo hkeeps
        · next hworse =>
          obtain ⟨rfl, rfl⟩ := Prod.mk.inj (Option.some.inj h)
          rw [← htodo]
          apply Applied.of_retry
          intro old hold
          obtain rfl := Option.some.inj hold
          exact ⟨m, v, rest, htodo, by simpa using hworse⟩
      · cases h
  | swap =>
      simp only [Thread.step] at h
      split at h
      · next m v rest old htodo hloaded =>
        obtain ⟨m', v', rest', htodo', hworse⟩ := hready old hloaded
        obtain ⟨hhead, -⟩ := List.cons.inj (htodo.symm.trans htodo')
        obtain ⟨rfl, rfl⟩ := Instr.offer.inj hhead
        split at h
        · next hcell =>
          obtain ⟨rfl, rfl⟩ := Prod.mk.inj (Option.some.inj h)
          exact Applied.of_swap htodo (by rw [hcell]; exact hworse)
        · obtain ⟨rfl, rfl⟩ := Prod.mk.inj (Option.some.inj h)
          rw [← htodo]
          exact Applied.of_retry (ready_of_none _)
      · cases h

/-! ## The pool -/

/-- The memory and the threads; `submitted` is the history of the instructions they were given, which nothing reads. -/
structure Pool (κ μ ε : Type) where
  memory : Memory κ μ ε
  threads : Nat → Thread κ μ ε
  submitted : List (Instr κ μ ε)

/-- Threads without work. -/
def Pool.start (memory : Memory κ μ ε) : Pool κ μ ε := ⟨memory, fun _ => ⟨[], none⟩, []⟩

/-- A thread is given a program. -/
def Pool.submit (p : Pool κ μ ε) (c : Nat) (is : List (Instr κ μ ε)) : Pool κ μ ε :=
  { p with threads := Function.update p.threads c ⟨is, none⟩, submitted := p.submitted ++ is }

def Pool.micro (R : Ranking μ) (p : Pool κ μ ε) (c : Nat) (a : Micro) : Option (Pool κ μ ε) :=
  ((p.threads c).step R p.memory a).map fun r =>
    { p with memory := r.1, threads := Function.update p.threads c r.2 }

/-- Everything submitted to the first `n` threads is applied once or still to do, and the cells hold the best value
applied. -/
structure Accounted (R : Ranking μ) (n : Nat) (init : Memory κ μ ε) (p : Pool κ μ ε) : Prop where
  ready : ∀ c, (p.threads c).Ready R
  sums : ∀ k, wrap64 (p.memory.sums k + ∑ c ∈ Finset.range n, amounts k (p.threads c).todo) =
    wrap64 (init.sums k + amounts k p.submitted)
  range : ∀ k, wrap64 (p.memory.sums k) = p.memory.sums k
  calls : (p.memory.calls : Multiset ε) + ∑ c ∈ Finset.range n, ↑(calls (p.threads c).todo) =
    init.calls + calls p.submitted
  pending : ∀ m c, offers m (p.threads c).todo ⊆ offers m p.submitted
  settled : ∀ m, ∀ v ∈ offers m p.submitted,
    (∃ c < n, v ∈ offers m (p.threads c).todo) ∨ R.keeps m (p.memory.cells m) v = true
  cells : ∀ m, p.memory.cells m = init.cells m ∨ p.memory.cells m ∈ offers m p.submitted
  better : ∀ m, R.keeps m (p.memory.cells m) (init.cells m) = true

variable {n : Nat} {init : Memory κ μ ε} {p p' : Pool κ μ ε}

theorem accounted_start (R : Ranking μ) (n : Nat) {init : Memory κ μ ε}
    (hrange : ∀ k, wrap64 (init.sums k) = init.sums k) : Accounted R n init (.start init) where
  ready _ := ready_of_none []
  sums k := by
    show wrap64 (init.sums k + ∑ c ∈ Finset.range n, 0) = wrap64 (init.sums k + 0)
    rw [Finset.sum_const_zero]
  range := hrange
  calls := by
    show (init.calls : Multiset ε) + ∑ c ∈ Finset.range n, 0 = init.calls + 0
    rw [Finset.sum_const_zero]
  pending _ _ := List.Subset.refl _
  settled _ _ hv := by cases hv
  cells _ := Or.inl rfl
  better m := R.refl m _

theorem sum_update_exchange {σ M : Type} [AddCommMonoid M] (f : σ → M) (threads : Nat → σ) {n c : Nat} (hc : c < n)
    (t : σ) :
    ∑ j ∈ Finset.range n, f (Function.update threads c t j) + f (threads c) =
      ∑ j ∈ Finset.range n, f (threads j) + f t := by
  have hmem : c ∈ Finset.range n := Finset.mem_range.mpr hc
  have hcomp : ∀ j, f (Function.update threads c t j) = Function.update (fun j => f (threads j)) c (f t) j := by
    intro j
    by_cases hj : j = c
    · subst hj
      rw [Function.update_self, Function.update_self]
    · rw [Function.update_of_ne hj, Function.update_of_ne hj]
  rw [Finset.sum_congr rfl fun j _ => hcomp j, Finset.sum_update_of_mem hmem,
    Finset.sum_eq_add_sum_sdiff_singleton c (fun j => f (threads j)) fun h => absurd hmem h]
  abel

/-- **Giving a program to a thread that is done.** -/
theorem Accounted.submit (h : Accounted R n init p) {c : Nat} (hc : c < n) (hidle : (p.threads c).todo = [])
    (is : List (Instr κ μ ε)) : Accounted R n init (p.submit c is) := by
  have hother : ∀ c', c' ≠ c → (p.submit c is).threads c' = p.threads c' := fun c' hne => Function.update_of_ne hne _ _
  have hself : (p.submit c is).threads c = ⟨is, none⟩ := Function.update_self ..
  refine ⟨fun c' => ?_, fun k => ?_, h.range, ?_, fun m c' => ?_, fun m v hv => ?_, fun m => ?_, h.better⟩
  · by_cases hc' : c' = c
    · rw [hc', hself]
      exact ready_of_none is
    · rw [hother c' hc']
      exact h.ready c'
  · have hsum := sum_update_exchange (fun t => amounts k t.todo) p.threads hc ⟨is, none⟩
    have hzero : amounts k (p.threads c).todo = 0 := by rw [hidle]; rfl
    have hbefore := wrap64_add_congr (h.sums k) (amounts k is)
    show wrap64 (p.memory.sums k + ∑ c' ∈ Finset.range n, amounts k ((p.submit c is).threads c').todo) =
      wrap64 (init.sums k + amounts k (p.submitted ++ is))
    rw [amounts_append, ← Int.add_assoc, ← hbefore, Int.add_assoc]
    congr 2
    dsimp only at hsum
    rw [hzero, Int.add_zero] at hsum
    exact hsum
  · have hsum := sum_update_exchange (fun t => (↑(Lib.calls t.todo) : Multiset ε)) p.threads hc ⟨is, none⟩
    have hzero : (↑(Lib.calls (p.threads c).todo) : Multiset ε) = 0 := by rw [hidle]; rfl
    dsimp only at hsum
    rw [hzero, add_zero] at hsum
    show (p.memory.calls : Multiset ε) + ∑ c' ∈ Finset.range n, ↑(Lib.calls ((p.submit c is).threads c').todo) =
      init.calls + ↑(Lib.calls (p.submitted ++ is))
    rw [calls_append, ← Multiset.coe_add, ← add_assoc, ← h.calls, add_assoc]
    exact congrArg _ hsum
  · show offers m _ ⊆ offers m (p.submitted ++ is)
    rw [offers_append]
    by_cases hc' : c' = c
    · rw [hc', hself]
      exact List.subset_append_right _ _
    · rw [hother c' hc']
      exact List.subset_append_of_subset_left _ (h.pending m c')
  · rw [show (p.submit c is).submitted = p.submitted ++ is from rfl, offers_append, List.mem_append] at hv
    obtain hv | hv := hv
    · obtain ⟨c', hlt, hpending⟩ | hkeeps := h.settled m v hv
      · have hne : c' ≠ c := by
          rintro rfl
          rw [hidle] at hpending
          cases hpending
        exact Or.inl ⟨c', hlt, by rw [hother c' hne]; exact hpending⟩
      · exact Or.inr hkeeps
    · exact Or.inl ⟨c, hc, by rw [hself]; exact hv⟩
  · obtain hinit | hmem := h.cells m
    · exact Or.inl hinit
    · right
      show _ ∈ offers m (p.submitted ++ is)
      rw [offers_append]
      exact List.mem_append_left _ hmem

/-- **A step of a thread.** -/
theorem Accounted.micro (h : Accounted R n init p) {c : Nat} (hc : c < n) {a : Micro}
    (hstep : p.micro R c a = some p') : Accounted R n init p' := by
  obtain ⟨⟨mem', t'⟩, hthread, rfl⟩ := Option.map_eq_some_iff.mp hstep
  have happlied := Thread.step_applied (h.ready c) hthread
  have hother : ∀ c', c' ≠ c → Function.update p.threads c t' c' = p.threads c' :=
    fun c' hne => Function.update_of_ne hne _ _
  have hself : Function.update p.threads c t' c = t' := Function.update_self ..
  have hkept : ∀ m v, R.keeps m (p.memory.cells m) v = true → R.keeps m (mem'.cells m) v = true := by
    intro m v hv
    obtain hsame | ⟨-, hbetter⟩ := happlied.cells m
    · rw [hsame]
      exact hv
    · exact R.trans hbetter hv
  refine ⟨fun c' => ?_, fun k => ?_, fun k => ?_, ?_, fun m c' => ?_, fun m v hv => ?_, fun m => ?_, fun m => ?_⟩
  · dsimp only
    by_cases hc' : c' = c
    · rw [hc', hself]
      exact happlied.ready
    · rw [hother c' hc']
      exact h.ready c'
  · have hsum := sum_update_exchange (fun t => amounts k t.todo) p.threads hc t'
    have hstep := wrap64_add_congr (happlied.sums k)
      (∑ j ∈ Finset.range n, amounts k (p.threads j).todo - amounts k (p.threads c).todo)
    dsimp only at hsum ⊢
    rw [← h.sums k]
    convert hstep using 2 <;> omega
  · obtain hsame | hrange := happlied.range k
    · dsimp only
      rw [hsame]
      exact h.range k
    · exact hrange
  · have hsum := sum_update_exchange (fun t => (↑(Lib.calls t.todo) : Multiset ε)) p.threads hc t'
    dsimp only at hsum ⊢
    rw [← h.calls]
    apply add_right_cancel (b := (↑(Lib.calls (p.threads c).todo) : Multiset ε))
    rw [add_assoc, hsum, add_comm _ (↑(Lib.calls t'.todo) : Multiset ε), ← add_assoc, happlied.calls]
    abel
  · dsimp only
    by_cases hc' : c' = c
    · rw [hc', hself]
      exact List.Subset.trans (happlied.pending m) (h.pending m c)
    · rw [hother c' hc']
      exact h.pending m c'
  · dsimp only
    obtain ⟨c', hlt, hpending⟩ | hkeeps := h.settled m v hv
    · by_cases hc' : c' = c
      · subst hc'
        obtain hleft | hnow := happlied.settled m v hpending
        · exact Or.inl ⟨c', hlt, by rw [hself]; exact hleft⟩
        · exact Or.inr hnow
      · exact Or.inl ⟨c', hlt, by rw [hother c' hc']; exact hpending⟩
    · exact Or.inr (hkept m v hkeeps)
  · dsimp only
    obtain hsame | ⟨hmem, -⟩ := happlied.cells m
    · rw [hsame]
      exact h.cells m
    · exact Or.inr (h.pending m c hmem)
  · exact hkept m _ (h.better m)

/-! ## When the threads are done -/

section Done
variable (h : Accounted R n init p) (hdone : ∀ c < n, (p.threads c).todo = [])
include h hdone

/-- **The sums are those of everything submitted**, up to the width of the words. -/
theorem Accounted.sums_of_done (k : κ) : p.memory.sums k = wrap64 (init.sums k + amounts k p.submitted) := by
  have hzero : ∑ c ∈ Finset.range n, amounts k (p.threads c).todo = 0 :=
    Finset.sum_eq_zero fun c hc => by rw [hdone c (Finset.mem_range.mp hc)]; rfl
  have hsums := h.sums k
  rw [hzero, Int.add_zero, h.range k] at hsums
  exact hsums

/-- **Every call was made once.** -/
theorem Accounted.calls_of_done : (p.memory.calls : Multiset ε) = init.calls + Lib.calls p.submitted := by
  have hzero : ∑ c ∈ Finset.range n, (↑(Lib.calls (p.threads c).todo) : Multiset ε) = 0 :=
    Finset.sum_eq_zero fun c hc => by rw [hdone c (Finset.mem_range.mp hc)]; rfl
  have hcalls := h.calls
  rw [hzero, add_zero] at hcalls
  exact hcalls

/-- **A cell holds the best value offered to it**, or its first one if none is better. -/
theorem Accounted.cells_of_done (m : μ) :
    (p.memory.cells m = init.cells m ∨ p.memory.cells m ∈ offers m p.submitted) ∧
      R.keeps m (p.memory.cells m) (init.cells m) = true ∧
      ∀ v ∈ offers m p.submitted, R.keeps m (p.memory.cells m) v = true := by
  refine ⟨h.cells m, h.better m, fun v hv => ?_⟩
  obtain ⟨c, hc, hpending⟩ | hkeeps := h.settled m v hv
  · rw [hdone c hc] at hpending
    cases hpending
  · exact hkeeps

end Done

end Lib
