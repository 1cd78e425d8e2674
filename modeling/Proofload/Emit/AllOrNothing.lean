import Proofload.Emit.Atomic

/-!
# Atomic writes of many calls (`core/emit/atomic.go`)

* `Owned` : every call in progress alone knows its temporary file;
* `Inv` : besides, every destination is intact;
* `writeAtomic_all_or_nothing` : the destination always holds a complete content, and only a rename changes it;
* `no_temporary_left` : the temporary files that remain without a crash.
-/

namespace Proofload.Emit
open Lib Lib.Paths

set_option autoImplicit false

/-! ## All calls together -/

/-- The contents a destination may have: the initial one, or the data of a call that succeeded. -/
def Admissible (d₀ : Disk Path) (calls : Nat → Option Call) (p : Path) (content : Bytes) : Prop :=
  d₀.read p = some content ∨ ∃ i c, calls i = some c ∧ c.phase = .ok ∧ target c.path = p ∧ c.data = content

structure Owned (s : State) : Prop where
  linked : s.disk.Linked
  dest : ∀ i c, s.calls i = some c → ¬Hidden (target c.path)
  holds : ∀ i c, s.calls i = some c → Holds s.disk c.data c.phase
  apart : ∀ i j c c' tmp, s.calls i = some c → s.calls j = some c' → c.phase.tmp? = some tmp →
    c'.phase.tmp? = some tmp → i = j

structure Inv (d₀ : Disk Path) (s : State) : Prop extends Owned s where
  intact : ∀ p, ¬Hidden p → s.disk.Intact p (Admissible d₀ s.calls p)
  present : ∀ p, ¬Hidden p → (d₀.entries.lookup p).isSome → s.disk.Present p

theorem Owned.init {d₀ : Disk Path} (h : d₀.Linked) : Owned (init d₀) where
  linked := h
  dest i c hc := by cases hc
  holds i c hc := by cases hc
  apart i j c c' tmp hc := by cases hc

theorem Inv.init {d₀ : Disk Path} (h : d₀.Settled) : Inv d₀ (init d₀) where
  toOwned := .init h.linked
  intact p _ := (h.intact p).mono fun _ hread => Or.inl hread
  present _ _ hsome := h.present hsome

theorem Admissible.update {d₀ : Disk Path} {calls : Nat → Option Call} {p : Path} {content : Bytes} {i : Nat}
    (hover : ∀ c, calls i = some c → c.phase.over = false) (x : Option Call) (h : Admissible d₀ calls p content) :
    Admissible d₀ (Function.update calls i x) p content := by
  rcases h with h | ⟨j, c, hc, hok, hrest⟩
  · exact Or.inl h
  · refine Or.inr ⟨j, c, ?_, hok, hrest⟩
    rw [Function.update_of_ne]
    · exact hc
    · rintro rfl
      have := hover c hc
      rw [hok] at this
      cases this

theorem Holds.exists_entry {d : Disk Path} {data : Bytes} {ph : Phase} (h : Holds d data ph) {tmp : Path}
    (htmp : ph.tmp? = some tmp) : ∃ file, d.entries.lookup tmp = some file := by
  cases ph with
  | writing t file rest | written t file | synced t file | closed t file =>
      obtain rfl := Option.some.inj htmp
      exact ⟨file, h.1.entry⟩
  | failing t =>
      obtain rfl := Option.some.inj htmp
      exact h.2
  | _ => cases htmp

theorem calls_of_update {calls : Nat → Option Call} {i j : Nat} {x c : Call}
    (h : Function.update calls i (some x) j = some c) : (j = i ∧ c = x) ∨ (j ≠ i ∧ calls j = some c) := by
  by_cases hj : j = i
  · rw [hj, Function.update_self] at h
    exact Or.inl ⟨hj, (Option.some.inj h).symm⟩
  · rw [Function.update_of_ne hj] at h
    exact Or.inr ⟨hj, h⟩

theorem Owned.call {s : State} (h : Owned s) {i : Nat} {path : Path} {data : Bytes} (hdest : ¬Hidden (target path)) :
    Owned { s with calls := Function.update s.calls i (some ⟨path, data, .start⟩) } := by
  refine ⟨h.linked, fun j c hc => ?_, fun j c hc => ?_, fun j k c c' tmp hc hc' htmp htmp' => ?_⟩
  · rcases calls_of_update hc with ⟨-, rfl⟩ | ⟨-, hc⟩
    · exact hdest
    · exact h.dest j c hc
  · rcases calls_of_update hc with ⟨-, rfl⟩ | ⟨-, hc⟩
    · trivial
    · exact h.holds j c hc
  · rcases calls_of_update hc with ⟨-, rfl⟩ | ⟨-, hc⟩
    · cases htmp
    · rcases calls_of_update hc' with ⟨-, rfl⟩ | ⟨-, hc'⟩
      · cases htmp'
      · exact h.apart j k c c' tmp hc hc' htmp htmp'

theorem Inv.call {d₀ : Disk Path} {s : State} (h : Inv d₀ s) {i : Nat} {path : Path} {data : Bytes}
    (hnew : s.calls i = none) (hdest : ¬Hidden (target path)) :
    Inv d₀ { s with calls := Function.update s.calls i (some ⟨path, data, .start⟩) } where
  toOwned := h.toOwned.call hdest
  intact p hp := (h.intact p hp).mono fun _ => Admissible.update (fun c hc => by rw [hnew] at hc; cases hc) _
  present := h.present

theorem Owned.sys {s : State} (h : Owned s) {i : Nat} {c : Call} {o : Sys} {e : Disk Path} {ph : Phase}
    (hc : s.calls i = some c) (heff : Effect s.disk c o e ph) :
    Owned { disk := e, calls := Function.update s.calls i (some { c with phase := ph }) } := by
  have hholds := h.holds i c hc
  have hdest := h.dest i c hc
  have hspares := heff.spares h.linked hholds hdest
  -- the temporary file of another call is not the one of this call, before and after the step
  have hother : ∀ j c' tmp, j ≠ i → s.calls j = some c' → c'.phase.tmp? = some tmp → ph.tmp? ≠ some tmp := by
    intro j c' tmp hj hc' htmp hph
    rcases heff.tmp hph with hown | hnew
    · exact hj (h.apart j i c' c tmp hc' hc htmp hown)
    · obtain ⟨file, hfile⟩ := (h.holds j c' hc').exists_entry htmp
      rw [hnew] at hfile
      cases hfile
  refine ⟨heff.linked h.linked, fun j c' hc' => ?_, fun j c' hc' => ?_, fun j k c' c'' tmp hc' hc'' htmp htmp' => ?_⟩
  · rcases calls_of_update hc' with ⟨-, rfl⟩ | ⟨-, hc'⟩
    · exact hdest
    · exact h.dest j c' hc'
  · rcases calls_of_update hc' with ⟨-, rfl⟩ | ⟨hj, hc'⟩
    · exact heff.holds h.linked hholds
    · refine (h.holds j c' hc').spared hspares fun tmp htmp hown => hj ?_
      exact h.apart j i c' c tmp hc' hc htmp hown
  · rcases calls_of_update hc' with ⟨rfl, rfl⟩ | ⟨hj, hold⟩
    · rcases calls_of_update hc'' with ⟨rfl, -⟩ | ⟨hk, hold'⟩
      · rfl
      · exact absurd htmp (hother k c'' tmp hk hold' htmp')
    · rcases calls_of_update hc'' with ⟨rfl, rfl⟩ | ⟨hk, hold'⟩
      · exact absurd htmp' (hother j c' tmp hj hold htmp)
      · exact h.apart j k c' c'' tmp hold hold' htmp htmp'

theorem Inv.sys {d₀ : Disk Path} {s : State} (h : Inv d₀ s) {i : Nat} {c : Call} {o : Sys} {e : Disk Path} {ph : Phase}
    (hc : s.calls i = some c) (heff : Effect s.disk c o e ph) :
    Inv d₀ { disk := e, calls := Function.update s.calls i (some { c with phase := ph }) } where
  toOwned := h.toOwned.sys hc heff
  present p hp hsome := heff.present (h.holds i c hc) hp (h.present p hp hsome)
  intact p hp := by
    refine heff.intact (h.holds i c hc) hp ((h.intact p hp).mono fun _ => Admissible.update ?_ _) fun hok htarget => ?_
    · intro c' hc'
      rw [hc] at hc'
      obtain rfl := Option.some.inj hc'
      exact heff.not_over
    · exact Or.inr ⟨i, { c with phase := ph }, Function.update_self .., hok, htarget, rfl⟩

theorem spares_flush (d : Disk Path) (k : Nat) : Spares d (d.flush k) none :=
  fun _ _ _ _ hentry => ⟨hentry, fun honly => ⟨Disk.forall_dirs_flush honly k, rfl⟩⟩

theorem Owned.flush {s : State} (h : Owned s) (k : Nat) : Owned { s with disk := s.disk.flush k } where
  linked := Disk.forall_dirs_flush h.linked k
  dest := h.dest
  holds i c hc := (h.holds i c hc).spared (spares_flush s.disk k) fun _ _ => Option.some_ne_none _ ∘ Eq.symm
  apart := h.apart

theorem Inv.flush {d₀ : Disk Path} {s : State} (h : Inv d₀ s) (k : Nat) : Inv d₀ { s with disk := s.disk.flush k } where
  toOwned := h.toOwned.flush k
  intact p hp := Disk.forall_dirs_flush (h.intact p hp) k
  present p hp hsome := Disk.forall_dirs_flush (h.present p hp hsome) k

theorem Call.die_tmp (c : Call) : c.die.phase.tmp? = none := by
  unfold Call.die
  cases c.phase <;> rfl

theorem Call.die_holds (d : Disk Path) (c : Call) : Holds d c.die.data c.die.phase := by
  unfold Call.die
  cases c.phase <;> trivial

theorem Owned.crash {s : State} (h : Owned s) {entries : Map Path Nat} (hD : entries ∈ s.disk.dirs)
    (left : Nat → Bytes) : Owned { disk := s.disk.crash entries left, calls := fun i => (s.calls i).map Call.die } := by
  refine ⟨h.linked.crash hD left, fun i c hc => ?_, fun i c hc => ?_, fun i j c c' tmp hc _ htmp => ?_⟩
  · obtain ⟨c₀, hc₀, rfl⟩ := Option.map_eq_some_iff.mp hc
    exact h.dest i c₀ hc₀
  · obtain ⟨c₀, hc₀, rfl⟩ := Option.map_eq_some_iff.mp hc
    exact Call.die_holds _ c₀
  · obtain ⟨c₀, hc₀, rfl⟩ := Option.map_eq_some_iff.mp hc
    rw [Call.die_tmp] at htmp
    cases htmp

theorem Inv.crash {d₀ : Disk Path} {s : State} (h : Inv d₀ s) {entries : Map Path Nat} (hD : entries ∈ s.disk.dirs)
    (left : Nat → Bytes) :
    Inv d₀ { disk := s.disk.crash entries left, calls := fun i => (s.calls i).map Call.die } where
  toOwned := h.toOwned.crash hD left
  present p hp hsome := Disk.forall_dirs_crash (h.present p hp hsome) hD left
  intact p hp := by
    refine ((h.intact p hp).crash hD left).mono ?_
    rintro content (hread | ⟨i, c, hc, hok, htarget, hdata⟩)
    · exact Or.inl hread
    · refine Or.inr ⟨i, c.die, Option.map_eq_some_iff.mpr ⟨c, hc, rfl⟩, ?_, htarget, hdata⟩
      simp only [Call.die, hok]

theorem Inv.step {d₀ : Disk Path} {s t : State} (h : Inv d₀ s) {a : Action} (ht : step s a = some t) : Inv d₀ t := by
  cases a with
  | call i path data =>
      simp only [Emit.step] at ht
      split_ifs at ht with hguard
      obtain rfl := Option.some.inj ht
      exact h.call (Option.isNone_iff_eq_none.mp hguard.1) hguard.2
  | sys i o =>
      obtain ⟨c, hc, hrest⟩ := Option.bind_eq_some_iff.mp ht
      obtain ⟨⟨e, ph⟩, hadv, rfl⟩ := Option.map_eq_some_iff.mp hrest
      exact h.sys hc (advance_effect hadv)
  | flush k =>
      obtain rfl := Option.some.inj ht
      exact h.flush k
  | crash k left =>
      obtain ⟨entries, hD, rfl⟩ := Option.map_eq_some_iff.mp ht
      exact h.crash (List.mem_of_getElem? hD) left

theorem inv_reachable {d₀ : Disk Path} (h₀ : d₀.Settled) {s : State} (h : Reachable step (init d₀) s) : Inv d₀ s :=
  h.invariant (Inv.init h₀) fun _ _ _ hs ht => hs.step ht

/-- **All or nothing.** Start from a disk on which nothing is pending. After any interleaving of any number of
`writeAtomic` calls, with any system call failing and any number of crashes, a destination reads as before all of them,
or as the complete data of a call for it that returned without error. And while the machine is up, only a rename
changes what is read there, to the whole data of its call: a call that fails leaves the destination alone. -/
theorem writeAtomic_all_or_nothing {d₀ : Disk Path} (h₀ : d₀.Settled) {s : State} (h : Reachable step (init d₀) s)
    {p : Path} (hp : ¬Hidden p) :
    (s.disk.read p = d₀.read p ∨
      ∃ i c, s.calls i = some c ∧ c.phase = .ok ∧ target c.path = p ∧ s.disk.read p = some c.data) ∧
    ∀ a t, step s a = some t → (∀ k left, a ≠ .crash k left) →
      t.disk.read p = s.disk.read p ∨
        ∃ i c, a = .sys i .rename ∧ s.calls i = some c ∧ target c.path = p ∧ t.disk.read p = some c.data := by
  have hinv := inv_reachable h₀ h
  refine ⟨?_, fun a t ht hup => ?_⟩
  · rcases (hinv.intact p hp).read with hnone | ⟨content, hread, hadm⟩
    · refine Or.inl (hnone.trans ?_)
      by_contra hne
      have hsome : (d₀.entries.lookup p).isSome := by
        by_contra hno
        rw [Option.not_isSome_iff_eq_none] at hno
        apply hne
        rw [Disk.read, hno]
        rfl
      obtain ⟨i, hi⟩ := Option.isSome_iff_exists.mp (hinv.present p hp hsome _ Disk.mem_dirs_self)
      obtain ⟨n, hn, -⟩ := hinv.intact p hp _ Disk.mem_dirs_self i hi
      rw [Disk.read, hi, Option.bind_some, hn] at hnone
      cases hnone
    · rcases hadm with hinit | ⟨i, c, hc, hok, htarget, rfl⟩
      · exact Or.inl (hread.trans hinit.symm)
      · exact Or.inr ⟨i, c, hc, hok, htarget, hread⟩
  · cases a with
    | call i path data =>
        simp only [step] at ht
        split_ifs at ht
        obtain rfl := Option.some.inj ht
        exact Or.inl rfl
    | sys i o =>
        obtain ⟨c, hc, hrest⟩ := Option.bind_eq_some_iff.mp ht
        obtain ⟨⟨e, ph⟩, hadv, rfl⟩ := Option.map_eq_some_iff.mp hrest
        rcases (advance_effect hadv).read hinv.linked (hinv.holds i c hc) hp with hsame | ⟨rfl, htarget, hread⟩
        · exact Or.inl hsame
        · exact Or.inr ⟨i, c, rfl, hc, htarget, hread⟩
    | flush k =>
        obtain rfl := Option.some.inj ht
        exact Or.inl rfl
    | crash k left => exact absurd rfl (hup k left)

def emptyDisk : Disk Path := ⟨[], ∅, []⟩

theorem settled_emptyDisk : emptyDisk.Settled where
  linked D hD p i hi := by
    rw [Disk.dirs, emptyDisk, List.mem_singleton] at hD
    rw [hD] at hi
    cases hi
  flushed := rfl
  synced n hn := absurd hn List.not_mem_nil

/-- The manifest of a run. -/
def manifestPath : Path := (layout (stringBytes ".") (stringBytes "redis") (stringBytes "run-1")).manifest

/-- A crash in the middle of a write, and a second call after it. -/
def interruptedWrite : List Action :=
  [.call 0 manifestPath [1, 2], .sys 0 (.mkdirAll true), .sys 0 (.createTemp (some 7)), .sys 0 (.write 1),
    .crash 1 (fun _ => [9]), .call 1 manifestPath [3, 4], .sys 1 (.mkdirAll true), .sys 1 (.createTemp (some 7)),
    .sys 1 (.write 2), .sys 1 .wrote, .sys 1 .sync, .sys 1 .close, .sys 1 .rename]

theorem all_or_nothing_after_crash :
    ∃ s, Reachable step (init emptyDisk) s ∧ s.disk.read (target manifestPath) = some [3, 4] ∧
      ∃ i c, s.calls i = some c ∧ c.phase = .ok ∧ c.data = [3, 4] := by
  obtain ⟨s, hreach, hread⟩ : ∃ s, Reachable step (init emptyDisk) s ∧
      s.disk.read (target manifestPath) = some [3, 4] := exists_reachable interruptedWrite (by decide +kernel)
  have hvisible : ¬Hidden (target manifestPath) := artifact_not_hidden _ _ _ _ (List.mem_cons_self ..)
  refine ⟨s, hreach, hread, ?_⟩
  rcases (writeAtomic_all_or_nothing settled_emptyDisk hreach hvisible).1 with hsame | ⟨i, c, hc, hok, -, hdata⟩
  · rw [hread] at hsame
    cases hsame
  · rw [hread] at hdata
    exact ⟨i, c, hc, hok, (Option.some.inj hdata).symm⟩

/-! ## What remains -/

/-- The steps while the machine is up. -/
def stepUp (s : State) : Action → Option State
  | .crash _ _ => none
  | a => step s a

/-- A name in the directory is there from the start, the destination of a call that succeeded, or the temporary file of
a call that has not returned or could not remove it. -/
def Explained (d₀ : Disk Path) (calls : Nat → Option Call) (q : Path) : Prop :=
  (d₀.entries.lookup q).isSome ∨ (∃ i c, calls i = some c ∧ c.phase = .ok ∧ target c.path = q) ∨
    ∃ i c, calls i = some c ∧ (c.phase.tmp? = some q ∨ c.phase = .err (some q))

theorem Effect.enters {d e : Disk Path} {c : Call} {o : Sys} {ph : Phase} (h : Effect d c o e ph)
    (hholds : Holds d c.data c.phase) {q : Path} (hq : (e.entries.lookup q).isSome) :
    (d.entries.lookup q).isSome ∨ ph.tmp? = some q ∨ (ph = .ok ∧ target c.path = q) := by
  cases h with
  | create n =>
      by_cases heq : q = tempPath c.path n
      · exact Or.inr (Or.inl (congrArg some heq.symm))
      · refine Or.inl ?_
        rwa [Disk.create, Map.lookup_insert_eq, if_neg heq] at hq
  | rename hphase =>
      rw [hphase] at hholds
      rw [Disk.lookup_rename hholds.1.entry] at hq
      split_ifs at hq with hdest htmp
      · exact Or.inr (Or.inr ⟨rfl, hdest.symm⟩)
      · exact absurd hq (by simp)
      · exact Or.inl hq
  | remove hphase =>
      refine Or.inl ?_
      rw [Disk.remove, Map.lookup_erase_eq] at hq
      split_ifs at hq
      · exact absurd hq (by simp)
      · exact hq
  | _ => exact Or.inl hq

/-- A call lets go of its temporary file only by renaming, removing or reporting it. -/
theorem Effect.leaves {d e : Disk Path} {c : Call} {o : Sys} {ph : Phase} (h : Effect d c o e ph)
    (hholds : Holds d c.data c.phase) (hdest : ¬Hidden (target c.path)) {q : Path} (hq : c.phase.tmp? = some q) :
    (ph.tmp? = some q ∨ ph = .err (some q)) ∨ e.entries.lookup q = none := by
  cases h with
  | idle hphase =>
      rcases hphase with hphase | hphase <;> rw [hphase] at hq <;> cases hq
  | create n hphase =>
      rw [hphase] at hq
      cases hq
  | write k hphase =>
      rw [hphase] at hq
      exact Or.inl (Or.inl hq)
  | wrote hphase =>
      rw [hphase] at hq
      exact Or.inl (Or.inl hq)
  | sync hphase =>
      rw [hphase] at hq
      exact Or.inl (Or.inl hq)
  | close hphase =>
      rw [hphase] at hq
      exact Or.inl (Or.inl hq)
  | rename hphase =>
      rw [hphase] at hq hholds
      obtain rfl := Option.some.inj hq
      refine Or.inr ?_
      rw [Disk.lookup_rename hholds.1.entry, if_neg (ne_of_not_hidden hdest hholds.1.hidden).symm, if_pos rfl]
  | fail hphase =>
      rcases hphase with ⟨_, hphase⟩ | hphase | hphase | hphase <;>
        (rw [hphase] at hq; exact Or.inl (Or.inl hq))
  | remove hphase =>
      rw [hphase] at hq
      obtain rfl := Option.some.inj hq
      exact Or.inr ((Map.lookup_erase_eq _ _ _).trans (if_pos rfl))
  | leave hphase =>
      rw [hphase] at hq
      obtain rfl := Option.some.inj hq
      exact Or.inl (Or.inr rfl)

theorem explained_sys {d₀ : Disk Path} {s : State} (hinv : Owned s) {i : Nat} {c : Call} {o : Sys} {e : Disk Path}
    {ph : Phase} (hc : s.calls i = some c) (heff : Effect s.disk c o e ph)
    (h : ∀ q, (s.disk.entries.lookup q).isSome → Explained d₀ s.calls q) (q : Path)
    (hq : (e.entries.lookup q).isSome) :
    Explained d₀ (Function.update s.calls i (some { c with phase := ph })) q := by
  have hholds := hinv.holds i c hc
  have hover := heff.not_over
  have hself : Function.update s.calls i (some { c with phase := ph }) i = some { c with phase := ph } :=
    Function.update_self ..
  have hkeep : ∀ j c', s.calls j = some c' → (j = i ∧ c' = c) ∨
      Function.update s.calls i (some { c with phase := ph }) j = some c' := by
    intro j c' hc'
    by_cases hj : j = i
    · rw [hj, hc] at hc'
      exact Or.inl ⟨hj, (Option.some.inj hc').symm⟩
    · exact Or.inr (by rw [Function.update_of_ne hj]; exact hc')
  rcases heff.enters hholds hq with hold | htmp | ⟨hok, htarget⟩
  · rcases h q hold with hinit | ⟨j, c', hc', hok, htarget⟩ | ⟨j, c', hc', hleft⟩
    · exact Or.inl hinit
    · rcases hkeep j c' hc' with ⟨-, rfl⟩ | hc'
      · rw [hok] at hover
        cases hover
      · exact Or.inr (Or.inl ⟨j, c', hc', hok, htarget⟩)
    · refine Or.inr (Or.inr ?_)
      rcases hkeep j c' hc' with ⟨-, rfl⟩ | hc'
      · rcases hleft with htmp | herr
        · rcases heff.leaves hholds (hinv.dest i _ hc) htmp with hstill | hgone
          · exact ⟨i, _, hself, hstill⟩
          · rw [hgone] at hq
            cases hq
        · rw [herr] at hover
          cases hover
      · exact ⟨j, c', hc', hleft⟩
  · exact Or.inr (Or.inr ⟨i, _, hself, Or.inl htmp⟩)
  · exact Or.inr (Or.inl ⟨i, _, hself, hok, htarget⟩)

theorem explained_call {d₀ : Disk Path} {calls : Nat → Option Call} {i : Nat} (hnew : calls i = none) (x : Call)
    {q : Path} (h : Explained d₀ calls q) : Explained d₀ (Function.update calls i (some x)) q := by
  have hkeep : ∀ j c, calls j = some c → Function.update calls i (some x) j = some c := by
    intro j c hc
    rw [Function.update_of_ne]
    · exact hc
    · rintro rfl
      rw [hnew] at hc
      cases hc
  rcases h with hinit | ⟨j, c, hc, hrest⟩ | ⟨j, c, hc, hrest⟩
  · exact Or.inl hinit
  · exact Or.inr (Or.inl ⟨j, c, hkeep j c hc, hrest⟩)
  · exact Or.inr (Or.inr ⟨j, c, hkeep j c hc, hrest⟩)

/-- **No temporary file is forgotten.** Start from a disk whose names lead to files. While the machine is up, every name
in the directory was there from the start, is the destination of a call that succeeded, or is the temporary file of a
call that is still running or whose own `Remove` failed; once all calls have returned and removed what they created,
only destinations are new. -/
theorem no_temporary_left {d₀ : Disk Path} (h₀ : d₀.Linked) {s : State} (h : Reachable stepUp (init d₀) s) (q : Path)
    (hq : (s.disk.entries.lookup q).isSome) :
    (d₀.entries.lookup q).isSome ∨ (∃ i c, s.calls i = some c ∧ c.phase = .ok ∧ target c.path = q) ∨
      ∃ i c, s.calls i = some c ∧ (c.phase.tmp? = some q ∨ c.phase = .err (some q)) := by
  have hinv : Owned s ∧ ∀ q, (s.disk.entries.lookup q).isSome → Explained d₀ s.calls q := by
    refine h.invariant (P := fun s => Owned s ∧ ∀ q, (s.disk.entries.lookup q).isSome → Explained d₀ s.calls q)
      ⟨Owned.init h₀, fun q hq => Or.inl hq⟩ fun s a t hs ht => ?_
    cases a with
    | call i path data =>
        simp only [stepUp, step] at ht
        split_ifs at ht with hguard
        obtain rfl := Option.some.inj ht
        refine ⟨hs.1.call hguard.2, fun q hq => ?_⟩
        exact explained_call (Option.isNone_iff_eq_none.mp hguard.1) _ (hs.2 q hq)
    | sys i o =>
        obtain ⟨c, hc, hrest⟩ := Option.bind_eq_some_iff.mp ht
        obtain ⟨⟨e, ph⟩, hadv, rfl⟩ := Option.map_eq_some_iff.mp hrest
        have heff := advance_effect hadv
        exact ⟨hs.1.sys hc heff, explained_sys hs.1 hc heff hs.2⟩
    | flush k =>
        obtain rfl := Option.some.inj ht
        exact ⟨hs.1.flush k, hs.2⟩
    | crash k left => cases ht
  exact hinv.2 q hq

/-- A call whose rename and whose `Remove` fail. -/
def stuckWrite : List Action :=
  [.call 0 manifestPath [1], .sys 0 (.mkdirAll true), .sys 0 (.createTemp (some 7)), .sys 0 (.write 1), .sys 0 .wrote,
    .sys 0 .sync, .sys 0 .close, .sys 0 .fail, .sys 0 (.remove false)]

theorem no_temporary_left_when_stuck :
    ∃ s, Reachable stepUp (init emptyDisk) s ∧ (s.disk.entries.lookup (tempPath manifestPath 7)).isSome ∧
      ∃ i c, s.calls i = some c ∧ (c.phase.tmp? = some (tempPath manifestPath 7) ∨
        c.phase = .err (some (tempPath manifestPath 7)) ∨ target c.path = tempPath manifestPath 7) := by
  obtain ⟨s, hreach, hentry⟩ : ∃ s, Reachable stepUp (init emptyDisk) s ∧
      (s.disk.entries.lookup (tempPath manifestPath 7)).isSome := exists_reachable stuckWrite (by decide +kernel)
  refine ⟨s, hreach, hentry, ?_⟩
  rcases no_temporary_left settled_emptyDisk.linked hreach _ hentry with
    hinit | ⟨i, c, hc, -, htarget⟩ | ⟨i, c, hc, h | h⟩
  · cases hinit
  · exact ⟨i, c, hc, Or.inr (Or.inr htarget)⟩
  · exact ⟨i, c, hc, Or.inl h⟩
  · exact ⟨i, c, hc, Or.inr (Or.inl h)⟩

end Proofload.Emit
