import Proofload.Lib.Maps
import Mathlib.Data.List.Basic

/-!
# A file system that can crash

Files are numbered; the directory gives names to them. Data that was not synced and changes of the directory that were
not flushed yet can be lost: after a crash the directory is one of its earlier states since the last flush, and a file
that was not synced holds anything.

* `Linked` : names are given to files that exist;
* `Only` : a file is known under one name at most, now and after a crash;
* `Intact` : whatever file a name denotes, now or after a crash, is synced and holds an admissible content;
* `Present` : a name denotes a file, now and after a crash.

Each operation has one lemma about each of them.
-/

namespace Lib

set_option autoImplicit false

structure Inode where
  content : List UInt8
  synced : Bool
deriving DecidableEq

structure Disk (P : Type) where
  inodes : List Inode
  entries : Map P Nat
  /-- the directory before the changes that were not flushed, the latest first -/
  older : List (Map P Nat)

namespace Disk

variable {P : Type} [DecidableEq P]

/-- The directories that a crash can leave. -/
def dirs (d : Disk P) : List (Map P Nat) := d.entries :: d.older

def read (d : Disk P) (p : P) : Option (List UInt8) :=
  (d.entries.lookup p).bind fun i => (d.inodes[i]?).map Inode.content

/-- An empty file under a new name. -/
def create (d : Disk P) (p : P) : Disk P :=
  { inodes := d.inodes ++ [⟨[], false⟩], entries := d.entries.insert p d.inodes.length, older := d.dirs }

def append (d : Disk P) (i : Nat) (bs : List UInt8) : Disk P :=
  { d with inodes := d.inodes.modify i fun n => ⟨n.content ++ bs, false⟩ }

def sync (d : Disk P) (i : Nat) : Disk P := { d with inodes := d.inodes.modify i fun n => ⟨n.content, true⟩ }

/-- A rename replaces what was there under the new name. -/
def rename (d : Disk P) (old new : P) : Disk P :=
  match d.entries.lookup old with
  | none => d
  | some i => { d with entries := (d.entries.erase old).insert new i, older := d.dirs }

def remove (d : Disk P) (p : P) : Disk P := { d with entries := d.entries.erase p, older := d.dirs }

/-- The oldest changes of the directory reach the disk. -/
def flush (d : Disk P) (k : Nat) : Disk P := { d with older := d.older.take k }

def crash (d : Disk P) (entries : Map P Nat) (left : Nat → List UInt8) : Disk P :=
  { inodes := d.inodes.mapIdx fun i n => if n.synced then n else ⟨left i, true⟩, entries, older := [] }

/-- Names are given to files that exist. -/
def Linked (d : Disk P) : Prop := ∀ D ∈ d.dirs, ∀ p i, D.lookup p = some i → i < d.inodes.length

/-- The file has no other name than `q`. -/
def Only (d : Disk P) (i : Nat) (q : P) : Prop := ∀ D ∈ d.dirs, ∀ p, D.lookup p = some i → p = q

/-- Whatever the name denotes is synced and admissible. -/
def Intact (d : Disk P) (p : P) (V : List UInt8 → Prop) : Prop :=
  ∀ D ∈ d.dirs, ∀ i, D.lookup p = some i → ∃ n, d.inodes[i]? = some n ∧ n.synced = true ∧ V n.content

/-- The name denotes a file. -/
def Present (d : Disk P) (p : P) : Prop := ∀ D ∈ d.dirs, (D.lookup p).isSome

variable {d : Disk P} {p q : P} {i : Nat} {V W : List UInt8 → Prop}

omit [DecidableEq P] in
theorem mem_dirs_self : d.entries ∈ d.dirs := List.mem_cons_self ..

/-! ## Changes of the directory -/

omit [DecidableEq P] in
theorem forall_dirs_cons {D : Map P Nat} {ds : List (Map P Nat)} {inodes : List Inode} {M : Map P Nat → Prop} :
    (∀ E ∈ dirs (⟨inodes, D, ds⟩ : Disk P), M E) ↔ M D ∧ ∀ E ∈ ds, M E := List.forall_mem_cons

theorem Linked.create (h : d.Linked) (p : P) : (d.create p).Linked := by
  have hlen : (d.create p).inodes.length = d.inodes.length + 1 := by simp [Disk.create]
  refine forall_dirs_cons.mpr ⟨fun q i hq => ?_, fun D hD q i hq => ?_⟩
  · rw [Map.lookup_insert_eq] at hq
    split_ifs at hq
    · rw [hlen, ← Option.some.inj hq]
      exact Nat.lt_succ_self _
    · rw [hlen]
      exact Nat.lt_succ_of_lt (h _ mem_dirs_self q i hq)
  · rw [hlen]
    exact Nat.lt_succ_of_lt (h D hD q i hq)

theorem Only.create (h : d.Only i q) (hi : i < d.inodes.length) : (d.create p).Only i q := by
  refine forall_dirs_cons.mpr ⟨fun r hr => ?_, h⟩
  rw [Map.lookup_insert_eq] at hr
  split_ifs at hr
  · exact absurd (Option.some.inj hr) (Nat.ne_of_gt hi)
  · exact h _ mem_dirs_self r hr

theorem only_created (h : d.Linked) (p : P) : (d.create p).Only d.inodes.length p := by
  refine forall_dirs_cons.mpr ⟨fun r hr => ?_, fun D hD r hr => absurd (h D hD r _ hr) (Nat.lt_irrefl _)⟩
  rw [Map.lookup_insert_eq] at hr
  split_ifs at hr with hrp
  · exact hrp
  · exact absurd (h _ mem_dirs_self r _ hr) (Nat.lt_irrefl _)

theorem Intact.create (h : d.Intact p V) (hpq : p ≠ q) : (d.create q).Intact p V := by
  have hkeep : ∀ D ∈ d.dirs, ∀ i, D.lookup p = some i →
      ∃ n, (d.create q).inodes[i]? = some n ∧ n.synced = true ∧ V n.content := by
    intro D hD i hi
    obtain ⟨n, hn, hrest⟩ := h D hD i hi
    refine ⟨n, ?_, hrest⟩
    unfold Disk.create
    rw [List.getElem?_append_left (List.getElem?_eq_some_iff.mp hn).1]
    exact hn
  refine forall_dirs_cons.mpr ⟨fun i hi => hkeep _ mem_dirs_self i ?_, hkeep⟩
  rwa [Map.lookup_insert_eq, if_neg hpq] at hi

theorem Present.create (h : d.Present p) (q : P) : (d.create q).Present p := by
  refine forall_dirs_cons.mpr ⟨?_, h⟩
  rw [Map.lookup_insert_eq]
  split_ifs
  · rfl
  · exact h _ mem_dirs_self

theorem lookup_rename {old new : P} (h : d.entries.lookup old = some i) (p : P) :
    (d.rename old new).entries.lookup p =
      if p = new then some i else if p = old then none else d.entries.lookup p := by
  unfold Disk.rename
  rw [h]
  dsimp only
  rw [Map.lookup_insert_eq, Map.lookup_erase_eq]

theorem inodes_rename (d : Disk P) (old new : P) : (d.rename old new).inodes = d.inodes := by
  unfold Disk.rename
  split <;> rfl

theorem Linked.rename (h : d.Linked) (old new : P) : (d.rename old new).Linked := by
  unfold Disk.rename
  split
  · exact h
  · next i hold =>
      refine forall_dirs_cons.mpr ⟨fun q j hq => ?_, h⟩
      rw [Map.lookup_insert_eq, Map.lookup_erase_eq] at hq
      split_ifs at hq
      · rw [← Option.some.inj hq]
        exact h _ mem_dirs_self old i hold
      · exact h _ mem_dirs_self q j hq

theorem Only.rename {old new : P} (h : d.Only i q) (hne : d.entries.lookup old ≠ some i) :
    (d.rename old new).Only i q := by
  unfold Disk.rename
  split
  · exact h
  · next j hold =>
      refine forall_dirs_cons.mpr ⟨fun r hr => ?_, h⟩
      rw [Map.lookup_insert_eq, Map.lookup_erase_eq] at hr
      split_ifs at hr
      · exact absurd (hold.trans hr) hne
      · exact h _ mem_dirs_self r hr

/-- Renaming onto a name replaces what it denotes by the file that had the old name. -/
theorem Intact.rename {old new : P} (h : d.Intact p V) (hmoved : p = new → ∀ i, d.entries.lookup old = some i →
    ∃ n, d.inodes[i]? = some n ∧ n.synced = true ∧ V n.content) : (d.rename old new).Intact p V := by
  unfold Disk.rename
  split
  · exact h
  · next i hold =>
      refine forall_dirs_cons.mpr ⟨fun j hj => ?_, h⟩
      rw [Map.lookup_insert_eq, Map.lookup_erase_eq] at hj
      split_ifs at hj with hnew
      · rw [← Option.some.inj hj]
        exact hmoved hnew i hold
      · exact h _ mem_dirs_self j hj

theorem Present.rename {old : P} (h : d.Present p) (hne : p ≠ old) (new : P) : (d.rename old new).Present p := by
  unfold Disk.rename
  split
  · exact h
  · refine forall_dirs_cons.mpr ⟨?_, h⟩
    rw [Map.lookup_insert_eq, Map.lookup_erase_eq, if_neg hne]
    split_ifs
    · rfl
    · exact h _ mem_dirs_self

theorem Linked.remove (h : d.Linked) (p : P) : (d.remove p).Linked := by
  refine forall_dirs_cons.mpr ⟨fun q i hq => ?_, h⟩
  rw [Map.lookup_erase_eq] at hq
  split_ifs at hq
  exact h _ mem_dirs_self q i hq

theorem Only.remove (h : d.Only i q) (p : P) : (d.remove p).Only i q := by
  refine forall_dirs_cons.mpr ⟨fun r hr => ?_, h⟩
  rw [Map.lookup_erase_eq] at hr
  split_ifs at hr
  exact h _ mem_dirs_self r hr

theorem Intact.remove (h : d.Intact p V) (q : P) : (d.remove q).Intact p V := by
  refine forall_dirs_cons.mpr ⟨fun i hi => ?_, h⟩
  rw [Map.lookup_erase_eq] at hi
  split_ifs at hi
  exact h _ mem_dirs_self i hi

theorem Present.remove (h : d.Present p) (hne : p ≠ q) : (d.remove q).Present p := by
  refine forall_dirs_cons.mpr ⟨?_, h⟩
  rw [Map.lookup_erase_eq, if_neg hne]
  exact h _ mem_dirs_self

omit [DecidableEq P] in
theorem forall_dirs_flush {M : Map P Nat → Prop} (h : ∀ D ∈ d.dirs, M D) (k : Nat) : ∀ D ∈ (d.flush k).dirs, M D := by
  rw [dirs, List.forall_mem_cons] at h
  exact forall_dirs_cons.mpr ⟨h.1, fun D hD => h.2 D (List.mem_of_mem_take hD)⟩

/-! ## Changes of a file -/

theorem Intact.modify {f : Inode → Inode} (h : d.Intact p V)
    (hf : (∃ D ∈ d.dirs, D.lookup p = some i) → ∀ n, n.synced = true → V n.content →
      (f n).synced = true ∧ V (f n).content) :
    Intact { d with inodes := d.inodes.modify i f } p V := by
  intro D hD j hj
  obtain ⟨n, hn, hsynced, hV⟩ := h D hD j hj
  have hnode : (d.inodes.modify i f)[j]? = some (if i = j then f n else n) := by
    rw [List.getElem?_modify, hn]
    split_ifs <;> rfl
  refine ⟨_, hnode, ?_⟩
  split_ifs with hij
  · exact hf ⟨D, hD, hij ▸ hj⟩ n hsynced hV
  · exact ⟨hsynced, hV⟩

theorem Intact.append (h : d.Intact p V) (honly : d.Only i q) (hpq : p ≠ q) (bs : List UInt8) :
    (d.append i bs).Intact p V := by
  apply h.modify
  rintro ⟨D, hD, hp⟩
  exact absurd (honly D hD p hp) hpq

theorem Intact.sync (h : d.Intact p V) (i : Nat) : (d.sync i).Intact p V := by
  apply h.modify
  intro _ n _ hV
  exact ⟨rfl, hV⟩

theorem Linked.modify {f : Inode → Inode} (h : d.Linked) (i : Nat) :
    Linked { d with inodes := d.inodes.modify i f } := by
  intro D hD p j hj
  dsimp only
  rw [List.length_modify]
  exact h D hD p j hj

theorem Intact.mono (h : d.Intact p V) (hVW : ∀ c, V c → W c) : d.Intact p W := by
  intro D hD i hi
  obtain ⟨n, hn, hsynced, hV⟩ := h D hD i hi
  exact ⟨n, hn, hsynced, hVW _ hV⟩

/-! ## Crashes -/

omit [DecidableEq P] in
theorem forall_dirs_crash {M : Map P Nat → Prop} (h : ∀ D ∈ d.dirs, M D) {entries : Map P Nat} (hD : entries ∈ d.dirs)
    (left : Nat → List UInt8) : ∀ D ∈ (d.crash entries left).dirs, M D :=
  forall_dirs_cons.mpr ⟨h entries hD, fun _ h => absurd h List.not_mem_nil⟩

theorem Linked.crash (h : d.Linked) {entries : Map P Nat} (hD : entries ∈ d.dirs) (left : Nat → List UInt8) :
    (d.crash entries left).Linked := by
  have hlen : (d.crash entries left).inodes.length = d.inodes.length := by simp [Disk.crash]
  unfold Linked
  rw [hlen]
  exact forall_dirs_crash h hD left

theorem Intact.crash (h : d.Intact p V) {entries : Map P Nat} (hD : entries ∈ d.dirs) (left : Nat → List UInt8) :
    (d.crash entries left).Intact p V := by
  refine forall_dirs_crash (M := fun D => ∀ i, D.lookup p = some i →
    ∃ n, (d.crash entries left).inodes[i]? = some n ∧ n.synced = true ∧ V n.content) (fun D hD i hi => ?_) hD left
  obtain ⟨n, hn, hsynced, hV⟩ := h D hD i hi
  refine ⟨n, ?_, hsynced, hV⟩
  unfold Disk.crash
  rw [List.getElem?_mapIdx, hn, Option.map_some, if_pos hsynced]

/-! ## Reading -/

/-- A disk on which nothing is pending. -/
structure Settled (d : Disk P) : Prop where
  linked : d.Linked
  flushed : d.older = []
  synced : ∀ n ∈ d.inodes, n.synced = true

theorem Settled.intact (h : d.Settled) (p : P) : d.Intact p fun c => d.read p = some c := by
  intro D hD i hi
  have hlt := h.linked D hD p i hi
  rw [dirs, h.flushed, List.mem_singleton] at hD
  rw [hD] at hi
  refine ⟨d.inodes[i], List.getElem?_eq_getElem hlt, h.synced _ (List.getElem_mem hlt), ?_⟩
  unfold Disk.read
  rw [hi, Option.bind_some, List.getElem?_eq_getElem hlt, Option.map_some]

theorem Settled.present (h : d.Settled) {p : P} (hp : (d.entries.lookup p).isSome) : d.Present p := by
  unfold Present dirs
  rw [h.flushed]
  exact List.forall_mem_singleton.mpr hp

theorem Intact.read (h : d.Intact p V) : d.read p = none ∨ ∃ c, d.read p = some c ∧ V c := by
  unfold Disk.read
  cases hp : d.entries.lookup p with
  | none => exact Or.inl rfl
  | some i =>
      obtain ⟨n, hn, -, hV⟩ := h _ mem_dirs_self i hp
      refine Or.inr ⟨n.content, ?_, hV⟩
      rw [Option.bind_some, hn, Option.map_some]

theorem read_congr {e : Disk P} (hentry : e.entries.lookup p = d.entries.lookup p)
    (hnode : ∀ i, d.entries.lookup p = some i → (e.inodes[i]?).map Inode.content = (d.inodes[i]?).map Inode.content) :
    e.read p = d.read p := by
  unfold Disk.read
  rw [hentry]
  cases hp : d.entries.lookup p with
  | none => rfl
  | some i => exact hnode i hp

end Disk
end Lib
