import Proofload.Emit.Layout
import Proofload.Lib.Disk
import Proofload.Lib.Run

/-!
# Atomic writes (`core/emit/atomic.go`)

Any number of `writeAtomic` calls run concurrently, to the same or to different paths. Every system call of a call is
one step; it succeeds or fails, a write reaches the file in pieces, and the machine can crash at any point, after which
further calls start on what is left on the disk. Symbolic links are not modelled: a path denotes the file of its cleaned
text. The destinations are files whose name does not start with a dot, as those of all artifacts.

* `advance_effect` : the effects of the system calls;
* `Effect.spares` : a call leaves the temporary files of the others alone;
* `Effect.holds` : a call knows what it has written;
* `Effect.intact`, `Effect.read` : what a system call does to a destination.
-/

namespace Proofload.Emit
open Lib Lib.Paths

set_option autoImplicit false

/-- A file name that starts with a dot. -/
def Hidden (p : Path) : Prop := (base p).head? = some 46

instance (p : Path) : Decidable (Hidden p) := inferInstanceAs (Decidable ((base p).head? = some 46))

/-- The name that `os.CreateTemp` makes of the pattern and its random number. -/
def tempName (path : Path) (n : Nat) : Path := stringBytes "." ++ base path ++ stringBytes ".tmp-" ++ digitBytes n

def tempPath (path : Path) (n : Nat) : Path := join [dir path, tempName path n]

/-- The file a path denotes. -/
def target (path : Path) : Path := (clean path).text

/-- Where a call of `writeAtomic` stands. -/
inductive Phase where
  | start
  | made
  | writing (tmp : Path) (file : Nat) (rest : Bytes)
  | written (tmp : Path) (file : Nat)
  | synced (tmp : Path) (file : Nat)
  | closed (tmp : Path) (file : Nat)
  /-- the file is closed, `os.Remove` is next -/
  | failing (tmp : Path)
  | ok
  /-- returned an error; the temporary file that could not be removed -/
  | err (left : Option Path)
  | dead
deriving DecidableEq

structure Call where
  path : Path
  data : Bytes
  phase : Phase
deriving DecidableEq

/-- The system calls and their outcomes. -/
inductive Sys where
  | mkdirAll (ok : Bool)
  | createTemp (n : Option Nat)
  /-- the next bytes reach the file -/
  | write (k : Nat)
  | wrote
  | sync
  | close
  | rename
  /-- the current one of `Write`, `Sync`, `Close` and `Rename` fails -/
  | fail
  | remove (ok : Bool)
deriving DecidableEq

/-- One system call of `writeAtomic` or of `writeAndSync`. -/
def advance (d : Disk Path) (c : Call) (o : Sys) : Option (Disk Path × Phase) :=
  match c.phase, o with
  | .start, .mkdirAll ok => some (d, if ok then .made else .err none)
  | .made, .createTemp none => some (d, .err none)
  | .made, .createTemp (some n) =>
      -- the pattern must not contain a separator, and the file must not exist
      if slash ∉ base c.path ∧ d.entries.lookup (tempPath c.path n) = none then
        some (d.create (tempPath c.path n), .writing (tempPath c.path n) d.inodes.length c.data)
      else none
  | .writing tmp file rest, .write k => some (d.append file (rest.take k), .writing tmp file (rest.drop k))
  | .writing tmp file rest, .wrote => if rest = [] then some (d, .written tmp file) else none
  | .written tmp file, .sync => some (d.sync file, .synced tmp file)
  | .synced tmp file, .close => some (d, .closed tmp file)
  | .closed tmp _, .rename => some (d.rename tmp (target c.path), .ok)
  | .writing tmp _ _, .fail => some (d, .failing tmp)
  | .written tmp _, .fail => some (d, .failing tmp)
  | .synced tmp _, .fail => some (d, .failing tmp)
  | .closed tmp _, .fail => some (d, .failing tmp)
  | .failing tmp, .remove true => some (d.remove tmp, .err none)
  | .failing tmp, .remove false => some (d, .err (some tmp))
  | _, _ => none

structure State where
  disk : Disk Path
  calls : Nat → Option Call

inductive Action where
  | call (i : Nat) (path : Path) (data : Bytes)
  | sys (i : Nat) (o : Sys)
  | flush (k : Nat)
  /-- the directory falls back to its `k`-th latest state -/
  | crash (k : Nat) (left : Nat → Bytes)

/-- A crash ends every call that has not returned. -/
def Call.die (c : Call) : Call :=
  { c with phase := match c.phase with
    | .ok => .ok
    | .err left => .err left
    | _ => .dead }

def step (s : State) : Action → Option State
  | .call i path data =>
      if (s.calls i).isNone ∧ ¬Hidden (target path) then
        some { s with calls := Function.update s.calls i (some ⟨path, data, .start⟩) }
      else none
  | .sys i o =>
      (s.calls i).bind fun c => (advance s.disk c o).map fun r =>
        { disk := r.1, calls := Function.update s.calls i (some { c with phase := r.2 }) }
  | .flush k => some { s with disk := s.disk.flush k }
  | .crash k left =>
      (s.disk.dirs[k]?).map fun entries =>
        { disk := s.disk.crash entries left, calls := fun i => (s.calls i).map Call.die }

def init (d : Disk Path) : State := { disk := d, calls := fun _ => none }

/-! ## Temporary names -/

theorem name_tempName {path : Path} (h : slash ∉ base path) (n : Nat) : Name (tempName path n) := by
  have hlen : 5 ≤ (tempName path n).length := by
    have : (stringBytes ".tmp-").length = 5 := by decide +kernel
    simp only [tempName, List.length_append, this]
    omega
  refine ⟨fun heq => ?_, fun heq => ?_, fun heq => ?_, ?_⟩
  · rw [heq] at hlen
    cases hlen
  · rw [heq] at hlen
    exact absurd hlen (by decide)
  · rw [heq] at hlen
    exact absurd hlen (by decide)
  · simp only [tempName, List.mem_append, not_or]
    refine ⟨⟨⟨by decide +kernel, h⟩, by decide +kernel⟩, fun hmem => ?_⟩
    exact absurd (digitBytes_range hmem).1 (by decide)

theorem hidden_tempPath {path : Path} (h : slash ∉ base path) (n : Nat) : Hidden (tempPath path n) := by
  have hname := name_tempName h n
  have hjoin : tempPath path n = ((clean (dir path)).child hname).text :=
    join_names (dir path) (List.forall_mem_singleton.mpr hname) (List.cons_ne_nil _ _)
  unfold Hidden
  rw [hjoin, base_child]
  rfl

theorem not_hidden_join (b : Path) {n : Path} (h : Name n) (hdot : n.head? ≠ some 46) :
    ¬Hidden (target (join [b, n])) := by
  have hjoin : join [b, n] = ((clean b).child h).text :=
    join_names b (List.forall_mem_singleton.mpr h) (List.cons_ne_nil _ _)
  unfold Hidden target
  rw [hjoin, clean_text, base_child]
  exact hdot

/-- The artifacts that are written atomically. -/
def Paths.atomic (p : Paths) : List Path :=
  [p.manifest, p.summary, p.timeseriesNDJSON, p.timeseriesParquet, p.verifyJSON]

theorem artifact_not_hidden (b targetName id : Path) :
    ∀ p ∈ (layout b targetName id).atomic, ¬Hidden (target p) := by
  simp only [Paths.atomic, layout, List.forall_mem_cons, List.not_mem_nil, false_implies, implies_true, and_true]
  refine ⟨?_, ?_, ?_, ?_, ?_⟩ <;> exact not_hidden_join _ (by decide +kernel) (by decide +kernel)

/-! ## What a system call does -/

/-- The effects of the system calls on the disk, with what is known where they are made. -/
inductive Effect (d : Disk Path) (c : Call) : Sys → Disk Path → Phase → Prop
  /-- `MkdirAll` or a failed `CreateTemp` -/
  | idle {o : Sys} {ph : Phase} : c.phase = .start ∨ c.phase = .made → ph = .made ∨ ph = .err none → Effect d c o d ph
  | create (n : Nat) : c.phase = .made → slash ∉ base c.path → d.entries.lookup (tempPath c.path n) = none →
      Effect d c (.createTemp (some n)) (d.create (tempPath c.path n))
        (.writing (tempPath c.path n) d.inodes.length c.data)
  | write {tmp : Path} {file : Nat} {rest : Bytes} (k : Nat) : c.phase = .writing tmp file rest →
      Effect d c (.write k) (d.append file (rest.take k)) (.writing tmp file (rest.drop k))
  | wrote {tmp : Path} {file : Nat} : c.phase = .writing tmp file [] → Effect d c .wrote d (.written tmp file)
  | sync {tmp : Path} {file : Nat} : c.phase = .written tmp file → Effect d c .sync (d.sync file) (.synced tmp file)
  | close {tmp : Path} {file : Nat} : c.phase = .synced tmp file → Effect d c .close d (.closed tmp file)
  | rename {tmp : Path} {file : Nat} : c.phase = .closed tmp file →
      Effect d c .rename (d.rename tmp (target c.path)) .ok
  | fail {tmp : Path} {file : Nat} : (∃ rest, c.phase = .writing tmp file rest) ∨ c.phase = .written tmp file ∨
      c.phase = .synced tmp file ∨ c.phase = .closed tmp file → Effect d c .fail d (.failing tmp)
  | remove {tmp : Path} : c.phase = .failing tmp → Effect d c (.remove true) (d.remove tmp) (.err none)
  | leave {tmp : Path} : c.phase = .failing tmp → Effect d c (.remove false) d (.err (some tmp))

theorem advance_effect {d e : Disk Path} {c : Call} {o : Sys} {ph : Phase} (h : advance d c o = some (e, ph)) :
    Effect d c o e ph := by
  unfold advance at h
  split at h
  · next ok hphase =>
      obtain ⟨rfl, rfl⟩ := Prod.mk.inj (Option.some.inj h)
      apply Effect.idle (Or.inl hphase)
      cases ok
      · exact Or.inr rfl
      · exact Or.inl rfl
  · next hphase =>
      obtain ⟨rfl, rfl⟩ := Prod.mk.inj (Option.some.inj h)
      exact .idle (Or.inr hphase) (Or.inr rfl)
  · next n hphase =>
      split_ifs at h with hnew
      obtain ⟨rfl, rfl⟩ := Prod.mk.inj (Option.some.inj h)
      exact .create n hphase hnew.1 hnew.2
  · next hphase =>
      obtain ⟨rfl, rfl⟩ := Prod.mk.inj (Option.some.inj h)
      exact .write _ hphase
  · next hphase =>
      split_ifs at h with hrest
      obtain ⟨rfl, rfl⟩ := Prod.mk.inj (Option.some.inj h)
      rw [hrest] at hphase
      exact .wrote hphase
  · next hphase =>
      obtain ⟨rfl, rfl⟩ := Prod.mk.inj (Option.some.inj h)
      exact .sync hphase
  · next hphase =>
      obtain ⟨rfl, rfl⟩ := Prod.mk.inj (Option.some.inj h)
      exact .close hphase
  · next hphase =>
      obtain ⟨rfl, rfl⟩ := Prod.mk.inj (Option.some.inj h)
      exact .rename hphase
  · next hphase =>
      obtain ⟨rfl, rfl⟩ := Prod.mk.inj (Option.some.inj h)
      exact .fail (Or.inl ⟨_, hphase⟩)
  · next hphase =>
      obtain ⟨rfl, rfl⟩ := Prod.mk.inj (Option.some.inj h)
      exact .fail (Or.inr (Or.inl hphase))
  · next hphase =>
      obtain ⟨rfl, rfl⟩ := Prod.mk.inj (Option.some.inj h)
      exact .fail (Or.inr (Or.inr (Or.inl hphase)))
  · next hphase =>
      obtain ⟨rfl, rfl⟩ := Prod.mk.inj (Option.some.inj h)
      exact .fail (Or.inr (Or.inr (Or.inr hphase)))
  · next hphase =>
      obtain ⟨rfl, rfl⟩ := Prod.mk.inj (Option.some.inj h)
      exact .remove hphase
  · next hphase =>
      obtain ⟨rfl, rfl⟩ := Prod.mk.inj (Option.some.inj h)
      exact .leave hphase
  · cases h

/-! ## Temporary files -/

def Phase.tmp? : Phase → Option Path
  | .writing tmp _ _ => some tmp
  | .written tmp _ => some tmp
  | .synced tmp _ => some tmp
  | .closed tmp _ => some tmp
  | .failing tmp => some tmp
  | _ => none

/-- The temporary file of a call, which no other name leads to. -/
structure Owns (d : Disk Path) (tmp : Path) (file : Nat) : Prop where
  hidden : Hidden tmp
  entry : d.entries.lookup tmp = some file
  only : d.Only file tmp

/-- What a call knows about its temporary file. -/
def Holds (d : Disk Path) (data : Bytes) : Phase → Prop
  | .writing tmp file rest => Owns d tmp file ∧ ∃ n, d.inodes[file]? = some n ∧ n.content ++ rest = data
  | .written tmp file => Owns d tmp file ∧ ∃ n, d.inodes[file]? = some n ∧ n.content = data
  | .synced tmp file => Owns d tmp file ∧ d.inodes[file]? = some ⟨data, true⟩
  | .closed tmp file => Owns d tmp file ∧ d.inodes[file]? = some ⟨data, true⟩
  | .failing tmp => Hidden tmp ∧ ∃ file, d.entries.lookup tmp = some file
  | _ => True

/-- The temporary files of other calls stay as they are. -/
def Spares (d e : Disk Path) (own : Option Path) : Prop :=
  ∀ tmp file, Hidden tmp → own ≠ some tmp → d.entries.lookup tmp = some file →
    e.entries.lookup tmp = some file ∧ (d.Only file tmp → e.Only file tmp ∧ e.inodes[file]? = d.inodes[file]?)

theorem Spares.refl (d : Disk Path) (own : Option Path) : Spares d d own :=
  fun _ _ _ _ hentry => ⟨hentry, fun honly => ⟨honly, rfl⟩⟩

theorem Owns.spared {d e : Disk Path} {own : Option Path} {tmp : Path} {file : Nat} (h : Owns d tmp file)
    (hs : Spares d e own) (hne : own ≠ some tmp) : Owns e tmp file ∧ e.inodes[file]? = d.inodes[file]? := by
  obtain ⟨hentry, hkeep⟩ := hs tmp file h.hidden hne h.entry
  exact ⟨⟨h.hidden, hentry, (hkeep h.only).1⟩, (hkeep h.only).2⟩

theorem Holds.spared {d e : Disk Path} {own : Option Path} {data : Bytes} {ph : Phase} (h : Holds d data ph)
    (hs : Spares d e own) (hne : ∀ tmp, ph.tmp? = some tmp → own ≠ some tmp) : Holds e data ph := by
  cases ph with
  | writing tmp file rest =>
      obtain ⟨howns, hnode⟩ := h.1.spared hs (hne tmp rfl)
      refine ⟨howns, ?_⟩
      rw [hnode]
      exact h.2
  | written tmp file =>
      obtain ⟨howns, hnode⟩ := h.1.spared hs (hne tmp rfl)
      refine ⟨howns, ?_⟩
      rw [hnode]
      exact h.2
  | synced tmp file =>
      obtain ⟨howns, hnode⟩ := h.1.spared hs (hne tmp rfl)
      exact ⟨howns, hnode.trans h.2⟩
  | closed tmp file =>
      obtain ⟨howns, hnode⟩ := h.1.spared hs (hne tmp rfl)
      exact ⟨howns, hnode.trans h.2⟩
  | failing tmp =>
      obtain ⟨hhidden, file, hentry⟩ := h
      exact ⟨hhidden, file, (hs tmp file hhidden (hne tmp rfl) hentry).1⟩
  | _ => trivial

theorem Owns.ne_of_only {d : Disk Path} {tmp other : Path} {file f : Nat} (h : Owns d tmp file)
    (honly : d.Only f other) (hne : tmp ≠ other) : file ≠ f := by
  rintro rfl
  exact hne (honly _ Disk.mem_dirs_self tmp h.entry)

theorem spares_modify {d : Disk Path} {tmp : Path} {file : Nat} (h : Owns d tmp file) (f : Inode → Inode) :
    Spares d { d with inodes := d.inodes.modify file f } (some tmp) := by
  refine fun other g _ hne hentry => ⟨hentry, fun honly => ⟨honly, ?_⟩⟩
  have hfile : file ≠ g := h.ne_of_only honly fun heq => hne (congrArg some heq)
  exact List.getElem?_modify_ne f _ hfile

theorem spares_create {d : Disk Path} (hlinked : d.Linked) {q : Path} (hnew : d.entries.lookup q = none)
    (own : Option Path) : Spares d (d.create q) own := by
  intro tmp file _ _ hentry
  have hlt : file < d.inodes.length := hlinked _ Disk.mem_dirs_self tmp file hentry
  refine ⟨?_, fun honly => ⟨honly.create hlt, List.getElem?_append_left hlt⟩⟩
  have hne : tmp ≠ q := by
    rintro rfl
    rw [hnew] at hentry
    cases hentry
  exact (Map.lookup_insert_eq _ _ _ _).trans ((if_neg hne).trans hentry)

theorem spares_rename {d : Disk Path} {tmp dest : Path} {file : Nat} (h : Owns d tmp file) (hdest : ¬Hidden dest) :
    Spares d (d.rename tmp dest) (some tmp) := by
  intro other g hhidden hne hentry
  have hother : other ≠ tmp := fun heq => hne (congrArg some heq.symm)
  have hnotdest : other ≠ dest := fun heq => hdest (heq ▸ hhidden)
  refine ⟨?_, fun honly => ⟨honly.rename ?_, congrArg (fun l : List Inode => l[g]?) (Disk.inodes_rename d tmp dest)⟩⟩
  · rw [Disk.lookup_rename h.entry, if_neg hnotdest, if_neg hother]
    exact hentry
  · rw [h.entry]
    exact fun heq => h.ne_of_only honly hother.symm (Option.some.inj heq)

theorem spares_remove (d : Disk Path) (tmp : Path) : Spares d (d.remove tmp) (some tmp) := by
  intro other g _ hne hentry
  refine ⟨?_, fun honly => ⟨honly.remove tmp, rfl⟩⟩
  exact (Map.lookup_erase_eq _ _ _).trans ((if_neg fun heq => hne (congrArg some heq.symm)).trans hentry)

theorem Effect.spares {d e : Disk Path} {c : Call} {o : Sys} {ph : Phase} (h : Effect d c o e ph) (hlinked : d.Linked)
    (hholds : Holds d c.data c.phase) (hdest : ¬Hidden (target c.path)) : Spares d e c.phase.tmp? := by
  cases h with
  | create n hphase _ hnew => exact spares_create hlinked hnew _
  | write k hphase =>
      rw [hphase] at hholds ⊢
      exact spares_modify hholds.1 _
  | sync hphase =>
      rw [hphase] at hholds ⊢
      exact spares_modify hholds.1 _
  | rename hphase =>
      rw [hphase] at hholds ⊢
      exact spares_rename hholds.1 hdest
  | remove hphase =>
      rw [hphase]
      exact spares_remove d _
  | _ => exact Spares.refl d _

theorem Effect.tmp {d e : Disk Path} {c : Call} {o : Sys} {ph : Phase} (h : Effect d c o e ph) {tmp : Path}
    (htmp : ph.tmp? = some tmp) : c.phase.tmp? = some tmp ∨ d.entries.lookup tmp = none := by
  cases h with
  | idle _ hph => rcases hph with rfl | rfl <;> cases htmp
  | create n _ _ hnew =>
      obtain rfl := Option.some.inj htmp
      exact Or.inr hnew
  | write k hphase => exact Or.inl (by rw [hphase]; exact htmp)
  | wrote hphase => exact Or.inl (by rw [hphase]; exact htmp)
  | sync hphase => exact Or.inl (by rw [hphase]; exact htmp)
  | close hphase => exact Or.inl (by rw [hphase]; exact htmp)
  | rename => cases htmp
  | fail hphase =>
      rcases hphase with ⟨rest, hphase⟩ | hphase | hphase | hphase <;> exact Or.inl (by rw [hphase]; exact htmp)
  | remove => cases htmp
  | leave => cases htmp

theorem Effect.linked {d e : Disk Path} {c : Call} {o : Sys} {ph : Phase} (h : Effect d c o e ph) (hlinked : d.Linked) :
    e.Linked := by
  cases h with
  | create => exact hlinked.create _
  | write => exact hlinked.modify _
  | sync => exact hlinked.modify _
  | rename => exact hlinked.rename _ _
  | remove => exact hlinked.remove _
  | _ => exact hlinked

theorem Owns.modify {d : Disk Path} {tmp : Path} {file : Nat} (h : Owns d tmp file) (f : Inode → Inode) :
    Owns { d with inodes := d.inodes.modify file f } tmp file := ⟨h.hidden, h.entry, h.only⟩

theorem getElem?_modify_self {d : Disk Path} {file : Nat} {n : Inode} (h : d.inodes[file]? = some n)
    (f : Inode → Inode) : (d.inodes.modify file f)[file]? = some (f n) := by
  rw [List.getElem?_modify_eq, h]
  rfl

theorem Effect.holds {d e : Disk Path} {c : Call} {o : Sys} {ph : Phase} (h : Effect d c o e ph) (hlinked : d.Linked)
    (hholds : Holds d c.data c.phase) : Holds e c.data ph := by
  cases h with
  | idle _ hph => rcases hph with rfl | rfl <;> trivial
  | create n hphase hbase hnew =>
      refine ⟨⟨hidden_tempPath hbase n, ?_, Disk.only_created hlinked _⟩, ⟨[], false⟩, ?_, rfl⟩
      · exact (Map.lookup_insert_eq _ _ _ _).trans (if_pos rfl)
      · exact List.getElem?_concat_length
  | write k hphase =>
      rw [hphase] at hholds
      obtain ⟨howns, n, hn, hdata⟩ := hholds
      refine ⟨howns.modify _, _, getElem?_modify_self hn _, ?_⟩
      dsimp only
      rw [List.append_assoc, List.take_append_drop]
      exact hdata
  | wrote hphase =>
      rw [hphase] at hholds
      obtain ⟨howns, n, hn, hdata⟩ := hholds
      exact ⟨howns, n, hn, (List.append_nil _).symm.trans hdata⟩
  | sync hphase =>
      rw [hphase] at hholds
      obtain ⟨howns, n, hn, hdata⟩ := hholds
      rw [← hdata]
      exact ⟨howns.modify _, getElem?_modify_self hn _⟩
  | close hphase =>
      rw [hphase] at hholds
      exact hholds
  | rename => trivial
  | fail hphase =>
      rcases hphase with ⟨rest, hphase⟩ | hphase | hphase | hphase <;>
        (rw [hphase] at hholds; exact ⟨hholds.1.hidden, _, hholds.1.entry⟩)
  | remove => trivial
  | leave => trivial

theorem Effect.intact {d e : Disk Path} {c : Call} {o : Sys} {ph : Phase} (h : Effect d c o e ph)
    (hholds : Holds d c.data c.phase) {p : Path} (hp : ¬Hidden p) {V : Bytes → Prop} (hd : d.Intact p V)
    (hok : ph = .ok → target c.path = p → V c.data) : e.Intact p V := by
  cases h with
  | create n _ hbase _ =>
      apply hd.create
      rintro rfl
      exact hp (hidden_tempPath hbase n)
  | write k hphase =>
      rw [hphase] at hholds
      refine hd.append hholds.1.only ?_ _
      rintro rfl
      exact hp hholds.1.hidden
  | sync => exact hd.sync _
  | rename hphase =>
      rw [hphase] at hholds
      refine hd.rename fun hdest i hi => ?_
      rw [hholds.1.entry] at hi
      obtain rfl := Option.some.inj hi
      exact ⟨_, hholds.2, rfl, hok rfl hdest.symm⟩
  | remove => exact hd.remove _
  | _ => exact hd

theorem Effect.present {d e : Disk Path} {c : Call} {o : Sys} {ph : Phase} (h : Effect d c o e ph)
    (hholds : Holds d c.data c.phase) {p : Path} (hp : ¬Hidden p) (hd : d.Present p) : e.Present p := by
  cases h with
  | create => exact hd.create _
  | rename hphase =>
      rw [hphase] at hholds
      exact hd.rename (fun heq => hp (heq ▸ hholds.1.hidden)) _
  | remove hphase =>
      rw [hphase] at hholds
      exact hd.remove fun heq => hp (heq ▸ hholds.1)
  | _ => exact hd

theorem ne_of_not_hidden {p tmp : Path} (hp : ¬Hidden p) (htmp : Hidden tmp) : p ≠ tmp := by
  rintro rfl
  exact hp htmp

theorem Owns.not_read {d : Disk Path} {tmp p : Path} {file i : Nat} (h : Owns d tmp file) (hp : ¬Hidden p)
    (hi : d.entries.lookup p = some i) : file ≠ i := by
  rintro rfl
  exact ne_of_not_hidden hp h.hidden (h.only _ Disk.mem_dirs_self p hi)

theorem Owns.read_modify {d : Disk Path} {tmp p : Path} {file : Nat} (h : Owns d tmp file) (hp : ¬Hidden p)
    (f : Inode → Inode) : Disk.read { d with inodes := d.inodes.modify file f } p = d.read p :=
  Disk.read_congr rfl fun _ hi => congrArg _ (List.getElem?_modify_ne _ _ (h.not_read hp hi))

/-- Only a rename changes what is read at a destination, to the whole data of its call. -/
theorem Effect.read {d e : Disk Path} {c : Call} {o : Sys} {ph : Phase} (h : Effect d c o e ph) (hlinked : d.Linked)
    (hholds : Holds d c.data c.phase) {p : Path} (hp : ¬Hidden p) :
    e.read p = d.read p ∨ (o = .rename ∧ target c.path = p ∧ e.read p = some c.data) := by
  cases h with
  | create n _ hbase _ =>
      refine Or.inl (Disk.read_congr ?_ fun i hi => ?_)
      · exact (Map.lookup_insert_eq _ _ _ _).trans (if_neg (ne_of_not_hidden hp (hidden_tempPath hbase n)))
      · exact congrArg _ (List.getElem?_append_left (hlinked _ Disk.mem_dirs_self p i hi))
  | write k hphase =>
      rw [hphase] at hholds
      exact Or.inl (hholds.1.read_modify hp _)
  | sync hphase =>
      rw [hphase] at hholds
      exact Or.inl (hholds.1.read_modify hp _)
  | rename hphase =>
      rw [hphase] at hholds
      have hentry := fun q => @Disk.lookup_rename _ _ d _ _ (target c.path) hholds.1.entry q
      by_cases hdest : target c.path = p
      · refine Or.inr ⟨rfl, hdest, ?_⟩
        unfold Disk.read
        rw [hentry, if_pos hdest.symm, Option.bind_some, Disk.inodes_rename, hholds.2, Option.map_some]
      · refine Or.inl (Disk.read_congr ?_ fun i _ => by rw [Disk.inodes_rename])
        rw [hentry, if_neg fun heq => hdest heq.symm, if_neg (ne_of_not_hidden hp hholds.1.hidden)]
  | remove hphase =>
      rw [hphase] at hholds
      refine Or.inl (Disk.read_congr ?_ fun i hi => rfl)
      exact (Map.lookup_erase_eq _ _ _).trans (if_neg (ne_of_not_hidden hp hholds.1))
  | _ => exact Or.inl rfl

/-- The call has returned or was ended by a crash. -/
def Phase.over : Phase → Bool
  | .ok => true
  | .err _ => true
  | .dead => true
  | _ => false

theorem Effect.not_over {d e : Disk Path} {c : Call} {o : Sys} {ph : Phase} (h : Effect d c o e ph) :
    c.phase.over = false := by
  cases h with
  | idle hphase => rcases hphase with hphase | hphase <;> rw [hphase] <;> rfl
  | fail hphase => rcases hphase with ⟨_, hphase⟩ | hphase | hphase | hphase <;> rw [hphase] <;> rfl
  | create n hphase | write k hphase | wrote hphase | sync hphase | close hphase | rename hphase | remove hphase
  | leave hphase =>
      rw [hphase]
      rfl

end Proofload.Emit
