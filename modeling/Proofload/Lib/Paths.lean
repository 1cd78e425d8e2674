import Proofload.Lib.Texts
import Mathlib.Data.List.DropRight

/-!
# Slash-separated paths

Lexical processing of Unix paths: `clean` removes empty and dot components and resolves parent steps, `join` cleans
what it composes, and `dir` and `base` take a path apart. A cleaned path is a stack of components that carries the
proof of its normal form.

* `clean_text` : a cleaned path is read back as itself;
* `join_names` : composing names descends from the cleaned base;
* `dir_child`, `base_child` : and taking the path apart leads back.
-/

namespace Lib.Paths

set_option autoImplicit false

abbrev Path := List UInt8

def slash : UInt8 := 47

def dot : Path := [46]

def dotdot : Path := [46, 46]

/-- A component that names an entry of a directory. -/
structure Name (c : Path) : Prop where
  ne_nil : c ≠ []
  ne_dot : c ≠ dot
  ne_dotdot : c ≠ dotdot
  no_slash : slash ∉ c

instance (c : Path) : Decidable (Name c) :=
  decidable_of_iff (c ≠ [] ∧ c ≠ dot ∧ c ≠ dotdot ∧ slash ∉ c)
    ⟨fun h => ⟨h.1, h.2.1, h.2.2.1, h.2.2.2⟩, fun h => ⟨h.1, h.2, h.3, h.4⟩⟩

/-- A parent step; the root is its own parent. -/
def up (rooted : Bool) : List Path → List Path
  | [] => if rooted then [] else [dotdot]
  | top :: rest => if top = dotdot then dotdot :: top :: rest else rest

/-- One more component on the stack of a path, whose deepest component is on top. -/
def push (rooted : Bool) (stack : List Path) (c : Path) : List Path :=
  if c = [] ∨ c = dot then stack else if c = dotdot then up rooted stack else c :: stack

/-- The stacks of cleaned paths: names, over parent steps in a relative path. -/
inductive Stacked : Bool → List Path → Prop
  | nil (rooted : Bool) : Stacked rooted []
  | name {rooted : Bool} {c : Path} {stack : List Path} : Name c → Stacked rooted stack → Stacked rooted (c :: stack)
  | up {stack : List Path} : (∀ c ∈ stack, c = dotdot) → Stacked false stack → Stacked false (dotdot :: stack)

structure Cleaned where
  rooted : Bool
  stack : List Path
  stacked : Stacked rooted stack

@[ext] theorem Cleaned.ext {c d : Cleaned} (hrooted : c.rooted = d.rooted) (hstack : c.stack = d.stack) : c = d := by
  obtain ⟨r, s, h⟩ := c
  obtain ⟨r', s', h'⟩ := d
  obtain rfl : r = r' := hrooted
  obtain rfl : s = s' := hstack
  rfl

def Cleaned.text (c : Cleaned) : Path :=
  if c.rooted then slash :: [slash].intercalate c.stack.reverse
  else if c.stack = [] then dot else [slash].intercalate c.stack.reverse

def isRooted (p : Path) : Bool := p.head? = some slash

/-! ## The stack machine -/

theorem push_nil (rooted : Bool) (stack : List Path) : push rooted stack [] = stack := if_pos (Or.inl rfl)

theorem push_name {c : Path} (h : Name c) (rooted : Bool) (stack : List Path) : push rooted stack c = c :: stack := by
  unfold push
  rw [if_neg (not_or.mpr ⟨h.ne_nil, h.ne_dot⟩), if_neg h.ne_dotdot]

theorem push_dotdot {stack : List Path} (h : ∀ c ∈ stack, c = dotdot) : push false stack dotdot = dotdot :: stack := by
  cases stack with
  | nil => rfl
  | cons top rest =>
      obtain rfl := h top (List.mem_cons_self ..)
      rfl

theorem Stacked.parent {rooted : Bool} {stack : List Path} (h : Stacked rooted stack) :
    Stacked rooted (Paths.up rooted stack) := by
  cases h with
  | nil =>
      cases rooted with
      | true => exact .nil true
      | false => exact .up (fun _ h => absurd h List.not_mem_nil) (.nil false)
  | name htop hrest =>
      rw [Paths.up, if_neg htop.ne_dotdot]
      exact hrest
  | up hall hrest => exact .up (List.forall_mem_cons.mpr ⟨rfl, hall⟩) (.up hall hrest)

theorem Stacked.push {rooted : Bool} {stack : List Path} (h : Stacked rooted stack) {c : Path} (hc : slash ∉ c) :
    Stacked rooted (Paths.push rooted stack c) := by
  unfold Paths.push
  split_ifs with hempty hup
  · exact h
  · exact h.parent
  · rw [not_or] at hempty
    exact .name ⟨hempty.1, hempty.2, hup, hc⟩ h

theorem Stacked.foldl_push {rooted : Bool} {cs : List Path} (hcs : ∀ c ∈ cs, slash ∉ c) {stack : List Path}
    (h : Stacked rooted stack) : Stacked rooted (cs.foldl (Paths.push rooted) stack) := by
  induction cs generalizing stack with
  | nil => exact h
  | cons c cs ih =>
      rw [List.forall_mem_cons] at hcs
      exact ih hcs.2 (h.push hcs.1)

/-- Pushing the components of a normal stack one after the other builds it again. -/
theorem Stacked.rebuild {rooted : Bool} {stack : List Path} (h : Stacked rooted stack) :
    stack.reverse.foldl (Paths.push rooted) [] = stack := by
  induction h with
  | nil => rfl
  | name hc _ ih => rw [List.reverse_cons, List.foldl_append, ih, List.foldl_cons, push_name hc, List.foldl_nil]
  | up hall _ ih => rw [List.reverse_cons, List.foldl_append, ih, List.foldl_cons, push_dotdot hall, List.foldl_nil]

theorem Stacked.component {rooted : Bool} {stack : List Path} (h : Stacked rooted stack) :
    ∀ c ∈ stack, c ≠ [] ∧ slash ∉ c := by
  induction h with
  | nil => exact fun _ h => absurd h List.not_mem_nil
  | name hc _ ih => exact List.forall_mem_cons.mpr ⟨⟨hc.ne_nil, hc.no_slash⟩, ih⟩
  | up _ _ ih => exact List.forall_mem_cons.mpr ⟨⟨by decide, by decide⟩, ih⟩

theorem foldl_push_names (rooted : Bool) {ns : List Path} (h : ∀ n ∈ ns, Name n) (stack : List Path) :
    ns.foldl (push rooted) stack = ns.reverse ++ stack := by
  induction ns generalizing stack with
  | nil => rfl
  | cons n ns ih =>
      rw [List.forall_mem_cons] at h
      rw [List.foldl_cons, push_name h.1, ih h.2, List.reverse_cons, List.append_assoc, List.singleton_append]

/-! ## Cleaning -/

theorem slash_notMem_of_mem_splitOn {p : Path} : ∀ c ∈ p.splitOn slash, slash ∉ c := by
  unfold List.splitOn
  induction p with
  | nil => simp
  | cons b p ih =>
      rw [List.splitOnP_cons_eq_if_modifyHead]
      split_ifs with hb
      · exact List.forall_mem_cons.mpr ⟨List.not_mem_nil, ih⟩
      · rw [beq_iff_eq] at hb
        cases hsplit : List.splitOnP (fun x => x == slash) p with
        | nil => simp
        | cons c cs =>
            rw [hsplit, List.forall_mem_cons] at ih
            refine List.forall_mem_cons.mpr ⟨?_, ih.2⟩
            rw [List.mem_cons, not_or]
            exact ⟨fun h => hb h.symm, ih.1⟩

def clean (p : Path) : Cleaned where
  rooted := isRooted p
  stack := (p.splitOn slash).foldl (push (isRooted p)) []
  stacked := Stacked.foldl_push slash_notMem_of_mem_splitOn (.nil _)

theorem splitOn_append_slash (p q : Path) : (p ++ slash :: q).splitOn slash = p.splitOn slash ++ q.splitOn slash :=
  List.splitOnP_append_cons p q (beq_self_eq_true slash)

theorem isRooted_append {p : Path} (h : p ≠ []) (q : Path) : isRooted (p ++ q) = isRooted p := by
  cases p with
  | nil => exact absurd rfl h
  | cons b p => rfl

theorem isRooted_intercalate {c : Path} (cs : List Path) (hne : c ≠ []) (hslash : slash ∉ c) :
    isRooted ([slash].intercalate (c :: cs)) = false := by
  rw [intercalate_cons_eq, isRooted_append hne]
  cases c with
  | nil => exact absurd rfl hne
  | cons b c =>
      refine decide_eq_false fun h => hslash ?_
      rw [← Option.some.inj h]
      exact List.mem_cons_self ..

theorem clean_text (c : Cleaned) : clean c.text = c := by
  have hcomp := c.stacked.component
  have hsplit : c.stack ≠ [] → ([slash].intercalate c.stack.reverse).splitOn slash = c.stack.reverse := by
    intro hne
    apply List.splitOn_intercalate
    · intro x hx
      exact (hcomp x (List.mem_reverse.mp hx)).2
    · exact fun h => hne (List.reverse_eq_nil_iff.mp h)
  unfold Cleaned.text
  split_ifs with hrooted hnil
  · apply Cleaned.ext
    · exact hrooted.symm
    · have hfront : (slash :: [slash].intercalate c.stack.reverse).splitOn slash =
          [] :: ([slash].intercalate c.stack.reverse).splitOn slash := splitOn_append_slash [] _
      change (List.splitOn slash _).foldl (push true) [] = c.stack
      rw [hfront, List.foldl_cons, push_nil]
      by_cases hne : c.stack = []
      · rw [hne]
        decide
      · rw [hsplit hne, ← hrooted]
        exact c.stacked.rebuild
  · apply Cleaned.ext
    · rw [Bool.not_eq_true] at hrooted
      exact hrooted.symm
    · rw [hnil]
      decide
  · rw [Bool.not_eq_true] at hrooted
    have hroot : isRooted ([slash].intercalate c.stack.reverse) = false := by
      cases hrev : c.stack.reverse with
      | nil => exact absurd (List.reverse_eq_nil_iff.mp hrev) hnil
      | cons x xs =>
          have hx := hcomp x (List.mem_reverse.mp (by rw [hrev]; exact List.mem_cons_self ..))
          exact isRooted_intercalate xs hx.1 hx.2
    apply Cleaned.ext
    · exact hroot.trans hrooted.symm
    · change (List.splitOn slash _).foldl (push (isRooted _)) [] = c.stack
      rw [hroot, hsplit hnil, ← hrooted]
      exact c.stacked.rebuild

/-! ## Composing and taking apart -/

/-- `filepath.Join`: empty elements in front are dropped, the rest is composed and cleaned. -/
def join (elems : List Path) : Path :=
  match elems.dropWhile (· = []) with
  | [] => []
  | e :: es => (clean ([slash].intercalate (e :: es))).text

/-- `filepath.Dir` -/
def dir (p : Path) : Path :=
  match splitLast slash p with
  | none => (clean []).text
  | some (front, _) => (clean (front ++ [slash])).text

/-- `filepath.Base` -/
def base (p : Path) : Path :=
  if p = [] then dot
  else
    match p.rdropWhile (· = slash) with
    | [] => [slash]
    | b :: q =>
        match splitLast slash (b :: q) with
        | none => b :: q
        | some (_, back) => back

theorem stacked_names {rooted : Bool} {stack : List Path} (h : Stacked rooted stack) :
    ∀ {ns : List Path}, (∀ n ∈ ns, Name n) → Stacked rooted (ns.reverse ++ stack) := by
  intro ns hns
  rw [← foldl_push_names rooted hns]
  exact Stacked.foldl_push (fun n hn => (hns n hn).no_slash) h

/-- The path that leads from a cleaned one through a list of names. -/
def Cleaned.descend (c : Cleaned) (ns : List Path) (h : ∀ n ∈ ns, Name n) : Cleaned :=
  ⟨c.rooted, ns.reverse ++ c.stack, stacked_names c.stacked h⟩

/-- An entry of a directory. -/
def Cleaned.child (c : Cleaned) {n : Path} (h : Name n) : Cleaned := ⟨c.rooted, n :: c.stack, .name h c.stacked⟩

theorem splitOn_names {ns : List Path} (h : ∀ n ∈ ns, Name n) (hne : ns ≠ []) :
    ([slash].intercalate ns).splitOn slash = ns :=
  List.splitOn_intercalate slash (fun n hn => (h n hn).no_slash) hne

theorem join_names (b : Path) {ns : List Path} (h : ∀ n ∈ ns, Name n) (hne : ns ≠ []) :
    join (b :: ns) = ((clean b).descend ns h).text := by
  cases ns with
  | nil => exact absurd rfl hne
  | cons n ns =>
      have hn := h n (List.mem_cons_self ..)
      have hsplit := splitOn_names h hne
      unfold join
      by_cases hb : b = []
      · rw [hb, List.dropWhile_cons_of_pos (by simp), List.dropWhile_cons_of_neg (by simp [hn.ne_nil])]
        refine congrArg Cleaned.text ?_
        have hroot := isRooted_intercalate ns hn.ne_nil hn.no_slash
        apply Cleaned.ext
        · exact hroot
        · change (List.splitOn slash _).foldl (push (isRooted _)) [] = _
          rw [hroot, hsplit, foldl_push_names _ h]
          rfl
      · rw [List.dropWhile_cons_of_neg (by simp [hb])]
        refine congrArg Cleaned.text ?_
        have hjoin : [slash].intercalate (b :: n :: ns) = b ++ slash :: [slash].intercalate (n :: ns) := by
          rw [intercalate_cons_eq, intercalate_cons_eq]
          rfl
        rw [hjoin]
        have hroot := isRooted_append hb (slash :: [slash].intercalate (n :: ns))
        apply Cleaned.ext
        · exact hroot
        · change (List.splitOn slash _).foldl (push (isRooted _)) [] = _
          rw [hroot, splitOn_append_slash, List.foldl_append, hsplit, foldl_push_names _ h]
          rfl

/-- The text in front of the entries of a directory. -/
def Cleaned.within (c : Cleaned) : Path :=
  if c.stack = [] then (if c.rooted then [slash] else []) else c.text ++ [slash]

theorem intercalate_concat {cs : List Path} (hne : cs ≠ []) (n : Path) :
    [slash].intercalate (cs ++ [n]) = [slash].intercalate cs ++ slash :: n := by
  cases cs with
  | nil => exact absurd rfl hne
  | cons c cs => simp [intercalate_cons_eq]

theorem text_child (c : Cleaned) {n : Path} (h : Name n) : (c.child h).text = c.within ++ n := by
  obtain ⟨rooted, stack, hstack⟩ := c
  unfold Cleaned.text Cleaned.within Cleaned.child
  dsimp only
  rw [if_neg (List.cons_ne_nil n stack), List.reverse_cons]
  by_cases hnil : stack = []
  · rw [if_pos hnil]
    subst hnil
    cases rooted <;> simp [List.intercalate]
  · have hrev : stack.reverse ≠ [] := fun hr => hnil (List.reverse_eq_nil_iff.mp hr)
    rw [if_neg hnil, intercalate_concat hrev]
    cases rooted <;> simp [Cleaned.text, hnil]

theorem text_ne_nil (c : Cleaned) : c.text ≠ [] := by
  unfold Cleaned.text
  split_ifs with hrooted hnil
  · exact List.cons_ne_nil _ _
  · decide
  · intro h
    cases hrev : c.stack.reverse with
    | nil => exact hnil (List.reverse_eq_nil_iff.mp hrev)
    | cons x xs =>
        have hx := (c.stacked.component x (List.mem_reverse.mp (by rw [hrev]; exact List.mem_cons_self ..))).1
        rw [hrev, intercalate_cons_eq] at h
        exact hx (List.append_eq_nil_iff.mp h).1

theorem clean_within (c : Cleaned) : clean c.within = c := by
  unfold Cleaned.within
  split_ifs with hnil hrooted
  · apply Cleaned.ext
    · exact hrooted.symm
    · rw [hnil]
      decide
  · apply Cleaned.ext
    · rw [Bool.not_eq_true] at hrooted
      exact hrooted.symm
    · rw [hnil]
      decide
  · refine Eq.trans ?_ (clean_text c)
    have hroot := isRooted_append (text_ne_nil c) [slash]
    apply Cleaned.ext
    · exact hroot
    · change (List.splitOn slash _).foldl (push (isRooted _)) [] = _
      rw [hroot, splitOn_append_slash, List.foldl_append, List.splitOn_nil, List.foldl_cons, push_nil]
      rfl

theorem within_cases (c : Cleaned) : c.within = [] ∨ ∃ front, c.within = front ++ [slash] := by
  unfold Cleaned.within
  split_ifs
  · exact Or.inr ⟨[], rfl⟩
  · exact Or.inl rfl
  · exact Or.inr ⟨c.text, rfl⟩

theorem splitLast_within (c : Cleaned) {n : Path} (h : Name n) :
    (splitLast slash (c.within ++ n) = none ∧ c.within = []) ∨
      ∃ front, splitLast slash (c.within ++ n) = some (front, n) ∧ c.within = front ++ [slash] := by
  rcases within_cases c with hnil | ⟨front, hfront⟩
  · rw [hnil]
    exact Or.inl ⟨splitLast_eq_none_iff.mpr h.no_slash, rfl⟩
  · rw [hfront, List.append_assoc, List.singleton_append]
    exact Or.inr ⟨front, splitLast_append front h.no_slash, rfl⟩

theorem dir_child (c : Cleaned) {n : Path} (h : Name n) : dir (c.child h).text = c.text := by
  unfold dir
  rw [text_child]
  rcases splitLast_within c h with ⟨hsplit, hnil⟩ | ⟨front, hsplit, hfront⟩
  · rw [hsplit, ← hnil, clean_within]
  · rw [hsplit]
    dsimp only
    rw [← hfront, clean_within]

theorem base_child (c : Cleaned) {n : Path} (h : Name n) : base (c.child h).text = n := by
  have hne : c.within ++ n ≠ [] := fun heq => h.ne_nil (List.append_eq_nil_iff.mp heq).2
  have hlast : ¬ decide ((c.within ++ n).getLast hne = slash) = true := by
    rw [decide_eq_true_eq, List.getLast_append_of_ne_nil hne h.ne_nil]
    exact fun heq => h.no_slash (heq ▸ List.getLast_mem h.ne_nil)
  unfold base
  rw [text_child, if_neg hne, List.rdropWhile_eq_self_iff.mpr fun _ => hlast]
  cases htext : c.within ++ n with
  | nil => exact absurd htext hne
  | cons b q =>
      dsimp only
      rw [← htext]
      rcases splitLast_within c h with ⟨hsplit, hnil⟩ | ⟨front, hsplit, -⟩
      · rw [hsplit, hnil]
        rfl
      · rw [hsplit]

end Lib.Paths
