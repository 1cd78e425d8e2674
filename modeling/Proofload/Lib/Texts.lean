import Proofload.Lib.Encoding
import Proofload.Lib.Json
import Mathlib.Algebra.BigOperators.Group.List.Basic

/-!
# Texts

* `splitLast_append`, `splitLast_eq_some` : a text in front of and behind its last separator;
* `takeWhile_append_stop`, `dropWhile_append_stop` : a word and what follows it;
* `length_le_intercalate`, `notMem_intercalate` : texts joined with a separator;
* `lines_flatMap`, `length_lines_flatMap` : the lines of a text that was written line by line;
* `stringBytes_append`, `stringBytes_int` : the bytes of a composed text and of a decimal number.
-/

namespace Lib

set_option autoImplicit false

/-! ## The last separator -/

section Split
variable {α : Type} [DecidableEq α] {sep : α}

/-- The parts in front of and behind the last `sep`. -/
def splitLast (sep : α) : List α → Option (List α × List α)
  | [] => none
  | a :: l =>
      match splitLast sep l with
      | some (front, back) => some (a :: front, back)
      | none => if a = sep then some ([], l) else none

theorem splitLast_eq_none_iff {l : List α} : splitLast sep l = none ↔ sep ∉ l := by
  induction l with
  | nil => simp [splitLast]
  | cons a l ih =>
      rw [splitLast, List.mem_cons, not_or, ← ih]
      cases splitLast sep l with
      | some parts => simp
      | none => simp [eq_comm]

/-- What is composed with a separator comes apart there, if there is none behind it. -/
theorem splitLast_append (front : List α) {back : List α} (h : sep ∉ back) :
    splitLast sep (front ++ sep :: back) = some (front, back) := by
  induction front with
  | nil =>
      rw [List.nil_append, splitLast, splitLast_eq_none_iff.mpr h]
      exact if_pos rfl
  | cons a front ih => rw [List.cons_append, splitLast, ih]

theorem splitLast_eq_some {l front back : List α} (h : splitLast sep l = some (front, back)) :
    l = front ++ sep :: back ∧ sep ∉ back := by
  induction l generalizing front with
  | nil => cases h
  | cons a l ih =>
      rw [splitLast] at h
      cases hl : splitLast sep l with
      | some parts =>
          obtain ⟨front', back'⟩ := parts
          rw [hl] at h
          cases h
          obtain ⟨hsplit, hback⟩ := ih hl
          exact ⟨congrArg (a :: ·) hsplit, hback⟩
      | none =>
          rw [hl] at h
          dsimp only at h
          split_ifs at h with ha
          cases h
          rw [ha]
          exact ⟨rfl, splitLast_eq_none_iff.mp hl⟩

end Split

/-! ## Words -/

section Words
variable {α : Type} {p : α → Bool} {x : List α} {t : α}

theorem takeWhile_append_stop (hx : ∀ a ∈ x, p a = true) (ht : p t = false) (rest : List α) :
    (x ++ t :: rest).takeWhile p = x := by
  rw [List.takeWhile_append_of_pos hx, List.takeWhile_cons_of_neg (by simp [ht]), List.append_nil]

theorem dropWhile_append_stop (hx : ∀ a ∈ x, p a = true) (ht : p t = false) (rest : List α) :
    (x ++ t :: rest).dropWhile p = t :: rest := by
  rw [List.dropWhile_append_of_pos hx, List.dropWhile_cons_of_neg (by simp [ht])]

end Words

/-! ## Joined texts -/

section Joined
variable {α : Type} {sep : α} {xs : List (List α)}

theorem length_le_flatMap {β : Type} {ys : List β} {f : β → List α} (h : ∀ y ∈ ys, f y ≠ []) :
    ys.length ≤ (ys.flatMap f).length := by
  have hone : ∀ n ∈ ys.map fun y => (f y).length, 1 ≤ n := by
    intro n hn
    obtain ⟨y, hy, rfl⟩ := List.mem_map.mp hn
    exact List.length_pos_iff.mpr (h y hy)
  have hsum := List.length_le_sum_of_one_le _ hone
  rwa [List.length_map, ← List.length_flatMap] at hsum

theorem intercalate_cons_eq (x : List α) (xs : List (List α)) :
    [sep].intercalate (x :: xs) = x ++ xs.flatMap (sep :: ·) := by
  induction xs generalizing x with
  | nil => rw [List.intercalate_singleton, List.flatMap_nil, List.append_nil]
  | cons y xs ih =>
      rw [List.intercalate_cons_cons, ih, List.flatMap_cons, List.append_assoc]
      rfl

theorem length_le_intercalate (h : ∀ x ∈ xs, x ≠ []) : xs.length ≤ ([sep].intercalate xs).length := by
  cases xs with
  | nil => exact Nat.zero_le _
  | cons x xs =>
      have hx := List.length_pos_iff.mpr (h x List.mem_cons_self)
      have hxs : xs.length ≤ (xs.flatMap (sep :: ·)).length := length_le_flatMap fun y _ => List.cons_ne_nil sep y
      rw [intercalate_cons_eq, List.length_append, List.length_cons]
      omega

theorem notMem_intercalate {b : α} (hb : b ≠ sep) (h : ∀ x ∈ xs, b ∉ x) : b ∉ [sep].intercalate xs := by
  cases xs with
  | nil => exact List.not_mem_nil
  | cons x xs =>
      rw [intercalate_cons_eq, List.mem_append, List.mem_flatMap]
      rintro (hmem | ⟨y, hy, hmem⟩)
      · exact h x List.mem_cons_self hmem
      · exact h y (List.mem_cons_of_mem x hy) ((List.mem_cons.mp hmem).resolve_left hb)

end Joined

/-! ## Lines -/

section Lines
variable {α : Type} [DecidableEq α] {nl : α}

/-- The lines of a text, each ended by `nl`; a last line may lack it. -/
def lines (nl : α) : List α → List (List α)
  | [] => []
  | a :: l =>
      if a = nl then [] :: lines nl l
      else match lines nl l with
        | [] => [[a]]
        | first :: rest => (a :: first) :: rest

theorem lines_line {x : List α} (h : nl ∉ x) (rest : List α) : lines nl (x ++ nl :: rest) = x :: lines nl rest := by
  induction x with
  | nil => rw [List.nil_append, lines, if_pos rfl]
  | cons a x ih =>
      have ha : a ≠ nl := fun ha => h (ha ▸ List.mem_cons_self)
      rw [List.cons_append, lines, if_neg ha, ih fun hx => h (List.mem_cons_of_mem _ hx)]

theorem lines_flatMap {xs : List (List α)} (h : ∀ x ∈ xs, nl ∉ x) : lines nl (xs.flatMap (· ++ [nl])) = xs := by
  induction xs with
  | nil => rfl
  | cons x xs ih =>
      rw [List.flatMap_cons, List.append_assoc, List.singleton_append, lines_line (h x List.mem_cons_self),
        ih fun y hy => h y (List.mem_cons_of_mem _ hy)]

theorem length_lines_append (x rest : List α) :
    (lines nl (x ++ nl :: rest)).length = x.count nl + 1 + (lines nl rest).length := by
  induction x with
  | nil =>
      rw [List.nil_append, lines, if_pos rfl, List.length_cons, List.count_nil]
      omega
  | cons a x ih =>
      rw [List.cons_append, lines]
      split_ifs with ha
      · rw [ha, List.count_cons_self, List.length_cons, ih]
        omega
      · rw [List.count_cons_of_ne ha, ← ih]
        cases hlines : lines nl (x ++ nl :: rest) with
        | nil =>
            rw [hlines, List.length_nil] at ih
            omega
        | cons first others => rfl

theorem length_lines_cons (x : List α) (xs : List (List α)) :
    (lines nl ((x :: xs).flatMap (· ++ [nl]))).length =
      x.count nl + 1 + (lines nl (xs.flatMap (· ++ [nl]))).length := by
  rw [List.flatMap_cons, List.append_assoc, List.singleton_append, length_lines_append]

theorem length_le_lines (xs : List (List α)) : xs.length ≤ (lines nl (xs.flatMap (· ++ [nl]))).length := by
  induction xs with
  | nil => exact Nat.zero_le _
  | cons x xs ih =>
      rw [length_lines_cons, List.length_cons]
      omega

/-- A text written as so many lines has as many exactly if none of them has a line break inside. -/
theorem length_lines_flatMap (xs : List (List α)) :
    (lines nl (xs.flatMap (· ++ [nl]))).length = xs.length ↔ ∀ x ∈ xs, nl ∉ x := by
  constructor
  · intro h
    induction xs with
    | nil => exact fun x hx => absurd hx List.not_mem_nil
    | cons x xs ih =>
        have hrest : xs.length ≤ (lines nl (xs.flatMap (· ++ [nl]))).length := length_le_lines xs
        rw [length_lines_cons, List.length_cons] at h
        have hx : x.count nl = 0 := by omega
        exact List.forall_mem_cons.mpr ⟨List.count_eq_zero.mp hx, ih (by omega)⟩
  · intro h
    rw [lines_flatMap h]

end Lines

/-! ## Bytes of composed texts -/

theorem stringBytes_append (s t : String) : stringBytes (s ++ t) = stringBytes s ++ stringBytes t := by
  unfold stringBytes
  simp

theorem stringBytes_ascii {s : String} (h : ∀ c ∈ s.toList, c.toNat ≤ 127) : stringBytes s = s.toList.map charByte := by
  have hs : s.toUTF8 = s.toList.utf8Encode := by simp
  have hdata : s.toList.utf8Encode.data.toList = s.toList.flatMap String.utf8EncodeChar := by simp [List.utf8Encode]
  unfold stringBytes
  rw [hs, hdata, List.map_eq_flatMap]
  apply List.flatMap_congr
  intro c hc
  unfold String.utf8EncodeChar
  exact if_pos (h c hc)

theorem stringBytes_int (n : Int) : stringBytes (toString n) = formatInt n := by
  apply stringBytes_ascii
  have hdigit : ∀ (m : Nat), ∀ c ∈ Nat.toDigits 10 m, c.toNat ≤ 127 := by
    intro m c hc
    have hc := Nat.isDigit_of_mem_toDigits (by decide) (by decide) hc
    simp only [Char.isDigit, Bool.and_eq_true, decide_eq_true_eq] at hc
    have hle : c.val.toNat ≤ 57 := UInt32.le_iff_toNat_le.mp hc.2
    show c.val.toNat ≤ 127
    omega
  intro c hc
  rw [Int.toString_eq_repr, Int.repr_eq_if] at hc
  split at hc
  · rw [Nat.toList_repr] at hc
    exact hdigit _ c hc
  · rw [String.toList_append, Nat.toList_repr, List.mem_append] at hc
    rcases hc with hc | hc
    · rw [List.mem_singleton.mp (show c ∈ ['-'] from hc)]
      decide
    · exact hdigit _ c hc

end Lib
