import Mathlib.Data.List.Basic
import Mathlib.Data.Option.Basic

/-!
# Escaped texts

Texts in which some symbols are written as an escape symbol and a letter, over an arbitrary alphabet. A reader scans
up to the first stop symbol that is not escaped. It refuses an escape symbol in front of an unknown letter, or takes
it literally (`lenient`).

* `scan_append` : a text without special symbols is read as it is;
* `Complete.scan_escape` : if the escape symbol itself is escaped, a text is read back exactly, whatever follows it;
* `Bare.scan_escape` : if it is not, that holds of the texts that do not end in it;
* `Bare.not_esc_of_scan` : and no text that ends in it is ever read in front of a stop symbol.
-/

namespace Lib

set_option autoImplicit false

/-- How the symbols of a text are escaped: `letter` gives the letter a symbol is written with, `symbol` what a letter
stands for behind the escape symbol. -/
structure Code (α : Type) where
  esc : α
  letter : α → Option α
  symbol : α → Option α
  lenient : Bool

namespace Code

variable {α : Type}

def escape (c : Code α) (l : List α) : List α := l.flatMap fun a => (c.letter a).elim [a] fun b => [c.esc, b]

/-- What is read up to the first stop symbol that is not escaped, and the text from there on. -/
def scan [DecidableEq α] (c : Code α) (stop : α → Bool) : List α → Option (List α × List α)
  | [] => some ([], [])
  | [a] =>
      if a = c.esc then if c.lenient then some ([a], []) else none
      else if stop a then some ([], [a]) else some ([a], [])
  | a :: b :: l =>
      if a = c.esc then
        match c.symbol b with
        | some x => (scan c stop l).map (Prod.map (x :: ·) id)
        | none => if c.lenient then (scan c stop (b :: l)).map (Prod.map (a :: ·) id) else none
      else if stop a then some ([], a :: b :: l)
      else (scan c stop (b :: l)).map (Prod.map (a :: ·) id)

variable {c : Code α} {stop : α → Bool}

section Scan
variable [DecidableEq α] {a b x : α} (l : List α)

theorem scan_stop (ha : a ≠ c.esc) (hstop : stop a = true) : c.scan stop (a :: l) = some ([], a :: l) := by
  cases l with
  | nil => rw [scan, if_neg ha, if_pos hstop]
  | cons b l => rw [scan, if_neg ha, if_pos hstop]

theorem scan_plain (ha : a ≠ c.esc) (hstop : stop a = false) :
    c.scan stop (a :: l) = (c.scan stop l).map (Prod.map (a :: ·) id) := by
  cases l with
  | nil => simp [scan, ha, hstop]
  | cons b l => rw [scan, if_neg ha, if_neg (by simp [hstop])]

theorem scan_symbol (hb : c.symbol b = some x) :
    c.scan stop (c.esc :: b :: l) = (c.scan stop l).map (Prod.map (x :: ·) id) := by
  rw [scan, if_pos rfl, hb]

theorem scan_literal (hlenient : c.lenient = true) (hb : c.symbol b = none) :
    c.scan stop (c.esc :: b :: l) = (c.scan stop (b :: l)).map (Prod.map (c.esc :: ·) id) := by
  rw [scan, if_pos rfl, hb, hlenient]
  rfl

theorem scan_append {x : List α} (hx : ∀ a ∈ x, a ≠ c.esc ∧ stop a = false) (rest : List α) :
    c.scan stop (x ++ rest) = (c.scan stop rest).map (Prod.map (x ++ ·) id) := by
  induction x with
  | nil =>
      rw [List.nil_append]
      cases c.scan stop rest <;> rfl
  | cons a x ih =>
      obtain ⟨ha, hx⟩ := List.forall_mem_cons.mp hx
      rw [List.cons_append, scan_plain _ ha.1 ha.2, ih hx]
      cases c.scan stop rest <;> rfl

end Scan

theorem escape_cons (c : Code α) (a : α) (l : List α) :
    c.escape (a :: l) = ((c.letter a).elim [a] fun b => [c.esc, b]) ++ c.escape l := rfl

theorem escape_cons_letter {a b : α} (h : c.letter a = some b) (l : List α) :
    c.escape (a :: l) = c.esc :: b :: c.escape l := by
  rw [escape_cons, h]
  rfl

theorem escape_cons_plain {a : α} (h : c.letter a = none) (l : List α) : c.escape (a :: l) = a :: c.escape l := by
  rw [escape_cons, h]
  rfl

/-- The letters lead back to their symbols, and every stop symbol has one. -/
structure Sound (c : Code α) (stop : α → Bool) : Prop where
  symbol_letter : ∀ a b, c.letter a = some b → c.symbol b = some a
  stop_letter : ∀ a, stop a = true → (c.letter a).isSome

/-- The escape symbol is escaped. -/
structure Complete (c : Code α) (stop : α → Bool) : Prop extends Sound c stop where
  esc_letter : (c.letter c.esc).isSome

/-- **Reading undoes escaping.** -/
theorem Complete.scan_escape [DecidableEq α] (h : c.Complete stop) (s : List α) {t : α} (ht : t ≠ c.esc)
    (hstop : stop t = true) (rest : List α) : c.scan stop (c.escape s ++ t :: rest) = some (s, t :: rest) := by
  induction s with
  | nil => exact scan_stop rest ht hstop
  | cons a s ih =>
      cases hletter : c.letter a with
      | some b =>
          rw [escape_cons_letter hletter, List.cons_append, List.cons_append,
            scan_symbol _ (h.symbol_letter a b hletter), ih]
          rfl
      | none =>
          have hesc : a ≠ c.esc := by
            rintro rfl
            simpa [hletter] using h.esc_letter
          have hplain : stop a = false := by
            rw [← Bool.not_eq_true]
            intro hstop
            simpa [hletter] using h.stop_letter a hstop
          rw [escape_cons_plain hletter, List.cons_append, scan_plain _ hesc hplain, ih]
          rfl

/-- The escape symbol is not escaped: it is only read as one in front of the letter of a stop symbol. -/
structure Bare (c : Code α) (stop : α → Bool) : Prop extends Sound c stop where
  lenient : c.lenient = true
  esc_letter : c.letter c.esc = none
  esc_symbol : c.symbol c.esc = none
  letter_of_symbol : ∀ a, (c.symbol a).isSome → (c.letter a).isSome
  symbol_ne_esc : ∀ a x, c.symbol a = some x → x ≠ c.esc
  stop_symbol : ∀ a, stop a = true → (c.symbol a).isSome

theorem Bare.symbol_of_letter_none (h : c.Bare stop) {a : α} (ha : c.letter a = none) : c.symbol a = none := by
  cases hsymbol : c.symbol a with
  | none => rfl
  | some x =>
      have := h.letter_of_symbol a (by rw [hsymbol]; rfl)
      rw [ha] at this
      cases this

/-- **Reading undoes bare escaping** of a text that does not end in the escape symbol. -/
theorem Bare.scan_escape [DecidableEq α] (h : c.Bare stop) {s : List α} (hs : s.getLast? ≠ some c.esc) {t : α}
    (ht : t ≠ c.esc) (hstop : stop t = true) (rest : List α) :
    c.scan stop (c.escape s ++ t :: rest) = some (s, t :: rest) := by
  induction s with
  | nil => exact scan_stop rest ht hstop
  | cons a s ih =>
      have htail : s.getLast? ≠ some c.esc := by
        cases s with
        | nil => simp
        | cons b s => rwa [List.getLast?_cons_cons] at hs
      cases hletter : c.letter a with
      | some b =>
          rw [escape_cons_letter hletter, List.cons_append, List.cons_append,
            scan_symbol _ (h.symbol_letter a b hletter), ih htail]
          rfl
      | none =>
          rw [escape_cons_plain hletter, List.cons_append]
          by_cases hesc : a = c.esc
          · subst hesc
            cases s with
            | nil => exact absurd rfl hs
            | cons b s =>
                cases hb : c.letter b with
                | some b' =>
                    rw [escape_cons_letter hb] at ih ⊢
                    exact (scan_literal _ h.lenient h.esc_symbol).trans (congrArg _ (ih htail))
                | none =>
                    rw [escape_cons_plain hb] at ih ⊢
                    exact (scan_literal _ h.lenient (h.symbol_of_letter_none hb)).trans (congrArg _ (ih htail))
          · have hplain : stop a = false := by
              rw [← Bool.not_eq_true]
              intro hstop
              simpa [hletter] using h.stop_letter a hstop
            rw [scan_plain _ hesc hplain, ih htail]
            rfl

theorem eq_cons_of_map {r : Option (List α × List α)} {x : α} {v rest : List α}
    (h : r.map (Prod.map (x :: ·) id) = some (v, rest)) : ∃ v', r = some (v', rest) ∧ v = x :: v' := by
  obtain ⟨⟨v', rest'⟩, hr, heq⟩ := Option.map_eq_some_iff.mp h
  cases heq
  exact ⟨v', hr, rfl⟩

theorem getLast?_cons_ne {x e : α} {v : List α} (hv : v.getLast? ≠ some e) (hx : v = [] → x ≠ e) :
    (x :: v).getLast? ≠ some e := by
  cases v with
  | nil => simpa using hx rfl
  | cons y v => rwa [List.getLast?_cons_cons]

theorem Bare.stop_of_scan_nil [DecidableEq α] (h : c.Bare stop) {a t : α} {l rest : List α}
    (hscan : c.scan stop (a :: l) = some ([], t :: rest)) : stop a = true := by
  by_contra hstop
  by_cases ha : a = c.esc
  · subst ha
    cases l with
    | nil => simp [scan, h.lenient] at hscan
    | cons b l =>
        cases hb : c.symbol b with
        | some x =>
            rw [scan_symbol l hb] at hscan
            obtain ⟨v, -, hv⟩ := eq_cons_of_map hscan
            cases hv
        | none =>
            rw [scan_literal l h.lenient hb] at hscan
            obtain ⟨v, -, hv⟩ := eq_cons_of_map hscan
            cases hv
  · rw [scan_plain l ha (by simpa using hstop)] at hscan
    obtain ⟨v, -, hv⟩ := eq_cons_of_map hscan
    cases hv

/-- **A text read in front of a stop symbol does not end in a bare escape symbol.** -/
theorem Bare.not_esc_of_scan [DecidableEq α] (h : c.Bare stop) {t : α} {rest : List α} :
    ∀ {l v : List α}, c.scan stop l = some (v, t :: rest) → v.getLast? ≠ some c.esc
  | [], v, hscan => by cases hscan
  | [a], v, hscan => by
      by_cases ha : a = c.esc
      · simp [scan, ha, h.lenient] at hscan
      · by_cases hstop : stop a = true
        · rw [scan_stop [] ha hstop] at hscan
          cases hscan
          simp
        · rw [scan_plain [] ha (by simpa using hstop)] at hscan
          cases hscan
  | a :: b :: l, v, hscan => by
      by_cases ha : a = c.esc
      · subst ha
        cases hb : c.symbol b with
        | some x =>
            rw [scan_symbol l hb] at hscan
            obtain ⟨v', hrest, rfl⟩ := eq_cons_of_map hscan
            exact getLast?_cons_ne (h.not_esc_of_scan hrest) fun _ => h.symbol_ne_esc b x hb
        | none =>
            rw [scan_literal l h.lenient hb] at hscan
            obtain ⟨v', hrest, rfl⟩ := eq_cons_of_map hscan
            refine getLast?_cons_ne (h.not_esc_of_scan hrest) ?_
            rintro rfl
            have := h.stop_symbol b (h.stop_of_scan_nil hrest)
            rw [hb] at this
            cases this
      · by_cases hstop : stop a = true
        · rw [scan_stop (b :: l) ha hstop] at hscan
          cases hscan
          simp
        · rw [scan_plain (b :: l) ha (by simpa using hstop)] at hscan
          obtain ⟨v', hrest, rfl⟩ := eq_cons_of_map hscan
          exact getLast?_cons_ne (h.not_esc_of_scan hrest) fun _ => ha

end Code

end Lib
