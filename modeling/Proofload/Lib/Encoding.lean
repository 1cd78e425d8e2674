import Proofload.Lib.Machine

/-!
# Decimal and big-endian encodings

Numbers as bytes: signed decimal text, as `strconv` formats and parses it, and fixed-width big-endian
words.

* `parseInt_formatInt` : parsing undoes formatting, so the decimal text of an integer determines it
  (`toString_int_injective`);
* `parseInt64_formatInt` : the same with the range check of a 64-bit parse;
* `ofBigEndian_toBigEndian` : reading a word back gives the number modulo the word size.
-/

namespace Lib

set_option autoImplicit false

/-! ## Decimal text -/

/-- The byte of an ASCII character. -/
def charByte (c : Char) : UInt8 := UInt8.ofNat c.toNat

/-- The decimal text of an integer. -/
def formatInt (n : Int) : List UInt8 := (toString n).toList.map charByte

def digitValue (b : UInt8) : Option Nat := if 48 ≤ b.toNat ∧ b.toNat ≤ 57 then some (b.toNat - 48) else none

/-- The number a string of digits stands for, read behind the digits of `acc`. -/
def parseDigits (acc : Nat) : List UInt8 → Option Nat
  | [] => some acc
  | b :: bs => (digitValue b).bind fun d => parseDigits (10 * acc + d) bs

/-- An unsigned number: at least one digit, and digits only. -/
def parseUint (bs : List UInt8) : Option Nat := if bs = [] then none else parseDigits 0 bs

/-- A number with an optional sign. -/
def parseInt : List UInt8 → Option Int
  | [] => none
  | b :: bs =>
      if b.toNat = 45 then (parseUint bs).map fun n => -(n : Int)
      else if b.toNat = 43 then (parseUint bs).map fun n => (n : Int)
      else (parseUint (b :: bs)).map fun n => (n : Int)

/-- A number with an optional sign that fits into 64 bits. -/
def parseInt64 (bs : List UInt8) : Option Int :=
  (parseInt bs).bind fun n => if -2 ^ 63 ≤ n ∧ n < 2 ^ 63 then some n else none

/-- The decimal digits of a number, most significant first. -/
def digitBytes (n : Nat) : List UInt8 := (Nat.toDigits 10 n).map charByte

theorem charByte_digitChar {d : Nat} (hd : d < 10) : (charByte (Nat.digitChar d)).toNat = 48 + d := by
  have h : ∀ d < 10, (charByte (Nat.digitChar d)).toNat = 48 + d := by decide
  exact h d hd

theorem digitValue_digitChar {d : Nat} (hd : d < 10) : digitValue (charByte (Nat.digitChar d)) = some d := by
  unfold digitValue
  rw [charByte_digitChar hd, if_pos (by omega)]
  congr 1
  omega

theorem digitBytes_eq (n : Nat) :
    digitBytes n = (if n < 10 then [] else digitBytes (n / 10)) ++ [charByte (Nat.digitChar (n % 10))] := by
  unfold digitBytes
  rw [Nat.toDigits_eq_if (by omega)]
  split
  · rw [Nat.mod_eq_of_lt (by assumption)]
    rfl
  · rw [List.map_append]
    rfl

theorem parseDigits_concat (acc : Nat) (bs : List UInt8) (b : UInt8) :
    parseDigits acc (bs ++ [b]) = (parseDigits acc bs).bind fun n => (digitValue b).map fun d => 10 * n + d := by
  induction bs generalizing acc with
  | nil =>
      show (digitValue b).bind _ = (digitValue b).map _
      cases digitValue b <;> rfl
  | cons c bs ih =>
      show (digitValue c).bind _ = ((digitValue c).bind _).bind _
      rw [Option.bind_assoc]
      congr 1
      funext d
      exact ih _

theorem parseDigits_digitBytes (n : Nat) : parseDigits 0 (digitBytes n) = some n := by
  induction n using Nat.strong_induction_on with
  | _ n ih =>
      rw [digitBytes_eq, parseDigits_concat, digitValue_digitChar (by omega)]
      split
      · show some (10 * 0 + n % 10) = some n
        congr 1
        omega
      · rw [ih (n / 10) (by omega)]
        show some (10 * (n / 10) + n % 10) = some n
        congr 1
        omega

theorem digitBytes_ne_nil (n : Nat) : digitBytes n ≠ [] := by
  rw [digitBytes_eq]
  simp

theorem parseUint_digitBytes (n : Nat) : parseUint (digitBytes n) = some n := by
  rw [parseUint, if_neg (digitBytes_ne_nil n), parseDigits_digitBytes]

theorem digitBytes_range {n : Nat} {b : UInt8} (hb : b ∈ digitBytes n) : 48 ≤ b.toNat ∧ b.toNat ≤ 57 := by
  induction n using Nat.strong_induction_on with
  | _ n ih =>
      rw [digitBytes_eq, List.mem_append, List.mem_singleton] at hb
      rcases hb with hb | rfl
      · split at hb
        · cases hb
        · exact ih (n / 10) (by omega) hb
      · rw [charByte_digitChar (by omega)]
        omega

theorem length_digitBytes_le {k n : Nat} (hk : 0 < k) (hn : n < 10 ^ k) : (digitBytes n).length ≤ k := by
  induction k generalizing n with
  | zero => omega
  | succ k ih =>
      rw [digitBytes_eq, List.length_append, List.length_singleton]
      split
      · simp
      · rw [Nat.pow_succ] at hn
        have hpos : 0 < k := by
          by_contra hzero
          obtain rfl : k = 0 := by omega
          omega
        have := ih hpos (show n / 10 < 10 ^ k by omega)
        omega

theorem formatInt_eq (n : Int) :
    formatInt n = if 0 ≤ n then digitBytes n.toNat else 45 :: digitBytes (-n).toNat := by
  unfold formatInt digitBytes
  rw [Int.toString_eq_repr, Int.repr_eq_if]
  split
  · rw [Nat.toList_repr]
  · rw [String.toList_append, List.map_append, Nat.toList_repr]
    rfl

theorem formatInt_range {n : Int} {b : UInt8} (hb : b ∈ formatInt n) : 45 ≤ b.toNat ∧ b.toNat ≤ 57 := by
  rw [formatInt_eq] at hb
  split at hb
  · have := digitBytes_range hb
    omega
  · rcases List.mem_cons.mp hb with rfl | hb
    · decide
    · have := digitBytes_range hb
      omega

theorem notMem_formatInt {b : UInt8} (hb : b.toNat < 45) (n : Int) : b ∉ formatInt n := by
  intro hmem
  have := formatInt_range hmem
  omega

/-- **Parsing undoes formatting.** -/
theorem parseInt_formatInt (n : Int) : parseInt (formatInt n) = some n := by
  rw [formatInt_eq]
  split
  · next hn =>
    cases hdigits : digitBytes n.toNat with
    | nil => exact absurd hdigits (digitBytes_ne_nil _)
    | cons b bs =>
        have hb := digitBytes_range (n := n.toNat) (by rw [hdigits]; exact List.mem_cons_self)
        rw [parseInt, if_neg (by omega), if_neg (by omega), ← hdigits, parseUint_digitBytes]
        show some ((n.toNat : Nat) : Int) = some n
        congr 1
        omega
  · next hn =>
    rw [parseInt, if_pos (by decide), parseUint_digitBytes]
    show some (-((-n).toNat : Int)) = some n
    congr 1
    omega

theorem length_formatInt_le {n : Int} (hlow : -10 ^ 20 < n) (hhigh : n < 10 ^ 20) : (formatInt n).length ≤ 21 := by
  rw [formatInt_eq]
  split
  · have := length_digitBytes_le (n := n.toNat) (show 0 < 20 by decide) (by omega)
    omega
  · have := length_digitBytes_le (n := (-n).toNat) (show 0 < 20 by decide) (by omega)
    rw [List.length_cons]
    omega

theorem parseInt64_formatInt {n : Int} (hlow : -2 ^ 63 ≤ n) (hhigh : n < 2 ^ 63) :
    parseInt64 (formatInt n) = some n := by
  rw [parseInt64, parseInt_formatInt]
  exact if_pos ⟨hlow, hhigh⟩

theorem toString_int_injective {m n : Int} (h : toString m = toString n) : m = n := by
  have hparse : parseInt (formatInt m) = parseInt (formatInt n) := by rw [formatInt, formatInt, h]
  rw [parseInt_formatInt, parseInt_formatInt] at hparse
  exact Option.some.inj hparse

/-! ## Big-endian words -/

/-- The low `width` bytes of a number, most significant first. -/
def toBigEndian : Nat → Nat → List UInt8
  | 0, _ => []
  | width + 1, n => toBigEndian width (n / 256) ++ [UInt8.ofNat (n % 256)]

def ofBigEndian (bs : List UInt8) : Nat := bs.foldl (fun acc b => 256 * acc + b.toNat) 0

theorem length_toBigEndian (width n : Nat) : (toBigEndian width n).length = width := by
  induction width generalizing n with
  | zero => rfl
  | succ width ih =>
      rw [toBigEndian, List.length_append, ih]
      rfl

theorem ofBigEndian_concat (bs : List UInt8) (b : UInt8) :
    ofBigEndian (bs ++ [b]) = 256 * ofBigEndian bs + b.toNat := by
  unfold ofBigEndian
  rw [List.foldl_append]
  rfl

theorem ofBigEndian_toBigEndian (width n : Nat) : ofBigEndian (toBigEndian width n) = n % 256 ^ width := by
  induction width generalizing n with
  | zero =>
      rw [Nat.pow_zero, Nat.mod_one]
      rfl
  | succ width ih =>
      have hbyte : (UInt8.ofNat (n % 256)).toNat = n % 256 := by
        rw [UInt8.toNat_ofNat']
        omega
      rw [toBigEndian, ofBigEndian_concat, ih, hbyte, Nat.pow_succ, Nat.mul_comm _ 256, Nat.mod_mul]
      omega

end Lib
