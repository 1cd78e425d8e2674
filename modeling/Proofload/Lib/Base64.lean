import Mathlib.Data.List.Basic

/-!
# Base64

The standard alphabet with padding: three bytes become four characters. Decoding skips line breaks, as
`encoding/base64` does, and fails on any other byte outside the alphabet.

* `decodeBase64_encodeBase64` : decoding undoes encoding.
-/

namespace Lib

set_option autoImplicit false

/-- The character of a six-bit number. -/
def base64Char (d : Nat) : UInt8 :=
  if d < 26 then UInt8.ofNat (65 + d)
  else if d < 52 then UInt8.ofNat (71 + d)
  else if d < 62 then UInt8.ofNat (d - 4)
  else if d = 62 then 43
  else 47

def base64Value (c : UInt8) : Option Nat :=
  let n := c.toNat
  if 65 ≤ n ∧ n ≤ 90 then some (n - 65)
  else if 97 ≤ n ∧ n ≤ 122 then some (n - 71)
  else if 48 ≤ n ∧ n ≤ 57 then some (n + 4)
  else if n = 43 then some 62
  else if n = 47 then some 63
  else none

/-- The padding character `=`. -/
def base64Pad : UInt8 := 61

def encodeBase64 : List UInt8 → List UInt8
  | [] => []
  | [a] => [base64Char (a.toNat / 4), base64Char (a.toNat % 4 * 16), base64Pad, base64Pad]
  | [a, b] => [base64Char (a.toNat / 4), base64Char (a.toNat % 4 * 16 + b.toNat / 16),
      base64Char (b.toNat % 16 * 4), base64Pad]
  | a :: b :: c :: rest => base64Char (a.toNat / 4) :: base64Char (a.toNat % 4 * 16 + b.toNat / 16) ::
      base64Char (b.toNat % 16 * 4 + c.toNat / 64) :: base64Char (c.toNat % 64) :: encodeBase64 rest

/-- The quanta of four characters; padding only ends the last one. -/
def decodeQuanta : List UInt8 → Option (List UInt8)
  | [] => some []
  | c₀ :: c₁ :: c₂ :: c₃ :: rest => do
      let w ← base64Value c₀
      let x ← base64Value c₁
      if c₂ = base64Pad ∧ c₃ = base64Pad ∧ rest = [] then some [UInt8.ofNat (w * 4 + x / 16)]
      else do
        let y ← base64Value c₂
        if c₃ = base64Pad ∧ rest = [] then some [UInt8.ofNat (w * 4 + x / 16), UInt8.ofNat (x % 16 * 16 + y / 4)]
        else do
          let z ← base64Value c₃
          let bytes ← decodeQuanta rest
          some (UInt8.ofNat (w * 4 + x / 16) :: UInt8.ofNat (x % 16 * 16 + y / 4) ::
            UInt8.ofNat (y % 4 * 64 + z) :: bytes)
  | _ => none

def decodeBase64 (cs : List UInt8) : Option (List UInt8) := decodeQuanta (cs.filter fun c => c ≠ 10 ∧ c ≠ 13)

theorem base64Value_char {d : Nat} (hd : d < 64) : base64Value (base64Char d) = some d := by
  have h : ∀ d < 64, base64Value (base64Char d) = some d := by decide
  exact h d hd

theorem base64Char_ne {d : Nat} (hd : d < 64) :
    base64Char d ≠ base64Pad ∧ base64Char d ≠ 10 ∧ base64Char d ≠ 13 := by
  have h : ∀ d < 64, base64Char d ≠ base64Pad ∧ base64Char d ≠ 10 ∧ base64Char d ≠ 13 := by decide
  exact h d hd

theorem ofNat_toNat_eq {a : UInt8} {n : Nat} (h : n = a.toNat) : UInt8.ofNat n = a := by
  rw [h]
  exact UInt8.ofNat_toNat

theorem decodeQuanta_encodeBase64 (bs : List UInt8) : decodeQuanta (encodeBase64 bs) = some bs := by
  induction bs using encodeBase64.induct with
  | case1 => rfl
  | case2 a =>
      have ha := a.toNat_lt
      rw [encodeBase64, decodeQuanta, base64Value_char (by omega), base64Value_char (by omega)]
      simp only [Option.bind_eq_bind, Option.bind_some, true_and, if_true]
      rw [ofNat_toNat_eq (a := a) (by omega)]
  | case3 a b =>
      have ha := a.toNat_lt
      have hb := b.toNat_lt
      have hne := base64Char_ne (show b.toNat % 16 * 4 < 64 by omega)
      rw [encodeBase64, decodeQuanta, base64Value_char (by omega), base64Value_char (by omega)]
      simp only [Option.bind_eq_bind, Option.bind_some, hne.1, false_and, if_false, true_and, if_true]
      rw [base64Value_char (by omega)]
      simp only [Option.bind_some]
      rw [ofNat_toNat_eq (a := a) (by omega), ofNat_toNat_eq (a := b) (by omega)]
  | case4 a b c rest ih =>
      have ha := a.toNat_lt
      have hb := b.toNat_lt
      have hc := c.toNat_lt
      have hne₂ := base64Char_ne (show b.toNat % 16 * 4 + c.toNat / 64 < 64 by omega)
      have hne₃ := base64Char_ne (show c.toNat % 64 < 64 by omega)
      rw [encodeBase64, decodeQuanta, base64Value_char (by omega), base64Value_char (by omega)]
      simp only [Option.bind_eq_bind, Option.bind_some, hne₂.1, hne₃.1, false_and, if_false]
      rw [base64Value_char (by omega), base64Value_char (by omega), ih]
      simp only [Option.bind_some]
      rw [ofNat_toNat_eq (a := a) (by omega), ofNat_toNat_eq (a := b) (by omega), ofNat_toNat_eq (a := c) (by omega)]

theorem encodeBase64_no_break {bs : List UInt8} {c : UInt8} (hc : c ∈ encodeBase64 bs) : c ≠ 10 ∧ c ≠ 13 := by
  induction bs using encodeBase64.induct with
  | case1 => cases hc
  | case2 a =>
      have ha := a.toNat_lt
      simp only [encodeBase64, List.mem_cons, List.not_mem_nil, or_false] at hc
      rcases hc with rfl | rfl | rfl | rfl
      · exact (base64Char_ne (by omega)).2
      · exact (base64Char_ne (by omega)).2
      · decide
      · decide
  | case3 a b =>
      have ha := a.toNat_lt
      have hb := b.toNat_lt
      simp only [encodeBase64, List.mem_cons, List.not_mem_nil, or_false] at hc
      rcases hc with rfl | rfl | rfl | rfl
      · exact (base64Char_ne (by omega)).2
      · exact (base64Char_ne (by omega)).2
      · exact (base64Char_ne (by omega)).2
      · decide
  | case4 a b c rest ih =>
      have ha := a.toNat_lt
      have hb := b.toNat_lt
      have hc' := c.toNat_lt
      simp only [encodeBase64, List.mem_cons] at hc
      rcases hc with rfl | rfl | rfl | rfl | hc
      · exact (base64Char_ne (by omega)).2
      · exact (base64Char_ne (by omega)).2
      · exact (base64Char_ne (by omega)).2
      · exact (base64Char_ne (by omega)).2
      · exact ih hc

/-- **Decoding undoes encoding.** -/
theorem decodeBase64_encodeBase64 (bs : List UInt8) : decodeBase64 (encodeBase64 bs) = some bs := by
  unfold decodeBase64
  rw [List.filter_eq_self.mpr fun c hc => decide_eq_true (encodeBase64_no_break hc)]
  exact decodeQuanta_encodeBase64 bs

end Lib
