import Proofload.Lib.Encoding
import Mathlib.Data.List.Basic

/-!
# JSON text

The integers, strings and objects of JSON as `encoding/json` writes them: compact, strings as UTF-8 with
control characters, quotes, the HTML characters and the two line separators escaped. The parser also accepts white
space between tokens. Left out: arrays, fractions, the literals, and surrogate pairs, which the writer does not use.

* `parseString_escape` : a string literal reads back as its bytes;
* `unmarshalJson_print` : parsing undoes printing.
-/

namespace Lib

set_option autoImplicit false

mutual
/-- A JSON value; a string is its UTF-8 bytes. -/
inductive Json where
  | num (n : Int)
  | str (s : List UInt8)
  | obj (fields : Fields)

/-- The members of an object, in order. -/
inductive Fields where
  | nil
  | cons (key : List UInt8) (value : Json) (rest : Fields)
end

/-! ## Strings -/

def hexChar (d : Nat) : UInt8 := UInt8.ofNat (if d < 10 then 48 + d else 87 + d)

def hexValue (c : UInt8) : Option Nat :=
  let n := c.toNat
  if 48 ≤ n ∧ n ≤ 57 then some (n - 48)
  else if 97 ≤ n ∧ n ≤ 102 then some (n - 87)
  else if 65 ≤ n ∧ n ≤ 70 then some (n - 55)
  else none

/-- The UTF-8 bytes of a code point below `2^16`; a lone surrogate becomes the replacement character. -/
def utf8 (n : Nat) : List UInt8 :=
  if n < 128 then [UInt8.ofNat n]
  else if n < 2048 then [UInt8.ofNat (192 + n / 64), UInt8.ofNat (128 + n % 64)]
  else if 55296 ≤ n ∧ n < 57344 then [239, 191, 189]
  else [UInt8.ofNat (224 + n / 4096), UInt8.ofNat (128 + n / 64 % 64), UInt8.ofNat (128 + n % 64)]

/-- The short escapes, by the letter behind the backslash. -/
def shortEscape (e : UInt8) : Option UInt8 :=
  if e = 34 ∨ e = 92 ∨ e = 47 then some e
  else if e = 98 then some 8
  else if e = 102 then some 12
  else if e = 110 then some 10
  else if e = 114 then some 13
  else if e = 116 then some 9
  else none

def escapeByte (b : UInt8) : List UInt8 :=
  if b = 34 ∨ b = 92 then [92, b]
  else if b = 8 then [92, 98]
  else if b = 12 then [92, 102]
  else if b = 10 then [92, 110]
  else if b = 13 then [92, 114]
  else if b = 9 then [92, 116]
  else if b.toNat < 32 ∨ b = 60 ∨ b = 62 ∨ b = 38 then [92, 117, 48, 48, hexChar (b.toNat / 16), hexChar (b.toNat % 16)]
  else [b]

/-- Escapes a string; the separators U+2028 and U+2029 are three bytes each. -/
def escape : List UInt8 → List UInt8
  | [] => []
  | a :: b :: c :: rest =>
      if a = 226 ∧ b = 128 ∧ c = 168 then [92, 117, 50, 48, 50, 56] ++ escape rest
      else if a = 226 ∧ b = 128 ∧ c = 169 then [92, 117, 50, 48, 50, 57] ++ escape rest
      else escapeByte a ++ escape (b :: c :: rest)
  | a :: rest => escapeByte a ++ escape rest

def printString (s : List UInt8) : List UInt8 := 34 :: (escape s ++ [34])

/-- Reads a string behind its opening quote. -/
def parseString : List UInt8 → Option (List UInt8 × List UInt8)
  | [] => none
  | b :: rest =>
      if b = 34 then some ([], rest)
      else if b = 92 then
        match rest with
        | [] => none
        | e :: rest =>
            if e = 117 then
              match rest with
              | h₀ :: h₁ :: h₂ :: h₃ :: rest => do
                  let d₀ ← hexValue h₀
                  let d₁ ← hexValue h₁
                  let d₂ ← hexValue h₂
                  let d₃ ← hexValue h₃
                  let (s, rest) ← parseString rest
                  some (utf8 (((d₀ * 16 + d₁) * 16 + d₂) * 16 + d₃) ++ s, rest)
              | _ => none
            else do
              let c ← shortEscape e
              let (s, rest) ← parseString rest
              some (c :: s, rest)
      else if b.toNat < 32 then none
      else do
        let (s, rest) ← parseString rest
        some (b :: s, rest)

/-! ## Values -/

mutual
def Json.print : Json → List UInt8
  | .num n => formatInt n
  | .str s => printString s
  | .obj fields => 123 :: fields.print true

/-- The members and the closing brace. -/
def Fields.print (first : Bool) : Fields → List UInt8
  | .nil => [125]
  | .cons key value rest =>
      (if first then [] else [44]) ++ (printString key ++ 58 :: (value.print ++ rest.print false))
end

def isSpace (b : UInt8) : Bool := b = 32 || b = 9 || b = 10 || b = 13

def skipSpace (bs : List UInt8) : List UInt8 := bs.dropWhile isSpace

def isNumeric (b : UInt8) : Bool := b = 45 || (48 ≤ b.toNat && b.toNat ≤ 57)

def parseNumber (bs : List UInt8) : Option (Json × List UInt8) :=
  (parseInt (bs.takeWhile isNumeric)).map fun n => (.num n, bs.dropWhile isNumeric)

/-- A key and the colon behind it. -/
def parseKey (bs : List UInt8) : Option (List UInt8 × List UInt8) :=
  match bs with
  | [] => none
  | q :: rest =>
      if q = 34 then do
        let (key, rest) ← parseString rest
        match skipSpace rest with
        | [] => none
        | c :: rest => if c = 58 then some (key, rest) else none
      else none

mutual
/-- The fuel bounds the nesting and the number of members. -/
def parseValue : Nat → List UInt8 → Option (Json × List UInt8)
  | 0, _ => none
  | fuel + 1, bs =>
      match skipSpace bs with
      | [] => none
      | b :: rest =>
          if b = 34 then (parseString rest).map fun p => (.str p.1, p.2)
          else if b = 123 then (parseFields fuel true rest).map fun p => (.obj p.1, p.2)
          else parseNumber (b :: rest)

/-- The members behind the opening brace, or behind a member. -/
def parseFields : Nat → Bool → List UInt8 → Option (Fields × List UInt8)
  | 0, _, _ => none
  | fuel + 1, first, bs =>
      match skipSpace bs with
      | [] => none
      | b :: rest =>
          if b = 125 then some (.nil, rest)
          else do
            let member ← if first then some (b :: rest) else if b = 44 then some (skipSpace rest) else none
            let (key, rest) ← parseKey member
            let (value, rest) ← parseValue fuel rest
            let (fields, rest) ← parseFields fuel false rest
            some (.cons key value fields, rest)
end

/-- A whole text: one value, and nothing but white space behind it. -/
def unmarshalJson (bs : List UInt8) : Option Json :=
  match parseValue (bs.length + 1) bs with
  | some (j, rest) => if skipSpace rest = [] then some j else none
  | none => none

/-- The number, the bytes or the members of a value of that kind. -/
def Json.num? : Json → Option Int
  | .num n => some n
  | .str _ | .obj _ => none

def Json.str? : Json → Option (List UInt8)
  | .str s => some s
  | .num _ | .obj _ => none

def Json.fields? : Json → Option Fields
  | .obj fields => some fields
  | .num _ | .str _ => none

/-- The UTF-8 bytes of a string. -/
def stringBytes (s : String) : List UInt8 := s.toUTF8.data.toList

def bytesString (bs : List UInt8) : Option String := String.fromUTF8? ⟨bs.toArray⟩

theorem bytesString_stringBytes (s : String) : bytesString (stringBytes s) = some s := by
  unfold bytesString stringBytes String.fromUTF8?
  exact dif_pos s.isValidUTF8

/-- The members as a list. -/
def Fields.toList : Fields → List (List UInt8 × Json)
  | .nil => []
  | .cons key value rest => (key, value) :: rest.toList

def Fields.ofList : List (List UInt8 × Json) → Fields
  | [] => .nil
  | (key, value) :: rest => .cons key value (Fields.ofList rest)

theorem Fields.toList_ofList (members : List (List UInt8 × Json)) : (Fields.ofList members).toList = members := by
  induction members with
  | nil => rfl
  | cons member members ih =>
      show member :: (Fields.ofList members).toList = _
      rw [ih]

/-! ## Strings read back -/

theorem hexValue_hexChar {d : Nat} (hd : d < 16) : hexValue (hexChar d) = some d := by
  have h : ∀ d < 16, hexValue (hexChar d) = some d := by decide
  exact h d hd

theorem hexValue_zero : hexValue 48 = some 0 := by decide

theorem hexValue_two : hexValue 50 = some 2 := by decide

theorem parseString_unicode {h₀ h₁ h₂ h₃ : UInt8} {d₀ d₁ d₂ d₃ : Nat} (hd₀ : hexValue h₀ = some d₀)
    (hd₁ : hexValue h₁ = some d₁) (hd₂ : hexValue h₂ = some d₂) (hd₃ : hexValue h₃ = some d₃) (rest : List UInt8) :
    parseString (92 :: 117 :: h₀ :: h₁ :: h₂ :: h₃ :: rest) =
      (parseString rest).map fun p => (utf8 (((d₀ * 16 + d₁) * 16 + d₂) * 16 + d₃) ++ p.1, p.2) := by
  rw [parseString.eq_def]
  dsimp only
  rw [if_neg (by decide), if_pos rfl, if_pos rfl]
  simp only [hd₀, hd₁, hd₂, hd₃, Option.bind_eq_bind, Option.bind_some]
  cases parseString rest <;> rfl

theorem parseString_short {e c : UInt8} (he : e ≠ 117) (hc : shortEscape e = some c) (rest : List UInt8) :
    parseString (92 :: e :: rest) = (parseString rest).map fun p => (c :: p.1, p.2) := by
  rw [parseString.eq_def]
  dsimp only
  rw [if_neg (by decide), if_pos rfl, if_neg he]
  simp only [hc, Option.bind_eq_bind, Option.bind_some]
  cases parseString rest <;> rfl

theorem parseString_plain {b : UInt8} (hquote : b ≠ 34) (hslash : b ≠ 92) (hcontrol : ¬b.toNat < 32)
    (rest : List UInt8) :
    parseString (b :: rest) = (parseString rest).map fun p => (b :: p.1, p.2) := by
  rw [parseString.eq_def]
  dsimp only
  rw [if_neg hquote, if_neg hslash, if_neg hcontrol]
  cases parseString rest <;> rfl

theorem parseString_escapeByte (b : UInt8) (rest : List UInt8) :
    parseString (escapeByte b ++ rest) = (parseString rest).map fun p => (b :: p.1, p.2) := by
  unfold escapeByte
  split_ifs with h₁ h₂ h₃ h₄ h₅ h₆ h₇
  · rcases h₁ with rfl | rfl
    · exact parseString_short (by decide) (by decide) rest
    · exact parseString_short (by decide) (by decide) rest
  · subst h₂
    exact parseString_short (by decide) (by decide) rest
  · subst h₃
    exact parseString_short (by decide) (by decide) rest
  · subst h₄
    exact parseString_short (by decide) (by decide) rest
  · subst h₅
    exact parseString_short (by decide) (by decide) rest
  · subst h₆
    exact parseString_short (by decide) (by decide) rest
  · have hb : b.toNat < 128 := by
      rcases h₇ with h | rfl | rfl | rfl
      · omega
      · decide
      · decide
      · decide
    show parseString (92 :: 117 :: 48 :: 48 :: hexChar (b.toNat / 16) :: hexChar (b.toNat % 16) :: rest) = _
    rw [parseString_unicode hexValue_zero hexValue_zero (hexValue_hexChar (by omega)) (hexValue_hexChar (by omega))]
    have hbyte : utf8 (((0 * 16 + 0) * 16 + b.toNat / 16) * 16 + b.toNat % 16) = [b] := by
      unfold utf8
      rw [if_pos (by omega), show ((0 * 16 + 0) * 16 + b.toNat / 16) * 16 + b.toNat % 16 = b.toNat by omega,
        UInt8.ofNat_toNat]
    rw [hbyte]
    rfl
  · obtain ⟨hquote, hslash⟩ := not_or.mp h₁
    exact parseString_plain hquote hslash (fun h => h₇ (Or.inl h)) rest

/-- **A string literal reads back as its bytes.** -/
theorem parseString_escape (s rest : List UInt8) : parseString (escape s ++ 34 :: rest) = some (s, rest) := by
  induction s using escape.induct with
  | case1 =>
      show parseString (34 :: rest) = _
      rw [parseString.eq_def]
      rfl
  | case2 a b c tail h ih =>
      obtain ⟨rfl, rfl, rfl⟩ := h
      rw [escape, if_pos ⟨rfl, rfl, rfl⟩]
      show parseString (92 :: 117 :: 50 :: 48 :: 50 :: 56 :: (escape tail ++ 34 :: rest)) = _
      rw [parseString_unicode hexValue_two hexValue_zero hexValue_two (show hexValue 56 = some 8 by decide), ih]
      rfl
  | case3 a b c tail h₁ h ih =>
      obtain ⟨rfl, rfl, rfl⟩ := h
      rw [escape, if_neg h₁, if_pos ⟨rfl, rfl, rfl⟩]
      show parseString (92 :: 117 :: 50 :: 48 :: 50 :: 57 :: (escape tail ++ 34 :: rest)) = _
      rw [parseString_unicode hexValue_two hexValue_zero hexValue_two (show hexValue 57 = some 9 by decide), ih]
      rfl
  | case4 a b c tail h₁ h₂ ih =>
      rw [escape, if_neg h₁, if_neg h₂, List.append_assoc, parseString_escapeByte, ih]
      rfl
  | case5 a tail h ih =>
      rw [escape, List.append_assoc, parseString_escapeByte, ih]
      · rfl
      · exact h

/-! ## Values read back -/

theorem skipSpace_cons {b : UInt8} (hb : isSpace b = false) (rest : List UInt8) :
    skipSpace (b :: rest) = b :: rest := by
  unfold skipSpace
  rw [List.dropWhile_cons, hb]
  rfl

/-- The text of a number is numeric, so it starts neither a string nor an object. -/
theorem isNumeric_of_mem {n : Int} {b : UInt8} (hb : b ∈ formatInt n) : isNumeric b = true := by
  rw [formatInt_eq] at hb
  unfold isNumeric
  split at hb
  · have := digitBytes_range hb
    simp [this]
  · rcases List.mem_cons.mp hb with rfl | hb
    · rfl
    · have := digitBytes_range hb
      simp [this]

theorem isNumeric_spec {b : UInt8} (hb : isNumeric b = true) : isSpace b = false ∧ b ≠ 34 ∧ b ≠ 123 := by
  have h : ∀ n < 256, isNumeric (UInt8.ofNat n) = true →
      isSpace (UInt8.ofNat n) = false ∧ UInt8.ofNat n ≠ 34 ∧ UInt8.ofNat n ≠ 123 := by decide +kernel
  have := h b.toNat b.toNat_lt
  rw [UInt8.ofNat_toNat] at this
  exact this hb

theorem formatInt_ne_nil (n : Int) : formatInt n ≠ [] := by
  rw [formatInt_eq]
  split
  · exact digitBytes_ne_nil _
  · exact List.cons_ne_nil _ _

/-- What may follow a value: nothing that would extend a number. -/
def Ends (rest : List UInt8) : Prop := ∀ b ∈ rest.head?, isNumeric b = false

theorem parseNumber_formatInt (n : Int) {rest : List UInt8} (hrest : Ends rest) :
    parseNumber (formatInt n ++ rest) = some (.num n, rest) := by
  have htail : rest.takeWhile isNumeric = [] ∧ rest.dropWhile isNumeric = rest := by
    cases rest with
    | nil => exact ⟨rfl, rfl⟩
    | cons b rest =>
        have hb : isNumeric b = false := hrest b rfl
        simp [hb]
  unfold parseNumber
  rw [List.takeWhile_append_of_pos fun b hb => isNumeric_of_mem hb,
    List.dropWhile_append_of_pos fun b hb => isNumeric_of_mem hb,
    htail.1, htail.2, List.append_nil, parseInt_formatInt]
  rfl

theorem parseKey_printString (key rest : List UInt8) : parseKey (printString key ++ 58 :: rest) = some (key, rest) := by
  unfold parseKey printString
  simp only [List.cons_append, List.append_assoc, if_true, List.nil_append]
  rw [parseString_escape]
  simp only [Option.bind_eq_bind, Option.bind_some]
  rw [skipSpace_cons (by decide)]
  rfl

mutual
/-- The fuel that reading a value back takes. -/
def Json.size : Json → Nat
  | .num _ | .str _ => 1
  | .obj fields => fields.size + 1

def Fields.size : Fields → Nat
  | .nil => 1
  | .cons _ value rest => value.size + rest.size + 1
end

theorem ends_print (fields : Fields) (rest : List UInt8) : Ends (fields.print false ++ rest) := by
  intro b hb
  cases fields with
  | nil =>
      obtain rfl : (125 : UInt8) = b := by simpa [Fields.print] using hb
      decide
  | cons key value fields =>
      obtain rfl : (44 : UInt8) = b := by simpa [Fields.print] using hb
      decide

mutual
theorem parseValue_print (j : Json) {fuel : Nat} (hfuel : j.size ≤ fuel) {rest : List UInt8} (hrest : Ends rest) :
    parseValue fuel (j.print ++ rest) = some (j, rest) := by
  obtain ⟨fuel, rfl⟩ : ∃ m, fuel = m + 1 := ⟨fuel - 1, by cases j <;> simp only [Json.size] at hfuel <;> omega⟩
  cases j with
  | num n =>
      rw [Json.print, parseValue]
      cases htext : formatInt n with
      | nil => exact absurd htext (formatInt_ne_nil n)
      | cons b bs =>
          have hb := isNumeric_spec (isNumeric_of_mem (n := n) (by rw [htext]; exact List.mem_cons_self))
          rw [List.cons_append, skipSpace_cons hb.1]
          dsimp only
          rw [if_neg hb.2.1, if_neg hb.2.2, ← List.cons_append, ← htext]
          exact parseNumber_formatInt n hrest
  | str s =>
      rw [Json.print, parseValue, printString, List.cons_append, skipSpace_cons (by decide)]
      dsimp only
      rw [if_pos rfl, List.append_assoc]
      show (parseString (escape s ++ 34 :: rest)).map _ = _
      rw [parseString_escape]
      rfl
  | obj fields =>
      rw [Json.print, parseValue, List.cons_append, skipSpace_cons (by decide)]
      dsimp only
      rw [if_neg (by decide), if_pos rfl, parseFields_print fields (by rw [Json.size] at hfuel; omega)]
      rfl

theorem parseFields_print (fields : Fields) {fuel : Nat} (hfuel : fields.size ≤ fuel) (first : Bool)
    (rest : List UInt8) : parseFields fuel first (fields.print first ++ rest) = some (fields, rest) := by
  obtain ⟨fuel, rfl⟩ : ∃ m, fuel = m + 1 := ⟨fuel - 1, by cases fields <;> simp only [Fields.size] at hfuel <;> omega⟩
  cases fields with
  | nil =>
      rw [Fields.print, parseFields, List.cons_append, skipSpace_cons (by decide)]
      rfl
  | cons key value fields =>
      rw [Fields.size] at hfuel
      have hvalue := parseValue_print value (show value.size ≤ fuel by omega) (ends_print fields rest)
      have hfields := parseFields_print fields (show fields.size ≤ fuel by omega) false rest
      obtain ⟨body, hbody⟩ : ∃ body,
          printString key ++ 58 :: (value.print ++ (fields.print false ++ rest)) = 34 :: body :=
        ⟨_, rfl⟩
      have hmember := parseKey_printString key (value.print ++ (fields.print false ++ rest))
      rw [hbody] at hmember
      cases first with
      | true =>
          rw [Fields.print, parseFields]
          simp only [if_true, List.nil_append, List.append_assoc, List.cons_append]
          rw [hbody, skipSpace_cons (by decide)]
          simp only [if_neg (show (34 : UInt8) ≠ 125 by decide), Option.bind_eq_bind, Option.bind_some, hmember, hvalue,
            hfields]
      | false =>
          rw [Fields.print, parseFields]
          simp only [if_false, List.append_assoc, List.cons_append, List.nil_append, Bool.false_eq_true]
          rw [hbody, skipSpace_cons (by decide)]
          simp only [if_neg (show (44 : UInt8) ≠ 125 by decide), if_true,
            skipSpace_cons (show isSpace 34 = false by decide),
            Option.bind_eq_bind, Option.bind_some, hmember, hvalue, hfields]
end

mutual
theorem Json.size_le (j : Json) : j.size ≤ j.print.length := by
  cases j with
  | num n =>
      rw [Json.size, Json.print]
      exact List.length_pos_of_ne_nil (formatInt_ne_nil n)
  | str s => simp [Json.size, Json.print, printString]
  | obj fields =>
      rw [Json.size, Json.print, List.length_cons]
      exact Nat.succ_le_succ (fields.size_le true)

theorem Fields.size_le (fields : Fields) (first : Bool) : fields.size ≤ (fields.print first).length := by
  cases fields with
  | nil => simp [Fields.size, Fields.print]
  | cons key value fields =>
      have hvalue := value.size_le
      have hfields := fields.size_le false
      simp only [Fields.size, Fields.print, List.length_append, List.length_cons]
      omega
end

/-- **Parsing undoes printing.** -/
theorem unmarshalJson_print (j : Json) : unmarshalJson j.print = some j := by
  have hends : Ends [] := fun b hb => by cases hb
  have hparse := parseValue_print j (Nat.le_succ_of_le j.size_le) hends
  rw [List.append_nil] at hparse
  unfold unmarshalJson
  rw [hparse]
  rfl

end Lib
