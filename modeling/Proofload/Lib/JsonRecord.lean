import Proofload.Lib.Json

/-!
# JSON records

Flat JSON objects, the lines of a record file: the members are integers, strings, booleans and lists of integers. Both
objects and lists are sequences of items between commas and a closing byte (`printSeq`, `parseSeq`).

* `parseSeq_printSeq` : a sequence reads back if its items do;
* `unmarshalRecord_print` : a record reads back, so its text determines it;
* `int64?_val`, `uint64?_toNat`, `int64s?_map` : the members of fixed width are read back;
* `newline_not_mem_printRecord` : its text is one line.
-/

namespace Lib

set_option autoImplicit false

/-! ## Sequences of items -/

section Seq
variable {α : Type} (close : UInt8) (text : α → List UInt8) (item : List UInt8 → Option (α × List UInt8))

/-- The items behind the opening byte, and the closing byte. -/
def printSeq : Bool → List α → List UInt8
  | _, [] => [close]
  | first, a :: as => (if first then [] else [44]) ++ (text a ++ printSeq false as)

/-- The fuel bounds the number of items. -/
def parseSeq : Nat → Bool → List UInt8 → Option (List α × List UInt8)
  | 0, _, _ => none
  | fuel + 1, first, bs =>
      match skipSpace bs with
      | [] => none
      | b :: rest =>
          if b = close then some ([], rest)
          else do
            let start ← if first then some (b :: rest) else if b = 44 then some (skipSpace rest) else none
            let (a, rest) ← item start
            let (as, rest) ← parseSeq fuel false rest
            some (a :: as, rest)

/-- The text of an item starts with a byte that is neither white space nor the closing one. -/
def Starts (t : List UInt8) : Prop := ∃ b u, t = b :: u ∧ isSpace b = false ∧ b ≠ close

variable {close text item}

theorem ends_printSeq (hclose : isNumeric close = false) (as : List α) (rest : List UInt8) :
    Ends (printSeq close text false as ++ rest) := by
  intro b hb
  cases as with
  | nil =>
      obtain rfl : close = b := by simpa [printSeq] using hb
      exact hclose
  | cons a as =>
      obtain rfl : (44 : UInt8) = b := by simpa [printSeq] using hb
      decide

/-- **A sequence reads back if its items do.** -/
theorem parseSeq_printSeq (hspace : isSpace close = false) (hnumeric : isNumeric close = false) (hcomma : close ≠ 44)
    {as : List α} (hstarts : ∀ a ∈ as, Starts close (text a))
    (hitem : ∀ a ∈ as, ∀ rest, Ends rest → item (text a ++ rest) = some (a, rest)) {fuel : Nat}
    (hfuel : as.length < fuel) (first : Bool) (rest : List UInt8) :
    parseSeq close item fuel first (printSeq close text first as ++ rest) = some (as, rest) := by
  induction as generalizing fuel first with
  | nil =>
      obtain ⟨fuel, rfl⟩ : ∃ n, fuel = n + 1 := ⟨fuel - 1, by simp at hfuel; omega⟩
      rw [printSeq, parseSeq, List.cons_append, skipSpace_cons hspace]
      simp
  | cons a as ih =>
      obtain ⟨fuel, rfl⟩ : ∃ n, fuel = n + 1 := ⟨fuel - 1, by simp at hfuel; omega⟩
      obtain ⟨b, u, htext, hb, hne⟩ := hstarts a List.mem_cons_self
      have hends : Ends (printSeq close text false as ++ rest) := ends_printSeq hnumeric as rest
      have hhead := hitem a List.mem_cons_self _ hends
      have htail := ih (fun x hx => hstarts x (List.mem_cons_of_mem a hx))
        (fun x hx => hitem x (List.mem_cons_of_mem a hx)) (show as.length < fuel by simp at hfuel; omega) false
      rw [htext, List.cons_append] at hhead
      cases first with
      | true =>
          rw [printSeq, parseSeq, htext]
          simp only [if_true, List.nil_append, List.append_assoc, List.cons_append]
          rw [skipSpace_cons hb]
          simp only [if_neg hne, Option.bind_eq_bind, Option.bind_some, hhead, htail]
      | false =>
          rw [printSeq, parseSeq, htext]
          simp only [Bool.false_eq_true, if_false, List.append_assoc, List.cons_append, List.nil_append]
          rw [skipSpace_cons (show isSpace 44 = false by decide)]
          simp only [if_neg hcomma.symm, if_true, Option.bind_eq_bind, Option.bind_some, skipSpace_cons hb, hhead,
            htail]

theorem length_lt_printSeq {as : List α} (hstarts : ∀ a ∈ as, Starts close (text a)) (first : Bool) :
    as.length < (printSeq close text first as).length := by
  induction as generalizing first with
  | nil => simp [printSeq]
  | cons a as ih =>
      obtain ⟨b, u, htext, -, -⟩ := hstarts a List.mem_cons_self
      have := ih (fun x hx => hstarts x (List.mem_cons_of_mem a hx)) false
      simp only [printSeq, htext, List.length_append, List.length_cons]
      omega

theorem not_mem_printSeq {c : UInt8} (hclose : c ≠ close) (hcomma : c ≠ 44) {as : List α}
    (has : ∀ a ∈ as, c ∉ text a) (first : Bool) : c ∉ printSeq close text first as := by
  induction as generalizing first with
  | nil => simpa [printSeq] using hclose
  | cons a as ih =>
      have hrest := ih (fun x hx => has x (List.mem_cons_of_mem a hx)) false
      have hitem := has a List.mem_cons_self
      unfold printSeq
      cases first <;> simp [hcomma, hitem, hrest]

theorem length_le_printSeq {a : α} {as : List α} (ha : a ∈ as) (first : Bool) :
    (text a).length ≤ (printSeq close text first as).length := by
  induction as generalizing first with
  | nil => cases ha
  | cons x as ih =>
      simp only [printSeq, List.length_append]
      rcases List.mem_cons.mp ha with rfl | ha
      · omega
      · have := ih ha false
        omega

end Seq

/-! ## Members -/

/-- The value of a member. -/
inductive Scalar where
  | num (n : Int)
  | str (s : List UInt8)
  | bool (b : Bool)
  | nums (l : List Int)
deriving DecidableEq

/-- The literals `true` and `false`. -/
def literal (b : Bool) : List UInt8 := if b then [116, 114, 117, 101] else [102, 97, 108, 115, 101]

def Scalar.print : Scalar → List UInt8
  | .num n => formatInt n
  | .str s => printString s
  | .bool b => literal b
  | .nums l => 91 :: printSeq 93 formatInt true l

def parseInteger (bs : List UInt8) : Option (Int × List UInt8) :=
  (parseInt (bs.takeWhile isNumeric)).map fun n => (n, bs.dropWhile isNumeric)

def parseScalar (bs : List UInt8) : Option (Scalar × List UInt8) :=
  match skipSpace bs with
  | [] => none
  | b :: rest =>
      if b = 34 then (parseString rest).map fun p => (.str p.1, p.2)
      else if b = 91 then (parseSeq 93 parseInteger (rest.length + 1) true rest).map fun p => (.nums p.1, p.2)
      else if (b :: rest).take 4 = literal true then some (.bool true, (b :: rest).drop 4)
      else if (b :: rest).take 5 = literal false then some (.bool false, (b :: rest).drop 5)
      else (parseInteger (b :: rest)).map fun p => (.num p.1, p.2)

/-- A key and its value. -/
abbrev Member := List UInt8 × Scalar

def Member.print (m : Member) : List UInt8 := printString m.1 ++ 58 :: m.2.print

def parseMember (bs : List UInt8) : Option (Member × List UInt8) := do
  let (key, rest) ← parseKey bs
  let (value, rest) ← parseScalar rest
  some ((key, value), rest)

/-- A record: the members of an object, in order. -/
def printRecord (members : List Member) : List UInt8 := 123 :: printSeq 125 Member.print true members

/-- A whole text: one object, and nothing but white space behind it. -/
def unmarshalRecord (bs : List UInt8) : Option (List Member) :=
  match skipSpace bs with
  | [] => none
  | b :: rest =>
      if b = 123 then
        match parseSeq 125 parseMember (rest.length + 1) true rest with
        | some (members, rest) => if skipSpace rest = [] then some members else none
        | none => none
      else none

/-! ## Records read back -/

theorem parseInteger_formatInt (n : Int) {rest : List UInt8} (hrest : Ends rest) :
    parseInteger (formatInt n ++ rest) = some (n, rest) := by
  have h := parseNumber_formatInt n hrest
  unfold parseNumber at h
  unfold parseInteger
  obtain ⟨m, hm, heq⟩ := Option.map_eq_some_iff.mp h
  obtain ⟨hnum, hdrop⟩ := Prod.mk.inj heq
  obtain rfl := Json.num.inj hnum
  rw [hm, hdrop]
  rfl

theorem formatInt_head (n : Int) : ∃ b u, formatInt n = b :: u ∧ isNumeric b = true := by
  cases htext : formatInt n with
  | nil => exact absurd htext (formatInt_ne_nil n)
  | cons b u => exact ⟨b, u, rfl, isNumeric_of_mem (n := n) (by rw [htext]; exact List.mem_cons_self)⟩

theorem starts_formatInt (n : Int) : Starts 93 (formatInt n) := by
  obtain ⟨b, u, htext, hb⟩ := formatInt_head n
  refine ⟨b, u, htext, (isNumeric_spec hb).1, ?_⟩
  rintro rfl
  exact absurd hb (by decide)

theorem parseScalar_print (v : Scalar) {rest : List UInt8} (hrest : Ends rest) :
    parseScalar (v.print ++ rest) = some (v, rest) := by
  cases v with
  | num n =>
      obtain ⟨b, u, htext, hb⟩ := formatInt_head n
      have hparse := parseInteger_formatInt n hrest
      have hbyte : b ≠ 91 ∧ b ≠ 116 ∧ b ≠ 102 := by
        refine ⟨?_, ?_, ?_⟩ <;>
        · rintro rfl
          exact absurd hb (by decide)
      obtain ⟨hspace, hquote, -⟩ := isNumeric_spec hb
      rw [Scalar.print, parseScalar]
      rw [htext, List.cons_append] at hparse ⊢
      rw [skipSpace_cons hspace]
      dsimp only
      rw [if_neg hquote, if_neg hbyte.1, if_neg (by simp [literal, hbyte.2.1]), if_neg (by simp [literal, hbyte.2.2]),
        hparse]
      rfl
  | str s =>
      rw [Scalar.print, parseScalar, printString, List.cons_append, skipSpace_cons (by decide)]
      dsimp only
      rw [if_pos rfl, List.append_assoc]
      show (parseString (escape s ++ 34 :: rest)).map _ = _
      rw [parseString_escape]
      rfl
  | bool b =>
      cases b <;>
      · rw [Scalar.print, parseScalar, literal]
        simp only [if_true, if_false, Bool.false_eq_true, List.cons_append, List.nil_append]
        rw [skipSpace_cons (by decide)]
        simp [literal]
  | nums l =>
      rw [Scalar.print, parseScalar, List.cons_append, skipSpace_cons (by decide)]
      dsimp only
      rw [if_neg (by decide), if_pos rfl, parseSeq_printSeq (by decide) (by decide) (by decide)
        (fun n _ => starts_formatInt n) (fun n _ rest hrest => parseInteger_formatInt n hrest)]
      · rfl
      · have := length_lt_printSeq (fun n (_ : n ∈ l) => starts_formatInt n) true
        rw [List.length_append]
        omega

theorem starts_member (m : Member) : Starts 125 m.print := ⟨34, _, rfl, by decide, by decide⟩

theorem parseMember_print (m : Member) {rest : List UInt8} (hrest : Ends rest) :
    parseMember (m.print ++ rest) = some (m, rest) := by
  have hkey := parseKey_printString m.1 (m.2.print ++ rest)
  unfold parseMember Member.print
  rw [List.append_assoc, List.cons_append, hkey]
  simp only [Option.bind_eq_bind, Option.bind_some, parseScalar_print m.2 hrest]

/-- **A record reads back.** -/
theorem unmarshalRecord_print (members : List Member) : unmarshalRecord (printRecord members) = some members := by
  have hlength := length_lt_printSeq (fun m (_ : m ∈ members) => starts_member m) true
  have hparse : parseSeq 125 parseMember ((printSeq 125 Member.print true members).length + 1) true
      (printSeq 125 Member.print true members ++ []) = some (members, []) :=
    parseSeq_printSeq (by decide) (by decide) (by decide) (fun m _ => starts_member m)
      (fun m _ rest hrest => parseMember_print m hrest) (Nat.lt_succ_of_lt hlength) true []
  rw [List.append_nil] at hparse
  unfold unmarshalRecord printRecord
  rw [skipSpace_cons (by decide)]
  dsimp only
  rw [if_pos rfl, hparse]
  rfl

theorem two_mul_length_le_printSeq (close : UInt8) (l : List Int) (first : Bool) :
    2 * l.length + (if first then 0 else 1) ≤ (printSeq close formatInt first l).length := by
  induction l generalizing first with
  | nil => cases first <;> simp [printSeq]
  | cons n l ih =>
      have hrest := ih false
      have hnum := List.length_pos_of_ne_nil (formatInt_ne_nil n)
      cases first <;> simp only [printSeq, List.length_append, List.length_cons, List.length_nil, if_true, if_false,
        Bool.false_eq_true] at hrest ⊢ <;> omega

theorem getLast?_printRecord (members : List Member) : (printRecord members).getLast? = some 125 := by
  have hseq : ∀ (first : Bool) (members : List Member),
      (printSeq 125 Member.print first members).getLast? = some 125 := by
    intro first members
    induction members generalizing first with
    | nil => rfl
    | cons m members ih =>
        rw [printSeq, ← List.append_assoc, List.getLast?_append, ih]
        rfl
  rw [printRecord, List.getLast?_cons, hseq]
  rfl

/-! ## Typed members -/

/-- The value as a 64-bit integer; one out of range is refused. -/
def Scalar.int64? : Scalar → Option I64
  | .num n => if h : -2 ^ 63 ≤ n ∧ n < 2 ^ 63 then some ⟨n, h.1, h.2⟩ else none
  | .str _ | .bool _ | .nums _ => none

def Scalar.uint64? : Scalar → Option UInt64
  | .num n => if 0 ≤ n ∧ n < 2 ^ 64 then some (UInt64.ofNat n.toNat) else none
  | .str _ | .bool _ | .nums _ => none

def Scalar.str? : Scalar → Option (List UInt8)
  | .str s => some s
  | .num _ | .bool _ | .nums _ => none

def Scalar.bool? : Scalar → Option Bool
  | .bool b => some b
  | .num _ | .str _ | .nums _ => none

def Scalar.int64s? : Scalar → Option (List I64)
  | .nums l => l.mapM fun n => Scalar.int64? (.num n)
  | .num _ | .str _ | .bool _ => none

@[simp] theorem int64?_val (a : I64) : Scalar.int64? (.num a.val) = some a := dif_pos ⟨a.ge, a.lt⟩

@[simp] theorem uint64?_toNat (u : UInt64) : Scalar.uint64? (.num u.toNat) = some u := by
  have := u.toNat_lt
  unfold Scalar.uint64?
  dsimp only
  rw [if_pos (by omega), Int.toNat_natCast, UInt64.ofNat_toNat]

@[simp] theorem int64s?_map (l : List I64) : Scalar.int64s? (.nums (l.map (·.val))) = some l := by
  show (l.map _).mapM _ = some l
  induction l with
  | nil => rfl
  | cons a l ih =>
      rw [List.map_cons, List.mapM_cons, int64?_val, ih]
      rfl

/-! ## One line -/

theorem newline_not_mem_formatInt (n : Int) : (10 : UInt8) ∉ formatInt n := fun h =>
  absurd (isNumeric_of_mem h) (by decide)

theorem newline_not_mem_escapeByte (b : UInt8) : (10 : UInt8) ∉ escapeByte b := by
  have h : ∀ n < 256, (10 : UInt8) ∉ escapeByte (UInt8.ofNat n) := by decide +kernel
  have := h b.toNat b.toNat_lt
  rwa [UInt8.ofNat_toNat] at this

theorem newline_not_mem_printString (s : List UInt8) : (10 : UInt8) ∉ printString s := by
  have hescape : (10 : UInt8) ∉ escape s := by
    induction s using escape.induct with
    | case1 => simp [escape]
    | case2 a b c tail h ih => simp [escape, h, ih]
    | case3 a b c tail h₁ h ih => simp [escape, h, ih]
    | case4 a b c tail h₁ h₂ ih =>
        rw [escape, if_neg h₁, if_neg h₂]
        simp [newline_not_mem_escapeByte, ih]
    | case5 a tail h ih =>
        rw [escape]
        · simp [newline_not_mem_escapeByte, ih]
        · exact h
  simp [printString, hescape]

theorem newline_not_mem_scalar (v : Scalar) : (10 : UInt8) ∉ v.print := by
  cases v with
  | num n => exact newline_not_mem_formatInt n
  | str s => exact newline_not_mem_printString s
  | bool b => cases b <;> decide
  | nums l =>
      have hseq : (10 : UInt8) ∉ printSeq 93 formatInt true l :=
        not_mem_printSeq (by decide) (by decide) (fun n _ => newline_not_mem_formatInt n) true
      simp [Scalar.print, hseq]

/-- **The text of a record is one line.** -/
theorem newline_not_mem_printRecord (members : List Member) : (10 : UInt8) ∉ printRecord members := by
  have hmember : ∀ m : Member, (10 : UInt8) ∉ m.print := fun m => by
    simp [Member.print, newline_not_mem_printString, newline_not_mem_scalar]
  have hseq : (10 : UInt8) ∉ printSeq 125 Member.print true members :=
    not_mem_printSeq (by decide) (by decide) (fun m _ => hmember m) true
  simp [printRecord, hseq]

end Lib
