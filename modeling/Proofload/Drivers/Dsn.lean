import Proofload.Domain
import Proofload.Lib.Escaping
import Proofload.Lib.Texts
import Mathlib.Data.List.Infix

/-!
# PostgreSQL connection strings (`targets/postgresql/pgdriver/dsn.go`)

`buildDSN` expands a bare endpoint into a keyword/value string. A value is quoted if it is empty or holds a space, a
quote or a backslash; the reader, however, ends an unquoted value at any white space. Texts are bytes.

* `splitHostPort_spec` : the host and the port of an endpoint;
* `settings_text_iff` : which settings are read back from their keyword/value text;
* `dsn_round_trip_iff` : for which options a connection string is read back.
-/

namespace Proofload.Drivers.Postgresql
open Lib

set_option autoImplicit false

/-! ## The code -/

structure DsnOptions where
  user : Bytes
  password : Bytes
  dbName : Bytes
  sslMode : Bytes

def defaultPGPort : Bytes := stringBytes "5432"

/-- The white space of Unicode in UTF-8. -/
def spaceTexts : List Bytes :=
  [[9], [10], [11], [12], [13], [32], [0xC2, 0x85], [0xC2, 0xA0], [0xE1, 0x9A, 0x80], [0xE2, 0x80, 0x80],
    [0xE2, 0x80, 0x81], [0xE2, 0x80, 0x82], [0xE2, 0x80, 0x83], [0xE2, 0x80, 0x84], [0xE2, 0x80, 0x85],
    [0xE2, 0x80, 0x86], [0xE2, 0x80, 0x87], [0xE2, 0x80, 0x88], [0xE2, 0x80, 0x89], [0xE2, 0x80, 0x8A],
    [0xE2, 0x80, 0xA8], [0xE2, 0x80, 0xA9], [0xE2, 0x80, 0xAF], [0xE2, 0x81, 0x9F], [0xE3, 0x80, 0x80]]

/-- Takes texts of a list off the front, at most `fuel` of them. -/
def trimFront (texts : List Bytes) : Nat → Bytes → Bytes
  | 0, l => l
  | fuel + 1, l =>
      match texts.find? fun t => t.isPrefixOf l with
      | none => l
      | some t => trimFront texts fuel (l.drop t.length)

/-- `strings.TrimSpace`. -/
def trimSpace (l : Bytes) : Bytes :=
  (trimFront (spaceTexts.map List.reverse) l.length (trimFront spaceTexts l.length l).reverse).reverse

def splitHostPort (endpoint : Bytes) : Bytes × Bytes :=
  if endpoint = [] then (stringBytes "localhost", defaultPGPort)
  else match splitLast 58 endpoint with
    | some (host, port) => if endpoint.getLast? ≠ some 93 then (host, port) else (endpoint, defaultPGPort)
    | none => (endpoint, defaultPGPort)

/-- `strings.ReplaceAll` of a single byte. -/
def replaceAll (old : UInt8) (text l : Bytes) : Bytes := l.flatMap fun b => if b = old then text else [b]

def escapeDSN (v : Bytes) : Bytes := replaceAll 39 [92, 39] (replaceAll 92 [92, 92] v)

def kv (key val : Bytes) : Bytes :=
  if val = [] ∨ 32 ∈ val ∨ 39 ∈ val ∨ 92 ∈ val then key ++ 61 :: 39 :: escapeDSN val ++ [39] else key ++ 61 :: val

/-- The settings of a connection string, in order. -/
def dsnSettings (host port : Bytes) (o : DsnOptions) : List (Bytes × Bytes) :=
  [(stringBytes "host", host), (stringBytes "port", port), (stringBytes "user", o.user),
    (stringBytes "dbname", o.dbName), (stringBytes "sslmode", o.sslMode)] ++
    if o.password ≠ [] then [(stringBytes "password", o.password)] else []

def dsnText (pairs : List (Bytes × Bytes)) : Bytes := List.intercalate [32] (pairs.map fun p => kv p.1 p.2)

def buildDSN (endpoint : Bytes) (o : DsnOptions) : Bytes :=
  let endpoint := trimSpace endpoint
  if stringBytes "://" <:+: endpoint ∨ 61 ∈ endpoint then endpoint
  else dsnText (dsnSettings (splitHostPort endpoint).1 (splitHostPort endpoint).2 o)

/-! ## The keyword/value grammar -/

def isSpace (b : UInt8) : Bool := b = 32 || (9 ≤ b && b ≤ 13)

def isKeyByte (b : UInt8) : Bool := b ≠ 61 && !isSpace b

/-- A backslash escapes quotes and backslashes, and whatever else it stands in front of. -/
def dsnCode : Code UInt8 where
  esc := 92
  letter b := if b = 92 ∨ b = 39 then some b else none
  symbol b := some b
  lenient := false

/-- A value and the text behind it: quoted up to the closing quote, else up to any white space. -/
def dsnValue (l : Bytes) : Option (Bytes × Bytes) :=
  if l.head? = some 39 then
    (dsnCode.scan (· = 39) l.tail).bind fun v => if v.2.head? = some 39 then some (v.1, v.2.tail) else none
  else dsnCode.scan isSpace l

/-- At most `fuel` settings: a keyword, an equals sign, a value, with white space between them. -/
def settings : Nat → Bytes → Option (List (Bytes × Bytes))
  | 0, _ => none
  | fuel + 1, text =>
      let l := text.dropWhile isSpace
      let rest := (l.dropWhile isKeyByte).dropWhile isSpace
      if l = [] then some []
      else if rest.head? = some 61 then
        (dsnValue (rest.tail.dropWhile isSpace)).bind fun v =>
          (settings fuel v.2).map ((l.takeWhile isKeyByte, v.1) :: ·)
      else none

def parseDSN (text : Bytes) : Option (List (Bytes × Bytes)) := settings (text.length + 1) text

/-! ## Values -/

/-- A value that is written so that it is read back: it is quoted, or has no white space. -/
def Written (val : Bytes) : Prop := (32 ∈ val ∨ 39 ∈ val ∨ 92 ∈ val) ∨ ∀ b ∈ val, isSpace b = false

instance (val : Bytes) : Decidable (Written val) :=
  inferInstanceAs (Decidable ((32 ∈ val ∨ 39 ∈ val ∨ 92 ∈ val) ∨ ∀ b ∈ val, isSpace b = false))

theorem dsnCode_complete : dsnCode.Complete (· = 39) where
  symbol_letter a b h := by
    simp only [dsnCode] at h ⊢
    split_ifs at h
    exact h.symm
  stop_letter a h := by
    rw [of_decide_eq_true h]
    rfl
  esc_letter := rfl

theorem escapeDSN_eq (v : Bytes) : escapeDSN v = dsnCode.escape v := by
  unfold escapeDSN replaceAll Code.escape
  rw [List.flatMap_assoc]
  apply List.flatMap_congr
  intro b _
  by_cases hslash : b = 92
  · rw [hslash]
    rfl
  · by_cases hquote : b = 39
    · rw [hquote]
      rfl
    · simp [dsnCode, hslash, hquote]

/-- A byte that can start an unquoted word as it is. -/
def PlainStart (c : UInt8) : Prop := isSpace c = false ∧ c ≠ 39 ∧ c ≠ 92

/-- What follows a setting: nothing, or a space and the next word. -/
def Follows (tail : Bytes) : Prop := tail = [] ∨ ∃ c rest, tail = 32 :: c :: rest ∧ PlainStart c

/-- The value part of a setting. -/
def valueText (val : Bytes) : Bytes :=
  if val = [] ∨ 32 ∈ val ∨ 39 ∈ val ∨ 92 ∈ val then 39 :: escapeDSN val ++ [39] else val

theorem kv_eq (key val : Bytes) : kv key val = key ++ 61 :: valueText val := by
  unfold kv valueText
  split_ifs
  · simp
  · rfl

theorem scan_follows {tail : Bytes} (htail : Follows tail) : dsnCode.scan isSpace tail = some ([], tail) := by
  rcases htail with rfl | ⟨c, rest, rfl, -⟩
  · rfl
  · exact Code.scan_stop (c :: rest) (by decide) (by decide)

/-- **A value that is quoted or has no white space is read back.** -/
theorem dsnValue_valueText {val tail : Bytes} (hval : Written val) (htail : Follows tail) :
    dsnValue ((valueText val ++ tail).dropWhile isSpace) = some (val, tail) := by
  unfold valueText
  split_ifs with hquoted
  · have htext : (39 :: escapeDSN val ++ [39] ++ tail).dropWhile isSpace = 39 :: (escapeDSN val ++ 39 :: tail) := by
      simp [isSpace]
    rw [htext, dsnValue, if_pos List.head?_cons, List.tail_cons, escapeDSN_eq,
      dsnCode_complete.scan_escape val (by decide) (by decide)]
    rfl
  · rw [not_or] at hquoted
    obtain ⟨hne, hnone⟩ := hquoted
    have hspace := hval.resolve_left hnone
    obtain ⟨b, val, rfl⟩ := List.exists_cons_of_ne_nil hne
    have hplain : ∀ a ∈ b :: val, a ≠ dsnCode.esc ∧ isSpace a = false := by
      intro a ha
      refine ⟨?_, hspace a ha⟩
      rintro rfl
      exact hnone (Or.inr (Or.inr ha))
    have hquote : b ≠ 39 := fun hb => hnone (Or.inr (Or.inl (hb ▸ List.mem_cons_self)))
    rw [List.cons_append, List.dropWhile_cons_of_neg (by simp [hspace b List.mem_cons_self]), dsnValue,
      if_neg (by simpa using hquote), ← List.cons_append, Code.scan_append hplain, scan_follows htail]
    simp

theorem valueText_eq_self {val : Bytes} (hval : ¬Written val) : valueText val = val := by
  unfold Written at hval
  rw [not_or] at hval
  apply if_neg
  rintro (rfl | hquoted)
  · exact hval.2 fun b hb => absurd hb List.not_mem_nil
  · exact hval.1 hquoted

/-- What stands behind white space that was meant to be a value: nothing, or a byte that starts an unquoted value. -/
theorem dropWhile_blank {val tail : Bytes} (hval : 39 ∉ val ∧ 92 ∉ val) (htail : Follows tail) :
    (val ++ tail).dropWhile isSpace = [] ∨
      ∃ c rest, (val ++ tail).dropWhile isSpace = c :: rest ∧ PlainStart c := by
  induction val with
  | nil =>
      rcases htail with rfl | ⟨c, rest, rfl, hc⟩
      · exact Or.inl rfl
      · refine Or.inr ⟨c, rest, ?_, hc⟩
        rw [List.nil_append, List.dropWhile_cons_of_pos (by decide), List.dropWhile_cons_of_neg (by simp [hc.1])]
  | cons b val ih =>
      simp only [List.mem_cons, not_or] at hval
      by_cases hb : isSpace b = true
      · rw [List.cons_append, List.dropWhile_cons_of_pos hb]
        exact ih ⟨hval.1.2, hval.2.2⟩
      · rw [List.cons_append, List.dropWhile_cons_of_neg hb]
        exact Or.inr ⟨b, _, rfl, by simpa using hb, Ne.symm hval.1.1, Ne.symm hval.2.1⟩

/-- **An unquoted value with white space is never read back.** -/
theorem dsnValue_ne {val tail : Bytes} (hval : ¬Written val) (htail : Follows tail) {v : Bytes × Bytes}
    (h : dsnValue ((val ++ tail).dropWhile isSpace) = some v) : v.1 ≠ val := by
  unfold Written at hval
  rw [not_or] at hval
  obtain ⟨hnone, hspace⟩ := hval
  simp only [not_or] at hnone
  cases val with
  | nil => exact absurd (fun b hb => absurd hb List.not_mem_nil) hspace
  | cons b val =>
      by_cases hb : isSpace b = true
      · rcases dropWhile_blank hnone.2 htail with hl | ⟨c, rest, hl, hc, hquote, hslash⟩
        · rw [hl] at h
          cases h
          simp
        · rw [hl, dsnValue, if_neg (by simpa using hquote), Code.scan_plain rest hslash hc] at h
          obtain ⟨text, rest'⟩ := v
          obtain ⟨v', -, hv⟩ := Code.eq_cons_of_map h
          rw [hv]
          intro heq
          rw [(List.cons.inj heq).1, hb] at hc
          cases hc
      · obtain ⟨a, ha, hblank⟩ : ∃ a ∈ b :: val, isSpace a = true := by
          by_contra hall
          apply hspace
          intro a ha
          rw [← Bool.not_eq_true]
          exact fun hblank => hall ⟨a, ha, hblank⟩
        obtain ⟨w, hfind⟩ := Option.isSome_iff_exists.mp (List.find?_isSome.mpr ⟨a, ha, hblank⟩)
        obtain ⟨hw, x, y, hsplit, hx⟩ := List.find?_eq_some_iff_append.mp hfind
        have hplain : ∀ a ∈ x, a ≠ dsnCode.esc ∧ isSpace a = false := by
          intro a ha
          refine ⟨?_, by simpa using hx a ha⟩
          rintro rfl
          exact hnone.2.2 (hsplit ▸ List.mem_append_left _ ha)
        have hw' : w ≠ dsnCode.esc := by
          rintro rfl
          exact absurd hw (by decide)
        have hquote : b ≠ 39 := fun hb => hnone.2.1 (hb ▸ List.mem_cons_self)
        rw [List.cons_append, List.dropWhile_cons_of_neg hb, dsnValue, if_neg (by simpa using hquote),
          ← List.cons_append, hsplit, List.append_assoc, Code.scan_append hplain, List.cons_append,
          Code.scan_stop _ hw' hw] at h
        cases h
        rw [hsplit]
        simp

/-! ## Settings -/

/-- A keyword: it starts with none of the special bytes, and has neither white space nor an equals sign. -/
structure Keyword (key : Bytes) : Prop where
  first : ∃ c rest, key = c :: rest ∧ PlainStart c
  bytes : ∀ b ∈ key, isKeyByte b = true

section Settings
variable {pairs : List (Bytes × Bytes)} {fuel : Nat}

theorem settings_setting {key : Bytes} (hkey : Keyword key) (l : Bytes) :
    settings (fuel + 1) (key ++ 61 :: l) = (dsnValue (l.dropWhile isSpace)).bind fun v =>
      (settings fuel v.2).map ((key, v.1) :: ·) := by
  obtain ⟨c, rest, hcons, hc, -⟩ := hkey.first
  have hfront : (key ++ 61 :: l).dropWhile isSpace = key ++ 61 :: l := by
    rw [hcons, List.cons_append, List.dropWhile_cons_of_neg (by simp [hc])]
  have hne : key ++ 61 :: l ≠ [] := by simp
  rw [settings]
  simp only [hfront, if_neg hne, dropWhile_append_stop hkey.bytes (show isKeyByte 61 = false by decide),
    takeWhile_append_stop hkey.bytes (show isKeyByte 61 = false by decide)]
  rw [List.dropWhile_cons_of_neg (by decide), List.head?_cons, if_pos rfl, List.tail_cons]

theorem settings_blank (l : Bytes) : settings fuel (32 :: l) = settings fuel l := by
  cases fuel with
  | zero => rfl
  | succ fuel =>
      have hskip : (32 :: l).dropWhile isSpace = l.dropWhile isSpace := List.dropWhile_cons_of_pos (by decide)
      rw [settings, settings, hskip]

/-- The text behind the first setting. -/
def dsnTail : List (Bytes × Bytes) → Bytes
  | [] => []
  | p :: pairs => 32 :: dsnText (p :: pairs)

theorem dsnText_cons (p : Bytes × Bytes) (pairs : List (Bytes × Bytes)) :
    dsnText (p :: pairs) = p.1 ++ 61 :: (valueText p.2 ++ dsnTail pairs) := by
  unfold dsnText
  cases pairs with
  | nil =>
      rw [List.map_cons, List.map_nil, List.intercalate_singleton, kv_eq]
      simp [dsnTail]
  | cons q pairs =>
      rw [List.map_cons, List.map_cons, List.intercalate_cons_cons, kv_eq]
      simp [dsnTail, dsnText]

theorem settings_dsnTail : settings fuel (dsnTail pairs) = settings fuel (dsnText pairs) := by
  cases pairs with
  | nil => rfl
  | cons p pairs => exact settings_blank _

theorem follows_dsnTail (hkeys : ∀ p ∈ pairs, Keyword p.1) : Follows (dsnTail pairs) := by
  cases pairs with
  | nil => exact Or.inl rfl
  | cons p pairs =>
      obtain ⟨c, rest, hcons, hc⟩ := (hkeys p List.mem_cons_self).first
      refine Or.inr ⟨c, rest ++ 61 :: (valueText p.2 ++ dsnTail pairs), ?_, hc⟩
      rw [dsnTail, dsnText_cons, hcons]
      rfl

/-- **Settings are read back from their text exactly if every value is quoted or has no white space.** -/
theorem settings_text_iff (hkeys : ∀ p ∈ pairs, Keyword p.1) (hfuel : pairs.length < fuel) :
    settings fuel (dsnText pairs) = some pairs ↔ ∀ p ∈ pairs, Written p.2 := by
  induction pairs generalizing fuel with
  | nil =>
      cases fuel with
      | zero => cases hfuel
      | succ fuel => exact ⟨fun _ p hp => absurd hp List.not_mem_nil, fun _ => rfl⟩
  | cons p pairs ih =>
      obtain ⟨hkey, hkeys⟩ := List.forall_mem_cons.mp hkeys
      cases fuel with
      | zero => cases hfuel
      | succ fuel =>
          have hfuel : pairs.length < fuel := Nat.lt_of_succ_lt_succ hfuel
          rw [dsnText_cons, settings_setting hkey, List.forall_mem_cons]
          by_cases hval : Written p.2
          · rw [dsnValue_valueText hval (follows_dsnTail hkeys), Option.bind_some, settings_dsnTail,
              ← ih hkeys hfuel]
            simp [hval]
          · rw [valueText_eq_self hval]
            simp only [hval, false_and, iff_false]
            intro h
            obtain ⟨v, hv, h⟩ := Option.bind_eq_some_iff.mp h
            obtain ⟨rest, -, heq⟩ := Option.map_eq_some_iff.mp h
            have hne := dsnValue_ne hval (follows_dsnTail hkeys) hv
            exact hne (congrArg Prod.snd (List.cons.inj heq).1)

theorem length_le_dsnText (pairs : List (Bytes × Bytes)) : pairs.length ≤ (dsnText pairs).length := by
  have hsetting : ∀ x ∈ pairs.map fun p => kv p.1 p.2, x ≠ [] := by
    rw [List.forall_mem_map]
    intro p _
    simp [kv_eq]
  have hle : (pairs.map fun p => kv p.1 p.2).length ≤ (dsnText pairs).length := length_le_intercalate hsetting
  rwa [List.length_map] at hle

theorem parseDSN_text_iff (hkeys : ∀ p ∈ pairs, Keyword p.1) :
    parseDSN (dsnText pairs) = some pairs ↔ ∀ p ∈ pairs, Written p.2 :=
  settings_text_iff hkeys (Nat.lt_succ_of_le (length_le_dsnText pairs))

end Settings

/-! ## Connection strings -/

/-- An endpoint without a scheme, an equals sign, white space, a quote or a backslash. -/
structure BareEndpoint (endpoint : Bytes) : Prop where
  scheme : ¬stringBytes "://" <:+: endpoint
  equals : 61 ∉ endpoint
  space : ∀ t ∈ spaceTexts, ¬t <:+: endpoint
  quote : 39 ∉ endpoint
  backslash : 92 ∉ endpoint

/-- The host and the port an endpoint names. -/
inductive HostPort : Bytes → Bytes → Bytes → Prop
  | empty : HostPort [] (stringBytes "localhost") (stringBytes "5432")
  | port {host port : Bytes} (hport : 58 ∉ port) (hbracket : (host ++ 58 :: port).getLast? ≠ some 93) :
      HostPort (host ++ 58 :: port) host port
  | host {endpoint : Bytes} (hne : endpoint ≠ []) (hhost : 58 ∉ endpoint ∨ endpoint.getLast? = some 93) :
      HostPort endpoint endpoint (stringBytes "5432")

theorem splitHostPort_spec (endpoint : Bytes) :
    HostPort endpoint (splitHostPort endpoint).1 (splitHostPort endpoint).2 := by
  unfold splitHostPort
  by_cases hempty : endpoint = []
  · rw [if_pos hempty, hempty]
    exact HostPort.empty
  · rw [if_neg hempty]
    cases hsplit : splitLast 58 endpoint with
    | some parts =>
        obtain ⟨host, port⟩ := parts
        obtain ⟨rfl, hport⟩ := splitLast_eq_some hsplit
        dsimp only
        split_ifs with hbracket
        · exact HostPort.port hport hbracket
        · exact HostPort.host hempty (Or.inr (not_not.mp hbracket))
    | none => exact HostPort.host hempty (Or.inl (splitLast_eq_none_iff.mp hsplit))

theorem trimFront_eq_self {texts : List Bytes} {l : Bytes} (h : ∀ t ∈ texts, ¬t <+: l) (fuel : Nat) :
    trimFront texts fuel l = l := by
  cases fuel with
  | zero => rfl
  | succ fuel =>
      have hfind : texts.find? (fun t => t.isPrefixOf l) = none := by
        rw [List.find?_eq_none]
        intro t ht hpre
        exact h t ht (List.isPrefixOf_iff_prefix.mp hpre)
      rw [trimFront, hfind]

theorem trimSpace_eq_self {l : Bytes} (h : ∀ t ∈ spaceTexts, ¬t <:+: l) : trimSpace l = l := by
  unfold trimSpace
  rw [trimFront_eq_self (fun t ht hpre => h t ht hpre.isInfix), trimFront_eq_self, List.reverse_reverse]
  intro t ht hpre
  obtain ⟨s, hs, rfl⟩ := List.mem_map.mp ht
  exact h s hs (List.reverse_prefix.mp hpre).isInfix

theorem mem_spaceTexts {b : UInt8} (hb : isSpace b = true) : [b] ∈ spaceTexts := by
  have hcases : b = 9 ∨ b = 10 ∨ b = 11 ∨ b = 12 ∨ b = 13 ∨ b = 32 := by
    simp only [isSpace, Bool.or_eq_true, Bool.and_eq_true, decide_eq_true_eq, UInt8.le_iff_toNat_le,
      ← UInt8.toNat_inj] at hb ⊢
    simp only [UInt8.reduceToNat] at hb ⊢
    omega
  rcases hcases with rfl | rfl | rfl | rfl | rfl | rfl <;> decide

theorem HostPort.written {endpoint host port : Bytes} (h : HostPort endpoint host port)
    (hbare : BareEndpoint endpoint) : Written host ∧ Written port := by
  have hspace : ∀ b ∈ endpoint, isSpace b = false := by
    intro b hb
    rw [← Bool.not_eq_true]
    intro hblank
    exact hbare.space [b] (mem_spaceTexts hblank) ((List.singleton_infix_iff b endpoint).mpr hb)
  cases h with
  | empty => decide +kernel
  | port hport hbracket =>
      exact ⟨Or.inr fun b hb => hspace b (List.mem_append_left _ hb),
        Or.inr fun b hb => hspace b (List.mem_append_right _ (List.mem_cons_of_mem _ hb))⟩
  | host hne hhost => exact ⟨Or.inr hspace, by decide +kernel⟩

theorem keyword_cons {c : UInt8} {rest : Bytes} (hc : isSpace c = false ∧ c ≠ 39 ∧ c ≠ 92)
    (hbytes : ∀ b ∈ c :: rest, isKeyByte b = true) : Keyword (c :: rest) :=
  ⟨⟨c, rest, rfl, hc⟩, hbytes⟩

theorem keyword_dsnSettings (host port : Bytes) (o : DsnOptions) : ∀ p ∈ dsnSettings host port o, Keyword p.1 := by
  rw [dsnSettings, List.forall_mem_append]
  constructor
  · simp only [List.forall_mem_cons]
    exact ⟨keyword_cons (by decide +kernel) (by decide +kernel), keyword_cons (by decide +kernel) (by decide +kernel),
      keyword_cons (by decide +kernel) (by decide +kernel), keyword_cons (by decide +kernel) (by decide +kernel),
      keyword_cons (by decide +kernel) (by decide +kernel), fun p hp => absurd hp List.not_mem_nil⟩
  · split_ifs
    · rw [List.forall_mem_singleton]
      exact keyword_cons (by decide +kernel) (by decide +kernel)
    · exact fun p hp => absurd hp List.not_mem_nil

theorem written_dsnSettings_iff {host port : Bytes} (hhost : Written host) (hport : Written port) (o : DsnOptions) :
    (∀ p ∈ dsnSettings host port o, Written p.2) ↔
      Written o.user ∧ Written o.dbName ∧ Written o.sslMode ∧ Written o.password := by
  unfold dsnSettings
  by_cases hpassword : o.password = []
  · have hwritten : Written [] := by decide +kernel
    simp [hpassword, hhost, hport, hwritten]
  · simp [hpassword, hhost, hport]

/-- **A connection string is read back exactly if every option is quoted or has no white space.** -/
theorem dsn_round_trip_iff {endpoint : Bytes} (hbare : BareEndpoint endpoint) (o : DsnOptions) :
    ∃ host port, HostPort endpoint host port ∧
      (parseDSN (buildDSN endpoint o) = some (dsnSettings host port o) ↔
        Written o.user ∧ Written o.dbName ∧ Written o.sslMode ∧ Written o.password) := by
  have hsplit := splitHostPort_spec endpoint
  refine ⟨_, _, hsplit, ?_⟩
  have htext : buildDSN endpoint o =
      dsnText (dsnSettings (splitHostPort endpoint).1 (splitHostPort endpoint).2 o) := by
    unfold buildDSN
    simp only [trimSpace_eq_self hbare.space]
    exact if_neg (not_or.mpr ⟨hbare.scheme, hbare.equals⟩)
  obtain ⟨hhost, hport⟩ := hsplit.written hbare
  rw [htext, parseDSN_text_iff (keyword_dsnSettings _ _ o), written_dsnSettings_iff hhost hport]

theorem bareEndpoint_db : BareEndpoint (stringBytes "db:6432") := by
  constructor <;> decide +kernel

/-- Values that need their quotes, and an empty one. -/
def quotedOptions : DsnOptions where
  user := stringBytes "o'brien"
  password := stringBytes "back\\slash and space"
  dbName := []
  sslMode := stringBytes "disable"

theorem dsn_round_trip_on_quotedOptions : ∃ host port, HostPort (stringBytes "db:6432") host port ∧
    parseDSN (buildDSN (stringBytes "db:6432") quotedOptions) = some (dsnSettings host port quotedOptions) := by
  obtain ⟨host, port, hsplit, hiff⟩ := dsn_round_trip_iff bareEndpoint_db quotedOptions
  exact ⟨host, port, hsplit, hiff.mpr (by decide +kernel)⟩

/-- A user name with a tab and a keyword behind it. -/
def tabbedOptions : DsnOptions where
  user := stringBytes "app\thost=elsewhere"
  password := []
  dbName := stringBytes "postgres"
  sslMode := stringBytes "disable"

/-- The tab is not quoted, so that the user name ends there and a second host follows. -/
theorem tab_in_user_sets_host : BareEndpoint (stringBytes "db:6432") ∧
    parseDSN (buildDSN (stringBytes "db:6432") tabbedOptions) =
      some [(stringBytes "host", stringBytes "db"), (stringBytes "port", stringBytes "6432"),
        (stringBytes "user", stringBytes "app"), (stringBytes "host", stringBytes "elsewhere"),
        (stringBytes "dbname", stringBytes "postgres"), (stringBytes "sslmode", stringBytes "disable")] :=
  ⟨bareEndpoint_db, by decide +kernel⟩

end Proofload.Drivers.Postgresql
