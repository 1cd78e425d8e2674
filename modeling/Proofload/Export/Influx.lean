import Proofload.Domain
import Proofload.Lib.Escaping
import Proofload.Lib.Maps
import Proofload.Lib.Texts
import Mathlib.Data.List.Sort

/-!
# The line protocol exporter (`core/export/influx.go`)

`Export` posts one line of InfluxDB line protocol for every snapshot: the measurement, the sorted tags, the fields
and the time. Commas, equals signs and spaces in a tag are escaped with a backslash, which is not escaped itself, and
neither is a line break. Texts are bytes.

* `decodeTags_writeTags` : what a reader makes of written tags;
* `plain_of_decodeTags` : what a reader can never make of any;
* `influx_lines_decode_iff` : for which tags a body is read back as what was exported.
-/

namespace Proofload.Export
open Lib

set_option autoImplicit false

/-! ## The code -/

/-- The text of a `float64`, as `strconv.FormatFloat` writes it: on one line, without spaces. -/
structure FloatText (F : Type) where
  f : F → Bytes
  no_newline : ∀ v, 10 ∉ f v
  no_space : ∀ v, 32 ∉ f v

structure Percentiles (F : Type) where
  count : Int
  mean : F
  p50 : F
  p90 : F
  p95 : F
  p99 : F
  p999 : F
  p9999 : F
  max : F
deriving DecidableEq

/-- A snapshot; `t` is in nanoseconds since the epoch. -/
structure LatencySnapshot (F : Type) where
  t : Int
  opType : Bytes
  throughput : F
  inFlight : Int
  errors : Int
  pct : Percentiles F
deriving DecidableEq

variable {F : Type}

def measurement : Bytes := stringBytes "proofload_latency"

/-- The order of strings. -/
def bytesLE : Bytes → Bytes → Bool
  | [], _ => true
  | _ :: _, [] => false
  | a :: l, b :: r => a < b || (a == b && bytesLE l r)

def sortedKeys (m : Map Bytes Bytes) : List Bytes := m.keys.insertionSort fun a b => bytesLE a b = true

/-- The replacer of the tags. -/
def escapeInfluxTag (s : Bytes) : Bytes :=
  s.flatMap fun b => if b = 44 then [92, 44] else if b = 61 then [92, 61] else if b = 32 then [92, 32] else [b]

/-- The integer text of a field. -/
def intField (v : Int) : Bytes := formatInt v ++ [105]

/-- The `op` tag, overlaid with the labels. -/
def tagMap (op : Bytes) (labels : Map Bytes Bytes) : Map Bytes Bytes :=
  labels ∪ (∅ : Map Bytes Bytes).insert (stringBytes "op") op

def writeInfluxTags (op : Bytes) (labels : Map Bytes Bytes) : Bytes :=
  (sortedKeys (tagMap op labels)).flatMap fun k =>
    44 :: escapeInfluxTag k ++ 61 :: escapeInfluxTag (((tagMap op labels).lookup k).getD [])

/-- The fields of a line with their texts. -/
def influxFields (fmt : FloatText F) (s : LatencySnapshot F) : List (String × Bytes) :=
  [("p50=", fmt.f s.pct.p50), (",p90=", fmt.f s.pct.p90), (",p95=", fmt.f s.pct.p95), (",p99=", fmt.f s.pct.p99),
    (",p999=", fmt.f s.pct.p999), (",p9999=", fmt.f s.pct.p9999), (",mean=", fmt.f s.pct.mean),
    (",max=", fmt.f s.pct.max), (",throughput=", fmt.f s.throughput), (",count=", intField s.pct.count),
    (",in_flight=", intField s.inFlight), (",errors=", intField s.errors)]

def writeInfluxFields (fmt : FloatText F) (s : LatencySnapshot F) : Bytes :=
  (influxFields fmt s).flatMap fun field => stringBytes field.1 ++ field.2

/-- A line without its line break. -/
def influxLine (fmt : FloatText F) (s : LatencySnapshot F) (labels : Map Bytes Bytes) : Bytes :=
  measurement ++ writeInfluxTags s.opType labels ++ 32 :: writeInfluxFields fmt s ++ 32 :: formatInt s.t

def writeInfluxLine (fmt : FloatText F) (s : LatencySnapshot F) (labels : Map Bytes Bytes) : Bytes :=
  influxLine fmt s labels ++ [10]

/-- The body that `Export` posts; without snapshots it posts nothing. -/
def influxBody (fmt : FloatText F) (snaps : List (LatencySnapshot F)) (labels : Map Bytes Bytes) : Option Bytes :=
  if snaps = [] then none else some (snaps.flatMap fun s => writeInfluxLine fmt s labels)

/-! ## The line protocol -/

def isSeparator (b : UInt8) : Bool := b = 44 || b = 61 || b = 32

/-- A backslash escapes commas, equals signs and spaces, and stands for itself in front of anything else. -/
def tagCode : Code UInt8 where
  esc := 92
  letter b := if isSeparator b then some b else none
  symbol b := if isSeparator b then some b else none
  lenient := true

/-- Tags up to the first unescaped space, at most `fuel` of them. -/
def decodeTags : Nat → Bytes → Option (List (Bytes × Bytes))
  | 0, _ => none
  | fuel + 1, l =>
      if l.head? = some 32 then some []
      else if l.head? = some 44 then
        (tagCode.scan isSeparator l.tail).bind fun key =>
          if key.2.head? = some 61 then
            (tagCode.scan isSeparator key.2.tail).bind fun value =>
              (decodeTags fuel value.2).map ((key.1, value.1) :: ·)
          else none
      else none

/-- The measurement and the tags of a line. -/
def decodeLine (line : Bytes) : Option (Bytes × List (Bytes × Bytes)) :=
  (tagCode.scan isSeparator line).bind fun name => (decodeTags (line.length + 1) name.2).map (name.1, ·)

/-! ## Tags -/

theorem tagCode_bare : tagCode.Bare isSeparator where
  symbol_letter a b h := by
    simp only [tagCode] at h ⊢
    split_ifs at h with ha
    cases h
    exact if_pos ha
  stop_letter a h := by simp [tagCode, h]
  lenient := rfl
  esc_letter := rfl
  esc_symbol := rfl
  letter_of_symbol a h := h
  symbol_ne_esc a x h := by
    simp only [tagCode] at h ⊢
    split_ifs at h with ha
    cases h
    rintro rfl
    exact absurd ha (by decide)
  stop_symbol a h := by simp [tagCode, h]

theorem escapeInfluxTag_eq (s : Bytes) : escapeInfluxTag s = tagCode.escape s := by
  unfold escapeInfluxTag Code.escape
  apply List.flatMap_congr
  intro b _
  by_cases h₁ : b = 44
  · rw [if_pos h₁, h₁]
    rfl
  · by_cases h₂ : b = 61
    · rw [if_neg h₁, if_pos h₂, h₂]
      rfl
    · by_cases h₃ : b = 32
      · rw [if_neg h₁, if_neg h₂, if_pos h₃, h₃]
        rfl
      · have hplain : tagCode.letter b = none := by simp [tagCode, isSeparator, h₁, h₂, h₃]
        rw [if_neg h₁, if_neg h₂, if_neg h₃, hplain]
        rfl

theorem newline_mem_escapeInfluxTag (s : Bytes) : 10 ∈ escapeInfluxTag s ↔ 10 ∈ s := by
  unfold escapeInfluxTag
  simp only [List.mem_flatMap]
  constructor
  · rintro ⟨b, hb, hmem⟩
    split_ifs at hmem
    · simp at hmem
    · simp at hmem
    · simp at hmem
    · rwa [List.mem_singleton.mp hmem]
  · intro h
    exact ⟨10, h, by decide⟩

/-- Tags as they are written. -/
def writeTags (pairs : List (Bytes × Bytes)) : Bytes :=
  pairs.flatMap fun p => 44 :: escapeInfluxTag p.1 ++ 61 :: escapeInfluxTag p.2

/-- A text that does not end in a backslash. -/
def EndsPlain (s : Bytes) : Prop := s.getLast? ≠ some 92

instance (s : Bytes) : Decidable (EndsPlain s) := inferInstanceAs (Decidable (s.getLast? ≠ some 92))

theorem scan_tag {s : Bytes} (hs : EndsPlain s) {t : UInt8} (ht : isSeparator t = true) (rest : Bytes) :
    tagCode.scan isSeparator (escapeInfluxTag s ++ t :: rest) = some (s, t :: rest) := by
  rw [escapeInfluxTag_eq]
  refine tagCode_bare.scan_escape hs ?_ ht rest
  rintro rfl
  exact absurd ht (by decide)

theorem decodeTags_tag {fuel : Nat} {l l' l'' key value : Bytes}
    (hkey : tagCode.scan isSeparator l = some (key, 61 :: l'))
    (hvalue : tagCode.scan isSeparator l' = some (value, l'')) :
    decodeTags (fuel + 1) (44 :: l) = (decodeTags fuel l'').map ((key, value) :: ·) := by
  rw [decodeTags, if_neg (by simp), if_pos List.head?_cons, List.tail_cons, hkey, Option.bind_some,
    if_pos List.head?_cons, List.tail_cons, hvalue, Option.bind_some]

/-- A tag set that is read ends, or has a key in front of an equals sign, a value, and the others behind it. -/
theorem decodeTags_eq_some {fuel : Nat} {l : Bytes} {pairs : List (Bytes × Bytes)}
    (h : decodeTags (fuel + 1) l = some pairs) : pairs = [] ∨ ∃ key value l₀ l₁ l₂ rest,
      tagCode.scan isSeparator l₀ = some (key, 61 :: l₁) ∧ tagCode.scan isSeparator l₁ = some (value, l₂) ∧
      decodeTags fuel l₂ = some rest ∧ pairs = (key, value) :: rest := by
  rw [decodeTags] at h
  split_ifs at h with hspace hcomma
  · exact Or.inl (Option.some.inj h).symm
  · obtain ⟨⟨key, l₁⟩, hkey, h⟩ := Option.bind_eq_some_iff.mp h
    dsimp only at h
    split_ifs at h with heq
    obtain ⟨⟨value, l₂⟩, hvalue, h⟩ := Option.bind_eq_some_iff.mp h
    obtain ⟨rest, hrest, rfl⟩ := Option.map_eq_some_iff.mp h
    have hl₁ : l₁ = 61 :: l₁.tail := (List.cons_head?_tail heq).symm
    rw [hl₁] at hkey
    exact Or.inr ⟨key, value, _, _, l₂, rest, hkey, hvalue, hrest, rfl⟩

theorem ne_nil_of_decodeTags {fuel : Nat} {l : Bytes} {pairs : List (Bytes × Bytes)}
    (h : decodeTags fuel l = some pairs) : l ≠ [] := by
  rintro rfl
  cases fuel with
  | zero => cases h
  | succ fuel => simp [decodeTags] at h

theorem writeTags_head (pairs : List (Bytes × Bytes)) (rest : Bytes) :
    ∃ t l, writeTags pairs ++ 32 :: rest = t :: l ∧ isSeparator t = true := by
  cases pairs with
  | nil => exact ⟨32, rest, rfl, rfl⟩
  | cons p pairs => exact ⟨44, _, rfl, rfl⟩

theorem length_le_writeTags (pairs : List (Bytes × Bytes)) : pairs.length ≤ (writeTags pairs).length :=
  length_le_flatMap fun _ _ => List.cons_ne_nil 44 _

/-- **Written tags are read back**, if none of their texts ends in a backslash. -/
theorem decodeTags_writeTags {pairs : List (Bytes × Bytes)} (hplain : ∀ p ∈ pairs, EndsPlain p.1 ∧ EndsPlain p.2)
    {fuel : Nat} (hfuel : pairs.length < fuel) (rest : Bytes) :
    decodeTags fuel (writeTags pairs ++ 32 :: rest) = some pairs := by
  induction pairs generalizing fuel with
  | nil =>
      cases fuel with
      | zero => cases hfuel
      | succ fuel => rfl
  | cons p pairs ih =>
      obtain ⟨hkey, hvalue⟩ := hplain p List.mem_cons_self
      cases fuel with
      | zero => cases hfuel
      | succ fuel =>
          have hrest := ih (fun q hq => hplain q (List.mem_cons_of_mem p hq)) (Nat.lt_of_succ_lt_succ hfuel)
          obtain ⟨t, l, hl, ht⟩ := writeTags_head pairs rest
          have htext : writeTags (p :: pairs) ++ 32 :: rest =
              44 :: (escapeInfluxTag p.1 ++ 61 :: (escapeInfluxTag p.2 ++ t :: l)) := by
            rw [← hl]
            simp [writeTags]
          rw [htext, decodeTags_tag (scan_tag hkey rfl _) (scan_tag hvalue ht l), ← hl, hrest]
          rfl

/-- **A text that ends in a backslash is never read** as the key or the value of a tag. -/
theorem plain_of_decodeTags {fuel : Nat} {l : Bytes} {pairs : List (Bytes × Bytes)}
    (h : decodeTags fuel l = some pairs) : ∀ p ∈ pairs, EndsPlain p.1 ∧ EndsPlain p.2 := by
  induction fuel generalizing l pairs with
  | zero => cases h
  | succ fuel ih =>
      rcases decodeTags_eq_some h with rfl | ⟨key, value, l₀, l₁, l₂, rest, hkey, hvalue, hrest, rfl⟩
      · exact fun p hp => absurd hp List.not_mem_nil
      · obtain ⟨t, l₃, rfl⟩ := List.exists_cons_of_ne_nil (ne_nil_of_decodeTags hrest)
        intro p hp
        rcases List.mem_cons.mp hp with rfl | hp
        · exact ⟨tagCode_bare.not_esc_of_scan hkey, tagCode_bare.not_esc_of_scan hvalue⟩
        · exact ih hrest p hp

/-! ## Lines -/

section Line
variable (fmt : FloatText F) (s : LatencySnapshot F) (labels : Map Bytes Bytes)

/-- The tags of a map, sorted. -/
def tagPairs (m : Map Bytes Bytes) : List (Bytes × Bytes) := (sortedKeys m).map fun k => (k, (m.lookup k).getD [])

theorem mem_tagPairs (m : Map Bytes Bytes) (k v : Bytes) : (k, v) ∈ tagPairs m ↔ m.lookup k = some v := by
  unfold tagPairs sortedKeys
  simp only [List.mem_map, List.mem_insertionSort, Map.mem_keys_iff, Prod.mk.injEq]
  constructor
  · rintro ⟨k, hk, rfl, rfl⟩
    obtain ⟨v, hv⟩ := Option.isSome_iff_exists.mp hk
    rw [hv]
    rfl
  · intro h
    exact ⟨k, by rw [h]; rfl, rfl, by rw [h]; rfl⟩

theorem writeInfluxTags_eq (op : Bytes) : writeInfluxTags op labels = writeTags (tagPairs (tagMap op labels)) := by
  unfold writeInfluxTags writeTags tagPairs
  rw [List.flatMap_map]

theorem newline_notMem_fields : 10 ∉ writeInfluxFields fmt s := by
  have hint : ∀ n, 10 ∉ intField n := by
    intro n h
    rcases List.mem_append.mp h with h | h
    · exact notMem_formatInt (by decide) n h
    · simp at h
  have hfields : ∀ field ∈ influxFields fmt s, 10 ∉ stringBytes field.1 ∧ 10 ∉ field.2 := by
    simp only [influxFields, List.forall_mem_cons, fmt.no_newline, hint, not_false_eq_true, and_true]
    decide +kernel
  intro h
  obtain ⟨field, hfield, h⟩ := List.mem_flatMap.mp h
  rcases List.mem_append.mp h with h | h
  · exact (hfields field hfield).1 h
  · exact (hfields field hfield).2 h

theorem newline_mem_influxLine : 10 ∈ influxLine fmt s labels ↔
    ∃ k v, (tagMap s.opType labels).lookup k = some v ∧ (10 ∈ k ∨ 10 ∈ v) := by
  have htags : 10 ∈ influxLine fmt s labels ↔ 10 ∈ writeInfluxTags s.opType labels := by
    have hname : 10 ∉ measurement := by decide +kernel
    have hfields := newline_notMem_fields fmt s
    have htime : 10 ∉ formatInt s.t := notMem_formatInt (by decide) s.t
    unfold influxLine
    simp [hname, hfields, htime]
  rw [htags, writeInfluxTags_eq, writeTags, List.mem_flatMap]
  constructor
  · rintro ⟨⟨k, v⟩, hp, h⟩
    refine ⟨k, v, (mem_tagPairs _ k v).mp hp, ?_⟩
    simpa [newline_mem_escapeInfluxTag] using h
  · rintro ⟨k, v, hp, h⟩
    refine ⟨(k, v), (mem_tagPairs _ k v).mpr hp, ?_⟩
    simpa [newline_mem_escapeInfluxTag] using h

/-- A line is read as the measurement and the tag map. -/
def LineDecodes (line : Bytes) (tags : Map Bytes Bytes) : Prop :=
  ∃ pairs, decodeLine line = some (measurement, pairs) ∧ ∀ k v, (k, v) ∈ pairs ↔ tags.lookup k = some v

theorem lineDecodes_iff : LineDecodes (influxLine fmt s labels) (tagMap s.opType labels) ↔
    ∀ k v, (tagMap s.opType labels).lookup k = some v → EndsPlain k ∧ EndsPlain v := by
  constructor
  · rintro ⟨pairs, hdecode, hpairs⟩ k v hkv
    obtain ⟨name, -, hdecode⟩ := Option.bind_eq_some_iff.mp hdecode
    obtain ⟨pairs', htags, heq⟩ := Option.map_eq_some_iff.mp hdecode
    obtain ⟨-, rfl⟩ := Prod.mk.inj heq
    exact plain_of_decodeTags htags (k, v) ((hpairs k v).mpr hkv)
  · intro hplain
    refine ⟨tagPairs (tagMap s.opType labels), ?_, mem_tagPairs _⟩
    have hpairs : ∀ p ∈ tagPairs (tagMap s.opType labels), EndsPlain p.1 ∧ EndsPlain p.2 := by
      rintro ⟨k, v⟩ hp
      exact hplain k v ((mem_tagPairs _ k v).mp hp)
    obtain ⟨t, l, hl, ht⟩ := writeTags_head (tagPairs (tagMap s.opType labels))
      (writeInfluxFields fmt s ++ 32 :: formatInt s.t)
    have hline : influxLine fmt s labels = escapeInfluxTag measurement ++ t :: l := by
      have hname : escapeInfluxTag measurement = measurement := by decide +kernel
      rw [← hl, hname, ← writeInfluxTags_eq]
      simp [influxLine]
    have hfuel : (tagPairs (tagMap s.opType labels)).length < (influxLine fmt s labels).length + 1 := by
      have := length_le_writeTags (tagPairs (tagMap s.opType labels))
      have := congrArg List.length hl
      rw [hline]
      simp only [List.length_append, List.length_cons] at this ⊢
      omega
    unfold decodeLine
    rw [hline, scan_tag (by decide +kernel) ht, ← hline, Option.bind_some, ← hl, decodeTags_writeTags hpairs hfuel]
    rfl

end Line

/-- A text without line breaks that does not end in a backslash. -/
def Plain (s : Bytes) : Prop := 10 ∉ s ∧ EndsPlain s

instance (s : Bytes) : Decidable (Plain s) := inferInstanceAs (Decidable (10 ∉ s ∧ EndsPlain s))

/-- **When influx lines decode to what was exported.** The body has exactly one line for every snapshot, and every line
is read as the tag map of its snapshot, exactly if no key and no value of these tag maps contains a line break or ends
in a backslash. -/
theorem influx_lines_decode_iff (fmt : FloatText F) (snaps : List (LatencySnapshot F)) (labels : Map Bytes Bytes) :
    ((lines 10 ((influxBody fmt snaps labels).getD [])).length = snaps.length ∧
      ∀ (i : Nat) (s : LatencySnapshot F) (line : Bytes), snaps[i]? = some s →
        (lines 10 ((influxBody fmt snaps labels).getD []))[i]? = some line →
        LineDecodes line (tagMap s.opType labels)) ↔
    ∀ s ∈ snaps, ∀ k v, (tagMap s.opType labels).lookup k = some v → Plain k ∧ Plain v := by
  have hbody : (influxBody fmt snaps labels).getD [] =
      (snaps.map fun s => influxLine fmt s labels).flatMap (· ++ [10]) := by
    rw [List.flatMap_map]
    unfold influxBody
    split_ifs with hsnaps
    · rw [hsnaps]
      rfl
    · rfl
  have hbreaks : (lines 10 ((snaps.map fun s => influxLine fmt s labels).flatMap (· ++ [10]))).length = snaps.length ↔
      ∀ s ∈ snaps, 10 ∉ influxLine fmt s labels := by
    have h := @length_lines_flatMap _ _ 10 (snaps.map fun s => influxLine fmt s labels)
    rwa [List.length_map, List.forall_mem_map] at h
  rw [hbody]
  constructor
  · rintro ⟨hlength, hdecode⟩ s hs k v hkv
    have hnone := hbreaks.mp hlength
    obtain ⟨i, hi⟩ := List.mem_iff_getElem?.mp hs
    have hline : (lines 10 ((snaps.map fun s => influxLine fmt s labels).flatMap (· ++ [10])))[i]? =
        some (influxLine fmt s labels) := by
      rw [lines_flatMap (List.forall_mem_map.mpr hnone), List.getElem?_map, hi]
      rfl
    have hends := (lineDecodes_iff fmt s labels).mp (hdecode i s _ hi hline) k v hkv
    have hk : ¬(10 ∈ k ∨ 10 ∈ v) := fun h => hnone s hs ((newline_mem_influxLine fmt s labels).mpr ⟨k, v, hkv, h⟩)
    exact ⟨⟨fun h => hk (Or.inl h), hends.1⟩, ⟨fun h => hk (Or.inr h), hends.2⟩⟩
  · intro hplain
    have hnone : ∀ s ∈ snaps, 10 ∉ influxLine fmt s labels := by
      intro s hs h
      obtain ⟨k, v, hkv, h⟩ := (newline_mem_influxLine fmt s labels).mp h
      obtain ⟨hk, hv⟩ := hplain s hs k v hkv
      exact h.elim hk.1 hv.1
    refine ⟨hbreaks.mpr hnone, ?_⟩
    intro i s line hi hline
    rw [lines_flatMap (List.forall_mem_map.mpr hnone), List.getElem?_map, hi] at hline
    obtain rfl := Option.some.inj hline
    refine (lineDecodes_iff fmt s labels).mpr ?_
    intro k v hkv
    obtain ⟨hk, hv⟩ := hplain s (List.mem_of_getElem? hi) k v hkv
    exact ⟨hk.2, hv.2⟩

/-! ## Bodies that are not read back -/

/-- Floats that are whole numbers. -/
def wholeText : FloatText Int where
  f := formatInt
  no_newline := notMem_formatInt (by decide)
  no_space := notMem_formatInt (by decide)

def wholeSnapshot (op : String) : LatencySnapshot Int :=
  { t := 1000, opType := stringBytes op, throughput := 9, inFlight := 4, errors := 0,
    pct := { count := 9, mean := 2, p50 := 1, p90 := 2, p95 := 3, p99 := 4, p999 := 5, p9999 := 6, max := 7 } }

/-- An operation type that ends in a backslash hides the end of the tag set; a label with a line break breaks the
line of its snapshot in two. -/
theorem influx_lines_not_decoded :
    decodeLine (influxLine wholeText (wholeSnapshot "read\\") ∅) = none ∧
    (lines 10 ((influxBody wholeText [wholeSnapshot "read"]
      ((∅ : Map Bytes Bytes).insert (stringBytes "run") (stringBytes "a\nb"))).getD [])).length = 2 := by
  decide +kernel

/-- Commas, spaces, equals signs and inner backslashes are read back. -/
example : decodeLine (influxLine wholeText (wholeSnapshot "get, a=\\ b") ∅) =
    some (measurement, [(stringBytes "op", stringBytes "get, a=\\ b")]) := by decide +kernel

end Proofload.Export
