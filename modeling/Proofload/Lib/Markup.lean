import Mathlib.Data.List.Induction
import Mathlib.Data.Option.Basic

/-!
# Markup

Documents of nested elements with attributes, texts and named references, over an arbitrary vocabulary; how they are
written, and a reader of what is written. The reader knows the elements and attributes of the vocabulary and refuses
every other one, so a document that is read holds nothing else.

* `feed_escapeChar_data`, `feed_escape_value` : what is escaped is read as it was, in content and in an attribute;
* `feed_printAll` : a written document is read piece by piece;
* `nestAll_pieces` : the pieces of a document nest to the document;
* `parse_printAll` : **what is written is read back**.
-/

namespace Lib.Markup

set_option autoImplicit false

/-! ## Escaped texts -/

/-- The reference a special symbol is written as. -/
def entity : Char → Option (List Char)
  | '&' => some ['a', 'm', 'p']
  | '<' => some ['l', 't']
  | '>' => some ['g', 't']
  | '"' => some ['#', '3', '4']
  | '\'' => some ['#', '3', '9']
  | _ => none

def entityChar : List Char → Option Char
  | ['a', 'm', 'p'] => some '&'
  | ['l', 't'] => some '<'
  | ['g', 't'] => some '>'
  | ['#', '3', '4'] => some '"'
  | ['#', '3', '9'] => some '\''
  | _ => none

def escapeChar (c : Char) : List Char := (entity c).elim [c] fun r => '&' :: r ++ [';']

def escape (s : List Char) : List Char := s.flatMap escapeChar

theorem escape_cons (c : Char) (s : List Char) : escape (c :: s) = escapeChar c ++ escape s := rfl

theorem escapeChar_plain {c : Char} (h : entity c = none) : escapeChar c = [c] := by
  rw [escapeChar, h]
  rfl

theorem escapeChar_entity {c : Char} {r : List Char} (h : entity c = some r) :
    escapeChar c = '&' :: r ++ [';'] := by
  rw [escapeChar, h]
  rfl

theorem escape_plain {s : List Char} (h : ∀ c ∈ s, entity c = none) : escape s = s := by
  induction s with
  | nil => rfl
  | cons c s ih =>
      obtain ⟨hc, hs⟩ := List.forall_mem_cons.mp h
      rw [escape_cons, escapeChar_plain hc, ih hs]
      rfl

theorem entityChar_entity {c : Char} {r : List Char} (h : entity c = some r) :
    entityChar r = some c ∧ ';' ∉ r := by
  unfold entity at h
  split at h
  all_goals cases h
  all_goals exact ⟨rfl, by decide⟩

/-- The bytes of the special symbols. -/
def special : List UInt8 := [38, 60, 62, 34, 39]

/-- Whether a string holds no special symbol, read off its bytes. -/
def plain (s : String) : Bool := s.toByteArray.data.toList.all fun b => !special.contains b

theorem byte_of_entity {c : Char} {r : List Char} (h : entity c = some r) :
    ∃ b ∈ special, b ∈ String.utf8EncodeChar c := by
  unfold entity at h
  split at h
  all_goals cases h
  all_goals decide

theorem entity_of_plain {s : String} (h : plain s = true) : ∀ c ∈ s.toList, entity c = none := by
  intro c hc
  cases hentity : entity c with
  | none => rfl
  | some r =>
      obtain ⟨b, hb, hbyte⟩ := byte_of_entity hentity
      have hmem : b ∈ s.toByteArray.data.toList := by
        rw [← String.utf8Encode_toList]
        simpa [List.utf8Encode] using ⟨c, hc, hbyte⟩
      have := List.all_eq_true.mp h b hmem
      simp [hb] at this

theorem not_special {c : Char} (h : entity c = none) : c ≠ '<' ∧ c ≠ '&' ∧ c ≠ '"' := by
  refine ⟨?_, ?_, ?_⟩
  all_goals
    rintro rfl
    cases h

/-! ## Documents -/

def isNameChar (c : Char) : Bool := c.isAlphanum || c == '-'

/-- A family of names, each written as a word that leads back to it. -/
structure Names (T : Type) where
  word : T → List Char
  read : List Char → Option T
  read_word : ∀ t, read (word t) = some t
  plain : ∀ t, word t ≠ [] ∧ ∀ c ∈ word t, isNameChar c = true

/-- The names of a finite family, from the word of each. -/
def Names.ofWords {T : Type} (word : T → String) (all : List T)
    (hread : ∀ t, (all.find? fun t' => word t' == word t) = some t)
    (hplain : ∀ t, (!(word t).toList.isEmpty && (word t).toList.all isNameChar) = true) : Names T where
  word t := (word t).toList
  read s := all.find? fun t => word t == String.ofList s
  read_word t := by rw [String.ofList_toList, hread t]
  plain t := by simpa using hplain t

/-- Elements with content (`tags`), elements without (`leaves`, closed by a slash or not), elements whose content is
taken literally (`raws`), attributes and references. -/
structure Vocabulary (Tag Leaf Raw Attr Ref : Type) where
  tags : Names Tag
  leaves : Names Leaf
  raws : Names Raw
  attrs : Names Attr
  refs : Names Ref
  slash : Leaf → Bool
  leaf_tag : ∀ t, leaves.read (tags.word t) = none
  raw_tag : ∀ t, raws.read (tags.word t) = none
  raw_leaf : ∀ l, raws.read (leaves.word l) = none
  entity_ref : ∀ r, entityChar (refs.word r) = none

/-- The content of a literal element. -/
structure Literal where
  symbols : List Char
  no_tag : '<' ∉ symbols

def Literal.push (s : Literal) (c : Char) (hc : c ≠ '<') : Literal :=
  ⟨s.symbols ++ [c], by simpa using ⟨s.no_tag, hc.symm⟩⟩

inductive Node (Tag Leaf Raw Attr Ref : Type) where
  | char (c : Char)
  | ref (r : Ref)
  | leaf (l : Leaf) (attrs : List (Attr × List Char))
  | raw (r : Raw) (attrs : List (Attr × List Char)) (s : Literal)
  | elem (t : Tag) (attrs : List (Attr × List Char)) (children : List (Node Tag Leaf Raw Attr Ref))

variable {Tag Leaf Raw Attr Ref : Type} (V : Vocabulary Tag Leaf Raw Attr Ref)

def printAttr (a : Attr × List Char) : List Char := ' ' :: V.attrs.word a.1 ++ '=' :: '"' :: escape a.2 ++ ['"']

def printAttrs (as : List (Attr × List Char)) : List Char := as.flatMap (printAttr V)

def printLeaf (l : Leaf) (as : List (Attr × List Char)) : List Char :=
  '<' :: V.leaves.word l ++ printAttrs V as ++ if V.slash l then ['/', '>'] else ['>']

def printRaw (r : Raw) (as : List (Attr × List Char)) (s : Literal) : List Char :=
  '<' :: V.raws.word r ++ printAttrs V as ++ '>' :: s.symbols ++ '<' :: '/' :: V.raws.word r ++ ['>']

mutual

def Node.print : Node Tag Leaf Raw Attr Ref → List Char
  | .char c => escapeChar c
  | .ref r => '&' :: V.refs.word r ++ [';']
  | .leaf l as => printLeaf V l as
  | .raw r as s => printRaw V r as s
  | .elem t as ks =>
      '<' :: V.tags.word t ++ printAttrs V as ++ '>' :: printAll ks ++ '<' :: '/' :: V.tags.word t ++ ['>']

def printAll : List (Node Tag Leaf Raw Attr Ref) → List Char
  | [] => []
  | n :: ns => n.print ++ printAll ns

end

theorem printAll_append (ns ms : List (Node Tag Leaf Raw Attr Ref)) :
    printAll V (ns ++ ms) = printAll V ns ++ printAll V ms := by
  induction ns with
  | nil => rfl
  | cons n ns ih => rw [List.cons_append, printAll, printAll, ih, List.append_assoc]

/-- The nodes of a text. -/
def text (s : List Char) : List (Node Tag Leaf Raw Attr Ref) := s.map .char

theorem printAll_text (s : List Char) : printAll V (text s) = escape s := by
  induction s with
  | nil => rfl
  | cons c s ih => rw [escape_cons, ← ih]; rfl

/-! ## Reading the pieces -/

/-- A start tag as far as it is read. -/
structure Head where
  name : List Char
  attrs : List (List Char × List Char)

inductive Piece where
  | char (c : Char)
  | ref (r : List Char)
  | start (h : Head) (slash : Bool)
  | raw (h : Head) (s : Literal)
  | stop (name : List Char)

/-- Where the reader stands: in content, behind `&`, behind `<`, in a name, behind a blank in a tag, in an attribute's
name, behind its `=`, in its value, in a reference there, behind its value, behind a slash, or in literal content,
behind the `<` that ends it and in its end tag. -/
inductive Mode where
  | data
  | dataRef (r : List Char)
  | tag
  | stopName (n : List Char)
  | startName (n : List Char)
  | between (h : Head)
  | attrName (h : Head) (a : List Char)
  | attrIs (h : Head) (a : List Char)
  | value (h : Head) (a v : List Char)
  | valueRef (h : Head) (a v r : List Char)
  | valueEnd (h : Head)
  | slash (h : Head)
  | raw (h : Head) (s : Literal)
  | rawTag (h : Head) (s : Literal)
  | rawStop (h : Head) (s : Literal) (n : List Char)

structure State where
  mode : Mode
  out : List Piece

/-- What may follow the name or an attribute of a start tag. -/
def afterHead (out : List Piece) (h : Head) (c : Char) : Option State :=
  if c = '>' then
    if (V.raws.read h.name).isSome then some ⟨.raw h ⟨[], List.not_mem_nil⟩, out⟩
    else some ⟨.data, out ++ [.start h false]⟩
  else if c = ' ' then some ⟨.between h, out⟩
  else if c = '/' then some ⟨.slash h, out⟩
  else none

def step : State → Char → Option State
  | ⟨.data, out⟩, c =>
      if c = '<' then some ⟨.tag, out⟩
      else if c = '&' then some ⟨.dataRef [], out⟩
      else some ⟨.data, out ++ [.char c]⟩
  | ⟨.dataRef r, out⟩, c =>
      if c = ';' then some ⟨.data, out ++ [(entityChar r).elim (.ref r) .char]⟩
      else some ⟨.dataRef (r ++ [c]), out⟩
  | ⟨.tag, out⟩, c =>
      if c = '/' then some ⟨.stopName [], out⟩
      else if isNameChar c then some ⟨.startName [c], out⟩
      else none
  | ⟨.stopName n, out⟩, c =>
      if isNameChar c then some ⟨.stopName (n ++ [c]), out⟩
      else if c = '>' then some ⟨.data, out ++ [.stop n]⟩
      else none
  | ⟨.startName n, out⟩, c =>
      if isNameChar c then some ⟨.startName (n ++ [c]), out⟩ else afterHead V out ⟨n, []⟩ c
  | ⟨.between h, out⟩, c => if isNameChar c then some ⟨.attrName h [c], out⟩ else none
  | ⟨.attrName h a, out⟩, c =>
      if isNameChar c then some ⟨.attrName h (a ++ [c]), out⟩
      else if c = '=' then some ⟨.attrIs h a, out⟩
      else none
  | ⟨.attrIs h a, out⟩, c => if c = '"' then some ⟨.value h a [], out⟩ else none
  | ⟨.value h a v, out⟩, c =>
      if c = '"' then some ⟨.valueEnd ⟨h.name, h.attrs ++ [(a, v)]⟩, out⟩
      else if c = '&' then some ⟨.valueRef h a v [], out⟩
      else some ⟨.value h a (v ++ [c]), out⟩
  | ⟨.valueRef h a v r, out⟩, c =>
      if c = ';' then (entityChar r).map fun x => ⟨.value h a (v ++ [x]), out⟩
      else some ⟨.valueRef h a v (r ++ [c]), out⟩
  | ⟨.valueEnd h, out⟩, c => afterHead V out h c
  | ⟨.slash h, out⟩, c => if c = '>' then some ⟨.data, out ++ [.start h true]⟩ else none
  | ⟨.raw h s, out⟩, c => some ⟨if hc : c = '<' then .rawTag h s else .raw h (s.push c hc), out⟩
  | ⟨.rawTag h s, out⟩, c => if c = '/' then some ⟨.rawStop h s [], out⟩ else none
  | ⟨.rawStop h s n, out⟩, c =>
      if isNameChar c then some ⟨.rawStop h s (n ++ [c]), out⟩
      else if c = '>' ∧ n = h.name then some ⟨.data, out ++ [.raw h s]⟩
      else none

def feed : State → List Char → Option State
  | s, [] => some s
  | s, c :: l => (step V s c).bind fun s' => feed s' l

section Feed
variable (out : List Piece) (rest : List Char)

theorem feed_dataRef {r : List Char} (hr : ';' ∉ r) (q : List Char) :
    feed V ⟨.dataRef q, out⟩ (r ++ ';' :: rest) =
      feed V ⟨.data, out ++ [(entityChar (q ++ r)).elim (.ref (q ++ r)) .char]⟩ rest := by
  induction r generalizing q with
  | nil => rw [List.nil_append, List.append_nil, feed, step, if_pos rfl, Option.bind_some]
  | cons c r ih =>
      obtain ⟨hc, hr⟩ := List.ne_and_not_mem_of_not_mem_cons hr
      rw [List.cons_append, feed, step, if_neg hc.symm, Option.bind_some, ih hr, List.append_assoc,
        List.singleton_append]

theorem feed_valueRef {r : List Char} (hr : ';' ∉ r) (h : Head) (a v q : List Char) {x : Char}
    (hx : entityChar (q ++ r) = some x) :
    feed V ⟨.valueRef h a v q, out⟩ (r ++ ';' :: rest) = feed V ⟨.value h a (v ++ [x]), out⟩ rest := by
  induction r generalizing q with
  | nil =>
      rw [List.append_nil] at hx
      rw [List.nil_append, feed, step, if_pos rfl, hx, Option.map_some, Option.bind_some]
  | cons c r ih =>
      obtain ⟨hc, hr⟩ := List.ne_and_not_mem_of_not_mem_cons hr
      rw [List.cons_append, feed, step, if_neg hc.symm, Option.bind_some]
      apply ih hr
      rwa [List.append_assoc]

theorem feed_escapeChar_data (c : Char) :
    feed V ⟨.data, out⟩ (escapeChar c ++ rest) = feed V ⟨.data, out ++ [.char c]⟩ rest := by
  cases hentity : entity c with
  | none =>
      obtain ⟨hlt, hamp, -⟩ := not_special hentity
      rw [escapeChar_plain hentity, List.singleton_append, feed, step, if_neg hlt, if_neg hamp, Option.bind_some]
  | some r =>
      obtain ⟨hchar, hr⟩ := entityChar_entity hentity
      rw [escapeChar_entity hentity, List.append_assoc, List.cons_append, List.singleton_append, feed, step,
        if_neg (by decide), if_pos rfl, Option.bind_some, feed_dataRef V out rest hr, List.nil_append, hchar]
      rfl

theorem feed_escapeChar_value (h : Head) (a v : List Char) (c : Char) :
    feed V ⟨.value h a v, out⟩ (escapeChar c ++ rest) = feed V ⟨.value h a (v ++ [c]), out⟩ rest := by
  cases hentity : entity c with
  | none =>
      obtain ⟨-, hamp, hquote⟩ := not_special hentity
      rw [escapeChar_plain hentity, List.singleton_append, feed, step, if_neg hquote, if_neg hamp, Option.bind_some]
  | some r =>
      obtain ⟨hchar, hr⟩ := entityChar_entity hentity
      rw [escapeChar_entity hentity, List.append_assoc, List.cons_append, List.singleton_append, feed, step,
        if_neg (by decide), if_pos rfl, Option.bind_some, feed_valueRef V out rest hr h a v [] hchar]

theorem feed_escape_value (h : Head) (a v s : List Char) :
    feed V ⟨.value h a v, out⟩ (escape s ++ rest) = feed V ⟨.value h a (v ++ s), out⟩ rest := by
  induction s generalizing v with
  | nil => rw [List.append_nil]; rfl
  | cons c s ih =>
      rw [escape_cons, List.append_assoc, feed_escapeChar_value, ih, List.append_assoc, List.singleton_append]

theorem feed_name {mode : List Char → Mode} {w : List Char}
    (hmode : ∀ n c, isNameChar c = true → step V ⟨mode n, out⟩ c = some ⟨mode (n ++ [c]), out⟩)
    (hw : ∀ c ∈ w, isNameChar c = true) (n : List Char) :
    feed V ⟨mode n, out⟩ (w ++ rest) = feed V ⟨mode (n ++ w), out⟩ rest := by
  induction w generalizing n with
  | nil => rw [List.append_nil]; rfl
  | cons c w ih =>
      obtain ⟨hc, hw⟩ := List.forall_mem_cons.mp hw
      rw [List.cons_append, feed, hmode n c hc, Option.bind_some, ih hw, List.append_assoc, List.singleton_append]

theorem feed_startName {w : List Char} (hne : w ≠ []) (hw : ∀ c ∈ w, isNameChar c = true) :
    feed V ⟨.data, out⟩ ('<' :: w ++ rest) = feed V ⟨.startName w, out⟩ rest := by
  obtain ⟨c, w, rfl⟩ := List.exists_cons_of_ne_nil hne
  obtain ⟨hc, hw⟩ := List.forall_mem_cons.mp hw
  have hslash : c ≠ '/' := by
    rintro rfl
    exact absurd hc (by decide)
  rw [List.cons_append, feed, step, if_pos rfl, Option.bind_some, List.cons_append, feed, step, if_neg hslash,
    if_pos hc, Option.bind_some]
  exact feed_name V out rest (fun n c hc => by rw [step, if_pos hc]) hw [c]

theorem feed_stop {w : List Char} (hw : ∀ c ∈ w, isNameChar c = true) :
    feed V ⟨.data, out⟩ ('<' :: '/' :: w ++ '>' :: rest) = feed V ⟨.data, out ++ [.stop w]⟩ rest := by
  rw [List.cons_append, List.cons_append, feed, step, if_pos rfl, Option.bind_some, feed, step, if_pos rfl,
    Option.bind_some, feed_name V out _ (fun n c hc => by rw [step, if_pos hc]) hw [], List.nil_append, feed, step,
    if_neg (by decide), if_pos rfl, Option.bind_some]

/-- A mode behind the name or an attribute of a start tag. -/
def Behind (m : Mode) (h : Head) : Prop :=
  ∀ (out : List Piece) (c : Char), isNameChar c = false → step V ⟨m, out⟩ c = afterHead V out h c

theorem behind_startName (w : List Char) : Behind V (.startName w) ⟨w, []⟩ := by
  intro out c hc
  rw [step, if_neg (by rw [hc]; decide)]

theorem behind_valueEnd (h : Head) : Behind V (.valueEnd h) h := fun _ _ _ => rfl

end Feed

/-- A written attribute as it is read. -/
def rawAttr (a : Attr × List Char) : List Char × List Char := (V.attrs.word a.1, a.2)

theorem feed_attr {m : Mode} {h : Head} (hm : Behind V m h) (out : List Piece) (a : Attr × List Char)
    (rest : List Char) :
    feed V ⟨m, out⟩ (printAttr V a ++ rest) = feed V ⟨.valueEnd ⟨h.name, h.attrs ++ [rawAttr V a]⟩, out⟩ rest := by
  obtain ⟨hne, hplain⟩ := V.attrs.plain a.1
  obtain ⟨c, w, hword⟩ := List.exists_cons_of_ne_nil hne
  rw [hword] at hplain
  obtain ⟨hc, hw⟩ := List.forall_mem_cons.mp hplain
  have hassoc : printAttr V a ++ rest = ' ' :: c :: (w ++ ('=' :: '"' :: (escape a.2 ++ '"' :: rest))) := by
    simp only [printAttr, hword, List.append_assoc, List.cons_append, List.nil_append]
  rw [hassoc, feed, hm out ' ' (by decide), afterHead, if_neg (by decide), if_pos rfl, Option.bind_some, feed, step,
    if_pos hc, Option.bind_some, feed_name V out _ (fun n c hc => by rw [step, if_pos hc]) hw [c], feed, step,
    if_neg (by decide), if_pos rfl, Option.bind_some, feed, step, if_pos rfl, Option.bind_some, feed_escape_value,
    List.nil_append, feed, step, if_pos rfl, Option.bind_some, List.singleton_append, ← hword]
  rfl

theorem feed_attrs (out : List Piece) (as : List (Attr × List Char)) {m : Mode} {h : Head} (hm : Behind V m h) :
    ∃ m', Behind V m' ⟨h.name, h.attrs ++ as.map (rawAttr V)⟩ ∧
      ∀ rest, feed V ⟨m, out⟩ (printAttrs V as ++ rest) = feed V ⟨m', out⟩ rest := by
  induction as generalizing m h with
  | nil =>
      refine ⟨m, ?_, fun _ => rfl⟩
      rwa [List.map_nil, List.append_nil]
  | cons a as ih =>
      obtain ⟨m', hbehind, hfeed⟩ := ih (behind_valueEnd V ⟨h.name, h.attrs ++ [rawAttr V a]⟩)
      refine ⟨m', ?_, fun rest => ?_⟩
      · rwa [List.append_assoc] at hbehind
      · rw [printAttrs, List.flatMap_cons, List.append_assoc, feed_attr V hm]
        exact hfeed rest

theorem feed_head (out : List Piece) {w : List Char} (hw : w ≠ [] ∧ ∀ c ∈ w, isNameChar c = true)
    (as : List (Attr × List Char)) {c : Char} (hc : isNameChar c = false) (rest : List Char) :
    feed V ⟨.data, out⟩ ('<' :: w ++ (printAttrs V as ++ c :: rest)) =
      (afterHead V out ⟨w, as.map (rawAttr V)⟩ c).bind fun s => feed V s rest := by
  obtain ⟨m, hm, hfeed⟩ := feed_attrs V out as (behind_startName V w)
  rw [feed_startName V out _ hw.1 hw.2, hfeed, feed, hm out c hc, List.nil_append]

theorem feed_open (out : List Piece) {w : List Char} (hw : w ≠ [] ∧ ∀ c ∈ w, isNameChar c = true)
    (hraw : V.raws.read w = none) (as : List (Attr × List Char)) (rest : List Char) :
    feed V ⟨.data, out⟩ ('<' :: w ++ (printAttrs V as ++ '>' :: rest)) =
      feed V ⟨.data, out ++ [.start ⟨w, as.map (rawAttr V)⟩ false]⟩ rest := by
  rw [feed_head V out hw as (by decide), afterHead, if_pos rfl, hraw]
  rfl

theorem feed_closed (out : List Piece) {w : List Char} (hw : w ≠ [] ∧ ∀ c ∈ w, isNameChar c = true)
    (as : List (Attr × List Char)) (rest : List Char) :
    feed V ⟨.data, out⟩ ('<' :: w ++ (printAttrs V as ++ '/' :: '>' :: rest)) =
      feed V ⟨.data, out ++ [.start ⟨w, as.map (rawAttr V)⟩ true]⟩ rest := by
  rw [feed_head V out hw as (by decide), afterHead, if_neg (by decide), if_neg (by decide), if_pos rfl,
    Option.bind_some, feed, step, if_pos rfl, Option.bind_some]

theorem feed_literal (out : List Piece) (h : Head) (s : Literal) (rest : List Char) :
    feed V ⟨.raw h ⟨[], List.not_mem_nil⟩, out⟩ (s.symbols ++ rest) = feed V ⟨.raw h s, out⟩ rest := by
  obtain ⟨l, hl⟩ := s
  induction l using List.reverseRecOn generalizing rest with
  | nil => rfl
  | append_singleton l c ih =>
      have hc : c ≠ '<' := by
        rintro rfl
        exact hl (by simp)
      have hl' : '<' ∉ l := fun hmem => hl (List.mem_append_left _ hmem)
      rw [List.append_assoc, ih _ hl', List.singleton_append, feed, step, dif_neg hc, Option.bind_some, Literal.push]

theorem feed_raw (out : List Piece) (r : Raw) (as : List (Attr × List Char)) (s : Literal) (rest : List Char) :
    feed V ⟨.data, out⟩ (printRaw V r as s ++ rest) =
      feed V ⟨.data, out ++ [.raw ⟨V.raws.word r, as.map (rawAttr V)⟩ s]⟩ rest := by
  have hplain := V.raws.plain r
  have hassoc : printRaw V r as s ++ rest = '<' :: V.raws.word r ++ (printAttrs V as ++
      '>' :: (s.symbols ++ ('<' :: '/' :: (V.raws.word r ++ '>' :: rest)))) := by
    simp only [printRaw, List.append_assoc, List.cons_append, List.nil_append]
  rw [hassoc, feed_head V out hplain as (by decide), afterHead, if_pos rfl, V.raws.read_word, Option.isSome_some,
    if_pos rfl, Option.bind_some, feed_literal, feed, step, dif_pos rfl, Option.bind_some, feed, step, if_pos rfl,
    Option.bind_some, feed_name V out _ (fun n c hc => by rw [step, if_pos hc]) hplain.2 [], List.nil_append, feed,
    step, if_neg (by decide), if_pos ⟨rfl, rfl⟩, Option.bind_some]

mutual

/-- The pieces of a document in the order they are written. -/
def Node.pieces : Node Tag Leaf Raw Attr Ref → List Piece
  | .char c => [.char c]
  | .ref r => [.ref (V.refs.word r)]
  | .leaf l as => [.start ⟨V.leaves.word l, as.map (rawAttr V)⟩ (V.slash l)]
  | .raw r as s => [.raw ⟨V.raws.word r, as.map (rawAttr V)⟩ s]
  | .elem t as ks => .start ⟨V.tags.word t, as.map (rawAttr V)⟩ false :: piecesAll ks ++ [.stop (V.tags.word t)]

def piecesAll : List (Node Tag Leaf Raw Attr Ref) → List Piece
  | [] => []
  | n :: ns => n.pieces ++ piecesAll ns

end

theorem feed_leaf (out : List Piece) (l : Leaf) (as : List (Attr × List Char)) (rest : List Char) :
    feed V ⟨.data, out⟩ (printLeaf V l as ++ rest) =
      feed V ⟨.data, out ++ [.start ⟨V.leaves.word l, as.map (rawAttr V)⟩ (V.slash l)]⟩ rest := by
  unfold printLeaf
  rw [List.append_assoc, List.append_assoc]
  cases V.slash l with
  | true => exact feed_closed V out (V.leaves.plain l) as rest
  | false => exact feed_open V out (V.leaves.plain l) (V.raw_leaf l) as rest

theorem feed_ref (out : List Piece) (r : Ref) (rest : List Char) :
    feed V ⟨.data, out⟩ ('&' :: V.refs.word r ++ ([';'] ++ rest)) =
      feed V ⟨.data, out ++ [.ref (V.refs.word r)]⟩ rest := by
  have hr : ';' ∉ V.refs.word r := fun hmem => absurd ((V.refs.plain r).2 _ hmem) (by decide)
  rw [List.cons_append, feed, step, if_neg (by decide), if_pos rfl, Option.bind_some, List.singleton_append,
    feed_dataRef V out rest hr, List.nil_append, V.entity_ref r]
  rfl

mutual

theorem feed_print (out : List Piece) (rest : List Char) :
    ∀ n : Node Tag Leaf Raw Attr Ref, feed V ⟨.data, out⟩ (n.print V ++ rest) = feed V ⟨.data, out ++ n.pieces V⟩ rest
  | .char c => by rw [Node.print, Node.pieces, feed_escapeChar_data]
  | .ref r => by rw [Node.print, Node.pieces, List.append_assoc, feed_ref]
  | .leaf l as => by rw [Node.print, Node.pieces, feed_leaf]
  | .raw r as s => by rw [Node.print, Node.pieces, feed_raw]
  | .elem t as ks => by
      have hplain := V.tags.plain t
      have hassoc : (Node.elem t as ks).print V ++ rest = '<' :: V.tags.word t ++ (printAttrs V as ++
          '>' :: (printAll V ks ++ ('<' :: '/' :: V.tags.word t ++ '>' :: rest))) := by
        simp only [Node.print, List.append_assoc, List.cons_append, List.nil_append]
      rw [hassoc, feed_open V out hplain (V.raw_tag t), feed_printAll _ _ ks, feed_stop V _ _ hplain.2, Node.pieces]
      simp only [List.append_assoc, List.cons_append, List.nil_append]

/-- **A written document is read piece by piece.** -/
theorem feed_printAll (out : List Piece) (rest : List Char) :
    ∀ ns : List (Node Tag Leaf Raw Attr Ref),
      feed V ⟨.data, out⟩ (printAll V ns ++ rest) = feed V ⟨.data, out ++ piecesAll V ns⟩ rest
  | [] => by rw [printAll, piecesAll, List.append_nil]; rfl
  | n :: ns => by
      rw [printAll, piecesAll, List.append_assoc, feed_print out _ n, feed_printAll _ _ ns, List.append_assoc]

end

/-! ## Nesting the pieces -/

/-- The nodes at the innermost open element, and the elements that are open with the nodes before them. -/
structure Nest (Tag Leaf Raw Attr Ref : Type) where
  nodes : List (Node Tag Leaf Raw Attr Ref)
  around : List (Tag × List (Attr × List Char) × List (Node Tag Leaf Raw Attr Ref))

def Nest.add (s : Nest Tag Leaf Raw Attr Ref) (ns : List (Node Tag Leaf Raw Attr Ref)) : Nest Tag Leaf Raw Attr Ref :=
  { s with nodes := s.nodes ++ ns }

def readAttrs (as : List (List Char × List Char)) : Option (List (Attr × List Char)) :=
  as.mapM fun a => (V.attrs.read a.1).map (·, a.2)

/-- A start tag adds an element without content or opens one. -/
def start (s : Nest Tag Leaf Raw Attr Ref) (h : Head) (slash : Bool) : Option (Nest Tag Leaf Raw Attr Ref) := do
  let as ← readAttrs V h.attrs
  match V.leaves.read h.name with
  | some l => if slash = V.slash l then some (s.add [.leaf l as]) else none
  | none =>
      let t ← V.tags.read h.name
      if slash then none else some ⟨[], (t, as, s.nodes) :: s.around⟩

def literal (s : Nest Tag Leaf Raw Attr Ref) (h : Head) (l : Literal) : Option (Nest Tag Leaf Raw Attr Ref) := do
  let as ← readAttrs V h.attrs
  let r ← V.raws.read h.name
  some (s.add [.raw r as l])

/-- An end tag closes the innermost open element, which must be its own. -/
def stop (s : Nest Tag Leaf Raw Attr Ref) (n : List Char) [DecidableEq Tag] : Option (Nest Tag Leaf Raw Attr Ref) :=
  match s.around with
  | [] => none
  | (t, as, before) :: around =>
      if V.tags.read n = some t then some ⟨before ++ [.elem t as s.nodes], around⟩ else none

def place [DecidableEq Tag] (s : Nest Tag Leaf Raw Attr Ref) : Piece → Option (Nest Tag Leaf Raw Attr Ref)
  | .char c => some (s.add [.char c])
  | .ref r => (V.refs.read r).map fun x => s.add [.ref x]
  | .start h slash => start V s h slash
  | .raw h l => literal V s h l
  | .stop n => stop V s n

def nestAll [DecidableEq Tag] (s : Nest Tag Leaf Raw Attr Ref) (ps : List Piece) :
    Option (Nest Tag Leaf Raw Attr Ref) :=
  ps.foldlM (place V) s

theorem readAttrs_raw (as : List (Attr × List Char)) : readAttrs V (as.map (rawAttr V)) = some as := by
  induction as with
  | nil => rfl
  | cons a as ih =>
      unfold readAttrs at ih ⊢
      rw [List.map_cons, List.mapM_cons, ih, rawAttr, V.attrs.read_word]
      rfl

theorem start_leaf (s : Nest Tag Leaf Raw Attr Ref) (l : Leaf) (as : List (Attr × List Char)) :
    start V s ⟨V.leaves.word l, as.map (rawAttr V)⟩ (V.slash l) = some (s.add [.leaf l as]) := by
  simp only [start, readAttrs_raw, V.leaves.read_word, Option.bind_eq_bind, Option.bind_some, if_true]

theorem start_tag (s : Nest Tag Leaf Raw Attr Ref) (t : Tag) (as : List (Attr × List Char)) :
    start V s ⟨V.tags.word t, as.map (rawAttr V)⟩ false = some ⟨[], (t, as, s.nodes) :: s.around⟩ := by
  simp only [start, readAttrs_raw, V.leaf_tag, V.tags.read_word, Option.bind_eq_bind, Option.bind_some]
  rfl

theorem literal_raw (s : Nest Tag Leaf Raw Attr Ref) (r : Raw) (as : List (Attr × List Char)) (l : Literal) :
    literal V s ⟨V.raws.word r, as.map (rawAttr V)⟩ l = some (s.add [.raw r as l]) := by
  simp only [literal, readAttrs_raw, V.raws.read_word, Option.bind_eq_bind, Option.bind_some]

theorem Nest.add_add (s : Nest Tag Leaf Raw Attr Ref) (ns ms : List (Node Tag Leaf Raw Attr Ref)) :
    (s.add ns).add ms = s.add (ns ++ ms) := by
  unfold Nest.add
  rw [List.append_assoc]

mutual

theorem nestAll_piece [DecidableEq Tag] (s : Nest Tag Leaf Raw Attr Ref) :
    ∀ n : Node Tag Leaf Raw Attr Ref, nestAll V s (n.pieces V) = some (s.add [n])
  | .char c => rfl
  | .ref r => by
      rw [Node.pieces, nestAll, List.foldlM_cons, place, V.refs.read_word]
      rfl
  | .leaf l as => by
      rw [Node.pieces, nestAll, List.foldlM_cons, place, start_leaf]
      rfl
  | .raw r as l => by
      rw [Node.pieces, nestAll, List.foldlM_cons, place, literal_raw]
      rfl
  | .elem t as ks => by
      have hkids := nestAll_pieces ⟨[], (t, as, s.nodes) :: s.around⟩ ks
      unfold nestAll at hkids ⊢
      rw [Node.pieces, List.cons_append, List.foldlM_cons, place, start_tag, Option.bind_eq_bind, Option.bind_some,
        List.foldlM_append, hkids, Option.bind_eq_bind, Option.bind_some, List.foldlM_cons, place, stop]
      simp only [Nest.add, V.tags.read_word, if_true, List.nil_append]
      rfl

/-- **The pieces of a document nest to the document.** -/
theorem nestAll_pieces [DecidableEq Tag] (s : Nest Tag Leaf Raw Attr Ref) :
    ∀ ns : List (Node Tag Leaf Raw Attr Ref), nestAll V s (piecesAll V ns) = some (s.add ns)
  | [] => by
      rw [piecesAll, Nest.add, List.append_nil]
      rfl
  | n :: ns => by
      have hhead := nestAll_piece s n
      have htail := nestAll_pieces (s.add [n]) ns
      unfold nestAll at hhead htail ⊢
      rw [piecesAll, List.foldlM_append, hhead, Option.bind_eq_bind, Option.bind_some, htail, Nest.add_add]
      rfl

end

/-! ## Reading a document -/

/-- The document a text is written from: it is read to its end, and every element is closed. -/
def parse [DecidableEq Tag] (s : List Char) : Option (List (Node Tag Leaf Raw Attr Ref)) := do
  match ← feed V ⟨.data, []⟩ s with
  | ⟨.data, out⟩ =>
      match ← nestAll V ⟨[], []⟩ out with
      | ⟨nodes, []⟩ => some nodes
      | _ => none
  | _ => none

/-- **What is written is read back.** -/
theorem parse_printAll [DecidableEq Tag] (ns : List (Node Tag Leaf Raw Attr Ref)) :
    parse V (printAll V ns) = some ns := by
  have hfeed := feed_printAll V [] [] ns
  rw [List.append_nil, List.nil_append] at hfeed
  unfold parse
  rw [hfeed, feed, Option.bind_eq_bind, Option.bind_some]
  simp only [nestAll_pieces, Option.bind_eq_bind, Option.bind_some, Nest.add, List.nil_append]

/-- A document behind a fixed declaration. -/
def parseDocument [DecidableEq Tag] (declaration s : List Char) : Option (List (Node Tag Leaf Raw Attr Ref)) :=
  if declaration.isPrefixOf s then parse V (s.drop declaration.length) else none

theorem parseDocument_printAll [DecidableEq Tag] (declaration : List Char)
    (ns : List (Node Tag Leaf Raw Attr Ref)) :
    parseDocument V declaration (declaration ++ printAll V ns) = some ns := by
  unfold parseDocument
  rw [List.drop_left, parse_printAll, if_pos (by simp)]

end Lib.Markup
