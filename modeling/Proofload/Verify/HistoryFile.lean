import Proofload.Verify.Register
import Proofload.Lib.JsonRecord
import Proofload.Lib.RecordFile

/-!
# The history file (`core/verify/historyio.go`)

`HistoryWriter` appends events to a file of JSON lines, `ReadHistory` parses it and indexes the events by process and
by key. A `HistoryLine` is an event with the fixed-width fields of the source.

* `historyCodec` : an event reads back from its line;
* `readHistory_written` : what `ReadHistory` makes of the lines of given events;
* `history_round_trip` : every closed file whose lines fit into the scanner's buffer reads back.
-/

namespace Proofload.Verify
open Lib

set_option autoImplicit false

/-! ## Lines -/

structure HistoryLine where
  process : I64
  f : Family
  key : I64
  wVal : UInt64
  rVal : UInt64
  rList : List I64
  invoke : I64
  complete : I64
  ok : Bool
deriving DecidableEq

def Family.name : Family → String
  | .read => "read"
  | .write => "write"
  | .append => "append"

/-- The families that the recorders write; a line with another one is outside the model. -/
def Family.ofName (s : String) : Option Family :=
  if s = "read" then some .read else if s = "write" then some .write else if s = "append" then some .append else none

theorem Family.ofName_name (f : Family) : Family.ofName f.name = some f := by cases f <;> rfl

/-- A member that is left out at its zero value. -/
def omitEmpty (empty : Bool) (key : String) (v : Scalar) : List Member := if empty then [] else [(stringBytes key, v)]

def HistoryLine.members (e : HistoryLine) : List Member :=
  [(stringBytes "p", .num e.process.val), (stringBytes "f", .str (stringBytes e.f.name)),
    (stringBytes "k", .num e.key.val)] ++
  omitEmpty (e.wVal = 0) "wv" (.num e.wVal.toNat) ++ omitEmpty (e.rVal = 0) "rv" (.num e.rVal.toNat) ++
  omitEmpty (e.rList = []) "rl" (.nums (e.rList.map (·.val))) ++
  [(stringBytes "inv", .num e.invoke.val), (stringBytes "cmp", .num e.complete.val), (stringBytes "ok", .bool e.ok)]

/-- One member of a line; an unknown one is skipped. -/
def HistoryLine.setMember (e : HistoryLine) (m : Member) : Option HistoryLine :=
  let key := bytesString m.1
  let value := m.2
  if key = some "p" then value.int64?.map fun n => { e with process := n }
  else if key = some "f" then ((value.str?.bind bytesString).bind Family.ofName).map fun f => { e with f := f }
  else if key = some "k" then value.int64?.map fun n => { e with key := n }
  else if key = some "wv" then value.uint64?.map fun u => { e with wVal := u }
  else if key = some "rv" then value.uint64?.map fun u => { e with rVal := u }
  else if key = some "rl" then value.int64s?.map fun l => { e with rList := l }
  else if key = some "inv" then value.int64?.map fun n => { e with invoke := n }
  else if key = some "cmp" then value.int64?.map fun n => { e with complete := n }
  else if key = some "ok" then value.bool?.map fun b => { e with ok := b }
  else some e

/-- The zero value of all members but the family. -/
def HistoryLine.zero (f : Family) : HistoryLine := ⟨0, f, 0, 0, 0, [], 0, 0, false⟩

def HistoryLine.text (e : HistoryLine) : Bytes := printRecord e.members

/-- Absent members keep their zero values; a line without a family is outside the model. -/
def HistoryLine.parse (b : Bytes) : Option HistoryLine := do
  let members ← unmarshalRecord b
  if members.any fun m => bytesString m.1 = some "f" then members.foldlM setMember (zero .write) else none

theorem foldlM_omitEmpty {e e' : HistoryLine} {empty : Bool} {key : String} {v : Scalar}
    (hempty : empty = true → e' = e) (hset : e.setMember (stringBytes key, v) = some e') :
    (omitEmpty empty key v).foldlM HistoryLine.setMember e = some e' := by
  cases empty with
  | true =>
      rw [hempty rfl]
      rfl
  | false =>
      show List.foldlM _ e [_] = _
      rw [List.foldlM_cons, hset]
      rfl

theorem HistoryLine.parse_text (e : HistoryLine) : parse e.text = some e := by
  have hfamily : (e.members.any fun m => bytesString m.1 = some "f") = true := by
    simp [members, bytesString_stringBytes]
  let e₁ : HistoryLine := { zero e.f with process := e.process, key := e.key }
  let e₂ : HistoryLine := { e₁ with wVal := e.wVal }
  let e₃ : HistoryLine := { e₂ with rVal := e.rVal }
  let e₄ : HistoryLine := { e₃ with rList := e.rList }
  have h₁ : [(stringBytes "p", Scalar.num e.process.val), (stringBytes "f", .str (stringBytes e.f.name)),
      (stringBytes "k", .num e.key.val)].foldlM setMember (zero .write) = some e₁ := by
    simp [setMember, bytesString_stringBytes, Scalar.str?, Family.ofName_name, zero, e₁]
  have h₂ : (omitEmpty (e.wVal = 0) "wv" (.num e.wVal.toNat)).foldlM setMember e₁ = some e₂ := by
    refine foldlM_omitEmpty (fun hzero => ?_) ?_
    · simp only [e₂, of_decide_eq_true hzero]
      rfl
    · simp [setMember, bytesString_stringBytes, e₂]
  have h₃ : (omitEmpty (e.rVal = 0) "rv" (.num e.rVal.toNat)).foldlM setMember e₂ = some e₃ := by
    refine foldlM_omitEmpty (fun hzero => ?_) ?_
    · simp only [e₃, of_decide_eq_true hzero]
      rfl
    · simp [setMember, bytesString_stringBytes, e₃]
  have h₄ : (omitEmpty (e.rList = []) "rl" (.nums (e.rList.map (·.val)))).foldlM setMember e₃ = some e₄ := by
    refine foldlM_omitEmpty (fun hzero => ?_) ?_
    · simp only [e₄, of_decide_eq_true hzero]
      rfl
    · simp [setMember, bytesString_stringBytes, e₄]
  have h₅ : [(stringBytes "inv", Scalar.num e.invoke.val), (stringBytes "cmp", .num e.complete.val),
      (stringBytes "ok", .bool e.ok)].foldlM setMember e₄ = some e := by
    simp [setMember, bytesString_stringBytes, Scalar.bool?, e₄, e₃, e₂, e₁, zero]
  unfold parse text
  rw [unmarshalRecord_print]
  simp only [Option.bind_eq_bind, Option.bind_some, hfamily, if_true]
  unfold members
  simp only [List.foldlM_append, h₁, h₂, h₃, h₄, h₅, Option.bind_eq_bind, Option.bind_some]

/-- **Events as lines.** -/
def historyCodec : LineCodec HistoryLine where
  text := HistoryLine.text
  parse := HistoryLine.parse
  parse_text := HistoryLine.parse_text
  text_ne_nil _ := List.cons_ne_nil _ _
  newline_free e := newline_not_mem_printRecord e.members
  last_ne_cr e := by
    rw [HistoryLine.text, getLast?_printRecord]
    decide

theorem HistoryLine.two_mul_length_le_text (e : HistoryLine) : 2 * e.rList.length ≤ e.text.length := by
  by_cases hnil : e.rList = []
  · simp [hnil]
  · have hmem : (stringBytes "rl", Scalar.nums (e.rList.map (·.val))) ∈ e.members := by
      simp [members, omitEmpty, hnil]
    have hmember : _ ≤ (printSeq 125 Member.print true e.members).length := length_le_printSeq hmem true
    have hnums := two_mul_length_le_printSeq 93 (e.rList.map (·.val)) true
    rw [List.length_map, if_pos rfl] at hnums
    have hprint : (printSeq 93 formatInt true (e.rList.map (·.val))).length ≤
        (Member.print (stringBytes "rl", Scalar.nums (e.rList.map (·.val)))).length := by
      simp only [Member.print, Scalar.print, List.length_append, List.length_cons]
      omega
    rw [text, printRecord, List.length_cons]
    omega

/-! ## Reading -/

/-- `History`: the events in file order, with indexes by process and by key. -/
structure ParsedHistory where
  events : List HistoryLine
  processMap : Map Int (List HistoryLine)
  keyMap : Map Int (List HistoryLine)

/-- The body of the loop of `readHistory`. -/
def ParsedHistory.add (h : ParsedHistory) (e : HistoryLine) : ParsedHistory :=
  { events := h.events ++ [e]
    processMap := Map.push h.processMap e.process.val e
    keyMap := Map.push h.keyMap e.key.val e }

/-- The buffer of the scanner. -/
def maxLine : Nat := 4 * 1024 * 1024

/-- The error of a reader of `what`; the decoder's own reason is left out. -/
def lineError (what : String) : LineError → String
  | .badLine n => s!"verify: {what} line {n}: invalid record"
  | .tooLong => s!"verify: read {what}: bufio.Scanner: token too long"

def readHistory (file : Bytes) : Except String ParsedHistory :=
  (readLines historyCodec maxLine ParsedHistory.add ⟨[], ∅, ∅⟩ file).mapError (lineError "history")

def ParsedHistory.all (h : ParsedHistory) : List HistoryLine := h.events

def ParsedHistory.byProcess (h : ParsedHistory) (p : Int) : List HistoryLine := (h.processMap.lookup p).getD []

def ParsedHistory.byKey (h : ParsedHistory) (k : Int) : List HistoryLine := (h.keyMap.lookup k).getD []

/-- `Keys`, for an iteration order of the index. -/
def ParsedHistory.keys (iter : IterOrder Int) (h : ParsedHistory) : List Int :=
  (iter.order h.keyMap.keys).insertionSort (· ≤ ·)

/-- The parsed history of a list of events. -/
def ParsedHistory.ofEvents (events : List HistoryLine) : ParsedHistory :=
  { events
    processMap := events.foldl (fun m e => Map.push m e.process.val e) ∅
    keyMap := events.foldl (fun m e => Map.push m e.key.val e) ∅ }

theorem foldl_add (events : List HistoryLine) :
    events.foldl ParsedHistory.add ⟨[], ∅, ∅⟩ = ParsedHistory.ofEvents events := by
  induction events using List.reverseRecOn with
  | nil => rfl
  | append_singleton events e ih =>
      rw [List.foldl_append, ih]
      simp [ParsedHistory.add, ParsedHistory.ofEvents]

/-- **What `ReadHistory` makes of the lines of given events.** -/
theorem readHistory_written (events : List HistoryLine) :
    readHistory (events.flatMap historyCodec.line) =
      if ∀ e ∈ events, e.text.length < maxLine then .ok (ParsedHistory.ofEvents events)
      else .error "verify: read history: bufio.Scanner: token too long" := by
  unfold readHistory
  rw [readLines_written historyCodec (by decide), foldl_add]
  by_cases hfits : ∀ e ∈ events, e.text.length < maxLine
  · rw [if_pos hfits]
    exact congrArg _ (if_pos hfits)
  · rw [if_neg hfits]
    exact congrArg _ (if_neg hfits)

/-- **What `ReadHistory` makes of a file that the recorder has closed.** -/
theorem readHistory_of_closed {s : RecordWriter HistoryLine}
    (h : Reachable (RecordWriter.step historyCodec) RecordWriter.fresh s) (hclosed : s.closed = true) :
    readHistory s.bw.out =
      if ∀ e ∈ s.appended, e.text.length < maxLine then .ok (ParsedHistory.ofEvents s.appended)
      else .error "verify: read history: bufio.Scanner: token too long" := by
  rw [RecordWriter.file_of_closed h hclosed, readHistory_written]

namespace ParsedHistory
variable (events : List HistoryLine)

theorem byProcess_ofEvents (p : Int) : (ofEvents events).byProcess p = events.filter fun e => e.process.val = p := by
  unfold byProcess ofEvents
  rw [Map.lookup_foldl_push (fun e : HistoryLine => e.process.val)]
  split
  · next hnil => exact hnil.symm
  · rfl

theorem byKey_ofEvents (k : Int) : (ofEvents events).byKey k = events.filter fun e => e.key.val = k := by
  unfold byKey ofEvents
  rw [Map.lookup_foldl_push (fun e : HistoryLine => e.key.val)]
  split
  · next hnil => exact hnil.symm
  · rfl

theorem mem_keys_ofEvents (iter : IterOrder Int) (k : Int) :
    k ∈ (ofEvents events).keys iter ↔ ∃ e ∈ events, e.key.val = k := by
  unfold keys ofEvents
  rw [List.mem_insertionSort, iter.mem_order, Map.mem_keys_iff,
    Map.lookup_foldl_push (fun e : HistoryLine => e.key.val)]
  split
  · next hnil =>
    rw [List.filter_eq_nil_iff] at hnil
    simpa using hnil
  · next hne =>
    obtain ⟨e, he⟩ := List.exists_mem_of_ne_nil _ hne
    rw [List.mem_filter, decide_eq_true_eq] at he
    simp only [Option.isSome_some, true_iff]
    exact ⟨e, he⟩

/-- The keys of an index are distinct, so sorting them gives a strictly ascending list. -/
theorem keys_ascending (iter : IterOrder Int) (h : ParsedHistory) : (h.keys iter).Pairwise (· < ·) := by
  have hsorted : (h.keys iter).Pairwise (· ≤ ·) := List.pairwise_insertionSort _ _
  have hnodup : (h.keys iter).Nodup := by
    unfold keys
    rw [(List.perm_insertionSort _ _).nodup_iff, (iter.perm _).nodup_iff]
    exact h.keyMap.nodupKeys
  exact (hsorted.and hnodup).imp fun hle => lt_of_le_of_ne hle.1 hle.2

end ParsedHistory

/-! ## The history of the checkers -/

/-- The event of a line, as the checkers see it. -/
def HistoryLine.toEvent (e : HistoryLine) : Event :=
  { process := e.process.val.toNat, f := e.f, key := e.key.val, wVal := e.wVal, rVal := e.rVal,
    rList := e.rList.map (·.val), invoke := e.invoke.val, complete := e.complete.val, ok := e.ok }

/-- A recorded event in the fixed-width fields of its line. -/
def Event.toLine (e : Event) : HistoryLine :=
  { process := .ofInt e.process, f := e.f, key := .ofInt e.key, wVal := e.wVal, rVal := e.rVal,
    rList := e.rList.map .ofInt, invoke := .ofInt e.invoke, complete := .ofInt e.complete, ok := e.ok }

section Fields
variable (e : HistoryLine) (ev : Event)

@[simp] theorem HistoryLine.f_toEvent : e.toEvent.f = e.f := rfl

@[simp] theorem HistoryLine.wVal_toEvent : e.toEvent.wVal = e.wVal := rfl

@[simp] theorem HistoryLine.rList_toEvent : e.toEvent.rList = e.rList.map (·.val) := rfl

@[simp] theorem Event.f_toLine : ev.toLine.f = ev.f := rfl

@[simp] theorem Event.wVal_toLine : ev.toLine.wVal = ev.wVal := rfl

@[simp] theorem Event.rList_toLine : ev.toLine.rList = ev.rList.map .ofInt := rfl

theorem Event.rList_toEvent_toLine (h : ∀ x ∈ ev.rList, -2 ^ 63 ≤ x ∧ x < 2 ^ 63) :
    ev.toLine.toEvent.rList = ev.rList := by
  rw [HistoryLine.rList_toEvent, Event.rList_toLine, List.map_map]
  refine (List.map_congr_left fun x hx => ?_).trans (List.map_id _)
  exact I64.ofInt_val (h x hx).1 (h x hx).2

end Fields

def ParsedHistory.toHistory (h : ParsedHistory) : History := ⟨h.events.map HistoryLine.toEvent⟩

/-! ## The round trip -/

/-- **The history file reads back.** Whatever the recorders append, in whatever order they get the lock, a closed file
whose lines fit into the scanner's buffer is read as the appended events in that order, with the indexes of them. -/
theorem history_round_trip {s : RecordWriter HistoryLine}
    (h : Reachable (RecordWriter.step historyCodec) RecordWriter.fresh s) (hclosed : s.closed = true)
    (hfits : ∀ e ∈ s.appended, e.text.length < maxLine) (iter : IterOrder Int) :
    ∃ hist, readHistory s.bw.out = .ok hist ∧ hist.all = s.appended ∧
      (∀ p, hist.byProcess p = hist.all.filter fun e => e.process.val = p) ∧
      (∀ k, hist.byKey k = hist.all.filter fun e => e.key.val = k) ∧
      (hist.keys iter).Pairwise (· < ·) ∧ ∀ k, k ∈ hist.keys iter ↔ ∃ e ∈ hist.all, e.key.val = k := by
  refine ⟨ParsedHistory.ofEvents s.appended, ?_, rfl, ParsedHistory.byProcess_ofEvents _,
    ParsedHistory.byKey_ofEvents _, ParsedHistory.keys_ascending iter _, ParsedHistory.mem_keys_ofEvents _ iter⟩
  rw [readHistory_of_closed h hclosed, if_pos hfits]

/-- A read that observed `n` tokens. -/
def longRead (n : Nat) : HistoryLine := { HistoryLine.zero .read with rList := List.replicate n 0 }

theorem longRead_length {n : Nat} (hn : maxLine ≤ 2 * n) : maxLine ≤ (longRead n).text.length := by
  have := (longRead n).two_mul_length_le_text
  rw [show (longRead n).rList.length = n from List.length_replicate] at this
  omega

/-- An append and the read that observes it. -/
theorem history_round_trip_on_two_events :
    ∃ s : RecordWriter HistoryLine, Reachable (RecordWriter.step historyCodec) RecordWriter.fresh s ∧
      s.appended = [{ HistoryLine.zero .append with wVal := 7, ok := true }, longRead 1] ∧
      ∃ hist, readHistory s.bw.out = .ok hist ∧ hist.all = s.appended := by
  obtain ⟨s, hreach, hclosed, happended⟩ := RecordWriter.exists_closed historyCodec
    [{ HistoryLine.zero .append with wVal := 7, ok := true }, longRead 1]
  obtain ⟨hist, hread, hall, -⟩ := history_round_trip hreach hclosed (by rw [happended]; decide +kernel) (.stored Int)
  exact ⟨s, hreach, happended, hist, hread, hall⟩

/-- The line of a read of two million tokens is written, and stops the reader. -/
theorem long_list_unreadable :
    ∃ s : RecordWriter HistoryLine, Reachable (RecordWriter.step historyCodec) RecordWriter.fresh s ∧
      s.closed = true ∧ s.appended = [longRead 2097152] ∧
      readHistory s.bw.out = .error "verify: read history: bufio.Scanner: token too long" := by
  obtain ⟨s, hreach, hclosed, happended⟩ := RecordWriter.exists_closed historyCodec [longRead 2097152]
  refine ⟨s, hreach, hclosed, happended, ?_⟩
  have hlong := longRead_length (show maxLine ≤ 2 * 2097152 by decide)
  rw [readHistory_of_closed hreach hclosed, happended, if_neg]
  intro hfits
  exact absurd (hfits _ (List.mem_singleton_self _)) (by omega)

end Proofload.Verify
