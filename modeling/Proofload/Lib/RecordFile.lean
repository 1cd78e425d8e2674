import Proofload.Lib.Run
import Mathlib.Data.List.TakeWhile

/-!
# Record files

A file with one record per line, written by several threads through one lock and a write buffer, and read by a scanner
with a bounded line buffer. A `LineCodec` is how a record is written as a line.

* `RecordWriter.file_of_closed` : a closed file holds the lines of the records in the order in which they were appended,
  however the threads interleave;
* `scanLines_lines` : the scanner returns the lines up to the first one that does not fit;
* `readLines_written` : what was written is read back, unless some line does not fit.
-/

namespace Lib

set_option autoImplicit false

/-- Records as lines: the text of a record has no line break and reads back. -/
structure LineCodec (α : Type) where
  text : α → List UInt8
  parse : List UInt8 → Option α
  parse_text : ∀ a, parse (text a) = some a
  text_ne_nil : ∀ a, text a ≠ []
  newline_free : ∀ a, (10 : UInt8) ∉ text a
  last_ne_cr : ∀ a, (text a).getLast? ≠ some 13

/-- The line of a record, with its line break. -/
def LineCodec.line {α : Type} (C : LineCodec α) (a : α) : List UInt8 := C.text a ++ [10]

/-! ## Buffered writing -/

/-- A buffered writer: what has reached the file, and what is still in the buffer. -/
structure BufWriter where
  out : List UInt8
  buf : List UInt8

namespace BufWriter

def size : Nat := 4096

def flush (w : BufWriter) : BufWriter := ⟨w.out ++ w.buf, []⟩

/-- What does not fit fills the buffer and flushes it; a large rest bypasses the empty buffer. -/
def write (w : BufWriter) (p : List UInt8) : BufWriter :=
  let available := size - w.buf.length
  if p.length ≤ available then { w with buf := w.buf ++ p }
  else if w.buf = [] then { w with out := w.out ++ p }
  else
    let w := flush { w with buf := w.buf ++ p.take available }
    let rest := p.drop available
    if rest.length ≤ size then { w with buf := rest } else { w with out := w.out ++ rest }

theorem contents_write (w : BufWriter) (p : List UInt8) :
    (w.write p).out ++ (w.write p).buf = w.out ++ w.buf ++ p := by
  unfold write
  dsimp only
  split_ifs with hfits hempty hrest
  · simp
  · simp [hempty]
  · simp [flush]
  · simp [flush]

end BufWriter

/-! ## Appending through a lock -/

/-- A writer shared by several threads. The lock is free or held by a thread, with the record that it still has to
encode; `appended` is a ghost: the records in the order in which they were encoded. -/
structure RecordWriter (α : Type) where
  holder : Option (Nat × Option α)
  bw : BufWriter
  appended : List α
  closed : Bool

inductive WriterAct (α : Type) where
  | lock (thread : Nat) (a : α)
  | encode
  | unlock
  | close

namespace RecordWriter
variable {α : Type}

/-- A writer on an empty file. -/
def fresh : RecordWriter α := ⟨none, ⟨[], []⟩, [], false⟩

def step (C : LineCodec α) (s : RecordWriter α) : WriterAct α → Option (RecordWriter α)
  | .lock thread a =>
      if s.holder.isNone ∧ s.closed = false then some { s with holder := some (thread, some a) } else none
  | .encode =>
      match s.holder with
      | some (thread, some a) =>
          some { s with holder := some (thread, none), bw := s.bw.write (C.line a), appended := s.appended ++ [a] }
      | _ => none
  | .unlock =>
      match s.holder with
      | some (_, none) => some { s with holder := none }
      | _ => none
  | .close =>
      if s.holder.isNone ∧ s.closed = false then some { s with bw := s.bw.flush, closed := true } else none

/-- File and buffer hold the lines of the appended records; a closed writer is at rest. -/
structure Written (C : LineCodec α) (s : RecordWriter α) : Prop where
  contents : s.bw.out ++ s.bw.buf = s.appended.flatMap C.line
  closed : s.closed = true → s.bw.buf = [] ∧ s.holder = none

variable {C : LineCodec α} {s t : RecordWriter α}

theorem Written.step (h : Written C s) {a : WriterAct α} (ht : step C s a = some t) : Written C t := by
  cases a with
  | lock thread a =>
      simp only [RecordWriter.step] at ht
      split_ifs at ht with hfree
      obtain rfl := Option.some.inj ht
      exact ⟨h.contents, fun hclosed => absurd (hfree.2.symm.trans hclosed) (by decide)⟩
  | encode =>
      simp only [RecordWriter.step] at ht
      split at ht
      · next thread a hholder =>
        obtain rfl := Option.some.inj ht
        refine ⟨?_, fun hclosed => ?_⟩
        · dsimp only
          rw [BufWriter.contents_write, h.contents, List.flatMap_append]
          simp
        · rw [(h.closed hclosed).2] at hholder
          cases hholder
      · cases ht
  | unlock =>
      simp only [RecordWriter.step] at ht
      split at ht
      · obtain rfl := Option.some.inj ht
        exact ⟨h.contents, fun hclosed => ⟨(h.closed hclosed).1, rfl⟩⟩
      · cases ht
  | close =>
      simp only [RecordWriter.step] at ht
      split_ifs at ht with hfree
      obtain rfl := Option.some.inj ht
      refine ⟨?_, fun _ => ⟨rfl, Option.isNone_iff_eq_none.mp hfree.1⟩⟩
      dsimp only [BufWriter.flush]
      rw [List.append_nil]
      exact h.contents

/-- **A closed file holds the lines of the appended records, in order.** -/
theorem file_of_closed (h : Reachable (RecordWriter.step C) fresh s) (hclosed : s.closed = true) :
    s.bw.out = s.appended.flatMap C.line := by
  have hwritten : Written C s := h.invariant ⟨rfl, by simp [fresh]⟩ fun s a t hs ht => hs.step ht
  have := hwritten.contents
  rw [(hwritten.closed hclosed).1, List.append_nil] at this
  exact this

theorem exists_closed (C : LineCodec α) (as : List α) :
    ∃ s, Reachable (RecordWriter.step C) fresh s ∧ s.closed = true ∧ s.appended = as := by
  have hopen : ∃ s, Reachable (RecordWriter.step C) fresh s ∧ s.holder = none ∧ s.closed = false ∧ s.appended = as := by
    induction as using List.reverseRecOn with
    | nil => exact ⟨fresh, ⟨[], rfl⟩, rfl, rfl, rfl⟩
    | append_singleton as a ih =>
        obtain ⟨s, ⟨acts, hrun⟩, hholder, hclosed, happended⟩ := ih
        refine ⟨{ s with bw := s.bw.write (C.line a), appended := s.appended ++ [a] },
          ⟨acts ++ [.lock 0 a, .encode, .unlock], ?_⟩, hholder, hclosed, by rw [happended]⟩
        rw [run_append, hrun]
        simp [run_cons, RecordWriter.step, hholder, hclosed]
  obtain ⟨s, ⟨acts, hrun⟩, hholder, hclosed, happended⟩ := hopen
  refine ⟨{ s with bw := s.bw.flush, closed := true }, ⟨acts ++ [.close], ?_⟩, rfl, happended⟩
  rw [run_append, hrun]
  simp [run_cons, RecordWriter.step, hholder, hclosed]

end RecordWriter

/-! ## Scanning lines -/

def dropCR (l : List UInt8) : List UInt8 := if l.getLast? = some 13 then l.dropLast else l

/-- The lines of a text, scanned with a buffer of `max` bytes that has to hold a line and its end; the flag tells that
scanning stopped at a line that is too long. -/
def scanLines (max : Nat) : List UInt8 → List UInt8 → List (List UInt8) × Bool
  | cur, [] => (if cur = [] then [] else [dropCR cur], false)
  | cur, b :: rest =>
      if b = 10 then (dropCR cur :: (scanLines max [] rest).1, (scanLines max [] rest).2)
      else if max ≤ cur.length + 1 then ([], true)
      else scanLines max (cur ++ [b]) rest

theorem scanLines_fits {max : Nat} {l : List UInt8} (hl : (10 : UInt8) ∉ l) {cur : List UInt8}
    (hfits : cur.length + l.length < max) (rest : List UInt8) :
    scanLines max cur (l ++ 10 :: rest) =
      (dropCR (cur ++ l) :: (scanLines max [] rest).1, (scanLines max [] rest).2) := by
  induction l generalizing cur with
  | nil =>
      rw [List.nil_append, List.append_nil, scanLines]
      exact if_pos rfl
  | cons b l ih =>
      obtain ⟨hb, hl⟩ := List.ne_and_not_mem_of_not_mem_cons hl
      rw [List.length_cons] at hfits
      rw [List.cons_append, scanLines, if_neg (Ne.symm hb), if_neg (by omega),
        ih hl (by rw [List.length_append, List.length_singleton]; omega)]
      simp

theorem scanLines_long {max : Nat} {l : List UInt8} (hl : (10 : UInt8) ∉ l) {cur : List UInt8} (hcur : cur.length < max)
    (hlong : max ≤ cur.length + l.length) (rest : List UInt8) : scanLines max cur (l ++ rest) = ([], true) := by
  induction l generalizing cur with
  | nil =>
      rw [List.length_nil] at hlong
      omega
  | cons b l ih =>
      obtain ⟨hb, hl⟩ := List.ne_and_not_mem_of_not_mem_cons hl
      rw [List.length_cons] at hlong
      rw [List.cons_append, scanLines, if_neg (Ne.symm hb)]
      by_cases hfull : max ≤ cur.length + 1
      · rw [if_pos hfull]
      · rw [if_neg hfull]
        apply ih hl
        · rw [List.length_append, List.length_singleton]
          omega
        · rw [List.length_append, List.length_singleton]
          omega

section Read
variable {α σ : Type} (C : LineCodec α)

theorem dropCR_text (a : α) : dropCR (C.text a) = C.text a := if_neg (C.last_ne_cr a)

/-- **The scanner returns the lines up to the first one that does not fit.** -/
theorem scanLines_lines {max : Nat} (hmax : 0 < max) (as : List α) :
    scanLines max [] (as.flatMap C.line) =
      ((as.takeWhile fun a => (C.text a).length < max).map C.text, !as.all fun a => (C.text a).length < max) := by
  induction as with
  | nil => rfl
  | cons a as ih =>
      rw [List.flatMap_cons, LineCodec.line, List.append_assoc]
      by_cases hfits : (C.text a).length < max
      · rw [List.singleton_append, scanLines_fits (C.newline_free a) (by simpa using hfits), ih, List.nil_append,
          dropCR_text]
        simp [hfits]
      · rw [scanLines_long (C.newline_free a) hmax (by simpa using hfits)]
        simp [hfits]

/-! ## Reading records -/

/-- A line that is no record, by its number, or a line that does not fit into the buffer. -/
inductive LineError where
  | badLine (n : Nat)
  | tooLong
deriving DecidableEq

/-- The loop over the scanned lines; empty ones are skipped. -/
def foldLines (add : σ → α → σ) : Nat → σ → List (List UInt8) → Except LineError σ
  | _, acc, [] => .ok acc
  | n, acc, l :: ls =>
      if l = [] then foldLines add (n + 1) acc ls
      else match C.parse l with
        | none => .error (.badLine n)
        | some a => foldLines add (n + 1) (add acc a) ls

/-- Reads a file record by record. -/
def readLines (max : Nat) (add : σ → α → σ) (acc : σ) (file : List UInt8) : Except LineError σ := do
  let acc ← foldLines C add 1 acc (scanLines max [] file).1
  if (scanLines max [] file).2 then .error .tooLong else .ok acc

theorem foldLines_text (add : σ → α → σ) (n : Nat) (acc : σ) (as : List α) :
    foldLines C add n acc (as.map C.text) = .ok (as.foldl add acc) := by
  induction as generalizing n acc with
  | nil => rfl
  | cons a as ih =>
      rw [List.map_cons, foldLines, if_neg (C.text_ne_nil a), C.parse_text]
      exact ih (n + 1) (add acc a)

/-- **What was written is read back, unless some line does not fit.** -/
theorem readLines_written {max : Nat} (hmax : 0 < max) (add : σ → α → σ) (acc : σ) (as : List α) :
    readLines C max add acc (as.flatMap C.line) =
      if ∀ a ∈ as, (C.text a).length < max then .ok (as.foldl add acc) else .error .tooLong := by
  unfold readLines
  rw [scanLines_lines C hmax as, foldLines_text]
  show (if _ then _ else _) = _
  by_cases hfits : ∀ a ∈ as, (C.text a).length < max
  · have hall : (as.all fun a => (C.text a).length < max) = true := by simpa using hfits
    have htake : as.takeWhile (fun a => (C.text a).length < max) = as := by
      rw [List.takeWhile_eq_self_iff]
      simpa using hfits
    rw [if_pos hfits, hall, htake]
    rfl
  · have hall : (as.all fun a => (C.text a).length < max) = false := by
      rw [Bool.eq_false_iff]
      simpa using hfits
    rw [if_neg hfits, hall]
    rfl

end Read

end Lib
