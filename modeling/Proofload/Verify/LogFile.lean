import Proofload.Verify.Reconcile
import Proofload.Verify.HistoryFile

/-!
# The expectation log on disk (`core/verify/log.go`, `logwriter.go`)

`LogWriter` appends a line for every committed write, `readLog` reduces the lines to the latest record of every key. A
`LogLine` is a record with the fixed-width fields of the source; its line always fits into the scanner's buffer.

* `readLog_lookup_iff` : the reduced log keeps the record with the greatest sequence number of a key, the last one in
  file order among equals;
* `expected_checksum_of_perm` : if records of one key and one sequence number agree on the checksum, the expected
  checksums do not depend on the order of the lines;
* `log_reduction` : both of these for files that were written by `LogWriter`.
-/

namespace Proofload.Verify
open Lib

set_option autoImplicit false

/-! ## Lines -/

structure LogLine where
  key : I64
  checksum : UInt64
  seq : I64
deriving DecidableEq

namespace LogLine

def members (r : LogLine) : List Member :=
  [(stringBytes "key", .num r.key.val), (stringBytes "checksum", .num r.checksum.toNat),
    (stringBytes "seq", .num r.seq.val)]

def setMember (r : LogLine) (m : Member) : Option LogLine :=
  let key := bytesString m.1
  let value := m.2
  if key = some "key" then value.int64?.map fun n => { r with key := n }
  else if key = some "checksum" then value.uint64?.map fun u => { r with checksum := u }
  else if key = some "seq" then value.int64?.map fun n => { r with seq := n }
  else some r

def text (r : LogLine) : Bytes := printRecord r.members

/-- Absent members keep their zero values. -/
def parse (b : Bytes) : Option LogLine := do
  let members ← unmarshalRecord b
  members.foldlM setMember ⟨0, 0, 0⟩

theorem parse_text (r : LogLine) : parse r.text = some r := by
  unfold parse text
  rw [unmarshalRecord_print]
  simp [members, setMember, bytesString_stringBytes]

theorem text_fits (r : LogLine) : r.text.length < maxLine := by
  have hkey : (formatInt r.key.val).length ≤ 21 :=
    length_formatInt_le (by have := r.key.ge; omega) (by have := r.key.lt; omega)
  have hsum : (formatInt r.checksum.toNat).length ≤ 21 :=
    length_formatInt_le (by omega) (by have := r.checksum.toNat_lt; omega)
  have hseq : (formatInt r.seq.val).length ≤ 21 :=
    length_formatInt_le (by have := r.seq.ge; omega) (by have := r.seq.lt; omega)
  have h₁ : (printString (stringBytes "key")).length = 5 := by decide +kernel
  have h₂ : (printString (stringBytes "checksum")).length = 10 := by decide +kernel
  have h₃ : (printString (stringBytes "seq")).length = 5 := by decide +kernel
  simp only [text, printRecord, members, printSeq, Member.print, Scalar.print, List.length_cons, List.length_append,
    h₁, h₂, h₃, maxLine, List.length_nil, if_true, if_false, Bool.false_eq_true]
  omega

/-- The record of a line. -/
def toRecord (r : LogLine) : WriteRecord := ⟨r.key.val, r.checksum, r.seq.val⟩

end LogLine

/-- **Records as lines.** -/
def logCodec : LineCodec LogLine where
  text := LogLine.text
  parse := LogLine.parse
  parse_text := LogLine.parse_text
  text_ne_nil _ := List.cons_ne_nil _ _
  newline_free r := newline_not_mem_printRecord r.members
  last_ne_cr r := by
    rw [LogLine.text, getLast?_printRecord]
    decide

/-! ## Reading -/

/-- `ReadLog`: the records of the lines, reduced. -/
def readLogFile (file : Bytes) : Except String (Map Int WriteRecord) :=
  (readLines logCodec maxLine (fun expected r => keepLatest expected r.toRecord) ∅ file).mapError (lineError "log")

/-- `Expected`: a copy of the reduced log. -/
def expected (iter : IterOrder Int) (log : Map Int WriteRecord) : Map Int WriteRecord :=
  Map.mergeWith iter (fun _ rec => rec) log ∅

theorem lookup_expected (iter : IterOrder Int) (log : Map Int WriteRecord) (k : Int) :
    (expected iter log).lookup k = log.lookup k := by
  rw [expected, Map.lookup_mergeWith]
  cases log.lookup k <;> rfl

/-- **A log reads back as its reduction**: no line is too long. -/
theorem readLogFile_written (lines : List LogLine) :
    readLogFile (lines.flatMap logCodec.line) = .ok (readLog (lines.map LogLine.toRecord)) := by
  unfold readLogFile
  rw [readLines_written logCodec (by decide), if_pos fun r _ => r.text_fits, readLog, List.foldl_map]
  rfl

/-! ## What is expected -/

/-- Among the records of a key `rec` has the greatest sequence number, and all later ones have a smaller one. -/
def Latest (recs : List WriteRecord) (k : Int) (rec : WriteRecord) : Prop :=
  ∃ pre post, recs = pre ++ rec :: post ∧ rec.key = k ∧ (∀ r ∈ pre, r.key = k → r.seq ≤ rec.seq) ∧
    ∀ r ∈ post, r.key = k → r.seq < rec.seq

theorem Latest.mem {recs : List WriteRecord} {k : Int} {rec : WriteRecord} (h : Latest recs k rec) :
    rec ∈ recs ∧ rec.key = k ∧ ∀ r ∈ recs, r.key = k → r.seq ≤ rec.seq := by
  obtain ⟨pre, post, rfl, hkey, hpre, hpost⟩ := h
  refine ⟨by simp, hkey, fun r hr hk => ?_⟩
  rcases List.mem_append.mp hr with hr | hr
  · exact hpre r hr hk
  · rcases List.mem_cons.mp hr with rfl | hr
    · exact le_refl _
    · exact le_of_lt (hpost r hr hk)

/-- One more record is the latest of its key if no earlier one has a greater number; else nothing changes. -/
theorem latest_concat (recs : List WriteRecord) (last : WriteRecord) (k : Int) (rec : WriteRecord) :
    Latest (recs ++ [last]) k rec ↔
      (rec = last ∧ last.key = k ∧ ∀ r ∈ recs, r.key = k → r.seq ≤ last.seq) ∨
        Latest recs k rec ∧ (last.key = k → last.seq < rec.seq) := by
  constructor
  · rintro ⟨pre, post, hsplit, hkey, hpre, hpost⟩
    rcases List.eq_nil_or_concat post with rfl | ⟨post, x, rfl⟩
    · obtain ⟨rfl, hlast⟩ := List.append_inj' hsplit rfl
      obtain rfl := (List.cons.inj hlast).1
      exact Or.inl ⟨rfl, hkey, hpre⟩
    · rw [List.concat_eq_append] at hsplit hpost
      rw [← List.cons_append, ← List.append_assoc] at hsplit
      obtain ⟨rfl, hlast⟩ := List.append_inj' hsplit rfl
      obtain rfl := (List.cons.inj hlast).1
      exact Or.inr ⟨⟨pre, post, rfl, hkey, hpre, fun r hr => hpost r (List.mem_append_left _ hr)⟩, hpost _ (by simp)⟩
  · rintro (⟨rfl, hkey, hle⟩ | ⟨⟨pre, post, rfl, hkey, hpre, hpost⟩, hlast⟩)
    · exact ⟨recs, [], rfl, hkey, hle, by simp⟩
    · refine ⟨pre, post ++ [last], by simp, hkey, hpre, fun r hr => ?_⟩
      rcases List.mem_append.mp hr with hr | hr
      · exact hpost r hr
      · obtain rfl := List.mem_singleton.mp hr
        exact hlast

/-- **What the reduced log expects of a key is its latest record.** -/
theorem readLog_lookup_iff (recs : List WriteRecord) (k : Int) (rec : WriteRecord) :
    (readLog recs).lookup k = some rec ↔ Latest recs k rec := by
  induction recs using List.reverseRecOn generalizing rec with
  | nil => simp [readLog, Latest]
  | append_singleton recs last ih =>
      rw [readLog_concat, keepLatest, latest_concat, ← ih]
      by_cases hk : last.key = k
      · subst hk
        cases hcur : (readLog recs).lookup last.key with
        | none =>
            have hnone := readLog_lookup_eq_none.mp hcur
            rw [Map.lookup_insert_eq, if_pos rfl]
            simp only [Option.some_inj, reduceCtorEq, false_and, or_false, true_and]
            exact ⟨fun h => ⟨h.symm, fun r hr hkey => absurd hkey (hnone r hr)⟩, fun h => h.1.symm⟩
        | some cur =>
            obtain ⟨hmem, hkey, hmax⟩ := ((ih cur).mp hcur).mem
            dsimp only
            split_ifs with hge
            · rw [Map.lookup_insert_eq, if_pos rfl]
              simp only [Option.some_inj, true_and]
              constructor
              · rintro rfl
                exact Or.inl ⟨rfl, fun r hr hk => le_trans (hmax r hr hk) hge⟩
              · rintro (⟨rfl, -⟩ | ⟨rfl, hlt⟩)
                · rfl
                · exact absurd (hlt trivial) (not_lt.mpr hge)
            · rw [hcur]
              simp only [Option.some_inj, true_and]
              constructor
              · rintro rfl
                exact Or.inr ⟨rfl, fun _ => not_le.mp hge⟩
              · rintro (⟨-, hle⟩ | ⟨rfl, -⟩)
                · exact absurd (hle cur hmem hkey) hge
                · rfl
      · have hother : ((readLog recs).insert last.key last).lookup k = (readLog recs).lookup k := by
          rw [Map.lookup_insert_eq, if_neg (Ne.symm hk)]
        simp only [hk, false_and, and_false, false_or, false_imp_iff, and_true]
        cases (readLog recs).lookup last.key with
        | none => rw [hother]
        | some cur =>
            dsimp only
            split_ifs
            · rw [hother]
            · rfl

/-- **The expected checksums do not depend on the order of the records**, if those of one key and one sequence number
agree on the checksum. -/
theorem expected_checksum_of_perm {recs recs' : List WriteRecord} (hperm : recs.Perm recs')
    (hagree : ∀ r ∈ recs, ∀ r' ∈ recs, r.key = r'.key → r.seq = r'.seq → r.checksum = r'.checksum) (k : Int) :
    ((readLog recs).lookup k).map (·.checksum) = ((readLog recs').lookup k).map (·.checksum) := by
  cases h : (readLog recs).lookup k with
  | none =>
      have hnone : (readLog recs').lookup k = none :=
        readLog_lookup_eq_none.mpr fun r hr => readLog_lookup_eq_none.mp h r (hperm.mem_iff.mpr hr)
      rw [hnone]
  | some rec =>
      cases h' : (readLog recs').lookup k with
      | none =>
          have hnone : (readLog recs).lookup k = none :=
            readLog_lookup_eq_none.mpr fun r hr => readLog_lookup_eq_none.mp h' r (hperm.mem_iff.mp hr)
          rw [h] at hnone
          cases hnone
      | some rec' =>
          obtain ⟨hmem, hkey, hmax⟩ := ((readLog_lookup_iff recs k rec).mp h).mem
          obtain ⟨hmem', hkey', hmax'⟩ := ((readLog_lookup_iff recs' k rec').mp h').mem
          have hseq : rec.seq = rec'.seq :=
            le_antisymm (hmax' rec (hperm.mem_iff.mp hmem) hkey) (hmax rec' (hperm.mem_iff.mpr hmem') hkey')
          have hsum := hagree rec hmem rec' (hperm.mem_iff.mpr hmem') (hkey.trans hkey'.symm) hseq
          exact congrArg some hsum

/-- A file that was written and closed by `LogWriter`. -/
def WrittenLog (w : RecordWriter LogLine) : Prop :=
  Reachable (RecordWriter.step logCodec) RecordWriter.fresh w ∧ w.closed = true

/-- **The expectation log.** A written log expects exactly the keys of its records, of each key the record with the
greatest sequence number and among equal numbers the last one. The files of several writers, concatenated, and their
lines in any other arrangement expect the same checksums, if the records of one key and one sequence number agree. -/
theorem log_reduction (iter : IterOrder Int) :
    (∀ w, WrittenLog w → ∃ log, readLogFile w.bw.out = .ok log ∧ ∀ k,
      (((expected iter log).lookup k).isSome ↔ ∃ r ∈ w.appended, r.key.val = k) ∧
      ∀ rec, (expected iter log).lookup k = some rec ↔ Latest (w.appended.map LogLine.toRecord) k rec) ∧
    ∀ shards : List (RecordWriter LogLine), (∀ w ∈ shards, WrittenLog w) →
      ∀ lines : List LogLine, lines.Perm (shards.flatMap (·.appended)) →
      (∀ r ∈ lines, ∀ r' ∈ lines, r.key = r'.key → r.seq = r'.seq → r.checksum = r'.checksum) →
      ∃ log log', readLogFile (shards.flatMap (·.bw.out)) = .ok log ∧
        readLogFile (lines.flatMap logCodec.line) = .ok log' ∧
        ∀ k, ((expected iter log').lookup k).map (·.checksum) = ((expected iter log).lookup k).map (·.checksum) := by
  refine ⟨fun w hw => ?_, fun shards hshards lines hperm hagree => ?_⟩
  · refine ⟨_, by rw [RecordWriter.file_of_closed hw.1 hw.2, readLogFile_written], fun k => ⟨?_, fun rec => ?_⟩⟩
    · rw [lookup_expected, ← Option.ne_none_iff_isSome, ne_eq, readLog_lookup_eq_none]
      simp [LogLine.toRecord]
    · rw [lookup_expected]
      exact readLog_lookup_iff _ k rec
  · have hfiles : shards.flatMap (·.bw.out) = (shards.flatMap (·.appended)).flatMap logCodec.line := by
      rw [List.flatMap_assoc]
      exact List.flatMap_congr fun w hw => RecordWriter.file_of_closed (hshards w hw).1 (hshards w hw).2
    refine ⟨_, _, by rw [hfiles, readLogFile_written], readLogFile_written lines, fun k => ?_⟩
    rw [lookup_expected, lookup_expected]
    refine expected_checksum_of_perm (hperm.map _) (fun r hr r' hr' hkey hseq => ?_) k
    obtain ⟨x, hx, rfl⟩ := List.mem_map.mp hr
    obtain ⟨y, hy, rfl⟩ := List.mem_map.mp hr'
    exact hagree x hx y hy (I64.eq_def.mpr hkey) (I64.eq_def.mpr hseq)

/-- Two shards with one key: the later number wins, whichever file comes first. -/
theorem log_reduction_on_two_shards :
    ∃ a b : RecordWriter LogLine, WrittenLog a ∧ WrittenLog b ∧ a.appended = [⟨7, 1, 3⟩, ⟨7, 2, 1⟩] ∧
      b.appended = [⟨7, 5, 4⟩] ∧
      ∃ log log', readLogFile (a.bw.out ++ b.bw.out) = .ok log ∧
        readLogFile ([⟨7, 5, 4⟩, ⟨7, 1, 3⟩, ⟨7, 2, 1⟩].flatMap logCodec.line) = .ok log' ∧
        ((expected (.stored Int) log').lookup 7).map (·.checksum) =
          ((expected (.stored Int) log).lookup 7).map (·.checksum) := by
  obtain ⟨a, hreach, hclosed, happended⟩ := RecordWriter.exists_closed logCodec [⟨7, 1, 3⟩, ⟨7, 2, 1⟩]
  obtain ⟨b, hreach', hclosed', happended'⟩ := RecordWriter.exists_closed logCodec [⟨7, 5, 4⟩]
  obtain ⟨log, log', hlog, hlog', hsame⟩ := (log_reduction (.stored Int)).2 [a, b]
    (by simp [WrittenLog, hreach, hclosed, hreach', hclosed']) [⟨7, 5, 4⟩, ⟨7, 1, 3⟩, ⟨7, 2, 1⟩]
    (by simp only [List.flatMap_cons, List.flatMap_nil, happended, happended']; decide) (by decide)
  exact ⟨a, b, ⟨hreach, hclosed⟩, ⟨hreach', hclosed'⟩, happended, happended', log, log', by simpa using hlog, hlog',
    hsame 7⟩

end Proofload.Verify
