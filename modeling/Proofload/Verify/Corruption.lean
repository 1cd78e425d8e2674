import Proofload.Verify.Reconcile
import Proofload.Lib.Lists
import Proofload.Lib.Words

/-!
# What the checksum catches (`core/verify/checksum.go`, `reconcile.go`)

FNV-1a absorbs a byte by an xor and a multiplication with an odd prime. Neither loses the state nor the byte, so
two values of one length that differ in one byte never share a checksum.

* `absorb_injective_state`, `absorb_injective_byte` : what one absorption keeps;
* `single_byte_corruption_detected` : a value returned with one changed byte is reported by `readBack`.
-/

namespace Proofload.Verify
open Lib

set_option autoImplicit false

/-- The absorption of one byte. -/
def absorb (h : UInt64) (x : UInt8) : UInt64 := (h ^^^ x.toUInt64) * fnvPrime

theorem checksum_eq_foldl (b : Bytes) : checksum b = b.foldl absorb fnvOffset := rfl

theorem absorb_injective_state (x : UInt8) : Function.Injective fun h => absorb h x := by
  intro h h' heq
  have hxor : h ^^^ x.toUInt64 = h' ^^^ x.toUInt64 := mul_odd_inj (by decide) heq
  exact (UInt64.xor_left_inj _).mp hxor

theorem absorb_injective_byte (h : UInt64) : Function.Injective (absorb h) := by
  intro x y heq
  have hxor : h ^^^ x.toUInt64 = h ^^^ y.toUInt64 := mul_odd_inj (by decide) heq
  exact UInt8.toUInt64_inj.mp ((UInt64.xor_right_inj _).mp hxor)

theorem checksum_ne_of_one_change {v w : Bytes} (hlen : v.length = w.length) (h : ∃! i : Nat, v[i]? ≠ w[i]?) :
    checksum v ≠ checksum w := by
  rw [checksum_eq_foldl, checksum_eq_foldl]
  exact foldl_ne_of_one_change absorb_injective_state absorb_injective_byte hlen h fnvOffset

theorem keyAnomaly_of_checksum_ne {execute : Operation → OpResult} {o : ReconcileOptions} {key : Int}
    {want : WriteRecord} {w : Bytes}
    (herr : (execute { type := o.readOp, key := key, value := [], seq := 0 }).err = none)
    (hread : coerceBytes (execute { type := o.readOp, key := key, value := [], seq := 0 }).observed = some w)
    (hsum : checksum w ≠ want.checksum) :
    keyAnomaly execute o key want =
      some ⟨"corruption", s!"key {key} checksum {checksum w}, expected {want.checksum}", [toString key]⟩ := by
  simp [keyAnomaly, absent, herr, hread, hsum]

theorem mem_readBack_anomalies {execute : Operation → OpResult} {expected : Map Int WriteRecord} {key : Int}
    {want : WriteRecord} {o : ReconcileOptions} {a : Anomaly} (hwant : expected.lookup key = some want)
    (ha : keyAnomaly execute o key want = some a) (iter : IterOrder Int) (report : VerifyReport) :
    a ∈ (readBack execute expected o iter report).anomalies := by
  rw [readBack_eq]
  apply List.mem_append_right
  refine List.mem_filterMap.mpr ⟨key, ?_, ?_⟩
  · rw [iter.mem_order, Map.mem_keys_iff, hwant]
    rfl
  · rw [hwant]
    exact ha

/-- **A single changed byte is always detected.** Values of one length that differ in exactly one position have
different checksums. So whatever else is expected, and in whatever order the keys are read back, a store that returns
such a `w` for a key whose logged checksum is that of `v` has a corruption of that key in its report. -/
theorem single_byte_corruption_detected (v w : Bytes) (hlen : v.length = w.length) (hone : ∃! i : Nat, v[i]? ≠ w[i]?) :
    checksum v ≠ checksum w ∧
      ∀ (execute : Operation → OpResult) (expected : Map Int WriteRecord) (o : ReconcileOptions) (iter : IterOrder Int)
        (report : VerifyReport) (key : Int) (want : WriteRecord),
        expected.lookup key = some want → want.checksum = checksum v →
        (execute { type := o.readOp, key := key, value := [], seq := 0 }).err = none →
        coerceBytes (execute { type := o.readOp, key := key, value := [], seq := 0 }).observed = some w →
        ⟨"corruption", s!"key {key} checksum {checksum w}, expected {checksum v}", [toString key]⟩ ∈
          (readBack execute expected o iter report).anomalies := by
  have hne := checksum_ne_of_one_change hlen hone
  refine ⟨hne, ?_⟩
  intro execute expected o iter report key want hwant hsum herr hread
  rw [← hsum] at hne ⊢
  exact mem_readBack_anomalies hwant (keyAnomaly_of_checksum_ne herr hread hne.symm) iter report

/-- A log that expects `[1, 2, 3]` under key 7 and a store that returns `[1, 9, 3]`. -/
theorem single_byte_corruption_seven :
    checksum [1, 2, 3] ≠ checksum [1, 9, 3] ∧
      ∃ report, readBack (fun op => ⟨op.type, 1, .bytes (some [1, 9, 3]), none⟩)
          (readLog [⟨7, checksum [1, 2, 3], 1⟩]) ⟨"read", 0, 0, "0s"⟩ (IterOrder.stored Int)
          ⟨.reconciliation, .unknown, [], 1, 0, 0, 0⟩ = report ∧
        ⟨"corruption", s!"key {(7 : Int)} checksum {checksum [1, 9, 3]}, expected {checksum [1, 2, 3]}",
          [toString (7 : Int)]⟩ ∈ report.anomalies := by
  have hone : ∃! i : Nat, ([1, 2, 3] : Bytes)[i]? ≠ ([1, 9, 3] : Bytes)[i]? := by
    refine ⟨1, by decide, ?_⟩
    rintro (_ | _ | _ | i) hi
    · exact absurd rfl hi
    · rfl
    · exact absurd rfl hi
    · exact absurd rfl hi
  have h := single_byte_corruption_detected [1, 2, 3] [1, 9, 3] rfl hone
  exact ⟨h.1, _, rfl, h.2 _ _ _ _ _ 7 ⟨7, checksum [1, 2, 3], 1⟩ (by decide +kernel) rfl rfl rfl⟩

end Proofload.Verify
