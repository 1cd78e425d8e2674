import Proofload.Metrics.Recorder
import Proofload.Lib.Json
import Mathlib.Data.Nat.Log
import Mathlib.Tactic.Ring

/-!
# The placement of `hdrhistogram-go`

The buckets of the library: a bucket doubles the values of the one before it and resolves them into `2^(m+1)`
sub-buckets, of which the lower half is shared with the bucket before. A plain text stands in for the library's
compressed encoding.

* `layout` : the placement satisfies what `Layout` assumes;
* `hdr` : the library as a whole.
-/

namespace Proofload.Metrics
open Lib

set_option autoImplicit false

/-! ## Buckets -/

/-- `subBucketHalfCountMagnitude`. -/
def halfMagnitude (g : Geometry) : Nat := Nat.clog 2 (2 * 10 ^ g.sig.toNat) - 1

def unitMagnitude (g : Geometry) : Nat := Nat.log 2 g.low.toNat

/-- `getBucketsNeededToCoverValue`. -/
def bucketCount (g : Geometry) : Nat := max 1 (Nat.log 2 g.high.toNat + 1 - (halfMagnitude g + unitMagnitude g))

def countsLen (g : Geometry) : Nat := (bucketCount g + 1) * 2 ^ halfMagnitude g

def bucketIndex (g : Geometry) (n : Nat) : Nat := Nat.log 2 n - (halfMagnitude g + unitMagnitude g)

/-- The index of a value that is not negative. -/
def countsIndexFor (g : Geometry) (n : Nat) : Nat :=
  bucketIndex g n * 2 ^ halfMagnitude g + n / 2 ^ (bucketIndex g n + unitMagnitude g)

/-- The lowest value of a bin. -/
def valueFromIndex (g : Geometry) (i : Nat) : Nat :=
  if i < 2 ^ halfMagnitude g then i * 2 ^ unitMagnitude g
  else (i % 2 ^ halfMagnitude g + 2 ^ halfMagnitude g) * 2 ^ (i / 2 ^ halfMagnitude g - 1 + unitMagnitude g)

/-- The bucket of a value whose leading bits are in the upper half of the sub-buckets. -/
theorem log_shifted {m k s : Nat} (hlow : 2 ^ m ≤ s) (hhigh : s < 2 ^ (m + 1)) : Nat.log 2 (s * 2 ^ k) = m + k := by
  apply Nat.log_eq_of_pow_le_of_lt_pow
  · rw [Nat.pow_add]
    exact Nat.mul_le_mul_right _ hlow
  · rw [show m + k + 1 = m + 1 + k by omega, Nat.pow_add]
    exact Nat.mul_lt_mul_of_pos_right hhigh (Nat.two_pow_pos k)

/-- **The value of a bin falls into the bin.** -/
theorem countsIndexFor_valueFromIndex (g : Geometry) (i : Nat) : countsIndexFor g (valueFromIndex g i) = i := by
  unfold countsIndexFor valueFromIndex bucketIndex
  generalize halfMagnitude g = m
  generalize unitMagnitude g = u
  have hpos : 0 < 2 ^ m := Nat.two_pow_pos m
  by_cases hi : i < 2 ^ m
  · have hlt : i * 2 ^ u < 2 ^ (m + u + 1) := by
      calc i * 2 ^ u < 2 ^ m * 2 ^ u := Nat.mul_lt_mul_of_pos_right hi (Nat.two_pow_pos u)
        _ = 2 ^ (m + u) := (Nat.pow_add 2 m u).symm
        _ ≤ 2 ^ (m + u + 1) := Nat.pow_le_pow_right (by decide) (by omega)
    have hlog := Nat.log_lt_of_lt_pow' (by omega) hlt
    rw [if_pos hi, show Nat.log 2 (i * 2 ^ u) - (m + u) = 0 by omega, Nat.zero_mul, Nat.zero_add, Nat.zero_add,
      Nat.mul_div_cancel _ (Nat.two_pow_pos u)]
  · have hmod := Nat.mod_lt i hpos
    have hdiv : 1 ≤ i / 2 ^ m := (Nat.one_le_div_iff hpos).mpr (by omega)
    have hdouble : 2 ^ (m + 1) = 2 ^ m + 2 ^ m := by rw [Nat.pow_succ]; omega
    rw [if_neg hi, log_shifted (m := m) (by omega) (by omega),
      show m + (i / 2 ^ m - 1 + u) - (m + u) = i / 2 ^ m - 1 by omega, Nat.mul_div_cancel _ (Nat.two_pow_pos _),
      Nat.sub_mul, Nat.one_mul, Nat.div_mul_self_eq_mod_sub_self]
    have := Nat.div_add_mod' i (2 ^ m)
    have := Nat.le_mul_of_pos_left (2 ^ m) hdiv
    omega

/-- **The range up to the highest value is covered.** -/
theorem countsIndexFor_lt {g : Geometry} {n : Nat} (hn : n ≤ g.high.toNat) : countsIndexFor g n < countsLen g := by
  have hlog : Nat.log 2 n ≤ Nat.log 2 g.high.toNat := Nat.log_mono_right hn
  have hself := Nat.lt_pow_succ_log_self (show 1 < 2 by decide) n
  have hbucket : bucketIndex g n + 1 ≤ bucketCount g := by
    unfold bucketIndex bucketCount
    omega
  have hsub : n / 2 ^ (bucketIndex g n + unitMagnitude g) < 2 * 2 ^ halfMagnitude g := by
    rw [Nat.div_lt_iff_lt_mul (Nat.two_pow_pos _), ← Nat.pow_succ', ← Nat.pow_add]
    refine lt_of_lt_of_le hself (Nat.pow_le_pow_right (by decide) ?_)
    unfold bucketIndex
    omega
  unfold countsIndexFor countsLen
  calc bucketIndex g n * 2 ^ halfMagnitude g + n / 2 ^ (bucketIndex g n + unitMagnitude g)
      < bucketIndex g n * 2 ^ halfMagnitude g + 2 * 2 ^ halfMagnitude g := Nat.add_lt_add_left hsub _
    _ = (bucketIndex g n + 2) * 2 ^ halfMagnitude g := by ring
    _ ≤ (bucketCount g + 1) * 2 ^ halfMagnitude g := Nat.mul_le_mul_right _ (by omega)

/-- The placement of the library. -/
def layout : Layout where
  bins := countsLen
  indexOf g v := if 0 ≤ v ∧ countsIndexFor g v.toNat < countsLen g then some (countsIndexFor g v.toNat) else none
  valueAt g i := valueFromIndex g i
  indexOf_lt := by
    intro g v i hi
    split at hi
    · next h =>
      obtain rfl := Option.some.inj hi
      exact h.2
    · cases hi
  indexOf_valueAt := by
    intro g i hi
    rw [Int.toNat_natCast, countsIndexFor_valueFromIndex, if_pos ⟨Int.natCast_nonneg _, hi⟩]
  tracked := by
    intro g v hv hhigh
    rw [if_pos ⟨hv, countsIndexFor_lt (by omega)⟩]
    rfl

/-! ## Statistics and encoding -/

/-- The highest value of a bin. -/
def highestEquivalent (g : Geometry) (i : Nat) : Int := valueFromIndex g (i + 1) - 1

def medianEquivalent (g : Geometry) (i : Nat) : Int :=
  valueFromIndex g i + (valueFromIndex g (i + 1) - valueFromIndex g i : Int) / 2

def meanOf (h : Histogram layout) : Rat :=
  let weighted := ((List.range (countsLen h.geometry)).map fun i => h.counts i * medianEquivalent h.geometry i).sum
  if h.totalCount = 0 then 0 else weighted / h.totalCount

/-- The highest value of the first bin that reaches the rank. -/
def quantileOf (h : Histogram layout) (q : Rat) : Int :=
  let rank := (min q 100 / 100 * h.totalCount + 1 / 2).floor
  let reached (i : Nat) : Bool := rank ≤ ((List.range (i + 1)).map h.counts).sum
  match (List.range (countsLen h.geometry)).find? reached with
  | some i => highestEquivalent h.geometry i
  | none => 0

def maxOf (h : Histogram layout) : Int :=
  match (List.range (countsLen h.geometry)).reverse.find? fun i => h.counts i ≠ 0 with
  | some i => highestEquivalent h.geometry i
  | none => 0

/-- The numbers of a snapshot in one object. -/
def snapshotText (s : Snapshot) : Bytes :=
  let numbers := s.geometry.low :: s.geometry.high :: s.geometry.sig :: s.counts
  (Json.obj (.ofList (numbers.map fun n => ([], .num n)))).print

def snapshotOfText (bs : Bytes) : Option Snapshot := do
  let j ← unmarshalJson bs
  let fields ← j.fields?
  match ← fields.toList.mapM fun member => member.2.num? with
  | low :: high :: sig :: counts => some ⟨⟨low, high, sig⟩, counts⟩
  | _ => none

theorem snapshotOfText_snapshotText (s : Snapshot) : snapshotOfText (snapshotText s) = some s := by
  have hnums : ∀ ns : List Int,
      (ns.map fun n => (([] : List UInt8), Json.num n)).mapM (fun member => member.2.num?) = some ns := by
    intro ns
    induction ns with
    | nil => rfl
    | cons n ns ih =>
        rw [List.map_cons, List.mapM_cons, ih]
        rfl
  unfold snapshotOfText snapshotText
  rw [unmarshalJson_print]
  simp only [Option.bind_eq_bind, Option.bind_some, Json.fields?, Fields.toList_ofList, hnums]

/-- The library. -/
def hdr : Hdr where
  toLayout := layout
  mean := meanOf
  valueAtQuantile := quantileOf
  max := maxOf
  encode h := .ok (snapshotText h.toSnapshot)
  decode bs :=
    match snapshotOfText bs with
    | some s => .ok (.ofSnapshot layout s)
    | none => .error "invalid histogram"
  lossless h := by
    refine ⟨_, rfl, ?_⟩
    rw [snapshotOfText_snapshotText]
    exact congrArg Except.ok h.ofSnapshot_toSnapshot

end Proofload.Metrics
