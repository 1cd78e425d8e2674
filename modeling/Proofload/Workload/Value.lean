import Proofload.Domain
import Proofload.Lib.Words

/-!
# Payload bytes (`core/workload/value.go`)

`PCG` is the 128-bit generator of `math/rand/v2` that `Value` draws from: the state `hi:lo` steps by
`state * mul + inc`, the output is the DXSM permutation of the new state.

* `value_length` : a payload has exactly the requested size;
* `value_ne_nil` : with a positive size it is not empty;
* `PCG.uint64_inj` : from states with one low word, the first output determines the high word;
* `payload_identifies_key` : the first eight bytes of a payload determine its key, and a shorter payload of a key is a
  prefix of a longer one.
-/

namespace Proofload.WorkloadGen
open Lib

/-- `rand.PCG`: the state as two 64-bit words. -/
structure PCG where
  hi : UInt64
  lo : UInt64
deriving DecidableEq

namespace PCG

/-- The multiplier of the state step. -/
def mul : Nat := 2549297995355413924 * 2 ^ 64 + 4865540595714422341

/-- The increment of the state step. -/
def inc : Nat := 6364136223846793005 * 2 ^ 64 + 1442695040888963407

/-- The state step modulo `2^128`. -/
def next (p : PCG) : PCG :=
  let s := ((p.hi.toNat * 2 ^ 64 + p.lo.toNat) * mul + inc) % 2 ^ 128
  ⟨UInt64.ofNat (s / 2 ^ 64), UInt64.ofNat (s % 2 ^ 64)⟩

/-- The DXSM output function of a state. -/
def output (p : PCG) : UInt64 :=
  let hi := p.hi ^^^ (p.hi >>> 32)
  let hi := hi * 0xda942042e4dd58b5
  let hi := hi ^^^ (hi >>> 48)
  hi * (p.lo ||| 1)

/-- `PCG.Uint64`: steps, then permutes the new state. -/
def uint64 (p : PCG) : UInt64 × PCG := (p.next.output, p.next)

theorem next_hi (p : PCG) :
    p.next.hi = p.hi * UInt64.ofNat mul + UInt64.ofNat ((p.lo.toNat * mul + inc) / 2 ^ 64) :=
  step128_high p.hi p.lo mul inc

theorem next_lo (p : PCG) : p.next.lo = p.lo * UInt64.ofNat mul + UInt64.ofNat inc :=
  step128_low p.hi p.lo mul inc

/-- Of two states with one low word the step keeps the high words apart: the low word of the multiplier is odd. -/
theorem next_inj {p q : PCG} (hlo : p.lo = q.lo) (h : p.next.hi = q.next.hi) : p.hi = q.hi := by
  rw [next_hi, next_hi, hlo, UInt64.add_left_inj] at h
  exact mul_odd_inj (by decide) h

theorem odd_or_one (x : UInt64) : (x ||| 1).toNat % 2 = 1 := by
  rw [UInt64.toNat_or]
  simp

theorem output_inj {p q : PCG} (hlo : p.lo = q.lo) (h : p.output = q.output) : p.hi = q.hi := by
  unfold output at h
  dsimp only at h
  rw [hlo] at h
  apply xorShift_inj (s := 32) (by decide) (by decide)
  apply mul_odd_inj (c := 0xda942042e4dd58b5) (by decide)
  apply xorShift_inj (s := 48) (by decide) (by decide)
  exact mul_odd_inj (odd_or_one q.lo) h

/-- **The first output determines the high word of the seed.** -/
theorem uint64_inj {p q : PCG} (hlo : p.lo = q.lo) (h : p.uint64.1 = q.uint64.1) : p.hi = q.hi := by
  apply next_inj hlo
  apply output_inj _ h
  rw [next_lo, next_lo, hlo]

end PCG

/-- `binary.LittleEndian.PutUint64`. -/
def putUint64 (x : UInt64) : Bytes := (List.range 8).map fun i => (x >>> (8 * UInt64.ofNat i)).toUInt8

@[simp] theorem putUint64_length (x : UInt64) : (putUint64 x).length = 8 := by
  simp [putUint64]

theorem putUint64_inj {x y : UInt64} (h : putUint64 x = putUint64 y) : x = y := by
  have hbyte : ∀ i < 8, x.toNat / 256 ^ i % 256 = y.toNat / 256 ^ i % 256 := by
    intro i hi
    have hbytes := List.map_inj_left.mp h i (List.mem_range.mpr hi)
    have hshift : (8 * UInt64.ofNat i).toNat = 8 * i := by
      have hi' : (UInt64.ofNat i).toNat = i := UInt64.toNat_ofNat_of_lt' (by rw [UInt64.size]; omega)
      rw [UInt64.toNat_mul, hi']
      exact Nat.mod_eq_of_lt (by simp only [UInt64.reduceToNat]; omega)
    have hnat := congrArg UInt8.toNat hbytes
    simp only [UInt64.toNat_toUInt8, UInt64.toNat_shiftRight, hshift, Nat.mod_eq_of_lt (show 8 * i < 64 by omega),
      Nat.shiftRight_eq_div_pow, Nat.pow_mul] at hnat
    exact hnat
  have h₀ := hbyte 0 (by decide)
  have h₁ := hbyte 1 (by decide)
  have h₂ := hbyte 2 (by decide)
  have h₃ := hbyte 3 (by decide)
  have h₄ := hbyte 4 (by decide)
  have h₅ := hbyte 5 (by decide)
  have h₆ := hbyte 6 (by decide)
  have h₇ := hbyte 7 (by decide)
  have hx := x.toNat_lt
  have hy := y.toNat_lt
  apply UInt64.toNat_inj.mp
  norm_num at h₀ h₁ h₂ h₃ h₄ h₅ h₆ h₇
  omega

def valueSalt : UInt64 := 0x243F6A8885A308D3

/-- The fill loop of `Value`: whole words while eight bytes are left, then the head of one more. -/
def fill : Nat → PCG → Bytes
  | 0, _ => []
  | n + 8, src => putUint64 src.uint64.1 ++ fill n src.uint64.2
  | n, src => (putUint64 src.uint64.1).take n

theorem fill_of_lt {n : Nat} (hn : n < 8) (src : PCG) : fill n src = (putUint64 src.uint64.1).take n := by
  unfold fill
  split
  · rfl
  · omega
  · rfl

theorem fill_length (n : Nat) (src : PCG) : (fill n src).length = n := by
  induction n, src using fill.induct with
  | case1 => rfl
  | case2 n src ih =>
      rw [fill, List.length_append, putUint64_length, ih]
      omega
  | case3 n src hzero hword =>
      have hlt : n < 8 := by
        by_contra hge
        exact hword (n - 8) (by omega)
      rw [fill_of_lt hlt, List.length_take, putUint64_length]
      omega

/-- `Value`: deterministic payload bytes of exactly `size` bytes for `key`. -/
def value (key : Int) (size : Int) : Bytes :=
  if size ≤ 0 then [] else fill size.toNat ⟨UInt64.ofInt key, valueSalt⟩

theorem value_length (key : Int) {size : Int} (h : 0 < size) : ((value key size).length : Int) = size := by
  rw [value, if_neg (by omega), fill_length]
  omega

theorem value_ne_nil (key : Int) {size : Int} (h : 0 < size) : value key size ≠ [] := by
  intro hnil
  have := value_length key h
  rw [hnil, List.length_nil] at this
  omega

theorem value_ne_nil_iff (key size : Int) : value key size ≠ [] ↔ 0 < size := by
  refine ⟨fun h => ?_, value_ne_nil key⟩
  by_contra hsize
  exact h (if_pos (by omega))

/-! ## Payloads and keys -/

theorem fill_prefix {m n : Nat} (h : m ≤ n) (src : PCG) : fill m src <+: fill n src := by
  induction m, src using fill.induct generalizing n with
  | case1 => exact List.nil_prefix
  | case2 m src ih =>
      obtain ⟨n, rfl⟩ : ∃ k, n = k + 8 := ⟨n - 8, by omega⟩
      rw [fill, fill]
      exact (List.prefix_append_right_inj _).mpr (ih (by omega))
  | case3 m src hzero hword =>
      have hlt : m < 8 := by
        by_contra hge
        exact hword (m - 8) (by omega)
      rw [fill_of_lt hlt]
      by_cases hn : n < 8
      · rw [fill_of_lt hn]
        exact List.take_prefix_take_left h
      · obtain ⟨n, rfl⟩ : ∃ k, n = k + 8 := ⟨n - 8, by omega⟩
        rw [fill]
        exact (List.take_prefix m _).trans (List.prefix_append _ _)

theorem take_value (key : Int) {size : Int} (h : 8 ≤ size) :
    (value key size).take 8 = putUint64 (PCG.mk (UInt64.ofInt key) valueSalt).uint64.1 := by
  obtain ⟨n, hn⟩ : ∃ n : Nat, size.toNat = n + 8 := ⟨size.toNat - 8, by omega⟩
  rw [value, if_neg (by omega), hn, fill]
  exact List.take_left' (putUint64_length _)

theorem value_prefix (key : Int) {m n : Int} (hm : 0 < m) (h : m ≤ n) : value key m <+: value key n := by
  rw [value, value, if_neg (by omega), if_neg (by omega)]
  exact fill_prefix (by omega) _

/-- **Payloads identify their keys.** From eight bytes on the payloads of two keys differ within the first eight; a
payload has the requested length and is a prefix of every longer payload of its key. -/
theorem payload_identifies_key :
    (∀ k₁ k₂ : I64, k₁ ≠ k₂ → ∀ size : Int, 8 ≤ size → (value k₁.val size).take 8 ≠ (value k₂.val size).take 8) ∧
      ∀ (key : I64) (m n : Int), 0 < m → m ≤ n →
        ((value key.val m).length : Int) = m ∧ value key.val m <+: value key.val n := by
  refine ⟨fun k₁ k₂ hne size hsize heq => hne ?_,
    fun key m n hm hmn => ⟨value_length key.val hm, value_prefix _ hm hmn⟩⟩
  rw [take_value _ hsize, take_value _ hsize] at heq
  have hword : UInt64.ofInt k₁.val = UInt64.ofInt k₂.val := by
    apply PCG.uint64_inj (p := ⟨UInt64.ofInt k₁.val, valueSalt⟩) (q := ⟨UInt64.ofInt k₂.val, valueSalt⟩)
    · rfl
    · exact putUint64_inj heq
  have hlow₁ := k₁.ge
  have hlow₂ := k₂.ge
  have hhigh₁ := k₁.lt
  have hhigh₂ := k₂.lt
  exact I64.eq_def.mpr (ofInt_inj hword (by omega) (by omega))

/-- Two neighbouring keys, and the payloads of twelve and of twenty bytes of one key. -/
theorem payload_identifies_key_on_small_keys :
    (value 1 12).take 8 ≠ (value 2 12).take 8 ∧ (value 1 12).length = 12 ∧ value 1 12 <+: value 1 20 := by
  obtain ⟨hdiffer, hprefix⟩ := payload_identifies_key
  obtain ⟨hlength, hpre⟩ := hprefix 1 12 20 (by decide) (by decide)
  exact ⟨hdiffer 1 2 (by decide) 12 (by decide), by exact_mod_cast hlength, hpre⟩

end Proofload.WorkloadGen
