-- SUMMARY: The buckets of `metrics/histogram.h` in 64-bit arithmetic, and that they partition the 64-bit values.
import Rdb.Lib.LogBuckets

/-!
# Histogram buckets

`index_of` and `bucket_upper` are two bit formulas that have to be inverse to each
other. Both are computed in machine integers here, with the wrap-around where the upper
bound of the last bucket is `2^64 - 1`, and both are the log-linear buckets of
`Rdb.Lib.LogBuckets`.
-/

namespace Rdb

/-- `std::bit_width`: zero has none. -/
def bitWidth (value : UInt64) : UInt32 :=
  if value = 0 then 0 else UInt32.ofNat (value.toNat.log2 + 1)

namespace Histogram

def kSubBits : UInt32 := 6

def kSubCount : UInt64 := 1 <<< kSubBits.toUInt64

def kBucketCount : UInt64 := kSubCount * (64 - kSubBits + 1).toUInt64

/-- `index_of(value)` -/
def indexOf (value : UInt64) : UInt64 :=
  if value < kSubCount then value
  else
    let exponent := bitWidth value - 1
    let shift := exponent - kSubBits
    let sub := (value - (1 <<< exponent.toUInt64)) >>> shift.toUInt64
    kSubCount + shift.toUInt64 * kSubCount + sub

/-- `bucket_upper(index)`, for an index below `kBucketCount`. -/
def bucketUpper (index : UInt64) : UInt64 :=
  if index < kSubCount then index
  else
    let rel := index - kSubCount
    let shift := (rel / kSubCount).toUInt32
    let sub := rel % kSubCount
    let exponent := shift + kSubBits
    let width : UInt64 := 1 <<< shift.toUInt64
    -- in the last bucket the sum wraps to zero
    (1 <<< exponent.toUInt64) + (sub + 1) * width - 1

/-! ## The formulas in natural numbers -/

open LogBuckets (index lower octave)

theorem toNat_kSubCount : kSubCount.toNat = 64 := rfl

theorem toNat_kBucketCount : kBucketCount.toNat = 3776 := rfl

theorem toNat_one_shiftLeft {n : UInt32} (h : n.toNat < 64) :
    ((1 : UInt64) <<< n.toUInt64).toNat = 2 ^ n.toNat := by
  rw [UInt64.toNat_shiftLeft, UInt32.toNat_toUInt64, Nat.mod_eq_of_lt h, UInt64.toNat_one,
    Nat.shiftLeft_eq, Nat.one_mul]
  exact Nat.mod_eq_of_lt (Nat.pow_lt_pow_right (by decide) h)

theorem toNat_bitWidth_sub_one {value : UInt64} (h : value ≠ 0) :
    (bitWidth value - 1).toNat = value.toNat.log2 := by
  have hne : value.toNat ≠ 0 := fun hzero => h (UInt64.toNat.inj hzero)
  have hlt : value.toNat.log2 < 64 := (Nat.log2_lt hne).mpr value.toNat_lt
  have hone : (1 : UInt32) ≤ UInt32.ofNat (value.toNat.log2 + 1) := by
    rw [UInt32.le_iff_toNat_le, UInt32.toNat_ofNat_of_lt' (by change _ < 2 ^ 32; omega)]
    exact Nat.le_add_left 1 _
  rw [bitWidth, if_neg h, UInt32.toNat_sub_of_le _ _ hone,
    UInt32.toNat_ofNat_of_lt' (by change _ < 2 ^ 32; omega)]
  rfl

/-- The bits below the leading one, as many as a bucket tells apart. -/
theorem sub_leading_div {v : Nat} (h : 6 ≤ v.log2) :
    64 + (v - 2 ^ v.log2) / 2 ^ (v.log2 - 6) = v / 2 ^ (v.log2 - 6) := by
  have hne : v ≠ 0 := by
    rintro rfl
    rw [Nat.log2_zero] at h
    omega
  have hsplit : 2 ^ v.log2 = 2 ^ (v.log2 - 6) * 64 := by
    rw [← Nat.sub_add_cancel h, Nat.pow_add, Nat.add_sub_cancel]
  have hle : 64 ≤ v / 2 ^ (v.log2 - 6) := by
    rw [Nat.le_div_iff_mul_le (Nat.two_pow_pos _), Nat.mul_comm, ← hsplit]
    exact Nat.log2_self_le hne
  rw [hsplit, Nat.sub_mul_div]
  omega

theorem toNat_indexOf (value : UInt64) : (indexOf value).toNat = index 6 value.toNat := by
  unfold indexOf
  split
  · rename_i hlt
    rw [UInt64.lt_iff_toNat_lt, toNat_kSubCount] at hlt
    exact (LogBuckets.index_of_lt hlt).symm
  · rename_i hge
    rw [UInt64.lt_iff_toNat_lt, toNat_kSubCount, Nat.not_lt] at hge
    have hne : value ≠ 0 := by
      rintro rfl
      simp at hge
    have hne' : value.toNat ≠ 0 := by omega
    have hsix : 6 ≤ value.toNat.log2 := (Nat.le_log2 hne').mpr hge
    have hlog : value.toNat.log2 < 64 := (Nat.log2_lt hne').mpr value.toNat_lt
    have hexp := toNat_bitWidth_sub_one hne
    have hshift : (bitWidth value - 1 - kSubBits).toNat = value.toNat.log2 - 6 := by
      rw [UInt32.toNat_sub_of_le _ _ (by rw [UInt32.le_iff_toNat_le, hexp]; exact hsix), hexp]
      rfl
    have hlead : ((1 : UInt64) <<< (bitWidth value - 1).toUInt64).toNat = 2 ^ value.toNat.log2 := by
      rw [toNat_one_shiftLeft (by omega), hexp]
    have hsub : ((value - (1 <<< (bitWidth value - 1).toUInt64)) >>>
        (bitWidth value - 1 - kSubBits).toUInt64).toNat =
        (value.toNat - 2 ^ value.toNat.log2) / 2 ^ (value.toNat.log2 - 6) := by
      rw [UInt64.toNat_shiftRight, UInt32.toNat_toUInt64, hshift, Nat.mod_eq_of_lt (by omega),
        Nat.shiftRight_eq_div_pow, UInt64.toNat_sub_of_le, hlead]
      rw [UInt64.le_iff_toNat_le, hlead]
      exact Nat.log2_self_le hne'
    have hdiv := sub_leading_div hsix
    have hbound := LogBuckets.div_lt_two_mul 6 value.toNat
    dsimp only
    rw [UInt64.toNat_add, UInt64.toNat_add, UInt64.toNat_mul, hsub, UInt32.toNat_toUInt64, hshift,
      toNat_kSubCount]
    unfold index
    omega

/-- The end of a bucket above the single values. -/
theorem lower_succ_of_ge {i : Nat} (h : 64 ≤ i) :
    lower 6 (i + 1) = 2 ^ (i / 64 - 1 + 6) + (i % 64 + 1) * 2 ^ (i / 64 - 1) := by
  have hoct : octave 6 i = i / 64 - 1 := rfl
  have hin : i - 2 ^ 6 * (i / 64 - 1) = 64 + i % 64 := by omega
  rw [LogBuckets.lower_succ, lower, hoct, hin, Nat.pow_add]
  ring

/-- The upper bound is one below the next bucket, also where that is `2^64`. -/
theorem toNat_bucketUpper {i : UInt64} (h : i < kBucketCount) :
    (bucketUpper i).toNat + 1 = lower 6 (i.toNat + 1) := by
  rw [UInt64.lt_iff_toNat_lt, toNat_kBucketCount] at h
  unfold bucketUpper
  split
  · rename_i hlt
    rw [UInt64.lt_iff_toNat_lt, toNat_kSubCount] at hlt
    rw [LogBuckets.lower_of_lt (by omega)]
  · rename_i hge
    rw [UInt64.lt_iff_toNat_lt, toNat_kSubCount, Nat.not_lt] at hge
    have hrel : (i - kSubCount).toNat = i.toNat - 64 := by
      rw [UInt64.toNat_sub_of_le _ _ (by rw [UInt64.le_iff_toNat_le]; exact hge), toNat_kSubCount]
    have hshift : ((i - kSubCount) / kSubCount).toUInt32.toNat = i.toNat / 64 - 1 := by
      rw [UInt64.toNat_toUInt32, UInt64.toNat_div, hrel, toNat_kSubCount]
      omega
    have hoct : i.toNat / 64 - 1 < 58 := by omega
    have hexp :
        (((i - kSubCount) / kSubCount).toUInt32 + kSubBits).toNat = i.toNat / 64 - 1 + 6 := by
      rw [UInt32.toNat_add, hshift]
      exact Nat.mod_eq_of_lt (by change i.toNat / 64 - 1 + 6 < _; omega)
    have hsub : ((i - kSubCount) % kSubCount).toNat = i.toNat % 64 := by
      rw [UInt64.toNat_mod, hrel, toNat_kSubCount]
      omega
    have hnext := lower_succ_of_ge hge
    have hle : lower 6 (i.toNat + 1) ≤ 2 ^ 64 := (LogBuckets.lower_strictMono 6).monotone h
    dsimp only
    rw [UInt64.toNat_sub, UInt64.toNat_add, UInt64.toNat_mul, UInt64.toNat_add,
      toNat_one_shiftLeft (by omega), toNat_one_shiftLeft (by omega), hexp, hshift, hsub,
      UInt64.toNat_one, Nat.mod_eq_of_lt (show i.toNat % 64 + 1 < 2 ^ 64 by omega)]
    rw [hnext] at hle ⊢
    have hlead := Nat.two_pow_pos (i.toNat / 64 - 1 + 6)
    generalize (i.toNat % 64 + 1) * 2 ^ (i.toNat / 64 - 1) = part at hle ⊢
    omega

/-! ## The partition -/

theorem indexOf_lt (v : UInt64) : indexOf v < kBucketCount := by
  have hlt := v.toNat_lt
  rw [UInt64.lt_iff_toNat_lt, toNat_kBucketCount, toNat_indexOf, ← Nat.not_le,
    ← LogBuckets.lower_le_iff, Nat.not_le]
  exact hlt

/-- A value is within the upper bound of a bucket when its own bucket is not above. -/
theorem le_bucketUpper_iff {v i : UInt64} (h : i < kBucketCount) :
    v ≤ bucketUpper i ↔ indexOf v ≤ i := by
  have hupper := toNat_bucketUpper h
  rw [UInt64.le_iff_toNat_le, UInt64.le_iff_toNat_le, toNat_indexOf, ← Nat.lt_succ_iff,
    ← Nat.lt_succ_iff, Nat.succ_eq_add_one, hupper, ← Nat.not_le, LogBuckets.lower_le_iff,
    Nat.not_le]

theorem le_bucketUpper_indexOf (v : UInt64) : v ≤ bucketUpper (indexOf v) :=
  (le_bucketUpper_iff (indexOf_lt v)).mpr (UInt64.le_refl _)

theorem indexOf_mono {v w : UInt64} (h : v ≤ w) : indexOf v ≤ indexOf w :=
  (le_bucketUpper_iff (indexOf_lt w)).mp (UInt64.le_trans h (le_bucketUpper_indexOf w))

theorem bucketUpper_lt {i j : UInt64} (hj : j < kBucketCount) (h : i < j) :
    bucketUpper i < bucketUpper j := by
  have hi := toNat_bucketUpper (UInt64.lt_trans h hj)
  have hupper := toNat_bucketUpper hj
  rw [UInt64.lt_iff_toNat_lt] at h ⊢
  have hlt := LogBuckets.lower_strictMono 6 (Nat.succ_lt_succ h)
  simp only [Nat.succ_eq_add_one] at hlt
  omega

theorem bucketUpper_mono {i j : UInt64} (hj : j < kBucketCount) (h : i ≤ j) :
    bucketUpper i ≤ bucketUpper j := by
  rcases UInt64.le_iff_lt_or_eq.mp h with hlt | rfl
  · exact UInt64.le_of_lt (bucketUpper_lt hj hlt)
  · exact UInt64.le_refl _

theorem indexOf_bucketUpper {i : UInt64} (h : i < kBucketCount) : indexOf (bucketUpper i) = i := by
  have hle : indexOf (bucketUpper i) ≤ i := (le_bucketUpper_iff h).mp (UInt64.le_refl _)
  rcases UInt64.le_iff_lt_or_eq.mp hle with hlt | heq
  · exact absurd (le_bucketUpper_indexOf (bucketUpper i))
      (UInt64.not_le.mpr (bucketUpper_lt h hlt))
  · exact heq

/-- The values of a bucket are those up to its upper bound that are above the bucket
    before it. -/
theorem indexOf_eq_iff {v i : UInt64} (h : i < kBucketCount) :
    indexOf v = i ↔ (i = 0 ∨ bucketUpper (i - 1) < v) ∧ v ≤ bucketUpper i := by
  rw [le_bucketUpper_iff h]
  by_cases hzero : i = 0
  · subst hzero
    simp
  · have hone : (1 : UInt64) ≤ i := by
      rw [UInt64.le_iff_toNat_le, UInt64.toNat_one]
      exact Nat.pos_of_ne_zero fun hnat => hzero (UInt64.toNat.inj hnat)
    have hpred : (i - 1).toNat = i.toNat - 1 := UInt64.toNat_sub_of_le _ _ hone
    rw [UInt64.le_iff_toNat_le, UInt64.toNat_one] at hone
    have hlt : i - 1 < kBucketCount := by
      rw [UInt64.lt_iff_toNat_lt] at h ⊢
      omega
    rw [← UInt64.not_le, le_bucketUpper_iff hlt, UInt64.le_iff_toNat_le, UInt64.le_iff_toNat_le,
      hpred, ← UInt64.toNat_inj]
    simp only [hzero, false_or]
    omega

/-- **The buckets partition the 64-bit values.** Every value has a bucket, whose upper
    bound is not below it; greater values have no lower buckets; `index_of` and
    `bucket_upper` are inverse to each other on the bounds, which increase strictly up to
    `2^64 - 1`; and the values of a bucket are those between its bound and the one
    before. The last part is the bound in exact arithmetic, which the 64-bit formula
    meets also where its sum wraps. -/
theorem buckets_partition :
    (∀ v, indexOf v < kBucketCount ∧ v ≤ bucketUpper (indexOf v)) ∧
    (∀ v w, v ≤ w → indexOf v ≤ indexOf w) ∧
    (∀ i, i < kBucketCount → indexOf (bucketUpper i) = i) ∧
    (∀ i j, i < j → j < kBucketCount → bucketUpper i < bucketUpper j) ∧
    (bucketUpper (kBucketCount - 1)).toNat = 2 ^ 64 - 1 ∧
    (∀ v i, i < kBucketCount →
      (indexOf v = i ↔ (i = 0 ∨ bucketUpper (i - 1) < v) ∧ v ≤ bucketUpper i)) ∧
    ∀ i, i < kBucketCount → (bucketUpper i).toNat =
      if i.toNat < 64 then i.toNat
      else 2 ^ (i.toNat / 64 - 1 + 6) + (i.toNat % 64 + 1) * 2 ^ (i.toNat / 64 - 1) - 1 := by
  refine ⟨fun v => ⟨indexOf_lt v, le_bucketUpper_indexOf v⟩, fun v w => indexOf_mono,
    fun i => indexOf_bucketUpper, fun i j hij hj => bucketUpper_lt hj hij, by decide,
    fun v i => indexOf_eq_iff, ?_⟩
  intro i hi
  have hupper := toNat_bucketUpper hi
  split
  · rename_i hlt
    rw [LogBuckets.lower_of_lt (by omega)] at hupper
    omega
  · rename_i hge
    rw [lower_succ_of_ge (Nat.not_lt.mp hge)] at hupper
    omega

/-! ## Precision -/

open LogBuckets (width)

/-- What is reported for a value is above it by what its bucket has left. -/
theorem toNat_bucketUpper_indexOf (v : UInt64) :
    (bucketUpper (indexOf v)).toNat + 1 + v.toNat % width 6 v.toNat =
      v.toNat + width 6 v.toNat := by
  rw [toNat_bucketUpper (indexOf_lt v), toNat_indexOf]
  exact LogBuckets.lower_index_succ 6 v.toNat

/-- What is reported for a value exceeds it by at most a 128th exactly where the value
    lies high enough in its bucket: `width` values share the bucket, `v / width` is
    between 64 and 127 once buckets hold more than one value, and `v % width` is how far
    up in the bucket `v` is. -/
theorem precision_iff (v : UInt64) :
    128 * ((bucketUpper (indexOf v)).toNat - v.toNat : Int) ≤ v.toNat ↔
      (128 - v.toNat / width 6 v.toNat) * width 6 v.toNat ≤
        129 * (v.toNat % width 6 v.toNat) + 128 := by
  have hgap := toNat_bucketUpper_indexOf v
  have hdiv := Nat.div_add_mod' v.toNat (width 6 v.toNat)
  rw [Nat.sub_mul]
  omega

/-- Below 256 no bucket holds more than two values. -/
theorem precision_of_lt {v : UInt64} (h : v < 256) :
    128 * ((bucketUpper (indexOf v)).toNat - v.toNat : Int) ≤ v.toNat := by
  have hgap := toNat_bucketUpper_indexOf v
  have hlt : v.toNat < 2 ^ 8 := UInt64.lt_iff_toNat_lt.mp h
  rcases Nat.lt_or_ge v.toNat (2 ^ 7) with hsmall | hlarge
  · rw [LogBuckets.width_of_lt hsmall] at hgap
    omega
  · have hne : v.toNat ≠ 0 := by omega
    have hlog : v.toNat.log2 = 7 :=
      Nat.le_antisymm (Nat.le_of_lt_succ ((Nat.log2_lt hne).mpr hlt)) ((Nat.le_log2 hne).mpr hlarge)
    have hwidth : width 6 v.toNat = 2 := by
      rw [width, hlog]
      rfl
    rw [hwidth] at hgap
    omega

/-- 256 shares its bucket with 257, 258 and 259, and 259 is reported for it. -/
theorem not_precision_256 :
    ¬ 128 * ((bucketUpper (indexOf 256)).toNat - (256 : UInt64).toNat : Int) ≤
      (256 : UInt64).toNat := by
  decide

end Histogram

end Rdb
