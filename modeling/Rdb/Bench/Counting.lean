-- SUMMARY: The counting loops of the benchmarks: how often `for (long long i = 0; i < count; ++i)` runs, and the values it goes through.
import Mathlib.Algebra.Group.Nat.Defs
import Mathlib.Data.List.Basic

/-!
# Counting loops

The benchmarks count with `long long` and send `static_cast<std::uint64_t>(i)`. A loop
variable never exceeds its bound, so it never overflows, and a bound that is negative
means that the loop does not run at all.
-/

namespace Rdb

namespace Counting

/-- How often the body runs; a negative `count` is never. -/
def total (count : Int64) : Nat := count.toNatClampNeg

/-- The values `0, 1, ..., n - 1`. -/
def sequence (n : Nat) : List UInt64 := (List.range n).map UInt64.ofNat

@[simp] theorem length_sequence (n : Nat) : (sequence n).length = n := by simp [sequence]

theorem sequence_succ (n : Nat) : sequence (n + 1) = sequence n ++ [UInt64.ofNat n] := by
  simp [sequence, List.range_succ]

theorem sequence_prefix {n m : Nat} (h : n ≤ m) : sequence n <+: sequence m := by
  have htake : (List.range m).take n = List.range n := by
    rw [List.take_range, Nat.min_eq_left h]
  rw [sequence, ← htake, List.map_take]
  exact List.take_prefix _ _

theorem total_lt (count : Int64) : total count < 2 ^ 63 := count.toNatClampNeg_lt

theorem ofNat_lt_iff {count : Int64} {n : Nat} (hn : n ≤ total count) :
    Int64.ofNat n < count ↔ n < total count := by
  have hlt := total_lt count
  rw [Int64.lt_iff_toInt_lt, Int64.toInt_ofNat_of_lt (by omega), total, ← Int64.toNat_toInt]
  omega

theorem toNatClampNeg_ofNat {count : Int64} {n : Nat} (hn : n ≤ total count) :
    (Int64.ofNat n).toNatClampNeg = n :=
  Int64.toNatClampNeg_ofNat_of_lt (by have := total_lt count; omega)

/-- Division of a `long long` by a positive one, in counts. -/
theorem total_div {count divisor : Int64} (h : 0 < divisor) :
    total (count / divisor) = total count / total divisor := by
  have hpos : 0 < divisor.toInt := Int64.lt_iff_toInt_lt.mp h
  have hdiv : (count / divisor).toInt = count.toInt.tdiv divisor.toInt := by
    refine Int64.toInt_div_of_ne_right _ _ ?_
    rintro rfl
    exact absurd hpos (by decide)
  simp only [total, ← Int64.toNat_toInt, hdiv]
  rcases Int.le_total 0 count.toInt with hnonneg | hneg
  · obtain ⟨a, ha⟩ := Int.eq_ofNat_of_zero_le hnonneg
    obtain ⟨b, hb⟩ := Int.eq_ofNat_of_zero_le (Int.le_of_lt hpos)
    rw [ha, hb, Int.tdiv_eq_ediv_of_nonneg (Int.natCast_nonneg a), ← Int.natCast_ediv]
    rfl
  · have hquot : count.toInt.tdiv divisor.toInt ≤ 0 := by
      have hflip := Int.tdiv_nonneg (Int.neg_nonneg_of_nonpos hneg) (Int.le_of_lt hpos)
      rw [Int.neg_tdiv] at hflip
      omega
    rw [Int.toNat_of_nonpos hquot, Int.toNat_of_nonpos hneg, Nat.zero_div]

end Counting

end Rdb
