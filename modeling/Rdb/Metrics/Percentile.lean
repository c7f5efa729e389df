-- SUMMARY: Percentiles of a histogram as order statistics of the values recorded in it.
import Mathlib.Algebra.Order.Floor.Semiring
import Mathlib.Tactic.Linarith
import Rdb.Lib.OrderStatistic
import Rdb.Metrics.Histogram

/-!
# Percentiles

`percentile` adds up the bucket counts until it has seen the fraction `p` of the values.
In exact arithmetic the bucket where it stops is that of an order statistic of the values,
as `index_of` is monotone. In `double`s it can be another one, but still one with a value
in it, unless the target has come out as zero: then the scan stops before it has seen any.
-/

namespace Rdb

namespace Histogram

open OrderStatistic (kthSmallest)

/-! ## Counting the recorded values -/

/-- The number of values in the buckets before `i`. -/
def below (xs : List UInt64) (i : Nat) : Nat :=
  xs.countP fun v => decide ((indexOf v).toNat < i)

/-- The number of values in the bucket `i`. -/
def inBucket (xs : List UInt64) (i : Nat) : Nat :=
  xs.countP fun v => decide ((indexOf v).toNat = i)

theorem below_succ (xs : List UInt64) (i : Nat) :
    below xs (i + 1) = below xs i + inBucket xs i := by
  induction xs with
  | nil => rfl
  | cons v xs ih =>
      simp only [below, inBucket, List.countP_cons, decide_eq_true_eq] at ih ⊢
      rw [ih]
      split_ifs <;> omega

theorem below_le (xs : List UInt64) (i : Nat) : below xs i ≤ xs.length := List.countP_le_length

theorem getElem_recordAll (xs : List UInt64) {i : Nat} (hi : i < kBucketCount.toNat) :
    (new.recordAll xs).counts[i] = UInt64.ofNat (inBucket xs i) := by
  induction xs using List.reverseRecOn with
  | nil => simp [recordAll, new, inBucket]
  | append_singleton xs v ih =>
      rw [recordAll_append]
      change ((new.recordAll xs).record v).counts[i] = _
      rw [getElem_record, ih, inBucket, inBucket, List.countP_append, List.countP_singleton]
      split
      · rename_i heq
        rw [if_pos (by simpa using heq), UInt64.ofNat_add]
        rfl
      · rename_i hne
        rw [if_neg (by simpa using hne), Nat.add_zero]

theorem count_recordAll (xs : List UInt64) : (new.recordAll xs).count = UInt64.ofNat xs.length := by
  induction xs using List.reverseRecOn with
  | nil => rfl
  | append_singleton xs v ih =>
      rw [recordAll_append, List.length_append, List.length_singleton, UInt64.ofNat_add, ← ih]
      rfl

theorem toNat_count_recordAll {xs : List UInt64} (hlen : xs.length < 2 ^ 64) :
    (new.recordAll xs).count.toNat = xs.length := by
  rw [count_recordAll]
  exact UInt64.toNat_ofNat_of_lt' hlen

theorem count_recordAll_ne_zero {xs : List UInt64} (hne : xs ≠ []) (hlen : xs.length < 2 ^ 64) :
    (new.recordAll xs).count ≠ 0 := by
  intro hzero
  have hnat := toNat_count_recordAll hlen
  rw [hzero] at hnat
  exact hne (List.length_eq_zero_iff.mp hnat.symm)

/-- The extremes bound the values. -/
theorem extremes_recordAll {xs : List UInt64} {v : UInt64} (hv : v ∈ xs) :
    (new.recordAll xs).min_ ≤ v ∧ v ≤ (new.recordAll xs).max_ := by
  induction xs using List.reverseRecOn with
  | nil => cases hv
  | append_singleton xs w ih =>
      rw [recordAll_append, UInt64.le_iff_toNat_le, UInt64.le_iff_toNat_le]
      change ((new.recordAll xs).record w).min_.toNat ≤ _ ∧
        _ ≤ ((new.recordAll xs).record w).max_.toNat
      rw [toNat_record_min, toNat_record_max]
      rcases List.mem_append.mp hv with hv | hv
      · obtain ⟨hmin, hmax⟩ := ih hv
        rw [UInt64.le_iff_toNat_le] at hmin hmax
        omega
      · obtain rfl := List.mem_singleton.mp hv
        omega

/-! ## The scan -/

section Scan

variable {fl : ℚ → ℚ} {xs : List UInt64}

/-- One round of the scan: the running sum counts the values up to the bucket. -/
theorem scan_drop_succ (hlen : xs.length < 2 ^ 64) (target : ℚ) {i : Nat}
    (hi : i < kBucketCount.toNat) :
    scan fl target ((new.recordAll xs).counts.toList.drop i) (UInt64.ofNat i)
        (UInt64.ofNat (below xs i)) =
      if target ≤ fl (below xs (i + 1)) then some (bucketUpper (UInt64.ofNat i))
      else scan fl target ((new.recordAll xs).counts.toList.drop (i + 1)) (UInt64.ofNat (i + 1))
        (UInt64.ofNat (below xs (i + 1))) := by
  have hseen : UInt64.ofNat (below xs i) + (new.recordAll xs).counts[i] =
      UInt64.ofNat (below xs (i + 1)) := by
    rw [getElem_recordAll xs hi, ← UInt64.ofNat_add, ← below_succ]
  have hnat : (UInt64.ofNat (below xs (i + 1))).toNat = below xs (i + 1) :=
    UInt64.toNat_ofNat_of_lt' (Nat.lt_of_le_of_lt (below_le xs (i + 1)) hlen)
  have hi' : i < (new.recordAll xs).counts.toList.length := by
    rw [Vector.length_toList]
    exact hi
  rw [List.drop_eq_getElem_cons hi', Vector.getElem_toList, scan, hseen, hnat, UInt64.ofNat_add]
  rfl

/-- The scan stops at the first bucket up to which the target is reached. -/
theorem scan_drop (hlen : xs.length < 2 ^ 64) {target : ℚ} {i j : Nat}
    (hij : i ≤ j) (hj : j < kBucketCount.toNat)
    (hlow : ∀ m, i ≤ m → m < j → ¬ target ≤ fl (below xs (m + 1)))
    (hreach : target ≤ fl (below xs (j + 1))) :
    scan fl target ((new.recordAll xs).counts.toList.drop i) (UInt64.ofNat i)
      (UInt64.ofNat (below xs i)) = some (bucketUpper (UInt64.ofNat j)) := by
  induction hn : j - i generalizing i with
  | zero =>
      obtain rfl : i = j := by omega
      rw [scan_drop_succ hlen target hj, if_pos hreach]
  | succ n ih =>
      rw [scan_drop_succ hlen target (by omega), if_neg (hlow i (Nat.le_refl i) (by omega))]
      exact ih (by omega) (fun m hm => hlow m (by omega)) (by omega)

/-- The bucket of a percentile: the first one up to which the target is reached. -/
theorem percentile_eq_of_reach (hne : xs ≠ []) (hlen : xs.length < 2 ^ 64)
    {p : ℚ} {j : Nat} (hj : j < kBucketCount.toNat)
    (hlow : ∀ m, m < j → ¬ (new.recordAll xs).target fl p ≤ fl (below xs (m + 1)))
    (hreach : (new.recordAll xs).target fl p ≤ fl (below xs (j + 1))) :
    scan fl ((new.recordAll xs).target fl p) (new.recordAll xs).counts.toList 0 0 =
        some (bucketUpper (UInt64.ofNat j)) ∧
      (new.recordAll xs).percentileWith fl p = bucketUpper (UInt64.ofNat j) := by
  have hzero : below xs 0 = 0 := by simp [below]
  have hscan : scan fl ((new.recordAll xs).target fl p) (new.recordAll xs).counts.toList 0 0 =
      some (bucketUpper (UInt64.ofNat j)) := by
    have hdrop := scan_drop hlen (Nat.zero_le j) hj (fun m _ => hlow m) hreach
    rwa [hzero] at hdrop
  rw [percentileWith, if_neg (count_recordAll_ne_zero hne hlen), hscan]
  exact ⟨rfl, rfl⟩

/-- The target, with the two tests of the clamp in one. -/
theorem target_eq (hlen : xs.length < 2 ^ 64) (p : ℚ) :
    (new.recordAll xs).target fl p = fl (fl (Max.max 0 (Min.min p 100) / 100) * fl xs.length) := by
  have hclamp : (if (if p < 0 then 0 else p) > 100 then 100 else if p < 0 then 0 else p) =
      Max.max 0 (Min.min p 100) := by
    split_ifs with hneg hbig hbig
    · norm_num at hbig
    · rw [min_eq_left (by linarith), max_eq_left hneg.le]
    · rw [min_eq_right hbig.le, max_eq_right (by norm_num)]
    · rw [min_eq_left (not_lt.mp hbig), max_eq_right (not_lt.mp hneg)]
  rw [target, toNat_count_recordAll hlen]
  exact congrArg (fun c : ℚ => fl (fl (c / 100) * fl xs.length)) hclamp

end Scan

/-! ## Ranks -/

/-- The rank that `percentile(p)` looks for, zero if `p` is not positive. -/
def rank (p : ℚ) (n : Nat) : Nat := ⌈Min.min p 100 * n / 100⌉₊

theorem rank_pos {p : ℚ} (hp : 0 < p) {n : Nat} (hn : 0 < n) : 0 < rank p n := by
  refine Nat.ceil_pos.mpr ?_
  have hclamp : 0 < Min.min p 100 := lt_min hp (by norm_num)
  positivity

theorem rank_le (p : ℚ) (n : Nat) : rank p n ≤ n := by
  refine Nat.ceil_le.mpr ?_
  have hclamp : Min.min p 100 ≤ 100 := min_le_right p 100
  have hn : (0 : ℚ) ≤ n := Nat.cast_nonneg n
  rw [div_le_iff₀ (by norm_num)]
  nlinarith

/-- An integer reaches the exact target when it reaches the rank. -/
theorem target_le_iff {xs : List UInt64} (hlen : xs.length < 2 ^ 64) (p : ℚ) (m : Nat) :
    (new.recordAll xs).target id p ≤ m ↔ rank p xs.length ≤ m := by
  have hn : (0 : ℚ) ≤ xs.length := Nat.cast_nonneg _
  have hm : (0 : ℚ) ≤ m := Nat.cast_nonneg m
  rw [rank, Nat.ceil_le, target_eq hlen, id, id, id, div_mul_eq_mul_div]
  rcases le_total 0 (Min.min p 100) with hpos | hneg
  · rw [max_eq_right hpos]
  · -- clamped to zero, a target that is reached at once
    have hclamp : Min.min p 100 * xs.length / 100 ≤ 0 :=
      div_nonpos_of_nonpos_of_nonneg (mul_nonpos_of_nonpos_of_nonneg hneg hn) (by norm_num)
    rw [max_eq_left hneg]
    exact iff_of_true (by linarith) (by linarith)

/-- The `k`-th smallest of the values, counted from one. -/
def kth (xs : List UInt64) (k : Nat) : Option UInt64 :=
  kthSmallest (fun a b => decide (a ≤ b)) xs k

theorem le_trans_word (a b c : UInt64) (hab : decide (a ≤ b) = true) (hbc : decide (b ≤ c) = true) :
    decide (a ≤ c) = true :=
  decide_eq_true (UInt64.le_trans (of_decide_eq_true hab) (of_decide_eq_true hbc))

theorem le_total_word (a b : UInt64) : (decide (a ≤ b) || decide (b ≤ a)) = true := by
  rw [Bool.or_eq_true, decide_eq_true_eq, decide_eq_true_eq]
  exact UInt64.le_total a b

/-- Up to a bucket there are `k` values exactly when the `k`-th smallest is among them. -/
theorem le_below_succ_iff {xs : List UInt64} {k : Nat} (hpos : 0 < k) {s : UInt64}
    (hs : kth xs k = some s) (m : Nat) : k ≤ below xs (m + 1) ↔ (indexOf s).toNat ≤ m := by
  have hiff := OrderStatistic.le_countP_iff le_trans_word le_total_word
    (P := fun v => decide ((indexOf v).toNat < m + 1)) ?_ hpos hs
  · rwa [decide_eq_true_eq, Nat.lt_succ_iff] at hiff
  intro a b hab hb
  have hmono := indexOf_mono (of_decide_eq_true hab)
  rw [UInt64.le_iff_toNat_le] at hmono
  have hlt := of_decide_eq_true hb
  exact decide_eq_true (by omega)

/-- The exact scan finds the bucket of the order statistic. -/
theorem percentile_eq_kth {xs : List UInt64} (hne : xs ≠ []) (hlen : xs.length < 2 ^ 64) {p : ℚ}
    (hp : 0 < p) {s : UInt64} (hs : kth xs (rank p xs.length) = some s) :
    scan id ((new.recordAll xs).target id p) (new.recordAll xs).counts.toList 0 0 =
        some (bucketUpper (indexOf s)) ∧
      (new.recordAll xs).percentileExact p = bucketUpper (indexOf s) := by
  have hpos := rank_pos hp (List.length_pos_iff.mpr hne)
  have heq := @percentile_eq_of_reach id xs hne hlen p _ (toNat_indexOf_lt s) ?_ ?_
  · rwa [UInt64.ofNat_toNat] at heq
  · intro m hm
    rw [id, target_le_iff hlen, le_below_succ_iff hpos hs]
    omega
  · rw [id, target_le_iff hlen, le_below_succ_iff hpos hs]

/-! ## The gap -/

/-- A bucket is narrow: its upper bound is less than a 64th above each of its values, and
    values below 64 are their own bounds. -/
theorem bucketUpper_gap (s : UInt64) :
    (64 ≤ s → ((bucketUpper (indexOf s)).toNat : ℚ) - s.toNat < s.toNat / 64) ∧
      (s < 64 → bucketUpper (indexOf s) = s) := by
  have hupper := toNat_bucketUpper_indexOf s
  refine ⟨?_, ?_⟩
  · intro hs
    have hwidth := LogBuckets.width_mul_le (k := 6) (UInt64.le_iff_toNat_le.mp hs)
    have hgap : ((bucketUpper (indexOf s)).toNat + 1) * 64 ≤ s.toNat * 64 + s.toNat := by omega
    have hgap' : (((bucketUpper (indexOf s)).toNat : ℚ) + 1) * 64 ≤ s.toNat * 64 + s.toNat := by
      exact_mod_cast hgap
    rw [lt_div_iff₀ (by norm_num)]
    linarith
  · intro hs
    have hs' : s.toNat < 64 := UInt64.lt_iff_toNat_lt.mp hs
    rw [LogBuckets.width_of_lt (by omega), Nat.mod_one] at hupper
    exact UInt64.toNat.inj (Nat.add_right_cancel hupper)

/-! ## Percentiles are order statistics -/

/-- **Percentiles are order statistics up to bucketing.** For `0 < p ≤ 100`, the exact
    percentile of recorded values is the upper bound of the bucket of the `k`-th smallest,
    `k = ⌈p * n / 100⌉`; it is not below that value, exact below 64 and less than a 64th
    above it otherwise; and the scan ends inside its loop. -/
theorem percentile_order_statistic {xs : List UInt64} (hne : xs ≠ []) (hlen : xs.length < 2 ^ 64)
    {p : ℚ} (hp : 0 < p) (hp' : p ≤ 100) :
    ∃ s, kth xs ⌈p * xs.length / 100⌉₊ = some s ∧
      (new.recordAll xs).percentileExact p = bucketUpper (indexOf s) ∧
      s ≤ (new.recordAll xs).percentileExact p ∧
      (64 ≤ s → (((new.recordAll xs).percentileExact p).toNat : ℚ) - s.toNat < s.toNat / 64) ∧
      (s < 64 → (new.recordAll xs).percentileExact p = s) ∧
      scan id ((new.recordAll xs).target id p) (new.recordAll xs).counts.toList 0 0 =
        some ((new.recordAll xs).percentileExact p) := by
  have hrank : rank p xs.length = ⌈p * xs.length / 100⌉₊ := by rw [rank, min_eq_left hp']
  obtain ⟨s, hs⟩ := OrderStatistic.exists_kthSmallest (fun a b : UInt64 => decide (a ≤ b))
    (rank_pos hp (List.length_pos_iff.mpr hne)) (rank_le p xs.length)
  obtain ⟨hscan, heq⟩ := percentile_eq_kth hne hlen hp hs
  obtain ⟨hgap, hexact⟩ := bucketUpper_gap s
  refine ⟨s, hrank ▸ hs, heq, ?_⟩
  rw [heq]
  exact ⟨le_bucketUpper_indexOf s, hgap, hexact, hscan⟩

/-- The median of three values, one of them far out. -/
theorem percentile_order_statistic_median :
    ∃ s, kth [5, 70000, 7] ⌈(50 : ℚ) * 3 / 100⌉₊ = some s ∧
      (new.recordAll [5, 70000, 7]).percentileExact 50 = bucketUpper (indexOf s) := by
  obtain ⟨s, hs, heq, -⟩ := @percentile_order_statistic [5, 70000, 7] (by decide) (by decide) 50
    (by norm_num) (by norm_num)
  exact ⟨s, hs, heq⟩

/-! ## Percentiles in doubles -/

section Double

open BinaryFormat

variable {xs : List UInt64} {p q : ℚ}

/-- The least positive result of `p / 100`, and the half of it that is lost. -/
theorem round_div_pos_iff {c : ℚ} (hc : 0 ≤ c) :
    0 < binary64.round (c / 100) ↔ 100 * 2 ^ (-1075 : ℤ) < c := by
  rw [round_pos_iff (div_nonneg hc (by norm_num)), lt_div_iff₀' (by norm_num)]
  rfl

theorem one_le_round_natCast {n : Nat} (hn : 0 < n) : 1 ≤ binary64.round n := by
  rw [← round_one (f := binary64) (by decide)]
  exact round_mono zero_le_one (by exact_mod_cast hn)

variable (hlen : xs.length < 2 ^ 64)

include hlen

/-- The target is lost where `p / 100` is. -/
theorem target_pos_iff (hne : xs ≠ []) :
    0 < (new.recordAll xs).target binary64.round p ↔ 100 * 2 ^ (-1075 : ℤ) < p := by
  have hcount := one_le_round_natCast (List.length_pos_iff.mpr hne)
  have hclamp : 0 ≤ Max.max 0 (Min.min p 100) := le_max_left _ _
  have hiff := round_div_pos_iff hclamp
  have hp : 100 * 2 ^ (-1075 : ℤ) < Max.max 0 (Min.min p 100) ↔ 100 * 2 ^ (-1075 : ℤ) < p := by
    have hpos := zpow_pos_two (-1075)
    have hsmall : (2 : ℚ) ^ (-1075 : ℤ) < 1 := zpow_lt_one_of_neg₀ (by norm_num) (by norm_num)
    rw [lt_max_iff, or_iff_right (by linarith), lt_min_iff, and_iff_left (by linarith)]
  rw [target_eq hlen, ← hp, ← hiff]
  have hfrac := round_nonneg (f := binary64) (div_nonneg hclamp (by norm_num : (0 : ℚ) ≤ 100))
  constructor
  · intro h
    refine hfrac.lt_of_ne fun hzero => ?_
    rw [← hzero, zero_mul, BinaryFormat.round_zero] at h
    exact lt_irrefl 0 h
  · intro h
    rw [round_pos_iff (mul_nonneg hfrac (zero_le_one.trans hcount))]
    -- the quotient is at least the least number, and the count does not make it less
    calc (2 : ℚ) ^ (binary64.minExp - 1) < 2 ^ binary64.minExp :=
          zpow_lt_zpow_right₀ (by norm_num) (by omega)
      _ ≤ binary64.round (Max.max 0 (Min.min p 100) / 100) := zpow_minExp_le h
      _ ≤ _ := le_mul_of_one_le_right hfrac hcount

theorem target_mono (hpq : p ≤ q) :
    (new.recordAll xs).target binary64.round p ≤ (new.recordAll xs).target binary64.round q := by
  have hcount := round_nonneg (f := binary64) (Nat.cast_nonneg (α := ℚ) xs.length)
  have hclamp : 0 ≤ Max.max 0 (Min.min p 100) / 100 := div_nonneg (le_max_left _ _) (by norm_num)
  rw [target_eq hlen, target_eq hlen]
  refine round_mono (mul_nonneg (round_nonneg hclamp) hcount) ?_
  refine mul_le_mul_of_nonneg_right (round_mono hclamp ?_) hcount
  gcongr

/-- All the values reach the target. -/
theorem target_le_length : (new.recordAll xs).target binary64.round p ≤
    binary64.round xs.length := by
  have hn : (0 : ℚ) ≤ xs.length := Nat.cast_nonneg _
  have hcount := round_nonneg (f := binary64) hn
  have hclamp : 0 ≤ Max.max 0 (Min.min p 100) / 100 := div_nonneg (le_max_left _ _) (by norm_num)
  have hone : binary64.round (Max.max 0 (Min.min p 100) / 100) ≤ 1 := by
    rw [← round_one (f := binary64) (by decide)]
    refine round_mono hclamp ?_
    rw [div_le_one (by norm_num)]
    exact max_le (by norm_num) (min_le_right _ _)
  rw [target_eq hlen]
  calc _ ≤ binary64.round (binary64.round xs.length) :=
        round_mono (mul_nonneg (round_nonneg hclamp) hcount) (mul_le_of_le_one_left hcount hone)
    _ = binary64.round xs.length := round_round hn

/-- The scan stops at some bucket, the first one up to which the target is reached. -/
theorem exists_first_reach (p : ℚ) :
    ∃ j < kBucketCount.toNat,
      (∀ m < j, ¬ (new.recordAll xs).target binary64.round p ≤
        binary64.round (below xs (m + 1))) ∧
      (new.recordAll xs).target binary64.round p ≤ binary64.round (below xs (j + 1)) := by
  have hlast : below xs (kBucketCount.toNat - 1 + 1) = xs.length := by
    rw [Nat.sub_add_cancel (by decide)]
    exact List.countP_eq_length.mpr fun v _ => decide_eq_true (toNat_indexOf_lt v)
  have hex : ∃ j, (new.recordAll xs).target binary64.round p ≤
      binary64.round (below xs (j + 1)) :=
    ⟨kBucketCount.toNat - 1, hlast ▸ target_le_length hlen⟩
  classical
  refine ⟨Nat.find hex, ?_, fun m hm => Nat.find_min hex hm, Nat.find_spec hex⟩
  exact (Nat.find_min' hex (hlast ▸ target_le_length hlen)).trans_lt (by decide)

omit hlen in
/-- At the quartiles, and so at the median, nothing is rounded: the percentile in doubles is
    the exact one. -/
theorem percentile_quartile (hne : xs ≠ []) (hexact : xs.length < 2 ^ 51) {m : Nat} (hm : m ≤ 4) :
    (new.recordAll xs).percentile (25 * m) = (new.recordAll xs).percentileExact (25 * m) := by
  have hlen : xs.length < 2 ^ 64 := hexact.trans (by decide)
  have hquarter : Max.max 0 (Min.min (25 * m : ℚ) 100) / 100 = m * 2 ^ (-2 : ℤ) := by
    have hm' : (m : ℚ) ≤ 4 := by exact_mod_cast hm
    rw [min_eq_left (by linarith), max_eq_right (by positivity)]
    norm_num
    ring
  have hcount : ∀ {n : Nat}, n ≤ xs.length → binary64.round n = n := fun {n} hn => by
    have hbits : n < 2 ^ binary64.precision := hn.trans_lt (hexact.trans (by decide))
    simpa using round_of_lt hbits (e := 0) (by decide)
  have htarget : (new.recordAll xs).target binary64.round (25 * m) =
      (new.recordAll xs).target id (25 * m) := by
    have hprod : ((m : ℚ) * 2 ^ (-2 : ℤ)) * xs.length = (m * xs.length : ℕ) * 2 ^ (-2 : ℤ) := by
      push_cast
      ring
    have hbits : m * xs.length < 2 ^ binary64.precision := by
      change m * xs.length < 2 ^ 53
      have := Nat.mul_le_mul_right xs.length hm
      omega
    rw [target_eq hlen, target_eq hlen, hquarter, hcount le_rfl,
      round_of_lt (hm.trans_lt (by decide)) (by decide), hprod, round_of_lt hbits (by decide)]
    exact hprod.symm
  obtain ⟨j, hj, hlow, hreach⟩ := exists_first_reach hlen (25 * m : ℚ)
  refine (percentile_eq_of_reach hne hlen hj hlow hreach).2.trans ?_
  simp only [hcount (below_le xs _), htarget] at hlow hreach
  exact (@percentile_eq_of_reach id xs hne hlen _ j hj hlow hreach).2.symm

end Double

/-! ## The range of percentiles -/

/-- The percentile is the upper bound of a bucket with a recorded value in it, between
    the least value and the bound of the greatest. -/
structure InRange (xs : List UInt64) (p : ℚ) : Prop where
  bucket : ∃ v ∈ xs, (new.recordAll xs).percentile p = bucketUpper (indexOf v)
  min_le : (new.recordAll xs).min ≤ (new.recordAll xs).percentile p
  le_max : (new.recordAll xs).percentile p ≤ bucketUpper (indexOf (new.recordAll xs).max)

section Range

variable {xs : List UInt64} (hne : xs ≠ []) (hlen : xs.length < 2 ^ 64) {p q : ℚ}

include hne hlen

theorem min_recordAll : (new.recordAll xs).min = (new.recordAll xs).min_ :=
  if_neg (count_recordAll_ne_zero hne hlen)

theorem inRange_of_bucket {v : UInt64} (hv : v ∈ xs)
    (heq : (new.recordAll xs).percentile p = bucketUpper (indexOf v)) : InRange xs p where
  bucket := ⟨v, hv, heq⟩
  min_le := by
    rw [min_recordAll hne hlen, heq]
    exact UInt64.le_trans (extremes_recordAll hv).1 (le_bucketUpper_indexOf v)
  le_max := by
    rw [heq]
    exact bucketUpper_mono (indexOf_lt _) (indexOf_mono (extremes_recordAll hv).2)

/-- A target that is not zero is first reached in a bucket with a value in it. -/
theorem inRange_of_target_pos
    (hp : 0 < (new.recordAll xs).target BinaryFormat.binary64.round p) : InRange xs p := by
  obtain ⟨j, hj, hlow, hreach⟩ := exists_first_reach hlen p
  have hbucket : inBucket xs j ≠ 0 := by
    intro hempty
    rw [below_succ, hempty, Nat.add_zero] at hreach
    cases j with
    | zero =>
        have hzero : below xs 0 = 0 := by simp [below]
        rw [hzero, Nat.cast_zero, BinaryFormat.round_zero] at hreach
        exact absurd hp (not_lt.mpr hreach)
    | succ m => exact hlow m (Nat.lt_succ_self m) hreach
  obtain ⟨v, hv, hindex⟩ := List.countP_pos_iff.mp (Nat.pos_of_ne_zero hbucket)
  refine inRange_of_bucket hne hlen hv ?_
  rw [percentile, (percentile_eq_of_reach hne hlen hj hlow hreach).2, ← of_decide_eq_true hindex,
    UInt64.ofNat_toNat]

/-- Nothing has to be seen for a target of zero. -/
theorem percentile_of_target_nonpos
    (hp : (new.recordAll xs).target BinaryFormat.binary64.round p ≤ 0) :
    (new.recordAll xs).percentile p = 0 := by
  have hseen : (0 : ℚ) ≤ below xs (0 + 1) := Nat.cast_nonneg _
  exact (percentile_eq_of_reach hne hlen (by decide) (fun m hm => by omega)
    (hp.trans (BinaryFormat.round_nonneg hseen))).2

/-- The bucket of zero holds nothing but zeros. -/
theorem inRange_iff_of_target_nonpos
    (hp : (new.recordAll xs).target BinaryFormat.binary64.round p ≤ 0) :
    InRange xs p ↔ 0 ∈ xs := by
  have hzero := percentile_of_target_nonpos hne hlen hp
  constructor
  · intro h
    obtain ⟨v, hv, heq⟩ := h.bucket
    have hle := le_bucketUpper_indexOf v
    rw [← heq, hzero, UInt64.le_zero_iff] at hle
    exact hle ▸ hv
  · intro hmem
    exact inRange_of_bucket hne hlen hmem hzero

/-- A greater target is first reached at a later bucket. -/
theorem percentile_mono (hpq : p ≤ q) :
    (new.recordAll xs).percentile p ≤ (new.recordAll xs).percentile q := by
  obtain ⟨i, hi, hlow, hreach⟩ := exists_first_reach hlen p
  obtain ⟨j, hj, hlow', hreach'⟩ := exists_first_reach hlen q
  have hij : i ≤ j := by
    by_contra hlt
    exact hlow j (by omega) ((target_mono hlen hpq).trans hreach')
  have hword : ∀ {k}, k < kBucketCount.toNat → (UInt64.ofNat k).toNat = k := fun hk =>
    UInt64.toNat_ofNat_of_lt' (hk.trans kBucketCount.toNat_lt)
  rw [percentile, (percentile_eq_of_reach hne hlen hi hlow hreach).2,
    (percentile_eq_of_reach hne hlen hj hlow' hreach').2]
  refine bucketUpper_mono ?_ ?_
  · rwa [UInt64.lt_iff_toNat_lt, hword hj]
  · rwa [UInt64.le_iff_toNat_le, hword hi, hword hj]

/-- **Percentiles stay within the recorded range**, exactly for a `p` whose hundredth part
    does not round to zero, or where a zero was recorded; and they never decrease in `p`. -/
theorem percentile_inRange_iff :
    (∀ p, InRange xs p ↔ 100 * 2 ^ (-1075 : ℤ) < p ∨ 0 ∈ xs) ∧
      ∀ p q, p ≤ q → (new.recordAll xs).percentile p ≤ (new.recordAll xs).percentile q := by
  refine ⟨?_, fun p q => percentile_mono hne hlen⟩
  intro p
  rw [← target_pos_iff hlen hne]
  rcases le_or_gt ((new.recordAll xs).target BinaryFormat.binary64.round p) 0 with hp | hp
  · rw [inRange_iff_of_target_nonpos hne hlen hp, or_iff_right (not_lt.mpr hp)]
  · exact iff_of_true (inRange_of_target_pos hne hlen hp) (.inl hp)

end Range

/-- The least percentile of a histogram with a zero in it. -/
theorem percentile_inRange_iff_zero : InRange [0, 9] 0 :=
  ((percentile_inRange_iff (by decide) (by decide)).1 0).mpr (.inr (by decide))

/-- The least percentile of a single value is below that value. -/
theorem percentile_below_min :
    ¬ ∀ (xs : List UInt64) (p : ℚ), xs ≠ [] → xs.length < 2 ^ 64 → InRange xs p := by
  intro h
  have htarget : ¬ 0 < (new.recordAll [5]).target BinaryFormat.binary64.round 0 := by
    rw [target_pos_iff (by decide) (by decide)]
    exact not_lt.mpr (mul_nonneg (by norm_num) (BinaryFormat.zpow_pos_two (-1075)).le)
  have hrange := h [5] 0 (by decide) (by decide)
  rw [inRange_iff_of_target_nonpos (by decide) (by decide) (not_lt.mp htarget)] at hrange
  exact absurd hrange (by decide)

end Histogram

end Rdb
