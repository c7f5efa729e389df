-- SUMMARY: The histogram of `metrics/histogram.h`, and that merging histograms is recording everything in one.
import Mathlib.Data.List.Induction
import Rdb.Lib.BinaryFormat
import Rdb.Metrics.Buckets

/-!
# Histogram

A histogram counts its values per bucket and keeps their number, sum and extremes, all
in 64-bit words that wrap. Every histogram is the result of recording values in some
order, however it came about: recording commutes with itself and with merging. Only
`percentile` computes in `double`s, and every operation of it rounds.
-/

namespace Rdb

/-- `min_` and `max_` of an empty histogram are the greatest and the least word. -/
structure Histogram where
  counts : Vector UInt64 Histogram.kBucketCount.toNat
  count : UInt64
  sum : UInt64
  min_ : UInt64
  max_ : UInt64
  deriving DecidableEq

namespace Histogram

def new : Histogram where
  counts := .replicate _ 0
  count := 0
  sum := 0
  min_ := UInt64.ofNat (2 ^ 64 - 1)
  max_ := 0

theorem toNat_indexOf_lt (v : UInt64) : (indexOf v).toNat < kBucketCount.toNat :=
  UInt64.lt_iff_toNat_lt.mp (indexOf_lt v)

def record (h : Histogram) (value : UInt64) : Histogram where
  counts := h.counts.set (indexOf value).toNat
    (h.counts.get ⟨(indexOf value).toNat, toNat_indexOf_lt value⟩ + 1) (toNat_indexOf_lt value)
  count := h.count + 1
  sum := h.sum + value
  min_ := if value < h.min_ then value else h.min_
  max_ := if value > h.max_ then value else h.max_

def merge (h other : Histogram) : Histogram where
  counts := .zipWith (· + ·) h.counts other.counts
  count := h.count + other.count
  sum := h.sum + other.sum
  min_ := Min.min h.min_ other.min_
  max_ := Max.max h.max_ other.max_

def reset (_ : Histogram) : Histogram where
  counts := .replicate _ 0
  count := 0
  sum := 0
  min_ := UInt64.ofNat (2 ^ 64 - 1)
  max_ := 0

/-- `min()` -/
def min (h : Histogram) : UInt64 := if h.count = 0 then 0 else h.min_

/-- `max()` -/
def max (h : Histogram) : UInt64 := h.max_

/-- The loop of `percentile` from bucket `i` on, with `seen` values before it. It falls
    through if no bucket reaches the target. The conversion of a count is rounded by `fl`. -/
def scan (fl : ℚ → ℚ) (target : ℚ) : List UInt64 → UInt64 → UInt64 → Option UInt64
  | [], _, _ => none
  | c :: counts, i, seen =>
    if fl (seen + c).toNat ≥ target then some (bucketUpper i)
    else scan fl target counts (i + 1) (seen + c)

/-- The target of `percentile(p)`, with `p` clamped to `0..100`. -/
def target (fl : ℚ → ℚ) (h : Histogram) (p : ℚ) : ℚ :=
  let p := if p < 0 then 0 else p
  let p := if p > 100 then 100 else p
  fl (fl (p / 100) * fl h.count.toNat)

/-- `percentile(p)`, each result of its arithmetic rounded by `fl`. -/
def percentileWith (fl : ℚ → ℚ) (h : Histogram) (p : ℚ) : UInt64 :=
  if h.count = 0 then 0 else (scan fl (h.target fl p) h.counts.toList 0 0).getD h.max_

/-- `percentile(p)`, in `double`s -/
def percentile : Histogram → ℚ → UInt64 := percentileWith BinaryFormat.binary64.round

/-- `percentile(p)`, with `seen >= p / 100 * count` read in exact arithmetic. -/
def percentileExact : Histogram → ℚ → UInt64 := percentileWith id

/-- Record the values of a sequence, one after the other. -/
def recordAll (h : Histogram) (values : List UInt64) : Histogram := values.foldl record h

@[simp] theorem recordAll_append (h : Histogram) (xs ys : List UInt64) :
    h.recordAll (xs ++ ys) = (h.recordAll xs).recordAll ys := List.foldl_append

/-! ## Equality of histograms -/

theorem toNat_minOf (a b : UInt64) : (Min.min a b).toNat = Min.min a.toNat b.toNat := by
  change (if a ≤ b then a else b).toNat = _
  split
  · rename_i hle
    rw [UInt64.le_iff_toNat_le] at hle
    omega
  · rename_i hle
    rw [UInt64.le_iff_toNat_le] at hle
    omega

theorem toNat_maxOf (a b : UInt64) : (Max.max a b).toNat = Max.max a.toNat b.toNat := by
  change (if a ≤ b then b else a).toNat = _
  split
  · rename_i hle
    rw [UInt64.le_iff_toNat_le] at hle
    omega
  · rename_i hle
    rw [UInt64.le_iff_toNat_le] at hle
    omega

theorem toNat_record_min (h : Histogram) (v : UInt64) :
    (h.record v).min_.toNat = Min.min h.min_.toNat v.toNat := by
  simp only [record]
  split
  · rename_i hlt
    rw [UInt64.lt_iff_toNat_lt] at hlt
    omega
  · rename_i hlt
    rw [UInt64.lt_iff_toNat_lt] at hlt
    omega

theorem toNat_record_max (h : Histogram) (v : UInt64) :
    (h.record v).max_.toNat = Max.max h.max_.toNat v.toNat := by
  simp only [record]
  split
  · rename_i hlt
    rw [gt_iff_lt, UInt64.lt_iff_toNat_lt] at hlt
    omega
  · rename_i hlt
    rw [gt_iff_lt, UInt64.lt_iff_toNat_lt] at hlt
    omega

/-- The count of a bucket after a value was recorded. -/
theorem getElem_record (h : Histogram) (v : UInt64) {i : Nat} (hi : i < kBucketCount.toNat) :
    (h.record v).counts[i] =
      if (indexOf v).toNat = i then h.counts[i] + 1 else h.counts[i] := by
  simp only [record, Vector.getElem_set]
  split
  · rename_i heq
    subst heq
    rfl
  · rfl

theorem getElem_merge (h other : Histogram) {i : Nat} (hi : i < kBucketCount.toNat) :
    (h.merge other).counts[i] = h.counts[i] + other.counts[i] := by
  simp only [merge, Vector.getElem_zipWith]

/-- Histograms are equal when their counts, sums and extremes are. -/
theorem ext_words {h h' : Histogram}
    (hcounts : ∀ i, (hi : i < kBucketCount.toNat) → h.counts[i] = h'.counts[i])
    (hcount : h.count = h'.count) (hsum : h.sum = h'.sum) (hmin : h.min_.toNat = h'.min_.toNat)
    (hmax : h.max_.toNat = h'.max_.toNat) : h = h' := by
  cases h
  cases h'
  rw [mk.injEq]
  exact ⟨Vector.ext hcounts, hcount, hsum, UInt64.toNat.inj hmin, UInt64.toNat.inj hmax⟩

/-! ## Recording and merging commute -/

theorem record_comm (h : Histogram) (v w : UInt64) :
    (h.record v).record w = (h.record w).record v := by
  refine ext_words ?_ rfl ?_ ?_ ?_
  · intro i hi
    simp only [getElem_record]
    split <;> split <;> rfl
  · simp only [record]
    ac_rfl
  · simp only [toNat_record_min]
    omega
  · simp only [toNat_record_max]
    omega

theorem merge_comm (h g : Histogram) : h.merge g = g.merge h := by
  refine ext_words ?_ ?_ ?_ ?_ ?_
  · intro i hi
    rw [getElem_merge, getElem_merge, UInt64.add_comm]
  · exact UInt64.add_comm _ _
  · exact UInt64.add_comm _ _
  · simp only [merge, toNat_minOf]
    omega
  · simp only [merge, toNat_maxOf]
    omega

theorem merge_assoc (h g f : Histogram) : (h.merge g).merge f = h.merge (g.merge f) := by
  refine ext_words ?_ ?_ ?_ ?_ ?_
  · intro i hi
    simp only [getElem_merge, UInt64.add_assoc]
  · exact UInt64.add_assoc _ _ _
  · exact UInt64.add_assoc _ _ _
  · simp only [merge, toNat_minOf]
    omega
  · simp only [merge, toNat_maxOf]
    omega

/-- The extremes of an empty histogram are neutral. -/
theorem merge_new (h : Histogram) : h.merge new = h := by
  refine ext_words ?_ ?_ ?_ ?_ ?_
  · intro i hi
    rw [getElem_merge]
    simp [new]
  · exact UInt64.add_zero _
  · exact UInt64.add_zero _
  · have hlt := h.min_.toNat_lt
    have hword : (UInt64.ofNat (2 ^ 64 - 1)).toNat = 2 ^ 64 - 1 := rfl
    simp only [merge, new, toNat_minOf, hword]
    omega
  · simp only [merge, new, toNat_maxOf, UInt64.toNat_zero]
    omega

theorem merge_record (h g : Histogram) (v : UInt64) :
    h.merge (g.record v) = (h.merge g).record v := by
  refine ext_words ?_ ?_ ?_ ?_ ?_
  · intro i hi
    simp only [getElem_merge, getElem_record]
    split
    · exact (UInt64.add_assoc _ _ _).symm
    · rfl
  · exact (UInt64.add_assoc _ _ _).symm
  · exact (UInt64.add_assoc _ _ _).symm
  · simp only [toNat_record_min, merge, toNat_minOf]
    omega
  · simp only [toNat_record_max, merge, toNat_maxOf]
    omega

theorem merge_recordAll (h g : Histogram) (xs : List UInt64) :
    h.merge (g.recordAll xs) = (h.merge g).recordAll xs := by
  induction xs using List.reverseRecOn with
  | nil => rfl
  | append_singleton xs v ih =>
      rw [recordAll_append, recordAll_append, ← ih]
      exact merge_record h _ v

/-- The order of the values does not matter. -/
theorem recordAll_perm {xs ys : List UInt64} (hperm : xs.Perm ys) (h : Histogram) :
    h.recordAll xs = h.recordAll ys :=
  hperm.foldl_eq' (fun v _ w _ g => record_comm g v w) h

theorem reset_eq_new (h : Histogram) : h.reset = new := rfl

/-! ## Every histogram -/

/-- How a histogram came about. -/
inductive Build where
  | new
  | reset (b : Build)
  | record (b : Build) (value : UInt64)
  | merge (b other : Build)

/-- The histogram that comes out. -/
def Build.run : Build → Histogram
  | .new            => Histogram.new
  | .reset b        => b.run.reset
  | .record b value => b.run.record value
  | .merge b other  => b.run.merge other.run

/-- The values that went in since the last `reset`. -/
def Build.values : Build → List UInt64
  | .new            => []
  | .reset _        => []
  | .record b value => b.values ++ [value]
  | .merge b other  => b.values ++ other.values

theorem Build.run_eq (b : Build) : b.run = Histogram.new.recordAll b.values := by
  induction b with
  | new => rfl
  | reset b => rfl
  | record b value ih =>
      rw [Build.run, ih, Build.values, recordAll_append]
      rfl
  | merge b other ihb iho =>
      rw [Build.run, ihb, iho, merge_recordAll, merge_new, Build.values, recordAll_append]

/-- **Merging is recording everything in one.** However histograms were filled, reset
    and merged, in any order and nesting, the outcome is the state of one new or reset
    histogram that recorded all their values in any order, and it answers the same.
    Merging is associative and commutative, and an empty histogram is neutral. -/
theorem merge_records_everything :
    (∀ (b : Build) (xs : List UInt64) (start : Histogram), xs.Perm b.values →
      (start = new ∨ ∃ h, start = reset h) →
      b.run = start.recordAll xs ∧ b.run.min = (start.recordAll xs).min ∧
        b.run.max = (start.recordAll xs).max ∧
        ∀ p, b.run.percentile p = (start.recordAll xs).percentile p) ∧
    (∀ h g f : Histogram, (h.merge g).merge f = h.merge (g.merge f)) ∧
    (∀ h g : Histogram, h.merge g = g.merge h) ∧
    ∀ h : Histogram, h.merge new = h ∧ new.merge h = h := by
  refine ⟨?_, merge_assoc, merge_comm, ?_⟩
  · intro b xs start hperm hstart
    have hnew : start = new := by
      rcases hstart with rfl | ⟨h, rfl⟩
      · rfl
      · exact reset_eq_new h
    have heq : b.run = start.recordAll xs := by
      rw [Build.run_eq, hnew]
      exact recordAll_perm hperm.symm new
    rw [heq]
    exact ⟨rfl, rfl, rfl, fun _ => rfl⟩
  · intro h
    exact ⟨merge_new h, by rw [merge_comm, merge_new]⟩

/-- Two values in one histogram, one in another that was reset before. -/
theorem merge_records_everything_reset :
    ∃ b, b = Build.merge (.record (.record .new 5) 70000) (.record (.reset (.record .new 9)) 7) ∧
      b.run.count = 3 ∧ b.run.sum = 70012 ∧ b.run.min = 5 ∧ b.run.max = 70000 ∧
      ∀ i, (hi : i < kBucketCount.toNat) →
        b.run.counts[i] = if i ∈ [5, 7, 708] then 1 else 0 := by
  refine ⟨_, rfl, ?_⟩
  obtain ⟨hrun, hmin, hmax, -⟩ := merge_records_everything.1
    (.merge (.record (.record .new 5) 70000) (.record (.reset (.record .new 9)) 7))
    [7, 70000, 5] new (by decide) (.inl rfl)
  rw [hmin, hmax, hrun]
  refine ⟨by decide, by decide, by decide, by decide, fun i hi => ?_⟩
  change (((new.record 7).record 70000).record 5).counts[i] = _
  have hfive : (indexOf 5).toNat = 5 := by decide
  have hseven : (indexOf 7).toNat = 7 := by decide
  have hfar : (indexOf 70000).toNat = 708 := by decide
  have hnew : new.counts[i] = 0 := by simp [new]
  simp only [getElem_record, hfive, hseven, hfar, hnew, List.mem_cons, List.not_mem_nil, or_false]
  split_ifs <;> first | rfl | omega

end Histogram

end Rdb
