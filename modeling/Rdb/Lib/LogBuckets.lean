-- SUMMARY: Log-linear buckets of the natural numbers: every octave in `2^k` equal parts.
import Mathlib.Data.Nat.Basic
import Mathlib.Order.Monotone.Basic
import Mathlib.Tactic.Ring

/-!
# Log-linear buckets

The numbers between two powers of two are divided into `2^k` buckets of equal width,
and the numbers below `2^k` are a bucket each. `index` finds the bucket of a number and
`lower` the first number of a bucket. The two are a Galois connection, `lower_le_iff`,
from which everything else follows.
-/

namespace LogBuckets

variable {k : Nat}

/-- The bucket of `v`. -/
def index (k v : Nat) : Nat := 2 ^ k * (v.log2 - k) + v / 2 ^ (v.log2 - k)

/-- The octave of a bucket, counted from the first one whose buckets have width one. -/
def octave (k i : Nat) : Nat := i / 2 ^ k - 1

/-- The first number of the bucket `i`. -/
def lower (k i : Nat) : Nat := (i - 2 ^ k * octave k i) * 2 ^ octave k i

/-! ## The position of a bucket in its octave -/

theorem octave_mul_le (k i : Nat) : 2 ^ k * octave k i ≤ i :=
  Nat.le_trans (Nat.mul_le_mul_left _ (Nat.sub_le _ _)) (Nat.mul_div_le i (2 ^ k))

theorem lt_octave_add_two (k i : Nat) : i < 2 ^ k * (octave k i + 2) := by
  have hlt := Nat.lt_mul_div_succ i (Nat.two_pow_pos k)
  refine Nat.lt_of_lt_of_le hlt (Nat.mul_le_mul_left _ ?_)
  unfold octave
  omega

theorem octave_add_one_mul_le {i : Nat} (h : 0 < octave k i) : 2 ^ k * (octave k i + 1) ≤ i := by
  have hdiv : octave k i + 1 = i / 2 ^ k := by
    unfold octave at h ⊢
    omega
  rw [hdiv]
  exact Nat.mul_div_le i _

/-! ## The Galois connection -/

/-- Two buckets in octaves `t` and `s`, by their positions `m` and `q` there. -/
theorem mul_pow_le_iff {S s t m v : Nat} (hq : v / 2 ^ s < 2 * S) (hs : 0 < s → S ≤ v / 2 ^ s)
    (hm : m < 2 * S) (ht : 0 < t → S ≤ m) :
    m * 2 ^ t ≤ v ↔ S * t + m ≤ S * s + v / 2 ^ s := by
  have hpos := Nat.two_pow_pos s
  rcases Nat.lt_trichotomy t s with hts | rfl | hst
  · -- the bucket lies in a lower octave than `v`
    have hle : m * 2 ^ t ≤ v := by
      calc m * 2 ^ t ≤ 2 * S * 2 ^ t := Nat.mul_le_mul_right _ (Nat.le_of_lt hm)
        _ = S * 2 ^ (t + 1) := by rw [Nat.pow_succ]; ac_rfl
        _ ≤ S * 2 ^ s := Nat.mul_le_mul_left _ (Nat.pow_le_pow_right (by omega) hts)
        _ ≤ v / 2 ^ s * 2 ^ s := Nat.mul_le_mul_right _ (hs (by omega))
        _ ≤ v := Nat.div_mul_le_self v _
    have hstep : S * (t + 1) ≤ S * s := Nat.mul_le_mul_left _ hts
    have hbound := hs (by omega)
    rw [Nat.mul_succ] at hstep
    exact iff_of_true hle (by omega)
  · rw [Nat.add_le_add_iff_left, Nat.le_div_iff_mul_le hpos]
  · -- the bucket lies in a higher octave
    have hlt : v < m * 2 ^ t := by
      calc v < 2 ^ s * (v / 2 ^ s + 1) := Nat.lt_mul_div_succ v hpos
        _ ≤ 2 ^ s * (2 * S) := Nat.mul_le_mul_left _ hq
        _ = S * 2 ^ (s + 1) := by rw [Nat.pow_succ]; ac_rfl
        _ ≤ S * 2 ^ t := Nat.mul_le_mul_left _ (Nat.pow_le_pow_right (by omega) hst)
        _ ≤ m * 2 ^ t := Nat.mul_le_mul_right _ (ht (by omega))
    have hstep : S * (s + 1) ≤ S * t := Nat.mul_le_mul_left _ hst
    have hbound := ht (by omega)
    rw [Nat.mul_succ] at hstep
    exact iff_of_false (Nat.not_le_of_lt hlt) (by omega)

theorem div_lt_two_mul (k v : Nat) : v / 2 ^ (v.log2 - k) < 2 * 2 ^ k := by
  rw [Nat.div_lt_iff_lt_mul (Nat.two_pow_pos _)]
  calc v < 2 ^ (v.log2 + 1) := Nat.lt_log2_self
    _ ≤ 2 ^ (1 + k + (v.log2 - k)) := Nat.pow_le_pow_right (by omega) (by omega)
    _ = 2 * 2 ^ k * 2 ^ (v.log2 - k) := by rw [Nat.pow_add, Nat.pow_add, Nat.pow_one]

theorem le_div_of_octave_pos {v : Nat} (h : 0 < v.log2 - k) : 2 ^ k ≤ v / 2 ^ (v.log2 - k) := by
  have hne : v ≠ 0 := by
    rintro rfl
    rw [Nat.log2_zero] at h
    omega
  rw [Nat.le_div_iff_mul_le (Nat.two_pow_pos _), ← Nat.pow_add, Nat.add_sub_cancel' (by omega)]
  exact Nat.log2_self_le hne

theorem lower_le_iff {i v : Nat} : lower k i ≤ v ↔ i ≤ index k v := by
  have hle := octave_mul_le k i
  have hiff := mul_pow_le_iff (m := i - 2 ^ k * octave k i) (t := octave k i)
    (div_lt_two_mul k v) le_div_of_octave_pos
    (by have := lt_octave_add_two k i; rw [Nat.mul_add] at this; omega)
    (fun hpos => by have := octave_add_one_mul_le hpos; rw [Nat.mul_succ] at this; omega)
  rw [Nat.add_sub_cancel' hle] at hiff
  exact hiff

/-! ## The width of a bucket -/

theorem lower_succ (k i : Nat) : lower k (i + 1) = lower k i + 2 ^ octave k i := by
  have hle := octave_mul_le k i
  have hdiv := Nat.succ_div (a := i) (b := 2 ^ k)
  by_cases hdvd : 2 ^ k ∣ i + 1
  · rw [if_pos hdvd] at hdiv
    obtain ⟨c, hc⟩ := hdvd
    have hcdiv : (i + 1) / 2 ^ k = c := by
      rw [hc, Nat.mul_div_cancel_left _ (Nat.two_pow_pos k)]
    rcases Nat.eq_zero_or_pos (i / 2 ^ k) with hzero | hpos
    · -- the last single number is followed by the first octave of width one
      have hc1 : c = 1 := by omega
      subst hc1
      have ho : octave k i = 0 := by unfold octave; omega
      have ho' : octave k (i + 1) = 0 := by unfold octave; omega
      simp [lower, ho, ho']
    · -- the last bucket of an octave is followed by one that is twice as wide
      have ho : octave k i + 2 = c := by unfold octave; omega
      have ho' : octave k (i + 1) = octave k i + 1 := by unfold octave at ho ⊢; omega
      have hi : i + 1 = 2 ^ k * octave k i + (2 ^ k + 2 ^ k) := by
        rw [hc, ← ho]
        ring
      have hfirst : i + 1 - 2 ^ k * (octave k i + 1) = 2 ^ k := by rw [Nat.mul_succ]; omega
      have hlast : i - 2 ^ k * octave k i + 1 = 2 ^ k + 2 ^ k := by omega
      calc lower k (i + 1) = 2 ^ k * 2 ^ (octave k i + 1) := by rw [lower, ho', hfirst]
        _ = (2 ^ k + 2 ^ k) * 2 ^ octave k i := by ring
        _ = lower k i + 2 ^ octave k i := by rw [← hlast, Nat.succ_mul, lower]
  · rw [if_neg hdvd] at hdiv
    have ho : octave k (i + 1) = octave k i := by rw [octave, hdiv, Nat.add_zero, octave]
    rw [lower, ho, Nat.succ_sub hle, Nat.succ_mul, lower]

theorem lower_strictMono (k : Nat) : StrictMono (lower k) := by
  refine strictMono_nat_of_lt_succ ?_
  intro i
  rw [lower_succ]
  exact Nat.lt_add_of_pos_right (Nat.two_pow_pos _)

/-- A bucket is the numbers from its first one to the next bucket. -/
theorem index_eq_iff {i v : Nat} : index k v = i ↔ lower k i ≤ v ∧ v < lower k (i + 1) := by
  rw [lower_le_iff, ← Nat.not_le, lower_le_iff]
  omega

theorem octave_of_lt {i : Nat} (h : i < 2 ^ (k + 1)) : octave k i = 0 := by
  have hlt : i / 2 ^ k < 2 := by
    rw [Nat.div_lt_iff_lt_mul (Nat.two_pow_pos k), Nat.mul_comm, ← Nat.pow_succ]
    exact h
  unfold octave
  omega

theorem lower_of_lt {i : Nat} (h : i < 2 ^ (k + 1)) : lower k i = i := by
  rw [lower, octave_of_lt h, Nat.mul_zero, Nat.sub_zero, Nat.pow_zero, Nat.mul_one]

theorem index_of_lt {v : Nat} (h : v < 2 ^ k) : index k v = v := by
  have hpow : 2 ^ (k + 1) = 2 ^ k + 2 ^ k := by rw [Nat.pow_succ]; omega
  refine index_eq_iff.mpr ?_
  rw [lower_of_lt (by omega), lower_of_lt (by omega)]
  omega

/-! ## The position of a number in its bucket -/

/-- How many numbers share the bucket of `v`. -/
def width (k v : Nat) : Nat := 2 ^ (v.log2 - k)

/-- The buckets above the single numbers are narrow: `2^k` widths fit below each of
    their numbers. -/
theorem width_mul_le {v : Nat} (h : 2 ^ k ≤ v) : width k v * 2 ^ k ≤ v := by
  have hne : v ≠ 0 := Nat.ne_of_gt (Nat.lt_of_lt_of_le (Nat.two_pow_pos k) h)
  rw [width, ← Nat.pow_add, Nat.sub_add_cancel ((Nat.le_log2 hne).mpr h)]
  exact Nat.log2_self_le hne

theorem width_of_lt {v : Nat} (h : v < 2 ^ (k + 1)) : width k v = 1 := by
  have hlog : v.log2 - k = 0 := by
    rcases Nat.eq_zero_or_pos v with rfl | hpos
    · rw [Nat.log2_zero, Nat.zero_sub]
    · have := (Nat.log2_lt (by omega)).mpr h
      omega
  rw [width, hlog, Nat.pow_zero]

theorem octave_index (k v : Nat) : octave k (index k v) = v.log2 - k := by
  have hlt := div_lt_two_mul k v
  rcases Nat.eq_zero_or_pos (v.log2 - k) with hzero | hpos
  · rw [hzero]
    apply octave_of_lt
    rw [index, hzero, Nat.mul_zero, Nat.zero_add, Nat.pow_succ, Nat.mul_comm, ← hzero]
    exact hlt
  · have hge := le_div_of_octave_pos hpos
    have hone : v / 2 ^ (v.log2 - k) / 2 ^ k = 1 := Nat.div_eq_of_lt_le (by omega) (by omega)
    rw [octave, index, Nat.mul_add_div (Nat.two_pow_pos k), hone]
    omega

/-- A number is as far above the first one of its bucket as it is above the last
    multiple of the width. -/
theorem lower_index_add (k v : Nat) : lower k (index k v) + v % width k v = v := by
  have hposition : index k v - 2 ^ k * (v.log2 - k) = v / width k v :=
    Nat.add_sub_cancel_left _ _
  rw [lower, octave_index, hposition]
  exact Nat.div_add_mod' v (width k v)

theorem lower_index_succ (k v : Nat) :
    lower k (index k v + 1) + v % width k v = v + width k v := by
  have hfirst := lower_index_add k v
  rw [lower_succ, octave_index]
  change _ + width k v + _ = _
  omega

end LogBuckets
