-- SUMMARY: Rounding of rationals to the nearest number of a binary floating-point format, ties to even.
import Mathlib.Algebra.Order.Floor.Ring
import Mathlib.Data.Int.Log
import Mathlib.Data.Rat.Floor
import Mathlib.Tactic.Linarith
import Mathlib.Tactic.Positivity

/-!
# Binary floating-point formats

The numbers of a format are `m * 2 ^ e` with `m` of a fixed number of bits and `e` not
below a least exponent. An arithmetic operation gives the exact result rounded to the
nearest of them. Rounding is monotone and leaves the numbers of the format alone; near
zero they lie a fixed distance apart, and what is at most half of that rounds to zero.
There is no greatest number here: results are taken to be in range.
-/

/-- A format with `precision` bits and the least exponent `minExp` of the last place. -/
structure BinaryFormat where
  precision : Nat
  minExp : Int
  precision_pos : 0 < precision

namespace BinaryFormat

/-- The format of `double`. -/
def binary64 : BinaryFormat := ⟨53, -1074, by decide⟩

/-! ## Nearest integers -/

/-- The nearest integer, and the even one where two are as near. -/
def roundEven (x : ℚ) : ℤ :=
  if Int.fract x < 1 / 2 ∨ Int.fract x = 1 / 2 ∧ ⌊x⌋ % 2 = 0 then ⌊x⌋ else ⌊x⌋ + 1

theorem roundEven_mono {x y : ℚ} (h : x ≤ y) : roundEven x ≤ roundEven y := by
  have hfloor : ⌊x⌋ ≤ ⌊y⌋ := Int.floor_mono h
  rcases hfloor.eq_or_lt with heq | hlt
  · -- between the same integers the fractional parts decide
    have hfract : Int.fract x ≤ Int.fract y := by
      rw [Int.fract, Int.fract, heq]
      linarith
    unfold roundEven
    rw [heq]
    split_ifs with hx hy hy
    · rfl
    · omega
    · exfalso
      rcases hy with hy | ⟨hy, heven⟩
      · exact hx (.inl (lt_of_le_of_lt hfract hy))
      · exact hx ((lt_or_eq_of_le (hy ▸ hfract)).imp_right fun hhalf => ⟨hhalf, heven⟩)
    · rfl
  · unfold roundEven
    split_ifs <;> omega

theorem roundEven_intCast (n : ℤ) : roundEven n = n := by simp [roundEven]

theorem roundEven_le {x : ℚ} {n : ℤ} (h : x ≤ n) : roundEven x ≤ n :=
  roundEven_intCast n ▸ roundEven_mono h

theorem le_roundEven {x : ℚ} {n : ℤ} (h : n ≤ x) : n ≤ roundEven x :=
  roundEven_intCast n ▸ roundEven_mono h

theorem roundEven_le_zero_iff {x : ℚ} : roundEven x ≤ 0 ↔ x ≤ 1 / 2 := by
  constructor
  · intro h
    by_contra hlt
    rw [not_le] at hlt
    rcases lt_or_ge x 1 with hone | hone
    · have hfloor : ⌊x⌋ = 0 := Int.floor_eq_zero_iff.mpr ⟨by linarith, hone⟩
      have hfract : ¬ (Int.fract x < 1 / 2 ∨ Int.fract x = 1 / 2 ∧ ⌊x⌋ % 2 = 0) := by
        rw [Int.fract, hfloor, Int.cast_zero, sub_zero]
        rintro (hlow | ⟨hhalf, -⟩) <;> linarith
      rw [roundEven, if_neg hfract, hfloor] at h
      omega
    · have hle : 1 ≤ roundEven x := le_roundEven (by simpa using hone)
      omega
  · intro h
    have hhalf : roundEven (1 / 2) = 0 := by decide +kernel
    exact hhalf ▸ roundEven_mono h

/-! ## Rounding -/

variable (f : BinaryFormat)

/-- The exponent of the last place of the numbers around `x`. -/
def exponent (x : ℚ) : ℤ := max (Int.log 2 |x| - (f.precision - 1)) f.minExp

/-- The number of the format nearest to `x`. -/
def round (x : ℚ) : ℚ := roundEven (x / 2 ^ f.exponent x) * 2 ^ f.exponent x

section Round

variable {f} {x y : ℚ}

theorem zpow_pos_two (e : ℤ) : (0 : ℚ) < 2 ^ e := zpow_pos (by norm_num) e

/-- A power of two is a whole multiple of the smaller ones. -/
theorem exists_zpow_eq {e k : ℤ} (h : e ≤ k) : ∃ n : ℤ, (2 : ℚ) ^ k = n * 2 ^ e := by
  refine ⟨2 ^ (k - e).toNat, ?_⟩
  rw [Int.cast_pow, Int.cast_ofNat, ← zpow_natCast, Int.toNat_of_nonneg (by omega),
    ← zpow_add₀ (by norm_num), Int.sub_add_cancel]

theorem minExp_le_exponent : f.minExp ≤ f.exponent x := le_max_right _ _

/-- Rounding does not cross the multiples of the last place. -/
theorem round_le {n : ℤ} (h : x ≤ n * 2 ^ f.exponent x) :
    f.round x ≤ n * 2 ^ f.exponent x := by
  have hpos := zpow_pos_two (f.exponent x)
  have hle : roundEven (x / 2 ^ f.exponent x) ≤ n := roundEven_le ((div_le_iff₀ hpos).mpr h)
  exact mul_le_mul_of_nonneg_right (Int.cast_le.mpr hle) hpos.le

theorem le_round {n : ℤ} (h : n * 2 ^ f.exponent x ≤ x) :
    n * 2 ^ f.exponent x ≤ f.round x := by
  have hpos := zpow_pos_two (f.exponent x)
  have hle : n ≤ roundEven (x / 2 ^ f.exponent x) := le_roundEven ((le_div_iff₀ hpos).mpr h)
  exact mul_le_mul_of_nonneg_right (Int.cast_le.mpr hle) hpos.le

/-- A multiple of a place that is not below the last one is a number of the format. -/
theorem round_eq_self {m : ℤ} {e : ℤ} (h : x = m * 2 ^ e) (he : f.exponent x ≤ e) :
    f.round x = x := by
  obtain ⟨n, hn⟩ := exists_zpow_eq he
  have hx : x = (m * n : ℤ) * 2 ^ f.exponent x := by
    rw [Int.cast_mul, mul_assoc, ← hn]
    exact h
  exact le_antisymm ((round_le hx.le).trans hx.ge) (hx.le.trans (le_round hx.ge))

theorem round_zero : f.round 0 = 0 := by simp [round, roundEven]

theorem round_nonneg (h : 0 ≤ x) : 0 ≤ f.round x := by
  have hle := le_round (f := f) (x := x) (n := 0) (by simpa using h)
  simpa using hle

/-- The exponent of a positive number follows its leading bit. -/
theorem exponent_of_pos (h : 0 < x) :
    f.exponent x = max (Int.log 2 x - (f.precision - 1)) f.minExp := by
  rw [exponent, abs_of_pos h]

/-- A number of few enough bits is a number of the format. -/
theorem round_of_lt {m : ℕ} {e : ℤ} (hm : m < 2 ^ f.precision) (he : f.minExp ≤ e) :
    f.round (m * 2 ^ e) = m * 2 ^ e := by
  rcases Nat.eq_zero_or_pos m with rfl | hpos
  · rw [Nat.cast_zero, zero_mul, round_zero]
  have hx : (0 : ℚ) < m * 2 ^ e := mul_pos (Nat.cast_pos.mpr hpos) (zpow_pos_two e)
  have hbits : (m : ℚ) * 2 ^ e < 2 ^ (f.precision + e) := by
    rw [zpow_add₀ (by norm_num), zpow_natCast]
    exact mul_lt_mul_of_pos_right (by exact_mod_cast hm) (zpow_pos_two e)
  have hlog : Int.log 2 ((m : ℚ) * 2 ^ e) < f.precision + e :=
    (Int.lt_zpow_iff_log_lt (b := 2) (by norm_num) hx).mp (by exact_mod_cast hbits)
  refine round_eq_self (m := m) (e := e) (by simp) ?_
  rw [exponent_of_pos hx]
  omega

theorem exponent_mono (hx : 0 < x) (h : x ≤ y) : f.exponent x ≤ f.exponent y := by
  have hlog := Int.log_mono_right (b := 2) hx h
  rw [exponent_of_pos hx, exponent_of_pos (hx.trans_le h)]
  omega

theorem round_mono (hx : 0 ≤ x) (h : x ≤ y) : f.round x ≤ f.round y := by
  rcases hx.eq_or_lt with rfl | hpos
  · rw [round_zero]
    exact round_nonneg h
  rcases (exponent_mono (f := f) hpos h).eq_or_lt with heq | hlt
  · -- the same places: nearest integers are monotone
    have hplace := zpow_pos_two (f.exponent y)
    have hscaled := roundEven_mono (div_le_div_of_nonneg_right h hplace.le)
    rw [round, round, heq]
    exact mul_le_mul_of_nonneg_right (Int.cast_le.mpr hscaled) hplace.le
  · -- a power of two lies between the two numbers
    have hy : f.exponent y = Int.log 2 y - (f.precision - 1) := by
      have hmin := minExp_le_exponent (f := f) (x := x)
      rw [exponent_of_pos (hpos.trans_le h)] at hlt ⊢
      omega
    have hprec := f.precision_pos
    have hlogs : Int.log 2 x < Int.log 2 y := by
      rw [exponent_of_pos hpos] at hlt
      omega
    have hbelow : x ≤ 2 ^ Int.log 2 y := by
      exact_mod_cast ((Int.lt_zpow_iff_log_lt (b := 2) (by norm_num) hpos).mpr hlogs).le
    have habove : (2 : ℚ) ^ Int.log 2 y ≤ y := by
      exact_mod_cast Int.zpow_log_le_self (b := 2) (by norm_num) (hpos.trans_le h)
    obtain ⟨n, hn⟩ := exists_zpow_eq (e := f.exponent x) (k := Int.log 2 y) (by omega)
    obtain ⟨m, hm⟩ := exists_zpow_eq (e := f.exponent y) (k := Int.log 2 y) (by omega)
    calc f.round x ≤ n * 2 ^ f.exponent x := round_le (hn ▸ hbelow)
      _ = m * 2 ^ f.exponent y := hn.symm.trans hm
      _ ≤ f.round y := le_round (hm ▸ habove)

theorem round_one (h : f.minExp ≤ 0) : f.round 1 = 1 := by
  have hbits : 1 < 2 ^ f.precision := Nat.one_lt_two_pow f.precision_pos.ne'
  simpa using round_of_lt hbits h

/-- Rounding a number of the format changes nothing. -/
theorem round_round (hx : 0 ≤ x) : f.round (f.round x) = f.round x := by
  rcases hx.eq_or_lt with rfl | hpos
  · rw [round_zero, round_zero]
  have hprec := f.precision_pos
  have hmin := minExp_le_exponent (f := f) (x := x)
  rcases (round_nonneg (f := f) hx).eq_or_lt with hzero | hround
  · rw [← hzero, round_zero]
  -- the bits of the result: as many as the format has, or one more by a carry
  have hle : f.round x ≤ 2 ^ (f.exponent x + f.precision) := by
    obtain ⟨n, hn⟩ :=
      exists_zpow_eq (e := f.exponent x) (k := f.exponent x + f.precision) (by omega)
    rw [hn]
    refine round_le ?_
    rw [← hn]
    have hlt : x < 2 ^ (Int.log 2 x + 1) := by
      exact_mod_cast Int.lt_zpow_succ_log_self (b := 2) (by norm_num) x
    refine hlt.le.trans (zpow_le_zpow_right₀ (by norm_num) ?_)
    rw [exponent_of_pos hpos]
    omega
  rcases hle.eq_or_lt with heq | hlt
  · refine round_eq_self (m := 1) (e := f.exponent x + f.precision) (by rw [heq]; simp) ?_
    have hlog :
        Int.log 2 ((2 : ℚ) ^ (f.exponent x + f.precision)) = f.exponent x + f.precision := by
      exact_mod_cast Int.log_zpow (R := ℚ) (b := 2) (by norm_num) (f.exponent x + f.precision)
    rw [heq, exponent_of_pos (zpow_pos_two _), hlog]
    omega
  · refine round_eq_self (e := f.exponent x) rfl ?_
    have hlog : Int.log 2 (f.round x) < f.exponent x + f.precision :=
      (Int.lt_zpow_iff_log_lt (b := 2) (by norm_num) hround).mp (by exact_mod_cast hlt)
    rw [exponent_of_pos hround]
    omega

/-! ## Near zero -/

/-- What is at most half of the least number rounds to zero, and nothing else. -/
theorem round_pos_iff (hx : 0 ≤ x) : 0 < f.round x ↔ 2 ^ (f.minExp - 1) < x := by
  rcases hx.eq_or_lt with rfl | hpos
  · rw [round_zero]
    exact iff_of_false (lt_irrefl 0) (zpow_pos_two _).le.not_gt
  have hplace := zpow_pos_two (f.exponent x)
  have hhalf : (2 : ℚ) ^ (f.exponent x - 1) = 1 / 2 * 2 ^ f.exponent x := by
    rw [zpow_sub_one₀ (by norm_num)]
    ring
  have hround : 0 < f.round x ↔ 2 ^ (f.exponent x - 1) < x := by
    rw [round, mul_pos_iff_of_pos_right hplace, Int.cast_pos, ← not_le, roundEven_le_zero_iff,
      not_le, lt_div_iff₀ hplace, hhalf]
  rw [hround]
  rcases (minExp_le_exponent (f := f) (x := x)).eq_or_lt with heq | hlt
  · rw [heq]
  · -- above the least numbers the leading bit is kept
    have hprec := f.precision_pos
    have hlog : f.exponent x ≤ Int.log 2 x := by
      rw [exponent_of_pos hpos] at hlt ⊢
      omega
    have hlead : (2 : ℚ) ^ Int.log 2 x ≤ x := by
      exact_mod_cast Int.zpow_log_le_self (b := 2) (by norm_num) hpos
    have hbelow : ∀ e < Int.log 2 x, (2 : ℚ) ^ e < x := fun e he =>
      (zpow_lt_zpow_right₀ (by norm_num) he).trans_le hlead
    exact iff_of_true (hbelow _ (by omega)) (hbelow _ (by omega))

/-- The least positive number of the format. -/
theorem zpow_minExp_le (h : 0 < f.round x) : 2 ^ f.minExp ≤ f.round x := by
  have hplace := zpow_pos_two (f.exponent x)
  rw [round, mul_pos_iff_of_pos_right hplace, Int.cast_pos] at h
  have hone : (1 : ℚ) ≤ roundEven (x / 2 ^ f.exponent x) := by exact_mod_cast h
  calc (2 : ℚ) ^ f.minExp ≤ 1 * 2 ^ f.exponent x := by
        rw [one_mul]
        exact zpow_le_zpow_right₀ (by norm_num) minExp_le_exponent
    _ ≤ f.round x := mul_le_mul_of_nonneg_right hone hplace.le

end Round

end BinaryFormat
