-- SUMMARY: Smearing the top bit downwards, and residues modulo a window.
import Mathlib.Data.Nat.Log
import Mathlib.Data.Nat.Bitwise
import Mathlib.Data.List.Count

/-!
# Powers of two

`v |= v >> 1; v |= v >> 2; v |= v >> 4; ...` fills every bit below the top one.
After shifts up to `n / 2` a bit is set when one of the `n` bits from it upwards
was; after enough of them the value is one less than a power of two.

The second part is about addressing a window of consecutive counters modulo its
length: no two of them share a residue.
-/

namespace PowTwo

/-! ## Smearing -/

/-- `v |= v >> shift` for each shift in turn. -/
def smear (shifts : List Nat) (x : Nat) : Nat :=
  shifts.foldl (fun v shift => v ||| v >>> shift) x

/-- Bit `i` of `y` is set when one of the `n` bits of `x` from `i` upwards is. -/
def Covers (n x y : Nat) : Prop :=
  ∀ i, y.testBit i = true ↔ ∃ j < n, x.testBit (i + j) = true

theorem Covers.refl (x : Nat) : Covers 1 x x := by
  intro i
  constructor
  · intro h
    exact ⟨0, by omega, h⟩
  · rintro ⟨j, hj, h⟩
    obtain rfl : j = 0 := by omega
    exact h

/-- One round doubles the reach. -/
theorem Covers.double {n x y : Nat} (h : Covers n x y) : Covers (n + n) x (y ||| y >>> n) := by
  intro i
  rw [Nat.testBit_or, Nat.testBit_shiftRight, Bool.or_eq_true, h i, h (n + i)]
  constructor
  · rintro (⟨j, hj, hb⟩ | ⟨j, hj, hb⟩)
    · exact ⟨j, by omega, hb⟩
    · exact ⟨n + j, by omega, by rwa [show i + (n + j) = n + i + j by omega]⟩
  · rintro ⟨j, hj, hb⟩
    by_cases hjn : j < n
    · exact .inl ⟨j, hjn, hb⟩
    · exact .inr ⟨j - n, by omega, by rwa [show n + i + (j - n) = i + j by omega]⟩

theorem smear_covers (x : Nat) : Covers 64 x (smear [1, 2, 4, 8, 16, 32] x) :=
  (Covers.refl x).double.double.double.double.double.double

/-- A value that covers all bits from each position upwards is one less than the
    next power of two. -/
theorem Covers.eq_two_pow_sub_one {n x y : Nat} (h : Covers n x y) (hx : 0 < x)
    (hn : x < 2 ^ n) : y = 2 ^ (Nat.log 2 x + 1) - 1 := by
  apply Nat.eq_of_testBit_eq
  intro i
  rw [Nat.testBit_two_pow_sub_one, Bool.eq_iff_iff, decide_eq_true_iff, h i]
  constructor
  · rintro ⟨j, -, hb⟩
    have hle : 2 ^ (i + j) ≤ x := Nat.ge_two_pow_of_testBit hb
    have := Nat.le_log_of_pow_le (by omega) hle
    omega
  · intro hi
    have hlog : Nat.log 2 x < n := Nat.log_lt_of_lt_pow (by omega) hn
    refine ⟨Nat.log 2 x - i, by omega, ?_⟩
    rw [show i + (Nat.log 2 x - i) = Nat.log 2 x by omega, ← Nat.log2_eq_log_two]
    exact Nat.testBit_log2 (by omega)

theorem smear_eq {x : Nat} (hx : 0 < x) (h64 : x < 2 ^ 64) :
    smear [1, 2, 4, 8, 16, 32] x = 2 ^ (Nat.log 2 x + 1) - 1 :=
  (smear_covers x).eq_two_pow_sub_one hx h64

/-! ## A window of counters -/

/-- Counters less than `c` apart do not share a slot. -/
theorem mod_ne_of_lt_of_lt_add {k n c : Nat} (hkn : k < n) (hnk : n < k + c) : k % c ≠ n % c := by
  intro h
  have hdvd : c ∣ n - k := Nat.dvd_of_mod_eq_zero (Nat.sub_mod_eq_zero_of_mod_eq h.symm)
  have := Nat.le_of_dvd (by omega) hdvd
  omega

/-- The slots of the first `n` counters. -/
def slotsOf (c n : Nat) : List Nat := (List.range n).map (· % c)

theorem slotsOf_succ (c n : Nat) : slotsOf c (n + 1) = slotsOf c n ++ [n % c] := by
  simp [slotsOf, List.range_succ]

/-- Counter `n` finds its slot as often visited as a counter less than `c` behind
    does. -/
theorem count_slotsOf {c m n : Nat} (hmn : m ≤ n) (hnm : n < m + c) :
    (slotsOf c n).count (n % c) = (slotsOf c m).count (n % c) := by
  obtain ⟨d, rfl⟩ := Nat.exists_eq_add_of_le hmn
  have hnone : ((List.range d).map fun i => (m + i) % c).count ((m + d) % c) = 0 := by
    rw [List.count_eq_zero]
    intro hmem
    obtain ⟨i, hi, hic⟩ := List.mem_map.mp hmem
    rw [List.mem_range] at hi
    exact mod_ne_of_lt_of_lt_add (show m + i < m + d by omega) (by omega) hic
  rw [slotsOf, List.range_add, List.map_append, List.count_append, List.map_map]
  simpa [Function.comp_def, slotsOf] using hnone

end PowTwo
