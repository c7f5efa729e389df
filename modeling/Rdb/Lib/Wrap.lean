-- SUMMARY: 64-bit counters as residues of unbounded ones.
import Mathlib.Data.Nat.Bitwise

/-!
# Wrapping counters

A 64-bit counter that wraps is the residue of an unbounded one. Two counters that
stay less than `2^64` apart compare, and subtract, like the unbounded ones do.
-/

namespace Wrap

/-- The counter after `n` increments from zero. -/
abbrev counter (n : Nat) : UInt64 := UInt64.ofNat n

theorem counter_add_one (n : Nat) : counter n + 1 = counter (n + 1) := by
  apply UInt64.toNat.inj
  rw [UInt64.toNat_add, UInt64.toNat_ofNat', UInt64.toNat_ofNat']
  change (n % 2 ^ 64 + 1) % 2 ^ 64 = (n + 1) % 2 ^ 64
  omega

/-- A difference below `2^64` is read off exactly. -/
theorem sub_eq_counter_iff {m n d : Nat} (hmn : m ≤ n) (hn : n - m < 2 ^ 64) (hd : d < 2 ^ 64) :
    counter n - counter m = counter d ↔ n - m = d := by
  rw [← UInt64.toNat_inj, UInt64.toNat_sub, UInt64.toNat_ofNat', UInt64.toNat_ofNat',
    UInt64.toNat_ofNat']
  omega

/-- The difference of two counters less than `2^64` apart is exact. -/
theorem toNat_counter_sub {m n : Nat} (hmn : m ≤ n) (hn : n - m < 2 ^ 64) :
    (counter n - counter m).toNat = n - m := by
  rw [(sub_eq_counter_iff hmn hn hn).mpr rfl, UInt64.toNat_ofNat', Nat.mod_eq_of_lt hn]

theorem counter_eq_counter_iff {m n : Nat} (hmn : m ≤ n) (hn : n - m < 2 ^ 64) :
    counter m = counter n ↔ m = n := by
  rw [← UInt64.toNat_inj, UInt64.toNat_ofNat', UInt64.toNat_ofNat']
  omega

/-- A difference is at most `c` when the counter behind has not overtaken the one in
    front, or has done so by almost a full turn. -/
theorem toNat_sub_le_iff {base ahead behind c : Nat} (hahead : ahead ≤ c) (hc : c < 2 ^ 64) :
    (counter (base + ahead) - counter (base + behind)).toNat ≤ c ↔
      behind % 2 ^ 64 ≤ ahead ∨ 2 ^ 64 + ahead ≤ behind % 2 ^ 64 + c := by
  rw [UInt64.toNat_sub, UInt64.toNat_ofNat', UInt64.toNat_ofNat']
  omega

/-- Masking with one less than a power of two takes the residue of the unbounded
    counter. -/
theorem toNat_counter_and_mask {k : Nat} (hk : k ≤ 63) (n : Nat) :
    (counter n &&& counter (2 ^ k - 1)).toNat = n % 2 ^ k := by
  have hpow : 2 ^ k ≤ 2 ^ 63 := Nat.pow_le_pow_right (by omega) hk
  have hdvd : 2 ^ k ∣ 2 ^ 64 := Nat.pow_dvd_pow 2 (by omega)
  rw [UInt64.toNat_and, UInt64.toNat_ofNat', UInt64.toNat_ofNat',
    Nat.mod_eq_of_lt (show 2 ^ k - 1 < 2 ^ 64 by omega), Nat.and_two_pow_sub_one_eq_mod,
    Nat.mod_mod_of_dvd _ hdvd]

end Wrap
