-- SUMMARY: `schema_fingerprint` from `msg/header.h`, and the edits of a signature it never misses.
import Rdb.Lib.FoldHash

/-!
# The fingerprint of a schema

FNV-1a over the bytes of a signature. Multiplying by an odd number loses nothing modulo
`2^32`, so a byte that differs is not forgotten by the bytes that follow. Two adjacent
bytes cannot cancel: the first multiplication carries a difference in the low eight
bits above them, where the second byte does not reach.
-/

namespace Rdb

/-- One round of FNV-1a. -/
def fnvStep (hash : UInt32) (c : UInt8) : UInt32 := (hash ^^^ c.toUInt32) * 16777619

def schemaFingerprint (signature : List UInt8) : UInt32 := signature.foldl fnvStep 2166136261

/-! ## One round -/

/-- The inverse of the multiplier is 899433627. -/
theorem mul_prime_inj {x y : UInt32} : x * 16777619 = y * 16777619 ↔ x = y := by
  constructor
  · intro h
    have h' := congrArg (· * 899433627) h
    simpa [UInt32.mul_assoc] using h'
  · rintro rfl
    rfl

theorem keepsState_fnvStep : FoldHash.KeepsState fnvStep := by
  intro c s s' h
  exact (UInt32.xor_left_inj _).mp (mul_prime_inj.mp h)

theorem fnvStep_inj {hash : UInt32} {c c' : UInt8} :
    fnvStep hash c = fnvStep hash c' ↔ c = c' := by
  unfold fnvStep
  rw [mul_prime_inj, UInt32.xor_right_inj, UInt8.toUInt32_inj]

/-- A byte reaches only the low eight bits. -/
theorem toNat_xor_byte_div (x : UInt32) (c : UInt8) :
    (x ^^^ c.toUInt32).toNat / 256 = x.toNat / 256 := by
  have hc : c.toNat / 2 ^ 8 = 0 := Nat.div_eq_of_lt c.toNat_lt
  rw [UInt32.toNat_xor, UInt8.toNat_toUInt32, show 256 = 2 ^ 8 from rfl, Nat.xor_div_two_pow, hc,
    Nat.xor_zero]

/-- The multiplier is `2^24 + 403`, so a difference `δ` below 256 becomes `403 * δ`
    modulo `2^24`. That is too small to wrap and too large to be below 256 again. -/
theorem eq_zero_of_mul_prime_close {δ ε k : Int} (hδ : -255 ≤ δ ∧ δ ≤ 255)
    (hε : -255 ≤ ε ∧ ε ≤ 255) (h : 16777619 * δ = 4294967296 * k + ε) : δ = 0 := by
  have hsmall : 403 * δ - ε = 16777216 * (256 * k - δ) := by omega
  have hk : 256 * k - δ = 0 := by omega
  omega

/-- Two states that agree above the low eight bits, and still do after a
    multiplication, are one. -/
theorem eq_of_mul_prime_close {x y : UInt32} (h : x.toNat / 256 = y.toNat / 256)
    (hmul : (x * 16777619).toNat / 256 = (y * 16777619).toNat / 256) : x = y := by
  rw [UInt32.toNat_mul, UInt32.toNat_mul] at hmul
  change x.toNat * 16777619 % 4294967296 / 256 = y.toNat * 16777619 % 4294967296 / 256 at hmul
  have hproducts : 16777619 * ((x.toNat : Int) - y.toNat) =
      4294967296 * ((x.toNat * 16777619 / 4294967296 : Nat) -
        (y.toNat * 16777619 / 4294967296 : Nat)) +
      ((x.toNat * 16777619 % 4294967296 : Nat) - (y.toNat * 16777619 % 4294967296 : Nat)) := by
    omega
  have hzero := eq_zero_of_mul_prime_close (by omega) (by omega) hproducts
  apply UInt32.toNat.inj
  omega

/-- Two rounds forget neither byte. -/
theorem fnvStep_fnvStep_inj {hash : UInt32} {c d c' d' : UInt8}
    (h : fnvStep (fnvStep hash c) d = fnvStep (fnvStep hash c') d') : c = c' ∧ d = d' := by
  have hxor : fnvStep hash c ^^^ d.toUInt32 = fnvStep hash c' ^^^ d'.toUInt32 :=
    mul_prime_inj.mp h
  have hhigh : (fnvStep hash c).toNat / 256 = (fnvStep hash c').toNat / 256 := by
    rw [← toNat_xor_byte_div _ d, hxor, toNat_xor_byte_div]
  have hlow : (hash ^^^ c.toUInt32).toNat / 256 = (hash ^^^ c'.toUInt32).toNat / 256 := by
    rw [toNat_xor_byte_div, toNat_xor_byte_div]
  have hc : c = c' := by
    rw [← UInt8.toUInt32_inj, ← UInt32.xor_right_inj hash]
    exact eq_of_mul_prime_close hlow hhigh
  subst hc
  exact ⟨rfl, fnvStep_inj.mp h⟩

/-! ## The fingerprint -/

theorem separates_fnvStep : FoldHash.Separates fnvStep 2 := by
  intro hash u v hlen hn h
  match u, v with
  | [], [] => rfl
  | [c], [c'] => rw [fnvStep_inj.mp h]
  | [c, d], [c', d'] =>
      obtain ⟨rfl, rfl⟩ := fnvStep_fnvStep_inj h
      rfl

/-- Signatures of one length that differ only at `i` and `i + 1` have different
    fingerprints. -/
theorem schemaFingerprint_ne {a b : List UInt8} {i : Nat} (hlen : a.length = b.length)
    (hne : a ≠ b) (hwin : ∀ j, a[j]? ≠ b[j]? → j = i ∨ j = i + 1) :
    schemaFingerprint a ≠ schemaFingerprint b := by
  refine separates_fnvStep.foldl_ne keepsState_fnvStep hlen hne (i := i) ?_ _
  intro j hj
  have := hwin j hj
  omega

/-- `f64` against `f32`. -/
theorem schemaFingerprint_ne_f64_f32 :
    schemaFingerprint [0x66, 0x36, 0x34] ≠ schemaFingerprint [0x66, 0x33, 0x32] :=
  schemaFingerprint_ne (i := 1) rfl (by decide) fun
    | 0, h => absurd rfl h
    | 1, _ => .inl rfl
    | 2, _ => .inr rfl
    | _ + 3, h => absurd rfl h

end Rdb
