-- SUMMARY: Little-endian byte strings of fixed width, written and read with shifts and masks.
import Mathlib.Data.List.Basic
import Mathlib.Tactic.Ring

/-!
# Little-endian integers

`put n v` writes the low `n` bytes of `v`, `get n bs` reads the first `n` bytes
of `bs`. Both are the byte loops a codec writes by hand; the lemmas show that
they are inverse to each other on `n` bytes.
-/

namespace LittleEndian

/-- `out[i] = (v >> (8 * i)) & 0xFF` for `i < n`. -/
def put (n v : Nat) : List UInt8 :=
  (List.range n).map fun i => UInt8.ofNat (v >>> (8 * i) &&& 0xFF)

/-- `v |= in[i] << (8 * i)` for `i < n`, from `v = 0`. -/
def get (n : Nat) (bs : List UInt8) : Nat :=
  (List.range n).foldl (fun v i => v ||| (bs.getD i 0).toNat <<< (8 * i)) 0

@[simp] theorem length_put (n v : Nat) : (put n v).length = n := by simp [put]

@[simp] theorem get_zero (bs : List UInt8) : get 0 bs = 0 := rfl

theorem get_succ_or (n : Nat) (bs : List UInt8) :
    get (n + 1) bs = get n bs ||| (bs.getD n 0).toNat <<< (8 * n) := by
  simp [get, List.range_succ]

theorem get_lt (n : Nat) (bs : List UInt8) : get n bs < 2 ^ (8 * n) := by
  induction n with
  | zero => simp
  | succ n ih =>
      rw [get_succ_or]
      have hpow : 2 ^ (8 * (n + 1)) = 2 ^ 8 * 2 ^ (8 * n) := by
        rw [Nat.mul_succ, pow_add, Nat.mul_comm]
      refine Nat.or_lt_two_pow (ih.trans (Nat.pow_lt_pow_right (by omega) (by omega))) ?_
      rw [Nat.shiftLeft_eq, hpow]
      exact Nat.mul_lt_mul_of_pos_right (bs.getD n 0).toNat_lt (Nat.two_pow_pos _)

/-- The bytes already read lie below the next one, so the `|=` is a sum. -/
theorem get_succ (n : Nat) (bs : List UInt8) :
    get (n + 1) bs = get n bs + (bs.getD n 0).toNat * 2 ^ (8 * n) := by
  rw [get_succ_or, Nat.or_comm, ← Nat.shiftLeft_add_eq_or_of_lt (get_lt n bs), Nat.shiftLeft_eq,
    Nat.add_comm]

/-- Only the first `n` bytes are read. -/
theorem get_congr {n : Nat} {bs bs' : List UInt8} (h : ∀ i < n, bs.getD i 0 = bs'.getD i 0) :
    get n bs = get n bs' := by
  induction n with
  | zero => rfl
  | succ n ih =>
      rw [get_succ, get_succ, ih fun i hi => h i (by omega), h n (by omega)]

theorem get_append {n : Nat} {bs : List UInt8} (h : n ≤ bs.length) (rest : List UInt8) :
    get n (bs ++ rest) = get n bs :=
  get_congr fun i hi => by simp [List.getD, List.getElem?_append_left (show i < bs.length by omega)]

theorem getD_put {n v i : Nat} (h : i < n) :
    ((put n v).getD i 0).toNat = v / 2 ^ (8 * i) % 256 := by
  have hmask : v >>> (8 * i) &&& 0xFF = v / 2 ^ (8 * i) % 256 := by
    rw [Nat.shiftRight_eq_div_pow]
    exact Nat.and_two_pow_sub_one_eq_mod _ 8
  have hbyte : (put n v).getD i 0 = UInt8.ofNat (v / 2 ^ (8 * i) % 256) := by
    rw [← hmask]
    simp only [put, List.getD, List.getElem?_map, List.getElem?_range h, Option.map_some,
      Option.getD_some]
  rw [hbyte, UInt8.toNat_ofNat', Nat.mod_mod]

/-- Reading back what was written gives the value modulo the width. -/
theorem get_put_mod {n w : Nat} (v : Nat) (h : n ≤ w) : get n (put w v) = v % 2 ^ (8 * n) := by
  induction n with
  | zero => simp [Nat.mod_one]
  | succ n ih =>
      have hpow : 2 ^ (8 * (n + 1)) = 2 ^ (8 * n) * 256 := by
        rw [Nat.mul_succ, pow_add]
        rfl
      rw [get_succ, ih (by omega), getD_put (by omega), hpow, Nat.mod_mul]
      ring

theorem get_put {n v : Nat} (h : v < 2 ^ (8 * n)) (rest : List UInt8) :
    get n (put n v ++ rest) = v := by
  rw [get_append (by simp), get_put_mod v le_rfl, Nat.mod_eq_of_lt h]

/-- Writing back what was read gives the bytes. -/
theorem put_get {n : Nat} {bs : List UInt8} (h : n ≤ bs.length) : put n (get n bs) = bs.take n := by
  have hbyte : ∀ i < n, get n bs / 2 ^ (8 * i) % 256 = (bs.getD i 0).toNat := by
    intro i hi
    clear h
    induction n with
    | zero => omega
    | succ n ih =>
        rw [get_succ]
        by_cases hin : i = n
        · subst hin
          rw [Nat.add_mul_div_right _ _ (Nat.two_pow_pos _), Nat.div_eq_of_lt (get_lt i bs),
            Nat.zero_add]
          exact Nat.mod_eq_of_lt (bs.getD i 0).toNat_lt
        · -- the byte on top is a multiple of `256 * 2 ^ (8 * i)`
          obtain ⟨k, rfl⟩ : ∃ k, n = i + 1 + k := ⟨n - i - 1, by omega⟩
          have hpow : 2 ^ (8 * (i + 1 + k)) = 2 ^ (8 * k) * 256 * 2 ^ (8 * i) := by
            rw [show 8 * (i + 1 + k) = 8 * k + 8 + 8 * i by ring, pow_add, pow_add]
            rfl
          rw [hpow, ← Nat.mul_assoc, Nat.add_mul_div_right _ _ (Nat.two_pow_pos _),
            ← Nat.mul_assoc, Nat.add_mul_mod_self_right, ih (by omega)]
  apply List.ext_getElem
  · simp [h]
  · intro i h₁ h₂
    have hi : i < n := by simpa using h₁
    have hput := getD_put (v := get n bs) hi
    rw [hbyte i hi] at hput
    simp only [List.getD, List.getElem?_eq_getElem h₁, Option.getD_some,
      List.getElem?_eq_getElem (show i < bs.length by omega)] at hput
    rw [List.getElem_take]
    exact UInt8.toNat.inj hput

/-! ## Fields of a buffer -/

/-- The loop of `put` at `out + off`. The caller provides the room. -/
def putAt (n off v : Nat) (out : List UInt8) : List UInt8 :=
  out.take off ++ put n v ++ out.drop (off + n)

/-- The loop of `get` at `in + off`. -/
def getAt (n off : Nat) (bs : List UInt8) : Nat := get n (bs.drop off)

/-- Fields that are written one behind the other line up. -/
theorem putAt_append {n off v : Nat} {front rest : List UInt8} (h : front.length = off) :
    putAt n off v (front ++ rest) = (front ++ put n v) ++ rest.drop n := by
  subst h
  simp [putAt]

/-- A field at the front. -/
theorem getAt_put {n v : Nat} (hv : v < 2 ^ (8 * n)) (rest : List UInt8) :
    getAt n 0 (put n v ++ rest) = v := by
  simp [getAt, get_put hv]

/-- A field behind another one. -/
theorem getAt_put_append {m n off : Nat} (h : m ≤ off) (v : Nat) (rest : List UInt8) :
    getAt n off (put m v ++ rest) = getAt n (off - m) rest := by
  simp [getAt, List.drop_append, List.drop_eq_nil_of_le, h]

theorem getAt_lt (n off : Nat) (bs : List UInt8) : getAt n off bs < 2 ^ (8 * n) :=
  get_lt n _

theorem put_getAt {n off : Nat} {bs : List UInt8} (h : off + n ≤ bs.length) :
    put n (getAt n off bs) = (bs.drop off).take n :=
  put_get (by rw [List.length_drop]; omega)

/-- A field depends on the bytes up to its end only. -/
theorem getAt_take {n off size : Nat} {bs : List UInt8} (h : off + n ≤ size) :
    getAt n off (bs.take size) = getAt n off bs := by
  refine get_congr fun i hi => ?_
  simp [List.getD, List.getElem?_take_of_lt (show off + i < size by omega)]

end LittleEndian
