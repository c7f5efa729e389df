-- SUMMARY: The k-th smallest element of a list, and how it is found by counting.
import Mathlib.Data.List.Basic

/-!
# Order statistics

The `k`-th smallest element of a list with ties is the element at position `k - 1` of
the sorted list. It is below a bound exactly when at least `k` elements are, which is
how a scan over counts finds it without sorting.
-/

namespace OrderStatistic

variable {α : Type*} {le : α → α → Bool}

/-- The `k`-th smallest element, counted from one. -/
def kthSmallest (le : α → α → Bool) (xs : List α) (k : Nat) : Option α :=
  (xs.mergeSort le)[k - 1]?

theorem exists_kthSmallest (le : α → α → Bool) {xs : List α} {k : Nat} (hpos : 0 < k)
    (hle : k ≤ xs.length) : ∃ s, kthSmallest le xs k = some s := by
  have hlt : k - 1 < (xs.mergeSort le).length := by
    rw [List.length_mergeSort]
    omega
  exact ⟨_, List.getElem?_eq_getElem hlt⟩

/-- In a sorted list, the elements that a predicate closed below holds of come first. -/
theorem lt_countP_iff {R : α → α → Prop} {P : α → Bool} (hP : ∀ a b, R a b → P b → P a)
    {ys : List α} (hsorted : ys.Pairwise R) {k : Nat} {y : α} (hy : ys[k]? = some y) :
    k < ys.countP P ↔ P y = true := by
  induction hsorted generalizing k with
  | nil => simp at hy
  | @cons a ys ha _ ih =>
      cases hPa : P a with
      | true =>
          rw [List.countP_cons_of_pos hPa]
          cases k with
          | zero =>
              obtain rfl := Option.some.inj hy
              simp [hPa]
          | succ k =>
              rw [Nat.add_lt_add_iff_right]
              exact ih hy
      | false =>
          -- nothing above `a` satisfies the predicate
          have hnone : ∀ b ∈ a :: ys, P b = false := by
            intro b hb
            rcases List.mem_cons.mp hb with rfl | hb
            · exact hPa
            · cases hPb : P b with
              | false => rfl
              | true => rw [hP a b (ha b hb) hPb] at hPa; cases hPa
          have hzero : (a :: ys).countP P = 0 := List.countP_eq_zero.mpr (by simpa using hnone)
          rw [hzero, hnone y (List.mem_of_getElem? hy)]
          simp

section Total

variable (htrans : ∀ a b c, le a b = true → le b c = true → le a c = true)
  (htotal : ∀ a b, (le a b || le b a) = true)

include htrans htotal

/-- At least `k` elements satisfy a predicate closed below exactly when the `k`-th
    smallest does. -/
theorem le_countP_iff {P : α → Bool} (hP : ∀ a b, le a b = true → P b → P a) {xs : List α}
    {k : Nat} (hpos : 0 < k) {s : α} (hs : kthSmallest le xs k = some s) :
    k ≤ xs.countP P ↔ P s = true := by
  have hiff := lt_countP_iff hP (List.pairwise_mergeSort htrans htotal xs) hs
  rw [(List.mergeSort_perm xs le).countP_eq P] at hiff
  rw [← hiff]
  omega

end Total

end OrderStatistic
