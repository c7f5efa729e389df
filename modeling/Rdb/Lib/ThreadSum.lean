-- SUMMARY: Sums over all threads, and what changing one thread does to them.
import Mathlib.Algebra.BigOperators.Group.Finset.Basic
import Mathlib.Algebra.BigOperators.Group.Finset.Piecewise
import Mathlib.Algebra.Order.BigOperators.Group.Finset

/-!
# Sums over threads

A system of finitely many threads often has an invariant about all of them
together: how many are in some phase, or what they hold between them. A step
changes one thread, so it changes one summand.
-/

namespace ThreadSum

variable {ι β M : Type*} [DecidableEq ι]

/-- The step put the thread where it is, or it was there before. -/
theorem eq_or_of_update {threads : ι → β} {t i : ι} {b b' : β}
    (h : Function.update threads t b i = b') : (t = i ∧ b = b') ∨ threads i = b' := by
  by_cases hi : i = t
  · subst hi
    rw [Function.update_self] at h
    exact .inl ⟨rfl, h⟩
  · rw [Function.update_of_ne hi] at h
    exact .inr h

/-- A thread in a phase that the step did not put it in was there before. -/
theorem of_update {threads : ι → β} {t i : ι} {b b' : β}
    (h : Function.update threads t b i = b') (hne : t = i → b ≠ b') : threads i = b' :=
  (eq_or_of_update h).resolve_left fun hnew => hne hnew.1 hnew.2

/-- A thread that is where the step put it, or where it was before. -/
theorem update_of {P : β → Prop} {threads : ι → β} {t i : ι} {b : β}
    (hother : t ≠ i → P (threads i)) (hself : t = i → P b) : P (Function.update threads t b i) := by
  by_cases hi : i = t
  · rw [hi, Function.update_self]
    exact hself hi.symm
  · rw [Function.update_of_ne hi]
    exact hother (Ne.symm hi)

variable [Fintype ι]

/-- Changing one thread trades its summand for the new one. -/
theorem sum_update [AddCommMonoid M] (f : β → M) (threads : ι → β) (t : ι) (b : β) :
    ∑ i, f (Function.update threads t b i) + f (threads t) = ∑ i, f (threads i) + f b := by
  have hcomp : (fun i => f (Function.update threads t b i)) =
      Function.update (f ∘ threads) t (f b) := Function.comp_update f threads t b
  have ht : t ∈ Finset.univ := Finset.mem_univ t
  calc ∑ i, f (Function.update threads t b i) + f (threads t)
      = f b + ∑ i ∈ Finset.univ \ {t}, f (threads i) + f (threads t) := by
        rw [hcomp, Finset.sum_update_of_mem ht]
        rfl
    _ = f b + ∑ i, f (threads i) := by
        rw [add_assoc, ← Finset.sum_eq_sum_sdiff_singleton_add ht fun i => f (threads i)]
    _ = ∑ i, f (threads i) + f b := add_comm _ _

/-- How many threads satisfy `p`. -/
def count (p : β → Bool) (threads : ι → β) : Nat := ∑ i, (p (threads i)).toNat

omit [DecidableEq ι] in
theorem count_pos_iff {p : β → Bool} {threads : ι → β} :
    0 < count p threads ↔ ∃ i, p (threads i) = true := by
  rw [count, Finset.sum_pos_iff]
  simp [Nat.pos_iff_ne_zero]

theorem count_update (p : β → Bool) (threads : ι → β) (t : ι) (b : β) :
    count p (Function.update threads t b) + (p (threads t)).toNat =
      count p threads + (p b).toNat :=
  sum_update (fun b => (p b).toNat) threads t b

omit [DecidableEq ι] in
theorem count_mono {p : β → Bool} {threads threads' : ι → β}
    (h : ∀ i, p (threads i) = true → p (threads' i) = true) :
    count p threads ≤ count p threads' := by
  refine Finset.sum_le_sum fun i _ => ?_
  cases hp : p (threads i) with
  | false => exact Nat.zero_le _
  | true => rw [h i hp]

/-! ## Cells of a list -/

omit [DecidableEq ι] [Fintype ι] in
theorem countP_concat (p : β → Bool) (l : List β) (b : β) :
    (l ++ [b]).countP p = l.countP p + (p b).toNat := by
  rw [List.countP_append, List.countP_singleton]
  cases p b <;> rfl

omit [DecidableEq ι] [Fintype ι] in
/-- Changing one cell trades its count for the new one. -/
theorem countP_set {l : List β} {i : Nat} {b : β} (h : l[i]? = some b) (b' : β) (p : β → Bool) :
    (l.set i b').countP p + (p b).toNat = l.countP p + (p b').toNat := by
  obtain ⟨hi, rfl⟩ := List.getElem?_eq_some_iff.mp h
  have hpos : p l[i] = true → 0 < l.countP p := fun hp =>
    List.countP_pos_iff.mpr ⟨l[i], List.getElem_mem hi, hp⟩
  rw [List.countP_set hi]
  cases hp : p l[i] <;> cases p b' <;> simp_all

end ThreadSum
