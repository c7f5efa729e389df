-- SUMMARY: The states a run goes through, and marks that record the maximum of a measure over them.
import Mathlib.Order.Bounds.Basic
import Rdb.Lib.Machine

/-!
# The states of a run

A run visits the states its prefixes lead to. A high-water mark is a part of the state
that claims to be the greatest value some measure has had so far; it is one when every
step raises it to the measure of the state it leads to.
-/

namespace Machine

variable {σ α ε β : Type*} {m : Machine σ α ε} {s₀ s s' : σ} {as : List α} {tr : List ε}

/-- The states that the actions `as` lead through. -/
def Visits (m : Machine σ α ε) (s₀ : σ) (as : List α) : Set σ :=
  {s | ∃ as₁ tr₁, as₁ <+: as ∧ m.Run s₀ as₁ tr₁ s}

theorem visits_nil : m.Visits s₀ [] = {s₀} := by
  ext s
  constructor
  · rintro ⟨as₁, tr₁, hpre, hrun⟩
    obtain rfl := List.prefix_nil.mp hpre
    exact (Run.unique .nil hrun).1
  · rintro rfl
    exact ⟨[], [], List.nil_prefix, .nil⟩

/-- The last step adds the state it leads to. -/
theorem Run.visits_snoc {a : α} {evs : List ε} (h : m.Run s₀ as tr s)
    (hstep : m.step s a = some (s', evs)) :
    m.Visits s₀ (as ++ [a]) = insert s' (m.Visits s₀ as) := by
  ext s₁
  constructor
  · rintro ⟨as₁, tr₁, hpre, hrun⟩
    rcases List.prefix_concat_iff.mp hpre with rfl | hpre
    · exact .inl (Run.unique (h.snoc hstep) hrun).1
    · exact .inr ⟨as₁, tr₁, hpre, hrun⟩
  · rintro (rfl | ⟨as₁, tr₁, hpre, hrun⟩)
    · exact ⟨as ++ [a], _, List.prefix_rfl, h.snoc hstep⟩
    · exact ⟨as₁, tr₁, hpre.trans (List.prefix_append as [a]), hrun⟩

/-- A mark that every step raises to the measure of the new state is the greatest
    measure of all states visited. -/
theorem Run.isGreatest_visits [LinearOrder β] (measure mark : σ → β) (h : m.Run s₀ as tr s)
    (hinit : mark s₀ = measure s₀)
    (hstep : ∀ {as tr s a s' evs}, m.Run s₀ as tr s → m.step s a = some (s', evs) →
      mark s' = max (measure s') (mark s)) :
    IsGreatest (measure '' m.Visits s₀ as) (mark s) := by
  induction h with
  | nil =>
      rw [visits_nil, Set.image_singleton, hinit]
      exact isGreatest_singleton
  | snoc hrun _ hs ih =>
      rw [Run.visits_snoc hrun hs, Set.image_insert_eq, hstep hrun hs]
      exact ih.insert _

end Machine
