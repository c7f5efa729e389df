-- SUMMARY: What `check_compatible` accepts, as an order on QoS values, and the deadlines on which it is none.
import Mathlib.Data.Set.Basic
import Mathlib.Order.Defs.Unbundled
import Rdb.Bus.Qos

/-!
# The order on QoS values

Offered at least as strong as requested is a preorder. `check_compatible` decides it
for deadlines that are not negative. A negative deadline means none to the test on the
requested side, which asks for `> 0`, but not to the one on the offered side, which
asks for `== 0`: there it is below every requested deadline and passes.
-/

namespace Rdb

namespace QoS

variable {a b c : QoS}

/-- `a` covers `b` on the two policies that have no duration. -/
def Covers (a b : QoS) : Prop :=
  (b.reliability = .reliable → a.reliability = .reliable) ∧
    (b.durability = .transientLocal → a.durability = .transientLocal)

instance (a b : QoS) : Decidable (Covers a b) := inferInstanceAs (Decidable (_ ∧ _))

theorem Covers.refl (a : QoS) : a.Covers a := ⟨id, id⟩

theorem Covers.trans (hab : a.Covers b) (hbc : b.Covers c) : a.Covers c :=
  ⟨hab.1 ∘ hbc.1, hab.2 ∘ hbc.2⟩

/-- The times between two messages that the deadline allows. -/
def gaps (q : QoS) : Set Int := {gap | 0 < q.deadline → gap ≤ q.deadline.toInt}

theorem gaps_subset_iff :
    a.gaps ⊆ b.gaps ↔ (0 < b.deadline → 0 < a.deadline ∧ a.deadline ≤ b.deadline) := by
  constructor
  · intro h hb
    -- without a deadline, a gap longer than that of `b` would be allowed
    have ha : 0 < a.deadline := by
      by_contra ha
      have hlong : b.deadline.toInt + 1 ∈ b.gaps := h fun hpos => absurd hpos ha
      have hle := hlong hb
      omega
    have hmem : a.deadline.toInt ∈ b.gaps := h fun _ => le_rfl
    exact ⟨ha, Int64.le_iff_toInt_le.mpr (hmem hb)⟩
  · intro h gap hgap hb
    obtain ⟨ha, hle⟩ := h hb
    exact (hgap ha).trans (Int64.le_iff_toInt_le.mp hle)

/-- What is offered with `a` is at least what is requested with `b`. -/
structure AtLeast (a b : QoS) : Prop where
  covers : a.Covers b
  deadline : 0 < b.deadline → 0 < a.deadline ∧ a.deadline ≤ b.deadline

theorem atLeast_iff : a.AtLeast b ↔ a.Covers b ∧ a.gaps ⊆ b.gaps :=
  ⟨fun h => ⟨h.covers, gaps_subset_iff.mpr h.deadline⟩,
    fun h => ⟨h.1, gaps_subset_iff.mp h.2⟩⟩

instance : IsPreorder QoS AtLeast where
  refl a := atLeast_iff.mpr ⟨.refl a, subset_rfl⟩
  trans a b c hab hbc := by
    rw [atLeast_iff] at hab hbc ⊢
    exact ⟨hab.1.trans hbc.1, hab.2.trans hbc.2⟩

end QoS

/-! ## What the check accepts -/

section Check

variable {a b c : QoS}

theorem checkCompatible_eq_none_iff :
    checkCompatible a b = .none ↔
      a.Covers b ∧ (0 < b.deadline → a.deadline ≠ 0 ∧ a.deadline ≤ b.deadline) := by
  have hcovers : a.Covers b ↔
      ¬ (a.reliability = .bestEffort ∧ b.reliability = .reliable) ∧
        ¬ (a.durability = .volatile ∧ b.durability = .transientLocal) := by
    unfold QoS.Covers
    cases a.reliability <;> cases b.reliability <;> cases a.durability <;>
      cases b.durability <;> decide
  have hdeadline : ¬ (a.deadline = 0 ∨ a.deadline > b.deadline) ↔
      a.deadline ≠ 0 ∧ a.deadline ≤ b.deadline := by
    rw [not_or, gt_iff_lt, Int64.not_lt]
  unfold checkCompatible
  rw [hcovers, ← hdeadline]
  split_ifs <;> simp_all

/-- Reaches the slip: everything but the deadline is covered, a deadline is requested,
    and the one that is offered is negative. -/
def NegativeOffer (offered requested : QoS) : Prop :=
  offered.Covers requested ∧ offered.deadline < 0 ∧ 0 < requested.deadline

instance (a b : QoS) : Decidable (NegativeOffer a b) := inferInstanceAs (Decidable (_ ∧ _))

theorem checkCompatible_eq_none_iff_atLeast_or :
    checkCompatible a b = .none ↔ a.AtLeast b ∨ NegativeOffer a b := by
  rw [checkCompatible_eq_none_iff]
  have h : (0 < b.deadline → a.deadline ≠ 0 ∧ a.deadline ≤ b.deadline) ↔
      (0 < b.deadline → 0 < a.deadline ∧ a.deadline ≤ b.deadline) ∨
        (a.deadline < 0 ∧ 0 < b.deadline) := by
    simp only [Int64.lt_iff_toInt_lt, Int64.le_iff_toInt_le, ne_eq, ← Int64.toInt_inj,
      Int64.toInt_zero]
    omega
  rw [h, and_or_left]
  exact or_congr_left ⟨fun h => ⟨h.1, h.2⟩, fun h => ⟨h.covers, h.deadline⟩⟩

theorem NegativeOffer.not_atLeast (h : NegativeOffer a b) : ¬ a.AtLeast b := by
  intro hab
  have hpos : 0 < a.deadline := (hab.deadline h.2.2).1
  exact Int64.lt_irrefl (Int64.lt_trans hpos h.2.1)

/-- For deadlines that are not negative the check decides the order. -/
theorem checkCompatible_eq_none_iff_of_nonneg (ha : 0 ≤ a.deadline) :
    checkCompatible a b = .none ↔ a.AtLeast b := by
  rw [checkCompatible_eq_none_iff_atLeast_or, or_iff_left]
  exact fun h => Int64.not_lt.mpr ha h.2.1

theorem checkCompatible_refl (a : QoS) : checkCompatible a a = .none := by
  rw [checkCompatible_eq_none_iff]
  refine ⟨.refl a, fun hpos => ⟨?_, Int64.le_refl _⟩⟩
  exact fun hzero => Int64.lt_irrefl (hzero ▸ hpos)

/-- The pair is judged by the rule unless it reaches the slip. -/
theorem rule_iff :
    (checkCompatible a b = .none ↔ a.AtLeast b) ↔ ¬ NegativeOffer a b := by
  rw [checkCompatible_eq_none_iff_atLeast_or]
  constructor
  · intro h hneg
    exact hneg.not_atLeast (h.mp (.inr hneg))
  · intro h
    rw [or_iff_left h]

example : NegativeOffer { deadline := -1 } { deadline := 5 } := by decide

/-- A chain breaks where its second half is accepted by the slip and its ends are
    refused: the negative deadline in the middle hides that the first one is too long. -/
theorem trans_iff :
    (checkCompatible a b = .none → checkCompatible b c = .none → checkCompatible a c = .none) ↔
      ¬ (a.Covers b ∧ NegativeOffer b c ∧ (a.deadline = 0 ∨ c.deadline < a.deadline)) := by
  constructor
  · rintro h ⟨hcovers, hneg, hlong⟩
    have hab : checkCompatible a b = .none :=
      checkCompatible_eq_none_iff.mpr
        ⟨hcovers, fun hpos => (Int64.lt_irrefl (Int64.lt_trans hpos hneg.2.1)).elim⟩
    have hbc : checkCompatible b c = .none :=
      checkCompatible_eq_none_iff_atLeast_or.mpr (.inr hneg)
    have hac := (checkCompatible_eq_none_iff.mp (h hab hbc)).2 hneg.2.2
    exact hlong.elim hac.1 (Int64.not_lt.mpr hac.2)
  · intro h hab hbc
    have hcovers := (checkCompatible_eq_none_iff.mp hab).1
    rcases checkCompatible_eq_none_iff_atLeast_or.mp hbc with hbc' | hneg
    · rcases checkCompatible_eq_none_iff_atLeast_or.mp hab with hab' | hneg
      · exact checkCompatible_eq_none_iff_atLeast_or.mpr (.inl (IsTrans.trans _ _ _ hab' hbc'))
      · -- a negative deadline passes against every requested one
        refine checkCompatible_eq_none_iff.mpr ⟨hcovers.trans hbc'.covers, fun hpos => ⟨?_, ?_⟩⟩
        · exact Int64.ne_of_lt hneg.2.1
        · exact Int64.le_of_lt (Int64.lt_trans hneg.2.1 hpos)
    · refine checkCompatible_eq_none_iff.mpr ⟨hcovers.trans hneg.1, fun _ => ⟨?_, ?_⟩⟩
      · exact fun hzero => h ⟨hcovers, hneg, .inl hzero⟩
      · exact Int64.not_lt.mp fun hlt => h ⟨hcovers, hneg, .inr hlt⟩

/-- On `a`, `b` and `c` the check behaves as the order it stands for. -/
structure OrderedCheck (a b c : QoS) : Prop where
  rule : checkCompatible a b = .none ↔ a.AtLeast b
  refl : checkCompatible a a = .none
  trans : checkCompatible a b = .none → checkCompatible b c = .none → checkCompatible a c = .none

/-- The check is the order exactly where no negative deadline is offered against a
    requested one: not in the pair, and not in the second half of a chain whose first
    deadline is none or too long for the last. -/
theorem orderedCheck_iff (a b c : QoS) :
    OrderedCheck a b c ↔
      ¬ NegativeOffer a b ∧
        ¬ (a.Covers b ∧ NegativeOffer b c ∧ (a.deadline = 0 ∨ c.deadline < a.deadline)) :=
  ⟨fun h => ⟨rule_iff.mp h.rule, trans_iff.mp h.trans⟩,
    fun h => ⟨rule_iff.mpr h.1, checkCompatible_refl a, trans_iff.mpr h.2⟩⟩

/-- A deadline of -1 ns passes against one of 5 ns; between 100 ns and 5 ns it makes a
    chain of two accepted pairs whose ends are refused. -/
theorem negative_deadline_not_ordered :
    ¬ OrderedCheck { deadline := -1 } { deadline := 5 } { deadline := 5 } ∧
      ¬ OrderedCheck { deadline := 100 } { deadline := -1 } { deadline := 5 } := by
  constructor
  · intro h
    have hle := (h.rule.mp (by decide)).deadline (by decide)
    exact absurd hle.1 (by decide)
  · intro h
    exact absurd (h.trans (by decide) (by decide)) (by decide)

end Check

end Rdb
