-- SUMMARY: Calls that take several steps of a machine: where they wait and what ends them.
import Rdb.Lib.Machine

/-!
# Calls

A call starts with one action and is under way until the machine emits an event that
belongs to it; in between the machine takes steps of its other parts. What is known of
a waiting call is an invariant of the states it is under way in. It ends with its first
step or with one out of such a state.
-/

namespace Machine

variable {σ α ε : Type*}

/-- The states of the machine while the call that `call` makes in `s₀` is under way.
    Every step starts where `C` holds and emits no event of the call. -/
inductive InCall (m : Machine σ α ε) (C : σ → Prop) (own : ε → Prop) (s₀ : σ) (call : α) :
    σ → Prop where
  | enter {s : σ} {evs : List ε} : C s₀ → m.step s₀ call = some (s, evs) →
      (∀ e ∈ evs, ¬ own e) → InCall m C own s₀ call s
  | step {s s' : σ} {a : α} {evs : List ε} : InCall m C own s₀ call s → C s →
      m.step s a = some (s', evs) → (∀ e ∈ evs, ¬ own e) → InCall m C own s₀ call s'

/-- The call ends: the action `a` emits its event `e`. -/
inductive Ends (m : Machine σ α ε) (C : σ → Prop) (own : ε → Prop) (s₀ : σ) (call : α) :
    α → ε → Prop where
  | atOnce {s : σ} {evs : List ε} {e : ε} : C s₀ → m.step s₀ call = some (s, evs) →
      e ∈ evs → own e → Ends m C own s₀ call call e
  | later {s s' : σ} {a : α} {evs : List ε} {e : ε} : InCall m C own s₀ call s → C s →
      m.step s a = some (s', evs) → e ∈ evs → own e → Ends m C own s₀ call a e

variable {m : Machine σ α ε} {C : σ → Prop} {own : ε → Prop} {s₀ s : σ} {call a : α} {e : ε}
  {W : σ → Prop}

theorem InCall.invariant (h : m.InCall C own s₀ call s)
    (henter : ∀ {s evs}, C s₀ → m.step s₀ call = some (s, evs) → (∀ e ∈ evs, ¬ own e) → W s)
    (hstep : ∀ {s s' a evs}, W s → C s → m.step s a = some (s', evs) → (∀ e ∈ evs, ¬ own e) →
      W s') : W s := by
  induction h with
  | enter hC hs hown => exact henter hC hs hown
  | step _ hC hs hown ih => exact hstep ih hC hs hown

/-- A call ends in its first step, or out of a state in which it waits. -/
theorem Ends.of_invariant (h : m.Ends C own s₀ call a e)
    (henter : ∀ {s evs}, C s₀ → m.step s₀ call = some (s, evs) → (∀ e ∈ evs, ¬ own e) → W s)
    (hstep : ∀ {s s' a evs}, W s → C s → m.step s a = some (s', evs) → (∀ e ∈ evs, ¬ own e) →
      W s') :
    (a = call ∧ C s₀ ∧ ∃ s' evs, m.step s₀ a = some (s', evs) ∧ e ∈ evs) ∨
      ∃ s s' evs, W s ∧ C s ∧ m.step s a = some (s', evs) ∧ e ∈ evs := by
  cases h with
  | atOnce hC hs hmem => exact .inl ⟨rfl, hC, _, _, hs, hmem⟩
  | later hin hC hs hmem => exact .inr ⟨_, _, _, hin.invariant henter hstep, hC, hs, hmem⟩

end Machine
