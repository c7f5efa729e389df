-- SUMMARY: Infinite executions of a machine, weak fairness of its threads, and the helpful-thread rule for progress.
import Mathlib.Data.Nat.Find
import Mathlib.Order.WellFounded
import Rdb.Lib.Machine

/-!
# Fair executions

A run is finite; what a system is sure to reach is a statement about its infinite
executions, and only about those in which the scheduler does not pass over a thread for
ever. The rule for progress takes a variant and says at every state which threads are
helpful: a helpful thread can move and lowers the variant when it does, and nobody else
raises the variant or takes the help away.
-/

namespace Machine

variable {σ α ε τ : Type*}

/-- An infinite execution. At a time without an action the machine stands still. -/
structure Execution (m : Machine σ α ε) (s₀ : σ) where
  state : Nat → σ
  act : Nat → Option α
  start : state 0 = s₀
  still : ∀ n, act n = none → state (n + 1) = state n
  moves : ∀ n a, act n = some a → ∃ evs, m.step (state n) a = some (state (n + 1), evs)

/-- One of the actions in `own` is possible. -/
def Able (m : Machine σ α ε) (own : α → Prop) (s : σ) : Prop :=
  ∃ a s' evs, own a ∧ m.step s a = some (s', evs)

theorem Able.of_isSome {m : Machine σ α ε} {own : α → Prop} {s : σ} {a : α} (ha : own a)
    (h : (m.step s a).isSome = true) : m.Able own s := by
  obtain ⟨⟨s', evs⟩, hstep⟩ := Option.isSome_iff_exists.mp h
  exact ⟨a, s', evs, ha, hstep⟩

/-- If the actions in `own` are those of one thread: once it can move at all times, it
    does move. -/
def Execution.FairTo {m : Machine σ α ε} {s₀ : σ} (ex : m.Execution s₀) (own : α → Prop) : Prop :=
  ∀ n, (∀ k, n ≤ k → m.Able own (ex.state k)) → ∃ k a, n ≤ k ∧ ex.act k = some a ∧ own a

/-- Weak fairness to each of the threads `τ`. -/
def Execution.WeaklyFair {m : Machine σ α ε} {s₀ : σ} (ex : m.Execution s₀)
    (own : τ → α → Prop) : Prop :=
  ∀ t, ex.FairTo (own t)

variable {m : Machine σ α ε} {s₀ : σ}

/-- What is observed at time `n`. -/
def Execution.events (ex : m.Execution s₀) (n : Nat) : List ε :=
  match ex.act n with
  | none => []
  | some a => ((m.step (ex.state n) a).map Prod.snd).getD []

/-- What is observed before time `n`. -/
def Execution.trace (ex : m.Execution s₀) (n : Nat) : List ε := (List.range n).flatMap ex.events

theorem Execution.trace_succ (ex : m.Execution s₀) (n : Nat) :
    ex.trace (n + 1) = ex.trace n ++ ex.events n := by
  simp [trace, List.range_succ]

theorem Execution.trace_mono (ex : m.Execution s₀) {n k : Nat} (h : n ≤ k) :
    ex.trace n <+: ex.trace k := by
  induction k, h using Nat.le_induction with
  | base => exact List.prefix_refl _
  | succ k _ ih => exact ih.trans (ex.trace_succ k ▸ List.prefix_append ..)

theorem Execution.step_eq (ex : m.Execution s₀) {n : Nat} {a : α} (h : ex.act n = some a) :
    m.step (ex.state n) a = some (ex.state (n + 1), ex.events n) := by
  obtain ⟨evs, hstep⟩ := ex.moves n a h
  simp [events, h, hstep]

/-- What is observed comes from an action. -/
theorem Execution.exists_act (ex : m.Execution s₀) {n : Nat} {e : ε} (h : e ∈ ex.events n) :
    ∃ a, ex.act n = some a := by
  cases hact : ex.act n with
  | none => simp [events, hact] at h
  | some a => exact ⟨a, rfl⟩

/-- The states of an execution are states of runs. -/
theorem Execution.exists_run (ex : m.Execution s₀) (n : Nat) :
    ∃ as, m.Run s₀ as (ex.trace n) (ex.state n) := by
  induction n with
  | zero => exact ⟨[], by rw [ex.start]; exact .nil⟩
  | succ n ih =>
      obtain ⟨as, hrun⟩ := ih
      rw [ex.trace_succ]
      cases hact : ex.act n with
      | none => exact ⟨as, by simpa [ex.still n hact, events, hact] using hrun⟩
      | some a => exact ⟨_, hrun.snoc (ex.step_eq hact)⟩

/-- `Q` stays as long as no step leads from it to `R`. -/
theorem Execution.keeps_until {Q R : σ → Prop} (ex : m.Execution s₀) {n : Nat}
    (hQ : Q (ex.state n))
    (hstep : ∀ {k a}, n ≤ k → Q (ex.state k) → ex.act k = some a →
      Q (ex.state (k + 1)) ∨ R (ex.state (k + 1))) {k : Nat} (hk : n ≤ k) :
    Q (ex.state k) ∨ ∃ j, n ≤ j ∧ R (ex.state j) := by
  induction k, hk using Nat.le_induction with
  | base => exact .inl hQ
  | succ k hk ih =>
      rcases ih with hQ' | hR
      · cases hact : ex.act k with
        | none => exact .inl (by rwa [ex.still k hact])
        | some a => exact (hstep hk hQ' hact).imp_right fun hR => ⟨_, Nat.le_succ_of_le hk, hR⟩
      · exact .inr hR

theorem Execution.keeps {Q : σ → Prop} (ex : m.Execution s₀) {n : Nat} (hQ : Q (ex.state n))
    (hstep : ∀ {k a}, n ≤ k → Q (ex.state k) → ex.act k = some a → Q (ex.state (k + 1))) {k : Nat}
    (hk : n ≤ k) : Q (ex.state k) := by
  have huntil := ex.keeps_until (R := fun _ => False) hQ
    (fun hk hQk hact => .inl (hstep hk hQk hact)) hk
  exact huntil.resolve_right fun ⟨_, _, h⟩ => h

/-- What holds now and not for ever ends in some step, and holds up to it. -/
theorem Execution.exists_ends {Q : σ → Prop} (ex : m.Execution s₀) {n k : Nat} (hk : n ≤ k)
    (hn : Q (ex.state n)) (hQ : ¬ Q (ex.state k)) :
    ∃ j a, n ≤ j ∧ (∀ i, n ≤ i → i ≤ j → Q (ex.state i)) ∧ ex.act j = some a ∧
      ¬ Q (ex.state (j + 1)) := by
  classical
  have hex : ∃ k, n ≤ k ∧ ¬ Q (ex.state k) := ⟨k, hk, hQ⟩
  obtain ⟨hle, hfirst⟩ := Nat.find_spec hex
  have hbefore : ∀ i, n ≤ i → i < Nat.find hex → Q (ex.state i) :=
    fun i hi hlt => not_not.mp fun hnot => Nat.find_min hex hlt ⟨hi, hnot⟩
  have hne : n ≠ Nat.find hex := fun h => hfirst (h ▸ hn)
  obtain ⟨j, hj⟩ : ∃ j, Nat.find hex = j + 1 := ⟨Nat.find hex - 1, by omega⟩
  rw [hj] at hfirst
  have hold := hbefore j (by omega) (by omega)
  cases hact : ex.act j with
  | none => exact absurd (ex.still j hact ▸ hold) hfirst
  | some a => exact ⟨j, a, by omega, fun i hi hij => hbefore i hi (by omega), hact, hfirst⟩

/-! ## The helpful-thread rule -/

/-- The premises of the helpful-thread rule, in the states where `I` holds and the goal
    `G` is not reached. -/
structure Progress {W : Type*} [LT W] (m : Machine σ α ε) (own : τ → α → Prop) (I G : σ → Prop)
    (V : σ → W) (helpful : σ → τ → Prop) : Prop where
  helped : ∀ {s}, I s → ¬ G s → ∃ t, helpful s t
  able : ∀ {s t}, I s → ¬ G s → helpful s t → m.Able (own t) s
  step : ∀ {s a s' evs}, I s → ¬ G s → m.step s a = some (s', evs) → ¬ G s' →
    V s' < V s ∨ V s' = V s ∧ ∀ t, helpful s t → helpful s' t ∧ ¬ own t a

variable {W : Type*} [LT W] {own : τ → α → Prop} {I G : σ → Prop} {V : σ → W}
  {helpful : σ → τ → Prop}

/-- A helpful thread that has not moved yet is still helpful, unless the variant has
    dropped. -/
theorem Progress.keeps (h : m.Progress own I G V helpful) (ex : m.Execution s₀)
    {n : Nat} (hI : ∀ k, n ≤ k → I (ex.state k)) {t : τ} (hG : ∀ k, n ≤ k → ¬ G (ex.state k))
    (ht : helpful (ex.state n) t) (hV : ∀ k, n ≤ k → ¬ V (ex.state k) < V (ex.state n))
    {k : Nat} (hk : n ≤ k) :
    V (ex.state k) = V (ex.state n) ∧ helpful (ex.state k) t ∧
      ∀ a, ex.act k = some a → ¬ own t a := by
  have hmove : ∀ k, n ≤ k → V (ex.state k) = V (ex.state n) → helpful (ex.state k) t →
      V (ex.state (k + 1)) = V (ex.state n) ∧ helpful (ex.state (k + 1)) t ∧
        ∀ a, ex.act k = some a → ¬ own t a := by
    intro k hk hsame hhelp
    cases hact : ex.act k with
    | none => exact ⟨by rwa [ex.still k hact], by rwa [ex.still k hact], by simp⟩
    | some a =>
        obtain ⟨evs, hstep⟩ := ex.moves k a hact
        have hk' : n ≤ k + 1 := Nat.le_succ_of_le hk
        rcases h.step (hI k hk) (hG k hk) hstep (hG _ hk') with hlt | ⟨heq, hkeep⟩
        · exact absurd (hsame ▸ hlt) (hV _ hk')
        · refine ⟨heq.trans hsame, (hkeep t hhelp).1, ?_⟩
          rintro b hb
          obtain rfl := Option.some.inj hb
          exact (hkeep t hhelp).2
  have hall : V (ex.state k) = V (ex.state n) ∧ helpful (ex.state k) t := by
    induction k, hk using Nat.le_induction with
    | base => exact ⟨rfl, ht⟩
    | succ k hk ih =>
        obtain ⟨hsame, hhelp, -⟩ := hmove k hk ih.1 ih.2
        exact ⟨hsame, hhelp⟩
  exact ⟨hall.1, hall.2, (hmove k hk hall.1 hall.2).2.2⟩

/-- The helpful-thread rule: a weakly fair execution reaches the goal. -/
theorem Execution.exists_goal [WellFoundedLT W] (ex : m.Execution s₀) (hfair : ex.WeaklyFair own)
    (h : m.Progress own I G V helpful) (n : Nat) (hI : ∀ k, n ≤ k → I (ex.state k)) :
    ∃ k, n ≤ k ∧ G (ex.state k) := by
  induction hv : V (ex.state n) using WellFoundedLT.induction generalizing n with
  | ind v ih =>
    by_contra hnone
    have hG : ∀ k, n ≤ k → ¬ G (ex.state k) := fun k hk hg => hnone ⟨k, hk, hg⟩
    have hV : ∀ k, n ≤ k → ¬ V (ex.state k) < V (ex.state n) := by
      intro k hk hlt
      obtain ⟨j, hj, hg⟩ := ih _ (hv ▸ hlt) k (fun j hj => hI j (Nat.le_trans hk hj)) rfl
      exact hG j (Nat.le_trans hk hj) hg
    obtain ⟨t, ht⟩ := h.helped (hI n (Nat.le_refl n)) (hG n (Nat.le_refl n))
    have hkeep := fun k hk => h.keeps ex hI hG ht hV (k := k) hk
    have hable : ∀ k, n ≤ k → m.Able (own t) (ex.state k) :=
      fun k hk => h.able (hI k hk) (hG k hk) (hkeep k hk).2.1
    obtain ⟨k, a, hk, hact, hown⟩ := hfair t n hable
    exact (hkeep k hk).2.2 a hact hown

/-- A thread that can move, and is left so by the others, moves. -/
theorem Execution.exists_own {own : α → Prop} {Q : σ → Prop} (ex : m.Execution s₀)
    (hfair : ex.FairTo own) {n : Nat} (hQ : Q (ex.state n))
    (hable : ∀ k, n ≤ k → Q (ex.state k) → m.Able own (ex.state k))
    (hkeep : ∀ {s a s' evs}, Q s → ¬ own a → m.step s a = some (s', evs) → Q s') :
    ∃ k a, n ≤ k ∧ Q (ex.state k) ∧ ex.act k = some a ∧ own a := by
  by_contra hnone
  have hQ' : ∀ k, n ≤ k → Q (ex.state k) := by
    intro k hk
    refine ex.keeps hQ ?_ hk
    intro j a hj hQj hact
    exact hkeep hQj (fun hown => hnone ⟨j, a, hj, hQj, hact, hown⟩) (ex.step_eq hact)
  obtain ⟨k, a, hk, hact, hown⟩ := hfair n fun k hk => hable k hk (hQ' k hk)
  exact hnone ⟨k, a, hk, hQ' k hk, hact, hown⟩

/-! ## Executions that record their history -/

/-- The machine with its history in its states, for goals that speak of what has been
    observed. -/
def recording (m : Machine σ α ε) : Machine (σ × List ε) α ε where
  step p a := (m.step p.1 a).map fun r => ((r.1, p.2 ++ r.2), r.2)

theorem recording_step_eq {s s' : σ} {tr tr' evs : List ε} {a : α} :
    m.recording.step (s, tr) a = some ((s', tr'), evs) ↔
      m.step s a = some (s', evs) ∧ tr' = tr ++ evs := by
  simp only [recording, Option.map_eq_some_iff, Prod.exists, Prod.mk.injEq]
  constructor
  · rintro ⟨s₁, evs₁, hstep, ⟨rfl, rfl⟩, rfl⟩
    exact ⟨hstep, rfl⟩
  · rintro ⟨hstep, rfl⟩
    exact ⟨s', evs, hstep, ⟨rfl, rfl⟩, rfl⟩

theorem able_recording_iff {own : α → Prop} {s : σ} {tr : List ε} :
    m.recording.Able own (s, tr) ↔ m.Able own s := by
  constructor
  · rintro ⟨a, ⟨s', tr'⟩, evs, ha, hstep⟩
    exact ⟨a, s', evs, ha, (recording_step_eq.mp hstep).1⟩
  · rintro ⟨a, s', evs, ha, hstep⟩
    exact ⟨a, (s', tr ++ evs), evs, ha, recording_step_eq.mpr ⟨hstep, rfl⟩⟩

def Execution.recorded (ex : m.Execution s₀) : m.recording.Execution (s₀, []) where
  state n := (ex.state n, ex.trace n)
  act := ex.act
  start := by rw [ex.start]; rfl
  still n hn := by
    rw [ex.still n hn, ex.trace_succ]
    simp [events, hn]
  moves n a ha := ⟨ex.events n, recording_step_eq.mpr ⟨ex.step_eq ha, ex.trace_succ n⟩⟩

theorem Execution.FairTo.recorded {own : α → Prop} {ex : m.Execution s₀} (h : ex.FairTo own) :
    ex.recorded.FairTo own :=
  fun n hable => h n fun k hk => able_recording_iff.mp (hable k hk)

/-! ## Executions that end -/

section OfList

variable {as : List α}

theorem exec_take_succ {n : Nat} {a : α} (h : (m.exec s₀ as).isSome = true)
    (ha : as[n]? = some a) :
    ∃ s tr s' evs, m.exec s₀ (as.take n) = some (s, tr) ∧ m.step s a = some (s', evs) ∧
      m.exec s₀ (as.take (n + 1)) = some (s', tr ++ evs) := by
  obtain ⟨p, hp⟩ := Option.isSome_iff_exists.mp h
  have hrun : m.Run s₀ as p.2 p.1 := Run.of_exec hp
  rw [← List.take_append_drop (n + 1) as] at hrun
  obtain ⟨tr₁, -, s', hpre, -, -⟩ := hrun.split
  have htake : as.take (n + 1) = as.take n ++ [a] := by
    rw [List.take_add_one, ha]
    rfl
  rw [htake] at hpre
  obtain ⟨tr, evs, s, hbefore, -, hstep, rfl⟩ := hpre.snoc_inv
  refine ⟨s, tr, s', evs, Run.exec_eq hbefore, hstep, ?_⟩
  rw [htake]
  exact Run.exec_eq hpre

/-- The execution that takes the actions `as` and then stands still. -/
def Execution.ofList (m : Machine σ α ε) (s₀ : σ) (as : List α)
    (h : (m.exec s₀ as).isSome = true) : m.Execution s₀ where
  state n := ((m.exec s₀ (as.take n)).map Prod.fst).getD s₀
  act n := as[n]?
  start := by simp [exec]
  still n hn := by
    have hlen : as.length ≤ n := List.getElem?_eq_none_iff.mp hn
    rw [List.take_of_length_le hlen, List.take_of_length_le (Nat.le_succ_of_le hlen)]
  moves n a ha := by
    obtain ⟨s, tr, s', evs, hbefore, hstep, hafter⟩ := exec_take_succ h ha
    rw [hbefore, hafter]
    exact ⟨evs, hstep⟩

/-- Where it stands still. -/
theorem Execution.ofList_state (h : (m.exec s₀ as).isSome = true) {n : Nat}
    (hn : as.length ≤ n) : (Execution.ofList m s₀ as h).state n = ((m.exec s₀ as).get h).1 := by
  simp only [Execution.ofList, List.take_of_length_le hn]
  obtain ⟨p, hp⟩ := Option.isSome_iff_exists.mp h
  simp [hp]

/-- It is fair to a thread that cannot move where it stands still. -/
theorem Execution.fairTo_ofList {own : α → Prop} (h : (m.exec s₀ as).isSome = true)
    (hend : ¬ m.Able own ((m.exec s₀ as).get h).1) : (Execution.ofList m s₀ as h).FairTo own := by
  intro n hable
  have hmax := hable (max n as.length) (Nat.le_max_left _ _)
  rw [Execution.ofList_state h (Nat.le_max_right n as.length)] at hmax
  exact absurd hmax hend

theorem Execution.weaklyFair_ofList (h : (m.exec s₀ as).isSome = true)
    (hend : ∀ a, m.step ((m.exec s₀ as).get h).1 a = none) (own : τ → α → Prop) :
    (Execution.ofList m s₀ as h).WeaklyFair own := by
  refine fun t => fairTo_ofList h ?_
  rintro ⟨a, s', evs, -, hstep⟩
  rw [hend a] at hstep
  cases hstep

end OfList

end Machine
