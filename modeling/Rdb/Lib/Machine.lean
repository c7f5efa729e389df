-- SUMMARY: Step machines with observable events, their runs, and the invariant rules for runs.
import Mathlib.Data.List.Basic
import Mathlib.Data.List.Induction

/-!
# Step machines

A machine takes one action at a time. An action names everything the scheduler
decides (which thread moves, what the clock reads), so a step is a partial
function of the state and the action. A step also emits the events an observer
sees. `exec` runs a list of actions; `Run` is the same as a relation that grows
at its end, which is the shape an invariant is proved over.
-/

/-- A machine over states `σ`, actions `α` and events `ε`. A step that is not
    enabled is `none`. -/
structure Machine (σ α ε : Type*) where
  step : σ → α → Option (σ × List ε)

namespace Machine

variable {σ α ε : Type*}

/-- Execute a list of actions, collecting the events. -/
def exec (m : Machine σ α ε) : σ → List α → Option (σ × List ε)
  | s, []      => some (s, [])
  | s, a :: as =>
    match m.step s a with
    | none => none
    | some (s₁, evs) =>
      match m.exec s₁ as with
      | none => none
      | some (s₂, tr) => some (s₂, evs ++ tr)

/-- `m.RunIf C s₀ as tr s`: the actions `as` lead from `s₀` to `s` and emit
    `tr`, and each of them satisfies `C` in the history and state it starts
    from. -/
inductive RunIf (m : Machine σ α ε) (C : List ε → σ → α → Prop) (s₀ : σ) :
    List α → List ε → σ → Prop where
  | nil : RunIf m C s₀ [] [] s₀
  | snoc {as : List α} {tr evs : List ε} {s s' : σ} {a : α} :
      RunIf m C s₀ as tr s → C tr s a → m.step s a = some (s', evs) →
      RunIf m C s₀ (as ++ [a]) (tr ++ evs) s'

/-- A run: the actions `as` lead from `s₀` to `s` and emit `tr`. -/
abbrev Run (m : Machine σ α ε) (s₀ : σ) : List α → List ε → σ → Prop :=
  m.RunIf (fun _ _ _ => True) s₀

/-! ## Runs -/

section Runs

variable {m : Machine σ α ε} {C : List ε → σ → α → Prop} {s₀ s s' : σ} {as : List α}
  {tr : List ε}

theorem Run.snoc {a : α} {evs : List ε} (h : m.Run s₀ as tr s)
    (hstep : m.step s a = some (s', evs)) : m.Run s₀ (as ++ [a]) (tr ++ evs) s' :=
  RunIf.snoc h trivial hstep

theorem RunIf.toRun (h : m.RunIf C s₀ as tr s) : m.Run s₀ as tr s := by
  induction h with
  | nil => exact .nil
  | snoc _ _ hstep ih => exact ih.snoc hstep

/-- What holds at the start and is kept by every step of the run holds at its
    end. -/
theorem RunIf.invariant {I : List ε → σ → Prop} (h : m.RunIf C s₀ as tr s)
    (hinit : I [] s₀)
    (hstep : ∀ {tr s a s' evs}, I tr s → C tr s a → m.step s a = some (s', evs) →
      I (tr ++ evs) s') : I tr s := by
  induction h with
  | nil => exact hinit
  | snoc _ hC hs ih => exact hstep ih hC hs

theorem Run.invariant {I : List ε → σ → Prop} (h : m.Run s₀ as tr s)
    (hinit : I [] s₀)
    (hstep : ∀ {tr s a s' evs}, I tr s → m.step s a = some (s', evs) → I (tr ++ evs) s') :
    I tr s :=
  RunIf.invariant h hinit fun hI _ hs => hstep hI hs

/-- A run whose actions all satisfy `D` is a run under that guard. -/
theorem Run.guarded {D : α → Prop} (h : m.Run s₀ as tr s) (hD : ∀ a ∈ as, D a) :
    m.RunIf (fun _ _ a => D a) s₀ as tr s := by
  induction h with
  | nil => exact .nil
  | snoc _ _ hstep ih =>
      obtain ⟨has, ha⟩ := List.forall_mem_append.mp hD
      exact (ih has).snoc (ha _ (List.mem_singleton_self _)) hstep

/-- Two runs compose. -/
theorem Run.append {as' : List α} {tr' : List ε} (h : m.Run s₀ as tr s)
    (h' : m.Run s as' tr' s') : m.Run s₀ (as ++ as') (tr ++ tr') s' := by
  induction h' with
  | nil => simpa using h
  | snoc _ _ hstep ih =>
      rw [← List.append_assoc, ← List.append_assoc]
      exact ih.snoc hstep

/-- A run takes its first step on its own. -/
theorem Run.cons {a : α} {s₁ : σ} {evs tr : List ε} (hstep : m.step s₀ a = some (s₁, evs))
    (h : m.Run s₁ as tr s) : m.Run s₀ (a :: as) (evs ++ tr) s := by
  have hone : m.Run s₀ ([] ++ [a]) ([] ++ evs) s₁ := Run.snoc .nil hstep
  simpa using hone.append h

/-- The last step of a run. -/
theorem RunIf.snoc_inv {a : α} (h : m.RunIf C s₀ (as ++ [a]) tr s) :
    ∃ tr₁ evs s₁, m.RunIf C s₀ as tr₁ s₁ ∧ C tr₁ s₁ a ∧ m.step s₁ a = some (s, evs) ∧
      tr = tr₁ ++ evs := by
  generalize has : as ++ [a] = bs at h
  cases h with
  | nil => simp at has
  | snoc hrun hC hstep =>
      obtain ⟨rfl, rfl⟩ := List.append_singleton_inj.mp has
      exact ⟨_, _, _, hrun, hC, hstep, rfl⟩

/-- A run stops in the middle. -/
theorem RunIf.split {as' : List α} (h : m.RunIf C s₀ (as ++ as') tr s) :
    ∃ tr₁ tr₂ s₁, m.RunIf C s₀ as tr₁ s₁ ∧ m.Run s₁ as' tr₂ s ∧ tr = tr₁ ++ tr₂ := by
  induction as' using List.reverseRecOn generalizing tr s with
  | nil =>
      rw [List.append_nil] at h
      exact ⟨tr, [], s, h, .nil, by simp⟩
  | append_singleton as' a ih =>
      rw [← List.append_assoc] at h
      obtain ⟨tr', evs, s', hrun, -, hstep, rfl⟩ := h.snoc_inv
      obtain ⟨tr₁, tr₂, s₁, h₁, h₂, rfl⟩ := ih hrun
      exact ⟨tr₁, tr₂ ++ evs, s₁, h₁, h₂.snoc hstep, by simp⟩

/-- An event of a run was emitted by one of its steps. -/
theorem Run.exists_step_of_mem {e : ε} (h : m.Run s₀ as tr s) (he : e ∈ tr) :
    ∃ as₁ a as₂ tr₁ evs tr₂ s₁ s₂, as = as₁ ++ a :: as₂ ∧ tr = tr₁ ++ (evs ++ tr₂) ∧
      m.Run s₀ as₁ tr₁ s₁ ∧ m.step s₁ a = some (s₂, evs) ∧ e ∈ evs ∧ m.Run s₂ as₂ tr₂ s := by
  induction h with
  | nil => simp at he
  | @snoc as tr evs s s' a hrun _ hstep ih =>
      rcases List.mem_append.mp he with he | he
      · obtain ⟨as₁, b, as₂, tr₁, evs₁, tr₂, s₁, s₂, rfl, rfl, h₁, hb, hmem, h₂⟩ := ih he
        exact ⟨as₁, b, as₂ ++ [a], tr₁, evs₁, tr₂ ++ evs, s₁, s₂, by simp, by simp, h₁, hb, hmem,
          h₂.snoc hstep⟩
      · exact ⟨as, a, [], tr, evs, [], s, s', rfl, by simp, hrun, hstep, he, .nil⟩

end Runs

/-! ## Runs and execution -/

section Exec

variable {m : Machine σ α ε} {s₀ s : σ} {as : List α} {tr : List ε}

theorem exec_append_single {a : α} :
    m.exec s₀ (as ++ [a]) = (m.exec s₀ as).bind fun p =>
      (m.step p.1 a).map fun q => (q.1, p.2 ++ q.2) := by
  induction as generalizing s₀ with
  | nil =>
      simp only [List.nil_append, exec, Option.bind_some]
      cases m.step s₀ a <;> simp
  | cons b as ih =>
      simp only [List.cons_append, exec]
      cases m.step s₀ b with
      | none => simp
      | some p =>
          simp only [ih]
          cases m.exec p.1 as with
          | none => simp
          | some q =>
              cases h : m.step q.1 a <;> simp [h]

theorem Run.of_exec (h : m.exec s₀ as = some (s, tr)) : m.Run s₀ as tr s := by
  induction as generalizing s₀ tr with
  | nil =>
      simp only [exec, Option.some.injEq, Prod.mk.injEq] at h
      obtain ⟨rfl, rfl⟩ := h
      exact .nil
  | cons a as ih =>
      simp only [exec] at h
      cases hstep : m.step s₀ a with
      | none => simp [hstep] at h
      | some p =>
          simp only [hstep] at h
          cases hrest : m.exec p.1 as with
          | none => simp [hrest] at h
          | some q =>
              simp only [hrest, Option.some.injEq, Prod.mk.injEq] at h
              obtain ⟨rfl, rfl⟩ := h
              exact Run.cons hstep (ih hrest)

/-- The run that execution finds. -/
theorem Run.of_isSome (m : Machine σ α ε) (s₀ : σ) (as : List α)
    (h : (m.exec s₀ as).isSome = true) :
    m.Run s₀ as ((m.exec s₀ as).get h).2 ((m.exec s₀ as).get h).1 :=
  Run.of_exec (Option.some_get h).symm

/-- The next step that execution finds. -/
theorem Run.step_of_isSome (_ : m.Run s₀ as tr s) (a : α) (h : (m.step s a).isSome = true) :
    m.step s a = some (((m.step s a).get h).1, ((m.step s a).get h).2) :=
  (Option.some_get h).symm

theorem Run.exec_eq (h : m.Run s₀ as tr s) : m.exec s₀ as = some (s, tr) := by
  induction h with
  | nil => rfl
  | snoc _ _ hstep ih => simp [exec_append_single, ih, hstep]

theorem Run.unique {s' : σ} {tr' : List ε} (h : m.Run s₀ as tr s) (h' : m.Run s₀ as tr' s') :
    s' = s ∧ tr' = tr := by
  have heq := h'.exec_eq.symm.trans h.exec_eq
  exact Prod.mk.inj (Option.some.inj heq)

/-- The events that the actions selected by `sel` emit along an execution. -/
def emittedBy (m : Machine σ α ε) (sel : α → Bool) : σ → List α → List ε
  | _, []      => []
  | s, a :: as =>
    match m.step s a with
    | none => []
    | some (s₁, evs) => (if sel a then evs else []) ++ m.emittedBy sel s₁ as

theorem Run.emittedBy_snoc {sel : α → Bool} {a : α} {s' : σ} {evs : List ε}
    (h : m.Run s₀ as tr s) (hstep : m.step s a = some (s', evs)) :
    m.emittedBy sel s₀ (as ++ [a]) = m.emittedBy sel s₀ as ++ if sel a then evs else [] := by
  have hexec := h.exec_eq
  clear h
  induction as generalizing s₀ tr with
  | nil =>
      obtain ⟨rfl, -⟩ := Prod.mk.inj (Option.some.inj hexec)
      simp [emittedBy, hstep]
  | cons b as ih =>
      simp only [exec] at hexec
      cases hb : m.step s₀ b with
      | none => simp [hb] at hexec
      | some r =>
          simp only [hb] at hexec
          cases hrest : m.exec r.1 as with
          | none => simp [hrest] at hexec
          | some q =>
              simp only [hrest, Option.some.injEq, Prod.mk.injEq] at hexec
              obtain ⟨rfl, -⟩ := hexec
              simp only [List.cons_append, emittedBy, hb, ih hrest, List.append_assoc]

end Exec

/-! ## Guarded execution -/

section ExecIf

variable {m : Machine σ α ε} {C : List ε → σ → α → Prop} [∀ tr s a, Decidable (C tr s a)]
  {s₀ s s' : σ} {as as' : List α} {tr tr' : List ε}

/-- Execute a list of actions after the history `tr`, as long as the guard `C`
    allows it. -/
def execIf (m : Machine σ α ε) (C : List ε → σ → α → Prop) [∀ tr s a, Decidable (C tr s a)] :
    List ε → σ → List α → Option (σ × List ε)
  | tr, s, []      => some (s, tr)
  | tr, s, a :: as =>
    if C tr s a then (m.step s a).bind fun r => m.execIf C (tr ++ r.2) r.1 as
    else none

theorem RunIf.append_execIf (h : m.RunIf C s₀ as tr s)
    (hexec : m.execIf C tr s as' = some (s', tr')) : m.RunIf C s₀ (as ++ as') tr' s' := by
  induction as' generalizing as tr s with
  | nil =>
      obtain ⟨rfl, rfl⟩ := Prod.mk.inj (Option.some.inj hexec)
      simpa using h
  | cons a as' ih =>
      unfold execIf at hexec
      split at hexec
      · rename_i hC
        obtain ⟨⟨s₁, evs⟩, hstep, hrest⟩ := Option.bind_eq_some_iff.mp hexec
        simpa using ih (h.snoc hC hstep) hrest
      · cases hexec

/-- The guarded run that execution finds. -/
theorem RunIf.of_isSome (m : Machine σ α ε) (C : List ε → σ → α → Prop)
    [∀ tr s a, Decidable (C tr s a)] (s₀ : σ) (as : List α)
    (h : (m.execIf C [] s₀ as).isSome = true) :
    m.RunIf C s₀ as ((m.execIf C [] s₀ as).get h).2 ((m.execIf C [] s₀ as).get h).1 :=
  RunIf.append_execIf .nil (Option.some_get h).symm

/-- The guarded run that execution finds after a step. -/
theorem RunIf.of_isSome_after {a : α} {evs : List ε} (_ : m.step s a = some (s', evs))
    (C : List ε → σ → α → Prop) [∀ tr s a, Decidable (C tr s a)] (as : List α)
    (h : (m.execIf C [] s' as).isSome = true) :
    m.RunIf C s' as ((m.execIf C [] s' as).get h).2 ((m.execIf C [] s' as).get h).1 :=
  RunIf.of_isSome m C s' as h

end ExecIf

/-! ## Erasing steps -/

section Erasure

variable {β γ : Type*}

/-- The values `obs` takes along an execution, each time it changes. -/
def changes [DecidableEq β] (m : Machine σ α ε) (obs : σ → β) : σ → List α → List β
  | _, []      => []
  | s, a :: as =>
    match m.step s a with
    | none => []
    | some (s₁, _) =>
      if obs s₁ = obs s then m.changes obs s₁ as else obs s₁ :: m.changes obs s₁ as

/-- The machine simulates itself with the steps erased that `keep` does not keep.
    `A` is what is known of the actions; `obs` and `view` are what is observed of
    the states and of the events. -/
structure Erasure (m : Machine σ α ε) (A : α → Prop) (keep : α → Option α) (R : σ → σ → Prop)
    (obs : σ → β) (view : ε → Option γ) : Prop where
  obs_eq : ∀ {s r}, R s r → obs r = obs s
  erase : ∀ {s r a s' evs}, R s r → A a → keep a = none → m.step s a = some (s', evs) →
    R s' r ∧ evs.filterMap view = []
  keep : ∀ {s r a a' s' evs}, R s r → A a → keep a = some a' → m.step s a = some (s', evs) →
    ∃ r' evs', m.step r a' = some (r', evs') ∧ R s' r' ∧ evs'.filterMap view = evs.filterMap view

variable [DecidableEq β] {m : Machine σ α ε} {A : α → Prop} {keep : α → Option α}
  {R : σ → σ → Prop} {obs : σ → β} {view : ε → Option γ} {s r s' : σ} {as : List α} {tr : List ε}

/-- The kept steps are an execution that looks the same. -/
theorem Erasure.exec (h : m.Erasure A keep R obs view) (hR : R s r) (hA : ∀ a ∈ as, A a)
    (hexec : m.exec s as = some (s', tr)) :
    ∃ r' tr', m.exec r (as.filterMap keep) = some (r', tr') ∧ R s' r' ∧
      tr'.filterMap view = tr.filterMap view ∧
      m.changes obs r (as.filterMap keep) = m.changes obs s as := by
  induction as generalizing s r tr with
  | nil =>
      obtain ⟨rfl, rfl⟩ := Prod.mk.inj (Option.some.inj hexec)
      exact ⟨r, [], rfl, hR, rfl, rfl⟩
  | cons a as ih =>
      have ha := hA a List.mem_cons_self
      have has : ∀ b ∈ as, A b := fun b hb => hA b (List.mem_cons_of_mem _ hb)
      simp only [Machine.exec] at hexec
      cases hstep : m.step s a with
      | none => simp [hstep] at hexec
      | some p =>
          obtain ⟨s₁, evs⟩ := p
          simp only [hstep] at hexec
          cases hrest : m.exec s₁ as with
          | none => simp [hrest] at hexec
          | some q =>
              simp only [hrest, Option.some.injEq, Prod.mk.injEq] at hexec
              obtain ⟨rfl, rfl⟩ := hexec
              cases hkeep : keep a with
              | none =>
                  obtain ⟨hR₁, hevs⟩ := h.erase hR ha hkeep hstep
                  obtain ⟨r', tr', hrun, hR', htr, hobs⟩ := ih hR₁ has hrest
                  have hsame : obs s₁ = obs s := (h.obs_eq hR₁).symm.trans (h.obs_eq hR)
                  refine ⟨r', tr', by simpa [hkeep] using hrun, hR', ?_, ?_⟩
                  · rw [List.filterMap_append, hevs, htr, List.nil_append]
                  · simp [hkeep, changes, hstep, hsame, hobs]
              | some a' =>
                  obtain ⟨r₁, evs', hstep', hR₁, hevs⟩ := h.keep hR ha hkeep hstep
                  obtain ⟨r', tr', hrun, hR', htr, hobs⟩ := ih hR₁ has hrest
                  refine ⟨r', evs' ++ tr', ?_, hR', ?_, ?_⟩
                  · simp [hkeep, Machine.exec, hstep', hrun]
                  · rw [List.filterMap_append, List.filterMap_append, hevs, htr]
                  · simp [hkeep, changes, hstep, hstep', hobs, h.obs_eq hR, h.obs_eq hR₁]

/-- The kept steps of a run are a run that looks the same. -/
theorem Erasure.run (h : m.Erasure A keep R obs view) (hR : R s r) (hA : ∀ a ∈ as, A a)
    (hrun : m.Run s as tr s') :
    ∃ tr' r', m.Run r (as.filterMap keep) tr' r' ∧ R s' r' ∧
      tr'.filterMap view = tr.filterMap view ∧
      m.changes obs r (as.filterMap keep) = m.changes obs s as := by
  obtain ⟨r', tr', hexec, hrest⟩ := h.exec hR hA hrun.exec_eq
  exact ⟨tr', r', .of_exec hexec, hrest⟩

end Erasure

end Machine
