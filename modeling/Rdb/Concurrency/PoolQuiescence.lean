-- SUMMARY: What a returned `stop` says about the workers of a thread pool when several threads stop it.
import Rdb.Concurrency.PoolShutdown

/-!
# Quiescence

The `stop` call that wins the `compare_exchange` closes the queue and joins the workers.
Every other call returns at once, and does not wait for the winner: it may return while
tasks are being run and others are still queued. It is as good as the winner's return
only when the pool has come to rest by then.
-/

namespace Rdb

namespace ThreadPool

variable {ι α : Type*} {n : Nat}

/-- The pool is at rest: the queue is closed and empty, and no worker is in a task. -/
structure State.AtRest (s : State ι α n) : Prop where
  closed : s.tasks.queue.closed = true
  items : s.tasks.queue.items = []
  tasks : ∀ w, (s.workers w).task = []

instance (s : State ι α n) : Decidable s.AtRest :=
  decidable_of_iff (s.tasks.queue.closed = true ∧ s.tasks.queue.items = [] ∧
      ∀ w, (s.workers w).task = [])
    ⟨fun ⟨hclosed, hitems, htasks⟩ => ⟨hclosed, hitems, htasks⟩,
      fun h => ⟨h.closed, h.items, h.tasks⟩⟩

/-- The guard on the early exit: a `stop` that finds the flag set finds the pool at rest. -/
def ExitsAtRest (s : State ι α n) : Action ι α n → Prop
  | .stop _ _ => s.stopping = true → s.AtRest
  | _         => True

instance (s : State ι α n) : (a : Action ι α n) → Decidable (ExitsAtRest s a)
  | .stop _ _ => inferInstanceAs (Decidable (s.stopping = true → s.AtRest))
  | .post .. | .pop .. | .getUp .. | .resume .. | .finish .. | .count .. | .clear .. | .close ..
  | .notify .. | .join .. | .joinSelf .. => .isTrue trivial

/-- A `stop` call has returned, whether it won or not. -/
def StopReturned (tr : List (Event ι α n)) : Prop := ∃ t won, .stopReturned t won ∈ tr

theorem StopReturned.append {tr tr' : List (Event ι α n)} (h : StopReturned tr) :
    StopReturned (tr ++ tr') := by
  obtain ⟨t, won, hmem⟩ := h
  exact ⟨t, won, List.mem_append_left _ hmem⟩

/-- Since a `stop` call has returned, no worker is in a task and none was started. -/
structure Quiescent (tr : List (Event ι α n)) (s : State ι α n) : Prop where
  tasks : StopReturned tr → ∀ w, (s.workers w).task = []
  started : ∀ tr₁ tr₂, tr = tr₁ ++ tr₂ → StopReturned tr₁ → started tr₂ = []

section Steps

variable [DecidableEq ι] {s s' : State ι α n} {a : Action ι α n} {tr evs : List (Event ι α n)}

theorem State.AtRest.step (h : s.AtRest) (htr : Transition s a evs s') :
    s'.AtRest ∧ started evs = [] where
  left :=
    { closed := htr.effect.closed_mono h.closed
      items := htr.effect.items_eq_nil h.closed h.items
      tasks := by
        intro w
        cases htr with
        | start _ hpop =>
            cases hpop with
            | pop _ hitems => simp [h.items] at hitems
        | exit | finish | count =>
            exact ThreadSum.update_of (P := fun x : Worker α => x.task = []) (fun _ => h.tasks w)
              fun _ => rfl
        | queue | stopLost | stopWon | join | stopReturned | joinSelf => exact h.tasks w }
  right := htr.started_cases.resolve_right fun hitems => hitems.1 h.items

/-- The step with which a call returns starts nothing. -/
theorem Transition.started_eq_nil (htr : Transition s a evs s') {t : ι ⊕ Fin n} {won : Bool}
    (hmem : .stopReturned t won ∈ evs) : started evs = [] := by
  cases htr with
  | queue | start | exit => simp at hmem
  | finish | count | stopLost | stopWon | join | stopReturned | joinSelf => rfl

omit [DecidableEq ι] in
/-- The winner leaves the pool at rest. -/
theorem Sound.atRest_of_returned (h : Sound tr s) (hn : 0 < n) {t : ι ⊕ Fin n}
    (hret : .stopReturned t true ∈ tr) : s.AtRest where
  closed := (h.of_returned hn hret).1
  items := (h.of_returned hn hret).2.1
  tasks w := by rw [(h.stopped.returned t hret).2 w, Worker.task]

variable [Fintype ι] {t : ι ⊕ Fin n}

theorem lift_not_returned {stops : ι ⊕ Fin n → Stop} {b : QueueThreads.Action (ι ⊕ Fin n) α}
    {won : Bool} (h : s.lift stops b = some (s', evs)) : .stopReturned t won ∉ evs := by
  obtain ⟨r, -, heq⟩ := Option.map_eq_some_iff.mp h
  obtain ⟨-, rfl⟩ := Prod.mk.inj heq
  simp

/-- Only a `stop` that finds the flag set returns without having won. -/
theorem stopLost_inv (h : step s a = some (s', evs)) (hmem : .stopReturned t false ∈ evs) :
    s' = s ∧ s.stopping = true ∧ ∃ drain, a = .stop t drain := by
  cases a with
  | stop u drain =>
      simp only [step, Option.ite_none_right_eq_some] at h
      obtain ⟨-, h⟩ := h
      split at h
      · rename_i hstopping
        obtain ⟨rfl, rfl⟩ := Prod.mk.inj (Option.some.inj h)
        obtain ⟨rfl, -⟩ := Event.stopReturned.inj (List.mem_singleton.mp hmem)
        exact ⟨rfl, hstopping, drain, rfl⟩
      · obtain ⟨-, rfl⟩ := Prod.mk.inj (Option.some.inj h)
        simp at hmem
  | post =>
      simp only [step, Option.ite_none_right_eq_some] at h
      exact absurd hmem (lift_not_returned h.2)
  | getUp | resume | notify => exact absurd hmem (lift_not_returned h)
  | pop w | clear u | close u =>
      simp only [step] at h
      split at h
      · exact absurd hmem (lift_not_returned h)
      · cases h
  | finish w | joinSelf w =>
      simp only [step] at h
      split at h
      · obtain ⟨-, heq⟩ := Option.ite_none_right_eq_some.mp h
        obtain ⟨-, rfl⟩ := Prod.mk.inj (Option.some.inj heq)
        simp at hmem
      · cases h
  | count w =>
      simp only [step] at h
      split at h
      · obtain ⟨-, rfl⟩ := Prod.mk.inj (Option.some.inj h)
        simp at hmem
      · cases h
  | join u =>
      simp only [step] at h
      split at h
      · obtain ⟨-, h⟩ := Option.ite_none_right_eq_some.mp h
        split at h
        · split at h
          · obtain ⟨-, rfl⟩ := Prod.mk.inj (Option.some.inj h)
            simp at hmem
          · cases h
        · obtain ⟨-, rfl⟩ := Prod.mk.inj (Option.some.inj h)
          simp at hmem
      · cases h

/-- A call that returns leaves the pool at rest, the loser by the guard. -/
theorem atRest_of_stopReturned (hstep : step s a = some (s', evs)) (hsound : Sound (tr ++ evs) s')
    (hn : 0 < n) (hguard : ExitsAtRest s a) {won : Bool} (hmem : .stopReturned t won ∈ evs) :
    s'.AtRest := by
  cases won with
  | true => exact hsound.atRest_of_returned hn (List.mem_append_right _ hmem)
  | false =>
      obtain ⟨rfl, hstopping, drain, rfl⟩ := stopLost_inv hstep hmem
      exact hguard hstopping

/-- What is known of a pool whose early exits find it at rest. -/
structure Settled (tr : List (Event ι α n)) (s : State ι α n) : Prop where
  onlyPop : OnlyWorkersPop s
  sound : Sound tr s
  atRest : StopReturned tr → s.AtRest
  started : ∀ tr₁ tr₂, tr = tr₁ ++ tr₂ → StopReturned tr₁ → started tr₂ = []

theorem Settled.step (h : Settled tr s) (hn : 0 < n) (hguard : ExitsAtRest s a)
    (hstep : ThreadPool.step s a = some (s', evs)) : Settled (tr ++ evs) s' := by
  have htr := step_transition h.onlyPop hstep
  have hsound := h.sound.step htr
  refine ⟨h.onlyPop.step htr, hsound, ?_, ?_⟩
  · rintro ⟨t, won, hmem⟩
    rcases List.mem_append.mp hmem with hold | hnew
    · exact ((h.atRest ⟨t, won, hold⟩).step htr).1
    · exact atRest_of_stopReturned hstep hsound hn hguard hnew
  · refine started_after_append StopReturned.append h.started fun hret => ?_
    obtain ⟨t, won, hmem⟩ := hret
    rcases List.mem_append.mp hmem with hold | hnew
    · exact ((h.atRest ⟨t, won, hold⟩).step htr).2
    · exact htr.started_eq_nil hnew

variable {threads capacity : Nat} {as : List (Action ι α (threadCount threads))}
  {tr : List (Event ι α (threadCount threads))} {s : State ι α (threadCount threads)}

theorem settled_of_run
    (h : (machine ι α (threadCount threads)).RunIf (fun _ => ExitsAtRest) (.init threads capacity)
      as tr s) : Settled tr s := by
  refine Machine.RunIf.invariant (I := Settled) h ?_ fun hI hguard hstep =>
    hI.step (threadCount_pos threads) hguard hstep
  refine ⟨onlyWorkersPop_init threads capacity, sound_init threads capacity, ?_, ?_⟩
  · rintro ⟨t, won, hmem⟩
    cases hmem
  · intro tr₁ tr₂ hsplit _
    rw [(List.append_eq_nil_iff.mp hsplit.symm).2]
    rfl

/-- **When a returned stop means quiescence.** In every run in which each `stop` that
    finds the flag set finds the pool at rest, no worker is in a task once any `stop` call
    has returned, and none is started from then on. -/
theorem stop_quiesces
    (h : (machine ι α (threadCount threads)).RunIf (fun _ => ExitsAtRest) (.init threads capacity)
      as tr s) : Quiescent tr s := by
  have hI := settled_of_run h
  exact ⟨fun hret => (hI.atRest hret).tasks, hI.started⟩

/-- The second `stop` comes when the worker has run its task and the first is joining. -/
theorem stop_quiesces_in_turn :
    ∃ tr s, (machine (Fin 2) Nat (threadCount 1)).RunIf (fun _ => ExitsAtRest) (.init 1 1)
        [.post (.inl 0) .post 7 none, .pop 0 none, .stop (.inl 1) true, .close (.inl 1),
          .notify (.inl 1), .notify (.inl 1), .finish 0, .stop (.inl 0) true, .count 0,
          .pop 0 none, .join (.inl 1), .join (.inl 1)] tr s ∧
      .stopReturned (.inl 0) false ∈ tr ∧ Quiescent tr s := by
  refine ⟨_, _, .of_isSome _ _ _ _ (by decide), by decide, ?_⟩
  exact stop_quiesces (.of_isSome _ _ _ _ _)

/-- The winner waits for the worker that runs the task; the second `stop` returns. -/
theorem stop_does_not_quiesce :
    ¬ ∀ as tr s, (machine (Fin 2) Nat (threadCount 1)).Run (.init 1 1) as tr s →
      Quiescent tr s := by
  intro hall
  have hrun := Machine.Run.of_isSome (machine (Fin 2) Nat (threadCount 1)) (.init 1 1)
    [.post (.inl 0) .post 7 none, .pop 0 none, .stop (.inl 1) true, .close (.inl 1),
      .notify (.inl 1), .notify (.inl 1), .stop (.inl 0) true] (by decide)
  have hquiet := (hall _ _ _ hrun).tasks ⟨.inl 0, false, by decide⟩ 0
  exact absurd hquiet (by decide)

end Steps

end ThreadPool

end Rdb
