-- SUMMARY: What the two kinds of `stop` do to the tasks of a thread pool, in every interleaving.
import Mathlib.Algebra.Order.Group.Multiset
import Mathlib.Tactic.Abel
import Rdb.Lib.ThreadSum
import Rdb.Concurrency.Closing
import Rdb.Concurrency.ThreadPool

/-!
# Stopping a thread pool

`stop(true)` closes the queue, lets the workers drain it and joins them: every
task that was accepted is run exactly once. `stop(false)` clears the queue first,
and only then closes it, in a section of its own. A task that is posted between
the two sections is accepted and run.
-/

namespace Rdb

namespace ThreadPool

open QueueThreads (Accounted Draining Effect)

variable {ι α : Type*} {n : Nat}

/-! ## The history of the tasks -/

/-- The event as one of the queue. -/
def Event.ofQueue : Event ι α n → Option (QueueThreads.Event (ι ⊕ Fin n) α)
  | .queue e => some e
  | .finished _ _ | .stopWon _ _ | .stopReturned _ _ => none

/-- The task that a worker is done with. -/
def Event.done : Event ι α n → List α
  | .finished _ task => [task]
  | .queue _ | .stopWon _ _ | .stopReturned _ _ => []

/-- The part of a history that the queue sees. -/
def queueEvents (tr : List (Event ι α n)) : List (QueueThreads.Event (ι ⊕ Fin n) α) :=
  tr.filterMap Event.ofQueue

/-- The task of a push that returned true to its caller. -/
def acceptedTask : QueueThreads.Event (ι ⊕ Fin n) α → List α
  | .pushed _ task status _ => if posted status then [task] else []
  | .popped _ _ | .cleared _ _ | .closed _ => []

/-- The accepted tasks, in the order in which the queue accepted them. -/
def accepted (tr : List (Event ι α n)) : List α := (queueEvents tr).flatMap acceptedTask

/-- The tasks that workers took up, in that order. -/
def started (tr : List (Event ι α n)) : List α := QueueThreads.popped (queueEvents tr)

/-- The tasks that were run to their end, in that order. -/
def finished (tr : List (Event ι α n)) : List α := tr.flatMap Event.done

/-- The task that a worker is running. -/
def Worker.task : Worker α → List α
  | .running task => [task]
  | .looping | .counting | .exited => []

def Worker.isCounting : Worker α → Bool
  | .counting => true
  | .looping | .running _ | .exited => false

/-- The tasks being run. -/
def running (workers : Fin n → Worker α) : Multiset α := ∑ w, ((workers w).task : Multiset α)

section Histories

variable (tr tr' : List (Event ι α n))

@[simp] theorem queueEvents_append :
    queueEvents (tr ++ tr') = queueEvents tr ++ queueEvents tr' := by simp [queueEvents]

@[simp] theorem accepted_append : accepted (tr ++ tr') = accepted tr ++ accepted tr' := by
  simp [accepted]

@[simp] theorem started_append : started (tr ++ tr') = started tr ++ started tr' := by
  simp [started]

@[simp] theorem finished_append : finished (tr ++ tr') = finished tr ++ finished tr' := by
  simp [finished]

@[simp] theorem queueEvents_map (evs : List (QueueThreads.Event (ι ⊕ Fin n) α)) :
    queueEvents (evs.map .queue) = evs := by
  simp [queueEvents, List.filterMap_map, Function.comp_def, Event.ofQueue]

@[simp] theorem finished_map (evs : List (QueueThreads.Event (ι ⊕ Fin n) α)) :
    finished (evs.map .queue : List (Event ι α n)) = [] := by
  simp [finished, List.flatMap_map, Event.done]

end Histories

/-! ## Every accepted task is somewhere -/

section Ledger

variable [DecidableEq ι] {s s' : State ι α n} {a : Action ι α n}
  {tr evs : List (Event ι α n)}

/-- A step of the pool does to the queue what its own events say. -/
theorem Transition.effect (h : Transition s a evs s') :
    Effect s.tasks.queue (queueEvents evs) s'.tasks.queue := by
  cases h with
  | queue _ _ htr => simpa using htr.effect
  | start _ htr | exit _ htr => exact htr.effect
  | finish | count | stopLost | stopWon | join | stopReturned | joinSelf => exact .quiet

/-- Where the tasks are that workers took up. -/
structure Worked (tr : List (Event ι α n)) (s : State ι α n) : Prop where
  /-- each is being run, or finished -/
  tasks : (started tr : Multiset α) = finished tr + running s.workers
  /-- a worker on its own finishes them in their order -/
  single : ∀ w, (∀ u, u = w) → started tr = finished tr ++ (s.workers w).task
  /-- what is finished is counted, or about to be -/
  counted : s.completed + ThreadSum.count Worker.isCounting s.workers = (finished tr).length

omit [DecidableEq ι] in
theorem running_update (workers : Fin n → Worker α) (w : Fin n) (x : Worker α) :
    running (Function.update workers w x) + (workers w).task = running workers + x.task :=
  ThreadSum.sum_update (fun x => (x.task : Multiset α)) workers w x

omit [DecidableEq ι] in
/-- One worker goes on: what it was running and what it took up is what it
    finished and what it is running now. -/
theorem Worked.update (h : Worked tr s) {w : Fin n} {x : Worker α}
    (hworkers : s'.workers = Function.update s.workers w x)
    (hbal : (s.workers w).task ++ started evs = finished evs ++ x.task)
    (hcount : s'.completed + x.isCounting.toNat =
      s.completed + (s.workers w).isCounting.toNat + (finished evs).length) :
    Worked (tr ++ evs) s' where
  tasks := by
    have hrun := running_update s.workers w x
    have hbal' : ((s.workers w).task : Multiset α) + started evs = finished evs + x.task := by
      simpa using congrArg (fun l : List α => (l : Multiset α)) hbal
    rw [hworkers, started_append, finished_append, ← Multiset.coe_add, ← Multiset.coe_add, h.tasks]
    refine add_right_cancel (b := ((s.workers w).task : Multiset α)) ?_
    calc (finished tr + running s.workers + started evs + (s.workers w).task : Multiset α)
        = finished tr + running s.workers + ((s.workers w).task + started evs) := by abel
      _ = finished tr + finished evs + (running s.workers + x.task) := by rw [hbal']; abel
      _ = finished tr + finished evs + running (Function.update s.workers w x) +
            (s.workers w).task := by rw [← hrun, add_assoc _ (running _)]
  single u hu := by
    obtain rfl := hu w
    rw [started_append, finished_append, h.single w hu, hworkers, Function.update_self,
      List.append_assoc, hbal, List.append_assoc]
  counted := by
    have hsum := ThreadSum.count_update Worker.isCounting s.workers w x
    have hcounted := h.counted
    rw [finished_append, List.length_append, hworkers]
    omega

omit [DecidableEq ι] in
/-- No worker goes on. -/
theorem Worked.keep (h : Worked tr s) (hworkers : s'.workers = s.workers)
    (hcompleted : s'.completed = s.completed) (hstarted : started evs = [])
    (hfinished : finished evs = []) : Worked (tr ++ evs) s' where
  tasks := by simpa [hstarted, hfinished, hworkers] using h.tasks
  single := by simpa [hstarted, hfinished, hworkers] using h.single
  counted := by simpa [hfinished, hworkers, hcompleted] using h.counted

theorem Worked.step (h : Worked tr s) (htr : Transition s a evs s') :
    Worked (tr ++ evs) s' := by
  cases htr with
  | queue _ _ _ hno =>
      refine h.keep rfl rfl ?_ (finished_map _)
      rw [started, queueEvents_map, QueueThreads.popped_eq_nil hno]
  | start _ _ hw => exact h.update rfl (by rw [hw]; rfl) (by rw [hw]; rfl)
  | exit _ _ _ hw => exact h.update rfl (by rw [hw]; rfl) (by rw [hw]; rfl)
  | finish hw => exact h.update rfl (by rw [hw]; rfl) (by rw [hw]; rfl)
  | count hw => exact h.update rfl (by rw [hw]; rfl) (by rw [hw]; rfl)
  | stopLost | stopWon | join | stopReturned | joinSelf => exact h.keep rfl rfl rfl rfl

end Ledger

/-! ## How far a `stop` has come -/

section Stops

variable [DecidableEq ι] {s s' : State ι α n} {a : Action ι α n}
  {b : QueueThreads.Action (ι ⊕ Fin n) α} {stops : ι ⊕ Fin n → Stop}
  {tasks : QueueThreads.State (ι ⊕ Fin n) α} {qevs : List (QueueThreads.Event (ι ⊕ Fin n) α)}
  {tr evs : List (Event ι α n)} {t : ι ⊕ Fin n} {w : Fin n}

/-- What the `stop` calls of a history have brought about. -/
structure Stopped (tr : List (Event ι α n)) (s : State ι α n) : Prop where
  /-- only a winning `stop(false)` clears -/
  clearing : ∀ t, s.stops t = .clearing → ∃ u, .stopWon u false ∈ tr
  cleared : ∀ t discarded, .cleared t discarded ∈ queueEvents tr → ∃ u, .stopWon u false ∈ tr
  /-- a worker leaves its loop only when there is nothing left, for good -/
  exited : ∀ w, s.workers w = .exited →
    s.tasks.queue.closed = true ∧ s.tasks.queue.items = []
  joining : ∀ t k, s.stops t = .joining k → s.tasks.queue.closed = true ∧
    ∀ w : Fin n, w.val < k → s.workers w = .exited
  returned : ∀ t, .stopReturned t true ∈ tr → s.tasks.queue.closed = true ∧
    ∀ w, s.workers w = .exited

theorem Transition.exited_mono (h : Transition s a evs s') (hw : s.workers w = .exited) :
    s'.workers w = .exited := by
  cases h with
  | start _ _ hv | exit _ _ _ hv | finish hv | count hv =>
      refine (Function.update_of_ne ?_ ..).trans hw
      rintro rfl
      simp [hw] at hv
  | queue | stopLost | stopWon | join | stopReturned | joinSelf => exact hw

theorem Transition.exited_cases (h : Transition s a evs s') (hw : s'.workers w = .exited) :
    s.workers w = .exited ∨
      (s'.tasks.queue.closed = true ∧ s'.tasks.queue.items = []) := by
  cases h with
  | @exit _ v _ _ _ hqueue _ hitems hclosed =>
      exact .inr ⟨hqueue ▸ hclosed, hqueue ▸ hitems⟩
  | start | finish | count => exact .inl (ThreadSum.of_update hw (by simp))
  | queue | stopLost | stopWon | join | stopReturned | joinSelf => exact .inl hw

theorem closed_of_close (h : QueueThreads.Transition s.tasks (.close t) qevs tasks) :
    tasks.queue.closed = true := by
  cases h with
  | close => rfl
  | accept hsec | reject hsec | pushSleeps hsec => cases hsec
  | pop hsec | popNone hsec | popSleeps hsec => cases hsec
  | clear heq | notify heq | getUp heq => cases heq

theorem clear_of_cleared (h : QueueThreads.Transition s.tasks b qevs tasks)
    {discarded : List α} (hmem : .cleared t discarded ∈ qevs) : b = .clear t := by
  cases h with
  | clear heq =>
      rw [List.mem_singleton, QueueThreads.Event.cleared.injEq] at hmem
      rw [heq, hmem.1]
  | accept | reject | pop | popNone | close | pushSleeps | popSleeps | notify | getUp =>
      simp at hmem

theorem StopStep.clearing (h : StopStep s b stops) (ht : stops t = .clearing) :
    s.stops t = .clearing := by
  cases h with
  | clear | close => exact ThreadSum.of_update ht (by simp)
  | keep => exact ht

theorem StopStep.joining {k : Nat} (h : StopStep s b stops) (ht : stops t = .joining k) :
    s.stops t = .joining k ∨ b = .close t ∧ k = 0 := by
  cases h with
  | clear => exact .inl (ThreadSum.of_update ht (by simp))
  | @close u =>
      by_cases htu : t = u
      · subst htu
        exact .inr ⟨rfl, by simpa [eq_comm] using ht⟩
      · exact .inl (by rwa [Function.update_of_ne htu] at ht)
  | keep => exact .inl ht

/-- Where a `stop` that joins has come from. -/
theorem Transition.joining_cases {k : Nat} (h : Transition s a evs s')
    (ht : s'.stops t = .joining k) :
    s.stops t = .joining k ∨ (k = 0 ∧ s'.tasks.queue.closed = true) ∨
      ∃ w : Fin n, k = w + 1 ∧ s.stops t = .joining w ∧ s.workers w = .exited := by
  cases h with
  | queue _ _ htr _ hstop =>
      rcases hstop.joining ht with hold | ⟨rfl, hk⟩
      · exact .inl hold
      · exact .inr (.inl ⟨hk, closed_of_close htr⟩)
  | start | exit | finish | count | stopLost => exact .inl ht
  | @stopWon u drain => exact .inl (ThreadSum.of_update ht (by cases drain <;> simp))
  | @join u w hu hw =>
      by_cases htu : t = u
      · subst htu
        exact .inr (.inr ⟨w, by simpa [eq_comm] using ht, hu, hw⟩)
      · exact .inl (by simpa [Function.update_of_ne htu] using ht)
  | stopReturned | joinSelf => exact .inl (ThreadSum.of_update ht (by simp))

theorem Transition.clearing_cases (h : Transition s a evs s') (ht : s'.stops t = .clearing) :
    s.stops t = .clearing ∨ .stopWon t false ∈ evs := by
  cases h with
  | queue _ _ _ _ hstop => exact .inl (hstop.clearing ht)
  | start | exit | finish | count | stopLost => exact .inl ht
  | @stopWon u drain =>
      by_cases htu : t = u
      · subst htu
        cases drain with
        | false => exact .inr List.mem_cons_self
        | true => simp at ht
      · exact .inl (by simpa [Function.update_of_ne htu] using ht)
  | join | stopReturned | joinSelf => exact .inl (ThreadSum.of_update ht (by simp))

/-- Only a `stop(false)` that is about to clear does clear. -/
theorem Transition.clearing_of_cleared (h : Transition s a evs s') {discarded : List α}
    (hmem : .cleared t discarded ∈ queueEvents evs) : s.stops t = .clearing := by
  cases h with
  | queue _ _ htr _ hstop =>
      rw [queueEvents_map] at hmem
      obtain rfl := clear_of_cleared htr hmem
      cases hstop with
      | clear ht => exact ht
      | keep hclear => exact absurd rfl (hclear t)
  | start | exit | finish | count | stopLost | stopWon | join | stopReturned | joinSelf =>
      simp [queueEvents, Event.ofQueue] at hmem

theorem Stopped.step (h : Stopped tr s) (htr : Transition s a evs s') :
    Stopped (tr ++ evs) s' where
  clearing t ht := by
    rcases htr.clearing_cases ht with hold | hnow
    · obtain ⟨u, hu⟩ := h.clearing t hold
      exact ⟨u, List.mem_append_left _ hu⟩
    · exact ⟨t, List.mem_append_right _ hnow⟩
  cleared t discarded hmem := by
    rw [queueEvents_append, List.mem_append] at hmem
    obtain ⟨u, hu⟩ := hmem.elim (h.cleared t discarded) fun hnow =>
      h.clearing t (htr.clearing_of_cleared hnow)
    exact ⟨u, List.mem_append_left _ hu⟩
  exited w hw := by
    rcases htr.exited_cases hw with hold | hnow
    · obtain ⟨hclosed, hitems⟩ := h.exited w hold
      exact ⟨htr.effect.closed_mono hclosed, htr.effect.items_eq_nil hclosed hitems⟩
    · exact hnow
  joining t k ht := by
    rcases htr.joining_cases ht with hold | ⟨rfl, hclosed⟩ | ⟨v, rfl, hold, hv⟩
    · obtain ⟨hclosed, hjoined⟩ := h.joining t k hold
      exact ⟨htr.effect.closed_mono hclosed, fun w hw => htr.exited_mono (hjoined w hw)⟩
    · exact ⟨hclosed, fun w hw => absurd hw (Nat.not_lt_zero _)⟩
    · obtain ⟨hclosed, hjoined⟩ := h.joining t v hold
      refine ⟨htr.effect.closed_mono hclosed, fun w hw => htr.exited_mono ?_⟩
      rcases Nat.lt_succ_iff_lt_or_eq.mp hw with hlt | heq
      · exact hjoined w hlt
      · rwa [Fin.ext heq]
  returned t hmem := by
    rcases List.mem_append.mp hmem with hold | hnow
    · obtain ⟨hclosed, hall⟩ := h.returned t hold
      exact ⟨htr.effect.closed_mono hclosed, fun w => htr.exited_mono (hall w)⟩
    · cases htr with
      | stopReturned ht hk =>
          obtain ⟨hclosed, hjoined⟩ := h.joining _ _ ht
          exact ⟨hclosed, fun w => hjoined w (w.isLt.trans_le hk)⟩
      | queue | start | exit | finish | count | stopLost | stopWon | join | joinSelf =>
          simp at hnow

end Stops

/-! ## Draining -/

section Drain

variable [DecidableEq ι] {s s' : State ι α n} {a : Action ι α n} {tr evs : List (Event ι α n)}

/-- Everything that is known of the tasks of a pool with the history `tr`. -/
structure Sound (tr : List (Event ι α n)) (s : State ι α n) : Prop where
  queue : Accounted .block (queueEvents tr) s.tasks.queue
  /-- a queue that blocks evicts nothing -/
  kept : ∀ t task status evicted, .pushed t task status evicted ∈ queueEvents tr →
    status ≠ .droppedOldest ∧ evicted = none
  worked : Worked tr s
  stopped : Stopped tr s

omit [DecidableEq ι] in
theorem kept_of_block {q q' : BoundedQueue α} {qevs : List (QueueThreads.Event (ι ⊕ Fin n) α)}
    (h : Effect q qevs q') (hpolicy : q.policy = .block) {t : ι ⊕ Fin n} {task : α}
    {status : PushStatus} {evicted : Option α} (hmem : .pushed t task status evicted ∈ qevs) :
    status ≠ .droppedOldest ∧ evicted = none := by
  cases h with
  | push hp =>
      rw [List.mem_singleton, QueueThreads.Event.pushed.injEq] at hmem
      obtain ⟨-, -, rfl, rfl⟩ := hmem
      cases hp with
      | droppedOldest _ _ hdrop => simp [hpolicy] at hdrop
      | closed | droppedNewest | full | ok => simp
  | pop | clear | close | quiet => simp at hmem

theorem Sound.step (h : Sound tr s) (htr : Transition s a evs s') : Sound (tr ++ evs) s' where
  queue := by
    rw [queueEvents_append]
    exact h.queue.step htr.effect
  kept t task status evicted hmem := by
    rw [queueEvents_append, List.mem_append] at hmem
    exact hmem.elim (h.kept t task status evicted) (kept_of_block htr.effect h.queue.policy_eq)
  worked := h.worked.step htr
  stopped := h.stopped.step htr

omit [DecidableEq ι] in
theorem sound_init (threads capacity : Nat) :
    Sound [] (State.init (ι := ι) (α := α) threads capacity) where
  queue := ⟨rfl, rfl, Nat.zero_le _, rfl⟩
  kept t task status evicted hmem := by simp [queueEvents] at hmem
  worked :=
    { tasks := by simp [started, finished, queueEvents, QueueThreads.popped, running, State.init,
        Worker.task]
      single _ _ := rfl
      counted := by simp [ThreadSum.count, State.init, Worker.isCounting, finished] }
  stopped :=
    { clearing t ht := by simp [State.init] at ht
      cleared t discarded hmem := by simp [queueEvents] at hmem
      exited w hw := by simp [State.init] at hw
      joining t k ht := by simp [State.init] at ht
      returned t hmem := by simp at hmem }

omit [DecidableEq ι] in
theorem Sound.accepted_eq (h : Sound tr s) :
    accepted tr = QueueThreads.entered (queueEvents tr) := by
  refine List.flatMap_congr fun e he => ?_
  cases e with
  | pushed t task status evicted =>
      obtain ⟨hstatus, -⟩ := h.kept t task status evicted he
      cases status <;> first | rfl | exact absurd rfl hstatus
  | popped | cleared | closed => rfl

omit [DecidableEq ι] in
/-- Unless the queue is cleared, the accepted tasks are those taken up and then
    those still queued. -/
theorem Sound.accepted_eq_started (h : Sound tr s) (hdrain : ∀ t, .stopWon t false ∉ tr) :
    accepted tr = started tr ++ s.tasks.queue.items := by
  have hleft : QueueThreads.left (queueEvents tr) = started tr := by
    refine QueueThreads.left_eq_popped_of_kept ?_ fun t task status evicted hmem =>
      (h.kept t task status evicted hmem).2
    intro t discarded hmem
    obtain ⟨u, hu⟩ := h.stopped.cleared t discarded hmem
    exact hdrain u hu
  rw [h.accepted_eq, h.queue.fifo, hleft]

omit [DecidableEq ι] in
/-- Once the winning `stop` has returned, no worker is at work and nothing is
    queued. -/
theorem Sound.of_returned (h : Sound tr s) (hn : 0 < n) {t : ι ⊕ Fin n}
    (hret : .stopReturned t true ∈ tr) :
    s.tasks.queue.closed = true ∧ s.tasks.queue.items = [] ∧
      (started tr : Multiset α) = finished tr ∧ s.completed = (finished tr).length := by
  obtain ⟨hclosed, hall⟩ := h.stopped.returned t hret
  have hitems := (h.stopped.exited ⟨0, hn⟩ (hall _)).2
  have hrunning : running s.workers = 0 := by simp [running, hall, Worker.task]
  have hcounting : ThreadSum.count Worker.isCounting s.workers = 0 := by
    simp [ThreadSum.count, hall, Worker.isCounting]
  refine ⟨hclosed, hitems, ?_, ?_⟩
  · rw [h.worked.tasks, hrunning, add_zero]
  · rw [← h.worked.counted, hcounting, Nat.add_zero]

variable [Fintype ι]

/-- A closed pool rejects every task. -/
theorem rejected_of_run {as : List (Action ι α n)} (hpop : OnlyWorkersPop s)
    (hclosed : s.tasks.queue.closed = true) (h : (machine ι α n).Run s as tr s')
    {t : ι ⊕ Fin n} {task : α} {status : PushStatus} {evicted : Option α}
    (hmem : .pushed t task status evicted ∈ queueEvents tr) : status = .closed := by
  have hdrain : OnlyWorkersPop s' ∧
      Draining s.tasks.queue.items (queueEvents tr) s'.tasks.queue := by
    refine Machine.Run.invariant (I := fun tr s' => OnlyWorkersPop s' ∧
      Draining s.tasks.queue.items (queueEvents tr) s'.tasks.queue) h ⟨hpop, .start hclosed⟩ ?_
    rintro tr s a s' evs ⟨hpop, hdrain⟩ hstep
    have htr := step_transition hpop hstep
    rw [queueEvents_append]
    exact ⟨hpop.step htr, hdrain.step htr.effect⟩
  exact (hdrain.2.rejected t task status evicted hmem).1

variable {threads capacity : Nat} {as : List (Action ι α (threadCount threads))}
  {tr : List (Event ι α (threadCount threads))} {s : State ι α (threadCount threads)}

theorem sound_of_run
    (h : (machine ι α (threadCount threads)).Run (.init threads capacity) as tr s) :
    OnlyWorkersPop s ∧ Sound tr s :=
  invariant_of_run h (sound_init threads capacity) fun hI _ htr => hI.step htr

/-- **A draining stop runs every accepted task exactly once.** In every state of
    a pool that no `stop(false)` has won: the accepted tasks are, each once, those
    queued, those being run and those finished, and workers took up nothing but
    accepted tasks, in the order of acceptance. Once the winning `stop` has
    returned, nothing is queued, every accepted task has been finished once and
    counted, and every task handed in from then on is rejected. A worker on its
    own runs the tasks in the order in which they were accepted. -/
theorem drain_exactly_once
    (h : (machine ι α (threadCount threads)).Run (.init threads capacity) as tr s)
    (hdrain : ∀ t, .stopWon t false ∉ tr) :
    (accepted tr : Multiset α) = s.tasks.queue.items + running s.workers + finished tr ∧
    started tr <+: accepted tr ∧
    (∀ t, .stopReturned t true ∈ tr →
      s.tasks.queue.items = [] ∧ (finished tr : Multiset α) = accepted tr ∧
      s.completed = (accepted tr).length ∧
      ∀ as' tr' s', (machine ι α (threadCount threads)).Run s as' tr' s' →
        ∀ u task status evicted, .queue (.pushed u task status evicted) ∈ tr' →
          posted status = false) ∧
    (threads ≤ 1 →
      ∀ w, accepted tr = finished tr ++ (s.workers w).task ++ s.tasks.queue.items) := by
  obtain ⟨hpop, hsound⟩ := sound_of_run h
  have hacc := hsound.accepted_eq_started hdrain
  refine ⟨?_, ?_, ?_, ?_⟩
  · rw [hacc, ← Multiset.coe_add, hsound.worked.tasks]
    abel
  · exact ⟨_, hacc.symm⟩
  · intro t hret
    obtain ⟨hclosed, hitems, hfinished, hcompleted⟩ := hsound.of_returned (threadCount_pos _) hret
    have hall : accepted tr = started tr := by rw [hacc, hitems, List.append_nil]
    refine ⟨hitems, by rw [hall, hfinished], ?_, ?_⟩
    · rw [hcompleted, hall]
      simpa using (congrArg Multiset.card hfinished).symm
    · intro as' tr' s' hrun u task status evicted hmem
      have hqueue : .pushed u task status evicted ∈ queueEvents tr' :=
        List.mem_filterMap.mpr ⟨_, hmem, rfl⟩
      rw [rejected_of_run hpop hclosed hrun hqueue]
      rfl
  · intro hone w
    have hsingle : threadCount threads = 1 := by
      unfold threadCount
      split <;> omega
    rw [hacc, hsound.worked.single w]
    intro u
    apply Fin.ext
    omega

/-- A poster is blocked on a full queue when the pool is stopped: its task is
    rejected, the two accepted ones are run before `stop` returns. -/
theorem drain_exactly_once_blocked_poster :
    ∃ tr s, (machine (Fin 2) Nat (threadCount 1)).Run (.init 1 1)
        [.post (.inl 0) .post 7 none, .pop 0 none, .post (.inl 0) .submit 8 none,
          .post (.inl 0) .post 9 none, .stop (.inl 1) true, .close (.inl 1), .notify (.inl 1),
          .notify (.inl 1), .resume (.inl 0) 0 none, .finish 0, .count 0, .pop 0 none, .finish 0,
          .count 0, .pop 0 none, .join (.inl 1), .join (.inl 1)] tr s ∧
      accepted tr = [7, 8] ∧ .stopReturned (.inl 1) true ∈ tr ∧
      s.tasks.queue.items = [] ∧ s.completed = (accepted tr).length := by
  refine ⟨_, _, .of_isSome _ _ _ (by decide), by decide, by decide, ?_⟩
  exact ⟨((drain_exactly_once (.of_isSome _ _ _ _) (by decide)).2.2.1 (.inl (1 : Fin 2))
      (by decide)).1,
    ((drain_exactly_once (.of_isSome _ _ _ _) (by decide)).2.2.1 (.inl (1 : Fin 2))
      (by decide)).2.2.1⟩

end Drain

/-! ## Discarding -/

section Discard

/-- The history discards: no task is taken up once the queue has been cleared. -/
def Discards (tr : List (Event ι α n)) : Prop :=
  ∀ tr₁ tr₂ t discarded, tr = tr₁ ++ tr₂ → .cleared t discarded ∈ queueEvents tr₁ →
    started tr₂ = []

/-- A `stop(false)` has cleared the queue and not closed it yet. -/
def State.discarding (s : State ι α n) : Prop := ∃ t, s.stops t = .closing false

instance [Fintype ι] (s : State ι α n) : Decidable s.discarding :=
  inferInstanceAs (Decidable (∃ t, s.stops t = .closing false))

/-- The action runs a section of a `post`, `try_post` or `submit`, be it the first
    one or one after a wait for space. -/
def State.posts (s : State ι α n) : Action ι α n → Bool
  | .post _ _ _ _   => true
  | .resume t _ _ =>
    match s.tasks.threads t with
    | .pushing _ _ _ => true
    | _              => false
  | _ => false

/-- What is known once the queue has been cleared, as long as nothing is posted
    before it is closed. -/
structure Discarded (tr : List (Event ι α n)) (s : State ι α n) : Prop where
  discards : Discards tr
  empty : ∀ t discarded, .cleared t discarded ∈ queueEvents tr →
    s.tasks.queue.items = [] ∧ (s.tasks.queue.closed = true ∨ s.discarding)

variable [DecidableEq ι] {s s' : State ι α n} {a : Action ι α n}
  {b : QueueThreads.Action (ι ⊕ Fin n) α} {stops : ι ⊕ Fin n → Stop}
  {tr evs : List (Event ι α n)} {t : ι ⊕ Fin n} {discarded : List α}

/-- A task is taken up from the front of the queue. -/
theorem Transition.started_cases (h : Transition s a evs s') :
    started evs = [] ∨ (s.tasks.queue.items ≠ [] ∧ ∀ t discarded,
      .cleared t discarded ∉ queueEvents evs) := by
  cases h with
  | queue _ _ _ hno => exact .inl (by rw [started, queueEvents_map, QueueThreads.popped_eq_nil hno])
  | start _ htr =>
      refine .inr ⟨?_, by simp [queueEvents, Event.ofQueue]⟩
      cases htr with
      | pop _ hitems => simp [hitems]
  | exit | finish | count | stopLost | stopWon | join | stopReturned | joinSelf => exact .inl rfl

omit [DecidableEq ι] in
theorem posts_of_pushSection {v : α} {deadline : TimePoint} (ha : a.call = some b)
    (h : QueueThreads.PushSection s.tasks t v deadline b) : s.posts a = true := by
  cases h with
  | enter =>
      cases a <;> simp [Action.call] at ha
      rfl
  | wake hth =>
      cases a <;> simp [Action.call] at ha
      obtain ⟨rfl, -, -⟩ := ha
      simp [State.posts, hth]

/-- Only a post puts something into the queue, and only into an open one. -/
theorem Transition.items_eq_nil (h : Transition s a evs s') (hitems : s.tasks.queue.items = [])
    (hpost : s.tasks.queue.closed = true ∨ s.posts a = false) : s'.tasks.queue.items = [] := by
  rcases hpost with hclosed | hpost
  · exact h.effect.items_eq_nil hclosed hitems
  · cases h with
    | queue ha _ htr =>
        cases htr with
        | accept hsec => simp [posts_of_pushSection ha hsec] at hpost
        | reject hsec => simp [posts_of_pushSection ha hsec] at hpost
        | pop _ hsome => simp [hsome] at hitems
        | clear => rfl
        | pushSleeps | popNone | popSleeps | close | notify | getUp => exact hitems
    | start _ htr =>
        cases htr with
        | pop _ hsome => simp [hsome] at hitems
    | exit _ _ hqueue => exact hqueue ▸ hitems
    | finish | count | stopLost | stopWon | join | stopReturned | joinSelf => exact hitems

/-- The thread that has cleared the queue closes it. -/
theorem Transition.discarding (h : Transition s a evs s') (hdis : s.discarding) :
    s'.tasks.queue.closed = true ∨ s'.discarding := by
  obtain ⟨t, ht⟩ := hdis
  cases h with
  | queue _ _ htr _ hstop =>
      cases hstop with
      | @clear u =>
          by_cases htu : t = u
          · exact .inr ⟨u, Function.update_self ..⟩
          · exact .inr ⟨t, (Function.update_of_ne htu ..).trans ht⟩
      | @close u =>
          by_cases htu : t = u
          · exact .inl (closed_of_close htr)
          · exact .inr ⟨t, (Function.update_of_ne htu ..).trans ht⟩
      | keep => exact .inr ⟨t, ht⟩
  | stopWon _ hu | join hu | stopReturned hu | joinSelf hu =>
      refine .inr ⟨t, (Function.update_of_ne ?_ ..).trans ht⟩
      rintro rfl
      simp [ht] at hu
  | start | exit | finish | count | stopLost => exact .inr ⟨t, ht⟩

/-- Clearing starts to discard. -/
theorem Transition.of_cleared (h : Transition s a evs s')
    (hmem : .cleared t discarded ∈ queueEvents evs) :
    s'.tasks.queue.items = [] ∧ s'.discarding := by
  cases h with
  | queue _ _ htr _ hstop =>
      rw [queueEvents_map] at hmem
      obtain rfl := clear_of_cleared htr hmem
      cases hstop with
      | clear =>
          refine ⟨?_, t, Function.update_self ..⟩
          cases htr with
          | clear => rfl
          | accept hsec | reject hsec | pushSleeps hsec => cases hsec
          | pop hsec | popNone hsec | popSleeps hsec => cases hsec
          | close heq | notify heq | getUp heq => cases heq
      | keep hclear => exact absurd rfl (hclear t)
  | start | exit | finish | count | stopLost | stopWon | join | stopReturned | joinSelf =>
      simp [queueEvents, Event.ofQueue] at hmem

omit [DecidableEq ι] in
/-- A step that takes nothing up once something has happened. -/
theorem started_after_append {M : List (Event ι α n) → Prop}
    (hmono : ∀ {l l'}, M l → M (l ++ l'))
    (h : ∀ tr₁ tr₂, tr = tr₁ ++ tr₂ → M tr₁ → started tr₂ = [])
    (hnone : M (tr ++ evs) → started evs = []) :
    ∀ tr₁ tr₂, tr ++ evs = tr₁ ++ tr₂ → M tr₁ → started tr₂ = [] := by
  intro tr₁ tr₂ hsplit hM
  rcases List.append_eq_append_iff.mp hsplit with ⟨u, rfl, rfl⟩ | ⟨v, rfl, rfl⟩
  · -- the cut is within the step
    have hall := hnone (by
      rw [← List.append_assoc]
      exact hmono hM)
    rw [started_append] at hall
    exact (List.append_eq_nil_iff.mp hall).2
  · have hnew := hnone (by
      rw [List.append_assoc]
      exact hmono hM)
    rw [started_append, h tr₁ v rfl hM, hnew, List.append_nil]

omit [DecidableEq ι] in
/-- A step that takes nothing up once the queue has been cleared. -/
theorem Discards.append (h : Discards tr)
    (hnone : ∀ t discarded, .cleared t discarded ∈ queueEvents (tr ++ evs) → started evs = []) :
    Discards (tr ++ evs) := by
  intro tr₁ tr₂ t discarded hsplit hmem
  refine started_after_append
    (M := fun l => ∃ t discarded, .cleared t discarded ∈ queueEvents l) ?_ ?_ ?_ tr₁ tr₂ hsplit
    ⟨t, discarded, hmem⟩
  · rintro l l' ⟨t, discarded, hmem⟩
    rw [queueEvents_append]
    exact ⟨t, discarded, List.mem_append_left _ hmem⟩
  · rintro l l' heq ⟨t, discarded, hmem⟩
    exact h l l' t discarded heq hmem
  · rintro ⟨t, discarded, hmem⟩
    exact hnone t discarded hmem

theorem Discarded.step (h : Discarded tr s) (hpost : s.discarding → s.posts a = false)
    (htr : Transition s a evs s') : Discarded (tr ++ evs) s' where
  discards := by
    refine h.discards.append fun t discarded hmem => ?_
    rw [queueEvents_append, List.mem_append] at hmem
    rcases htr.started_cases with hnone | ⟨hitems, hno⟩
    · exact hnone
    · rcases hmem with hold | hnow
      · exact absurd (h.empty t discarded hold).1 hitems
      · exact absurd hnow (hno t discarded)
  empty t discarded hmem := by
    rw [queueEvents_append, List.mem_append] at hmem
    rcases hmem with hold | hnow
    · obtain ⟨hitems, hphase⟩ := h.empty t discarded hold
      refine ⟨htr.items_eq_nil hitems (hphase.imp_right hpost), ?_⟩
      rcases hphase with hclosed | hdis
      · exact .inl (htr.effect.closed_mono hclosed)
      · exact htr.discarding hdis
    · exact (htr.of_cleared hnow).imp_right .inr

variable [Fintype ι] {threads capacity : Nat} {as : List (Action ι α (threadCount threads))}
  {tr : List (Event ι α (threadCount threads))} {s : State ι α (threadCount threads)}

/-- **When a discarding stop discards.** In every run in which no section of a
    `post`, `try_post` or `submit` falls between the clearing and the closing of
    the queue by a `stop(false)`, no task is taken up once the queue has been
    cleared: neither one that was queued then nor one that came later. -/
theorem stop_discards
    (h : (machine ι α (threadCount threads)).RunIf
      (fun _ s a => s.discarding → s.posts a = false) (.init threads capacity) as tr s) :
    Discards tr := by
  refine (invariant_of_run (I := Discarded) h ?_ ?_).2.discards
  · refine ⟨?_, fun t discarded hmem => by simp [queueEvents] at hmem⟩
    intro tr₁ tr₂ t discarded hsplit _
    rw [(List.append_eq_nil_iff.mp hsplit.symm).2]
    rfl
  · intro tr s a s' evs hI hpost htr
    exact hI.step hpost htr

/-- With a poster that wakes up after the queue has been closed, the queued task
    is discarded and the poster's is rejected. -/
theorem stop_discards_late_poster :
    ∃ tr s, (machine (Fin 2) Nat (threadCount 1)).RunIf
        (fun _ s a => s.discarding → s.posts a = false) (.init 1 1)
        [.post (.inl 0) .post 7 none, .pop 0 none, .post (.inl 0) .post 8 none,
          .post (.inl 0) .post 9 none, .stop (.inl 1) false, .clear (.inl 1), .close (.inl 1),
          .notify (.inl 1), .notify (.inl 1), .resume (.inl 0) 0 none, .finish 0, .count 0,
          .pop 0 none] tr s ∧
      .queue (.cleared (.inl 1) [8]) ∈ tr ∧ .queue (.pushed (.inl 0) 9 .closed none) ∈ tr ∧
      Discards tr := by
  refine ⟨_, _, .of_isSome _ _ _ _ (by decide), by decide, by decide, ?_⟩
  exact stop_discards (.of_isSome _ _ _ _ _)

/-- A poster that is blocked on the full queue is woken up by the clearing; its
    task enters the queue before it is closed, and is run. -/
theorem stop_does_not_discard :
    ¬ ∀ as tr s, (machine (Fin 2) Nat (threadCount 1)).Run (.init 1 1) as tr s → Discards tr := by
  intro hall
  have hrun := Machine.Run.of_isSome (machine (Fin 2) Nat (threadCount 1)) (.init 1 1)
    [.post (.inl 0) .post 7 none, .pop 0 none, .post (.inl 0) .post 8 none,
      .post (.inl 0) .post 9 none, .stop (.inl 1) false, .clear (.inl 1),
      .resume (.inl 0) 0 none, .close (.inl 1), .notify (.inl 1), .notify (.inl 1), .finish 0,
      .count 0, .pop 0 none] (by decide)
  -- the history up to the clearing, and what follows it
  have hafter := hall _ _ _ hrun
    [.queue (.pushed (.inl 0) 7 .ok none), .queue (.popped (.inr 0) (some 7)),
      .queue (.pushed (.inl 0) 8 .ok none), .stopWon (.inl 1) false,
      .queue (.cleared (.inl 1) [8])]
    [.queue (.pushed (.inl 0) 9 .ok none), .queue (.closed (.inl 1)), .finished 0 7,
      .queue (.popped (.inr 0) (some 9))]
    (.inl 1) [8] (by decide) (by decide)
  exact absurd hafter (by decide)

end Discard

end ThreadPool

end Rdb
