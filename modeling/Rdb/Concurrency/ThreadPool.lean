-- SUMMARY: The thread pool of `concurrency/thread_pool.h`: workers, posters and `stop` calls around one bounded queue.
import Mathlib.Algebra.GroupWithZero.Nat
import Mathlib.Data.Fintype.Sum
import Rdb.Concurrency.QueueThreads

/-!
# Thread pool

`n` workers run the tasks of a bounded queue; any number of other threads post
tasks and stop the pool. A task may do both, too: a worker that runs one acts as
a client then. Every section of the queue is a step of
`Rdb.Concurrency.QueueThreads`; what is added here is where each worker is in
`run` and each thread in `stop`.
-/

namespace Rdb

namespace ThreadPool

open QueueThreads (Thread)

variable {ι α : Type*} {n : Nat}

/-- `const std::size_t n = threads == 0 ? 1 : threads;` -/
def threadCount (threads : Nat) : Nat := if threads = 0 then 1 else threads

theorem threadCount_pos (threads : Nat) : 0 < threadCount threads := by
  unfold threadCount
  split <;> omega

instance (threads : Nat) : NeZero (threadCount threads) := ⟨(threadCount_pos threads).ne'⟩

/-! ## State -/

/-- Where a worker is in `run`. -/
inductive Worker (α : Type*) where
  /-- at, or in, `queue_.pop()` -/
  | looping
  | running (task : α)
  /-- its task is done, `completed_` does not count it yet -/
  | counting
  | exited
  deriving DecidableEq, Repr

/-- Where a thread is in `stop`, if its `compare_exchange` succeeded. -/
inductive Stop where
  | outside
  /-- before `queue_.clear()` -/
  | clearing
  /-- before `queue_.close()` -/
  | closing (drain : Bool)
  /-- past the queue's locked part of `close`, with `k` workers joined -/
  | joining (k : Nat)
  deriving DecidableEq, Repr

/-- The clients `ι` and the workers are the threads of the queue. -/
structure State (ι α : Type*) (n : Nat) where
  tasks : QueueThreads.State (ι ⊕ Fin n) α
  workers : Fin n → Worker α
  stops : ι ⊕ Fin n → Stop
  stopping : Bool
  completed : Nat

def State.init (threads capacity : Nat) : State ι α (threadCount threads) where
  tasks := .init capacity .block
  workers _ := .looping
  stops _ := .outside
  stopping := false
  completed := 0

/-- The three ways to hand in a task. `submit` posts a task that fills a future. -/
inductive Entry where
  | post
  | tryPost
  | submit
  deriving DecidableEq, Repr

/-- `post` pushes and waits, `try_post` does not wait. -/
def Entry.deadline : Entry → TimePoint
  | .post | .submit => TimePoint.max
  | .tryPost        => TimePoint.min

/-- What `post` and `try_post` return; `submit` returns a future accordingly. -/
def posted (status : PushStatus) : Bool := status == .ok

/-- A step of the scheduler; `pick` and `now` are as for the queue. -/
inductive Action (ι α : Type*) (n : Nat) where
  | post (t : ι ⊕ Fin n) (entry : Entry) (task : α) (pick : Option (ι ⊕ Fin n))
  | pop (w : Fin n) (pick : Option (ι ⊕ Fin n))
  | getUp (t : ι ⊕ Fin n)
  | resume (t : ι ⊕ Fin n) (now : TimePoint) (pick : Option (ι ⊕ Fin n))
  /-- the task returns -/
  | finish (w : Fin n)
  /-- `completed_.fetch_add(1)` -/
  | count (w : Fin n)
  /-- call `stop`: the `compare_exchange` -/
  | stop (t : ι ⊕ Fin n) (drain : Bool)
  | clear (t : ι ⊕ Fin n)
  | close (t : ι ⊕ Fin n)
  | notify (t : ι ⊕ Fin n)
  /-- join the next worker, or return when all are joined -/
  | join (t : ι ⊕ Fin n)
  /-- a task that stopped its own pool gets to join its own thread, which throws -/
  | joinSelf (w : Fin n)

inductive Event (ι α : Type*) (n : Nat) where
  | queue (e : QueueThreads.Event (ι ⊕ Fin n) α)
  | finished (w : Fin n) (task : α)
  | stopWon (t : ι ⊕ Fin n) (drain : Bool)
  | stopReturned (t : ι ⊕ Fin n) (won : Bool)
  deriving DecidableEq, Repr

/-! ## Steps -/

/-- A pop that returns gives its worker a task, or ends its loop. -/
def receive (workers : Fin n → Worker α) :
    QueueThreads.Event (ι ⊕ Fin n) α → Fin n → Worker α
  | .popped (.inr w) (some task) => Function.update workers w (.running task)
  | .popped (.inr w) none        => Function.update workers w .exited
  | _                            => workers

/-- The thread runs code of its own, and may call the pool. -/
def State.free (s : State ι α n) (t : ι ⊕ Fin n) : Bool :=
  s.stops t == .outside &&
    match t with
    | .inl _ => true
    | .inr w =>
      match s.workers w with
      | .running _ => true
      | _          => false

section Steps

variable [Fintype ι] [DecidableEq ι]

/-- A section of the queue, with the `stop` calls where `stops` says. -/
def State.lift (s : State ι α n) (stops : ι ⊕ Fin n → Stop)
    (a : QueueThreads.Action (ι ⊕ Fin n) α) : Option (State ι α n × List (Event ι α n)) :=
  (QueueThreads.step s.tasks a).map fun r =>
    ({ s with tasks := r.1, workers := r.2.foldl receive s.workers, stops := stops },
      r.2.map .queue)

/-- No call of the queue is under way in the thread. -/
def State.idle (s : State ι α n) (t : ι ⊕ Fin n) : Bool :=
  match s.tasks.threads t with
  | .idle => true
  | _     => false

def step (s : State ι α n) : Action ι α n → Option (State ι α n × List (Event ι α n))
  | .post t entry task pick =>
    if s.free t then s.lift s.stops (.push t task entry.deadline pick) else none
  | .pop w pick =>
    match s.workers w with
    | .looping => s.lift s.stops (.pop (.inr w) TimePoint.max pick)
    | _        => none
  | .getUp t => s.lift s.stops (.getUp t)
  | .resume t now pick => s.lift s.stops (.resume t now pick)
  | .finish w =>
    match s.workers w with
    | .running task =>
      if s.free (.inr w) && s.idle (.inr w) then
        some ({ s with workers := Function.update s.workers w .counting }, [.finished w task])
      else none
    | _ => none
  | .count w =>
    match s.workers w with
    | .counting =>
      some ({ s with
        workers := Function.update s.workers w .looping
        completed := s.completed + 1 }, [])
    | _ => none
  | .stop t drain =>
    if s.free t && s.idle t then
      -- a second `stop` returns at once, it does not wait for the first
      if s.stopping then some (s, [.stopReturned t false])
      else
        some ({ s with
          stopping := true
          stops := Function.update s.stops t (if drain then .closing true else .clearing) },
          [.stopWon t drain])
    else none
  | .clear t =>
    match s.stops t with
    | .clearing => s.lift (Function.update s.stops t (.closing false)) (.clear t)
    | _         => none
  | .close t =>
    match s.stops t with
    | .closing _ => s.lift (Function.update s.stops t (.joining 0)) (.close t)
    | _          => none
  | .notify t => s.lift s.stops (.notify t)
  | .join t =>
    match s.stops t with
    | .joining k =>
      if s.idle t then
        if h : k < n then
          match s.workers ⟨k, h⟩ with
          | .exited => some ({ s with stops := Function.update s.stops t (.joining (k + 1)) }, [])
          | _       => none
        else
          some ({ s with stops := Function.update s.stops t .outside }, [.stopReturned t true])
      else none
    | _ => none
  | .joinSelf w =>
    match s.stops (.inr w) with
    | .joining k =>
      if k = w ∧ s.idle (.inr w) = true then
        some ({ s with stops := Function.update s.stops (.inr w) .outside }, [])
      else none
    | _ => none

variable (ι α n) in
def machine : Machine (State ι α n) (Action ι α n) (Event ι α n) where
  step := step

end Steps

/-! ## Who pops -/

/-- The worker may call `pop`, and without a deadline. -/
def State.mayPop (s : State ι α n) (t : ι ⊕ Fin n) (deadline : TimePoint) : Prop :=
  deadline = TimePoint.max ∧ ∃ w, t = .inr w ∧ s.workers w = .looping

/-- Only workers at the top of their loop wait for a task. -/
def OnlyWorkersPop (s : State ι α n) : Prop :=
  ∀ t deadline, (s.tasks.threads t).poppingUntil deadline → s.mayPop t deadline

theorem State.mayPop.congr {s s' : State ι α n} {t : ι ⊕ Fin n} {deadline : TimePoint}
    (h : s.mayPop t deadline)
    (heq : ∀ w, t = .inr w → s.workers w = .looping → s'.workers w = s.workers w) :
    s'.mayPop t deadline := by
  obtain ⟨hmax, w, rfl, hw⟩ := h
  exact ⟨hmax, w, rfl, (heq w rfl hw).trans hw⟩

theorem onlyWorkersPop_init (threads capacity : Nat) :
    OnlyWorkersPop (State.init (ι := ι) (α := α) threads capacity) := by
  intro t deadline hth
  exact absurd hth id

/-- The section is no first one of a pop, or one that a worker may run. -/
def State.allows (s : State ι α n) (b : QueueThreads.Action (ι ⊕ Fin n) α) : Prop :=
  ∀ t deadline pick, b = .pop t deadline pick → s.mayPop t deadline

theorem OnlyWorkersPop.of_popSection {s : State ι α n}
    {b : QueueThreads.Action (ι ⊕ Fin n) α} {t : ι ⊕ Fin n} {deadline : TimePoint}
    (hpop : OnlyWorkersPop s) (hcall : s.allows b)
    (hsec : QueueThreads.PopSection s.tasks t deadline b) : s.mayPop t deadline := by
  cases hsec with
  | enter => exact hcall _ _ _ rfl
  | wake hth => exact hpop t deadline (by rw [hth]; rfl)

/-- An event that is no pop of the worker's own leaves it alone. -/
theorem foldl_receive {workers : Fin n → Worker α} {w : Fin n}
    {evs : List (QueueThreads.Event (ι ⊕ Fin n) α)} (h : ∀ value, .popped (.inr w) value ∉ evs) :
    evs.foldl receive workers w = workers w := by
  induction evs generalizing workers with
  | nil => rfl
  | cons e evs ih =>
      have hrest : ∀ value, .popped (.inr w) value ∉ evs := fun value hmem =>
        h value (List.mem_cons_of_mem _ hmem)
      have hne : ∀ value, e ≠ .popped (.inr w) value := fun value heq =>
        h value (heq ▸ List.mem_cons_self)
      rw [List.foldl_cons, ih hrest]
      rcases e with _ | ⟨_ | u, _ | task⟩ | _ | _ <;> try rfl
      · exact Function.update_of_ne (fun heq => hne none (by rw [heq])) ..
      · exact Function.update_of_ne (fun heq => hne (some task) (by rw [heq])) ..

/-- The section of the queue that an action of the pool runs. -/
def Action.call : Action ι α n → Option (QueueThreads.Action (ι ⊕ Fin n) α)
  | .post t entry task pick => some (.push t task entry.deadline pick)
  | .pop w pick             => some (.pop (.inr w) TimePoint.max pick)
  | .getUp t                => some (.getUp t)
  | .resume t now pick      => some (.resume t now pick)
  | .clear t                => some (.clear t)
  | .close t                => some (.close t)
  | .notify t               => some (.notify t)
  | .finish _ | .count _ | .stop _ _ | .join _ | .joinSelf _ => none

/-- What a section of the queue means for the `stop` call it belongs to. -/
inductive StopStep (s : State ι α n) [DecidableEq ι] :
    QueueThreads.Action (ι ⊕ Fin n) α → (ι ⊕ Fin n → Stop) → Prop where
  | clear {t : ι ⊕ Fin n} : s.stops t = .clearing →
      StopStep s (.clear t) (Function.update s.stops t (.closing false))
  | close {t : ι ⊕ Fin n} {drain : Bool} : s.stops t = .closing drain →
      StopStep s (.close t) (Function.update s.stops t (.joining 0))
  | keep {b : QueueThreads.Action (ι ⊕ Fin n) α} :
      (∀ t, b ≠ .clear t) → (∀ t, b ≠ .close t) → StopStep s b s.stops

section Transitions

variable [DecidableEq ι]

/-- Everything a step can do while only workers pop. -/
inductive Transition (s : State ι α n) (a : Action ι α n) :
    List (Event ι α n) → State ι α n → Prop where
  | queue {b : QueueThreads.Action (ι ⊕ Fin n) α}
      {evs : List (QueueThreads.Event (ι ⊕ Fin n) α)} {tasks : QueueThreads.State (ι ⊕ Fin n) α}
      {stops : ι ⊕ Fin n → Stop} :
      a.call = some b → s.allows b → QueueThreads.Transition s.tasks b evs tasks →
      (∀ t value, .popped t value ∉ evs) → StopStep s b stops →
      Transition s a (evs.map .queue) { s with tasks := tasks, stops := stops }
  | start {b : QueueThreads.Action (ι ⊕ Fin n) α} {w : Fin n} {task : α}
      {tasks : QueueThreads.State (ι ⊕ Fin n) α} :
      s.allows b → QueueThreads.Transition s.tasks b [.popped (.inr w) (some task)] tasks →
      s.workers w = .looping →
      Transition s a [.queue (.popped (.inr w) (some task))]
        { s with tasks := tasks, workers := Function.update s.workers w (.running task) }
  | exit {b : QueueThreads.Action (ι ⊕ Fin n) α} {w : Fin n}
      {tasks : QueueThreads.State (ι ⊕ Fin n) α} :
      s.allows b → QueueThreads.Transition s.tasks b [.popped (.inr w) none] tasks →
      tasks.queue = s.tasks.queue → s.workers w = .looping →
      s.tasks.queue.items = [] → s.tasks.queue.closed = true →
      Transition s a [.queue (.popped (.inr w) none)]
        { s with tasks := tasks, workers := Function.update s.workers w .exited }
  | finish {w : Fin n} {task : α} : s.workers w = .running task →
      Transition s a [.finished w task]
        { s with workers := Function.update s.workers w .counting }
  | count {w : Fin n} : s.workers w = .counting →
      Transition s a []
        { s with
          workers := Function.update s.workers w .looping
          completed := s.completed + 1 }
  | stopLost {t : ι ⊕ Fin n} : s.stopping = true → Transition s a [.stopReturned t false] s
  | stopWon {t : ι ⊕ Fin n} {drain : Bool} : s.stopping = false → s.stops t = .outside →
      Transition s a [.stopWon t drain]
        { s with
          stopping := true
          stops := Function.update s.stops t (if drain then .closing true else .clearing) }
  | join {t : ι ⊕ Fin n} {w : Fin n} : s.stops t = .joining w → s.workers w = .exited →
      Transition s a []
        { s with stops := Function.update s.stops t (.joining (w + 1)) }
  | stopReturned {t : ι ⊕ Fin n} {k : Nat} : s.stops t = .joining k → n ≤ k →
      Transition s a [.stopReturned t true]
        { s with stops := Function.update s.stops t .outside }
  | joinSelf {w : Fin n} {k : Nat} : s.stops (.inr w) = .joining k →
      Transition s a [] { s with stops := Function.update s.stops (.inr w) .outside }

variable {s s' : State ι α n} {a : Action ι α n} {b : QueueThreads.Action (ι ⊕ Fin n) α}
  {stops : ι ⊕ Fin n → Stop} {evs : List (Event ι α n)}

/-- Whoever waits for a task after a section of the queue may do so, and has not
    got one. -/
theorem OnlyWorkersPop.after {tasks : QueueThreads.State (ι ⊕ Fin n) α}
    {qevs : List (QueueThreads.Event (ι ⊕ Fin n) α)} (hpop : OnlyWorkersPop s)
    (hcall : s.allows b) (htr : QueueThreads.Transition s.tasks b qevs tasks) {t : ι ⊕ Fin n}
    {deadline : TimePoint} (hth : (tasks.threads t).poppingUntil deadline) :
    s.mayPop t deadline ∧ ∀ value, .popped t value ∉ qevs := by
  obtain ⟨hno, hbefore | ⟨pick, hb⟩⟩ := htr.poppingUntil hth
  · exact ⟨hpop t deadline hbefore, hno⟩
  · exact ⟨hcall t deadline pick hb, hno⟩

theorem OnlyWorkersPop.step (hpop : OnlyWorkersPop s) (h : Transition s a evs s') :
    OnlyWorkersPop s' := by
  intro t deadline hth
  cases h with
  | queue _ hcall htr => exact (hpop.after hcall htr hth).1
  | start hcall htr | exit hcall htr =>
      obtain ⟨hmay, hno⟩ := hpop.after hcall htr hth
      -- the worker whose pop returned waits no more
      refine hmay.congr ?_
      rintro w rfl -
      refine Function.update_of_ne ?_ ..
      rintro rfl
      simp at hno
  | finish hw | count hw =>
      refine (hpop t deadline hth).congr ?_
      rintro w rfl hlooping
      refine Function.update_of_ne ?_ ..
      rintro rfl
      simp [hw] at hlooping
  | stopLost | stopWon | join | stopReturned | joinSelf => exact hpop t deadline hth

variable [Fintype ι]

theorem lift_transition (hpop : OnlyWorkersPop s) (ha : a.call = some b)
    (hcall : s.allows b) (hstop : StopStep s b stops) (h : s.lift stops b = some (s', evs)) :
    Transition s a evs s' := by
  obtain ⟨⟨tasks, qevs⟩, hstep, heq⟩ := Option.map_eq_some_iff.mp h
  obtain ⟨rfl, rfl⟩ := Prod.mk.inj heq
  have htr := QueueThreads.step_transition hstep
  have hqueue : (∀ t value, .popped t value ∉ qevs) →
      Transition s a (qevs.map .queue)
        { s with tasks := tasks, workers := qevs.foldl receive s.workers, stops := stops } := by
    intro hno
    have hworkers : qevs.foldl receive s.workers = s.workers :=
      funext fun w => foldl_receive fun value => hno (.inr w) value
    rw [hworkers]
    exact .queue ha hcall htr hno hstop
  cases htr with
  | pop hsec hitems hone =>
      obtain ⟨rfl, w, rfl, hw⟩ := hpop.of_popSection hcall hsec
      have hkeep : stops = s.stops := by cases hsec <;> cases hstop <;> rfl
      subst hkeep
      exact .start hcall (.pop hsec hitems hone) hw
  | popNone hsec hitems hmax =>
      obtain ⟨rfl, w, rfl, hw⟩ := hpop.of_popSection hcall hsec
      have hkeep : stops = s.stops := by cases hsec <;> cases hstop <;> rfl
      subst hkeep
      exact .exit hcall (.popNone hsec hitems hmax) rfl hw hitems (hmax rfl)
  | accept | reject | pushSleeps | popSleeps | clear | close | notify | getUp =>
      exact hqueue (by simp)

theorem step_transition (hpop : OnlyWorkersPop s) (h : step s a = some (s', evs)) :
    Transition s a evs s' := by
  cases a with
  | post t entry task pick =>
      simp only [step, Option.ite_none_right_eq_some] at h
      exact lift_transition hpop rfl (by simp [State.allows]) (.keep (by simp) (by simp)) h.2
  | pop w pick =>
      simp only [step] at h
      split at h
      · rename_i hw
        refine lift_transition hpop rfl ?_ (.keep (by simp) (by simp)) h
        rintro t deadline pick' heq
        cases heq
        exact ⟨rfl, w, rfl, hw⟩
      · cases h
  | getUp t => exact lift_transition hpop rfl (by simp [State.allows]) (.keep (by simp) (by simp)) h
  | resume t now pick =>
      exact lift_transition hpop rfl (by simp [State.allows]) (.keep (by simp) (by simp)) h
  | finish w =>
      simp only [step] at h
      split at h
      · rename_i task hw
        obtain ⟨-, heq⟩ := Option.ite_none_right_eq_some.mp h
        obtain ⟨rfl, rfl⟩ := Prod.mk.inj (Option.some.inj heq)
        exact .finish hw
      · cases h
  | count w =>
      simp only [step] at h
      split at h
      · rename_i hw
        obtain ⟨rfl, rfl⟩ := Prod.mk.inj (Option.some.inj h)
        exact .count hw
      · cases h
  | stop t drain =>
      simp only [step, Option.ite_none_right_eq_some] at h
      obtain ⟨hfree, h⟩ := h
      split at h
      · rename_i hstopping
        obtain ⟨rfl, rfl⟩ := Prod.mk.inj (Option.some.inj h)
        exact .stopLost hstopping
      · rename_i hstopping
        obtain ⟨rfl, rfl⟩ := Prod.mk.inj (Option.some.inj h)
        refine .stopWon (by simpa using hstopping) ?_
        simp only [State.free, Bool.and_eq_true, beq_iff_eq] at hfree
        exact hfree.1.1
  | clear t =>
      simp only [step] at h
      split at h
      · rename_i ht
        exact lift_transition hpop rfl (by simp [State.allows]) (.clear ht) h
      · cases h
  | close t =>
      simp only [step] at h
      split at h
      · rename_i ht
        exact lift_transition hpop rfl (by simp [State.allows]) (.close ht) h
      · cases h
  | notify t =>
      exact lift_transition hpop rfl (by simp [State.allows]) (.keep (by simp) (by simp)) h
  | join t =>
      simp only [step] at h
      split at h
      · rename_i k ht
        obtain ⟨-, h⟩ := Option.ite_none_right_eq_some.mp h
        split at h
        · rename_i hk
          split at h
          · rename_i hw
            obtain ⟨rfl, rfl⟩ := Prod.mk.inj (Option.some.inj h)
            exact .join (w := ⟨k, hk⟩) ht hw
          · cases h
        · rename_i hk
          obtain ⟨rfl, rfl⟩ := Prod.mk.inj (Option.some.inj h)
          exact .stopReturned ht (Nat.le_of_not_lt hk)
      · cases h
  | joinSelf w =>
      simp only [step] at h
      split at h
      · rename_i k ht
        obtain ⟨-, heq⟩ := Option.ite_none_right_eq_some.mp h
        obtain ⟨rfl, rfl⟩ := Prod.mk.inj (Option.some.inj heq)
        exact .joinSelf ht
      · cases h

/-- What holds at the start and is kept by every transition holds at the end of
    a run. -/
theorem invariant_of_run {threads capacity : Nat}
    {C : List (Event ι α (threadCount threads)) → State ι α (threadCount threads) →
      Action ι α (threadCount threads) → Prop}
    {I : List (Event ι α (threadCount threads)) → State ι α (threadCount threads) → Prop}
    {as : List (Action ι α (threadCount threads))}
    {tr : List (Event ι α (threadCount threads))} {s : State ι α (threadCount threads)}
    (h : (machine ι α (threadCount threads)).RunIf C (.init threads capacity) as tr s)
    (hinit : I [] (.init threads capacity))
    (hstep : ∀ {tr s a s' evs}, I tr s → C tr s a → Transition s a evs s' → I (tr ++ evs) s') :
    OnlyWorkersPop s ∧ I tr s := by
  refine Machine.RunIf.invariant (I := fun tr s => OnlyWorkersPop s ∧ I tr s) h ?_ ?_
  · exact ⟨onlyWorkersPop_init threads capacity, hinit⟩
  · rintro tr s a s' evs ⟨hpop, hI⟩ hC hs
    have htr := step_transition hpop hs
    exact ⟨hpop.step htr, hstep hI hC htr⟩

end Transitions

end ThreadPool

end Rdb
