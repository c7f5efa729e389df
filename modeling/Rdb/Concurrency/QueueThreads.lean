-- SUMMARY: Any number of threads on one bounded queue, with its two condition variables, and the FIFO law of every run.
import Mathlib.Data.Fintype.Basic
import Mathlib.Logic.Function.Basic
import Rdb.Lib.Machine
import Rdb.Concurrency.BoundedQueue

/-!
# Threads on a bounded queue

The system of a bounded queue: threads `ι` that call its operations, where each
section under the mutex is one step. A thread that waits is asleep on a condition
variable until a notification, a spurious wake-up or its deadline gets it up; it
then has to take the lock again before it goes on.
-/

namespace Rdb

namespace QueueThreads

open BoundedQueue

variable {ι α : Type*}

/-! ## Threads -/

/-- The two condition variables. -/
inductive Cond where
  | notEmpty
  | notFull
  deriving DecidableEq, Repr

/-- How far a waiting thread is from having the lock back. -/
inductive Waiter where
  | asleep
  | notified
  | awake
  deriving DecidableEq, Repr

/-- Where a thread is in the code of the queue. -/
inductive Thread (α : Type*) where
  | idle
  /-- in `wait_for_space` -/
  | pushing (v : α) (deadline : TimePoint) (w : Waiter)
  /-- in the wait of `pop_until` -/
  | popping (deadline : TimePoint) (w : Waiter)
  /-- in `close`, past its locked part, with these notifications to come -/
  | closing (pending : List Cond)
  deriving DecidableEq, Repr

/-- The thread is asleep on `c`. -/
def Thread.asleepOn (c : Cond) : Thread α → Bool
  | .pushing _ _ .asleep => c == .notFull
  | .popping _ .asleep   => c == .notEmpty
  | _                    => false

/-- The thread gets up for the reason `w`. -/
def Thread.getUp (w : Waiter) : Thread α → Thread α
  | .pushing v deadline _ => .pushing v deadline w
  | .popping deadline _   => .popping deadline w
  | th                    => th

structure State (ι α : Type*) where
  queue : BoundedQueue α
  threads : ι → Thread α

def State.init (capacity : Nat) (policy : OverflowPolicy) : State ι α where
  queue := .new capacity policy
  threads _ := .idle

/-- A step of the scheduler. `pick` is the waiter that a `notify_one` of the step
    moves, `now` a clock reading. -/
inductive Action (ι α : Type*) where
  /-- call `push_until`: `push`, `push_for` and `try_push` differ in the deadline -/
  | push (t : ι) (v : α) (deadline : TimePoint) (pick : Option ι)
  /-- call `pop_until`: `pop`, `pop_for` and `try_pop` differ in the deadline -/
  | pop (t : ι) (deadline : TimePoint) (pick : Option ι)
  | clear (t : ι)
  | close (t : ι)
  /-- the next `notify_all` of a `close` -/
  | notify (t : ι)
  /-- a spurious wake-up, or a deadline that passes -/
  | getUp (t : ι)
  /-- a waiter that is up takes the lock again -/
  | resume (t : ι) (now : TimePoint) (pick : Option ι)

inductive Event (ι α : Type*) where
  | pushed (t : ι) (v : α) (status : PushStatus) (evicted : Option α)
  | popped (t : ι) (value : Option α)
  | cleared (t : ι) (discarded : List α)
  | closed (t : ι)
  deriving DecidableEq, Repr

/-! ## Steps -/

section Steps

variable [Fintype ι] [DecidableEq ι]

/-- `notify_one`: move one sleeper, if there is one. -/
def notifyOne (c : Cond) (threads : ι → Thread α) : Option ι → Option (ι → Thread α)
  | none   => if ∀ i, (threads i).asleepOn c = false then some threads else none
  | some i =>
    if (threads i).asleepOn c then
      some (Function.update threads i ((threads i).getUp .notified))
    else none

/-- `notify_all`: move every sleeper. -/
def notifyAll (c : Cond) (threads : ι → Thread α) : ι → Thread α := fun i =>
  if (threads i).asleepOn c then (threads i).getUp .notified else threads i

/-- The end of a critical section of `push_until`. -/
def afterPush (s : State ι α) (t : ι) (v : α) (deadline : TimePoint) (pick : Option ι) :
    BoundedQueue α × Push α → Option (State ι α × List (Event ι α))
  | (q, .sleeping) =>
    some (⟨q, Function.update s.threads t (.pushing v deadline .asleep)⟩, [])
  | (q, .returned status evicted) =>
    let threads := Function.update s.threads t .idle
    if status.accepted then
      (notifyOne .notEmpty threads pick).map fun threads =>
        (⟨q, threads⟩, [.pushed t v status evicted])
    else some (⟨q, threads⟩, [.pushed t v status evicted])

/-- The end of a critical section of `pop_until`. -/
def afterPop (s : State ι α) (t : ι) (deadline : TimePoint) (pick : Option ι) :
    BoundedQueue α × Pop α → Option (State ι α × List (Event ι α))
  | (q, .sleeping) =>
    some (⟨q, Function.update s.threads t (.popping deadline .asleep)⟩, [])
  | (q, .returned none) => some (⟨q, Function.update s.threads t .idle⟩, [.popped t none])
  | (q, .returned (some v)) =>
    (notifyOne .notFull (Function.update s.threads t .idle) pick).map fun threads =>
      (⟨q, threads⟩, [.popped t (some v)])

def step (s : State ι α) : Action ι α → Option (State ι α × List (Event ι α))
  | .push t v deadline pick =>
    match s.threads t with
    | .idle => afterPush s t v deadline pick (s.queue.pushUntil v deadline)
    | _     => none
  | .pop t deadline pick =>
    match s.threads t with
    | .idle => afterPop s t deadline pick (s.queue.popUntil deadline)
    | _     => none
  | .clear t =>
    match s.threads t with
    | .idle => some (⟨s.queue.clear.1, notifyAll .notFull s.threads⟩, [.cleared t s.queue.clear.2])
    | _     => none
  | .close t =>
    match s.threads t with
    | .idle =>
      some (⟨s.queue.close, Function.update s.threads t (.closing [.notEmpty, .notFull])⟩,
        [.closed t])
    | _     => none
  | .notify t =>
    match s.threads t with
    | .closing (c :: pending) =>
      some (⟨s.queue, Function.update (notifyAll c s.threads) t
        (if pending = [] then .idle else .closing pending)⟩, [])
    | _ => none
  | .getUp t =>
    match s.threads t with
    | .pushing v deadline .asleep =>
      some (⟨s.queue, Function.update s.threads t (.pushing v deadline .awake)⟩, [])
    | .popping deadline .asleep =>
      some (⟨s.queue, Function.update s.threads t (.popping deadline .awake)⟩, [])
    | _ => none
  | .resume t now pick =>
    match s.threads t with
    | .pushing _ _ .asleep    => none
    | .popping _ .asleep      => none
    | .pushing v deadline _ => afterPush s t v deadline pick (s.queue.pushWake v deadline now)
    | .popping deadline _   => afterPop s t deadline pick (s.queue.popWake deadline now)
    | _ => none

variable (ι α) in
def machine : Machine (State ι α) (Action ι α) (Event ι α) where
  step := step

end Steps

/-! ## What a step can do -/

section Transitions

variable [DecidableEq ι]

/-- What `notify_one` on `c` can do: move a sleeper, or find none. -/
inductive NotifiedOne (c : Cond) (threads : ι → Thread α) : (ι → Thread α) → Prop where
  | nobody : (∀ i, (threads i).asleepOn c = false) → NotifiedOne c threads threads
  | moved {i : ι} : (threads i).asleepOn c = true →
      NotifiedOne c threads (Function.update threads i ((threads i).getUp .notified))

/-- The action runs a section of `push_until` in thread `t`: the first one of a
    call, or one after a wait. -/
inductive PushSection (s : State ι α) (t : ι) (v : α) (deadline : TimePoint) :
    Action ι α → Prop where
  | enter {pick : Option ι} : s.threads t = .idle →
      PushSection s t v deadline (.push t v deadline pick)
  | wake {w : Waiter} {now : TimePoint} {pick : Option ι} :
      s.threads t = .pushing v deadline w → w ≠ .asleep →
      PushSection s t v deadline (.resume t now pick)

/-- The action runs a section of `pop_until` in thread `t`. -/
inductive PopSection (s : State ι α) (t : ι) (deadline : TimePoint) : Action ι α → Prop where
  | enter {pick : Option ι} : s.threads t = .idle →
      PopSection s t deadline (.pop t deadline pick)
  | wake {w : Waiter} {now : TimePoint} {pick : Option ι} :
      s.threads t = .popping deadline w → w ≠ .asleep →
      PopSection s t deadline (.resume t now pick)

/-- Everything a step can do, with the events it emits. -/
inductive Transition (s : State ι α) (a : Action ι α) : List (Event ι α) → State ι α → Prop where
  | accept {t : ι} {v : α} {deadline : TimePoint} {status : PushStatus} {evicted : Option α}
      {q : BoundedQueue α} {threads : ι → Thread α} :
      PushSection s t v deadline a → PushEffect s.queue v q (.returned status evicted) →
      status.accepted = true →
      NotifiedOne .notEmpty (Function.update s.threads t .idle) threads →
      Transition s a [.pushed t v status evicted] ⟨q, threads⟩
  | reject {t : ι} {v : α} {deadline : TimePoint} {status : PushStatus} {evicted : Option α}
      {q : BoundedQueue α} :
      PushSection s t v deadline a → PushEffect s.queue v q (.returned status evicted) →
      status.accepted = false → (deadline = TimePoint.max → status ≠ .full) →
      Transition s a [.pushed t v status evicted] ⟨q, Function.update s.threads t .idle⟩
  | pushSleeps {t : ι} {v : α} {deadline : TimePoint} :
      PushSection s t v deadline a → s.queue.closed = false →
      s.queue.capacity ≤ s.queue.items.length →
      Transition s a [] ⟨s.queue, Function.update s.threads t (.pushing v deadline .asleep)⟩
  | pop {t : ι} {deadline : TimePoint} {v : α} {rest : List α} {threads : ι → Thread α} :
      PopSection s t deadline a → s.queue.items = v :: rest →
      NotifiedOne .notFull (Function.update s.threads t .idle) threads →
      Transition s a [.popped t (some v)] ⟨{ s.queue with items := rest }, threads⟩
  | popNone {t : ι} {deadline : TimePoint} :
      PopSection s t deadline a → s.queue.items = [] →
      (deadline = TimePoint.max → s.queue.closed = true) →
      Transition s a [.popped t none] ⟨s.queue, Function.update s.threads t .idle⟩
  | popSleeps {t : ι} {deadline : TimePoint} :
      PopSection s t deadline a → s.queue.items = [] → s.queue.closed = false →
      Transition s a [] ⟨s.queue, Function.update s.threads t (.popping deadline .asleep)⟩
  | clear {t : ι} : a = .clear t → s.threads t = .idle →
      Transition s a [.cleared t s.queue.items] ⟨s.queue.clear.1, notifyAll .notFull s.threads⟩
  | close {t : ι} : a = .close t → s.threads t = .idle →
      Transition s a [.closed t]
        ⟨s.queue.close, Function.update s.threads t (.closing [.notEmpty, .notFull])⟩
  | notify {t : ι} {c : Cond} {pending : List Cond} :
      a = .notify t → s.threads t = .closing (c :: pending) →
      Transition s a [] ⟨s.queue, Function.update (notifyAll c s.threads) t
        (if pending = [] then .idle else .closing pending)⟩
  | getUp {t : ι} {c : Cond} : a = .getUp t → (s.threads t).asleepOn c = true →
      Transition s a []
        ⟨s.queue, Function.update s.threads t ((s.threads t).getUp .awake)⟩

variable [Fintype ι] {s s' : State ι α} {a : Action ι α} {evs : List (Event ι α)}

theorem notifyOne_cases {c : Cond} {threads threads' : ι → Thread α} {pick : Option ι}
    (h : notifyOne c threads pick = some threads') : NotifiedOne c threads threads' := by
  cases pick with
  | none =>
      simp only [notifyOne, Option.ite_none_right_eq_some, Option.some.injEq] at h
      obtain ⟨hnone, rfl⟩ := h
      exact .nobody hnone
  | some i =>
      simp only [notifyOne, Option.ite_none_right_eq_some, Option.some.injEq] at h
      obtain ⟨hi, rfl⟩ := h
      exact .moved hi

theorem afterPush_transition {t : ι} {v : α} {deadline : TimePoint} {pick : Option ι}
    {r : BoundedQueue α × Push α} (hsec : PushSection s t v deadline a)
    (hr : PushEffect s.queue v r.1 r.2)
    (hmax : deadline = TimePoint.max → r.2 ≠ .returned .full none)
    (h : afterPush s t v deadline pick r = some (s', evs)) : Transition s a evs s' := by
  obtain ⟨q, r⟩ := r
  cases r with
  | sleeping =>
      obtain ⟨rfl, rfl⟩ := Prod.mk.inj (Option.some.inj h)
      cases hr with
      | sleeping hopen hfull => exact .pushSleeps hsec hopen hfull
  | returned status evicted =>
      simp only [afterPush] at h
      split at h
      · rename_i hacc
        obtain ⟨threads, hone, heq⟩ := Option.map_eq_some_iff.mp h
        obtain ⟨rfl, rfl⟩ := Prod.mk.inj heq
        exact .accept hsec hr hacc (notifyOne_cases hone)
      · rename_i hacc
        obtain ⟨rfl, rfl⟩ := Prod.mk.inj (Option.some.inj h)
        refine .reject hsec hr (by simpa using hacc) ?_
        -- a wait without a deadline never ends in `Full`
        rintro hd rfl
        cases hr with
        | full => exact hmax hd rfl

theorem afterPop_transition {t : ι} {deadline : TimePoint} {pick : Option ι}
    {r : BoundedQueue α × Pop α} (hsec : PopSection s t deadline a)
    (hr : PopEffect s.queue r.1 r.2)
    (hmax : deadline = TimePoint.max → r.2 = .returned none → s.queue.closed = true)
    (h : afterPop s t deadline pick r = some (s', evs)) : Transition s a evs s' := by
  obtain ⟨q, r⟩ := r
  rcases r with (_ | v) | _
  · obtain ⟨rfl, rfl⟩ := Prod.mk.inj (Option.some.inj h)
    cases hr with
    | none hitems => exact .popNone hsec hitems fun hd => hmax hd rfl
  · obtain ⟨threads, hone, heq⟩ := Option.map_eq_some_iff.mp h
    obtain ⟨rfl, rfl⟩ := Prod.mk.inj heq
    cases hr with
    | value hitems => exact .pop hsec hitems (notifyOne_cases hone)
  · obtain ⟨rfl, rfl⟩ := Prod.mk.inj (Option.some.inj h)
    cases hr with
    | sleeping hitems hopen => exact .popSleeps hsec hitems hopen

theorem step_transition {a : Action ι α} (h : step s a = some (s', evs)) :
    Transition s a evs s' := by
  cases a with
  | push t v deadline pick =>
      simp only [step] at h
      split at h
      · rename_i hidle
        refine afterPush_transition (.enter hidle) (pushUntil_effect _ v deadline) ?_ h
        rintro rfl
        exact push_ne_full _ v
      · cases h
  | pop t deadline pick =>
      simp only [step] at h
      split at h
      · rename_i hidle
        refine afterPop_transition (.enter hidle) (popUntil_effect _ deadline) ?_ h
        rintro rfl hnone
        exact closed_of_pop hnone
      · cases h
  | clear t =>
      simp only [step] at h
      split at h
      · rename_i hidle
        obtain ⟨rfl, rfl⟩ := Prod.mk.inj (Option.some.inj h)
        exact .clear rfl hidle
      · cases h
  | close t =>
      simp only [step] at h
      split at h
      · rename_i hidle
        obtain ⟨rfl, rfl⟩ := Prod.mk.inj (Option.some.inj h)
        exact .close rfl hidle
      · cases h
  | notify t =>
      simp only [step] at h
      split at h
      · rename_i hclosing
        obtain ⟨rfl, rfl⟩ := Prod.mk.inj (Option.some.inj h)
        exact .notify rfl hclosing
      · cases h
  | getUp t =>
      simp only [step] at h
      split at h
      · rename_i hth
        obtain ⟨rfl, rfl⟩ := Prod.mk.inj (Option.some.inj h)
        have hasleep : (s.threads t).asleepOn .notFull = true := by simp [hth, Thread.asleepOn]
        simpa [hth, Thread.getUp] using Transition.getUp rfl hasleep
      · rename_i hth
        obtain ⟨rfl, rfl⟩ := Prod.mk.inj (Option.some.inj h)
        have hasleep : (s.threads t).asleepOn .notEmpty = true := by simp [hth, Thread.asleepOn]
        simpa [hth, Thread.getUp] using Transition.getUp rfl hasleep
      · cases h
  | resume t now pick =>
      simp only [step] at h
      split at h
      · cases h
      · cases h
      · rename_i v deadline w hne hth
        refine afterPush_transition (.wake hth hne) (pushWake_effect _ _ _ now) ?_ h
        rintro rfl
        exact pushWake_max_ne_full _ v now
      · rename_i deadline w hne hth
        refine afterPop_transition (.wake hth hne) (popWake_effect _ _ now) ?_ h
        rintro rfl hnone
        exact closed_of_popWake_max hnone
      · cases h

end Transitions

/-! ## Who waits in a pop -/

section Popping

/-- The thread waits in a pop with this deadline. -/
def Thread.poppingUntil (deadline : TimePoint) : Thread α → Prop
  | .popping d _ => d = deadline
  | _            => False

@[simp] theorem Thread.poppingUntil_getUp {th : Thread α} {w : Waiter} {deadline : TimePoint} :
    (th.getUp w).poppingUntil deadline ↔ th.poppingUntil deadline := by
  cases th <;> rfl

variable {threads threads' : ι → Thread α} {c : Cond} {t : ι} {deadline : TimePoint}

theorem notifyAll_poppingUntil (h : (notifyAll c threads t).poppingUntil deadline) :
    (threads t).poppingUntil deadline := by
  unfold notifyAll at h
  split at h
  · exact Thread.poppingUntil_getUp.mp h
  · exact h

variable [DecidableEq ι]

theorem update_poppingUntil {u : ι} {th : Thread α} (hth : ¬ th.poppingUntil deadline)
    (h : (Function.update threads u th t).poppingUntil deadline) :
    t ≠ u ∧ (threads t).poppingUntil deadline := by
  by_cases htu : t = u
  · subst htu
    rw [Function.update_self] at h
    exact absurd h hth
  · rw [Function.update_of_ne htu] at h
    exact ⟨htu, h⟩

theorem NotifiedOne.poppingUntil (hone : NotifiedOne c threads threads')
    (h : (threads' t).poppingUntil deadline) : (threads t).poppingUntil deadline := by
  cases hone with
  | nobody => exact h
  | @moved i =>
      by_cases hti : t = i
      · subst hti
        simpa using h
      · rwa [Function.update_of_ne hti] at h

/-- A thread that waits in a pop was there before, or has just called it; either
    way its pop did not return. -/
theorem Transition.poppingUntil {s s' : State ι α} {a : Action ι α} {evs : List (Event ι α)}
    (h : Transition s a evs s') (hp : (s'.threads t).poppingUntil deadline) :
    (∀ value, .popped t value ∉ evs) ∧
      ((s.threads t).poppingUntil deadline ∨ ∃ pick, a = .pop t deadline pick) := by
  cases h with
  | accept _ _ _ hone =>
      exact ⟨by simp, .inl (update_poppingUntil id (hone.poppingUntil hp)).2⟩
  | reject => exact ⟨by simp, .inl (update_poppingUntil id hp).2⟩
  | pushSleeps => exact ⟨by simp, .inl (update_poppingUntil id hp).2⟩
  | pop _ _ hone =>
      obtain ⟨hne, hbefore⟩ := update_poppingUntil id (hone.poppingUntil hp)
      exact ⟨by simp [hne], .inl hbefore⟩
  | popNone =>
      obtain ⟨hne, hbefore⟩ := update_poppingUntil id hp
      exact ⟨by simp [hne], .inl hbefore⟩
  | @popSleeps u d hsec =>
      refine ⟨by simp, ?_⟩
      -- the thread that falls asleep has just called, or was woken in vain
      by_cases htu : t = u
      · subst htu
        have hd : d = deadline := by simpa [Thread.poppingUntil] using hp
        subst hd
        cases hsec with
        | enter => exact .inr ⟨_, rfl⟩
        | wake hth => exact .inl (by simp [hth, Thread.poppingUntil])
      · exact .inl (by simpa [Function.update_of_ne htu] using hp)
  | clear => exact ⟨by simp, .inl (notifyAll_poppingUntil hp)⟩
  | close => exact ⟨by simp, .inl (update_poppingUntil id hp).2⟩
  | notify =>
      refine ⟨by simp, .inl (notifyAll_poppingUntil (update_poppingUntil ?_ hp).2)⟩
      split <;> exact id
  | @getUp u _ _ hasleep =>
      refine ⟨by simp, .inl ?_⟩
      by_cases htu : t = u
      · subst htu
        simpa using hp
      · simpa [Function.update_of_ne htu] using hp

end Popping

/-! ## What a step does to the queue -/

/-- Everything a step can do to the queue, with the events it emits. -/
inductive Effect (q : BoundedQueue α) : List (Event ι α) → BoundedQueue α → Prop where
  | push {t : ι} {v : α} {status : PushStatus} {evicted : Option α} {q' : BoundedQueue α} :
      PushEffect q v q' (.returned status evicted) → Effect q [.pushed t v status evicted] q'
  | pop {t : ι} {value : Option α} {q' : BoundedQueue α} :
      PopEffect q q' (.returned value) → Effect q [.popped t value] q'
  | clear {t : ι} : Effect q [.cleared t q.items] q.clear.1
  | close {t : ι} : Effect q [.closed t] q.close
  | quiet : Effect q [] q

section StepEffect

variable [DecidableEq ι] {s s' : State ι α} {a : Action ι α} {evs : List (Event ι α)}

theorem Transition.effect (h : Transition s a evs s') : Effect s.queue evs s'.queue := by
  cases h with
  | accept _ heff | reject _ heff => exact .push heff
  | pop _ hitems => exact .pop (.value hitems)
  | popNone _ hitems => exact .pop (.none hitems)
  | clear => exact .clear
  | close => exact .close
  | pushSleeps | popSleeps | notify | getUp => exact .quiet

theorem step_effect [Fintype ι] (h : step s a = some (s', evs)) : Effect s.queue evs s'.queue :=
  (step_transition h).effect

end StepEffect

/-! ## The FIFO law -/

/-- The values an event brings into the queue. -/
def Event.entered : Event ι α → List α
  | .pushed _ v status _ => if status.accepted then [v] else []
  | .popped _ _ | .cleared _ _ | .closed _ => []

/-- The values an event takes out of the queue, first in front. -/
def Event.left : Event ι α → List α
  | .pushed _ _ _ evicted => evicted.toList
  | .popped _ value       => value.toList
  | .cleared _ discarded  => discarded
  | .closed _             => []

/-- The event is a push that cost a value. -/
def Event.dropped : Event ι α → Bool
  | .pushed _ _ status _ => status.dropped
  | .popped _ _ | .cleared _ _ | .closed _ => false

/-- The values whose push took effect, in the order of their sections. -/
def entered (tr : List (Event ι α)) : List α := tr.flatMap Event.entered

/-- The values that left, in the order they left. -/
def left (tr : List (Event ι α)) : List α := tr.flatMap Event.left

@[simp] theorem entered_append (tr tr' : List (Event ι α)) :
    entered (tr ++ tr') = entered tr ++ entered tr' := by simp [entered]

@[simp] theorem left_append (tr tr' : List (Event ι α)) :
    left (tr ++ tr') = left tr ++ left tr' := by simp [left]

section Fifo

variable {q q' : BoundedQueue α} {evs tr : List (Event ι α)}

/-- A step appends what enters and takes what leaves off the front. -/
theorem Effect.items_eq (h : Effect q evs q') : q.items ++ entered evs = left evs ++ q'.items := by
  cases h with
  | push hp => simpa [entered, left, Event.entered, Event.left] using hp.items_eq
  | pop hp => simpa [entered, left, Event.entered, Event.left] using hp.items_eq
  | clear => simp [entered, left, Event.entered, Event.left, BoundedQueue.clear]
  | close => simp [entered, left, Event.entered, Event.left, BoundedQueue.close]
  | quiet => simp [entered, left]

theorem Effect.dropped_eq (h : Effect q evs q') :
    q'.dropped = q.dropped + evs.countP Event.dropped := by
  cases h with
  | @push _ _ status _ _ hp =>
      rw [hp.dropped_eq]
      cases hst : status.dropped <;> simp [Event.dropped, hst]
  | pop hp => simpa [Event.dropped] using hp.capacity_eq.2.2.2
  | clear | close | quiet => rfl

theorem Effect.capacity_eq (h : Effect q evs q') :
    q'.capacity = q.capacity ∧ q'.policy = q.policy := by
  cases h with
  | push hp => exact ⟨hp.capacity_eq.1, hp.capacity_eq.2.1⟩
  | pop hp => exact ⟨hp.capacity_eq.1, hp.capacity_eq.2.1⟩
  | clear | close | quiet => exact ⟨rfl, rfl⟩

/-- A closed queue stays closed. -/
theorem Effect.closed_mono (h : Effect q evs q') (hclosed : q.closed = true) :
    q'.closed = true := by
  cases h with
  | push hp => exact hp.capacity_eq.2.2.trans hclosed
  | pop hp => exact hp.capacity_eq.2.2.1.trans hclosed
  | clear | quiet => exact hclosed
  | close => rfl

theorem Effect.size_le (h : Effect q evs q') (hle : q.items.length ≤ q.capacity) :
    q'.items.length ≤ q'.capacity := by
  cases h with
  | push hp => exact hp.size_le hle
  | pop hp => exact hp.size_le hle
  | clear => exact Nat.zero_le _
  | close | quiet => exact hle

variable {capacity : Nat} {policy : OverflowPolicy}

/-- What a run knows about its queue. -/
structure Accounted (policy : OverflowPolicy) (tr : List (Event ι α)) (q : BoundedQueue α) :
    Prop where
  fifo : entered tr = left tr ++ q.items
  dropped : q.dropped = tr.countP Event.dropped
  size_le : q.items.length ≤ q.capacity
  policy_eq : q.policy = policy

theorem Accounted.step (h : Accounted policy tr q) (he : Effect q evs q') :
    Accounted policy (tr ++ evs) q' where
  fifo := by
    rw [entered_append, left_append, h.fifo, List.append_assoc, he.items_eq, List.append_assoc]
  dropped := by rw [he.dropped_eq, h.dropped, List.countP_append]
  size_le := he.size_le h.size_le
  policy_eq := he.capacity_eq.2.trans h.policy_eq

variable [Fintype ι] [DecidableEq ι] {s : State ι α} {as : List (Action ι α)}

theorem accounted_of_run (h : (machine ι α).Run (.init capacity policy) as tr s) :
    Accounted policy tr s.queue :=
  Machine.Run.invariant (I := fun tr s => Accounted policy tr s.queue) h
    ⟨rfl, rfl, Nat.zero_le _, rfl⟩ fun hI hstep => hI.step (step_effect hstep)

/-- **The queue is a FIFO that neither loses nor duplicates.** In every state that
    any interleaving of threads reaches, the values that entered are those that
    left followed by those still queued, and `dropped_` counts the pushes that
    cost a value. The last part is about the next step: only `DropOldest` evicts,
    and then from a full queue, and a push that is rejected, or that goes to
    sleep, leaves the items alone. -/
theorem entered_eq_left_append_items (h : (machine ι α).Run (.init capacity policy) as tr s) :
    entered tr = left tr ++ s.queue.items ∧
    s.queue.dropped = tr.countP Event.dropped ∧
    ∀ a s' evs, (machine ι α).step s a = some (s', evs) →
      (∀ t v status w, .pushed t v status (some w) ∈ evs →
        policy = .dropOldest ∧ status = .droppedOldest ∧
          s.queue.items.length = s.queue.capacity ∧ s.queue.items.head? = some w) ∧
      (∀ t v status evicted, .pushed t v status evicted ∈ evs →
        status = .full ∨ status = .droppedNewest ∨ status = .closed →
          s'.queue.items = s.queue.items) ∧
      (evs = [] → s'.queue.items = s.queue.items) := by
  have hacc := accounted_of_run h
  refine ⟨hacc.fifo, hacc.dropped, ?_⟩
  intro a s' evs hstep
  have heff := step_effect hstep
  generalize s'.queue = q' at heff
  refine ⟨?_, ?_, ?_⟩
  · intro t v status w hmem
    cases heff with
    | push hp =>
        rw [List.mem_singleton, Event.pushed.injEq] at hmem
        obtain ⟨rfl, rfl, rfl, rfl⟩ := hmem
        obtain ⟨hpol, hst, hfull, hhead⟩ := hp.of_evicted
        exact ⟨hacc.policy_eq.symm.trans hpol, hst, Nat.le_antisymm hacc.size_le hfull, hhead⟩
    | pop | clear | close | quiet => simp at hmem
  · intro t v status evicted hmem hst
    cases heff with
    | push hp =>
        rw [List.mem_singleton, Event.pushed.injEq] at hmem
        obtain ⟨rfl, rfl, rfl, rfl⟩ := hmem
        exact hp.items_eq_of_rejected (by rcases hst with rfl | rfl | rfl <;> rfl)
    | pop | clear | close | quiet => simp at hmem
  · rintro rfl
    cases heff with
    | quiet => rfl

/-- Two producers on a queue of one: the second sleeps until a consumer makes
    room, and is not let in by a spurious wake-up before. -/
theorem entered_eq_left_append_items_blocked :
    ∃ tr s, (machine (Fin 3) Nat).Run (.init 1 .block)
        [.push 0 7 TimePoint.max none, .push 1 8 TimePoint.max none, .getUp 1, .resume 1 0 none,
          .pop 2 TimePoint.max (some 1), .resume 1 0 none] tr s ∧
      s.queue.items = [8] ∧ left tr = [7] ∧ entered tr = left tr ++ s.queue.items := by
  refine ⟨_, _, .of_isSome _ _ _ (by decide), by decide, by decide, ?_⟩
  exact (entered_eq_left_append_items (.of_isSome _ _ _ _)).1

end Fifo

end QueueThreads

end Rdb
