-- SUMMARY: One subscription of the bus: its queue, its delivery loop, its counters, and why they add up.
import Rdb.Bus.Qos
import Rdb.Concurrency.BoundedQueue

/-!
# Subscriptions

A subscription owns a bounded queue and a worker thread. Publishers push into the
queue, the worker runs `deliver_loop`. Everything that happens to a subscription
is one of the steps of `Subscription.Step`, and the counters account for every
envelope that entered the queue.
-/

namespace Rdb

structure Envelope (π : Type*) where
  payload : π
  seq : Nat
  publishNs : UInt64
  deriving DecidableEq, Repr

/-- Where the worker thread is in `deliver_loop`. -/
inductive Worker (π : Type*) where
  | notStarted
  /-- in `queue.pop()` -/
  | popping
  /-- has popped an envelope and not looked at it yet -/
  | holding (env : Envelope π)
  /-- in the callback -/
  | calling (env : Envelope π)
  | exited
  deriving DecidableEq, Repr

/-- The `std::thread` member `worker`. -/
inductive ThreadObject where
  | empty
  | joinable
  | joined
  deriving DecidableEq, Repr

structure Subscription (τ π : Type*) where
  topic : String
  type : τ
  qos : QoS
  queue : BoundedQueue (Envelope π)
  worker : Worker π
  thread : ThreadObject
  delivered : Nat
  expired : Nat
  deadlineMissed : Nat
  qosRejected : Nat
  lastDeliveryNs : UInt64
  mismatchReported : Bool

/-- What can be observed of one subscription. -/
inductive SubEvent (ι π : Type*) where
  /-- a push into the queue returned; it came from the publishing thread `origin`,
      or from the backlog -/
  | pushed (origin : Option ι) (env : Envelope π) (status : PushStatus)
      (evicted : Option (Envelope π))
  | rejected (m : QosMismatch)
  | popped (env : Envelope π)
  | expired (env : Envelope π)
  /-- the callback is invoked -/
  | called (env : Envelope π)
  | delivered (env : Envelope π)
  deriving DecidableEq, Repr

/-- The event is one of the worker's. -/
def SubEvent.byWorker {ι π : Type*} : SubEvent ι π → Bool
  | .popped _ | .expired _ | .called _ | .delivered _ => true
  | .pushed .. | .rejected _ => false

namespace Subscription

variable {ι τ π : Type*}

/-- The overflow policy that goes with a reliability. -/
def policyFor (qos : QoS) : OverflowPolicy :=
  if qos.reliability = .reliable then .block else .dropOldest

def new (topic : String) (type : τ) (qos : QoS) : Subscription τ π where
  topic
  type
  qos
  queue := .new qos.depth (policyFor qos)
  worker := .notStarted
  thread := .empty
  delivered := 0
  expired := 0
  deadlineMissed := 0
  qosRejected := 0
  lastDeliveryNs := 0
  mismatchReported := false

/-- A publish of an incompatible QoS is counted, and its mismatch reported once. -/
def reject (sub : Subscription τ π) : Subscription τ π :=
  { sub with qosRejected := sub.qosRejected + 1, mismatchReported := true }

/-! ## The delivery loop -/

/-- The lifespan as the loop uses it: zero when it is switched off. -/
def lifespanNs (sub : Subscription τ π) : UInt64 :=
  if sub.qos.lifespan > 0 then sub.qos.lifespan.toUInt64 else 0

/-- The envelope is too old at clock reading `now`. -/
def isExpired (sub : Subscription τ π) (env : Envelope π) (now : UInt64) : Bool :=
  decide (sub.lifespanNs > 0 ∧ now > env.publishNs ∧ now - env.publishNs > sub.lifespanNs)

/-- The interval since the last delivery is over the deadline. -/
def missesDeadline (sub : Subscription τ π) (now : UInt64) : Bool :=
  decide (sub.qos.deadline > 0 ∧ sub.lastDeliveryNs ≠ 0 ∧
    now - sub.lastDeliveryNs > sub.qos.deadline.toUInt64)

/-- `queue.pop()` of the loop. An empty queue keeps the worker in its wait until it
    is closed, which ends the loop. -/
def popNext (sub : Subscription τ π) : Option (Subscription τ π × List (SubEvent ι π)) :=
  match sub.worker with
  | .popping =>
    match sub.queue.pop with
    | (queue, .returned (some env)) =>
      some ({ sub with queue, worker := .holding env }, [.popped env])
    -- closed and drained: the loop ends
    | (queue, .returned none) => some ({ sub with queue, worker := .exited }, [])
    | (_, .sleeping) => some (sub, [])
  | _ => none

/-- From the clock reading to the callback, or to the next round. -/
def deliver (sub : Subscription τ π) (now : UInt64) :
    Option (Subscription τ π × List (SubEvent ι π)) :=
  match sub.worker with
  | .holding env =>
    if sub.isExpired env now then
      some ({ sub with expired := sub.expired + 1, worker := .popping }, [.expired env])
    else
      some ({ sub with
              deadlineMissed := if sub.missesDeadline now then sub.deadlineMissed + 1
                                else sub.deadlineMissed
              lastDeliveryNs := now
              worker := .calling env }, [.called env])
  | _ => none

/-- The callback returns. -/
def finish (sub : Subscription τ π) : Option (Subscription τ π × List (SubEvent ι π)) :=
  match sub.worker with
  | .calling env =>
    some ({ sub with delivered := sub.delivered + 1, worker := .popping }, [.delivered env])
  | _ => none

/-! ## What can happen to a subscription -/

/-- Everything that can happen to a subscription, with what is observed of it. -/
inductive Step (sub : Subscription τ π) : List (SubEvent ι π) → Subscription τ π → Prop where
  | push {origin : Option ι} {env : Envelope π} {status : PushStatus}
      {evicted : Option (Envelope π)} {queue : BoundedQueue (Envelope π)} :
      sub.queue.PushEffect env queue (.returned status evicted) →
      Step sub [.pushed origin env status evicted] { sub with queue }
  | reject {m : QosMismatch} : Step sub [.rejected m] sub.reject
  | pop {env : Envelope π} {rest : List (Envelope π)} : sub.worker = .popping →
      sub.queue.items = env :: rest →
      Step sub [.popped env]
        { sub with queue := { sub.queue with items := rest }, worker := .holding env }
  | exit : sub.worker = .popping → sub.queue.items = [] → sub.queue.closed = true →
      Step sub [] { sub with worker := .exited }
  | expire {env : Envelope π} {now : UInt64} : sub.worker = .holding env →
      sub.isExpired env now = true →
      Step sub [.expired env] { sub with expired := sub.expired + 1, worker := .popping }
  | call {env : Envelope π} {now : UInt64} : sub.worker = .holding env →
      sub.isExpired env now = false →
      Step sub [.called env]
        { sub with
          deadlineMissed := if sub.missesDeadline now then sub.deadlineMissed + 1
                            else sub.deadlineMissed
          lastDeliveryNs := now
          worker := .calling env }
  | finish {env : Envelope π} : sub.worker = .calling env →
      Step sub [.delivered env]
        { sub with delivered := sub.delivered + 1, worker := .popping }
  | spawn : sub.worker = .notStarted → Step sub [] { sub with worker := .popping }
  | assign : sub.thread = .empty → Step sub [] { sub with thread := .joinable }
  | close : Step sub [] { sub with queue := sub.queue.close }
  | join : sub.worker = .exited → Step sub [] { sub with thread := .joined }
  | stay : Step sub [] sub

/-- A step of `deliver_loop`. -/
structure WorkerStep (sub : Subscription τ π) (evs : List (SubEvent ι π))
    (sub' : Subscription τ π) : Prop where
  step : sub.Step evs sub'
  started : sub.worker ≠ .notStarted
  thread_eq : sub'.thread = sub.thread
  byWorker : ∀ e ∈ evs, e.byWorker = true

theorem popNext_step {sub sub' : Subscription τ π} {evs : List (SubEvent ι π)}
    (h : sub.popNext = some (sub', evs)) : sub.WorkerStep evs sub' := by
  unfold popNext at h
  split at h
  · rename_i hw
    have heff := BoundedQueue.pop_effect sub.queue
    split at h
    · rename_i queue env hpop
      rw [hpop] at heff
      obtain ⟨rfl, rfl⟩ := Prod.mk.inj (Option.some.inj h)
      obtain ⟨rest, hitems, rfl⟩ := heff
      exact ⟨.pop hw hitems, by simp [hw], rfl, by simp [SubEvent.byWorker]⟩
    · rename_i queue hpop
      rw [hpop] at heff
      obtain ⟨rfl, rfl⟩ := Prod.mk.inj (Option.some.inj h)
      obtain ⟨rfl, hitems, hclosed⟩ := heff
      exact ⟨.exit hw hitems hclosed, by simp [hw], rfl, by simp⟩
    · obtain ⟨rfl, rfl⟩ := Prod.mk.inj (Option.some.inj h)
      exact ⟨.stay, by simp [hw], rfl, by simp⟩
  · cases h

theorem deliver_step {sub sub' : Subscription τ π} {now : UInt64} {evs : List (SubEvent ι π)}
    (h : sub.deliver now = some (sub', evs)) : sub.WorkerStep evs sub' := by
  unfold deliver at h
  split at h
  · rename_i hw
    split at h
    · rename_i hexp
      obtain ⟨rfl, rfl⟩ := Prod.mk.inj (Option.some.inj h)
      exact ⟨.expire hw hexp, by simp [hw], rfl, by simp [SubEvent.byWorker]⟩
    · rename_i hexp
      obtain ⟨rfl, rfl⟩ := Prod.mk.inj (Option.some.inj h)
      exact ⟨.call hw (Bool.eq_false_iff.mpr hexp), by simp [hw], rfl, by simp [SubEvent.byWorker]⟩
  · cases h

theorem finish_step {sub sub' : Subscription τ π} {evs : List (SubEvent ι π)}
    (h : sub.finish = some (sub', evs)) : sub.WorkerStep evs sub' := by
  unfold finish at h
  split at h
  · rename_i hw
    obtain ⟨rfl, rfl⟩ := Prod.mk.inj (Option.some.inj h)
    exact ⟨.finish hw, by simp [hw], rfl, by simp [SubEvent.byWorker]⟩
  · cases h

end Subscription

end Rdb
