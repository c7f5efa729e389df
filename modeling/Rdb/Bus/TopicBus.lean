-- SUMMARY: The topic bus of `bus/topic_bus.h` as a step machine: topics, subscriptions, publishers, workers and shutdown.
import Mathlib.Logic.Function.Basic
import Rdb.Lib.Machine
import Rdb.Lib.AssocMap
import Rdb.Bus.Subscription

/-!
# Topic bus

Client threads `ι` call the bus; each subscription has a worker of its own. A step
is a section under one mutex (the bus lock or the lock of one queue) or an access
to one atomic or `std::thread` object, so every interleaving of the threads is a
run. A callback or mismatch handler that calls the bus is a client thread that
happens to act while the callback runs.

Object identities are `SubId`s: `subscribe` makes an object that did not exist
before. Records of subscriptions are kept after they are unsubscribed, because
publishers and handles still point to them. Counters that only statistics read
are natural numbers.
-/

namespace Rdb

/-- The identity of a subscription object. -/
abbrev SubId := Nat

structure TopicEntry (τ π : Type*) where
  type : τ
  subs : List SubId
  latched : List (Envelope π)
  published : Nat

def TopicEntry.new {τ π : Type*} (type : τ) : TopicEntry τ π where
  type
  subs := []
  latched := []
  published := 0

/-- `shutdown` takes all subscriptions off a topic and forgets its history. -/
def TopicEntry.clear {τ π : Type*} (entry : TopicEntry τ π) : TopicEntry τ π :=
  { entry with subs := [], latched := [] }

abbrev Topics (τ π : Type*) := AList fun _ : String => TopicEntry τ π

/-- A publish past its lock section: what is left of its two loops. -/
structure Fanout (π η : Type*) where
  topic : String
  env : Envelope π
  mismatches : List (SubId × QosMismatch)
  handler : Option η
  targets : List SubId
  /-- the deadline, while the push into the first target waits for space -/
  waiting : Option TimePoint
  allAccepted : Bool

/-- How far `stop_subscription` is. -/
inductive StopPhase where
  | close
  | joinable
  | join
  deriving DecidableEq, Repr

/-- Where a client thread is in the code of the bus. -/
inductive Call (τ π η : Type*) where
  | idle
  /-- `publish_erased` has read the clock and waits for the bus lock -/
  | publishing (topic : String) (type : τ) (qos : QoS) (payload : π) (publishNs : UInt64)
  | fanout (f : Fanout π η)
  /-- `subscribe` past its lock section, with the backlog still to push -/
  | backlog (sid : SubId) (rest : List (Envelope π))
  /-- the worker thread runs and is not assigned to `worker` yet -/
  | starting (sid : SubId)
  /-- `unsubscribe` of `owner`, or `shutdown`, with the subscriptions still to stop -/
  | stopping (owner : Option SubId) (phase : StopPhase) (rest : List SubId)

structure BusState (ι τ π η : Type*) where
  topics : Topics τ π
  subs : SubId → Option (Subscription τ π)
  mismatchHandler : Option η
  qosMismatches : Nat
  typeMismatches : Nat
  reliableTimeout : Int64
  threads : ι → Call τ π η

/-- A step of the scheduler. Clock readings and the order in which `shutdown` meets
    the topics are part of the step. -/
inductive BusAction (ι τ π η : Type*) where
  | advertise (topic : String) (type : τ)
  | setQosMismatchHandler (handler : Option η)
  | setReliableTimeout (timeout : Int64)
  /-- the lock section of `subscribe`, for the new object `sid` -/
  | subscribe (p : ι) (topic : String) (type : τ) (qos : QoS) (sid : SubId)
  | pushBacklog (p : ι) (sid : SubId)
  /-- the constructor of `std::thread` -/
  | spawn (p : ι) (sid : SubId)
  /-- the assignment to `worker`, and the return of the handle -/
  | assign (p : ι) (sid : SubId)
  /-- `publish_erased` up to its lock section -/
  | publish (p : ι) (topic : String) (type : τ) (qos : QoS) (payload : π) (now : UInt64)
  | publishLock (p : ι)
  /-- the next call of the mismatch handler, which is about `sid` -/
  | report (p : ι) (sid : SubId)
  /-- the next push of the fan-out, into the queue of `sid` -/
  | push (p : ι) (sid : SubId) (now : TimePoint)
  /-- that push wakes up in `wait_for_space` -/
  | pushWake (p : ι) (sid : SubId) (now : TimePoint)
  | publishReturn (p : ι)
  /-- the lock section of `unsubscribe` -/
  | unsubscribe (p : ι) (sid : SubId)
  /-- the lock section of `shutdown`, which collects the subscriptions `all` -/
  | shutdown (p : ι) (all : List SubId)
  | stopClose (p : ι) (sid : SubId)
  | stopJoinable (p : ι) (sid : SubId)
  | stopJoin (p : ι) (sid : SubId)
  /-- `unsubscribe` of `owner`, or `shutdown`, returns -/
  | stopReturn (p : ι) (owner : Option SubId)
  | workerPop (sid : SubId)
  | workerDeliver (sid : SubId) (now : UInt64)
  | workerFinish (sid : SubId)

inductive BusEvent (ι π η : Type*) where
  | sub (sid : SubId) (e : SubEvent ι π)
  | subscribed (sid : SubId) (topic : String) (qos : QoS) (backlog : List (Envelope π))
  /-- a type-correct publish took the lock, found `subs` registered and picked `targets` -/
  | published (p : ι) (topic : String) (env : Envelope π) (qos : QoS) (subs targets : List SubId)
  | reported (p : ι) (topic : String) (m : QosMismatch) (handler : η)
  /-- a publish returned; it has no envelope if it failed under the lock -/
  | returned (p : ι) (topic : String) (env : Option (Envelope π)) (ok : Bool)
  /-- `unsubscribe` or `shutdown` took the lock and these are the subscriptions to stop -/
  | detached (p : ι) (owner : Option SubId) (sids : List SubId)
  /-- `unsubscribe` or `shutdown` returned -/
  | stopped (p : ι) (owner : Option SubId)
  deriving DecidableEq, Repr

namespace TopicBus

variable {ι τ π η : Type*}

/-- A bus with these topics and no subscriptions. -/
def ofTopics (topics : Topics τ π) : BusState ι τ π η where
  topics
  subs _ := none
  mismatchHandler := none
  qosMismatches := 0
  typeMismatches := 0
  reliableTimeout := 100000000
  threads _ := .idle

def init : BusState ι τ π η := ofTopics ∅

/-! ## The topic table -/

/-- The topic table with an entry for `topic`, and that entry. -/
def ensureTopic (topics : Topics τ π) (topic : String) (type : τ) :
    Topics τ π × TopicEntry τ π :=
  match topics.lookup topic with
  | some entry => (topics, entry)
  | none       => (topics.insert topic (TopicEntry.new type), TopicEntry.new type)

/-- Every registered subscription. -/
def registered (topics : Topics τ π) : List SubId := topics.entries.flatMap fun e => e.2.subs

/-- `while (latched.size() > depth) latched.pop_front()` -/
def trim (depth : Nat) : List (Envelope π) → List (Envelope π)
  | []            => []
  | env :: latched =>
    if (env :: latched).length > depth then trim depth latched else env :: latched

/-- What a `TransientLocal` publish does to the history. -/
def latch (qos : QoS) (latched : List (Envelope π)) (env : Envelope π) : List (Envelope π) :=
  if qos.durability = .transientLocal then trim qos.depth (latched ++ [env]) else latched

/-- The backlog a new subscription gets. -/
def backlogOf (qos : QoS) (entry : TopicEntry τ π) : List (Envelope π) :=
  if qos.durability = .transientLocal then entry.latched else []

/-- `unsubscribe` takes the subscription off its topic. -/
def unregister (topics : Topics τ π) (topic : String) (sid : SubId) : Topics τ π :=
  match topics.lookup topic with
  | some entry => topics.insert topic { entry with subs := entry.subs.erase sid }
  | none       => topics

/-! ## Matching a publisher with the subscriptions -/

/-- What the loop over `entry.subs` has collected. -/
structure Matching (ι τ π η : Type*) where
  subs : SubId → Option (Subscription τ π)
  qosMismatches : Nat
  mismatches : List (SubId × QosMismatch)
  targets : List SubId
  events : List (BusEvent ι π η)

/-- One round of the loop: a subscription becomes a target, or its mismatch is
    counted and, the first time, kept for the handler. -/
def matchOne (qos : QoS) (acc : Matching ι τ π η) (sid : SubId) : Matching ι τ π η :=
  match acc.subs sid with
  | none => acc
  | some sub =>
    let m := checkCompatible qos sub.qos
    if m ≠ .none then
      { acc with
        subs := Function.update acc.subs sid (some sub.reject)
        qosMismatches := acc.qosMismatches + 1
        -- the compare-exchange on `mismatch_reported` succeeds once
        mismatches := if sub.mismatchReported then acc.mismatches
                      else acc.mismatches ++ [(sid, m)]
        events := acc.events ++ [.sub sid (.rejected m)] }
    else { acc with targets := acc.targets ++ [sid] }

/-- The loop over `entry.subs`. -/
def matchAll (s : BusState ι τ π η) (qos : QoS) (sids : List SubId) : Matching ι τ π η :=
  sids.foldl (matchOne qos) ⟨s.subs, s.qosMismatches, [], [], []⟩

/-! ## Steps -/

section Steps

variable [DecidableEq ι]

/-- The thread `p` goes on with `c`. -/
def setCall (s : BusState ι τ π η) (p : ι) (c : Call τ π η) : BusState ι τ π η :=
  { s with threads := Function.update s.threads p c }

/-- The record of `sid` becomes `sub`. -/
def setSub (s : BusState ι τ π η) (sid : SubId) (sub : Subscription τ π) : BusState ι τ π η :=
  { s with subs := Function.update s.subs sid (some sub) }

/-- The lock section of `subscribe`. -/
def subscribeLock [DecidableEq τ] (s : BusState ι τ π η) (p : ι) (topic : String) (type : τ)
    (qos : QoS) (sid : SubId) : BusState ι τ π η × List (BusEvent ι π η) :=
  let (topics, entry) := ensureTopic s.topics topic type
  -- a conflict leaves an empty handle, and the topic if it was made just now
  if entry.type ≠ type then ({ s with topics }, [])
  else
    ({ s with
       topics := topics.insert topic { entry with subs := entry.subs ++ [sid] }
       subs := Function.update s.subs sid (some (.new topic type qos))
       threads := Function.update s.threads p (.backlog sid (backlogOf qos entry)) },
     [.subscribed sid topic qos (backlogOf qos entry)])

/-- The lock section of `publish_erased`. -/
def publishLocked [DecidableEq τ] (s : BusState ι τ π η) (p : ι) (topic : String) (type : τ)
    (qos : QoS) (payload : π) (publishNs : UInt64) : BusState ι τ π η × List (BusEvent ι π η) :=
  match s.topics.lookup topic with
  -- nobody has advertised the topic or subscribed to it
  | none => (setCall s p .idle, [.returned p topic none false])
  | some entry =>
    if entry.type ≠ type then
      (setCall { s with typeMismatches := s.typeMismatches + 1 } p .idle,
        [.returned p topic none false])
    else
      let env : Envelope π := ⟨payload, entry.published + 1, publishNs⟩
      -- the envelope is latched whether or not anybody is a target
      let m := matchAll s qos entry.subs
      ({ s with
         topics := s.topics.insert topic
           { entry with published := entry.published + 1, latched := latch qos entry.latched env }
         subs := m.subs
         qosMismatches := m.qosMismatches
         threads := Function.update s.threads p
           (.fanout ⟨topic, env, m.mismatches, s.mismatchHandler, m.targets, none, true⟩) },
       .published p topic env qos entry.subs m.targets :: m.events)

/-- The end of a critical section of a push of the fan-out. -/
def afterPush (s : BusState ι τ π η) (p : ι) (f : Fanout π η) (sid : SubId) (rest : List SubId)
    (sub : Subscription τ π) (deadline : TimePoint) :
    BoundedQueue (Envelope π) × BoundedQueue.Push (Envelope π) →
      BusState ι τ π η × List (BusEvent ι π η)
  | (queue, .sleeping) =>
    (setCall (setSub s sid { sub with queue }) p (.fanout { f with waiting := some deadline }), [])
  | (queue, .returned status evicted) =>
    (setCall (setSub s sid { sub with queue }) p
      (.fanout { f with targets := rest, waiting := none
                        allAccepted := f.allAccepted && status.accepted }),
      [.sub sid (.pushed (some p) f.env status evicted)])

/-- Reliable subscriptions are pushed to with a timeout. -/
def pushDeadline (s : BusState ι τ π η) (sub : Subscription τ π) (now : TimePoint) : TimePoint :=
  if sub.qos.reliability = .reliable then now + s.reliableTimeout else TimePoint.max

/-- The worker of `sid` runs `f`. -/
def workerStep (s : BusState ι τ π η) (sid : SubId)
    (f : Subscription τ π → Option (Subscription τ π × List (SubEvent ι π))) :
    Option (BusState ι τ π η × List (BusEvent ι π η)) :=
  (s.subs sid).bind fun sub => (f sub).map fun r => (setSub s sid r.1, r.2.map (.sub sid))

/-- The thread `p`, in `stop_subscription` of `sid`, turns to the next one. -/
def stopNext (s : BusState ι τ π η) (p : ι) (owner : Option SubId) (rest : List SubId) :
    BusState ι τ π η :=
  setCall s p (.stopping owner .close rest)

/-- One section of `stop_subscription(sid)`. The label of a step has to name the
    section and the subscription the thread is at. -/
def stopStep (s : BusState ι τ π η) (p : ι) (sid : SubId) (phase : StopPhase) :
    Option (BusState ι τ π η × List (BusEvent ι π η)) :=
  match s.threads p, s.subs sid with
  | .stopping owner ph (sid' :: rest), some sub =>
    if ph = phase ∧ sid' = sid then
      match phase with
      | .close =>
        some (setCall (setSub s sid { sub with queue := sub.queue.close }) p
          (.stopping owner .joinable (sid :: rest)), [])
      | .joinable =>
        -- whoever comes second, or before `assign`, has nothing to join
        if sub.thread = .joinable then some (setCall s p (.stopping owner .join (sid :: rest)), [])
        else some (stopNext s p owner rest, [])
      | .join =>
        match sub.worker, sub.thread with
        -- `join` blocks until the worker has left its loop; joining twice is undefined
        | .exited, .joinable =>
          some (stopNext (setSub s sid { sub with thread := .joined }) p owner rest, [])
        | _, _ => none
    else none
  | _, _ => none

variable [DecidableEq τ]

def step (s : BusState ι τ π η) :
    BusAction ι τ π η → Option (BusState ι τ π η × List (BusEvent ι π η))
  | .advertise topic type => some ({ s with topics := (ensureTopic s.topics topic type).1 }, [])
  | .setQosMismatchHandler mismatchHandler => some ({ s with mismatchHandler }, [])
  | .setReliableTimeout reliableTimeout => some ({ s with reliableTimeout }, [])
  | .subscribe p topic type qos sid =>
    match s.threads p, s.subs sid with
    | .idle, none => some (subscribeLock s p topic type qos sid)
    | _, _ => none
  | .pushBacklog p sid =>
    match s.threads p, s.subs sid with
    | .backlog sid' (env :: rest), some sub =>
      if sid' = sid then
        match sub.queue.tryPush env with
        | (queue, .returned status evicted) =>
          some (setCall (setSub s sid { sub with queue }) p (.backlog sid rest),
            [.sub sid (.pushed none env status evicted)])
        | (_, .sleeping) => none -- `try_push` never sleeps
      else none
    | _, _ => none
  | .spawn p sid =>
    match s.threads p, s.subs sid with
    | .backlog sid' [], some sub =>
      if sid' = sid then
        some (setCall (setSub s sid { sub with worker := .popping }) p (.starting sid), [])
      else none
    | _, _ => none
  | .assign p sid =>
    match s.threads p, s.subs sid with
    | .starting sid', some sub =>
      if sid' = sid then
        some (setCall (setSub s sid { sub with thread := .joinable }) p .idle, [])
      else none
    | _, _ => none
  | .publish p topic type qos payload now =>
    match s.threads p with
    | .idle => some (setCall s p (.publishing topic type qos payload now), [])
    | _ => none
  | .publishLock p =>
    match s.threads p with
    | .publishing topic type qos payload publishNs =>
      some (publishLocked s p topic type qos payload publishNs)
    | _ => none
  | .report p sid =>
    match s.threads p with
    | .fanout f =>
      match f.mismatches with
      | (sid', m) :: rest =>
        if sid' = sid then
          some (setCall s p (.fanout { f with mismatches := rest }),
            f.handler.toList.map (.reported p f.topic m))
        else none
      | [] => none
    | _ => none
  | .push p sid now =>
    match s.threads p, s.subs sid with
    -- the handler calls are done, and no push is under way
    | .fanout ⟨topic, env, [], handler, sid' :: rest, none, ok⟩, some sub =>
      if sid' = sid then
        some (afterPush s p ⟨topic, env, [], handler, sid' :: rest, none, ok⟩ sid rest sub
          (pushDeadline s sub now) (sub.queue.pushUntil env (pushDeadline s sub now)))
      else none
    | _, _ => none
  | .pushWake p sid now =>
    match s.threads p, s.subs sid with
    -- the wait keeps the deadline it started with
    | .fanout ⟨topic, env, [], handler, sid' :: rest, some deadline, ok⟩, some sub =>
      if sid' = sid then
        some (afterPush s p ⟨topic, env, [], handler, sid' :: rest, some deadline, ok⟩ sid rest sub
          deadline (sub.queue.pushWake env deadline now))
      else none
    | _, _ => none
  | .publishReturn p =>
    match s.threads p with
    | .fanout ⟨topic, env, [], _, [], _, ok⟩ =>
      some (setCall s p .idle, [.returned p topic (some env) ok])
    | _ => none
  | .unsubscribe p sid =>
    match s.threads p, s.subs sid with
    | .idle, some sub =>
      -- the caller has the handle, so `subscribe` has assigned the thread
      if sub.thread ≠ .empty then
        some (setCall { s with topics := unregister s.topics sub.topic sid } p
          (.stopping (some sid) .close [sid]), [.detached p (some sid) [sid]])
      else none
    | _, _ => none
  | .shutdown p all =>
    match s.threads p with
    | .idle =>
      -- the order of an `unordered_map` is anybody's guess
      if all.Perm (registered s.topics) then
        some (setCall { s with topics := s.topics.mapVals TopicEntry.clear } p
          (.stopping none .close all), [.detached p none all])
      else none
    | _ => none
  | .stopClose p sid => stopStep s p sid .close
  | .stopJoinable p sid => stopStep s p sid .joinable
  | .stopJoin p sid => stopStep s p sid .join
  | .stopReturn p owner =>
    match s.threads p with
    | .stopping owner' .close [] =>
      if owner' = owner then some (setCall s p .idle, [.stopped p owner]) else none
    | _ => none
  | .workerPop sid => workerStep s sid Subscription.popNext
  | .workerDeliver sid now => workerStep s sid fun sub => sub.deliver now
  | .workerFinish sid => workerStep s sid Subscription.finish

variable (ι τ π η) in
def machine : Machine (BusState ι τ π η) (BusAction ι τ π η) (BusEvent ι π η) where
  step := step

end Steps

end TopicBus

end Rdb
