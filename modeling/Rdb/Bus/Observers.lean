-- SUMMARY: Threads that look at a running bus: `stats()` with its six loads, and `wait_for_idle()` with its scans.
import Mathlib.Data.Fintype.Basic
import Rdb.Bus.History

/-!
# Observers of the bus

`stats()` loads its six fields one after the other while publishers and workers go on,
so what it returns need not be the record of any one moment. `wait_for_idle()` holds the
bus lock, shared, while it asks one queue after the other; this keeps out whoever needs
the lock exclusively, but neither the pushes of a running publish nor the workers.
-/

namespace Rdb

/-- What `stats()` returns. -/
structure SubscriberStats where
  delivered : Nat := 0
  dropped : Nat := 0
  expired : Nat := 0
  deadlineMissed : Nat := 0
  qosRejected : Nat := 0
  queueHighWater : Nat := 0
  deriving DecidableEq, Repr

inductive StatsField where
  | delivered
  | dropped
  | expired
  | deadlineMissed
  | qosRejected
  | queueHighWater
  deriving DecidableEq, Repr

namespace StatsField

/-- The fields in the order in which `stats()` loads them. -/
def all : List StatsField :=
  [.delivered, .dropped, .expired, .deadlineMissed, .qosRejected, .queueHighWater]

theorem mem_all (f : StatsField) : f ∈ all := by cases f <;> decide

end StatsField

namespace SubscriberStats

def get (st : SubscriberStats) : StatsField → Nat
  | .delivered      => st.delivered
  | .dropped        => st.dropped
  | .expired        => st.expired
  | .deadlineMissed => st.deadlineMissed
  | .qosRejected    => st.qosRejected
  | .queueHighWater => st.queueHighWater

def set (st : SubscriberStats) (f : StatsField) (n : Nat) : SubscriberStats :=
  match f with
  | .delivered      => { st with delivered := n }
  | .dropped        => { st with dropped := n }
  | .expired        => { st with expired := n }
  | .deadlineMissed => { st with deadlineMissed := n }
  | .qosRejected    => { st with qosRejected := n }
  | .queueHighWater => { st with queueHighWater := n }

@[simp] theorem get_set_self (st : SubscriberStats) (f : StatsField) (n : Nat) :
    (st.set f n).get f = n := by cases f <;> rfl

theorem get_set_of_ne (st : SubscriberStats) {f g : StatsField} (h : g ≠ f) (n : Nat) :
    (st.set f n).get g = st.get g := by
  cases f <;> cases g <;> first | rfl | exact absurd rfl h

end SubscriberStats

namespace Subscription

variable {ι τ π : Type*}

/-- What the load of a field finds. -/
def stat (sub : Subscription τ π) : StatsField → Nat
  | .delivered      => sub.delivered
  | .dropped        => sub.queue.dropped
  | .expired        => sub.expired
  | .deadlineMissed => sub.deadlineMissed
  | .qosRejected    => sub.qosRejected
  | .queueHighWater => sub.queue.highWater

/-- No counter goes back. -/
theorem Step.stat_le {sub sub' : Subscription τ π} {evs : List (SubEvent ι π)}
    (h : sub.Step evs sub') (f : StatsField) : sub.stat f ≤ sub'.stat f := by
  cases h with
  | push hp =>
      cases hp with
      | ok =>
          cases f <;> simp only [stat, BoundedQueue.accept, le_refl]
          split <;> omega
      | closed | full => exact le_rfl
      | droppedNewest | droppedOldest => cases f <;> simp [stat]
  | call => cases f <;> simp only [stat, le_refl]; split <;> omega
  | reject | expire | finish | pop | exit | spawn | assign | close | join | stay =>
      cases f <;> simp [stat, Subscription.reject, BoundedQueue.close]

/-- A closed queue takes nothing in. -/
theorem Step.accepted_of_closed {sub sub' : Subscription τ π} {evs : List (SubEvent ι π)}
    (h : sub.Step evs sub') (hclosed : sub.queue.closed = true) :
    sub'.queue.closed = true ∧ Ledger.accepted evs = [] := by
  cases h with
  | push hp =>
      cases hp with
      | closed => exact ⟨hclosed, rfl⟩
      | droppedNewest hopen | droppedOldest hopen | full hopen | ok hopen =>
          rw [hclosed] at hopen
          cases hopen
  | close => exact ⟨rfl, rfl⟩
  | reject | expire | call | finish | pop | exit | spawn | assign | join | stay =>
      exact ⟨hclosed, rfl⟩

end Subscription

namespace BusAction

variable {ι τ π η : Type*}

/-- The section holds the bus lock exclusively. -/
def exclusive : BusAction ι τ π η → Bool
  | .advertise .. | .setQosMismatchHandler _ | .subscribe .. | .publishLock _ | .unsubscribe ..
  | .shutdown .. => true
  | _ => false

end BusAction

namespace TopicBus

variable {κ ι τ π η : Type*}

/-- Where an observer is. -/
inductive Observer where
  | idle
  /-- in `stats()` of `sid`, with these fields still to load -/
  | loading (sid : SubId) (st : SubscriberStats) (rest : List StatsField)
  /-- in `wait_for_idle`, before the bus lock -/
  | locking (deadline : TimePoint)
  /-- under the lock, with these queues still to ask -/
  | scanning (deadline : TimePoint) (rest : List SubId)
  /-- has met a queue that is not empty, and released the lock -/
  | busy (deadline : TimePoint)
  deriving DecidableEq, Repr

/-- The observer holds the bus lock, shared. -/
def Observer.locks : Observer → Bool
  | .scanning .. => true
  | _ => false

/-- A bus with observers `κ`. -/
structure Observed (κ ι τ π η : Type*) where
  bus : BusState ι τ π η
  observers : κ → Observer

def Observed.init : Observed κ ι τ π η := ⟨TopicBus.init, fun _ => .idle⟩

inductive ObservedAction (κ ι τ π η : Type*) where
  | bus (a : BusAction ι τ π η)
  /-- `stats()` of a handle, which may be empty -/
  | stats (k : κ) (handle : Option SubId)
  /-- the next load of `stats()` -/
  | load (k : κ)
  /-- `wait_for_idle(timeout)`, called at clock reading `now` -/
  | waitForIdle (k : κ) (now timeout : TimePoint)
  /-- it takes the lock; `all` is the order in which it is going to meet the queues -/
  | scan (k : κ) (all : List SubId)
  /-- it asks the next queue -/
  | look (k : κ)
  /-- it has asked them all -/
  | unlock (k : κ)
  /-- it compares the clock with its deadline -/
  | readClock (k : κ) (now : TimePoint)

inductive ObservedEvent (κ ι π η : Type*) where
  | bus (e : BusEvent ι π η)
  /-- `stats()` returned -/
  | stats (k : κ) (st : SubscriberStats)
  /-- `wait_for_idle` returned -/
  | waited (k : κ) (ok : Bool)
  deriving DecidableEq, Repr

/-- What the bus did. -/
def busEvents (tr : List (ObservedEvent κ ι π η)) : List (BusEvent ι π η) :=
  tr.filterMap fun
    | .bus e => some e
    | _      => none

@[simp] theorem busEvents_append (tr tr' : List (ObservedEvent κ ι π η)) :
    busEvents (tr ++ tr') = busEvents tr ++ busEvents tr' := by simp [busEvents]

@[simp] theorem busEvents_map (evs : List (BusEvent ι π η)) :
    busEvents (evs.map .bus : List (ObservedEvent κ ι π η)) = evs := by
  simp [busEvents, List.filterMap_map]

section Steps

variable [DecidableEq κ]

/-- The observer `k` goes on with `o`. -/
def Observed.turn (w : Observed κ ι τ π η) (k : κ) (o : Observer) : Observed κ ι τ π η :=
  { w with observers := Function.update w.observers k o }

@[simp] theorem Observed.turn_self (w : Observed κ ι τ π η) (k : κ) (o : Observer) :
    (w.turn k o).observers k = o := Function.update_self _ _ _

theorem Observed.turn_of_ne (w : Observed κ ι τ π η) {k k' : κ} (h : k ≠ k') (o : Observer) :
    (w.turn k' o).observers k = w.observers k := Function.update_of_ne h _ _

variable [Fintype κ] [DecidableEq ι] [DecidableEq τ]

def observedStep (w : Observed κ ι τ π η) :
    ObservedAction κ ι τ π η → Option (Observed κ ι τ π η × List (ObservedEvent κ ι π η))
  | .bus a =>
    -- an exclusive section waits for those who hold the lock shared
    if a.exclusive ∧ ∃ k, (w.observers k).locks then none
    else (step w.bus a).map fun r => ({ w with bus := r.1 }, r.2.map .bus)
  | .stats k handle =>
    match w.observers k, handle with
    | .idle, none     => some (w, [.stats k {}])
    | .idle, some sid =>
      if (w.bus.subs sid).isSome then some (w.turn k (.loading sid {} StatsField.all), []) else none
    | _, _ => none
  | .load k =>
    match w.observers k with
    | .loading sid st (f :: rest) =>
      (w.bus.subs sid).map fun sub =>
        if rest = [] then (w.turn k .idle, [.stats k (st.set f (sub.stat f))])
        else (w.turn k (.loading sid (st.set f (sub.stat f)) rest), [])
    | _ => none
  | .waitForIdle k now timeout =>
    match w.observers k with
    | .idle => some (w.turn k (.locking (now + timeout)), [])
    | _     => none
  | .scan k all =>
    match w.observers k with
    | .locking deadline =>
      if all.Perm (registered w.bus.topics) then some (w.turn k (.scanning deadline all), [])
      else none
    | _ => none
  | .look k =>
    match w.observers k with
    | .scanning deadline (sid :: rest) =>
      (w.bus.subs sid).map fun sub =>
        if sub.queue.items.isEmpty then (w.turn k (.scanning deadline rest), [])
        else (w.turn k (.busy deadline), [])
    | _ => none
  | .unlock k =>
    match w.observers k with
    | .scanning _ [] => some (w.turn k .idle, [.waited k true])
    | _ => none
  | .readClock k now =>
    match w.observers k with
    | .busy deadline =>
      if deadline ≤ now then some (w.turn k .idle, [.waited k false])
      -- it sleeps for a millisecond
      else some (w.turn k (.locking deadline), [])
    | _ => none

variable (κ ι τ π η) in
def observed : Machine (Observed κ ι τ π η) (ObservedAction κ ι τ π η)
    (ObservedEvent κ ι π η) where
  step := observedStep

end Steps

/-! ## What an observed step can do -/

section Inversion

variable [DecidableEq κ] [Fintype κ] [DecidableEq ι] [DecidableEq τ]
  {w w' w₀ : Observed κ ι τ π η} {a : ObservedAction κ ι τ π η}
  {as : List (ObservedAction κ ι τ π η)} {evs tr : List (ObservedEvent κ ι π η)}

/-- A step of the bus, or one observer goes on. -/
inductive ObservedTransition (w : Observed κ ι τ π η) :
    ObservedAction κ ι τ π η → List (ObservedEvent κ ι π η) → Observed κ ι τ π η → Prop where
  | bus {b : BusAction ι τ π η} {s' : BusState ι τ π η} {evs : List (BusEvent ι π η)} :
      (b.exclusive = true → ∀ k, (w.observers k).locks = false) → step w.bus b = some (s', evs) →
      ObservedTransition w (.bus b) (evs.map .bus) { w with bus := s' }
  | noHandle {k : κ} : ObservedTransition w (.stats k none) [.stats k {}] w
  | stats {k : κ} {sid : SubId} {sub : Subscription τ π} :
      w.observers k = .idle → w.bus.subs sid = some sub →
      ObservedTransition w (.stats k (some sid)) [] (w.turn k (.loading sid {} StatsField.all))
  | load {k : κ} {sid : SubId} {sub : Subscription τ π} {st : SubscriberStats} {f : StatsField}
      {rest : List StatsField} :
      w.observers k = .loading sid st (f :: rest) → w.bus.subs sid = some sub → rest ≠ [] →
      ObservedTransition w (.load k) [] (w.turn k (.loading sid (st.set f (sub.stat f)) rest))
  | lastLoad {k : κ} {sid : SubId} {sub : Subscription τ π} {st : SubscriberStats}
      {f : StatsField} : w.observers k = .loading sid st [f] → w.bus.subs sid = some sub →
      ObservedTransition w (.load k) [.stats k (st.set f (sub.stat f))] (w.turn k .idle)
  | waitForIdle {k : κ} {now timeout : TimePoint} : w.observers k = .idle →
      ObservedTransition w (.waitForIdle k now timeout) [] (w.turn k (.locking (now + timeout)))
  | scan {k : κ} {all : List SubId} {deadline : TimePoint} : w.observers k = .locking deadline →
      all.Perm (registered w.bus.topics) →
      ObservedTransition w (.scan k all) [] (w.turn k (.scanning deadline all))
  | lookEmpty {k : κ} {deadline : TimePoint} {sid : SubId} {rest : List SubId}
      {sub : Subscription τ π} : w.observers k = .scanning deadline (sid :: rest) →
      w.bus.subs sid = some sub → sub.queue.items = [] →
      ObservedTransition w (.look k) [] (w.turn k (.scanning deadline rest))
  | lookBusy {k : κ} {deadline : TimePoint} {sid : SubId} {rest : List SubId} :
      w.observers k = .scanning deadline (sid :: rest) →
      ObservedTransition w (.look k) [] (w.turn k (.busy deadline))
  | unlock {k : κ} {deadline : TimePoint} : w.observers k = .scanning deadline [] →
      ObservedTransition w (.unlock k) [.waited k true] (w.turn k .idle)
  | giveUp {k : κ} {deadline now : TimePoint} : w.observers k = .busy deadline → deadline ≤ now →
      ObservedTransition w (.readClock k now) [.waited k false] (w.turn k .idle)
  | again {k : κ} {deadline now : TimePoint} : w.observers k = .busy deadline →
      ObservedTransition w (.readClock k now) [] (w.turn k (.locking deadline))

theorem observedStep_transition (h : observedStep w a = some (w', evs)) :
    ObservedTransition w a evs w' := by
  cases a with
  | bus b =>
      simp only [observedStep] at h
      split at h
      · cases h
      · rename_i hlock
        obtain ⟨⟨s', evs'⟩, hstep, heq⟩ := Option.map_eq_some_iff.mp h
        obtain ⟨rfl, rfl⟩ := Prod.mk.inj heq
        refine .bus (fun hex k => ?_) hstep
        by_contra hk
        exact hlock ⟨hex, k, by simpa using hk⟩
  | stats k handle =>
      simp only [observedStep] at h
      split at h
      · obtain ⟨rfl, rfl⟩ := Prod.mk.inj (Option.some.inj h)
        exact .noHandle
      · rename_i sid hk
        obtain ⟨hsome, h⟩ := Option.ite_none_right_eq_some.mp h
        obtain ⟨sub, hsub⟩ := Option.isSome_iff_exists.mp hsome
        obtain ⟨rfl, rfl⟩ := Prod.mk.inj (Option.some.inj h)
        exact .stats hk hsub
      · cases h
  | load k =>
      simp only [observedStep] at h
      split at h
      · rename_i sid st f rest hk
        obtain ⟨sub, hsub, hif⟩ := Option.map_eq_some_iff.mp h
        split at hif <;> obtain ⟨rfl, rfl⟩ := Prod.mk.inj hif
        · rename_i hrest
          subst hrest
          exact .lastLoad hk hsub
        · rename_i hrest
          exact .load hk hsub hrest
      · cases h
  | waitForIdle k now timeout =>
      simp only [observedStep] at h
      split at h
      · rename_i hk
        obtain ⟨rfl, rfl⟩ := Prod.mk.inj (Option.some.inj h)
        exact .waitForIdle hk
      · cases h
  | scan k all =>
      simp only [observedStep] at h
      split at h
      · rename_i deadline hk
        obtain ⟨hall, h⟩ := Option.ite_none_right_eq_some.mp h
        obtain ⟨rfl, rfl⟩ := Prod.mk.inj (Option.some.inj h)
        exact .scan hk hall
      · cases h
  | look k =>
      simp only [observedStep] at h
      split at h
      · rename_i deadline sid rest hk
        obtain ⟨sub, hsub, hif⟩ := Option.map_eq_some_iff.mp h
        split at hif <;> obtain ⟨rfl, rfl⟩ := Prod.mk.inj hif
        · rename_i hempty
          exact .lookEmpty hk hsub (List.isEmpty_iff.mp hempty)
        · exact .lookBusy hk
      · cases h
  | unlock k =>
      simp only [observedStep] at h
      split at h
      · rename_i deadline hk
        obtain ⟨rfl, rfl⟩ := Prod.mk.inj (Option.some.inj h)
        exact .unlock hk
      · cases h
  | readClock k now =>
      simp only [observedStep] at h
      split at h
      · rename_i deadline hk
        split at h <;> obtain ⟨rfl, rfl⟩ := Prod.mk.inj (Option.some.inj h)
        · rename_i hle
          exact .giveUp hk hle
        · exact .again hk
      · cases h

omit [Fintype κ] in
/-- For the bus it is a step of its own, or nothing happens. -/
theorem ObservedTransition.bus_inv (h : ObservedTransition w a evs w') :
    (∃ b evs', a = .bus b ∧ step w.bus b = some (w'.bus, evs') ∧ evs = evs'.map .bus ∧
        w'.observers = w.observers ∧
        (b.exclusive = true → ∀ k, (w.observers k).locks = false)) ∨
      w'.bus = w.bus ∧ busEvents evs = [] := by
  cases h with
  | bus hlock hstep => exact .inl ⟨_, _, rfl, hstep, rfl, rfl, hlock⟩
  | noHandle | stats | load | lastLoad | waitForIdle | scan | lookEmpty | lookBusy | unlock
  | giveUp | again => exact .inr ⟨rfl, rfl⟩

/-- What the bus does under observation is a run of its own. -/
theorem observed_bus_run (h : (observed κ ι τ π η).Run w₀ as tr w) :
    ∃ bs, (machine ι τ π η).Run w₀.bus bs (busEvents tr) w.bus := by
  induction h with
  | nil => exact ⟨[], .nil⟩
  | snoc _ _ hstep ih =>
      obtain ⟨bs, hrun⟩ := ih
      rw [busEvents_append]
      rcases (observedStep_transition hstep).bus_inv with
        ⟨b, evs', -, hb, rfl, -, -⟩ | ⟨hbus, hevs⟩
      · rw [busEvents_map]
        exact ⟨bs ++ [b], hrun.snoc hb⟩
      · rw [hbus, hevs, List.append_nil]
        exact ⟨bs, hrun⟩

end Inversion

end TopicBus

end Rdb
