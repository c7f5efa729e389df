-- SUMMARY: The bounded queue of `concurrency/bounded_queue.h`, one function for each section its mutex protects.
import Mathlib.Data.List.Basic

/-!
# Bounded queue

`push_until` and `pop_until` hold the queue's mutex except while they wait on a
condition variable. So each is a first critical section, which returns or goes to
sleep, and any number of wake-ups, each a critical section of its own that checks
the condition again. The functions here are these sections; who runs them, and
when, is up to `Rdb.Concurrency.QueueThreads` and the components built on the
queue.
-/

namespace Rdb

/-- `steady_clock::time_point`: a signed 64-bit count of nanoseconds. -/
abbrev TimePoint := Int64

/-- `time_point::max()`, which waits without a deadline. -/
def TimePoint.max : TimePoint := Int64.maxValue

/-- `time_point::min()`, which does not wait at all. -/
def TimePoint.min : TimePoint := Int64.minValue

inductive OverflowPolicy where
  | block
  | dropNewest
  | dropOldest
  deriving DecidableEq, Repr

inductive PushStatus where
  | ok
  | full
  | droppedNewest
  | droppedOldest
  | closed
  deriving DecidableEq, Repr

/-- The push took effect: its value entered the queue. -/
def PushStatus.accepted : PushStatus → Bool
  | .ok | .droppedOldest => true
  | .full | .droppedNewest | .closed => false

/-- The push cost a value: its own or the oldest one. -/
def PushStatus.dropped : PushStatus → Bool
  | .droppedNewest | .droppedOldest => true
  | .ok | .full | .closed => false

/-- The state behind the mutex. A capacity of zero cannot be built. -/
structure BoundedQueue (α : Type*) where
  items : List α
  capacity : Nat
  policy : OverflowPolicy
  closed : Bool
  dropped : Nat
  highWater : Nat
  capacity_pos : 0 < capacity

namespace BoundedQueue

variable {α : Type*}

def new (capacity : Nat) (policy : OverflowPolicy := .block) : BoundedQueue α where
  items := []
  capacity := if capacity = 0 then 1 else capacity
  policy
  closed := false
  dropped := 0
  highWater := 0
  capacity_pos := by split <;> omega

def size (q : BoundedQueue α) : Nat := q.items.length

/-! ## Waiting -/

/-- What a thread does next that holds the lock inside a wait. -/
inductive Wait where
  | ready
  | expired
  | sleep
  deriving DecidableEq, Repr

/-- Entering a wait whose condition is `ready`: `max` waits, `min` gives up at
    once, any other deadline checks the condition and then waits. -/
def Wait.enter (ready : Bool) (deadline : TimePoint) : Wait :=
  if deadline = TimePoint.max then if ready then .ready else .sleep
  else if deadline = TimePoint.min then .expired
  else if ready then .ready
  else .sleep

/-- Waking up at clock reading `now`, for whatever reason: the condition is
    checked again, and only a wait with a deadline can expire. -/
def Wait.wake (ready : Bool) (deadline now : TimePoint) : Wait :=
  if ready then .ready
  else if deadline ≠ TimePoint.max ∧ deadline ≤ now then .expired
  else .sleep

/-! ## Push -/

/-- How a critical section of `push_until` ends. -/
inductive Push (α : Type*) where
  | returned (status : PushStatus) (evicted : Option α)
  | sleeping
  deriving DecidableEq, Repr

/-- `items_.push_back(value)` with the high-water mark. -/
def accept (q : BoundedQueue α) (v : α) : BoundedQueue α :=
  { q with
    items := q.items ++ [v]
    highWater := if (q.items ++ [v]).length > q.highWater then (q.items ++ [v]).length
                 else q.highWater }

/-- Make room by dropping the front. The high-water mark is not touched. -/
def replaceOldest (q : BoundedQueue α) (v : α) : BoundedQueue α :=
  { q with items := q.items.tail ++ [v], dropped := q.dropped + 1 }

/-- The condition of `wait_for_space`. -/
def hasSpace (q : BoundedQueue α) : Bool := q.closed || decide (q.items.length < q.capacity)

/-- The rest of a blocking push once `wait_for_space` has returned, or another
    round of sleep. -/
def pushAfterWait (q : BoundedQueue α) (v : α) : Wait → BoundedQueue α × Push α
  | .sleep   => (q, .sleeping)
  | .expired => (q, .returned .full none)
  | .ready   =>
    if q.closed then (q, .returned .closed none)
    else (q.accept v, .returned .ok none)

/-- `push_until`, up to its first wait. -/
def pushUntil (q : BoundedQueue α) (v : α) (deadline : TimePoint) : BoundedQueue α × Push α :=
  if q.closed then (q, .returned .closed none)
  else if q.items.length ≥ q.capacity then
    -- only `Block` looks at the deadline, the other two never wait
    match q.policy with
    | .dropNewest => ({ q with dropped := q.dropped + 1 }, .returned .droppedNewest none)
    | .dropOldest => (q.replaceOldest v, .returned .droppedOldest q.items.head?)
    | .block      => q.pushAfterWait v (.enter q.hasSpace deadline)
  else (q.accept v, .returned .ok none)

/-- `push_until`, woken up in `wait_for_space` at clock reading `now`. -/
def pushWake (q : BoundedQueue α) (v : α) (deadline now : TimePoint) : BoundedQueue α × Push α :=
  q.pushAfterWait v (.wake q.hasSpace deadline now)

/-- `push` waits for ever. -/
def push (q : BoundedQueue α) (v : α) : BoundedQueue α × Push α :=
  q.pushUntil v TimePoint.max

/-- `push_for` waits until `now + timeout`, in 64-bit arithmetic. -/
def pushFor (q : BoundedQueue α) (v : α) (now timeout : TimePoint) : BoundedQueue α × Push α :=
  q.pushUntil v (now + timeout)

/-- `try_push` does not wait. -/
def tryPush (q : BoundedQueue α) (v : α) : BoundedQueue α × Push α :=
  q.pushUntil v TimePoint.min

/-! ## Pop -/

/-- How a critical section of `pop_until` ends. -/
inductive Pop (α : Type*) where
  | returned (value : Option α)
  | sleeping
  deriving DecidableEq, Repr

/-- The condition a pop waits for. -/
def hasItem (q : BoundedQueue α) : Bool := q.closed || !q.items.isEmpty

/-- Take the front, or report that there is none. -/
def popFront (q : BoundedQueue α) : BoundedQueue α × Pop α :=
  match q.items with
  | []        => (q, .returned none)
  | v :: rest => ({ q with items := rest }, .returned (some v))

/-- The rest of a pop once its wait has returned, or another round of sleep. -/
def popAfterWait (q : BoundedQueue α) : Wait → BoundedQueue α × Pop α
  | .sleep   => (q, .sleeping)
  | .expired => (q, .returned none)
  | .ready   => q.popFront

/-- `pop_until`, up to its first wait. -/
def popUntil (q : BoundedQueue α) (deadline : TimePoint) : BoundedQueue α × Pop α :=
  if q.items.isEmpty && !q.closed then q.popAfterWait (.enter q.hasItem deadline)
  else q.popFront

/-- `pop_until`, woken up at clock reading `now`. -/
def popWake (q : BoundedQueue α) (deadline now : TimePoint) : BoundedQueue α × Pop α :=
  q.popAfterWait (.wake q.hasItem deadline now)

/-- `pop` waits for ever. -/
def pop (q : BoundedQueue α) : BoundedQueue α × Pop α :=
  q.popUntil TimePoint.max

/-- `pop_for` waits until `now + timeout`, in 64-bit arithmetic. -/
def popFor (q : BoundedQueue α) (now timeout : TimePoint) : BoundedQueue α × Pop α :=
  q.popUntil (now + timeout)

/-- `try_pop` does not wait. -/
def tryPop (q : BoundedQueue α) : BoundedQueue α × Pop α :=
  q.popUntil TimePoint.min

/-! ## Close and clear -/

/-- The locked part of `close`. -/
def close (q : BoundedQueue α) : BoundedQueue α := { q with closed := true }

/-- `clear`, with what it discards. -/
def clear (q : BoundedQueue α) : BoundedQueue α × List α := ({ q with items := [] }, q.items)

/-! ## What a section can do -/

/-- Everything a critical section of a push can do to the queue. -/
inductive PushEffect (q : BoundedQueue α) (v : α) : BoundedQueue α → Push α → Prop where
  | closed : q.closed = true → PushEffect q v q (.returned .closed none)
  | droppedNewest : q.closed = false → q.capacity ≤ q.items.length → q.policy = .dropNewest →
      PushEffect q v { q with dropped := q.dropped + 1 } (.returned .droppedNewest none)
  | droppedOldest {w : α} {rest : List α} : q.closed = false → q.capacity ≤ q.items.length →
      q.policy = .dropOldest → q.items = w :: rest →
      PushEffect q v { q with items := rest ++ [v], dropped := q.dropped + 1 }
        (.returned .droppedOldest (some w))
  | full : q.closed = false → q.capacity ≤ q.items.length →
      PushEffect q v q (.returned .full none)
  | sleeping : q.closed = false → q.capacity ≤ q.items.length → PushEffect q v q .sleeping
  | ok : q.closed = false → q.items.length < q.capacity →
      PushEffect q v (q.accept v) (.returned .ok none)

/-- Everything a critical section of a pop can do to the queue. -/
inductive PopEffect (q : BoundedQueue α) : BoundedQueue α → Pop α → Prop where
  | value {v : α} {rest : List α} : q.items = v :: rest →
      PopEffect q { q with items := rest } (.returned (some v))
  | none : q.items = [] → PopEffect q q (.returned none)
  | sleeping : q.items = [] → q.closed = false → PopEffect q q .sleeping

theorem hasSpace_eq_false {q : BoundedQueue α} :
    q.hasSpace = false ↔ q.closed = false ∧ q.capacity ≤ q.items.length := by
  simp [hasSpace]

theorem hasItem_eq_false {q : BoundedQueue α} :
    q.hasItem = false ↔ q.closed = false ∧ q.items = [] := by
  simp [hasItem]

theorem pushAfterWait_effect {q : BoundedQueue α} (v : α) {w : Wait}
    (hw : w = .ready → q.hasSpace = true) (hw' : w ≠ .ready → q.hasSpace = false) :
    PushEffect q v (q.pushAfterWait v w).1 (q.pushAfterWait v w).2 := by
  cases w with
  | sleep =>
      obtain ⟨hopen, hfull⟩ := hasSpace_eq_false.mp (hw' (by simp))
      exact .sleeping hopen hfull
  | expired =>
      obtain ⟨hopen, hfull⟩ := hasSpace_eq_false.mp (hw' (by simp))
      exact .full hopen hfull
  | ready =>
      have hspace := hw rfl
      unfold pushAfterWait
      cases hc : q.closed with
      | true => exact .closed hc
      | false => exact .ok hc (by simpa [hasSpace, hc] using hspace)

theorem Wait.wake_ready_iff {ready : Bool} {deadline now : TimePoint} :
    Wait.wake ready deadline now = .ready ↔ ready = true := by
  unfold Wait.wake
  split_ifs <;> simp_all

theorem Wait.enter_of_not_ready {ready : Bool} {deadline : TimePoint} (h : ready = false) :
    Wait.enter ready deadline ≠ .ready := by
  unfold Wait.enter
  split_ifs <;> simp_all

theorem pushUntil_effect (q : BoundedQueue α) (v : α) (deadline : TimePoint) :
    PushEffect q v (q.pushUntil v deadline).1 (q.pushUntil v deadline).2 := by
  unfold pushUntil
  split
  · rename_i hc; exact .closed hc
  rename_i hopen
  rw [Bool.not_eq_true] at hopen
  split
  · rename_i hfull
    split
    · rename_i hpol; exact .droppedNewest hopen hfull hpol
    · rename_i hpol
      cases hitems : q.items with
      -- `items_.front()` exists: a full queue is not empty
      | nil => have := q.capacity_pos; simp [hitems] at hfull; omega
      | cons w rest =>
          simpa [replaceOldest, hitems] using
            PushEffect.droppedOldest (v := v) hopen hfull hpol hitems
    · have hspace : q.hasSpace = false := hasSpace_eq_false.mpr ⟨hopen, hfull⟩
      exact pushAfterWait_effect v (fun h => absurd h (Wait.enter_of_not_ready hspace))
        fun _ => hspace
  · rename_i hroom; exact .ok hopen (by omega)

theorem pushWake_effect (q : BoundedQueue α) (v : α) (deadline now : TimePoint) :
    PushEffect q v (q.pushWake v deadline now).1 (q.pushWake v deadline now).2 :=
  pushAfterWait_effect v (fun h => Wait.wake_ready_iff.mp h) fun h => by
    cases hs : q.hasSpace with
    | true => exact absurd (Wait.wake_ready_iff.mpr hs) h
    | false => rfl

theorem popFront_effect (q : BoundedQueue α) : PopEffect q q.popFront.1 q.popFront.2 := by
  unfold popFront
  split
  · rename_i h; exact .none h
  · rename_i h; exact .value h

theorem popAfterWait_effect {q : BoundedQueue α} {w : Wait}
    (hw : w ≠ .ready → q.hasItem = false) :
    PopEffect q (q.popAfterWait w).1 (q.popAfterWait w).2 := by
  cases w with
  | sleep =>
      obtain ⟨hopen, hempty⟩ := hasItem_eq_false.mp (hw (by simp))
      exact .sleeping hempty hopen
  | expired => exact .none (hasItem_eq_false.mp (hw (by simp))).2
  | ready => exact popFront_effect q

theorem popUntil_effect (q : BoundedQueue α) (deadline : TimePoint) :
    PopEffect q (q.popUntil deadline).1 (q.popUntil deadline).2 := by
  unfold popUntil
  split
  · rename_i h
    exact popAfterWait_effect fun _ => hasItem_eq_false.mpr (by simpa [and_comm] using h)
  · exact popFront_effect q

/-- An untimed pop returns nothing only from a queue that is closed and drained. -/
theorem pop_effect (q : BoundedQueue α) :
    match q.pop with
    | (q', .returned (some v)) => ∃ rest, q.items = v :: rest ∧ q' = { q with items := rest }
    | (q', .returned none)     => q' = q ∧ q.items = [] ∧ q.closed = true
    | (q', .sleeping)          => q' = q := by
  unfold pop popUntil
  cases hitems : q.items with
  | nil => cases hc : q.closed <;> simp [Wait.enter, hasItem, popAfterWait, popFront, hitems, hc]
  | cons v rest => simp [popFront, hitems]

theorem popWake_effect (q : BoundedQueue α) (deadline now : TimePoint) :
    PopEffect q (q.popWake deadline now).1 (q.popWake deadline now).2 :=
  popAfterWait_effect fun h => by
    cases hs : q.hasItem with
    | true => exact absurd (Wait.wake_ready_iff.mpr hs) h
    | false => rfl

/-! ## Waiting without a deadline -/

theorem Wait.enter_max_ne_expired (ready : Bool) : Wait.enter ready TimePoint.max ≠ .expired := by
  cases ready <;> simp [Wait.enter]

theorem Wait.wake_max_ne_expired (ready : Bool) (now : TimePoint) :
    Wait.wake ready TimePoint.max now ≠ .expired := by
  cases ready <;> simp [Wait.wake]

theorem pushAfterWait_ne_full {q : BoundedQueue α} {v : α} {w : Wait} (hw : w ≠ .expired) :
    (q.pushAfterWait v w).2 ≠ .returned .full none := by
  cases w with
  | expired => exact absurd rfl hw
  | sleep => simp [pushAfterWait]
  | ready => cases hc : q.closed <;> simp [pushAfterWait, hc]

/-- An untimed push does not give up at its first section. -/
theorem push_ne_full (q : BoundedQueue α) (v : α) :
    (q.pushUntil v TimePoint.max).2 ≠ .returned .full none := by
  unfold pushUntil
  split
  · simp
  split
  · split
    · simp
    · simp
    · exact pushAfterWait_ne_full (Wait.enter_max_ne_expired _)
  · simp

/-- Nor does it after a wake-up. -/
theorem pushWake_max_ne_full (q : BoundedQueue α) (v : α) (now : TimePoint) :
    (q.pushWake v TimePoint.max now).2 ≠ .returned .full none :=
  pushAfterWait_ne_full (Wait.wake_max_ne_expired _ now)

theorem closed_of_popFront {q : BoundedQueue α} (hitem : q.hasItem = true)
    (h : q.popFront.2 = .returned none) : q.closed = true := by
  cases hitems : q.items with
  | nil => simpa [hasItem, hitems] using hitem
  | cons v rest => simp [popFront, hitems] at h

theorem closed_of_popAfterWait {q : BoundedQueue α} {w : Wait} (hw : w ≠ .expired)
    (hready : w = .ready → q.hasItem = true) (h : (q.popAfterWait w).2 = .returned none) :
    q.closed = true := by
  cases w with
  | expired => exact absurd rfl hw
  | sleep => simp [popAfterWait] at h
  | ready => exact closed_of_popFront (hready rfl) h

/-- An untimed pop returns nothing only from a closed queue. -/
theorem closed_of_pop {q : BoundedQueue α} (h : (q.popUntil TimePoint.max).2 = .returned none) :
    q.closed = true := by
  have heff := pop_effect q
  have hpop : q.pop = (q.pop.1, .returned none) := Prod.ext rfl h
  rw [hpop] at heff
  exact heff.2.2

theorem closed_of_popWake_max {q : BoundedQueue α} {now : TimePoint}
    (h : (q.popWake TimePoint.max now).2 = .returned none) : q.closed = true :=
  closed_of_popAfterWait (Wait.wake_max_ne_expired _ now) Wait.wake_ready_iff.mp h

/-! ## Consequences shared by everything built on the queue -/

section Effects

variable {q q' : BoundedQueue α} {v : α} {status : PushStatus} {evicted value : Option α}

/-- A push moves the queue on by its value at the back and the evicted one at the
    front. -/
theorem PushEffect.items_eq (h : PushEffect q v q' (.returned status evicted)) :
    q.items ++ (if status.accepted then [v] else []) = evicted.toList ++ q'.items := by
  cases h with
  | closed | droppedNewest | full => simp [PushStatus.accepted]
  | droppedOldest _ _ _ hitems => simp [PushStatus.accepted, hitems]
  | ok => simp [PushStatus.accepted, accept]

/-- A push that does not take effect leaves the items alone. -/
theorem PushEffect.items_eq_of_rejected (h : PushEffect q v q' (.returned status evicted))
    (hst : status.accepted = false) : q'.items = q.items := by
  cases h with
  | closed | droppedNewest | full => rfl
  | droppedOldest | ok => simp [PushStatus.accepted] at hst

theorem PushEffect.dropped_eq (h : PushEffect q v q' (.returned status evicted)) :
    q'.dropped = q.dropped + if status.dropped then 1 else 0 := by
  cases h <;> simp [PushStatus.dropped, accept]

/-- Only `DropOldest` evicts, and only from a full queue. -/
theorem PushEffect.of_evicted {w : α} (h : PushEffect q v q' (.returned status (some w))) :
    q.policy = .dropOldest ∧ status = .droppedOldest ∧ q.capacity ≤ q.items.length ∧
      q.items.head? = some w := by
  cases h with
  | droppedOldest _ hfull hpol hitems => exact ⟨hpol, rfl, hfull, by simp [hitems]⟩

theorem PushEffect.capacity_eq {r : Push α} (h : PushEffect q v q' r) :
    q'.capacity = q.capacity ∧ q'.policy = q.policy ∧ q'.closed = q.closed := by
  cases h <;> simp [accept]

theorem PushEffect.size_le {r : Push α} (h : PushEffect q v q' r)
    (hle : q.items.length ≤ q.capacity) : q'.items.length ≤ q'.capacity := by
  cases h with
  | closed | droppedNewest | full | sleeping => exact hle
  | droppedOldest _ _ _ hitems => simpa [hitems] using hle
  | ok _ hroom =>
      simp only [accept, List.length_append, List.length_singleton]
      exact hroom

theorem PopEffect.items_eq (h : PopEffect q q' (.returned value)) :
    q.items = value.toList ++ q'.items := by
  cases h with
  | value hitems => simp [hitems]
  | none => simp

theorem PopEffect.capacity_eq {r : Pop α} (h : PopEffect q q' r) :
    q'.capacity = q.capacity ∧ q'.policy = q.policy ∧ q'.closed = q.closed ∧
      q'.dropped = q.dropped := by
  cases h <;> simp

theorem PopEffect.size_le {r : Pop α} (h : PopEffect q q' r)
    (hle : q.items.length ≤ q.capacity) : q'.items.length ≤ q'.capacity := by
  cases h with
  | value hitems =>
      simp only [hitems, List.length_cons] at hle
      exact Nat.le_of_succ_le hle
  | none | sleeping => exact hle

end Effects

end BoundedQueue

end Rdb
