-- SUMMARY: `push_for` and `pop_for`: at which clock readings they give up, and the timeouts whose deadline wraps.
import Mathlib.Algebra.Group.Int.Defs
import Rdb.Lib.Calls
import Rdb.Concurrency.QueueThreads

/-!
# Timed waits

A timed call waits until `now + timeout`, a sum of 64-bit counts. As long as it is one,
the call gives up at no reading before it. From `2^63` on the sum wraps to a deadline
that has long passed, and to the one that means not to wait at all when it wraps to
`time_point::min()`.
-/

namespace Rdb

/-! ## When a wait expires -/

namespace BoundedQueue

variable {α : Type*} {q : BoundedQueue α} {v : α} {deadline now : TimePoint}

theorem Wait.enter_expired_iff {ready : Bool} :
    Wait.enter ready deadline = .expired ↔ deadline = TimePoint.min := by
  unfold Wait.enter
  by_cases hmax : deadline = TimePoint.max
  · subst hmax
    cases ready <;> decide
  · rw [if_neg hmax]
    cases ready <;> simp

theorem Wait.wake_expired_iff {ready : Bool} :
    Wait.wake ready deadline now = .expired ↔
      ready = false ∧ deadline ≠ TimePoint.max ∧ deadline ≤ now := by
  unfold Wait.wake
  split_ifs <;> simp_all

theorem expired_of_pushAfterWait {w : Wait} {evicted : Option α}
    (h : (q.pushAfterWait v w).2 = .returned .full evicted) : w = .expired := by
  cases w with
  | expired => rfl
  | sleep => simp [pushAfterWait] at h
  | ready => cases hc : q.closed <;> simp [pushAfterWait, hc] at h

/-- Only a push that does not wait gives up in its first section. -/
theorem min_of_pushUntil {evicted : Option α}
    (h : (q.pushUntil v deadline).2 = .returned .full evicted) : deadline = TimePoint.min := by
  unfold pushUntil at h
  split_ifs at h
  · simp at h
  · cases hpol : q.policy <;> simp only [hpol] at h
    · exact Wait.enter_expired_iff.mp (expired_of_pushAfterWait h)
    · simp at h
    · simp at h
  · simp at h

theorem le_of_pushWake {evicted : Option α}
    (h : (q.pushWake v deadline now).2 = .returned .full evicted) : deadline ≤ now :=
  (Wait.wake_expired_iff.mp (expired_of_pushAfterWait h)).2.2

theorem expired_of_popAfterWait {w : Wait} (hopen : q.closed = false)
    (hready : w = .ready → q.hasItem = true) (h : (q.popAfterWait w).2 = .returned none) :
    w = .expired := by
  by_contra hne
  have hclosed := closed_of_popAfterWait hne hready h
  simp [hopen] at hclosed

/-- Only a pop that does not wait returns nothing from an open queue in its first
    section. -/
theorem min_of_popUntil (hopen : q.closed = false)
    (h : (q.popUntil deadline).2 = .returned none) : deadline = TimePoint.min := by
  unfold popUntil at h
  cases hitems : q.items with
  | nil =>
      have hitem : q.hasItem = false := hasItem_eq_false.mpr ⟨hopen, hitems⟩
      simp only [hitems, hopen, List.isEmpty_nil, Bool.not_false, Bool.and_self, if_true] at h
      refine Wait.enter_expired_iff.mp (expired_of_popAfterWait hopen ?_ h)
      exact fun hready => absurd hready (Wait.enter_of_not_ready hitem)
  | cons w rest => simp [popFront, hitems] at h

theorem le_of_popWake (hopen : q.closed = false)
    (h : (q.popWake deadline now).2 = .returned none) : deadline ≤ now :=
  (Wait.wake_expired_iff.mp (expired_of_popAfterWait hopen Wait.wake_ready_iff.mp h)).2.2

/-- Without space, a blocking push turns to its deadline. -/
theorem pushUntil_of_full (hopen : q.closed = false) (hfull : q.capacity ≤ q.items.length)
    (hblock : q.policy = .block) :
    q.pushUntil v deadline = q.pushAfterWait v (.enter false deadline) := by
  have hspace : q.hasSpace = false := hasSpace_eq_false.mpr ⟨hopen, hfull⟩
  simp [pushUntil, hopen, hfull, hblock, hspace]

theorem popUntil_of_empty (hopen : q.closed = false) (hitems : q.items = []) :
    q.popUntil deadline = q.popAfterWait (.enter false deadline) := by
  have hitem : q.hasItem = false := hasItem_eq_false.mpr ⟨hopen, hitems⟩
  simp [popUntil, hopen, hitems, hitem]

/-- Any deadline but the two special ones is waited for. -/
theorem Wait.enter_eq_sleep (hmax : deadline ≠ TimePoint.max) (hmin : deadline ≠ TimePoint.min) :
    Wait.enter false deadline = .sleep := by
  simp [Wait.enter, hmax, hmin]

end BoundedQueue

/-! ## The deadline -/

section Deadline

variable {now timeout : TimePoint}

theorem toInt_deadline (hnow : 0 ≤ now) (htimeout : 0 ≤ timeout)
    (hsum : now.toInt + timeout.toInt < 2 ^ 63) :
    (now + timeout).toInt = now.toInt + timeout.toInt := by
  rw [Int64.le_iff_toInt_le, Int64.toInt_zero] at hnow htimeout
  rw [Int64.toInt_add]
  exact Int.bmod_eq_of_le (by omega) (by omega)

/-- A sum from `2^63` on wraps to before the epoch. -/
theorem deadline_neg (hsum : 2 ^ 63 ≤ now.toInt + timeout.toInt) : now + timeout < 0 := by
  have hnow := now.toInt_lt
  have htimeout := timeout.toInt_lt
  rw [Int64.lt_iff_toInt_lt, Int64.toInt_zero, Int64.toInt_add, Int.bmod_def]
  omega

end Deadline

namespace QueueThreads

open BoundedQueue

variable {ι α : Type*}

/-! ## Calls with a timeout -/

/-- `push_for(v, timeout)`, called at clock reading `now`. -/
def Action.pushFor (t : ι) (v : α) (now timeout : TimePoint) (pick : Option ι) : Action ι α :=
  .push t v (now + timeout) pick

/-- `pop_for(timeout)`, called at clock reading `now`. -/
def Action.popFor (t : ι) (now timeout : TimePoint) (pick : Option ι) : Action ι α :=
  .pop t (now + timeout) pick

/-- The last clock reading of a call made at `now`, when it ends in this action. -/
def Action.reading (now : TimePoint) : Action ι α → TimePoint
  | .resume _ reading _ => reading
  | .push _ _ _ _ | .pop _ _ _ | .clear _ | .close _ | .notify _ | .getUp _ => now

def Event.thread : Event ι α → ι
  | .pushed t _ _ _ => t
  | .popped t _     => t
  | .cleared t _    => t
  | .closed t       => t

/-! ## Who waits for what -/

/-- The call a thread waits in: what it pushes, or nothing if it pops, and until when. -/
def Thread.waiting : Thread α → Option (Option α × TimePoint)
  | .pushing v deadline _ => some (some v, deadline)
  | .popping deadline _   => some (none, deadline)
  | .idle | .closing _    => none

section Waiting

variable {threads threads' : ι → Thread α} {c : Cond} {t u : ι} {call : Option α × TimePoint}

@[simp] theorem Thread.waiting_getUp {w : Waiter} (th : Thread α) :
    (th.getUp w).waiting = th.waiting := by
  cases th <;> rfl

@[simp] theorem waiting_notifyAll : (notifyAll c threads t).waiting = (threads t).waiting := by
  unfold notifyAll
  split <;> simp

variable [DecidableEq ι]

theorem waiting_update {th : Thread α} (h : t = u → th.waiting = (threads t).waiting) :
    (Function.update threads u th t).waiting = (threads t).waiting := by
  by_cases htu : t = u
  · rw [← h htu, htu, Function.update_self]
  · rw [Function.update_of_ne htu]

theorem NotifiedOne.waiting_eq (h : NotifiedOne c threads threads') (t : ι) :
    (threads' t).waiting = (threads t).waiting := by
  cases h with
  | nobody => rfl
  | moved => exact waiting_update fun htu => by rw [htu, Thread.waiting_getUp]

variable {s s' : State ι α} {a : Action ι α} {evs : List (Event ι α)}

/-- A call keeps waiting for the same until its thread reports something. -/
theorem Transition.waiting (h : Transition s a evs s') (hquiet : ∀ e ∈ evs, e.thread ≠ t)
    (hw : (s.threads t).waiting = some call) : (s'.threads t).waiting = some call := by
  refine Eq.trans ?_ hw
  cases h with
  | @accept u _ _ _ _ _ _ _ _ _ hone =>
      have hne : u ≠ t := hquiet _ (List.mem_singleton_self _)
      exact (hone.waiting_eq t).trans (waiting_update fun htu => absurd htu.symm hne)
  | @reject u =>
      have hne : u ≠ t := hquiet _ (List.mem_singleton_self _)
      exact waiting_update fun htu => absurd htu.symm hne
  | @pop u _ _ _ _ _ _ hone =>
      have hne : u ≠ t := hquiet _ (List.mem_singleton_self _)
      exact (hone.waiting_eq t).trans (waiting_update fun htu => absurd htu.symm hne)
  | @popNone u =>
      have hne : u ≠ t := hquiet _ (List.mem_singleton_self _)
      exact waiting_update fun htu => absurd htu.symm hne
  | pushSleeps hsec =>
      -- woken in vain, the thread waits for the same again
      refine waiting_update ?_
      rintro rfl
      cases hsec with
      | enter hidle => simp [hidle, Thread.waiting] at hw
      | wake hth => rw [hth]; rfl
  | popSleeps hsec =>
      refine waiting_update ?_
      rintro rfl
      cases hsec with
      | enter hidle => simp [hidle, Thread.waiting] at hw
      | wake hth => rw [hth]; rfl
  | clear => exact waiting_notifyAll
  | @close u =>
      have hne : u ≠ t := hquiet _ (List.mem_singleton_self _)
      exact waiting_update fun htu => absurd htu.symm hne
  | notify _ hth =>
      refine (waiting_update ?_).trans waiting_notifyAll
      rintro rfl
      simp [hth, Thread.waiting] at hw
  | getUp => exact waiting_update fun htu => by rw [htu, Thread.waiting_getUp]

end Waiting

/-! ## When a call gives up -/

section GiveUp

variable [Fintype ι] [DecidableEq ι] {s s' : State ι α} {a : Action ι α}
  {evs : List (Event ι α)} {t : ι} {v : α} {deadline : TimePoint} {pick : Option ι}

theorem afterPush_events {r : BoundedQueue α × Push α}
    (h : afterPush s t v deadline pick r = some (s', evs)) :
    (evs = [] ∧ (s'.threads t).waiting = some (some v, deadline)) ∨
      ∃ status evicted, r.2 = .returned status evicted ∧ evs = [.pushed t v status evicted] := by
  obtain ⟨q, status | _⟩ := r
  · rename_i evicted
    refine .inr ⟨status, evicted, rfl, ?_⟩
    simp only [afterPush] at h
    split at h
    · obtain ⟨threads, -, heq⟩ := Option.map_eq_some_iff.mp h
      exact (Prod.mk.inj heq).2.symm
    · exact (Prod.mk.inj (Option.some.inj h)).2.symm
  · obtain ⟨rfl, rfl⟩ := Prod.mk.inj (Option.some.inj h)
    exact .inl ⟨rfl, by simp [Thread.waiting]⟩

theorem afterPop_events {r : BoundedQueue α × Pop α}
    (h : afterPop s t deadline pick r = some (s', evs)) :
    (evs = [] ∧ (s'.threads t).waiting = some (none, deadline)) ∨
      ∃ value, r.2 = .returned value ∧ evs = [.popped t value] := by
  obtain ⟨q, (_ | value) | _⟩ := r
  · exact .inr ⟨none, rfl, (Prod.mk.inj (Option.some.inj h)).2.symm⟩
  · obtain ⟨threads, -, heq⟩ := Option.map_eq_some_iff.mp h
    exact .inr ⟨some value, rfl, (Prod.mk.inj heq).2.symm⟩
  · obtain ⟨rfl, rfl⟩ := Prod.mk.inj (Option.some.inj h)
    exact .inl ⟨rfl, by simp [Thread.waiting]⟩

/-- A call that does not return at once waits. -/
theorem waiting_of_push (h : step s (.push t v deadline pick) = some (s', evs))
    (hquiet : ∀ e ∈ evs, e.thread ≠ t) : (s'.threads t).waiting = some (some v, deadline) := by
  simp only [step] at h
  split at h
  · obtain ⟨-, hw⟩ | ⟨status, evicted, -, rfl⟩ := afterPush_events h
    · exact hw
    · exact absurd rfl (hquiet _ (List.mem_singleton_self _))
  · cases h

theorem waiting_of_pop (h : step s (.pop t deadline pick) = some (s', evs))
    (hquiet : ∀ e ∈ evs, e.thread ≠ t) : (s'.threads t).waiting = some (none, deadline) := by
  simp only [step] at h
  split at h
  · obtain ⟨-, hw⟩ | ⟨value, -, rfl⟩ := afterPop_events h
    · exact hw
    · exact absurd rfl (hquiet _ (List.mem_singleton_self _))
  · cases h

omit [Fintype ι] in
theorem Transition.pushSection {status : PushStatus} {evicted : Option α}
    (h : Transition s a evs s') (hmem : .pushed t v status evicted ∈ evs) :
    ∃ deadline, PushSection s t v deadline a := by
  cases h with
  | accept hsec | reject hsec =>
      rw [List.mem_singleton, Event.pushed.injEq] at hmem
      obtain ⟨rfl, rfl, -⟩ := hmem
      exact ⟨_, hsec⟩
  | pop | popNone | clear | close | pushSleeps | popSleeps | notify | getUp => simp at hmem

omit [Fintype ι] in
theorem Transition.popSection {value : Option α} (h : Transition s a evs s')
    (hmem : .popped t value ∈ evs) : ∃ deadline, PopSection s t deadline a := by
  cases h with
  | pop hsec | popNone hsec =>
      rw [List.mem_singleton, Event.popped.injEq] at hmem
      obtain ⟨rfl, -⟩ := hmem
      exact ⟨_, hsec⟩
  | accept | reject | clear | close | pushSleeps | popSleeps | notify | getUp => simp at hmem

/-- `Full` comes out of a section of a push that does not wait, or at a reading from its
    deadline on. -/
theorem step_full {evicted : Option α} (h : step s a = some (s', evs))
    (hmem : .pushed t v .full evicted ∈ evs) (now : TimePoint) :
    ∃ deadline, PushSection s t v deadline a ∧
      (deadline = TimePoint.min ∨ deadline ≤ a.reading now) := by
  obtain ⟨deadline, hsec⟩ := (step_transition h).pushSection hmem
  refine ⟨deadline, hsec, ?_⟩
  cases hsec with
  | enter hidle =>
      simp only [step, hidle] at h
      obtain ⟨rfl, -⟩ | ⟨status, evicted', hr, rfl⟩ := afterPush_events h
      · cases hmem
      · cases List.mem_singleton.mp hmem
        exact .inl (min_of_pushUntil hr)
  | @wake w reading pick hth hne =>
      have h : afterPush s t v deadline pick (s.queue.pushWake v deadline reading) =
          some (s', evs) := by
        cases w with
        | asleep => exact absurd rfl hne
        | notified | awake => simpa only [step, hth] using h
      obtain ⟨rfl, -⟩ | ⟨status, evicted', hr, rfl⟩ := afterPush_events h
      · cases hmem
      · cases List.mem_singleton.mp hmem
        exact .inr (le_of_pushWake hr)

/-- Nothing comes out of an open queue in a section of a pop that does not wait, or at a
    reading from its deadline on. -/
theorem step_popped_none (h : step s a = some (s', evs)) (hopen : s.queue.closed = false)
    (hmem : .popped t none ∈ evs) (now : TimePoint) :
    ∃ deadline, PopSection s t deadline a ∧
      (deadline = TimePoint.min ∨ deadline ≤ a.reading now) := by
  obtain ⟨deadline, hsec⟩ := (step_transition h).popSection hmem
  refine ⟨deadline, hsec, ?_⟩
  cases hsec with
  | enter hidle =>
      simp only [step, hidle] at h
      obtain ⟨rfl, -⟩ | ⟨value, hr, rfl⟩ := afterPop_events h
      · cases hmem
      · cases List.mem_singleton.mp hmem
        exact .inl (min_of_popUntil hopen hr)
  | @wake w reading pick hth hne =>
      have h : afterPop s t deadline pick (s.queue.popWake deadline reading) = some (s', evs) := by
        cases w with
        | asleep => exact absurd rfl hne
        | notified | awake => simpa only [step, hth] using h
      obtain ⟨rfl, -⟩ | ⟨value, hr, rfl⟩ := afterPop_events h
      · cases hmem
      · cases List.mem_singleton.mp hmem
        exact .inr (le_of_popWake hopen hr)

end GiveUp

/-! ## Never early -/

/-- An open, full queue. -/
def Full (s : State ι α) : Prop :=
  s.queue.closed = false ∧ s.queue.capacity ≤ s.queue.items.length

/-- An open, empty queue. -/
def Empty (s : State ι α) : Prop := s.queue.closed = false ∧ s.queue.items = []

section NeverEarly

variable [Fintype ι] [DecidableEq ι]

variable (ι α) in
/-- On a `Block` queue that is open and full, and stays so, `push_for` returns `Full`
    only at a reading of at least `now + timeout`. -/
def PushForNeverEarly (now timeout : TimePoint) : Prop :=
  ∀ (capacity : Nat) (as : List (Action ι α)) (tr : List (Event ι α)) (s : State ι α) (t : ι)
    (v : α) (pick : Option ι) (a : Action ι α) (evicted : Option α),
    (machine ι α).Run (.init capacity .block) as tr s →
    (machine ι α).Ends Full (fun e => e.thread = t) s (.pushFor t v now timeout pick) a
      (.pushed t v .full evicted) →
    now.toInt + timeout.toInt ≤ (a.reading now).toInt

variable (ι α) in
/-- On a queue that is open and empty, and stays so, `pop_for` returns nothing only at a
    reading of at least `now + timeout`. -/
def PopForNeverEarly (now timeout : TimePoint) : Prop :=
  ∀ (capacity : Nat) (policy : OverflowPolicy) (as : List (Action ι α)) (tr : List (Event ι α))
    (s : State ι α) (t : ι) (pick : Option ι) (a : Action ι α),
    (machine ι α).Run (.init capacity policy) as tr s →
    (machine ι α).Ends Empty (fun e => e.thread = t) s (.popFor t now timeout pick) a
      (.popped t none) →
    now.toInt + timeout.toInt ≤ (a.reading now).toInt

variable {s s' : State ι α} {a : Action ι α} {t : ι} {v : α} {now timeout : TimePoint}
  {pick : Option ι}

/-- A deadline that did not wrap is not the one that means not to wait, and it compares
    like the sum. -/
theorem le_toInt_of_deadline (hnow : 0 ≤ now) (htimeout : 0 ≤ timeout)
    (hsum : now.toInt + timeout.toInt < 2 ^ 63) {reading : TimePoint}
    (h : now + timeout = TimePoint.min ∨ now + timeout ≤ reading) :
    now.toInt + timeout.toInt ≤ reading.toInt := by
  have hdeadline := toInt_deadline hnow htimeout hsum
  rcases h with hmin | hle
  · have hmin' : TimePoint.min.toInt = -2 ^ 63 := by decide
    rw [hmin, hmin'] at hdeadline
    rw [Int64.le_iff_toInt_le, Int64.toInt_zero] at hnow htimeout
    omega
  · rw [Int64.le_iff_toInt_le, hdeadline] at hle
    exact hle

/-- Whatever the queue does meanwhile, a push whose deadline did not wrap gives up at no
    reading before it. -/
theorem le_reading_of_full {C : State ι α → Prop} {evicted : Option α} (hnow : 0 ≤ now)
    (htimeout : 0 ≤ timeout) (hsum : now.toInt + timeout.toInt < 2 ^ 63)
    (h : (machine ι α).Ends C (fun e => e.thread = t) s (.pushFor t v now timeout pick) a
      (.pushed t v .full evicted)) :
    now.toInt + timeout.toInt ≤ (a.reading now).toInt := by
  refine le_toInt_of_deadline hnow htimeout hsum ?_
  have hends := h.of_invariant (W := fun s => (s.threads t).waiting = some (some v, now + timeout))
    (fun _ hs hquiet => waiting_of_push hs hquiet)
    fun hw _ hs hquiet => (step_transition hs).waiting hquiet hw
  rcases hends with ⟨rfl, -, _, _, hs, hmem⟩ | ⟨s, _, _, hw, -, hs, hmem⟩
  · obtain ⟨_, hsec, hpassed⟩ := step_full (a := .push t v (now + timeout) pick) hs hmem now
    cases hsec with
    | enter => exact hpassed
  · obtain ⟨_, hsec, hpassed⟩ := step_full hs hmem now
    cases hsec with
    | enter hidle => simp [hidle, Thread.waiting] at hw
    | wake hth =>
        rw [hth] at hw
        cases hw
        exact hpassed

/-- So does a pop, as long as nobody closes the queue. -/
theorem le_reading_of_popped_none {C : State ι α → Prop}
    (hopen : ∀ s, C s → s.queue.closed = false) (hnow : 0 ≤ now) (htimeout : 0 ≤ timeout)
    (hsum : now.toInt + timeout.toInt < 2 ^ 63)
    (h : (machine ι α).Ends C (fun e => e.thread = t) s (.popFor t now timeout pick) a
      (.popped t none)) :
    now.toInt + timeout.toInt ≤ (a.reading now).toInt := by
  refine le_toInt_of_deadline hnow htimeout hsum ?_
  have hends := h.of_invariant (W := fun s => (s.threads t).waiting = some (none, now + timeout))
    (fun _ hs hquiet => waiting_of_pop hs hquiet)
    fun hw _ hs hquiet => (step_transition hs).waiting hquiet hw
  rcases hends with ⟨rfl, hC, _, _, hs, hmem⟩ | ⟨s, _, _, hw, hC, hs, hmem⟩
  · obtain ⟨_, hsec, hpassed⟩ :=
      step_popped_none (a := .pop t (now + timeout) pick) hs (hopen _ hC) hmem now
    cases hsec with
    | enter => exact hpassed
  · obtain ⟨_, hsec, hpassed⟩ := step_popped_none hs (hopen _ hC) hmem now
    cases hsec with
    | enter hidle => simp [hidle, Thread.waiting] at hw
    | wake hth =>
        rw [hth] at hw
        cases hw
        exact hpassed

theorem ne_max_of_neg {deadline : TimePoint} (hneg : deadline < 0) :
    deadline ≠ TimePoint.max := by
  rintro rfl
  exact absurd hneg (by decide)

/-- `s` with `t` at another place in its code. -/
def State.setThread (s : State ι α) (t : ι) (th : Thread α) : State ι α :=
  ⟨s.queue, Function.update s.threads t th⟩

/-- A call that falls asleep, gets up at once and gives up there. -/
theorem ends_of_asleep {C : State ι α → Prop} {c : Cond} {th : Thread α} {call : Action ι α}
    {e : Event ι α} (hC : ∀ th, C (s.setThread t th)) (hs : C s)
    (hasleep : th.asleepOn c = true)
    (hcall : (machine ι α).step s call = some (s.setThread t th, []))
    (hresume : (machine ι α).step (s.setThread t (th.getUp .awake)) (.resume t now none) =
      some (s', [e])) (he : e.thread = t) :
    (machine ι α).Ends C (fun e => e.thread = t) s call (.resume t now none) e := by
  have hgetUp : (machine ι α).step (s.setThread t th) (.getUp t) =
      some (s.setThread t (th.getUp .awake), []) := by
    match th, hasleep with
    | .pushing v deadline .asleep, _ => simp [machine, step, State.setThread, Thread.getUp]
    | .popping deadline .asleep, _ => simp [machine, step, State.setThread, Thread.getUp]
  have hquiet : ∀ e ∈ ([] : List (Event ι α)), e.thread ≠ t := by simp
  exact .later (.step (.enter hs hcall hquiet) (hC _) hgetUp hquiet) (hC _) hresume
    (List.mem_singleton_self _) he

/-- A deadline before the epoch: the push gives up while the clock still reads `now`. -/
theorem ends_full_of_neg (hidle : s.threads t = .idle) (hblock : s.queue.policy = .block)
    (hfull : Full s) (hnow : 0 ≤ now) (hneg : now + timeout < 0) (v : α) :
    ∃ a, a.reading now = now ∧
      (machine ι α).Ends Full (fun e => e.thread = t) s (.pushFor t v now timeout none) a
        (.pushed t v .full none) := by
  have hsection : s.queue.pushUntil v (now + timeout) =
      s.queue.pushAfterWait v (.enter false (now + timeout)) :=
    pushUntil_of_full hfull.1 hfull.2 hblock
  have hmax := ne_max_of_neg hneg
  by_cases hmin : now + timeout = TimePoint.min
  · have hcall : (machine ι α).step s (.pushFor t v now timeout none) =
        some (s.setThread t .idle, [.pushed t v .full none]) := by
      simp only [machine, Action.pushFor, step, hidle, hsection, Wait.enter_expired_iff.mpr hmin]
      rfl
    exact ⟨_, rfl, .atOnce hfull hcall (List.mem_singleton_self _) rfl⟩
  · have hcall : (machine ι α).step s (.pushFor t v now timeout none) =
        some (s.setThread t (.pushing v (now + timeout) .asleep), []) := by
      simp only [machine, Action.pushFor, step, hidle, hsection, Wait.enter_eq_sleep hmax hmin]
      rfl
    have hexpired : Wait.wake s.queue.hasSpace (now + timeout) now = .expired :=
      Wait.wake_expired_iff.mpr
        ⟨hasSpace_eq_false.mpr hfull, hmax, Int64.le_of_lt (Int64.lt_of_lt_of_le hneg hnow)⟩
    have hresume : (machine ι α).step (s.setThread t (.pushing v (now + timeout) .awake))
        (.resume t now none) = some (s.setThread t .idle, [.pushed t v .full none]) := by
      simp [machine, step, State.setThread, pushWake, hexpired, pushAfterWait, afterPush,
        PushStatus.accepted]
    exact ⟨_, rfl, ends_of_asleep (c := .notFull) (fun _ => hfull) hfull rfl hcall hresume rfl⟩

theorem ends_none_of_neg (hidle : s.threads t = .idle) (hempty : Empty s) (hnow : 0 ≤ now)
    (hneg : now + timeout < 0) :
    ∃ a, a.reading now = now ∧
      (machine ι α).Ends Empty (fun e => e.thread = t) s (.popFor t now timeout none) a
        (.popped t none) := by
  have hsection : s.queue.popUntil (now + timeout) =
      s.queue.popAfterWait (.enter false (now + timeout)) :=
    popUntil_of_empty hempty.1 hempty.2
  have hmax := ne_max_of_neg hneg
  by_cases hmin : now + timeout = TimePoint.min
  · have hcall : (machine ι α).step s (.popFor t now timeout none) =
        some (s.setThread t .idle, [.popped t none]) := by
      simp only [machine, Action.popFor, step, hidle, hsection, Wait.enter_expired_iff.mpr hmin]
      rfl
    exact ⟨_, rfl, .atOnce hempty hcall (List.mem_singleton_self _) rfl⟩
  · have hcall : (machine ι α).step s (.popFor t now timeout none) =
        some (s.setThread t (.popping (now + timeout) .asleep), []) := by
      simp only [machine, Action.popFor, step, hidle, hsection, Wait.enter_eq_sleep hmax hmin]
      rfl
    have hexpired : Wait.wake s.queue.hasItem (now + timeout) now = .expired :=
      Wait.wake_expired_iff.mpr
        ⟨hasItem_eq_false.mpr hempty, hmax, Int64.le_of_lt (Int64.lt_of_lt_of_le hneg hnow)⟩
    have hresume : (machine ι α).step (s.setThread t (.popping (now + timeout) .awake))
        (.resume t now none) = some (s.setThread t .idle, [.popped t none]) := by
      simp [machine, step, State.setThread, popWake, hexpired, popAfterWait, afterPop]
    exact ⟨_, rfl, ends_of_asleep (c := .notEmpty) (fun _ => hempty) hempty rfl hcall hresume rfl⟩

/-- One push fills a queue of one. -/
theorem exists_full (t : ι) (v : α) :
    ∃ as tr s, (machine ι α).Run (.init 1 .block) as tr s ∧ s.threads t = .idle ∧
      s.queue.policy = .block ∧ Full s := by
  have hpush : (machine ι α).step (.init 1 .block) (.push t v TimePoint.max none) =
      some (⟨(BoundedQueue.new 1 .block).accept v, fun _ => .idle⟩, [.pushed t v .ok none]) := by
    simp [machine, step, State.init, pushUntil, BoundedQueue.new, afterPush, PushStatus.accepted,
      notifyOne, Thread.asleepOn]
  exact ⟨_, _, _, Machine.Run.snoc .nil hpush, rfl, rfl, rfl, Nat.le_refl _⟩

theorem pushForNeverEarly_iff [Nonempty ι] [Nonempty α] (hnow : 0 ≤ now)
    (htimeout : 0 ≤ timeout) :
    PushForNeverEarly ι α now timeout ↔ now.toInt + timeout.toInt < 2 ^ 63 := by
  constructor
  · intro h
    by_contra hsum
    have hneg := deadline_neg (Int.not_lt.mp hsum)
    obtain ⟨t⟩ := ‹Nonempty ι›
    obtain ⟨v⟩ := ‹Nonempty α›
    obtain ⟨as, tr, s, hrun, hidle, hblock, hfull⟩ := exists_full t v
    obtain ⟨a, hreading, hends⟩ := ends_full_of_neg hidle hblock hfull hnow hneg v
    have hle := h 1 as tr s t v none a none hrun hends
    have hlt := now.toInt_lt
    rw [hreading] at hle
    omega
  · intro hsum capacity as tr s t v pick a evicted _ hends
    exact le_reading_of_full hnow htimeout hsum hends

theorem popForNeverEarly_iff [Nonempty ι] (hnow : 0 ≤ now) (htimeout : 0 ≤ timeout) :
    PopForNeverEarly ι α now timeout ↔ now.toInt + timeout.toInt < 2 ^ 63 := by
  constructor
  · intro h
    by_contra hsum
    have hneg := deadline_neg (Int.not_lt.mp hsum)
    obtain ⟨t⟩ := ‹Nonempty ι›
    have hempty : Empty (State.init 1 .block : State ι α) := ⟨rfl, rfl⟩
    obtain ⟨a, hreading, hends⟩ := ends_none_of_neg (t := t) rfl hempty hnow hneg
    have hle := h 1 .block [] [] _ t none a .nil hends
    have hlt := now.toInt_lt
    rw [hreading] at hle
    omega
  · intro hsum capacity policy as tr s t pick a _ hends
    exact le_reading_of_popped_none (fun _ hC => hC.1) hnow htimeout hsum hends

/-- **Timed calls do not give up early, unless the deadline wraps.** A `push_for` on a
    full queue and a `pop_for` on an empty one wait at least until `now + timeout`
    exactly when that is a 64-bit count; from `2^63` on both can give up at once. -/
theorem never_early_iff [Nonempty ι] [Nonempty α] (hnow : 0 ≤ now) (htimeout : 0 ≤ timeout) :
    (PushForNeverEarly ι α now timeout ↔ now.toInt + timeout.toInt < 2 ^ 63) ∧
      (PopForNeverEarly ι α now timeout ↔ now.toInt + timeout.toInt < 2 ^ 63) :=
  ⟨pushForNeverEarly_iff hnow htimeout, popForNeverEarly_iff hnow htimeout⟩

/-- A timeout of 100 ms, one second after boot. -/
theorem never_early_iff_default : PushForNeverEarly (Fin 2) Nat 1000000000 100000000 :=
  (never_early_iff (by decide) (by decide)).1.mpr (by decide)

/-- The greatest timeout there is, one nanosecond after boot, wraps to
    `time_point::min()`. -/
theorem greatest_timeout_early :
    ¬ PushForNeverEarly (Fin 2) Nat 1 Int64.maxValue ∧
      ¬ PopForNeverEarly (Fin 2) Nat 1 Int64.maxValue := by
  rw [pushForNeverEarly_iff (by decide) (by decide), popForNeverEarly_iff (by decide) (by decide)]
  decide

end NeverEarly

end QueueThreads

end Rdb
