-- SUMMARY: No wake-up of the bounded queue is lost: whoever sleeps for something that is there has a wake-up on its way.
import Rdb.Lib.ThreadSum
import Rdb.Concurrency.QueueThreads

/-!
# No lost wake-up

A push notifies one consumer and a pop one producer, and a thread that has been
notified can find its item or slot taken and go back to sleep. The invariant
counts: as long as anybody sleeps on a condition variable, at least as many
threads have been notified on it as there are slots, or items, to be had.
-/

namespace Rdb

namespace QueueThreads

open BoundedQueue

variable {ι α : Type*}

/-! ## Notified threads -/

/-- The thread has been notified on `c` and has yet to take the lock. -/
def Thread.notifiedOn (c : Cond) : Thread α → Bool
  | .pushing _ _ .notified => c == .notFull
  | .popping _ .notified   => c == .notEmpty
  | _                      => false

/-- How much there is of what a waiter on `c` waits for: free slots, or items. -/
def available (c : Cond) (q : BoundedQueue α) : Nat :=
  match c with
  | .notFull  => q.capacity - q.items.length
  | .notEmpty => q.items.length

/-- How many threads have been notified on `c`. -/
def notified [Fintype ι] (c : Cond) (threads : ι → Thread α) : Nat :=
  ThreadSum.count (Thread.notifiedOn c) threads

section Waiters

variable {th : Thread α} {c c' : Cond}

theorem Thread.notifiedOn_of_asleepOn (h : th.asleepOn c = true) : th.notifiedOn c' = false := by
  rcases th with _ | ⟨v, deadline, _ | _ | _⟩ | ⟨deadline, _ | _ | _⟩ | pending <;>
    simp_all [Thread.asleepOn, Thread.notifiedOn]

@[simp] theorem Thread.asleepOn_getUp_notified : (th.getUp .notified).asleepOn c = false := by
  cases th <;> rfl

@[simp] theorem Thread.asleepOn_getUp_awake : (th.getUp .awake).asleepOn c = false := by
  cases th <;> rfl

theorem Thread.notifiedOn_getUp (h : th.asleepOn c = true) :
    (th.getUp .notified).notifiedOn c' = (c' == c) := by
  rcases th with _ | ⟨v, deadline, _ | _ | _⟩ | ⟨deadline, _ | _ | _⟩ | pending <;>
    simp_all [Thread.asleepOn, Thread.notifiedOn, Thread.getUp]

end Waiters

/-! ## What a notification does to the others -/

section Notify

variable {s : State ι α} {a : Action ι α} {threads threads' : ι → Thread α} {c c' : Cond} {t : ι}
  {v : α} {deadline : TimePoint}

theorem PushSection.notifiedOn_notEmpty (h : PushSection s t v deadline a) :
    (s.threads t).notifiedOn .notEmpty = false := by
  cases h with
  | enter hth => simp [hth, Thread.notifiedOn]
  | @wake w _ _ hth => cases w <;> simp [hth, Thread.notifiedOn]

theorem PopSection.notifiedOn_notFull (h : PopSection s t deadline a) :
    (s.threads t).notifiedOn .notFull = false := by
  cases h with
  | enter hth => simp [hth, Thread.notifiedOn]
  | @wake w _ _ hth => cases w <;> simp [hth, Thread.notifiedOn]

theorem PushSection.ne_closing (h : PushSection s t v deadline a) (pending : List Cond) :
    s.threads t ≠ .closing pending := by
  cases h with
  | enter hth | wake hth => simp [hth]

theorem PopSection.ne_closing (h : PopSection s t deadline a) (pending : List Cond) :
    s.threads t ≠ .closing pending := by
  cases h with
  | enter hth | wake hth => simp [hth]

theorem notifyAll_asleep_sub (i : ι) (hi : (notifyAll c threads i).asleepOn c' = true) :
    (threads i).asleepOn c' = true := by
  unfold notifyAll at hi
  split at hi
  · simp at hi
  · exact hi

theorem notifyAll_asleep_self (i : ι) : (notifyAll c threads i).asleepOn c = false := by
  unfold notifyAll
  split
  · simp
  · rename_i hi
    simpa using hi

theorem notifyAll_closing {i : ι} {pending : List Cond} (hi : threads i = .closing pending) :
    notifyAll c threads i = .closing pending := by
  simp [notifyAll, hi, Thread.asleepOn]

theorem notifyAll_notifiedOn (i : ι) (hi : (threads i).notifiedOn c' = true) :
    (notifyAll c threads i).notifiedOn c' = true := by
  unfold notifyAll
  split
  · rename_i hasleep
    simp [Thread.notifiedOn_of_asleepOn hasleep] at hi
  · exact hi

variable [DecidableEq ι]

theorem asleep_update_sub {th : Thread α} (hth : th.asleepOn c = false) (i : ι)
    (hi : (Function.update threads t th i).asleepOn c = true) :
    (threads i).asleepOn c = true := by
  by_cases hit : i = t
  · subst hit
    simp [hth] at hi
  · rwa [Function.update_of_ne hit] at hi

theorem closing_update {th : Thread α} (hne : ∀ pending, threads t ≠ .closing pending) (i : ι)
    (pending : List Cond) (hi : threads i = .closing pending) :
    Function.update threads t th i = .closing pending := by
  have hit : i ≠ t := by
    rintro rfl
    exact hne pending hi
  rw [Function.update_of_ne hit, hi]

theorem NotifiedOne.asleep_sub (h : NotifiedOne c threads threads') (i : ι)
    (hi : (threads' i).asleepOn c' = true) : (threads i).asleepOn c' = true := by
  cases h with
  | nobody => exact hi
  | moved => exact asleep_update_sub Thread.asleepOn_getUp_notified i hi

theorem NotifiedOne.closing_eq (h : NotifiedOne c threads threads') {i : ι} {pending : List Cond}
    (hi : threads i = .closing pending) : threads' i = .closing pending := by
  cases h with
  | nobody => exact hi
  | @moved j hj =>
      have hij : i ≠ j := by
        rintro rfl
        simp [hi, Thread.asleepOn] at hj
      rw [Function.update_of_ne hij, hi]

variable [Fintype ι]

variable (c threads) in
theorem notified_update (t : ι) (th : Thread α) :
    notified c (Function.update threads t th) + ((threads t).notifiedOn c).toNat =
      notified c threads + (th.notifiedOn c).toNat :=
  ThreadSum.count_update _ threads t th

/-- A sleeper on `c` that is notified is one more notified on `c`, and nobody else. -/
theorem notified_moved {j : ι} (hj : (threads j).asleepOn c = true) :
    notified c' (Function.update threads j ((threads j).getUp .notified)) =
      notified c' threads + (c' == c).toNat := by
  have hcount := notified_update threads c' j ((threads j).getUp .notified)
  rwa [Thread.notifiedOn_of_asleepOn hj, Thread.notifiedOn_getUp hj] at hcount

theorem NotifiedOne.notified_other (h : NotifiedOne c threads threads') (hne : c' ≠ c) :
    notified c' threads' = notified c' threads := by
  cases h with
  | nobody => rfl
  | moved hj => rw [notified_moved hj, beq_false_of_ne hne, Bool.toNat_false, Nat.add_zero]

/-- Either nobody is left asleep, or one more thread is notified. -/
theorem NotifiedOne.notified_self (h : NotifiedOne c threads threads') :
    (∀ i, (threads' i).asleepOn c = false) ∨ notified c threads' = notified c threads + 1 := by
  cases h with
  | nobody hnone => exact .inl hnone
  | moved hj =>
      right
      rw [notified_moved hj, beq_self_eq_true, Bool.toNat_true]

end Notify

/-! ## The invariant -/

section Invariant

variable [Fintype ι]

/-- Nobody sleeps on `c`, or enough threads have been notified on it. -/
def Covered (c : Cond) (q : BoundedQueue α) (threads : ι → Thread α) : Prop :=
  (∀ i, (threads i).asleepOn c = false) ∨ available c q ≤ notified c threads

/-- Every sleeper of an open queue is covered; every sleeper of a closed one has
    the notification of a `close` still to come. -/
structure Attended (s : State ι α) : Prop where
  covered : s.queue.closed = false → ∀ c, Covered c s.queue s.threads
  closing : s.queue.closed = true → ∀ c i, (s.threads i).asleepOn c = true →
    ∃ t pending, s.threads t = .closing pending ∧ c ∈ pending

variable {q q' : BoundedQueue α} {threads threads' : ι → Thread α} {c : Cond}

/-- Nobody goes to sleep, and what becomes available is matched by threads that
    are notified. -/
theorem Covered.of_le (h : Covered c q threads)
    (hsub : ∀ i, (threads' i).asleepOn c = true → (threads i).asleepOn c = true)
    (hle : available c q' + notified c threads ≤ available c q + notified c threads') :
    Covered c q' threads' := by
  rcases h with hnone | henough
  · left
    intro i
    cases hi : (threads' i).asleepOn c with
    | false => rfl
    | true => simpa [hnone i] using hsub i hi
  · right
    omega

theorem Covered.of_unavailable (h : available c q = 0) : Covered c q threads :=
  .inr (h ▸ Nat.zero_le _)

variable {s s' : State ι α}

/-- Nobody goes to sleep and nobody ends its `close`. -/
theorem Attended.closing_of_sub (h : Attended s) {q : BoundedQueue α}
    (hclosed : s.queue.closed = q.closed)
    (hsub : ∀ c i, (threads' i).asleepOn c = true → (s.threads i).asleepOn c = true)
    (hkeep : ∀ i pending, s.threads i = .closing pending → threads' i = .closing pending)
    (hq : q.closed = true) (c : Cond) (i : ι) (hi : (threads' i).asleepOn c = true) :
    ∃ t pending, threads' t = .closing pending ∧ c ∈ pending := by
  obtain ⟨t, pending, ht, hc⟩ := h.closing (hclosed.trans hq) c i (hsub c i hi)
  exact ⟨t, pending, hkeep t pending ht, hc⟩

variable [DecidableEq ι] {a : Action ι α} {evs : List (Event ι α)} {t : ι}

/-- Leaving a call costs at most the thread's own notification. -/
theorem notified_leave (c : Cond) (threads : ι → Thread α) (t : ι) :
    notified c (Function.update threads t .idle) + ((threads t).notifiedOn c).toNat =
      notified c threads :=
  notified_update threads c t .idle

/-- A section that makes one more of what `c` waits for and then notifies `c`. -/
theorem Covered.provide (h : Covered c q threads)
    (hown : (threads t).notifiedOn c = false) (hle : available c q' ≤ available c q + 1)
    (hone : NotifiedOne c (Function.update threads t .idle) threads') :
    Covered c q' threads' := by
  have hleave := notified_leave c threads t
  rw [hown, Bool.toNat_false, Nat.add_zero] at hleave
  rcases hone.notified_self with hnone | hmore
  · exact .inl hnone
  · refine h.of_le ?_ (by omega)
    intro i hi
    exact asleep_update_sub rfl i (hone.asleep_sub i hi)

/-- A section that takes one of what `c` waits for, and notifies the other
    condition variable. -/
theorem Covered.consume {c' : Cond} (h : Covered c q threads) (hne : c ≠ c')
    (hlt : available c q' + 1 ≤ available c q)
    (hone : NotifiedOne c' (Function.update threads t .idle) threads') :
    Covered c q' threads' := by
  have hleave := notified_leave c threads t
  have hother := hone.notified_other hne
  have hbool := Bool.toNat_le ((threads t).notifiedOn c)
  refine h.of_le ?_ (by omega)
  intro i hi
  exact asleep_update_sub rfl i (hone.asleep_sub i hi)

/-- A section that leaves what `c` waits for alone, in a thread that was not
    notified on `c`, and ends with the thread in `th`. -/
theorem Covered.unrelated {th : Thread α} (h : Covered c q threads)
    (hown : (threads t).notifiedOn c = false) (hth : th.asleepOn c = false)
    (heq : available c q' = available c q) :
    Covered c q' (Function.update threads t th) := by
  have hcount := notified_update threads c t th
  rw [hown, Bool.toNat_false, Nat.add_zero] at hcount
  exact h.of_le (asleep_update_sub hth) (by omega)

/-- A step of an open queue keeps its sleepers covered. -/
theorem Transition.covered (h : Transition s a evs s')
    (hcov : ∀ c, Covered c s.queue s.threads) (hopen : s'.queue.closed = false) (c : Cond) :
    Covered c s'.queue s'.threads := by
  cases h with
  | accept hsec heff hacc hone =>
      cases heff with
      | ok _ hroom =>
          cases c with
          | notFull =>
              refine (hcov .notFull).consume (by decide) ?_ hone
              simp only [available, BoundedQueue.accept, List.length_append, List.length_singleton]
              omega
          | notEmpty =>
              refine (hcov .notEmpty).provide hsec.notifiedOn_notEmpty ?_ hone
              simp [available, BoundedQueue.accept]
      | droppedOldest _ hfull _ hitems =>
          -- the queue stays full: nobody needs a slot's notification
          cases c with
          | notFull =>
              refine .of_unavailable ?_
              simpa [available, hitems, Nat.sub_eq_zero_iff_le] using hfull
          | notEmpty =>
              refine (hcov .notEmpty).provide hsec.notifiedOn_notEmpty ?_ hone
              simp [available, hitems]
      | closed | droppedNewest | full => simp [PushStatus.accepted] at hacc
  | reject hsec heff hacc =>
      cases c with
      | notFull =>
          refine .of_unavailable ?_
          cases heff with
          | closed hclosed => simp [hclosed] at hopen
          | droppedNewest _ hfull => exact Nat.sub_eq_zero_of_le hfull
          | full _ hfull => exact Nat.sub_eq_zero_of_le hfull
          | droppedOldest | ok => simp [PushStatus.accepted] at hacc
      | notEmpty =>
          refine (hcov .notEmpty).unrelated hsec.notifiedOn_notEmpty rfl ?_
          simp [available, heff.items_eq_of_rejected hacc]
  | pushSleeps hsec _ hfull =>
      cases c with
      | notFull => exact .of_unavailable (Nat.sub_eq_zero_of_le hfull)
      | notEmpty => exact (hcov .notEmpty).unrelated hsec.notifiedOn_notEmpty rfl rfl
  | pop hsec hitems hone =>
      cases c with
      | notFull =>
          refine (hcov .notFull).provide hsec.notifiedOn_notFull ?_ hone
          simp only [available, hitems, List.length_cons]
          omega
      | notEmpty =>
          refine (hcov .notEmpty).consume (by decide) ?_ hone
          simp [available, hitems]
  | popNone hsec hitems =>
      cases c with
      | notFull => exact (hcov .notFull).unrelated hsec.notifiedOn_notFull rfl rfl
      | notEmpty => exact .of_unavailable (by simp [available, hitems])
  | popSleeps hsec hitems =>
      cases c with
      | notFull => exact (hcov .notFull).unrelated hsec.notifiedOn_notFull rfl rfl
      | notEmpty => exact .of_unavailable (by simp [available, hitems])
  | clear =>
      cases c with
      | notFull => exact .inl notifyAll_asleep_self
      | notEmpty => exact .of_unavailable rfl
  | close => simp [BoundedQueue.close] at hopen
  | @notify t c' pending _ hth =>
      refine (hcov c).of_le ?_ (Nat.add_le_add_left ?_ _)
      · intro i hi
        exact notifyAll_asleep_sub i (asleep_update_sub (by split <;> rfl) i hi)
      · refine ThreadSum.count_mono fun i hi => ?_
        have hit : i ≠ t := by
          rintro rfl
          simp [hth, Thread.notifiedOn] at hi
        simpa [Function.update_of_ne hit] using notifyAll_notifiedOn i hi
  | getUp _ hasleep =>
      exact (hcov c).unrelated (Thread.notifiedOn_of_asleepOn hasleep)
        Thread.asleepOn_getUp_awake rfl

theorem Transition.closing (h : Transition s a evs s') (hatt : Attended s)
    (hclosed : s'.queue.closed = true) :
    ∀ c i, (s'.threads i).asleepOn c = true →
      ∃ t pending, s'.threads t = .closing pending ∧ c ∈ pending := by
  cases h with
  | accept hsec heff _ hone =>
      refine hatt.closing_of_sub heff.capacity_eq.2.2.symm ?_ ?_ hclosed
      · intro c i hi
        exact asleep_update_sub rfl i (hone.asleep_sub i hi)
      · intro i pending hi
        exact hone.closing_eq (closing_update hsec.ne_closing i pending hi)
  | reject hsec heff =>
      exact hatt.closing_of_sub heff.capacity_eq.2.2.symm (fun _ => asleep_update_sub rfl)
        (closing_update hsec.ne_closing) hclosed
  | pop hsec _ hone =>
      refine hatt.closing_of_sub rfl ?_ ?_ hclosed
      · intro c i hi
        exact asleep_update_sub rfl i (hone.asleep_sub i hi)
      · intro i pending hi
        exact hone.closing_eq (closing_update hsec.ne_closing i pending hi)
  | popNone hsec =>
      exact hatt.closing_of_sub rfl (fun _ => asleep_update_sub rfl)
        (closing_update hsec.ne_closing) hclosed
  -- only an open queue puts a thread to sleep
  | pushSleeps _ hopen => simp [hopen] at hclosed
  | popSleeps _ _ hopen => simp [hopen] at hclosed
  | clear =>
      exact hatt.closing_of_sub rfl (fun _ => notifyAll_asleep_sub)
        (fun _ _ => notifyAll_closing) hclosed
  | @close t =>
      intro c i _
      exact ⟨t, [.notEmpty, .notFull], Function.update_self .., by cases c <;> simp⟩
  | @notify t c' pending _ hth =>
      intro c i hi
      have hi' := asleep_update_sub (by split <;> rfl) i hi
      have hne : c ≠ c' := by
        rintro rfl
        simp [notifyAll_asleep_self] at hi'
      obtain ⟨u, pending', hu, hc⟩ := hatt.closing hclosed c i (notifyAll_asleep_sub i hi')
      by_cases hut : u = t
      · -- the notifying thread itself still has `c` to come
        subst hut
        rw [hth, Thread.closing.injEq] at hu
        subst hu
        have hrest : c ∈ pending := by simpa [hne] using hc
        refine ⟨u, pending, ?_, hrest⟩
        simp [List.ne_nil_of_mem hrest]
      · refine ⟨u, pending', ?_, hc⟩
        simpa [Function.update_of_ne hut] using notifyAll_closing hu
  | getUp _ hasleep =>
      refine hatt.closing_of_sub rfl (fun _ => asleep_update_sub Thread.asleepOn_getUp_awake)
        (closing_update ?_) hclosed
      intro pending hth
      simp [hth, Thread.asleepOn] at hasleep

/-- Every state that threads reach on a queue is attended. -/
theorem attended_of_run {capacity : Nat} {policy : OverflowPolicy} {as : List (Action ι α)}
    {tr : List (Event ι α)} (h : (machine ι α).Run (.init capacity policy) as tr s) :
    Attended s := by
  refine Machine.Run.invariant (I := fun _ s => Attended s) h ?_ ?_
  · exact ⟨fun _ _ => .inl fun _ => rfl,
      fun _ _ _ hi => by simp [State.init, Thread.asleepOn] at hi⟩
  · intro _ s a s' evs hatt hstep
    have htr := step_transition hstep
    refine ⟨fun hopen => htr.covered (hatt.covered ?_) hopen, htr.closing hatt⟩
    cases hclosed : s.queue.closed with
    | false => rfl
    | true => exact (htr.effect.closed_mono hclosed).symm.trans hopen

/-- **No wake-up is lost.** In every state that any interleaving of threads
    reaches and in which no `close` is short of its notifications: while the queue
    is open, nobody sleeps on a condition variable on which fewer threads have
    been notified than there are slots, or items, to be had; once it is closed
    nobody sleeps at all. So whoever sleeps for something that is there has a
    wake-up on its way. -/
theorem no_lost_wakeup {capacity : Nat} {policy : OverflowPolicy} {as : List (Action ι α)}
    {tr : List (Event ι α)} (h : (machine ι α).Run (.init capacity policy) as tr s)
    (hnotified : ∀ t pending, s.threads t ≠ .closing pending) :
    (s.queue.closed = false →
      ((∀ t, (s.threads t).asleepOn .notFull = false) ∨
        s.queue.capacity - s.queue.items.length ≤ notified .notFull s.threads) ∧
      ((∀ t, (s.threads t).asleepOn .notEmpty = false) ∨
        s.queue.items.length ≤ notified .notEmpty s.threads)) ∧
    (s.queue.closed = true → ∀ t c, (s.threads t).asleepOn c = false) ∧
    (∀ t c, (s.threads t).asleepOn c = true → s.queue.closed = true ∨ 0 < available c s.queue →
      ∃ u, (s.threads u).notifiedOn c = true) := by
  have hatt := attended_of_run h
  have hclosed : s.queue.closed = true → ∀ t c, (s.threads t).asleepOn c = false := by
    intro hclosed t c
    by_contra hasleep
    rw [Bool.not_eq_false] at hasleep
    obtain ⟨u, pending, hu, -⟩ := hatt.closing hclosed c t hasleep
    exact hnotified u pending hu
  refine ⟨fun hopen => ⟨hatt.covered hopen .notFull, hatt.covered hopen .notEmpty⟩, hclosed, ?_⟩
  intro t c hasleep hthere
  cases hq : s.queue.closed with
  | true => simp [hclosed hq t c] at hasleep
  | false =>
      rcases hatt.covered hq c with hnone | henough
      · simp [hnone t] at hasleep
      · have hpos : 0 < available c s.queue := by simpa [hq] using hthere
        exact ThreadSum.count_pos_iff.mp (hpos.trans_le henough)

/-- A consumer sleeps on an empty queue, and so does a second one; the push that
    comes notifies one of them. -/
theorem no_lost_wakeup_two_consumers :
    ∃ tr s, (machine (Fin 3) Nat).Run (.init 2 .block)
        [.pop 0 TimePoint.max none, .pop 1 TimePoint.max none,
          .push 2 7 TimePoint.max (some 0)] tr s ∧
      s.queue.items = [7] ∧ (s.threads 1).asleepOn .notEmpty = true ∧
      ∃ u, (s.threads u).notifiedOn .notEmpty = true := by
  refine ⟨_, _, .of_isSome _ _ _ (by decide), by decide, by decide, ?_⟩
  refine (no_lost_wakeup (.of_isSome _ _ _ _) ?_).2.2 1 .notEmpty (by decide) (.inr (by decide))
  intro t pending
  match t with
  | 0 | 1 | 2 => nofun

end Invariant

end QueueThreads

end Rdb
