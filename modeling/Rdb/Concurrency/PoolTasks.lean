-- SUMMARY: What becomes of the tasks a pool accepts: each is run once or discarded, and none stays behind for ever.
import Rdb.Concurrency.PoolProgress

/-!
# The fate of accepted tasks

A task that was handed in with success is run to its end once, or thrown away by the
`clear` of a `stop(false)`. Either settles the future that `submit` returned. While the
pool is not stopped, a task gets its turn if tasks return and do not wait for the pool
themselves.
-/

namespace Rdb

namespace QueueThreads

variable {ι α : Type*}

/-- The values that a `clear` threw away. -/
def Event.discarded : Event ι α → List α
  | .cleared _ values => values
  | .pushed _ _ _ _ | .popped _ _ | .closed _ => []

def discarded (tr : List (Event ι α)) : List α := tr.flatMap Event.discarded

@[simp] theorem discarded_append (tr tr' : List (Event ι α)) :
    discarded (tr ++ tr') = discarded tr ++ discarded tr' := by simp [discarded]

/-- The thread waits in a push. -/
def Thread.isPushing : Thread α → Bool
  | .pushing _ _ _ => true
  | _              => false

/-- Who sleeps for space is in a push. -/
theorem Thread.isPushing_of_asleep {th : Thread α} (h : th.asleepOn .notFull = true) :
    th.isPushing = true := by
  cases th with
  | pushing => rfl
  | popping deadline x => cases x <;> cases h
  | idle | closing => cases h

theorem PushSection.isPushing {s : State ι α} {t : ι} {v : α} {deadline now : TimePoint}
    {pick : Option ι} (h : PushSection s t v deadline (.resume t now pick)) :
    (s.threads t).isPushing = true := by
  cases h with
  | wake hth => rw [hth]; rfl

/-- Where nothing is evicted, values leave through pops and clears. -/
theorem left_eq_add {tr : List (Event ι α)}
    (hevict : ∀ t v status evicted, .pushed t v status evicted ∈ tr → evicted = none) :
    (left tr : Multiset α) = popped tr + discarded tr := by
  induction tr with
  | nil => rfl
  | cons e tr ih =>
      have hrest := ih fun t v status evicted hmem =>
        hevict t v status evicted (List.mem_cons_of_mem _ hmem)
      have hhead : (e.left : Multiset α) = e.returned + e.discarded := by
        cases e with
        | pushed t v status evicted =>
            obtain rfl := hevict t v status evicted List.mem_cons_self
            rfl
        | popped | cleared => simp [Event.left, Event.returned, Event.discarded]
        | closed => rfl
      calc (left (e :: tr) : Multiset α)
          = e.left + left tr := (Multiset.coe_add _ _).symm
        _ = (e.returned + popped tr) + (e.discarded + discarded tr) := by rw [hhead, hrest]; abel
        _ = popped (e :: tr) + discarded (e :: tr) := by
          rw [Multiset.coe_add, Multiset.coe_add]
          rfl

end QueueThreads

namespace ThreadPool

open QueueThreads (Thread)

variable {ι α : Type*} {n : Nat}

/-! ## Run once or discarded -/

/-- The tasks that a `stop(false)` threw away. -/
def discarded (tr : List (Event ι α n)) : List α := QueueThreads.discarded (queueEvents tr)

@[simp] theorem discarded_append (tr tr' : List (Event ι α n)) :
    discarded (tr ++ tr') = discarded tr ++ discarded tr' := by simp [discarded]

section Accounting

variable [DecidableEq ι] {tr : List (Event ι α n)} {s : State ι α n}

variable [Fintype ι] {threads capacity : Nat} {as : List (Action ι α (threadCount threads))}
  {tr : List (Event ι α (threadCount threads))} {s : State ι α (threadCount threads)}

end Accounting

/-! ## Somebody is up for a queued task -/

/-- While there are tasks, a worker is up. -/
def Attentive (s : State ι α n) : Prop :=
  s.tasks.queue.items ≠ [] →
    ∃ w, s.workers w ≠ .exited ∧ (s.tasks.threads (.inr w)).asleepOn .notEmpty = false

/-- The tasks neither wait for space in the queue of their own pool nor stop it. -/
def Plain (s : State ι α n) : Prop :=
  ∀ w, s.stops (.inr w) = .outside ∧ (s.tasks.threads (.inr w)).isPushing = false

section Attention

variable [DecidableEq ι] [Fintype ι] {s s' : State ι α n} {a : Action ι α n}
  {tr evs : List (Event ι α n)} {w : Fin n}

omit [DecidableEq ι] in
theorem Known.ne_exited (h : Known tr s) (hitems : s.tasks.queue.items ≠ []) (w : Fin n) :
    s.workers w ≠ .exited :=
  fun hw => hitems (h.sound.stopped.exited w hw).2

omit [DecidableEq ι] in
/-- On an open queue a worker has been notified for each task, or nobody sleeps. -/
theorem Known.attentive_of_open [NeZero n] (h : Known tr s)
    (hopen : s.tasks.queue.closed = false) : Attentive s := by
  intro hitems
  rcases h.attended.covered hopen .notEmpty with hnone | henough
  · exact ⟨0, h.ne_exited hitems 0, hnone _⟩
  · have hpos : 0 < QueueThreads.notified .notEmpty s.tasks.threads :=
      (List.length_pos_iff.mpr hitems).trans_le henough
    obtain ⟨t, ht⟩ := ThreadSum.count_pos_iff.mp hpos
    cases hth : s.tasks.threads t with
    | popping deadline x =>
        obtain ⟨-, w, rfl, -⟩ := h.pop t deadline (by rw [hth]; rfl)
        refine ⟨w, h.ne_exited hitems w, ?_⟩
        rw [hth] at ht ⊢
        cases x with
        | asleep => cases ht
        | notified | awake => rfl
    | pushing v deadline x =>
        rw [hth] at ht
        cases x <;> cases ht
    | idle | closing =>
        rw [hth] at ht
        cases ht

omit [DecidableEq ι] [Fintype ι] in
/-- Closing leaves the items alone. -/
theorem items_eq_of_closing {q q' : BoundedQueue α}
    {qevs : List (QueueThreads.Event (ι ⊕ Fin n) α)} (h : QueueThreads.Effect q qevs q')
    (hopen : q.closed = false) (hclosed : q'.closed = true) : q'.items = q.items := by
  cases h with
  | push hp => cases hopen.symm.trans (hp.capacity_eq.2.2.symm.trans hclosed)
  | pop hp => cases hopen.symm.trans (hp.capacity_eq.2.2.1.symm.trans hclosed)
  | clear | quiet => cases hopen.symm.trans hclosed
  | close => rfl

omit [Fintype ι] in
/-- Nobody falls asleep while there is a task. -/
theorem Transition.asleep_sub (h : Transition s a evs s') (hitems : s.tasks.queue.items ≠ [])
    {t : ι ⊕ Fin n} (ht : (s'.tasks.threads t).asleepOn .notEmpty = true) :
    (s.tasks.threads t).asleepOn .notEmpty = true := by
  have hready : 0 < QueueThreads.available .notEmpty s.tasks.queue :=
    List.length_pos_iff.mpr hitems
  cases h with
  | queue _ _ htr | start _ htr | exit _ htr => exact htr.asleep_sub (.inr hready) ht
  | finish | count | stopLost | stopWon | join | stopReturned | joinSelf => exact ht

theorem Attentive.step [NeZero n] (hs : Attentive s) (h : Known tr s)
    (hstep : ThreadPool.step s a = some (s', evs)) : Attentive s' := by
  have htr := step_transition h.pop hstep
  have h' := h.step hstep
  cases hclosed : s'.tasks.queue.closed with
  | false => exact h'.attentive_of_open hclosed
  | true =>
      intro hitems'
      have hitems : s.tasks.queue.items ≠ [] := by
        intro hnil
        refine hitems' ?_
        cases hopen : s.tasks.queue.closed with
        | true => exact htr.effect.items_eq_nil hopen hnil
        | false => rw [items_eq_of_closing htr.effect hopen hclosed, hnil]
      obtain ⟨w, -, hup⟩ := hs hitems
      refine ⟨w, h'.ne_exited hitems' w, ?_⟩
      by_contra hasleep
      rw [Bool.not_eq_false] at hasleep
      cases hup.symm.trans (htr.asleep_sub hitems hasleep)

end Attention

/-! ## Queued tasks leave the queue -/

/-- The steps that a worker is short of before it is back at the top of its loop. -/
def Worker.busy : Worker α → Nat
  | .running _ => 2
  | .counting  => 1
  | .looping | .exited => 0

/-- What has not left of the first `goal` tasks, and what the workers are short of. -/
def toLeave (goal : Nat) (p : State ι α n × List (Event ι α n)) : Nat :=
  3 * (goal - (QueueThreads.left (queueEvents p.2)).length) + ∑ w, (p.1.workers w).busy

def Left (goal : Nat) (p : State ι α n × List (Event ι α n)) : Prop :=
  goal ≤ (QueueThreads.left (queueEvents p.2)).length

section Leaving

variable [DecidableEq ι] [Fintype ι]

/-- What is known while some of the first `goal` tasks are queued. -/
structure Leaving (goal : Nat) (p : State ι α n × List (Event ι α n)) : Prop where
  known : Known p.2 p.1
  attentive : Attentive p.1
  plain : Plain p.1
  entered : goal ≤ (QueueThreads.entered (queueEvents p.2)).length

/-- The worker is up. -/
def Up (p : State ι α n × List (Event ι α n)) (w : Fin n) : Prop :=
  p.1.workers w ≠ .exited ∧ (p.1.tasks.threads (.inr w)).asleepOn .notEmpty = false

variable {s s' : State ι α n} {a : Action ι α n} {tr evs : List (Event ι α n)} {goal : Nat}
  {w : Fin n}

omit [DecidableEq ι] in
theorem Leaving.items_ne (h : Leaving goal (s, tr)) (hgoal : ¬ Left goal (s, tr)) :
    s.tasks.queue.items ≠ [] := by
  intro hnil
  have hfifo := h.known.sound.queue.fifo
  rw [hnil, List.append_nil] at hfifo
  exact hgoal (h.entered.trans_eq (congrArg List.length hfifo))

/-- A worker that runs a plain task, or has one to take up, is able to go on. -/
theorem Known.able_of_plain (h : Known tr s) (hplain : Plain s) (hexit : s.workers w ≠ .exited)
    (hup : (s.tasks.threads (.inr w)).asleepOn .notEmpty = false) :
    (machine ι α n).Able (Action.works w) s := by
  refine h.worker_able (hplain w).1 hexit fun c => ?_
  cases c with
  | notEmpty => exact hup
  | notFull =>
      by_contra hasleep
      rw [Bool.not_eq_false] at hasleep
      cases (hplain w).2.symm.trans (Thread.isPushing_of_asleep hasleep)

omit [Fintype ι] in
/-- A step takes a task out, moves a worker on, or leaves the workers as they are. -/
theorem Transition.toLeave_lt (htr : Transition s a evs s') (hitems : s.tasks.queue.items ≠ [])
    (hgoal : ¬ Left goal (s, tr)) :
    toLeave goal (s', tr ++ evs) < toLeave goal (s, tr) ∨
      toLeave goal (s', tr ++ evs) = toLeave goal (s, tr) ∧ s'.workers = s.workers := by
  have hlen : (QueueThreads.left (queueEvents (tr ++ evs))).length =
      (QueueThreads.left (queueEvents tr)).length +
        (QueueThreads.left (queueEvents evs)).length := by
    rw [queueEvents_append, QueueThreads.left_append, List.length_append]
  have hlt : (QueueThreads.left (queueEvents tr)).length < goal := Nat.lt_of_not_le hgoal
  -- a step that moves one worker on
  have hmove : ∀ {w x}, s'.workers = Function.update s.workers w x →
      x.busy < (s.workers w).busy ∨
        x.busy < (s.workers w).busy + 3 ∧ 0 < (QueueThreads.left (queueEvents evs)).length →
      toLeave goal (s', tr ++ evs) < toLeave goal (s, tr) := by
    intro w x hworkers hx
    have hsum := ThreadSum.sum_update Worker.busy s.workers w x
    simp only [toLeave, hworkers, hlen]
    omega
  have hkeep : s'.workers = s.workers →
      toLeave goal (s', tr ++ evs) < toLeave goal (s, tr) ∨
        toLeave goal (s', tr ++ evs) = toLeave goal (s, tr) ∧ s'.workers = s.workers := by
    intro hworkers
    have hle : toLeave goal (s', tr ++ evs) ≤ toLeave goal (s, tr) := by
      simp only [toLeave, hworkers, hlen]
      omega
    exact (Nat.lt_or_eq_of_le hle).imp_right fun heq => ⟨heq, hworkers⟩
  cases htr with
  | queue | stopLost | stopWon | join | stopReturned | joinSelf => exact hkeep rfl
  | start _ _ hw =>
      refine .inl (hmove rfl (.inr ⟨by simp [hw, Worker.busy], ?_⟩))
      exact Nat.zero_lt_one
  | exit _ _ _ _ hnil => exact absurd hnil hitems
  | finish hw | count hw => exact .inl (hmove rfl (.inl (by simp [hw, Worker.busy])))

theorem leave_progress [NeZero n] : (machine ι α n).recording.Progress Action.works
    (Leaving goal) (Left goal) (toLeave goal) Up where
  helped := by
    rintro ⟨s, tr⟩ h hgoal
    exact h.attentive (h.items_ne hgoal)
  able := by
    rintro ⟨s, tr⟩ w h - hup
    exact Machine.able_recording_iff.mpr (h.known.able_of_plain h.plain hup.1 hup.2)
  step := by
    rintro ⟨s, tr⟩ a ⟨s', tr'⟩ evs h hgoal hstep -
    rw [Machine.recording_step_eq] at hstep
    obtain ⟨hstep, rfl⟩ := hstep
    have hitems := h.items_ne hgoal
    have htr := step_transition h.known.pop hstep
    refine (htr.toLeave_lt hitems hgoal).imp_right ?_
    rintro ⟨heq, hworkers⟩
    refine ⟨heq, fun w hup => ⟨⟨hworkers ▸ hup.1, ?_⟩, fun hown => ?_⟩⟩
    · by_contra hasleep
      rw [Bool.not_eq_false] at hasleep
      cases hup.2.symm.trans (htr.asleep_sub hitems hasleep)
    · rcases h.known.works_cases (.inr hitems) hstep hown with hne | ⟨_, _, _, _, -, hsec⟩
      · exact hne (congrFun hworkers w)
      · cases (h.plain w).2.symm.trans hsec.isPushing

end Leaving

/-! ## What each worker has finished -/

/-- The task, if `w` is done with it. -/
def Event.doneBy (w : Fin n) : Event ι α n → List α
  | .finished v task => if v = w then [task] else []
  | .queue _ | .stopWon _ _ | .stopReturned _ _ => []

def finishedBy (w : Fin n) (tr : List (Event ι α n)) : List α := tr.flatMap (Event.doneBy w)

/-- Each finished task was finished by one worker. -/
theorem finished_eq_sum (tr : List (Event ι α n)) :
    (finished tr : Multiset α) = ∑ w, (finishedBy w tr : Multiset α) := by
  induction tr with
  | nil => simp [finished, finishedBy]
  | cons e tr ih =>
      have hhead : (e.done : Multiset α) = ∑ w, (e.doneBy w : Multiset α) := by
        cases e with
        | finished v task =>
            rw [Finset.sum_eq_single v]
            · simp [Event.done, Event.doneBy]
            · intro w _ hne
              simp [Event.doneBy, Ne.symm hne]
            · exact fun hv => absurd (Finset.mem_univ v) hv
        | queue | stopWon | stopReturned => simp [Event.done, Event.doneBy]
      calc (finished (e :: tr) : Multiset α)
          = e.done + finished tr := (Multiset.coe_add _ _).symm
        _ = ∑ w, ((e.doneBy w : Multiset α) + finishedBy w tr) := by
          rw [hhead, ih, Finset.sum_add_distrib]
        _ = ∑ w, (finishedBy w (e :: tr) : Multiset α) := by
          refine Finset.sum_congr rfl fun w _ => ?_
          rw [Multiset.coe_add]
          rfl

section Working

variable [DecidableEq ι] [Fintype ι] {s s' : State ι α n} {a : Action ι α n}
  {tr evs : List (Event ι α n)} {w : Fin n} {task : α}

/-- A worker is moved on by its own steps only. -/
theorem workers_kept (hstep : step s a = some (s', evs)) (ha : ¬ a.works w) :
    s'.workers w = s.workers w := by
  have hlift : ∀ {b stops}, a.call = some b → s.lift stops b = some (s', evs) →
      s'.workers w = s.workers w := by
    intro b stops hcall hlift
    obtain ⟨qevs, htr, hworkers, -⟩ := lift_inv hlift
    rw [hworkers]
    refine foldl_receive fun value hmem => ha ?_
    obtain ⟨deadline, hsec⟩ := htr.popSection_of_popped hmem
    cases a with
    | pop v pick =>
        cases hcall
        cases hsec with
        | enter => exact rfl
    | resume t now pick =>
        cases hcall
        cases hsec with
        | wake => exact rfl
    | post | getUp | clear | close | notify =>
        cases hcall
        cases hsec
    | finish | count | stop | join | joinSelf => cases hcall
  cases a with
  | post t entry task pick =>
      simp only [step, Option.ite_none_right_eq_some] at hstep
      exact hlift rfl hstep.2
  | pop v | clear t | close t =>
      simp only [step] at hstep
      split at hstep
      · exact hlift rfl hstep
      · cases hstep
  | getUp | resume | notify => exact hlift rfl hstep
  | finish v =>
      simp only [step] at hstep
      split at hstep
      · obtain ⟨-, heq⟩ := Option.ite_none_right_eq_some.mp hstep
        obtain ⟨rfl, -⟩ := Prod.mk.inj (Option.some.inj heq)
        exact Function.update_of_ne (Ne.symm ha) ..
      · cases hstep
  | count v =>
      simp only [step] at hstep
      split at hstep
      · obtain ⟨rfl, -⟩ := Prod.mk.inj (Option.some.inj hstep)
        exact Function.update_of_ne (Ne.symm ha) ..
      · cases hstep
  | stop t drain =>
      simp only [step, Option.ite_none_right_eq_some] at hstep
      obtain ⟨-, hstep⟩ := hstep
      split at hstep <;>
      · obtain ⟨rfl, -⟩ := Prod.mk.inj (Option.some.inj hstep)
        rfl
  | join t =>
      simp only [step] at hstep
      split at hstep
      · obtain ⟨-, hstep⟩ := Option.ite_none_right_eq_some.mp hstep
        split at hstep
        · split at hstep
          · obtain ⟨rfl, -⟩ := Prod.mk.inj (Option.some.inj hstep)
            rfl
          · cases hstep
        · obtain ⟨rfl, -⟩ := Prod.mk.inj (Option.some.inj hstep)
          rfl
      · cases hstep
  | joinSelf v =>
      simp only [step] at hstep
      split at hstep
      · obtain ⟨-, heq⟩ := Option.ite_none_right_eq_some.mp hstep
        obtain ⟨rfl, -⟩ := Prod.mk.inj (Option.some.inj heq)
        rfl
      · cases hstep

/-- The only step of a worker that runs a plain task is the return of the task. -/
theorem Known.finished_of_works (h : Known tr s) (hplain : Plain s)
    (hw : s.workers w = .running task) (hstep : ThreadPool.step s a = some (s', evs))
    (ha : a.works w) : evs = [.finished w task] := by
  cases a with
  | pop v =>
      obtain rfl : v = w := ha
      simp [ThreadPool.step, hw] at hstep
  | resume t now pick =>
      obtain rfl : t = .inr w := ha
      obtain ⟨qevs, htr, -⟩ := lift_inv hstep
      rcases htr.resume_cases with ⟨v, deadline, hsec⟩ | ⟨deadline, hpopping, -⟩
      · cases (hplain w).2.symm.trans hsec.isPushing
      · obtain ⟨-, v, hv, hlooping⟩ := h.pop _ _ hpopping
        obtain rfl := Sum.inr.inj hv
        cases hw.symm.trans hlooping
  | finish v =>
      obtain rfl : v = w := ha
      simp only [ThreadPool.step, hw, Option.ite_none_right_eq_some, Option.some.injEq] at hstep
      exact (Prod.mk.inj hstep.2).2.symm
  | count v =>
      obtain rfl : v = w := ha
      simp [ThreadPool.step, hw] at hstep
  | post | getUp | stop | clear | close | notify | join | joinSelf => exact absurd ha id

omit [DecidableEq ι] in
/-- A worker that runs a task is not in its pop. -/
theorem Known.awake_of_running (h : Known tr s) (hw : s.workers w = .running task) :
    (s.tasks.threads (.inr w)).asleepOn .notEmpty = false := by
  cases hth : s.tasks.threads (.inr w) with
  | popping deadline x =>
      obtain ⟨-, v, hv, hlooping⟩ := h.pop (.inr w) deadline (by rw [hth]; rfl)
      obtain rfl := Sum.inr.inj hv
      cases hw.symm.trans hlooping
  | pushing v deadline x => cases x <;> rfl
  | idle | closing => rfl

end Working

/-! ## Every accepted task gets its turn -/

section Execution

variable [DecidableEq ι] [Fintype ι] {threads capacity : Nat}
  {ex : (machine ι α (threadCount threads)).Execution (.init threads capacity)}

theorem attentive_execution (k : Nat) : Attentive (ex.state k) := by
  obtain ⟨as, hrun⟩ := ex.exists_run k
  have hinv : Known (ex.trace k) (ex.state k) ∧ Attentive (ex.state k) :=
    Machine.Run.invariant (I := fun tr s => Known tr s ∧ Attentive s) hrun
      ⟨known_of_run .nil, fun hne => absurd rfl hne⟩ fun ⟨h, hs⟩ hstep =>
        ⟨h.step hstep, hs.step h hstep⟩
  exact hinv.2

theorem exists_left (hworkers : ∀ w, ex.FairTo (Action.works w))
    (hplain : ∀ k, Plain (ex.state k)) (j : Nat) :
    ∃ k, j ≤ k ∧ (QueueThreads.entered (queueEvents (ex.trace j))).length ≤
      (QueueThreads.left (queueEvents (ex.trace k))).length := by
  refine ex.recorded.exists_goal (fun w => (hworkers w).recorded) leave_progress j fun k hk => ?_
  refine ⟨known_execution k, attentive_execution k, hplain k, ?_⟩
  obtain ⟨tr, htr⟩ := ex.trace_mono hk
  change _ ≤ (QueueThreads.entered (queueEvents (ex.trace k))).length
  rw [← htr, queueEvents_append, QueueThreads.entered_append, List.length_append]
  exact Nat.le_add_right ..

theorem finishedBy_mono {w : Fin (threadCount threads)} {j k : Nat} (hk : j ≤ k) :
    (finishedBy w (ex.trace j) : Multiset α) ≤ finishedBy w (ex.trace k) := by
  obtain ⟨tr, htr⟩ := ex.trace_mono hk
  rw [← htr, finishedBy, finishedBy, List.flatMap_append, ← Multiset.coe_add]
  exact Multiset.le_add_right _ _

/-- A worker finishes what it has taken up. -/
theorem exists_finishedBy {w : Fin (threadCount threads)} (hworker : ex.FairTo (Action.works w))
    (hplain : ∀ k, Plain (ex.state k)) (j : Nat) :
    ∃ k, j ≤ k ∧ (finishedBy w (ex.trace j) + ((ex.state j).workers w).task : Multiset α) ≤
      finishedBy w (ex.trace k) := by
  cases hw : (ex.state j).workers w with
  | running task =>
      obtain ⟨k, a, hk, hrun, hact, hown⟩ := ex.exists_own hworker
        (Q := fun s => s.workers w = .running task) hw
        (fun k _ hrun => (known_execution k).able_of_plain (hplain k) (by simp [hrun])
          ((known_execution k).awake_of_running hrun))
        fun hrun ha hstep => (workers_kept hstep ha).trans hrun
      have hevs := (known_execution k).finished_of_works (hplain k) hrun (ex.step_eq hact) hown
      refine ⟨k + 1, Nat.le_succ_of_le hk, ?_⟩
      rw [ex.trace_succ, hevs, finishedBy, finishedBy, List.flatMap_append, ← Multiset.coe_add]
      refine add_le_add (finishedBy_mono hk) (le_of_eq ?_)
      simp [Worker.task, Event.doneBy]
  | looping | counting | exited => exact ⟨j, le_refl j, by simp [Worker.task]⟩

/-- All tasks that were taken up are finished at some time. -/
theorem exists_finished (hworkers : ∀ w, ex.FairTo (Action.works w))
    (hplain : ∀ k, Plain (ex.state k)) (j : Nat) :
    ∃ k, j ≤ k ∧ (started (ex.trace j) : Multiset α) ≤ finished (ex.trace k) := by
  choose f hf hdone using fun w => exists_finishedBy (hworkers w) hplain j
  refine ⟨max j (Finset.univ.sup f), le_max_left .., ?_⟩
  rw [(known_execution j).sound.worked.tasks, finished_eq_sum, finished_eq_sum, running,
    ← Finset.sum_add_distrib]
  refine Finset.sum_le_sum fun w _ => (hdone w).trans (finishedBy_mono ?_)
  exact (Finset.le_sup (Finset.mem_univ w)).trans (le_max_right ..)

/-- **Every accepted task gets its turn.** In every execution that does not pass over the
    workers, and whose tasks return, do not wait for space in the queue of their own pool
    and do not stop it, every task that has been accepted is at some time finished or
    discarded. Posters and the callers of `stop` may be stuck anywhere. -/
theorem accepted_runs (hworkers : ∀ w, ex.FairTo (Action.works w))
    (hplain : ∀ k, Plain (ex.state k)) (j : Nat) :
    ∃ k, j ≤ k ∧ (accepted (ex.trace j) : Multiset α) ≤
      finished (ex.trace k) + discarded (ex.trace k) := by
  obtain ⟨i, hi, hleft⟩ := exists_left hworkers hplain j
  obtain ⟨k, hk, hfinished⟩ := exists_finished hworkers hplain i
  refine ⟨k, hi.trans hk, ?_⟩
  have hsound : Sound (ex.trace i) (ex.state i) := (known_execution i).sound
  obtain ⟨tr, htr⟩ := ex.trace_mono hi
  obtain ⟨tr', htr'⟩ := ex.trace_mono hk
  -- what was accepted by then is what left first
  have hprefix : accepted (ex.trace j) <+: QueueThreads.left (queueEvents (ex.trace i)) := by
    rw [(known_execution j).sound.accepted_eq]
    have hentered : QueueThreads.entered (queueEvents (ex.trace j)) <+:
        QueueThreads.entered (queueEvents (ex.trace i)) := by
      rw [← htr, queueEvents_append, QueueThreads.entered_append]
      exact List.prefix_append ..
    refine List.prefix_of_prefix_length_le hentered ?_ hleft
    rw [hsound.queue.fifo]
    exact List.prefix_append ..
  have hdiscarded : (discarded (ex.trace i) : Multiset α) ≤ discarded (ex.trace k) := by
    rw [← htr', discarded_append, ← Multiset.coe_add]
    exact Multiset.le_add_right _ _
  calc (accepted (ex.trace j) : Multiset α)
      ≤ QueueThreads.left (queueEvents (ex.trace i)) := hprefix.sublist.subperm
    _ = started (ex.trace i) + discarded (ex.trace i) :=
        QueueThreads.left_eq_add fun t task status evicted hmem =>
          (hsound.kept t task status evicted hmem).2
    _ ≤ finished (ex.trace k) + discarded (ex.trace k) := add_le_add hfinished hdiscarded

theorem not_able_of_asleep {n : Nat} {s : State ι α n} {w : Fin n} {deadline : TimePoint}
    (hw : s.workers w = .looping) (hth : s.tasks.threads (.inr w) = .popping deadline .asleep) :
    ¬ (machine ι α n).Able (Action.works w) s := by
  rintro ⟨a, s', evs, ha, hstep⟩
  cases a with
  | pop v =>
      obtain rfl : v = w := ha
      simp [machine, step, hw, State.lift, QueueThreads.step, hth] at hstep
  | finish v | count v =>
      obtain rfl : v = w := ha
      simp [machine, step, hw] at hstep
  | resume t =>
      obtain rfl : t = .inr w := ha
      simp [machine, step, State.lift, QueueThreads.step, hth] at hstep
  | post | getUp | stop | clear | close | notify | join | joinSelf => exact ha

end Execution

/-- The worker sleeps when the task comes, and sleeps again when it is done. -/
theorem accepted_runs_once :
    ∃ ex : (machine (Fin 1) Nat (threadCount 1)).Execution (.init 1 1),
      accepted (ex.trace 2) = [7] ∧
      ∃ k, 2 ≤ k ∧ (accepted (ex.trace 2) : Multiset Nat) ≤
        finished (ex.trace k) + discarded (ex.trace k) := by
  have hrun : ((machine (Fin 1) Nat (threadCount 1)).exec (.init 1 1)
      [.pop 0 none, .post (.inl 0) .post 7 (some (.inr 0)), .resume (.inr 0) 0 none, .finish 0,
        .count 0, .pop 0 none]).isSome = true := by decide
  refine ⟨.ofList _ _ _ hrun, rfl, accepted_runs (fun w => ?_) (fun k w => ?_) 2⟩
  all_goals obtain rfl : w = 0 := Fin.ext (Nat.lt_one_iff.mp w.isLt)
  · exact Machine.Execution.fairTo_ofList hrun (not_able_of_asleep rfl rfl)
  · match k with
    | 0 | 1 | 2 | 3 | 4 | 5 => exact ⟨rfl, rfl⟩
    | k + 6 =>
        rw [Machine.Execution.ofList_state hrun (Nat.le_add_left 6 k)]
        exact ⟨rfl, rfl⟩

end ThreadPool

end Rdb
