-- SUMMARY: The winning `stop` of a thread pool returns, and a draining one has run every accepted task once by then.
import Mathlib.Algebra.Order.BigOperators.Group.Finset
import Rdb.Lib.Fairness
import Rdb.Concurrency.PoolCalls

/-!
# Stopping a pool ends

A `stop` that wins closes the queue, so nobody waits in it any more: blocked posts are
rejected, the workers run what is left and leave their loops one by one. The call returns
if its own thread and the workers keep being scheduled and the tasks return. A task may
call the pool as often as it likes; after the close such a call cannot block it.
-/

namespace Rdb

namespace QueueThreads

variable {ι α : Type*} [DecidableEq ι] {s s' : State ι α} {a : Action ι α}
  {evs : List (Event ι α)}

/-- The sections that a call is at most short of on a closed queue, its wait for a value
    left aside. -/
def Thread.callLeft : Thread α → Nat
  | .pushing _ _ _   => 1
  | .closing pending => pending.length
  | _                => 0

theorem Thread.Kept.callLeft_eq {th th' : Thread α} (h : Thread.Kept th th') :
    th'.callLeft = th.callLeft := by
  rcases h with rfl | ⟨w, rfl⟩
  · rfl
  · cases th <;> rfl

/-- On a closed queue nobody starts to wait for space. -/
theorem Transition.callLeft_le (h : Transition s a evs s') (hclosed : s.queue.closed = true)
    (hclose : ∀ t, a ≠ .close t) (t : ι) :
    (s'.threads t).callLeft ≤ (s.threads t).callLeft := by
  by_cases ht : t = a.actor
  · subst ht
    cases h.actorMove with
    | idle hth => simp [hth, Thread.callLeft]
    | pushing _ hopen | popping _ hopen => cases hclosed.symm.trans hopen
    | closing ha => exact absurd ha (hclose _)
    | notifying hth _ hth' => simp [hth, hth', Thread.callLeft]
    | getUp hkept => rw [hkept.callLeft_eq]
  · rw [(h.kept ht).callLeft_eq]

/-- A thread that waits for nothing has gone on, or is where it was. -/
theorem Transition.thread_eq (h : Transition s a evs s') (hclosed : s.queue.closed = true)
    (hclose : ∀ t, a ≠ .close t) {t : ι}
    (ht : s.threads t = .idle ∨ ∃ c pending, s.threads t = .closing (c :: pending))
    (hleft : (s'.threads t).callLeft = (s.threads t).callLeft) : s'.threads t = s.threads t := by
  have hkept : ∀ {th}, Thread.Kept (s.threads t) th → th = s.threads t := by
    intro th hkept
    rcases ht with ht | ⟨c, pending, ht⟩
    · rw [ht] at hkept ⊢
      exact hkept.idle
    · rw [ht] at hkept ⊢
      exact hkept.closing
  by_cases hactor : t = a.actor
  · subst hactor
    cases h.actorMove with
    | idle hth =>
        rcases ht with ht | ⟨c, pending, ht⟩
        · rw [hth, ht]
        · simp [hth, ht, Thread.callLeft] at hleft
    | pushing _ hopen | popping _ hopen => cases hclosed.symm.trans hopen
    | closing ha => exact absurd ha (hclose _)
    | notifying hth _ hth' => simp [hth, hth', Thread.callLeft] at hleft
    | getUp hmoved => exact hkept hmoved
  · exact hkept (h.kept hactor)

/-- Nobody falls asleep for what is there to be had, or for anything once the queue is closed. -/
theorem Transition.asleep_sub (h : Transition s a evs s') {c : Cond}
    (hready : s.queue.closed = true ∨ 0 < available c s.queue) {t : ι}
    (ht : (s'.threads t).asleepOn c = true) : (s.threads t).asleepOn c = true := by
  cases h with
  | accept _ _ _ hone | pop _ _ hone => exact asleep_update_sub rfl t (hone.asleep_sub t ht)
  | reject | popNone | close => exact asleep_update_sub rfl t ht
  | pushSleeps _ hopen hfull =>
      refine asleep_update_sub ?_ t ht
      cases c with
      | notEmpty => rfl
      | notFull => exact absurd hready (by simp [hopen, available, hfull])
  | popSleeps _ hitems hopen =>
      refine asleep_update_sub ?_ t ht
      cases c with
      | notEmpty => exact absurd hready (by simp [hopen, available, hitems])
      | notFull => rfl
  | clear => exact notifyAll_asleep_sub t ht
  | notify => exact notifyAll_asleep_sub t (asleep_update_sub (by split <;> rfl) t ht)
  | getUp => exact asleep_update_sub Thread.asleepOn_getUp_awake t ht

theorem Attended.step [Fintype ι] (h : Attended s) (htr : Transition s a evs s') :
    Attended s' := by
  refine ⟨fun hopen => htr.covered (h.covered ?_) hopen, htr.closing h⟩
  cases hclosed : s.queue.closed with
  | false => rfl
  | true => exact (htr.effect.closed_mono hclosed).symm.trans hopen

theorem Transition.notify_closing {t : ι} (h : Transition s (.notify t) evs s') :
    ∃ c pending, s.threads t = .closing (c :: pending) ∧ s'.threads t ≠ s.threads t := by
  cases h with
  | notify ha hth =>
      cases ha
      refine ⟨_, _, hth, ?_⟩
      simp only [hth, Function.update_self]
      split <;> simp
  | accept hsec | reject hsec | pushSleeps hsec => cases hsec
  | pop hsec | popNone hsec | popSleeps hsec => cases hsec
  | clear ha | close ha | getUp ha => cases ha

theorem Transition.pop_idle {t : ι} {deadline : TimePoint} {pick : Option ι}
    (h : Transition s (.pop t deadline pick) evs s') : s.threads t = .idle := by
  cases h with
  | pop hsec | popNone hsec | popSleeps hsec =>
      cases hsec with
      | enter hidle => exact hidle
  | accept hsec | reject hsec | pushSleeps hsec => cases hsec
  | clear ha | close ha | notify ha | getUp ha => cases ha

/-- A waiter that takes the lock is in a push or in a pop. -/
theorem Transition.resume_cases {t : ι} {now : TimePoint} {pick : Option ι}
    (h : Transition s (.resume t now pick) evs s') :
    (∃ v deadline, PushSection s t v deadline (.resume t now pick)) ∨
      ∃ deadline, (s.threads t).poppingUntil deadline ∧
        PopSection s t deadline (.resume t now pick) := by
  have hpush : ∀ {u v deadline}, PushSection s u v deadline (.resume t now pick) →
      ∃ v deadline, PushSection s t v deadline (.resume t now pick) := by
    intro u v deadline hsec
    cases hsec with
    | wake hth hup => exact ⟨v, deadline, .wake hth hup⟩
  have hpop : ∀ {u deadline}, PopSection s u deadline (.resume t now pick) →
      ∃ deadline, (s.threads t).poppingUntil deadline ∧
        PopSection s t deadline (.resume t now pick) := by
    intro u deadline hsec
    cases hsec with
    | wake hth hup => exact ⟨deadline, by rw [hth]; exact rfl, .wake hth hup⟩
  cases h with
  | accept hsec | reject hsec | pushSleeps hsec => exact .inl (hpush hsec)
  | pop hsec | popNone hsec | popSleeps hsec => exact .inr (hpop hsec)
  | clear ha | close ha | notify ha | getUp ha => cases ha

/-- On a closed queue a push that takes the lock again ends. -/
theorem Transition.callLeft_lt {t : ι} {v : α} {deadline now : TimePoint} {pick : Option ι}
    (h : Transition s (.resume t now pick) evs s') (hclosed : s.queue.closed = true)
    (hsec : PushSection s t v deadline (.resume t now pick)) :
    (s'.threads t).callLeft < (s.threads t).callLeft := by
  cases hsec with
  | wake hth =>
      cases h with
      | accept hsec _ _ hone =>
          cases hsec
          simp [hone.self_idle, hth, Thread.callLeft]
      | reject hsec =>
          cases hsec
          simp [hth, Thread.callLeft]
      | pushSleeps _ hopen | popSleeps _ _ hopen => cases hclosed.symm.trans hopen
      | pop hpop | popNone hpop =>
          cases hpop with
          | wake hth' => cases hth.symm.trans hth'
      | clear ha | close ha | notify ha | getUp ha => cases ha

/-- A closed queue only loses items. -/
theorem Transition.length_le (h : Transition s a evs s') (hclosed : s.queue.closed = true) :
    s'.queue.items.length ≤ s.queue.items.length := by
  have heq := h.effect.items_eq
  rw [h.effect.entered_eq_nil hclosed, List.append_nil] at heq
  rw [heq, List.length_append]
  exact Nat.le_add_left ..

end QueueThreads

namespace ThreadPool

open QueueThreads (Thread Attended)

variable {ι α : Type*} {n : Nat}

/-! ## What is known in every state -/

section Known

variable [Fintype ι]

/-- Everything the argument needs of a pool with the history `tr`. -/
structure Known (tr : List (Event ι α n)) (s : State ι α n) : Prop where
  pop : OnlyWorkersPop s
  sound : Sound tr s
  placed : Placed s
  attended : Attended s.tasks
  /-- the `compare_exchange` succeeds once -/
  won : ∀ t drain, .stopWon t drain ∈ tr → s.stopping = true
  once : ∀ t u drain drain', .stopWon t drain ∈ tr → .stopWon u drain' ∈ tr → drain = drain'

variable [DecidableEq ι] {s s' : State ι α n} {a : Action ι α n}
  {tr evs : List (Event ι α n)} {t : ι ⊕ Fin n} {drain : Bool}

omit [Fintype ι] in
/-- `stopping_` is never taken back, and is set by the winner. -/
theorem Transition.stopping_eq (h : Transition s a evs s') :
    s'.stopping = s.stopping ∧ (∀ t drain, .stopWon t drain ∉ evs) ∨
      s.stopping = false ∧ s'.stopping = true ∧ ∃ t drain, evs = [.stopWon t drain] := by
  cases h with
  | stopWon hopen => exact .inr ⟨hopen, rfl, _, _, rfl⟩
  | queue | start | exit | finish | count | stopLost | join | stopReturned | joinSelf =>
      exact .inl ⟨rfl, by simp⟩

theorem Transition.attended (h : Transition s a evs s') (hatt : Attended s.tasks) :
    Attended s'.tasks := by
  cases h with
  | queue _ _ htr | start _ htr | exit _ htr => exact hatt.step htr
  | finish | count | stopLost | stopWon | join | stopReturned | joinSelf => exact hatt

theorem Known.step (h : Known tr s) (hstep : step s a = some (s', evs)) :
    Known (tr ++ evs) s' := by
  have htr := step_transition h.pop hstep
  refine ⟨h.pop.step htr, h.sound.step htr, h.placed.step hstep, htr.attended h.attended, ?_, ?_⟩
  · intro t drain hmem
    rcases htr.stopping_eq with ⟨hsame, hnone⟩ | ⟨-, hset, -⟩
    · have hold := (List.mem_append.mp hmem).resolve_right (hnone t drain)
      exact hsame.trans (h.won t drain hold)
    · exact hset
  · intro t u drain drain' hmem hmem'
    rw [List.mem_append] at hmem hmem'
    rcases htr.stopping_eq with ⟨-, hnone⟩ | ⟨hopen, -, v, x, rfl⟩
    · exact h.once t u drain drain' (hmem.resolve_right (hnone _ _))
        (hmem'.resolve_right (hnone _ _))
    · have hfirst : ∀ t drain, .stopWon t drain ∉ tr := fun t drain hold =>
        Bool.false_ne_true (hopen.symm.trans (h.won t drain hold))
      have hnew := hmem.resolve_left (hfirst _ _)
      have hnew' := hmem'.resolve_left (hfirst _ _)
      simp only [List.mem_singleton, Event.stopWon.injEq] at hnew hnew'
      rw [hnew.2, hnew'.2]

theorem known_of_run {threads capacity : Nat} {as : List (Action ι α (threadCount threads))}
    {tr : List (Event ι α (threadCount threads))} {s : State ι α (threadCount threads)}
    (h : (machine ι α (threadCount threads)).Run (.init threads capacity) as tr s) :
    Known tr s := by
  refine Machine.Run.invariant (I := Known) h ?_ fun hI hstep => hI.step hstep
  exact ⟨onlyWorkersPop_init threads capacity, sound_init threads capacity,
    placed_init threads capacity,
    ⟨fun _ _ => .inl fun _ => rfl, fun _ _ _ hi => by simp [State.init, QueueThreads.State.init,
      Thread.asleepOn] at hi⟩, by simp, by simp⟩

end Known

/-! ## The `stop` call of one thread -/

/-- The steps of `stop` past the `compare_exchange`. -/
def Action.stops (t : ι ⊕ Fin n) : Action ι α n → Prop
  | .clear u | .close u | .notify u | .join u => u = t
  | .joinSelf w => .inr w = t
  | _ => False

section Stop

variable [Fintype ι] [DecidableEq ι] {s s' : State ι α n} {a : Action ι α n}
  {tr evs : List (Event ι α n)} {t : ι ⊕ Fin n} {p : ι} {drain : Bool} {k : Nat}

/-- A `stop` that is under way only goes on by its own steps. -/
theorem stops_kept (hstep : step s a = some (s', evs)) (ht : s.stops t ≠ .outside)
    (ha : ¬ a.stops t) : s'.stops t = s.stops t := by
  have hlift : ∀ {b}, s.lift s.stops b = some (s', evs) → s'.stops t = s.stops t := by
    intro b hlift
    obtain ⟨-, -, -, hs, -⟩ := lift_inv hlift
    exact congrFun hs t
  cases a with
  | post u =>
      simp only [ThreadPool.step, Option.ite_none_right_eq_some] at hstep
      exact hlift hstep.2
  | pop w =>
      simp only [ThreadPool.step] at hstep
      split at hstep
      · exact hlift hstep
      · cases hstep
  | getUp u | resume u | notify u => exact hlift hstep
  | finish w =>
      simp only [ThreadPool.step] at hstep
      split at hstep
      · obtain ⟨-, heq⟩ := Option.ite_none_right_eq_some.mp hstep
        obtain ⟨rfl, -⟩ := Prod.mk.inj (Option.some.inj heq)
        rfl
      · cases hstep
  | count w =>
      simp only [ThreadPool.step] at hstep
      split at hstep
      · obtain ⟨rfl, -⟩ := Prod.mk.inj (Option.some.inj hstep)
        rfl
      · cases hstep
  | stop u drain =>
      simp only [ThreadPool.step, Option.ite_none_right_eq_some] at hstep
      obtain ⟨hcond, hstep⟩ := hstep
      have hne : t ≠ u := by
        rintro rfl
        exact ht (State.free_iff.mp (Bool.and_eq_true_iff.mp hcond).1).1
      split at hstep
      · obtain ⟨rfl, -⟩ := Prod.mk.inj (Option.some.inj hstep)
        rfl
      · obtain ⟨rfl, -⟩ := Prod.mk.inj (Option.some.inj hstep)
        exact Function.update_of_ne hne ..
  | clear u | close u =>
      simp only [ThreadPool.step] at hstep
      split at hstep
      · obtain ⟨-, -, -, hs, -⟩ := lift_inv hstep
        rw [hs]
        exact Function.update_of_ne (Ne.symm ha) ..
      · cases hstep
  | join u =>
      simp only [ThreadPool.step] at hstep
      split at hstep
      · obtain ⟨-, hstep⟩ := Option.ite_none_right_eq_some.mp hstep
        split at hstep
        · split at hstep
          · obtain ⟨rfl, -⟩ := Prod.mk.inj (Option.some.inj hstep)
            exact Function.update_of_ne (Ne.symm ha) ..
          · cases hstep
        · obtain ⟨rfl, -⟩ := Prod.mk.inj (Option.some.inj hstep)
          exact Function.update_of_ne (Ne.symm ha) ..
      · cases hstep
  | joinSelf w =>
      simp only [ThreadPool.step] at hstep
      split at hstep
      · obtain ⟨-, heq⟩ := Option.ite_none_right_eq_some.mp hstep
        obtain ⟨rfl, -⟩ := Prod.mk.inj (Option.some.inj heq)
        exact Function.update_of_ne (Ne.symm ha) ..
      · cases hstep

/-- What a step of `stop` in the client `p` comes to. -/
inductive StopMove (s s' : State ι α n) (p : ι) (evs : List (Event ι α n)) : Prop where
  | clear : s.stops (.inl p) = .clearing → s'.stops (.inl p) = .closing false →
      StopMove s s' p evs
  | close {drain : Bool} : s.stops (.inl p) = .closing drain →
      s'.stops (.inl p) = .joining 0 → StopMove s s' p evs
  | notify {k : Nat} : s.stops (.inl p) = .joining k → s'.stops (.inl p) = .joining k →
      s'.tasks.threads (.inl p) ≠ s.tasks.threads (.inl p) → StopMove s s' p evs
  | join {k : Nat} : s.stops (.inl p) = .joining k →
      s'.stops (.inl p) = .joining (k + 1) → StopMove s s' p evs
  | returns {k : Nat} : s.stops (.inl p) = .joining k → s'.stops (.inl p) = .outside →
      evs = [.stopReturned (.inl p) true] → StopMove s s' p evs

theorem stop_move (h : Placed s) (hstep : step s a = some (s', evs))
    (ha : a.stops (.inl p)) : StopMove s s' p evs := by
  cases a with
  | clear u =>
      obtain rfl : u = .inl p := ha
      simp only [ThreadPool.step] at hstep
      split at hstep
      · rename_i ht
        obtain ⟨-, -, -, hs, -⟩ := lift_inv hstep
        exact .clear ht (by rw [hs, Function.update_self])
      · cases hstep
  | close u =>
      obtain rfl : u = .inl p := ha
      simp only [ThreadPool.step] at hstep
      split at hstep
      · rename_i ht
        obtain ⟨-, -, -, hs, -⟩ := lift_inv hstep
        exact .close ht (by rw [hs, Function.update_self])
      · cases hstep
  | notify u =>
      obtain rfl : u = .inl p := ha
      obtain ⟨qevs, htr, -, hs, -⟩ := lift_inv hstep
      obtain ⟨c, pending, hth, hmoved⟩ := htr.notify_closing
      have hcall := h.calls (.inl p)
      rw [hth] at hcall
      obtain ⟨-, k, hk⟩ := hcall
      exact .notify hk ((congrFun hs _).trans hk) hmoved
  | join u =>
      obtain rfl : u = .inl p := ha
      simp only [ThreadPool.step] at hstep
      split at hstep
      · rename_i k ht
        obtain ⟨-, hstep⟩ := Option.ite_none_right_eq_some.mp hstep
        split at hstep
        · split at hstep
          · obtain ⟨rfl, rfl⟩ := Prod.mk.inj (Option.some.inj hstep)
            exact .join ht (Function.update_self ..)
          · cases hstep
        · obtain ⟨rfl, rfl⟩ := Prod.mk.inj (Option.some.inj hstep)
          exact .returns ht (Function.update_self ..) rfl
      · cases hstep
  | joinSelf w => cases ha
  | post | pop | getUp | resume | finish | count | stop => exact absurd ha id

end Stop

/-! ## The variant -/

/-- The steps that a worker is short of, if there is no task left to take up. -/
def Worker.left : Worker α → Nat
  | .running _ => 3
  | .counting  => 2
  | .looping   => 1
  | .exited    => 0

/-- The workers to be joined, and the return. -/
def Stop.left (n : Nat) : Stop → Nat
  | .joining k => n + 1 - k
  | _          => 0

def State.left [Fintype ι] (p : ι) (s : State ι α n) : Nat :=
  3 * s.tasks.queue.items.length + ∑ w, (s.workers w).left +
    ∑ t, (s.tasks.threads t).callLeft + (s.stops (.inl p)).left n

/-- A step that brings neither a worker nor the `stop` call of `p` further. -/
structure Still (p : ι) (s s' : State ι α n) : Prop where
  workers : s'.workers = s.workers
  stop : s'.stops (.inl p) = s.stops (.inl p)
  thread : s'.tasks.threads (.inl p) = s.tasks.threads (.inl p)
  calls : ∀ t, (s'.tasks.threads t).callLeft = (s.tasks.threads t).callLeft
  asleep : ∀ c t, (s'.tasks.threads t).asleepOn c = true → (s.tasks.threads t).asleepOn c = true

section Variant

variable {s s' : State ι α n} {a : Action ι α n} {b : QueueThreads.Action (ι ⊕ Fin n) α}
  {evs : List (Event ι α n)} {qevs : List (QueueThreads.Event (ι ⊕ Fin n) α)} {p : ι} {k : Nat}
  {t : ι ⊕ Fin n}

theorem Placed.thread_of_joining (h : Placed s) (ht : s.stops t = .joining k) :
    s.tasks.threads t = .idle ∨ ∃ c pending, s.tasks.threads t = .closing (c :: pending) := by
  have hcall := h.calls t
  cases hth : s.tasks.threads t with
  | idle => exact .inl rfl
  | pushing =>
      rw [hth] at hcall
      exact absurd (ht.symm.trans (State.free_iff.mp hcall).1) (by simp)
  | popping =>
      rw [hth] at hcall
      exact absurd (ht.symm.trans hcall) (by simp)
  | closing pending =>
      rw [hth] at hcall
      obtain ⟨c, rest, rfl⟩ := List.exists_cons_of_ne_nil hcall.1
      exact .inr ⟨c, rest, rfl⟩

theorem Placed.eq_of_joining (h : Placed s) (hk : s.stops (.inl p) = .joining k) {x : Stop}
    (ht : s.stops t = x) (hx : x ≠ .outside) : t = .inl p :=
  h.one t (.inl p) (ht.trans_ne hx) (by simp [hk])

variable [DecidableEq ι] [Fintype ι]

/-- A section of the queue while `p` joins. -/
theorem Placed.still_of_section (h : Placed s) (hclosed : s.tasks.queue.closed = true)
    (hk : s.stops (.inl p) = .joining k)
    (htr : QueueThreads.Transition s.tasks b qevs s'.tasks) (hclose : ∀ t, b ≠ .close t)
    (hworkers : s'.workers = s.workers) (hstop : s'.stops (.inl p) = s.stops (.inl p)) :
    s'.left p < s.left p ∨ s'.left p = s.left p ∧ Still p s s' := by
  have hlen := htr.length_le hclosed
  have hcall := fun t => htr.callLeft_le hclosed hclose t
  have hsum := Finset.sum_le_sum fun t (_ : t ∈ Finset.univ) => hcall t
  have hleft : s'.left p ≤ s.left p := by
    unfold State.left
    rw [hworkers, hstop]
    omega
  refine (Nat.lt_or_eq_of_le hleft).imp_right fun heq => ⟨heq, ?_⟩
  have hsame : ∑ t, (s'.tasks.threads t).callLeft = ∑ t, (s.tasks.threads t).callLeft := by
    unfold State.left at heq
    rw [hworkers, hstop] at heq
    omega
  have hcalls := fun t =>
    (Finset.sum_eq_sum_iff_of_le fun t (_ : t ∈ Finset.univ) => hcall t).mp hsame t
      (Finset.mem_univ t)
  exact ⟨hworkers, hstop, htr.thread_eq hclosed hclose (h.thread_of_joining hk) (hcalls _), hcalls,
    fun c t => htr.asleep_sub (.inl hclosed)⟩

omit [Fintype ι] in
theorem ne_close_of_popped (h : QueueThreads.Transition s.tasks b qevs s'.tasks)
    {value : Option α} (hmem : .popped t value ∈ qevs) (u : ι ⊕ Fin n) : b ≠ .close u := by
  rintro rfl
  obtain ⟨deadline, hsec⟩ := h.popSection_of_popped hmem
  cases hsec

/-- A section of the queue that moves a worker on. -/
theorem Placed.left_lt_of_popped (hclosed : s.tasks.queue.closed = true) {w : Fin n}
    {x : Worker α} {value : Option α}
    (htr : QueueThreads.Transition s.tasks b [.popped (.inr w) value] s'.tasks)
    (hw : s.workers w = .looping) (hworkers : s'.workers = Function.update s.workers w x)
    (hstop : s'.stops (.inl p) = s.stops (.inl p)) (hx : x.left < 3 * value.toList.length + 1) :
    s'.left p < s.left p := by
  have hclose := ne_close_of_popped htr (List.mem_singleton_self _)
  have hlen : value.toList.length + s'.tasks.queue.items.length =
      s.tasks.queue.items.length := by
    have heq := congrArg List.length htr.effect.items_eq
    simpa [QueueThreads.entered, QueueThreads.left, QueueThreads.Event.entered,
      QueueThreads.Event.left, eq_comm] using heq
  have hsum := Finset.sum_le_sum fun t (_ : t ∈ Finset.univ) => htr.callLeft_le hclosed hclose t
  have hleft := ThreadSum.sum_update Worker.left s.workers w x
  have hone : (s.workers w).left = 1 := by rw [hw]; rfl
  unfold State.left
  rw [hworkers, hstop]
  omega

omit [DecidableEq ι] in
/-- A step outside of the queue that moves a worker on. -/
theorem left_lt_of_worker {w : Fin n} {x : Worker α} (htasks : s'.tasks = s.tasks)
    (hstop : s'.stops = s.stops) (hworkers : s'.workers = Function.update s.workers w x)
    (hx : x.left < (s.workers w).left) : s'.left p < s.left p := by
  have hleft := ThreadSum.sum_update Worker.left s.workers w x
  unfold State.left
  rw [htasks, hstop, hworkers]
  omega

/-- While `p` joins, every step brings the pool nearer to its end, or leaves it where it is. -/
theorem Transition.left_lt (htr : Transition s a evs s') (h : Placed s)
    (hclosed : s.tasks.queue.closed = true) (hk : s.stops (.inl p) = .joining k)
    (hgoal : s'.stops (.inl p) ≠ .outside) :
    s'.left p < s.left p ∨ s'.left p = s.left p ∧ Still p s s' := by
  cases htr with
  | queue _ _ hqueue _ hstop =>
      cases hstop with
      | clear ht =>
          obtain rfl := h.eq_of_joining hk ht (by simp)
          cases hk.symm.trans ht
      | close ht =>
          obtain rfl := h.eq_of_joining hk ht (by simp)
          cases hk.symm.trans ht
      | keep _ hclose => exact h.still_of_section hclosed hk hqueue hclose rfl rfl
  | start _ hqueue hw =>
      exact .inl (Placed.left_lt_of_popped hclosed hqueue hw rfl rfl (by simp [Worker.left]))
  | exit _ hqueue _ hw =>
      exact .inl (Placed.left_lt_of_popped hclosed hqueue hw rfl rfl (by simp [Worker.left]))
  | finish hw | count hw => exact .inl (left_lt_of_worker rfl rfl rfl (by simp [hw, Worker.left]))
  | stopLost => exact .inr ⟨rfl, rfl, rfl, rfl, fun _ => rfl, fun _ _ hi => hi⟩
  | stopWon hopen =>
      rw [h.stopping (.inl p) (by simp [hk])] at hopen
      cases hopen
  | @join t w ht =>
      obtain rfl := h.eq_of_joining hk ht (by simp)
      have hw := w.isLt
      left
      simp only [State.left, ht, Function.update_self, Stop.left]
      omega
  | stopReturned ht =>
      obtain rfl := h.eq_of_joining hk ht (by simp)
      exact absurd (Function.update_self ..) hgoal
  | joinSelf ht => cases h.eq_of_joining hk ht (by simp)

end Variant

/-! ## Who helps -/

/-- The steps of a worker in `run`, and of the calls that its task makes. -/
def Action.works (w : Fin n) : Action ι α n → Prop
  | .pop v _ | .finish v | .count v => v = w
  | .resume t _ _ => t = .inr w
  | _ => False

/-- The steps of `stop` in the client `p`, and those of each worker. -/
def own (p : ι) : Option (Fin n) → Action ι α n → Prop
  | none, a   => a.stops (.inl p)
  | some w, a => a.works w

/-- The `stop` call of `p` has something to do that is not a wait; the worker is up. -/
def Helpful (p : ι) (s : State ι α n) : Option (Fin n) → Prop
  | none   =>
    (∃ c pending, s.tasks.threads (.inl p) = .closing (c :: pending)) ∨
      s.tasks.threads (.inl p) = .idle ∧
        ∀ w : Fin n, s.stops (.inl p) = .joining w → s.workers w = .exited
  | some w => s.workers w ≠ .exited ∧ ∀ c, (s.tasks.threads (.inr w)).asleepOn c = false

section Helpful

variable [DecidableEq ι] [Fintype ι] {s s' : State ι α n} {a : Action ι α n}
  {b : QueueThreads.Action (ι ⊕ Fin n) α} {stops : ι ⊕ Fin n → Stop} {tr evs : List (Event ι α n)}
  {p : ι} {k : Nat} {w : Fin n}

omit [DecidableEq ι] in
/-- Nobody sleeps once the call is past the last notification of the close. -/
theorem Known.up_of_idle (h : Known tr s) (hk : s.stops (.inl p) = .joining k)
    (hidle : s.tasks.threads (.inl p) = .idle) (c : QueueThreads.Cond) (t : ι ⊕ Fin n) :
    (s.tasks.threads t).asleepOn c = false := by
  by_contra hasleep
  rw [Bool.not_eq_false] at hasleep
  have hclosed := (h.sound.stopped.joining _ k hk).1
  obtain ⟨u, pending, hu, -⟩ := h.attended.closing hclosed c t hasleep
  have hcall := h.placed.calls u
  rw [hu] at hcall
  obtain ⟨-, j, hj⟩ := hcall
  obtain rfl := h.placed.eq_of_joining hk hj (by simp)
  cases hidle.symm.trans hu

omit [DecidableEq ι] in
theorem Known.exists_helpful (h : Known tr s) (hk : s.stops (.inl p) = .joining k) :
    ∃ t, Helpful p s t := by
  rcases h.placed.thread_of_joining hk with hidle | hclosing
  · by_cases hjoin : ∀ w : Fin n, s.stops (.inl p) = .joining w → s.workers w = .exited
    · exact ⟨none, .inr ⟨hidle, hjoin⟩⟩
    · simp only [not_forall] at hjoin
      obtain ⟨w, -, hw⟩ := hjoin
      exact ⟨some w, hw, fun c => h.up_of_idle hk hidle c _⟩
  · exact ⟨none, .inl hclosing⟩

theorem lift_isSome (h : ∃ x, QueueThreads.step s.tasks b = some x) :
    (s.lift stops b).isSome = true := by
  obtain ⟨x, hx⟩ := h
  simp [State.lift, hx]

/-- The next section of `stop` is there to be taken. -/
theorem stop_able (hk : s.stops (.inl p) = .joining k) (h : Helpful p s none) :
    (machine ι α n).Able (own p none) s := by
  rcases h with ⟨c, pending, hth⟩ | ⟨hidle, hjoin⟩
  · refine .of_isSome (a := .notify (.inl p)) rfl ?_
    simp [machine, step, State.lift, QueueThreads.step, hth]
  · refine .of_isSome (a := .join (.inl p)) rfl ?_
    have hcond : s.idle (.inl p) = true := State.idle_iff.mpr hidle
    by_cases hlt : k < n
    · have hw := hjoin ⟨k, hlt⟩ hk
      simp [machine, step, hk, hcond, hlt, hw]
    · simp [machine, step, hk, hcond, hlt]

/-- A worker that is up goes on in its loop, or in the call of its task. -/
theorem Known.worker_able (h : Known tr s) (hout : s.stops (.inr w) = .outside)
    (hexit : s.workers w ≠ .exited)
    (hup : ∀ c, (s.tasks.threads (.inr w)).asleepOn c = false) :
    (machine ι α n).Able (Action.works w) s := by
  have hcall := h.placed.calls (.inr w)
  cases hth : s.tasks.threads (.inr w) with
  | idle =>
      cases hwork : s.workers w with
      | looping =>
          obtain ⟨pick, x, hx⟩ := QueueThreads.exists_pop TimePoint.max hth
          refine .of_isSome (a := .pop w pick) rfl ?_
          simp only [machine, ThreadPool.step, hwork]
          exact lift_isSome ⟨x, hx⟩
      | running task =>
          have hfree : s.free (.inr w) = true :=
            State.free_iff.mpr ⟨hout, fun v hv => ⟨task, Sum.inr.inj hv ▸ hwork⟩⟩
          refine .of_isSome (a := .finish w) rfl ?_
          simp [machine, ThreadPool.step, hwork, hfree, State.idle_iff.mpr hth]
      | counting => exact .of_isSome (a := .count w) rfl (by simp [machine, ThreadPool.step, hwork])
      | exited => exact absurd hwork hexit
  | pushing v deadline x =>
      have hx : x ≠ .asleep := by
        rintro rfl
        simpa [hth, Thread.asleepOn] using hup .notFull
      obtain ⟨pick, y, hy⟩ := QueueThreads.exists_resume_pushing 0 hth hx
      exact .of_isSome (a := .resume (.inr w) 0 pick) rfl (lift_isSome ⟨y, hy⟩)
  | popping deadline x =>
      have hx : x ≠ .asleep := by
        rintro rfl
        simpa [hth, Thread.asleepOn] using hup .notEmpty
      obtain ⟨pick, y, hy⟩ := QueueThreads.exists_resume_popping 0 hth hx
      exact .of_isSome (a := .resume (.inr w) 0 pick) rfl (lift_isSome ⟨y, hy⟩)
  | closing pending =>
      rw [hth] at hcall
      obtain ⟨-, j, hj⟩ := hcall
      cases hout.symm.trans hj

/-- A worker whose pop takes the lock gets a task, or leaves its loop. -/
theorem workers_ne_of_popSection (hlift : s.lift stops b = some (s', evs))
    (hready : s.tasks.queue.closed = true ∨ s.tasks.queue.items ≠ [])
    (hw : s.workers w = .looping)
    (hsec : QueueThreads.PopSection s.tasks (.inr w) TimePoint.max b) :
    s'.workers w ≠ s.workers w := by
  obtain ⟨qevs, htr, hworkers, -⟩ := lift_inv hlift
  have hout := htr.pop_outcome hsec
  generalize s'.tasks = tasks at hout
  rw [hworkers, hw]
  cases hout with
  | popped | drained => simp [receive]
  | sleeps hitems hopen => exact absurd hready (by simp [hitems, hopen])

/-- A worker's own step moves it on, or belongs to a push of its task. -/
theorem Known.works_cases (h : Known tr s)
    (hready : s.tasks.queue.closed = true ∨ s.tasks.queue.items ≠ [])
    (hstep : ThreadPool.step s a = some (s', evs)) (ha : a.works w) :
    s'.workers w ≠ s.workers w ∨ ∃ now pick v deadline, a = .resume (.inr w) now pick ∧
      QueueThreads.PushSection s.tasks (.inr w) v deadline (.resume (.inr w) now pick) := by
  cases a with
  | pop v pick =>
      obtain rfl : v = w := ha
      simp only [ThreadPool.step] at hstep
      split at hstep
      · rename_i hw
        obtain ⟨qevs, htr, -⟩ := lift_inv hstep
        exact .inl (workers_ne_of_popSection hstep hready hw (.enter htr.pop_idle))
      · cases hstep
  | resume t now pick =>
      obtain rfl : t = .inr w := ha
      obtain ⟨qevs, htr, -⟩ := lift_inv hstep
      rcases htr.resume_cases with ⟨v, deadline, hsec⟩ | ⟨deadline, hpopping, hsec⟩
      · exact .inr ⟨now, pick, v, deadline, rfl, hsec⟩
      · obtain ⟨rfl, v, hv, hw⟩ := h.pop _ _ hpopping
        obtain rfl := Sum.inr.inj hv
        exact .inl (workers_ne_of_popSection hstep hready hw hsec)
  | finish v =>
      obtain rfl : v = w := ha
      simp only [ThreadPool.step] at hstep
      split at hstep
      · rename_i hw
        obtain ⟨-, heq⟩ := Option.ite_none_right_eq_some.mp hstep
        obtain ⟨rfl, -⟩ := Prod.mk.inj (Option.some.inj heq)
        exact .inl (by simp [hw])
      · cases hstep
  | count v =>
      obtain rfl : v = w := ha
      simp only [ThreadPool.step] at hstep
      split at hstep
      · rename_i hw
        obtain ⟨rfl, -⟩ := Prod.mk.inj (Option.some.inj hstep)
        exact .inl (by simp [hw])
      · cases hstep
  | post | getUp | stop | clear | close | notify | join | joinSelf => exact absurd ha id

/-- A worker's own step brings it further. -/
theorem Known.not_still (h : Known tr s) (hclosed : s.tasks.queue.closed = true)
    (hstep : ThreadPool.step s a = some (s', evs)) (ha : a.works w) : ¬ Still p s s' := by
  intro hstill
  rcases h.works_cases (.inl hclosed) hstep ha with hne | ⟨now, pick, v, deadline, rfl, hsec⟩
  · exact hne (congrFun hstill.workers w)
  · obtain ⟨qevs, htr, -⟩ := lift_inv hstep
    exact (htr.callLeft_lt hclosed hsec).ne (hstill.calls _)

omit [Fintype ι] [DecidableEq ι] in
theorem Still.helpful (h : Still p s s') {t : Option (Fin n)} (ht : Helpful p s t) :
    Helpful p s' t := by
  cases t with
  | none =>
      simp only [Helpful, h.thread, h.stop, h.workers]
      exact ht
  | some w =>
      obtain ⟨hexit, hup⟩ := ht
      refine ⟨h.workers ▸ hexit, fun c => ?_⟩
      by_contra hasleep
      exact absurd (hup c) (by simp [h.asleep c _ (Bool.not_eq_false _ ▸ hasleep)])

/-! ## The call returns -/

/-- The client `p` has closed the queue, and joins the workers. -/
def Joining (p : ι) (s : State ι α n) : Prop :=
  (∃ tr, Known tr s) ∧ ∃ k, s.stops (.inl p) = .joining k

theorem join_progress : (machine ι α n).Progress (own p) (Joining p)
    (fun s => s.stops (.inl p) = .outside) (State.left p) (Helpful p) where
  helped := by
    rintro s ⟨⟨tr, h⟩, k, hk⟩ -
    exact h.exists_helpful hk
  able := by
    rintro s t ⟨⟨tr, h⟩, k, hk⟩ - ht
    cases t with
    | none => exact stop_able hk ht
    | some w =>
        refine h.worker_able ?_ ht.1 ht.2
        by_contra hne
        cases h.placed.eq_of_joining hk rfl hne
  step := by
    rintro s a s' evs ⟨⟨tr, h⟩, k, hk⟩ - hstep hgoal
    have hclosed := (h.sound.stopped.joining _ k hk).1
    refine ((step_transition h.pop hstep).left_lt h.placed hclosed hk hgoal).imp_right ?_
    rintro ⟨heq, hstill⟩
    refine ⟨heq, fun t ht => ⟨hstill.helpful ht, fun hown => ?_⟩⟩
    cases t with
    | some w => exact h.not_still hclosed hstep hown hstill
    | none =>
        cases stop_move h.placed hstep hown with
        | clear ht | close ht => cases hk.symm.trans ht
        | notify _ _ hmoved => exact hmoved hstill.thread
        | join hj hnext =>
            have hsame := hnext.symm.trans (hstill.stop.trans hj)
            simp at hsame
        | returns _ hout => exact hgoal hout

end Helpful

section Execution

variable [DecidableEq ι] [Fintype ι] {threads capacity : Nat}
  {ex : (machine ι α (threadCount threads)).Execution (.init threads capacity)} {p : ι} {j : Nat}

theorem known_execution (k : Nat) : Known (ex.trace k) (ex.state k) := by
  obtain ⟨as, hrun⟩ := ex.exists_run k
  exact known_of_run hrun

/-- Past the close the call returns. -/
theorem exists_returned (hfair : ex.WeaklyFair (own p)) {k : Nat}
    (hk : (ex.state j).stops (.inl p) = .joining k) :
    ∃ k, j ≤ k ∧ .stopReturned (.inl p) true ∈ ex.events k := by
  by_contra hnone
  have hI : ∀ i, j ≤ i → Joining p (ex.state i) := by
    intro i hi
    refine ex.keeps ⟨⟨_, known_execution j⟩, k, hk⟩ ?_ hi
    rintro i a hi ⟨⟨tr, h⟩, k, hk⟩ hact
    have hstep := ex.step_eq hact
    refine ⟨⟨_, h.step hstep⟩, ?_⟩
    by_cases ha : a.stops (.inl p)
    · cases stop_move h.placed hstep ha with
      | clear ht | close ht => cases hk.symm.trans ht
      | notify _ hnext => exact ⟨_, hnext⟩
      | join _ hnext => exact ⟨_, hnext⟩
      | returns _ _ hevs => exact absurd ⟨i, hi, hevs ▸ List.mem_singleton_self _⟩ hnone
    · exact ⟨k, (stops_kept hstep (by simp [hk]) ha).trans hk⟩
  obtain ⟨i, hi, hout⟩ := ex.exists_goal hfair join_progress j hI
  obtain ⟨-, k, hk⟩ := hI i hi
  cases hout.symm.trans hk

/-- The next step of a `stop` that can take it. -/
theorem exists_stop_move (hfair : ex.FairTo (own p none)) {x : Stop} (hx : x ≠ .outside)
    (hat : (ex.state j).stops (.inl p) = x)
    (hable : ∀ {s tr}, Known tr s → s.stops (.inl p) = x →
      (machine ι α (threadCount threads)).Able (own p none) s) :
    ∃ k, j ≤ k ∧ (ex.state k).stops (.inl p) = x ∧
      StopMove (ex.state k) (ex.state (k + 1)) p (ex.events k) := by
  obtain ⟨k, a, hk, hatk, hact, hown⟩ := ex.exists_own hfair (Q := fun s => s.stops (.inl p) = x)
    hat (fun k _ hatk => hable (known_execution k) hatk) fun hatk ha hstep =>
      (stops_kept hstep (hatk.trans_ne hx) ha).trans hatk
  exact ⟨k, hk, hatk, stop_move (known_execution k).placed (ex.step_eq hact) hown⟩

omit [Fintype ι] [DecidableEq ι] in
/-- A `stop` that has not closed the queue yet is in no call. -/
theorem Placed.idle_of_stops {n : Nat} {s : State ι α n} {t : ι ⊕ Fin n} (h : Placed s)
    (hout : s.stops t ≠ .outside) (hjoin : ∀ k, s.stops t ≠ .joining k) :
    s.tasks.threads t = .idle := by
  have hcall := h.calls t
  cases hth : s.tasks.threads t with
  | idle => rfl
  | pushing =>
      rw [hth] at hcall
      exact absurd (State.free_iff.mp hcall).1 hout
  | popping =>
      rw [hth] at hcall
      exact absurd hcall hout
  | closing =>
      rw [hth] at hcall
      obtain ⟨-, k, hk⟩ := hcall
      exact absurd hk (hjoin k)

theorem exists_joining_of_closing (hfair : ex.FairTo (own p none)) {drain : Bool}
    (hat : (ex.state j).stops (.inl p) = .closing drain) :
    ∃ i, j ≤ i ∧ (ex.state i).stops (.inl p) = .joining 0 := by
  obtain ⟨i, hi, hati, hmove⟩ := exists_stop_move hfair (by simp) hat fun {s tr} h hat => by
    have hidle := h.placed.idle_of_stops (hat.trans_ne (by simp)) (by simp [hat])
    exact .of_isSome (a := .close (.inl p)) rfl
      (by simp [machine, step, hat, State.lift, QueueThreads.step, hidle])
  cases hmove with
  | close _ hnext => exact ⟨i + 1, Nat.le_succ_of_le hi, hnext⟩
  | clear ht | notify ht | join ht | returns ht => cases hati.symm.trans ht

/-- The winner gets to close the queue. -/
theorem exists_joining (hfair : ex.FairTo (own p none)) {drain : Bool}
    (hat : (ex.state j).stops (.inl p) = if drain then .closing true else .clearing) :
    ∃ i, j ≤ i ∧ (ex.state i).stops (.inl p) = .joining 0 := by
  cases drain with
  | true => exact exists_joining_of_closing hfair hat
  | false =>
      obtain ⟨i, hi, hati, hmove⟩ := exists_stop_move hfair (by simp) hat fun {s tr} h hat => by
        have hat : s.stops (.inl p) = .clearing := hat
        have hidle := h.placed.idle_of_stops (hat.trans_ne (by simp)) (by simp [hat])
        exact .of_isSome (a := .clear (.inl p)) rfl
          (by simp [machine, step, hat, State.lift, QueueThreads.step, hidle])
      cases hmove with
      | clear _ hnext =>
          obtain ⟨k, hk, hjoin⟩ := exists_joining_of_closing hfair hnext
          exact ⟨k, by omega, hjoin⟩
      | close ht | notify ht | join ht | returns ht => cases hati.symm.trans ht

omit [Fintype ι] in
theorem Transition.stops_of_won {n : Nat} {s s' : State ι α n} {a : Action ι α n}
    {evs : List (Event ι α n)} {t : ι ⊕ Fin n} {drain : Bool} (h : Transition s a evs s')
    (hmem : .stopWon t drain ∈ evs) :
    s'.stops t = if drain then .closing true else .clearing := by
  cases h with
  | stopWon =>
      simp only [List.mem_singleton, Event.stopWon.injEq] at hmem
      obtain ⟨rfl, rfl⟩ := hmem
      exact Function.update_self ..
  | queue | start | exit | finish | count | stopLost | join | stopReturned | joinSelf =>
      simp at hmem

/-- **Stopping a pool ends.** In every execution that is weakly fair to the thread that won
    the `stop` and to the workers, whose tasks return, the call returns. All workers have
    left their loops then, and if the call drains, every task that was accepted, before or
    after, has been run to its end, each once. The other clients may be stuck. -/
theorem stop_terminates (hfair : ex.WeaklyFair (own p)) {drain : Bool}
    (hwon : .stopWon (.inl p) drain ∈ ex.events j) :
    ∃ k, j < k ∧ .stopReturned (.inl p) true ∈ ex.events k ∧
      (∀ w, (ex.state (k + 1)).workers w = .exited) ∧
      (drain = true →
        (finished (ex.trace (k + 1)) : Multiset α) = accepted (ex.trace (k + 1))) := by
  have hat : (ex.state (j + 1)).stops (.inl p) = if drain then .closing true else .clearing := by
    cases hact : ex.act j with
    | none => simp [Machine.Execution.events, hact] at hwon
    | some a => exact (step_transition (known_execution j).pop (ex.step_eq hact)).stops_of_won hwon
  obtain ⟨i, hi, hjoin⟩ := exists_joining (hfair none) hat
  obtain ⟨k, hk, hret⟩ := exists_returned hfair hjoin
  have hknown : Known (ex.trace (k + 1)) (ex.state (k + 1)) := known_execution (k + 1)
  have hret' : .stopReturned (.inl p) true ∈ ex.trace (k + 1) := by
    rw [ex.trace_succ]
    exact List.mem_append_right _ hret
  refine ⟨k, by omega, hret, (hknown.sound.stopped.returned _ hret').2, ?_⟩
  rintro rfl
  have hwon' : .stopWon (.inl p) true ∈ ex.trace (k + 1) := by
    refine (ex.trace_mono (show j + 1 ≤ k + 1 by omega)).subset ?_
    rw [ex.trace_succ]
    exact List.mem_append_right _ hwon
  have hnone : ∀ t, .stopWon t false ∉ ex.trace (k + 1) := fun t ht =>
    absurd (hknown.once _ _ _ _ hwon' ht) (by simp)
  obtain ⟨-, hitems, hfinished, -⟩ := hknown.sound.of_returned (threadCount_pos _) hret'
  rw [hknown.sound.accepted_eq_started hnone, hitems, List.append_nil, hfinished]

theorem not_able_of_outside {n : Nat} {s : State ι α n} (hout : s.stops (.inl p) = .outside)
    (hidle : s.tasks.threads (.inl p) = .idle) : ¬ (machine ι α n).Able (own p none) s := by
  rintro ⟨a, s', evs, ha, hstep⟩
  cases a with
  | clear u | close u | join u =>
      obtain rfl : u = .inl p := ha
      simp [machine, step, hout] at hstep
  | notify u =>
      obtain rfl : u = .inl p := ha
      simp [machine, step, State.lift, QueueThreads.step, hidle] at hstep
  | joinSelf w => cases ha
  | post | pop | getUp | resume | finish | count | stop => exact ha

theorem not_able_of_exited {n : Nat} {s : State ι α n} {w : Fin n} (hw : s.workers w = .exited)
    (hidle : s.tasks.threads (.inr w) = .idle) :
    ¬ (machine ι α n).Able (own p (some w)) s := by
  rintro ⟨a, s', evs, ha, hstep⟩
  cases a with
  | pop v | finish v | count v =>
      obtain rfl : v = w := ha
      simp [machine, step, hw] at hstep
  | resume t =>
      obtain rfl : t = .inr w := ha
      simp [machine, step, State.lift, QueueThreads.step, hidle] at hstep
  | post | getUp | stop | clear | close | notify | join | joinSelf => exact ha

end Execution

/-- A poster is blocked on the full queue when the pool is stopped. -/
theorem stop_terminates_blocked_poster :
    ∃ ex : (machine (Fin 2) Nat (threadCount 1)).Execution (.init 1 1),
      .stopWon (.inl 1) true ∈ ex.events 4 ∧
      ∃ k, 4 < k ∧ .stopReturned (.inl 1) true ∈ ex.events k ∧
        (∀ w, (ex.state (k + 1)).workers w = .exited) ∧
        (finished (ex.trace (k + 1)) : Multiset Nat) = accepted (ex.trace (k + 1)) := by
  have hrun : ((machine (Fin 2) Nat (threadCount 1)).exec (.init 1 1)
      [.post (.inl 0) .post 7 none, .pop 0 none, .post (.inl 0) .submit 8 none,
        .post (.inl 0) .post 9 none, .stop (.inl 1) true, .close (.inl 1), .notify (.inl 1),
        .notify (.inl 1), .resume (.inl 0) 0 none, .finish 0, .count 0, .pop 0 none, .finish 0,
        .count 0, .pop 0 none, .join (.inl 1), .join (.inl 1)]).isSome = true := by decide
  have hwon : .stopWon (.inl 1) true ∈ (Machine.Execution.ofList _ _ _ hrun).events 4 :=
    List.mem_singleton_self _
  have hfair : (Machine.Execution.ofList _ _ _ hrun).WeaklyFair (own 1) := by
    intro t
    cases t with
    | none => exact Machine.Execution.fairTo_ofList hrun (not_able_of_outside rfl rfl)
    | some w =>
        obtain rfl : w = 0 := Fin.ext (Nat.lt_one_iff.mp w.isLt)
        exact Machine.Execution.fairTo_ofList hrun (not_able_of_exited rfl rfl)
  obtain ⟨k, hk, hret, hexited, hall⟩ := stop_terminates hfair hwon
  exact ⟨_, hwon, k, hk, hret, hexited, hall rfl⟩

end ThreadPool

end Rdb
