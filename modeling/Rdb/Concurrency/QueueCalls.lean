-- SUMMARY: The untimed calls of one thread on a bounded queue: what they come to, what the other threads notice, and that they are never stuck.
import Rdb.Concurrency.QueueThreads

/-!
# Calls on a bounded queue

A program that uses the queue sees one of its threads at a time. A section of an untimed
`push` or `pop` either ends the call or puts its thread to sleep with the queue as it was;
of the other threads it at most gets sleepers up. A thread that is not asleep can always
take its next section.
-/

namespace Rdb

namespace QueueThreads

open BoundedQueue

variable {ι α : Type*}

/-! ## The other threads -/

/-- The thread that takes the step. -/
def Action.actor : Action ι α → ι
  | .push t _ _ _ | .pop t _ _ | .clear t | .close t | .notify t | .getUp t | .resume t _ _ => t

/-- The thread is where it was in its call; it may have got up. -/
def Thread.Kept (th th' : Thread α) : Prop := th' = th ∨ ∃ w, th' = th.getUp w

theorem Thread.Kept.idle {th : Thread α} (h : Thread.Kept .idle th) : th = .idle := by
  rcases h with rfl | ⟨w, rfl⟩ <;> rfl

theorem Thread.Kept.pushing {v : α} {deadline : TimePoint} {w : Waiter} {th : Thread α}
    (h : Thread.Kept (.pushing v deadline w) th) : ∃ w', th = .pushing v deadline w' := by
  rcases h with rfl | ⟨w', rfl⟩
  · exact ⟨w, rfl⟩
  · exact ⟨w', rfl⟩

theorem Thread.Kept.popping {deadline : TimePoint} {w : Waiter} {th : Thread α}
    (h : Thread.Kept (.popping deadline w) th) : ∃ w', th = .popping deadline w' := by
  rcases h with rfl | ⟨w', rfl⟩
  · exact ⟨w, rfl⟩
  · exact ⟨w', rfl⟩

theorem Thread.Kept.closing {pending : List Cond} {th : Thread α}
    (h : Thread.Kept (.closing pending) th) : th = .closing pending := by
  rcases h with rfl | ⟨w, rfl⟩ <;> rfl

theorem notifyAll_kept (c : Cond) (threads : ι → Thread α) (u : ι) :
    Thread.Kept (threads u) (notifyAll c threads u) := by
  unfold notifyAll
  split
  · exact .inr ⟨_, rfl⟩
  · exact .inl rfl

section Kept

variable [DecidableEq ι] {s s' : State ι α} {a : Action ι α} {evs : List (Event ι α)}

theorem NotifiedOne.kept {c : Cond} {threads threads' : ι → Thread α}
    (h : NotifiedOne c threads threads') (u : ι) : Thread.Kept (threads u) (threads' u) := by
  cases h with
  | nobody => exact .inl rfl
  | @moved i hi =>
      by_cases hui : u = i
      · subst hui
        exact .inr ⟨.notified, Function.update_self ..⟩
      · exact .inl (Function.update_of_ne hui ..)

/-- The thread that has the section leaves its call and is not notified by itself. -/
theorem NotifiedOne.self_idle {c : Cond} {threads threads' : ι → Thread α} {t : ι}
    (h : NotifiedOne c (Function.update threads t .idle) threads') : threads' t = .idle :=
  Thread.Kept.idle (by simpa using h.kept t)

/-- A step leaves the other threads where they are in their calls. -/
theorem Transition.kept (h : Transition s a evs s') {u : ι} (hu : u ≠ a.actor) :
    Thread.Kept (s.threads u) (s'.threads u) := by
  have hpush : ∀ {t v deadline}, PushSection s t v deadline a → u ≠ t := by
    rintro t v deadline (_ | _) <;> exact hu
  have hpop : ∀ {t deadline}, PopSection s t deadline a → u ≠ t := by
    rintro t deadline (_ | _) <;> exact hu
  cases h with
  | accept hsec _ _ hone =>
      have hkept := hone.kept u
      rwa [Function.update_of_ne (hpush hsec)] at hkept
  | reject hsec => exact .inl (Function.update_of_ne (hpush hsec) ..)
  | pushSleeps hsec => exact .inl (Function.update_of_ne (hpush hsec) ..)
  | pop hsec _ hone =>
      have hkept := hone.kept u
      rwa [Function.update_of_ne (hpop hsec)] at hkept
  | popNone hsec => exact .inl (Function.update_of_ne (hpop hsec) ..)
  | popSleeps hsec => exact .inl (Function.update_of_ne (hpop hsec) ..)
  | clear => exact notifyAll_kept _ _ _
  | close ha =>
      subst ha
      exact .inl (Function.update_of_ne hu ..)
  | @notify t c pending ha =>
      subst ha
      have hut : u ≠ t := hu
      simpa only [Function.update_of_ne hut] using notifyAll_kept c s.threads u
  | getUp ha =>
      subst ha
      exact .inl (Function.update_of_ne hu ..)

/-- What a step makes of the thread that takes it. -/
inductive ActorMove (s s' : State ι α) (a : Action ι α) : Prop where
  | idle : s'.threads a.actor = .idle → ActorMove s s' a
  | pushing {v : α} {deadline : TimePoint} : PushSection s a.actor v deadline a →
      s.queue.closed = false → s'.threads a.actor = .pushing v deadline .asleep →
      ActorMove s s' a
  | popping {deadline : TimePoint} : PopSection s a.actor deadline a → s.queue.closed = false →
      s'.threads a.actor = .popping deadline .asleep → ActorMove s s' a
  | closing {t : ι} : a = .close t → s'.threads a.actor = .closing [.notEmpty, .notFull] →
      ActorMove s s' a
  | notifying {c : Cond} {pending : List Cond} : s.threads a.actor = .closing (c :: pending) →
      pending ≠ [] → s'.threads a.actor = .closing pending → ActorMove s s' a
  | getUp : Thread.Kept (s.threads a.actor) (s'.threads a.actor) → ActorMove s s' a

omit [DecidableEq ι] in
theorem PushSection.actor_eq {t : ι} {v : α} {deadline : TimePoint}
    (h : PushSection s t v deadline a) : a.actor = t := by
  cases h <;> rfl

omit [DecidableEq ι] in
theorem PopSection.actor_eq {t : ι} {deadline : TimePoint} (h : PopSection s t deadline a) :
    a.actor = t := by
  cases h <;> rfl

theorem Transition.actorMove (h : Transition s a evs s') : ActorMove s s' a := by
  cases h with
  | accept hsec _ _ hone =>
      obtain rfl := hsec.actor_eq
      exact .idle hone.self_idle
  | reject hsec =>
      obtain rfl := hsec.actor_eq
      exact .idle (Function.update_self ..)
  | pushSleeps hsec hopen =>
      obtain rfl := hsec.actor_eq
      exact .pushing hsec hopen (Function.update_self ..)
  | pop hsec _ hone =>
      obtain rfl := hsec.actor_eq
      exact .idle hone.self_idle
  | popNone hsec =>
      obtain rfl := hsec.actor_eq
      exact .idle (Function.update_self ..)
  | popSleeps hsec _ hopen =>
      obtain rfl := hsec.actor_eq
      exact .popping hsec hopen (Function.update_self ..)
  | clear => exact .getUp (notifyAll_kept _ _ _)
  | close ha =>
      subst ha
      exact .closing rfl (Function.update_self ..)
  | @notify t c pending ha hth =>
      subst ha
      by_cases hnil : pending = []
      · exact .idle (by simp [Action.actor, hnil])
      · exact .notifying hth hnil (by simp [Action.actor, hnil])
  | getUp ha =>
      subst ha
      exact .getUp (.inr ⟨.awake, Function.update_self ..⟩)

theorem Transition.clear_idle {t : ι} (h : Transition s (.clear t) evs s') :
    s'.threads t = .idle := by
  cases h with
  | clear ha hidle =>
      cases ha
      exact Thread.Kept.idle (hidle ▸ notifyAll_kept .notFull s.threads _)
  | accept hsec | reject hsec | pushSleeps hsec => cases hsec
  | pop hsec | popNone hsec | popSleeps hsec => cases hsec
  | close ha | notify ha | getUp ha => cases ha

theorem Transition.close_closing {t : ι} (h : Transition s (.close t) evs s') :
    s'.threads t = .closing [.notEmpty, .notFull] := by
  cases h with
  | close ha =>
      cases ha
      exact Function.update_self ..
  | accept hsec | reject hsec | pushSleeps hsec => cases hsec
  | pop hsec | popNone hsec | popSleeps hsec => cases hsec
  | clear ha | notify ha | getUp ha => cases ha

/-- A pop returns in a section of its own. -/
theorem Transition.popSection_of_popped (h : Transition s a evs s') {t : ι} {value : Option α}
    (hmem : .popped t value ∈ evs) : ∃ deadline, PopSection s t deadline a := by
  cases h with
  | pop hsec | popNone hsec =>
      rw [List.mem_singleton, Event.popped.injEq] at hmem
      rw [hmem.1]
      exact ⟨_, hsec⟩
  | accept | reject | pushSleeps | popSleeps | clear | close | notify | getUp => simp at hmem

/-- A pop that returns ends its call. -/
theorem Transition.popped_idle (h : Transition s a evs s') {t : ι} {value : Option α}
    (hmem : .popped t value ∈ evs) : s'.threads t = .idle := by
  cases h with
  | pop _ _ hone =>
      rw [List.mem_singleton, Event.popped.injEq] at hmem
      rw [hmem.1]
      exact hone.self_idle
  | popNone =>
      rw [List.mem_singleton, Event.popped.injEq] at hmem
      rw [hmem.1]
      exact Function.update_self ..
  | accept | reject | pushSleeps | popSleeps | clear | close | notify | getUp => simp at hmem

/-! ## What a call comes to -/

/-- A section of an untimed push on a queue that blocks. -/
inductive PushOutcome (s : State ι α) (t : ι) (v : α) :
    List (Event ι α) → State ι α → Prop where
  | pushed {threads : ι → Thread α} : s.queue.closed = false →
      s.queue.items.length < s.queue.capacity → threads t = .idle →
      PushOutcome s t v [.pushed t v .ok none] ⟨s.queue.accept v, threads⟩
  | closed {threads : ι → Thread α} : s.queue.closed = true → threads t = .idle →
      PushOutcome s t v [.pushed t v .closed none] ⟨s.queue, threads⟩
  | sleeps : s.queue.closed = false → s.queue.capacity ≤ s.queue.items.length →
      PushOutcome s t v []
        ⟨s.queue, Function.update s.threads t (.pushing v TimePoint.max .asleep)⟩

/-- A section of an untimed pop. -/
inductive PopOutcome (s : State ι α) (t : ι) : List (Event ι α) → State ι α → Prop where
  | popped {v : α} {rest : List α} {threads : ι → Thread α} : s.queue.items = v :: rest →
      threads t = .idle →
      PopOutcome s t [.popped t (some v)] ⟨{ s.queue with items := rest }, threads⟩
  | drained {threads : ι → Thread α} : s.queue.items = [] → s.queue.closed = true →
      threads t = .idle → PopOutcome s t [.popped t none] ⟨s.queue, threads⟩
  | sleeps : s.queue.items = [] → s.queue.closed = false →
      PopOutcome s t [] ⟨s.queue, Function.update s.threads t (.popping TimePoint.max .asleep)⟩

theorem Transition.push_outcome (h : Transition s a evs s') (hpol : s.queue.policy = .block)
    {t : ι} {v : α} (hsec : PushSection s t v TimePoint.max a) : PushOutcome s t v evs s' := by
  have hsame : ∀ {t' v' deadline}, PushSection s t' v' deadline a →
      t' = t ∧ v' = v ∧ deadline = TimePoint.max := by
    intro t' v' deadline hsec'
    cases hsec with
    | enter => cases hsec'; exact ⟨rfl, rfl, rfl⟩
    | wake hth =>
        cases hsec' with
        | wake hth' =>
            rw [hth, Thread.pushing.injEq] at hth'
            exact ⟨rfl, hth'.1.symm, hth'.2.1.symm⟩
  have hnopop : ∀ {t' deadline}, ¬ PopSection s t' deadline a := by
    rintro t' deadline hpop
    cases hsec with
    | enter => cases hpop
    | wake hth => cases hpop with | wake hth' => simp [hth] at hth'
  have hact : ∀ u, a ≠ .clear u ∧ a ≠ .close u ∧ a ≠ .notify u ∧ a ≠ .getUp u := by
    intro u
    cases hsec <;> simp
  cases h with
  | accept hsec' heff hacc hone =>
      obtain ⟨rfl, rfl, rfl⟩ := hsame hsec'
      cases heff with
      | ok hopen hroom => exact .pushed hopen hroom hone.self_idle
      | droppedOldest _ _ hpol' => simp [hpol] at hpol'
      | closed | droppedNewest | full => simp [PushStatus.accepted] at hacc
  | reject hsec' heff hrej hmax =>
      obtain ⟨rfl, rfl, rfl⟩ := hsame hsec'
      cases heff with
      | closed hclosed => exact .closed hclosed (Function.update_self ..)
      | droppedNewest _ _ hpol' => simp [hpol] at hpol'
      | full => exact absurd rfl (hmax rfl)
      | ok | droppedOldest => simp [PushStatus.accepted] at hrej
  | pushSleeps hsec' hopen hfull =>
      obtain ⟨rfl, rfl, rfl⟩ := hsame hsec'
      exact .sleeps hopen hfull
  | pop hpop | popNone hpop | popSleeps hpop => exact absurd hpop hnopop
  | clear ha => exact absurd ha (hact _).1
  | close ha => exact absurd ha (hact _).2.1
  | notify ha => exact absurd ha (hact _).2.2.1
  | getUp ha => exact absurd ha (hact _).2.2.2

theorem Transition.pop_outcome (h : Transition s a evs s') {t : ι}
    (hsec : PopSection s t TimePoint.max a) : PopOutcome s t evs s' := by
  have hsame : ∀ {t' deadline}, PopSection s t' deadline a → t' = t ∧ deadline = TimePoint.max := by
    intro t' deadline hsec'
    cases hsec with
    | enter => cases hsec'; exact ⟨rfl, rfl⟩
    | wake hth =>
        cases hsec' with
        | wake hth' =>
            rw [hth, Thread.popping.injEq] at hth'
            exact ⟨rfl, hth'.1.symm⟩
  have hnopush : ∀ {t' v deadline}, ¬ PushSection s t' v deadline a := by
    rintro t' v deadline hpush
    cases hsec with
    | enter => cases hpush
    | wake hth => cases hpush with | wake hth' => simp [hth] at hth'
  have hact : ∀ u, a ≠ .clear u ∧ a ≠ .close u ∧ a ≠ .notify u ∧ a ≠ .getUp u := by
    intro u
    cases hsec <;> simp
  cases h with
  | accept hpush | reject hpush | pushSleeps hpush => exact absurd hpush hnopush
  | pop hsec' hitems hone =>
      obtain ⟨rfl, rfl⟩ := hsame hsec'
      exact .popped hitems hone.self_idle
  | popNone hsec' hitems hmax =>
      obtain ⟨rfl, rfl⟩ := hsame hsec'
      exact .drained hitems (hmax rfl) (Function.update_self ..)
  | popSleeps hsec' hitems hopen =>
      obtain ⟨rfl, rfl⟩ := hsame hsec'
      exact .sleeps hitems hopen
  | clear ha => exact absurd ha (hact _).1
  | close ha => exact absurd ha (hact _).2.1
  | notify ha => exact absurd ha (hact _).2.2.1
  | getUp ha => exact absurd ha (hact _).2.2.2

end Kept

/-! ## A thread that is up can move -/

section Able

variable [Fintype ι] [DecidableEq ι] {s : State ι α} {t : ι} {v : α} {deadline : TimePoint}

theorem exists_notifyOne (c : Cond) (threads : ι → Thread α) :
    ∃ pick threads', notifyOne c threads pick = some threads' := by
  by_cases hnone : ∀ i, (threads i).asleepOn c = false
  · exact ⟨none, threads, by simp [notifyOne, hnone]⟩
  · simp only [not_forall, Bool.not_eq_false] at hnone
    obtain ⟨i, hi⟩ := hnone
    exact ⟨some i, _, if_pos hi⟩

theorem exists_afterPush (s : State ι α) (t : ι) (v : α) (deadline : TimePoint)
    (r : BoundedQueue α × Push α) : ∃ pick p, afterPush s t v deadline pick r = some p := by
  obtain ⟨q, status, evicted | evicted⟩ := r
  · obtain ⟨pick, threads, hone⟩ := exists_notifyOne .notEmpty (Function.update s.threads t .idle)
    refine ⟨pick, ?_⟩
    simp only [afterPush, hone]
    split <;> exact ⟨_, rfl⟩
  · obtain ⟨pick, threads, hone⟩ := exists_notifyOne .notEmpty (Function.update s.threads t .idle)
    refine ⟨pick, ?_⟩
    simp only [afterPush, hone]
    split <;> exact ⟨_, rfl⟩
  · exact ⟨none, _, rfl⟩

theorem exists_afterPop (s : State ι α) (t : ι) (deadline : TimePoint)
    (r : BoundedQueue α × Pop α) : ∃ pick p, afterPop s t deadline pick r = some p := by
  obtain ⟨q, (_ | v) | _⟩ := r
  · exact ⟨none, _, rfl⟩
  · obtain ⟨pick, threads, hone⟩ := exists_notifyOne .notFull (Function.update s.threads t .idle)
    exact ⟨pick, _, by simp only [afterPop, hone]; rfl⟩
  · exact ⟨none, _, rfl⟩

theorem exists_push (v : α) (deadline : TimePoint) (h : s.threads t = .idle) :
    ∃ pick p, step s (.push t v deadline pick) = some p := by
  obtain ⟨pick, p, hp⟩ := exists_afterPush s t v deadline (s.queue.pushUntil v deadline)
  exact ⟨pick, p, by simpa only [step, h] using hp⟩

theorem exists_pop (deadline : TimePoint) (h : s.threads t = .idle) :
    ∃ pick p, step s (.pop t deadline pick) = some p := by
  obtain ⟨pick, p, hp⟩ := exists_afterPop s t deadline (s.queue.popUntil deadline)
  exact ⟨pick, p, by simpa only [step, h] using hp⟩

theorem exists_resume_pushing {w : Waiter} (now : TimePoint)
    (h : s.threads t = .pushing v deadline w) (hw : w ≠ .asleep) :
    ∃ pick p, step s (.resume t now pick) = some p := by
  obtain ⟨pick, p, hp⟩ := exists_afterPush s t v deadline (s.queue.pushWake v deadline now)
  refine ⟨pick, p, ?_⟩
  cases w with
  | asleep => exact absurd rfl hw
  | notified | awake => simpa only [step, h] using hp

theorem exists_resume_popping {w : Waiter} (now : TimePoint)
    (h : s.threads t = .popping deadline w) (hw : w ≠ .asleep) :
    ∃ pick p, step s (.resume t now pick) = some p := by
  obtain ⟨pick, p, hp⟩ := exists_afterPop s t deadline (s.queue.popWake deadline now)
  refine ⟨pick, p, ?_⟩
  cases w with
  | asleep => exact absurd rfl hw
  | notified | awake => simpa only [step, h] using hp

end Able

end QueueThreads

end Rdb
