-- SUMMARY: What `close` means for every call on the queue, also for those that were already waiting.
import Rdb.Concurrency.QueueThreads

/-!
# Closing a bounded queue

From the section that sets `closed_` on, a queue only drains: pushes are turned
away, whether they start now or were waiting for space, and pops return what is
left and then nothing. Before it, only a deadline makes a call give up.
-/

namespace Rdb

namespace QueueThreads

open BoundedQueue

variable {ι α : Type*}

/-- The deadline of the call that the action runs a section of. -/
def State.deadlineOf (s : State ι α) : Action ι α → Option TimePoint
  | .push _ _ deadline _ => some deadline
  | .pop _ deadline _    => some deadline
  | .resume t _ _        =>
    match s.threads t with
    | .pushing _ deadline _ => some deadline
    | .popping deadline _   => some deadline
    | _                     => none
  | .clear _ | .close _ | .notify _ | .getUp _ => none

/-- The value a pop returned. -/
def Event.returned : Event ι α → List α
  | .popped _ value => value.toList
  | .pushed _ _ _ _ | .cleared _ _ | .closed _ => []

/-- The values that pops returned, in the order of their sections. -/
def popped (tr : List (Event ι α)) : List α := tr.flatMap Event.returned

@[simp] theorem popped_append (tr tr' : List (Event ι α)) :
    popped (tr ++ tr') = popped tr ++ popped tr' := by simp [popped]

theorem popped_eq_nil {evs : List (Event ι α)} (h : ∀ t value, .popped t value ∉ evs) :
    popped evs = [] := by
  refine List.flatMap_eq_nil_iff.mpr ?_
  intro e he
  cases e with
  | popped t value => exact absurd he (h t value)
  | pushed | cleared | closed => rfl

/-- Where nothing is cleared or evicted, values leave through pops only. -/
theorem left_eq_popped_of_kept {tr : List (Event ι α)}
    (hclear : ∀ t discarded, .cleared t discarded ∉ tr)
    (hevict : ∀ t v status evicted, .pushed t v status evicted ∈ tr → evicted = none) :
    left tr = popped tr := by
  refine List.flatMap_congr fun e he => ?_
  cases e with
  | pushed t v status evicted =>
      obtain rfl := hevict t v status evicted he
      rfl
  | cleared t discarded => exact absurd he (hclear t discarded)
  | popped | closed => rfl

/-! ## A closed queue only drains -/

/-- What is known of a queue that was closed with `items` in it and has seen `tr`
    since. -/
structure Draining (items : List α) (tr : List (Event ι α)) (q : BoundedQueue α) : Prop where
  closed : q.closed = true
  items_eq : items = left tr ++ q.items
  rejected : ∀ t v status evicted, .pushed t v status evicted ∈ tr →
    status = .closed ∧ evicted = none

section Draining

variable {items : List α} {tr evs : List (Event ι α)} {q q' : BoundedQueue α}

theorem Effect.rejected (h : Effect q evs q') (hclosed : q.closed = true) {t : ι} {v : α}
    {status : PushStatus} {evicted : Option α} (hmem : .pushed t v status evicted ∈ evs) :
    status = .closed ∧ evicted = none := by
  cases h with
  | push hp =>
      rw [List.mem_singleton, Event.pushed.injEq] at hmem
      obtain ⟨rfl, rfl, rfl, rfl⟩ := hmem
      cases hp with
      | closed => exact ⟨rfl, rfl⟩
      | droppedNewest hopen | droppedOldest hopen | full hopen | ok hopen =>
          simp [hopen] at hclosed
  | pop | clear | close | quiet => simp at hmem

theorem Effect.entered_eq_nil (h : Effect q evs q') (hclosed : q.closed = true) :
    entered evs = [] := by
  refine List.flatMap_eq_nil_iff.mpr ?_
  intro e he
  cases e with
  | pushed t v status evicted =>
      obtain ⟨rfl, rfl⟩ := h.rejected hclosed he
      rfl
  | popped | cleared | closed => rfl

/-- A closed queue that is empty stays empty. -/
theorem Effect.items_eq_nil (h : Effect q evs q') (hclosed : q.closed = true)
    (hitems : q.items = []) : q'.items = [] := by
  have heq := h.items_eq
  rw [h.entered_eq_nil hclosed, hitems] at heq
  exact (List.append_eq_nil_iff.mp heq.symm).2

theorem Draining.start (hclosed : q.closed = true) :
    Draining (ι := ι) q.items [] q where
  closed := hclosed
  items_eq := rfl
  rejected _ _ _ _ hmem := by simp at hmem

theorem Draining.step (h : Draining items tr q) (he : Effect q evs q') :
    Draining items (tr ++ evs) q' where
  closed := he.closed_mono h.closed
  items_eq := by
    have hitems := he.items_eq
    rw [he.entered_eq_nil h.closed, List.append_nil] at hitems
    rw [h.items_eq, hitems, left_append, List.append_assoc]
  rejected t v status evicted hmem := by
    rcases List.mem_append.mp hmem with hmem | hmem
    · exact h.rejected t v status evicted hmem
    · exact he.rejected h.closed hmem

variable [Fintype ι] [DecidableEq ι] {s s' : State ι α} {as : List (Action ι α)}

theorem draining_of_run (hclosed : s.queue.closed = true) (h : (machine ι α).Run s as tr s') :
    Draining s.queue.items tr s'.queue :=
  Machine.Run.invariant (I := fun tr s' => Draining s.queue.items tr s'.queue) h
    (.start hclosed) fun hI hstep => hI.step (step_effect hstep)

omit [Fintype ι] [DecidableEq ι] in
/-- Without a `clear`, only pops take values out of a closed queue. -/
theorem Draining.left_eq_popped (h : Draining items tr q)
    (hclear : ∀ t discarded, .cleared t discarded ∉ tr) : left tr = popped tr :=
  left_eq_popped_of_kept hclear fun t v status evicted hmem =>
    (h.rejected t v status evicted hmem).2

omit [Fintype ι] [DecidableEq ι] in
/-- A queue that was closed empty has nothing to return. -/
theorem Draining.popped_none (h : Draining [] tr q) {t : ι} {value : Option α}
    (hmem : .popped t value ∈ tr) : value = none := by
  have hleft : left tr = [] := (List.append_eq_nil_iff.mp h.items_eq.symm).1
  have hnil := List.flatMap_eq_nil_iff.mp hleft _ hmem
  simpa [Event.left] using hnil

end Draining

/-! ## The end of a call -/

section Calls

variable [DecidableEq ι] {s s' : State ι α} {a : Action ι α} {evs : List (Event ι α)} {t : ι}
  {v : α} {deadline : TimePoint}

omit [DecidableEq ι] in
theorem PushSection.deadlineOf_eq (h : PushSection s t v deadline a) :
    s.deadlineOf a = some deadline := by
  cases h with
  | enter => rfl
  | wake hth => simp [State.deadlineOf, hth]

omit [DecidableEq ι] in
theorem PopSection.deadlineOf_eq (h : PopSection s t deadline a) :
    s.deadlineOf a = some deadline := by
  cases h with
  | enter => rfl
  | wake hth => simp [State.deadlineOf, hth]

/-- A pop that returns nothing found nothing; without a deadline, it found the
    queue closed, too. -/
theorem Transition.of_popped_none (h : Transition s a evs s') (hmem : .popped t none ∈ evs) :
    s.queue.items = [] ∧ s'.queue = s.queue ∧
      (s.deadlineOf a = some TimePoint.max → s.queue.closed = true) := by
  cases h with
  | popNone hsec hitems hmax =>
      refine ⟨hitems, rfl, ?_⟩
      intro hdeadline
      exact hmax (Option.some.inj (hsec.deadlineOf_eq.symm.trans hdeadline))
  | accept | reject | pop | clear | close | pushSleeps | popSleeps | notify | getUp =>
      simp at hmem

/-- Without a deadline, no push gives up on a full queue. -/
theorem Transition.ne_full (h : Transition s a evs s')
    (hdeadline : s.deadlineOf a = some TimePoint.max) {evicted : Option α} :
    .pushed t v .full evicted ∉ evs := by
  intro hmem
  cases h with
  | accept _ _ hacc =>
      rw [List.mem_singleton, Event.pushed.injEq] at hmem
      obtain ⟨-, -, rfl, -⟩ := hmem
      simp [PushStatus.accepted] at hacc
  | reject hsec _ _ hmax =>
      rw [List.mem_singleton, Event.pushed.injEq] at hmem
      obtain ⟨-, -, rfl, -⟩ := hmem
      exact hmax (Option.some.inj (hsec.deadlineOf_eq.symm.trans hdeadline)) rfl
  | pop | popNone | clear | close | pushSleeps | popSleeps | notify | getUp => simp at hmem

end Calls

/-! ## The law of `close` -/

section Law

variable [Fintype ι] [DecidableEq ι]

/-- **Closing drains and then ends.** From a state whose queue is closed, with
    whatever threads in the middle of whatever calls: all pushes return `Closed`;
    the items only shrink; unless someone clears the queue, the pops return a
    prefix of what was there; and when one returns nothing, the queue is empty and
    all pops from then on return nothing. In a state whose queue is open, a call
    without a deadline neither pops nothing nor reports `Full`. -/
theorem close_drains (s : State ι α) :
    (s.queue.closed = true → ∀ as tr s', (machine ι α).Run s as tr s' →
      (∀ t v status evicted, .pushed t v status evicted ∈ tr → status = .closed) ∧
      s'.queue.items <:+ s.queue.items ∧
      ((∀ t discarded, .cleared t discarded ∉ tr) → popped tr <+: s.queue.items) ∧
      ∀ a s'' evs t, (machine ι α).step s' a = some (s'', evs) → .popped t none ∈ evs →
        s'.queue.items = [] ∧
        ∀ as₁ tr₁ s₁, (machine ι α).Run s'' as₁ tr₁ s₁ →
          ∀ u value, .popped u value ∈ tr₁ → value = none) ∧
    (s.queue.closed = false → ∀ a s' evs, (machine ι α).step s a = some (s', evs) →
      s.deadlineOf a = some TimePoint.max →
      (∀ t, .popped t none ∉ evs) ∧ ∀ t v evicted, .pushed t v .full evicted ∉ evs) := by
  refine ⟨?_, ?_⟩
  · intro hclosed as tr s' hrun
    have hdrain := draining_of_run hclosed hrun
    refine ⟨?_, ?_, ?_, ?_⟩
    · intro t v status evicted hmem
      exact (hdrain.rejected t v status evicted hmem).1
    · exact ⟨left tr, hdrain.items_eq.symm⟩
    · intro hclear
      exact ⟨s'.queue.items, (hdrain.left_eq_popped hclear) ▸ hdrain.items_eq.symm⟩
    · intro a s'' evs t hstep hmem
      -- the run that follows starts from a queue that is closed and empty
      obtain ⟨hitems, hqueue, -⟩ := (step_transition hstep).of_popped_none hmem
      refine ⟨hitems, ?_⟩
      intro as₁ tr₁ s₁ hrun₁ u value hvalue
      have hdrain₁ := draining_of_run (hqueue ▸ hdrain.closed) hrun₁
      rw [hqueue, hitems] at hdrain₁
      exact hdrain₁.popped_none hvalue
  · intro hopen a s' evs hstep hdeadline
    have htr := step_transition hstep
    refine ⟨?_, fun t v evicted => htr.ne_full hdeadline⟩
    intro t hmem
    obtain ⟨-, -, hclosed⟩ := htr.of_popped_none hmem
    simp [hclosed hdeadline] at hopen

/-- A producer waits for space when the queue is closed: it is turned away, and a
    consumer gets the two values that are left and then nothing. -/
theorem close_drains_waiting_producer :
    ∃ s tr s', (∃ tr₀, (machine (Fin 3) Nat).Run (.init 2 .block)
        [.push 0 7 TimePoint.max none, .push 0 8 TimePoint.max none,
          .push 0 9 TimePoint.max none, .close 1] tr₀ s) ∧
      (machine (Fin 3) Nat).Run s
        [.notify 1, .notify 1, .resume 0 0 none, .pop 2 TimePoint.max none,
          .pop 2 TimePoint.max none, .pop 2 TimePoint.max none] tr s' ∧
      s.queue.items = [7, 8] ∧ popped tr = [7, 8] ∧ popped tr <+: s.queue.items ∧
      .pushed 0 9 .closed none ∈ tr := by
  refine ⟨_, _, _, ⟨_, .of_isSome _ _ _ (by decide)⟩, .of_isSome _ _ _ (by decide), by decide,
    by decide, ?_, by decide⟩
  refine ((close_drains _).1 (by decide) _ _ _ (.of_isSome _ _ _ _)).2.2.1 ?_
  intro t discarded hmem
  have hnone := (by decide : ∀ e ∈ _, (match e with | .cleared _ _ => true | _ => false) = false)
    _ hmem
  simp at hnone

end Law

end QueueThreads

end Rdb
