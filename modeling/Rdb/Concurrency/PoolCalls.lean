-- SUMMARY: Where the threads of a pool are in the code of its queue: who may wait in a push, in a pop and in a close.
import Rdb.Concurrency.PoolShutdown
import Rdb.Concurrency.QueueCalls
import Rdb.Concurrency.Wakeups

/-!
# Calls of a thread pool

A worker or a client waits in a push only while it runs code of its own, and in a pop
only outside of `stop`; it notifies only for the `stop` call that closed the queue. One
`stop` call at most is under way.
-/

namespace Rdb

namespace ThreadPool

open QueueThreads (Thread ActorMove)

variable {ι α : Type*} {n : Nat}

/-- Where the thread may be in the code of the queue. -/
def PlacedAt (s : State ι α n) (t : ι ⊕ Fin n) : Thread α → Prop
  | .idle => True
  | .pushing _ _ _ => s.free t = true
  | .popping _ _ => s.stops t = .outside
  | .closing pending => pending ≠ [] ∧ ∃ k, s.stops t = .joining k

structure Placed (s : State ι α n) : Prop where
  calls : ∀ t, PlacedAt s t (s.tasks.threads t)
  /-- only a task stops the pool from inside a worker -/
  tasks : ∀ w, s.stops (.inr w) ≠ .outside → ∃ task, s.workers w = .running task
  stopping : ∀ t, s.stops t ≠ .outside → s.stopping = true
  one : ∀ t u, s.stops t ≠ .outside → s.stops u ≠ .outside → t = u

theorem placed_init (threads capacity : Nat) :
    Placed (State.init (ι := ι) (α := α) threads capacity) where
  calls _ := trivial
  tasks _ h := absurd rfl h
  stopping _ h := absurd rfl h
  one _ _ h := absurd rfl h

section Steps

variable {s s' : State ι α n} {t : ι ⊕ Fin n} {th th' : Thread α}

theorem State.free_iff : s.free t = true ↔
    s.stops t = .outside ∧ ∀ w, t = .inr w → ∃ task, s.workers w = .running task := by
  unfold State.free
  cases t with
  | inl p => simp
  | inr w => cases hw : s.workers w <;> simp [hw]

/-- A thread that nobody moves stays where it may be. -/
theorem PlacedAt.kept (h : PlacedAt s t th) (hkept : Thread.Kept th th')
    (hstops : s'.stops t = s.stops t)
    (hworkers : ∀ w, t = .inr w → s'.workers w = s.workers w) : PlacedAt s' t th' := by
  cases th with
  | idle => rw [hkept.idle]; exact trivial
  | pushing =>
      obtain ⟨w, rfl⟩ := hkept.pushing
      obtain ⟨hout, htask⟩ := State.free_iff.mp h
      refine State.free_iff.mpr ⟨hstops.trans hout, fun x hx => ?_⟩
      rw [hworkers x hx]
      exact htask x hx
  | popping =>
      obtain ⟨w, rfl⟩ := hkept.popping
      exact hstops.trans h
  | closing =>
      rw [hkept.closing]
      obtain ⟨hpending, k, hk⟩ := h
      exact ⟨hpending, k, hstops.trans hk⟩

end Steps

section Invariant

variable [DecidableEq ι] [Fintype ι] {s s' : State ι α n} {a : Action ι α n}
  {b : QueueThreads.Action (ι ⊕ Fin n) α} {stops : ι ⊕ Fin n → Stop} {evs : List (Event ι α n)}
  {t : ι ⊕ Fin n}

/-- A section of the queue, seen from its threads. -/
theorem lift_inv (h : s.lift stops b = some (s', evs)) :
    ∃ qevs, QueueThreads.Transition s.tasks b qevs s'.tasks ∧
      s'.workers = qevs.foldl receive s.workers ∧ s'.stops = stops ∧
      s'.stopping = s.stopping ∧ evs = qevs.map .queue := by
  obtain ⟨⟨tasks, qevs⟩, hstep, heq⟩ := Option.map_eq_some_iff.mp h
  obtain ⟨rfl, rfl⟩ := Prod.mk.inj heq
  exact ⟨qevs, QueueThreads.step_transition hstep, rfl, rfl, rfl, rfl⟩

/-- A section of the queue only concerns the worker that runs it. -/
theorem lift_workers (h : s.lift stops b = some (s', evs)) {w : Fin n} (hw : .inr w ≠ b.actor) :
    s'.workers w = s.workers w := by
  obtain ⟨qevs, htr, hworkers, -⟩ := lift_inv h
  rw [hworkers]
  refine foldl_receive fun value hmem => ?_
  obtain ⟨deadline, hsec⟩ := htr.popSection_of_popped hmem
  exact hw hsec.actor_eq.symm

/-- The threads that do not run the section stay where they may be. -/
theorem Placed.lift (h : Placed s) (hlift : s.lift stops b = some (s', evs))
    (hstops : ∀ u, u ≠ b.actor → stops u = s.stops u)
    (hactor : PlacedAt s' b.actor (s'.tasks.threads b.actor)) (u : ι ⊕ Fin n) :
    PlacedAt s' u (s'.tasks.threads u) := by
  by_cases hu : u = b.actor
  · rw [hu]
    exact hactor
  · obtain ⟨qevs, htr, -, hs, -⟩ := lift_inv hlift
    refine (h.calls u).kept (htr.kept hu) (by rw [hs, hstops u hu]) ?_
    rintro w rfl
    exact lift_workers hlift hu

/-- Nor does it move that worker on unless its call returns. -/
theorem lift_workers_of_call (h : s.lift stops b = some (s', evs)) {w : Fin n}
    (hw : s'.tasks.threads (.inr w) ≠ .idle) : s'.workers w = s.workers w := by
  obtain ⟨qevs, htr, hworkers, -⟩ := lift_inv h
  rw [hworkers]
  exact foldl_receive fun value hmem => hw (htr.popped_idle hmem)

omit [DecidableEq ι] [Fintype ι] in
/-- A thread that pops is not in `stop`. -/
theorem Placed.outside_of_popSection (h : Placed s)
    (hpop : ∀ t deadline pick, b = .pop t deadline pick → s.stops t = .outside)
    {deadline : TimePoint} (hsec : QueueThreads.PopSection s.tasks t deadline b) :
    s.stops t = .outside := by
  have hcall := h.calls t
  cases hsec with
  | enter => exact hpop _ _ _ rfl
  | wake hpopping =>
      rw [hpopping] at hcall
      exact hcall

/-- The thread that runs a section of a push, a pop or a notification. -/
theorem Placed.actor (h : Placed s) (hlift : s.lift s.stops b = some (s', evs))
    (hpush : ∀ t v deadline pick, b = .push t v deadline pick → s.free t = true)
    (hpop : ∀ t deadline pick, b = .pop t deadline pick → s.stops t = .outside)
    (hclose : ∀ t, b ≠ .close t) : PlacedAt s' b.actor (s'.tasks.threads b.actor) := by
  obtain ⟨qevs, htr, -, hs, -⟩ := lift_inv hlift
  have hcall := h.calls b.actor
  cases htr.actorMove with
  | idle hidle => rw [hidle]; exact trivial
  | @pushing v deadline hsec _ hth =>
      have hfree : s.free b.actor = true := by
        generalize b.actor = t at hsec hcall
        cases hsec with
        | enter => exact hpush _ _ _ _ rfl
        | wake hpushing =>
            rw [hpushing] at hcall
            exact hcall
      obtain ⟨hout, htask⟩ := State.free_iff.mp hfree
      rw [hth]
      refine State.free_iff.mpr ⟨by rw [hs, hout], fun w hw => ?_⟩
      rw [lift_workers_of_call hlift (by rw [← hw, hth]; simp)]
      exact htask w hw
  | popping hsec _ hth =>
      rw [hth]
      exact (congrFun hs _).trans (h.outside_of_popSection hpop hsec)
  | closing heq => exact absurd heq (hclose _)
  | notifying hclosing hne hth =>
      rw [hclosing] at hcall
      rw [hth]
      obtain ⟨-, k, hk⟩ := hcall
      exact ⟨hne, k, (congrFun hs _).trans hk⟩
  | getUp hkept =>
      by_cases hidle : s'.tasks.threads b.actor = .idle
      · rw [hidle]; exact trivial
      · exact hcall.kept hkept (congrFun hs _) fun w hw =>
          lift_workers_of_call hlift (hw ▸ hidle)

/-- A step that only runs a section of the queue, and starts or ends no `stop` call. -/
theorem Placed.of_lift (h : Placed s) (hlift : s.lift s.stops b = some (s', evs))
    (hpush : ∀ t v deadline pick, b = .push t v deadline pick → s.free t = true)
    (hpop : ∀ t deadline pick, b = .pop t deadline pick → s.stops t = .outside)
    (hclose : ∀ t, b ≠ .close t) : Placed s' := by
  obtain ⟨qevs, htr, hworkers, hs, hstopping, -⟩ := lift_inv hlift
  refine ⟨h.lift hlift (fun _ _ => rfl) (h.actor hlift hpush hpop hclose), fun w hw => ?_,
    fun u hu => ?_, fun u v hu hv => h.one u v (hs ▸ hu) (hs ▸ hv)⟩
  · -- a task that is in `stop` is not at its worker's `pop`
    rw [hs] at hw
    obtain ⟨task, htask⟩ := h.tasks w hw
    have hsame : s'.workers w = s.workers w := by
      rw [hworkers]
      refine foldl_receive fun value hmem => ?_
      obtain ⟨deadline, hsec⟩ := htr.popSection_of_popped hmem
      exact hw (h.outside_of_popSection hpop hsec)
    exact ⟨task, hsame.trans htask⟩
  · rw [hstopping]
    exact h.stopping u (hs ▸ hu)

omit [DecidableEq ι] [Fintype ι] in
theorem State.idle_iff : s.idle t = true ↔ s.tasks.threads t = .idle := by
  unfold State.idle
  cases s.tasks.threads t <;> simp

omit [Fintype ι] in
/-- The `stop` call of a thread goes on, or begins. -/
theorem Placed.setStop (h : Placed s) {x : Stop} {stopping : Bool}
    (hidle : s.tasks.threads t = .idle)
    (htask : ∀ w, t = .inr w → ∃ task, s.workers w = .running task) (hstopping : stopping = true)
    (hone : ∀ u, s.stops u ≠ .outside → u = t) :
    Placed { s with stopping := stopping, stops := Function.update s.stops t x } := by
  have honly : ∀ u, Function.update s.stops t x u ≠ .outside → u = t := by
    intro u hu
    by_contra hne
    rw [Function.update_of_ne hne] at hu
    exact hne (hone u hu)
  refine ⟨fun u => ?_, fun w hw => htask w (honly _ hw).symm, fun _ _ => hstopping,
    fun u v hu hv => (honly u hu).trans (honly v hv).symm⟩
  by_cases hu : u = t
  · rw [hu, hidle]; exact trivial
  · exact (h.calls u).kept (.inl rfl) (Function.update_of_ne hu ..) fun _ _ => rfl

omit [DecidableEq ι] [Fintype ι] in
/-- A worker goes on outside of its queue's code. -/
theorem Placed.setWorker (h : Placed s) {w : Fin n} {x : Worker α} {completed : Nat}
    (hpushing : ∀ v deadline waiter, s.tasks.threads (.inr w) ≠ .pushing v deadline waiter)
    (hout : s.stops (.inr w) = .outside) :
    Placed { s with workers := Function.update s.workers w x, completed := completed } := by
  refine ⟨fun u => ?_, fun v hv => ?_, h.stopping, h.one⟩
  · by_cases hu : u = .inr w
    · subst hu
      have hcall := h.calls (.inr w)
      cases hth : s.tasks.threads (.inr w) with
      | pushing v deadline waiter => exact absurd hth (hpushing v deadline waiter)
      | idle => exact trivial
      | popping => exact hout
      | closing pending =>
          rw [hth] at hcall
          exact hcall
    · refine (h.calls u).kept (.inl rfl) rfl ?_
      rintro v rfl
      exact Function.update_of_ne (fun heq => hu (congrArg Sum.inr heq)) ..
  · have hne : v ≠ w := by
      rintro rfl
      exact hv hout
    obtain ⟨task, htask⟩ := h.tasks v hv
    exact ⟨task, (Function.update_of_ne hne ..).trans htask⟩

/-- The two sections of `stop` on the queue. -/
theorem Placed.stopSection (h : Placed s) {x : Stop} (hb : b = .clear t ∨ b = .close t)
    (ht : s.stops t ≠ .outside) (hx : b = .close t → ∃ k, x = .joining k)
    (hlift : s.lift (Function.update s.stops t x) b = some (s', evs)) : Placed s' := by
  obtain ⟨qevs, htr, hworkers, hs, hstopping, -⟩ := lift_inv hlift
  have hactor : b.actor = t := by rcases hb with rfl | rfl <;> rfl
  have honly : ∀ u, s'.stops u ≠ .outside → u = t := by
    intro u hu
    by_contra hne
    rw [hs, Function.update_of_ne hne] at hu
    exact hne (h.one u t hu ht)
  have hsame : s'.workers = s.workers := by
    rw [hworkers]
    funext w
    refine foldl_receive fun value hmem => ?_
    obtain ⟨deadline, hsec⟩ := htr.popSection_of_popped hmem
    rcases hb with rfl | rfl <;> cases hsec
  have hself : PlacedAt s' t (s'.tasks.threads t) := by
    rcases hb with rfl | rfl
    · rw [htr.clear_idle]
      exact trivial
    · rw [htr.close_closing]
      obtain ⟨k, hk⟩ := hx rfl
      exact ⟨by simp, k, by rw [hs, Function.update_self, hk]⟩
  refine ⟨h.lift hlift (fun u hu => Function.update_of_ne (hactor ▸ hu) ..) (hactor.symm ▸ hself),
    fun w hw => ?_, fun u hu => ?_, fun u v hu hv => (honly u hu).trans (honly v hv).symm⟩
  · rw [hsame]
    exact h.tasks w (honly _ hw ▸ ht)
  · rw [hstopping]
    exact h.stopping t ht

theorem Placed.step (h : Placed s) (hstep : step s a = some (s', evs)) : Placed s' := by
  cases a with
  | post t entry task pick =>
      simp only [ThreadPool.step, Option.ite_none_right_eq_some] at hstep
      refine h.of_lift hstep.2 ?_ (by simp) (by simp)
      rintro _ _ _ _ heq
      cases heq
      exact hstep.1
  | pop w pick =>
      simp only [ThreadPool.step] at hstep
      split at hstep
      · rename_i hw
        refine h.of_lift hstep (by simp) ?_ (by simp)
        rintro _ _ _ heq
        cases heq
        by_contra hne
        obtain ⟨task, htask⟩ := h.tasks w hne
        cases hw.symm.trans htask
      · cases hstep
  | getUp t | resume t | notify t => exact h.of_lift hstep (by simp) (by simp) (by simp)
  | finish w =>
      simp only [ThreadPool.step] at hstep
      split at hstep
      · obtain ⟨hcond, heq⟩ := Option.ite_none_right_eq_some.mp hstep
        obtain ⟨hfree, hidle⟩ := Bool.and_eq_true_iff.mp hcond
        obtain ⟨rfl, -⟩ := Prod.mk.inj (Option.some.inj heq)
        refine h.setWorker (fun v deadline waiter => ?_) (State.free_iff.mp hfree).1
        rw [State.idle_iff.mp hidle]
        simp
      · cases hstep
  | count w =>
      simp only [ThreadPool.step] at hstep
      split at hstep
      · rename_i hw
        obtain ⟨rfl, -⟩ := Prod.mk.inj (Option.some.inj hstep)
        have hnot : ∀ task, s.workers w ≠ .running task := fun task => by simp [hw]
        refine h.setWorker (fun v deadline waiter hth => ?_) ?_
        · have hcall := h.calls (.inr w)
          rw [hth] at hcall
          obtain ⟨task, htask⟩ := (State.free_iff.mp hcall).2 w rfl
          exact hnot task htask
        · by_contra hne
          obtain ⟨task, htask⟩ := h.tasks w hne
          exact hnot task htask
      · cases hstep
  | stop t drain =>
      simp only [ThreadPool.step, Option.ite_none_right_eq_some] at hstep
      obtain ⟨hcond, hstep⟩ := hstep
      obtain ⟨hfree, hidle⟩ := Bool.and_eq_true_iff.mp hcond
      split at hstep
      · obtain ⟨rfl, -⟩ := Prod.mk.inj (Option.some.inj hstep)
        exact h
      · rename_i hstopping
        obtain ⟨rfl, -⟩ := Prod.mk.inj (Option.some.inj hstep)
        refine h.setStop (State.idle_iff.mp hidle) (State.free_iff.mp hfree).2 rfl fun u hu => ?_
        exact absurd (h.stopping u hu) hstopping
  | clear t =>
      simp only [ThreadPool.step] at hstep
      split at hstep
      · rename_i ht
        exact h.stopSection (.inl rfl) (by simp [ht]) (by simp) hstep
      · cases hstep
  | close t =>
      simp only [ThreadPool.step] at hstep
      split at hstep
      · rename_i ht
        exact h.stopSection (.inr rfl) (by simp [ht]) (fun _ => ⟨0, rfl⟩) hstep
      · cases hstep
  | join t =>
      simp only [ThreadPool.step] at hstep
      split at hstep
      · rename_i k ht
        have hne : s.stops t ≠ .outside := by simp [ht]
        obtain ⟨hidle, hstep⟩ := Option.ite_none_right_eq_some.mp hstep
        have hset : ∀ x, Placed { s with stops := Function.update s.stops t x } := fun x =>
          h.setStop (State.idle_iff.mp hidle) (fun w hw => h.tasks w (hw ▸ hne))
            (h.stopping t hne) fun u hu => h.one u t hu hne
        split at hstep
        · split at hstep
          · obtain ⟨rfl, -⟩ := Prod.mk.inj (Option.some.inj hstep)
            exact hset _
          · cases hstep
        · obtain ⟨rfl, -⟩ := Prod.mk.inj (Option.some.inj hstep)
          exact hset _
      · cases hstep
  | joinSelf w =>
      simp only [ThreadPool.step] at hstep
      split at hstep
      · rename_i k ht
        have hne : s.stops (.inr w) ≠ .outside := by simp [ht]
        obtain ⟨⟨-, hidle⟩, heq⟩ := Option.ite_none_right_eq_some.mp hstep
        obtain ⟨rfl, -⟩ := Prod.mk.inj (Option.some.inj heq)
        refine h.setStop (State.idle_iff.mp hidle) ?_ (h.stopping _ hne)
          fun u hu => h.one u _ hu hne
        rintro v heq
        cases heq
        exact h.tasks w hne
      · cases hstep

end Invariant

end ThreadPool

end Rdb
