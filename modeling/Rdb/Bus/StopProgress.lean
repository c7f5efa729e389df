-- SUMMARY: Unsubscribe and shutdown return when the callbacks of what they stop do: a closed queue is drained and its worker exits.
import Rdb.Bus.Progress
import Rdb.Bus.Shutdown

/-!
# Stopping returns

`stop_subscription` closes the queue and joins the worker, so it waits for the worker to
drain what is left, one callback after the other. It returns if those callbacks do; the
workers of other subscriptions and all other threads may be stuck.
-/

namespace Rdb

variable {ι τ π η : Type*}

namespace BoundedQueue

variable {α : Type*} {q : BoundedQueue α}

/-- A pop does not wait for what is there, or can never come. -/
theorem pop_ne_sleeping (hready : q.items = [] → q.closed = true) : q.pop.2 ≠ .sleeping := by
  unfold pop popUntil
  cases hitems : q.items with
  | nil => simp [popFront, hitems, hready hitems]
  | cons v rest => simp [popFront, hitems]

end BoundedQueue

namespace Subscription

variable {sub sub' : Subscription τ π} {levs : List (SubEvent ι π)}

/-! ## Draining a closed queue -/

/-- How many steps the worker is away from leaving its loop, in the worst case. -/
def drainLeft (sub : Subscription τ π) : Nat :=
  3 * sub.queue.items.length +
    match sub.worker with
    | .notStarted | .exited => 0
    | .popping => 1
    | .calling _ => 2
    | .holding _ => 3

theorem Step.closed (h : sub.Step levs sub') (hclosed : sub.queue.closed = true) :
    sub'.queue.closed = true := by
  cases h with
  | push heff => exact heff.capacity_eq.2.2 ▸ hclosed
  | close => rfl
  | reject | pop | exit | expire | call | finish | spawn | assign | join | stay => exact hclosed

theorem Step.started (h : sub.Step levs sub') (hw : sub.worker ≠ .notStarted) :
    sub'.worker ≠ .notStarted := by
  cases h with
  | push | reject | assign | close | join | stay => exact hw
  | pop | exit | expire | call | finish | spawn => simp

theorem Step.worker_exited (h : sub.Step levs sub') (hw : sub.worker = .exited) :
    sub'.worker = .exited := by
  cases h with
  | push | reject | assign | close | join | stay => exact hw
  | pop hw' | exit hw' | expire hw' | call hw' | finish hw' | spawn hw' =>
      cases hw.symm.trans hw'

/-- A closed queue takes nothing in, and each step of the worker brings its end nearer. -/
theorem Step.drainLeft_le (h : sub.Step levs sub') (hclosed : sub.queue.closed = true)
    (hw : sub.worker ≠ .notStarted) :
    sub'.drainLeft ≤ sub.drainLeft ∧
      (sub'.worker ≠ sub.worker → sub'.drainLeft < sub.drainLeft) := by
  cases h with
  | push heff =>
      refine ⟨?_, fun hne => absurd rfl hne⟩
      cases heff with
      | closed => exact Nat.le_refl _
      | droppedNewest hopen | droppedOldest hopen | full hopen | ok hopen =>
          exact absurd (hopen.symm.trans hclosed) Bool.false_ne_true
  | pop hp hitems => simp [drainLeft, hp, hitems]; omega
  | exit hp | expire hp | call hp | finish hp => simp [drainLeft, hp]
  | spawn hp => exact absurd hp hw
  | reject | assign | close | join | stay =>
      exact ⟨Nat.le_refl _, fun hne => absurd rfl hne⟩

/-! ## The worker does not stand still -/

/-- A pop that need not wait takes the worker on. -/
theorem popNext_ne (h : sub.popNext = some (sub', levs))
    (hready : sub.worker = .popping → sub.queue.items = [] → sub.queue.closed = true) :
    sub'.worker ≠ sub.worker := by
  unfold popNext at h
  split at h
  · rename_i hw
    split at h
    · obtain ⟨rfl, -⟩ := Prod.mk.inj (Option.some.inj h)
      simp [hw]
    · obtain ⟨rfl, -⟩ := Prod.mk.inj (Option.some.inj h)
      simp [hw]
    · rename_i queue hpop
      exact absurd (congrArg Prod.snd hpop) (BoundedQueue.pop_ne_sleeping (hready hw))
  · cases h

theorem deliver_ne {now : UInt64} (h : sub.deliver now = some (sub', levs)) :
    sub'.worker ≠ sub.worker := by
  unfold deliver at h
  split at h
  · rename_i hw
    split at h <;> (obtain ⟨rfl, -⟩ := Prod.mk.inj (Option.some.inj h); simp [hw])
  · cases h

theorem finish_ne (h : sub.finish = some (sub', levs)) : sub'.worker ≠ sub.worker := by
  unfold finish at h
  split at h
  · rename_i hw
    obtain ⟨rfl, -⟩ := Prod.mk.inj (Option.some.inj h)
    simp [hw]
  · cases h

end Subscription

namespace TopicBus

/-! ## The steps of a worker -/

section Worker

variable [DecidableEq ι] [DecidableEq τ] {s s' : BusState ι τ π η} {a : BusAction ι τ π η}
  {evs : List (BusEvent ι π η)} {sid : SubId} {sub : Subscription τ π}

/-- A worker in its loop can always take a step. -/
theorem worker_able (hsub : s.subs sid = some sub) (hw : sub.worker ≠ .notStarted)
    (hex : sub.worker ≠ .exited) :
    (machine ι τ π η).Able (fun a => a.byWorkerOf sid = true) s := by
  have hable : ∀ {a} {f : Subscription τ π → Option (Subscription τ π × List (SubEvent ι π))},
      a.byWorkerOf sid = true → step s a = workerStep s sid f → (f sub).isSome = true →
      (machine ι τ π η).Able (fun a => a.byWorkerOf sid = true) s := by
    intro a f ha hstep hf
    refine .of_isSome ha ?_
    rw [show (machine ι τ π η).step s a = _ from hstep]
    simpa [workerStep, hsub] using hf
  cases hworker : sub.worker with
  | notStarted => exact absurd hworker hw
  | exited => exact absurd hworker hex
  | popping =>
      refine hable (a := .workerPop sid) (by simp [BusAction.byWorkerOf]) rfl ?_
      simp only [Subscription.popNext, hworker]
      split <;> rfl
  | holding env =>
      refine hable (a := .workerDeliver sid 0) (by simp [BusAction.byWorkerOf]) rfl ?_
      simp only [Subscription.deliver, hworker]
      split <;> rfl
  | calling env =>
      refine hable (a := .workerFinish sid) (by simp [BusAction.byWorkerOf]) rfl ?_
      simp [Subscription.finish, hworker]

/-- What the worker does when it need not wait. -/
theorem worker_moves (h : step s a = some (s', evs)) (ha : a.byWorkerOf sid = true)
    (hsub : s.subs sid = some sub)
    (hready : sub.worker = .popping → sub.queue.items = [] → sub.queue.closed = true) :
    ∃ sub', s'.subs sid = some sub' ∧ sub'.worker ≠ sub.worker := by
  have hmove : ∀ {f : Subscription τ π → Option (Subscription τ π × List (SubEvent ι π))},
      workerStep s sid f = some (s', evs) →
      (∀ {sub' levs}, f sub = some (sub', levs) → sub'.worker ≠ sub.worker) →
      ∃ sub', s'.subs sid = some sub' ∧ sub'.worker ≠ sub.worker := by
    intro f hf hne
    obtain ⟨sub₀, sub', levs, hsub₀, hr, rfl, -⟩ := workerStep_inv hf
    cases hsub.symm.trans hsub₀
    exact ⟨sub', Function.update_self .., hne hr⟩
  cases a with
  | workerPop i =>
      obtain rfl : i = sid := of_decide_eq_true ha
      exact hmove h fun hr => Subscription.popNext_ne hr hready
  | workerDeliver i now =>
      obtain rfl : i = sid := of_decide_eq_true ha
      exact hmove h Subscription.deliver_ne
  | workerFinish i =>
      obtain rfl : i = sid := of_decide_eq_true ha
      exact hmove h Subscription.finish_ne
  | _ => cases ha

end Worker

/-! ## What the calls that stop know -/

/-- What holds of the threads inside `stop_subscription`, and of subscriptions whose
    worker is not running yet. -/
structure Stoppable (s : BusState ι τ π η) : Prop where
  known : ∀ {p owner phase rest sid}, s.threads p = .stopping owner phase rest → sid ∈ rest →
    ∃ sub, s.subs sid = some sub
  /-- between the close and the join the queue is closed -/
  closed : ∀ {p owner phase rest}, s.threads p = .stopping owner phase rest → phase ≠ .close →
    ∃ sid rest' sub, rest = sid :: rest' ∧ s.subs sid = some sub ∧ sub.queue.closed = true
  unstarted : ∀ {sid sub}, s.subs sid = some sub → sub.worker = .notStarted →
    ∃ p rest, s.threads p = .backlog sid rest

theorem stoppable_init : Stoppable (init : BusState ι τ π η) where
  known h := by cases h
  closed h := by cases h
  unstarted h := by cases h

section Invariant

variable [DecidableEq ι] {s s' : BusState ι τ π η} {a : BusAction ι τ π η}
  {evs : List (BusEvent ι π η)}

/-- What a call sets out to stop exists. -/
theorem Transition.detached_known (ht : Transition s a evs s') (wf : WF s) {p : ι}
    {owner : Option SubId} {all : List SubId} (hmem : .detached p owner all ∈ evs) {sid : SubId}
    (hsid : sid ∈ all) : ∃ sub, s.subs sid = some sub := by
  cases ht with
  | unsubscribe _ hsub =>
      rw [List.mem_singleton, BusEvent.detached.injEq] at hmem
      obtain ⟨-, -, rfl⟩ := hmem
      exact ⟨_, List.mem_singleton.mp hsid ▸ hsub⟩
  | shutdown _ hall =>
      rw [List.mem_singleton, BusEvent.detached.injEq] at hmem
      obtain ⟨-, -, rfl⟩ := hmem
      obtain ⟨⟨topic, entry⟩, hentry, hin⟩ := List.mem_flatMap.mp (hall.mem_iff.mp hsid)
      obtain ⟨sub, hsub, -⟩ := (wf.topics topic entry (AList.mem_lookup_iff.mpr hentry)).own hin
      exact ⟨sub, hsub⟩
  | published _ _ _ _ hm =>
      rcases mem_published hm hmem with heq | ⟨_, _, heq⟩
      · cases heq
      · cases heq
  | _ => simp at hmem

/-- A thread that is between the close and the join was there, or closes the queue. -/
theorem Transition.closing_inv (ht : Transition s a evs s') {p : ι} {owner : Option SubId}
    {phase : StopPhase} {rest : List SubId} (h : s'.threads p = .stopping owner phase rest)
    (hphase : phase ≠ .close) :
    (∃ phase', phase' ≠ .close ∧ s.threads p = .stopping owner phase' rest) ∨
      ∃ sid rest' sub, rest = sid :: rest' ∧ s'.subs sid = some sub ∧
        sub.queue.closed = true := by
  cases ht with
  | advertise | setHandler | setTimeout | conflict | worker => exact .inl ⟨phase, hphase, h⟩
  | subscribe | pushBacklog | spawn | assign | publish | publishFailed | published | report
  | pushSleep | pushReturn | publishReturn | stopReturn =>
      rcases ThreadSum.eq_or_of_update h with ⟨-, hc⟩ | hold
      · cases hc
      · exact .inl ⟨phase, hphase, hold⟩
  | unsubscribe | shutdown | stopSkip | stopJoin =>
      rcases ThreadSum.eq_or_of_update h with ⟨-, hc⟩ | hold
      · exact absurd (Call.stopping.inj hc).2.1.symm hphase
      · exact .inl ⟨phase, hphase, hold⟩
  | stopClose =>
      rcases ThreadSum.eq_or_of_update h with ⟨-, hc⟩ | hold
      · obtain ⟨-, -, rfl⟩ := Call.stopping.inj hc
        exact .inr ⟨_, _, _, rfl, Function.update_self .., rfl⟩
      · exact .inl ⟨phase, hphase, hold⟩
  | stopJoinable hp =>
      rcases ThreadSum.eq_or_of_update h with ⟨rfl, hc⟩ | hold
      · obtain ⟨rfl, -, rfl⟩ := Call.stopping.inj hc
        exact .inl ⟨.joinable, by simp, hp⟩
      · exact .inl ⟨phase, hphase, hold⟩

/-- Whoever is to start a worker goes on to do so. -/
theorem Transition.backlog_kept (ht : Transition s a evs s') {p : ι} {sid : SubId}
    {rest : List (Envelope π)} (hp : s.threads p = .backlog sid rest) {sub' : Subscription τ π}
    (hsub' : s'.subs sid = some sub') (hw : sub'.worker = .notStarted) :
    ∃ rest', s'.threads p = .backlog sid rest' := by
  by_cases ha : a.goesOn p
  · have hmove := ht.callMove ha
    rw [hp] at hmove
    cases hmove with
    | pushBacklog hnext => exact ⟨_, hnext⟩
    | spawn hsub hpopping =>
        cases hsub.symm.trans hsub'
        cases hpopping.symm.trans hw
  · exact ⟨rest, (ht.call_kept ha (by simp [hp])).trans hp⟩

/-- A new subscription is still to be started. -/
theorem Transition.backlog_of_new (ht : Transition s a evs s') (wf : WF s) {sid : SubId}
    (hnone : s.subs sid = none) {sub' : Subscription τ π} (hsub' : s'.subs sid = some sub') :
    ∃ p rest, s'.threads p = .backlog sid rest := by
  -- a step that changes the record of another subscription
  have hother : ∀ {i sub sub''}, s.subs i = some sub →
      Function.update s.subs i (some sub'') sid ≠ some sub' := by
    intro i sub sub'' hi
    have hne : sid ≠ i := by
      rintro rfl
      cases hnone.symm.trans hi
    simp [Function.update_of_ne hne, hnone]
  cases ht with
  | advertise | setHandler | setTimeout | conflict | publish | publishFailed | report | pushSleep
  | publishReturn | unsubscribe | shutdown | stopJoinable | stopSkip | stopReturn =>
      cases hnone.symm.trans hsub'
  | @subscribe _ _ _ _ i =>
      by_cases hi : sid = i
      · subst hi
        exact ⟨_, _, Function.update_self ..⟩
      · exact absurd hsub' (by simp [hi, hnone])
  | published _ hlook _ _ hm =>
      rw [hm, matchAll_eq s _ (wf.topics _ _ hlook).nodup] at hsub'
      simp [matched, hnone] at hsub'
  | pushBacklog _ hsub | spawn _ hsub | assign _ hsub | pushReturn _ _ _ hsub
  | stopClose _ hsub | stopJoin _ hsub | worker hsub => exact absurd hsub' (hother hsub)

theorem Stoppable.step (h : Stoppable s) (wf : WF s) (ht : Transition s a evs s') :
    Stoppable s' := by
  have hsubs := ht.subsStep wf
  refine ⟨fun {p owner phase rest sid} hp hsid => ?_, fun {p owner phase rest} hp hphase => ?_,
    fun {sid sub'} hsub' hw => ?_⟩
  · have hold : ∃ sub, s.subs sid = some sub := by
      rcases ht.stopping_inv hp with ⟨_, _, hold, hsubset⟩ | hdet
      · exact h.known hold (hsubset hsid)
      · exact ht.detached_known wf hdet hsid
    obtain ⟨sub, hsub⟩ := hold
    obtain ⟨sub', hsub', -⟩ := hsubs.old hsub
    exact ⟨sub', hsub'⟩
  · rcases ht.closing_inv hp hphase with ⟨phase', hphase', hold⟩ | hnew
    · obtain ⟨sid, rest', sub, rfl, hsub, hclosed⟩ := h.closed hold hphase'
      obtain ⟨sub', hsub', hstep⟩ := hsubs.old hsub
      exact ⟨sid, rest', sub', rfl, hsub', hstep.closed hclosed⟩
    · exact hnew
  · cases hsub : s.subs sid with
    | none => exact ht.backlog_of_new wf hsub hsub'
    | some sub =>
        obtain ⟨sub'', hsub'', hstep⟩ := hsubs.old hsub
        cases hsub'.symm.trans hsub''
        have hwold : sub.worker = .notStarted := not_not.mp fun hne => hstep.started hne hw
        obtain ⟨p, rest, hp⟩ := h.unstarted hsub hwold
        obtain ⟨rest', hp'⟩ := ht.backlog_kept hp hsub' hw
        exact ⟨p, rest', hp'⟩

/-! ## Who joins a worker -/

/-- The worker of `sid` is assigned and not joined. -/
def Joinable (sid : SubId) (s : BusState ι τ π η) : Prop :=
  ∃ sub, s.subs sid = some sub ∧ sub.thread = .joinable

/-- Nothing but a join ends that. -/
theorem Joinable.step {sid : SubId} (h : Joinable sid s) (wf : WF s) (ht : Transition s a evs s') :
    Joinable sid s' ∨ ∃ q, a = .stopJoin q sid := by
  obtain ⟨sub, hsub, hth⟩ := h
  -- a record that is replaced keeps its thread object
  have hupdate : ∀ {i sub₀ sub₁}, s.subs i = some sub₀ → sub₁.thread = sub₀.thread →
      ∃ sub', Function.update s.subs i (some sub₁) sid = some sub' ∧ sub'.thread = .joinable := by
    intro i sub₀ sub₁ hi hsame
    by_cases hs : sid = i
    · subst hs
      cases hsub.symm.trans hi
      exact ⟨sub₁, Function.update_self .., hsame.trans hth⟩
    · exact ⟨sub, by rw [Function.update_of_ne hs, hsub], hth⟩
  cases ht with
  | advertise | setHandler | setTimeout | conflict | publish | publishFailed | report | pushSleep
  | publishReturn | unsubscribe | shutdown | stopJoinable | stopSkip | stopReturn =>
      exact .inl ⟨sub, hsub, hth⟩
  | @subscribe _ _ _ _ i _ _ hi =>
      have hne : sid ≠ i := by
        rintro rfl
        cases hsub.symm.trans hi
      exact .inl ⟨sub, by simp [hne, hsub], hth⟩
  | @published _ _ _ qos _ _ entry _ _ _ hlook _ _ hm =>
      have hrecord : ∃ sub', (matched s qos entry.subs).subs sid = some sub' ∧
          sub'.topic = sub.topic ∧ sub'.thread = sub.thread ∧ sub'.worker = sub.worker :=
        matched_record hsub
      obtain ⟨sub', hsub', -, hth', -⟩ := hrecord
      rw [hm, matchAll_eq s _ (wf.topics _ _ hlook).nodup]
      exact .inl ⟨sub', hsub', hth'.trans hth⟩
  | pushBacklog _ hi | spawn _ hi | pushReturn _ _ _ hi | stopClose _ hi =>
      exact .inl (hupdate hi rfl)
  | worker hi hstep => exact .inl (hupdate hi hstep.thread_eq)
  | @assign p i sub₀ hp hi =>
      obtain ⟨sub₁, hsub₁, hempty⟩ := wf.starting hp
      have hne : sid ≠ i := by
        rintro rfl
        cases hsub.symm.trans hsub₁
        cases hth.symm.trans hempty
      exact .inl ⟨sub, by simp [Function.update_of_ne hne, hsub], hth⟩
  | @stopJoin q owner i rest sub₀ hp hi =>
      by_cases hs : sid = i
      · subst hs
        exact .inr ⟨q, rfl⟩
      · exact .inl ⟨sub, by simp [Function.update_of_ne hs, hsub], hth⟩

end Invariant

/-! ## A worker whose queue is closed exits -/

section Execution

variable [DecidableEq ι] [DecidableEq τ] (ex : (machine ι τ π η).Execution init) {p : ι}
  {sid : SubId} {n : Nat}

theorem stoppable_execution (n : Nat) : Stoppable (ex.state n) := by
  obtain ⟨as, hrun⟩ := ex.exists_run n
  have hinv : WF (ex.state n) ∧ Stoppable (ex.state n) :=
    Machine.Run.invariant (I := fun _ s => WF s ∧ Stoppable s) hrun
      ⟨wf_ofTopics bare_empty, stoppable_init⟩ fun ⟨wf, hI⟩ hstep =>
        ⟨(step_transition hstep).wf wf, hI.step wf (step_transition hstep)⟩
  exact hinv.2

/-- The worker of `sid` has been started, and finds its queue closed. -/
def Draining (sid : SubId) (s : BusState ι τ π η) : Prop :=
  WF s ∧ ∃ sub, s.subs sid = some sub ∧ sub.queue.closed = true ∧ sub.worker ≠ .notStarted

def Exited (sid : SubId) (s : BusState ι τ π η) : Prop :=
  ∃ sub, s.subs sid = some sub ∧ sub.worker = .exited

def drainLeft (sid : SubId) (s : BusState ι τ π η) : Nat :=
  ((s.subs sid).map Subscription.drainLeft).getD 0

omit ex in
theorem Draining.step {s s' : BusState ι τ π η} {a : BusAction ι τ π η}
    {evs : List (BusEvent ι π η)} (h : Draining sid s) (hstep : step s a = some (s', evs)) :
    Draining sid s' ∧ drainLeft sid s' ≤ drainLeft sid s ∧
      (a.byWorkerOf sid = true → drainLeft sid s' < drainLeft sid s) := by
  obtain ⟨wf, sub, hsub, hclosed, hw⟩ := h
  have ht := step_transition hstep
  obtain ⟨sub', hsub', hlocal⟩ := (ht.subsStep wf).old hsub
  have hle := hlocal.drainLeft_le hclosed hw
  simp only [drainLeft, hsub, hsub', Option.map_some, Option.getD_some]
  refine ⟨⟨ht.wf wf, sub', hsub', hlocal.closed hclosed, hlocal.started hw⟩, hle.1, fun ha => ?_⟩
  obtain ⟨sub'', hsub'', hne⟩ := worker_moves hstep ha hsub fun _ _ => hclosed
  cases hsub'.symm.trans hsub''
  exact hle.2 hne

omit ex in
theorem drain_progress : (machine ι τ π η).Progress
    (fun _ : Unit => fun a => a.byWorkerOf sid = true) (Draining sid) (Exited sid)
    (drainLeft sid) fun _ _ => True where
  helped _ _ := ⟨(), trivial⟩
  able := by
    rintro s - ⟨-, sub, hsub, -, hw⟩ hgoal -
    exact worker_able hsub hw fun hex => hgoal ⟨sub, hsub, hex⟩
  step := by
    intro s a s' evs hI _ hstep _
    obtain ⟨-, hle, hlt⟩ := hI.step hstep
    by_cases ha : a.byWorkerOf sid = true
    · exact .inl (hlt ha)
    · exact (Nat.lt_or_eq_of_le hle).imp_right fun heq => ⟨heq, fun _ _ => ⟨trivial, ha⟩⟩

variable {ex}

theorem exists_exited (hfair : ex.FairTo fun a => a.byWorkerOf sid = true)
    (hdrain : Draining sid (ex.state n)) : ∃ k, n ≤ k ∧ Exited sid (ex.state k) := by
  have hI : ∀ k, n ≤ k → Draining sid (ex.state k) := by
    intro k hk
    exact ex.keeps hdrain (fun _ hQ hact => (hQ.step (ex.step_eq hact)).1) hk
  exact ex.exists_goal (fun _ => hfair) drain_progress n hI

/-- An exited worker stays so. -/
theorem exited_mono (hex : Exited sid (ex.state n)) {k : Nat} (hk : n ≤ k) :
    Exited sid (ex.state k) := by
  refine ex.keeps hex ?_ hk
  rintro k a - ⟨sub, hsub, hw⟩ hact
  obtain ⟨sub', hsub', hstep⟩ :=
    ((step_transition (ex.step_eq hact)).subsStep (accounted_execution ex k).wf).old hsub
  exact ⟨sub', hsub', hstep.worker_exited hw⟩

/-! ## The calls that stop return -/

omit ex in
/-- A call that stops can go on, unless it is to join a worker in its loop, or one that
    another call has joined. -/
theorem stopping_able {s : BusState ι τ π η} {owner : Option SubId} {phase : StopPhase}
    {rest : List SubId} (h : Stoppable s) (hp : s.threads p = .stopping owner phase rest)
    (hjoin : phase = .join → ∀ {sid rest'}, rest = sid :: rest' → Exited sid s ∧ Joinable sid s) :
    (machine ι τ π η).Able (BusAction.goesOn p) s := by
  cases rest with
  | nil =>
      cases phase with
      | close => exact .of_isSome (a := .stopReturn p owner) rfl (by simp [machine, step, hp])
      | joinable | join =>
          obtain ⟨_, _, _, hcons, -⟩ := h.closed hp (by simp)
          cases hcons
  | cons sid rest =>
      obtain ⟨sub, hsub⟩ := h.known hp List.mem_cons_self
      cases phase with
      | close =>
          exact .of_isSome (a := .stopClose p sid) rfl (by simp [machine, step, stopStep, hp, hsub])
      | joinable =>
          refine .of_isSome (a := .stopJoinable p sid) rfl ?_
          by_cases hth : sub.thread = .joinable <;>
            simp [machine, step, stopStep, hp, hsub, hth]
      | join =>
          obtain ⟨⟨sub₁, hsub₁, hw⟩, sub₂, hsub₂, hth⟩ := hjoin rfl rfl
          cases hsub.symm.trans hsub₁
          cases hsub.symm.trans hsub₂
          exact .of_isSome (a := .stopJoin p sid) rfl
            (by simp [machine, step, stopStep, hp, hsub, hw, hth])

omit ex [DecidableEq ι] [DecidableEq τ] in
/-- A worker that is to be joined has been started. -/
theorem draining_of_join {s : BusState ι τ π η} (wf : WF s) (h : Stoppable s)
    {owner : Option SubId} {rest : List SubId}
    (hp : s.threads p = .stopping owner .join (sid :: rest)) : Draining sid s := by
  obtain ⟨sid', rest', sub, hcons, hsub, hclosed⟩ := h.closed hp (by simp)
  obtain ⟨rfl, rfl⟩ := List.cons.inj hcons
  obtain ⟨sub', hsub', hth⟩ := wf.joining hp
  cases hsub.symm.trans hsub'
  refine ⟨wf, sub, hsub, hclosed, fun hw => ?_⟩
  obtain ⟨q, rest, hq⟩ := h.unstarted hsub hw
  obtain ⟨sub', hsub', hempty, -⟩ := wf.backlog hq
  cases hsub.symm.trans hsub'
  exact hth hempty

/-- After time `n` nobody else joins a worker that `p` has found joinable and not joined
    yet. A second `join` of one `std::thread` is undefined. -/
def SoleJoiner (ex : (machine ι τ π η).Execution init) (p : ι) (n : Nat) : Prop :=
  ∀ {k q sid owner rest}, n < k → q ≠ p → ex.act k = some (.stopJoin q sid) →
    (ex.state k).threads p ≠ .stopping owner .join (sid :: rest)

/-- `p` waits in `join` for the worker of `sid`. -/
structure AtJoin (p : ι) (owner : Option SubId) (sid : SubId) (rest : List SubId)
    (s : BusState ι τ π η) : Prop where
  call : s.threads p = .stopping owner .join (sid :: rest)
  joinable : Joinable sid s

theorem AtJoin.step {owner : Option SubId} {rest : List SubId} {k : Nat} {a : BusAction ι τ π η}
    (hsole : SoleJoiner ex p n) (h : AtJoin p owner sid rest (ex.state k)) (hk : n < k)
    (hact : ex.act k = some a) :
    ¬ a.goesOn p ∧ AtJoin p owner sid rest (ex.state (k + 1)) ∨
      a.goesOn p ∧ (ex.state (k + 1)).threads p = .stopping owner .close rest := by
  have ht := step_transition (ex.step_eq hact)
  by_cases ha : a.goesOn p
  · have hmove := ht.callMove ha
    rw [h.call] at hmove
    cases hmove with
    | stopNext _ hnext => exact .inr ⟨ha, hnext⟩
  · refine .inl ⟨ha, (ht.call_kept ha (by simp [h.call])).trans h.call, ?_⟩
    rcases h.joinable.step (accounted_execution ex k).wf ht with hkept | ⟨q, rfl⟩
    · exact hkept
    · exact absurd h.call (hsole hk ha hact)

/-- The join of a worker whose callbacks return is over at some time. -/
theorem exists_joined (hfair : ex.FairTo (BusAction.goesOn p)) (hsole : SoleJoiner ex p n)
    (hworker : ex.FairTo fun a => a.byWorkerOf sid = true) {owner : Option SubId}
    {rest : List SubId} {m : Nat} (hm : n < m) (h : AtJoin p owner sid rest (ex.state m)) :
    ∃ k, m ≤ k ∧ (ex.state k).threads p = .stopping owner .close rest := by
  have hdrain := draining_of_join (accounted_execution ex m).wf (stoppable_execution ex m) h.call
  obtain ⟨j, hj, hexited⟩ := exists_exited hworker hdrain
  by_contra hnone
  have hwait : ∀ k, m ≤ k → AtJoin p owner sid rest (ex.state k) := by
    intro k hk
    refine (ex.keeps_until (R := fun s => s.threads p = .stopping owner .close rest) h ?_
      hk).resolve_right hnone
    exact fun hk hat hact => (hat.step hsole (by omega) hact).imp And.right And.right
  -- the worker has exited at time `j`, so the thread can go on from there
  obtain ⟨k, a, hk, hact, hown⟩ := hfair j fun k hk => by
    have hat := hwait k (Nat.le_trans hj hk)
    refine stopping_able (stoppable_execution ex k) hat.call fun _ _ _ hcons => ?_
    obtain ⟨rfl, -⟩ := List.cons.inj hcons
    exact ⟨exited_mono hexited hk, hat.joinable⟩
  rcases (hwait k (Nat.le_trans hj hk)).step hsole (by omega) hact with ⟨hother, -⟩ | ⟨-, hdone⟩
  · exact hother hown
  · exact hnone ⟨k + 1, by omega, hdone⟩

theorem exists_stop_idle (hfair : ex.FairTo (BusAction.goesOn p)) (hsole : SoleJoiner ex p n)
    {owner : Option SubId} {rest : List SubId}
    (hworkers : ∀ sid ∈ rest, ex.FairTo fun a => a.byWorkerOf sid = true) {m : Nat} (hm : n < m)
    (hp : (ex.state m).threads p = .stopping owner .close rest) :
    ∃ k, m ≤ k ∧ (ex.state k).threads p = .idle := by
  induction rest generalizing m with
  | nil =>
      obtain ⟨k, hk, hmove⟩ := exists_callMove ex hfair (by simp) hp
        fun k _ hat => stopping_able (stoppable_execution ex k) hat (by simp)
      cases hmove with
      | stopReturn hidle => exact ⟨k + 1, by omega, hidle⟩
  | cons sid rest ih =>
      have hrest : ∀ {k}, m ≤ k → (ex.state k).threads p = .stopping owner .close rest →
          ∃ k, m ≤ k ∧ (ex.state k).threads p = .idle := by
        intro k hk hat
        obtain ⟨k', hk', hidle⟩ :=
          ih (fun i hi => hworkers i (List.mem_cons_of_mem _ hi)) (by omega) hat
        exact ⟨k', Nat.le_trans hk hk', hidle⟩
      obtain ⟨k, hk, hmove⟩ := exists_callMove ex hfair (by simp) hp
        fun k _ hat => stopping_able (stoppable_execution ex k) hat (by simp)
      cases hmove with
      | stopNext hphase => exact absurd rfl hphase
      | stopClose hnext =>
          obtain ⟨k₁, hk₁, hmove₁⟩ := exists_callMove ex hfair (by simp) hnext
            fun k _ hat => stopping_able (stoppable_execution ex k) hat (by simp)
          cases hmove₁ with
          | stopNext _ hnext₁ => exact hrest (by omega) hnext₁
          | stopJoinable hsub hth hnext₁ =>
              obtain ⟨k₂, hk₂, hat₂⟩ := exists_joined hfair hsole
                (hworkers sid List.mem_cons_self) (by omega) ⟨hnext₁, _, hsub, hth⟩
              exact hrest (by omega) hat₂

/-! ## What they leave behind -/

omit ex [DecidableEq τ] in
/-- A call that stops goes on, or returns. -/
theorem Transition.stop_ends {s s' : BusState ι τ π η} {a : BusAction ι τ π η}
    {evs : List (BusEvent ι π η)} (ht : Transition s a evs s') {owner : Option SubId}
    {phase : StopPhase} {rest : List SubId} (hp : s.threads p = .stopping owner phase rest) :
    (∃ phase' rest', s'.threads p = .stopping owner phase' rest') ∨ .stopped p owner ∈ evs := by
  by_cases ha : a.goesOn p
  · cases ht with
    | stopReturn hcall =>
        obtain rfl : _ = p := ha
        cases hcall.symm.trans hp
        exact .inr (List.mem_singleton_self _)
    | stopClose hcall | stopJoinable hcall | stopSkip hcall | stopJoin hcall =>
        obtain rfl : _ = p := ha
        cases hcall.symm.trans hp
        exact .inl ⟨_, _, Function.update_self ..⟩
    | publishFailed hcall | published hcall | report hcall | publishReturn hcall
    | pushBacklog hcall | spawn hcall | assign hcall =>
        obtain rfl : _ = p := ha
        cases hcall.symm.trans hp
    | pushSleep hpush hcall | pushReturn hpush hcall =>
        rcases hpush with rfl | rfl <;>
        · obtain rfl : _ = p := ha
          cases hcall.symm.trans hp
    | worker _ _ hw => cases a <;> first | cases hw | cases ha
    | advertise | setHandler | setTimeout | conflict | subscribe | publish | unsubscribe
    | shutdown => cases ha
  · exact .inl ⟨phase, rest, (ht.call_kept ha (by simp [hp])).trans hp⟩

/-- After time `n` and before time `k`, `p` asked `joinable()` of a thread object that
    `subscribe` had not assigned yet. -/
def AskedEarly (ex : (machine ι τ π η).Execution init) (p : ι) (sid : SubId) (n k : Nat) : Prop :=
  ∃ j, n < j ∧ j < k ∧ ex.act j = some (.stopJoinable p sid) ∧
    ¬ WorkerAssigned (ex.state j) (.stopJoinable p sid)

theorem AskedEarly.mono {k k' : Nat} (h : AskedEarly ex p sid n k) (hk : k ≤ k') :
    AskedEarly ex p sid n k' := by
  obtain ⟨j, hj, hjk, hask⟩ := h
  exact ⟨j, hj, by omega, hask⟩

/-- Whatever a call has set out to stop is joined, was asked too early, or is still on its
    list. -/
theorem joined_or_toStop {m k : Nat} (hm : n < m) (hmem : sid ∈ ((ex.state m).threads p).toStop)
    (hk : m ≤ k) : Joined (ex.state k) sid ∨ AskedEarly ex p sid n k ∨
      sid ∈ ((ex.state k).threads p).toStop := by
  induction k, hk using Nat.le_induction with
  | base => exact .inr (.inr hmem)
  | succ k hk ih =>
      cases hact : ex.act k with
      | none =>
          rw [ex.still k hact]
          exact ih.imp_right fun h => h.imp_left fun h => h.mono (Nat.le_succ k)
      | some a =>
          have ht := step_transition (ex.step_eq hact)
          rcases ih with hjoined | hearly | htodo
          · exact .inl (hjoined.step (ht.subsStep (accounted_execution ex k).wf))
          · exact .inr (.inl (hearly.mono (Nat.le_succ k)))
          · by_cases hask : a = .stopJoinable p sid ∧ ¬ WorkerAssigned (ex.state k) a
            · obtain ⟨rfl, hnot⟩ := hask
              exact .inr (.inl ⟨k, by omega, by omega, hact, hnot⟩)
            · refine (ht.toStop ?_ htodo).imp_right .inr
              rintro rfl sub hsub
              have hassigned := not_not.mp fun hnot => hask ⟨rfl, hnot⟩
              simpa [WorkerAssigned, hsub] using hassigned

/-- The queue of what was asked too early is closed all the same. -/
theorem AskedEarly.closed {k : Nat} (h : AskedEarly ex p sid n k) :
    ∃ sub, (ex.state k).subs sid = some sub ∧ sub.queue.closed = true := by
  obtain ⟨j, -, hjk, hact, -⟩ := h
  obtain ⟨owner, rest, -, hp, -⟩ := stopStep_inv (ex.step_eq hact)
  obtain ⟨_, _, sub, hcons, hsub, hclosed⟩ := (stoppable_execution ex j).closed hp (by simp)
  obtain ⟨rfl, -⟩ := List.cons.inj hcons
  refine ex.keeps (Q := fun s => ∃ sub, s.subs sid = some sub ∧ sub.queue.closed = true)
    ⟨sub, hsub, hclosed⟩ ?_ (Nat.le_of_lt hjk)
  rintro i a - ⟨sub, hsub, hclosed⟩ hact
  obtain ⟨sub', hsub', hstep⟩ :=
    ((step_transition (ex.step_eq hact)).subsStep (accounted_execution ex i).wf).old hsub
  exact ⟨sub', hsub', hstep.closed hclosed⟩

/-- What a call of `owner` that began at time `n` has made of `sid` at time `k`: the queue
    is closed, and the worker has left its loop and is joined, unless a shutdown came before
    `subscribe` had assigned it. -/
def Halted (ex : (machine ι τ π η).Execution init) (p : ι) (owner : Option SubId) (sid : SubId)
    (n k : Nat) : Prop :=
  ∃ sub, (ex.state k).subs sid = some sub ∧ sub.queue.closed = true ∧
    (sub.worker = .exited ∧ sub.thread = .joined ∨ owner = none ∧ AskedEarly ex p sid n k)

theorem halted_of_joined {owner : Option SubId} {k : Nat} (h : Joined (ex.state k) sid) :
    Halted ex p owner sid n k := by
  obtain ⟨sub, hsub, hth⟩ := h
  have hacc := (accounted_execution ex k).old hsub
  exact ⟨sub, hsub, (hacc.exited (hacc.joined hth)).2, .inl ⟨hacc.joined hth, hth⟩⟩

/-- A call that has nothing left to stop has halted what it set out to stop. -/
theorem halted_of_nil {owner : Option SubId} {all : List SubId}
    (hcall : .detached p owner all ∈ ex.events n) {k : Nat} (hk : n < k)
    (hnil : (ex.state k).threads p = .stopping owner .close []) (hsid : sid ∈ all) :
    Halted ex p owner sid n k := by
  obtain ⟨a, hact⟩ := ex.exists_act hcall
  have ht := step_transition (ex.step_eq hact)
  have hmem : sid ∈ ((ex.state (n + 1)).threads p).toStop := by rwa [ht.detached_mem hcall]
  rcases joined_or_toStop (Nat.lt_succ_self n) hmem hk with hjoined | hearly | htodo
  · exact halted_of_joined hjoined
  · cases owner with
    | none =>
        obtain ⟨sub, hsub, hclosed⟩ := hearly.closed
        exact ⟨sub, hsub, hclosed, .inr ⟨rfl, hearly⟩⟩
    | some i =>
        -- the caller had the handle, so the thread object was assigned
        obtain ⟨rfl, -⟩ := ht.detached_some hcall
        obtain rfl := List.mem_singleton.mp hsid
        obtain ⟨as, hrun⟩ := ex.exists_run k
        have hok : UnsubscribeOk sid (ex.trace k) (ex.state k) := (unsubscribeOk_of_run hrun).2
        rcases hok.stopOk p _ _ (hok.running hnil) hsid with hjoined | htodo
        · exact halted_of_joined hjoined
        · rw [hnil] at htodo
          cases htodo
  · rw [hnil] at htodo
    cases htodo

/-- **Unsubscribe and shutdown return**, in every execution that does not pass over the
    calling thread and the workers of what it stops, and in which nobody else joins a worker
    it is about to join. Other workers may be stuck. At the return every queue is closed
    and every worker has left its loop and is joined, except that a shutdown may have come
    before `subscribe` had assigned the worker. -/
theorem stop_returns (hfair : ex.FairTo (BusAction.goesOn p)) {owner : Option SubId}
    {all : List SubId} (hcall : .detached p owner all ∈ ex.events n)
    (hworkers : ∀ sid ∈ all, ex.FairTo fun a => a.byWorkerOf sid = true)
    (hsole : SoleJoiner ex p n) :
    ∃ k, n < k ∧
      (∀ j, n < j → j ≤ k → ∃ phase rest, (ex.state j).threads p = .stopping owner phase rest) ∧
      .stopped p owner ∈ ex.events k ∧ ∀ sid ∈ all, Halted ex p owner sid n k := by
  obtain ⟨a, hact⟩ := ex.exists_act hcall
  have hp := (step_transition (ex.step_eq hact)).detached_mem hcall
  obtain ⟨m, hm, hidle⟩ := exists_stop_idle hfair hsole hworkers (Nat.lt_succ_self n) hp
  obtain ⟨k, b, hk, hsame, hlast, hover⟩ := ex.exists_ends
    (Q := fun s => ∃ phase rest, s.threads p = .stopping owner phase rest) hm ⟨_, _, hp⟩
    (by simp [hidle])
  have ht := step_transition (ex.step_eq hlast)
  obtain ⟨phase, rest, hpk⟩ := hsame k hk (Nat.le_refl k)
  have hstopped := (ht.stop_ends hpk).resolve_left hover
  refine ⟨k, by omega, fun j hj hjk => hsame j (by omega) hjk, hstopped, fun sid hsid => ?_⟩
  exact halted_of_nil hcall hk (ht.stopped_mem hstopped).2 hsid

omit ex in
theorem not_able_of_exited {s : BusState ι τ π η} (h : Exited sid s) :
    ¬ (machine ι τ π η).Able (fun a => a.byWorkerOf sid = true) s := by
  obtain ⟨sub, hsub, hw⟩ := h
  rintro ⟨a, s', evs, ha, hstep⟩
  cases a with
  | workerPop i | workerDeliver i | workerFinish i =>
      obtain rfl : i = sid := of_decide_eq_true ha
      simp [machine, step, workerStep, hsub, Subscription.popNext, Subscription.deliver,
        Subscription.finish, hw] at hstep
  | _ => cases ha

end Execution

/-- One subscriber unsubscribes with an envelope in its queue, while the callback of the
    other one never returns. -/
theorem stop_returns_stuck_neighbour :
    ∃ ex : (machine (Fin 2) Unit Nat Unit).Execution init,
      .detached 0 (some 5) [5] ∈ ex.events 13 ∧
      ∃ k, 13 < k ∧
        (∀ j, 13 < j → j ≤ k → ∃ phase rest,
          (ex.state j).threads 0 = .stopping (some 5) phase rest) ∧
        .stopped 0 (some 5) ∈ ex.events k ∧ ∀ sid ∈ [5], Halted ex 0 (some 5) sid 13 k := by
  have hrun : ((machine (Fin 2) Unit Nat Unit).exec init
      [.subscribe 1 "map" () (.command 4) 5, .spawn 1 5, .assign 1 5,
        .subscribe 1 "map" () (.command 4) 6, .spawn 1 6, .assign 1 6,
        .publish 0 "map" () (.command 4) 7 0, .publishLock 0, .push 0 5 0, .push 0 6 0,
        .publishReturn 0, .workerPop 6, .workerDeliver 6 1, .unsubscribe 0 5, .stopClose 0 5,
        .stopJoinable 0 5, .workerPop 5, .workerDeliver 5 1, .workerFinish 5, .workerPop 5,
        .stopJoin 0 5, .stopReturn 0 (some 5)]).isSome = true := by decide
  have hcall : .detached 0 (some 5) [5] ∈ (Machine.Execution.ofList _ _ _ hrun).events 13 :=
    List.mem_singleton_self _
  refine ⟨_, hcall, stop_returns ?_ hcall (fun sid hsid => ?_) fun {k q sid _ _} hk hq hact => ?_⟩
  · exact Machine.Execution.fairTo_ofList hrun (not_able_of_idle rfl)
  · rw [List.mem_singleton.mp hsid]
    exact Machine.Execution.fairTo_ofList hrun (not_able_of_exited ⟨_, rfl, rfl⟩)
  · -- the only join is its own
    match k, hk, hact with
    | 20, _, hact =>
        cases hact
        exact absurd rfl hq
    | 14, _, hact | 15, _, hact | 16, _, hact | 17, _, hact | 18, _, hact | 19, _, hact
    | 21, _, hact | _ + 22, _, hact => cases hact

end TopicBus

end Rdb
