-- SUMMARY: What holds of the subscriptions a shutdown has collected once it has returned, and the start-up race it loses.
import Rdb.Bus.History

/-!
# Shutdown

`stop_subscription` joins the worker if the thread object is joinable. `subscribe`
registers the subscription before it starts the worker, so a shutdown in between
finds nothing to join and returns, and the worker starts afterwards. Shutdown is
final in runs in which it only stops subscriptions whose worker is assigned.
-/

namespace Rdb

variable {ι τ π η : Type*}

/-- The subscriptions a call still has to stop. -/
def Call.toStop : Call τ π η → List SubId
  | .stopping _ _ rest => rest
  | _ => []

namespace TopicBus

/-- The guard on `joinable()`: the thread object has been assigned. -/
def WorkerAssigned (s : BusState ι τ π η) : BusAction ι τ π η → Prop
  | .stopJoinable _ sid => (s.subs sid).all (fun sub => sub.thread ≠ .empty) = true
  | _ => True

instance (s : BusState ι τ π η) : (a : BusAction ι τ π η) → Decidable (WorkerAssigned s a)
  | .stopJoinable _ sid =>
    inferInstanceAs (Decidable ((s.subs sid).all (fun sub => sub.thread ≠ .empty) = true))
  | .advertise .. | .setQosMismatchHandler .. | .setReliableTimeout .. | .subscribe ..
  | .pushBacklog .. | .spawn .. | .assign .. | .publish .. | .publishLock .. | .report ..
  | .push .. | .pushWake .. | .publishReturn .. | .unsubscribe .. | .shutdown .. | .stopClose ..
  | .stopJoin .. | .stopReturn .. | .workerPop .. | .workerDeliver .. | .workerFinish .. =>
    .isTrue trivial

/-- The worker of `sid` has been joined. -/
def Joined (s : BusState ι τ π η) (sid : SubId) : Prop :=
  ∃ sub, s.subs sid = some sub ∧ sub.thread = .joined

section Joined

variable [DecidableEq ι] {s s' : BusState ι τ π η} {a : BusAction ι τ π η}
  {evs tr : List (BusEvent ι π η)} {sid : SubId}

omit [DecidableEq ι] in
theorem Joined.step (h : Joined s sid) (hsubs : SubsStep s evs s') : Joined s' sid := by
  obtain ⟨sub, hsub, hth⟩ := h
  obtain ⟨sub', hsub', hstep⟩ := hsubs.old hsub
  exact ⟨sub', hsub', hstep.thread_joined hth⟩

omit [DecidableEq ι] in
/-- A joined worker makes no more calls. -/
theorem Joined.not_called (h : Joined s sid) (hacc : Accounted tr s) (hsubs : SubsStep s evs s')
    (env : Envelope π) : .sub sid (.called env) ∉ evs := by
  obtain ⟨sub, hsub, hth⟩ := h
  obtain ⟨sub', -, hstep⟩ := hsubs.old hsub
  intro hmem
  have hcall := hstep.called_eq_nil ((hacc.old hsub).joined hth)
  have hcalled : env ∈ Ledger.called (ledger sid evs) :=
    List.mem_flatMap.mpr ⟨_, mem_ledger.mpr hmem, by simp [SubEvent.calls]⟩
  rw [hcall] at hcalled
  cases hcalled

/-- A call drops a subscription from its list only when the worker is joined, or has
    never been assigned. -/
theorem Transition.toStop (ht : Transition s a evs s') {p : ι}
    (hassigned : a = .stopJoinable p sid → ∀ {sub}, s.subs sid = some sub → sub.thread ≠ .empty)
    (hmem : sid ∈ (s.threads p).toStop) : Joined s' sid ∨ sid ∈ (s'.threads p).toStop := by
  -- a step of another thread, or of one that has nothing to stop
  have hother : ∀ {q c}, s'.threads = Function.update s.threads q c →
      (q = p → (s.threads p).toStop = [] ∨ sid ∈ c.toStop) → sid ∈ (s'.threads p).toStop := by
    intro q c hthreads hq
    rw [hthreads]
    refine ThreadSum.update_of (P := fun c => sid ∈ Call.toStop c) (fun _ => hmem) fun h => ?_
    rcases hq h with hnil | hin
    · rw [hnil] at hmem; cases hmem
    · exact hin
  cases ht with
  | advertise | setHandler | setTimeout | conflict | worker => exact .inr hmem
  | subscribe hp | pushBacklog hp | spawn hp | assign hp | publish hp | publishFailed hp
  | published hp | report hp | pushSleep _ hp | pushReturn _ hp | publishReturn hp
  | unsubscribe hp | shutdown hp | stopReturn hp =>
      exact .inr (hother rfl fun h => .inl (by rw [← h, hp]; rfl))
  | stopClose hp | stopJoinable hp =>
      refine .inr (hother rfl fun h => .inr ?_)
      rw [← h, hp] at hmem
      exact hmem
  | @stopSkip q owner i rest sub hp hsub hth =>
      by_cases hq : q = p ∧ sid = i
      · obtain ⟨rfl, rfl⟩ := hq
        refine .inl ⟨sub, hsub, ?_⟩
        -- assigned and not joinable: another call has joined it
        cases hthread : sub.thread with
        | empty => exact absurd hthread (hassigned rfl hsub)
        | joinable => exact absurd hthread hth
        | joined => rfl
      · refine .inr (hother rfl fun h => .inr ?_)
        rw [← h, hp] at hmem
        exact (List.mem_cons.mp hmem).resolve_left fun hi => hq ⟨h, hi⟩
  | @stopJoin q owner i rest sub hp hsub hw hth =>
      by_cases hi : sid = i
      · subst hi
        exact .inl ⟨_, Function.update_self .., rfl⟩
      · refine .inr (hother rfl fun h => .inr ?_)
        rw [← h, hp] at hmem
        exact (List.mem_cons.mp hmem).resolve_left hi

/-! ## The events of a shutdown -/

theorem Transition.detached_mem (ht : Transition s a evs s') {p : ι}
    {owner : Option SubId} {all : List SubId} (hmem : .detached p owner all ∈ evs) :
    s'.threads p = .stopping owner .close all := by
  cases ht with
  | shutdown | unsubscribe =>
      rw [List.mem_singleton, BusEvent.detached.injEq] at hmem
      obtain ⟨rfl, rfl, rfl⟩ := hmem
      exact Function.update_self ..
  | published _ _ _ _ hm =>
      rcases mem_published hm hmem with heq | ⟨_, _, heq⟩
      · cases heq
      · cases heq
  | _ => simp at hmem

theorem Transition.stopped_mem (ht : Transition s a evs s') {p : ι}
    {owner : Option SubId} (hmem : .stopped p owner ∈ evs) :
    evs = [.stopped p owner] ∧ s.threads p = .stopping owner .close [] := by
  cases ht with
  | stopReturn hp =>
      rw [List.mem_singleton, BusEvent.stopped.injEq] at hmem
      obtain ⟨rfl, rfl⟩ := hmem
      exact ⟨rfl, hp⟩
  | published _ _ _ _ hm =>
      rcases mem_published hm hmem with heq | ⟨_, _, heq⟩
      · cases heq
      · cases heq
  | _ => simp at hmem

/-- Whatever a call has set out to stop is joined or still on its list. -/
def StopOk (owner : Option SubId) (tr : List (BusEvent ι π η)) (s : BusState ι τ π η) : Prop :=
  ∀ p all sid, .detached p owner all ∈ tr → sid ∈ all →
    Joined s sid ∨ sid ∈ (s.threads p).toStop

theorem StopOk.step {owner : Option SubId} (h : StopOk owner tr s) (wf : WF s)
    (ht : Transition s a evs s')
    (hassigned : ∀ {p sid all}, .detached p owner all ∈ tr → sid ∈ all →
      a = .stopJoinable p sid → ∀ {sub}, s.subs sid = some sub → sub.thread ≠ .empty) :
    StopOk owner (tr ++ evs) s' := by
  intro p all sid hmem hsid
  rcases List.mem_append.mp hmem with hmem | hmem
  · rcases h p all sid hmem hsid with hjoined | htodo
    · exact .inl (hjoined.step (ht.subsStep wf))
    · exact ht.toStop (hassigned hmem hsid) htodo
  · rw [ht.detached_mem hmem]
    exact .inr hsid

end Joined

/-! ## Shutdown is final -/

section Final

variable {s s' : BusState ι τ π η} {a : BusAction ι τ π η}
  {evs tr : List (BusEvent ι π η)}

/-- Once a shutdown has returned, the subscriptions it collected make no more calls,
    and their workers have been joined or are not running. -/
def ShutdownFinal (tr : List (BusEvent ι π η)) (s : BusState ι τ π η) : Prop :=
  ∀ p all tr₁ tr₂, tr = tr₁ ++ .stopped p none :: tr₂ → .detached p none all ∈ tr₁ →
    ∀ sid ∈ all, (∀ env, .sub sid (.called env) ∉ tr₂) ∧
      ∃ sub, s.subs sid = some sub ∧ (sub.thread = .joined ∨ sub.worker = .notStarted)

/-- What is stopped is joined, and has been silent since. -/
def Silenced (owner : Option SubId) (tr : List (BusEvent ι π η)) (s : BusState ι τ π η) : Prop :=
  ∀ {p all tr₁ tr₂ sid}, tr = tr₁ ++ .stopped p owner :: tr₂ → .detached p owner all ∈ tr₁ →
    sid ∈ all → Joined s sid ∧ ∀ env, .sub sid (.called env) ∉ tr₂

theorem Silenced.step [DecidableEq ι] {owner : Option SubId} (h : Silenced owner tr s)
    (hacc : Accounted tr s) (hstop : StopOk owner tr s) (ht : Transition s a evs s') :
    Silenced owner (tr ++ evs) s' := by
  intro p all tr₁ tr₂ sid hsplit hdet hsid
  have hsubs := ht.subsStep hacc.wf
  rcases split_of_append hsplit with ⟨v, htr, rfl⟩ | ⟨u, rfl, hevs⟩
  · obtain ⟨hjoined, hsilent⟩ := h htr hdet hsid
    refine ⟨hjoined.step hsubs, fun env hmem => ?_⟩
    rcases List.mem_append.mp hmem with hmem | hmem
    · exact hsilent env hmem
    · exact hjoined.not_called hacc hsubs env hmem
  · -- the call returns in this step
    have hstopped : .stopped p owner ∈ evs := by rw [hevs]; simp
    obtain ⟨hone, hp⟩ := ht.stopped_mem hstopped
    rw [hone] at hevs
    cases u with
    | nil =>
        obtain rfl : tr₂ = [] := (List.cons.inj hevs).2.symm
        rw [List.append_nil] at hdet
        refine ⟨?_, fun _ h => by cases h⟩
        rcases hstop p all sid hdet hsid with hjoined | htodo
        · exact hjoined.step hsubs
        · rw [hp] at htodo
          cases htodo
    | cons e u => simp at hevs

variable [DecidableEq ι] [DecidableEq τ] {as : List (BusAction ι τ π η)}

/-- **Shutdown is final**, in every run in which `joinable()` is only asked of
    subscriptions whose worker has been assigned. -/
theorem shutdown_final
    (h : (machine ι τ π η).RunIf (fun _ s a => WorkerAssigned s a) init as tr s) :
    ShutdownFinal tr s := by
  have hinv : Accounted tr s ∧ StopOk none tr s ∧ Silenced none tr s := by
    refine Machine.RunIf.invariant
      (I := fun tr s => Accounted tr s ∧ StopOk none tr s ∧ Silenced none tr s) h
      ⟨⟨wf_ofTopics bare_empty, (fun h => by cases h), fun _ => rfl⟩, (fun _ _ _ h => by cases h),
        fun h => by simp at h⟩ ?_
    rintro tr s a s' evs ⟨hacc, hstop, hsilent⟩ hC hstep
    have ht := step_transition hstep
    refine ⟨hacc.step ht, hstop.step hacc.wf ht ?_, hsilent.step hacc hstop ht⟩
    rintro p sid all - - rfl sub hsub
    simpa [WorkerAssigned, hsub] using hC
  intro p all tr₁ tr₂ hsplit hdet sid hsid
  obtain ⟨⟨sub, hsub, hth⟩, hsilent⟩ := hinv.2.2 hsplit hdet hsid
  exact ⟨hsilent, sub, hsub, .inl hth⟩

/-- A shutdown that meets a running worker. -/
theorem shutdown_final_running :
    ∃ tr s, (machine (Fin 2) Unit Nat Unit).RunIf (fun _ s a => WorkerAssigned s a) init
        [.subscribe 1 "map" () (.command 4) 5, .spawn 1 5, .assign 1 5, .workerPop 5,
          .shutdown 0 [5], .stopClose 0 5, .stopJoinable 0 5, .workerPop 5, .stopJoin 0 5,
          .stopReturn 0 none] tr s ∧
      .stopped 0 none ∈ tr ∧ ShutdownFinal tr s := by
  refine ⟨_, _, .of_isSome _ _ _ _ (by decide), by decide, ?_⟩
  exact shutdown_final (.of_isSome _ _ _ _ _)

/-- A shutdown between the lock section of `subscribe` and the start of the worker
    has nothing to join; the backlog is delivered after it has returned. -/
theorem shutdown_not_final :
    ¬ ∀ as tr s, (machine (Fin 2) Unit Nat Unit).Run init as tr s → ShutdownFinal tr s := by
  intro h
  have hrun := Machine.Run.of_isSome (machine (Fin 2) Unit Nat Unit) init
    [.advertise "map" (), .publish 0 "map" () (.latched 1) 7 0, .publishLock 0,
      .publishReturn 0, .subscribe 1 "map" () (.latched 1) 5, .pushBacklog 1 5,
      .shutdown 0 [5], .stopClose 0 5, .stopJoinable 0 5, .stopReturn 0 none,
      .spawn 1 5, .assign 1 5, .workerPop 5, .workerDeliver 5 1] (by decide)
  have hfinal := h _ _ _ hrun 0 [5]
    [.published 0 "map" ⟨7, 1, 0⟩ (.latched 1) [] [], .returned 0 "map" (some ⟨7, 1, 0⟩) true,
      .subscribed 5 "map" (.latched 1) [⟨7, 1, 0⟩], .sub 5 (.pushed none ⟨7, 1, 0⟩ .ok none),
      .detached 0 none [5]]
    [.sub 5 (.popped ⟨7, 1, 0⟩), .sub 5 (.called ⟨7, 1, 0⟩)] (by decide) (by decide) 5 (by decide)
  exact hfinal.1 ⟨7, 1, 0⟩ (by decide)

end Final

/-! ## Unsubscribe -/

section Unsubscribe

variable [DecidableEq ι] {s s' : BusState ι τ π η} {a : BusAction ι τ π η}
  {evs tr : List (BusEvent ι π η)} {sid : SubId}

/-- What is known of the calls of `unsubscribe`: the caller has the handle, so the
    worker is assigned, and what has returned has joined it. -/
structure UnsubscribeOk (sid : SubId) (tr : List (BusEvent ι π η)) (s : BusState ι τ π η) :
    Prop where
  assigned : ∀ {p all}, .detached p (some sid) all ∈ tr → all = [sid] ∧
    ∃ sub, s.subs sid = some sub ∧ sub.thread ≠ .empty
  running : ∀ {p phase rest}, s.threads p = .stopping (some sid) phase rest →
    .detached p (some sid) [sid] ∈ tr
  stopOk : StopOk (some sid) tr s
  returned : ∀ {p}, .stopped p (some sid) ∈ tr → Joined s sid

theorem Transition.detached_some (ht : Transition s a evs s') {p : ι}
    {all : List SubId} (hmem : .detached p (some sid) all ∈ evs) :
    all = [sid] ∧ ∃ sub, s.subs sid = some sub ∧ sub.thread ≠ .empty := by
  cases ht with
  | unsubscribe _ hsub hth =>
      rw [List.mem_singleton, BusEvent.detached.injEq] at hmem
      obtain ⟨-, hsid, rfl⟩ := hmem
      cases hsid
      exact ⟨rfl, _, hsub, hth⟩
  | published _ _ _ _ hm =>
      rcases mem_published hm hmem with heq | ⟨_, _, heq⟩
      · cases heq
      · cases heq
  | _ => simp at hmem

/-- A call that stops subscriptions goes on with its list, or has just taken the lock. -/
theorem Transition.stopping_inv (ht : Transition s a evs s') {p : ι} {owner : Option SubId}
    {phase : StopPhase} {rest : List SubId} (h : s'.threads p = .stopping owner phase rest) :
    (∃ phase' rest', s.threads p = .stopping owner phase' rest' ∧ rest ⊆ rest') ∨
      .detached p owner rest ∈ evs := by
  cases ht with
  | advertise | setHandler | setTimeout | conflict | worker =>
      exact .inl ⟨phase, rest, h, List.Subset.refl _⟩
  | subscribe | pushBacklog | spawn | assign | publish | publishFailed | published | report
  | pushSleep | pushReturn | publishReturn | stopReturn =>
      rcases ThreadSum.eq_or_of_update h with ⟨-, hc⟩ | hold
      · cases hc
      · exact .inl ⟨phase, rest, hold, List.Subset.refl _⟩
  | unsubscribe | shutdown =>
      rcases ThreadSum.eq_or_of_update h with ⟨rfl, hc⟩ | hold
      · obtain ⟨rfl, -, rfl⟩ := Call.stopping.inj hc
        exact .inr (by simp)
      · exact .inl ⟨phase, rest, hold, List.Subset.refl _⟩
  | stopClose hp | stopJoinable hp | stopSkip hp | stopJoin hp =>
      rcases ThreadSum.eq_or_of_update h with ⟨rfl, hc⟩ | hold
      · obtain ⟨rfl, -, rfl⟩ := Call.stopping.inj hc
        exact .inl ⟨_, _, hp, by simp⟩
      · exact .inl ⟨phase, rest, hold, List.Subset.refl _⟩

theorem UnsubscribeOk.step (h : UnsubscribeOk sid tr s) (wf : WF s)
    (ht : Transition s a evs s') : UnsubscribeOk sid (tr ++ evs) s' := by
  have hsubs := ht.subsStep wf
  have hassigned : ∀ {p all}, .detached p (some sid) all ∈ tr ++ evs → all = [sid] ∧
      ∃ sub, s.subs sid = some sub ∧ sub.thread ≠ .empty := fun hmem =>
    (List.mem_append.mp hmem).elim h.assigned ht.detached_some
  refine ⟨fun hmem => ?_, fun hp => ?_, h.stopOk.step wf ht ?_, fun hmem => ?_⟩
  · obtain ⟨hall, sub, hsub, hth⟩ := hassigned hmem
    obtain ⟨sub', hsub', hstep⟩ := hsubs.old hsub
    exact ⟨hall, sub', hsub', hstep.thread_ne_empty hth⟩
  · rcases ht.stopping_inv hp with ⟨_, _, hold, -⟩ | hdet
    · exact List.mem_append_left _ (h.running hold)
    · have hall := (ht.detached_some hdet).1
      rw [hall] at hdet
      exact List.mem_append_right _ hdet
  · intro p i all hmem hi _ sub hsub
    obtain ⟨rfl, sub', hsub', hth⟩ := h.assigned hmem
    rw [List.mem_singleton.mp hi] at hsub
    cases Option.some.inj (hsub.symm.trans hsub')
    exact hth
  · rcases List.mem_append.mp hmem with hmem | hmem
    · exact (h.returned hmem).step hsubs
    -- it returns in this step, with nothing left to stop
    · obtain ⟨-, hp⟩ := ht.stopped_mem hmem
      rcases h.stopOk _ _ sid (h.running hp) (List.mem_singleton_self sid) with hjoined | htodo
      · exact hjoined.step hsubs
      · rw [hp] at htodo
        cases htodo

theorem unsubscribeOk_of_run [DecidableEq τ] {as : List (BusAction ι τ π η)}
    (h : (machine ι τ π η).Run init as tr s) : WF s ∧ UnsubscribeOk sid tr s :=
  Machine.Run.invariant (I := fun tr s => WF s ∧ UnsubscribeOk sid tr s) h
    ⟨wf_ofTopics bare_empty, (fun h => by cases h), (fun h => by cases h),
      (fun _ _ _ h => by cases h), fun h => by cases h⟩
    fun ⟨wf, hI⟩ hstep => ⟨(step_transition hstep).wf wf, hI.step wf (step_transition hstep)⟩

/-- Once `unsubscribe` has returned, the worker has been joined. -/
theorem joined_of_unsubscribed [DecidableEq τ] {as : List (BusAction ι τ π η)} {p : ι}
    (h : (machine ι τ π η).Run init as tr s) (hmem : .stopped p (some sid) ∈ tr) :
    Joined s sid :=
  (unsubscribeOk_of_run h).2.returned hmem

end Unsubscribe

end TopicBus

end Rdb
