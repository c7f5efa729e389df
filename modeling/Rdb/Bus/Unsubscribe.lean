-- SUMMARY: After unsubscribe has returned, the subscription is off its topic, settled and out of reach of every publisher.
import Rdb.Bus.Registration
import Rdb.Bus.Shutdown

/-!
# Unsubscribe

Publishers that took the lock before `unsubscribe` did still hold the subscription and
push into its queue, before or after it is closed. Whatever they do, the worker drains
what was accepted before it exits, and `unsubscribe` joins it. From then on nothing
changes the record of the subscription any more.
-/

namespace Rdb

namespace TopicBus

variable {ι τ π η : Type*}

/-! ## Off the list -/

section OffList

variable [DecidableEq ι] {s s' : BusState ι τ π η} {a : BusAction ι τ π η}
  {evs tr : List (BusEvent ι π η)} {sid : SubId}

/-- The subscription exists and is not on the list of its topic. -/
def OffList (sid : SubId) (s : BusState ι τ π η) : Prop :=
  ∃ sub, s.subs sid = some sub ∧ sid ∉ subsOf s.topics sub.topic

theorem OffList.step (h : OffList sid s) (wf : WF s) (ht : Transition s a evs s') :
    OffList sid s' := by
  obtain ⟨sub, hsub, hnot⟩ := h
  obtain ⟨sub', hsub', htopic, -⟩ := (ht.subsStep wf).topic_eq hsub
  refine ⟨sub', hsub', htopic ▸ ?_⟩
  cases ht.registrationStep wf hsub with
  | keep hiff => exact mt hiff.mp hnot
  | remove _ _ _ hnot' => exact hnot'

omit [DecidableEq ι] in
/-- It is on the list of no other topic either. -/
theorem OffList.not_mem (h : OffList sid s) (wf : WF s) {topic : String} {entry : TopicEntry τ π}
    (hlook : s.topics.lookup topic = some entry) : sid ∉ entry.subs := by
  obtain ⟨sub, hsub, hnot⟩ := h
  intro hmem
  obtain ⟨sub', hsub', htopic⟩ := (wf.topics _ _ hlook).own hmem
  cases Option.some.inj (hsub.symm.trans hsub')
  rw [htopic, subsOf_of_lookup hlook] at hnot
  exact hnot hmem

/-- Taken off by this step. -/
theorem Transition.offList (ht : Transition s a evs s') (wf : WF s) {p : ι}
    (hmem : .detached p (some sid) [sid] ∈ evs) : OffList sid s' := by
  obtain ⟨-, sub, hsub, -⟩ := ht.detached_some hmem
  obtain ⟨sub', hsub', htopic, -⟩ := (ht.subsStep wf).topic_eq hsub
  refine ⟨sub', hsub', htopic ▸ ?_⟩
  cases ht.registrationStep wf hsub with
  | keep _ hnone => simpa [BusEvent.detaches] using hnone _ hmem
  | remove _ _ _ hnot => exact hnot

theorem offList_of_run [DecidableEq τ] {as : List (BusAction ι τ π η)} {p : ι}
    (h : (machine ι τ π η).Run init as tr s) (hmem : .detached p (some sid) [sid] ∈ tr) :
    OffList sid s := by
  have hinv : WF s ∧ (.detached p (some sid) [sid] ∈ tr → OffList sid s) := by
    refine Machine.Run.invariant
      (I := fun tr s => WF s ∧ (.detached p (some sid) [sid] ∈ tr → OffList sid s)) h
      ⟨wf_ofTopics bare_empty, fun h => by cases h⟩ ?_
    rintro tr s a s' evs ⟨wf, hoff⟩ hstep
    have ht := step_transition hstep
    refine ⟨ht.wf wf, fun hmem => ?_⟩
    rcases List.mem_append.mp hmem with hmem | hmem
    · exact (hoff hmem).step wf ht
    · exact ht.offList wf hmem
  exact hinv.2 hmem

/-- An `unsubscribe` that has returned had taken the lock. -/
theorem detached_of_unsubscribed [DecidableEq τ] {as : List (BusAction ι τ π η)} {p : ι}
    (h : (machine ι τ π η).Run init as tr s) (hmem : .stopped p (some sid) ∈ tr) :
    .detached p (some sid) [sid] ∈ tr := by
  obtain ⟨as₁, a, as₂, tr₁, evs, tr₂, s₁, s₂, rfl, rfl, hrun, hstep, hevs, -⟩ :=
    h.exists_step_of_mem hmem
  obtain ⟨-, hp⟩ := (step_transition hstep).stopped_mem hevs
  exact List.mem_append_left _ ((unsubscribeOk_of_run hrun).2.running hp)

/-- A publish rejects subscriptions that are on the list of its topic only. -/
theorem Transition.rejected_mem (ht : Transition s a evs s') (wf : WF s) {m : QosMismatch}
    (hmem : .sub sid (.rejected m) ∈ evs) :
    ∃ topic entry, s.topics.lookup topic = some entry ∧ sid ∈ entry.subs := by
  cases ht with
  | @published p topic type qos payload now entry env r hp hlook htype henv hr =>
      rw [hr, matchAll_eq s _ (wf.topics _ _ hlook).nodup] at hmem
      rcases List.mem_cons.mp hmem with heq | hmem
      · cases heq
      · obtain ⟨x, hx, heq⟩ := List.mem_map.mp hmem
        cases heq
        obtain ⟨i, hi, hrej⟩ := List.mem_filterMap.mp hx
        rw [← rejection_fst hrej] at hi
        exact ⟨topic, entry, hlook, hi⟩
  | worker hsub hstep =>
      obtain ⟨l, hl, heq⟩ := List.mem_map.mp hmem
      cases heq
      cases hstep.byWorker _ hl
  | _ => simp at hmem

end OffList

/-! ## Settled for good -/

section Settled

variable [DecidableEq ι] {s s' : BusState ι τ π η} {a : BusAction ι τ π η}
  {evs tr : List (BusEvent ι π η)} {sid : SubId} {sub : Subscription τ π}

/-- The worker of `sid` has been joined, and `sid` is off its list. -/
structure Settled (sid : SubId) (sub : Subscription τ π) (s : BusState ι τ π η) : Prop where
  record : s.subs sid = some sub
  joined : sub.thread = .joined
  off : OffList sid s

/-- What is observed of a settled subscription: pushes that find it closed. -/
def Refused (sid : SubId) (tr : List (BusEvent ι π η)) : Prop :=
  (∀ env, .sub sid (.called env) ∉ tr) ∧
    ∀ {origin env status evicted}, .sub sid (.pushed origin env status evicted) ∈ tr →
      status = .closed

theorem Settled.step (h : Settled sid sub s) (hacc : Accounted tr s) (ht : Transition s a evs s') :
    Settled sid sub s' ∧ Refused sid evs := by
  have hsubs := ht.subsStep hacc.wf
  have hw := (hacc.old h.record).joined h.joined
  have hrej : ∀ m, .rejected m ∉ ledger sid evs := by
    intro m hmem
    obtain ⟨topic, entry, hlook, hin⟩ := ht.rejected_mem hacc.wf (mem_ledger.mp hmem)
    exact h.off.not_mem hacc.wf hlook hin
  obtain ⟨sub', hsub', hstep⟩ := hsubs.old h.record
  obtain ⟨rfl, hclosed⟩ := hstep.of_joined h.joined hw ((hacc.old h.record).exited hw).2 hrej
  have hjoined : Joined s sid := ⟨sub', h.record, h.joined⟩
  refine ⟨⟨hsub', h.joined, h.off.step hacc.wf ht⟩, ?_, fun hmem => ?_⟩
  · exact fun env => hjoined.not_called hacc hsubs env
  · exact hclosed (mem_ledger.mpr hmem)

variable [DecidableEq τ] {as : List (BusAction ι τ π η)}

theorem Settled.run (h : Settled sid sub s) (hacc : Accounted tr s)
    {as' : List (BusAction ι τ π η)} {tr' : List (BusEvent ι π η)} {s' : BusState ι τ π η}
    (hrun : (machine ι τ π η).Run s as' tr' s') : Settled sid sub s' ∧ Refused sid tr' := by
  have hinv : Accounted (tr ++ tr') s' ∧ Settled sid sub s' ∧ Refused sid tr' := by
    refine Machine.Run.invariant
      (I := fun tr' s => Accounted (tr ++ tr') s ∧ Settled sid sub s ∧ Refused sid tr') hrun
      ⟨by rwa [List.append_nil], h, (fun _ h => by cases h), fun h => by cases h⟩ ?_
    rintro tr₁ s₁ a s₂ evs ⟨hacc, hsettled, hcalls, hpushes⟩ hstep
    obtain ⟨hsettled', hcalls', hpushes'⟩ := hsettled.step hacc (step_transition hstep)
    refine ⟨?_, hsettled', fun env hmem => ?_, fun hmem => ?_⟩
    · rw [← List.append_assoc]
      exact hacc.step (step_transition hstep)
    · exact (List.mem_append.mp hmem).elim (hcalls env) (hcalls' env)
    · exact (List.mem_append.mp hmem).elim hpushes hpushes'
  exact hinv.2

theorem settled_of_unsubscribed {p : ι} (h : (machine ι τ π η).Run init as tr s)
    (hmem : .stopped p (some sid) ∈ tr) : ∃ sub, Settled sid sub s := by
  obtain ⟨sub, hsub, hth⟩ := joined_of_unsubscribed h hmem
  exact ⟨sub, hsub, hth, offList_of_run h (detached_of_unsubscribed h hmem)⟩

/-- **Unsubscribe settles.** Once `unsubscribe` of `sid` has returned, `sid` is in no
    topic's list, its queue is empty, and every envelope its queue ever accepted was
    delivered, has expired or was dropped, and is counted as that. However the bus goes
    on, the record stays as it is, the callback is not invoked and every push into the
    queue returns `closed`. -/
theorem unsubscribe_settles {p : ι} (h : (machine ι τ π η).Run init as tr s)
    (hmem : .stopped p (some sid) ∈ tr) :
    ∃ sub, s.subs sid = some sub ∧
      (∀ topic entry, s.topics.lookup topic = some entry → sid ∉ entry.subs) ∧
      sub.queue.items = [] ∧
      (Ledger.accepted (ledger sid tr)).Perm (Ledger.delivered (ledger sid tr) ++
        Ledger.expired (ledger sid tr) ++ Ledger.evicted (ledger sid tr)) ∧
      sub.delivered = (Ledger.delivered (ledger sid tr)).length ∧
      sub.expired = (Ledger.expired (ledger sid tr)).length ∧
      sub.queue.dropped = (Ledger.evicted (ledger sid tr)).length ∧
      ∀ as' tr' s', (machine ι τ π η).Run s as' tr' s' →
        s'.subs sid = some sub ∧
        (∀ topic entry, s'.topics.lookup topic = some entry → sid ∉ entry.subs) ∧
        (∀ env, .sub sid (.called env) ∉ tr') ∧
        ∀ origin env status evicted, .sub sid (.pushed origin env status evicted) ∈ tr' →
          status = .closed := by
  have hrun := accounted_of_run bare_empty h
  obtain ⟨sub, hsettled⟩ := settled_of_unsubscribed h hmem
  have hacc := hrun.old hsettled.record
  have hw := hacc.joined hsettled.joined
  refine ⟨sub, hsettled.record, fun topic entry hlook => hsettled.off.not_mem hrun.wf hlook,
    (hacc.exited hw).1, hacc.accepted_perm hw, hacc.delivered_eq, hacc.expired_eq,
    hacc.dropped_eq, fun as' tr' s' hlater => ?_⟩
  obtain ⟨hsettled', hcalls, hpushes⟩ := hsettled.run hrun hlater
  have hrun' := accounted_of_run bare_empty (h.append hlater)
  exact ⟨hsettled'.record, fun topic entry hlook => hsettled'.off.not_mem hrun'.wf hlook, hcalls,
    fun _ _ _ _ hmem => hpushes hmem⟩

/-- Two publishers hold the subscription when it is removed: one pushes while the worker
    drains the queue, the other after `unsubscribe` has returned. -/
theorem unsubscribe_settles_late_push :
    ∃ as tr s as' tr' s', (machine (Fin 3) Unit Nat Unit).Run init as tr s ∧
      .stopped 2 (some 5) ∈ tr ∧ (machine (Fin 3) Unit Nat Unit).Run s as' tr' s' ∧
      .sub 5 (.pushed (some 1) ⟨8, 2, 0⟩ .closed none) ∈ tr' ∧
      (Ledger.accepted (ledger 5 tr)).length = 1 ∧
      ∃ sub, s.subs 5 = some sub ∧ sub.queue.items = [] ∧ s'.subs 5 = some sub := by
  have hrun := Machine.Run.of_isSome (machine (Fin 3) Unit Nat Unit) init
    [.subscribe 2 "map" () (.command 4) 5, .spawn 2 5, .assign 2 5,
      .publish 0 "map" () (.command 4) 7 0, .publishLock 0,
      .publish 1 "map" () (.command 4) 8 0, .publishLock 1, .unsubscribe 2 5, .push 0 5 0,
      .stopClose 2 5, .stopJoinable 2 5, .workerPop 5, .workerDeliver 5 1, .workerFinish 5,
      .workerPop 5, .stopJoin 2 5, .stopReturn 2 (some 5)] (by decide)
  obtain ⟨sub, hsub, -, hitems, -, -, -, -, hrest⟩ := unsubscribe_settles hrun
    (show BusEvent.stopped 2 (some 5) ∈ _ by decide)
  have hlater := hrest _ _ _ (.of_isSome _ _ [.push 1 5 0, .publishReturn 1] (by decide))
  exact ⟨_, _, _, _, _, _, hrun, by decide, .of_isSome _ _ _ _, by decide, by decide, sub, hsub,
    hitems, hlater.1⟩

end Settled

end TopicBus

end Rdb
