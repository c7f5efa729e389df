-- SUMMARY: From registration to removal: what a subscription is offered is its history and each compatible publish in between.
import Mathlib.Data.List.TakeWhile
import Rdb.Bus.History

/-!
# Registration

`subscribe` puts a subscription on the list of its topic and takes its backlog in one
lock section, `publish_erased` stamps an envelope and picks its targets in one, and
`unsubscribe` and `shutdown` take subscriptions off their lists. So what a
subscription is offered is cut out of the publications by two lock sections, however
much later the pushes happen.
-/

namespace Rdb

variable {ι τ π η : Type*}

/-- The event takes `sid` off its topic. -/
def BusEvent.detaches (sid : SubId) : BusEvent ι π η → Bool
  | .detached _ _ sids => decide (sid ∈ sids)
  | _ => false

namespace TopicBus

/-- The subscriptions registered for `topic`. -/
def subsOf (topics : Topics τ π) (topic : String) : List SubId :=
  (topics.lookup topic).elim [] TopicEntry.subs

/-- The part of a trace before `sid` is taken off its topic. -/
def whileRegistered (sid : SubId) (tr : List (BusEvent ι π η)) : List (BusEvent ι π η) :=
  tr.takeWhile fun e => !e.detaches sid

/-- What was published on `topic` under a QoS that is compatible with `qos`. -/
def newsFor (topic : String) (qos : QoS) (tr : List (BusEvent ι π η)) : List (Envelope π) :=
  ((publications topic tr).filter fun x => checkCompatible x.qos qos = .none).map Publication.env

@[simp] theorem newsFor_append (topic : String) (qos : QoS) (tr tr' : List (BusEvent ι π η)) :
    newsFor topic qos (tr ++ tr') = newsFor topic qos tr ++ newsFor topic qos tr' := by
  simp [newsFor]

theorem whileRegistered_eq_self {sid : SubId} {tr : List (BusEvent ι π η)}
    (h : ∀ e ∈ tr, e.detaches sid = false) : whileRegistered sid tr = tr :=
  List.takeWhile_eq_self_iff.mpr fun e he => by simp [h e he]

theorem whileRegistered_eq {sid : SubId} {before after : List (BusEvent ι π η)}
    {e : BusEvent ι π η} (h : ∀ e ∈ before, e.detaches sid = false) (he : e.detaches sid = true) :
    whileRegistered sid (before ++ e :: after) = before := by
  unfold whileRegistered
  rw [List.takeWhile_append_of_pos fun e he => by simp [h e he],
    List.takeWhile_cons_of_neg (by simp [he]),
    List.append_nil]

/-! ## The lists of the topics -/

section Topics

variable {topics : Topics τ π} {topic t : String} {sid : SubId}

theorem subsOf_of_lookup {entry : TopicEntry τ π} (h : topics.lookup topic = some entry) :
    subsOf topics topic = entry.subs := by
  simp [subsOf, h]

theorem subsOf_insert (entry : TopicEntry τ π) : subsOf (topics.insert t entry) topic =
    if topic = t then entry.subs else subsOf topics topic :=
  AList.elim_lookup_insert _ _ topics topic t entry

theorem subsOf_ensureTopic (type : τ) :
    subsOf (ensureTopic topics t type).1 topic = subsOf topics topic :=
  elim_lookup_ensureTopic TopicEntry.subs rfl topic

theorem subsOf_unregister (sid : SubId) : subsOf (unregister topics t sid) topic =
    if topic = t then (subsOf topics topic).erase sid else subsOf topics topic := by
  unfold unregister
  split
  · rename_i entry hlook
    rw [subsOf_insert]
    by_cases h : topic = t
    · subst h
      simp [subsOf, hlook]
    · simp [h]
  · rename_i hlook
    by_cases h : topic = t
    · subst h
      simp [subsOf, hlook]
    · simp [h]

theorem subsOf_clear : subsOf (topics.mapVals TopicEntry.clear) topic = [] := by
  unfold subsOf
  rw [AList.lookup_mapVals]
  cases topics.lookup topic <;> rfl

/-- `shutdown` meets every subscription that is on a list. -/
theorem mem_registered (h : sid ∈ subsOf topics topic) : sid ∈ registered topics := by
  cases hlook : topics.lookup topic with
  | none => simp [subsOf, hlook] at h
  | some entry =>
      rw [subsOf_of_lookup hlook] at h
      exact List.mem_flatMap.mpr ⟨_, AList.mem_lookup_iff.mp hlook, h⟩

theorem TopicsOk.nodup_subsOf {subs : SubId → Option (Subscription τ π)}
    (h : TopicsOk topics subs) (topic : String) : (subsOf topics topic).Nodup := by
  cases hlook : topics.lookup topic with
  | none => simp [subsOf, hlook]
  | some entry =>
      rw [subsOf_of_lookup hlook]
      exact (h _ _ hlook).nodup

theorem TopicsOk.own_of_mem_subsOf {subs : SubId → Option (Subscription τ π)}
    (h : TopicsOk topics subs) (hmem : sid ∈ subsOf topics topic) :
    ∃ sub, subs sid = some sub ∧ sub.topic = topic := by
  cases hlook : topics.lookup topic with
  | none => simp [subsOf, hlook] at hmem
  | some entry =>
      rw [subsOf_of_lookup hlook] at hmem
      exact (h _ _ hlook).own hmem

end Topics

/-! ## Steps -/

/-- What a step does to a subscription of `topic` with `qos`: it leaves it on or off
    the list, and a publish offers what it has to; or the step takes it off. -/
inductive RegistrationStep (sid : SubId) (topic : String) (qos : QoS) (s : BusState ι τ π η)
    (evs : List (BusEvent ι π η)) (s' : BusState ι τ π η) : Prop where
  | keep : (sid ∈ subsOf s'.topics topic ↔ sid ∈ subsOf s.topics topic) →
      (∀ e ∈ evs, e.detaches sid = false) →
      inbox sid evs = (if sid ∈ subsOf s.topics topic then
        (newsFor topic qos evs).map (Prod.mk true) else []) →
      RegistrationStep sid topic qos s evs s'
  | remove {e : BusEvent ι π η} : evs = [e] → e.detaches sid = true → inbox sid evs = [] →
      sid ∉ subsOf s'.topics topic → RegistrationStep sid topic qos s evs s'

section Steps

variable [DecidableEq ι] {s s' : BusState ι τ π η} {a : BusAction ι τ π η}
  {evs tr : List (BusEvent ι π η)} {sid : SubId} {topic : String} {qos : QoS}

omit [DecidableEq ι] in
/-- A step that leaves the lists alone and publishes nothing. -/
theorem RegistrationStep.quiet (hsubs : subsOf s'.topics topic = subsOf s.topics topic)
    (hevs : ∀ e ∈ evs, e.detaches sid = false) (hinbox : inbox sid evs = [])
    (hpubs : publications topic evs = []) : RegistrationStep sid topic qos s evs s' :=
  .keep (by rw [hsubs]) hevs (by simp [hinbox, newsFor, hpubs])

omit [DecidableEq ι] in
/-- A publish offers its envelope to the compatible subscriptions of its own topic that
    are registered, and to no other. -/
theorem inbox_of_published (wf : WF s) {t : String} {qos : QoS} {entry : TopicEntry τ π}
    (hlook : s.topics.lookup t = some entry) {m : Matching ι τ π η}
    (hm : m = matchAll s qos entry.subs) {sub : Subscription τ π} (hsub : s.subs sid = some sub)
    (p : ι) (env : Envelope π) :
    inbox sid (.published p t env qos entry.subs m.targets :: m.events) =
      if sid ∈ subsOf s.topics sub.topic then
        (newsFor sub.topic sub.qos (.published p t env qos entry.subs m.targets :: m.events)).map
          (Prod.mk true)
      else [] := by
  obtain ⟨hpubs, hinbox, -⟩ := readers_of_published hm
    (.published p t env qos entry.subs m.targets)
  rw [hinbox, newsFor, hpubs, hm, matchAll_eq s _ (wf.topics _ _ hlook).nodup]
  by_cases h : t = sub.topic
  · subst h
    rw [subsOf_of_lookup hlook]
    by_cases hmem : sid ∈ entry.subs
    · by_cases hc : checkCompatible qos sub.qos = .none
      · simp [inbox, BusEvent.offer, publications, BusEvent.publication, matched, hmem, isTarget,
          hsub, hc]
      · simp [inbox, BusEvent.offer, publications, BusEvent.publication, matched, hmem, isTarget,
          hsub, hc]
    · simp [inbox, BusEvent.offer, matched, hmem]
  · -- a publish on another topic does not meet the subscription
    have hnot : sid ∉ entry.subs := by
      intro hmem
      obtain ⟨sub', hsub', htopic⟩ := (wf.topics _ _ hlook).own hmem
      cases Option.some.inj (hsub.symm.trans hsub')
      exact h htopic.symm
    simp [inbox, BusEvent.offer, publications, BusEvent.publication, matched, hnot, h]

theorem Transition.registrationStep (ht : Transition s a evs s') (wf : WF s)
    {sub : Subscription τ π} (hsub : s.subs sid = some sub) :
    RegistrationStep sid sub.topic sub.qos s evs s' := by
  cases ht with
  | advertise | conflict => exact .quiet (subsOf_ensureTopic _) (by simp) rfl rfl
  | setHandler | setTimeout | publish | pushSleep | stopClose | stopJoinable | stopSkip
  | stopJoin | spawn | assign => exact .quiet rfl (by simp) rfl rfl
  | pushBacklog | publishFailed | pushReturn | publishReturn | stopReturn =>
      exact .quiet rfl (by simp [BusEvent.detaches]) rfl rfl
  | report =>
      refine .quiet rfl (by simp [BusEvent.detaches]) (readers_of_report _ _ _ _ sid).1 ?_
      simp [publications, BusEvent.publication]
  | worker =>
      exact .quiet rfl (by simp [BusEvent.detaches]) ((readers_of_sub (by simp)).2.1 sid)
        ((readers_of_sub (by simp)).1 sub.topic)
  | @subscribe p t type qos i entry hp hi hentry htype =>
      have hne : sid ≠ i := by rintro rfl; rw [hsub] at hi; cases hi
      have hlook := lookup_ensureTopic_self s.topics t type
      rw [hentry] at hlook
      have hold : subsOf s.topics t = entry.subs := by
        rw [← subsOf_ensureTopic (t := t) type, subsOf_of_lookup hlook]
      refine .keep ?_ (by simp [BusEvent.detaches]) ?_
      · dsimp only
        rw [subsOf_insert]
        split
        · rename_i h
          rw [h, hold]
          simp [hne]
        · rw [subsOf_ensureTopic]
      · simp [inbox, BusEvent.offer, Ne.symm hne, newsFor, publications, BusEvent.publication]
  | @published p t type qos payload now entry env m hp hlook htype henv hm =>
      refine .keep ?_ ?_ (inbox_of_published wf hlook hm hsub p env)
      · dsimp only
        rw [subsOf_insert]
        split
        · rename_i h
          rw [h, subsOf_of_lookup hlook]
        · exact Iff.rfl
      · intro e he
        rcases mem_published hm he with rfl | ⟨_, _, rfl⟩
        · rfl
        · rfl
  | @unsubscribe p i subi hp hi hth =>
      by_cases h : i = sid
      · subst h
        cases Option.some.inj (hsub.symm.trans hi)
        refine .remove rfl (by simp [BusEvent.detaches]) rfl ?_
        rw [setCall_topics, subsOf_unregister, if_pos rfl]
        exact (wf.topics.nodup_subsOf _).not_mem_erase
      · refine .keep ?_ (by simp [BusEvent.detaches, Ne.symm h]) ?_
        · rw [setCall_topics, subsOf_unregister]
          split
          · exact List.mem_erase_of_ne (Ne.symm h)
          · exact Iff.rfl
        · simp [inbox, BusEvent.offer, newsFor, publications, BusEvent.publication]
  | @shutdown p all hp hall =>
      by_cases h : sid ∈ all
      · refine .remove rfl (by simp [BusEvent.detaches, h]) rfl ?_
        rw [setCall_topics, subsOf_clear]
        exact List.not_mem_nil
      · have hnot : sid ∉ subsOf s.topics sub.topic := fun hmem =>
          h (hall.mem_iff.mpr (mem_registered hmem))
        refine .keep ?_ (by simp [BusEvent.detaches, h]) ?_
        · rw [setCall_topics, subsOf_clear]
          simp [hnot]
        · simp [inbox, BusEvent.offer, hnot]

end Steps

/-! ## From registration on -/

/-- What is known of a subscription of `topic` with `qos` after it was registered,
    `tr` being what happened since. -/
inductive Cut (sid : SubId) (topic : String) (qos : QoS) (tr : List (BusEvent ι π η))
    (s : BusState ι τ π η) : Prop where
  | registered : (∀ e ∈ tr, e.detaches sid = false) → sid ∈ subsOf s.topics topic →
      inbox sid tr = (newsFor topic qos tr).map (Prod.mk true) → Cut sid topic qos tr s
  | removed {before after : List (BusEvent ι π η)} {e : BusEvent ι π η} :
      tr = before ++ e :: after → (∀ e ∈ before, e.detaches sid = false) →
      e.detaches sid = true → sid ∉ subsOf s.topics topic →
      inbox sid tr = (newsFor topic qos before).map (Prod.mk true) → Cut sid topic qos tr s

section Runs

variable {s s' : BusState ι τ π η} {a : BusAction ι τ π η}
  {evs tr : List (BusEvent ι π η)} {as : List (BusAction ι τ π η)} {sid : SubId}
  {topic : String} {qos : QoS}

theorem Cut.step (h : Cut sid topic qos tr s) (hs : RegistrationStep sid topic qos s evs s') :
    Cut sid topic qos (tr ++ evs) s' := by
  cases h with
  | registered hevs hmem hinbox =>
      cases hs with
      | keep hiff hnone hnews =>
          refine .registered ?_ (hiff.mpr hmem) ?_
          · intro e he
            exact (List.mem_append.mp he).elim (hevs e) (hnone e)
          · rw [inbox_append, hinbox, hnews, if_pos hmem, newsFor_append, List.map_append]
      | remove hone he hnil hnot =>
          refine .removed (congrArg _ hone) hevs he hnot ?_
          rw [inbox_append, hnil, List.append_nil, hinbox]
  | @removed before after e htr hevs he hnot hinbox =>
      have hlonger : tr ++ evs = before ++ e :: (after ++ evs) := by simp [htr]
      -- nothing is offered any more, and nobody puts it back on the list
      cases hs with
      | keep hiff hnone hnews =>
          refine .removed hlonger hevs he (mt hiff.mp hnot) ?_
          rw [inbox_append, hnews, if_neg hnot, List.append_nil, hinbox]
      | remove hone hdet hnil hnot' =>
          refine .removed hlonger hevs he hnot' ?_
          rw [inbox_append, hnil, List.append_nil, hinbox]

/-- Since registration, a subscription was offered the compatible publishes until it
    was removed. -/
theorem Cut.inbox_eq (h : Cut sid topic qos tr s) :
    inbox sid tr = (newsFor topic qos (whileRegistered sid tr)).map (Prod.mk true) := by
  cases h with
  | registered hevs _ hinbox => rw [whileRegistered_eq_self hevs, hinbox]
  | removed htr hevs he _ hinbox =>
      subst htr
      rw [whileRegistered_eq hevs he, hinbox]

variable [DecidableEq ι] [DecidableEq τ]

/-- The two lock sections of a subscription cut its inbox out of the publications. -/
theorem cut_of_run {sub : Subscription τ π} (wf : WF s) (hsub : s.subs sid = some sub)
    (hreg : sid ∈ subsOf s.topics sub.topic) (h : (machine ι τ π η).Run s as tr s') :
    Cut sid sub.topic sub.qos tr s' := by
  have hinv : WF s' ∧ (∃ sub', s'.subs sid = some sub' ∧ sub'.topic = sub.topic ∧
      sub'.qos = sub.qos) ∧ Cut sid sub.topic sub.qos tr s' := by
    refine Machine.Run.invariant
      (I := fun tr s => WF s ∧ (∃ sub', s.subs sid = some sub' ∧ sub'.topic = sub.topic ∧
        sub'.qos = sub.qos) ∧ Cut sid sub.topic sub.qos tr s) h
      ⟨wf, ⟨sub, hsub, rfl, rfl⟩, .registered (by simp) hreg rfl⟩ ?_
    rintro tr s a s' evs ⟨wf, ⟨sub₁, hsub₁, htopic, hqos⟩, hcut⟩ hstep
    have ht := step_transition hstep
    obtain ⟨sub₂, hsub₂, htopic₂, hqos₂⟩ := (ht.subsStep wf).topic_eq hsub₁
    have hreg := ht.registrationStep wf hsub₁
    rw [htopic, hqos] at hreg
    exact ⟨ht.wf wf, ⟨sub₂, hsub₂, htopic₂.trans htopic, hqos₂.trans hqos⟩, hcut.step hreg⟩
  exact hinv.2.2

end Runs

/-! ## A clean cut -/

section CleanCut

variable [Fintype ι] [DecidableEq ι] [DecidableEq τ] {s s₁ s₂ : BusState ι τ π η}
  {as₁ as₂ : List (BusAction ι τ π η)} {tr₁ tr₂ evs : List (BusEvent ι π η)} {p : ι}
  {topic : String} {type : τ} {qos : QoS} {sid : SubId}

/-- The lock section of `subscribe`, if it registers the subscription. -/
theorem subscribe_of_mem_subsOf (hsound : Sound tr₁ s₁)
    (hstep : (machine ι τ π η).step s₁ (.subscribe p topic type qos sid) = some (s₂, evs))
    (hreg : sid ∈ subsOf s₂.topics topic) :
    s₂.subs sid = some (.new topic type qos) ∧ inbox sid (tr₁ ++ evs) =
      (if qos.durability = .transientLocal then latchedOf s₁.topics topic else []).map
        (Prod.mk false) := by
  have wf := hsound.accounted.wf
  have ht : Transition s₁ (.subscribe p topic type qos sid) evs s₂ := step_transition hstep
  obtain ⟨sub, hsub, -⟩ := (ht.wf wf).topics.own_of_mem_subsOf hreg
  have hnone : s₁.subs sid = none := by
    cases ht with
    | conflict _ hsid | subscribe _ hsid => exact hsid
    | pushSleep ha | pushReturn ha => rcases ha with h | h <;> cases h
    | worker _ _ hw => cases hw
  cases ht.offerStep wf sid with
  | none _ hkeep => rw [hkeep hnone] at hsub; cases hsub
  | news hold => rw [hnone] at hold; cases hold
  | history ha _ _ hnew hbacklog hinbox =>
      cases ha
      refine ⟨hnew, ?_⟩
      rw [inbox_append, (hsound.inboxes sid).fresh hnone, List.nil_append, hinbox, hbacklog]

/-- **Clean cut.** Let `subscribe` register `sid`, and let everything go on until no
    call has anything left to push into its queue. The pushes it got are the history of
    its topic at registration, if it asked for it, and each compatible publish that took
    the lock before it was removed; all of them have different sequence numbers. -/
theorem clean_cut (h₁ : (machine ι τ π η).Run init as₁ tr₁ s₁)
    (hstep : (machine ι τ π η).step s₁ (.subscribe p topic type qos sid) = some (s₂, evs))
    (hreg : sid ∈ subsOf s₂.topics topic) (h₂ : (machine ι τ π η).Run s₂ as₂ tr₂ s)
    (hdone : ∀ q, (s.threads q).pending sid = []) :
    let history := if qos.durability = .transientLocal then latchedOf s₁.topics topic else []
    let news := newsFor topic qos (whileRegistered sid tr₂)
    (Ledger.attempts (ledger sid (tr₁ ++ evs ++ tr₂))).Perm
        (history.map (Prod.mk false) ++ news.map (Prod.mk true)) ∧
      ((history ++ news).map Envelope.seq).Nodup := by
  intro history news
  have hsound₁ := sound_of_run h₁
  obtain ⟨hsub, hfirst⟩ := subscribe_of_mem_subsOf hsound₁ hstep hreg
  have hregistered := h₁.snoc hstep
  have hsound := sound_of_run (hregistered.append h₂)
  have hcut := cut_of_run (sound_of_run hregistered).accounted.wf hsub hreg h₂
  have hinbox : inbox sid (tr₁ ++ evs ++ tr₂) =
      history.map (Prod.mk false) ++ news.map (Prod.mk true) := by
    rw [inbox_append, hfirst, hcut.inbox_eq]
    rfl
  have hpending : pendingTo s sid = 0 := Finset.sum_eq_zero fun q _ => by rw [hdone q]; rfl
  have hconserved := hsound.conserved sid
  rw [Conserved, hpending, add_zero, hinbox] at hconserved
  refine ⟨Multiset.coe_eq_coe.mp hconserved, ?_⟩
  have hincreasing := hsound.inbox_increasing sid
  rw [hinbox] at hincreasing
  have hnodup : ((history.map (Prod.mk false) ++ news.map (Prod.mk true)).map
      fun x => x.2.seq).Nodup := List.pairwise_map.mpr (hincreasing.imp Nat.ne_of_lt)
  simpa [Function.comp_def] using hnodup

/-- A late joiner whose first live push overtakes its backlog, and that misses what is
    published after its removal. -/
theorem clean_cut_late_joiner :
    ∃ as₁ tr₁ s₁ evs s₂ as₂ tr₂ s, (machine (Fin 2) Unit Nat Unit).Run init as₁ tr₁ s₁ ∧
      (machine (Fin 2) Unit Nat Unit).step s₁ (.subscribe 1 "map" () (.latched 4) 5) =
        some (s₂, evs) ∧
      (machine (Fin 2) Unit Nat Unit).Run s₂ as₂ tr₂ s ∧
      (publications "map" (tr₁ ++ evs ++ tr₂)).length = 3 ∧
      (Ledger.attempts (ledger 5 (tr₁ ++ evs ++ tr₂))).Perm
        [(false, ⟨7, 1, 0⟩), (true, ⟨8, 2, 0⟩)] := by
  have h₁ := Machine.Run.of_isSome (machine (Fin 2) Unit Nat Unit) init
    [.advertise "map" (), .publish 0 "map" () (.latched 4) 7 0, .publishLock 0,
      .publishReturn 0] (by decide)
  have hstep := h₁.step_of_isSome (.subscribe 1 "map" () (.latched 4) 5) (by decide)
  have hcut := clean_cut h₁ hstep (by decide) (.of_isSome _ _
    [.publish 0 "map" () (.latched 4) 8 0, .publishLock 0, .push 0 5 0, .pushBacklog 1 5,
      .publishReturn 0, .spawn 1 5, .assign 1 5, .unsubscribe 1 5,
      .publish 0 "map" () (.latched 4) 9 0, .publishLock 0, .publishReturn 0] (by decide))
    (by decide)
  exact ⟨_, _, _, _, _, _, _, _, h₁, hstep, .of_isSome _ _ _ _, by decide, hcut.1⟩

end CleanCut

end TopicBus

end Rdb
