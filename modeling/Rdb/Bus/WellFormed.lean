-- SUMMARY: The state invariants of the bus, and how every step acts on each subscription.
import Rdb.Bus.Ledger
import Rdb.Bus.Transitions

/-!
# Well-formed bus states

`SubsStep` projects a step of the bus to every single subscription: each existing
record takes a `Subscription.Step` with its part of the events. `WF` is what the
projection needs and what every step keeps: registered subscriptions exist, are
registered once and under their own topic, and the thread that runs `subscribe`
is the only one to start the worker.
-/

namespace Rdb

variable {ι τ π η : Type*}

/-- The event, if it is about `sid`. -/
def BusEvent.about (sid : SubId) : BusEvent ι π η → Option (SubEvent ι π)
  | .sub i e => if i = sid then some e else none
  | _        => none

/-- The subscription whose worker the thread is about to start. -/
def Call.owns : Call τ π η → Option SubId
  | .backlog sid _ | .starting sid => some sid
  | _ => none

namespace TopicBus

/-! ## The ledger of a subscription in a trace -/

/-- The part of a trace that is about `sid`. -/
def ledger (sid : SubId) (tr : List (BusEvent ι π η)) : List (SubEvent ι π) :=
  tr.filterMap (BusEvent.about sid)

@[simp] theorem ledger_nil (sid : SubId) : ledger sid ([] : List (BusEvent ι π η)) = [] := rfl

@[simp] theorem ledger_append (sid : SubId) (tr tr' : List (BusEvent ι π η)) :
    ledger sid (tr ++ tr') = ledger sid tr ++ ledger sid tr' := List.filterMap_append ..

theorem ledger_map_self (sid : SubId) (evs : List (SubEvent ι π)) :
    ledger sid (evs.map (.sub sid) : List (BusEvent ι π η)) = evs := by
  simp [ledger, List.filterMap_map, Function.comp_def, BusEvent.about]

theorem ledger_map_of_ne {sid sid' : SubId} (h : sid' ≠ sid) (evs : List (SubEvent ι π)) :
    ledger sid (evs.map (.sub sid') : List (BusEvent ι π η)) = [] := by
  simp [ledger, List.filterMap_map, Function.comp_def, BusEvent.about, h]

theorem mem_ledger {sid : SubId} {e : SubEvent ι π} {tr : List (BusEvent ι π η)} :
    e ∈ ledger sid tr ↔ .sub sid e ∈ tr := by
  simp only [ledger, List.mem_filterMap]
  constructor
  · rintro ⟨b, hb, he⟩
    cases b with
    | sub i e' =>
        simp only [BusEvent.about, Option.ite_none_right_eq_some, Option.some.injEq] at he
        obtain ⟨rfl, rfl⟩ := he
        exact hb
    | _ => cases he
  · intro h
    exact ⟨_, h, by simp [BusEvent.about]⟩

/-! ## Every subscription takes a step -/

/-- What a step of the bus does to the subscriptions. -/
structure SubsStep (s : BusState ι τ π η) (evs : List (BusEvent ι π η)) (s' : BusState ι τ π η) :
    Prop where
  old : ∀ {sid sub}, s.subs sid = some sub →
    ∃ sub', s'.subs sid = some sub' ∧ sub.Step (ledger sid evs) sub'
  fresh : ∀ {sid}, s.subs sid = none → ledger sid evs = [] ∧
    ∀ {sub'}, s'.subs sid = some sub' → ∃ topic type qos, sub' = .new topic type qos

section SubsStep

variable {s s' : BusState ι τ π η} {evs : List (BusEvent ι π η)}

theorem SubsStep.quiet (hsubs : s'.subs = s.subs) (hevs : ∀ sid, ledger sid evs = []) :
    SubsStep s evs s' where
  old h := ⟨_, by rw [hsubs, h], by rw [hevs]; exact .stay⟩
  fresh h := ⟨hevs _, fun h' => by rw [hsubs, h] at h'; cases h'⟩

/-- A step about one subscription only. -/
theorem SubsStep.single {sid : SubId} {sub sub' : Subscription τ π} {levs : List (SubEvent ι π)}
    (hsubs : s'.subs = Function.update s.subs sid (some sub')) (hevs : evs = levs.map (.sub sid))
    (hsub : s.subs sid = some sub) (hstep : sub.Step levs sub') : SubsStep s evs s' where
  old {i subi} hi := by
    subst hevs
    by_cases h : i = sid
    · subst h
      cases Option.some.inj (hsub.symm.trans hi)
      exact ⟨sub', by simp [hsubs], by rwa [ledger_map_self]⟩
    · exact ⟨subi, by simp [hsubs, h, hi],
        by rw [ledger_map_of_ne (Ne.symm h)]; exact .stay⟩
  fresh {i} hi := by
    subst hevs
    have h : i ≠ sid := by rintro rfl; rw [hsub] at hi; cases hi
    refine ⟨ledger_map_of_ne (Ne.symm h) _, fun h' => ?_⟩
    rw [hsubs, Function.update_of_ne h, hi] at h'
    cases h'

theorem SubsStep.topic_eq (h : SubsStep s evs s') {sid : SubId} {sub : Subscription τ π}
    (hsub : s.subs sid = some sub) :
    ∃ sub', s'.subs sid = some sub' ∧ sub'.topic = sub.topic ∧ sub'.qos = sub.qos := by
  obtain ⟨sub', hsub', hstep⟩ := h.old hsub
  exact ⟨sub', hsub', hstep.qos_eq.2.1, hstep.qos_eq.1⟩

end SubsStep

/-! ## The topic table -/

/-- The subscriptions of a topic exist, are its own and are listed once. -/
structure EntryOk (subs : SubId → Option (Subscription τ π)) (topic : String)
    (entry : TopicEntry τ π) : Prop where
  nodup : entry.subs.Nodup
  own : ∀ {sid}, sid ∈ entry.subs → ∃ sub, subs sid = some sub ∧ sub.topic = topic

def TopicsOk (topics : Topics τ π) (subs : SubId → Option (Subscription τ π)) : Prop :=
  ∀ topic entry, topics.lookup topic = some entry → EntryOk subs topic entry

section Topics

variable {topics : Topics τ π} {subs : SubId → Option (Subscription τ π)}

theorem TopicsOk.insert {topic : String} {entry : TopicEntry τ π} (h : TopicsOk topics subs)
    (he : EntryOk subs topic entry) : TopicsOk (topics.insert topic entry) subs := by
  intro topic' entry' hlook
  by_cases ht : topic' = topic
  · subst ht
    rw [AList.lookup_insert] at hlook
    cases hlook
    exact he
  · rw [AList.lookup_insert_ne ht] at hlook
    exact h _ _ hlook

theorem entryOk_new (topic : String) (type : τ) : EntryOk subs topic (TopicEntry.new type) :=
  ⟨List.nodup_nil, fun h => absurd h List.not_mem_nil⟩

theorem TopicsOk.ensureTopic (h : TopicsOk topics subs) (topic : String) (type : τ) :
    TopicsOk (ensureTopic topics topic type).1 subs ∧
      EntryOk subs topic (TopicBus.ensureTopic topics topic type).2 := by
  unfold TopicBus.ensureTopic
  split
  · rename_i hlook
    exact ⟨h, h _ _ hlook⟩
  · exact ⟨h.insert (entryOk_new topic type), entryOk_new topic type⟩

theorem TopicsOk.unregister (h : TopicsOk topics subs) (topic : String) (sid : SubId) :
    TopicsOk (unregister topics topic sid) subs := by
  unfold TopicBus.unregister
  split
  · rename_i entry hlook
    have he := h _ _ hlook
    exact h.insert ⟨he.nodup.erase sid, fun hmem => he.own (List.mem_of_mem_erase hmem)⟩
  · exact h

theorem topicsOk_clear (topics : Topics τ π) (subs : SubId → Option (Subscription τ π)) :
    TopicsOk (topics.mapVals TopicEntry.clear) subs := by
  intro topic entry hlook
  rw [AList.lookup_mapVals] at hlook
  obtain ⟨old, -, rfl⟩ := Option.map_eq_some_iff.mp hlook
  exact ⟨List.nodup_nil, fun h => absurd h List.not_mem_nil⟩

theorem TopicsOk.mono {subs' : SubId → Option (Subscription τ π)} (h : TopicsOk topics subs)
    (hsub : ∀ {sid sub}, subs sid = some sub → ∃ sub', subs' sid = some sub' ∧
      sub'.topic = sub.topic) : TopicsOk topics subs' := by
  intro topic entry hlook
  refine ⟨(h _ _ hlook).nodup, fun hmem => ?_⟩
  obtain ⟨sub, hs, ht⟩ := (h _ _ hlook).own hmem
  obtain ⟨sub', hs', ht'⟩ := hsub hs
  exact ⟨sub', hs', ht'.trans ht⟩

theorem TopicsOk.update {sid : SubId} {sub sub' : Subscription τ π} (h : TopicsOk topics subs)
    (hsub : subs sid = some sub) (htopic : sub'.topic = sub.topic) :
    TopicsOk topics (Function.update subs sid (some sub')) := by
  refine h.mono fun {i subi} hi => ?_
  by_cases hs : i = sid
  · subst hs
    cases Option.some.inj (hsub.symm.trans hi)
    exact ⟨sub', by simp, htopic⟩
  · exact ⟨subi, by simp [hs, hi], rfl⟩

end Topics

/-! ## Well-formed states -/

/-- What holds of the records a call is about. -/
def CallOk (subs : SubId → Option (Subscription τ π)) : Call τ π η → Prop
  | .fanout f => f.targets.Nodup ∧
      ∀ sid ∈ f.targets, ∃ sub, subs sid = some sub ∧ sub.topic = f.topic
  | .backlog sid _ => ∃ sub, subs sid = some sub ∧ sub.thread = .empty ∧ sub.worker = .notStarted
  | .starting sid => ∃ sub, subs sid = some sub ∧ sub.thread = .empty
  | .stopping _ .join (sid :: _) => ∃ sub, subs sid = some sub ∧ sub.thread ≠ .empty
  | _ => True

structure WF (s : BusState ι τ π η) : Prop where
  topics : TopicsOk s.topics s.subs
  calls : ∀ p, CallOk s.subs (s.threads p)
  /-- only the thread that runs `subscribe` starts the worker -/
  owner_unique : ∀ {p q sid}, (s.threads p).owns = some sid → (s.threads q).owns = some sid → p = q

/-- Topics that nobody has subscribed to. -/
def Bare (topics : Topics τ π) : Prop :=
  ∀ topic entry, topics.lookup topic = some entry → entry.subs = []

theorem bare_empty : Bare (∅ : Topics τ π) := by
  intro topic entry h
  simp at h

theorem wf_ofTopics {topics : Topics τ π} (h : Bare topics) :
    WF (ofTopics topics : BusState ι τ π η) where
  topics topic entry hlook := by
    have hnil := h topic entry hlook
    exact ⟨hnil ▸ List.nodup_nil, fun hmem => absurd (hnil ▸ hmem) List.not_mem_nil⟩
  calls _ := trivial
  owner_unique h := by cases h

section Accessors

variable {s : BusState ι τ π η} {p : ι}

theorem WF.targets (wf : WF s) {f : Fanout π η} (hp : s.threads p = .fanout f) :
    f.targets.Nodup ∧ ∀ sid ∈ f.targets, ∃ sub, s.subs sid = some sub ∧ sub.topic = f.topic := by
  simpa [CallOk, hp] using wf.calls p

theorem WF.backlog (wf : WF s) {sid : SubId} {rest : List (Envelope π)}
    (hp : s.threads p = .backlog sid rest) :
    ∃ sub, s.subs sid = some sub ∧ sub.thread = .empty ∧ sub.worker = .notStarted := by
  simpa [CallOk, hp] using wf.calls p

theorem WF.starting (wf : WF s) {sid : SubId} (hp : s.threads p = .starting sid) :
    ∃ sub, s.subs sid = some sub ∧ sub.thread = .empty := by
  simpa [CallOk, hp] using wf.calls p

theorem WF.joining (wf : WF s) {owner : Option SubId} {sid : SubId} {rest : List SubId}
    (hp : s.threads p = .stopping owner .join (sid :: rest)) :
    ∃ sub, s.subs sid = some sub ∧ sub.thread ≠ .empty := by
  simpa [CallOk, hp] using wf.calls p

end Accessors

theorem CallOk.owned {subs : SubId → Option (Subscription τ π)} {c : Call τ π η} {sid : SubId}
    (h : CallOk subs c) (ho : c.owns = some sid) :
    ∃ sub, subs sid = some sub ∧ sub.thread = .empty := by
  cases c with
  | backlog i rest =>
      cases ho
      obtain ⟨sub, hsub, hth, -⟩ := h
      exact ⟨sub, hsub, hth⟩
  | starting i =>
      cases ho
      exact h
  | _ => cases ho

/-- A call stays fine while its subscriptions keep their topic, and keep waiting for
    their worker if the call is to start it. -/
theorem CallOk.mono {subs subs' : SubId → Option (Subscription τ π)} {c : Call τ π η}
    (h : CallOk subs c)
    (hrec : ∀ {sid sub}, subs sid = some sub → ∃ sub', subs' sid = some sub' ∧
      sub'.topic = sub.topic ∧ (sub.thread ≠ .empty → sub'.thread ≠ .empty) ∧
      (c.owns = some sid → sub.thread = .empty →
        sub'.thread = .empty ∧ (sub.worker = .notStarted → sub'.worker = .notStarted))) :
    CallOk subs' c := by
  cases c with
  | fanout f =>
      refine ⟨h.1, fun sid hmem => ?_⟩
      obtain ⟨sub, hsub, htopic⟩ := h.2 sid hmem
      obtain ⟨sub', hsub', htopic', -, -⟩ := hrec hsub
      exact ⟨sub', hsub', htopic'.trans htopic⟩
  | backlog sid rest =>
      obtain ⟨sub, hsub, hth, hw⟩ := h
      obtain ⟨sub', hsub', -, -, hkeep⟩ := hrec hsub
      exact ⟨sub', hsub', (hkeep rfl hth).1, (hkeep rfl hth).2 hw⟩
  | starting sid =>
      obtain ⟨sub, hsub, hth⟩ := h
      obtain ⟨sub', hsub', -, -, hkeep⟩ := hrec hsub
      exact ⟨sub', hsub', (hkeep rfl hth).1⟩
  | stopping owner phase rest =>
      cases phase with
      | close | joinable => trivial
      | join =>
          cases rest with
          | nil => trivial
          | cons sid rest =>
              obtain ⟨sub, hsub, hth⟩ := h
              obtain ⟨sub', hsub', -, hkeep, -⟩ := hrec hsub
              exact ⟨sub', hsub', hkeep hth⟩
  | idle | publishing => trivial

/-- One record changes. -/
theorem CallOk.update {subs : SubId → Option (Subscription τ π)} {c : Call τ π η} {sid : SubId}
    {sub sub' : Subscription τ π} (h : CallOk subs c) (hsub : subs sid = some sub)
    (htopic : sub'.topic = sub.topic) (hth : sub.thread ≠ .empty → sub'.thread ≠ .empty)
    (hkeep : c.owns = some sid → sub.thread = .empty →
      sub'.thread = .empty ∧ (sub.worker = .notStarted → sub'.worker = .notStarted)) :
    CallOk (Function.update subs sid (some sub')) c := by
  refine h.mono fun {i subi} hi => ?_
  by_cases hs : i = sid
  · subst hs
    cases Option.some.inj (hsub.symm.trans hi)
    exact ⟨sub', by simp, htopic, hth, hkeep⟩
  · exact ⟨subi, by simp [hs, hi], rfl, id, fun _ hth => ⟨hth, id⟩⟩

section Projection

variable [DecidableEq ι] {s s' : BusState ι τ π η} {a : BusAction ι τ π η}
  {evs : List (BusEvent ι π η)}

omit [DecidableEq ι] in
theorem ledger_rejections {sids : List SubId} (hnodup : sids.Nodup) (s : BusState ι τ π η)
    (qos : QoS) (sid : SubId) :
    ledger sid ((rejections s qos sids).map fun r =>
        (.sub r.1 (.rejected r.2) : BusEvent ι π η)) =
      if sid ∈ sids then (rejection s qos sid).toList.map fun r => .rejected r.2 else [] := by
  have hfilter : ∀ rs : List (SubId × QosMismatch),
      ledger sid (rs.map fun r => (.sub r.1 (.rejected r.2) : BusEvent ι π η)) =
        (rs.filter fun r => r.1 = sid).map fun r => .rejected r.2 := by
    intro rs
    induction rs with
    | nil => rfl
    | cons r rs ih => by_cases hr : r.1 = sid <;> simp_all [ledger, BusEvent.about]
  rw [hfilter, filter_rejections hnodup]
  split <;> rfl

omit [DecidableEq ι] in
theorem matched_subsStep {sids : List SubId} (hnodup : sids.Nodup) (s : BusState ι τ π η)
    (qos : QoS) {s' : BusState ι τ π η} (hs' : s'.subs = (matched (ι := ι) s qos sids).subs)
    {e : BusEvent ι π η} (he : ∀ sid, e.about sid = none) :
    SubsStep s (e :: (matched s qos sids).events) s' := by
  have hledger : ∀ sid, ledger sid (e :: (matched s qos sids).events) =
      if sid ∈ sids then (rejection s qos sid).toList.map fun r => .rejected r.2 else [] := by
    intro sid
    rw [← ledger_rejections hnodup s qos sid]
    simp [ledger, he, matched]
  refine ⟨fun {sid sub} hsub => ?_, fun {sid} hsub => ?_⟩
  · rw [hs', hledger]
    by_cases hmem : sid ∈ sids
    · refine ⟨screened qos sub, by simp [matched, hmem, hsub], ?_⟩
      by_cases hm : checkCompatible qos sub.qos = .none
      · simpa [hmem, rejection, hsub, hm, screened] using Subscription.Step.stay
      · simpa [hmem, rejection, hsub, hm, screened] using Subscription.Step.reject
    · exact ⟨sub, by simp [matched, hmem, hsub], by simpa [hmem] using .stay⟩
  · rw [hs', hledger]
    exact ⟨by simp [rejection, hsub], fun h => by simp [matched, hsub] at h⟩

/-- Every step of the bus is a step of each subscription. -/
theorem Transition.subsStep (ht : Transition s a evs s') (wf : WF s) : SubsStep s evs s' := by
  cases ht with
  | advertise | setHandler | setTimeout | conflict | publish | publishFailed | pushSleep
  | publishReturn | unsubscribe | shutdown | stopJoinable | stopSkip | stopReturn =>
      exact .quiet rfl fun sid => rfl
  | report => exact .quiet rfl fun sid => by simp [ledger, BusEvent.about]
  | @subscribe _ _ _ _ sid _ _ hsid =>
      refine ⟨fun {i sub} hi => ?_, fun {i} hi => ⟨rfl, fun {sub'} h' => ?_⟩⟩
      · have hne : i ≠ sid := by rintro rfl; rw [hsid] at hi; cases hi
        exact ⟨sub, by simp [hne, hi], .stay⟩
      · by_cases h : i = sid
        · subst h
          simp only [Function.update_self, Option.some.injEq] at h'
          exact ⟨_, _, _, h'.symm⟩
        · simp [h, hi] at h'
  | pushBacklog _ hsub heff =>
      exact .single rfl rfl hsub (.push heff)
  | spawn hp hsub =>
      obtain ⟨sub', hsub', -, hw⟩ := wf.backlog hp
      cases Option.some.inj (hsub.symm.trans hsub')
      exact .single rfl rfl hsub (.spawn hw)
  | assign hp hsub =>
      obtain ⟨sub', hsub', hth⟩ := wf.starting hp
      cases Option.some.inj (hsub.symm.trans hsub')
      exact .single rfl rfl hsub (.assign hth)
  | published _ hlook _ _ hm =>
      rw [matchAll_eq s _ (wf.topics _ _ hlook).nodup] at hm
      subst hm
      exact matched_subsStep (wf.topics _ _ hlook).nodup s _ rfl fun _ => rfl
  | pushReturn _ _ _ hsub heff => exact .single rfl rfl hsub (.push heff)
  | stopClose _ hsub => exact .single rfl rfl hsub .close
  | stopJoin _ hsub hw hth => exact .single rfl rfl hsub (.join hw)
  | worker hsub hstep => exact .single rfl rfl hsub hstep.step

/-! ## Every step keeps well-formedness -/

/-- If at most one thread holds each `k`, and thread `p` moves on to `c` without
    taking a `k` from another one, this stays so. -/
theorem unique_update {γ κ : Type*} {t : ι → γ} (P : γ → κ → Prop) {p : ι} {c : γ}
    (h : ∀ {q r k}, P (t q) k → P (t r) k → q = r)
    (hc : ∀ {k}, P c k → P (t p) k ∨ ∀ q, ¬ P (t q) k) {q r : ι} {k : κ}
    (hq : P (Function.update t p c q) k) (hr : P (Function.update t p c r) k) : q = r := by
  -- only the thread that moves can hold something new
  by_cases hqp : q = p <;> by_cases hrp : r = p
  · rw [hqp, hrp]
  · subst hqp
    rw [Function.update_self] at hq
    rw [Function.update_of_ne hrp] at hr
    rcases hc hq with h' | h'
    · exact h h' hr
    · exact absurd hr (h' r)
  · subst hrp
    rw [Function.update_of_ne hqp] at hq
    rw [Function.update_self] at hr
    rcases hc hr with h' | h'
    · exact h hq h'
    · exact absurd hq (h' q)
  · rw [Function.update_of_ne hqp] at hq
    rw [Function.update_of_ne hrp] at hr
    exact h hq hr

/-- A step of thread `p`, seen from the other threads. -/
theorem WF.update {p : ι} {c : Call τ π η} (wf : WF s)
    (hthreads : s'.threads = Function.update s.threads p c) (htopics : TopicsOk s'.topics s'.subs)
    (hc : CallOk s'.subs c) (hothers : ∀ q, q ≠ p → CallOk s'.subs (s.threads q))
    (howns : ∀ {sid}, c.owns = some sid →
      (s.threads p).owns = some sid ∨ ∀ q, (s.threads q).owns ≠ some sid) : WF s' where
  topics := htopics
  calls q := by
    rw [hthreads]
    by_cases h : q = p
    · subst h; simpa using hc
    · simpa [h] using hothers q h
  owner_unique {q r sid} hq hr := by
    rw [hthreads] at hq hr
    refine unique_update (fun c sid => Call.owns c = some sid) wf.owner_unique ?_ hq hr
    exact fun h => (howns h).imp_right fun h' q => h' q

/-- A step that leaves the records alone and gives `p` nothing new to start. -/
theorem WF.setCall {p : ι} {c : Call τ π η} (wf : WF s)
    (hthreads : s'.threads = Function.update s.threads p c) (hsubs : s'.subs = s.subs)
    (htopics : TopicsOk s'.topics s.subs) (hc : CallOk s.subs c) (howns : c.owns = none) : WF s' :=
  wf.update hthreads (hsubs ▸ htopics) (hsubs ▸ hc) (fun q _ => hsubs ▸ wf.calls q)
    fun h => by rw [howns] at h; cases h

/-- A step that changes one record. -/
theorem WF.setSub {p : ι} {c : Call τ π η} {sid : SubId} {sub sub' : Subscription τ π} (wf : WF s)
    (hsub : s.subs sid = some sub) (htopic : sub'.topic = sub.topic)
    (hth : sub.thread ≠ .empty → sub'.thread ≠ .empty)
    (hkeep : ∀ q, q ≠ p → (s.threads q).owns = some sid → sub.thread = .empty →
      sub'.thread = .empty ∧ (sub.worker = .notStarted → sub'.worker = .notStarted))
    (hc : CallOk (Function.update s.subs sid (some sub')) c)
    (howns : ∀ {i}, c.owns = some i → (s.threads p).owns = some i) :
    WF (TopicBus.setCall (TopicBus.setSub s sid sub') p c) := by
  refine wf.update (p := p) (c := c) rfl ?_ hc ?_ fun h => .inl (howns h)
  · exact wf.topics.update hsub htopic
  · exact fun q hq => (wf.calls q).update hsub htopic hth (hkeep q hq)

theorem WF.subscribe {p : ι} {topic : String} {type : τ} {qos : QoS} {sid : SubId}
    {entry : TopicEntry τ π} {rest : List (Envelope π)} (wf : WF s) (hsid : s.subs sid = none)
    (hentry : (TopicBus.ensureTopic s.topics topic type).2 = entry) :
    WF { s with
      topics := (TopicBus.ensureTopic s.topics topic type).1.insert topic
        { entry with subs := entry.subs ++ [sid] }
      subs := Function.update s.subs sid (some (.new topic type qos))
      threads := Function.update s.threads p (.backlog sid rest) } := by
  have hne : ∀ {i sub}, s.subs i = some sub → i ≠ sid := by
    rintro i sub hi rfl
    rw [hsid] at hi
    cases hi
  have hkeep : ∀ {i sub}, s.subs i = some sub →
      Function.update s.subs sid (some (.new topic type qos)) i = some sub := fun hi => by
    rw [Function.update_of_ne (hne hi), hi]
  obtain ⟨htopics, hold⟩ := wf.topics.ensureTopic topic type
  rw [hentry] at hold
  refine wf.update (p := p) (c := .backlog sid rest) rfl ?_
    ⟨_, Function.update_self .., rfl, rfl⟩ ?_ ?_
  · have htopics' : TopicsOk _ (Function.update s.subs sid (some (.new topic type qos))) :=
      htopics.mono fun hi => ⟨_, hkeep hi, rfl⟩
    refine htopics'.insert ⟨?_, fun {i} hmem => ?_⟩
    · refine List.nodup_append.mpr ⟨hold.nodup, by simp, fun i hi j hj => ?_⟩
      obtain ⟨sub, hsub, -⟩ := hold.own hi
      rw [List.mem_singleton.mp hj]
      exact hne hsub
    · rcases List.mem_append.mp hmem with hmem | hmem
      · obtain ⟨sub, hsub, ht⟩ := hold.own hmem
        exact ⟨sub, hkeep hsub, ht⟩
      · rw [List.mem_singleton.mp hmem]
        exact ⟨_, Function.update_self .., rfl⟩
  · exact fun q _ => (wf.calls q).mono fun hi => ⟨_, hkeep hi, rfl, id, fun _ h => ⟨h, id⟩⟩
  · rintro i hi
    cases hi
    -- no call can own an object that did not exist
    refine .inr fun q hq => ?_
    obtain ⟨sub, hsub, -⟩ := (wf.calls q).owned hq
    exact hne hsub rfl

theorem WF.published {p : ι} {topic : String} {qos : QoS} {entry entry' : TopicEntry τ π}
    {f : Fanout π η} (wf : WF s) (hlook : s.topics.lookup topic = some entry)
    (hf : f.topic = topic) (htargets : f.targets = entry.subs.filter (isTarget s qos))
    (hthreads : s'.threads = Function.update s.threads p (.fanout f))
    (htopics : s'.topics = s.topics.insert topic entry') (hsubs : entry'.subs = entry.subs)
    (hs' : s'.subs = (matched (ι := ι) s qos entry.subs).subs) : WF s' := by
  -- the loop over the subscriptions changes nothing but counters
  have hrec : ∀ {sid sub}, s.subs sid = some sub → ∃ sub', s'.subs sid = some sub' ∧
      sub'.topic = sub.topic ∧ sub'.thread = sub.thread ∧ sub'.worker = sub.worker := fun h => by
    rw [hs']
    exact matched_record h
  have htopics' := wf.topics.mono fun h => (hrec h).imp fun _ h => ⟨h.1, h.2.1⟩
  have hentry := htopics' _ _ hlook
  refine wf.update hthreads (htopics ▸ htopics'.insert ⟨hsubs ▸ hentry.nodup, ?_⟩) ?_ ?_ ?_
  · rw [hsubs]
    exact hentry.own
  · rw [CallOk, htargets, hf]
    exact ⟨hentry.nodup.filter _, fun sid hmem => hentry.own (List.mem_filter.mp hmem).1⟩
  · refine fun q _ => (wf.calls q).mono fun h => ?_
    obtain ⟨sub', hsub', htopic, hth, hw⟩ := hrec h
    exact ⟨sub', hsub', htopic, fun h => hth ▸ h, fun _ h => ⟨hth ▸ h, fun h => hw ▸ h⟩⟩
  · exact fun h => by cases h

theorem Transition.wf (ht : Transition s a evs s') (wf : WF s) : WF s' := by
  cases ht with
  | advertise => exact ⟨(wf.topics.ensureTopic _ _).1, wf.calls, wf.owner_unique⟩
  | setHandler | setTimeout => exact ⟨wf.topics, wf.calls, wf.owner_unique⟩
  | conflict => exact ⟨(wf.topics.ensureTopic _ _).1, wf.calls, wf.owner_unique⟩
  | @subscribe p topic type qos sid entry hp hsid hentry htype =>
      exact wf.subscribe hsid hentry
  | pushBacklog hp hsub heff =>
      obtain ⟨sub', hsub', hth, hw⟩ := wf.backlog hp
      cases Option.some.inj (hsub.symm.trans hsub')
      exact wf.setSub hsub rfl id (fun _ _ _ h => ⟨h, id⟩) ⟨_, Function.update_self .., hth, hw⟩
        fun h => by rw [hp]; exact h
  | spawn hp hsub =>
      obtain ⟨sub', hsub', hth, hw⟩ := wf.backlog hp
      cases Option.some.inj (hsub.symm.trans hsub')
      -- nobody else owns the subscription, so nobody else misses the state before
      refine wf.setSub hsub rfl id (fun q hq howns => ?_) ⟨_, Function.update_self .., hth⟩
        fun h => by rw [hp]; exact h
      exact absurd (wf.owner_unique howns (by rw [hp]; rfl)) hq
  | assign hp hsub =>
      refine wf.setSub hsub rfl (fun _ => by simp) (fun q hq howns => ?_) trivial
        fun h => by cases h
      exact absurd (wf.owner_unique howns (by rw [hp]; rfl)) hq
  | publish hp => exact wf.setCall rfl rfl wf.topics trivial rfl
  | publishFailed hp => exact wf.setCall rfl rfl wf.topics trivial rfl
  | published hp hlook htype henv hm =>
      rw [matchAll_eq s _ (wf.topics _ _ hlook).nodup] at hm
      subst hm
      exact wf.published hlook rfl rfl rfl rfl rfl rfl
  | report hp hm =>
      have hf := wf.targets hp
      exact wf.setCall rfl rfl wf.topics hf rfl
  | pushSleep ha hp hf hsub =>
      have hf := wf.targets hp
      exact wf.setCall rfl rfl wf.topics hf rfl
  | pushReturn ha hp hf hsub heff =>
      have hold := wf.targets hp
      rw [hf] at hold
      refine wf.setSub hsub rfl id (fun _ _ _ h => ⟨h, id⟩) ?_ fun h => by cases h
      refine CallOk.update (c := .fanout _) ?_ hsub rfl id fun h => by cases h
      exact ⟨(List.nodup_cons.mp hold.1).2, fun i hmem => hold.2 i (List.mem_cons_of_mem _ hmem)⟩
  | publishReturn hp hf => exact wf.setCall rfl rfl wf.topics trivial rfl
  | unsubscribe hp hsub hth => exact wf.setCall rfl rfl (wf.topics.unregister _ _) trivial rfl
  | shutdown hp hall => exact wf.setCall rfl rfl (topicsOk_clear _ _) trivial rfl
  | stopClose hp hsub =>
      exact wf.setSub hsub rfl id (fun _ _ _ h => ⟨h, id⟩) trivial fun h => by cases h
  | stopJoinable hp hsub hth =>
      exact wf.setCall rfl rfl wf.topics ⟨_, hsub, by rw [hth]; simp⟩ rfl
  | stopSkip hp hsub hth => exact wf.setCall rfl rfl wf.topics trivial rfl
  | stopJoin hp hsub hw hth =>
      exact wf.setSub hsub rfl (fun _ => by simp) (fun _ _ _ h => by rw [hth] at h; cases h) trivial
        fun h => by cases h
  | stopReturn hp => exact wf.setCall rfl rfl wf.topics trivial rfl
  | worker hsub hstep =>
      -- a worker that takes a step was started before, so no call is about to start it
      refine ⟨wf.topics.update hsub hstep.step.qos_eq.2.1, fun q => ?_, wf.owner_unique⟩
      exact (wf.calls q).update hsub hstep.step.qos_eq.2.1 (fun h => hstep.thread_eq ▸ h)
        fun _ h => ⟨hstep.thread_eq ▸ h, fun hw => absurd hw hstep.started⟩

end Projection

/-! ## Runs -/

section Runs

variable [DecidableEq ι] [DecidableEq τ] {s s' : BusState ι τ π η} {a : BusAction ι τ π η}
  {evs tr : List (BusEvent ι π η)} {as : List (BusAction ι τ π η)}

/-- The record of every subscription follows from its ledger. -/
structure Accounted (tr : List (BusEvent ι π η)) (s : BusState ι τ π η) : Prop where
  wf : WF s
  old : ∀ {sid sub}, s.subs sid = some sub → sub.Accounted (ledger sid tr)
  fresh : ∀ {sid}, s.subs sid = none → ledger sid tr = []

omit [DecidableEq τ] in
theorem Accounted.step (h : Accounted tr s) (ht : Transition s a evs s') :
    Accounted (tr ++ evs) s' where
  wf := ht.wf h.wf
  old {sid sub'} hsub' := by
    have hsubs := ht.subsStep h.wf
    rw [ledger_append]
    cases hsub : s.subs sid with
    | none =>
        obtain ⟨hevs, hnew⟩ := hsubs.fresh hsub
        obtain ⟨topic, type, qos, rfl⟩ := hnew hsub'
        rw [h.fresh hsub, hevs]
        exact Subscription.accounted_new topic type qos
    | some sub =>
        obtain ⟨sub'', hsub'', hstep⟩ := hsubs.old hsub
        cases Option.some.inj (hsub'.symm.trans hsub'')
        exact (h.old hsub).step hstep
  fresh {sid} hsub' := by
    have hsubs := ht.subsStep h.wf
    rw [ledger_append]
    cases hsub : s.subs sid with
    | none => rw [h.fresh hsub, (hsubs.fresh hsub).1, List.append_nil]
    | some sub =>
        obtain ⟨sub'', hsub'', -⟩ := hsubs.old hsub
        rw [hsub'] at hsub''
        cases hsub''

theorem accounted_of_run {topics : Topics τ π} (hbare : Bare topics)
    (h : (machine ι τ π η).Run (ofTopics topics) as tr s) : Accounted tr s :=
  h.invariant ⟨wf_ofTopics hbare, (fun h => by cases h), fun _ => rfl⟩
    fun hI hstep => hI.step (step_transition hstep)

end Runs

end TopicBus

end Rdb
