-- SUMMARY: Payloads are erased to pointers; every cast in a callback gets back the type that was published.
import Rdb.Bus.History

/-!
# Type safety

The bus stores payloads as `shared_ptr<const void>` and compares types in `subscribe`
and in `publish_erased` only; `advertise` never does. What makes the casts safe is the
type recorded for a topic: it is set once, every record of a subscription and every
publication agrees with it, and whatever reaches a callback is a publication of its
topic.

`ty` is the type a payload was made with.
-/

namespace Rdb

namespace TopicBus

variable {ι τ π η : Type*}

/-- The guard on publishes: `Publisher<T>::publish` passes `typeid(T)` along with a
    pointer to a `T`. -/
def TypedPublish (ty : π → τ) : BusAction ι τ π η → Prop
  | .publish _ _ type _ payload _ => ty payload = type
  | _ => True

instance [DecidableEq τ] (ty : π → τ) : (a : BusAction ι τ π η) → Decidable (TypedPublish ty a)
  | .publish _ _ type _ payload _ => inferInstanceAs (Decidable (ty payload = type))
  | .advertise .. | .setQosMismatchHandler .. | .setReliableTimeout .. | .subscribe ..
  | .pushBacklog .. | .spawn .. | .assign .. | .publishLock .. | .report .. | .push ..
  | .pushWake .. | .publishReturn .. | .unsubscribe .. | .shutdown .. | .stopClose ..
  | .stopJoinable .. | .stopJoin .. | .stopReturn .. | .workerPop .. | .workerDeliver ..
  | .workerFinish .. => .isTrue trivial

/-! ## The recorded type -/

/-- The type recorded for `topic`. -/
def typeOf (topics : Topics τ π) (topic : String) : Option τ :=
  (topics.lookup topic).map TopicEntry.type

section Topics

variable {topics : Topics τ π} {topic t : String} {type : τ}

theorem typeOf_insert (entry : TopicEntry τ π) : typeOf (topics.insert t entry) topic =
    if topic = t then some entry.type else typeOf topics topic := by
  by_cases h : topic = t
  · subst h; simp [typeOf]
  · simp [typeOf, h]

/-- An entry is replaced by one of the same type. -/
theorem typeOf_insert_of_lookup {entry entry' : TopicEntry τ π}
    (hlook : topics.lookup t = some entry) (htype : entry'.type = entry.type) :
    typeOf (topics.insert t entry') topic = typeOf topics topic := by
  rw [typeOf_insert]
  split
  · rename_i h
    subst h
    simp [typeOf, hlook, htype]
  · rfl

/-- `ensure_topic` keeps the type of a topic that exists. -/
theorem typeOf_ensureTopic (type' : τ) (h : typeOf topics topic = some type) :
    typeOf (ensureTopic topics t type').1 topic = some type := by
  unfold ensureTopic
  split
  · exact h
  · rename_i hlook
    rw [typeOf_insert]
    split
    · rename_i heq
      subst heq
      simp [typeOf, hlook] at h
    · exact h

theorem typeOf_unregister (sid : SubId) :
    typeOf (unregister topics t sid) topic = typeOf topics topic := by
  unfold unregister
  split
  · rename_i entry hlook
    exact typeOf_insert_of_lookup hlook rfl
  · rfl

theorem typeOf_clear : typeOf (topics.mapVals TopicEntry.clear) topic = typeOf topics topic := by
  simp [typeOf, Function.comp_def, TopicEntry.clear]

end Topics

section Steps

variable [DecidableEq ι] {s s' : BusState ι τ π η} {a : BusAction ι τ π η}
  {evs tr : List (BusEvent ι π η)} {topic : String} {type : τ}

/-- The type of a topic is recorded once. -/
theorem Transition.typeOf_mono (ht : Transition s a evs s')
    (h : typeOf s.topics topic = some type) : typeOf s'.topics topic = some type := by
  cases ht with
  | advertise | conflict => exact typeOf_ensureTopic _ h
  | @subscribe p t type' qos sid entry hp hsid hentry htype =>
      have hlook := lookup_ensureTopic_self s.topics t type'
      rw [hentry] at hlook
      exact (typeOf_insert_of_lookup hlook (by rfl)).trans (typeOf_ensureTopic _ h)
  | published hp hlook htype henv hm => exact (typeOf_insert_of_lookup hlook (by rfl)).trans h
  | unsubscribe => exact (typeOf_unregister _).trans h
  | shutdown => exact typeOf_clear.trans h
  | _ => exact h

/-- A new subscription has the type of its topic. -/
theorem Transition.fresh_type (ht : Transition s a evs s') (wf : WF s) {sid : SubId}
    {sub : Subscription τ π} (hnone : s.subs sid = none) (hsub : s'.subs sid = some sub) :
    typeOf s'.topics sub.topic = some sub.type := by
  cases ht.offerStep wf sid with
  | none _ hkeep => rw [hkeep hnone] at hsub; cases hsub
  | news hold => rw [hnone] at hold; cases hold
  | history ha _ _ hnew =>
      cases Option.some.inj (hsub.symm.trans hnew)
      subst ha
      cases ht with
      | conflict => rw [show s.subs sid = _ from hnew] at hnone; cases hnone
      | subscribe hp hsid hentry htype =>
          simp [typeOf_insert, Subscription.new, htype]
      | pushSleep ha | pushReturn ha => rcases ha with h | h <;> cases h
      | worker _ _ hw => cases hw

/-- A thread that is about to take the lock was given its payload by `publish`. -/
theorem Transition.publishing_inv (ht : Transition s a evs s') {p : ι} {qos : QoS} {payload : π}
    {now : UInt64} (h : s'.threads p = .publishing topic type qos payload now) :
    s.threads p = .publishing topic type qos payload now ∨
      a = .publish p topic type qos payload now := by
  cases ht with
  | advertise | setHandler | setTimeout | conflict | worker => exact .inl h
  | publish =>
      rcases ThreadSum.eq_or_of_update h with ⟨rfl, hcall⟩ | hold
      · obtain ⟨rfl, rfl, rfl, rfl, rfl⟩ := Call.publishing.inj hcall
        exact .inr rfl
      · exact .inl hold
  | subscribe | pushBacklog | spawn | assign | publishFailed | published | report | pushSleep
  | pushReturn | publishReturn | unsubscribe | shutdown | stopClose | stopJoinable | stopSkip
  | stopJoin | stopReturn =>
      exact .inl (ThreadSum.of_update h fun _ hc => by cases hc)

end Steps

/-! ## What agrees with it -/

/-- Threads publish what they say, and records and publications have the type of
    their topic. -/
structure TypeOk (ty : π → τ) (tr : List (BusEvent ι π η)) (s : BusState ι τ π η) : Prop where
  publishing : ∀ {p topic type qos payload now},
    s.threads p = .publishing topic type qos payload now → ty payload = type
  records : ∀ {sid sub}, s.subs sid = some sub → typeOf s.topics sub.topic = some sub.type
  publications : ∀ {topic}, ∀ x ∈ publications topic tr,
    typeOf s.topics topic = some (ty x.env.payload)

section Runs

variable [Fintype ι] {s s' : BusState ι τ π η} {a : BusAction ι τ π η}
  {evs tr : List (BusEvent ι π η)} {as : List (BusAction ι τ π η)} {ty : π → τ}

/-- What a subscription was ever offered has its type. -/
theorem TypeOk.inbox (h : TypeOk ty tr s) (hs : Sound tr s) {sid : SubId} {sub : Subscription τ π}
    (hsub : s.subs sid = some sub) {x : Bool × Envelope π} (hx : x ∈ inbox sid tr) :
    ty x.2.payload = sub.type := by
  have hmem := ((hs.inboxes sid).sublist hsub).subset (List.mem_map_of_mem hx)
  obtain ⟨y, hy, heq⟩ := List.mem_map.mp hmem
  have htype := h.publications y hy
  rw [heq, h.records hsub] at htype
  exact (Option.some.inj htype).symm

theorem TypeOk.latched (h : TypeOk ty tr s) (hs : Sound tr s) {topic : String}
    {entry : TopicEntry τ π} (hlook : s.topics.lookup topic = some entry) {env : Envelope π}
    (henv : env ∈ entry.latched) : ty env.payload = entry.type := by
  have hmem : env ∈ latchedOf s.topics topic := by simpa [latchedOf, hlook] using henv
  obtain ⟨y, hy, rfl⟩ := List.mem_map.mp ((hs.history topic).latched.subset hmem)
  have htype := h.publications y hy
  simp only [typeOf, hlook, Option.map_some, Option.some.injEq] at htype
  exact htype.symm

/-- What is in a queue was offered to its subscription. -/
theorem Sound.mem_inbox_of_queued (h : Sound tr s) {sid : SubId} {sub : Subscription τ π}
    (hsub : s.subs sid = some sub) {env : Envelope π} (henv : env ∈ sub.queue.items) :
    ∃ live, (live, env) ∈ TopicBus.inbox sid tr := by
  have hacc : env ∈ Ledger.accepted (ledger sid tr) := by
    rw [(h.accounted.old hsub).fifo]
    exact List.mem_append_right _ henv
  obtain ⟨x, hx, rfl⟩ := List.mem_map.mp ((Ledger.accepted_sublist_attempts _).subset hacc)
  exact ⟨x.1, h.mem_inbox_of_attempt hx⟩

variable [DecidableEq ι]

omit [Fintype ι] in
theorem TypeOk.step (h : TypeOk ty tr s) (wf : WF s) (ht : Transition s a evs s')
    (hC : TypedPublish ty a) : TypeOk ty (tr ++ evs) s' where
  publishing hp := by
    rcases ht.publishing_inv hp with hold | rfl
    · exact h.publishing hold
    · exact hC
  records {sid sub'} hsub' := by
    cases hsub : s.subs sid with
    | none => exact ht.fresh_type wf hsub hsub'
    | some sub =>
        obtain ⟨sub'', hsub'', hstep⟩ := (ht.subsStep wf).old hsub
        cases Option.some.inj (hsub'.symm.trans hsub'')
        rw [hstep.qos_eq.2.1, hstep.type_eq]
        exact ht.typeOf_mono (h.records hsub)
  publications {topic} x hx := by
    rw [publications_append, List.mem_append] at hx
    rcases hx with hx | hx
    · exact ht.typeOf_mono (h.publications x hx)
    · -- a publish gets past the lock with the type of its topic only
      obtain ⟨type, payload, now, entry, hp, hlook, htype, henv, -⟩ := ht.publication_inv wf hx
      refine ht.typeOf_mono ?_
      rw [henv, h.publishing hp, typeOf, hlook, Option.map_some, htype]

omit [Fintype ι] in
theorem typeOf_of_run [DecidableEq τ] {topic : String} {type : τ}
    (h : (machine ι τ π η).Run s as tr s') (htype : typeOf s.topics topic = some type) :
    typeOf s'.topics topic = some type :=
  Machine.Run.invariant (I := fun _ s => typeOf s.topics topic = some type) h htype
    fun hI hstep => (step_transition hstep).typeOf_mono hI

theorem typeOk_of_run [DecidableEq τ]
    (h : (machine ι τ π η).RunIf (fun _ _ a => TypedPublish ty a) init as tr s) :
    Sound tr s ∧ TypeOk ty tr s :=
  Machine.RunIf.invariant (I := fun tr s => Sound tr s ∧ TypeOk ty tr s) h
    ⟨sound_init, (fun h => by cases h), (fun h => by cases h), fun x hx => by cases hx⟩
    fun ⟨hsound, hI⟩ hC hstep =>
      ⟨hsound.step (step_transition hstep), hI.step hsound.accounted.wf (step_transition hstep) hC⟩

/-- **Delivery is type safe.** The type of a topic never changes; the subscriptions in
    its list, what is in their queues and its history all have that type; and a
    callback is only invoked for payloads of the type of its own subscription. -/
theorem delivery_type_safe [DecidableEq τ]
    (h : (machine ι τ π η).RunIf (fun _ _ a => TypedPublish ty a) init as tr s) :
    (∀ topic entry, s.topics.lookup topic = some entry →
      (∀ as' tr' s', (machine ι τ π η).Run s as' tr' s' →
        ∃ entry', s'.topics.lookup topic = some entry' ∧ entry'.type = entry.type) ∧
      (∀ sid ∈ entry.subs, ∃ sub, s.subs sid = some sub ∧ sub.type = entry.type ∧
        ∀ env ∈ sub.queue.items, ty env.payload = entry.type) ∧
      ∀ env ∈ entry.latched, ty env.payload = entry.type) ∧
    ∀ sid env, .sub sid (.called env) ∈ tr →
      ∃ sub, s.subs sid = some sub ∧ ty env.payload = sub.type := by
  obtain ⟨hsound, hok⟩ := typeOk_of_run h
  refine ⟨fun topic entry hlook =>
      ⟨fun as' tr' s' hrun => ?_, fun sid hsid => ?_, fun env henv => ?_⟩,
    fun sid env hcalled => ?_⟩
  · have htype : typeOf s.topics topic = some entry.type := by simp [typeOf, hlook]
    exact Option.map_eq_some_iff.mp (typeOf_of_run hrun htype)
  · obtain ⟨sub, hsub, htopic⟩ := (hsound.accounted.wf.topics _ _ hlook).own hsid
    have htype : sub.type = entry.type := by
      have hrec := hok.records hsub
      rw [htopic] at hrec
      simp only [typeOf, hlook, Option.map_some, Option.some.injEq] at hrec
      exact hrec.symm
    refine ⟨sub, hsub, htype, fun env henv => ?_⟩
    obtain ⟨live, hmem⟩ := hsound.mem_inbox_of_queued hsub henv
    exact (hok.inbox hsound hsub hmem).trans htype
  · exact hok.latched hsound hlook henv
  · obtain ⟨live, hmem⟩ := hsound.mem_inbox_of_called hcalled
    cases hsub : s.subs sid with
    | none =>
        rw [(hsound.inboxes sid).fresh hsub] at hmem
        cases hmem
    | some sub => exact ⟨sub, rfl, hok.inbox hsound hsub hmem⟩

/-- Two types meet on one topic. The subscription of the other type is refused, the
    publishes of the other type fail, and the callback gets history of its own type. -/
theorem delivery_type_safe_conflict :
    ∃ tr s, (machine (Fin 2) Bool (Bool × Nat) Unit).RunIf (fun _ _ a => TypedPublish Prod.fst a)
        init
        [.advertise "map" true, .advertise "map" false,
          .publish 0 "map" true (.latched 4) (true, 7) 0, .publishLock 0, .publishReturn 0,
          .subscribe 1 "map" false (.latched 4) 4, .subscribe 1 "map" true (.latched 4) 5,
          .pushBacklog 1 5, .publish 0 "map" false (.latched 4) (false, 8) 0, .publishLock 0,
          .publish 0 "map" true (.latched 4) (true, 9) 0, .publishLock 0, .push 0 5 0, .spawn 1 5,
          .assign 1 5, .workerPop 5, .workerDeliver 5 1] tr s ∧
      .sub 5 (.called ⟨(true, 7), 1, 0⟩) ∈ tr ∧ ∃ sub, s.subs 5 = some sub ∧ true = sub.type := by
  have hrun := Machine.RunIf.of_isSome (machine (Fin 2) Bool (Bool × Nat) Unit)
    (fun _ _ a => TypedPublish Prod.fst a) init
    [.advertise "map" true, .advertise "map" false,
      .publish 0 "map" true (.latched 4) (true, 7) 0, .publishLock 0, .publishReturn 0,
      .subscribe 1 "map" false (.latched 4) 4, .subscribe 1 "map" true (.latched 4) 5,
      .pushBacklog 1 5, .publish 0 "map" false (.latched 4) (false, 8) 0, .publishLock 0,
      .publish 0 "map" true (.latched 4) (true, 9) 0, .publishLock 0, .push 0 5 0, .spawn 1 5,
      .assign 1 5, .workerPop 5, .workerDeliver 5 1] (by decide)
  refine ⟨_, _, hrun, by decide, ?_⟩
  exact (delivery_type_safe hrun).2 5 ⟨(true, 7), 1, 0⟩ (by decide)

end Runs

end TopicBus

end Rdb
