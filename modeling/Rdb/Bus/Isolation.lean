-- SUMMARY: A subscription gets the same with and without the other subscriptions on the bus.
import Rdb.Bus.Shutdown

/-!
# Isolation

`publish_erased` walks all subscriptions of a topic in one loop and blocks on some of
them. Here every run is compared with the run that is left of it when all steps of the
other subscriptions are deleted. `Alone` relates the states of the two runs: the second
bus has the same topics and the same calls, less everything about other subscriptions.
-/

namespace Rdb

variable {ι τ π η : Type*}

/-! ## Deleting the other subscriptions -/

/-- The subscription a step belongs to, if it belongs to one. -/
def BusAction.subject : BusAction ι τ π η → Option SubId
  | .subscribe _ _ _ _ sid | .pushBacklog _ sid | .spawn _ sid | .assign _ sid | .report _ sid
  | .push _ sid _ | .pushWake _ sid _ | .unsubscribe _ sid | .stopClose _ sid
  | .stopJoinable _ sid | .stopJoin _ sid | .workerPop sid | .workerDeliver sid _
  | .workerFinish sid => some sid
  | .stopReturn _ owner => owner
  | .advertise .. | .setQosMismatchHandler _ | .setReliableTimeout _ | .publish ..
  | .publishLock _ | .publishReturn _ | .shutdown .. => none

theorem BusAction.subject_of_byWorkerOf {a : BusAction ι τ π η} {sid : SubId}
    (h : a.byWorkerOf sid = true) : a.subject = some sid := by
  cases a with
  | workerPop | workerDeliver | workerFinish => exact congrArg some (of_decide_eq_true h)
  | _ => cases h

/-- The step with every subscription but `sid` deleted. -/
def BusAction.only (sid : SubId) : BusAction ι τ π η → Option (BusAction ι τ π η)
  | .shutdown p all => some (.shutdown p (all.filter (· = sid)))
  | a => if a.subject.all (· = sid) then some a else none

theorem BusAction.only_eq_none {a : BusAction ι τ π η} {sid : SubId} (h : a.only sid = none) :
    ∃ i, a.subject = some i ∧ i ≠ sid := by
  unfold BusAction.only at h
  split at h
  · cases h
  · split at h
    · cases h
    · rename_i hall
      cases hsubj : a.subject with
      | none => simp [hsubj] at hall
      | some i => exact ⟨i, rfl, by simpa [hsubj] using hall⟩

theorem BusAction.only_eq_some {a a' : BusAction ι τ π η} {sid : SubId}
    (h : a.only sid = some a') :
    (∃ p all, a = .shutdown p all ∧ a' = .shutdown p (all.filter (· = sid))) ∨
      (a' = a ∧ a.subject.all (· = sid) = true ∧ ∀ {p all}, a ≠ .shutdown p all) := by
  unfold BusAction.only at h
  split at h
  · exact .inl ⟨_, _, rfl, (Option.some.inj h).symm⟩
  · rename_i hne
    split at h
    · rename_i hall
      exact .inr ⟨(Option.some.inj h).symm, hall, fun {p all} => hne p all⟩
    · cases h

def TopicEntry.only (sid : SubId) (entry : TopicEntry τ π) : TopicEntry τ π :=
  { entry with subs := entry.subs.filter (· = sid) }

/-- The fan-out of the shorter run. A push it waits in belongs to its first target. -/
def Fanout.only (sid : SubId) (ok : Bool) (f : Fanout π η) : Fanout π η :=
  { f with
    mismatches := f.mismatches.filter (·.1 = sid)
    targets := f.targets.filter (· = sid)
    waiting := if f.targets.head? = some sid then f.waiting else none
    allAccepted := ok }

/-- Where the thread is in the shorter run. The calls that belong to another
    subscription have not been made; `ok` is the verdict of a publish, which may be
    another one. -/
def Call.only (sid : SubId) (ok : Bool) : Call τ π η → Call τ π η
  | .fanout f => .fanout (f.only sid ok)
  | .backlog i rest => if i = sid then .backlog i rest else .idle
  | .starting i => if i = sid then .starting i else .idle
  | .stopping owner phase rest =>
    if owner.all (· = sid) then
      .stopping owner (if rest.head? = some sid then phase else .close) (rest.filter (· = sid))
    else .idle
  | c => c

namespace TopicBus

/-- The tables are the same up to other subscriptions. -/
def SameTopics (sid : SubId) (topics topics' : Topics τ π) : Prop :=
  ∀ topic, topics'.lookup topic = (topics.lookup topic).map (TopicEntry.only sid)

/-- `r` is the bus `s` without the subscriptions other than `sid`. -/
structure Alone (sid : SubId) (s r : BusState ι τ π η) : Prop where
  topics : SameTopics sid s.topics r.topics
  self : r.subs sid = s.subs sid
  others : ∀ i, i ≠ sid → r.subs i = none
  handler : r.mismatchHandler = s.mismatchHandler
  timeout : r.reliableTimeout = s.reliableTimeout
  threads : ∀ p, ∃ ok, r.threads p = (s.threads p).only sid ok

/-! ## The topic table -/

section Topics

variable {topics topics' : Topics τ π} {sid : SubId} {topic : String} {type : τ}

theorem SameTopics.insert (h : SameTopics sid topics topics') {entry entry' : TopicEntry τ π}
    (he : entry' = entry.only sid) :
    SameTopics sid (topics.insert topic entry) (topics'.insert topic entry') := by
  intro t
  by_cases ht : t = topic
  · subst ht
    simp [he]
  · simp [ht, h t]

/-- An entry changes in what belongs to other subscriptions only. -/
theorem SameTopics.insert_left (h : SameTopics sid topics topics') {entry entry' : TopicEntry τ π}
    (hlook : topics.lookup topic = some entry) (he : entry'.only sid = entry.only sid) :
    SameTopics sid (topics.insert topic entry') topics' := by
  intro t
  by_cases ht : t = topic
  · subst ht
    simp [h t, hlook, he]
  · simp [ht, h t]

theorem SameTopics.ensureTopic (h : SameTopics sid topics topics') (topic : String) (type : τ) :
    SameTopics sid (ensureTopic topics topic type).1 (TopicBus.ensureTopic topics' topic type).1 ∧
      (TopicBus.ensureTopic topics' topic type).2 =
        (TopicBus.ensureTopic topics topic type).2.only sid := by
  unfold TopicBus.ensureTopic
  cases hlook : topics.lookup topic with
  | none => simpa [h topic, hlook] using ⟨h.insert rfl, rfl⟩
  | some entry => simpa [h topic, hlook] using h

theorem only_erase_self {entry : TopicEntry τ π} (hnodup : entry.subs.Nodup) :
    ({ entry with subs := entry.subs.erase sid } : TopicEntry τ π).only sid =
      { entry.only sid with subs := (entry.only sid).subs.erase sid } := by
  have hnodup' : (entry.only sid).subs.Nodup := hnodup.filter _
  simp only [TopicEntry.only] at hnodup' ⊢
  rw [hnodup.erase_eq_filter, hnodup'.erase_eq_filter, List.filter_filter, List.filter_filter]
  simp [Bool.and_comm]

theorem only_erase_of_ne {entry : TopicEntry τ π} (hnodup : entry.subs.Nodup) {i : SubId}
    (hi : i ≠ sid) :
    ({ entry with subs := entry.subs.erase i } : TopicEntry τ π).only sid = entry.only sid := by
  simp only [TopicEntry.only]
  rw [hnodup.erase_eq_filter, List.filter_filter]
  congr 1
  refine List.filter_congr fun j _ => ?_
  by_cases hj : j = sid
  · simp [hj, Ne.symm hi]
  · simp [hj]

theorem SameTopics.unregister (h : SameTopics sid topics topics')
    {subs : SubId → Option (Subscription τ π)} (hok : TopicsOk topics subs) (topic : String) :
    SameTopics sid (unregister topics topic sid) (TopicBus.unregister topics' topic sid) := by
  unfold TopicBus.unregister
  cases hlook : topics.lookup topic with
  | none => simpa [h topic, hlook] using h
  | some entry =>
      simpa [h topic, hlook] using h.insert (only_erase_self (hok _ _ hlook).nodup).symm

theorem SameTopics.clear (h : SameTopics sid topics topics') :
    SameTopics sid (topics.mapVals TopicEntry.clear) (topics'.mapVals TopicEntry.clear) := by
  intro t
  simp only [AList.lookup_mapVals, h t, Option.map_map]
  rfl

/-- `shutdown` meets the same subscriptions, less the others. -/
theorem SameTopics.registered_perm (h : SameTopics sid topics topics') :
    (registered topics').Perm ((registered topics).filter (· = sid)) := by
  have hperm : topics'.entries.Perm (topics.mapVals (TopicEntry.only sid)).entries := by
    refine List.lookup_ext topics'.nodupKeys (AList.nodupKeys _) fun t entry => ?_
    show entry ∈ topics'.lookup t ↔ entry ∈ (topics.mapVals (TopicEntry.only sid)).lookup t
    rw [AList.lookup_mapVals, h t]
  have heq : (registered topics).filter (· = sid) =
      (topics.mapVals (TopicEntry.only sid)).entries.flatMap fun e => e.2.subs := by
    simp [registered, AList.mapVals, List.filter_flatMap, List.flatMap_map, TopicEntry.only]
  rw [heq]
  exact hperm.flatMap_right _

end Topics

/-! ## Steps of other subscriptions -/

section Erase

variable [DecidableEq ι] {s s' r : BusState ι τ π η} {a : BusAction ι τ π η}
  {evs : List (BusEvent ι π η)} {sid i : SubId} {sub : Subscription τ π} {p : ι}

theorem Alone.skipCall (h : Alone sid s r) {c : Call τ π η}
    (hc : ∀ ok, (s.threads p).only sid ok = c.only sid ok) : Alone sid (setCall s p c) r := by
  refine { h with threads := fun q => ?_ }
  obtain ⟨ok, hq⟩ := h.threads q
  by_cases hqp : q = p
  · subst hqp
    exact ⟨ok, by rw [hq, hc, setCall_threads, Function.update_self]⟩
  · exact ⟨ok, by rw [hq, setCall_threads, Function.update_of_ne hqp]⟩

omit [DecidableEq ι] in
theorem Alone.skipSub (h : Alone sid s r) (hi : i ≠ sid) : Alone sid (setSub s i sub) r :=
  { h with self := by rw [h.self, setSub_subs, Function.update_of_ne (Ne.symm hi)] }

omit [DecidableEq ι] in
theorem Alone.skipTopics (h : Alone sid s r) {topics : Topics τ π}
    (ht : SameTopics sid topics r.topics) : Alone sid { s with topics } r :=
  { h with topics := ht }

/-- A call of `unsubscribe` stops its own subscription. -/
def OwnStop (s : BusState ι τ π η) : Prop :=
  ∀ p i phase rest, s.threads p = .stopping (some i) phase rest → rest ⊆ [i]

theorem OwnStop.step (h : OwnStop s) (ht : Transition s a evs s') : OwnStop s' := by
  intro p i phase rest hp
  rcases ht.stopping_inv hp with ⟨phase', rest', hold, hrest⟩ | hdet
  · exact List.Subset.trans hrest (h p i phase' rest' hold)
  · rw [(ht.detached_some hdet).1]
    exact List.Subset.refl _

/-- Another subscription is stopped, which the shorter run has none of. -/
theorem only_stopping {owner : Option SubId} {phase phase' : StopPhase} {rest : List SubId}
    (hi : i ≠ sid) (ok : Bool) :
    (.stopping owner phase (i :: rest) : Call τ π η).only sid ok =
      (.stopping owner phase' (i :: rest) : Call τ π η).only sid ok := by
  simp [Call.only, hi]

theorem only_stopping_next {owner : Option SubId} {phase : StopPhase} {rest : List SubId}
    (hi : i ≠ sid) (ok : Bool) :
    (.stopping owner phase (i :: rest) : Call τ π η).only sid ok =
      (.stopping owner .close rest : Call τ π η).only sid ok := by
  simp [Call.only, hi]

/-- A step of another subscription is no step of the shorter run. -/
theorem Alone.erase (h : Alone sid s r) (wf : WF s) (ht : Transition s a evs s')
    (hexist : ∀ {p topic type qos i}, a = .subscribe p topic type qos i → topic ∈ s.topics)
    (ha : a.subject = some i) (hi : i ≠ sid) : Alone sid s' r ∧ ledger sid evs = [] := by
  cases ht with
  | advertise | setHandler | setTimeout | publish | publishFailed | published | publishReturn
  | shutdown => cases ha
  | @conflict p topic type qos _ hp hsid htype =>
      -- the topic exists already, so the failed `subscribe` did not create it
      obtain ⟨entry, hlook⟩ := Option.isSome_iff_exists.mp (AList.lookup_isSome.mpr (hexist rfl))
      simpa [ensureTopic, hlook] using h
  | @subscribe p topic type qos _ entry hp hsid hentry htype =>
      cases ha
      obtain ⟨entry', hlook⟩ := Option.isSome_iff_exists.mp (AList.lookup_isSome.mpr (hexist rfl))
      simp only [ensureTopic, hlook] at hentry ⊢
      subst hentry
      refine ⟨((h.skipTopics ?_).skipSub hi).skipCall ?_, rfl⟩
      · exact h.topics.insert_left hlook (by simp [TopicEntry.only, hi])
      · simp [hp, Call.only, hi]
  | @pushBacklog p _ _ _ _ _ _ _ hp hsub heff =>
      cases ha
      refine ⟨(h.skipSub hi).skipCall ?_, by simp [ledger, BusEvent.about, hi]⟩
      simp [hp, Call.only, hi]
  | spawn hp hsub | assign hp hsub =>
      cases ha
      refine ⟨(h.skipSub hi).skipCall ?_, rfl⟩
      simp [hp, Call.only, hi]
  | report hp hm =>
      cases ha
      refine ⟨h.skipCall ?_, by simp [ledger, BusEvent.about]⟩
      simp [hp, Call.only, Fanout.only, hm, hi]
  | pushSleep ha' hp hf hsub =>
      obtain rfl : _ = i := by rcases ha' with rfl | rfl <;> exact Option.some.inj ha
      refine ⟨h.skipCall ?_, rfl⟩
      simp [hp, Call.only, Fanout.only, hf, hi]
  | pushReturn ha' hp hf hsub heff =>
      obtain rfl : _ = i := by rcases ha' with rfl | rfl <;> exact Option.some.inj ha
      refine ⟨(h.skipSub hi).skipCall ?_, by simp [ledger, BusEvent.about, hi]⟩
      simp [hp, Call.only, Fanout.only, hf, hi]
  | @unsubscribe p _ sub hp hsub hth =>
      cases ha
      refine ⟨(h.skipTopics ?_).skipCall ?_, rfl⟩
      · unfold unregister
        split
        · rename_i entry hlook
          exact h.topics.insert_left hlook (only_erase_of_ne (wf.topics _ _ hlook).nodup hi)
        · exact h.topics
      · simp [hp, Call.only, hi]
  | stopClose hp hsub =>
      cases ha
      refine ⟨(h.skipSub hi).skipCall fun ok => ?_, rfl⟩
      rw [setSub_threads, hp]
      exact only_stopping hi ok
  | stopJoinable hp hsub hth =>
      cases ha
      refine ⟨h.skipCall fun ok => ?_, rfl⟩
      rw [hp]
      exact only_stopping hi ok
  | stopSkip hp hsub hth =>
      cases ha
      refine ⟨h.skipCall fun ok => ?_, rfl⟩
      rw [hp]
      exact only_stopping_next hi ok
  | stopJoin hp hsub hw hth =>
      cases ha
      refine ⟨(h.skipSub hi).skipCall fun ok => ?_, rfl⟩
      rw [setSub_threads, hp]
      exact only_stopping_next hi ok
  | stopReturn hp =>
      cases ha
      refine ⟨h.skipCall ?_, rfl⟩
      simp [hp, Call.only, hi]
  | worker hsub hstep hw =>
      cases (BusAction.subject_of_byWorkerOf hw).symm.trans ha
      exact ⟨h.skipSub hi, ledger_map_of_ne hi _⟩

end Erase

/-! ## Steps that are kept -/

section Keep

variable {s s' r : BusState ι τ π η} {a : BusAction ι τ π η}
  {evs : List (BusEvent ι π η)} {sid : SubId} {sub : Subscription τ π} {p : ι}

theorem Alone.call (h : Alone sid s r) {c : Call τ π η} (hp : s.threads p = c) :
    ∃ ok, r.threads p = c.only sid ok := hp ▸ h.threads p

theorem Alone.setSub (h : Alone sid s r) (sub : Subscription τ π) :
    Alone sid (setSub s sid sub) (TopicBus.setSub r sid sub) :=
  { h with
    self := by simp
    others := fun i hi => by simp [hi, h.others i hi] }

theorem Alone.setTopics (h : Alone sid s r) {topics topics' : Topics τ π}
    (ht : SameTopics sid topics topics') :
    Alone sid { s with topics } { r with topics := topics' } :=
  { h with topics := ht }

/-- A call that stops `sid` is one of the shorter run, too. -/
theorem OwnStop.owner_all (h : OwnStop s) {owner : Option SubId} {phase : StopPhase}
    {rest : List SubId} (hp : s.threads p = .stopping owner phase (sid :: rest)) :
    owner.all (· = sid) = true := by
  cases owner with
  | none => rfl
  | some i =>
      have hmem := h p i phase _ hp List.mem_cons_self
      simpa using (List.mem_singleton.mp hmem).symm

theorem Alone.stopping (h : Alone sid s r) (hown : OwnStop s) {owner : Option SubId}
    {phase : StopPhase} {rest : List SubId}
    (hp : s.threads p = .stopping owner phase (sid :: rest)) :
    r.threads p = .stopping owner phase (sid :: rest.filter (· = sid)) := by
  obtain ⟨ok, hp'⟩ := h.call hp
  simpa [Call.only, hown.owner_all hp] using hp'

/-! ### The matching loop -/

theorem rejections_only (h : Alone sid s r) (qos : QoS) (sids : List SubId) :
    rejections r qos (sids.filter (· = sid)) = (rejections s qos sids).filter (·.1 = sid) := by
  induction sids with
  | nil => rfl
  | cons i sids ih =>
      simp only [rejections] at ih
      by_cases hi : i = sid
      · subst hi
        have heq : rejection r qos i = rejection s qos i := by simp [rejection, h.self]
        cases hrej : rejection s qos i with
        | none => simp [rejections, heq, hrej, ih]
        | some x => simp [rejections, heq, hrej, ih, rejection_fst hrej]
      · cases hrej : rejection s qos i with
        | none => simp [rejections, hi, hrej, ih]
        | some x => simp [rejections, hi, hrej, ih, rejection_fst hrej]

theorem matched_only (h : Alone sid s r) (qos : QoS) (sids : List SubId) :
    (matched (ι := ι) r qos (sids.filter (· = sid))).targets =
        (matched (ι := ι) s qos sids).targets.filter (· = sid) ∧
      (matched (ι := ι) r qos (sids.filter (· = sid))).mismatches =
        (matched (ι := ι) s qos sids).mismatches.filter (·.1 = sid) ∧
      (matched (ι := ι) r qos (sids.filter (· = sid))).subs sid =
        (matched (ι := ι) s qos sids).subs sid ∧
      ∀ i, i ≠ sid → (matched (ι := ι) r qos (sids.filter (· = sid))).subs i = none := by
  refine ⟨?_, ?_, ?_, fun i hi => ?_⟩
  · simp only [matched, List.filter_filter]
    refine List.filter_congr fun i _ => ?_
    by_cases hi : i = sid
    · subst hi
      simp [isTarget, h.self]
    · simp [hi]
  · simp only [matched, unreported, rejections_only h, List.filter_filter]
    refine List.filter_congr fun x _ => ?_
    by_cases hx : x.1 = sid
    · simp [hx, h.self]
    · simp [hx]
  · simp [matched, h.self]
  · simp [matched, h.others i hi]

/-! ### One step -/

theorem Alone.workerStep (h : Alone sid s r)
    {f : Subscription τ π → Option (Subscription τ π × List (SubEvent ι π))}
    (hstep : workerStep s sid f = some (s', evs)) :
    ∃ r' evs', TopicBus.workerStep r sid f = some (r', evs') ∧ Alone sid s' r' ∧
      ledger sid evs' = ledger sid evs := by
  obtain ⟨sub, hsub, hrest⟩ := Option.bind_eq_some_iff.mp hstep
  obtain ⟨x, hx, heq⟩ := Option.map_eq_some_iff.mp hrest
  obtain ⟨rfl, rfl⟩ := Prod.mk.inj heq
  exact ⟨TopicBus.setSub r sid x.1, x.2.map (.sub sid),
    by simp [TopicBus.workerStep, h.self, hsub, hx], h.setSub x.1, rfl⟩

variable [DecidableEq ι]

theorem Alone.setCall (h : Alone sid s r) {c c' : Call τ π η} (ok : Bool)
    (hc : c' = c.only sid ok) : Alone sid (setCall s p c) (TopicBus.setCall r p c') := by
  refine { h with threads := fun q => ?_ }
  by_cases hqp : q = p
  · subst hqp
    exact ⟨ok, by simp [hc]⟩
  · simpa [hqp] using h.threads q

/-- The queue of `sid` answers a push in the same way. -/
theorem Alone.afterPush (h : Alone sid s r) {f : Fanout π η} {rest : List SubId}
    (hf : f.targets = sid :: rest) (ok : Bool) (sub : Subscription τ π) (deadline : TimePoint)
    (x : BoundedQueue (Envelope π) × BoundedQueue.Push (Envelope π)) :
    Alone sid (afterPush s p f sid rest sub deadline x).1
        (TopicBus.afterPush r p (f.only sid ok) sid (rest.filter (· = sid)) sub deadline x).1 ∧
      ledger sid (TopicBus.afterPush r p (f.only sid ok) sid (rest.filter (· = sid)) sub
        deadline x).2 = ledger sid (TopicBus.afterPush s p f sid rest sub deadline x).2 := by
  obtain ⟨queue, x⟩ := x
  cases x with
  | sleeping =>
      refine ⟨(h.setSub _).setCall ok ?_, rfl⟩
      simp [Call.only, Fanout.only, hf]
  | returned status evicted =>
      refine ⟨(h.setSub _).setCall (ok && status.accepted) ?_, rfl⟩
      simp [Call.only, Fanout.only]

variable [DecidableEq τ]

/-- The shorter run takes the step `a` from `r`, and it looks like the step to `s'`. -/
def Follows (sid : SubId) (s' : BusState ι τ π η) (evs : List (BusEvent ι π η))
    (r : BusState ι τ π η) (a : BusAction ι τ π η) : Prop :=
  ∃ r' evs', step r a = some (r', evs') ∧ Alone sid s' r' ∧ ledger sid evs' = ledger sid evs

theorem Alone.push (h : Alone sid s r) {now : TimePoint}
    (hstep : step s (.push p sid now) = some (s', evs)) :
    Follows sid s' evs r (.push p sid now) := by
  simp only [step] at hstep
  split at hstep
  · rename_i topic env handler i rest ok sub hp hsub
    split at hstep
    · rename_i heq
      subst heq
      obtain ⟨rfl, rfl⟩ := Prod.mk.inj (Option.some.inj hstep)
      obtain ⟨ok', hp'⟩ := h.call hp
      have hd : pushDeadline r sub now = pushDeadline s sub now := by
        simp [pushDeadline, h.timeout]
      have hf := h.afterPush (p := p) (f := ⟨topic, env, [], handler, i :: rest, none, ok⟩) rfl ok'
        sub (pushDeadline s sub now) (sub.queue.pushUntil env (pushDeadline s sub now))
      refine ⟨_, _, ?_, hf⟩
      simp [step, hp', Call.only, Fanout.only, h.self, hsub, hd]
    · cases hstep
  · cases hstep

theorem Alone.pushWake (h : Alone sid s r) {now : TimePoint}
    (hstep : step s (.pushWake p sid now) = some (s', evs)) :
    Follows sid s' evs r (.pushWake p sid now) := by
  simp only [step] at hstep
  split at hstep
  · rename_i topic env handler i rest deadline ok sub hp hsub
    split at hstep
    · rename_i heq
      subst heq
      obtain ⟨rfl, rfl⟩ := Prod.mk.inj (Option.some.inj hstep)
      obtain ⟨ok', hp'⟩ := h.call hp
      have hf := h.afterPush (p := p)
        (f := ⟨topic, env, [], handler, i :: rest, some deadline, ok⟩) rfl ok'
        sub deadline (sub.queue.pushWake env deadline now)
      refine ⟨_, _, ?_, hf⟩
      simp [step, hp', Call.only, Fanout.only, h.self, hsub]
    · cases hstep
  · cases hstep

theorem Alone.pushBacklog (h : Alone sid s r)
    (hstep : step s (.pushBacklog p sid) = some (s', evs)) :
    Follows sid s' evs r (.pushBacklog p sid) := by
  simp only [step] at hstep
  split at hstep
  · rename_i i env rest sub hp hsub
    split at hstep
    · rename_i heq
      subst heq
      split at hstep
      · rename_i queue status evicted hpush
        obtain ⟨rfl, rfl⟩ := Prod.mk.inj (Option.some.inj hstep)
        obtain ⟨ok, hp'⟩ := h.call hp
        refine ⟨TopicBus.setCall (TopicBus.setSub r i { sub with queue }) p (.backlog i rest), _,
          ?_, (h.setSub _).setCall ok (by simp [Call.only]), rfl⟩
        simp [step, hp', Call.only, h.self, hsub, hpush]
      · cases hstep
    · cases hstep
  · cases hstep

theorem Alone.publishReturn (h : Alone sid s r)
    (hstep : step s (.publishReturn p) = some (s', evs)) :
    Follows sid s' evs r (.publishReturn p) := by
  simp only [step] at hstep
  split at hstep
  · rename_i topic env handler waiting ok hp
    obtain ⟨rfl, rfl⟩ := Prod.mk.inj (Option.some.inj hstep)
    obtain ⟨ok', hp'⟩ := h.call hp
    refine ⟨TopicBus.setCall r p .idle, [.returned p topic (some env) ok'], ?_,
      h.setCall ok' rfl, rfl⟩
    simp [step, hp', Call.only, Fanout.only]
  · cases hstep

/-- A publish finds the same topic, stamps the same envelope and treats `sid` in the
    same way. -/
theorem Alone.publishLocked (h : Alone sid s r) (wf : WF s) (topic : String) (type : τ) (qos : QoS)
    (payload : π) (now : UInt64) :
    Alone sid (publishLocked s p topic type qos payload now).1
        (TopicBus.publishLocked r p topic type qos payload now).1 ∧
      ledger sid (TopicBus.publishLocked r p topic type qos payload now).2 =
        ledger sid (TopicBus.publishLocked s p topic type qos payload now).2 := by
  have hlook' := h.topics topic
  unfold TopicBus.publishLocked
  cases hlook : s.topics.lookup topic with
  | none =>
      rw [hlook] at hlook'
      rw [hlook']
      exact ⟨h.setCall true rfl, rfl⟩
  | some entry =>
      rw [hlook] at hlook'
      rw [hlook']
      by_cases htype : entry.type = type
      · -- the loop over the subscriptions is a map over them, which commutes with deleting some
        have hnodup := (wf.topics _ _ hlook).nodup
        have hnodup' : (entry.subs.filter (· = sid)).Nodup := hnodup.filter _
        obtain ⟨htargets, hmismatches, hself, hothers⟩ := matched_only h qos entry.subs
        simp only [Option.map_some, TopicEntry.only, htype, ne_eq, not_true_eq_false, if_false]
        rw [matchAll_eq s qos hnodup, matchAll_eq r qos hnodup']
        refine ⟨⟨h.topics.insert rfl, hself, hothers, h.handler, h.timeout, fun q => ?_⟩, ?_⟩
        · by_cases hq : q = p
          · subst hq
            refine ⟨true, ?_⟩
            simp [Call.only, Fanout.only, htargets, hmismatches, h.handler]
          · simpa [hq] using h.threads q
        · show ledger sid (matched r qos _).events = ledger sid (matched s qos _).events
          rw [matched, matched, ledger_rejections hnodup', ledger_rejections hnodup]
          simp [rejection, h.self]
      · -- `type_mismatches_` belongs to the bus and counts in both runs
        have h' : Alone sid { s with typeMismatches := s.typeMismatches + 1 }
            { r with typeMismatches := r.typeMismatches + 1 } :=
          ⟨h.topics, h.self, h.others, h.handler, h.timeout, h.threads⟩
        simp only [Option.map_some, TopicEntry.only, ne_eq, htype, not_false_eq_true, if_true]
        exact ⟨h'.setCall true rfl, trivial⟩

theorem Alone.publishLock (h : Alone sid s r) (wf : WF s)
    (hstep : step s (.publishLock p) = some (s', evs)) :
    Follows sid s' evs r (.publishLock p) := by
  simp only [step] at hstep
  split at hstep
  · rename_i topic type qos payload now hp
    obtain ⟨ok, hp'⟩ := h.call hp
    have hboth := h.publishLocked (p := p) wf topic type qos payload now
    rw [Option.some.inj hstep] at hboth
    refine ⟨_, _, ?_, hboth⟩
    simp [step, hp', Call.only]
  · cases hstep

/-- A step that is about no other subscription is a step of the shorter run. -/
theorem Alone.keep (h : Alone sid s r) (wf : WF s) (hown : OwnStop s)
    (hstep : step s a = some (s', evs)) (ha : a.subject.all (· = sid) = true)
    (hshutdown : ∀ {p all}, a ≠ .shutdown p all) : Follows sid s' evs r a := by
  have hsid : ∀ {i}, a.subject = some i → i = sid := fun hi => by simpa [hi] using ha
  cases step_transition hstep with
  | advertise => exact ⟨_, _, rfl, h.setTopics (h.topics.ensureTopic _ _).1, rfl⟩
  | setHandler => exact ⟨_, _, rfl, { h with handler := rfl }, rfl⟩
  | setTimeout => exact ⟨_, _, rfl, { h with timeout := rfl }, rfl⟩
  | @conflict p topic type qos i hp hnone htype =>
      obtain rfl := hsid rfl
      obtain ⟨ok, hp'⟩ := h.call hp
      obtain ⟨htopics, hentry⟩ := h.topics.ensureTopic topic type
      have htype' : (ensureTopic r.topics topic type).2.type ≠ type := by rw [hentry]; exact htype
      refine ⟨_, _, ?_, h.setTopics htopics, rfl⟩
      simp [step, hp', Call.only, h.self, hnone, subscribeLock, htype']
  | @subscribe p topic type qos i entry hp hnone hentry htype =>
      obtain rfl := hsid rfl
      obtain ⟨ok, hp'⟩ := h.call hp
      obtain ⟨htopics, hentry'⟩ := h.topics.ensureTopic topic type
      rw [hentry] at hentry'
      have hinsert : SameTopics i
          ((ensureTopic s.topics topic type).1.insert topic
            { entry with subs := entry.subs ++ [i] })
          ((ensureTopic r.topics topic type).1.insert topic
            { entry.only i with subs := (entry.only i).subs ++ [i] }) :=
        htopics.insert (by simp [TopicEntry.only])
      have hr : step r (.subscribe p topic type qos i) =
          some (subscribeLock r p topic type qos i) := by
        simp [step, hp', Call.only, h.self, hnone]
      have htype' : (entry.only i).type = type := htype
      refine ⟨_, _, ?_, ((h.setTopics hinsert).setSub (.new topic type qos)).setCall ok rfl, rfl⟩
      simp only [hr, subscribeLock, hentry', htype', ne_eq, not_true_eq_false, if_false, Call.only,
        if_true]
      rfl
  | publishFailed | published => exact h.publishLock wf hstep
  | pushBacklog =>
      obtain rfl := hsid rfl
      exact h.pushBacklog hstep
  | @spawn p i sub hp hsub =>
      obtain rfl := hsid rfl
      obtain ⟨ok, hp'⟩ := h.call hp
      refine ⟨_, _, ?_, (h.setSub { sub with worker := .popping }).setCall ok rfl, rfl⟩
      simp [step, hp', Call.only, h.self, hsub]
  | @assign p i sub hp hsub =>
      obtain rfl := hsid rfl
      obtain ⟨ok, hp'⟩ := h.call hp
      refine ⟨_, _, ?_, (h.setSub { sub with thread := .joinable }).setCall ok rfl, rfl⟩
      simp [step, hp', Call.only, h.self, hsub]
  | publish hp =>
      obtain ⟨ok, hp'⟩ := h.call hp
      refine ⟨_, _, ?_, h.setCall ok rfl, rfl⟩
      simp [step, hp', Call.only]
  | @report p f i m rest hp hm =>
      obtain rfl := hsid rfl
      obtain ⟨ok, hp'⟩ := h.call hp
      refine ⟨_, _, ?_, h.setCall ok rfl, rfl⟩
      simp [step, hp', Call.only, Fanout.only, hm]
  | pushSleep ha' | pushReturn ha' =>
      rcases ha' with rfl | rfl
      · obtain rfl := hsid rfl
        exact h.push hstep
      · obtain rfl := hsid rfl
        exact h.pushWake hstep
  | publishReturn => exact h.publishReturn hstep
  | @unsubscribe p i sub hp hsub hth =>
      obtain rfl := hsid rfl
      obtain ⟨ok, hp'⟩ := h.call hp
      refine ⟨_, _, ?_, (h.setTopics (h.topics.unregister wf.topics sub.topic)).setCall ok rfl, rfl⟩
      simp [step, hp', Call.only, h.self, hsub, hth]
  | shutdown => exact absurd rfl hshutdown
  | @stopClose p owner i rest sub hp hsub =>
      obtain rfl := hsid rfl
      have hp' := h.stopping hown hp
      refine ⟨_, _, ?_, (h.setSub { sub with queue := sub.queue.close }).setCall true rfl, rfl⟩
      simp [step, stopStep, hp', h.self, hsub, Call.only, hown.owner_all hp]
  | @stopJoinable p owner i rest sub hp hsub hth =>
      obtain rfl := hsid rfl
      have hp' := h.stopping hown hp
      refine ⟨_, _, ?_, h.setCall true rfl, rfl⟩
      simp [step, stopStep, hp', h.self, hsub, hth, Call.only, hown.owner_all hp]
  | @stopSkip p owner i rest sub hp hsub hth =>
      obtain rfl := hsid rfl
      have hp' := h.stopping hown hp
      refine ⟨_, _, ?_, h.setCall true rfl, rfl⟩
      simp [step, stopStep, hp', h.self, hsub, hth, Call.only, hown.owner_all hp, stopNext]
  | @stopJoin p owner i rest sub hp hsub hw hth =>
      obtain rfl := hsid rfl
      have hp' := h.stopping hown hp
      refine ⟨_, _, ?_, (h.setSub { sub with thread := .joined }).setCall true rfl, rfl⟩
      simp [step, stopStep, hp', h.self, hsub, hw, hth, Call.only, hown.owner_all hp, stopNext]
  | @stopReturn p owner hp =>
      obtain ⟨ok, hp'⟩ := h.call hp
      have howner : owner.all (· = sid) = true := ha
      refine ⟨_, _, ?_, h.setCall ok rfl, rfl⟩
      simp [step, hp', Call.only, howner]
  | worker hsub hw ha' =>
      obtain rfl := hsid (BusAction.subject_of_byWorkerOf ha')
      cases a with
      | workerPop i | workerDeliver i now | workerFinish i =>
          obtain rfl := of_decide_eq_true ha'
          exact h.workerStep hstep
      | _ => cases ha'

theorem Alone.shutdown (h : Alone sid s r) {all : List SubId}
    (hstep : step s (.shutdown p all) = some (s', evs)) :
    Follows sid s' evs r (.shutdown p (all.filter (· = sid))) := by
  simp only [step] at hstep
  split at hstep
  · rename_i hp
    split at hstep
    · rename_i hall
      obtain ⟨rfl, rfl⟩ := Prod.mk.inj (Option.some.inj hstep)
      obtain ⟨ok, hp'⟩ := h.call hp
      have hall' : (all.filter (· = sid)).Perm (registered r.topics) :=
        (hall.filter _).trans h.topics.registered_perm.symm
      refine ⟨_, [.detached p none (all.filter (· = sid))], ?_,
        (h.setTopics h.topics.clear).setCall ok rfl, rfl⟩
      simp [step, hp', Call.only, hall']
    · cases hstep
  · cases hstep

end Keep

/-! ## Whole runs -/

section Runs

variable [DecidableEq ι] {s s' r : BusState ι τ π η} {a : BusAction ι τ π η}
  {evs tr : List (BusEvent ι π η)} {as : List (BusAction ι τ π η)} {sid : SubId}

/-- Topics are never removed. -/
theorem Transition.mem_topics (ht : Transition s a evs s') {t : String} (h : t ∈ s.topics) :
    t ∈ s'.topics := by
  have hensure : ∀ topic type, t ∈ (ensureTopic s.topics topic type).1 := by
    intro topic type
    unfold ensureTopic
    split
    · exact h
    · exact (AList.mem_insert _).mpr (.inr h)
  cases ht with
  | advertise | conflict => exact hensure _ _
  | subscribe => exact (AList.mem_insert _).mpr (.inr (hensure _ _))
  | published => exact (AList.mem_insert _).mpr (.inr h)
  | unsubscribe =>
      show t ∈ unregister s.topics _ _
      unfold unregister
      split
      · exact (AList.mem_insert _).mpr (.inr h)
      · exact h
  | shutdown =>
      show t ∈ s.topics.mapVals TopicEntry.clear
      rw [← AList.lookup_isSome, AList.lookup_mapVals, Option.isSome_map, AList.lookup_isSome]
      exact h
  | _ => exact h

/-- What is in the queue of `sid`. -/
def contents (sid : SubId) (s : BusState ι τ π η) : Option (List (Envelope π)) :=
  (s.subs sid).map fun sub => sub.queue.items

/-- The bus, its invariants, and the bus of the shorter run. -/
structure Shadow (topics : Topics τ π) (sid : SubId) (s r : BusState ι τ π η) : Prop where
  wf : WF s
  ownStop : OwnStop s
  known : ∀ {t}, t ∈ topics → t ∈ s.topics
  alone : Alone sid s r

theorem Shadow.step {topics : Topics τ π} (h : Shadow topics sid s r) (ht : Transition s a evs s')
    {r' : BusState ι τ π η} (halone : Alone sid s' r') : Shadow topics sid s' r' :=
  ⟨ht.wf h.wf, h.ownStop.step ht, fun hmem => ht.mem_topics (h.known hmem), halone⟩

omit [DecidableEq ι] in
theorem shadow_ofTopics {topics : Topics τ π} (hbare : Bare topics) (sid : SubId) :
    Shadow topics sid (ofTopics topics : BusState ι τ π η) (ofTopics topics) where
  wf := wf_ofTopics hbare
  ownStop _ _ _ _ h := by cases h
  known h := h
  alone := by
    refine ⟨fun topic => ?_, rfl, fun _ _ => rfl, rfl, rfl, fun _ => ⟨true, rfl⟩⟩
    show topics.lookup topic = _
    cases hlook : topics.lookup topic with
    | none => simp [ofTopics, hlook]
    | some entry =>
        obtain ⟨type, subs, latched, published⟩ := entry
        obtain rfl : subs = [] := hbare topic _ hlook
        simp [ofTopics, hlook, TopicEntry.only]

variable [DecidableEq τ]

theorem erasure (topics : Topics τ π) (sid : SubId) :
    (machine ι τ π η).Erasure
      (fun a => ∀ p topic type qos i, a = .subscribe p topic type qos i → topic ∈ topics)
      (BusAction.only sid) (Shadow topics sid) (contents sid) (BusEvent.about sid) where
  obs_eq h := by simp [contents, h.alone.self]
  erase h hA hkeep hstep := by
    have ht := step_transition hstep
    obtain ⟨i, hsubj, hi⟩ := BusAction.only_eq_none hkeep
    obtain ⟨halone, hledger⟩ :=
      h.alone.erase h.wf ht (fun ha => h.known (hA _ _ _ _ _ ha)) hsubj hi
    exact ⟨h.step ht halone, hledger⟩
  keep h _ hkeep hstep := by
    have ht := step_transition hstep
    rcases BusAction.only_eq_some hkeep with ⟨p, all, rfl, rfl⟩ | ⟨rfl, hsubj, hshutdown⟩
    · obtain ⟨r', evs', hstep', halone, hledger⟩ := h.alone.shutdown hstep
      exact ⟨r', evs', hstep', h.step ht halone, hledger⟩
    · obtain ⟨r', evs', hstep', halone, hledger⟩ :=
        h.alone.keep h.wf h.ownStop hstep hsubj hshutdown
      exact ⟨r', evs', hstep', h.step ht halone, hledger⟩

/-- **Slow subscribers are isolated.** Delete from a run over existing topics every
    subscription but `sid`, with all its steps: what is left is a run in which `sid`
    is the only subscription, its queue goes through the same contents, the same
    happens to it in the same order, and it ends with the same record. -/
theorem isolated [DecidableEq π] {topics : Topics τ π} (hbare : Bare topics)
    (hexist : ∀ p topic type qos i, .subscribe p topic type qos i ∈ as → topic ∈ topics)
    (h : (machine ι τ π η).Run (ofTopics topics) as tr s) (sid : SubId) :
    ∃ tr' s', (machine ι τ π η).Run (ofTopics topics) (as.filterMap (BusAction.only sid)) tr' s' ∧
      (∀ i, i ≠ sid → s'.subs i = none) ∧
      (machine ι τ π η).changes (contents sid) (ofTopics topics)
          (as.filterMap (BusAction.only sid)) =
        (machine ι τ π η).changes (contents sid) (ofTopics topics) as ∧
      ledger sid tr' = ledger sid tr ∧ s'.subs sid = s.subs sid := by
  obtain ⟨tr', s', hrun, hR, hledger, hobs⟩ := (erasure topics sid).run (shadow_ofTopics hbare sid)
    (fun a ha p topic type qos i heq => hexist p topic type qos i (heq ▸ ha)) h
  exact ⟨tr', s', hrun, hR.alone.others, hobs, hledger, hR.alone.self⟩

/-- A slow reliable subscriber that a publish times out on, and a fast one behind it. -/
theorem isolated_slow :
    ∃ as tr s tr' s', (machine (Fin 2) Unit Nat Unit).Run
        (ofTopics ((∅ : Topics Unit Nat).insert "map" (.new ()))) as tr s ∧
      (machine (Fin 2) Unit Nat Unit).Run (ofTopics ((∅ : Topics Unit Nat).insert "map" (.new ())))
        (as.filterMap (BusAction.only 5)) tr' s' ∧
      .returned 0 "map" (some ⟨8, 2, 0⟩) false ∈ tr ∧ ledger 5 tr' = ledger 5 tr := by
  have hbare : Bare ((∅ : Topics Unit Nat).insert "map" (.new ())) := by
    intro topic entry hlook
    by_cases htopic : topic = "map"
    · subst htopic
      rw [AList.lookup_insert] at hlook
      cases hlook
      rfl
    · rw [AList.lookup_insert_ne htopic] at hlook
      cases hlook
  have hrun := Machine.Run.of_isSome (machine (Fin 2) Unit Nat Unit)
    (ofTopics ((∅ : Topics Unit Nat).insert "map" (.new ())))
    [.subscribe 1 "map" () (.command 1) 6, .spawn 1 6, .assign 1 6,
      .subscribe 1 "map" () (.command 1) 5, .spawn 1 5, .assign 1 5,
      .publish 0 "map" () (.command 1) 7 0, .publishLock 0, .push 0 6 0, .push 0 5 0,
      .publishReturn 0, .workerPop 5, .workerDeliver 5 1, .workerFinish 5,
      .publish 0 "map" () (.command 1) 8 0, .publishLock 0, .push 0 6 0, .pushWake 0 6 100000000,
      .push 0 5 100000000, .publishReturn 0, .workerPop 5, .workerDeliver 5 1] (by decide)
  have hexist : ∀ {topic}, topic = "map" → topic ∈ (∅ : Topics Unit Nat).insert "map" (.new ()) :=
    fun htopic => (AList.mem_insert _).mpr (.inl htopic)
  obtain ⟨tr', s', hrun', -, -, hledger, -⟩ := isolated hbare
    (fun p topic type qos i hmem => hexist (by simp at hmem; tauto)) hrun 5
  exact ⟨_, _, _, tr', s', hrun, hrun', by decide, hledger⟩

end Runs

end TopicBus

end Rdb
