-- SUMMARY: Everything a step of the bus can do, said once: the matching loop in closed form and the inversion of `step`.
import Mathlib.Data.List.Induction
import Rdb.Bus.TopicBus

/-!
# Transitions of the bus

`Transition` lists what a step can do to the state, with its guards and events, and
`step_transition` derives it from `step`. The invariants of the bus are proved over
`Transition` and never unfold `step`.
-/

namespace Rdb

variable {ι τ π η : Type*}

/-- The step is one of the worker of `sid`. -/
def BusAction.byWorkerOf (sid : SubId) : BusAction ι τ π η → Bool
  | .workerPop i | .workerDeliver i _ | .workerFinish i => decide (i = sid)
  | _ => false

namespace TopicBus

/-! ## The matching loop -/

/-- Why a publish with `qos` has to leave out `sid`, if it has to. -/
def rejection (s : BusState ι τ π η) (qos : QoS) (sid : SubId) : Option (SubId × QosMismatch) :=
  (s.subs sid).bind fun sub =>
    if checkCompatible qos sub.qos = .none then none
    else some (sid, checkCompatible qos sub.qos)

def rejections (s : BusState ι τ π η) (qos : QoS) (sids : List SubId) :
    List (SubId × QosMismatch) :=
  sids.filterMap (rejection s qos)

/-- The subscription exists and is compatible with `qos`. -/
def isTarget (s : BusState ι τ π η) (qos : QoS) (sid : SubId) : Bool :=
  (s.subs sid).any fun sub => checkCompatible qos sub.qos = .none

/-- The record of a subscription once a publish with `qos` has looked at it. -/
def screened (qos : QoS) (sub : Subscription τ π) : Subscription τ π :=
  if checkCompatible qos sub.qos = .none then sub else sub.reject

/-- The mismatches among `rejections` that have not been reported before. -/
def unreported (s : BusState ι τ π η) (qos : QoS) (sids : List SubId) :
    List (SubId × QosMismatch) :=
  (rejections s qos sids).filter fun r => (s.subs r.1).any fun sub => !sub.mismatchReported

/-- What the loop collects. -/
def matched (s : BusState ι τ π η) (qos : QoS) (sids : List SubId) : Matching ι τ π η where
  subs sid := if sid ∈ sids then (s.subs sid).map (screened qos) else s.subs sid
  qosMismatches := s.qosMismatches + (rejections s qos sids).length
  mismatches := unreported s qos sids
  targets := sids.filter (isTarget s qos)
  events := (rejections s qos sids).map fun r => .sub r.1 (.rejected r.2)

theorem matchAll_snoc (s : BusState ι τ π η) (qos : QoS) (sids : List SubId) (sid : SubId) :
    matchAll s qos (sids ++ [sid]) = matchOne qos (matchAll s qos sids) sid := by
  simp [matchAll, List.foldl_append]

theorem rejection_fst {s : BusState ι τ π η} {qos : QoS} {sid : SubId} {r : SubId × QosMismatch}
    (h : rejection s qos sid = some r) : r.1 = sid := by
  obtain ⟨sub, -, h⟩ := Option.bind_eq_some_iff.mp h
  split at h
  · cases h
  · rw [← Option.some.inj h]

/-- Each subscription is rejected at most once. -/
theorem filter_rejections {sids : List SubId} (hnodup : sids.Nodup) (s : BusState ι τ π η)
    (qos : QoS) (sid : SubId) :
    (rejections s qos sids).filter (fun r => r.1 = sid) =
      if sid ∈ sids then (rejection s qos sid).toList else [] := by
  induction sids with
  | nil => rfl
  | cons i sids ih =>
      obtain ⟨hnot, hnodup⟩ := List.nodup_cons.mp hnodup
      have hcons : rejections s qos (i :: sids) =
          (rejection s qos i).toList ++ rejections s qos sids := by
        cases h : rejection s qos i <;> simp [rejections, h]
      have hhead : (rejection s qos i).toList.filter (fun r => r.1 = sid) =
          if i = sid then (rejection s qos i).toList else [] := by
        cases h : rejection s qos i with
        | none => simp
        | some r => by_cases hs : i = sid <;> simp [rejection_fst h, hs]
      rw [hcons, List.filter_append, hhead, ih hnodup]
      by_cases hs : i = sid
      · subst hs; simp [hnot]
      · simp [hs, Ne.symm hs]

/-- One more subscription, in closed form. -/
theorem matched_snoc (s : BusState ι τ π η) (qos : QoS) {sids : List SubId} {sid : SubId}
    (h : sid ∉ sids) :
    matched s qos (sids ++ [sid]) =
      { subs := Function.update (matched s qos sids).subs sid ((s.subs sid).map (screened qos))
        qosMismatches := (matched (ι := ι) s qos sids).qosMismatches +
          (rejections s qos [sid]).length
        mismatches := (matched (ι := ι) s qos sids).mismatches ++ unreported s qos [sid]
        targets := (matched (ι := ι) s qos sids).targets ++ [sid].filter (isTarget s qos)
        events := (matched s qos sids).events ++
          (rejections s qos [sid]).map fun r => .sub r.1 (.rejected r.2) } := by
  simp only [matched, rejections, unreported, List.filterMap_append, List.filter_append,
    List.length_append, List.map_append, Nat.add_assoc, Matching.mk.injEq, and_true]
  funext sid'
  by_cases hs : sid' = sid
  · subst hs; simp
  · simp [hs]

/-- The loop over pairwise different subscriptions. -/
theorem matchAll_eq (s : BusState ι τ π η) (qos : QoS) {sids : List SubId} (h : sids.Nodup) :
    matchAll s qos sids = matched s qos sids := by
  induction sids using List.reverseRecOn with
  | nil => simp [matchAll, matched, rejections, unreported]
  | append_singleton sids sid ih =>
      have hnot : sid ∉ sids := fun hmem => (List.nodup_append.mp h).2.2 sid hmem sid (by simp) rfl
      have hlook : (matched s qos sids).subs sid = s.subs sid := if_neg hnot
      rw [matchAll_snoc, ih (List.nodup_append.mp h).1, matched_snoc s qos hnot]
      cases hsub : s.subs sid with
      | none =>
          -- no record, no round
          have hrej : rejections s qos [sid] = [] := by simp [rejections, rejection, hsub]
          have htar : [sid].filter (isTarget s qos) = [] := by simp [isTarget, hsub]
          have hupd : Function.update (matched (ι := ι) s qos sids).subs sid none =
              (matched (ι := ι) s qos sids).subs := by
            rw [← hsub, ← hlook, Function.update_eq_self]
          simp [matchOne, hlook, hsub, hrej, htar, unreported, hupd]
      | some sub =>
          by_cases hm : checkCompatible qos sub.qos = .none
          -- compatible: one more target
          · have hrej : rejections s qos [sid] = [] := by simp [rejections, rejection, hsub, hm]
            have htar : [sid].filter (isTarget s qos) = [sid] := by simp [isTarget, hsub, hm]
            simp [matchOne, hlook, hsub, hrej, htar, unreported, hm, screened]
          -- rejected, and kept for the handler the first time
          · have hrej : rejections s qos [sid] = [(sid, checkCompatible qos sub.qos)] := by
              simp [rejections, rejection, hsub, hm]
            have htar : [sid].filter (isTarget s qos) = [] := by simp [isTarget, hsub, hm]
            cases hrep : sub.mismatchReported <;>
              simp [matchOne, hlook, hsub, hrej, htar, unreported, hm, screened, hrep]

/-- The loop only reports rejections, whatever the list. -/
theorem matchAll_events (s : BusState ι τ π η) (qos : QoS) (sids : List SubId) :
    ∀ e ∈ (matchAll s qos sids).events, ∃ sid m, e = .sub sid (.rejected m) := by
  induction sids using List.reverseRecOn with
  | nil => simp [matchAll]
  | append_singleton sids sid ih =>
      rw [matchAll_snoc]
      unfold matchOne
      split
      · exact ih
      · dsimp only
        split
        · intro e he
          rcases List.mem_append.mp he with he | he
          · exact ih e he
          · exact ⟨_, _, List.mem_singleton.mp he⟩
        · exact ih

/-- The events of the lock section of `publish_erased`. -/
theorem mem_published {s : BusState ι τ π η} {qos : QoS} {sids : List SubId}
    {m : Matching ι τ π η} (hm : m = matchAll s qos sids) {e e' : BusEvent ι π η}
    (he : e ∈ e' :: m.events) : e = e' ∨ ∃ sid r, e = .sub sid (.rejected r) := by
  subst hm
  exact (List.mem_cons.mp he).imp_right (matchAll_events s qos sids e)

/-- Matching only touches the counters of a record. -/
theorem matched_record {s : BusState ι τ π η} {qos : QoS} {sids : List SubId} {sid : SubId}
    {sub : Subscription τ π} (h : s.subs sid = some sub) :
    ∃ sub', (matched s qos sids).subs sid = some sub' ∧ sub'.topic = sub.topic ∧
      sub'.thread = sub.thread ∧ sub'.worker = sub.worker := by
  by_cases hmem : sid ∈ sids
  · refine ⟨screened qos sub, by simp [matched, hmem, h], ?_⟩
    unfold screened
    split <;> exact ⟨rfl, rfl, rfl⟩
  · exact ⟨sub, by simp [matched, hmem, h], rfl, rfl, rfl⟩

/-! ## Frame lemmas -/

section Frame

variable (s : BusState ι τ π η) (sid : SubId) (sub : Subscription τ π)

@[simp] theorem setSub_subs : (setSub s sid sub).subs = Function.update s.subs sid (some sub) := rfl

@[simp] theorem setSub_threads : (setSub s sid sub).threads = s.threads := rfl

@[simp] theorem setSub_topics : (setSub s sid sub).topics = s.topics := rfl

@[simp] theorem setSub_qosMismatches : (setSub s sid sub).qosMismatches = s.qosMismatches := rfl

theorem setSub_self {s : BusState ι τ π η} {sid : SubId} {sub : Subscription τ π}
    (h : s.subs sid = some sub) : setSub s sid sub = s := by
  rw [setSub, ← h, Function.update_eq_self]

variable [DecidableEq ι] (p : ι) (c : Call τ π η)

@[simp] theorem setCall_threads : (setCall s p c).threads = Function.update s.threads p c := rfl

@[simp] theorem setCall_subs : (setCall s p c).subs = s.subs := rfl

@[simp] theorem setCall_topics : (setCall s p c).topics = s.topics := rfl

@[simp] theorem setCall_qosMismatches : (setCall s p c).qosMismatches = s.qosMismatches := rfl

end Frame

/-! ## Inversion -/

section Inversion

variable [DecidableEq ι]

/-- Everything a step can do. -/
inductive Transition (s : BusState ι τ π η) :
    BusAction ι τ π η → List (BusEvent ι π η) → BusState ι τ π η → Prop where
  | advertise {topic : String} {type : τ} :
      Transition s (.advertise topic type) []
        { s with topics := (ensureTopic s.topics topic type).1 }
  | setHandler {mismatchHandler : Option η} :
      Transition s (.setQosMismatchHandler mismatchHandler) [] { s with mismatchHandler }
  | setTimeout {reliableTimeout : Int64} :
      Transition s (.setReliableTimeout reliableTimeout) [] { s with reliableTimeout }
  | conflict {p : ι} {topic : String} {type : τ} {qos : QoS} {sid : SubId} :
      s.threads p = .idle → s.subs sid = none → (ensureTopic s.topics topic type).2.type ≠ type →
      Transition s (.subscribe p topic type qos sid) []
        { s with topics := (ensureTopic s.topics topic type).1 }
  | subscribe {p : ι} {topic : String} {type : τ} {qos : QoS} {sid : SubId}
      {entry : TopicEntry τ π} :
      s.threads p = .idle → s.subs sid = none → (ensureTopic s.topics topic type).2 = entry →
      entry.type = type →
      Transition s (.subscribe p topic type qos sid)
        [.subscribed sid topic qos (backlogOf qos entry)]
        { s with
          topics := (ensureTopic s.topics topic type).1.insert topic
            { entry with subs := entry.subs ++ [sid] }
          subs := Function.update s.subs sid (some (.new topic type qos))
          threads := Function.update s.threads p (.backlog sid (backlogOf qos entry)) }
  | pushBacklog {p : ι} {sid : SubId} {env : Envelope π} {rest : List (Envelope π)}
      {sub : Subscription τ π} {queue : BoundedQueue (Envelope π)} {status : PushStatus}
      {evicted : Option (Envelope π)} :
      s.threads p = .backlog sid (env :: rest) → s.subs sid = some sub →
      sub.queue.PushEffect env queue (.returned status evicted) →
      Transition s (.pushBacklog p sid) [.sub sid (.pushed none env status evicted)]
        (setCall (setSub s sid { sub with queue }) p (.backlog sid rest))
  | spawn {p : ι} {sid : SubId} {sub : Subscription τ π} :
      s.threads p = .backlog sid [] → s.subs sid = some sub →
      Transition s (.spawn p sid) []
        (setCall (setSub s sid { sub with worker := .popping }) p (.starting sid))
  | assign {p : ι} {sid : SubId} {sub : Subscription τ π} :
      s.threads p = .starting sid → s.subs sid = some sub →
      Transition s (.assign p sid) []
        (setCall (setSub s sid { sub with thread := .joinable }) p .idle)
  | publish {p : ι} {topic : String} {type : τ} {qos : QoS} {payload : π} {now : UInt64} :
      s.threads p = .idle →
      Transition s (.publish p topic type qos payload now) []
        (setCall s p (.publishing topic type qos payload now))
  | publishFailed {p : ι} {topic : String} {type : τ} {qos : QoS} {payload : π} {now : UInt64}
      {typeMismatches : Nat} :
      s.threads p = .publishing topic type qos payload now →
      Transition s (.publishLock p) [.returned p topic none false]
        (setCall { s with typeMismatches } p .idle)
  | published {p : ι} {topic : String} {type : τ} {qos : QoS} {payload : π} {now : UInt64}
      {entry : TopicEntry τ π} {env : Envelope π} {m : Matching ι τ π η} :
      s.threads p = .publishing topic type qos payload now →
      s.topics.lookup topic = some entry → entry.type = type →
      env = ⟨payload, entry.published + 1, now⟩ → m = matchAll s qos entry.subs →
      Transition s (.publishLock p) (.published p topic env qos entry.subs m.targets :: m.events)
        { s with
          topics := s.topics.insert topic
            { entry with published := entry.published + 1
                         latched := latch qos entry.latched env }
          subs := m.subs
          qosMismatches := m.qosMismatches
          threads := Function.update s.threads p
            (.fanout ⟨topic, env, m.mismatches, s.mismatchHandler, m.targets, none, true⟩) }
  | report {p : ι} {f : Fanout π η} {sid : SubId} {m : QosMismatch}
      {rest : List (SubId × QosMismatch)} :
      s.threads p = .fanout f → f.mismatches = (sid, m) :: rest →
      Transition s (.report p sid) (f.handler.toList.map (.reported p f.topic m))
        (setCall s p (.fanout { f with mismatches := rest }))
  | pushSleep {a : BusAction ι τ π η} {p : ι} {f : Fanout π η} {sid : SubId} {rest : List SubId}
      {sub : Subscription τ π} {deadline now : TimePoint} :
      a = .push p sid now ∨ a = .pushWake p sid now →
      s.threads p = .fanout f → f.targets = sid :: rest → s.subs sid = some sub →
      Transition s a [] (setCall s p (.fanout { f with waiting := some deadline }))
  | pushReturn {a : BusAction ι τ π η} {p : ι} {f : Fanout π η} {sid : SubId} {rest : List SubId}
      {sub : Subscription τ π} {now : TimePoint} {queue : BoundedQueue (Envelope π)}
      {status : PushStatus} {evicted : Option (Envelope π)} :
      a = .push p sid now ∨ a = .pushWake p sid now →
      s.threads p = .fanout f → f.targets = sid :: rest → s.subs sid = some sub →
      sub.queue.PushEffect f.env queue (.returned status evicted) →
      Transition s a [.sub sid (.pushed (some p) f.env status evicted)]
        (setCall (setSub s sid { sub with queue }) p
          (.fanout { f with targets := rest, waiting := none
                            allAccepted := f.allAccepted && status.accepted }))
  | publishReturn {p : ι} {f : Fanout π η} :
      s.threads p = .fanout f → f.targets = [] →
      Transition s (.publishReturn p) [.returned p f.topic (some f.env) f.allAccepted]
        (setCall s p .idle)
  | unsubscribe {p : ι} {sid : SubId} {sub : Subscription τ π} :
      s.threads p = .idle → s.subs sid = some sub → sub.thread ≠ .empty →
      Transition s (.unsubscribe p sid) [.detached p (some sid) [sid]]
        (setCall { s with topics := unregister s.topics sub.topic sid } p
          (.stopping (some sid) .close [sid]))
  | shutdown {p : ι} {all : List SubId} :
      s.threads p = .idle → all.Perm (registered s.topics) →
      Transition s (.shutdown p all) [.detached p none all]
        (setCall { s with topics := s.topics.mapVals TopicEntry.clear } p
          (.stopping none .close all))
  | stopClose {p : ι} {owner : Option SubId} {sid : SubId} {rest : List SubId}
      {sub : Subscription τ π} :
      s.threads p = .stopping owner .close (sid :: rest) → s.subs sid = some sub →
      Transition s (.stopClose p sid) []
        (setCall (setSub s sid { sub with queue := sub.queue.close }) p
          (.stopping owner .joinable (sid :: rest)))
  | stopJoinable {p : ι} {owner : Option SubId} {sid : SubId} {rest : List SubId}
      {sub : Subscription τ π} :
      s.threads p = .stopping owner .joinable (sid :: rest) → s.subs sid = some sub →
      sub.thread = .joinable →
      Transition s (.stopJoinable p sid) [] (setCall s p (.stopping owner .join (sid :: rest)))
  | stopSkip {p : ι} {owner : Option SubId} {sid : SubId} {rest : List SubId}
      {sub : Subscription τ π} :
      s.threads p = .stopping owner .joinable (sid :: rest) → s.subs sid = some sub →
      sub.thread ≠ .joinable →
      Transition s (.stopJoinable p sid) [] (setCall s p (.stopping owner .close rest))
  | stopJoin {p : ι} {owner : Option SubId} {sid : SubId} {rest : List SubId}
      {sub : Subscription τ π} :
      s.threads p = .stopping owner .join (sid :: rest) → s.subs sid = some sub →
      sub.worker = .exited → sub.thread = .joinable →
      Transition s (.stopJoin p sid) []
        (setCall (setSub s sid { sub with thread := .joined }) p (.stopping owner .close rest))
  | stopReturn {p : ι} {owner : Option SubId} :
      s.threads p = .stopping owner .close [] →
      Transition s (.stopReturn p owner) [.stopped p owner] (setCall s p .idle)
  | worker {a : BusAction ι τ π η} {sid : SubId} {sub sub' : Subscription τ π}
      {evs : List (SubEvent ι π)} :
      s.subs sid = some sub → sub.WorkerStep evs sub' → a.byWorkerOf sid = true →
      Transition s a (evs.map (.sub sid)) (setSub s sid sub')

variable {s s' : BusState ι τ π η} {a : BusAction ι τ π η} {evs : List (BusEvent ι π η)}

theorem Transition.of_some {r : BusState ι τ π η × List (BusEvent ι π η)}
    (ht : Transition s a r.2 r.1) (h : some r = some (s', evs)) : Transition s a evs s' := by
  cases Option.some.inj h
  exact ht

theorem subscribeLock_transition [DecidableEq τ] {p : ι} {topic : String} {type : τ} {qos : QoS}
    {sid : SubId} (hp : s.threads p = .idle) (hsid : s.subs sid = none) :
    Transition s (.subscribe p topic type qos sid) (subscribeLock s p topic type qos sid).2
      (subscribeLock s p topic type qos sid).1 := by
  unfold subscribeLock
  dsimp only
  split
  · rename_i htype
    exact .conflict hp hsid htype
  · rename_i htype
    exact .subscribe hp hsid rfl (not_not.mp htype)

theorem publishLocked_transition [DecidableEq τ] {p : ι} {topic : String} {type : τ} {qos : QoS}
    {payload : π} {now : UInt64} (hp : s.threads p = .publishing topic type qos payload now) :
    Transition s (.publishLock p) (publishLocked s p topic type qos payload now).2
      (publishLocked s p topic type qos payload now).1 := by
  unfold publishLocked
  split
  · exact @Transition.publishFailed _ _ _ _ _ s _ _ _ _ _ _ s.typeMismatches hp
  · rename_i entry hentry
    split
    · exact .publishFailed hp
    · rename_i htype
      exact .published hp hentry (not_not.mp htype) rfl rfl

theorem afterPush_transition {p : ι} {f : Fanout π η} {sid : SubId} {rest : List SubId}
    {sub : Subscription τ π} {deadline now : TimePoint}
    {r : BoundedQueue (Envelope π) × BoundedQueue.Push (Envelope π)}
    (ha : a = .push p sid now ∨ a = .pushWake p sid now)
    (hp : s.threads p = .fanout f) (hf : f.targets = sid :: rest) (hsub : s.subs sid = some sub)
    (hr : sub.queue.PushEffect f.env r.1 r.2) :
    Transition s a (afterPush s p f sid rest sub deadline r).2
      (afterPush s p f sid rest sub deadline r).1 := by
  obtain ⟨queue, r⟩ := r
  cases r with
  | sleeping =>
      have hq : queue = sub.queue := by cases hr; rfl
      subst hq
      simpa [afterPush, setSub_self hsub] using Transition.pushSleep ha hp hf hsub
  | returned status evicted => exact .pushReturn ha hp hf hsub hr

omit [DecidableEq ι] in
theorem workerStep_inv {sid : SubId}
    {f : Subscription τ π → Option (Subscription τ π × List (SubEvent ι π))}
    (h : workerStep s sid f = some (s', evs)) :
    ∃ sub sub' levs, s.subs sid = some sub ∧ f sub = some (sub', levs) ∧
      s' = setSub s sid sub' ∧ evs = levs.map (.sub sid) := by
  obtain ⟨sub, hsub, h⟩ := Option.bind_eq_some_iff.mp h
  obtain ⟨⟨sub', levs⟩, hf, h⟩ := Option.map_eq_some_iff.mp h
  obtain ⟨rfl, rfl⟩ := Prod.mk.inj h
  exact ⟨sub, sub', levs, hsub, hf, rfl, rfl⟩

theorem workerStep_transition {sid : SubId}
    {f : Subscription τ π → Option (Subscription τ π × List (SubEvent ι π))}
    (hf : ∀ {sub sub' evs}, f sub = some (sub', evs) → sub.WorkerStep evs sub')
    (ha : a.byWorkerOf sid = true) (h : workerStep s sid f = some (s', evs)) :
    Transition s a evs s' := by
  obtain ⟨sub, sub', levs, hsub, hr, rfl, rfl⟩ := workerStep_inv h
  exact .worker hsub (hf hr) ha

/-- What a section of `stop_subscription` needs. -/
theorem stopStep_inv {p : ι} {sid : SubId} {phase : StopPhase}
    (h : stopStep s p sid phase = some (s', evs)) :
    ∃ owner rest sub, s.threads p = .stopping owner phase (sid :: rest) ∧
      s.subs sid = some sub := by
  unfold stopStep at h
  split at h
  · rename_i owner ph sid' rest sub hp hsub
    split at h
    · rename_i heq
      obtain ⟨rfl, rfl⟩ := heq
      exact ⟨owner, rest, sub, hp, hsub⟩
    · cases h
  · cases h

theorem stopClose_transition {p : ι} {sid : SubId}
    (h : stopStep s p sid .close = some (s', evs)) : Transition s (.stopClose p sid) evs s' := by
  obtain ⟨owner, rest, sub, hp, hsub⟩ := stopStep_inv h
  simp only [stopStep, hp, hsub, and_self, if_true] at h
  obtain ⟨rfl, rfl⟩ := Prod.mk.inj (Option.some.inj h)
  exact .stopClose hp hsub

theorem stopJoinable_transition {p : ι} {sid : SubId}
    (h : stopStep s p sid .joinable = some (s', evs)) :
    Transition s (.stopJoinable p sid) evs s' := by
  obtain ⟨owner, rest, sub, hp, hsub⟩ := stopStep_inv h
  simp only [stopStep, hp, hsub, and_self, if_true] at h
  split at h
  · rename_i hth
    obtain ⟨rfl, rfl⟩ := Prod.mk.inj (Option.some.inj h)
    exact .stopJoinable hp hsub hth
  · rename_i hth
    obtain ⟨rfl, rfl⟩ := Prod.mk.inj (Option.some.inj h)
    exact .stopSkip hp hsub hth

theorem stopJoin_transition {p : ι} {sid : SubId}
    (h : stopStep s p sid .join = some (s', evs)) : Transition s (.stopJoin p sid) evs s' := by
  obtain ⟨owner, rest, sub, hp, hsub⟩ := stopStep_inv h
  simp only [stopStep, hp, hsub, and_self, if_true] at h
  split at h
  · rename_i hw hth
    obtain ⟨rfl, rfl⟩ := Prod.mk.inj (Option.some.inj h)
    exact .stopJoin hp hsub hw hth
  · cases h

theorem step_transition [DecidableEq τ] (h : step s a = some (s', evs)) :
    Transition s a evs s' := by
  cases a with
  | advertise topic type | setQosMismatchHandler handler | setReliableTimeout timeout =>
      obtain ⟨rfl, rfl⟩ := Prod.mk.inj (Option.some.inj h)
      constructor
  | subscribe p topic type qos sid =>
      simp only [step] at h
      split at h
      · rename_i hp hsid
        exact (subscribeLock_transition hp hsid).of_some h
      · cases h
  | pushBacklog p sid =>
      simp only [step] at h
      split at h
      · rename_i sid' env rest sub hp hsub
        split at h
        · rename_i heq
          subst heq
          -- `try_push` is a push whose deadline has passed
          have heff := BoundedQueue.pushUntil_effect sub.queue env TimePoint.min
          split at h
          · rename_i queue status evicted hpush
            rw [show sub.queue.pushUntil env TimePoint.min = _ from hpush] at heff
            obtain ⟨rfl, rfl⟩ := Prod.mk.inj (Option.some.inj h)
            exact .pushBacklog hp hsub heff
          · cases h
        · cases h
      · cases h
  | spawn p sid =>
      simp only [step] at h
      split at h
      · rename_i sid' sub hp hsub
        split at h
        · rename_i heq
          subst heq
          obtain ⟨rfl, rfl⟩ := Prod.mk.inj (Option.some.inj h)
          exact .spawn hp hsub
        · cases h
      · cases h
  | assign p sid =>
      simp only [step] at h
      split at h
      · rename_i sid' sub hp hsub
        split at h
        · rename_i heq
          subst heq
          obtain ⟨rfl, rfl⟩ := Prod.mk.inj (Option.some.inj h)
          exact .assign hp hsub
        · cases h
      · cases h
  | publish p topic type qos payload now =>
      simp only [step] at h
      split at h
      · rename_i hp
        obtain ⟨rfl, rfl⟩ := Prod.mk.inj (Option.some.inj h)
        exact .publish hp
      · cases h
  | publishLock p =>
      simp only [step] at h
      split at h
      · rename_i topic type qos payload now hp
        exact (publishLocked_transition hp).of_some h
      · cases h
  | report p sid =>
      simp only [step] at h
      split at h
      · rename_i f hp
        split at h
        · rename_i sid' m rest hm
          split at h
          · rename_i heq
            subst heq
            obtain ⟨rfl, rfl⟩ := Prod.mk.inj (Option.some.inj h)
            exact .report hp hm
          · cases h
        · cases h
      · cases h
  | push p sid now =>
      simp only [step] at h
      split at h
      · rename_i topic env handler sid' rest ok sub hp hsub
        split at h
        · rename_i heq
          subst heq
          exact (afterPush_transition (.inl rfl) hp rfl hsub
            (BoundedQueue.pushUntil_effect _ _ _)).of_some h
        · cases h
      · cases h
  | pushWake p sid now =>
      simp only [step] at h
      split at h
      · rename_i topic env handler sid' rest deadline ok sub hp hsub
        split at h
        · rename_i heq
          subst heq
          exact (afterPush_transition (.inr rfl) hp rfl hsub
            (BoundedQueue.pushWake_effect _ _ _ _)).of_some h
        · cases h
      · cases h
  | publishReturn p =>
      simp only [step] at h
      split at h
      · rename_i hp
        obtain ⟨rfl, rfl⟩ := Prod.mk.inj (Option.some.inj h)
        exact .publishReturn hp rfl
      · cases h
  | unsubscribe p sid =>
      simp only [step] at h
      split at h
      · rename_i sub hp hsub
        split at h
        · rename_i hth
          obtain ⟨rfl, rfl⟩ := Prod.mk.inj (Option.some.inj h)
          exact .unsubscribe hp hsub hth
        · cases h
      · cases h
  | shutdown p all =>
      simp only [step] at h
      split at h
      · rename_i hp
        split at h
        · rename_i hall
          obtain ⟨rfl, rfl⟩ := Prod.mk.inj (Option.some.inj h)
          exact .shutdown hp hall
        · cases h
      · cases h
  | stopClose p sid => exact stopClose_transition h
  | stopJoinable p sid => exact stopJoinable_transition h
  | stopJoin p sid => exact stopJoin_transition h
  | stopReturn p owner =>
      simp only [step] at h
      split at h
      · rename_i owner' hp
        split at h
        · rename_i heq
          subst heq
          obtain ⟨rfl, rfl⟩ := Prod.mk.inj (Option.some.inj h)
          exact .stopReturn hp
        · cases h
      · cases h
  | workerPop sid => exact workerStep_transition Subscription.popNext_step (decide_eq_true rfl) h
  | workerDeliver sid now =>
      exact workerStep_transition Subscription.deliver_step (decide_eq_true rfl) h
  | workerFinish sid => exact workerStep_transition Subscription.finish_step (decide_eq_true rfl) h

end Inversion

end TopicBus

end Rdb
