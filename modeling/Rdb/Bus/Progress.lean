-- SUMMARY: Every publish returns, whatever the subscribers do: a fan-out waits for no worker, only for its own clock.
import Rdb.Lib.Fairness
import Rdb.Bus.WellFormed

/-!
# Publishing returns

A publish waits in one place only, in the queue of a reliable subscription, and there
with a deadline. So it returns as soon as its own thread is scheduled and its clock goes
on. Nothing is asked of the workers: a callback may block for ever.
-/

namespace Rdb

variable {ι τ π η : Type*}

/-- The thread `p` goes on with the call it is in. -/
def BusAction.goesOn (p : ι) : BusAction ι τ π η → Prop
  | .pushBacklog q _ | .spawn q _ | .assign q _ | .publishLock q | .report q _ | .push q _ _
  | .pushWake q _ _ | .publishReturn q | .stopClose q _ | .stopJoinable q _ | .stopJoin q _
  | .stopReturn q _ => q = p
  | _ => False

/-- The topic of the publish that the call is. -/
def Call.publishTopic : Call τ π η → Option String
  | .publishing topic .. => some topic
  | .fanout f => some f.topic
  | _ => none

namespace BoundedQueue

variable {α : Type*} {q : BoundedQueue α} {v : α} {deadline now : TimePoint}

/-- Only a queue that blocks lets a push sleep. -/
theorem policy_of_sleeping (h : (q.pushUntil v deadline).2 = .sleeping) : q.policy = .block := by
  unfold pushUntil at h
  split at h
  · cases h
  · split at h
    · split at h
      · cases h
      · cases h
      · assumption
    · cases h

/-- A wait with a deadline does not go on after it. -/
theorem lt_of_sleeping (h : (q.pushWake v deadline now).2 = .sleeping)
    (hmax : deadline ≠ TimePoint.max) : ¬ deadline ≤ now := by
  intro hle
  unfold pushWake Wait.wake at h
  cases hs : q.hasSpace with
  | true => cases hc : q.closed <;> simp [hs, pushAfterWait, hc] at h
  | false => simp [hs, hmax, hle, pushAfterWait] at h

end BoundedQueue

namespace TopicBus

section Calls

variable [DecidableEq ι] {s s' : BusState ι τ π η} {a : BusAction ι τ π η}
  {evs : List (BusEvent ι π η)} {p : ι}

/-- A call is only moved on by its own thread. -/
theorem Transition.call_kept (ht : Transition s a evs s') (ha : ¬ a.goesOn p)
    (hp : s.threads p ≠ .idle) : s'.threads p = s.threads p := by
  have hother : ∀ {q c}, (q = p → False) → Function.update s.threads q c p = s.threads p :=
    fun hq => Function.update_of_ne (fun h => hq h.symm) _ _
  cases ht with
  | advertise | setHandler | setTimeout | conflict | worker => rfl
  | subscribe hidle | publish hidle | unsubscribe hidle | shutdown hidle =>
      exact hother fun h => hp (h ▸ hidle)
  | pushBacklog | spawn | assign | publishFailed | published | report | publishReturn
  | stopClose | stopJoinable | stopSkip | stopJoin | stopReturn => exact hother ha
  | pushSleep hpush | pushReturn hpush => rcases hpush with rfl | rfl <;> exact hother ha

/-- The next step of a call, by where the call is. A fan-out says more of its steps in
    `FanoutMove`. -/
inductive CallMove (s' : BusState ι τ π η) (evs : List (BusEvent ι π η)) (p : ι) :
    Call τ π η → Prop where
  | pushBacklog {sid : SubId} {env : Envelope π} {rest : List (Envelope π)} :
      s'.threads p = .backlog sid rest → CallMove s' evs p (.backlog sid (env :: rest))
  | spawn {sid : SubId} {sub : Subscription τ π} : s'.subs sid = some sub →
      sub.worker = .popping → CallMove s' evs p (.backlog sid [])
  | assign {sid : SubId} : CallMove s' evs p (.starting sid)
  | publishFailed {topic : String} {type : τ} {qos : QoS} {payload : π} {now : UInt64} :
      s'.threads p = .idle → CallMove s' evs p (.publishing topic type qos payload now)
  | published {topic : String} {type : τ} {qos : QoS} {payload : π} {now : UInt64}
      {f : Fanout π η} : s'.threads p = .fanout f → f.waiting = none →
      CallMove s' evs p (.publishing topic type qos payload now)
  | fanout {f : Fanout π η} : CallMove s' evs p (.fanout f)
  | stopClose {owner : Option SubId} {sid : SubId} {rest : List SubId} :
      s'.threads p = .stopping owner .joinable (sid :: rest) →
      CallMove s' evs p (.stopping owner .close (sid :: rest))
  | stopJoinable {owner : Option SubId} {sid : SubId} {rest : List SubId}
      {sub : Subscription τ π} : s'.subs sid = some sub → sub.thread = .joinable →
      s'.threads p = .stopping owner .join (sid :: rest) →
      CallMove s' evs p (.stopping owner .joinable (sid :: rest))
  | stopNext {owner : Option SubId} {phase : StopPhase} {sid : SubId} {rest : List SubId} :
      phase ≠ .close → s'.threads p = .stopping owner .close rest →
      CallMove s' evs p (.stopping owner phase (sid :: rest))
  | stopReturn {owner : Option SubId} : s'.threads p = .idle →
      CallMove s' evs p (.stopping owner .close [])

theorem Transition.callMove (ht : Transition s a evs s') (ha : a.goesOn p) :
    CallMove s' evs p (s.threads p) := by
  cases ht with
  | pushBacklog hp =>
      obtain rfl : _ = p := ha
      exact hp ▸ .pushBacklog (Function.update_self ..)
  | spawn hp =>
      obtain rfl : _ = p := ha
      exact hp ▸ .spawn (Function.update_self ..) rfl
  | assign hp =>
      obtain rfl : _ = p := ha
      exact hp ▸ .assign
  | publishFailed hp =>
      obtain rfl : _ = p := ha
      exact hp ▸ .publishFailed (Function.update_self ..)
  | published hp =>
      obtain rfl : _ = p := ha
      exact hp ▸ .published (Function.update_self ..) rfl
  | report hp | publishReturn hp =>
      obtain rfl : _ = p := ha
      exact hp ▸ .fanout
  | pushSleep hpush hp | pushReturn hpush hp =>
      rcases hpush with rfl | rfl <;> (obtain rfl : _ = p := ha; exact hp ▸ .fanout)
  | stopClose hp =>
      obtain rfl : _ = p := ha
      exact hp ▸ .stopClose (Function.update_self ..)
  | stopJoinable hp hsub hth =>
      obtain rfl : _ = p := ha
      exact hp ▸ .stopJoinable hsub hth (Function.update_self ..)
  | stopSkip hp | stopJoin hp =>
      obtain rfl : _ = p := ha
      exact hp ▸ .stopNext (by simp) (Function.update_self ..)
  | stopReturn hp =>
      obtain rfl : _ = p := ha
      exact hp ▸ .stopReturn (Function.update_self ..)
  | worker _ _ hw => cases a <;> first | cases hw | cases ha
  | advertise | setHandler | setTimeout | conflict | subscribe | publish | unsubscribe
  | shutdown => cases ha

/-- A publish goes on, or returns. -/
theorem Transition.publish_ends (ht : Transition s a evs s') {topic : String}
    (hp : (s.threads p).publishTopic = some topic) :
    (s'.threads p).publishTopic = some topic ∨
      s'.threads p = .idle ∧ ∃ env ok, evs = [.returned p topic env ok] := by
  by_cases ha : a.goesOn p
  · cases ht with
    | publishFailed hcall | publishReturn hcall =>
        obtain rfl : _ = p := ha
        rw [hcall] at hp
        cases hp
        exact .inr ⟨Function.update_self .., _, _, rfl⟩
    | published hcall | report hcall =>
        obtain rfl : _ = p := ha
        rw [hcall] at hp
        exact .inl (by simpa [Call.publishTopic] using hp)
    | pushSleep hpush hcall | pushReturn hpush hcall =>
        rcases hpush with rfl | rfl <;>
        · obtain rfl : _ = p := ha
          rw [hcall] at hp
          exact .inl (by simpa [Call.publishTopic] using hp)
    | pushBacklog hcall | spawn hcall | assign hcall | stopClose hcall | stopJoinable hcall
    | stopSkip hcall | stopJoin hcall | stopReturn hcall =>
        obtain rfl : _ = p := ha
        rw [hcall] at hp
        cases hp
    | worker _ _ hw => cases a <;> first | cases hw | cases ha
    | advertise | setHandler | setTimeout | conflict | subscribe | publish | unsubscribe
    | shutdown => cases ha
  · refine .inl ((ht.call_kept ha fun hidle => ?_).symm ▸ hp)
    rw [hidle] at hp
    cases hp

variable [DecidableEq τ]

/-- A call under way whose thread can move does move, and from where it was. -/
theorem exists_goesOn {s₀ : BusState ι τ π η} (ex : (machine ι τ π η).Execution s₀)
    (hfair : ex.FairTo (BusAction.goesOn p)) {c : Call τ π η} (hc : c ≠ .idle) {n : Nat}
    (hp : (ex.state n).threads p = c)
    (hable : ∀ k, n ≤ k → (ex.state k).threads p = c →
      (machine ι τ π η).Able (BusAction.goesOn p) (ex.state k)) :
    ∃ k a, n ≤ k ∧ (ex.state k).threads p = c ∧ ex.act k = some a ∧ a.goesOn p := by
  have hkeep : ∀ {s a s' evs}, s.threads p = c → ¬ BusAction.goesOn p a →
      (machine ι τ π η).step s a = some (s', evs) → s'.threads p = c := fun hat ha hstep =>
    ((step_transition hstep).call_kept ha (hat ▸ hc)).trans hat
  exact ex.exists_own hfair hp hable hkeep

theorem exists_callMove {s₀ : BusState ι τ π η} (ex : (machine ι τ π η).Execution s₀)
    (hfair : ex.FairTo (BusAction.goesOn p)) {c : Call τ π η} (hc : c ≠ .idle) {n : Nat}
    (hp : (ex.state n).threads p = c)
    (hable : ∀ k, n ≤ k → (ex.state k).threads p = c →
      (machine ι τ π η).Able (BusAction.goesOn p) (ex.state k)) :
    ∃ k, n ≤ k ∧ CallMove (ex.state (k + 1)) (ex.events k) p c := by
  obtain ⟨k, a, hk, hat, hact, hown⟩ := exists_goesOn ex hfair hc hp hable
  exact ⟨k, hk, hat ▸ (step_transition (ex.step_eq hact)).callMove hown⟩

end Calls

/-! ## The steps of a publish -/

/-- What the next step of a fan-out can be. -/
inductive FanoutMove (s : BusState ι τ π η) (a : BusAction ι τ π η) (p : ι) (f : Fanout π η) :
    Call τ π η → Prop where
  | report {r : SubId × QosMismatch} {rest : List (SubId × QosMismatch)} :
      f.mismatches = r :: rest → FanoutMove s a p f (.fanout { f with mismatches := rest })
  | pushed {sid : SubId} {rest : List SubId} {ok : Bool} :
      f.mismatches = [] → f.targets = sid :: rest →
      FanoutMove s a p f (.fanout { f with targets := rest, waiting := none, allAccepted := ok })
  /-- a first section that goes to sleep -/
  | sleep {sid : SubId} {rest : List SubId} {now : TimePoint} : f.mismatches = [] →
      f.targets = sid :: rest → f.waiting = none → a = .push p sid now →
      FanoutMove s a p f (.fanout { f with waiting := some (now + s.reliableTimeout) })
  /-- a wake-up that goes back to sleep -/
  | sleepAgain {sid : SubId} {now deadline : TimePoint} : a = .pushWake p sid now →
      f.waiting = some deadline → (deadline ≠ TimePoint.max → ¬ deadline ≤ now) →
      FanoutMove s a p f (.fanout f)
  | returned : f.mismatches = [] → f.targets = [] → FanoutMove s a p f .idle

section Publish

variable [DecidableEq ι] [DecidableEq τ] {s s' : BusState ι τ π η} {a : BusAction ι τ π η}
  {evs : List (BusEvent ι π η)} {p : ι} {f : Fanout π η}

omit [DecidableEq τ] in
/-- The call after a critical section of a push. -/
theorem afterPush_threads {sid : SubId} {rest : List SubId} {sub : Subscription τ π}
    {deadline : TimePoint} {r : BoundedQueue (Envelope π) × BoundedQueue.Push (Envelope π)}
    (h : some (afterPush s p f sid rest sub deadline r) = some (s', evs)) :
    r.2 = .sleeping ∧ s'.threads p = .fanout { f with waiting := some deadline } ∨
      ∃ ok, s'.threads p =
        .fanout { f with targets := rest, waiting := none, allAccepted := ok } := by
  obtain ⟨queue, status | _⟩ := r
  · obtain ⟨rfl, -⟩ := Prod.mk.inj (Option.some.inj h)
    exact .inr ⟨_, Function.update_self ..⟩
  · obtain ⟨rfl, -⟩ := Prod.mk.inj (Option.some.inj h)
    exact .inl ⟨rfl, Function.update_self ..⟩

theorem fanout_move {tr : List (BusEvent ι π η)} (hacc : Accounted tr s)
    (hp : s.threads p = .fanout f) (ha : a.goesOn p) (h : step s a = some (s', evs)) :
    FanoutMove s a p f (s'.threads p) := by
  cases a with
  | report q sid =>
      obtain rfl : q = p := ha
      simp only [step, hp] at h
      split at h
      · rename_i hm
        split at h
        · obtain ⟨rfl, -⟩ := Prod.mk.inj (Option.some.inj h)
          simpa using FanoutMove.report hm
        · cases h
      · cases h
  | push q sid now =>
      obtain rfl : q = p := ha
      simp only [step, hp] at h
      split at h
      · rename_i topic env handler sid' rest ok sub hcall hsub
        cases hcall
        split at h
        · rename_i heq
          subst heq
          rcases afterPush_threads h with ⟨hsleep, hthreads⟩ | ⟨ok, hthreads⟩
          · -- only the queue of a reliable subscription blocks
            have hpol := (hacc.old hsub).policy_eq
            rw [BoundedQueue.policy_of_sleeping hsleep] at hpol
            have hrel : sub.qos.reliability = .reliable := by
              by_contra hne
              simp [Subscription.policyFor, hne] at hpol
            rw [hthreads, pushDeadline, if_pos hrel]
            exact .sleep rfl rfl rfl rfl
          · rw [hthreads]
            exact .pushed rfl rfl
        · cases h
      · cases h
  | pushWake q sid now =>
      obtain rfl : q = p := ha
      simp only [step, hp] at h
      split at h
      · rename_i topic env handler sid' rest deadline ok sub hcall hsub
        cases hcall
        split at h
        · rcases afterPush_threads h with ⟨hsleep, hthreads⟩ | ⟨ok, hthreads⟩
          · rw [hthreads]
            exact .sleepAgain rfl rfl (BoundedQueue.lt_of_sleeping hsleep)
          · rw [hthreads]
            exact .pushed rfl rfl
        · cases h
      · cases h
  | publishReturn q =>
      obtain rfl : q = p := ha
      simp only [step, hp] at h
      split at h
      · rename_i hcall
        cases hcall
        obtain ⟨rfl, -⟩ := Prod.mk.inj (Option.some.inj h)
        simpa using FanoutMove.returned (s := s) (p := q) rfl rfl
      · cases h
  | pushBacklog q | spawn q | assign q | publishLock q | stopClose q | stopJoinable q
  | stopJoin q | stopReturn q =>
      obtain rfl : q = p := ha
      simp [step, stopStep, hp] at h
  | _ => cases ha

/-- A fan-out can always go on: its targets exist. -/
theorem fanout_able (wf : WF s) (hp : s.threads p = .fanout f) :
    (machine ι τ π η).Able (BusAction.goesOn p) s := by
  have htargets := (wf.targets hp).2
  obtain ⟨topic, env, mismatches, handler, targets, waiting, ok⟩ := f
  cases mismatches with
  | cons r rest => exact .of_isSome (a := .report p r.1) rfl (by simp [machine, step, hp])
  | nil =>
      cases targets with
      | nil => exact .of_isSome (a := .publishReturn p) rfl (by simp [machine, step, hp])
      | cons sid rest =>
          obtain ⟨sub, hsub, -⟩ := htargets sid List.mem_cons_self
          cases waiting with
          | none => exact .of_isSome (a := .push p sid 0) rfl (by simp [machine, step, hp, hsub])
          | some deadline =>
              exact .of_isSome (a := .pushWake p sid 0) rfl (by simp [machine, step, hp, hsub])

end Publish

/-! ## Every publish returns -/

/-- What the clock of the thread `p` does to its waits. -/
structure Timely [DecidableEq ι] [DecidableEq τ] {s₀ : BusState ι τ π η}
    (ex : (machine ι τ π η).Execution s₀) (p : ι) : Prop where
  /-- no deadline happens to be the one that means no deadline -/
  bounded : ∀ {k sid now}, ex.act k = some (.push p sid now) →
    now + (ex.state k).reliableTimeout ≠ TimePoint.max
  /-- a deadline passes: wake-ups do not all come before it -/
  passes : ∀ {n f deadline}, (ex.state n).threads p = .fanout f → f.waiting = some deadline →
    deadline ≠ TimePoint.max →
    ∃ j, ∀ {k sid now}, j ≤ k → ex.act k = some (.pushWake p sid now) → deadline ≤ now

section Execution

variable [DecidableEq ι] [DecidableEq τ] (ex : (machine ι τ π η).Execution init) {p : ι}
  {f : Fanout π η} {n : Nat}

theorem accounted_execution (n : Nat) : Accounted (ex.trace n) (ex.state n) := by
  obtain ⟨as, hrun⟩ := ex.exists_run n
  exact accounted_of_run bare_empty hrun

variable {ex}

/-- The next step of a fan-out is taken. -/
theorem exists_fanout_move (hfair : ex.FairTo (BusAction.goesOn p))
    (hp : (ex.state n).threads p = .fanout f) :
    ∃ k a, n ≤ k ∧ (ex.state k).threads p = .fanout f ∧ ex.act k = some a ∧
      FanoutMove (ex.state k) a p f ((ex.state (k + 1)).threads p) := by
  obtain ⟨k, a, hk, hat, hact, hown⟩ := exists_goesOn ex hfair (by simp) hp
    fun k _ hat => fanout_able (accounted_execution ex k).wf hat
  exact ⟨k, a, hk, hat, hact, fanout_move (accounted_execution ex k) hat hown (ex.step_eq hact)⟩

omit ex in
/-- A step of a wait that is not its end comes before the deadline. -/
theorem waiting_step {s s' : BusState ι τ π η} {a : BusAction ι τ π η}
    {evs tr : List (BusEvent ι π η)} {sid : SubId} {rest : List SubId} {deadline : TimePoint}
    (hacc : Accounted tr s) (hp : s.threads p = .fanout f) (hm : f.mismatches = [])
    (hf : f.targets = sid :: rest) (hw : f.waiting = some deadline)
    (hmax : deadline ≠ TimePoint.max) (h : step s a = some (s', evs)) :
    s'.threads p = .fanout f ∧
        (a.goesOn p → ∃ sid now, a = .pushWake p sid now ∧ ¬ deadline ≤ now) ∨
      ∃ ok, s'.threads p =
        .fanout { f with targets := rest, waiting := none, allAccepted := ok } := by
  by_cases ha : a.goesOn p
  · have hmove := fanout_move hacc hp ha h
    generalize hc : s'.threads p = c at hmove
    cases hmove with
    | report hr => rw [hm] at hr; cases hr
    | pushed _ hf' =>
        obtain ⟨rfl, rfl⟩ := List.cons.inj (hf.symm.trans hf')
        exact .inr ⟨_, rfl⟩
    | sleep _ _ hw' => rw [hw] at hw'; cases hw'
    | sleepAgain ha' hw' hlt =>
        cases hw.symm.trans hw'
        exact .inl ⟨rfl, fun _ => ⟨_, _, ha', hlt hmax⟩⟩
    | returned _ hf' => rw [hf] at hf'; cases hf'
  · refine .inl ⟨?_, fun hown => absurd hown ha⟩
    exact ((step_transition h).call_kept ha (by simp [hp])).trans hp

/-- A wait ends: the push into the first target is done. -/
theorem exists_pushed_waiting (hfair : ex.FairTo (BusAction.goesOn p)) (htime : Timely ex p)
    {sid : SubId} {rest : List SubId} {deadline : TimePoint}
    (hp : (ex.state n).threads p = .fanout f) (hm : f.mismatches = [])
    (hf : f.targets = sid :: rest) (hw : f.waiting = some deadline)
    (hmax : deadline ≠ TimePoint.max) :
    ∃ k ok, n ≤ k ∧ (ex.state k).threads p =
      .fanout { f with targets := rest, waiting := none, allAccepted := ok } := by
  obtain ⟨j, hpass⟩ := htime.passes hp hw hmax
  have hstep := fun k a (hat : (ex.state k).threads p = .fanout f) (hact : ex.act k = some a) =>
    waiting_step (accounted_execution ex k) hat hm hf hw hmax (ex.step_eq hact)
  -- at time `j` the wait goes on or is over
  have hwait : (ex.state (max n j)).threads p = .fanout f ∨ ∃ k, n ≤ k ∧ ∃ ok,
      (ex.state k).threads p =
        .fanout { f with targets := rest, waiting := none, allAccepted := ok } := by
    refine ex.keeps_until (Q := fun s => s.threads p = .fanout f) (R := fun s => ∃ ok, s.threads p =
      .fanout { f with targets := rest, waiting := none, allAccepted := ok }) hp ?_
      (Nat.le_max_left n j)
    exact fun {k a} _ hat hact => (hstep k a hat hact).imp_left And.left
  rcases hwait with hat | ⟨k, hk, ok, hdone⟩
  · obtain ⟨k, a, hk, hat, hact, hown⟩ := exists_goesOn ex hfair (by simp) hat
      fun k _ hat => fanout_able (accounted_execution ex k).wf hat
    rcases hstep k a hat hact with ⟨-, hlate⟩ | ⟨ok, hdone⟩
    · obtain ⟨sid, now, rfl, hlt⟩ := hlate hown
      exact absurd (hpass (by omega) hact) hlt
    · exact ⟨k + 1, ok, by omega, hdone⟩
  · exact ⟨k, ok, hk, hdone⟩

/-- The push into the first target is done. -/
theorem exists_pushed (hfair : ex.FairTo (BusAction.goesOn p)) (htime : Timely ex p)
    {sid : SubId} {rest : List SubId}
    (hp : (ex.state n).threads p = .fanout f) (hm : f.mismatches = [])
    (hf : f.targets = sid :: rest) (hw : f.waiting = none) :
    ∃ k ok, n ≤ k ∧ (ex.state k).threads p =
      .fanout { f with targets := rest, waiting := none, allAccepted := ok } := by
  obtain ⟨k, a, hk, hat, hact, hmove⟩ := exists_fanout_move hfair hp
  generalize hc : (ex.state (k + 1)).threads p = c at hmove
  cases hmove with
  | report hr => rw [hm] at hr; cases hr
  | pushed _ hf' =>
      obtain ⟨rfl, rfl⟩ := List.cons.inj (hf.symm.trans hf')
      exact ⟨k + 1, _, by omega, hc⟩
  | sleep _ _ _ ha =>
      have hmax := htime.bounded (ha ▸ hact)
      obtain ⟨k', ok, hk', hat'⟩ := exists_pushed_waiting hfair htime hc hm hf rfl hmax
      exact ⟨k', ok, by omega, hat'⟩
  | sleepAgain _ hw' => rw [hw] at hw'; cases hw'
  | returned _ hf' => rw [hf] at hf'; cases hf'

theorem exists_all_pushed (hfair : ex.FairTo (BusAction.goesOn p)) (htime : Timely ex p)
    (hp : (ex.state n).threads p = .fanout f) (hm : f.mismatches = [])
    (hw : f.waiting = none) : ∃ k, n ≤ k ∧ (ex.state k).threads p = .idle := by
  induction hf : f.targets generalizing n f with
  | nil =>
      obtain ⟨k, a, hk, hat, hact, hmove⟩ := exists_fanout_move hfair hp
      generalize hc : (ex.state (k + 1)).threads p = c at hmove
      cases hmove with
      | report hr => rw [hm] at hr; cases hr
      | pushed _ hf' => rw [hf] at hf'; cases hf'
      | sleep _ hf' => rw [hf] at hf'; cases hf'
      | sleepAgain _ hw' => rw [hw] at hw'; cases hw'
      | returned => exact ⟨k + 1, by omega, hc⟩
  | cons sid rest ih =>
      obtain ⟨k, ok, hk, hat⟩ := exists_pushed hfair htime hp hm hf hw
      obtain ⟨k', hk', hidle⟩ := ih hat hm rfl rfl
      exact ⟨k', by omega, hidle⟩

theorem exists_reported (hfair : ex.FairTo (BusAction.goesOn p))
    (hp : (ex.state n).threads p = .fanout f) (hw : f.waiting = none) :
    ∃ k, n ≤ k ∧ (ex.state k).threads p = .fanout { f with mismatches := [] } := by
  induction hm : f.mismatches generalizing n f with
  | nil => exact ⟨n, Nat.le_refl n, by rw [hp, ← hm]⟩
  | cons r rest ih =>
      obtain ⟨k, a, hk, hat, hact, hmove⟩ := exists_fanout_move hfair hp
      generalize hc : (ex.state (k + 1)).threads p = c at hmove
      cases hmove with
      | report hr =>
          obtain ⟨rfl, rfl⟩ := List.cons.inj (hm.symm.trans hr)
          obtain ⟨k', hk', hat'⟩ := ih hc hw rfl
          exact ⟨k', by omega, hat'⟩
      | pushed hm' => rw [hm] at hm'; cases hm'
      | sleep hm' => rw [hm] at hm'; cases hm'
      | sleepAgain _ hw' => rw [hw] at hw'; cases hw'
      | returned hm' => rw [hm] at hm'; cases hm'

omit ex in
theorem publish_call {s s' : BusState ι τ π η} {evs : List (BusEvent ι π η)} {topic : String}
    {type : τ} {qos : QoS} {payload : π} {now : UInt64}
    (h : step s (.publish p topic type qos payload now) = some (s', evs)) :
    s'.threads p = .publishing topic type qos payload now := by
  cases step_transition h with
  | publish => exact Function.update_self ..
  | pushSleep hpush | pushReturn hpush => rcases hpush with hpush | hpush <;> cases hpush
  | worker _ _ hw => cases hw

omit ex in
theorem publishing_able {s : BusState ι τ π η} {topic : String} {type : τ} {qos : QoS}
    {payload : π} {now : UInt64} (hp : s.threads p = .publishing topic type qos payload now) :
    (machine ι τ π η).Able (BusAction.goesOn p) s :=
  .of_isSome (a := .publishLock p) rfl (by simp [machine, step, hp])

theorem exists_publish_idle (hfair : ex.FairTo (BusAction.goesOn p)) (htime : Timely ex p)
    {topic : String} {type : τ} {qos : QoS} {payload : π} {now : UInt64}
    (hp : (ex.state n).threads p = .publishing topic type qos payload now) :
    ∃ k, n ≤ k ∧ (ex.state k).threads p = .idle := by
  obtain ⟨k, hk, hmove⟩ := exists_callMove ex hfair (by simp) hp fun k _ hat => publishing_able hat
  cases hmove with
  | publishFailed hidle => exact ⟨k + 1, by omega, hidle⟩
  | published hat hw =>
      obtain ⟨k₁, hk₁, hat₁⟩ := exists_reported hfair hat hw
      obtain ⟨k₂, hk₂, hidle⟩ := exists_all_pushed hfair htime hat₁ rfl hw
      exact ⟨k₂, by omega, hidle⟩

/-- **Every publish returns.** It takes a scheduler that does not pass over the publishing
    thread and a clock that goes on, and nothing of the subscribers: their workers may stop
    anywhere, for ever. The call is the same up to its return. -/
theorem publish_returns (hfair : ex.FairTo (BusAction.goesOn p)) (htime : Timely ex p)
    {topic : String} {type : τ} {qos : QoS} {payload : π} {now : UInt64}
    (hcall : ex.act n = some (.publish p topic type qos payload now)) :
    ∃ k env ok, n < k ∧
      (∀ j, n < j → j ≤ k → ((ex.state j).threads p).publishTopic = some topic) ∧
      .returned p topic env ok ∈ ex.events k ∧ (ex.state (k + 1)).threads p = .idle := by
  have hp := publish_call (ex.step_eq hcall)
  obtain ⟨m, hm, hidle⟩ := exists_publish_idle hfair htime hp
  have hstart : ((ex.state (n + 1)).threads p).publishTopic = some topic := by rw [hp]; rfl
  have hend : ((ex.state m).threads p).publishTopic ≠ some topic := by
    simp [hidle, Call.publishTopic]
  obtain ⟨k, a, hk, hsame, hact, hover⟩ := ex.exists_ends
    (Q := fun s => (s.threads p).publishTopic = some topic) hm hstart hend
  have hlast := (step_transition (ex.step_eq hact)).publish_ends (hsame k hk (Nat.le_refl k))
  obtain ⟨hidle', env, ok, hevs⟩ := hlast.resolve_left hover
  refine ⟨k, env, ok, by omega, fun j hj hjk => hsame j (by omega) hjk, ?_, hidle'⟩
  rw [hevs]
  exact List.mem_singleton_self _

omit ex [DecidableEq ι] in
/-- Between two calls there is nothing to go on with. -/
theorem not_able_of_idle [DecidableEq ι] {s : BusState ι τ π η} (hp : s.threads p = .idle) :
    ¬ (machine ι τ π η).Able (BusAction.goesOn p) s := by
  rintro ⟨a, s', evs, ha, hstep⟩
  cases a with
  | pushBacklog q | spawn q | assign q | publishLock q | report q | push q | pushWake q
  | publishReturn q | stopClose q | stopJoinable q | stopJoin q | stopReturn q =>
      obtain rfl : q = p := ha
      simp [machine, step, stopStep, hp] at hstep
  | _ => cases ha

end Execution

/-- The worker of the only subscription never moves. The second publish finds the queue
    full, wakes up once too early, and gives up at its deadline. -/
theorem publish_returns_stuck_worker :
    ∃ ex : (machine (Fin 2) Unit Nat Unit).Execution init,
      ex.act 7 = some (.publish 0 "map" () (.command 1) 8 0) ∧
      ∃ k env ok, 7 < k ∧
        (∀ j, 7 < j → j ≤ k → ((ex.state j).threads 0).publishTopic = some "map") ∧
        .returned 0 "map" env ok ∈ ex.events k ∧ (ex.state (k + 1)).threads 0 = .idle := by
  have hrun : ((machine (Fin 2) Unit Nat Unit).exec init
      [.subscribe 1 "map" () (.command 1) 5, .spawn 1 5, .assign 1 5,
        .publish 0 "map" () (.command 1) 7 0, .publishLock 0, .push 0 5 0, .publishReturn 0,
        .publish 0 "map" () (.command 1) 8 0, .publishLock 0, .push 0 5 0, .pushWake 0 5 5,
        .pushWake 0 5 100000000, .publishReturn 0]).isSome = true := by decide
  refine ⟨.ofList _ _ _ hrun, rfl, ?_⟩
  refine publish_returns (Machine.Execution.fairTo_ofList hrun (not_able_of_idle rfl)) ?_ rfl
  refine ⟨fun {k sid now} hact => ?_, fun _ _ _ => ⟨13, fun {k sid now} hk hact => ?_⟩⟩
  · match k, hact with
    | 5, hact | 9, hact =>
        cases hact
        exact (by decide : (0 : TimePoint) + 100000000 ≠ TimePoint.max)
    | 0, hact | 1, hact | 2, hact | 3, hact | 4, hact | 6, hact | 7, hact | 8, hact | 10, hact
    | 11, hact | 12, hact | _ + 13, hact => cases hact
  · match k, hk with
    | _ + 13, _ => cases hact

end TopicBus

end Rdb
