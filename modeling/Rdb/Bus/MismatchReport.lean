-- SUMMARY: How often the mismatch handler is invoked for a subscription, and when a mismatch stays silent.
import Rdb.Bus.History

/-!
# Reports of QoS mismatches

The first publish that rejects a subscription sets its flag `mismatch_reported` and
takes the report along; the handler is called after the lock section, with the handler
that was installed in it. The flag equals the reports made plus the reports on their
way. A report that was taken along while no handler was installed reaches nobody, and
the flag keeps every later one from being made.
-/

namespace Rdb

variable {ι τ π η : Type*}

/-- The reports about `sid` that the call still has to make, as the handlers they go to. -/
def Call.unheard (sid : SubId) : Call τ π η → List (Option η)
  | .fanout f => (f.mismatches.filter fun r => r.1 = sid).map fun _ => f.handler
  | _ => []

/-- The step is the report about `sid`. -/
def BusAction.reports (sid : SubId) : BusAction ι τ π η → Bool
  | .report _ i => decide (i = sid)
  | _ => false

theorem Subscription.Step.mismatchReported_eq {sub sub' : Subscription τ π}
    {levs : List (SubEvent ι π)} (h : sub.Step levs sub') :
    sub'.mismatchReported = (sub.mismatchReported || levs.any SubEvent.isRejected) := by
  cases h <;> simp [SubEvent.isRejected, Subscription.reject]

namespace TopicBus

/-- The flag `mismatch_reported`. -/
def reported (s : BusState ι τ π η) (sid : SubId) : Bool :=
  (s.subs sid).any Subscription.mismatchReported

/-- The publish of `p`, once it has the lock, is the first to reject `sid`. -/
def firstRejection [DecidableEq τ] (s : BusState ι τ π η) (sid : SubId) (p : ι) : Bool :=
  match s.threads p with
  | .publishing topic type qos _ _ =>
    (s.topics.lookup topic).any fun entry => entry.type = type ∧ sid ∈ entry.subs ∧
      (rejection s qos sid).isSome ∧ reported s sid = false
  | _ => false

/-- The guard on the lock section of `publish_erased`: a handler is installed when a
    subscription is rejected for the first time. -/
def HandlerFirst [DecidableEq τ] (sid : SubId) (s : BusState ι τ π η) : BusAction ι τ π η → Prop
  | .publishLock p => firstRejection s sid p = true → s.mismatchHandler.isSome = true
  | _ => True

instance [DecidableEq τ] (sid : SubId) (s : BusState ι τ π η) :
    (a : BusAction ι τ π η) → Decidable (HandlerFirst sid s a)
  | .publishLock p =>
    inferInstanceAs (Decidable (firstRejection s sid p = true → s.mismatchHandler.isSome = true))
  | .advertise .. | .setQosMismatchHandler .. | .setReliableTimeout .. | .subscribe ..
  | .pushBacklog .. | .spawn .. | .assign .. | .publish .. | .report .. | .push .. | .pushWake ..
  | .publishReturn .. | .unsubscribe .. | .shutdown .. | .stopClose .. | .stopJoinable ..
  | .stopJoin .. | .stopReturn .. | .workerPop .. | .workerDeliver .. | .workerFinish .. =>
    .isTrue trivial

/-- The calls of a mismatch handler about `sid`. -/
def invocations [DecidableEq ι] [DecidableEq τ] (sid : SubId) (as : List (BusAction ι τ π η)) :
    List (BusEvent ι π η) :=
  (machine ι τ π η).emittedBy (BusAction.reports sid) init as

/-! ## The flag -/

section Flag

variable {s s' : BusState ι τ π η} {evs : List (BusEvent ι π η)}

/-- A rejection sets the flag, and nothing clears it. -/
theorem SubsStep.reported_eq (h : SubsStep s evs s') (sid : SubId) :
    reported s' sid = (reported s sid || (ledger sid evs).any SubEvent.isRejected) := by
  unfold reported
  cases hsub : s.subs sid with
  | none =>
      obtain ⟨hevs, hnew⟩ := h.fresh hsub
      rw [hevs]
      cases hsub' : s'.subs sid with
      | none => rfl
      | some sub' =>
          obtain ⟨topic, type, qos, rfl⟩ := hnew hsub'
          rfl
  | some sub =>
      obtain ⟨sub', hsub', hstep⟩ := h.old hsub
      rw [hsub']
      exact hstep.mismatchReported_eq

end Flag

/-! ## One step -/

section Step

variable [DecidableEq ι] [DecidableEq τ] {s s' : BusState ι τ π η} {a : BusAction ι τ π η}
  {evs : List (BusEvent ι π η)} {sid : SubId}

/-- What a step does to the reports about `sid`: nothing, it takes one along, or it
    makes one. -/
inductive ReportStep (sid : SubId) (s : BusState ι τ π η) (a : BusAction ι τ π η)
    (evs : List (BusEvent ι π η)) (s' : BusState ι τ π η) : Prop where
  | quiet : a.reports sid = false → reported s' sid = reported s sid →
      (∀ p, (s'.threads p).unheard sid = (s.threads p).unheard sid) → ReportStep sid s a evs s'
  | reject {p : ι} {c : Call τ π η} : a = .publishLock p → firstRejection s sid p = true →
      reported s sid = false → reported s' sid = true →
      s'.threads = Function.update s.threads p c → (s.threads p).unheard sid = [] →
      c.unheard sid = [s.mismatchHandler] → ReportStep sid s a evs s'
  | report {p : ι} {c : Call τ π η} {handler : Option η} : a.reports sid = true →
      reported s' sid = reported s sid → s'.threads = Function.update s.threads p c →
      (s.threads p).unheard sid = handler :: c.unheard sid →
      evs.length = handler.toList.length → ReportStep sid s a evs s'

omit [DecidableEq τ] in
theorem unheard_update {threads : ι → Call τ π η} {p : ι} {c c' : Call τ π η}
    (hp : threads p = c) (h : c'.unheard sid = c.unheard sid) (q : ι) :
    (Function.update threads p c' q).unheard sid = (threads q).unheard sid := by
  by_cases hq : q = p
  · subst hq
    rw [Function.update_self, hp, h]
  · rw [Function.update_of_ne hq]

omit [DecidableEq τ] in
/-- Only the lock section of a publish rejects. -/
theorem Transition.not_rejected (ht : Transition s a evs s') (ha : ∀ p, a ≠ .publishLock p) :
    (ledger sid evs).any SubEvent.isRejected = false := by
  rw [List.any_eq_false]
  intro e he hrej
  have hmem := mem_ledger.mp he
  cases e with
  | rejected m =>
      cases ht with
      | published => exact ha _ rfl
      | worker _ hstep =>
          obtain ⟨l, hl, heq⟩ := List.mem_map.mp hmem
          cases heq
          cases hstep.byWorker _ hl
      | _ => simp at hmem
  | _ => cases hrej

theorem publishReturn_inv {p : ι} (h : step s (.publishReturn p) = some (s', evs)) :
    ∃ f, s.threads p = .fanout f ∧ f.mismatches = [] := by
  simp only [step] at h
  split at h
  · rename_i hp
    exact ⟨_, hp, rfl⟩
  · cases h

omit [DecidableEq ι] [DecidableEq τ] in
/-- What the lock section of a publish takes along about `sid`. -/
theorem filter_unreported {qos : QoS} {sids : List SubId} (hnodup : sids.Nodup) :
    (unreported s qos sids).filter (fun r => r.1 = sid) =
      if sid ∈ sids ∧ reported s sid = false then (rejection s qos sid).toList else [] := by
  have hswap : (unreported s qos sids).filter (fun r => r.1 = sid) =
      ((rejections s qos sids).filter fun r => r.1 = sid).filter
        fun r => (s.subs r.1).any fun sub => !sub.mismatchReported := by
    simp only [unreported, List.filter_filter, Bool.and_comm]
  rw [hswap, filter_rejections hnodup]
  by_cases hmem : sid ∈ sids
  · cases hrej : rejection s qos sid with
    | none => simp [hmem]
    | some r =>
        obtain ⟨sub, hsub, -⟩ := Option.bind_eq_some_iff.mp hrej
        cases hrep : sub.mismatchReported <;>
          simp [hmem, rejection_fst hrej, hsub, reported, hrep]
  · simp [hmem]

omit [DecidableEq ι] [DecidableEq τ] in
theorem any_isRejected_published {qos : QoS} {sids : List SubId} (hnodup : sids.Nodup)
    {e : BusEvent ι π η} (he : e.about sid = none) :
    (ledger sid (e :: (matched s qos sids).events)).any SubEvent.isRejected =
      decide (sid ∈ sids ∧ (rejection s qos sid).isSome) := by
  have hledger : ledger sid (e :: (matched s qos sids).events) =
      if sid ∈ sids then (rejection s qos sid).toList.map fun r => .rejected r.2 else [] := by
    rw [← ledger_rejections hnodup s qos sid]
    simp [ledger, he, matched]
  rw [hledger]
  by_cases hmem : sid ∈ sids
  · cases rejection s qos sid <;> simp [hmem, SubEvent.isRejected]
  · simp [hmem]

omit [DecidableEq ι] [DecidableEq τ] in
/-- The report that a new fan-out takes along. -/
theorem unheard_fanout {qos : QoS} {subs : List SubId} {f : Fanout π η} (hnodup : subs.Nodup)
    (hf : f.mismatches = unreported s qos subs) (hh : f.handler = s.mismatchHandler) :
    (Call.fanout f : Call τ π η).unheard sid =
      if sid ∈ subs ∧ reported s sid = false then
        (rejection s qos sid).toList.map fun _ => s.mismatchHandler else [] := by
  rw [Call.unheard, hf, hh, filter_unreported hnodup]
  split <;> rfl

theorem step_reportStep (hstep : step s a = some (s', evs)) (wf : WF s) (sid : SubId) :
    ReportStep sid s a evs s' := by
  have ht := step_transition hstep
  have hflag := (ht.subsStep wf).reported_eq sid
  -- steps that neither take a report along nor make one
  have hquiet : (∀ p, a ≠ .publishLock p) → a.reports sid = false →
      (∀ p, (s'.threads p).unheard sid = (s.threads p).unheard sid) →
      ReportStep sid s a evs s' := by
    intro ha hr hun
    rw [ht.not_rejected ha, Bool.or_false] at hflag
    exact .quiet hr hflag hun
  cases ht with
  | advertise | setHandler | setTimeout | conflict => exact hquiet (by simp) rfl fun _ => rfl
  | worker hsub hw ha =>
      refine hquiet ?_ ?_ fun _ => rfl
      · rintro p rfl
        cases ha
      · cases a with
        | report => cases ha
        | _ => rfl
  | subscribe hp | pushBacklog hp | spawn hp | assign hp | publish hp | unsubscribe hp
  | shutdown hp | stopClose hp | stopJoinable hp | stopSkip hp | stopJoin hp | stopReturn hp =>
      exact hquiet (by simp) rfl (unheard_update hp rfl)
  | pushSleep ha hp | pushReturn ha hp =>
      refine hquiet ?_ ?_ (unheard_update hp rfl)
      · rintro p rfl
        rcases ha with ha | ha <;> cases ha
      · rcases ha with rfl | rfl <;> rfl
  | @publishReturn p f hp hf =>
      obtain ⟨f', hp', hnil⟩ := publishReturn_inv hstep
      cases hp.symm.trans hp'
      exact hquiet (by simp) rfl (unheard_update hp (by simp [Call.unheard, hnil]))
  | publishFailed hp =>
      exact .quiet rfl (hflag.trans (Bool.or_false _)) (unheard_update hp rfl)
  | @published p topic type qos payload now entry env m hp hlook htype henv hm =>
      have hnodup := (wf.topics _ _ hlook).nodup
      rw [matchAll_eq s _ hnodup] at hm
      subst hm
      rw [any_isRejected_published hnodup (by rfl)] at hflag
      have hnil : (s.threads p).unheard sid = [] := by
        rw [hp]
        rfl
      by_cases hfirst : sid ∈ entry.subs ∧ (rejection s qos sid).isSome ∧ reported s sid = false
      -- the first rejection takes the report along
      · obtain ⟨hmem, hrej, hrep⟩ := hfirst
        obtain ⟨r, hr⟩ := Option.isSome_iff_exists.mp hrej
        refine .reject rfl ?_ hrep ?_ rfl hnil ?_
        · simp [firstRejection, hp, hlook, htype, hmem, hrej, hrep]
        · rw [hflag, hrep]
          simp [hmem, hrej]
        · rw [unheard_fanout hnodup rfl rfl]
          simp [hmem, hrep, hr]
      -- it is compatible, somewhere else, or was rejected before
      · refine .quiet rfl ?_ (unheard_update hp ?_)
        · rw [hflag]
          cases hrep : reported s sid <;> simp_all
        · rw [unheard_fanout hnodup rfl rfl]
          cases hrej : rejection s qos sid <;> simp_all [Call.unheard]
  | @report p f i m rest hp hm =>
      by_cases hi : i = sid
      · subst hi
        have hun : (s.threads p).unheard i =
            f.handler :: (Call.fanout { f with mismatches := rest } : Call τ π η).unheard i := by
          rw [hp]
          simp [Call.unheard, hm]
        rw [(readers_of_report _ _ _ _ _).2] at hflag
        exact .report (decide_eq_true rfl) (hflag.trans (Bool.or_false _)) rfl hun (by simp)
      · exact hquiet (by simp) (decide_eq_false hi)
          (unheard_update hp (by simp [Call.unheard, hm, hi]))

end Step

/-! ## Reports made and reports on their way -/

section Balance

variable [DecidableEq ι] [Fintype ι] [DecidableEq τ] {s s' : BusState ι τ π η}
  {a : BusAction ι τ π η} {as : List (BusAction ι τ π η)} {evs tr : List (BusEvent ι π η)}
  {sid : SubId}

/-- How many reports about `sid` are on their way. -/
def onTheirWay (s : BusState ι τ π η) (sid : SubId) : Nat :=
  ∑ p, ((s.threads p).unheard sid).length

omit [DecidableEq τ] in
theorem onTheirWay_update {p : ι} {c : Call τ π η}
    (h : s'.threads = Function.update s.threads p c) (sid : SubId) :
    onTheirWay s' sid + ((s.threads p).unheard sid).length =
      onTheirWay s sid + (c.unheard sid).length := by
  rw [onTheirWay, h]
  exact ThreadSum.sum_update (fun c => (c.unheard sid).length) s.threads p c

/-- The flag is the number of reports made and on their way. -/
theorem ReportStep.balance (h : ReportStep sid s a evs s') :
    onTheirWay s' sid + (a.reports sid).toNat + (reported s sid).toNat =
      onTheirWay s sid + (reported s' sid).toNat := by
  cases h with
  | quiet ha hflag hun => simp [ha, hflag, onTheirWay, hun]
  | @reject p c ha _ hflag hflag' hthreads hnil hone =>
      have hsum := onTheirWay_update hthreads sid
      rw [hnil, hone] at hsum
      simp only [ha, BusAction.reports, hflag, hflag', Bool.toNat_false, Bool.toNat_true]
      simpa using hsum
  | @report p c handler ha hflag hthreads hcons _ =>
      have hsum := onTheirWay_update hthreads sid
      rw [hcons, List.length_cons] at hsum
      simp only [ha, hflag, Bool.toNat_true]
      omega

/-- Along a run, the flag is the number of reports made and on their way. -/
theorem reports_balance (h : (machine ι τ π η).Run init as tr s) (sid : SubId) :
    as.countP (BusAction.reports sid) + onTheirWay s sid = (reported s sid).toNat := by
  induction h with
  | nil => simp [onTheirWay, init, ofTopics, Call.unheard, reported]
  | @snoc as tr evs s s' a hrun _ hstep ih =>
      have hwf := (accounted_of_run bare_empty hrun).wf
      have hbal := (step_reportStep hstep hwf sid).balance
      rw [ThreadSum.countP_concat]
      omega

end Balance

/-! ## The handler is invoked at most once -/

section Runs

variable [DecidableEq ι] [DecidableEq τ] {s s₁ : BusState ι τ π η}
  {as as₁ : List (BusAction ι τ π η)} {tr tr₁ : List (BusEvent ι π η)} {sid : SubId}

theorem invocations_snoc {s' : BusState ι τ π η} {a : BusAction ι τ π η}
    {evs : List (BusEvent ι π η)} (h : (machine ι τ π η).Run init as tr s)
    (hstep : step s a = some (s', evs)) :
    invocations sid (as ++ [a]) = invocations sid as ++ if a.reports sid then evs else [] :=
  h.emittedBy_snoc hstep

theorem length_invocations_le (h : (machine ι τ π η).Run init as tr s) (sid : SubId) :
    (invocations sid as).length ≤ as.countP (BusAction.reports sid) := by
  induction h with
  | nil => exact Nat.le_refl _
  | @snoc as tr evs s s' a hrun _ hstep ih =>
      have hwf := (accounted_of_run bare_empty hrun).wf
      rw [invocations_snoc hrun hstep, ThreadSum.countP_concat, List.length_append]
      cases step_reportStep hstep hwf sid with
      | quiet ha => simpa [ha] using ih
      | reject ha =>
          subst ha
          exact ih
      | @report p c handler ha _ _ _ hlen =>
          have hle := Option.length_toList_le (o := handler)
          simp only [ha, if_true, Bool.toNat_true, hlen]
          omega

/-- Whatever the interleaving, a handler is invoked for a subscription at most once. -/
theorem length_invocations_le_one [Fintype ι] (h : (machine ι τ π η).Run init as tr s)
    (sid : SubId) : (invocations sid as).length ≤ 1 := by
  have hle := length_invocations_le h sid
  have hbal := reports_balance h sid
  have hflag := Bool.toNat_le (reported s sid)
  omega

/-! ## When it is invoked -/

/-- Every report about `sid` reaches a handler. -/
structure Heard (sid : SubId) (as : List (BusAction ι τ π η)) (s : BusState ι τ π η) : Prop where
  made : (invocations sid as).length = as.countP (BusAction.reports sid)
  onTheirWay : ∀ p, ∀ handler ∈ (s.threads p).unheard sid, handler.isSome = true

theorem heard_of_run (h : (machine ι τ π η).RunIf (fun _ => HandlerFirst sid) init as tr s) :
    Heard sid as s := by
  induction h with
  | nil => exact ⟨rfl, fun p handler hmem => absurd hmem List.not_mem_nil⟩
  | @snoc as tr evs s s' a hrun hguard hstep ih =>
      have hwf := (accounted_of_run bare_empty hrun.toRun).wf
      have hinv := @invocations_snoc _ _ _ _ _ _ _ _ _ sid _ _ _ hrun.toRun hstep
      cases step_reportStep hstep hwf sid with
      | quiet ha _ hun =>
          refine ⟨?_, fun p handler hmem => ih.onTheirWay p handler (hun p ▸ hmem)⟩
          rw [hinv, ThreadSum.countP_concat, ha]
          simpa using ih.made
      | @reject p c ha hfirst _ _ hthreads _ hone =>
          subst ha
          refine ⟨?_, fun q handler hmem => ?_⟩
          · rw [hinv, ThreadSum.countP_concat]
            simpa [BusAction.reports] using ih.made
          -- the guard: the report that is taken along has a handler
          · rw [hthreads] at hmem
            by_cases hq : q = p
            · rw [hq, Function.update_self, hone, List.mem_singleton] at hmem
              rw [hmem]
              exact hguard hfirst
            · rw [Function.update_of_ne hq] at hmem
              exact ih.onTheirWay q handler hmem
      | @report p c handler ha _ hthreads hcons hlen =>
          have hsome : handler.isSome = true :=
            ih.onTheirWay p handler (hcons ▸ List.mem_cons_self)
          refine ⟨?_, fun q h hmem => ?_⟩
          · obtain ⟨f, rfl⟩ := Option.isSome_iff_exists.mp hsome
            rw [hinv, ThreadSum.countP_concat, ha, List.length_append, ih.made]
            simpa using hlen
          · rw [hthreads] at hmem
            by_cases hq : q = p
            · rw [hq, Function.update_self] at hmem
              exact ih.onTheirWay p h (hcons ▸ List.mem_cons_of_mem _ hmem)
            · rw [Function.update_of_ne hq] at hmem
              exact ih.onTheirWay q h hmem

/-- Once the flag is set no report is taken along any more, and a publish that is on the
    way with one has not returned. -/
theorem unheard_since {s₂ : BusState ι τ π η} {as₂ : List (BusAction ι τ π η)}
    {tr₂ : List (BusEvent ι π η)} (wf : WF s₂) (hflag : reported s₂ sid = true)
    (h : (machine ι τ π η).Run s₂ as₂ tr₂ s) :
    WF s ∧ reported s sid = true ∧ ∀ q, (s.threads q).unheard sid ≠ [] →
      (s₂.threads q).unheard sid ≠ [] ∧ .publishReturn q ∉ as₂ := by
  induction h with
  | nil => exact ⟨wf, hflag, fun q hq => ⟨hq, List.not_mem_nil⟩⟩
  | @snoc as₂ tr₂ evs s s' a hrun _ hstep ih =>
      obtain ⟨hwf, hflag, hsince⟩ := ih
      have ht := step_transition hstep
      have hr := step_reportStep hstep hwf sid
      have hback : ∀ q, (s'.threads q).unheard sid ≠ [] → (s.threads q).unheard sid ≠ [] := by
        intro q hq
        cases hr with
        | quiet _ _ hun => exact hun q ▸ hq
        | reject _ _ hnot => rw [hflag] at hnot; cases hnot
        | @report p c handler _ _ hthreads hcons =>
            by_cases hqp : q = p
            · rw [hqp, hcons]
              exact List.cons_ne_nil _ _
            · rwa [hthreads, Function.update_of_ne hqp] at hq
      refine ⟨ht.wf hwf, by rw [(ht.subsStep hwf).reported_eq sid, hflag, Bool.true_or], ?_⟩
      intro q hq
      obtain ⟨hold, hnot⟩ := hsince q (hback q hq)
      refine ⟨hold, fun hmem => ?_⟩
      rcases List.mem_append.mp hmem with hmem | hmem
      · exact hnot hmem
      -- a publish returns with no report left
      · obtain rfl := List.mem_singleton.mp hmem
        obtain ⟨f, hf, hnil⟩ := publishReturn_inv hstep
        exact hback q hq (by simp [hf, Call.unheard, hnil])

/-- A handler is invoked for `sid` at most once, and a publish that rejects `sid` while
    one is installed has been heard of as soon as the publishes that have been in the
    lock section by then have returned. -/
structure NeverSilent (sid : SubId) (as : List (BusAction ι τ π η)) : Prop where
  once : (invocations sid as).length ≤ 1
  heard : ∀ as₁ p as₂ tr₁ s₁ s₂ evs m, as = as₁ ++ .publishLock p :: as₂ →
    (machine ι τ π η).Run init as₁ tr₁ s₁ → step s₁ (.publishLock p) = some (s₂, evs) →
    .sub sid (.rejected m) ∈ evs → s₁.mismatchHandler.isSome = true →
    (∀ q f, s₂.threads q = .fanout f → .publishReturn q ∈ as₂) → invocations sid as ≠ []

/-- Mismatches are not silent if a handler is installed when a subscription is rejected
    for the first time. -/
theorem never_silent [Fintype ι] (sid : SubId)
    (h : (machine ι τ π η).RunIf (fun _ => HandlerFirst sid) init as tr s) :
    NeverSilent sid as := by
  refine ⟨length_invocations_le_one h.toRun sid, ?_⟩
  intro as₁ p as₂ tr₁ s₁ s₂ evs m has hrun₁ hstep hrej _ hdone
  have has' : as = as₁ ++ [.publishLock p] ++ as₂ := by simp [has]
  obtain ⟨tr₂, tr₃, s₂', hrun₂, hrun₃, -⟩ := Machine.RunIf.split (has' ▸ h)
  have hstep' : (machine ι τ π η).step s₁ (.publishLock p) = some (s₂, evs) := hstep
  obtain ⟨rfl, -⟩ := (hrun₁.snoc hstep').unique hrun₂.toRun
  -- the flag is set, so the report was made or is on its way
  have hacc := accounted_of_run bare_empty hrun₁
  have hwf := (step_transition hstep).wf hacc.wf
  have hflag : reported s₂' sid = true := by
    rw [((step_transition hstep).subsStep hacc.wf).reported_eq sid]
    have hany : (ledger sid evs).any SubEvent.isRejected = true :=
      List.any_eq_true.mpr ⟨_, mem_ledger.mpr hrej, rfl⟩
    rw [hany, Bool.or_true]
  obtain ⟨-, hflag', hsince⟩ := unheard_since hwf hflag hrun₃
  have hbal := reports_balance h.toRun sid
  have hmade := (heard_of_run h).made
  have hnone : onTheirWay s sid = 0 := by
    refine Finset.sum_eq_zero fun q _ => List.length_eq_zero_iff.mpr ?_
    by_contra hq
    obtain ⟨hold, hnot⟩ := hsince q hq
    cases hthread : s₂'.threads q with
    | fanout f => exact hnot (hdone q f hthread)
    | _ => exact hold (by rw [hthread]; rfl)
  rw [hnone, hflag'] at hbal
  intro hnil
  rw [hnil] at hmade
  simp at hbal hmade
  omega

/-- A handler is installed, and a best-effort publish is rejected by a reliable
    subscription. -/
theorem never_silent_installed :
    ∃ as : List (BusAction Unit Unit Nat Nat), NeverSilent 5 as ∧
      invocations 5 as = [.reported () "scan" .reliability 3] := by
  have hrun := Machine.RunIf.of_isSome (machine Unit Unit Nat Nat) (fun _ => HandlerFirst 5) init
    [.setQosMismatchHandler (some 3), .subscribe () "scan" () .command 5, .spawn () 5,
      .assign () 5, .publish () "scan" () .sensorData 7 0, .publishLock (), .report () 5,
      .publishReturn ()] (by decide)
  exact ⟨_, never_silent 5 hrun, by decide⟩

/-- The first rejection comes before a handler is installed. The second publish is
    rejected while it is, and nobody is told. -/
theorem silent_after_first_rejection :
    ∃ as tr s, (machine Unit Unit Nat Nat).Run init as tr s ∧ ¬ NeverSilent 5 as := by
  have hrun₁ := Machine.Run.of_isSome (machine Unit Unit Nat Nat) init
    [.subscribe () "scan" () .command 5, .spawn () 5, .assign () 5,
      .publish () "scan" () .sensorData 7 0, .publishLock (), .report () 5, .publishReturn (),
      .setQosMismatchHandler (some 3), .publish () "scan" () .sensorData 8 0] (by decide)
  have hstep := hrun₁.step_of_isSome (.publishLock ()) (by decide)
  have hrun₂ := hrun₁.snoc hstep
  have hreturn := hrun₂.step_of_isSome (.publishReturn ()) (by decide)
  refine ⟨_, _, _, hrun₂.snoc hreturn, fun hsilent => ?_⟩
  refine hsilent.heard _ () [.publishReturn ()] _ _ _ _ .reliability (by simp) hrun₁ hstep
    (by decide) (by decide) ?_ (by decide)
  intro q f _
  exact List.mem_cons_self

end Runs

end TopicBus

end Rdb
