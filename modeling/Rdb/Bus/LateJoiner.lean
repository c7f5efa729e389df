-- SUMMARY: The order in which a late joiner sees history and news, and the interleaving that breaks it.
import Mathlib.Data.List.Sort
import Rdb.Bus.History

/-!
# Late joiners

`subscribe` registers the subscription and takes the backlog in one lock section, and
pushes the backlog afterwards. A publish that comes in between pushes its envelope
first. The callback sees history before news, in the order of the sequence numbers,
in runs without such a push.
-/

namespace Rdb

variable {ι τ π η : Type*}

/-- The call is a publish on `topic`. -/
def Call.publishesOn (topic : String) : Call τ π η → Bool
  | .publishing t _ _ _ _ => t == topic
  | .fanout f => f.topic == topic
  | _ => false

/-- The call still has backlog to push into the queue of `sid`. -/
def Call.hasBacklog (sid : SubId) : Call τ π η → Bool
  | .backlog i (_ :: _) => i == sid
  | _ => false

namespace TopicBus

/-- The guard on publishes: those on one topic do not overlap. -/
def NonOverlapping (s : BusState ι τ π η) : BusAction ι τ π η → Prop
  | .publish _ topic _ _ _ _ => ∀ q, (s.threads q).publishesOn topic = false
  | _ => True

/-- The guard on live pushes: the backlog of the subscription is pushed. -/
def HistoryFirst (s : BusState ι τ π η) : BusAction ι τ π η → Prop
  | .push _ sid _ | .pushWake _ sid _ => ∀ q, (s.threads q).hasBacklog sid = false
  | _ => True

instance [Fintype ι] (s : BusState ι τ π η) :
    (a : BusAction ι τ π η) → Decidable (NonOverlapping s a)
  | .publish _ topic _ _ _ _ =>
    inferInstanceAs (Decidable (∀ q, (s.threads q).publishesOn topic = false))
  | .advertise .. | .setQosMismatchHandler .. | .setReliableTimeout .. | .subscribe ..
  | .pushBacklog .. | .spawn .. | .assign .. | .publishLock .. | .report .. | .push ..
  | .pushWake .. | .publishReturn .. | .unsubscribe .. | .shutdown .. | .stopClose ..
  | .stopJoinable .. | .stopJoin .. | .stopReturn .. | .workerPop .. | .workerDeliver ..
  | .workerFinish .. => .isTrue trivial

instance [Fintype ι] (s : BusState ι τ π η) :
    (a : BusAction ι τ π η) → Decidable (HistoryFirst s a)
  | .push _ sid _ | .pushWake _ sid _ =>
    inferInstanceAs (Decidable (∀ q, (s.threads q).hasBacklog sid = false))
  | .advertise .. | .setQosMismatchHandler .. | .setReliableTimeout .. | .subscribe ..
  | .pushBacklog .. | .spawn .. | .assign .. | .publish .. | .publishLock .. | .report ..
  | .publishReturn .. | .unsubscribe .. | .shutdown .. | .stopClose .. | .stopJoinable ..
  | .stopJoin .. | .stopReturn .. | .workerPop .. | .workerDeliver .. | .workerFinish .. =>
    .isTrue trivial

/-! ## One publish at a time -/

section Exclusive

variable [DecidableEq ι] {s s' : BusState ι τ π η} {a : BusAction ι τ π η}
  {evs : List (BusEvent ι π η)}

/-- At most one thread publishes on each topic. -/
def Exclusive (s : BusState ι τ π η) : Prop :=
  ∀ {topic p q}, (s.threads p).publishesOn topic = true → (s.threads q).publishesOn topic = true →
    p = q

/-- A thread that does not start a publish publishes on no new topic. -/
theorem Exclusive.update {p : ι} {c : Call τ π η} (h : Exclusive s)
    (hthreads : s'.threads = Function.update s.threads p c)
    (hc : ∀ {topic}, c.publishesOn topic = true → (s.threads p).publishesOn topic = true ∨
      ∀ q, (s.threads q).publishesOn topic = false) : Exclusive s' := by
  intro topic q r hq hr
  rw [hthreads] at hq hr
  refine unique_update (fun c topic => Call.publishesOn topic c = true) h ?_ hq hr
  exact fun hc' => (hc hc').imp_right fun h' q => by rw [h' q]; exact Bool.false_ne_true

theorem Transition.exclusive (ht : Transition s a evs s') (h : Exclusive s)
    (hC : NonOverlapping s a) : Exclusive s' := by
  cases ht with
  | advertise | setHandler | setTimeout | conflict | worker => exact h
  | subscribe | pushBacklog | spawn | assign | publishFailed | publishReturn | unsubscribe
  | shutdown | stopClose | stopJoinable | stopSkip | stopJoin | stopReturn =>
      exact h.update rfl fun hc => by cases hc
  | publish hp =>
      refine h.update rfl fun {topic} hc => .inr ?_
      rw [← beq_iff_eq.mp hc]
      exact hC
  | published hp =>
      refine h.update rfl fun {topic} hc => .inl ?_
      rw [hp]
      exact hc
  | report hp => exact h.update rfl fun hc => .inl (by rw [hp]; exact hc)
  | pushSleep _ hp | pushReturn _ hp => exact h.update rfl fun hc => .inl (by rw [hp]; exact hc)

end Exclusive

/-! ## Pushes in order -/

section Order

variable [Fintype ι] [DecidableEq ι] {s s' : BusState ι τ π η} {a : BusAction ι τ π η}
  {evs tr : List (BusEvent ι π η)} {sid : SubId}

/-- The pushes into the queue of `sid` have been made in the order of the sequence
    numbers, and those to come are later still. -/
structure Orderly (sid : SubId) (tr : List (BusEvent ι π η)) (s : BusState ι τ π η) : Prop where
  sorted : (Ledger.attempts (ledger sid tr)).Pairwise fun x y => x.2.seq < y.2.seq
  ahead : ∀ {p x y}, x ∈ Ledger.attempts (ledger sid tr) → y ∈ (s.threads p).pending sid →
    x.2.seq < y.2.seq
  pending : ∀ p, ((s.threads p).pending sid).Sublist (inbox sid tr)

omit [Fintype ι] [DecidableEq ι] in
theorem orderly_init : Orderly sid [] (init : BusState ι τ π η) :=
  ⟨.nil, (fun h => by cases h), fun _ => .slnil⟩

omit [DecidableEq ι] in
theorem Sound.lt_of_history_of_news (h : Sound tr s) {x y : Envelope π}
    (hx : (false, x) ∈ inbox sid tr) (hy : (true, y) ∈ inbox sid tr) : x.seq < y.seq := by
  have hboth := (h.inbox_increasing sid).and (h.inboxes sid).ordered
  rcases eq_or_rel_of_pairwise hboth hx hy with heq | hlt | hlt
  · cases heq
  · exact hlt.1
  · cases hlt.2 rfl

omit [Fintype ι] in
theorem PendingStep.pending_sublist (hp : PendingStep sid s a evs s')
    (h : ∀ p, ((s.threads p).pending sid).Sublist (inbox sid tr)) (q : ι) :
    ((s'.threads q).pending sid).Sublist (inbox sid (tr ++ evs)) := by
  rw [inbox_append]
  rcases hp.balance with ⟨hthreads, -, -⟩ | ⟨p, c, hthreads, heq⟩
  · rw [hthreads]
    exact (h q).trans (List.sublist_append_left _ _)
  · rw [hthreads]
    by_cases hq : q = p
    · subst hq
      rw [Function.update_self]
      refine (List.sublist_append_right (Ledger.attempts (ledger sid evs)) _).trans ?_
      rw [← heq]
      exact (h q).append (.refl _)
    · rw [Function.update_of_ne hq]
      exact (h q).trans (List.sublist_append_left _ _)

/-- A push of history comes before everything that is still pending. -/
theorem lt_of_pending_of_history (hs : Sound tr s) (hpend : ∀ p, ((s.threads p).pending sid).Sublist
      (inbox sid tr)) {p q : ι} {env : Envelope π} {rest : List (Envelope π)}
    (hp : s.threads p = .backlog sid (env :: rest)) {y : Bool × Envelope π}
    (hy : y ∈ (Function.update s.threads p (.backlog sid rest) q).pending sid) :
    env.seq < y.2.seq := by
  have hlist : (s.threads p).pending sid = (false, env) :: rest.map (Prod.mk false) := by
    simp [hp, Call.pending]
  by_cases hq : q = p
  · subst hq
    have hsorted := (hs.inbox_increasing sid).sublist (hpend q)
    rw [hlist, List.pairwise_cons] at hsorted
    rw [Function.update_self] at hy
    exact hsorted.1 y (by simpa [Call.pending] using hy)
  · rw [Function.update_of_ne hq] at hy
    rcases Call.mem_pending hy with ⟨g, hg, hmem, rfl⟩ | ⟨rest', hrest, env', -, rfl⟩
    · exact hs.lt_of_history_of_news ((hpend p).subset (by simp [hlist])) ((hpend q).subset hy)
    · exact absurd (hs.accounted.wf.owner_unique (by rw [hrest]; rfl) (by rw [hp]; rfl)) hq

omit [Fintype ι] [DecidableEq ι] in
/-- With one publish at a time and the backlog pushed, a live push is the only one
    that is pending. -/
theorem pending_eq_nil_of_live (wf : WF s) (hx : Exclusive s) {p q : ι} {f : Fanout π η}
    (hp : s.threads p = .fanout f) (hmem : sid ∈ f.targets)
    (hC : ∀ q, (s.threads q).hasBacklog sid = false) (hq : q ≠ p) :
    (s.threads q).pending sid = [] := by
  refine List.eq_nil_iff_forall_not_mem.mpr fun y hy => ?_
  rcases Call.mem_pending hy with ⟨g, hg, hmem', rfl⟩ | ⟨rest, hrest, env, henv, rfl⟩
  · obtain ⟨sub, hsub, htopic⟩ := (wf.targets hp).2 sid hmem
    obtain ⟨sub', hsub', htopic'⟩ := (wf.targets hg).2 sid hmem'
    cases Option.some.inj (hsub.symm.trans hsub')
    refine hq (@hx f.topic q p ?_ ?_)
    · simp [hg, Call.publishesOn, ← htopic, htopic']
    · simp [hp, Call.publishesOn]
  · have hnone := hC q
    cases rest with
    | nil => cases henv
    | cons env' rest => simp [hrest, Call.hasBacklog] at hnone

omit [Fintype ι] [DecidableEq ι] in
/-- A push that was pending keeps the order. -/
theorem Orderly.sorted_snoc (h : Orderly sid tr s) {p : ι} {x : Bool × Envelope π}
    (hx : x ∈ (s.threads p).pending sid)
    (hatt : Ledger.attempts (ledger sid evs) = [x]) :
    (Ledger.attempts (ledger sid (tr ++ evs))).Pairwise fun x y => x.2.seq < y.2.seq := by
  rw [ledger_append, Ledger.attempts_append, hatt, List.pairwise_append]
  refine ⟨h.sorted, List.pairwise_singleton _ _, fun y hy z hz => ?_⟩
  rw [List.mem_singleton.mp hz]
  exact h.ahead hy hx

theorem Orderly.step (h : Orderly sid tr s) (hs : Sound tr s) (hs' : Sound (tr ++ evs) s')
    (hx : Exclusive s) (hp : PendingStep sid s a evs s') (hC : HistoryFirst s a) :
    Orderly sid (tr ++ evs) s' := by
  have hpending := hp.pending_sublist h.pending
  have hinc := hs'.inbox_increasing sid
  rw [inbox_append, List.pairwise_append] at hinc
  cases hp with
  | quiet hthreads hatt hinbox =>
      have heq : Ledger.attempts (ledger sid (tr ++ evs)) = Ledger.attempts (ledger sid tr) := by
        simp [hatt]
      exact ⟨heq ▸ h.sorted, heq ▸ hthreads ▸ h.ahead, hpending⟩
  | @offer p c hthreads hatt hc =>
      have heq : Ledger.attempts (ledger sid (tr ++ evs)) = Ledger.attempts (ledger sid tr) := by
        simp [hatt]
      refine ⟨heq ▸ h.sorted, fun {q x y} hx hy => ?_, hpending⟩
      rw [heq] at hx
      rw [hthreads] at hy
      by_cases hq : q = p
      · subst hq
        rw [Function.update_self, ← hc, List.mem_append] at hy
        rcases hy with hy | hy
        · exact h.ahead hx hy
        · exact hinc.2.2 x (hs.mem_inbox_of_attempt hx) y hy
      · rw [Function.update_of_ne hq] at hy
        exact h.ahead hx hy
  | @history p env rest hcall hthreads hatt hinbox =>
      have hmem : (false, env) ∈ (s.threads p).pending sid := by simp [hcall, Call.pending]
      refine ⟨h.sorted_snoc hmem hatt, fun {q x y} hx hy => ?_, hpending⟩
      rw [hthreads] at hy
      rw [ledger_append, Ledger.attempts_append, hatt, List.mem_append, List.mem_singleton] at hx
      rcases hx with hx | rfl
      · by_cases hq : q = p
        · subst hq
          rw [Function.update_self] at hy
          refine h.ahead hx (y := y) (p := q) ?_
          rw [hcall]
          simp only [Call.pending, if_true, List.map_cons] at hy ⊢
          exact List.mem_cons_of_mem _ hy
        · rw [Function.update_of_ne hq] at hy
          exact h.ahead hx hy
      · exact lt_of_pending_of_history hs h.pending hcall hy
  | @live p f c now ha hcall htarget hc hthreads hatt hinbox =>
      have hmem : (true, f.env) ∈ (s.threads p).pending sid := by
        simp [hcall, Call.pending, htarget]
      have hC' : ∀ q, (s.threads q).hasBacklog sid = false := by
        rcases ha with rfl | rfl <;> exact hC
      refine ⟨h.sorted_snoc hmem hatt, fun {q x y} _ hy => ?_, hpending⟩
      -- nothing is pending after it
      rw [hthreads] at hy
      by_cases hq : q = p
      · subst hq
        rw [Function.update_self, hc] at hy
        cases hy
      · rw [Function.update_of_ne hq,
          pending_eq_nil_of_live hs.accounted.wf hx hcall htarget hC' hq] at hy
        cases hy

end Order

/-! ## What the callback sees -/

section Runs

variable [Fintype ι] [DecidableEq ι] [DecidableEq τ] {s : BusState ι τ π η}
  {as : List (BusAction ι τ π η)} {tr : List (BusEvent ι π η)}

/-- The callback has seen a part of the history and the news of `sid`, in order. -/
structure HistoryThenNews (sid : SubId) (tr : List (BusEvent ι π η)) : Prop where
  increasing : (Ledger.called (ledger sid tr)).Pairwise fun x y => x.seq < y.seq
  sublist : (Ledger.called (ledger sid tr)).Sublist ((inbox sid tr).map Prod.snd)
  historyFirst : (inbox sid tr).Pairwise fun x y => y.1 = false → x.1 = false

theorem orderly_of_run
    (h : (machine ι τ π η).RunIf (fun _ s a => NonOverlapping s a ∧ HistoryFirst s a) init as tr s)
    (sid : SubId) : Sound tr s ∧ Exclusive s ∧ Orderly sid tr s :=
  Machine.RunIf.invariant (I := fun tr s => Sound tr s ∧ Exclusive s ∧ Orderly sid tr s) h
    ⟨sound_init, (fun h => by cases h), orderly_init⟩
    fun ⟨hsound, hexcl, horder⟩ hC hstep => by
      have ht := step_transition hstep
      have hsound' := hsound.step ht
      exact ⟨hsound', ht.exclusive hexcl hC.1, horder.step hsound hsound' hexcl
        (ht.pendingStep hsound.accounted.wf sid) hC.2⟩

omit [DecidableEq ι] [DecidableEq τ] in
/-- Pushes in order are a part of the inbox, in its order. -/
theorem Orderly.attempts_sublist {sid : SubId} (h : Orderly sid tr s) (hs : Sound tr s) :
    (Ledger.attempts (ledger sid tr)).Sublist (inbox sid tr) := by
  have hanti : Std.Antisymm fun x y : Bool × Envelope π => x.2.seq < y.2.seq :=
    ⟨fun _ _ hlt hgt => absurd hlt (Nat.lt_asymm hgt)⟩
  have hle : (Ledger.attempts (ledger sid tr) : Multiset (Bool × Envelope π)) ≤ inbox sid tr := by
    rw [← hs.conserved sid]
    exact Multiset.le_add_right _ _
  exact List.sublist_of_subperm_of_pairwise (Multiset.coe_le.mp hle) h.sorted
    (hs.inbox_increasing sid)

/-- **History before news**, in every run in which publishes on one topic do not
    overlap and no live push gets ahead of a backlog. -/
theorem called_history_then_news
    (h : (machine ι τ π η).RunIf (fun _ s a => NonOverlapping s a ∧ HistoryFirst s a) init as tr s)
    (sid : SubId) : HistoryThenNews sid tr := by
  obtain ⟨hsound, -, horder⟩ := orderly_of_run h sid
  have hcalled : (Ledger.called (ledger sid tr)).Sublist
      ((Ledger.attempts (ledger sid tr)).map Prod.snd) := by
    cases hsub : s.subs sid with
    | none => rw [hsound.accounted.fresh hsub]; exact .slnil
    | some sub =>
        exact (hsound.accounted.old hsub).called_sublist.trans
          (Ledger.accepted_sublist_attempts _)
  have hsorted : ((Ledger.attempts (ledger sid tr)).map Prod.snd).Pairwise
      fun x y => x.seq < y.seq := List.pairwise_map.mpr horder.sorted
  exact ⟨hsorted.sublist hcalled, hcalled.trans ((horder.attempts_sublist hsound).map _),
    (hsound.inboxes sid).ordered⟩

/-- A late joiner that is done with its backlog before the next publish. -/
theorem called_history_then_news_in_turn :
    ∃ tr s, (machine (Fin 2) Unit Nat Unit).RunIf
        (fun _ s a => NonOverlapping s a ∧ HistoryFirst s a) init
        [.advertise "map" (), .publish 0 "map" () (.latched 4) 7 0, .publishLock 0,
          .publishReturn 0, .subscribe 1 "map" () (.latched 4) 5, .pushBacklog 1 5,
          .publish 0 "map" () (.latched 4) 8 0, .publishLock 0, .push 0 5 0, .spawn 1 5,
          .assign 1 5, .workerPop 5, .workerDeliver 5 1, .workerFinish 5, .workerPop 5,
          .workerDeliver 5 1] tr s ∧
      (Ledger.called (ledger 5 tr)).map Envelope.payload = [7, 8] ∧ HistoryThenNews 5 tr := by
  refine ⟨_, _, .of_isSome _ _ _ _ (by decide), by decide, ?_⟩
  exact called_history_then_news (.of_isSome _ _ _ _ _) 5

/-- Without the guard on live pushes, a publish between the lock section of
    `subscribe` and its first backlog push is delivered before the history. -/
theorem called_news_then_history :
    ¬ ∀ as tr s sid sub, (machine (Fin 2) Unit Nat Unit).RunIf
        (fun _ s a => NonOverlapping s a) init as tr s →
      s.subs sid = some sub → sub.qos.durability = .transientLocal → HistoryThenNews sid tr := by
  intro h
  have hrun := Machine.RunIf.of_isSome (machine (Fin 2) Unit Nat Unit)
    (fun _ s a => NonOverlapping s a) init
    [.advertise "map" (), .publish 0 "map" () (.latched 4) 7 0, .publishLock 0,
      .publishReturn 0, .subscribe 1 "map" () (.latched 4) 5,
      .publish 0 "map" () (.latched 4) 8 0, .publishLock 0, .push 0 5 0, .publishReturn 0,
      .pushBacklog 1 5, .spawn 1 5, .assign 1 5, .workerPop 5, .workerDeliver 5 1,
      .workerFinish 5, .workerPop 5, .workerDeliver 5 1] (by decide)
  exact absurd (h _ _ _ 5 _ hrun rfl rfl).increasing (by decide)

end Runs

end TopicBus

end Rdb
