-- SUMMARY: Publishes and their pushes: who was found registered, what was pushed, what publish returned, and exactly-once delivery.
import Mathlib.Algebra.GroupWithZero.Nat
import Rdb.Bus.Shutdown

/-!
# Delivery

The counters of the bus, its subscriptions and its queues live in different objects
and are updated under different locks. Here they are put together: every publish
that found a subscription registered is a push, a rejection or pending; what
`publish` returned is about its own pushes; and a reliable subscription gets each
publish that succeeded exactly once.
-/

namespace Rdb

variable {ι τ π η : Type*}

namespace BusEvent

/-- A publish left out a subscription. -/
def isRejected : BusEvent ι π η → Bool
  | .sub _ e => e.isRejected
  | _ => false

/-- The subscription that the event registers. -/
def made : BusEvent ι π η → Option SubId
  | .subscribed sid _ _ _ => some sid
  | _ => none

/-- The statuses of the pushes of the publish that `p` is at, after the event. -/
def note [DecidableEq ι] (p : ι) (statuses : List PushStatus) : BusEvent ι π η → List PushStatus
  | .published q _ _ _ _ _ => if q = p then [] else statuses
  | .sub _ (.pushed (some q) _ status _) => if q = p then statuses ++ [status] else statuses
  | _ => statuses

end BusEvent

namespace TopicBus

/-- The subscriptions ever made. -/
def made (tr : List (BusEvent ι π η)) : List SubId := tr.filterMap BusEvent.made

/-- The statuses of the pushes `p` has made since its publish took the lock. -/
def ownStatuses [DecidableEq ι] (p : ι) (tr : List (BusEvent ι π η)) : List PushStatus :=
  tr.foldl (BusEvent.note p) []

/-! ## Registered, and then? -/

section Found

variable [DecidableEq ι] {s s' : BusState ι τ π η} {a : BusAction ι τ π η}
  {evs tr : List (BusEvent ι π η)}

/-- A publish that finds `sid` registered picks it as a target or rejects it. -/
theorem Transition.found_eq (ht : Transition s a evs s') (wf : WF s) (sid : SubId) :
    evs.countP (BusEvent.foundRegistered sid) =
      (inbox sid evs).countP Prod.fst + (ledger sid evs).countP SubEvent.isRejected := by
  cases ht with
  | advertise | setHandler | setTimeout | conflict | publish | publishFailed | pushSleep
  | publishReturn | unsubscribe | shutdown | stopClose | stopJoinable | stopSkip | stopJoin
  | stopReturn | spawn | assign => rfl
  | @subscribe p topic type qos i entry =>
      show 0 = _ + 0
      by_cases h : i = sid <;>
        simp [inbox, BusEvent.offer, h, List.countP_map, Function.comp_def]
  | @pushBacklog p i | @pushReturn _ p f i =>
      by_cases h : i = sid <;>
        simp [BusEvent.foundRegistered, inbox, BusEvent.offer, ledger, BusEvent.about, h,
          SubEvent.isRejected]
  | @report p f i m =>
      obtain ⟨hinbox, hledger⟩ := readers_of_report (π := π) p f.topic m f.handler sid
      rw [hinbox, hledger, List.countP_map]
      cases f.handler <;> rfl
  | @worker _ i sub sub' levs hsub hstep =>
      have hsubs : ∀ e ∈ (levs.map (.sub i) : List (BusEvent ι π η)), ∃ sid l, e = .sub sid l := by
        simp
      obtain ⟨-, hinbox, hfound⟩ := readers_of_sub hsubs
      rw [hinbox, hfound]
      by_cases h : i = sid
      · subst h
        rw [ledger_map_self, (Ledger.attempts_of_byWorker _ hstep.byWorker).2]
        rfl
      · rw [ledger_map_of_ne h]
        rfl
  | @published p topic type qos payload now entry env m hp hlook htype henv hm =>
      have hentry := wf.topics _ _ hlook
      obtain ⟨-, hinbox, hfound, -⟩ := readers_of_published hm
        (.published p topic env qos entry.subs m.targets)
      have heq := hm.trans (matchAll_eq s _ hentry.nodup)
      have hledger : ledger sid (.published p topic env qos entry.subs m.targets :: m.events) =
          if sid ∈ entry.subs then (rejection s qos sid).toList.map fun r => .rejected r.2
          else [] := by
        rw [← ledger_rejections hentry.nodup s qos sid, heq]
        rfl
      rw [hinbox, hfound, hledger, heq]
      -- registered: compatible or rejected; not registered: neither
      by_cases hmem : sid ∈ entry.subs
      · obtain ⟨sub, hsub, -⟩ := hentry.own hmem
        by_cases hm : checkCompatible qos sub.qos = .none
        · simp [BusEvent.foundRegistered, inbox, BusEvent.offer, matched, hmem, rejection, hsub, hm,
            isTarget]
        · simp [BusEvent.foundRegistered, inbox, BusEvent.offer, matched, hmem, rejection, hsub, hm,
            isTarget, SubEvent.isRejected]
      · simp [BusEvent.foundRegistered, inbox, BusEvent.offer, matched, hmem]

end Found

/-! ## The mismatch counter -/

section Mismatches

variable [DecidableEq ι] {s s' : BusState ι τ π η} {a : BusAction ι τ π η}
  {evs tr : List (BusEvent ι π η)}

/-- The bus counts every rejection. -/
theorem Transition.qosMismatches_eq (ht : Transition s a evs s') (wf : WF s) :
    s'.qosMismatches = s.qosMismatches + evs.countP BusEvent.isRejected := by
  cases ht with
  | @report p f i m =>
      rw [List.countP_map]
      cases f.handler <;> rfl
  | worker hsub hstep =>
      rw [List.countP_map]
      show s.qosMismatches = s.qosMismatches + List.countP SubEvent.isRejected _
      rw [(Ledger.attempts_of_byWorker _ hstep.byWorker).2]
      rfl
  | published hp hlook htype henv hm =>
      rw [matchAll_eq s _ (wf.topics _ _ hlook).nodup] at hm
      subst hm
      simp [matched, BusEvent.isRejected, SubEvent.isRejected, List.countP_map,
        Function.comp_def]
  | _ => rfl

omit [DecidableEq ι] in
theorem isSome_update {sid : SubId} {sub : Subscription τ π} (hsub : s.subs sid = some sub)
    (sub' : Subscription τ π) (i : SubId) :
    (Function.update s.subs sid (some sub') i).isSome = (s.subs i).isSome := by
  by_cases h : i = sid
  · subst h; simp [hsub]
  · simp [h]

/-- What a step registers did not exist before. -/
theorem Transition.made_eq (ht : Transition s a evs s') (wf : WF s) :
    (made evs = [] ∧ ∀ i, (s'.subs i).isSome = (s.subs i).isSome) ∨
    ∃ sid, made evs = [sid] ∧ s.subs sid = none ∧
      ∀ i, (s'.subs i).isSome = true ↔ i = sid ∨ (s.subs i).isSome = true := by
  cases ht with
  | @subscribe _ _ _ _ sid _ _ hsid =>
      refine .inr ⟨sid, rfl, hsid, fun i => ?_⟩
      by_cases h : i = sid
      · subst h; simp
      · simp [h]
  | report => exact .inl ⟨by simp [made, BusEvent.made], fun _ => rfl⟩
  | published hp hlook htype henv hm =>
      refine .inl ⟨?_, fun i => ?_⟩
      · refine List.filterMap_eq_nil_iff.mpr fun e he => ?_
        rcases mem_published hm he with rfl | ⟨_, _, rfl⟩
        · rfl
        · rfl
      · rw [hm, matchAll_eq s _ (wf.topics _ _ hlook).nodup]
        simp only [matched]
        split <;> simp
  | pushBacklog _ hsub | spawn _ hsub | assign _ hsub | pushReturn _ _ _ hsub | stopClose _ hsub
  | stopJoin _ hsub => exact .inl ⟨rfl, isSome_update hsub _⟩
  | worker hsub => exact .inl ⟨by simp [made, BusEvent.made], isSome_update hsub _⟩
  | _ => exact .inl ⟨rfl, fun _ => rfl⟩

/-- The subscriptions made are those that have a record, each once, and the bus
    counts their rejections. -/
structure MadeOk (tr : List (BusEvent ι π η)) (s : BusState ι τ π η) : Prop where
  nodup : (made tr).Nodup
  mem_iff : ∀ i, i ∈ made tr ↔ (s.subs i).isSome = true
  qosMismatches_eq : s.qosMismatches = tr.countP BusEvent.isRejected

theorem MadeOk.step (h : MadeOk tr s) (wf : WF s) (ht : Transition s a evs s') :
    MadeOk (tr ++ evs) s' := by
  have happ : made (tr ++ evs) = made tr ++ made evs := List.filterMap_append ..
  have hcount : s'.qosMismatches = (tr ++ evs).countP BusEvent.isRejected := by
    rw [ht.qosMismatches_eq wf, h.qosMismatches_eq, List.countP_append]
  rcases ht.made_eq wf with ⟨hnil, hsome⟩ | ⟨sid, hone, hnone, hsome⟩
  · rw [hnil, List.append_nil] at happ
    exact ⟨happ ▸ h.nodup, fun i => by rw [happ, h.mem_iff, hsome], hcount⟩
  · have hnot : sid ∉ made tr := by rw [h.mem_iff, hnone]; simp
    refine ⟨?_, fun i => ?_, hcount⟩
    · rw [happ, hone]
      exact List.nodup_append.mpr ⟨h.nodup, by simp, fun i hi j hj heq => by
        rw [List.mem_singleton.mp hj] at heq
        exact hnot (heq ▸ hi)⟩
    · rw [happ, hone, List.mem_append, h.mem_iff, hsome, List.mem_singleton, or_comm]

omit [DecidableEq ι] in
theorem sum_map_ite_of_mem {sids : List SubId} (hnodup : sids.Nodup) {i : SubId} (hi : i ∈ sids)
    (n : Nat) : (sids.map fun sid => if sid = i then n else 0).sum = n := by
  induction hnodup with
  | nil => cases hi
  | @cons j sids hj _ ih =>
      rcases List.mem_cons.mp hi with rfl | hmem
      · have hzero : (sids.map fun sid => if sid = i then n else 0).sum = 0 :=
          List.sum_eq_zero fun x hx => by
            obtain ⟨sid, hsid, rfl⟩ := List.mem_map.mp hx
            exact if_neg (Ne.symm (hj sid hsid))
        simp [hzero]
      · have hne : j ≠ i := hj i hmem
        simp [hne, ih hmem]

omit [DecidableEq ι] in
/-- The rejections of a trace, subscription by subscription. -/
theorem countP_isRejected_eq_sum {sids : List SubId} (hnodup : sids.Nodup)
    (hmem : ∀ sid e, .sub sid e ∈ tr → sid ∈ sids) :
    tr.countP BusEvent.isRejected =
      (sids.map fun sid => (ledger sid tr).countP SubEvent.isRejected).sum := by
  induction tr with
  | nil => simp
  | cons e tr ih =>
      have ih := ih fun sid e' h => hmem sid e' (List.mem_cons_of_mem _ h)
      cases e with
      | sub i e =>
          have hi : i ∈ sids := hmem i e List.mem_cons_self
          have hcons : ∀ sid, (ledger sid (.sub i e :: tr)).countP SubEvent.isRejected =
              (ledger sid tr).countP SubEvent.isRejected +
                if sid = i then if e.isRejected then 1 else 0 else 0 := by
            intro sid
            by_cases h : sid = i
            · subst h
              simp [ledger, BusEvent.about, List.countP_cons]
            · simp [ledger, BusEvent.about, h, Ne.symm h]
          simp only [hcons, List.sum_map_add]
          rw [← ih, sum_map_ite_of_mem hnodup hi, List.countP_cons]
          rfl
      | _ => exact ih

end Mismatches

/-! ## What publish returned -/

section Fanout

variable [DecidableEq ι] {s s' : BusState ι τ π η} {a : BusAction ι τ π η}
  {evs tr : List (BusEvent ι π η)}

/-- What a step does to the fan-out of thread `p`. -/
inductive FanoutStep (p : ι) (s : BusState ι τ π η) (evs : List (BusEvent ι π η))
    (s' : BusState ι τ π η) : Prop where
  | keep : (∀ f', s'.threads p = .fanout f' → ∃ f, s.threads p = .fanout f ∧
        f'.topic = f.topic ∧ f'.env = f.env ∧ f'.targets = f.targets ∧
        f'.allAccepted = f.allAccepted) →
      (∀ statuses, evs.foldl (BusEvent.note p) statuses = statuses) →
      (∀ topic env ok, .returned p topic (some env) ok ∉ evs) → FanoutStep p s evs s'
  | start {f : Fanout π η} {x : Publication ι π} : s'.threads p = .fanout f →
      publications f.topic evs = [x] → x.env = f.env → x.targets = f.targets →
      f.allAccepted = true → (∀ statuses, evs.foldl (BusEvent.note p) statuses = []) →
      (∀ topic env ok, .returned p topic (some env) ok ∉ evs) → FanoutStep p s evs s'
  | push {f : Fanout π η} {sid : SubId} {rest : List SubId} {status : PushStatus}
      {evicted : Option (Envelope π)} : s.threads p = .fanout f → f.targets = sid :: rest →
      s'.threads p = .fanout { f with targets := rest, waiting := none
                                      allAccepted := f.allAccepted && status.accepted } →
      evs = [.sub sid (.pushed (some p) f.env status evicted)] → FanoutStep p s evs s'
  | finish {f : Fanout π η} : s.threads p = .fanout f → f.targets = [] →
      s'.threads p = .idle → evs = [.returned p f.topic (some f.env) f.allAccepted] →
      FanoutStep p s evs s'

theorem foldl_note_eq {p : ι} (h : ∀ e ∈ evs, ∀ statuses, BusEvent.note p statuses e = statuses)
    (statuses : List PushStatus) : evs.foldl (BusEvent.note p) statuses = statuses := by
  induction evs generalizing statuses with
  | nil => rfl
  | cons e evs ih =>
      rw [List.foldl_cons, h e List.mem_cons_self]
      exact ih (fun e' he' => h e' (List.mem_cons_of_mem _ he')) statuses

/-- The worker pushes nothing. -/
theorem note_of_byWorker {p : ι} {sid : SubId} {e : SubEvent ι π} (h : e.byWorker = true)
    (statuses : List PushStatus) :
    BusEvent.note p statuses (.sub sid e : BusEvent ι π η) = statuses := by
  cases e with
  | pushed => cases h
  | _ => rfl

theorem Transition.fanoutStep (ht : Transition s a evs s') (p : ι) :
    FanoutStep p s evs s' := by
  -- the step is one of another thread, or leaves `p` outside of a fan-out
  have hkeep : ∀ {q c}, s'.threads = Function.update s.threads q c →
      (q = p → ∀ f, c ≠ .fanout f) → ∀ f', s'.threads p = .fanout f' →
      ∃ f, s.threads p = .fanout f ∧ f'.topic = f.topic ∧ f'.env = f.env ∧
        f'.targets = f.targets ∧ f'.allAccepted = f.allAccepted := by
    intro q c hthreads hc f' hf'
    rw [hthreads] at hf'
    exact ⟨f', ThreadSum.of_update hf' fun hq => hc hq f', rfl, rfl, rfl, rfl⟩
  -- the step is one inside the fan-out of its thread
  have hinside : ∀ {q f₀ f₁}, s'.threads = Function.update s.threads q (.fanout f₁) →
      s.threads q = .fanout f₀ → f₁.topic = f₀.topic ∧ f₁.env = f₀.env ∧
        f₁.targets = f₀.targets ∧ f₁.allAccepted = f₀.allAccepted →
      ∀ f', s'.threads p = .fanout f' →
      ∃ f, s.threads p = .fanout f ∧ f'.topic = f.topic ∧ f'.env = f.env ∧
        f'.targets = f.targets ∧ f'.allAccepted = f.allAccepted := by
    intro q f₀ f₁ hthreads hq hsame f' hf'
    rw [hthreads] at hf'
    rcases ThreadSum.eq_or_of_update hf' with ⟨rfl, hcall⟩ | hold
    · cases hcall
      exact ⟨f₀, hq, hsame⟩
    · exact ⟨f', hold, rfl, rfl, rfl, rfl⟩
  cases ht with
  | advertise | setHandler | setTimeout | conflict =>
      exact .keep (fun f' hf' => ⟨f', hf', rfl, rfl, rfl, rfl⟩) (fun _ => rfl) (by simp)
  | @worker _ i sub sub' levs hsub hstep =>
      refine .keep (fun f' hf' => ⟨f', hf', rfl, rfl, rfl, rfl⟩) (foldl_note_eq ?_) (by simp)
      intro e he statuses
      obtain ⟨l, hl, rfl⟩ := List.mem_map.mp he
      exact note_of_byWorker (hstep.byWorker l hl) statuses
  | subscribe | pushBacklog | spawn | assign | publish | publishFailed | unsubscribe | shutdown
  | stopClose | stopJoinable | stopSkip | stopJoin | stopReturn =>
      exact .keep (hkeep rfl fun _ _ h => by cases h) (fun _ => rfl) (by simp)
  | @published q topic type qos payload now entry env m hp hlook htype henv hm =>
      have hnote : ∀ statuses, m.events.foldl (BusEvent.note p) statuses = statuses := by
        refine foldl_note_eq fun e he statuses => ?_
        rw [hm] at he
        obtain ⟨_, _, rfl⟩ := matchAll_events s qos entry.subs e he
        rfl
      have hreturned : ∀ t x ok, .returned p t (some x) ok ∉
          .published q topic env qos entry.subs m.targets :: m.events := by
        intro t x ok hmem
        rcases mem_published hm hmem with heq | ⟨_, _, heq⟩
        · cases heq
        · cases heq
      by_cases hq : q = p
      · subst hq
        refine .start (x := ⟨q, env, qos, entry.subs, m.targets⟩) (Function.update_self ..) ?_
          rfl rfl rfl ?_ hreturned
        · rw [(readers_of_published hm _).1 topic]
          simp [publications, BusEvent.publication]
        · simp [BusEvent.note, hnote]
      · refine .keep (hkeep rfl fun h => absurd h hq) ?_ hreturned
        simp [BusEvent.note, hq, hnote]
  | @report q f i m rest hp hm =>
      refine .keep (hinside rfl hp ⟨rfl, rfl, rfl, rfl⟩) (foldl_note_eq ?_) (by simp)
      intro e he statuses
      obtain ⟨h, -, rfl⟩ := List.mem_map.mp he
      rfl
  | @pushSleep _ q f i rest sub deadline now ha hp hf hsub =>
      exact .keep (hinside rfl hp ⟨rfl, rfl, rfl, rfl⟩) (fun _ => rfl) (by simp)
  | @pushReturn _ q f i rest sub now queue status evicted ha hp hf hsub heff =>
      by_cases hq : q = p
      · subst hq
        exact .push hp hf (Function.update_self ..) rfl
      · refine .keep (hkeep rfl fun h => absurd h hq) ?_ (by simp)
        simp [BusEvent.note, hq]
  | @publishReturn q f hp hf =>
      by_cases hq : q = p
      · subst hq
        exact .finish hp hf (Function.update_self ..) rfl
      · refine .keep (hkeep rfl fun h => absurd h hq) (fun _ => rfl) ?_
        simp [Ne.symm hq]

/-- What the fan-out of `p` and the publishes `p` has returned from know of their
    pushes. -/
structure FanoutOk (p : ι) (tr : List (BusEvent ι π η)) (s : BusState ι τ π η) : Prop where
  allAccepted_eq : ∀ f, s.threads p = .fanout f →
    f.allAccepted = (ownStatuses p tr).all PushStatus.accepted
  /-- every target is still to be pushed to or has the envelope, unless a push failed -/
  targets : ∀ f, s.threads p = .fanout f → ∃ x ∈ publications f.topic tr, x.env = f.env ∧
    ∀ sid ∈ x.targets, sid ∈ f.targets ∨ f.allAccepted = false ∨
      f.env ∈ Ledger.accepted (ledger sid tr)
  returned_true : ∀ topic env, .returned p topic (some env) true ∈ tr →
    ∃ x ∈ publications topic tr, x.env = env ∧
      ∀ sid ∈ x.targets, env ∈ Ledger.accepted (ledger sid tr)
  returned_eq : ∀ tr₁ tr₂ topic env ok, tr = tr₁ ++ .returned p topic (some env) ok :: tr₂ →
    ok = (ownStatuses p tr₁).all PushStatus.accepted

omit [DecidableEq ι] in
theorem mem_accepted_append {sid : SubId} {env : Envelope π} (evs : List (BusEvent ι π η))
    (h : env ∈ Ledger.accepted (ledger sid tr)) :
    env ∈ Ledger.accepted (ledger sid (tr ++ evs)) := by
  rw [ledger_append, Ledger.accepted_append]
  exact List.mem_append_left _ h

omit [DecidableEq ι] in
theorem mem_publications_append {topic : String} {x : Publication ι π}
    (evs : List (BusEvent ι π η)) (h : x ∈ publications topic tr) :
    x ∈ publications topic (tr ++ evs) := by
  rw [publications_append]
  exact List.mem_append_left _ h

theorem ownStatuses_append (p : ι) :
    ownStatuses p (tr ++ evs) = evs.foldl (BusEvent.note p) (ownStatuses p tr) :=
  List.foldl_append ..

omit [DecidableEq ι] in
/-- What `p` has returned from stays so, and a step in which it returns adds one. -/
theorem returned_true_append {p : ι}
    (h : ∀ topic env, .returned p topic (some env) true ∈ tr → ∃ x ∈ publications topic tr,
      x.env = env ∧ ∀ sid ∈ x.targets, env ∈ Ledger.accepted (ledger sid tr))
    {topic : String} {env : Envelope π} (hmem : .returned p topic (some env) true ∈ tr) :
    ∃ x ∈ publications topic (tr ++ evs), x.env = env ∧
      ∀ sid ∈ x.targets, env ∈ Ledger.accepted (ledger sid (tr ++ evs)) := by
  obtain ⟨x, hx, henv, hall⟩ := h topic env hmem
  exact ⟨x, mem_publications_append evs hx, henv, fun sid hsid =>
    mem_accepted_append evs (hall sid hsid)⟩

/-- The step is none in which `p` returns from a publish. -/
theorem FanoutOk.returned_of_not_mem {p : ι} (h : FanoutOk p tr s)
    (hevs : ∀ topic env ok, .returned p topic (some env) ok ∉ evs) :
    (∀ topic env, .returned p topic (some env) true ∈ tr ++ evs →
      ∃ x ∈ publications topic (tr ++ evs), x.env = env ∧
        ∀ sid ∈ x.targets, env ∈ Ledger.accepted (ledger sid (tr ++ evs))) ∧
    ∀ tr₁ tr₂ topic env ok, tr ++ evs = tr₁ ++ .returned p topic (some env) ok :: tr₂ →
      ok = (ownStatuses p tr₁).all PushStatus.accepted := by
  refine ⟨fun topic env hmem => ?_, fun tr₁ tr₂ topic env ok hsplit => ?_⟩
  · rcases List.mem_append.mp hmem with hmem | hmem
    · exact returned_true_append h.returned_true hmem
    · exact absurd hmem (hevs _ _ _)
  · rcases split_of_append hsplit with ⟨v, htr, -⟩ | ⟨u, -, heq⟩
    · exact h.returned_eq _ _ _ _ _ htr
    · exact absurd (by rw [heq]; simp) (hevs topic env ok)

theorem FanoutOk.step {p : ι} (h : FanoutOk p tr s) (hs : FanoutStep p s evs s') :
    FanoutOk p (tr ++ evs) s' := by
  cases hs with
  | keep hthread hnote hevs =>
      obtain ⟨htrue, heq⟩ := h.returned_of_not_mem hevs
      refine ⟨fun f' hf' => ?_, fun f' hf' => ?_, htrue, heq⟩
      · obtain ⟨f, hf, -, -, -, hall⟩ := hthread f' hf'
        rw [hall, ownStatuses_append, hnote]
        exact h.allAccepted_eq f hf
      · obtain ⟨f, hf, htopic, henv, htargets, hall⟩ := hthread f' hf'
        obtain ⟨x, hx, hxenv, hsids⟩ := h.targets f hf
        rw [htopic, henv, htargets, hall]
        exact ⟨x, mem_publications_append evs hx, hxenv, fun sid hsid =>
          (hsids sid hsid).imp_right fun h => h.imp_right (mem_accepted_append evs)⟩
  | @start f x hf hpub hxenv htargets hall hnote hevs =>
      obtain ⟨htrue, heq⟩ := h.returned_of_not_mem hevs
      refine ⟨fun f' hf' => ?_, fun f' hf' => ?_, htrue, heq⟩
      · cases hf.symm.trans hf'
        rw [hall, ownStatuses_append, hnote]
        rfl
      · cases hf.symm.trans hf'
        -- all targets are still to be pushed to
        refine ⟨x, ?_, hxenv, fun sid hsid => .inl (htargets ▸ hsid)⟩
        rw [publications_append, hpub]
        exact List.mem_append_right _ (List.mem_singleton_self x)
  | @push f sid rest status evicted hf htargets hf' hevs =>
      have hnot : ∀ topic env ok, .returned p topic (some env) ok ∉ evs := by simp [hevs]
      obtain ⟨htrue, heq⟩ := h.returned_of_not_mem hnot
      subst hevs
      refine ⟨fun f'' hf'' => ?_, fun f'' hf'' => ?_, htrue, heq⟩
      · cases hf'.symm.trans hf''
        simp [ownStatuses_append, BusEvent.note, h.allAccepted_eq f hf]
      · cases hf'.symm.trans hf''
        obtain ⟨x, hx, hxenv, hsids⟩ := h.targets f hf
        refine ⟨x, mem_publications_append _ hx, hxenv, fun i hi => ?_⟩
        -- the target just pushed to has the envelope, or the publish has failed
        rcases hsids i hi with hin | hfailed | hacc
        · rw [htargets, List.mem_cons] at hin
          rcases hin with rfl | hin
          · cases hst : status.accepted
            · exact .inr (.inl (Bool.and_false _))
            · refine .inr (.inr ?_)
              simp [ledger, BusEvent.about, Ledger.accepted, SubEvent.accepts, hst]
          · exact .inl hin
        · exact .inr (.inl (by simp [hfailed]))
        · exact .inr (.inr (mem_accepted_append _ hacc))
  | @finish f hf htargets hidle hevs =>
      subst hevs
      refine ⟨fun f' hf' => ?_, fun f' hf' => ?_, fun topic env hmem => ?_,
        fun tr₁ tr₂ topic env ok hsplit => ?_⟩
      · rw [hidle] at hf'; cases hf'
      · rw [hidle] at hf'; cases hf'
      · rcases List.mem_append.mp hmem with hmem | hmem
        · exact returned_true_append h.returned_true hmem
        · rw [List.mem_singleton, BusEvent.returned.injEq] at hmem
          obtain ⟨-, rfl, henv, hall⟩ := hmem
          cases henv
          obtain ⟨x, hx, hxenv, hsids⟩ := h.targets f hf
          refine ⟨x, mem_publications_append _ hx, hxenv, fun sid hsid => ?_⟩
          -- no target is left and no push has failed
          rcases hsids sid hsid with hin | hfailed | hacc
          · rw [htargets] at hin; cases hin
          · rw [← hall] at hfailed; cases hfailed
          · exact mem_accepted_append _ hacc
      · rcases split_of_append hsplit with ⟨v, htr, -⟩ | ⟨u, rfl, hu⟩
        · exact h.returned_eq _ _ _ _ _ htr
        · cases u with
          | nil =>
              obtain ⟨heq, -⟩ := List.cons.inj hu
              rw [BusEvent.returned.injEq] at heq
              rw [← heq.2.2.2, List.append_nil]
              exact h.allAccepted_eq f hf
          | cons e u => simp at hu

end Fanout

/-! ## The subscriptions a publish found -/

section Targets

variable [DecidableEq ι] {s s' : BusState ι τ π η} {a : BusAction ι τ π η}
  {evs tr : List (BusEvent ι π η)}

/-- The publish found subscriptions of its topic, and picked the compatible ones. -/
def Picked (topic : String) (x : Publication ι π) (s : BusState ι τ π η) : Prop :=
  ∀ sid ∈ x.subs, ∃ sub, s.subs sid = some sub ∧ sub.topic = topic ∧
    (sid ∈ x.targets ↔ checkCompatible x.qos sub.qos = .none)

theorem Transition.picked (ht : Transition s a evs s') (wf : WF s) {topic : String}
    {x : Publication ι π} (hx : x ∈ publications topic evs) : Picked topic x s := by
  obtain ⟨type, payload, now, entry, -, hlook, -, -, hsubs, htargets⟩ := ht.publication_inv wf hx
  intro sid hsid
  rw [hsubs] at hsid
  obtain ⟨sub, hsub, htopic⟩ := (wf.topics _ _ hlook).own hsid
  refine ⟨sub, hsub, htopic, ?_⟩
  simp [htargets, hsid, isTarget, hsub]

omit [DecidableEq ι] in
theorem Picked.step {topic : String} {x : Publication ι π} (h : Picked topic x s)
    (hs : SubsStep s evs s') : Picked topic x s' := by
  intro sid hsid
  obtain ⟨sub, hsub, htopic, hiff⟩ := h sid hsid
  obtain ⟨sub', hsub', htopic', hqos⟩ := hs.topic_eq hsub
  exact ⟨sub', hsub', htopic'.trans htopic, hqos ▸ hiff⟩

end Targets

/-! ## Runs -/

section Runs

variable [Fintype ι] [DecidableEq ι] {s s' : BusState ι τ π η} {a : BusAction ι τ π η}
  {evs tr : List (BusEvent ι π η)} {as : List (BusAction ι τ π η)} {sid : SubId}
  {sub : Subscription τ π}

/-- What every run knows of its publishes. -/
structure Delivered (tr : List (BusEvent ι π η)) (s : BusState ι τ π η) : Prop where
  sound : Sound tr s
  madeOk : MadeOk tr s
  fanouts : ∀ p, FanoutOk p tr s
  picked : ∀ topic, ∀ x ∈ publications topic tr, Picked topic x s
  found : ∀ sid, tr.countP (BusEvent.foundRegistered sid) =
    (inbox sid tr).countP Prod.fst + (ledger sid tr).countP SubEvent.isRejected

theorem delivered_init : Delivered [] (init : BusState ι τ π η) where
  sound := sound_init
  madeOk := ⟨List.nodup_nil, fun i => by simp [made, init, ofTopics], rfl⟩
  fanouts p := ⟨(fun f h => by cases h), (fun f h => by cases h), (fun _ _ h => by cases h),
    fun _ _ _ _ _ h => by simp at h⟩
  picked topic x hx := by cases hx
  found sid := rfl

theorem Delivered.step (h : Delivered tr s) (ht : Transition s a evs s') :
    Delivered (tr ++ evs) s' where
  sound := h.sound.step ht
  madeOk := h.madeOk.step h.sound.accounted.wf ht
  fanouts p := (h.fanouts p).step (ht.fanoutStep p)
  picked topic x hx := by
    have wf := h.sound.accounted.wf
    rw [publications_append, List.mem_append] at hx
    rcases hx with hx | hx
    · exact (h.picked topic x hx).step (ht.subsStep wf)
    · exact (ht.picked wf hx).step (ht.subsStep wf)
  found sid := by
    rw [List.countP_append, h.found sid, ht.found_eq h.sound.accounted.wf sid, inbox_append,
      ledger_append, List.countP_append, List.countP_append]
    omega

theorem delivered_of_run [DecidableEq τ] (h : (machine ι τ π η).Run init as tr s) :
    Delivered tr s :=
  h.invariant delivered_init fun hI hstep => hI.step (step_transition hstep)

end Runs

/-! ## Accounting -/

section Accounting

variable [Fintype ι] [DecidableEq ι] {s : BusState ι τ π η} {tr : List (BusEvent ι π η)}
  {as : List (BusAction ι τ π η)} {sid : SubId} {sub : Subscription τ π}

/-- The live pushes into `sid` that running publishes still have to make. -/
def pendingLive (s : BusState ι τ π η) (sid : SubId) : Nat :=
  ∑ p, ((s.threads p).pending sid).countP Prod.fst

omit [DecidableEq ι] in
theorem countP_pendingTo (s : BusState ι τ π η) (sid : SubId) :
    (pendingTo s sid).countP (fun x => x.1 = true) = pendingLive s sid := by
  rw [pendingTo, pendingLive]
  rw [← Multiset.coe_countPAddMonoidHom, map_sum]
  refine Finset.sum_congr rfl fun p _ => ?_
  simp [Multiset.coe_countPAddMonoidHom, Multiset.coe_countP]

/-- Every publish that found `sid` registered is a push, a rejection or pending. -/
theorem Delivered.found_eq (h : Delivered tr s) (hsub : s.subs sid = some sub) :
    tr.countP (BusEvent.foundRegistered sid) =
      (ledger sid tr).countP SubEvent.liveAccepted + (ledger sid tr).countP SubEvent.liveFailed +
        sub.qosRejected + pendingLive s sid := by
  have hacc := h.sound.accounted.old hsub
  have hinbox : (inbox sid tr).countP Prod.fst =
      (Ledger.attempts (ledger sid tr)).countP Prod.fst + pendingLive s sid := by
    have hcount := congrArg (Multiset.countP fun x => x.1 = true) (h.sound.conserved sid)
    rw [Multiset.countP_add, countP_pendingTo] at hcount
    simpa [Multiset.coe_countP] using hcount.symm
  rw [h.found sid, hinbox, Ledger.countP_attempts _ hacc.status_ne, hacc.qosRejected_eq]
  omega

/-- The bus counts what its subscriptions count. -/
theorem Delivered.qosMismatches_eq (h : Delivered tr s) :
    s.qosMismatches =
      ((made tr).map fun sid => (s.subs sid).elim 0 Subscription.qosRejected).sum := by
  have hmem : ∀ sid e, .sub sid e ∈ tr → sid ∈ made tr := by
    intro sid e he
    rw [h.madeOk.mem_iff]
    cases hsub : s.subs sid with
    | none =>
        have hledger := mem_ledger.mpr he
        rw [h.sound.accounted.fresh hsub] at hledger
        cases hledger
    | some sub => rfl
  rw [h.madeOk.qosMismatches_eq, countP_isRejected_eq_sum h.madeOk.nodup hmem]
  refine congrArg List.sum (List.map_congr_left fun sid _ => ?_)
  cases hsub : s.subs sid with
  | none => rw [h.sound.accounted.fresh hsub]; rfl
  | some sub => exact ((h.sound.accounted.old hsub).qosRejected_eq).symm

omit [Fintype ι] in
/-- The statuses of a publish are those of pushes in the trace. -/
theorem mem_ownStatuses {p : ι} {status : PushStatus} (h : status ∈ ownStatuses p tr) :
    ∃ sid env evicted, .sub sid (.pushed (some p) env status evicted) ∈ tr := by
  induction tr using List.reverseRecOn with
  | nil => cases h
  | append_singleton tr e ih =>
      have hold : status ∈ ownStatuses p tr →
          ∃ sid env evicted, .sub sid (.pushed (some p) env status evicted) ∈ tr ++ [e] := by
        intro hmem
        obtain ⟨sid, env, evicted, hin⟩ := ih hmem
        exact ⟨sid, env, evicted, List.mem_append_left _ hin⟩
      rw [ownStatuses, List.foldl_append, List.foldl_cons, List.foldl_nil, ← ownStatuses] at h
      unfold BusEvent.note at h
      split at h
      · split at h
        · cases h
        · exact hold h
      · split at h
        · rename_i hq
          subst hq
          rcases List.mem_append.mp h with hmem | hmem
          · exact hold hmem
          · rw [List.mem_singleton] at hmem
            subst hmem
            exact ⟨_, _, _, List.mem_append_right _ (List.mem_singleton_self _)⟩
        · exact hold h
      · exact hold h

/-- A push of the bus that is not accepted is full or closed. -/
theorem Delivered.accepted_eq_false (h : Delivered tr s) {p : ι} {tr₁ tr₂ : List (BusEvent ι π η)}
    (htr : tr = tr₁ ++ tr₂) {status : PushStatus} (hmem : status ∈ ownStatuses p tr₁) :
    status.accepted = false ↔ status = .full ∨ status = .closed := by
  obtain ⟨sid, env, evicted, hin⟩ := mem_ownStatuses hmem
  have hledger : SubEvent.pushed (some p) env status evicted ∈ ledger sid tr := by
    rw [mem_ledger, htr]
    exact List.mem_append_left _ hin
  have hne : status ≠ .droppedNewest := by
    cases hsub : s.subs sid with
    | none => rw [h.sound.accounted.fresh hsub] at hledger; cases hledger
    | some sub => exact (h.sound.accounted.old hsub).status_ne hledger
  cases status <;> simp_all [PushStatus.accepted]

/-- **No message is lost silently.** Pushes that took effect are counted by the
    subscription or its queue; publishes that found the subscription are pushes,
    rejections or pending; the bus counts the rejections of all subscriptions; and
    `publish` returns `false` when one of its own pushes was not done. -/
theorem accounting [DecidableEq τ] (h : (machine ι τ π η).Run init as tr s) :
    (∀ sid sub, s.subs sid = some sub →
      (Ledger.accepted (ledger sid tr)).length = sub.delivered + sub.expired +
        sub.queue.dropped + sub.queue.size + sub.worker.held.length ∧
      tr.countP (BusEvent.foundRegistered sid) =
        (ledger sid tr).countP SubEvent.liveAccepted + (ledger sid tr).countP SubEvent.liveFailed +
          sub.qosRejected + pendingLive s sid) ∧
    s.qosMismatches =
      ((made tr).map fun sid => (s.subs sid).elim 0 Subscription.qosRejected).sum ∧
    ∀ p topic env ok tr₁ tr₂, tr = tr₁ ++ .returned p topic (some env) ok :: tr₂ →
      (ok = false ↔ ∃ status ∈ ownStatuses p tr₁, status = .full ∨ status = .closed) := by
  have hdel := delivered_of_run h
  refine ⟨fun sid sub hsub => ⟨?_, hdel.found_eq hsub⟩, hdel.qosMismatches_eq, ?_⟩
  · exact (hdel.sound.accounted.old hsub).length_accepted
  · intro p topic env ok tr₁ tr₂ htr
    rw [(hdel.fanouts p).returned_eq _ _ _ _ _ htr, List.all_eq_false]
    refine exists_congr fun status => and_congr_right fun hmem => ?_
    rw [Bool.not_eq_true, hdel.accepted_eq_false htr hmem]

/-- A publish that times out on a full queue. -/
theorem accounting_full :
    ∃ as tr s, (machine (Fin 2) Unit Nat Unit).Run init as tr s ∧
      ∃ tr₁, tr = tr₁ ++ [.returned 0 "map" (some ⟨8, 2, 0⟩) false] ∧
        ∃ status ∈ ownStatuses 0 tr₁, status = .full ∨ status = .closed := by
  have hrun := Machine.Run.of_isSome (machine (Fin 2) Unit Nat Unit) init
    [.subscribe 1 "map" () (.command 1) 5, .spawn 1 5, .assign 1 5,
      .publish 0 "map" () (.command 1) 7 0, .publishLock 0, .push 0 5 0, .publishReturn 0,
      .publish 0 "map" () (.command 1) 8 0, .publishLock 0, .push 0 5 0,
      .pushWake 0 5 100000000, .publishReturn 0] (by decide)
  refine ⟨_, _, _, hrun, [.subscribed 5 "map" (.command 1) [],
    .published 0 "map" ⟨7, 1, 0⟩ (.command 1) [5] [5],
    .sub 5 (.pushed (some 0) ⟨7, 1, 0⟩ .ok none), .returned 0 "map" (some ⟨7, 1, 0⟩) true,
    .published 0 "map" ⟨8, 2, 0⟩ (.command 1) [5] [5],
    .sub 5 (.pushed (some 0) ⟨8, 2, 0⟩ .full none)], by decide, ?_⟩
  exact ((accounting hrun).2.2 0 "map" ⟨8, 2, 0⟩ false _ [] (by decide)).mp rfl

end Accounting

/-! ## Exactly once -/

section ExactlyOnce

variable [Fintype ι] [DecidableEq ι] {s : BusState ι τ π η} {tr : List (BusEvent ι π η)}
  {as : List (BusAction ι τ π η)} {sid : SubId} {sub : Subscription τ π}

/-- Where a subscription can have an envelope that entered its queue. -/
def whereabouts (l : List (SubEvent ι π)) (sub : Subscription τ π) : List (Envelope π) :=
  Ledger.delivered l ++ Ledger.expired l ++ sub.worker.held ++ sub.queue.items

omit [Fintype ι] [DecidableEq ι] in
theorem accepted_perm_whereabouts {l : List (SubEvent ι π)} (h : sub.Accounted l)
    (hrel : sub.qos.reliability = .reliable) :
    (Ledger.accepted l).Perm (whereabouts l sub) := by
  rw [h.accepted_eq hrel]
  exact ((Ledger.settled_perm l).append_right _).append_right _

omit [DecidableEq ι] in
/-- No subscription accepts a sequence number twice. -/
theorem Sound.nodup_accepted (h : Sound tr s) (sid : SubId) :
    ((Ledger.accepted (ledger sid tr)).map Envelope.seq).Nodup := by
  have hinbox : ((inbox sid tr).map fun x => x.2.seq).Nodup :=
    List.pairwise_map.mpr ((h.inbox_increasing sid).imp Nat.ne_of_lt)
  have hle : (Ledger.attempts (ledger sid tr) : Multiset (Bool × Envelope π)) ≤ inbox sid tr := by
    rw [← h.conserved sid]
    exact Multiset.le_add_right _ _
  obtain ⟨l, hperm, hsublist⟩ := Multiset.coe_le.mp hle
  have hattempts : ((Ledger.attempts (ledger sid tr)).map fun x => x.2.seq).Nodup :=
    (hperm.map _).nodup_iff.mp (hinbox.sublist (hsublist.map _))
  have hsub := (Ledger.accepted_sublist_attempts (ledger sid tr)).map Envelope.seq
  rw [List.map_map] at hsub
  exact hattempts.sublist hsub

theorem filter_seq_eq {l : List (Envelope π)} (hnodup : (l.map Envelope.seq).Nodup)
    {env : Envelope π} (hmem : env ∈ l) : l.filter (fun e => e.seq = env.seq) = [env] := by
  induction l with
  | nil => cases hmem
  | cons e l ih =>
      obtain ⟨hnot, hnodup⟩ := List.nodup_cons.mp hnodup
      rcases List.mem_cons.mp hmem with rfl | hmem
      · have hnil : l.filter (fun e => e.seq = env.seq) = [] := by
          refine List.filter_eq_nil_iff.mpr fun e he heq => hnot ?_
          rw [← of_decide_eq_true heq]
          exact List.mem_map_of_mem he
        rw [List.filter_cons_of_pos (by simp), hnil]
      · have hne : e.seq ≠ env.seq := by
          intro heq
          exact hnot (heq ▸ List.mem_map_of_mem hmem)
        rw [List.filter_cons_of_neg (by simpa using hne), ih hnodup hmem]

/-- **Reliable means exactly once.** A publish that returned `true` and found the
    reliable, compatible subscription `sid` registered has its envelope exactly once
    among what was delivered, has expired, is held by the worker or is in the queue;
    nothing was dropped; and after `unsubscribe` it was delivered or has expired. -/
theorem reliable_exactly_once [DecidableEq τ] (h : (machine ι τ π η).Run init as tr s)
    {p : ι} {topic : String} {env : Envelope π} {qos : QoS} {subs targets : List SubId}
    (hpub : .published p topic env qos subs targets ∈ tr)
    (htrue : .returned p topic (some env) true ∈ tr) (hreg : sid ∈ subs)
    (hsub : s.subs sid = some sub) (hrel : sub.qos.reliability = .reliable)
    (hcompat : checkCompatible qos sub.qos = .none) :
    (whereabouts (ledger sid tr) sub).filter (fun e => e.seq = env.seq) = [env] ∧
    sub.queue.dropped = 0 ∧
    (sub.queue.items = [] → sub.worker.held = [] →
      (Ledger.delivered (ledger sid tr) ++ Ledger.expired (ledger sid tr)).filter
        (fun e => e.seq = env.seq) = [env]) ∧
    ((∃ q, .stopped q (some sid) ∈ tr) → sub.queue.items = [] ∧ sub.worker.held = []) := by
  have hdel := delivered_of_run h
  have hacc := hdel.sound.accounted.old hsub
  -- the sequence number tells which publish returned
  obtain ⟨y, hy, rfl, hpushed⟩ := (hdel.fanouts p).returned_true topic env htrue
  have hx : ⟨p, y.env, qos, subs, targets⟩ ∈ publications topic tr := mem_publications.mpr hpub
  have heq := hdel.sound.publication_unique hx hy rfl
  rw [← heq] at hpushed
  obtain ⟨sub', hsub', -, htarget⟩ := hdel.picked topic _ hx sid hreg
  cases Option.some.inj (hsub.symm.trans hsub')
  have hin := hpushed sid (htarget.mpr hcompat)
  -- it was accepted, and a reliable subscription loses nothing it has accepted
  have hperm := accepted_perm_whereabouts hacc hrel
  have honce := filter_seq_eq ((hperm.map _).nodup_iff.mp (hdel.sound.nodup_accepted sid))
    (hperm.mem_iff.mp hin)
  refine ⟨honce, ?_, fun hitems hheld => ?_, fun ⟨q, hstopped⟩ => ?_⟩
  · rw [hacc.dropped_eq, hacc.evicted_eq hrel]
    rfl
  · simpa [whereabouts, hitems, hheld] using honce
  · obtain ⟨sub', hsub', hth⟩ := joined_of_unsubscribed h hstopped
    cases Option.some.inj (hsub.symm.trans hsub')
    have hw := hacc.joined hth
    exact ⟨(hacc.exited hw).1, by rw [hw]; rfl⟩

/-- A command that is delivered before its subscriber unsubscribes. -/
theorem reliable_exactly_once_unsubscribed :
    ∃ as tr s, (machine (Fin 2) Unit Nat Unit).Run init as tr s ∧ .stopped 1 (some 5) ∈ tr ∧
      (Ledger.delivered (ledger 5 tr) ++ Ledger.expired (ledger 5 tr)).filter
        (fun e => e.seq = 1) = [⟨7, 1, 0⟩] := by
  have hrun := Machine.Run.of_isSome (machine (Fin 2) Unit Nat Unit) init
    [.subscribe 1 "arm" () (.command 4) 5, .spawn 1 5, .assign 1 5,
      .publish 0 "arm" () (.command 4) 7 0, .publishLock 0, .push 0 5 0, .publishReturn 0,
      .unsubscribe 1 5, .stopClose 1 5, .stopJoinable 1 5, .workerPop 5, .workerDeliver 5 1,
      .workerFinish 5, .workerPop 5, .stopJoin 1 5, .stopReturn 1 (some 5)] (by decide)
  have honce := reliable_exactly_once hrun
    (show BusEvent.published 0 "arm" ⟨7, 1, 0⟩ (.command 4) [5] [5] ∈ _ by decide) (by decide)
    List.mem_cons_self rfl rfl rfl
  obtain ⟨hitems, hheld⟩ := honce.2.2.2 ⟨1, by decide⟩
  exact ⟨_, _, _, hrun, by decide, honce.2.2.1 hitems hheld⟩

end ExactlyOnce

end TopicBus

end Rdb
