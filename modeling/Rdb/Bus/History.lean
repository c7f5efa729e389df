-- SUMMARY: What was published, what each subscription is to get of it, and what running calls still have to push.
import Mathlib.Algebra.Order.Group.Multiset
import Mathlib.Data.Fintype.Basic
import Rdb.Lib.ThreadSum
import Rdb.Bus.WellFormed

/-!
# Publications, inboxes and pending pushes

The publications of a topic are what type-correct publishes stamped, in order. The
inbox of a subscription is what the lock sections decided to give it: its backlog,
then every publish that picked it as a target. Inboxes are sublists of the
publications, so their sequence numbers increase; and an envelope of an inbox has
been pushed or is still to be pushed by a running call, exactly once.
-/

namespace Rdb

variable {ι τ π η : Type*}

/-! ## Reading a trace -/

/-- A type-correct publish, as its lock section decided it. -/
structure Publication (ι π : Type*) where
  publisher : ι
  env : Envelope π
  qos : QoS
  /-- the subscriptions that were registered -/
  subs : List SubId
  /-- those of them it is pushed to -/
  targets : List SubId

namespace BusEvent

/-- The event, if it is a publish on `topic`. -/
def publication (topic : String) : BusEvent ι π η → Option (Publication ι π)
  | .published p t env qos subs targets =>
    if t = topic then some ⟨p, env, qos, subs, targets⟩ else none
  | _ => none

/-- What a lock section gives `sid`: history (`false`) or news (`true`). -/
def offer (sid : SubId) : BusEvent ι π η → List (Bool × Envelope π)
  | .subscribed i _ _ backlog => if i = sid then backlog.map (Prod.mk false) else []
  | .published _ _ env _ _ targets => if sid ∈ targets then [(true, env)] else []
  | _ => []

/-- A type-correct publish took the lock while `sid` was registered. -/
def foundRegistered (sid : SubId) : BusEvent ι π η → Bool
  | .published _ _ _ _ subs _ => decide (sid ∈ subs)
  | _ => false

end BusEvent

/-- What a call still has to push into the queue of `sid`. -/
def Call.pending (sid : SubId) : Call τ π η → List (Bool × Envelope π)
  | .fanout f => if sid ∈ f.targets then [(true, f.env)] else []
  | .backlog i rest => if i = sid then rest.map (Prod.mk false) else []
  | _ => []

theorem Call.mem_pending {sid : SubId} {c : Call τ π η} {x : Bool × Envelope π}
    (h : x ∈ c.pending sid) : (∃ f, c = .fanout f ∧ sid ∈ f.targets ∧ x = (true, f.env)) ∨
      ∃ rest, c = .backlog sid rest ∧ ∃ env ∈ rest, x = (false, env) := by
  cases c with
  | fanout f =>
      simp only [Call.pending] at h
      split at h
      · rename_i hmem
        exact .inl ⟨f, rfl, hmem, List.mem_singleton.mp h⟩
      · cases h
  | backlog i rest =>
      simp only [Call.pending] at h
      split at h
      · rename_i hi
        subst hi
        obtain ⟨env, henv, rfl⟩ := List.mem_map.mp h
        exact .inr ⟨rest, rfl, env, henv, rfl⟩
      · cases h
  | _ => cases h

namespace TopicBus

def publications (topic : String) (tr : List (BusEvent ι π η)) : List (Publication ι π) :=
  tr.filterMap (BusEvent.publication topic)

def inbox (sid : SubId) (tr : List (BusEvent ι π η)) : List (Bool × Envelope π) :=
  tr.flatMap (BusEvent.offer sid)

section Append

variable (tr tr' : List (BusEvent ι π η))

@[simp] theorem publications_append (topic : String) :
    publications topic (tr ++ tr') = publications topic tr ++ publications topic tr' :=
  List.filterMap_append ..

@[simp] theorem inbox_append (sid : SubId) :
    inbox sid (tr ++ tr') = inbox sid tr ++ inbox sid tr' :=
  List.flatMap_append

end Append

theorem mem_publications {tr : List (BusEvent ι π η)} {topic : String} {x : Publication ι π} :
    x ∈ publications topic tr ↔
      .published x.publisher topic x.env x.qos x.subs x.targets ∈ tr := by
  simp only [publications, List.mem_filterMap]
  constructor
  · rintro ⟨e, he, hx⟩
    cases e with
    | published p t env qos subs targets =>
        simp only [BusEvent.publication, Option.ite_none_right_eq_some, Option.some.injEq] at hx
        obtain ⟨rfl, rfl⟩ := hx
        exact he
    | _ => cases hx
  · intro h
    exact ⟨_, h, by simp [BusEvent.publication]⟩

/-- Two elements of an ordered list are equal or in one of the two orders. -/
theorem eq_or_rel_of_pairwise {α : Type*} {R : α → α → Prop} {l : List α} (h : l.Pairwise R)
    {x y : α} (hx : x ∈ l) (hy : y ∈ l) : x = y ∨ R x y ∨ R y x := by
  induction h with
  | nil => cases hx
  | @cons z l hz _ ih =>
      rcases List.mem_cons.mp hx with rfl | hx' <;> rcases List.mem_cons.mp hy with rfl | hy'
      · exact .inl rfl
      · exact .inr (.inl (hz y hy'))
      · exact .inr (.inr (hz x hx'))
      · exact ih hx' hy'

/-- An event of a longer trace is an old one, or one of the step. -/
theorem split_of_append {α : Type*} {l l' l₁ l₂ : List α} {x : α} (h : l ++ l' = l₁ ++ x :: l₂) :
    (∃ v, l = l₁ ++ x :: v ∧ l₂ = v ++ l') ∨ ∃ u, l₁ = l ++ u ∧ l' = u ++ x :: l₂ := by
  rcases List.append_eq_append_iff.mp h with ⟨u, hl₁, hl'⟩ | ⟨v, hl, hv⟩
  · exact .inr ⟨u, hl₁, hl'⟩
  · cases v with
    | nil => exact .inr ⟨[], by simpa using hl.symm, by simpa using hv.symm⟩
    | cons y v =>
        obtain ⟨rfl, rfl⟩ := List.cons.inj hv
        exact .inl ⟨v, hl, rfl⟩

/-- Events of subscriptions publish and offer nothing. -/
theorem readers_of_sub {evs : List (BusEvent ι π η)} (h : ∀ e ∈ evs, ∃ sid l, e = .sub sid l) :
    (∀ topic, publications topic evs = []) ∧ (∀ sid, inbox sid evs = []) ∧
      ∀ sid, evs.countP (BusEvent.foundRegistered sid) = 0 := by
  refine ⟨fun topic => List.filterMap_eq_nil_iff.mpr fun e he => ?_,
    fun sid => List.flatMap_eq_nil_iff.mpr fun e he => ?_,
    fun sid => List.countP_eq_zero.mpr fun e he => ?_⟩
  all_goals
    obtain ⟨i, l, rfl⟩ := h e he
    simp [BusEvent.publication, BusEvent.offer, BusEvent.foundRegistered]

/-- Of the lock section of a publish, the readers see its first event only. -/
theorem readers_of_published {s : BusState ι τ π η} {qos : QoS} {sids : List SubId}
    {m : Matching ι τ π η} (hm : m = matchAll s qos sids) (e : BusEvent ι π η) :
    (∀ topic, publications topic (e :: m.events) = publications topic [e]) ∧
      (∀ sid, inbox sid (e :: m.events) = inbox sid [e]) ∧
      (∀ sid, (e :: m.events).countP (BusEvent.foundRegistered sid) =
        [e].countP (BusEvent.foundRegistered sid)) ∧
      ∀ sid, Ledger.attempts (ledger sid (e :: m.events)) = Ledger.attempts (ledger sid [e]) := by
  have hevents : ∀ e ∈ m.events, ∃ sid r, e = .sub sid (.rejected r) := by
    rw [hm]
    exact matchAll_events s qos sids
  have hsubs : ∀ e ∈ m.events, ∃ sid l, e = .sub sid l := by
    intro e he
    obtain ⟨sid, r, rfl⟩ := hevents e he
    exact ⟨sid, _, rfl⟩
  obtain ⟨hpubs, hinbox, hfound⟩ := readers_of_sub hsubs
  have happ : e :: m.events = [e] ++ m.events := rfl
  refine ⟨fun topic => ?_, fun sid => ?_, fun sid => ?_, fun sid => ?_⟩
  · rw [happ, publications_append, hpubs, List.append_nil]
  · rw [happ, inbox_append, hinbox, List.append_nil]
  · rw [happ, List.countP_append, hfound, Nat.add_zero]
  · have hnil : Ledger.attempts (ledger sid m.events) = [] := by
      refine List.filterMap_eq_nil_iff.mpr fun l hl => ?_
      obtain ⟨_, _, heq⟩ := hevents _ (mem_ledger.mp hl)
      cases heq
      rfl
    rw [happ, ledger_append, Ledger.attempts_append, hnil, List.append_nil]

/-- Calls of the mismatch handler are about no subscription's queue. -/
theorem readers_of_report (p : ι) (topic : String) (m : QosMismatch) (handler : Option η)
    (sid : SubId) :
    inbox sid (handler.toList.map (BusEvent.reported (π := π) p topic m)) = [] ∧
      ledger sid (handler.toList.map (BusEvent.reported (π := π) p topic m)) = [] := by
  cases handler <;> exact ⟨rfl, rfl⟩

/-! ## Pending pushes -/

/-- What a step does to the pushes `sid` is still to get: nothing, it may add to
    what the acting thread has to do, or the thread works off its first push. -/
inductive PendingStep (sid : SubId) [DecidableEq ι] (s : BusState ι τ π η)
    (a : BusAction ι τ π η) (evs : List (BusEvent ι π η)) (s' : BusState ι τ π η) : Prop where
  | quiet : s'.threads = s.threads → Ledger.attempts (ledger sid evs) = [] → inbox sid evs = [] →
      PendingStep sid s a evs s'
  | offer {p : ι} {c : Call τ π η} : s'.threads = Function.update s.threads p c →
      Ledger.attempts (ledger sid evs) = [] →
      (s.threads p).pending sid ++ inbox sid evs = c.pending sid → PendingStep sid s a evs s'
  | history {p : ι} {env : Envelope π} {rest : List (Envelope π)} :
      s.threads p = .backlog sid (env :: rest) →
      s'.threads = Function.update s.threads p (.backlog sid rest) →
      Ledger.attempts (ledger sid evs) = [(false, env)] → inbox sid evs = [] →
      PendingStep sid s a evs s'
  | live {p : ι} {f : Fanout π η} {c : Call τ π η} {now : TimePoint} :
      a = .push p sid now ∨ a = .pushWake p sid now →
      s.threads p = .fanout f → sid ∈ f.targets → c.pending sid = [] →
      s'.threads = Function.update s.threads p c →
      Ledger.attempts (ledger sid evs) = [(true, f.env)] → inbox sid evs = [] →
      PendingStep sid s a evs s'

section Pending

variable [DecidableEq ι] {s s' : BusState ι τ π η} {a : BusAction ι τ π η}
  {evs : List (BusEvent ι π η)}

theorem Transition.pendingStep (ht : Transition s a evs s') (wf : WF s) (sid : SubId) :
    PendingStep sid s a evs s' := by
  cases ht with
  | advertise | setHandler | setTimeout | conflict => exact .quiet rfl rfl rfl
  | subscribe hp =>
      refine .offer rfl rfl ?_
      simp [hp, Call.pending, inbox, BusEvent.offer]
  | @pushBacklog p i env rest _ _ status evicted hp =>
      by_cases h : i = sid
      · subst h
        exact .history hp rfl
          (by simp [ledger, BusEvent.about, Ledger.attempts, SubEvent.attempt]) rfl
      · refine .offer rfl ?_ ?_
        · simp [h, ledger, BusEvent.about, Ledger.attempts]
        · simp [hp, h, Call.pending, inbox, BusEvent.offer]
  | spawn hp | assign hp | publish hp | publishFailed hp | unsubscribe hp | shutdown hp
  | stopClose hp | stopJoinable hp | stopSkip hp | stopJoin hp | stopReturn hp =>
      refine .offer rfl rfl ?_
      simp [hp, Call.pending, inbox, BusEvent.offer]
  | published hp _ _ _ hm =>
      obtain ⟨-, hinbox, -, hatt⟩ := readers_of_published hm (.published _ _ _ _ _ _)
      refine .offer rfl (hatt sid) ?_
      rw [hp, hinbox]
      simp [Call.pending, inbox, BusEvent.offer]
  | @report p f i m rest hp =>
      obtain ⟨hinbox, hledger⟩ := readers_of_report (π := π) p f.topic m f.handler sid
      refine .offer rfl (by rw [hledger]; rfl) ?_
      rw [hinbox, hp, List.append_nil]
      rfl
  | pushSleep _ hp =>
      refine .offer rfl rfl ?_
      simp [hp, Call.pending, inbox]
  | @pushReturn _ p f i rest _ _ _ status evicted ha hp hf =>
      -- a target is met once, so nothing is left for `sid` after this push
      have hnodup := (wf.targets hp).1
      rw [hf, List.nodup_cons] at hnodup
      by_cases h : i = sid
      · subst h
        refine .live ha hp (by simp [hf]) ?_ rfl ?_ rfl
        · simp [Call.pending, hnodup.1]
        · simp [ledger, BusEvent.about, Ledger.attempts, SubEvent.attempt]
      · refine .offer rfl ?_ ?_
        · simp [h, ledger, BusEvent.about, Ledger.attempts]
        · simp [hp, hf, Ne.symm h, Call.pending, inbox, BusEvent.offer]
  | publishReturn hp hf =>
      refine .offer rfl rfl ?_
      simp [hp, hf, Call.pending, inbox, BusEvent.offer]
  | @worker _ i sub sub' levs hsub hstep =>
      refine .quiet rfl ?_ ((readers_of_sub (by simp)).2.1 sid)
      by_cases h : i = sid
      · subst h
        rw [ledger_map_self]
        exact (Ledger.attempts_of_byWorker _ hstep.byWorker).1
      · rw [ledger_map_of_ne h]
        rfl

/-- What the acting thread had to push and what the step adds is what the step
    pushes and what is left. -/
theorem PendingStep.balance {sid : SubId} (h : PendingStep sid s a evs s') :
    (s'.threads = s.threads ∧ Ledger.attempts (ledger sid evs) = [] ∧ inbox sid evs = []) ∨
    ∃ p c, s'.threads = Function.update s.threads p c ∧
      (s.threads p).pending sid ++ inbox sid evs =
        Ledger.attempts (ledger sid evs) ++ c.pending sid := by
  cases h with
  | quiet hthreads hatt hinbox => exact .inl ⟨hthreads, hatt, hinbox⟩
  | @offer p c hthreads hatt heq => exact .inr ⟨p, c, hthreads, by rw [hatt, heq]; rfl⟩
  | @history p env rest hp hthreads hatt hinbox =>
      refine .inr ⟨p, _, hthreads, ?_⟩
      simp [hp, hatt, hinbox, Call.pending]
  | @live p f c now ha hp hmem hc hthreads hatt hinbox =>
      refine .inr ⟨p, c, hthreads, ?_⟩
      rw [hp, hatt, hinbox, hc]
      simp [hmem, Call.pending]

end Pending

/-! ## What was offered was pushed or is pending -/

section Conservation

variable [DecidableEq ι] [Fintype ι] {s s' : BusState ι τ π η} {a : BusAction ι τ π η}
  {evs tr : List (BusEvent ι π η)} {sid : SubId}

/-- What all calls together still have to push into the queue of `sid`. -/
def pendingTo (s : BusState ι τ π η) (sid : SubId) : Multiset (Bool × Envelope π) :=
  ∑ p, ((s.threads p).pending sid : Multiset (Bool × Envelope π))

theorem pendingTo_update {p : ι} {c : Call τ π η}
    (h : s'.threads = Function.update s.threads p c) (sid : SubId) :
    pendingTo s' sid + ((s.threads p).pending sid : Multiset _) =
      pendingTo s sid + (c.pending sid : Multiset _) := by
  rw [pendingTo, h]
  exact ThreadSum.sum_update (fun c => (c.pending sid : Multiset (Bool × Envelope π))) s.threads p c

/-- Every envelope of the inbox has been pushed or is pending, exactly once. -/
def Conserved (sid : SubId) (tr : List (BusEvent ι π η)) (s : BusState ι τ π η) : Prop :=
  (Ledger.attempts (ledger sid tr) : Multiset (Bool × Envelope π)) + pendingTo s sid = inbox sid tr

theorem Conserved.step (h : Conserved sid tr s) (hs : PendingStep sid s a evs s') :
    Conserved sid (tr ++ evs) s' := by
  unfold Conserved at h ⊢
  rw [ledger_append, Ledger.attempts_append, inbox_append, ← Multiset.coe_add, ← Multiset.coe_add,
    ← h]
  rcases hs.balance with ⟨hthreads, hatt, hinbox⟩ | ⟨p, c, hthreads, heq⟩
  · rw [hatt, hinbox, pendingTo, hthreads]
    simp [pendingTo]
  -- one summand of `pendingTo` changes, by what the step offers and pushes
  · have hsum := pendingTo_update hthreads sid
    have heq' : (((s.threads p).pending sid ++ inbox sid evs : List (Bool × Envelope π)) :
        Multiset (Bool × Envelope π)) = Ledger.attempts (ledger sid evs) ++ c.pending sid := by
      rw [heq]
    rw [← Multiset.coe_add, ← Multiset.coe_add] at heq'
    generalize (Ledger.attempts (ledger sid evs) : Multiset (Bool × Envelope π)) = done at heq' ⊢
    generalize (Ledger.attempts (ledger sid tr) : Multiset (Bool × Envelope π)) = past at h ⊢
    generalize ((s.threads p).pending sid : Multiset (Bool × Envelope π)) = before at hsum heq'
    refine add_right_cancel (b := before) ?_
    calc past + done + pendingTo s' sid + before
        = past + done + (pendingTo s' sid + before) := by ac_rfl
      _ = past + pendingTo s sid + (done + c.pending sid) := by rw [hsum]; ac_rfl
      _ = past + pendingTo s sid + inbox sid evs + before := by rw [← heq']; ac_rfl

end Conservation

/-! ## Publications in order -/

section Publications

/-- How many envelopes `topic` has stamped. -/
def publishedCount (topics : Topics τ π) (topic : String) : Nat :=
  (topics.lookup topic).elim 0 TopicEntry.published

/-- The history `topic` keeps. -/
def latchedOf (topics : Topics τ π) (topic : String) : List (Envelope π) :=
  (topics.lookup topic).elim [] TopicEntry.latched

/-- What a step does to the history of `topic`. -/
inductive HistoryStep (topic : String) (s : BusState ι τ π η) (evs : List (BusEvent ι π η))
    (s' : BusState ι τ π η) : Prop where
  | quiet : publications topic evs = [] →
      publishedCount s'.topics topic = publishedCount s.topics topic →
      (latchedOf s'.topics topic).Sublist (latchedOf s.topics topic) → HistoryStep topic s evs s'
  | publish {x : Publication ι π} : publications topic evs = [x] →
      x.env.seq = publishedCount s.topics topic + 1 →
      publishedCount s'.topics topic = x.env.seq →
      (latchedOf s'.topics topic).Sublist (latchedOf s.topics topic ++ [x.env]) →
      HistoryStep topic s evs s'

theorem trim_sublist (depth : Nat) (latched : List (Envelope π)) :
    (trim depth latched).Sublist latched := by
  induction latched with
  | nil => exact .slnil
  | cons env latched ih =>
      unfold trim
      split
      · exact ih.cons env
      · exact .refl _

theorem latch_sublist (qos : QoS) (latched : List (Envelope π)) (env : Envelope π) :
    (latch qos latched env).Sublist (latched ++ [env]) := by
  unfold latch
  split
  · exact trim_sublist _ _
  · exact List.sublist_append_left _ _

variable {topics : Topics τ π} {topic t : String}

theorem lookup_ensureTopic_self (topics : Topics τ π) (t : String) (type : τ) :
    (ensureTopic topics t type).1.lookup t = some (ensureTopic topics t type).2 := by
  unfold ensureTopic
  split
  · assumption
  · simp

/-- A topic that is made reads like one that is not there. -/
theorem elim_lookup_ensureTopic {γ : Type*} {d : γ} (f : TopicEntry τ π → γ) {type : τ}
    (h : f (TopicEntry.new type) = d) (topic : String) :
    ((ensureTopic topics t type).1.lookup topic).elim d f = (topics.lookup topic).elim d f := by
  unfold ensureTopic
  split
  · rfl
  · rename_i hlook
    rw [AList.elim_lookup_insert]
    split
    · rename_i heq
      rw [heq, hlook, h]
      rfl
    · rfl

theorem latchedOf_ensureTopic (type : τ) :
    latchedOf (ensureTopic topics t type).1 topic = latchedOf topics topic :=
  elim_lookup_ensureTopic TopicEntry.latched rfl topic

theorem publishedCount_ensureTopic (type : τ) :
    publishedCount (ensureTopic topics t type).1 topic = publishedCount topics topic :=
  elim_lookup_ensureTopic TopicEntry.published rfl topic

/-- An update of the subscriptions of a topic is none of its history. -/
theorem history_insert {entry : TopicEntry τ π} (hlook : topics.lookup t = some entry)
    (subs : List SubId) (topic : String) :
    publishedCount (topics.insert t { entry with subs }) topic = publishedCount topics topic ∧
      latchedOf (topics.insert t { entry with subs }) topic = latchedOf topics topic :=
  ⟨AList.elim_lookup_insert_of_eq hlook (by rfl) topic,
    AList.elim_lookup_insert_of_eq hlook (by rfl) topic⟩

theorem history_unregister {sid : SubId} :
    publishedCount (unregister topics t sid) topic = publishedCount topics topic ∧
      latchedOf (unregister topics t sid) topic = latchedOf topics topic := by
  unfold unregister
  split
  · rename_i hlook
    exact history_insert hlook _ _
  · exact ⟨rfl, rfl⟩

variable [DecidableEq ι] {s s' : BusState ι τ π η} {a : BusAction ι τ π η}
  {evs tr : List (BusEvent ι π η)}

theorem Transition.historyStep (ht : Transition s a evs s') (topic : String) :
    HistoryStep topic s evs s' := by
  cases ht with
  | advertise | conflict =>
      exact .quiet rfl (publishedCount_ensureTopic _) (by rw [latchedOf_ensureTopic])
  | setHandler | setTimeout | publish | publishFailed | pushSleep | publishReturn
  | stopClose | stopJoinable | stopSkip | stopJoin | stopReturn | pushBacklog | spawn | assign
  | pushReturn => exact .quiet rfl rfl (.refl _)
  | @subscribe p t type qos sid entry hp hsid hentry htype =>
      have hlook := lookup_ensureTopic_self s.topics t type
      rw [hentry] at hlook
      have hkeep := history_insert hlook (entry.subs ++ [sid]) topic
      refine .quiet rfl (hkeep.1.trans (publishedCount_ensureTopic _)) ?_
      dsimp only
      rw [hkeep.2, latchedOf_ensureTopic]
  | @published p t type qos payload now entry env m hp hlook htype henv hm =>
      have hpubs := (readers_of_published hm
        (.published p t env qos entry.subs m.targets)).1 topic
      by_cases h : topic = t
      · subst h
        refine .publish (x := ⟨p, env, qos, entry.subs, m.targets⟩) ?_ ?_ ?_ ?_
        · rw [hpubs]
          simp [publications, BusEvent.publication]
        · simp [publishedCount, hlook, henv]
        · simp [publishedCount, henv]
        · simpa [latchedOf, hlook] using latch_sublist qos entry.latched env
      -- a publish on another topic
      · refine .quiet ?_ ?_ ?_
        · rw [hpubs]
          simp [publications, BusEvent.publication, Ne.symm h]
        · simp [publishedCount, h]
        · simp [latchedOf, h]
  | report =>
      refine .quiet ?_ rfl (.refl _)
      simp [publications, BusEvent.publication]
  | unsubscribe =>
      refine .quiet rfl ?_ ?_
      · exact history_unregister.1
      · rw [setCall_topics, history_unregister.2]
  | shutdown =>
      refine .quiet rfl ?_ ?_
      · simp only [publishedCount, setCall_topics, AList.lookup_mapVals]
        cases s.topics.lookup topic <;> rfl
      · simp only [latchedOf, setCall_topics, AList.lookup_mapVals]
        cases s.topics.lookup topic <;> simp [TopicEntry.clear]
  | worker => exact .quiet ((readers_of_sub (by simp)).1 topic) rfl (.refl _)

/-- What a step publishes: the payload of a thread that has the type of the topic, to
    those registered for it that are compatible. -/
theorem Transition.publication_inv (ht : Transition s a evs s') (wf : WF s) {topic : String}
    {x : Publication ι π} (hx : x ∈ publications topic evs) :
    ∃ type payload now entry, s.threads x.publisher = .publishing topic type x.qos payload now ∧
      s.topics.lookup topic = some entry ∧ entry.type = type ∧
      x.env = ⟨payload, entry.published + 1, now⟩ ∧ x.subs = entry.subs ∧
      x.targets = entry.subs.filter (isTarget s x.qos) := by
  rw [mem_publications] at hx
  cases ht with
  | @published p topic type qos payload now entry env m hp hlook htype henv hm =>
      rcases mem_published hm hx with heq | ⟨_, _, heq⟩
      · rw [hm, matchAll_eq s _ (wf.topics _ _ hlook).nodup, BusEvent.published.injEq] at heq
        obtain ⟨hpub, rfl, hxenv, hqos, hsubs, htargets⟩ := heq
        rw [hpub, hqos, hxenv]
        exact ⟨type, payload, now, entry, hp, hlook, htype, henv, hsubs, htargets⟩
      · cases heq
  | _ => simp at hx

/-- The publications of a topic are numbered upwards, and its history is a part of
    them. -/
structure HistoryOk (topic : String) (tr : List (BusEvent ι π η)) (s : BusState ι τ π η) :
    Prop where
  increasing : (publications topic tr).Pairwise fun x y => x.env.seq < y.env.seq
  bounded : ∀ x ∈ publications topic tr, x.env.seq ≤ publishedCount s.topics topic
  latched : (latchedOf s.topics topic).Sublist ((publications topic tr).map Publication.env)

omit [DecidableEq ι] in
theorem HistoryOk.step {topic : String} (h : HistoryOk topic tr s)
    (hs : HistoryStep topic s evs s') : HistoryOk topic (tr ++ evs) s' := by
  cases hs with
  | quiet hpub hcount hlat =>
      have heq : publications topic (tr ++ evs) = publications topic tr := by simp [hpub]
      exact ⟨heq ▸ h.increasing, heq ▸ hcount ▸ h.bounded, heq ▸ hlat.trans h.latched⟩
  | @publish x hpub hseq hcount hlat =>
      have heq : publications topic (tr ++ evs) = publications topic tr ++ [x] := by
        simp [hpub]
      refine ⟨?_, ?_, ?_⟩
      · rw [heq, List.pairwise_append]
        refine ⟨h.increasing, List.pairwise_singleton _ _, fun y hy z hz => ?_⟩
        -- the new number is above all that were given out
        have hle := h.bounded y hy
        rw [List.mem_singleton.mp hz]
        omega
      · rw [heq, hcount]
        intro y hy
        rcases List.mem_append.mp hy with hy | hy
        · have hle := h.bounded y hy
          omega
        · rw [List.mem_singleton.mp hy]
      · rw [heq, List.map_append]
        exact hlat.trans (h.latched.append (.refl _))

end Publications

/-! ## Inboxes in order -/

section Inbox

variable [DecidableEq ι] {s s' : BusState ι τ π η} {a : BusAction ι τ π η}
  {evs tr : List (BusEvent ι π η)} {sid : SubId}

/-- What a step adds to the inbox of `sid`: nothing, a publication it is compatible
    with, or the history of its topic when it is made. -/
inductive OfferStep (sid : SubId) (s : BusState ι τ π η) (a : BusAction ι τ π η)
    (evs : List (BusEvent ι π η)) (s' : BusState ι τ π η) : Prop where
  | none : inbox sid evs = [] → (s.subs sid = .none → s'.subs sid = .none) →
      OfferStep sid s a evs s'
  | news {sub : Subscription τ π} {x : Publication ι π} : s.subs sid = some sub →
      inbox sid evs = [(true, x.env)] → publications sub.topic evs = [x] →
      checkCompatible x.qos sub.qos = .none → OfferStep sid s a evs s'
  | history {p : ι} {topic : String} {type : τ} {qos : QoS} {backlog : List (Envelope π)} :
      a = .subscribe p topic type qos sid → s.subs sid = .none →
      (ensureTopic s.topics topic type).2.type = type →
      s'.subs sid = some (.new topic type qos) →
      backlog = (if qos.durability = .transientLocal then latchedOf s.topics topic else []) →
      inbox sid evs = backlog.map (Prod.mk false) → publications topic evs = [] →
      OfferStep sid s a evs s'

omit [DecidableEq ι] in
/-- Updating a record makes no new one. -/
theorem update_eq_none {i : SubId} {sub sub' : Subscription τ π} (hsub : s.subs i = some sub)
    (hnone : s.subs sid = none) : Function.update s.subs i (some sub') sid = none := by
  have hne : sid ≠ i := by rintro rfl; rw [hsub] at hnone; cases hnone
  rw [Function.update_of_ne hne, hnone]

theorem Transition.offerStep (ht : Transition s a evs s') (wf : WF s) (sid : SubId) :
    OfferStep sid s a evs s' := by
  cases ht with
  | advertise | setHandler | setTimeout | conflict | publish | publishFailed | pushSleep
  | publishReturn | unsubscribe | shutdown | stopJoinable | stopSkip | stopReturn =>
      exact .none rfl id
  | report => exact .none (readers_of_report _ _ _ _ sid).1 id
  | pushBacklog _ hsub | spawn _ hsub | assign _ hsub | pushReturn _ _ _ hsub | stopClose _ hsub
  | stopJoin _ hsub => exact .none rfl (update_eq_none hsub)
  | worker hsub =>
      exact .none ((readers_of_sub (by simp)).2.1 sid) (update_eq_none hsub)
  | @subscribe p topic type qos i entry hp hsid hentry htype =>
      by_cases h : i = sid
      · subst h
        have hlat : latchedOf s.topics topic = entry.latched := by
          rw [← latchedOf_ensureTopic type, latchedOf, lookup_ensureTopic_self, hentry]
          rfl
        refine .history rfl hsid (hentry ▸ htype) (Function.update_self ..) rfl ?_ rfl
        simp [inbox, BusEvent.offer, backlogOf, hlat]
      · refine .none (by simp [inbox, BusEvent.offer, h]) fun hnone => ?_
        simp [Ne.symm h, hnone]
  | @published p topic type qos payload now entry env m hp hlook htype henv hm =>
      obtain ⟨hpubs, hinbox, -⟩ := readers_of_published hm
        (.published p topic env qos entry.subs m.targets)
      have heq := hm.trans (matchAll_eq s _ (wf.topics _ _ hlook).nodup)
      by_cases hmem : sid ∈ m.targets
      · have htargets := hmem
        rw [heq] at htargets
        -- targets are registered, under their own topic, and compatible
        obtain ⟨hreg, htarget⟩ := List.mem_filter.mp htargets
        obtain ⟨sub, hsub, htopic⟩ := (wf.topics _ _ hlook).own hreg
        refine .news (x := ⟨p, env, qos, entry.subs, m.targets⟩) hsub ?_ ?_ ?_
        · rw [hinbox]
          simp [inbox, BusEvent.offer, hmem]
        · rw [hpubs]
          simp [publications, BusEvent.publication, htopic]
        · simpa [isTarget, hsub] using htarget
      · refine .none ?_ fun hnone => ?_
        · rw [hinbox]
          simp [inbox, BusEvent.offer, hmem]
        · simp [heq, matched, hnone]

/-- The inbox of a subscription is a part of the publications of its topic, history
    before news. -/
structure InboxOk (sid : SubId) (tr : List (BusEvent ι π η)) (s : BusState ι τ π η) : Prop where
  sublist : ∀ {sub}, s.subs sid = some sub →
    ((inbox sid tr).map Prod.snd).Sublist ((publications sub.topic tr).map Publication.env)
  ordered : (inbox sid tr).Pairwise fun x y => y.1 = false → x.1 = false
  fresh : s.subs sid = none → inbox sid tr = []

omit [DecidableEq ι] in
theorem InboxOk.step (h : InboxOk sid tr s) (hhist : ∀ topic, HistoryOk topic tr s)
    (hsubs : SubsStep s evs s') (ho : OfferStep sid s a evs s') : InboxOk sid (tr ++ evs) s' := by
  cases ho with
  | none hinbox hnone =>
      have heq : inbox sid (tr ++ evs) = inbox sid tr := by simp [hinbox]
      refine ⟨fun {sub'} hsub' => ?_, heq ▸ h.ordered, fun hsub' => ?_⟩
      · cases hsub : s.subs sid with
        | none => rw [hnone hsub] at hsub'; cases hsub'
        | some sub =>
            obtain ⟨sub'', hsub'', htopic, -⟩ := hsubs.topic_eq hsub
            cases Option.some.inj (hsub'.symm.trans hsub'')
            rw [heq, htopic, publications_append, List.map_append]
            exact (h.sublist hsub).trans (List.sublist_append_left _ _)
      · cases hsub : s.subs sid with
        | none => rw [heq, h.fresh hsub]
        | some sub =>
            obtain ⟨sub'', hsub'', -⟩ := hsubs.topic_eq hsub
            rw [hsub'] at hsub''
            cases hsub''
  | news hsub hinbox hpub hcompat =>
      obtain ⟨sub'', hsub'', htopic, -⟩ := hsubs.topic_eq hsub
      refine ⟨fun {sub'} hsub' => ?_, ?_, fun hsub' => ?_⟩
      · cases Option.some.inj (hsub'.symm.trans hsub'')
        rw [htopic, inbox_append, publications_append, hinbox, hpub, List.map_append,
          List.map_append]
        exact (h.sublist hsub).append (.refl _)
      · rw [inbox_append, hinbox, List.pairwise_append]
        refine ⟨h.ordered, List.pairwise_singleton _ _, fun x _ y hy hfalse => ?_⟩
        rw [List.mem_singleton.mp hy] at hfalse
        cases hfalse
      · rw [hsub'] at hsub''
        cases hsub''
  | @history p topic type qos backlog _ hsub _ hnew hbacklog hinbox hpub =>
      have heq : inbox sid (tr ++ evs) = backlog.map (Prod.mk false) := by
        simp [h.fresh hsub, hinbox]
      refine ⟨fun {sub'} hsub' => ?_, ?_, fun hsub' => ?_⟩
      · cases Option.some.inj (hsub'.symm.trans hnew)
        have hpubs : publications topic (tr ++ evs) = publications topic tr := by simp [hpub]
        rw [heq, List.map_map]
        show (backlog.map id).Sublist ((publications topic (tr ++ evs)).map Publication.env)
        rw [List.map_id, hpubs]
        -- the backlog is what the topic has latched, and that was published
        refine List.Sublist.trans ?_ (hhist topic).latched
        rw [hbacklog]
        split
        · exact .refl _
        · exact List.nil_sublist _
      · rw [heq]
        exact List.pairwise_map.mpr (List.pairwise_of_forall fun _ _ _ => rfl)
      · rw [hsub'] at hnew
        cases hnew

end Inbox

/-! ## Runs -/

section Runs

variable [Fintype ι] {s s' : BusState ι τ π η} {a : BusAction ι τ π η}
  {evs tr : List (BusEvent ι π η)} {as : List (BusAction ι τ π η)} {sid : SubId}

/-- What every run of the bus knows. -/
structure Sound (tr : List (BusEvent ι π η)) (s : BusState ι τ π η) : Prop where
  accounted : Accounted tr s
  history : ∀ topic, HistoryOk topic tr s
  inboxes : ∀ sid, InboxOk sid tr s
  conserved : ∀ sid, Conserved sid tr s

theorem sound_init : Sound [] (init : BusState ι τ π η) where
  accounted := ⟨wf_ofTopics bare_empty, (fun h => by cases h), fun _ => rfl⟩
  history _ := ⟨.nil, by simp [publications], by simp [latchedOf, init, ofTopics]⟩
  inboxes _ := ⟨(fun h => by cases h), .nil, fun _ => rfl⟩
  conserved _ := by
    simp [Conserved, Ledger.attempts, pendingTo, init, ofTopics, Call.pending, inbox]

theorem Sound.step [DecidableEq ι] (h : Sound tr s) (ht : Transition s a evs s') :
    Sound (tr ++ evs) s' where
  accounted := h.accounted.step ht
  history topic := (h.history topic).step (ht.historyStep topic)
  inboxes sid := (h.inboxes sid).step h.history (ht.subsStep h.accounted.wf)
    (ht.offerStep h.accounted.wf sid)
  conserved sid := (h.conserved sid).step (ht.pendingStep h.accounted.wf sid)

theorem sound_of_run [DecidableEq ι] [DecidableEq τ]
    (h : (machine ι τ π η).Run init as tr s) : Sound tr s :=
  h.invariant sound_init fun hI hstep => hI.step (step_transition hstep)

theorem Sound.mem_inbox_of_attempt (h : Sound tr s) {x : Bool × Envelope π}
    (hx : x ∈ Ledger.attempts (ledger sid tr)) : x ∈ inbox sid tr := by
  have hmem : x ∈ (Ledger.attempts (ledger sid tr) : Multiset _) + pendingTo s sid :=
    Multiset.mem_add.mpr (.inl hx)
  rw [h.conserved sid] at hmem
  exact hmem

/-- An envelope the callback was invoked for came out of the inbox. -/
theorem Sound.mem_inbox_of_called (h : Sound tr s) {env : Envelope π}
    (hcalled : .sub sid (.called env) ∈ tr) : ∃ live, (live, env) ∈ inbox sid tr := by
  have hmem : SubEvent.called env ∈ ledger sid tr := mem_ledger.mpr hcalled
  cases hsub : s.subs sid with
  | none => rw [h.accounted.fresh hsub] at hmem; cases hmem
  | some sub =>
      have hcall : env ∈ Ledger.called (ledger sid tr) :=
        List.mem_flatMap.mpr ⟨_, hmem, by simp [SubEvent.calls]⟩
      have hatt := (Ledger.accepted_sublist_attempts _).subset
        ((h.accounted.old hsub).called_sublist.subset hcall)
      obtain ⟨x, hx, hxenv⟩ := List.mem_map.mp hatt
      exact ⟨x.1, hxenv ▸ h.mem_inbox_of_attempt hx⟩

/-- A sequence number identifies a publish on its topic. -/
theorem Sound.publication_unique (h : Sound tr s) {topic : String} {x y : Publication ι π}
    (hx : x ∈ publications topic tr) (hy : y ∈ publications topic tr)
    (hseq : x.env.seq = y.env.seq) : x = y := by
  rcases eq_or_rel_of_pairwise (h.history topic).increasing hx hy with heq | hlt | hlt
  · exact heq
  · omega
  · omega

/-- Sequence numbers increase along every inbox. -/
theorem Sound.inbox_increasing (h : Sound tr s) (sid : SubId) :
    (inbox sid tr).Pairwise fun x y => x.2.seq < y.2.seq := by
  cases hsub : s.subs sid with
  | none => rw [(h.inboxes sid).fresh hsub]; exact .nil
  | some sub =>
      have hpubs : ((publications sub.topic tr).map Publication.env).Pairwise
          fun x y => x.seq < y.seq :=
        List.pairwise_map.mpr (h.history sub.topic).increasing
      have hinbox := hpubs.sublist ((h.inboxes sid).sublist hsub)
      rwa [List.pairwise_map] at hinbox

end Runs

end TopicBus

end Rdb
