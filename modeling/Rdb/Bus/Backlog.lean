-- SUMMARY: What the queue of a late joiner holds of the history when its worker starts.
import Rdb.Lib.Window
import Rdb.Bus.LateJoiner
import Rdb.Bus.Retention

/-!
# The backlog of a late joiner

`subscribe` pushes the history through `try_push` and looks at no status. A queue that
drops the oldest value ends up with the end of the history; a queue that blocks, which
is what a reliable subscription has, keeps its beginning. A `shutdown` that closes the
queue in between leaves it with a part of the history.
-/

namespace Rdb

variable {ι τ π η : Type*}

/-! ## Pushing a list without waiting -/

namespace BoundedQueue

variable {α : Type*} {q : BoundedQueue α} {l : List α}

/-- What a queue keeps of a list that is pushed into it without waiting. -/
def keeps (policy : OverflowPolicy) (capacity : Nat) (l : List α) : List α :=
  if policy = .dropOldest then l.rtake capacity else l.take capacity

theorem keeps_nil (policy : OverflowPolicy) (capacity : Nat) :
    keeps policy capacity ([] : List α) = [] := by
  unfold keeps
  split
  · exact List.rtake_nil _
  · exact List.take_nil

theorem keeps_sublist (policy : OverflowPolicy) (capacity : Nat) (l : List α) :
    (keeps policy capacity l).Sublist l := by
  unfold keeps
  split
  · exact List.drop_sublist _ _
  · exact List.take_sublist _ _

theorem length_keeps (policy : OverflowPolicy) (capacity : Nat) (l : List α) :
    (keeps policy capacity l).length = min capacity l.length := by
  unfold keeps
  split
  · rw [List.rtake, List.length_drop]
    omega
  · exact List.length_take

theorem keeps_of_length_le (policy : OverflowPolicy) {capacity : Nat} (h : l.length ≤ capacity) :
    keeps policy capacity l = l := by
  unfold keeps
  split
  · rw [List.rtake, Nat.sub_eq_zero_of_le h, List.drop_zero]
  · exact List.take_of_length_le h

/-- `try_push` gives up at once. -/
theorem enter_min (ready : Bool) : Wait.enter ready TimePoint.min = .expired := by
  have hne : TimePoint.min ≠ TimePoint.max := by decide
  simp [Wait.enter, hne]

theorem tryPush_closed (h : q.closed = true) (v : α) : (q.tryPush v).1 = q := by
  simp [tryPush, pushUntil, h]

/-- One more value. -/
theorem tryPush_keeps (hopen : q.closed = false) (h : q.items = keeps q.policy q.capacity l)
    (v : α) : (q.tryPush v).1.items = keeps q.policy q.capacity (l ++ [v]) := by
  have hlen : q.items.length = min q.capacity l.length := by rw [h, length_keeps]
  obtain ⟨n, hn⟩ : ∃ n, q.capacity = n + 1 := ⟨q.capacity - 1, by have := q.capacity_pos; omega⟩
  by_cases hfull : q.items.length ≥ q.capacity
  · have hlong : n + 1 ≤ l.length := by omega
    simp only [tryPush, pushUntil, hopen, Bool.false_eq_true, if_false, hfull, if_true]
    cases hpol : q.policy with
    | dropOldest =>
        -- the front makes room for the new value
        have htail : (l.rtake (n + 1)).tail = l.rtake n := by
          rw [List.rtake, List.rtake, List.tail_drop]
          congr 1
          omega
        simp [replaceOldest, h, keeps, hpol, hn, List.rtake_concat_succ, htail]
    | dropNewest | block =>
        have htake : (l ++ [v]).take q.capacity = l.take q.capacity :=
          List.take_append_of_le_length (by omega)
        simp [enter_min, pushAfterWait, h, keeps, hpol, htake]
  · have hshort : l.length + 1 ≤ q.capacity := by omega
    have hitems : q.items = l := h.trans (keeps_of_length_le _ (by omega))
    rw [keeps_of_length_le _ (by simpa using hshort), ← hitems]
    simp [tryPush, pushUntil, hopen, hfull, accept]

/-- A list without repetitions is longer than the queue, which then tells its beginning
    from its end. -/
theorem keeps_eq_rtake_iff {policy : OverflowPolicy} {capacity : Nat} (hnodup : l.Nodup)
    (hpos : 0 < capacity) :
    keeps policy capacity l = l.rtake capacity ↔ policy = .dropOldest ∨ l.length ≤ capacity := by
  constructor
  · intro h
    by_contra hnot
    obtain ⟨hpol, hlong⟩ := not_or.mp hnot
    rw [keeps, if_neg hpol] at h
    -- both lists start somewhere in `l`, and not at the same place
    have hhead : l[0]? = l[l.length - capacity]? := by
      have hcongr := congrArg (fun m => m[0]?) h
      simpa [List.rtake, List.getElem?_take, hpos] using hcongr
    have heq := (List.getElem?_inj (by omega) hnodup).mp hhead
    omega
  · rintro (rfl | hle)
    · simp [keeps]
    · rw [keeps_of_length_le _ hle, List.rtake, Nat.sub_eq_zero_of_le hle, List.drop_zero]

/-- A part of the list that stops early lacks its last value. -/
theorem keeps_take_ne {policy : OverflowPolicy} {capacity k : Nat} (hnodup : l.Nodup)
    (hpos : 0 < capacity) (hk : k < l.length) :
    keeps policy capacity (l.take k) ≠ l.rtake capacity := by
  intro h
  obtain ⟨n, rfl⟩ : ∃ n, capacity = n + 1 := ⟨capacity - 1, by omega⟩
  rcases List.eq_nil_or_concat l with rfl | ⟨front, x, rfl⟩
  · cases hk
  · rw [List.concat_eq_append] at *
    rw [List.length_append, List.length_singleton] at hk
    rw [List.rtake_concat_succ, List.take_append_of_le_length (by omega)] at h
    have hkept : x ∈ keeps policy (n + 1) (front.take k) :=
      h ▸ List.mem_append_right _ List.mem_cons_self
    have hfront : x ∈ front := List.mem_of_mem_take ((keeps_sublist _ _ _).subset hkept)
    exact (List.nodup_append.mp hnodup).2.2 x hfront x List.mem_cons_self rfl

end BoundedQueue

namespace TopicBus

/-- The guard on closing: the queue of `sid` is not closed before its backlog is pushed. -/
def CloseAfterBacklog (sid : SubId) (s : BusState ι τ π η) : BusAction ι τ π η → Prop
  | .stopClose _ i => i = sid → ∀ q, (s.threads q).hasBacklog sid = false
  | _ => True

instance [Fintype ι] (sid : SubId) (s : BusState ι τ π η) :
    (a : BusAction ι τ π η) → Decidable (CloseAfterBacklog sid s a)
  | .stopClose _ i =>
    inferInstanceAs (Decidable (i = sid → ∀ q, (s.threads q).hasBacklog sid = false))
  | .advertise .. | .setQosMismatchHandler .. | .setReliableTimeout .. | .subscribe ..
  | .pushBacklog .. | .spawn .. | .assign .. | .publish .. | .publishLock .. | .report ..
  | .push .. | .pushWake .. | .publishReturn .. | .unsubscribe .. | .shutdown ..
  | .stopJoinable .. | .stopJoin .. | .stopReturn .. | .workerPop .. | .workerDeliver ..
  | .workerFinish .. => .isTrue trivial

/-! ## One step of the refill -/

section Step

variable [DecidableEq ι] [DecidableEq τ] {s s' : BusState ι τ π η} {a : BusAction ι τ π η}
  {evs : List (BusEvent ι π η)} {sid : SubId} {topic : String}

/-- No publish on `topic` is under way. -/
def Unpublished (topic : String) (s : BusState ι τ π η) : Prop :=
  ∀ q, (s.threads q).publishesOn topic = false

omit [DecidableEq τ] in
theorem Unpublished.update {p : ι} {c : Call τ π η} (h : Unpublished topic s)
    (hthreads : s'.threads = Function.update s.threads p c) (hc : c.publishesOn topic = false) :
    Unpublished topic s' := by
  intro q
  rw [hthreads]
  exact ThreadSum.update_of (P := fun c : Call τ π η => c.publishesOn topic = false)
    (fun _ => h q) fun _ => hc

omit [DecidableEq τ] in
theorem Transition.unpublished (ht : Transition s a evs s') (h : Unpublished topic s)
    (ha : ∀ q type qos payload now, a ≠ .publish q topic type qos payload now) :
    Unpublished topic s' := by
  -- a publish goes on with the topic it was called for
  have hsame : ∀ {p c}, s.threads p = c → c.publishesOn topic = false := fun hp => hp ▸ h _
  cases ht with
  | advertise | setHandler | setTimeout | conflict | worker => exact h
  | subscribe | pushBacklog | spawn | assign | publishFailed | publishReturn | unsubscribe
  | shutdown | stopClose | stopJoinable | stopSkip | stopJoin | stopReturn => exact h.update rfl rfl
  | @publish p t type qos payload now hp =>
      refine h.update rfl (beq_eq_false_iff_ne.mpr ?_)
      rintro rfl
      exact ha p type qos payload now rfl
  | published hp | report hp | pushSleep _ hp | pushReturn _ hp =>
      have hthread := hsame hp
      exact h.update rfl hthread

theorem pushBacklog_inv {p : ι} (h : step s (.pushBacklog p sid) = some (s', evs)) :
    ∃ env rest sub, s.threads p = .backlog sid (env :: rest) ∧ s.subs sid = some sub ∧
      s' = setCall (setSub s sid { sub with queue := (sub.queue.tryPush env).1 }) p
        (.backlog sid rest) := by
  simp only [step] at h
  split at h
  · rename_i i env rest sub hp hsub
    split at h
    · rename_i heq
      subst heq
      split at h
      · rename_i queue status evicted hpush
        obtain ⟨rfl, -⟩ := Prod.mk.inj (Option.some.inj h)
        exact ⟨env, rest, sub, hp, hsub, by rw [hpush]⟩
      · cases h
    · cases h
  · cases h

/-- What a step does to the queue of `sid` while `p` pushes its backlog, of which `rest`
    is left after the step. -/
inductive RefillStep (s : BusState ι τ π η) (a : BusAction ι τ π η) (sid : SubId) (p : ι)
    (rest : List (Envelope π)) (queue : BoundedQueue (Envelope π)) :
    BoundedQueue (Envelope π) → Prop
  | quiet (hp : s.threads p = .backlog sid rest) : RefillStep s a sid p rest queue queue
  | pushed {env : Envelope π} (hp : s.threads p = .backlog sid (env :: rest)) :
      RefillStep s a sid p rest queue (queue.tryPush env).1
  | closed {q : ι} (ha : a = .stopClose q sid) (hp : s.threads p = .backlog sid rest) :
      RefillStep s a sid p rest queue queue.close

/-- While nobody publishes on the topic, nothing else happens to the queue. -/
theorem backlog_step (hstep : step s a = some (s', evs)) (wf : WF s) {sub : Subscription τ π}
    (hsub : s.subs sid = some sub) (hquiet : Unpublished sub.topic s) {p : ι}
    {rest : List (Envelope π)} (hp : s'.threads p = .backlog sid rest) :
    ∃ sub', s'.subs sid = some sub' ∧ RefillStep s a sid p rest sub.queue sub'.queue := by
  have ht := step_transition hstep
  -- a record changes, and the queue of `sid` does not
  have hkeep : ∀ {i : SubId} {subi subi' : Subscription τ π},
      s'.subs = Function.update s.subs i (some subi') → s.subs i = some subi →
      (i = sid → subi'.queue = subi.queue) → s.threads p = .backlog sid rest →
      ∃ sub', s'.subs sid = some sub' ∧ RefillStep s a sid p rest sub.queue sub'.queue := by
    intro i subi subi' hsubs hi hq hold
    by_cases his : i = sid
    · subst his
      cases Option.some.inj (hi.symm.trans hsub)
      exact ⟨subi', by rw [hsubs, Function.update_self], hq rfl ▸ .quiet hold⟩
    · exact ⟨sub, by rw [hsubs, Function.update_of_ne (Ne.symm his), hsub], .quiet hold⟩
  cases ht with
  | advertise | setHandler | setTimeout | conflict => exact ⟨sub, hsub, .quiet hp⟩
  | publish | publishFailed | report | pushSleep | publishReturn | unsubscribe | shutdown
  | stopJoinable | stopSkip | stopReturn =>
      exact ⟨sub, hsub, .quiet (ThreadSum.of_update hp (by simp))⟩
  | spawn _ hi | assign _ hi | stopJoin _ hi =>
      exact hkeep rfl hi (fun _ => rfl) (ThreadSum.of_update hp (by simp))
  | @published q t type qos payload now entry env m _ hlook _ _ hm =>
      have hold := ThreadSum.of_update hp (by simp)
      rw [matchAll_eq s _ (wf.topics _ _ hlook).nodup] at hm
      subst hm
      by_cases hmem : sid ∈ entry.subs
      · have hqueue : (screened qos sub).queue = sub.queue := by
          unfold screened
          split <;> rfl
        exact ⟨screened qos sub, by simp [matched, hmem, hsub], hqueue ▸ .quiet hold⟩
      · exact ⟨sub, by simp [matched, hmem, hsub], .quiet hold⟩
  | @subscribe q t type qos i entry _ hnone =>
      have hne : i ≠ sid := by
        rintro rfl
        rw [hnone] at hsub
        cases hsub
      exact ⟨sub, (Function.update_of_ne (Ne.symm hne) _ _).trans hsub,
        .quiet (ThreadSum.of_update hp (by simp [hne]))⟩
  | @pushBacklog q i _ _ _ _ _ _ _ hi _ =>
      by_cases his : i = sid
      · subst his
        obtain ⟨env, rest', sub', hq, hsub', heq⟩ := pushBacklog_inv hstep
        cases Option.some.inj (hsub'.symm.trans hsub)
        rw [heq] at hp ⊢
        -- only one thread pushes the backlog of a subscription
        have hqp : q = p := by
          by_contra hne
          have hold : s.threads p = .backlog i rest := ThreadSum.of_update hp fun h => absurd h hne
          exact hne (wf.owner_unique (by rw [hq]; rfl) (by rw [hold]; rfl))
        subst hqp
        rw [setCall_threads, Function.update_self, Call.backlog.injEq] at hp
        obtain ⟨-, rfl⟩ := hp
        exact ⟨_, Function.update_self .., .pushed hq⟩
      · exact hkeep rfl hi (fun h => absurd h his) (ThreadSum.of_update hp (by simp [his]))
  | @pushReturn _ q f i rest' subi _ _ _ _ _ hq hf hi =>
      have hne : i ≠ sid := by
        rintro rfl
        obtain ⟨sub', hsub', htopic⟩ := (wf.targets hq).2 i (hf ▸ List.mem_cons_self)
        cases Option.some.inj (hsub'.symm.trans hsub)
        have hthread := hquiet q
        simp [hq, Call.publishesOn, htopic] at hthread
      exact hkeep rfl hi (fun h => absurd h hne) (ThreadSum.of_update hp (by simp))
  | @stopClose q owner i rest' subi hq hi =>
      have hold := ThreadSum.of_update hp (by simp)
      by_cases his : i = sid
      · subst his
        cases Option.some.inj (hi.symm.trans hsub)
        exact ⟨_, Function.update_self .., .closed rfl hold⟩
      · exact hkeep rfl hi (fun h => absurd h his) hold
  | @worker _ i subi subi' _ hi hw =>
      have hne : i ≠ sid := by
        rintro rfl
        obtain ⟨sub', hsub', -, hnot⟩ := wf.backlog hp
        cases Option.some.inj (hi.symm.trans hsub')
        exact hw.started hnot
      exact hkeep rfl hi (fun h => absurd h hne) hp

theorem stopClose_inv {q : ι} (h : step s (.stopClose q sid) = some (s', evs)) :
    ∃ owner rest sub, s.subs sid = some sub ∧
      s' = setCall (setSub s sid { sub with queue := sub.queue.close }) q
        (.stopping owner .joinable (sid :: rest)) := by
  change stopStep s q sid .close = some (s', evs) at h
  obtain ⟨owner, rest, sub, hq, hsub⟩ := stopStep_inv h
  simp only [stopStep, hq, hsub, and_self, if_true] at h
  obtain ⟨rfl, -⟩ := Prod.mk.inj (Option.some.inj h)
  exact ⟨owner, rest, sub, hsub, rfl⟩

theorem spawn_inv {p : ι} (h : step s (.spawn p sid) = some (s', evs)) :
    ∃ sub, s.threads p = .backlog sid [] ∧ s.subs sid = some sub ∧
      s'.subs sid = some { sub with worker := .popping } := by
  simp only [step] at h
  split at h
  · rename_i i sub hp hsub
    split at h
    · rename_i heq
      subst heq
      obtain ⟨rfl, -⟩ := Prod.mk.inj (Option.some.inj h)
      exact ⟨sub, hp, hsub, Function.update_self ..⟩
    · cases h
  · cases h

/-- The lock section of `subscribe`, when it does not find a type conflict. -/
theorem subscribe_inv {p : ι} {type : τ} {qos : QoS}
    (h : step s (.subscribe p topic type qos sid) = some (s', evs))
    (hmade : (s'.subs sid).isSome = true) (hdur : qos.durability = .transientLocal) :
    s.subs sid = none ∧ s'.subs sid = some (.new topic type qos) ∧
      s'.threads = Function.update s.threads p (.backlog sid (latchedOf s.topics topic)) := by
  cases step_transition h with
  | conflict _ hnone =>
      rw [hnone] at hmade
      cases hmade
  | @subscribe _ _ _ _ _ entry _ hnone hentry htype =>
      have hlook := lookup_ensureTopic_self s.topics topic type
      have hlatched : entry.latched = latchedOf s.topics topic := by
        rw [← latchedOf_ensureTopic type, latchedOf, hlook, hentry]
        rfl
      refine ⟨hnone, Function.update_self .., ?_⟩
      simp [backlogOf, hdur, hlatched]
  | pushSleep ha | pushReturn ha => rcases ha with ha | ha <;> cases ha
  | worker _ _ ha => cases ha

end Step

/-! ## The whole refill -/

section Runs

variable [DecidableEq ι] [DecidableEq τ] {s s' : BusState ι τ π η} {a : BusAction ι τ π η}
  {as : List (BusAction ι τ π η)} {evs tr : List (BusEvent ι π η)} {sid : SubId} {topic : String}
  {qos : QoS} {l rest : List (Envelope π)}

/-- The subscription exists, and nobody publishes on its topic. -/
structure Undisturbed (sid : SubId) (topic : String) (s : BusState ι τ π η) : Prop where
  wf : WF s
  record : ∃ sub, s.subs sid = some sub ∧ sub.topic = topic
  unpublished : Unpublished topic s

omit [DecidableEq τ] in
theorem Undisturbed.step (h : Undisturbed sid topic s) (ht : Transition s a evs s')
    (ha : ∀ q type qos payload now, a ≠ .publish q topic type qos payload now) :
    Undisturbed sid topic s' := by
  obtain ⟨sub, hsub, htopic⟩ := h.record
  obtain ⟨sub', hsub', htopic', -⟩ := (ht.subsStep h.wf).topic_eq hsub
  exact ⟨ht.wf h.wf, ⟨sub', hsub', htopic'.trans htopic⟩, ht.unpublished h.unpublished ha⟩

/-- While the backlog of `sid` is being pushed, `Q` holds of what is left of it and of
    the queue. -/
def Backlogged (sid : SubId) (Q : List (Envelope π) → BoundedQueue (Envelope π) → Prop)
    (s : BusState ι τ π η) : Prop :=
  ∀ p rest, s.threads p = .backlog sid rest → ∃ sub, s.subs sid = some sub ∧ Q rest sub.queue

/-- What pushes and the close keep, every step keeps. -/
theorem Backlogged.keep {Q : List (Envelope π) → BoundedQueue (Envelope π) → Prop}
    (h : Backlogged sid Q s) (hun : Undisturbed sid topic s) (hstep : step s a = some (s', evs))
    (hpush : ∀ {env rest queue}, Q (env :: rest) queue → Q rest (queue.tryPush env).1)
    (hclose : ∀ {p q rest queue}, a = .stopClose q sid → s.threads p = .backlog sid rest →
      Q rest queue → Q rest queue.close) : Backlogged sid Q s' := by
  intro p rest hp
  obtain ⟨sub, hsub, htopic⟩ := hun.record
  obtain ⟨sub', hsub', hrefill⟩ := backlog_step hstep hun.wf hsub (htopic ▸ hun.unpublished) hp
  refine ⟨sub', hsub', ?_⟩
  have hold : ∀ {rest'}, s.threads p = .backlog sid rest' → Q rest' sub.queue := by
    intro rest' hp'
    obtain ⟨sub₀, hsub₀, hQ⟩ := h p rest' hp'
    cases Option.some.inj (hsub₀.symm.trans hsub)
    exact hQ
  generalize sub'.queue = queue' at hrefill
  cases hrefill with
  | quiet hp' => exact hold hp'
  | pushed hp' => exact hpush (hold hp')
  | closed ha hp' => exact hclose ha hp' (hold hp')

/-- The queue has what was pushed so far, and is open as long as something is left. -/
structure Refilling (qos : QoS) (l rest : List (Envelope π)) (queue : BoundedQueue (Envelope π)) :
    Prop where
  capacity_eq : queue.capacity = max qos.depth 1
  policy_eq : queue.policy = Subscription.policyFor qos
  items_eq : ∃ done, l = done ++ rest ∧
    queue.items = BoundedQueue.keeps queue.policy queue.capacity done
  isOpen : rest ≠ [] → queue.closed = false

/-- The queue was closed before all of `l` was pushed. -/
structure CutOff (qos : QoS) (l : List (Envelope π)) (queue : BoundedQueue (Envelope π)) :
    Prop where
  capacity_eq : queue.capacity = max qos.depth 1
  policy_eq : queue.policy = Subscription.policyFor qos
  closed : queue.closed = true
  items_eq : ∃ k < l.length,
    queue.items = BoundedQueue.keeps queue.policy queue.capacity (l.take k)

theorem Refilling.tryPush {env : Envelope π} {queue : BoundedQueue (Envelope π)}
    (h : Refilling qos l (env :: rest) queue) : Refilling qos l rest (queue.tryPush env).1 := by
  obtain ⟨done, hl, hitems⟩ := h.items_eq
  have hopen := h.isOpen (List.cons_ne_nil _ _)
  obtain ⟨hcap, hpol, hclosed⟩ :=
    (BoundedQueue.pushUntil_effect queue env TimePoint.min).capacity_eq
  refine ⟨hcap.trans h.capacity_eq, hpol.trans h.policy_eq, ⟨done ++ [env], by simp [hl], ?_⟩,
    fun _ => hclosed.trans hopen⟩
  rw [BoundedQueue.tryPush_keeps hopen hitems]
  exact congrArg₂ (fun p c => BoundedQueue.keeps p c (done ++ [env])) hpol.symm hcap.symm

theorem Backlogged.refilling (h : Backlogged sid (Refilling qos l) s)
    (hun : Undisturbed sid topic s) (hstep : step s a = some (s', evs))
    (hguard : CloseAfterBacklog sid s a) : Backlogged sid (Refilling qos l) s' := by
  refine h.keep hun hstep (fun hq => hq.tryPush) ?_
  rintro p q rest queue rfl hp hq
  -- the guard: nothing is left to push
  cases rest with
  | nil => exact ⟨hq.capacity_eq, hq.policy_eq, hq.items_eq, fun hne => absurd rfl hne⟩
  | cons env rest =>
      have hnone := hguard rfl p
      simp [hp, Call.hasBacklog] at hnone

omit [DecidableEq ι] [DecidableEq τ] in
theorem exists_of_not_closeAfterBacklog (h : ¬ CloseAfterBacklog sid s a) :
    ∃ q p env rest, a = .stopClose q sid ∧ s.threads p = .backlog sid (env :: rest) := by
  cases a with
  | stopClose q i =>
      simp only [CloseAfterBacklog, Classical.not_imp, not_forall, Bool.not_eq_false] at h
      obtain ⟨rfl, p, hp⟩ := h
      cases hcall : s.threads p with
      | backlog j rest =>
          cases rest with
          | nil => simp [hcall, Call.hasBacklog] at hp
          | cons env rest =>
              simp only [hcall, Call.hasBacklog, beq_iff_eq] at hp
              exact ⟨q, p, env, rest, rfl, by rw [hcall, hp]⟩
      | _ => simp [hcall, Call.hasBacklog] at hp
  | _ => exact absurd trivial h

/-- The close that comes too early. -/
theorem Backlogged.cutOff (h : Backlogged sid (Refilling qos l) s)
    (hstep : step s a = some (s', evs)) (hguard : ¬ CloseAfterBacklog sid s a) :
    Backlogged sid (fun _ => CutOff qos l) s' := by
  obtain ⟨q, p, env, rest, rfl, hp⟩ := exists_of_not_closeAfterBacklog hguard
  obtain ⟨owner, others, sub, hsub, rfl⟩ := stopClose_inv hstep
  obtain ⟨sub', hsub', hfill⟩ := h p _ hp
  cases Option.some.inj (hsub'.symm.trans hsub)
  obtain ⟨done, hl, hitems⟩ := hfill.items_eq
  refine fun _ _ _ => ⟨_, Function.update_self .., hfill.capacity_eq, hfill.policy_eq, rfl, ?_⟩
  refine ⟨done.length, by simp [hl], ?_⟩
  rw [hl, List.take_left]
  exact hitems

theorem Backlogged.cutOff_keep (h : Backlogged sid (fun _ => CutOff qos l) s)
    (hun : Undisturbed sid topic s) (hstep : step s a = some (s', evs)) :
    Backlogged sid (fun _ => CutOff qos l) s' := by
  refine h.keep hun hstep (fun {env rest queue} hq => ?_) fun _ _ hq =>
    ⟨hq.capacity_eq, hq.policy_eq, rfl, hq.items_eq⟩
  rw [BoundedQueue.tryPush_closed hq.closed]
  exact hq

omit [DecidableEq ι] [DecidableEq τ] in
theorem not_published_snoc
    (hno : ∀ q type qos payload now, .publish q topic type qos payload now ∉ as ++ [a]) :
    (∀ q type qos payload now, .publish q topic type qos payload now ∉ as) ∧
      ∀ q type qos payload now, a ≠ .publish q topic type qos payload now := by
  refine ⟨fun q type qos payload now hmem => ?_, ?_⟩
  · exact hno q type qos payload now (List.mem_append_left _ hmem)
  · rintro q type qos payload now rfl
    exact hno q type qos payload now (List.mem_append_right _ List.mem_cons_self)

section Whole

variable {s₂ : BusState ι τ π η} (hun : Undisturbed sid topic s₂)
  (hinit : Backlogged sid (Refilling qos l) s₂)
  (hno : ∀ q type qos payload now, .publish q topic type qos payload now ∉ as)

include hun hno

theorem undisturbed_of_run (h : (machine ι τ π η).Run s₂ as tr s) : Undisturbed sid topic s := by
  induction h with
  | nil => exact hun
  | @snoc as tr evs s s' a hrun _ hstep ih =>
      obtain ⟨hno', ha⟩ := not_published_snoc hno
      exact (ih hno').step (step_transition hstep) ha

include hinit

/-- The backlog of a run in which the queue stays open for it. -/
theorem refilling_of_run (h : (machine ι τ π η).RunIf (fun _ => CloseAfterBacklog sid) s₂ as tr s) :
    Backlogged sid (Refilling qos l) s := by
  induction h with
  | nil => exact hinit
  | @snoc as tr evs s s' a hrun hguard hstep ih =>
      obtain ⟨hno', -⟩ := not_published_snoc hno
      exact (ih hno').refilling (undisturbed_of_run hun hno' hrun.toRun) hstep hguard

/-- The backlog of any run. -/
theorem refilling_or_cutOff_of_run (h : (machine ι τ π η).Run s₂ as tr s) :
    (machine ι τ π η).RunIf (fun _ => CloseAfterBacklog sid) s₂ as tr s ∨
      Backlogged sid (fun _ => CutOff qos l) s := by
  induction h with
  | nil => exact .inl .nil
  | @snoc as tr evs s s' a hrun _ hstep ih =>
      obtain ⟨hno', -⟩ := not_published_snoc hno
      rcases ih hno' with hopen | hcut
      · by_cases hguard : CloseAfterBacklog sid s a
        · exact .inl (hopen.snoc hguard hstep)
        · exact .inr ((refilling_of_run hun hinit hno' hopen).cutOff hstep hguard)
      · exact .inr (hcut.cutOff_keep (undisturbed_of_run hun hno' hrun) hstep)

end Whole

theorem policyFor_eq_dropOldest {qos : QoS} :
    Subscription.policyFor qos = .dropOldest ↔ qos.reliability = .bestEffort := by
  cases h : qos.reliability <;> simp [Subscription.policyFor, h]

/-- The state after the lock section of `subscribe`. -/
theorem refilling_of_subscribe {s₁ s₂ : BusState ι τ π η} {p : ι} {type : τ}
    (h : (machine ι τ π η).Run init as tr s₁)
    (hstep : step s₁ (.subscribe p topic type qos sid) = some (s₂, evs))
    (hmade : (s₂.subs sid).isSome = true) (hdur : qos.durability = .transientLocal)
    (hbefore : Unpublished topic s₁) :
    Undisturbed sid topic s₂ ∧
      Backlogged sid (Refilling qos (latchedOf s₁.topics topic)) s₂ := by
  have hwf := (accounted_of_run bare_empty h).wf
  obtain ⟨hnone, hsub, hthreads⟩ := subscribe_inv hstep hmade hdur
  refine ⟨⟨(step_transition hstep).wf hwf, ⟨_, hsub, rfl⟩,
    (step_transition hstep).unpublished hbefore (by simp)⟩, fun q rest hq => ⟨_, hsub, ?_⟩⟩
  -- nobody else has a backlog for an object that did not exist before
  have hqp : p = q := by
    by_contra hne
    rw [hthreads, Function.update_of_ne (Ne.symm hne)] at hq
    obtain ⟨sub, hold, -⟩ := hwf.backlog hq
    rw [hnone] at hold
    cases hold
  rw [hthreads, hqp, Function.update_self, Call.backlog.injEq] at hq
  obtain ⟨-, rfl⟩ := hq
  refine ⟨?_, rfl, ⟨[], rfl, (BoundedQueue.keeps_nil _ _).symm⟩, fun _ => rfl⟩
  simp only [Subscription.new, BoundedQueue.new]
  split <;> omega

/-- A late joiner has the newest history when its worker starts, exactly when its queue
    drops the oldest value or is large enough, and is not closed before the history is
    in it. -/
theorem late_joiner_newest_iff {as₁ as₂ : List (BusAction ι τ π η)}
    {tr₁ evs₁ tr₂ evs₂ : List (BusEvent ι π η)} {s₁ s₂ s₃ s₄ : BusState ι τ π η} {p : ι} {type : τ}
    {sub : Subscription τ π} (h₁ : (machine ι τ π η).Run init as₁ tr₁ s₁)
    (hsubscribe : (machine ι τ π η).step s₁ (.subscribe p topic type qos sid) = some (s₂, evs₁))
    (hmade : (s₂.subs sid).isSome = true) (hdur : qos.durability = .transientLocal)
    (hbefore : ∀ q, (s₁.threads q).publishesOn topic = false)
    (hduring : ∀ q type qos payload now, .publish q topic type qos payload now ∉ as₂)
    (h₂ : (machine ι τ π η).Run s₂ as₂ tr₂ s₃)
    (hspawn : (machine ι τ π η).step s₃ (.spawn p sid) = some (s₄, evs₂))
    (hsub : s₄.subs sid = some sub) :
    sub.queue.items = (latchedOf s₁.topics topic).rtake (max qos.depth 1) ↔
      (qos.reliability = .bestEffort ∨
        (latchedOf s₁.topics topic).length ≤ max qos.depth 1) ∧
      (machine ι τ π η).RunIf (fun _ => CloseAfterBacklog sid) s₂ as₂ tr₂ s₃ := by
  have hnodup : (latchedOf s₁.topics topic).Nodup := by
    refine (historyOk_of_run h₁ topic).latched_increasing.imp ?_
    rintro x y hlt rfl
    exact lt_irrefl _ hlt
  have hpos : 0 < max qos.depth 1 := by omega
  obtain ⟨hun, hinit⟩ := refilling_of_subscribe h₁ hsubscribe hmade hdur hbefore
  obtain ⟨sub₃, hp, hsub₃, hsub₄⟩ := spawn_inv hspawn
  obtain rfl := Option.some.inj (hsub₄.symm.trans hsub)
  have hkept : (machine ι τ π η).RunIf (fun _ => CloseAfterBacklog sid) s₂ as₂ tr₂ s₃ →
      sub₃.queue.items = BoundedQueue.keeps (Subscription.policyFor qos) (max qos.depth 1)
        (latchedOf s₁.topics topic) := by
    intro hopen
    obtain ⟨sub', hsub', hfill⟩ := refilling_of_run hun hinit hduring hopen p [] hp
    cases Option.some.inj (hsub'.symm.trans hsub₃)
    obtain ⟨done, hl, hitems⟩ := hfill.items_eq
    rw [hitems, hfill.capacity_eq, hfill.policy_eq, hl, List.append_nil]
  constructor
  · intro hitems
    rcases refilling_or_cutOff_of_run hun hinit hduring h₂ with hopen | hcut
    · refine ⟨?_, hopen⟩
      rw [← policyFor_eq_dropOldest, ← BoundedQueue.keeps_eq_rtake_iff hnodup hpos]
      exact (hkept hopen).symm.trans hitems
    -- what was cut off lacks the newest envelope
    · obtain ⟨sub', hsub', hoff⟩ := hcut p [] hp
      cases Option.some.inj (hsub'.symm.trans hsub₃)
      obtain ⟨k, hk, hpart⟩ := hoff.items_eq
      rw [hoff.capacity_eq] at hpart
      exact absurd (hpart.symm.trans hitems) (BoundedQueue.keeps_take_ne hnodup hpos hk)
  · rintro ⟨hcond, hopen⟩
    rw [← policyFor_eq_dropOldest, ← BoundedQueue.keeps_eq_rtake_iff hnodup hpos] at hcond
    exact (hkept hopen).trans hcond

/-- A history of two and a best-effort subscription of depth one: it gets the second. -/
theorem late_joiner_newest_iff_best_effort :
    ∃ as₁ tr₁ s₁ s₃ s₄ evs sub, (machine Unit Unit Nat Unit).Run init as₁ tr₁ s₁ ∧
      latchedOf s₁.topics "map" = [⟨7, 1, 0⟩, ⟨8, 2, 0⟩] ∧
      (machine Unit Unit Nat Unit).step s₃ (.spawn () 5) = some (s₄, evs) ∧
      s₄.subs 5 = some sub ∧ sub.queue.items = (latchedOf s₁.topics "map").rtake 1 := by
  have h₁ := Machine.Run.of_isSome (machine Unit Unit Nat Unit) init
    [.advertise "map" (), .publish () "map" () (.latched 2) 7 0, .publishLock (),
      .publishReturn (), .publish () "map" () (.latched 2) 8 0, .publishLock (),
      .publishReturn ()] (by decide)
  have hsubscribe := h₁.step_of_isSome (.subscribe () "map" ()
    { reliability := .bestEffort, durability := .transientLocal, depth := 1 } 5) (by decide)
  have h₂ := Machine.RunIf.of_isSome_after hsubscribe (fun _ => CloseAfterBacklog 5)
    [.pushBacklog () 5, .pushBacklog () 5] (by decide)
  have hspawn := h₂.toRun.step_of_isSome (.spawn () 5) (by decide)
  have hiff := late_joiner_newest_iff h₁ hsubscribe (by decide) rfl (by decide) (by simp) h₂.toRun
    hspawn rfl
  exact ⟨_, _, _, _, _, _, _, h₁, by decide, hspawn, rfl, hiff.mpr ⟨.inl rfl, h₂⟩⟩

/-- A history of two and a reliable subscription of depth one: it gets the first. -/
theorem late_joiner_oldest :
    ∃ as₁ tr₁ s₁ s₂ evs₁ as₂ tr₂ s₃ s₄ evs₂ sub,
      (machine Unit Unit Nat Unit).Run init as₁ tr₁ s₁ ∧
      (machine Unit Unit Nat Unit).step s₁ (.subscribe () "map" () (.latched 1) 5) =
        some (s₂, evs₁) ∧
      (s₂.subs 5).isSome = true ∧ (∀ q, (s₁.threads q).publishesOn "map" = false) ∧
      (∀ q type qos payload now, .publish q "map" type qos payload now ∉ as₂) ∧
      (machine Unit Unit Nat Unit).Run s₂ as₂ tr₂ s₃ ∧
      (machine Unit Unit Nat Unit).step s₃ (.spawn () 5) = some (s₄, evs₂) ∧
      s₄.subs 5 = some sub ∧
      latchedOf s₁.topics "map" = [⟨7, 1, 0⟩, ⟨8, 2, 0⟩] ∧ sub.queue.items = [⟨7, 1, 0⟩] ∧
      sub.queue.items ≠ (latchedOf s₁.topics "map").rtake (max (QoS.latched 1).depth 1) := by
  have h₁ := Machine.Run.of_isSome (machine Unit Unit Nat Unit) init
    [.advertise "map" (), .publish () "map" () (.latched 2) 7 0, .publishLock (),
      .publishReturn (), .publish () "map" () (.latched 2) 8 0, .publishLock (),
      .publishReturn ()] (by decide)
  have hsubscribe := h₁.step_of_isSome (.subscribe () "map" () (.latched 1) 5) (by decide)
  have h₂ := Machine.RunIf.of_isSome_after hsubscribe (fun _ => CloseAfterBacklog 5)
    [.pushBacklog () 5, .pushBacklog () 5] (by decide)
  have hspawn := h₂.toRun.step_of_isSome (.spawn () 5) (by decide)
  exact ⟨_, _, _, _, _, _, _, _, _, _, _, h₁, hsubscribe, by decide, by decide, by simp, h₂.toRun,
    hspawn, rfl, by decide, by decide, by decide⟩

end Runs

end TopicBus

end Rdb
