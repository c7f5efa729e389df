-- SUMMARY: The ledger of one subscription: its counters and its queue as functions of what was observed of it.
import Rdb.Bus.Subscription

/-!
# The ledger of a subscription

A ledger is the list of events of one subscription, oldest first. `Accounted` says
how the record of the subscription follows from its ledger; every step of a
subscription keeps it.
-/

namespace Rdb

variable {ι τ π : Type*}

/-! ## Reading a ledger -/

namespace SubEvent

/-- The envelope of a push that took effect. -/
def accepts : SubEvent ι π → List (Envelope π)
  | .pushed _ env status _ => if status.accepted then [env] else []
  | _ => []

/-- A push that returned, whatever its status, and whether it was a live one. -/
def attempt : SubEvent ι π → Option (Bool × Envelope π)
  | .pushed origin env _ _ => some (origin.isSome, env)
  | _ => none

def evicts : SubEvent ι π → List (Envelope π)
  | .pushed _ _ _ evicted => evicted.toList
  | _ => []

def pops : SubEvent ι π → List (Envelope π)
  | .popped env => [env]
  | _ => []

/-- The envelope left the queue. -/
def leaves (e : SubEvent ι π) : List (Envelope π) := e.evicts ++ e.pops

def calls : SubEvent ι π → List (Envelope π)
  | .called env => [env]
  | _ => []

def delivers : SubEvent ι π → List (Envelope π)
  | .delivered env => [env]
  | _ => []

def expires : SubEvent ι π → List (Envelope π)
  | .expired env => [env]
  | _ => []

/-- The worker is done with the envelope. -/
def settles (e : SubEvent ι π) : List (Envelope π) := e.delivers ++ e.expires

def isRejected : SubEvent ι π → Bool
  | .rejected _ => true
  | _ => false

/-- A live push that took effect. -/
def liveAccepted : SubEvent ι π → Bool
  | .pushed (some _) _ status _ => status.accepted
  | _ => false

/-- A live push that was not done. -/
def liveFailed : SubEvent ι π → Bool
  | .pushed (some _) _ status _ => decide (status = .full ∨ status = .closed)
  | _ => false

end SubEvent

namespace Ledger

/-- The envelopes whose push took effect. -/
def accepted (l : List (SubEvent ι π)) : List (Envelope π) := l.flatMap SubEvent.accepts

/-- The pushes that returned. -/
def attempts (l : List (SubEvent ι π)) : List (Bool × Envelope π) := l.filterMap SubEvent.attempt

def evicted (l : List (SubEvent ι π)) : List (Envelope π) := l.flatMap SubEvent.evicts

def popped (l : List (SubEvent ι π)) : List (Envelope π) := l.flatMap SubEvent.pops

def left (l : List (SubEvent ι π)) : List (Envelope π) := l.flatMap SubEvent.leaves

/-- The envelopes the callback was invoked for. -/
def called (l : List (SubEvent ι π)) : List (Envelope π) := l.flatMap SubEvent.calls

def delivered (l : List (SubEvent ι π)) : List (Envelope π) := l.flatMap SubEvent.delivers

def expired (l : List (SubEvent ι π)) : List (Envelope π) := l.flatMap SubEvent.expires

def settled (l : List (SubEvent ι π)) : List (Envelope π) := l.flatMap SubEvent.settles

section Append

variable (l l' : List (SubEvent ι π))

@[simp] theorem accepted_append : accepted (l ++ l') = accepted l ++ accepted l' :=
  List.flatMap_append

@[simp] theorem attempts_append : attempts (l ++ l') = attempts l ++ attempts l' :=
  List.filterMap_append ..

@[simp] theorem evicted_append : evicted (l ++ l') = evicted l ++ evicted l' :=
  List.flatMap_append

@[simp] theorem popped_append : popped (l ++ l') = popped l ++ popped l' := List.flatMap_append

@[simp] theorem left_append : left (l ++ l') = left l ++ left l' := List.flatMap_append

@[simp] theorem called_append : called (l ++ l') = called l ++ called l' := List.flatMap_append

@[simp] theorem delivered_append : delivered (l ++ l') = delivered l ++ delivered l' :=
  List.flatMap_append

@[simp] theorem expired_append : expired (l ++ l') = expired l ++ expired l' :=
  List.flatMap_append

@[simp] theorem settled_append : settled (l ++ l') = settled l ++ settled l' :=
  List.flatMap_append

end Append

section Lists

variable (l : List (SubEvent ι π))

theorem accepted_sublist_attempts : (accepted l).Sublist ((attempts l).map Prod.snd) := by
  induction l with
  | nil => exact .slnil
  | cons e l ih =>
      cases e with
      | pushed origin env status evicted =>
          cases h : status.accepted
          -- a push that was not done is an attempt only
          · simpa [accepted, attempts, SubEvent.accepts, SubEvent.attempt, h] using ih.cons env
          · simpa [accepted, attempts, SubEvent.accepts, SubEvent.attempt, h] using ih
      | _ => exact ih

/-- A live push took effect or was not done, unless the queue drops the newest value. -/
theorem countP_attempts
    (h : ∀ {origin env status evicted}, .pushed origin env status evicted ∈ l →
      status ≠ .droppedNewest) :
    (attempts l).countP Prod.fst =
      l.countP SubEvent.liveAccepted + l.countP SubEvent.liveFailed := by
  induction l with
  | nil => rfl
  | cons e l ih =>
      have ih := ih fun hmem => h (List.mem_cons_of_mem _ hmem)
      cases e with
      | pushed origin env status evicted =>
          have hne := h List.mem_cons_self
          cases origin <;> cases status <;>
            simp_all [attempts, SubEvent.attempt, List.countP_cons, SubEvent.liveAccepted,
              SubEvent.liveFailed, PushStatus.accepted] <;> omega
      | _ => exact ih

theorem popped_sublist_left : (popped l).Sublist (left l) := by
  induction l with
  | nil => exact .slnil
  | cons e l ih => exact (List.sublist_append_right _ _).append ih

theorem delivered_sublist_settled : (delivered l).Sublist (settled l) := by
  induction l with
  | nil => exact .slnil
  | cons e l ih => exact (List.sublist_append_left _ _).append ih

/-- What left the queue was evicted or popped. -/
theorem left_perm : (left l).Perm (evicted l ++ popped l) := by
  induction l with
  | nil => exact .refl _
  | cons e l ih =>
      simp only [left, evicted, popped, SubEvent.leaves, List.flatMap_cons,
        List.append_assoc] at ih ⊢
      exact ((ih.append_left _).trans (List.perm_append_comm_assoc _ _ _)).append_left _

theorem length_left : (left l).length = (evicted l).length + (popped l).length := by
  rw [(left_perm l).length_eq, List.length_append]

/-- What is settled was delivered or has expired. -/
theorem settled_perm : (settled l).Perm (delivered l ++ expired l) := by
  induction l with
  | nil => exact .refl _
  | cons e l ih =>
      simp only [settled, delivered, expired, SubEvent.settles, List.flatMap_cons,
        List.append_assoc] at ih ⊢
      refine ((ih.append_left _).trans ?_).append_left _
      exact (List.perm_append_comm_assoc _ _ _)

theorem left_eq_popped (h : evicted l = []) : left l = popped l := by
  induction l with
  | nil => rfl
  | cons e l ih =>
      simp only [evicted, List.flatMap_cons, List.append_eq_nil_iff] at h
      simp only [left, popped, SubEvent.leaves, List.flatMap_cons, h.1, List.nil_append]
      rw [← left, ← popped, ih h.2]

/-- The worker neither pushes nor rejects. -/
theorem attempts_of_byWorker (h : ∀ e ∈ l, e.byWorker = true) :
    attempts l = [] ∧ l.countP SubEvent.isRejected = 0 := by
  refine ⟨List.filterMap_eq_nil_iff.mpr fun e he => ?_, List.countP_eq_zero.mpr fun e he => ?_⟩
  all_goals
    have hw := h e he
    cases e <;> simp_all [SubEvent.byWorker, SubEvent.attempt, SubEvent.isRejected]

end Lists

end Ledger

/-! ## The record follows from the ledger -/

/-- The envelope the worker has popped and not counted yet. -/
def Worker.held : Worker π → List (Envelope π)
  | .holding env | .calling env => [env]
  | .notStarted | .popping | .exited => []

/-- The envelope whose callback runs. -/
def Worker.inCall : Worker π → List (Envelope π)
  | .calling env => [env]
  | .holding _ | .notStarted | .popping | .exited => []

namespace Subscription

/-- How the record of a subscription follows from its ledger. -/
structure Accounted (l : List (SubEvent ι π)) (sub : Subscription τ π) : Prop where
  /-- what entered the queue is what left it and what is in it -/
  fifo : Ledger.accepted l = Ledger.left l ++ sub.queue.items
  popped_eq : Ledger.popped l = Ledger.settled l ++ sub.worker.held
  called_eq : Ledger.called l = Ledger.delivered l ++ sub.worker.inCall
  delivered_eq : sub.delivered = (Ledger.delivered l).length
  expired_eq : sub.expired = (Ledger.expired l).length
  dropped_eq : sub.queue.dropped = (Ledger.evicted l).length
  qosRejected_eq : sub.qosRejected = l.countP SubEvent.isRejected
  policy_eq : sub.queue.policy = policyFor sub.qos
  /-- the queue of a reliable subscription never evicts -/
  evicted_eq : sub.qos.reliability = .reliable → Ledger.evicted l = []
  /-- neither policy of the bus drops the newest value -/
  status_ne : ∀ {origin env status evicted}, .pushed origin env status evicted ∈ l →
    status ≠ .droppedNewest
  exited : sub.worker = .exited → sub.queue.items = [] ∧ sub.queue.closed = true
  joined : sub.thread = .joined → sub.worker = .exited

theorem accounted_new (topic : String) (type : τ) (qos : QoS) :
    Accounted ([] : List (SubEvent ι π)) (.new topic type qos : Subscription τ π) where
  fifo := rfl
  popped_eq := rfl
  called_eq := rfl
  delivered_eq := rfl
  expired_eq := rfl
  dropped_eq := rfl
  qosRejected_eq := rfl
  policy_eq := rfl
  evicted_eq _ := rfl
  status_ne h := absurd h List.not_mem_nil
  exited h := by cases h
  joined h := by cases h

/-! ## One step -/

section Step

variable {l evs : List (SubEvent ι π)} {sub sub' : Subscription τ π}

theorem Step.qos_eq (h : sub.Step evs sub') :
    sub'.qos = sub.qos ∧ sub'.topic = sub.topic ∧ sub'.queue.policy = sub.queue.policy := by
  cases h with
  | push hp => exact ⟨rfl, rfl, hp.capacity_eq.2.1⟩
  | _ => exact ⟨rfl, rfl, rfl⟩

theorem Step.type_eq (h : sub.Step evs sub') : sub'.type = sub.type := by
  cases h <;> rfl

theorem Step.fifo (h : sub.Step evs sub') :
    sub.queue.items ++ Ledger.accepted evs = Ledger.left evs ++ sub'.queue.items := by
  cases h with
  | push hp => simpa [Ledger.accepted, Ledger.left, SubEvent.accepts, SubEvent.leaves,
      SubEvent.evicts, SubEvent.pops] using hp.items_eq
  | pop _ hitems => simpa [Ledger.accepted, Ledger.left, SubEvent.accepts, SubEvent.leaves,
      SubEvent.evicts, SubEvent.pops] using hitems
  | _ => simp [Ledger.accepted, Ledger.left, SubEvent.accepts, SubEvent.leaves,
      SubEvent.evicts, SubEvent.pops, BoundedQueue.close, Subscription.reject]

theorem Step.popped (h : sub.Step evs sub') :
    sub.worker.held ++ Ledger.popped evs = Ledger.settled evs ++ sub'.worker.held := by
  cases h with
  | pop hw | exit hw | expire hw | call hw | finish hw | spawn hw =>
      simp [Ledger.popped, Ledger.settled, SubEvent.pops, SubEvent.settles, SubEvent.delivers,
        SubEvent.expires, Worker.held, hw]
  | _ => simp [Ledger.popped, Ledger.settled, SubEvent.pops, SubEvent.settles, SubEvent.delivers,
      SubEvent.expires, Subscription.reject]

theorem Step.called (h : sub.Step evs sub') :
    sub.worker.inCall ++ Ledger.called evs = Ledger.delivered evs ++ sub'.worker.inCall := by
  cases h with
  | pop hw | exit hw | expire hw | call hw | finish hw | spawn hw =>
      simp [Ledger.called, Ledger.delivered, SubEvent.calls, SubEvent.delivers, Worker.inCall, hw]
  | _ => simp [Ledger.called, Ledger.delivered, SubEvent.calls, SubEvent.delivers,
      Subscription.reject]

theorem Step.counters (h : sub.Step evs sub') :
    sub'.delivered = sub.delivered + (Ledger.delivered evs).length ∧
    sub'.expired = sub.expired + (Ledger.expired evs).length ∧
    sub'.qosRejected = sub.qosRejected + evs.countP SubEvent.isRejected := by
  cases h <;> simp [Ledger.delivered, Ledger.expired, SubEvent.delivers, SubEvent.expires,
    SubEvent.isRejected, Subscription.reject]

/-- No push of the bus drops the newest value: it would take a queue that does. -/
theorem policyFor_ne (qos : QoS) : policyFor qos ≠ .dropNewest := by
  unfold policyFor
  split <;> simp

theorem Step.status_ne (h : sub.Step evs sub') (hpol : sub.queue.policy ≠ .dropNewest)
    {origin : Option ι} {env : Envelope π} {status : PushStatus} {evicted : Option (Envelope π)}
    (hmem : .pushed origin env status evicted ∈ evs) : status ≠ .droppedNewest := by
  cases h with
  | push hp =>
      rw [List.mem_singleton, SubEvent.pushed.injEq] at hmem
      obtain ⟨rfl, rfl, rfl, rfl⟩ := hmem
      rintro rfl
      cases hp with
      | droppedNewest _ _ hdn => exact hpol hdn
  | _ => simp at hmem

theorem Step.dropped (h : sub.Step evs sub') (hpol : sub.queue.policy ≠ .dropNewest) :
    sub'.queue.dropped = sub.queue.dropped + (Ledger.evicted evs).length := by
  cases h with
  | push hp =>
      cases hp with
      | droppedNewest _ _ hdn => exact absurd hdn hpol
      | closed | full | ok | droppedOldest =>
          simp [Ledger.evicted, SubEvent.evicts, BoundedQueue.accept]
  | _ => simp [Ledger.evicted, SubEvent.evicts, BoundedQueue.close, Subscription.reject]

theorem Step.evicted_eq_nil (h : sub.Step evs sub') (hpol : sub.queue.policy ≠ .dropOldest) :
    Ledger.evicted evs = [] := by
  cases h with
  | push hp =>
      cases hp with
      | droppedOldest _ _ hdo => exact absurd hdo hpol
      | closed | full | ok | droppedNewest => rfl
  | _ => rfl

theorem Step.exited (h : sub.Step evs sub')
    (hex : sub.worker = .exited → sub.queue.items = [] ∧ sub.queue.closed = true) :
    sub'.worker = .exited → sub'.queue.items = [] ∧ sub'.queue.closed = true := by
  intro hw'
  cases h with
  | push hp =>
      -- a closed queue takes nothing in
      obtain ⟨hitems, hclosed⟩ := hex hw'
      cases hp <;> simp_all
  | exit _ hitems hclosed => exact ⟨hitems, hclosed⟩
  | close => exact ⟨(hex hw').1, rfl⟩
  | pop | expire | call | finish | spawn => cases hw'
  | reject | assign | join | stay => exact hex hw'

theorem Step.joined (h : sub.Step evs sub') (hj : sub.thread = .joined → sub.worker = .exited) :
    sub'.thread = .joined → sub'.worker = .exited := by
  intro hth
  cases h with
  | pop hw | expire hw | call hw | finish hw | spawn hw => rw [hj hth] at hw; cases hw
  | exit => rfl
  | assign => cases hth
  | join hw => exact hw
  | push | reject | close | stay => exact hj hth

/-- A joined thread stays joined. -/
theorem Step.thread_joined (h : sub.Step evs sub') (hth : sub.thread = .joined) :
    sub'.thread = .joined := by
  cases h with
  | assign hempty => rw [hth] at hempty; cases hempty
  | join => rfl
  | push | reject | pop | exit | expire | call | finish | spawn | close | stay => exact hth

/-- An assigned thread object stays assigned. -/
theorem Step.thread_ne_empty (h : sub.Step evs sub') (hth : sub.thread ≠ .empty) :
    sub'.thread ≠ .empty := by
  cases h with
  | assign | join => simp
  | push | reject | pop | exit | expire | call | finish | spawn | close | stay => exact hth

/-- Nothing but a rejection changes a subscription whose worker has been joined; pushes
    find its queue closed. -/
theorem Step.of_joined (h : sub.Step evs sub') (hth : sub.thread = .joined)
    (hw : sub.worker = .exited) (hclosed : sub.queue.closed = true)
    (hrej : ∀ m, .rejected m ∉ evs) :
    sub' = sub ∧ ∀ {origin env status evicted}, .pushed origin env status evicted ∈ evs →
      status = .closed := by
  cases h with
  | push hp =>
      cases hp with
      | closed => exact ⟨rfl, fun hmem => by simp_all⟩
      | droppedNewest hopen | droppedOldest hopen | full hopen | ok hopen =>
          rw [hclosed] at hopen
          cases hopen
  | @reject m => exact absurd List.mem_cons_self (hrej m)
  | pop hold | exit hold | expire hold | call hold | finish hold | spawn hold =>
      rw [hw] at hold
      cases hold
  | assign hold => rw [hth] at hold; cases hold
  | close =>
      have hsame : sub.queue.close = sub.queue := by rw [BoundedQueue.close, ← hclosed]
      exact ⟨by rw [hsame], fun hmem => by cases hmem⟩
  | join => exact ⟨by rw [← hth], fun hmem => by cases hmem⟩
  | stay => exact ⟨rfl, fun hmem => by cases hmem⟩

/-- There are no calls once the worker has left its loop. -/
theorem Step.called_eq_nil (h : sub.Step evs sub') (hw : sub.worker = .exited) :
    Ledger.called evs = [] := by
  cases h with
  | call hhold => rw [hw] at hhold; cases hhold
  | push | reject | pop | exit | expire | finish | spawn | assign | close | join | stay => rfl

theorem Accounted.step (h : Accounted l sub) (hs : sub.Step evs sub') :
    Accounted (l ++ evs) sub' where
  fifo := by
    rw [Ledger.accepted_append, Ledger.left_append, h.fifo, List.append_assoc, hs.fifo,
      List.append_assoc]
  popped_eq := by
    rw [Ledger.popped_append, Ledger.settled_append, h.popped_eq, List.append_assoc, hs.popped,
      List.append_assoc]
  called_eq := by
    rw [Ledger.called_append, Ledger.delivered_append, h.called_eq, List.append_assoc, hs.called,
      List.append_assoc]
  delivered_eq := by simp [hs.counters.1, h.delivered_eq]
  expired_eq := by simp [hs.counters.2.1, h.expired_eq]
  dropped_eq := by
    have hpol : sub.queue.policy ≠ .dropNewest := h.policy_eq ▸ policyFor_ne sub.qos
    simp [hs.dropped hpol, h.dropped_eq]
  qosRejected_eq := by simp [hs.counters.2.2, h.qosRejected_eq]
  policy_eq := by rw [hs.qos_eq.2.2, hs.qos_eq.1, h.policy_eq]
  evicted_eq hrel := by
    rw [hs.qos_eq.1] at hrel
    have hpol : sub.queue.policy ≠ .dropOldest := by simp [h.policy_eq, policyFor, hrel]
    rw [Ledger.evicted_append, h.evicted_eq hrel, hs.evicted_eq_nil hpol, List.nil_append]
  status_ne hmem := by
    have hpol : sub.queue.policy ≠ .dropNewest := h.policy_eq ▸ policyFor_ne sub.qos
    rcases List.mem_append.mp hmem with hmem | hmem
    · exact h.status_ne hmem
    · exact hs.status_ne hpol hmem
  exited := hs.exited h.exited
  joined := hs.joined h.joined

end Step

/-! ## What the ledger adds up to -/

section Totals

variable {l : List (SubEvent ι π)} {sub : Subscription τ π}

/-- Every envelope that entered is counted exactly once. -/
theorem Accounted.length_accepted (h : Accounted l sub) :
    (Ledger.accepted l).length = sub.delivered + sub.expired + sub.queue.dropped +
      sub.queue.size + sub.worker.held.length := by
  have hleft := Ledger.length_left l
  have hsettled := (Ledger.settled_perm l).length_eq
  rw [List.length_append] at hsettled
  rw [h.fifo, List.length_append, hleft, h.popped_eq, List.length_append, hsettled,
    ← h.delivered_eq, ← h.expired_eq, ← h.dropped_eq, BoundedQueue.size]
  omega

/-- Once the worker has left its loop, what entered was delivered, has expired or was
    evicted. -/
theorem Accounted.accepted_perm (h : Accounted l sub) (hw : sub.worker = .exited) :
    (Ledger.accepted l).Perm (Ledger.delivered l ++ Ledger.expired l ++ Ledger.evicted l) := by
  have hpopped : Ledger.popped l = Ledger.settled l := by
    rw [h.popped_eq, hw, Worker.held, List.append_nil]
  have haccepted : Ledger.accepted l = Ledger.left l := by
    rw [h.fifo, (h.exited hw).1, List.append_nil]
  calc Ledger.accepted l = Ledger.left l := haccepted
    List.Perm _ (Ledger.evicted l ++ Ledger.settled l) := hpopped ▸ Ledger.left_perm l
    List.Perm _ (Ledger.settled l ++ Ledger.evicted l) := List.perm_append_comm
    List.Perm _ _ := (Ledger.settled_perm l).append_right _

/-- A reliable subscription loses nothing on the way. -/
theorem Accounted.accepted_eq (h : Accounted l sub) (hrel : sub.qos.reliability = .reliable) :
    Ledger.accepted l = Ledger.settled l ++ sub.worker.held ++ sub.queue.items := by
  rw [h.fifo, Ledger.left_eq_popped l (h.evicted_eq hrel), h.popped_eq]

/-- The callback sees envelopes in the order in which they entered the queue. -/
theorem Accounted.called_sublist (h : Accounted l sub) :
    (Ledger.called l).Sublist (Ledger.accepted l) := by
  have hin : sub.worker.inCall.Sublist sub.worker.held := by
    cases sub.worker <;> simp [Worker.inCall, Worker.held]
  calc Ledger.called l = Ledger.delivered l ++ sub.worker.inCall := h.called_eq
    List.Sublist _ (Ledger.settled l ++ sub.worker.held) :=
        (Ledger.delivered_sublist_settled l).append hin
    _ = Ledger.popped l := h.popped_eq.symm
    List.Sublist _ (Ledger.left l) := Ledger.popped_sublist_left l
    List.Sublist _ (Ledger.left l ++ sub.queue.items) := List.sublist_append_left _ _
    _ = Ledger.accepted l := h.fifo.symm

end Totals

end Subscription

end Rdb
