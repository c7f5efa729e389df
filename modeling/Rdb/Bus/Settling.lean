-- SUMMARY: Every envelope a subscription accepts is settled or evicted at some time, if its worker keeps being scheduled.
import Rdb.Bus.StopProgress

/-!
# Settling

What a queue has accepted does not stay in it: the worker takes it out, envelope by
envelope, and the callback is called or the envelope has expired. New envelopes go in
behind, and the ones in front can only become fewer. A reliable subscription does not
evict, so all it has accepted is settled, and in the order in which it was accepted.
-/

namespace Rdb

variable {ι τ π η : Type*}

namespace BoundedQueue

variable {α : Type*} {q : BoundedQueue α} {v : α}

theorem tryPush_ne_sleeping : (q.tryPush v).2 ≠ .sleeping := by
  have hne : TimePoint.min ≠ TimePoint.max := by decide
  unfold tryPush pushUntil
  split
  · simp
  · split
    · split
      · simp
      · simp
      · simp [Wait.enter, pushAfterWait, hne]
    · simp

end BoundedQueue

namespace Subscription

variable {sub sub' : Subscription τ π} {levs : List (SubEvent ι π)} {n : Nat}

/-- How many envelopes have left the queue. -/
def departed (sub : Subscription τ π) : Nat :=
  sub.delivered + sub.expired + sub.queue.dropped + sub.worker.held.length

/-- The first `n` envelopes have left, and the worker is done with them. -/
def HasSettled (n : Nat) (sub : Subscription τ π) : Prop :=
  n ≤ sub.departed ∧ sub.worker.held = []

/-- How many steps the worker is away from that, if nothing is evicted. -/
def settleLeft (n : Nat) (sub : Subscription τ π) : Nat :=
  3 * (n - sub.departed) +
    match sub.worker with
    | .notStarted | .exited | .popping => 0
    | .calling _ => 1
    | .holding _ => 2

theorem Accounted.length_left {l : List (SubEvent ι π)} (h : Accounted l sub) :
    (Ledger.left l).length = sub.departed := by
  have hall := h.length_accepted
  rw [h.fifo, List.length_append, BoundedQueue.size] at hall
  unfold departed
  omega

/-- What has entered the queue stays entered. -/
theorem Step.entered_le (h : sub.Step levs sub')
    (hn : n ≤ sub.departed + sub.queue.items.length) :
    n ≤ sub'.departed + sub'.queue.items.length := by
  cases h with
  | push heff =>
      cases heff with
      | closed | full => exact hn
      | droppedNewest => simp only [departed] at hn ⊢; omega
      | droppedOldest _ _ _ hitems =>
          simp only [departed, hitems, List.length_append, List.length_cons] at hn ⊢
          simp only [List.length_nil]
          omega
      | ok =>
          simp only [departed, BoundedQueue.accept, List.length_append] at hn ⊢
          omega
  | pop hp hitems =>
      simp only [departed, hp, hitems, Worker.held, List.length_cons, List.length_nil] at hn ⊢
      omega
  | exit hp | spawn hp => simpa [departed, hp, Worker.held] using hn
  | expire hp | call hp | finish hp =>
      simp only [departed, hp, Worker.held, List.length_cons, List.length_nil] at hn ⊢
      omega
  | reject | assign | close | join | stay => exact hn

/-- An eviction and each step of the worker bring the end nearer. -/
theorem Step.settleLeft_le (h : sub.Step levs sub') (hw : sub.worker ≠ .notStarted)
    (hn : n ≤ sub.departed + sub.queue.items.length) (hnot : ¬ sub.HasSettled n) :
    sub'.settleLeft n ≤ sub.settleLeft n ∧
      (sub'.worker ≠ sub.worker → sub'.settleLeft n < sub.settleLeft n) := by
  cases h with
  | push heff =>
      refine ⟨?_, fun hne => absurd rfl hne⟩
      cases heff with
      | closed | full | ok => exact Nat.le_refl _
      | droppedNewest | droppedOldest => simp only [settleLeft, departed]; omega
  | pop hp hitems =>
      have hlt : sub.departed < n := by
        by_contra hle
        exact hnot ⟨by omega, by rw [hp]; rfl⟩
      simp only [settleLeft, departed, hp, Worker.held, List.length_cons, List.length_nil] at hlt ⊢
      omega
  | exit hp hitems =>
      refine absurd ⟨?_, by rw [hp]; rfl⟩ hnot
      simpa [hitems] using hn
  | expire hp | call hp | finish hp =>
      simp only [settleLeft, departed, hp, Worker.held, List.length_cons, List.length_nil]
      omega
  | spawn hp => exact absurd hp hw
  | reject | assign | close | join | stay =>
      exact ⟨Nat.le_refl _, fun hne => absurd rfl hne⟩

end Subscription

namespace TopicBus

/-! ## The worker is started -/

section Start

variable [DecidableEq ι] [DecidableEq τ] {s s' : BusState ι τ π η} {a : BusAction ι τ π η}
  {evs : List (BusEvent ι π η)} {p : ι} {sid : SubId} {rest : List (Envelope π)}

/-- The worker has been started. -/
def Started (sid : SubId) (s : BusState ι τ π η) : Prop :=
  ∃ sub, s.subs sid = some sub ∧ sub.worker ≠ .notStarted

theorem backlog_able (wf : WF s) (hp : s.threads p = .backlog sid rest) :
    (machine ι τ π η).Able (BusAction.goesOn p) s := by
  obtain ⟨sub, hsub, -, -⟩ := wf.backlog hp
  cases rest with
  | nil => exact .of_isSome (a := .spawn p sid) rfl (by simp [machine, step, hp, hsub])
  | cons env rest =>
      refine .of_isSome (a := .pushBacklog p sid) rfl ?_
      have hne := BoundedQueue.tryPush_ne_sleeping (q := sub.queue) (v := env)
      generalize hr : sub.queue.tryPush env = r at hne
      obtain ⟨queue, status | _⟩ := r
      · simp [machine, step, hp, hsub, hr]
      · exact absurd rfl hne

variable {ex : (machine ι τ π η).Execution init} {n : Nat}

/-- A subscription that has been made gets its worker. -/
theorem exists_started (hclients : ∀ p, ex.FairTo (BusAction.goesOn p)) {sub : Subscription τ π}
    (hsub : (ex.state n).subs sid = some sub) : ∃ k, n ≤ k ∧ Started sid (ex.state k) := by
  by_cases hw : sub.worker = .notStarted
  · obtain ⟨p, rest, hp⟩ := (stoppable_execution ex n).unstarted hsub hw
    clear hsub hw
    induction rest generalizing n with
    | nil =>
        obtain ⟨k, hk, hmove⟩ := exists_callMove ex (hclients p) (by simp) hp
          fun k _ hat => backlog_able (accounted_execution ex k).wf hat
        cases hmove with
        | spawn hsub hpopping => exact ⟨k + 1, by omega, _, hsub, by simp [hpopping]⟩
    | cons env rest ih =>
        obtain ⟨k, hk, hmove⟩ := exists_callMove ex (hclients p) (by simp) hp
          fun k _ hat => backlog_able (accounted_execution ex k).wf hat
        cases hmove with
        | pushBacklog hnext =>
            obtain ⟨k', hk', hstarted⟩ := ih hnext
            exact ⟨k', by omega, hstarted⟩
  · exact ⟨n, Nat.le_refl n, sub, hsub, hw⟩

end Start

/-! ## What is accepted is settled -/

section Settle

variable [DecidableEq ι] [DecidableEq τ] {sid : SubId} {n m : Nat}

/-- `m` envelopes have entered the queue of `sid`, and its worker runs. -/
def Entered (m : Nat) (sid : SubId) (s : BusState ι τ π η) : Prop :=
  (∃ tr, Accounted tr s) ∧ ∃ sub, s.subs sid = some sub ∧ sub.worker ≠ .notStarted ∧
    m ≤ sub.departed + sub.queue.items.length

def AllSettled (m : Nat) (sid : SubId) (s : BusState ι τ π η) : Prop :=
  ∃ sub, s.subs sid = some sub ∧ sub.HasSettled m

def settleLeft (m : Nat) (sid : SubId) (s : BusState ι τ π η) : Nat :=
  ((s.subs sid).map (Subscription.settleLeft m)).getD 0

theorem Entered.step {s s' : BusState ι τ π η} {a : BusAction ι τ π η}
    {evs : List (BusEvent ι π η)} (h : Entered m sid s) (hstep : step s a = some (s', evs)) :
    Entered m sid s' := by
  obtain ⟨⟨tr, hacc⟩, sub, hsub, hw, hm⟩ := h
  have ht := step_transition hstep
  obtain ⟨sub', hsub', hlocal⟩ := (ht.subsStep hacc.wf).old hsub
  exact ⟨⟨_, hacc.step ht⟩, sub', hsub', hlocal.started hw, hlocal.entered_le hm⟩

theorem settle_progress : (machine ι τ π η).Progress
    (fun _ : Unit => fun a => a.byWorkerOf sid = true) (Entered m sid) (AllSettled m sid)
    (settleLeft m sid) fun _ _ => True where
  helped _ _ := ⟨(), trivial⟩
  able := by
    rintro s - ⟨⟨tr, hacc⟩, sub, hsub, hw, hm⟩ hgoal -
    refine worker_able hsub hw fun hex => hgoal ⟨sub, hsub, ?_, by rw [hex]; rfl⟩
    simpa [((hacc.old hsub).exited hex).1] using hm
  step := by
    rintro s a s' evs ⟨⟨tr, hacc⟩, sub, hsub, hw, hm⟩ hgoal hstep -
    obtain ⟨sub', hsub', hlocal⟩ := ((step_transition hstep).subsStep hacc.wf).old hsub
    have hnot : ¬ sub.HasSettled m := fun h => hgoal ⟨sub, hsub, h⟩
    have hle := hlocal.settleLeft_le hw hm hnot
    simp only [settleLeft, hsub, hsub', Option.map_some, Option.getD_some]
    by_cases ha : a.byWorkerOf sid = true
    · -- a worker with nothing in its hands still has something in its queue
      have hready : sub.worker = .popping → sub.queue.items = [] → sub.queue.closed = true := by
        intro hp hitems
        exact absurd ⟨by simpa [hitems] using hm, by rw [hp]; rfl⟩ hnot
      obtain ⟨sub'', hsub'', hne⟩ := worker_moves hstep ha hsub hready
      cases hsub'.symm.trans hsub''
      exact .inl (hle.2 hne)
    · exact (Nat.lt_or_eq_of_le hle.1).imp_right fun heq => ⟨heq, fun _ _ => ⟨trivial, ha⟩⟩

variable {ex : (machine ι τ π η).Execution init}

/-- A subscription keeps its QoS. -/
theorem exists_qos {sub : Subscription τ π} (hsub : (ex.state n).subs sid = some sub) {k : Nat}
    (hk : n ≤ k) : ∃ sub', (ex.state k).subs sid = some sub' ∧ sub'.qos = sub.qos := by
  refine ex.keeps (Q := fun s => ∃ sub', s.subs sid = some sub' ∧ sub'.qos = sub.qos)
    ⟨sub, hsub, rfl⟩ ?_ hk
  rintro k a - ⟨sub₁, hsub₁, hqos⟩ hact
  have hsubs := (step_transition (ex.step_eq hact)).subsStep (accounted_execution ex k).wf
  obtain ⟨sub₂, hsub₂, -, hqos'⟩ := hsubs.topic_eq hsub₁
  exact ⟨sub₂, hsub₂, hqos'.trans hqos⟩

theorem ledger_mono {k : Nat} (hk : n ≤ k) :
    Ledger.accepted (ledger sid (ex.trace n)) <+: Ledger.accepted (ledger sid (ex.trace k)) := by
  obtain ⟨tr, htr⟩ := ex.trace_mono hk
  rw [← htr, ledger_append, Ledger.accepted_append]
  exact List.prefix_append ..

/-- **What is accepted is settled.** In every execution that does not pass over the worker
    of a subscription and the threads inside bus code, every envelope its queue has accepted
    is at some time delivered, has expired or was evicted. A reliable subscription evicts
    nothing and settles all it accepted, in that order. -/
theorem accepted_settles (hworker : ex.FairTo fun a => a.byWorkerOf sid = true)
    (hclients : ∀ p, ex.FairTo (BusAction.goesOn p)) (n : Nat) :
    ∃ k, n ≤ k ∧
      (Ledger.accepted (ledger sid (ex.trace n))).Subperm
        (Ledger.settled (ledger sid (ex.trace k)) ++ Ledger.evicted (ledger sid (ex.trace k))) ∧
      ∀ sub, (ex.state n).subs sid = some sub → sub.qos.reliability = .reliable →
        Ledger.accepted (ledger sid (ex.trace n)) <+: Ledger.settled (ledger sid (ex.trace k)) := by
  cases hsub : (ex.state n).subs sid with
  | none =>
      rw [(accounted_execution ex n).fresh hsub]
      exact ⟨n, Nat.le_refl n, List.nil_subperm, fun sub h => by cases h⟩
  | some sub =>
      obtain ⟨j, hj, sub₁, hsub₁, hw⟩ := exists_started hclients hsub
      have hentered : Entered (Ledger.accepted (ledger sid (ex.trace n))).length sid
          (ex.state j) := by
        have hacc := (accounted_execution ex j).old hsub₁
        refine ⟨⟨_, accounted_execution ex j⟩, sub₁, hsub₁, hw, ?_⟩
        calc (Ledger.accepted (ledger sid (ex.trace n))).length
            ≤ (Ledger.accepted (ledger sid (ex.trace j))).length := (ledger_mono hj).length_le
          _ = sub₁.departed + sub₁.queue.items.length := by
              rw [hacc.fifo, List.length_append, hacc.length_left]
      obtain ⟨k, hk, sub₂, hsub₂, hdeparted, hheld⟩ := ex.exists_goal (fun _ => hworker)
        settle_progress j fun k hk =>
          ex.keeps hentered (fun _ hQ hact => hQ.step (ex.step_eq hact)) hk
      have hacc := (accounted_execution ex k).old hsub₂
      have hnk : n ≤ k := Nat.le_trans hj hk
      -- the envelopes accepted by time `n` are the first to have left the queue
      have hleft : Ledger.accepted (ledger sid (ex.trace n)) <+:
          Ledger.left (ledger sid (ex.trace k)) := by
        refine List.prefix_of_prefix_length_le (ledger_mono hnk) ?_
          (hacc.length_left ▸ hdeparted)
        rw [hacc.fifo]
        exact List.prefix_append ..
      have hpopped : Ledger.popped (ledger sid (ex.trace k)) =
          Ledger.settled (ledger sid (ex.trace k)) := by
        rw [hacc.popped_eq, hheld, List.append_nil]
      refine ⟨k, hnk, ?_, fun sub' hsub' hrel => ?_⟩
      · have hperm := (Ledger.left_perm (ledger sid (ex.trace k))).trans List.perm_append_comm
        rw [hpopped] at hperm
        exact hleft.sublist.subperm.trans hperm.subperm
      · obtain rfl := Option.some.inj hsub'
        obtain ⟨sub₃, hsub₃, hqos⟩ := exists_qos hsub hnk
        cases hsub₂.symm.trans hsub₃
        have hevicted := hacc.evicted_eq (hqos ▸ hrel)
        rwa [← hpopped, ← Ledger.left_eq_popped _ hevicted]

end Settle

/-- The envelope is accepted before the worker is started. -/
theorem accepted_settles_early :
    ∃ ex : (machine (Fin 2) Unit Nat Unit).Execution init,
      Ledger.accepted (ledger 5 (ex.trace 4)) = [⟨7, 1, 0⟩] ∧
      ∃ k, 4 ≤ k ∧ [⟨7, 1, 0⟩] <+: Ledger.settled (ledger 5 (ex.trace k)) := by
  have hrun : ((machine (Fin 2) Unit Nat Unit).exec init
      [.subscribe 1 "map" () (.command 4) 5, .publish 0 "map" () (.command 4) 7 0, .publishLock 0,
        .push 0 5 0, .publishReturn 0, .spawn 1 5, .assign 1 5, .workerPop 5,
        .workerDeliver 5 1, .workerFinish 5, .shutdown 0 [5], .stopClose 0 5, .stopJoinable 0 5,
        .workerPop 5, .stopJoin 0 5, .stopReturn 0 none]).isSome = true := by decide
  have haccepted : Ledger.accepted (ledger 5 ((Machine.Execution.ofList _ _ _ hrun).trace 4)) =
      [⟨7, 1, 0⟩] := rfl
  have hclients : ∀ p, (Machine.Execution.ofList _ _ _ hrun).FairTo (BusAction.goesOn p) := by
    intro p
    refine Machine.Execution.fairTo_ofList hrun (not_able_of_idle ?_)
    match p with
    | 0 | 1 => rfl
  have hworker : (Machine.Execution.ofList _ _ _ hrun).FairTo fun a => a.byWorkerOf 5 = true :=
    Machine.Execution.fairTo_ofList hrun (not_able_of_exited ⟨_, rfl, rfl⟩)
  obtain ⟨k, hk, -, hsettled⟩ := accepted_settles hworker hclients 4
  exact ⟨_, haccepted, k, hk, haccepted ▸ hsettled _ rfl rfl⟩

end TopicBus

end Rdb
