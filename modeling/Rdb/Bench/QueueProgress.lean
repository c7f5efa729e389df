-- SUMMARY: The queue benchmark ends in every fair execution: no wake-up it needs is ever missing.
import Rdb.Lib.Fairness
import Rdb.Concurrency.Wakeups
import Rdb.Bench.QueueTransfer

/-!
# The program over the queue ends

Here threads do block, so what has to be shown is that somebody always can go on. That is
where the wake-ups of the queue come in: while there is an item the consumer is up or has
been notified, while there is none a producer is, and the queue that is closed has nobody
asleep. A spurious wake-up and a thread that goes back to sleep change nothing.
-/

namespace Rdb

namespace QueueTransfer

open Counting
open QueueThreads (Action Event Thread Waiter Cond)

variable {n : Nat}

/-! ## The variant -/

def Reader.phasesLeft : Reader → Nat
  | .exited => 0
  | .pop    => 1
  | .count  => 2

/-- The notifications a `close` still has to give. -/
def pendingLeft : Thread UInt64 → Nat
  | .closing pending => pending.length
  | _                => 0

def State.mainLeft (s : State n) : Nat :=
  match s.main with
  | .join p => 4 + (n - p)
  | .notify => 1 + pendingLeft (s.queue.threads .main)
  | .joinConsumer => 1
  | .returned _ => 0

/-- What the producer whose loop variable is `i` still has to push. -/
def pushesLeft (per i : Int64) : Nat := total per - i.toNatClampNeg

def State.variant (per : Int64) (s : State n) : Nat :=
  3 * ∑ p, pushesLeft per (s.next p) + 2 * s.queue.queue.items.length + s.reader.phasesLeft +
    s.mainLeft

/-- The next step of the thread brings the program forward. -/
def Helpful (per : Int64) (s : State n) : Role n → Prop
  | .consumer =>
    s.reader = .count ∨
      s.reader = .pop ∧ (s.queue.threads .consumer).asleepOn .notEmpty = false ∧
        (s.queue.queue.items ≠ [] ∨ s.queue.queue.closed = true)
  | .writer p =>
    s.exited per p = false ∧ (s.queue.threads (.writer p)).asleepOn .notFull = false ∧
      s.queue.queue.items.length < s.queue.queue.capacity
  | .main =>
    match s.main with
    | .join p       => ∀ h : p < n, s.exited per ⟨p, h⟩ = true
    | .notify       => True
    | .joinConsumer => s.reader = .exited
    | .returned _   => False

/-- A step of `r`, not a helpful one, that changes nothing but how `r` waits. -/
structure Quiet (per : Int64) (r : Role n) (s s' : State n) : Prop where
  queue : s'.queue.queue = s.queue.queue
  threads : ∀ u, u ≠ r → s'.queue.threads u = s.queue.threads u
  next : s'.next = s.next
  reader : s'.reader = s.reader
  main : s'.main = s.main
  ne_main : r ≠ .main
  unhelpful : ¬ Helpful per s r
  exited : ∀ q, s.exited per q = true → s'.exited per q = true

section Progress

variable {per : Int64} {capacity : Nat} {tr evs : Events n} {s s' : State n} {r : Role n}
  {p : Fin n} {now : TimePoint} {pick : Option (Role n)}

theorem Quiet.variant_eq (h : Quiet per r s s') : s'.variant per = s.variant per := by
  have hthread := h.threads .main (Ne.symm h.ne_main)
  simp only [State.variant, State.mainLeft, h.next, h.queue, h.reader, h.main, hthread]

theorem Quiet.helpful (h : Quiet per r s s') {t : Role n} (ht : Helpful per s t) :
    Helpful per s' t ∧ t ≠ r := by
  have hne : t ≠ r := by
    rintro rfl
    exact h.unhelpful ht
  refine ⟨?_, hne⟩
  cases t with
  | consumer =>
      simp only [Helpful, h.reader, h.queue, h.threads _ hne] at ht ⊢
      exact ht
  | writer p =>
      simp only [Helpful, State.exited, h.queue, h.next, h.threads _ hne] at ht ⊢
      exact ht
  | main =>
      cases hm : s.main with
      | join p =>
          simp only [Helpful, h.main, hm] at ht ⊢
          exact fun hp => h.exited _ (ht hp)
      | notify => simp only [Helpful, h.main, hm]
      | joinConsumer =>
          simp only [Helpful, h.main, h.reader, hm] at ht ⊢
          exact ht
      | returned consumed => simp only [Helpful, hm] at ht

/-! ## Every step goes forward or is quiet -/

theorem pushesLeft_succ {k : Nat} (hk : k < total per) :
    pushesLeft per (.ofNat k + 1) + 1 = pushesLeft per (.ofNat k) := by
  have hnext : Int64.ofNat k + 1 = Int64.ofNat (k + 1) := (Int64.ofNat_add k 1).symm
  rw [pushesLeft, pushesLeft, hnext, toNatClampNeg_ofNat hk,
    toNatClampNeg_ofNat (Nat.le_of_lt hk)]
  omega

/-- A producer that goes to sleep found the queue full. -/
theorem Inv.writer_progress (h : Inv per capacity tr s)
    (hstep : runWriter per s p now pick = some (s', evs)) :
    s'.variant per < s.variant per ∨ Quiet per (.writer p) s s' := by
  obtain ⟨a, queue, hactor, hqueue, hsec, hlt, rfl⟩ := runWriter_section (h.writer p) hstep
  have htr := QueueThreads.step_transition hqueue
  have hkept := htr.kept (u := .main) (by simp [hactor])
  have hopen := h.open_of_lt hlt
  have hout := htr.push_outcome h.policy hsec
  cases hout with
  | closed hcl => simp [hopen] at hcl
  | @pushed threads _ hroom hidle =>
      left
      obtain ⟨k, hk, hnext, -⟩ := h.sent p
      have hklt : k < total per := (ofNat_lt_iff hk).mp (hnext ▸ hlt)
      have hsum := ThreadSum.sum_update (pushesLeft per) s.next p (s.next p + 1)
      have hless := pushesLeft_succ hklt
      rw [← hnext] at hless
      -- the main thread waits for this producer, so it is not in `close`
      have hmain : ∀ s'' : State n, s''.main = s.main → s''.mainLeft = s.mainLeft := by
        have hm := h.main
        intro s'' hs''
        simp only [State.mainLeft, hs'']
        cases hs : s.main with
        | join p => rfl
        | joinConsumer => rfl
        | returned c => rfl
        | notify =>
            rw [hs] at hm
            simp [hm.1] at hopen
      simp only [State.variant, List.isEmpty_cons, Bool.false_eq_true, if_false, hmain]
      rw [hmain _ rfl]
      simp only [BoundedQueue.accept, List.length_append, List.length_singleton]
      omega
  | sleeps _ hfull =>
      right
      refine ⟨rfl, fun u hu => Function.update_of_ne hu .., rfl, rfl, rfl, by simp, ?_, ?_⟩
      · rintro ⟨-, -, hroom⟩
        exact absurd hfull (Nat.not_le.mpr hroom)
      · intro q hq
        rw [exited_iff] at hq ⊢
        have hqp : q ≠ p := by
          rintro rfl
          exact hq.2 hlt
        exact ⟨by simpa [hqp] using hq.1, hq.2⟩

theorem Inv.consumer_progress (h : Inv per capacity tr s)
    (hstep : runConsumer s now pick = some (s', evs)) :
    s'.variant per < s.variant per ∨ Quiet per .consumer s s' := by
  have hr := h.reader
  cases hs : s.reader with
  | pop =>
      obtain ⟨a, queue, hactor, hqueue, hsec, hafter⟩ := runConsumer_section hs hr hstep
      have htr := QueueThreads.step_transition hqueue
      have hmain : pendingLeft (queue.threads .main) = pendingLeft (s.queue.threads .main) := by
        rcases htr.kept (u := .main) (by simp [hactor]) with heq | ⟨w, heq⟩
        · rw [heq]
        · rw [heq]
          cases s.queue.threads .main <;> rfl
      have hout := htr.pop_outcome hsec
      cases hout with
      | popped hitems hidle =>
          left
          obtain ⟨rfl, -⟩ := Prod.mk.inj (Option.some.inj hafter)
          simp only [State.variant, State.mainLeft, hmain, hitems, hs, Reader.phasesLeft,
            List.length_cons]
          omega
      | drained hitems hcl hidle =>
          left
          obtain ⟨rfl, -⟩ := Prod.mk.inj (Option.some.inj hafter)
          simp only [State.variant, State.mainLeft, hmain, hs, Reader.phasesLeft]
          omega
      | sleeps hitems hopen =>
          right
          obtain ⟨rfl, -⟩ := Prod.mk.inj (Option.some.inj hafter)
          refine ⟨rfl, fun u hu => Function.update_of_ne hu .., rfl, rfl, rfl, by simp, ?_, ?_⟩
          · simp [Helpful, hs, hitems, hopen]
          · intro q hq
            exact exited_of_kept hq (.inl (by simp)) rfl
  | count =>
      left
      unfold runConsumer at hstep
      simp only [hs] at hstep
      obtain ⟨rfl, -⟩ := Prod.mk.inj (Option.some.inj hstep)
      simp only [State.variant, State.mainLeft, hs, Reader.phasesLeft]
      omega
  | exited => simp [runConsumer, hs] at hstep

theorem Inv.main_progress (h : Inv per capacity tr s) (hstep : runMain per s = some (s', evs)) :
    (∃ consumed, s'.main = .returned consumed) ∨ s'.variant per < s.variant per := by
  have hm := h.main
  unfold runMain at hstep
  split at hstep
  · rename_i p hs
    rw [hs] at hm
    split at hstep
    · rename_i hp
      split at hstep
      · obtain ⟨rfl, -⟩ := Prod.mk.inj (Option.some.inj hstep)
        right
        simp only [State.variant, State.mainLeft, hs]
        omega
      · cases hstep
    · obtain ⟨⟨queue, evs'⟩, hqueue, heq⟩ := Option.map_eq_some_iff.mp hstep
      obtain ⟨rfl, rfl⟩ := Prod.mk.inj heq
      simp only [QueueThreads.step, hm.1, Option.some.injEq, Prod.mk.injEq] at hqueue
      obtain ⟨rfl, -⟩ := hqueue
      right
      simp only [State.variant, State.mainLeft, hs, Function.update_self, pendingLeft,
        BoundedQueue.close, List.length_cons, List.length_nil]
      omega
  · rename_i hs
    rw [hs] at hm
    obtain ⟨-, c, pending, hclosing⟩ := hm
    obtain ⟨⟨queue, evs'⟩, hqueue, heq⟩ := Option.map_eq_some_iff.mp hstep
    obtain ⟨rfl, rfl⟩ := Prod.mk.inj heq
    simp only [QueueThreads.step, hclosing, Option.some.injEq, Prod.mk.injEq] at hqueue
    obtain ⟨rfl, -⟩ := hqueue
    right
    cases pending with
    | nil => simp [State.variant, State.mainLeft, hs, hclosing, pendingLeft]
    | cons c' pending => simp [State.variant, State.mainLeft, hs, hclosing, pendingLeft]
  · rename_i hs
    split at hstep
    · obtain ⟨rfl, -⟩ := Prod.mk.inj (Option.some.inj hstep)
      exact .inl ⟨_, rfl⟩
    · cases hstep
  · cases hstep

/-- The main thread never waits on a condition variable. -/
theorem Inv.main_at (h : Inv per capacity tr s) :
    s.queue.threads .main = .idle ∨ ∃ pending, s.queue.threads .main = .closing pending := by
  have hm := h.main
  cases hs : s.main <;> rw [hs] at hm
  case join => exact .inl hm.1
  case notify =>
    obtain ⟨-, c, pending, hclosing⟩ := hm
    exact .inr ⟨_, hclosing⟩
  case joinConsumer => exact .inl hm.2
  case returned => exact .inl hm.2.1

theorem Inv.consumer_at (h : Inv per capacity tr s) :
    s.queue.threads .consumer = .idle ∨
      ∃ w, s.queue.threads .consumer = .popping TimePoint.max w := by
  have hr := h.reader
  cases hs : s.reader <;> rw [hs] at hr
  case pop => exact hr
  case count => exact .inl hr
  case exited => exact .inl hr.1

theorem Inv.main_up (h : Inv per capacity tr s) (c : Cond) :
    (s.queue.threads .main).asleepOn c = false := by
  rcases h.main_at with hidle | ⟨pending, hclosing⟩
  · simp [hidle, Thread.asleepOn]
  · simp [hclosing, Thread.asleepOn]

theorem Inv.main_not_notified (h : Inv per capacity tr s) (c : Cond) :
    (s.queue.threads .main).notifiedOn c = false := by
  rcases h.main_at with hidle | ⟨pending, hclosing⟩
  · simp [hidle, Thread.notifiedOn]
  · simp [hclosing, Thread.notifiedOn]

theorem Inv.getUp_quiet (h : Inv per capacity tr s)
    {queue : QueueThreads.State (Role n) UInt64}
    (hqueue : QueueThreads.step s.queue (.getUp r) = some (queue, evs)) :
    Quiet per r s { s with queue } := by
  have htr := QueueThreads.step_transition hqueue
  have hkeep := h.stepGetUp hqueue
  cases htr with
  | @getUp u c ha hasleep =>
      obtain rfl := Action.getUp.inj ha
      refine ⟨rfl, fun u hu => Function.update_of_ne hu .., rfl, rfl, rfl, ?_, ?_, ?_⟩
      · rintro rfl
        simp [h.main_up] at hasleep
      · -- who is asleep does not help
        intro hhelp
        cases r with
        | main => simp [h.main_up] at hasleep
        | consumer =>
            have hr := h.reader
            rcases hhelp with hcount | ⟨hpop, hup, -⟩
            · rw [hcount, Reader.Knows] at hr
              simp [hr, Thread.asleepOn] at hasleep
            · rw [hpop] at hr
              rcases hr with hidle | ⟨w, hw⟩
              · simp [hidle, Thread.asleepOn] at hasleep
              · rw [hw] at hasleep hup
                cases w <;> simp [Thread.asleepOn] at hasleep hup
        | writer p =>
            obtain ⟨-, hup, -⟩ := hhelp
            rcases h.writer p with hidle | ⟨w, hw, -⟩
            · simp [hidle, Thread.asleepOn] at hasleep
            · rw [hw] at hasleep hup
              cases w <;> simp [Thread.asleepOn] at hasleep hup
      · intro q hq
        exact exited_of_kept hq (hkeep.2.2.1 _) rfl
  | accept hsec | reject hsec | pushSleeps hsec => cases hsec
  | pop hsec | popNone hsec | popSleeps hsec => cases hsec
  | clear ha | close ha | notify ha => cases ha

/-! ## Somebody helps -/

/-- Whoever has been notified that there is an item is the consumer. -/
theorem Inv.consumer_of_notified (h : Inv per capacity tr s) {u : Role n}
    (hu : (s.queue.threads u).notifiedOn .notEmpty = true) : u = .consumer := by
  cases u with
  | main => simp [h.main_not_notified] at hu
  | consumer => rfl
  | writer p =>
      rcases h.writer p with hidle | ⟨w, hw, -⟩
      · simp [hidle, Thread.notifiedOn] at hu
      · cases w <;> simp [hw, Thread.notifiedOn] at hu

/-- Whoever has been notified that there is room is a producer in its push. -/
theorem Inv.writer_of_notified (h : Inv per capacity tr s) {u : Role n}
    (hu : (s.queue.threads u).notifiedOn .notFull = true) :
    ∃ p, u = .writer p ∧ s.exited per p = false ∧
      (s.queue.threads (.writer p)).asleepOn .notFull = false := by
  cases u with
  | main => simp [h.main_not_notified] at hu
  | consumer =>
      rcases h.consumer_at with hidle | ⟨w, hw⟩
      · simp [hidle, Thread.notifiedOn] at hu
      · cases w <;> simp [hw, Thread.notifiedOn] at hu
  | writer p =>
      refine ⟨p, rfl, ?_, ?_⟩
      all_goals
        rcases h.writer p with hidle | ⟨w, hw, -⟩
        · simp [hidle, Thread.notifiedOn] at hu
      · simp [State.exited, hw]
      · cases w <;> simp_all [Thread.notifiedOn, Thread.asleepOn]

/-- With an item in the queue the consumer is not asleep. -/
theorem Inv.consumer_up (h : Inv per capacity tr s) (hopen : s.queue.queue.closed = false)
    (hitems : s.queue.queue.items ≠ []) :
    (s.queue.threads .consumer).asleepOn .notEmpty = false := by
  obtain ⟨as, hrun⟩ := h.queue
  by_contra hasleep
  rw [Bool.not_eq_false] at hasleep
  rcases (QueueThreads.attended_of_run hrun).covered hopen .notEmpty with hnone | henough
  · simp [hnone .consumer] at hasleep
  · have hpos : 0 < QueueThreads.notified .notEmpty s.queue.threads :=
      (List.length_pos_iff.mpr hitems).trans_le henough
    obtain ⟨u, hu⟩ := ThreadSum.count_pos_iff.mp hpos
    obtain rfl := h.consumer_of_notified hu
    simp [QueueThreads.Thread.notifiedOn_of_asleepOn hasleep] at hu

/-- With an empty queue a producer that is not done yet is up. -/
theorem Inv.writer_up (h : Inv per capacity tr s) (hopen : s.queue.queue.closed = false)
    (hitems : s.queue.queue.items = []) (hp : s.exited per p = false) :
    ∃ q, Helpful per s (.writer q) := by
  have hroom : s.queue.queue.items.length < s.queue.queue.capacity := by
    rw [hitems]
    exact s.queue.queue.capacity_pos
  obtain ⟨as, hrun⟩ := h.queue
  rcases (QueueThreads.attended_of_run hrun).covered hopen .notFull with hnone | henough
  · exact ⟨p, hp, hnone _, hroom⟩
  · have hpos : 0 < QueueThreads.notified .notFull s.queue.threads := by
      refine Nat.lt_of_lt_of_le ?_ henough
      exact Nat.sub_pos_of_lt hroom
    obtain ⟨u, hu⟩ := ThreadSum.count_pos_iff.mp hpos
    obtain ⟨q, -, hq, hup⟩ := h.writer_of_notified hu
    exact ⟨q, hq, hup, hroom⟩

/-- Nobody sleeps on the closed queue once the main thread is past `close`. -/
theorem Inv.up_of_joinConsumer (h : Inv per capacity tr s) (hs : s.main = .joinConsumer)
    (c : Cond) (u : Role n) : (s.queue.threads u).asleepOn c = false := by
  have hm := h.main
  rw [hs] at hm
  obtain ⟨as, hrun⟩ := h.queue
  by_contra hasleep
  rw [Bool.not_eq_false] at hasleep
  obtain ⟨t, pending, ht, -⟩ := (QueueThreads.attended_of_run hrun).closing hm.1 c u hasleep
  cases t with
  | main => simp [hm.2] at ht
  | writer p =>
      rcases h.writer p with hidle | ⟨w, hw, -⟩
      · simp [hidle] at ht
      · simp [hw] at ht
  | consumer =>
      rcases h.consumer_at with hidle | ⟨w, hw⟩
      · simp [hidle] at ht
      · simp [hw] at ht

theorem Inv.exists_helpful (h : Inv per capacity tr s)
    (hgoal : ∀ consumed, s.main ≠ .returned consumed) : ∃ t, Helpful per s t := by
  have hm := h.main
  have hr := h.reader
  cases hs : s.main with
  | notify => exact ⟨.main, by simp only [Helpful, hs]⟩
  | returned consumed => exact absurd hs (hgoal consumed)
  | joinConsumer =>
      rw [hs] at hm
      cases hreader : s.reader with
      | exited => exact ⟨.main, by simp only [Helpful, hs]; exact hreader⟩
      | count => exact ⟨.consumer, .inl hreader⟩
      | pop => exact ⟨.consumer, .inr ⟨hreader, h.up_of_joinConsumer hs _ _, .inr hm.1⟩⟩
  | join p =>
      rw [hs] at hm
      by_cases hjoin : ∀ hp : p < n, s.exited per ⟨p, hp⟩ = true
      · exact ⟨.main, by simp only [Helpful, hs]; exact hjoin⟩
      · simp only [not_forall, Bool.not_eq_true] at hjoin
        obtain ⟨hp, hnot⟩ := hjoin
        cases hreader : s.reader with
        | count => exact ⟨.consumer, .inl hreader⟩
        | exited =>
            rw [hreader] at hr
            exact absurd hr.2.1 (by simp [hm.2.1])
        | pop =>
            by_cases hitems : s.queue.queue.items = []
            · obtain ⟨q, hq⟩ := h.writer_up hm.2.1 hitems hnot
              exact ⟨_, hq⟩
            · exact ⟨.consumer, .inr ⟨hreader, h.consumer_up hm.2.1 hitems, .inl hitems⟩⟩

/-! ## Who helps can move -/

/-- The steps of a thread's own. -/
def own (t : Role n) (a : Step n) : Prop := ∃ now pick, a = .run t now pick

theorem exists_afterReader (s : State n)
    (r : QueueThreads.State (Role n) UInt64 × Events n) :
    ∃ x, afterReader s (some r) = some x := ⟨_, rfl⟩

theorem exists_afterWriter (s : State n) (p : Fin n)
    (r : QueueThreads.State (Role n) UInt64 × Events n) :
    ∃ x, afterWriter s p (some r) = some x := ⟨_, rfl⟩

theorem Inv.able (h : Inv per capacity tr s) {t : Role n} (ht : Helpful per s t) :
    (machine n per).Able (own t) s := by
  have hpick : (∃ pick x, (machine n per).step s (.run t 0 pick) = some x) →
      (machine n per).Able (own t) s := by
    rintro ⟨pick, x, hx⟩
    exact ⟨_, x.1, x.2, ⟨0, pick, rfl⟩, hx⟩
  apply hpick
  cases t with
  | main =>
      have hm := h.main
      change ∃ pick x, runMain per s = some x
      refine ⟨none, ?_⟩
      simp only [Helpful] at ht
      unfold runMain
      cases hs : s.main with
      | join p =>
          rw [hs] at hm
          simp only [hs] at ht
          by_cases hp : p < n
          · exact ⟨_, by simp only [dif_pos hp, ht hp]; rfl⟩
          · exact ⟨_, by simp only [dif_neg hp, QueueThreads.step, hm.1]; rfl⟩
      | notify =>
          rw [hs] at hm
          obtain ⟨-, c, pending, hclosing⟩ := hm
          exact ⟨_, by simp only [QueueThreads.step, hclosing]; rfl⟩
      | joinConsumer =>
          simp only [hs] at ht
          exact ⟨_, by simp only [if_pos ht]; rfl⟩
      | returned consumed => simp [hs] at ht
  | consumer =>
      have hr := h.reader
      change ∃ pick x, runConsumer s 0 pick = some x
      unfold runConsumer
      rcases ht with hcount | ⟨hpop, hup, -⟩
      · exact ⟨none, _, by simp only [hcount]; rfl⟩
      · rw [hpop] at hr
        rcases hr with hidle | ⟨w, hw⟩
        · obtain ⟨pick, x, hx⟩ := QueueThreads.exists_pop TimePoint.max hidle
          exact ⟨pick, by simp only [hpop, hidle, hx]; exact exists_afterReader s x⟩
        · have hawake : w ≠ .asleep := by
            rintro rfl
            simp [hw, Thread.asleepOn] at hup
          obtain ⟨pick, x, hx⟩ := QueueThreads.exists_resume_popping 0 hw hawake
          exact ⟨pick, by simp only [hpop, hw, hx]; exact exists_afterReader s x⟩
  | writer p =>
      obtain ⟨hnot, hup, -⟩ := ht
      change ∃ pick x, runWriter per s p 0 pick = some x
      unfold runWriter
      rcases h.writer p with hidle | ⟨w, hw, hlt⟩
      · have hlt : s.next p < per := by
          simpa [State.exited, hidle] using hnot
        obtain ⟨pick, x, hx⟩ :=
          QueueThreads.exists_push (s.next p).toUInt64 TimePoint.max hidle
        exact ⟨pick, by simp only [hidle, if_pos hlt, hx]; exact exists_afterWriter s p x⟩
      · have hawake : w ≠ .asleep := by
          rintro rfl
          simp [hw, Thread.asleepOn] at hup
        obtain ⟨pick, x, hx⟩ := QueueThreads.exists_resume_pushing 0 hw hawake
        exact ⟨pick, by simp only [hw, hx]; exact exists_afterWriter s p x⟩

/-! ## The program ends -/

theorem progress :
    (machine n per).Progress own (fun s => ∃ tr, Inv per capacity tr s)
      (fun s => ∃ consumed, s.main = .returned consumed) (State.variant per) (Helpful per) where
  helped := by
    rintro s ⟨tr, hI⟩ hgoal
    exact hI.exists_helpful fun consumed hret => hgoal ⟨consumed, hret⟩
  able := by
    rintro s t ⟨tr, hI⟩ - ht
    exact hI.able ht
  step := by
    rintro s a s' evs ⟨tr, hI⟩ - hstep hgoal
    have hquiet : ∀ {r}, Quiet per r s s' → (∀ t, own t a → t = r) →
        s'.variant per = s.variant per ∧ ∀ t, Helpful per s t → Helpful per s' t ∧ ¬ own t a := by
      intro r hq hown
      refine ⟨hq.variant_eq, fun t ht => ⟨(hq.helpful ht).1, fun hta => ?_⟩⟩
      exact (hq.helpful ht).2 (hown t hta)
    cases a with
    | run r now pick =>
        have hown : ∀ t, own t (.run r now pick) → t = r := by
          rintro t ⟨now', pick', heq⟩
          exact (Step.run.inj heq).1.symm
        cases r with
        | main =>
            rcases hI.main_progress hstep with hret | hless
            · exact absurd hret hgoal
            · exact .inl hless
        | consumer => exact (hI.consumer_progress hstep).imp id fun hq => hquiet hq hown
        | writer p => exact (hI.writer_progress hstep).imp id fun hq => hquiet hq hown
    | getUp r =>
        obtain ⟨⟨queue, evs'⟩, hqueue, heq⟩ := Option.map_eq_some_iff.mp hstep
        obtain ⟨rfl, rfl⟩ := Prod.mk.inj heq
        right
        refine hquiet (hI.getUp_quiet hqueue) ?_
        rintro t ⟨now, pick, heq⟩
        cases heq

/-- **The program ends.** In every execution that is weakly fair to the producers, the
    consumer and the main thread, with any number of spurious wake-ups,
    `run_bounded_queue` returns, and its result is the number of producers times
    `count / producers`. All threads have left their code by then, and nobody sleeps. -/
theorem queue_terminates {count producers capacity : Int64} (hproducers : 0 < producers)
    (ex : (machine (writers producers) (perProducer count producers)).Execution (.init _ capacity))
    (hfair : ex.WeaklyFair own) :
    ∃ k consumed, (ex.state k).main = .returned consumed ∧
      consumed.toNat = total producers * (total count / total producers) ∧
      (ex.state k).reader = .exited ∧
      (∀ p, (ex.state k).exited (perProducer count producers) p = true) ∧
      ∀ r, (ex.state k).queue.threads r = .idle := by
  have hI : ∀ k, ∃ tr, Inv (perProducer count producers) capacity.toUInt64.toNat tr
      (ex.state k) := by
    intro k
    obtain ⟨as, hrun⟩ := ex.exists_run k
    exact ⟨_, inv_of_run hrun⟩
  obtain ⟨k, -, consumed, hret⟩ := ex.exists_goal hfair progress 0 fun k _ => hI k
  obtain ⟨tr, hk⟩ := hI k
  exact ⟨k, consumed, hret, hk.consumed_of_returned hproducers hret, hk.all_left hret⟩

/-- One producer and one value. The consumer comes first and sleeps. -/
theorem queue_terminates_one :
    ∃ ex : (machine (writers 1) (perProducer 1 1)).Execution (.init _ 1), ∃ k consumed,
      (ex.state k).main = .returned consumed ∧ consumed.toNat = 1 ∧
      (ex.state k).reader = .exited ∧ (∀ p, (ex.state k).exited (perProducer 1 1) p = true) ∧
      ∀ r, (ex.state k).queue.threads r = .idle := by
  have hrun : ((machine (writers 1) (perProducer 1 1)).exec (.init _ 1)
      [.run .consumer 0 none, .run (.writer ⟨0, by decide⟩) 0 (some .consumer),
        .run .consumer 0 none, .run .consumer 0 none, .run .main 0 none, .run .main 0 none,
        .run .main 0 none, .run .main 0 none, .run .consumer 0 none,
        .run .main 0 none]).isSome = true := by decide
  refine ⟨.ofList _ _ _ hrun, ?_⟩
  refine @queue_terminates 1 1 1 (by decide) _
    (Machine.Execution.weaklyFair_ofList hrun ?_ _)
  intro a
  match a with
  | .run .main _ _ | .run .consumer _ _ => rfl
  | .run (.writer ⟨0, _⟩) _ _ => rfl
  | .getUp .main | .getUp .consumer | .getUp (.writer ⟨0, _⟩) => rfl

end Progress

end QueueTransfer

end Rdb
