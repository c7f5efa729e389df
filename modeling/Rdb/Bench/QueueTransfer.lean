-- SUMMARY: The queue benchmark of `bench/bench_queue_throughput.cpp`: every value of every producer is consumed once before the program returns.
import Mathlib.Data.Fintype.Sum
import Mathlib.Tactic.DeriveFintype
import Rdb.Lib.ThreadSum
import Rdb.Bench.Counting
import Rdb.Concurrency.QueueCalls

/-!
# Several producers and one consumer over the queue

`run_bounded_queue` starts a consumer that pops until `pop` says that the queue is closed
and drained, and producers that push a share of `count` values each without looking at
the answer. The main thread joins the producers, closes the queue and joins the consumer.
A thread that has not been started yet is one that has not taken a step.
-/

namespace Rdb

namespace QueueTransfer

open Counting
open QueueThreads (Action Event Thread Waiter Cond PushSection PopSection PushOutcome PopOutcome
  entered left)

/-! ## The program -/

/-- The threads of `run_bounded_queue` with `n` producers. -/
inductive Role (n : Nat) where
  | main
  | consumer
  | writer (p : Fin n)
  deriving DecidableEq, Fintype

variable {n : Nat}

/-- What the consumer does next. -/
inductive Reader where
  /-- `queue.pop()`: call it, or go on with the call -/
  | pop
  /-- `consumed.fetch_add(1)` -/
  | count
  | exited
  deriving DecidableEq

/-- What the main thread does next. -/
inductive Main where
  /-- join the producer `p`, or close the queue after the last one -/
  | join (p : Nat)
  /-- in `queue.close()` -/
  | notify
  | joinConsumer
  /-- `run_bounded_queue` has returned with this `consumed` -/
  | returned (consumed : UInt64)
  deriving DecidableEq

structure State (n : Nat) where
  queue : QueueThreads.State (Role n) UInt64
  /-- the loop variable `i` of each producer -/
  next : Fin n → Int64
  reader : Reader
  consumed : UInt64
  main : Main

/-- How many producers are started. -/
def writers (producers : Int64) : Nat := total producers

/-- `count / producers` -/
def perProducer (count producers : Int64) : Int64 := count / producers

def State.init (n : Nat) (capacity : Int64) : State n where
  queue := .init capacity.toUInt64.toNat .block
  next _ := 0
  reader := .pop
  consumed := 0
  main := .join 0

/-- The producer `p` has left its loop. -/
def State.exited (per : Int64) (s : State n) (p : Fin n) : Bool :=
  s.queue.threads (.writer p) == .idle && !decide (s.next p < per)

/-- A step of the scheduler. `now` is a clock reading, `pick` the waiter that a
    `notify_one` moves. -/
inductive Step (n : Nat) where
  | run (r : Role n) (now : TimePoint) (pick : Option (Role n))
  /-- a spurious wake-up -/
  | getUp (r : Role n)

abbrev Events (n : Nat) := List (Event (Role n) UInt64)

/-- The end of a section of `queue.push(i)`: the answer is not looked at. -/
def afterWriter (s : State n) (p : Fin n)
    (r : Option (QueueThreads.State (Role n) UInt64 × Events n)) : Option (State n × Events n) :=
  r.map fun (queue, evs) =>
    if evs.isEmpty then ({ s with queue }, evs)
    else ({ s with queue, next := Function.update s.next p (s.next p + 1) }, evs)

def runWriter (per : Int64) (s : State n) (p : Fin n) (now : TimePoint)
    (pick : Option (Role n)) : Option (State n × Events n) :=
  match s.queue.threads (.writer p) with
  | .idle =>
    if s.next p < per then
      afterWriter s p
        (QueueThreads.step s.queue (.push (.writer p) (s.next p).toUInt64 TimePoint.max pick))
    else none
  | _ => afterWriter s p (QueueThreads.step s.queue (.resume (.writer p) now pick))

/-- The end of a section of `queue.pop()`. -/
def afterReader (s : State n) (r : Option (QueueThreads.State (Role n) UInt64 × Events n)) :
    Option (State n × Events n) :=
  r.map fun (queue, evs) =>
    match evs with
    | [.popped _ (some _)] => ({ s with queue, reader := .count }, evs)
    | [.popped _ none]     => ({ s with queue, reader := .exited }, evs)
    | _                    => ({ s with queue }, evs)

def runConsumer (s : State n) (now : TimePoint) (pick : Option (Role n)) :
    Option (State n × Events n) :=
  match s.reader with
  | .pop =>
    match s.queue.threads .consumer with
    | .idle => afterReader s (QueueThreads.step s.queue (.pop .consumer TimePoint.max pick))
    | _     => afterReader s (QueueThreads.step s.queue (.resume .consumer now pick))
  | .count  => some ({ s with consumed := s.consumed + 1, reader := .pop }, [])
  | .exited => none

def runMain (per : Int64) (s : State n) : Option (State n × Events n) :=
  match s.main with
  | .join p =>
    if h : p < n then
      if s.exited per ⟨p, h⟩ then some ({ s with main := .join (p + 1) }, []) else none
    else
      (QueueThreads.step s.queue (.close .main)).map fun (queue, evs) =>
        ({ s with queue, main := .notify }, evs)
  | .notify =>
    (QueueThreads.step s.queue (.notify .main)).map fun (queue, evs) =>
      ({ s with queue, main := if queue.threads .main = .idle then .joinConsumer else .notify },
        evs)
  | .joinConsumer =>
    if s.reader = .exited then some ({ s with main := .returned s.consumed }, []) else none
  | .returned _ => none

def step (per : Int64) (s : State n) : Step n → Option (State n × Events n)
  | .run .main _ _              => runMain per s
  | .run .consumer now pick     => runConsumer s now pick
  | .run (.writer p) now pick   => runWriter per s p now pick
  | .getUp r =>
    (QueueThreads.step s.queue (.getUp r)).map fun (queue, evs) => ({ s with queue }, evs)

def machine (n : Nat) (per : Int64) : Machine (State n) (Step n) (Event (Role n) UInt64) where
  step := step per

/-! ## What is observed -/

/-- The values the producer `p` has got into the queue, in order. -/
def pushedBy (p : Fin n) (tr : Events n) : List UInt64 :=
  tr.flatMap fun
    | .pushed t v status _ => if t = .writer p ∧ status = .ok then [v] else []
    | _                    => []

/-- The values the consumer got, in order. -/
def poppedValues (tr : Events n) : List UInt64 :=
  tr.flatMap fun
    | .popped _ value => value.toList
    | _               => []

@[simp] theorem pushedBy_append (p : Fin n) (tr tr' : Events n) :
    pushedBy p (tr ++ tr') = pushedBy p tr ++ pushedBy p tr' := by simp [pushedBy]

@[simp] theorem poppedValues_append (tr tr' : Events n) :
    poppedValues (tr ++ tr') = poppedValues tr ++ poppedValues tr' := by simp [poppedValues]

@[simp] theorem pushedBy_nil (p : Fin n) : pushedBy p [] = [] := rfl
@[simp] theorem poppedValues_nil : poppedValues ([] : Events n) = [] := rfl

/-! ## The invariant -/

/-- Where a producer is in the code of the queue. -/
def WriterAt (per i : Int64) (th : Thread UInt64) : Prop :=
  th = .idle ∨ ∃ w, th = .pushing i.toUInt64 TimePoint.max w ∧ i < per

/-- What is known of the queue while the consumer is here. -/
def Reader.Knows (queue : QueueThreads.State (Role n) UInt64) : Reader → Prop
  | .pop =>
    queue.threads .consumer = .idle ∨ ∃ w, queue.threads .consumer = .popping TimePoint.max w
  | .count  => queue.threads .consumer = .idle
  | .exited =>
    queue.threads .consumer = .idle ∧ queue.queue.closed = true ∧ queue.queue.items = []

/-- What is known while the main thread is here. -/
def Main.Knows (per : Int64) (s : State n) : Main → Prop
  | .join p =>
    s.queue.threads .main = .idle ∧ s.queue.queue.closed = false ∧
      ∀ q : Fin n, q.val < p → s.exited per q = true
  | .notify =>
    s.queue.queue.closed = true ∧ ∃ c pending, s.queue.threads .main = .closing (c :: pending)
  | .joinConsumer => s.queue.queue.closed = true ∧ s.queue.threads .main = .idle
  | .returned consumed =>
    s.queue.queue.closed = true ∧ s.queue.threads .main = .idle ∧ s.reader = .exited ∧
      consumed = s.consumed

structure Inv (per : Int64) (capacity : Nat) (tr : Events n) (s : State n) : Prop where
  queue : ∃ as, (QueueThreads.machine (Role n) UInt64).Run (.init capacity .block) as tr s.queue
  sent : ∀ p, ∃ k ≤ total per, s.next p = .ofNat k ∧ pushedBy p tr = sequence k
  writer : ∀ p, WriterAt per (s.next p) (s.queue.threads (.writer p))
  reader : s.reader.Knows s.queue
  main : s.main.Knows per s
  closed : s.queue.queue.closed = true → ∀ p, s.exited per p = true
  left_eq : left tr = poppedValues tr
  entered_eq : (entered tr).length = ∑ p, (pushedBy p tr).length
  consumed : s.consumed + (if s.reader = .count then 1 else 0) =
    UInt64.ofNat (poppedValues tr).length

section Steps

variable {per : Int64} {capacity : Nat} {tr evs : Events n} {s s' : State n} {p : Fin n}
  {now : TimePoint} {pick : Option (Role n)}

theorem WriterAt.kept {i : Int64} {th th' : Thread UInt64} (h : WriterAt per i th)
    (hkept : Thread.Kept th th') : WriterAt per i th' := by
  rcases h with rfl | ⟨w, rfl, hlt⟩
  · exact .inl hkept.idle
  · obtain ⟨w', rfl⟩ := hkept.pushing
    exact .inr ⟨w', rfl, hlt⟩

theorem exited_iff : s.exited per p = true ↔
    s.queue.threads (.writer p) = .idle ∧ ¬ s.next p < per := by
  simp [State.exited]

theorem exited_of_kept (h : s.exited per p = true)
    (hkept : Thread.Kept (s.queue.threads (.writer p)) (s'.queue.threads (.writer p)))
    (hnext : s'.next p = s.next p) : s'.exited per p = true := by
  rw [exited_iff] at h ⊢
  rw [h.1] at hkept
  exact ⟨hkept.idle, hnext ▸ h.2⟩

/-- A step that moves other threads on does not take the consumer out of its place. -/
theorem Reader.Knows.kept {r : Reader} {queue queue' : QueueThreads.State (Role n) UInt64}
    (h : r.Knows queue)
    (hkept : Thread.Kept (queue.threads .consumer) (queue'.threads .consumer))
    (hclosed : queue.queue.closed = true → queue'.queue.closed = true ∧
      queue'.queue.items = queue.queue.items) : r.Knows queue' := by
  cases r with
  | pop =>
      rcases h with hidle | ⟨w, hpop⟩
      · rw [hidle] at hkept
        exact .inl hkept.idle
      · rw [hpop] at hkept
        exact .inr hkept.popping
  | count =>
      rw [Reader.Knows] at h
      rw [h] at hkept
      exact hkept.idle
  | exited =>
      obtain ⟨hidle, hcl, hitems⟩ := h
      rw [hidle] at hkept
      exact ⟨hkept.idle, (hclosed hcl).1, (hclosed hcl).2.trans hitems⟩

/-- A step of another thread does not take the main thread out of its place. -/
theorem Main.Knows.kept {m : Main} (h : m.Knows per s)
    (hkept : Thread.Kept (s.queue.threads .main) (s'.queue.threads .main))
    (hclosed : s'.queue.queue.closed = s.queue.queue.closed)
    (hexited : ∀ q, s.exited per q = true → s'.exited per q = true)
    (hreader : s.reader = .exited → s'.reader = .exited ∧ s'.consumed = s.consumed) :
    m.Knows per s' := by
  cases m with
  | join p =>
      obtain ⟨hidle, hopen, hjoined⟩ := h
      rw [hidle] at hkept
      exact ⟨hkept.idle, hclosed.trans hopen, fun q hq => hexited q (hjoined q hq)⟩
  | notify =>
      obtain ⟨hcl, c, pending, hclosing⟩ := h
      rw [hclosing] at hkept
      exact ⟨hclosed.trans hcl, c, pending, hkept.closing⟩
  | joinConsumer =>
      obtain ⟨hcl, hidle⟩ := h
      rw [hidle] at hkept
      exact ⟨hclosed.trans hcl, hkept.idle⟩
  | returned consumed =>
      obtain ⟨hcl, hidle, hexit, rfl⟩ := h
      rw [hidle] at hkept
      obtain ⟨hexit', hconsumed⟩ := hreader hexit
      exact ⟨hclosed.trans hcl, hkept.idle, hexit', hconsumed.symm⟩

theorem Inv.policy (h : Inv per capacity tr s) : s.queue.queue.policy = .block := by
  obtain ⟨as, hrun⟩ := h.queue
  exact (QueueThreads.accounted_of_run hrun).policy_eq

theorem Inv.run_snoc (h : Inv per capacity tr s) {a : Action (Role n) UInt64}
    {queue : QueueThreads.State (Role n) UInt64}
    (hstep : QueueThreads.step s.queue a = some (queue, evs)) :
    ∃ as, (QueueThreads.machine (Role n) UInt64).Run (.init capacity .block) as (tr ++ evs)
      queue := by
  obtain ⟨as, hrun⟩ := h.queue
  exact ⟨_, hrun.snoc hstep⟩

/-! ## Sections of the program's threads -/

/-- A step of a producer is a section of its push of `i`. -/
theorem runWriter_section (hw : WriterAt per (s.next p) (s.queue.threads (.writer p)))
    (h : runWriter per s p now pick = some (s', evs)) :
    ∃ a queue, a.actor = .writer p ∧ QueueThreads.step s.queue a = some (queue, evs) ∧
      PushSection s.queue (.writer p) (s.next p).toUInt64 TimePoint.max a ∧ s.next p < per ∧
      s' = if evs.isEmpty then { s with queue }
           else { s with queue, next := Function.update s.next p (s.next p + 1) } := by
  have hafter : ∀ {r}, afterWriter s p r = some (s', evs) → ∃ queue, r = some (queue, evs) ∧
      s' = if evs.isEmpty then { s with queue }
           else { s with queue, next := Function.update s.next p (s.next p + 1) } := by
    intro r hr
    obtain ⟨⟨queue, evs'⟩, rfl, heq⟩ := Option.map_eq_some_iff.mp hr
    dsimp only at heq
    split at heq
    · rename_i hempty
      obtain ⟨rfl, rfl⟩ := Prod.mk.inj heq
      exact ⟨queue, rfl, by rw [if_pos hempty]⟩
    · rename_i hsome
      obtain ⟨rfl, rfl⟩ := Prod.mk.inj heq
      exact ⟨queue, rfl, by rw [if_neg hsome]⟩
  unfold runWriter at h
  rcases hw with hidle | ⟨w, hpush, hlt⟩
  · simp only [hidle] at h
    split at h
    · rename_i hlt
      obtain ⟨queue, hstep, hs'⟩ := hafter h
      exact ⟨_, queue, rfl, hstep, .enter hidle, hlt, hs'⟩
    · cases h
  · simp only [hpush] at h
    obtain ⟨queue, hstep, hs'⟩ := hafter h
    refine ⟨_, queue, rfl, hstep, .wake hpush ?_, hlt, hs'⟩
    rintro rfl
    simp [QueueThreads.step, hpush] at hstep

/-- A step of the consumer out of `pop` is a section of its pop. -/
theorem runConsumer_section (hr : s.reader = .pop) (hk : s.reader.Knows s.queue)
    (h : runConsumer s now pick = some (s', evs)) :
    ∃ a queue, a.actor = .consumer ∧ QueueThreads.step s.queue a = some (queue, evs) ∧
      PopSection s.queue .consumer TimePoint.max a ∧
      afterReader s (some (queue, evs)) = some (s', evs) := by
  have hafter : ∀ {r}, afterReader s r = some (s', evs) → ∃ queue, r = some (queue, evs) := by
    intro r hr
    obtain ⟨⟨queue, evs'⟩, rfl, heq⟩ := Option.map_eq_some_iff.mp hr
    dsimp only at heq
    split at heq
    all_goals
      obtain ⟨-, rfl⟩ := Prod.mk.inj heq
      exact ⟨queue, rfl⟩
  rw [hr] at hk
  unfold runConsumer at h
  simp only [hr] at h
  rcases hk with hidle | ⟨w, hpop⟩
  · simp only [hidle] at h
    obtain ⟨queue, hstep⟩ := hafter h
    exact ⟨_, queue, rfl, hstep, .enter hidle, hstep ▸ h⟩
  · simp only [hpop] at h
    obtain ⟨queue, hstep⟩ := hafter h
    refine ⟨_, queue, rfl, hstep, .wake hpop ?_, hstep ▸ h⟩
    rintro rfl
    simp [QueueThreads.step, hpop] at hstep

/-! ## Events of one step -/

theorem pushedBy_pushed (p q : Fin n) (v : UInt64) :
    pushedBy q [.pushed (.writer p) v .ok none] = if q = p then [v] else [] := by
  by_cases hqp : q = p
  · simp [pushedBy, hqp]
  · simp [pushedBy, hqp, Ne.symm hqp]

/-! ## The invariant is kept -/

/-- A producer that moves is in its loop, so the queue is open. -/
theorem Inv.open_of_lt (h : Inv per capacity tr s) (hlt : s.next p < per) :
    s.queue.queue.closed = false := by
  cases hcl : s.queue.queue.closed with
  | false => rfl
  | true => exact absurd hlt (exited_iff.mp (h.closed hcl p)).2

theorem Inv.stepWriter (h : Inv per capacity tr s)
    (hstep : runWriter per s p now pick = some (s', evs)) : Inv per capacity (tr ++ evs) s' := by
  obtain ⟨a, queue, hactor, hqueue, hsec, hlt, rfl⟩ := runWriter_section (h.writer p) hstep
  have htr := QueueThreads.step_transition hqueue
  have hkept : ∀ r, r ≠ .writer p → Thread.Kept (s.queue.threads r) (queue.threads r) :=
    fun r hr => htr.kept (hactor ▸ hr)
  have hother : ∀ q, q ≠ p →
      Thread.Kept (s.queue.threads (.writer q)) (queue.threads (.writer q)) :=
    fun q hq => hkept _ (by simpa using hq)
  have hopen := h.open_of_lt hlt
  have hnot : s.exited per p = false := by
    rw [← Bool.not_eq_true, exited_iff]
    exact fun hex => hex.2 hlt
  have hrun := h.run_snoc hqueue
  have hout := htr.push_outcome h.policy hsec
  generalize hv : (s.next p).toUInt64 = v at hout
  cases hout with
  | closed hcl => simp [hopen] at hcl
  | @pushed threads _ hroom hidle =>
      obtain ⟨k, hk, hnext, hsent⟩ := h.sent p
      have hklt : k < total per := (ofNat_lt_iff hk).mp (hnext ▸ hlt)
      have hv' : v = UInt64.ofNat k := by rw [← hv, hnext, Int64.toUInt64_ofNat']
      have hlen : ∀ q, (pushedBy q (tr ++ [.pushed (.writer p) v .ok none])).length =
          (pushedBy q tr).length + if q = p then 1 else 0 := by
        intro q
        rw [pushedBy_append, pushedBy_pushed, List.length_append]
        split <;> rfl
      exact {
        queue := hrun
        sent := by
          intro q
          by_cases hqp : q = p
          · subst hqp
            refine ⟨k + 1, hklt, ?_, ?_⟩
            · simp only [List.isEmpty_cons, Bool.false_eq_true, if_false, Function.update_self,
                hnext]
              exact (Int64.ofNat_add k 1).symm
            · rw [pushedBy_append, pushedBy_pushed, if_pos rfl, hsent, hv', sequence_succ]
          · obtain ⟨j, hj, hnext', hsent'⟩ := h.sent q
            refine ⟨j, hj, ?_, ?_⟩
            · simpa [Function.update_of_ne hqp] using hnext'
            · rw [pushedBy_append, pushedBy_pushed, if_neg hqp, hsent', List.append_nil]
        writer := by
          intro q
          by_cases hqp : q = p
          · subst hqp
            exact .inl hidle
          · simpa [Function.update_of_ne hqp] using (h.writer q).kept (hother q hqp)
        reader := h.reader.kept (hkept _ (by simp)) (by simp [hopen])
        main := by
          refine h.main.kept (hkept _ (by simp)) rfl ?_ fun hexit => ⟨hexit, rfl⟩
          intro q hq
          have hqp : q ≠ p := by
            rintro rfl
            simp [hnot] at hq
          exact exited_of_kept hq (hother q hqp) (by simp [Function.update_of_ne hqp])
        closed := by simp [BoundedQueue.accept, hopen]
        left_eq := by
          rw [QueueThreads.left_append, h.left_eq, poppedValues_append]
          rfl
        entered_eq := by
          simp only [hlen, Finset.sum_add_distrib, ← h.entered_eq, QueueThreads.entered_append]
          simp [QueueThreads.entered, Event.entered, PushStatus.accepted]
        consumed := by simpa [poppedValues] using h.consumed }
  | sleeps =>
      exact {
        queue := hrun
        sent := by simpa using h.sent
        writer := by
          intro q
          by_cases hqp : q = p
          · subst hqp
            exact .inr ⟨.asleep, by simp [hv], hlt⟩
          · exact (h.writer q).kept (hother q hqp)
        reader := h.reader.kept (hkept _ (by simp)) (by simp [hopen])
        main := by
          refine h.main.kept (hkept _ (by simp)) rfl ?_ fun hexit => ⟨hexit, rfl⟩
          intro q hq
          have hqp : q ≠ p := by
            rintro rfl
            simp [hnot] at hq
          exact exited_of_kept hq (hother q hqp) rfl
        closed := by simp [hopen]
        left_eq := by simpa using h.left_eq
        entered_eq := by simpa using h.entered_eq
        consumed := by simpa using h.consumed }

/-- A consumer step leaves what the others know. -/
theorem Inv.keep_others (h : Inv per capacity tr s)
    {queue : QueueThreads.State (Role n) UInt64}
    (hkept : ∀ r, r ≠ .consumer → Thread.Kept (s.queue.threads r) (queue.threads r))
    (hclosed : queue.queue.closed = s.queue.queue.closed) {reader : Reader} {consumed : UInt64}
    (hreader : s.reader ≠ .exited) (hrun : ∃ as,
      (QueueThreads.machine (Role n) UInt64).Run (.init capacity .block) as (tr ++ evs) queue)
    (hpushed : ∀ q, pushedBy q evs = []) (hentered : entered evs = [])
    (hleft : left evs = poppedValues evs) (hknows : reader.Knows queue)
    (hcount : consumed + (if reader = .count then 1 else 0) =
      UInt64.ofNat (poppedValues (tr ++ evs)).length) :
    Inv per capacity (tr ++ evs) { s with queue, reader, consumed } where
  queue := hrun
  sent := by
    intro q
    simpa [hpushed q] using h.sent q
  writer q := (h.writer q).kept (hkept _ (by simp))
  reader := hknows
  main := by
    refine h.main.kept (hkept _ (by simp)) hclosed ?_ fun hexit => absurd hexit hreader
    exact fun q hq => exited_of_kept hq (hkept _ (by simp)) rfl
  closed := by
    intro hcl q
    exact exited_of_kept (h.closed (hclosed ▸ hcl) q) (hkept _ (by simp)) rfl
  left_eq := by rw [QueueThreads.left_append, h.left_eq, poppedValues_append, hleft]
  entered_eq := by
    simp only [QueueThreads.entered_append, hentered, List.append_nil, pushedBy_append, hpushed]
    exact h.entered_eq
  consumed := hcount

theorem Inv.stepConsumer (h : Inv per capacity tr s)
    (hstep : runConsumer s now pick = some (s', evs)) : Inv per capacity (tr ++ evs) s' := by
  have hr := h.reader
  have hcount := h.consumed
  cases hs : s.reader with
  | pop =>
      obtain ⟨a, queue, hactor, hqueue, hsec, hafter⟩ := runConsumer_section hs hr hstep
      have htr := QueueThreads.step_transition hqueue
      have hkept : ∀ r, r ≠ .consumer → Thread.Kept (s.queue.threads r) (queue.threads r) :=
        fun r hr => htr.kept (hactor ▸ hr)
      have hrun := h.run_snoc hqueue
      rw [hs] at hcount
      have hout := htr.pop_outcome hsec
      cases hout with
      | popped hitems hidle =>
          obtain ⟨rfl, -⟩ := Prod.mk.inj (Option.some.inj hafter)
          refine h.keep_others hkept rfl (by simp [hs]) hrun (fun _ => rfl) rfl rfl hidle ?_
          rw [poppedValues_append, List.length_append]
          simpa [poppedValues, UInt64.ofNat_add] using hcount
      | drained hitems hcl hidle =>
          obtain ⟨rfl, -⟩ := Prod.mk.inj (Option.some.inj hafter)
          refine h.keep_others hkept rfl (by simp [hs]) hrun (fun _ => rfl) rfl rfl
            ⟨hidle, hcl, hitems⟩ ?_
          simpa [poppedValues] using hcount
      | sleeps hitems hopen =>
          obtain ⟨rfl, -⟩ := Prod.mk.inj (Option.some.inj hafter)
          refine h.keep_others hkept rfl (by simp [hs]) hrun (fun _ => rfl) rfl rfl ?_ ?_
          · rw [hs]
            exact .inr ⟨.asleep, by simp⟩
          · simpa [hs] using hcount
  | count =>
      unfold runConsumer at hstep
      simp only [hs] at hstep
      obtain ⟨rfl, rfl⟩ := Prod.mk.inj (Option.some.inj hstep)
      rw [hs] at hr hcount
      refine h.keep_others (fun _ _ => .inl rfl) rfl (by simp [hs]) (by simpa using h.queue)
        (fun _ => rfl) rfl rfl (.inl hr) ?_
      simpa using hcount
  | exited => simp [runConsumer, hs] at hstep

theorem Inv.stepMain (h : Inv per capacity tr s) (hstep : runMain per s = some (s', evs)) :
    Inv per capacity (tr ++ evs) s' := by
  have hm := h.main
  unfold runMain at hstep
  split at hstep
  · rename_i p hs
    rw [hs] at hm
    obtain ⟨hidle, hopen, hjoined⟩ := hm
    split at hstep
    · rename_i hp
      split at hstep
      · rename_i hexit
        obtain ⟨rfl, rfl⟩ := Prod.mk.inj (Option.some.inj hstep)
        simp only [List.append_nil]
        refine { h with main := ⟨hidle, hopen, fun q hq => ?_⟩ }
        rcases Nat.lt_or_eq_of_le (Nat.le_of_lt_succ hq) with hlt | heq
        · exact hjoined q hlt
        · obtain rfl : q = ⟨p, hp⟩ := Fin.ext heq
          exact hexit
      · cases hstep
    · rename_i hp
      obtain ⟨⟨queue, evs'⟩, hqueue, heq⟩ := Option.map_eq_some_iff.mp hstep
      obtain ⟨rfl, rfl⟩ := Prod.mk.inj heq
      have hrun := h.run_snoc hqueue
      simp only [QueueThreads.step, hidle, Option.some.injEq, Prod.mk.injEq] at hqueue
      obtain ⟨rfl, rfl⟩ := hqueue
      exact {
        queue := hrun
        sent := by simpa [pushedBy] using h.sent
        writer := by simpa using h.writer
        reader := h.reader.kept (.inl (by simp)) fun hcl => by simp [hopen] at hcl
        main := ⟨rfl, .notEmpty, [.notFull], by simp⟩
        closed := fun _ q =>
          exited_of_kept (hjoined q (by have := q.isLt; omega)) (.inl (by simp)) rfl
        left_eq := by
          rw [QueueThreads.left_append, h.left_eq, poppedValues_append]
          rfl
        entered_eq := by
          simpa [QueueThreads.entered, Event.entered, pushedBy] using h.entered_eq
        consumed := by simpa [poppedValues] using h.consumed }
  · rename_i hs
    rw [hs] at hm
    obtain ⟨hcl, c, pending, hclosing⟩ := hm
    obtain ⟨⟨queue, evs'⟩, hqueue, heq⟩ := Option.map_eq_some_iff.mp hstep
    obtain ⟨rfl, rfl⟩ := Prod.mk.inj heq
    have htr := QueueThreads.step_transition hqueue
    have hkept : ∀ r, r ≠ .main → Thread.Kept (s.queue.threads r) (queue.threads r) :=
      fun r hr => htr.kept hr
    have hrun := h.run_snoc hqueue
    simp only [QueueThreads.step, hclosing, Option.some.injEq, Prod.mk.injEq] at hqueue
    obtain ⟨rfl, rfl⟩ := hqueue
    exact {
      queue := hrun
      sent := by simpa using h.sent
      writer := fun q => (h.writer q).kept (hkept _ (by simp))
      reader := h.reader.kept (hkept _ (by simp)) fun hcl => ⟨hcl, rfl⟩
      main := by
        cases pending with
        | nil => simp [Main.Knows, hcl]
        | cons c' pending => simp [Main.Knows, hcl]
      closed := fun hcl q => exited_of_kept (h.closed hcl q) (hkept _ (by simp)) rfl
      left_eq := by simpa using h.left_eq
      entered_eq := by simpa using h.entered_eq
      consumed := by simpa using h.consumed }
  · rename_i hs
    rw [hs] at hm
    split at hstep
    · rename_i hexit
      obtain ⟨rfl, rfl⟩ := Prod.mk.inj (Option.some.inj hstep)
      simp only [List.append_nil]
      exact { h with main := ⟨hm.1, hm.2, hexit, rfl⟩ }
    · cases hstep
  · cases hstep

theorem Inv.stepGetUp (h : Inv per capacity tr s) {r : Role n}
    {queue : QueueThreads.State (Role n) UInt64}
    (hqueue : QueueThreads.step s.queue (.getUp r) = some (queue, evs)) :
    evs = [] ∧ queue.queue = s.queue.queue ∧
      (∀ u, Thread.Kept (s.queue.threads u) (queue.threads u)) ∧
      Inv per capacity (tr ++ evs) { s with queue } := by
  have hrun := h.run_snoc hqueue
  have htr := QueueThreads.step_transition hqueue
  cases htr with
  | getUp ha hasleep =>
      obtain rfl := Action.getUp.inj ha
      have hkept : ∀ u, Thread.Kept (s.queue.threads u)
          (Function.update s.queue.threads r ((s.queue.threads r).getUp .awake) u) := by
        intro u
        by_cases hur : u = r
        · subst hur
          exact .inr ⟨.awake, Function.update_self ..⟩
        · exact .inl (Function.update_of_ne hur ..)
      refine ⟨rfl, rfl, hkept, ?_⟩
      exact {
        queue := hrun
        sent := by simpa using h.sent
        writer := fun q => (h.writer q).kept (hkept _)
        reader := h.reader.kept (hkept _) fun hcl => ⟨hcl, rfl⟩
        main := h.main.kept (hkept _) rfl (fun q hq => exited_of_kept hq (hkept _) rfl)
          fun hexit => ⟨hexit, rfl⟩
        closed := fun hcl q => exited_of_kept (h.closed hcl q) (hkept _) rfl
        left_eq := by simpa using h.left_eq
        entered_eq := by simpa using h.entered_eq
        consumed := by simpa using h.consumed }
  | accept hsec | reject hsec | pushSleeps hsec => cases hsec
  | pop hsec | popNone hsec | popSleeps hsec => cases hsec
  | clear ha | close ha | notify ha => cases ha

theorem Inv.step (h : Inv per capacity tr s) {a : Step n}
    (hstep : (machine n per).step s a = some (s', evs)) : Inv per capacity (tr ++ evs) s' := by
  cases a with
  | run r now pick =>
      cases r with
      | main => exact h.stepMain hstep
      | consumer => exact h.stepConsumer hstep
      | writer p => exact h.stepWriter hstep
  | getUp r =>
      obtain ⟨⟨queue, evs'⟩, hqueue, heq⟩ := Option.map_eq_some_iff.mp hstep
      obtain ⟨rfl, rfl⟩ := Prod.mk.inj heq
      exact (h.stepGetUp hqueue).2.2.2

theorem inv_init (capacity : Int64) :
    Inv per capacity.toUInt64.toNat [] (.init n capacity) where
  queue := ⟨[], .nil⟩
  sent _ := ⟨0, Nat.zero_le _, rfl, rfl⟩
  writer _ := .inl rfl
  reader := .inl rfl
  main := ⟨rfl, rfl, fun _ hq => absurd hq (Nat.not_lt_zero _)⟩
  closed hcl := by simp [State.init, QueueThreads.State.init, BoundedQueue.new] at hcl
  left_eq := rfl
  entered_eq := by simp [QueueThreads.entered]
  consumed := rfl

theorem inv_of_run {capacity : Int64} {as : List (Step n)}
    (h : (machine n per).Run (.init n capacity) as tr s) :
    Inv per capacity.toUInt64.toNat tr s :=
  Machine.Run.invariant h (inv_init capacity) fun hI hstep => hI.step hstep

theorem Inv.popped_prefix (h : Inv per capacity tr s) : poppedValues tr <+: entered tr := by
  obtain ⟨as, hrun⟩ := h.queue
  rw [(QueueThreads.accounted_of_run hrun).fifo, h.left_eq]
  exact List.prefix_append _ _

theorem Inv.pushedBy_prefix (h : Inv per capacity tr s) (p : Fin n) :
    pushedBy p tr <+: sequence (total per) := by
  obtain ⟨k, hk, -, hsent⟩ := h.sent p
  exact hsent ▸ sequence_prefix hk

/-- Once the queue is closed every producer has pushed its share. -/
theorem Inv.pushedBy_eq (h : Inv per capacity tr s) (hcl : s.queue.queue.closed = true)
    (p : Fin n) : pushedBy p tr = sequence (total per) := by
  obtain ⟨k, hk, hnext, hsent⟩ := h.sent p
  have hout := (exited_iff.mp (h.closed hcl p)).2
  rw [hnext, ofNat_lt_iff hk] at hout
  rw [hsent, Nat.le_antisymm hk (Nat.le_of_not_lt hout)]

/-- When the main thread has returned, every thread has left its code, and nobody is in a
    call of the queue. -/
theorem Inv.all_left (h : Inv per capacity tr s) {consumed : UInt64}
    (hret : s.main = .returned consumed) :
    s.reader = .exited ∧ (∀ p, s.exited per p = true) ∧ ∀ r, s.queue.threads r = .idle := by
  have hm := h.main
  rw [hret] at hm
  obtain ⟨hcl, hidle, hexit, -⟩ := hm
  refine ⟨hexit, h.closed hcl, fun r => ?_⟩
  cases r with
  | main => exact hidle
  | consumer =>
      have hr := h.reader
      rw [hexit] at hr
      exact hr.1
  | writer p => exact (exited_iff.mp (h.closed hcl p)).1

/-- The consumer exits only from a drained queue. -/
theorem Inv.popped_eq (h : Inv per capacity tr s) (hexit : s.reader = .exited) :
    s.queue.queue.closed = true ∧ poppedValues tr = entered tr := by
  have hr := h.reader
  rw [hexit] at hr
  obtain ⟨as, hrun⟩ := h.queue
  refine ⟨hr.2.1, ?_⟩
  rw [(QueueThreads.accounted_of_run hrun).fifo, h.left_eq, hr.2.2, List.append_nil]

end Steps

section Consumed

variable {count producers capacity : Int64} {as : List (Step (writers producers))}
  {tr : Events (writers producers)} {s : State (writers producers)}

theorem Inv.consumed_of_returned {capacity : Nat}
    (h : Inv (perProducer count producers) capacity tr s) (hproducers : 0 < producers)
    {consumed : UInt64} (hret : s.main = .returned consumed) :
    consumed.toNat = total producers * (total count / total producers) := by
  have hm := h.main
  rw [hret] at hm
  obtain ⟨hcl, -, hexit, rfl⟩ := hm
  have hlen : (poppedValues tr).length = total producers * (total count / total producers) := by
    rw [(h.popped_eq hexit).2, h.entered_eq,
      Finset.sum_congr rfl fun p _ => congrArg List.length (h.pushedBy_eq hcl p),
      Finset.sum_const, Finset.card_univ, Fintype.card_fin, length_sequence, perProducer,
      total_div hproducers]
    rfl
  have hcount := h.consumed
  rw [hexit, if_neg (by simp), hlen] at hcount
  have hle : total producers * (total count / total producers) ≤ total count :=
    Nat.mul_div_le _ _
  have hlt := total_lt count
  have hnat := congrArg UInt64.toNat hcount
  rw [UInt64.add_zero, UInt64.toNat_ofNat'] at hnat
  rwa [Nat.mod_eq_of_lt (by omega)] at hnat

/-- **Every value is consumed once.** In every interleaving, spurious wake-ups included,
    each producer has got an initial part of `0, 1, ...` into the queue, in order and
    without a refusal, and the consumer has popped an initial part of what entered. When
    `run_bounded_queue` returns, each producer's share is complete, the consumer has
    popped all that entered, in that order, and `consumed` is the number of producers
    times `count / producers`. -/
theorem queue_consumes_all (hproducers : 0 < producers)
    (h : (machine (writers producers) (perProducer count producers)).Run (.init _ capacity)
      as tr s) :
    (∀ p, pushedBy p tr <+: sequence (total count / total producers)) ∧
    poppedValues tr <+: entered tr ∧
    (entered tr).length = ∑ p, (pushedBy p tr).length ∧
    ∀ consumed, s.main = .returned consumed →
      (∀ p, pushedBy p tr = sequence (total count / total producers)) ∧
      poppedValues tr = entered tr ∧
      consumed.toNat = total producers * (total count / total producers) := by
  have hI := inv_of_run h
  have hshare : total (perProducer count producers) = total count / total producers :=
    total_div hproducers
  refine ⟨hshare ▸ hI.pushedBy_prefix, hI.popped_prefix, hI.entered_eq, ?_⟩
  intro consumed hret
  have hm := hI.main
  rw [hret] at hm
  obtain ⟨hcl, -, hexit, -⟩ := hm
  exact ⟨hshare ▸ hI.pushedBy_eq hcl, (hI.popped_eq hexit).2,
    hI.consumed_of_returned hproducers hret⟩

/-- Two producers of one value each, on a queue of one. The first value is consumed
    before the second producer is let in. -/
theorem queue_consumes_all_two :
    ∃ tr s, (machine (writers 2) (perProducer 2 2)).Run (.init _ 1)
        [.run .consumer 0 none, .run (.writer ⟨0, by decide⟩) 0 (some .consumer),
          .run (.writer ⟨1, by decide⟩) 0 none,
          .run .consumer 0 (some (.writer ⟨1, by decide⟩)), .run .consumer 0 none,
          .run (.writer ⟨1, by decide⟩) 0 none, .run .consumer 0 none, .run .consumer 0 none,
          .run .main 0 none, .run .main 0 none, .run .main 0 none, .run .main 0 none,
          .run .main 0 none, .run .consumer 0 none, .run .main 0 none] tr s ∧
      s.main = .returned 2 ∧ poppedValues tr = [0, 0] ∧ poppedValues tr = entered tr := by
  refine ⟨_, _, .of_isSome _ _ _ (by decide), by decide, by decide, ?_⟩
  exact ((queue_consumes_all (by decide) (.of_isSome _ _ _ _)).2.2.2 2 (by decide)).2.1

end Consumed

end QueueTransfer

end Rdb
