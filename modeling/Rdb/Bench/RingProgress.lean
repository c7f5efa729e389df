-- SUMMARY: The ring benchmark ends in every fair execution, although both of its threads only spin.
import Rdb.Lib.Fairness
import Rdb.Bench.RingTransfer

/-!
# The program over the ring ends

A full ring keeps the main thread pushing and an empty one keeps the consumer popping,
without any blocking. At every moment one of them helps: the consumer as long as there is
something to see or `done` is set, the main thread otherwise. The variant counts what is
left to push and to see and, below that, the steps of the helping thread to its next
success.
-/

namespace Rdb

namespace RingTransfer

open Counting
open SpscRing (Event pushedValues poppedValues)

/-! ## The variant -/

def Writer.phasesLeft : Writer → Nat
  | .push _ | .pushing _ | .storeDone => 2
  | .join => 1
  | .returned _ => 0

def Reader.phasesLeft : Reader → Nat
  | .exited => 0
  | _       => 1

/-- What is left to be done. -/
def State.left (count : Int64) (s : State) : Nat :=
  (total count - s.writer.sent count) + (total count - s.seen.toNat) +
    s.writer.phasesLeft + s.reader.phasesLeft

/-- The thread whose next steps bring the program forward. -/
def State.helper (count : Int64) (s : State) : Thread :=
  if s.reader ≠ .exited ∧ (s.seen.toNat < s.writer.sent count ∨ s.done = true) then .consumer
  else .main

/-- The steps of the main thread to its next success, if it does not find the ring full. -/
def State.mainSteps (s : State) : Nat :=
  match s.writer with
  | .push _ => 4
  | .pushing _ => pushSteps s.ring.producer
  | .storeDone | .join => 1
  | .returned _ => 0

/-- The steps of the consumer to its next success, once it is its turn. -/
def State.readerSteps (s : State) : Nat :=
  match s.reader with
  | .loadDone _ => if s.done then 6 else 9
  | .pop _ => 8
  | .popping _ => popSteps s.ring.consumer + 4
  | .popAgain _ => 5
  | .poppingAgain _ => popSteps s.ring.consumer + 1
  | .store _ => 1
  | .exited => 0

def State.stepsOf (s : State) : Thread → Nat
  | .main     => s.mainSteps
  | .consumer => s.readerSteps

def State.variant (count : Int64) (s : State) : Nat :=
  10 * s.left count + s.stepsOf (s.helper count)

theorem pushSteps_le (p : SpscRing.Producer UInt64) : pushSteps p ≤ 3 := by
  cases p <;> simp [pushSteps]

theorem popSteps_le (p : SpscRing.Consumer UInt64) : popSteps p ≤ 3 := by
  cases p <;> simp [popSteps]

theorem State.stepsOf_lt (s : State) (t : Thread) : s.stepsOf t < 10 := by
  have hpush := pushSteps_le s.ring.producer
  have hpop := popSteps_le s.ring.consumer
  cases t with
  | main =>
      simp only [State.stepsOf, State.mainSteps]
      split <;> omega
  | consumer =>
      simp only [State.stepsOf, State.readerSteps]
      split <;> (try split) <;> omega

section Progress

variable {count capacity : Int64} {tr evs : List (Event UInt64)} {s s' : State} {t : Thread}

/-- How a step of `t` brings the program forward: something is done, or `t` is closer to
    its next success and the others are where they were. -/
structure Advances (count : Int64) (t : Thread) (s s' : State) : Prop where
  left : s'.left count = s.left count
  helper : s'.helper count = s.helper count
  mine : s.helper count = t → s'.stepsOf t < s.stepsOf t
  others : ∀ u, u ≠ t → s'.stepsOf u = s.stepsOf u

theorem variant_lt_of_left (h : s'.left count < s.left count) :
    s'.variant count < s.variant count := by
  have := s'.stepsOf_lt (s'.helper count)
  simp only [State.variant]
  omega

theorem Advances.variant (h : Advances count t s s') :
    s'.variant count < s.variant count ∨
      s'.variant count = s.variant count ∧
        ∀ u, u = s.helper count → u = s'.helper count ∧ ¬ t = u := by
  simp only [State.variant, h.left, h.helper]
  by_cases ht : s.helper count = t
  · left
    have := h.mine ht
    rw [ht]
    omega
  · right
    refine ⟨by rw [h.others _ ht], ?_⟩
    rintro u rfl
    exact ⟨rfl, fun heq => ht heq.symm⟩

/-- A step of the main thread that leaves the values pushed and its phase alone. -/
theorem advances_main (hsent : s'.writer.sent count = s.writer.sent count)
    (hphase : s'.writer.phasesLeft = s.writer.phasesLeft) (hdone : s'.done = s.done)
    (hreader : s'.reader = s.reader) (hconsumed : s'.consumed = s.consumed)
    (hring : s'.ring.consumer = s.ring.consumer)
    (hmine : s.helper count = .main → s'.mainSteps < s.mainSteps) :
    Advances count .main s s' := by
  have hseen : s'.seen = s.seen := by simp only [State.seen, hreader, hconsumed]
  refine ⟨?_, ?_, hmine, ?_⟩
  · simp only [State.left, hsent, hphase, hseen, hreader]
  · simp only [State.helper, hsent, hseen, hreader, hdone]
  · intro u hu
    cases u with
    | main => exact absurd rfl hu
    | consumer => simp only [State.stepsOf, State.readerSteps, hreader, hdone, hring]

/-- A step of the consumer that sees nothing new. -/
theorem advances_consumer (hwriter : s'.writer = s.writer) (hdone : s'.done = s.done)
    (hseen : s'.seen = s.seen) (hr : s.reader ≠ .exited) (hr' : s'.reader ≠ .exited)
    (hring : s'.ring.producer = s.ring.producer)
    (hmine : s.helper count = .consumer → s'.readerSteps < s.readerSteps) :
    Advances count .consumer s s' := by
  have hphase : ∀ {r : Reader}, r ≠ .exited → r.phasesLeft = 1 := by
    intro r hr
    cases r <;> first | rfl | exact absurd rfl hr
  refine ⟨?_, ?_, hmine, ?_⟩
  · simp only [State.left, hwriter, hseen, hphase hr, hphase hr']
  · simp only [State.helper, hwriter, hseen, hdone, hr, hr', ne_eq, not_false_eq_true]
  · intro u hu
    cases u with
    | main => simp only [State.stepsOf, State.mainSteps, hwriter, hring]
    | consumer => exact absurd rfl hu

theorem Inv.main_progress (h : Inv count capacity tr s) (hcap : 0 ≤ capacity)
    (hstep : RingTransfer.stepMain count s = some (s', evs)) :
    (∃ consumed, s'.writer = .returned consumed) ∨ s'.left count < s.left count ∨
      Advances count .main s s' := by
  have hw := h.writer
  unfold RingTransfer.stepMain at hstep
  split at hstep
  · rename_i i hs
    obtain ⟨⟨ring, evs'⟩, hring, heq⟩ := Option.map_eq_some_iff.mp hstep
    obtain ⟨rfl, rfl⟩ := Prod.mk.inj heq
    obtain ⟨-, hcons, -, -⟩ := push_start hring
    have hle := pushSteps_le ring.producer
    refine .inr (.inr (advances_main ?_ ?_ rfl rfl rfl hcons ?_))
    · simp [hs, Writer.sent]
    · simp [hs, Writer.phasesLeft]
    · intro _
      simp only [State.mainSteps, hs]
      omega
  · rename_i i hs
    rw [hs] at hw
    obtain ⟨hdone, hval, n, hn, rfl⟩ := hw
    obtain ⟨⟨ring, evs'⟩, hring, heq⟩ := Option.map_eq_some_iff.mp hstep
    obtain ⟨hcons, hkind⟩ := push_step hring hval
    have hclamp := toNatClampNeg_ofNat (Nat.le_of_lt hn)
    cases hkind with
    | goesOn hans _ _ hsteps =>
        simp only [hans] at heq
        obtain ⟨rfl, rfl⟩ := Prod.mk.inj heq
        refine .inr (.inr (advances_main rfl rfl rfl rfl rfl hcons fun _ => ?_))
        simpa only [State.mainSteps, hs] using hsteps
    | pushed hidle =>
        simp only [answer] at heq
        obtain ⟨rfl, rfl⟩ := Prod.mk.inj heq
        refine .inr (.inl ?_)
        have hsent := (writer_forLoop (s := { s with ring := ring }) hn hdone hidle).1
        have hphase : (forLoop count (.ofNat n + 1)).phasesLeft ≤ 2 := by
          unfold forLoop
          split <;> simp [Writer.phasesLeft]
        have hseen :
            ({ s with ring := ring, writer := forLoop count (.ofNat n + 1) } : State).seen =
            s.seen := rfl
        have hsent' : s.writer.sent count = n := by
          rw [hs]
          exact hclamp
        have hphase' : s.writer.phasesLeft = 2 := by rw [hs]; rfl
        simp only [State.left, hsent, hseen, hsent', hphase']
        omega
    | full hp hfull _ =>
        simp only [answer] at heq
        obtain ⟨rfl, rfl⟩ := Prod.mk.inj heq
        refine .inr (.inr (advances_main ?_ ?_ rfl rfl rfl hcons ?_))
        · simp [hs, Writer.sent]
        · simp [hs, Writer.phasesLeft]
        · -- a full ring is the consumer's turn
          intro hhelper
          have hunseen := h.seen_of_full hcap hp hfull
          have hreader : s.reader ≠ .exited := by
            intro hexit
            have hr := h.reader
            rw [hexit] at hr
            rw [State.seen, hexit, hr.2] at hunseen
            exact absurd h.sent_le (Nat.not_le.mpr hunseen)
          simp [State.helper, hreader, hunseen] at hhelper
  · rename_i hs
    obtain ⟨rfl, rfl⟩ := Prod.mk.inj (Option.some.inj hstep)
    refine .inr (.inl ?_)
    have hseen : ({ s with done := true, writer := .join } : State).seen = s.seen := rfl
    simp only [State.left, hseen, hs, Writer.sent, Writer.phasesLeft]
    omega
  · split at hstep
    · obtain ⟨rfl, rfl⟩ := Prod.mk.inj (Option.some.inj hstep)
      exact .inl ⟨_, rfl⟩
    · cases hstep
  · cases hstep

/-- One more value has been seen. -/
theorem Inv.left_lt_of_popped (h : Inv count capacity tr s) (hcap : 0 ≤ capacity)
    (h' : Inv count capacity (tr ++ evs) s') (hwriter : s'.writer = s.writer)
    (hphase : s'.reader.phasesLeft ≤ s.reader.phasesLeft)
    (hmore : (poppedValues (tr ++ evs)).length = (poppedValues tr).length + 1) :
    s'.left count < s.left count := by
  have hseen := h'.popped
  rw [hmore, h.popped] at hseen
  have hle := (h'.seen_le hcap).trans h'.sent_le
  simp only [State.left, hwriter]
  omega

theorem whileLoop_phasesLeft (seen : UInt64) : (whileLoop count seen).phasesLeft = 1 := by
  unfold whileLoop
  split <;> rfl

theorem Inv.consumer_progress (h : Inv count capacity tr s) (hcap : 0 ≤ capacity)
    (hstep : RingTransfer.stepConsumer count s = some (s', evs)) :
    s'.left count < s.left count ∨ Advances count .consumer s s' := by
  have h' := h.stepConsumer hcap hstep
  have hr := h.reader
  unfold RingTransfer.stepConsumer at hstep
  split at hstep
  · rename_i seen hs
    obtain ⟨⟨ring, evs'⟩, hring, heq⟩ := Option.map_eq_some_iff.mp hstep
    obtain ⟨rfl, rfl⟩ := Prod.mk.inj heq
    obtain ⟨-, hprod, -, -⟩ := pop_start hring
    have hle := popSteps_le ring.consumer
    refine .inr (advances_consumer rfl rfl (by simp [State.seen, hs]) (by simp [hs]) (by simp)
      hprod fun _ => ?_)
    simp only [State.readerSteps, hs]
    omega
  · rename_i seen hs
    obtain ⟨⟨ring, evs'⟩, hring, heq⟩ := Option.map_eq_some_iff.mp hstep
    obtain ⟨hprod, hkind⟩ := pop_step hring
    cases hkind with
    | goesOn hans _ _ hsteps =>
        simp only [hans] at heq
        obtain ⟨rfl, rfl⟩ := Prod.mk.inj heq
        refine .inr (advances_consumer rfl rfl rfl (by simp [hs]) (by simp [hs]) hprod fun _ => ?_)
        simp only [State.readerSteps, hs]
        omega
    | popped v hidle =>
        simp only [answer] at heq
        obtain ⟨rfl, rfl⟩ := Prod.mk.inj heq
        refine .inl (h.left_lt_of_popped hcap h' rfl ?_ (by simp [poppedValues]))
        rw [whileLoop_phasesLeft, hs]
        exact le_rfl
    | empty hk hempty hidle =>
        simp only [answer] at heq
        obtain ⟨rfl, rfl⟩ := Prod.mk.inj heq
        refine .inr (advances_consumer rfl rfl (by simp [State.seen, hs]) (by simp [hs]) (by simp)
          hprod fun hhelper => ?_)
        -- nothing to see, so it is the consumer's turn only because `done` is set
        have hall := h.seen_of_empty hcap hk hempty
        have hdone : s.done = true := by
          simpa [State.helper, hs, hall] using hhelper
        simp [State.readerSteps, hs, hdone, hk, popSteps]
  · rename_i seen hs
    obtain ⟨rfl, rfl⟩ := Prod.mk.inj (Option.some.inj hstep)
    have hseen : s.seen = seen := by simp [State.seen, hs]
    have hle : seen.toNat ≤ total count := hseen ▸ (h.seen_le hcap).trans h.sent_le
    right
    split
    · rename_i hdone
      refine advances_consumer rfl rfl (by simp [State.seen, hs]) (by simp [hs]) (by simp) rfl
        fun _ => ?_
      simp [State.readerSteps, hs, hdone]
    · rename_i hdone
      rcases whileLoop_eq hle with heq | ⟨-, heq⟩
      all_goals
        refine advances_consumer rfl rfl (by simp [State.seen, hs, heq]) (by simp [hs])
          (by simp [heq]) rfl fun _ => ?_
        simp [State.readerSteps, hs, hdone, heq]
  · rename_i seen hs
    obtain ⟨⟨ring, evs'⟩, hring, heq⟩ := Option.map_eq_some_iff.mp hstep
    obtain ⟨rfl, rfl⟩ := Prod.mk.inj heq
    obtain ⟨-, hprod, -, -⟩ := pop_start hring
    have hle := popSteps_le ring.consumer
    refine .inr (advances_consumer rfl rfl (by simp [State.seen, hs]) (by simp [hs]) (by simp)
      hprod fun _ => ?_)
    simp only [State.readerSteps, hs]
    omega
  · rename_i seen hs
    obtain ⟨⟨ring, evs'⟩, hring, heq⟩ := Option.map_eq_some_iff.mp hstep
    obtain ⟨hprod, hkind⟩ := pop_step hring
    cases hkind with
    | goesOn hans _ _ hsteps =>
        simp only [hans] at heq
        obtain ⟨rfl, rfl⟩ := Prod.mk.inj heq
        refine .inr (advances_consumer rfl rfl rfl (by simp [hs]) (by simp [hs]) hprod fun _ => ?_)
        simp only [State.readerSteps, hs]
        omega
    | popped v hidle =>
        simp only [answer] at heq
        obtain ⟨rfl, rfl⟩ := Prod.mk.inj heq
        refine .inl (h.left_lt_of_popped hcap h' rfl ?_ (by simp [poppedValues]))
        rw [whileLoop_phasesLeft, hs]
        exact le_rfl
    | empty hk hempty hidle =>
        simp only [answer] at heq
        obtain ⟨rfl, rfl⟩ := Prod.mk.inj heq
        refine .inr (advances_consumer rfl rfl (by simp [State.seen, hs]) (by simp [hs]) (by simp)
          hprod fun _ => ?_)
        simp [State.readerSteps, hs, hk, popSteps]
  · rename_i seen hs
    obtain ⟨rfl, rfl⟩ := Prod.mk.inj (Option.some.inj hstep)
    left
    have hseen : ({ s with consumed := seen, reader := .exited } : State).seen = s.seen := by
      simp [State.seen, hs]
    simp only [State.left, hseen, hs, Reader.phasesLeft]
    omega
  · cases hstep

/-! ## Able to move -/

theorem pop_able {r : SpscRing.State UInt64} (h : r.consumer = .idle) :
    ∃ p, SpscRing.step id r .pop = some p := by
  simp only [SpscRing.step, h]
  split <;> exact ⟨_, rfl⟩

theorem consumer_able {r : SpscRing.State UInt64} (h : r.consumer ≠ .idle) :
    ∃ p, SpscRing.step id r .consumer = some p := by
  simp only [SpscRing.step, SpscRing.stepConsumer]
  split
  · exact absurd ‹_› h
  · split <;> exact ⟨_, rfl⟩
  · exact ⟨_, rfl⟩
  · exact ⟨_, rfl⟩

theorem push_able {r : SpscRing.State UInt64} (v : UInt64) (h : r.producer = .idle) :
    ∃ p, SpscRing.step id r (.push v) = some p := by
  simp only [SpscRing.step, h]
  split <;> exact ⟨_, rfl⟩

theorem producer_able {r : SpscRing.State UInt64} {v : UInt64}
    (h : pushedValue r.producer = some v) : ∃ p, SpscRing.step id r .producer = some p := by
  simp only [SpscRing.step, SpscRing.stepProducer]
  split
  · rename_i hp
    simp [pushedValue, hp] at h
  · split <;> exact ⟨_, rfl⟩
  · exact ⟨_, rfl⟩
  · exact ⟨_, rfl⟩

/-- The thread that helps can always move. -/
theorem Inv.helper_able (h : Inv count capacity tr s)
    (hgoal : ∀ consumed, s.writer ≠ .returned consumed) :
    ∃ p, (machine count).step s (s.helper count) = some p := by
  have hw := h.writer
  have hr := h.reader
  cases hhelper : s.helper count with
  | consumer =>
      change ∃ p, RingTransfer.stepConsumer count s = some p
      unfold RingTransfer.stepConsumer
      cases hs : s.reader with
      | exited => simp [State.helper, hs] at hhelper
      | pop seen =>
          rw [hs] at hr
          obtain ⟨p, hp⟩ := pop_able hr
          exact ⟨_, by simp only [hp]; rfl⟩
      | popping seen =>
          rw [hs] at hr
          obtain ⟨p, hp⟩ := consumer_able hr
          exact ⟨_, by simp only [hp]; rfl⟩
      | popAgain seen =>
          rw [hs] at hr
          obtain ⟨p, hp⟩ := pop_able hr.1
          exact ⟨_, by simp only [hp]; rfl⟩
      | poppingAgain seen =>
          rw [hs] at hr
          obtain ⟨p, hp⟩ := consumer_able hr.1
          exact ⟨_, by simp only [hp]; rfl⟩
      | loadDone seen | store seen => exact ⟨_, rfl⟩
  | main =>
      change ∃ p, RingTransfer.stepMain count s = some p
      unfold RingTransfer.stepMain
      cases hs : s.writer with
      | push i =>
          rw [hs] at hw
          obtain ⟨p, hp⟩ := push_able i.toUInt64 hw.2.1
          exact ⟨_, by simp only [hp]; rfl⟩
      | pushing i =>
          rw [hs] at hw
          obtain ⟨p, hp⟩ := producer_able hw.2.1
          exact ⟨_, by simp only [hp]; rfl⟩
      | storeDone => exact ⟨_, rfl⟩
      | join =>
          -- with `done` set it is the main thread's turn only once the consumer has exited
          rw [hs] at hw
          have hexit : s.reader = .exited := by
            by_contra hne
            simp [State.helper, hne, hw.1] at hhelper
          exact ⟨_, by simp only [hexit]; rfl⟩
      | returned consumed => exact absurd hs (hgoal consumed)

theorem progress (hcap : 0 ≤ capacity) :
    (machine count).Progress (fun t a => a = t) (fun s => ∃ tr, Inv count capacity tr s)
      (fun s => ∃ consumed, s.writer = .returned consumed) (State.variant count)
      (fun s t => t = s.helper count) where
  helped _ _ := ⟨_, rfl⟩
  able := by
    rintro s t ⟨tr, hI⟩ hgoal rfl
    obtain ⟨⟨s', evs⟩, hstep⟩ := hI.helper_able fun consumed hret => hgoal ⟨consumed, hret⟩
    exact ⟨_, s', evs, rfl, hstep⟩
  step := by
    rintro s t s' evs ⟨tr, hI⟩ - hstep hgoal
    cases t with
    | main =>
        rcases hI.main_progress hcap hstep with hret | hless | hadv
        · exact absurd hret hgoal
        · exact .inl (variant_lt_of_left hless)
        · exact hadv.variant
    | consumer =>
        rcases hI.consumer_progress hcap hstep with hless | hadv
        · exact .inl (variant_lt_of_left hless)
        · exact hadv.variant

/-- **The program ends.** In every execution that is weakly fair to its two threads,
    `run_spsc_ring` returns, and with all of `count` consumed. -/
theorem ring_terminates (hcap : 0 ≤ capacity)
    (ex : (machine count).Execution (.init count capacity))
    (hfair : ex.WeaklyFair fun t a => a = t) :
    ∃ k consumed, (ex.state k).writer = .returned consumed ∧ consumed.toNat = total count := by
  have hI : ∀ n, ∃ tr, Inv count capacity tr (ex.state n) := by
    intro n
    obtain ⟨as, hrun⟩ := ex.exists_run n
    exact ⟨_, inv_of_run hcap hrun⟩
  obtain ⟨k, -, consumed, hret⟩ := ex.exists_goal hfair (progress hcap) 0 fun n _ => hI n
  obtain ⟨tr, hk⟩ := hI k
  have hw := hk.writer
  have hr := hk.reader
  rw [hret] at hw
  obtain ⟨-, -, hexit, rfl⟩ := hw
  rw [hexit] at hr
  exact ⟨k, _, hret, hr.2⟩

/-- One value through a ring of two, and the main thread joins. -/
theorem ring_terminates_one :
    ∃ ex : (machine 1).Execution (.init 1 2), ∃ k consumed,
      (ex.state k).writer = .returned consumed ∧ consumed.toNat = 1 := by
  have hrun : ((machine 1).exec (.init 1 2) (List.replicate 4 Thread.main ++
      List.replicate 5 .consumer ++ [.main])).isSome = true := by decide
  refine ⟨.ofList _ _ _ hrun, ?_⟩
  refine ring_terminates (by decide) (.ofList (machine 1) _ _ hrun)
    (Machine.Execution.weaklyFair_ofList hrun ?_ _)
  intro t
  cases t <;> rfl

end Progress

end RingTransfer

end Rdb
