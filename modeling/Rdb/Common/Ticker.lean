-- SUMMARY: The ticker of `common/time.h`: how fast it can tick, that it does not drift, and when it is on time.
import Mathlib.Algebra.Group.Int.Defs
import Mathlib.Tactic.Linarith
import Mathlib.Tactic.Ring
import Rdb.Lib.Machine

/-!
# Ticker

A call of `sleep_until_next` moves the target on by one period and sleeps until it. If
the target has passed, the call is late: it takes the present for its target and returns
at once. Times are signed 64-bit counts of nanoseconds. The period comes from a
frequency; it is a parameter here, and not negative.
-/

namespace Rdb

/-- `period_` and `next_`. -/
structure Ticker where
  period : Int64
  next : Int64
  deriving DecidableEq, Repr

namespace Ticker

/-- A ticker made at clock reading `now`. -/
def new (period now : Int64) : Ticker := ⟨period, now⟩

/-- `sleep_until_next()` at clock reading `now`, up to its sleep: the ticker, and whether
    the call is late. -/
def sleepUntilNext (t : Ticker) (now : Int64) : Ticker × Bool :=
  if t.next + t.period ≤ now then ({ t with next := now }, true)
  else ({ t with next := t.next + t.period }, false)

/-- A ticker, and the last clock reading of the thread that uses it. -/
structure State where
  ticker : Ticker
  clock : Int64

/-- A call reads the clock, and has returned at the reading `back`. -/
structure Call where
  now : Int64
  back : Int64

/-- What a call did: its target, when it had returned, and what it returned. -/
structure Tick where
  target : Int64
  back : Int64
  late : Bool
  deriving DecidableEq, Repr

def init (period start : Int64) : State := ⟨.new period start, start⟩

/-- The clock is steady, and `sleep_until` does not return before its time. -/
def step (s : State) (c : Call) : Option (State × List Tick) :=
  let r := s.ticker.sleepUntilNext c.now
  if s.clock ≤ c.now ∧ c.now ≤ c.back ∧ (r.2 = false → r.1.next ≤ c.back) then
    some (⟨r.1, c.back⟩, [⟨r.1.next, c.back, r.2⟩])
  else none

def machine : Machine State Call Tick where
  step := step

/-! ## One call -/

section Step

variable {s s' : State} {c : Call} {evs tr : List Tick} {as : List Call} {period start : Int64}

/-- What a call does, as long as the next target is in range. -/
structure Turn (s : State) (c : Call) (tick : Tick) (s' : State) : Prop where
  clock_eq : s'.clock = c.back
  back_eq : tick.back = c.back
  target_eq : tick.target = s'.ticker.next
  period_eq : s'.ticker.period = s.ticker.period
  clock_le : s.clock.toInt ≤ c.now.toInt
  now_le : c.now.toInt ≤ c.back.toInt
  next_le : s'.ticker.next.toInt ≤ c.back.toInt
  /-- the target passed and became the present, or lies one period after the last one -/
  next_eq : (tick.late = true ∧ s'.ticker.next = c.now ∧
      s.ticker.next.toInt + s.ticker.period.toInt ≤ c.now.toInt) ∨
    (tick.late = false ∧ c.now.toInt < s'.ticker.next.toInt ∧
      s'.ticker.next.toInt = s.ticker.next.toInt + s.ticker.period.toInt)

theorem toInt_next {t : Ticker} (hperiod : 0 ≤ t.period.toInt)
    (hrange : t.next.toInt + t.period.toInt < 2 ^ 63) :
    (t.next + t.period).toInt = t.next.toInt + t.period.toInt := by
  have hnext := t.next.le_toInt
  rw [Int64.toInt_add]
  exact Int.bmod_eq_of_le (by omega) (by omega)

theorem step_turn (h : step s c = some (s', evs)) (hperiod : 0 ≤ s.ticker.period.toInt)
    (hrange : s.ticker.next.toInt + s.ticker.period.toInt < 2 ^ 63) :
    ∃ tick, evs = [tick] ∧ Turn s c tick s' := by
  have hsum := toInt_next hperiod hrange
  obtain ⟨⟨hclock, hback, hsleep⟩, h⟩ := Option.ite_none_right_eq_some.mp h
  rw [Int64.le_iff_toInt_le] at hclock hback
  by_cases hlate : s.ticker.next + s.ticker.period ≤ c.now
  · have heq : s.ticker.sleepUntilNext c.now = ({ s.ticker with next := c.now }, true) :=
      if_pos hlate
    have hle := Int64.le_iff_toInt_le.mp hlate
    rw [heq] at h
    obtain ⟨rfl, rfl⟩ := Prod.mk.inj (Option.some.inj h)
    exact ⟨_, rfl, rfl, rfl, rfl, rfl, hclock, hback, hback, .inl ⟨rfl, rfl, by omega⟩⟩
  · have heq : s.ticker.sleepUntilNext c.now =
        ({ s.ticker with next := s.ticker.next + s.ticker.period }, false) := if_neg hlate
    have hlt := Int64.lt_iff_toInt_lt.mp (Int64.not_le.mp hlate)
    rw [heq] at h hsleep
    obtain ⟨rfl, rfl⟩ := Prod.mk.inj (Option.some.inj h)
    exact ⟨_, rfl, rfl, rfl, rfl, rfl, hclock, hback, Int64.le_iff_toInt_le.mp (hsleep rfl),
      .inr ⟨rfl, hlt, hsum⟩⟩

theorem step_clock_le (h : step s c = some (s', evs)) : s.clock.toInt ≤ s'.clock.toInt := by
  obtain ⟨⟨hclock, hback, -⟩, h⟩ := Option.ite_none_right_eq_some.mp h
  obtain ⟨rfl, -⟩ := Prod.mk.inj (Option.some.inj h)
  exact Int64.le_iff_toInt_le.mp (Int64.le_trans hclock hback)

end Step

/-! ## Runs -/

section Runs

variable {s s' : State} {c : Call} {as : List Call} {tick : Tick} {tr : List Tick}
  {period start : Int64}

theorem getElem?_concat_some {α : Type*} {l : List α} {a x : α} {i : Nat}
    (h : (l ++ [a])[i]? = some x) : l[i]? = some x ∨ i = l.length ∧ x = a := by
  rcases Nat.lt_trichotomy i l.length with hi | rfl | hi
  · rw [List.getElem?_append_left hi] at h
    exact .inl h
  · rw [List.getElem?_concat_length] at h
    exact .inr ⟨rfl, (Option.some.inj h).symm⟩
  · have hlen : (l ++ [a]).length ≤ i := by rwa [List.length_append]
    rw [List.getElem?_eq_none hlen] at h
    cases h

/-- What is known of a ticker and of its ticks so far. -/
structure Paced (period start : Int64) (tr : List Tick) (s : State) : Prop where
  period_eq : s.ticker.period = period
  next_le : s.ticker.next.toInt ≤ s.clock.toInt
  start_le : start.toInt + tr.length * period.toInt ≤ s.ticker.next.toInt
  back_le : ∀ {i : Nat} {x : Tick}, tr[i]? = some x → x.back.toInt ≤ s.clock.toInt
  /-- a tick before the last one lies whole periods before the target -/
  spaced : ∀ {i k : Nat} {x : Tick}, tr[i]? = some x → i + k + 2 = tr.length →
    x.back.toInt + k * period.toInt ≤ s.ticker.next.toInt
  /-- without a late tick since, the targets are whole periods apart -/
  exact : ∀ {i k : Nat} {x : Tick}, tr[i]? = some x → i + k + 1 = tr.length →
    (∀ (j : Nat) (y : Tick), i < j → tr[j]? = some y → y.late = false) →
    s.ticker.next.toInt = x.target.toInt + k * period.toInt

theorem paced_init : Paced period start [] (init period start) where
  period_eq := rfl
  next_le := le_rfl
  start_le := by simp [init, new]
  back_le h := by cases h
  spaced h := by cases h
  exact h := by cases h

theorem Paced.step (h : Paced period start tr s) (ht : Turn s c tick s') :
    Paced period start (tr ++ [tick]) s' := by
  have hnow := ht.clock_le.trans ht.now_le
  have hold := h.next_le
  -- the target moves on by a period at least, and not into the past
  have hnext : s.ticker.next.toInt + period.toInt ≤ s'.ticker.next.toInt ∧
      s.clock.toInt ≤ s'.ticker.next.toInt := by
    have hclock := ht.clock_le
    rw [← h.period_eq]
    rcases ht.next_eq with ⟨-, heq, hle⟩ | ⟨-, hlt, heq⟩
    · rw [heq]
      exact ⟨hle, hclock⟩
    · exact ⟨heq.ge, by omega⟩
  refine ⟨ht.period_eq.trans h.period_eq, by rw [ht.clock_eq]; exact ht.next_le, ?_,
    fun hx => ?_, fun hx hlen => ?_, fun {i k x} hx hlen hon => ?_⟩
  · have hstart := h.start_le
    simp only [List.length_append, List.length_singleton, Nat.cast_add, Nat.cast_one]
    linarith only [hstart, hnext.1]
  · rw [ht.clock_eq]
    rcases getElem?_concat_some hx with hx | ⟨-, rfl⟩
    · exact (h.back_le hx).trans hnow
    · exact ht.back_eq ▸ le_rfl
  · rename_i i k x
    rw [List.length_append, List.length_singleton] at hlen
    rcases getElem?_concat_some hx with hx | ⟨rfl, -⟩
    · cases k with
      | zero =>
          have hback := h.back_le hx
          simp only [Nat.cast_zero, zero_mul, add_zero]
          exact hback.trans hnext.2
      | succ k =>
          have hspaced := h.spaced (k := k) hx (by omega)
          rw [Nat.cast_add, Nat.cast_one]
          linarith only [hspaced, hnext.1]
    · omega
  · rw [List.length_append, List.length_singleton] at hlen
    rcases getElem?_concat_some hx with hx | ⟨rfl, rfl⟩
    · cases k with
      | zero => exact absurd (List.getElem?_eq_some_iff.mp hx).1 (by omega)
      | succ k =>
          have hlast := hon tr.length tick (by omega) List.getElem?_concat_length
          have hexact := h.exact (k := k) hx (by omega) fun j y hj hy => by
            have hjlt := (List.getElem?_eq_some_iff.mp hy).1
            exact hon j y hj ((List.getElem?_append_left hjlt).trans hy)
          rcases ht.next_eq with ⟨hlate, -⟩ | ⟨-, -, heq⟩
          · rw [hlate] at hlast
            cases hlast
          · rw [heq, hexact, h.period_eq, Nat.cast_add, Nat.cast_one]
            ring
    · obtain rfl : k = 0 := by omega
      rw [ht.target_eq]
      simp

theorem Paced.turn (h : Paced period start tr s) (hperiod : 0 ≤ period.toInt)
    (hrange : s.clock.toInt + period.toInt < 2 ^ 63) {evs : List Tick}
    (hstep : machine.step s c = some (s', evs)) : ∃ tick, evs = [tick] ∧ Turn s c tick s' := by
  have hnext := h.next_le
  refine step_turn hstep (h.period_eq ▸ hperiod) ?_
  rw [h.period_eq]
  omega

/-- **Paced ticks.** For every sequence of calls on a steady clock that stays in range: a
    call returns at or after its target, whose distance to the start is a period for each
    call so far at least, and two calls with `k` calls between them are `k` periods apart
    at least, so there is never a burst that makes up for late calls. The targets of two
    calls with no late call after the first are whole periods apart, exactly: however long
    the sleeps take, nothing adds up. -/
theorem ticks_paced (hperiod : 0 ≤ period.toInt)
    (h : machine.Run (init period start) as tr s)
    (hrange : s.clock.toInt + period.toInt < 2 ^ 63) :
    (∀ (i : Nat) (y : Tick), tr[i]? = some y → y.target.toInt ≤ y.back.toInt ∧
      start.toInt + (i + 1) * period.toInt ≤ y.target.toInt) ∧
    (∀ (i k : Nat) (x y : Tick), tr[i]? = some x → tr[i + k + 1]? = some y →
      x.back.toInt + k * period.toInt ≤ y.target.toInt) ∧
    ∀ (i k : Nat) (x y : Tick), tr[i]? = some x → tr[i + k]? = some y →
      (∀ (j : Nat) (z : Tick), i < j → j ≤ i + k → tr[j]? = some z → z.late = false) →
      y.target.toInt = x.target.toInt + k * period.toInt := by
  suffices hall : Paced period start tr s ∧ _ from hall.2
  induction h with
  | nil => exact ⟨paced_init, by simp, by simp, by simp⟩
  | @snoc as tr evs s s' c hrun _ hstep ih =>
      have hclock := step_clock_le hstep
      have hrange' : s.clock.toInt + period.toInt < 2 ^ 63 := by omega
      obtain ⟨hpaced, htargets, hspaced, hexact⟩ := ih hrange'
      obtain ⟨tick, rfl, ht⟩ := hpaced.turn hperiod hrange' hstep
      have hpaced' := hpaced.step ht
      have hlen : (tr ++ [tick]).length = tr.length + 1 := by simp
      refine ⟨hpaced', fun i y hy => ?_, fun i k x y hx hy => ?_, fun i k x y hx hy hon => ?_⟩
      · rcases getElem?_concat_some hy with hy | ⟨rfl, rfl⟩
        · exact htargets i y hy
        · have hstart := hpaced'.start_le
          rw [hlen, Nat.cast_add, Nat.cast_one] at hstart
          rw [ht.target_eq, ht.back_eq]
          exact ⟨ht.next_le, hstart⟩
      · rcases getElem?_concat_some hy with hy | ⟨hi, rfl⟩
        · have hilt := (List.getElem?_eq_some_iff.mp hy).1
          rw [List.getElem?_append_left (by omega)] at hx
          exact hspaced i k x y hx hy
        · rw [ht.target_eq]
          exact hpaced'.spaced hx (by omega)
      · rcases getElem?_concat_some hy with hy | ⟨hi, rfl⟩
        · have hilt := (List.getElem?_eq_some_iff.mp hy).1
          rw [List.getElem?_append_left (by omega)] at hx
          refine hexact i k x y hx hy fun j z hij hj hz => ?_
          have hjlt := (List.getElem?_eq_some_iff.mp hz).1
          exact hon j z hij hj ((List.getElem?_append_left hjlt).trans hz)
        · rw [ht.target_eq]
          refine hpaced'.exact hx (by omega) fun j z hij hz => ?_
          have hjlt := (List.getElem?_eq_some_iff.mp hz).1
          exact hon j z hij (by omega) hz

/-- The second call is late by a period and a half; the third one counts from there. -/
theorem ticks_paced_late :
    ∃ tr s x y, machine.Run (init 10 0) [⟨1, 11⟩, ⟨35, 35⟩, ⟨36, 45⟩] tr s ∧
      tr.map Tick.late = [false, true, false] ∧ tr[0]? = some x ∧ tr[2]? = some y ∧
      x.back.toInt + (1 : Nat) * (10 : Int64).toInt ≤ y.target.toInt := by
  have hrun := Machine.Run.of_isSome machine (init 10 0) [⟨1, 11⟩, ⟨35, 35⟩, ⟨36, 45⟩] (by decide)
  exact ⟨_, _, _, _, hrun, by decide, rfl, rfl,
    (ticks_paced (by decide) hrun (by decide)).2.1 0 1 _ _ rfl rfl⟩

/-! ## On time -/

/-- A call comes at most `work` after the last one returned, and returns at most `overshoot`
    after its target. -/
def WithinBudget (work overshoot : Int) (s : State) (c : Call) : Prop :=
  c.now.toInt ≤ s.clock.toInt + work ∧
    c.back.toInt ≤ (s.ticker.sleepUntilNext c.now).1.next.toInt + overshoot

instance (work overshoot : Int) (s : State) (c : Call) :
    Decidable (WithinBudget work overshoot s c) :=
  inferInstanceAs (Decidable (_ ∧ _))

/-- **On time.** If the work between two calls and the overshoot of a sleep together stay
    below one period, no call is late, and the call number `i` returns at most one overshoot
    after `i` periods from the start. -/
theorem ticks_on_time {work overshoot : Int} (hperiod : 0 ≤ period.toInt)
    (hbudget : work + overshoot < period.toInt) (hover : 0 ≤ overshoot)
    (h : machine.RunIf (fun _ s c => WithinBudget work overshoot s c) (init period start) as tr s)
    (hrange : s.clock.toInt + period.toInt < 2 ^ 63) :
    ∀ (i : Nat) (y : Tick), tr[i]? = some y → y.late = false ∧
      y.target.toInt = start.toInt + (i + 1) * period.toInt ∧
      y.back.toInt ≤ start.toInt + (i + 1) * period.toInt + overshoot := by
  suffices hall : s.ticker.period = period ∧ s.ticker.next.toInt ≤ s.clock.toInt ∧
      s.clock.toInt ≤ s.ticker.next.toInt + overshoot ∧
      s.ticker.next.toInt = start.toInt + tr.length * period.toInt ∧ _ from hall.2.2.2.2
  induction h with
  | nil => exact ⟨rfl, le_rfl, by simpa [init, new] using hover, by simp [init, new], by simp⟩
  | @snoc as tr evs s s' c hrun hC hstep ih =>
      have hclock := step_clock_le hstep
      obtain ⟨hp, hnext, hslack, hgrid, hticks⟩ := ih (by omega)
      obtain ⟨tick, rfl, ht⟩ := step_turn hstep (hp ▸ hperiod) (by rw [hp]; omega)
      obtain ⟨hcome, hback⟩ := hC
      have hticker : s'.ticker = (s.ticker.sleepUntilNext c.now).1 := by
        obtain ⟨-, h⟩ := Option.ite_none_right_eq_some.mp hstep
        exact (congrArg State.ticker (Prod.mk.inj (Option.some.inj h)).1).symm
      rw [← hticker] at hback
      -- the call comes before its target
      obtain ⟨hlate, hmoved⟩ : tick.late = false ∧
          s'.ticker.next.toInt = s.ticker.next.toInt + period.toInt := by
        rcases ht.next_eq with ⟨-, -, hle⟩ | ⟨hlate, -, heq⟩
        · rw [hp] at hle
          omega
        · exact ⟨hlate, hp ▸ heq⟩
      have hgrid' : s'.ticker.next.toInt = start.toInt + (tr.length + 1) * period.toInt := by
        rw [hmoved, hgrid]
        ring
      refine ⟨ht.period_eq.trans hp, ?_, ?_, ?_, fun i y hy => ?_⟩
      · exact ht.clock_eq ▸ ht.next_le
      · exact ht.clock_eq ▸ hback
      · rw [hgrid', List.length_append, List.length_singleton, Nat.cast_add, Nat.cast_one]
      · rcases getElem?_concat_some hy with hy | ⟨rfl, rfl⟩
        · exact hticks i y hy
        · rw [ht.target_eq, ht.back_eq, ← hgrid']
          exact ⟨hlate, rfl, hback⟩

/-- Every sleep overshoots by three, and none of it adds up. -/
theorem ticks_on_time_three :
    ∃ tr s y, machine.Run (init 10 0) [⟨6, 13⟩, ⟨19, 23⟩, ⟨29, 33⟩] tr s ∧ tr[2]? = some y ∧
      y.late = false ∧ y.back.toInt ≤ (0 : Int64).toInt + (2 + 1) * (10 : Int64).toInt + 3 := by
  have hrun := Machine.RunIf.of_isSome machine (fun _ s c => WithinBudget 6 3 s c) (init 10 0)
    [⟨6, 13⟩, ⟨19, 23⟩, ⟨29, 33⟩] (by decide)
  have hall := ticks_on_time (by decide) (by decide) (by decide) hrun (by decide) 2 _ rfl
  exact ⟨_, _, _, hrun.toRun, rfl, hall.1, hall.2.2⟩

end Runs

end Ticker

end Rdb
