-- SUMMARY: The bounded queue stays within its capacity, and its high-water mark is the largest size it has had.
import Rdb.Lib.Visits
import Rdb.Concurrency.QueueThreads

/-!
# The high-water mark

Two branches insert. The one behind the capacity test raises the mark; the one of
`DropOldest` does not. It need not: it runs on a full queue only, whose mark is at the
capacity already, also when the queue has been cleared and filled again since.
-/

namespace Rdb

namespace BoundedQueue

variable {α : Type*} {q q' : BoundedQueue α} {v : α}

/-- The mark covers the queue, and is within its capacity. -/
structure Marked (q : BoundedQueue α) : Prop where
  size_le : q.size ≤ q.highWater
  le_capacity : q.highWater ≤ q.capacity

/-- A full queue has its mark at the capacity. -/
theorem Marked.eq_capacity (h : q.Marked) (hfull : q.capacity ≤ q.items.length) :
    q.highWater = q.capacity :=
  Nat.le_antisymm h.le_capacity (hfull.trans h.size_le)

theorem PushEffect.highWater_eq {r : Push α} (h : PushEffect q v q' r) (hm : q.Marked) :
    q'.highWater = max q'.size q.highWater := by
  have hle := hm.size_le
  cases h with
  | closed | droppedNewest | full | sleeping => exact (max_eq_right hle).symm
  | droppedOldest _ _ _ hitems =>
      -- one value left, one came
      refine (max_eq_right ?_).symm
      simpa [size, hitems] using hle
  | ok =>
      simp only [accept, size]
      split
      · rename_i hgt
        exact (max_eq_left hgt.le).symm
      · rename_i hgt
        exact (max_eq_right (Nat.le_of_not_lt hgt)).symm

theorem PopEffect.highWater_eq {r : Pop α} (h : PopEffect q q' r) (hm : q.Marked) :
    q'.highWater = max q'.size q.highWater := by
  have hle := hm.size_le
  cases h with
  | none | sleeping => exact (max_eq_right hle).symm
  | value hitems =>
      refine (max_eq_right ?_).symm
      simp only [size, hitems, List.length_cons] at hle ⊢
      exact Nat.le_of_succ_le hle

/-- A push costs a value only where the queue is full. -/
theorem PushEffect.full_of_dropped {status : PushStatus} {evicted : Option α}
    (h : PushEffect q v q' (.returned status evicted)) (hst : status.dropped = true) :
    q.capacity ≤ q.items.length := by
  cases h with
  | droppedNewest _ hfull | droppedOldest _ hfull => exact hfull
  | closed | full | ok => cases hst

end BoundedQueue

namespace QueueThreads

open BoundedQueue

variable {ι α : Type*} {q q' : BoundedQueue α} {evs tr : List (Event ι α)}

/-- Every step raises the mark to the size it leaves. -/
theorem Effect.highWater_eq (h : Effect q evs q') (hm : q.Marked) :
    q'.highWater = max q'.size q.highWater := by
  cases h with
  | push hp => exact hp.highWater_eq hm
  | pop hp => exact hp.highWater_eq hm
  | clear => exact (max_eq_right (Nat.zero_le _)).symm
  | close | quiet => exact (max_eq_right hm.size_le).symm

theorem Effect.marked (h : Effect q evs q') (hm : q.Marked) (hle : q.items.length ≤ q.capacity) :
    q'.Marked where
  size_le := by
    rw [h.highWater_eq hm]
    exact le_max_left _ _
  le_capacity := by
    rw [h.highWater_eq hm]
    refine max_le (h.size_le hle) ?_
    rw [h.capacity_eq.1]
    exact hm.le_capacity

/-- What the mark says about the history. -/
structure HighWater (capacity : Nat) (tr : List (Event ι α)) (q : BoundedQueue α) : Prop where
  capacity_eq : q.capacity = max capacity 1
  size_le : q.items.length ≤ q.capacity
  marked : q.Marked
  of_dropped : (∃ e ∈ tr, e.dropped = true) → q.highWater = q.capacity

variable {capacity : Nat} {policy : OverflowPolicy}

theorem highWater_new : HighWater capacity ([] : List (Event ι α)) (.new capacity policy) where
  capacity_eq := by
    simp only [BoundedQueue.new]
    split <;> omega
  size_le := Nat.zero_le _
  marked := ⟨le_rfl, Nat.zero_le _⟩
  of_dropped := by simp

theorem HighWater.step (h : HighWater capacity tr q) (he : Effect q evs q') :
    HighWater capacity (tr ++ evs) q' where
  capacity_eq := he.capacity_eq.1.trans h.capacity_eq
  size_le := he.size_le h.size_le
  marked := he.marked h.marked h.size_le
  of_dropped := by
    rintro ⟨e, hmem, hdrop⟩
    -- a mark at the capacity stays there
    have hstays : q.highWater = q.capacity → q'.highWater = q'.capacity := by
      intro heq
      refine Nat.le_antisymm (he.marked h.marked h.size_le).le_capacity ?_
      rw [he.highWater_eq h.marked, he.capacity_eq.1, ← heq]
      exact le_max_right _ _
    refine hstays ?_
    rcases List.mem_append.mp hmem with hold | hnew
    · exact h.of_dropped ⟨e, hold, hdrop⟩
    · refine h.marked.eq_capacity ?_
      cases he with
      | push hp =>
          obtain rfl := List.mem_singleton.mp hnew
          exact hp.full_of_dropped hdrop
      | pop | clear | close =>
          obtain rfl := List.mem_singleton.mp hnew
          cases hdrop
      | quiet => cases hnew

section Runs

variable [Fintype ι] [DecidableEq ι] {s : State ι α} {as : List (Action ι α)}

theorem highWater_of_run (h : (machine ι α).Run (.init capacity policy) as tr s) :
    HighWater capacity tr s.queue :=
  Machine.Run.invariant (I := fun tr s => HighWater capacity tr s.queue) h highWater_new
    fun hI hstep => hI.step (step_effect hstep)

/-- **The queue stays within its capacity, and the high-water mark is exact.** In every
    state that any interleaving of threads reaches, the size is within the capacity that
    was asked for, or one; the mark is the greatest size of all states the run went
    through; and it is at the capacity once a push has cost a value. -/
theorem high_water_exact (h : (machine ι α).Run (.init capacity policy) as tr s) :
    s.queue.capacity = max capacity 1 ∧
    s.queue.size ≤ s.queue.capacity ∧
    IsGreatest ((fun s => s.queue.size) '' (machine ι α).Visits (.init capacity policy) as)
      s.queue.highWater ∧
    s.queue.highWater ≤ s.queue.capacity ∧
    ((∃ e ∈ tr, e.dropped = true) → s.queue.highWater = s.queue.capacity) := by
  have hI := highWater_of_run h
  refine ⟨hI.capacity_eq, hI.size_le, ?_, hI.marked.le_capacity, hI.of_dropped⟩
  refine Machine.Run.isGreatest_visits (fun s => s.queue.size) (fun s => s.queue.highWater) h rfl ?_
  intro as tr s a s' evs hrun hstep
  exact (step_effect hstep).highWater_eq (highWater_of_run hrun).marked

/-- A queue of two that is filled, cleared and filled again: the value that is dropped
    then leaves the mark where it was. -/
theorem high_water_exact_refilled :
    ∃ tr s, (machine (Fin 1) Nat).Run (.init 2 .dropOldest)
        [.push 0 7 TimePoint.max none, .push 0 8 TimePoint.max none, .clear 0,
          .push 0 9 TimePoint.max none, .push 0 1 TimePoint.max none,
          .push 0 2 TimePoint.max none, .pop 0 TimePoint.max none] tr s ∧
      s.queue.items = [2] ∧ s.queue.highWater = s.queue.capacity ∧ s.queue.capacity = 2 := by
  refine ⟨_, _, .of_isSome _ _ _ (by decide), by decide, ?_, by decide⟩
  exact (high_water_exact (.of_isSome _ _ _ _)).2.2.2.2 (by decide)

end Runs

end QueueThreads

end Rdb
