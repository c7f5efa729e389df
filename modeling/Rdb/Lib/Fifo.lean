-- SUMMARY: The bounded FIFO as an abstract machine, which concurrent queues are compared with.
import Rdb.Lib.Machine

/-!
# Bounded FIFO

The queue every implementation means to be: a list that grows at its end while it
has fewer than `c` values and shrinks at its front.
-/

namespace Fifo

variable {α : Type*}

inductive Op (α : Type*) where
  | push (v : α)
  | pop
  deriving DecidableEq, Repr

/-- What an operation answered. -/
inductive Result (α : Type*) where
  | pushed (v : α)
  | full (v : α)
  | popped (v : α)
  | empty
  deriving DecidableEq, Repr

/-- A push is refused exactly when there are `c` values, a pop exactly when there
    is none. -/
def bounded (α : Type*) (c : Nat) : Machine (List α) (Op α) (Result α) where
  step items
    | .push v =>
      if items.length < c then some (items ++ [v], [.pushed v]) else some (items, [.full v])
    | .pop =>
      match items with
      | []        => some ([], [.empty])
      | v :: rest => some (rest, [.popped v])

/-- The values pushed, in order. -/
def pushed (tr : List (Result α)) : List α :=
  tr.filterMap fun
    | .pushed v => some v
    | _         => none

/-- The values popped, in order. -/
def popped (tr : List (Result α)) : List α :=
  tr.filterMap fun
    | .popped v => some v
    | _         => none

@[simp] theorem pushed_append (tr tr' : List (Result α)) :
    pushed (tr ++ tr') = pushed tr ++ pushed tr' := by simp [pushed]

@[simp] theorem popped_append (tr tr' : List (Result α)) :
    popped (tr ++ tr') = popped tr ++ popped tr' := by simp [popped]

@[simp] theorem pushed_nil : pushed ([] : List (Result α)) = [] := rfl
@[simp] theorem popped_nil : popped ([] : List (Result α)) = [] := rfl
@[simp] theorem pushed_pushed (v : α) : pushed [.pushed v] = [v] := rfl
@[simp] theorem pushed_full (v : α) : pushed [.full v] = [] := rfl
@[simp] theorem pushed_popped (v : α) : pushed [.popped v] = [] := rfl
@[simp] theorem pushed_empty : pushed ([.empty] : List (Result α)) = [] := rfl
@[simp] theorem popped_pushed (v : α) : popped [.pushed v] = [] := rfl
@[simp] theorem popped_full (v : α) : popped [.full v] = [] := rfl
@[simp] theorem popped_popped (v : α) : popped [.popped v] = [v] := rfl
@[simp] theorem popped_empty : popped ([.empty] : List (Result α)) = [] := rfl

/-- What was pushed is what was popped followed by what is left. -/
theorem pushed_eq {c : Nat} {ops : List (Op α)} {tr : List (Result α)} {items : List α}
    (h : (bounded α c).Run [] ops tr items) :
    pushed tr = popped tr ++ items ∧ items.length ≤ c := by
  refine Machine.Run.invariant
    (I := fun tr items => pushed tr = popped tr ++ items ∧ items.length ≤ c) h
    ⟨rfl, Nat.zero_le _⟩ ?_
  rintro tr items op items' evs ⟨heq, hle⟩ hstep
  cases op with
  | push v =>
      simp only [bounded] at hstep
      split at hstep
      · obtain ⟨rfl, rfl⟩ := Prod.mk.inj (Option.some.inj hstep)
        exact ⟨by simp [heq], by simp; omega⟩
      · obtain ⟨rfl, rfl⟩ := Prod.mk.inj (Option.some.inj hstep)
        exact ⟨by simp [heq], hle⟩
  | pop =>
      cases items with
      | nil =>
          obtain ⟨rfl, rfl⟩ := Prod.mk.inj (Option.some.inj hstep)
          exact ⟨by simpa using heq, hle⟩
      | cons v rest =>
          obtain ⟨rfl, rfl⟩ := Prod.mk.inj (Option.some.inj hstep)
          exact ⟨by simp [heq], by simp at hle; omega⟩

end Fifo
