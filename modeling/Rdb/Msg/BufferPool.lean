-- SUMMARY: The buffer pool of `msg/buffer_pool.h` with its handles, their deleters and the pool's own owners.
import Mathlib.Data.Fintype.Basic
import Rdb.Lib.Machine
import Rdb.Lib.ThreadSum

/-!
# Buffer pool

A pool preallocates its buffers and hands them out as shared handles. The last
handle of a group runs a deleter, which tries to lock the weak pointer it holds to
the pool: if the pool is still there, the buffer goes back to the free list while
a temporary owner keeps the pool alive; otherwise the deleter deletes it. The
pool's destructor deletes what is on its free list.

Buffers are numbered in the order of `preallocate`. A step is a section under the
pool's mutex, or one operation on a reference count.
-/

namespace Rdb

namespace BufferPool

variable {ι : Type*} {n : Nat}

/-- `buffer_bytes == 0 ? 1 : buffer_bytes`, and the same for `count`. -/
def orOne (k : Nat) : Nat := if k = 0 then 1 else k

/-- A buffer: how many bytes are used and how many there are. -/
structure Buffer where
  size : Nat
  capacity : Nat
  deriving DecidableEq, Repr

/-- `Buffer::resize` -/
def Buffer.resize (b : Buffer) (size : Nat) : Buffer × Bool :=
  if size > b.capacity then (b, false) else ({ b with size }, true)

/-- The handles to one buffer, with the control block they share. A group without
    a handle cannot be live. -/
inductive Group (n : Nat) where
  /-- one handle and `others` -/
  | live (b : Fin n) (others : Nat)
  /-- the last handle is gone, the deleter has not locked the pool yet -/
  | dropped (b : Fin n)
  /-- the deleter owns the pool and is about to `release` -/
  | releasing (b : Fin n)
  /-- the buffer is back, the deleter still owns the pool -/
  | unpinning
  /-- the pool has expired, the deleter is about to `delete` -/
  | doomed (b : Fin n)
  | gone
  deriving DecidableEq, Repr

/-- `owners` are the pool's owners outside the deleters, `strong` is its use
    count; `destroyed` counts how often each buffer has been deleted. -/
structure State (ι : Type*) (n : Nat) where
  buffers : Fin n → Buffer
  free : List (Fin n)
  /-- the `raw` of an `acquire` past its locked part -/
  calls : ι → Option (Fin n)
  groups : List (Group n)
  owners : Nat
  strong : Nat
  exhausted : Nat
  destroyed : Fin n → Nat

/-- `create(buffer_bytes, count)` -/
def State.init (bufferBytes count : Nat) : State ι (orOne count) where
  buffers _ := ⟨0, orOne bufferBytes⟩
  free := List.finRange _
  calls _ := none
  groups := []
  owners := 1
  strong := 1
  exhausted := 0
  destroyed _ := 0

def State.total (_ : State ι n) : Nat := n

def State.available (s : State ι n) : Nat := s.free.length

def State.inUse (s : State ι n) : Nat := s.total - s.available

/-- A step of the scheduler. -/
inductive Action (ι : Type*) where
  /-- the locked part of `acquire` -/
  | acquire (t : ι)
  /-- the rest of it: make the handle -/
  | wrap (t : ι)
  | copy (g : Nat)
  | drop (g : Nat)
  | resize (g size : Nat)
  /-- `weak.lock()` -/
  | lock (g : Nat)
  | release (g : Nat)
  /-- the deleter drops its temporary owner -/
  | unpin (g : Nat)
  | delete (g : Nat)
  | copyOwner
  | dropOwner
  /-- the destructor of the pool deletes the next buffer on the free list -/
  | destruct
  deriving DecidableEq, Repr

inductive Event (ι : Type*) (n : Nat) where
  /-- `acquire` returns: null, or the first handle of a group -/
  | acquired (t : ι) (group : Option Nat)
  | resized (g : Nat) (ok : Bool)
  | destroyed (b : Fin n)
  deriving DecidableEq, Repr

/-! ## Steps -/

section Steps

variable [Fintype ι] [DecidableEq ι]

/-- A handle is not used while it is dropped, and whoever is in `acquire` keeps an
    owner of the pool. -/
def step (s : State ι n) : Action ι → Option (State ι n × List (Event ι n))
  | .acquire t =>
    if s.calls t = none ∧ 0 < s.owners then
      match s.free.getLast? with
      | none   => some ({ s with exhausted := s.exhausted + 1 }, [.acquired t none])
      | some b =>
        some ({ s with
          free := s.free.dropLast
          calls := Function.update s.calls t (some b) }, [])
    else none
  | .wrap t =>
    match s.calls t with
    | none   => none
    | some b =>
      some ({ s with
        buffers := Function.update s.buffers b { s.buffers b with size := 0 }
        calls := Function.update s.calls t none
        groups := s.groups ++ [.live b 0] }, [.acquired t (some s.groups.length)])
  | .copy g =>
    match s.groups[g]? with
    | some (.live b others) => some ({ s with groups := s.groups.set g (.live b (others + 1)) }, [])
    | _                     => none
  | .drop g =>
    match s.groups[g]? with
    | some (.live b 0)            => some ({ s with groups := s.groups.set g (.dropped b) }, [])
    | some (.live b (others + 1)) =>
      some ({ s with groups := s.groups.set g (.live b others) }, [])
    | _                           => none
  | .resize g size =>
    match s.groups[g]? with
    | some (.live b _) =>
      some ({ s with buffers := Function.update s.buffers b ((s.buffers b).resize size).1 },
        [.resized g ((s.buffers b).resize size).2])
    | _                => none
  | .lock g =>
    match s.groups[g]? with
    | some (.dropped b) =>
      -- an expired pool cannot be locked; its destructor may still be running
      if s.strong = 0 then some ({ s with groups := s.groups.set g (.doomed b) }, [])
      else
        some ({ s with
          groups := s.groups.set g (.releasing b)
          strong := s.strong + 1 }, [])
    | _                 => none
  | .release g =>
    match s.groups[g]? with
    | some (.releasing b) =>
      some ({ s with
        buffers := Function.update s.buffers b { s.buffers b with size := 0 }
        free := s.free ++ [b]
        groups := s.groups.set g .unpinning }, [])
    | _                   => none
  | .unpin g =>
    match s.groups[g]? with
    | some .unpinning =>
      some ({ s with groups := s.groups.set g .gone, strong := s.strong - 1 }, [])
    | _               => none
  | .delete g =>
    match s.groups[g]? with
    | some (.doomed b) =>
      some ({ s with
        groups := s.groups.set g .gone
        destroyed := Function.update s.destroyed b (s.destroyed b + 1) }, [.destroyed b])
    | _                => none
  | .copyOwner =>
    if 0 < s.owners then
      some ({ s with owners := s.owners + 1, strong := s.strong + 1 }, [])
    else none
  | .dropOwner =>
    if 0 < s.owners ∧ (s.owners = 1 → ∀ t, s.calls t = none) then
      some ({ s with owners := s.owners - 1, strong := s.strong - 1 }, [])
    else none
  | .destruct =>
    if s.strong = 0 then
      match s.free with
      | []        => none
      | b :: rest =>
        some ({ s with
          free := rest
          destroyed := Function.update s.destroyed b (s.destroyed b + 1) }, [.destroyed b])
    else none

variable (ι n) in
def machine : Machine (State ι n) (Action ι) (Event ι n) where
  step := step

end Steps

/-! ## What a step can do -/

/-- A handle is copied or dropped. -/
inductive Regroup : Group n → Group n → Prop where
  | copy {b : Fin n} {others : Nat} : Regroup (.live b others) (.live b (others + 1))
  | drop {b : Fin n} {others : Nat} : Regroup (.live b (others + 1)) (.live b others)
  | last {b : Fin n} : Regroup (.live b 0) (.dropped b)

section Transitions

variable [DecidableEq ι]

/-- Everything a step can do. -/
inductive Transition (s : State ι n) (a : Action ι) : List (Event ι n) → State ι n → Prop where
  | exhaust {t : ι} : a = .acquire t → s.free = [] →
      Transition s a [.acquired t none] { s with exhausted := s.exhausted + 1 }
  | take {t : ι} {b : Fin n} {rest : List (Fin n)} :
      a = .acquire t → s.calls t = none → s.free = rest ++ [b] →
      Transition s a [] { s with free := rest, calls := Function.update s.calls t (some b) }
  | wrap {t : ι} {b : Fin n} : a = .wrap t → s.calls t = some b →
      Transition s a [.acquired t (some s.groups.length)]
        { s with
          buffers := Function.update s.buffers b { s.buffers b with size := 0 }
          calls := Function.update s.calls t none
          groups := s.groups ++ [.live b 0] }
  | regroup {g : Nat} {x y : Group n} : s.groups[g]? = some x → Regroup x y →
      Transition s a [] { s with groups := s.groups.set g y }
  | resize {g size others : Nat} {b : Fin n} : s.groups[g]? = some (.live b others) →
      Transition s a [.resized g ((s.buffers b).resize size).2]
        { s with buffers := Function.update s.buffers b ((s.buffers b).resize size).1 }
  | pin {g : Nat} {b : Fin n} : s.groups[g]? = some (.dropped b) → 0 < s.strong →
      Transition s a []
        { s with groups := s.groups.set g (.releasing b), strong := s.strong + 1 }
  | doom {g : Nat} {b : Fin n} : s.groups[g]? = some (.dropped b) → s.strong = 0 →
      Transition s a [] { s with groups := s.groups.set g (.doomed b) }
  | release {g : Nat} {b : Fin n} : s.groups[g]? = some (.releasing b) →
      Transition s a []
        { s with
          buffers := Function.update s.buffers b { s.buffers b with size := 0 }
          free := s.free ++ [b]
          groups := s.groups.set g .unpinning }
  | unpin {g : Nat} : s.groups[g]? = some .unpinning →
      Transition s a [] { s with groups := s.groups.set g .gone, strong := s.strong - 1 }
  | delete {g : Nat} {b : Fin n} : s.groups[g]? = some (.doomed b) →
      Transition s a [.destroyed b]
        { s with
          groups := s.groups.set g .gone
          destroyed := Function.update s.destroyed b (s.destroyed b + 1) }
  | copyOwner : 0 < s.owners →
      Transition s a [] { s with owners := s.owners + 1, strong := s.strong + 1 }
  | dropOwner : 0 < s.owners →
      Transition s a [] { s with owners := s.owners - 1, strong := s.strong - 1 }
  | destruct {b : Fin n} {rest : List (Fin n)} : s.strong = 0 → s.free = b :: rest →
      Transition s a [.destroyed b]
        { s with
          free := rest
          destroyed := Function.update s.destroyed b (s.destroyed b + 1) }

variable [Fintype ι] {s s' : State ι n} {a : Action ι} {evs : List (Event ι n)}

theorem step_transition (h : step s a = some (s', evs)) : Transition s a evs s' := by
  cases a with
  | acquire t =>
      obtain ⟨⟨hcall, -⟩, h⟩ := Option.ite_none_right_eq_some.mp h
      split at h
      · rename_i hfree
        obtain ⟨rfl, rfl⟩ := Prod.mk.inj (Option.some.inj h)
        exact .exhaust rfl (List.getLast?_eq_none_iff.mp hfree)
      · rename_i b hfree
        obtain ⟨rfl, rfl⟩ := Prod.mk.inj (Option.some.inj h)
        obtain ⟨rest, hrest⟩ := List.getLast?_eq_some_iff.mp hfree
        rw [hrest, List.dropLast_concat]
        exact .take rfl hcall hrest
  | wrap t =>
      simp only [step] at h
      split at h
      · cases h
      · rename_i b hcall
        obtain ⟨rfl, rfl⟩ := Prod.mk.inj (Option.some.inj h)
        exact .wrap rfl hcall
  | copy g =>
      simp only [step] at h
      split at h
      · rename_i hg
        obtain ⟨rfl, rfl⟩ := Prod.mk.inj (Option.some.inj h)
        exact .regroup hg .copy
      · cases h
  | drop g =>
      simp only [step] at h
      split at h
      · rename_i hg
        obtain ⟨rfl, rfl⟩ := Prod.mk.inj (Option.some.inj h)
        exact .regroup hg .last
      · rename_i hg
        obtain ⟨rfl, rfl⟩ := Prod.mk.inj (Option.some.inj h)
        exact .regroup hg .drop
      · cases h
  | resize g size =>
      simp only [step] at h
      split at h
      · rename_i hg
        obtain ⟨rfl, rfl⟩ := Prod.mk.inj (Option.some.inj h)
        exact .resize hg
      · cases h
  | lock g =>
      simp only [step] at h
      split at h
      · rename_i hg
        split at h
        · rename_i hstrong
          obtain ⟨rfl, rfl⟩ := Prod.mk.inj (Option.some.inj h)
          exact .doom hg hstrong
        · rename_i hstrong
          obtain ⟨rfl, rfl⟩ := Prod.mk.inj (Option.some.inj h)
          exact .pin hg (Nat.pos_of_ne_zero hstrong)
      · cases h
  | release g =>
      simp only [step] at h
      split at h
      · rename_i hg
        obtain ⟨rfl, rfl⟩ := Prod.mk.inj (Option.some.inj h)
        exact .release hg
      · cases h
  | unpin g =>
      simp only [step] at h
      split at h
      · rename_i hg
        obtain ⟨rfl, rfl⟩ := Prod.mk.inj (Option.some.inj h)
        exact .unpin hg
      · cases h
  | delete g =>
      simp only [step] at h
      split at h
      · rename_i hg
        obtain ⟨rfl, rfl⟩ := Prod.mk.inj (Option.some.inj h)
        exact .delete hg
      · cases h
  | copyOwner =>
      obtain ⟨howner, h⟩ := Option.ite_none_right_eq_some.mp h
      obtain ⟨rfl, rfl⟩ := Prod.mk.inj (Option.some.inj h)
      exact .copyOwner howner
  | dropOwner =>
      obtain ⟨⟨howner, -⟩, h⟩ := Option.ite_none_right_eq_some.mp h
      obtain ⟨rfl, rfl⟩ := Prod.mk.inj (Option.some.inj h)
      exact .dropOwner howner
  | destruct =>
      obtain ⟨hstrong, h⟩ := Option.ite_none_right_eq_some.mp h
      split at h
      · cases h
      · rename_i hfree
        obtain ⟨rfl, rfl⟩ := Prod.mk.inj (Option.some.inj h)
        exact .destruct hstrong hfree

end Transitions

end BufferPool

end Rdb
