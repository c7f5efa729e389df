-- SUMMARY: `size()` of the lock-free ring, called from a third thread while producer and consumer go on.
import Rdb.Concurrency.SpscRefinement

/-!
# The size of the ring

`size()` loads `write_` and then `read_`, and subtracts. The two loads are separate
steps: what the consumer takes between them counts as taken from a ring that did not
have it yet. When that is more than the ring held at the first load, the difference
wraps.
-/

namespace Rdb

namespace SpscRing

open Wrap (counter)

variable {α : Type*}

/-- What the third thread does next in `size()`. `write` is the counter it loaded. -/
inductive Observer where
  | idle
  | loadRead (write : UInt64)
  deriving DecidableEq

/-- The ring with a third thread. -/
structure Watched (α : Type*) where
  state : State α
  observer : Observer

def Watched.init [Inhabited α] (capacity : UInt64) : Watched α := ⟨.init capacity, .idle⟩

inductive WatchedAction (α : Type*) where
  /-- a step of the producer or of the consumer -/
  | ring (a : Action α)
  /-- the third thread calls `size()`, or `empty()`, and loads `write_` -/
  | size
  /-- it loads `read_` and returns -/
  | loadRead

inductive WatchedEvent (α : Type*) where
  | ring (e : Event α)
  /-- `size()` returned `n`; `empty()` compares it with zero -/
  | sized (n : UInt64)

def watchedStep [Inhabited α] (moved : α → α) (w : Watched α) :
    WatchedAction α → Option (Watched α × List (WatchedEvent α))
  | .ring a =>
    (step moved w.state a).map fun r => ({ w with state := r.1 }, r.2.map .ring)
  | .size =>
    match w.observer with
    | .idle       => some ({ w with observer := .loadRead w.state.ring.write }, [])
    | .loadRead _ => none
  | .loadRead =>
    match w.observer with
    | .idle           => none
    | .loadRead write =>
      some ({ w with observer := .idle }, [.sized (write - w.state.ring.read)])

def watched [Inhabited α] (moved : α → α) :
    Machine (Watched α) (WatchedAction α) (WatchedEvent α) where
  step := watchedStep moved

/-! ## The ring under observation -/

/-- What producer and consumer did. -/
def ringEvents (tr : List (WatchedEvent α)) : List (Event α) :=
  tr.filterMap fun
    | .ring e  => some e
    | .sized _ => none

@[simp] theorem ringEvents_append (tr tr' : List (WatchedEvent α)) :
    ringEvents (tr ++ tr') = ringEvents tr ++ ringEvents tr' := by simp [ringEvents]

@[simp] theorem ringEvents_map (evs : List (Event α)) : ringEvents (evs.map .ring) = evs := by
  simp [ringEvents, List.filterMap_map]

/-- What `size()` returned, in order. -/
def sizes (tr : List (WatchedEvent α)) : List UInt64 :=
  tr.filterMap fun
    | .ring _  => none
    | .sized n => some n

/-- How many values were pushed. -/
def pushes (tr : List (WatchedEvent α)) : Nat := (pushedValues (ringEvents tr)).length

/-- How many values were popped. -/
def pops (tr : List (WatchedEvent α)) : Nat := (poppedValues (ringEvents tr)).length

section Runs

variable [Inhabited α] {moved : α → α} {w₀ w w₁ w₂ w₃ w₄ : Watched α}
  {as as₁ as₂ : List (WatchedAction α)} {tr tr₁ tr₂ evs : List (WatchedEvent α)} {n : UInt64}

/-- The third thread changes nothing for the ring. -/
theorem ring_run (h : (watched moved).Run w₀ as tr w) :
    ∃ bs, (machine moved).Run w₀.state bs (ringEvents tr) w.state := by
  induction h with
  | nil => exact ⟨[], .nil⟩
  | @snoc as tr evs w w' a _ _ hstep ih =>
      obtain ⟨bs, hrun⟩ := ih
      cases a with
      | ring b =>
          obtain ⟨r, hr, heq⟩ := Option.map_eq_some_iff.mp hstep
          obtain ⟨rfl, rfl⟩ := Prod.mk.inj heq
          rw [ringEvents_append, ringEvents_map]
          exact ⟨bs ++ [b], hrun.snoc hr⟩
      | size =>
          simp only [watched, watchedStep] at hstep
          split at hstep
          · obtain ⟨rfl, rfl⟩ := Prod.mk.inj (Option.some.inj hstep)
            exact ⟨bs, by simpa [ringEvents] using hrun⟩
          · cases hstep
      | loadRead =>
          simp only [watched, watchedStep] at hstep
          split at hstep
          · cases hstep
          · obtain ⟨rfl, rfl⟩ := Prod.mk.inj (Option.some.inj hstep)
            exact ⟨bs, by simpa [ringEvents] using hrun⟩

/-- Until it loads `read_`, the third thread keeps the counter it loaded. -/
theorem observer_of_run {write : UInt64} (h : (watched moved).Run w₀ as tr w)
    (hload : w₀.observer = .loadRead write) (hno : .loadRead ∉ as) :
    w.observer = .loadRead write := by
  have hguard := h.guarded (D := fun a => a ≠ .loadRead) fun a ha => ne_of_mem_of_not_mem ha hno
  refine hguard.invariant (I := fun _ w => w.observer = .loadRead write) hload ?_
  intro tr w a w' evs hold ha hstep
  cases a with
  | ring b =>
      obtain ⟨r, -, heq⟩ := Option.map_eq_some_iff.mp hstep
      obtain ⟨rfl, -⟩ := Prod.mk.inj heq
      exact hold
  | size => simp [watched, watchedStep, hold] at hstep
  | loadRead => exact absurd rfl ha

/-- The value that `size()` returns, in unbounded counters: what was pushed up to its
    first load, less what was popped up to its second. -/
theorem sized_eq {request : UInt64} (hreq : request.toNat ≤ 2 ^ 63)
    (h₁ : (watched moved).Run (.init request) as₁ tr₁ w₁)
    (hcall : (watched moved).step w₁ .size = some (w₂, evs))
    (h₂ : (watched moved).Run w₂ as₂ tr₂ w₃) (hno : .loadRead ∉ as₂)
    (hret : (watched moved).step w₃ .loadRead = some (w₄, [.sized n])) :
    n = counter (pushes tr₁) - counter (pops tr₁ + pops tr₂) ∧ pops tr₁ ≤ pushes tr₁ ∧
      pushes tr₁ ≤ pops tr₁ + (new request : SpscRing α).capacity.toNat ∧
      pops tr₁ + pops tr₂ ≤ pushes tr₁ + pushes tr₂ := by
  obtain ⟨k, -, hk, hc⟩ := roundUpPow2_eq hreq
  have hload : w₂.state = w₁.state ∧ w₂.observer = .loadRead w₁.state.ring.write := by
    simp only [watched, watchedStep] at hcall
    split at hcall
    · obtain ⟨rfl, -⟩ := Prod.mk.inj (Option.some.inj hcall)
      exact ⟨rfl, rfl⟩
    · cases hcall
  have hkept := observer_of_run h₂ hload.2 hno
  have hn : n = w₁.state.ring.write - w₃.state.ring.read := by
    simp only [watched, watchedStep, hkept] at hret
    obtain ⟨-, hevs⟩ := Prod.mk.inj (Option.some.inj hret)
    exact (WatchedEvent.sized.inj (List.singleton_inj.mp hevs)).symm
  -- the ring at the first load, and at the second
  obtain ⟨bs₁, hrun₁⟩ := ring_run h₁
  obtain ⟨bs₂, hrun₂⟩ := ring_run h₂
  rw [hload.1] at hrun₂
  obtain ⟨g₁, hI₁⟩ := inv_of_run hk hc hrun₁
  obtain ⟨g₂, hI₂⟩ := inv_of_run hk hc (hrun₁.append hrun₂)
  have hlen₁ := hI₁.pushedValues_length
  have hlen₂ := hI₂.pushedValues_length
  have hpopped₁ := hI₁.popped
  have hpopped₂ := hI₂.popped
  have hitems := hI₁.items_le
  rw [← ringEvents_append] at hlen₂ hpopped₂
  have hpush : pushes (tr₁ ++ tr₂) = pushes tr₁ + pushes tr₂ := by
    simp [pushes, pushedValues]
  have hpop : pops (tr₁ ++ tr₂) = pops tr₁ + pops tr₂ := by
    simp [pops, poppedValues]
  have hwrite : g₁.write = pushes tr₁ := by
    rw [Ghost.write, ← hpopped₁, pushes, hlen₁]
  have hread : g₂.read = pops tr₁ + pops tr₂ := by
    rw [← hpop, pops, hpopped₂]
  refine ⟨by rw [hn, hI₁.write, hI₂.read, hwrite, hread], ?_, ?_, ?_⟩
  · exact Nat.le.intro hlen₁.symm
  · rw [new_capacity, hc]
    exact hlen₁.le.trans (Nat.add_le_add_left hitems _)
  · rw [← hpop, ← hpush]
    exact Nat.le.intro hlen₂.symm

/-- **When the size is in range.** Whatever producer and consumer do between the two
    loads, `size()` returns at most the capacity exactly when the consumer did not take
    more between them than the ring held at the first, or overtook the counter that was
    loaded there by almost `2^64`. -/
theorem size_le_capacity_iff {request : UInt64} (hreq : request.toNat ≤ 2 ^ 63)
    (h₁ : (watched moved).Run (.init request) as₁ tr₁ w₁)
    (hcall : (watched moved).step w₁ .size = some (w₂, evs))
    (h₂ : (watched moved).Run w₂ as₂ tr₂ w₃) (hno : .loadRead ∉ as₂)
    (hret : (watched moved).step w₃ .loadRead = some (w₄, [.sized n])) :
    n ≤ (new request : SpscRing α).capacity ↔
      pops tr₂ % 2 ^ 64 ≤ pushes tr₁ - pops tr₁ ∨
        2 ^ 64 + (pushes tr₁ - pops tr₁) ≤
          pops tr₂ % 2 ^ 64 + (new request : SpscRing α).capacity.toNat := by
  obtain ⟨hn, hle, hcap, -⟩ := sized_eq hreq h₁ hcall h₂ hno hret
  obtain ⟨held, hheld⟩ := Nat.exists_eq_add_of_le hle
  rw [hheld] at hn hcap
  rw [UInt64.le_iff_toNat_le, hn, hheld, Nat.add_sub_cancel_left]
  exact Wrap.toNat_sub_le_iff (Nat.le_of_add_le_add_left hcap) (UInt64.toNat_lt _)

/-- A full ring of two, of which the consumer takes one between the two loads. -/
theorem size_le_capacity_iff_full :
    ∃ as tr w n, (watched (id : Nat → Nat)).Run (.init 2) as tr w ∧ sizes tr = [n] ∧ n = 1 ∧
      n ≤ (new 2 : SpscRing Nat).capacity := by
  have h₁ := Machine.Run.of_isSome (watched (id : Nat → Nat)) (.init 2)
    [.ring (.push 5), .ring .producer, .ring .producer, .ring (.push 6), .ring .producer,
      .ring .producer] (by decide)
  have hcall := h₁.step_of_isSome .size (by decide)
  have h₂ := Machine.RunIf.of_isSome_after hcall (fun _ _ _ => True)
    [.ring .pop, .ring .consumer, .ring .consumer, .ring .consumer] (by decide)
  have hret := h₂.toRun.step_of_isSome .loadRead (by decide)
  have hiff := size_le_capacity_iff (by decide) h₁ hcall h₂.toRun (by simp) hret
  exact ⟨_, _, _, 1, ((h₁.snoc hcall).append h₂.toRun).snoc hret, by decide, rfl,
    hiff.mpr (.inl (by decide))⟩

/-- Called by the producer or by the consumer itself, where the other counter is the only
    one that moves, `size()` is in range. -/
theorem size_le_capacity_of_own_side {request : UInt64} (hreq : request.toNat ≤ 2 ^ 63)
    (h₁ : (watched moved).Run (.init request) as₁ tr₁ w₁)
    (hcall : (watched moved).step w₁ .size = some (w₂, evs))
    (h₂ : (watched moved).Run w₂ as₂ tr₂ w₃) (hno : .loadRead ∉ as₂)
    (hret : (watched moved).step w₃ .loadRead = some (w₄, [.sized n]))
    (hown : pushes tr₂ = 0 ∨ pops tr₂ = 0) : n ≤ (new request : SpscRing α).capacity := by
  obtain ⟨hn, hle, hcap, htaken⟩ := sized_eq hreq h₁ hcall h₂ hno hret
  obtain ⟨held, hheld⟩ := Nat.exists_eq_add_of_le hle
  rw [hheld] at hn hcap htaken
  rw [UInt64.le_iff_toNat_le, hn]
  refine (Wrap.toNat_sub_le_iff (Nat.le_of_add_le_add_left hcap) (UInt64.toNat_lt _)).mpr (.inl ?_)
  refine (Nat.mod_le _ _).trans ?_
  rcases hown with hpush | hpop <;> omega

/-- The third thread loads `write_` from the empty ring, then one value is pushed and
    popped, then it loads `read_`. -/
theorem size_exceeds_capacity :
    ¬ ∀ as tr w n, (watched (id : Nat → Nat)).Run (.init 2) as tr w → n ∈ sizes tr →
      n ≤ (new 2 : SpscRing Nat).capacity := by
  intro hall
  have hrun := Machine.Run.of_isSome (watched (id : Nat → Nat)) (.init 2)
    [.size, .ring (.push 5), .ring .producer, .ring .producer, .ring .pop, .ring .consumer,
      .ring .consumer, .ring .consumer, .loadRead] (by decide)
  have hsize := hall _ _ _ 18446744073709551615 hrun (by decide)
  exact absurd hsize (by decide)

end Runs

end SpscRing

end Rdb
