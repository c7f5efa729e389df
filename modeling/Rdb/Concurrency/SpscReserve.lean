-- SUMMARY: What `size()` promises a thread that uses one side of the ring itself, whatever the other side does.
import Rdb.Concurrency.SpscSize

/-!
# The size of the ring on its own side

A third thread learns little from `size()`. The consumer may rely on it: what it has seen
can only grow until it pops, so that many pops succeed. In the same way the room that the
producer has seen can only grow until it pushes.
-/

namespace Rdb

namespace SpscRing

open Wrap (counter)

variable {α : Type*}

section Calls

variable [Inhabited α] {moved : α → α} {request : UInt64} {as : List (Action α)}
  {tr evs : List (Event α)} {s s' : State α} {a : Action α}

/-- A pop is only refused when everything pushed has been popped. -/
theorem length_of_empty (hreq : request.toNat ≤ 2 ^ 63)
    (h : (machine moved).Run (.init request) as tr s)
    (hstep : (machine moved).step s a = some (s', evs)) (he : .result .empty ∈ evs) :
    (pushedValues tr).length = (poppedValues tr).length := by
  obtain ⟨k, -, hk, hc⟩ := roundUpPow2_eq hreq
  obtain ⟨g, hI⟩ := inv_of_run hk hc h
  have hc64 : 2 ^ k < 2 ^ 64 := Nat.pow_lt_pow_right (by omega) (by omega)
  cases step_transition hstep with
  | loadWriteEmpty hcons hempty =>
      have hitems := (hI.loadWrite_empty_iff hc64 hcons).mp hempty
      rw [hI.pushedValues_length, hitems, List.length_nil, Nat.add_zero]
  | loadReadFull | storeSlot | storeWrite | takeSlot | storeRead => simp at he
  | pushSeemsFull | pushHasRoom | loadReadRoom | popSeemsEmpty | popHasItem | loadWriteItem =>
      simp at he

/-- A push is only refused by a ring that is full. -/
theorem length_of_full {v : α} (hreq : request.toNat ≤ 2 ^ 63)
    (h : (machine moved).Run (.init request) as tr s)
    (hstep : (machine moved).step s a = some (s', evs)) (he : .result (.full v) ∈ evs) :
    (pushedValues tr).length =
      (poppedValues tr).length + (new request : SpscRing α).capacity.toNat := by
  obtain ⟨k, -, hk, hc⟩ := roundUpPow2_eq hreq
  obtain ⟨g, hI⟩ := inv_of_run hk hc h
  have hc64 : 2 ^ k < 2 ^ 64 := Nat.pow_lt_pow_right (by omega) (by omega)
  cases step_transition hstep with
  | loadReadFull hp hfull =>
      have hitems := (hI.loadRead_full_iff (Nat.two_pow_pos k) hc64 hp).mp hfull
      rw [hI.pushedValues_length, hitems, new_capacity, hc]
  | loadWriteEmpty | storeSlot | storeWrite | takeSlot | storeRead => simp at he
  | pushSeemsFull | pushHasRoom | loadReadRoom | popSeemsEmpty | popHasItem | loadWriteItem =>
      simp at he

/-- Only a step of the consumer's pops. -/
theorem poppedValues_eq_nil (hstep : step moved s a = some (s', evs)) (ha : a ≠ .consumer) :
    poppedValues evs = [] := by
  cases a with
  | consumer => exact absurd rfl ha
  | push v | pop =>
      simp only [step] at hstep
      split at hstep
      · split at hstep <;>
        · obtain ⟨-, rfl⟩ := Prod.mk.inj (Option.some.inj hstep)
          rfl
      · cases hstep
  | producer =>
      simp only [step, stepProducer] at hstep
      split at hstep
      · cases hstep
      · split at hstep <;>
        · obtain ⟨-, rfl⟩ := Prod.mk.inj (Option.some.inj hstep)
          rfl
      all_goals
        obtain ⟨-, rfl⟩ := Prod.mk.inj (Option.some.inj hstep)
        rfl

/-- Only a step of the producer's pushes. -/
theorem pushedValues_eq_nil (hstep : step moved s a = some (s', evs)) (ha : a ≠ .producer) :
    pushedValues evs = [] := by
  cases a with
  | producer => exact absurd rfl ha
  | push v | pop =>
      simp only [step] at hstep
      split at hstep
      · split at hstep <;>
        · obtain ⟨-, rfl⟩ := Prod.mk.inj (Option.some.inj hstep)
          rfl
      · cases hstep
  | consumer =>
      simp only [step, stepConsumer] at hstep
      split at hstep
      · cases hstep
      · split at hstep <;>
        · obtain ⟨-, rfl⟩ := Prod.mk.inj (Option.some.inj hstep)
          rfl
      all_goals
        obtain ⟨-, rfl⟩ := Prod.mk.inj (Option.some.inj hstep)
        rfl

end Calls

/-- A step of `push`. -/
def WatchedAction.byProducer : WatchedAction α → Bool
  | .ring (.push _) | .ring .producer => true
  | .ring .pop | .ring .consumer | .size | .loadRead => false

/-- A step of `pop`. -/
def WatchedAction.byConsumer : WatchedAction α → Bool
  | .ring .pop | .ring .consumer => true
  | .ring (.push _) | .ring .producer | .size | .loadRead => false

section Sides

variable [Inhabited α] {moved : α → α} {w₀ w w₁ w₂ w₃ w₄ w₅ : Watched α}
  {as as₁ as₂ as₃ : List (WatchedAction α)} {tr tr₁ tr₂ tr₃ evs : List (WatchedEvent α)}
  {n request : UInt64}

omit [Inhabited α] in
theorem pushes_append (tr tr' : List (WatchedEvent α)) :
    pushes (tr ++ tr') = pushes tr + pushes tr' := by simp [pushes, pushedValues]

omit [Inhabited α] in
theorem pops_append (tr tr' : List (WatchedEvent α)) :
    pops (tr ++ tr') = pops tr + pops tr' := by simp [pops, poppedValues]

/-- A step of the watched ring is one of the ring, or none. -/
theorem watched_step_inv {a : WatchedAction α} (hstep : (watched moved).step w₀ a = some (w, evs)) :
    (∃ b, a = .ring b ∧ step moved w₀.state b = some (w.state, ringEvents evs)) ∨
      w.state = w₀.state ∧ ringEvents evs = [] := by
  cases a with
  | ring b =>
      obtain ⟨⟨s', evs'⟩, hb, heq⟩ := Option.map_eq_some_iff.mp hstep
      obtain ⟨rfl, rfl⟩ := Prod.mk.inj heq
      exact .inl ⟨b, rfl, by rwa [ringEvents_map]⟩
  | size =>
      simp only [watched, watchedStep] at hstep
      split at hstep
      · obtain ⟨rfl, rfl⟩ := Prod.mk.inj (Option.some.inj hstep)
        exact .inr ⟨rfl, rfl⟩
      · cases hstep
  | loadRead =>
      simp only [watched, watchedStep] at hstep
      split at hstep
      · cases hstep
      · obtain ⟨rfl, rfl⟩ := Prod.mk.inj (Option.some.inj hstep)
        exact .inr ⟨rfl, rfl⟩

/-- While the consumer stands still, nothing is popped. -/
theorem pops_eq_zero (h : (watched moved).Run w₀ as tr w)
    (hquiet : ∀ a ∈ as, a.byConsumer = false) : pops tr = 0 := by
  induction h with
  | nil => rfl
  | @snoc as tr evs w w' a _ _ hstep ih =>
      have ha := hquiet a (List.mem_append_right _ List.mem_cons_self)
      rw [pops_append, ih fun b hb => hquiet b (List.mem_append_left _ hb), Nat.zero_add, pops]
      rcases watched_step_inv hstep with ⟨b, rfl, hb⟩ | ⟨-, hevs⟩
      · rw [poppedValues_eq_nil hb (by rintro rfl; cases ha)]
        rfl
      · rw [hevs]
        rfl

/-- While the producer stands still, nothing is pushed. -/
theorem pushes_eq_zero (h : (watched moved).Run w₀ as tr w)
    (hquiet : ∀ a ∈ as, a.byProducer = false) : pushes tr = 0 := by
  induction h with
  | nil => rfl
  | @snoc as tr evs w w' a _ _ hstep ih =>
      have ha := hquiet a (List.mem_append_right _ List.mem_cons_self)
      rw [pushes_append, ih fun b hb => hquiet b (List.mem_append_left _ hb), Nat.zero_add, pushes]
      rcases watched_step_inv hstep with ⟨b, rfl, hb⟩ | ⟨-, hevs⟩
      · rw [pushedValues_eq_nil hb (by rintro rfl; cases ha)]
        rfl
      · rw [hevs]
        rfl

/-- The ring when a call of one side answers, anywhere in a run. -/
theorem exists_answer (h₀ : (watched moved).Run w₀ as tr w) (h : (watched moved).Run w as₃ tr₃ w₅)
    {r : Fifo.Result α} (hr : .ring (.result r) ∈ tr₃) :
    ∃ bs tr' tr'' b s s' evs, tr₃ = tr' ++ tr'' ∧
      (machine moved).Run w₀.state bs (ringEvents (tr ++ tr')) s ∧
      (machine moved).step s b = some (s', evs) ∧ .result r ∈ evs := by
  obtain ⟨as', a, as'', tr', evs, tr'', w', w'', rfl, rfl, h₁, hstep, hmem, -⟩ :=
    h.exists_step_of_mem hr
  obtain ⟨bs, hrun⟩ := ring_run (h₀.append h₁)
  have hmem : .result r ∈ ringEvents evs := List.mem_filterMap.mpr ⟨_, hmem, rfl⟩
  rcases watched_step_inv hstep with ⟨b, -, hb⟩ | ⟨-, hevs⟩
  · exact ⟨bs, tr', _, b, _, _, _, rfl, hrun, hb, hmem⟩
  · rw [hevs] at hmem
    cases hmem

/-- **What `size()` says to a side of its own.** A consumer to which `size()` returned `n`
    finds the ring empty only after `n` more pops: whatever the producer does in the mean
    time, its next `n` pops succeed. A producer finds the ring full only after as many more
    pushes as there was room. -/
theorem size_reserves (hreq : request.toNat ≤ 2 ^ 63)
    (h₁ : (watched moved).Run (.init request) as₁ tr₁ w₁)
    (hcall : (watched moved).step w₁ .size = some (w₂, evs))
    (h₂ : (watched moved).Run w₂ as₂ tr₂ w₃) (hno : .loadRead ∉ as₂)
    (hret : (watched moved).step w₃ .loadRead = some (w₄, [.sized n]))
    (h₃ : (watched moved).Run w₄ as₃ tr₃ w₅) :
    ((∀ a ∈ as₂, a.byConsumer = false) → .ring (.result .empty) ∈ tr₃ → n.toNat ≤ pops tr₃) ∧
      ((∀ a ∈ as₂, a.byProducer = false) → ∀ v, .ring (.result (.full v)) ∈ tr₃ →
        (new request : SpscRing α).capacity.toNat ≤ n.toNat + pushes tr₃) := by
  obtain ⟨hn, hle, hcap, htaken⟩ := sized_eq hreq h₁ hcall h₂ hno hret
  have hc64 := (new request : SpscRing α).capacity.toNat_lt
  have hsize : ringEvents evs = [] := by
    rcases watched_step_inv hcall with ⟨b, hb, -⟩ | ⟨-, hevs⟩
    · cases hb
    · exact hevs
  have hbefore := ((h₁.snoc hcall).append h₂).snoc hret
  -- what was pushed and popped up to an answer of the rest of the run
  have hpushes : ∀ tr', pushes (tr₁ ++ evs ++ tr₂ ++ [.sized n] ++ tr') =
      pushes tr₁ + pushes tr₂ + pushes tr' := by
    intro tr'
    have hcalled : pushes evs = 0 := by rw [pushes, hsize]; rfl
    simp only [pushes_append, hcalled, Nat.add_zero]
    rfl
  have hpops : ∀ tr', pops (tr₁ ++ evs ++ tr₂ ++ [.sized n] ++ tr') =
      pops tr₁ + pops tr₂ + pops tr' := by
    intro tr'
    have hcalled : pops evs = 0 := by rw [pops, hsize]; rfl
    simp only [pops_append, hcalled, Nat.add_zero]
    rfl
  refine ⟨fun hquiet hempty => ?_, fun hquiet v hfull => ?_⟩
  · have hnone := pops_eq_zero h₂ hquiet
    have hsized : n.toNat = pushes tr₁ - pops tr₁ := by
      rw [hn, hnone, Nat.add_zero, Wrap.toNat_counter_sub hle (by omega)]
    obtain ⟨bs, tr', tr'', b, s, s', evs', rfl, hrun, hstep, hmem⟩ :=
      exists_answer hbefore h₃ hempty
    have heq : pushes _ = pops _ := length_of_empty hreq hrun hstep hmem
    rw [hpushes, hpops, hnone] at heq
    rw [pops_append]
    omega
  · have hnone := pushes_eq_zero h₂ hquiet
    have hsized : n.toNat = pushes tr₁ - (pops tr₁ + pops tr₂) := by
      rw [hn, Wrap.toNat_counter_sub (by omega) (by omega)]
    obtain ⟨bs, tr', tr'', b, s, s', evs', rfl, hrun, hstep, hmem⟩ := exists_answer hbefore h₃ hfull
    have heq : pushes _ = pops _ + _ := length_of_full hreq hrun hstep hmem
    rw [hpushes, hpops, hnone] at heq
    rw [pushes_append]
    omega

/-- The consumer sees one value, and another one is pushed before it pops them both. -/
theorem size_reserves_two :
    ∃ as tr tr₃ w, (watched (id : Nat → Nat)).Run (.init 2) as (tr ++ tr₃) w ∧ sizes tr = [1] ∧
      poppedValues (ringEvents tr₃) = [5, 6] ∧ (1 : UInt64).toNat ≤ pops tr₃ := by
  have h₁ := Machine.Run.of_isSome (watched (id : Nat → Nat)) (.init 2)
    [.ring (.push 5), .ring .producer, .ring .producer] (by decide)
  have hcall := h₁.step_of_isSome .size (by decide)
  have h₂ := Machine.RunIf.of_isSome_after hcall (fun _ _ _ => True)
    [.ring (.push 6), .ring .producer, .ring .producer] (by decide)
  have hret := h₂.toRun.step_of_isSome .loadRead (by decide)
  have h₃ := Machine.RunIf.of_isSome_after hret (fun _ _ _ => True)
    [.ring .pop, .ring .consumer, .ring .consumer, .ring .consumer, .ring .pop, .ring .consumer,
      .ring .consumer, .ring .pop, .ring .consumer] (by decide)
  have hall := size_reserves (by decide) h₁ hcall h₂.toRun (by simp) hret h₃.toRun
  exact ⟨_, _, _, _, (((h₁.snoc hcall).append h₂.toRun).snoc hret).append h₃.toRun, by decide,
    by decide, hall.1 (by simp [WatchedAction.byConsumer]) (List.mem_of_getLast? rfl)⟩

end Sides

end SpscRing

end Rdb
