-- SUMMARY: The capacity of the lock-free ring over the whole range of requests, also where rounding up wraps to zero.
import Mathlib.Order.Bounds.Basic
import Rdb.Concurrency.SpscRefinement

/-!
# The capacity of the ring

A request of at most `2^63` is rounded up to a power of two, and masking a counter takes
its residue. A greater request wraps to zero: the ring has no slots, a mask of all ones
and a capacity of zero. Its counters stay at zero, so `push` always finds it full and
`pop` finds it empty, and neither gets as far as a slot.
-/

namespace Rdb

namespace SpscRing

open Wrap (counter)

variable {α : Type*}

/-! ## Rounding up -/

theorem roundUpPow2_isLeast {v : UInt64} (hv : v.toNat ≤ 2 ^ 63) :
    IsLeast {n | (∃ k, n = 2 ^ k) ∧ max v.toNat 2 ≤ n} (roundUpPow2 v).toNat := by
  rcases Nat.lt_or_ge v.toNat 2 with hlt | hge
  · have hsmall : v < 2 := UInt64.lt_iff_toNat_lt.mpr hlt
    have hmax : max v.toNat 2 = 2 := max_eq_right hlt.le
    rw [roundUpPow2, if_pos hsmall, hmax]
    exact ⟨⟨⟨1, rfl⟩, le_rfl⟩, fun n hn => hn.2⟩
  · have hmax : max v.toNat 2 = v.toNat := max_eq_left hge
    have hlog : Nat.log 2 (v.toNat - 1) < 63 := Nat.log_lt_of_lt_pow (by omega) (by omega)
    rw [toNat_roundUpPow2 hge, Nat.mod_eq_of_lt (Nat.pow_lt_pow_right (by omega) (by omega)), hmax]
    refine ⟨⟨⟨_, rfl⟩, ?_⟩, ?_⟩
    · have hupper := Nat.lt_pow_succ_log_self (b := 2) (by omega) (v.toNat - 1)
      exact Nat.le_of_pred_lt hupper
    · rintro n ⟨⟨k, rfl⟩, hle⟩
      -- a power that is at least `v` is above the logarithm of `v - 1`
      have hk : Nat.log 2 (v.toNat - 1) < k := Nat.log_lt_of_lt_pow (by omega) (by omega)
      exact Nat.pow_le_pow_right (by omega) hk

theorem roundUpPow2_eq_zero {v : UInt64} (hv : 2 ^ 63 < v.toNat) : roundUpPow2 v = 0 := by
  have hlt := v.toNat_lt
  have hlog : Nat.log 2 (v.toNat - 1) = 63 :=
    Nat.log_eq_of_pow_le_of_lt_pow (by omega) (by omega)
  apply UInt64.toNat.inj
  rw [toNat_roundUpPow2 (by omega), hlog]
  rfl

/-! ## Masking -/

section Steps

variable {k : Nat} {tr evs : List (Event α)} {s s' : State α} {g : Ghost α}

/-- In a ring of `2^k` slots the mask takes the residue of every counter value. -/
theorem Inv.index_eq_mod (h : Inv (2 ^ k) tr s g) (hk : k ≤ 63) (x : UInt64) :
    s.ring.mask = s.ring.capacity - 1 ∧ s.ring.index x = x.toNat % s.ring.capacity.toNat := by
  have hpow : 2 ^ k < 2 ^ 64 := Nat.pow_lt_pow_right (by omega) (by omega)
  have hcap : s.ring.capacity.toNat = 2 ^ k := by
    rw [h.capacity_eq (Nat.two_pow_pos k), UInt64.toNat_ofNat']
    exact Nat.mod_eq_of_lt hpow
  have hx := h.index_counter hk rfl x.toNat
  rw [counter, UInt64.ofNat_toNat] at hx
  exact ⟨(UInt64.add_sub_cancel _ _).symm, hx.trans (by rw [hcap])⟩

/-! ## The ring without slots -/

/-- Nothing ever happened to a ring without slots: its counters are zero, and each side
    is idle or about to be refused. -/
structure Slotless (s : State α) : Prop where
  slots : s.ring.slots = []
  capacity : s.ring.capacity = 0
  write : s.ring.write = 0
  read : s.ring.read = 0
  readCache : s.ring.readCache = 0
  writeCache : s.ring.writeCache = 0
  producer : s.producer = .idle ∨ ∃ v, s.producer = .loadRead v 0
  consumer : s.consumer = .idle ∨ s.consumer = .loadWrite 0

/-- The event is a call that returned false. -/
def Event.refused : Event α → Prop
  | .result (.full _) | .result .empty => True
  | .result (.pushed _) | .result (.popped _) | .wrote _ _ | .took _ _ => False

theorem slotless_init [Inhabited α] {request : UInt64} (h : 2 ^ 63 < request.toNat) :
    Slotless (.init request : State α) where
  slots := by simp [State.init, new, roundUpPow2_eq_zero h]
  capacity := by simp [State.init, new_capacity, roundUpPow2_eq_zero h]
  write := rfl
  read := rfl
  readCache := rfl
  writeCache := rfl
  producer := .inl rfl
  consumer := .inl rfl

theorem Slotless.seemsFull (h : Slotless s) :
    s.ring.write - s.ring.readCache = s.ring.capacity := by
  rw [h.write, h.readCache, h.capacity, UInt64.sub_self]

theorem Slotless.step [Inhabited α] {moved : α → α} (h : Slotless s)
    (ht : Transition moved s s' evs) : Slotless s' ∧ ∀ e ∈ evs, e.refused := by
  cases ht with
  | pushSeemsFull =>
      exact ⟨{ h with producer := .inr ⟨_, by rw [h.write]⟩ }, by simp⟩
  | pushHasRoom _ hroom => exact absurd h.seemsFull hroom
  | @loadReadFull v w hp =>
      exact ⟨{ h with readCache := h.read, producer := .inl rfl }, by simp [Event.refused]⟩
  | @loadReadRoom v w hp hroom =>
      rcases h.producer with hidle | ⟨u, hload⟩
      · cases hp.symm.trans hidle
      · cases hp.symm.trans hload
        rw [h.read, h.capacity, UInt64.sub_self] at hroom
        exact absurd rfl hroom
  | storeSlot hp | storeWrite hp =>
      rcases h.producer with hidle | ⟨u, hload⟩
      · cases hp.symm.trans hidle
      · cases hp.symm.trans hload
  | popSeemsEmpty =>
      exact ⟨{ h with consumer := .inr (by rw [h.read]) }, by simp⟩
  | popHasItem _ hitem =>
      rw [h.read, h.writeCache] at hitem
      exact absurd rfl hitem
  | loadWriteEmpty =>
      exact ⟨{ h with writeCache := h.write, consumer := .inl rfl }, by simp [Event.refused]⟩
  | @loadWriteItem r hc hitem =>
      rcases h.consumer with hidle | hload
      · cases hc.symm.trans hidle
      · cases hc.symm.trans hload
        rw [h.write] at hitem
        exact absurd rfl hitem
  | takeSlot hc | storeRead hc =>
      rcases h.consumer with hidle | hload
      · cases hc.symm.trans hidle
      · cases hc.symm.trans hload

theorem slotless_of_run [Inhabited α] {moved : α → α} {request : UInt64} {as : List (Action α)}
    (hreq : 2 ^ 63 < request.toNat) (h : (machine moved).Run (.init request) as tr s) :
    Slotless s ∧ ∀ e ∈ tr, e.refused := by
  refine Machine.Run.invariant (I := fun tr s => Slotless s ∧ ∀ e ∈ tr, e.refused) h
    ⟨slotless_init hreq, by simp⟩ ?_
  rintro tr s a s' evs ⟨hI, hold⟩ hstep
  obtain ⟨hI', hnew⟩ := hI.step (step_transition hstep)
  exact ⟨hI', fun e he => (List.mem_append.mp he).elim (hold e) (hnew e)⟩

/-! ## Calls on the ring without slots -/

/-- A push under way is kept by every step that is not the producer's. -/
theorem step_producer_eq [Inhabited α] {moved : α → α} {a : Action α}
    (hstep : step moved s a = some (s', evs)) (hbusy : s.producer ≠ .idle) (ha : a ≠ .producer) :
    s'.producer = s.producer := by
  cases a with
  | push v =>
      simp only [step] at hstep
      cases hstep
  | producer => exact absurd rfl ha
  | pop =>
      simp only [step] at hstep
      split at hstep
      · split at hstep <;> cases hstep <;> rfl
      · cases hstep
  | consumer =>
      simp only [step, stepConsumer] at hstep
      split at hstep
      · cases hstep
      · split at hstep <;> cases hstep <;> rfl
      · cases hstep; rfl
      · cases hstep; rfl

/-- A pop under way is kept by every step that is not the consumer's. -/
theorem step_consumer_eq [Inhabited α] {moved : α → α} {a : Action α}
    (hstep : step moved s a = some (s', evs)) (hbusy : s.consumer ≠ .idle) (ha : a ≠ .consumer) :
    s'.consumer = s.consumer := by
  cases a with
  | push v =>
      simp only [step] at hstep
      split at hstep
      · split at hstep <;> cases hstep <;> rfl
      · cases hstep
  | producer =>
      simp only [step, stepProducer] at hstep
      split at hstep
      · cases hstep
      · split at hstep <;> cases hstep <;> rfl
      · cases hstep; rfl
      · cases hstep; rfl
  | pop =>
      simp only [step] at hstep
      cases hstep
  | consumer => exact absurd rfl ha

/-- Whatever the consumer does meanwhile, a push that loaded `write_` stays where it is. -/
theorem Slotless.run_producer [Inhabited α] {moved : α → α} {as : List (Action α)} {v : α}
    (h : Slotless s) (hp : s.producer = .loadRead v 0) (hrun : (machine moved).Run s as tr s')
    (has : .producer ∉ as) : Slotless s' ∧ s'.producer = .loadRead v 0 := by
  have hguard := hrun.guarded (D := fun a => a ≠ .producer) fun a ha => ne_of_mem_of_not_mem ha has
  refine hguard.invariant (I := fun _ s => Slotless s ∧ s.producer = .loadRead v 0) ⟨h, hp⟩ ?_
  rintro tr s₁ a s₂ evs ⟨hI, hp₁⟩ ha hstep
  have hbusy : s₁.producer ≠ .idle := by simp [hp₁]
  exact ⟨(hI.step (step_transition hstep)).1, (step_producer_eq hstep hbusy ha).trans hp₁⟩

/-- Whatever the producer does meanwhile, a pop that loaded `read_` stays where it is. -/
theorem Slotless.run_consumer [Inhabited α] {moved : α → α} {as : List (Action α)}
    (h : Slotless s) (hc : s.consumer = .loadWrite 0) (hrun : (machine moved).Run s as tr s')
    (has : .consumer ∉ as) : Slotless s' ∧ s'.consumer = .loadWrite 0 := by
  have hguard := hrun.guarded (D := fun a => a ≠ .consumer) fun a ha => ne_of_mem_of_not_mem ha has
  refine hguard.invariant (I := fun _ s => Slotless s ∧ s.consumer = .loadWrite 0) ⟨h, hc⟩ ?_
  rintro tr s₁ a s₂ evs ⟨hI, hc₁⟩ ha hstep
  have hbusy : s₁.consumer ≠ .idle := by simp [hc₁]
  exact ⟨(hI.step (step_transition hstep)).1, (step_consumer_eq hstep hbusy ha).trans hc₁⟩

/-- The producer's next step returns false from a push. -/
def PushFails [Inhabited α] (moved : α → α) (s : State α) (v : α) : Prop :=
  ∃ s', (machine moved).step s .producer = some (s', [.result (.full v)]) ∧ s'.producer = .idle

/-- The consumer's next step returns false from a pop. -/
def PopFails [Inhabited α] (moved : α → α) (s : State α) : Prop :=
  ∃ s', (machine moved).step s .consumer = some (s', [.result .empty]) ∧ s'.consumer = .idle

theorem Slotless.pushFails [Inhabited α] {v : α} (h : Slotless s) (hp : s.producer = .loadRead v 0)
    (moved : α → α) : PushFails moved s v := by
  have hfull : 0 - s.ring.read = s.ring.capacity := by
    rw [h.read, h.capacity]
    rfl
  refine ⟨{ s with ring := { s.ring with readCache := s.ring.read }, producer := .idle }, ?_, rfl⟩
  simp only [machine, SpscRing.step, stepProducer, hp]
  exact if_pos hfull

theorem Slotless.popFails [Inhabited α] (h : Slotless s) (hc : s.consumer = .loadWrite 0)
    (moved : α → α) : PopFails moved s := by
  refine ⟨{ s with ring := { s.ring with writeCache := s.ring.write }, consumer := .idle }, ?_, rfl⟩
  simp only [machine, SpscRing.step, stepConsumer, hc]
  exact if_pos h.write.symm

/-- Every call returns false: one that is under way does so at its side's next step, and
    an idle side may call, after which its next step, whenever it comes, does so. -/
structure RefusesCalls [Inhabited α] (moved : α → α) (s : State α) : Prop where
  pushing : s.producer ≠ .idle → ∃ v, PushFails moved s v
  popping : s.consumer ≠ .idle → PopFails moved s
  push : s.producer = .idle → ∀ v, ∃ s₁, (machine moved).step s (.push v) = some (s₁, []) ∧
    ∀ as tr s₂, (machine moved).Run s₁ as tr s₂ → .producer ∉ as → PushFails moved s₂ v
  pop : s.consumer = .idle → ∃ s₁, (machine moved).step s .pop = some (s₁, []) ∧
    ∀ as tr s₂, (machine moved).Run s₁ as tr s₂ → .consumer ∉ as → PopFails moved s₂

theorem Slotless.refusesCalls [Inhabited α] (h : Slotless s) (moved : α → α) :
    RefusesCalls moved s where
  pushing hbusy := by
    obtain ⟨v, hp⟩ := h.producer.resolve_left hbusy
    exact ⟨v, h.pushFails hp moved⟩
  popping hbusy := h.popFails (h.consumer.resolve_left hbusy) moved
  push hidle v := by
    have hstep : SpscRing.step moved s (.push v) =
        some ({ s with producer := .loadRead v s.ring.write }, []) := by
      simp only [SpscRing.step, hidle]
      exact if_pos h.seemsFull
    have ht : Transition moved s _ [] := step_transition hstep
    refine ⟨_, hstep, fun as tr s₂ hrun has => ?_⟩
    obtain ⟨hI, hp⟩ := (h.step ht).1.run_producer (by rw [h.write]) hrun has
    exact hI.pushFails hp moved
  pop hidle := by
    have hempty : s.ring.read = s.ring.writeCache := by rw [h.read, h.writeCache]
    have hstep : SpscRing.step moved s .pop =
        some ({ s with consumer := .loadWrite s.ring.read }, []) := by
      simp only [SpscRing.step, hidle]
      exact if_pos hempty
    have ht : Transition moved s _ [] := step_transition hstep
    refine ⟨_, hstep, fun as tr s₂ hrun has => ?_⟩
    obtain ⟨hI, hc⟩ := (h.step ht).1.run_consumer (by rw [h.read]) hrun has
    exact hI.popFails hc moved

end Steps

/-- **The capacity is right over the whole range.** A request of at most `2^63` is rounded
    up to the least power of two that is at least two and at least the request, and in
    every state of the ring the mask takes the residue of every counter value modulo the
    capacity. A greater request wraps to zero: in every state of every interleaving a push
    or pop that is made, or is under way, returns false at its side's next step, no call
    ever succeeded, and no slot is touched. -/
theorem ring_capacity_exact [Inhabited α] (moved : α → α) (request : UInt64) :
    (request.toNat ≤ 2 ^ 63 →
      IsLeast {n | (∃ k, n = 2 ^ k) ∧ max request.toNat 2 ≤ n} (roundUpPow2 request).toNat ∧
      ∀ as tr s, (machine moved).Run (.init request) as tr s →
        s.ring.capacity = roundUpPow2 request ∧ s.ring.mask = s.ring.capacity - 1 ∧
          ∀ x, s.ring.index x = x.toNat % s.ring.capacity.toNat) ∧
    (2 ^ 63 < request.toNat →
      roundUpPow2 request = 0 ∧
      ∀ as tr s, (machine moved).Run (.init request) as tr s →
        s.ring.slots = [] ∧ (∀ e ∈ tr, e.refused) ∧ RefusesCalls moved s) := by
  refine ⟨fun hreq => ⟨roundUpPow2_isLeast hreq, ?_⟩, fun hreq => ⟨roundUpPow2_eq_zero hreq, ?_⟩⟩
  · intro as tr s h
    obtain ⟨k, -, hk, hc⟩ := roundUpPow2_eq hreq
    obtain ⟨g, hI⟩ := inv_of_run hk hc h
    refine ⟨?_, (hI.index_eq_mod hk 0).1, fun x => (hI.index_eq_mod hk x).2⟩
    rw [hI.capacity_eq (Nat.two_pow_pos k), ← hc, counter, UInt64.ofNat_toNat]
  · intro as tr s h
    obtain ⟨hI, hrefused⟩ := slotless_of_run hreq h
    exact ⟨hI.slots, hrefused, hI.refusesCalls moved⟩

/-- Just above `2^63`: on the fresh ring a push of 7 and a pop both return false. -/
theorem ring_capacity_exact_wrapped :
    2 ^ 63 < (9223372036854775809 : UInt64).toNat ∧
    (∃ s : State Nat, (machine id).step (.init 9223372036854775809) (.push 7) = some (s, []) ∧
      PushFails id s 7) ∧
    ∃ s : State Nat, (machine id).step (.init 9223372036854775809) .pop = some (s, []) ∧
      PopFails id s := by
  have hlt : 2 ^ 63 < (9223372036854775809 : UInt64).toNat := by decide
  have hring := (ring_capacity_exact (id : Nat → Nat) 9223372036854775809).2 hlt
  have hcalls := (hring.2 [] [] _ .nil).2.2
  obtain ⟨s₁, hpush, hfull⟩ := hcalls.push rfl 7
  obtain ⟨s₂, hpop, hempty⟩ := hcalls.pop rfl
  exact ⟨hlt, ⟨s₁, hpush, hfull [] [] s₁ .nil (by simp)⟩, s₂, hpop, hempty [] [] s₂ .nil (by simp)⟩

end SpscRing

end Rdb
