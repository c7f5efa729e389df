-- SUMMARY: The lock-free ring of `concurrency/spsc_ring.h`, one step for each access to shared memory.
import Mathlib.Data.Nat.Log
import Rdb.Lib.Machine
import Rdb.Lib.Fifo
import Rdb.Lib.PowTwo

/-!
# Single-producer single-consumer ring

`push` and `pop` share two counters and the slots. Each load or store of a
counter and each access to a slot is one step, so the producer and the consumer
interleave between any two of them. The counters are 64-bit and wrap; a side
keeps a possibly stale copy of the other side's counter and looks again only when
the copy says that it cannot go on.
-/

namespace Rdb

/-- `round_up_pow2`: the shifts of the loop are the powers of two below 64. -/
def roundUpPow2 (v : UInt64) : UInt64 :=
  if v < 2 then 2
  else ([1, 2, 4, 8, 16, 32] : List UInt64).foldl (fun v shift => v ||| v >>> shift) (v - 1) + 1

structure SpscRing (α : Type*) where
  mask : UInt64
  slots : List α
  write : UInt64
  readCache : UInt64
  read : UInt64
  writeCache : UInt64

namespace SpscRing

variable {α : Type*}

/-- `capacity()` -/
def capacity (r : SpscRing α) : UInt64 := r.mask + 1

def new [Inhabited α] (capacity : UInt64) : SpscRing α where
  mask := roundUpPow2 capacity - 1
  slots := List.replicate (roundUpPow2 capacity - 1 + 1).toNat default
  write := 0
  readCache := 0
  read := 0
  writeCache := 0

/-- The slot of a counter value. -/
def index (r : SpscRing α) (counter : UInt64) : Nat := (counter &&& r.mask).toNat

/-- What the producer does next in `push(v)`. `write` is the counter it loaded. -/
inductive Producer (α : Type*) where
  | idle
  | loadRead (v : α) (write : UInt64)
  | storeSlot (v : α) (write : UInt64)
  | storeWrite (v : α) (write : UInt64)

/-- What the consumer does next in `pop`. `read` is the counter it loaded. -/
inductive Consumer (α : Type*) where
  | idle
  | loadWrite (read : UInt64)
  | takeSlot (read : UInt64)
  | storeRead (read : UInt64) (out : α)

structure State (α : Type*) where
  ring : SpscRing α
  producer : Producer α
  consumer : Consumer α

def State.init [Inhabited α] (capacity : UInt64) : State α := ⟨.new capacity, .idle, .idle⟩

inductive Action (α : Type*) where
  /-- the producer calls `push(v)` and loads `write_` -/
  | push (v : α)
  /-- the producer's next step -/
  | producer
  /-- the consumer calls `pop` and loads `read_` -/
  | pop
  /-- the consumer's next step -/
  | consumer

inductive Event (α : Type*) where
  /-- a call returned -/
  | result (r : Fifo.Result α)
  | wrote (slot : Nat) (v : α)
  | took (slot : Nat) (v : α)

/-- The producer between two shared accesses of `push`. -/
def stepProducer (s : State α) : Option (State α × List (Event α)) :=
  match s.producer with
  | .idle => none
  | .loadRead v write =>
    -- `read_.load(acquire)`: the copy is refreshed even if the push is then refused
    let ring := { s.ring with readCache := s.ring.read }
    if write - ring.readCache = ring.capacity then
      some ({ s with ring, producer := .idle }, [.result (.full v)])
    else some ({ s with ring, producer := .storeSlot v write }, [])
  | .storeSlot v write =>
    let slot := s.ring.index write
    some ({ s with
            ring := { s.ring with slots := s.ring.slots.set slot v }
            producer := .storeWrite v write }, [.wrote slot v])
  | .storeWrite v write =>
    some ({ s with ring := { s.ring with write := write + 1 }, producer := .idle },
      [.result (.pushed v)])

/-- The consumer between two shared accesses of `pop`. Taking a value leaves what
    `moved` makes of it in the slot. -/
def stepConsumer [Inhabited α] (moved : α → α) (s : State α) :
    Option (State α × List (Event α)) :=
  match s.consumer with
  | .idle => none
  | .loadWrite read =>
    let ring := { s.ring with writeCache := s.ring.write }
    if read = ring.writeCache then
      some ({ s with ring, consumer := .idle }, [.result .empty])
    else some ({ s with ring, consumer := .takeSlot read }, [])
  | .takeSlot read =>
    let slot := s.ring.index read
    let out := s.ring.slots.getD slot default
    some ({ s with
            ring := { s.ring with slots := s.ring.slots.set slot (moved out) }
            consumer := .storeRead read out }, [.took slot out])
  | .storeRead read out =>
    some ({ s with ring := { s.ring with read := read + 1 }, consumer := .idle },
      [.result (.popped out)])

def step [Inhabited α] (moved : α → α) (s : State α) :
    Action α → Option (State α × List (Event α))
  | .push v =>
    match s.producer with
    | .idle =>
      let write := s.ring.write
      if write - s.ring.readCache = s.ring.capacity then
        some ({ s with producer := .loadRead v write }, [])
      else some ({ s with producer := .storeSlot v write }, [])
    | _ => none
  | .producer => stepProducer s
  | .pop =>
    match s.consumer with
    | .idle =>
      let read := s.ring.read
      if read = s.ring.writeCache then
        some ({ s with consumer := .loadWrite read }, [])
      else some ({ s with consumer := .takeSlot read }, [])
    | _ => none
  | .consumer => stepConsumer moved s

def machine [Inhabited α] (moved : α → α) : Machine (State α) (Action α) (Event α) where
  step := step moved

/-! ## What a step can do -/

/-- Everything a step can do, with the events it emits. -/
inductive Transition [Inhabited α] (moved : α → α) (s : State α) :
    State α → List (Event α) → Prop where
  | pushSeemsFull {v : α} : s.producer = .idle →
      s.ring.write - s.ring.readCache = s.ring.capacity →
      Transition moved s { s with producer := .loadRead v s.ring.write } []
  | pushHasRoom {v : α} : s.producer = .idle →
      s.ring.write - s.ring.readCache ≠ s.ring.capacity →
      Transition moved s { s with producer := .storeSlot v s.ring.write } []
  | loadReadFull {v : α} {w : UInt64} : s.producer = .loadRead v w →
      w - s.ring.read = s.ring.capacity →
      Transition moved s
        { s with ring := { s.ring with readCache := s.ring.read }, producer := .idle }
        [.result (.full v)]
  | loadReadRoom {v : α} {w : UInt64} : s.producer = .loadRead v w →
      w - s.ring.read ≠ s.ring.capacity →
      Transition moved s
        { s with ring := { s.ring with readCache := s.ring.read }, producer := .storeSlot v w } []
  | storeSlot {v : α} {w : UInt64} : s.producer = .storeSlot v w →
      Transition moved s
        { s with
          ring := { s.ring with slots := s.ring.slots.set (s.ring.index w) v }
          producer := .storeWrite v w }
        [.wrote (s.ring.index w) v]
  | storeWrite {v : α} {w : UInt64} : s.producer = .storeWrite v w →
      Transition moved s { s with ring := { s.ring with write := w + 1 }, producer := .idle }
        [.result (.pushed v)]
  | popSeemsEmpty : s.consumer = .idle → s.ring.read = s.ring.writeCache →
      Transition moved s { s with consumer := .loadWrite s.ring.read } []
  | popHasItem : s.consumer = .idle → s.ring.read ≠ s.ring.writeCache →
      Transition moved s { s with consumer := .takeSlot s.ring.read } []
  | loadWriteEmpty {r : UInt64} : s.consumer = .loadWrite r → r = s.ring.write →
      Transition moved s
        { s with ring := { s.ring with writeCache := s.ring.write }, consumer := .idle }
        [.result .empty]
  | loadWriteItem {r : UInt64} : s.consumer = .loadWrite r → r ≠ s.ring.write →
      Transition moved s
        { s with ring := { s.ring with writeCache := s.ring.write }, consumer := .takeSlot r } []
  | takeSlot {r : UInt64} : s.consumer = .takeSlot r →
      Transition moved s
        { s with
          ring := { s.ring with
            slots := s.ring.slots.set (s.ring.index r)
              (moved (s.ring.slots.getD (s.ring.index r) default)) }
          consumer := .storeRead r (s.ring.slots.getD (s.ring.index r) default) }
        [.took (s.ring.index r) (s.ring.slots.getD (s.ring.index r) default)]
  | storeRead {r : UInt64} {out : α} : s.consumer = .storeRead r out →
      Transition moved s { s with ring := { s.ring with read := r + 1 }, consumer := .idle }
        [.result (.popped out)]

theorem step_transition [Inhabited α] {moved : α → α} {s s' : State α} {a : Action α}
    {evs : List (Event α)} (h : step moved s a = some (s', evs)) : Transition moved s s' evs := by
  cases a with
  | push v =>
      simp only [step] at h
      split at h
      · rename_i hidle
        split at h
        · rename_i hfull
          obtain ⟨rfl, rfl⟩ := Prod.mk.inj (Option.some.inj h)
          exact .pushSeemsFull hidle hfull
        · rename_i hroom
          obtain ⟨rfl, rfl⟩ := Prod.mk.inj (Option.some.inj h)
          exact .pushHasRoom hidle hroom
      · cases h
  | producer =>
      simp only [step, stepProducer] at h
      split at h
      · cases h
      · rename_i v w hp
        split at h
        · rename_i hfull
          obtain ⟨rfl, rfl⟩ := Prod.mk.inj (Option.some.inj h)
          exact .loadReadFull hp hfull
        · rename_i hroom
          obtain ⟨rfl, rfl⟩ := Prod.mk.inj (Option.some.inj h)
          exact .loadReadRoom hp hroom
      · rename_i v w hp
        obtain ⟨rfl, rfl⟩ := Prod.mk.inj (Option.some.inj h)
        exact .storeSlot hp
      · rename_i v w hp
        obtain ⟨rfl, rfl⟩ := Prod.mk.inj (Option.some.inj h)
        exact .storeWrite hp
  | pop =>
      simp only [step] at h
      split at h
      · rename_i hidle
        split at h
        · rename_i hempty
          obtain ⟨rfl, rfl⟩ := Prod.mk.inj (Option.some.inj h)
          exact .popSeemsEmpty hidle hempty
        · rename_i hitem
          obtain ⟨rfl, rfl⟩ := Prod.mk.inj (Option.some.inj h)
          exact .popHasItem hidle hitem
      · cases h
  | consumer =>
      simp only [step, stepConsumer] at h
      split at h
      · cases h
      · rename_i r hk
        split at h
        · rename_i hempty
          obtain ⟨rfl, rfl⟩ := Prod.mk.inj (Option.some.inj h)
          exact .loadWriteEmpty hk hempty
        · rename_i hitem
          obtain ⟨rfl, rfl⟩ := Prod.mk.inj (Option.some.inj h)
          exact .loadWriteItem hk hitem
      · rename_i r hk
        obtain ⟨rfl, rfl⟩ := Prod.mk.inj (Option.some.inj h)
        exact .takeSlot hk
      · rename_i r out hk
        obtain ⟨rfl, rfl⟩ := Prod.mk.inj (Option.some.inj h)
        exact .storeRead hk

/-! ## Observations -/

/-- The results of the calls that returned. -/
def results (tr : List (Event α)) : List (Fifo.Result α) :=
  tr.filterMap fun
    | .result r => some r
    | _         => none

/-- The slots written, in order. -/
def wroteSlots (tr : List (Event α)) : List Nat :=
  tr.filterMap fun
    | .wrote slot _ => some slot
    | _             => none

/-- The slots read, in order. -/
def tookSlots (tr : List (Event α)) : List Nat :=
  tr.filterMap fun
    | .took slot _ => some slot
    | _            => none

/-- The values successfully pushed, in order. -/
def pushedValues (tr : List (Event α)) : List α := Fifo.pushed (results tr)

/-- The values popped, in order. -/
def poppedValues (tr : List (Event α)) : List α := Fifo.popped (results tr)

/-! ## The capacity -/

theorem toNat_smear (shifts : List UInt64) (v : UInt64) (h : ∀ s ∈ shifts, s < 64) :
    (shifts.foldl (fun v shift => v ||| v >>> shift) v).toNat =
      PowTwo.smear (shifts.map UInt64.toNat) v.toNat := by
  induction shifts generalizing v with
  | nil => rfl
  | cons s shifts ih =>
      have hs : s.toNat % 64 = s.toNat :=
        Nat.mod_eq_of_lt (UInt64.lt_iff_toNat_lt.mp (h s (by simp)))
      have hstep : (v ||| v >>> s).toNat = v.toNat ||| v.toNat >>> s.toNat := by
        simp [UInt64.toNat_or, UInt64.toNat_shiftRight, hs]
      rw [List.foldl_cons, ih _ fun s hs => h s (by simp [hs]), hstep]
      rfl

/-- The power of two above `v - 1`, modulo `2^64`. -/
theorem toNat_roundUpPow2 {v : UInt64} (h : 2 ≤ v.toNat) :
    (roundUpPow2 v).toNat = 2 ^ (Nat.log 2 (v.toNat - 1) + 1) % 2 ^ 64 := by
  have hge : ¬ v < 2 := by
    rw [UInt64.lt_iff_toNat_lt]
    exact Nat.not_lt.mpr h
  have hsub : (v - 1).toNat = v.toNat - 1 := UInt64.toNat_sub_of_le _ _ (by
    rw [UInt64.le_iff_toNat_le]; simp; omega)
  have hlt := v.toNat_lt
  rw [roundUpPow2, if_neg hge, UInt64.toNat_add, toNat_smear _ _ (by simp), hsub]
  change (PowTwo.smear [1, 2, 4, 8, 16, 32] _ + 1) % 2 ^ 64 = _
  rw [PowTwo.smear_eq (by omega) (by omega), Nat.sub_add_cancel (Nat.one_le_two_pow)]

/-- Up to `2^63` the capacity is a power of two that fits, and at least two. -/
theorem roundUpPow2_eq {v : UInt64} (hv : v.toNat ≤ 2 ^ 63) :
    ∃ k, 0 < k ∧ k ≤ 63 ∧ (roundUpPow2 v).toNat = 2 ^ k := by
  rcases Nat.lt_or_ge v.toNat 2 with hlt | hge
  · have hsmall : v < 2 := UInt64.lt_iff_toNat_lt.mpr hlt
    exact ⟨1, by omega, by omega, by rw [roundUpPow2, if_pos hsmall]; rfl⟩
  · -- the bound on `v` is needed here: above `2^63` the power is `2^64`
    have hlog : Nat.log 2 (v.toNat - 1) < 63 := Nat.log_lt_of_lt_pow (by omega) (by omega)
    refine ⟨Nat.log 2 (v.toNat - 1) + 1, by omega, by omega, ?_⟩
    rw [toNat_roundUpPow2 hge]
    exact Nat.mod_eq_of_lt (Nat.pow_lt_pow_right (by omega) (by omega))

end SpscRing

end Rdb
