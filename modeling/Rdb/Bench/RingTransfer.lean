-- SUMMARY: The ring benchmark of `bench/bench_queue_throughput.cpp`: the consumer gets every value once, in order, and the program ends.
import Rdb.Concurrency.SpscRefinement
import Rdb.Bench.Counting

/-!
# One producer and one consumer over the ring

`run_spsc_ring` is the program the lock-free ring is meant for. The main thread pushes
`count` values, each again until the ring takes it, and then sets `done`. The consumer
pops; when it finds the ring empty it looks at `done`, and when that is set it tries once
more before it gives up: the values pushed between its failing pop and its look at `done`
are still in the ring. Neither thread ever blocks, so that the program ends is a matter
of fair scheduling.
-/

namespace Rdb

namespace RingTransfer

open Counting
open SpscRing (Event pushedValues poppedValues)

/-! ## The program -/

/-- What the main thread does next. `i` is the loop variable. -/
inductive Writer where
  /-- call `ring.push(i)` -/
  | push (i : Int64)
  /-- in `ring.push(i)` -/
  | pushing (i : Int64)
  | storeDone
  | join
  /-- `run_spsc_ring` has returned with this `consumed` -/
  | returned (consumed : UInt64)
  deriving DecidableEq

/-- What the consumer thread does next. -/
inductive Reader where
  /-- call `ring.pop` -/
  | pop (seen : UInt64)
  | popping (seen : UInt64)
  /-- the ring was empty: look at `done` -/
  | loadDone (seen : UInt64)
  /-- `done` was set: call `ring.pop` once more -/
  | popAgain (seen : UInt64)
  | poppingAgain (seen : UInt64)
  /-- `consumed.store(seen)` -/
  | store (seen : UInt64)
  | exited
  deriving DecidableEq

structure State where
  ring : SpscRing.State UInt64
  done : Bool
  consumed : UInt64
  writer : Writer
  reader : Reader

inductive Thread where
  | main
  | consumer
  deriving DecidableEq

/-- The head of `for (i = 0; i < count; ++i)`. -/
def forLoop (count i : Int64) : Writer := if i < count then .push i else .storeDone

/-- The head of `while (seen < static_cast<std::uint64_t>(count))`. -/
def whileLoop (count : Int64) (seen : UInt64) : Reader :=
  if seen < count.toUInt64 then .pop seen else .store seen

def State.init (count capacity : Int64) : State where
  ring := .init capacity.toUInt64
  done := false
  consumed := 0
  writer := forLoop count 0
  reader := whileLoop count 0

/-- The answer of the call, if these events end it. -/
def answer : List (Event UInt64) → Option Bool
  | [.result (.pushed _)] => some true
  | [.result (.full _)]   => some false
  | [.result (.popped _)] => some true
  | [.result .empty]      => some false
  | _                     => none

def stepMain (count : Int64) (s : State) : Option (State × List (Event UInt64)) :=
  match s.writer with
  | .push i =>
    (SpscRing.step id s.ring (.push i.toUInt64)).map fun (ring, evs) =>
      ({ s with ring, writer := .pushing i }, evs)
  | .pushing i =>
    (SpscRing.step id s.ring .producer).map fun (ring, evs) =>
      match answer evs with
      | none       => ({ s with ring }, evs)
      | some true  => ({ s with ring, writer := forLoop count (i + 1) }, evs)
      | some false => ({ s with ring, writer := .push i }, evs)
  | .storeDone => some ({ s with done := true, writer := .join }, [])
  | .join =>
    if s.reader = .exited then some ({ s with writer := .returned s.consumed }, []) else none
  | .returned _ => none

def stepConsumer (count : Int64) (s : State) : Option (State × List (Event UInt64)) :=
  match s.reader with
  | .pop seen =>
    (SpscRing.step id s.ring .pop).map fun (ring, evs) =>
      ({ s with ring, reader := .popping seen }, evs)
  | .popping seen =>
    (SpscRing.step id s.ring .consumer).map fun (ring, evs) =>
      match answer evs with
      | none       => ({ s with ring }, evs)
      | some true  => ({ s with ring, reader := whileLoop count (seen + 1) }, evs)
      | some false => ({ s with ring, reader := .loadDone seen }, evs)
  | .loadDone seen =>
    some ({ s with reader := if s.done then .popAgain seen else whileLoop count seen }, [])
  | .popAgain seen =>
    (SpscRing.step id s.ring .pop).map fun (ring, evs) =>
      ({ s with ring, reader := .poppingAgain seen }, evs)
  | .poppingAgain seen =>
    (SpscRing.step id s.ring .consumer).map fun (ring, evs) =>
      match answer evs with
      | none       => ({ s with ring }, evs)
      | some true  => ({ s with ring, reader := whileLoop count (seen + 1) }, evs)
      | some false => ({ s with ring, reader := .store seen }, evs)
  | .store seen => some ({ s with consumed := seen, reader := .exited }, [])
  | .exited => none

def step (count : Int64) (s : State) : Thread → Option (State × List (Event UInt64))
  | .main     => stepMain count s
  | .consumer => stepConsumer count s

def machine (count : Int64) : Machine State Thread (Event UInt64) where
  step := step count

/-! ## What a step of the ring does to the caller -/

/-- The value a push in progress carries. -/
def pushedValue : SpscRing.Producer UInt64 → Option UInt64
  | .idle => none
  | .loadRead v _ | .storeSlot v _ | .storeWrite v _ => some v

/-- At most this many steps of the push are left, unless it finds the ring full. -/
def pushSteps : SpscRing.Producer UInt64 → Nat
  | .idle => 0
  | .loadRead _ _ => 3
  | .storeSlot _ _ => 2
  | .storeWrite _ _ => 1

/-- At most this many steps of the pop are left. -/
def popSteps : SpscRing.Consumer UInt64 → Nat
  | .idle => 0
  | .loadWrite _ => 3
  | .takeSlot _ => 2
  | .storeRead _ _ => 1

/-- A step of a push in progress: it goes on, or it has pushed, or the ring is full. -/
inductive PushStep (r r' : SpscRing.State UInt64) (v : UInt64) : List (Event UInt64) → Prop where
  | goesOn {evs : List (Event UInt64)} : answer evs = none → SpscRing.results evs = [] →
      pushedValue r'.producer = some v → pushSteps r'.producer < pushSteps r.producer →
      PushStep r r' v evs
  | pushed : r'.producer = .idle → PushStep r r' v [.result (.pushed v)]
  | full {w : UInt64} : r.producer = .loadRead v w → w - r.ring.read = r.ring.capacity →
      r'.producer = .idle → PushStep r r' v [.result (.full v)]

/-- A step of a pop in progress: it goes on, or it has a value, or the ring is empty. -/
inductive PopStep (r r' : SpscRing.State UInt64) : List (Event UInt64) → Prop where
  | goesOn {evs : List (Event UInt64)} : answer evs = none → SpscRing.results evs = [] →
      r'.consumer ≠ .idle → popSteps r'.consumer < popSteps r.consumer → PopStep r r' evs
  | popped (v : UInt64) : r'.consumer = .idle → PopStep r r' [.result (.popped v)]
  | empty {n : UInt64} : r.consumer = .loadWrite n → n = r.ring.write →
      r'.consumer = .idle → PopStep r r' [.result .empty]

section RingSteps

variable {r r' : SpscRing.State UInt64} {evs : List (Event UInt64)} {v : UInt64}

theorem push_start (h : SpscRing.step id r (.push v) = some (r', evs)) :
    evs = [] ∧ r'.consumer = r.consumer ∧ pushedValue r'.producer = some v ∧
      0 < pushSteps r'.producer := by
  simp only [SpscRing.step] at h
  split at h
  · split at h
    all_goals
      obtain ⟨rfl, rfl⟩ := Prod.mk.inj (Option.some.inj h)
      exact ⟨rfl, rfl, rfl, by simp [pushSteps]⟩
  · cases h

theorem push_step (h : SpscRing.step id r .producer = some (r', evs))
    (hv : pushedValue r.producer = some v) :
    r'.consumer = r.consumer ∧ PushStep r r' v evs := by
  simp only [SpscRing.step, SpscRing.stepProducer] at h
  split at h
  · cases h
  · rename_i u w hp
    obtain rfl : u = v := by simpa [pushedValue, hp] using hv
    split at h
    · rename_i hfull
      obtain ⟨rfl, rfl⟩ := Prod.mk.inj (Option.some.inj h)
      exact ⟨rfl, .full hp hfull rfl⟩
    · obtain ⟨rfl, rfl⟩ := Prod.mk.inj (Option.some.inj h)
      exact ⟨rfl, .goesOn rfl rfl rfl (by simp [pushSteps, hp])⟩
  · rename_i u w hp
    obtain rfl : u = v := by simpa [pushedValue, hp] using hv
    obtain ⟨rfl, rfl⟩ := Prod.mk.inj (Option.some.inj h)
    exact ⟨rfl, .goesOn rfl rfl rfl (by simp [pushSteps, hp])⟩
  · rename_i u w hp
    obtain rfl : u = v := by simpa [pushedValue, hp] using hv
    obtain ⟨rfl, rfl⟩ := Prod.mk.inj (Option.some.inj h)
    exact ⟨rfl, .pushed rfl⟩

theorem pop_start (h : SpscRing.step id r .pop = some (r', evs)) :
    evs = [] ∧ r'.producer = r.producer ∧ r'.consumer ≠ .idle ∧
      (popSteps r'.consumer = 2 ∨ popSteps r'.consumer = 3) := by
  simp only [SpscRing.step] at h
  split at h
  · split at h
    all_goals
      obtain ⟨rfl, rfl⟩ := Prod.mk.inj (Option.some.inj h)
      exact ⟨rfl, rfl, by simp, by simp [popSteps]⟩
  · cases h

theorem pop_step (h : SpscRing.step id r .consumer = some (r', evs)) :
    r'.producer = r.producer ∧ PopStep r r' evs := by
  simp only [SpscRing.step, SpscRing.stepConsumer] at h
  split at h
  · cases h
  · rename_i n hk
    split at h
    · rename_i hempty
      obtain ⟨rfl, rfl⟩ := Prod.mk.inj (Option.some.inj h)
      exact ⟨rfl, .empty hk hempty rfl⟩
    · obtain ⟨rfl, rfl⟩ := Prod.mk.inj (Option.some.inj h)
      exact ⟨rfl, .goesOn rfl rfl (by simp) (by simp [popSteps, hk])⟩
  · rename_i n hk
    obtain ⟨rfl, rfl⟩ := Prod.mk.inj (Option.some.inj h)
    exact ⟨rfl, .goesOn rfl rfl (by simp) (by simp [popSteps, hk])⟩
  · rename_i n out hk
    obtain ⟨rfl, rfl⟩ := Prod.mk.inj (Option.some.inj h)
    exact ⟨rfl, .popped out rfl⟩

end RingSteps

/-! ## The loops -/

theorem forLoop_eq {count : Int64} {n : Nat} (hn : n ≤ total count) :
    n < total count ∧ forLoop count (.ofNat n) = .push (.ofNat n) ∨
      n = total count ∧ forLoop count (.ofNat n) = .storeDone := by
  unfold forLoop
  split
  · rename_i hlt
    exact .inl ⟨(ofNat_lt_iff hn).mp hlt, rfl⟩
  · rename_i hge
    rw [ofNat_lt_iff hn] at hge
    exact .inr ⟨by omega, rfl⟩

/-- The consumer leaves its loop only when it has seen everything: a negative `count` is
    a bound it never reaches. -/
theorem whileLoop_eq {count : Int64} {seen : UInt64} (hn : seen.toNat ≤ total count) :
    whileLoop count seen = .pop seen ∨
      seen.toNat = total count ∧ whileLoop count seen = .store seen := by
  unfold whileLoop
  split
  · exact .inl rfl
  · rename_i hge
    refine .inr ⟨?_, rfl⟩
    rw [UInt64.lt_iff_toNat_lt] at hge
    rcases Int64.le_or_lt 0 count with hpos | hneg
    · rw [Int64.toNat_toUInt64_of_le hpos] at hge
      exact Nat.le_antisymm hn (Nat.le_of_not_lt hge)
    · have hzero : total count = 0 := Int64.toNatClampNeg_eq_zero_iff.mpr (Int64.le_of_lt hneg)
      omega

/-! ## The invariant -/

/-- How many values have been pushed. -/
def Writer.sent (count : Int64) : Writer → Nat
  | .push i | .pushing i                => i.toNatClampNeg
  | .storeDone | .join | .returned _ => total count

/-- How many values the consumer has counted. -/
def State.seen (s : State) : UInt64 :=
  match s.reader with
  | .pop seen | .popping seen | .loadDone seen | .popAgain seen | .poppingAgain seen
  | .store seen => seen
  | .exited => s.consumed

/-- What the main thread knows. -/
def Writer.Knows (count : Int64) (s : State) : Writer → Prop
  | .push i => s.done = false ∧ s.ring.producer = .idle ∧ ∃ n < total count, i = .ofNat n
  | .pushing i =>
    s.done = false ∧ pushedValue s.ring.producer = some i.toUInt64 ∧
      ∃ n < total count, i = .ofNat n
  | .storeDone => s.done = false ∧ s.ring.producer = .idle
  | .join => s.done = true ∧ s.ring.producer = .idle
  | .returned consumed =>
    s.done = true ∧ s.ring.producer = .idle ∧ s.reader = .exited ∧ consumed = s.consumed

/-- What the consumer knows. -/
def Reader.Knows (count : Int64) (s : State) : Reader → Prop
  | .pop _ | .loadDone _ => s.ring.consumer = .idle
  | .popping _ => s.ring.consumer ≠ .idle
  | .popAgain _ => s.ring.consumer = .idle ∧ s.done = true
  | .poppingAgain _ => s.ring.consumer ≠ .idle ∧ s.done = true
  | .store seen => s.ring.consumer = .idle ∧ seen.toNat = total count
  | .exited => s.ring.consumer = .idle ∧ s.consumed.toNat = total count

structure Inv (count capacity : Int64) (tr : List (Event UInt64)) (s : State) : Prop where
  ring : ∃ as, (SpscRing.machine id).Run (.init capacity.toUInt64) as tr s.ring
  pushed : pushedValues tr = sequence (s.writer.sent count)
  popped : (poppedValues tr).length = s.seen.toNat
  writer : s.writer.Knows count s
  reader : s.reader.Knows count s

section Steps

variable {count capacity : Int64} {tr evs : List (Event UInt64)} {s s' : State}

theorem Reader.Knows.congr {r : Reader} (h : r.Knows count s)
    (hring : s'.ring.consumer = s.ring.consumer) (hdone : s.done = true → s'.done = true)
    (hconsumed : s'.consumed = s.consumed) : r.Knows count s' := by
  cases r <;> simp only [Reader.Knows, hring, hconsumed] at h ⊢
  case popAgain | poppingAgain => exact ⟨h.1, hdone h.2⟩
  all_goals exact h

theorem Writer.Knows.congr {w : Writer} (h : w.Knows count s) (hreader : s.reader ≠ .exited)
    (hring : s'.ring.producer = s.ring.producer) (hdone : s'.done = s.done) :
    w.Knows count s' := by
  cases w <;> simp only [Writer.Knows, hring, hdone] at h ⊢
  case returned => exact absurd h.2.2.1 hreader
  all_goals exact h

theorem Inv.sent_le (h : Inv count capacity tr s) : s.writer.sent count ≤ total count := by
  have hw := h.writer
  cases hs : s.writer with
  | push i | pushing i =>
      rw [hs] at hw
      obtain ⟨-, -, n, hn, rfl⟩ := hw
      exact (toNatClampNeg_ofNat (Nat.le_of_lt hn)).trans_le (Nat.le_of_lt hn)
  | storeDone | join | returned => exact le_rfl

/-- The ring under the program keeps its own invariant. -/
theorem exists_ghost (hcap : 0 ≤ capacity) {ring : SpscRing.State UInt64}
    (hrun : ∃ as, (SpscRing.machine id).Run (.init capacity.toUInt64) as tr ring) :
    ∃ c g, 0 < c ∧ c < 2 ^ 64 ∧ SpscRing.Inv c tr ring g := by
  have hlt := capacity.toNatClampNeg_lt
  have hreq : capacity.toUInt64.toNat ≤ 2 ^ 63 := by
    rw [Int64.toNat_toUInt64_of_le hcap]
    exact Nat.le_of_lt hlt
  obtain ⟨k, -, hk, hc⟩ := SpscRing.roundUpPow2_eq hreq
  obtain ⟨as, hrun⟩ := hrun
  obtain ⟨g, hI⟩ := SpscRing.inv_of_run hk hc hrun
  exact ⟨2 ^ k, g, Nat.two_pow_pos k, Nat.pow_lt_pow_right (by omega) (by omega), hI⟩

theorem Inv.popped_prefix (h : Inv count capacity tr s) (hcap : 0 ≤ capacity) :
    poppedValues tr <+: pushedValues tr := by
  obtain ⟨c, g, -, -, hI⟩ := exists_ghost hcap h.ring
  obtain ⟨ops, hops⟩ := hI.fifo
  exact ⟨g.items, (Fifo.pushed_eq hops).1.symm⟩

theorem Inv.seen_le (h : Inv count capacity tr s) (hcap : 0 ≤ capacity) :
    s.seen.toNat ≤ s.writer.sent count := by
  have hle := (h.popped_prefix hcap).length_le
  rwa [h.popped, h.pushed, length_sequence] at hle

/-- A pop that looks at `write_` and finds nothing has seen all that was pushed. -/
theorem Inv.seen_of_empty (h : Inv count capacity tr s) (hcap : 0 ≤ capacity) {n : UInt64}
    (hk : s.ring.consumer = .loadWrite n) (hempty : n = s.ring.ring.write) :
    s.seen.toNat = s.writer.sent count := by
  obtain ⟨c, g, -, hc64, hI⟩ := exists_ghost hcap h.ring
  have hlen := hI.pushedValues_length
  rw [(hI.loadWrite_empty_iff hc64 hk).mp hempty, h.popped, h.pushed, length_sequence] at hlen
  exact hlen.symm

/-- A push that looks at `read_` and finds no room is behind an unseen value. -/
theorem Inv.seen_of_full (h : Inv count capacity tr s) (hcap : 0 ≤ capacity) {v w : UInt64}
    (hp : s.ring.producer = .loadRead v w)
    (hfull : w - s.ring.ring.read = s.ring.ring.capacity) :
    s.seen.toNat < s.writer.sent count := by
  obtain ⟨c, g, hpos, hc64, hI⟩ := exists_ghost hcap h.ring
  have hlen := hI.pushedValues_length
  have hitems := (hI.loadRead_full_iff hpos hc64 hp).mp hfull
  rw [h.popped, h.pushed, length_sequence] at hlen
  omega

theorem Inv.run_snoc (h : Inv count capacity tr s) {a : SpscRing.Action UInt64}
    {ring : SpscRing.State UInt64} (hstep : SpscRing.step id s.ring a = some (ring, evs)) :
    ∃ as, (SpscRing.machine id).Run (.init capacity.toUInt64) as (tr ++ evs) ring := by
  obtain ⟨as, hrun⟩ := h.ring
  exact ⟨_, hrun.snoc hstep⟩

/-- After a push of `n` the loop goes on with `n + 1`. -/
theorem writer_forLoop {n : Nat} (hn : n < total count) (hdone : s.done = false)
    (hring : s.ring.producer = .idle) :
    (forLoop count (.ofNat n + 1)).sent count = n + 1 ∧
      (forLoop count (.ofNat n + 1)).Knows count s := by
  have hnext : Int64.ofNat n + 1 = Int64.ofNat (n + 1) := (Int64.ofNat_add n 1).symm
  rw [hnext]
  rcases forLoop_eq (Nat.succ_le_of_lt hn) with ⟨hlt, heq⟩ | ⟨hlast, heq⟩
  · rw [heq]
    exact ⟨toNatClampNeg_ofNat hn, hdone, hring, n + 1, hlt, rfl⟩
  · rw [heq]
    exact ⟨hlast.symm, hdone, hring⟩

/-- The consumer's loop goes on with what it has seen. -/
theorem reader_whileLoop {seen : UInt64} (hn : seen.toNat ≤ total count)
    (hs : s.reader = whileLoop count seen) (hring : s.ring.consumer = .idle) :
    s.seen = seen ∧ s.reader.Knows count s := by
  rcases whileLoop_eq hn with heq | ⟨hlast, heq⟩
  · rw [heq] at hs
    simp [State.seen, hs, Reader.Knows, hring]
  · rw [heq] at hs
    simp [State.seen, hs, Reader.Knows, hring, hlast]

theorem Inv.stepMain (h : Inv count capacity tr s) (hstep : stepMain count s = some (s', evs)) :
    Inv count capacity (tr ++ evs) s' := by
  have hw := h.writer
  unfold RingTransfer.stepMain at hstep
  split at hstep
  · rename_i i hs
    rw [hs] at hw
    obtain ⟨⟨ring, evs'⟩, hring, heq⟩ := Option.map_eq_some_iff.mp hstep
    obtain ⟨rfl, rfl⟩ := Prod.mk.inj heq
    obtain ⟨rfl, hcons, hval, -⟩ := push_start hring
    exact {
      ring := h.run_snoc hring
      pushed := by simpa [hs, Writer.sent] using h.pushed
      popped := by simpa [State.seen] using h.popped
      writer := ⟨hw.1, hval, hw.2.2⟩
      reader := h.reader.congr hcons id rfl }
  · rename_i i hs
    rw [hs] at hw
    obtain ⟨hdone, hval, n, hn, rfl⟩ := hw
    obtain ⟨⟨ring, evs'⟩, hring, heq⟩ := Option.map_eq_some_iff.mp hstep
    obtain ⟨hcons, hkind⟩ := push_step hring hval
    have hsent : s.writer.sent count = n := by
      rw [hs]
      exact toNatClampNeg_ofNat (Nat.le_of_lt hn)
    have hpushed := h.pushed
    rw [hsent] at hpushed
    have hrun := h.run_snoc hring
    cases hkind with
    | goesOn hans hres hval' _ =>
        simp only [hans] at heq
        obtain ⟨rfl, rfl⟩ := Prod.mk.inj heq
        exact {
          ring := hrun
          pushed := by simpa [pushedValues, hres, hsent] using hpushed
          popped := by simpa [poppedValues, hres, State.seen] using h.popped
          writer := by
            rw [show ({ s with ring := ring } : State).writer = .pushing (.ofNat n) from hs]
            exact ⟨hdone, hval', n, hn, rfl⟩
          reader := h.reader.congr hcons id rfl }
    | pushed hidle =>
        simp only [answer] at heq
        obtain ⟨rfl, rfl⟩ := Prod.mk.inj heq
        obtain ⟨hsent', hknows⟩ := writer_forLoop (s := { s with
          ring := ring, writer := forLoop count (.ofNat n + 1) }) hn hdone hidle
        exact {
          ring := hrun
          pushed := by
            rw [hsent', sequence_succ]
            simpa [pushedValues] using hpushed
          popped := by simpa [poppedValues, State.seen] using h.popped
          writer := hknows
          reader := h.reader.congr hcons id rfl }
    | full _ _ hidle =>
        simp only [answer] at heq
        obtain ⟨rfl, rfl⟩ := Prod.mk.inj heq
        exact {
          ring := hrun
          pushed := by
            simpa [pushedValues, Writer.sent, toNatClampNeg_ofNat (Nat.le_of_lt hn)] using hpushed
          popped := by simpa [poppedValues, State.seen] using h.popped
          writer := ⟨hdone, hidle, n, hn, rfl⟩
          reader := h.reader.congr hcons id rfl }
  · rename_i hs
    rw [hs] at hw
    obtain ⟨rfl, rfl⟩ := Prod.mk.inj (Option.some.inj hstep)
    exact {
      ring := by simpa using h.ring
      pushed := by simpa [hs, Writer.sent] using h.pushed
      popped := by simpa [State.seen] using h.popped
      writer := ⟨rfl, hw.2⟩
      reader := h.reader.congr rfl (fun _ => rfl) rfl }
  · rename_i hs
    rw [hs] at hw
    split at hstep
    · rename_i hexit
      obtain ⟨rfl, rfl⟩ := Prod.mk.inj (Option.some.inj hstep)
      exact {
        ring := by simpa using h.ring
        pushed := by simpa [hs, Writer.sent] using h.pushed
        popped := by simpa [State.seen] using h.popped
        writer := ⟨hw.1, hw.2, hexit, rfl⟩
        reader := h.reader.congr rfl id rfl }
    · cases hstep
  · cases hstep

/-- What a step of the consumer has to show. -/
theorem Inv.moveReader (h : Inv count capacity tr s) (hreader : s.reader ≠ .exited)
    {ring : SpscRing.State UInt64} {reader : Reader}
    (hrun : ∃ as, (SpscRing.machine id).Run (.init capacity.toUInt64) as (tr ++ evs) ring)
    (hprod : ring.producer = s.ring.producer) (hpushed : pushedValues evs = [])
    (hseen : ({ s with ring, reader } : State).seen.toNat =
      s.seen.toNat + (poppedValues evs).length)
    (hknows : reader.Knows count { s with ring, reader }) :
    Inv count capacity (tr ++ evs) { s with ring, reader } where
  ring := hrun
  pushed := by
    have := h.pushed
    rw [pushedValues] at this hpushed
    simp [pushedValues, hpushed, this]
  popped := by
    have := h.popped
    rw [poppedValues] at this hseen
    simp [poppedValues, hseen, this]
  writer := h.writer.congr hreader hprod rfl
  reader := hknows

/-- The end of a pop that got a value: the consumer counts it and goes on. -/
theorem Inv.moveReader_popped (h : Inv count capacity tr s) (hcap : 0 ≤ capacity)
    (hreader : s.reader ≠ .exited) {ring : SpscRing.State UInt64} {v : UInt64}
    (hrun : ∃ as, (SpscRing.machine id).Run (.init capacity.toUInt64) as
      (tr ++ [.result (.popped v)]) ring)
    (hprod : ring.producer = s.ring.producer) (hidle : ring.consumer = .idle) :
    Inv count capacity (tr ++ [.result (.popped v)])
      { s with ring, reader := whileLoop count (s.seen + 1) } := by
  -- the value is one of those pushed, so there was one more to see
  have hle : s.seen.toNat + 1 ≤ total count := by
    obtain ⟨c, g, -, -, hI⟩ := exists_ghost hcap hrun
    have hlen := hI.pushedValues_length
    have hpopped := h.popped
    have hpushed := congrArg List.length h.pushed
    have hsent := h.sent_le
    simp only [pushedValues, poppedValues, SpscRing.results_append, SpscRing.results_result,
      Fifo.pushed_append, Fifo.popped_append, Fifo.pushed_popped, Fifo.popped_popped,
      List.append_nil, List.length_append, List.length_singleton, length_sequence] at *
    omega
  have hsucc : (s.seen + 1).toNat = s.seen.toNat + 1 := by
    have := total_lt count
    rw [UInt64.toNat_add, UInt64.toNat_one]
    exact Nat.mod_eq_of_lt (by omega)
  obtain ⟨hseen, hknows⟩ := reader_whileLoop (s := { s with
    ring := ring, reader := whileLoop count (s.seen + 1) }) (hsucc ▸ hle) rfl hidle
  refine h.moveReader hreader hrun hprod rfl ?_ hknows
  rw [hseen, hsucc]
  rfl

theorem Inv.stepConsumer (h : Inv count capacity tr s) (hcap : 0 ≤ capacity)
    (hstep : stepConsumer count s = some (s', evs)) : Inv count capacity (tr ++ evs) s' := by
  have hr := h.reader
  unfold RingTransfer.stepConsumer at hstep
  split at hstep
  · rename_i seen hs
    obtain ⟨⟨ring, evs'⟩, hring, heq⟩ := Option.map_eq_some_iff.mp hstep
    obtain ⟨rfl, rfl⟩ := Prod.mk.inj heq
    obtain ⟨rfl, hprod, hbusy, -⟩ := pop_start hring
    exact h.moveReader (by simp [hs]) (h.run_snoc hring) hprod rfl (by simp [State.seen, hs]; rfl)
      hbusy
  · rename_i seen hs
    obtain ⟨⟨ring, evs'⟩, hring, heq⟩ := Option.map_eq_some_iff.mp hstep
    obtain ⟨hprod, hkind⟩ := pop_step hring
    have hne : s.reader ≠ .exited := by simp [hs]
    cases hkind with
    | goesOn hans hres hbusy _ =>
        simp only [hans] at heq
        obtain ⟨rfl, rfl⟩ := Prod.mk.inj heq
        have hstay : Inv count capacity _ { s with ring := ring, reader := .popping seen } :=
          h.moveReader hne (h.run_snoc hring) hprod
            (by simp [pushedValues, hres]) (by simp [State.seen, hs, poppedValues, hres]) hbusy
        rwa [← hs] at hstay
    | popped v hidle =>
        simp only [answer] at heq
        obtain ⟨rfl, rfl⟩ := Prod.mk.inj heq
        have hmove := h.moveReader_popped hcap hne (h.run_snoc hring) hprod hidle
        simpa only [State.seen, hs] using hmove
    | empty _ _ hidle =>
        simp only [answer] at heq
        obtain ⟨rfl, rfl⟩ := Prod.mk.inj heq
        exact h.moveReader hne (h.run_snoc hring) hprod rfl (by simp [State.seen, hs]; rfl) hidle
  · rename_i seen hs
    obtain ⟨rfl, rfl⟩ := Prod.mk.inj (Option.some.inj hstep)
    rw [hs] at hr
    have hne : s.reader ≠ .exited := by simp [hs]
    have hseen : s.seen = seen := by simp [State.seen, hs]
    have hrun : ∃ as, (SpscRing.machine id).Run (.init capacity.toUInt64) as (tr ++ []) s.ring := by
      simpa using h.ring
    split
    · rename_i hdone
      exact h.moveReader hne hrun rfl rfl (by simp [State.seen, hs]; rfl) ⟨hr, hdone⟩
    · have hle : seen.toNat ≤ total count := hseen ▸ (h.seen_le hcap).trans h.sent_le
      obtain ⟨hseen', hknows⟩ := reader_whileLoop (s := { s with reader := whileLoop count seen })
        hle rfl hr
      refine h.moveReader hne hrun rfl rfl ?_ hknows
      rw [hseen', hseen]
      rfl
  · rename_i seen hs
    rw [hs] at hr
    obtain ⟨⟨ring, evs'⟩, hring, heq⟩ := Option.map_eq_some_iff.mp hstep
    obtain ⟨rfl, rfl⟩ := Prod.mk.inj heq
    obtain ⟨rfl, hprod, hbusy, -⟩ := pop_start hring
    exact h.moveReader (by simp [hs]) (h.run_snoc hring) hprod rfl (by simp [State.seen, hs]; rfl)
      ⟨hbusy, hr.2⟩
  · rename_i seen hs
    rw [hs] at hr
    obtain ⟨⟨ring, evs'⟩, hring, heq⟩ := Option.map_eq_some_iff.mp hstep
    obtain ⟨hprod, hkind⟩ := pop_step hring
    have hne : s.reader ≠ .exited := by simp [hs]
    cases hkind with
    | goesOn hans hres hbusy _ =>
        simp only [hans] at heq
        obtain ⟨rfl, rfl⟩ := Prod.mk.inj heq
        have hstay : Inv count capacity _ { s with ring := ring, reader := .poppingAgain seen } :=
          h.moveReader hne (h.run_snoc hring) hprod
            (by simp [pushedValues, hres]) (by simp [State.seen, hs, poppedValues, hres])
            ⟨hbusy, hr.2⟩
        rwa [← hs] at hstay
    | popped v hidle =>
        simp only [answer] at heq
        obtain ⟨rfl, rfl⟩ := Prod.mk.inj heq
        have hmove := h.moveReader_popped hcap hne (h.run_snoc hring) hprod hidle
        simpa only [State.seen, hs] using hmove
    | empty hk hempty hidle =>
        simp only [answer] at heq
        obtain ⟨rfl, rfl⟩ := Prod.mk.inj heq
        -- `done` was set before this pop looked: nothing more can come
        have hall := h.seen_of_empty hcap hk hempty
        have hsent : s.writer.sent count = total count := by
          have hw := h.writer
          cases hwr : s.writer with
          | push i | pushing i =>
              rw [hwr] at hw
              exact absurd hr.2 (by simp [hw.1])
          | storeDone | join | returned => rfl
        have hseen : s.seen = seen := by simp [State.seen, hs]
        exact h.moveReader hne (h.run_snoc hring) hprod rfl (by simp [State.seen, hs]; rfl)
          ⟨hidle, by rw [← hseen, hall, hsent]⟩
  · rename_i seen hs
    rw [hs] at hr
    obtain ⟨rfl, rfl⟩ := Prod.mk.inj (Option.some.inj hstep)
    exact {
      ring := by simpa using h.ring
      pushed := by simpa using h.pushed
      popped := by simpa [State.seen, hs] using h.popped
      writer := h.writer.congr (by simp [hs]) rfl rfl
      reader := hr }
  · cases hstep

theorem Inv.step (h : Inv count capacity tr s) (hcap : 0 ≤ capacity) {t : Thread}
    (hstep : (machine count).step s t = some (s', evs)) :
    Inv count capacity (tr ++ evs) s' := by
  cases t with
  | main => exact h.stepMain hstep
  | consumer => exact h.stepConsumer hcap hstep

theorem inv_init : Inv count capacity [] (.init count capacity) := by
  have hzero : (0 : Int64) = Int64.ofNat 0 := rfl
  have hring : (State.init count capacity).ring.consumer = .idle := rfl
  have hseen0 : (0 : UInt64).toNat ≤ total count := Nat.zero_le _
  obtain ⟨hseen, hreader⟩ :=
    reader_whileLoop (s := State.init count capacity) hseen0 rfl hring
  refine ⟨⟨[], .nil⟩, ?_, by rw [hseen]; rfl, ?_, hreader⟩
  all_goals
    rcases forLoop_eq (Nat.zero_le (total count)) with ⟨hlt, heq⟩ | ⟨hlast, heq⟩
    all_goals rw [← hzero] at heq
  · rw [show (State.init count capacity).writer = _ from heq]
    rfl
  · rw [show (State.init count capacity).writer = _ from heq, Writer.sent, ← hlast]
    rfl
  · rw [show (State.init count capacity).writer = _ from heq]
    exact ⟨rfl, rfl, 0, hlt, rfl⟩
  · rw [show (State.init count capacity).writer = _ from heq]
    exact ⟨rfl, rfl⟩

theorem inv_of_run (hcap : 0 ≤ capacity) {as : List Thread}
    (h : (machine count).Run (.init count capacity) as tr s) : Inv count capacity tr s :=
  Machine.Run.invariant h inv_init fun hI hstep => hI.step hcap hstep

/-- **Nothing is lost, repeated or reordered.** In every interleaving the consumer has
    popped an initial part of `0, 1, ..., count - 1` and counted exactly those; it leaves
    its loop only with all of them, and that is the number `run_spsc_ring` returns. In
    particular the pop after `done` never gives up too early. -/
theorem ring_consumes_all (hcap : 0 ≤ capacity) {as : List Thread}
    (h : (machine count).Run (.init count capacity) as tr s) :
    poppedValues tr <+: sequence (total count) ∧
    (poppedValues tr).length = s.seen.toNat ∧
    (s.reader = .exited →
      poppedValues tr = sequence (total count) ∧ s.consumed.toNat = total count) ∧
    ∀ consumed, s.writer = .returned consumed →
      poppedValues tr = sequence (total count) ∧ consumed.toNat = total count := by
  have hI := inv_of_run hcap h
  have hpre : poppedValues tr <+: sequence (total count) := by
    refine (hI.popped_prefix hcap).trans ?_
    rw [hI.pushed]
    exact sequence_prefix hI.sent_le
  have hall : s.reader = .exited →
      poppedValues tr = sequence (total count) ∧ s.consumed.toNat = total count := by
    intro hexit
    have hr := hI.reader
    have hpopped := hI.popped
    rw [hexit] at hr
    rw [State.seen, hexit] at hpopped
    exact ⟨hpre.eq_of_length (by rw [hpopped, length_sequence]; exact hr.2), hr.2⟩
  refine ⟨hpre, hI.popped, hall, ?_⟩
  intro consumed hret
  have hw := hI.writer
  rw [hret] at hw
  obtain ⟨-, -, hexit, rfl⟩ := hw
  exact hall hexit

/-- Two values through a ring of two. The consumer finds the ring empty, the main thread
    pushes both values and sets `done`, and the second pop gets the first of them. -/
theorem ring_consumes_all_two :
    ∃ tr s, (machine 2).Run (.init 2 1)
        ([.consumer, .consumer] ++ List.replicate 7 .main ++ List.replicate 9 .consumer ++ [.main])
        tr s ∧
      s.writer = .returned 2 ∧ poppedValues tr = [0, 1] := by
  refine ⟨_, _, .of_isSome _ _ _ (by decide), by decide, ?_⟩
  exact ((ring_consumes_all (by decide) (.of_isSome _ _ _ _)).2.2.2 2 (by decide)).1

end Steps

end RingTransfer

end Rdb
