-- SUMMARY: The lock-free ring refines a bounded FIFO in every interleaving of its producer and consumer.
import Rdb.Lib.Wrap
import Rdb.Concurrency.SpscRing

/-!
# The ring is a bounded FIFO

The invariant is in unbounded counters: the consumer has read `read` values, the
ring holds `items` after them, and each side's copy of the other's counter lags
behind it, `readCache ≤ read ≤ writeCache ≤ write ≤ readCache + capacity`. A push
takes effect when it stores `write_`, a pop when it stores `read_`, and a refusal
when it loads the other side's counter.
-/

namespace Rdb

namespace SpscRing

open Wrap (counter)
open PowTwo (slotsOf)

variable {α : Type*}

/-! ## The invariant -/

/-- The unbounded counters behind the wrapped ones, and the values in the ring. -/
structure Ghost (α : Type*) where
  items : List α
  read : Nat
  readCache : Nat
  writeCache : Nat

/-- The number of values pushed so far. -/
def Ghost.write (g : Ghost α) : Nat := g.read + g.items.length

/-- One when the producer has filled a slot it has not published yet. -/
def Producer.written : Producer α → Nat
  | .storeWrite _ _ => 1
  | _               => 0

/-- One when the consumer has emptied a slot it has not given back yet. -/
def Consumer.taken : Consumer α → Nat
  | .storeRead _ _ => 1
  | _              => 0

/-- What the producer knows in the middle of a push. -/
def Producer.Knows (c : Nat) (slots : List α) (g : Ghost α) : Producer α → Prop
  | .idle               => True
  | .loadRead _ write   => write = counter g.write
  | .storeSlot _ write  => write = counter g.write ∧ g.write < g.readCache + c
  | .storeWrite v write =>
    write = counter g.write ∧ g.write < g.readCache + c ∧ slots[g.write % c]? = some v

/-- What the consumer knows in the middle of a pop. -/
def Consumer.Knows (g : Ghost α) : Consumer α → Prop
  | .idle               => True
  | .loadWrite read     => read = counter g.read
  | .takeSlot read      => read = counter g.read ∧ g.read < g.writeCache
  | .storeRead read out =>
    read = counter g.read ∧ g.read < g.writeCache ∧ ∃ rest, g.items = out :: rest

/-- The invariant of a ring with `c` slots. -/
structure Inv (c : Nat) (tr : List (Event α)) (s : State α) (g : Ghost α) : Prop where
  fifo : ∃ ops, (Fifo.bounded α c).Run [] ops (results tr) g.items
  popped : (poppedValues tr).length = g.read
  mask : s.ring.mask = counter (c - 1)
  size : s.ring.slots.length = c
  write : s.ring.write = counter g.write
  read : s.ring.read = counter g.read
  readCache : s.ring.readCache = counter g.readCache
  writeCache : s.ring.writeCache = counter g.writeCache
  readCache_le : g.readCache ≤ g.read
  le_writeCache : g.read ≤ g.writeCache
  writeCache_le : g.writeCache ≤ g.write
  write_le : g.write ≤ g.readCache + c
  /-- a value that is in the ring and not taken yet is in its slot -/
  cells : ∀ i v, g.items[i]? = some v → s.consumer.taken ≤ i →
    s.ring.slots[(g.read + i) % c]? = some v
  producer : s.producer.Knows c s.ring.slots g
  consumer : s.consumer.Knows g
  wrote : wroteSlots tr = slotsOf c (g.write + s.producer.written)
  took : tookSlots tr = slotsOf c (g.read + s.consumer.taken)

/-! ## Observations of one step -/

@[simp] theorem results_append (tr tr' : List (Event α)) :
    results (tr ++ tr') = results tr ++ results tr' := by simp [results]

@[simp] theorem wroteSlots_append (tr tr' : List (Event α)) :
    wroteSlots (tr ++ tr') = wroteSlots tr ++ wroteSlots tr' := by simp [wroteSlots]

@[simp] theorem tookSlots_append (tr tr' : List (Event α)) :
    tookSlots (tr ++ tr') = tookSlots tr ++ tookSlots tr' := by simp [tookSlots]

@[simp] theorem results_result (r : Fifo.Result α) : results [.result r] = [r] := rfl
@[simp] theorem results_wrote (i : Nat) (v : α) : results [.wrote i v] = [] := rfl
@[simp] theorem results_took (i : Nat) (v : α) : results [.took i v] = [] := rfl
@[simp] theorem wroteSlots_result (r : Fifo.Result α) : wroteSlots [.result r] = [] := rfl
@[simp] theorem wroteSlots_wrote (i : Nat) (v : α) : wroteSlots [.wrote i v] = [i] := rfl
@[simp] theorem wroteSlots_took (i : Nat) (v : α) : wroteSlots [.took i v] = [] := rfl
@[simp] theorem tookSlots_result (r : Fifo.Result α) : tookSlots [.result r] = [] := rfl
@[simp] theorem tookSlots_wrote (i : Nat) (v : α) : tookSlots [.wrote i v] = [] := rfl
@[simp] theorem tookSlots_took (i : Nat) (v : α) : tookSlots [.took i v] = [i] := rfl

section Steps

variable {k c : Nat} {tr : List (Event α)} {s s' : State α} {g : Ghost α} {evs : List (Event α)}

theorem Inv.items_le (h : Inv c tr s g) : g.items.length ≤ c := by
  have := h.write_le
  have := h.readCache_le
  simp only [Ghost.write] at *
  omega

theorem Inv.capacity_eq (h : Inv c tr s g) (hc : 0 < c) : s.ring.capacity = counter c := by
  rw [capacity, h.mask, Wrap.counter_add_one, Nat.sub_add_cancel hc]

theorem Inv.index_counter (h : Inv c tr s g) (hk : k ≤ 63) (hc : c = 2 ^ k) (n : Nat) :
    s.ring.index (counter n) = n % c := by
  rw [index, h.mask, hc]
  exact Wrap.toNat_counter_and_mask hk n

/-- The test for a full ring against a copy `m` of the read counter is exact. -/
theorem Inv.full_iff (h : Inv c tr s g) (hc : 0 < c) (hc64 : c < 2 ^ 64) {m : Nat}
    (hm : m ≤ g.write) (hle : g.write ≤ m + c) :
    counter g.write - counter m = s.ring.capacity ↔ g.write = m + c := by
  rw [h.capacity_eq hc, Wrap.sub_eq_counter_iff hm (by omega) hc64]
  omega

/-! ## Producer steps -/

/-- `push` loads its own counter and compares it with the copy of the other. -/
theorem Inv.push (h : Inv c tr s g) (hc : 0 < c) (hc64 : c < 2 ^ 64) {v : α}
    {producer : Producer α} (hidle : s.producer = .idle)
    (hp : producer = .loadRead v s.ring.write ∨
      s.ring.write - s.ring.readCache ≠ s.ring.capacity ∧ producer = .storeSlot v s.ring.write) :
    Inv c tr { s with producer } g := by
  have hrc : g.readCache ≤ g.write := Nat.le_trans h.readCache_le (Nat.le_add_right _ _)
  rcases hp with rfl | ⟨hroom, rfl⟩
  · exact { h with producer := h.write, wrote := by simpa [hidle, Producer.written] using h.wrote }
  · rw [h.write, h.readCache, Ne, h.full_iff hc hc64 hrc h.write_le] at hroom
    have := h.write_le
    exact { h with
      producer := ⟨h.write, by omega⟩
      wrote := by simpa [hidle, Producer.written] using h.wrote }

/-- Loading `read_` brings the copy up to date. -/
theorem Inv.loadRead (h : Inv c tr s g) {v : α} {w : UInt64}
    (hp : s.producer = .loadRead v w) :
    Inv c tr { s with ring := { s.ring with readCache := s.ring.read } }
      { g with readCache := g.read } :=
  { h with
    readCache := h.read
    readCache_le := le_rfl
    write_le := Nat.le_trans h.write_le (Nat.add_le_add_right h.readCache_le c)
    producer := by have := h.producer; rw [hp] at this ⊢; exact this }

/-- A push that finds the ring full at its load of `read_` is refused. -/
theorem Inv.pushFull (h : Inv c tr s g) {v : α} {w : UInt64} (hp : s.producer = .loadRead v w)
    (hfull : g.items.length = c) :
    Inv c (tr ++ [.result (.full v)]) { s with producer := .idle } g := by
  obtain ⟨ops, hops⟩ := h.fifo
  have hstep : (Fifo.bounded α c).step g.items (.push v) = some (g.items, [.full v]) := by
    simp [Fifo.bounded, hfull]
  exact { h with
    fifo := ⟨ops ++ [.push v], by simpa using hops.snoc hstep⟩
    popped := by simpa [poppedValues] using h.popped
    producer := trivial
    wrote := by simpa [hp, Producer.written] using h.wrote
    took := by simpa using h.took }

theorem Inv.pushRoom (h : Inv c tr s g) {v : α} {w : UInt64} (hp : s.producer = .loadRead v w)
    (hroom : g.write < g.readCache + c) :
    Inv c tr { s with producer := .storeSlot v w } g := by
  have hw := h.producer
  rw [hp] at hw
  exact { h with
    producer := ⟨hw, hroom⟩
    wrote := by simpa [hp, Producer.written] using h.wrote }

/-- The slot the producer fills holds no value that is still to be taken. -/
theorem Inv.storeSlot (h : Inv c tr s g) (hc : 0 < c) {v : α} {w : UInt64}
    (hp : s.producer = .storeSlot v w) :
    Inv c (tr ++ [.wrote (g.write % c) v])
      { s with
        ring := { s.ring with slots := s.ring.slots.set (g.write % c) v }
        producer := .storeWrite v w } g := by
  have hw := h.producer
  rw [hp] at hw
  have hrc := h.readCache_le
  have hroom := hw.2
  exact { h with
    fifo := by simpa using h.fifo
    popped := by simpa [poppedValues] using h.popped
    size := by simpa using h.size
    cells := by
      intro i u hi htaken
      -- counters less than `c` apart have different slots
      have hlt : i < g.items.length := (List.getElem?_eq_some_iff.mp hi).1
      have hne : (g.read + i) % c ≠ g.write % c :=
        PowTwo.mod_ne_of_lt_of_lt_add (by simp only [Ghost.write]; omega) (by omega)
      rw [List.getElem?_set_ne hne.symm]
      exact h.cells i u hi htaken
    producer := by
      refine ⟨hw.1, hw.2, ?_⟩
      rw [List.getElem?_set_self]
      rw [h.size]
      exact Nat.mod_lt _ hc
    wrote := by
      have := h.wrote
      rw [hp] at this
      simpa [Producer.written, PowTwo.slotsOf_succ] using this
    took := by simpa using h.took }

/-- Storing `write_` publishes the value. -/
theorem Inv.storeWrite (h : Inv c tr s g) {v : α} {w : UInt64}
    (hp : s.producer = .storeWrite v w) :
    Inv c (tr ++ [.result (.pushed v)])
      { s with ring := { s.ring with write := w + 1 }, producer := .idle }
      { g with items := g.items ++ [v] } := by
  have hw := h.producer
  rw [hp] at hw
  obtain ⟨rfl, hroom, hslot⟩ := hw
  have hrc := h.readCache_le
  have hlen : g.items.length < c := by simp only [Ghost.write] at hroom; omega
  have hwrite : ({ g with items := g.items ++ [v] } : Ghost α).write = g.write + 1 := by
    simp [Ghost.write, Nat.add_assoc]
  obtain ⟨ops, hops⟩ := h.fifo
  have hstep : (Fifo.bounded α c).step g.items (.push v) =
      some (g.items ++ [v], [.pushed v]) := by
    simp [Fifo.bounded, hlen]
  exact { h with
    fifo := ⟨ops ++ [.push v], by simpa using hops.snoc hstep⟩
    popped := by simpa [poppedValues] using h.popped
    write := by rw [hwrite]; exact Wrap.counter_add_one _
    writeCache_le := by rw [hwrite]; exact Nat.le_succ_of_le h.writeCache_le
    write_le := by rw [hwrite]; exact hroom
    cells := by
      intro i u hi htaken
      rcases Nat.lt_or_ge i g.items.length with hlt | hge
      · rw [List.getElem?_append_left hlt] at hi
        exact h.cells i u hi htaken
      · rw [List.getElem?_append_right hge, List.getElem?_singleton] at hi
        split at hi
        · obtain rfl : i = g.items.length := by omega
          obtain rfl := Option.some.inj hi
          exact hslot
        · cases hi
    producer := trivial
    consumer := by
      have hk := h.consumer
      cases hcons : s.consumer with
      | idle => trivial
      | loadWrite r => rw [hcons] at hk; exact hk
      | takeSlot r => rw [hcons] at hk; exact hk
      | storeRead r out =>
          -- the front value is already taken, the new one goes behind it
          rw [hcons] at hk
          obtain ⟨hr, hlt, rest, hitems⟩ := hk
          exact ⟨hr, hlt, rest ++ [v], by simp [hitems]⟩
    wrote := by
      have := h.wrote
      rw [hp] at this
      rw [hwrite]
      simpa [Producer.written] using this
    took := by simpa using h.took }

/-! ## Consumer steps -/

/-- `pop` loads its own counter and compares it with the copy of the other. -/
theorem Inv.pop (h : Inv c tr s g) (hc64 : c < 2 ^ 64) {consumer : Consumer α}
    (hidle : s.consumer = .idle)
    (hk : consumer = .loadWrite s.ring.read ∨
      s.ring.read ≠ s.ring.writeCache ∧ consumer = .takeSlot s.ring.read) :
    Inv c tr { s with consumer } g := by
  have hcells := h.cells
  rw [hidle] at hcells
  have htook := h.took
  rw [hidle] at htook
  rcases hk with rfl | ⟨hne, rfl⟩
  · exact { h with cells := hcells, consumer := h.read, took := htook }
  · have hle := h.le_writeCache
    have hwc := h.writeCache_le
    have hitems := h.items_le
    rw [h.read, h.writeCache, Ne, Wrap.counter_eq_counter_iff hle
      (by simp only [Ghost.write] at hwc; omega)] at hne
    exact { h with cells := hcells, consumer := ⟨h.read, by omega⟩, took := htook }

/-- Loading `write_` brings the copy up to date. -/
theorem Inv.loadWrite (h : Inv c tr s g) {r : UInt64} (hk : s.consumer = .loadWrite r) :
    Inv c tr { s with ring := { s.ring with writeCache := s.ring.write } }
      { g with writeCache := g.write } :=
  { h with
    writeCache := h.write
    le_writeCache := Nat.le_add_right _ _
    writeCache_le := le_rfl
    producer := by
      have hp := h.producer
      cases hprod : s.producer <;> rw [hprod] at hp <;> exact hp
    consumer := by have := h.consumer; rw [hk] at this ⊢; exact this }

/-- A pop that finds the ring empty at its load of `write_` is refused. -/
theorem Inv.popEmpty (h : Inv c tr s g) {r : UInt64} (hk : s.consumer = .loadWrite r)
    (hempty : g.items = []) :
    Inv c (tr ++ [.result .empty]) { s with consumer := .idle } g := by
  obtain ⟨ops, hops⟩ := h.fifo
  have hstep : (Fifo.bounded α c).step g.items .pop = some (g.items, [.empty]) := by
    simp [Fifo.bounded, hempty]
  exact { h with
    fifo := ⟨ops ++ [.pop], by simpa using hops.snoc hstep⟩
    popped := by simpa [poppedValues] using h.popped
    cells := by simp [hempty]
    consumer := trivial
    wrote := by simpa using h.wrote
    took := by simpa [hk, Consumer.taken] using h.took }

theorem Inv.popItem (h : Inv c tr s g) {r : UInt64} (hk : s.consumer = .loadWrite r)
    (hitem : g.read < g.writeCache) : Inv c tr { s with consumer := .takeSlot r } g := by
  have hcells := h.cells
  have hr := h.consumer
  have htook := h.took
  rw [hk] at hcells hr htook
  exact { h with cells := hcells, consumer := ⟨hr, hitem⟩, took := htook }

/-- The slot the consumer empties holds the front value. -/
theorem Inv.takeSlot [Inhabited α] (h : Inv c tr s g) {r : UInt64} (x : α)
    (hk : s.consumer = .takeSlot r) :
    Inv c (tr ++ [.took (g.read % c) (s.ring.slots.getD (g.read % c) default)])
      { s with
        ring := { s.ring with slots := s.ring.slots.set (g.read % c) x }
        consumer := .storeRead r (s.ring.slots.getD (g.read % c) default) } g := by
  have hr := h.consumer
  have hcells := h.cells
  have htook := h.took
  rw [hk] at hr hcells htook
  have hwc := h.writeCache_le
  have hle := h.items_le
  have hlen : 0 < g.items.length := by have := hr.2; simp only [Ghost.write] at hwc; omega
  obtain ⟨front, rest, hitems⟩ := List.exists_cons_of_length_pos hlen
  have hslot : s.ring.slots[g.read % c]? = some front := hcells 0 front (by simp [hitems]) (by
    simp [Consumer.taken])
  have hout : s.ring.slots.getD (g.read % c) default = front := by simp [List.getD, hslot]
  rw [hout]
  exact { h with
    fifo := by simpa using h.fifo
    popped := by simpa [poppedValues] using h.popped
    size := by simpa using h.size
    cells := by
      intro i u hi htaken
      have hlt : i < g.items.length := (List.getElem?_eq_some_iff.mp hi).1
      have hpos : 0 < i := htaken
      have hne : g.read % c ≠ (g.read + i) % c :=
        PowTwo.mod_ne_of_lt_of_lt_add (by omega) (by omega)
      rw [List.getElem?_set_ne hne]
      exact hcells i u hi (Nat.zero_le _)
    producer := by
      have hp := h.producer
      have hrc := h.readCache_le
      cases hprod : s.producer with
      | idle => trivial
      | loadRead v w => rw [hprod] at hp; exact hp
      | storeSlot v w => rw [hprod] at hp; exact hp
      | storeWrite v w =>
          -- the producer's unpublished value lies in another slot
          rw [hprod] at hp
          obtain ⟨hw, hroom, hval⟩ := hp
          have hne : g.read % c ≠ g.write % c :=
            PowTwo.mod_ne_of_lt_of_lt_add (by simp only [Ghost.write]; omega) (by omega)
          exact ⟨hw, hroom, by rw [List.getElem?_set_ne hne]; exact hval⟩
    consumer := ⟨hr.1, hr.2, rest, hitems⟩
    wrote := by simpa using h.wrote
    took := by simpa [Consumer.taken, PowTwo.slotsOf_succ] using htook }

/-- Storing `read_` gives the slot back. -/
theorem Inv.storeRead (h : Inv c tr s g) {r : UInt64} {out : α} {rest : List α}
    (hk : s.consumer = .storeRead r out) (hitems : g.items = out :: rest) :
    Inv c (tr ++ [.result (.popped out)])
      { s with ring := { s.ring with read := r + 1 }, consumer := .idle }
      { g with items := rest, read := g.read + 1 } := by
  have hr := h.consumer
  have hcells := h.cells
  have htook := h.took
  rw [hk] at hr hcells htook
  have hwrite : ({ g with items := rest, read := g.read + 1 } : Ghost α).write = g.write := by
    simp only [Ghost.write, hitems, List.length_cons]
    omega
  obtain ⟨ops, hops⟩ := h.fifo
  have hstep : (Fifo.bounded α c).step g.items .pop = some (rest, [.popped out]) := by
    simp [Fifo.bounded, hitems]
  exact { h with
    fifo := ⟨ops ++ [.pop], by simpa using hops.snoc hstep⟩
    popped := by simpa [poppedValues] using h.popped
    write := by rw [hwrite]; exact h.write
    read := by rw [hr.1]; exact Wrap.counter_add_one _
    readCache_le := Nat.le_succ_of_le h.readCache_le
    le_writeCache := hr.2.1
    writeCache_le := by rw [hwrite]; exact h.writeCache_le
    write_le := by rw [hwrite]; exact h.write_le
    cells := by
      intro i u hi _
      rw [show g.read + 1 + i = g.read + (i + 1) by omega]
      exact hcells (i + 1) u (by simpa [hitems] using hi) (Nat.le_add_left _ _)
    producer := by
      have hp := h.producer
      cases hprod : s.producer with
      | idle => trivial
      | loadRead v w => rw [hprod] at hp; simpa only [Producer.Knows, hwrite] using hp
      | storeSlot v w => rw [hprod] at hp; simpa only [Producer.Knows, hwrite] using hp
      | storeWrite v w => rw [hprod] at hp; simpa only [Producer.Knows, hwrite] using hp
    consumer := trivial
    wrote := by rw [hwrite]; simpa using h.wrote
    took := by simpa [Consumer.taken] using htook }

/-! ## Whole runs -/

/-- The test at the load of `read_` says whether the ring is full. -/
theorem Inv.loadRead_full_iff (h : Inv c tr s g) (hc : 0 < c) (hc64 : c < 2 ^ 64) {v : α}
    {w : UInt64} (hp : s.producer = .loadRead v w) :
    w - s.ring.read = s.ring.capacity ↔ g.items.length = c := by
  have hw : w = counter g.write := by have := h.producer; rwa [hp] at this
  have hle := h.items_le
  rw [hw, h.read, h.full_iff hc hc64 (Nat.le_add_right _ _) (by simp only [Ghost.write]; omega)]
  simp only [Ghost.write]
  omega

/-- The test at the load of `write_` says whether the ring is empty. -/
theorem Inv.loadWrite_empty_iff (h : Inv c tr s g) (hc64 : c < 2 ^ 64) {r : UInt64}
    (hk : s.consumer = .loadWrite r) : r = s.ring.write ↔ g.items = [] := by
  have hr : r = counter g.read := by have := h.consumer; rwa [hk] at this
  have hle := h.items_le
  rw [hr, h.write, ← List.length_eq_zero_iff]
  simp only [Ghost.write]
  rw [Wrap.counter_eq_counter_iff (Nat.le_add_right _ _) (by omega)]
  omega

theorem Inv.step [Inhabited α] {moved : α → α} (h : Inv c tr s g) (hk : k ≤ 63) (hc : c = 2 ^ k)
    (hstep : Transition moved s s' evs) : ∃ g', Inv c (tr ++ evs) s' g' := by
  have hpos : 0 < c := hc ▸ Nat.two_pow_pos k
  have hc64 : c < 2 ^ 64 := hc ▸ Nat.pow_lt_pow_right (by omega) (by omega)
  cases hstep with
  | pushSeemsFull hidle _ =>
      rw [List.append_nil]
      exact ⟨g, h.push hpos hc64 hidle (.inl rfl)⟩
  | pushHasRoom hidle hroom =>
      rw [List.append_nil]
      exact ⟨g, h.push hpos hc64 hidle (.inr ⟨hroom, rfl⟩)⟩
  | loadReadFull hp hfull =>
      rw [h.loadRead_full_iff hpos hc64 hp] at hfull
      exact ⟨_, (h.loadRead hp).pushFull hp hfull⟩
  | loadReadRoom hp hroom =>
      rw [Ne, h.loadRead_full_iff hpos hc64 hp] at hroom
      have hle := h.items_le
      rw [List.append_nil]
      exact ⟨_, (h.loadRead hp).pushRoom hp (by simp only [Ghost.write]; omega)⟩
  | storeSlot hp =>
      -- the slot is chosen by the wrapped counter, which is exact since `c` divides `2^64`
      have hw := h.producer
      rw [hp] at hw
      rw [hw.1, h.index_counter hk hc, ← hw.1]
      exact ⟨_, h.storeSlot hpos hp⟩
  | storeWrite hp => exact ⟨_, h.storeWrite hp⟩
  | popSeemsEmpty hidle _ =>
      rw [List.append_nil]
      exact ⟨g, h.pop hc64 hidle (.inl rfl)⟩
  | popHasItem hidle hitem =>
      rw [List.append_nil]
      exact ⟨g, h.pop hc64 hidle (.inr ⟨hitem, rfl⟩)⟩
  | loadWriteEmpty hcons hempty =>
      rw [h.loadWrite_empty_iff hc64 hcons] at hempty
      exact ⟨_, (h.loadWrite hcons).popEmpty hcons hempty⟩
  | loadWriteItem hcons hitem =>
      rw [Ne, h.loadWrite_empty_iff hc64 hcons, ← List.length_eq_zero_iff] at hitem
      rw [List.append_nil]
      exact ⟨_, (h.loadWrite hcons).popItem hcons (by simp only [Ghost.write]; omega)⟩
  | takeSlot hcons =>
      have hr := h.consumer
      rw [hcons] at hr
      rw [hr.1, h.index_counter hk hc, ← hr.1]
      exact ⟨_, h.takeSlot _ hcons⟩
  | storeRead hcons =>
      have hr := h.consumer
      rw [hcons] at hr
      obtain ⟨-, -, rest, hitems⟩ := hr
      exact ⟨_, h.storeRead hcons hitems⟩

/-- The ring has as many slots as its capacity says. -/
theorem new_capacity [Inhabited α] (request : UInt64) :
    (new request : SpscRing α).capacity = roundUpPow2 request := by
  simp [capacity, new]

theorem inv_init [Inhabited α] {request : UInt64} (hk : k ≤ 63)
    (hc : (roundUpPow2 request).toNat = 2 ^ k) :
    Inv (2 ^ k) [] (.init request : State α) ⟨[], 0, 0, 0⟩ where
  fifo := ⟨[], .nil⟩
  popped := rfl
  mask := by
    have hone : (1 : UInt64).toNat ≤ (roundUpPow2 request).toNat := by
      rw [hc]; exact Nat.one_le_two_pow
    have hpow : 2 ^ k ≤ 2 ^ 63 := Nat.pow_le_pow_right (by omega) hk
    apply UInt64.toNat.inj
    rw [State.init, new, UInt64.toNat_sub_of_le _ _ (UInt64.le_iff_toNat_le.mpr hone), hc,
      UInt64.toNat_ofNat']
    exact (Nat.mod_eq_of_lt (by omega)).symm
  size := by simp [State.init, new, hc]
  write := rfl
  read := rfl
  readCache := rfl
  writeCache := rfl
  readCache_le := le_rfl
  le_writeCache := le_rfl
  writeCache_le := le_rfl
  write_le := Nat.zero_le _
  cells := by simp
  producer := trivial
  consumer := trivial
  wrote := rfl
  took := rfl

theorem inv_of_run [Inhabited α] {moved : α → α} {request : UInt64} {as : List (Action α)}
    (hk : k ≤ 63) (hc : (roundUpPow2 request).toNat = 2 ^ k)
    (h : (machine moved).Run (.init request) as tr s) : ∃ g, Inv (2 ^ k) tr s g :=
  Machine.Run.invariant (I := fun tr s => ∃ g, Inv (2 ^ k) tr s g) h ⟨_, inv_init hk hc⟩
    fun ⟨_, hI⟩ hstep => hI.step hk rfl (step_transition hstep)

/-! ## Refinement -/

theorem Inv.pushedValues_length (h : Inv c tr s g) :
    (pushedValues tr).length = (poppedValues tr).length + g.items.length := by
  obtain ⟨ops, hops⟩ := h.fifo
  rw [pushedValues, (Fifo.pushed_eq hops).1, List.length_append]
  rfl

/-- When the producer fills a slot, every value written there before has been
    taken. -/
theorem Inv.count_slot (h : Inv c tr s g) {v : α} {w : UInt64} (hp : s.producer = .storeSlot v w) :
    (wroteSlots tr).count (g.write % c) = (tookSlots tr).count (g.write % c) := by
  have hw := h.producer
  have hwrote := h.wrote
  rw [hp] at hw hwrote
  have hroom := hw.2
  have hrc := h.readCache_le
  have htaken : s.consumer.taken ≤ g.items.length := by
    have hk := h.consumer
    cases hcons : s.consumer with
    | storeRead r out =>
        rw [hcons] at hk
        obtain ⟨-, -, rest, hitems⟩ := hk
        simp [hitems, Consumer.taken]
    | idle | loadWrite | takeSlot => exact Nat.zero_le _
  rw [hwrote, h.took]
  exact PowTwo.count_slotsOf (by simp only [Ghost.write]; omega) (by omega)

/-- **The ring refines a bounded FIFO.** For every capacity request up to `2^63`
    and every interleaving, the calls return what a FIFO of `capacity()` values
    returns when each takes effect at one of its own steps; so the values popped
    are a prefix of the values pushed and at most `capacity()` values are in the
    ring. A slot is written only when all values it held have been taken; `push`
    returns false only at a load of `read_` that finds `capacity()` values in the
    ring, and `pop` only at a load of `write_` that finds none. -/
theorem refines_bounded_fifo [Inhabited α] {moved : α → α} {request : UInt64}
    {as : List (Action α)} (hreq : request.toNat ≤ 2 ^ 63)
    (h : (machine moved).Run (.init request) as tr s) :
    (∃ ops items, (Fifo.bounded α (new request : SpscRing α).capacity.toNat).Run [] ops
      (results tr) items) ∧
    poppedValues tr <+: pushedValues tr ∧
    (pushedValues tr).length ≤
      (poppedValues tr).length + (new request : SpscRing α).capacity.toNat ∧
    ∀ a s' evs, (machine moved).step s a = some (s', evs) →
      (∀ slot v, .wrote slot v ∈ evs → slot < s.ring.slots.length ∧
        (wroteSlots tr).count slot = (tookSlots tr).count slot) ∧
      (∀ slot v, .took slot v ∈ evs → slot < s.ring.slots.length) ∧
      (∀ v, .result (.full v) ∈ evs → (∃ w, s.producer = .loadRead v w) ∧
        (pushedValues tr).length =
          (poppedValues tr).length + (new request : SpscRing α).capacity.toNat) ∧
      (.result .empty ∈ evs → (∃ r, s.consumer = .loadWrite r) ∧
        (pushedValues tr).length = (poppedValues tr).length) := by
  obtain ⟨k, -, hk, hc⟩ := roundUpPow2_eq hreq
  obtain ⟨g, hI⟩ := inv_of_run hk hc h
  have hpos : 0 < 2 ^ k := Nat.two_pow_pos k
  have hc64 : 2 ^ k < 2 ^ 64 := Nat.pow_lt_pow_right (by omega) (by omega)
  have hlen := hI.pushedValues_length
  rw [new_capacity, hc]
  obtain ⟨ops, hops⟩ := hI.fifo
  refine ⟨⟨ops, g.items, hops⟩, ⟨g.items, (Fifo.pushed_eq hops).1.symm⟩, ?_, ?_⟩
  · have := hI.items_le
    omega
  intro a s' evs hstep
  have htrans := step_transition hstep
  refine ⟨?_, ?_, ?_, ?_⟩
  · intro slot v hmem
    cases htrans with
    | storeSlot hp =>
        have hw := hI.producer
        rw [hp] at hw
        simp only [List.mem_singleton, Event.wrote.injEq] at hmem
        rw [hmem.1, hw.1, hI.index_counter hk rfl, hI.size]
        exact ⟨Nat.mod_lt _ hpos, hI.count_slot hp⟩
    | _ => simp at hmem
  · intro slot v hmem
    cases htrans with
    | takeSlot hcons =>
        have hr := hI.consumer
        rw [hcons] at hr
        simp only [List.mem_singleton, Event.took.injEq] at hmem
        rw [hmem.1, hr.1, hI.index_counter hk rfl, hI.size]
        exact Nat.mod_lt _ hpos
    | _ => simp at hmem
  · intro v hmem
    cases htrans with
    | @loadReadFull u w hp hfull =>
        simp only [List.mem_singleton, Event.result.injEq, Fifo.Result.full.injEq] at hmem
        rw [hI.loadRead_full_iff hpos hc64 hp] at hfull
        exact ⟨⟨w, by rw [hp, hmem]⟩, by omega⟩
    | _ => simp at hmem
  · intro hmem
    cases htrans with
    | @loadWriteEmpty r hcons hempty =>
        rw [hI.loadWrite_empty_iff hc64 hcons] at hempty
        exact ⟨⟨r, hcons⟩, by simpa [hempty] using hlen⟩
    | _ => simp at hmem

/-- A ring of two: the third push is refused at its load of `read_`, and the
    consumer takes the values in order. -/
theorem refines_bounded_fifo_two :
    ∃ tr s, (machine (id : Nat → Nat)).Run (.init 1)
        [.push 5, .producer, .producer, .push 6, .pop, .producer, .consumer, .producer, .push 7,
          .producer, .consumer, .consumer] tr s ∧
      results tr = [.pushed 5, .pushed 6, .full 7, .popped 5] ∧
      poppedValues tr <+: pushedValues tr := by
  refine ⟨_, _, .of_isSome _ _ _ (by decide), by decide, ?_⟩
  exact (refines_bounded_fifo (by decide) (.of_isSome _ _ _ _)).2.1

end Steps

end SpscRing

end Rdb
