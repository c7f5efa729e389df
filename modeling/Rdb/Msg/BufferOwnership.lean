-- SUMMARY: Every buffer of a pool is in one place at any time, and is handed out, recycled and destroyed accordingly.
import Rdb.Msg.BufferPool

/-!
# Who owns a buffer

A buffer is on the free list, in an `acquire`, in a group of handles, in the
deleter of a group, or destroyed. Each step moves at most one buffer from one of
these places to another. The use count of the pool counts its owners and the
deleters that have locked it, so the pool does not expire while a deleter is
putting a buffer back.
-/

namespace Rdb

namespace BufferPool

variable {ι : Type*} {n : Nat}

/-- Handles of the group refer to `b`. -/
def Group.liveOn (b : Fin n) : Group n → Bool
  | .live b' _ => b' == b
  | .dropped _ | .releasing _ | .unpinning | .doomed _ | .gone => false

/-- The deleter of the group has `b`. -/
def Group.deletingOn (b : Fin n) : Group n → Bool
  | .dropped b' | .releasing b' | .doomed b' => b' == b
  | .live _ _ | .unpinning | .gone => false

/-- The deleter of the group owns the pool. -/
def Group.pinning : Group n → Bool
  | .releasing _ | .unpinning => true
  | .live _ _ | .dropped _ | .doomed _ | .gone => false

/-- How many `acquire` calls have taken `b` and not wrapped it yet. -/
def acquiring [Fintype ι] (b : Fin n) (calls : ι → Option (Fin n)) : Nat :=
  ThreadSum.count (· == some b) calls

/-- How often `b` is in one of the places a buffer can be in. -/
def State.places [Fintype ι] (s : State ι n) (b : Fin n) : Nat :=
  s.free.count b + acquiring b s.calls + s.groups.countP (Group.liveOn b) +
    s.groups.countP (Group.deletingOn b) + s.destroyed b

/-! ## Moving a buffer -/

/-- The group has `b`: in its handles, or in its deleter. -/
def Group.holds (b : Fin n) (x : Group n) : Nat := (x.liveOn b).toNat + (x.deletingOn b).toNat

@[simp] theorem Group.holds_live {b b' : Fin n} {others : Nat} :
    (Group.live b' others).holds b = (b' == b).toNat := rfl

@[simp] theorem Group.holds_dropped {b b' : Fin n} :
    (Group.dropped b').holds b = (b' == b).toNat := Nat.zero_add _

@[simp] theorem Group.holds_releasing {b b' : Fin n} :
    (Group.releasing b').holds b = (b' == b).toNat := Nat.zero_add _

@[simp] theorem Group.holds_doomed {b b' : Fin n} :
    (Group.doomed b').holds b = (b' == b).toNat := Nat.zero_add _

@[simp] theorem Group.holds_unpinning {b : Fin n} : (Group.unpinning : Group n).holds b = 0 := rfl

@[simp] theorem Group.holds_gone {b : Fin n} : (Group.gone : Group n).holds b = 0 := rfl

theorem Regroup.holds_eq {x y : Group n} (h : Regroup x y) (b : Fin n) :
    x.holds b = y.holds b := by
  cases h <;> simp

theorem Regroup.pinning_eq {x y : Group n} (h : Regroup x y) : x.pinning = y.pinning := by
  cases h <;> rfl

/-- A group that changes trades the buffer it had for the one it has. -/
theorem holds_set {groups : List (Group n)} {g : Nat} {x : Group n} (hg : groups[g]? = some x)
    (y : Group n) (b : Fin n) :
    (groups.set g y).countP (Group.liveOn b) + (groups.set g y).countP (Group.deletingOn b) +
        x.holds b =
      groups.countP (Group.liveOn b) + groups.countP (Group.deletingOn b) + y.holds b := by
  have hlive := ThreadSum.countP_set hg y (Group.liveOn b)
  have hdeleting := ThreadSum.countP_set hg y (Group.deletingOn b)
  unfold Group.holds
  omega

theorem count_cons (b b' : Fin n) (l : List (Fin n)) :
    (b' :: l).count b = l.count b + (b' == b).toNat := by
  rw [List.count_cons]
  cases b' == b <;> rfl

theorem count_concat (b b' : Fin n) (l : List (Fin n)) :
    (l ++ [b']).count b = l.count b + (b' == b).toNat :=
  ThreadSum.countP_concat (· == b) l b'

theorem destroyed_update (destroyed : Fin n → Nat) (b b' : Fin n) :
    Function.update destroyed b' (destroyed b' + 1) b = destroyed b + (b' == b).toNat := by
  by_cases hb : b = b'
  · subst hb
    simp
  · simp [Function.update_of_ne hb, Ne.symm hb]

section Places

variable [Fintype ι] [DecidableEq ι] {s s' : State ι n} {a : Action ι} {evs : List (Event ι n)}

theorem acquiring_update (b : Fin n) (calls : ι → Option (Fin n)) (t : ι)
    (call : Option (Fin n)) :
    acquiring b (Function.update calls t call) + (calls t == some b).toNat =
      acquiring b calls + (call == some b).toNat :=
  ThreadSum.count_update _ calls t call

/-- Every step leaves every buffer in as many places as before. -/
theorem Transition.places_eq (h : Transition s a evs s') (b : Fin n) :
    s'.places b = s.places b := by
  cases h with
  | exhaust | resize | copyOwner | dropOwner => rfl
  | @take t b' rest _ hcall hfree =>
      have hcalls := acquiring_update b s.calls t (some b')
      simp only [hcall, Option.some_beq_some, reduceBEq, Bool.toNat_false] at hcalls
      simp only [State.places, hfree, count_concat]
      omega
  | @wrap t b' _ hcall =>
      have hcalls := acquiring_update b s.calls t none
      simp only [hcall, Option.some_beq_some, reduceBEq, Bool.toNat_false] at hcalls
      have hnew : (Group.live b' 0).holds b = (b' == b).toNat := Group.holds_live
      simp only [State.places, ThreadSum.countP_concat]
      unfold Group.holds at hnew
      omega
  | @regroup g x y hg hxy =>
      have hheld := holds_set hg y b
      rw [hxy.holds_eq b] at hheld
      simp only [State.places]
      omega
  | @pin g b' hg =>
      have hheld := holds_set hg (.releasing b') b
      simp only [Group.holds_dropped, Group.holds_releasing] at hheld
      simp only [State.places]
      omega
  | @doom g b' hg =>
      have hheld := holds_set hg (.doomed b') b
      simp only [Group.holds_dropped, Group.holds_doomed] at hheld
      simp only [State.places]
      omega
  | release hg =>
      have hheld := holds_set hg .unpinning b
      simp only [Group.holds_releasing, Group.holds_unpinning] at hheld
      simp only [State.places, count_concat]
      omega
  | unpin hg =>
      have hheld := holds_set hg .gone b
      simp only [Group.holds_unpinning, Group.holds_gone] at hheld
      simp only [State.places]
      omega
  | delete hg =>
      have hheld := holds_set hg .gone b
      simp only [Group.holds_doomed, Group.holds_gone] at hheld
      simp only [State.places, destroyed_update]
      omega
  | @destruct b' rest _ hfree =>
      simp only [State.places, destroyed_update, hfree, count_cons]
      omega

end Places

/-! ## The invariant -/

section Owned

variable [Fintype ι]

/-- What holds of a pool at any time. -/
structure Owned (bufferBytes : Nat) (s : State ι n) : Prop where
  /-- every buffer is in one place -/
  once : ∀ b, s.places b = 1
  strong_eq : s.strong = s.owners + s.groups.countP Group.pinning
  /-- buffers are deleted when the pool has expired, which is for good -/
  doomed : ∀ b, .doomed b ∈ s.groups → s.strong = 0
  destroyed : ∀ b, 0 < s.destroyed b → s.strong = 0
  capacity : ∀ b, (s.buffers b).capacity = orOne bufferBytes

variable [DecidableEq ι] {bufferBytes : Nat} {s s' : State ι n} {a : Action ι}
  {evs : List (Event ι n)}

/-- The pool expires for good. -/
theorem Owned.expired (hown : Owned bufferBytes s) (h : Transition s a evs s')
    (hstrong : s.strong = 0) : s'.strong = 0 := by
  have heq := hown.strong_eq
  cases h with
  | pin _ hpos => omega
  | copyOwner hpos => omega
  | unpin | dropOwner =>
      show s.strong - 1 = 0
      omega
  | exhaust | take | wrap | regroup | resize | doom | release | delete | destruct => exact hstrong

omit [DecidableEq ι] in
/-- A group that changes takes its part of the use count with it. -/
theorem Owned.strong_set (hown : Owned bufferBytes s) {g strong : Nat} {x y : Group n}
    (hg : s.groups[g]? = some x) (hbal : strong + x.pinning.toNat = s.strong + y.pinning.toNat) :
    strong = s.owners + (s.groups.set g y).countP Group.pinning := by
  have heq := hown.strong_eq
  have hpins := ThreadSum.countP_set hg y Group.pinning
  omega

theorem Owned.strong_step (hown : Owned bufferBytes s) (h : Transition s a evs s') :
    s'.strong = s'.owners + s'.groups.countP Group.pinning := by
  have heq := hown.strong_eq
  cases h with
  | exhaust | take | resize | destruct => exact heq
  | wrap =>
      rw [ThreadSum.countP_concat]
      exact heq
  | regroup hg hxy => exact hown.strong_set hg (by rw [hxy.pinning_eq])
  | pin hg => exact hown.strong_set hg rfl
  | doom hg => exact hown.strong_set hg rfl
  | release hg => exact hown.strong_set hg rfl
  | unpin hg =>
      -- the deleter's own owner is one of those that `strong` counts
      have hpinned : 0 < s.groups.countP Group.pinning :=
        List.countP_pos_iff.mpr ⟨_, List.mem_of_getElem? hg, rfl⟩
      refine hown.strong_set hg ?_
      show s.strong - 1 + 1 = s.strong + 0
      omega
  | delete hg => exact hown.strong_set hg rfl
  | copyOwner =>
      show s.strong + 1 = s.owners + 1 + s.groups.countP Group.pinning
      omega
  | dropOwner =>
      show s.strong - 1 = s.owners - 1 + s.groups.countP Group.pinning
      omega

omit [Fintype ι] in
/-- A deleter that goes to delete has found the pool expired. -/
theorem Transition.doomed_cases (h : Transition s a evs s') {b : Fin n}
    (hb : .doomed b ∈ s'.groups) : .doomed b ∈ s.groups ∨ s.strong = 0 := by
  cases h with
  | doom _ hstrong => exact .inr hstrong
  | exhaust | take | resize | copyOwner | dropOwner | destruct => exact .inl hb
  | wrap => exact .inl (by simpa using hb)
  | regroup _ hxy =>
      rcases List.mem_or_eq_of_mem_set hb with hold | hnew
      · exact .inl hold
      · cases hxy <;> cases hnew
  | pin | release | unpin | delete =>
      rcases List.mem_or_eq_of_mem_set hb with hold | hnew
      · exact .inl hold
      · cases hnew

theorem Owned.destroyed_step (hown : Owned bufferBytes s) (h : Transition s a evs s') {b : Fin n}
    (hb : 0 < s'.destroyed b) : s.strong = 0 := by
  cases h with
  | delete hg => exact hown.doomed _ (List.mem_of_getElem? hg)
  | destruct hstrong => exact hstrong
  | exhaust | take | wrap | regroup | resize | pin | doom | release | unpin | copyOwner
  | dropOwner => exact hown.destroyed b hb

omit [Fintype ι] in
theorem Transition.capacity_eq (h : Transition s a evs s') (b : Fin n) :
    (s'.buffers b).capacity = (s.buffers b).capacity := by
  cases h with
  | @wrap _ b' | @release _ b' =>
      by_cases hb : b = b'
      · subst hb
        simp
      · simp [Function.update_of_ne hb]
  | @resize _ size _ b' =>
      by_cases hb : b = b'
      · subst hb
        simp only [Function.update_self, Buffer.resize]
        split <;> rfl
      · simp [Function.update_of_ne hb]
  | exhaust | take | regroup | pin | doom | unpin | delete | copyOwner | dropOwner
  | destruct => rfl

theorem Owned.step (hown : Owned bufferBytes s) (h : Transition s a evs s') :
    Owned bufferBytes s' where
  once b := (h.places_eq b).trans (hown.once b)
  strong_eq := hown.strong_step h
  doomed b hb := hown.expired h ((h.doomed_cases hb).elim (hown.doomed b) id)
  destroyed _ hb := hown.expired h (hown.destroyed_step h hb)
  capacity b := (h.capacity_eq b).trans (hown.capacity b)

omit [DecidableEq ι] in
theorem owned_init (bufferBytes count : Nat) :
    Owned bufferBytes (State.init (ι := ι) bufferBytes count) where
  once b := by
    have hfree : (List.finRange (orOne count)).count b = 1 :=
      List.count_eq_one_of_mem (List.nodup_finRange _) (List.mem_finRange b)
    simp [State.places, State.init, hfree, acquiring, ThreadSum.count]
  strong_eq := rfl
  doomed b hb := by simp [State.init] at hb
  destroyed b hb := by simp [State.init] at hb
  capacity _ := rfl

end Owned

/-! ## Handing out and destroying -/

section Consequences

/-- The event of an `acquire` that returns null. -/
def Event.isNull : Event ι n → Bool
  | .acquired _ none => true
  | .acquired _ (some _) | .resized _ _ | .destroyed _ => false

variable [Fintype ι] {bufferBytes : Nat} {s s' : State ι n} {a : Action ι}
  {evs : List (Event ι n)} {t : ι} {b : Fin n}

theorem Owned.nodup_free (hown : Owned bufferBytes s) : s.free.Nodup := by
  refine List.nodup_iff_count_le_one.mpr fun b => ?_
  have honce := hown.once b
  unfold State.places at honce
  omega

/-- What is not on the free list is in use, and nothing else. -/
theorem Owned.available_add (hown : Owned bufferBytes s) :
    s.available + (Finset.univ.filter (· ∉ s.free)).card = s.total := by
  have hfree : (Finset.univ.filter (· ∈ s.free)).card = s.available := by
    rw [State.available, ← List.toFinset_card_of_nodup hown.nodup_free]
    congr 1
    ext b
    simp
  have hsplit := Finset.card_filter_add_card_filter_not (s := (Finset.univ : Finset (Fin n)))
    (fun b => b ∈ s.free)
  rw [hfree, Finset.card_univ, Fintype.card_fin] at hsplit
  exact hsplit

/-- A buffer in an `acquire` is in no group. -/
theorem Owned.not_held (hown : Owned bufferBytes s) (hcall : s.calls t = some b) :
    ∀ x ∈ s.groups, x.liveOn b = false ∧ x.deletingOn b = false := by
  have hpos : 0 < acquiring b s.calls := ThreadSum.count_pos_iff.mpr ⟨t, by simp [hcall]⟩
  have honce := hown.once b
  unfold State.places at honce
  have hlive : s.groups.countP (Group.liveOn b) = 0 := by omega
  have hdeleting : s.groups.countP (Group.deletingOn b) = 0 := by omega
  intro x hx
  exact ⟨by simpa using List.countP_eq_zero.mp hlive x hx,
    by simpa using List.countP_eq_zero.mp hdeleting x hx⟩

variable [DecidableEq ι]

/-- The locked part of `acquire` returns null exactly from an empty free list. -/
theorem acquired_none_iff (h : step s (.acquire t) = some (s', evs)) :
    .acquired t none ∈ evs ↔ ∀ b, b ∉ s.free := by
  obtain ⟨-, h⟩ := Option.ite_none_right_eq_some.mp h
  split at h
  · rename_i hfree
    obtain ⟨rfl, rfl⟩ := Prod.mk.inj (Option.some.inj h)
    simp [List.getLast?_eq_none_iff.mp hfree]
  · rename_i b hfree
    obtain ⟨rfl, rfl⟩ := Prod.mk.inj (Option.some.inj h)
    refine iff_of_false (by simp) fun hnone => ?_
    exact hnone b (List.mem_of_getLast? hfree)

omit [Fintype ι] in
theorem Transition.exhausted_eq (h : Transition s a evs s') :
    s'.exhausted = s.exhausted + evs.countP Event.isNull := by
  cases h <;> rfl

/-- What `acquire` returns is empty, has the pool's size, and is nobody else's. -/
theorem Owned.of_acquired (hown : Owned bufferBytes s) (h : Transition s a evs s') {g : Nat}
    (hmem : .acquired t (some g) ∈ evs) :
    ∃ b, s'.groups[g]? = some (.live b 0) ∧ (s'.buffers b).size = 0 ∧
      (s'.buffers b).capacity = orOne bufferBytes ∧
      ∀ x ∈ s.groups, x.liveOn b = false ∧ x.deletingOn b = false := by
  have hcap := fun b => (h.capacity_eq b).trans (hown.capacity b)
  cases h with
  | @wrap u b _ hcall =>
      simp only [List.mem_singleton, Event.acquired.injEq, Option.some.injEq] at hmem
      obtain ⟨rfl, rfl⟩ := hmem
      exact ⟨b, by simp, by simp, hcap b, hown.not_held hcall⟩
  | exhaust | take | regroup | resize | pin | doom | release | unpin | delete | copyOwner
  | dropOwner | destruct => simp at hmem

omit [Fintype ι] in
/-- A buffer whose destruction is seen has been destroyed. -/
theorem Transition.of_destroyed (h : Transition s a evs s') (hmem : .destroyed b ∈ evs) :
    0 < s'.destroyed b := by
  cases h with
  | delete | destruct =>
      obtain rfl : b = _ := by simpa using hmem
      simp
  | exhaust | take | wrap | regroup | resize | pin | doom | release | unpin | copyOwner
  | dropOwner => simp at hmem

/-- **Buffers have one owner.** In every state that any interleaving of `acquire`,
    handles, deleters and owners of the pool reaches, for every buffer size and
    count: every buffer is in exactly one place; it is destroyed at most once and
    only when the pool has expired; what is available and what is not adds up to
    the total. As for the next step: `acquire` returns null iff all buffers are
    off the free list, and only this counts as exhausted; a buffer is handed out
    only when no handle and no deleter has it, and the handle is empty and has the
    pool's buffer size; nothing is destroyed while the pool has an owner. -/
theorem buffer_ownership {count : Nat} {s : State ι (orOne count)} {as : List (Action ι)}
    {tr : List (Event ι (orOne count))}
    (h : (machine ι (orOne count)).Run (.init bufferBytes count) as tr s) :
    (∀ b, s.free.count b + acquiring b s.calls + s.groups.countP (Group.liveOn b) +
      s.groups.countP (Group.deletingOn b) + s.destroyed b = 1) ∧
    (∀ b, s.destroyed b ≤ 1 ∧ (0 < s.destroyed b → s.strong = 0)) ∧
    (s.available + (Finset.univ.filter (· ∉ s.free)).card = s.total ∧ s.available ≤ s.total ∧
      s.inUse = (Finset.univ.filter (· ∉ s.free)).card) ∧
    ∀ a s' evs, (machine ι (orOne count)).step s a = some (s', evs) →
      (∀ t, a = .acquire t → (.acquired t none ∈ evs ↔ ∀ b, b ∉ s.free)) ∧
      s'.exhausted = s.exhausted + evs.countP Event.isNull ∧
      (∀ t g, .acquired t (some g) ∈ evs → ∃ b, s'.groups[g]? = some (.live b 0) ∧
        (s'.buffers b).size = 0 ∧ (s'.buffers b).capacity = orOne bufferBytes ∧
        ∀ x ∈ s.groups, x.liveOn b = false ∧ x.deletingOn b = false) ∧
      (∀ b, .destroyed b ∈ evs → s.strong = 0) := by
  have hown : Owned bufferBytes s :=
    Machine.Run.invariant (I := fun _ s => Owned bufferBytes s) h (owned_init bufferBytes count)
      fun hI hstep => hI.step (step_transition hstep)
  have hsum := hown.available_add
  refine ⟨hown.once, ?_, ⟨hsum, by omega, ?_⟩, ?_⟩
  · intro b
    have honce := hown.once b
    unfold State.places at honce
    exact ⟨by omega, hown.destroyed b⟩
  · unfold State.inUse
    omega
  · intro a s' evs hstep
    have htr := step_transition hstep
    refine ⟨?_, htr.exhausted_eq, fun t g hmem => hown.of_acquired htr hmem, ?_⟩
    · rintro t rfl
      exact acquired_none_iff hstep
    · intro b hmem
      exact hown.destroyed_step htr (htr.of_destroyed hmem)

/-- The pool's last owner goes while a handle is left: its buffer is deleted by
    the handle's deleter, the other one by the pool. -/
theorem buffer_ownership_outlived :
    ∃ tr s, (machine (Fin 1) (orOne 2)).Run (.init 32 2)
        [.acquire 0, .wrap 0, .copy 0, .drop 0, .dropOwner, .drop 0, .lock 0, .destruct,
          .delete 0] tr s ∧
      (∀ b, s.destroyed b = 1) ∧ ∀ b, 0 < s.destroyed b → s.strong = 0 := by
  refine ⟨_, _, .of_isSome _ _ _ (by decide), by decide, fun b => ?_⟩
  exact ((buffer_ownership (.of_isSome _ _ _ _)).2.1 b).2

end Consequences

end BufferPool

end Rdb
