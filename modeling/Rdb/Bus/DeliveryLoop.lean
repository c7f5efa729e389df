-- SUMMARY: What `deliver_loop` counts: expired envelopes and missed deadlines, as functions of the clock readings.
import Rdb.Bus.WellFormed

/-!
# The delivery loop

A round of `deliver_loop` pops an envelope and reads the clock. `stale` and
`misses` say in exact integers which rounds have expired and how often a deadline
was missed; `Looped` is the loop invariant that relates them to the counters, which
the source computes with unsigned subtractions and a zero for "no delivery yet".
-/

namespace Rdb

variable {ι τ π η : Type*}

/-! ## The specification -/

/-- The time from `since` to `now` is longer than `d`. A duration that is not positive
    is switched off. -/
def outlasts (d : Int64) (since now : UInt64) : Bool :=
  decide (0 < d.toInt ∧ d.toInt < (now.toNat : Int) - since.toNat)

/-- A round of the loop: the envelope it popped and its clock reading. -/
abbrev Round (π : Type*) := Envelope π × UInt64

namespace Round

/-- The envelope has outlived its lifespan when the clock is read. -/
def stale (qos : QoS) (r : Round π) : Bool := outlasts qos.lifespan r.1.publishNs r.2

/-- The rounds that deliver. -/
def fresh (qos : QoS) (rs : List (Round π)) : List (Round π) := rs.filter fun r => !r.stale qos

/-- The consecutive pairs of `readings` that are too far apart. -/
def misses (qos : QoS) (readings : List UInt64) : Nat :=
  (readings.zip readings.tail).countP fun x => outlasts qos.deadline x.1 x.2

section Snoc

variable (qos : QoS) (rs : List (Round π)) (r : Round π)

theorem fresh_snoc_of_stale (h : r.stale qos = true) : fresh qos (rs ++ [r]) = fresh qos rs := by
  simp [fresh, h]

theorem fresh_snoc_of_not_stale (h : r.stale qos = false) :
    fresh qos (rs ++ [r]) = fresh qos rs ++ [r] := by
  simp [fresh, h]

theorem misses_snoc_snoc (l : List UInt64) (x y : UInt64) :
    misses qos (l ++ [x] ++ [y]) =
      misses qos (l ++ [x]) + if outlasts qos.deadline x y then 1 else 0 := by
  have hzip : (l ++ [x] ++ [y]).zip (l ++ [x] ++ [y]).tail =
      (l ++ [x]).zip (l ++ [x]).tail ++ [(x, y)] := by
    induction l with
    | nil => rfl
    | cons z l ih => cases l <;> simp_all
  rw [misses, hzip, List.countP_append, List.countP_singleton, misses]

end Snoc

end Round

/-! ## The unsigned arithmetic of the loop -/

section Words

theorem toInt_pos_iff {d : Int64} : 0 < d.toInt ↔ d > 0 := by
  rw [gt_iff_lt, Int64.lt_iff_toInt_lt, Int64.toInt_zero]

/-- The cast of a positive count is exact. -/
theorem toNat_toUInt64 {d : Int64} (h : d > 0) : (d.toUInt64.toNat : Int) = d.toInt := by
  have hnonneg : 0 ≤ d.toInt := Int.le_of_lt (toInt_pos_iff.mpr h)
  rw [Int64.toNat_toUInt64_of_le (Int64.le_iff_toInt_le.mpr hnonneg), ← Int64.toNat_toInt]
  exact Int.toNat_of_nonneg hnonneg

/-- A difference that does not underflow is compared exactly. -/
theorem outlasts_iff {d : Int64} {since now : UInt64} (h : since ≤ now) :
    outlasts d since now = true ↔ d > 0 ∧ now - since > d.toUInt64 := by
  rw [outlasts, decide_eq_true_iff, toInt_pos_iff]
  refine and_congr_right fun hd => ?_
  have hle := UInt64.le_iff_toNat_le.mp h
  rw [← toNat_toUInt64 hd, gt_iff_lt, UInt64.lt_iff_toNat_lt, UInt64.toNat_sub_of_le _ _ h]
  omega

/-- Nothing is outlasted before it starts. -/
theorem lt_of_outlasts {d : Int64} {since now : UInt64} (h : outlasts d since now = true) :
    since < now := by
  rw [outlasts, decide_eq_true_iff] at h
  rw [UInt64.lt_iff_toNat_lt]
  omega

end Words

/-! ## One round -/

/-- Nothing was called and nothing has expired. -/
def Ledger.Quiet (l : List (SubEvent ι π)) : Prop := called l = [] ∧ expired l = []

theorem Ledger.quiet_of_not_byWorker {l : List (SubEvent ι π)} (h : ∀ e ∈ l, e.byWorker = false) :
    Quiet l := by
  refine ⟨List.flatMap_eq_nil_iff.mpr fun e he => ?_, List.flatMap_eq_nil_iff.mpr fun e he => ?_⟩
  all_goals
    have hw := h e he
    cases e with
    | called | expired => cases hw
    | pushed | rejected | popped | delivered => rfl

/-- The envelope whose clock reading is still to come. -/
def Worker.unread : Worker π → List (Envelope π)
  | .holding env => [env]
  | .notStarted | .popping | .calling _ | .exited => []

namespace Subscription

variable {sub sub' : Subscription τ π} {l evs : List (SubEvent ι π)} {rs : List (Round π)}
  {env : Envelope π} {now : UInt64}

/-- The subtractions a round evaluates: what is subtracted from, and what is. -/
def subtractions (sub : Subscription τ π) (env : Envelope π) (now : UInt64) :
    List (UInt64 × UInt64) :=
  (if sub.lifespanNs > 0 ∧ now > env.publishNs then [(now, env.publishNs)] else []) ++
  (if sub.isExpired env now = false ∧ sub.qos.deadline > 0 ∧ sub.lastDeliveryNs ≠ 0
    then [(now, sub.lastDeliveryNs)] else [])

/-- The first subtraction is guarded, the second needs a clock that does not run back. -/
theorem le_of_mem_subtractions (h : sub.lastDeliveryNs ≤ now) :
    ∀ x ∈ sub.subtractions env now, x.2 ≤ x.1 := by
  intro x hx
  unfold subtractions at hx
  rcases List.mem_append.mp hx with hx | hx
  · split at hx
    · rename_i hlt
      rw [List.mem_singleton.mp hx]
      exact UInt64.le_of_lt hlt.2
    · cases hx
  · split at hx
    · rw [List.mem_singleton.mp hx]
      exact h
    · cases hx

theorem isExpired_eq (sub : Subscription τ π) (env : Envelope π) (now : UInt64) :
    sub.isExpired env now = Round.stale sub.qos (env, now) := by
  rw [Bool.eq_iff_iff, isExpired, decide_eq_true_iff, Round.stale]
  by_cases hd : sub.qos.lifespan > 0
  · have hns : sub.lifespanNs = sub.qos.lifespan.toUInt64 := if_pos hd
    have hpos : sub.lifespanNs > 0 := by
      have hnat := toNat_toUInt64 hd
      have hint := toInt_pos_iff.mpr hd
      rw [hns, gt_iff_lt, UInt64.lt_iff_toNat_lt, UInt64.toNat_zero]
      omega
    constructor
    · rintro ⟨-, hlt, hover⟩
      exact (outlasts_iff (UInt64.le_of_lt hlt)).mpr ⟨hd, hns ▸ hover⟩
    · intro h
      have hlt := lt_of_outlasts h
      exact ⟨hpos, hlt, hns ▸ ((outlasts_iff (UInt64.le_of_lt hlt)).mp h).2⟩
  · have hns : sub.lifespanNs = 0 := if_neg hd
    constructor
    · rintro ⟨hpos, -⟩
      rw [hns] at hpos
      exact absurd hpos (UInt64.lt_irrefl 0)
    · intro h
      rw [outlasts, decide_eq_true_iff, toInt_pos_iff] at h
      exact absurd h.1 hd

theorem missesDeadline_eq (h : sub.lastDeliveryNs ≠ 0) (hle : sub.lastDeliveryNs ≤ now) :
    sub.missesDeadline now = outlasts sub.qos.deadline sub.lastDeliveryNs now := by
  rw [Bool.eq_iff_iff, missesDeadline, decide_eq_true_iff, outlasts_iff hle]
  tauto

theorem missesDeadline_zero (h : sub.lastDeliveryNs = 0) : sub.missesDeadline now = false := by
  simp [missesDeadline, h]

/-! ## The loop invariant -/

theorem popNext_quiet (h : sub.popNext = some (sub', evs)) : Ledger.Quiet evs := by
  unfold popNext at h
  split at h
  · split at h <;>
    · obtain ⟨-, rfl⟩ := Prod.mk.inj (Option.some.inj h)
      exact ⟨rfl, rfl⟩
  · cases h

theorem finish_quiet (h : sub.finish = some (sub', evs)) : Ledger.Quiet evs := by
  unfold finish at h
  split at h
  · obtain ⟨-, rfl⟩ := Prod.mk.inj (Option.some.inj h)
    exact ⟨rfl, rfl⟩
  · cases h

/-- The record of a subscription that has been through the rounds `rs`. -/
structure Looped (l : List (SubEvent ι π)) (rs : List (Round π)) (sub : Subscription τ π) :
    Prop where
  popped_eq : Ledger.popped l = rs.map Prod.fst ++ sub.worker.unread
  called_eq : Ledger.called l = (Round.fresh sub.qos rs).map Prod.fst
  expired_eq : sub.expired = rs.countP (Round.stale sub.qos)
  missed_eq : sub.deadlineMissed = Round.misses sub.qos ((Round.fresh sub.qos rs).map Prod.snd)
  /-- zero stands for no delivery yet -/
  last_eq : sub.lastDeliveryNs = ((Round.fresh sub.qos rs).map Prod.snd).getLastD 0

theorem looped_new (topic : String) (type : τ) (qos : QoS) :
    Looped ([] : List (SubEvent ι π)) [] (.new topic type qos : Subscription τ π) :=
  ⟨rfl, rfl, rfl, rfl, rfl⟩

/-- Nothing but a round touches what the loop counts. -/
theorem Looped.step (h : Looped l rs sub) (hs : sub.Step evs sub')
    (hquiet : Ledger.Quiet evs) : Looped (l ++ evs) rs sub' := by
  have hqos : sub'.qos = sub.qos := hs.qos_eq.1
  have hcount : sub'.expired = sub.expired ∧ sub'.deadlineMissed = sub.deadlineMissed ∧
      sub'.lastDeliveryNs = sub.lastDeliveryNs ∧
      sub.worker.unread ++ Ledger.popped evs = sub'.worker.unread := by
    cases hs with
    | expire => cases hquiet.2
    | call => cases hquiet.1
    | pop hw | exit hw | finish hw | spawn hw =>
        exact ⟨rfl, rfl, rfl, by simp [hw, Worker.unread, Ledger.popped, SubEvent.pops]⟩
    | push | reject | assign | close | join | stay =>
        exact ⟨rfl, rfl, rfl, by simp [Ledger.popped, SubEvent.pops, Subscription.reject]⟩
  obtain ⟨hexp, hmiss, hlast, hunread⟩ := hcount
  refine ⟨?_, ?_, ?_, ?_, ?_⟩
  · rw [Ledger.popped_append, h.popped_eq, List.append_assoc, hunread]
  · rw [Ledger.called_append, hquiet.1, List.append_nil, hqos, h.called_eq]
  · rw [hexp, hqos, h.expired_eq]
  · rw [hmiss, hqos, h.missed_eq]
  · rw [hlast, hqos, h.last_eq]

/-- The last delivery was no later than a reading that is no earlier than any before. -/
theorem Looped.last_le (h : Looped l rs sub) (hle : ∀ r ∈ rs, r.2 ≤ now) :
    sub.lastDeliveryNs ≤ now := by
  rw [h.last_eq, List.getLastD_eq_getLast?]
  cases hl : ((Round.fresh sub.qos rs).map Prod.snd).getLast? with
  | none => exact UInt64.le_iff_toNat_le.mpr (Nat.zero_le _)
  | some x =>
      obtain ⟨r, hr, rfl⟩ := List.mem_map.mp (List.mem_of_getLast? hl)
      exact hle r (List.mem_of_mem_filter hr)

/-- The deadline check of a round looks at the last reading that delivered. -/
theorem Looped.missed_snoc (h : Looped l rs sub) (hpos : ∀ r ∈ rs, 0 < r.2)
    (hle : ∀ r ∈ rs, r.2 ≤ now) :
    (if sub.missesDeadline now then sub.deadlineMissed + 1 else sub.deadlineMissed) =
      Round.misses sub.qos ((Round.fresh sub.qos rs).map Prod.snd ++ [now]) := by
  have hlast := h.last_eq
  have hmiss := h.missed_eq
  rcases List.eq_nil_or_concat (Round.fresh sub.qos rs) with hnil | ⟨front, r, hsnoc⟩
  · -- no delivery yet, so no interval to check
    rw [hnil, List.map_nil, List.getLastD_nil] at hlast
    rw [missesDeadline_zero hlast, if_neg Bool.false_ne_true, hmiss, hnil]
    rfl
  · rw [List.concat_eq_append] at hsnoc
    have hmem : r ∈ rs :=
      List.mem_of_mem_filter (hsnoc ▸ List.mem_append_right front List.mem_cons_self)
    rw [hsnoc, List.map_append, List.map_singleton, List.getLastD_concat] at hlast
    rw [hsnoc, List.map_append, List.map_singleton] at hmiss
    have hne : sub.lastDeliveryNs ≠ 0 := by
      rw [hlast]
      exact (UInt64.ne_of_lt (hpos r hmem)).symm
    rw [missesDeadline_eq hne (hlast ▸ hle r hmem), hlast, hsnoc, List.map_append,
      List.map_singleton, Round.misses_snoc_snoc, ← hmiss]
    split <;> rfl

/-- A round. -/
theorem Looped.deliver (h : Looped l rs sub) (hs : sub.deliver now = some (sub', evs))
    (hpos : ∀ r ∈ rs, 0 < r.2) (hle : ∀ r ∈ rs, r.2 ≤ now) :
    ∃ env, sub.worker = .holding env ∧ Looped (l ++ evs) (rs ++ [(env, now)]) sub' := by
  unfold Subscription.deliver at hs
  split at hs
  · rename_i env hw
    have hpopped := h.popped_eq
    rw [hw, Worker.unread] at hpopped
    refine ⟨env, hw, ?_⟩
    rw [isExpired_eq] at hs
    split at hs
    · rename_i hstale
      obtain ⟨rfl, rfl⟩ := Prod.mk.inj (Option.some.inj hs)
      have hfresh := Round.fresh_snoc_of_stale sub.qos rs (env, now) hstale
      refine ⟨?_, ?_, ?_, ?_, ?_⟩
      · rw [Ledger.popped_append, hpopped]
        simp [Ledger.popped, SubEvent.pops, Worker.unread]
      · rw [Ledger.called_append, h.called_eq, hfresh]
        simp [Ledger.called, SubEvent.calls]
      · simp [h.expired_eq, hstale]
      · simpa [hfresh] using h.missed_eq
      · simpa [hfresh] using h.last_eq
    · rename_i hstale
      obtain ⟨rfl, rfl⟩ := Prod.mk.inj (Option.some.inj hs)
      have hfresh :=
        Round.fresh_snoc_of_not_stale sub.qos rs (env, now) (Bool.eq_false_iff.mpr hstale)
      refine ⟨?_, ?_, ?_, ?_, ?_⟩
      · rw [Ledger.popped_append, hpopped]
        simp [Ledger.popped, SubEvent.pops, Worker.unread]
      · rw [Ledger.called_append, h.called_eq, hfresh]
        simp [Ledger.called, SubEvent.calls]
      · simp [h.expired_eq, hstale]
      · simpa [hfresh] using h.missed_snoc hpos hle
      · simp [hfresh]
  · cases hs

end Subscription

/-! ## The loop in a run -/

/-- The clock reading of a round of `sid`. -/
def BusAction.reading (sid : SubId) : BusAction ι τ π η → Option UInt64
  | .workerDeliver i now => if i = sid then some now else none
  | _ => none

theorem BusAction.eq_of_reading {sid : SubId} {a : BusAction ι τ π η} {now : UInt64}
    (h : a.reading sid = some now) : a = .workerDeliver sid now := by
  cases a with
  | workerDeliver i now' =>
      simp only [reading, Option.ite_none_right_eq_some, Option.some.injEq] at h
      rw [h.1, h.2]
  | _ => cases h

namespace TopicBus

/-- The clock readings of `sid`'s loop. -/
def readings (sid : SubId) (as : List (BusAction ι τ π η)) : List UInt64 :=
  as.filterMap (BusAction.reading sid)

/-- The rounds of `sid`'s loop. -/
def rounds (sid : SubId) (as : List (BusAction ι τ π η)) (tr : List (BusEvent ι π η)) :
    List (Round π) :=
  (Ledger.popped (ledger sid tr)).zip (readings sid as)

@[simp] theorem readings_append (sid : SubId) (as as' : List (BusAction ι τ π η)) :
    readings sid (as ++ as') = readings sid as ++ readings sid as' := List.filterMap_append ..

section Step

variable [DecidableEq ι] {s s' : BusState ι τ π η} {a : BusAction ι τ π η}
  {evs : List (BusEvent ι π η)} {sid : SubId}

/-- The events of a step that no worker takes are not a worker's. -/
theorem Transition.not_byWorker (ht : Transition s a evs s')
    (ha : ∀ i, a.byWorkerOf i = false) : ∀ e ∈ ledger sid evs, e.byWorker = false := by
  intro e he
  have hmem := mem_ledger.mp he
  cases ht with
  | advertise | setHandler | setTimeout | conflict | publish | pushSleep | stopClose | stopJoinable
  | stopSkip | stopJoin | spawn | assign => cases hmem
  | subscribe | publishFailed | publishReturn | unsubscribe | shutdown | stopReturn =>
      cases List.mem_singleton.mp hmem
  | pushBacklog | pushReturn =>
      cases List.mem_singleton.mp hmem
      rfl
  | report => simp at hmem
  | published _ _ _ _ hm =>
      rcases mem_published hm hmem with h | ⟨i, r, h⟩
      · cases h
      · cases h
        rfl
  | worker _ _ hw => rw [ha] at hw; cases hw

omit [DecidableEq ι] in
theorem ledger_map_quiet {i : SubId} {levs : List (SubEvent ι π)} (h : Ledger.Quiet levs) :
    Ledger.Quiet (ledger sid (levs.map (.sub i) : List (BusEvent ι π η))) := by
  by_cases hi : i = sid
  · subst hi
    rwa [ledger_map_self]
  · rw [ledger_map_of_ne hi]
    exact ⟨rfl, rfl⟩

/-- Without a clock reading nothing is called and nothing expires. -/
theorem quiet_of_reading_eq_none [DecidableEq τ] (hstep : step s a = some (s', evs))
    (ha : a.reading sid = none) : Ledger.Quiet (ledger sid evs) := by
  cases a with
  | workerPop i =>
      obtain ⟨sub, sub', levs, -, hpop, -, rfl⟩ := workerStep_inv hstep
      exact ledger_map_quiet (Subscription.popNext_quiet hpop)
  | workerFinish i =>
      obtain ⟨sub, sub', levs, -, hfin, -, rfl⟩ := workerStep_inv hstep
      exact ledger_map_quiet (Subscription.finish_quiet hfin)
  | workerDeliver i now =>
      obtain ⟨sub, sub', levs, -, -, -, rfl⟩ := workerStep_inv hstep
      have hne : i ≠ sid := by
        rintro rfl
        simp [BusAction.reading] at ha
      rw [ledger_map_of_ne hne]
      exact ⟨rfl, rfl⟩
  | _ => exact Ledger.quiet_of_not_byWorker ((step_transition hstep).not_byWorker fun _ => rfl)

end Step

section Runs

variable [DecidableEq ι] [DecidableEq τ] {s s' : BusState ι τ π η} {a : BusAction ι τ π η}
  {as : List (BusAction ι τ π η)} {evs tr : List (BusEvent ι π η)} {sid : SubId}
  {sub : Subscription τ π}

/-- Clock readings of a clock that runs forward. -/
structure Forward (readings : List UInt64) : Prop where
  pos : ∀ now ∈ readings, 0 < now
  mono : readings.Pairwise (· ≤ ·)

theorem Forward.of_append {l l' : List UInt64} (h : Forward (l ++ l')) : Forward l :=
  ⟨fun now hmem => h.pos now (List.mem_append_left l' hmem), (List.pairwise_append.mp h.mono).1⟩

/-- A loop reads the clock for a subscription that exists. -/
theorem readings_eq_nil (h : (machine ι τ π η).Run init as tr s) (hsub : s.subs sid = none) :
    readings sid as = [] := by
  induction h with
  | nil => rfl
  | @snoc as tr evs s s' a hrun _ hstep ih =>
      have hacc := accounted_of_run bare_empty hrun
      have hsubs := (step_transition hstep).subsStep hacc.wf
      cases hold : s.subs sid with
      | some old =>
          obtain ⟨new, hnew, -⟩ := hsubs.old hold
          rw [hsub] at hnew
          cases hnew
      | none =>
          rw [readings_append, ih hold, List.nil_append]
          cases hread : a.reading sid with
          | none => simp [readings, hread]
          | some now =>
              obtain rfl := BusAction.eq_of_reading hread
              obtain ⟨old, -, -, hold', -⟩ := workerStep_inv hstep
              rw [hold] at hold'
              cases hold'

/-- The rounds of a subscription that exists. -/
theorem looped_of_run (h : (machine ι τ π η).Run init as tr s)
    (hclock : Forward (readings sid as)) (hsub : s.subs sid = some sub) :
    ∃ rs, rs.map Prod.snd = readings sid as ∧ sub.Looped (ledger sid tr) rs := by
  induction h generalizing sub with
  | nil => cases hsub
  | @snoc as tr evs s s' a hrun _ hstep ih =>
      have hacc := accounted_of_run bare_empty hrun
      have hsubs := (step_transition hstep).subsStep hacc.wf
      rw [readings_append] at hclock
      rw [readings_append, ledger_append]
      cases hread : a.reading sid with
      | none =>
          -- not a round
          have hnil : readings sid [a] = [] := by simp [readings, hread]
          rw [hnil, List.append_nil]
          cases hold : s.subs sid with
          | none =>
              obtain ⟨hevs, hnew⟩ := hsubs.fresh hold
              obtain ⟨topic, type, qos, rfl⟩ := hnew hsub
              rw [hacc.fresh hold, hevs, readings_eq_nil hrun hold]
              exact ⟨[], rfl, Subscription.looped_new topic type qos⟩
          | some old =>
              obtain ⟨new, hnew, hs⟩ := hsubs.old hold
              cases Option.some.inj (hsub.symm.trans hnew)
              obtain ⟨rs, hrs, hloop⟩ := ih hclock.of_append hold
              exact ⟨rs, hrs, hloop.step hs (quiet_of_reading_eq_none hstep hread)⟩
      | some now =>
          obtain rfl := BusAction.eq_of_reading hread
          obtain ⟨old, new, levs, hold, hdel, rfl, rfl⟩ := workerStep_inv hstep
          obtain ⟨rs, hrs, hloop⟩ := ih hclock.of_append hold
          have hone : readings sid [(.workerDeliver sid now : BusAction ι τ π η)] = [now] := by
            simp [readings, BusAction.reading]
          rw [setSub_subs, Function.update_self] at hsub
          obtain rfl := Option.some.inj hsub
          rw [hone, ← hrs] at hclock
          obtain ⟨env, -, hloop'⟩ := hloop.deliver hdel
            (fun r hr => hclock.pos _ (List.mem_append_left _ (List.mem_map_of_mem hr)))
            (fun r hr => (List.pairwise_append.mp hclock.mono).2.2 _ (List.mem_map_of_mem hr) now
              List.mem_cons_self)
          rw [hone, ledger_map_self, ← hrs]
          exact ⟨rs ++ [(env, now)], by simp, hloop'⟩

omit [DecidableEq ι] [DecidableEq τ] in
theorem rounds_eq {rs : List (Round π)} (hrs : rs.map Prod.snd = readings sid as)
    (h : sub.Looped (ledger sid tr) rs) : rounds sid as tr = rs := by
  have hlen : (rs.map Prod.fst).length = (rs.map Prod.snd).length := by simp
  calc rounds sid as tr
      = (rs.map Prod.fst ++ sub.worker.unread).zip (rs.map Prod.snd ++ []) := by
        rw [rounds, h.popped_eq, hrs, List.append_nil]
    _ = (rs.map Prod.fst).zip (rs.map Prod.snd) := by
        rw [List.zip_append hlen, List.zip_nil_right, List.append_nil]
    _ = rs := (List.zip_of_prod rfl rfl).symm

/-- The loop is exact: the callback is invoked for the envelopes that have not outlived
    their lifespan, the counters count the others and the deliveries that are too far
    apart, and no subtraction underflows. -/
theorem delivery_loop_exact (h : (machine ι τ π η).Run init as tr s) (sid : SubId)
    (hsub : s.subs sid = some sub) (hpos : ∀ now ∈ readings sid as, 0 < now)
    (hmono : (readings sid as).Pairwise (· ≤ ·)) :
    Ledger.popped (ledger sid tr) = (rounds sid as tr).map Prod.fst ++ sub.worker.unread ∧
    (rounds sid as tr).map Prod.snd = readings sid as ∧
    Ledger.called (ledger sid tr) = (Round.fresh sub.qos (rounds sid as tr)).map Prod.fst ∧
    sub.expired = (rounds sid as tr).countP (Round.stale sub.qos) ∧
    sub.deadlineMissed =
      Round.misses sub.qos ((Round.fresh sub.qos (rounds sid as tr)).map Prod.snd) ∧
    ∀ as₁ now as₂ tr₁ s₁ sub₁ env, as = as₁ ++ .workerDeliver sid now :: as₂ →
      (machine ι τ π η).Run init as₁ tr₁ s₁ → s₁.subs sid = some sub₁ →
      sub₁.worker = .holding env → ∀ x ∈ sub₁.subtractions env now, x.2 ≤ x.1 := by
  have hclock : Forward (readings sid as) := ⟨hpos, hmono⟩
  obtain ⟨rs, hrs, hloop⟩ := looped_of_run h hclock hsub
  rw [rounds_eq hrs hloop]
  refine ⟨hloop.popped_eq, hrs, hloop.called_eq, hloop.expired_eq, hloop.missed_eq, ?_⟩
  intro as₁ now as₂ tr₁ s₁ sub₁ env has hrun hsub₁ hw
  rw [has, readings_append] at hclock
  obtain ⟨rs₁, hrs₁, hloop₁⟩ := looped_of_run hrun hclock.of_append hsub₁
  have hlast : sub₁.lastDeliveryNs ≤ now := hloop₁.last_le fun r hr => by
    refine (List.pairwise_append.mp hclock.mono).2.2 _ (hrs₁ ▸ List.mem_map_of_mem hr) now ?_
    simp [readings, BusAction.reading]
  exact Subscription.le_of_mem_subtractions hlast

/-- A lifespan of 10 and a deadline of 4. The second envelope is stale at 12, and the
    third, delivered at 13, is too late after the first, delivered at 1. -/
theorem delivery_loop_exact_stale :
    ∃ as tr s sub, (machine Nat Unit Nat Unit).Run init as tr s ∧ s.subs 5 = some sub ∧
      Ledger.called (ledger 5 tr) = [⟨7, 1, 0⟩, ⟨9, 3, 4⟩] ∧ sub.expired = 1 ∧
      sub.deadlineMissed = 1 := by
  have hrun := Machine.Run.of_isSome (machine Nat Unit Nat Unit) init
    [.subscribe 1 "t" () { deadline := 4, lifespan := 10 } 5, .spawn 1 5, .assign 1 5,
      .publish 0 "t" () { deadline := 4 } 7 0, .publishLock 0, .push 0 5 0, .publishReturn 0,
      .publish 0 "t" () { deadline := 4 } 8 1, .publishLock 0, .push 0 5 0, .publishReturn 0,
      .publish 0 "t" () { deadline := 4 } 9 4, .publishLock 0, .push 0 5 0, .publishReturn 0,
      .workerPop 5, .workerDeliver 5 1, .workerFinish 5, .workerPop 5, .workerDeliver 5 12,
      .workerPop 5, .workerDeliver 5 13, .workerFinish 5] (by decide)
  have hpos : ∀ now ∈ ([1, 12, 13] : List UInt64), 0 < now := by simp
  have hmono : ([1, 12, 13] : List UInt64).Pairwise (· ≤ ·) := by decide
  have hexact := delivery_loop_exact hrun 5 rfl hpos hmono
  exact ⟨_, _, _, _, hrun, rfl, hexact.2.2.1.trans (by decide), hexact.2.2.2.1.trans (by decide),
    hexact.2.2.2.2.1.trans (by decide)⟩

end Runs

end TopicBus

end Rdb
