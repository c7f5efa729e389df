-- SUMMARY: Which messages a callback may see: compatible publishers only, except for the history a late joiner is given.
import Rdb.Bus.History

/-!
# The QoS gate

`publish_erased` checks every subscription it pushes to, `subscribe` hands out the
history of the topic without looking at the QoS it was published under. So the gate
holds in runs in which no late joiner meets a history that is not for it.
-/

namespace Rdb

namespace TopicBus

variable {ι τ π η : Type*}

/-- The guard on a `subscribe` that registers, whose type is that of the topic: what is
    latched there was published under a QoS that is compatible with the one asked for. -/
def HistoryCompatible (tr : List (BusEvent ι π η)) (s : BusState ι τ π η) :
    BusAction ι τ π η → Prop
  | .subscribe _ topic type qos _ =>
      (ensureTopic s.topics topic type).2.type = type → qos.durability = .transientLocal →
      ∀ env ∈ latchedOf s.topics topic, ∀ x ∈ publications topic tr,
        x.env.seq = env.seq → checkCompatible x.qos qos = .none
  | _ => True

instance [DecidableEq τ] (tr : List (BusEvent ι π η)) (s : BusState ι τ π η) :
    (a : BusAction ι τ π η) → Decidable (HistoryCompatible tr s a)
  | .subscribe _ topic type qos _ =>
    inferInstanceAs (Decidable ((ensureTopic s.topics topic type).2.type = type →
      qos.durability = .transientLocal →
      ∀ env ∈ latchedOf s.topics topic, ∀ x ∈ publications topic tr,
        x.env.seq = env.seq → checkCompatible x.qos qos = .none))
  | .advertise .. | .setQosMismatchHandler .. | .setReliableTimeout .. | .pushBacklog ..
  | .spawn .. | .assign .. | .publish .. | .publishLock .. | .report .. | .push .. | .pushWake ..
  | .publishReturn .. | .unsubscribe .. | .shutdown .. | .stopClose .. | .stopJoinable ..
  | .stopJoin .. | .stopReturn .. | .workerPop .. | .workerDeliver .. | .workerFinish .. =>
    .isTrue trivial

/-- Everything in the inbox of `sid` was published under a compatible QoS. -/
def Gated (sid : SubId) (tr : List (BusEvent ι π η)) (s : BusState ι τ π η) : Prop :=
  ∀ sub, s.subs sid = some sub → ∀ y ∈ inbox sid tr,
    ∃ x ∈ publications sub.topic tr, x.env = y.2 ∧ checkCompatible x.qos sub.qos = .none

section Gate

variable {s s' : BusState ι τ π η} {a : BusAction ι τ π η}
  {evs tr : List (BusEvent ι π η)} {sid : SubId}

theorem Gated.step (h : Gated sid tr s) (hinbox : InboxOk sid tr s)
    (hhist : ∀ topic, HistoryOk topic tr s) (hsubs : SubsStep s evs s')
    (ho : OfferStep sid s a evs s') (hC : HistoryCompatible tr s a) :
    Gated sid (tr ++ evs) s' := by
  intro sub' hsub' y hy
  rw [inbox_append] at hy
  -- what was there before stays published under the same QoS
  have hold : ∀ sub, s.subs sid = some sub → y ∈ inbox sid tr →
      ∃ x ∈ publications sub'.topic (tr ++ evs), x.env = y.2 ∧
        checkCompatible x.qos sub'.qos = .none := by
    intro sub hsub hy
    obtain ⟨sub'', hsub'', htopic, hqos⟩ := hsubs.topic_eq hsub
    cases Option.some.inj (hsub'.symm.trans hsub'')
    obtain ⟨x, hx, henv, hcompat⟩ := h sub hsub y hy
    rw [htopic, hqos, publications_append]
    exact ⟨x, List.mem_append_left _ hx, henv, hcompat⟩
  cases ho with
  | none hnil hnone =>
      rw [hnil, List.append_nil] at hy
      cases hsub : s.subs sid with
      | none => rw [hnone hsub] at hsub'; cases hsub'
      | some sub => exact hold sub hsub hy
  | @news sub x hsub hnews hpub hcompat =>
      rcases List.mem_append.mp hy with hy | hy
      · exact hold sub hsub hy
      · obtain ⟨sub'', hsub'', htopic, hqos⟩ := hsubs.topic_eq hsub
        cases Option.some.inj (hsub'.symm.trans hsub'')
        rw [hnews, List.mem_singleton] at hy
        rw [htopic, hqos, publications_append, hpub, hy]
        exact ⟨x, by simp, rfl, hcompat⟩
  | @history p topic type qos backlog ha hsub htype hnew hbacklog hoffer hpub =>
      subst ha
      cases Option.some.inj (hsub'.symm.trans hnew)
      rw [hinbox.fresh hsub, hoffer, List.nil_append, List.mem_map] at hy
      obtain ⟨env, henv, rfl⟩ := hy
      rw [hbacklog] at henv
      split at henv
      · rename_i hdur
        obtain ⟨x, hx, hxenv⟩ := List.mem_map.mp ((hhist topic).latched.subset henv)
        refine ⟨x, ?_, hxenv, hC htype hdur env henv x hx (congrArg _ hxenv)⟩
        rw [publications_append]
        exact List.mem_append_left _ hx
      · cases henv

variable [Fintype ι] [DecidableEq ι] [DecidableEq τ] {as : List (BusAction ι τ π η)}

theorem gated_of_run (h : (machine ι τ π η).RunIf HistoryCompatible init as tr s) (sid : SubId) :
    Gated sid tr s := by
  have hboth : Sound tr s ∧ Gated sid tr s :=
    Machine.RunIf.invariant (I := fun tr s => Sound tr s ∧ Gated sid tr s) h
      ⟨sound_init, fun _ h => by cases h⟩ fun ⟨hsound, hgated⟩ hC hstep => by
        have ht := step_transition hstep
        have wf := hsound.accounted.wf
        exact ⟨hsound.step ht, hgated.step (hsound.inboxes sid) hsound.history (ht.subsStep wf)
          (ht.offerStep wf sid) hC⟩
  exact hboth.2

/-- **No delivery across an incompatible QoS**, in every run in which each
    `TransientLocal` subscriber is compatible with the history it finds. -/
theorem called_compatible (h : (machine ι τ π η).RunIf HistoryCompatible init as tr s)
    (sid : SubId) (sub : Subscription τ π) (hsub : s.subs sid = some sub) (env : Envelope π)
    (hcalled : .sub sid (.called env) ∈ tr) :
    ∃ x ∈ publications sub.topic tr, x.env = env ∧ checkCompatible x.qos sub.qos = .none := by
  obtain ⟨live, hmem⟩ := (sound_of_run h.toRun).mem_inbox_of_called hcalled
  exact gated_of_run h sid sub hsub _ hmem

/-- A `Reliable` publisher and a late joiner: the history is delivered. -/
theorem called_compatible_latched :
    ∃ tr s sub, (machine (Fin 2) Unit Nat Unit).RunIf HistoryCompatible init
        [.advertise "map" (), .publish 0 "map" () (.latched 2) 7 0, .publishLock 0,
          .publishReturn 0, .subscribe 1 "map" () (.latched 2) 5, .pushBacklog 1 5, .spawn 1 5,
          .assign 1 5, .workerPop 5, .workerDeliver 5 1] tr s ∧
      s.subs 5 = some sub ∧
      ∃ x ∈ publications sub.topic tr, x.env = ⟨7, 1, 0⟩ ∧
        checkCompatible x.qos sub.qos = .none := by
  refine ⟨_, _, _, .of_isSome _ _ _ _ (by decide), rfl, ?_⟩
  exact called_compatible (.of_isSome _ _ _ _ _) 5 _ rfl ⟨7, 1, 0⟩ (by decide)

/-- Without the guard the gate leaks: a `BestEffort` publisher latches a message and
    a later `Reliable` subscriber, which it would have to leave out, gets it. -/
theorem called_incompatible_history :
    ¬ ∀ as tr s sid sub env, (machine (Fin 2) Unit Nat Unit).Run init as tr s →
      s.subs sid = some sub → .sub sid (.called env) ∈ tr →
      ∃ x ∈ publications sub.topic tr, x.env = env ∧
        checkCompatible x.qos sub.qos = .none := by
  intro h
  have hrun := Machine.Run.of_isSome (machine (Fin 2) Unit Nat Unit) init
    [.advertise "map" (),
      .publish 0 "map" () { reliability := .bestEffort, durability := .transientLocal } 7 0,
      .publishLock 0, .publishReturn 0, .subscribe 1 "map" () (.latched 1) 5, .pushBacklog 1 5,
      .spawn 1 5, .assign 1 5, .workerPop 5, .workerDeliver 5 1] (by decide)
  exact absurd (h _ _ _ 5 _ ⟨7, 1, 0⟩ hrun rfl (by decide)) (by decide)

end Gate

end TopicBus

end Rdb
