-- SUMMARY: The messages of one publishing thread reach a volatile subscription in the order in which they were published.
import Rdb.Bus.History

/-!
# The order of one publisher

Sequence numbers are taken under the bus lock and envelopes are pushed outside of it,
so the pushes of two publishers may overtake each other. Those of one thread do not:
it pushes one envelope before it publishes the next. What a thread is to push into a
queue is, in order, what it has pushed and what it still has to push.
-/

namespace Rdb

variable {ι τ π η : Type*}

/-- The envelope of a live push of thread `t`. -/
def SubEvent.pushedBy [DecidableEq ι] (t : ι) : SubEvent ι π → List (Envelope π)
  | .pushed (some q) env _ _ => if q = t then [env] else []
  | _ => []

/-- The envelope the call still has to push into the queue of `sid`. -/
def Call.live (sid : SubId) : Call τ π η → List (Envelope π)
  | .fanout f => if sid ∈ f.targets then [f.env] else []
  | _ => []

namespace TopicBus

section Readers

variable [DecidableEq ι] (t : ι)

end Readers

/-! ## Each thread works off what it offers -/

section Offers

variable [DecidableEq ι] {s s' : BusState ι τ π η} {a : BusAction ι τ π η}
  {evs tr : List (BusEvent ι π η)}

end Offers

/-! ## What a volatile subscription is offered -/

section Volatile

variable [DecidableEq ι] {s s' : BusState ι τ π η} {a : BusAction ι τ π η}
  {evs tr : List (BusEvent ι π η)}

/-- Every publish has its targets among the subscriptions of its topic. -/
def TargetsOk (tr : List (BusEvent ι π η)) (s : BusState ι τ π η) : Prop :=
  ∀ topic, ∀ x ∈ publications topic tr, ∀ sid ∈ x.targets,
    ∃ sub, s.subs sid = some sub ∧ sub.topic = topic

theorem TargetsOk.step (h : TargetsOk tr s) (wf : WF s) (ht : Transition s a evs s') :
    TargetsOk (tr ++ evs) s' := by
  intro topic x hx sid hsid
  rw [publications_append, List.mem_append] at hx
  have hold : ∃ sub, s.subs sid = some sub ∧ sub.topic = topic := by
    rcases hx with hx | hx
    · exact h topic x hx sid hsid
    · obtain ⟨type, payload, now, entry, -, hlook, -, -, -, htargets⟩ := ht.publication_inv wf hx
      rw [htargets] at hsid
      exact (wf.topics _ _ hlook).own (List.mem_filter.mp hsid).1
  obtain ⟨sub, hsub, htopic⟩ := hold
  obtain ⟨sub', hsub', htopic', -⟩ := (ht.subsStep wf).topic_eq hsub
  exact ⟨sub', hsub', htopic'.trans htopic⟩

/-- A volatile subscription is offered no history. -/
def NewsOnly (sid : SubId) (tr : List (BusEvent ι π η)) (s : BusState ι τ π η) : Prop :=
  ∀ sub, s.subs sid = some sub → sub.qos.durability = .volatile → ∀ x ∈ inbox sid tr, x.1 = true

theorem NewsOnly.step {sid : SubId} (h : NewsOnly sid tr s) (hinbox : InboxOk sid tr s)
    (wf : WF s) (ht : Transition s a evs s') : NewsOnly sid (tr ++ evs) s' := by
  intro sub' hsub' hvol x hx
  rw [inbox_append, List.mem_append] at hx
  rcases hx with hx | hx
  · -- what was offered before was offered to the same subscription
    cases hsub : s.subs sid with
    | none => rw [hinbox.fresh hsub] at hx; cases hx
    | some sub =>
        obtain ⟨sub'', hsub'', -, hqos⟩ := (ht.subsStep wf).topic_eq hsub
        cases Option.some.inj (hsub'.symm.trans hsub'')
        exact h sub hsub (hqos ▸ hvol) x hx
  · cases ht.offerStep wf sid with
    | none hnil => rw [hnil] at hx; cases hx
    | news _ hone => rw [hone] at hx; rw [List.mem_singleton.mp hx]
    | @history p topic type qos backlog _ _ _ hnew hbacklog hone =>
        cases Option.some.inj (hsub'.symm.trans hnew)
        have hqos : qos.durability = .volatile := hvol
        rw [hone, hbacklog, if_neg (by simp [hqos])] at hx
        cases hx

end Volatile

/-! ## In the order of publishing -/

section Order

variable [DecidableEq ι] {l : List (SubEvent ι π)} {t : ι} {F : Envelope π → Bool}

variable [Fintype ι] [DecidableEq τ] {s : BusState ι τ π η} {tr : List (BusEvent ι π η)}
  {as : List (BusAction ι τ π η)} {sid : SubId} {sub : Subscription τ π}

end Order

end TopicBus

end Rdb
