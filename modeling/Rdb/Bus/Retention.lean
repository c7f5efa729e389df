-- SUMMARY: What the shared history of a topic keeps of each publisher.
import Rdb.Lib.Window
import Rdb.Bus.History

/-!
# Retention

All publishers of a topic share one history, and every `TransientLocal` publish cuts
it down to its own depth. The history is therefore a sliding window over the
`TransientLocal` publications of the topic, and what a publisher is promised, its own
last `depth` messages, is kept exactly when no publish since cut deeper than that.
-/

namespace Rdb

namespace TopicBus

variable {ι τ π η κ : Type*}

/-! ## The history is a window -/

/-- The publications that go into the history. -/
def latching (topic : String) (tr : List (BusEvent ι π η)) : List (Publication ι π) :=
  (publications topic tr).filter fun x => x.qos.durability = .transientLocal

/-- What a publication does to the history. -/
def relatch (latched : List (Envelope π)) (x : Publication ι π) : List (Envelope π) :=
  latch x.qos latched x.env

theorem trim_eq_rtake (depth : Nat) (latched : List (Envelope π)) :
    trim depth latched = latched.rtake depth := by
  induction latched with
  | nil => rw [trim, List.rtake_nil]
  | cons env latched ih =>
      unfold trim
      split
      · rename_i hlong
        have hlen : (env :: latched).length - depth = latched.length - depth + 1 := by
          rw [List.length_cons] at hlong ⊢
          omega
        rw [ih, List.rtake, List.rtake, hlen, List.drop_succ_cons]
      · rename_i hshort
        rw [List.rtake, Nat.sub_eq_zero_of_le (Nat.le_of_not_gt hshort), List.drop_zero]

theorem foldl_relatch (xs : List (Publication ι π)) :
    xs.foldl relatch [] = Window.window
      ((xs.filter fun x => x.qos.durability = .transientLocal).map
        fun x => (x.qos.depth, x.env)) := by
  induction xs using List.reverseRecOn with
  | nil => rfl
  | append_singleton xs x ih =>
      rw [List.foldl_append, ih, List.filter_append, List.map_append]
      by_cases hx : x.qos.durability = .transientLocal
      · simp [hx, Window.window_snoc, relatch, latch, trim_eq_rtake]
      -- a volatile publish leaves no trace
      · simp [hx, relatch, latch]

section Step

variable [DecidableEq ι] {s s' : BusState ι τ π η} {a : BusAction ι τ π η}
  {evs tr : List (BusEvent ι π η)} {as : List (BusAction ι τ π η)} {topic : String}

/-- Only a publish and `shutdown` touch the history. -/
theorem Transition.latched_eq (ht : Transition s a evs s') (ha : ∀ p all, a ≠ .shutdown p all)
    (topic : String) :
    latchedOf s'.topics topic =
      (publications topic evs).foldl relatch (latchedOf s.topics topic) := by
  cases ht with
  | advertise | conflict => exact latchedOf_ensureTopic _
  | setHandler | setTimeout | publish | publishFailed | pushSleep | publishReturn
  | stopClose | stopJoinable | stopSkip | stopJoin | stopReturn | pushBacklog | spawn | assign
  | pushReturn => rfl
  | @subscribe p t type qos sid entry hp hsid hentry htype =>
      have hlook := lookup_ensureTopic_self s.topics t type
      rw [hentry] at hlook
      exact (history_insert hlook (entry.subs ++ [sid]) topic).2.trans (latchedOf_ensureTopic _)
  | @published p t type qos payload now entry env m hp hlook htype henv hm =>
      rw [(readers_of_published hm (.published p t env qos entry.subs m.targets)).1 topic]
      by_cases h : topic = t
      · subst h
        simp [publications, BusEvent.publication, latchedOf, hlook, relatch]
      · simp [publications, BusEvent.publication, latchedOf, h, Ne.symm h]
  | @report p f _ m _ =>
      have hnil :
          publications topic (f.handler.toList.map (BusEvent.reported (π := π) p f.topic m)) =
          [] := by
        simp [publications, BusEvent.publication]
      rw [hnil]
      rfl
  | unsubscribe => exact history_unregister.2
  | shutdown => exact absurd rfl (ha _ _)
  | worker =>
      rw [(readers_of_sub (by simp)).1 topic]
      rfl

theorem historyOk_of_run [DecidableEq τ] (h : (machine ι τ π η).Run init as tr s)
    (topic : String) : HistoryOk topic tr s :=
  h.invariant ⟨.nil, by simp [publications], by simp [latchedOf, init, ofTopics]⟩
    fun hI hstep => hI.step ((step_transition hstep).historyStep topic)

omit [DecidableEq ι] in
theorem HistoryOk.latched_increasing (h : HistoryOk topic tr s) :
    (latchedOf s.topics topic).Pairwise fun x y => x.seq < y.seq := by
  have henvs : ((publications topic tr).map Publication.env).Pairwise
      fun x y => x.seq < y.seq := List.pairwise_map.mpr h.increasing
  exact henvs.sublist h.latched

/-- The history of a run without `shutdown`. -/
theorem latched_eq_window [DecidableEq τ] (h : (machine ι τ π η).Run init as tr s)
    (hno : ∀ p all, .shutdown p all ∉ as) :
    latchedOf s.topics topic =
      Window.window ((latching topic tr).map fun x => (x.qos.depth, x.env)) := by
  rw [latching, ← foldl_relatch]
  have hguard := h.guarded (D := fun a => ∀ p all, a ≠ .shutdown p all)
    fun a ha p all => ne_of_mem_of_not_mem ha (hno p all)
  refine hguard.invariant
    (I := fun tr s => latchedOf s.topics topic = (publications topic tr).foldl relatch []) rfl ?_
  intro tr s a s' evs hold ha hstep
  rw [(step_transition hstep).latched_eq ha, hold, publications_append, List.foldl_append]

end Step

/-! ## What a publisher is promised -/

section Promise

variable [DecidableEq κ]

/-- The last messages of the publisher `k`, as many as its depth. -/
def owed (publisherOf : Publication ι π → κ) (qosOf : κ → QoS) (topic : String)
    (tr : List (BusEvent ι π η)) (k : κ) : List (Publication ι π) :=
  ((publications topic tr).filter fun x => publisherOf x = k).rtake (qosOf k).depth

/-- The history has what every `TransientLocal` publisher is promised, in order. -/
structure KeepsOwnHistory (publisherOf : Publication ι π → κ) (qosOf : κ → QoS) (topic : String)
    (tr : List (BusEvent ι π η)) (s : BusState ι τ π η) : Prop where
  own : ∀ k, (qosOf k).durability = .transientLocal →
    ∀ x ∈ owed publisherOf qosOf topic tr k, x.env ∈ latchedOf s.topics topic
  increasing : (latchedOf s.topics topic).Pairwise fun x y => x.seq < y.seq

/-- The depth of every publish reaches back to the messages before it that their
    publishers are promised. -/
def DepthsReach (publisherOf : Publication ι π → κ) (qosOf : κ → QoS) (topic : String)
    (tr : List (BusEvent ι π η)) : Prop :=
  ∀ (i j : Nat) (x y : Publication ι π), (latching topic tr)[i]? = some x →
    (latching topic tr)[j]? = some y → i ≤ j →
    x ∈ owed publisherOf qosOf topic tr (publisherOf x) → j - i < y.qos.depth

variable [DecidableEq ι] [DecidableEq τ] {s : BusState ι τ π η} {as : List (BusAction ι τ π η)}
  {tr : List (BusEvent ι π η)} {topic : String}

/-- Whether a `TransientLocal` message is still in the history. -/
theorem mem_latched_iff (h : (machine ι τ π η).Run init as tr s)
    (hno : ∀ p all, .shutdown p all ∉ as) {i : Nat} {x : Publication ι π}
    (hi : (latching topic tr)[i]? = some x) :
    x.env ∈ latchedOf s.topics topic ↔
      ∀ (j : Nat) (y : Publication ι π), (latching topic tr)[j]? = some y → i ≤ j →
        j - i < y.qos.depth := by
  have hincr := (historyOk_of_run h topic).increasing.sublist
    (List.filter_sublist : List.Sublist (latching topic tr) _)
  have hnodup : (((latching topic tr).map fun x => (x.qos.depth, x.env)).map Prod.snd).Nodup := by
    rw [List.map_map, List.Nodup, List.pairwise_map]
    refine hincr.imp fun {y z} hlt heq => ?_
    have hseq : y.env.seq = z.env.seq := congrArg Envelope.seq heq
    omega
  rw [latched_eq_window h hno]
  have hwin := Window.mem_window_iff hnodup (i := i) (d := (x.qos.depth, x.env)) (by simp [hi])
  refine hwin.trans ⟨fun hall j y hj => hall j (y.qos.depth, y.env) (by simp [hj]), ?_⟩
  intro hall j d hj
  rw [List.getElem?_map] at hj
  obtain ⟨y, hy, rfl⟩ := Option.map_eq_some_iff.mp hj
  exact hall j y hy

/-- Every publisher's own history is kept exactly when no publish cuts deeper than to
    the messages its publishers are promised. -/
theorem keeps_own_history_iff (h : (machine ι τ π η).Run init as tr s)
    (hno : ∀ p all, .shutdown p all ∉ as) (topic : String) (publisherOf : Publication ι π → κ)
    (qosOf : κ → QoS) (hqos : ∀ x ∈ publications topic tr, x.qos = qosOf (publisherOf x)) :
    KeepsOwnHistory publisherOf qosOf topic tr s ↔ DepthsReach publisherOf qosOf topic tr := by
  constructor
  · intro hkeep i j x y hi hj hij howed
    obtain ⟨hmem, htl⟩ := List.mem_filter.mp (List.mem_of_getElem? hi)
    have hdur : (qosOf (publisherOf x)).durability = .transientLocal :=
      hqos x hmem ▸ of_decide_eq_true htl
    exact (mem_latched_iff h hno hi).mp (hkeep.own _ hdur x howed) j y hj hij
  · intro hreach
    refine ⟨fun k hdur x howed => ?_, ?_⟩
    · obtain ⟨hmem, hk⟩ := List.mem_filter.mp (List.mem_of_mem_drop howed)
      obtain rfl := of_decide_eq_true hk
      have hlatching : x ∈ latching topic tr :=
        List.mem_filter.mpr ⟨hmem, decide_eq_true (hqos x hmem ▸ hdur)⟩
      obtain ⟨i, hi⟩ := List.mem_iff_getElem?.mp hlatching
      exact (mem_latched_iff h hno hi).mpr fun j y hj hij => hreach i j x y hi hj hij howed
    · exact (historyOk_of_run h topic).latched_increasing

/-- Two publishers of depth 2 with one message each: both messages are kept. -/
theorem keeps_own_history_iff_deep :
    ∃ as tr s, (machine (Fin 2) Unit Nat Unit).Run init as tr s ∧
      KeepsOwnHistory Publication.publisher (fun _ => .latched 2) "map" tr s := by
  obtain ⟨as, tr, s, hrun, hno, hqos, hlen⟩ :
      ∃ as tr s, (machine (Fin 2) Unit Nat Unit).Run init as tr s ∧
        (∀ p all, .shutdown p all ∉ as) ∧ (∀ x ∈ publications "map" tr, x.qos = .latched 2) ∧
        (latching "map" tr).length = 2 :=
    ⟨_, _, _, Machine.Run.of_isSome (machine (Fin 2) Unit Nat Unit) init
      [.advertise "map" (), .publish 0 "map" () (.latched 2) 7 0, .publishLock 0,
        .publishReturn 0, .publish 1 "map" () (.latched 2) 8 0, .publishLock 1,
        .publishReturn 1] (by decide), by simp, by decide, by decide⟩
  refine ⟨as, tr, s, hrun, (keeps_own_history_iff hrun hno "map" Publication.publisher
    (fun _ => .latched 2) hqos).mpr ?_⟩
  intro i j x y _ hj _ _
  obtain ⟨hlt, -⟩ := List.getElem?_eq_some_iff.mp hj
  have hdepth : y.qos.depth = 2 := by
    rw [hqos y (List.mem_of_mem_filter (List.mem_of_getElem? hj))]
    rfl
  omega

/-- Two publishers of depth 1 with one message each: the first message is lost. -/
theorem own_history_lost :
    ∃ as tr s, (machine (Fin 2) Unit Nat Unit).Run init as tr s ∧
      (∀ p all, .shutdown p all ∉ as) ∧
      (∀ x ∈ publications "map" tr, x.qos = .latched 1) ∧
      ¬ KeepsOwnHistory Publication.publisher (fun _ => .latched 1) "map" tr s := by
  have hrun := Machine.Run.of_isSome (machine (Fin 2) Unit Nat Unit) init
    [.advertise "map" (), .publish 0 "map" () (.latched 1) 7 0, .publishLock 0, .publishReturn 0,
      .publish 1 "map" () (.latched 1) 8 0, .publishLock 1, .publishReturn 1] (by decide)
  refine ⟨_, _, _, hrun, by simp, by decide, fun hkeep => ?_⟩
  exact absurd (hkeep.own 0 rfl _ List.mem_cons_self) (by decide)

end Promise

end TopicBus

end Rdb
