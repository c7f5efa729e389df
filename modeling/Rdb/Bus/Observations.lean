-- SUMMARY: What the answers of `stats()` and `wait_for_idle()` say about the bus, however it went on meanwhile.
import Rdb.Bus.Observers

/-!
# Observations of the bus

No counter of a subscription goes back, so each field that `stats()` returns lies between
its values at the call and at the return, and so does their sum. The queues that
`wait_for_idle` asks were empty at different moments; whatever was in one of them when the
scan began has left it by then, and nothing comes in after that moment unless a publish was
already past the lock.
-/

namespace Rdb

namespace TopicBus

variable {κ ι τ π η : Type*}

/-- The action starts `stats()` of `k`, or a round of its `wait_for_idle`. -/
def ObservedAction.begins [DecidableEq κ] (k : κ) : ObservedAction κ ι τ π η → Bool
  | .stats k' _ | .scan k' _ => decide (k' = k)
  | _ => false

/-! ## What a subscription keeps -/

section Keeps

variable [DecidableEq ι] [DecidableEq τ] {s₀ s : BusState ι τ π η} {sid : SubId}
  {as : List (BusAction ι τ π η)} {tr₀ tr : List (BusEvent ι π η)} {sub₀ : Subscription τ π}

/-- What every step of a subscription keeps holds after a run of the bus. -/
theorem Accounted.keeps (hacc : Accounted tr₀ s₀) (hsub₀ : s₀.subs sid = some sub₀)
    {P : List (SubEvent ι π) → Subscription τ π → Prop} (hinit : P [] sub₀)
    (hstep : ∀ {l evs sub sub'}, P l sub → sub.Step evs sub' → P (l ++ evs) sub')
    (hrun : (machine ι τ π η).Run s₀ as tr s) :
    Accounted (tr₀ ++ tr) s ∧ ∃ sub, s.subs sid = some sub ∧ P (ledger sid tr) sub := by
  refine Machine.Run.invariant (I := fun tr s => Accounted (tr₀ ++ tr) s ∧
    ∃ sub, s.subs sid = some sub ∧ P (ledger sid tr) sub) hrun
    ⟨by rwa [List.append_nil], sub₀, hsub₀, hinit⟩ ?_
  rintro tr₁ s₁ a s₂ evs ⟨hacc₁, sub, hsub, hP⟩ hs
  have ht := step_transition hs
  obtain ⟨sub', hsub', hlocal⟩ := (ht.subsStep hacc₁.wf).old hsub
  refine ⟨?_, sub', hsub', ?_⟩
  · rw [← List.append_assoc]
    exact hacc₁.step ht
  · rw [ledger_append]
    exact hstep hP hlocal

/-- Nothing enters a queue after it has been closed. -/
theorem Accounted.accepted_of_closed (hacc : Accounted tr₀ s₀) (hsub₀ : s₀.subs sid = some sub₀)
    (hclosed : sub₀.queue.closed = true) (hrun : (machine ι τ π η).Run s₀ as tr s) :
    Ledger.accepted (ledger sid (tr₀ ++ tr)) = Ledger.accepted (ledger sid tr₀) := by
  obtain ⟨-, -, -, -, hnil⟩ := hacc.keeps hsub₀
    (P := fun l sub => sub.queue.closed = true ∧ Ledger.accepted l = []) ⟨hclosed, rfl⟩
    (fun ⟨hc, hl⟩ hs => by
      obtain ⟨hc', hevs⟩ := hs.accepted_of_closed hc
      exact ⟨hc', by rw [Ledger.accepted_append, hl, hevs, List.append_nil]⟩) hrun
  rw [ledger_append, Ledger.accepted_append, hnil, List.append_nil]

end Keeps

/-! ## The answer of `stats()` -/

section Stats

variable [DecidableEq κ] [Fintype κ] [DecidableEq ι] [DecidableEq τ]
  {w w' w₁ w₂ w₃ w₄ : Observed κ ι τ π η} {a : ObservedAction κ ι τ π η}
  {as₁ as₂ : List (ObservedAction κ ι τ π η)} {evs tr₀ tr tr₁ tr₂ : List (ObservedEvent κ ι π η)}
  {k : κ} {sid : SubId} {sub₁ : Subscription τ π} {st : SubscriberStats}

/-- What is known while `k` is in `stats()` of `sid`, which it called when the record was
    `sub₁`: the fields loaded so far lie between that record and the present one. -/
structure Loading (k : κ) (sid : SubId) (sub₁ : Subscription τ π)
    (tr : List (ObservedEvent κ ι π η)) (w : Observed κ ι τ π η) : Prop where
  accounted : Accounted (busEvents tr) w.bus
  record : ∃ sub, w.bus.subs sid = some sub ∧ (∀ f, sub₁.stat f ≤ sub.stat f) ∧
    ∀ {i st rest}, w.observers k = .loading i st rest →
      i = sid ∧ ∀ f, f ∉ rest → sub₁.stat f ≤ st.get f ∧ st.get f ≤ sub.stat f

theorem Loading.step (h : Loading k sid sub₁ tr w) (ha : a.begins k = false)
    (hstep : observedStep w a = some (w', evs)) : Loading k sid sub₁ (tr ++ evs) w' := by
  obtain ⟨sub, hsub, hle, hloaded⟩ := h.record
  have ht := observedStep_transition hstep
  have hacc : Accounted (busEvents (tr ++ evs)) w'.bus := by
    rw [busEvents_append]
    rcases ht.bus_inv with ⟨b, evs', -, hb, rfl, -, -⟩ | ⟨hbus, hevs⟩
    · rw [busEvents_map]
      exact h.accounted.step (step_transition hb)
    · rw [hbus, hevs, List.append_nil]
      exact h.accounted
  refine ⟨hacc, ?_⟩
  -- an observer that is not loading, and the others
  have hturn : ∀ {k' o}, (∀ i st rest, o ≠ .loading i st rest) ∨ k ≠ k' →
      ∀ {i st rest}, (w.turn k' o).observers k = .loading i st rest →
        i = sid ∧ ∀ f, f ∉ rest → sub₁.stat f ≤ st.get f ∧ st.get f ≤ sub.stat f := by
    intro k' o ho i st rest hk
    by_cases hkk : k = k'
    · subst hkk
      rw [Observed.turn_self] at hk
      exact absurd hk (ho.resolve_right (fun hne => hne rfl) i st rest)
    · rw [w.turn_of_ne hkk] at hk
      exact hloaded hk
  cases ht with
  | @bus b s' bevs _ hb =>
      obtain ⟨sub', hsub', hlocal⟩ := ((step_transition hb).subsStep h.accounted.wf).old hsub
      refine ⟨sub', hsub', fun f => (hle f).trans (hlocal.stat_le f), fun hk => ?_⟩
      obtain ⟨rfl, hf⟩ := hloaded hk
      exact ⟨rfl, fun f hmem => ⟨(hf f hmem).1, (hf f hmem).2.trans (hlocal.stat_le f)⟩⟩
  | noHandle => exact ⟨sub, hsub, hle, hloaded⟩
  | stats => exact ⟨sub, hsub, hle, hturn (.inr (Ne.symm (of_decide_eq_false ha)))⟩
  | @load k' i sub' st f rest hk hsub' hrest =>
      by_cases hkk : k = k'
      · subst hkk
        obtain ⟨rfl, hf⟩ := hloaded hk
        cases Option.some.inj (hsub.symm.trans hsub')
        refine ⟨sub, hsub, hle, fun hk' => ?_⟩
        rw [Observed.turn_self] at hk'
        obtain ⟨rfl, rfl, rfl⟩ := Observer.loading.inj hk'
        refine ⟨rfl, fun g hg => ?_⟩
        by_cases hgf : g = f
        · subst hgf
          rw [SubscriberStats.get_set_self]
          exact ⟨hle g, le_rfl⟩
        · rw [SubscriberStats.get_set_of_ne _ hgf]
          exact hf g (by simp [hgf, hg])
      · exact ⟨sub, hsub, hle, hturn (.inr hkk)⟩
  | lastLoad | waitForIdle | scan | lookEmpty | lookBusy | unlock | giveUp | again =>
      exact ⟨sub, hsub, hle, hturn (.inl (by simp))⟩

/-- Every field that `stats()` returns lies between its values at the call and at the
    return. -/
theorem stats_between (h₁ : (observed κ ι τ π η).Run .init as₁ tr₁ w₁)
    (hcall : (observed κ ι τ π η).step w₁ (.stats k (some sid)) = some (w₂, evs))
    (h₂ : (observed κ ι τ π η).RunIf (fun _ _ a => a.begins k = false) w₂ as₂ tr₂ w₃)
    (hret : (observed κ ι τ π η).step w₃ (.load k) = some (w₄, [.stats k st])) :
    ∃ sub₁ sub₂, w₁.bus.subs sid = some sub₁ ∧ w₄.bus.subs sid = some sub₂ ∧
      Accounted (busEvents tr₁) w₁.bus ∧
      (∃ bs, (machine ι τ π η).Run w₁.bus bs (busEvents tr₂) w₄.bus) ∧
      ∀ f, sub₁.stat f ≤ st.get f ∧ st.get f ≤ sub₂.stat f := by
  obtain ⟨bs, hrun⟩ := observed_bus_run h₁
  have hacc := accounted_of_run bare_empty hrun
  have hcall : ObservedTransition w₁ (.stats k (some sid)) evs w₂ := observedStep_transition hcall
  cases hcall with
  | @stats _ _ sub₁ hidle hsub₁ =>
      have hstart : Loading k sid sub₁ tr₁ (w₁.turn k (.loading sid {} StatsField.all)) := by
        refine ⟨hacc, sub₁, hsub₁, fun f => le_rfl, fun hk => ?_⟩
        rw [Observed.turn_self] at hk
        obtain ⟨rfl, rfl, rfl⟩ := Observer.loading.inj hk
        exact ⟨rfl, fun f hf => absurd f.mem_all hf⟩
      have hrun₂ := observed_bus_run h₂.toRun
      have hend : Loading k sid sub₁ (tr₁ ++ tr₂) w₃ :=
        h₂.invariant (I := fun tr w => Loading k sid sub₁ (tr₁ ++ tr) w)
          (by rwa [List.append_nil]) fun hI hb hs => by
            rw [← List.append_assoc]
            exact hI.step hb hs
      obtain ⟨sub₂, hsub₂, hle, hloaded⟩ := hend.record
      have hret : ObservedTransition w₃ (.load k) [.stats k st] w₄ := observedStep_transition hret
      generalize hevs : [ObservedEvent.stats k st] = evs' at hret
      cases hret with
      | load => cases hevs
      | @lastLoad _ i sub st₀ f hk hsub =>
          obtain ⟨rfl, hf⟩ := hloaded hk
          cases Option.some.inj (hsub₂.symm.trans hsub)
          obtain ⟨-, rfl⟩ := ObservedEvent.stats.inj (List.singleton_inj.mp hevs)
          refine ⟨sub₁, sub₂, hsub₁, hsub₂, hacc, hrun₂, fun g => ?_⟩
          by_cases hgf : g = f
          · subst hgf
            rw [SubscriberStats.get_set_self]
            exact ⟨hle g, le_rfl⟩
          · rw [SubscriberStats.get_set_of_ne _ hgf]
            exact hf g (by simpa using hgf)

/-- **What `stats()` returns.** Whatever publishers and workers do during the call, each
    field lies between its values at the call and at the return. Delivered, expired and
    dropped together are at least what had been settled or evicted at the call, and at most
    what had been accepted at the return; once the worker has left its loop they are
    exactly what was accepted. -/
theorem stats_coherent (h₁ : (observed κ ι τ π η).Run .init as₁ tr₁ w₁)
    (hcall : (observed κ ι τ π η).step w₁ (.stats k (some sid)) = some (w₂, evs))
    (h₂ : (observed κ ι τ π η).RunIf (fun _ _ a => a.begins k = false) w₂ as₂ tr₂ w₃)
    (hret : (observed κ ι τ π η).step w₃ (.load k) = some (w₄, [.stats k st])) :
    ∃ sub₁ sub₂, w₁.bus.subs sid = some sub₁ ∧ w₄.bus.subs sid = some sub₂ ∧
      (∀ f, sub₁.stat f ≤ st.get f ∧ st.get f ≤ sub₂.stat f) ∧
      (Ledger.settled (ledger sid (busEvents tr₁))).length +
          (Ledger.evicted (ledger sid (busEvents tr₁))).length ≤
        st.delivered + st.expired + st.dropped ∧
      st.delivered + st.expired + st.dropped ≤
        (Ledger.accepted (ledger sid (busEvents (tr₁ ++ tr₂)))).length ∧
      (sub₁.worker = .exited → st.delivered + st.expired + st.dropped =
        (Ledger.accepted (ledger sid (busEvents tr₁))).length) := by
  obtain ⟨sub₁, sub₂, hsub₁, hsub₂, hacc, ⟨bs, hrun⟩, hfields⟩ := stats_between h₁ hcall h₂ hret
  have hacc₁ := hacc.old hsub₁
  have hacc₂ : sub₂.Accounted (ledger sid (busEvents (tr₁ ++ tr₂))) := by
    obtain ⟨hacc', sub, hsub, -⟩ := hacc.keeps hsub₁ (P := fun _ _ => True) trivial
      (fun _ _ => trivial) hrun
    cases Option.some.inj (hsub₂.symm.trans hsub)
    rw [busEvents_append]
    exact hacc'.old hsub₂
  have hdelivered := hfields .delivered
  have hexpired := hfields .expired
  have hdropped := hfields .dropped
  simp only [Subscription.stat, SubscriberStats.get] at hdelivered hexpired hdropped
  have hsettled := (Ledger.settled_perm (ledger sid (busEvents tr₁))).length_eq
  rw [List.length_append, ← hacc₁.delivered_eq, ← hacc₁.expired_eq] at hsettled
  have hevicted := hacc₁.dropped_eq
  have htotal₁ := hacc₁.length_accepted
  have htotal₂ := hacc₂.length_accepted
  refine ⟨sub₁, sub₂, hsub₁, hsub₂, hfields, by omega, by omega, fun hw => ?_⟩
  obtain ⟨hitems, hclosed⟩ := hacc₁.exited hw
  have hsame : Ledger.accepted (ledger sid (busEvents (tr₁ ++ tr₂))) =
      Ledger.accepted (ledger sid (busEvents tr₁)) := by
    rw [busEvents_append]
    exact hacc.accepted_of_closed hsub₁ hclosed hrun
  rw [hsame] at htotal₂
  rw [BoundedQueue.size, hitems, hw] at htotal₁
  simp only [List.length_nil, Worker.held] at htotal₁
  omega

/-- The worker delivers one envelope, and another one is evicted, between two loads. -/
theorem stats_coherent_torn :
    ∃ as tr w st, (observed Unit (Fin 2) Unit Nat Unit).Run .init as (tr ++ [.stats () st]) w ∧
      (Ledger.settled (ledger 5 (busEvents tr))).length = 1 ∧ st = ⟨0, 1, 0, 0, 0, 1⟩ ∧
      st.delivered + st.expired + st.dropped ≤
        (Ledger.accepted (ledger 5 (busEvents tr))).length := by
  have h₁ := Machine.Run.of_isSome (observed Unit (Fin 2) Unit Nat Unit) .init
    [.bus (.subscribe 1 "map" () (.sensorData 1) 5), .bus (.spawn 1 5), .bus (.assign 1 5),
      .bus (.publish 0 "map" () (.sensorData 1) 7 0), .bus (.publishLock 0), .bus (.push 0 5 0),
      .bus (.publishReturn 0)] (by decide)
  have hcall := h₁.step_of_isSome (.stats () (some 5)) (by decide)
  have h₂ := Machine.RunIf.of_isSome_after hcall (fun _ _ a => a.begins () = false)
    [.load (), .bus (.workerPop 5), .bus (.workerDeliver 5 1), .bus (.workerFinish 5),
      .bus (.publish 0 "map" () (.sensorData 1) 8 0), .bus (.publishLock 0), .bus (.push 0 5 0),
      .bus (.publishReturn 0), .bus (.publish 0 "map" () (.sensorData 1) 9 0),
      .bus (.publishLock 0), .bus (.push 0 5 0), .load (), .load (), .load (), .load ()]
    (by decide)
  have hret := h₂.toRun.step_of_isSome (.load ()) (by decide)
  obtain ⟨sub₁, sub₂, -, -, -, -, hle, -⟩ := stats_coherent h₁ hcall h₂ hret
  exact ⟨_, _, _, _, ((h₁.snoc hcall).append h₂.toRun).snoc hret, by decide, by decide, hle⟩

end Stats

/-! ## The answer of `wait_for_idle()` -/

/-- No call has anything left to push into the queue of `sid`. -/
def NoPending (s : BusState ι τ π η) (sid : SubId) : Prop := ∀ p, (s.threads p).pending sid = []

section Shared

variable [DecidableEq ι] {s s' : BusState ι τ π η} {a : BusAction ι τ π η}
  {evs : List (BusEvent ι π η)} {sid : SubId}

/-- Without the lock held exclusively, no topic changes and nobody is given anything to
    push. -/
theorem Transition.of_shared (ht : Transition s a evs s') (ha : a.exclusive = false) :
    s'.topics = s.topics ∧ ∀ sid, inbox sid evs = [] := by
  cases ht with
  | advertise | setHandler | conflict | subscribe | publishFailed | published | unsubscribe
  | shutdown => cases ha
  | setTimeout | pushBacklog | spawn | assign | publish | pushSleep | pushReturn | publishReturn
  | stopClose | stopJoinable | stopSkip | stopJoin | stopReturn => exact ⟨rfl, fun _ => rfl⟩
  | report => exact ⟨rfl, fun _ => (readers_of_report _ _ _ _ _).1⟩
  | worker => exact ⟨rfl, (readers_of_sub (by simp)).2.1⟩

/-- As long as nobody is given anything to push, nothing is pushed. -/
theorem NoPending.step (h : NoPending s sid) (hs : PendingStep sid s a evs s')
    (hinbox : inbox sid evs = []) :
    NoPending s' sid ∧ Ledger.attempts (ledger sid evs) = [] := by
  cases hs with
  | quiet hthreads hatt => exact ⟨fun p => by rw [hthreads]; exact h p, hatt⟩
  | @offer p c hthreads hatt heq =>
      rw [h p, hinbox] at heq
      refine ⟨fun q => ?_, hatt⟩
      rw [hthreads]
      exact ThreadSum.update_of (P := fun c => Call.pending sid c = []) (fun _ => h q)
        fun _ => heq.symm
  | @history p env rest hp =>
      have hnil := h p
      simp [hp, Call.pending] at hnil
  | @live p f c now _ hp hmem =>
      have hnil := h p
      simp [hp, Call.pending, hmem] at hnil

omit [DecidableEq ι] in
theorem accepted_of_attempts {l : List (SubEvent ι π)} (h : Ledger.attempts l = []) :
    Ledger.accepted l = [] := by
  have hsub := Ledger.accepted_sublist_attempts l
  rw [h] at hsub
  exact List.sublist_nil.mp hsub

end Shared

section Wait

variable [DecidableEq κ] [Fintype κ] [DecidableEq ι] [DecidableEq τ]
  {w w' w₁ w₂ w₃ w₄ : Observed κ ι τ π η} {a : ObservedAction κ ι τ π η}
  {as₁ as₂ : List (ObservedAction κ ι τ π η)} {evs tr tr₁ tr₂ : List (ObservedEvent κ ι π η)}
  {k : κ} {all : List SubId}

/-- What is known while `k` scans, since it took the lock in the state `s₁` with the
    history `past`. -/
structure Scanning (k : κ) (s₁ : BusState ι τ π η) (past : List (BusEvent ι π η))
    (all : List SubId) (tr : List (BusEvent ι π η)) (w : Observed κ ι τ π η) : Prop where
  accounted : Accounted (past ++ tr) w.bus
  topics : ∀ {d rest}, w.observers k = .scanning d rest → w.bus.topics = s₁.topics
  /-- the queues asked so far have lost what they had -/
  left : ∀ {d rest}, w.observers k = .scanning d rest → ∀ sid ∈ all, sid ∉ rest →
    Ledger.accepted (ledger sid past) <+: Ledger.left (ledger sid (past ++ tr))
  /-- and are empty if nobody was past the lock -/
  empty : ∀ {d rest}, w.observers k = .scanning d rest → ∀ sid ∈ all, NoPending s₁ sid →
    NoPending w.bus sid ∧
      (sid ∉ rest → ∃ sub, w.bus.subs sid = some sub ∧ sub.queue.items = [])

variable {s₁ : BusState ι τ π η} {past btr bevs : List (BusEvent ι π η)}

omit [DecidableEq κ] [Fintype κ] in
/-- A step of the bus. -/
theorem Scanning.bus {b : BusAction ι τ π η} {s' : BusState ι τ π η}
    (h : Scanning k s₁ past all btr w) (hb : step w.bus b = some (s', bevs))
    (hlock : b.exclusive = true → ∀ k, (w.observers k).locks = false) :
    Scanning k s₁ past all (btr ++ bevs) { w with bus := s' } := by
  have ht := step_transition hb
  have hacc := h.accounted
  have hshared : ∀ {d rest}, w.observers k = .scanning d rest → b.exclusive = false := by
    intro d rest hk
    by_contra hex
    have hnot := hlock (Bool.eq_true_of_not_eq_false hex) k
    rw [hk] at hnot
    cases hnot
  refine ⟨?_, fun hk => ?_, fun hk sid hsid hrest => ?_, fun hk sid hsid hnone => ?_⟩
  · rw [← List.append_assoc]
    exact hacc.step ht
  · exact (ht.of_shared (hshared hk)).1.trans (h.topics hk)
  · refine (h.left hk sid hsid hrest).trans ?_
    rw [← List.append_assoc, ledger_append sid _ bevs, Ledger.left_append]
    exact List.prefix_append _ _
  · obtain ⟨hpending, hempty⟩ := h.empty hk sid hsid hnone
    obtain ⟨hpending', hatt⟩ := hpending.step (ht.pendingStep hacc.wf sid)
      ((ht.of_shared (hshared hk)).2 sid)
    refine ⟨hpending', fun hrest => ?_⟩
    obtain ⟨sub, hsub, hitems⟩ := hempty hrest
    obtain ⟨sub', hsub', hlocal⟩ := (ht.subsStep hacc.wf).old hsub
    refine ⟨sub', hsub', ?_⟩
    have hfifo := hlocal.fifo
    rw [hitems, accepted_of_attempts hatt] at hfifo
    exact (List.append_eq_nil_iff.mp hfifo.symm).2

omit [Fintype κ] [DecidableEq ι] [DecidableEq τ] in
/-- An observer goes on. -/
theorem Scanning.turn {k' : κ} {o : Observer} (h : Scanning k s₁ past all btr w)
    (ho : k ≠ k' ∨ ∀ d rest, o ≠ .scanning d rest) :
    Scanning k s₁ past all btr (w.turn k' o) := by
  have hk : ∀ {d rest}, (w.turn k' o).observers k = .scanning d rest →
      w.observers k = .scanning d rest := by
    intro d rest hk
    by_cases hkk : k = k'
    · subst hkk
      rw [Observed.turn_self] at hk
      exact absurd hk (ho.resolve_left (fun hne => hne rfl) d rest)
    · rwa [w.turn_of_ne hkk] at hk
  exact ⟨h.accounted, fun h' => h.topics (hk h'), fun h' => h.left (hk h'),
    fun h' => h.empty (hk h')⟩

omit [Fintype κ] [DecidableEq ι] [DecidableEq τ] in
/-- The next queue is empty. -/
theorem Scanning.look {d : TimePoint} {sid : SubId} {rest : List SubId} {sub : Subscription τ π}
    (h : Scanning k s₁ past all btr w) (hk : w.observers k = .scanning d (sid :: rest))
    (hsub : w.bus.subs sid = some sub) (hitems : sub.queue.items = []) :
    Scanning k s₁ past all btr (w.turn k (.scanning d rest)) := by
  have hturn : ∀ {d' rest'}, (w.turn k (.scanning d rest)).observers k = .scanning d' rest' →
      rest' = rest := by
    intro d' rest' hk'
    rw [Observed.turn_self] at hk'
    exact (Observer.scanning.inj hk').2.symm
  refine ⟨h.accounted, fun _ => h.topics hk, fun hk' i hi hrest => ?_, fun hk' i hi hnone => ?_⟩
  · rw [hturn hk'] at hrest
    by_cases his : i = sid
    · subst his
      -- what is in an empty queue's history has left it
      have hfifo := (h.accounted.old hsub).fifo
      rw [hitems, List.append_nil] at hfifo
      rw [← hfifo, ledger_append, Ledger.accepted_append]
      exact List.prefix_append _ _
    · exact h.left hk i hi (by simp [his, hrest])
  · obtain ⟨hpending, hempty⟩ := h.empty hk i hi hnone
    refine ⟨hpending, fun hrest => ?_⟩
    rw [hturn hk'] at hrest
    by_cases his : i = sid
    · subst his
      exact ⟨sub, hsub, hitems⟩
    · exact hempty (by simp [his, hrest])

theorem Scanning.step (h : Scanning k s₁ past all (busEvents tr) w) (ha : a.begins k = false)
    (hstep : observedStep w a = some (w', evs)) :
    Scanning k s₁ past all (busEvents (tr ++ evs)) w' := by
  have ht := observedStep_transition hstep
  rw [busEvents_append]
  cases ht with
  | bus hlock hb =>
      rw [busEvents_map]
      exact h.bus hb hlock
  | noHandle => rwa [show busEvents [ObservedEvent.stats _ _] = [] from rfl, List.append_nil]
  | @lookEmpty k' d sid rest sub hk hsub hitems =>
      rw [show busEvents [] = [] from rfl, List.append_nil]
      by_cases hkk : k = k'
      · subst hkk
        exact h.look hk hsub hitems
      · exact h.turn (.inl hkk)
  | scan =>
      rw [show busEvents [] = [] from rfl, List.append_nil]
      exact h.turn (.inl (Ne.symm (of_decide_eq_false ha)))
  | lastLoad | unlock | giveUp =>
      rw [show busEvents [_] = [] from rfl, List.append_nil]
      exact h.turn (.inr (by simp))
  | stats | load | waitForIdle | lookBusy | again =>
      rw [show busEvents [] = [] from rfl, List.append_nil]
      exact h.turn (.inr (by simp))

end Wait

end TopicBus

end Rdb
