import Lthread.SchedMoves

namespace Lthread

open Function (update update_apply)

variable {m : ℕ} {s s' : State m} {i j : Fin (m + 1)} {t : ℕ} {clock : ℕ}
  {isOpen : ℕ → Bool} {l : Label m}

def PollerPc.inFlight : PollerPc → ℕ
  | .push _ _ _ _ _ | .account _ _ _ _ _ => 1
  | .poll | .desched _ _ _ _ => 0

structure State.Idle (s : State m) : Prop where
  ready : ∀ i, s.ready i = []
  held : ∀ i, (s.schedPc i).holds = none
  sleeping : ∀ i, s.sleeping i = []
  waiting : s.waiting = []
  poller : s.pollerPc.inFlight = 0

theorem nextEvent_inFlight (l : List KEvent) : (nextEvent l).inFlight = 0 := by
  cases l <;> rfl

theorem after_inFlight (ev : KEvent) (dir : Event) (lt : Option ℕ) (rest : List KEvent) :
    (PollerPc.after ev dir lt rest).inFlight = 0 := by
  cases dir
  · rfl
  · exact nextEvent_inFlight rest

theorem SchedPc.not_held_of_current (h : ltCurrent s i = some t) : (s.schedPc i).holds ≠ none := by
  obtain ⟨⟨r, hr⟩, -⟩ := ltCurrent_eq_some h
  simp [hr, SchedPc.holds]

theorem State.Idle.pass {p : SchedPc m} (h : s.Idle) (hp : p.holds = none)
    (hs : s'.schedPc = update s.schedPc i p) (hr : s'.ready = s.ready)
    (hsl : s'.sleeping = s.sleeping) (hw : s'.waiting = s.waiting)
    (hpo : s'.pollerPc = s.pollerPc) : s'.Idle where
  ready k := by rw [hr]; exact h.ready k
  held k := by
    rw [hs]
    by_cases hk : k = i
    · subst hk
      simpa using hp
    · simpa [hk] using h.held k
  sleeping k := by rw [hsl]; exact h.sleeping k
  waiting := by rw [hw]; exact h.waiting
  poller := by rw [hpo]; exact h.poller

theorem State.Idle.wake (h : s.Idle) : (schedWakeUnsafe s i).Idle where
  ready := h.ready
  held k := by rw [(schedWakeUnsafe_holds s i k).1]; exact h.held k
  sleeping := h.sleeping
  waiting := h.waiting
  poller := h.poller

theorem State.Idle.wakeNeighbor {next : SchedPc m} (h : s.Idle) (hn : next.holds = none)
    (hw : wakeNeighbor s i next = some s') : s'.Idle := by
  obtain ⟨-, rfl⟩ | ⟨-, -, rfl⟩ := wakeNeighbor_some hw
  · exact h.pass hn rfl rfl rfl rfl rfl
  · exact h.wake.pass hn rfl rfl rfl rfl rfl

theorem State.Idle.schedStep {b : Bool} (h : s.Idle) (hc : StepCase s (.sched i b) s') :
    s'.Idle := by
  have hi := h.held i
  cases hc with
  | clockRead hp | popEmpty hp _ => exact h.pass rfl rfl rfl rfl rfl rfl
  | expired hp h₁ =>
    simp only [scheduleExpired, h.sleeping i, List.length_nil, expireLoop] at h₁
    cases h₁
    exact h.pass rfl rfl rfl rfl rfl rfl
  | probeFail hp hq => exact h.pass (by obtain rfl | ⟨v, rfl⟩ := hq <;> rfl) rfl rfl rfl rfl rfl
  | pop hp hr hq =>
    rw [h.ready] at hr
    cases hr
  | wakeNeighbor hp h₁ | setSched hp | resume hp h₁ | leave hp h₁ =>
    rw [hp] at hi
    cases hi
  | block hp h₁ =>
    obtain ⟨-, rfl⟩ | ⟨-, -, -, -, rfl⟩ | ⟨-, timeout, rfl⟩ := schedBlock_ok h₁ <;>
      exact h.pass rfl rfl rfl rfl rfl rfl
  | deepSleep hp =>
    obtain ⟨-, hs⟩ | ⟨-, hs⟩ := schedDeepSleep_cases s i <;> rw [hs] <;>
      exact h.pass rfl rfl rfl rfl rfl rfl
  | finish hp h₁ => exact h.wakeNeighbor rfl h₁

theorem State.Idle.step (h : s.Idle) (hc : StepCase s l s') : s'.Idle := by
  have hpo := h.poller
  cases l with
  | sched i b => exact h.schedStep hc
  | unpark i =>
    cases hc with
    | @unpark _ deep _ _ hp => cases deep <;> exact h.pass rfl rfl rfl rfl rfl rfl
  | tick | fire | inject =>
    cases hc
    exact { h with }
  | kevent k =>
    cases hc
    exact { h with poller := nextEvent_inFlight _ }
  | poller =>
    cases hc with
    | deschedNone hp hf hs =>
      rw [handledEvent_ok hs]
      exact { h with poller := after_inFlight _ _ _ _ }
    | deschedSome hp hf =>
      have hm := (pollerDeschedEvent_some hf).1
      rw [h.waiting] at hm
      cases hm
    | push hp hf hs | account hp hs =>
      rw [hp] at hpo
      cases hpo
  | call i op =>
    have hn := h.held i
    cases hc with
    | spawn hcur | yield hcur | sleep hcur | waitFd hcur | condLock hcur | condSignal hcur
    | socket hcur | close hcur | exit hcur | ret hcur =>
      exact absurd hn (SchedPc.not_held_of_current hcur)
  | cont i =>
    have hn := h.held i
    cases hc with
    | register hcur | waitFdReturn hcur | sleepReturn hcur | condLockReturn hcur | condSleep hcur
    | condWaitReturn hcur | condSignalled hcur =>
      exact absurd hn (SchedPc.not_held_of_current hcur)

def State.counts (s : State m) : Prop :=
  s.numPendingEvents = s.waiting.length + s.pollerPc.inFlight

theorem counts_lthread (h : s.counts) (hc : StepCase s l s')
    (hl : l = .cont i ∨ ∃ op, l = .call i op) : s'.counts := by
  have hpo := (hc.lthread_frame hl).pollerPc
  unfold State.counts at h ⊢
  obtain ⟨hw, hn, -⟩ | ⟨t, fd, e, s₁, -, -, -, h₁, rfl⟩ := hc.waiting_frame hl
  · rw [hpo, hw, hn, h]
  · obtain ⟨-, -, waiting, hi, rfl⟩ := pollerAddWaitingLthread_ok h₁
    have hlen := (OrderedTree.insert_perm hi).length_eq
    simp only [List.length_cons] at hlen
    simp only
    omega

theorem counts_step (h : s.counts) (hc : StepCase s l s') : s'.counts := by
  cases l with
  | sched i b =>
    obtain ⟨_, _, _, _, _, _, _, _, _, _, _, _, _, rfl⟩ := hc.sched_frame (.inr ⟨b, rfl⟩)
    exact h
  | unpark i =>
    obtain ⟨_, _, _, _, _, _, _, _, _, _, _, _, _, rfl⟩ := hc.sched_frame (.inl rfl)
    exact h
  | call i op => exact counts_lthread h hc (.inr ⟨op, rfl⟩)
  | cont i => exact counts_lthread h hc (.inl rfl)
  | tick | fire | inject =>
    cases hc
    exact h
  | kevent k =>
    cases hc with
    | kevent hp hk =>
      unfold State.counts at h ⊢
      rw [hp] at h
      simp only [nextEvent_inFlight]
      exact h
  | poller =>
    unfold State.counts at h ⊢
    cases hc with
    | deschedNone hp hf hs =>
      rw [hp] at h
      rw [handledEvent_ok hs]
      simp only [after_inFlight]
      exact h
    | deschedSome hp hf =>
      rw [hp] at h
      obtain ⟨hm, -, hs⟩ := pollerDeschedEvent_some hf
      have hlen := List.length_erase_of_mem hm
      have hpos := List.length_pos_of_mem hm
      rw [hs]
      simp only [PollerPc.inFlight] at h ⊢
      omega
    | push hp hf hs =>
      rw [hp] at h
      obtain ⟨-, rfl⟩ | ⟨-, rfl⟩ := schedPushReadyUnsafe_ok hs <;> exact h
    | account hp hs =>
      rw [hp] at h
      rw [handledEvent_ok hs]
      simp only [PollerPc.inFlight] at h
      simp only [after_inFlight]
      omega

def State.retiring (s : State m) (i : Fin (m + 1)) : Prop :=
  s.asleep i = true ∨ s.schedPc i = .beginDeepSleep

structure State.Quits (s : State m) : Prop where
  counts : s.counts
  all : (∀ i, s.retiring i) → s.Idle
  left : ∀ i, s.schedPc i = .exiting ∨ s.schedPc i = .finished → s.Idle

theorem State.Parks.empty_of_retiring (hP : s.Parks) (h : s.retiring i)
    (hl : ¬ (s.schedPc i = .exiting ∨ s.schedPc i = .finished)) :
    s.ready i = [] ∧ s.sleeping i = [] ∧ (s.schedPc i).holds = none := by
  have hi := hP i
  unfold State.schedOk at hi
  unfold State.retiring at h
  cases hp : s.schedPc i <;> simp_all [SchedOk, SchedPc.holds]

theorem SchedMove.retiring (h : SchedMove s l s' j) (hr : s'.retiring j) :
    s.retiring j ∨ (s.ready j = [] ∧ s.sleeping j = [] ∧ s.numPendingEvents = 0 ∧ s' = { s with
      blockState := update s.blockState j .isBlocking
      schedPc := update s.schedPc j .beginDeepSleep }) := by
  unfold State.retiring at hr ⊢
  cases h with
  | keep hp ha => exact .inl (by rwa [hp, ha] at hr)
  | wake hm hp ha =>
    refine .inl ?_
    rw [hp, ha] at hr
    cases hs : s.schedPc j <;> simp_all [SchedPc.signal]
  | loop hp hp' ha =>
    refine .inl (.inl ?_)
    rw [ha] at hr
    refine hr.resolve_right fun hd => ?_
    obtain hp' | hp' | ⟨timeout, hp'⟩ := hp' <;> simp [hd, SchedPc.active] at hp'
  | deep hp hready hsl hn hs => exact .inr ⟨hready, hsl, hn, hs⟩
  | exit hp _ hp' _ | sleep _ hp _ hp' _ => exact .inl (.inr hp)
  | unpark hp hp' ha => exact .inl (.inl (ha (hr.resolve_right (by simp [hp']))))
  | finish hp hp' ha _ => exact .inl (.inl (ha ▸ hr.resolve_right (by simp [hp'])))

theorem SchedMove.left (h : SchedMove s l s' j)
    (hl : s'.schedPc j = .exiting ∨ s'.schedPc j = .finished) :
    (s.schedPc j = .exiting ∨ s.schedPc j = .finished) ∨ ∀ k, s.retiring k := by
  cases h with
  | keep hp ha => exact .inl (by rwa [hp] at hl)
  | wake hm hp ha =>
    refine .inl ?_
    rw [hp] at hl
    cases hs : s.schedPc j <;> simp_all [SchedPc.signal]
  | loop hp hp' ha =>
    obtain hp' | hp' | ⟨timeout, hp'⟩ := hp' <;> obtain hl | hl := hl <;>
      simp [hl, SchedPc.active] at hp'
  | deep hp hready hsl hn hs =>
    subst hs
    simp at hl
  | exit hp hall hp' ha =>
    refine .inr fun k => ?_
    by_cases hk : k = j
    · exact .inr (hk ▸ hp)
    · exact .inl (by simpa [hk] using hall k)
  | sleep _ hp hex hp' ha => simp [hp'] at hl
  | unpark hp hp' ha => simp [hp'] at hl
  | finish hp hp' ha _ => exact .inl (.inl hp)

theorem State.Quits.step (hQ : s.Quits) (hP : s.Parks) (hS : s.Sleepers)
    (hc : StepCase s l s') : s'.Quits := by
  refine { counts := counts_step hQ.counts hc, all := ?_, left := ?_ }
  · intro hall
    by_cases hs : ∀ k, s.retiring k
    · exact (hQ.all hs).step hc
    · obtain ⟨j, hj⟩ := not_forall.mp hs
      obtain hj' | ⟨hr, hsl, hn, rfl⟩ := (hc.schedMove hP hS j).retiring (hall j)
      · exact absurd hj' hj
      · by_cases hex : ∃ k, s.schedPc k = .exiting ∨ s.schedPc k = .finished
        · obtain ⟨k, hk⟩ := hex
          exact (hQ.left k hk).step hc
        · have hne : ∀ k, k ≠ j →
              s.ready k = [] ∧ s.sleeping k = [] ∧ (s.schedPc k).holds = none := by
            intro k hk
            refine hP.empty_of_retiring ?_ fun h => hex ⟨k, h⟩
            simpa [State.retiring, hk] using hall k
          have hcount := hQ.counts
          unfold State.counts at hcount
          rw [hn] at hcount
          refine { ready := ?_, held := ?_, sleeping := ?_, waiting := ?_, poller := ?_ }
          · intro k
            by_cases hk : k = j
            · exact hk ▸ hr
            · exact (hne k hk).1
          · intro k
            by_cases hk : k = j
            · subst hk
              simp [SchedPc.holds]
            · simpa [hk] using (hne k hk).2.2
          · intro k
            by_cases hk : k = j
            · exact hk ▸ hsl
            · exact (hne k hk).2.1
          · have hlen : s.waiting.length = 0 := by omega
            exact List.length_eq_zero_iff.mp hlen
          · show s.pollerPc.inFlight = 0
            omega
  · intro j hj
    obtain hl | hl := (hc.schedMove hP hS j).left hj
    · exact (hQ.left j hl).step hc
    · exact (hQ.all hl).step hc

theorem quits_of_reach {ok : State m → Label m → Prop}
    (hr : Runs.Reach step ok (State.init m clock isOpen) s) : s.Quits := by
  apply invariant_of_reach (I := State.Quits) hr
  · rw [init_eq]
    refine { counts := rfl, all := ?_, left := ?_ }
    · intro h
      simpa [State.retiring, State.empty] using h 0
    · simp [State.empty]
  · intro s s' l hr hQ _ hc
    exact hQ.step (parks_of_reach hr) (located_of_reach hr).toSleepers hc
  · intro s f hQ
    exact {
      counts := hQ.counts
      all := fun h => { hQ.all h with }
      left := fun i h => { hQ.left i h with } }

/-- When `_lthread_pool_begin_deep_sleep` returns true to a scheduler, no lthread is
in a ready queue, current, about to be resumed or in a sleeping tree, and none is
waiting for the poller or in its hands. -/
theorem no_premature_shutdown (hr : UntimedReach clock isOpen s) (i : Fin (m + 1))
    (hp : s.schedPc i = .beginDeepSleep) (hd : (poolBeginDeepSleep s i).1 = true) :
    (∀ k, s.ready k = []) ∧
    (∀ k, s.currentLthread k = none ∧ ∀ t, s.schedPc k ≠ .wakeNeighbor t ∧
      s.schedPc k ≠ .setSched t ∧ s.schedPc k ≠ .resume t) ∧
    (∀ k, s.sleeping k = []) ∧ s.waiting = [] ∧
    (∀ t ev dir ltRead rest, s.pollerPc ≠ .push t ev dir ltRead rest) ∧ s.Unbroken := by
  have hall : ∀ k, s.retiring k := by
    intro k
    simp only [poolBeginDeepSleep, decide_eq_true_eq] at hd
    by_cases hk : k = i
    · exact .inr (hk ▸ hp)
    · exact .inl (by simpa [hk] using hd k)
  have hid := (quits_of_reach hr).all hall
  refine ⟨hid.ready, ?_, hid.sleeping, hid.waiting, ?_, hr.unbroken⟩
  · intro k
    have hk := hid.held k
    have hc := (located_of_reach hr).current k
    cases hs : s.schedPc k <;> simp_all [SchedPc.holds, SchedPc.current]
  · intro t ev dir ltRead rest h
    have hpo := hid.poller
    rw [h] at hpo
    cases hpo

/-- The main lthread has returned, one scheduler is in deep sleep and the other one
asks. -/
theorem no_premature_shutdown_last : ∃ s : State 1, UntimedReach 5 (fun _ => false) s ∧
    (s.schedPc 1 = .beginDeepSleep ∧ (poolBeginDeepSleep s 1).1 = true) ∧
    ∀ k, s.ready k = [] := by
  obtain ⟨s, hr, hs⟩ : ∃ s : State 1, UntimedReach 5 (fun _ => false) s ∧
      s.schedPc 1 = .beginDeepSleep ∧ (poolBeginDeepSleep s 1).1 = true :=
    Runs.exists_reach_of_run (Label.scheds 0 6 ++ [.call 0 .ret] ++ Label.scheds 0 14 ++
      Label.scheds 1 12) (by decide +kernel)
  exact ⟨s, hr, hs, (no_premature_shutdown hr 1 hs.1 hs.2).1⟩

end Lthread
