import Lthread.Links

namespace Lthread

open Function (update update_apply)

variable {m : ℕ} {s s' s₁ : State m} {i k : Fin (m + 1)} {t : ℕ} {clock : ℕ}
  {isOpen : ℕ → Bool}

def SchedPc.active : SchedPc m → Bool
  | .expire | .expiring _ | .popOwn | .steal _ | .popBlock | .wakeNeighbor _ | .setSched _
  | .resume _ | .running _ | .leave _ => true
  | .block | .beginDeepSleep | .parked _ _ _ | .exiting | .finished => false

def SchedOk (p : SchedPc m) (b : BlockState) (a : Bool) (r sl : List ℕ) : Prop :=
  match p with
  | .block => b ≠ .isBlocking ∧ a = false ∧ (b = .willBlock → r = [])
  | .beginDeepSleep => b = .isBlocking ∧ a = false ∧ r = [] ∧ sl = []
  | .parked deep _ signalled => b = .isBlocking ∧ a = (deep && !signalled) ∧
      (signalled = false → r = [] ∧ (deep = true → sl = []))
  | .exiting | .finished => b ≠ .isBlocking ∧ a = true
  | .expire | .expiring _ | .popOwn | .steal _ | .popBlock | .wakeNeighbor _ | .setSched _
  | .resume _ | .running _ | .leave _ => b ≠ .isBlocking ∧ a = false

def State.schedOk (s : State m) (i : Fin (m + 1)) : Prop :=
  SchedOk (s.schedPc i) (s.blockState i) (s.asleep i) (s.ready i) (s.sleeping i)

def State.Parks (s : State m) : Prop := ∀ i, s.schedOk i

section

variable {p p' : SchedPc m} {b : BlockState} {a : Bool} {r r' sl sl' : List ℕ}

theorem SchedOk.mono (h : SchedOk p b a r sl) (hr : r = [] → r' = []) (hs : sl = [] → sl' = []) :
    SchedOk p b a r' sl' := by
  cases p <;> simp_all [SchedOk]

theorem SchedOk.of_active (hp : p.active = true) :
    SchedOk p b a r sl ↔ b ≠ .isBlocking ∧ a = false := by
  cases p <;> simp_all [SchedOk, SchedPc.active]

theorem SchedOk.wake (h : SchedOk p b a r sl) (hp : p ≠ .beginDeepSleep) (r' : List ℕ) :
    SchedOk (if b = .isBlocking then p.signal else p) (if b = .willBlock then .wontBlock else b)
      (if b = .isBlocking then false else a) r' sl := by
  cases p <;> cases b <;> simp only [SchedOk, SchedPc.signal] at h ⊢ <;> simp_all

end

theorem State.Parks.of_ne (h : s.Parks) (hi : s'.schedOk i)
    (hne : ∀ k, k ≠ i → s'.schedPc k = s.schedPc k ∧ s'.blockState k = s.blockState k ∧
      s'.asleep k = s.asleep k ∧ (s.ready k = [] → s'.ready k = []) ∧
      (s.sleeping k = [] → s'.sleeping k = [])) : s'.Parks := by
  intro k
  by_cases hk : k = i
  · exact hk ▸ hi
  · obtain ⟨h₁, h₂, h₃, h₄, h₅⟩ := hne k hk
    unfold State.schedOk
    rw [h₁, h₂, h₃]
    exact (h k).mono h₄ h₅

theorem State.Parks.wake (h : s.Parks) (hk : s.schedPc k ≠ .beginDeepSleep)
    (hp : s₁.schedPc = s.schedPc) (hb : s₁.blockState = s.blockState) (ha : s₁.asleep = s.asleep)
    (hr : ∀ j, j ≠ k → s₁.ready j = s.ready j) (hs : ∀ j, s.sleeping j = [] → s₁.sleeping j = []) :
    (schedWakeUnsafe s₁ k).Parks := by
  apply h.of_ne (i := k)
  · have hw := ((h k).wake hk (s₁.ready k)).mono id (hs k)
    cases hbk : s.blockState k <;>
      simpa [State.schedOk, schedWakeUnsafe, poolEndDeepSleep, hp, hb, ha, hbk] using hw
  · intro j hj
    cases hbk : s.blockState k <;>
      simp [schedWakeUnsafe, poolEndDeepSleep, hp, hb, ha, hbk, hj, hr j hj] <;> exact hs j

theorem State.Parks.push (h : s.Parks) (hpush : schedPushReadyUnsafe s₁ k t = .ok s')
    (hk : s.schedPc k ≠ .beginDeepSleep) (hp : s₁.schedPc = s.schedPc)
    (hb : s₁.blockState = s.blockState) (ha : s₁.asleep = s.asleep) (hr : s₁.ready = s.ready)
    (hc : s₁.sched t = k) (hs : ∀ j, s.sleeping j = [] → s₁.sleeping j = []) : s'.Parks := by
  obtain ⟨-, rfl⟩ | ⟨-, rfl⟩ := schedPushReadyUnsafe_ok hpush
  · exact h.wake hk hp hb ha (fun j _ => by rw [← hr]) hs
  · refine h.wake hk hp hb ha (fun j hj => ?_) hs
    simp [hc, hj, hr]

theorem State.Parks.advance {p : SchedPc m} (h : s.Parks) (ho : (s.schedPc i).active = true)
    (hp : p.active = true) (hpc : s'.schedPc = update s.schedPc i p)
    (hb : s'.blockState = s.blockState) (ha : s'.asleep = s.asleep)
    (hr : ∀ j, j ≠ i → s.ready j = [] → s'.ready j = [])
    (hs : ∀ j, j ≠ i → s.sleeping j = [] → s'.sleeping j = []) : s'.Parks := by
  apply h.of_ne (i := i)
  · have hi := (SchedOk.of_active ho).mp (h i)
    unfold State.schedOk
    rw [hpc, hb, ha, Function.update_self, SchedOk.of_active hp]
    exact hi
  · intro j hj
    rw [hpc, hb, ha, Function.update_of_ne hj]
    exact ⟨rfl, rfl, rfl, hr j hj, hs j hj⟩

theorem State.Parks.frame (h : s.Parks) (hpc : s'.schedPc = s.schedPc)
    (hb : s'.blockState = s.blockState) (ha : s'.asleep = s.asleep) (hr : s'.ready = s.ready)
    (hs : s'.sleeping = s.sleeping) : s'.Parks := by
  intro k
  have := h k
  unfold State.schedOk at this ⊢
  rwa [hpc, hb, ha, hr, hs]

theorem erase_eq_nil {f : Fin (m + 1) → List ℕ} {u : ℕ} (k j : Fin (m + 1)) (h : f j = []) :
    update f k ((f k).erase u) j = [] := by
  by_cases hj : j = k
  · subst hj
    simp [h]
  · simp [hj, h]

theorem State.Parks.expireLoop {now now' : BitVec 64} {fuel : ℕ} (h : s.Parks) (hS : s.Sleepers)
    (hp : s.schedPc i = .expiring now') (he : expireLoop i now fuel s = .ok s') :
    s'.Parks ∧ s'.schedPc = s.schedPc ∧ s'.asleep = s.asleep := by
  induction fuel generalizing s with
  | zero =>
    cases he
    exact ⟨h, rfl, rfl⟩
  | succ fuel ih =>
    simp only [Lthread.expireLoop] at he
    split at he
    · cases he
      exact ⟨h, rfl, rfl⟩
    · rename_i u rest hl
      split at he
      · have hu : u ∈ s.sleeping i := by simp [hl]
        obtain ⟨s₁, h₁, h₂⟩ := bind_ok he
        obtain ⟨hmem, h₃⟩ := deschedSleepUnsafe_ok h₁
        have hsi : s.sched u = i := hS.once _ _ u hmem hu
        have hS₁ : s₁.Sleepers := (hS.unsleep.push h₃).1
        have hP₁ : s₁.Parks := h.push h₃ (by rw [hsi, hp]; simp) rfl rfl rfl rfl rfl
          (erase_eq_nil _)
        obtain ⟨hp₁, ha₁⟩ : s₁.schedPc = s.schedPc ∧ s₁.asleep = s.asleep := by
          have hb : s.blockState i ≠ .isBlocking :=
            ((SchedOk.of_active (by rw [hp]; rfl)).mp (h i)).1
          rw [hsi] at h₃
          obtain ⟨-, rfl⟩ | ⟨-, rfl⟩ := schedPushReadyUnsafe_ok h₃ <;>
            cases hbk : s.blockState i <;> simp_all [schedWakeUnsafe]
        obtain ⟨hP', hp', ha'⟩ := ih hP₁ hS₁ (by rw [hp₁]; exact hp) h₂
        exact ⟨hP', hp'.trans hp₁, ha'.trans ha₁⟩
      · cases he
        exact ⟨h, rfl, rfl⟩

theorem State.Parks.fill {r : List ℕ} (h : s.Parks) (hk : (s.schedPc k).active = true) :
    ({ s with ready := update s.ready k r } : State m).Parks := by
  refine h.of_ne (i := k) ?_ (fun j hj => by simp [hj])
  exact (SchedOk.of_active hk).mpr ((SchedOk.of_active hk).mp (h k))

theorem State.Parks.resumeLeave (h : s.Parks) (hL : s.Located) (hp : s.schedPc i = .leave t)
    (hl : resumeLeave s i t = .ok s') : s'.Parks := by
  have hs := resumeLeave_ok hl
  subst hs
  have hc : s.currentLthread i = some t := by rw [hL.current, hp]; rfl
  have hk : (s.schedPc (s.sched t)).active = true := by
    obtain hsi | hres := hL.here i t hc
    · rw [hsi, hp]
      rfl
    · rw [hres]
      rfl
  cases hn : s.needsResched t with
  | true =>
    exact (h.fill hk).advance (by rw [hp]; rfl) rfl rfl rfl rfl (fun _ _ => id) (fun _ _ => id)
  | false =>
    exact h.advance (by rw [hp]; rfl) rfl rfl rfl rfl (fun _ _ => id) (fun _ _ => id)

theorem State.Parks.wakeNeighbor {next : SchedPc m} (h : s.Parks)
    (ho : ∀ b a r sl, SchedOk (s.schedPc i) b a r sl → SchedOk next b a r sl)
    (hw : wakeNeighbor s i next = some s') : s'.Parks := by
  obtain ⟨-, rfl⟩ | ⟨hne, hf, rfl⟩ := wakeNeighbor_some hw
  · apply h.of_ne (i := i)
    · simpa [State.schedOk] using ho _ _ _ _ (h i)
    · intro k hk
      simp [hk]
  · have hW : (schedWakeUnsafe s (schedNeighbor i)).Parks :=
      h.wake hf rfl rfl rfl (fun _ _ => rfl) (fun _ => id)
    apply hW.of_ne (i := i)
    · have hi := hW i
      have hpc : (schedWakeUnsafe s (schedNeighbor i)).schedPc i = s.schedPc i := by
        cases hb : s.blockState (schedNeighbor i) <;> simp [schedWakeUnsafe, hb, hne.symm]
      simp only [State.schedOk, hpc] at hi
      simpa [State.schedOk] using ho _ _ _ _ hi
    · intro k hk
      simp [hk]

theorem State.Parks.schedBlock (h : s.Parks) (hp : s.schedPc i = .block)
    (hb : schedBlock s i = .ok s') : s'.Parks := by
  have hi := h i
  unfold State.schedOk at hi
  rw [hp] at hi
  obtain ⟨hnb, ha, hr⟩ := hi
  obtain ⟨-, rfl⟩ | ⟨-, hsl, hre, -, rfl⟩ | ⟨hw, timeout, rfl⟩ := schedBlock_ok hb
  · refine h.of_ne (i := i) ?_ (fun k hk => by simp [hk])
    simpa [State.schedOk, SchedOk] using ha
  · refine h.of_ne (i := i) ?_ (fun k hk => by simp [hk])
    simp [State.schedOk, SchedOk, ha, hsl, hre]
  · refine h.of_ne (i := i) ?_ (fun k hk => by simp [hk])
    have hwill : s.blockState i = .willBlock := by
      cases hbi : s.blockState i <;> simp_all
    simp [State.schedOk, SchedOk, ha, hr hwill]

theorem State.Parks.deepSleep (h : s.Parks) (hp : s.schedPc i = .beginDeepSleep) :
    (schedDeepSleep s i).Parks := by
  have hi := h i
  unfold State.schedOk at hi
  rw [hp] at hi
  obtain ⟨hb, -, hr, hsl⟩ := hi
  obtain ⟨-, hs⟩ | ⟨-, hs⟩ := schedDeepSleep_cases s i <;> rw [hs]
  · refine h.of_ne (i := i) ?_ (fun k hk => by simp [hk])
    simp [State.schedOk, SchedOk]
  · refine h.of_ne (i := i) ?_ (fun k hk => by simp [hk])
    simp [State.schedOk, SchedOk, hb, hr, hsl]

theorem State.Parks.unpark {deep signalled : Bool} {timeout : BitVec 64} (h : s.Parks)
    (hp : s.schedPc i = .parked deep timeout signalled) : (schedUnpark s i deep).Parks := by
  have hi := h i
  unfold State.schedOk at hi
  rw [hp] at hi
  cases deep with
  | true =>
    refine h.of_ne (i := i) ?_ (fun k hk => by simp [schedUnpark, poolEndDeepSleep, hk])
    simp [State.schedOk, SchedOk, schedUnpark, poolEndDeepSleep]
  | false =>
    refine h.of_ne (i := i) ?_ (fun k hk => by simp [schedUnpark, hk])
    simpa [State.schedOk, SchedOk, schedUnpark] using hi.2.1

theorem State.Parks.schedStep {b : Bool} (h : s.Parks) (hL : s.Located)
    (hc : StepCase s (.sched i b) s') : s'.Parks := by
  cases hc with
  | clockRead hp =>
    exact h.advance (by rw [hp]; rfl) rfl rfl rfl rfl (fun _ _ => id) (fun _ _ => id)
  | expired hp h₁ =>
    obtain ⟨hP, hp', -⟩ := h.expireLoop hL.toSleepers hp h₁
    exact hP.advance (by rw [hp', hp]; rfl) rfl rfl rfl rfl (fun _ _ => id) (fun _ _ => id)
  | @probeFail _ _ p hp hq =>
    refine h.advance (p := p) ?_ ?_ rfl rfl rfl (fun _ _ => id) (fun _ _ => id)
    · obtain hp | ⟨v, hp⟩ := hp <;> rw [hp] <;> rfl
    · obtain rfl | ⟨v, rfl⟩ := hq <;> rfl
  | popEmpty hp hr =>
    refine h.of_ne (i := i) ?_ (fun k hk => by simp [hk])
    have hi := (SchedOk.of_active (by rw [hp]; rfl)).mp (h i)
    simp [State.schedOk, SchedOk, hi.1, hi.2, hr]
  | @pop _ _ v t rest p hp hr hq =>
    refine h.advance (p := p) ?_ ?_ rfl rfl rfl ?_ (fun _ _ => id)
    · cases hs : s.schedPc i <;> simp_all [SchedPc.probe, SchedPc.active]
    · obtain rfl | rfl := hq <;> rfl
    · intro j _ hj
      by_cases hjv : j = v
      · subst hjv
        simp [hr] at hj
      · simpa [hjv] using hj
  | @wakeNeighbor _ _ t _ hp h₁ =>
    refine h.wakeNeighbor (fun b a r sl ho => ?_) h₁
    rw [hp] at ho
    exact ho
  | setSched hp => exact h.advance (by rw [hp]; rfl) rfl rfl rfl rfl (fun _ _ => id) (fun _ _ => id)
  | resume hp h₁ =>
    obtain ⟨-, -, rfl⟩ := resumeEnter_ok h₁
    exact h.advance (by rw [hp]; rfl) rfl rfl rfl rfl (fun _ _ => id) (fun _ _ => id)
  | leave hp h₁ => exact h.resumeLeave hL hp h₁
  | block hp h₁ => exact h.schedBlock hp h₁
  | deepSleep hp => exact h.deepSleep hp
  | finish hp h₁ =>
    refine h.wakeNeighbor (fun b a r sl ho => ?_) h₁
    rw [hp] at ho
    exact ho

theorem State.Parks.sleepLeave {msecs : BitVec 64} {p : Pc} {s₁ : State m} (h : s.Parks)
    (hc : ltCurrent s i = some t) (hs : schedSleep s t msecs = .ok s₁)
    (hy : ltYield { s₁ with pc := update s₁.pc t p } i t = .ok s') : s'.Parks := by
  obtain ⟨⟨r, hr⟩, -⟩ := ltCurrent_eq_some hc
  obtain ⟨hsi, rfl⟩ := ltYield_ok hy
  obtain ⟨-, rfl⟩ | ⟨-, -, key, tree, -, rfl⟩ := schedSleep_ok hs
  · exact h.advance (by rw [hr]; rfl) rfl rfl rfl rfl (fun _ _ => id) (fun _ _ => id)
  · refine h.advance (by rw [hr]; rfl) rfl rfl rfl rfl (fun _ _ => id) ?_
    intro j hj he
    have hsi' : s.sched t = i := hsi
    simp [hsi', hj, he]

theorem State.Parks.effect (h : s.Parks) (he : SchedEffect s s') : s'.Parks := by
  cases he with
  | keep hs hsl => exact h.frame hs.schedPc hs.blockState hs.asleep hs.ready hsl
  | leave hc hs hsl =>
    obtain ⟨⟨r, hr⟩, -⟩ := ltCurrent_eq_some hc
    apply h.advance (by rw [hr]; rfl) rfl hs.schedPc hs.blockState hs.asleep
    · intro j _ hj
      rwa [hs.ready]
    · intro j _ hj
      rwa [hsl]
  | sleep hc hs hy => exact h.sleepLeave hc hs hy
  | @wake k t s₁ s₂ hk hpush hsched h₁ hsl h₂ hsl₂ =>
    have hempty : ∀ j, s.sleeping j = [] → s₁.sleeping j = [] := by
      intro j hj
      obtain hsl | ⟨i, u, hsl⟩ := hsl
      · rwa [hsl]
      · rw [hsl]
        exact erase_eq_nil i j hj
    have hP : s₂.Parks :=
      h.push hpush hk h₁.schedPc h₁.blockState h₁.asleep h₁.ready hsched hempty
    exact hP.frame h₂.schedPc h₂.blockState h₂.asleep h₂.ready hsl₂

theorem State.Parks.step {l : Label m} (h : s.Parks) (hL : s.Located) (hc : StepCase s l s') :
    s'.Parks := by
  cases l with
  | sched i b => exact h.schedStep hL hc
  | unpark i =>
    cases hc with
    | unpark hp => exact h.unpark hp
  | _ => exact h.effect (hc.schedEffect (by simp) (by simp))

theorem parks_of_reach {ok : State m → Label m → Prop}
    (hr : Runs.Reach step ok (State.init m clock isOpen) s) : s.Parks := by
  apply invariant_of_reach (I := State.Parks) hr
  · rw [init_eq]
    intro k
    by_cases hk : k = 0 <;> simp [State.schedOk, SchedOk, State.empty, hk]
  · intro s s' l hr hP _ hc
    exact hP.step (located_of_reach hr) hc
  · intro s f hP
    exact hP.frame rfl rfl rfl rfl rfl

/-- A scheduler that waits and has not been signalled has nothing to run, and when it
waits without a timeout it has no sleeper either. -/
theorem no_lost_wakeup (hr : UntimedReach clock isOpen s) (i : Fin (m + 1)) (deep : Bool)
    (timeout : BitVec 64) (h : s.schedPc i = .parked deep timeout false) :
    s.ready i = [] ∧ (deep = true → s.sleeping i = []) ∧ s.Unbroken := by
  have hi := parks_of_reach hr i
  unfold State.schedOk at hi
  rw [h] at hi
  obtain ⟨hready, hsleep⟩ := hi.2.2 rfl
  exact ⟨hready, hsleep, hr.unbroken⟩

/-- One scheduler runs the main lthread and the other one has gone to deep sleep. -/
theorem no_lost_wakeup_deep : ∃ s : State 1, UntimedReach 5 (fun _ => false) s ∧
    s.schedPc 1 = .parked true 0 false ∧ s.ready 1 = [] ∧ s.sleeping 1 = [] := by
  obtain ⟨s, hr, hs⟩ : ∃ s : State 1, UntimedReach 5 (fun _ => false) s ∧
      s.schedPc 1 = .parked true 0 false :=
    Runs.exists_reach_of_run (Label.scheds 0 6 ++ Label.scheds 1 13) (by decide +kernel)
  obtain ⟨h₁, h₂, -⟩ := no_lost_wakeup hr 1 true 0 hs
  exact ⟨s, hr, hs, h₁, h₂ rfl⟩

end Lthread
