import Lthread.Shutdown

namespace Lthread

open Function (update update_apply)

variable {m : ℕ} {s s' s₁ : State m} {i : Fin (m + 1)} {t u : ℕ} {l : Label m}

def State.Rests (s : State m) (t : ℕ) : Prop :=
  t ∈ s.sleeping (s.sched t) ∨ (∃ i, t ∈ s.ready i) ∨
    ∃ i g, (s.schedPc i).holds = some (t, g) ∧ (g = .leaving → s.needsResched t = true)

structure Keeps (s s' : State m) (u : ℕ) : Prop where
  sched : s'.sched u = s.sched u
  sleeping : u ∈ s.sleeping (s.sched u) → u ∈ s'.sleeping (s.sched u)
  ready : ∀ k, u ∈ s.ready k → u ∈ s'.ready k
  held : ∀ k g, (s.schedPc k).holds = some (u, g) → (s'.schedPc k).holds = some (u, g)
  resched : s.needsResched u = true → s'.needsResched u = true

theorem Keeps.refl (s : State m) (u : ℕ) : Keeps s s u :=
  ⟨rfl, id, fun _ => id, fun _ _ => id, id⟩

theorem Keeps.rests (h : Keeps s s' u) (hu : s.Rests u) : s'.Rests u := by
  obtain hu | ⟨k, hk⟩ | ⟨k, g, hk, hg⟩ := hu
  · exact .inl (by rw [h.sched]; exact h.sleeping hu)
  · exact .inr (.inl ⟨k, h.ready k hk⟩)
  · exact .inr (.inr ⟨k, g, h.held k g hk, fun hl => h.resched (hg hl)⟩)

theorem mem_update_of_mem {f : Fin (m + 1) → List ℕ} {k : Fin (m + 1)} (h : u ∈ f k) :
    u ∈ update f i (f i ++ [t]) k := by
  rw [update_apply]
  split
  · rename_i hk
    subst hk
    exact List.mem_append_left _ h
  · exact h

theorem State.Rests.push (h : schedPushReadyUnsafe s i t = .ok s')
    (hc : ∀ k, s.currentLthread k = (s.schedPc k).current) (hu : u ≠ t → s.Rests u) :
    s'.Rests u := by
  obtain ⟨hcur, rfl⟩ | ⟨-, rfl⟩ := schedPushReadyUnsafe_ok h
  · by_cases hut : u = t
    · subst hut
      rw [hc] at hcur
      cases hp : s.schedPc (s.sched u) <;> rw [hp] at hcur <;> cases hcur
      · refine .inr (.inr ⟨s.sched u, .running, ?_, fun hg => by cases hg⟩)
        rw [(schedWakeUnsafe_holds _ i _).1, hp]
        rfl
      · refine .inr (.inr ⟨s.sched u, .leaving, ?_, fun _ => Function.update_self ..⟩)
        rw [(schedWakeUnsafe_holds _ i _).1, hp]
        rfl
    · refine Keeps.rests ?_ (hu hut)
      exact { Keeps.refl s u with
        held := fun k g hk => by rw [(schedWakeUnsafe_holds _ i k).1]; exact hk
        resched := fun hr => (Function.update_of_ne hut ..).trans hr }
  · by_cases hut : u = t
    · subst hut
      exact .inr (.inl ⟨s.sched u, by simp [schedWakeUnsafe]⟩)
    · refine Keeps.rests ?_ (hu hut)
      exact { Keeps.refl s u with
        ready := fun k hk => mem_update_of_mem hk
        held := fun k g hk => by rw [(schedWakeUnsafe_holds _ i k).1]; exact hk }

theorem keeps_unsleep (s : State m) (i : Fin (m + 1)) (hut : u ≠ t) :
    Keeps s { s with sleeping := update s.sleeping i ((s.sleeping i).erase t) } u := by
  refine { Keeps.refl s u with sleeping := fun hu => ?_ }
  dsimp only
  rw [update_apply]
  split
  · rename_i hk
    rw [hk] at hu
    exact (List.mem_erase_of_ne hut).mpr hu
  · exact hu

theorem State.Rests.expireLoop {now : BitVec 64} {fuel : ℕ} (hS : s.Sleepers)
    (h : expireLoop i now fuel s = .ok s') (hu : s.Rests u) : s'.Rests u := by
  induction fuel generalizing s with
  | zero =>
    cases h
    exact hu
  | succ fuel ih =>
    simp only [Lthread.expireLoop] at h
    split at h
    · cases h
      exact hu
    · split at h
      · obtain ⟨s₁, h₁, h₂⟩ := bind_ok h
        obtain ⟨-, h₃⟩ := deschedSleepUnsafe_ok h₁
        apply ih (hS.unsleep.push h₃).1 h₂
        exact State.Rests.push h₃ hS.unsleep.current fun hut => (keeps_unsleep _ _ hut).rests hu
      · cases h
        exact hu

theorem held_of_pass {p : SchedPc m} {f : Fin (m + 1) → SchedPc m}
    (hp : ∀ g, (f i).holds = some (u, g) → p.holds = some (u, g)) (k : Fin (m + 1)) (g : Hold)
    (hk : (f k).holds = some (u, g)) : (update f i p k).holds = some (u, g) := by
  rw [update_apply]
  split
  · rename_i hki
    subst hki
    exact hp g hk
  · exact hk

theorem State.Rests.pass {p : SchedPc m} (ho : (s.schedPc i).holds = none)
    (hu : s.Rests u) : ({ s with schedPc := update s.schedPc i p } : State m).Rests u := by
  refine Keeps.rests ?_ hu
  exact { Keeps.refl s u with held := held_of_pass fun g hg => by rw [ho] at hg; cases hg }

theorem State.Rests.wakeNeighbor {next : SchedPc m}
    (hn : ∀ g, (s.schedPc i).holds = some (u, g) → next.holds = some (u, g))
    (h : wakeNeighbor s i next = some s') (hu : s.Rests u) : s'.Rests u := by
  obtain ⟨-, rfl⟩ | ⟨-, -, rfl⟩ := wakeNeighbor_some h
  · exact Keeps.rests { Keeps.refl s u with held := held_of_pass hn } hu
  · refine Keeps.rests { Keeps.refl s u with held := fun k g hk => ?_ } hu
    rw [← (schedWakeUnsafe_holds s (schedNeighbor i) k).1] at hk
    refine held_of_pass (fun g hg => hn g ?_) k g hk
    rwa [(schedWakeUnsafe_holds s (schedNeighbor i) i).1] at hg

theorem State.Rests.pop {v : Fin (m + 1)} {rest : List ℕ} {p : SchedPc m}
    (ho : (s.schedPc i).holds = none) (hr : s.ready v = t :: rest)
    (hp : p.holds = some (t, .popped)) (hu : s.Rests u) :
    ({ s with ready := update s.ready v rest, schedPc := update s.schedPc i p } : State m).Rests u := by
  by_cases hut : u = t
  · subst hut
    exact .inr (.inr ⟨i, .popped, by simp [hp], fun hg => by cases hg⟩)
  · refine Keeps.rests { Keeps.refl s u with ready := fun k hk => ?_, held := ?_ } hu
    · dsimp only
      rw [update_apply]
      split
      · rename_i hkv
        rw [hkv, hr] at hk
        exact List.mem_of_ne_of_mem hut hk
      · exact hk
    · exact held_of_pass fun g hg => by rw [ho] at hg; cases hg

theorem State.Rests.advance {g : Hold} {p : SchedPc m} (ho : (s.schedPc i).holds = some (t, .popped))
    (hp : p.holds = some (t, g)) (hg : g ≠ .leaving) (hs : ∀ v, v ≠ t → s'.sched v = s.sched v)
    (hsl : s'.sleeping = s.sleeping) (hr : s'.ready = s.ready)
    (hpc : s'.schedPc = update s.schedPc i p) (hn : s'.needsResched = s.needsResched)
    (hu : s.Rests u) : s'.Rests u := by
  by_cases hut : u = t
  · subst hut
    exact .inr (.inr ⟨i, g, by rw [hpc]; simp [hp], fun hl => absurd hl hg⟩)
  · refine Keeps.rests ?_ hu
    refine {
      sched := hs u hut, sleeping := by rw [hsl]; exact id, ready := fun k hk => by rwa [hr]
      held := ?_, resched := by rw [hn]; exact id }
    rw [hpc]
    refine held_of_pass fun g hg => ?_
    rw [ho] at hg
    cases hg
    exact absurd rfl hut

theorem State.Rests.resumeLeave (hp : s.schedPc i = .leave t)
    (h : resumeLeave s i t = .ok s') (hu : s.Rests u) : s'.Rests u := by
  have hs := resumeLeave_ok h
  subst hs
  have hready : ∀ k, u ∈ s.ready k → u ∈ (if s.needsResched t = true then
      update s.ready (s.sched t) (s.ready (s.sched t) ++ [t]) else s.ready) k := by
    intro k hk
    split
    · exact mem_update_of_mem hk
    · exact hk
  by_cases hut : u = t
  · subst hut
    cases hn : s.needsResched u with
    | true => exact .inr (.inl ⟨s.sched u, by simp⟩)
    | false =>
      obtain hu | ⟨k, hk⟩ | ⟨k, g, hk, hg⟩ := hu
      · exact .inl hu
      · exact .inr (.inl ⟨k, hk⟩)
      · have hgl : g ≠ .leaving := by
          rintro rfl
          rw [hg rfl] at hn
          cases hn
        have hki : k ≠ i := by
          rintro rfl
          rw [hp] at hk
          cases hk
          exact hgl rfl
        refine .inr (.inr ⟨k, g, ?_, fun hl => absurd hl hgl⟩)
        dsimp only
        rwa [Function.update_of_ne hki]
  · refine Keeps.rests { Keeps.refl s u with ready := hready, held := ?_, resched := ?_ } hu
    · refine held_of_pass fun g hg => ?_
      rw [hp] at hg
      cases hg
      exact absurd rfl hut
    · exact fun hr => (Function.update_of_ne hut ..).trans hr

theorem State.Rests.schedStep {b : Bool} (hS : s.Sleepers) (h : StepCase s (.sched i b) s')
    (hu : s.Rests u) : s'.Rests u := by
  cases h with
  | clockRead h | popEmpty h _ => exact hu.pass (by rw [h]; rfl)
  | expired h h₁ =>
    apply (hu.expireLoop hS h₁).pass
    rw [expireLoop_holds h₁, h]
    rfl
  | probeFail h hp =>
    apply hu.pass
    obtain h | ⟨v, h⟩ := h <;> rw [h] <;> rfl
  | pop h hr hp => exact hu.pop (SchedPc.probe_holds h).1 hr (by obtain rfl | rfl := hp <;> rfl)
  | wakeNeighbor h h₁ => exact hu.wakeNeighbor (fun g hg => by rw [h] at hg; exact hg) h₁
  | finish h h₁ => exact hu.wakeNeighbor (fun g hg => by rw [h] at hg; cases hg) h₁
  | @setSched _ _ t h =>
    have ho : (s.schedPc i).holds = some (t, .popped) := by rw [h]; rfl
    have hp : (SchedPc.resume t : SchedPc m).holds = some (t, .popped) := rfl
    refine hu.advance ho hp (by simp) (fun v hv => ?_) rfl rfl rfl rfl
    exact Function.update_of_ne hv ..
  | @resume _ _ t _ h h₁ =>
    obtain ⟨-, -, rfl⟩ := resumeEnter_ok h₁
    have ho : (s.schedPc i).holds = some (t, .popped) := by rw [h]; rfl
    have hp : (SchedPc.running t : SchedPc m).holds = some (t, .running) := rfl
    exact hu.advance ho hp (by simp) (fun _ _ => rfl) rfl rfl rfl rfl
  | leave h h₁ => exact hu.resumeLeave h h₁
  | block h h₁ =>
    have ho : (s.schedPc i).holds = none := by rw [h]; rfl
    obtain ⟨-, rfl⟩ | ⟨-, -, -, -, rfl⟩ | ⟨-, timeout, rfl⟩ := schedBlock_ok h₁
    · exact hu.pass (p := .expire) ho
    · exact hu.pass (p := .beginDeepSleep) ho
    · exact hu.pass (p := .parked false timeout false) ho
  | deepSleep h =>
    have ho : (s.schedPc i).holds = none := by rw [h]; rfl
    obtain ⟨-, hs⟩ | ⟨-, hs⟩ := schedDeepSleep_cases s i <;> rw [hs]
    · exact hu.pass (p := .exiting) ho
    · exact hu.pass (p := .parked true 0 false) ho

def State.SleepersRest (s : State m) : Prop :=
  ∀ u msecs, s.pc u = .slept msecs → msecs ≠ 0 → s.Rests u

theorem State.SleepersRest.frame (h : s.SleepersRest) (hpc : s'.pc = s.pc)
    (hk : ∀ u, s.Rests u → s'.Rests u) : s'.SleepersRest := by
  intro u msecs hp hm
  rw [hpc] at hp
  exact hk u (h u msecs hp hm)

theorem State.SleepersRest.update {p : Pc} (h : s.SleepersRest)
    (hpc : s'.pc = Function.update s.pc t p) (hp : ∀ msecs, p ≠ .slept msecs)
    (hk : ∀ u, u ≠ t → s.Rests u → s'.Rests u) : s'.SleepersRest := by
  intro u msecs hu hm
  rw [hpc] at hu
  by_cases hut : u = t
  · subst hut
    rw [Function.update_self] at hu
    exact absurd hu (hp msecs)
  · rw [Function.update_of_ne hut] at hu
    exact hk u hut (h u msecs hu hm)

theorem keeps_leave (hr : s.schedPc i = .running t) (hut : u ≠ t) :
    Keeps s { s with schedPc := update s.schedPc i (.leave t) } u := by
  refine { Keeps.refl s u with held := held_of_pass fun g hg => ?_ }
  rw [hr] at hg
  cases hg
  exact absurd rfl hut

theorem State.Rests.sleepLeave {msecs : BitVec 64} {p : Pc} (hr : s.schedPc i = .running t)
    (h : schedSleep s t msecs = .ok s₁)
    (h₁ : ltYield { s₁ with pc := update s₁.pc t p } i t = .ok s') :
    (msecs ≠ 0 → s'.Rests t) ∧ ∀ u, u ≠ t → s.Rests u → s'.Rests u := by
  obtain ⟨-, rfl⟩ := ltYield_ok h₁
  obtain ⟨hz, rfl⟩ | ⟨-, -, key, tree, hperm, rfl⟩ := schedSleep_ok h
  · refine ⟨fun hm => absurd hz hm, fun u hut hu => ?_⟩
    exact Keeps.rests { Keeps.refl s u with held := (keeps_leave hr hut).held } hu
  · have hmem : ∀ u, u = t ∨ u ∈ s.sleeping (s.sched t) → u ∈ tree :=
      fun u hu => hperm.mem_iff.mpr (List.mem_cons.mpr hu)
    refine ⟨fun _ => .inl ?_, fun u hut hu => ?_⟩
    · simpa using hmem t (.inl rfl)
    · refine Keeps.rests { Keeps.refl s u with
        held := (keeps_leave hr hut).held
        sleeping := fun hu => ?_ } hu
      dsimp only
      rw [update_apply]
      split
      · rename_i hs
        exact hmem u (.inr (hs ▸ hu))
      · exact hu

theorem State.SleepersRest.condSignalled {c : ℕ} {next : AfterSignal} (hR : s.SleepersRest)
    (h : condSignalled s c t next = .ok s') : s'.SleepersRest := by
  obtain ⟨-, rfl⟩ | ⟨_, -, h₁⟩ := condSignalled_ok h
  · exact hR.update rfl (by simp) fun u _ hu => hu
  · obtain ⟨-, rfl⟩ := condBlock_ok h₁
    exact hR.update (Function.update_idem ..) (by simp) fun u _ hu => hu

theorem State.SleepersRest.callStep {op : Op} (hR : s.SleepersRest) (hS : s.Sleepers)
    (h : StepCase s (.call i op) s') : s'.SleepersRest := by
  cases h with
  | spawn hc hp h =>
    have hR₁ : State.SleepersRest { s with
        numLthreads := s.numLthreads + 1
        sched := Function.update s.sched s.numLthreads i
        pc := Function.update s.pc s.numLthreads .user } := by
      refine hR.update rfl (by simp) fun u hu hr => ?_
      exact Keeps.rests { Keeps.refl s u with sched := Function.update_of_ne hu .. } hr
    refine hR₁.frame ?_ fun u hu => State.Rests.push h hS.current fun _ => hu
    obtain ⟨-, rfl⟩ | ⟨-, rfl⟩ := schedPushReadyUnsafe_ok h <;> rfl
  | @sleep _ t msecs _ _ hc hp h h₁ =>
    obtain ⟨hself, hother⟩ := State.Rests.sleepLeave (hS.running hc) h h₁
    have hpc : s'.pc = Function.update s.pc t (.slept msecs) := by
      obtain ⟨-, rfl⟩ := ltYield_ok h₁
      obtain ⟨-, rfl⟩ | ⟨-, -, _, _, -, rfl⟩ := schedSleep_ok h <;> rfl
    intro u msecs' hu hm
    rw [hpc] at hu
    by_cases hut : u = t
    · subst hut
      rw [Function.update_self] at hu
      cases hu
      exact hself hm
    · rw [Function.update_of_ne hut] at hu
      exact hother u hut (hR u msecs' hu hm)
  | waitFd hc hp h =>
    obtain ⟨-, -, _, -, rfl⟩ := pollerAddWaitingLthread_ok h
    exact hR.update rfl (by simp) fun u _ hu => hu
  | condLock hc hp hm h =>
    obtain ⟨ho, rfl⟩ | ⟨-, -, h₁⟩ := condLock_ok h
    · exact hR.update rfl (by simp) fun u _ hu => hu
    · obtain ⟨-, rfl⟩ := condBlock_ok h₁
      exact hR.update rfl (by simp) fun u _ hu => hu
  | condSignal hc hp hm h =>
    obtain ⟨-, ⟨-, h₁⟩ | ⟨_, _, -, -, rfl⟩⟩ := condSignal_ok h
    · refine State.SleepersRest.condSignalled ?_ h₁
      exact hR.frame rfl fun u hu => hu
    · exact hR.update rfl (by simp) fun u _ hu => hu
  | @yield _ t _ hc hp h =>
    obtain ⟨-, rfl⟩ := ltYield_ok h
    intro u msecs hu hm
    have hut : u ≠ t := by
      rintro rfl
      rw [show s.pc u = .slept msecs from hu] at hp
      cases hp
    refine Keeps.rests ?_ (hR u msecs hu hm)
    exact { Keeps.refl s u with
      held := (keeps_leave (hS.running hc) hut).held
      resched := fun hr => (Function.update_of_ne hut ..).trans hr }
  | exit hc hp h =>
    obtain ⟨-, rfl⟩ := ltYield_ok h
    exact hR.update rfl (by simp) fun u hut hu =>
      Keeps.rests { Keeps.refl s u with held := (keeps_leave (hS.running hc) hut).held } hu
  | ret hc hp =>
    exact hR.update rfl (by simp) fun u hut hu =>
      Keeps.rests { Keeps.refl s u with held := (keeps_leave (hS.running hc) hut).held } hu
  | socket | close => exact hR.frame rfl fun u hu => hu

theorem State.SleepersRest.contStep (hR : s.SleepersRest) (hS : s.Sleepers)
    (h : StepCase s (.cont i) s') : s'.SleepersRest := by
  cases h with
  | waitFdReturn | sleepReturn => exact hR.update rfl (by simp) fun u _ hu => hu
  | register hc hp h h₁ =>
    have hs := pollerRegisterEvent_ok h
    subst hs
    obtain ⟨-, rfl⟩ := ltYield_ok h₁
    exact hR.update rfl (by simp) fun u hut hu =>
      Keeps.rests { Keeps.refl s u with held := (keeps_leave (hS.running hc) hut).held } hu
  | condLockReturn hc hp h =>
    obtain ⟨-, rfl⟩ := condLockReturn_ok h
    exact hR.update rfl (by simp) fun u _ hu => hu
  | @condSleep _ t c timeout call _ _ hc hp h h₁ =>
    have hpc : s'.pc = Function.update s.pc t (.condWake c timeout call) := by
      obtain ⟨-, rfl⟩ := ltYield_ok h₁
      obtain ⟨-, rfl⟩ | ⟨-, -, _, _, -, rfl⟩ := schedSleep_ok h <;> rfl
    exact hR.update hpc (by simp) (State.Rests.sleepLeave (hS.running hc) h h₁).2
  | condWaitReturn hc hp hm h =>
    obtain ⟨-, -, rfl⟩ | ⟨-, -, rfl⟩ | ⟨-, -, rfl⟩ := condWaitReturn_ok h <;>
      exact hR.update rfl (by simp) fun u _ hu => hu
  | @condSignalled _ t c w next s₁ _ hc hp hf h h₁ =>
    have hpc : s₁.pc = s.pc := by
      obtain ⟨_, _, _, _, _, _, rfl⟩ := wakeup_frame h
      rfl
    obtain ⟨sleeping, h₂, hsl⟩ := wakeup_ok h
    refine State.SleepersRest.condSignalled (hR.frame hpc fun u hu => ?_) h₁
    obtain ⟨-, rfl⟩ | ⟨-, -, rfl⟩ := hsl
    · exact State.Rests.push h₂ hS.current fun _ => hu
    · exact State.Rests.push h₂ hS.unsleep.current fun hut => (keeps_unsleep _ _ hut).rests hu

theorem State.SleepersRest.step (hR : s.SleepersRest) (hS : s.Sleepers) (h : StepCase s l s') :
    s'.SleepersRest := by
  cases l with
  | sched i b =>
    refine hR.frame ?_ fun u hu => hu.schedStep hS h
    obtain ⟨_, _, _, _, _, _, _, _, _, _, _, _, _, rfl⟩ := h.sched_frame (.inr ⟨b, rfl⟩)
    rfl
  | unpark i =>
    cases h with
    | @unpark _ deep timeout signalled h =>
      have ho : (s.schedPc i).holds = none := by rw [h]; rfl
      cases deep <;>
        exact hR.frame rfl fun u hu => hu.pass (p := .expire) ho
  | tick | kevent | fire | inject =>
    cases h
    exact hR.frame rfl fun u hu => hu
  | call i op => exact hR.callStep hS h
  | cont i => exact hR.contStep hS h
  | poller =>
    cases h with
    | deschedNone hp hf h | account hp h =>
      rw [handledEvent_ok h]
      exact hR.frame rfl fun u hu => hu
    | deschedSome hp hf =>
      obtain ⟨-, -, hs⟩ := pollerDeschedEvent_some hf
      rw [hs]
      exact hR.frame rfl fun u hu => hu
    | push hp hf h =>
      have hpush : ∀ u, s.Rests u → State.Rests _ u := fun u hu =>
        State.Rests.push h hS.current fun _ => hu
      refine hR.frame ?_ fun u hu => hpush u hu
      obtain ⟨-, rfl⟩ | ⟨-, rfl⟩ := schedPushReadyUnsafe_ok h <;> rfl

theorem sleepersRest_of_reach {ok : State m → Label m → Prop} {clock : ℕ} {isOpen : ℕ → Bool}
    (hr : Runs.Reach Lthread.step ok (State.init m clock isOpen) s) : s.SleepersRest := by
  apply invariant_of_reach (I := State.SleepersRest) hr
  · rw [init_eq]
    intro u msecs hu
    by_cases h : u = 0 <;> simp [h] at hu
  · intro s s' l hr hR _ hc
    exact hR.step (located_of_reach hr).toSleepers hc
  · intro s f hR
    exact hR.frame rfl fun u hu => hu

/-- The lthread is in its sleeping tree, in a ready queue or popped, or the scheduler it has
just left is about to put it in a ready queue. -/
def State.schedulable (s : State m) (t : ℕ) : Prop :=
  t ∈ s.sleeping (s.sched t) ∨ (∃ i, t ∈ s.ready i) ∨
    (∃ i, s.schedPc i = .wakeNeighbor t ∨ s.schedPc i = .setSched t ∨ s.schedPc i = .resume t) ∨
    (s.needsResched t = true ∧ ∃ i, s.schedPc i = .leave t)

theorem State.Rests.schedulable (h : s.Rests t) (hr : ∀ i, s.schedPc i ≠ .running t) :
    s.schedulable t := by
  obtain h | h | ⟨i, g, hg, hl⟩ := h
  · exact .inl h
  · exact .inr (.inl h)
  · cases hp : s.schedPc i <;> rw [hp] at hg <;> cases hg
    · exact .inr (.inr (.inl ⟨i, .inl hp⟩))
    · exact .inr (.inr (.inl ⟨i, .inr (.inl hp)⟩))
    · exact .inr (.inr (.inl ⟨i, .inr (.inr hp)⟩))
    · exact absurd hp (hr i)
    · exact .inr (.inr (.inr ⟨hl rfl, i, hp⟩))

theorem State.Idle.not_rests (h : s.Idle) : ¬ s.Rests t := by
  rintro (ht | ⟨i, ht⟩ | ⟨i, g, hg, -⟩)
  · rw [h.sleeping] at ht
    cases ht
  · rw [h.ready] at ht
    cases ht
  · rw [h.held] at hg
    cases hg

/-- In every state of every run whose signals come in time, a lthread that has called
`lthread_sleep` with a time other than 0 and has not been resumed can run again without the help
of another lthread, and the pool neither decides to shut down nor has done so. No tree or queue
has lost a lthread to a broken link. -/
theorem sleep_stays_schedulable {clock : ℕ} {isOpen : ℕ → Bool} {msecs : BitVec 64}
    (hr : InTimeReach clock isOpen s) (hp : s.pc t = .slept msecs) (hm : msecs ≠ 0)
    (hn : ∀ i, s.schedPc i ≠ .running t) :
    s.schedulable t ∧
      (∀ i, s.schedPc i = .beginDeepSleep → (poolBeginDeepSleep s i).1 = false) ∧
      (∀ i, s.schedPc i ≠ .exiting ∧ s.schedPc i ≠ .finished) ∧ s.Unbroken := by
  have hrest := sleepersRest_of_reach hr t msecs hp hm
  have hQ := quits_of_reach hr
  refine ⟨hrest.schedulable hn, ?_, ?_, hr.unbroken⟩
  · intro i hi
    by_contra hd
    refine (hQ.all fun k => ?_).not_rests hrest
    simp only [poolBeginDeepSleep, decide_eq_true_eq, Bool.not_eq_false] at hd
    by_cases hk : k = i
    · exact .inr (hk ▸ hi)
    · exact .inl (by simpa [hk] using hd k)
  · intro i
    constructor
    · exact fun hi => (hQ.left i (.inl hi)).not_rests hrest
    · exact fun hi => (hQ.left i (.inr hi)).not_rests hrest

/-- The main lthread sleeps for three milliseconds. -/
theorem sleep_stays_schedulable_three : ∃ s : State 0, InTimeReach 5 (fun _ => false) s ∧
    (s.pc 0 = .slept 3 ∧ ∀ i, s.schedPc i ≠ .running 0) ∧ s.schedulable 0 := by
  obtain ⟨s, hr, hs⟩ : ∃ s : State 0, InTimeReach 5 (fun _ => false) s ∧
      s.pc 0 = .slept 3 ∧ ∀ i, s.schedPc i ≠ .running 0 :=
    Runs.exists_reach_of_run (Label.scheds 0 5 ++ [.call 0 (.sleep 3)] ++ Label.scheds 0 1)
      (by decide +kernel)
  exact ⟨s, hr, hs, (sleep_stays_schedulable hr hs.1 (by decide) hs.2).1⟩

/-- The main lthread calls `lthread_sleep(0)`. When it has switched out it is nowhere, and
the only scheduler finds that everything is done. -/
theorem sleep_zero_is_lost : ∃ s : State 0, InTimeReach 5 (fun _ => false) s ∧
    (s.pc 0 = .slept 0 ∧ ∀ i, s.schedPc i ≠ .running 0) ∧ ¬ s.schedulable 0 ∧
    s.schedPc 0 = .beginDeepSleep ∧ (poolBeginDeepSleep s 0).1 = true := by
  obtain ⟨s, hr, hp, hsl, hre, hpc, hd⟩ : ∃ s : State 0, InTimeReach 5 (fun _ => false) s ∧
      s.pc 0 = .slept 0 ∧ (∀ i, s.sleeping i = []) ∧ (∀ i, s.ready i = []) ∧
      (∀ i, s.schedPc i = .beginDeepSleep) ∧ (poolBeginDeepSleep s 0).1 = true :=
    Runs.exists_reach_of_run (Label.scheds 0 5 ++ [.call 0 (.sleep 0)] ++ Label.scheds 0 11)
      (by decide +kernel)
  exact ⟨s, hr, ⟨hp, by simp [hpc]⟩, by simp [State.schedulable, hsl, hre, hpc], hpc 0, hd⟩

end Lthread
