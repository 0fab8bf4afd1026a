import Lthread.Outcomes
import Lthread.Runs

namespace Lthread

open Function (update)

variable {m : ℕ} {s s' : State m}

def AfterSignal.op (c : ℕ) : AfterSignal → Op
  | .unlock => .condUnlockSignal c
  | .wait timeout => .condWait c timeout

def SchedPc.probe (i : Fin (m + 1)) : SchedPc m → Option (Fin (m + 1))
  | .popOwn | .popBlock => some i
  | .steal victim => some victim
  | _ => none

/-- Everything a step can do that does not fail an assertion. -/
inductive StepCase (s : State m) : Label m → State m → Prop where
  | tick (usecs : ℕ) : StepCase s (.tick usecs) { s with clock := s.clock + usecs }
  | clockRead {i b} (h : s.schedPc i = .expire) :
      StepCase s (.sched i b) { s with schedPc := update s.schedPc i (.expiring s.usecNow) }
  | expired {i b now s₁} (h : s.schedPc i = .expiring now)
      (h₁ : scheduleExpired s i now = .ok s₁) :
      StepCase s (.sched i b) { s₁ with schedPc := update s₁.schedPc i .popOwn }
  | probeFail {i b p} (h : s.schedPc i = .popOwn ∨ ∃ v, s.schedPc i = .steal v)
      (hp : p = .popBlock ∨ ∃ v, p = .steal v) :
      StepCase s (.sched i b) { s with schedPc := update s.schedPc i p }
  | popEmpty {i b} (h : s.schedPc i = .popBlock) (hr : s.ready i = []) :
      StepCase s (.sched i b) { s with schedPc := update s.schedPc i .block }
  | pop {i b v t rest p} (h : (s.schedPc i).probe i = some v) (hr : s.ready v = t :: rest)
      (hp : p = .setSched t ∨ p = .wakeNeighbor t) :
      StepCase s (.sched i b)
        { s with ready := update s.ready v rest, schedPc := update s.schedPc i p }
  | wakeNeighbor {i b t s'} (h : s.schedPc i = .wakeNeighbor t)
      (h₁ : wakeNeighbor s i (.setSched t) = some s') : StepCase s (.sched i b) s'
  | setSched {i b t} (h : s.schedPc i = .setSched t) :
      StepCase s (.sched i b)
        { s with sched := update s.sched t i, schedPc := update s.schedPc i (.resume t) }
  | resume {i b t s'} (h : s.schedPc i = .resume t) (h₁ : resumeEnter s i t = .ok s') :
      StepCase s (.sched i b) s'
  | leave {i b t s'} (h : s.schedPc i = .leave t) (h₁ : resumeLeave s i t = .ok s') :
      StepCase s (.sched i b) s'
  | block {i b s'} (h : s.schedPc i = .block) (h₁ : schedBlock s i = .ok s') :
      StepCase s (.sched i b) s'
  | deepSleep {i b} (h : s.schedPc i = .beginDeepSleep) :
      StepCase s (.sched i b) (schedDeepSleep s i)
  | finish {i b s'} (h : s.schedPc i = .exiting) (h₁ : wakeNeighbor s i .finished = some s') :
      StepCase s (.sched i b) s'
  | unpark {i deep timeout signalled} (h : s.schedPc i = .parked deep timeout signalled) :
      StepCase s (.unpark i) (schedUnpark s i deep)
  | spawn {i t s'} (hc : ltCurrent s i = some t) (hp : s.pc t = .user)
      (h : ltCreate s i = .ok s') : StepCase s (.call i .spawn) s'
  | yield {i t s'} (hc : ltCurrent s i = some t) (hp : s.pc t = .user)
      (h : ltYield { s with needsResched := update s.needsResched t true } i t = .ok s') :
      StepCase s (.call i .yield) s'
  | sleep {i t msecs s₁ s'} (hc : ltCurrent s i = some t) (hp : s.pc t = .user)
      (h : schedSleep s t msecs = .ok s₁)
      (h₁ : ltYield { s₁ with pc := update s₁.pc t (.slept msecs) } i t = .ok s') :
      StepCase s (.call i (.sleep msecs)) s'
  | waitFd {i t fd e s₁} (hc : ltCurrent s i = some t) (hp : s.pc t = .user)
      (h : pollerAddWaitingLthread s t fd e = .ok s₁) :
      StepCase s (.call i (.waitFd fd e)) { s₁ with pc := update s₁.pc t (.register fd e) }
  | condLock {i t c s'} (hc : ltCurrent s i = some t) (hp : s.pc t = .user)
      (hm : s.condMutex c = none) (h : condLock s c t = .ok s') :
      StepCase s (.call i (.condLock c)) s'
  | condSignal {i t c next s'} (hc : ltCurrent s i = some t) (hp : s.pc t = .user)
      (hm : s.condMutex c = none) (h : condSignal s c t next = .ok s') :
      StepCase s (.call i (next.op c)) s'
  | socket {i t fd} (hc : ltCurrent s i = some t) (hp : s.pc t = .user)
      (ho : s.isOpen fd = false) :
      StepCase s (.call i (.socket fd)) { s with isOpen := update s.isOpen fd true }
  | close {i t fd} (hc : ltCurrent s i = some t) (hp : s.pc t = .user) :
      StepCase s (.call i (.close fd)) (kernelClose s fd)
  | exit {i t s'} (hc : ltCurrent s i = some t) (hp : s.pc t = .user)
      (h : ltYield { s with
        stExited := update s.stExited t true, pc := update s.pc t .exited } i t = .ok s') :
      StepCase s (.call i .exit) s'
  | ret {i t} (hc : ltCurrent s i = some t) (hp : s.pc t = .user) :
      StepCase s (.call i .ret)
        { s with pc := update s.pc t .returned, schedPc := update s.schedPc i (.leave t) }
  | register {i t fd e s₁ s'} (hc : ltCurrent s i = some t) (hp : s.pc t = .register fd e)
      (h : pollerRegisterEvent s fd e = .ok s₁)
      (h₁ : ltYield { s₁ with pc := update s₁.pc t (.waitFd fd e) } i t = .ok s') :
      StepCase s (.cont i) s'
  | waitFdReturn {i t fd e} (hc : ltCurrent s i = some t) (hp : s.pc t = .waitFd fd e) :
      StepCase s (.cont i) { s with
        stFdEof := update s.stFdEof t false
        ret := update s.ret t (if s.stFdEof t then -1 else 0)
        pc := update s.pc t .user }
  | sleepReturn {i t msecs} (hc : ltCurrent s i = some t) (hp : s.pc t = .slept msecs) :
      StepCase s (.cont i) { s with pc := update s.pc t .user }
  | condLockReturn {i t c s'} (hc : ltCurrent s i = some t) (hp : s.pc t = .condLocked c)
      (h : condLockReturn s c t = .ok s') : StepCase s (.cont i) s'
  | condSleep {i t c timeout call s₁ s'} (hc : ltCurrent s i = some t)
      (hp : s.pc t = .condSleep c timeout call) (h : schedSleep s t timeout = .ok s₁)
      (h₁ : ltYield { s₁ with pc := update s₁.pc t (.condWake c timeout call) } i t = .ok s') :
      StepCase s (.cont i) s'
  | condWaitReturn {i t c timeout call s'} (hc : ltCurrent s i = some t)
      (hp : s.pc t = .condWake c timeout call) (hm : s.condMutex c = none)
      (h : condWaitReturn s c t call = .ok s') : StepCase s (.cont i) s'
  | condSignalled {i t c u next s₁ s'} (hc : ltCurrent s i = some t)
      (hp : s.pc t = .condSignal c u next) (hf : s.mutexFree (s.sched u))
      (h : wakeup s u = .ok s₁) (h₁ : condSignalled s₁ c t next = .ok s') :
      StepCase s (.cont i) s'
  | deschedNone {ev dir ltRead rest s'} (hp : s.pollerPc = .desched ev dir ltRead rest)
      (hf : (pollerDeschedEvent s ev.fd dir).1 = none)
      (h : handledEvent s ev dir ltRead none rest = .ok s') : StepCase s .poller s'
  | deschedSome {ev dir ltRead rest t} (hp : s.pollerPc = .desched ev dir ltRead rest)
      (hf : (pollerDeschedEvent s ev.fd dir).1 = some t) :
      StepCase s .poller { (pollerDeschedEvent s ev.fd dir).2 with
        pollerPc := .push t ev dir ltRead rest }
  | push {t ev dir ltRead rest s₁} (hp : s.pollerPc = .push t ev dir ltRead rest)
      (hf : s.mutexFree (s.sched t)) (h : pollerPushEvent s t ev.isEof = .ok s₁) :
      StepCase s .poller { s₁ with pollerPc := .account t ev dir ltRead rest }
  | account {t ev dir ltRead rest s'} (hp : s.pollerPc = .account t ev dir ltRead rest)
      (h : handledEvent { s with numPendingEvents := s.numPendingEvents - 1 } ev dir ltRead
        (some t) rest = .ok s') : StepCase s .poller s'
  | kevent {k} (hp : s.pollerPc = .poll) (hk : k ≤ s.fired.length) :
      StepCase s (.kevent k)
        { s with pollerPc := nextEvent (s.fired.take k), fired := s.fired.drop k }
  | fire {fd e isEof} (ha : s.armed fd e = true) :
      StepCase s (.fire fd e isEof) { s with
        armed := update s.armed fd (update (s.armed fd) e false)
        fired := s.fired ++ [⟨fd, e, isEof⟩] }
  | inject (ev : KEvent) : StepCase s (.inject ev) { s with fired := s.fired ++ [ev] }

theorem stealFrom_cases (i v : Fin (m + 1)) :
    stealFrom i v = .popBlock ∨ ∃ w, stealFrom i v = (.steal w : SchedPc m) := by
  unfold stealFrom
  split
  · exact .inl rfl
  · exact .inr ⟨v, rfl⟩

theorem popReady_case {i v : Fin (m + 1)} {b : Bool} {next : SchedPc m}
    (h : (s.schedPc i).probe i = some v)
    (he : s.ready v = [] → StepCase s (.sched i b) { s with schedPc := update s.schedPc i next }) :
    StepCase s (.sched i b) (popReady s i v next) := by
  unfold popReady
  split
  · exact he ‹_›
  · refine .pop h ‹_› ?_
    split
    · exact .inl rfl
    · exact .inr rfl

theorem schedStep_case {i : Fin (m + 1)} {b : Bool} (h : schedStep s i b = some (.ok s')) :
    StepCase s (.sched i b) s' := by
  unfold schedStep at h
  cases hp : s.schedPc i with
  | expire =>
    simp only [hp] at h
    cases h
    exact .clockRead hp
  | expiring now =>
    simp only [hp] at h
    obtain ⟨s₁, h₁, h₂⟩ := bind_ok (Option.some.inj h)
    cases h₂
    exact .expired hp h₁
  | popOwn =>
    simp only [hp] at h
    have hn := stealFrom_cases i (schedNeighbor i)
    cases Except.ok.inj (Option.some.inj h)
    split
    · exact popReady_case (by simp [hp, SchedPc.probe]) fun _ => .probeFail (.inl hp) hn
    · exact .probeFail (.inl hp) hn
  | steal v =>
    simp only [hp] at h
    have hn := stealFrom_cases i (schedNeighbor v)
    cases Except.ok.inj (Option.some.inj h)
    split
    · exact popReady_case (by simp [hp, SchedPc.probe]) fun _ => .probeFail (.inr ⟨v, hp⟩) hn
    · exact .probeFail (.inr ⟨v, hp⟩) hn
  | popBlock =>
    simp only [hp] at h
    cases h
    exact popReady_case (by simp [hp, SchedPc.probe]) fun hr => .popEmpty hp hr
  | wakeNeighbor t =>
    simp only [hp, Option.map_eq_some_iff, Except.ok.injEq, exists_eq_right] at h
    exact .wakeNeighbor hp h
  | setSched t =>
    simp only [hp] at h
    cases h
    exact .setSched hp
  | resume t =>
    simp only [hp] at h
    exact .resume hp (Option.some.inj h)
  | leave t =>
    simp only [hp] at h
    exact .leave hp (Option.some.inj h)
  | block =>
    simp only [hp] at h
    exact .block hp (Option.some.inj h)
  | beginDeepSleep =>
    simp only [hp] at h
    cases h
    exact .deepSleep hp
  | exiting =>
    simp only [hp, Option.map_eq_some_iff, Except.ok.injEq, exists_eq_right] at h
    exact .finish hp h
  | running _ | parked _ _ _ | finished => simp [hp] at h

theorem callStep_case {i : Fin (m + 1)} {t : ℕ} {op : Op} (hc : ltCurrent s i = some t)
    (hp : s.pc t = .user) (h : callStep s i t op = some (.ok s')) :
    StepCase s (.call i op) s' := by
  cases op with
  | spawn => exact .spawn hc hp (Option.some.inj h)
  | yield => exact .yield hc hp (Option.some.inj h)
  | sleep msecs =>
    obtain ⟨s₁, h₁, h₂⟩ := bind_ok (Option.some.inj h)
    exact .sleep hc hp h₁ h₂
  | waitFd fd e =>
    obtain ⟨s₁, h₁, h₂⟩ := bind_ok (Option.some.inj h)
    cases h₂
    exact .waitFd hc hp h₁
  | condLock c =>
    simp only [callStep] at h
    split at h
    · exact .condLock hc hp ‹_› (Option.some.inj h)
    · cases h
  | condWait c timeout =>
    simp only [callStep] at h
    split at h
    · have hs : StepCase s (.call i ((AfterSignal.wait timeout).op c)) s' :=
        .condSignal hc hp ‹_› (Option.some.inj h)
      exact hs
    · cases h
  | condUnlockSignal c =>
    simp only [callStep] at h
    split at h
    · have hs : StepCase s (.call i (AfterSignal.unlock.op c)) s' :=
        .condSignal hc hp ‹_› (Option.some.inj h)
      exact hs
    · cases h
  | socket fd =>
    simp only [callStep] at h
    split at h
    · cases h
    · rename_i ho
      cases h
      exact .socket hc hp (by simpa using ho)
  | close fd =>
    simp only [callStep] at h
    split at h
    · cases h
      exact .close hc hp
    · cases h
  | exit => exact .exit hc hp (Option.some.inj h)
  | ret =>
    cases h
    exact .ret hc hp

theorem contStep_case {i : Fin (m + 1)} {t : ℕ} (hc : ltCurrent s i = some t)
    (h : contStep s i t = some (.ok s')) : StepCase s (.cont i) s' := by
  unfold contStep at h
  cases hp : s.pc t with
  | register fd e =>
    simp only [hp] at h
    obtain ⟨s₁, h₁, h₂⟩ := bind_ok (Option.some.inj h)
    exact .register hc hp h₁ h₂
  | waitFd fd e =>
    simp only [hp] at h
    cases h
    exact .waitFdReturn hc hp
  | slept msecs =>
    simp only [hp] at h
    cases h
    exact .sleepReturn hc hp
  | condLocked c =>
    simp only [hp] at h
    exact .condLockReturn hc hp (Option.some.inj h)
  | condSleep c timeout call =>
    simp only [hp] at h
    obtain ⟨s₁, h₁, h₂⟩ := bind_ok (Option.some.inj h)
    exact .condSleep hc hp h₁ h₂
  | condWake c timeout call =>
    simp only [hp] at h
    split at h
    · exact .condWaitReturn hc hp ‹_› (Option.some.inj h)
    · cases h
  | condSignal c u next =>
    simp only [hp] at h
    split at h
    · obtain ⟨s₁, h₁, h₂⟩ := bind_ok (Option.some.inj h)
      exact .condSignalled hc hp ‹_› h₁ h₂
    · cases h
  | unborn | user | exited | returned => simp [hp] at h

theorem pollerStep_case (h : pollerStep s = some (.ok s')) : StepCase s .poller s' := by
  unfold pollerStep at h
  cases hp : s.pollerPc with
  | poll => simp [hp] at h
  | desched ev dir ltRead rest =>
    simp only [hp] at h
    cases hd : pollerDeschedEvent s ev.fd dir with
    | mk lt s₁ =>
      rw [hd] at h
      cases lt with
      | none =>
        have hs : s₁ = s := by
          unfold pollerDeschedEvent at hd
          split at hd
          · exact (Prod.ext_iff.mp hd).2.symm
          · cases hd
        subst hs
        exact .deschedNone hp (by rw [hd]) (Option.some.inj h)
      | some t =>
        cases h
        have hc := StepCase.deschedSome (t := t) hp (by rw [hd])
        rwa [hd] at hc
  | push t ev dir ltRead rest =>
    simp only [hp] at h
    split at h
    · obtain ⟨s₁, h₁, h₂⟩ := bind_ok (Option.some.inj h)
      cases h₂
      exact .push hp ‹_› h₁
    · cases h
  | account t ev dir ltRead rest =>
    simp only [hp] at h
    exact .account hp (Option.some.inj h)

theorem exec_case {l : Label m} (h : exec s l = some (.ok s')) : StepCase s l s' := by
  cases l with
  | tick usecs =>
    cases h
    exact .tick usecs
  | sched i b => exact schedStep_case h
  | unpark i =>
    simp only [exec] at h
    split at h
    · cases h
      exact .unpark ‹_›
    · cases h
  | call i op =>
    simp only [exec] at h
    split at h
    · split at h
      · exact callStep_case ‹_› ‹_› h
      · cases h
    · cases h
  | cont i =>
    simp only [exec] at h
    split at h
    · exact contStep_case ‹_› h
    · cases h
  | poller => exact pollerStep_case h
  | kevent k =>
    simp only [exec, Option.map_eq_some_iff, Except.ok.injEq, exists_eq_right] at h
    unfold keventReturn at h
    split at h
    · rename_i hk
      cases h
      exact .kevent hk.1 hk.2.2
    · cases h
  | fire fd e isEof =>
    simp only [exec, Option.map_eq_some_iff, Except.ok.injEq, exists_eq_right] at h
    unfold kernelFire at h
    split at h
    · cases h
      exact .fire ‹_›
    · cases h
  | inject ev =>
    cases h
    exact .inject ev

theorem expireLoop_frame {i : Fin (m + 1)} {now : BitVec 64} {fuel : ℕ}
    (h : expireLoop i now fuel s = .ok s') :
    ∃ sleeping ready resched block asleep schedPc, s' = { s with
      sleeping := sleeping, ready := ready, needsResched := resched, blockState := block
      asleep := asleep, schedPc := schedPc } := by
  induction fuel generalizing s with
  | zero =>
    cases h
    exact ⟨_, _, _, _, _, _, rfl⟩
  | succ fuel ih =>
    simp only [expireLoop] at h
    split at h
    · cases h
      exact ⟨_, _, _, _, _, _, rfl⟩
    · split at h
      · obtain ⟨s₁, h₁, h₂⟩ := bind_ok h
        obtain ⟨_, _, _, _, _, _, rfl⟩ := ih h₂
        obtain ⟨-, rfl⟩ | ⟨-, rfl⟩ := schedPushReadyUnsafe_ok (deschedSleepUnsafe_ok h₁).2
        · exact ⟨_, _, _, _, _, _, rfl⟩
        · exact ⟨_, _, _, _, _, _, rfl⟩
      · cases h
        exact ⟨_, _, _, _, _, _, rfl⟩

theorem step_cases {l : Label m} (h : step s l = some s') :
    s.fault = none ∧ (StepCase s l s' ∨
      ∃ f, exec s l = some (.error f) ∧ s' = { s with fault := some f }) := by
  unfold step at h
  split at h
  · cases h
  · rename_i hf
    refine ⟨by simpa using hf, ?_⟩
    split at h
    · cases h
    · cases h
      exact .inl (exec_case ‹_›)
    · cases h
      exact .inr ⟨_, ‹_›, rfl⟩

theorem init_eq (m clock : ℕ) (isOpen : ℕ → Bool) :
    State.init m clock isOpen = { State.empty m clock isOpen with
      numLthreads := 1
      pc := update (fun _ => .unborn) 0 .user
      ready := update (fun _ => []) 0 [0]
      blockState := update (fun _ => .willBlock) 0 .wontBlock } := by
  simp [State.init, ltCreate, schedPushReadyUnsafe, insertReady, schedWakeUnsafe, State.empty,
    bind, Except.bind, pure, Except.pure]

theorem invariant_of_reach {ok : State m → Label m → Prop} {clock : ℕ} {isOpen : ℕ → Bool}
    {I : State m → Prop} (hr : Runs.Reach step ok (State.init m clock isOpen) s)
    (h₀ : I (State.init m clock isOpen))
    (hstep : ∀ {s s' : State m} {l : Label m}, Runs.Reach step ok (State.init m clock isOpen) s →
      I s → ok s l → StepCase s l s' → I s')
    (hfault : ∀ {s : State m} {f : Fault}, I s → I { s with fault := some f }) : I s := by
  apply hr.invariant h₀
  intro s s' l hr hI hl hs
  obtain ⟨-, hc | ⟨f, -, rfl⟩⟩ := step_cases hs
  · exact hstep hr hI hl hc
  · exact hfault hI

theorem StepCase.sched_frame {i : Fin (m + 1)} {l : Label m} (h : StepCase s l s')
    (hl : l = .unpark i ∨ ∃ b, l = .sched i b) :
    ∃ schedPc current block sleeping ready asleep sched st usecs running resched freed frees,
      s' = { s with
        schedPc := schedPc, currentLthread := current, blockState := block, sleeping := sleeping
        ready := ready, asleep := asleep, sched := sched, stSleeping := st, sleepUsecs := usecs
        isRunning := running, needsResched := resched, freed := freed
        frees := frees } := by
  obtain rfl | ⟨b, rfl⟩ := hl
  · cases h with
    | unpark h =>
      rename_i deep _ _
      cases deep <;> exact ⟨_, _, _, _, _, _, _, _, _, _, _, _, _, rfl⟩
  · cases h with
    | expired h h₁ =>
      obtain ⟨_, _, _, _, _, _, rfl⟩ := expireLoop_frame h₁
      exact ⟨_, _, _, _, _, _, _, _, _, _, _, _, _, rfl⟩
    | wakeNeighbor h h₁ | finish h h₁ =>
      obtain ⟨-, rfl⟩ | ⟨-, -, rfl⟩ := wakeNeighbor_some h₁ <;>
        exact ⟨_, _, _, _, _, _, _, _, _, _, _, _, _, rfl⟩
    | resume h h₁ =>
      obtain ⟨-, -, rfl⟩ := resumeEnter_ok h₁
      exact ⟨_, _, _, _, _, _, _, _, _, _, _, _, _, rfl⟩
    | leave h h₁ =>
      have hs := resumeLeave_ok h₁
      subst hs
      exact ⟨_, _, _, _, _, _, _, _, _, _, _, _, _, rfl⟩
    | block h h₁ =>
      obtain ⟨-, rfl⟩ | ⟨-, -, -, -, rfl⟩ | ⟨-, _, rfl⟩ := schedBlock_ok h₁ <;>
        exact ⟨_, _, _, _, _, _, _, _, _, _, _, _, _, rfl⟩
    | deepSleep h =>
      obtain ⟨-, hs⟩ | ⟨-, hs⟩ := schedDeepSleep_cases s i <;> rw [hs] <;>
        exact ⟨_, _, _, _, _, _, _, _, _, _, _, _, _, rfl⟩
    | clockRead | probeFail | popEmpty | pop | setSched =>
      exact ⟨_, _, _, _, _, _, _, _, _, _, _, _, _, rfl⟩

theorem wakeup_frame {u : ℕ} (h : wakeup s u = .ok s') :
    ∃ sleeping ready resched block asleep schedPc, s' = { s with
      sleeping := sleeping, ready := ready, needsResched := resched, blockState := block
      asleep := asleep, schedPc := schedPc } := by
  obtain ⟨sleeping, h₁, -⟩ := wakeup_ok h
  obtain ⟨-, rfl⟩ | ⟨-, rfl⟩ := schedPushReadyUnsafe_ok h₁
  · exact ⟨_, _, _, _, _, _, rfl⟩
  · exact ⟨_, _, _, _, _, _, rfl⟩

structure LthreadFrame (s : State m) (l : Label m) (s' : State m) : Prop where
  fault : s'.fault = s.fault
  pollerPc : s'.pollerPc = s.pollerPc
  current : s'.currentLthread = s.currentLthread
  freed : s'.freed = s.freed
  frees : s'.frees = s.frees
  fdEof : ∀ t, s'.stFdEof t = true → s.stFdEof t = true
  isOpen : ∀ fd, s.isOpen fd = true → s'.isOpen fd = true ∨ ∃ i, l = .call i (.close fd)

theorem LthreadFrame.of_eq {l : Label m} (hfault : s'.fault = s.fault)
    (hpoller : s'.pollerPc = s.pollerPc) (hcurrent : s'.currentLthread = s.currentLthread)
    (hfreed : s'.freed = s.freed) (hfrees : s'.frees = s.frees) (heof : s'.stFdEof = s.stFdEof)
    (hopen : s'.isOpen = s.isOpen) : LthreadFrame s l s' where
  fault := hfault
  pollerPc := hpoller
  current := hcurrent
  freed := hfreed
  frees := hfrees
  fdEof t h := by rwa [heof] at h
  isOpen fd h := .inl (by rwa [hopen])

theorem StepCase.lthread_frame {i : Fin (m + 1)} {l : Label m} (h : StepCase s l s')
    (hl : l = .cont i ∨ ∃ op, l = .call i op) : LthreadFrame s l s' := by
  obtain rfl | ⟨op, rfl⟩ := hl
  · cases h with
    | register _ _ h h₁ =>
      have hs := pollerRegisterEvent_ok h
      subst hs
      obtain ⟨-, rfl⟩ := ltYield_ok h₁
      exact .of_eq rfl rfl rfl rfl rfl rfl rfl
    | @waitFdReturn _ t _ _ hc hp =>
      refine ⟨rfl, rfl, rfl, rfl, rfl, fun u hu => ?_, fun _ h => .inl h⟩
      have hut : u ≠ t := by
        rintro rfl
        simp at hu
      simpa [hut] using hu
    | sleepReturn => exact .of_eq rfl rfl rfl rfl rfl rfl rfl
    | condLockReturn _ _ h =>
      obtain ⟨-, rfl⟩ := condLockReturn_ok h
      exact .of_eq rfl rfl rfl rfl rfl rfl rfl
    | condSleep _ _ h h₁ =>
      obtain ⟨-, rfl⟩ := ltYield_ok h₁
      obtain ⟨-, rfl⟩ | ⟨-, -, _, _, -, rfl⟩ := schedSleep_ok h <;>
        exact .of_eq rfl rfl rfl rfl rfl rfl rfl
    | condWaitReturn _ _ _ h =>
      obtain ⟨-, -, rfl⟩ | ⟨-, -, rfl⟩ | ⟨-, -, rfl⟩ := condWaitReturn_ok h <;>
        exact .of_eq rfl rfl rfl rfl rfl rfl rfl
    | condSignalled _ _ _ h h₁ =>
      obtain ⟨_, _, _, _, _, _, rfl⟩ := wakeup_frame h
      obtain ⟨-, rfl⟩ | ⟨_, -, h₂⟩ := condSignalled_ok h₁
      · exact .of_eq rfl rfl rfl rfl rfl rfl rfl
      · obtain ⟨-, rfl⟩ := condBlock_ok h₂
        exact .of_eq rfl rfl rfl rfl rfl rfl rfl
  · generalize hl : Label.call i op = l at h
    cases h with
    | spawn _ _ h =>
      obtain ⟨-, rfl⟩ | ⟨-, rfl⟩ := schedPushReadyUnsafe_ok h <;>
        exact .of_eq rfl rfl rfl rfl rfl rfl rfl
    | yield _ _ h | exit _ _ h =>
      obtain ⟨-, rfl⟩ := ltYield_ok h
      exact .of_eq rfl rfl rfl rfl rfl rfl rfl
    | sleep _ _ h h₁ =>
      obtain ⟨-, rfl⟩ := ltYield_ok h₁
      obtain ⟨-, rfl⟩ | ⟨-, -, _, _, -, rfl⟩ := schedSleep_ok h <;>
        exact .of_eq rfl rfl rfl rfl rfl rfl rfl
    | waitFd _ _ h =>
      obtain ⟨-, -, _, -, rfl⟩ := pollerAddWaitingLthread_ok h
      exact .of_eq rfl rfl rfl rfl rfl rfl rfl
    | condLock _ _ _ h =>
      obtain ⟨-, rfl⟩ | ⟨-, -, h₁⟩ := condLock_ok h
      · exact .of_eq rfl rfl rfl rfl rfl rfl rfl
      · obtain ⟨-, rfl⟩ := condBlock_ok h₁
        exact .of_eq rfl rfl rfl rfl rfl rfl rfl
    | condSignal _ _ _ h =>
      obtain ⟨-, ⟨-, h₁⟩ | ⟨_, _, -, -, rfl⟩⟩ := condSignal_ok h
      · obtain ⟨-, rfl⟩ | ⟨_, -, h₂⟩ := condSignalled_ok h₁
        · exact .of_eq rfl rfl rfl rfl rfl rfl rfl
        · obtain ⟨-, rfl⟩ := condBlock_ok h₂
          exact .of_eq rfl rfl rfl rfl rfl rfl rfl
      · exact .of_eq rfl rfl rfl rfl rfl rfl rfl
    | @socket _ _ fd hc hp ho =>
      refine ⟨rfl, rfl, rfl, rfl, rfl, fun _ h => h, fun fd' h => .inl ?_⟩
      by_cases hfd : fd' = fd
      · rw [hfd]
        exact Function.update_self ..
      · exact (Function.update_of_ne hfd ..).trans h
    | @close i _ fd hc hp =>
      refine ⟨rfl, rfl, rfl, rfl, rfl, fun _ h => h, fun fd' h => ?_⟩
      by_cases hfd : fd' = fd
      · exact .inr ⟨i, by rw [hfd]⟩
      · exact .inl ((Function.update_of_ne hfd ..).trans h)
    | ret => exact .of_eq rfl rfl rfl rfl rfl rfl rfl
    | _ => cases hl

theorem StepCase.waiting_frame {i : Fin (m + 1)} {l : Label m} (h : StepCase s l s')
    (hl : l = .cont i ∨ ∃ op, l = .call i op) :
    (s'.waiting = s.waiting ∧ s'.numPendingEvents = s.numPendingEvents ∧
      s'.stWaitRead = s.stWaitRead ∧ s'.stWaitWrite = s.stWaitWrite ∧ s'.fdWait = s.fdWait) ∨
    ∃ t fd e s₁, l = .call i (.waitFd fd e) ∧ ltCurrent s i = some t ∧ s.pc t = .user ∧
      pollerAddWaitingLthread s t fd e = .ok s₁ ∧
      s' = { s₁ with pc := update s₁.pc t (.register fd e) } := by
  obtain rfl | ⟨op, rfl⟩ := hl
  · refine .inl ?_
    cases h with
    | register _ _ h h₁ =>
      have hs := pollerRegisterEvent_ok h
      subst hs
      obtain ⟨-, rfl⟩ := ltYield_ok h₁
      exact ⟨rfl, rfl, rfl, rfl, rfl⟩
    | waitFdReturn | sleepReturn => exact ⟨rfl, rfl, rfl, rfl, rfl⟩
    | condLockReturn _ _ h =>
      obtain ⟨-, rfl⟩ := condLockReturn_ok h
      exact ⟨rfl, rfl, rfl, rfl, rfl⟩
    | condSleep _ _ h h₁ =>
      obtain ⟨-, rfl⟩ := ltYield_ok h₁
      obtain ⟨-, rfl⟩ | ⟨-, -, _, _, -, rfl⟩ := schedSleep_ok h <;> exact ⟨rfl, rfl, rfl, rfl, rfl⟩
    | condWaitReturn _ _ _ h =>
      obtain ⟨-, -, rfl⟩ | ⟨-, -, rfl⟩ | ⟨-, -, rfl⟩ := condWaitReturn_ok h <;>
        exact ⟨rfl, rfl, rfl, rfl, rfl⟩
    | condSignalled _ _ _ h h₁ =>
      obtain ⟨_, _, _, _, _, _, rfl⟩ := wakeup_frame h
      obtain ⟨-, rfl⟩ | ⟨_, -, h₂⟩ := condSignalled_ok h₁
      · exact ⟨rfl, rfl, rfl, rfl, rfl⟩
      · obtain ⟨-, rfl⟩ := condBlock_ok h₂
        exact ⟨rfl, rfl, rfl, rfl, rfl⟩
  · cases h with
    | waitFd hc hp h => exact .inr ⟨_, _, _, _, rfl, hc, hp, h, rfl⟩
    | spawn _ _ h =>
      obtain ⟨-, rfl⟩ | ⟨-, rfl⟩ := schedPushReadyUnsafe_ok h <;>
        exact .inl ⟨rfl, rfl, rfl, rfl, rfl⟩
    | yield _ _ h | exit _ _ h =>
      obtain ⟨-, rfl⟩ := ltYield_ok h
      exact .inl ⟨rfl, rfl, rfl, rfl, rfl⟩
    | sleep _ _ h h₁ =>
      obtain ⟨-, rfl⟩ := ltYield_ok h₁
      obtain ⟨-, rfl⟩ | ⟨-, -, _, _, -, rfl⟩ := schedSleep_ok h <;>
        exact .inl ⟨rfl, rfl, rfl, rfl, rfl⟩
    | condLock _ _ _ h =>
      obtain ⟨-, rfl⟩ | ⟨-, -, h₁⟩ := condLock_ok h
      · exact .inl ⟨rfl, rfl, rfl, rfl, rfl⟩
      · obtain ⟨-, rfl⟩ := condBlock_ok h₁
        exact .inl ⟨rfl, rfl, rfl, rfl, rfl⟩
    | condSignal _ _ _ h =>
      obtain ⟨-, ⟨-, h₁⟩ | ⟨_, _, -, -, rfl⟩⟩ := condSignal_ok h
      · obtain ⟨-, rfl⟩ | ⟨_, -, h₂⟩ := condSignalled_ok h₁
        · exact .inl ⟨rfl, rfl, rfl, rfl, rfl⟩
        · obtain ⟨-, rfl⟩ := condBlock_ok h₂
          exact .inl ⟨rfl, rfl, rfl, rfl, rfl⟩
      · exact .inl ⟨rfl, rfl, rfl, rfl, rfl⟩
    | socket | close | ret => exact .inl ⟨rfl, rfl, rfl, rfl, rfl⟩

theorem StepCase.poller_frame (h : StepCase s .poller s') :
    ∃ pollerPc waiting pending fdWait rd wr eof ready resched block asleep schedPc, s' = { s with
      pollerPc := pollerPc, waiting := waiting, numPendingEvents := pending, fdWait := fdWait
      stWaitRead := rd, stWaitWrite := wr, stFdEof := eof, ready := ready, needsResched := resched
      blockState := block, asleep := asleep, schedPc := schedPc } := by
  cases h with
  | deschedNone hp hf h | account hp h =>
    rw [handledEvent_ok h]
    exact ⟨_, _, _, _, _, _, _, _, _, _, _, _, rfl⟩
  | deschedSome hp hf =>
    unfold pollerDeschedEvent
    split <;> exact ⟨_, _, _, _, _, _, _, _, _, _, _, _, rfl⟩
  | push hp hf h =>
    obtain ⟨-, rfl⟩ | ⟨-, rfl⟩ := schedPushReadyUnsafe_ok h <;>
      exact ⟨_, _, _, _, _, _, _, _, _, _, _, _, rfl⟩

structure SystemFrame (s s' : State m) : Prop where
  fault : s'.fault = s.fault
  pc : s'.pc = s.pc
  isOpen : s'.isOpen = s.isOpen
  owner : s'.owner = s.owner
  holds : s'.holds = s.holds
  blockedLthreads : s'.blockedLthreads = s.blockedLthreads

theorem StepCase.system_or_code {l : Label m} (h : StepCase s l s') :
    SystemFrame s s' ∨ ∃ i, l = .cont i ∨ ∃ op, l = .call i op := by
  cases l with
  | sched i b =>
    obtain ⟨_, _, _, _, _, _, _, _, _, _, _, _, _, rfl⟩ := h.sched_frame (.inr ⟨b, rfl⟩)
    exact .inl ⟨rfl, rfl, rfl, rfl, rfl, rfl⟩
  | unpark i =>
    obtain ⟨_, _, _, _, _, _, _, _, _, _, _, _, _, rfl⟩ := h.sched_frame (.inl rfl)
    exact .inl ⟨rfl, rfl, rfl, rfl, rfl, rfl⟩
  | poller =>
    obtain ⟨_, _, _, _, _, _, _, _, _, _, _, _, rfl⟩ := h.poller_frame
    exact .inl ⟨rfl, rfl, rfl, rfl, rfl, rfl⟩
  | tick | kevent | fire | inject =>
    cases h
    exact .inl ⟨rfl, rfl, rfl, rfl, rfl, rfl⟩
  | call i op => exact .inr ⟨i, .inr ⟨op, rfl⟩⟩
  | cont i => exact .inr ⟨i, .inl rfl⟩

structure IoFrame (s s' : State m) : Prop where
  pc : s'.pc = s.pc
  waiting : s'.waiting = s.waiting
  stFdEof : s'.stFdEof = s.stFdEof

theorem StepCase.io_frame {l : Label m} (h : StepCase s l s') :
    IoFrame s s' ∨ l = .poller ∨ ∃ i, l = .cont i ∨ ∃ op, l = .call i op := by
  cases l with
  | sched i b =>
    obtain ⟨_, _, _, _, _, _, _, _, _, _, _, _, _, rfl⟩ := h.sched_frame (.inr ⟨b, rfl⟩)
    exact .inl ⟨rfl, rfl, rfl⟩
  | unpark i =>
    obtain ⟨_, _, _, _, _, _, _, _, _, _, _, _, _, rfl⟩ := h.sched_frame (.inl rfl)
    exact .inl ⟨rfl, rfl, rfl⟩
  | tick | kevent | fire | inject =>
    cases h
    exact .inl ⟨rfl, rfl, rfl⟩
  | poller => exact .inr (.inl rfl)
  | call i op => exact .inr (.inr ⟨i, .inr ⟨op, rfl⟩⟩)
  | cont i => exact .inr (.inr ⟨i, .inl rfl⟩)

theorem StepCase.fault {l : Label m} (h : StepCase s l s') : s'.fault = s.fault := by
  obtain hf | ⟨i, hl⟩ := h.system_or_code
  · exact hf.fault
  · exact (h.lthread_frame hl).fault

theorem ltCurrent_eq_some {i : Fin (m + 1)} {t : ℕ} (h : ltCurrent s i = some t) :
    (∃ r, s.schedPc i = .running r) ∧ s.currentLthread i = some t := by
  unfold ltCurrent at h
  split at h
  · exact ⟨⟨_, ‹_›⟩, h⟩
  · cases h

structure SchedSame (s s' : State m) : Prop where
  schedPc : s'.schedPc = s.schedPc
  current : s'.currentLthread = s.currentLthread
  blockState : s'.blockState = s.blockState
  asleep : s'.asleep = s.asleep
  ready : s'.ready = s.ready
  sleepUsecs : s'.sleepUsecs = s.sleepUsecs

inductive SchedEffect (s s' : State m) : Prop where
  | keep (h : SchedSame s s') (hsl : s'.sleeping = s.sleeping)
  | leave {i : Fin (m + 1)} {t : ℕ} (hc : ltCurrent s i = some t)
      (h : SchedSame { s with schedPc := update s.schedPc i (.leave t) } s')
      (hsl : s'.sleeping = s.sleeping)
  | sleep {i : Fin (m + 1)} {t : ℕ} {msecs : BitVec 64} {p : Pc} {s₁ : State m}
      (hc : ltCurrent s i = some t) (hs : schedSleep s t msecs = .ok s₁)
      (hy : ltYield { s₁ with pc := update s₁.pc t p } i t = .ok s')
  | wake {k : Fin (m + 1)} {t : ℕ} {s₁ s₂ : State m} (hk : s.mutexFree k)
      (hpush : schedPushReadyUnsafe s₁ k t = .ok s₂) (hsched : s₁.sched t = k)
      (h₁ : SchedSame s s₁)
      (hsl : s₁.sleeping = s.sleeping ∨
        ∃ j u, s₁.sleeping = update s.sleeping j ((s.sleeping j).erase u))
      (h₂ : SchedSame s₂ s') (hsl₂ : s'.sleeping = s₂.sleeping)

theorem mutexFree_of_ltCurrent {i : Fin (m + 1)} {t : ℕ} (h : ltCurrent s i = some t) :
    s.mutexFree i := by
  obtain ⟨⟨r, hr⟩, -⟩ := ltCurrent_eq_some h
  simp [State.mutexFree, hr]

theorem condSignalled_same {c t : ℕ} {next : AfterSignal} (h : condSignalled s c t next = .ok s') :
    SchedSame s s' ∧ s'.sleeping = s.sleeping := by
  obtain ⟨-, rfl⟩ | ⟨_, -, h₁⟩ := condSignalled_ok h
  · exact ⟨⟨rfl, rfl, rfl, rfl, rfl, rfl⟩, rfl⟩
  · obtain ⟨-, rfl⟩ := condBlock_ok h₁
    exact ⟨⟨rfl, rfl, rfl, rfl, rfl, rfl⟩, rfl⟩

theorem StepCase.schedEffect_call {i : Fin (m + 1)} {op : Op} (h : StepCase s (.call i op) s') :
    SchedEffect s s' := by
  cases h with
  | spawn hcur hp hs =>
    exact .wake (mutexFree_of_ltCurrent hcur) hs (Function.update_self ..)
      ⟨rfl, rfl, rfl, rfl, rfl, rfl⟩ (.inl rfl) ⟨rfl, rfl, rfl, rfl, rfl, rfl⟩ rfl
  | sleep hcur hp hs h₁ => exact .sleep hcur hs h₁
  | waitFd hcur hp hs =>
    obtain ⟨-, -, _, -, rfl⟩ := pollerAddWaitingLthread_ok hs
    exact .keep ⟨rfl, rfl, rfl, rfl, rfl, rfl⟩ rfl
  | condLock hcur hp hm hs =>
    obtain ⟨-, rfl⟩ | ⟨-, -, h₁⟩ := condLock_ok hs
    · exact .keep ⟨rfl, rfl, rfl, rfl, rfl, rfl⟩ rfl
    · obtain ⟨-, rfl⟩ := condBlock_ok h₁
      exact .keep ⟨rfl, rfl, rfl, rfl, rfl, rfl⟩ rfl
  | condSignal hcur hp hm hs =>
    obtain ⟨-, ⟨-, h₁⟩ | ⟨_, _, -, -, rfl⟩⟩ := condSignal_ok hs
    · obtain ⟨⟨h₁, h₂, h₃, h₄, h₅, h₆⟩, hsl⟩ := condSignalled_same h₁
      exact .keep ⟨h₁, h₂, h₃, h₄, h₅, h₆⟩ hsl
    · exact .keep ⟨rfl, rfl, rfl, rfl, rfl, rfl⟩ rfl
  | yield hcur hp hs | exit hcur hp hs =>
    obtain ⟨-, rfl⟩ := ltYield_ok hs
    exact .leave hcur ⟨rfl, rfl, rfl, rfl, rfl, rfl⟩ rfl
  | ret hcur hp => exact .leave hcur ⟨rfl, rfl, rfl, rfl, rfl, rfl⟩ rfl
  | socket | close => exact .keep ⟨rfl, rfl, rfl, rfl, rfl, rfl⟩ rfl

theorem StepCase.schedEffect_cont {i : Fin (m + 1)} (h : StepCase s (.cont i) s') :
    SchedEffect s s' := by
  cases h with
  | waitFdReturn | sleepReturn => exact .keep ⟨rfl, rfl, rfl, rfl, rfl, rfl⟩ rfl
  | register hcur hp hs h₁ =>
    have hs₁ := pollerRegisterEvent_ok hs
    subst hs₁
    obtain ⟨-, rfl⟩ := ltYield_ok h₁
    exact .leave hcur ⟨rfl, rfl, rfl, rfl, rfl, rfl⟩ rfl
  | condLockReturn hcur hp hs =>
    obtain ⟨-, rfl⟩ := condLockReturn_ok hs
    exact .keep ⟨rfl, rfl, rfl, rfl, rfl, rfl⟩ rfl
  | condSleep hcur hp hs h₁ => exact .sleep hcur hs h₁
  | condWaitReturn hcur hp hm hs =>
    obtain ⟨-, -, rfl⟩ | ⟨-, -, rfl⟩ | ⟨-, -, rfl⟩ := condWaitReturn_ok hs <;>
      exact .keep ⟨rfl, rfl, rfl, rfl, rfl, rfl⟩ rfl
  | condSignalled hcur hp hf hs h₁ =>
    obtain ⟨sleeping, h₂, hsl⟩ := wakeup_ok hs
    obtain ⟨hsame, hsl₂⟩ := condSignalled_same h₁
    apply SchedEffect.wake hf h₂ rfl ⟨rfl, rfl, rfl, rfl, rfl, rfl⟩ _ hsame hsl₂
    obtain ⟨-, rfl⟩ | ⟨-, -, rfl⟩ := hsl
    · exact .inl rfl
    · exact .inr ⟨_, _, rfl⟩

theorem StepCase.schedEffect {l : Label m} (h : StepCase s l s') (hs : ∀ i b, l ≠ .sched i b)
    (hu : ∀ i, l ≠ .unpark i) : SchedEffect s s' := by
  cases l with
  | sched i b => exact absurd rfl (hs i b)
  | unpark i => exact absurd rfl (hu i)
  | tick | kevent | fire | inject =>
    cases h
    exact .keep ⟨rfl, rfl, rfl, rfl, rfl, rfl⟩ rfl
  | poller =>
    cases h with
    | deschedNone hp hf hs | account hp hs =>
      rw [handledEvent_ok hs]
      exact .keep ⟨rfl, rfl, rfl, rfl, rfl, rfl⟩ rfl
    | deschedSome hp hf =>
      unfold pollerDeschedEvent
      split <;> exact .keep ⟨rfl, rfl, rfl, rfl, rfl, rfl⟩ rfl
    | push hp hf hs =>
      exact .wake hf hs rfl ⟨rfl, rfl, rfl, rfl, rfl, rfl⟩ (.inl rfl)
        ⟨rfl, rfl, rfl, rfl, rfl, rfl⟩ rfl
  | call i op => exact h.schedEffect_call
  | cont i => exact h.schedEffect_cont

end Lthread
