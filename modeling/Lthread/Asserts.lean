import Lthread.InvPoller

namespace Lthread

open Function (update update_apply)

variable {m : ℕ} {s : State m} {P : Places m} {i : Fin (m + 1)} {t c : ℕ} {f : Fault}

theorem bind_error {α β : Type} {x : Except Fault α} {g : α → Except Fault β}
    (h : x >>= g = .error f) : x = .error f ∨ ∃ a, x = .ok a ∧ g a = .error f := by
  cases x with
  | error e => exact .inl (by cases h; rfl)
  | ok a => exact .inr ⟨a, rfl, h⟩

theorem insertReady_error (h : insertReady s t = .error f) : ∃ k, t ∈ s.ready k := by
  unfold insertReady at h
  split at h
  · rename_i hk
    exact hk
  · cases h

theorem reschedule_error (h : reschedule s t = .error f) : ∃ k, t ∈ s.ready k := by
  unfold reschedule at h
  split at h
  · cases h₁ : insertReady s t with
    | error g => exact insertReady_error h₁
    | ok s₁ => rw [h₁] at h; cases h
  · cases h

theorem schedPushReadyUnsafe_error (h : schedPushReadyUnsafe s i t = .error f) :
    s.currentLthread (s.sched t) ≠ some t ∧ ∃ k, t ∈ s.ready k := by
  unfold schedPushReadyUnsafe at h
  split at h
  · cases h
  · refine ⟨‹_›, ?_⟩
    obtain h | ⟨s₁, -, h⟩ := bind_error h
    · exact insertReady_error h
    · cases h

theorem Agree.not_ready (hA : Agree s P) (h : ∀ k, P.run t ≠ .ready k) : ¬ ∃ k, t ∈ s.ready k := by
  rintro ⟨k, hk⟩
  exact h k (hA.mem_ready.mp hk)

theorem Inv.push_ok (sleeping : Fin (m + 1) → List ℕ) (eof : ℕ → Bool) (hI : Inv s P)
    (h : ∀ k, P.run t ≠ .ready k) :
    schedPushReadyUnsafe { s with sleeping := sleeping, stFdEof := eof } i t ≠ .error f :=
  fun he => hI.toAgree.not_ready h (schedPushReadyUnsafe_error he).2

theorem Inv.deschedSleep_ok (hI : Inv s P) (h : ∀ k, P.run t ≠ .ready k)
    (ht : t ∈ s.sleeping (s.sched t)) : deschedSleepUnsafe s t ≠ .error f := by
  intro he
  simp only [deschedSleepUnsafe, ht, ↓reduceIte] at he
  exact hI.push_ok _ s.stFdEof h he

theorem Inv.expireLoop_ok {now : BitVec 64} {fuel : ℕ} (hI : Inv s P)
    (ho : (s.schedPc i).holds = none) : Lthread.expireLoop i now fuel s ≠ .error f := by
  intro he
  induction fuel generalizing s P with
  | zero => cases he
  | succ fuel ih =>
    simp only [Lthread.expireLoop] at he
    split at he
    · cases he
    · rename_i u rest hl
      split at he
      · have hu : u ∈ s.sleeping i := by simp [hl]
        obtain ⟨hrun, -, hs⟩ := hI.off_of_sleeping ho hu
        obtain he | ⟨s₁, h₁, he⟩ := bind_error he
        · exact hI.deschedSleep_ok (by simp [hrun]) (hs ▸ hu) he
        · obtain ⟨P₁, hI₁, ho₁⟩ := hI.deschedSleep ho hu h₁
          exact ih hI₁ ho₁ he
      · cases he

theorem Inv.resumeEnter_ok (hI : Inv s P) (h : s.schedPc i = .resume t) :
    Lthread.resumeEnter s i t ≠ .error f := by
  have hrun := (hI.held i t .popped).mp (by rw [h]; rfl)
  have hr : s.isRunning t = false := by
    have := (hI.fits t).running
    simpa [view, hrun, Run.kind] using this
  simp [Lthread.resumeEnter, hI.resume i t h, hr]

theorem Inv.resumeLeave_ok (hI : Inv s P) (h : s.schedPc i = .leave t) :
    Lthread.resumeLeave s i t ≠ .error f := by
  intro he
  have hrun := (hI.held i t .leaving).mp (by rw [h]; rfl)
  obtain he | ⟨s₁, -, he⟩ := bind_error he
  · obtain ⟨k, hk⟩ := reschedule_error he
    exact hI.toAgree.not_ready (by simp [hrun]) ⟨k, hk⟩
  · cases he

theorem Inv.sched_of_current (hI : Inv s P) (hc : ltCurrent s i = some t) : s.sched t = i :=
  (hI.fits t).held i .running (hI.toAgree.running hc).2 (by simp)

theorem ltYield_error (h : ltYield s i t = .error f) : s.sched t ≠ i := by
  unfold ltYield at h
  split at h
  · cases h
  · rename_i hs
    exact hs

theorem schedSleep_error {msecs : BitVec 64} (h : schedSleep s t msecs = .error f) :
    (∃ k, t ∈ s.sleeping k) ∨ f = .sleepLoop := by
  simp only [schedSleep] at h
  split at h
  · cases h
  · split at h
    · exact .inl ‹_›
    · split at h
      · cases h
        exact .inr rfl
      · cases h

theorem schedSleep_sched {msecs : BitVec 64} {s₁ : State m} (h : schedSleep s t msecs = .ok s₁) :
    s₁.sched = s.sched := by
  obtain ⟨-, rfl⟩ | ⟨-, -, _, _, -, rfl⟩ := schedSleep_ok h <;> rfl

theorem Inv.sleepLeave_error {msecs : BitVec 64} {p : Pc} (hI : Inv s P)
    (hc : ltCurrent s i = some t) (ht : P.tree t = none)
    (h : (do
      let s ← schedSleep s t msecs
      ltYield { s with pc := update s.pc t p } i t) = .error f) : f = .sleepLoop := by
  obtain h | ⟨s₁, h₁, h⟩ := bind_error h
  · obtain ⟨k, hk⟩ | rfl := schedSleep_error h
    · rw [hI.mem_sleeping.mp hk] at ht
      cases ht
    · rfl
  · have hs := ltYield_error h
    rw [show s₁.sched = s.sched from schedSleep_sched h₁] at hs
    exact absurd (hI.sched_of_current hc) hs

theorem Inv.yield_ok (hI : Inv s P) (hc : ltCurrent s i = some t) {s₁ : State m}
    (hs : s₁.sched = s.sched) : ltYield s₁ i t ≠ .error f :=
  fun he => ltYield_error he (by rw [hs]; exact hI.sched_of_current hc)

theorem condBlock_error {timeout : BitVec 64} {call : CondCall}
    (h : condBlock s c t timeout call = .error f) : s.isBlocked t = true := by
  unfold condBlock at h
  split at h
  · rename_i hb
    exact hb
  · cases h

theorem condSignalled_error {next : AfterSignal} (h : condSignalled s c t next = .error f) :
    s.isBlocked t = true := by
  cases next with
  | unlock => cases h
  | wait timeout => exact condBlock_error h

theorem Inv.condLock_error (hI : Inv s P) (hc : ltCurrent s i = some t) (hp : s.pc t = .user)
    (h : Lthread.condLock s c t = .error f) : f = .lockByOwner ∧ s.owner c = some t := by
  have hb := ((hI.fits t).idle (hI.toAgree.running hc).2 (.inl hp)).2.2.2.2.2.1
  unfold Lthread.condLock at h
  split at h
  · cases h
    exact ⟨rfl, ‹_›⟩
  · split at h
    · simp [Lthread.condBlock, show s.isBlocked t = false from hb] at h
    · rename_i ho
      simp [condAcquire, show s.owner c = none by simpa using ho, bind, Except.bind, pure,
        Except.pure] at h

theorem Inv.condSignal_error {next : AfterSignal} (hI : Inv s P) (hc : ltCurrent s i = some t)
    (hp : s.pc t = .user) (h : Lthread.condSignal s c t next = .error f) :
    f = .release ∧ s.owner c ≠ some t := by
  have hb := ((hI.fits t).idle (hI.toAgree.running hc).2 (.inl hp)).2.2.2.2.2.1
  simp only [Lthread.condSignal] at h
  obtain h | ⟨s₁, h₁, h⟩ := bind_error h
  · unfold condRelease at h
    split at h
    · cases h
    · rename_i ho
      cases h
      exact ⟨rfl, ho⟩
  · unfold condRelease at h₁
    split at h₁
    · cases h₁
      cases hbl : s.blockedLthreads c with
      | nil =>
        simp only [hbl, List.head?_nil] at h
        have := condSignalled_error h
        simp [show s.isBlocked t = false from hb] at this
      | cons u rest =>
        have hu : s.isBlocked u = true :=
          (hI.fits u).blocked.mpr ⟨c, hI.mem_blocked.mp (by simp [hbl])⟩
        simp [hbl, hu, condAcquire, bind, Except.bind, pure, Except.pure] at h
    · cases h₁

theorem Inv.condLockReturn_ok (hI : Inv s P) (hc : ltCurrent s i = some t)
    (hp : s.pc t = .condLocked c) : Lthread.condLockReturn s c t ≠ .error f := by
  have hrow := (hI.fits t).row
  simp only [view, (hI.toAgree.running hc).2, hp, Run.kind, Row, RunningRow, Pc.owns] at hrow
  have ho : s.owner c = some t := by simpa using hrow.1.2
  simp [Lthread.condLockReturn, ho]

theorem Inv.condWaitReturn_ok {timeout : BitVec 64} {call : CondCall} (hI : Inv s P)
    (hc : ltCurrent s i = some t) (hp : s.pc t = .condWake c timeout call) :
    Lthread.condWaitReturn s c t call ≠ .error f := by
  have hf := hI.fits t
  have hrow := hf.row
  have hb := hf.blocked
  have hl := hf.lock c timeout
  simp only [view, (hI.toAgree.running hc).2, hp, Run.kind, Row, RunningRow, WokenRow, Pc.owns]
    at hrow hb hl
  by_cases ho : s.owner c = some t
  · have hnb : s.isBlocked t = false := by
      obtain ⟨hw, -⟩ | ⟨-, ⟨-, hw⟩ | ⟨hw, -⟩⟩ := hrow.1
      · simpa [show P.cond t = .none from congrArg Wakers.cond hw] using hb
      · simp [ho] at hw
      · simpa [show P.cond t = .hands c from congrArg Wakers.cond hw] using hb
    cases call <;> simp [Lthread.condWaitReturn, ho, hnb]
  · obtain ⟨-, hw⟩ | ⟨hT, ⟨hw, -⟩ | ⟨-, hw⟩⟩ := hrow.1
    · simp [ho] at hw
    · have hbl : s.isBlocked t = true := hb.mpr ⟨c, congrArg Wakers.cond hw⟩
      cases call with
      | lock => simp [hT] at hl
      | wait => simp [Lthread.condWaitReturn, ho, hbl]
    · simp [ho] at hw

theorem Inv.wakeup_ok {u : ℕ} {next : AfterSignal} (hI : Inv s P)
    (hp : s.pc t = .condSignal c u next)
    (hg : (s.pc u).isTimedWait = true → s.sleepUsecs u ≠ 0) : Lthread.wakeup s u ≠ .error f := by
  have hf := hI.fits u
  have hcu : P.cond u = .hands c := (hI.signal c u).mp ⟨t, next, hp⟩
  have hrow := hf.row
  rw [show (view s P u).cond = .hands c from hcu] at hrow
  have hready : ∀ k, P.run u ≠ .ready k := by
    intro k hk
    have hw := hrow.woken (by simpa [view] using hg)
    simp [view, hk, Run.kind] at hw
  by_cases hz : s.sleepUsecs u = 0
  · simp only [Lthread.wakeup, hz, ne_eq, not_true_eq_false, ↓reduceIte]
    exact hI.push_ok s.sleeping s.stFdEof hready
  · simp only [Lthread.wakeup, hz, ne_eq, not_false_eq_true, ↓reduceIte]
    apply hI.deschedSleep_ok hready
    have htree : ∃ j, P.tree u = some j := by
      rw [← Option.isSome_iff_exists]
      obtain ⟨timeout, call, -, -, -, h₁ | h₁ | h₁ | h₁⟩ := hrow.hands
      all_goals simp_all [view]
    obtain ⟨j, hj⟩ := htree
    have hs : s.sched u = j := hf.tree j hj
    rw [← List.count_pos_iff, hI.tree, hs, if_pos hj]
    exact Nat.one_pos

def Fault.cause (s : State m) (l : Label m) : Fault → Prop
  | .lockByOwner => ∃ i t c, l = .call i (.condLock c) ∧ ltCurrent s i = some t ∧ s.owner c = some t
  | .release => ∃ i t c next, l = .call i (AfterSignal.op c next) ∧ ltCurrent s i = some t ∧
      s.owner c ≠ some t
  | .waitBits | .waitKey | .noWaiter | .kevent | .minTimeout | .sleepLoop => True
  | _ => False

theorem Inv.schedStep_error {b : Bool} (hI : Inv s P) (h : schedStep s i b = some (.error f)) :
    f = .minTimeout := by
  unfold schedStep at h
  cases hp : s.schedPc i with
  | expiring now =>
    simp only [hp] at h
    obtain he | ⟨s₁, -, he⟩ := bind_error (Option.some.inj h)
    · exact absurd he (hI.expireLoop_ok (by rw [hp]; rfl))
    · cases he
  | wakeNeighbor t | exiting =>
    simp only [hp, Option.map_eq_some_iff] at h
    obtain ⟨_, -, he⟩ := h
    cases he
  | resume t =>
    simp only [hp] at h
    exact absurd (Option.some.inj h) (hI.resumeEnter_ok hp)
  | leave t =>
    simp only [hp] at h
    exact absurd (Option.some.inj h) (hI.resumeLeave_ok hp)
  | block =>
    simp only [hp, Lthread.schedBlock, Option.some.injEq] at h
    split at h
    · cases h
    · split at h
      · cases h
      · split at h <;> cases h
        rfl
  | expire | popOwn | steal v | popBlock | setSched t | beginDeepSleep | running t | parked a b d
  | finished => simp [hp] at h

theorem Inv.callStep_error {op : Op} (hI : Inv s P) (hc : ltCurrent s i = some t)
    (hp : s.pc t = .user) (h : callStep s i t op = some (.error f)) : f.cause s (.call i op) := by
  obtain ⟨hs, hrun⟩ := hI.toAgree.running hc
  obtain ⟨hn, htree, -⟩ := (hI.fits t).idle hrun (.inl hp)
  cases op with
  | spawn =>
    have hu := (hI.nowhere ((hI.unborn _).mpr le_rfl)).1
    obtain ⟨-, k, hk⟩ := schedPushReadyUnsafe_error (Option.some.inj h)
    exact absurd ⟨k, hk⟩ (hI.toAgree.not_ready (by simp [hu]))
  | yield => exact absurd (Option.some.inj h) (hI.yield_ok hc rfl)
  | sleep msecs =>
    rw [hI.sleepLeave_error hc htree (Option.some.inj h)]
    trivial
  | waitFd fd e =>
    obtain he | ⟨s₁, -, he⟩ := bind_error (Option.some.inj h)
    · simp only [pollerAddWaitingLthread] at he
      split at he
      · cases he
        trivial
      · split at he <;> cases he
        trivial
    · cases he
  | condLock c =>
    simp only [callStep] at h
    split at h
    · obtain ⟨rfl, ho⟩ := hI.condLock_error hc hp (Option.some.inj h)
      exact ⟨i, t, c, rfl, hc, ho⟩
    · cases h
  | condWait c timeout =>
    simp only [callStep] at h
    split at h
    · obtain ⟨rfl, ho⟩ := hI.condSignal_error hc hp (Option.some.inj h)
      exact ⟨i, t, c, .wait timeout, rfl, hc, ho⟩
    · cases h
  | condUnlockSignal c =>
    simp only [callStep] at h
    split at h
    · obtain ⟨rfl, ho⟩ := hI.condSignal_error hc hp (Option.some.inj h)
      exact ⟨i, t, c, .unlock, rfl, hc, ho⟩
    · cases h
  | socket fd | close fd =>
    simp only [callStep] at h
    split at h <;> cases h
  | exit => exact absurd (Option.some.inj h) (hI.yield_ok hc rfl)
  | ret => cases h

theorem Inv.signalled_ok {u : ℕ} {next : AfterSignal} (hI : Inv s P)
    (hg : s.signalInTime (.cont i) = true) (hc : ltCurrent s i = some t)
    (hp : s.pc t = .condSignal c u next) :
    (Lthread.wakeup s u >>= fun s => Lthread.condSignalled s c t next) ≠ .error f := by
  intro he
  obtain he | ⟨s₁, h₁, he⟩ := bind_error he
  · exact hI.wakeup_ok hp (sleepUsecs_of_signalInTime hg hc hp) he
  · have hb := ((hI.fits t).idle (hI.toAgree.running hc).2
      (.inr (.inr (.inr (.inr ⟨c, u, next, hp⟩))))).2.2.2.2.2.1
    have hb₁ := condSignalled_error he
    obtain ⟨_, _, _, _, _, _, rfl⟩ := wakeup_frame h₁
    exact absurd (hb₁.symm.trans hb) (by simp)

theorem Inv.contStep_error (hI : Inv s P) (hg : s.signalInTime (.cont i) = true)
    (hc : ltCurrent s i = some t) (h : contStep s i t = some (.error f)) : f.cause s (.cont i) := by
  unfold contStep at h
  cases hp : s.pc t with
  | register fd e =>
    simp only [hp] at h
    obtain he | ⟨s₁, h₁, he⟩ := bind_error (Option.some.inj h)
    · unfold pollerRegisterEvent at he
      split at he <;> cases he
      trivial
    · have hs₁ := pollerRegisterEvent_ok h₁
      subst hs₁
      exact absurd he (hI.yield_ok hc rfl)
  | waitFd fd e | slept msecs => simp [hp] at h
  | condLocked c =>
    simp only [hp] at h
    exact absurd (Option.some.inj h) (hI.condLockReturn_ok hc hp)
  | condSleep c timeout call =>
    simp only [hp] at h
    rw [hI.sleepLeave_error hc (hI.tree_of_condSleep hc hp) (Option.some.inj h)]
    trivial
  | condWake c timeout call =>
    simp only [hp] at h
    split at h
    · exact absurd (Option.some.inj h) (hI.condWaitReturn_ok hc hp)
    · cases h
  | condSignal c u next =>
    simp only [hp] at h
    split at h
    · exact absurd (Option.some.inj h) (hI.signalled_ok hg hc hp)
    · cases h
  | unborn | user | exited | returned => simp [hp] at h

theorem handledEvent_error {ev : KEvent} {dir : Event} {ltRead lt : Option ℕ} {rest : List KEvent}
    (h : handledEvent s ev dir ltRead lt rest = .error f) : f = .noWaiter := by
  cases dir with
  | read => cases h
  | write =>
    simp only [handledEvent] at h
    split at h <;> cases h
    rfl

theorem Inv.pollerStep_error (hI : Inv s P) (h : pollerStep s = some (.error f)) :
    f = .noWaiter := by
  unfold pollerStep at h
  cases hp : s.pollerPc with
  | poll => simp [hp] at h
  | desched ev dir ltRead rest =>
    simp only [hp] at h
    split at h
    · exact handledEvent_error (Option.some.inj h)
    · cases h
  | push t ev dir ltRead rest =>
    simp only [hp] at h
    split at h
    · obtain he | ⟨s₁, -, he⟩ := bind_error (Option.some.inj h)
      · refine absurd he (hI.push_ok s.sleeping _ ?_)
        intro k hk
        have hrow := (hI.fits t).row
        rw [show (view s P t).io = .hands from (hI.hands t).mp (by rw [hp]; rfl)] at hrow
        have := hrow.push
        simp [view, hk, Run.kind] at this
      · cases he
    · cases h
  | account t ev dir ltRead rest =>
    simp only [hp] at h
    exact handledEvent_error (Option.some.inj h)

theorem Inv.exec_error {l : Label m} (hI : Inv s P) (hg : s.signalInTime l = true)
    (h : exec s l = some (.error f)) : f.cause s l := by
  cases l with
  | tick usecs | inject ev => cases h
  | sched i b =>
    rw [hI.schedStep_error h]
    trivial
  | unpark i =>
    simp only [exec] at h
    split at h <;> cases h
  | call i op =>
    simp only [exec] at h
    split at h
    · split at h
      · exact hI.callStep_error ‹_› ‹_› h
      · cases h
    · cases h
  | cont i =>
    simp only [exec] at h
    split at h
    · exact hI.contStep_error hg ‹_› h
    · cases h
  | poller =>
    rw [hI.pollerStep_error h]
    trivial
  | kevent k | fire fd e isEof =>
    simp only [exec, Option.map_eq_some_iff] at h
    obtain ⟨_, -, he⟩ := h
    cases he

end Lthread
