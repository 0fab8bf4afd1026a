import Lthread.Step

namespace Lthread

open Function (update)

variable {m : ℕ} {s s' : State m} {i : Fin (m + 1)} {t : ℕ}

theorem bind_ok {α β : Type} {x : Except Fault α} {f : α → Except Fault β} {b : β}
    (h : x >>= f = .ok b) : ∃ a, x = .ok a ∧ f a = .ok b := by
  cases x with
  | error e => cases h
  | ok a => exact ⟨a, rfl, h⟩

theorem insertReady_ok (h : insertReady s t = .ok s') :
    s' = { s with ready := update s.ready (s.sched t) (s.ready (s.sched t) ++ [t]) } := by
  unfold insertReady at h
  split at h
  · cases h
  · exact (Except.ok.inj h).symm

theorem schedPushReadyUnsafe_ok (h : schedPushReadyUnsafe s i t = .ok s') :
    (s.currentLthread (s.sched t) = some t ∧
      s' = schedWakeUnsafe { s with needsResched := update s.needsResched t true } i) ∨
    (s.currentLthread (s.sched t) ≠ some t ∧
      s' = schedWakeUnsafe
        { s with ready := update s.ready (s.sched t) (s.ready (s.sched t) ++ [t]) } i) := by
  unfold schedPushReadyUnsafe at h
  split at h
  · exact .inl ⟨‹_›, (Except.ok.inj h).symm⟩
  · obtain ⟨s₁, h₁, h₂⟩ := bind_ok h
    have hs := insertReady_ok h₁
    subst hs
    exact .inr ⟨‹_›, (Except.ok.inj h₂).symm⟩

theorem deschedSleepUnsafe_ok (h : deschedSleepUnsafe s t = .ok s') :
    t ∈ s.sleeping (s.sched t) ∧
    schedPushReadyUnsafe
      { s with sleeping := update s.sleeping (s.sched t) ((s.sleeping (s.sched t)).erase t) }
      (s.sched t) t = .ok s' := by
  unfold deschedSleepUnsafe at h
  split at h
  · exact ⟨‹_›, h⟩
  · cases h

theorem wakeup_ok (h : wakeup s t = .ok s') :
    ∃ sleeping, schedPushReadyUnsafe { s with sleeping := sleeping } (s.sched t) t = .ok s' ∧
      ((s.sleepUsecs t = 0 ∧ sleeping = s.sleeping) ∨
        (s.sleepUsecs t ≠ 0 ∧ t ∈ s.sleeping (s.sched t) ∧ sleeping =
          update s.sleeping (s.sched t) ((s.sleeping (s.sched t)).erase t))) := by
  unfold wakeup at h
  split at h
  · rename_i hz
    obtain ⟨ht, h₁⟩ := deschedSleepUnsafe_ok h
    exact ⟨_, h₁, .inr ⟨hz, ht, rfl⟩⟩
  · rename_i hz
    exact ⟨_, h, .inl ⟨not_not.mp hz, rfl⟩⟩

theorem sleepInsert_perm {usecs : ℕ → BitVec 64} {tree tree' : List ℕ} {fuel : ℕ}
    {key key' : BitVec 64} (h : sleepInsert usecs t tree fuel key = some (key', tree')) :
    tree'.Perm (t :: tree) := by
  induction fuel generalizing key with
  | zero => cases h
  | succ fuel ih =>
    simp only [sleepInsert] at h
    split at h
    · rename_i hi
      cases h
      exact OrderedTree.insert_perm hi
    · exact ih h

theorem schedSleep_ok {msecs : BitVec 64} (h : schedSleep s t msecs = .ok s') :
    (msecs = 0 ∧ s' = { s with
      stSleeping := update s.stSleeping t true, sleepUsecs := update s.sleepUsecs t 0 }) ∨
    (msecs ≠ 0 ∧ (∀ k, t ∉ s.sleeping k) ∧
      ∃ key tree, tree.Perm (t :: s.sleeping (s.sched t)) ∧ s' = { s with
        stSleeping := update s.stSleeping t true
        sleepUsecs := update s.sleepUsecs t key
        sleeping := update s.sleeping (s.sched t) tree
        deadline := update s.deadline t (s.usecNow.toNat + 1000 * msecs.toNat) }) := by
  simp only [schedSleep] at h
  split at h
  · exact .inl ⟨‹_›, (Except.ok.inj h).symm⟩
  · rename_i hms
    split at h
    · cases h
    · rename_i hk
      split at h
      · cases h
      · rename_i key tree hi
        refine .inr ⟨hms, by simpa using hk, key, tree, sleepInsert_perm hi, ?_⟩
        exact (Except.ok.inj h).symm

theorem ltYield_ok (h : ltYield s i t = .ok s') :
    s.sched t = i ∧ s' = { s with schedPc := update s.schedPc i (.leave t) } := by
  unfold ltYield at h
  split at h
  · exact ⟨‹_›, (Except.ok.inj h).symm⟩
  · cases h

theorem resumeEnter_ok (h : resumeEnter s i t = .ok s') :
    s.sched t = i ∧ s.isRunning t = false ∧ s' = { s with
      schedPc := update s.schedPc i (.running t)
      currentLthread := update s.currentLthread i (some t)
      isRunning := update s.isRunning t true } := by
  unfold resumeEnter at h
  split at h
  · cases h
  · rename_i hs
    split at h
    · cases h
    · rename_i hr
      exact ⟨not_not.mp hs, by simpa using hr, (Except.ok.inj h).symm⟩

theorem resumeLeave_ok (h : resumeLeave s i t = .ok s') :
    s' = { s with
      schedPc := update s.schedPc i .expire
      isRunning := update s.isRunning t false
      currentLthread := update s.currentLthread i none
      stSleeping := update s.stSleeping t false
      sleepUsecs := update s.sleepUsecs t 0
      ready := if s.needsResched t then
          update s.ready (s.sched t) (s.ready (s.sched t) ++ [t]) else s.ready
      needsResched := update s.needsResched t false
      freed := if s.stExited t then update s.freed t true else s.freed
      frees := if s.stExited t then update s.frees t (s.frees t + 1) else s.frees } := by
  obtain ⟨s₁, h₁, h₂⟩ := bind_ok h
  have he := Except.ok.inj h₂
  subst he
  unfold reschedule at h₁
  split at h₁
  · rename_i hn
    cases h₃ : insertReady _ t with
    | error f => rw [h₃] at h₁; cases h₁
    | ok s₂ =>
      rw [h₃] at h₁
      have h₄ := Except.ok.inj h₁
      have h₅ := insertReady_ok h₃
      subst h₄ h₅
      have hn' : s.needsResched t = true := hn
      cases s.stExited t <;> simp [hn', ltFree]
  · rename_i hn
    have hn' : s.needsResched t = false := by simpa using hn
    have hu : update s.needsResched t false = s.needsResched := by
      rw [← hn', Function.update_eq_self]
    have h₄ := Except.ok.inj h₁
    subst h₄
    cases s.stExited t <;> simp [hn', hu, ltFree]

theorem schedBlock_ok (h : schedBlock s i = .ok s') :
    (s.blockState i = .wontBlock ∧ s' = { s with
      blockState := update s.blockState i .willBlock
      schedPc := update s.schedPc i .expire }) ∨
    (s.blockState i ≠ .wontBlock ∧ s.sleeping i = [] ∧ s.ready i = [] ∧ s.numPendingEvents = 0 ∧
      s' = { s with
        blockState := update s.blockState i .isBlocking
        schedPc := update s.schedPc i .beginDeepSleep }) ∨
    (s.blockState i ≠ .wontBlock ∧ ∃ timeout, s' = { s with
        blockState := update s.blockState i .isBlocking
        schedPc := update s.schedPc i (.parked false timeout false) }) := by
  simp only [schedBlock] at h
  split at h
  · exact .inl ⟨‹_›, (Except.ok.inj h).symm⟩
  · rename_i hb
    split at h
    · rename_i hd
      simp only [schedIsdone, pollerHasPendingEvents, Bool.and_eq_true, List.isEmpty_iff,
        Bool.not_eq_true', decide_eq_false_iff_not, ne_eq, not_not] at hd
      exact .inr (.inl ⟨hb, hd.1.1, hd.1.2, hd.2, (Except.ok.inj h).symm⟩)
    · split at h
      · exact .inr (.inr ⟨hb, _, (Except.ok.inj h).symm⟩)
      · cases h

theorem schedDeepSleep_cases (s : State m) (i : Fin (m + 1)) :
    ((∀ j, update s.asleep i true j = true) ∧ schedDeepSleep s i = { s with
      asleep := update s.asleep i true
      blockState := update s.blockState i .willBlock
      schedPc := update s.schedPc i .exiting }) ∨
    ((∃ j, update s.asleep i true j = false) ∧ schedDeepSleep s i = { s with
      asleep := update s.asleep i true
      schedPc := update s.schedPc i (.parked true 0 false) }) := by
  by_cases h : ∀ j, update s.asleep i true j = true
  · exact .inl ⟨h, by simp [schedDeepSleep, poolBeginDeepSleep, h]⟩
  · refine .inr ⟨by simpa using h, ?_⟩
    simp only [schedDeepSleep, poolBeginDeepSleep, h, decide_false]

theorem wakeNeighbor_some {next : SchedPc m} (h : wakeNeighbor s i next = some s') :
    (schedNeighbor i = i ∧ s' = { s with schedPc := update s.schedPc i next }) ∨
    (schedNeighbor i ≠ i ∧ s.mutexFree (schedNeighbor i) ∧
      s' = { schedWakeUnsafe s (schedNeighbor i) with
        schedPc := update (schedWakeUnsafe s (schedNeighbor i)).schedPc i next }) := by
  simp only [wakeNeighbor] at h
  split at h
  · exact .inl ⟨‹_›, (Option.some.inj h).symm⟩
  · split at h
    · exact .inr ⟨‹_›, ‹_›, (Option.some.inj h).symm⟩
    · cases h

theorem condBlock_ok {c : ℕ} {timeout : BitVec 64} {call : CondCall}
    (h : condBlock s c t timeout call = .ok s') :
    s.isBlocked t = false ∧ s' = { s with
      blockedLthreads := update s.blockedLthreads c (s.blockedLthreads c ++ [t])
      isBlocked := update s.isBlocked t true
      condMutex := update s.condMutex c none
      pc := update s.pc t (.condSleep c timeout call) } := by
  unfold condBlock at h
  split at h
  · cases h
  · rename_i hb
    exact ⟨by simpa using hb, (Except.ok.inj h).symm⟩

theorem condSignalled_ok {c : ℕ} {next : AfterSignal} (h : condSignalled s c t next = .ok s') :
    (next = .unlock ∧ s' = { s with
      condMutex := update s.condMutex c none, pc := update s.pc t .user }) ∨
    ∃ timeout, next = .wait timeout ∧ condBlock { s with
      condMutex := update s.condMutex c none, pc := update s.pc t .user } c t timeout .wait =
        .ok s' := by
  cases next with
  | unlock => exact .inl ⟨rfl, (Except.ok.inj h).symm⟩
  | wait timeout =>
    obtain ⟨hb, rfl⟩ := condBlock_ok h
    refine .inr ⟨timeout, rfl, ?_⟩
    simp [condBlock, hb]

theorem condLock_ok {c : ℕ} (h : condLock s c t = .ok s') :
    (s.owner c = none ∧ s' = { s with
      owner := update s.owner c (some t), pc := update s.pc t (.condLocked c) }) ∨
    (s.owner c ≠ none ∧ s.owner c ≠ some t ∧ condBlock s c t 0 .lock = .ok s') := by
  unfold condLock at h
  split at h
  · cases h
  · rename_i hself
    split at h
    · rename_i ho
      exact .inr ⟨by simpa [Option.isSome_iff_ne_none] using ho, hself, h⟩
    · rename_i ho
      have hn : s.owner c = none := by simpa using ho
      simp only [condAcquire, hn, ↓reduceIte] at h
      exact .inl ⟨hn, (Except.ok.inj h).symm⟩

theorem condSignal_ok {c : ℕ} {next : AfterSignal} (h : condSignal s c t next = .ok s') :
    s.owner c = some t ∧
    ((s.blockedLthreads c = [] ∧ condSignalled { s with
        holds := update s.holds t (update (s.holds t) c false)
        owner := update s.owner c none } c t next = .ok s') ∨
      ∃ u rest, s.blockedLthreads c = u :: rest ∧ s.isBlocked u = true ∧ s' = { s with
        holds := update s.holds t (update (s.holds t) c false)
        owner := update s.owner c (some u)
        blockedLthreads := update s.blockedLthreads c rest
        isBlocked := update s.isBlocked u false
        condMutex := update s.condMutex c (some t)
        pc := update s.pc t (.condSignal c u next) }) := by
  simp only [condSignal] at h
  obtain ⟨s₁, h₁, h₂⟩ := bind_ok h
  unfold condRelease at h₁
  split at h₁
  · rename_i ho
    have h₃ := Except.ok.inj h₁
    subst h₃
    refine ⟨ho, ?_⟩
    cases hb : s.blockedLthreads c with
    | nil => exact .inl ⟨rfl, by simpa only [hb, List.head?_nil] using h₂⟩
    | cons u rest =>
      simp only [hb, List.head?_cons] at h₂
      split at h₂
      · rename_i hu
        refine .inr ⟨u, rest, rfl, hu, ?_⟩
        simp only [condAcquire, Function.update_self, ↓reduceIte] at h₂
        have h₄ := Except.ok.inj h₂
        subst h₄
        simp
      · cases h₂
  · cases h₁

theorem condLockReturn_ok {c : ℕ} (h : condLockReturn s c t = .ok s') :
    s.owner c = some t ∧ s' = { s with
      pc := update s.pc t .user
      holds := update s.holds t (update (s.holds t) c true) } := by
  unfold condLockReturn at h
  split at h
  · exact ⟨‹_›, (Except.ok.inj h).symm⟩
  · cases h

theorem condWaitReturn_ok {c : ℕ} {call : CondCall} (h : condWaitReturn s c t call = .ok s') :
    (s.owner c ≠ some t ∧ call = .wait ∧ s' = { s with
      blockedLthreads := update s.blockedLthreads c ((s.blockedLthreads c).erase t)
      isBlocked := update s.isBlocked t false
      ret := update s.ret t (-2)
      pc := update s.pc t .user }) ∨
    (s.owner c = some t ∧ call = .lock ∧ s' = { s with
      pc := update s.pc t (.condLocked c) }) ∨
    (s.owner c = some t ∧ call = .wait ∧ s' = { s with
      ret := update s.ret t 0
      pc := update s.pc t .user
      holds := update s.holds t (update (s.holds t) c true) }) := by
  unfold condWaitReturn at h
  split at h
  · rename_i ho
    split at h
    · cases call with
      | lock => cases h
      | wait => exact .inl ⟨ho, rfl, (Except.ok.inj h).symm⟩
    · cases h
  · rename_i ho
    split at h
    · cases h
    · cases call with
      | lock => exact .inr (.inl ⟨not_not.mp ho, rfl, (Except.ok.inj h).symm⟩)
      | wait => exact .inr (.inr ⟨not_not.mp ho, rfl, (Except.ok.inj h).symm⟩)

def State.withWait (s : State m) (t fd : ℕ) (e : Event) : State m :=
  { s with
    stWaitRead := if e = .read then update s.stWaitRead t true else s.stWaitRead
    stWaitWrite := if e = .write then update s.stWaitWrite t true else s.stWaitWrite
    fdWait := update s.fdWait t (BitVec.ofNat 16 fd) }

theorem pollerAddWaitingLthread_ok {fd : ℕ} {e : Event}
    (h : pollerAddWaitingLthread s t fd e = .ok s') :
    s.stWaitRead t = false ∧ s.stWaitWrite t = false ∧ ∃ waiting,
      OrderedTree.insert (s.withWait t fd e).waitKey t s.waiting = some waiting ∧
      s' = { s with
        stWaitRead := (s.withWait t fd e).stWaitRead
        stWaitWrite := (s.withWait t fd e).stWaitWrite
        fdWait := update s.fdWait t (BitVec.ofNat 16 fd)
        waiting := waiting
        numPendingEvents := s.numPendingEvents + 1 } := by
  simp only [pollerAddWaitingLthread] at h
  split at h
  · cases h
  · rename_i hb
    simp only [Bool.or_eq_true, not_or, Bool.not_eq_true] at hb
    refine ⟨hb.1, hb.2, ?_⟩
    cases e with
    | read | write =>
      simp only at h
      split at h
      · cases h
      · rename_i waiting hw
        exact ⟨waiting, hw, (Except.ok.inj h).symm⟩

theorem pollerRegisterEvent_ok {fd : ℕ} {e : Event} (h : pollerRegisterEvent s fd e = .ok s') :
    s' = { s with armed := update s.armed fd (update (s.armed fd) e true) } := by
  unfold pollerRegisterEvent at h
  split at h
  · exact (Except.ok.inj h).symm
  · cases h

def PollerPc.after (ev : KEvent) (dir : Event) (lt : Option ℕ) (rest : List KEvent) : PollerPc :=
  match dir with
  | .read => .desched ev .write lt rest
  | .write => nextEvent rest

theorem handledEvent_ok {ev : KEvent} {dir : Event} {ltRead lt : Option ℕ} {rest : List KEvent}
    (h : handledEvent s ev dir ltRead lt rest = .ok s') :
    s' = { s with pollerPc := .after ev dir lt rest } := by
  cases dir with
  | read => exact (Except.ok.inj h).symm
  | write =>
    simp only [handledEvent] at h
    split at h
    · exact (Except.ok.inj h).symm
    · cases h

end Lthread
