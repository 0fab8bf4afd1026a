import Lthread.InvCalls

namespace Lthread

open Function (update update_apply)

variable {m : ℕ} {s s' : State m} {P : Places m} {i : Fin (m + 1)} {t u c : ℕ} {p : Pc}

@[simp] theorem Pc.quiet_condLocked (c : ℕ) : (Pc.condLocked c).quiet := by simp [Pc.quiet]
@[simp] theorem Pc.quiet_condSleep (c : ℕ) (timeout : BitVec 64) (call : CondCall) :
    (Pc.condSleep c timeout call).quiet := by simp [Pc.quiet]
@[simp] theorem Pc.quiet_condWake (c : ℕ) (timeout : BitVec 64) (call : CondCall) :
    (Pc.condWake c timeout call).quiet := by simp [Pc.quiet]

theorem Pc.owns_update {owner : ℕ → Option ℕ} {o : Option ℕ} (h : owner c ≠ some u)
    (ho : o ≠ some u) : p.owns (update owner c o) u = p.owns owner u := by
  cases p with
  | condSleep d _ _ | condWake d _ _ | condLocked d =>
    by_cases hd : d = c
    · subst hd
      simp [Pc.owns, h, ho]
    · simp [Pc.owns, hd]
  | _ => rfl

theorem Inv.lockFree (hI : Inv s P) (hc : ltCurrent s i = some t) (hp : s.pc t = .user)
    (ho : s.owner c = none) :
    Inv { s with owner := update s.owner c (some t), pc := update s.pc t (.condLocked c) } P := by
  obtain ⟨hs, hrun⟩ := hI.toAgree.running hc
  obtain ⟨hn, htree, hio, hcond, hclear, hb, hx⟩ := (hI.fits t).idle hrun (.inl hp)
  have hq := Pc.quiet_of_eq hp Pc.quiet_user
  have hA := hI.toAgree.setPc hq.2 (Pc.quiet_condLocked c).2
  refine hI.advance hq (Pc.quiet_condLocked c) { hA with } rfl rfl rfl rfl (fun _ _ => id) ?_ ?_
  · intro u hu
    have hne : s.owner c ≠ some u := by simp [ho]
    have hne' : some t ≠ some u := by simpa using hu.symm
    simp [view, hu, Pc.owns_update hne hne']
  · refine (hI.fits t).current_idle hrun hrun rfl rfl rfl ?_ hn htree hio hcond hclear hb hx
    exact .inr (.inl ⟨c, by simp [view], by simp [view, Pc.owns]⟩)

theorem Inv.condBlock {timeout : BitVec 64} {call : CondCall} (hI : Inv s P)
    (hc : ltCurrent s i = some t) (hp : s.pc t = .user) (hm : s.condMutex c = none)
    (ho : s.owner c ≠ some t) (hl : call = .lock → timeout = 0)
    (h : condBlock s c t timeout call = .ok s') : ∃ P', Inv s' P' := by
  obtain ⟨hs, hrun⟩ := hI.toAgree.running hc
  obtain ⟨hn, htree, hio, hcond, hclear, hb, hx⟩ := (hI.fits t).idle hrun (.inl hp)
  obtain ⟨-, rfl⟩ := condBlock_ok h
  have hq := Pc.quiet_of_eq hp Pc.quiet_user
  have hq' := Pc.quiet_condSleep c timeout call
  have hA := (hI.toAgree.block (c := c) hcond).setPc hq.2 hq'.2
  have hm' : update s.condMutex c none = s.condMutex := by rw [← hm, Function.update_eq_self]
  refine ⟨_, hI.advance hq hq' { hA with } rfl hm' rfl rfl (fun _ _ => id) ?_ ?_⟩
  · intro u hu
    simp [view, hu]
  · refine (hI.fits t).current .running hrun hrun ?_ rfl rfl rfl ?_ ?_ ?_ ?_ ?_
    all_goals simp_all [view, Row, Run.kind, RunningRow, Wakers.onCond, Pc.owns, isTimed]

theorem Inv.afterSignal {next : AfterSignal}
    (hI : Inv { s with condMutex := update s.condMutex c none, pc := update s.pc t .user } P)
    (hc : ltCurrent s i = some t) (ho : s.owner c ≠ some t)
    (h : condSignalled s c t next = .ok s') : ∃ P', Inv s' P' := by
  obtain ⟨-, rfl⟩ | ⟨timeout, -, h₁⟩ := condSignalled_ok h
  · exact ⟨P, hI⟩
  · exact hI.condBlock (i := i) hc (by simp) (by simp) ho (by simp) h₁

theorem Inv.signalNone {next : AfterSignal} {holds : ℕ → ℕ → Bool} (hI : Inv s P)
    (hc : ltCurrent s i = some t) (hp : s.pc t = .user) (hm : s.condMutex c = none)
    (ho : s.owner c = some t)
    (h : condSignalled { s with holds := holds, owner := update s.owner c none } c t next =
      .ok s') : ∃ P', Inv s' P' := by
  refine Inv.afterSignal (P := P) ?_ (by exact hc) (by simp) h
  have hm' : update s.condMutex c none = s.condMutex := by rw [← hm, Function.update_eq_self]
  have hp' : update s.pc t .user = s.pc := by rw [← hp, Function.update_eq_self]
  rw [hm', hp']
  refine { hI with toAgree := { hI.toAgree with }, fits := fits_of_eq (t := t) hI.fits ?_ ?_ }
  · intro u hu
    have hne : s.owner c ≠ some u := by simpa [ho] using hu.symm
    simp [view, Pc.owns_update hne]
  · simpa [view, hp, Pc.owns] using hI.fits t

theorem Inv.signalSome {next : AfterSignal} {holds : ℕ → ℕ → Bool} {rest : List ℕ} (hI : Inv s P)
    (hc : ltCurrent s i = some t) (hp : s.pc t = .user) (hm : s.condMutex c = none)
    (ho : s.owner c = some t) (hb : s.blockedLthreads c = u :: rest) :
    ∃ P', Inv { s with
      holds := holds
      owner := update s.owner c (some u)
      blockedLthreads := update s.blockedLthreads c rest
      isBlocked := update s.isBlocked u false
      condMutex := update s.condMutex c (some t)
      pc := update s.pc t (.condSignal c u next) } P' := by
  obtain ⟨hs, hrun⟩ := hI.toAgree.running hc
  obtain ⟨hn, htree, hio, hcond, hclear, hbt, hx⟩ := (hI.fits t).idle hrun (.inl hp)
  have hq := Pc.quiet_of_eq hp Pc.quiet_user
  have hA := hI.toAgree.takeBlocked next hb hq.2
  have hu : P.cond u = .blocked c := hI.mem_blocked.mp (by simp [hb])
  have hut : u ≠ t := by
    rintro rfl
    rw [show P.cond u = .none from hcond] at hu
    cases hu
  have hfu := hI.fits u
  have hrow := hfu.row
  rw [show (view s P u).cond = .blocked c from hu] at hrow
  obtain ⟨⟨timeout, call, hpu⟩, -, -⟩ := hrow.blocked
  refine ⟨_, {
    toAgree := { hA with }, fits := ?_, resume := hI.resume, mutex := ?_, unborn := ?_ }⟩
  · intro v
    by_cases hvt : v = t
    · subst hvt
      refine (hI.fits v).current_idle hrun hrun rfl rfl rfl ?_ hn htree hio ?_ hclear ?_ hx
      · exact .inr (.inr ⟨c, u, next, Function.update_self ..⟩)
      · exact (Function.update_of_ne hut.symm ..).trans hcond
      · exact (Function.update_of_ne hut.symm ..).trans hbt
    · by_cases hvu : v = u
      · subst hvu
        have howns : (s.pc v).owns (update s.owner c (some v)) v = true := by
          obtain hpu | hpu := hpu <;> simp [show s.pc v = _ from hpu, Pc.owns]
        simpa [view, hut, howns] using hfu.handed hu
      · have h₁ : s.owner c ≠ some v := by simpa [ho] using Ne.symm hvt
        have h₂ : some u ≠ some v := by simpa using Ne.symm hvu
        simpa [view, hvt, hvu, Pc.owns_update h₁ h₂] using hI.fits v
  · intro d v
    have h₁ := hI.mutex d v
    have h₂ := hI.mutex c v
    dsimp only
    by_cases hvt : v = t
    · subst hvt
      simp only [Function.update_self, Pc.condSignal.injEq]
      simp only [hp, reduceCtorEq, exists_false, iff_false] at h₁
      by_cases hd : d = c
      · subst hd
        simp
      · simp [hd, h₁, Ne.symm hd]
    · rw [Function.update_of_ne hvt]
      by_cases hd : d = c
      · subst hd
        simp [← h₂, hm, Ne.symm hvt]
      · rw [Function.update_of_ne hd, h₁]
  · intro v
    have h₁ := hI.unborn v
    grind [update_apply]

theorem Inv.condReturn {holds : ℕ → ℕ → Bool} {ret : ℕ → Int} (hI : Inv s P)
    (hc : ltCurrent s i = some t) (ho : s.owner c = some t)
    (hp : s.pc t = .condLocked c ∨
      ∃ timeout call, s.pc t = .condWake c timeout call ∧ s.condMutex c = none)
    (hq : p = .user ∨ p = .condLocked c) :
    Inv { s with holds := holds, ret := ret, pc := update s.pc t p } P := by
  obtain ⟨hs, hrun⟩ := hI.toAgree.running hc
  have hf := hI.fits t
  have hrow := hf.row
  have hidle : (⟨s.needsResched t, (P.tree t).isSome, P.io t, P.cond t⟩ : Wakers) = .idle ∧
      decide (s.sleepUsecs t = 0) = true := by
    simp only [view, hrun, Run.kind, Row] at hrow
    refine ⟨?_, hrow.2⟩
    obtain hp | ⟨timeout, call, hp, hm⟩ := hp
    · rw [hp] at hrow
      exact hrow.1.1
    · rw [hp] at hrow
      have hw : P.cond t ≠ .hands c := by
        intro hh
        obtain ⟨v, k, hv⟩ := (hI.signal c t).mpr hh
        have := (hI.mutex c v).mpr ⟨t, k, hv⟩
        simp [hm] at this
      obtain ⟨hw', -⟩ | ⟨-, ⟨-, hw'⟩ | ⟨hw', -⟩⟩ := hrow.1
      · exact hw'
      · simp [Pc.owns, ho] at hw'
      · exact absurd (congrArg Wakers.cond hw') hw
  have hquiet : (s.pc t).quiet := by
    obtain hp | ⟨timeout, call, hp, -⟩ := hp <;> exact Pc.quiet_of_eq hp (by simp)
  have hquiet' : p.quiet := by obtain rfl | rfl := hq <;> simp
  have hA := hI.toAgree.setPc hquiet.2 hquiet'.2
  refine hI.advance hquiet hquiet' { hA with } rfl rfl rfl rfl (fun _ _ => id) ?_ ?_
  · intro u hu
    simp [view, hu]
  · simp only [Wakers.idle, Wakers.mk.injEq] at hidle
    obtain ⟨⟨hn, htree, hio, hcond⟩, hclear⟩ := hidle
    have hb : s.isBlocked t = false := by simpa [view, hcond] using hf.blocked
    have hx : s.stExited t = false := by
      obtain hp | ⟨_, _, hp, -⟩ := hp <;> simpa [view, hp] using hf.exited
    have htree' : P.tree t = none := by simpa using htree
    refine hf.current_idle hrun hrun rfl rfl rfl ?_ hn htree' hio hcond hclear hb hx
    obtain rfl | rfl := hq
    · exact .inl (Function.update_self ..)
    · exact .inr (.inl ⟨c, by simp [view], by simp [view, Pc.owns, ho]⟩)

theorem Inv.timedOut {timeout : BitVec 64} {call : CondCall} {ret : ℕ → Int} (hI : Inv s P)
    (hc : ltCurrent s i = some t) (ho : s.owner c ≠ some t) (hp : s.pc t = .condWake c timeout call) :
    ∃ P', Inv { s with
      blockedLthreads := update s.blockedLthreads c ((s.blockedLthreads c).erase t)
      isBlocked := update s.isBlocked t false
      ret := ret
      pc := update s.pc t .user } P' := by
  obtain ⟨hs, hrun⟩ := hI.toAgree.running hc
  have hf := hI.fits t
  have hrow := hf.row
  have hq := Pc.quiet_of_eq hp (Pc.quiet_condWake c timeout call)
  simp only [view, hrun, hp, Run.kind, Row, RunningRow, WokenRow, Pc.owns, ho, Wakers.onCond,
    Wakers.mk.injEq, decide_false, Bool.false_eq_true, and_false, and_true, false_or,
    or_false, decide_eq_true_eq] at hrow
  obtain ⟨⟨-, hn, htree, hio, hcond⟩, hclear⟩ := hrow
  have hmem : t ∈ s.blockedLthreads c := by
    rw [← List.count_pos_iff, hI.blocked c t, if_pos hcond]
    exact Nat.one_pos
  have hA := (hI.toAgree.unblock hmem).setPc hq.2 Pc.quiet_user.2
  refine ⟨_, hI.advance hq Pc.quiet_user { hA with } rfl rfl rfl rfl (fun _ _ => id) ?_ ?_⟩
  · intro u hu
    simp [view, hu]
  · refine hf.current_idle hrun hrun rfl rfl rfl ?_ hn ?_ hio ?_ ?_ ?_ ?_
    · exact .inl (Function.update_self ..)
    · simpa [view] using htree
    · exact Function.update_self ..
    · simpa [view] using hclear
    · exact Function.update_self ..
    · simpa [view, hp] using hf.exited

theorem Inv.tree_of_condSleep {timeout : BitVec 64} {call : CondCall} (hI : Inv s P)
    (hc : ltCurrent s i = some t) (hp : s.pc t = .condSleep c timeout call) : P.tree t = none := by
  have hrow := (hI.fits t).row
  simp only [view, (hI.toAgree.running hc).2, hp, Run.kind, Row, RunningRow] at hrow
  obtain ⟨hw, -⟩ | ⟨hw, -⟩ | ⟨-, hw, -⟩ := hrow.1 <;>
    simpa [Wakers.onCond, Wakers.again] using congrArg Wakers.tree hw

theorem Inv.condSleep {timeout : BitVec 64} {call : CondCall} {s₁ : State m} (hI : Inv s P)
    (hc : ltCurrent s i = some t) (hp : s.pc t = .condSleep c timeout call)
    (h : schedSleep s t timeout = .ok s₁)
    (h₁ : ltYield { s₁ with pc := update s₁.pc t (.condWake c timeout call) } i t = .ok s') :
    ∃ P', Inv s' P' := by
  obtain ⟨hs, hrun⟩ := hI.toAgree.running hc
  have hf := hI.fits t
  have hrow := hf.row
  have hx := hf.exited
  have hb := hf.blocked
  have hl := hf.lock
  refine hI.sleepLeave hc (Pc.quiet_of_eq hp (by simp)) (Pc.quiet_condWake c timeout call)
    (hI.tree_of_condSleep hc hp) ?_ h h₁
  intro tree clear h₂ h₃ h₄
  refine hf.current .leaving hrun rfl (by simp) rfl rfl rfl ?_ ?_ h₄ ?_ ?_
  · simp only [view, hrun, hp, Run.kind, Row, RunningRow, LeavingRow] at hrow ⊢
    refine ⟨?_, h₃⟩
    obtain ⟨hw, ho⟩ | ⟨hw, ho⟩ | ⟨hT, hw, ho⟩ := hrow.1
    · exact .inl ⟨by simp_all [Wakers.onCond], ho⟩
    · exact .inr (.inl ⟨by simp_all [Wakers.onCond], ho⟩)
    · exact .inr (.inr ⟨by simp_all [Wakers.again], ho⟩)
  · intro d x hd
    refine hl d x (.inl ?_)
    simpa [view, hp] using hd
  · exact hb
  · simpa [view, hp] using hx

theorem Inv.current_iff (hI : Inv s P) :
    s.currentLthread (s.sched u) = some u ↔
      (P.run u).kind = .running ∨ (P.run u).kind = .leaving := by
  constructor
  · intro h
    obtain hr | hr := hI.toAgree.held_of_current h
    · exact .inl (by rw [hr]; rfl)
    · exact .inr (by rw [hr]; rfl)
  · intro h
    cases hr : P.run u with
    | off | ready j => simp [hr, Run.kind] at h
    | held j g =>
      have hne : g ≠ .popped := by
        rintro rfl
        simp [hr, Run.kind] at h
      have hj : s.sched u = j := (hI.fits u).held j g hr hne
      rw [hj]
      exact hI.toAgree.current_of_held hr hne

theorem Inv.endSignal {sleeping ready : Fin (m + 1) → List ℕ} (resched : ℕ → Bool)
    {run : ℕ → Run m} {tree : ℕ → Option (Fin (m + 1))} {next : AfterSignal} (hI : Inv s P)
    (hc : ltCurrent s i = some t) (hp : s.pc t = .condSignal c u next)
    (hA : Agree { s with sleeping := sleeping, ready := ready, needsResched := resched }
      { P with run := run, tree := tree })
    (hv : ∀ v, v ≠ u → resched v = s.needsResched v ∧ run v = P.run v ∧ tree v = P.tree v)
    (hu : Fits { view s P u with
      needsResched := resched u, run := run u, tree := tree u, cond := .none }) :
    ∃ P', Inv { s with
      sleeping := sleeping, ready := ready, needsResched := resched
      condMutex := update s.condMutex c none, pc := update s.pc t .user } P' := by
  obtain ⟨hs, hrun⟩ := hI.toAgree.running hc
  obtain ⟨hn, htree, hio, hcond, hclear, hb, hx⟩ :=
    (hI.fits t).idle hrun (.inr (.inr (.inr (.inr ⟨c, u, next, hp⟩))))
  have hmt : s.condMutex c = some t := (hI.mutex c t).mpr ⟨u, next, hp⟩
  have huniq : ∀ x k, s.pc x = .condSignal c u k → x = t := by
    intro x k hx
    have := (hI.mutex c x).mpr ⟨u, k, hx⟩
    rw [hmt] at this
    exact (Option.some.inj this).symm
  have hcu : P.cond u = .hands c := (hI.signal c u).mp ⟨t, next, hp⟩
  have hut : u ≠ t := by
    rintro rfl
    rw [show P.cond u = .none from hcond] at hcu
    cases hcu
  have hB := hA.signalled hp huniq Pc.quiet_user.2
  refine ⟨_, { toAgree := { hB with }, fits := ?_, resume := hI.resume, mutex := ?_, unborn := ?_ }⟩
  · intro v
    by_cases hvt : v = t
    · subst hvt
      obtain ⟨h₁, h₂, h₃⟩ := hv v hut.symm
      refine (hI.fits v).current_idle hrun (h₂.trans hrun) rfl rfl rfl ?_ (h₁.trans hn)
        (h₃.trans htree) hio ?_ hclear hb hx
      · exact .inl (Function.update_self ..)
      · exact (Function.update_of_ne hut.symm ..).trans hcond
    · by_cases hvu : v = u
      · subst hvu
        simpa [view, hut] using hu
      · obtain ⟨h₁, h₂, h₃⟩ := hv v hvu
        simpa [view, hvt, hvu, h₁, h₂, h₃] using hI.fits v
  · intro d v
    have h₁ := hI.mutex d v
    dsimp only
    by_cases hvt : v = t
    · subst hvt
      simp only [hp, Pc.condSignal.injEq] at h₁
      grind [update_apply]
    · rw [Function.update_of_ne hvt, ← h₁]
      grind [update_apply]
  · intro v
    have h₁ := hI.unborn v
    grind [update_apply]

theorem Inv.wakeup {next : AfterSignal} {s₁ : State m} (hI : Inv s P) (hc : ltCurrent s i = some t)
    (hp : s.pc t = .condSignal c u next)
    (hg : (s.pc u).isTimedWait = true → s.sleepUsecs u ≠ 0) (h : wakeup s u = .ok s₁) :
    ∃ P', Inv { s₁ with
      condMutex := update s₁.condMutex c none, pc := update s₁.pc t .user } P' := by
  have hf := hI.fits u
  have hcu : P.cond u = .hands c := (hI.signal c u).mp ⟨t, next, hp⟩
  have hrow := hf.row
  rw [show (view s P u).cond = .hands c from hcu] at hrow
  have hw := hrow.woken (by simpa [view] using hg)
  obtain ⟨sleeping, h₁, hsl⟩ := wakeup_ok h
  obtain ⟨hk, hclear, htree, hrow'⟩ | ⟨hk, htree, hrow'⟩ := hw
  · have hoff : P.run u = .off := by
      cases hr : P.run u with
      | off => rfl
      | ready j => simp [view, hr, Run.kind] at hk
      | held j g => cases g <;> simp [view, hr, Run.kind] at hk
    have hzero : s.sleepUsecs u = 0 := by simpa [view] using hclear
    have hsl' : sleeping = s.sleeping := by
      obtain ⟨-, hsl⟩ | ⟨hne, -⟩ := hsl
      · exact hsl
      · exact absurd hzero hne
    subst hsl'
    have hcur : s.currentLthread (s.sched u) ≠ some u := by
      rw [Ne, hI.current_iff]
      simp [hoff, Run.kind]
    obtain ⟨hc', -⟩ | ⟨-, rfl⟩ := schedPushReadyUnsafe_ok h₁
    · exact absurd hc' hcur
    · have hA := hI.toAgree.enqueue (i := s.sched u) hoff
      have hfit := hf.enqueue (P.tree u) (P.io u) .none hoff hrow' hf.tree (by simp [view, hcu])
      obtain ⟨P', hP'⟩ := hI.endSignal s.needsResched hc hp { hA with }
        (by intro v hv; simp [hv]) (by simpa [view] using hfit)
      exact ⟨P', hP'.wake⟩
  · have hcur : s.currentLthread (s.sched u) = some u := hI.current_iff.mpr hk
    obtain ⟨-, rfl⟩ | ⟨hc', -⟩ := schedPushReadyUnsafe_ok h₁
    · obtain ⟨hzero, rfl⟩ | ⟨-, hmem, rfl⟩ := hsl
      · have hnone : P.tree u = none := by
          simpa [view] using htree (by simpa [view] using hzero)
        have hfit := hf.rewire true none (P.io u) .none hrow' (by simp) (by simp [view, hcu])
        obtain ⟨P', hP'⟩ := hI.endSignal (update s.needsResched u true) hc hp
          { hI.toAgree with } (by intro v hv; simp [hv]) (by simpa [view, hnone] using hfit)
        exact ⟨P', hP'.wake⟩
      · have hA := hI.toAgree.unsleep hmem
        have hfit := hf.rewire true none (P.io u) .none hrow' (by simp) (by simp [view, hcu])
        obtain ⟨P', hP'⟩ := hI.endSignal (update s.needsResched u true) hc hp
          { hA with } (by intro v hv; simp [hv]) (by simpa [view] using hfit)
        exact ⟨P', hP'.wake⟩
    · exact absurd hcur hc'

theorem ltCurrent_schedWakeUnsafe (s : State m) (i k : Fin (m + 1)) :
    ltCurrent (schedWakeUnsafe s k) i = ltCurrent s i := by
  cases hb : s.blockState k with
  | willBlock | wontBlock => simp [ltCurrent, schedWakeUnsafe, hb]
  | isBlocking =>
    by_cases h : i = k
    · subst h
      cases hp : s.schedPc i <;> simp [ltCurrent, schedWakeUnsafe, hb, hp, SchedPc.signal]
    · simp [ltCurrent, schedWakeUnsafe, hb, h]

theorem wakeup_current {s₁ : State m} (h : Lthread.wakeup s u = .ok s₁) :
    ltCurrent s₁ i = ltCurrent s i := by
  obtain ⟨sleeping, h₁, -⟩ := wakeup_ok h
  obtain ⟨-, rfl⟩ | ⟨-, rfl⟩ := schedPushReadyUnsafe_ok h₁
  · exact ltCurrent_schedWakeUnsafe _ _ _
  · exact ltCurrent_schedWakeUnsafe _ _ _

theorem Inv.owner_of_hands (hI : Inv s P) (h : P.cond u = .hands c) : s.owner c = some u := by
  have hrow := (hI.fits u).row
  rw [show (view s P u).cond = .hands c from h] at hrow
  obtain ⟨timeout, call, ho, -, -, hp⟩ := hrow.hands
  have hpc : s.pc u = .condSleep c timeout call ∨ s.pc u = .condWake c timeout call := by
    obtain ⟨hp, -⟩ | ⟨hp, -⟩ | ⟨hp, -⟩ | ⟨hp, -⟩ := hp
    · exact .inl hp
    all_goals exact .inr hp
  obtain hpc | hpc := hpc <;> simpa [view, hpc, Pc.owns] using ho

theorem Inv.condSignalled {next : AfterSignal} {s₁ : State m} (hI : Inv s P)
    (hc : ltCurrent s i = some t) (hp : s.pc t = .condSignal c u next)
    (hg : (s.pc u).isTimedWait = true → s.sleepUsecs u ≠ 0) (h : Lthread.wakeup s u = .ok s₁)
    (h₁ : condSignalled s₁ c t next = .ok s') : ∃ P', Inv s' P' := by
  obtain ⟨P₁, hI₁⟩ := hI.wakeup hc hp hg h
  refine hI₁.afterSignal ((wakeup_current h).trans hc) ?_ h₁
  have hcu : P.cond u = .hands c := (hI.signal c u).mp ⟨t, next, hp⟩
  have hct := ((hI.fits t).idle (hI.toAgree.running hc).2
    (.inr (.inr (.inr (.inr ⟨c, u, next, hp⟩))))).2.2.2.1
  obtain ⟨_, _, _, _, _, _, rfl⟩ := wakeup_frame h
  rw [show s.owner c = some u from hI.owner_of_hands hcu]
  rintro ⟨⟩
  rw [show P.cond t = .none from hct] at hcu
  cases hcu

theorem Inv.condLock (hI : Inv s P) (hc : ltCurrent s i = some t) (hp : s.pc t = .user)
    (hm : s.condMutex c = none) (h : condLock s c t = .ok s') : ∃ P', Inv s' P' := by
  obtain ⟨ho, rfl⟩ | ⟨-, ho, h₁⟩ := condLock_ok h
  · exact ⟨P, hI.lockFree hc hp ho⟩
  · exact hI.condBlock hc hp hm ho (fun _ => rfl) h₁

theorem Inv.condSignal {next : AfterSignal} (hI : Inv s P) (hc : ltCurrent s i = some t)
    (hp : s.pc t = .user) (hm : s.condMutex c = none) (h : condSignal s c t next = .ok s') :
    ∃ P', Inv s' P' := by
  obtain ⟨ho, ⟨-, h₁⟩ | ⟨u, rest, hb, -, rfl⟩⟩ := condSignal_ok h
  · exact hI.signalNone hc hp hm ho h₁
  · exact hI.signalSome hc hp hm ho hb

theorem Inv.condWaitReturn {timeout : BitVec 64} {call : CondCall} (hI : Inv s P)
    (hc : ltCurrent s i = some t) (hp : s.pc t = .condWake c timeout call)
    (hm : s.condMutex c = none) (h : condWaitReturn s c t call = .ok s') : ∃ P', Inv s' P' := by
  obtain ⟨ho, -, rfl⟩ | ⟨ho, -, rfl⟩ | ⟨ho, -, rfl⟩ := condWaitReturn_ok h
  · exact hI.timedOut hc ho hp
  · exact ⟨P, hI.condReturn hc ho (.inr ⟨timeout, call, hp, hm⟩) (.inr rfl)⟩
  · exact ⟨P, hI.condReturn hc ho (.inr ⟨timeout, call, hp, hm⟩) (.inl rfl)⟩

end Lthread
