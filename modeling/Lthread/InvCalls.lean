import Lthread.InvSched

namespace Lthread

open Function (update update_apply)

variable {m : ℕ} {s s' : State m} {P P' : Places m} {i : Fin (m + 1)} {t : ℕ} {p : Pc}

def Pc.quiet (p : Pc) : Prop := p ≠ .unborn ∧ ∀ c u k, p ≠ .condSignal c u k

theorem Inv.advance (hI : Inv s P) (ho : (s.pc t).quiet) (hp : p.quiet) (hA : Agree s' P')
    (hpc : s'.pc = update s.pc t p) (hm : s'.condMutex = s.condMutex)
    (hn : s'.numLthreads = s.numLthreads) (hs : s'.sched = s.sched)
    (hr : ∀ k u, s'.schedPc k = .resume u → s.schedPc k = .resume u)
    (hv : ∀ u, u ≠ t → view s' P' u = view s P u) (ht : Fits (view s' P' t)) : Inv s' P' := by
  refine { toAgree := hA, fits := fits_of_eq hI.fits hv ht, resume := ?_, mutex := ?_, unborn := ?_ }
  · intro k u h
    rw [hs]
    exact hI.resume k u (hr k u h)
  · intro c u
    rw [hm, hpc, hI.mutex c u]
    by_cases hu : u = t
    · subst hu
      simp [ho.2, hp.2]
    · rw [Function.update_of_ne hu]
  · intro u
    rw [hpc, hn, ← hI.unborn u]
    by_cases hu : u = t
    · subst hu
      simp [ho.1, hp.1]
    · rw [Function.update_of_ne hu]

theorem Agree.leave (hA : Agree s P) (h : s.schedPc i = .running t) :
    Agree { s with schedPc := update s.schedPc i (.leave t) }
      { P with run := update P.run t (.held i .leaving) } := by
  have ho : (s.schedPc i).holds = some (t, .running) := by rw [h]; rfl
  have hc : ∀ k, s.currentLthread k = (update s.schedPc i (.leave t) k).current := by
    intro k
    rw [hA.current k]
    by_cases hk : k = i
    · subst hk
      simp [h, SchedPc.current]
    · rw [Function.update_of_ne hk]
  exact hA.hold ho rfl hc

theorem resume_of_leave {k : Fin (m + 1)} {u : ℕ}
    (h : update s.schedPc i (.leave t) k = .resume u) : s.schedPc k = .resume u := by
  by_cases hk : k = i
  · subst hk
    simp at h
  · rwa [Function.update_of_ne hk] at h

theorem Pc.quiet_of_eq {q : Pc} (h : p = q) (hq : q.quiet) : p.quiet := h ▸ hq

@[simp] theorem Pc.quiet_user : Pc.user.quiet := by simp [Pc.quiet]
@[simp] theorem Pc.quiet_register (fd : ℕ) (e : Event) : (Pc.register fd e).quiet := by
  simp [Pc.quiet]
@[simp] theorem Pc.quiet_waitFd (fd : ℕ) (e : Event) : (Pc.waitFd fd e).quiet := by simp [Pc.quiet]
@[simp] theorem Pc.quiet_slept (msecs : BitVec 64) : (Pc.slept msecs).quiet := by simp [Pc.quiet]
@[simp] theorem Pc.quiet_exited : Pc.exited.quiet := by simp [Pc.quiet]
@[simp] theorem Pc.quiet_returned : Pc.returned.quiet := by simp [Pc.quiet]

theorem Inv.nowhere (hI : Inv s P) (h : s.pc t = .unborn) : P.run t = .off ∧ P.tree t = none := by
  have hrow := (hI.fits t).row
  simp only [view, h] at hrow
  cases hr : P.run t with
  | off =>
    rw [hr] at hrow
    have ht := congrArg Wakers.tree hrow.1
    exact ⟨rfl, by simpa [Wakers.idle] using ht⟩
  | ready j => simp [hr, Run.kind, Row, ReadyRow] at hrow
  | held j g => cases g <;> simp [hr, Run.kind, Row, ReadyRow, RunningRow, LeavingRow] at hrow

theorem Fits.born {v : View m} (hf : Fits v) (hp : v.pc = .unborn) (hr : v.run = .off) :
    Fits { v with pc := .user, owns := false, sched := i, run := .ready i } := by
  have hrow := hf.row
  have hg := hf.running
  have hx := hf.exited
  have hd := hf.freed
  rw [hr] at hrow hg
  rw [hp] at hx hd hrow
  have ht := congrArg Wakers.tree hrow.1
  exact { hf with
    row := hrow
    lock := by simp
    ready := by simp
    held := by simp
    tree := by simp_all [Wakers.idle]
    running := by simpa [Run.kind] using hg
    exited := by simpa using hx
    freed := by simpa using hd }

theorem Inv.spawn (hI : Inv s P) (h : ltCreate s i = .ok s') : ∃ P', Inv s' P' := by
  have hu : s.pc s.numLthreads = .unborn := (hI.unborn _).mpr le_rfl
  obtain ⟨hrun, -⟩ := hI.nowhere hu
  have hcur : s.currentLthread i ≠ some s.numLthreads := by
    intro hc
    obtain h | h := hI.toAgree.held_of_current hc <;> rw [h] at hrun <;> cases hrun
  obtain ⟨hc, -⟩ | ⟨-, rfl⟩ := schedPushReadyUnsafe_ok h
  · simp [hcur] at hc
  · have hA := (hI.toAgree.setPc (t := s.numLthreads) (p := .user) (by simp [hu])
      (by simp)).enqueue (i := i) hrun
    refine ⟨{ P with run := update P.run s.numLthreads (.ready i) }, Inv.wake {
      toAgree := ?_, fits := fits_of_eq (t := s.numLthreads) hI.fits ?_ ?_, resume := ?_,
      mutex := ?_, unborn := ?_ }⟩
    · simp only [Function.update_self]
      exact { hA with }
    · intro u hne
      simp [view, hne]
    · simpa [view, Pc.owns] using (hI.fits s.numLthreads).born (i := i) hu hrun
    · intro k u hk
      have hne : u ≠ s.numLthreads := by
        rintro rfl
        have hh := (hI.held k _ .popped).mp (by rw [show s.schedPc k = _ from hk]; rfl)
        rw [hrun] at hh
        cases hh
      simpa [hne] using hI.resume k u hk
    · intro c u
      have h₁ := hI.mutex c u
      grind [update_apply]
    · intro u
      have h₁ := hI.unborn u
      grind [update_apply]

theorem Inv.yield (hI : Inv s P) (hc : ltCurrent s i = some t) (hp : s.pc t = .user)
    (h : ltYield { s with needsResched := update s.needsResched t true } i t = .ok s') :
    ∃ P', Inv s' P' := by
  obtain ⟨-, rfl⟩ := ltYield_ok h
  obtain ⟨hs, hrun⟩ := hI.toAgree.running hc
  obtain ⟨hn, htree, hio, hcond, hclear, hb, hx⟩ := (hI.fits t).idle hrun (.inl hp)
  have hA := hI.toAgree.leave hs
  refine ⟨_, hI.advance (Pc.quiet_of_eq hp (by simp)) Pc.quiet_user { hA with } ?_ rfl rfl rfl
    (fun _ _ => resume_of_leave) ?_ ?_⟩
  · rw [← hp, Function.update_eq_self]
  · intro u hu
    simp [view, hu]
  · refine (hI.fits t).current .leaving hrun ?_ ?_ rfl rfl rfl ?_ ?_ ?_ ?_ ?_
    all_goals simp_all [view, Row, Run.kind, LeavingRow, Wakers.again]

theorem Inv.sleepLeave {msecs : BitVec 64} {s₁ : State m} (hI : Inv s P)
    (hc : ltCurrent s i = some t) (ho : (s.pc t).quiet) (hp : p.quiet) (ht : P.tree t = none)
    (hf : ∀ tree clear, tree.isSome = isTimed msecs → (isTimed msecs = true ∨ clear = true) →
      (∀ j, tree = some j → j = i) →
      Fits { view s P t with
        pc := p, owns := p.owns s.owner t, run := .held i .leaving, tree := tree, clear := clear })
    (h : schedSleep s t msecs = .ok s₁)
    (h₁ : ltYield { s₁ with pc := update s₁.pc t p } i t = .ok s') : ∃ P', Inv s' P' := by
  obtain ⟨hs, hrun⟩ := hI.toAgree.running hc
  have hi : s.sched t = i := (hI.fits t).held i .running hrun (by simp)
  obtain ⟨-, rfl⟩ := ltYield_ok h₁
  have hB := (hI.toAgree.setPc ho.2 hp.2).leave hs
  obtain ⟨hz, rfl⟩ | ⟨hz, -, key, tree, hperm, rfl⟩ := schedSleep_ok h
  · refine ⟨_, hI.advance ho hp { hB with } rfl rfl rfl rfl (fun _ _ => resume_of_leave) ?_ ?_⟩
    · intro u hu
      simp [view, hu]
    · simpa [view, ht] using hf none true (by simp [isTimed, hz]) (.inr rfl) (by simp)
  · rw [hi] at hperm
    have hT : isTimed msecs = true := decide_eq_true hz
    have hA := hB.sleep ht hperm
    refine ⟨{ P with run := update P.run t (.held i .leaving), tree := update P.tree t (some i) },
      hI.advance ho hp ?_ rfl rfl rfl rfl (fun _ _ => resume_of_leave) ?_ ?_⟩
    · simp only [hi]
      exact { hA with }
    · intro u hu
      simp [view, hu]
    · simpa [view] using hf (some i) (key = 0) (by simp [hT]) (.inl hT) (by simp)

theorem Inv.sleep {msecs : BitVec 64} {s₁ : State m} (hI : Inv s P) (hc : ltCurrent s i = some t)
    (hp : s.pc t = .user) (h : schedSleep s t msecs = .ok s₁)
    (h₁ : ltYield { s₁ with pc := update s₁.pc t (.slept msecs) } i t = .ok s') :
    ∃ P', Inv s' P' := by
  obtain ⟨hs, hrun⟩ := hI.toAgree.running hc
  obtain ⟨hn, htree, hio, hcond, hclear, hb, hx⟩ := (hI.fits t).idle hrun (.inl hp)
  refine hI.sleepLeave hc (Pc.quiet_of_eq hp Pc.quiet_user) (Pc.quiet_slept msecs) htree ?_ h h₁
  intro tree clear h₂ h₃ h₄
  refine (hI.fits t).current .leaving hrun rfl ?_ rfl rfl rfl ?_ ?_ h₄ ?_ ?_
  all_goals simp_all [view, Row, Run.kind, LeavingRow]

theorem Inv.addWaiting {fd : ℕ} {e : Event} (hI : Inv s P) (hc : ltCurrent s i = some t)
    (hp : s.pc t = .user) (h : pollerAddWaitingLthread s t fd e = .ok s') :
    ∃ P', Inv { s' with pc := update s'.pc t (.register fd e) } P' := by
  obtain ⟨hs, hrun⟩ := hI.toAgree.running hc
  obtain ⟨hn, htree, hio, hcond, hclear, hb, hx⟩ := (hI.fits t).idle hrun (.inl hp)
  obtain ⟨-, -, waiting, hw, rfl⟩ := pollerAddWaitingLthread_ok h
  have ho := Pc.quiet_of_eq hp Pc.quiet_user
  have hq := Pc.quiet_register fd e
  have hA := (hI.toAgree.addWaiting hio (OrderedTree.insert_perm hw)).setPc ho.2 hq.2
  refine ⟨_, hI.advance ho hq { hA with } rfl rfl rfl rfl (fun _ _ => id) ?_ ?_⟩
  · intro u hu
    simp [view, hu]
  · refine (hI.fits t).current .running hrun hrun ?_ rfl rfl rfl ?_ ?_ ?_ ?_ ?_
    all_goals simp_all [view, Row, Run.kind, RunningRow, Wakers.onIo, Wakers.again]

theorem Inv.finish {x : ℕ → Bool} (hI : Inv s P) (hc : ltCurrent s i = some t)
    (hp : s.pc t = .user)
    (h : x = update s.stExited t true ∧ p = .exited ∨ x = s.stExited ∧ p = .returned) :
    ∃ P', Inv { s with
      stExited := x, pc := update s.pc t p, schedPc := update s.schedPc i (.leave t) } P' := by
  obtain ⟨hs, hrun⟩ := hI.toAgree.running hc
  obtain ⟨hn, htree, hio, hcond, hclear, hb, hx⟩ := (hI.fits t).idle hrun (.inl hp)
  have ho := Pc.quiet_of_eq hp Pc.quiet_user
  have hq : p.quiet := by obtain ⟨-, rfl⟩ | ⟨-, rfl⟩ := h <;> simp
  have hA := (hI.toAgree.setPc ho.2 hq.2).leave hs
  refine ⟨_, hI.advance ho hq { hA with } rfl rfl rfl rfl (fun _ _ => resume_of_leave) ?_ ?_⟩
  · intro u hu
    obtain ⟨rfl, -⟩ | ⟨rfl, -⟩ := h <;> simp [view, hu]
  · refine (hI.fits t).current .leaving hrun ?_ ?_ rfl rfl rfl ?_ ?_ ?_ ?_ ?_
    all_goals obtain ⟨rfl, rfl⟩ | ⟨rfl, rfl⟩ := h <;>
      simp_all [view, Row, Run.kind, LeavingRow, Wakers.idle]

theorem Inv.register {fd : ℕ} {e : Event} {s₁ : State m} (hI : Inv s P)
    (hc : ltCurrent s i = some t) (hp : s.pc t = .register fd e)
    (h : pollerRegisterEvent s fd e = .ok s₁)
    (h₁ : ltYield { s₁ with pc := update s₁.pc t (.waitFd fd e) } i t = .ok s') :
    ∃ P', Inv s' P' := by
  obtain ⟨hs, hrun⟩ := hI.toAgree.running hc
  obtain ⟨-, rfl⟩ := ltYield_ok h₁
  have hs₁ := pollerRegisterEvent_ok h
  subst hs₁
  have ho := Pc.quiet_of_eq hp (Pc.quiet_register fd e)
  have hq := Pc.quiet_waitFd fd e
  have hA := (hI.toAgree.setPc ho.2 hq.2).leave hs
  have hf := hI.fits t
  refine ⟨_, hI.advance ho hq { hA with } rfl rfl rfl rfl (fun _ _ => resume_of_leave) ?_ ?_⟩
  · intro u hu
    simp [view, hu]
  · have hrow := hf.row
    have hb := hf.blocked
    have hx := hf.exited
    have htree := hf.tree
    simp only [view, hrun, hp, Row, RunningRow, Run.kind] at hrow hb hx htree
    refine hf.current .leaving hrun ?_ ?_ rfl rfl rfl ?_ ?_ ?_ ?_ ?_
    all_goals simp_all [view, Row, Run.kind, LeavingRow]
    all_goals grind [Wakers.again, Wakers.onIo]

theorem Inv.return {eof : ℕ → Bool} {ret : ℕ → Int} (hI : Inv s P) (hc : ltCurrent s i = some t)
    (hp : (∃ msecs, s.pc t = .slept msecs) ∨ ∃ fd e, s.pc t = .waitFd fd e) :
    Inv { s with stFdEof := eof, ret := ret, pc := update s.pc t .user } P := by
  obtain ⟨hs, hrun⟩ := hI.toAgree.running hc
  obtain ⟨hn, htree, hio, hcond, hclear, hb, hx⟩ := (hI.fits t).idle hrun (.inr (hp.imp_right .inl))
  have ho : (s.pc t).quiet := by
    obtain ⟨_, hp⟩ | ⟨_, _, hp⟩ := hp
    · exact Pc.quiet_of_eq hp (by simp)
    · exact Pc.quiet_of_eq hp (by simp)
  have hA := hI.toAgree.setPc ho.2 Pc.quiet_user.2
  refine hI.advance ho Pc.quiet_user { hA with } rfl rfl rfl rfl (fun _ _ => id) ?_ ?_
  · intro u hu
    simp [view, hu]
  · refine (hI.fits t).current_idle hrun hrun rfl rfl rfl ?_ hn htree hio hcond hclear hb hx
    exact .inl (Function.update_self ..)

end Lthread
