import Lthread.IoMoves
import Lthread.Placement
import Lthread.Socket

namespace Lthread

open Function (update update_apply)

variable {m : ℕ} {s s' : State m} {P : Places m} {i : Fin (m + 1)} {l : Label m} {t : ℕ}
  {clock : ℕ} {isOpen : ℕ → Bool}

theorem pollerPushEvent_fdEof {isEof : Bool} (h : pollerPushEvent s t isEof = .ok s') :
    s'.stFdEof = update s.stFdEof t (fdEofHandled (s.stFdEof t) isEof) := by
  obtain ⟨-, rfl⟩ | ⟨-, rfl⟩ := schedPushReadyUnsafe_ok h <;>
    cases isEof <;> simp [schedWakeUnsafe, fdEofHandled]

theorem contStep_waitFd {fd : ℕ} {e : Event} (hp : s.pc t = .waitFd fd e) :
    contStep s i t = some (.ok { s with
      ret := update s.ret t (waitFdReturn (s.stFdEof t)).1
      stFdEof := update s.stFdEof t (waitFdReturn (s.stFdEof t)).2
      pc := update s.pc t .user }) := by
  cases hb : s.stFdEof t <;> simp [contStep, hp, hb, waitFdReturn]

def State.EofInWait (s : State m) : Prop := ∀ t, s.stFdEof t = true → (s.pc t).isWait = true

theorem State.EofInWait.update (h : s.EofInWait) {p : Pc} (hp : (s.pc t).isWait = false)
    (he : s'.stFdEof = s.stFdEof) (hpc : s'.pc = Function.update s.pc t p) : s'.EofInWait := by
  intro u hu
  rw [he] at hu
  have hut : u ≠ t := by
    rintro rfl
    simp [h u hu] at hp
  rw [hpc, Function.update_of_ne hut]
  exact h u hu

theorem State.EofInWait.frame (h : s.EofInWait) (he : s'.stFdEof = s.stFdEof)
    (hpc : s'.pc = s.pc) : s'.EofInWait := by
  intro u hu
  rw [he] at hu
  rw [hpc]
  exact h u hu

theorem State.EofInWait.condSignalled {c : ℕ} {next : AfterSignal}
    (hs : condSignalled s c t next = .ok s') (h : s.EofInWait) (hp : (s.pc t).isWait = false) :
    s'.EofInWait := by
  obtain ⟨-, p, hpc, -⟩ := condSignalled_traffic hs
  obtain ⟨-, rfl⟩ | ⟨_, -, h₁⟩ := condSignalled_ok hs
  · exact h.update hp rfl hpc
  · obtain ⟨-, rfl⟩ := condBlock_ok h₁
    exact h.update hp rfl hpc

theorem State.EofInWait.step (h : s.EofInWait) (hI : Inv s P) (hc : StepCase s l s') :
    s'.EofInWait := by
  obtain hf | rfl | ⟨i, rfl | ⟨op, rfl⟩⟩ := hc.io_frame
  · exact h.frame hf.stFdEof hf.pc
  · cases hc with
    | deschedNone hp hf hs | account hp hs =>
      rw [handledEvent_ok hs]
      exact h.frame rfl rfl
    | deschedSome hp hf =>
      obtain ⟨-, -, hs⟩ := pollerDeschedEvent_some hf
      rw [hs]
      exact h.frame rfl rfl
    | @push t ev dir ltRead rest s₁ hp hf hs =>
      have hrow := (hI.fits t).row
      rw [show (view s P t).io = .hands from (hI.hands t).mp (by rw [hp]; rfl)] at hrow
      have hpc : s₁.pc = s.pc := by
        obtain ⟨-, rfl⟩ | ⟨-, rfl⟩ := schedPushReadyUnsafe_ok hs <;> rfl
      intro u hu
      show (s₁.pc u).isWait = true
      rw [hpc]
      by_cases hut : u = t
      · subst hut
        exact hrow.isWait
      · have he := pollerPushEvent_fdEof hs
        rw [show s₁.stFdEof = _ from he, Function.update_of_ne hut] at hu
        exact h u hu
  · cases hc with
    | register hcur hp hs h₁ =>
      have hs₁ := pollerRegisterEvent_ok hs
      subst hs₁
      obtain ⟨-, rfl⟩ := ltYield_ok h₁
      intro u hu
      simp only [update_apply]
      split
      · rfl
      · exact h u hu
    | @waitFdReturn _ t _ _ hcur hp =>
      intro u hu
      have hut : u ≠ t := by
        rintro rfl
        simp at hu
      simp only [Function.update_of_ne hut] at hu ⊢
      exact h u hu
    | sleepReturn hcur hp => exact h.update (by rw [hp]; rfl) rfl rfl
    | condLockReturn hcur hp hs =>
      obtain ⟨-, rfl⟩ := condLockReturn_ok hs
      exact h.update (by rw [hp]; rfl) rfl rfl
    | condSleep hcur hp hs h₁ =>
      obtain ⟨-, rfl⟩ := ltYield_ok h₁
      obtain ⟨-, rfl⟩ | ⟨-, -, _, _, -, rfl⟩ := schedSleep_ok hs <;>
        exact h.update (by rw [hp]; rfl) rfl rfl
    | condWaitReturn hcur hp hm hs =>
      obtain ⟨-, -, rfl⟩ | ⟨-, -, rfl⟩ | ⟨-, -, rfl⟩ := condWaitReturn_ok hs <;>
        exact h.update (by rw [hp]; rfl) rfl rfl
    | @condSignalled _ t _ _ _ _ _ hcur hp hf hs h₁ =>
      have hw : (s.pc t).isWait = false := by rw [hp]; rfl
      obtain ⟨_, _, _, _, _, _, rfl⟩ := wakeup_frame hs
      exact State.EofInWait.condSignalled h₁ (h.frame rfl rfl) hw
  · cases hc with
    | spawn hcur hp hs =>
      have hu : (s.pc s.numLthreads).isWait = false := by
        rw [(hI.unborn s.numLthreads).mpr le_rfl]
        rfl
      obtain ⟨-, rfl⟩ | ⟨-, rfl⟩ := schedPushReadyUnsafe_ok hs <;> exact h.update hu rfl rfl
    | yield hcur hp hs =>
      obtain ⟨-, rfl⟩ := ltYield_ok hs
      exact h.frame rfl rfl
    | exit hcur hp hs =>
      obtain ⟨-, rfl⟩ := ltYield_ok hs
      exact h.update (by rw [hp]; rfl) rfl rfl
    | sleep hcur hp hs h₁ =>
      obtain ⟨-, rfl⟩ := ltYield_ok h₁
      obtain ⟨-, rfl⟩ | ⟨-, -, _, _, -, rfl⟩ := schedSleep_ok hs <;>
        exact h.update (by rw [hp]; rfl) rfl rfl
    | waitFd hcur hp hs =>
      obtain ⟨-, -, _, -, rfl⟩ := pollerAddWaitingLthread_ok hs
      exact h.update (by rw [hp]; rfl) rfl rfl
    | condLock hcur hp hm hs =>
      obtain ⟨-, rfl⟩ | ⟨-, -, h₁⟩ := condLock_ok hs
      · exact h.update (by rw [hp]; rfl) rfl rfl
      · obtain ⟨-, rfl⟩ := condBlock_ok h₁
        exact h.update (by rw [hp]; rfl) rfl rfl
    | @condSignal _ t _ _ _ hcur hp hm hs =>
      have hw : (s.pc t).isWait = false := by rw [hp]; rfl
      obtain ⟨-, ⟨-, h₁⟩ | ⟨_, _, -, -, rfl⟩⟩ := condSignal_ok hs
      · exact State.EofInWait.condSignalled h₁ (h.frame rfl rfl) hw
      · exact h.update hw rfl rfl
    | ret hcur hp => exact h.update (by rw [hp]; rfl) rfl rfl
    | socket | close => exact h.frame rfl rfl

theorem eofInWait_of_reach {ok : State m → Label m → Prop}
    (hr : Runs.Reach Lthread.step ok (State.init m clock isOpen) s)
    (hok : ∀ {s l}, Runs.Reach Lthread.step ok (State.init m clock isOpen) s → ok s l →
      s.signalInTime l = true) : s.EofInWait := by
  apply invariant_of_reach (I := State.EofInWait) hr
  · rw [init_eq]
    intro u hu
    cases hu
  · intro s s' l hr h _ hc
    obtain ⟨⟨P, hI⟩, -⟩ := exists_inv_of_reach hr hok
    exact h.step hI hc
  · intro s f h
    exact h

/-- A lthread that is not in `_lthread_wait_fd` has the bit clear, so a wrapper starts
with it clear. -/
theorem UntimedReach.fdEof_eq_false (hr : UntimedReach clock isOpen s)
    (ht : (s.pc t).isWait = false) : s.stFdEof t = false := by
  have h := eofInWait_of_reach hr fun h _ => UntimedReach.signalInTime h _
  by_contra hb
  simp [h t (by simpa using hb)] at ht

end Lthread
