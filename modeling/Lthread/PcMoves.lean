import Lthread.StepCases

namespace Lthread

open Function (update)

variable {m : ℕ}

def Pc.returns : Pc → Bool
  | .waitFd _ _ | .slept _ | .condLocked _ | .condWake _ _ .wait | .condSignal _ _ .unlock => true
  | _ => false

inductive PcMove : Label m → Pc → Pc → Prop where
  | sleep {i msecs} : PcMove (.call i (.sleep msecs)) .user (.slept msecs)
  | waitFd {i fd e} : PcMove (.call i (.waitFd fd e)) .user (.register fd e)
  | locks {i c} : PcMove (.call i (.condLock c)) .user (.condLocked c)
  | blocks {i c} : PcMove (.call i (.condLock c)) .user (.condSleep c 0 .lock)
  | signals {i c u next} : PcMove (.call i (next.op c)) .user (.condSignal c u next)
  | waits {i c timeout} : PcMove (.call i (.condWait c timeout)) .user (.condSleep c timeout .wait)
  | exit {i} : PcMove (.call i .exit) .user .exited
  | ret {i} : PcMove (.call i .ret) .user .returned
  | register {i fd e} : PcMove (.cont i) (.register fd e) (.waitFd fd e)
  | condSleep {i c timeout call} :
      PcMove (.cont i) (.condSleep c timeout call) (.condWake c timeout call)
  | relocks {i c timeout} : PcMove (.cont i) (.condWake c timeout .lock) (.condLocked c)
  | signalled {i c u timeout} :
      PcMove (.cont i) (.condSignal c u (.wait timeout)) (.condSleep c timeout .wait)
  | back {i p} (h : p.returns = true) : PcMove (.cont i) p .user

theorem PcMove.register_inv {l : Label m} {p : Pc} {fd : ℕ} {e : Event}
    (h : PcMove l p (.register fd e)) : ∃ i, l = .call i (.waitFd fd e) := by
  cases h
  exact ⟨_, rfl⟩

theorem PcMove.waitFd_inv {l : Label m} {p : Pc} {fd : ℕ} {e : Event}
    (h : PcMove l p (.waitFd fd e)) : p = .register fd e := by
  cases h
  rfl

inductive PcStep (s : State m) (l : Label m) (s' : State m) : Prop where
  | keep (h : s'.pc = s.pc)
  | move {i t p} (hl : l = .cont i ∨ ∃ op, l = .call i op) (hc : ltCurrent s i = some t)
      (hm : PcMove l (s.pc t) p) (h : s'.pc = update s.pc t p)
  | spawn {i} (hl : l = .call i .spawn) (h : s'.pc = update s.pc s.numLthreads .user)

variable {s s' : State m} {l : Label m} {i : Fin (m + 1)} {t : ℕ}

theorem PcStep.forall_pc {Q : Pc → Prop} (h : PcStep s l s') (hQ : ∀ u, Q (s.pc u))
    (hm : ∀ {p q : Pc}, PcMove l p q → Q p → Q q) (hu : Q .user) (u : ℕ) : Q (s'.pc u) := by
  have hupdate : ∀ t p, Q p → Q (update s.pc t p u) := by
    intro t p hp
    by_cases hut : u = t
    · subst hut
      rwa [Function.update_self]
    · rw [Function.update_of_ne hut]
      exact hQ u
  cases h with
  | keep h =>
    rw [h]
    exact hQ u
  | move _ _ hp h =>
    rw [h]
    exact hupdate _ _ (hm hp (hQ _))
  | spawn _ h =>
    rw [h]
    exact hupdate _ _ hu

theorem PcStep.called {op : Op} {p : Pc} (hc : ltCurrent s i = some t) (hp : s.pc t = .user)
    (hm : PcMove (.call i op) .user p) (h : s'.pc = update s.pc t p) :
    PcStep s (.call i op) s' :=
  .move (.inr ⟨op, rfl⟩) hc (hp ▸ hm) h

theorem PcStep.continued {p q : Pc} (hc : ltCurrent s i = some t) (hp : s.pc t = p)
    (hm : PcMove (.cont i) p q) (h : s'.pc = update s.pc t q) : PcStep s (.cont i) s' :=
  .move (.inl rfl) hc (hp ▸ hm) h

theorem StepCase.pcStep_call {op : Op} (h : StepCase s (.call i op) s') :
    PcStep s (.call i op) s' := by
  cases h with
  | spawn hc hp h =>
    obtain ⟨-, rfl⟩ | ⟨-, rfl⟩ := schedPushReadyUnsafe_ok h <;> exact .spawn rfl rfl
  | yield hc hp h =>
    obtain ⟨-, rfl⟩ := ltYield_ok h
    exact .keep rfl
  | sleep hc hp h h₁ =>
    obtain ⟨-, rfl⟩ := ltYield_ok h₁
    obtain ⟨-, rfl⟩ | ⟨-, -, _, _, -, rfl⟩ := schedSleep_ok h <;> exact .called hc hp .sleep rfl
  | waitFd hc hp h =>
    obtain ⟨-, -, _, -, rfl⟩ := pollerAddWaitingLthread_ok h
    exact .called hc hp .waitFd rfl
  | condLock hc hp hm h =>
    obtain ⟨-, rfl⟩ | ⟨-, -, h₁⟩ := condLock_ok h
    · exact .called hc hp .locks rfl
    · obtain ⟨-, rfl⟩ := condBlock_ok h₁
      exact .called hc hp .blocks rfl
  | @condSignal _ t _ _ _ hc hp hm h =>
    obtain ⟨-, ⟨-, h₁⟩ | ⟨_, _, -, -, rfl⟩⟩ := condSignal_ok h
    · obtain ⟨-, rfl⟩ | ⟨_, rfl, h₂⟩ := condSignalled_ok h₁
      · refine .keep ?_
        dsimp only
        rw [← hp, Function.update_eq_self]
      · obtain ⟨-, rfl⟩ := condBlock_ok h₂
        refine .called hc hp .waits ?_
        exact Function.update_idem ..
    · exact .called hc hp .signals rfl
  | socket | close => exact .keep rfl
  | exit hc hp h =>
    obtain ⟨-, rfl⟩ := ltYield_ok h
    exact .called hc hp .exit rfl
  | ret hc hp => exact .called hc hp .ret rfl

theorem StepCase.pcStep_cont (h : StepCase s (.cont i) s') : PcStep s (.cont i) s' := by
  cases h with
  | register hc hp h h₁ =>
    have hs := pollerRegisterEvent_ok h
    subst hs
    obtain ⟨-, rfl⟩ := ltYield_ok h₁
    exact .continued hc hp .register rfl
  | waitFdReturn hc hp | sleepReturn hc hp => exact .continued hc hp (.back rfl) rfl
  | condLockReturn hc hp h =>
    obtain ⟨-, rfl⟩ := condLockReturn_ok h
    exact .continued hc hp (.back rfl) rfl
  | condSleep hc hp h h₁ =>
    obtain ⟨-, rfl⟩ := ltYield_ok h₁
    obtain ⟨-, rfl⟩ | ⟨-, -, _, _, -, rfl⟩ := schedSleep_ok h <;>
      exact .continued hc hp .condSleep rfl
  | condWaitReturn hc hp hm h =>
    obtain ⟨-, rfl, rfl⟩ | ⟨-, rfl, rfl⟩ | ⟨-, rfl, rfl⟩ := condWaitReturn_ok h
    · exact .continued hc hp (.back rfl) rfl
    · exact .continued hc hp .relocks rfl
    · exact .continued hc hp (.back rfl) rfl
  | condSignalled hc hp hf h h₁ =>
    obtain ⟨_, _, _, _, _, _, rfl⟩ := wakeup_frame h
    obtain ⟨rfl, rfl⟩ | ⟨_, rfl, h₂⟩ := condSignalled_ok h₁
    · exact .continued hc hp (.back rfl) rfl
    · obtain ⟨-, rfl⟩ := condBlock_ok h₂
      refine .continued hc hp .signalled ?_
      exact Function.update_idem ..

theorem StepCase.pcStep (h : StepCase s l s') : PcStep s l s' := by
  obtain hf | ⟨i, rfl | ⟨op, rfl⟩⟩ := h.system_or_code
  · exact .keep hf.pc
  · exact h.pcStep_cont
  · exact h.pcStep_call

end Lthread
