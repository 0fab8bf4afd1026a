import Lthread.Placement

namespace Lthread

open Function (update update_apply)

variable {m : ℕ} {s s' : State m} {P : Places m} {i : Fin (m + 1)} {t c : ℕ} {clock : ℕ}
  {isOpen : ℕ → Bool}

inductive OwnerStep (s s' : State m) : Prop where
  | keep (ho : s'.owner = s.owner) (hh : s'.holds = s.holds)
  | acquire {t c : ℕ} (h : s.owner c = none) (ho : s'.owner = update s.owner c (some t))
      (hh : s'.holds = s.holds)
  | release {t c : ℕ} {o : Option ℕ} (h : s.owner c = some t) (ho : s'.owner = update s.owner c o)
      (hh : s'.holds = update s.holds t (update (s.holds t) c false))
  | complete {t c : ℕ} (h : s.owner c = some t) (ho : s'.owner = s.owner)
      (hh : s'.holds = update s.holds t (update (s.holds t) c true))

theorem StepCase.ownerStep {l : Label m} (h : StepCase s l s') : OwnerStep s s' := by
  obtain hf | ⟨i, rfl | ⟨op, rfl⟩⟩ := h.system_or_code
  · exact .keep hf.owner hf.holds
  · cases h with
    | waitFdReturn | sleepReturn => exact .keep rfl rfl
    | register hc hp h h₁ =>
      have hs := pollerRegisterEvent_ok h
      subst hs
      obtain ⟨-, rfl⟩ := ltYield_ok h₁
      exact .keep rfl rfl
    | condLockReturn hc hp h =>
      obtain ⟨ho, rfl⟩ := condLockReturn_ok h
      exact .complete ho rfl rfl
    | condSleep hc hp h h₁ =>
      obtain ⟨-, rfl⟩ := ltYield_ok h₁
      obtain ⟨-, rfl⟩ | ⟨-, -, _, _, -, rfl⟩ := schedSleep_ok h <;> exact .keep rfl rfl
    | condWaitReturn hc hp hm h =>
      obtain ⟨-, -, rfl⟩ | ⟨-, -, rfl⟩ | ⟨ho, -, rfl⟩ := condWaitReturn_ok h
      · exact .keep rfl rfl
      · exact .keep rfl rfl
      · exact .complete ho rfl rfl
    | condSignalled hc hp hf h h₁ =>
      obtain ⟨_, _, _, _, _, _, rfl⟩ := wakeup_frame h
      obtain ⟨-, rfl⟩ | ⟨_, -, h₂⟩ := condSignalled_ok h₁
      · exact .keep rfl rfl
      · obtain ⟨-, rfl⟩ := condBlock_ok h₂
        exact .keep rfl rfl
  · cases h with
    | spawn hc hp h =>
      obtain ⟨-, rfl⟩ | ⟨-, rfl⟩ := schedPushReadyUnsafe_ok h <;> exact .keep rfl rfl
    | sleep hc hp h h₁ =>
      obtain ⟨-, rfl⟩ := ltYield_ok h₁
      obtain ⟨-, rfl⟩ | ⟨-, -, _, _, -, rfl⟩ := schedSleep_ok h <;> exact .keep rfl rfl
    | waitFd hc hp h =>
      obtain ⟨-, -, _, -, rfl⟩ := pollerAddWaitingLthread_ok h
      exact .keep rfl rfl
    | condLock hc hp hm h =>
      obtain ⟨ho, rfl⟩ | ⟨-, -, h₁⟩ := condLock_ok h
      · exact .acquire ho rfl rfl
      · obtain ⟨-, rfl⟩ := condBlock_ok h₁
        exact .keep rfl rfl
    | condSignal hc hp hm h =>
      obtain ⟨ho, ⟨-, h₁⟩ | ⟨v, _, -, -, rfl⟩⟩ := condSignal_ok h
      · obtain ⟨-, rfl⟩ | ⟨_, -, h₂⟩ := condSignalled_ok h₁
        · exact .release ho rfl rfl
        · obtain ⟨-, rfl⟩ := condBlock_ok h₂
          exact .release ho rfl rfl
      · exact .release ho rfl rfl
    | yield hc hp h | exit hc hp h =>
      obtain ⟨-, rfl⟩ := ltYield_ok h
      exact .keep rfl rfl
    | ret | socket | close => exact .keep rfl rfl

def State.holdersOwn (s : State m) : Prop := ∀ t c, s.holds t c = true → s.owner c = some t

theorem OwnerStep.holdersOwn (hH : s.holdersOwn) (h : OwnerStep s s') : s'.holdersOwn := by
  intro u d
  have h₁ := hH u d
  cases h with
  | keep ho hh =>
    rw [ho, hh]
    exact h₁
  | @acquire t c h ho hh | @complete t c h ho hh =>
    rw [ho, hh]
    by_cases hu : u = t <;> by_cases hd : d = c <;> simp_all
  | @release t c o h ho hh =>
    rw [ho, hh]
    by_cases hd : d = c
    · subst hd
      by_cases hu : u = t
      · simp [hu]
      · have hne : s.owner d ≠ some u := by simpa [h] using Ne.symm hu
        simpa [hu] using fun hx => absurd (h₁ hx) hne
    · by_cases hu : u = t <;> simp_all

theorem holdersOwn_of_reach {ok : State m → Label m → Prop}
    (hr : Runs.Reach step ok (State.init m clock isOpen) s) : s.holdersOwn := by
  apply invariant_of_reach hr
  · rw [init_eq]
    intro t c h
    cases h
  · rintro s s' l - hH - hc
    exact hc.ownerStep.holdersOwn hH
  · intro s f hH
    exact hH

/-- `lthread_cond_lock` is called by a lthread that does not own the condition
variable, `lthread_cond_wait` and `lthread_cond_unlock_signal` by its owner. -/
def State.disciplined (s : State m) : Label m → Bool
  | .call i (.condLock c) => s.owner c ≠ ltCurrent s i
  | .call i (.condWait c _) | .call i (.condUnlockSignal c) => s.owner c = ltCurrent s i
  | _ => true

/-- The asserts of `lthread_cond.c`. -/
def Fault.inCond : Fault → Bool
  | .lockByOwner | .lockOwner | .acquire | .release | .waiterBlocked | .waiterUnblocked
  | .ownerBlocked | .signalUnblocked => true
  | _ => false

theorem Fault.not_inCond {f : Fault} {l : Label m} (hd : s.disciplined l = true)
    (h : f.cause s l) : f.inCond = false := by
  cases f with
  | lockByOwner =>
    obtain ⟨i, t, c, rfl, hc, ho⟩ := h
    simp [State.disciplined, hc, ho] at hd
  | release =>
    obtain ⟨i, t, c, next, rfl, hc, ho⟩ := h
    cases next <;> simp [State.disciplined, AfterSignal.op, hc, ho] at hd
  | lockOwner | acquire | waiterBlocked | waiterUnblocked | ownerBlocked | signalUnblocked =>
    exact h.elim
  | _ => rfl

theorem Inv.lock_returns (hI : Inv s P) (hc : ltCurrent s i = some t) (hp : s.pc t = .condLocked c)
    (h : Lthread.step s (.cont i) = some s') : s'.pc t = .user ∧ s'.owner c = some t := by
  simp only [Lthread.step, exec, hc, contStep, hp] at h
  split at h
  · cases h
  · cases hr : Lthread.condLockReturn s c t with
    | error f => exact absurd hr (hI.condLockReturn_ok hc hp)
    | ok s₁ =>
      rw [hr] at h
      cases h
      obtain ⟨ho, rfl⟩ := Lthread.condLockReturn_ok hr
      exact ⟨by simp, ho⟩

theorem Inv.wait_returns {timeout : BitVec 64} (hI : Inv s P) (hc : ltCurrent s i = some t)
    (hp : s.pc t = .condWake c timeout .wait) (hu : isTimed timeout = false)
    (h : Lthread.step s (.cont i) = some s') :
    s'.pc t = .user ∧ s'.owner c = some t ∧ s'.ret t = 0 := by
  have hrow := (hI.fits t).row
  simp only [view, (hI.toAgree.running hc).2, hp, Run.kind, Row, RunningRow, WokenRow, Pc.owns, hu,
    Bool.false_eq_true, false_and, or_false, decide_eq_true_eq] at hrow
  simp only [Lthread.step, exec, hc, contStep, hp] at h
  split at h
  · cases h
  · by_cases hm : s.condMutex c = none
    · simp only [hm, ↓reduceIte] at h
      cases hr : Lthread.condWaitReturn s c t .wait with
      | error f => exact absurd hr (hI.condWaitReturn_ok hc hp)
      | ok s₁ =>
        rw [hr] at h
        cases h
        obtain ⟨ho, -, rfl⟩ | ⟨-, hl, -⟩ | ⟨ho, -, rfl⟩ := Lthread.condWaitReturn_ok hr
        · exact absurd hrow.1.2 ho
        · cases hl
        · exact ⟨by simp, ho, by simp⟩
    · simp [hm] at h

/-- At most one lthread holds a condition variable, every lock and every wait
returns to the owner, and no assertion of `lthread_cond.c` fails. -/
theorem cond_mutual_exclusion
    (hr : Runs.Reach step (fun s l => l.untimed = true ∧ s.disciplined l = true)
      (State.init m clock isOpen) s) :
    (∀ c t u, s.holds t c = true → s.holds u c = true → t = u) ∧
    (∀ i t c s', ltCurrent s i = some t → step s (.cont i) = some s' →
      (s.pc t = .condLocked c → s'.pc t = .user ∧ s'.owner c = some t) ∧
      (∀ timeout, s.pc t = .condWake c timeout .wait →
        s'.pc t = .user ∧ s'.owner c = some t ∧ s'.ret t = 0)) ∧
    (∀ f, s.fault = some f → f.inCond = false) ∧ s.Unbroken := by
  have hU : UntimedReach clock isOpen s := hr.mono fun _ _ h => h.1
  obtain ⟨⟨P, hI⟩, hf⟩ := exists_inv_of_reach hr fun h _ =>
    UntimedReach.signalInTime (h.mono fun _ _ h => h.1) _
  refine ⟨?_, ?_, ?_, hU.unbroken⟩
  · intro c t u ht hu
    have hH := holdersOwn_of_reach hr
    have := (hH t c ht).symm.trans (hH u c hu)
    exact Option.some.inj this
  · intro i t c s' hc hs
    refine ⟨fun hp => hI.lock_returns hc hp hs, fun timeout hp => ?_⟩
    have ht := hU.untimed t
    rw [hp] at ht
    exact hI.wait_returns hc hp (by simpa [Pc.untimed] using ht) hs
  · intro f h
    obtain ⟨s₀, l, ⟨-, hd⟩, hc⟩ := hf f h
    exact Fault.not_inCond hd hc

/-- The owner signals after the other lthread has queued up and before it has
switched out. -/
theorem cond_mutual_exclusion_handover : ∃ s : State 1,
    Runs.Reach step (fun s l => l.untimed = true ∧ s.disciplined l = true)
      (State.init 1 5 fun _ => false) s ∧ s.holds 1 0 = true ∧ ∀ u, s.holds u 0 = true → 1 = u := by
  obtain ⟨s, hr, hs⟩ : ∃ s : State 1,
      Runs.Reach step (fun s l => l.untimed = true ∧ s.disciplined l = true)
        (State.init 1 5 fun _ => false) s ∧ s.holds 1 0 = true :=
    Runs.exists_reach_of_run (Label.scheds 0 6 ++ [.call 0 .spawn, .call 0 (.condLock 0), .cont 0] ++
      Label.scheds 1 7 ++ [.call 1 (.condLock 0), .call 0 (.condUnlockSignal 0), .cont 0, .cont 1] ++
      Label.scheds 1 7 ++ [.cont 1, .cont 1]) (by decide +kernel)
  exact ⟨s, hr, hs, fun u hu => (cond_mutual_exclusion hr).1 0 1 u hs hu⟩

end Lthread
