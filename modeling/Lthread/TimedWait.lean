import Lthread.UniquePlacement

namespace Lthread

variable {m : ℕ} {s s' : State m} {P : Places m} {i : Fin (m + 1)} {t c : ℕ} {clock : ℕ}
  {isOpen : ℕ → Bool}

/-- A wait has returned 0 to the owner of `c` or -2 to another lthread, and nothing
is left that could wake the caller again. -/
def State.resolved (s : State m) (t c : ℕ) : Prop :=
  s.pc t = .user ∧ (s.ret t = 0 ∧ s.owner c = some t ∨ s.ret t = -2 ∧ s.owner c ≠ some t) ∧
    (∀ k, t ∉ s.sleeping k) ∧ (∀ k, t ∉ s.ready k) ∧ t ∉ s.blockedLthreads c ∧
    s.needsResched t = false

/-- The race is decided once: a waiter is never in a ready queue twice or in a ready
queue and a sleeping tree, and every wait that returns is resolved. -/
structure State.WaitsResolve (s : State m) : Prop where
  once : ∀ t i j, t ∈ s.ready i → t ∈ s.ready j → i = j ∧ (s.ready i).count t = 1
  apart : ∀ t i j, t ∈ s.ready i → t ∉ s.sleeping j
  linked : s.Unbroken
  returns : ∀ i t c timeout s', ltCurrent s i = some t → s.pc t = .condWake c timeout .wait →
    step s (.cont i) = some s' → s'.resolved t c

theorem Inv.apart (hI : Inv s P) {j : Fin (m + 1)} (hr : t ∈ s.ready i) : t ∉ s.sleeping j := by
  intro ht
  have hrow := (hI.fits t).row
  have hrun := hI.toAgree.mem_ready.mp hr
  have htree := hI.toAgree.mem_sleeping.mp ht
  rw [show (view s P t).run = .ready i from hrun, show (view s P t).tree = some j from htree] at hrow
  cases hp : s.pc t <;> simp_all [view, Row, Run.kind, ReadyRow, WokenRow, Wakers.idle, Wakers.onCond]

theorem Inv.resolved {timeout : BitVec 64} (hI : Inv s P) (hc : ltCurrent s i = some t)
    (hp : s.pc t = .condWake c timeout .wait) (h : Lthread.step s (.cont i) = some s') :
    s'.resolved t c := by
  have hrun := (hI.toAgree.running hc).2
  have hready : ∀ k, t ∉ s.ready k := by
    intro k hk
    rw [hI.toAgree.mem_ready.mp hk] at hrun
    cases hrun
  have hrow := (hI.fits t).row
  simp only [view, hrun, hp, Run.kind, Row, RunningRow, WokenRow, Pc.owns, Wakers.onCond,
    Wakers.idle, Wakers.mk.injEq, decide_eq_true_eq, decide_eq_false_iff_not] at hrow
  simp only [Lthread.step, exec, hc, contStep, hp] at h
  split at h
  · cases h
  · by_cases hm : s.condMutex c = none
    · simp only [hm, ↓reduceIte] at h
      cases hr : Lthread.condWaitReturn s c t .wait with
      | error f => exact absurd hr (hI.condWaitReturn_ok hc hp)
      | ok s₁ =>
        rw [hr] at h
        cases h
        have hsleep : ∀ k, t ∉ s.sleeping k := by
          intro k hk
          have := hI.toAgree.mem_sleeping.mp hk
          simp [this] at hrow
        obtain ⟨ho, -, rfl⟩ | ⟨-, hl, -⟩ | ⟨ho, -, rfl⟩ := Lthread.condWaitReturn_ok hr
        · refine ⟨by simp, .inr ⟨by simp, ho⟩, hsleep, hready, ?_, by grind⟩
          have hcount := hI.blocked c t
          simp only [Function.update_self]
          rw [← List.count_eq_zero, List.count_erase_self, hcount]
          split <;> rfl
        · cases hl
        · refine ⟨by simp, .inl ⟨by simp, ho⟩, hsleep, hready, ?_, by grind⟩
          intro hb
          have hcond := hI.toAgree.mem_blocked.mp hb
          simp [hcond, ho] at hrow
    · simp [hm] at h

/-- When every signal finds its timed waiter still marked as sleeping, timeout and
signal are resolved exactly once. -/
theorem timed_wait_resolves (hr : Runs.Reach step (fun s l => s.signalInTime l = true)
    (State.init m clock isOpen) s) : s.WaitsResolve := by
  obtain ⟨P, hI⟩ := InTimeReach.exists_inv hr
  refine {
    once := ?_, apart := fun t i j => hI.apart, linked := InTimeReach.unbroken hr, returns := ?_ }
  · intro t i j hi hj
    have h₁ := hI.toAgree.mem_ready.mp hi
    have h₂ := hI.toAgree.mem_ready.mp hj
    rw [h₁] at h₂
    cases h₂
    exact ⟨rfl, by rw [hI.ready i t, if_pos h₁]⟩
  · intro i t c timeout s' hc hp hs
    exact hI.resolved hc hp hs

/-- The signal arrives when the waiter is in the tree and has yet to be let go of. -/
theorem timed_wait_resolves_signalled : ∃ s : State 1,
    Runs.Reach step (fun s l => s.signalInTime l = true) (State.init 1 5 fun _ => false) s ∧
    (ltCurrent s 0 = some 0 ∧ s.pc 0 = .condWake 0 1000 .wait ∧ s.owner 0 = some 0) ∧
    s.WaitsResolve := by
  obtain ⟨s, hr, hs⟩ : ∃ s : State 1,
      Runs.Reach step (fun s l => s.signalInTime l = true) (State.init 1 5 fun _ => false) s ∧
      ltCurrent s 0 = some 0 ∧ s.pc 0 = .condWake 0 1000 .wait ∧ s.owner 0 = some 0 :=
    Runs.exists_reach_of_run (Label.scheds 0 6 ++ [.call 0 .spawn, .call 0 (.condLock 0), .cont 0] ++
      Label.scheds 1 7 ++ [.call 0 (.condWait 0 1000), .call 1 (.condLock 0), .cont 1, .cont 0,
        .call 1 (.condUnlockSignal 0), .cont 1] ++ Label.scheds 0 7) (by decide +kernel)
  exact ⟨s, hr, hs, timed_wait_resolves hr⟩

def lateSignal : List (Label 1) :=
  Label.scheds 0 6 ++ [.call 0 .spawn, .call 0 (.condLock 0), .cont 0] ++ Label.scheds 1 7 ++
    [.call 0 (.condWait 0 1000), .call 1 (.condLock 0), .cont 1, .cont 0] ++ Label.scheds 0 1 ++
    [.call 1 (.condUnlockSignal 0), .cont 1]

/-- A signal to a timed waiter that has switched out, when `_lthread_resume` has
already reset `sleep_usecs`, puts it in the ready queue and leaves it in the tree. -/
theorem timed_wait_late_signal : ¬ ∀ s : State 1,
    Runs.Reach step (fun _ _ => True) (State.init 1 5 fun _ => false) s → s.WaitsResolve := by
  intro h
  obtain ⟨s, hr, hready, hsleep⟩ : ∃ s : State 1,
      Runs.Reach step (fun _ _ => True) (State.init 1 5 fun _ => false) s ∧
      0 ∈ s.ready 0 ∧ 0 ∈ s.sleeping 0 :=
    Runs.exists_reach_of_run lateSignal (by decide +kernel)
  exact (h s hr).apart 0 0 0 hready hsleep

end Lthread
