import Lthread.Links

namespace Lthread

open Function (update update_apply)

variable {m : ℕ} {s s' : State m} {i : Fin (m + 1)} {t c : ℕ} {l : Label m}

def Pc.onCond (c : ℕ) : Pc → Bool
  | .condSleep d _ _ | .condWake d _ _ => decide (d = c)
  | _ => false

structure State.Queues (s : State m) : Prop where
  mem_iff : ∀ c t, t ∈ s.blockedLthreads c ↔ s.isBlocked t = true ∧ (s.pc t).onCond c = true
  nodup : ∀ c, (s.blockedLthreads c).Nodup

theorem State.Queues.keep (hQ : s.Queues) (hb : s'.blockedLthreads = s.blockedLthreads)
    (hi : s'.isBlocked = s.isBlocked)
    (hpc : ∀ c t, s.isBlocked t = true → (s'.pc t).onCond c = (s.pc t).onCond c) : s'.Queues := by
  constructor
  · intro c t
    rw [hb, hi, hQ.mem_iff]
    exact and_congr_right fun ht => by rw [hpc c t ht]
  · rw [hb]
    exact hQ.nodup

theorem State.Queues.move {p : Pc} (hQ : s.Queues) (hb : s'.blockedLthreads = s.blockedLthreads)
    (hi : s'.isBlocked = s.isBlocked) (hpc : s'.pc = update s.pc t p)
    (hp : ∀ c, p.onCond c = (s.pc t).onCond c) : s'.Queues := by
  refine hQ.keep hb hi fun c u _ => ?_
  rw [hpc]
  by_cases hu : u = t
  · subst hu
    rw [Function.update_self, hp]
  · rw [Function.update_of_ne hu]

theorem State.Queues.block {timeout : BitVec 64} {call : CondCall} (hQ : s.Queues)
    (h : condBlock s c t timeout call = .ok s') : s'.Queues := by
  obtain ⟨hi, hs⟩ := condBlock_ok h
  have hb : s'.blockedLthreads = update s.blockedLthreads c (s.blockedLthreads c ++ [t]) := by rw [hs]
  have hi' : s'.isBlocked = update s.isBlocked t true := by rw [hs]
  have hpc : s'.pc = update s.pc t (.condSleep c timeout call) := by rw [hs]
  have hout : ∀ d, t ∉ s.blockedLthreads d := by
    intro d hd
    rw [hQ.mem_iff, hi] at hd
    cases hd.1
  constructor
  · intro d u
    rw [hb, hi', hpc]
    by_cases hu : u = t
    · subst hu
      by_cases hd : d = c
      · subst hd
        simp [Pc.onCond]
      · have hcd : c ≠ d := Ne.symm hd
        simp [hd, hcd, hout d, Pc.onCond]
    · rw [Function.update_of_ne hu, Function.update_of_ne hu, ← hQ.mem_iff]
      by_cases hd : d = c
      · subst hd
        simp [hu]
      · rw [Function.update_of_ne hd]
  · intro d
    rw [hb]
    by_cases hd : d = c
    · subst hd
      rw [Function.update_self]
      refine List.nodup_append.mpr ⟨hQ.nodup d, List.nodup_singleton t, ?_⟩
      intro u hu v hv he
      exact hout d (List.mem_singleton.mp hv ▸ he ▸ hu)
    · rw [Function.update_of_ne hd]
      exact hQ.nodup d

theorem State.Queues.unblock {v : ℕ} {p : Pc} (hQ : s.Queues) (ht : t ∈ s.blockedLthreads c)
    (hb : s'.blockedLthreads = update s.blockedLthreads c ((s.blockedLthreads c).erase t))
    (hi : s'.isBlocked = update s.isBlocked t false)
    (hpc : s'.pc = update s.pc v p) (hp : v ≠ t → ∀ d, p.onCond d = (s.pc v).onCond d) :
    s'.Queues := by
  have hout : ∀ d, d ≠ c → t ∉ s.blockedLthreads d := by
    intro d hd htd
    have h₁ := ((hQ.mem_iff c t).mp ht).2
    have h₂ := ((hQ.mem_iff d t).mp htd).2
    cases hp : s.pc t <;> rw [hp] at h₁ h₂ <;> simp [Pc.onCond] at h₁ h₂
    · exact hd (h₂.symm.trans h₁)
    · exact hd (h₂.symm.trans h₁)
  have hmove : ∀ d u, u ≠ t → (s'.pc u).onCond d = (s.pc u).onCond d := by
    intro d u hu
    rw [hpc]
    by_cases hv : u = v
    · subst hv
      rw [Function.update_self, hp hu]
    · rw [Function.update_of_ne hv]
  constructor
  · intro d u
    rw [hb, hi]
    by_cases hu : u = t
    · subst hu
      by_cases hd : d = c
      · subst hd
        simp [(hQ.nodup d).mem_erase_iff]
      · simp [hd, hout d hd]
    · have hmem : u ∈ update s.blockedLthreads c ((s.blockedLthreads c).erase t) d ↔
          u ∈ s.blockedLthreads d := by
        by_cases hd : d = c
        · subst hd
          rw [Function.update_self, List.mem_erase_of_ne hu]
        · rw [Function.update_of_ne hd]
      rw [hmem, Function.update_of_ne hu, hQ.mem_iff, hmove d u hu]
  · intro d
    rw [hb]
    by_cases hd : d = c
    · subst hd
      rw [Function.update_self]
      exact (hQ.nodup d).erase t
    · rw [Function.update_of_ne hd]
      exact hQ.nodup d

theorem State.Queues.condSignalled {next : AfterSignal} (hQ : s.Queues)
    (hp : ∀ d, (s.pc t).onCond d = false) (h : condSignalled s c t next = .ok s') : s'.Queues := by
  have hmoved : ({ s with
      condMutex := update s.condMutex c none, pc := update s.pc t .user } : State m).Queues :=
    hQ.move rfl rfl rfl fun d => (hp d).symm
  obtain ⟨-, rfl⟩ | ⟨timeout, -, h₁⟩ := condSignalled_ok h
  · exact hmoved
  · exact hmoved.block h₁

theorem State.Queues.condSignal {next : AfterSignal} (hQ : s.Queues) (hp : s.pc t = .user)
    (h : condSignal s c t next = .ok s') : s'.Queues := by
  have hout : ∀ d, (s.pc t).onCond d = false := by simp [hp, Pc.onCond]
  obtain ⟨-, ⟨-, h₁⟩ | ⟨u, rest, hb, -, rfl⟩⟩ := condSignal_ok h
  · refine State.Queues.condSignalled ?_ ?_ h₁
    · exact hQ.keep rfl rfl fun _ _ _ => rfl
    · exact hout
  · refine hQ.unblock (t := u) (c := c) (by simp [hb]) ?_ rfl rfl fun _ d => (hout d).symm
    rw [hb, List.erase_cons_head]

theorem State.Queues.blocked_of_condWake {timeout : BitVec 64} {call : CondCall} (hQ : s.Queues)
    (hp : s.pc t = .condWake c timeout call) (ho : s.owner c ≠ some t)
    (h : condWaitReturn s c t call = .ok s') : t ∈ s.blockedLthreads c := by
  have hi : s.isBlocked t = true := by
    cases hi : s.isBlocked t with
    | false => simp [Lthread.condWaitReturn, ho, hi] at h
    | true => rfl
  exact (hQ.mem_iff c t).mpr ⟨hi, by simp [hp, Pc.onCond]⟩

theorem State.Queues.condWaitReturn {timeout : BitVec 64} {call : CondCall} (hQ : s.Queues)
    (hp : s.pc t = .condWake c timeout call) (h : condWaitReturn s c t call = .ok s') :
    s'.Queues := by
  by_cases ho : s.owner c = some t
  · have hi : s.isBlocked t = false := by
      cases hi : s.isBlocked t with
      | false => rfl
      | true => simp [Lthread.condWaitReturn, ho, hi] at h
    have hpc : ∀ p : Pc, ∀ d u, s.isBlocked u = true →
        (update s.pc t p u).onCond d = (s.pc u).onCond d := by
      intro p d u hu
      have hut : u ≠ t := by
        rintro rfl
        rw [hi] at hu
        cases hu
      rw [Function.update_of_ne hut]
    obtain ⟨hn, -⟩ | ⟨-, -, rfl⟩ | ⟨-, -, rfl⟩ := condWaitReturn_ok h
    · exact absurd ho hn
    · exact hQ.keep rfl rfl (hpc _)
    · exact hQ.keep rfl rfl (hpc _)
  · have ht := hQ.blocked_of_condWake hp ho h
    obtain ⟨-, -, rfl⟩ | ⟨hn, -⟩ | ⟨hn, -⟩ := condWaitReturn_ok h
    · exact hQ.unblock ht rfl rfl rfl fun hn => absurd rfl hn
    · exact absurd hn ho
    · exact absurd hn ho

theorem State.Queues.callStep {op : Op} (hQ : s.Queues) (hL : s.Located)
    (h : StepCase s (.call i op) s') : s'.Queues := by
  cases h with
  | spawn hc hp h =>
    have hpc : s'.pc = update s.pc s.numLthreads .user ∧ s'.blockedLthreads = s.blockedLthreads ∧
        s'.isBlocked = s.isBlocked := by
      obtain ⟨-, rfl⟩ | ⟨-, rfl⟩ := schedPushReadyUnsafe_ok h <;> exact ⟨rfl, rfl, rfl⟩
    refine hQ.keep hpc.2.1 hpc.2.2 fun c u hu => ?_
    rw [hpc.1]
    by_cases hn : u = s.numLthreads
    · subst hn
      rw [Function.update_self]
      by_contra hne
      have hmem := (hQ.mem_iff c s.numLthreads).mpr ⟨hu, by simpa [Pc.onCond] using hne⟩
      exact Nat.lt_irrefl _ (hL.born _ (.blocked c hmem))
    · rw [Function.update_of_ne hn]
  | yield hc hp h =>
    obtain ⟨-, rfl⟩ := ltYield_ok h
    exact ⟨hQ.mem_iff, hQ.nodup⟩
  | exit hc hp h =>
    obtain ⟨-, rfl⟩ := ltYield_ok h
    exact hQ.move rfl rfl rfl (by simp [hp, Pc.onCond])
  | sleep hc hp h h₁ =>
    obtain ⟨-, rfl⟩ := ltYield_ok h₁
    obtain ⟨-, rfl⟩ | ⟨-, -, _, _, -, rfl⟩ := schedSleep_ok h <;>
      exact hQ.move rfl rfl rfl (by simp [hp, Pc.onCond])
  | waitFd hc hp h =>
    obtain ⟨-, -, _, -, rfl⟩ := pollerAddWaitingLthread_ok h
    exact hQ.move rfl rfl rfl (by simp [hp, Pc.onCond])
  | condLock hc hp hm h =>
    obtain ⟨-, rfl⟩ | ⟨-, -, h₁⟩ := condLock_ok h
    · exact hQ.move rfl rfl rfl (by simp [hp, Pc.onCond])
    · exact hQ.block h₁
  | condSignal hc hp hm h => exact hQ.condSignal hp h
  | socket | close => exact ⟨hQ.mem_iff, hQ.nodup⟩
  | ret hc hp => exact hQ.move rfl rfl rfl (by simp [hp, Pc.onCond])

theorem State.Queues.contStep (hQ : s.Queues) (h : StepCase s (.cont i) s') : s'.Queues := by
  cases h with
  | register hc hp h h₁ =>
    have hs := pollerRegisterEvent_ok h
    subst hs
    obtain ⟨-, rfl⟩ := ltYield_ok h₁
    exact hQ.move rfl rfl rfl (by simp [hp, Pc.onCond])
  | waitFdReturn hc hp | sleepReturn hc hp =>
    exact hQ.move rfl rfl rfl (by simp [hp, Pc.onCond])
  | condLockReturn hc hp h =>
    obtain ⟨-, rfl⟩ := condLockReturn_ok h
    exact hQ.move rfl rfl rfl (by simp [hp, Pc.onCond])
  | condSleep hc hp h h₁ =>
    obtain ⟨-, rfl⟩ := ltYield_ok h₁
    obtain ⟨-, rfl⟩ | ⟨-, -, _, _, -, rfl⟩ := schedSleep_ok h <;>
      exact hQ.move rfl rfl rfl (by simp [hp, Pc.onCond])
  | condWaitReturn hc hp hm h => exact hQ.condWaitReturn hp h
  | condSignalled hc hp hf h h₁ =>
    obtain ⟨_, _, _, _, _, _, rfl⟩ := wakeup_frame h
    refine State.Queues.condSignalled ?_ (by simp [hp, Pc.onCond]) h₁
    exact ⟨hQ.mem_iff, hQ.nodup⟩

theorem State.Queues.step (hQ : s.Queues) (hL : s.Located) (h : StepCase s l s') : s'.Queues := by
  cases l with
  | sched i b =>
    obtain ⟨_, _, _, _, _, _, _, _, _, _, _, _, _, rfl⟩ := h.sched_frame (.inr ⟨b, rfl⟩)
    exact ⟨hQ.mem_iff, hQ.nodup⟩
  | unpark i =>
    obtain ⟨_, _, _, _, _, _, _, _, _, _, _, _, _, rfl⟩ := h.sched_frame (.inl rfl)
    exact ⟨hQ.mem_iff, hQ.nodup⟩
  | poller =>
    obtain ⟨_, _, _, _, _, _, _, _, _, _, _, _, rfl⟩ := h.poller_frame
    exact ⟨hQ.mem_iff, hQ.nodup⟩
  | tick | kevent | fire | inject =>
    cases h
    exact ⟨hQ.mem_iff, hQ.nodup⟩
  | call i op => exact hQ.callStep hL h
  | cont i => exact hQ.contStep h

theorem queues_of_reach {ok : State m → Label m → Prop} {clock : ℕ} {isOpen : ℕ → Bool}
    (hr : Runs.Reach step ok (State.init m clock isOpen) s) : s.Queues := by
  apply invariant_of_reach (I := State.Queues) hr
  · rw [init_eq]
    exact ⟨by simp [State.empty], fun _ => List.nodup_nil⟩
  · rintro s s' l hr hQ - hc
    exact hQ.step (located_of_reach hr) hc
  · exact fun hQ => ⟨hQ.mem_iff, hQ.nodup⟩

end Lthread
