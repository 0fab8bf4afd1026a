import Lthread.Parking

namespace Lthread

open Function (update update_apply)

variable {m : ℕ} {s s' s₁ : State m} {i j k : Fin (m + 1)} {t : ℕ}
  {l : Label m}

inductive SchedMove (s : State m) (l : Label m) (s' : State m) (j : Fin (m + 1)) : Prop where
  | keep (hp : s'.schedPc j = s.schedPc j) (ha : s'.asleep j = s.asleep j)
  | wake (hm : s.mutexFree j) (hp : s'.schedPc j = (s.schedPc j).signal) (ha : s'.asleep j = false)
  | loop (hp : (s.schedPc j).active = true ∨ s.schedPc j = .block)
      (hp' : (s'.schedPc j).active = true ∨ s'.schedPc j = .block ∨
        ∃ timeout, s'.schedPc j = .parked false timeout false)
      (ha : s'.asleep j = s.asleep j)
  | deep (hp : s.schedPc j = .block) (hr : s.ready j = []) (hsl : s.sleeping j = [])
      (hn : s.numPendingEvents = 0) (hs : s' = { s with
        blockState := update s.blockState j .isBlocking
        schedPc := update s.schedPc j .beginDeepSleep })
  | exit (hp : s.schedPc j = .beginDeepSleep) (hall : ∀ k, update s.asleep j true k = true)
      (hp' : s'.schedPc j = .exiting) (ha : s'.asleep = update s.asleep j true)
  | sleep (hl : ∃ b, l = .sched j b) (hp : s.schedPc j = .beginDeepSleep)
      (hex : ∃ k, update s.asleep j true k = false)
      (hp' : s'.schedPc j = .parked true 0 false) (ha : s'.asleep = update s.asleep j true)
  | unpark (hp : ∃ deep timeout signalled, s.schedPc j = .parked deep timeout signalled)
      (hp' : s'.schedPc j = .expire) (ha : s'.asleep j = true → s.asleep j = true)
  | finish (hp : s.schedPc j = .exiting) (hp' : s'.schedPc j = .finished)
      (ha : s'.asleep j = s.asleep j)
      (hn : ∀ timeout, s'.schedPc (schedNeighbor j) ≠ .parked true timeout false)

theorem SchedMove.of_wake (hk : s.mutexFree k) (hp : s₁.schedPc = s.schedPc)
    (hb : s₁.blockState = s.blockState) (ha : s₁.asleep = s.asleep)
    (hp' : s'.schedPc = (schedWakeUnsafe s₁ k).schedPc)
    (ha' : s'.asleep = (schedWakeUnsafe s₁ k).asleep) : SchedMove s l s' j := by
  cases hbk : s.blockState k with
  | willBlock | wontBlock =>
    exact .keep (by rw [hp']; simp [schedWakeUnsafe, hb, hbk, hp])
      (by rw [ha']; simp [schedWakeUnsafe, hb, hbk, ha])
  | isBlocking =>
    by_cases hj : j = k
    · subst hj
      exact .wake hk (by rw [hp']; simp [schedWakeUnsafe, hb, hbk, hp])
        (by rw [ha']; simp [schedWakeUnsafe, hb, hbk, poolEndDeepSleep])
    · exact .keep (by rw [hp']; simp [schedWakeUnsafe, hb, hbk, hp, hj])
        (by rw [ha']; simp [schedWakeUnsafe, hb, hbk, ha, poolEndDeepSleep, hj])

theorem SchedMove.of_update {p : SchedPc m} (hp : s'.schedPc = update s.schedPc i p)
    (ha : ∀ k, k ≠ i → s'.asleep k = s.asleep k) (hi : s'.schedPc i = p → SchedMove s l s' i) :
    SchedMove s l s' j := by
  by_cases hj : j = i
  · subst hj
    exact hi (by rw [hp, Function.update_self])
  · exact .keep (by rw [hp, Function.update_of_ne hj]) (ha j hj)

theorem SchedMove.of_loop {p : SchedPc m} (ho : (s.schedPc i).active = true ∨ s.schedPc i = .block)
    (hn : p.active = true ∨ p = .block ∨ ∃ timeout, p = .parked false timeout false)
    (hp : s'.schedPc = update s.schedPc i p) (ha : s'.asleep = s.asleep) : SchedMove s l s' j :=
  .of_update hp (fun k _ => by rw [ha]) (fun h => .loop ho (by rw [h]; exact hn) (by rw [ha]))

theorem SchedMove.of_frame (hp : s'.schedPc = s.schedPc) (ha : s'.asleep = s.asleep) :
    SchedMove s l s' j :=
  .keep (by rw [hp]) (by rw [ha])

theorem SchedPc.signal_ne (p : SchedPc m) (deep : Bool) (timeout : BitVec 64) :
    p.signal ≠ .parked deep timeout false := by
  cases p <;> simp [SchedPc.signal]

theorem State.Parks.woken_ne (hP : s.Parks) (k : Fin (m + 1)) (timeout : BitVec 64) :
    (schedWakeUnsafe s k).schedPc k ≠ .parked true timeout false := by
  cases hb : s.blockState k with
  | isBlocking => simpa [schedWakeUnsafe, hb] using (s.schedPc k).signal_ne true timeout
  | willBlock | wontBlock =>
    intro h
    have hk := hP k
    unfold State.schedOk at hk
    rw [show s.schedPc k = .parked true timeout false by simpa [schedWakeUnsafe, hb] using h] at hk
    simp [hk.1] at hb

theorem SchedMove.of_wakeNeighbor {next : SchedPc m} (hP : s.Parks)
    (hw : wakeNeighbor s i next = some s')
    (hi : s'.schedPc i = next → s'.asleep i = s.asleep i →
      (∀ timeout, next ≠ .parked true timeout false →
        s'.schedPc (schedNeighbor i) ≠ .parked true timeout false) → SchedMove s l s' i) :
    SchedMove s l s' j := by
  obtain ⟨hself, rfl⟩ | ⟨hne, hf, rfl⟩ := wakeNeighbor_some hw
  · refine .of_update rfl (fun _ _ => rfl) (fun h => hi h rfl ?_)
    intro timeout hn
    simpa [hself] using hn
  · by_cases hj : j = i
    · subst hj
      apply hi (by simp)
      · cases hb : s.blockState (schedNeighbor j) <;>
          simp [schedWakeUnsafe, hb, poolEndDeepSleep, hne.symm]
      · intro timeout _
        simpa [hne] using hP.woken_ne (schedNeighbor j) timeout
    · cases hb : s.blockState (schedNeighbor i) with
      | willBlock | wontBlock =>
        exact .keep (by simp [schedWakeUnsafe, hb, hj]) (by simp [schedWakeUnsafe, hb])
      | isBlocking =>
        by_cases hjn : j = schedNeighbor i
        · subst hjn
          exact .wake hf (by simp [schedWakeUnsafe, hb, hj])
            (by simp [schedWakeUnsafe, hb, poolEndDeepSleep])
        · exact .keep (by simp [schedWakeUnsafe, hb, hj, hjn])
            (by simp [schedWakeUnsafe, hb, poolEndDeepSleep, hjn])

theorem StepCase.schedMove_sched {b : Bool} (h : StepCase s (.sched i b) s') (hP : s.Parks)
    (hS : s.Sleepers) (j : Fin (m + 1)) : SchedMove s (.sched i b) s' j := by
  cases h with
  | clockRead hp => exact .of_loop (.inl (by rw [hp]; rfl)) (.inl rfl) rfl rfl
  | expired hp h₁ =>
    obtain ⟨-, hp', ha⟩ := hP.expireLoop hS hp h₁
    refine .of_loop (p := .popOwn) (.inl (by rw [hp]; rfl)) (.inl rfl) ?_ ha
    simp [hp']
  | @probeFail _ _ p hp hq =>
    refine SchedMove.of_loop (.inl ?_) (.inl ?_) rfl rfl
    · obtain hp | ⟨v, hp⟩ := hp <;> rw [hp] <;> rfl
    · obtain rfl | ⟨v, rfl⟩ := hq <;> rfl
  | popEmpty hp hr => exact .of_loop (.inl (by rw [hp]; rfl)) (.inr (.inl rfl)) rfl rfl
  | @pop _ _ v t rest p hp hr hq =>
    refine SchedMove.of_loop (.inl ?_) (.inl ?_) rfl rfl
    · cases hs : s.schedPc i <;> simp_all [SchedPc.probe, SchedPc.active]
    · obtain rfl | rfl := hq <;> rfl
  | wakeNeighbor hp h₁ =>
    refine SchedMove.of_wakeNeighbor hP h₁ (fun h ha _ => ?_)
    exact .loop (.inl (by rw [hp]; rfl)) (.inl (by rw [h]; rfl)) ha
  | setSched hp => exact .of_loop (.inl (by rw [hp]; rfl)) (.inl rfl) rfl rfl
  | resume hp h₁ =>
    obtain ⟨-, -, rfl⟩ := resumeEnter_ok h₁
    exact .of_loop (.inl (by rw [hp]; rfl)) (.inl rfl) rfl rfl
  | leave hp h₁ =>
    have hs := resumeLeave_ok h₁
    subst hs
    exact .of_loop (.inl (by rw [hp]; rfl)) (.inl rfl) rfl rfl
  | block hp h₁ =>
    obtain ⟨-, rfl⟩ | ⟨-, hsl, hr, hn, rfl⟩ | ⟨-, timeout, rfl⟩ := schedBlock_ok h₁
    · exact .of_loop (.inr hp) (.inl rfl) rfl rfl
    · exact .of_update rfl (fun _ _ => rfl) (fun _ => .deep hp hr hsl hn rfl)
    · exact .of_loop (.inr hp) (.inr (.inr ⟨timeout, rfl⟩)) rfl rfl
  | deepSleep hp =>
    obtain ⟨hall, hs⟩ | ⟨hex, hs⟩ := schedDeepSleep_cases s i <;> rw [hs]
    · exact .of_update rfl (fun k hk => by simp [hk]) (fun h => .exit hp hall h rfl)
    · exact .of_update rfl (fun k hk => by simp [hk]) (fun h => .sleep ⟨b, rfl⟩ hp hex h rfl)
  | finish hp h₁ =>
    refine SchedMove.of_wakeNeighbor hP h₁ (fun h ha hn => ?_)
    exact .finish hp h ha fun timeout => hn timeout (by simp)

theorem SchedMove.of_effect (he : SchedEffect s s') (j : Fin (m + 1)) : SchedMove s l s' j := by
  cases he with
  | keep h hsl => exact .of_frame h.schedPc h.asleep
  | leave hc h hsl =>
    obtain ⟨⟨r, hr⟩, -⟩ := ltCurrent_eq_some hc
    exact .of_loop (.inl (by rw [hr]; rfl)) (.inl rfl) h.schedPc h.asleep
  | sleep hc hs hy =>
    obtain ⟨⟨r, hr⟩, -⟩ := ltCurrent_eq_some hc
    obtain ⟨-, rfl⟩ := ltYield_ok hy
    obtain ⟨-, rfl⟩ | ⟨-, -, _, _, -, rfl⟩ := schedSleep_ok hs <;>
      exact .of_loop (.inl (by rw [hr]; rfl)) (.inl rfl) rfl rfl
  | wake hk hpush hsched h₁ hsl h₂ hsl₂ =>
    obtain ⟨-, rfl⟩ | ⟨-, rfl⟩ := schedPushReadyUnsafe_ok hpush <;>
      exact .of_wake hk h₁.schedPc h₁.blockState h₁.asleep h₂.schedPc h₂.asleep

theorem StepCase.schedMove (h : StepCase s l s') (hP : s.Parks) (hS : s.Sleepers)
    (j : Fin (m + 1)) : SchedMove s l s' j := by
  cases l with
  | sched i b => exact h.schedMove_sched hP hS j
  | unpark i =>
    cases h with
    | @unpark _ deep timeout signalled hp =>
      cases deep with
      | true =>
        refine SchedMove.of_update rfl (fun k hk => ?_) (fun h => ?_)
        · simp [schedUnpark, poolEndDeepSleep, hk]
        · exact .unpark ⟨_, _, _, hp⟩ h (by simp [schedUnpark, poolEndDeepSleep])
      | false => exact .of_update rfl (fun k hk => rfl) (fun h => .unpark ⟨_, _, _, hp⟩ h id)
  | _ => exact .of_effect (h.schedEffect (by simp) (by simp)) j

end Lthread
