import Lthread.Placement

namespace Lthread

open Function (update update_apply)

variable {m : ℕ} {s s' : State m} {i : Fin (m + 1)} {t : ℕ}

structure State.Sleepers (s : State m) : Prop where
  current : ∀ i, s.currentLthread i = (s.schedPc i).current
  marked : ∀ i t, t ∈ s.sleeping i → s.sleepUsecs t ≠ 0 → s.currentLthread i = some t
  once : ∀ i j t, t ∈ s.sleeping i → t ∈ s.sleeping j → i = j

theorem State.Sleepers.mono (h : s.Sleepers)
    (hp : ∀ k, (s'.schedPc k).current = (s.schedPc k).current)
    (hc : s'.currentLthread = s.currentLthread) (hu : s'.sleepUsecs = s.sleepUsecs)
    (hm : ∀ k u, u ∈ s'.sleeping k → u ∈ s.sleeping k) : s'.Sleepers where
  current k := by rw [hc, hp]; exact h.current k
  marked k u hk hz := by
    rw [hu] at hz
    rw [hc]
    exact h.marked k u (hm k u hk) hz
  once j k u hj hk := h.once j k u (hm j u hj) (hm k u hk)

theorem State.Sleepers.push (h : s.Sleepers) (hp : schedPushReadyUnsafe s i t = .ok s') :
    s'.Sleepers ∧ s'.sleeping = s.sleeping ∧ s'.sleepUsecs = s.sleepUsecs := by
  obtain ⟨-, rfl⟩ | ⟨-, rfl⟩ := schedPushReadyUnsafe_ok hp
  all_goals
    refine ⟨h.mono (fun k => ?_) rfl rfl (fun _ _ => id), rfl, rfl⟩
    exact (schedWakeUnsafe_holds _ _ _).2

theorem mem_of_mem_update_erase {f : Fin (m + 1) → List ℕ} {k : Fin (m + 1)} {u : ℕ}
    (h : u ∈ update f i ((f i).erase t) k) : u ∈ f k := by
  by_cases hki : k = i
  · subst hki
    rw [Function.update_self] at h
    exact List.mem_of_mem_erase h
  · rwa [Function.update_of_ne hki] at h

theorem State.Sleepers.unsleep (h : s.Sleepers) :
    ({ s with sleeping := update s.sleeping i ((s.sleeping i).erase t) } : State m).Sleepers :=
  h.mono (fun _ => rfl) rfl rfl fun _ _ hk => mem_of_mem_update_erase hk

theorem State.Sleepers.pass {p : SchedPc m} (h : s.Sleepers) (ho : (s.schedPc i).current = none)
    (hp : p.current = none) :
    ({ s with schedPc := update s.schedPc i p } : State m).Sleepers := by
  refine h.mono (fun k => ?_) rfl rfl (fun _ _ => id)
  by_cases hk : k = i
  · subst hk
    simp [ho, hp]
  · simp [hk]

theorem State.Sleepers.expireLoop {now : BitVec 64} {fuel : ℕ} (hS : s.Sleepers)
    (h : expireLoop i now fuel s = .ok s') :
    s'.Sleepers ∧ (∀ k u, u ∈ s'.sleeping k → u ∈ s.sleeping k) ∧
      s'.currentLthread = s.currentLthread ∧ s'.sleepUsecs = s.sleepUsecs ∧
      ((∀ u ∈ s.sleeping i, s.sleepUsecs u = 0) → (s.sleeping i).length ≤ fuel →
        s'.sleeping i = []) := by
  induction fuel generalizing s with
  | zero =>
    cases h
    exact ⟨hS, fun _ _ => id, rfl, rfl, fun _ hl => List.length_eq_zero_iff.mp (Nat.le_zero.mp hl)⟩
  | succ fuel ih =>
    simp only [Lthread.expireLoop] at h
    split at h
    · rename_i hl
      cases h
      exact ⟨hS, fun _ _ => id, rfl, rfl, fun _ _ => hl⟩
    · rename_i u rest hl
      have hu : u ∈ s.sleeping i := by simp [hl]
      split at h
      · obtain ⟨s₁, h₁, h₂⟩ := bind_ok h
        obtain ⟨hmem, h₃⟩ := deschedSleepUnsafe_ok h₁
        have hsi : s.sched u = i := hS.once _ _ u hmem hu
        rw [hsi] at h₃
        obtain ⟨hS₁, hsl, hus⟩ := (hS.unsleep (i := i) (t := u)).push h₃
        have hcur : s₁.currentLthread = s.currentLthread := by
          obtain ⟨-, rfl⟩ | ⟨-, rfl⟩ := schedPushReadyUnsafe_ok h₃ <;> rfl
        obtain ⟨hS', hm, hc, hz, he⟩ := ih hS₁ h₂
        have hsub : ∀ k v, v ∈ s₁.sleeping k → v ∈ s.sleeping k := by
          intro k v hv
          rw [hsl] at hv
          by_cases hk : k = i
          · subst hk
            exact List.mem_of_mem_erase (by simpa using hv)
          · simpa [hk] using hv
        refine ⟨hS', fun k v hv => hsub k v (hm k v hv), hc.trans hcur, hz.trans hus, ?_⟩
        intro h₀ hlen
        refine he (fun v hv => ?_) ?_
        · rw [hus]
          exact h₀ v (hsub i v hv)
        · rw [hsl]
          simp only [Function.update_self, List.length_erase_of_mem hu]
          omega
      · rename_i hgt
        cases h
        refine ⟨hS, fun _ _ => id, rfl, rfl, fun h₀ _ => ?_⟩
        rw [h₀ u hu] at hgt
        exact absurd (BitVec.le_def.mpr (Nat.zero_le _)) hgt

theorem State.Sleepers.wakeNeighbor {next : SchedPc m} (hS : s.Sleepers)
    (ho : (s.schedPc i).current = none) (hn : next.current = none)
    (h : wakeNeighbor s i next = some s') : s'.Sleepers := by
  obtain ⟨-, rfl⟩ | ⟨-, -, rfl⟩ := wakeNeighbor_some h
  · exact hS.pass ho hn
  · have hW : (schedWakeUnsafe s (schedNeighbor i)).Sleepers :=
      hS.mono (fun k => (schedWakeUnsafe_holds _ _ k).2) rfl rfl (fun _ _ => id)
    exact hW.pass (by rw [(schedWakeUnsafe_holds _ _ _).2]; exact ho) hn

theorem State.Sleepers.resumeEnter (hS : s.Sleepers) (hp : s.schedPc i = .resume t)
    (h : resumeEnter s i t = .ok s') : s'.Sleepers := by
  obtain ⟨-, -, rfl⟩ := resumeEnter_ok h
  have hn : s.currentLthread i = none := by rw [hS.current, hp]; rfl
  refine { current := ?_, marked := ?_, once := hS.once }
  · intro k
    have h₁ := hS.current k
    by_cases hk : k = i
    · subst hk
      simp [SchedPc.current]
    · simpa [hk] using h₁
  · intro k u hu hz
    have h₁ := hS.marked k u hu hz
    by_cases hk : k = i
    · subst hk
      rw [hn] at h₁
      cases h₁
    · simpa [hk] using h₁

theorem State.Sleepers.resumeLeave (hS : s.Sleepers) (hp : s.schedPc i = .leave t)
    (h : resumeLeave s i t = .ok s') : s'.Sleepers := by
  have hs := resumeLeave_ok h
  subst hs
  have hc : s.currentLthread i = some t := by rw [hS.current, hp]; rfl
  refine { current := ?_, marked := ?_, once := hS.once }
  · intro k
    have h₁ := hS.current k
    by_cases hk : k = i
    · subst hk
      simp [SchedPc.current]
    · simpa [hk] using h₁
  · intro k u hu hz
    dsimp only at hu hz ⊢
    have hut : u ≠ t := by
      rintro rfl
      simp at hz
    rw [Function.update_of_ne hut] at hz
    have h₁ := hS.marked k u hu hz
    have hk : k ≠ i := by
      rintro rfl
      rw [hc] at h₁
      exact hut (Option.some.inj h₁).symm
    rwa [Function.update_of_ne hk]

theorem State.Sleepers.sleepLeave {msecs : BitVec 64} {p : Pc} {s₁ : State m} (hS : s.Sleepers)
    (hc : ltCurrent s i = some t) (h : schedSleep s t msecs = .ok s₁)
    (h₁ : ltYield { s₁ with pc := update s₁.pc t p } i t = .ok s') : s'.Sleepers := by
  obtain ⟨⟨r, hr⟩, hcur⟩ := ltCurrent_eq_some hc
  obtain ⟨hsi, rfl⟩ := ltYield_ok h₁
  have hleave : ∀ k, (update s.schedPc i (.leave t) k).current = (s.schedPc k).current := by
    intro k
    by_cases hk : k = i
    · subst hk
      rw [Function.update_self, ← hS.current, hcur]
      rfl
    · rw [Function.update_of_ne hk]
  obtain ⟨-, rfl⟩ | ⟨-, hnot, key, tree, hperm, rfl⟩ := schedSleep_ok h
  · refine {
      current := fun k => (hS.current k).trans (hleave k).symm, marked := ?_, once := hS.once }
    intro k u hu hz
    by_cases hut : u = t
    · subst hut
      simp at hz
    · exact hS.marked k u hu (by simpa [hut] using hz)
  · have hsi' : s.sched t = i := hsi
    have hmem : ∀ k u, u ∈ update s.sleeping (s.sched t) tree k →
        (u = t ∧ k = i) ∨ (u ≠ t ∧ u ∈ s.sleeping k) := by
      intro k u hu
      rw [hsi'] at hu hperm
      by_cases hk : k = i
      · subst hk
        rw [Function.update_self, hperm.mem_iff, List.mem_cons] at hu
        obtain rfl | hu := hu
        · exact .inl ⟨rfl, rfl⟩
        · exact .inr ⟨fun e => hnot _ (e ▸ hu), hu⟩
      · rw [Function.update_of_ne hk] at hu
        exact .inr ⟨fun e => hnot _ (e ▸ hu), hu⟩
    refine { current := fun k => (hS.current k).trans (hleave k).symm, marked := ?_, once := ?_ }
    · intro k u hu hz
      obtain ⟨rfl, rfl⟩ | ⟨hut, hu⟩ := hmem k u hu
      · exact hcur
      · exact hS.marked k u hu (by simpa [hut] using hz)
    · intro j k u hj hk
      obtain ⟨rfl, rfl⟩ | ⟨hut, hj⟩ := hmem j u hj
      · obtain ⟨-, rfl⟩ | ⟨hut, -⟩ := hmem k u hk
        · rfl
        · exact absurd rfl hut
      · obtain ⟨rfl, -⟩ | ⟨-, hk⟩ := hmem k u hk
        · exact absurd rfl hut
        · exact hS.once j k u hj hk

theorem State.Sleepers.leave (hS : s.Sleepers) (hc : s.currentLthread i = some t)
    (hp : s'.schedPc = update s.schedPc i (.leave t))
    (hcur : s'.currentLthread = s.currentLthread) (hu : s'.sleepUsecs = s.sleepUsecs)
    (hsl : s'.sleeping = s.sleeping) : s'.Sleepers := by
  refine hS.mono (fun k => ?_) hcur hu (fun k u h => hsl ▸ h)
  rw [hp]
  by_cases hk : k = i
  · subst hk
    rw [← hS.current, hc]
    simp [SchedPc.current]
  · simp [hk]

theorem State.Sleepers.effect (hS : s.Sleepers) (he : SchedEffect s s') : s'.Sleepers := by
  cases he with
  | keep h hsl =>
    exact hS.mono (fun k => by rw [h.schedPc]) h.current h.sleepUsecs (fun k u hu => hsl ▸ hu)
  | leave hc h hsl =>
    exact hS.leave (ltCurrent_eq_some hc).2 h.schedPc h.current h.sleepUsecs hsl
  | sleep hc hs hy => exact hS.sleepLeave hc hs hy
  | @wake k t s₁ s₂ hk hpush hsched h₁ hsl h₂ hsl₂ =>
    have hS₁ : s₁.Sleepers := by
      apply hS.mono (fun k => by rw [h₁.schedPc]) h₁.current h₁.sleepUsecs
      intro j u hu
      obtain hsl | ⟨i, v, hsl⟩ := hsl
      · rwa [hsl] at hu
      · rw [hsl] at hu
        exact mem_of_mem_update_erase hu
    exact (hS₁.push hpush).1.mono (fun k => by rw [h₂.schedPc]) h₂.current h₂.sleepUsecs
      (fun j u hu => hsl₂ ▸ hu)

theorem State.Sleepers.schedStep {b : Bool} (hS : s.Sleepers) (h : StepCase s (.sched i b) s') :
    s'.Sleepers := by
  cases h with
  | clockRead h | popEmpty h _ => exact hS.pass (by rw [h]; rfl) rfl
  | expired h h₁ =>
    obtain ⟨hS₁, -, hc, -⟩ := hS.expireLoop h₁
    refine hS₁.pass ?_ rfl
    rw [← hS₁.current, hc, hS.current, h]
    rfl
  | probeFail h hp =>
    apply hS.pass
    · obtain h | ⟨v, h⟩ := h <;> rw [h] <;> rfl
    · obtain rfl | ⟨v, rfl⟩ := hp <;> rfl
  | @pop _ _ v u rest p h hr hp =>
    have hS₁ := hS.pass (p := p) (SchedPc.probe_holds h).2 (by obtain rfl | rfl := hp <;> rfl)
    exact { hS₁ with }
  | wakeNeighbor h h₁ | finish h h₁ => exact hS.wakeNeighbor (by rw [h]; rfl) rfl h₁
  | @setSched _ _ u h =>
    have hS₁ := hS.pass (i := i) (p := .resume u) (by rw [h]; rfl) rfl
    exact { hS₁ with }
  | resume h h₁ => exact hS.resumeEnter h h₁
  | leave h h₁ => exact hS.resumeLeave h h₁
  | block h h₁ =>
    have ho : (s.schedPc i).current = none := by rw [h]; rfl
    obtain ⟨-, rfl⟩ | ⟨-, -, -, -, rfl⟩ | ⟨-, timeout, rfl⟩ := schedBlock_ok h₁
    · exact { hS.pass (p := .expire) ho rfl with }
    · exact { hS.pass (p := .beginDeepSleep) ho rfl with }
    · exact { hS.pass (p := .parked false timeout false) ho rfl with }
  | deepSleep h =>
    have ho : (s.schedPc i).current = none := by rw [h]; rfl
    obtain ⟨-, hs⟩ | ⟨-, hs⟩ := schedDeepSleep_cases s i <;> rw [hs]
    · exact { hS.pass (p := .exiting) ho rfl with }
    · exact { hS.pass (p := .parked true 0 false) ho rfl with }

theorem State.Sleepers.step {l : Label m} (hS : s.Sleepers) (h : StepCase s l s') :
    s'.Sleepers := by
  cases l with
  | sched i b => exact hS.schedStep h
  | unpark i =>
    cases h with
    | @unpark _ deep timeout signalled h =>
      have ho : (s.schedPc i).current = none := by rw [h]; rfl
      cases deep <;> exact { hS.pass (p := .expire) ho rfl with }
  | _ => exact hS.effect (h.schedEffect (by simp) (by simp))

def Expires (s : State m) (l : Label m) (s' : State m) (i : Fin (m + 1)) (now : BitVec 64) : Prop :=
  (∃ b, l = .sched i b) ∧ s.schedPc i = .expiring now ∧ s'.fault = none

/-- The lthread has asked for a time that the clock can reach. -/
def State.canExpire (s : State m) (i : Fin (m + 1)) (t : ℕ) : Prop :=
  s.deadline t + (s.sleeping i).length < UInt64.size

/-- A lthread leaves the sleeping tree only when its time has come. -/
def MovesDue (s : State m) (l : Label m) (s' : State m) : Prop :=
  ∀ i now, Expires s l s' i now → ∀ t ∈ s.sleeping i, s.canExpire i t → t ∉ s'.sleeping i →
    s.deadline t ≤ now.toNat

/-- Nobody in the sleeping tree has to wait any longer. -/
def FindsDue (s : State m) (l : Label m) (s' : State m) : Prop :=
  ∀ i now, Expires s l s' i now → ∀ t ∈ s.sleeping i, s.canExpire i t → s.deadline t ≤ now.toNat

theorem State.Sleepers.emptied {l : Label m} {now : BitVec 64} (hS : s.Sleepers)
    (h : Lthread.step s l = some s') (he : Expires s l s' i now) : s'.sleeping i = [] := by
  obtain ⟨⟨b, rfl⟩, hp, hf⟩ := he
  have hn : s.currentLthread i = none := by rw [hS.current, hp]; rfl
  obtain ⟨-, hc | ⟨f, -, rfl⟩⟩ := step_cases h
  · cases hc with
    | expired h h₁ =>
      refine (hS.expireLoop h₁).2.2.2.2 (fun u hu => ?_) le_rfl
      by_contra hz
      rw [hS.marked i u hu hz] at hn
      cases hn
    | _ => simp_all [SchedPc.probe]
  · cases hf

/-- Along every run, sleepers leave the tree only when they are due exactly when no
call of `_lthread_schedule_expired` finds one that is not. -/
theorem expiry_only_due_iff (clock : ℕ) (isOpen : ℕ → Bool) (ls : List (Label m)) :
    Runs.Along step MovesDue (State.init m clock isOpen) ls ↔
      Runs.Along step FindsDue (State.init m clock isOpen) ls := by
  refine Runs.along_congr (I := State.Sleepers) ?_ ?_ ?_ ls
  · rw [init_eq]
    exact {
      current := fun _ => rfl
      marked := by simp [State.empty]
      once := by simp [State.empty] }
  · intro s s' l hS hs
    obtain ⟨-, hc | ⟨f, -, rfl⟩⟩ := step_cases hs
    · exact hS.step hc
    · exact { hS with }
  · intro s s' l hS hs
    constructor
    · intro h i now he t ht hw
      exact h i now he t ht hw (by simp [hS.emptied hs he])
    · intro h i now he t ht hw _
      exact h i now he t ht hw

/-- A lthread that calls `lthread_sleep(1000)` at time 5 is moved by the next call,
which reads 5. -/
theorem sleep_returns_early :
    ¬ ∀ ls : List (Label 0), Runs.Along step MovesDue (State.init 0 5 fun _ => false) ls := by
  intro h
  obtain ⟨s, s', hr, hs, hp, hf, hsl, hd, hn⟩ : ∃ s s' : State 0,
      Runs.run step (fun _ _ => True) (State.init 0 5 fun _ => false)
        (Label.scheds 0 5 ++ [.call 0 (.sleep 1000)] ++ Label.scheds 0 2) = some s ∧
      step s (.sched 0 true) = some s' ∧ s.schedPc 0 = .expiring 5 ∧ s'.fault = none ∧
      s.sleeping 0 = [0] ∧ s.deadline 0 = 1000005 ∧ 0 ∉ s'.sleeping 0 :=
    Runs.exists_step_of_run _ _ (by decide +kernel)
  have hm := (h _).last hr hs 0 5 ⟨⟨true, rfl⟩, hp, hf⟩ 0 (by simp [hsl])
    (by simp [State.canExpire, hsl, hd, UInt64.size]) hn
  rw [hd] at hm
  exact absurd hm (by decide)

end Lthread
