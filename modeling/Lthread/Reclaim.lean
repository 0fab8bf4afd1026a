import Lthread.UniquePlacement

namespace Lthread

open Function (update update_apply)

variable {m : ℕ} {s s' : State m} {P : Places m} {l : Label m} {i : Fin (m + 1)} {b : Bool} {t : ℕ}
  {clock : ℕ} {isOpen : ℕ → Bool}

def State.finished (s : State m) (t : ℕ) : Prop := s.pc t = .exited ∨ s.pc t = .returned

def State.released (s : State m) : (ℕ → Bool) × (ℕ → ℕ) := (s.freed, s.frees)

theorem StepCase.sched_current (h : StepCase s (.sched i b) s') :
    (s'.currentLthread = s.currentLthread ∧ s'.released = s.released ∧
      ∀ t, s.schedPc i ≠ .leave t) ∨
    (∃ t, s.schedPc i = .resume t ∧ s'.currentLthread = update s.currentLthread i (some t) ∧
      s'.released = s.released) ∨
    ∃ t, s.schedPc i = .leave t ∧ resumeLeave s i t = .ok s' := by
  cases h with
  | clockRead h | popEmpty h _ | setSched h => exact .inl ⟨rfl, rfl, by simp [h]⟩
  | expired h h₁ =>
    obtain ⟨_, _, _, _, _, _, rfl⟩ := expireLoop_frame h₁
    exact .inl ⟨rfl, rfl, by simp [h]⟩
  | probeFail h _ =>
    refine .inl ⟨rfl, rfl, ?_⟩
    obtain h | ⟨v, h⟩ := h <;> simp [h]
  | pop h _ _ =>
    refine .inl ⟨rfl, rfl, fun t ht => ?_⟩
    rw [ht] at h
    cases h
  | wakeNeighbor h h₁ | finish h h₁ =>
    obtain ⟨-, rfl⟩ | ⟨-, -, rfl⟩ := wakeNeighbor_some h₁ <;> exact .inl ⟨rfl, rfl, by simp [h]⟩
  | @resume _ _ t _ h h₁ =>
    obtain ⟨-, -, rfl⟩ := resumeEnter_ok h₁
    exact .inr (.inl ⟨t, h, rfl, rfl⟩)
  | @leave _ _ t _ h h₁ => exact .inr (.inr ⟨t, h, h₁⟩)
  | block h h₁ =>
    obtain ⟨-, rfl⟩ | ⟨-, -, -, -, rfl⟩ | ⟨-, _, rfl⟩ := schedBlock_ok h₁ <;>
      exact .inl ⟨rfl, rfl, by simp [h]⟩
  | deepSleep h =>
    obtain ⟨-, hs⟩ | ⟨-, hs⟩ := schedDeepSleep_cases s i <;> rw [hs] <;>
      exact .inl ⟨rfl, rfl, by simp [h]⟩

theorem StepCase.current_frame (h : StepCase s l s') (hl : ∀ i b, l ≠ .sched i b) :
    s'.currentLthread = s.currentLthread ∧ s'.released = s.released := by
  cases l with
  | sched i b => exact absurd rfl (hl i b)
  | unpark i =>
    cases h with
    | @unpark _ deep => cases deep <;> exact ⟨rfl, rfl⟩
  | poller =>
    obtain ⟨_, _, _, _, _, _, _, _, _, _, _, _, rfl⟩ := h.poller_frame
    exact ⟨rfl, rfl⟩
  | tick | kevent | fire | inject =>
    cases h
    exact ⟨rfl, rfl⟩
  | call i op =>
    have hf := h.lthread_frame (.inr ⟨op, rfl⟩)
    exact ⟨hf.current, Prod.ext hf.freed hf.frees⟩
  | cont i =>
    have hf := h.lthread_frame (.inl rfl)
    exact ⟨hf.current, Prod.ext hf.freed hf.frees⟩

structure State.Frees (s : State m) : Prop where
  count : ∀ t, s.frees t = (s.freed t).toNat
  exited : ∀ t, s.pc t = .exited → s.freed t = true ∨ ∃ i, s.currentLthread i = some t

theorem State.Frees.congr (hF : s.Frees) (hr : s'.released = s.released)
    (h : ∀ t, s'.pc t = .exited → s.freed t = true ∨ ∃ i, s'.currentLthread i = some t) :
    s'.Frees := by
  obtain ⟨hfreed, hfrees⟩ := Prod.ext_iff.mp hr
  simp only [State.released] at hfreed hfrees
  refine { count := fun t => ?_, exited := fun t ht => ?_ }
  · rw [hfrees, hfreed]
    exact hF.count t
  · rw [hfreed]
    exact h t ht

theorem StepCase.exited_of_step (h : StepCase s l s') (ht : s'.pc t = .exited) :
    s.pc t = .exited ∨ ∃ i, ltCurrent s i = some t := by
  cases h.pcStep with
  | keep hpc => exact .inl (hpc ▸ ht)
  | @move i u p hl hc hm hpc =>
    rw [hpc] at ht
    by_cases hut : t = u
    · exact .inr ⟨i, hut ▸ hc⟩
    · rw [Function.update_of_ne hut] at ht
      exact .inl ht
  | spawn hl hpc =>
    rw [hpc] at ht
    by_cases hut : t = s.numLthreads
    · subst hut
      simp at ht
    · rw [Function.update_of_ne hut] at ht
      exact .inl ht

theorem Inv.not_freed_of_leave (hI : Inv s P) (hp : s.schedPc i = .leave t) :
    s.freed t = false := by
  have hrun : P.run t = .held i .leaving := (hI.held i t .leaving).mp (by rw [hp]; rfl)
  cases hb : s.freed t with
  | false => rfl
  | true =>
    have hoff := ((hI.fits t).freed hb).2
    simp [view, hrun] at hoff

theorem State.Frees.leave (hF : s.Frees) (hI : Inv s P) (hp : s.schedPc i = .leave t)
    (h : resumeLeave s i t = .ok s') : s'.Frees := by
  have hfreed := hI.not_freed_of_leave hp
  rw [resumeLeave_ok h]
  refine { count := fun u => ?_, exited := fun u hu => ?_ }
  · have hcount := hF.count u
    by_cases hut : u = t
    · subst hut
      cases s.stExited u <;> simp [hcount, hfreed]
    · cases s.stExited t <;> simp [hcount, hut]
  · by_cases hut : u = t
    · subst hut
      have hx : s.stExited u = true := (hI.fits u).exited.mpr hu
      exact .inl (by simp [hx])
    · obtain hu | ⟨k, hk⟩ := hF.exited u hu
      · refine .inl ?_
        dsimp only
        split
        · rwa [Function.update_of_ne hut]
        · exact hu
      · refine .inr ⟨k, ?_⟩
        have hki : k ≠ i := by
          rintro rfl
          rw [hI.current k, hp] at hk
          cases hk
          exact hut rfl
        dsimp only
        rwa [Function.update_of_ne hki]

theorem State.Frees.schedStep (hF : s.Frees) (hI : Inv s P) (h : StepCase s (.sched i b) s') :
    s'.Frees := by
  have hpc : s'.pc = s.pc := by
    obtain ⟨_, _, _, _, _, _, _, _, _, _, _, _, _, rfl⟩ := h.sched_frame (.inr ⟨b, rfl⟩)
    rfl
  obtain ⟨hc, hd, -⟩ | ⟨t, hp, hc, hd⟩ | ⟨t, hp, hs⟩ := h.sched_current
  · refine hF.congr hd fun u hu => ?_
    rw [hc]
    exact hF.exited u (hpc ▸ hu)
  · refine hF.congr hd fun u hu => ?_
    rw [hc]
    apply (hF.exited u (hpc ▸ hu)).imp_right
    rintro ⟨k, hk⟩
    have hki : k ≠ i := by
      rintro rfl
      rw [hI.current k, hp] at hk
      cases hk
    exact ⟨k, by rwa [Function.update_of_ne hki]⟩
  · exact hF.leave hI hp hs

theorem State.Frees.step (hF : s.Frees) (hI : Inv s P) (h : StepCase s l s') : s'.Frees := by
  by_cases hl : ∃ i b, l = .sched i b
  · obtain ⟨i, b, rfl⟩ := hl
    exact hF.schedStep hI h
  · obtain ⟨hc, hd⟩ := h.current_frame fun i b hib => hl ⟨i, b, hib⟩
    refine hF.congr hd fun u hu => ?_
    rw [hc]
    obtain hu | ⟨i, hi⟩ := h.exited_of_step hu
    · exact hF.exited u hu
    · exact .inr ⟨i, (ltCurrent_eq_some hi).2⟩

theorem InTimeReach.frees (hr : InTimeReach clock isOpen s) : s.Frees := by
  apply invariant_of_reach (I := State.Frees) hr
  · rw [init_eq]
    refine { count := fun t => rfl, exited := fun t ht => ?_ }
    by_cases ht0 : t = 0 <;> simp [ht0] at ht
  · intro s s' l hr hF _ hc
    obtain ⟨P, hI⟩ := InTimeReach.exists_inv hr
    exact hF.step hI hc
  · intro s f hF
    exact { count := hF.count, exited := hF.exited }

/-- What is promised of an lthread: `_lthread_free` does not get it before it has finished; when
it has and its `_lthread_resume` call is over, `_lthread_free` has got it once; and from then on
it is in no queue, no tree and nobody's hands. -/
structure State.Reclaimed (s : State m) (t : ℕ) : Prop where
  unfinished : ¬ s.finished t → s.frees t = 0
  once : s.finished t → (∀ i, s.currentLthread i ≠ some t) → s.frees t = 1
  gone : s.frees t ≠ 0 → s.frees t = 1 ∧ s.freed t = true ∧ (∀ p, ¬ s.isAt t p) ∧
    ∀ i, s.currentLthread i ≠ some t

/-- A lthread is reclaimed as promised unless it has returned from its function: it is then
never freed. -/
theorem finished_reclaimed_iff (hr : InTimeReach clock isOpen s) (t : ℕ) :
    s.Reclaimed t ↔ (s.pc t = .returned → ∃ i, s.currentLthread i = some t) := by
  obtain ⟨P, hI⟩ := hr.exists_inv
  have hF := hr.frees
  have hexited : s.freed t = true → s.pc t = .exited := fun h => ((hI.fits t).freed h).1
  constructor
  · intro h hp
    by_contra hc
    have hone := h.once (.inr hp) fun i hi => hc ⟨i, hi⟩
    rw [hF.count] at hone
    have hx := hexited (by simpa using hone)
    rw [hp] at hx
    cases hx
  · intro h
    refine { unfinished := fun hn => ?_, once := fun hfin hc => ?_, gone := fun hne => ?_ }
    · rw [hF.count]
      cases hb : s.freed t with
      | false => rfl
      | true => exact absurd (.inl (hexited hb)) hn
    · obtain hp | hp := hfin
      · have hb := (hF.exited t hp).resolve_right fun ⟨i, hi⟩ => hc i hi
        rw [hF.count, hb]
        rfl
      · obtain ⟨i, hi⟩ := h hp
        exact absurd hi (hc i)
    · have hb : s.freed t = true := by
        rw [hF.count] at hne
        simpa using hne
      exact ⟨by rw [hF.count, hb]; rfl, hb, hI.freed_nowhere hb⟩

/-- The main lthread has called `lthread_exit` and its scheduler goes on. -/
theorem finished_reclaimed_iff_exit : ∃ s : State 0, InTimeReach 5 (fun _ => false) s ∧
    (s.pc 0 = .exited ∧ s.schedPc 0 = .expire ∧ s.frees 0 = 1) ∧ s.Reclaimed 0 := by
  obtain ⟨s, hr, hs⟩ : ∃ s : State 0, InTimeReach 5 (fun _ => false) s ∧
      s.pc 0 = .exited ∧ s.schedPc 0 = .expire ∧ s.frees 0 = 1 :=
    Runs.exists_reach_of_run (Label.scheds 0 5 ++ [.call 0 .exit] ++ Label.scheds 0 1)
      (by decide +kernel)
  refine ⟨s, hr, hs, (finished_reclaimed_iff hr 0).mpr fun h => ?_⟩
  cases hs.1.symm.trans h

/-- The main lthread returns from its function and nobody frees it. -/
theorem returned_is_leaked : ∃ s : State 0, InTimeReach 5 (fun _ => false) s ∧
    (s.finished 0 ∧ (∀ i, s.currentLthread i ≠ some 0) ∧ s.frees 0 = 0) ∧ ¬ s.Reclaimed 0 := by
  obtain ⟨s, hr, hp, hc, hz⟩ : ∃ s : State 0, InTimeReach 5 (fun _ => false) s ∧
      s.pc 0 = .returned ∧ (∀ i, s.currentLthread i ≠ some 0) ∧ s.frees 0 = 0 :=
    Runs.exists_reach_of_run (Label.scheds 0 5 ++ [.call 0 .ret] ++ Label.scheds 0 1)
      (by decide +kernel)
  refine ⟨s, hr, ⟨.inr hp, hc, hz⟩, fun h => ?_⟩
  have hone := h.once (.inr hp) hc
  rw [hz] at hone
  cases hone

end Lthread
