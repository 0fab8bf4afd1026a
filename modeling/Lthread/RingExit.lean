import Lthread.SchedMoves

namespace Lthread

open Function (update update_apply)

variable {m : ℕ} {s s' : State m} {i j : Fin (m + 1)} {clock : ℕ}
  {isOpen : ℕ → Bool} {l : Label m}

section Ring

theorem linkNeighbors_of_notMem {l : List (Fin (m + 1))} {last x : Fin (m + 1)}
    {next : Fin (m + 1) → Fin (m + 1)} (h : x ∉ (last :: l).dropLast) :
    linkNeighbors l last next x = next x := by
  induction l generalizing last next with
  | nil => rfl
  | cons b l ih =>
    rw [List.dropLast_cons_cons, List.mem_cons, not_or] at h
    rw [linkNeighbors, ih h.2, Function.update_of_ne h.1]

theorem linkNeighbors_getElem {l : List (Fin (m + 1))} (hl : l.Nodup) {last : Fin (m + 1)}
    {next : Fin (m + 1) → Fin (m + 1)} {k : ℕ} (hk : k + 1 < l.length) :
    linkNeighbors l last next l[k] = l[k + 1] := by
  induction l generalizing last next k with
  | nil => simp at hk
  | cons a l ih =>
    rw [List.nodup_cons] at hl
    cases k with
    | zero =>
      obtain _ | ⟨b, l⟩ := l
      · simp at hk
      · have ha : a ∉ (b :: l).dropLast := fun h => hl.1 (List.mem_of_mem_dropLast h)
        simp [linkNeighbors, linkNeighbors_of_notMem ha]
    | succ k => exact ih hl.2 (by simpa using hk)

theorem schedNeighbor_castSucc (i : Fin m) : schedNeighbor i.castSucc = i.succ := by
  have hk : i.val + 1 < (List.finRange (m + 1)).length := by simp
  have h : schedNeighbor (List.finRange (m + 1))[i.val] = (List.finRange (m + 1))[i.val + 1] :=
    linkNeighbors_getElem (List.nodup_finRange (m + 1)) hk
  simp only [List.getElem_finRange] at h
  exact h

theorem schedNeighbor_last (m : ℕ) : schedNeighbor (Fin.last m) = 0 := by
  have hl : Fin.last m ∉ (List.finRange (m + 1)).dropLast := by
    simp [List.finRange_succ_last, Fin.castSucc_ne_last]
  unfold schedNeighbor
  rw [List.finRange_succ] at hl ⊢
  rw [linkNeighbors, linkNeighbors_of_notMem hl, Function.update_self]

theorem forall_of_schedNeighbor {S : Fin (m + 1) → Prop} (hi : S i)
    (h : ∀ j, S j → S (schedNeighbor j)) (j : Fin (m + 1)) : S j := by
  have hup : ∀ a b, S a → a ≤ b → S b := by
    intro a b ha
    induction b using Fin.induction with
    | zero =>
      intro hab
      rwa [Fin.le_zero_iff.mp hab] at ha
    | succ b ih =>
      intro hab
      obtain rfl | hlt := eq_or_lt_of_le hab
      · exact ha
      · rw [← schedNeighbor_castSucc]
        exact h _ (ih (Fin.le_castSucc_iff.mpr hlt))
  have h0 : S 0 := by
    rw [← schedNeighbor_last]
    exact h _ (hup i _ hi (Fin.le_last i))
  exact hup 0 j h0 (Fin.zero_le j)

end Ring

/-- A scheduler whose predecessor in the ring has finished goes to deep sleep only
when all other `asleep` flags are set, so that it leaves in its turn. -/
def State.leavesInTurn (s : State m) : Label m → Bool
  | .sched i _ => decide (s.schedPc i = .beginDeepSleep →
      (∃ j, s.schedPc j = .finished ∧ schedNeighbor j = i) → ∀ k, k ≠ i → s.asleep k = true)
  | _ => true

/-- The scheduler waits without a timeout and no signal is on its way to it. -/
def SchedPc.stuck : SchedPc m → Bool
  | .parked true _ false => true
  | _ => false

abbrev RingReach (clock : ℕ) (isOpen : ℕ → Bool) : State m → Prop :=
  Runs.Reach step (fun s l => l.untimed = true ∧ s.leavesInTurn l = true)
    (State.init m clock isOpen)

structure State.Leaves (s : State m) : Prop where
  awake : (∀ i, s.schedPc i ≠ .exiting ∧ s.schedPc i ≠ .finished) → ∃ i, s.asleep i = false
  passed : ∀ i, s.schedPc i = .finished → (s.schedPc (schedNeighbor i)).stuck = false

theorem SchedMove.gone (h : SchedMove s l s' j)
    (hg : s.schedPc j = .exiting ∨ s.schedPc j = .finished) :
    s'.schedPc j = .exiting ∨ s'.schedPc j = .finished := by
  cases h with
  | keep hp _ => rwa [hp]
  | wake _ hp _ =>
    rw [hp]
    obtain hg | hg := hg <;> simp [hg, SchedPc.signal]
  | loop hp => obtain hg | hg := hg <;> simp [hg, SchedPc.active] at hp
  | deep hp | exit hp | sleep _ hp => simp [hp] at hg
  | unpark hp =>
    obtain ⟨_, _, _, hp⟩ := hp
    simp [hp] at hg
  | finish _ hp' => exact .inr hp'

theorem SchedMove.awake (h : SchedMove s l s' j) (ha : s.asleep j = false)
    (hj : s'.schedPc j ≠ .exiting) : ∃ k, s'.asleep k = false := by
  cases h with
  | keep _ ha' | loop _ _ ha' | finish _ _ ha' => exact ⟨j, ha'.trans ha⟩
  | wake _ _ ha' => exact ⟨j, ha'⟩
  | deep _ _ _ _ hs =>
    subst hs
    exact ⟨j, ha⟩
  | exit _ _ hp' => exact absurd hp' hj
  | sleep _ _ hex _ ha' =>
    rw [ha']
    exact hex
  | unpark _ _ ha' =>
    refine ⟨j, Bool.eq_false_iff.mpr fun h => ?_⟩
    rw [ha' h] at ha
    cases ha

theorem SchedMove.stuck (h : SchedMove s l s' j) (hj : (s'.schedPc j).stuck = true) :
    (s.schedPc j).stuck = true ∨ ((∃ b, l = .sched j b) ∧ s.schedPc j = .beginDeepSleep ∧
      ∃ k, k ≠ j ∧ s.asleep k = false) := by
  cases h with
  | keep hp _ => exact .inl (hp ▸ hj)
  | wake _ hp _ =>
    rw [hp] at hj
    cases hs : s.schedPc j <;> simp [hs, SchedPc.signal, SchedPc.stuck] at hj
  | loop _ hp' =>
    cases hs : s'.schedPc j <;> simp_all [SchedPc.stuck, SchedPc.active]
  | deep _ _ _ _ hs =>
    subst hs
    simp [SchedPc.stuck] at hj
  | exit _ _ hp' | unpark _ hp' | finish _ hp' => simp [hp', SchedPc.stuck] at hj
  | sleep hl hp hex =>
    obtain ⟨k, hk⟩ := hex
    have hne : k ≠ j := by
      rintro rfl
      simp at hk
    exact .inr ⟨hl, hp, k, hne, by simpa [hne] using hk⟩

theorem SchedMove.finished (h : SchedMove s l s' j) (hj : s'.schedPc j = .finished) :
    s.schedPc j = .finished ∨
      ∀ timeout, s'.schedPc (schedNeighbor j) ≠ .parked true timeout false := by
  cases h with
  | keep hp _ => exact .inl (hp ▸ hj)
  | wake _ hp _ =>
    rw [hp] at hj
    cases hs : s.schedPc j <;> simp_all [SchedPc.signal]
  | loop _ hp' => simp [hj, SchedPc.active] at hp'
  | deep _ _ _ _ hs =>
    subst hs
    simp at hj
  | exit _ _ hp' | sleep _ _ _ hp' | unpark _ hp' => simp [hp'] at hj
  | finish _ _ _ hn => exact .inr hn

theorem State.Leaves.step (h : s.Leaves) (hP : s.Parks) (hS : s.Sleepers)
    (hl : s.leavesInTurn l = true) (hc : StepCase s l s') : s'.Leaves where
  awake hno := by
    obtain ⟨j, hj⟩ := h.awake fun i => by
      have hi := (hc.schedMove hP hS i).gone
      rw [← not_or]
      intro hg
      obtain h' | h' := hi hg
      · exact (hno i).1 h'
      · exact (hno i).2 h'
    exact (hc.schedMove hP hS j).awake hj (hno j).1
  passed i hi := by
    obtain hf | hn := (hc.schedMove hP hS i).finished hi
    · by_contra hst
      obtain h' | ⟨⟨b, rfl⟩, hp, k, hk, ha⟩ :=
        (hc.schedMove hP hS (schedNeighbor i)).stuck (by simpa using hst)
      · simp [h.passed i hf] at h'
      · simp only [State.leavesInTurn, decide_eq_true_eq] at hl
        rw [hl hp ⟨i, hf, rfl⟩ k hk] at ha
        cases ha
    · cases hs : s'.schedPc (schedNeighbor i) with
      | parked deep timeout signalled =>
        cases deep <;> cases signalled <;> simp_all [SchedPc.stuck]
      | _ => rfl

theorem RingReach.leaves (hr : RingReach clock isOpen s) : s.Leaves := by
  apply invariant_of_reach (I := State.Leaves) hr
  · rw [init_eq]
    exact { awake := fun _ => ⟨0, rfl⟩, passed := by simp [State.empty] }
  · intro s s' l hr h hl hc
    exact h.step (parks_of_reach hr) (located_of_reach hr).toSleepers hl.2 hc
  · intro s f h
    exact { h with }

/-- When the schedulers leave in turn the pool does not hang: as long as one scheduler
has not finished, one of them does not wait for a signal that nobody will send. -/
theorem shutdown_never_hangs (hr : RingReach clock isOpen s) :
    (∀ i, s.schedPc i = .finished) ∨
      ∃ i, s.schedPc i ≠ .finished ∧ (s.schedPc i).stuck = false := by
  by_cases hst : ∃ i, s.schedPc i ≠ .finished ∧ (s.schedPc i).stuck = false
  · exact .inr hst
  · refine .inl ?_
    have hor : ∀ i, s.schedPc i = .finished ∨ (s.schedPc i).stuck = true := by
      intro i
      by_contra h
      rw [not_or, Bool.not_eq_true] at h
      exact hst ⟨i, h⟩
    by_cases hf : ∃ i, s.schedPc i = .finished
    · obtain ⟨i, hi⟩ := hf
      refine forall_of_schedNeighbor hi fun j hj => ?_
      apply (hor (schedNeighbor j)).resolve_right
      simp [hr.leaves.passed j hj]
    · have hall : ∀ i, (s.schedPc i).stuck = true :=
        fun i => (hor i).resolve_left fun h => hf ⟨i, h⟩
      obtain ⟨i, hi⟩ := hr.leaves.awake fun i => by
        have := hall i
        constructor <;> intro h <;> simp [h, SchedPc.stuck] at this
      have hok := parks_of_reach hr i
      have hsi := hall i
      unfold State.schedOk at hok
      cases hp : s.schedPc i with
      | parked deep timeout signalled =>
        rw [hp] at hsi hok
        cases deep <;> cases signalled <;> simp_all [SchedPc.stuck, SchedOk]
      | _ => simp [hp, SchedPc.stuck] at hsi

/-- One scheduler has finished and woken its neighbour, which leaves in its turn. -/
theorem shutdown_never_hangs_two : ∃ s : State 1, RingReach 5 (fun _ => false) s ∧
    (s.schedPc 0 = .exiting ∧ s.schedPc 1 = .finished) ∧
    ((∀ i, s.schedPc i = .finished) ∨
      ∃ i, s.schedPc i ≠ .finished ∧ (s.schedPc i).stuck = false) := by
  obtain ⟨s, hr, hs⟩ : ∃ s : State 1, RingReach 5 (fun _ => false) s ∧
      s.schedPc 0 = .exiting ∧ s.schedPc 1 = .finished :=
    Runs.exists_reach_of_run (Label.scheds 0 6 ++ [.call 0 .ret] ++ Label.scheds 0 14 ++
      Label.scheds 1 14 ++ [.unpark 0] ++ Label.scheds 0 7) (by decide +kernel)
  exact ⟨s, hr, hs, shutdown_never_hangs hr⟩

/-- Scheduler 1 leaves first and wakes scheduler 2. A spurious wake-up of scheduler 0 has
cleared its `asleep` flag meanwhile, so scheduler 2 goes back to deep sleep; scheduler 0
then leaves and wakes scheduler 1, and nobody wakes scheduler 2. -/
theorem shutdown_hangs : ∃ s : State 2, UntimedReach 5 (fun _ => false) s ∧
    ¬ ((∀ i, s.schedPc i = .finished) ∨
      ∃ i, s.schedPc i ≠ .finished ∧ (s.schedPc i).stuck = false) :=
  Runs.exists_reach_of_run (Label.scheds 0 6 ++ [.call 0 .ret] ++ Label.scheds 0 16 ++
    Label.scheds 2 8 ++ Label.scheds 1 15 ++ [.unpark 0] ++ Label.scheds 1 1 ++ [.unpark 2] ++
    Label.scheds 2 8 ++ Label.scheds 0 9) (by decide +kernel)

end Lthread
