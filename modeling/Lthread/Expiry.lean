import Lthread.TimedWait

namespace Lthread

open Function (update update_apply)

variable {m : ℕ} {s s' : State m} {i : Fin (m + 1)} {t : ℕ} {now : BitVec 64}

/-- The sleeping tree of scheduler `i` is ordered by `sleep_usecs` without equal keys, and
none of its lthreads is current. -/
structure State.Ordered (s : State m) (i : Fin (m + 1)) : Prop where
  sorted : OrderedTree.Sorted (fun t => (s.sleepUsecs t).toNat) (s.sleeping i)
  current : ∀ t ∈ s.sleeping i, ∀ k, s.currentLthread k ≠ some t

/-- The lthreads in the tree that are due belong to its scheduler and are linked in no ready
queue. -/
structure State.Detached (s : State m) (i : Fin (m + 1)) (now : BitVec 64) : Prop where
  own : ∀ t ∈ s.sleeping i, s.sleepUsecs t ≤ now → s.sched t = i
  unlinked : ∀ t ∈ s.sleeping i, s.sleepUsecs t ≤ now → ∀ k, t ∉ s.ready k

/-- The due sleepers have gone to the tail of the ready queue, in the order of the tree. -/
structure MovesExpired (s : State m) (i : Fin (m + 1)) (now : BitVec 64) (s' : State m) :
    Prop where
  sleeping : s'.sleeping = update s.sleeping i ((s.sleeping i).filter (now < s.sleepUsecs ·))
  ready : s'.ready =
    update s.ready i (s.ready i ++ (s.sleeping i).filter (s.sleepUsecs · ≤ now))
  /-- Nothing else has changed but for the wake-up of the scheduler. -/
  frame : s' = { s with
    sleeping := s'.sleeping, ready := s'.ready
    blockState := s'.blockState, asleep := s'.asleep, schedPc := s'.schedPc }

theorem deschedSleepUnsafe_eq (ht : t ∈ s.sleeping i) (hs : s.sched t = i)
    (hc : s.currentLthread i ≠ some t) (hr : ∀ k, t ∉ s.ready k) :
    deschedSleepUnsafe s t = .ok (schedWakeUnsafe { s with
      sleeping := update s.sleeping i ((s.sleeping i).erase t)
      ready := update s.ready i (s.ready i ++ [t]) } i) := by
  simp [deschedSleepUnsafe, schedPushReadyUnsafe, insertReady, hs, ht, hc, hr, bind, Except.bind,
    pure, Except.pure]

theorem State.Ordered.filter_of_not_due {rest : List ℕ} (h : s.Ordered i)
    (hl : s.sleeping i = t :: rest) (hn : ¬ s.sleepUsecs t ≤ now) :
    ∀ u ∈ s.sleeping i, now < s.sleepUsecs u := by
  intro u hu
  have hsorted := h.sorted
  unfold OrderedTree.Sorted at hsorted
  rw [hl] at hu hsorted
  obtain ⟨hlt, -⟩ := List.pairwise_cons.mp hsorted
  have hn' : now.toNat < (s.sleepUsecs t).toNat := not_le.mp hn
  rw [BitVec.lt_def]
  obtain rfl | hu := List.mem_cons.mp hu
  · exact hn'
  · exact hn'.trans (hlt u hu)

theorem MovesExpired.refl (h : ∀ u ∈ s.sleeping i, now < s.sleepUsecs u) :
    MovesExpired s i now s := by
  have hall : (s.sleeping i).filter (now < s.sleepUsecs ·) = s.sleeping i :=
    List.filter_eq_self.mpr fun u hu => decide_eq_true (h u hu)
  have hnone : (s.sleeping i).filter (s.sleepUsecs · ≤ now) = [] := by
    refine List.filter_eq_nil_iff.mpr fun u hu => ?_
    have := h u hu
    rw [BitVec.lt_def] at this
    rw [decide_eq_true_eq, BitVec.le_def]
    omega
  exact {
    sleeping := by rw [hall, Function.update_eq_self]
    ready := by rw [hnone, List.append_nil, Function.update_eq_self]
    frame := rfl }

theorem MovesExpired.cons {rest : List ℕ} (hl : s.sleeping i = t :: rest)
    (hd : s.sleepUsecs t ≤ now)
    (h : MovesExpired (schedWakeUnsafe { s with
      sleeping := update s.sleeping i rest
      ready := update s.ready i (s.ready i ++ [t]) } i) i now s') : MovesExpired s i now s' := by
  have hlt : ¬ now < s.sleepUsecs t := by
    rw [BitVec.lt_def]
    rw [BitVec.le_def] at hd
    omega
  refine { sleeping := ?_, ready := ?_, frame := ?_ }
  · have hsl := h.sleeping
    simp only [schedWakeUnsafe, Function.update_self, Function.update_idem] at hsl
    rw [hsl, hl, List.filter_cons_of_neg (by simpa using hlt)]
    rfl
  · have hre := h.ready
    simp only [schedWakeUnsafe, Function.update_self, Function.update_idem, List.append_assoc,
      List.singleton_append] at hre
    rw [hre, hl, List.filter_cons_of_pos (by simpa using hd)]
    rfl
  · rw [h.frame]
    rfl

theorem State.Ordered.tail {rest : List ℕ} (hO : s.Ordered i) (hl : s.sleeping i = t :: rest) :
    (schedWakeUnsafe { s with
      sleeping := update s.sleeping i rest
      ready := update s.ready i (s.ready i ++ [t]) } i).Ordered i where
  sorted := by
    have hsorted := hO.sorted
    unfold OrderedTree.Sorted at hsorted
    rw [hl] at hsorted
    simp only [schedWakeUnsafe, Function.update_self]
    exact (List.pairwise_cons.mp hsorted).2
  current u hu := by
    simp only [schedWakeUnsafe, Function.update_self] at hu
    exact hO.current u (by simp [hl, hu])

theorem State.Detached.tail {rest : List ℕ} (hD : s.Detached i now)
    (hl : s.sleeping i = t :: rest) (ht : t ∉ rest) :
    (schedWakeUnsafe { s with
      sleeping := update s.sleeping i rest
      ready := update s.ready i (s.ready i ++ [t]) } i).Detached i now where
  own u hu hd := by
    simp only [schedWakeUnsafe, Function.update_self] at hu hd
    exact hD.own u (by simp [hl, hu]) hd
  unlinked u hu hd k hk := by
    simp only [schedWakeUnsafe, Function.update_self] at hu hd hk
    have hu' : u ∈ s.sleeping i := by simp [hl, hu]
    rw [update_apply] at hk
    split at hk
    · obtain hk | hk := List.mem_append.mp hk
      · exact hD.unlinked u hu' hd i hk
      · exact ht (List.mem_singleton.mp hk ▸ hu)
    · exact hD.unlinked u hu' hd k hk

theorem State.Ordered.expireLoop (hO : s.Ordered i) (hD : s.Detached i now) :
    ∃ s', (∀ fuel, (s.sleeping i).length ≤ fuel → expireLoop i now fuel s = .ok s') ∧
      MovesExpired s i now s' := by
  -- the tree gets smaller in every turn
  induction hl : s.sleeping i generalizing s with
  | nil =>
    refine ⟨s, fun fuel _ => ?_, .refl (by simp [hl])⟩
    cases fuel <;> simp [Lthread.expireLoop, hl]
  | cons t rest ih =>
    have ht : t ∈ s.sleeping i := by simp [hl]
    by_cases hd : s.sleepUsecs t ≤ now
    · have hnd := hO.sorted.nodup
      rw [hl] at hnd
      have hstep :=
        deschedSleepUnsafe_eq ht (hD.own t ht hd) (hO.current t ht i) (hD.unlinked t ht hd)
      rw [hl, List.erase_cons_head] at hstep
      obtain ⟨s', h₁, h₂⟩ := ih (hO.tail hl) (hD.tail hl (List.nodup_cons.mp hnd).1)
        (by simp [schedWakeUnsafe])
      refine ⟨s', fun fuel hf => ?_, .cons hl hd h₂⟩
      cases fuel with
      | zero => simp at hf
      | succ fuel =>
        have h₃ := h₁ fuel (Nat.le_of_succ_le_succ hf)
        simp [Lthread.expireLoop, hl, hd, hstep, bind, Except.bind, h₃]
    · refine ⟨s, fun fuel _ => ?_, .refl (hO.filter_of_not_due hl hd)⟩
      cases fuel <;> simp [Lthread.expireLoop, hl, hd]

/-- The call ends and moves exactly the sleepers that are due, in the order of their
deadlines; what stays in the tree is still ordered. -/
theorem expiry_moves_exactly_due (hO : s.Ordered i) (hD : s.Detached i now) :
    ∃ s', scheduleExpired s i now = .ok s' ∧
      (∀ fuel, (s.sleeping i).length ≤ fuel → expireLoop i now fuel s = .ok s') ∧
      MovesExpired s i now s' ∧
      OrderedTree.Sorted (fun t => (s.sleepUsecs t).toNat)
        ((s.sleeping i).filter (s.sleepUsecs · ≤ now)) ∧
      OrderedTree.Sorted (fun t => (s'.sleepUsecs t).toNat) (s'.sleeping i) := by
  obtain ⟨s', h₁, h₂⟩ := hO.expireLoop hD
  refine ⟨s', h₁ _ le_rfl, h₁, h₂, hO.sorted.sublist List.filter_sublist, ?_⟩
  have hu : s'.sleepUsecs = s.sleepUsecs := by rw [h₂.frame]
  rw [hu, h₂.sleeping, Function.update_self]
  exact hO.sorted.sublist List.filter_sublist

def threeSleepers : State 0 :=
  { State.empty 0 0 fun _ => false with
    sleeping := fun _ => [2, 0, 1]
    ready := fun _ => [3]
    sleepUsecs := fun t => if t = 2 then 3 else if t = 0 then 5 else 9 }

theorem expiry_moves_exactly_due_at_deadline :
    threeSleepers.Ordered 0 ∧ threeSleepers.Detached 0 5 ∧
    ∃ s', scheduleExpired threeSleepers 0 5 = .ok s' ∧
      s'.ready 0 = [3, 2, 0] ∧ s'.sleeping 0 = [1] := by
  have hO : threeSleepers.Ordered 0 :=
    { sorted := by simp [OrderedTree.Sorted, threeSleepers], current := fun _ _ _ h => by cases h }
  have hD : threeSleepers.Detached 0 5 :=
    { own := fun _ _ _ => rfl, unlinked := by simp [threeSleepers] }
  obtain ⟨s', h, -, hm, -⟩ := expiry_moves_exactly_due hO hD
  refine ⟨hO, hD, s', h, ?_, ?_⟩
  · rw [hm.ready]
    decide
  · rw [hm.sleeping]
    decide

/-- Without these hypotheses the call breaks its lists: it links a waiter that a late signal
has left in the ready queue a second time, and it takes one that the other scheduler has
stolen from there out of the wrong tree. -/
theorem expiry_needs_detached :
    (∃ s : State 1, Runs.Reach step (fun _ _ => True) (State.init 1 5 fun _ => false) s ∧
      s.Ordered 0 ∧ (s.sleeping 0 = [0] ∧ s.sched 0 = 0 ∧ s.ready 0 = [0]) ∧
      ∀ s' now, scheduleExpired s 0 now ≠ .ok s') ∧
    ∃ s : State 1, Runs.Reach step (fun _ _ => True) (State.init 1 5 fun _ => false) s ∧
      s.Ordered 0 ∧ (s.sleeping 0 = [0] ∧ s.sched 0 = 1 ∧ s.ready 0 = [] ∧ s.ready 1 = []) ∧
      ∀ s' now, scheduleExpired s 0 now ≠ .ok s' := by
  have hle : ∀ now, 0#64 ≤ now := fun now => BitVec.le_def.mpr (Nat.zero_le _)
  constructor
  · obtain ⟨s, hr, hsleep, hsched, hready, husecs, hcur⟩ : ∃ s : State 1,
        Runs.Reach step (fun _ _ => True) (State.init 1 5 fun _ => false) s ∧
        s.sleeping 0 = [0] ∧ s.sched 0 = 0 ∧ s.ready 0 = [0] ∧ s.sleepUsecs 0 = 0 ∧
        ∀ k, s.currentLthread k ≠ some 0 :=
      Runs.exists_reach_of_run lateSignal (by decide +kernel)
    refine ⟨s, hr, { sorted := ?_, current := ?_ }, ⟨hsleep, hsched, hready⟩, ?_⟩
    · simp [hsleep, OrderedTree.Sorted]
    · simpa [hsleep] using hcur
    · intro s' now h
      have hin : ∃ k, 0 ∈ s.ready k := ⟨0, by simp [hready]⟩
      simp [scheduleExpired, expireLoop, hsleep, husecs, hle, deschedSleepUnsafe, hsched,
        schedPushReadyUnsafe, hcur, insertReady, hin, bind, Except.bind] at h
  · obtain ⟨s, hr, hsleep, hsched, hready, husecs, hcur, hother⟩ : ∃ s : State 1,
        Runs.Reach step (fun _ _ => True) (State.init 1 5 fun _ => false) s ∧
        s.sleeping 0 = [0] ∧ s.sched 0 = 1 ∧ (s.ready 0 = [] ∧ s.ready 1 = []) ∧
        s.sleepUsecs 0 = 0 ∧ (∀ k, s.currentLthread k ≠ some 0) ∧ s.sleeping 1 = [] :=
      Runs.exists_reach_of_run (lateSignal ++ [.call 1 .ret] ++ Label.scheds 1 7)
        (by decide +kernel)
    refine ⟨s, hr, { sorted := ?_, current := ?_ }, ⟨hsleep, hsched, hready⟩, ?_⟩
    · simp [hsleep, OrderedTree.Sorted]
    · simpa [hsleep] using hcur
    · intro s' now h
      simp [scheduleExpired, expireLoop, hsleep, husecs, hle, deschedSleepUnsafe, hsched,
        hother, bind, Except.bind] at h

end Lthread
