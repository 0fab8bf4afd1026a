import Lthread.IoWaits
import Lthread.Placement

namespace Lthread

open Function (update update_apply)

variable {m : ℕ} {s s' : State m} {l : Label m} {w w' : Traffic} {pc pc' : ℕ → Pc} {t fd : ℕ}
  {e : Event} {clock : ℕ} {isOpen : ℕ → Bool}

structure Traffic.Heard (w : Traffic) (pc : ℕ → Pc) : Prop extends w.Waits pc where
  heard : ∀ t ∈ w.waiting, ∀ fd e, pc t = .waitFd fd e → 0 < w.outstanding fd e

/-- A descriptor is closed only while no lthread waits for it. -/
def State.staysOpen (s : State m) : Label m → Bool
  | .call _ (.close fd) => decide (∀ t ∈ s.waiting,
      s.waitKey t ≠ eventKey fd .read ∧ s.waitKey t ≠ eventKey fd .write)
  | _ => true

theorem Traffic.Heard.frame (h : w.Heard pc) (hw : w'.waiting = w.waiting)
    (ho : ∀ fd e, w.outstanding fd e ≤ w'.outstanding fd e) :
    ∀ t ∈ w'.waiting, ∀ fd e, pc t = .waitFd fd e → 0 < w'.outstanding fd e := by
  intro t ht fd e hp
  rw [hw] at ht
  exact (h.heard t ht fd e hp).trans_le (ho fd e)

theorem IoMove.heard (hm : IoMove w pc l w' pc') (h : w.Heard pc)
    (hl : ∀ i fd, l = .call i (.close fd) → ∀ t ∈ w.waiting, ∀ e, pc t ≠ .waitFd fd e) :
    w'.Heard pc' := by
  refine { toWaits := hm.waits h.toWaits, heard := ?_ }
  cases hm with
  | keep hpc =>
    intro t hmem fd e hp
    obtain hpc | hpc := hpc t
    · exact h.heard t hmem fd e (hpc ▸ hp)
    · rw [hp] at hpc
      cases hpc
  | @add i t fd e waiting hr hw hi =>
    intro u hu fd' e' hp
    by_cases hut : u = t
    · subst hut
      simp at hp
    · rw [Function.update_of_ne hut] at hp
      have hu' := (OrderedTree.insert_perm hi).mem_iff.mp hu
      exact h.heard u (List.mem_of_ne_of_mem hut hu') fd' e' hp
  | @register _ t fd e hp =>
    intro u hu fd' e' hpu
    by_cases hut : u = t
    · subst hut
      simp only [Function.update_self, Pc.waitFd.injEq] at hpu
      obtain ⟨rfl, rfl⟩ := hpu
      exact Traffic.outstanding_pos.mpr (.inl (by simp))
    · rw [Function.update_of_ne hut] at hpu
      apply (h.heard u hu fd' e' hpu).trans_le
      rw [Traffic.outstanding_register]
      exact Nat.le_add_right _ _
  | @close i fd =>
    intro u hu fd' e' hp
    have hne : fd' ≠ fd := by
      rintro rfl
      exact hl i fd' rfl u hu e' hp
    rw [Traffic.outstanding_close_of_ne hne]
    exact h.heard u hu fd' e' hp
  | fire ha => exact h.frame rfl fun fd e => (Traffic.outstanding_fire ha fd e).ge
  | @inject ev =>
    refine h.frame rfl fun fd e => ?_
    unfold Traffic.outstanding
    simp only [List.countP_append]
    omega
  | kevent hp => exact h.frame rfl fun fd e => (Traffic.outstanding_kevent hp _).ge
  | push hp => exact h.frame rfl fun fd e => (Traffic.outstanding_push hp).ge
  | account hp => exact h.frame rfl fun fd e => (Traffic.outstanding_account hp).ge
  | @none ev dir ltRead rest hp hn =>
    intro u hu fd e hpu
    refine (h.heard u hu fd e hpu).trans_eq
      (Traffic.outstanding_desched_of_not hp (unhandled_after _ _ _ _) rfl rfl ?_)
    rintro ⟨rfl, rfl⟩
    exact hn u hu (h.key u hu _ _ (.inr hpu))
  | @take t ev dir ltRead rest hp hmem hk =>
    intro u hu fd e hpu
    obtain ⟨hut, hu'⟩ := h.sorted.nodup.mem_erase_iff.mp hu
    refine (h.heard u hu' fd e hpu).trans_eq
      (Traffic.outstanding_desched_of_not hp rfl rfl rfl ?_)
    rintro ⟨rfl, rfl⟩
    exact hut (h.sorted.eq_of_key hu' hmem ((h.key u hu' _ _ (.inr hpu)).trans hk.symm))

/-- A lthread in the waiting tree that has registered has its registration in the kernel,
or the event that the registration has become is on its way: the poller has not looked
yet at the waiters of that direction for it. -/
theorem no_lost_io_wakeup
    (hr : Runs.Reach step (fun s l => s.staysOpen l = true) (State.init m clock isOpen) s)
    (ht : t ∈ s.waiting) (hp : s.pc t = .waitFd fd e) :
    s.armed fd e = true ∨
      ∃ ev ∈ s.fired ++ s.pollerPc.unhandled e, ev.fd = fd ∧ ev.filter = e := by
  have h : s.traffic.Heard s.pc := by
    apply invariant_of_reach (I := fun s => s.traffic.Heard s.pc) hr
    · refine { waits_init m clock isOpen with heard := ?_ }
      rw [init_eq]
      simp [State.traffic, State.empty]
    · intro s s' l hr h hl hc
      apply hc.ioMove.heard h
      rintro i fd rfl t ht e hp
      have hk := h.key t ht fd e (.inr hp)
      simp only [State.staysOpen, decide_eq_true_eq] at hl
      cases e
      · exact (hl t ht).1 hk
      · exact (hl t ht).2 hk
    · intro s f h
      exact h
  exact Traffic.outstanding_pos.mp (h.heard t ht fd e hp)

/-- The main lthread waits on a descriptor whose event the poller has in its batch. -/
theorem no_lost_io_wakeup_fired : ∃ s : State 0,
    Runs.Reach step (fun s l => s.staysOpen l = true) (State.init 0 5 fun _ => false) s ∧
    (0 ∈ s.waiting ∧ s.pc 0 = .waitFd 3 .read ∧ s.armed 3 .read = false) ∧
    ∃ ev ∈ s.fired ++ s.pollerPc.unhandled .read, ev.fd = 3 := by
  obtain ⟨s, hr, ht, hp, ha⟩ : ∃ s : State 0,
      Runs.Reach step (fun s l => s.staysOpen l = true) (State.init 0 5 fun _ => false) s ∧
      0 ∈ s.waiting ∧ s.pc 0 = .waitFd 3 .read ∧ s.armed 3 .read = false :=
    Runs.exists_reach_of_run (Label.scheds 0 5 ++ [.call 0 (.socket 3),
      .call 0 (.waitFd 3 .read), .cont 0, .fire 3 .read false, .kevent 1]) (by decide +kernel)
  obtain h | ⟨ev, hev, hfd, -⟩ := no_lost_io_wakeup hr ht hp
  · simp [ha] at h
  · exact ⟨s, hr, ⟨ht, hp, ha⟩, ev, hev, hfd⟩

end Lthread
