import Lthread.Askers
import Lthread.IoWakeups

namespace Lthread

open Function (update update_apply)

variable {m : ℕ} {s s' : State m} {l : Label m} {h : WaitHistory} {p : State m × WaitHistory}
  {t fd : ℕ} {e : Event} {clock : ℕ} {isOpen : ℕ → Bool}

def WaitHistory.Named (h : WaitHistory) (s : State m) : Prop :=
  ∀ t fd e, s.pc t = .register fd e ∨ s.pc t = .waitFd fd e → h.call t = some (fd, e)

theorem WaitHistory.note_of_not_user (hc : StepCase s l s') (hp : s.pc t ≠ .user) :
    (h.note s l s').call t = h.call t := by
  refine (note_of_not_call ?_).1
  rintro i fd e rfl hcur
  obtain ⟨u, s₁, hu, hpu, -⟩ := hc.waitFd_ok
  cases hcur.symm.trans hu
  exact hp hpu

theorem WaitHistory.Named.step (hN : h.Named s) (hf : s.fault = none) (hc : StepCase s l s') :
    (h.note s l s').Named s' := by
  have hsame : ∀ t fd e, s.pc t = .register fd e ∨ s.pc t = .waitFd fd e →
      (h.note s l s').call t = some (fd, e) := by
    intro t fd e hp
    rw [note_of_not_user hc (by obtain hp | hp := hp <;> simp [hp]), hN t fd e hp]
  intro t fd e hp
  cases hc.pcStep with
  | keep hpc => exact hsame t fd e (hpc ▸ hp)
  | @move i u q hl hcur hm hpc =>
    rw [hpc] at hp
    by_cases hut : t = u
    · subst hut
      rw [Function.update_self] at hp
      obtain rfl | rfl := hp
      · obtain ⟨j, rfl⟩ := hm.register_inv
        obtain rfl : j = i := by
          obtain hl | ⟨op, hl⟩ := hl <;> cases hl
          rfl
        rw [note_waitFd hcur (hc.fault.trans hf)]
        exact Function.update_self ..
      · exact hsame t fd e (.inl hm.waitFd_inv)
    · rw [Function.update_of_ne hut] at hp
      exact hsame t fd e hp
  | spawn hl hpc =>
    rw [hpc] at hp
    by_cases hut : t = s.numLthreads
    · subst hut
      simp at hp
    · rw [Function.update_of_ne hut] at hp
      exact hsame t fd e hp

def WaitHistory.Current (h : WaitHistory) (s : State m) (t : ℕ) : Prop :=
  ∃ fd e, h.call t = some (fd, e) ∧ s.isOpen fd = true ∧ h.closesAt t = h.closes fd

/-- Waits are for open descriptors, and for each descriptor and direction at most one lthread
waits at a time. -/
def oneWaiter (p : State m × WaitHistory) : Label m → Bool
  | .call _ (.waitFd fd e) => p.1.isOpen fd &&
      decide (∀ u ∈ p.1.waiting, p.2.call u = some (fd, e) → p.2.closesAt u ≠ p.2.closes fd)
  | _ => true

/-- A descriptor is closed only while no lthread is in the tree for it. -/
def closesIdle (p : State m × WaitHistory) : Label m → Bool
  | .call _ (.close fd) => decide (∀ u ∈ p.1.waiting, ∀ c ∈ p.2.call u, c.1 ≠ fd)
  | _ => true

theorem StepCase.isOpen_frame (hc : StepCase s l s') (hn : ∀ i, l ≠ .call i (.close fd))
    (ho : s.isOpen fd = true) :
    s'.isOpen fd = true ∧ (h.note s l s').closes fd = h.closes fd := by
  refine ⟨?_, ?_⟩
  · obtain hf | ⟨i, hl⟩ := hc.system_or_code
    · rw [hf.isOpen]
      exact ho
    · apply ((hc.lthread_frame hl).isOpen fd ho).resolve_right
      exact fun ⟨j, hj⟩ => hn j hj
  · unfold WaitHistory.note
    split
    · rfl
    · split
      · split <;> rfl
      · rename_i i fd'
        have hfd : fd ≠ fd' := by
          rintro rfl
          exact hn i rfl
        exact Function.update_of_ne hfd ..
      · rfl

theorem WaitHistory.current_step (hC : ∀ t ∈ s.waiting, h.Current s t) (hB : s.traffic.Bits)
    (hf : s.fault = none) (hc : StepCase s l s') (ho : oneWaiter (s, h) l = true)
    (hi : closesIdle (s, h) l = true) : ∀ t ∈ s'.waiting, (h.note s l s').Current s' t := by
  intro t ht'
  by_cases ht : t ∈ s.waiting
  · obtain ⟨fd, e, hcall, hopen, hat⟩ := hC t ht
    obtain ⟨hcall', hat'⟩ := note_of_mem (h := h) hB hc ht
    have hn : ∀ i, l ≠ .call i (.close fd) := by
      rintro i rfl
      simp only [closesIdle, decide_eq_true_eq] at hi
      exact hi t ht (fd, e) hcall rfl
    obtain ⟨hopen', hcloses⟩ := hc.isOpen_frame (h := h) hn hopen
    exact ⟨fd, e, hcall'.trans hcall, hopen', by rw [hat', hcloses, hat]⟩
  · obtain ⟨i, fd, e, s₁, rfl, hcur, h₁, hs⟩ := hc.joins ht ht'
    simp only [oneWaiter, Bool.and_eq_true, decide_eq_true_eq] at ho
    rw [note_waitFd hcur (hc.fault.trans hf)]
    refine ⟨fd, e, Function.update_self .., ?_, Function.update_self ..⟩
    exact (hc.isOpen_frame (h := h) (fun j hj => by cases hj) ho.1).1

/-- The books about descriptors: every lthread in the tree waits for a descriptor that is
still the one it has asked for and will hear of it, and a new waiter finds nobody there. -/
structure NobodyStranded (p : State m × WaitHistory) : Prop where
  waits : ∀ t ∈ p.1.waiting, p.2.Current p.1 t
  keyed : p.2.Keyed p.1
  counts : p.1.numPendingEvents = p.1.waiting.length + p.1.pollerPc.inFlight
  heard : ∀ t ∈ p.1.waiting, ∀ fd e, p.1.pc t = .waitFd fd e → p.1.armed fd e = true ∨
    ∃ ev ∈ p.1.fired ++ p.1.pollerPc.unhandled e, ev.fd = fd ∧ ev.filter = e
  inserts : ∀ i t fd e, oneWaiter p (.call i (.waitFd fd e)) = true →
    unclashed p (.call i (.waitFd fd e)) = true →
    pollerAddWaitingLthread p.1 t fd e ≠ .error .waitKey

theorem pollerAddWaitingLthread_of_mem (hB : s.traffic.Bits) (ht : t ∈ s.waiting) :
    pollerAddWaitingLthread s t fd e = .error .waitBits := by
  have hone : s.stWaitRead t ≠ s.stWaitWrite t := hB.one t ht
  have hbits : (s.stWaitRead t || s.stWaitWrite t) = true := by
    cases hr : s.stWaitRead t <;> cases hw : s.stWaitWrite t <;> simp_all
  simp [pollerAddWaitingLthread, hbits]

abbrev ClosesReach (clock : ℕ) (isOpen : ℕ → Bool) : State m × WaitHistory → Prop :=
  Runs.Reach stepWaits (fun p l => oneWaiter p l = true ∧ closesIdle p l = true)
    (State.init m clock isOpen, .empty)

theorem ClosesReach.current (hr : ClosesReach clock isOpen p) :
    (∀ t ∈ p.1.waiting, p.2.Current p.1 t) ∧ p.2.Named p.1 ∧ p.1.traffic.Heard p.1.pc := by
  refine hr.history (I := fun s h => (∀ t ∈ s.waiting, h.Current s t) ∧ h.Named s ∧
    s.traffic.Heard s.pc) ?_ ?_
  · refine ⟨?_, ?_, { waits_init m clock isOpen with heard := ?_ }⟩ <;> rw [init_eq]
    · exact fun t ht => (by cases ht)
    · intro t fd e hp
      by_cases ht : t = 0 <;> simp [ht] at hp
    · exact fun t ht => (by cases ht)
  · rintro s s' h l hr ⟨hC, hN, hH⟩ ⟨ho, hi⟩ hs
    obtain ⟨hW, hB⟩ := waits_of_reach (reach_of_stepWaits hr)
    obtain ⟨hf, hc | ⟨f, -, rfl⟩⟩ := step_cases hs
    · refine ⟨WaitHistory.current_step hC hB hf hc ho hi, hN.step hf hc, hc.ioMove.heard hH ?_⟩
      rintro i fd rfl t ht e hp
      simp only [closesIdle, decide_eq_true_eq] at hi
      exact hi t ht (fd, e) (hN t fd e (.inr hp)) rfl
    · exact ⟨hC, hN, hH⟩

/-- When descriptors are closed only while nobody waits for them, no lthread is left behind in
the waiting tree and a descriptor that is handed out again finds no old entry. -/
theorem close_strands_nobody (hr : ClosesReach clock isOpen p) : NobodyStranded p := by
  obtain ⟨hC, -, hH⟩ := hr.current
  have hr' := reach_of_stepWaits hr
  obtain ⟨hW, hB⟩ := waits_of_reach hr'
  have hK := keyed_of_reach hr
  refine { waits := hC, keyed := hK, counts := (quits_of_reach hr').counts, heard := ?_,
           inserts := ?_ }
  · intro t ht fd e hp
    exact Traffic.outstanding_pos.mp (hH.heard t ht fd e hp)
  · intro i t fd e ho hu herr
    by_cases ht : t ∈ p.1.waiting
    · rw [pollerAddWaitingLthread_of_mem hB ht] at herr
      cases herr
    · obtain ⟨u, hmem, hk⟩ := (pollerAddWaitingLthread_waitKey hW hB ht).mp herr
      simp only [oneWaiter, Bool.and_eq_true, decide_eq_true_eq] at ho
      simp only [unclashed, decide_eq_true_eq] at hu
      obtain hcall | hclash := (hK.waitKey_eq_iff hmem).mp hk
      · obtain ⟨fd', e', hcall', -, hat⟩ := hC u hmem
        cases hcall.symm.trans hcall'
        exact ho.2 u hmem hcall hat
      · exact Bool.false_ne_true ((hu u hmem).symm.trans hclash)

/-- The main lthread waits on a descriptor that it has closed and opened again. -/
theorem close_strands_nobody_reopened : ∃ p : State 0 × WaitHistory,
    ClosesReach 5 (fun _ => false) p ∧
    (p.1.waiting = [0] ∧ p.2.closes 3 = 1 ∧ p.2.closesAt 0 = 1) ∧ NobodyStranded p := by
  obtain ⟨p, hr, hp⟩ : ∃ p : State 0 × WaitHistory, ClosesReach 5 (fun _ => false) p ∧
      p.1.waiting = [0] ∧ p.2.closes 3 = 1 ∧ p.2.closesAt 0 = 1 :=
    Runs.exists_reach_of_run (Label.scheds 0 5 ++ [.call 0 (.socket 3), .call 0 (.close 3),
      .call 0 (.socket 3), .call 0 (.waitFd 3 .read), .cont 0]) (by decide +kernel)
  exact ⟨p, hr, hp, close_strands_nobody hr⟩

/-- A lthread closes the descriptor that another one waits for, opens it again and waits. -/
theorem close_strands_waiter : ∃ p : State 0 × WaitHistory,
    Runs.Reach stepWaits (fun p l => oneWaiter p l = true) (State.init 0 5 fun _ => false, .empty) p ∧
    (p.1.waiting = [0] ∧ p.2.call 0 = some (3, .read) ∧ p.2.closesAt 0 ≠ p.2.closes 3) ∧
    p.1.fault = some .waitKey :=
  Runs.exists_reach_of_run (Q := fun p : State 0 × WaitHistory =>
      (p.1.waiting = [0] ∧ p.2.call 0 = some (3, .read) ∧ p.2.closesAt 0 ≠ p.2.closes 3) ∧
        p.1.fault = some .waitKey)
    (Label.scheds 0 5 ++ [.call 0 (.socket 3), .call 0 .spawn, .call 0 (.waitFd 3 .read), .cont 0] ++
      Label.scheds 0 6 ++ [.call 0 (.close 3), .call 0 (.socket 3), .call 0 (.waitFd 3 .read)])
    (by decide +kernel)

end Lthread
