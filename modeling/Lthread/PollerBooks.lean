import Lthread.FdEof
import Lthread.IoWaits
import Lthread.Shutdown
import Lthread.TimedWait

namespace Lthread

open Function (update update_apply)

variable {m : ℕ} {s s' : State m} {P : Places m} {i : Fin (m + 1)} {l : Label m} {t fd : ℕ}
  {w w' : Traffic} {pc pc' : ℕ → Pc} {dir : Event} {clock : ℕ} {isOpen : ℕ → Bool}

structure Traffic.Bits (w : Traffic) : Prop where
  one : ∀ t ∈ w.waiting, w.stWaitRead t ≠ w.stWaitWrite t
  none : ∀ t, t ∉ w.waiting → w.stWaitRead t = false ∧ w.stWaitWrite t = false

theorem Traffic.stWaitRead_of_key (h : w.waitKey t = eventKey fd dir) :
    w.stWaitRead t = decide (dir = .read) := by
  have hk := congrArg (BitVec.getLsbD · 16) (BitVec.eq_of_toNat_eq h)
  simpa only [fdKey_getLsbD, Bool.not_inj_iff] using hk

theorem Traffic.Bits.frame (h : w.Bits) (hw : w'.waiting = w.waiting)
    (hr : w'.stWaitRead = w.stWaitRead) (hwr : w'.stWaitWrite = w.stWaitWrite) : w'.Bits where
  one t ht := by
    rw [hw] at ht
    rw [hr, hwr]
    exact h.one t ht
  none t ht := by
    rw [hw] at ht
    rw [hr, hwr]
    exact h.none t ht

theorem IoMove.bits (hm : IoMove w pc l w' pc') (hW : w.Waits pc) (h : w.Bits) : w'.Bits := by
  cases hm with
  | keep => exact h
  | register | close | fire | inject | kevent | none | push | account => exact h.frame rfl rfl rfl
  | @add i t fd e waiting hr hw hi =>
    have hmem : ∀ u, u ∈ waiting ↔ u = t ∨ u ∈ w.waiting := fun u => by
      rw [(OrderedTree.insert_perm hi).mem_iff, List.mem_cons]
    refine { one := fun u hu => ?_, none := fun u hu => ?_ }
    · by_cases hut : u = t
      · subst hut
        cases e <;> simp [Traffic.withWait, hr, hw]
      · obtain ⟨h₁, h₂, -⟩ := w.withWait_of_ne fd e hut
        dsimp only
        rw [h₁, h₂]
        exact h.one u (((hmem u).mp hu).resolve_left hut)
    · obtain ⟨hut, hu⟩ := not_or.mp fun hu' => hu ((hmem u).mpr hu')
      obtain ⟨h₁, h₂, -⟩ := w.withWait_of_ne fd e hut
      dsimp only
      rw [h₁, h₂]
      exact h.none u hu
  | @take t ev dir ltRead rest hp hmem hk =>
    have hdir := Traffic.stWaitRead_of_key hk
    have hone := h.one t hmem
    refine { one := fun u hu => ?_, none := fun u hu => ?_ }
    · obtain ⟨hut, hu⟩ := hW.sorted.nodup.mem_erase_iff.mp hu
      have := h.one u hu
      cases dir <;> simpa [hut] using this
    · by_cases hut : u = t
      · subst hut
        cases dir <;> simp_all
      · have := h.none u fun hu' => hu (hW.sorted.nodup.mem_erase_iff.mpr ⟨hut, hu'⟩)
        cases dir <;> simpa [hut] using this

theorem IoMove.key_eq (hm : IoMove w pc l w' pc') (hW : w.Waits pc) (h : w.Bits)
    (ht : t ∈ w.waiting) (ht' : t ∈ w'.waiting) :
    w'.fdWait t = w.fdWait t ∧ w'.stWaitRead t = w.stWaitRead t ∧
      w'.stWaitWrite t = w.stWaitWrite t := by
  cases hm with
  | keep | register | close | fire | inject | kevent | none | push | account => exact ⟨rfl, rfl, rfl⟩
  | @add i u fd e waiting hr hw hi =>
    have hut : t ≠ u := by
      rintro rfl
      exact h.one t ht (hr.trans hw.symm)
    obtain ⟨h₁, h₂, h₃⟩ := w.withWait_of_ne fd e hut
    exact ⟨h₃, h₁, h₂⟩
  | @take u ev dir ltRead rest hp hmem hk =>
    have hut : t ≠ u := (hW.sorted.nodup.mem_erase_iff.mp ht').1
    cases dir <;> simp [hut]

theorem waits_of_reach {ok : State m → Label m → Prop}
    (hr : Runs.Reach step ok (State.init m clock isOpen) s) :
    s.traffic.Waits s.pc ∧ s.traffic.Bits := by
  apply invariant_of_reach (I := fun s => s.traffic.Waits s.pc ∧ s.traffic.Bits) hr
  · refine ⟨waits_init m clock isOpen, ?_⟩
    rw [init_eq]
    refine { one := ?_, none := ?_ } <;> simp [State.traffic, State.empty]
  · rintro s s' l - ⟨hW, hB⟩ - hc
    exact ⟨hc.ioMove.waits hW, hc.ioMove.bits hW hB⟩
  · rintro s f ⟨hW, hB⟩
    exact ⟨hW, hB⟩

theorem StepCase.fdEof_rises (h : StepCase s l s') (hn : s.stFdEof t = false)
    (ht : s'.stFdEof t = true) : ∃ ev dir ltRead rest,
      s.pollerPc = .push t ev dir ltRead rest ∧ ev.isEof = true ∧
      s'.pollerPc = .account t ev dir ltRead rest ∧ s'.waiting = s.waiting := by
  have hno : s'.stFdEof t ≠ s.stFdEof t := by rw [hn, ht]; decide
  obtain hf | rfl | ⟨i, hl⟩ := h.io_frame
  · rw [hf.stFdEof] at hno
    exact absurd rfl hno
  · cases h with
    | deschedNone hp hf h | account hp h =>
      rw [handledEvent_ok h] at hno
      exact absurd rfl hno
    | deschedSome hp hf =>
      obtain ⟨-, -, hs⟩ := pollerDeschedEvent_some hf
      rw [hs] at hno
      exact absurd rfl hno
    | @push u ev dir ltRead rest s₁ hp hf h =>
      have he := pollerPushEvent_fdEof h
      have ht₁ : s₁.stFdEof t = true := ht
      rw [he] at ht₁
      have hut : t = u := by
        by_contra hut
        rw [Function.update_of_ne hut, hn] at ht₁
        cases ht₁
      subst hut
      rw [Function.update_self, hn] at ht₁
      have hw : s₁.waiting = s.waiting := by
        obtain ⟨-, rfl⟩ | ⟨-, rfl⟩ := schedPushReadyUnsafe_ok h <;> rfl
      cases hev : ev.isEof with
      | true => exact ⟨ev, dir, ltRead, rest, hp, hev, rfl, hw⟩
      | false =>
        rw [hev] at ht₁
        cases ht₁
  · have hle := (h.lthread_frame hl).fdEof t ht
    rw [hn] at hle
    cases hle

def State.EofHandled (s : State m) : Prop :=
  ∀ t, s.stFdEof t = true → t ∉ s.waiting ∧ s.pollerPc.hands ≠ some t

theorem State.EofHandled.kept (h : s.EofHandled) (hE : s.EofInWait) (hc : StepCase s l s')
    (ht : s.stFdEof t = true) : t ∉ s'.waiting ∧ s'.pollerPc.hands ≠ some t := by
  obtain ⟨hw, hh⟩ := h t ht
  have hlt : ∀ {i}, (l = .cont i ∨ ∃ op, l = .call i op) →
      t ∉ s'.waiting ∧ s'.pollerPc.hands ≠ some t := by
    intro i hl
    rw [(hc.lthread_frame hl).pollerPc]
    refine ⟨?_, hh⟩
    obtain ⟨hw', -⟩ | ⟨u, fd, e, s₁, -, -, hp, h₁, rfl⟩ := hc.waiting_frame hl
    · rwa [hw']
    · obtain ⟨-, -, waiting, hi, rfl⟩ := pollerAddWaitingLthread_ok h₁
      intro hmem
      obtain rfl | hmem := List.mem_cons.mp ((OrderedTree.insert_perm hi).mem_iff.mp hmem)
      · have hwait := hE t ht
        rw [hp] at hwait
        cases hwait
      · exact hw hmem
  cases l with
  | sched i b =>
    obtain ⟨_, _, _, _, _, _, _, _, _, _, _, _, _, rfl⟩ := hc.sched_frame (.inr ⟨b, rfl⟩)
    exact ⟨hw, hh⟩
  | unpark i =>
    obtain ⟨_, _, _, _, _, _, _, _, _, _, _, _, _, rfl⟩ := hc.sched_frame (.inl rfl)
    exact ⟨hw, hh⟩
  | tick | fire | inject =>
    cases hc
    exact ⟨hw, hh⟩
  | kevent =>
    cases hc
    exact ⟨hw, by simp [nextEvent_hands]⟩
  | call i op => exact hlt (.inr ⟨op, rfl⟩)
  | cont i => exact hlt (.inl rfl)
  | poller =>
    cases hc with
    | deschedNone hp hf hs | account hp hs =>
      rw [handledEvent_ok hs]
      exact ⟨hw, by simp [after_hands]⟩
    | deschedSome hp hf =>
      obtain ⟨hm, -, hs⟩ := pollerDeschedEvent_some hf
      rw [hs]
      refine ⟨fun hmem => hw (List.mem_of_mem_erase hmem), fun hu => ?_⟩
      cases hu
      exact hw hm
    | push hp hf hs =>
      refine ⟨fun hmem => hw ?_, by simp [PollerPc.hands]⟩
      obtain ⟨-, rfl⟩ | ⟨-, rfl⟩ := schedPushReadyUnsafe_ok hs <;> exact hmem

theorem State.EofHandled.step (h : s.EofHandled) (hE : s.EofInWait) (hI : Inv s P)
    (hc : StepCase s l s') : s'.EofHandled := by
  intro t ht
  cases hs : s.stFdEof t with
  | true => exact h.kept hE hc hs
  | false =>
    obtain ⟨ev, dir, ltRead, rest, hp, -, hp', hw⟩ := hc.fdEof_rises hs ht
    have hio := (hI.hands t).mp (by rw [hp]; rfl)
    refine ⟨?_, by simp [hp', PollerPc.hands]⟩
    rw [hw, hI.toAgree.mem_waiting, hio]
    simp

/-- The bits tell who is in the tree, the count is exact, and the EOF bit is set only for a
lthread whose wait has been ended and has not returned. -/
structure State.PollerBooks (s : State m) : Prop where
  tree : ∀ t, t ∈ s.waiting ↔ s.stWaitRead t ≠ s.stWaitWrite t
  clear : ∀ t, t ∉ s.waiting → s.stWaitRead t = false ∧ s.stWaitWrite t = false
  counts : s.numPendingEvents = s.waiting.length + s.pollerPc.inFlight
  accounts : ∀ t ev dir ltRead rest, s.pollerPc = .account t ev dir ltRead rest →
    0 < s.numPendingEvents
  eof : ∀ t, s.stFdEof t = true →
    (s.pc t).isWait = true ∧ t ∉ s.waiting ∧ s.pollerPc.hands ≠ some t

/-- A step changes no key of a lthread that stays in the tree, and sets the EOF bit only
when the poller deals with the event that has ended the wait. -/
structure KeepsBooks (s s' : State m) : Prop where
  key : ∀ t ∈ s.waiting, t ∈ s'.waiting →
    s'.fdWait t = s.fdWait t ∧ s'.stWaitRead t = s.stWaitRead t ∧ s'.stWaitWrite t = s.stWaitWrite t
  eof : ∀ t, s.stFdEof t = false → s'.stFdEof t = true →
    ∃ ev dir ltRead rest, s.pollerPc = .push t ev dir ltRead rest ∧ ev.isEof = true

theorem keepsBooks_step {ok : State m → Label m → Prop}
    (hr : Runs.Reach step ok (State.init m clock isOpen) s) (h : step s l = some s') :
    KeepsBooks s s' := by
  obtain ⟨hW, hB⟩ := waits_of_reach hr
  obtain ⟨-, hc | ⟨f, -, rfl⟩⟩ := step_cases h
  · refine { key := fun t ht ht' => hc.ioMove.key_eq hW hB ht ht', eof := fun t hn ht => ?_ }
    obtain ⟨ev, dir, ltRead, rest, hp, he, -⟩ := hc.fdEof_rises hn ht
    exact ⟨ev, dir, ltRead, rest, hp, he⟩
  · refine { key := fun _ _ _ => ⟨rfl, rfl, rfl⟩, eof := fun t hn ht => ?_ }
    rw [show s.stFdEof t = true from ht] at hn
    cases hn

theorem eofHandled_of_reach (hr : Runs.Reach step (fun s l => s.signalInTime l = true)
    (State.init m clock isOpen) s) : s.EofHandled := by
  apply invariant_of_reach (I := State.EofHandled) hr
  · rw [init_eq]
    intro t ht
    cases ht
  · intro s s' l hr h _ hc
    obtain ⟨⟨P, hI⟩, -⟩ := exists_inv_of_reach hr fun _ h => h
    exact h.step (eofInWait_of_reach hr fun _ h => h) hI hc
  · intro s f h
    exact h

theorem Inv.not_waiting (hI : Inv s P) (hc : ltCurrent s i = some t) (hp : s.pc t = .user) :
    t ∉ s.waiting := by
  intro hw
  have hrow := (hI.fits t).row
  have hio := hI.toAgree.mem_waiting.mp hw
  simp [view, (hI.toAgree.running hc).2, hp, Run.kind, Row, RunningRow, Wakers.idle, hio] at hrow

/-- When every signal finds its timed waiter still marked as sleeping, the books of the
poller are right in every state and the assertion on the bits of a new waiter holds. -/
theorem poller_books (hr : Runs.Reach step (fun s l => s.signalInTime l = true)
    (State.init m clock isOpen) s) :
    s.PollerBooks ∧ (∀ l s', step s l = some s' → KeepsBooks s s') ∧
    (∀ i t fd e, ltCurrent s i = some t → s.pc t = .user →
      pollerAddWaitingLthread s t fd e ≠ .error .waitBits) ∧ s.Unbroken := by
  obtain ⟨P, hI⟩ := InTimeReach.exists_inv hr
  have hB := (waits_of_reach hr).2
  have hcount := (quits_of_reach hr).counts
  refine ⟨?_, fun l s' h => keepsBooks_step hr h, ?_, InTimeReach.unbroken hr⟩
  · refine { tree := fun t => ⟨hB.one t, fun ht => ?_⟩, clear := hB.none, counts := hcount,
             accounts := ?_, eof := fun t ht => ?_ }
    · by_contra hw
      obtain ⟨h₁, h₂⟩ := hB.none t hw
      exact ht (h₁.trans h₂.symm)
    · intro t ev dir ltRead rest hp
      unfold State.counts at hcount
      rw [hp, PollerPc.inFlight] at hcount
      omega
    · exact ⟨eofInWait_of_reach hr (fun _ h => h) t ht, eofHandled_of_reach hr t ht⟩
  · intro i t fd e hc hp h
    obtain ⟨h₁, h₂⟩ := hB.none t (hI.not_waiting hc hp)
    simp only [State.traffic] at h₁ h₂
    simp only [pollerAddWaitingLthread, h₁, h₂, Bool.or_self, Bool.false_eq_true, ↓reduceIte] at h
    split at h <;> cases h

/-- The event that has ended the wait of the main lthread had the EOF flag. -/
theorem poller_books_eof : ∃ s : State 0,
    Runs.Reach step (fun s l => s.signalInTime l = true) (State.init 0 5 fun _ => false) s ∧
    (s.stFdEof 0 = true ∧ s.pollerPc = .account 0 ⟨3, .read, true⟩ .read none []) ∧
    s.PollerBooks := by
  obtain ⟨s, hr, hs⟩ : ∃ s : State 0,
      Runs.Reach step (fun s l => s.signalInTime l = true) (State.init 0 5 fun _ => false) s ∧
      s.stFdEof 0 = true ∧ s.pollerPc = .account 0 ⟨3, .read, true⟩ .read none [] :=
    Runs.exists_reach_of_run (Label.scheds 0 5 ++ [.call 0 (.socket 3),
      .call 0 (.waitFd 3 .read), .cont 0, .fire 3 .read true, .kevent 1, .poller, .poller])
      (by decide +kernel)
  exact ⟨s, hr, hs, (poller_books hr).1⟩

/-- A timed waiter that a late signal has put in the ready queue is stolen from there, and
its expiry puts it in the ready queue again. It waits for a descriptor, is resumed from the
queue and returns from the wait while it is in the tree; its next wait fails the assertion. -/
theorem poller_books_late_signal : ∃ s : State 1,
    Runs.Reach step (fun _ _ => True) (State.init 1 5 fun _ => false) s ∧
    (ltCurrent s 0 = some 0 ∧ s.pc 0 = .user ∧ s.waiting = [0]) ∧
    pollerAddWaitingLthread s 0 3 .write = .error .waitBits := by
  obtain ⟨s, hr, hs, hb⟩ : ∃ s : State 1,
      Runs.Reach step (fun _ _ => True) (State.init 1 5 fun _ => false) s ∧
      (ltCurrent s 0 = some 0 ∧ s.pc 0 = .user ∧ s.waiting = [0]) ∧ s.stWaitRead 0 = true :=
    Runs.exists_reach_of_run (lateSignal ++ [.call 1 .ret] ++ Label.scheds 1 5 ++
      Label.scheds 0 2 ++ Label.scheds 1 3 ++ [.cont 1, .call 1 (.socket 3),
        .call 1 (.waitFd 3 .read), .cont 1] ++ Label.scheds 1 1 ++ Label.scheds 0 4 ++ [.cont 0])
      (by decide +kernel)
  exact ⟨s, hr, hs, by simp [pollerAddWaitingLthread, hb]⟩

end Lthread
