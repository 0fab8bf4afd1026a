import Lthread.InvCond
import Lthread.Runs

namespace Lthread

open Function (update update_apply)

variable {m : ℕ} {s s' : State m} {P : Places m} {i : Fin (m + 1)} {t : ℕ}

theorem pollerDeschedEvent_some {fd : ℕ} {dir : Event}
    (h : (pollerDeschedEvent s fd dir).1 = some t) :
    t ∈ s.waiting ∧ s.waitKey t = (fdKey (BitVec.ofNat 16 fd) (dir = .read)).toNat ∧
    (pollerDeschedEvent s fd dir).2 = { s with
      waiting := s.waiting.erase t
      stWaitRead := if dir = .read then update s.stWaitRead t false else s.stWaitRead
      stWaitWrite := if dir = .write then update s.stWaitWrite t false else s.stWaitWrite
      fdWait := update s.fdWait t (BitVec.ofInt 16 (-1)) } := by
  unfold pollerDeschedEvent at h ⊢
  split at h
  · cases h
  · rename_i u hu
    cases h
    obtain ⟨hm, hk⟩ := OrderedTree.find_eq_some hu
    exact ⟨hm, hk, rfl⟩

theorem nextEvent_hands (l : List KEvent) : (nextEvent l).hands = none := by
  cases l <;> rfl

theorem after_hands (ev : KEvent) (dir : Event) (lt : Option ℕ) (rest : List KEvent) :
    (PollerPc.after ev dir lt rest).hands = none := by
  cases dir
  · rfl
  · exact nextEvent_hands rest

theorem Inv.poll {p : PollerPc} (hI : Inv s P) (ho : s.pollerPc.hands = none) (hp : p.hands = none) :
    Inv { s with pollerPc := p } P :=
  { hI with
    toAgree := { hI.toAgree with hands := fun u => by rw [hp, ← ho]; exact hI.hands u } }

theorem Inv.deschedEvent {fd : ℕ} {dir : Event} {p : PollerPc} (hI : Inv s P)
    (ho : s.pollerPc.hands = none) (hp : p.hands = some t)
    (h : (pollerDeschedEvent s fd dir).1 = some t) :
    ∃ P', Inv { (pollerDeschedEvent s fd dir).2 with pollerPc := p } P' := by
  obtain ⟨hm, -, hs⟩ := pollerDeschedEvent_some h
  have hA := hI.toAgree.desched hm ho hp
  have hio := hI.mem_waiting.mp hm
  have hf := hI.fits t
  have hrow := hf.row
  rw [show (view s P t).io = .waiting from hio] at hrow
  rw [hs]
  refine ⟨_, { hI with toAgree := { hA with }, fits := fits_of_eq (t := t) hI.fits ?_ ?_ }⟩
  · intro u hu
    simp [view, hu]
  · have hfit := hf.rewire (s.needsResched t) (P.tree t) .hands (P.cond t) hrow.desched hf.tree Iff.rfl
    simpa [view] using hfit

theorem Inv.pushEvent {isEof : Bool} {p : PollerPc} (hI : Inv s P) (ho : s.pollerPc.hands = some t)
    (hp : p.hands = none) (h : pollerPushEvent s t isEof = .ok s') :
    ∃ P', Inv { s' with pollerPc := p } P' := by
  have hA := hI.toAgree.handOver ho hp
  have hio : P.io t = .hands := (hI.hands t).mp ho
  have hf := hI.fits t
  have hrow := hf.row
  rw [show (view s P t).io = .hands from hio] at hrow
  obtain ⟨hk, hrow'⟩ | ⟨hk, hrow'⟩ := hrow.push
  · have hoff : P.run t = .off := by
      cases hr : P.run t with
      | off => rfl
      | ready j => simp [view, hr, Run.kind] at hk
      | held j g => cases g <;> simp [view, hr, Run.kind] at hk
    have hcur : s.currentLthread (s.sched t) ≠ some t := by
      rw [Ne, hI.current_iff]
      simp [hoff, Run.kind]
    obtain ⟨hc, -⟩ | ⟨-, rfl⟩ := schedPushReadyUnsafe_ok h
    · exact absurd hc hcur
    · have hB := hA.enqueue (i := s.sched t) hoff
      have hfit := hf.enqueue (P.tree t) .none (P.cond t) hoff hrow' hf.tree Iff.rfl
      have hW : Inv { s with
          stFdEof := if isEof then update s.stFdEof t true else s.stFdEof
          ready := update s.ready (s.sched t) (s.ready (s.sched t) ++ [t])
          pollerPc := p }
          { P with run := update P.run t (.ready (s.sched t)), io := update P.io t .none } := by
        refine { hI with toAgree := { hB with }, fits := fits_of_eq (t := t) hI.fits ?_ ?_ }
        · intro u hu
          simp [view, hu]
        · simpa [view] using hfit
      exact ⟨_, hW.wake (i := s.sched t)⟩
  · have hcur : s.currentLthread (s.sched t) = some t := hI.current_iff.mpr hk
    obtain ⟨-, rfl⟩ | ⟨hc, -⟩ := schedPushReadyUnsafe_ok h
    · have hfit := hf.rewire true (P.tree t) .none (P.cond t) hrow' hf.tree Iff.rfl
      have hW : Inv { s with
          stFdEof := if isEof then update s.stFdEof t true else s.stFdEof
          needsResched := update s.needsResched t true
          pollerPc := p } { P with io := update P.io t .none } := by
        refine { hI with toAgree := { hA with }, fits := fits_of_eq (t := t) hI.fits ?_ ?_ }
        · intro u hu
          simp [view, hu]
        · simpa [view] using hfit
      exact ⟨_, hW.wake (i := s.sched t)⟩
    · exact absurd hcur hc

/-- A signal finds a timed waiter while its `sleep_usecs` still says that it is in
the sleeping tree. -/
def State.signalInTime (s : State m) : Label m → Bool
  | .cont i =>
    match (ltCurrent s i).map s.pc with
    | some (.condSignal _ u _) => !(s.pc u).isTimedWait || s.sleepUsecs u ≠ 0
    | _ => true
  | _ => true

theorem sleepUsecs_of_signalInTime {c u : ℕ} {next : AfterSignal}
    (hg : s.signalInTime (.cont i) = true) (hc : ltCurrent s i = some t)
    (hp : s.pc t = .condSignal c u next) (hw : (s.pc u).isTimedWait = true) : s.sleepUsecs u ≠ 0 := by
  simpa [State.signalInTime, hc, hp, hw] using hg

theorem Inv.step {l : Label m} (hI : Inv s P) (hg : s.signalInTime l = true) (h : StepCase s l s') :
    ∃ P', Inv s' P' := by
  cases h with
  | tick usecs => exact ⟨P, { hI with }⟩
  | clockRead h => exact ⟨P, hI.pass (by rw [h]; rfl) rfl⟩
  | expired h h₁ =>
    obtain ⟨P₁, hI₁, ho⟩ := hI.expireLoop (by rw [h]; rfl) h₁
    exact ⟨P₁, hI₁.pass ho rfl⟩
  | probeFail h hp =>
    refine ⟨P, hI.pass ?_ ?_⟩
    · obtain h | ⟨v, h⟩ := h <;> rw [h] <;> rfl
    · obtain rfl | ⟨v, rfl⟩ := hp <;> rfl
  | popEmpty h _ => exact ⟨P, hI.pass (by rw [h]; rfl) rfl⟩
  | pop h hr hp => exact ⟨_, hI.pop h hr hp⟩
  | wakeNeighbor h h₁ =>
    refine ⟨P, hI.wakeNeighbor ?_ h₁⟩
    intro s₁ hs hI₁
    exact hI₁.woken (hs.trans h)
  | setSched h => exact ⟨P, hI.setSched h⟩
  | resume h h₁ => exact hI.resumeEnter h h₁
  | leave h h₁ => exact hI.resumeLeave h h₁
  | block h h₁ => exact ⟨P, hI.schedBlock h h₁⟩
  | deepSleep h => exact ⟨P, hI.deepSleep h⟩
  | finish h h₁ =>
    refine ⟨P, hI.wakeNeighbor ?_ h₁⟩
    intro s₁ hs hI₁
    exact hI₁.pass (by rw [hs, h]; rfl) rfl
  | unpark h => exact ⟨P, hI.unpark h⟩
  | spawn hc hp h => exact hI.spawn h
  | yield hc hp h => exact hI.yield hc hp h
  | sleep hc hp h h₁ => exact hI.sleep hc hp h h₁
  | waitFd hc hp h => exact hI.addWaiting hc hp h
  | condLock hc hp hm h => exact hI.condLock hc hp hm h
  | condSignal hc hp hm h => exact hI.condSignal hc hp hm h
  | socket hc hp ho => exact ⟨P, { hI with }⟩
  | close hc hp => exact ⟨P, { hI with }⟩
  | exit hc hp h =>
    obtain ⟨-, rfl⟩ := ltYield_ok h
    exact hI.finish hc hp (.inl ⟨rfl, rfl⟩)
  | ret hc hp => exact hI.finish hc hp (.inr ⟨rfl, rfl⟩)
  | register hc hp h h₁ => exact hI.register hc hp h h₁
  | waitFdReturn hc hp => exact ⟨P, hI.return hc (.inr ⟨_, _, hp⟩)⟩
  | sleepReturn hc hp => exact ⟨P, hI.return hc (.inl ⟨_, hp⟩)⟩
  | condLockReturn hc hp h =>
    obtain ⟨ho, rfl⟩ := condLockReturn_ok h
    exact ⟨P, hI.condReturn hc ho (.inl hp) (.inl rfl)⟩
  | condSleep hc hp h h₁ => exact hI.condSleep hc hp h h₁
  | condWaitReturn hc hp hm h => exact hI.condWaitReturn hc hp hm h
  | condSignalled hc hp hf h h₁ => exact hI.condSignalled hc hp (sleepUsecs_of_signalInTime hg hc hp) h h₁
  | deschedNone hp hf h =>
    rw [handledEvent_ok h]
    exact ⟨P, hI.poll (by rw [hp]; rfl) (after_hands _ _ _ _)⟩
  | deschedSome hp hf => exact hI.deschedEvent (by rw [hp]; rfl) rfl hf
  | push hp hf h => exact hI.pushEvent (by rw [hp]; rfl) rfl h
  | account hp h =>
    rw [handledEvent_ok h]
    exact ⟨P, { hI.poll (by rw [hp]; rfl) (after_hands _ _ _ _) with }⟩
  | kevent hp hk => exact ⟨P, { hI.poll (by rw [hp]; rfl) (nextEvent_hands _) with }⟩
  | fire ha => exact ⟨P, { hI with }⟩
  | inject ev => exact ⟨P, { hI with }⟩

end Lthread
