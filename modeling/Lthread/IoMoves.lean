import Lthread.InvPoller

namespace Lthread

open Function (update update_apply)

variable {m : ℕ} {s s' : State m} {l : Label m}

def eventKey (fd : ℕ) (e : Event) : ℕ := (fdKey (BitVec.ofNat 16 fd) (e = .read)).toNat

theorem fdKey_setWidth (w : BitVec 16) (r : Bool) : (fdKey w r).setWidth 16 = w := by
  unfold fdKey
  split <;> ext i hi <;> simp

theorem fdKey_getLsbD (w : BitVec 16) (r : Bool) : (fdKey w r).getLsbD 16 = !r := by
  cases r <;> simp [fdKey]

theorem eventKey_eq_iff {fd fd' : ℕ} {e e' : Event} :
    eventKey fd e = eventKey fd' e' ↔ fd % 65536 = fd' % 65536 ∧ e = e' := by
  have hofNat : BitVec.ofNat 16 fd = BitVec.ofNat 16 fd' ↔ fd % 65536 = fd' % 65536 := by
    rw [← BitVec.toNat_inj, BitVec.toNat_ofNat, BitVec.toNat_ofNat]
  constructor
  · intro h
    have hk := BitVec.eq_of_toNat_eq h
    have hw := congrArg (BitVec.setWidth 16) hk
    have hb := congrArg (BitVec.getLsbD · 16) hk
    rw [fdKey_setWidth, fdKey_setWidth] at hw
    simp only [fdKey_getLsbD, Bool.not_inj_iff] at hb
    refine ⟨hofNat.mp hw, ?_⟩
    cases e <;> cases e' <;> simp_all
  · rintro ⟨hfd, rfl⟩
    unfold eventKey
    rw [hofNat.mpr hfd]

theorem eventKey_inj {fd fd' : ℕ} {e e' : Event} (hfd : fd < 65536) (hfd' : fd' < 65536)
    (h : eventKey fd e = eventKey fd' e') : fd = fd' ∧ e = e' := by
  obtain ⟨hmod, he⟩ := eventKey_eq_iff.mp h
  rw [Nat.mod_eq_of_lt hfd, Nat.mod_eq_of_lt hfd'] at hmod
  exact ⟨hmod, he⟩

structure Traffic where
  waiting : List ℕ
  stWaitRead : ℕ → Bool
  stWaitWrite : ℕ → Bool
  fdWait : ℕ → BitVec 16
  armed : ℕ → Event → Bool
  fired : List KEvent
  pollerPc : PollerPc

def State.traffic (s : State m) : Traffic where
  waiting := s.waiting
  stWaitRead := s.stWaitRead
  stWaitWrite := s.stWaitWrite
  fdWait := s.fdWait
  armed := s.armed
  fired := s.fired
  pollerPc := s.pollerPc

def Traffic.waitKey (w : Traffic) (t : ℕ) : ℕ := (fdKey (w.fdWait t) (w.stWaitRead t)).toNat

def Traffic.withWait (w : Traffic) (t fd : ℕ) (e : Event) : Traffic :=
  { w with
    stWaitRead := if e = .read then update w.stWaitRead t true else w.stWaitRead
    stWaitWrite := if e = .write then update w.stWaitWrite t true else w.stWaitWrite
    fdWait := update w.fdWait t (BitVec.ofNat 16 fd) }

inductive IoMove (w : Traffic) (pc : ℕ → Pc) : Label m → Traffic → (ℕ → Pc) → Prop where
  | keep {l pc'} (hpc : ∀ t, pc' t = pc t ∨ (pc' t).isWait = false) : IoMove w pc l w pc'
  | add {i t fd e waiting} (hr : w.stWaitRead t = false) (hw : w.stWaitWrite t = false)
      (hi : OrderedTree.insert (w.withWait t fd e).waitKey t w.waiting = some waiting) :
      IoMove w pc (.call i (.waitFd fd e)) { w with
        waiting := waiting
        stWaitRead := (w.withWait t fd e).stWaitRead
        stWaitWrite := (w.withWait t fd e).stWaitWrite
        fdWait := (w.withWait t fd e).fdWait } (update pc t (.register fd e))
  | register {l t fd e} (hp : pc t = .register fd e) :
      IoMove w pc l { w with armed := update w.armed fd (update (w.armed fd) e true) }
        (update pc t (.waitFd fd e))
  | close {i fd} : IoMove w pc (.call i (.close fd)) { w with
      armed := update w.armed fd fun _ => false
      fired := w.fired.filter fun ev => ev.fd ≠ fd } pc
  | fire {l fd e isEof} (ha : w.armed fd e = true) : IoMove w pc l { w with
      armed := update w.armed fd (update (w.armed fd) e false)
      fired := w.fired ++ [⟨fd, e, isEof⟩] } pc
  | inject {ev} : IoMove w pc (.inject ev) { w with fired := w.fired ++ [ev] } pc
  | kevent {l k} (hp : w.pollerPc = .poll) : IoMove w pc l
      { w with pollerPc := nextEvent (w.fired.take k), fired := w.fired.drop k } pc
  | take {t ev dir ltRead rest} (hp : w.pollerPc = .desched ev dir ltRead rest)
      (hm : t ∈ w.waiting) (hk : w.waitKey t = eventKey ev.fd dir) : IoMove w pc .poller { w with
        waiting := w.waiting.erase t
        stWaitRead := if dir = .read then update w.stWaitRead t false else w.stWaitRead
        stWaitWrite := if dir = .write then update w.stWaitWrite t false else w.stWaitWrite
        fdWait := update w.fdWait t (BitVec.ofInt 16 (-1))
        pollerPc := .push t ev dir ltRead rest } pc
  | none {ev dir ltRead rest} (hp : w.pollerPc = .desched ev dir ltRead rest)
      (hn : ∀ t ∈ w.waiting, w.waitKey t ≠ eventKey ev.fd dir) :
      IoMove w pc .poller { w with pollerPc := .after ev dir none rest } pc
  | push {t ev dir ltRead rest} (hp : w.pollerPc = .push t ev dir ltRead rest) :
      IoMove w pc .poller { w with pollerPc := .account t ev dir ltRead rest } pc
  | account {t ev dir ltRead rest} (hp : w.pollerPc = .account t ev dir ltRead rest) :
      IoMove w pc .poller { w with pollerPc := .after ev dir (some t) rest } pc

theorem IoMove.of_update {w : Traffic} {pc pc' : ℕ → Pc} {u : ℕ} {p : Pc}
    (hpc : pc' = update pc u p) (hp : p.isWait = false) : IoMove w pc l w pc' := by
  refine .keep fun v => ?_
  rw [hpc, update_apply]
  split
  · exact .inr hp
  · exact .inl rfl

theorem condSignalled_traffic {c t : ℕ} {next : AfterSignal}
    (h : condSignalled s c t next = .ok s') :
    s'.traffic = s.traffic ∧ ∃ p, s'.pc = update s.pc t p ∧ p.isWait = false := by
  obtain ⟨-, rfl⟩ | ⟨_, -, h₁⟩ := condSignalled_ok h
  · exact ⟨rfl, _, rfl, rfl⟩
  · obtain ⟨-, rfl⟩ := condBlock_ok h₁
    exact ⟨rfl, _, Function.update_idem _ _ _, rfl⟩

theorem pollerDeschedEvent_none {fd : ℕ} {dir : Event}
    (h : (pollerDeschedEvent s fd dir).1 = none) : ∀ t ∈ s.waiting, s.waitKey t ≠ eventKey fd dir := by
  unfold pollerDeschedEvent at h
  split at h
  · exact OrderedTree.find_eq_none ‹_›
  · cases h

theorem StepCase.ioMove (h : StepCase s l s') : IoMove s.traffic s.pc l s'.traffic s'.pc := by
  cases l with
  | sched i b =>
    obtain ⟨_, _, _, _, _, _, _, _, _, _, _, _, _, rfl⟩ := h.sched_frame (.inr ⟨b, rfl⟩)
    exact .keep fun _ => .inl rfl
  | unpark i =>
    obtain ⟨_, _, _, _, _, _, _, _, _, _, _, _, _, rfl⟩ := h.sched_frame (.inl rfl)
    exact .keep fun _ => .inl rfl
  | tick =>
    cases h
    exact .keep fun _ => .inl rfl
  | fire =>
    cases h with
    | fire ha => exact .fire ha
  | inject =>
    cases h
    exact .inject
  | kevent =>
    cases h with
    | kevent hp hk => exact .kevent hp
  | poller =>
    cases h with
    | deschedNone hp hf hs =>
      rw [handledEvent_ok hs]
      exact .none hp (pollerDeschedEvent_none hf)
    | deschedSome hp hf =>
      obtain ⟨hm, hk, hs⟩ := pollerDeschedEvent_some hf
      rw [hs]
      exact .take hp hm hk
    | push hp hf hs =>
      obtain ⟨-, rfl⟩ | ⟨-, rfl⟩ := schedPushReadyUnsafe_ok hs <;> exact .push hp
    | account hp hs =>
      rw [handledEvent_ok hs]
      exact .account hp
  | call i op =>
    cases h with
    | spawn hc hp hs =>
      obtain ⟨-, rfl⟩ | ⟨-, rfl⟩ := schedPushReadyUnsafe_ok hs <;> exact .of_update rfl rfl
    | yield hc hp hs =>
      obtain ⟨-, rfl⟩ := ltYield_ok hs
      exact .keep fun _ => .inl rfl
    | exit hc hp hs =>
      obtain ⟨-, rfl⟩ := ltYield_ok hs
      exact .of_update rfl rfl
    | sleep hc hp hs h₁ =>
      obtain ⟨-, rfl⟩ := ltYield_ok h₁
      obtain ⟨-, rfl⟩ | ⟨-, -, _, _, -, rfl⟩ := schedSleep_ok hs <;> exact .of_update rfl rfl
    | waitFd hc hp hs =>
      obtain ⟨hr, hw, waiting, hi, rfl⟩ := pollerAddWaitingLthread_ok hs
      exact .add hr hw hi
    | condLock hc hp hm hs =>
      obtain ⟨-, rfl⟩ | ⟨-, -, h₁⟩ := condLock_ok hs
      · exact .of_update rfl rfl
      · obtain ⟨-, rfl⟩ := condBlock_ok h₁
        exact .of_update rfl rfl
    | condSignal hc hp hm hs =>
      obtain ⟨-, ⟨-, h₁⟩ | ⟨_, _, -, -, rfl⟩⟩ := condSignal_ok hs
      · obtain ⟨ht, p, hpc, hw⟩ := condSignalled_traffic h₁
        rw [ht]
        exact .of_update hpc hw
      · exact .of_update rfl rfl
    | socket => exact .keep fun _ => .inl rfl
    | close => exact .close
    | ret => exact .of_update rfl rfl
  | cont i =>
    cases h with
    | waitFdReturn | sleepReturn => exact .of_update rfl rfl
    | register hc hp hs h₁ =>
      have hs₁ := pollerRegisterEvent_ok hs
      subst hs₁
      obtain ⟨-, rfl⟩ := ltYield_ok h₁
      exact .register hp
    | condLockReturn hc hp hs =>
      obtain ⟨-, rfl⟩ := condLockReturn_ok hs
      exact .of_update rfl rfl
    | condSleep hc hp hs h₁ =>
      obtain ⟨-, rfl⟩ := ltYield_ok h₁
      obtain ⟨-, rfl⟩ | ⟨-, -, _, _, -, rfl⟩ := schedSleep_ok hs <;> exact .of_update rfl rfl
    | condWaitReturn hc hp hm hs =>
      obtain ⟨-, -, rfl⟩ | ⟨-, -, rfl⟩ | ⟨-, -, rfl⟩ := condWaitReturn_ok hs <;>
        exact .of_update rfl rfl
    | condSignalled hc hp hf hs h₁ =>
      obtain ⟨_, _, _, _, _, _, rfl⟩ := wakeup_frame hs
      obtain ⟨ht, p, hpc, hw⟩ := condSignalled_traffic h₁
      rw [ht]
      exact .of_update hpc hw

end Lthread
