import Lthread.CondSafety

namespace Lthread

open Function (update update_apply)

variable {m : ℕ}

/-- Who has entered the blocked queue of each condition variable and who has been handed
ownership from there, in order. -/
structure QueueHistory where
  entered : ℕ → List ℕ
  granted : ℕ → List ℕ

def QueueHistory.empty : QueueHistory := ⟨fun _ => [], fun _ => []⟩

/-- The lthreads that a step adds to the blocked queue of `c`. -/
def enters (s s' : State m) (c : ℕ) : List ℕ :=
  (s'.blockedLthreads c).filter fun t => t ∉ s.blockedLthreads c

/-- The lthread of the blocked queue of `c` that a step makes the owner. -/
def grants (s s' : State m) (c : ℕ) : List ℕ :=
  match s'.owner c with
  | some t => if t ∈ s.blockedLthreads c ∧ s.owner c ≠ some t then [t] else []
  | none => []

def QueueHistory.note (h : QueueHistory) (s : State m) (_ : Label m) (s' : State m) :
    QueueHistory where
  entered c := h.entered c ++ enters s s' c
  granted c := h.granted c ++ grants s s' c

abbrev stepQueues : State m × QueueHistory → Label m → Option (State m × QueueHistory) :=
  Runs.withHistory step QueueHistory.note

def Label.waitsUntimed : Label m → Bool
  | .call _ (.condWait _ timeout) => !isTimed timeout
  | _ => true

def Pc.waitsUntimed : Pc → Bool
  | .condSleep _ timeout _ | .condWake _ timeout _ | .condSignal _ _ (.wait timeout) => !isTimed timeout
  | _ => true

variable {s s' : State m} {P : Places m} {l : Label m} {h : QueueHistory} {i : Fin (m + 1)}
  {t c d : ℕ} {clock : ℕ} {isOpen : ℕ → Bool}

theorem PcMove.waitsUntimed {p q : Pc} (h : PcMove l p q) (hl : l.waitsUntimed = true)
    (hp : p.waitsUntimed = true) : q.waitsUntimed = true := by
  cases h with
  | @signals _ _ _ next =>
    cases next with
    | unlock => rfl
    | wait timeout => exact hl
  | waits => exact hl
  | condSleep | signalled => exact hp
  | sleep | waitFd | locks | blocks | exit | ret | register | relocks | back => rfl

theorem Pc.not_isTimedWait_of_waitsUntimed {p : Pc} (h : p.waitsUntimed = true) :
    p.isTimedWait = false := by
  cases p <;> simp_all [Pc.waitsUntimed, Pc.isTimedWait]

abbrev PlainReach (clock : ℕ) (isOpen : ℕ → Bool) : State m → Prop :=
  Runs.Reach step (fun _ l => l.waitsUntimed = true) (State.init m clock isOpen)

theorem PlainReach.waitsUntimed (hr : PlainReach clock isOpen s) (u : ℕ) :
    (s.pc u).waitsUntimed = true := by
  refine invariant_of_reach (I := fun s => ∀ u, (s.pc u).waitsUntimed = true) hr ?_ ?_ ?_ u
  · rw [init_eq]
    intro u
    by_cases hu : u = 0 <;> simp [hu, Pc.waitsUntimed]
  · rintro s s' l - hU hl hc
    exact hc.pcStep.forall_pc (Q := fun p => p.waitsUntimed = true) hU
      (fun hm hp => hm.waitsUntimed hl hp) rfl
  · intro s f hU
    exact hU

theorem PlainReach.signalInTime (hr : PlainReach clock isOpen s) (l : Label m) :
    s.signalInTime l = true :=
  signalInTime_of_not_isTimedWait
    (fun u => Pc.not_isTimedWait_of_waitsUntimed (hr.waitsUntimed u)) l

theorem PlainReach.exists_inv (hr : PlainReach clock isOpen s) : ∃ P, Inv s P :=
  (exists_inv_of_reach hr fun h _ => PlainReach.signalInTime h _).1

theorem PlainReach.unbroken (hr : PlainReach clock isOpen s) : s.Unbroken :=
  unbroken_of_reach hr fun h _ => PlainReach.signalInTime h _

def Pc.inWait (c : ℕ) : Pc → Prop
  | .condSleep d _ .wait | .condWake d _ .wait => d = c
  | _ => False

inductive QueueStep (s s' : State m) (c : ℕ) : Prop where
  | keep (ho : s'.owner c = s.owner c) (hb : s'.blockedLthreads c = s.blockedLthreads c)
  | acquire {t : ℕ} (h : s.owner c = none) (ho : s'.owner c = some t) (ht : t ∉ s.blockedLthreads c)
      (hb : s'.blockedLthreads c = s.blockedLthreads c)
  | block {t : ℕ} (h : s.owner c ≠ none) (ho : s'.owner c = s.owner c) (ht : t ∉ s.blockedLthreads c)
      (hb : s'.blockedLthreads c = s.blockedLthreads c ++ [t])
  | release (h : s.blockedLthreads c = []) (ho : s'.owner c = none) (hb : s'.blockedLthreads c = [])
  | wait {t : ℕ} (h : s.blockedLthreads c = []) (ho : s'.owner c = none)
      (hb : s'.blockedLthreads c = [t]) (hp : (s'.pc t).inWait c)
  | hand {u : ℕ} {rest : List ℕ} (h : s.blockedLthreads c = u :: rest) (hn : s.owner c ≠ some u)
      (ho : s'.owner c = some u) (hb : s'.blockedLthreads c = rest)

theorem QueueStep.of_one (ho : ∀ c, c ≠ d → s'.owner c = s.owner c)
    (hb : ∀ c, c ≠ d → s'.blockedLthreads c = s.blockedLthreads c) (h : QueueStep s s' d) :
    QueueStep s s' c := by
  by_cases hc : c = d
  · rw [hc]
    exact h
  · exact .keep (ho c hc) (hb c hc)

theorem QueueStep.of_frame (ho : s'.owner = s.owner) (hb : s'.blockedLthreads = s.blockedLthreads) :
    QueueStep s s' c :=
  .keep (by rw [ho]) (by rw [hb])

theorem Inv.not_blocked (hI : Inv s P) (hc : ltCurrent s i = some t)
    (hp : s.pc t = .user ∨ ∃ c u k, s.pc t = .condSignal c u k) : t ∉ s.blockedLthreads c := by
  intro hb
  have hcond : P.cond t = .blocked c := hI.toAgree.mem_blocked.mp hb
  have hidle := (hI.fits t).idle (hI.toAgree.running hc).2
    (hp.imp_right fun h => .inr (.inr (.inr h)))
  rw [show (view s P t).cond = .blocked c from hcond] at hidle
  cases hidle.2.2.2.1

theorem Inv.owner_of_signal {u : ℕ} {next : AfterSignal} (hI : Inv s P)
    (hp : s.pc t = .condSignal c u next) : s.owner c = some u := by
  have hcond : P.cond u = .hands c := (hI.signal c u).mp ⟨t, next, hp⟩
  have hrow := (hI.fits u).row
  rw [show (view s P u).cond = .hands c from hcond] at hrow
  obtain ⟨timeout, call, howns, -, -, hpu⟩ := hrow.hands
  have hpc : s.pc u = .condSleep c timeout call ∨ s.pc u = .condWake c timeout call := by
    obtain ⟨hpu, -⟩ | ⟨hpu, -⟩ | ⟨hpu, -⟩ | ⟨hpu, -⟩ := hpu
    · exact .inl hpu
    · exact .inr hpu
    · exact .inr hpu
    · exact .inr hpu
  simp only [view] at howns
  obtain hpc | hpc := hpc
  · simpa [hpc, Pc.owns] using howns
  · simpa [hpc, Pc.owns] using howns

theorem condSignalled_queueStep {next : AfterSignal} {s₁ : State m}
    (h : condSignalled s₁ c t next = .ok s') : s'.owner = s₁.owner ∧
      ((next = .unlock ∧ s'.blockedLthreads = s₁.blockedLthreads) ∨
        ∃ timeout, next = .wait timeout ∧ s'.pc t = .condSleep c timeout .wait ∧
          s'.blockedLthreads = update s₁.blockedLthreads c (s₁.blockedLthreads c ++ [t])) := by
  obtain ⟨hn, rfl⟩ | ⟨timeout, hn, h₁⟩ := condSignalled_ok h
  · exact ⟨rfl, .inl ⟨hn, rfl⟩⟩
  · obtain ⟨-, rfl⟩ := condBlock_ok h₁
    exact ⟨rfl, .inr ⟨timeout, hn, Function.update_self .., rfl⟩⟩

theorem StepCase.queueStep_call {op : Op} (hI : Inv s P) (h : StepCase s (.call i op) s') :
    QueueStep s s' c := by
  cases h with
  | spawn hc hp h =>
    obtain ⟨-, rfl⟩ | ⟨-, rfl⟩ := schedPushReadyUnsafe_ok h <;> exact .of_frame rfl rfl
  | sleep hc hp h h₁ =>
    obtain ⟨-, rfl⟩ := ltYield_ok h₁
    obtain ⟨-, rfl⟩ | ⟨-, -, _, _, -, rfl⟩ := schedSleep_ok h <;> exact .of_frame rfl rfl
  | waitFd hc hp h =>
    obtain ⟨-, -, _, -, rfl⟩ := pollerAddWaitingLthread_ok h
    exact .of_frame rfl rfl
  | yield hc hp h | exit hc hp h =>
    obtain ⟨-, rfl⟩ := ltYield_ok h
    exact .of_frame rfl rfl
  | ret | socket | close => exact .of_frame rfl rfl
  | @condLock _ t d _ hc hp hm h =>
    obtain ⟨ho, rfl⟩ | ⟨ho, -, h₁⟩ := condLock_ok h
    · refine QueueStep.of_one (d := d) (fun c hcd => Function.update_of_ne hcd ..) (fun _ _ => rfl) ?_
      exact .acquire ho (Function.update_self ..) (hI.not_blocked hc (.inl hp)) rfl
    · obtain ⟨-, rfl⟩ := condBlock_ok h₁
      refine QueueStep.of_one (d := d) (fun _ _ => rfl) (fun c hcd => Function.update_of_ne hcd ..) ?_
      exact .block ho rfl (hI.not_blocked hc (.inl hp)) (Function.update_self ..)
  | @condSignal _ t d next _ hc hp hm h =>
    have hfree := hI.not_blocked (c := d) hc (.inl hp)
    obtain ⟨ho, ⟨hb, h₁⟩ | ⟨u, rest, hb, -, rfl⟩⟩ := condSignal_ok h
    · obtain ⟨ho', hq⟩ := condSignalled_queueStep h₁
      have howner : ∀ c, c ≠ d → s'.owner c = s.owner c := by
        intro c hcd
        rw [ho']
        exact Function.update_of_ne hcd ..
      have hnone : s'.owner d = none := by
        rw [ho']
        exact Function.update_self ..
      obtain ⟨-, hb'⟩ | ⟨timeout, -, hpc, hb'⟩ := hq
      · refine QueueStep.of_one (d := d) howner (fun c _ => by rw [hb']) ?_
        exact .release hb hnone (by rw [hb']; exact hb)
      · refine QueueStep.of_one (d := d) howner ?_ ?_
        · intro c hcd
          rw [hb']
          exact Function.update_of_ne hcd ..
        · refine .wait (t := t) hb hnone ?_ ?_
          · rw [hb', Function.update_self]
            simp [hb]
          · rw [hpc]
            rfl
    · refine QueueStep.of_one (d := d) (fun c hcd => Function.update_of_ne hcd ..)
        (fun c hcd => Function.update_of_ne hcd ..) ?_
      refine .hand hb ?_ (Function.update_self ..) (Function.update_self ..)
      rw [ho]
      rintro ⟨⟩
      exact hfree (by simp [hb])

theorem Inv.owner_of_condWake {timeout : BitVec 64} {call : CondCall} (hI : Inv s P)
    (hc : ltCurrent s i = some t) (hp : s.pc t = .condWake c timeout call)
    (hu : isTimed timeout = false) : s.owner c = some t ∧ t ∉ s.blockedLthreads d := by
  have hrow := (hI.fits t).row
  simp only [view, (hI.toAgree.running hc).2, hp, Run.kind, Row, RunningRow, WokenRow, Pc.owns, hu,
    Bool.false_eq_true, false_and, or_false, decide_eq_true_eq, Wakers.idle, Wakers.mk.injEq] at hrow
  refine ⟨hrow.1.2, fun hb => ?_⟩
  rw [hI.toAgree.mem_blocked, hrow.1.1.2.2.2] at hb
  cases hb

theorem StepCase.queueStep_cont (hI : Inv s P) (hU : ∀ u, (s.pc u).waitsUntimed = true)
    (h : StepCase s (.cont i) s') : QueueStep s s' c := by
  cases h with
  | waitFdReturn | sleepReturn => exact .of_frame rfl rfl
  | register hc hp h h₁ =>
    have hs := pollerRegisterEvent_ok h
    subst hs
    obtain ⟨-, rfl⟩ := ltYield_ok h₁
    exact .of_frame rfl rfl
  | condLockReturn hc hp h =>
    obtain ⟨ho, rfl⟩ := condLockReturn_ok h
    exact .of_frame rfl rfl
  | condSleep hc hp h h₁ =>
    obtain ⟨-, rfl⟩ := ltYield_ok h₁
    obtain ⟨-, rfl⟩ | ⟨-, -, _, _, -, rfl⟩ := schedSleep_ok h <;> exact .of_frame rfl rfl
  | @condWaitReturn _ t d timeout call _ hc hp hm h =>
    have hu := hU t
    rw [hp] at hu
    have howner := (hI.owner_of_condWake (d := d) hc hp (by simpa [Pc.waitsUntimed] using hu)).1
    obtain ⟨ho, -, -⟩ | ⟨-, -, rfl⟩ | ⟨-, -, rfl⟩ := condWaitReturn_ok h
    · exact absurd howner ho
    · exact .of_frame rfl rfl
    · exact .of_frame rfl rfl
  | @condSignalled _ t d u next s₁ _ hc hp hf h h₁ =>
    have howner := hI.owner_of_signal hp
    have hfree := hI.not_blocked (c := d) hc (.inr ⟨d, u, next, hp⟩)
    obtain ⟨_, _, _, _, _, _, rfl⟩ := wakeup_frame h
    obtain ⟨ho', ⟨-, hb'⟩ | ⟨timeout, -, -, hb'⟩⟩ := condSignalled_queueStep h₁
    · exact .of_frame ho' hb'
    · refine QueueStep.of_one (d := d) (fun c _ => by rw [ho']) ?_ ?_
      · intro c hcd
        rw [hb']
        exact Function.update_of_ne hcd ..
      · refine .block (t := t) (by simp [howner]) (by rw [ho']) hfree ?_
        rw [hb', Function.update_self]

theorem StepCase.queueStep (hI : Inv s P) (hU : ∀ u, (s.pc u).waitsUntimed = true)
    (h : StepCase s l s') : QueueStep s s' c := by
  obtain hf | ⟨i, rfl | ⟨op, rfl⟩⟩ := h.system_or_code
  · exact .of_frame hf.owner hf.blockedLthreads
  · exact h.queueStep_cont hI hU
  · exact h.queueStep_call hI

theorem enters_eq_nil (h : s'.blockedLthreads c ⊆ s.blockedLthreads c) : enters s s' c = [] := by
  unfold enters
  rw [List.filter_eq_nil_iff]
  intro t ht
  simpa using h ht

theorem grants_eq_nil (h : ∀ t, s'.owner c = some t → t ∈ s.blockedLthreads c → s.owner c = some t) :
    grants s s' c = [] := by
  unfold grants
  split
  · rename_i t ho
    exact if_neg fun ht => ht.2 (h t ho ht.1)
  · rfl

theorem QueueStep.served (h : QueueStep s s' c) {entered granted : List ℕ}
    (hq : entered = granted ++ s.blockedLthreads c) :
    entered ++ enters s s' c = (granted ++ grants s s' c) ++ s'.blockedLthreads c := by
  subst hq
  cases h with
  | keep ho hb =>
    rw [enters_eq_nil (by rw [hb]; exact List.Subset.refl _), grants_eq_nil, hb]
    · simp
    · rw [ho]
      exact fun t h _ => h
  | acquire h ho ht hb =>
    rw [enters_eq_nil (by rw [hb]; exact List.Subset.refl _), grants_eq_nil, hb]
    · simp
    · intro u hu hmem
      cases ho.symm.trans hu
      exact absurd hmem ht
  | @block t h ho ht hb =>
    have henters : enters s s' c = [t] := by
      simp [enters, hb, List.filter_append, ht]
    rw [henters, grants_eq_nil (by rw [ho]; exact fun t h _ => h), hb]
    simp
  | release h ho hb => rw [enters_eq_nil (by simp [hb]), grants_eq_nil (by simp [ho]), h, hb]
  | @wait t h ho hb hp =>
    have henters : enters s s' c = [t] := by simp [enters, h, hb]
    rw [henters, grants_eq_nil (by simp [ho]), h, hb]
  | @hand u rest h hn ho hb =>
    have hgrants : grants s s' c = [u] := by simp [grants, h, ho, hn]
    rw [enters_eq_nil (by rw [h, hb]; exact List.subset_cons_self u rest), hgrants, h, hb]
    simp

def State.LoneWaiter (s : State m) (c : ℕ) : Prop :=
  s.owner c = none → s.blockedLthreads c = [] ∨ ∃ t, s.blockedLthreads c = [t] ∧ (s.pc t).inWait c

theorem StepCase.inWait_of_blocked (hI : Inv s P) (hU : ∀ u, (s.pc u).waitsUntimed = true)
    (h : StepCase s l s') (hb : t ∈ s.blockedLthreads c) (hp : (s.pc t).inWait c) :
    (s'.pc t).inWait c := by
  cases h.pcStep with
  | keep hpc => rwa [hpc]
  | @move i u q hl hc hm hpc =>
    rw [hpc]
    by_cases hut : t = u
    · subst hut
      rw [Function.update_self]
      have hu := hU t
      cases hpt : s.pc t with
      | condSleep d timeout call =>
        rw [hpt] at hm hp
        cases hm with
        | condSleep =>
          cases call with
          | lock => exact hp.elim
          | wait => exact hp
        | back h => cases h
      | condWake d timeout call =>
        rw [hpt] at hu
        exact absurd hb (hI.owner_of_condWake hc hpt (by simpa [Pc.waitsUntimed] using hu)).2
      | _ =>
        rw [hpt] at hp
        exact hp.elim
    · rwa [Function.update_of_ne hut]
  | spawn hl hpc =>
    rw [hpc]
    by_cases hut : t = s.numLthreads
    · subst hut
      rw [(hI.unborn s.numLthreads).mpr le_rfl] at hp
      exact hp.elim
    · rwa [Function.update_of_ne hut]

theorem State.LoneWaiter.step (hL : s.LoneWaiter c) (hI : Inv s P)
    (hU : ∀ u, (s.pc u).waitsUntimed = true) (h : StepCase s l s') : s'.LoneWaiter c := by
  intro hn
  have hq : QueueStep s s' c := h.queueStep hI hU
  cases hq with
  | keep ho hb =>
    rw [hb]
    obtain hnil | ⟨t, ht, hp⟩ := hL (ho.symm.trans hn)
    · exact .inl hnil
    · exact .inr ⟨t, ht, h.inWait_of_blocked hI hU (by simp [ht]) hp⟩
  | acquire _ ho | hand _ _ ho =>
    rw [hn] at ho
    cases ho
  | block hne ho => exact absurd (ho.symm.trans hn) hne
  | release _ _ hb => exact .inl hb
  | @wait t _ _ hb hp => exact .inr ⟨t, hb, hp⟩

abbrev QueuesReach (clock : ℕ) (isOpen : ℕ → Bool) : State m × QueueHistory → Prop :=
  Runs.Reach stepQueues (fun _ l => l.waitsUntimed = true) (State.init m clock isOpen, .empty)

/-- Nobody is left blocked at a free condition variable but one lthread that waits there, and
ownership is handed to the lthreads of the queue in the order in which they have entered it.
A call that is not allowed fails its assertion and ends the run. -/
theorem cond_serves_in_order {p : State m × QueueHistory} (hr : QueuesReach clock isOpen p) (c : ℕ) :
    (p.1.owner c = none → (p.1.blockedLthreads c).length ≤ 1 ∧
      ∀ t ∈ p.1.blockedLthreads c, (p.1.pc t).inWait c) ∧
    p.2.entered c = p.2.granted c ++ p.1.blockedLthreads c ∧ p.1.Unbroken := by
  have h : p.1.LoneWaiter c ∧ p.2.entered c = p.2.granted c ++ p.1.blockedLthreads c := by
    refine hr.history (I := fun s h => s.LoneWaiter c ∧
      h.entered c = h.granted c ++ s.blockedLthreads c) ?_ ?_
    · rw [init_eq]
      exact ⟨fun _ => .inl rfl, rfl⟩
    · rintro s s' h l hr ⟨hL, hq⟩ hl hs
      have hr' : PlainReach clock isOpen s := hr.forget fun _ _ h => h
      obtain ⟨P, hI⟩ := hr'.exists_inv
      obtain ⟨-, hc | ⟨f, -, rfl⟩⟩ := step_cases hs
      · exact ⟨hL.step hI hr'.waitsUntimed hc, (hc.queueStep hI hr'.waitsUntimed).served hq⟩
      · exact ⟨hL, (QueueStep.of_frame rfl rfl).served hq⟩
  have hr' : PlainReach clock isOpen p.1 := hr.forget fun _ _ h => h
  refine ⟨fun ho => ?_, h.2, hr'.unbroken⟩
  obtain hnil | ⟨t, ht, hp⟩ := h.1 ho
  · simp [hnil]
  · rw [ht]
    refine ⟨le_rfl, fun u hu => ?_⟩
    rw [List.mem_singleton.mp hu]
    exact hp

/-- Two lthreads wait in turn, each hands the condition variable to the other one, and the
second one waits again. -/
theorem cond_serves_in_order_twice : ∃ p : State 0 × QueueHistory, QueuesReach 5 (fun _ => false) p ∧
    (p.1.owner 0 = none ∧ p.1.blockedLthreads 0 = [1] ∧ p.2.granted 0 = [0, 1]) ∧
    p.2.entered 0 = [0, 1, 1] ∧ (p.1.pc 1).inWait 0 := by
  obtain ⟨p, hr, ho, hb, hg⟩ : ∃ p : State 0 × QueueHistory, QueuesReach 5 (fun _ => false) p ∧
      p.1.owner 0 = none ∧ p.1.blockedLthreads 0 = [1] ∧ p.2.granted 0 = [0, 1] :=
    Runs.exists_reach_of_run (Label.scheds 0 5 ++ [.call 0 .spawn, .call 0 (.condLock 0), .cont 0,
      .call 0 (.condWait 0 0), .cont 0] ++ Label.scheds 0 6 ++ [.call 0 (.condLock 0), .cont 0,
      .call 0 (.condWait 0 0), .cont 0, .cont 0] ++ Label.scheds 0 6 ++ [.cont 0,
      .call 0 (.condUnlockSignal 0), .cont 0, .call 0 .ret] ++ Label.scheds 0 6 ++ [.cont 0,
      .call 0 (.condWait 0 0)]) (by decide +kernel)
  obtain ⟨hfree, hq, -⟩ := cond_serves_in_order hr 0
  exact ⟨p, hr, ⟨ho, hb, hg⟩, by rw [hq, hg, hb]; rfl, (hfree ho).2 1 (by simp [hb])⟩

end Lthread
