import Lthread.AgreeMoves

namespace Lthread

open Function (update update_apply)

variable {m : ℕ} {s s' : State m} {P P' : Places m} {i : Fin (m + 1)} {t : ℕ}

theorem fits_of_eq (hf : ∀ u, Fits (view s P u)) (hv : ∀ u, u ≠ t → view s' P' u = view s P u)
    (ht : Fits (view s' P' t)) : ∀ u, Fits (view s' P' u) := by
  intro u
  by_cases hu : u = t
  · exact hu ▸ ht
  · exact hv u hu ▸ hf u

theorem resume_update {p : SchedPc m} {sched : ℕ → Fin (m + 1)}
    (h : ∀ i t, s.schedPc i = .resume t → sched t = i) (hp : ∀ t, p = .resume t → sched t = i) :
    ∀ j t, update s.schedPc i p j = .resume t → sched t = j := by
  intro j u hj
  by_cases hji : j = i
  · subst hji
    rw [Function.update_self] at hj
    exact hp u hj
  · rw [Function.update_of_ne hji] at hj
    exact h j u hj

theorem SchedPc.signal_eq_resume {p : SchedPc m} (h : p.signal = .resume t) : p = .resume t := by
  cases p <;> simp_all [SchedPc.signal]

theorem schedWakeUnsafe_resume {k : Fin (m + 1)}
    (h : (schedWakeUnsafe s i).schedPc k = .resume t) : s.schedPc k = .resume t := by
  cases hb : s.blockState i with
  | willBlock | wontBlock => simpa [schedWakeUnsafe, hb] using h
  | isBlocking =>
    by_cases hk : k = i
    · subst hk
      exact SchedPc.signal_eq_resume (by simpa [schedWakeUnsafe, hb] using h)
    · simpa [schedWakeUnsafe, hb, hk] using h

theorem Inv.wake (hI : Inv s P) : Inv (schedWakeUnsafe s i) P :=
  { hI with
    toAgree := hI.toAgree.wake
    resume := fun k u h => hI.resume k u (schedWakeUnsafe_resume h) }

theorem SchedPc.current_of_holds {p : SchedPc m} (h : p.holds = none) : p.current = none := by
  cases p <;> simp_all [SchedPc.holds, SchedPc.current]

theorem Inv.pass {p : SchedPc m} (hI : Inv s P) (ho : (s.schedPc i).holds = none)
    (hp : p.holds = none) : Inv { s with schedPc := update s.schedPc i p } P := by
  have hc : p.current = (s.schedPc i).current := by
    rw [SchedPc.current_of_holds hp, SchedPc.current_of_holds ho]
  refine { hI with toAgree := hI.toAgree.pass ho hp hc, resume := ?_ }
  apply resume_update hI.resume
  rintro u rfl
  simp [SchedPc.holds] at hp

theorem SchedPc.probe_holds {p : SchedPc m} {v : Fin (m + 1)} (h : p.probe i = some v) :
    p.holds = none ∧ p.current = none := by
  cases p <;> simp_all [SchedPc.probe, SchedPc.holds, SchedPc.current]

theorem Inv.pop {v : Fin (m + 1)} {rest : List ℕ} {p : SchedPc m} (hI : Inv s P)
    (h : (s.schedPc i).probe i = some v) (hr : s.ready v = t :: rest)
    (hp : p = .setSched t ∨ p = .wakeNeighbor t) :
    Inv { s with ready := update s.ready v rest, schedPc := update s.schedPc i p }
      { P with run := update P.run t (.held i .popped) } := by
  have ht : P.run t = .ready v := hI.mem_ready.mp (by simp [hr])
  obtain ⟨ho, hc⟩ := SchedPc.probe_holds h
  have hA := hI.toAgree.pop (p := p) hr ho hc (by obtain rfl | rfl := hp <;> rfl)
    (by obtain rfl | rfl := hp <;> rfl)
  refine { hI with toAgree := hA, fits := fits_of_eq (t := t) hI.fits ?_ ?_, resume := ?_ }
  · intro u hu
    simp [view, hu]
  · simpa [view] using (hI.fits t).pop (i := i) ht
  · apply resume_update hI.resume
    obtain rfl | rfl := hp <;> simp

theorem Inv.wakeNeighbor {next : SchedPc m} (hI : Inv s P)
    (hn : ∀ {s₁ : State m}, s₁.schedPc i = s.schedPc i → Inv s₁ P →
      Inv { s₁ with schedPc := update s₁.schedPc i next } P)
    (h : wakeNeighbor s i next = some s') : Inv s' P := by
  obtain ⟨_, rfl⟩ | ⟨hne, _, rfl⟩ := wakeNeighbor_some h
  · exact hn rfl hI
  · have hw : Inv (schedWakeUnsafe s (schedNeighbor i)) P := hI.wake
    refine hn ?_ hw
    cases hb : s.blockState (schedNeighbor i) <;> simp [schedWakeUnsafe, hb, hne.symm]

theorem Inv.woken (hI : Inv s P) (h : s.schedPc i = .wakeNeighbor t) :
    Inv { s with schedPc := update s.schedPc i (.setSched t) } P := by
  have ho : (s.schedPc i).holds = some (t, .popped) := by rw [h]; rfl
  have hc : ∀ k, s.currentLthread k = (update s.schedPc i (.setSched t) k).current := by
    intro k
    rw [hI.current k]
    by_cases hk : k = i
    · subst hk
      simp [h, SchedPc.current]
    · rw [Function.update_of_ne hk]
  have hA := hI.toAgree.hold ho rfl hc
  rw [← (hI.held i t .popped).mp ho, Function.update_eq_self] at hA
  exact { hI with toAgree := hA, resume := resume_update hI.resume (by simp) }

theorem Inv.setSched (hI : Inv s P) (h : s.schedPc i = .setSched t) :
    Inv { s with sched := update s.sched t i, schedPc := update s.schedPc i (.resume t) } P := by
  have ho : (s.schedPc i).holds = some (t, .popped) := by rw [h]; rfl
  have ht := (hI.held i t .popped).mp ho
  have hc : ∀ k, s.currentLthread k = (update s.schedPc i (.resume t) k).current := by
    intro k
    rw [hI.current k]
    by_cases hk : k = i
    · subst hk
      simp [h, SchedPc.current]
    · rw [Function.update_of_ne hk]
  have hA := hI.toAgree.hold ho rfl hc
  have he : ({ P with run := update P.run t (.held i .popped) } : Places m) = P := by
    rw [← ht, Function.update_eq_self]
  rw [he] at hA
  have htree : P.tree t = none := by
    have hrow := (hI.fits t).row
    simp only [view, ht, Run.kind, Row] at hrow
    cases hp : s.pc t <;> simp_all [ReadyRow, WokenRow, Wakers.idle, Wakers.onCond]
    grind
  refine { hI with
    toAgree := { hA with }, fits := fits_of_eq (t := t) hI.fits ?_ ?_, resume := ?_ }
  · intro u hu
    simp [view, hu]
  · simpa [view] using (hI.fits t).setSched ht htree
  · intro k u hk
    dsimp only at hk ⊢
    by_cases hki : k = i
    · subst hki
      rw [Function.update_self] at hk
      cases hk
      simp
    · rw [Function.update_of_ne hki] at hk
      have hu : u ≠ t := by
        rintro rfl
        have hrun := (hI.held k u .popped).mp (by rw [hk]; rfl)
        rw [ht] at hrun
        cases hrun
        exact hki rfl
      simpa [hu] using hI.resume k u hk

theorem Inv.resumeEnter (hI : Inv s P) (h : s.schedPc i = .resume t)
    (h₁ : resumeEnter s i t = .ok s') : ∃ P', Inv s' P' := by
  obtain ⟨hs, -, rfl⟩ := resumeEnter_ok h₁
  have ho : (s.schedPc i).holds = some (t, .popped) := by rw [h]; rfl
  have ht := (hI.held i t .popped).mp ho
  have hc : ∀ k, update s.currentLthread i (some t) k =
      (update s.schedPc i (.running t) k).current := by
    intro k
    by_cases hk : k = i
    · subst hk
      simp [SchedPc.current]
    · simpa [hk] using hI.current k
  have hA := hI.toAgree.hold ho rfl hc
  refine ⟨_, { hI with toAgree := { hA with }, fits := fits_of_eq (t := t) hI.fits ?_ ?_, resume := ?_ }⟩
  · intro u hu
    simp [view, hu]
  · simpa [view] using (hI.fits t).resume ht hs
  · exact resume_update hI.resume (by simp)

theorem Inv.resumeLeave (hI : Inv s P) (h : s.schedPc i = .leave t)
    (h₁ : resumeLeave s i t = .ok s') : ∃ P', Inv s' P' := by
  have hs' := resumeLeave_ok h₁
  have ho : (s.schedPc i).holds = some (t, .leaving) := by rw [h]; rfl
  have ht := (hI.held i t .leaving).mp ho
  have hf := hI.fits t
  have hs : s.sched t = i := hf.held i .leaving ht (by simp)
  have hA := hI.toAgree.release (p := .expire) ho rfl rfl
  refine ⟨{ P with run := update P.run t (if s.needsResched t then .ready i else .off) }, ?_⟩
  subst hs'
  refine { hI with toAgree := ?_, fits := fits_of_eq (t := t) hI.fits ?_ ?_, resume := ?_ }
  · cases hn : s.needsResched t with
    | false => exact { hA with }
    | true =>
      have hB := hA.enqueue (t := t) (i := i) (by simp)
      simp only [Function.update_idem] at hB
      simp only [hs, ↓reduceIte]
      exact { hB with }
  · intro u hu
    cases hx : s.stExited t <;> simp [view, hu]
  · have hl := hf.leave ht
    cases hx : s.stExited t <;> simpa [view, hx] using hl
  · exact resume_update hI.resume (by simp)

theorem Inv.off_of_sleeping (hI : Inv s P) (ho : (s.schedPc i).holds = none)
    (ht : t ∈ s.sleeping i) : P.run t = .off ∧ P.tree t = some i ∧ s.sched t = i := by
  have htree := hI.mem_sleeping.mp ht
  have hf := hI.fits t
  have hs : s.sched t = i := hf.tree i htree
  refine ⟨?_, htree, hs⟩
  have hrow := hf.row
  simp only [view, htree, Option.isSome_some] at hrow
  cases hrun : P.run t with
  | off => rfl
  | ready j =>
    rw [hrun] at hrow
    cases hp : s.pc t <;>
      simp_all [Row, Run.kind, ReadyRow, WokenRow, Wakers.idle, Wakers.onCond]
  | held j g =>
    cases g with
    | popped | running =>
      rw [hrun] at hrow
      cases hp : s.pc t <;> simp_all [Row, Run.kind, ReadyRow, RunningRow, WokenRow, Wakers.idle,
        Wakers.again, Wakers.onIo, Wakers.onCond]
    | leaving =>
      have hj : s.sched t = j := hf.held j .leaving hrun (by simp)
      have hh := (hI.held j t .leaving).mpr hrun
      rw [← hj, hs, ho] at hh
      cases hh

theorem Inv.deschedSleep (hI : Inv s P) (ho : (s.schedPc i).holds = none)
    (ht : t ∈ s.sleeping i) (h : deschedSleepUnsafe s t = .ok s') :
    ∃ P', Inv s' P' ∧ (s'.schedPc i).holds = none := by
  obtain ⟨hrun, htree, hs⟩ := hI.off_of_sleeping ho ht
  have h₁ := (deschedSleepUnsafe_ok h).2
  rw [hs] at h₁
  have hcur : s.currentLthread i ≠ some t := by
    intro hc
    obtain h | h := hI.toAgree.held_of_current hc <;> rw [h] at hrun <;> cases hrun
  obtain ⟨hc, -⟩ | ⟨-, rfl⟩ := schedPushReadyUnsafe_ok h₁
  · simp only [hs] at hc
    exact absurd hc hcur
  · have hA := (hI.toAgree.unsleep ht).enqueue (t := t) (i := i) hrun
    refine ⟨{ P with run := update P.run t (.ready i), tree := update P.tree t none }, ?_, ?_⟩
    · refine Inv.wake { hI with toAgree := ?_, fits := fits_of_eq (t := t) hI.fits ?_ ?_ }
      · simpa only [hs] using hA
      · intro u hu
        simp [view, hu]
      · have hr := (hI.fits t).row
        rw [show (view s P t).run = .off from hrun, show (view s P t).tree = some i from htree] at hr
        have he := (hI.fits t).enqueue none (P.io t) (P.cond t) hrun hr.expire (by simp) Iff.rfl
        simpa [view, hs] using he
    · rw [(schedWakeUnsafe_holds _ _ _).1]
      exact ho

theorem Inv.expireLoop {now : BitVec 64} {fuel : ℕ} (hI : Inv s P)
    (ho : (s.schedPc i).holds = none) (h : expireLoop i now fuel s = .ok s') :
    ∃ P', Inv s' P' ∧ (s'.schedPc i).holds = none := by
  induction fuel generalizing s P with
  | zero =>
    cases h
    exact ⟨P, hI, ho⟩
  | succ fuel ih =>
    simp only [Lthread.expireLoop] at h
    split at h
    · cases h
      exact ⟨P, hI, ho⟩
    · rename_i u rest hl
      split at h
      · obtain ⟨s₁, h₁, h₂⟩ := bind_ok h
        obtain ⟨P₁, hI₁, ho₁⟩ := hI.deschedSleep ho (by simp [hl]) h₁
        exact ih hI₁ ho₁ h₂
      · cases h
        exact ⟨P, hI, ho⟩

theorem Inv.schedBlock (hI : Inv s P) (h : s.schedPc i = .block) (h₁ : schedBlock s i = .ok s') :
    Inv s' P := by
  have ho : (s.schedPc i).holds = none := by rw [h]; rfl
  obtain ⟨-, rfl⟩ | ⟨-, -, -, -, rfl⟩ | ⟨-, timeout, rfl⟩ := schedBlock_ok h₁
  · exact { hI.pass (p := .expire) ho rfl with }
  · exact { hI.pass (p := .beginDeepSleep) ho rfl with }
  · exact { hI.pass (p := .parked false timeout false) ho rfl with }

theorem Inv.deepSleep (hI : Inv s P) (h : s.schedPc i = .beginDeepSleep) :
    Inv (schedDeepSleep s i) P := by
  have ho : (s.schedPc i).holds = none := by rw [h]; rfl
  obtain ⟨-, hs⟩ | ⟨-, hs⟩ := schedDeepSleep_cases s i
  · rw [hs]
    exact { hI.pass (p := .exiting) ho rfl with }
  · rw [hs]
    exact { hI.pass (p := .parked true 0 false) ho rfl with }

theorem Inv.unpark {deep signalled : Bool} {timeout : BitVec 64} (hI : Inv s P)
    (h : s.schedPc i = .parked deep timeout signalled) : Inv (schedUnpark s i deep) P := by
  have ho : (s.schedPc i).holds = none := by rw [h]; rfl
  cases deep <;> exact { hI.pass (p := .expire) ho rfl with }

end Lthread
