import Lthread.Reclaim
import Lthread.Suspended
import Lthread.Turnover

namespace Lthread

open Function (update update_apply)
open Runs (Turnover Accounted)

variable {m : ℕ}

/-- The lthreads that `_lthread_schedule_expired` has put at the end of the ready queue. -/
def expireCalls (s : State m) (i : Fin (m + 1)) (now : BitVec 64) : List ℕ :=
  match scheduleExpired s i now with
  | .ok s' => (s'.ready i).drop (s.ready i).length
  | .error _ => []

/-- The lthreads that a step wakes: those it hands to `_lthread_sched_push_ready_unsafe`, and the
one that sets its own `needs_resched` in `lthread_yield`. -/
def wakeCalls (s : State m) : Label m → List ℕ
  | .sched i _ =>
    match s.schedPc i with
    | .expiring now => expireCalls s i now
    | _ => []
  | .call _ .spawn => [s.numLthreads]
  | .call i .yield => (ltCurrent s i).toList
  | .cont i =>
    match (ltCurrent s i).map s.pc with
    | some (.condSignal _ u _) => [u]
    | _ => []
  | .poller =>
    match s.pollerPc with
    | .push t _ _ _ _ => [t]
    | _ => []
  | _ => []

/-- The lthread that `_lthread_resume` switches to in the step. -/
def resumeCalls (s : State m) : Label m → List ℕ
  | .sched i _ =>
    match s.schedPc i with
    | .resume t => [t]
    | _ => []
  | _ => []

/-- The lthread whose `_lthread_resume` call ends with the step. -/
def leaveCalls (s : State m) : Label m → List ℕ
  | .sched i _ =>
    match s.schedPc i with
    | .leave t => [t]
    | _ => []
  | _ => []

structure Tally where
  woken : ℕ → ℕ
  resumed : ℕ → ℕ
  left : ℕ → ℕ

def noteTally (g : Tally) (s : State m) (l : Label m) (s' : State m) : Tally :=
  if s'.fault.isSome then g
  else {
    woken := fun t => g.woken t + (wakeCalls s l).count t
    resumed := fun t => g.resumed t + (resumeCalls s l).count t
    left := fun t => g.left t + (leaveCalls s l).count t }

abbrev stepTally : State m × Tally → Label m → Option (State m × Tally) :=
  Runs.withHistory step noteTally

/-- `lthread_run` has pushed the main lthread. -/
def Tally.init : Tally := ⟨fun t => [0].count t, fun _ => 0, fun _ => 0⟩

abbrev TallyReach (clock : ℕ) (isOpen : ℕ → Bool) : State m × Tally → Prop :=
  Runs.Reach stepTally (fun p l => p.1.signalInTime l = true) (State.init m clock isOpen, .init)

def State.isCurrent (s : State m) (t : ℕ) : Prop := ∃ i, s.currentLthread i = some t

/-- The lthread has been woken and not been resumed since: it is in a ready queue, a scheduler has
popped it, or the scheduler it is current on is to queue it when it lets go of it. -/
def State.pending (s : State m) (t : ℕ) : Prop :=
  (∃ i, t ∈ s.ready i) ∨
    (∃ i, s.schedPc i = .wakeNeighbor t ∨ s.schedPc i = .setSched t ∨ s.schedPc i = .resume t) ∨
    (s.needsResched t = true ∧ s.isCurrent t)

def State.noted (s : State m) (t : ℕ) : Prop :=
  (∃ i, t ∈ s.ready i) ∨ (∃ i, (s.schedPc i).holds = some (t, .popped)) ∨ s.needsResched t = true

variable {s s' : State m} {P : Places m} {l : Label m} {i : Fin (m + 1)} {b : Bool} {t u : ℕ}
  {clock : ℕ} {isOpen : ℕ → Bool}

section Pending

theorem State.noted_congr (hready : s'.ready = s.ready) (hresched : s'.needsResched = s.needsResched)
    (hholds : ∀ i, (s'.schedPc i).holds = some (u, .popped) ↔ (s.schedPc i).holds = some (u, .popped)) :
    s'.noted u ↔ s.noted u := by
  simp only [State.noted, hready, hresched, hholds]

theorem State.noted_pass {p : SchedPc m}
    (h : ∀ u, p.holds = some (u, .popped) ↔ (s.schedPc i).holds = some (u, .popped)) (u : ℕ) :
    ({ s with schedPc := update s.schedPc i p } : State m).noted u ↔ s.noted u := by
  refine State.noted_congr (by rfl) (by rfl) fun k => ?_
  by_cases hk : k = i
  · subst hk
    simpa using h u
  · simp [hk]

theorem State.noted_wake (s : State m) (i : Fin (m + 1)) (u : ℕ) :
    (schedWakeUnsafe s i).noted u ↔ s.noted u :=
  State.noted_congr rfl rfl fun k => by rw [(schedWakeUnsafe_holds s i k).1]

theorem State.noted_wakeNeighbor {next : SchedPc m} (h : wakeNeighbor s i next = some s')
    (hnext : next.holds = (s.schedPc i).holds) (u : ℕ) : s'.noted u ↔ s.noted u := by
  obtain ⟨-, rfl⟩ | ⟨-, -, rfl⟩ := wakeNeighbor_some h
  · exact State.noted_pass (fun _ => by rw [hnext]) u
  · rw [State.noted_pass, State.noted_wake]
    intro v
    rw [(schedWakeUnsafe_holds s (schedNeighbor i) i).1, hnext]

theorem exists_mem_enqueue {f : Fin (m + 1) → List ℕ} :
    (∃ k, u ∈ update f i (f i ++ [t]) k) ↔ (∃ k, u ∈ f k) ∨ u = t := by
  constructor
  · rintro ⟨k, hk⟩
    by_cases hki : k = i
    · subst hki
      rw [Function.update_self, List.mem_append, List.mem_singleton] at hk
      exact hk.imp_left fun h => ⟨k, h⟩
    · rw [Function.update_of_ne hki] at hk
      exact .inl ⟨k, hk⟩
  · rintro (⟨k, hk⟩ | rfl)
    · exact ⟨k, mem_update_of_mem hk⟩
    · exact ⟨i, by simp⟩

theorem State.noted_mark (s : State m) (t u : ℕ) :
    ({ s with needsResched := update s.needsResched t true } : State m).noted u ↔
      s.noted u ∨ u = t := by
  by_cases hu : u = t <;> simp [State.noted, hu]

theorem State.noted_yield (h : ltYield s i t = .ok s') (hp : s.schedPc i = .running t) (u : ℕ) :
    s'.noted u ↔ s.noted u := by
  obtain ⟨-, rfl⟩ := ltYield_ok h
  exact State.noted_pass (by simp [hp, SchedPc.holds]) u

theorem State.noted_condSignalled {c : ℕ} {next : AfterSignal}
    (h : condSignalled s c t next = .ok s') (u : ℕ) : s'.noted u ↔ s.noted u := by
  obtain ⟨-, rfl⟩ | ⟨_, -, h₁⟩ := condSignalled_ok h
  · exact Iff.rfl
  · obtain ⟨-, rfl⟩ := condBlock_ok h₁
    exact Iff.rfl

theorem State.noted_push (h : schedPushReadyUnsafe s i t = .ok s') (u : ℕ) :
    s'.noted u ↔ s.noted u ∨ u = t := by
  obtain ⟨-, rfl⟩ | ⟨-, rfl⟩ := schedPushReadyUnsafe_ok h
  · rw [State.noted_wake, State.noted_mark]
  · rw [State.noted_wake]
    simp only [State.noted, exists_mem_enqueue]
    exact or_right_comm

theorem State.noted_desched (h : deschedSleepUnsafe s t = .ok s') (u : ℕ) :
    s'.noted u ↔ s.noted u ∨ u = t := by
  have hpush := State.noted_push (deschedSleepUnsafe_ok h).2 u
  exact hpush

theorem State.noted_pop {v : Fin (m + 1)} {rest : List ℕ} {p : SchedPc m}
    (ho : (s.schedPc i).holds = none) (hr : s.ready v = t :: rest)
    (hp : p.holds = some (t, .popped)) (u : ℕ) :
    ({ s with ready := update s.ready v rest, schedPc := update s.schedPc i p } : State m).noted u ↔
      s.noted u := by
  have hready : (∃ k, u ∈ s.ready k) ↔ u = t ∨ ∃ k, u ∈ update s.ready v rest k := by
    constructor
    · rintro ⟨k, hk⟩
      by_cases hkv : k = v
      · subst hkv
        rw [hr, List.mem_cons] at hk
        exact hk.imp_right fun h => ⟨k, by simpa using h⟩
      · exact .inr ⟨k, by simpa [hkv] using hk⟩
    · rintro (rfl | ⟨k, hk⟩)
      · exact ⟨v, by simp [hr]⟩
      · by_cases hkv : k = v
        · subst hkv
          rw [Function.update_self] at hk
          exact ⟨k, by simp [hr, hk]⟩
        · rw [Function.update_of_ne hkv] at hk
          exact ⟨k, hk⟩
  have hholds : (∃ k, (update s.schedPc i p k).holds = some (u, .popped)) ↔
      u = t ∨ ∃ k, (s.schedPc k).holds = some (u, .popped) := by
    constructor
    · rintro ⟨k, hk⟩
      by_cases hki : k = i
      · subst hki
        rw [Function.update_self, hp] at hk
        cases hk
        exact .inl rfl
      · rw [Function.update_of_ne hki] at hk
        exact .inr ⟨k, hk⟩
    · rintro (rfl | ⟨k, hk⟩)
      · exact ⟨i, by rw [Function.update_self, hp]⟩
      · have hki : k ≠ i := by
          rintro rfl
          rw [ho] at hk
          cases hk
        exact ⟨k, by rw [Function.update_of_ne hki, hk]⟩
  simp only [State.noted, hready, hholds, or_assoc]
  exact or_left_comm

theorem State.noted_leave (hp : s.schedPc i = .leave t) (h : resumeLeave s i t = .ok s') (u : ℕ) :
    s'.noted u ↔ s.noted u := by
  have hs := resumeLeave_ok h
  subst hs
  have hholds : ∀ k, (update s.schedPc i .expire k).holds = some (u, .popped) ↔
      (s.schedPc k).holds = some (u, .popped) := by
    intro k
    by_cases hk : k = i
    · subst hk
      simp [hp, SchedPc.holds]
    · simp [hk]
  cases hn : s.needsResched t with
  | false =>
    refine State.noted_congr (by simp) ?_ hholds
    rw [← hn]
    exact Function.update_eq_self t _
  | true =>
    simp only [State.noted, hholds, if_true, exists_mem_enqueue]
    by_cases hu : u = t
    · simp [hu, hn]
    · simp [hu]

end Pending

section Fresh

variable {k : Kind} {p : Pc} {n tree clear owns : Bool} {io : Io} {cond : CondPlace}

attribute [local simp] Row OffRow ReadyRow RunningRow LeavingRow WokenRow Wakers.idle Wakers.again
  Wakers.onIo Wakers.onCond

theorem Row.resched_eq_false (h : Row k p ⟨n, tree, io, cond⟩ clear owns)
    (hk : k = .off ∨ k = .ready) : n = false := by
  obtain rfl | rfl := hk <;> cases p <;> simp_all
  all_goals grind

theorem Row.resched_of_hands (h : Row k p ⟨n, tree, .hands, cond⟩ clear owns) : n = false := by
  cases k <;> cases p <;> simp_all

theorem Inv.noted_iff (hI : Inv s P) :
    s.noted t ↔ (P.run t).kind = .ready ∨ s.needsResched t = true := by
  have hready : (∃ i, t ∈ s.ready i) ↔ ∃ i, P.run t = .ready i := by
    simp only [hI.toAgree.mem_ready]
  have hheld : (∃ i, (s.schedPc i).holds = some (t, .popped)) ↔ ∃ i, P.run t = .held i .popped := by
    simp only [hI.held]
  rw [State.noted, hready, hheld, ← or_assoc]
  apply or_congr_left
  cases P.run t with
  | off => simp [Run.kind]
  | ready j => simp [Run.kind]
  | held j g => cases g <;> simp [Run.kind]

theorem Inv.not_noted_of_off (hI : Inv s P) (h : P.run t = .off) : ¬ s.noted t := by
  have hrow := (hI.fits t).row
  have hn : s.needsResched t = false := hrow.resched_eq_false (.inl (by simp [view, h, Run.kind]))
  rw [hI.noted_iff]
  simp [h, hn, Run.kind]

theorem Inv.not_noted_of_held {g : Hold} (hI : Inv s P) (h : P.run t = .held i g)
    (hg : g ≠ .popped) (hn : s.needsResched t = false) : ¬ s.noted t := by
  rw [hI.noted_iff]
  cases g <;> simp_all [Run.kind]

end Fresh

section Steps

variable {now : BitVec 64} {fuel : ℕ}

theorem Inv.deschedSleep_ready (hI : Inv s P) (ho : (s.schedPc i).holds = none)
    (ht : t ∈ s.sleeping i) (h : deschedSleepUnsafe s t = .ok s') :
    s'.ready i = s.ready i ++ [t] := by
  obtain ⟨hrun, -, hs⟩ := hI.off_of_sleeping ho ht
  obtain ⟨hcur, -⟩ | ⟨-, rfl⟩ := schedPushReadyUnsafe_ok (deschedSleepUnsafe_ok h).2
  · obtain h | h := hI.toAgree.held_of_current hcur <;> rw [hrun] at h <;> cases h
  · simp [schedWakeUnsafe, hs]

theorem Inv.expireLoop_turnover (hI : Inv s P) (ho : (s.schedPc i).holds = none)
    (h : Lthread.expireLoop i now fuel s = .ok s') :
    ∃ ts, s'.ready i = s.ready i ++ ts ∧ Turnover s.noted s'.noted ts [] := by
  induction fuel generalizing s P with
  | zero =>
    cases h
    exact ⟨[], (List.append_nil _).symm, .same fun _ => Iff.rfl⟩
  | succ fuel ih =>
    cases hl : s.sleeping i with
    | nil =>
      simp only [Lthread.expireLoop, hl] at h
      cases h
      exact ⟨[], (List.append_nil _).symm, .same fun _ => Iff.rfl⟩
    | cons t rest =>
      simp only [Lthread.expireLoop, hl] at h
      split at h
      · obtain ⟨s₁, h₁, h₂⟩ := bind_ok h
        have ht : t ∈ s.sleeping i := by simp [hl]
        obtain ⟨P₁, hI₁, ho₁⟩ := hI.deschedSleep ho ht h₁
        obtain ⟨ts, hready, hrest⟩ := ih hI₁ ho₁ h₂
        have hfresh := hI.not_noted_of_off (hI.off_of_sleeping ho ht).1
        have hpush := State.noted_desched h₁
        refine ⟨t :: ts, ?_, {
          nodup_ins := ?_, nodup_outs := hrest.nodup_outs, fresh := ?_, inside := ?_, mem_iff := ?_ }⟩
        · rw [hready, hI.deschedSleep_ready ho ht h₁, List.append_assoc, List.singleton_append]
        · refine List.nodup_cons.mpr ⟨fun hmem => ?_, hrest.nodup_ins⟩
          exact hrest.fresh t hmem ((hpush t).mpr (.inr rfl))
        · intro u hu hnoted
          rcases List.mem_cons.mp hu with rfl | hu
          · exact hfresh hnoted
          · exact hrest.fresh u hu ((hpush u).mpr (.inl hnoted))
        · simp
        · intro u
          rw [hrest.mem_iff u, hpush u]
          simp only [List.not_mem_nil, not_false_iff, and_true, List.mem_cons]
          exact or_assoc
      · cases h
        exact ⟨[], (List.append_nil _).symm, .same fun _ => Iff.rfl⟩

theorem StepCase.noted_sched (h : StepCase s (.sched i b) s')
    (hexp : ∀ now, s.schedPc i ≠ .expiring now) (hres : ∀ t, s.schedPc i ≠ .resume t) (u : ℕ) :
    s'.noted u ↔ s.noted u := by
  cases h with
  | expired hp _ => exact absurd hp (hexp _)
  | resume hp _ => exact absurd hp (hres _)
  | clockRead hp | popEmpty hp _ | setSched hp =>
    exact State.noted_pass (by simp [hp, SchedPc.holds]) u
  | probeFail hp hq =>
    refine State.noted_pass ?_ u
    obtain hp | ⟨v, hp⟩ := hp <;> obtain rfl | ⟨w, rfl⟩ := hq <;> simp [hp, SchedPc.holds]
  | pop hp hr hq =>
    refine State.noted_pop (SchedPc.probe_holds hp).1 hr ?_ u
    obtain rfl | rfl := hq <;> rfl
  | wakeNeighbor hp h₁ | finish hp h₁ => exact State.noted_wakeNeighbor h₁ (by rw [hp]; rfl) u
  | leave hp h₁ => exact State.noted_leave hp h₁ u
  | block hp h₁ =>
    obtain ⟨-, rfl⟩ | ⟨-, -, -, -, rfl⟩ | ⟨-, _, rfl⟩ := schedBlock_ok h₁ <;>
      exact State.noted_pass (by simp [hp, SchedPc.holds]) u
  | deepSleep hp =>
    obtain ⟨-, hs⟩ | ⟨-, hs⟩ := schedDeepSleep_cases s i <;> rw [hs] <;>
      exact State.noted_pass (by simp [hp, SchedPc.holds]) u

theorem StepCase.of_resume (h : StepCase s (.sched i b) s') (hp : s.schedPc i = .resume t) :
    s'.currentLthread i = some t ∧ resumeEnter s i t = .ok s' := by
  cases h with
  | resume hp' h₁ =>
    cases hp.symm.trans hp'
    obtain ⟨-, -, rfl⟩ := resumeEnter_ok h₁
    exact ⟨Function.update_self .., h₁⟩
  | probeFail hp' => simp [hp] at hp'
  | pop hp' => simp [hp, SchedPc.probe] at hp'
  | _ => cases hp.symm.trans ‹s.schedPc i = _›

theorem StepCase.of_expiring {now : BitVec 64} (h : StepCase s (.sched i b) s')
    (hp : s.schedPc i = .expiring now) : ∃ s₁, scheduleExpired s i now = .ok s₁ ∧
      s' = { s₁ with schedPc := update s₁.schedPc i .popOwn } := by
  cases h with
  | expired hp' h₁ =>
    cases hp.symm.trans hp'
    exact ⟨_, h₁, rfl⟩
  | probeFail hp' => simp [hp] at hp'
  | pop hp' => simp [hp, SchedPc.probe] at hp'
  | _ => cases hp.symm.trans ‹s.schedPc i = _›

theorem Inv.turnover_resume (hI : Inv s P) (hp : s.schedPc i = .resume t)
    (h : Lthread.resumeEnter s i t = .ok s') : Turnover s.noted s'.noted [] [t] := by
  obtain ⟨P', hI'⟩ := hI.resumeEnter hp h
  obtain ⟨-, -, rfl⟩ := Lthread.resumeEnter_ok h
  have ho : (s.schedPc i).holds = some (t, .popped) := by rw [hp]; rfl
  have hrun := (hI.held i t .popped).mp ho
  have hn : s.needsResched t = false :=
    (hI.fits t).row.resched_eq_false (.inr (by simp [view, hrun, Run.kind]))
  refine .leave (.inr (.inl ⟨i, ho⟩)) fun u => ?_
  by_cases hu : u = t
  · subst hu
    have hrun' := (hI'.held i u .running).mp (by simp [SchedPc.holds])
    simpa using hI'.not_noted_of_held hrun' (by simp) hn
  · rw [and_iff_left hu]
    refine State.noted_congr (by rfl) (by rfl) fun k => ?_
    by_cases hk : k = i
    · subst hk
      simpa [hp, SchedPc.holds] using fun he => hu he.symm
    · simp [hk]

theorem Inv.turnover_sched (hI : Inv s P) (h : StepCase s (.sched i b) s') :
    Turnover s.noted s'.noted (wakeCalls s (.sched i b)) (resumeCalls s (.sched i b)) := by
  by_cases hexp : ∃ now, s.schedPc i = .expiring now
  · obtain ⟨now, hp⟩ := hexp
    have ho : (s.schedPc i).holds = none := by rw [hp]; rfl
    have hnone : (SchedPc.popOwn : SchedPc m).holds = none := rfl
    obtain ⟨s₁, h₁, rfl⟩ := h.of_expiring hp
    obtain ⟨P₁, hI₁, ho₁⟩ := hI.expireLoop ho h₁
    simp only [wakeCalls, resumeCalls, hp]
    obtain ⟨ts, hready, hturn⟩ := hI.expireLoop_turnover ho h₁
    have hcalls : expireCalls s i now = ts := by
      rw [expireCalls, h₁]
      dsimp only
      rw [hready, List.drop_left]
    rw [hcalls]
    refine hturn.congr ?_
    exact State.noted_pass fun u => by rw [hnone, ho₁]
  by_cases hres : ∃ t, s.schedPc i = .resume t
  · obtain ⟨t, hp⟩ := hres
    simp only [wakeCalls, resumeCalls, hp]
    exact hI.turnover_resume hp (h.of_resume hp).2
  have hexp' : ∀ now, s.schedPc i ≠ .expiring now := fun now hp => hexp ⟨now, hp⟩
  have hres' : ∀ t, s.schedPc i ≠ .resume t := fun t hp => hres ⟨t, hp⟩
  have hcalls : wakeCalls s (.sched i b) = [] ∧ resumeCalls s (.sched i b) = [] := by
    cases hp : s.schedPc i <;> simp_all [wakeCalls, resumeCalls]
  rw [hcalls.1, hcalls.2]
  exact .same (h.noted_sched hexp' hres')

theorem Inv.turnover_call {op : Op} (hI : Inv s P) (h : StepCase s (.call i op) s') :
    Turnover s.noted s'.noted (wakeCalls s (.call i op)) [] := by
  cases h with
  | spawn hc hp h₁ =>
    have hnew := hI.not_noted_of_off (hI.nowhere ((hI.unborn _).mpr (Nat.le_refl _))).1
    have hpush := State.noted_push h₁
    exact .enter hnew hpush
  | yield hc hp h₁ =>
    obtain ⟨hrun, hheld⟩ := hI.toAgree.running hc
    have hn := ((hI.fits _).idle hheld (.inl hp)).1
    simp only [wakeCalls, hc, Option.toList_some]
    refine .enter (hI.not_noted_of_held hheld (by simp) hn) fun u => ?_
    have hyield := State.noted_yield h₁ hrun u
    exact hyield.trans (State.noted_mark s _ u)
  | sleep hc hp h₁ h₂ =>
    obtain ⟨hrun, -⟩ := hI.toAgree.running hc
    obtain ⟨-, rfl⟩ | ⟨-, -, _, _, -, rfl⟩ := schedSleep_ok h₁
    all_goals
      have hyield := State.noted_yield h₂ hrun
      exact .same hyield
  | exit hc hp h₁ =>
    obtain ⟨hrun, -⟩ := hI.toAgree.running hc
    have hyield := State.noted_yield h₁ hrun
    exact .same hyield
  | ret hc hp =>
    obtain ⟨hrun, -⟩ := hI.toAgree.running hc
    exact .same (State.noted_pass (by simp [hrun, SchedPc.holds]))
  | waitFd hc hp h₁ =>
    obtain ⟨-, -, _, -, rfl⟩ := pollerAddWaitingLthread_ok h₁
    exact .same fun _ => Iff.rfl
  | condLock hc hp hm h₁ =>
    obtain ⟨-, rfl⟩ | ⟨-, -, h₂⟩ := condLock_ok h₁
    · exact .same fun _ => Iff.rfl
    · obtain ⟨-, rfl⟩ := condBlock_ok h₂
      exact .same fun _ => Iff.rfl
  | @condSignal _ _ c next _ hc hp hm h₁ =>
    have hcalls : wakeCalls s (.call i (next.op c)) = [] := by cases next <;> rfl
    rw [hcalls]
    obtain ⟨-, ⟨-, h₂⟩ | ⟨_, _, -, -, rfl⟩⟩ := condSignal_ok h₁
    · have hsame := State.noted_condSignalled h₂
      exact .same hsame
    · exact .same fun _ => Iff.rfl
  | socket hc hp ho => exact .same fun _ => Iff.rfl
  | close hc hp => exact .same fun _ => Iff.rfl

theorem Inv.not_noted_of_signalled {c : ℕ} {next : AfterSignal} (hI : Inv s P)
    (hp : s.pc t = .condSignal c u next)
    (hg : (s.pc u).isTimedWait = true → s.sleepUsecs u ≠ 0) : ¬ s.noted u := by
  have hcond : P.cond u = .hands c := (hI.signal c u).mp ⟨t, next, hp⟩
  have hrow := (hI.fits u).row
  rw [show (view s P u).cond = .hands c from hcond] at hrow
  obtain ⟨timeout, call, -, hn, -⟩ := hrow.hands
  have hwoken := hrow.woken fun h => by simpa [view] using hg h
  rw [hI.noted_iff]
  rintro (hk | hresched)
  · obtain ⟨hoff, -⟩ | ⟨hoff | hoff, -⟩ := hwoken <;> simp [view, hk] at hoff
  · simp [view, hresched] at hn

theorem Inv.not_noted_of_hands (hI : Inv s P) (hp : s.pollerPc.hands = some t) :
    ¬ s.noted t := by
  have hrow := (hI.fits t).row
  rw [show (view s P t).io = .hands from (hI.hands t).mp hp] at hrow
  have hn := hrow.resched_of_hands
  have hpush := hrow.push
  rw [hI.noted_iff]
  rintro (hk | hresched)
  · obtain ⟨hoff, -⟩ | ⟨hoff | hoff, -⟩ := hpush <;> simp [view, hk] at hoff
  · simp [view, hresched] at hn

theorem Inv.turnover_cont (hI : Inv s P) (hg : s.signalInTime (.cont i) = true)
    (h : StepCase s (.cont i) s') :
    Turnover s.noted s'.noted (wakeCalls s (.cont i)) [] := by
  cases h with
  | condSignalled hc hp hf h₁ h₂ =>
    have hfresh := hI.not_noted_of_signalled hp (sleepUsecs_of_signalInTime hg hc hp)
    obtain ⟨sleeping, h₃, -⟩ := Lthread.wakeup_ok h₁
    have hpush := State.noted_push h₃
    simp only [wakeCalls, hc, Option.map_some, hp]
    refine .enter hfresh fun v => ?_
    exact (State.noted_condSignalled h₂ v).trans (hpush v)
  | register hc hp h₁ h₂ =>
    have hs₁ := pollerRegisterEvent_ok h₁
    subst hs₁
    obtain ⟨hrun, -⟩ := hI.toAgree.running hc
    have hyield := State.noted_yield h₂ hrun
    simp only [wakeCalls, hc, Option.map_some, hp]
    exact .same hyield
  | condSleep hc hp h₁ h₂ =>
    obtain ⟨hrun, -⟩ := hI.toAgree.running hc
    simp only [wakeCalls, hc, Option.map_some, hp]
    obtain ⟨-, rfl⟩ | ⟨-, -, _, _, -, rfl⟩ := schedSleep_ok h₁
    all_goals
      have hyield := State.noted_yield h₂ hrun
      exact .same hyield
  | waitFdReturn hc hp | sleepReturn hc hp =>
    simp only [wakeCalls, hc, Option.map_some, hp]
    exact .same fun _ => Iff.rfl
  | condLockReturn hc hp h₁ =>
    obtain ⟨-, rfl⟩ := Lthread.condLockReturn_ok h₁
    simp only [wakeCalls, hc, Option.map_some, hp]
    exact .same fun _ => Iff.rfl
  | condWaitReturn hc hp hm h₁ =>
    simp only [wakeCalls, hc, Option.map_some, hp]
    obtain ⟨-, -, rfl⟩ | ⟨-, -, rfl⟩ | ⟨-, -, rfl⟩ := Lthread.condWaitReturn_ok h₁ <;>
      exact .same fun _ => Iff.rfl

theorem Inv.turnover_poller (hI : Inv s P) (h : StepCase s .poller s') :
    Turnover s.noted s'.noted (wakeCalls s .poller) [] := by
  cases h with
  | deschedNone hp hf h₁ | account hp h₁ =>
    rw [handledEvent_ok h₁]
    simp only [wakeCalls, hp]
    exact .same fun _ => Iff.rfl
  | deschedSome hp hf =>
    simp only [wakeCalls, hp]
    unfold pollerDeschedEvent
    split <;> exact .same fun _ => Iff.rfl
  | push hp hf h₁ =>
    have hpush := State.noted_push h₁
    simp only [wakeCalls, hp]
    exact .enter (hI.not_noted_of_hands (by rw [hp]; rfl)) hpush

theorem Inv.turnover_noted (hI : Inv s P) (hg : s.signalInTime l = true) (h : StepCase s l s') :
    Turnover s.noted s'.noted (wakeCalls s l) (resumeCalls s l) := by
  cases l with
  | sched i b => exact hI.turnover_sched h
  | call i op => exact hI.turnover_call h
  | cont i => exact hI.turnover_cont hg h
  | poller => exact hI.turnover_poller h
  | unpark i =>
    cases h with
    | @unpark _ deep _ _ hp =>
      cases deep <;>
        exact .same (State.noted_pass (by simp [hp, poolEndDeepSleep, SchedPc.holds]))
  | tick | kevent | fire | inject =>
    cases h
    exact .same fun _ => Iff.rfl

theorem Inv.current_resume (hI : Inv s P) (hp : s.schedPc i = .resume t)
    (hc : s'.currentLthread = update s.currentLthread i (some t)) :
    Turnover s.isCurrent s'.isCurrent [t] [] := by
  have hrun := (hI.held i t .popped).mp (by rw [hp]; rfl)
  have hnone : s.currentLthread i = none := by rw [hI.current i, hp]; rfl
  refine .enter ?_ fun u => ?_
  · rintro ⟨k, hk⟩
    obtain h | h := hI.toAgree.held_of_current hk <;> rw [hrun] at h <;> cases h
  · rw [State.isCurrent, hc]
    constructor
    · rintro ⟨k, hk⟩
      by_cases hki : k = i
      · subst hki
        rw [Function.update_self] at hk
        exact .inr (Option.some.inj hk).symm
      · rw [Function.update_of_ne hki] at hk
        exact .inl ⟨k, hk⟩
    · rintro (⟨k, hk⟩ | rfl)
      · have hki : k ≠ i := by
          rintro rfl
          rw [hnone] at hk
          cases hk
        exact ⟨k, by rwa [Function.update_of_ne hki]⟩
      · exact ⟨i, Function.update_self ..⟩

theorem Inv.current_leave (hI : Inv s P) (hp : s.schedPc i = .leave t)
    (hc : s'.currentLthread = update s.currentLthread i none) :
    Turnover s.isCurrent s'.isCurrent [] [t] := by
  have hcur : s.currentLthread i = some t := by rw [hI.current i, hp]; rfl
  refine .leave ⟨i, hcur⟩ fun u => ?_
  rw [State.isCurrent, hc]
  constructor
  · rintro ⟨k, hk⟩
    by_cases hki : k = i
    · subst hki
      rw [Function.update_self] at hk
      cases hk
    · rw [Function.update_of_ne hki] at hk
      refine ⟨⟨k, hk⟩, ?_⟩
      rintro rfl
      obtain h₁ | h₁ := hI.toAgree.held_of_current hk <;>
        obtain h₂ | h₂ := hI.toAgree.held_of_current hcur <;> simp_all
  · rintro ⟨⟨k, hk⟩, hut⟩
    have hki : k ≠ i := by
      rintro rfl
      exact hut (Option.some.inj (hk.symm.trans hcur))
    exact ⟨k, by rwa [Function.update_of_ne hki]⟩

theorem Inv.turnover_current (hI : Inv s P) (h : StepCase s l s') :
    Turnover s.isCurrent s'.isCurrent (resumeCalls s l) (leaveCalls s l) := by
  by_cases hl : ∃ i b, l = .sched i b
  · obtain ⟨i, b, rfl⟩ := hl
    obtain ⟨hc, -, hp⟩ | ⟨t, hp, hc, -⟩ | ⟨t, hp, hs⟩ := h.sched_current
    · have hres : ∀ t, s.schedPc i ≠ .resume t := by
        intro t ht
        have hcur := (h.of_resume ht).1
        rw [hc, hI.current i, ht] at hcur
        cases hcur
      have hcalls : resumeCalls s (.sched i b) = [] ∧ leaveCalls s (.sched i b) = [] := by
        cases hq : s.schedPc i <;> simp_all [resumeCalls, leaveCalls]
      rw [hcalls.1, hcalls.2]
      exact .same fun u => by rw [State.isCurrent, hc, State.isCurrent]
    · simp only [resumeCalls, leaveCalls, hp]
      exact hI.current_resume hp hc
    · simp only [resumeCalls, leaveCalls, hp]
      have hs' := Lthread.resumeLeave_ok hs
      exact hI.current_leave hp (by rw [hs'])
  · have hl' : ∀ i b, l ≠ .sched i b := fun i b hib => hl ⟨i, b, hib⟩
    have hcalls : resumeCalls s l = [] ∧ leaveCalls s l = [] := by
      cases l <;> simp_all [resumeCalls, leaveCalls]
    rw [hcalls.1, hcalls.2]
    exact .same fun u => by rw [State.isCurrent, (h.current_frame hl').1, State.isCurrent]

end Steps

structure Tallied (s : State m) (g : Tally) : Prop where
  noted : Accounted s.noted g.woken g.resumed
  current : Accounted s.isCurrent g.resumed g.left

theorem Tallied.step {g : Tally} (hT : Tallied s g) (hI : Inv s P) (hf : s.fault = none)
    (hg : s.signalInTime l = true) (h : StepCase s l s') : Tallied s' (noteTally g s l s') := by
  have hfault : s'.fault.isSome = false := by rw [h.fault, hf]; rfl
  unfold noteTally
  rw [hfault]
  exact {
    noted := hT.noted.step (hI.turnover_noted hg h)
    current := hT.current.step (hI.turnover_current h) }

theorem TallyReach.forget {p : State m × Tally} (hr : TallyReach clock isOpen p) :
    InTimeReach clock isOpen p.1 :=
  Runs.Reach.forget hr fun _ _ h => h

end Lthread
