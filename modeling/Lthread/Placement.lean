import Lthread.Asserts
import Lthread.PcMoves

namespace Lthread

open Function (update update_apply)

variable {m : ℕ} {s s' : State m} {P : Places m} {i : Fin (m + 1)} {t : ℕ} {clock : ℕ}
  {isOpen : ℕ → Bool} {ok : State m → Label m → Prop}

theorem exists_inv_init (clock : ℕ) (isOpen : ℕ → Bool) :
    ∃ P, Inv (State.init m clock isOpen) P := by
  have hE : Inv (State.empty m clock isOpen)
      ⟨fun _ => .off, fun _ => none, fun _ => .none, fun _ => .none⟩ := by
    refine {
      ready := ?_, held := ?_, current := ?_, tree := ?_, waiting := ?_, hands := ?_,
      blocked := ?_, signal := ?_, fits := ?_, resume := ?_, mutex := ?_, unborn := ?_ }
    case refine_9 =>
      intro t
      refine {
        row := ?_, lock := ?_, ready := ?_, held := ?_, tree := ?_, blocked := ?_, running := ?_,
        exited := ?_, freed := ?_ }
      all_goals simp [view, State.empty, Run.kind, Row, OffRow, Wakers.idle]
    all_goals simp [State.empty, SchedPc.holds, SchedPc.current, PollerPc.hands]
  unfold State.init
  split
  · exact hE.spawn ‹_›
  · exact ⟨_, hE⟩

theorem exists_inv_of_reach (hr : Runs.Reach step ok (State.init m clock isOpen) s)
    (hok : ∀ {s l}, Runs.Reach step ok (State.init m clock isOpen) s → ok s l →
      s.signalInTime l = true) :
    (∃ P, Inv s P) ∧ ∀ f, s.fault = some f → ∃ s₀ l, ok s₀ l ∧ f.cause s₀ l := by
  refine hr.invariant (I := fun s => (∃ P, Inv s P) ∧
    ∀ f, s.fault = some f → ∃ s₀ l, ok s₀ l ∧ f.cause s₀ l) ⟨exists_inv_init clock isOpen, ?_⟩ ?_
  · intro f hf
    unfold State.init at hf
    split at hf
    · rename_i s₁ h₁
      obtain ⟨-, rfl⟩ | ⟨-, rfl⟩ := schedPushReadyUnsafe_ok h₁ <;> cases hf
    · cases hf
  · rintro s s' l hr ⟨⟨P, hI⟩, hf⟩ hl hs
    obtain ⟨hn, hc | ⟨f, he, rfl⟩⟩ := step_cases hs
    · refine ⟨hI.step (hok hr hl) hc, ?_⟩
      intro f hf'
      rw [hc.fault] at hf'
      exact hf f hf'
    · refine ⟨⟨P, { hI with }⟩, ?_⟩
      rintro _ ⟨⟩
      exact ⟨s, l, hl, hI.exec_error (hok hr hl) he⟩

/-- When the signals come in time, no `TAILQ_INSERT_TAIL`, `RB_INSERT` or `RB_REMOVE` on a ready
queue or a sleeping tree breaks a link. -/
theorem unbroken_of_reach (hr : Runs.Reach step ok (State.init m clock isOpen) s)
    (hok : ∀ {s l}, Runs.Reach step ok (State.init m clock isOpen) s → ok s l →
      s.signalInTime l = true) : s.Unbroken := by
  intro f hf
  obtain ⟨s₀, l, -, hc⟩ := (exists_inv_of_reach hr hok).2 f hf
  cases f <;> first | rfl | exact absurd hc id

/-- The states of the runs in which every signal finds its timed waiter still marked as
sleeping. -/
abbrev InTimeReach (clock : ℕ) (isOpen : ℕ → Bool) : State m → Prop :=
  Runs.Reach step (fun s l => s.signalInTime l = true) (State.init m clock isOpen)

theorem InTimeReach.exists_inv (hr : InTimeReach clock isOpen s) : ∃ P, Inv s P :=
  (exists_inv_of_reach hr fun _ h => h).1

theorem InTimeReach.unbroken (hr : InTimeReach clock isOpen s) : s.Unbroken :=
  unbroken_of_reach hr fun _ h => h

/-- `lthread_sleep` is called with at least one millisecond and `lthread_cond_wait`
without a timeout. -/
def Op.untimed : Op → Bool
  | .sleep msecs => isTimed msecs
  | .condWait _ timeout => !isTimed timeout
  | _ => true

def Label.untimed : Label m → Bool
  | .call _ op => op.untimed
  | _ => true

/-- The states of the runs of a program without timed waits. -/
abbrev UntimedReach (clock : ℕ) (isOpen : ℕ → Bool) : State m → Prop :=
  Runs.Reach step (fun _ l => l.untimed = true) (State.init m clock isOpen)

def Pc.untimed : Pc → Bool
  | .slept msecs => isTimed msecs
  | .condSleep _ timeout _ | .condWake _ timeout _ => !isTimed timeout
  | .condSignal c _ next => (next.op c).untimed
  | _ => true

theorem untimed_update {pc : ℕ → Pc} {p : Pc} (h : ∀ u, (pc u).untimed = true)
    (hp : p.untimed = true) (u : ℕ) : (update pc t p u).untimed = true := by
  by_cases hu : u = t
  · subst hu
    simpa using hp
  · simpa [hu] using h u

theorem PcMove.untimed {l : Label m} {p q : Pc} (h : PcMove l p q) (hl : l.untimed = true)
    (hp : p.untimed = true) : q.untimed = true := by
  cases h with
  | sleep | signals | waits => exact hl
  | condSleep | signalled => exact hp
  | waitFd | locks | blocks | exit | ret | register | relocks | back => rfl

theorem untimed_step {l : Label m} (hU : ∀ u, (s.pc u).untimed = true) (hl : l.untimed = true)
    (h : StepCase s l s') (u : ℕ) : (s'.pc u).untimed = true :=
  h.pcStep.forall_pc (Q := fun p => p.untimed = true) hU (fun hm hp => hm.untimed hl hp) rfl u

theorem UntimedReach.untimed (hr : UntimedReach clock isOpen s) (u : ℕ) :
    (s.pc u).untimed = true := by
  refine invariant_of_reach (I := fun s => ∀ u, (s.pc u).untimed = true) hr ?_ ?_ ?_ u
  · rw [init_eq]
    exact untimed_update (fun _ => rfl) rfl
  · rintro s s' l - hU hl hc
    exact untimed_step hU hl hc
  · intro s f hU
    exact hU

theorem Pc.not_isTimedWait {p : Pc} (h : p.untimed = true) : p.isTimedWait = false := by
  cases p <;> simp_all [Pc.untimed, Pc.isTimedWait]

theorem signalInTime_of_not_isTimedWait (h : ∀ u, (s.pc u).isTimedWait = false) (l : Label m) :
    s.signalInTime l = true := by
  unfold State.signalInTime
  split
  · split
    · simp [h]
    · rfl
  · rfl

theorem UntimedReach.signalInTime (hr : UntimedReach clock isOpen s) (l : Label m) :
    s.signalInTime l = true :=
  signalInTime_of_not_isTimedWait (fun u => Pc.not_isTimedWait (hr.untimed u)) l

theorem UntimedReach.exists_inv (hr : UntimedReach clock isOpen s) : ∃ P, Inv s P :=
  (exists_inv_of_reach hr fun h _ => UntimedReach.signalInTime h _).1

theorem UntimedReach.unbroken (hr : UntimedReach clock isOpen s) : s.Unbroken :=
  unbroken_of_reach hr fun h _ => UntimedReach.signalInTime h _

end Lthread
