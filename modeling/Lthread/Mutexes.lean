import Lthread.Placement
import Mathlib.Logic.Relation

namespace Lthread

variable {m : ℕ} {s s' : State m} {P : Places m} {l : Label m} {i j k : Fin (m + 1)} {b : Bool}
  {t c : ℕ} {clock : ℕ} {isOpen : ℕ → Bool}

/-- `sched->mutex` and `c->mutex`, which are kept from one critical section to the next. The
others, `poller->mutex` and `pool->mutex`, are locked inside of a section only. -/
inductive Mutex (m : ℕ) where
  | sched (i : Fin (m + 1))
  | cond (c : ℕ)
  deriving DecidableEq, Repr

inductive OsThread (m : ℕ) where
  | sched (i : Fin (m + 1))
  | poller
  deriving DecidableEq, Repr

def Label.thread : Label m → Option (OsThread m)
  | .sched i _ | .unpark i | .call i _ | .cont i => some (.sched i)
  | .poller | .kevent _ => some .poller
  | .tick _ | .fire _ _ _ | .inject _ => none

/-- The mutex that the next section of `_lthread_run_sched` waits for. The queues of the others are
looked at with `pthread_mutex_trylock`. -/
def SchedPc.locks (sched : ℕ → Fin (m + 1)) (i : Fin (m + 1)) : SchedPc m → Option (Mutex m)
  | .expiring _ | .popBlock | .leave _ | .block => some (.sched i)
  | .resume t => some (.sched (sched t))
  | .wakeNeighbor _ | .exiting =>
    if schedNeighbor i = i then none else some (.sched (schedNeighbor i))
  | _ => none

/-- The mutex that lthread `t`, current on `i`, waits for in a call. -/
def Op.locks (sched : ℕ → Fin (m + 1)) (i : Fin (m + 1)) (t : ℕ) : Op → Option (Mutex m)
  | .spawn => some (.sched i)
  | .yield | .sleep _ => some (.sched (sched t))
  | .condLock c | .condWait c _ | .condUnlockSignal c => some (.cond c)
  | _ => none

/-- The mutex that lthread `t` waits for inside of the call it has made. -/
def Pc.locks (sched : ℕ → Fin (m + 1)) (t : ℕ) : Pc → Option (Mutex m)
  | .condSleep _ _ _ => some (.sched (sched t))
  | .condWake c _ _ => some (.cond c)
  | .condSignal _ u _ => some (.sched (sched u))
  | _ => none

/-- The mutex that a step has to wait for; where the code locks `lt->sched->mutex`, the field is
read. -/
def State.locks (s : State m) : Label m → Option (Mutex m)
  | .sched i _ => (s.schedPc i).locks s.sched i
  | .unpark i => some (.sched i)
  | .call i op => (ltCurrent s i).bind fun t => op.locks s.sched i t
  | .cont i => (ltCurrent s i).bind fun t => (s.pc t).locks s.sched t
  | .poller =>
    match s.pollerPc with
    | .push t _ _ _ _ => some (.sched (s.sched t))
    | _ => none
  | _ => none

/-- The OS thread of scheduler `k` has left a section with the mutex locked. -/
def State.keeps (s : State m) (k : Fin (m + 1)) : Mutex m → Prop
  | .sched i => k = i ∧ s.schedPc i = .beginDeepSleep
  | .cond c => ∃ t, ltCurrent s k = some t ∧ s.condMutex c = some t

/-- The OS thread of the label has come to this section, or its lthread may make this call. -/
def State.isNext (s : State m) : Label m → Prop
  | .sched i _ =>
    match s.schedPc i with
    | .running _ | .parked _ _ _ | .finished => False
    | _ => True
  | .unpark i => ∃ a b d, s.schedPc i = .parked a b d
  | .call i op => ∃ t, ltCurrent s i = some t ∧ s.pc t = .user ∧
      (∀ fd, op = .socket fd → s.isOpen fd = false) ∧ ∀ fd, op = .close fd → s.isOpen fd = true
  | .cont i => ∃ t, ltCurrent s i = some t ∧ s.pc t ≠ .user
  | .poller => s.pollerPc ≠ .poll
  | _ => False

/-- Somebody keeps the mutex. -/
def State.Blocked (s : State m) (x : Option (Mutex m)) : Prop := ∃ y ∈ x, ∃ k, s.keeps k y

def State.WaitsFor (s : State m) (τ σ : OsThread m) : Prop :=
  ∃ l, l.thread = some τ ∧ s.isNext l ∧ ∃ y ∈ s.locks l, ∃ k, s.keeps k y ∧ σ = .sched k

/-- An OS thread that resumes an lthread, runs it or has just left it finds its own scheduler in
`lt->sched` whenever it reads it, so it unlocks what it has locked. A section has to wait only for
a mutex that is kept, by one OS thread at a time. Those that wait do not wait in a circle: behind
two of them is one that does not wait. Who keeps a mutex and does not wait can go on, and gives it
up with its next step. -/
structure State.LocksSound (s : State m) : Prop where
  own : ∀ i t, s.schedPc i = .resume t ∨ s.schedPc i = .running t ∨ s.schedPc i = .leave t →
    s.sched t = i
  waits : ∀ l, s.isNext l → (exec s l = none ↔ s.Blocked (s.locks l))
  single : ∀ x k k', s.keeps k x → s.keeps k' x → k = k'
  short : ∀ τ σ ρ π, s.WaitsFor τ σ → s.WaitsFor σ ρ → ¬ s.WaitsFor ρ π
  acyclic : ∀ τ, ¬ Relation.TransGen s.WaitsFor τ τ
  released : ∀ k x, s.keeps k x → (∀ σ, ¬ s.WaitsFor (.sched k) σ) →
    (∃ l s', l.thread = some (.sched k) ∧ step s l = some s') ∧
    ∀ l s', l.thread = some (.sched k) → s.signalInTime l = true → step s l = some s' →
      ∀ j, ¬ s'.keeps j x

section Keepers

theorem State.keeps_sched : (∃ k, s.keeps k (.sched i)) ↔ ¬ s.mutexFree i := by
  simp [State.keeps, State.mutexFree]

theorem Inv.running_of_condSignal (hI : Inv s P) {u : ℕ} {next : AfterSignal}
    (hp : s.pc t = .condSignal c u next) : ∃ k, ltCurrent s k = some t := by
  have hrow := (hI.fits t).row
  rw [show (view s P t).pc = .condSignal c u next from hp] at hrow
  cases hr : P.run t with
  | off | ready k =>
    rw [show (view s P t).run = _ from hr] at hrow
    exact absurd hrow.1 id
  | held k h =>
    rw [show (view s P t).run = .held k h from hr] at hrow
    cases h with
    | popped => exact absurd hrow.1 id
    | leaving => exact absurd hrow id
    | running =>
      have hh := (hI.held k t .running).mpr hr
      cases hk : s.schedPc k <;> rw [hk] at hh <;> cases hh
      refine ⟨k, ?_⟩
      rw [ltCurrent, hk, hI.current k, hk]
      rfl

theorem Inv.keeps_cond (hI : Inv s P) :
    (∃ k, s.keeps k (.cond c)) ↔ s.condMutex c ≠ none := by
  constructor
  · rintro ⟨k, t, -, ht⟩
    rw [ht]
    exact Option.some_ne_none t
  · intro hc
    obtain ⟨t, ht⟩ := Option.ne_none_iff_exists'.mp hc
    obtain ⟨u, next, hp⟩ := (hI.mutex c t).mp ht
    obtain ⟨k, hk⟩ := hI.running_of_condSignal hp
    exact ⟨k, t, hk, ht⟩

theorem Inv.keeps_single {x : Mutex m} {k' : Fin (m + 1)} (hI : Inv s P) (h : s.keeps k x)
    (h' : s.keeps k' x) : k = k' := by
  cases x with
  | sched i => exact h.1.trans h'.1.symm
  | cond c =>
    obtain ⟨t, hk, ht⟩ := h
    obtain ⟨t', hk', ht'⟩ := h'
    obtain rfl := Option.some.inj (ht.symm.trans ht')
    have hrun := (hI.toAgree.running hk).2.symm.trans (hI.toAgree.running hk').2
    cases hrun
    rfl

end Keepers

section Waiting

theorem wakeNeighbor_eq_none {next : SchedPc m} :
    wakeNeighbor s i next = none ↔ schedNeighbor i ≠ i ∧ ¬ s.mutexFree (schedNeighbor i) := by
  unfold wakeNeighbor
  split_ifs with h₁ h₂
  · simp [h₁]
  · simp [h₂]
  · simp [h₁, h₂]

theorem State.not_blocked_none : ¬ s.Blocked none := by simp [State.Blocked]

theorem State.blocked_sched : s.Blocked (some (.sched i)) ↔ ¬ s.mutexFree i := by
  simp [State.Blocked, State.keeps_sched]

theorem Inv.blocked_cond (hI : Inv s P) : s.Blocked (some (.cond c)) ↔ s.condMutex c ≠ none := by
  simp [State.Blocked, hI.keeps_cond]

theorem Inv.sched_waits (hI : Inv s P) (hl : s.isNext (.sched i b)) :
    schedStep s i b = none ↔ s.Blocked ((s.schedPc i).locks s.sched i) := by
  cases hp : s.schedPc i with
  | expire | popOwn | steal | setSched | beginDeepSleep =>
    simp [schedStep, hp, SchedPc.locks, State.not_blocked_none]
  | expiring | popBlock | leave | block =>
    simp [schedStep, hp, SchedPc.locks, State.blocked_sched, State.mutexFree]
  | resume t =>
    simp [schedStep, hp, SchedPc.locks, State.blocked_sched, State.mutexFree, hI.resume i t hp]
  | wakeNeighbor t | exiting =>
    simp only [schedStep, hp, SchedPc.locks, Option.map_eq_none_iff, wakeNeighbor_eq_none]
    split_ifs with h
    · simp [h, State.not_blocked_none]
    · simp [h, State.blocked_sched]
  | running | parked | finished => simp [State.isNext, hp] at hl

theorem mutexFree_of_current (hc : ltCurrent s i = some t) : s.mutexFree i := by
  obtain ⟨⟨r, hr⟩, -⟩ := ltCurrent_eq_some hc
  simp [State.mutexFree, hr]

theorem Inv.call_waits {op : Op} (hI : Inv s P) (hc : ltCurrent s i = some t)
    (hs : ∀ fd, op = .socket fd → s.isOpen fd = false)
    (ho : ∀ fd, op = .close fd → s.isOpen fd = true) :
    callStep s i t op = none ↔ s.Blocked (op.locks s.sched i t) := by
  have hfree := mutexFree_of_current hc
  cases op with
  | spawn => simp [callStep, Op.locks, State.blocked_sched, hfree]
  | yield | sleep =>
    simp [callStep, Op.locks, State.blocked_sched, hI.sched_of_current hc, hfree]
  | condLock c | condWait c _ | condUnlockSignal c =>
    simp [callStep, Op.locks, hI.blocked_cond]
  | waitFd | exit | ret => simp [callStep, Op.locks, State.not_blocked_none]
  | socket fd => simp [callStep, Op.locks, State.not_blocked_none, hs fd rfl]
  | close fd => simp [callStep, Op.locks, State.not_blocked_none, ho fd rfl]

theorem Inv.cont_waits (hI : Inv s P) (hc : ltCurrent s i = some t) (hu : s.pc t ≠ .user) :
    contStep s i t = none ↔ s.Blocked ((s.pc t).locks s.sched t) := by
  have hfree := mutexFree_of_current hc
  have hrow := (hI.fits t).row
  rw [show (view s P t).run = _ from (hI.toAgree.running hc).2] at hrow
  cases hp : s.pc t with
  | user => exact absurd hp hu
  | unborn | exited | returned =>
    rw [show (view s P t).pc = _ from hp] at hrow
    exact absurd hrow.1 id
  | register | waitFd | slept | condLocked =>
    simp [contStep, hp, Pc.locks, State.not_blocked_none]
  | condSleep =>
    simp [contStep, hp, Pc.locks, State.blocked_sched, hI.sched_of_current hc, hfree]
  | condWake c =>
    simp [contStep, hp, Pc.locks, hI.blocked_cond]
  | condSignal =>
    simp [contStep, hp, Pc.locks, State.blocked_sched]

theorem poller_waits (hl : s.pollerPc ≠ .poll) :
    pollerStep s = none ↔ s.Blocked (s.locks .poller) := by
  cases hp : s.pollerPc with
  | poll => exact absurd hp hl
  | desched ev dir ltRead rest =>
    simp only [pollerStep, hp, State.locks, State.not_blocked_none, iff_false]
    split <;> simp
  | push => simp [pollerStep, hp, State.locks, State.blocked_sched]
  | account => simp [pollerStep, hp, State.locks, State.not_blocked_none]

theorem Inv.exec_waits (hI : Inv s P) (hl : s.isNext l) :
    exec s l = none ↔ s.Blocked (s.locks l) := by
  cases l with
  | sched i b => exact hI.sched_waits hl
  | unpark i =>
    obtain ⟨a, b, d, hp⟩ := hl
    simp [exec, State.locks, hp, State.blocked_sched, State.mutexFree]
  | call i op =>
    obtain ⟨t, hc, hu, hs, ho⟩ := hl
    simpa [exec, State.locks, hc, hu] using hI.call_waits hc hs ho
  | cont i =>
    obtain ⟨t, hc, hu⟩ := hl
    simpa [exec, State.locks, hc] using hI.cont_waits hc hu
  | poller => exact poller_waits hl
  | tick | kevent | fire | inject => exact absurd hl id

end Waiting

section Circles

variable {σ ρ π τ : OsThread m} {u : ℕ} {next : AfterSignal}

theorem eq_sched_of_isNext (hp : s.schedPc k = .beginDeepSleep) (hl : l.thread = some (.sched k))
    (hn : s.isNext l) : ∃ b, l = .sched k b := by
  cases l with
  | sched i b =>
    cases hl
    exact ⟨b, rfl⟩
  | unpark i | call i op | cont i =>
    cases hl
    simp [State.isNext, ltCurrent, hp] at hn
  | tick | poller | kevent | fire | inject => cases hl

theorem eq_cont_of_isNext (hc : ltCurrent s k = some t) (hp : s.pc t = .condSignal c u next)
    (hl : l.thread = some (.sched k)) (hn : s.isNext l) : l = .cont k := by
  obtain ⟨⟨r, hr⟩, -⟩ := ltCurrent_eq_some hc
  cases l with
  | sched i b | unpark i =>
    cases hl
    simp [State.isNext, hr] at hn
  | call i op =>
    cases hl
    simp [State.isNext, hc, hp] at hn
  | cont i =>
    cases hl
    rfl
  | tick | poller | kevent | fire | inject => cases hl

theorem not_waitsFor_of_beginDeepSleep (hp : s.schedPc k = .beginDeepSleep) :
    ¬ s.WaitsFor (.sched k) σ := by
  rintro ⟨l, hl, hn, y, hy, -⟩
  obtain ⟨b, rfl⟩ := eq_sched_of_isNext hp hl hn
  simp [State.locks, SchedPc.locks, hp] at hy

theorem waitsFor_of_condSignal (hc : ltCurrent s k = some t) (hp : s.pc t = .condSignal c u next)
    (h : s.WaitsFor (.sched k) σ) : ∃ j, σ = .sched j ∧ s.schedPc j = .beginDeepSleep := by
  obtain ⟨l, hl, hn, y, hy, j, hk, rfl⟩ := h
  obtain rfl := eq_cont_of_isNext hc hp hl hn
  simp only [State.locks, hc, Option.bind_some, hp, Pc.locks, Option.mem_def,
    Option.some.injEq] at hy
  subst hy
  obtain ⟨rfl, hj⟩ := hk
  exact ⟨_, rfl, hj⟩

theorem Inv.waits_short (hI : Inv s P) (h : s.WaitsFor τ σ) (h' : s.WaitsFor σ ρ) :
    ¬ s.WaitsFor ρ π := by
  obtain ⟨l, -, -, y, -, k, hk, rfl⟩ := h
  cases y with
  | sched i =>
    obtain ⟨rfl, hi⟩ := hk
    exact absurd h' (not_waitsFor_of_beginDeepSleep hi)
  | cond c =>
    obtain ⟨t, hc, ht⟩ := hk
    obtain ⟨u, next, hp⟩ := (hI.mutex c t).mp ht
    obtain ⟨j, rfl, hj⟩ := waitsFor_of_condSignal hc hp h'
    exact not_waitsFor_of_beginDeepSleep hj

theorem exists_step_on_circle {α : Type*} {r : α → α → Prop} {a : α} (h : Relation.TransGen r a a) :
    ∃ b, r a b ∧ Relation.TransGen r b b := by
  obtain ⟨b, hab, hba⟩ := Relation.TransGen.head'_iff.mp h
  exact ⟨b, hab, Relation.TransGen.tail' hba hab⟩

theorem Inv.waits_acyclic (hI : Inv s P) : ¬ Relation.TransGen s.WaitsFor τ τ := by
  intro h
  obtain ⟨σ, h₁, h⟩ := exists_step_on_circle h
  obtain ⟨ρ, h₂, h⟩ := exists_step_on_circle h
  obtain ⟨π, h₃, -⟩ := exists_step_on_circle h
  exact hI.waits_short h₁ h₂ h₃

theorem exists_step_of_exec (hf : s.fault = none) (h : exec s l ≠ none) :
    ∃ s', step s l = some s' := by
  obtain ⟨r, hr⟩ := Option.ne_none_iff_exists'.mp h
  cases r <;> simp [step, hf, hr]

theorem isNext_of_step (hl : l.thread = some (.sched k)) (hs : step s l = some s') :
    s.isNext l := by
  have he : exec s l ≠ none := by
    intro he
    simp [step, he] at hs
  cases l with
  | sched i b =>
    cases hp : s.schedPc i with
    | running | parked | finished => simp [exec, schedStep, hp] at he
    | _ => simp [State.isNext, hp]
  | unpark i =>
    cases hp : s.schedPc i with
    | parked a b d => exact ⟨a, b, d, hp⟩
    | _ => simp [exec, hp] at he
  | call i op =>
    cases hc : ltCurrent s i with
    | none => simp [exec, hc] at he
    | some t =>
      by_cases hu : s.pc t = .user
      · refine ⟨t, hc, hu, ?_, ?_⟩
        · rintro fd rfl
          simpa [exec, hc, hu, callStep] using he
        · rintro fd rfl
          simpa [exec, hc, hu, callStep] using he
      · simp [exec, hc, hu] at he
  | cont i =>
    cases hc : ltCurrent s i with
    | none => simp [exec, hc] at he
    | some t =>
      refine ⟨t, hc, fun hu => ?_⟩
      simp [exec, hc, contStep, hu] at he
  | tick | poller | kevent | fire | inject => cases hl

theorem condMutex_of_condSignalled (h : condSignalled s c t next = .ok s') :
    s'.condMutex c = none := by
  obtain ⟨-, rfl⟩ | ⟨timeout, -, h⟩ := condSignalled_ok h
  · exact Function.update_self ..
  · obtain ⟨-, rfl⟩ := condBlock_ok h
    exact Function.update_self ..

theorem released_deepSleep (hp : s.schedPc k = .beginDeepSleep) (hl : l.thread = some (.sched k))
    (hs : step s l = some s') : s'.mutexFree k := by
  obtain ⟨b, rfl⟩ := eq_sched_of_isNext hp hl (isNext_of_step hl hs)
  obtain ⟨-, h | ⟨f, he, -⟩⟩ := step_cases hs
  · cases h with
    | deepSleep =>
      obtain ⟨-, hd⟩ | ⟨-, hd⟩ := schedDeepSleep_cases s k <;> rw [hd] <;> simp [State.mutexFree]
    | _ => simp_all [SchedPc.probe]
  · simp [exec, schedStep, hp] at he

theorem Inv.released_condSignal (hI : Inv s P) (hc : ltCurrent s k = some t)
    (hp : s.pc t = .condSignal c u next) (hl : l.thread = some (.sched k))
    (hg : s.signalInTime l = true) (hs : Lthread.step s l = some s') : s'.condMutex c = none := by
  obtain rfl := eq_cont_of_isNext hc hp hl (isNext_of_step hl hs)
  obtain ⟨-, h | ⟨f, he, -⟩⟩ := step_cases hs
  · cases h with
    | condSignalled hc' hp' _ _ h₁ =>
      obtain rfl := Option.some.inj (hc.symm.trans hc')
      cases hp.symm.trans hp'
      exact condMutex_of_condSignalled h₁
    | _ => simp_all
  · simp only [exec, hc, contStep, hp] at he
    split at he
    · exact absurd (Option.some.inj he) (hI.signalled_ok hg hc hp)
    · cases he

end Circles

theorem Inv.own_sched (hI : Inv s P)
    (h : s.schedPc i = .resume t ∨ s.schedPc i = .running t ∨ s.schedPc i = .leave t) :
    s.sched t = i := by
  obtain h | h | h := h
  · exact hI.resume i t h
  · exact (hI.fits t).held i .running ((hI.held i t .running).mp (by rw [h]; rfl)) (by simp)
  · exact (hI.fits t).held i .leaving ((hI.held i t .leaving).mp (by rw [h]; rfl)) (by simp)

theorem Inv.released {x : Mutex m} (hI : Inv s P) (hf : s.fault = none) (hk : s.keeps k x)
    (hw : ∀ σ, ¬ s.WaitsFor (.sched k) σ) :
    (∃ l s', l.thread = some (.sched k) ∧ Lthread.step s l = some s') ∧
    ∀ l s', l.thread = some (.sched k) → s.signalInTime l = true → Lthread.step s l = some s' →
      ∀ j, ¬ s'.keeps j x := by
  cases x with
  | sched i =>
    obtain ⟨rfl, hp⟩ := hk
    obtain ⟨s', hs⟩ := exists_step_of_exec (l := .sched k true) hf (by simp [exec, schedStep, hp])
    exact ⟨⟨_, s', rfl, hs⟩, fun l s' hl _ hs j hj => released_deepSleep hp hl hs hj.2⟩
  | cond c =>
    obtain ⟨t, hc, ht⟩ := hk
    obtain ⟨u, next, hp⟩ := (hI.mutex c t).mp ht
    have hfree : s.mutexFree (s.sched u) := by
      intro hu
      refine hw (.sched (s.sched u)) ⟨.cont k, rfl, ⟨t, hc, by simp [hp]⟩, .sched (s.sched u), ?_,
        s.sched u, ⟨rfl, hu⟩, rfl⟩
      simp [State.locks, hc, hp, Pc.locks]
    obtain ⟨s', hs⟩ := exists_step_of_exec (l := .cont k) hf
      (by simp [exec, hc, contStep, hp, hfree])
    refine ⟨⟨_, s', rfl, hs⟩, ?_⟩
    rintro l s' hl hg hs j ⟨t', -, ht'⟩
    rw [hI.released_condSignal hc hp hl hg hs] at ht'
    cases ht'

/-- In every state of every run whose signals come in time the mutexes are used as they should be,
and nobody waits in a circle. -/
theorem mutexes_never_deadlock (hr : InTimeReach clock isOpen s) (hf : s.fault = none) :
    s.LocksSound := by
  obtain ⟨P, hI⟩ := hr.exists_inv
  exact {
    own := fun i t h => hI.own_sched h
    waits := fun l hl => hI.exec_waits hl
    single := fun x k k' h h' => hI.keeps_single h h'
    short := fun τ σ ρ π h h' => hI.waits_short h h'
    acyclic := fun τ => hI.waits_acyclic
    released := fun k x hk hw => hI.released hf hk hw }

/-- A signal is for a lthread of scheduler 1, which keeps its mutex on the way to deep sleep. -/
theorem mutexes_never_deadlock_signal : ∃ s : State 1, InTimeReach 5 (fun _ => false) s ∧
    (s.condMutex 0 = some 0 ∧ s.schedPc 1 = .beginDeepSleep) ∧
    s.WaitsFor (.sched 0) (.sched 1) ∧ exec s (.cont 0) = none ∧
    ∃ l s', l.thread = some (.sched 1) ∧ step s l = some s' := by
  obtain ⟨s, hr, hs, hf, hc, hp, hu⟩ : ∃ s : State 1, InTimeReach 5 (fun _ => false) s ∧
      (s.condMutex 0 = some 0 ∧ s.schedPc 1 = .beginDeepSleep) ∧ s.fault = none ∧
      ltCurrent s 0 = some 0 ∧ s.pc 0 = .condSignal 0 1 .unlock ∧ s.sched 1 = 1 :=
    Runs.exists_reach_of_run (Label.scheds 0 6 ++
      [.call 0 .spawn, .call 0 (.condLock 0), .cont 0] ++ Label.scheds 1 7 ++
      [.call 1 (.condLock 0), .cont 1] ++ Label.scheds 1 13 ++ [.call 0 (.condUnlockSignal 0)])
      (by decide +kernel)
  have h := mutexes_never_deadlock hr hf
  have hnext : s.isNext (.cont 0) := ⟨0, hc, by simp [hp]⟩
  have hlocks : s.locks (.cont 0) = some (.sched 1) := by simp [State.locks, hc, hp, Pc.locks, hu]
  have hkeeps : s.keeps 1 (.sched 1) := ⟨rfl, hs.2⟩
  refine ⟨s, hr, hs, ⟨.cont 0, rfl, hnext, _, hlocks, 1, hkeeps, rfl⟩, ?_, ?_⟩
  · exact (h.waits _ hnext).mpr ⟨_, hlocks, 1, hkeeps⟩
  · exact (h.released 1 _ hkeeps fun _ => not_waitsFor_of_beginDeepSleep hs.2).1

end Lthread
