import Lthread.Placement

namespace Lthread

variable {m : ℕ} {s : State m} {P : Places m} {t : ℕ} {clock : ℕ} {isOpen : ℕ → Bool}

inductive Place (m : ℕ) where
  | ready (i : Fin (m + 1))
  | popped (i : Fin (m + 1))
  | sleeping (i : Fin (m + 1))
  | waiting
  | pollerHands
  | blocked (c : ℕ)
  | signalled (u : ℕ)

def State.isAt (s : State m) (t : ℕ) : Place m → Prop
  | .ready i => t ∈ s.ready i
  | .popped i => s.schedPc i = .wakeNeighbor t ∨ s.schedPc i = .setSched t ∨ s.schedPc i = .resume t
  | .sleeping i => t ∈ s.sleeping i
  | .waiting => t ∈ s.waiting
  | .pollerHands => ∃ ev dir ltRead rest, s.pollerPc = .push t ev dir ltRead rest
  | .blocked c => t ∈ s.blockedLthreads c
  | .signalled u => ∃ c next, s.pc u = .condSignal c t next

/-- Every lthread is where it should be, and once only. -/
structure State.Placed (s : State m) : Prop where
  unique : ∀ t, s.live t → (∀ i, s.currentLthread i ≠ some t) → ∃! p, s.isAt t p
  ready : ∀ i t, t ∈ s.ready i → s.sched t = i ∧ (s.ready i).count t = 1
  sleeping : ∀ i t, t ∈ s.sleeping i → s.sched t = i ∧ (s.sleeping i).count t = 1
  current : ∀ i j t, s.currentLthread i = some t → s.currentLthread j = some t → i = j
  running : ∀ i j t, s.currentLthread i = some t → t ∉ s.ready j
  freed : ∀ t, s.freed t = true → (∀ p, ¬ s.isAt t p) ∧ ∀ i, s.currentLthread i ≠ some t

theorem Agree.mem_popped (hA : Agree s P) {i : Fin (m + 1)} :
    s.isAt t (.popped i) ↔ P.run t = .held i .popped := by
  rw [← hA.held i t .popped]
  cases h : s.schedPc i <;> simp [State.isAt, h, SchedPc.holds]

theorem Agree.mem_pollerHands (hA : Agree s P) : s.isAt t .pollerHands ↔ P.io t = .hands := by
  rw [← hA.hands t]
  cases h : s.pollerPc <;> simp [State.isAt, h, PollerPc.hands]

theorem Inv.mem_signalled (hI : Inv s P) {u : ℕ} :
    s.isAt t (.signalled u) ↔ ∃ c, P.cond t = .hands c ∧ s.condMutex c = some u := by
  constructor
  · rintro ⟨c, k, h⟩
    exact ⟨c, (hI.signal c t).mp ⟨u, k, h⟩, (hI.mutex c u).mpr ⟨t, k, h⟩⟩
  · rintro ⟨c, h, hm⟩
    obtain ⟨v, k, hv⟩ := (hI.signal c t).mpr h
    have := (hI.mutex c v).mpr ⟨t, k, hv⟩
    rw [hm] at this
    cases this
    exact ⟨c, k, hv⟩

theorem Row.one_waker {k : Kind} {p : Pc} {n tree clear owns : Bool} {io : Io} {cond : CondPlace}
    (h : Row k p ⟨n, tree, io, cond⟩ clear owns) (hu : p.untimed = true)
    (hl : p ≠ .unborn ∧ p ≠ .exited ∧ p ≠ .returned) :
    (k = .ready → tree = false ∧ io = .none ∧ cond = .none) ∧
    (k = .off → (tree = true ∧ io = .none ∧ cond = .none) ∨
      (tree = false ∧ io ≠ .none ∧ cond = .none) ∨
      (tree = false ∧ io = .none ∧ cond ≠ .none)) := by
  constructor
  · rintro rfl
    cases p <;> simp_all [Row, ReadyRow, WokenRow, Wakers.idle, Pc.untimed]
  · rintro rfl
    cases p <;> simp_all [Row, OffRow, Wakers.onIo, Wakers.onCond, Pc.untimed]
    all_goals grind

def Places.isAt (P : Places m) (mutex : ℕ → Option ℕ) (t : ℕ) : Place m → Prop
  | .ready i => P.run t = .ready i
  | .popped i => P.run t = .held i .popped
  | .sleeping i => P.tree t = some i
  | .waiting => P.io t = .waiting
  | .pollerHands => P.io t = .hands
  | .blocked c => P.cond t = .blocked c
  | .signalled u => ∃ c, P.cond t = .hands c ∧ mutex c = some u

theorem Inv.isAt_iff (hI : Inv s P) (p : Place m) : s.isAt t p ↔ P.isAt s.condMutex t p := by
  cases p with
  | ready i => exact hI.toAgree.mem_ready
  | popped i => exact hI.toAgree.mem_popped
  | sleeping i => exact hI.toAgree.mem_sleeping
  | waiting => exact hI.toAgree.mem_waiting
  | pollerHands => exact hI.toAgree.mem_pollerHands
  | blocked c => exact hI.toAgree.mem_blocked
  | signalled u => exact hI.mem_signalled

section OnePlace

variable {mutex : ℕ → Option ℕ}

theorem Places.unique_of_ready (htree : P.tree t = none) (hio : P.io t = .none)
    (hcond : P.cond t = .none) {p : Place m} (hp : P.isAt mutex t p)
    (h : (∃ i, p = .ready i) ∨ ∃ i, p = .popped i) : ∃! p, P.isAt mutex t p := by
  refine ⟨p, hp, ?_⟩
  rintro (i | i | i | - | - | c | u) hq <;> obtain ⟨j, rfl⟩ | ⟨j, rfl⟩ := h <;>
    simp_all [Places.isAt]

theorem Places.unique_of_tree {i : Fin (m + 1)} (hrun : P.run t = .off) (htree : P.tree t = some i)
    (hio : P.io t = .none) (hcond : P.cond t = .none) : ∃! p, P.isAt mutex t p := by
  refine ⟨.sleeping i, htree, ?_⟩
  rintro (i | i | i | - | - | c | u) hq <;> simp_all [Places.isAt]

theorem Places.unique_of_io (hrun : P.run t = .off) (htree : P.tree t = none)
    (hio : P.io t ≠ .none) (hcond : P.cond t = .none) : ∃! p, P.isAt mutex t p := by
  cases h : P.io t with
  | none => exact absurd h hio
  | waiting =>
    refine ⟨.waiting, h, ?_⟩
    rintro (i | i | i | - | - | c | u) hq <;> simp_all [Places.isAt]
  | hands =>
    refine ⟨.pollerHands, h, ?_⟩
    rintro (i | i | i | - | - | c | u) hq <;> simp_all [Places.isAt]

theorem Places.unique_of_cond (hrun : P.run t = .off) (htree : P.tree t = none)
    (hio : P.io t = .none) (hcond : P.cond t ≠ .none)
    (hm : ∀ c, P.cond t = .hands c → ∃ u, mutex c = some u) : ∃! p, P.isAt mutex t p := by
  cases h : P.cond t with
  | none => exact absurd h hcond
  | blocked c =>
    refine ⟨.blocked c, h, ?_⟩
    rintro (i | i | i | - | - | c | u) hq <;> simp_all [Places.isAt]
  | hands c =>
    obtain ⟨u, hu⟩ := hm c h
    refine ⟨.signalled u, ⟨c, h, hu⟩, ?_⟩
    rintro (i | i | i | - | - | c | u) hq <;> simp_all [Places.isAt]

end OnePlace

theorem Inv.unique (hI : Inv s P) (hu : (s.pc t).untimed = true) (hl : s.live t)
    (hc : ∀ i, s.currentLthread i ≠ some t) : ∃! p, s.isAt t p := by
  obtain ⟨hready, hoff⟩ := (hI.fits t).row.one_waker hu hl
  simp only [view, Option.isSome_eq_false_iff, Option.isNone_iff_eq_none] at hready hoff
  simp only [hI.isAt_iff]
  cases hr : P.run t with
  | ready i =>
    obtain ⟨htree, hio, hcond⟩ := hready (by rw [hr]; rfl)
    exact Places.unique_of_ready htree hio hcond (p := .ready i) hr (.inl ⟨i, rfl⟩)
  | held i g =>
    cases g with
    | popped =>
      obtain ⟨htree, hio, hcond⟩ := hready (by rw [hr]; rfl)
      exact Places.unique_of_ready htree hio hcond (p := .popped i) hr (.inr ⟨i, rfl⟩)
    | running | leaving => exact absurd (hI.toAgree.current_of_held hr (by simp)) (hc i)
  | off =>
    obtain ⟨htree, hio, hcond⟩ | ⟨htree, hio, hcond⟩ | ⟨htree, hio, hcond⟩ := hoff (by rw [hr]; rfl)
    · obtain ⟨i, hi⟩ := Option.isSome_iff_exists.mp htree
      exact Places.unique_of_tree hr hi hio hcond
    · exact Places.unique_of_io hr htree hio hcond
    · refine Places.unique_of_cond hr htree hio hcond fun c h => ?_
      obtain ⟨u, k, hu⟩ := (hI.signal c t).mpr h
      exact ⟨u, (hI.mutex c u).mpr ⟨t, k, hu⟩⟩

theorem Inv.freed_nowhere (hI : Inv s P) (ht : s.freed t = true) :
    (∀ p, ¬ s.isAt t p) ∧ ∀ i, s.currentLthread i ≠ some t := by
  obtain ⟨hp, hrun⟩ := (hI.fits t).freed ht
  have hrow := (hI.fits t).row
  rw [hp, hrun] at hrow
  have hw := hrow.1
  simp only [OffRow, Wakers.idle, Wakers.mk.injEq, view] at hw hrun
  have htree : P.tree t = none := by simpa using hw.2.1
  refine ⟨fun p h => ?_, ?_⟩
  · rw [hI.isAt_iff] at h
    cases p <;> simp_all [Places.isAt]
  · intro i hi
    obtain h | h := hI.toAgree.held_of_current hi <;> simp [h] at hrun

theorem Inv.placed (hI : Inv s P) (hu : ∀ t, (s.pc t).untimed = true) : s.Placed where
  unique t hl hc := hI.unique (hu t) hl hc
  ready i t ht := by
    have hr := hI.toAgree.mem_ready.mp ht
    refine ⟨(hI.fits t).ready i hr, ?_⟩
    rw [hI.ready i t, if_pos hr]
  sleeping i t ht := by
    have hr := hI.toAgree.mem_sleeping.mp ht
    refine ⟨(hI.fits t).tree i hr, ?_⟩
    rw [hI.tree i t, if_pos hr]
  current i j t hi hj := by
    obtain h₁ | h₁ := hI.toAgree.held_of_current hi <;>
      obtain h₂ | h₂ := hI.toAgree.held_of_current hj <;> simp_all
  running i j t hi ht := by
    have hr := hI.toAgree.mem_ready.mp ht
    obtain h₁ | h₁ := hI.toAgree.held_of_current hi <;> simp_all
  freed _ ht := hI.freed_nowhere ht

/-- In every state of every run without timed waits each live lthread that is not
current is in exactly one place, the assertions of `_lthread_resume` and
`_lthread_yield` hold, and nobody has been linked a second time or taken out of a tree that
does not hold it. -/
theorem unique_placement (hr : UntimedReach clock isOpen s) :
    s.Placed ∧ s.fault ≠ some .resumeRunning ∧ s.fault ≠ some .resumeSched ∧
      s.fault ≠ some .yieldSched ∧ s.fault ≠ some .readyLink ∧ s.fault ≠ some .sleepLink ∧
      s.fault ≠ some .sleepUnlink := by
  obtain ⟨⟨P, hI⟩, hf⟩ := exists_inv_of_reach hr fun h _ => UntimedReach.signalInTime h _
  refine ⟨hI.placed hr.untimed, ?_, ?_, ?_, ?_, ?_, ?_⟩
  all_goals
    intro h
    obtain ⟨_, _, -, hc⟩ := hf _ h
    exact hc

/-- The main lthread sleeps, one lthread it has spawned was stolen by the other
scheduler and one is still in the ready queue. -/
theorem unique_placement_stolen : ∃ s : State 1, UntimedReach 5 (fun _ => false) s ∧
    (s.sleeping 0 = [0] ∧ s.schedPc 1 = .wakeNeighbor 1 ∧ s.ready 0 = [2]) ∧ s.Placed := by
  obtain ⟨s, hr, hs⟩ : ∃ s : State 1, UntimedReach 5 (fun _ => false) s ∧
      s.sleeping 0 = [0] ∧ s.schedPc 1 = .wakeNeighbor 1 ∧ s.ready 0 = [2] :=
    Runs.exists_reach_of_run (Label.scheds 0 6 ++ [.call 0 .spawn, .call 0 .spawn] ++
      Label.scheds 1 4 ++ [.call 0 (.sleep 3)] ++ Label.scheds 0 1) (by decide +kernel)
  exact ⟨s, hr, hs, (unique_placement hr).1⟩

end Lthread
