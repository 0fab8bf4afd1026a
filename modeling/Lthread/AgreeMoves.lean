import Lthread.Life

namespace Lthread

open Function (update update_apply)

variable {m : ℕ} {s : State m} {P : Places m} {i j : Fin (m + 1)} {t u c : ℕ}

theorem Agree.mem_ready (hA : Agree s P) : t ∈ s.ready i ↔ P.run t = .ready i := by
  rw [← List.count_pos_iff, hA.ready i t]
  split <;> simp_all

theorem Agree.mem_sleeping (hA : Agree s P) : t ∈ s.sleeping i ↔ P.tree t = some i := by
  rw [← List.count_pos_iff, hA.tree i t]
  split <;> simp_all

theorem Agree.mem_waiting (hA : Agree s P) : t ∈ s.waiting ↔ P.io t = .waiting := by
  rw [← List.count_pos_iff, hA.waiting t]
  split <;> simp_all

theorem Agree.mem_blocked (hA : Agree s P) : t ∈ s.blockedLthreads c ↔ P.cond t = .blocked c := by
  rw [← List.count_pos_iff, hA.blocked c t]
  split <;> simp_all

theorem Agree.running (hA : Agree s P) (h : ltCurrent s i = some t) :
    s.schedPc i = .running t ∧ P.run t = .held i .running := by
  obtain ⟨⟨r, hr⟩, hc⟩ := ltCurrent_eq_some h
  have hcur := hA.current i
  rw [hr, hc] at hcur
  cases hcur
  exact ⟨hr, (hA.held i t .running).mp (by rw [hr]; rfl)⟩

theorem Agree.held_of_current (hA : Agree s P)
    (h : s.currentLthread i = some t) : P.run t = .held i .running ∨ P.run t = .held i .leaving := by
  rw [hA.current i] at h
  cases hp : s.schedPc i <;> simp only [hp, SchedPc.current, reduceCtorEq] at h
  · cases h
    exact .inl ((hA.held i t .running).mp (by rw [hp]; rfl))
  · cases h
    exact .inr ((hA.held i t .leaving).mp (by rw [hp]; rfl))

theorem Agree.current_of_held (hA : Agree s P) {g : Hold} (h : P.run t = .held i g)
    (hg : g ≠ .popped) : s.currentLthread i = some t := by
  have hh := (hA.held i t g).mpr h
  rw [hA.current i]
  cases hp : s.schedPc i <;> rw [hp] at hh <;> cases hh
  case wakeNeighbor | setSched | resume => exact absurd rfl hg
  case running | leave => rfl

theorem Agree.pass {p : SchedPc m} (hA : Agree s P) (ho : (s.schedPc i).holds = none)
    (hp : p.holds = none) (hc : p.current = (s.schedPc i).current) :
    Agree { s with schedPc := update s.schedPc i p } P := by
  refine { hA with held := ?_, current := ?_ }
  · intro k u h
    have h₁ := hA.held k u h
    grind [update_apply]
  · intro k
    have h₁ := hA.current k
    grind [update_apply]

theorem Agree.pop {v : Fin (m + 1)} {rest : List ℕ} {p : SchedPc m} (hA : Agree s P)
    (hr : s.ready v = t :: rest) (ho : (s.schedPc i).holds = none)
    (hc : (s.schedPc i).current = none) (hp : p.holds = some (t, .popped)) (hpc : p.current = none) :
    Agree { s with ready := update s.ready v rest, schedPc := update s.schedPc i p }
      { P with run := update P.run t (.held i .popped) } := by
  have ht : P.run t = .ready v := hA.mem_ready.mp (by simp [hr])
  refine { hA with ready := ?_, held := ?_, current := ?_ }
  · intro k u
    have h₁ := hA.ready k u
    have h₂ := hA.ready v u
    simp only [hr, List.count_cons] at h₂
    grind [update_apply]
  · intro k u h
    have h₁ := hA.held k u h
    grind [update_apply]
  · intro k
    have h₁ := hA.current k
    grind [update_apply]

theorem Agree.hold {p : SchedPc m} {h h' : Hold} {cur : Fin (m + 1) → Option ℕ} (hA : Agree s P)
    (ho : (s.schedPc i).holds = some (t, h)) (hp : p.holds = some (t, h'))
    (hc : ∀ k, cur k = (update s.schedPc i p k).current) :
    Agree { s with schedPc := update s.schedPc i p, currentLthread := cur }
      { P with run := update P.run t (.held i h') } := by
  have ht := (hA.held i t h).mp ho
  refine { hA with ready := ?_, held := ?_, current := hc }
  · intro k u
    have h₁ := hA.ready k u
    grind [update_apply]
  · intro k u h
    have h₁ := hA.held k u h
    grind [update_apply]

theorem Agree.release {p : SchedPc m} {h : Hold} (hA : Agree s P)
    (ho : (s.schedPc i).holds = some (t, h)) (hp : p.holds = none) (hc : p.current = none) :
    Agree { s with
      schedPc := update s.schedPc i p, currentLthread := update s.currentLthread i none }
      { P with run := update P.run t .off } := by
  have ht := (hA.held i t h).mp ho
  refine { hA with ready := ?_, held := ?_, current := ?_ }
  · intro k u
    have h₁ := hA.ready k u
    grind [update_apply]
  · intro k u h
    have h₁ := hA.held k u h
    grind [update_apply]
  · intro k
    have h₁ := hA.current k
    grind [update_apply]

theorem Agree.enqueue (hA : Agree s P) (h : P.run t = .off) :
    Agree { s with ready := update s.ready i (s.ready i ++ [t]) }
      { P with run := update P.run t (.ready i) } := by
  refine { hA with ready := ?_, held := ?_ }
  · intro k u
    have h₁ := hA.ready k u
    have h₂ : List.count u [t] = if u = t then 1 else 0 := by
      rw [List.count_singleton]
      grind
    grind [update_apply]
  · intro k u h
    have h₁ := hA.held k u h
    grind [update_apply]

@[simp] theorem SchedPc.signal_holds (p : SchedPc m) : p.signal.holds = p.holds := by
  cases p <;> rfl

@[simp] theorem SchedPc.signal_current (p : SchedPc m) : p.signal.current = p.current := by
  cases p <;> rfl

theorem schedWakeUnsafe_holds (s : State m) (i k : Fin (m + 1)) :
    ((schedWakeUnsafe s i).schedPc k).holds = (s.schedPc k).holds ∧
    ((schedWakeUnsafe s i).schedPc k).current = (s.schedPc k).current := by
  cases hb : s.blockState i with
  | willBlock | wontBlock => simp [schedWakeUnsafe, hb]
  | isBlocking =>
    by_cases h : k = i
    · subst h
      simp [schedWakeUnsafe, hb]
    · simp [schedWakeUnsafe, hb, h]

theorem Agree.wake (hA : Agree s P) : Agree (schedWakeUnsafe s i) P :=
  { hA with
    held := fun k u h => by rw [(schedWakeUnsafe_holds s i k).1]; exact hA.held k u h
    current := fun k => by rw [(schedWakeUnsafe_holds s i k).2]; exact hA.current k }

theorem Agree.sleep {tree : List ℕ} (hA : Agree s P) (ht : P.tree t = none)
    (hp : tree.Perm (t :: s.sleeping i)) :
    Agree { s with sleeping := update s.sleeping i tree }
      { P with tree := update P.tree t (some i) } := by
  refine { hA with tree := ?_ }
  intro k u
  have h₁ := hA.tree k u
  have h₂ := hp.count_eq u
  rw [List.count_cons] at h₂
  grind [update_apply]

theorem Agree.unsleep (hA : Agree s P) (ht : t ∈ s.sleeping i) :
    Agree { s with sleeping := update s.sleeping i ((s.sleeping i).erase t) }
      { P with tree := update P.tree t none } := by
  have hp := hA.mem_sleeping.mp ht
  refine { hA with tree := ?_ }
  intro k u
  have h₁ := hA.tree k u
  have h₂ := List.count_erase (a := u) (b := t) (l := s.sleeping i)
  grind [update_apply]

theorem Agree.setPc {p : Pc} (hA : Agree s P) (ho : ∀ c u k, s.pc t ≠ .condSignal c u k)
    (hp : ∀ c u k, p ≠ .condSignal c u k) : Agree { s with pc := update s.pc t p } P := by
  refine { hA with signal := ?_ }
  intro c u
  rw [← hA.signal c u]
  constructor <;> rintro ⟨v, k, h⟩ <;> refine ⟨v, k, ?_⟩ <;> by_cases hv : v = t <;>
    grind [update_apply]

theorem Agree.addWaiting {waiting : List ℕ} (hA : Agree s P) (ht : P.io t = .none)
    (hp : waiting.Perm (t :: s.waiting)) :
    Agree { s with waiting := waiting } { P with io := update P.io t .waiting } := by
  refine { hA with waiting := ?_, hands := ?_ }
  · intro u
    have h₁ := hA.waiting u
    have h₂ := hp.count_eq u
    rw [List.count_cons] at h₂
    grind [update_apply]
  · intro u
    have h₁ := hA.hands u
    grind [update_apply]

theorem Agree.desched {p : PollerPc} (hA : Agree s P) (ht : t ∈ s.waiting)
    (ho : s.pollerPc.hands = none) (hp : p.hands = some t) :
    Agree { s with waiting := s.waiting.erase t, pollerPc := p }
      { P with io := update P.io t .hands } := by
  have hio := hA.mem_waiting.mp ht
  refine { hA with waiting := ?_, hands := ?_ }
  · intro u
    have h₁ := hA.waiting u
    have h₂ := List.count_erase (a := u) (b := t) (l := s.waiting)
    grind [update_apply]
  · intro u
    have h₁ := hA.hands u
    grind [update_apply]

theorem Agree.handOver {p : PollerPc} (hA : Agree s P) (ho : s.pollerPc.hands = some t)
    (hp : p.hands = none) :
    Agree { s with pollerPc := p } { P with io := update P.io t .none } := by
  refine { hA with waiting := ?_, hands := ?_ }
  · intro u
    have h₁ := hA.waiting u
    have h₂ := hA.hands u
    grind [update_apply]
  · intro u
    have h₁ := hA.hands u
    grind [update_apply]

theorem Agree.block (hA : Agree s P) (ht : P.cond t = .none) :
    Agree { s with blockedLthreads := update s.blockedLthreads c (s.blockedLthreads c ++ [t]) }
      { P with cond := update P.cond t (.blocked c) } := by
  refine { hA with blocked := ?_, signal := ?_ }
  · intro d u
    have h₁ := hA.blocked d u
    have h₂ : List.count u [t] = if u = t then 1 else 0 := by
      rw [List.count_singleton]
      grind
    grind [update_apply]
  · intro d u
    rw [hA.signal d u]
    grind [update_apply]

theorem Agree.unblock (hA : Agree s P) (ht : t ∈ s.blockedLthreads c) :
    Agree { s with blockedLthreads := update s.blockedLthreads c ((s.blockedLthreads c).erase t) }
      { P with cond := update P.cond t .none } := by
  have hp := hA.mem_blocked.mp ht
  refine { hA with blocked := ?_, signal := ?_ }
  · intro d u
    have h₁ := hA.blocked d u
    have h₂ := List.count_erase (a := u) (b := t) (l := s.blockedLthreads c)
    grind [update_apply]
  · intro d u
    rw [hA.signal d u]
    grind [update_apply]

theorem Agree.takeBlocked {rest : List ℕ} (hA : Agree s P) (next : AfterSignal)
    (hb : s.blockedLthreads c = u :: rest) (ho : ∀ c u k, s.pc t ≠ .condSignal c u k) :
    Agree { s with
      blockedLthreads := update s.blockedLthreads c rest
      pc := update s.pc t (.condSignal c u next) }
      { P with cond := update P.cond u (.hands c) } := by
  have hp : P.cond u = .blocked c := hA.mem_blocked.mp (by simp [hb])
  refine { hA with blocked := ?_, signal := ?_ }
  · intro d v
    have h₁ := hA.blocked d v
    have h₂ := hA.blocked c v
    simp only [hb, List.count_cons] at h₂
    grind [update_apply]
  · intro d v
    dsimp only
    have h₁ := hA.signal d v
    constructor
    · rintro ⟨x, k, hx⟩
      by_cases hxt : x = t
      · subst hxt
        simp only [Function.update_self, Pc.condSignal.injEq] at hx
        obtain ⟨rfl, rfl, rfl⟩ := hx
        simp
      · rw [Function.update_of_ne hxt] at hx
        have h₂ := h₁.mp ⟨x, k, hx⟩
        grind [update_apply]
    · intro hv
      by_cases hvu : v = u
      · subst hvu
        simp only [Function.update_self, CondPlace.hands.injEq] at hv
        subst hv
        exact ⟨t, next, by simp⟩
      · rw [update_apply, if_neg hvu] at hv
        obtain ⟨x, k, hx⟩ := h₁.mpr hv
        have hxt : x ≠ t := fun e => ho d v k (e ▸ hx)
        exact ⟨x, k, by rw [Function.update_of_ne hxt]; exact hx⟩

theorem Agree.signalled {next : AfterSignal} {p : Pc} (hA : Agree s P)
    (ho : s.pc t = .condSignal c u next) (hu : ∀ x k, s.pc x = .condSignal c u k → x = t)
    (hp : ∀ c u k, p ≠ .condSignal c u k) :
    Agree { s with pc := update s.pc t p } { P with cond := update P.cond u .none } := by
  have hc : P.cond u = .hands c := (hA.signal c u).mp ⟨t, next, ho⟩
  refine { hA with blocked := ?_, signal := ?_ }
  · intro d v
    have h₁ := hA.blocked d v
    grind [update_apply]
  · intro d v
    dsimp only
    have h₁ := hA.signal d v
    constructor
    · rintro ⟨x, k, hx⟩
      have hxt : x ≠ t := by
        rintro rfl
        simp only [Function.update_self] at hx
        exact hp _ _ _ hx
      rw [Function.update_of_ne hxt] at hx
      have h₂ := h₁.mp ⟨x, k, hx⟩
      have hvu : v ≠ u := by
        rintro rfl
        rw [hc] at h₂
        cases h₂
        exact hxt (hu x k hx)
      grind [update_apply]
    · intro hv
      have hvu : v ≠ u := by
        rintro rfl
        simp at hv
      rw [update_apply, if_neg hvu] at hv
      obtain ⟨x, k, hx⟩ := h₁.mpr hv
      have hxt : x ≠ t := by
        rintro rfl
        rw [ho] at hx
        cases hx
        exact hvu rfl
      exact ⟨x, k, by rw [Function.update_of_ne hxt]; exact hx⟩

end Lthread
