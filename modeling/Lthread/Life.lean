import Lthread.Places

namespace Lthread

variable {m : ℕ} {v : View m} {i j : Fin (m + 1)}

section Rows

variable {k : Kind} {p : Pc} {w : Wakers} {n tree clear owns : Bool} {io : Io} {cond : CondPlace}
  {c : ℕ}

attribute [local simp] Row OffRow ReadyRow RunningRow LeavingRow WokenRow Wakers.idle Wakers.again
  Wakers.onIo Wakers.onCond

theorem Row.resume (h : Row .ready p w clear owns) : Row .running p w clear owns := by
  cases p <;> first | exact h | exact h.1.elim

theorem Row.leave (h : Row .leaving p ⟨n, tree, io, cond⟩ clear owns) :
    Row (if n then .ready else .off) p ⟨false, tree, io, cond⟩ true owns := by
  cases n <;> cases p <;> simp_all

theorem Row.expire (h : Row .off p ⟨n, true, io, cond⟩ clear owns) :
    Row .ready p ⟨n, false, io, cond⟩ clear owns := by
  cases p <;> simp_all
  all_goals grind

theorem Row.desched (h : Row k p ⟨n, tree, .waiting, cond⟩ clear owns) :
    Row k p ⟨n, tree, .hands, cond⟩ clear owns := by
  cases k <;> cases p <;> simp_all

theorem Row.push (h : Row k p ⟨n, tree, .hands, cond⟩ clear owns) :
    (k = .off ∧ Row .ready p ⟨n, tree, .none, cond⟩ clear owns) ∨
    ((k = .running ∨ k = .leaving) ∧ Row k p ⟨true, tree, .none, cond⟩ clear owns) := by
  cases k <;> cases p <;> simp_all

theorem Row.isWait (h : Row k p ⟨n, tree, .hands, cond⟩ clear owns) : p.isWait = true := by
  cases k <;> cases p <;> simp_all [Pc.isWait]

theorem Row.blocked (h : Row k p ⟨n, tree, io, .blocked c⟩ clear owns) :
    (∃ timeout call, p = .condSleep c timeout call ∨ p = .condWake c timeout call) ∧
    owns = false ∧ Row k p ⟨n, tree, io, .hands c⟩ clear true := by
  cases k <;> cases p <;> simp_all

theorem Row.hands (h : Row k p ⟨n, tree, io, .hands c⟩ clear owns) :
    ∃ timeout call, owns = true ∧ n = false ∧ io = .none ∧
      ((p = .condSleep c timeout call ∧ k = .running ∧ tree = false ∧ clear = true) ∨
        (p = .condWake c timeout call ∧ k = .off ∧ tree = isTimed timeout ∧ clear = true) ∨
        (p = .condWake c timeout call ∧ k = .leaving ∧ tree = isTimed timeout ∧
          (isTimed timeout = true ∨ clear = true)) ∨
        (p = .condWake c timeout call ∧ (k = .ready ∨ k = .running) ∧ tree = false ∧
          clear = true ∧ isTimed timeout = true)) := by
  cases k <;> cases p <;> simp_all

theorem Row.woken (h : Row k p ⟨n, tree, io, .hands c⟩ clear owns)
    (hg : p.isTimedWait = true → clear = false) :
    (k = .off ∧ clear = true ∧ tree = false ∧ Row .ready p ⟨n, tree, io, .none⟩ clear owns) ∨
    ((k = .running ∨ k = .leaving) ∧ (clear = true → tree = false) ∧
      Row k p ⟨true, false, io, .none⟩ clear owns) := by
  obtain ⟨timeout, call, rfl, rfl, rfl, h₁ | h₁ | h₁ | h₁⟩ := h.hands
  · obtain ⟨rfl, rfl, rfl, rfl⟩ := h₁
    have ht : isTimed timeout = false := by simpa [Pc.isTimedWait] using hg
    simp [ht]
  · obtain ⟨rfl, rfl, rfl, rfl⟩ := h₁
    have ht : isTimed timeout = false := by simpa [Pc.isTimedWait] using hg
    simp [ht]
  · obtain ⟨rfl, rfl, rfl, hc⟩ := h₁
    refine .inr ⟨.inr rfl, ?_, ?_⟩
    · rintro rfl
      simpa [Pc.isTimedWait] using hg
    · simpa using hc
  · obtain ⟨rfl, -, -, rfl, ht⟩ := h₁
    simp [Pc.isTimedWait, ht] at hg

end Rows

theorem Fits.pop (hf : Fits v) (h : v.run = .ready j) : Fits { v with run := .held i .popped } := by
  have hr := hf.row
  have hg := hf.running
  have hx := hf.freed
  rw [h] at hr hg hx
  exact { hf with
    row := hr
    ready := by simp
    held := by simp
    running := hg
    freed := by simpa using hx }

theorem Fits.setSched (hf : Fits v) (h : v.run = .held i .popped) (ht : v.tree = none) :
    Fits { v with sched := i } :=
  { hf with
    ready := by simp [h]
    held := by simp [h]
    tree := by simp [ht] }

theorem Fits.resume (hf : Fits v) (h : v.run = .held i .popped) (hs : v.sched = i) :
    Fits { v with run := .held i .running, isRunning := true } := by
  have hr := hf.row
  have hx := hf.freed
  rw [h] at hr hx
  exact { hf with
    row := hr.resume
    ready := by simp
    held := by simp [hs]
    running := by simp [Run.kind]
    freed := by simpa using hx }

theorem Fits.leave (hf : Fits v) (h : v.run = .held i .leaving) :
    Fits { v with
      run := if v.needsResched then .ready i else .off
      needsResched := false
      clear := true
      isRunning := false
      freed := if v.stExited then true else v.freed } := by
  have hs := hf.held i .leaving h (by simp)
  have hr := hf.row
  have hx := hf.freed
  have he := hf.exited
  rw [h] at hr hx
  refine { hf with row := ?_, ready := ?_, held := ?_, running := ?_, freed := ?_ }
  · have hl := hr.leave
    cases hn : v.needsResched <;> simpa [hn, Run.kind] using hl
  · cases hn : v.needsResched <;> simp [hs]
  · cases hn : v.needsResched <;> simp
  · cases hn : v.needsResched <;> simp [Run.kind]
  · intro hd
    have hd' : v.pc = .exited := by
      cases hb : v.stExited with
      | true => exact he.mp hb
      | false =>
        simp only [hb, Bool.false_eq_true, ↓reduceIte] at hd
        exact (hx hd).1
    have hn : v.needsResched = false := by
      rw [hd'] at hr
      simpa [Wakers.idle] using congrArg Wakers.resched hr.1
    exact ⟨hd', by simp [hn]⟩

theorem Fits.enqueue (tree : Option (Fin (m + 1))) (io : Io) (cond : CondPlace) (hf : Fits v)
    (h : v.run = .off) (hr : Row .ready v.pc ⟨v.needsResched, tree.isSome, io, cond⟩ v.clear v.owns)
    (ht : ∀ i, tree = some i → v.sched = i)
    (hc : (∃ c, cond = .blocked c) ↔ ∃ c, v.cond = .blocked c) :
    Fits { v with run := .ready v.sched, tree := tree, io := io, cond := cond } := by
  have hg := hf.running
  rw [h] at hg
  refine { hf with
    row := hr, ready := ?_, held := ?_, tree := ht, blocked := ?_, running := ?_, freed := ?_ }
  · rintro j ⟨⟩
    rfl
  · simp
  · exact hf.blocked.trans hc.symm
  · simpa [Run.kind] using hg
  · intro hd
    rw [(hf.freed hd).1] at hr
    exact hr.1.elim

theorem Fits.rewire (n : Bool) (tree : Option (Fin (m + 1))) (io : Io) (cond : CondPlace)
    (hf : Fits v) (hr : Row v.run.kind v.pc ⟨n, tree.isSome, io, cond⟩ v.clear v.owns)
    (ht : ∀ i, tree = some i → v.sched = i)
    (hc : (∃ c, cond = .blocked c) ↔ ∃ c, v.cond = .blocked c) :
    Fits { v with needsResched := n, tree := tree, io := io, cond := cond } :=
  { hf with row := hr, tree := ht, blocked := hf.blocked.trans hc.symm }

theorem Fits.handed {c : ℕ} (hf : Fits v) (h : v.cond = .blocked c) :
    Fits { v with cond := .hands c, owns := true, isBlocked := false } := by
  have hr := hf.row
  rw [h] at hr
  exact { hf with row := hr.blocked.2.2, blocked := by simp }

theorem Fits.current {v' : View m} (h : Hold) (hf : Fits v) (hv : v.run = .held i .running)
    (hv' : v'.run = .held i h) (hh : h ≠ .popped) (hs : v'.sched = v.sched)
    (hi : v'.isRunning = v.isRunning) (hd : v'.freed = v.freed)
    (row : Row v'.run.kind v'.pc ⟨v'.needsResched, v'.tree.isSome, v'.io, v'.cond⟩ v'.clear v'.owns)
    (lock : ∀ c timeout, v'.pc = .condSleep c timeout .lock ∨ v'.pc = .condWake c timeout .lock →
      isTimed timeout = false)
    (tree : ∀ j, v'.tree = some j → j = i) (blocked : v'.isBlocked = true ↔ ∃ c, v'.cond = .blocked c)
    (exited : v'.stExited = true ↔ v'.pc = .exited) : Fits v' := by
  have hsi : v.sched = i := hf.held i .running hv (by simp)
  refine {
    row := row, lock := lock, ready := ?_, held := ?_, tree := ?_, blocked := blocked,
    running := ?_, exited := exited, freed := ?_ }
  · simp [hv']
  · intro j g hg _
    rw [hv'] at hg
    cases hg
    exact hs.trans hsi
  · intro j hj
    rw [hs, hsi, tree j hj]
  · rw [hi, hf.running, hv, hv']
    cases h <;> simp_all [Run.kind]
  · intro hx
    rw [hd] at hx
    have := (hf.freed hx).2
    simp [hv] at this

theorem Fits.idle (hf : Fits v) (hv : v.run = .held i .running)
    (hp : v.pc = .user ∨ (∃ msecs, v.pc = .slept msecs) ∨ (∃ fd e, v.pc = .waitFd fd e) ∨
      (∃ c, v.pc = .condLocked c) ∨ ∃ c u k, v.pc = .condSignal c u k) :
    v.needsResched = false ∧ v.tree = none ∧ v.io = .none ∧ v.cond = .none ∧ v.clear = true ∧
      v.isBlocked = false ∧ v.stExited = false := by
  have hr := hf.row
  have hb := hf.blocked
  have hx := hf.exited
  rw [hv] at hr
  obtain hp | ⟨_, hp⟩ | ⟨_, _, hp⟩ | ⟨_, hp⟩ | ⟨_, _, _, hp⟩ := hp <;>
    simp_all [Row, RunningRow, Run.kind, Wakers.idle]

theorem Fits.current_idle {v' : View m} (hf : Fits v) (hv : v.run = .held i .running)
    (hv' : v'.run = .held i .running) (hs : v'.sched = v.sched)
    (hi : v'.isRunning = v.isRunning) (hd : v'.freed = v.freed)
    (hp : v'.pc = .user ∨ (∃ c, v'.pc = .condLocked c ∧ v'.owns = true) ∨
      ∃ c u k, v'.pc = .condSignal c u k)
    (hn : v'.needsResched = false) (htree : v'.tree = none) (hio : v'.io = .none)
    (hcond : v'.cond = .none) (hclear : v'.clear = true) (hb : v'.isBlocked = false)
    (hx : v'.stExited = false) : Fits v' := by
  have hrow : Row v'.run.kind v'.pc ⟨v'.needsResched, v'.tree.isSome, v'.io, v'.cond⟩ v'.clear
      v'.owns := by
    rw [hv', hn, htree, hio, hcond, hclear]
    refine ⟨?_, rfl⟩
    obtain hp | ⟨c, hp, ho⟩ | ⟨_, _, _, hp⟩ := hp <;> rw [hp]
    · rfl
    · exact ⟨rfl, ho⟩
    · rfl
  apply hf.current .running hv hv' (by simp) hs hi hd hrow
  · obtain hp | ⟨_, hp, -⟩ | ⟨_, _, _, hp⟩ := hp <;> simp [hp]
  · simp [htree]
  · simp [hb, hcond]
  · obtain hp | ⟨_, hp, -⟩ | ⟨_, _, _, hp⟩ := hp <;> simp [hp, hx]

end Lthread
