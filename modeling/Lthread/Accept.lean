import Lthread.Socket

namespace Lthread

inductive AcceptErrno where
  | enfile | ewouldblock | emfile | econnaborted
  | other (code : ℕ)
  deriving DecidableEq, Repr

/-- What a call of `accept` yields: a connection's descriptor, or -1 with `errno`. -/
inductive AcceptOutcome where
  | connection (fd : ℕ)
  | failure (errno : AcceptErrno)
  deriving DecidableEq, Repr

/-- What one call of `lthread_accept` meets: the outcomes of its successive calls of `accept`,
and on which descriptors `fcntl` succeeds. -/
structure AcceptWorld where
  accept : ℕ → AcceptOutcome
  fcntl : ℕ → Bool

/-- What a call of `lthread_accept` has done: the value it returns, its calls of `accept`, and the
descriptors it has set non-blocking and closed. -/
structure AcceptResult where
  ret : ℤ
  calls : ℕ
  unblocked : List ℕ
  closed : List ℕ
  deriving DecidableEq, Repr

/-- `_lthread_unblock_fd` and the end of `lthread_accept`. -/
def acceptUnblock (w : AcceptWorld) (fd calls : ℕ) : AcceptResult :=
  if w.fcntl fd then ⟨fd, calls, [fd], []⟩ else ⟨-1, calls, [], [fd]⟩

/-- `while (ret <= 0)`, from the `k`-th call of `accept` on. The result of `_lthread_wait_fd` is
not looked at. -/
def acceptLoop (w : AcceptWorld) : ℕ → ℕ → Option AcceptResult
  | 0, _ => none
  | fuel + 1, k =>
    match w.accept k with
    | .failure .enfile | .failure .ewouldblock | .failure .emfile => acceptLoop w fuel (k + 1)
    | .failure .econnaborted => acceptLoop w fuel (k + 1)
    | .failure (.other _) => some ⟨-1, k + 1, [], []⟩
    | .connection fd =>
      if (fd : ℤ) ≤ 0 then acceptLoop w fuel (k + 1) else some (acceptUnblock w fd (k + 1))

/-- `lthread_accept` with at most `fuel` calls of `accept`; `none` is a call that makes more. -/
def ltAccept (w : AcceptWorld) (fuel : ℕ) : Option AcceptResult := acceptLoop w fuel 0

/-- No connection is lost: `accept` is not called again once it has yielded a descriptor; the
value returned is -1 or the first descriptor, set non-blocking; and each descriptor is returned
or closed. -/
structure KeepsConnections (w : AcceptWorld) : Prop where
  once : ∀ calls, ltAccept w calls = none → ∀ j < calls, ∀ fd, w.accept j ≠ .connection fd
  first : ∀ fuel r, ltAccept w fuel = some r → r.ret = -1 ∨
    ∃ fd j, w.accept j = .connection fd ∧ (∀ i < j, ∀ fd', w.accept i ≠ .connection fd') ∧
      r.ret = fd ∧ fd ∈ r.unblocked
  kept : ∀ fuel r, ltAccept w fuel = some r → ∀ j < r.calls, ∀ fd, w.accept j = .connection fd →
    r.ret = fd ∨ fd ∈ r.closed

def AcceptOutcome.retries : AcceptOutcome → Bool
  | .connection _ => false
  | .failure (.other _) => false
  | .failure _ => true

variable {w : AcceptWorld} {fuel k n : ℕ}

theorem acceptLoop_retry (h : (w.accept k).retries = true) :
    acceptLoop w (fuel + 1) k = acceptLoop w fuel (k + 1) := by
  rw [acceptLoop]
  split <;> simp_all [AcceptOutcome.retries]

theorem ltAccept_skip (fuel : ℕ) (h : ∀ j < n, (w.accept j).retries = true) :
    ltAccept w (fuel + n) = acceptLoop w fuel n := by
  induction n generalizing fuel with
  | zero => rfl
  | succ n ih =>
    rw [← Nat.succ_add_eq_add_succ, ih _ fun j hj => h j (by omega),
      acceptLoop_retry (h n (Nat.lt_succ_self n))]

theorem ne_connection_of_retries {o : AcceptOutcome} (h : o.retries = true) (fd : ℕ) :
    o ≠ .connection fd := by
  rintro rfl
  cases h

theorem ltAccept_cases (w : AcceptWorld) (fuel : ℕ) :
    ((∀ j < fuel, (w.accept j).retries = true) ∧ ltAccept w fuel = none) ∨
    ∃ n fuel', n < fuel ∧ (∀ j < n, (w.accept j).retries = true) ∧ (w.accept n).retries = false ∧
      ltAccept w fuel = acceptLoop w (fuel' + 1) n := by
  induction fuel with
  | zero => exact .inl ⟨fun j hj => absurd hj (Nat.not_lt_zero j), rfl⟩
  | succ fuel ih =>
    obtain ⟨hall, -⟩ | ⟨n, fuel', hn, hbefore, hstop, -⟩ := ih
    · cases hr : (w.accept fuel).retries with
      | true =>
        have hall' : ∀ j < fuel + 1, (w.accept j).retries = true := by
          intro j hj
          obtain hj | rfl := Nat.lt_succ_iff_lt_or_eq.mp hj
          · exact hall j hj
          · exact hr
        refine .inl ⟨hall', ?_⟩
        have h := ltAccept_skip 0 hall'
        rwa [Nat.zero_add] at h
      | false =>
        refine .inr ⟨fuel, 0, Nat.lt_succ_self fuel, hall, hr, ?_⟩
        rw [Nat.add_comm fuel 1, ltAccept_skip _ hall]
    · refine .inr ⟨n, fuel - n, Nat.lt_succ_of_lt hn, hbefore, hstop, ?_⟩
      have hfuel : fuel + 1 = fuel - n + 1 + n := by omega
      rw [hfuel, ltAccept_skip _ hbefore]

theorem acceptLoop_connection {fd : ℕ} (h : w.accept k = .connection fd) (h0 : fd ≠ 0) :
    acceptLoop w (fuel + 1) k = some (acceptUnblock w fd (k + 1)) := by
  have hpos : ¬ (fd : ℤ) ≤ 0 := by omega
  simp only [acceptLoop, h, if_neg hpos]

theorem acceptLoop_other {code : ℕ} (h : w.accept k = .failure (.other code)) :
    acceptLoop w (fuel + 1) k = some ⟨-1, k + 1, [], []⟩ := by
  simp only [acceptLoop, h]

theorem acceptLoop_stop (fuel : ℕ) (hstop : (w.accept n).retries = false)
    (hz : w.accept n ≠ .connection 0) :
    (∃ fd, w.accept n = .connection fd ∧
      acceptLoop w (fuel + 1) n = some (acceptUnblock w fd (n + 1))) ∨
    ((∀ fd, w.accept n ≠ .connection fd) ∧
      acceptLoop w (fuel + 1) n = some ⟨-1, n + 1, [], []⟩) := by
  cases ho : w.accept n with
  | connection fd =>
    have h0 : fd ≠ 0 := by
      rintro rfl
      exact hz ho
    exact .inl ⟨fd, rfl, acceptLoop_connection ho h0⟩
  | failure e =>
    rw [ho] at hstop
    cases e with
    | other code => exact .inr ⟨nofun, acceptLoop_other ho⟩
    | _ => cases hstop

theorem ltAccept_ends {r : AcceptResult}
    (hz : ∀ k, (∀ j < k, (w.accept j).retries = true) → w.accept k ≠ .connection 0)
    (hr : ltAccept w fuel = some r) :
    ∃ n, (∀ j < n, ∀ fd, w.accept j ≠ .connection fd) ∧
      ((∃ fd, w.accept n = .connection fd ∧ r = acceptUnblock w fd (n + 1)) ∨
        ((∀ fd, w.accept n ≠ .connection fd) ∧ r = ⟨-1, n + 1, [], []⟩)) := by
  obtain ⟨-, hnone⟩ | ⟨n, fuel', -, hbefore, hstop, heq⟩ := ltAccept_cases w fuel
  · cases hnone.symm.trans hr
  · rw [heq] at hr
    refine ⟨n, fun j hj => ne_connection_of_retries (hbefore j hj), ?_⟩
    obtain ⟨fd, hfd, hret⟩ | ⟨hno, hret⟩ := acceptLoop_stop fuel' hstop (hz n hbefore)
    · exact .inl ⟨fd, hfd, Option.some.inj (hr.symm.trans hret)⟩
    · exact .inr ⟨hno, Option.some.inj (hr.symm.trans hret)⟩

theorem acceptUnblock_cases (w : AcceptWorld) (fd calls : ℕ) :
    acceptUnblock w fd calls = ⟨fd, calls, [fd], []⟩ ∨
    acceptUnblock w fd calls = ⟨-1, calls, [], [fd]⟩ := by
  unfold acceptUnblock
  split
  · exact .inl rfl
  · exact .inr rfl

/-- `lthread_accept` keeps every connection unless the first descriptor it gets is 0. -/
theorem accept_keeps_connections_iff (w : AcceptWorld) :
    KeepsConnections w ↔
      ∀ k, (∀ j < k, (w.accept j).retries = true) → w.accept k ≠ .connection 0 := by
  constructor
  · -- After descriptor 0 the loop goes on.
    intro hkeep k hretry h0
    have hnext : ltAccept w (1 + k) = none := by
      rw [ltAccept_skip _ hretry]
      simp only [acceptLoop, h0]
      rfl
    exact hkeep.once _ hnext k (by omega) 0 h0
  · intro hz
    constructor
    · intro calls hnone j hj
      obtain ⟨hall, -⟩ | ⟨n, fuel', hn, hbefore, hstop, heq⟩ := ltAccept_cases w calls
      · exact ne_connection_of_retries (hall j hj)
      · rw [hnone] at heq
        obtain ⟨fd, -, hret⟩ | ⟨-, hret⟩ := acceptLoop_stop fuel' hstop (hz n hbefore)
        · cases heq.trans hret
        · cases heq.trans hret
    · intro fuel r hr
      obtain ⟨n, hbefore, ⟨fd, hfd, rfl⟩ | ⟨-, rfl⟩⟩ := ltAccept_ends hz hr
      · obtain heq | heq := acceptUnblock_cases w fd (n + 1)
        · rw [heq]
          exact .inr ⟨fd, n, hfd, hbefore, rfl, List.mem_singleton_self fd⟩
        · rw [heq]
          exact .inl rfl
      · exact .inl rfl
    · intro fuel r hr j hj fd hfd
      obtain ⟨n, hbefore, ⟨fd', hfd', rfl⟩ | ⟨hno, rfl⟩⟩ := ltAccept_ends hz hr
      · have hjn : n ≤ j := by
          by_contra hlt
          exact hbefore j (by omega) fd hfd
        obtain heq | heq := acceptUnblock_cases w fd' (n + 1)
        all_goals
          rw [heq] at hj ⊢
          obtain rfl : j = n := by
            dsimp only at hj
            omega
          obtain rfl : fd = fd' := AcceptOutcome.connection.inj (hfd.symm.trans hfd')
        · exact .inl rfl
        · exact .inr (List.mem_singleton_self fd)
      · obtain hj' | rfl := Nat.lt_succ_iff_lt_or_eq.mp hj
        · exact absurd hfd (hbefore j hj' fd)
        · exact absurd hfd (hno fd)

/-- Descriptor 0 is forgotten: the call goes on, returns the next connection and leaves the first
one open. -/
theorem accept_forgets_zero :
    ∃ w : AcceptWorld, w.accept 0 = .connection 0 ∧
      ltAccept w 2 = some ⟨5, 2, [5], []⟩ ∧ ¬ KeepsConnections w := by
  refine ⟨⟨fun k => if k = 0 then .connection 0 else .connection 5, fun _ => true⟩, rfl, by decide,
    ?_⟩
  intro hkeep
  obtain h | h := hkeep.kept 2 ⟨5, 2, [5], []⟩ (by decide) 0 (by decide) 0 rfl
  · exact absurd h (by decide)
  · exact absurd h (by decide)

end Lthread
