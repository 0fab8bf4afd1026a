import Lthread.Socket

namespace Lthread

inductive ConnectErrno where
  | eagain | einprogress | ealready | eisconn
  | failure (code : ℕ)
  deriving DecidableEq, Repr

/-- How far the kernel has come with the attempt. -/
inductive Attempt where
  | pending
  | succeeded
  | failed (code : ℕ)
  deriving DecidableEq, Repr

/-- What one call of `lthread_connect` meets: the state of the attempt at its successive
calls of `connect`, and the EOF flag of the event that ends each wait in between. -/
structure ConnectWorld where
  attempt : ℕ → Attempt
  isEof : ℕ → Bool
  /-- An attempt that is over stays as it is. -/
  settled : ∀ k, attempt k ≠ .pending → attempt (k + 1) = attempt k

def ConnectWorld.connect (w : ConnectWorld) (k : ℕ) : ℤ × ConnectErrno :=
  match w.attempt k with
  | .failed code => (-1, .failure code)
  | .pending => if k = 0 then (-1, .einprogress) else (-1, .ealready)
  | .succeeded => if k = 0 then (0, .eisconn) else (-1, .eisconn)

/-- The loop of `lthread_connect` from its `k`-th turn on. `_lthread_wait_fd` clears
`LT_ST_FDEOF` and its result is not looked at. The number of calls of `connect` is
returned too. -/
def connectLoop (w : ConnectWorld) : ℕ → ℕ → Bool → Option (ℤ × ℕ)
  | 0, _, _ => none
  | fuel + 1, k, bit =>
    let (ret, errno) := w.connect k
    if ret = 0 then some (ret, k + 1)
    else if ret = -1 ∧ (errno = .eagain ∨ errno = .einprogress) then
      connectLoop w fuel (k + 1) (waitFdReturn (fdEofHandled bit (w.isEof k))).2
    else some (ret, k + 1)

def ltConnect (w : ConnectWorld) (fuel : ℕ) : Option (ℤ × ℕ) := connectLoop w fuel 0 false

/-- The call returns 0 if the attempt succeeds, and -1 only when it has failed. -/
def ReportsOutcome (w : ConnectWorld) : Prop :=
  ((∃ k, w.attempt k = .succeeded) → ∃ calls, Returns (ltConnect w) (0, calls)) ∧
    ∀ calls, Returns (ltConnect w) (-1, calls) → ∃ k < calls, ∃ code, w.attempt k = .failed code

variable {w : ConnectWorld}

theorem ConnectWorld.attempt_eq (w : ConnectWorld) {j : ℕ} (h : w.attempt j ≠ .pending) (k : ℕ) :
    w.attempt (j + k) = w.attempt j := by
  induction k with
  | zero => rfl
  | succ k ih =>
    rw [← Nat.add_assoc, w.settled (j + k) (by rwa [ih]), ih]

theorem ConnectWorld.not_succeeded {j k code : ℕ} (hj : w.attempt j = .failed code) :
    w.attempt k ≠ .succeeded := by
  intro hk
  obtain h | h := Nat.le_total j k
  · obtain ⟨d, rfl⟩ := Nat.exists_eq_add_of_le h
    rw [w.attempt_eq (by simp [hj]), hj] at hk
    cases hk
  · obtain ⟨d, rfl⟩ := Nat.exists_eq_add_of_le h
    rw [w.attempt_eq (by simp [hk]), hk] at hj
    cases hj

theorem connectLoop_second (fuel : ℕ) (bit : Bool) :
    connectLoop w (fuel + 1) 1 bit = some (-1, 2) := by
  cases h : w.attempt 1 <;> simp [connectLoop, ConnectWorld.connect, h]

theorem connectLoop_pending (h : w.attempt 0 = .pending) (fuel : ℕ) (bit : Bool) :
    connectLoop w (fuel + 1) 0 bit =
      connectLoop w fuel 1 (waitFdReturn (fdEofHandled bit (w.isEof 0))).2 := by
  rw [connectLoop]
  simp [ConnectWorld.connect, h]

theorem returns_pending (h : w.attempt 0 = .pending) (r : ℤ × ℕ) :
    Returns (ltConnect w) r ↔ r = (-1, 2) := by
  have hloop : ∀ fuel, ltConnect w (fuel + 2) = some (-1, 2) := by
    intro fuel
    exact (connectLoop_pending h (fuel + 1) false).trans (connectLoop_second fuel _)
  constructor
  · rintro ⟨fuel, hr⟩
    match fuel with
    | 0 => cases hr
    | 1 => simp [ltConnect, connectLoop, ConnectWorld.connect, h] at hr
    | fuel + 2 => exact (Option.some.inj ((hloop fuel).symm.trans hr)).symm
  · rintro rfl
    exact ⟨2, hloop 0⟩

theorem returns_of_first {ret : ℤ} {errno : ConnectErrno} (h : w.connect 0 = (ret, errno))
    (hn : errno ≠ .eagain ∧ errno ≠ .einprogress) (r : ℤ × ℕ) :
    Returns (ltConnect w) r ↔ r = (ret, 1) := by
  have hloop : ∀ fuel, ltConnect w (fuel + 1) = some (ret, 1) := by
    intro fuel
    simp [ltConnect, connectLoop, h, hn]
  constructor
  · rintro ⟨fuel, hr⟩
    cases fuel with
    | zero => cases hr
    | succ fuel => exact (Option.some.inj ((hloop fuel).symm.trans hr)).symm
  · rintro rfl
    exact ⟨1, hloop 0⟩

/-- The outcome is reported exactly when the attempt is over at once, or has failed by the
first wake-up: `connect` fails with `EISCONN` after a success and with `EALREADY` while the
attempt is pending, and both are returned as a failure. -/
theorem connect_reports_outcome_iff (w : ConnectWorld) :
    ReportsOutcome w ↔ w.attempt 0 ≠ .pending ∨ ∃ code, w.attempt 1 = .failed code := by
  cases h : w.attempt 0 with
  | succeeded =>
    have hf : w.connect 0 = (0, .eisconn) := by simp [ConnectWorld.connect, h]
    have hr := returns_of_first hf (by simp)
    refine iff_of_true ⟨fun _ => ⟨1, (hr _).mpr rfl⟩, ?_⟩ (.inl (by simp))
    intro calls hc
    simp [hr] at hc
  | failed code =>
    have hf : w.connect 0 = (-1, .failure code) := by simp [ConnectWorld.connect, h]
    have hr := returns_of_first hf (by simp)
    refine iff_of_true ⟨?_, ?_⟩ (.inl (by simp))
    · rintro ⟨k, hk⟩
      exact absurd hk (ConnectWorld.not_succeeded h)
    · intro calls hc
      obtain rfl : calls = 1 := by simpa [hr] using hc
      exact ⟨0, Nat.one_pos, code, h⟩
  | pending =>
    have hr := returns_pending h
    simp only [ne_eq, not_true_eq_false, false_or]
    constructor
    · rintro ⟨-, hfail⟩
      obtain ⟨k, hk, code, hc⟩ := hfail 2 ((hr _).mpr rfl)
      obtain rfl : k = 1 := by
        obtain hk₀ | hk₁ : k = 0 ∨ k = 1 := by omega
        · subst hk₀
          rw [h] at hc
          cases hc
        · exact hk₁
      exact ⟨code, hc⟩
    · rintro ⟨code, hc⟩
      refine ⟨?_, ?_⟩
      · rintro ⟨k, hk⟩
        exact absurd hk (ConnectWorld.not_succeeded hc)
      · intro calls hcalls
        obtain rfl : calls = 2 := by simpa [hr] using hcalls
        exact ⟨1, Nat.one_lt_two, code, hc⟩

def acceptingPeer : ConnectWorld where
  attempt k := if k = 0 then .pending else .succeeded
  isEof _ := false
  settled k := by
    by_cases hk : k = 0 <;> simp [hk]

/-- The connection is there and the call returns -1. -/
theorem connect_rejects_success :
    (∃ k, acceptingPeer.attempt k = .succeeded) ∧ Returns (ltConnect acceptingPeer) (-1, 2) ∧
      ¬ ReportsOutcome acceptingPeer := by
  have hr : Returns (ltConnect acceptingPeer) (-1, 2) := ⟨2, by decide⟩
  refine ⟨⟨1, rfl⟩, hr, ?_⟩
  rintro ⟨-, hfail⟩
  obtain ⟨k, -, code, hc⟩ := hfail 2 hr
  by_cases hk : k = 0 <;> simp [acceptingPeer, hk] at hc

end Lthread
