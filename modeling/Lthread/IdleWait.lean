import Lthread.Step
import Lthread.Runs

namespace Lthread

variable {m : ℕ} {s s' : State m} {i : Fin (m + 1)} {timeout : BitVec 64}

/-- `struct timespec`. -/
structure Timespec where
  tvSec : ℕ
  tvNsec : ℕ
  deriving DecidableEq, Repr

def Timespec.nsecs (t : Timespec) : ℕ := t.tvSec * 1000000000 + t.tvNsec

inductive OsWait where
  | condWait
  | condTimedwait (abstime : Timespec)
  deriving DecidableEq, Repr

/-- `lthread_os_cond_wait`. -/
def osCondWait (timeoutUsec : BitVec 64) : OsWait :=
  if timeoutUsec ≠ 0 then
    .condTimedwait ⟨(timeoutUsec / 1000000#64).toNat, (timeoutUsec % 1000000#64 * 1000#64).toNat⟩
  else .condWait

theorem osCondWait_nsecs (h : timeout ≠ 0) :
    ∃ abstime, osCondWait timeout = .condTimedwait abstime ∧
      abstime.nsecs = timeout.toNat * 1000 := by
  refine ⟨_, if_pos h, ?_⟩
  have hmod : timeout.toNat % 1000000 < 1000000 := Nat.mod_lt _ (by decide)
  have hdiv := Nat.div_add_mod timeout.toNat 1000000
  simp only [Timespec.nsecs, BitVec.toNat_udiv, BitVec.toNat_mul, BitVec.toNat_umod,
    BitVec.toNat_ofNat, Nat.reducePow, Nat.reduceMod]
  rw [Nat.mod_eq_of_lt (by omega : timeout.toNat % 1000000 * 1000 < 18446744073709551616)]
  omega

/-- The scheduler waits until an absolute time that is not past the deadline of a sleeper,
and that is still to come unless some deadline has passed. -/
def BlocksInTime (s : State m) (i : Fin (m + 1)) (timeout : BitVec 64) : Prop :=
  ∃ abstime, osCondWait timeout = .condTimedwait abstime ∧
    (∀ t ∈ s.sleeping i, abstime.nsecs ≤ (s.sleepUsecs t).toNat * 1000) ∧
    ((∀ t ∈ s.sleeping i, s.usecNow < s.sleepUsecs t) → s.usecNow.toNat * 1000 < abstime.nsecs)

theorem blocksInTime_iff (h : timeout ≠ 0) : BlocksInTime s i timeout ↔
    (∀ t ∈ s.sleeping i, timeout ≤ s.sleepUsecs t) ∧
      ((∀ t ∈ s.sleeping i, s.usecNow < s.sleepUsecs t) → s.usecNow < timeout) := by
  obtain ⟨abstime, hw, hn⟩ := osCondWait_nsecs h
  constructor
  · rintro ⟨abstime', hw', hle, hlt⟩
    obtain rfl : abstime = abstime' := OsWait.condTimedwait.inj (hw.symm.trans hw')
    rw [hn] at hle hlt
    refine ⟨fun t ht => ?_, fun hall => ?_⟩
    · exact BitVec.le_def.mpr (Nat.le_of_mul_le_mul_right (hle t ht) (by decide))
    · exact BitVec.lt_def.mpr (Nat.lt_of_mul_lt_mul_right (hlt hall))
  · rintro ⟨hle, hlt⟩
    refine ⟨abstime, hw, fun t ht => ?_, fun hall => ?_⟩
    · rw [hn]
      exact Nat.mul_le_mul_right 1000 (BitVec.le_def.mp (hle t ht))
    · rw [hn]
      exact Nat.mul_lt_mul_of_pos_right (BitVec.lt_def.mp (hlt hall)) (by decide)

theorem schedBlock_parked {signalled : Bool} (h : schedBlock s i = .ok s')
    (hp : s'.schedPc i = .parked false timeout signalled) : timeout = minTimeout s i := by
  simp only [schedBlock] at h
  split at h
  · cases h
    simp at hp
  · split at h
    · cases h
      simp at hp
    · split at h
      · cases h
        simp only [Function.update_self, SchedPc.parked.injEq] at hp
        exact hp.2.1.symm
      · cases h

theorem minTimeout_ne_zero (s : State m) (i : Fin (m + 1)) : minTimeout s i ≠ 0 := by
  unfold minTimeout
  split
  · decide
  · split
    · rename_i hlt
      intro h
      rw [h, BitVec.lt_def] at hlt
      exact Nat.not_lt_zero _ hlt
    · decide

theorem one_le_iff (x : BitVec 64) : 1 ≤ x ↔ x ≠ 0 := by
  rw [BitVec.le_def, Ne, ← BitVec.toNat_inj]
  exact Nat.one_le_iff_ne_zero

/-- The wait is right when there are sleepers, unless a deadline is at time 0. With an empty
tree `_lthread_min_timeout` returns 1, which is a time in 1970 and no time to wait for. -/
theorem idle_wait_iff (hS : (s.sleeping i).Pairwise fun t u => s.sleepUsecs t ≤ s.sleepUsecs u)
    (hb : schedBlock s i = .ok s') (hp : s'.schedPc i = .parked false timeout false) :
    BlocksInTime s i timeout ↔
      (s.sleeping i ≠ [] ∧ ∀ t ∈ s.sleeping i, s.sleepUsecs t ≠ 0) ∨
      (s.sleeping i = [] ∧ s.usecNow = 0) := by
  rw [schedBlock_parked hb hp, blocksInTime_iff (minTimeout_ne_zero s i)]
  cases hl : s.sleeping i with
  | nil => simp [minTimeout, hl]
  | cons t rest =>
    rw [hl] at hS
    obtain ⟨hle, -⟩ := List.pairwise_cons.mp hS
    -- the first sleeper is the earliest one
    have hmin : ∀ u ∈ t :: rest, s.sleepUsecs t ≤ s.sleepUsecs u := by
      intro u hu
      obtain rfl | hu := List.mem_cons.mp hu
      · exact BitVec.le_refl _
      · exact hle u hu
    by_cases hlt : s.usecNow < s.sleepUsecs t
    · have hpos : ∀ u ∈ t :: rest, s.sleepUsecs u ≠ 0 := by
        intro u hu
        rw [← one_le_iff]
        have h₁ := BitVec.lt_def.mp hlt
        have h₂ := BitVec.le_def.mp (hmin u hu)
        apply BitVec.le_def.mpr
        exact Nat.succ_le_of_lt ((Nat.zero_le _).trans_lt (h₁.trans_le h₂))
      simp only [minTimeout, hl, hlt, ↓reduceIte]
      exact ⟨fun _ => .inl ⟨by simp, hpos⟩, fun _ => ⟨hmin, fun _ => trivial⟩⟩
    · simp only [minTimeout, hl, hlt, ↓reduceIte]
      constructor
      · exact fun h => .inl ⟨by simp, fun u hu => (one_le_iff _).mp (h.1 u hu)⟩
      · rintro (⟨-, h⟩ | ⟨h, -⟩)
        · refine ⟨fun u hu => (one_le_iff _).mpr (h u hu), fun hall => ?_⟩
          exact absurd (hall t (by simp)) hlt
        · cases h

def idleAtSeven : State 0 :=
  { State.empty 0 7 fun _ => false with
    schedPc := fun _ => .block
    sleeping := fun _ => [1, 2]
    sleepUsecs := fun t => BitVec.ofNat 64 (10 * t) }

theorem idle_wait_iff_sleepers : ∃ s' timeout, schedBlock idleAtSeven 0 = .ok s' ∧
    s'.schedPc 0 = .parked false timeout false ∧ BlocksInTime idleAtSeven 0 timeout :=
  ⟨_, 10, rfl, rfl, (idle_wait_iff (by simp [idleAtSeven]) rfl rfl).mpr
    (.inl ⟨by simp [idleAtSeven], by simp [idleAtSeven]⟩)⟩

/-- The main lthread waits for a descriptor and nobody sleeps. The scheduler is to wait
until a time that has passed. -/
theorem idle_wait_spins : ∃ s s' : State 0,
    Runs.Reach step (fun _ _ => True) (State.init 0 7 fun _ => false) s ∧
    s.schedPc 0 = .block ∧ schedBlock s 0 = .ok s' ∧ s'.schedPc 0 = .parked false 1 false ∧
    s.sleeping 0 = [] ∧ ¬ BlocksInTime s 0 1 := by
  obtain ⟨s, hr, hp, hb, hsl, hn, hc⟩ : ∃ s : State 0,
      Runs.Reach step (fun _ _ => True) (State.init 0 7 fun _ => false) s ∧
      s.schedPc 0 = .block ∧ s.blockState 0 = .willBlock ∧ s.sleeping 0 = [] ∧
      s.numPendingEvents = 1 ∧ s.clock = 7 :=
    Runs.exists_reach_of_run (Label.scheds 0 5 ++ [.call 0 (.socket 3), .call 0 (.waitFd 3 .read),
      .cont 0] ++ Label.scheds 0 10) (by decide +kernel)
  refine ⟨s, { s with
      blockState := Function.update s.blockState 0 .isBlocking
      schedPc := Function.update s.schedPc 0 (.parked false 1 false) }, hr, hp, ?_, ?_, hsl, ?_⟩
  · simp [schedBlock, hb, schedIsdone, hsl, pollerHasPendingEvents, hn, minTimeout]
  · simp
  · rintro ⟨abstime, h, -, hlt⟩
    obtain rfl : ⟨0, 1000⟩ = abstime := OsWait.condTimedwait.inj h
    have hnow := hlt (by simp [hsl])
    simp [State.usecNow, hc, Timespec.nsecs] at hnow

end Lthread
