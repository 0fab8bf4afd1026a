import Lthread.Socket

namespace Lthread

section Loop

variable {world : World} {y : Syscall} {fd : ℕ} {e : Event} {fuel k : ℕ} {bit : Bool} {r : ℤ × ℕ}

theorem ioLoop_blocks (hb : (world.sys y k).wouldBlock = true) (he : world.isEof fd e k = false) :
    ioLoop world y fd e (fuel + 1) k false = ioLoop world y fd e fuel (k + 1) false := by
  simp only [SysResult.wouldBlock, Bool.and_eq_true, decide_eq_true_eq] at hb
  simp [ioLoop, hb, he, waitFdReturn, fdEofHandled]

theorem ioLoop_eof (hb : (world.sys y k).wouldBlock = true) (he : world.isEof fd e k = true) :
    ioLoop world y fd e (fuel + 1) k bit = some (-1, k + 1) := by
  simp only [SysResult.wouldBlock, Bool.and_eq_true, decide_eq_true_eq] at hb
  simp [ioLoop, hb, he, waitFdReturn, fdEofHandled]

theorem ioLoop_done (hb : (world.sys y k).wouldBlock = false) :
    ioLoop world y fd e (fuel + 1) k bit = some ((world.sys y k).ret, k + 1) := by
  simp only [SysResult.wouldBlock, Bool.and_eq_false_iff, decide_eq_false_iff_not] at hb
  have hv := (world.sys y k).valid
  by_cases hr : (world.sys y k).ret = -1
  · simp [ioLoop, hr, hb.resolve_left (not_not.mpr hr)]
  · have hn : ¬ (world.sys y k).ret < 0 := by omega
    simp [ioLoop, hr, hn]

theorem ioLoop_skip {n : ℕ} (h : ∀ j < n, (world.sys y (k + j)).wouldBlock = true ∧
      world.isEof fd e (k + j) = false) :
    ioLoop world y fd e (fuel + n) k false = ioLoop world y fd e fuel (k + n) false := by
  induction n generalizing k with
  | zero => rfl
  | succ n ih =>
    have h₀ := h 0 (Nat.succ_pos n)
    rw [Nat.add_zero] at h₀
    rw [← Nat.add_assoc, ioLoop_blocks h₀.1 h₀.2, ih, Nat.add_assoc, Nat.add_comm 1]
    intro j hj
    have := h (j + 1) (by omega)
    rwa [← Nat.add_assoc, Nat.add_right_comm] at this

def IoReturn (world : World) (y : Syscall) (fd : ℕ) (e : Event) (k : ℕ) (r : ℤ × ℕ) : Prop :=
  (world.sys y k).wouldBlock = false ∧ r = ((world.sys y k).ret, k + 1) ∨
    (world.sys y k).wouldBlock = true ∧ world.isEof fd e k = true ∧ r = (-1, k + 1)

theorem ioReturn_of_ioLoop (h : ioLoop world y fd e fuel k false = some r) :
    ∃ n, (∀ j < n, (world.sys y (k + j)).wouldBlock = true ∧
      world.isEof fd e (k + j) = false) ∧ IoReturn world y fd e (k + n) r := by
  induction fuel generalizing k with
  | zero => cases h
  | succ fuel ih =>
    cases hb : (world.sys y k).wouldBlock with
    | false =>
      rw [ioLoop_done hb, Option.some.injEq] at h
      exact ⟨0, fun j hj => absurd hj (Nat.not_lt_zero j), .inl ⟨hb, h.symm⟩⟩
    | true =>
      cases he : world.isEof fd e k with
      | true =>
        rw [ioLoop_eof hb he, Option.some.injEq] at h
        exact ⟨0, fun j hj => absurd hj (Nat.not_lt_zero j), .inr ⟨hb, he, h.symm⟩⟩
      | false =>
        rw [ioLoop_blocks hb he] at h
        obtain ⟨n, hn, hr⟩ := ih h
        refine ⟨n + 1, ?_, ?_⟩
        · intro j hj
          cases j with
          | zero => exact ⟨hb, he⟩
          | succ j =>
            have := hn j (by omega)
            rwa [Nat.add_right_comm] at this
        · rwa [Nat.add_right_comm] at hr

theorem returns_ioLoop_iff : Returns (ioLoop world y fd e · 0 false) r ↔
    ∃ k, (∀ j < k, (world.sys y j).wouldBlock = true ∧ world.isEof fd e j = false) ∧
      IoReturn world y fd e k r := by
  constructor
  · rintro ⟨fuel, h⟩
    simpa using ioReturn_of_ioLoop h
  · rintro ⟨k, hk, hr⟩
    have hs : ioLoop world y fd e (1 + k) 0 false = ioLoop world y fd e 1 (0 + k) false :=
      ioLoop_skip (by simpa using hk)
    refine ⟨1 + k, hs.trans ?_⟩
    rw [Nat.zero_add]
    obtain ⟨hb, rfl⟩ | ⟨hb, he, rfl⟩ := hr
    · exact ioLoop_done hb
    · exact ioLoop_eof hb he

end Loop

/-- The plain call: the first result that is not a would-block failure, and how many
calls it takes to get it. -/
def FirstResult (call : ℕ → SysResult) (r : ℤ × ℕ) : Prop :=
  ∃ k, (∀ j < k, (call j).wouldBlock = true) ∧ (call k).wouldBlock = false ∧
    r = ((call k).ret, k + 1)

/-- A wrapper returns the first result that is not a would-block failure, and nothing
else. -/
def Refines (f : ℕ → Option (ℤ × ℕ)) (call : ℕ → SysResult) : Prop :=
  ∀ r, Returns f r ↔ FirstResult call r

/-- No wait that comes before the first result ends with the EOF flag. -/
def NoEarlyEof (call : ℕ → SysResult) (isEof : ℕ → Bool) : Prop :=
  ∀ k, (∀ j ≤ k, (call j).wouldBlock = true) → isEof k = false

variable (world : World) (fd : ℕ) (length : BitVec 64) (flags : BitVec 32) (timeout : BitVec 64)

theorem ioLoop_refines_iff (y : Syscall) (e : Event) :
    Refines (ioLoop world y fd e · 0 false) (world.sys y) ↔
      NoEarlyEof (world.sys y) (world.isEof fd e) := by
  constructor
  · intro h k hk
    induction k using Nat.strong_induction_on with
    | _ k ih =>
      by_contra he
      have hr : Returns (ioLoop world y fd e · 0 false) (-1, k + 1) := by
        refine returns_ioLoop_iff.mpr ⟨k, ?_, .inr ⟨hk k le_rfl, by simpa using he, rfl⟩⟩
        exact fun j hj => ⟨hk j hj.le, ih j hj fun i hi => hk i (hi.trans hj.le)⟩
      obtain ⟨n, -, hb, hn⟩ := (h _).mp hr
      obtain rfl : k = n := by simpa using congrArg Prod.snd hn
      simp [hk k le_rfl] at hb
  · intro h r
    rw [returns_ioLoop_iff]
    constructor
    · rintro ⟨k, hk, ⟨hb, rfl⟩ | ⟨hb, he, rfl⟩⟩
      · exact ⟨k, fun j hj => (hk j hj).1, hb, rfl⟩
      · have hall : ∀ j ≤ k, (world.sys y j).wouldBlock = true := by
          intro j hj
          obtain hj | rfl := hj.lt_or_eq
          · exact (hk j hj).1
          · exact hb
        simp [h k hall] at he
    · rintro ⟨k, hk, hb, rfl⟩
      refine ⟨k, fun j hj => ⟨hk j hj, ?_⟩, .inl ⟨hb, rfl⟩⟩
      exact h j fun i hi => hk i (hi.trans_lt hj)

/-- Each wrapper refines its system call exactly where no wait before the first result
ends with the EOF flag. -/
theorem wrappers_refine_iff :
    (Refines (ltRecv world fd length flags timeout)
        (world.sys (.recv fd length (flags ||| world.flag))) ↔
      NoEarlyEof (world.sys (.recv fd length (flags ||| world.flag))) (world.isEof fd .read)) ∧
    (Refines (ltRead world fd length timeout) (world.sys (.read fd length)) ↔
      NoEarlyEof (world.sys (.read fd length)) (world.isEof fd .read)) ∧
    (Refines (ltRecvmsg world fd flags timeout)
        (world.sys (.recvmsg fd (flags ||| world.flag))) ↔
      NoEarlyEof (world.sys (.recvmsg fd (flags ||| world.flag))) (world.isEof fd .read)) ∧
    (Refines (ltRecvfrom world fd length flags timeout)
        (world.sys (.recvfrom fd length (flags ||| world.flag))) ↔
      NoEarlyEof (world.sys (.recvfrom fd length (flags ||| world.flag)))
        (world.isEof fd .read)) ∧
    (Refines (ltSendmsg world fd flags) (world.sys (.sendmsg fd (flags ||| world.flag))) ↔
      NoEarlyEof (world.sys (.sendmsg fd (flags ||| world.flag))) (world.isEof fd .write)) ∧
    (Refines (ltSendto world fd length flags)
        (world.sys (.sendto fd length (flags ||| world.flag))) ↔
      NoEarlyEof (world.sys (.sendto fd length (flags ||| world.flag)))
        (world.isEof fd .write)) :=
  ⟨ioLoop_refines_iff world fd _ .read, ioLoop_refines_iff world fd _ .read,
    ioLoop_refines_iff world fd _ .read, ioLoop_refines_iff world fd _ .read,
    ioLoop_refines_iff world fd _ .write, ioLoop_refines_iff world fd _ .write⟩

def closingPeer : World where
  sys _ k := if k = 0 then ⟨-1, .eagain, le_rfl⟩ else ⟨5, .other 0, by decide⟩
  isEof _ _ _ := true
  flag := 0

/-- The five bytes are not delivered: `lthread_read` returns -1. -/
theorem read_drops_data : ¬ Refines (ltRead closingPeer 3 16 0) (closingPeer.sys (.read 3 16)) := by
  intro h
  have hr : Returns (ltRead closingPeer 3 16 0) (-1, 1) := ⟨1, by decide⟩
  obtain ⟨k, -, hb, hk⟩ := (h _).mp hr
  obtain rfl : k = 0 := by simpa using (congrArg Prod.snd hk).symm
  exact absurd hb (by decide)

end Lthread
