import Mathlib.Data.Nat.Find
import Lthread.Memory
import Lthread.Socket

namespace Lthread

structure OneByteRecv where
  ret : ℤ
  ge : -2 ≤ ret
  le : ret ≤ 1

/-- What a call of `lthread_readline` has done: the value it returns, what `*buf` is set to, the
bytes it has taken from the stream and its calls of `lthread_recv`. -/
structure ReadlineResult where
  ret : ℤ
  buf : Option (Block UInt8)
  consumed : ℕ
  calls : ℕ

def toSsize (n : ℕ) : ℤ := Int.bmod n (2 ^ 64)

/-- The `while` loop of `lthread_readline`. A call of `lthread_recv` that returns 1 has put the
next byte of the stream at `data + total_read`. -/
def readlineLoop (stream : ℕ → UInt8) (recv : ℕ → OneByteRecv) (max : ℕ) :
    ℕ → Block UInt8 → ℕ → ℕ → ℕ → ℕ → Except MemFault ReadlineResult
  | 0, _, _, _, _, _ => .error .endless
  | fuel + 1, data, totalRead, cur, consumed, calls =>
    if totalRead < max then
      let r := (recv calls).ret
      if r = 0 ∨ r = -2 ∨ r = -1 then .ok ⟨r, none, consumed, calls + 1⟩
      else do
        let data ← data.write totalRead (stream consumed)
        let c ← data.read cur
        if c = 10 then .ok ⟨toSsize (totalRead + 1), some data, consumed + 1, calls + 1⟩
        else
          readlineLoop stream recv max fuel data (totalRead + 1) (cur + 1) (consumed + 1) (calls + 1)
    else .ok ⟨toSsize totalRead, some data, consumed, calls⟩

/-- `lthread_readline`; `calloc` clears the memory. -/
def ltReadline (alloc : Allocator) (stream : ℕ → UInt8) (recv : ℕ → OneByteRecv)
    (max : BitVec 64) : Except MemFault ReadlineResult :=
  let bytes := (max.toNat + 1) % 2 ^ 64
  if alloc.grants bytes then
    readlineLoop stream recv max.toNat (max.toNat + 1) ⟨bytes, fun _ => 0⟩ 0 0 0 0
  else .ok ⟨-1, none, 0, 0⟩

section Recv

variable {world : World} {y : Syscall} {fd fuel k : ℕ} {e : Event} {bit : Bool} {r : ℤ × ℕ}

theorem ioLoop_ret (h : ioLoop world y fd e fuel k bit = some r) :
    r.1 = -1 ∨ ∃ j, r.1 = (world.sys y j).ret := by
  induction fuel generalizing k bit with
  | zero => cases h
  | succ fuel ih =>
    simp only [ioLoop] at h
    split at h
    · split at h
      · split at h
        · cases h
          exact .inl rfl
        · exact ih h
      · cases h
        exact .inl rfl
    · split at h
      · exact ih h
      · cases h
        exact .inr ⟨k, rfl⟩

/-- `lthread_recv` for one byte returns what `lthread_readline` is prepared for. -/
theorem ltRecv_one_byte {flags : BitVec 32} {timeout : BitVec 64}
    (h : Returns (ltRecv world fd 1 flags timeout) r)
    (hsys : ∀ j, (world.sys (.recv fd 1 (flags ||| world.flag)) j).ret ≤ 1) :
    ∃ one : OneByteRecv, one.ret = r.1 := by
  obtain ⟨fuel, h⟩ := h
  obtain hr | ⟨j, hr⟩ := ioLoop_ret h
  · exact ⟨⟨-1, by decide, by decide⟩, hr.symm⟩
  · have := (world.sys (.recv fd 1 (flags ||| world.flag)) j).valid
    exact ⟨⟨_, by omega, hsys j⟩, hr.symm⟩

end Recv

/-- The first `k` bytes of the stream are a line: they end in a newline, or they are `max`
bytes. -/
def EndsLine (stream : ℕ → UInt8) (max k : ℕ) : Prop :=
  k = max ∨ (k ≠ 0 ∧ stream (k - 1) = 10)

instance (stream : ℕ → UInt8) (max : ℕ) : DecidablePred (EndsLine stream max) :=
  fun _ => inferInstanceAs (Decidable (_ ∨ _))

theorem exists_endsLine (stream : ℕ → UInt8) (max : ℕ) : ∃ k, EndsLine stream max k :=
  ⟨max, .inl rfl⟩

def lineLength (stream : ℕ → UInt8) (max : ℕ) : ℕ := Nat.find (exists_endsLine stream max)

variable {stream : ℕ → UInt8} {recv : ℕ → OneByteRecv} {max fuel n : ℕ}

theorem endsLine_lineLength (stream : ℕ → UInt8) (max : ℕ) :
    EndsLine stream max (lineLength stream max) := Nat.find_spec (exists_endsLine stream max)

theorem lineLength_le (stream : ℕ → UInt8) (max : ℕ) : lineLength stream max ≤ max :=
  Nat.find_min' _ (.inl rfl)

theorem stream_ne_of_lt (h : n + 1 < lineLength stream max) : stream n ≠ 10 := by
  intro hn
  exact Nat.find_min (exists_endsLine stream max) h (.inr ⟨Nat.succ_ne_zero n, hn⟩)

def lineBuffer (stream : ℕ → UInt8) (max n : ℕ) : Block UInt8 :=
  ⟨max + 1, fun j => if j < n then stream j else 0⟩

theorem lineBuffer_write (h : n < max) :
    (lineBuffer stream max n).write n (stream n) = .ok (lineBuffer stream max (n + 1)) := by
  rw [Block.write_of_lt (show n < max + 1 by omega)]
  simp only [lineBuffer, Except.ok.injEq, Block.mk.injEq, true_and]
  funext j
  by_cases hj : j = n
  · subst hj
    rw [Function.update_self, if_pos (Nat.lt_succ_self j)]
  · rw [Function.update_of_ne hj]
    have hiff : j < n ↔ j < n + 1 := by omega
    simp only [hiff]

theorem lineBuffer_read (h : n < max) :
    (lineBuffer stream max (n + 1)).read n = .ok (stream n) := by
  rw [Block.read_of_lt (show n < max + 1 by omega)]
  exact congrArg _ (if_pos (Nat.lt_succ_self n))

theorem readlineLoop_byte (hn : n < max) (hr : (recv n).ret = 1) :
    readlineLoop stream recv max (fuel + 1) (lineBuffer stream max n) n n n n =
      if stream n = 10 then
        .ok ⟨toSsize (n + 1), some (lineBuffer stream max (n + 1)), n + 1, n + 1⟩
      else readlineLoop stream recv max fuel (lineBuffer stream max (n + 1)) (n + 1) (n + 1) (n + 1)
        (n + 1) := by
  have hgo : ¬ ((recv n).ret = 0 ∨ (recv n).ret = -2 ∨ (recv n).ret = -1) := by omega
  simp only [readlineLoop, if_pos hn, if_neg hgo, lineBuffer_write hn, lineBuffer_read hn, bind,
    Except.bind]

theorem readlineLoop_fail (hn : n < max) (hr : (recv n).ret ≠ 1) (data : Block UInt8) :
    readlineLoop stream recv max (fuel + 1) data n n n n = .ok ⟨(recv n).ret, none, n, n + 1⟩ := by
  have hstop : (recv n).ret = 0 ∨ (recv n).ret = -2 ∨ (recv n).ret = -1 := by
    have := (recv n).ge
    have := (recv n).le
    omega
  simp only [readlineLoop, if_pos hn, if_pos hstop]

theorem readlineLoop_skip (hn : n < lineLength stream max) (hr : ∀ j < n, (recv j).ret = 1) :
    readlineLoop stream recv max (fuel + n) (lineBuffer stream max 0) 0 0 0 0 =
      readlineLoop stream recv max fuel (lineBuffer stream max n) n n n n := by
  induction n generalizing fuel with
  | zero => rfl
  | succ n ih =>
    have hmax := lineLength_le stream max
    rw [← Nat.succ_add_eq_add_succ, ih (by omega) fun j hj => hr j (by omega),
      readlineLoop_byte (by omega) (hr n (by omega)), if_neg (stream_ne_of_lt hn)]

theorem readlineLoop_line (hr : ∀ j < lineLength stream max, (recv j).ret = 1)
    (hf : max < fuel) :
    readlineLoop stream recv max fuel (lineBuffer stream max 0) 0 0 0 0 =
      .ok ⟨toSsize (lineLength stream max), some (lineBuffer stream max (lineLength stream max)),
        lineLength stream max, lineLength stream max⟩ := by
  have hmax := lineLength_le stream max
  have hend := endsLine_lineLength stream max
  cases hk : lineLength stream max with
  | zero =>
    have h0 : max = 0 := by
      obtain h | h := hend
      · omega
      · exact absurd hk h.1
    obtain ⟨f, rfl⟩ := Nat.exists_eq_succ_of_ne_zero (Nat.ne_zero_of_lt hf)
    simp only [readlineLoop, h0, Nat.lt_irrefl, if_false]
  | succ n =>
    obtain ⟨f, rfl⟩ : ∃ f, fuel = f + 2 + n := ⟨fuel - n - 2, by omega⟩
    rw [readlineLoop_skip (by omega) fun j hj => hr j (by omega),
      readlineLoop_byte (by omega) (hr n (by omega))]
    by_cases hnl : stream n = 10
    · rw [if_pos hnl]
    · -- No newline: the last byte that there is room for.
      have hlast : n + 1 = max := by
        rw [hk] at hend
        exact hend.resolve_right fun h => hnl h.2
      rw [if_neg hnl]
      simp only [readlineLoop, hlast, Nat.lt_irrefl, if_false]

theorem readlineLoop_no_line (hn : n < lineLength stream max) (hr : ∀ j < n, (recv j).ret = 1)
    (hfail : (recv n).ret ≠ 1) (hf : max < fuel) :
    readlineLoop stream recv max fuel (lineBuffer stream max 0) 0 0 0 0 =
      .ok ⟨(recv n).ret, none, n, n + 1⟩ := by
  have hmax := lineLength_le stream max
  obtain ⟨f, rfl⟩ : ∃ f, fuel = f + 1 + n := ⟨fuel - n - 1, by omega⟩
  rw [readlineLoop_skip hn hr, readlineLoop_fail (by omega) hfail]

theorem toSsize_of_lt (h : n < 2 ^ 63) : toSsize n = n := by
  apply Int.bmod_eq_of_le
  · exact (Int.neg_nonpos_of_nonneg (by decide)).trans (Int.natCast_nonneg n)
  · exact Int.ofNat_lt.mpr h

/-- With its memory granted, `lthread_readline` returns one line and takes no more than that from
the stream, or it returns the first result of `lthread_recv` that is no byte. Every write is in
the `max + 1` bytes of the buffer. Without memory it takes nothing and returns -1. -/
theorem readline_spec (alloc : Allocator) (stream : ℕ → UInt8) (recv : ℕ → OneByteRecv)
    (max : BitVec 64) (hmax : max.toNat < 2 ^ 64 - 1) :
    (alloc.grants (max.toNat + 1) = true →
      ((∀ j < lineLength stream max.toNat, (recv j).ret = 1) →
        ∃ data, ltReadline alloc stream recv max = .ok ⟨lineLength stream max.toNat, some data,
            lineLength stream max.toNat, lineLength stream max.toNat⟩ ∧
          data.size = max.toNat + 1 ∧
          (∀ j < lineLength stream max.toNat, data.cell j = stream j) ∧
          data.cell (lineLength stream max.toNat) = 0) ∧
      ∀ n < lineLength stream max.toNat, (∀ j < n, (recv j).ret = 1) → (recv n).ret ≠ 1 →
        (recv n).ret ≤ 0 ∧
        ltReadline alloc stream recv max = .ok ⟨(recv n).ret, none, n, n + 1⟩) ∧
    (alloc.grants (max.toNat + 1) = false →
      ltReadline alloc stream recv max = .ok ⟨-1, none, 0, 0⟩) := by
  have hbytes : (max.toNat + 1) % 2 ^ 64 = max.toNat + 1 := by omega
  have hzero : (⟨max.toNat + 1, fun _ => 0⟩ : Block UInt8) = lineBuffer stream max.toNat 0 := by
    simp [lineBuffer]
  constructor
  · intro hg
    have hrun : ltReadline alloc stream recv max = readlineLoop stream recv max.toNat
        (max.toNat + 1) (lineBuffer stream max.toNat 0) 0 0 0 0 := by
      simp only [ltReadline, hbytes, hg, if_true, hzero]
    rw [hrun]
    constructor
    · intro hr
      have hlen := lineLength_le stream max.toNat
      have hlt := alloc.grants_lt _ hg
      refine ⟨lineBuffer stream max.toNat (lineLength stream max.toNat), ?_, rfl, ?_, ?_⟩
      · rw [readlineLoop_line hr (Nat.lt_succ_self _), toSsize_of_lt (by omega)]
      · intro j hj
        exact if_pos hj
      · exact if_neg (Nat.lt_irrefl _)
    · intro n hn hr hfail
      have := (recv n).le
      exact ⟨by omega, readlineLoop_no_line hn hr hfail (Nat.lt_succ_self _)⟩
  · intro hg
    simp only [ltReadline, hbytes, hg, Bool.false_eq_true, if_false]

/-- The line `"a\n"` of a stream, read with room for five bytes. -/
theorem readline_spec_short : ∃ data, ltReadline .generous (fun j => if j = 0 then 97 else 10)
      (fun _ => ⟨1, by decide, by decide⟩) 5 = .ok ⟨2, some data, 2, 2⟩ ∧
    data.cell 0 = 97 ∧ data.cell 1 = 10 ∧ data.cell 2 = 0 := by
  have hlen : lineLength (fun j => if j = 0 then 97 else 10) 5 = 2 := by
    rw [lineLength, Nat.find_eq_iff]
    decide
  obtain ⟨data, hrun, -, hline, hnul⟩ := ((readline_spec .generous
    (fun j => if j = 0 then 97 else 10) (fun _ => ⟨1, by decide, by decide⟩) 5 (by decide)).1
    (by decide)).1 fun _ _ => rfl
  have h5 : (5 : BitVec 64).toNat = 5 := rfl
  rw [h5, hlen] at hrun hline hnul
  exact ⟨data, hrun, hline 0 (by decide), hline 1 (by decide), hnul⟩

end Lthread
