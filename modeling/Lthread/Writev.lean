import Lthread.Socket

namespace Lthread

/-- `struct iovec`. -/
structure Iovec where
  base : ℕ
  len : ℕ
  deriving DecidableEq, Repr

def Iovec.bytes (mem : ℕ → UInt8) (v : Iovec) : List UInt8 :=
  (List.range v.len).map fun k => mem (v.base + k)

def iovBytes (mem : ℕ → UInt8) (iov : List Iovec) : List UInt8 := iov.flatMap (Iovec.bytes mem)

def iovTotal (iov : List Iovec) : ℕ := iov.foldr (fun v n => v.len + n) 0

@[simp] theorem iovTotal_nil : iovTotal [] = 0 := rfl

@[simp] theorem iovTotal_cons (v : Iovec) (iov : List Iovec) :
    iovTotal (v :: iov) = v.len + iovTotal iov := rfl

/-- The `for` loop of `lthread_writev`; its first argument is `iovcnt - i`. The vectors
and `iov_index` it leaves are returned. -/
def writevAdvance : ℕ → List Iovec → ℕ → ℕ → ℕ → List Iovec × ℕ
  | 0, iov, _, iovIndex, _ => (iov, iovIndex)
  | left + 1, iov, i, iovIndex, n =>
    if 0 < n then
      let v := iov.getD i ⟨0, 0⟩
      if n < v.len then
        writevAdvance left (iov.set i ⟨v.base + n, v.len - n⟩) (i + 1) iovIndex 0
      else writevAdvance left iov (i + 1) (iovIndex + 1) (n - v.len)
    else (iov, iovIndex)

/-- What a call of `lthread_writev` has done: the value it returns, the bytes the kernel
has accepted and the vectors as it leaves them. -/
structure WritevResult where
  ret : ℤ
  accepted : List UInt8
  iov : List Iovec
  deriving DecidableEq, Repr

/-- The `do` loop, from its `k`-th turn on. `writev` accepts the first bytes of the vectors
it is given; the result of `_lthread_wait_fd` is not looked at. -/
def writevLoop (mem : ℕ → UInt8) (writev : ℕ → SysResult) (iovcnt : ℕ) :
    ℕ → ℕ → List Iovec → ℕ → ℤ → List UInt8 → Option WritevResult
  | 0, _, _, _, _, _ => none
  | fuel + 1, k, iov, iovIndex, total, accepted =>
    let r := writev k
    if 0 < r.ret then
      let accepted := accepted ++ (iovBytes mem (iov.drop iovIndex)).take r.ret.toNat
      let total := total + r.ret
      let (iov, iovIndex) := writevAdvance (iovcnt - iovIndex) iov iovIndex iovIndex r.ret.toNat
      if iovIndex < iovcnt then writevLoop mem writev iovcnt fuel (k + 1) iov iovIndex total accepted
      else some ⟨total, accepted, iov⟩
    else if r.ret = -1 ∧ r.errno = .eagain then
      if iovIndex < iovcnt then writevLoop mem writev iovcnt fuel (k + 1) iov iovIndex total accepted
      else some ⟨total, accepted, iov⟩
    else some ⟨r.ret, accepted, iov⟩

def ltWritev (mem : ℕ → UInt8) (writev : ℕ → SysResult) (iov : List Iovec) (fuel : ℕ) :
    Option WritevResult :=
  writevLoop mem writev iov.length fuel 0 iov 0 0 []

def bytesLeft (total : ℕ) (writev : ℕ → SysResult) : ℕ → ℕ
  | 0 => total
  | k + 1 => bytesLeft total writev k - (writev k).ret.toNat

/-- Each call would block or takes at least one of the bytes that are left; 0 is the answer
when none is left. Only finitely many calls would block. -/
structure WritevAnswers (total : ℕ) (writev : ℕ → SysResult) : Prop where
  valid : ∀ k, (writev k).wouldBlock = true ∨
    (0 < (writev k).ret ∧ (writev k).ret.toNat ≤ bytesLeft total writev k) ∨
    ((writev k).ret = 0 ∧ bytesLeft total writev k = 0)
  finite : ∃ n, ∀ k, n ≤ k → (writev k).wouldBlock = false

section Advance

variable {mem : ℕ → UInt8} {iov : List Iovec} {n : ℕ}

def advance : ℕ → List Iovec → List Iovec
  | _, [] => []
  | n, v :: iov =>
    if n = 0 then v :: iov
    else if n < v.len then ⟨v.base + n, v.len - n⟩ :: iov
    else advance (n - v.len) iov

@[simp]
theorem advance_zero (iov : List Iovec) : advance 0 iov = iov := by
  cases iov <;> simp [advance]

theorem writevAdvance_zero (left : ℕ) (iov : List Iovec) (i iovIndex : ℕ) :
    writevAdvance left iov i iovIndex 0 = (iov, iovIndex) := by
  cases left <;> simp [writevAdvance]

theorem writevAdvance_spec {left i iovIndex' : ℕ} {iov' : List Iovec}
    (hl : left = iov.length - i) (hi : i ≤ iov.length)
    (h : writevAdvance left iov i i n = (iov', iovIndex')) :
    iov'.length = iov.length ∧ iovIndex' ≤ iov.length ∧
      iov'.drop iovIndex' = advance n (iov.drop i) := by
  induction left generalizing iov i n with
  | zero =>
    cases h
    rw [List.drop_eq_nil_of_le (by omega)]
    exact ⟨rfl, hi, by cases n <;> rfl⟩
  | succ left ih =>
    have hlt : i < iov.length := by omega
    have hdrop := List.drop_eq_getElem_cons hlt
    simp only [writevAdvance] at h
    split at h
    · rename_i hn
      rw [List.getD_eq_getElem?_getD, List.getElem?_eq_getElem hlt, Option.getD_some] at h
      rw [hdrop, advance, if_neg hn.ne']
      split at h
      · rename_i hlen
        rw [writevAdvance_zero] at h
        cases h
        refine ⟨by simp, hi, ?_⟩
        rw [if_pos hlen, List.drop_eq_getElem_cons (by simpa using hlt),
          List.drop_set_of_lt (Nat.lt_succ_self _), List.getElem_set_self]
      · rename_i hlen
        rw [if_neg hlen]
        exact ih (by omega) hlt h
    · rename_i hn
      obtain rfl : n = 0 := by omega
      cases h
      simp [hi]

theorem Iovec.length_bytes (v : Iovec) : (v.bytes mem).length = v.len := by
  simp [Iovec.bytes]

theorem length_iovBytes (mem : ℕ → UInt8) (iov : List Iovec) :
    (iovBytes mem iov).length = iovTotal iov := by
  induction iov with
  | nil => rfl
  | cons v iov ih =>
    simp only [iovBytes, iovTotal_cons, List.flatMap_cons, List.length_append,
      Iovec.length_bytes] at ih ⊢
    rw [ih]

theorem Iovec.bytes_cut (v : Iovec) (n : ℕ) :
    Iovec.bytes mem ⟨v.base + n, v.len - n⟩ = (v.bytes mem).drop n := by
  apply List.ext_getElem (by simp [Iovec.length_bytes])
  intro k h₁ h₂
  simp [Iovec.bytes, Nat.add_assoc]

theorem iovBytes_advance (mem : ℕ → UInt8) (n : ℕ) (iov : List Iovec) :
    iovBytes mem (advance n iov) = (iovBytes mem iov).drop n := by
  induction iov generalizing n with
  | nil => simp [advance, iovBytes]
  | cons v iov ih =>
    have hv : (v.bytes mem).length = v.len := v.length_bytes
    simp only [advance]
    split
    · rename_i hn
      simp [hn]
    · split
      · rename_i hlt
        have hle : n ≤ (v.bytes mem).length := by omega
        simp only [iovBytes, List.flatMap_cons]
        rw [v.bytes_cut n, List.drop_append_of_le_length hle]
      · rename_i hlt
        rw [ih]
        simp only [iovBytes, List.flatMap_cons]
        have hnil : (v.bytes mem).drop n = [] := List.drop_eq_nil_of_le (by omega)
        rw [List.drop_append, hnil, hv, List.nil_append]

theorem iovTotal_advance (n : ℕ) (iov : List Iovec) :
    iovTotal (advance n iov) = iovTotal iov - n := by
  rw [← length_iovBytes (fun _ => 0), iovBytes_advance, List.length_drop, length_iovBytes]

def endsEmpty (iov : List Iovec) : Prop := ∀ v, iov.getLast? = some v → v.len = 0

instance (iov : List Iovec) : Decidable (endsEmpty iov) :=
  match h : iov.getLast? with
  | none => .isTrue fun v hv => by rw [h] at hv; cases hv
  | some v => decidable_of_iff (v.len = 0) (by simp [endsEmpty, h])

theorem endsEmpty_cons_cons (u v : Iovec) (iov : List Iovec) :
    endsEmpty (u :: v :: iov) ↔ endsEmpty (v :: iov) := by
  simp [endsEmpty]

theorem endsEmpty_singleton (v : Iovec) : endsEmpty [v] ↔ v.len = 0 := by
  simp [endsEmpty]

theorem Iovec.len_le_iovTotal {v : Iovec} (hv : v ∈ iov) : v.len ≤ iovTotal iov := by
  induction iov with
  | nil => cases hv
  | cons w iov ih =>
    rw [iovTotal_cons]
    obtain rfl | hv := List.mem_cons.mp hv
    · exact Nat.le_add_right ..
    · exact Nat.le_add_left_of_le (ih hv)

theorem endsEmpty_of_iovTotal (h : iovTotal iov = 0) : endsEmpty iov := by
  intro v hv
  have hle := Iovec.len_le_iovTotal (List.mem_of_getLast? hv)
  omega

theorem endsEmpty_advance (h : advance n iov ≠ []) :
    endsEmpty (advance n iov) ↔ endsEmpty iov := by
  induction iov generalizing n with
  | nil => exact absurd rfl h
  | cons u iov ih =>
    simp only [advance] at h ⊢
    split
    · exact Iff.rfl
    · rename_i hn
      rw [if_neg hn] at h
      split
      · rename_i hlt
        cases iov with
        | nil =>
          simp only [endsEmpty_singleton]
          omega
        | cons w iov => rw [endsEmpty_cons_cons, endsEmpty_cons_cons]
      · rename_i hlt
        rw [if_neg hlt] at h
        cases iov with
        | nil => exact absurd rfl h
        | cons w iov =>
          rw [endsEmpty_cons_cons]
          exact ih h

theorem advance_ne_nil (hne : iov ≠ []) (he : endsEmpty iov) (hn : n ≤ iovTotal iov) :
    advance n iov ≠ [] := by
  induction iov generalizing n with
  | nil => exact absurd rfl hne
  | cons u iov ih =>
    simp only [advance]
    split
    · simp
    · split
      · simp
      · rename_i hn₀ hlt
        simp only [iovTotal_cons] at hn
        cases iov with
        | nil =>
          rw [endsEmpty_singleton] at he
          simp only [iovTotal_nil, he] at hn
          omega
        | cons w iov =>
          exact ih (by simp) ((endsEmpty_cons_cons u w iov).mp he) (by omega)

end Advance

section Loop

variable {mem : ℕ → UInt8} {writev : ℕ → SysResult} {total : ℕ}

theorem bytesLeft_succ_of_block {k : ℕ} (h : (writev k).wouldBlock = true) :
    bytesLeft total writev (k + 1) = bytesLeft total writev k := by
  simp only [SysResult.wouldBlock, Bool.and_eq_true, decide_eq_true_eq] at h
  simp [bytesLeft, h.1]

theorem writevLoop_block {iovcnt fuel k iovIndex : ℕ} {iov : List Iovec} {sum : ℤ}
    {accepted : List UInt8} (h : (writev k).wouldBlock = true) :
    writevLoop mem writev iovcnt (fuel + 1) k iov iovIndex sum accepted =
      if iovIndex < iovcnt then writevLoop mem writev iovcnt fuel (k + 1) iov iovIndex sum accepted
      else some ⟨sum, accepted, iov⟩ := by
  simp only [SysResult.wouldBlock, Bool.and_eq_true, decide_eq_true_eq] at h
  have hn : ¬ 0 < (writev k).ret := by omega
  rw [writevLoop, if_neg hn, if_pos h]

theorem writevLoop_ends (hA : WritevAnswers total writev) {stop fuel k iovIndex : ℕ}
    {iov : List Iovec} {sum : ℤ} {accepted : List UInt8}
    (hstop : ∀ k, stop ≤ k → (writev k).wouldBlock = false)
    (hfuel : stop - k + bytesLeft total writev k < fuel) (hi : iovIndex ≤ iov.length)
    (hleft : iovTotal (iov.drop iovIndex) = bytesLeft total writev k)
    (hsum : sum + bytesLeft total writev k = total)
    (hfirst : iov.drop iovIndex = [] → sum = 0) :
    ∃ out, writevLoop mem writev iov.length fuel k iov iovIndex sum accepted = some out ∧
      out.accepted = accepted ++ iovBytes mem (iov.drop iovIndex) ∧
      out.ret = if endsEmpty (iov.drop iovIndex) then 0 else (total : ℤ) := by
  induction fuel generalizing k iov iovIndex sum accepted with
  | zero => omega
  | succ fuel ih =>
    have hlen := length_iovBytes mem (iov.drop iovIndex)
    obtain hb | ⟨hpos, hle⟩ | ⟨hz, hleft₀⟩ := hA.valid k
    · have hk : k < stop := by
        by_contra hk
        simp [hstop k (by omega)] at hb
      have hleft' : bytesLeft total writev (k + 1) = _ := bytesLeft_succ_of_block hb
      rw [writevLoop_block hb]
      split
      · rw [← hleft'] at hleft hsum
        exact ih (by omega) hi hleft hsum hfirst
      · have hnil : iov.drop iovIndex = [] := List.drop_eq_nil_of_le (by omega)
        refine ⟨_, rfl, ?_, ?_⟩
        · simp [hnil, iovBytes]
        · simp [hnil, endsEmpty, hfirst hnil]
    · -- the kernel takes `n` bytes of what is left
      obtain ⟨n, hn⟩ : ∃ n : ℕ, (writev k).ret.toNat = n := ⟨_, rfl⟩
      have hret : (writev k).ret = n := by omega
      have hleft' : bytesLeft total writev (k + 1) = bytesLeft total writev k - n := by
        rw [bytesLeft, hn]
      have hne : iov.drop iovIndex ≠ [] := by
        intro hnil
        rw [hnil] at hleft
        simp only [iovTotal_nil] at hleft
        omega
      obtain ⟨iov', iovIndex', hadv⟩ : ∃ iov' iovIndex',
          writevAdvance (iov.length - iovIndex) iov iovIndex iovIndex n = (iov', iovIndex') :=
        ⟨_, _, rfl⟩
      obtain ⟨hl', hi', hdrop⟩ := writevAdvance_spec rfl hi hadv
      have htotal := iovTotal_advance n (iov.drop iovIndex)
      simp only [writevLoop, hpos, hn, hadv, ↓reduceIte]
      split
      · rename_i hlt
        have hne' : iov'.drop iovIndex' ≠ [] := by
          intro hnil
          have := List.drop_eq_nil_iff.mp hnil
          omega
        rw [← hl']
        have hleft₁ : iovTotal (iov'.drop iovIndex') = bytesLeft total writev (k + 1) := by
          rw [hdrop, htotal]
          omega
        obtain ⟨out, ho, hacc, hr⟩ : ∃ out, writevLoop mem writev iov'.length fuel (k + 1) iov'
              iovIndex' (sum + (writev k).ret)
              (accepted ++ (iovBytes mem (iov.drop iovIndex)).take n) = some out ∧
            out.accepted = accepted ++ (iovBytes mem (iov.drop iovIndex)).take n ++
              iovBytes mem (iov'.drop iovIndex') ∧
            out.ret = if endsEmpty (iov'.drop iovIndex') then 0 else (total : ℤ) :=
          ih (by omega) (by omega) hleft₁ (by omega) (fun hnil => absurd hnil hne')
        refine ⟨out, ho, ?_, ?_⟩
        · rw [hacc, hdrop, iovBytes_advance, List.append_assoc, List.take_append_drop]
        · rw [hdrop] at hne'
          rw [hr, hdrop, if_congr (endsEmpty_advance hne') rfl rfl]
      · have hnil : advance n (iov.drop iovIndex) = [] := by
          rw [← hdrop]
          exact List.drop_eq_nil_of_le (by omega)
        rw [hnil] at htotal
        simp only [iovTotal_nil] at htotal hleft
        have he : ¬ endsEmpty (iov.drop iovIndex) := fun he =>
          advance_ne_nil (n := n) hne he (by omega) hnil
        refine ⟨_, rfl, ?_, ?_⟩
        · rw [List.take_of_length_le (by rw [hlen]; omega)]
        · rw [if_neg he]
          simp only
          omega
    · have hnil : iovBytes mem (iov.drop iovIndex) = [] := by
        rw [← List.length_eq_zero_iff, hlen]
        omega
      have he : endsEmpty (iov.drop iovIndex) := endsEmpty_of_iovTotal (by omega)
      refine ⟨⟨0, accepted, iov⟩, ?_, ?_, ?_⟩
      · simp [writevLoop, hz]
      · simp [hnil]
      · simp [he]

end Loop

/-- The call ends, the bytes accepted are those of the vectors in order, and the value
returned is their number. -/
def WritesAll (mem : ℕ → UInt8) (iov : List Iovec) (call : ℕ → Option WritevResult) : Prop :=
  ∃ fuel out, call fuel = some out ∧ out.accepted = iovBytes mem iov ∧ out.ret = iovTotal iov

variable {mem : ℕ → UInt8} {writev : ℕ → SysResult} {iov : List Iovec}

theorem writevLoop_mono {iovcnt fuel fuel' k iovIndex : ℕ} {sum : ℤ} {accepted : List UInt8}
    {out : WritevResult} (hf : fuel ≤ fuel')
    (h : writevLoop mem writev iovcnt fuel k iov iovIndex sum accepted = some out) :
    writevLoop mem writev iovcnt fuel' k iov iovIndex sum accepted = some out := by
  induction fuel generalizing fuel' k iov iovIndex sum accepted with
  | zero => cases h
  | succ fuel ih =>
    obtain ⟨fuel', rfl⟩ : ∃ n, fuel' = n + 1 := ⟨fuel' - 1, by omega⟩
    simp only [writevLoop] at h ⊢
    split_ifs at h ⊢
    all_goals first
      | exact ih (Nat.le_of_succ_le_succ hf) h
      | exact h

theorem WritesAll.ret_eq {fuel : ℕ} {out : WritevResult}
    (h : WritesAll mem iov (ltWritev mem writev iov)) (ho : ltWritev mem writev iov fuel = some out) :
    out.ret = iovTotal iov := by
  obtain ⟨fuel', out', ho', -, hret⟩ := h
  have he := (writevLoop_mono (le_max_left fuel fuel') ho).symm.trans
    (writevLoop_mono (le_max_right fuel fuel') ho')
  obtain rfl := Option.some.inj he
  exact hret

/-- The kernel takes all the bytes in order whatever the vectors are. Their number is
returned exactly when there is none or the last vector is not empty: after the last byte
`writev` is called again for the empty vectors at the end, and its 0 is returned. -/
theorem writev_writes_all_iff (hA : WritevAnswers (iovTotal iov) writev) :
    WritesAll mem iov (ltWritev mem writev iov) ↔ iovTotal iov = 0 ∨ ¬ endsEmpty iov := by
  obtain ⟨stop, hstop⟩ := hA.finite
  obtain ⟨out, ho, hacc, hr⟩ : ∃ out,
      ltWritev mem writev iov (stop - 0 + bytesLeft (iovTotal iov) writev 0 + 1) = some out ∧
      out.accepted = [] ++ iovBytes mem (iov.drop 0) ∧
      out.ret = if endsEmpty (iov.drop 0) then 0 else (iovTotal iov : ℤ) :=
    writevLoop_ends hA hstop (Nat.lt_succ_self _) (Nat.zero_le _) rfl (Int.zero_add _) fun _ => rfl
  rw [List.drop_zero] at hacc hr
  constructor
  · intro h
    have hret := h.ret_eq ho
    by_contra hn
    obtain ⟨h₀, he⟩ := not_or.mp hn
    rw [hr, if_pos (not_not.mp he)] at hret
    omega
  · intro h
    refine ⟨_, out, ho, hacc, ?_⟩
    rw [hr]
    split
    · rename_i he
      rw [h.resolve_right (not_not.mpr he)]
      rfl
    · rfl

def blockThenTake (counts : List ℕ) (k : ℕ) : SysResult :=
  if k = 0 then ⟨-1, .eagain, Int.le_refl _⟩ else ⟨counts.getD (k - 1) 0, .other 0, by omega⟩

theorem blockThenTake_ret {counts : List ℕ} {k : ℕ} (hk : counts.length < k) :
    (blockThenTake counts k).ret = 0 := by
  have hk₀ : k ≠ 0 := by omega
  have hk₁ : counts.length ≤ k - 1 := by omega
  simp [blockThenTake, hk₀, List.getElem?_eq_none hk₁]

theorem blockThenTake_answers {counts : List ℕ} {total : ℕ}
    (hv : ∀ k ≤ counts.length, (blockThenTake counts k).wouldBlock = true ∨
      (0 < (blockThenTake counts k).ret ∧
        (blockThenTake counts k).ret.toNat ≤ bytesLeft total (blockThenTake counts) k))
    (h₀ : bytesLeft total (blockThenTake counts) (counts.length + 1) = 0) :
    WritevAnswers total (blockThenTake counts) := by
  have hleft : ∀ k, bytesLeft total (blockThenTake counts) (counts.length + 1 + k) = 0 := by
    intro k
    induction k with
    | zero => exact h₀
    | succ k ih => rw [← Nat.add_assoc, bytesLeft, ih, Nat.zero_sub]
  refine { valid := ?_, finite := ⟨counts.length + 1, ?_⟩ }
  · intro k
    by_cases hk : k ≤ counts.length
    · exact (hv k hk).imp_right .inl
    · obtain ⟨j, rfl⟩ := Nat.exists_eq_add_of_le (Nat.lt_of_not_le hk)
      exact .inr (.inr ⟨blockThenTake_ret (by omega), hleft j⟩)
  · intro k hk
    simp [SysResult.wouldBlock, blockThenTake_ret hk]

/-- Two writes that end inside the first vector and behind an empty one. -/
theorem writev_writes_all_iff_partial :
    WritevAnswers (iovTotal [⟨0, 2⟩, ⟨5, 0⟩, ⟨7, 3⟩]) (blockThenTake [1, 4]) ∧
    WritesAll (fun a => UInt8.ofNat a) [⟨0, 2⟩, ⟨5, 0⟩, ⟨7, 3⟩]
      (ltWritev (fun a => UInt8.ofNat a) (blockThenTake [1, 4]) [⟨0, 2⟩, ⟨5, 0⟩, ⟨7, 3⟩]) := by
  have hA : WritevAnswers (iovTotal [⟨0, 2⟩, ⟨5, 0⟩, ⟨7, 3⟩]) (blockThenTake [1, 4]) :=
    blockThenTake_answers (by decide) (by decide)
  exact ⟨hA, (writev_writes_all_iff hA).mpr (.inr (by decide))⟩

/-- Three bytes are written and an empty vector is left: the call returns 0. -/
theorem writev_loses_count :
    WritevAnswers (iovTotal [⟨0, 3⟩, ⟨8, 0⟩]) (blockThenTake [3]) ∧
    (∃ out, ltWritev (fun _ => 0) (blockThenTake [3]) [⟨0, 3⟩, ⟨8, 0⟩] 3 = some out ∧
      out.ret = 0 ∧ out.accepted.length = 3) ∧
    ¬ WritesAll (fun _ => 0) [⟨0, 3⟩, ⟨8, 0⟩]
      (ltWritev (fun _ => 0) (blockThenTake [3]) [⟨0, 3⟩, ⟨8, 0⟩]) := by
  have ho : ltWritev (fun _ => 0) (blockThenTake [3]) [⟨0, 3⟩, ⟨8, 0⟩] 3 =
      some ⟨0, [0, 0, 0], [⟨0, 3⟩, ⟨8, 0⟩]⟩ := by decide
  refine ⟨blockThenTake_answers (by decide) (by decide), ⟨_, ho, rfl, rfl⟩, ?_⟩
  intro h
  have hret := h.ret_eq ho
  simp [iovTotal] at hret

end Lthread
