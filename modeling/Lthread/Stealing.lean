import Mathlib.Data.Nat.ModEq
import Lthread.RingExit

namespace Lthread

open Function (update)

variable {m : ℕ} {s s' s₀ : State m} {i j : Fin (m + 1)} {l : Label m} {k : ℕ}

section Ring

theorem schedNeighbor_val (i : Fin (m + 1)) : (schedNeighbor i).val = (i.val + 1) % (m + 1) := by
  induction i using Fin.lastCases with
  | last =>
    rw [schedNeighbor_last, Fin.val_last, Nat.mod_self]
    rfl
  | cast i =>
    rw [schedNeighbor_castSucc, Fin.val_succ, Fin.val_castSucc]
    exact (Nat.mod_eq_of_lt (Nat.succ_lt_succ i.isLt)).symm

theorem iterate_schedNeighbor_val (i : Fin (m + 1)) (k : ℕ) :
    (schedNeighbor^[k] i).val = (i.val + k) % (m + 1) := by
  induction k with
  | zero => exact (Nat.mod_eq_of_lt i.isLt).symm
  | succ k ih =>
    rw [Function.iterate_succ_apply', schedNeighbor_val, ih, Nat.mod_add_mod, Nat.add_assoc]

theorem iterate_schedNeighbor_eq_self_iff (i : Fin (m + 1)) (k : ℕ) :
    schedNeighbor^[k] i = i ↔ m + 1 ∣ k := by
  rw [Fin.ext_iff, iterate_schedNeighbor_val]
  have hi := i.isLt
  have hmod : i.val % (m + 1) = i.val := Nat.mod_eq_of_lt hi
  constructor
  · intro h
    have hadd : Nat.ModEq (m + 1) (i.val + k) (i.val + 0) := h.trans hmod.symm
    exact Nat.modEq_zero_iff_dvd.mp (Nat.ModEq.add_left_cancel' _ hadd)
  · rintro ⟨c, rfl⟩
    rw [Nat.add_mul_mod_self_left, hmod]

theorem exists_iterate_schedNeighbor (i j : Fin (m + 1)) : ∃ k ≤ m, schedNeighbor^[k] i = j := by
  have hi := i.isLt
  have hj := j.isLt
  rcases Nat.lt_or_ge j.val i.val with h | h
  · refine ⟨m + 1 - i.val + j.val, by omega, Fin.ext ?_⟩
    rw [iterate_schedNeighbor_val, ← Nat.add_assoc, Nat.add_sub_cancel' hi.le, Nat.add_mod_left,
      Nat.mod_eq_of_lt hj]
  · refine ⟨j.val - i.val, by omega, Fin.ext ?_⟩
    rw [iterate_schedNeighbor_val, Nat.add_sub_cancel' h, Nat.mod_eq_of_lt hj]

theorem iterate_schedNeighbor_inj {k k' : ℕ} (hk : k ≤ m) (hk' : k' ≤ m)
    (h : schedNeighbor^[k] i = schedNeighbor^[k'] i) : k = k' := by
  have hv := congrArg Fin.val h
  rw [iterate_schedNeighbor_val, iterate_schedNeighbor_val] at hv
  have hmod : Nat.ModEq (m + 1) k k' := Nat.ModEq.add_left_cancel' i.val hv
  exact Nat.ModEq.eq_of_lt_of_lt hmod (Nat.lt_succ_of_le hk) (Nat.lt_succ_of_le hk')

end Ring

section Others

theorem SchedPc.signal_of_not_parked {p : SchedPc m}
    (h : ∀ deep timeout signalled, p ≠ .parked deep timeout signalled) : p.signal = p := by
  cases p with
  | parked deep timeout signalled => exact absurd rfl (h deep timeout signalled)
  | _ => rfl

theorem schedWakeUnsafe_schedPc (hi : (s.schedPc i).signal = s.schedPc i) (k : Fin (m + 1)) :
    (schedWakeUnsafe s k).schedPc i = s.schedPc i := by
  cases hb : s.blockState k with
  | willBlock | wontBlock => simp [schedWakeUnsafe, hb]
  | isBlocking =>
    by_cases hk : i = k
    · subst hk
      simpa [schedWakeUnsafe, hb] using hi
    · simp [schedWakeUnsafe, hb, hk]

theorem schedPushReadyUnsafe_schedPc {t : ℕ} (hi : (s.schedPc i).signal = s.schedPc i)
    (h : schedPushReadyUnsafe s j t = .ok s') : s'.schedPc i = s.schedPc i := by
  obtain ⟨-, rfl⟩ | ⟨-, rfl⟩ := schedPushReadyUnsafe_ok h
  · exact schedWakeUnsafe_schedPc (s := { s with needsResched := _ }) hi j
  · exact schedWakeUnsafe_schedPc (s := { s with ready := _ }) hi j

theorem expireLoop_schedPc {now : BitVec 64} {fuel : ℕ} (hi : (s.schedPc i).signal = s.schedPc i)
    (h : expireLoop j now fuel s = .ok s') : s'.schedPc i = s.schedPc i := by
  induction fuel generalizing s with
  | zero =>
    cases h
    rfl
  | succ fuel ih =>
    simp only [expireLoop] at h
    split at h
    · cases h
      rfl
    · split at h
      · obtain ⟨s₁, h₁, h₂⟩ := bind_ok h
        have hs := schedPushReadyUnsafe_schedPc (i := i) (by exact hi) (deschedSleepUnsafe_ok h₁).2
        exact (ih (by rw [hs]; exact hi) h₂).trans hs
      · cases h
        rfl

theorem wakeNeighbor_schedPc {next : SchedPc m} (hi : (s.schedPc i).signal = s.schedPc i)
    (hij : i ≠ j) (h : wakeNeighbor s j next = some s') : s'.schedPc i = s.schedPc i := by
  obtain ⟨-, rfl⟩ | ⟨-, -, rfl⟩ := wakeNeighbor_some h
  · exact Function.update_of_ne hij _ _
  · exact (Function.update_of_ne hij _ _).trans (schedWakeUnsafe_schedPc hi _)

theorem StepCase.schedPc_of_sched {b : Bool} (h : StepCase s (.sched j b) s') (hij : i ≠ j)
    (hi : (s.schedPc i).signal = s.schedPc i) : s'.schedPc i = s.schedPc i := by
  cases h with
  | expired hp h₁ =>
    exact (Function.update_of_ne hij _ _).trans (expireLoop_schedPc hi h₁)
  | wakeNeighbor hp h₁ | finish hp h₁ => exact wakeNeighbor_schedPc hi hij h₁
  | resume hp h₁ =>
    obtain ⟨-, -, rfl⟩ := resumeEnter_ok h₁
    exact Function.update_of_ne hij _ _
  | leave hp h₁ =>
    have hs := resumeLeave_ok h₁
    subst hs
    exact Function.update_of_ne hij _ _
  | block hp h₁ =>
    obtain ⟨-, rfl⟩ | ⟨-, -, -, -, rfl⟩ | ⟨-, timeout, rfl⟩ := schedBlock_ok h₁ <;>
      exact Function.update_of_ne hij _ _
  | deepSleep hp =>
    obtain ⟨-, hs⟩ | ⟨-, hs⟩ := schedDeepSleep_cases s j <;> rw [hs] <;>
      exact Function.update_of_ne hij _ _
  | clockRead | probeFail | popEmpty | pop | setSched => exact Function.update_of_ne hij _ _

theorem SchedEffect.schedPc_eq (he : SchedEffect s s') (hrun : ∀ t, s.schedPc i ≠ .running t)
    (hi : (s.schedPc i).signal = s.schedPc i) : s'.schedPc i = s.schedPc i := by
  have hne : ∀ {j t}, ltCurrent s j = some t → i ≠ j := by
    rintro j t hcur rfl
    obtain ⟨⟨r, hr⟩, -⟩ := ltCurrent_eq_some hcur
    exact hrun r hr
  cases he with
  | keep h hsl => rw [h.schedPc]
  | leave hc h hsl =>
    rw [h.schedPc]
    exact Function.update_of_ne (hne hc) _ _
  | sleep hc hs hy =>
    obtain ⟨-, rfl⟩ := ltYield_ok hy
    obtain ⟨-, rfl⟩ | ⟨-, -, _, _, -, rfl⟩ := schedSleep_ok hs <;>
      exact Function.update_of_ne (hne hc) _ _
  | wake hk hpush hsched h₁ hsl h₂ hsl₂ =>
    have hpush := schedPushReadyUnsafe_schedPc (i := i) (by rw [h₁.schedPc]; exact hi) hpush
    rw [h₂.schedPc, hpush, h₁.schedPc]

theorem StepCase.schedPc_of_other (h : StepCase s l s') (hl : ∀ b, l ≠ .sched i b)
    (hrun : ∀ t, s.schedPc i ≠ .running t)
    (hpark : ∀ deep timeout signalled, s.schedPc i ≠ .parked deep timeout signalled) :
    s'.schedPc i = s.schedPc i := by
  have hi := SchedPc.signal_of_not_parked hpark
  cases l with
  | sched j b =>
    have hij : i ≠ j := by
      rintro rfl
      exact hl b rfl
    exact h.schedPc_of_sched hij hi
  | unpark j =>
    cases h with
    | @unpark _ deep timeout signalled hp =>
      have hij : i ≠ j := by
        rintro rfl
        exact hpark _ _ _ hp
      cases deep <;> exact Function.update_of_ne hij _ _
  | _ => exact (h.schedEffect (by simp) (by simp)).schedPc_eq hrun hi

end Others

section Search

/-- The scheduler is inside of `_lthread_pop_ready`. -/
def SchedPc.inPopReady : SchedPc m → Bool
  | .popOwn | .steal _ | .popBlock | .wakeNeighbor _ | .setSched _ => true
  | _ => false

structure Turn (m : ℕ) where
  before : State m
  after : State m
  trylock : Bool

def noteTurn (i : Fin (m + 1)) (own : List (Turn m)) (s : State m) (l : Label m) (s' : State m) :
    List (Turn m) :=
  match l with
  | .sched j b => if j = i then own ++ [⟨s, s', b⟩] else own
  | _ => own

/-- Scheduler `i` takes steps of its own only as long as the call has not returned; all others
do what they like. -/
def DuringPopReady (i : Fin (m + 1)) (p : State m × List (Turn m)) (l : Label m) : Prop :=
  ∀ b, l = .sched i b → (p.1.schedPc i).inPopReady = true

/-- One call of `_lthread_pop_ready` by scheduler `i`, from `s₀` on: `own` are its steps so far.
At the end the scheduler is at `block` when the call has returned NULL, and at `resume t` when it
has returned `t`. -/
def PopReadyRun (i : Fin (m + 1)) (s₀ s : State m) (own : List (Turn m)) : Prop :=
  s₀.schedPc i = .popOwn ∧
    Runs.Reach (Runs.withHistory step (noteTurn i)) (DuringPopReady i) (s₀, []) (s, own)

def searchPos (i : Fin (m + 1)) : ℕ → SchedPc m
  | 0 => .popOwn
  | k + 1 => stealFrom i (schedNeighbor^[k + 1] i)

def Turn.Locks (i : Fin (m + 1)) (k : ℕ) (T : Turn m) : Prop :=
  k = m + 1 ∨ (T.trylock = true ∧ T.before.mutexFree (schedNeighbor^[k] i))

structure Turn.Misses (i : Fin (m + 1)) (k : ℕ) (T : Turn m) : Prop where
  pos : T.before.schedPc i = searchPos i k
  ready : T.after.ready = T.before.ready
  empty : T.Locks i k → T.before.ready (schedNeighbor^[k] i) = []

structure Turn.Hits (i : Fin (m + 1)) (k t : ℕ) (T : Turn m) : Prop where
  pos : T.before.schedPc i = searchPos i k
  head : ∃ rest, T.before.ready (schedNeighbor^[k] i) = t :: rest ∧
    T.after.ready = update T.before.ready (schedNeighbor^[k] i) rest

theorem searchPos_of_le (hk : k ≤ m) (h0 : k ≠ 0) :
    searchPos i k = .steal (schedNeighbor^[k] i) := by
  obtain ⟨k, rfl⟩ := Nat.exists_eq_succ_of_ne_zero h0
  apply if_neg
  rw [iterate_schedNeighbor_eq_self_iff]
  intro hdvd
  have := Nat.le_of_dvd (Nat.succ_pos k) hdvd
  omega

theorem searchPos_last (i : Fin (m + 1)) : searchPos i (m + 1) = .popBlock :=
  if_pos ((iterate_schedNeighbor_eq_self_iff i (m + 1)).mpr (Nat.dvd_refl _))

theorem stealFrom_iterate (i : Fin (m + 1)) (k : ℕ) :
    stealFrom i (schedNeighbor (schedNeighbor^[k] i)) = searchPos i (k + 1) := by
  rw [searchPos, Function.iterate_succ_apply']

theorem popReady_turn (next : SchedPc m) {b : Bool} (hp : s.schedPc i = searchPos i k) :
    (Turn.Misses i k ⟨s, popReady s i (schedNeighbor^[k] i) next, b⟩ ∧
      (popReady s i (schedNeighbor^[k] i) next).schedPc i = next) ∨
    ∃ t, Turn.Hits i k t ⟨s, popReady s i (schedNeighbor^[k] i) next, b⟩ ∧
      ((popReady s i (schedNeighbor^[k] i) next).schedPc i = .setSched t ∨
        (popReady s i (schedNeighbor^[k] i) next).schedPc i = .wakeNeighbor t) := by
  unfold popReady
  split
  · rename_i hr
    exact .inl ⟨⟨hp, rfl, fun _ => hr⟩, Function.update_self ..⟩
  · rename_i t rest hr
    refine .inr ⟨t, ⟨hp, rest, hr, rfl⟩, ?_⟩
    dsimp only
    rw [Function.update_self]
    split
    · exact .inl rfl
    · exact .inr rfl

theorem trylock_turn {next : SchedPc m} {b : Bool} (hp : s.schedPc i = searchPos i k)
    (hno : ¬ Turn.Locks i k ⟨s, { s with schedPc := update s.schedPc i next }, b⟩) :
    Turn.Misses i k ⟨s, { s with schedPc := update s.schedPc i next }, b⟩ ∧
      ({ s with schedPc := update s.schedPc i next } : State m).schedPc i = next :=
  ⟨⟨hp, rfl, fun h => absurd h hno⟩, Function.update_self ..⟩

def afterMiss (i : Fin (m + 1)) (k : ℕ) : SchedPc m := if k = m + 1 then .block else searchPos i (k + 1)

theorem schedStep_probe {b : Bool} (hk : k ≤ m + 1) (hp : s.schedPc i = searchPos i k)  :
    ∃ s', schedStep s i b = some (.ok s') ∧
      ((Turn.Misses i k ⟨s, s', b⟩ ∧ s'.schedPc i = afterMiss i k) ∨
        ∃ t, Turn.Hits i k t ⟨s, s', b⟩ ∧
          (s'.schedPc i = .setSched t ∨ s'.schedPc i = .wakeNeighbor t)) := by
  by_cases h0 : k = 0
  · -- The scheduler's own queue.
    subst h0
    have hpos : s.schedPc i = .popOwn := hp
    cases b with
    | true =>
      have hrun : schedStep s i true = some (.ok (popReady s i i (searchPos i 1))) := by
        simp only [schedStep, hpos]
        rfl
      exact ⟨_, hrun, popReady_turn _ (k := 0) hp⟩
    | false =>
      have hrun : schedStep s i false =
          some (.ok { s with schedPc := update s.schedPc i (searchPos i 1) }) := by
        simp only [schedStep, hpos]
        rfl
      refine ⟨_, hrun, .inl (trylock_turn (k := 0) hp ?_)⟩
      rintro (h | h)
      · omega
      · cases h.1
  by_cases hm : k ≤ m
  · have hpos := hp.trans (searchPos_of_le hm h0)
    have hafter : afterMiss i k = searchPos i (k + 1) := if_neg (by omega)
    rw [hafter]
    by_cases hlock : (b && decide (s.mutexFree (schedNeighbor^[k] i))) = true
    · have hrun : schedStep s i b =
          some (.ok (popReady s i (schedNeighbor^[k] i) (searchPos i (k + 1)))) := by
        simp only [schedStep, hpos, stealFrom_iterate, if_pos hlock]
      exact ⟨_, hrun, popReady_turn _ hp⟩
    · have hrun : schedStep s i b =
          some (.ok { s with schedPc := update s.schedPc i (searchPos i (k + 1)) }) := by
        simp only [schedStep, hpos, stealFrom_iterate, if_neg hlock]
      refine ⟨_, hrun, .inl (trylock_turn hp ?_)⟩
      rintro (h | h)
      · omega
      · exact hlock (by simpa using h)
  · obtain rfl : k = m + 1 := by omega
    have hpos := hp.trans (searchPos_last i)
    have hself : schedNeighbor^[m + 1] i = i :=
      (iterate_schedNeighbor_eq_self_iff i (m + 1)).mpr (Nat.dvd_refl _)
    have hafter : afterMiss i (m + 1) = .block := if_pos rfl
    have hrun : schedStep s i b = some (.ok (popReady s i i .block)) := by
      simp only [schedStep, hpos]
    have hturn := popReady_turn .block (b := b) hp
    rw [hself] at hturn
    rw [hafter]
    exact ⟨_, hrun, hturn⟩

def AllMiss (i : Fin (m + 1)) (own : List (Turn m)) : Prop :=
  ∀ k T, own[k]? = some T → Turn.Misses i k T

theorem AllMiss.concat {own : List (Turn m)} {T : Turn m} (h : AllMiss i own)
    (hT : Turn.Misses i own.length T) : AllMiss i (own ++ [T]) := by
  intro k U hU
  rcases Nat.lt_or_ge k own.length with hk | hk
  · rw [List.getElem?_append_left hk] at hU
    exact h k U hU
  · rw [List.getElem?_append_right hk] at hU
    obtain ⟨hlt, rfl⟩ := List.getElem?_eq_some_iff.mp hU
    rw [List.length_singleton, Nat.lt_one_iff] at hlt
    obtain rfl : k = own.length := by omega
    simpa using hT

structure Turn.Passes (i : Fin (m + 1)) (T : Turn m) : Prop where
  pos : (T.before.schedPc i).probe i = none
  ready : T.after.ready = T.before.ready

inductive Fetches (i : Fin (m + 1)) (t : ℕ) : SchedPc m → List (Turn m) → Prop where
  | wake : Fetches i t (.wakeNeighbor t) []
  | set {own : List (Turn m)} (hlen : own.length ≤ 1) (hpass : ∀ T ∈ own, Turn.Passes i T) :
      Fetches i t (.setSched t) own
  | done {own : List (Turn m)} {T : Turn m} (hlen : own.length ≤ 1)
      (hpass : ∀ U ∈ own ++ [T], Turn.Passes i U) (hsched : T.after.sched t = i) :
      Fetches i t (.resume t) (own ++ [T])

inductive SearchState (i : Fin (m + 1)) : SchedPc m → List (Turn m) → Prop where
  | probing {own : List (Turn m)} (hmiss : AllMiss i own) (hlen : own.length ≤ m + 1) :
      SearchState i (searchPos i own.length) own
  | nothing {own : List (Turn m)} (hmiss : AllMiss i own) (hlen : own.length = m + 2) :
      SearchState i .block own
  | found {own own' : List (Turn m)} {T : Turn m} {t : ℕ} {p : SchedPc m} (hmiss : AllMiss i own)
      (hlen : own.length ≤ m + 1) (hit : Turn.Hits i own.length t T) (hf : Fetches i t p own') :
      SearchState i p (own ++ T :: own')

variable {own : List (Turn m)} {p : SchedPc m}

theorem searchPos_cases (i : Fin (m + 1)) (k : ℕ) :
    searchPos i k = .popOwn ∨ searchPos i k = .popBlock ∨ ∃ v, searchPos i k = .steal v := by
  cases k with
  | zero => exact .inl rfl
  | succ k => exact .inr (stealFrom_cases i _)

theorem searchPos_inPopReady (i : Fin (m + 1)) (k : ℕ) : (searchPos i k).inPopReady = true := by
  obtain h | h | ⟨v, h⟩ := searchPos_cases i k <;> rw [h] <;> rfl

theorem searchPos_probe (i : Fin (m + 1)) (k : ℕ) : (searchPos i k).probe i ≠ none := by
  obtain h | h | ⟨v, h⟩ := searchPos_cases i k <;> rw [h] <;> nofun

theorem SearchState.cases_pos (h : SearchState i p own) :
    p.inPopReady = true ∨ p = .block ∨ ∃ t, p = .resume t := by
  cases h with
  | probing => exact .inl (searchPos_inPopReady i _)
  | nothing => exact .inr (.inl rfl)
  | found _ _ _ hf =>
    cases hf with
    | wake | set => exact .inl rfl
    | done => exact .inr (.inr ⟨_, rfl⟩)

theorem exec_of_step {r : Except Fault (State m)} (he : exec s l = some r)
    (hs : step s l = some s') : r = .ok s' ∨ ∃ f, r = .error f := by
  unfold step at hs
  split at hs
  · cases hs
  · rw [he] at hs
    cases r with
    | error f => exact .inr ⟨f, rfl⟩
    | ok s₁ =>
      cases hs
      exact .inl rfl

theorem step_wakeNeighbor {b : Bool} {t : ℕ} (hp : s.schedPc i = .wakeNeighbor t)
    (hs : step s (.sched i b) = some s') :
    s'.schedPc i = .setSched t ∧ s'.ready = s.ready := by
  cases hw : wakeNeighbor s i (.setSched t) with
  | none =>
    simp only [step, exec, schedStep, hp, hw, Option.map_none] at hs
    split at hs <;> cases hs
  | some s₁ =>
    have he : exec s (.sched i b) = some (.ok s₁) := by
      simp only [exec, schedStep, hp, hw, Option.map_some]
    obtain heq | ⟨f, heq⟩ := exec_of_step he hs
    · cases heq
      obtain ⟨-, rfl⟩ | ⟨-, -, rfl⟩ := wakeNeighbor_some hw
      · exact ⟨Function.update_self .., rfl⟩
      · exact ⟨Function.update_self .., rfl⟩
    · cases heq

theorem step_setSched {b : Bool} {t : ℕ} (hp : s.schedPc i = .setSched t)
    (hs : step s (.sched i b) = some s') :
    s'.schedPc i = .resume t ∧ s'.ready = s.ready ∧ s'.sched t = i := by
  have he : exec s (.sched i b) = some (.ok { s with
      sched := update s.sched t i, schedPc := update s.schedPc i (.resume t) }) := by
    simp only [exec, schedStep, hp]
  obtain heq | ⟨f, heq⟩ := exec_of_step he hs
  · cases heq
    exact ⟨Function.update_self .., rfl, Function.update_self ..⟩
  · cases heq

theorem SearchState.own_step {b : Bool} (h : SearchState i (s.schedPc i) own)
    (hin : (s.schedPc i).inPopReady = true) (hs : step s (.sched i b) = some s') :
    SearchState i (s'.schedPc i) (own ++ [⟨s, s', b⟩]) := by
  generalize hpos : s.schedPc i = p at h
  rw [hpos] at hin
  cases h with
  | probing hmiss hlen =>
    obtain ⟨s₁, hrun, hturn⟩ := schedStep_probe (b := b) hlen hpos
    obtain rfl : s₁ = s' := by
      obtain heq | ⟨f, heq⟩ := exec_of_step (l := .sched i b) hrun hs
      · exact Except.ok.inj heq
      · cases heq
    obtain ⟨hm, hp'⟩ | ⟨t, hit, hp'⟩ := hturn
    · have hlen' : (own ++ [(⟨s, s₁, b⟩ : Turn m)]).length = own.length + 1 := List.length_append
      rw [hp', afterMiss]
      split
      · exact .nothing (hmiss.concat hm) (by omega)
      · rw [← hlen']
        exact .probing (hmiss.concat hm) (by omega)
    · obtain hp' | hp' := hp'
      · rw [hp']
        exact .found hmiss hlen hit (.set (Nat.zero_le 1) (fun _ h => absurd h List.not_mem_nil))
      · rw [hp']
        exact .found hmiss hlen hit .wake
  | nothing => cases hin
  | found hmiss hlen hit hf =>
    rw [List.append_assoc, List.cons_append]
    cases hf with
    | wake =>
      obtain ⟨hp', hkeep⟩ := step_wakeNeighbor hpos hs
      have hpass : Turn.Passes i ⟨s, s', b⟩ := ⟨by rw [hpos]; rfl, hkeep⟩
      rw [hp']
      exact .found hmiss hlen hit (.set (by simp) (by simpa using hpass))
    | set hlen' hpass =>
      obtain ⟨hp', hkeep, hsched⟩ := step_setSched hpos hs
      have hpass' : Turn.Passes i ⟨s, s', b⟩ := ⟨by rw [hpos]; rfl, hkeep⟩
      rw [hp']
      apply SearchState.found hmiss hlen hit (.done hlen' _ hsched)
      intro U hU
      rcases List.mem_append.mp hU with hU | hU
      · exact hpass U hU
      · cases List.mem_singleton.mp hU
        exact hpass'
    | done => cases hin

theorem noteTurn_of_other (hl : ∀ b, l ≠ .sched i b) : noteTurn i own s l s' = own := by
  unfold noteTurn
  split
  · rename_i j b
    apply if_neg
    rintro rfl
    exact hl b rfl
  · rfl

theorem SearchState.other_step (h : SearchState i (s.schedPc i) own) (hl : ∀ b, l ≠ .sched i b)
    (hs : step s l = some s') : SearchState i (s'.schedPc i) own := by
  have hkeep : s'.schedPc i = s.schedPc i := by
    obtain ⟨-, hc | ⟨f, -, rfl⟩⟩ := step_cases hs
    · have hpos := h.cases_pos
      apply hc.schedPc_of_other hl
      · intro t ht
        simp [ht, SchedPc.inPopReady] at hpos
      · intro deep timeout signalled ht
        simp [ht, SchedPc.inPopReady] at hpos
    · rfl
  rwa [hkeep]

theorem PopReadyRun.searchState (h : PopReadyRun i s₀ s own) :
    SearchState i (s.schedPc i) own := by
  obtain ⟨h₀, hr⟩ := h
  apply hr.history (I := fun s own => SearchState i (s.schedPc i) own)
  · have hstart : SearchState i (searchPos i ([] : List (Turn m)).length) [] :=
      .probing (fun k T hT => by simp at hT) (Nat.zero_le _)
    rw [h₀]
    exact hstart
  · intro s s' own l _ hI hok hs
    by_cases hl : ∃ b, l = .sched i b
    · obtain ⟨b, rfl⟩ := hl
      have hnote : noteTurn i own s (.sched i b) s' = own ++ [⟨s, s', b⟩] := if_pos rfl
      rw [hnote]
      exact hI.own_step (hok b rfl) hs
    · have hl' : ∀ b, l ≠ .sched i b := fun b h => hl ⟨b, h⟩
      rw [noteTurn_of_other hl']
      exact hI.other_step hl' hs

theorem AllMiss.ready_eq (h : AllMiss i own) (T : Turn m) (hT : T ∈ own) :
    T.after.ready = T.before.ready := by
  obtain ⟨k, hk⟩ := List.mem_iff_getElem?.mp hT
  exact (h k T hk).ready

theorem Fetches.passes {t : ℕ} (h : Fetches i t p own) : ∀ T ∈ own, Turn.Passes i T := by
  cases h with
  | wake => exact fun T hT => absurd hT List.not_mem_nil
  | set _ hpass => exact hpass
  | done _ hpass => exact hpass

theorem SearchState.probe_pos (h : SearchState i p own) {T : Turn m} (hT : own[k]? = some T)
    (hprobe : (T.before.schedPc i).probe i ≠ none) :
    k ≤ m + 1 ∧ T.before.schedPc i = searchPos i k := by
  have hk := (List.getElem?_eq_some_iff.mp hT).1
  cases h with
  | probing hmiss hlen => exact ⟨by omega, (hmiss k T hT).pos⟩
  | nothing hmiss hlen => exact ⟨by omega, (hmiss k T hT).pos⟩
  | @found own own' U t _ hmiss hlen hit hf =>
    rcases Nat.lt_or_ge k own.length with hlt | hge
    · rw [List.getElem?_append_left hlt] at hT
      exact ⟨by omega, (hmiss k T hT).pos⟩
    · rw [List.getElem?_append_right hge] at hT
      cases hd : k - own.length with
      | zero =>
        rw [hd, List.getElem?_cons_zero] at hT
        cases hT
        obtain rfl : k = own.length := by omega
        exact ⟨hlen, hit.pos⟩
      | succ d =>
        rw [hd, List.getElem?_cons_succ] at hT
        exact absurd (hf.passes T (List.mem_of_getElem? hT)).pos hprobe

theorem searchPos_steal {v : Fin (m + 1)} (hk : k ≤ m + 1) (h : searchPos i k = .steal v) :
    k ≤ m ∧ v = schedNeighbor^[k] i := by
  have hkm : k ≠ m + 1 := by
    rintro rfl
    cases (searchPos_last i).symm.trans h
  have h0 : k ≠ 0 := by
    rintro rfl
    cases h
  have hk' : k ≤ m := by omega
  exact ⟨hk', (SchedPc.steal.inj ((searchPos_of_le hk' h0).symm.trans h)).symm⟩

theorem SearchState.length_le (h : SearchState i p own) : own.length ≤ m + 4 := by
  cases h with
  | probing _ hlen => omega
  | nothing _ hlen => omega
  | found _ hlen _ hf =>
    rw [List.length_append, List.length_cons]
    cases hf with
    | wake =>
      rw [List.length_nil]
      omega
    | set hlen' => omega
    | done hlen' =>
      rw [List.length_append, List.length_singleton]
      omega

theorem SearchState.of_block (h : SearchState i p own) (hp : p = .block) :
    AllMiss i own ∧ own.length = m + 2 := by
  cases h with
  | probing =>
    have hin := searchPos_inPopReady i own.length
    rw [hp] at hin
    cases hin
  | nothing hmiss hlen => exact ⟨hmiss, hlen⟩
  | found _ _ _ hf =>
    subst hp
    cases hf

theorem SearchState.of_resume {t : ℕ} (h : SearchState i p own) (hp : p = .resume t) :
    ∃ own₁ T own₂ U, own = own₁ ++ T :: (own₂ ++ [U]) ∧ AllMiss i own₁ ∧
      Turn.Hits i own₁.length t T ∧ (∀ V ∈ own₂ ++ [U], Turn.Passes i V) ∧ U.after.sched t = i := by
  cases h with
  | probing =>
    have hin := searchPos_inPopReady i own.length
    rw [hp] at hin
    cases hin
  | nothing => cases hp
  | found hmiss _ hit hf =>
    subst hp
    cases hf with
    | done _ hpass hsched => exact ⟨_, _, _, _, rfl, hmiss, hit, hpass, hsched⟩

theorem inPopReady_enabled (hin : (s.schedPc i).inPopReady = true) (hf : s.fault = none)
    (hw : ∀ t, s.schedPc i = .wakeNeighbor t → s.mutexFree (schedNeighbor i)) (b : Bool) :
    (step s (.sched i b)).isSome = true := by
  cases hp : s.schedPc i with
  | popOwn | steal | popBlock | setSched => simp [step, hf, exec, schedStep, hp]
  | wakeNeighbor t =>
    by_cases hself : schedNeighbor i = i
    · simp [step, hf, exec, schedStep, hp, wakeNeighbor, hself]
    · simp [step, hf, exec, schedStep, hp, wakeNeighbor, hself, hw t hp]
  | _ =>
    rw [hp] at hin
    cases hin

theorem AllMiss.ready_eq_nil (h : AllMiss i own) (hlen : own.length = m + 2)
    (hlock : ∀ T ∈ own, T.trylock = true ∧ ∀ v, T.before.schedPc i = .steal v → T.before.mutexFree v)
    (hquiet : ∀ T ∈ own, (T.before.schedPc i).probe i ≠ none → T.before.ready = s₀.ready)
    (v : Fin (m + 1)) : s₀.ready v = [] := by
  obtain ⟨k, hk, rfl⟩ := exists_iterate_schedNeighbor i v
  have hlt : k < own.length := by omega
  have hmem : own[k] ∈ own := List.getElem_mem hlt
  obtain ⟨hpos, -, hempty⟩ := h k own[k] (List.getElem?_eq_getElem hlt)
  obtain ⟨htry, hfree⟩ := hlock _ hmem
  have hprobe : (own[k].before.schedPc i).probe i ≠ none := by
    rw [hpos]
    exact searchPos_probe i k
  have hfree' : own[k].before.mutexFree (schedNeighbor^[k] i) := by
    by_cases h0 : k = 0
    · subst h0
      show own[0].before.schedPc i ≠ .beginDeepSleep
      rw [hpos]
      nofun
    · exact hfree _ (hpos.trans (searchPos_of_le hk h0))
  rw [← hquiet _ hmem hprobe]
  exact hempty (.inr ⟨htry, hfree'⟩)

end Search

/-- `_lthread_pop_ready` on any contents of the queues, with any outcomes of the trylocks and
anything the other threads do meanwhile. The links are one cycle; the call probes each other
scheduler at most once and comes to its end; it takes nothing and has seen its own queue empty
under the mutex, or it takes the head of one queue and makes it its own; and when all
trylocks succeed and the queues are left alone it returns NULL just when there is nothing. -/
theorem popReady_searches_ring {own : List (Turn m)} (h : PopReadyRun i s₀ s own) :
    ((∀ j, ∃ k ≤ m, schedNeighbor^[k] i = j) ∧ ∀ k, schedNeighbor^[k] i = i ↔ m + 1 ∣ k) ∧
    (own.length ≤ m + 4 ∧
      (∀ (k k' : ℕ) (T T' : Turn m) (v : Fin (m + 1)), own[k]? = some T → own[k']? = some T' →
        T.before.schedPc i = .steal v → T'.before.schedPc i = .steal v → k = k') ∧
      (((s.schedPc i).inPopReady = true ∧ (s.fault = none →
          (∀ t, s.schedPc i = .wakeNeighbor t → s.mutexFree (schedNeighbor i)) →
          ∀ b, (step s (.sched i b)).isSome = true)) ∨
        s.schedPc i = .block ∨ ∃ t, s.schedPc i = .resume t)) ∧
    (s.schedPc i = .block → (∀ T ∈ own, T.after.ready = T.before.ready) ∧
      ∃ T ∈ own, T.before.schedPc i = .popBlock ∧ T.before.ready i = []) ∧
    (∀ t, s.schedPc i = .resume t → ∃ own₁ T own₂ v rest, own = own₁ ++ T :: own₂ ∧
      T.before.ready v = t :: rest ∧ T.after.ready = update T.before.ready v rest ∧
      (∀ U ∈ own₁ ++ own₂, U.after.ready = U.before.ready) ∧
      ∃ U, own.getLast? = some U ∧ U.after.sched t = i) ∧
    ((∀ T ∈ own, T.trylock = true ∧
        ∀ v, T.before.schedPc i = .steal v → T.before.mutexFree v) →
      (∀ T ∈ own, (T.before.schedPc i).probe i ≠ none → T.before.ready = s₀.ready) →
      (s.schedPc i).inPopReady = false → (s.schedPc i = .block ↔ ∀ v, s₀.ready v = [])) := by
  have hS := h.searchState
  refine ⟨⟨exists_iterate_schedNeighbor i, iterate_schedNeighbor_eq_self_iff i⟩,
    ⟨hS.length_le, ?_, ?_⟩, ?_, ?_, ?_⟩
  · intro k k' T T' v hT hT' hv hv'
    obtain ⟨hk, hpos⟩ := hS.probe_pos hT (by rw [hv]; exact Option.some_ne_none v)
    obtain ⟨hk', hpos'⟩ := hS.probe_pos hT' (by rw [hv']; exact Option.some_ne_none v)
    obtain ⟨hkm, hvk⟩ := searchPos_steal hk (hpos.symm.trans hv)
    obtain ⟨hkm', hvk'⟩ := searchPos_steal hk' (hpos'.symm.trans hv')
    exact iterate_schedNeighbor_inj hkm hkm' (hvk.symm.trans hvk')
  · obtain hin | hdone := hS.cases_pos
    · exact .inl ⟨hin, fun hf hw b => inPopReady_enabled hin hf hw b⟩
    · exact .inr hdone
  · intro hb
    obtain ⟨hmiss, hlen⟩ := hS.of_block hb
    have hlt : m + 1 < own.length := by omega
    have hlast := hmiss (m + 1) own[m + 1] (List.getElem?_eq_getElem hlt)
    have hself := (iterate_schedNeighbor_eq_self_iff i (m + 1)).mpr (Nat.dvd_refl _)
    refine ⟨hmiss.ready_eq, own[m + 1], List.getElem_mem hlt, ?_, ?_⟩
    · exact hlast.pos.trans (searchPos_last i)
    · have hempty := hlast.empty (.inl rfl)
      rwa [hself] at hempty
  · intro t ht
    obtain ⟨own₁, T, own₂, U, rfl, hmiss, ⟨-, rest, hr, hr'⟩, hpass, hsched⟩ := hS.of_resume ht
    refine ⟨own₁, T, own₂ ++ [U], _, rest, rfl, hr, hr', ?_, U, ?_, hsched⟩
    · intro V hV
      rcases List.mem_append.mp hV with hV | hV
      · exact hmiss.ready_eq V hV
      · exact (hpass V hV).ready
    · rw [← List.cons_append, ← List.append_assoc, List.getLast?_concat]
  · intro hlock hquiet hdone
    constructor
    · intro hb
      obtain ⟨hmiss, hlen⟩ := hS.of_block hb
      exact hmiss.ready_eq_nil hlen hlock hquiet
    · intro hempty
      obtain hin | hb | ⟨t, ht⟩ := hS.cases_pos
      · rw [hdone] at hin
        cases hin
      · exact hb
      · obtain ⟨own₁, T, own₂, U, rfl, -, ⟨hpos, rest, hr, -⟩, -⟩ := hS.of_resume ht
        have hprobe : (T.before.schedPc i).probe i ≠ none := by
          rw [hpos]
          exact searchPos_probe i own₁.length
        rw [hquiet T (by simp) hprobe, hempty] at hr
        cases hr

/-- Scheduler 0 of two takes what is in the queue of scheduler 1. -/
theorem popReady_searches_ring_two :
    ∃ (s₀ s : State 1) (own : List (Turn 1)), PopReadyRun 0 s₀ s own ∧ s.schedPc 0 = .resume 7 ∧
      s₀.ready 1 = [7] ∧ ∃ U, own.getLast? = some U ∧ U.after.sched 7 = 0 := by
  have hok : ∀ p : State 1 × List (Turn 1), (p.1.schedPc 0).inPopReady = true →
      DuringPopReady 0 p (.sched 0 true) := fun p hp _ _ => hp
  have hrun : PopReadyRun 0 { State.empty 1 0 fun _ => true with
      schedPc := fun _ => .popOwn, ready := fun j => if j = 1 then [7] else [] } _ _ :=
    ⟨rfl, .next (.next (.next (.next .init (hok _ rfl) rfl) (hok _ rfl) rfl) (hok _ rfl) rfl)
      (hok _ rfl) rfl⟩
  obtain ⟨-, -, -, hfound, -⟩ := popReady_searches_ring hrun
  obtain ⟨_, _, _, _, _, -, -, -, -, U, hU, hsched⟩ := hfound 7 rfl
  exact ⟨_, _, _, hrun, rfl, rfl, U, hU, hsched⟩

end Lthread
