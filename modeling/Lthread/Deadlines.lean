import Mathlib.Algebra.Group.Nat.Defs
import Lthread.Placement

namespace Lthread

open Function (update update_apply)

section Retry

variable {usecs : ℕ → BitVec 64} {t n fuel : ℕ} {tree tree' : List ℕ} {d key : BitVec 64}

def keyTaken (usecs : ℕ → BitVec 64) (t : ℕ) (tree : List ℕ) (key : BitVec 64) : Prop :=
  OrderedTree.insert (fun u => (update usecs t key u).toNat) t tree = none

instance : Decidable (keyTaken usecs t tree key) := inferInstanceAs (Decidable (_ = none))

theorem keyTaken.exists_mem (h : keyTaken usecs t tree key) (ht : t ∉ tree) :
    ∃ u ∈ tree, usecs u = key := by
  obtain ⟨u, hu, hk⟩ := OrderedTree.insert_eq_none h
  have hut : u ≠ t := fun he => ht (he ▸ hu)
  rw [Function.update_of_ne hut, Function.update_self] at hk
  exact ⟨u, hu, BitVec.eq_of_toNat_eq hk⟩

theorem sorted_update (hs : OrderedTree.Sorted (fun u => (usecs u).toNat) tree) (ht : t ∉ tree) :
    OrderedTree.Sorted (fun u => (update usecs t key u).toNat) tree := by
  apply hs.congr
  intro u hu
  have hut : u ≠ t := fun he => ht (he ▸ hu)
  rw [Function.update_of_ne hut]

theorem keyTaken_iff (hs : OrderedTree.Sorted (fun u => (usecs u).toNat) tree) (ht : t ∉ tree) :
    keyTaken usecs t tree key ↔ ∃ u ∈ tree, usecs u = key := by
  refine ⟨fun h => h.exists_mem ht, ?_⟩
  rintro ⟨u, hu, rfl⟩
  have hut : u ≠ t := fun he => ht (he ▸ hu)
  apply (sorted_update hs ht).insert_eq_none_iff.mpr
  exact ⟨u, hu, by rw [Function.update_of_ne hut, Function.update_self]⟩

theorem sleepInsert_of_first (hn : ∀ j < n, keyTaken usecs t tree (d + BitVec.ofNat 64 j))
    (hf : ¬ keyTaken usecs t tree (d + BitVec.ofNat 64 n)) (hfuel : n < fuel) :
    ∃ tree', sleepInsert usecs t tree fuel d = some (d + BitVec.ofNat 64 n, tree') := by
  induction n generalizing d fuel with
  | zero =>
    obtain ⟨fuel, rfl⟩ := Nat.exists_eq_add_of_lt hfuel
    obtain ⟨tree', hi⟩ := Option.ne_none_iff_exists'.mp hf
    simp only [BitVec.add_zero] at hi ⊢
    refine ⟨tree', ?_⟩
    rw [sleepInsert, hi]
  | succ n ih =>
    obtain ⟨fuel, rfl⟩ : ∃ k, fuel = k + 1 := ⟨fuel - 1, by omega⟩
    have hshift : ∀ j, d + 1 + BitVec.ofNat 64 j = d + BitVec.ofNat 64 (j + 1) := by
      intro j
      rw [BitVec.add_assoc, BitVec.add_comm 1, BitVec.ofNat_add]
      rfl
    have h₀ : keyTaken usecs t tree d := by simpa using hn 0 (Nat.succ_pos n)
    have hrun : ∃ tree', sleepInsert usecs t tree fuel (d + 1) =
        some (d + 1 + BitVec.ofNat 64 n, tree') :=
      ih (fun j hj => by rw [hshift]; exact hn (j + 1) (by omega)) (by rwa [hshift]) (by omega)
    obtain ⟨tree', hi⟩ := hrun
    refine ⟨tree', ?_⟩
    rw [sleepInsert, show OrderedTree.insert _ t tree = none from h₀, ← hshift]
    exact hi

theorem sleepInsert_accepted (h : sleepInsert usecs t tree fuel d = some (key, tree')) :
    OrderedTree.insert (fun u => (update usecs t key u).toNat) t tree = some tree' := by
  induction fuel generalizing d with
  | zero => cases h
  | succ fuel ih =>
    rw [sleepInsert] at h
    split at h
    · cases h
      assumption
    · exact ih h

theorem refusals_le (ht : t ∉ tree) (hn : ∀ j < n, keyTaken usecs t tree (d + BitVec.ofNat 64 j))
    (hlt : n ≤ 2 ^ 64) : n ≤ tree.length := by
  have hnodup : ((List.range n).map fun j => d + BitVec.ofNat 64 j).Nodup := by
    refine List.Nodup.map_on ?_ List.nodup_range
    intro i hi j hj hij
    have hij' := congrArg BitVec.toNat ((BitVec.add_right_inj d).mp hij)
    simp only [BitVec.toNat_ofNat] at hij'
    rw [List.mem_range] at hi hj
    rwa [Nat.mod_eq_of_lt (by omega), Nat.mod_eq_of_lt (by omega)] at hij'
  have hsub : ((List.range n).map fun j => d + BitVec.ofNat 64 j) ⊆ tree.map usecs := by
    intro k hk
    obtain ⟨j, hj, rfl⟩ := List.mem_map.mp hk
    obtain ⟨u, hu, hk⟩ := (hn j (List.mem_range.mp hj)).exists_mem ht
    exact List.mem_map.mpr ⟨u, hu, hk⟩
  simpa using (List.subperm_of_subset hnodup hsub).length_le

theorem sleepInsert_stops {k : ℕ} (ht : t ∉ tree)
    (hk : ¬ keyTaken usecs t tree (d + BitVec.ofNat 64 k)) (hlt : k ≤ 2 ^ 64) :
    ∃ n ≤ k, (∀ j < n, keyTaken usecs t tree (d + BitVec.ofNat 64 j)) ∧
      ¬ keyTaken usecs t tree (d + BitVec.ofNat 64 n) ∧
      ∃ tree', sleepInsert usecs t tree (tree.length + 1) d =
        some (d + BitVec.ofNat 64 n, tree') := by
  have hex : ∃ n, ¬ keyTaken usecs t tree (d + BitVec.ofNat 64 n) := ⟨k, hk⟩
  have hmin : ∀ j < Nat.find hex, keyTaken usecs t tree (d + BitVec.ofNat 64 j) :=
    fun j hj => not_not.mp (Nat.find_min hex hj)
  have hle : Nat.find hex ≤ k := Nat.find_min' hex hk
  have hlen := refusals_le ht hmin (hle.trans hlt)
  exact ⟨_, hle, hmin, Nat.find_spec hex,
    sleepInsert_of_first hmin (Nat.find_spec hex) (Nat.lt_succ_of_le hlen)⟩

end Retry

variable {m : ℕ} {s s' : State m} {t : ℕ} {msecs : BitVec 64}

theorem firstKey_eq (now msecs : BitVec 64) :
    now + msecs * 1000 = BitVec.ofNat 64 (now.toNat + 1000 * msecs.toNat) := by
  apply BitVec.eq_of_toNat_eq
  simp [Nat.mul_comm]

def State.sleepTries (s : State m) (t : ℕ) (msecs : BitVec 64) : Option (BitVec 64 × List ℕ) :=
  sleepInsert s.sleepUsecs t (s.sleeping (s.sched t)) ((s.sleeping (s.sched t)).length + 1)
    (s.usecNow + msecs * 1000)

theorem schedSleep_eq (hm : msecs ≠ 0) (ht : ∀ k, t ∉ s.sleeping k) :
    schedSleep s t msecs = match s.sleepTries t msecs with
      | none => .error .sleepLoop
      | some (key, tree) => .ok { s with
          stSleeping := update s.stSleeping t true
          sleepUsecs := update s.sleepUsecs t key
          sleeping := update s.sleeping (s.sched t) tree
          deadline := update s.deadline t (s.usecNow.toNat + 1000 * msecs.toNat) } := by
  have hk : ¬ ∃ k, t ∈ s.sleeping k := fun ⟨k, hk⟩ => ht k hk
  simp only [schedSleep, if_neg hm, if_neg hk]
  rfl

theorem schedSleep_of_tries {key : BitVec 64} {tree : List ℕ} (hm : msecs ≠ 0)
    (ht : ∀ k, t ∉ s.sleeping k) (hi : s.sleepTries t msecs = some (key, tree)) :
    schedSleep s t msecs = .ok { s with
      stSleeping := update s.stSleeping t true
      sleepUsecs := update s.sleepUsecs t key
      sleeping := update s.sleeping (s.sched t) tree
      deadline := update s.deadline t (s.usecNow.toNat + 1000 * msecs.toNat) } := by
  rw [schedSleep_eq hm ht, hi]

theorem schedSleep_tries (hm : msecs ≠ 0) (ht : ∀ k, t ∉ s.sleeping k)
    (h : schedSleep s t msecs = .ok s') :
    ∃ tree, s.sleepTries t msecs = some (s'.sleepUsecs t, tree) := by
  rw [schedSleep_eq hm ht] at h
  split at h
  · cases h
  · rename_i key tree hi
    cases h
    exact ⟨tree, by rw [hi]; simp⟩

/-- On a tree ordered by distinct keys the loop of `_lthread_sched_sleep` ends: the lthread is
inserted once, under the first free key from `now + 1000 * msecs` on, and nobody else's key is
touched. -/
theorem sleep_takes_first_free_key (hm : msecs ≠ 0) (ht : ∀ k, t ∉ s.sleeping k)
    (hs : OrderedTree.Sorted (fun u => (s.sleepUsecs u).toNat) (s.sleeping (s.sched t)))
    (hlen : (s.sleeping (s.sched t)).length < 2 ^ 64) :
    ∃ n tree s', schedSleep s t msecs = .ok s' ∧
      (∀ j < n, ∃ u ∈ s.sleeping (s.sched t),
        s.sleepUsecs u = BitVec.ofNat 64 (s.usecNow.toNat + 1000 * msecs.toNat + j)) ∧
      (∀ u ∈ s.sleeping (s.sched t),
        s.sleepUsecs u ≠ BitVec.ofNat 64 (s.usecNow.toNat + 1000 * msecs.toNat + n)) ∧
      s'.sleepUsecs = update s.sleepUsecs t
        (BitVec.ofNat 64 (s.usecNow.toNat + 1000 * msecs.toNat + n)) ∧
      s'.sleeping = update s.sleeping (s.sched t) tree ∧
      tree.Perm (t :: s.sleeping (s.sched t)) ∧ tree.count t = 1 ∧
      OrderedTree.Sorted (fun u => (s'.sleepUsecs u).toNat) tree := by
  have htree := ht (s.sched t)
  have hkey : ∀ j, s.usecNow + msecs * 1000 + BitVec.ofNat 64 j =
      BitVec.ofNat 64 (s.usecNow.toNat + 1000 * msecs.toNat + j) := by
    intro j
    rw [firstKey_eq, ← BitVec.ofNat_add]
  -- were all keys refused, the tree would have a node for each of them
  obtain ⟨k, hk, hfree⟩ : ∃ k ≤ 2 ^ 64, ¬ keyTaken s.sleepUsecs t (s.sleeping (s.sched t))
      (s.usecNow + msecs * 1000 + BitVec.ofNat 64 k) := by
    by_contra hall
    push Not at hall
    have hle := refusals_le htree (n := 2 ^ 64) (fun j hj => hall j hj.le) le_rfl
    omega
  obtain ⟨n, -, hmin, hn, tree, hi⟩ := sleepInsert_stops htree hfree hk
  have hperm := sleepInsert_perm hi
  rw [hkey] at hn
  refine ⟨n, tree, _, schedSleep_of_tries hm ht hi, ?_, ?_, ?_, rfl, hperm, ?_, ?_⟩
  · intro j hj
    rw [← hkey]
    exact (hmin j hj).exists_mem htree
  · intro u hu hk
    exact hn ((keyTaken_iff hs htree).mpr ⟨u, hu, hk⟩)
  · rw [← hkey]
  · rw [hperm.count_eq, List.count_cons_self, List.count_eq_zero_of_not_mem htree]
  · exact (sorted_update hs htree).insert (sleepInsert_accepted hi)

def State.crowded : State 0 :=
  { State.empty 0 (2 ^ 64 - 1001) fun _ => false with
    sleeping := fun _ => [2, 1]
    sleepUsecs := update (fun _ => 0) 1 (BitVec.ofNat 64 (2 ^ 64 - 1)) }

/-- The keys run over the end of the clock: the third one tried is free. -/
theorem sleep_takes_first_free_key_wrap : ∃ n tree s', schedSleep State.crowded 0 1 = .ok s' ∧
    s'.sleepUsecs 0 = BitVec.ofNat 64 (2 ^ 64 - 1001 + 1000 + n) ∧
    s'.sleeping = update State.crowded.sleeping 0 tree ∧ tree.Perm [0, 2, 1] := by
  obtain ⟨n, tree, s', hs, -, -, hk, ht, hp, -⟩ :=
    sleep_takes_first_free_key (s := State.crowded) (t := 0) (show (1 : BitVec 64) ≠ 0 by decide)
      (by decide) (by simp [OrderedTree.Sorted, State.crowded, State.empty]) (by decide)
  refine ⟨n, tree, s', hs, ?_, ht, hp⟩
  rw [hk, Function.update_self]
  rfl

/-- The lthread is in the tree, not before the time it has asked for, and with a key that is
not the mark of an lthread outside. -/
def State.keepsDeadline (s : State m) (t : ℕ) (msecs : BitVec 64) : Prop :=
  ∃ s', schedSleep s t msecs = .ok s' ∧ t ∈ s'.sleeping (s.sched t) ∧
    s.usecNow.toNat + 1000 * msecs.toNat ≤ (s'.sleepUsecs t).toNat ∧ s'.sleepUsecs t ≠ 0

/-- A sleep of at least one millisecond ends no sooner than it should if and only if some value
of the clock from the exact deadline on is free in the tree. -/
theorem sleep_deadline_iff (hm : msecs ≠ 0) (ht : ∀ k, t ∉ s.sleeping k) :
    s.keepsDeadline t msecs ↔ ∃ key : BitVec 64,
      s.usecNow.toNat + 1000 * msecs.toNat ≤ key.toNat ∧
      ¬ keyTaken s.sleepUsecs t (s.sleeping (s.sched t)) key := by
  have htree := ht (s.sched t)
  constructor
  · rintro ⟨s', hs, -, hle, -⟩
    obtain ⟨tree, hi⟩ := schedSleep_tries hm ht hs
    refine ⟨s'.sleepUsecs t, hle, ?_⟩
    rw [keyTaken, sleepInsert_accepted hi]
    simp
  · rintro ⟨key, hle, hfree⟩
    have hlt := key.isLt
    have hd : s.usecNow + msecs * 1000 = BitVec.ofNat 64 (s.usecNow.toNat + 1000 * msecs.toNat) :=
      firstKey_eq ..
    obtain ⟨k, hk⟩ := Nat.exists_eq_add_of_le hle
    have hfree' : ¬ keyTaken s.sleepUsecs t (s.sleeping (s.sched t))
        (s.usecNow + msecs * 1000 + BitVec.ofNat 64 k) := by
      rw [hd, ← BitVec.ofNat_add, ← hk, BitVec.ofNat_toNat, BitVec.setWidth_eq]
      exact hfree
    obtain ⟨n, hn, -, -, tree, hi⟩ := sleepInsert_stops htree hfree' (by omega)
    have hval : (s.usecNow + msecs * 1000 + BitVec.ofNat 64 n).toNat =
        s.usecNow.toNat + 1000 * msecs.toNat + n := by
      rw [hd, ← BitVec.ofNat_add, BitVec.toNat_ofNat, Nat.mod_eq_of_lt (by omega)]
    have hpos : 0 < msecs.toNat := Nat.pos_of_ne_zero fun h₀ => hm (BitVec.eq_of_toNat_eq h₀)
    refine ⟨_, schedSleep_of_tries hm ht hi, ?_, ?_, ?_⟩
    · simpa using (sleepInsert_perm hi).mem_iff.mpr List.mem_cons_self
    · simp only [Function.update_self, hval]
      omega
    · intro h₀
      dsimp only at h₀
      rw [Function.update_self] at h₀
      rw [h₀, show (0 : BitVec 64).toNat = 0 from rfl] at hval
      omega

/-- The exact deadline is taken and the next value is free. -/
theorem sleep_deadline_iff_collision : State.keepsDeadline
    { State.empty 0 7 fun _ => false with
      sleeping := fun _ => [1]
      sleepUsecs := update (fun _ => 0) 1 1007 } 0 1 :=
  (sleep_deadline_iff (by decide) (by decide)).mpr ⟨1008, by decide, by decide +kernel⟩

/-- At 5000 usecs the main lthread asks for the longest sleep there is, and its deadline is
1000 usecs ago. -/
theorem sleep_forever_wraps : ∃ s : State 0,
    Runs.Reach step (fun _ _ => True) (State.init 0 5000 fun _ => false) s ∧
    ltCurrent s 0 = some 0 ∧ s.pc 0 = .user ∧
    (∃ tree, s.sleepTries 0 (BitVec.allOnes 64) = some (4000, tree)) ∧
    ¬ s.keepsDeadline 0 (BitVec.allOnes 64) := by
  obtain ⟨s, hr, hc, hp, hk, ht⟩ : ∃ s : State 0,
      Runs.Reach step (fun _ _ => True) (State.init 0 5000 fun _ => false) s ∧
      ltCurrent s 0 = some 0 ∧ s.pc 0 = .user ∧ (∀ k, 0 ∉ s.sleeping k) ∧
      (s.sleepTries 0 (BitVec.allOnes 64)).map Prod.fst = some 4000 :=
    Runs.exists_reach_of_run (Label.scheds 0 5) (by decide +kernel)
  obtain ⟨⟨key, tree⟩, hi, hkey⟩ := Option.map_eq_some_iff.mp ht
  dsimp only at hkey
  subst hkey
  refine ⟨s, hr, hc, hp, ⟨tree, hi⟩, ?_⟩
  rintro ⟨s', hs, -, hle, -⟩
  obtain ⟨tree', hi'⟩ := schedSleep_tries (by decide) hk hs
  have hkey : 4000 = s'.sleepUsecs 0 := by
    rw [hi] at hi'
    exact (Prod.mk.inj (Option.some.inj hi')).1
  rw [← hkey, show (BitVec.allOnes 64).toNat = 2 ^ 64 - 1 from rfl,
    show (4000 : BitVec 64).toNat = 4000 from rfl] at hle
  omega

end Lthread
