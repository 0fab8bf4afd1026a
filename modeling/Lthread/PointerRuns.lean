import Lthread.BlockedQueues
import Lthread.Pointers
import Lthread.PollerBooks

namespace Lthread

open Function (update)

variable {m : ℕ} {s s' s₀ : State m} {P : Pointers m} {i : Fin (m + 1)} {t c fuel : ℕ} {l : Label m}

/-- The pointers are those of the queues and trees of the state. -/
structure Realises (s : State m) (P : Pointers m) : Prop where
  ready : P.ready.Holds s.ready
  blocked : P.blocked.Holds s.blockedLthreads
  sleeping : P.sleeping.Holds s.sleeping
  waiting : P.waiting.Holds s.waiting

theorem Realises.keep (hR : Realises s P) (hr : s'.ready = s.ready)
    (hb : s'.blockedLthreads = s.blockedLthreads) (hs : s'.sleeping = s.sleeping)
    (hw : s'.waiting = s.waiting) : Realises s' P where
  ready := hr ▸ hR.ready
  blocked := hb ▸ hR.blocked
  sleeping := hs ▸ hR.sleeping
  waiting := hw ▸ hR.waiting

section Scheduler

theorem insertReady_unlinked (h : insertReady s t = .ok s') (k : Fin (m + 1)) : t ∉ s.ready k := by
  unfold insertReady at h
  split at h
  · cases h
  · rename_i hk
    exact fun hm => hk ⟨k, hm⟩

theorem schedPushReadyUnsafe_unlinked (h : schedPushReadyUnsafe s i t = .ok s')
    (hc : s.currentLthread (s.sched t) ≠ some t) (k : Fin (m + 1)) : t ∉ s.ready k := by
  unfold schedPushReadyUnsafe at h
  rw [if_neg hc] at h
  obtain ⟨s₁, h₁, -⟩ := bind_ok h
  exact insertReady_unlinked h₁ k

theorem Realises.push (hR : Realises s P) (s₀ : State m)
    (hc : s₀.currentLthread = s.currentLthread) (h : schedPushReadyUnsafe s i t = .ok s') :
    Realises s' (P.schedPushReadyUnsafe s₀ (s.sched t) t) := by
  unfold Pointers.schedPushReadyUnsafe
  rw [hc]
  obtain ⟨hcur, rfl⟩ | ⟨hcur, rfl⟩ := schedPushReadyUnsafe_ok h
  · rw [if_pos hcur]
    exact hR.keep rfl rfl rfl rfl
  · rw [if_neg hcur]
    exact ⟨hR.ready.insertTail (schedPushReadyUnsafe_unlinked h hcur) _, hR.blocked, hR.sleeping,
      hR.waiting⟩

theorem deschedSleepUnsafe_frame (h : deschedSleepUnsafe s t = .ok s') :
    s'.currentLthread = s.currentLthread ∧ s'.sched = s.sched ∧ s'.sleepUsecs = s.sleepUsecs ∧
      s'.sleeping = update s.sleeping (s.sched t) ((s.sleeping (s.sched t)).erase t) := by
  obtain ⟨-, h₁⟩ := deschedSleepUnsafe_ok h
  obtain ⟨-, rfl⟩ | ⟨-, rfl⟩ := schedPushReadyUnsafe_ok h₁ <;> exact ⟨rfl, rfl, rfl, rfl⟩

theorem Realises.desched (hR : Realises s P) (hc : s₀.currentLthread = s.currentLthread)
    (hs : s₀.sched = s.sched) (hfuel : ∀ k, (s.sleeping k).length < fuel)
    (h : deschedSleepUnsafe s t = .ok s') :
    ∃ P', P.deschedSleepUnsafe fuel s₀ t = .ok P' ∧ Realises s' P' := by
  obtain ⟨ht, h₁⟩ := deschedSleepUnsafe_ok h
  obtain ⟨tree, hrun, hF⟩ := hR.sleeping.remove ht (hfuel _)
  have hR₁ : Realises
      { s with sleeping := update s.sleeping (s.sched t) ((s.sleeping (s.sched t)).erase t) }
      { P with sleeping := P.sleeping.setTree (s.sched t) tree } :=
    ⟨hR.ready, hR.blocked, hF, hR.waiting⟩
  refine ⟨_, ?_, hR₁.push s₀ hc h₁⟩
  rw [Pointers.deschedSleepUnsafe, hs, hrun]
  rfl

theorem Realises.expireLoop {now : BitVec 64} {n turns : ℕ} (hR : Realises s P)
    (hc : s₀.currentLthread = s.currentLthread) (hs : s₀.sched = s.sched)
    (hu : s₀.sleepUsecs = s.sleepUsecs) (hfuel : ∀ k, (s.sleeping k).length < fuel)
    (hn : (s.sleeping i).length ≤ n) (hturns : n < turns) (h : expireLoop i now n s = .ok s') :
    ∃ P', P.expireLoop fuel s₀ i now turns = .ok P' ∧ Realises s' P' := by
  induction n generalizing s P turns with
  | zero =>
    obtain ⟨turns, rfl⟩ : ∃ k, turns = k + 1 := ⟨turns - 1, by omega⟩
    cases h
    have hmin := (hR.sleeping.tree i).min (hfuel i)
    rw [List.length_eq_zero_iff.mp (Nat.le_zero.mp hn)] at hmin
    exact ⟨P, by simp [Pointers.expireLoop, hmin, bind, Except.bind, pure, Except.pure], hR⟩
  | succ n ih =>
    obtain ⟨turns, rfl⟩ : ∃ k, turns = k + 1 := ⟨turns - 1, by omega⟩
    have hmin := (hR.sleeping.tree i).min (hfuel i)
    simp only [Lthread.expireLoop] at h
    simp only [Pointers.expireLoop, hmin, bind, Except.bind]
    split at h
    · rename_i hl
      cases h
      rw [hl]
      exact ⟨P, rfl, hR⟩
    · rename_i u rest hl
      rw [hl, List.head?_cons]
      dsimp only
      rw [hu]
      split at h
      · rename_i hdue
        obtain ⟨s₁, h₁, h₂⟩ := bind_ok h
        obtain ⟨hc₁, hs₁, hu₁, hsl⟩ := deschedSleepUnsafe_frame h₁
        obtain ⟨P₁, hrun, hR₁⟩ := hR.desched hc hs hfuel h₁
        have hui : u ∈ s.sleeping i := by simp [hl]
        have hsi : s.sched u = i := hR.sleeping.once _ _ u (deschedSleepUnsafe_ok h₁).1 hui
        rw [hsi] at hsl
        have hlen : ∀ k, (s₁.sleeping k).length ≤ (s.sleeping k).length := by
          intro k
          rw [hsl]
          by_cases hk : k = i
          · subst hk
            rw [Function.update_self]
            exact List.length_erase_le
          · rw [Function.update_of_ne hk]
        have hless : (s₁.sleeping i).length ≤ n := by
          rw [hsl, Function.update_self, List.length_erase_of_mem hui]
          omega
        rw [if_pos hdue, hrun]
        exact ih hR₁ (hc.trans hc₁.symm) (hs.trans hs₁.symm) (hu.trans hu₁.symm)
          (fun k => (hlen k).trans_lt (hfuel k)) hless (by omega) h₂
      · rename_i hdue
        cases h
        rw [if_neg hdue]
        exact ⟨P, rfl, hR⟩

theorem RbTree.Holds.sleepInsert {usecs : ℕ → BitVec 64} {tree : RbTree ℕ} {nodes nodes' : List ℕ}
    {n turns : ℕ} {key key' : BitVec 64} (hl : tree.Holds nodes) (ht : t ∉ nodes)
    (hz : ∀ u ∈ nodes, usecs u = 0) (hfuel : nodes.length < fuel) (hturns : n ≤ turns)
    (h : sleepInsert usecs t nodes n key = some (key', nodes')) :
    ∃ tree', Pointers.sleepInsert fuel usecs t turns key tree = .ok tree' ∧ tree'.Holds nodes' ∧
      ∀ z ∉ nodes', tree'.entry z = tree.entry z := by
  induction n generalizing turns key with
  | zero => cases h
  | succ n ih =>
    obtain ⟨turns, rfl⟩ : ∃ k, turns = k + 1 := ⟨turns - 1, by omega⟩
    have hzero : ∀ u ∈ nodes, update usecs t key u = 0 := by
      intro u hu
      rw [Function.update_of_ne (by rintro rfl; exact ht hu)]
      exact hz u hu
    have hs : nodes.Pairwise fun y z => (update usecs t key y).toNat ≤ (update usecs t key z).toNat := by
      refine List.pairwise_of_forall_mem_list fun y hy z hz => ?_
      rw [hzero y hy, hzero z hz]
    simp only [Lthread.sleepInsert] at h
    simp only [Pointers.sleepInsert, bind, Except.bind]
    have hcmp : Compares (fun u => (update usecs t key u).toNat) (update usecs t key t).toNat
        (Pointers.sleepCmp usecs t key t) := compares_keyCmp _ t
    obtain ⟨hnone, y, hrun⟩ | ⟨tree', nodes₁, hsome, hrun, hl', hframe⟩ :=
      hl.insert ht hs hcmp hfuel
    · rw [hnone] at h
      rw [hrun]
      exact ih (by omega) h
    · rw [hsome] at h
      cases h
      rw [hrun]
      exact ⟨tree', rfl, hl', hframe⟩

theorem Realises.schedSleep {msecs : BitVec 64} (hR : Realises s P) (hS : s.Sleepers)
    (hc : s.currentLthread (s.sched t) = some t) (hfuel : ∀ k, (s.sleeping k).length < fuel)
    (h : schedSleep s t msecs = .ok s') :
    ∃ P', P.schedSleep fuel s t msecs = .ok P' ∧ Realises s' P' := by
  simp only [Lthread.schedSleep] at h
  unfold Pointers.schedSleep
  split at h
  · rename_i hms
    cases h
    rw [if_pos hms]
    exact ⟨P, rfl, hR.keep rfl rfl rfl rfl⟩
  · rename_i hms
    rw [if_neg hms]
    split at h
    · cases h
    · rename_i hout
      have hout : ∀ k, t ∉ s.sleeping k := by simpa using hout
      split at h
      · cases h
      · rename_i key nodes hi
        cases h
        have hzero : ∀ u ∈ s.sleeping (s.sched t), s.sleepUsecs u = 0 := by
          intro u hu
          by_contra hne
          have hcur := hS.marked _ u hu hne
          rw [hc] at hcur
          cases hcur
          exact hout _ hu
        obtain ⟨tree, hrun, hl, hframe⟩ := (hR.sleeping.tree (s.sched t)).sleepInsert (hout _) hzero
          (hfuel _) (hfuel (s.sched t)) hi
        have hmem : ∀ z, z ∈ nodes ↔ z ∈ t :: s.sleeping (s.sched t) := fun z =>
          (sleepInsert_perm hi).mem_iff
        refine ⟨{ P with sleeping := P.sleeping.setTree (s.sched t) tree }, ?_, hR.ready, hR.blocked,
          hR.sleeping.setTree hl (fun z _ hz => hframe z hz) ?_, hR.waiting⟩
        · have hrun : Pointers.sleepInsert fuel s.sleepUsecs t fuel (s.usecNow + msecs * 1000)
              (P.sleeping.tree (s.sched t)) = .ok tree := hrun
          rw [hrun]
          rfl
        · intro k hk z hz hzk
          obtain rfl | hz := List.mem_cons.mp ((hmem z).mp hz)
          · exact hout k hzk
          · exact hk (hR.sleeping.once k _ z hzk hz)

theorem Realises.popReady {victim : Fin (m + 1)} {next : SchedPc m} (hR : Realises s P) :
    Realises (popReady s i victim next) (P.popReady victim) := by
  unfold Lthread.popReady Pointers.popReady
  rw [hR.ready.first_eq]
  cases hr : s.ready victim with
  | nil => exact hR.keep rfl rfl rfl rfl
  | cons t rest =>
    have hH := hR.ready.remove (x := t) (q := victim) (by simp [hr])
    rw [hr, List.erase_cons_head] at hH
    exact ⟨hH, hR.blocked, hR.sleeping, hR.waiting⟩

theorem Realises.resumeLeave (hR : Realises s P) (h : resumeLeave s i t = .ok s') :
    Realises s' (P.reschedule s t) := by
  have hunlinked : s.needsResched t = true → ∀ k, t ∉ s.ready k := by
    intro hn k
    obtain ⟨s₁, h₁, -⟩ := bind_ok h
    simp only [reschedule, hn, ↓reduceIte] at h₁
    cases hi : insertReady _ t with
    | error f =>
      rw [hi] at h₁
      cases h₁
    | ok s₂ => exact insertReady_unlinked hi k
  rw [resumeLeave_ok h]
  unfold Pointers.reschedule
  split
  · rename_i hn
    exact ⟨hR.ready.insertTail (hunlinked hn) _, hR.blocked, hR.sleeping, hR.waiting⟩
  · exact hR.keep rfl rfl rfl rfl

/-- What the next section of `_lthread_run_sched` does to the pointers. -/
theorem Realises.schedStep {b : Bool} (hR : Realises s P) (hfuel : ∀ k, (s.sleeping k).length < fuel)
    (h : schedStep s i b = some (.ok s')) :
    ∃ P', P.schedStep fuel s i b = .ok P' ∧ Realises s' P' := by
  unfold Lthread.schedStep at h
  unfold Pointers.schedStep
  cases hp : s.schedPc i <;> simp only [hp] at h ⊢
  case expiring now =>
    obtain ⟨s₁, h₁, h₂⟩ := bind_ok (Option.some.inj h)
    cases h₂
    obtain ⟨P', hrun, hR'⟩ := hR.expireLoop rfl rfl rfl hfuel le_rfl (hfuel i) h₁
    exact ⟨P', hrun, hR'.keep rfl rfl rfl rfl⟩
  case popOwn =>
    cases h
    refine ⟨_, rfl, ?_⟩
    split
    · exact hR.popReady
    · exact hR.keep rfl rfl rfl rfl
  case steal victim =>
    cases h
    refine ⟨_, rfl, ?_⟩
    split
    · exact hR.popReady
    · exact hR.keep rfl rfl rfl rfl
  case popBlock =>
    cases h
    exact ⟨_, rfl, hR.popReady⟩
  case leave t => exact ⟨_, rfl, hR.resumeLeave (Option.some.inj h)⟩
  case wakeNeighbor t =>
    obtain ⟨s₁, h₁, h₂⟩ := Option.map_eq_some_iff.mp h
    cases h₂
    obtain ⟨-, rfl⟩ | ⟨-, -, rfl⟩ := wakeNeighbor_some h₁ <;>
      exact ⟨P, rfl, hR.keep rfl rfl rfl rfl⟩
  case exiting =>
    obtain ⟨s₁, h₁, h₂⟩ := Option.map_eq_some_iff.mp h
    cases h₂
    obtain ⟨-, rfl⟩ | ⟨-, -, rfl⟩ := wakeNeighbor_some h₁ <;>
      exact ⟨P, rfl, hR.keep rfl rfl rfl rfl⟩
  case resume t =>
    obtain ⟨-, -, rfl⟩ := resumeEnter_ok (Option.some.inj h)
    exact ⟨P, rfl, hR.keep rfl rfl rfl rfl⟩
  case block =>
    obtain ⟨-, rfl⟩ | ⟨-, -, -, -, rfl⟩ | ⟨-, -, rfl⟩ := schedBlock_ok (Option.some.inj h) <;>
      exact ⟨P, rfl, hR.keep rfl rfl rfl rfl⟩
  case beginDeepSleep =>
    cases h
    obtain ⟨-, hs⟩ | ⟨-, hs⟩ := schedDeepSleep_cases s i <;>
      exact ⟨P, rfl, by rw [hs]; exact hR.keep rfl rfl rfl rfl⟩
  case expire | setSched =>
    cases h
    exact ⟨P, rfl, hR.keep rfl rfl rfl rfl⟩
  all_goals cases h

end Scheduler

section Cond

theorem Realises.condBlock {timeout : BitVec 64} {call : CondCall} (hR : Realises s P)
    (hQ : s.Queues) (h : condBlock s c t timeout call = .ok s') : Realises s' (P.condBlock c t) := by
  obtain ⟨hi, rfl⟩ := condBlock_ok h
  have hout : ∀ d, t ∉ s.blockedLthreads d := by
    intro d hd
    rw [hQ.mem_iff, hi] at hd
    cases hd.1
  exact ⟨hR.ready, hR.blocked.insertTail hout c, hR.sleeping, hR.waiting⟩

theorem Realises.condSignalled {next : AfterSignal} (hR : Realises s P) (hQ : s.Queues)
    (hp : ∀ d, (s.pc t).onCond d = false) (h : condSignalled s c t next = .ok s') :
    Realises s' (P.condSignalled c t next) := by
  obtain ⟨rfl, rfl⟩ | ⟨timeout, rfl, h₁⟩ := condSignalled_ok h
  · exact hR.keep rfl rfl rfl rfl
  · refine Realises.condBlock ?_ ?_ h₁
    · exact hR.keep rfl rfl rfl rfl
    · exact hQ.move rfl rfl rfl fun d => (hp d).symm

theorem Realises.condSignal {next : AfterSignal} (hR : Realises s P) (hQ : s.Queues)
    (hp : s.pc t = .user) (h : condSignal s c t next = .ok s') :
    Realises s' (P.condSignal c t next) := by
  unfold Pointers.condSignal
  rw [hR.blocked.first_eq]
  obtain ⟨-, ⟨hb, h₁⟩ | ⟨u, rest, hb, -, rfl⟩⟩ := condSignal_ok h
  · rw [hb]
    refine Realises.condSignalled ?_ ?_ ?_ h₁
    · exact hR.keep rfl rfl rfl rfl
    · exact hQ.keep rfl rfl fun _ _ _ => rfl
    · simp [hp, Pc.onCond]
  · have hH := hR.blocked.remove (x := u) (q := c) (by simp [hb])
    rw [hb, List.erase_cons_head] at hH
    rw [hb]
    exact ⟨hR.ready, hH, hR.sleeping, hR.waiting⟩

theorem Realises.condLock (hR : Realises s P) (hQ : s.Queues) (h : condLock s c t = .ok s') :
    Realises s' (P.condLock s c t) := by
  unfold Pointers.condLock
  obtain ⟨ho, rfl⟩ | ⟨ho, -, h₁⟩ := condLock_ok h
  · rw [ho]
    exact hR.keep rfl rfl rfl rfl
  · rw [if_pos (Option.isSome_iff_ne_none.mpr ho)]
    exact hR.condBlock hQ h₁

theorem Realises.condWaitReturn {timeout : BitVec 64} {call : CondCall} (hR : Realises s P)
    (hQ : s.Queues) (hp : s.pc t = .condWake c timeout call)
    (h : condWaitReturn s c t call = .ok s') : Realises s' (P.condWaitReturn s c t) := by
  unfold Pointers.condWaitReturn
  by_cases ho : s.owner c = some t
  · rw [if_neg (not_not.mpr ho)]
    obtain ⟨hn, -⟩ | ⟨-, -, rfl⟩ | ⟨-, -, rfl⟩ := condWaitReturn_ok h
    · exact absurd ho hn
    · exact hR.keep rfl rfl rfl rfl
    · exact hR.keep rfl rfl rfl rfl
  · rw [if_pos ho]
    have ht := hQ.blocked_of_condWake hp ho h
    obtain ⟨-, -, rfl⟩ | ⟨hn, -⟩ | ⟨hn, -⟩ := condWaitReturn_ok h
    · exact ⟨hR.ready, hR.blocked.remove ht, hR.sleeping, hR.waiting⟩
    · exact absurd hn ho
    · exact absurd hn ho

theorem Realises.wakeup (hR : Realises s P) (hfuel : ∀ k, (s.sleeping k).length < fuel)
    (h : wakeup s t = .ok s') : ∃ P', P.wakeup fuel s t = .ok P' ∧ Realises s' P' := by
  unfold Lthread.wakeup at h
  unfold Pointers.wakeup
  split at h
  · rename_i hz
    rw [if_pos hz]
    exact hR.desched rfl rfl hfuel h
  · rename_i hz
    rw [if_neg hz]
    exact ⟨_, rfl, hR.push _ rfl h⟩

end Cond

section Poller

theorem withWait_waitKey_of_ne {fd u : ℕ} {e : Event} (hu : u ≠ t) :
    (s.withWait t fd e).waitKey u = s.waitKey u := by
  cases e <;> simp [State.waitKey, State.withWait, hu]

theorem Realises.addWaiting {fd : ℕ} {e : Event} (hR : Realises s P) (hW : s.traffic.Waits s.pc)
    (hfuel : s.waiting.length < fuel) (h : pollerAddWaitingLthread s t fd e = .ok s') :
    ∃ P', P.pollerAddWaitingLthread fuel s t fd e = .ok P' ∧ Realises s' P' := by
  obtain ⟨hr, hw, waiting, hi, rfl⟩ := pollerAddWaitingLthread_ok h
  have ht : t ∉ s.waiting := hW.notMem hr hw
  have hs : OrderedTree.Sorted (s.withWait t fd e).waitKey s.waiting := by
    have hsorted : OrderedTree.Sorted s.waitKey s.waiting := hW.sorted
    refine hsorted.congr fun u hu => ?_
    exact withWait_waitKey_of_ne (ne_of_mem_of_not_mem hu ht)
  obtain ⟨hnone, -⟩ | ⟨tree, nodes, hsome, hrun, hl, -⟩ := hR.waiting.insert ht
    (hs.imp fun hlt => le_of_lt hlt) (compares_keyCmp _ t) hfuel
  · rw [hi] at hnone
    cases hnone
  · rw [hi] at hsome
    cases hsome
    refine ⟨{ P with waiting := tree }, ?_, hR.ready, hR.blocked, hR.sleeping, hl⟩
    rw [Pointers.pollerAddWaitingLthread, hrun]
    rfl

theorem Realises.pollerFind (hR : Realises s P) (hW : s.traffic.Waits s.pc)
    (hfuel : s.waiting.length < fuel) (fd : ℕ) (dir : Event) :
    P.pollerFind fuel s fd dir =
      .ok (OrderedTree.find s.waitKey (fdKey (BitVec.ofNat 16 fd) (dir = .read)).toNat s.waiting) := by
  refine hR.waiting.find ?_ hW.sorted hfuel
  intro u
  exact compares_keyCmp id _ (s.waitKey u)

theorem Realises.deschedEvent (hR : Realises s P) (hW : s.traffic.Waits s.pc)
    (hfuel : s.waiting.length < fuel) (fd : ℕ) (dir : Event) :
    ∃ P', P.pollerDeschedEvent fuel s fd dir = .ok P' ∧
      Realises (pollerDeschedEvent s fd dir).2 P' := by
  rw [Pointers.pollerDeschedEvent, hR.pollerFind hW hfuel]
  unfold Lthread.pollerDeschedEvent
  cases hf : OrderedTree.find s.waitKey (fdKey (BitVec.ofNat 16 fd) (dir = .read)).toNat s.waiting with
  | none => exact ⟨P, rfl, hR⟩
  | some t =>
    obtain ⟨tree, hrun, hl, -⟩ := hR.waiting.remove (OrderedTree.find_eq_some hf).1 hfuel
    refine ⟨{ P with waiting := tree }, ?_, hR.ready, hR.blocked, hR.sleeping, hl⟩
    simp only [bind, Except.bind, hrun, pure, Except.pure]

theorem Realises.pollerStep (hR : Realises s P) (hW : s.traffic.Waits s.pc)
    (hfuel : s.waiting.length < fuel) (h : StepCase s .poller s') :
    ∃ P', P.pollerStep fuel s = .ok P' ∧ Realises s' P' := by
  unfold Pointers.pollerStep
  cases h with
  | @deschedNone ev dir ltRead rest _ hp hf h =>
    obtain ⟨P', hrun, hR'⟩ := hR.deschedEvent hW hfuel ev.fd dir
    have hs : (pollerDeschedEvent s ev.fd dir).2 = s := by
      unfold pollerDeschedEvent at hf ⊢
      split at hf
      · rfl
      · cases hf
    rw [hs] at hR'
    rw [hp, handledEvent_ok h]
    exact ⟨P', hrun, hR'.keep rfl rfl rfl rfl⟩
  | @deschedSome ev dir ltRead rest t hp hf =>
    obtain ⟨P', hrun, hR'⟩ := hR.deschedEvent hW hfuel ev.fd dir
    rw [hp]
    exact ⟨P', hrun, hR'.keep rfl rfl rfl rfl⟩
  | @push t ev dir ltRead rest s₁ hp hf h =>
    have hR₁ : Realises
        { s with stFdEof := if ev.isEof then update s.stFdEof t true else s.stFdEof } P :=
      hR.keep rfl rfl rfl rfl
    have hR₂ := hR₁.push s rfl h
    rw [hp]
    exact ⟨_, rfl, hR₂.keep rfl rfl rfl rfl⟩
  | account hp h =>
    rw [hp, handledEvent_ok h]
    exact ⟨P, rfl, hR.keep rfl rfl rfl rfl⟩

end Poller

section Runs

theorem Realises.sleepLeave {msecs : BitVec 64} {p : Pc} {s₁ : State m} (hR : Realises s P)
    (hS : s.Sleepers) (hsl : ∀ k, (s.sleeping k).length < fuel) (hc : ltCurrent s i = some t)
    (h : Lthread.schedSleep s t msecs = .ok s₁)
    (h₁ : ltYield { s₁ with pc := update s₁.pc t p } i t = .ok s') :
    ∃ P', P.schedSleep fuel s t msecs = .ok P' ∧ Realises s' P' := by
  obtain ⟨hs, rfl⟩ := ltYield_ok h₁
  have hcur : s.currentLthread (s.sched t) = some t := by
    have hs : s.sched t = i := by
      rw [← schedSleep_sched h]
      exact hs
    rw [hs]
    exact (ltCurrent_eq_some hc).2
  obtain ⟨P', hrun, hR'⟩ := hR.schedSleep hS hcur hsl h
  exact ⟨P', hrun, hR'.keep rfl rfl rfl rfl⟩

theorem Realises.callStep {op : Op} (hR : Realises s P) (hS : s.Sleepers) (hQ : s.Queues)
    (hW : s.traffic.Waits s.pc) (hsl : ∀ k, (s.sleeping k).length < fuel)
    (hwt : s.waiting.length < fuel) (hc : ltCurrent s i = some t) (h : StepCase s (.call i op) s') :
    ∃ P', P.callStep fuel s i t op = .ok P' ∧ Realises s' P' := by
  cases h with
  | spawn hc' hp h =>
    have hR₁ : Realises { s with
        numLthreads := s.numLthreads + 1
        sched := update s.sched s.numLthreads i
        pc := update s.pc s.numLthreads .user } P := hR.keep rfl rfl rfl rfl
    have hR₂ := hR₁.push s rfl h
    dsimp only at hR₂
    rw [Function.update_self] at hR₂
    exact ⟨_, rfl, hR₂⟩
  | yield hc' hp h | exit hc' hp h =>
    obtain ⟨-, rfl⟩ := ltYield_ok h
    exact ⟨P, rfl, hR.keep rfl rfl rfl rfl⟩
  | sleep hc' hp h h₁ =>
    cases hc.symm.trans hc'
    exact hR.sleepLeave hS hsl hc h h₁
  | waitFd hc' hp h =>
    cases hc.symm.trans hc'
    obtain ⟨P', hrun, hR'⟩ := hR.addWaiting hW hwt h
    exact ⟨P', hrun, hR'.keep rfl rfl rfl rfl⟩
  | condLock hc' hp hm h =>
    cases hc.symm.trans hc'
    exact ⟨_, rfl, hR.condLock hQ h⟩
  | @condSignal _ _ c next _ hc' hp hm h =>
    cases hc.symm.trans hc'
    have hR' := hR.condSignal hQ hp h
    cases next <;> exact ⟨_, rfl, hR'⟩
  | socket | close | ret => exact ⟨P, rfl, hR.keep rfl rfl rfl rfl⟩

theorem Realises.contStep (hR : Realises s P) (hS : s.Sleepers) (hQ : s.Queues)
    (hsl : ∀ k, (s.sleeping k).length < fuel) (hc : ltCurrent s i = some t)
    (h : StepCase s (.cont i) s') :
    ∃ P', P.contStep fuel s t = .ok P' ∧ Realises s' P' := by
  unfold Pointers.contStep
  cases h with
  | register hc' hp h h₁ =>
    cases hc.symm.trans hc'
    have hs := pollerRegisterEvent_ok h
    subst hs
    obtain ⟨-, rfl⟩ := ltYield_ok h₁
    rw [hp]
    exact ⟨P, rfl, hR.keep rfl rfl rfl rfl⟩
  | waitFdReturn hc' hp | sleepReturn hc' hp =>
    cases hc.symm.trans hc'
    rw [hp]
    exact ⟨P, rfl, hR.keep rfl rfl rfl rfl⟩
  | condLockReturn hc' hp h =>
    cases hc.symm.trans hc'
    obtain ⟨-, rfl⟩ := condLockReturn_ok h
    rw [hp]
    exact ⟨P, rfl, hR.keep rfl rfl rfl rfl⟩
  | condSleep hc' hp h h₁ =>
    cases hc.symm.trans hc'
    rw [hp]
    exact hR.sleepLeave hS hsl hc h h₁
  | condWaitReturn hc' hp hm h =>
    cases hc.symm.trans hc'
    rw [hp]
    exact ⟨_, rfl, hR.condWaitReturn hQ hp h⟩
  | @condSignalled _ _ _ _ _ s₁ _ hc' hp hf h h₁ =>
    cases hc.symm.trans hc'
    obtain ⟨P₁, hrun, hR₁⟩ := hR.wakeup hsl h
    obtain ⟨_, _, _, _, _, _, hs₁⟩ := wakeup_frame h
    have hpc : ∀ d, (s₁.pc t).onCond d = false := by
      subst hs₁
      simp [hp, Pc.onCond]
    refine ⟨_, ?_, hR₁.condSignalled ?_ hpc h₁⟩
    · simp only [hp, hrun, bind, Except.bind]
      rfl
    · subst hs₁
      exact hQ.keep rfl rfl fun _ _ _ => rfl

theorem Realises.step (hR : Realises s P) (hS : s.Sleepers) (hQ : s.Queues)
    (hW : s.traffic.Waits s.pc) (hsl : ∀ k, (s.sleeping k).length < fuel)
    (hwt : s.waiting.length < fuel) (h : exec s l = some (.ok s')) :
    ∃ P', P.step fuel s l = .ok P' ∧ Realises s' P' := by
  have hc := exec_case h
  cases l with
  | sched i b => exact hR.schedStep hsl h
  | call i op =>
    cases hcur : ltCurrent s i with
    | none => simp [exec, hcur] at h
    | some t =>
      simp only [Pointers.step, hcur]
      exact hR.callStep hS hQ hW hsl hwt hcur hc
  | cont i =>
    cases hcur : ltCurrent s i with
    | none => simp [exec, hcur] at h
    | some t =>
      simp only [Pointers.step, hcur]
      exact hR.contStep hS hQ hsl hcur hc
  | poller => exact hR.pollerStep hW hwt hc
  | unpark i =>
    cases hc with
    | @unpark _ deep _ _ _ => cases deep <;> exact ⟨P, rfl, hR.keep rfl rfl rfl rfl⟩
  | tick | kevent | fire | inject =>
    cases hc
    exact ⟨P, rfl, hR.keep rfl rfl rfl rfl⟩

/-- What the code reads from the queues and trees is what stands in the sequences. -/
structure ReadsAgree (s : State m) (P : Pointers m) (fuel : ℕ) : Prop where
  ready : ∀ i, P.ready.first i = (s.ready i).head?
  blocked : ∀ c, P.blocked.first c = (s.blockedLthreads c).head?
  numBlocked : ∀ c, P.condNumBlocked fuel c = some (s.blockedLthreads c).length
  earliest : ∀ i, rbMin fuel (P.sleeping.tree i) = .ok (s.sleeping i).head?
  isdone : ∀ i, P.schedIsdone i = schedIsdone s i
  timeout : ∀ i, P.minTimeout fuel s i = .ok (minTimeout s i)
  waiter : ∀ fd dir, P.pollerFind fuel s fd dir =
    .ok (OrderedTree.find s.waitKey (fdKey (BitVec.ofNat 16 fd) (dir = .read)).toNat s.waiting)

theorem Realises.readsAgree (hR : Realises s P) (hW : s.traffic.Waits s.pc)
    (hsl : ∀ k, (s.sleeping k).length < fuel) (hwt : s.waiting.length < fuel)
    (hbl : ∀ c, (s.blockedLthreads c).length < fuel) : ReadsAgree s P fuel where
  ready := hR.ready.first_eq
  blocked := hR.blocked.first_eq
  numBlocked c := by
    have hcount := (hR.blocked.chain c).count (k := 0) (hR.blocked.last c) (hbl c).le
    rwa [Nat.zero_add] at hcount
  earliest i := (hR.sleeping.tree i).min (hsl i)
  isdone i := by
    have hroot := (hR.sleeping.tree i).root_eq_none
    have hempty : (P.sleeping.root i).isNone = (s.sleeping i).isEmpty := by
      rw [Bool.eq_iff_iff, Option.isNone_iff_eq_none, List.isEmpty_iff]
      exact hroot
    rw [Pointers.schedIsdone, schedIsdone, hempty, hR.ready.first_eq]
    cases s.ready i <;> rfl
  timeout i := by
    rw [Pointers.minTimeout, (hR.sleeping.tree i).min (hsl i), minTimeout]
    cases s.sleeping i <;> rfl
  waiter := hR.pollerFind hW hwt

theorem length_le_of_lt {nodes : List ℕ} {n : ℕ} (hn : nodes.Nodup) (hlt : ∀ u ∈ nodes, u < n) :
    nodes.length ≤ n := by
  have hsub : nodes ⊆ List.range n := fun u hu => List.mem_range.mpr (hlt u hu)
  simpa using (hn.subperm hsub).length_le

theorem Realises.length_le (hR : Realises s P) (hL : s.Located) :
    (∀ k, (s.sleeping k).length ≤ s.numLthreads) ∧ s.waiting.length ≤ s.numLthreads ∧
      ∀ c, (s.blockedLthreads c).length ≤ s.numLthreads := by
  refine ⟨fun k => ?_, ?_, fun c => ?_⟩
  · exact length_le_of_lt (hR.sleeping.tree k).nodup fun u hu => hL.born u (.sleeping k hu)
  · exact length_le_of_lt hR.waiting.nodup fun u hu => hL.born u (.waiting hu)
  · exact length_le_of_lt (hR.blocked.nodup c) fun u hu => hL.born u (.blocked c hu)

theorem realises_start (m clock : ℕ) (isOpen : ℕ → Bool) (P : Pointers m) :
    Realises (State.init m clock isOpen) P.start := by
  rw [init_eq]
  have hready := (TailqMem.holds_init P.ready.next P.ready.prev).insertTail (x := 0) (by simp) 0
  exact ⟨hready, TailqMem.holds_init _ _, RbForest.holds_init _, RbTree.holds_nil _⟩

theorem exec_of_fault_eq_none (hs : step s l = some s') (hf : s'.fault = none) :
    exec s l = some (.ok s') := by
  unfold step at hs
  split at hs
  · cases hs
  · split at hs
    · cases hs
    · rename_i he
      cases hs
      exact he
    · cases hs
      cases hf

abbrev PointersReach (clock : ℕ) (isOpen : ℕ → Bool) (P₀ : Pointers m) :
    State m × Except RbFault (Pointers m) → Prop :=
  Runs.Reach stepPointers (fun p l => p.1.signalInTime l = true)
    (State.init m clock isOpen, .ok P₀.start)

variable {clock : ℕ} {isOpen : ℕ → Bool} {P₀ : Pointers m}
  {p : State m × Except RbFault (Pointers m)}

theorem PointersReach.forget (hr : PointersReach clock isOpen P₀ p) :
    InTimeReach clock isOpen p.1 :=
  Runs.Reach.forget hr fun _ _ h => h

theorem PointersReach.realises (hr : PointersReach clock isOpen P₀ p) (hf : p.1.fault = none) :
    ∃ P, p.2 = .ok P ∧ Realises p.1 P := by
  refine Runs.Reach.history
    (I := fun s r => s.fault = none → ∃ P, r = .ok P ∧ Realises s P) hr ?_ ?_ hf
  · exact fun _ => ⟨P₀.start, rfl, realises_start m clock isOpen P₀⟩
  · intro s s' r l hr hI _ hs hf'
    have hr' := PointersReach.forget hr
    have hloc := located_of_reach hr'
    obtain ⟨P, rfl, hR⟩ := hI (step_cases hs).1
    obtain ⟨hsl, hwt, -⟩ := hR.length_le hloc
    obtain ⟨P', hrun, hR'⟩ := hR.step hloc.toSleepers (queues_of_reach hr')
      (waits_of_reach hr').1 (fun k => Nat.lt_succ_of_le (hsl k)) (Nat.lt_succ_of_le hwt)
      (exec_of_fault_eq_none hs hf')
    exact ⟨P', hrun, hR'⟩

/-- In every run whose signals come in time no link is broken, and as long as no assertion has
failed, the pointers of all ready queues, blocked queues, sleeping trees and of the waiting tree
are those of well-formed queues and balanced trees with exactly the lthreads the pool's state
says, in its order. No null pointer has been followed, no loop has made more turns than there are
lthreads, and all reads return what they should. -/
theorem pool_runs_on_pointers (hr : PointersReach clock isOpen P₀ p) :
    p.1.Unbroken ∧ (p.1.fault = none →
      ∃ P, p.2 = .ok P ∧ Realises p.1 P ∧ ReadsAgree p.1 P (p.1.numLthreads + 1)) := by
  refine ⟨hr.forget.unbroken, fun hf => ?_⟩
  obtain ⟨P, hP, hR⟩ := hr.realises hf
  obtain ⟨hsl, hwt, hbl⟩ := hR.length_le (located_of_reach hr.forget)
  refine ⟨P, hP, hR, hR.readsAgree (waits_of_reach hr.forget).1 ?_ ?_ ?_⟩
  · exact fun k => Nat.lt_succ_of_le (hsl k)
  · exact Nat.lt_succ_of_le hwt
  · exact fun c => Nat.lt_succ_of_le (hbl c)

def Pointers.unlinked : Pointers 0 where
  ready := tailqInit (fun _ => none) .next
  blocked := tailqInit (fun _ => none) .next
  sleeping := ⟨fun _ => none, fun _ => ⟨none, none, none, .black⟩⟩
  waiting := ⟨none, fun _ => ⟨none, none, none, .black⟩⟩

/-- One lthread is ready again after its sleep, one waits for a descriptor, one is blocked on a
condition variable and one has just gone to sleep. -/
theorem pool_runs_on_pointers_four : ∃ p : State 0 × Except RbFault (Pointers 0),
    PointersReach 5 (fun _ => false) Pointers.unlinked p ∧
    (p.1.fault = none ∧ p.1.ready 0 = [0] ∧ p.1.waiting = [1] ∧ p.1.blockedLthreads 0 = [2] ∧
      p.1.sleeping 0 = [3]) ∧
    ∃ P, p.2 = .ok P ∧ P.ready.first 0 = some 0 ∧ P.waiting.Holds [1] ∧
      P.condNumBlocked (p.1.numLthreads + 1) 0 = some 1 ∧ P.schedIsdone 0 = false := by
  obtain ⟨p, hr, hf, hready, hwait, hblocked, hsleep⟩ : ∃ p : State 0 × Except RbFault (Pointers 0),
      PointersReach 5 (fun _ => false) Pointers.unlinked p ∧
      p.1.fault = none ∧ p.1.ready 0 = [0] ∧ p.1.waiting = [1] ∧ p.1.blockedLthreads 0 = [2] ∧
        p.1.sleeping 0 = [3] :=
    Runs.exists_reach_of_run (Label.scheds 0 5 ++ [.call 0 .spawn, .call 0 .spawn, .call 0 .spawn,
      .call 0 (.socket 3), .call 0 (.sleep 5)] ++ Label.scheds 0 6 ++ [.call 0 (.waitFd 3 .read),
      .cont 0] ++ Label.scheds 0 6 ++ [.call 0 (.condLock 0), .cont 0, .call 0 (.condWait 0 0),
      .cont 0] ++ Label.scheds 0 6 ++ [.call 0 (.sleep 7)]) (by decide +kernel)
  obtain ⟨P, hP, hR, hA⟩ := (pool_runs_on_pointers hr).2 hf
  refine ⟨p, hr, ⟨hf, hready, hwait, hblocked, hsleep⟩, P, hP, ?_, ?_, ?_, ?_⟩
  · rw [hA.ready, hready]
    rfl
  · rw [← hwait]
    exact hR.waiting
  · rw [hA.numBlocked, hblocked]
    rfl
  · rw [hA.isdone, schedIsdone, hsleep]
    rfl

end Runs

end Lthread
