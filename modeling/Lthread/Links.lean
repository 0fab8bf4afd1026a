import Lthread.Sleep

namespace Lthread

open Function (update update_apply)

variable {m : ℕ} {s s' s₁ : State m} {i : Fin (m + 1)} {t u : ℕ} {l : Label m}

inductive State.Linked (s : State m) (t : ℕ) : Prop where
  | ready (i : Fin (m + 1)) (h : t ∈ s.ready i)
  | held (i : Fin (m + 1)) (g : Hold) (h : (s.schedPc i).holds = some (t, g))
  | sleeping (i : Fin (m + 1)) (h : t ∈ s.sleeping i)
  | waiting (h : t ∈ s.waiting)
  | hands (h : s.pollerPc.hands = some t)
  | blocked (c : ℕ) (h : t ∈ s.blockedLthreads c)
  | signal (u c : ℕ) (next : AfterSignal) (h : s.pc u = .condSignal c t next)

structure LinksFrom (s s' : State m) (u : ℕ) : Prop where
  ready : ∀ k, u ∈ s'.ready k → s.Linked u
  held : ∀ k g, (s'.schedPc k).holds = some (u, g) → s.Linked u
  sleeping : ∀ k, u ∈ s'.sleeping k → s.Linked u
  waiting : u ∈ s'.waiting → s.Linked u
  hands : s'.pollerPc.hands = some u → s.Linked u
  blocked : ∀ c, u ∈ s'.blockedLthreads c → s.Linked u
  signal : ∀ v c next, s'.pc v = .condSignal c u next → s.Linked u

theorem LinksFrom.refl (s : State m) (u : ℕ) : LinksFrom s s u :=
  ⟨.ready, .held, .sleeping, .waiting, .hands, .blocked, .signal⟩

theorem LinksFrom.of_eq (hready : s'.ready = s.ready) (hheld : s'.schedPc = s.schedPc)
    (hsleeping : s'.sleeping = s.sleeping) (hwaiting : s'.waiting = s.waiting)
    (hhands : s'.pollerPc = s.pollerPc) (hblocked : s'.blockedLthreads = s.blockedLthreads)
    (hsignal : s'.pc = s.pc) : LinksFrom s s' u where
  ready k h := .ready k (by rwa [hready] at h)
  held k g h := .held k g (by rwa [hheld] at h)
  sleeping k h := .sleeping k (by rwa [hsleeping] at h)
  waiting h := .waiting (by rwa [hwaiting] at h)
  hands h := .hands (by rwa [hhands] at h)
  blocked c h := .blocked c (by rwa [hblocked] at h)
  signal v c next h := .signal v c next (by rwa [hsignal] at h)

theorem LinksFrom.linked (h : LinksFrom s s' u) (hu : s'.Linked u) : s.Linked u := by
  cases hu with
  | ready k hk => exact h.ready k hk
  | held k g hk => exact h.held k g hk
  | sleeping k hk => exact h.sleeping k hk
  | waiting hk => exact h.waiting hk
  | hands hk => exact h.hands hk
  | blocked c hk => exact h.blocked c hk
  | signal v c next hk => exact h.signal v c next hk

theorem LinksFrom.of_linked (h : s'.Linked u → s.Linked u) : LinksFrom s s' u where
  ready k hk := h (.ready k hk)
  held k g hk := h (.held k g hk)
  sleeping k hk := h (.sleeping k hk)
  waiting hk := h (.waiting hk)
  hands hk := h (.hands hk)
  blocked c hk := h (.blocked c hk)
  signal v c next hk := h (.signal v c next hk)

theorem LinksFrom.trans (h : LinksFrom s s₁ u) (h₁ : LinksFrom s₁ s' u) : LinksFrom s s' u :=
  .of_linked fun hu => h.linked (h₁.linked hu)

theorem LinksFrom.wake (s : State m) (i : Fin (m + 1)) (u : ℕ) :
    LinksFrom s (schedWakeUnsafe s i) u := by
  refine { LinksFrom.refl s u with held := fun k g hk => .held k g ?_ }
  rwa [(schedWakeUnsafe_holds s i k).1] at hk

theorem mem_update_append {f : Fin (m + 1) → List ℕ} {k : Fin (m + 1)}
    (h : u ∈ update f i (f i ++ [t]) k) : u ∈ f k ∨ u = t := by
  rw [update_apply] at h
  split at h
  · rename_i hk
    subst hk
    simpa using h
  · exact .inl h

theorem mem_update_erase {f : Fin (m + 1) → List ℕ} {k : Fin (m + 1)}
    (h : u ∈ update f i ((f i).erase t) k) : u ∈ f k := by
  rw [update_apply] at h
  split at h
  · rename_i hk
    subst hk
    exact List.mem_of_mem_erase h
  · exact h

theorem held_update {p : SchedPc m} {k : Fin (m + 1)} {g : Hold}
    (h : (update s.schedPc i p k).holds = some (u, g)) :
    p.holds = some (u, g) ∨ (s.schedPc k).holds = some (u, g) := by
  rw [update_apply] at h
  split at h
  · exact .inl h
  · exact .inr h

theorem LinksFrom.pass {p : SchedPc m} (hp : ∀ g, p.holds = some (u, g) → s.Linked u) :
    LinksFrom s { s with schedPc := update s.schedPc i p } u :=
  { LinksFrom.refl s u with held := fun k g hk => (held_update hk).elim (hp g) (.held k g) }

theorem LinksFrom.push (hs : LinksFrom s s₁ u) (ht : s.Linked t)
    (h : schedPushReadyUnsafe s₁ i t = .ok s') : LinksFrom s s' u := by
  obtain ⟨-, rfl⟩ | ⟨-, rfl⟩ := schedPushReadyUnsafe_ok h
  · refine LinksFrom.trans ?_ (LinksFrom.wake _ i u)
    exact { hs with }
  · refine LinksFrom.trans ?_ (LinksFrom.wake _ i u)
    refine { hs with ready := fun k hk => ?_ }
    obtain hk | rfl := mem_update_append hk
    · exact hs.ready k hk
    · exact ht

theorem LinksFrom.unsleep (s : State m) (i : Fin (m + 1)) (t u : ℕ) :
    LinksFrom s { s with sleeping := update s.sleeping i ((s.sleeping i).erase t) } u :=
  { LinksFrom.refl s u with sleeping := fun k hk => .sleeping k (mem_update_erase hk) }

theorem LinksFrom.expireLoop {now : BitVec 64} {fuel : ℕ} (h : expireLoop i now fuel s = .ok s') :
    LinksFrom s s' u := by
  induction fuel generalizing s with
  | zero =>
    cases h
    exact .refl _ _
  | succ fuel ih =>
    simp only [Lthread.expireLoop] at h
    split at h
    · cases h
      exact .refl _ _
    · rename_i t rest hl
      split at h
      · obtain ⟨s₁, h₁, h₂⟩ := bind_ok h
        obtain ⟨-, h₃⟩ := deschedSleepUnsafe_ok h₁
        exact ((LinksFrom.unsleep _ _ _ _).push (.sleeping i (by simp [hl])) h₃).trans (ih h₂)
      · cases h
        exact .refl _ _

theorem LinksFrom.wakeNeighbor {next : SchedPc m}
    (hn : ∀ g, next.holds = some (u, g) → s.Linked u) (h : wakeNeighbor s i next = some s') :
    LinksFrom s s' u := by
  obtain ⟨-, rfl⟩ | ⟨-, -, rfl⟩ := wakeNeighbor_some h
  · exact .pass hn
  · refine { LinksFrom.refl s u with held := fun k g hk => ?_ }
    obtain hk | hk := held_update (s := schedWakeUnsafe s (schedNeighbor i)) hk
    · exact hn g hk
    · exact .held k g (by rwa [(schedWakeUnsafe_holds _ _ k).1] at hk)

theorem State.Linked.of_holds {p : SchedPc m} {g : Hold} (hp : p.holds = some (u, g)) (h : Hold)
    (hs : (s.schedPc i).holds = p.holds.map fun x => (x.1, h)) : s.Linked u :=
  .held i h (by rw [hs, hp]; rfl)

theorem LinksFrom.schedStep {b : Bool} (h : StepCase s (.sched i b) s') : LinksFrom s s' u := by
  cases h with
  | clockRead h | popEmpty h _ => exact .pass (fun _ hg => by cases hg)
  | expired h h₁ => exact (LinksFrom.expireLoop h₁).trans (.pass fun _ hg => by cases hg)
  | probeFail h hp =>
    refine .pass fun g hg => ?_
    obtain rfl | ⟨v, rfl⟩ := hp <;> cases hg
  | @pop _ _ v t rest p h hr hp =>
    have ht : s.Linked t := .ready v (by simp [hr])
    refine { LinksFrom.refl s u with ready := fun k hk => ?_, held := fun k g hk => ?_ }
    · simp only [update_apply] at hk
      split at hk
      · exact .ready v (by simp [hr, hk])
      · exact .ready k hk
    · obtain hk | hk := held_update hk
      · obtain rfl | rfl := hp <;> cases hk <;> exact ht
      · exact .held k g hk
  | wakeNeighbor h h₁ =>
    exact .wakeNeighbor (fun g hg => .of_holds hg .popped (by rw [h]; rfl)) h₁
  | finish h h₁ => exact .wakeNeighbor (fun g hg => by cases hg) h₁
  | setSched h =>
    exact { LinksFrom.refl s u with
      held := (LinksFrom.pass fun g hg => .of_holds hg .popped (by rw [h]; rfl)).held }
  | resume h h₁ =>
    obtain ⟨-, -, rfl⟩ := resumeEnter_ok h₁
    exact { LinksFrom.refl s u with
      held := (LinksFrom.pass fun g hg => .of_holds hg .popped (by rw [h]; rfl)).held }
  | @leave _ _ t _ h h₁ =>
    have hs := resumeLeave_ok h₁
    subst hs
    have ht : s.Linked t := .held i .leaving (by rw [h]; rfl)
    refine { LinksFrom.refl s u with
      ready := fun k hk => ?_
      held := (LinksFrom.pass fun g hg => by cases hg).held }
    dsimp only at hk
    split at hk
    · obtain hk | rfl := mem_update_append hk
      · exact .ready k hk
      · exact ht
    · exact .ready k hk
  | block h h₁ =>
    obtain ⟨-, rfl⟩ | ⟨-, -, -, -, rfl⟩ | ⟨-, timeout, rfl⟩ := schedBlock_ok h₁ <;>
      exact { LinksFrom.refl s u with held := (LinksFrom.pass fun g hg => by cases hg).held }
  | deepSleep h =>
    obtain ⟨-, hs⟩ | ⟨-, hs⟩ := schedDeepSleep_cases s i <;> rw [hs] <;>
      exact { LinksFrom.refl s u with held := (LinksFrom.pass fun g hg => by cases hg).held }

theorem State.Sleepers.running (hS : s.Sleepers) (hc : ltCurrent s i = some t) :
    s.schedPc i = .running t := by
  obtain ⟨⟨r, hr⟩, hcur⟩ := ltCurrent_eq_some hc
  rw [hS.current, hr] at hcur
  rw [hr, Option.some.inj hcur]

theorem linked_of_update {p : Pc} {v c : ℕ} {next : AfterSignal}
    (hp : ∀ c next, p ≠ .condSignal c u next) (h : update s.pc t p v = .condSignal c u next) :
    s.Linked u := by
  rw [update_apply] at h
  split at h
  · exact absurd h (hp c next)
  · exact .signal v c next h

theorem held_leave {k : Fin (m + 1)} {g : Hold} (ht : s.Linked t)
    (h : (update s.schedPc i (.leave t) k).holds = some (u, g)) : s.Linked u := by
  obtain hk | hk := held_update h
  · cases hk
    exact ht
  · exact .held k g hk

theorem linked_of_blocked {c d : ℕ} (ht : s.Linked t)
    (h : u ∈ update s.blockedLthreads c (s.blockedLthreads c ++ [t]) d) : s.Linked u := by
  rw [update_apply] at h
  split at h
  · obtain h | h := List.mem_append.mp h
    · exact .blocked c h
    · exact List.mem_singleton.mp h ▸ ht
  · exact .blocked d h

theorem LinksFrom.condSignalled {c : ℕ} {next : AfterSignal} (ht : s.Linked t)
    (h : condSignalled s₁ c t next = .ok s') (hs : LinksFrom s s₁ u)
    (hb : s₁.blockedLthreads = s.blockedLthreads) (hpc : s₁.pc = s.pc) : LinksFrom s s' u := by
  obtain ⟨-, rfl⟩ | ⟨timeout, -, h₁⟩ := condSignalled_ok h
  · refine { hs with signal := fun v d n hv => ?_ }
    rw [hpc] at hv
    exact linked_of_update (by simp) hv
  · obtain ⟨-, rfl⟩ := condBlock_ok h₁
    refine { hs with blocked := fun d hd => ?_, signal := fun v d n hv => ?_ }
    · rw [hb] at hd
      exact linked_of_blocked ht hd
    · simp only [Function.update_idem] at hv
      rw [hpc] at hv
      exact linked_of_update (by simp) hv

theorem LinksFrom.sleepLeave {msecs : BitVec 64} {p : Pc} (ht : s.Linked t)
    (hp : ∀ c next, p ≠ .condSignal c u next) (h : schedSleep s t msecs = .ok s₁)
    (h₁ : ltYield { s₁ with pc := update s₁.pc t p } i t = .ok s') : LinksFrom s s' u := by
  obtain ⟨-, rfl⟩ := ltYield_ok h₁
  obtain ⟨-, rfl⟩ | ⟨-, -, key, tree, hperm, rfl⟩ := schedSleep_ok h
  · exact { LinksFrom.refl s u with
      held := fun k g hk => held_leave ht hk
      signal := fun v d n hv => linked_of_update hp hv }
  · refine { LinksFrom.refl s u with
      held := fun k g hk => held_leave ht hk
      sleeping := fun k hk => ?_
      signal := fun v d n hv => linked_of_update hp hv }
    dsimp only at hk
    rw [update_apply] at hk
    split at hk
    · obtain rfl | hk := List.mem_cons.mp (hperm.mem_iff.mp hk)
      · exact ht
      · exact .sleeping _ hk
    · exact .sleeping k hk

theorem LinksFrom.callStep {op : Op} (hS : s.Sleepers) (hop : op ≠ .spawn)
    (h : StepCase s (.call i op) s') : LinksFrom s s' u := by
  have hheld : ∀ {t}, ltCurrent s i = some t → s.Linked t :=
    fun hc => .held i .running (by rw [hS.running hc]; rfl)
  cases h with
  | spawn => exact absurd rfl hop
  | sleep hc hp h h₁ => exact .sleepLeave (hheld hc) (by simp) h h₁
  | waitFd hc hp h =>
    obtain ⟨-, -, waiting, hi, rfl⟩ := pollerAddWaitingLthread_ok h
    refine { LinksFrom.refl s u with
      waiting := fun hw => ?_
      signal := fun v d n hv => linked_of_update (by simp) hv }
    obtain rfl | hw := List.mem_cons.mp ((OrderedTree.insert_perm hi).mem_iff.mp hw)
    · exact hheld hc
    · exact .waiting hw
  | condLock hc hp hm h =>
    obtain ⟨ho, rfl⟩ | ⟨-, -, h₁⟩ := condLock_ok h
    · exact { LinksFrom.refl s u with signal := fun v d n hv => linked_of_update (by simp) hv }
    · obtain ⟨-, rfl⟩ := condBlock_ok h₁
      exact { LinksFrom.refl s u with
        blocked := fun d hd => linked_of_blocked (hheld hc) hd
        signal := fun v d n hv => linked_of_update (by simp) hv }
  | @condSignal _ t c next _ hc hp hm h =>
    obtain ⟨-, ⟨-, h₁⟩ | ⟨w, rest, hl, -, rfl⟩⟩ := condSignal_ok h
    · exact .condSignalled (hheld hc) h₁ (.of_eq rfl rfl rfl rfl rfl rfl rfl) rfl rfl
    · refine { LinksFrom.refl s u with blocked := fun d hd => ?_, signal := fun v d n hv => ?_ }
      · dsimp only at hd
        rw [update_apply] at hd
        split at hd
        · exact .blocked c (by simp [hl, hd])
        · exact .blocked d hd
      · dsimp only at hv
        rw [update_apply] at hv
        split at hv
        · cases hv
          exact .blocked c (by simp [hl])
        · exact .signal v d n hv
  | yield hc hp h =>
    obtain ⟨-, rfl⟩ := ltYield_ok h
    exact { LinksFrom.refl s u with held := fun k g hk => held_leave (hheld hc) hk }
  | exit hc hp h =>
    obtain ⟨-, rfl⟩ := ltYield_ok h
    exact { LinksFrom.refl s u with
      held := fun k g hk => held_leave (hheld hc) hk
      signal := fun v d n hv => linked_of_update (by simp) hv }
  | ret hc hp =>
    exact { LinksFrom.refl s u with
      held := fun k g hk => held_leave (hheld hc) hk
      signal := fun v d n hv => linked_of_update (by simp) hv }
  | socket | close => exact .of_eq rfl rfl rfl rfl rfl rfl rfl

theorem LinksFrom.contStep (hS : s.Sleepers) (h : StepCase s (.cont i) s') :
    LinksFrom s s' u := by
  have hheld : ∀ {t}, ltCurrent s i = some t → s.Linked t :=
    fun hc => .held i .running (by rw [hS.running hc]; rfl)
  cases h with
  | waitFdReturn | sleepReturn =>
    exact { LinksFrom.refl s u with signal := fun v d n hv => linked_of_update (by simp) hv }
  | register hc hp h h₁ =>
    have hs := pollerRegisterEvent_ok h
    subst hs
    obtain ⟨-, rfl⟩ := ltYield_ok h₁
    exact { LinksFrom.refl s u with
      held := fun k g hk => held_leave (hheld hc) hk
      signal := fun v d n hv => linked_of_update (by simp) hv }
  | condLockReturn hc hp h =>
    obtain ⟨-, rfl⟩ := condLockReturn_ok h
    exact { LinksFrom.refl s u with signal := fun v d n hv => linked_of_update (by simp) hv }
  | condSleep hc hp h h₁ => exact .sleepLeave (hheld hc) (by simp) h h₁
  | @condWaitReturn _ t c _ _ _ hc hp hm h =>
    obtain ⟨-, -, rfl⟩ | ⟨-, -, rfl⟩ | ⟨-, -, rfl⟩ := condWaitReturn_ok h
    · refine { LinksFrom.refl s u with
        blocked := fun d hd => ?_
        signal := fun v d n hv => linked_of_update (by simp) hv }
      dsimp only at hd
      rw [update_apply] at hd
      split at hd
      · exact .blocked c (List.mem_of_mem_erase hd)
      · exact .blocked d hd
    · exact { LinksFrom.refl s u with signal := fun v d n hv => linked_of_update (by simp) hv }
    · exact { LinksFrom.refl s u with signal := fun v d n hv => linked_of_update (by simp) hv }
  | @condSignalled _ t c w next s₁ _ hc hp hf h h₁ =>
    obtain ⟨sleeping, h₂, hsl⟩ := wakeup_ok h
    have hw : s.Linked w := .signal t c next hp
    have hL : LinksFrom s s₁ u := by
      refine LinksFrom.push ?_ hw h₂
      obtain ⟨-, rfl⟩ | ⟨-, -, rfl⟩ := hsl
      · exact .refl _ _
      · exact .unsleep _ _ _ _
    obtain ⟨_, _, _, _, _, _, rfl⟩ := wakeup_frame h
    exact .condSignalled (hheld hc) h₁ hL rfl rfl

theorem LinksFrom.pollerStep (h : StepCase s .poller s') : LinksFrom s s' u := by
  cases h with
  | deschedNone hp hf h =>
    rw [handledEvent_ok h]
    exact { LinksFrom.refl s u with hands := fun hu => by rw [after_hands] at hu; cases hu }
  | account hp h =>
    rw [handledEvent_ok h]
    exact { LinksFrom.refl s u with hands := fun hu => by rw [after_hands] at hu; cases hu }
  | deschedSome hp hf =>
    obtain ⟨hm, -, hs⟩ := pollerDeschedEvent_some hf
    rw [hs]
    refine { LinksFrom.refl s u with
      waiting := fun hw => .waiting (List.mem_of_mem_erase hw)
      hands := fun hu => ?_ }
    cases hu
    exact .waiting hm
  | @push t _ _ _ _ _ hp hf h =>
    have ht : s.Linked t := .hands (by rw [hp]; rfl)
    have hE : ∀ eof, LinksFrom s { s with stFdEof := eof } u :=
      fun _ => .of_eq rfl rfl rfl rfl rfl rfl rfl
    exact { (hE _).push ht h with hands := fun hu => by cases hu }

theorem LinksFrom.step (hS : s.Sleepers) (h : StepCase s l s') (hu : s'.Linked u) :
    s.Linked u ∨ ∃ i, l = .call i .spawn ∧ u = s.numLthreads := by
  cases l with
  | sched i b => exact .inl ((LinksFrom.schedStep h).linked hu)
  | cont i => exact .inl ((LinksFrom.contStep hS h).linked hu)
  | poller => exact .inl ((LinksFrom.pollerStep h).linked hu)
  | unpark i =>
    cases h with
    | @unpark _ deep timeout signalled h =>
      have hL : LinksFrom s { s with schedPc := update s.schedPc i .expire } u :=
        .pass fun g hg => by cases hg
      refine .inl (LinksFrom.linked ?_ hu)
      cases deep <;> exact { LinksFrom.refl s u with held := hL.held }
  | tick | fire | inject =>
    cases h
    refine .inl (LinksFrom.linked ?_ hu)
    exact .of_eq rfl rfl rfl rfl rfl rfl rfl
  | kevent k =>
    cases h
    refine .inl (LinksFrom.linked ?_ hu)
    exact { LinksFrom.refl s u with hands := fun hu => by rw [nextEvent_hands] at hu; cases hu }
  | call i op =>
    by_cases hop : op = .spawn
    · cases h with
      | @condSignal _ _ _ next => cases next <;> cases hop
      | spawn hc hp h =>
        by_cases hn : u = s.numLthreads
        · exact .inr ⟨i, rfl, hn⟩
        · refine .inl (LinksFrom.linked ?_ hu)
          obtain ⟨-, rfl⟩ | ⟨-, rfl⟩ := schedPushReadyUnsafe_ok h
          · refine LinksFrom.trans ?_ (LinksFrom.wake _ i u)
            exact { LinksFrom.refl s u with signal := fun v d n hv => linked_of_update (by simp) hv }
          · refine LinksFrom.trans ?_ (LinksFrom.wake _ i u)
            refine { LinksFrom.refl s u with
              ready := fun k hk => ?_
              signal := fun v d n hv => linked_of_update (by simp) hv }
            obtain hk | rfl := mem_update_append hk
            · exact .ready k hk
            · exact absurd rfl hn
      | _ => cases hop
    · exact .inl ((LinksFrom.callStep hS hop h).linked hu)

structure State.Homes (s : State m) : Prop where
  running : ∀ i t, s.currentLthread i = some t → s.isRunning t = true
  unique : ∀ i j t, s.currentLthread i = some t → s.currentLthread j = some t → i = j
  here : ∀ i t, s.currentLthread i = some t → s.sched t = i ∨ s.schedPc (s.sched t) = .resume t

theorem State.Homes.mono (h : s.Homes) (hc : s'.currentLthread = s.currentLthread)
    (hr : s'.isRunning = s.isRunning)
    (hs : ∀ i t, s.currentLthread i = some t → s'.sched t = s.sched t)
    (hp : ∀ k t, s.schedPc k = .resume t → s'.schedPc k = .resume t) : s'.Homes where
  running i t ht := by
    rw [hc] at ht
    rw [hr]
    exact h.running i t ht
  unique i j t hi hj := by
    rw [hc] at hi hj
    exact h.unique i j t hi hj
  here i t ht := by
    rw [hc] at ht
    rw [hs i t ht]
    exact (h.here i t ht).imp_right (hp _ t)

theorem resume_of_update {p : SchedPc m} (hi : ∀ t, s.schedPc i ≠ .resume t) (k : Fin (m + 1))
    (t : ℕ) (h : s.schedPc k = .resume t) : update s.schedPc i p k = .resume t := by
  by_cases hk : k = i
  · subst hk
    exact absurd h (hi t)
  · rwa [Function.update_of_ne hk]

theorem resume_wake (s : State m) (i k : Fin (m + 1)) (t : ℕ) (h : s.schedPc k = .resume t) :
    (schedWakeUnsafe s i).schedPc k = .resume t := by
  cases hb : s.blockState i with
  | willBlock | wontBlock => simpa [schedWakeUnsafe, hb] using h
  | isBlocking =>
    by_cases hk : k = i
    · subst hk
      simp [schedWakeUnsafe, hb, h, SchedPc.signal]
    · simpa [schedWakeUnsafe, hb, hk] using h

theorem State.Homes.pass {p : SchedPc m} (h : s.Homes) (hi : ∀ t, s.schedPc i ≠ .resume t)
    (hc : s'.currentLthread = s.currentLthread) (hr : s'.isRunning = s.isRunning)
    (hs : s'.sched = s.sched) (hp : s'.schedPc = update s.schedPc i p) : s'.Homes := by
  apply h.mono hc hr (fun _ _ _ => by rw [hs])
  rw [hp]
  exact resume_of_update hi

theorem State.Homes.push (h : s.Homes) (hp : schedPushReadyUnsafe s i t = .ok s') : s'.Homes := by
  obtain ⟨-, rfl⟩ | ⟨-, rfl⟩ := schedPushReadyUnsafe_ok hp <;>
    exact h.mono rfl rfl (fun _ _ _ => rfl) (resume_wake _ _)

theorem State.Homes.frame (h : s.Homes) (hc : s'.currentLthread = s.currentLthread)
    (hr : s'.isRunning = s.isRunning) (hs : s'.sched = s.sched) (hp : s'.schedPc = s.schedPc) :
    s'.Homes :=
  h.mono hc hr (fun _ _ _ => by rw [hs]) (fun _ _ hk => by rwa [hp])

theorem push_holds (h : schedPushReadyUnsafe s i t = .ok s') (k : Fin (m + 1)) :
    (s'.schedPc k).holds = (s.schedPc k).holds := by
  obtain ⟨-, rfl⟩ | ⟨-, rfl⟩ := schedPushReadyUnsafe_ok h <;>
    exact (schedWakeUnsafe_holds _ i k).1

theorem expireLoop_holds {now : BitVec 64} {fuel : ℕ} (h : expireLoop i now fuel s = .ok s')
    (k : Fin (m + 1)) : (s'.schedPc k).holds = (s.schedPc k).holds := by
  induction fuel generalizing s with
  | zero =>
    cases h
    rfl
  | succ fuel ih =>
    simp only [Lthread.expireLoop] at h
    split at h
    · cases h
      rfl
    · split at h
      · obtain ⟨s₁, h₁, h₂⟩ := bind_ok h
        obtain ⟨-, h₃⟩ := deschedSleepUnsafe_ok h₁
        exact (ih h₂).trans (push_holds h₃ k)
      · cases h
        rfl

theorem State.Homes.expireLoop {now : BitVec 64} {fuel : ℕ} (hH : s.Homes)
    (h : expireLoop i now fuel s = .ok s') : s'.Homes := by
  induction fuel generalizing s with
  | zero =>
    cases h
    exact hH
  | succ fuel ih =>
    simp only [Lthread.expireLoop] at h
    split at h
    · cases h
      exact hH
    · split at h
      · obtain ⟨s₁, h₁, h₂⟩ := bind_ok h
        obtain ⟨-, h₃⟩ := deschedSleepUnsafe_ok h₁
        refine ih (State.Homes.push ?_ h₃) h₂
        exact hH.frame rfl rfl rfl rfl
      · cases h
        exact hH

theorem State.Homes.wakeNeighbor {next : SchedPc m} (hH : s.Homes)
    (hi : ∀ t, s.schedPc i ≠ .resume t) (h : wakeNeighbor s i next = some s') : s'.Homes := by
  obtain ⟨-, rfl⟩ | ⟨hne, -, rfl⟩ := wakeNeighbor_some h
  · exact hH.pass hi rfl rfl rfl rfl
  · refine hH.mono rfl rfl (fun _ _ _ => rfl) fun k t hk => ?_
    have hki : k ≠ i := by
      rintro rfl
      exact hi t hk
    dsimp only
    rw [Function.update_of_ne hki]
    exact resume_wake s _ k t hk

theorem State.Homes.resumeEnter (hH : s.Homes) (hp : s.schedPc i = .resume t)
    (h : resumeEnter s i t = .ok s') : s'.Homes := by
  obtain ⟨hsi, hrun, rfl⟩ := resumeEnter_ok h
  have hnot : ∀ k u, s.currentLthread k = some u → u ≠ t := by
    rintro k u hk rfl
    rw [hH.running k u hk] at hrun
    cases hrun
  have hcur : ∀ k u, update s.currentLthread i (some t) k = some u →
      (k = i ∧ u = t) ∨ (k ≠ i ∧ s.currentLthread k = some u) := by
    intro k u hk
    by_cases hki : k = i
    · subst hki
      rw [Function.update_self] at hk
      exact .inl ⟨rfl, (Option.some.inj hk).symm⟩
    · rw [Function.update_of_ne hki] at hk
      exact .inr ⟨hki, hk⟩
  refine { running := ?_, unique := ?_, here := ?_ }
  · intro k u hk
    obtain ⟨-, rfl⟩ | ⟨-, hk⟩ := hcur k u hk
    · exact Function.update_self ..
    · dsimp only
      rw [Function.update_of_ne (hnot k u hk)]
      exact hH.running k u hk
  · intro j k u hj hk
    obtain ⟨hji, hut⟩ | ⟨-, hj'⟩ := hcur j u hj
    · obtain ⟨hki, -⟩ | ⟨-, hk'⟩ := hcur k u hk
      · rw [hji, hki]
      · exact absurd hut (hnot k u hk')
    · obtain ⟨-, hut⟩ | ⟨-, hk'⟩ := hcur k u hk
      · exact absurd hut (hnot j u hj')
      · exact hH.unique j k u hj' hk'
  · intro k u hk
    obtain ⟨rfl, rfl⟩ | ⟨-, hk⟩ := hcur k u hk
    · exact .inl hsi
    · refine (hH.here k u hk).imp_right fun hres => ?_
      have hne : s.sched u ≠ i := by
        intro he
        rw [he, hp] at hres
        cases hres
        exact hnot k t hk rfl
      dsimp only
      rwa [Function.update_of_ne hne]

theorem State.Homes.resumeLeave (hH : s.Homes) (hS : s.Sleepers) (hp : s.schedPc i = .leave t)
    (h : resumeLeave s i t = .ok s') : s'.Homes := by
  have hs := resumeLeave_ok h
  subst hs
  have hc : s.currentLthread i = some t := by rw [hS.current, hp]; rfl
  have hcur : ∀ k u, update s.currentLthread i none k = some u →
      u ≠ t ∧ s.currentLthread k = some u := by
    intro k u hk
    by_cases hki : k = i
    · subst hki
      simp at hk
    · rw [Function.update_of_ne hki] at hk
      refine ⟨?_, hk⟩
      rintro rfl
      exact hki (hH.unique k i u hk hc)
  refine { running := ?_, unique := ?_, here := ?_ }
  · intro k u hk
    obtain ⟨hut, hk⟩ := hcur k u hk
    dsimp only
    rw [Function.update_of_ne hut]
    exact hH.running k u hk
  · intro j k u hj hk
    exact hH.unique j k u (hcur j u hj).2 (hcur k u hk).2
  · intro k u hk
    refine (hH.here k u (hcur k u hk).2).imp_right fun hres => ?_
    exact resume_of_update (by rw [hp]; simp) _ u hres

theorem State.Homes.setSched (hH : s.Homes) (hp : s.schedPc i = .setSched t) :
    ({ s with
      sched := update s.sched t i
      schedPc := update s.schedPc i (.resume t) } : State m).Homes := by
  refine { running := hH.running, unique := hH.unique, here := ?_ }
  intro k u hk
  by_cases hut : u = t
  · subst hut
    simp
  · simp only [Function.update_of_ne hut]
    exact (hH.here k u hk).imp_right (resume_of_update (by rw [hp]; simp) _ u)

theorem State.Homes.schedStep {b : Bool} (hH : s.Homes) (hS : s.Sleepers)
    (h : StepCase s (.sched i b) s') : s'.Homes := by
  cases h with
  | clockRead h | popEmpty h _ => exact hH.pass (by rw [h]; simp) rfl rfl rfl rfl
  | expired h h₁ =>
    refine (hH.expireLoop h₁).pass (fun t ht => ?_) rfl rfl rfl rfl
    have hi := expireLoop_holds h₁ i
    rw [ht, h] at hi
    cases hi
  | probeFail h hp =>
    refine hH.pass ?_ rfl rfl rfl rfl
    obtain h | ⟨v, h⟩ := h <;> rw [h] <;> simp
  | pop h hr hp =>
    refine hH.pass ?_ rfl rfl rfl rfl
    intro t ht
    rw [ht] at h
    cases h
  | wakeNeighbor h h₁ | finish h h₁ => exact hH.wakeNeighbor (by rw [h]; simp) h₁
  | setSched h => exact hH.setSched h
  | resume h h₁ => exact hH.resumeEnter h h₁
  | leave h h₁ => exact hH.resumeLeave hS h h₁
  | block h h₁ =>
    obtain ⟨-, rfl⟩ | ⟨-, -, -, -, rfl⟩ | ⟨-, timeout, rfl⟩ := schedBlock_ok h₁ <;>
      exact hH.pass (by rw [h]; simp) rfl rfl rfl rfl
  | deepSleep h =>
    obtain ⟨-, hs⟩ | ⟨-, hs⟩ := schedDeepSleep_cases s i <;> rw [hs] <;>
      exact hH.pass (by rw [h]; simp) rfl rfl rfl rfl

theorem State.Homes.leave (hH : s.Homes) (hc : ltCurrent s i = some t)
    (hcur : s'.currentLthread = s.currentLthread) (hr : s'.isRunning = s.isRunning)
    (hs : s'.sched = s.sched) (hp : s'.schedPc = update s.schedPc i (.leave t)) : s'.Homes := by
  obtain ⟨⟨r, hr'⟩, -⟩ := ltCurrent_eq_some hc
  exact hH.pass (by rw [hr']; simp) hcur hr hs hp

theorem State.Homes.sleepLeave {msecs : BitVec 64} {p : Pc} (hH : s.Homes)
    (hc : ltCurrent s i = some t) (h : schedSleep s t msecs = .ok s₁)
    (h₁ : ltYield { s₁ with pc := update s₁.pc t p } i t = .ok s') : s'.Homes := by
  obtain ⟨-, rfl⟩ := ltYield_ok h₁
  obtain ⟨-, rfl⟩ | ⟨-, -, _, _, -, rfl⟩ := schedSleep_ok h <;> exact hH.leave hc rfl rfl rfl rfl

theorem State.Homes.condSignalled {c : ℕ} {next : AfterSignal} (hH : s.Homes)
    (h : condSignalled s c t next = .ok s') : s'.Homes := by
  obtain ⟨-, rfl⟩ | ⟨_, -, h₁⟩ := condSignalled_ok h
  · exact hH.frame rfl rfl rfl rfl
  · obtain ⟨-, rfl⟩ := condBlock_ok h₁
    exact hH.frame rfl rfl rfl rfl

theorem State.Homes.callStep {op : Op} (hH : s.Homes)
    (hn : ∀ k, s.currentLthread k ≠ some s.numLthreads) (h : StepCase s (.call i op) s') :
    s'.Homes := by
  cases h with
  | spawn hc hp h =>
    refine State.Homes.push ?_ h
    refine hH.mono rfl rfl (fun k u hk => ?_) (fun _ _ => id)
    have hu : u ≠ s.numLthreads := by
      rintro rfl
      exact hn k hk
    exact Function.update_of_ne hu ..
  | sleep hc hp h h₁ => exact hH.sleepLeave hc h h₁
  | waitFd hc hp h =>
    obtain ⟨-, -, _, -, rfl⟩ := pollerAddWaitingLthread_ok h
    exact hH.frame rfl rfl rfl rfl
  | condLock hc hp hm h =>
    obtain ⟨ho, rfl⟩ | ⟨-, -, h₁⟩ := condLock_ok h
    · exact hH.frame rfl rfl rfl rfl
    · obtain ⟨-, rfl⟩ := condBlock_ok h₁
      exact hH.frame rfl rfl rfl rfl
  | condSignal hc hp hm h =>
    obtain ⟨-, ⟨-, h₁⟩ | ⟨_, _, -, -, rfl⟩⟩ := condSignal_ok h
    · refine State.Homes.condSignalled ?_ h₁
      exact hH.frame rfl rfl rfl rfl
    · exact hH.frame rfl rfl rfl rfl
  | yield hc hp h | exit hc hp h =>
    obtain ⟨-, rfl⟩ := ltYield_ok h
    exact hH.leave hc rfl rfl rfl rfl
  | ret hc hp => exact hH.leave hc rfl rfl rfl rfl
  | socket | close => exact hH.frame rfl rfl rfl rfl

theorem State.Homes.contStep (hH : s.Homes) (h : StepCase s (.cont i) s') : s'.Homes := by
  cases h with
  | waitFdReturn | sleepReturn => exact hH.frame rfl rfl rfl rfl
  | register hc hp h h₁ =>
    have hs := pollerRegisterEvent_ok h
    subst hs
    obtain ⟨-, rfl⟩ := ltYield_ok h₁
    exact hH.leave hc rfl rfl rfl rfl
  | condLockReturn hc hp h =>
    obtain ⟨-, rfl⟩ := condLockReturn_ok h
    exact hH.frame rfl rfl rfl rfl
  | condSleep hc hp h h₁ => exact hH.sleepLeave hc h h₁
  | condWaitReturn hc hp hm h =>
    obtain ⟨-, -, rfl⟩ | ⟨-, -, rfl⟩ | ⟨-, -, rfl⟩ := condWaitReturn_ok h <;>
      exact hH.frame rfl rfl rfl rfl
  | condSignalled hc hp hf h h₁ =>
    obtain ⟨sleeping, h₂, -⟩ := wakeup_ok h
    refine State.Homes.condSignalled (State.Homes.push ?_ h₂) h₁
    exact hH.frame rfl rfl rfl rfl

structure State.Located (s : State m) : Prop extends s.Sleepers, s.Homes where
  born : ∀ t, s.Linked t → t < s.numLthreads

theorem State.Located.current_lt (hL : s.Located) (h : s.currentLthread i = some t) :
    t < s.numLthreads := by
  rw [hL.current] at h
  cases hp : s.schedPc i <;> rw [hp] at h <;> cases h
  · exact hL.born t (.held i .running (by rw [hp]; rfl))
  · exact hL.born t (.held i .leaving (by rw [hp]; rfl))

theorem State.Located.homes (hL : s.Located) (h : StepCase s l s') : s'.Homes := by
  have hH := hL.toHomes
  cases l with
  | sched i b => exact hH.schedStep hL.toSleepers h
  | unpark i =>
    cases h with
    | @unpark _ deep timeout signalled h =>
      cases deep <;> exact hH.pass (by rw [h]; simp) rfl rfl rfl rfl
  | tick | kevent | fire | inject =>
    cases h
    exact hH.frame rfl rfl rfl rfl
  | call i op => exact hH.callStep (fun k hk => Nat.lt_irrefl _ (hL.current_lt hk)) h
  | cont i => exact hH.contStep h
  | poller =>
    cases h with
    | deschedNone hp hf h | account hp h =>
      rw [handledEvent_ok h]
      exact hH.frame rfl rfl rfl rfl
    | deschedSome hp hf =>
      obtain ⟨-, -, hs⟩ := pollerDeschedEvent_some hf
      rw [hs]
      exact hH.frame rfl rfl rfl rfl
    | @push _ _ _ _ _ s₁ hp hf h =>
      have hH₁ : s₁.Homes := by
        refine State.Homes.push ?_ h
        exact hH.frame rfl rfl rfl rfl
      exact hH₁.frame rfl rfl rfl rfl

theorem condSignalled_numLthreads {c : ℕ} {next : AfterSignal}
    (h : condSignalled s c t next = .ok s') : s'.numLthreads = s.numLthreads := by
  obtain ⟨-, rfl⟩ | ⟨_, -, h₁⟩ := condSignalled_ok h
  · rfl
  · obtain ⟨-, rfl⟩ := condBlock_ok h₁
    rfl

theorem StepCase.numLthreads (h : StepCase s l s') :
    s'.numLthreads = s.numLthreads + if ∃ i, l = .call i .spawn then 1 else 0 := by
  cases l with
  | sched i b =>
    obtain ⟨_, _, _, _, _, _, _, _, _, _, _, _, _, rfl⟩ := h.sched_frame (.inr ⟨b, rfl⟩)
    simp
  | unpark i =>
    obtain ⟨_, _, _, _, _, _, _, _, _, _, _, _, _, rfl⟩ := h.sched_frame (.inl rfl)
    simp
  | poller =>
    obtain ⟨_, _, _, _, _, _, _, _, _, _, _, _, rfl⟩ := h.poller_frame
    simp
  | tick | kevent | fire | inject =>
    cases h
    simp
  | call i op =>
    cases h with
    | spawn hc hp h =>
      obtain ⟨-, rfl⟩ | ⟨-, rfl⟩ := schedPushReadyUnsafe_ok h <;> simp [schedWakeUnsafe]
    | sleep hc hp h h₁ =>
      obtain ⟨-, rfl⟩ := ltYield_ok h₁
      obtain ⟨-, rfl⟩ | ⟨-, -, _, _, -, rfl⟩ := schedSleep_ok h <;> simp
    | waitFd hc hp h =>
      obtain ⟨-, -, _, -, rfl⟩ := pollerAddWaitingLthread_ok h
      simp
    | condLock hc hp hm h =>
      obtain ⟨ho, rfl⟩ | ⟨-, -, h₁⟩ := condLock_ok h
      · simp
      · obtain ⟨-, rfl⟩ := condBlock_ok h₁
        simp
    | @condSignal _ _ c next _ hc hp hm h =>
      have hop : ¬ ∃ j, Label.call i (next.op c) = .call j .spawn := by
        rintro ⟨j, hj⟩
        cases next <;> cases hj
      rw [if_neg hop]
      obtain ⟨-, ⟨-, h₁⟩ | ⟨_, _, -, -, rfl⟩⟩ := condSignal_ok h
      · have hn := condSignalled_numLthreads h₁
        exact hn
      · rfl
    | yield hc hp h | exit hc hp h =>
      obtain ⟨-, rfl⟩ := ltYield_ok h
      simp
    | ret | socket | close => simp [kernelClose]
  | cont i =>
    rw [if_neg (by simp), Nat.add_zero]
    cases h with
    | waitFdReturn | sleepReturn => rfl
    | register hc hp h h₁ =>
      have hs := pollerRegisterEvent_ok h
      subst hs
      obtain ⟨-, rfl⟩ := ltYield_ok h₁
      rfl
    | condLockReturn hc hp h =>
      obtain ⟨-, rfl⟩ := condLockReturn_ok h
      rfl
    | condSleep hc hp h h₁ =>
      obtain ⟨-, rfl⟩ := ltYield_ok h₁
      obtain ⟨-, rfl⟩ | ⟨-, -, _, _, -, rfl⟩ := schedSleep_ok h <;> rfl
    | condWaitReturn hc hp hm h =>
      obtain ⟨-, -, rfl⟩ | ⟨-, -, rfl⟩ | ⟨-, -, rfl⟩ := condWaitReturn_ok h <;> rfl
    | condSignalled hc hp hf h h₁ =>
      have hn := condSignalled_numLthreads h₁
      obtain ⟨_, _, _, _, _, _, rfl⟩ := wakeup_frame h
      exact hn

theorem State.Located.step (hL : s.Located) (h : StepCase s l s') : s'.Located where
  toSleepers := hL.toSleepers.step h
  toHomes := hL.homes h
  born t ht := by
    rw [h.numLthreads]
    obtain ht | ⟨i, rfl, rfl⟩ := LinksFrom.step hL.toSleepers h ht
    · exact Nat.lt_add_right _ (hL.born t ht)
    · simp

theorem located_of_reach {ok : State m → Label m → Prop} {clock : ℕ} {isOpen : ℕ → Bool}
    (hr : Runs.Reach step ok (State.init m clock isOpen) s) : s.Located := by
  apply invariant_of_reach (I := State.Located) hr
  · rw [init_eq]
    refine {
      current := fun _ => rfl, marked := by simp [State.empty], once := by simp [State.empty]
      running := by simp [State.empty], unique := by simp [State.empty]
      here := by simp [State.empty], born := ?_ }
    intro t ht
    cases ht with
    | ready i h =>
      by_cases hi : i = 0
      · subst hi
        simpa using h
      · simp [hi] at h
    | signal u c next h => by_cases hu : u = 0 <;> simp [hu] at h
    | held i g h | hands h => cases h
    | sleeping i h | waiting h | blocked c h => cases h
  · rintro s s' l - hL - hc
    exact hL.step hc
  · intro s f hL
    refine { hL with born := fun t ht => hL.born t (LinksFrom.linked ?_ ht) }
    exact .of_eq rfl rfl rfl rfl rfl rfl rfl

end Lthread
